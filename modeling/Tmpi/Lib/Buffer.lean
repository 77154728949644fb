import Mathlib.Data.List.Basic
import Mathlib.Tactic

/-! Byte buffers and the C arithmetic types stored in them. -/

namespace Tmpi

/-- What an `int` of 32 bits keeps of a number. -/
def wrap (n : Int) : Int := n.bmod (2^32)

theorem wrap_eq {n : Int} (low : -2^31 ≤ n) (high : n < 2^31) : wrap n = n := by
  apply Int.bmod_eq_of_le
  · omega
  · omega

theorem wrap_lt (n : Int) : wrap n < 2^31 := by
  have most := @Int.bmod_lt n (2^32) (by decide)
  rw [wrap]
  omega

/-- The multiple of 2^32 that is lost. -/
theorem exists_wrap (n : Int) : ∃ k, n = wrap n + 2^32 * k := by
  exact ⟨n.bdiv (2^32), (Int.bmod_add_bdiv n (2^32)).symm⟩

theorem wrap_add (a b : Int) : wrap (wrap a + b) = wrap (a + b) := Int.bmod_add_bmod

theorem wrap_le {n : Int} (nonneg : 0 ≤ n) : wrap n ≤ n := by
  obtain ⟨k, parts⟩ := exists_wrap n
  have most := wrap_lt n
  omega

/-- A number that does not fit leaves fewer behind it, or a negative one. -/
theorem wrap_eq_iff {n : Int} (nonneg : 0 ≤ n) : wrap n = n ↔ n < 2^31 := by
  constructor
  · intro same
    have most := wrap_lt n
    omega
  · intro small
    apply wrap_eq
    · omega
    · exact small

abbrev Buffer := List UInt8

/-- `memcpy(dst, src, len)`. -/
def memcpy (dst src : Buffer) (len : Nat) : Buffer := src.take len ++ dst.drop len

theorem take_memcpy {dst src : Buffer} {len : Nat} (room : len ≤ src.length) :
    (memcpy dst src len).take len = src.take len := by
  rw [memcpy, List.take_append_of_le_length (by simp [room]), List.take_take, Nat.min_self]

theorem length_memcpy {dst src : Buffer} {len : Nat} (room : len ≤ src.length)
    (fits : len ≤ dst.length) : (memcpy dst src len).length = dst.length := by
  simp only [memcpy, List.length_append, List.length_take, List.length_drop,
    Nat.min_eq_left room]
  omega

theorem drop_memcpy {dst src : Buffer} {len n : Nat} (behind : len ≤ n) (room : len ≤ src.length) :
    (memcpy dst src len).drop n = dst.drop n := by
  have front : (src.take len).length = len := List.length_take_of_le room
  rw [memcpy, List.drop_append, front, List.drop_of_length_le (by omega), List.nil_append,
    List.drop_drop]
  congr 1
  omega

/-- An arithmetic type of C as it stands in memory. -/
structure Scalar where
  Value : Type
  size : Nat
  load : List UInt8 → Value
  store : Value → List UInt8
  length_store : ∀ x, (store x).length = size
  load_store : ∀ x, load (store x) = x
  zero : Value
  add : Value → Value → Value
  mul : Value → Value → Value
  neg : Value → Value
  gt : Value → Value → Bool

namespace Scalar

variable (t : Scalar)

/-- `while (nelem--)` over two arrays: every element of the first becomes `f` of the pair. -/
def zipElems (f : t.Value → t.Value → t.Value) : Nat → Buffer → Buffer → Buffer
  | 0, a, _ => a
  | nelem + 1, a, b =>
      t.store (f (t.load (a.take t.size)) (t.load (b.take t.size))) ++
        zipElems f nelem (a.drop t.size) (b.drop t.size)

def mapElems (f : t.Value → t.Value) : Nat → Buffer → Buffer
  | 0, a => a
  | nelem + 1, a => t.store (f (t.load (a.take t.size))) ++ mapElems f nelem (a.drop t.size)

/-- The first `nelem` elements of a buffer. -/
def vec : Nat → Buffer → List t.Value
  | 0, _ => []
  | nelem + 1, a => t.load (a.take t.size) :: vec nelem (a.drop t.size)

theorem length_zipElems (f : t.Value → t.Value → t.Value) (nelem : Nat) (a b : Buffer)
    (fits : nelem * t.size ≤ a.length) : (t.zipElems f nelem a b).length = a.length := by
  induction nelem generalizing a b with
  | zero => rfl
  | succ nelem ih =>
      rw [Nat.succ_mul] at fits
      rw [zipElems, List.length_append, t.length_store,
        ih _ _ (by rw [List.length_drop]; omega), List.length_drop]
      omega

theorem length_mapElems (f : t.Value → t.Value) (nelem : Nat) (a : Buffer)
    (fits : nelem * t.size ≤ a.length) : (t.mapElems f nelem a).length = a.length := by
  induction nelem generalizing a with
  | zero => rfl
  | succ nelem ih =>
      rw [Nat.succ_mul] at fits
      rw [mapElems, List.length_append, t.length_store,
        ih _ (by rw [List.length_drop]; omega), List.length_drop]
      omega

theorem vec_store_append (x : t.Value) (nelem : Nat) (rest : Buffer) :
    t.vec (nelem + 1) (t.store x ++ rest) = x :: t.vec nelem rest := by
  rw [vec, List.take_left' (t.length_store x), List.drop_left' (t.length_store x), t.load_store]

theorem vec_zipElems (f : t.Value → t.Value → t.Value) (nelem : Nat) (a b : Buffer) :
    t.vec nelem (t.zipElems f nelem a b) = List.zipWith f (t.vec nelem a) (t.vec nelem b) := by
  induction nelem generalizing a b with
  | zero => rfl
  | succ nelem ih =>
      rw [zipElems, t.vec_store_append, ih]
      rfl

theorem vec_mapElems (f : t.Value → t.Value) (nelem : Nat) (a : Buffer) :
    t.vec nelem (t.mapElems f nelem a) = (t.vec nelem a).map f := by
  induction nelem generalizing a with
  | zero => rfl
  | succ nelem ih =>
      rw [mapElems, t.vec_store_append, ih]
      rfl

/-- The elements depend on the bytes they occupy only. -/
theorem vec_take (nelem : Nat) (a : Buffer) {len : Nat} (covers : nelem * t.size ≤ len) :
    t.vec nelem (a.take len) = t.vec nelem a := by
  induction nelem generalizing a len with
  | zero => rfl
  | succ nelem ih =>
      rw [Nat.succ_mul] at covers
      rw [vec, vec, List.take_take, Nat.min_eq_left (by omega), List.drop_take,
        ih (a.drop t.size) (by omega)]

theorem vec_congr (nelem : Nat) {a b : Buffer}
    (same : a.take (nelem * t.size) = b.take (nelem * t.size)) : t.vec nelem a = t.vec nelem b := by
  rw [← t.vec_take nelem a (le_refl _), same, t.vec_take nelem b (le_refl _)]

/-- Element `k` of an array. -/
def elem (k : Nat) (a : Buffer) : t.Value := t.load ((a.drop (k * t.size)).take t.size)

/-- Element `k` of the first array becomes `f` of the pair. -/
def combineAt (f : t.Value → t.Value → t.Value) (k : Nat) (a b : Buffer) : Buffer :=
  a.take (k * t.size) ++ (t.store (f (t.elem k a) (t.elem k b)) ++ a.drop ((k + 1) * t.size))

theorem getElem?_vec {nelem k : Nat} (a : Buffer) (inside : k < nelem) :
    (t.vec nelem a)[k]? = some (t.elem k a) := by
  induction nelem generalizing a k with
  | zero => omega
  | succ nelem ih =>
      cases k with
      | zero => simp [vec, elem]
      | succ k =>
          rw [vec, List.getElem?_cons_succ, ih (a.drop t.size) (by omega), elem, elem,
            List.drop_drop, Nat.succ_mul, Nat.add_comm]

/-- A copy brings the elements that lie in it whole. -/
theorem elem_memcpy {k len : Nat} (dst : Buffer) {src : Buffer} (below : (k + 1) * t.size ≤ len)
    (room : len ≤ src.length) : t.elem k (memcpy dst src len) = t.elem k src := by
  have front : ∀ a : Buffer, (a.take len).drop (k * t.size) = (a.drop (k * t.size)).take
      (len - k * t.size) := fun a => List.drop_take
  have copied : (memcpy dst src len).take len = src.take len := take_memcpy room
  have same := congrArg (fun a => (a.drop (k * t.size)).take t.size) copied
  simp only [front, List.take_take] at same
  rw [Nat.succ_mul] at below
  rw [Nat.min_eq_left (by omega)] at same
  rw [elem, elem, same]

/-- Where the bytes of an element are known by its value, those of an array are by its elements. -/
theorem take_eq_of_elem
    (injective : ∀ a b, a.length = t.size → b.length = t.size → t.load a = t.load b → a = b)
    {n : Nat} {a b : Buffer} (room : n * t.size ≤ a.length) (room' : n * t.size ≤ b.length)
    (same : ∀ k < n, t.elem k a = t.elem k b) : a.take (n * t.size) = b.take (n * t.size) := by
  induction n with
  | zero => simp
  | succ n ih =>
      rw [Nat.succ_mul] at room room'
      have before := ih (by omega) (by omega) fun k below => same k (by omega)
      have last : (a.drop (n * t.size)).take t.size = (b.drop (n * t.size)).take t.size := by
        apply injective
        · rw [List.length_take_of_le (by rw [List.length_drop]; omega)]
        · rw [List.length_take_of_le (by rw [List.length_drop]; omega)]
        · exact same n (Nat.lt_succ_self n)
      rw [Nat.succ_mul, List.take_add, List.take_add, before, last]

section CombineAt

variable {t} {f : t.Value → t.Value → t.Value} {k : Nat} {a : Buffer} (b : Buffer)
  (fits : (k + 1) * t.size ≤ a.length)

include fits

theorem length_combineAt : (t.combineAt f k a b).length = a.length := by
  rw [Nat.succ_mul] at fits
  simp only [combineAt, List.length_append, List.length_take, List.length_drop, t.length_store,
    Nat.succ_mul]
  omega

theorem elem_combineAt : t.elem k (t.combineAt f k a b) = f (t.elem k a) (t.elem k b) := by
  have front : (a.take (k * t.size)).length = k * t.size := by
    rw [List.length_take, Nat.succ_mul] at *
    omega
  rw [combineAt, elem, List.drop_left' front, List.take_left' (t.length_store _), t.load_store]

theorem elem_combineAt_ne {j : Nat} (other : j ≠ k) :
    t.elem j (t.combineAt f k a b) = t.elem j a := by
  have front : (a.take (k * t.size)).length = k * t.size := by
    rw [List.length_take, Nat.succ_mul] at *
    omega
  rcases Nat.lt_or_gt_of_ne other with before | behind
  · -- the element lies in what stands before
    have room : (j + 1) * t.size ≤ k * t.size := Nat.mul_le_mul_right t.size before
    rw [Nat.succ_mul] at room
    rw [combineAt, elem, List.drop_append_of_le_length (by omega),
      List.take_append_of_le_length (by rw [List.length_drop]; omega), List.drop_take,
      List.take_take, Nat.min_eq_left (by omega), elem]
  · have room : (k + 1) * t.size ≤ j * t.size := Nat.mul_le_mul_right t.size behind
    rw [Nat.succ_mul] at room
    rw [combineAt, elem, List.drop_append, front, List.drop_of_length_le (by omega),
      List.nil_append, List.drop_append, t.length_store, List.drop_of_length_le (by
        rw [t.length_store]
        omega), List.nil_append, List.drop_drop, elem]
    congr 3
    rw [Nat.succ_mul]
    omega

end CombineAt

/-- A copy leaves the elements behind it alone. -/
theorem getElem?_vec_memcpy {nelem k len : Nat} (dst : Buffer) {src : Buffer} (inside : k < nelem)
    (behind : len ≤ k * t.size) (room : len ≤ src.length) :
    (t.vec nelem (memcpy dst src len))[k]? = (t.vec nelem dst)[k]? := by
  rw [t.getElem?_vec _ inside, t.getElem?_vec _ inside, elem, elem, drop_memcpy behind room]

end Scalar

end Tmpi
