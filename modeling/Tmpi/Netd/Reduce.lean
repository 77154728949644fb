import Tmpi.Netd.Agreement

/-! What the three reductions compute on `int`s: the same elementwise fold of the
machines' inputs, whatever tree they fold over. -/

namespace Tmpi.Netd

open Network

/-! ## The reference -/

def elementOp : Op → Int → Int → Int
  | .sum, a, b => a + b
  | .mult, a, b => a * b
  | .max, a, b | .absmax, a, b => max a b
  | .min, a, b | .absmin, a, b => min a b
  | .none, a, _ | .last, a, _ => a

/-- One element of the result from two, modulo 2^32. -/
def join (op : Op) (a b : BitVec 32) : BitVec 32 := .ofInt 32 (elementOp op a.toInt b.toInt)

/-- ABSMAX and ABSMIN fold absolute values. -/
def prepare (op : Op) (x : BitVec 32) : BitVec 32 :=
  if op = .absmax ∨ op = .absmin then .ofInt 32 |x.toInt| else x

/-- The elementwise fold of the inputs of machines 0, 1, .., `size - 1`. -/
def reduceSpec (op : Op) (size : Nat) (input : Nat → List (BitVec 32)) : List (BitVec 32) :=
  ((List.range' 1 (size - 1)).map fun i => (input i).map (prepare op)).foldl
    (List.zipWith (join op)) ((input 0).map (prepare op))

example : reduceSpec .absmax 3 (fun i => [5, .ofInt 32 (-7 * i)]) = [5, 14] := by decide

/-! ## The elementwise operators -/

def IsIntOp (op : Op) : Prop := op ≠ .none ∧ op ≠ .last

instance (op : Op) : Decidable (IsIntOp op) := inferInstanceAs (Decidable (_ ∧ _))

/-- The element operator in the `int` row of the table. -/
def intElement : Op → BitVec 32 → BitVec 32 → BitVec 32
  | .sum => intScalar.add
  | .mult => intScalar.mul
  | .max => maxval intScalar
  | .min => minval intScalar
  | .absmax => fun a b => maxval intScalar (absval intScalar a) (absval intScalar b)
  | .absmin => fun a b => minval intScalar (absval intScalar a) (absval intScalar b)
  | .none | .last => fun a _ => a

def intOpFunc (op : Op) : OpFunc := fun x y nelem => intScalar.zipElems (intElement op) nelem x y

theorem optable_int (platform : Platform) {op : Op} (known : IsIntOp op) :
    optable platform .int op = some (intOpFunc op) := by
  obtain ⟨notNone, notLast⟩ := known
  cases op <;> first | exact absurd rfl notNone | exact absurd rfl notLast | rfl

theorem toInt_range (x : BitVec 32) : -2^31 ≤ x.toInt ∧ x.toInt < 2^31 :=
  ⟨BitVec.le_toInt x, BitVec.toInt_lt⟩

theorem toInt_ofInt_of_range {x : Int} (low : -2^31 ≤ x) (high : x < 2^31) :
    (BitVec.ofInt 32 x).toInt = x := by
  rw [BitVec.toInt_ofInt]
  exact Int.bmod_eq_of_le (by omega) (by omega)

theorem toInt_max (a b : BitVec 32) :
    (BitVec.ofInt 32 (max a.toInt b.toInt)).toInt = max a.toInt b.toInt := by
  have rangeA := toInt_range a
  have rangeB := toInt_range b
  apply toInt_ofInt_of_range <;> rcases max_choice a.toInt b.toInt with same | same <;> omega

theorem toInt_min (a b : BitVec 32) :
    (BitVec.ofInt 32 (min a.toInt b.toInt)).toInt = min a.toInt b.toInt := by
  have rangeA := toInt_range a
  have rangeB := toInt_range b
  apply toInt_ofInt_of_range <;> rcases min_choice a.toInt b.toInt with same | same <;> omega

theorem maxval_int (a b : BitVec 32) :
    maxval intScalar a b = BitVec.ofInt 32 (max a.toInt b.toInt) := by
  change (if b.slt a then a else b) = _
  by_cases greater : b.toInt < a.toInt
  · rw [if_pos (BitVec.slt_iff_toInt_lt.mpr greater), max_eq_left greater.le, BitVec.ofInt_toInt]
  · rw [if_neg (fun less => greater (BitVec.slt_iff_toInt_lt.mp less)),
      max_eq_right (not_lt.mp greater), BitVec.ofInt_toInt]

theorem minval_int (a b : BitVec 32) :
    minval intScalar a b = BitVec.ofInt 32 (min a.toInt b.toInt) := by
  change (if a.slt b then a else b) = _
  by_cases less : a.toInt < b.toInt
  · rw [if_pos (BitVec.slt_iff_toInt_lt.mpr less), min_eq_left less.le, BitVec.ofInt_toInt]
  · rw [if_neg (fun h => less (BitVec.slt_iff_toInt_lt.mp h)),
      min_eq_right (not_lt.mp less), BitVec.ofInt_toInt]

theorem absval_int (x : BitVec 32) : absval intScalar x = BitVec.ofInt 32 |x.toInt| := by
  change (if (0 : BitVec 32).slt x then x else -x) = _
  by_cases positive : 0 < x.toInt
  · rw [if_pos (BitVec.slt_iff_toInt_lt.mpr (by simpa using positive)), abs_of_pos positive,
      BitVec.ofInt_toInt]
  · rw [if_neg (fun h => positive (by simpa using BitVec.slt_iff_toInt_lt.mp h)),
      abs_of_nonpos (not_lt.mp positive), BitVec.ofInt_neg, BitVec.ofInt_toInt]

theorem intElement_eq {op : Op} (known : IsIntOp op) (a b : BitVec 32) :
    intElement op a b = join op (prepare op a) (prepare op b) := by
  obtain ⟨notNone, notLast⟩ := known
  cases op with
  | none => exact absurd rfl notNone
  | last => exact absurd rfl notLast
  | sum =>
      simp only [join, elementOp, BitVec.ofInt_add, BitVec.ofInt_toInt]
      rfl
  | mult =>
      simp only [join, elementOp, BitVec.ofInt_mul, BitVec.ofInt_toInt]
      rfl
  | max => exact maxval_int a b
  | min => exact minval_int a b
  | absmax =>
      simp only [intElement, maxval_int, absval_int]
      rfl
  | absmin =>
      simp only [intElement, minval_int, absval_int]
      rfl

theorem join_comm {op : Op} (known : IsIntOp op) (a b : BitVec 32) : join op a b = join op b a := by
  obtain ⟨notNone, notLast⟩ := known
  cases op <;> first
    | exact absurd rfl notNone
    | exact absurd rfl notLast
    | simp only [join, elementOp, Int.add_comm, Int.mul_comm, max_comm, min_comm]

theorem join_assoc {op : Op} (known : IsIntOp op) (a b c : BitVec 32) :
    join op (join op a b) c = join op a (join op b c) := by
  obtain ⟨notNone, notLast⟩ := known
  cases op with
  | none => exact absurd rfl notNone
  | last => exact absurd rfl notLast
  | sum => simp only [join, elementOp, BitVec.ofInt_add, BitVec.ofInt_toInt, BitVec.add_assoc]
  | mult => simp only [join, elementOp, BitVec.ofInt_mul, BitVec.ofInt_toInt, BitVec.mul_assoc]
  | max => simp only [join, elementOp, toInt_max, max_assoc]
  | absmax => simp only [join, elementOp, toInt_max, max_assoc]
  | min => simp only [join, elementOp, toInt_min, min_assoc]
  | absmin => simp only [join, elementOp, toInt_min, min_assoc]

theorem prepare_prepare (op : Op) (x : BitVec 32) : prepare op (prepare op x) = prepare op x := by
  simp only [prepare]
  split_ifs with isAbs
  · have range := toInt_range x
    by_cases least : x.toInt = -2^31
    · have same : BitVec.ofInt 32 |x.toInt| = x := by
        rw [least]
        apply BitVec.eq_of_toInt_eq
        rw [least]
        decide
      rw [same, same]
    · have bound : |x.toInt| < 2^31 := by
        rw [abs_lt]
        omega
      have nonneg := abs_nonneg x.toInt
      rw [toInt_ofInt_of_range (by omega) bound, abs_abs]
  · rfl

/-- A joined element is prepared already. -/
theorem prepare_join (op : Op) (a b : BitVec 32) :
    prepare op (join op (prepare op a) (prepare op b)) = join op (prepare op a) (prepare op b) := by
  have selects : op = .absmax ∨ op = .absmin → join op (prepare op a) (prepare op b) = prepare op a ∨
      join op (prepare op a) (prepare op b) = prepare op b := by
    rintro (rfl | rfl)
    · simp only [join, elementOp]
      rcases max_choice (prepare .absmax a).toInt (prepare .absmax b).toInt with same | same
      · exact Or.inl (by rw [same, BitVec.ofInt_toInt])
      · exact Or.inr (by rw [same, BitVec.ofInt_toInt])
    · simp only [join, elementOp]
      rcases min_choice (prepare .absmin a).toInt (prepare .absmin b).toInt with same | same
      · exact Or.inl (by rw [same, BitVec.ofInt_toInt])
      · exact Or.inr (by rw [same, BitVec.ofInt_toInt])
  by_cases isAbs : op = .absmax ∨ op = .absmin
  · rcases selects isAbs with same | same
    · rw [same, prepare_prepare]
    · rw [same, prepare_prepare]
  · have plain : ∀ x, prepare op x = x := fun x => if_neg isAbs
    simp only [plain]

/-! ## Vectors -/

theorem zipWith_join_comm {op : Op} (known : IsIntOp op) (a b : List (BitVec 32)) :
    List.zipWith (join op) a b = List.zipWith (join op) b a :=
  List.zipWith_comm_of_comm (join_comm known)

theorem zipWith_join_assoc {op : Op} (known : IsIntOp op) (a b c : List (BitVec 32)) :
    List.zipWith (join op) (List.zipWith (join op) a b) c =
      List.zipWith (join op) a (List.zipWith (join op) b c) := by
  induction a generalizing b c with
  | nil => simp
  | cons x a ih =>
      cases b with
      | nil => simp
      | cons y b =>
          cases c with
          | nil => simp
          | cons z c => simp only [List.zipWith_cons_cons, ih, join_assoc known]

theorem zipWith_intElement {op : Op} (known : IsIntOp op) (a b : List (BitVec 32)) :
    List.zipWith (intElement op) a b =
      List.zipWith (join op) (a.map (prepare op)) (b.map (prepare op)) := by
  rw [List.zipWith_map]
  congr
  funext x y
  exact intElement_eq known x y

theorem map_prepare_zipWith {op : Op} (known : IsIntOp op) (a b : List (BitVec 32)) :
    (List.zipWith (intElement op) a b).map (prepare op) = List.zipWith (intElement op) a b := by
  rw [List.map_zipWith]
  congr
  funext x y
  rw [intElement_eq known, prepare_join]

/-- Absolute values may be taken before the fold. -/
theorem map_prepare_foldl {op : Op} (known : IsIntOp op) (a : List (BitVec 32))
    (values : List (List (BitVec 32))) :
    (values.foldl (List.zipWith (intElement op)) a).map (prepare op) =
      (values.map (List.map (prepare op))).foldl (List.zipWith (join op)) (a.map (prepare op)) := by
  induction values generalizing a with
  | nil => rfl
  | cons value values ih =>
      rw [List.foldl_cons, ih, map_prepare_zipWith known, zipWith_intElement known]
      rfl

theorem map_prepare_foldl_self {op : Op} (known : IsIntOp op) (a : List (BitVec 32))
    {values : List (List (BitVec 32))} (nonempty : values ≠ []) :
    (values.foldl (List.zipWith (intElement op)) a).map (prepare op) =
      values.foldl (List.zipWith (intElement op)) a := by
  obtain ⟨front, last, rfl⟩ := List.eq_nil_or_concat values |>.resolve_left nonempty
  rw [List.concat_eq_append, List.foldl_append]
  exact map_prepare_zipWith known _ last

/-- A buffer read as a vector of `int`s. -/
def intVec (nelem : Nat) (a : Buffer) : List (BitVec 32) := intScalar.vec nelem a

theorem intVec_intOpFunc (op : Op) (nelem : Nat) (x y : Buffer) :
    intVec nelem (intOpFunc op x y nelem) =
      List.zipWith (intElement op) (intVec nelem x) (intVec nelem y) :=
  intScalar.vec_zipElems (intElement op) nelem x y

theorem reduceLen_int (platform : Platform) (nelem : Nat) :
    reduceLen platform nelem .int = wrap ((nelem * 4 : Nat) : Int) := by
  simp [reduceLen, dtypetable]

theorem reduceLen_small (platform : Platform) {nelem : Nat} (small : nelem * 4 < 2^31) :
    reduceLen platform nelem .int = ((nelem * 4 : Nat) : Int) := by
  rw [reduceLen_int, wrap_eq]
  · omega
  · omega

theorem vec_memcpy {nelem : Nat} (dst : Buffer) {src : Buffer} (room : nelem * 4 ≤ src.length) :
    intVec nelem (memcpy dst src (nelem * 4)) = intVec nelem src :=
  intScalar.vec_congr nelem (take_memcpy room)

theorem vec_gathered {op : Op} {nelem : Nat} (src result : Buffer) (values : List Buffer)
    (srcFits : nelem * 4 ≤ src.length) (fits : ∀ value ∈ values, nelem * 4 ≤ value.length) :
    intVec nelem (gathered (intOpFunc op) nelem (nelem * 4) src result values).2 =
      (values.map (intVec nelem)).foldl (List.zipWith (intElement op))
        (intVec nelem src) := by
  have folded : ∀ buffers : Buffer × Buffer,
      intVec nelem (values.foldl (fun buffers value => (memcpy buffers.1 value (nelem * 4),
        intOpFunc op buffers.2 (memcpy buffers.1 value (nelem * 4)) nelem))
        buffers).2 =
      (values.map (intVec nelem)).foldl (List.zipWith (intElement op))
        (intVec nelem buffers.2) := by
    induction values with
    | nil => exact fun _ => rfl
    | cons value values ih =>
        intro buffers
        rw [List.foldl_cons, ih (fun other member => fits other (by simp [member]))]
        rw [intVec_intOpFunc, vec_memcpy _ (fits value (by simp))]
        rfl
  rw [gathered, folded, vec_memcpy _ srcFits]

theorem vec_shares {size root : Nat} {tree : Spanning (Finset.range size) root} {op : Op}
    {nelem : Nat} {src result : Nat → Buffer} {share : Nat → Buffer × Buffer}
    (srcFits : ∀ i < size, nelem * 4 ≤ (src i).length)
    (shares : Shares tree (intOpFunc op) nelem
      (nelem * 4) src result share) {i : Nat} (inside : i < size) :
    intVec nelem (share i).2 =
      ((tree.kids i).map fun c => intVec nelem (share c).2).foldl
        (List.zipWith (intElement op)) (intVec nelem (src i)) := by
  rw [shares.combined i inside, vec_gathered _ _ _ (srcFits i inside), List.map_map]
  · rfl
  · intro value member
    obtain ⟨c, child, rfl⟩ := List.mem_map.mp member
    exact shares.room c (Finset.mem_range.mp
      (tree.mem_kids_up (Finset.mem_range.mpr inside) child).1)

/-- The root's vector is the reference fold. -/
theorem vec_root {size root : Nat} (tree : Spanning (Finset.range size) root) {op : Op}
    (known : IsIntOp op) (large : ¬ size < 2) {nelem : Nat} {src result : Nat → Buffer}
    {share : Nat → Buffer × Buffer} (srcFits : ∀ i < size, nelem * 4 ≤ (src i).length)
    (shares : Shares tree (intOpFunc op) nelem
      (nelem * 4) src result share) :
    intVec nelem (share root).2 =
      reduceSpec op size fun i => intVec nelem (src i) := by
  have inRoot := Finset.mem_range.mp tree.root_mem
  have equation := fun i (inside : i < size) => vec_shares srcFits shares inside
  have prepared := tree.foldl_root (List.zipWith (join op)) (zipWith_join_comm known)
    (zipWith_join_assoc known) (fun i => (intVec nelem (src i)).map (prepare op))
    (fun i => (intVec nelem (share i).2).map (prepare op))
    (by
      intro i inside
      rw [equation i (Finset.mem_range.mp inside), map_prepare_foldl known, List.map_map]
      rfl)
    0 (List.range' 1 (size - 1))
    (by
      rw [List.nodup_cons]
      exact ⟨by simp, List.nodup_range'⟩)
    (by
      intro v
      rw [List.mem_cons, List.mem_range'_1, Finset.mem_range]
      omega)
  rw [reduceSpec, ← prepared, equation root inRoot]
  symm
  apply map_prepare_foldl_self known
  rw [ne_eq, List.map_eq_nil_iff]
  have other : ∃ v ∈ Finset.range size, v ≠ root := by
    by_cases zero : root = 0
    · exact ⟨1, Finset.mem_range.mpr (by omega), by omega⟩
    · exact ⟨0, Finset.mem_range.mpr (by omega), by omega⟩
  exact tree.kids_root_ne_nil other

/-- A group of one takes the absolute values itself. -/
theorem vec_reduceAlone (platform : Platform) (op : Op) {nelem : Nat} {src : Buffer}
    (result : Buffer) (srcFits : nelem * 4 ≤ src.length) :
    intVec nelem (reduceAlone platform (memcpy result src (nelem * 4)) nelem op .int) =
      (intVec nelem src).map (prepare op) := by
  have copied := vec_memcpy result srcFits
  rw [reduceAlone]
  by_cases isAbs : op = .absmax ∨ op = .absmin
  · have same : prepare op = absval intScalar := by
      funext x
      exact (if_pos isAbs).trans (absval_int x).symm
    rw [if_pos isAbs, same, ← copied]
    exact intScalar.vec_mapElems (absval intScalar) nelem _
  · have plain : prepare op = id := by
      funext x
      rw [prepare, if_neg isAbs, id]
    rw [if_neg isAbs, plain, List.map_id, copied]

/-! ## Elements that are not moved -/

/-- Two elements by which a reduction shows that it has moved nothing: what it leaves then, and the
value of all inputs. -/
def leftOver : Op → BitVec 32
  | .sum | .max | .absmax => 1
  | .mult | .min | .absmin | .none | .last => 0

def constant : Op → BitVec 32
  | .sum | .max | .absmax => 0
  | .mult | .min | .absmin | .none | .last => 1

theorem leftOver_ne (op : Op) : leftOver op ≠ constant op := by
  cases op <;> decide

theorem intElement_leftOver (op : Op) : intElement op (leftOver op) (constant op) = leftOver op := by
  cases op <;> decide

theorem prepare_constant (op : Op) : prepare op (constant op) = constant op := by
  cases op <;> decide

theorem join_constant (op : Op) : join op (constant op) (constant op) = constant op := by
  cases op <;> decide

/-- `nelem` copies of an element in memory. -/
def filled (nelem : Nat) (x : BitVec 32) : Buffer := (List.replicate nelem (storeInt x)).flatten

theorem length_filled (nelem : Nat) (x : BitVec 32) : (filled nelem x).length = nelem * 4 := by
  rw [filled, List.length_flatten, List.map_replicate, List.sum_replicate]
  rfl

theorem intVec_filled (nelem : Nat) (x : BitVec 32) :
    intVec nelem (filled nelem x) = List.replicate nelem x := by
  induction nelem with
  | zero => rfl
  | succ nelem ih =>
      rw [List.replicate_succ, ← ih]
      exact intScalar.vec_store_append x nelem (filled nelem x)

theorem reduceSpec_constant (op : Op) (size nelem : Nat) :
    reduceSpec op size (fun _ => List.replicate nelem (constant op)) =
      List.replicate nelem (constant op) := by
  have stays : ∀ values : List (List (BitVec 32)),
      (∀ value ∈ values, value = List.replicate nelem (constant op)) →
      values.foldl (List.zipWith (join op)) (List.replicate nelem (constant op)) =
        List.replicate nelem (constant op) := by
    intro values
    induction values with
    | nil => exact fun _ => rfl
    | cons value values ih =>
        intro same
        rw [List.foldl_cons, same value (by simp), List.zipWith_replicate', join_constant]
        exact ih fun other member => same other (by simp [member])
  have prepared : (List.replicate nelem (constant op)).map (prepare op) =
      List.replicate nelem (constant op) := by
    rw [List.map_replicate, prepare_constant]
  rw [reduceSpec, prepared]
  apply stays
  intro value member
  obtain ⟨_, _, same⟩ := List.mem_map.mp member
  exact same.symm

/-- An element behind the length is folded from what stood in the two buffers before. -/
theorem getElem?_gathered {op : Op} {nelem k len : Nat} {src result : Buffer}
    {values : List Buffer} (inside : k < nelem) (behind : len ≤ k * 4) (srcRoom : len ≤ src.length)
    (rooms : ∀ value ∈ values, len ≤ value.length)
    (atSrc : (intVec nelem src)[k]? = some (constant op))
    (atResult : (intVec nelem result)[k]? = some (leftOver op)) :
    (intVec nelem (gathered (intOpFunc op) nelem len src result values).2)[k]? =
      some (leftOver op) := by
  have folded : ∀ buffers : Buffer × Buffer,
      (intVec nelem buffers.1)[k]? = some (constant op) →
      (intVec nelem buffers.2)[k]? = some (leftOver op) →
      (intVec nelem (values.foldl (fun buffers value => (memcpy buffers.1 value len,
        intOpFunc op buffers.2 (memcpy buffers.1 value len) nelem)) buffers).2)[k]? =
          some (leftOver op) := by
    induction values with
    | nil => exact fun _ _ kept => kept
    | cons value values ih =>
        intro buffers first second
        have received : (intVec nelem (memcpy buffers.1 value len))[k]? = some (constant op) := by
          rw [← first]
          exact intScalar.getElem?_vec_memcpy _ inside behind (rooms value (by simp))
        rw [List.foldl_cons]
        apply ih (fun other member => rooms other (by simp [member]))
        · exact received
        · rw [intVec_intOpFunc, List.getElem?_zipWith, second, received]
          exact congrArg some (intElement_leftOver op)
  apply folded
  · exact atSrc
  · rw [← atResult]
    exact intScalar.getElem?_vec_memcpy _ inside behind srcRoom

theorem getElem?_reduceAlone (platform : Platform) {op : Op} {nelem k : Nat} {result : Buffer}
    (atResult : (intVec nelem result)[k]? = some (leftOver op)) :
    (intVec nelem (reduceAlone platform result nelem op .int))[k]? = some (leftOver op) := by
  rw [reduceAlone]
  by_cases isAbs : op = .absmax ∨ op = .absmin
  · have value : BitVec.ofInt 32 |(leftOver op).toInt| = leftOver op := by
      cases op <;> decide
    have same := (absval_int (leftOver op)).trans value
    rw [if_pos isAbs, intVec]
    change (intScalar.vec nelem (intScalar.mapElems (absval intScalar) nelem result))[k]? = _
    rw [intScalar.vec_mapElems, List.getElem?_map]
    exact (congrArg (Option.map (absval intScalar)) atResult).trans (congrArg some same)
  · rw [if_neg isAbs]
    exact atResult

/-! ## Whole runs -/

/-- All machines at the start of one reduction. -/
def reduceStart (platform : Platform) (size root : Nat) (algorithm : Algorithm) (nelem : Nat)
    (op : Op) (src result : Nat → Buffer) : State Nat WireByte Event Outcome where
  proc i :=
    if i < size then
      reduceBy platform (groupInfo size i) 0 (src i) (result i) nelem op .int root algorithm
    else .done ⟨0, [], []⟩
  link _ _ := []
  log _ := []

/-- Every run of the reduction can be finished, and leaves the fold of the inputs at the root. -/
def Folds (platform : Platform) (size root : Nat) (algorithm : Algorithm) (nelem : Nat) (op : Op) :
    Prop :=
  ∀ src result : Nat → Buffer, (∀ i < size, nelem * 4 ≤ (src i).length) →
    (∀ i < size, nelem * 4 ≤ (result i).length) →
    (op = .absmax ∨ op = .absmin → ∀ i < size, .intMin 32 ∉ intVec nelem (src i)) →
    ∀ schedule s, exec schedule (reduceStart platform size root algorithm nelem op src result) =
      some s →
    (∃ remaining final, exec remaining s = some final ∧ Finished final) ∧
    (Finished s → ∃ outcome, s.proc root = .done outcome ∧ outcome.ret = 0 ∧
      intVec nelem outcome.result = reduceSpec op size fun i => intVec nelem (src i))

section Runs

variable {platform : Platform} {size root : Nat} {algorithm : Algorithm} {nelem : Nat} {op : Op}

/-- A run of a reduction whose length is not negative. -/
theorem reduceStart_runs (inRoot : root < size) (known : IsIntOp op)
    (nonneg : 0 ≤ reduceLen platform nelem .int) {src result : Nat → Buffer}
    (srcFits : ∀ i < size, nelem * 4 ≤ (src i).length)
    (resultFits : ∀ i < size, nelem * 4 ≤ (result i).length) {schedule : List Nat}
    {s : State Nat WireByte Event Outcome}
    (ran : exec schedule (reduceStart platform size root algorithm nelem op src result) = some s) :
    (∃ remaining final, exec remaining s = some final ∧ Finished final) ∧
    (Finished s → ∃ outcome, s.proc root = .done outcome ∧ outcome.ret = 0 ∧
      Reduced inRoot algorithm platform nelem op .int (intOpFunc op) src result outcome.result) := by
  obtain ⟨outcome, events, _, _, reduced, phase⟩ := reduceBy_phase 0 platform nelem op .int
    (Or.inr nonneg) inRoot algorithm src result srcFits resultFits
    (fun _ outcome => (.done outcome : Code Outcome))
  have stands : Stands (Finset.range size)
      (fun i => reduceBy platform (groupInfo size i) 0 (src i) (result i) nelem op .int root
        algorithm >>= fun outcome => .done outcome)
      (reduceStart platform size root algorithm nelem op src result) := by
    refine ⟨fun _ _ => rfl, fun i member => ?_, fun i outside => ⟨⟨0, [], []⟩, ?_⟩⟩
    · rw [Prog.bind_done]
      simp [reduceStart, Finset.mem_range.mp member]
    · simp [reduceStart, show ¬ i < size by simpa using outside]
  obtain ⟨completes, _, ended⟩ := phase_runs phase stands ran
  refine ⟨completes, fun stopped => ?_⟩
  obtain ⟨success, facts⟩ := reduced _ (optable_int platform known)
  exact ⟨outcome root, (ended stopped).1.inside root (Finset.mem_range.mpr inRoot), success, facts⟩

/-- Where the length is that of the elements, the root gets the fold. -/
theorem folds_of_small (inRoot : root < size) (known : IsIntOp op) (small : nelem * 4 < 2^31) :
    Folds platform size root algorithm nelem op := by
  intro src result srcFits resultFits _ schedule s ran
  have length := reduceLen_small platform small
  have nonneg : 0 ≤ reduceLen platform nelem .int := by omega
  have bytes : reduceBytes platform nelem .int = nelem * 4 := by
    rw [reduceBytes]
    omega
  obtain ⟨completes, ended⟩ := reduceStart_runs inRoot known nonneg srcFits resultFits ran
  refine ⟨completes, fun stopped => ?_⟩
  obtain ⟨outcome, done, success, alone, group⟩ := ended stopped
  refine ⟨outcome, done, success, ?_⟩
  rw [bytes] at alone group
  by_cases tiny : size < 2
  · have single : size = 1 := by omega
    have atRoot : root = 0 := by omega
    subst single
    subst atRoot
    rw [alone tiny]
    exact vec_reduceAlone platform op (result 0) (srcFits 0 inRoot)
  · obtain ⟨share, shares, final⟩ := group tiny
    rw [final]
    exact vec_root _ known tiny srcFits shares

/-- Where the length lost a multiple of 2^32, the last element is never moved. -/
theorem not_folds_of_nonneg (inRoot : root < size) (known : IsIntOp op)
    (large : 2^31 ≤ nelem * 4) (nonneg : 0 ≤ reduceLen platform nelem .int) :
    ¬ Folds platform size root algorithm nelem op := by
  intro folds
  let src (_ : Nat) : Buffer := filled nelem (constant op)
  let result (_ : Nat) : Buffer := filled nelem (leftOver op)
  have srcFits : ∀ i < size, nelem * 4 ≤ (src i).length := fun _ _ =>
    (length_filled nelem (constant op)).ge
  have resultFits : ∀ i < size, nelem * 4 ≤ (result i).length := fun _ _ =>
    (length_filled nelem (leftOver op)).ge
  have bounded : op = .absmax ∨ op = .absmin → ∀ i < size, .intMin 32 ∉ intVec nelem (src i) := by
    intro _ i _ member
    rw [intVec_filled] at member
    have same := List.eq_of_mem_replicate member
    cases op <;> exact absurd same (by decide)
  have behind : reduceBytes platform nelem .int ≤ (nelem - 1) * 4 := by
    obtain ⟨k, parts⟩ := exists_wrap ((nelem * 4 : Nat) : Int)
    have most := wrap_lt ((nelem * 4 : Nat) : Int)
    have same := reduceLen_int platform nelem
    rw [reduceBytes]
    omega
  have inside : nelem - 1 < nelem := by omega
  obtain ⟨schedule, s, ran, stopped⟩ := (folds src result srcFits resultFits bounded [] _ rfl).1
  obtain ⟨outcome, done, -, vector⟩ := (folds src result srcFits resultFits bounded _ s ran).2
    stopped
  obtain ⟨outcome', done', -, alone, group⟩ := (reduceStart_runs inRoot known nonneg srcFits
    resultFits ran).2 stopped
  rw [done] at done'
  cases done'
  have atSrc : (intVec nelem (src root))[nelem - 1]? = some (constant op) := by
    rw [intVec_filled, List.getElem?_replicate_of_lt inside]
  have atResult : (intVec nelem (result root))[nelem - 1]? = some (leftOver op) := by
    rw [intVec_filled, List.getElem?_replicate_of_lt inside]
  have srcRoom : reduceBytes platform nelem .int ≤ (src root).length := by
    rw [length_filled]
    omega
  have left : (intVec nelem outcome.result)[nelem - 1]? = some (leftOver op) := by
    by_cases tiny : size < 2
    · rw [alone tiny]
      apply getElem?_reduceAlone
      rw [← atResult]
      exact intScalar.getElem?_vec_memcpy _ inside behind srcRoom
    · obtain ⟨share, shares, final⟩ := group tiny
      rw [final, shares.combined root inRoot]
      apply getElem?_gathered inside behind srcRoom ?_ atSrc atResult
      intro value member
      obtain ⟨c, child, rfl⟩ := List.mem_map.mp member
      exact shares.room c (Finset.mem_range.mp
        ((reduceTree inRoot algorithm).mem_kids_up (Finset.mem_range.mpr inRoot) child).1)
  have expected : (fun i => intVec nelem (src i)) = fun _ => List.replicate nelem (constant op) := by
    funext i
    exact intVec_filled nelem (constant op)
  rw [vector, expected, reduceSpec_constant, List.getElem?_replicate_of_lt inside,
    Option.some.injEq] at left
  exact leftOver_ne op left.symm

/-- Where the length is negative, the root dies. -/
theorem not_folds_of_negative (inRoot : root < size) (known : IsIntOp op)
    (negative : reduceLen platform nelem .int < 0) :
    ¬ Folds platform size root algorithm nelem op := by
  intro folds
  let buffer (_ : Nat) : Buffer := filled nelem (constant op)
  have fits : ∀ i < size, nelem * 4 ≤ (buffer i).length := fun _ _ =>
    (length_filled nelem (constant op)).ge
  have bounded : op = .absmax ∨ op = .absmin →
      ∀ i < size, .intMin 32 ∉ intVec nelem (buffer i) := by
    intro _ i _ member
    rw [intVec_filled] at member
    have same := List.eq_of_mem_replicate member
    cases op <;> exact absurd same (by decide)
  have unsound : ¬ LenSound platform nelem op .int := by
    rw [LenSound, optable_int platform known]
    simp [negative]
  have stopped : (reduceStart platform size root algorithm nelem op buffer buffer).proc root =
      .stop := by
    simp only [reduceStart, if_pos inRoot]
    exact reduceBy_stops 0 _ _ unsound algorithm
  obtain ⟨remaining, final, ran, ended⟩ := (folds buffer buffer fits fits bounded [] _ rfl).1
  obtain ⟨value, done⟩ := ended root
  rw [exec_stop ran stopped] at done
  cases done

end Runs

/-- Each of the three algorithms leaves the same vector at the root exactly if the elements have
fewer than 2^31 bytes. -/
theorem netdReduce_fold (platform : Platform) (size root : Nat) (inRoot : root < size)
    (algorithm : Algorithm) (nelem : Nat) (op : Op) (known : IsIntOp op) :
    Folds platform size root algorithm nelem op ↔ nelem * 4 < 2^31 := by
  refine ⟨fun folds => ?_, folds_of_small inRoot known⟩
  by_contra large
  by_cases nonneg : 0 ≤ reduceLen platform nelem .int
  · exact not_folds_of_nonneg inRoot known (not_lt.mp large) nonneg folds
  · exact not_folds_of_negative inRoot known (not_le.mp nonneg) folds

/-- Three machines holding -3, -4 and -5, folded at machine 1 over the binary tree. -/
theorem netdReduce_fold_three :
    ∃ schedule s, exec schedule (reduceStart intPlatform 3 1 .tree 1 .absmin
        (fun i => storeInt (.ofInt 32 (-3 - i))) (fun _ => [0, 0, 0, 0])) = some s ∧
      Finished s ∧ ∃ outcome, s.proc 1 = .done outcome ∧ intVec 1 outcome.result = [3] := by
  have folds := (netdReduce_fold intPlatform 3 1 (by decide) .tree 1 .absmin (by decide)).mpr
    (by decide) (fun i => storeInt (.ofInt 32 (-3 - i))) (fun _ => [0, 0, 0, 0])
    (fun _ _ => le_refl 4) (fun _ _ => le_refl 4) (by decide)
  obtain ⟨⟨schedule, s, ran, ended⟩, _⟩ := folds [] _ rfl
  obtain ⟨outcome, atEnd, _, vector⟩ := (folds schedule s ran).2 ended
  exact ⟨schedule, s, ran, ended, outcome, atEnd, vector.trans (by decide)⟩

/-- 2^30 `int`s have a length of 0, and nothing is moved. -/
theorem netdReduce_fold_broken : ¬ Folds intPlatform 2 0 .tree (2^30) .sum := by
  apply not_folds_of_nonneg
  · decide
  · decide
  · decide
  · decide

end Tmpi.Netd
