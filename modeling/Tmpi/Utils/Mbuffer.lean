import Tmpi.Lib.Tiling
import Tmpi.Lib.Path

/-! `mbuffer.c`: the message buffers of one thread, whose block headers stand in the buffers.

A call is a critical section under the thread's lock. The sizes of blocks stay below the size of
their buffer, so the `unsigned` fields never wrap. -/

namespace Tmpi.Utils

open Tiling

/-- `AdjustSize` -/
def adjustSize (x : BitVec 32) : BitVec 32 := (x + 32 - 1) &&& 0xffffffe0

/-- `BUF_HEADER_SIZE`; a `BufferHandle` has 16 bytes. -/
def bufHeaderSize : Nat := (adjustSize 16).toNat

/-- `MinFragment` -/
def minFragment : Nat := bufHeaderSize + 64

structure BufferHandle where
  pre : Option Nat
  next : Option Nat
  free : Bool
  size : Nat
  deriving DecidableEq, Repr

/-- `SysBuffer[myid]`, `UsrBuffer[myid]` and the headers at all addresses. -/
structure Mbuffer where
  heap : Nat → BufferHandle
  sysBuffer : Option Nat
  usrBuffer : Option Nat

/-- `if (bh) bh->pre=x` -/
def setPre (heap : Nat → BufferHandle) (bh : Option Nat) (x : Nat) : Nat → BufferHandle :=
  match bh with
  | none => heap
  | some a => Function.update heap a { heap a with pre := some x }

/-- `mb_init`, when `malloc` returns `base` for `bsize` bytes. -/
def mbInit (heap : Nat → BufferHandle) (base bsize : Nat) : Mbuffer where
  heap := Function.update heap base ⟨none, none, true, bsize⟩
  sysBuffer := some base
  usrBuffer := none

/-- The size that `mb_alloc` looks for. -/
def adjustedSize (isize : BitVec 32) : Nat := (adjustSize isize + adjustSize 16).toNat

/-- The loops of `mb_alloc`; none when the fuel runs out. -/
def findFree (heap : Nat → BufferHandle) (need : Nat) : Nat → Option Nat → Option (Option Nat)
  | 0, _ => none
  | _ + 1, none => some none
  | fuel + 1, some tmp =>
      if (heap tmp).free = false ∨ (heap tmp).size < need then findFree heap need fuel (heap tmp).next
      else some (some tmp)

/-- What `mb_alloc` does with the block it has found. -/
def useBlock (heap : Nat → BufferHandle) (tmp need : Nat) : Nat → BufferHandle :=
  let h := heap tmp
  if need + minFragment ≤ h.size then
    let tmpnext := tmp + need
    let heap := Function.update heap tmpnext ⟨some tmp, h.next, true, h.size - need⟩
    let heap := setPre heap h.next tmpnext
    Function.update heap tmp ⟨h.pre, some tmpnext, false, need⟩
  else Function.update heap tmp { h with free := false }

namespace Mbuffer

variable (mb : Mbuffer)

/-- `mb_alloc` -/
def mbAlloc (fuel : Nat) (isize : BitVec 32) : Option (Mbuffer × Option Nat) :=
  let need := adjustedSize isize
  let found := findFree mb.heap need fuel mb.sysBuffer
  let found := if found = some none then findFree mb.heap need fuel mb.usrBuffer else found
  found.map fun tmp =>
    match tmp with
    | none => (mb, none)
    | some tmp => ({ mb with heap := useBlock mb.heap tmp need }, some (tmp + bufHeaderSize))

/-- A neighbour that there is, and that is free. -/
def freeOne (bh : Option Nat) : Option Nat := bh.filter fun a => (mb.heap a).free

/-- `mb_free` -/
def mbFree (item : Nat) : Mbuffer :=
  let bh := item - bufHeaderSize
  let h := mb.heap bh
  let heap :=
    match mb.freeOne h.next, mb.freeOne h.pre with
    | some n, some p =>
        let next := (mb.heap n).next
        setPre (Function.update mb.heap p { mb.heap p with
          size := (mb.heap p).size + (h.size + (mb.heap n).size), next }) next p
    | some n, none =>
        let next := (mb.heap n).next
        setPre (Function.update mb.heap bh { h with
          free := true, size := h.size + (mb.heap n).size, next }) next bh
    | none, some p =>
        setPre (Function.update mb.heap p { mb.heap p with
          size := (mb.heap p).size + h.size, next := h.next }) h.next p
    | none, none => Function.update mb.heap bh { h with free := true }
  { mb with heap }

/-- `mb_attach_buffer`, with whether it returns 0. -/
def mbAttachBuffer (buf bsize : Nat) : Mbuffer × Bool :=
  match mb.usrBuffer with
  | some _ => (mb, false)
  | none =>
      ({ mb with
        heap := Function.update mb.heap buf ⟨none, none, true, bsize⟩
        usrBuffer := some buf }, true)

/-- `mb_detach_buffer`, with the address and the size that it stores and whether it returns 0. -/
def mbDetachBuffer : Mbuffer × Option (Nat × Nat) × Bool :=
  match mb.usrBuffer with
  | none => (mb, none, false)
  | some buf =>
      let h := mb.heap buf
      if h.free = false ∨ h.next.isSome then (mb, some (buf, h.size), false)
      else ({ mb with usrBuffer := none }, some (buf, h.size), true)

end Mbuffer

/-! ## Sizes -/

theorem toNat_adjustSize (x : BitVec 32) : (adjustSize x).toNat = (x + 31).toNat / 32 * 32 := by
  have shift : ∀ y : BitVec 32, y &&& 0xffffffe0#32 = (y >>> 5) <<< 5 := by
    intro y
    ext i inside
    interval_cases i <;> simp
  have sum : x + 32 - 1 = x + 31 := by bv_omega
  have bound := (x + 31).isLt
  calc
    (adjustSize x).toNat = ((x + 31) &&& 0xffffffe0#32).toNat := by 
      rw [adjustSize, sum]
      rfl
    _ = (x + 31).toNat / 2 ^ 5 * 2 ^ 5 % 2 ^ 32 := by
      rw [shift, BitVec.toNat_shiftLeft, BitVec.toNat_ushiftRight, Nat.shiftLeft_eq,
        Nat.shiftRight_eq_div_pow]
    _ = (x + 31).toNat / 32 * 32 := by omega

/-- A size that is an `int` is rounded up, and gets room for a header. -/
theorem adjustedSize_eq {x : BitVec 32} (positive : 0 ≤ x.toInt) :
    adjustedSize x = (x.toNat + 31) / 32 * 32 + 32 := by
  have small : x.toNat < 2 ^ 31 := by
    rw [BitVec.toInt_eq_toNat_cond] at positive
    omega
  have header : (adjustSize 16).toNat = 32 := by decide
  rw [adjustedSize, BitVec.toNat_add, toNat_adjustSize, BitVec.toNat_add, header]
  simp
  omega

/-! ## Headers of a row of blocks -/

/-- The address of the first block of a row that starts at `start`, if there is one. -/
def firstOf (start : Nat) : List (Block Nat) → Option Nat → Option Nat
  | [], after => after
  | _ :: _, _ => some start

/-- The address of the last block. -/
def lastOf (pre : Option Nat) (start : Nat) : List (Block Nat) → Option Nat
  | [] => pre
  | b :: bs => lastOf (some start) (start + b.size) bs

/-- The headers from `start` on are those of the blocks, between the headers `pre` and `after`. -/
def Laid (heap : Nat → BufferHandle) : Option Nat → Nat → List (Block Nat) → Option Nat → Prop
  | _, _, [], _ => True
  | pre, start, b :: bs, after =>
      heap start = ⟨pre, firstOf (start + b.size) bs after, b.free, b.size⟩ ∧
        Laid heap (some start) (start + b.size) bs after

variable {heap heap' : Nat → BufferHandle} {pre after : Option Nat} {start : Nat}
  {bs l r : List (Block Nat)} {b : Block Nat}

theorem firstOf_append : firstOf start (l ++ r) after = firstOf start l (firstOf (start + cover l) r after) := by
  cases l with
  | nil => rfl
  | cons b l => rfl

theorem lastOf_concat : lastOf pre start (l ++ [b]) = some (start + cover l) := by
  induction l generalizing pre start with
  | nil => rfl
  | cons c l ih =>
      calc
        lastOf pre start (c :: l ++ [b]) = some (start + c.size + cover l) := ih
        _ = some (start + cover (c :: l)) := by rw [cover, Nat.add_assoc]

/-- The headers of a row are those of its halves, which point at each other over the seam. -/
theorem laid_append : Laid heap pre start (l ++ r) after ↔
    Laid heap pre start l (firstOf (start + cover l) r after) ∧
      Laid heap (lastOf pre start l) (start + cover l) r after := by
  induction l generalizing pre start with
  | nil => exact (and_iff_right trivial).symm
  | cons b l ih =>
      have place : start + b.size + cover l = start + cover (b :: l) := Nat.add_assoc ..
      rw [List.cons_append, Laid, Laid, ih, firstOf_append, place, and_assoc]
      rfl

/-- Only the headers of the blocks matter. -/
theorem Laid.transfer (laid : Laid heap pre start bs after)
    (same : ∀ a ∈ starts start bs, heap' a = heap a) : Laid heap' pre start bs after := by
  induction bs generalizing pre start with
  | nil => trivial
  | cons b bs ih =>
      obtain ⟨here, rest⟩ := laid
      exact ⟨(same start List.mem_cons_self).trans here,
        ih rest fun a member => same a (List.mem_cons_of_mem start member)⟩

theorem Laid.congr (laid : Laid heap pre start bs after) (large : ∀ b ∈ bs, 0 < b.size)
    (same : ∀ a, start ≤ a → a < start + cover bs → heap' a = heap a) :
    Laid heap' pre start bs after := by
  apply laid.transfer
  intro a member
  obtain ⟨b, within, low, high⟩ := starts_bound member
  have positive := large b within
  exact same a low (by omega)

/-- The first header is made to point back at another one. -/
theorem Laid.setPre (laid : Laid heap pre start bs none) (large : ∀ b ∈ bs, 0 < b.size) (x : Nat) :
    Laid (setPre heap (firstOf start bs none) x) (some x) start bs none := by
  cases bs with
  | nil => trivial
  | cons b bs =>
      obtain ⟨here, rest⟩ := laid
      have positive := large b List.mem_cons_self
      refine ⟨?_, rest.congr (fun c member => large c (List.mem_cons_of_mem b member)) fun a low _ => ?_⟩
      · calc
          Function.update heap start { heap start with pre := some x } start
              = { heap start with pre := some x } := Function.update_self ..
          _ = ⟨some x, firstOf (start + b.size) bs none, b.free, b.size⟩ := by rw [here]
      · exact Function.update_of_ne (by omega) ..

theorem setPre_of_lt {x a : Nat} (below : a < start) : setPre heap (firstOf start bs none) x a = heap a := by
  cases bs with
  | nil => rfl
  | cons b bs => exact Function.update_of_ne (by omega) ..

/-! ## One row of blocks -/

/-- The header of a block in a row, and the rest of the row. -/
theorem Laid.at (laid : Laid heap pre start (l ++ b :: r) after) :
    heap (start + cover l) = ⟨lastOf pre start l, firstOf (start + cover l + b.size) r after, b.free, b.size⟩ ∧
      Laid heap (some (start + cover l)) (start + cover l + b.size) r after :=
  (laid_append.mp laid).2

theorem findFree_laid {need fuel : Nat} (laid : Laid heap pre start bs none) (enough : bs.length < fuel) :
    findFree heap need fuel (firstOf start bs none) =
      some ((firstFit need bs).map fun found => start + cover found.1) := by
  induction bs generalizing pre start fuel with
  | nil =>
      obtain ⟨fuel, rfl⟩ : ∃ n, fuel = n + 1 := Nat.exists_eq_succ_of_ne_zero (by omega)
      rfl
  | cons b bs ih =>
      obtain ⟨here, rest⟩ := laid
      obtain ⟨fuel, rfl⟩ : ∃ n, fuel = n + 1 := Nat.exists_eq_succ_of_ne_zero (by omega)
      have room : bs.length < fuel := by simpa using enough
      have later := ih rest room
      rw [firstOf, findFree, here, firstFit]
      by_cases fits : b.free = true ∧ need ≤ b.size
      · have stop : ¬ (b.free = false ∨ b.size < need) := by
          rintro (used | small)
          · exact absurd (fits.1.symm.trans used) (by simp)
          · omega
        simp [fits, cover]
      · have go : b.free = false ∨ b.size < need := by
          by_contra stop
          push Not at stop
          exact fits ⟨by simpa using stop.1, stop.2⟩
        rw [if_pos go, if_neg fits, later, Option.map_map]
        congr 2
        funext found
        exact Nat.add_assoc ..

/-- With less fuel the search gives the same, or nothing. -/
theorem findFree_mono {need fuel fuel' : Nat} {tmp : Option Nat} {found : Option Nat} (more : fuel ≤ fuel')
    (search : findFree heap need fuel tmp = some found) : findFree heap need fuel' tmp = some found := by
  induction fuel generalizing fuel' tmp with
  | zero => cases search
  | succ fuel ih =>
      obtain ⟨fuel', rfl⟩ : ∃ n, fuel' = n + 1 := Nat.exists_eq_succ_of_ne_zero (by omega)
      cases tmp with
      | none => exact search
      | some a =>
          rw [findFree] at search ⊢
          split
          next go =>
            rw [if_pos go] at search
            exact ih (by omega) search
          next stop =>
            rw [if_neg stop] at search
            exact search

theorem findFree_eq {need fuel : Nat} {found : Option Nat} (laid : Laid heap pre start bs none)
    (search : findFree heap need fuel (firstOf start bs none) = some found) :
    found = (firstFit need bs).map fun found => start + cover found.1 := by
  have long : findFree heap need (fuel + bs.length + 1) (firstOf start bs none) =
      some ((firstFit need bs).map fun found => start + cover found.1) := findFree_laid laid (by omega)
  have more : fuel ≤ fuel + bs.length + 1 := by omega
  have same := findFree_mono more search
  exact Option.some.inj (same.symm.trans long)

/-- Blocks of a row become one, whose header is that of the first of them. -/
theorem Laid.join {m : List (Block Nat)} {h : BufferHandle} (laid : Laid heap pre start (l ++ m ++ r) none)
    (large : ∀ b ∈ l ++ m ++ r, 0 < b.size) (size : cover m = b.size) (positive : 0 < b.size)
    (header : h = ⟨lastOf pre start l, firstOf (start + cover l + b.size) r none, b.free, b.size⟩) :
    Laid (Utils.setPre (Function.update heap (start + cover l) h) h.next (start + cover l)) pre start (l ++ b :: r)
      none := by
  subst header
  rw [List.append_assoc, laid_append] at laid
  obtain ⟨front, back⟩ := laid
  rw [laid_append, size] at back
  obtain ⟨-, back⟩ := back
  have seam : firstOf (start + cover l) (m ++ r) none = firstOf (start + cover l) (b :: r) none := by
    cases m with
    | nil =>
        have zero : 0 = b.size := size
        omega
    | cons c m => rfl
  have cells : ∀ a, a < start + cover l + b.size → a ≠ start + cover l →
      Utils.setPre (Function.update heap (start + cover l)
        ⟨lastOf pre start l, firstOf (start + cover l + b.size) r none, b.free, b.size⟩)
        (firstOf (start + cover l + b.size) r none) (start + cover l) a = heap a := by
    intro a below other
    rw [setPre_of_lt below, Function.update_of_ne other]
  refine laid_append.mpr ⟨?_, ?_, ?_⟩
  · rw [seam] at front
    refine front.congr (fun c member => large c (by simp [member])) fun a _ high => ?_
    exact cells a (by omega) (by omega)
  · rw [setPre_of_lt (by omega), Function.update_self]
  · have positives : ∀ c ∈ r, 0 < c.size := fun c member => large c (by simp [member])
    have unmoved : ∀ a, start + cover l + b.size ≤ a → Function.update heap (start + cover l)
        ⟨lastOf pre start l, firstOf (start + cover l + b.size) r none, b.free, b.size⟩ a = heap a :=
      fun a low => Function.update_of_ne (by omega) ..
    exact (back.congr positives fun a low _ => unmoved a low).setPre positives _

/-- A header is rewritten; the block keeps its size. -/
theorem Laid.put {b' : Block Nat} {h : BufferHandle} (laid : Laid heap pre start (l ++ b :: r) none)
    (large : ∀ c ∈ l ++ b :: r, 0 < c.size) (size : b.size = b'.size)
    (header : h = { heap (start + cover l) with free := b'.free }) :
    Laid (Function.update heap (start + cover l) h) pre start (l ++ b' :: r) none := by
  subst header
  rw [laid_append] at laid
  obtain ⟨front, here, back⟩ := laid
  have unmoved : ∀ a, a ≠ start + cover l → Function.update heap (start + cover l)
      { heap (start + cover l) with free := b'.free } a = heap a :=
    fun a other => Function.update_of_ne other ..
  have positive := large b (by simp)
  refine laid_append.mpr ⟨?_, ?_, ?_⟩
  · exact front.congr (fun c member => large c (by simp [member])) fun a _ high => unmoved a (by omega)
  · rw [Function.update_self, here, size]
  · rw [← size]
    exact back.congr (fun c member => large c (by simp [member])) fun a low _ => unmoved a (by omega)

/-- A block is put to use, and the rest of it split off where there is enough. -/
theorem Laid.useBlock {need n : Nat} (laid : Laid heap pre start (l ++ b :: r) none)
    (large : ∀ c ∈ l ++ b :: r, 0 < c.size) (positive : 0 < need) :
    Laid (useBlock heap (start + cover l) need) pre start (l ++ carve need minFragment n b ++ r) none := by
  have here := laid.at.1
  unfold Utils.useBlock carve
  simp only [here]
  split
  next splits =>
    have back := laid.at.2
    have front := (laid_append.mp laid).1
    have spare : 0 < minFragment := by decide
    have positives : ∀ c ∈ r, 0 < c.size := fun c member => large c (by simp [member])
    have end_ : start + cover l + need + (b.size - need) = start + cover l + b.size := by omega
    rw [List.append_assoc, laid_append]
    refine ⟨?_, ?_, ?_, ?_⟩
    · refine front.congr (fun c member => large c (by simp [member])) fun a _ high => ?_
      rw [Function.update_of_ne (by omega), setPre_of_lt (by omega), Function.update_of_ne (by omega)]
    · rw [Function.update_self]
      rfl
    · dsimp only
      rw [Function.update_of_ne (by omega), setPre_of_lt (by omega), Function.update_self, end_]
      rfl
    · dsimp only
      rw [end_]
      have written : Laid (Function.update heap (start + cover l + need)
          ⟨some (start + cover l), firstOf (start + cover l + b.size) r none, true, b.size - need⟩)
          (some (start + cover l)) (start + cover l + b.size) r none :=
        back.congr positives fun a low _ => Function.update_of_ne (by omega) ..
      have split := written.setPre positives (start + cover l + need)
      exact split.congr positives fun a low _ => Function.update_of_ne (by omega) ..
  next =>
    rw [List.append_assoc]
    apply laid.put large
    · rfl
    · rw [here]
      rfl

section Free

variable {mb : Mbuffer}

/-- The block behind is free and joins, or it does not matter. -/
theorem freeOne_behind (laid : Laid mb.heap pre start r none) :
    (∃ n r', r = n :: r' ∧ n.free = true ∧ mb.freeOne (firstOf start r none) = some start) ∨
      (mb.freeOne (firstOf start r none) = none ∧ ∀ need, grow need r = ⟨need, none⟩ :: r) := by
  cases r with
  | nil => exact .inr ⟨rfl, fun _ => rfl⟩
  | cons n r =>
      have here := laid.1
      cases free : n.free with
      | true =>
          refine .inl ⟨n, r, rfl, free, ?_⟩
          simp [Mbuffer.freeOne, firstOf, here, free]
      | false =>
          refine .inr ⟨?_, fun need => ?_⟩
          · simp [Mbuffer.freeOne, firstOf, here, free]
          · rw [grow_cons, if_neg (by simp [free])]

theorem freeOne_before (laid : Laid mb.heap none start l after) :
    (∃ l' p, l = l' ++ [p] ∧ p.free = true ∧
      mb.freeOne (lastOf none start l) = some (start + cover l')) ∨
      (mb.freeOne (lastOf none start l) = none ∧ ∀ b r, release l b r = l ++ grow b.size r) := by
  rcases List.eq_nil_or_concat' l with rfl | ⟨l, p, rfl⟩
  · exact .inr ⟨rfl, fun _ _ => rfl⟩
  · have here := laid.at.1
    rw [lastOf_concat]
    cases free : p.free with
    | true =>
        refine .inl ⟨l, p, rfl, free, ?_⟩
        simp [Mbuffer.freeOne, here, free]
    | false =>
        refine .inr ⟨?_, fun b r => release_used free⟩
        simp [Mbuffer.freeOne, here, free]

/-- The header that `mb_free` writes is that of the block it makes. -/
theorem Laid.mbFree (laid : Laid mb.heap none start (l ++ b :: r) none)
    (large : ∀ c ∈ l ++ b :: r, 0 < c.size) :
    Laid (mb.mbFree (start + cover l + bufHeaderSize)).heap none start (release l b r) none := by
  obtain ⟨here, back⟩ := laid.at
  have positive := large b (by simp)
  unfold Mbuffer.mbFree
  simp only [Nat.add_sub_cancel, here]
  rcases freeOne_behind back with ⟨n, r, rfl, next, behind⟩ | ⟨behind, alone⟩
  · have nextHeader := back.1
    rcases freeOne_before (laid_append.mp laid).1 with ⟨l, p, rfl, prev, before⟩ | ⟨before, kept⟩
    · rw [release_free prev, grow_cons, if_pos next]
      have whole : l ++ [p] ++ b :: n :: r = l ++ [p, b, n] ++ r := by simp
      rw [whole] at laid large
      have prevHeader : mb.heap (start + cover l) =
          ⟨lastOf none start l, some (start + cover l + p.size), p.free, p.size⟩ := by
        rw [List.append_assoc] at laid
        exact laid.at.1
      rw [behind, before]
      simp only [nextHeader, prevHeader]
      have place : start + cover (l ++ [p]) + b.size + n.size = start + cover l + (p.size + b.size + n.size) := by
        simp only [cover_append, cover]
        omega
      apply laid.join large
      · simp only [cover]
        omega
      · exact Nat.add_pos_left (Nat.add_pos_left (large p (by simp)) _) _
      · have empty : p.held = none := by simpa [Block.free] using prev
        rw [place]
        simp [Block.free, empty, Nat.add_assoc]
    · rw [kept, grow_cons, if_pos next, behind, before]
      simp only [nextHeader]
      have whole : l ++ b :: n :: r = l ++ [b, n] ++ r := by simp
      rw [whole] at laid large
      apply laid.join large
      · simp only [cover]
        omega
      · exact Nat.add_pos_left positive _
      · simp [Block.free, Nat.add_assoc]
  · rcases freeOne_before (laid_append.mp laid).1 with ⟨l, p, rfl, prev, before⟩ | ⟨before, kept⟩
    · rw [release_free prev, alone, behind, before]
      have whole : l ++ [p] ++ b :: r = l ++ [p, b] ++ r := by simp
      rw [whole] at laid large
      have prevHeader : mb.heap (start + cover l) =
          ⟨lastOf none start l, some (start + cover l + p.size), p.free, p.size⟩ := by
        rw [List.append_assoc] at laid
        exact laid.at.1
      simp only [prevHeader]
      have place : start + cover (l ++ [p]) + b.size = start + cover l + (p.size + b.size) := by
        simp only [cover_append, cover]
        omega
      apply laid.join large
      · simp only [cover]
        omega
      · exact Nat.add_pos_left (large p (by simp)) _
      · have empty : p.held = none := by simpa [Block.free] using prev
        rw [place]
        simp [Block.free, empty]
    · rw [kept, alone, behind, before]
      apply laid.put large
      · rfl
      · rw [here]
        rfl

end Free

/-! ## Outside the row -/

theorem setPre_of_ne {bh : Option Nat} {x a : Nat} (other : bh ≠ some a) : setPre heap bh x a = heap a := by
  cases bh with
  | none => rfl
  | some y => exact Function.update_of_ne (fun same => other (congrArg some same.symm)) ..

theorem firstOf_inside {a : Nat} (large : ∀ b ∈ bs, 0 < b.size) (first : firstOf start bs none = some a) :
    start ≤ a ∧ a < start + cover bs := by
  cases bs with
  | nil => cases first
  | cons b bs =>
      cases first
      have positive := large b List.mem_cons_self
      exact ⟨Nat.le_refl _, Nat.lt_add_of_pos_right (Nat.add_pos_left positive _)⟩

/-- The address is not in the row. -/
def Outside (start size a : Nat) : Prop := a < start ∨ start + size ≤ a

section Frame

variable {a : Nat} (large : ∀ c ∈ l ++ b :: r, 0 < c.size) (outside : Outside start (cover (l ++ b :: r)) a)
include large outside

theorem ne_block : a ≠ start + cover l := by
  have positive := large b (by simp)
  rw [cover_append, cover] at outside
  rcases outside with before | behind <;> omega

theorem firstOf_ne : firstOf (start + cover l + b.size) r none ≠ some a := by
  intro first
  have inside := firstOf_inside (fun c member => large c (by simp [member])) first
  rw [cover_append, cover] at outside
  rcases outside with before | behind <;> omega

theorem useBlock_outside {need : Nat} (laid : Laid heap pre start (l ++ b :: r) none) (positive : 0 < need) :
    useBlock heap (start + cover l) need a = heap a := by
  have here := laid.at.1
  have ne := ne_block large outside
  have spare : 0 < minFragment := by decide
  unfold useBlock
  simp only [here]
  split
  next splits =>
    have ne' : a ≠ start + cover l + need := by
      rw [cover_append, cover] at outside
      rcases outside with before | behind <;> omega
    rw [Function.update_of_ne ne, setPre_of_ne (firstOf_ne large outside), Function.update_of_ne ne']
  next => exact Function.update_of_ne ne ..

theorem mbFree_outside {mb : Mbuffer} (laid : Laid mb.heap none start (l ++ b :: r) none) :
    (mb.mbFree (start + cover l + bufHeaderSize)).heap a = mb.heap a := by
  obtain ⟨here, back⟩ := laid.at
  have ne := ne_block large outside
  have next := firstOf_ne large outside
  have prev : ∀ p, mb.freeOne (lastOf none start l) = some p → a ≠ p := by
    intro p found
    rcases freeOne_before (laid_append.mp laid).1 with ⟨l', c, rfl, -, before⟩ | ⟨before, -⟩
    · obtain rfl := Option.some.inj (before.symm.trans found)
      have positive := large c (by simp)
      simp only [cover_append, cover] at outside
      rcases outside with before | behind <;> omega
    · exact absurd (before.symm.trans found) (by simp)
  unfold Mbuffer.mbFree
  simp only [Nat.add_sub_cancel, here]
  rcases freeOne_behind back with ⟨n, r', rfl, -, behind⟩ | ⟨behind, -⟩
  · have nextHeader := back.1
    have shift : l ++ b :: n :: r' = (l ++ [b]) ++ n :: r' := by simp
    have later : firstOf (start + cover l + b.size + n.size) r' none ≠ some a := by
      rw [shift] at large outside
      have far := firstOf_ne large outside
      have place : start + cover (l ++ [b]) = start + cover l + b.size := by
        simp only [cover_append, cover]
        omega
      rwa [place] at far
    rw [behind]
    cases before : mb.freeOne (lastOf none start l) with
    | some p =>
        simp only [nextHeader]
        rw [setPre_of_ne later, Function.update_of_ne (prev p before)]
    | none =>
        simp only [nextHeader]
        rw [setPre_of_ne later, Function.update_of_ne ne]
  · rw [behind]
    cases before : mb.freeOne (lastOf none start l) with
    | some p =>
        dsimp only
        rw [setPre_of_ne next, Function.update_of_ne (prev p before)]
    | none => exact Function.update_of_ne ne ..

end Frame

end Tmpi.Utils
