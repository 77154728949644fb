import Mathlib.Algebra.BigOperators.Group.List.Basic
import Mathlib.Algebra.Order.BigOperators.Group.List
import Mathlib.Algebra.Order.Ring.Nat
import Mathlib.Tactic.Ring
import Tmpi.Lib.Buffer
import Tmpi.Mpi.GroupSets

/-! The range forms: triplets of first and last rank and stride. -/

namespace Tmpi.Mpi

structure Triplet where
  first : Int32
  last : Int32
  stride : Int32
  deriving DecidableEq, Repr

/-- What the sizing loop adds for one triplet; the division is C's. -/
def Triplet.size (r : Triplet) : Int32 := (r.last - r.first) / r.stride + 1

/-- The division has no result. -/
def Triplet.Traps (r : Triplet) : Prop :=
  r.stride = 0 ∨ r.last - r.first = .minValue ∧ r.stride = -1

instance : DecidablePred Triplet.Traps := fun _ => inferInstanceAs (Decidable (_ ∨ _ ∧ _))

/-- The sizing loop. -/
def rangeSize (ranges : List Triplet) : Option Int32 :=
  ranges.foldlM (fun size r => if r.Traps then none else some (size + r.size)) 0

/-- At most `fuel` rounds of the inner loop: what it stored, and whether it has ended. -/
def rangeLoop (last stride : Int32) : Nat → Int32 → List Int × Bool
  | 0, _ => ([], false)
  | fuel + 1, j =>
      if j ≤ last then
        let (stored, ended) := rangeLoop last stride fuel (j + stride)
        (j.toInt :: stored, ended)
      else ([], true)

/-- The expansion loop, `fuel` rounds at most for each triplet. -/
def rangesLoop (fuel : Nat) : List Triplet → List Int × Bool
  | [] => ([], true)
  | r :: ranges =>
      let inner := rangeLoop r.last r.stride fuel r.first
      if inner.2 then
        let rest := rangesLoop fuel ranges
        (inner.1 ++ rest.1, rest.2)
      else inner

/-- The array `ranks`, and whether the loops that fill it have ended. -/
def rangesTable (fuel : Nat) (ranges : List Triplet) : Option (Table × Bool) := do
  let size ← rangeSize ranges
  let (stored, ended) := rangesLoop fuel ranges
  return ({ malloc size.toInt with cells := stored }, ended)

/-- The first `n` entries of `ranks`; `block` is what `malloc` left in it. -/
def Table.passed (table : Table) (block : Nat → Int) (n : Nat) : List Int :=
  (List.range n).map fun i => table.cells.getD i (block i)

/-- Both range forms: the count they pass on is that of the triplets. -/
def rangeForm (listForm : MpiGroup → List Int → Except Nat MpiGroup) (fuel : Nat)
    (block : Nat → Int) (group : MpiGroup) (ranges : List Triplet) :
    Option (Except Nat MpiGroup) := do
  let (ranks, ended) ← rangesTable fuel ranges
  if ended then some (listForm group (ranks.passed block ranges.length)) else none

def mpiGroupRangeIncl : Nat → (Nat → Int) → MpiGroup → List Triplet →
    Option (Except Nat MpiGroup) :=
  rangeForm mpiGroupIncl

def mpiGroupRangeExcl : Nat → (Nat → Int) → MpiGroup → List Triplet →
    Option (Except Nat MpiGroup) :=
  rangeForm mpiGroupExcl

/-! ## What the loops store -/

/-- The loop variable after `k` rounds. -/
def Triplet.value (r : Triplet) (k : Nat) : Int := wrap (r.first.toInt + k * r.stride.toInt)

/-- The inner loop ends. -/
def Triplet.Ends (r : Triplet) : Prop := ∃ k, r.last.toInt < r.value k

/-- The rounds of an inner loop that ends: the first value beyond the last rank stops it. -/
noncomputable def Triplet.rounds (r : Triplet) : Nat := sInf {k | r.last.toInt < r.value k}

noncomputable def Triplet.stored (r : Triplet) : List Int := (List.range r.rounds).map r.value

section Loops

variable {r : Triplet} {ranges : List Triplet} {fuel : Nat}

theorem value_zero (r : Triplet) : r.value 0 = r.first.toInt := by
  have low := r.first.le_toInt
  have high := r.first.toInt_lt
  rw [Triplet.value, wrap_eq]
  · simp
  · simpa using low
  · simpa using high

theorem value_succ {j : Int32} {k : Nat} (now : j.toInt = r.value k) :
    (j + r.stride).toInt = r.value (k + 1) := by
  rw [Int32.toInt_add, now]
  change wrap (wrap _ + _) = wrap _
  rw [wrap_add]
  congr 1
  push_cast
  ring

theorem le_last_iff {j : Int32} {k : Nat} (now : j.toInt = r.value k) :
    j ≤ r.last ↔ r.value k ≤ r.last.toInt := by
  rw [Int32.le_iff_toInt_le, now]

/-- A loop that has ended has met a value beyond the last rank. -/
theorem rangeLoop_ended {j : Int32} {k : Nat} (now : j.toInt = r.value k)
    (ended : (rangeLoop r.last r.stride fuel j).2 = true) :
    ∃ n, r.last.toInt < r.value (k + n) ∧ (∀ i < n, r.value (k + i) ≤ r.last.toInt) ∧
      (rangeLoop r.last r.stride fuel j).1 = (List.range n).map fun i => r.value (k + i) := by
  induction fuel generalizing j k with
  | zero => exact absurd ended Bool.false_ne_true
  | succ fuel ih =>
      by_cases within : j ≤ r.last
      · have step : rangeLoop r.last r.stride (fuel + 1) j =
            (j.toInt :: (rangeLoop r.last r.stride fuel (j + r.stride)).1,
              (rangeLoop r.last r.stride fuel (j + r.stride)).2) := if_pos within
        rw [step] at ended ⊢
        obtain ⟨n, beyond, below, stored⟩ := ih (value_succ now) ended
        refine ⟨n + 1, by rwa [← Nat.add_assoc, Nat.add_right_comm], ?_, ?_⟩
        · intro i inside
          cases i with
          | zero => exact (le_last_iff now).mp within
          | succ i =>
              rw [← Nat.add_assoc, Nat.add_right_comm]
              exact below i (by omega)
        · rw [stored, now, List.range_succ_eq_map, List.map_cons, List.map_map]
          refine congrArg₂ _ rfl (List.map_congr_left fun i _ => ?_)
          exact congrArg r.value (by omega)
      · have stop : rangeLoop r.last r.stride (fuel + 1) j = ([], true) := if_neg within
        refine ⟨0, ?_, by simp, by rw [stop]; rfl⟩
        rw [le_last_iff now, not_le] at within
        exact within

/-- The least number of rounds is that of the loop. -/
theorem rounds_eq {n : Nat} (beyond : r.last.toInt < r.value n)
    (below : ∀ i < n, r.value i ≤ r.last.toInt) : r.rounds = n := by
  have here : n ∈ {k | r.last.toInt < r.value k} := beyond
  apply le_antisymm (Nat.sInf_le here)
  by_contra less
  have first : r.last.toInt < r.value r.rounds := Nat.sInf_mem ⟨n, here⟩
  exact absurd (below r.rounds (not_le.mp less)) (not_le.mpr first)

theorem rangeLoop_stored (ended : (rangeLoop r.last r.stride fuel r.first).2 = true) :
    r.Ends ∧ (rangeLoop r.last r.stride fuel r.first).1 = r.stored := by
  obtain ⟨n, beyond, below, stored⟩ := rangeLoop_ended (value_zero r).symm ended
  simp only [Nat.zero_add] at beyond below stored
  exact ⟨⟨n, beyond⟩, by rw [stored, Triplet.stored, rounds_eq beyond below]⟩

/-- A loop has stored a value a round, and ends with a value beyond the last rank. -/
theorem rangeLoop_running {j : Int32} {k : Nat} (now : j.toInt = r.value k)
    (running : (rangeLoop r.last r.stride fuel j).2 = false) :
    (rangeLoop r.last r.stride fuel j).1.length = fuel ∧
      ∀ i < fuel, r.value (k + i) ≤ r.last.toInt := by
  induction fuel generalizing j k with
  | zero => exact ⟨rfl, by simp⟩
  | succ fuel ih =>
      by_cases within : j ≤ r.last
      · rw [rangeLoop, if_pos within] at running ⊢
        obtain ⟨long, below⟩ := ih (value_succ now) running
        refine ⟨congrArg (· + 1) long, ?_⟩
        intro i inside
        cases i with
        | zero => exact (le_last_iff now).mp within
        | succ i =>
            rw [← Nat.add_assoc, Nat.add_right_comm]
            exact below i (by omega)
      · rw [rangeLoop, if_neg within] at running
        exact absurd running (by simp)

theorem rangeLoop_ends (ends : r.Ends) (enough : r.rounds < fuel) :
    (rangeLoop r.last r.stride fuel r.first).2 = true := by
  by_contra running
  have below := (rangeLoop_running (value_zero r).symm (Bool.eq_false_iff.mpr running)).2
  have beyond : r.last.toInt < r.value r.rounds := Nat.sInf_mem ends
  have within := below r.rounds enough
  rw [Nat.zero_add] at within
  omega

theorem rangesLoop_ended (ended : (rangesLoop fuel ranges).2 = true) :
    (∀ r ∈ ranges, r.Ends) ∧ (rangesLoop fuel ranges).1 = ranges.flatMap Triplet.stored := by
  induction ranges with
  | nil => exact ⟨by simp, rfl⟩
  | cons r ranges ih =>
      cases inner : (rangeLoop r.last r.stride fuel r.first).2 with
      | false =>
          have stuck : rangesLoop fuel (r :: ranges) = rangeLoop r.last r.stride fuel r.first :=
            if_neg (Bool.eq_false_iff.mp inner)
          rw [stuck, inner] at ended
          exact absurd ended Bool.false_ne_true
      | true =>
          have step : rangesLoop fuel (r :: ranges) =
              ((rangeLoop r.last r.stride fuel r.first).1 ++ (rangesLoop fuel ranges).1,
                (rangesLoop fuel ranges).2) := if_pos inner
          rw [step] at ended ⊢
          obtain ⟨ends, stored⟩ := ih ended
          obtain ⟨here, first⟩ := rangeLoop_stored inner
          refine ⟨List.forall_mem_cons.mpr ⟨here, ends⟩, ?_⟩
          rw [List.flatMap_cons, ← stored, first]

theorem rangesLoop_ends (ends : ∀ r ∈ ranges, r.Ends)
    (enough : ∀ r ∈ ranges, r.rounds < fuel) : (rangesLoop fuel ranges).2 = true := by
  induction ranges with
  | nil => rfl
  | cons r ranges ih =>
      have inner := rangeLoop_ends (ends r List.mem_cons_self) (enough r List.mem_cons_self)
      have step : (rangesLoop fuel (r :: ranges)).2 = (rangesLoop fuel ranges).2 := by
        rw [rangesLoop, if_pos inner]
      exact step.trans (ih (fun r' later => ends r' (List.mem_cons_of_mem r later))
        fun r' later => enough r' (List.mem_cons_of_mem r later))

/-- Loops that can end do. -/
theorem exists_rangesLoop (ends : ∀ r ∈ ranges, r.Ends) :
    ∃ fuel, rangesLoop fuel ranges = (ranges.flatMap Triplet.stored, true) := by
  refine ⟨(ranges.map Triplet.rounds).sum + 1, ?_⟩
  have done := rangesLoop_ends ends fun r member =>
    Nat.lt_succ_of_le (List.single_le_sum (fun _ _ => Nat.zero_le _) _ (List.mem_map_of_mem member))
  exact Prod.ext (rangesLoop_ended done).2 done

/-- What the sizing loop has computed when no division trapped. -/
theorem exists_rangeSize (runs : ∀ r ∈ ranges, ¬ r.Traps) : ∃ size, rangeSize ranges = some size ∧
    size.toInt = wrap (ranges.map fun r => r.size.toInt).sum := by
  have loop (start : Int32) : ∃ size, ranges.foldlM (fun (size : Int32) r =>
      if r.Traps then none else some (size + r.size)) start = some size ∧
        size.toInt = wrap (start.toInt + (ranges.map fun r => r.size.toInt).sum) := by
    induction ranges generalizing start with
    | nil =>
        have low := start.le_toInt
        have high := start.toInt_lt
        exact ⟨start, rfl, by simp [wrap_eq low high]⟩
    | cons r ranges ih =>
        obtain ⟨size, rest, value⟩ := ih (fun r' later => runs r' (List.mem_cons_of_mem r later))
          (start + r.size)
        rw [List.foldlM_cons, if_neg (runs r List.mem_cons_self)]
        refine ⟨size, rest, ?_⟩
        rw [value, Int32.toInt_add]
        change wrap (wrap _ + _) = _
        rw [wrap_add, List.map_cons, List.sum_cons, Int.add_assoc]
  obtain ⟨size, rest, value⟩ := loop 0
  exact ⟨size, rest, by simpa using value⟩

end Loops

/-! ## The ranks a triplet stands for -/

/-- One more than the whole number of strides from first to last. -/
def Triplet.count (r : Triplet) : Nat :=
  ((r.last.toInt - r.first.toInt).fdiv r.stride.toInt + 1).toNat

def Triplet.expansion (r : Triplet) : List Int :=
  (List.range r.count).map fun k : Nat => r.first.toInt + k * r.stride.toInt

def expanded (ranges : List Triplet) : List Int := ranges.flatMap Triplet.expansion

/-- The inner loop ends by itself: it never runs, or its variable gets beyond the last rank before
it gets beyond what an `int` holds. -/
def Triplet.Fits (r : Triplet) : Prop :=
  r.last < r.first ∨ 0 < r.stride ∧ r.first.toInt + r.count * r.stride.toInt < 2^31

instance : DecidablePred Triplet.Fits := fun _ => inferInstanceAs (Decidable (_ ∨ _ ∧ _))

section Expansions

variable {r : Triplet}

theorem Triplet.stride_pos_iff (r : Triplet) : 0 < r.stride ↔ 0 < r.stride.toInt := by
  rw [Int32.lt_iff_toInt_lt]
  rfl

theorem lt_count_iff (positive : 0 < r.stride) (k : Nat) :
    k < r.count ↔ r.first.toInt + k * r.stride.toInt ≤ r.last.toInt := by
  have stride := r.stride_pos_iff.mp positive
  have fits : (k : Int) ≤ (r.last.toInt - r.first.toInt) / r.stride.toInt ↔
      k * r.stride.toInt ≤ r.last.toInt - r.first.toInt := Int.le_ediv_iff_mul_le stride
  rw [Triplet.count, Int.fdiv_eq_ediv_of_nonneg _ stride.le]
  omega

theorem count_beyond (positive : 0 < r.stride) (beyond : r.last < r.first) : r.count = 0 := by
  by_contra some_rank
  have low := (lt_count_iff positive 0).mp (Nat.pos_of_ne_zero some_rank)
  rw [Int32.lt_iff_toInt_lt] at beyond
  simp at low
  omega

theorem Triplet.stored_of_lt (beyond : r.last < r.first) : r.stored = [] := by
  have now : r.last.toInt < r.value 0 := by
    rw [value_zero]
    exact Int32.lt_iff_toInt_lt.mp beyond
  rw [Triplet.stored, rounds_eq now (by simp)]
  rfl

/-- A loop that goes up and stays within the `int`s stores the expansion. -/
theorem stored_of_pos (fits : r.Fits) (positive : 0 < r.stride) :
    r.Ends ∧ r.stored = r.expansion := by
  rcases fits with beyond | ⟨-, room⟩
  · have now : r.last.toInt < r.value 0 := by
      rw [value_zero]
      exact Int32.lt_iff_toInt_lt.mp beyond
    refine ⟨⟨0, now⟩, ?_⟩
    rw [Triplet.stored_of_lt beyond, Triplet.expansion, count_beyond positive beyond]
    rfl
  · have stride := r.stride_pos_iff.mp positive
    have low := r.first.le_toInt
    have value : ∀ k ≤ r.count, r.value k = r.first.toInt + k * r.stride.toInt := by
      intro k inside
      have less : (k : Int) * r.stride.toInt ≤ r.count * r.stride.toInt :=
        Int.mul_le_mul_of_nonneg_right (by omega) stride.le
      have nonneg : 0 ≤ (k : Int) * r.stride.toInt := Int.mul_nonneg (by omega) stride.le
      rw [Triplet.value, wrap_eq]
      · omega
      · omega
    have beyond : r.last.toInt < r.value r.count := by
      have last := (lt_count_iff positive r.count).not.mp (lt_irrefl _)
      rw [value _ le_rfl]
      omega
    have below : ∀ k < r.count, r.value k ≤ r.last.toInt := by
      intro k inside
      rw [value k inside.le]
      exact (lt_count_iff positive k).mp inside
    refine ⟨⟨r.count, beyond⟩, ?_⟩
    rw [Triplet.stored, rounds_eq beyond below, Triplet.expansion]
    exact List.map_congr_left fun k member => value k (List.mem_range.mp member).le

theorem Triplet.Fits.ends (fits : r.Fits) : r.Ends := by
  rcases fits with beyond | up
  · refine ⟨0, ?_⟩
    rw [value_zero]
    exact Int32.lt_iff_toInt_lt.mp beyond
  · exact (stored_of_pos (Or.inr up) up.1).1

/-- A loop that fits and does not go up never runs. -/
theorem Triplet.Fits.beyond (fits : r.Fits) (down : ¬ 0 < r.stride) : r.last < r.first :=
  fits.resolve_right fun up => down up.1

end Expansions

/-! ## Agreement with the list forms -/

/-- The sizes counted for the triplets whose first rank is beyond the last cancel out, and the
others add up to an `int`. -/
def SizesMatch (ranges : List Triplet) : Prop :=
  (ranges.flatMap fun r => if 0 < r.stride then r.expansion else []).length < 2^31 ∧
    (2^32 : Int) ∣ ((ranges.filter fun r => r.last < r.first).map fun r => r.size.toInt).sum

/-- The array that the list form gets, whatever was left in the block. -/
noncomputable def passedRanks (block : Nat → Int) (ranges : List Triplet) : List Int :=
  (List.range ranges.length).map fun i => (ranges.flatMap Triplet.stored).getD i (block i)

/-- The members of the result and the caller's rank in it. -/
def outcome (result : Except Nat MpiGroup) : Except Nat (Option (List Int × Int)) :=
  result.map MpiGroup.view

/-- A range form as the expansion followed by the list form. -/
structure AgreesWith (listForm : MpiGroup → List Int → Except Nat MpiGroup)
    (form : Nat → (Nat → Int) → MpiGroup → List Triplet → Option (Except Nat MpiGroup))
    (group : MpiGroup) (ranges : List Triplet) : Prop where
  sized : ∃ fuel ranks, rangesLoop fuel ranges = (ranks, true) ∧
    (rangeSize ranges).map Int32.toInt = some (ranks.length : Int)
  same : ∀ block, ∃ fuel, (form fuel block group ranges).map outcome =
    some (outcome (listForm group (expanded ranges)))

section Agreement

variable {ranges : List Triplet} {group : MpiGroup} {grp : Group}
  {listForm : MpiGroup → List Int → Except Nat MpiGroup} {block : Nat → Int}

/-- A triplet that stands for ranks a group has. -/
def Triplet.Listed (r : Triplet) : Prop := r.stride ≠ 0 ∧ ∀ rank ∈ r.expansion, 0 ≤ rank

theorem Triplet.Listed.first_nonneg {r : Triplet} (listed : r.Listed) (positive : 0 < r.stride)
    (within : r.first ≤ r.last) : 0 ≤ r.first.toInt := by
  have first : 0 < r.count := by
    rw [lt_count_iff positive]
    simpa using Int32.le_iff_toInt_le.mp within
  have member : r.first.toInt + (0 : Nat) * r.stride.toInt ∈ r.expansion :=
    List.mem_map_of_mem (List.mem_range.mpr first)
  simpa using listed.2 _ member

theorem Triplet.Listed.not_traps {r : Triplet} (listed : r.Listed) (fits : r.Fits) :
    ¬ r.Traps := by
  rintro (zero | ⟨least, down⟩)
  · exact listed.1 zero
  · -- with -1 all numbers from first down to last are listed
    have beyond := fits.beyond (by rw [down]; decide)
    rw [Int32.lt_iff_toInt_lt] at beyond
    have stride : r.stride.toInt = -1 := by rw [down]; decide
    have count : (r.count : Int) = r.first.toInt - r.last.toInt + 1 := by
      have whole : (r.last.toInt - r.first.toInt).fdiv (-1) = r.first.toInt - r.last.toInt :=
        Int.fdiv_eq_of_eq_mul_right (by decide) (by ring)
      rw [Triplet.count, stride, whole]
      omega
    have member : r.first.toInt + ((r.count - 1 : Nat) : Int) * r.stride.toInt ∈ r.expansion :=
      List.mem_map_of_mem (List.mem_range.mpr (by omega))
    have last := listed.2 _ member
    rw [stride] at last
    have high := r.first.toInt_lt
    have difference := congrArg Int32.toInt least
    rw [Int32.toInt_sub, Int.bmod_eq_of_le (by omega) (by omega)] at difference
    have bottom : Int32.minValue.toInt = -2^31 := by decide
    omega

/-- An ascending triplet is counted for what it stores. -/
theorem Triplet.size_of_le {r : Triplet} (listed : r.Listed) (fits : r.Fits)
    (within : r.first ≤ r.last) : r.size.toInt = r.stored.length := by
  have order := Int32.le_iff_toInt_le.mp within
  have up := fits.resolve_left (Int32.not_lt.mpr within)
  have positive := up.1
  have room := up.2
  have stride := r.stride_pos_iff.mp positive
  have first := listed.first_nonneg positive within
  have high := r.last.toInt_lt
  have distance : (r.last - r.first).toInt = r.last.toInt - r.first.toInt := by
    rw [Int32.toInt_sub, Int.bmod_eq_of_le (by omega) (by omega)]
  have inner : r.last - r.first ≠ .minValue := by
    intro least
    rw [least] at distance
    have bottom : Int32.minValue.toInt = -2^31 := by decide
    omega
  have quotient : ((r.last - r.first) / r.stride).toInt =
      (r.last.toInt - r.first.toInt) / r.stride.toInt := by
    rw [Int32.toInt_div_of_ne_left _ _ inner, distance,
      Int.tdiv_eq_ediv_of_nonneg (by omega)]
  have whole : 0 ≤ (r.last.toInt - r.first.toInt) / r.stride.toInt :=
    Int.ediv_nonneg (by omega) stride.le
  have count : (r.count : Int) = (r.last.toInt - r.first.toInt) / r.stride.toInt + 1 := by
    rw [Triplet.count, Int.fdiv_eq_ediv_of_nonneg _ stride.le]
    omega
  have less : (r.count : Int) * 1 ≤ r.count * r.stride.toInt :=
    Int.mul_le_mul_of_nonneg_left (by omega) (by omega)
  rw [(stored_of_pos fits positive).2, Triplet.expansion, List.length_map, List.length_range, count,
    Triplet.size, Int32.toInt_add, quotient]
  apply Int.bmod_eq_of_le
  · change -_ ≤ _ + (1 : Int)
    omega
  · change _ + (1 : Int) < _
    omega

theorem sum_size (listed : ∀ r ∈ ranges, r.Listed) (fits : ∀ r ∈ ranges, r.Fits) :
    (ranges.map fun r => r.size.toInt).sum =
      ((ranges.filter fun r => r.last < r.first).map fun r => r.size.toInt).sum +
        ((ranges.flatMap Triplet.stored).length : Int) := by
  induction ranges with
  | nil => rfl
  | cons r ranges ih =>
      have rest := ih (fun r' later => listed r' (List.mem_cons_of_mem r later))
        fun r' later => fits r' (List.mem_cons_of_mem r later)
      rw [List.map_cons, List.sum_cons, rest, List.flatMap_cons, List.length_append]
      by_cases beyond : r.last < r.first
      · rw [List.filter_cons_of_pos (by simpa using beyond), List.map_cons, List.sum_cons,
          Triplet.stored_of_lt beyond, List.length_nil]
        omega
      · rw [List.filter_cons_of_neg (by simpa using beyond),
          Triplet.size_of_le (listed r List.mem_cons_self) (fits r List.mem_cons_self)
            (Int32.not_lt.mp beyond)]
        omega

theorem stored_of_fits (fits : ∀ r ∈ ranges, r.Fits) : ranges.flatMap Triplet.stored =
    ranges.flatMap fun r => if 0 < r.stride then r.expansion else [] := by
  apply List.flatMap_congr
  intro r member
  split
  next positive => exact (stored_of_pos (fits r member) positive).2
  next down => exact Triplet.stored_of_lt ((fits r member).beyond down)

/-- Descending triplets lose ranks, ascending ones do not. -/
theorem ascending_or_fewer (strides : ∀ r ∈ ranges, r.stride ≠ 0) (fits : ∀ r ∈ ranges, r.Fits) :
    (∀ r ∈ ranges, 0 < r.stride) ∧ ranges.flatMap Triplet.stored = expanded ranges ∨
      (ranges.flatMap Triplet.stored).length < (expanded ranges).length := by
  induction ranges with
  | nil => exact Or.inl ⟨by simp, rfl⟩
  | cons r ranges ih =>
      have here := fits r List.mem_cons_self
      have rest := ih (fun r' later => strides r' (List.mem_cons_of_mem r later))
        fun r' later => fits r' (List.mem_cons_of_mem r later)
      rw [expanded, List.flatMap_cons, List.flatMap_cons, List.length_append, List.length_append]
      by_cases positive : 0 < r.stride
      · rw [(stored_of_pos here positive).2]
        rcases rest with ⟨ascending, same⟩ | fewer
        · exact Or.inl ⟨List.forall_mem_cons.mpr ⟨positive, ascending⟩, congrArg _ same⟩
        · right
          rw [expanded] at fewer
          omega
      · right
        have beyond := here.beyond positive
        have order := Int32.lt_iff_toInt_lt.mp beyond
        have negative : r.stride.toInt ≤ 0 := not_lt.mp (r.stride_pos_iff.not.mp positive)
        have whole : 0 ≤ (r.last.toInt - r.first.toInt).fdiv r.stride.toInt :=
          Int.fdiv_nonneg_of_nonpos_of_nonpos (by omega) negative
        have long : 0 < r.expansion.length := by
          rw [Triplet.expansion, List.length_map, List.length_range, Triplet.count]
          omega
        rw [Triplet.stored_of_lt beyond, List.length_nil]
        rcases rest with ⟨-, same⟩ | fewer
        · rw [same, expanded]
          omega
        · rw [expanded] at fewer
          omega

theorem stored_of_ascending (fits : ∀ r ∈ ranges, r.Fits) (ascending : ∀ r ∈ ranges, 0 < r.stride) :
    ranges.flatMap Triplet.stored = expanded ranges :=
  List.flatMap_congr fun r member => (stored_of_pos (fits r member) (ascending r member)).2

theorem rangeForm_eq (runs : ∀ r ∈ ranges, ¬ r.Traps) (fuel : Nat) :
    rangeForm listForm fuel block group ranges =
      if (rangesLoop fuel ranges).2 then
        some (listForm group (passedRanks block ranges))
      else none := by
  obtain ⟨size, sized, -⟩ := exists_rangeSize runs
  rw [rangeForm, rangesTable, sized]
  cases ended : (rangesLoop fuel ranges).2 with
  | false => simp [ended]
  | true => simp [ended, Table.passed, passedRanks, (rangesLoop_ended ended).2]

theorem exists_rangeForm_iff (runs : ∀ r ∈ ranges, ¬ r.Traps) (ends : ∀ r ∈ ranges, r.Ends)
    {answer : Except Nat (Option (List Int × Int))} :
    (∃ fuel, (rangeForm listForm fuel block group ranges).map outcome = some answer) ↔
      outcome (listForm group (passedRanks block ranges)) = answer := by
  constructor
  · rintro ⟨fuel, answered⟩
    rw [rangeForm_eq runs] at answered
    cases ended : (rangesLoop fuel ranges).2 with
    | false =>
        rw [ended] at answered
        cases answered
    | true =>
        rw [ended] at answered
        exact Option.some.inj answered
  · intro answered
    obtain ⟨fuel, loop⟩ := exists_rangesLoop ends
    refine ⟨fuel, ?_⟩
    rw [rangeForm_eq runs, loop, ← answered]
    rfl

theorem sized_iff (listed : ∀ r ∈ ranges, r.Listed) (fits : ∀ r ∈ ranges, r.Fits) :
    (∃ fuel ranks, rangesLoop fuel ranges = (ranks, true) ∧
      (rangeSize ranges).map Int32.toInt = some (ranks.length : Int)) ↔ SizesMatch ranges := by
  obtain ⟨size, sized, total⟩ := exists_rangeSize fun r member =>
    (listed r member).not_traps (fits r member)
  rw [sum_size listed fits, stored_of_fits fits] at total
  have lost := exists_wrap (((ranges.filter fun r => r.last < r.first).map fun r =>
    r.size.toInt).sum + ((ranges.flatMap fun r => if 0 < r.stride then r.expansion else []).length :
      Int))
  have most := size.toInt_lt
  have same : (∃ fuel ranks, rangesLoop fuel ranges = (ranks, true) ∧
      (rangeSize ranges).map Int32.toInt = some (ranks.length : Int)) ↔
        size.toInt = ((ranges.flatMap Triplet.stored).length : Int) := by
    rw [sized]
    constructor
    · rintro ⟨fuel, ranks, loop, equal⟩
      have stored := (rangesLoop_ended (congrArg Prod.snd loop)).2
      rw [loop] at stored
      rw [← stored]
      exact Option.some.inj equal
    · intro equal
      obtain ⟨fuel, loop⟩ := exists_rangesLoop fun r member => (fits r member).ends
      exact ⟨fuel, _, loop, congrArg some equal⟩
  rw [← total] at lost
  obtain ⟨k, parts⟩ := lost
  rw [same, stored_of_fits fits, SizesMatch]
  constructor
  · intro equal
    exact ⟨by omega, k, by omega⟩
  · rintro ⟨small, m, multiple⟩
    have least := size.le_toInt
    omega

theorem agreesWith_iff (listed : ∀ r ∈ ranges, r.Listed) (fits : ∀ r ∈ ranges, r.Fits) :
    AgreesWith listForm (rangeForm listForm) group ranges ↔ SizesMatch ranges ∧
      ∀ block, outcome (listForm group (passedRanks block ranges)) =
        outcome (listForm group (expanded ranges)) := by
  have runs : ∀ r ∈ ranges, ¬ r.Traps := fun r member =>
    (listed r member).not_traps (fits r member)
  have ends : ∀ r ∈ ranges, r.Ends := fun r member => (fits r member).ends
  constructor
  · intro agrees
    exact ⟨(sized_iff listed fits).mp agrees.sized,
      fun block => (exists_rangeForm_iff runs ends).mp (agrees.same block)⟩
  · rintro ⟨sizes, same⟩
    exact ⟨(sized_iff listed fits).mpr sizes,
      fun block => (exists_rangeForm_iff runs ends).mpr (same block)⟩

end Agreement

/-! ## What is lost by passing the count of the triplets -/

section Passed

variable {ranges : List Triplet} {group : MpiGroup} {grp : Group} {block : Nat → Int}
  {ranks ranks' : List Int}

theorem length_passedRanks : (passedRanks block ranges).length = ranges.length := by
  rw [passedRanks, List.length_map, List.length_range]

theorem passedRanks_of_length
    (long : (ranges.flatMap Triplet.stored).length = ranges.length) :
    passedRanks block ranges = ranges.flatMap Triplet.stored := by
  refine List.ext_getElem? fun i => ?_
  rw [passedRanks, List.getElem?_map]
  by_cases below : i < ranges.length
  · rw [List.getElem?_range below, Option.map_some, List.getD_eq_getElem?_getD,
      List.getElem?_eq_getElem (long ▸ below), Option.getD_some]
  · rw [List.getElem?_eq_none (by simpa using below), List.getElem?_eq_none (by omega)]
    rfl

theorem mem_passedRanks_of_stored {rank : Int}
    (short : (ranges.flatMap Triplet.stored).length ≤ ranges.length)
    (member : rank ∈ ranges.flatMap Triplet.stored) : rank ∈ passedRanks block ranges := by
  obtain ⟨i, below, here⟩ := List.mem_iff_getElem.mp member
  refine List.mem_map.mpr ⟨i, List.mem_range.mpr (by omega), ?_⟩
  rw [List.getD_eq_getElem?_getD, List.getElem?_eq_getElem below, here, Option.getD_some]

theorem mem_passedRanks_const {v rank : Int}
    (member : rank ∈ passedRanks (fun _ => v) ranges) :
    rank ∈ ranges.flatMap Triplet.stored ∨ rank = v := by
  obtain ⟨i, -, rfl⟩ := List.mem_map.mp member
  rw [List.getD_eq_getElem?_getD]
  by_cases below : i < (ranges.flatMap Triplet.stored).length
  · left
    rw [List.getElem?_eq_getElem below, Option.getD_some]
    exact List.getElem_mem below
  · right
    rw [List.getElem?_eq_none (Nat.le_of_not_lt below), Option.getD_none]

theorem passedRanks_const_mem {v : Int}
    (fewer : (ranges.flatMap Triplet.stored).length < ranges.length) :
    v ∈ passedRanks (fun _ => v) ranges := by
  refine List.mem_map.mpr ⟨_, List.mem_range.mpr fewer, ?_⟩
  rw [List.getD_eq_getElem?_getD, List.getElem?_eq_none (Nat.le_refl _), Option.getD_none]

/-- The last entry of the array is left over when fewer ranks than triplets are stored. -/
theorem passedRanks_last (block : Nat → Int)
    (fewer : (ranges.flatMap Triplet.stored).length < ranges.length) :
    ∃ front, front.length + 1 = ranges.length ∧
      passedRanks block ranges = front ++ [block (ranges.length - 1)] := by
  obtain ⟨m, size⟩ : ∃ m, ranges.length = m + 1 := ⟨ranges.length - 1, by omega⟩
  refine ⟨(List.range m).map fun i => (ranges.flatMap Triplet.stored).getD i (block i), ?_, ?_⟩
  · rw [List.length_map, List.length_range, size]
  · rw [passedRanks, size, List.range_succ, List.map_append, List.map_singleton,
      Nat.add_sub_cancel]
    congr 2
    rw [List.getD_eq_getElem?_getD, List.getElem?_eq_none (by omega), Option.getD_none]

theorem inclRank_append (i : Nat) (localRank rank : Int) :
    inclRank grp i localRank (ranks ++ [rank]) =
      if grp.localRank = rank then ((i + ranks.length : Nat) : Int)
      else inclRank grp i localRank ranks := by
  induction ranks generalizing i localRank with
  | nil => rfl
  | cons head ranks ih =>
      rw [List.cons_append, inclRank, ih, inclRank, List.length_cons, Nat.add_right_comm,
        Nat.add_assoc]

theorem inclRank_lt (grp : Group) (ranks : List Int) {i : Nat} {localRank : Int}
    (below : localRank < i) :
    inclRank grp i localRank ranks < ((i + ranks.length : Nat) : Int) := by
  induction ranks generalizing i localRank with
  | nil => exact below
  | cons head ranks ih =>
      have next : (if grp.localRank = head then (i : Int) else localRank) < ((i + 1 : Nat) : Int) := by
        split <;> omega
      have rest := ih next
      rw [inclRank, List.length_cons, ← Nat.add_assoc, Nat.add_right_comm]
      exact rest

theorem incl_outcome (accepted : groupVerify group = some grp) (ranks : List Int) :
    outcome (mpiGroupIncl group ranks) = .ok (if ranks.length = 0 then none
      else some (ranks.map grp.cell, inclRank grp 0 mpiUndefined ranks)) := by
  rw [mpiGroupIncl, verified, accepted]
  by_cases nobody : ranks.length = 0
  · simp only [Bind.bind, Except.bind, if_pos nobody]
    rfl
  · simp only [Bind.bind, Except.bind, if_neg nobody]
    rw [inclTable_eq]
    rfl

theorem excl_outcome (accepted : groupVerify group = some grp) (ranks : List Int) :
    outcome (mpiGroupExcl group ranks) = .ok (if ranks.length ≥ grp.np then none
      else some (kept grp ranks, exclRank grp (kept grp ranks))) := by
  rw [mpiGroupExcl, verified, accepted]
  by_cases nobody : ranks.length ≥ grp.np
  · simp only [Bind.bind, Except.bind, if_pos nobody]
    rfl
  · simp only [Bind.bind, Except.bind, if_neg nobody]
    rw [exclTable_eq]
    rfl

theorem incl_refused (refused : groupVerify group = none) (ranks : List Int) :
    mpiGroupIncl group ranks = .error mpiErrGroup := by
  rw [mpiGroupIncl, verified, refused]
  rfl

theorem excl_refused (refused : groupVerify group = none) (ranks : List Int) :
    mpiGroupExcl group ranks = .error mpiErrGroup := by
  rw [mpiGroupExcl, verified, refused]
  rfl

/-- A left over entry decides whether the caller gets the last rank. -/
theorem incl_depends_on_block (accepted : groupVerify group = some grp)
    (fewer : (ranges.flatMap Triplet.stored).length < ranges.length) :
    outcome (mpiGroupIncl group (passedRanks (fun _ => grp.localRank) ranges)) ≠
      outcome (mpiGroupIncl group (passedRanks (fun _ => grp.localRank + 1) ranges)) := by
  intro same
  obtain ⟨front, long, mine⟩ := passedRanks_last (fun _ => grp.localRank) fewer
  obtain ⟨front', long', other⟩ := passedRanks_last (fun _ => grp.localRank + 1) fewer
  have somebody : ranges.length ≠ 0 := by omega
  rw [incl_outcome accepted, incl_outcome accepted, length_passedRanks, length_passedRanks,
    if_neg somebody, if_neg somebody, mine, other] at same
  injection same with same
  injection same with same
  have ranks : inclRank grp 0 mpiUndefined (front ++ [grp.localRank]) =
      inclRank grp 0 mpiUndefined (front' ++ [grp.localRank + 1]) := congrArg Prod.snd same
  have last : ((0 + front.length : Nat) : Int) = inclRank grp 0 mpiUndefined front' := by
    rw [inclRank_append, inclRank_append, if_pos rfl, if_neg (by omega)] at ranks
    exact ranks
  have undefined : mpiUndefined < ((0 : Nat) : Int) := by decide
  have before := inclRank_lt grp front' undefined
  omega

theorem incl_same_iff (accepted : groupVerify group = some grp)
    (strides : ∀ r ∈ ranges, r.stride ≠ 0) (fits : ∀ r ∈ ranges, r.Fits) :
    (∀ block, outcome (mpiGroupIncl group (passedRanks block ranges)) =
        outcome (mpiGroupIncl group (expanded ranges))) ↔
      (∀ r ∈ ranges, 0 < r.stride) ∧ (expanded ranges).length = ranges.length := by
  constructor
  · intro same
    have long : (expanded ranges).length = ranges.length := by
      have once := same fun _ => 0
      rw [incl_outcome accepted, incl_outcome accepted, length_passedRanks] at once
      injection once with once
      split_ifs at once with none_passed none_listed none_listed
      · omega
      · injection once with once
        have lists := congrArg List.length (congrArg Prod.fst once)
        simpa [length_passedRanks] using lists.symm
    rcases ascending_or_fewer strides fits with ⟨ascending, -⟩ | fewer
    · exact ⟨ascending, long⟩
    · exact absurd ((same _).trans (same _).symm)
        (incl_depends_on_block accepted (by omega))
  · rintro ⟨ascending, long⟩ block
    rcases ascending_or_fewer strides fits with ⟨-, stored⟩ | fewer
    · rw [passedRanks_of_length (by rw [stored, long]), stored]
    · rw [stored_of_ascending fits ascending] at fewer
      exact absurd fewer (Nat.lt_irrefl _)

theorem length_listed_mono
    (inside : ∀ i : Nat, i < grp.np → (i : Int) ∈ ranks → (i : Int) ∈ ranks') :
    (listed grp ranks).length ≤ (listed grp ranks').length := by
  rw [listed, listed, ← List.countP_eq_length_filter, ← List.countP_eq_length_filter]
  refine List.countP_mono_left fun i member => ?_
  simpa using inside i (List.mem_range.mp member)

theorem excl_same_length (accepted : groupVerify group = some grp) (lists : Lists grp ranks')
    (proper : ranks.length < grp.np)
    (same : outcome (mpiGroupExcl group ranks) = outcome (mpiGroupExcl group ranks')) :
    (listed grp ranks).length = ranks'.length ∧ ranks'.length < grp.np := by
  rw [excl_outcome accepted, excl_outcome accepted, if_neg (Nat.not_le.mpr proper)] at same
  injection same with same
  split_ifs at same with everybody
  · injection same with same
    have count := congrArg (fun x => x.1.length) same
    have total := listed_add_kept grp ranks
    have total' := listed_add_kept grp ranks'
    rw [lists.length_listed] at total'
    dsimp only at count
    exact ⟨by omega, Nat.lt_of_not_le everybody⟩

theorem exists_unlisted (lists : Lists grp ranks) (proper : ranks.length < grp.np) :
    ∃ v, Lists grp (v :: ranks) := by
  have total := listed_add_kept grp ranks
  rw [lists.length_listed] at total
  have some_left : kept grp ranks ≠ [] := List.length_pos_iff.mp (by omega)
  obtain ⟨x, member⟩ := List.exists_mem_of_ne_nil _ some_left
  obtain ⟨i, left, -⟩ := List.mem_map.mp member
  obtain ⟨below, fresh⟩ := List.mem_filter.mp left
  have inside := List.mem_range.mp below
  refine ⟨i, List.nodup_cons.mpr ⟨by simpa using fresh, lists.distinct⟩,
    List.forall_mem_cons.mpr ⟨⟨by omega, by omega⟩, lists.valid⟩⟩

theorem excl_same_iff (accepted : groupVerify group = some grp)
    (strides : ∀ r ∈ ranges, r.stride ≠ 0) (fits : ∀ r ∈ ranges, r.Fits)
    (lists : Lists grp (expanded ranges)) :
    (∀ block, outcome (mpiGroupExcl group (passedRanks block ranges)) =
        outcome (mpiGroupExcl group (expanded ranges))) ↔
      (grp.np ≤ ranges.length ∧ (expanded ranges).length = grp.np) ∨
      (ranges.length < grp.np ∧ (∀ r ∈ ranges, 0 < r.stride) ∧
        (expanded ranges).length = ranges.length) := by
  have most : (expanded ranges).length ≤ grp.np := by
    rw [← lists.length_listed]
    have total := listed_add_kept grp (expanded ranges)
    omega
  by_cases everybody : grp.np ≤ ranges.length
  · have emptied (block : Nat → Int) : outcome (mpiGroupExcl group (passedRanks block ranges)) =
        .ok none := by
      rw [excl_outcome accepted, length_passedRanks, if_pos everybody]
    simp only [emptied]
    constructor
    · intro same
      have claimed := (same fun _ => 0).symm
      rw [excl_outcome accepted] at claimed
      injection claimed with claimed
      split_ifs at claimed with all
      · exact Or.inl ⟨everybody, by omega⟩
    · rintro (⟨-, all⟩ | ⟨proper, -⟩) block
      · rw [excl_outcome accepted, if_pos (by omega)]
      · omega
  · have proper : ranges.length < grp.np := Nat.lt_of_not_le everybody
    constructor
    · intro same
      have counted (block : Nat → Int) := excl_same_length accepted lists
        (by rw [length_passedRanks]; exact proper) (same block)
      have short : (expanded ranges).length ≤ ranges.length := by
        rw [← (counted fun _ => 0).1]
        exact (length_listed_le grp _).trans (Nat.le_of_eq length_passedRanks)
      -- a block of -1 adds nothing to the ranks that were stored
      have stored : (expanded ranges).length ≤ (ranges.flatMap Triplet.stored).length := by
        rw [← (counted fun _ => -1).1]
        refine (length_listed_mono fun i _ member => ?_).trans (length_listed_le grp _)
        exact (mem_passedRanks_const member).resolve_right (by omega)
      rcases ascending_or_fewer strides fits with ⟨ascending, equal⟩ | fewer
      · refine Or.inr ⟨proper, ascending, ?_⟩
        by_contra differ
        -- a block of a rank that is not listed excludes one member more
        obtain ⟨v, longer⟩ := exists_unlisted lists (counted fun _ => 0).2
        have more : (v :: expanded ranges).length ≤
            (listed grp (passedRanks (fun _ => v) ranges)).length := by
          rw [← longer.length_listed]
          refine length_listed_mono fun i _ member => ?_
          rcases List.mem_cons.mp member with rfl | member
          · exact passedRanks_const_mem (by rw [equal]; omega)
          · exact mem_passedRanks_of_stored (by rw [equal]; omega) (equal ▸ member)
        rw [(counted fun _ => v).1, List.length_cons] at more
        omega
      · omega
    · rintro (⟨all, -⟩ | ⟨-, ascending, long⟩) block
      · omega
      · rcases ascending_or_fewer strides fits with ⟨-, stored⟩ | fewer
        · rw [passedRanks_of_length (by rw [stored, long]), stored]
        · rw [stored_of_ascending fits ascending] at fewer
          exact absurd fewer (Nat.lt_irrefl _)

end Passed

/-- Where no loop variable overflows, the range forms expand and then include or exclude exactly when
the count of the triplets is that of the ranks, no triplet descends, and triplets that stand for no
rank count for none. -/
theorem range_forms_agree_iff (group : MpiGroup) (ranges : List Triplet)
    (strides : ∀ r ∈ ranges, r.stride ≠ 0)
    (valid : ∀ rank ∈ expanded ranges,
      ∃ grp, groupVerify group = some grp ∧ 0 ≤ rank ∧ rank < grp.np)
    (distinct : (expanded ranges).Nodup) (fits : ∀ r ∈ ranges, r.Fits) :
    (AgreesWith mpiGroupIncl mpiGroupRangeIncl group ranges ↔
      SizesMatch ranges ∧ ∀ grp, groupVerify group = some grp →
        (∀ r ∈ ranges, 0 < r.stride) ∧ (expanded ranges).length = ranges.length) ∧
    (AgreesWith mpiGroupExcl mpiGroupRangeExcl group ranges ↔
      SizesMatch ranges ∧ ∀ grp, groupVerify group = some grp →
        (grp.np ≤ ranges.length ∧ (expanded ranges).length = grp.np) ∨
        (ranges.length < grp.np ∧ (∀ r ∈ ranges, 0 < r.stride) ∧
          (expanded ranges).length = ranges.length)) := by
  have listed : ∀ r ∈ ranges, r.Listed := by
    intro r member
    refine ⟨strides r member, fun rank inside => ?_⟩
    obtain ⟨grp, -, nonneg, -⟩ := valid rank (List.mem_flatMap.mpr ⟨r, member, inside⟩)
    exact nonneg
  constructor
  · refine (agreesWith_iff listed fits).trans (and_congr_right fun _ => ?_)
    cases accepted : groupVerify group with
    | none => simp [incl_refused accepted]
    | some grp => simpa using incl_same_iff accepted strides fits
  · refine (agreesWith_iff listed fits).trans (and_congr_right fun _ => ?_)
    cases accepted : groupVerify group with
    | none => simp [excl_refused accepted]
    | some grp =>
        have lists : Lists grp (expanded ranges) := by
          refine ⟨distinct, fun rank member => ?_⟩
          obtain ⟨grp', accepted', inside⟩ := valid rank member
          rw [accepted, Option.some.injEq] at accepted'
          exact accepted' ▸ inside
        simpa using excl_same_iff accepted strides fits lists

theorem range_forms_agree_iff_pairs :
    AgreesWith mpiGroupIncl mpiGroupRangeIncl (.ptr (newGroup 0 ⟨8, [0, 1]⟩))
      [⟨1, 1, 1⟩, ⟨0, 0, 2⟩] :=
  ((range_forms_agree_iff (.ptr (newGroup 0 ⟨8, [0, 1]⟩)) [⟨1, 1, 1⟩, ⟨0, 0, 2⟩] (by decide)
    (fun rank member => ⟨newGroup 0 ⟨8, [0, 1]⟩, rfl, by
      revert rank
      decide⟩) (by decide) (by decide)).1).mpr
    ⟨by simp [SizesMatch]; decide, fun _ _ => ⟨by decide, rfl⟩⟩

/-- Ranks 0 to 3 as one triplet: only rank 0 is included. -/
theorem range_incl_one : expanded [⟨0, 3, 1⟩] = [0, 1, 2, 3] ∧
    ¬ AgreesWith mpiGroupIncl mpiGroupRangeIncl (.ptr (newGroup 0 ⟨16, [0, 1, 2, 3]⟩))
      [⟨0, 3, 1⟩] := by
  refine ⟨by decide, fun agrees => ?_⟩
  have listed : ∀ r ∈ [Triplet.mk 0 3 1], r.Listed := by simp [Triplet.Listed]; decide
  have fits : ∀ r ∈ [Triplet.mk 0 3 1], r.Fits := by decide
  have accepted : groupVerify (.ptr (newGroup 0 ⟨16, [0, 1, 2, 3]⟩)) =
    some (newGroup 0 ⟨16, [0, 1, 2, 3]⟩) := rfl
  have same := ((agreesWith_iff listed fits).mp agrees).2
  have long := ((incl_same_iff accepted (by decide) fits).mp same).2
  exact absurd long (by decide)

end Tmpi.Mpi
