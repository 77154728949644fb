import Tmpi.Mpi.GroupRange

/-! The blocks that the constructors allocate for `int`s, and what they store in them. -/

namespace Tmpi.Mpi

/-- A call of one of the constructors. -/
inductive Construction where
  | union (group1 group2 : MpiGroup)
  | intersection (group1 group2 : MpiGroup)
  | difference (group1 group2 : MpiGroup)
  | incl (group : MpiGroup) (ranks : List Int)
  | excl (group : MpiGroup) (ranks : List Int)
  | rangeIncl (group : MpiGroup) (ranges : List Triplet)
  | rangeExcl (group : MpiGroup) (ranges : List Triplet)

/-- The table of two groups, if both are accepted. -/
def tableOfTwo (table : Group → Group → Table) (group1 group2 : MpiGroup) : Option Table := do
  let grp1 ← groupVerify group1
  let grp2 ← groupVerify group2
  return table grp1 grp2

/-- The block of the call, if it gets as far as allocating one; the loops of the range forms
have run at most `fuel` rounds. -/
def Construction.table (fuel : Nat) : Construction → Option Table
  | .union group1 group2 => tableOfTwo unionTable group1 group2
  | .intersection group1 group2 => tableOfTwo intersectionTable group1 group2
  | .difference group1 group2 => tableOfTwo differenceTable group1 group2
  | .incl group ranks => do
      let grp ← groupVerify group
      if ranks.length = 0 then none else some (inclTable grp ranks)
  | .excl group ranks => do
      let grp ← groupVerify group
      if ranks.length ≥ grp.np then none else some (exclTable grp ranks)
  | .rangeIncl _ ranges | .rangeExcl _ ranges => (rangesTable fuel ranges).map Prod.fst

/-- `sizeof(int)`. -/
def sizeofInt : Nat := 4

/-- Every index stored at lies inside the block. -/
def Table.Fits (table : Table) : Prop :=
  ∀ i < table.cells.length, (i + 1) * sizeofInt ≤ table.bytes

/-- The call never stores outside its block. -/
def Construction.Safe (call : Construction) : Prop :=
  ∀ fuel table, call.table fuel = some table → table.Fits

/-- The groups and lists for which four bytes a stored rank were asked for. -/
def Construction.Roomy : Construction → Prop
  | .union group1 group2 => ∀ grp1 grp2, groupVerify group1 = some grp1 →
      groupVerify group2 = some grp2 →
        4 * (grp1.np + (grp2.cells.filter (· ∉ grp1.cells)).length) ≤ grp1.np + grp2.np
  | .intersection group1 group2 => ∀ grp1 grp2, groupVerify group1 = some grp1 →
      groupVerify group2 = some grp2 →
        4 * (grp1.cells.filter (· ∈ grp2.cells)).length ≤ grp1.np
  | .difference group1 group2 => ∀ grp1 grp2, groupVerify group1 = some grp1 →
      groupVerify group2 = some grp2 →
        4 * (grp1.cells.filter (· ∉ grp2.cells)).length ≤ grp1.np
  | .incl group ranks => groupVerify group = none ∨ ranks = []
  | .excl group ranks => ∀ grp, groupVerify group = some grp → grp.np ≤ ranks.length
  | .rangeIncl _ ranges | .rangeExcl _ ranges => (∃ r ∈ ranges, r.Traps) ∨
      (∀ r ∈ ranges, r.Ends) ∧ 4 * (ranges.map Triplet.rounds).sum ≤
        sizeT (wrap (ranges.map fun r => r.size.toInt).sum)

section Tables

variable {table : Table} {group group1 group2 : MpiGroup} {ranks : List Int}
  {ranges : List Triplet}

theorem fits_iff : table.Fits ↔ 4 * table.cells.length ≤ table.bytes := by
  unfold Table.Fits sizeofInt
  constructor
  · intro fits
    by_cases nothing : table.cells.length = 0
    · omega
    · have last := fits (table.cells.length - 1) (by omega)
      omega
  · intro room i below
    omega

theorem sizeT_natCast (n : Nat) : sizeT n = n := by
  rw [sizeT, if_pos (Int.natCast_nonneg n), Int.toNat_natCast]

theorem fits_malloc_iff {size : Nat} {cells : List Int} :
    Table.Fits ⟨sizeT size, cells⟩ ↔ 4 * cells.length ≤ size := by
  rw [fits_iff, sizeT_natCast]

theorem tableOfTwo_safe_iff (of : Group → Group → Table) :
    (∀ table, tableOfTwo of group1 group2 = some table → table.Fits) ↔
      ∀ grp1 grp2, groupVerify group1 = some grp1 → groupVerify group2 = some grp2 →
        (of grp1 grp2).Fits := by
  unfold tableOfTwo
  cases groupVerify group1 with
  | none => simp
  | some grp1 => cases groupVerify group2 with
    | none => simp
    | some grp2 => simp

theorem union_fits_iff (grp1 grp2 : Group) : (unionTable grp1 grp2).Fits ↔
    4 * (grp1.np + (grp2.cells.filter (· ∉ grp1.cells)).length) ≤ grp1.np + grp2.np := by
  rw [unionTable_eq, ← Int.natCast_add, fits_malloc_iff, List.length_append]
  rfl

theorem intersection_fits_iff (grp1 grp2 : Group) : (intersectionTable grp1 grp2).Fits ↔
    4 * (grp1.cells.filter (· ∈ grp2.cells)).length ≤ grp1.np := by
  rw [intersectionTable_eq, fits_malloc_iff]

theorem difference_fits_iff (grp1 grp2 : Group) : (differenceTable grp1 grp2).Fits ↔
    4 * (grp1.cells.filter (· ∉ grp2.cells)).length ≤ grp1.np := by
  rw [differenceTable_eq, fits_malloc_iff]

theorem incl_fits_iff (grp : Group) : (inclTable grp ranks).Fits ↔ ranks = [] := by
  rw [inclTable_eq, fits_malloc_iff, List.length_map, ← List.length_eq_zero_iff]
  omega

/-- Of `np` members at least `np - n` are left, and one byte was asked for each of those. -/
theorem excl_overflows (grp : Group) (proper : ranks.length < grp.np) :
    ¬ (exclTable grp ranks).Fits := by
  have total := listed_add_kept grp ranks
  have most := length_listed_le grp ranks
  rw [exclTable_eq, ← Int.natCast_sub proper.le, fits_malloc_iff]
  omega

theorem incl_safe_iff :
    (∀ table, ((groupVerify group).bind fun grp =>
        if ranks.length = 0 then none else some (inclTable grp ranks)) = some table → table.Fits) ↔
      groupVerify group = none ∨ ranks = [] := by
  cases groupVerify group with
  | none => simp
  | some grp =>
      by_cases nobody : ranks = []
      · simp [nobody]
      · simp [nobody, incl_fits_iff]

theorem excl_safe_iff :
    (∀ table, ((groupVerify group).bind fun grp =>
        if ranks.length ≥ grp.np then none else some (exclTable grp ranks)) = some table →
          table.Fits) ↔
      ∀ grp, groupVerify group = some grp → grp.np ≤ ranks.length := by
  cases groupVerify group with
  | none => simp
  | some grp =>
      by_cases everybody : grp.np ≤ ranks.length
      · simp [everybody]
      · simp [everybody, excl_overflows grp (Nat.lt_of_not_le everybody)]

theorem length_flatMap_stored :
    (ranges.flatMap Triplet.stored).length = (ranges.map Triplet.rounds).sum := by
  induction ranges with
  | nil => rfl
  | cons r ranges ih =>
      rw [List.flatMap_cons, List.length_append, ih, Triplet.stored, List.length_map,
        List.length_range, List.map_cons, List.sum_cons]

theorem rangesLoop_running {fuel : Nat} (running : (rangesLoop fuel ranges).2 = false) :
    fuel ≤ (rangesLoop fuel ranges).1.length := by
  induction ranges with
  | nil => exact absurd running (by simp [rangesLoop])
  | cons r ranges ih =>
      cases inner : (rangeLoop r.last r.stride fuel r.first).2 with
      | true =>
          rw [rangesLoop, if_pos inner] at running ⊢
          rw [List.length_append]
          exact (ih running).trans (Nat.le_add_left _ _)
      | false =>
          rw [rangesLoop, if_neg (Bool.eq_false_iff.mp inner)]
          exact (rangeLoop_running (value_zero r).symm inner).1.ge

theorem length_rangeLoop_le {r : Triplet} (ends : r.Ends) (fuel : Nat) :
    (rangeLoop r.last r.stride fuel r.first).1.length ≤ r.rounds := by
  cases done : (rangeLoop r.last r.stride fuel r.first).2 with
  | true =>
      rw [(rangeLoop_stored done).2, Triplet.stored, List.length_map, List.length_range]
  | false =>
      rw [(rangeLoop_running (value_zero r).symm done).1]
      by_contra more
      rw [rangeLoop_ends ends (not_le.mp more)] at done
      cases done

theorem length_rangesLoop_le (ends : ∀ r ∈ ranges, r.Ends) (fuel : Nat) :
    (rangesLoop fuel ranges).1.length ≤ (ranges.map Triplet.rounds).sum := by
  induction ranges with
  | nil => exact Nat.zero_le _
  | cons r ranges ih =>
      have here := length_rangeLoop_le (ends r List.mem_cons_self) fuel
      have rest := ih fun r' later => ends r' (List.mem_cons_of_mem r later)
      rw [rangesLoop, List.map_cons, List.sum_cons]
      split
      · rw [List.length_append]
        omega
      · omega

theorem rangeSize_none (traps : ∃ r ∈ ranges, r.Traps) : rangeSize ranges = none := by
  have loop (start : Int32) : ranges.foldlM (fun (size : Int32) r =>
      if r.Traps then none else some (size + r.size)) start = none := by
    induction ranges generalizing start with
    | nil => exact absurd traps (by simp)
    | cons r ranges ih =>
        rw [List.foldlM_cons]
        by_cases now : r.Traps
        · rw [if_pos now]
          rfl
        · rw [if_neg now]
          obtain ⟨r', member, later⟩ := traps
          rcases List.mem_cons.mp member with rfl | member
          · exact absurd later now
          · exact ih ⟨r', member, later⟩ _
  exact loop 0

theorem ranges_safe_iff :
    (∀ fuel table, (rangesTable fuel ranges).map Prod.fst = some table → table.Fits) ↔
      (∃ r ∈ ranges, r.Traps) ∨ (∀ r ∈ ranges, r.Ends) ∧
        4 * (ranges.map Triplet.rounds).sum ≤
          sizeT (wrap (ranges.map fun r => r.size.toInt).sum) := by
  by_cases traps : ∃ r ∈ ranges, r.Traps
  · simp [rangesTable, rangeSize_none traps, traps]
  · obtain ⟨size, sized, total⟩ := exists_rangeSize fun r member now => traps ⟨r, member, now⟩
    have block (fuel : Nat) : (rangesTable fuel ranges).map Prod.fst =
        some ⟨sizeT size.toInt, (rangesLoop fuel ranges).1⟩ := by
      rw [rangesTable, sized]
      rfl
    simp only [block, Option.some.injEq, forall_eq', fits_iff, traps, false_or, ← total]
    constructor
    · intro room
      have ends : ∀ r ∈ ranges, r.Ends := by
        by_contra stuck
        have running : (rangesLoop (sizeT size.toInt + 1) ranges).2 = false :=
          Bool.eq_false_iff.mpr fun ended => stuck (rangesLoop_ended ended).1
        have long := rangesLoop_running running
        have short := room (sizeT size.toInt + 1)
        omega
      obtain ⟨fuel, loop⟩ := exists_rangesLoop ends
      have short := room fuel
      rw [loop, length_flatMap_stored] at short
      exact ⟨ends, short⟩
    · rintro ⟨ends, room⟩ fuel
      have short := length_rangesLoop_le ends fuel
      omega

end Tables

/-- A constructor stays inside its block exactly when the bytes it asks for, one a rank, hold
four times the ranks it stores. -/
theorem construction_safe_iff (call : Construction) : call.Safe ↔ call.Roomy := by
  unfold Construction.Safe
  cases call with
  | union group1 group2 =>
      exact (forall_const Nat).trans ((tableOfTwo_safe_iff unionTable).trans
        (by simp only [union_fits_iff, Construction.Roomy]))
  | intersection group1 group2 =>
      exact (forall_const Nat).trans ((tableOfTwo_safe_iff intersectionTable).trans
        (by simp only [intersection_fits_iff, Construction.Roomy]))
  | difference group1 group2 =>
      exact (forall_const Nat).trans ((tableOfTwo_safe_iff differenceTable).trans
        (by simp only [difference_fits_iff, Construction.Roomy]))
  | incl group ranks => exact (forall_const Nat).trans incl_safe_iff
  | excl group ranks => exact (forall_const Nat).trans excl_safe_iff
  | rangeIncl group ranges => exact ranges_safe_iff
  | rangeExcl group ranges => exact ranges_safe_iff

/-- Including rank 0 of a group stores four bytes into a block of one. -/
theorem incl_one_unsafe : ¬ (Construction.incl (.ptr (newGroup 0 ⟨4, [0]⟩)) [0]).Safe := by
  intro safe
  have fits := safe 0 ⟨1, [0]⟩ rfl 0 (by decide)
  exact absurd fits (by decide)

end Tmpi.Mpi
