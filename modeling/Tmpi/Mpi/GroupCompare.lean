import Mathlib.Data.Set.Function
import Tmpi.Mpi.GroupSets

/-! Comparing groups and translating ranks between them. -/

namespace Tmpi.Mpi

section Compare

variable {grp grp1 grp2 : Group}

theorem cells_eq_iff : grp1.cells = grp2.cells ↔
    grp1.np = grp2.np ∧ ∀ i < grp1.np, grp1.cell (i : Nat) = grp2.cell i := by
  constructor
  · intro same
    refine ⟨congrArg List.length same, fun i _ => ?_⟩
    rw [Group.cell, Group.cell, same]
  · rintro ⟨size, same⟩
    rw [cells_eq_map grp1, cells_eq_map grp2, ← size]
    exact List.map_congr_left fun i inside => same i (List.mem_range.mp inside)

/-- Two lists of one size without duplicates differ in order only if one contains the other. -/
theorem perm_iff_subset (nodup : grp1.cells.Nodup) (size : grp1.np = grp2.np) :
    grp1.cells.Perm grp2.cells ↔ ∀ x ∈ grp1.cells, x ∈ grp2.cells :=
  ⟨fun perm _ => perm.mem_iff.mp, fun inside => Ranking.perm_of_subset nodup inside size⟩

theorem compareTables_eq (nodup : grp1.cells.Nodup) : compareTables grp1 grp2 =
    if grp1.cells = grp2.cells then .ident
    else if grp1.cells.Perm grp2.cells then .similar else .unequal := by
  unfold compareTables
  by_cases size : grp1.np = grp2.np
  · have first : ((List.range grp1.np).any fun i => grp1.cell i != grp2.cell i) =
        decide (grp1.cells ≠ grp2.cells) := by
      rw [Bool.eq_iff_iff, decide_eq_true_iff, ne_eq, cells_eq_iff]
      simp [size]
    have second : (grp1.cells.any fun grank => search grp2.cells grank == mpiUndefined) =
        decide (¬ grp1.cells.Perm grp2.cells) := by
      rw [Bool.eq_iff_iff, decide_eq_true_iff, perm_iff_subset nodup size]
      simp [search_eq_undefined]
    rw [if_neg (not_not.mpr size), first, second]
    by_cases same : grp1.cells = grp2.cells
    · simp [same]
    · by_cases perm : grp1.cells.Perm grp2.cells <;> simp [same, perm]
  · have differ : grp1.cells ≠ grp2.cells := fun same => size (congrArg List.length same)
    have apart : ¬ grp1.cells.Perm grp2.cells := fun perm => size perm.length_eq
    rw [if_pos size, if_neg differ, if_neg apart]

end Compare

/-! ## Translation -/

/-- What one rank of `grp1` is translated to. -/
def translated (grp1 grp2 : Group) (rank : Int) : Int := search grp2.cells (grp1.cell rank)

def Group.Rank (grp : Group) (rank : Int) : Prop := 0 ≤ rank ∧ rank < grp.np

section Translate

variable {grp1 grp2 : Group} {rank rank1 rank2 : Int}

theorem search_eq_iff {cells : List Int} {x : Int} {j : Nat} (nodup : cells.Nodup) :
    search cells x = j ↔ cells[j]? = some x := by
  rw [← Ranking.idxOf?_iff nodup]
  unfold search
  cases cells.idxOf? x with
  | none => simp [mpiUndefined]
  | some i =>
      rw [Option.some.injEq]
      exact Int.ofNat_inj

theorem translated_eq_iff (nodup2 : grp2.cells.Nodup) (valid2 : grp2.Rank rank2) :
    translated grp1 grp2 rank1 = rank2 ↔ grp1.cell rank1 = grp2.cell rank2 := by
  obtain ⟨j, rfl⟩ := Int.eq_ofNat_of_zero_le valid2.1
  have below : j < grp2.np := by
    have := valid2.2
    omega
  rw [translated, search_eq_iff nodup2, getElem?_cells below, Option.some.injEq, eq_comm]

theorem translated_undefined_iff :
    translated grp1 grp2 rank = mpiUndefined ↔ grp1.cell rank ∉ grp2.cells :=
  search_eq_undefined

theorem translated_rank (member : grp1.cell rank ∈ grp2.cells) :
    grp2.Rank (translated grp1 grp2 rank) := by
  obtain ⟨j, found⟩ := Ranking.exists_idxOf? member
  have below := Ranking.idxOf?_lt found
  rw [translated, search, found]
  exact ⟨Int.natCast_nonneg j, Int.ofNat_lt.mpr below⟩

theorem translated_bijOn (nodup1 : grp1.cells.Nodup) (nodup2 : grp2.cells.Nodup)
    (perm : grp1.cells.Perm grp2.cells) :
    Set.BijOn (translated grp1 grp2) {rank | grp1.Rank rank} {rank | grp2.Rank rank} := by
  have arrives (rank : Int) (valid : grp1.Rank rank) : grp2.Rank (translated grp1 grp2 rank) :=
    translated_rank (perm.mem_iff.mp (cell_mem valid))
  refine ⟨arrives, fun rank valid rank' valid' same => ?_, fun rank2 valid2 => ?_⟩
  · have there := (translated_eq_iff nodup2 (arrives rank' valid')).mp same
    have here := (translated_eq_iff nodup2 (arrives rank' valid')).mp rfl
    exact cell_inj nodup1 valid valid' (there.trans here.symm)
  · have member : grp2.cell rank2 ∈ grp1.cells := perm.mem_iff.mpr (cell_mem valid2)
    have valid1 := translated_rank member
    have back := (translated_eq_iff nodup1 valid1).mp rfl
    exact ⟨translated grp2 grp1 rank2, valid1, (translated_eq_iff nodup2 valid2).mpr back.symm⟩

end Translate

/-! ## The two queries -/

/-- The members of a group as its users think of it. -/
def MpiGroup.members : MpiGroup → List Int
  | .empty => []
  | .ptr grp => grp.cells

/-- A group that `group_verify` accepts, without duplicates. -/
structure Distinct (grp : Group) : Prop where
  cookie : grp.cookie = mpiGroupCookie
  nodup : grp.cells.Nodup

/-- What `MPI_Group_compare` says of two groups. -/
structure Compared (group1 group2 : MpiGroup) (result : Comparison) : Prop where
  forth : mpiGroupCompare group1 group2 = .ok result
  back : mpiGroupCompare group2 group1 = .ok result
  ident : result = .ident ↔ group1.members = group2.members
  similar : result = .similar ↔
    group1.members ≠ group2.members ∧ group1.members.Perm group2.members
  unequal : result = .unequal ↔ ¬ group1.members.Perm group2.members

/-- What `MPI_Group_translate_ranks` does between two groups: `f` one way, `f'` the other. -/
structure Translated (grp1 grp2 : Group) (f f' : Int → Int) : Prop where
  forth : ∀ ranks1, mpiGroupTranslateRanks (.ptr grp1) ranks1 (.ptr grp2) = .ok (ranks1.map f)
  back : ∀ ranks2, mpiGroupTranslateRanks (.ptr grp2) ranks2 (.ptr grp1) = .ok (ranks2.map f')
  inverse : ∀ rank1 rank2, grp1.Rank rank1 → grp2.Rank rank2 →
    (f rank1 = rank2 ↔ f' rank2 = rank1)
  absent : ∀ rank1, grp1.Rank rank1 → (f rank1 = mpiUndefined ↔ grp1.cell rank1 ∉ grp2.cells)
  bijective : grp1.cells.Perm grp2.cells →
    Set.BijOn f {rank | grp1.Rank rank} {rank | grp2.Rank rank}

theorem compared {grp1 grp2 : Group} (distinct1 : Distinct grp1) (distinct2 : Distinct grp2) :
    Compared (.ptr grp1) (.ptr grp2) (compareTables grp1 grp2) := by
  have same : compareTables grp2 grp1 = compareTables grp1 grp2 := by
    rw [compareTables_eq distinct1.nodup, compareTables_eq distinct2.nodup]
    simp only [eq_comm, List.perm_comm]
  have equal_perm : grp1.cells = grp2.cells → grp1.cells.Perm grp2.cells := fun equal =>
    .of_eq equal
  refine ⟨?_, ?_, ?_, ?_, ?_⟩
  · rw [mpiGroupCompare, verified_ptr distinct1.cookie, verified_ptr distinct2.cookie]
    rfl
  · rw [mpiGroupCompare, verified_ptr distinct1.cookie, verified_ptr distinct2.cookie, ← same]
    rfl
  all_goals
    rw [compareTables_eq distinct1.nodup, MpiGroup.members, MpiGroup.members]
    split_ifs <;> simp_all

theorem translates {grp1 grp2 : Group} (distinct1 : Distinct grp1) (distinct2 : Distinct grp2) :
    Translated grp1 grp2 (translated grp1 grp2) (translated grp2 grp1) := by
  refine ⟨fun ranks1 => ?_, fun ranks2 => ?_, fun rank1 rank2 valid1 valid2 => ?_,
    fun rank1 _ => translated_undefined_iff, translated_bijOn distinct1.nodup distinct2.nodup⟩
  · rw [mpiGroupTranslateRanks, verified_ptr distinct1.cookie, verified_ptr distinct2.cookie]
    rfl
  · rw [mpiGroupTranslateRanks, verified_ptr distinct1.cookie, verified_ptr distinct2.cookie]
    rfl
  · rw [translated_eq_iff distinct2.nodup valid2, translated_eq_iff distinct1.nodup valid1, eq_comm]

/-- Both queries on groups with a table of their own; `MPI_GROUP_EMPTY` is refused. -/
theorem compare_and_translate (grp1 grp2 : Group) (distinct1 : Distinct grp1)
    (distinct2 : Distinct grp2) :
    (∃ result, Compared (.ptr grp1) (.ptr grp2) result) ∧
      (∃ f f', Translated grp1 grp2 f f') ∧
      ∀ group ranks, mpiGroupCompare .empty group = .error mpiErrGroup ∧
        mpiGroupTranslateRanks .empty ranks group = .error mpiErrGroup ∧
        mpiGroupCompare (.ptr grp1) .empty = .error mpiErrGroup ∧
        mpiGroupTranslateRanks (.ptr grp1) ranks .empty = .error mpiErrGroup := by
  refine ⟨⟨_, compared distinct1 distinct2⟩, ⟨_, _, translates distinct1 distinct2⟩,
    fun group ranks => ⟨rfl, rfl, ?_, ?_⟩⟩
  · rw [mpiGroupCompare, verified_ptr distinct1.cookie]
    rfl
  · rw [mpiGroupTranslateRanks, verified_ptr distinct1.cookie]
    rfl

theorem compare_and_translate_two :
    ∃ result, Compared (.ptr (newGroup 1 ⟨8, [0, 2]⟩)) (.ptr (newGroup 0 ⟨8, [2, 0]⟩)) result :=
  (compare_and_translate (newGroup 1 ⟨8, [0, 2]⟩) (newGroup 0 ⟨8, [2, 0]⟩)
    ⟨rfl, by decide⟩ ⟨rfl, by decide⟩).1

/-- The group of nobody has no duplicates and equals itself, yet is not found identical. -/
theorem compare_empty : MpiGroup.empty.members.Nodup ∧
    ¬ (mpiGroupCompare .empty .empty = .ok .ident ↔
      MpiGroup.empty.members = MpiGroup.empty.members) := by
  have refused : mpiGroupCompare .empty .empty = .error mpiErrGroup := rfl
  refine ⟨List.nodup_nil, fun claimed => ?_⟩
  rw [refused] at claimed
  exact absurd (claimed.mpr rfl) nofun

end Tmpi.Mpi
