import Tmpi.Mpi.Group

/-! The constructors as operations on ranked sets of processes. -/

namespace Tmpi.Mpi

/-- The index of a global rank in a list of members, `MPI_UNDEFINED` if it is absent. -/
def rankOf (me : Int) (cells : List Int) : Int :=
  if me ∈ cells then (cells.idxOf me : Int) else mpiUndefined

/-- A group as the process with global rank `me` holds it. -/
structure IsGroup (me : Int) (grp : Group) : Prop where
  cookie : grp.cookie = mpiGroupCookie
  nodup : grp.cells.Nodup
  rank : grp.localRank = rankOf me grp.cells

/-- What a constructor returns to `me` when the new group has the members `l`. -/
def Yields (me : Int) (result : Except Nat MpiGroup) (l : List Int) : Prop :=
  (l = [] → result = .ok .empty) ∧
  (l ≠ [] → ∃ grp, result = .ok (.ptr grp) ∧ grp.cells = l ∧ IsGroup me grp)

/-- The members and the caller's rank; nothing for `MPI_GROUP_EMPTY`. -/
def MpiGroup.view : MpiGroup → Option (List Int × Int)
  | .empty => none
  | .ptr grp => some (grp.cells, grp.localRank)

theorem verified_ptr {grp : Group} (cookie : grp.cookie = mpiGroupCookie) :
    verified (.ptr grp) = .ok grp := by
  simp [verified, groupVerify, cookie]

/-! ## Ranks -/

section Ranks

variable {me x : Int} {cells l : List Int} {grp : Group} {i : Nat}

theorem rankOf_eq (here : cells.idxOf? me = some i) : rankOf me cells = i := by
  have member : me ∈ cells := List.mem_of_getElem? (Ranking.getElem?_of_idxOf? here)
  rw [rankOf, if_pos member, List.idxOf_eq_getD_idxOf?, here, Option.getD_some]

theorem rankOf_absent (absent : me ∉ cells) : rankOf me cells = mpiUndefined :=
  if_neg absent

theorem rankOf_ne_undefined (member : me ∈ cells) : rankOf me cells ≠ mpiUndefined := by
  rw [rankOf, if_pos member, mpiUndefined]
  omega

theorem rankOf_undefined_iff : rankOf me cells = mpiUndefined ↔ me ∉ cells :=
  ⟨fun undefined member => rankOf_ne_undefined member undefined, rankOf_absent⟩

theorem findRank_eq (old : Int) (absent : me ∉ cells) (member : me ∈ l) :
    findRank old cells.length (cells ++ l) me = rankOf me (cells ++ l) := by
  obtain ⟨i, rank⟩ := Ranking.exists_idxOf? member
  have whole : (cells ++ l).idxOf? me = some (cells.length + i) := by
    rw [Ranking.idxOf?_append_right absent, rank]
    rfl
  rw [rankOf_eq whole, findRank, List.drop_left, rank]

theorem findRank_zero (old : Int) (member : me ∈ cells) :
    findRank old 0 cells me = rankOf me cells :=
  @findRank_eq me [] cells old List.not_mem_nil member

theorem findRank_undefined : findRank mpiUndefined 0 cells me = rankOf me cells := by
  by_cases member : me ∈ cells
  · exact findRank_zero _ member
  · rw [rankOf_absent member, findRank, List.drop_zero, List.idxOf?_eq_none_iff.mpr member]

theorem IsGroup.undefined_iff (is : IsGroup me grp) :
    grp.localRank = mpiUndefined ↔ me ∉ grp.cells := by
  rw [is.rank, rankOf_undefined_iff]

theorem IsGroup.cell_localRank (is : IsGroup me grp) (member : me ∈ grp.cells) :
    grp.cell grp.localRank = me := by
  obtain ⟨i, rank⟩ := Ranking.exists_idxOf? member
  rw [is.rank, rankOf_eq rank, Group.cell, Int.toNat_natCast, List.getD_eq_getElem?_getD,
    Ranking.getElem?_of_idxOf? rank, Option.getD_some]

end Ranks

/-! ## Results -/

section Results

variable {me : Int} {result : Except Nat MpiGroup} {l : List Int}

theorem Yields.view (yields : Yields me result l) :
    result.map MpiGroup.view = .ok (if l = [] then none else some (l, rankOf me l)) := by
  by_cases nobody : l = []
  · rw [yields.1 nobody, if_pos nobody]
    rfl
  · obtain ⟨grp, ok, cells, is⟩ := yields.2 nobody
    rw [ok, if_neg nobody]
    simp [Except.map, MpiGroup.view, cells, is.rank]

theorem isGroup_newGroup {table : Table} (cells : table.cells = l) (nodup : l.Nodup) :
    IsGroup me (newGroup (rankOf me l) table) where
  cookie := rfl
  nodup := cells ▸ nodup
  rank := congrArg (rankOf me) cells.symm

theorem yields_orEmpty {table : Table} {localRank : Int} (cells : table.cells = l)
    (nodup : l.Nodup) (rank : l ≠ [] → localRank = rankOf me l) :
    Yields me (.ok (orEmpty (newGroup localRank table))) l := by
  have size : (newGroup localRank table).np = l.length := congrArg List.length cells
  constructor
  · intro nobody
    rw [orEmpty, if_pos (by rw [size, nobody]; rfl)]
  · intro somebody
    have positive : l.length ≠ 0 := fun zero => somebody (List.length_eq_zero_iff.mp zero)
    refine ⟨newGroup localRank table, ?_, cells, ?_⟩
    · rw [orEmpty, if_neg (size ▸ positive)]
    · rw [rank somebody]
      exact isGroup_newGroup cells nodup

end Results

/-! ## Union, intersection and difference -/

section Two

variable {me : Int} {grp1 grp2 : Group} (memory : Int)

theorem unionRank_eq (is1 : IsGroup me grp1) (is2 : IsGroup me grp2) :
    unionRank memory grp1 grp2 (grp1.cells ++ grp2.cells.filter (· ∉ grp1.cells)) =
      rankOf me (grp1.cells ++ grp2.cells.filter (· ∉ grp1.cells)) := by
  unfold unionRank
  by_cases member1 : me ∈ grp1.cells
  · have defined := mt is1.undefined_iff.mp (not_not.mpr member1)
    obtain ⟨i, rank⟩ := Ranking.exists_idxOf? member1
    rw [if_pos defined, is1.rank, rankOf_eq rank, rankOf_eq (Ranking.idxOf?_append_left rank)]
  · rw [if_neg (not_not.mpr (is1.undefined_iff.mpr member1))]
    by_cases member2 : me ∈ grp2.cells
    · have defined := mt is2.undefined_iff.mp (not_not.mpr member2)
      have appended : me ∈ grp2.cells.filter (· ∉ grp1.cells) := by simp [member1, member2]
      rw [if_pos defined, is2.cell_localRank member2]
      exact findRank_eq memory member1 appended
    · rw [if_neg (not_not.mpr (is2.undefined_iff.mpr member2)), rankOf_absent]
      simp [member1, member2]

theorem union_yields (is1 : IsGroup me grp1) (is2 : IsGroup me grp2) (somebody : grp1.cells ≠ []) :
    Yields me (mpiGroupUnion memory (.ptr grp1) (.ptr grp2))
      (grp1.cells ++ grp2.cells.filter (· ∉ grp1.cells)) := by
  have nodup : (grp1.cells ++ grp2.cells.filter (· ∉ grp1.cells)).Nodup := by
    refine List.nodup_append'.mpr ⟨is1.nodup, is2.nodup.filter _, fun x inFirst inSecond => ?_⟩
    simp [inFirst] at inSecond
  refine ⟨fun nobody => absurd (List.append_eq_nil_iff.mp nobody).1 somebody, fun _ => ?_⟩
  refine ⟨newGroup (unionRank memory grp1 grp2 (unionTable grp1 grp2).cells)
    (unionTable grp1 grp2), ?_, ?_, ?_⟩
  · rw [mpiGroupUnion, verified_ptr is1.cookie, verified_ptr is2.cookie]
    rfl
  · exact congrArg Table.cells (unionTable_eq grp1 grp2)
  · rw [unionTable_eq, unionRank_eq memory is1 is2]
    exact isGroup_newGroup rfl nodup

theorem intersectionRank_eq (is1 : IsGroup me grp1) (is2 : IsGroup me grp2) :
    intersectionRank memory grp1 grp2 (grp1.cells.filter (· ∈ grp2.cells)) =
      rankOf me (grp1.cells.filter (· ∈ grp2.cells)) := by
  have guard : grp1.localRank = mpiUndefined ∨ grp2.localRank = mpiUndefined ↔
      ¬ (me ∈ grp1.cells ∧ me ∈ grp2.cells) := by
    rw [is1.undefined_iff, is2.undefined_iff, not_and_or]
  unfold intersectionRank
  by_cases both : me ∈ grp1.cells ∧ me ∈ grp2.cells
  · rw [if_neg (guard.not.mpr (not_not.mpr both)), is1.cell_localRank both.1]
    exact findRank_zero memory (by simp [both.1, both.2])
  · rw [if_pos (guard.mpr both), rankOf_absent]
    simpa using both

theorem intersection_yields (is1 : IsGroup me grp1) (is2 : IsGroup me grp2) :
    Yields me (mpiGroupIntersection memory (.ptr grp1) (.ptr grp2))
      (grp1.cells.filter (· ∈ grp2.cells)) := by
  have ran : mpiGroupIntersection memory (.ptr grp1) (.ptr grp2) =
      .ok (orEmpty (newGroup (intersectionRank memory grp1 grp2
        (intersectionTable grp1 grp2).cells) (intersectionTable grp1 grp2))) := by
    rw [mpiGroupIntersection, verified_ptr is1.cookie, verified_ptr is2.cookie]
    rfl
  rw [ran, intersectionTable_eq]
  exact yields_orEmpty rfl (is1.nodup.filter _) fun _ => intersectionRank_eq memory is1 is2

theorem differenceRank_eq (is1 : IsGroup me grp1) (is2 : IsGroup me grp2) :
    differenceRank memory grp1 grp2 (grp1.cells.filter (· ∉ grp2.cells)) =
      rankOf me (grp1.cells.filter (· ∉ grp2.cells)) := by
  have guard : grp1.localRank = mpiUndefined ∨ grp2.localRank ≠ mpiUndefined ↔
      ¬ (me ∈ grp1.cells ∧ me ∉ grp2.cells) := by
    rw [ne_eq, is1.undefined_iff, is2.undefined_iff, not_and_or]
  unfold differenceRank
  by_cases only : me ∈ grp1.cells ∧ me ∉ grp2.cells
  · rw [if_neg (guard.not.mpr (not_not.mpr only)), is1.cell_localRank only.1]
    exact findRank_zero memory (by simp [only.1, only.2])
  · rw [if_pos (guard.mpr only), rankOf_absent]
    simpa using only

theorem difference_yields (is1 : IsGroup me grp1) (is2 : IsGroup me grp2) :
    Yields me (mpiGroupDifference memory (.ptr grp1) (.ptr grp2))
      (grp1.cells.filter (· ∉ grp2.cells)) := by
  have ran : mpiGroupDifference memory (.ptr grp1) (.ptr grp2) =
      .ok (orEmpty (newGroup (differenceRank memory grp1 grp2
        (differenceTable grp1 grp2).cells) (differenceTable grp1 grp2))) := by
    rw [mpiGroupDifference, verified_ptr is1.cookie, verified_ptr is2.cookie]
    rfl
  rw [ran, differenceTable_eq]
  exact yields_orEmpty rfl (is1.nodup.filter _) fun _ => differenceRank_eq memory is1 is2

end Two

/-! ## Listed members -/

/-- Distinct ranks of a group. -/
structure Lists (grp : Group) (ranks : List Int) : Prop where
  distinct : ranks.Nodup
  valid : ∀ rank ∈ ranks, 0 ≤ rank ∧ rank < grp.np

section Listed

variable {me : Int} {grp : Group} {ranks : List Int}

theorem getElem?_cells {i : Nat} (below : i < grp.np) : grp.cells[i]? = some (grp.cell i) := by
  rw [Group.cell, Int.toNat_natCast, List.getD_eq_getElem?_getD, List.getElem?_eq_getElem below,
    Option.getD_some]

theorem cells_eq_map (grp : Group) : grp.cells = (List.range grp.np).map fun i : Nat => grp.cell i := by
  refine List.ext_getElem? fun i => ?_
  by_cases below : i < grp.np
  · rw [getElem?_cells below, List.getElem?_map, List.getElem?_range below]
    rfl
  · have outside : grp.np ≤ i := Nat.le_of_not_lt below
    rw [List.getElem?_eq_none outside, List.getElem?_eq_none]
    simpa using outside

theorem cell_mem {rank : Int} (valid : 0 ≤ rank ∧ rank < grp.np) : grp.cell rank ∈ grp.cells := by
  obtain ⟨i, rfl⟩ := Int.eq_ofNat_of_zero_le valid.1
  exact List.mem_of_getElem? (getElem?_cells (by omega))

theorem cell_inj (nodup : grp.cells.Nodup) {rank rank' : Int} (valid : 0 ≤ rank ∧ rank < grp.np)
    (valid' : 0 ≤ rank' ∧ rank' < grp.np) (same : grp.cell rank = grp.cell rank') :
    rank = rank' := by
  obtain ⟨i, rfl⟩ := Int.eq_ofNat_of_zero_le valid.1
  obtain ⟨j, rfl⟩ := Int.eq_ofNat_of_zero_le valid'.1
  have here : grp.cells[i]? = grp.cells[j]? := by
    rw [getElem?_cells (by omega), getElem?_cells (by omega), same]
  have inside : i < grp.cells.length := by
    have := valid.2
    unfold Group.np at this
    omega
  exact congrArg Nat.cast ((List.getElem?_inj inside nodup).mp here)

theorem Lists.map_cell_nodup (lists : Lists grp ranks) (nodup : grp.cells.Nodup) :
    (ranks.map grp.cell).Nodup :=
  List.Nodup.map_on (fun _ valid _ valid' same =>
    cell_inj nodup (lists.valid _ valid) (lists.valid _ valid') same) lists.distinct

/-- The loop leaves the index of the caller's old rank among the listed ones. -/
theorem inclRank_eq (distinct : ranks.Nodup) (i : Nat) (localRank : Int) :
    inclRank grp i localRank ranks =
      match ranks.idxOf? grp.localRank with
      | none => localRank
      | some k => ((i + k : Nat) : Int) := by
  induction ranks generalizing i localRank with
  | nil => rfl
  | cons rank ranks ih =>
      obtain ⟨fresh, rest⟩ := List.nodup_cons.mp distinct
      rw [inclRank, ih rest, List.idxOf?_cons]
      by_cases mine : grp.localRank = rank
      · have later : ranks.idxOf? rank = none := List.idxOf?_eq_none_iff.mpr fresh
        simp [later, mine]
      · have differs : (rank == grp.localRank) = false := beq_false_of_ne (Ne.symm mine)
        rw [if_neg mine, differs]
        cases ranks.idxOf? grp.localRank with
        | none => rfl
        | some k =>
            simp only [Option.map_some, Bool.false_eq_true, if_false]
            congr 1
            omega

theorem inclRank_eq_rankOf (is : IsGroup me grp) (lists : Lists grp ranks) :
    inclRank grp 0 mpiUndefined ranks = rankOf me (ranks.map grp.cell) := by
  rw [inclRank_eq lists.distinct]
  cases found : ranks.idxOf? grp.localRank with
  | none =>
      refine (rankOf_absent fun member => ?_).symm
      obtain ⟨rank, listed, mine⟩ := List.mem_map.mp member
      have inside : me ∈ grp.cells := mine ▸ cell_mem (lists.valid rank listed)
      have same : grp.cell grp.localRank = grp.cell rank := (is.cell_localRank inside).trans mine.symm
      obtain ⟨i, here⟩ := Ranking.exists_idxOf? inside
      have valid : 0 ≤ grp.localRank ∧ grp.localRank < grp.np := by
        rw [is.rank, rankOf_eq here]
        have := Ranking.idxOf?_lt here
        unfold Group.np
        omega
      have mine' := cell_inj is.nodup valid (lists.valid rank listed) same
      exact List.idxOf?_eq_none_iff.mp found (mine' ▸ listed)
  | some k =>
      have here := Ranking.getElem?_of_idxOf? found
      have listed := List.mem_of_getElem? here
      have valid := lists.valid _ listed
      have inside : me ∈ grp.cells := by
        by_contra absent
        rw [is.undefined_iff.mpr absent, mpiUndefined] at valid
        omega
      have there : (ranks.map grp.cell)[k]? = some me := by
        rw [List.getElem?_map, here, Option.map_some, is.cell_localRank inside]
      rw [rankOf_eq ((Ranking.idxOf?_iff (lists.map_cell_nodup is.nodup)).mpr there)]
      exact congrArg Nat.cast (Nat.zero_add k)

theorem incl_yields (is : IsGroup me grp) (lists : Lists grp ranks) :
    Yields me (mpiGroupIncl (.ptr grp) ranks) (ranks.map grp.cell) := by
  rw [mpiGroupIncl, verified_ptr is.cookie]
  constructor
  · intro nobody
    rw [List.map_eq_nil_iff.mp nobody]
    rfl
  · intro somebody
    have positive : ranks.length ≠ 0 := by
      intro zero
      exact somebody (List.map_eq_nil_iff.mpr (List.length_eq_zero_iff.mp zero))
    refine ⟨newGroup (inclRank grp 0 mpiUndefined ranks) (inclTable grp ranks), ?_, ?_, ?_⟩
    · exact if_neg positive
    · exact congrArg Table.cells (inclTable_eq grp ranks)
    · rw [inclRank_eq_rankOf is lists, inclTable_eq]
      exact isGroup_newGroup rfl (lists.map_cell_nodup is.nodup)

/-! ## The members not listed -/

theorem mem_iff_cell_mem (nodup : grp.cells.Nodup) (lists : Lists grp ranks) {i : Nat}
    (below : i < grp.np) : (i : Int) ∈ ranks ↔ grp.cell i ∈ ranks.map grp.cell := by
  constructor
  · exact fun listed => List.mem_map_of_mem listed
  · intro member
    obtain ⟨rank, listed, same⟩ := List.mem_map.mp member
    have equal := cell_inj nodup (lists.valid rank listed) ⟨by omega, by omega⟩ same
    exact equal ▸ listed

theorem kept_eq_filter (nodup : grp.cells.Nodup) (lists : Lists grp ranks) :
    kept grp ranks = grp.cells.filter (· ∉ ranks.map grp.cell) := by
  rw [cells_eq_map grp, List.filter_map]
  refine congrArg _ (List.filter_congr fun i inside => ?_)
  have below := List.mem_range.mp inside
  simp only [Function.comp, decide_not]
  rw [decide_eq_decide.mpr (mem_iff_cell_mem nodup lists below)]

/-- The indices of the group that are listed. -/
def listed (grp : Group) (ranks : List Int) : List Nat :=
  (List.range grp.np).filter fun i : Nat => (i : Int) ∈ ranks

theorem listed_add_kept (grp : Group) (ranks : List Int) :
    (listed grp ranks).length + (kept grp ranks).length = grp.np := by
  have split := List.length_eq_length_filter_add (l := List.range grp.np)
    fun i : Nat => decide ((i : Int) ∈ ranks)
  rw [List.length_range] at split
  simpa [kept, listed] using split.symm

theorem listed_subperm (grp : Group) (ranks : List Int) :
    List.Subperm ((listed grp ranks).map Nat.cast) ranks := by
  refine List.Nodup.subperm ?_ ?_
  · exact (List.nodup_range.filter _).map fun _ _ => Int.ofNat_inj.mp
  · intro rank member
    obtain ⟨i, inside, rfl⟩ := List.mem_map.mp member
    simpa using (List.mem_filter.mp inside).2

theorem length_listed_le (grp : Group) (ranks : List Int) :
    (listed grp ranks).length ≤ ranks.length := by
  simpa using (listed_subperm grp ranks).length_le

theorem Lists.length_listed (lists : Lists grp ranks) :
    (listed grp ranks).length = ranks.length := by
  refine Nat.le_antisymm (length_listed_le grp ranks) ?_
  have inside : ranks ⊆ (listed grp ranks).map Nat.cast := by
    intro rank member
    obtain ⟨i, rfl⟩ := Int.eq_ofNat_of_zero_le (lists.valid rank member).1
    have below := (lists.valid _ member).2
    refine List.mem_map_of_mem (List.mem_filter.mpr ⟨List.mem_range.mpr (by omega), ?_⟩)
    simpa using member
  simpa using (lists.distinct.subperm inside).length_le

theorem excl_yields (is : IsGroup me grp) (lists : Lists grp ranks) :
    Yields me (mpiGroupExcl (.ptr grp) ranks) (kept grp ranks) := by
  have total := listed_add_kept grp ranks
  have count := lists.length_listed
  rw [mpiGroupExcl, verified_ptr is.cookie]
  constructor
  · intro nobody
    have all : ranks.length ≥ grp.np := by
      rw [nobody, List.length_nil] at total
      omega
    exact if_pos all
  · intro somebody
    have some_left : ¬ ranks.length ≥ grp.np := by
      have := List.length_pos_iff.mpr somebody
      omega
    have nodup : (kept grp ranks).Nodup := by
      rw [kept_eq_filter is.nodup lists]
      exact is.nodup.filter _
    have rank : exclRank grp (kept grp ranks) = rankOf me (kept grp ranks) := by
      unfold exclRank
      by_cases member : me ∈ grp.cells
      · rw [if_pos (mt is.undefined_iff.mp (not_not.mpr member)), is.cell_localRank member]
        exact findRank_undefined
      · rw [if_neg (not_not.mpr (is.undefined_iff.mpr member)), rankOf_absent]
        rw [kept_eq_filter is.nodup lists]
        exact fun inside => member (List.mem_of_mem_filter inside)
    refine ⟨newGroup (exclRank grp (exclTable grp ranks).cells) (exclTable grp ranks), ?_, ?_, ?_⟩
    · exact if_neg some_left
    · exact congrArg Table.cells (exclTable_eq grp ranks)
    · rw [exclTable_eq, rank]
      exact isGroup_newGroup rfl nodup

theorem excl_eq_difference (memory : Int) (is : IsGroup me grp) (lists : Lists grp ranks)
    (somebody : ranks ≠ []) :
    (mpiGroupExcl (.ptr grp) ranks).map MpiGroup.view =
      ((mpiGroupIncl (.ptr grp) ranks).bind fun included =>
        mpiGroupDifference memory (.ptr grp) included).map MpiGroup.view := by
  obtain ⟨chosen, included, cells, isChosen⟩ :=
    (incl_yields is lists).2 (mt List.map_eq_nil_iff.mp somebody)
  have difference := difference_yields memory is isChosen
  rw [cells, ← kept_eq_filter is.nodup lists] at difference
  rw [(excl_yields is lists).view, included]
  exact difference.view.symm

end Listed

/-- The five constructors on groups that `me` holds, and the exclusion as a difference. -/
theorem group_constructors (memory me : Int) (grp1 grp2 : Group) (ranks : List Int)
    (is1 : IsGroup me grp1) (is2 : IsGroup me grp2) (somebody : grp1.cells ≠ [])
    (lists : Lists grp1 ranks) :
    Yields me (mpiGroupUnion memory (.ptr grp1) (.ptr grp2))
        (grp1.cells ++ grp2.cells.filter (· ∉ grp1.cells)) ∧
      Yields me (mpiGroupIntersection memory (.ptr grp1) (.ptr grp2))
        (grp1.cells.filter (· ∈ grp2.cells)) ∧
      Yields me (mpiGroupDifference memory (.ptr grp1) (.ptr grp2))
        (grp1.cells.filter (· ∉ grp2.cells)) ∧
      Yields me (mpiGroupIncl (.ptr grp1) ranks) (ranks.map grp1.cell) ∧
      Yields me (mpiGroupExcl (.ptr grp1) ranks) (kept grp1 ranks) ∧
      (ranks ≠ [] → (mpiGroupExcl (.ptr grp1) ranks).map MpiGroup.view =
        ((mpiGroupIncl (.ptr grp1) ranks).bind fun included =>
          mpiGroupDifference memory (.ptr grp1) included).map MpiGroup.view) :=
  ⟨union_yields memory is1 is2 somebody, intersection_yields memory is1 is2,
    difference_yields memory is1 is2, incl_yields is1 lists, excl_yields is1 lists,
    excl_eq_difference memory is1 lists⟩

theorem group_constructors_two :
    Yields 2 (mpiGroupUnion 7 (.ptr (newGroup 1 ⟨8, [0, 2]⟩)) (.ptr (newGroup 0 ⟨8, [2, 3]⟩)))
      [0, 2, 3] :=
  (group_constructors 7 2 (newGroup 1 ⟨8, [0, 2]⟩) (newGroup 0 ⟨8, [2, 3]⟩) [1]
    ⟨rfl, by decide, by decide⟩ ⟨rfl, by decide, by decide⟩ (by decide)
    ⟨by decide, by decide⟩).1

end Tmpi.Mpi
