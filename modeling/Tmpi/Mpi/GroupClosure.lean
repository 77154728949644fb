import Tmpi.Mpi.GroupRange

/-! What the group functions make of the groups that other group functions return. -/

namespace Tmpi.Mpi

/-- The groups returned along a composition of the constructors, from accepted ones on. -/
inductive Built : MpiGroup → Prop where
  | valid (grp : Group) (cookie : grp.cookie = mpiGroupCookie) : Built (.ptr grp)
  | union {group1 group2 group : MpiGroup} (memory : Int) (built1 : Built group1)
      (built2 : Built group2) (returned : mpiGroupUnion memory group1 group2 = .ok group) :
      Built group
  | intersection {group1 group2 group : MpiGroup} (memory : Int) (built1 : Built group1)
      (built2 : Built group2) (returned : mpiGroupIntersection memory group1 group2 = .ok group) :
      Built group
  | difference {group1 group2 group : MpiGroup} (memory : Int) (built1 : Built group1)
      (built2 : Built group2) (returned : mpiGroupDifference memory group1 group2 = .ok group) :
      Built group
  | incl {group' group : MpiGroup} (ranks : List Int) (built : Built group')
      (returned : mpiGroupIncl group' ranks = .ok group) : Built group
  | excl {group' group : MpiGroup} (ranks : List Int) (built : Built group')
      (returned : mpiGroupExcl group' ranks = .ok group) : Built group
  | rangeIncl {group' group : MpiGroup} (fuel : Nat) (block : Nat → Int) (ranges : List Triplet)
      (built : Built group')
      (returned : mpiGroupRangeIncl fuel block group' ranges = some (.ok group)) : Built group
  | rangeExcl {group' group : MpiGroup} (fuel : Nat) (block : Nat → Int) (ranges : List Triplet)
      (built : Built group')
      (returned : mpiGroupRangeExcl fuel block group' ranges = some (.ok group)) : Built group

/-- A call that returns `MPI_SUCCESS`. -/
def Answers {α : Type} (result : Except Nat α) : Prop := ∃ x, result = .ok x

/-- No group function finds fault with `group`, alone or beside an accepted group. -/
structure FaultFree (group : MpiGroup) : Prop where
  size : Answers (mpiGroupSize group)
  rank : Answers (mpiGroupRank group)
  compare : ∀ grp : Group, grp.cookie = mpiGroupCookie →
    Answers (mpiGroupCompare group (.ptr grp)) ∧ Answers (mpiGroupCompare (.ptr grp) group)
  translate : ∀ (grp : Group) (ranks : List Int), grp.cookie = mpiGroupCookie →
    Answers (mpiGroupTranslateRanks group ranks (.ptr grp)) ∧
      Answers (mpiGroupTranslateRanks (.ptr grp) ranks group)
  union : ∀ (memory : Int) (grp : Group), grp.cookie = mpiGroupCookie →
    Answers (mpiGroupUnion memory group (.ptr grp)) ∧
      Answers (mpiGroupUnion memory (.ptr grp) group)
  intersection : ∀ (memory : Int) (grp : Group), grp.cookie = mpiGroupCookie →
    Answers (mpiGroupIntersection memory group (.ptr grp)) ∧
      Answers (mpiGroupIntersection memory (.ptr grp) group)
  difference : ∀ (memory : Int) (grp : Group), grp.cookie = mpiGroupCookie →
    Answers (mpiGroupDifference memory group (.ptr grp)) ∧
      Answers (mpiGroupDifference memory (.ptr grp) group)
  incl : ∀ ranks, Answers (mpiGroupIncl group ranks)
  excl : ∀ ranks, Answers (mpiGroupExcl group ranks)

/-- Every group function answers `MPI_ERR_GROUP` to `group`, beside any other group. -/
structure Refused (group : MpiGroup) : Prop where
  size : mpiGroupSize group = .error mpiErrGroup
  rank : mpiGroupRank group = .error mpiErrGroup
  compare : ∀ other, mpiGroupCompare group other = .error mpiErrGroup ∧
    mpiGroupCompare other group = .error mpiErrGroup
  translate : ∀ other ranks, mpiGroupTranslateRanks group ranks other = .error mpiErrGroup ∧
    mpiGroupTranslateRanks other ranks group = .error mpiErrGroup
  union : ∀ memory other, mpiGroupUnion memory group other = .error mpiErrGroup ∧
    mpiGroupUnion memory other group = .error mpiErrGroup
  intersection : ∀ memory other, mpiGroupIntersection memory group other = .error mpiErrGroup ∧
    mpiGroupIntersection memory other group = .error mpiErrGroup
  difference : ∀ memory other, mpiGroupDifference memory group other = .error mpiErrGroup ∧
    mpiGroupDifference memory other group = .error mpiErrGroup
  incl : ∀ ranks, mpiGroupIncl group ranks = .error mpiErrGroup
  excl : ∀ ranks, mpiGroupExcl group ranks = .error mpiErrGroup

/-- `MPI_GROUP_EMPTY`, or a group with the cookie. -/
def Returnable (group : MpiGroup) : Prop :=
  group = .empty ∨ ∃ grp : Group, group = .ptr grp ∧ grp.cookie = mpiGroupCookie

section Closure

variable {group group' group1 group2 : MpiGroup} {grp : Group} {memory : Int} {ranks : List Int}

/-- The two groups of a call are checked before anything is done with them. -/
theorem verified_two {α : Type} {result : α} (f : Group → Group → Except Nat α)
    (returned : (do
      let grp1 ← verified group1
      let grp2 ← verified group2
      f grp1 grp2) = .ok result) :
    ∃ grp1 grp2, f grp1 grp2 = .ok result := by
  cases one : verified group1 with
  | error code =>
      rw [one] at returned
      exact absurd returned nofun
  | ok grp1 =>
      cases two : verified group2 with
      | error code =>
          rw [one, two] at returned
          exact absurd returned nofun
      | ok grp2 =>
          rw [one, two] at returned
          exact ⟨grp1, grp2, returned⟩

theorem returnable_newGroup (localRank : Int) (table : Table) :
    Returnable (.ptr (newGroup localRank table)) :=
  Or.inr ⟨_, rfl, rfl⟩

theorem returnable_orEmpty (localRank : Int) (table : Table) :
    Returnable (orEmpty (newGroup localRank table)) := by
  unfold orEmpty
  split
  · exact Or.inl rfl
  · exact returnable_newGroup localRank table

theorem union_returnable (returned : mpiGroupUnion memory group1 group2 = .ok group) :
    Returnable group := by
  obtain ⟨grp1, grp2, same⟩ := verified_two _ returned
  cases same
  exact returnable_newGroup _ _

theorem intersection_returnable
    (returned : mpiGroupIntersection memory group1 group2 = .ok group) : Returnable group := by
  obtain ⟨grp1, grp2, same⟩ := verified_two _ returned
  cases same
  exact returnable_orEmpty _ _

theorem difference_returnable
    (returned : mpiGroupDifference memory group1 group2 = .ok group) : Returnable group := by
  obtain ⟨grp1, grp2, same⟩ := verified_two _ returned
  cases same
  exact returnable_orEmpty _ _

theorem incl_returnable (returned : mpiGroupIncl group' ranks = .ok group) :
    Returnable group := by
  unfold mpiGroupIncl at returned
  cases one : verified group' with
  | error code =>
      rw [one] at returned
      exact absurd returned nofun
  | ok grp =>
      simp only [one, Bind.bind, Except.bind] at returned
      split at returned
      · cases returned
        exact Or.inl rfl
      · cases returned
        exact returnable_newGroup _ _

theorem excl_returnable (returned : mpiGroupExcl group' ranks = .ok group) :
    Returnable group := by
  unfold mpiGroupExcl at returned
  cases one : verified group' with
  | error code =>
      rw [one] at returned
      exact absurd returned nofun
  | ok grp =>
      simp only [one, Bind.bind, Except.bind] at returned
      split at returned
      · cases returned
        exact Or.inl rfl
      · cases returned
        exact returnable_newGroup _ _

/-- A range form returns what its list form returns for some list. -/
theorem rangeForm_returned {listForm : MpiGroup → List Int → Except Nat MpiGroup} {fuel : Nat}
    {block : Nat → Int} {ranges : List Triplet}
    (returned : rangeForm listForm fuel block group' ranges = some (.ok group)) :
    ∃ ranks, listForm group' ranks = .ok group := by
  unfold rangeForm at returned
  obtain ⟨⟨table, ended⟩, -, rest⟩ := Option.bind_eq_some_iff.mp returned
  cases ended with
  | false => exact absurd rest nofun
  | true => exact ⟨_, Option.some.inj rest⟩

theorem Built.returnable (built : Built group) : Returnable group := by
  cases built with
  | valid grp cookie => exact Or.inr ⟨grp, rfl, cookie⟩
  | union memory built1 built2 returned => exact union_returnable returned
  | intersection memory built1 built2 returned => exact intersection_returnable returned
  | difference memory built1 built2 returned => exact difference_returnable returned
  | incl ranks built returned => exact incl_returnable returned
  | excl ranks built returned => exact excl_returnable returned
  | rangeIncl fuel block ranges built returned =>
      obtain ⟨ranks, listed⟩ := rangeForm_returned returned
      exact incl_returnable listed
  | rangeExcl fuel block ranges built returned =>
      obtain ⟨ranks, listed⟩ := rangeForm_returned returned
      exact excl_returnable listed

/-! ## FaultFree and refused -/

theorem verified_two_answers {α : Type} {f : Group → Group → α} {grp1 grp2 : Group}
    (cookie1 : grp1.cookie = mpiGroupCookie) (cookie2 : grp2.cookie = mpiGroupCookie) :
    Answers (do
      let grp1 ← verified (.ptr grp1)
      let grp2 ← verified (.ptr grp2)
      return f grp1 grp2) := by
  rw [verified_ptr cookie1, verified_ptr cookie2]
  exact ⟨f grp1 grp2, rfl⟩

theorem accepted_ptr (cookie : grp.cookie = mpiGroupCookie) : FaultFree (.ptr grp) where
  size := by
    rw [mpiGroupSize, verified_ptr cookie]
    exact ⟨_, rfl⟩
  rank := by
    rw [mpiGroupRank, verified_ptr cookie]
    exact ⟨_, rfl⟩
  compare _ cookie' := ⟨verified_two_answers cookie cookie', verified_two_answers cookie' cookie⟩
  translate _ _ cookie' :=
    ⟨verified_two_answers cookie cookie', verified_two_answers cookie' cookie⟩
  union _ _ cookie' := ⟨verified_two_answers cookie cookie', verified_two_answers cookie' cookie⟩
  intersection _ _ cookie' :=
    ⟨verified_two_answers cookie cookie', verified_two_answers cookie' cookie⟩
  difference _ _ cookie' :=
    ⟨verified_two_answers cookie cookie', verified_two_answers cookie' cookie⟩
  incl ranks := by
    rw [mpiGroupIncl, verified_ptr cookie]
    simp only [Bind.bind, Except.bind]
    split
    · exact ⟨_, rfl⟩
    · exact ⟨_, rfl⟩
  excl ranks := by
    rw [mpiGroupExcl, verified_ptr cookie]
    simp only [Bind.bind, Except.bind]
    split
    · exact ⟨_, rfl⟩
    · exact ⟨_, rfl⟩

theorem verified_two_empty {α : Type} (f : Group → Group → Except Nat α) (other : MpiGroup) :
    (do
      let grp1 ← verified other
      let grp2 ← verified .empty
      f grp1 grp2) = .error mpiErrGroup := by
  unfold verified
  cases groupVerify other with
  | none => rfl
  | some grp => rfl

theorem refused_empty : Refused .empty where
  size := rfl
  rank := rfl
  compare other := ⟨rfl, verified_two_empty _ other⟩
  translate other _ := ⟨rfl, verified_two_empty _ other⟩
  union _ other := ⟨rfl, verified_two_empty _ other⟩
  intersection _ other := ⟨rfl, verified_two_empty _ other⟩
  difference _ other := ⟨rfl, verified_two_empty _ other⟩
  incl _ := rfl
  excl _ := rfl

end Closure

/-- Whatever a composition of constructors returns is accepted everywhere, unless it is
`MPI_GROUP_EMPTY`: that is refused everywhere. -/
theorem built_accepted_or_empty (group : MpiGroup) (built : Built group) :
    FaultFree group ∨ group = .empty ∧ Refused group := by
  rcases built.returnable with rfl | ⟨grp, rfl, cookie⟩
  · exact Or.inr ⟨rfl, refused_empty⟩
  · exact Or.inl (accepted_ptr cookie)

theorem built_accepted_or_empty_union :
    FaultFree (.ptr (newGroup 0 ⟨2, [0, 1]⟩)) ∨
      MpiGroup.ptr (newGroup 0 ⟨2, [0, 1]⟩) = .empty ∧ Refused (.ptr (newGroup 0 ⟨2, [0, 1]⟩)) :=
  built_accepted_or_empty _ (.union 0 (.valid (newGroup 0 ⟨4, [0]⟩) rfl)
    (.valid (newGroup mpiUndefined ⟨4, [1]⟩) rfl) rfl)

/-- The difference of a group with itself succeeds, and its size cannot be asked for. -/
theorem difference_self_refused :
    mpiGroupDifference 0 (.ptr (newGroup 0 ⟨4, [0]⟩)) (.ptr (newGroup 0 ⟨4, [0]⟩)) = .ok .empty ∧
      mpiGroupSize .empty = .error mpiErrGroup :=
  ⟨rfl, rfl⟩

end Tmpi.Mpi
