import Mathlib.Data.List.Nodup
import Mathlib.Data.List.Perm.Subperm
import Mathlib.Tactic.Common

/-! Lists without duplicates as rankings: the rank of an element is its place in the list. -/

namespace Tmpi.Ranking

variable {α : Type*} [DecidableEq α] {l l' : List α} {x y : α} {i j : Nat}

theorem idxOf?_iff (nodup : l.Nodup) : l.idxOf? x = some i ↔ l[i]? = some x := by
  rw [List.idxOf?_eq_some_iff, List.getElem?_eq_some_iff]
  constructor
  · rintro ⟨inside, here, -⟩
    exact ⟨inside, here⟩
  · rintro ⟨inside, here⟩
    refine ⟨inside, here, fun j before same => ?_⟩
    have equal := (nodup.getElem_inj_iff).mp (same.trans here.symm)
    omega

theorem exists_idxOf? (member : x ∈ l) : ∃ i, l.idxOf? x = some i :=
  Option.isSome_iff_exists.mp (List.isSome_idxOf?.mpr member)

theorem idxOf?_lt (rank : l.idxOf? x = some i) : i < l.length :=
  (List.idxOf?_eq_some_iff.mp rank).1

theorem getElem?_of_idxOf? (rank : l.idxOf? x = some i) : l[i]? = some x := by
  obtain ⟨inside, here, -⟩ := List.idxOf?_eq_some_iff.mp rank
  exact List.getElem?_eq_some_iff.mpr ⟨inside, here⟩

theorem idxOf?_append_left (rank : l.idxOf? x = some i) : (l ++ l').idxOf? x = some i := by
  obtain ⟨inside, here, first⟩ := List.idxOf?_eq_some_iff.mp rank
  refine List.idxOf?_eq_some_iff.mpr ⟨by rw [List.length_append]; omega, ?_, fun j before => ?_⟩
  · rw [List.getElem_append_left inside]
    exact here
  · rw [List.getElem_append_left (by omega)]
    exact first j before

theorem idxOf?_append_right (absent : x ∉ l) :
    (l ++ l').idxOf? x = (l'.idxOf? x).map (l.length + ·) := by
  induction l with
  | nil => simp
  | cons head tail ih =>
      obtain ⟨other, later⟩ := List.ne_and_not_mem_of_not_mem_cons absent
      rw [List.cons_append, List.idxOf?_cons, ih later]
      have differs : (head == x) = false := beq_false_of_ne (Ne.symm other)
      rw [differs]
      cases l'.idxOf? x with
      | none => rfl
      | some i =>
          simp only [Option.map_some, List.length_cons, Bool.false_eq_true, if_false]
          congr 1
          omega

omit [DecidableEq α] in
/-- As many elements and all of them in the other ranking: the same elements. -/
theorem perm_of_subset (nodup : l.Nodup) (inside : l ⊆ l') (long : l.length = l'.length) :
    l.Perm l' :=
  (nodup.subperm inside).perm_of_length_le (Nat.le_of_eq long.symm)

end Tmpi.Ranking
