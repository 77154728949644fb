import Mathlib.Logic.Function.Basic
import Mathlib.Data.Option.Basic
import Mathlib.Tactic

/-! Linked lists that grow at their end, with addresses that grow along them. -/

namespace Tmpi.Chain

/-- The `i`-th element behind `head`. -/
def nth (next : Nat → Option Nat) (head : Nat) : Nat → Option Nat
  | 0 => some head
  | i + 1 => (nth next head i).bind next

/-- Addresses grow along the links, and stay below `fresh`. -/
def Rising (next : Nat → Option Nat) (fresh : Nat) : Prop :=
  ∀ a b, next a = some b → a < b ∧ b < fresh

variable {next : Nat → Option Nat} {fresh head : Nat}

theorem nth_succ_of {i a b : Nat} (here : nth next head i = some a) (link : next a = some b) :
    nth next head (i + 1) = some b := by
  rw [nth, here]
  exact link

theorem nth_prev {i b : Nat} (there : nth next head (i + 1) = some b) :
    ∃ a, nth next head i = some a ∧ next a = some b :=
  Option.bind_eq_some_iff.mp there

theorem nth_none {i j : Nat} (ended : nth next head i = none) (behind : i ≤ j) :
    nth next head j = none := by
  induction j with
  | zero =>
      obtain rfl : i = 0 := by omega
      exact ended
  | succ j ih =>
      rcases Nat.lt_or_ge j i with before | after
      · obtain rfl : i = j + 1 := by omega
        exact ended
      · rw [nth, ih after]
        rfl

theorem nth_below (rising : Rising next fresh) (start : head < fresh) {i a : Nat}
    (here : nth next head i = some a) : a < fresh := by
  cases i with
  | zero =>
      cases here
      exact start
  | succ i =>
      obtain ⟨before, -, link⟩ := nth_prev here
      exact (rising before a link).2

theorem nth_rises (rising : Rising next fresh) {i j a b : Nat} (here : nth next head i = some a)
    (there : nth next head j = some b) (before : i < j) : a < b := by
  induction j generalizing b with
  | zero => omega
  | succ j ih =>
      obtain ⟨c, there', link⟩ := nth_prev there
      have up := (rising c b link).1
      rcases Nat.lt_or_ge i j with earlier | same
      · exact lt_trans (ih there' earlier) up
      · obtain rfl : i = j := by omega
        rw [here] at there'
        cases there'
        exact up

theorem nth_injective (rising : Rising next fresh) {i j a : Nat} (here : nth next head i = some a)
    (there : nth next head j = some a) : i = j := by
  rcases Nat.lt_trichotomy i j with before | same | after
  · have := nth_rises rising here there before
    omega
  · exact same
  · have := nth_rises rising there here after
    omega

theorem nth_last {i a : Nat} (last : nth next head i = some a) (ends : next a = none) {j : Nat}
    (behind : i < j) : nth next head j = none := by
  refine nth_none (i := i + 1) ?_ behind
  rw [nth, last]
  exact ends

section Extension

variable {i a b : Nat} (rising : Rising next fresh) (last : nth next head i = some a)
  (ends : next a = none)

include rising last ends

/-- A new last element changes nothing in front of it. -/
theorem nth_extend_before {j : Nat} (before : j ≤ i) :
    nth (Function.update next a (some b)) head j = nth next head j := by
  induction j with
  | zero => rfl
  | succ j ih =>
      rw [nth, nth, ih (by omega)]
      cases there : nth next head j with
      | none => rfl
      | some c =>
          have other : c ≠ a := by
            rintro rfl
            have := nth_injective rising there last
            omega
          simp [Function.update_of_ne other]

theorem nth_extend_new : nth (Function.update next a (some b)) head (i + 1) = some b := by
  rw [nth, nth_extend_before rising last ends (le_refl i), last]
  simp

theorem nth_extend_none (empty : next b = none) (apart : b ≠ a) {j : Nat} (behind : i + 1 < j) :
    nth (Function.update next a (some b)) head j = none := by
  refine nth_none (i := i + 2) ?_ behind
  rw [nth, nth_extend_new rising last ends]
  simpa [Function.update_of_ne apart] using empty

/-- An element keeps its place. -/
theorem nth_extend_keeps {j c : Nat} (there : nth next head j = some c) :
    nth (Function.update next a (some b)) head j = some c := by
  rcases Nat.lt_or_ge i j with behind | before
  · rw [nth_last last ends behind] at there
    cases there
  · rw [nth_extend_before rising last ends before, there]

/-- An element of the longer list is one of the shorter list, or the new one. -/
theorem nth_extend_cases (empty : next b = none) (apart : b ≠ a) {j c : Nat}
    (there : nth (Function.update next a (some b)) head j = some c) :
    nth next head j = some c ∨ (j = i + 1 ∧ c = b) := by
  rcases Nat.lt_trichotomy j (i + 1) with before | rfl | behind
  · left
    rwa [nth_extend_before rising last ends (by omega)] at there
  · right
    rw [nth_extend_new rising last ends] at there
    exact ⟨rfl, (Option.some.inj there).symm⟩
  · rw [nth_extend_none rising last ends empty apart behind] at there
    cases there

end Extension

theorem Rising.extend (rising : Rising next fresh) {a b : Nat} (up : a < b) (below : b < fresh) :
    Rising (Function.update next a (some b)) fresh := by
  intro c d link
  by_cases here : c = a
  · subst here
    rw [Function.update_self, Option.some.injEq] at link
    omega
  · rw [Function.update_of_ne here] at link
    exact rising c d link

theorem Rising.mono (rising : Rising next fresh) {fresh' : Nat} (more : fresh ≤ fresh') :
    Rising next fresh' := fun a b link =>
  ⟨(rising a b link).1, lt_of_lt_of_le (rising a b link).2 more⟩

end Tmpi.Chain
