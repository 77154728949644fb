import Mathlib.Data.Finset.Card
import Mathlib.Data.Finset.Range

/-! Condition variables that are signalled once for each resource that appears, whether somebody
waits or not. -/

namespace Tmpi

/-- A thread at a condition variable. -/
inductive CondPhase where
  | off
  | waiting
  /-- Has been woken, and has yet to look again. -/
  | woken
  deriving DecidableEq, Repr

/-- The threads below `n` that have been woken. -/
def woken (n : Nat) (phase : Nat → CondPhase) : Finset Nat :=
  (Finset.range n).filter fun t => phase t = .woken

/-- No wakeup for the `count` resources that are there is lost. -/
def Covered (n : Nat) (phase : Nat → CondPhase) (count : Nat) : Prop :=
  (∃ t < n, phase t = .waiting) → count ≤ (woken n phase).card

namespace Covered

variable {n count : Nat} {phase phase' : Nat → CondPhase}

theorem mem_woken {t : Nat} : t ∈ woken n phase ↔ t < n ∧ phase t = .woken := by
  rw [woken, Finset.mem_filter, Finset.mem_range]

/-- Some of the waiting threads are woken. -/
def Wakes (n : Nat) (phase phase' : Nat → CondPhase) : Prop :=
  ∀ t < n, phase' t = phase t ∨ phase t = .waiting ∧ phase' t = .woken

theorem Wakes.grows (wakes : Wakes n phase phase') : woken n phase ⊆ woken n phase' := by
  intro t member
  obtain ⟨low, here⟩ := mem_woken.mp member
  refine mem_woken.mpr ⟨low, ?_⟩
  rcases wakes t low with same | ⟨waits, -⟩
  · rw [same, here]
  · rw [here] at waits
    cases waits

theorem Wakes.waiting (wakes : Wakes n phase phase') {t : Nat} (low : t < n)
    (waits : phase' t = .waiting) : phase t = .waiting := by
  rcases wakes t low with same | ⟨before, -⟩
  · rw [← same, waits]
  · exact before

theorem none : Covered n phase 0 := fun _ => Nat.zero_le _

theorem wake (covered : Covered n phase count) (wakes : Wakes n phase phase') :
    Covered n phase' count := by
  rintro ⟨t, low, waits⟩
  calc
    count ≤ (woken n phase).card := covered ⟨t, low, wakes.waiting low waits⟩
    _ ≤ (woken n phase').card := Finset.card_le_card wakes.grows

/-- A resource appears, and is signalled. -/
theorem signal (covered : Covered n phase count) (wakes : Wakes n phase phase')
    (one : (∃ t < n, phase t = .waiting) → ∃ t < n, phase t = .waiting ∧ phase' t = .woken) :
    Covered n phase' (count + 1) := by
  rintro ⟨t, low, waits⟩
  have before : ∃ t < n, phase t = .waiting := ⟨t, low, wakes.waiting low waits⟩
  obtain ⟨u, low', asleep, awake⟩ := one before
  have fresh : u ∉ woken n phase := by
    intro member
    have here := (mem_woken.mp member).2
    rw [asleep] at here
    cases here
  have more : insert u (woken n phase) ⊆ woken n phase' :=
    Finset.insert_subset (mem_woken.mpr ⟨low', awake⟩) wakes.grows
  calc
    count + 1 ≤ (woken n phase).card + 1 := Nat.succ_le_succ (covered before)
    _ = (insert u (woken n phase)).card := (Finset.card_insert_of_notMem fresh).symm
    _ ≤ (woken n phase').card := Finset.card_le_card more

/-- A thread that does not wait takes a resource. -/
theorem take (covered : Covered n phase (count + 1)) {t : Nat} (awake : phase t ≠ .waiting)
    (gone : phase' t ≠ .waiting) (others : ∀ u, u ≠ t → phase' u = phase u) :
    Covered n phase' count := by
  rintro ⟨u, low, waits⟩
  have other : u ≠ t := by
    rintro rfl
    exact gone waits
  rw [others u other] at waits
  have fewer : woken n phase ⊆ insert t (woken n phase') := by
    intro v member
    obtain ⟨low', here⟩ := mem_woken.mp member
    by_cases self : v = t
    · exact self ▸ Finset.mem_insert_self v _
    · exact Finset.mem_insert_of_mem (mem_woken.mpr ⟨low', (others v self).trans here⟩)
  have bound := (Finset.card_le_card fewer).trans (Finset.card_insert_le t (woken n phase'))
  have enough : count + 1 ≤ (woken n phase).card := covered ⟨u, low, waits⟩
  omega

/-- A thread that has nothing to do with the condition goes on. -/
theorem congr (covered : Covered n phase count) (same : ∀ t < n, phase' t = phase t) :
    Covered n phase' count :=
  covered.wake fun t low => .inl (same t low)

end Covered

end Tmpi
