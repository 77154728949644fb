import Mathlib.Data.List.Count
import Mathlib.Tactic

/-! Loops that move a number of bytes by system calls that move some of them each. -/

namespace Tmpi.Transfer

/-- What a system call does. `moved more` moves `more + 1` bytes, or as many as it can where these are fewer. -/
inductive Call where
  | interrupted | empty | failed
  | moved (more : Nat)
  deriving DecidableEq, Repr

/-- It moves nothing and may be made again. -/
def Call.idle : Call → Bool
  | .interrupted | .empty => true
  | _ => false

/-- How many of the first calls are idle. -/
def idle (calls : Nat → Call) (i : Nat) : Nat := (List.range i).countP fun j => (calls j).idle

/-- No call fails, and less than `limit` are idle. -/
structure Fair (limit : Nat) (calls : Nat → Call) : Prop where
  works : ∀ i, calls i ≠ .failed
  moves : ∀ i, idle calls i < limit

theorem idle_succ (calls : Nat → Call) (i : Nat) :
    idle calls (i + 1) = idle calls i + if (calls i).idle then 1 else 0 := by
  unfold idle
  rw [List.range_succ, List.countP_append, List.countP_singleton]

/-- Calls that all move bytes. -/
theorem Fair.moved {limit : Nat} (positive : 0 < limit) (more : Nat) : Fair limit fun _ => .moved more := by
  refine ⟨fun _ => nofun, fun i => ?_⟩
  have none_idle : idle (fun _ => .moved more) i = 0 := List.countP_eq_zero.mpr fun _ _ => nofun
  rw [none_idle]
  exact positive

section

variable {σ : Type} (limit : Nat) (calls : Nat → Call) (offer : Nat → σ → Nat) (move : Nat → σ → Except σ σ)
  (len : Nat)

/-- Moves bytes until there are `len` of them: `n` are moved, `i` calls are made, and `retry` of these were idle. A
call can move `offer n s` bytes, and `move m s` is what the loop does with `m` of them; it may give up there. Without
an offer the call waits for ever. -/
def loop (n retry i : Nat) (s : σ) : Option (Int × σ) :=
  if n < len then
    match calls i with
    | .failed => some (-1, s)
    | .moved more =>
        if 0 < min (more + 1) (offer n s) then
          match move (min (more + 1) (offer n s)) s with
          | .ok s' => loop (n + min (more + 1) (offer n s)) retry (i + 1) s'
          | .error s' => some (-1, s')
        else none
    | _ => if limit ≤ retry + 1 then some (-1, s) else loop n (retry + 1) (i + 1) s
  else some (0, s)
termination_by len - n + (limit - retry)

variable {limit calls offer move len}

theorem loop_done {n retry i : Nat} {s : σ} (done : len ≤ n) :
    loop limit calls offer move len n retry i s = some (0, s) := by
  rw [loop, if_neg (Nat.not_lt.mpr done)]

theorem loop_idle {n retry i : Nat} {s : σ} (more : n < len) (idle : (calls i).idle) (patient : retry + 1 < limit) :
    loop limit calls offer move len n retry i s = loop limit calls offer move len n (retry + 1) (i + 1) s := by
  rw [loop, if_pos more]
  cases call : calls i with
  | interrupted => exact if_neg (Nat.not_le.mpr patient)
  | empty => exact if_neg (Nat.not_le.mpr patient)
  | failed => rw [call] at idle; cases idle
  | moved more => rw [call] at idle; cases idle

theorem loop_moved {n retry i wanted m : Nat} {s s' : σ} (more : n < len) (call : calls i = .moved wanted)
    (amount : m = min (wanted + 1) (offer n s)) (some_moved : 0 < m) (moves : move m s = .ok s') :
    loop limit calls offer move len n retry i s = loop limit calls offer move len (n + m) retry (i + 1) s' := by
  subst amount
  rw [loop, if_pos more]
  simp only [call]
  rw [if_pos some_moved, moves]

/-- What a loop does with fair calls: `inv` stands after every number of bytes. -/
theorem loop_completes (inv : Nat → σ → Prop) (fair : Fair limit calls)
    (goes : ∀ n s, inv n s → n < len → 0 < offer n s ∧
      ∀ m, 0 < m → m ≤ offer n s → n + m ≤ len ∧ ∃ s', move m s = .ok s' ∧ inv (n + m) s')
    (n i : Nat) (s : σ) (start : inv n s) (within : n ≤ len) :
    ∃ s', loop limit calls offer move len n (idle calls i) i s = some (0, s') ∧ inv len s' := by
  -- Every call moves some of the missing bytes or takes away from the patience.
  induction left : len - n + (limit - idle calls i) using Nat.strong_induction_on generalizing n i s with
  | _ left ih =>
    rcases Nat.lt_or_ge n len with more | done
    · have next := idle_succ calls i
      have patient := fair.moves (i + 1)
      cases call : calls i with
      | failed => exact absurd call (fair.works i)
      | moved wanted =>
          rw [call] at next
          have same : idle calls (i + 1) = idle calls i := next
          obtain ⟨offered, moves⟩ := goes n s start more
          have positive : 0 < min (wanted + 1) (offer n s) := lt_min (Nat.succ_pos _) offered
          obtain ⟨inside, s', moved, kept⟩ := moves _ positive (min_le_right _ _)
          rw [loop_moved more call rfl positive moved, ← same]
          exact ih _ (by omega) _ _ _ kept inside rfl
      | interrupted =>
          rw [call] at next
          have more_idle : idle calls (i + 1) = idle calls i + 1 := next
          rw [loop_idle more (by rw [call]; rfl) (by omega), ← more_idle]
          exact ih _ (by omega) _ _ _ start within rfl
      | empty =>
          rw [call] at next
          have more_idle : idle calls (i + 1) = idle calls i + 1 := next
          rw [loop_idle more (by rw [call]; rfl) (by omega), ← more_idle]
          exact ih _ (by omega) _ _ _ start within rfl
    · obtain rfl : n = len := le_antisymm within done
      exact ⟨s, loop_done le_rfl, start⟩

/-- What a loop does with calls that move one byte each. -/
theorem loop_single (inv : Nat → σ → Prop)
    (goes : ∀ n s, inv n s → n < len → 0 < offer n s ∧ ∃ s', move 1 s = .ok s' ∧ inv (n + 1) s')
    (n retry i : Nat) (s : σ) (start : inv n s) (within : n ≤ len) :
    ∃ s', loop limit (fun _ => .moved 0) offer move len n retry i s = some (0, s') ∧ inv len s' := by
  induction left : len - n generalizing n i s with
  | zero =>
      obtain rfl : n = len := by omega
      exact ⟨s, loop_done le_rfl, start⟩
  | succ left ih =>
      have more : n < len := by omega
      obtain ⟨offered, s', moved, kept⟩ := goes n s start more
      have one : 1 = min (0 + 1) (offer n s) := by omega
      have step := @loop_moved σ limit (fun _ => .moved 0) offer move len n retry i 0 1 s s' more rfl one Nat.one_pos
        moved
      rw [step]
      exact ih (n + 1) (i + 1) s' kept more (by omega)

end

end Tmpi.Transfer
