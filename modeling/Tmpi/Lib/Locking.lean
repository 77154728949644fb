import Mathlib.Logic.Function.Basic
import Mathlib.Tactic.Common

/-! What a thread does with mutexes, as the list of its operations. -/

namespace Tmpi.Locking

variable {M : Type*} [DecidableEq M]

inductive Op (M : Type*) where
  | lock (m : M)
  | unlock (m : M)
  /-- Wait on a condition variable of `m`. -/
  | wait (m : M)
  | destroy (m : M)
  deriving DecidableEq

/-- A mutex as the thread knows it. -/
inductive Hold where
  | free | held | gone
  deriving DecidableEq, Repr

/-- `none` is an operation that the mutex is not ready for. -/
def Op.run (s : M → Hold) : Op M → Option (M → Hold)
  | .lock m => if s m = .free then some (Function.update s m .held) else none
  | .unlock m => if s m = .held then some (Function.update s m .free) else none
  | .wait m => if s m = .held then some s else none
  | .destroy m => if s m = .free then some (Function.update s m .gone) else none

def run : List (Op M) → (M → Hold) → Option (M → Hold)
  | [], s => some s
  | op :: ops, s => (op.run s).bind (run ops)

/-- Every operation finds its mutex ready, and none is held at the end. -/
def Balanced (ops : List (Op M)) : Prop :=
  ∃ s, run ops (fun _ => .free) = some s ∧ ∀ m, s m ≠ .held

theorem run_append (front back : List (Op M)) (s : M → Hold) :
    run (front ++ back) s = (run front s).bind (run back) := by
  induction front generalizing s with
  | nil => rfl
  | cons op ops ih =>
      simp only [List.cons_append, run, Option.bind_assoc]
      exact congrArg _ (funext ih)

theorem not_balanced {ops : List (Op M)} {s : M → Hold} {m : M}
    (runs : run ops (fun _ => .free) = some s) (held : s m = .held) : ¬ Balanced ops := by
  rintro ⟨s', runs', free⟩
  rw [runs] at runs'
  exact free m (Option.some.inj runs' ▸ held)

theorem Balanced.nil : Balanced ([] : List (Op M)) := ⟨_, rfl, fun _ => nofun⟩

/-- From a state in which `m` is in `before`, the operations can be made, leave `m` unheld and do not
change the other mutexes. -/
def Clears (m : M) (before : Hold) (ops : List (Op M)) : Prop :=
  ∀ s : M → Hold, s m = before → ∃ s', run ops s = some s' ∧ s' m ≠ .held ∧ ∀ m' ≠ m, s' m' = s m'

section Rules

variable {m m' : M} {ops inner : List (Op M)}

theorem Clears.unlock : Clears m .held [.unlock m] := by
  intro s held
  refine ⟨Function.update s m .free, by simp [run, Op.run, held], by simp, fun m' ne => ?_⟩
  exact Function.update_of_ne ne _ _

theorem Clears.nil : Clears m .free [] := by
  intro s free
  exact ⟨s, rfl, by simp [free], fun _ _ => rfl⟩

theorem Clears.destroy : Clears m .free [.destroy m] := by
  intro s free
  refine ⟨Function.update s m .gone, by simp [run, Op.run, free], by simp, fun m' ne => ?_⟩
  exact Function.update_of_ne ne _ _

/-- One more operation on `m` in front. -/
theorem Clears.step {op : Op M} {before after : Hold} (clears : Clears m after ops)
    (moves : ∀ s : M → Hold, s m = before → op.run s = some (Function.update s m after)) :
    Clears m before (op :: ops) := by
  intro s here
  obtain ⟨s', runs, free, frame⟩ := clears (Function.update s m after) (Function.update_self _ _ _)
  refine ⟨s', by rw [run, moves s here, Option.bind_some, runs], free, fun m' ne => ?_⟩
  rw [frame m' ne, Function.update_of_ne ne]

theorem Clears.lock (clears : Clears m .held ops) : Clears m .free (.lock m :: ops) :=
  clears.step fun s free => by simp [Op.run, free]

theorem Clears.relock (clears : Clears m .free ops) : Clears m .held (.unlock m :: ops) :=
  clears.step fun s held => by simp [Op.run, held]

theorem Clears.wait (clears : Clears m .held ops) : Clears m .held (.wait m :: ops) :=
  clears.step fun s held => by rw [← held, Function.update_eq_self, Op.run, if_pos held]

theorem Clears.waits (clears : Clears m .held ops) (n : Nat) :
    Clears m .held (List.replicate n (.wait m) ++ ops) := by
  induction n with
  | zero => exact clears
  | succ n ih => exact ih.wait

theorem Clears.balanced (clears : Clears m .free ops) : Balanced ops := by
  obtain ⟨s, runs, free, frame⟩ := clears (fun _ => .free) rfl
  refine ⟨s, runs, fun m' => ?_⟩
  by_cases same : m' = m
  · exact same ▸ free
  · rw [frame m' same]
    exact nofun

/-- A region of `m` around one of another mutex. -/
theorem Clears.within (clears : Clears m' .free inner) (ne : m' ≠ m) :
    Balanced (.lock m :: inner ++ [.unlock m]) := by
  obtain ⟨s, runs, free, frame⟩ := clears (Function.update (fun _ => .free) m .held)
    (Function.update_of_ne ne _ _)
  have held : s m = .held := by rw [frame m ne.symm, Function.update_self]
  refine ⟨Function.update s m .free, ?_, fun x => ?_⟩
  · simp [run, Op.run, run_append, runs, held]
  · by_cases same : x = m
    · rw [same, Function.update_self]
      exact nofun
    · rw [Function.update_of_ne same]
      by_cases inside : x = m'
      · exact inside ▸ free
      · rw [frame x inside, Function.update_of_ne same]
        exact nofun

end Rules

end Tmpi.Locking
