import Tmpi.Coll.Barrier

/-! `MPI_Barrier` on all machines: a local barrier, one among the machines' first threads, and a
second local one. -/

namespace Tmpi.Mpi

open Coll (Barrier BarPc)

namespace World

/-- Where a rank is inside `MPI_Barrier`. -/
inductive Stage where
  | out
  | first
  /-- The first `bar_wait` has returned to thread 0, which calls `netq_barrier` next. -/
  | net
  | inNet
  /-- Calls the second `bar_wait` next. -/
  | again
  | second
  deriving DecidableEq, Repr

end World

/-- All machines: the barrier of each, and the threads' places in `MPI_Barrier`. The counters of
calls and returns are read by nobody, but for the assumed `netq_barrier`. -/
structure World where
  bar : Nat → Barrier
  stage : Nat → Nat → World.Stage
  called : Nat → Nat → Nat
  returned : Nat → Nat → Nat
  netCalled : Nat → Nat
  netReturned : Nat → Nat

/-- The number of threads of each machine. -/
structure Machines where
  size : Nat
  threads : Nat → Nat

namespace World

variable (macs : Machines) (w : World) (m l : Nat)

def count (f : Nat → Nat → Nat) : Nat → Nat → Nat :=
  Function.update f m (Function.update (f m) l (f m l + 1))

def goto (stage : Stage) : World :=
  { w with stage := Function.update w.stage m (Function.update (w.stage m) l stage) }

/-- A step of the thread inside `bar_wait`. -/
def onBar (act : Barrier.Act) : Option World :=
  ((w.bar m).step act).map fun bar => { w with bar := Function.update w.bar m bar }

/-- The local thread leaves a `bar_wait`. -/
def afterWait : World :=
  match w.stage m l with
  | .first =>
      if macs.size > 1 then w.goto m l (if l = 0 then .net else .again)
      else { w with returned := count m l w.returned }.goto m l .out
  | .second => { w with returned := count m l w.returned }.goto m l .out
  | _ => w

inductive Act where
  | call (m l : Nat)
  | enter (m l : Nat)
  | wake (m l : Nat)
  | netCall (m : Nat)
  | netReturn (m : Nat)
  | again (m l : Nat)
  deriving DecidableEq, Repr

/-- The rank that acts. -/
def Act.Inside : Act → Prop
  | .call m l | .enter m l | .wake m l | .again m l => m < macs.size ∧ l < macs.threads m
  | .netCall m | .netReturn m => m < macs.size

/-- A step of `MPI_Barrier`. `netq_barrier` is a barrier among the machines. -/
def step : Act → Option World
  | .call m l =>
      if w.stage m l = .out then
        ({ w with called := count m l w.called }.goto m l .first).onBar m (.call l)
      else none
  | .enter m l => (w.onBar m (.enter l)).map fun w =>
      if (w.bar m).pc l = .out then w.afterWait macs m l else w
  | .wake m l => (w.onBar m (.wake l)).map fun w =>
      if (w.bar m).pc l = .out then w.afterWait macs m l else w
  | .netCall m =>
      if w.stage m 0 = .net then
        some ({ w with
          netCalled := Function.update w.netCalled m (w.netCalled m + 1) }.goto m 0 .inNet)
      else none
  | .netReturn m =>
      if w.stage m 0 = .inNet ∧ ∀ m' < macs.size, w.netReturned m < w.netCalled m' then
        some ({ w with
          netReturned := Function.update w.netReturned m (w.netReturned m + 1) }.goto m 0 .again)
      else none
  | .again m l =>
      if w.stage m l = .again then (w.goto m l .second).onBar m (.call l) else none

/-- `bar_init` on every machine. -/
def Boot (w : World) : Prop :=
  (∀ m < macs.size, ∃ bar, Coll.barInit (macs.threads m) = some bar ∧ w.bar m = .start bar) ∧
    w.stage = (fun _ _ => .out) ∧ w.called = (fun _ _ => 0) ∧ w.returned = (fun _ _ => 0) ∧
    w.netCalled = (fun _ => 0) ∧ w.netReturned = fun _ => 0

inductive Reach : World → Prop where
  | boot {w₀} : Boot macs w₀ → Reach w₀
  | step {w₁ w₂ act} : Reach w₁ → Act.Inside macs act → w₁.step macs act = some w₂ → Reach w₂

/-! ## The invariant -/

/-- How many calls of each kind a rank has made within its current `MPI_Barrier`. -/
def Stage.calls : Stage → Nat
  | .out => 0
  | _ => 1

def Stage.waits : Stage → Nat
  | .out => 0
  | .second => 2
  | _ => 1

def Stage.netCalls : Stage → Nat
  | .inNet | .again | .second => 1
  | _ => 0

def Stage.netReturns : Stage → Nat
  | .again | .second => 1
  | _ => 0

/-- A rank that is in one of the `bar_wait`s. -/
def Stage.waiting : Stage → Bool
  | .first | .second => true
  | _ => false

theorem Stage.bounds (stage : Stage) : stage.waits ≤ 1 + stage.netReturns ∧
    stage.netCalls + (if stage.waiting = false then 0 else 1) ≤ stage.waits ∧
    stage.waits ≤ 2 * stage.calls ∧ stage.netCalls ≤ 1 := by
  cases stage <;> decide

/-- What concerns one rank: `netq_barrier` is called by the first thread of a machine. -/
structure View where
  stage : Stage
  called : Nat
  returned : Nat
  waits : Nat
  pc : BarPc
  netCalled : Nat
  netReturned : Nat

def view : View :=
  ⟨w.stage m l, w.called m l, w.returned m l, (w.bar m).called l, (w.bar m).pc l,
    if l = 0 then w.netCalled m else 0, if l = 0 then w.netReturned m else 0⟩

/-- How many `bar_wait`s an `MPI_Barrier` has. -/
def passes : Nat := if macs.size > 1 then 2 else 1

structure View.Ok (v : View) (l : Nat) : Prop where
  called : v.called = v.returned + v.stage.calls
  waits : v.waits = passes macs * v.returned + v.stage.waits
  pc : v.pc = .out ↔ v.stage.waiting = false
  alone : ¬ macs.size > 1 → v.stage = .out ∨ v.stage = .first
  netCalled : l = 0 → macs.size > 1 → v.netCalled = v.returned + v.stage.netCalls
  netReturned : l = 0 → macs.size > 1 → v.netReturned = v.returned + v.stage.netReturns

structure Inv : Prop where
  bars : ∀ m < macs.size, Barrier.Inv (macs.threads m) (w.bar m)
  ranks : ∀ m < macs.size, ∀ l < macs.threads m, (w.view m l).Ok macs l
  nets : ∀ m < macs.size, ∀ m' < macs.size, w.netReturned m ≤ w.netCalled m'

variable {macs} {w} {m} {l} {w' : World}

/-- What one rank does is nothing to the others. -/
theorem Inv.move (inv : Inv macs w)
    (same : ∀ m' l', ¬ (m' = m ∧ l' = l) → w'.view m' l' = w.view m' l')
    (bars : ∀ m' < macs.size, Barrier.Inv (macs.threads m') (w'.bar m'))
    (rank : (w'.view m l).Ok macs l)
    (nets : ∀ m < macs.size, ∀ m' < macs.size, w'.netReturned m ≤ w'.netCalled m') : Inv macs w' := by
  refine ⟨bars, fun m' below l' inside => ?_, nets⟩
  by_cases mine : m' = m ∧ l' = l
  · obtain ⟨rfl, rfl⟩ := mine
    exact rank
  · rw [same m' l' mine]
    exact inv.ranks m' below l' inside

/-- The fields that belong to other ranks than `l` of `m` are the same. -/
structure Apart (w w' : World) (m l : Nat) : Prop where
  bars : ∀ m', m' ≠ m → w'.bar m' = w.bar m'
  locals : ∀ l', l' ≠ l → (w'.bar m).called l' = (w.bar m).called l' ∧
    (w'.bar m).pc l' = (w.bar m).pc l'
  ranks : ∀ m' l', ¬ (m' = m ∧ l' = l) → w'.stage m' l' = w.stage m' l' ∧
    w'.called m' l' = w.called m' l' ∧ w'.returned m' l' = w.returned m' l'
  nets : ∀ m', ¬ (m' = m ∧ l = 0) → w'.netCalled m' = w.netCalled m' ∧
    w'.netReturned m' = w.netReturned m'

theorem Apart.view (apart : Apart w w' m l) (m' l' : Nat) (other : ¬ (m' = m ∧ l' = l)) :
    w'.view m' l' = w.view m' l' := by
  obtain ⟨stage, called, returned⟩ := apart.ranks m' l' other
  have bar : (w'.bar m').called l' = (w.bar m').called l' ∧ (w'.bar m').pc l' = (w.bar m').pc l' := by
    by_cases here : m' = m
    · subst here
      exact apart.locals l' fun same => other ⟨rfl, same⟩
    · rw [apart.bars m' here]
      exact ⟨rfl, rfl⟩
  have net : l' = 0 → w'.netCalled m' = w.netCalled m' ∧ w'.netReturned m' = w.netReturned m' :=
    fun zero => apart.nets m' fun ⟨here, first⟩ => other ⟨here, zero.trans first.symm⟩
  unfold World.view
  rw [stage, called, returned, bar.1, bar.2]
  by_cases zero : l' = 0
  · rw [(net zero).1, (net zero).2]
  · simp only [zero, if_false]

theorem goto_other (stage : Stage) {m' l' : Nat} (other : ¬ (m' = m ∧ l' = l)) :
    (w.goto m l stage).stage m' l' = w.stage m' l' := by
  by_cases here : m' = m
  · subst here
    have apart : l' ≠ l := fun same => other ⟨rfl, same⟩
    simp [goto, Function.update_of_ne apart]
  · simp [goto, Function.update_of_ne here]

theorem count_self (f : Nat → Nat → Nat) : count m l f m l = f m l + 1 := by simp [count]

theorem count_other (f : Nat → Nat → Nat) {m' l' : Nat} (other : ¬ (m' = m ∧ l' = l)) :
    count m l f m' l' = f m' l' := by
  by_cases here : m' = m
  · subst here
    have apart : l' ≠ l := fun same => other ⟨rfl, same⟩
    simp [count, Function.update_of_ne apart]
  · simp [count, Function.update_of_ne here]

/-! ## Steps -/

section Steps

variable (inv : Inv macs w) (here : m < macs.size) (inside : l < macs.threads m)

include inv here inside

theorem bars_step {act : Barrier.Act} {bar : Barrier} (thread : act.thread = l)
    (taken : (w.bar m).step act = some bar) :
    ∀ m' < macs.size, Barrier.Inv (macs.threads m') (Function.update w.bar m bar m') := by
  intro m' below
  by_cases mine : m' = m
  · subst mine
    rw [Function.update_self]
    exact (inv.bars m' below).step (by rw [thread]; exact inside) taken
  · rw [Function.update_of_ne mine]
    exact inv.bars m' below

/-- A rank calls `bar_wait`: the first one as it calls `MPI_Barrier`, or the second one. -/
theorem Inv.callBar {bar : Barrier} {stage : Stage} {called : Nat → Nat → Nat}
    (taken : (w.bar m).step (.call l) = some bar)
    (others : ∀ m' l', ¬ (m' = m ∧ l' = l) → called m' l' = w.called m' l')
    (moves : (w.stage m l = .out ∧ stage = .first ∧ called m l = w.called m l + 1) ∨
      (w.stage m l = .again ∧ stage = .second ∧ called m l = w.called m l)) :
    Inv macs ({ w with called, bar := Function.update w.bar m bar }.goto m l stage) := by
  obtain ⟨-, waits, busy⟩ := Barrier.call_cases taken
  have apart : Apart w ({ w with called, bar := Function.update w.bar m bar }.goto m l stage) m l := by
    refine ⟨fun m' away => Function.update_of_ne away .., fun l' away => ?_, fun m' l' other => ?_,
      fun _ _ => ⟨rfl, rfl⟩⟩
    · simp only [goto, Function.update_self]
      exact Barrier.step_frame taken away
    · exact ⟨goto_other stage other, others m' l' other, rfl⟩
  refine inv.move apart.view (bars_step inv here inside rfl taken) ?_ inv.nets
  have old := inv.ranks m here l inside
  have view : ({ w with called, bar := Function.update w.bar m bar }.goto m l stage).view m l =
      { w.view m l with stage, called := called m l, waits := (w.bar m).called l + 1, pc := bar.pc l } := by
    simp [World.view, goto, waits]
  rw [view]
  have same := old.called
  have past := old.waits
  have nets := old.netCalled
  have rets := old.netReturned
  have alone := old.alone
  simp only [World.view] at same past nets rets alone
  rcases moves with ⟨from_, rfl, now⟩ | ⟨from_, rfl, now⟩
  · rw [from_] at same past nets rets
    refine ⟨?_, ?_, by simp [busy, Stage.waiting], fun _ => .inr rfl, nets, rets⟩
    · change called m l = w.returned m l + 1
      rw [now]
      exact congrArg (· + 1) same
    · change (w.bar m).called l + 1 = passes macs * w.returned m l + 1
      rw [past]
      rfl
  · rw [from_] at same past nets rets alone
    refine ⟨?_, ?_, by simp [busy, Stage.waiting], fun single => ?_, nets, rets⟩
    · change called m l = w.returned m l + 1
      rw [now]
      exact same
    · change (w.bar m).called l + 1 = passes macs * w.returned m l + 2
      rw [past]
      rfl
    · exact absurd (alone single) (by decide)

/-- A rank goes on inside a `bar_wait`, and leaves `MPI_Barrier` if that was the last one. -/
theorem Inv.insideBar {bar : Barrier} {act : Barrier.Act} (entry : act = .enter l ∨ act = .wake l)
    (taken : (w.bar m).step act = some bar) :
    Inv macs (if bar.pc l = .out then
      { w with bar := Function.update w.bar m bar }.afterWait macs m l
      else { w with bar := Function.update w.bar m bar }) := by
  have thread : act.thread = l := by rcases entry with rfl | rfl <;> rfl
  obtain ⟨busy, waits⟩ := Barrier.inside_cases entry taken
  have frame : ∀ l', l' ≠ l → bar.called l' = (w.bar m).called l' ∧ bar.pc l' = (w.bar m).pc l' :=
    fun l' away => Barrier.step_frame taken (by rw [thread]; exact away)
  have bars := bars_step inv here inside thread taken
  have old := inv.ranks m here l inside
  have same := old.called
  have past := old.waits
  have nets := old.netCalled
  have rets := old.netReturned
  have alone := old.alone
  have pc := old.pc
  simp only [World.view] at same past nets rets alone pc
  have stage : w.stage m l = .first ∨ w.stage m l = .second := by
    cases at' : w.stage m l <;> rw [at'] at pc <;> simp [Stage.waiting] at pc <;>
      first | exact absurd pc busy | simp
  split
  next out =>
    -- the last `bar_wait` of an `MPI_Barrier`
    have leaves : ∀ {next : World}, next = { w with
          bar := Function.update w.bar m bar, returned := count m l w.returned }.goto m l .out →
        w.called m l = w.returned m l + 1 → (w.bar m).called l = passes macs * (w.returned m l + 1) →
        (l = 0 → macs.size > 1 → w.netCalled m = w.returned m l + 1 ∧
          w.netReturned m = w.returned m l + 1) → Inv macs next := by
      rintro next rfl called twice net
      refine inv.move (Apart.view ⟨fun m' away => Function.update_of_ne away .., fun l' away => ?_,
        fun m' l' other => ⟨goto_other .out other, rfl, count_other w.returned other⟩,
        fun _ _ => ⟨rfl, rfl⟩⟩) bars ?_ inv.nets
      · simp only [goto, Function.update_self]
        exact frame l' away
      · have view : ({ w with
            bar := Function.update w.bar m bar
            returned := count m l w.returned }.goto m l .out).view m l =
            { w.view m l with stage := .out, returned := w.returned m l + 1, pc := .out } := by
          simp [World.view, goto, waits, out, count]
        rw [view]
        refine ⟨called, twice, by simp [Stage.waiting], fun _ => .inl rfl, fun first several => ?_,
          fun first several => ?_⟩
        · simpa [World.view, first, Stage.netCalls] using (net first several).1
        · simpa [World.view, first, Stage.netReturns] using (net first several).2
    rcases stage with at' | at'
    · rw [at'] at same past nets rets
      unfold afterWait
      simp only [at']
      split
      next several =>
        have moves : ∀ next : Stage, next = (if l = 0 then .net else .again) → Inv macs
            ({ w with bar := Function.update w.bar m bar }.goto m l next) := by
          intro next chosen
          refine inv.move (Apart.view ⟨fun m' away => Function.update_of_ne away .., fun l' away => ?_,
            fun m' l' other => ⟨goto_other next other, rfl, rfl⟩, fun _ _ => ⟨rfl, rfl⟩⟩) bars ?_ inv.nets
          · simp only [goto, Function.update_self]
            exact frame l' away
          · have view : ({ w with bar := Function.update w.bar m bar }.goto m l next).view m l =
                { w.view m l with stage := next, pc := .out } := by
              simp [World.view, goto, waits, out]
            rw [view]
            have after : next.calls = 1 ∧ next.waits = 1 ∧ next.waiting = false := by
              rw [chosen]
              split <;> exact ⟨rfl, rfl, rfl⟩
            obtain ⟨calls, passed, free⟩ := after
            refine ⟨?_, ?_, by simp [free], fun single => absurd several single, fun first _ => ?_,
              fun first _ => ?_⟩
            · simp only [World.view, calls]
              exact same
            · simp only [World.view, passed]
              exact past
            · rw [first, if_pos rfl] at chosen
              rw [chosen]
              simpa [World.view, first, Stage.netCalls] using nets first several
            · rw [first, if_pos rfl] at chosen
              rw [chosen]
              simpa [World.view, first, Stage.netReturns] using rets first several
        exact moves _ rfl
      next single =>
        refine leaves rfl same ?_ fun _ several => absurd several single
        rw [past]
        simp [passes, single, Stage.waits]
    · rw [at'] at same past nets rets alone
      have several : macs.size > 1 := by
        by_contra single
        exact absurd (alone single) (by decide)
      unfold afterWait
      simp only [at']
      refine leaves rfl same ?_ fun first _ => ?_
      · rw [past]
        simp only [passes, several, if_true, Stage.waits]
        omega
      · have called := nets first several
        have returned := rets first several
        rw [if_pos first] at called returned
        exact ⟨called, returned⟩
  next stays =>
    have apart : Apart w { w with bar := Function.update w.bar m bar } m l := by
      refine ⟨fun m' away => Function.update_of_ne away .., fun l' away => ?_,
        fun _ _ _ => ⟨rfl, rfl, rfl⟩, fun _ _ => ⟨rfl, rfl⟩⟩
      simp only [Function.update_self]
      exact frame l' away
    refine inv.move apart.view bars ?_ inv.nets
    have view : World.view { w with bar := Function.update w.bar m bar } m l =
        { w.view m l with pc := bar.pc l } := by
      simp [World.view, waits]
    rw [view]
    refine ⟨old.called, old.waits, ?_, old.alone, old.netCalled, old.netReturned⟩
    rcases stage with at' | at' <;> simp [stays, World.view, at', Stage.waiting]

end Steps

/-- The first thread of a machine calls `netq_barrier` or returns from it. -/
theorem Inv.netMove (inv : Inv macs w) (here : m < macs.size) (inside : 0 < macs.threads m)
    {stage : Stage} {netCalled netReturned : Nat → Nat}
    (moves : (w.stage m 0 = .net ∧ stage = .inNet ∧ netCalled m = w.netCalled m + 1 ∧
        netReturned m = w.netReturned m) ∨
      (w.stage m 0 = .inNet ∧ stage = .again ∧ netCalled m = w.netCalled m ∧
        netReturned m = w.netReturned m + 1))
    (others : ∀ m', m' ≠ m → netCalled m' = w.netCalled m' ∧ netReturned m' = w.netReturned m')
    (nets : ∀ m < macs.size, ∀ m' < macs.size, netReturned m ≤ netCalled m') :
    Inv macs ({ w with netCalled, netReturned }.goto m 0 stage) := by
  have apart : Apart w ({ w with netCalled, netReturned }.goto m 0 stage) m 0 := by
    refine ⟨fun _ _ => rfl, fun _ _ => ⟨rfl, rfl⟩, fun m' l' other => ⟨goto_other stage other, rfl, rfl⟩,
      fun m' other => ?_⟩
    exact others m' fun same => other ⟨same, rfl⟩
  refine inv.move apart.view inv.bars ?_ nets
  have old := inv.ranks m here 0 inside
  have view : ({ w with netCalled, netReturned }.goto m 0 stage).view m 0 =
      { w.view m 0 with stage, netCalled := netCalled m, netReturned := netReturned m } := by
    simp [World.view, goto]
  rw [view]
  have several : macs.size > 1 := by
    by_contra single
    have stays := old.alone single
    simp only [World.view] at stays
    rcases moves with ⟨at', -⟩ | ⟨at', -⟩ <;> rw [at'] at stays <;> exact absurd stays (by decide)
  have same := old.called
  have past := old.waits
  have pc := old.pc
  have calls := old.netCalled rfl several
  have returns := old.netReturned rfl several
  simp only [World.view, if_true] at same past pc calls returns
  rcases moves with ⟨at', rfl, called, returned⟩ | ⟨at', rfl, called, returned⟩
  all_goals
    rw [at'] at same past pc calls returns
    refine ⟨same, past, pc, fun single => absurd several single, fun _ _ => ?_, fun _ _ => ?_⟩
    · change netCalled m = w.returned m 0 + _
      rw [called, calls]
      rfl
    · change netReturned m = w.returned m 0 + _
      rw [returned, returns]
      rfl

theorem Inv.threads_pos (inv : Inv macs w) (here : m < macs.size) : 0 < macs.threads m := by
  have room := (inv.bars m here).room
  omega

theorem Inv.step (inv : Inv macs w) {act : Act} (inside : Act.Inside macs act)
    (taken : w.step macs act = some w') : Inv macs w' := by
  cases act with
  | call m l =>
      obtain ⟨here, thread⟩ := inside
      simp only [World.step] at taken
      split at taken
      next idle =>
        obtain ⟨bar, one, rfl⟩ := Option.map_eq_some_iff.mp taken
        exact inv.callBar here thread one (fun m' l' other => count_other w.called other)
          (.inl ⟨idle, rfl, count_self w.called⟩)
      next => cases taken
  | again m l =>
      obtain ⟨here, thread⟩ := inside
      simp only [World.step] at taken
      split at taken
      next again =>
        obtain ⟨bar, one, rfl⟩ := Option.map_eq_some_iff.mp taken
        exact inv.callBar here thread one (fun m' l' other => rfl) (.inr ⟨again, rfl, rfl⟩)
      next => cases taken
  | enter m l =>
      obtain ⟨here, thread⟩ := inside
      simp only [World.step, onBar, Option.map_map] at taken
      obtain ⟨bar, one, rfl⟩ := Option.map_eq_some_iff.mp taken
      have next := inv.insideBar here thread (.inl rfl) one
      simpa using next
  | wake m l =>
      obtain ⟨here, thread⟩ := inside
      simp only [World.step, onBar, Option.map_map] at taken
      obtain ⟨bar, one, rfl⟩ := Option.map_eq_some_iff.mp taken
      have next := inv.insideBar here thread (.inr rfl) one
      simpa using next
  | netCall m =>
      have here : m < macs.size := inside
      simp only [World.step] at taken
      split at taken
      next net =>
        cases taken
        refine inv.netMove here (inv.threads_pos here) (.inl ⟨net, rfl, by simp, rfl⟩)
          (fun m' other => ⟨by simp [other], rfl⟩) fun i inI j inJ => ?_
        refine le_trans (inv.nets i inI j inJ) ?_
        by_cases mine : j = m
        · simp [mine]
        · simp [mine]
      next => cases taken
  | netReturn m =>
      have here : m < macs.size := inside
      simp only [World.step] at taken
      split at taken
      next guard =>
        cases taken
        refine inv.netMove here (inv.threads_pos here) (.inr ⟨guard.1, rfl, rfl, by simp⟩)
          (fun m' other => ⟨rfl, by simp [other]⟩) fun i inI j inJ => ?_
        by_cases mine : i = m
        · have all := guard.2 j inJ
          simpa [mine] using all
        · simpa [mine] using inv.nets i inI j inJ
      next => cases taken

theorem Reach.inv (reach : Reach macs w) : Inv macs w := by
  induction reach with
  | boot started =>
      obtain ⟨bars, stage, called, returned, netCalled, netReturned⟩ := started
      refine ⟨fun m here => ?_, fun m here l inside => ?_, fun m here m' _ => ?_⟩
      · obtain ⟨bar, init, start⟩ := bars m here
        rw [start]
        exact .start init
      · obtain ⟨bar, -, start⟩ := bars m here
        constructor <;> simp [World.view, stage, called, returned, netCalled, netReturned, start,
          Barrier.start, Stage.calls, Stage.waits, Stage.waiting, Stage.netCalls, Stage.netReturns]
      · rw [netReturned]
        exact Nat.zero_le _
  | step _ inside taken ih => exact ih.step inside taken

/-- No rank has returned from more `MPI_Barrier`s than another one has called. -/
theorem Inv.returned_le (inv : Inv macs w) (here : m < macs.size) (inside : l < macs.threads m)
    {m' l' : Nat} (there : m' < macs.size) (inside' : l' < macs.threads m') :
    w.returned m l ≤ w.called m' l' := by
  have facts : ∀ i < macs.size, ∀ j < macs.threads i,
      w.called i j = w.returned i j + (w.stage i j).calls ∧
      (w.bar i).called j = passes macs * w.returned i j + (w.stage i j).waits ∧
      (w.bar i).called j = (w.bar i).returned j + if (w.stage i j).waiting = false then 0 else 1 := by
    intro i inI j inJ
    have rank := inv.ranks i inI j inJ
    have counts := (inv.bars i inI).returned_eq inJ
    have pc := rank.pc
    simp only [World.view] at pc
    simp only [pc] at counts
    exact ⟨rank.called, rank.waits, counts⟩
  obtain ⟨mine, calls, returns⟩ := facts m here l inside
  by_cases several : macs.size > 1
  · -- thread 0 of the machine, thread 0 of the other machine, and the other rank
    have first := inv.threads_pos here
    have first' := inv.threads_pos there
    obtain ⟨zero, zeroCalls, -⟩ := facts m here 0 first
    obtain ⟨zero', zeroCalls', zeroReturns'⟩ := facts m' there 0 first'
    obtain ⟨theirs, theirCalls, -⟩ := facts m' there l' inside'
    have net := (inv.ranks m here 0 first).netReturned rfl several
    have net' := (inv.ranks m' there 0 first').netCalled rfl several
    have through := inv.nets m here m' there
    have local_ := (inv.bars m here).returned_le inside first
    have local' := (inv.bars m' there).returned_le first' inside'
    simp only [World.view, if_true] at net net'
    simp only [passes, several, if_true] at calls zeroCalls zeroCalls' theirCalls
    have back : w.returned m l ≤ w.netReturned m := by
      obtain ⟨-, few, -⟩ := (w.stage m l).bounds
      obtain ⟨many, -, -⟩ := (w.stage m 0).bounds
      omega
    have through' : w.netCalled m' ≤ w.called m' l' := by
      obtain ⟨-, few, -, once⟩ := (w.stage m' 0).bounds
      obtain ⟨-, -, many, -⟩ := (w.stage m' l').bounds
      omega
    exact le_trans back (le_trans through through')
  · obtain rfl : m' = m := by omega
    obtain ⟨theirs, theirCalls, -⟩ := facts m' there l' inside'
    have local_ := (inv.bars m' here).returned_le inside inside'
    have alone' := (inv.ranks m' here l' inside').alone several
    simp only [World.view] at alone'
    simp only [passes, several, if_false] at calls theirCalls
    obtain ⟨-, few, -⟩ := (w.stage m' l).bounds
    have many : (w.stage m' l').waits = (w.stage m' l').calls := by
      rcases alone' with at' | at' <;> rw [at'] <;> rfl
    omega

end World

/-- No thread returns from a `bar_wait` before all threads have called theirs, nor is it counted
in another phase than its own; and no rank returns from an `MPI_Barrier` before all ranks of all
machines have called theirs. -/
theorem barrier_safe :
    (∀ (count : Nat) (s : Barrier), Barrier.Reach count s →
      (∀ t < count, ∀ u < count, s.returned t ≤ s.called u) ∧
      ∀ a ∈ s.arrivals, a.call = a.phase ∧ (2 ≤ count → a.sb = a.phase.bodd)) ∧
    ∀ (macs : Machines) (w : World), World.Reach macs w →
      ∀ m < macs.size, ∀ l < macs.threads m, ∀ m' < macs.size, ∀ l' < macs.threads m',
        w.returned m l ≤ w.called m' l' := by
  refine ⟨fun count s reach => ⟨fun t inside u below => ?_, reach.inv.arrivals⟩,
    fun macs w reach m here l inside m' there l' inside' => ?_⟩
  · exact reach.inv.returned_le inside below
  · exact reach.inv.returned_le here inside there inside'

/-- Two threads: the first one is woken without reason, and the second one is in the next phase
before the first one has seen the end of theirs. -/
theorem barrier_safe_two : ∃ s, Barrier.Reach 2 s ∧ s.returned 1 = 1 ∧ s.called 1 = 2 ∧
    s.returned 1 ≤ s.called 0 ∧ ∀ a ∈ s.arrivals, a.call = a.phase := by
  let acts : List Barrier.Act :=
    [.call 0, .enter 0, .wake 0, .call 1, .enter 1, .call 1, .enter 1]
  have goes : (Barrier.run (.start ⟨2, false, fun _ => 2⟩) acts).isSome = true := rfl
  have reach := Barrier.run_reach (Barrier.Reach.init (show Coll.barInit (2 : Nat) = some _ from rfl))
    (by decide) (Option.some_get goes).symm
  obtain ⟨order, arrivals⟩ := barrier_safe.1 2 _ reach
  exact ⟨_, reach, rfl, rfl, order 1 (by decide) 0 (by decide),
    fun a member => (arrivals a member).1⟩

end Tmpi.Mpi
