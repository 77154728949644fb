import Mathlib.Data.List.Perm.Basic
import Mathlib.Data.Finset.Dedup
import Mathlib.Logic.Function.Basic
import Mathlib.Tactic

/-! Sequential processes joined by one reliable FIFO stream per ordered pair.

Every process is deterministic and blocks only on reading, so the outcome of a
network does not depend on the order in which its processes are scheduled. One
complete schedule therefore fixes what every interleaving can do. -/

namespace Tmpi.Network

/-- The code of one process. `note` records an event in the process's own log and
touches no stream; at `stop` the process breaks off and makes no step any more. -/
inductive Prog (ι β ω α : Type) where
  | done (value : α)
  | stop
  | write (target : ι) (token : β) (rest : Prog ι β ω α)
  | read (source : ι) (rest : β → Prog ι β ω α)
  | note (event : ω) (rest : Prog ι β ω α)

namespace Prog

variable {ι β ω α γ δ : Type}

def bind : Prog ι β ω α → (α → Prog ι β ω γ) → Prog ι β ω γ
  | done value, next => next value
  | stop, _ => stop
  | write target token rest, next => write target token (rest.bind next)
  | read source rest, next => read source (fun token => (rest token).bind next)
  | note event rest, next => note event (rest.bind next)

instance : Monad (Prog ι β ω) where
  pure := done
  bind := bind

@[simp] theorem pure_eq (value : α) : (pure value : Prog ι β ω α) = done value := rfl

@[simp] theorem done_bind (value : α) (next : α → Prog ι β ω γ) :
    (done value : Prog ι β ω α) >>= next = next value := rfl

@[simp] theorem stop_bind (next : α → Prog ι β ω γ) :
    (stop : Prog ι β ω α) >>= next = stop := rfl

@[simp] theorem write_bind (target : ι) (token : β) (rest : Prog ι β ω α)
    (next : α → Prog ι β ω γ) :
    write target token rest >>= next = write target token (rest >>= next) := rfl

@[simp] theorem read_bind (source : ι) (rest : β → Prog ι β ω α) (next : α → Prog ι β ω γ) :
    read source rest >>= next = read source (fun token => rest token >>= next) := rfl

@[simp] theorem note_bind (event : ω) (rest : Prog ι β ω α) (next : α → Prog ι β ω γ) :
    note event rest >>= next = note event (rest >>= next) := rfl

theorem bind_assoc (first : Prog ι β ω α) (second : α → Prog ι β ω γ)
    (third : γ → Prog ι β ω δ) :
    first >>= second >>= third = first >>= fun value => second value >>= third := by
  induction first with
  | done value => rfl
  | stop => rfl
  | write target token rest ih => simp only [write_bind, ih]
  | read source rest ih => simp only [read_bind, ih]
  | note event rest ih => simp only [note_bind, ih]

theorem bind_done (first : Prog ι β ω α) : first >>= done = first := by
  induction first with
  | done value => rfl
  | stop => rfl
  | write target token rest ih => simp only [write_bind, ih]
  | read source rest ih => simp only [read_bind, ih]
  | note event rest ih => simp only [note_bind, ih]

instance : LawfulMonad (Prog ι β ω) :=
  LawfulMonad.mk' (Prog ι β ω) (fun first => bind_done first) (fun _ _ => rfl) bind_assoc

end Prog

/-! ## Schedules -/

variable {ι β ω α : Type}

/-- `link i j` is what `i` has written for `j` and `j` has not yet read. -/
structure State (ι β ω α : Type) where
  proc : ι → Prog ι β ω α
  link : ι → ι → List β
  log : ι → List ω

@[ext] theorem State.ext {left right : State ι β ω α} (procs : left.proc = right.proc)
    (links : left.link = right.link) (logs : left.log = right.log) : left = right := by
  cases left
  cases right
  simp_all

variable [DecidableEq ι]

def setLink (link : ι → ι → List β) (source target : ι) (tokens : List β) : ι → ι → List β :=
  fun i j => if i = source ∧ j = target then tokens else link i j

/-- One step of process `i`; `none` when it has ended, has broken off or waits for input. -/
def step (s : State ι β ω α) (i : ι) : Option (State ι β ω α) :=
  match s.proc i with
  | .done _ | .stop => none
  | .write target token rest =>
      some { s with
        proc := Function.update s.proc i rest
        link := setLink s.link i target (s.link i target ++ [token]) }
  | .read source rest =>
      match s.link source i with
      | [] => none
      | token :: tokens =>
          some { s with
            proc := Function.update s.proc i (rest token)
            link := setLink s.link source i tokens }
  | .note event rest =>
      some { s with
        proc := Function.update s.proc i rest
        log := Function.update s.log i (s.log i ++ [event]) }

def exec : List ι → State ι β ω α → Option (State ι β ω α)
  | [], s => some s
  | i :: schedule, s => (step s i).bind (exec schedule)

def Finished (s : State ι β ω α) : Prop := ∀ i, ∃ value, s.proc i = .done value

theorem exec_append (front back : List ι) (s : State ι β ω α) :
    exec (front ++ back) s = (exec front s).bind (exec back) := by
  induction front generalizing s with
  | nil => rfl
  | cons i front ih =>
      simp only [List.cons_append, exec]
      cases step s i with
      | none => rfl
      | some t => exact ih t

theorem step_write {s : State ι β ω α} {i target : ι} {token : β} {rest : Prog ι β ω α}
    (code : s.proc i = .write target token rest) :
    step s i = some { s with
      proc := Function.update s.proc i rest
      link := setLink s.link i target (s.link i target ++ [token]) } := by
  simp [step, code]

theorem step_read {s : State ι β ω α} {i source : ι} {rest : β → Prog ι β ω α} {token : β}
    {tokens : List β} (code : s.proc i = .read source rest)
    (ready : s.link source i = token :: tokens) :
    step s i = some { s with
      proc := Function.update s.proc i (rest token)
      link := setLink s.link source i tokens } := by
  simp [step, code, ready]

theorem step_note {s : State ι β ω α} {i : ι} {event : ω} {rest : Prog ι β ω α}
    (code : s.proc i = .note event rest) :
    step s i = some { s with
      proc := Function.update s.proc i rest
      log := Function.update s.log i (s.log i ++ [event]) } := by
  simp [step, code]

theorem exec_note {s : State ι β ω α} {i : ι} {event : ω} {rest : Prog ι β ω α}
    (code : s.proc i = .note event rest) : ∃ t, exec [i] s = some t ∧ t.proc i = rest := by
  rw [exec, step_note code]
  exact ⟨_, rfl, Function.update_self ..⟩

/-- Everything a step can be. -/
theorem step_cases {s t : State ι β ω α} {i : ι} (ran : step s i = some t) :
    (∃ target token rest, s.proc i = .write target token rest ∧ t = { s with
      proc := Function.update s.proc i rest
      link := setLink s.link i target (s.link i target ++ [token]) }) ∨
    (∃ source rest token tokens, s.proc i = .read source rest ∧
      s.link source i = token :: tokens ∧ t = { s with
        proc := Function.update s.proc i (rest token)
        link := setLink s.link source i tokens }) ∨
    (∃ event rest, s.proc i = .note event rest ∧ t = { s with
      proc := Function.update s.proc i rest
      log := Function.update s.log i (s.log i ++ [event]) }) := by
  cases code : s.proc i with
  | done value => simp [step, code] at ran
  | stop => simp [step, code] at ran
  | write target token rest =>
      rw [step_write code, Option.some.injEq] at ran
      exact Or.inl ⟨target, token, rest, rfl, ran.symm⟩
  | read source rest =>
      cases ready : s.link source i with
      | nil => simp [step, code, ready] at ran
      | cons token tokens =>
          rw [step_read code ready, Option.some.injEq] at ran
          exact Or.inr (Or.inl ⟨source, rest, token, tokens, rfl, ready, ran.symm⟩)
  | note event rest =>
      rw [step_note code, Option.some.injEq] at ran
      exact Or.inr (Or.inr ⟨event, rest, rfl, ran.symm⟩)

theorem step_finished {s : State ι β ω α} (ended : Finished s) (i : ι) : step s i = none := by
  obtain ⟨value, isDone⟩ := ended i
  simp [step, isDone]

theorem setLink_comm (link : ι → ι → List β) {a b c d : ι} (first second : List β)
    (apart : ¬ (a = c ∧ b = d)) :
    setLink (setLink link a b first) c d second = setLink (setLink link c d second) a b first := by
  funext i j
  simp only [setLink]
  split_ifs with inner outer <;> first | rfl | (exfalso; apply apart; grind)

@[simp] theorem setLink_same (link : ι → ι → List β) (a b : ι) (tokens : List β) :
    setLink link a b tokens a b = tokens := by
  simp [setLink]

theorem setLink_other (link : ι → ι → List β) {a b i j : ι} (tokens : List β)
    (apart : ¬ (i = a ∧ j = b)) : setLink link a b tokens i j = link i j := by
  simp [setLink, apart]

theorem setLink_twice (link : ι → ι → List β) (a b : ι) (first second : List β) :
    setLink (setLink link a b first) a b second = setLink link a b second := by
  funext i j
  simp only [setLink]
  split_ifs <;> rfl

/-- The only overlap of two processes is a stream one writes and the other reads:
the writer extends its tail, the reader takes its head. -/
theorem write_read_diamond {s : State ι β ω α} {i j target source : ι} {written token : β}
    {tokens : List β} {restI : Prog ι β ω α} {restJ : β → Prog ι β ω α} (apart : i ≠ j)
    (codeI : s.proc i = .write target written restI) (codeJ : s.proc j = .read source restJ)
    (ready : s.link source j = token :: tokens) :
    ∃ meet,
      step { s with
        proc := Function.update s.proc i restI
        link := setLink s.link i target (s.link i target ++ [written]) } j = some meet ∧
      step { s with
        proc := Function.update s.proc j (restJ token)
        link := setLink s.link source j tokens } i = some meet := by
  have codeI' : (Function.update s.proc j (restJ token)) i = .write target written restI := by
    rw [Function.update_of_ne apart, codeI]
  have codeJ' : (Function.update s.proc i restI) j = .read source restJ := by
    rw [Function.update_of_ne apart.symm, codeJ]
  by_cases same : source = i ∧ j = target
  · obtain ⟨rfl, rfl⟩ := same
    have ready' : setLink s.link source j (s.link source j ++ [written]) source j =
        token :: (tokens ++ [written]) := by
      rw [setLink_same, ready, List.cons_append]
    refine ⟨_, step_read codeJ' ready', ?_⟩
    rw [step_write codeI']
    simp only [setLink_same, setLink_twice]
    rw [Function.update_comm apart]
  · have ready' : setLink s.link i target (s.link i target ++ [written]) source j =
        token :: tokens := by
      rw [setLink_other _ _ same, ready]
    refine ⟨_, step_read codeJ' ready', ?_⟩
    rw [step_write codeI']
    have other : ¬ (i = source ∧ target = j) := fun both => same ⟨both.1.symm, both.2.symm⟩
    simp only [setLink_other s.link tokens other]
    rw [Function.update_comm apart, setLink_comm _ _ _ other]

/-- Steps of two processes commute. -/
theorem step_diamond {s left right : State ι β ω α} {i j : ι} (apart : i ≠ j)
    (first : step s i = some left) (second : step s j = some right) :
    ∃ meet, step left j = some meet ∧ step right i = some meet := by
  have keepI (rest : Prog ι β ω α) : (Function.update s.proc j rest) i = s.proc i :=
    Function.update_of_ne apart _ _
  have keepJ (rest : Prog ι β ω α) : (Function.update s.proc i rest) j = s.proc j :=
    Function.update_of_ne apart.symm _ _
  obtain ⟨t, a, p, codeI, rfl⟩ | ⟨f, p, a, as, codeI, readyI, rfl⟩ | ⟨e, p, codeI, rfl⟩ :=
    step_cases first <;>
  obtain ⟨u, b, q, codeJ, rfl⟩ | ⟨g, q, b, bs, codeJ, readyJ, rfl⟩ | ⟨d, q, codeJ, rfl⟩ :=
    step_cases second
  · have codeI' := (keepI q).trans codeI
    have codeJ' := (keepJ p).trans codeJ
    refine ⟨_, step_write codeJ', ?_⟩
    rw [step_write codeI']
    have outI : ¬ (i = j ∧ t = u) := fun both => apart both.1
    have outJ : ¬ (j = i ∧ u = t) := fun both => apart both.1.symm
    simp only [setLink_other _ _ outI, setLink_other _ _ outJ]
    rw [Function.update_comm apart, setLink_comm _ _ _ outI]
  · exact write_read_diamond apart codeI codeJ readyJ
  · refine ⟨_, step_note ((keepJ p).trans codeJ), ?_⟩
    rw [step_write ((keepI q).trans codeI), Function.update_comm apart]
  · obtain ⟨meet, after, before⟩ := write_read_diamond apart.symm codeJ codeI readyI
    exact ⟨meet, before, after⟩
  · have codeI' := (keepI (q b)).trans codeI
    have codeJ' := (keepJ (p a)).trans codeJ
    have outI : ¬ (f = g ∧ i = j) := fun both => apart both.2
    have outJ : ¬ (g = f ∧ j = i) := fun both => apart both.2.symm
    have readyI' : setLink s.link g j bs f i = a :: as := by
      rw [setLink_other _ _ outI, readyI]
    have readyJ' : setLink s.link f i as g j = b :: bs := by
      rw [setLink_other _ _ outJ, readyJ]
    refine ⟨_, step_read codeJ' readyJ', ?_⟩
    rw [step_read codeI' readyI', Function.update_comm apart, setLink_comm _ _ _ outI]
  · refine ⟨_, step_note ((keepJ (p a)).trans codeJ), ?_⟩
    rw [step_read (s := ⟨Function.update s.proc j q, s.link, _⟩) ((keepI q).trans codeI) readyI,
      Function.update_comm apart]
  · refine ⟨_, step_write ((keepJ p).trans codeJ), ?_⟩
    rw [step_note ((keepI q).trans codeI), Function.update_comm apart]
  · refine ⟨_, step_read (s := ⟨Function.update s.proc i p, s.link, _⟩)
      ((keepJ p).trans codeJ) readyJ, ?_⟩
    rw [step_note ((keepI (q b)).trans codeI), Function.update_comm apart]
  · refine ⟨_, step_note ((keepJ p).trans codeJ), ?_⟩
    rw [step_note ((keepI q).trans codeI)]
    simp only [Function.update_of_ne apart, Function.update_of_ne apart.symm]
    rw [Function.update_comm apart, Function.update_comm apart]

/-- Whatever process moves first, the rest of a complete schedule can still be run. -/
theorem step_then_complete {s t final : State ι β ω α} {i : ι} {schedule : List ι}
    (complete : exec schedule s = some final) (ended : Finished final) (moved : step s i = some t) :
    ∃ remaining, exec remaining t = some final ∧ schedule.Perm (i :: remaining) := by
  induction schedule generalizing s t with
  | nil =>
      simp only [exec, Option.some.injEq] at complete
      subst complete
      rw [step_finished ended] at moved
      cases moved
  | cons j schedule ih =>
      simp only [exec, Option.bind_eq_some_iff] at complete
      obtain ⟨u, stepped, rest⟩ := complete
      by_cases same : i = j
      · subst same
        rw [moved, Option.some.injEq] at stepped
        subst stepped
        exact ⟨schedule, rest, List.Perm.refl _⟩
      · obtain ⟨meet, after, before⟩ := step_diamond same moved stepped
        obtain ⟨remaining, finish, order⟩ := ih rest before
        refine ⟨j :: remaining, ?_, ?_⟩
        · simp [exec, after, finish]
        · exact (order.cons j).trans (List.Perm.swap i j remaining)

/-- Schedule independence: every partial run extends to the final state of one
complete schedule, and takes each process as many steps as that schedule does. -/
theorem run_completes {s t final : State ι β ω α} {schedule partialRun : List ι}
    (complete : exec schedule s = some final) (ended : Finished final)
    (ran : exec partialRun s = some t) :
    ∃ remaining, exec remaining t = some final ∧ schedule.Perm (partialRun ++ remaining) := by
  induction partialRun generalizing s schedule with
  | nil =>
      simp only [exec, Option.some.injEq] at ran
      subst ran
      exact ⟨schedule, complete, List.Perm.refl _⟩
  | cons i partialRun ih =>
      simp only [exec, Option.bind_eq_some_iff] at ran
      obtain ⟨u, moved, rest⟩ := ran
      obtain ⟨middle, finish, order⟩ := step_then_complete complete ended moved
      obtain ⟨remaining, last, order'⟩ := ih finish rest
      exact ⟨remaining, last, order.trans (order'.cons i)⟩

theorem finished_unique {s t final : State ι β ω α} {schedule partialRun : List ι}
    (complete : exec schedule s = some final) (ended : Finished final)
    (ran : exec partialRun s = some t) (stopped : Finished t) : t = final := by
  obtain ⟨remaining, finish, _⟩ := run_completes complete ended ran
  cases remaining with
  | nil => simpa [exec] using finish
  | cons i remaining => simp [exec, step_finished stopped] at finish

theorem exec_log {s t : State ι β ω α} {schedule : List ι} (ran : exec schedule s = some t)
    (i : ι) : s.log i <+: t.log i := by
  induction schedule generalizing s with
  | nil =>
      simp only [exec, Option.some.injEq] at ran
      rw [ran]
  | cons j schedule ih =>
      simp only [exec, Option.bind_eq_some_iff] at ran
      obtain ⟨u, moved, rest⟩ := ran
      have tail := ih rest
      have head : s.log i <+: u.log i := by
        obtain ⟨_, _, _, _, rfl⟩ | ⟨_, _, _, _, _, _, rfl⟩ | ⟨event, _, _, rfl⟩ := step_cases moved
        · exact List.prefix_rfl
        · exact List.prefix_rfl
        · by_cases same : i = j
          · subst same; simp
          · simp [same]
      exact head.trans tail

/-- The logs of every reachable state are cut off the logs of the final state. -/
theorem run_log {s t final : State ι β ω α} {schedule partialRun : List ι}
    (complete : exec schedule s = some final) (ended : Finished final)
    (ran : exec partialRun s = some t) (i : ι) : t.log i <+: final.log i := by
  obtain ⟨remaining, finish, _⟩ := run_completes complete ended ran
  exact exec_log finish i

/-! ## Rounds

In a round every process performs a fixed list of actions. When what each one
reads from another is what that one writes for it, and no process reads from one
that comes later in some order, the processes can run one after the other. -/

inductive Action (ι β ω : Type) where
  | wrote (target : ι) (token : β)
  | got (source : ι) (token : β)
  | noted (event : ω)

inductive Performs {ι β ω α : Type} :
    Prog ι β ω α → List (Action ι β ω) → Prog ι β ω α → Prop where
  | rest (p) : Performs p [] p
  | write {target token rest actions last} : Performs rest actions last →
      Performs (.write target token rest) (.wrote target token :: actions) last
  | read {source token rest actions last} : Performs (rest token) actions last →
      Performs (.read source rest) (.got source token :: actions) last
  | note {event rest actions last} : Performs rest actions last →
      Performs (.note event rest) (.noted event :: actions) last

omit [DecidableEq ι] in
theorem Performs.bind {γ : Type} {first : Prog ι β ω α} {actions more : List (Action ι β ω)}
    {value : α} {next : α → Prog ι β ω γ} {last : Prog ι β ω γ}
    (front : Performs first actions (.done value)) (back : Performs (next value) more last) :
    Performs (first >>= next) (actions ++ more) last := by
  generalize stop : (Prog.done value : Prog ι β ω α) = final at front
  induction front with
  | rest p => subst stop; exact back
  | write _ ih => exact .write (ih stop)
  | read _ ih => exact .read (ih stop)
  | note _ ih => exact .note (ih stop)

omit [DecidableEq ι] in
theorem Performs.andThen {γ : Type} {first : Prog ι β ω α} {actions : List (Action ι β ω)}
    {value : α} (front : Performs first actions (.done value)) (next : α → Prog ι β ω γ) :
    Performs (first >>= next) actions (next value) := by
  rw [← List.append_nil actions]
  exact front.bind (.rest (next value))

def writesTo (target : ι) (actions : List (Action ι β ω)) : List β :=
  actions.filterMap fun
    | .wrote t token => if t = target then some token else none
    | _ => none

def readsFrom (source : ι) (actions : List (Action ι β ω)) : List β :=
  actions.filterMap fun
    | .got f token => if f = source then some token else none
    | _ => none

def notes (actions : List (Action ι β ω)) : List ω :=
  actions.filterMap fun
    | .noted event => some event
    | _ => none

@[simp] theorem writesTo_append (target : ι) (front back : List (Action ι β ω)) :
    writesTo target (front ++ back) = writesTo target front ++ writesTo target back :=
  List.filterMap_append

@[simp] theorem readsFrom_append (source : ι) (front back : List (Action ι β ω)) :
    readsFrom source (front ++ back) = readsFrom source front ++ readsFrom source back :=
  List.filterMap_append

omit [DecidableEq ι] in
@[simp] theorem notes_append (front back : List (Action ι β ω)) :
    notes (front ++ back) = notes front ++ notes back :=
  List.filterMap_append

@[simp] theorem writesTo_nil (target : ι) : writesTo target ([] : List (Action ι β ω)) = [] := rfl
@[simp] theorem readsFrom_nil (source : ι) : readsFrom source ([] : List (Action ι β ω)) = [] := rfl

omit [DecidableEq ι] in
@[simp] theorem notes_nil : notes ([] : List (Action ι β ω)) = [] := rfl

/-- The state after process `i` has performed `actions` and stands at `last`. -/
def advance (s : State ι β ω α) (i : ι) (actions : List (Action ι β ω)) (last : Prog ι β ω α) :
    State ι β ω α where
  proc := Function.update s.proc i last
  link := fun j k =>
    if j = i then s.link i k ++ writesTo k actions
    else if k = i then (s.link j i).drop (readsFrom j actions).length
    else s.link j k
  log := Function.update s.log i (s.log i ++ notes actions)

@[simp] theorem writesTo_wrote (k target : ι) (token : β) (actions : List (Action ι β ω)) :
    writesTo k (.wrote target token :: actions) =
      if target = k then token :: writesTo k actions else writesTo k actions := by
  by_cases same : target = k <;> simp [writesTo, same]

@[simp] theorem writesTo_got (k source : ι) (token : β) (actions : List (Action ι β ω)) :
    writesTo k (.got source token :: actions) = writesTo k actions := rfl

@[simp] theorem writesTo_noted (k : ι) (event : ω) (actions : List (Action ι β ω)) :
    writesTo k (.noted event :: actions) = writesTo k actions := rfl

@[simp] theorem readsFrom_wrote (k target : ι) (token : β) (actions : List (Action ι β ω)) :
    readsFrom k (.wrote target token :: actions) = readsFrom k actions := rfl

@[simp] theorem readsFrom_got (k source : ι) (token : β) (actions : List (Action ι β ω)) :
    readsFrom k (.got source token :: actions) =
      if source = k then token :: readsFrom k actions else readsFrom k actions := by
  by_cases same : source = k <;> simp [readsFrom, same]

@[simp] theorem readsFrom_noted (k : ι) (event : ω) (actions : List (Action ι β ω)) :
    readsFrom k (.noted event :: actions) = readsFrom k actions := rfl

omit [DecidableEq ι] in
@[simp] theorem notes_wrote (target : ι) (token : β) (actions : List (Action ι β ω)) :
    notes (.wrote target token :: actions) = notes actions := rfl

omit [DecidableEq ι] in
@[simp] theorem notes_got (source : ι) (token : β) (actions : List (Action ι β ω)) :
    notes (.got source token :: actions) = notes actions := rfl

omit [DecidableEq ι] in
@[simp] theorem notes_noted (event : ω) (actions : List (Action ι β ω)) :
    notes (.noted event :: actions) = event :: notes actions := rfl

theorem advance_nil (s : State ι β ω α) (i : ι) : advance s i [] (s.proc i) = s := by
  apply State.ext
  · simp [advance]
  · funext j k
    simp only [advance, writesTo_nil, readsFrom_nil, List.append_nil, List.length_nil,
      List.drop_zero]
    split_ifs with first second
    · rw [first]
    · rw [second]
    · rfl
  · simp [advance]

theorem advance_write {s t : State ι β ω α} {i target : ι} {token : β} {rest : Prog ι β ω α}
    (actions : List (Action ι β ω)) (last : Prog ι β ω α)
    (moved : t = { s with
      proc := Function.update s.proc i rest
      link := setLink s.link i target (s.link i target ++ [token]) }) :
    advance t i actions last = advance s i (.wrote target token :: actions) last := by
  subst moved
  apply State.ext
  · simp [advance]
  · funext j k
    by_cases sender : j = i
    · subst sender
      by_cases here : target = k
      · subst here; simp [advance]
      · have other : ¬ (j = j ∧ k = target) := fun both => here both.2.symm
        simp [advance, setLink_other _ _ other, here]
    · have other (k' : ι) : ¬ (j = i ∧ k' = target) := fun both => sender both.1
      simp [advance, sender, setLink_other _ _ (other _)]
  · simp [advance]

theorem advance_read {s t : State ι β ω α} {i source : ι} {token : β} {tokens : List β}
    {rest : Prog ι β ω α} (actions : List (Action ι β ω)) (last : Prog ι β ω α)
    (apart : source ≠ i) (ready : s.link source i = token :: tokens)
    (moved : t = { s with
      proc := Function.update s.proc i rest
      link := setLink s.link source i tokens }) :
    advance t i actions last = advance s i (.got source token :: actions) last := by
  subst moved
  apply State.ext
  · simp [advance]
  · funext j k
    by_cases sender : j = i
    · subst sender
      have other (k' : ι) : ¬ (j = source ∧ k' = j) := fun both => apart both.1.symm
      simp [advance, setLink_other _ _ (other _)]
    · by_cases here : source = j
      · subst here
        by_cases target : k = i
        · subst target; simp [advance, sender, ready]
        · have other : ¬ (source = source ∧ k = i) := fun both => target both.2
          simp [advance, sender, target, setLink_other _ _ other]
      · have other (k' : ι) : ¬ (j = source ∧ k' = i) := fun both => here both.1.symm
        simp [advance, sender, here, setLink_other _ _ (other _)]
  · simp [advance]

theorem advance_note {s t : State ι β ω α} {i : ι} {event : ω} {rest : Prog ι β ω α}
    (actions : List (Action ι β ω)) (last : Prog ι β ω α)
    (moved : t = { s with
      proc := Function.update s.proc i rest
      log := Function.update s.log i (s.log i ++ [event]) }) :
    advance t i actions last = advance s i (.noted event :: actions) last := by
  subst moved
  apply State.ext <;> simp [advance]

theorem exec_performs {s : State ι β ω α} {i : ι} {actions : List (Action ι β ω)}
    {last : Prog ι β ω α} (performs : Performs (s.proc i) actions last)
    (apart : readsFrom i actions = [])
    (ready : ∀ j, j ≠ i → readsFrom j actions <+: s.link j i) :
    exec (List.replicate actions.length i) s = some (advance s i actions last) := by
  generalize start : s.proc i = first at performs
  induction performs generalizing s with
  | rest p =>
      subst start
      rw [advance_nil]
      rfl
  | @write target token rest actions last _ ih =>
      rw [List.length_cons, List.replicate_succ, exec, step_write start, Option.bind_some,
        ← advance_write actions last rfl]
      apply ih apart
      · intro j other
        change readsFrom j actions <+: setLink s.link i target (s.link i target ++ [token]) j i
        rw [setLink_other _ _ (fun both => other both.1)]
        exact ready j other
      · simp
  | @read source token rest actions last _ ih =>
      have other : source ≠ i := by
        intro same
        rw [readsFrom_got, if_pos same] at apart
        cases apart
      obtain ⟨tail, queued⟩ := ready source other
      rw [readsFrom_got, if_pos rfl, List.cons_append] at queued
      rw [List.length_cons, List.replicate_succ, exec, step_read start queued.symm,
        Option.bind_some, ← advance_read actions last other queued.symm rfl]
      apply ih
      · rw [readsFrom_got, if_neg other] at apart
        exact apart
      · intro j sender
        change readsFrom j actions <+: setLink s.link source i (readsFrom source actions ++ tail) j i
        by_cases same : j = source
        · subst same
          rw [setLink_same]
          exact List.prefix_append _ _
        · rw [setLink_other _ _ (fun both => same both.1)]
          have waiting := ready j sender
          rwa [readsFrom_got, if_neg (Ne.symm same)] at waiting
      · simp
  | @note event rest actions last _ ih =>
      rw [List.length_cons, List.replicate_succ, exec, step_note start, Option.bind_some,
        ← advance_note actions last rfl]
      exact ih apart ready (by simp)

/-- What the processes of a round do and where they then stand. -/
structure Round (ι β ω α : Type) where
  actions : ι → List (Action ι β ω)
  last : ι → Prog ι β ω α

/-- Links are empty at both ends of a round; in between, what an early process has
written for a late one is under way. -/
def roundState (s : State ι β ω α) (r : Round ι β ω α) (ran : List ι) : State ι β ω α where
  proc := fun i => if i ∈ ran then r.last i else s.proc i
  link := fun i j => if i ∈ ran ∧ j ∉ ran then writesTo j (r.actions i) else []
  log := fun i => if i ∈ ran then s.log i ++ notes (r.actions i) else s.log i

/-- `order` runs every process after all those it reads from. -/
structure Runnable (s : State ι β ω α) (r : Round ι β ω α) (order : List ι) : Prop where
  performs : ∀ i ∈ order, Performs (s.proc i) (r.actions i) (r.last i)
  balanced : ∀ i j, readsFrom j (r.actions i) = writesTo i (r.actions j)
  idle : ∀ i, i ∉ order → r.actions i = []
  apart : ∀ i, readsFrom i (r.actions i) = []
  ordered : order.Pairwise fun i j => readsFrom j (r.actions i) = []
  nodup : order.Nodup

theorem roundState_advance {s : State ι β ω α} {r : Round ι β ω α} {ran later : List ι} {i : ι}
    (runnable : Runnable s r (ran ++ i :: later)) :
    advance (roundState s r ran) i (r.actions i) (r.last i) = roundState s r (ran ++ [i]) := by
  have fresh : i ∉ ran := by
    have := runnable.nodup
    grind
  have before : ∀ j ∈ ran, writesTo j (r.actions i) = [] := by
    intro j member
    rw [← runnable.balanced]
    have := List.pairwise_append.mp runnable.ordered
    exact this.2.2 j member i (by simp)
  have self : writesTo i (r.actions i) = [] := by
    rw [← runnable.balanced]
    exact runnable.apart i
  apply State.ext
  · funext j
    by_cases same : j = i
    · subst same; simp [advance, roundState]
    · simp [advance, roundState, same]
  · funext j k
    simp only [advance, roundState, List.mem_append, List.mem_singleton]
    by_cases sender : j = i
    · subst sender
      by_cases early : k ∈ ran
      · simp [fresh, early, before k early]
      · by_cases own : k = j
        · subst own; simp [fresh, self]
        · simp [fresh, early, own]
    · by_cases target : k = i
      · subst target
        rw [runnable.balanced]
        by_cases early : j ∈ ran <;> simp [sender, fresh, early]
      · simp [sender, target]
  · funext j
    by_cases same : j = i
    · subst same; simp [advance, roundState, fresh]
    · simp [advance, roundState, same]

theorem exec_round_from {s : State ι β ω α} {r : Round ι β ω α} (ran later : List ι)
    (runnable : Runnable s r (ran ++ later)) :
    ∃ schedule, exec schedule (roundState s r ran) = some (roundState s r (ran ++ later)) := by
  induction later generalizing ran with
  | nil => exact ⟨[], by simp [exec]⟩
  | cons i later ih =>
      have fresh : i ∉ ran := by
        have := runnable.nodup
        grind
      have performs : Performs ((roundState s r ran).proc i) (r.actions i) (r.last i) := by
        simp only [roundState, fresh, if_false]
        exact runnable.performs i (by simp)
      have ready : ∀ j, j ≠ i → readsFrom j (r.actions i) <+: (roundState s r ran).link j i := by
        intro j other
        by_cases early : j ∈ ran
        · simp [roundState, early, fresh, runnable.balanced]
        · -- nothing is read from a process that has not run yet
          have none : readsFrom j (r.actions i) = [] := by
            by_cases late : j ∈ later
            · have ordered := (List.pairwise_append.mp runnable.ordered).2.1
              exact (List.pairwise_cons.mp ordered).1 j late
            · rw [runnable.balanced, runnable.idle j (by simp [early, other, late])]
              rfl
          rw [none]
          exact List.nil_prefix
      have one := exec_performs performs (runnable.apart i) ready
      rw [roundState_advance runnable] at one
      obtain ⟨schedule, rest⟩ := ih (ran ++ [i]) (by simpa using runnable)
      refine ⟨List.replicate (r.actions i).length i ++ schedule, ?_⟩
      rw [exec_append, one, Option.bind_some, rest]
      simp

/-- A runnable round has a schedule that performs it and leaves every link empty. -/
theorem exec_round {s : State ι β ω α} {r : Round ι β ω α} {order : List ι}
    (empty : ∀ i j, s.link i j = []) (runnable : Runnable s r order) :
    ∃ schedule t, exec schedule s = some t ∧ (∀ i j, t.link i j = []) ∧
      (∀ i ∈ order, t.proc i = r.last i) ∧ (∀ i, i ∉ order → t.proc i = s.proc i) ∧
      (∀ i, t.log i = s.log i ++ notes (r.actions i)) := by
  obtain ⟨schedule, ran⟩ := exec_round_from [] order (by simpa using runnable)
  have start : roundState s r [] = s := by
    apply State.ext
    · simp [roundState]
    · funext i j; simp [roundState, empty]
    · simp [roundState]
  rw [start, List.nil_append] at ran
  refine ⟨schedule, _, ran, ?_, ?_, ?_, ?_⟩
  · intro i j
    simp only [roundState]
    split_ifs with under
    · rw [← runnable.balanced, runnable.idle j under.2]
      rfl
    · rfl
  · intro i member
    simp [roundState, member]
  · intro i outside
    simp [roundState, outside]
  · intro i
    by_cases member : i ∈ order
    · simp [roundState, member]
    · simp [roundState, member, runnable.idle i member]

/-- A round is runnable when both ends of every link agree on what `flow` carries over
it and everything flows towards larger keys. -/
theorem runnable_of_flow {s : State ι β ω α} {r : Round ι β ω α} {nodes : Finset ι}
    (flow : ι → ι → List β) (key : ι → Int)
    (performs : ∀ i ∈ nodes, Performs (s.proc i) (r.actions i) (r.last i))
    (reads : ∀ i ∈ nodes, ∀ j, readsFrom j (r.actions i) = flow j i)
    (writes : ∀ i ∈ nodes, ∀ j, writesTo j (r.actions i) = flow i j)
    (idle : ∀ i, i ∉ nodes → r.actions i = [])
    (inside : ∀ i j, flow i j ≠ [] → i ∈ nodes ∧ j ∈ nodes ∧ key i < key j) :
    ∃ order : List ι, (∀ i, i ∈ order ↔ i ∈ nodes) ∧ Runnable s r order := by
  have silent : ∀ i j, ¬ key i < key j → flow i j = [] := by
    intro i j late
    by_contra carries
    exact late (inside i j carries).2.2
  refine ⟨nodes.toList.mergeSort (fun i j => key i ≤ key j), by simp, ?_⟩
  refine ⟨fun i member => performs i (by simpa using member), ?_, ?_, ?_, ?_, ?_⟩
  · intro i j
    by_cases inI : i ∈ nodes <;> by_cases inJ : j ∈ nodes
    · rw [reads i inI, writes j inJ]
    · rw [reads i inI, idle j inJ, writesTo_nil]
      by_contra carries
      exact inJ (inside j i carries).1
    · rw [idle i inI, readsFrom_nil, writes j inJ]
      by_contra carries
      exact inI (inside j i (Ne.symm carries)).2.1
    · rw [idle i inI, idle j inJ, readsFrom_nil, writesTo_nil]
  · intro i outside
    exact idle i (by simpa using outside)
  · intro i
    by_cases inI : i ∈ nodes
    · rw [reads i inI]
      exact silent i i (lt_irrefl _)
    · rw [idle i inI, readsFrom_nil]
  · have sorted : (nodes.toList.mergeSort (fun i j => key i ≤ key j)).Pairwise
        (fun i j => key i ≤ key j) := by
      have ordered := @List.pairwise_mergeSort ι (fun i j => decide (key i ≤ key j))
        (by intro a b c; simp; omega) (by intro a b; simp; omega) nodes.toList
      simpa using ordered
    apply sorted.imp_of_mem
    intro i j memI _ before
    rw [reads i (by simpa using memI)]
    exact silent j i (not_lt.mpr before)
  · exact (List.mergeSort_perm _ _).nodup_iff.mpr nodes.nodup_toList

/-! ## Messages -/

section Messages

variable {γ : Type} (heard : β → ω)

def send (target : ι) : List β → Prog ι β ω Unit
  | [] => .done ()
  | token :: tokens => .write target token (send target tokens)

/-- Reads `n` tokens from `source`, noting each one as it arrives. -/
def receive (source : ι) : Nat → Prog ι β ω (List β)
  | 0 => .done []
  | n + 1 => .read source fun token => .note (heard token) do
      let tokens ← receive source n
      return token :: tokens

def sent (target : ι) (tokens : List β) : List (Action ι β ω) := tokens.map (.wrote target)

def received (source : ι) (tokens : List β) : List (Action ι β ω) :=
  tokens.flatMap fun token => [.got source token, .noted (heard token)]

omit [DecidableEq ι] in
theorem performs_send (target : ι) (tokens : List β) :
    Performs (send target tokens : Prog ι β ω Unit) (sent target tokens) (.done ()) := by
  induction tokens with
  | nil => exact .rest _
  | cons token tokens ih => exact .write ih

omit [DecidableEq ι] in
theorem performs_receive (source : ι) (tokens : List β) :
    Performs (receive heard source tokens.length) (received heard source tokens)
      (.done tokens) := by
  induction tokens with
  | nil => exact .rest _
  | cons token tokens ih =>
      exact .read (.note (ih.andThen fun rest => .done (token :: rest)))

@[simp] theorem writesTo_sent (k target : ι) (tokens : List β) :
    writesTo k (sent target tokens : List (Action ι β ω)) = if target = k then tokens else [] := by
  induction tokens with
  | nil => simp [sent]
  | cons token tokens ih =>
      change writesTo k (.wrote target token :: sent target tokens) = _
      rw [writesTo_wrote, ih]
      split_ifs <;> rfl

@[simp] theorem readsFrom_sent (k target : ι) (tokens : List β) :
    readsFrom k (sent target tokens : List (Action ι β ω)) = [] := by
  induction tokens with
  | nil => rfl
  | cons token tokens ih => exact ih

omit [DecidableEq ι] in
@[simp] theorem notes_sent (target : ι) (tokens : List β) :
    notes (sent target tokens : List (Action ι β ω)) = [] := by
  induction tokens with
  | nil => rfl
  | cons token tokens ih => exact ih

@[simp] theorem writesTo_received (k source : ι) (tokens : List β) :
    writesTo k (received heard source tokens) = [] := by
  induction tokens with
  | nil => rfl
  | cons token tokens ih => exact ih

@[simp] theorem readsFrom_received (k source : ι) (tokens : List β) :
    readsFrom k (received heard source tokens) = if source = k then tokens else [] := by
  induction tokens with
  | nil => simp [received]
  | cons token tokens ih =>
      change readsFrom k (.got source token :: .noted (heard token) ::
        received heard source tokens) = _
      rw [readsFrom_got, readsFrom_noted, ih]
      split_ifs <;> rfl

omit [DecidableEq ι] in
@[simp] theorem notes_received (source : ι) (tokens : List β) :
    notes (received heard source tokens) = tokens.map heard := by
  induction tokens with
  | nil => rfl
  | cons token tokens ih =>
      change heard token :: notes (received heard source tokens) = _
      rw [ih, List.map_cons]

omit [DecidableEq ι] in
theorem performs_forM (targets : List ι) (tokens : List β) :
    Performs (targets.forM fun target => (send target tokens : Prog ι β ω Unit))
      (targets.flatMap fun target => sent target tokens) (.done ()) := by
  induction targets with
  | nil => exact .rest _
  | cons target targets ih => exact (performs_send target tokens).bind ih

omit [DecidableEq ι] in
/-- Sources are read in turn and what each one says is worked into a running value. -/
theorem performs_foldlM (combine : γ → ι → Prog ι β ω γ) (result : γ → ι → γ)
    (speech : ι → List β) (sources : List ι)
    (one : ∀ value, ∀ source ∈ sources,
      Performs (combine value source) (received heard source (speech source))
        (.done (result value source)))
    (value : γ) :
    Performs (sources.foldlM combine value)
      (sources.flatMap fun source => received heard source (speech source))
      (.done (sources.foldl result value)) := by
  induction sources generalizing value with
  | nil => exact .rest _
  | cons source sources ih =>
      rw [List.foldlM_cons]
      exact (one value source (by simp)).bind
        (ih (fun value other member => one value other (by simp [member])) _)

theorem writesTo_flatMap_received (k : ι) (sources : List ι) (speech : ι → List β) :
    writesTo k (sources.flatMap fun source => received heard source (speech source)) = [] := by
  induction sources with
  | nil => rfl
  | cons source sources ih => simp [ih]

theorem readsFrom_flatMap_received (k : ι) (sources : List ι) (speech : ι → List β)
    (nodup : sources.Nodup) :
    readsFrom k (sources.flatMap fun source => received heard source (speech source)) =
      if k ∈ sources then speech k else [] := by
  induction sources with
  | nil => rfl
  | cons source sources ih =>
      obtain ⟨fresh, rest⟩ := List.nodup_cons.mp nodup
      rw [List.flatMap_cons, readsFrom_append, ih rest, readsFrom_received]
      by_cases here : source = k
      · subst here; simp [fresh]
      · simp [here, Ne.symm here]

theorem readsFrom_flatMap_sent (k : ι) (targets : List ι) (tokens : List β) :
    readsFrom k (targets.flatMap fun target =>
      (sent target tokens : List (Action ι β ω))) = [] := by
  induction targets with
  | nil => rfl
  | cons target targets ih => simp [ih]

theorem writesTo_flatMap_sent (k : ι) (targets : List ι) (tokens : List β)
    (nodup : targets.Nodup) :
    writesTo k (targets.flatMap fun target => (sent target tokens : List (Action ι β ω))) =
      if k ∈ targets then tokens else [] := by
  induction targets with
  | nil => rfl
  | cons target targets ih =>
      obtain ⟨fresh, rest⟩ := List.nodup_cons.mp nodup
      rw [List.flatMap_cons, writesTo_append, ih rest, writesTo_sent]
      by_cases here : target = k
      · subst here; simp [fresh]
      · simp [here, Ne.symm here]

omit [DecidableEq ι] in
theorem mem_notes_flatMap_received {event : ω} {sources : List ι} {speech : ι → List β}
    (noted : event ∈ notes (sources.flatMap fun source => received heard source (speech source))) :
    ∃ source ∈ sources, ∃ token ∈ speech source, event = heard token := by
  induction sources with
  | nil => simp at noted
  | cons source sources ih =>
      rw [List.flatMap_cons, notes_append, notes_received, List.mem_append, List.mem_map] at noted
      rcases noted with ⟨token, member, rfl⟩ | later
      · exact ⟨source, by simp, token, member, rfl⟩
      · obtain ⟨other, member, token, said, same⟩ := ih later
        exact ⟨other, by simp [member], token, said, same⟩

omit [DecidableEq ι] in
theorem notes_flatMap_sent (targets : List ι) (tokens : List β) :
    notes (targets.flatMap fun target => (sent target tokens : List (Action ι β ω))) = [] := by
  induction targets with
  | nil => rfl
  | cons target targets ih => simp [ih]

end Messages

/-! ## Phases

A phase takes all processes of a group from one piece of code to another, with
nothing under way on any link before or after. -/

structure Stands (nodes : Finset ι) (code : ι → Prog ι β ω α) (s : State ι β ω α) : Prop where
  quiet : ∀ i j, s.link i j = []
  inside : ∀ i ∈ nodes, s.proc i = code i
  outside : ∀ i, i ∉ nodes → ∃ value, s.proc i = .done value

def Phase (nodes : Finset ι) (code code' : ι → Prog ι β ω α) (events : ι → List ω) : Prop :=
  ∀ s, Stands nodes code s → ∃ schedule t, exec schedule s = some t ∧ Stands nodes code' t ∧
    ∀ i ∈ nodes, t.log i = s.log i ++ events i

section Phases

variable {nodes : Finset ι} {code code' code'' : ι → Prog ι β ω α} {events events' : ι → List ω}

theorem Phase.refl (code : ι → Prog ι β ω α) : Phase nodes code code (fun _ => []) := by
  intro s stands
  exact ⟨[], s, rfl, stands, by simp⟩

theorem Phase.trans (first : Phase nodes code code' events)
    (second : Phase nodes code' code'' events') :
    Phase nodes code code'' (fun i => events i ++ events' i) := by
  intro s stands
  obtain ⟨front, t, ranFront, standsT, logT⟩ := first s stands
  obtain ⟨back, u, ranBack, standsU, logU⟩ := second t standsT
  refine ⟨front ++ back, u, ?_, standsU, ?_⟩
  · rw [exec_append, ranFront, Option.bind_some, ranBack]
  · intro i member
    rw [logU i member, logT i member, List.append_assoc]

theorem Phase.congr (phase : Phase nodes code code' events)
    (start : ∀ i ∈ nodes, code'' i = code i) : Phase nodes code'' code' events := by
  intro s stands
  refine phase s ⟨stands.quiet, fun i member => ?_, stands.outside⟩
  rw [stands.inside i member, start i member]

/-- Everything that flows in a phase flows towards larger keys. -/
theorem phase_of_flow (actions : ι → List (Action ι β ω)) (flow : ι → ι → List β)
    (key : ι → Int)
    (performs : ∀ i ∈ nodes, Performs (code i) (actions i) (code' i))
    (reads : ∀ i ∈ nodes, ∀ j, readsFrom j (actions i) = flow j i)
    (writes : ∀ i ∈ nodes, ∀ j, writesTo j (actions i) = flow i j)
    (inside : ∀ i j, flow i j ≠ [] → i ∈ nodes ∧ j ∈ nodes ∧ key i < key j) :
    Phase nodes code code' (fun i => notes (actions i)) := by
  intro s stands
  let r : Round ι β ω α := ⟨fun i => if i ∈ nodes then actions i else [], code'⟩
  have here : ∀ i ∈ nodes, r.actions i = actions i := fun i member => if_pos member
  obtain ⟨order, members, round⟩ := runnable_of_flow (s := s) (r := r) flow key
    (fun i member => by
      rw [here i member, stands.inside i member]
      exact performs i member)
    (fun i member j => by rw [here i member, reads i member])
    (fun i member j => by rw [here i member, writes i member])
    (fun i outside => if_neg outside) inside
  obtain ⟨schedule, t, ran, quiet, moved, kept, logs⟩ := exec_round stands.quiet round
  refine ⟨schedule, t, ran, ⟨quiet, ?_, ?_⟩, ?_⟩
  · intro i member
    exact moved i ((members i).mpr member)
  · intro i outside
    rw [kept i (fun inOrder => outside ((members i).mp inOrder))]
    exact stands.outside i outside
  · intro i member
    rw [logs i, here i member]

/-- Processes that do nothing but move on. -/
theorem phase_silent (moved : ∀ i ∈ nodes, code i = code' i) :
    Phase nodes code code' (fun _ => []) :=
  (Phase.refl code').congr moved

theorem phase_note (event : ι → ω) (code : ι → Prog ι β ω α) :
    Phase nodes (fun i => .note (event i) (code i)) code (fun i => [event i]) :=
  phase_of_flow (fun i => [.noted (event i)]) (fun _ _ => []) (fun _ => 0)
    (fun _ _ => .note (.rest _)) (fun _ _ _ => rfl) (fun _ _ _ => rfl)
    (fun _ _ carries => absurd rfl carries)

/-- One complete schedule speaks for every run: each of them can be finished, and
all of them log the same events. -/
theorem phase_runs {s t : State ι β ω α} {schedule : List ι} {value : ι → α}
    (phase : Phase nodes code (fun i => .done (value i)) events) (stands : Stands nodes code s)
    (ran : exec schedule s = some t) :
    (∃ remaining final, exec remaining t = some final ∧ Finished final) ∧
    (∀ i ∈ nodes, t.log i <+: s.log i ++ events i) ∧
    (Finished t → Stands nodes (fun i => .done (value i)) t ∧
      ∀ i ∈ nodes, t.log i = s.log i ++ events i) := by
  obtain ⟨whole, final, complete, standsF, logs⟩ := phase s stands
  have ended : Finished final := by
    intro i
    by_cases member : i ∈ nodes
    · exact ⟨value i, standsF.inside i member⟩
    · exact standsF.outside i member
  refine ⟨?_, ?_, ?_⟩
  · obtain ⟨remaining, finish, _⟩ := run_completes complete ended ran
    exact ⟨remaining, final, finish, ended⟩
  · intro i member
    rw [← logs i member]
    exact run_log complete ended ran i
  · intro stopped
    rw [finished_unique complete ended ran stopped]
    exact ⟨standsF, logs⟩

theorem step_proc_ne {s t : State ι β ω α} {i j : ι} (taken : step s j = some t) (other : i ≠ j) :
    t.proc i = s.proc i := by
  rcases step_cases taken with ⟨_, _, _, -, rfl⟩ | ⟨_, _, _, _, -, -, rfl⟩ | ⟨_, _, -, rfl⟩ <;>
    exact Function.update_of_ne other ..

theorem exec_done {s t : State ι β ω α} {schedule : List ι} {i : ι} {value : α}
    (ran : exec schedule s = some t) (done : s.proc i = .done value) : t.proc i = .done value := by
  induction schedule generalizing s with
  | nil =>
      cases ran
      exact done
  | cons j schedule ih =>
      obtain ⟨u, taken, rest⟩ := Option.bind_eq_some_iff.mp ran
      refine ih rest ?_
      by_cases same : i = j
      · subst same
        simp [step, done] at taken
      · rw [step_proc_ne taken same]
        exact done

/-- A process that has broken off keeps a run from its end. -/
theorem exec_stop {s t : State ι β ω α} {schedule : List ι} {i : ι} (ran : exec schedule s = some t)
    (stopped : s.proc i = .stop) : t.proc i = .stop := by
  induction schedule generalizing s with
  | nil =>
      cases ran
      exact stopped
  | cons j schedule ih =>
      obtain ⟨u, taken, rest⟩ := Option.bind_eq_some_iff.mp ran
      apply ih rest
      by_cases same : i = j
      · subst same
        simp [step, stopped] at taken
      · rw [step_proc_ne taken same]
        exact stopped

/-- A process that has ended in some run of a phase has ended as in all others. -/
theorem phase_done {s t : State ι β ω α} {schedule : List ι} {value : ι → α} {i : ι} {last : α}
    (phase : Phase nodes code (fun i => .done (value i)) events) (stands : Stands nodes code s)
    (ran : exec schedule s = some t) (member : i ∈ nodes) (done : t.proc i = .done last) :
    last = value i := by
  obtain ⟨⟨remaining, final, rest, ended⟩, -, -⟩ := phase_runs phase stands ran
  have whole : exec (schedule ++ remaining) s = some final := by
    rw [exec_append, ran]
    exact rest
  have there := (phase_runs phase stands whole).2.2 ended
  have here := exec_done rest done
  rw [there.1.inside i member] at here
  exact (Prog.done.inj here).symm

end Phases

end Tmpi.Network
