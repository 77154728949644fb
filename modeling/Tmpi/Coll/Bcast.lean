import Tmpi.Coll.FreeList
import Tmpi.Coll.Recycling

/-! `bcast.c` with its lists of free handles: the broadcasts of one machine, where a handle that
has been freed is handed out again.

A step of a thread is one locked region or atomic operation with the code up to the next one;
inside the allocator it is one load, store or compare-and-swap. Memory does not run out. -/

namespace Tmpi.Coll

open Chain

/-- `tmpi_BCQueue`. -/
structure BCQueue where
  cells : Cells
  mem : Nat → BCHandle
  first : Option Nat
  cursor : Nat → Option Nat

/-- `tmpi_bcq_create`; `memory` is what `malloc` has returned. -/
def BCQueue.create (groupSize : Nat) (memory : Nat → BCHandle) : BCQueue where
  cells := .create groupSize
  mem := Function.update memory 0 { memory 0 with avail := 0 }
  first := some 0
  cursor _ := none

/-- Where a thread is inside `tmpi_bco_bcast`. -/
inductive BcastPc where
  | idle
  /-- The root is inside `tmpi_bch_alloc`. -/
  | alloc (item : Nat) (pc : AllocPc)
  | post (item newitem : Nat)
  /-- A receiver waits until `avail` is set. -/
  | await (item : Nat)
  /-- A receiver has copied, and has yet to count itself. -/
  | depart (item : Nat) (data : Buffer)
  /-- The last one to leave is inside `tmpi_bch_free`. -/
  | free (item : Nat) (pc : FreePc) (data : Buffer)
  deriving DecidableEq, Repr

/-- A broadcast that all threads make, each with its own `len`. -/
structure BcastCall where
  root : Nat
  len : Nat → Nat

/-- `tmpi_BcastObj` and the threads. `args` and `results` are what each thread's buffer has when
it makes a call and when it returns; `frees` counts how often the handle of a call has been passed
to `tmpi_bch_free`. -/
structure BcastObj where
  bcoArray : Nat → BCQueue
  pc : Nat → BcastPc
  call : Nat → Nat
  args : Nat → Nat → Buffer
  results : Nat → Nat → Option Buffer
  frees : Nat → Nat

namespace BcastObj

/-- `tmpi_bco_create`, before the first call. -/
def create (groupSize : Nat) (memory : Nat → Nat → BCHandle) : BcastObj where
  bcoArray r := .create groupSize (memory r)
  pc _ := .idle
  call _ := 0
  args _ _ := []
  results _ _ := none
  frees _ := 0

variable (groupSize : Nat) (s : BcastObj) (t : Nat)

def setQueue (root : Nat) (q : BCQueue) : BcastObj :=
  { s with bcoArray := Function.update s.bcoArray root q }

def goto (pc : BcastPc) : BcastObj := { s with pc := Function.update s.pc t pc }

def pass (data : Buffer) : BcastObj :=
  { s with args := Function.update s.args (s.call t) (Function.update (s.args (s.call t)) t data) }

def leave (data : Buffer) : BcastObj :=
  { s with
    pc := Function.update s.pc t .idle
    call := Function.update s.call t (s.call t + 1)
    results := Function.update s.results (s.call t)
      (Function.update (s.results (s.call t)) t (some data)) }

/-- Thread `t` makes its next call. -/
def enter (data : Buffer) (c : BcastCall) : Option BcastObj :=
  if groupSize < 2 then some ((s.pass t data).leave t data)
  else
    let q := s.bcoArray c.root
    ((q.cursor t).or q.first).map fun item =>
      (s.pass t data).goto t (if t = c.root then .alloc item .head else .await item)

def tmpiBcoBcast (c : BcastCall) : Option BcastObj :=
  let q := s.bcoArray c.root
  let data := s.args (s.call t) t
  match s.pc t with
  | .idle => none
  | .alloc item pc =>
      match allocStep groupSize q.cells pc with
      | (cells, .inl pc) => some ((s.setQueue c.root { q with cells }).goto t (.alloc item pc))
      | (cells, .inr newitem) =>
          some ((s.setQueue c.root { q with cells }).goto t (.post item newitem))
  | .post item newitem =>
      let cells := (q.cells.setNext newitem none).setNext item (some newitem)
      let mem := Function.update q.mem newitem { q.mem newitem with avail := 0 }
      let mem := Function.update mem item ⟨1, data.take (c.len t), c.len t⟩
      let cursor := Function.update q.cursor t (some newitem)
      some ((s.setQueue c.root { q with cells, mem, cursor }).leave t data)
  | .await item =>
      let handle := q.mem item
      if handle.avail = 0 then none
      else
        let data := memcpy data handle.data (min (c.len t) handle.len)
        let cursor := Function.update q.cursor t (q.cells.next item)
        some ((s.setQueue c.root { q with cursor }).goto t (.depart item data))
  | .depart item data =>
      let handle := { q.mem item with avail := (q.mem item).avail + 1 }
      let q := { q with mem := Function.update q.mem item handle }
      if handle.avail = groupSize then
        let frees := Function.update s.frees (s.call t) (s.frees (s.call t) + 1)
        some (({ s with frees }.setQueue c.root { q with first := q.cells.next item }).goto t
          (.free item .head data))
      else some ((s.setQueue c.root q).leave t data)
  | .free item pc data =>
      match freeStep q.cells item pc with
      | (cells, some pc) => some ((s.setQueue c.root { q with cells }).goto t (.free item pc data))
      | (cells, none) => some ((s.setQueue c.root { q with cells }).leave t data)

inductive Act where
  | enter (t : Nat) (data : Buffer)
  | run (t : Nat)

def Act.thread : Act → Nat
  | .enter t _ => t
  | .run t => t

/-- A step of a machine whose threads make the `calls`, in their order. -/
def step (calls : List BcastCall) : Act → Option BcastObj
  | .enter t data =>
      if s.pc t ≠ .idle then none
      else (calls[s.call t]?).bind (s.enter groupSize t data)
  | .run t => (calls[s.call t]?).bind (s.tmpiBcoBcast groupSize t)

/-- Runs of the threads `0, .., groupSize - 1`. -/
inductive Reach (calls : List BcastCall) : BcastObj → Prop where
  | create (memory : Nat → Nat → BCHandle) : Reach calls (create groupSize memory)
  | step {s₁ s₂ act} : Reach calls s₁ → act.thread < groupSize →
      s₁.step groupSize calls act = some s₂ → Reach calls s₂


/-- The run of some actions. -/
def run (calls : List BcastCall) : BcastObj → List Act → Option BcastObj
  | s, [] => some s
  | s, act :: acts => (s.step groupSize calls act).bind fun s => run calls s acts

variable {groupSize s} in
theorem Reach.run {calls : List BcastCall} {s' : BcastObj} {acts : List Act}
    (reach : Reach groupSize calls s) (inside : ∀ act ∈ acts, act.thread < groupSize)
    (runs : s.run groupSize calls acts = some s') : Reach groupSize calls s' := by
  induction acts generalizing s with
  | nil => exact Option.some.inj runs ▸ reach
  | cons act acts ih =>
      obtain ⟨mid, taken, rest⟩ := Option.bind_eq_some_iff.mp runs
      exact ih (.step reach (inside act List.mem_cons_self) taken)
        (fun a later => inside a (List.mem_cons_of_mem act later)) rest

end BcastObj

/-! ## The handles at their addresses -/

/-- The call with the root's length. -/
def BcastCall.collective (c : BcastCall) : Collective := .bcast c.root (c.len c.root)

/-- The root of call `k`. -/
def rootAt (calls : List BcastCall) (k : Nat) : Option Nat := calls[k]?.map (·.root)

namespace BcastPc

def handlePc : BcastPc → HandlePc
  | .alloc _ pc => .alloc pc
  | .free item pc _ => .free item pc
  | _ => .idle

/-- Has counted itself, and frees the handle because it was the last one. -/
def leaving : BcastPc → Bool
  | .free .. => true
  | _ => false

/-- The place of a thread where handles are not handed out again. -/
inductive Shows (addr : Nat → Nat) : BcastPc → Pc → Prop where
  | idle : Shows addr .idle .idle
  | alloc (a : Nat) (pc : AllocPc) : Shows addr (.alloc (addr a) pc) (.post a)
  | post (a newitem : Nat) : Shows addr (.post (addr a) newitem) (.post a)
  | await (a : Nat) : Shows addr (.await (addr a)) (.await a)
  | depart (a : Nat) (data data' : Buffer) :
      Shows addr (.depart (addr a) data) (.depart a data')
  | free (item : Nat) (pc : FreePc) (data : Buffer) : Shows addr (.free item pc data) .idle

end BcastPc

/-- What is stored for a handle: before the root has posted, only `avail` matters. -/
def BCHandle.Stores (stored handle : BCHandle) : Prop :=
  stored.avail = handle.avail ∧ (handle.avail ≠ 0 → stored = handle)

section Tracks

variable (n : Nat) (calls : List BcastCall)

/-- The allocator of a queue, and what each thread does with it. -/
def BcastObj.handles (c : BcastObj) (r : Nat) (held : Nat → Nat) : Handles where
  cells := (c.bcoArray r).cells
  pc t := if rootAt calls (c.call t) = some r then (c.pc t).handlePc else .idle
  held := held

def BcastObj.Uses (s : Objects) (r m a : Nat) : Prop :=
  Used (bcastKind n r) (calls.map BcastCall.collective) s (s.bco r) m a

/-- The queue of the broadcasts from thread `r`, of which `m` are finished. -/
structure Tracks (c : BcastObj) (s : Objects) (r m : Nat) (addr held : Nat → Nat) : Prop where
  window : Window (bcastKind n r) (calls.map BcastCall.collective) s (s.bco r) m
  attained : ∃ t < n, turn (bcastKind n r).on (calls.map BcastCall.collective) (s.call t) = m
  mirror : Mirror n BCHandle.Stores (BcastObj.Uses n calls s r m) addr (s.bco r)
    (c.bcoArray r).mem (c.bcoArray r).cells.next (c.bcoArray r).first (c.bcoArray r).cursor
  handles : Handles.Reach n (Handles.Sole r) (c.handles calls r held)
  inUse : ∀ a, BcastObj.Uses n calls s r m a → 0 < held (addr a)
  new : ∀ t < n, ∀ item newitem, c.pc t = .post item newitem → rootAt calls (c.call t) = some r →
    t = r ∧ 0 < held newitem ∧ ∀ a, BcastObj.Uses n calls s r m a → addr a ≠ newitem
  frees : ∀ k, rootAt calls k = some r → c.frees k =
    if turn (bcastKind n r).on (calls.map BcastCall.collective) k < m then 1 else 0

/-- A run in which no handle is handed out again, and where its handles are stored. -/
structure Follows (c : BcastObj) (s : Objects) (m : Nat → Nat) (addr held : Nat → Nat → Nat) :
    Prop where
  reach : Reach n (calls.map BcastCall.collective) s
  call : ∀ t < n, s.call t = c.call t + if (c.pc t).leaving then 1 else 0
  pc : ∀ t < n, ∃ r, (c.pc t = .idle ∨ rootAt calls (c.call t) = some r) ∧
    (c.pc t).Shows (addr r) (s.pc t)
  args : ∀ k, ∀ t < n, (s.args k t).data = c.args k t
  queues : ∀ r, Tracks n calls c s r (m r) (addr r) (held r)

end Tracks

section Steps

variable {n : Nat} {calls : List BcastCall} {c c' : BcastObj} {s s' : Objects} {m : Nat → Nat}
  {addr held : Nat → Nat → Nat} {r t : Nat}

theorem on_iff {k : Nat} : onCall (bcastKind n r).on (calls.map BcastCall.collective) k = true ↔
    rootAt calls k = some r := by
  rw [onCall, rootAt, List.getElem?_map]
  cases calls[k]? with
  | none => simp
  | some c => simp [BcastCall.collective, bcastKind]

theorem create_follows (several : 2 ≤ n) (memory : Nat → Nat → BCHandle) :
    Follows n calls (.create n memory) create (fun _ => 0) (fun _ a => a)
      (fun _ h => if h = 0 then 1 else 0) where
  reach := .create
  call _ _ := rfl
  pc _ _ := ⟨0, .inl rfl, .idle⟩
  args _ _ _ := rfl
  queues r := by
    have used : ∀ a, BcastObj.Uses n calls create r 0 a → a = 0 := by
      rintro a (⟨i, -, here⟩ | ⟨t, -, -, spare⟩)
      · cases i with
        | zero => exact (Option.some.inj here).symm
        | succ i =>
            rw [nth_none (i := 1) rfl (by omega)] at here
            cases here
      · cases spare
    refine ⟨⟨⟨0, rfl, rfl⟩, fun t _ => Nat.zero_le _⟩, ⟨0, by omega, rfl⟩, ⟨?_, ?_, rfl, ?_, ?_⟩, ?_,
      ?_, nofun, fun _ _ => rfl⟩
    · intro a here
      rw [used a here]
      exact ⟨rfl, fun posted => absurd rfl posted⟩
    · intro a here
      rw [used a here]
      change (Cells.create n).next 0 = none
      simp [Cells.create]
    · exact fun t _ => rfl
    · intro a b here there _
      rw [used a here, used b there]
    · have start : (BcastObj.create n memory).handles calls r (fun h => if h = 0 then 1 else 0) =
          Handles.create n := by
        rw [BcastObj.handles, Handles.create, Handles.mk.injEq]
        refine ⟨rfl, ?_, rfl⟩
        funext t
        exact ite_self _
      rw [start]
      exact .create
    · intro a here
      rw [used a here]
      exact Nat.one_pos

/-! ### What a step leaves alone -/

variable {root : Nat} {q : BCQueue}

theorem handles_goto (here : rootAt calls (c.call t) = some root) (pc : BcastPc)
    (held' : Nat → Nat) : ((c.setQueue root q).goto t pc).handles calls root held' =
      Handles.goto { c.handles calls root held' with cells := q.cells } t pc.handlePc := by
  simp only [BcastObj.handles, Handles.goto, Handles.mk.injEq]
  refine ⟨?_, ?_, trivial⟩
  · simp [BcastObj.goto, BcastObj.setQueue]
  · funext u
    by_cases self : u = t
    · subst self
      simp [BcastObj.goto, BcastObj.setQueue, here]
    · simp [BcastObj.goto, BcastObj.setQueue, self]

theorem handles_leave (data : Buffer) (held' : Nat → Nat) :
    ((c.setQueue root q).leave t data).handles calls root held' =
      Handles.goto { c.handles calls root held' with cells := q.cells } t .idle := by
  simp only [BcastObj.handles, Handles.goto, Handles.mk.injEq]
  refine ⟨?_, ?_, trivial⟩
  · simp [BcastObj.leave, BcastObj.setQueue]
  · funext u
    by_cases self : u = t
    · subst self
      simp [BcastObj.leave, BcastObj.setQueue, BcastPc.handlePc]
    · simp [BcastObj.leave, BcastObj.setQueue, self]

/-- What a step in a call on the queue of `root` leaves alone. -/
structure Turns (c c' : BcastObj) (t root : Nat) (q : BCQueue) : Prop where
  queues : c'.bcoArray = Function.update c.bcoArray root q
  pc : ∀ u, u ≠ t → c'.pc u = c.pc u
  call : ∀ u, u ≠ t → c'.call u = c.call u
  own : c'.call t = c.call t ∨ c'.call t = c.call t + 1 ∧ c'.pc t = .idle
  frees : ∀ k, k ≠ c.call t → c'.frees k = c.frees k

theorem turns_goto (c : BcastObj) (root t : Nat) (q : BCQueue) (pc : BcastPc) :
    Turns c ((c.setQueue root q).goto t pc) t root q :=
  ⟨rfl, fun _ other => Function.update_of_ne other _ _, fun _ _ => rfl, .inl rfl, fun _ _ => rfl⟩

theorem turns_leave (c : BcastObj) (root t : Nat) (q : BCQueue) (data : Buffer) :
    Turns c ((c.setQueue root q).leave t data) t root q :=
  ⟨rfl, fun _ other => Function.update_of_ne other _ _,
    fun _ other => Function.update_of_ne other _ _,
    .inr ⟨Function.update_self _ _ _, Function.update_self _ _ _⟩, fun _ _ => rfl⟩

theorem Turns.handles_other (turns : Turns c c' t root q)
    (here : rootAt calls (c.call t) = some root) (away : r ≠ root) (held' : Nat → Nat) :
    c'.handles calls r held' = c.handles calls r held' := by
  have other : rootAt calls (c.call t) ≠ some r := fun same => by
    rw [here, Option.some.injEq] at same
    exact away same.symm
  simp only [BcastObj.handles, Handles.mk.injEq, turns.queues, Function.update_of_ne away, true_and,
    and_true]
  funext u
  by_cases self : u = t
  · subst self
    rw [if_neg other]
    rcases turns.own with stays | ⟨-, left⟩
    · rw [stays, if_neg other]
    · rw [left]
      exact ite_self _
  · rw [turns.pc u self, turns.call u self]

/-- The queues of the other roots. -/
theorem Tracks.other {m : Nat} {addr held : Nat → Nat} (tracks : Tracks n calls c s r m addr held)
    (turns : Turns c c' t root q) (here : rootAt calls (c.call t) = some root) (away : r ≠ root)
    (moves : Moves s s' t) (off : onCall (bcastKind n r).on (calls.map BcastCall.collective)
      (s.call t) = false ∨ s' = s)
    (queue : s'.bco r = s.bco r) : Tracks n calls c' s' r m addr held := by
  have same : ∀ u, turn (bcastKind n r).on (calls.map BcastCall.collective) (s'.call u) =
      turn (bcastKind n r).on (calls.map BcastCall.collective) (s.call u) := by
    intro u
    rcases off with off | rfl
    · by_cases self : u = t
      · subst self
        rcases moves.own with stays | ⟨ahead, -⟩
        · rw [stays]
        · rw [ahead, turn_succ, off]
          simp
      · rw [moves.call u self]
    · rfl
  have fewer : ∀ a, BcastObj.Uses n calls s' r m a → BcastObj.Uses n calls s r m a := by
    intro a used
    rcases off with off | rfl
    · unfold BcastObj.Uses at used
      rw [queue] at used
      exact used_other moves off used
    · exact used
  have array : c'.bcoArray r = c.bcoArray r := by
    rw [turns.queues, Function.update_of_ne away]
  refine ⟨⟨?_, fun u inside => ?_⟩, ?_, ?_, ?_, fun a used => tracks.inUse a (fewer a used), ?_,
    fun k on => ?_⟩
  · rw [queue]
    exact tracks.window.first
  · rw [same u]
    exact tracks.window.behind u inside
  · obtain ⟨u, inside, least⟩ := tracks.attained
    exact ⟨u, inside, (same u).trans least⟩
  · rw [array, queue]
    exact tracks.mirror.shrink fewer
  · rw [turns.handles_other here away]
    exact tracks.handles
  · intro u inside item newitem at' on
    by_cases self : u = t
    · subst self
      rcases turns.own with stays | ⟨-, left⟩
      · rw [stays, here, Option.some.injEq] at on
        exact absurd on.symm away
      · rw [left] at at'
        cases at'
    · rw [turns.pc u self] at at'
      rw [turns.call u self] at on
      obtain ⟨sole, holds, apart⟩ := tracks.new u inside item newitem at' on
      exact ⟨sole, holds, fun a used => apart a (fewer a used)⟩
  · rw [turns.frees k]
    · exact tracks.frees k on
    · rintro rfl
      rw [here, Option.some.injEq] at on
      exact away on.symm

theorem BcastPc.Shows.congr {addr addr' : Nat → Nat} {pc : BcastPc} {pc' : Pc}
    (shows' : pc.Shows addr pc') (same : ∀ a, pc'.item = some a → addr' a = addr a) :
    pc.Shows addr' pc' := by
  cases shows' with
  | idle => exact .idle
  | alloc a pc => exact same a rfl ▸ .alloc a pc
  | post a newitem => exact same a rfl ▸ .post a newitem
  | await a => exact same a rfl ▸ .await a
  | depart a data data' => exact same a rfl ▸ .depart a data data'
  | free item pc data => exact .free item pc data

theorem BcastPc.Shows.item_busy {addr : Nat → Nat} {pc : BcastPc} {pc' : Pc} {a : Nat}
    (shows' : pc.Shows addr pc') (item : pc'.item = some a) :
    pc ≠ .idle ∧ pc.leaving = false := by
  cases shows' with
  | idle | free => cases item
  | _ => exact ⟨nofun, rfl⟩

/-- The handle of a thread is in use. -/
theorem Follows.used_item (follows : Follows n calls c s m addr held) (several : 2 ≤ n)
    (inside : t < n) {a : Nat} (item : (s.pc t).item = some a) : ∃ r,
    rootAt calls (c.call t) = some r ∧ s.call t = c.call t ∧ (c.pc t).Shows (addr r) (s.pc t) ∧
      BcastObj.Uses n calls s r (m r) a := by
  obtain ⟨r, here, shows'⟩ := follows.pc t inside
  obtain ⟨busy, staying⟩ := shows'.item_busy item
  have on : rootAt calls (c.call t) = some r := here.resolve_left busy
  have level : s.call t = c.call t := by
    rw [follows.call t inside, staying]
    rfl
  have inv := (reach_invariant several follows.reach).bco r
  refine ⟨r, on, level, shows', (follows.queues r).window.used_item inv inside ?_ item⟩
  rw [level]
  exact on_iff.mpr on

/-- A step in a call on the queue of `root`. -/
theorem Follows.step (follows : Follows n calls c s m addr held) (several : 2 ≤ n)
    (inside : t < n) (here : rootAt calls (c.call t) = some root) (turns : Turns c c' t root q)
    (moves : Moves s s' t) (off : s.call t = c.call t ∨ s' = s)
    (queues : ∀ r, r ≠ root → s'.bco r = s.bco r)
    (reach : Coll.Reach n (calls.map BcastCall.collective) s')
    (call : s'.call t = c'.call t + if (c'.pc t).leaving then 1 else 0)
    (args : ∀ k, ∀ u < n, (s'.args k u).data = c'.args k u) {addr' held' : Nat → Nat} {m' : Nat}
    (agree : ∀ a, BcastObj.Uses n calls s root (m root) a → addr' a = addr root a)
    (pc : (c'.pc t).Shows addr' (s'.pc t))
    (tracks : Tracks n calls c' s' root m' addr' held') :
    Follows n calls c' s' (Function.update m root m') (Function.update addr root addr')
      (Function.update held root held') where
  reach := reach
  call u low := by
    by_cases self : u = t
    · subst self
      exact call
    · rw [turns.pc u self, turns.call u self, moves.call u self]
      exact follows.call u low
  pc u low := by
    by_cases self : u = t
    · subst self
      rcases turns.own with stays | ⟨-, left⟩
      · refine ⟨root, .inr (stays ▸ here), ?_⟩
        rw [Function.update_self]
        exact pc
      · refine ⟨root, .inl left, ?_⟩
        rw [Function.update_self]
        exact pc
    · rw [turns.pc u self, turns.call u self, moves.pc u self]
      obtain ⟨r, on, shows'⟩ := follows.pc u low
      refine ⟨r, on, ?_⟩
      by_cases same : r = root
      · subst same
        rw [Function.update_self]
        refine shows'.congr fun a item => agree a ?_
        obtain ⟨r', on', -, -, used⟩ := follows.used_item several low item
        obtain ⟨busy, -⟩ := shows'.item_busy item
        have equal := on.resolve_left busy
        rw [on', Option.some.injEq] at equal
        exact equal ▸ used
      · rw [Function.update_of_ne same]
        exact shows'
  args := args
  queues r := by
    by_cases same : r = root
    · subst same
      simp only [Function.update_self]
      exact tracks
    · simp only [Function.update_of_ne same]
      refine (follows.queues r).other turns here same moves (off.imp (fun level => ?_) id)
        (queues r same)
      rw [Bool.eq_false_iff, ne_eq, on_iff, level, here, Option.some.injEq]
      exact Ne.symm same

/-! ### Steps inside the allocator -/

/-- A step inside `tmpi_bch_alloc` or `tmpi_bch_free`. -/
theorem Tracks.internal {m : Nat} {addr held held' : Nat → Nat}
    (tracks : Tracks n calls c s root m addr held) (several : 2 ≤ n)
    {cells : Cells} (turns : Turns c c' t root { c.bcoArray root with cells })
    (goes : (c.handles calls root held).step n (.run t) = some (c'.handles calls root held'))
    (grows : ∀ h, held h ≤ held' h)
    (new : ∀ item newitem, c'.pc t = .post item newitem →
      t = root ∧ 0 < held' newitem ∧ held newitem = 0) (frees : c'.frees = c.frees) :
    Tracks n calls c' s root m addr held' where
  window := tracks.window
  attained := tracks.attained
  mirror := by
    rw [turns.queues, Function.update_self]
    refine tracks.mirror.congr fun a used => ⟨rfl, ?_⟩
    have kept := Handles.sole_held several tracks.handles goes (tracks.inUse a used)
    simp only [BcastObj.handles, turns.queues, Function.update_self] at kept
    exact kept
  handles := .step tracks.handles (fun _ same => by cases same) goes
  inUse a used := Nat.lt_of_lt_of_le (tracks.inUse a used) (grows _)
  new u inside item newitem at' on := by
    by_cases self : u = t
    · subst self
      obtain ⟨sole, holds, before⟩ := new item newitem at'
      refine ⟨sole, holds, fun a used same => ?_⟩
      have := tracks.inUse a used
      rw [same, before] at this
      exact Nat.lt_irrefl 0 this
    · rw [turns.pc u self] at at'
      rw [turns.call u self] at on
      obtain ⟨sole, holds, apart⟩ := tracks.new u inside item newitem at' on
      exact ⟨sole, Nat.lt_of_lt_of_le holds (grows _), apart⟩
  frees := by
    rw [frees]
    exact tracks.frees

theorem handles_pc (here : rootAt calls (c.call t) = some root) (held' : Nat → Nat) :
    (c.handles calls root held').pc t = (c.pc t).handlePc := if_pos here

theorem rootAt_of {d : BcastCall} {k : Nat} (call : calls[k]? = some d) :
    rootAt calls k = some d.root := by
  rw [rootAt, call]
  rfl

theorem BcastPc.Shows.of_idle {addr : Nat → Nat} {pc' : Pc}
    (shows' : BcastPc.idle.Shows addr pc') : pc' = .idle := by
  cases shows' with
  | idle => rfl

theorem BcastPc.Shows.of_alloc {addr : Nat → Nat} {item : Nat} {pc : AllocPc} {pc' : Pc}
    (shows' : (BcastPc.alloc item pc).Shows addr pc') : ∃ a, item = addr a ∧ pc' = .post a := by
  cases shows' with
  | alloc a => exact ⟨a, rfl, rfl⟩

theorem BcastPc.Shows.of_post {addr : Nat → Nat} {item newitem : Nat} {pc' : Pc}
    (shows' : (BcastPc.post item newitem).Shows addr pc') : ∃ a, item = addr a ∧ pc' = .post a := by
  cases shows' with
  | post a => exact ⟨a, rfl, rfl⟩

theorem BcastPc.Shows.of_await {addr : Nat → Nat} {item : Nat} {pc' : Pc}
    (shows' : (BcastPc.await item).Shows addr pc') : ∃ a, item = addr a ∧ pc' = .await a := by
  cases shows' with
  | await a => exact ⟨a, rfl, rfl⟩

theorem BcastPc.Shows.of_depart {addr : Nat → Nat} {item : Nat} {data : Buffer} {pc' : Pc}
    (shows' : (BcastPc.depart item data).Shows addr pc') :
    ∃ a data', item = addr a ∧ pc' = .depart a data' := by
  cases shows' with
  | depart a _ data' => exact ⟨a, data', rfl, rfl⟩

theorem BcastPc.Shows.of_free {addr : Nat → Nat} {item : Nat} {pc : FreePc} {data : Buffer}
    {pc' : Pc} (shows' : (BcastPc.free item pc data).Shows addr pc') : pc' = .idle := by
  cases shows' with
  | free => rfl

theorem Follows.shows (follows : Follows n calls c s m addr held) (inside : t < n) {d : BcastCall}
    (call : calls[c.call t]? = some d) {pc : BcastPc} (at' : c.pc t = pc) (busy : pc ≠ .idle) :
    pc.Shows (addr d.root) (s.pc t) := by
  subst at'
  obtain ⟨r, on, shows'⟩ := follows.pc t inside
  have same := on.resolve_left busy
  rw [rootAt_of call, Option.some.injEq] at same
  exact same ▸ shows'

/-- A run in which no handle is handed out again corresponds to every run. -/
def Followed (n : Nat) (calls : List BcastCall) (c : BcastObj) : Prop :=
  ∃ s m addr held, Follows n calls c s m addr held

theorem Follows.internal (follows : Follows n calls c s m addr held) (several : 2 ≤ n)
    (inside : t < n) {d : BcastCall} (call : calls[c.call t]? = some d)
    (turns : Turns c c' t d.root q) {held' : Nat → Nat}
    (level : s.call t = c'.call t + if (c'.pc t).leaving then 1 else 0) (args : c'.args = c.args)
    (pc : (c'.pc t).Shows (addr d.root) (s.pc t))
    (tracks : Tracks n calls c' s d.root (m d.root) (addr d.root) held') :
    Followed n calls c' :=
  ⟨s, _, _, _, follows.step several inside (rootAt_of call) turns (moves_stay s t) (.inr rfl)
    (fun _ _ => rfl) follows.reach level (args ▸ follows.args) (fun _ _ => rfl) pc tracks⟩

/-- A handle that an allocation returns is not held. -/
theorem Tracks.unheld {m : Nat} {addr held : Nat → Nat}
    (tracks : Tracks n calls c s root m addr held) (several : 2 ≤ n)
    (here : rootAt calls (c.call t) = some root) {item newitem : Nat} {pc : AllocPc} {cells : Cells}
    (at' : c.pc t = .alloc item pc)
    (made : allocStep n (c.bcoArray root).cells pc = (cells, .inr newitem)) :
    held newitem = 0 := by
  have inside : (c.handles calls root held).pc t = .alloc pc := by
    rw [handles_pc here, at']
    rfl
  have reach := tracks.handles.step (fun _ same => by cases same)
    (Handles.run_alloc_ends inside made)
  have alone := (Handles.sole_exclusive several reach (h := newitem) (by
    simp [BcastObj.handles, Handles.goto])).once
  simpa [BcastObj.handles, Handles.goto] using alone

theorem alloc_follows (follows : Follows n calls c s m addr held) (several : 2 ≤ n)
    (inside : t < n) {d : BcastCall} (call : calls[c.call t]? = some d) {item : Nat} {pc : AllocPc}
    (at' : c.pc t = .alloc item pc) (taken : c.tmpiBcoBcast n t d = some c') :
    Followed n calls c' := by
  have here := rootAt_of call
  have tracks := follows.queues d.root
  obtain ⟨a, rfl, there⟩ := (follows.shows inside call at' nofun).of_alloc
  have level : s.call t = c.call t := by simpa [at', BcastPc.leaving] using follows.call t inside
  have at'' : (c.handles calls d.root (held d.root)).pc t = .alloc pc := by
    rw [handles_pc here, at']
    rfl
  have sole : t = d.root := Handles.sole_alloc several tracks.handles at''
  simp only [BcastObj.tmpiBcoBcast, at'] at taken
  split at taken
  next cells pc' made =>
    rw [Option.some.injEq] at taken
    subst taken
    have turns := turns_goto c d.root t { c.bcoArray d.root with cells } (.alloc (addr d.root a) pc')
    refine follows.internal several inside call turns ?_ rfl ?_
      (tracks.internal several turns ?_ (fun _ => le_rfl) ?_ rfl)
    · simpa [BcastObj.goto, BcastObj.setQueue, BcastPc.leaving] using level
    · rw [there]
      simpa [BcastObj.goto] using BcastPc.Shows.alloc a pc'
    · rw [Handles.run_alloc at'' made, handles_goto here]
      rfl
    · intro item newitem same
      simp [BcastObj.goto] at same
  next cells newitem made =>
    rw [Option.some.injEq] at taken
    subst taken
    have turns := turns_goto c d.root t { c.bcoArray d.root with cells }
      (.post (addr d.root a) newitem)
    have goes : (c.handles calls d.root (held d.root)).step n (.run t) =
        some (((c.setQueue d.root { c.bcoArray d.root with cells }).goto t
          (.post (addr d.root a) newitem)).handles calls d.root
            (Function.update (held d.root) newitem (held d.root newitem + 1))) := by
      rw [Handles.run_alloc_ends at'' made, handles_goto here]
      rfl
    have once := tracks.unheld several here at' made
    refine follows.internal several inside call turns ?_ rfl ?_
      (tracks.internal several turns goes ?_ ?_ rfl)
    · simpa [BcastObj.goto, BcastObj.setQueue, BcastPc.leaving] using level
    · rw [there]
      simpa [BcastObj.goto] using BcastPc.Shows.post a newitem
    · intro h
      by_cases self : h = newitem
      · subst self
        simp
      · simp [self]
    · intro item new same
      have equal : newitem = new := by
        simp [BcastObj.goto] at same
        exact same.2
      subst equal
      exact ⟨sole, by simp, once⟩

theorem free_follows (follows : Follows n calls c s m addr held) (several : 2 ≤ n)
    (inside : t < n) {d : BcastCall} (call : calls[c.call t]? = some d) {item : Nat} {pc : FreePc}
    {data : Buffer} (at' : c.pc t = .free item pc data) (taken : c.tmpiBcoBcast n t d = some c') :
    Followed n calls c' := by
  have here := rootAt_of call
  have tracks := follows.queues d.root
  have there := (follows.shows inside call at' nofun).of_free
  have level : s.call t = c.call t + 1 := by
    simpa [at', BcastPc.leaving] using follows.call t inside
  have at'' : (c.handles calls d.root (held d.root)).pc t = .free item pc := by
    rw [handles_pc here, at']
    rfl
  simp only [BcastObj.tmpiBcoBcast, at'] at taken
  split at taken
  next cells pc' made =>
    rw [Option.some.injEq] at taken
    subst taken
    have turns := turns_goto c d.root t { c.bcoArray d.root with cells } (.free item pc' data)
    refine follows.internal several inside call turns ?_ rfl ?_
      (tracks.internal several turns ?_ (fun _ => le_rfl) ?_ rfl)
    · simpa [BcastObj.goto, BcastObj.setQueue, BcastPc.leaving] using level
    · rw [there]
      simpa [BcastObj.goto] using BcastPc.Shows.free item pc' data
    · rw [Handles.run_free at'' made, handles_goto here]
      rfl
    · intro item newitem same
      simp [BcastObj.goto] at same
  next cells made =>
    rw [Option.some.injEq] at taken
    subst taken
    have turns := turns_leave c d.root t { c.bcoArray d.root with cells } data
    refine follows.internal several inside call turns ?_ rfl ?_
      (tracks.internal several turns ?_ (fun _ => le_rfl) ?_ rfl)
    · simpa [BcastObj.leave, BcastObj.setQueue, BcastPc.leaving] using level
    · rw [there]
      simpa [BcastObj.leave] using BcastPc.Shows.idle
    · rw [Handles.run_free_ends at'' made, handles_leave]
    · intro item newitem same
      simp [BcastObj.leave] at same

/-! ### Steps of the call -/

theorem collective_at {d : BcastCall} {k : Nat} (call : calls[k]? = some d) :
    (calls.map BcastCall.collective)[k]? = some (.bcast d.root (d.len d.root)) := by
  rw [List.getElem?_map, call]
  rfl

theorem setQueue_self (c : BcastObj) (root : Nat) : c.setQueue root (c.bcoArray root) = c := by
  rw [BcastObj.setQueue, Function.update_eq_self]

theorem turns_enter (c : BcastObj) (root t : Nat) (data : Buffer) (pc : BcastPc) :
    Turns c ((c.pass t data).goto t pc) t root (c.bcoArray root) :=
  ⟨(Function.update_eq_self _ _).symm, fun _ other => Function.update_of_ne other _ _,
    fun _ _ => rfl, .inl rfl, fun _ _ => rfl⟩

theorem enter_follows (follows : Follows n calls c s m addr held) (several : 2 ≤ n)
    (inside : t < n) {d : BcastCall} (call : calls[c.call t]? = some d) (idle : c.pc t = .idle)
    {data : Buffer} (taken : c.enter n t data d = some c') : Followed n calls c' := by
  have here := rootAt_of call
  have tracks := follows.queues d.root
  have idle' : s.pc t = .idle := by
    obtain ⟨r, -, shows'⟩ := follows.pc t inside
    rw [idle] at shows'
    exact shows'.of_idle
  have level : s.call t = c.call t := by simpa [idle, BcastPc.leaving] using follows.call t inside
  have on : onCall (bcastKind n d.root).on (calls.map BcastCall.collective) (s.call t) = true := by
    rw [level]
    exact on_iff.mpr here
  rw [BcastObj.enter, if_neg (by omega), Option.map_eq_some_iff] at taken
  obtain ⟨item, found, rfl⟩ := taken
  rw [tracks.mirror.curitem inside, Option.map_eq_some_iff] at found
  obtain ⟨a, curitem, rfl⟩ := found
  set pc : BcastPc := if t = d.root then .alloc (addr d.root a) .head else .await (addr d.root a)
    with which
  set pc' : Pc := if t = d.root then .post a else .await a with which'
  let b : Buffers := ⟨data, fun _ => 0, fun _ => 0⟩
  have shows' : pc.Shows (addr d.root) pc' := by
    rw [which, which']
    split
    · exact .alloc a _
    · exact .await a
  have staying : pc.leaving = false := by
    rw [which]
    split <;> rfl
  have plain : pc'.spare = none := by
    rw [which']
    split <;> rfl
  have goes : Coll.step n s (calls.map BcastCall.collective) (.enter t b) =
      some ((s.pass t b).goto t pc') := by
    rw [Coll.step, if_neg (not_not.mpr idle'), level, collective_at call, Option.bind_some, Coll.enter,
      if_neg (by omega), curitem]
    rfl
  have moves := moves_enter (s := s) (t := t) pc' b
  have turns := turns_enter c d.root t data pc
  have same : (c.pass t data).goto t pc =
      ((c.pass t data).setQueue d.root (c.bcoArray d.root)).goto t pc := by
    conv_lhs => rw [← setQueue_self (c.pass t data) d.root]
    rfl
  have fewer : ∀ a, BcastObj.Uses n calls ((s.pass t b).goto t pc') d.root (m d.root) a →
      BcastObj.Uses n calls s d.root (m d.root) a := by
    intro a used
    refine used_keep ?_ moves on le_rfl (fun a spare => ?_) inside used
    · rfl
    · simp [Objects.goto, plain] at spare
  have kept : Tracks n calls ((c.pass t data).goto t pc) ((s.pass t b).goto t pc') d.root
      (m d.root) (addr d.root) (held d.root) := by
    refine ⟨tracks.window.move moves rfl fun _ _ => id, tracks.attained, tracks.mirror.shrink fewer, ?_,
      fun a used => tracks.inUse a (fewer a used), fun u low item newitem at' on => ?_, tracks.frees⟩
    · have before : (c.handles calls d.root (held d.root)).pc t = .idle := by
        rw [handles_pc here, idle]
        rfl
      have away : rootAt calls ((c.pass t data).call t) = some d.root := here
      rw [same, handles_goto away]
      change Handles.Reach n _ ((c.handles calls d.root (held d.root)).goto t pc.handlePc)
      by_cases atRoot : t = d.root
      · have now : pc.handlePc = .alloc .head := by
          rw [which, if_pos atRoot]
          rfl
        rw [now]
        have calls' : (c.handles calls d.root (held d.root)).step n (.alloc t) =
            some ((c.handles calls d.root (held d.root)).goto t (.alloc .head)) := if_pos before
        refine tracks.handles.step (fun u same => ?_) calls'
        cases same
        exact atRoot
      · have now : pc.handlePc = .idle := by
          rw [which, if_neg atRoot]
          rfl
        rw [now, Handles.goto, ← before, Function.update_eq_self]
        exact tracks.handles
    · by_cases self : u = t
      · subst self
        simp only [BcastObj.goto, Function.update_self, which] at at'
        split at at' <;> cases at'
      · rw [turns.pc u self] at at'
        obtain ⟨sole, holds, apart⟩ := tracks.new u low item newitem at' on
        exact ⟨sole, holds, fun a used => apart a (fewer a used)⟩
  have low' : (Act.enter t b).thread < n := inside
  refine ⟨_, _, _, _, follows.step several inside here turns moves (.inl level) (fun _ _ => rfl)
    (.step follows.reach low' goes) ?_ ?_ (fun _ _ => rfl) ?_ kept⟩
  · simpa [BcastObj.goto, Objects.goto, BcastObj.pass, Objects.pass, staying] using level
  · intro k u low
    have args := follows.args k u low
    simp only [BcastObj.goto, Objects.goto, BcastObj.pass, Objects.pass, level]
    by_cases now : k = c.call t
    · subst now
      by_cases self : u = t
      · subst self
        simp [b]
      · simpa [self] using args
    · simpa [now] using args
  · simpa [BcastObj.goto, Objects.goto] using shows'

/-- A receiver copies. -/
theorem await_follows (follows : Follows n calls c s m addr held) (several : 2 ≤ n)
    (inside : t < n) {d : BcastCall} (call : calls[c.call t]? = some d) {item : Nat}
    (at' : c.pc t = .await item) (taken : c.tmpiBcoBcast n t d = some c') :
    Followed n calls c' := by
  have here := rootAt_of call
  have tracks := follows.queues d.root
  obtain ⟨a, rfl, there⟩ := (follows.shows inside call at' nofun).of_await
  have level : s.call t = c.call t := by simpa [at', BcastPc.leaving] using follows.call t inside
  have on : onCall (bcastKind n d.root).on (calls.map BcastCall.collective) (s.call t) = true := by
    rw [level]
    exact on_iff.mpr here
  have queue := (reach_invariant several follows.reach).bco d.root
  have used := tracks.window.used_item queue inside on (a := a) (by rw [there]; rfl)
  obtain ⟨avails, stores⟩ := tracks.mirror.mem a used
  simp only [BcastObj.tmpiBcoBcast, at'] at taken
  split at taken
  next => cases taken
  next avail =>
    rw [Option.some.injEq] at taken
    subst taken
    rw [avails] at avail
    set data := memcpy (c.args (c.call t) t) ((c.bcoArray d.root).mem (addr d.root a)).data
      (min (d.len t) ((c.bcoArray d.root).mem (addr d.root a)).len)
    set q : BCQueue := { c.bcoArray d.root with
      cursor := Function.update (c.bcoArray d.root).cursor t
        ((c.bcoArray d.root).cells.next (addr d.root a)) } with which
    let data' := memcpy (s.current t).data ((s.bco d.root).mem a).data
      (min (d.len d.root) ((s.bco d.root).mem a).len)
    let q' := (s.bco d.root).setCursor t ((s.bco d.root).next a)
    have goes : Coll.step n s (calls.map BcastCall.collective) (.run t) =
        some ((s.setBco d.root q').goto t (.depart a data')) := by
      rw [Coll.step, level, collective_at call]
      simp only [Coll.tmpiBcoBcast, there, if_neg avail]
      rfl
    have moves := moves_setBco_goto s t d.root q' (.depart a data')
    have turns := turns_goto c d.root t q (.depart (addr d.root a) data)
    have fewer : ∀ a', BcastObj.Uses n calls ((s.setBco d.root q').goto t (.depart a data')) d.root
        (m d.root) a' → BcastObj.Uses n calls s d.root (m d.root) a' := by
      intro a' used
      refine used_keep ?_ moves on le_rfl (fun a spare => ?_) inside used
      · simp [Objects.setBco, Objects.goto, q', HandleQueue.setCursor]
      · simp [Objects.goto, Pc.spare] at spare
    have mirror := (tracks.mirror.setCursor t ((s.bco d.root).next a)).shrink fewer
    rw [← tracks.mirror.next a used] at mirror
    have kept : Tracks n calls ((c.setQueue d.root q).goto t (.depart (addr d.root a) data))
        ((s.setBco d.root q').goto t (.depart a data')) d.root (m d.root) (addr d.root)
        (held d.root) := by
      refine ⟨tracks.window.move moves ?_ fun i b there => ?_, tracks.attained, ?_, ?_,
        fun a used => tracks.inUse a (fewer a used), fun u low item newitem at' on => ?_,
        tracks.frees⟩
      · simp [Objects.setBco, Objects.goto, q', HandleQueue.setCursor]
      · simpa [Objects.setBco, Objects.goto, q', HandleQueue.setCursor] using there
      · simpa [Objects.setBco, Objects.goto, BcastObj.goto, BcastObj.setQueue, which] using mirror
      · have before : (c.handles calls d.root (held d.root)).pc t = .idle := by
          rw [handles_pc here, at']
          rfl
        rw [handles_goto here]
        change Handles.Reach n _ ((c.handles calls d.root (held d.root)).goto t .idle)
        rw [Handles.goto, ← before, Function.update_eq_self]
        exact tracks.handles
      · by_cases self : u = t
        · subst self
          simp [BcastObj.goto] at at'
        · rw [turns.pc u self] at at'
          obtain ⟨sole, holds, apart⟩ := tracks.new u low item newitem at' on
          exact ⟨sole, holds, fun a used => apart a (fewer a used)⟩
    have low' : (Act.run t).thread < n := inside
    refine ⟨_, _, _, _, follows.step several inside here turns moves (.inl level)
      (fun r away => Function.update_of_ne away _ _) (.step follows.reach low' goes) ?_ follows.args
      (fun _ _ => rfl) ?_ kept⟩
    · simpa [BcastObj.goto, Objects.goto, BcastObj.setQueue, Objects.setBco, BcastPc.leaving]
        using level
    · simpa [BcastObj.goto, Objects.goto] using BcastPc.Shows.depart a data data'

/-- When a thread returns and another one has not come further, no broadcast is finished. -/
theorem Window.leave {Handle : Type} {kind : Kind n Handle} {list : List Collective} {m : Nat}
    {q : HandleQueue Handle} (window : Window kind list s q m)
    (attained : ∃ u < n, turn kind.on list (s.call u) = m) (moves : Moves s s' t)
    (other : ∃ u < n, u ≠ t ∧ s.call u ≤ s.call t) :
    ∃ u < n, turn kind.on list (s'.call u) = m := by
  obtain ⟨u, low, least⟩ := attained
  by_cases self : u = t
  · subst self
    obtain ⟨v, low', apart, level⟩ := other
    have up : turn kind.on list (s.call v) ≤ turn kind.on list (s.call u) := turn_mono level
    have down := window.behind v low'
    refine ⟨v, low', ?_⟩
    rw [moves.call v apart]
    omega
  · refine ⟨u, low, ?_⟩
    rw [moves.call u self]
    exact least

/-- When the root posts, there is somebody else who has not left. -/
theorem BcastCell.post_others {root len item : Nat} {h : BCHandle} {next : Option Nat}
    (cell : BcastCell n root len (s.party (s.call t)) h next) (several : 2 ≤ n) (inside : t < n)
    (stage : (s.party (s.call t)).stage t = .inside (.post item)) :
    ∃ u < n, u ≠ t ∧ s.call u ≤ s.call t := by
  obtain ⟨u, low, apart⟩ : ∃ u < n, u ≠ t := by
    by_cases zero : t = 0
    · exact ⟨1, by omega, by omega⟩
    · exact ⟨0, by omega, by omega⟩
  refine ⟨u, low, apart, call_le_of_stage fun gone => ?_⟩
  cases cell with
  | unposted cell =>
      have outside := cell.stages u low
      change (s.stage (s.call t) u).outside root u at outside
      rw [gone] at outside
      exact outside
  | posted cell =>
      have served := cell.served t inside
      simp only [Served, stage] at served

/-- The root posts. -/
theorem post_follows (follows : Follows n calls c s m addr held) (several : 2 ≤ n)
    (inside : t < n) {d : BcastCall} (call : calls[c.call t]? = some d) {item newitem : Nat}
    (at' : c.pc t = .post item newitem) (taken : c.tmpiBcoBcast n t d = some c') :
    Followed n calls c' := by
  have here := rootAt_of call
  have tracks := follows.queues d.root
  obtain ⟨a, rfl, there⟩ := (follows.shows inside call at' nofun).of_post
  have level : s.call t = c.call t := by simpa [at', BcastPc.leaving] using follows.call t inside
  have on : onCall (bcastKind n d.root).on (calls.map BcastCall.collective) (s.call t) = true := by
    rw [level]
    exact on_iff.mpr here
  have inv := reach_invariant several follows.reach
  have queue := inv.bco d.root
  have used := tracks.window.used_item queue inside on (a := a) (by rw [there]; rfl)
  have slot := (queue.thread t inside on).item a (by rw [there]; rfl)
  have abs : (calls.map BcastCall.collective)[s.call t]? = some (.bcast d.root (d.len d.root)) := by
    rw [level]
    exact collective_at call
  have stage := stage_now there nofun
  have cell := bcast_cell inv abs slot
  have ends := cell.ends inside stage
  obtain ⟨atRoot, holds, apart⟩ := tracks.new t inside (addr d.root a) newitem at' here
  have low := used_below queue used
  simp only [BcastObj.tmpiBcoBcast, at', Option.some.injEq] at taken
  set q : BCQueue := { c.bcoArray d.root with
    cells := ((c.bcoArray d.root).cells.setNext newitem none).setNext (addr d.root a) (some newitem)
    mem := Function.update (Function.update (c.bcoArray d.root).mem newitem
      { (c.bcoArray d.root).mem newitem with avail := 0 }) (addr d.root a)
      ⟨1, (c.args (c.call t) t).take (d.len t), d.len t⟩
    cursor := Function.update (c.bcoArray d.root).cursor t (some newitem) } with which
  have taken' : (c.setQueue d.root q).leave t (c.args (c.call t) t) = c' := taken
  subst taken'
  clear taken
  set fresh := (s.bco d.root).fresh with new
  let q' := ((((s.bco d.root).alloc ⟨0, [], 0⟩).link a fresh).set a
    ⟨1, (s.current t).data.take (d.len d.root), d.len d.root⟩).setCursor t (some fresh)
  have goes : Coll.step n s (calls.map BcastCall.collective) (.run t) =
      some ((s.setBco d.root q').leave t (s.current t)) := by
    rw [Coll.step, abs]
    simp only [Coll.tmpiBcoBcast, there]
    rfl
  have moves := moves_setBco_leave s t d.root q' (s.current t)
  have turns := turns_leave c d.root t q (c.args (c.call t) t)
  have links : q'.next = Function.update (s.bco d.root).next a (some fresh) := by
    change Function.update (Function.update (s.bco d.root).next fresh none) a (some fresh) = _
    rw [← queue.beyond fresh le_rfl, Function.update_eq_self]
  have chain : ((s.setBco d.root q').leave t (s.current t)).bco d.root = q' :=
    Function.update_self _ _ _
  have more : ∀ a', BcastObj.Uses n calls ((s.setBco d.root q').leave t (s.current t)) d.root
      (m d.root) a' → BcastObj.Uses n calls s d.root (m d.root) a' ∨ a' = fresh := by
    intro a' used
    refine used_step (· = fresh) (fun i b there => ?_) moves on le_rfl (fun a spare => ?_) inside used
    · rw [chain, links] at there
      exact (nth_extend_cases queue.rising slot ends (queue.beyond fresh le_rfl) low.ne' there).imp
        id fun both => both.2
    · simp [Objects.leave, Pc.spare] at spare
  have addr_a : Function.update (addr d.root) fresh newitem a = addr d.root a :=
    Function.update_of_ne low.ne _ _
  have same_data : (s.current t).data = c.args (c.call t) t := by
    rw [Objects.current, level]
    exact follows.args _ t inside
  have stores : BCHandle.Stores ⟨1, (c.args (c.call t) t).take (d.len t), d.len t⟩
      ⟨1, (s.current t).data.take (d.len d.root), d.len d.root⟩ := by
    refine ⟨rfl, fun _ => ?_⟩
    rw [same_data, atRoot]
  have mirror := ((((tracks.mirror.alloc (fun _ => used_below queue)
    (fun _ _ => used_next queue) (fun _ => tracks.window.used_first)
    (fun _ low _ => tracks.window.used_cursor queue low) apart
    (⟨rfl, fun posted => absurd rfl posted⟩ : BCHandle.Stores
      { (c.bcoArray d.root).mem newitem with avail := 0 } ⟨0, [], 0⟩)).link (.inl used)
    fresh).set (.inl used) stores).setCursor t (some fresh)).shrink more
  rw [Option.map_some, Function.update_self, addr_a] at mirror
  have returns := tracks.window.leave tracks.attained moves (cell.post_others several inside stage)
  have kept : Tracks n calls ((c.setQueue d.root q).leave t (c.args (c.call t) t))
      ((s.setBco d.root q').leave t (s.current t)) d.root (m d.root)
      (Function.update (addr d.root) fresh newitem) (held d.root) := by
    refine ⟨tracks.window.move moves (by rw [chain]; rfl) fun i b there => ?_, returns, ?_, ?_,
      fun b there => ?_, fun u low item new at' on => ?_, tracks.frees⟩
    · rw [chain, links]
      exact nth_extend_keeps queue.rising slot ends there
    · rw [chain, turns.queues, Function.update_self]
      exact mirror
    · have before : (c.handles calls d.root (held d.root)).pc t = .idle := by
        rw [handles_pc here, at']
        rfl
      have first : (c.handles calls d.root (held d.root)).step n (.write newitem none) = some _ :=
        if_pos holds
      have second : Handles.step n { c.handles calls d.root (held d.root) with
          cells := (c.bcoArray d.root).cells.setNext newitem none }
          (.write (addr d.root a) (some newitem)) = some _ := if_pos (tracks.inUse a used)
      have reach := (tracks.handles.step (fun _ same => by cases same) first).step
        (fun _ same => by cases same) second
      rw [handles_leave, Handles.goto, Function.update_eq_self_iff.mpr before.symm]
      exact reach
    · rcases more b there with old | rfl
      · rw [Function.update_of_ne (used_below queue old).ne]
        exact tracks.inUse b old
      · rw [Function.update_self]
        exact holds
    · by_cases self : u = t
      · subst self
        simp [BcastObj.leave] at at'
      · rw [turns.pc u self] at at'
        rw [turns.call u self] at on
        exact absurd ((tracks.new u low item new at' on).1.trans atRoot.symm) self
  have low' : (Act.run t).thread < n := inside
  refine ⟨_, _, _, _, follows.step several inside here turns moves (.inl level)
    (fun r away => Function.update_of_ne away _ _) (.step follows.reach low' goes) ?_ follows.args
    (fun b there => ?_) ?_ kept⟩
  · simpa [BcastObj.leave, Objects.leave, BcastObj.setQueue, Objects.setBco, BcastPc.leaving]
      using level
  · exact Function.update_of_ne (used_below queue there).ne _ _
  · simpa [BcastObj.leave, Objects.leave] using BcastPc.Shows.idle

theorem BcastCell.depart_posted {root len item : Nat} {data : Buffer} {p : Party} {h : BCHandle}
    {next : Option Nat} (cell : BcastCell n root len p h next) (inside : t < n)
    (stage : p.stage t = .inside (.depart item data)) : Posted n root len p h next := by
  cases cell with
  | unposted cell =>
      have outside := cell.stages t inside
      rw [stage] at outside
      exact outside.elim
  | posted cell => exact cell

theorem Posted.avail_ne_zero {root len : Nat} {p : Party} {h : BCHandle} {next : Option Nat}
    (posted : Posted n root len p h next) : h.avail ≠ 0 := by
  have member : root ∈ threads n fun t => p.stage t = .after := by
    simp [threads, posted.root_lt, posted.gone]
  have some_gone : 0 < (threads n fun t => p.stage t = .after).card := Finset.card_pos.mpr ⟨_, member⟩
  rw [posted.avail]
  omega

/-- When a receiver leaves and is not the last one, there is somebody else who has not left. -/
theorem Posted.depart_others {root len : Nat} {h : BCHandle} {next : Option Nat} {item : Nat}
    {data : Buffer} (posted : Posted n root len (s.party (s.call t)) h next) (inside : t < n)
    (stage : (s.party (s.call t)).stage t = .inside (.depart item data)) (more : h.avail + 1 ≠ n) :
    ∃ u < n, u ≠ t ∧ s.call u ≤ s.call t := by
  by_contra none
  push Not at none
  have all : ∀ u < n, u ≠ t → (s.party (s.call t)).stage u = .after := by
    intro u low apart
    exact Objects.stage_past (none u low apart)
  have whole : threads n (fun u => (s.party (s.call t)).stage u = .after) =
      (Finset.range n).erase t := by
    ext u
    simp only [threads, Finset.mem_filter, Finset.mem_range, Finset.mem_erase, decide_eq_true_eq]
    constructor
    · rintro ⟨low, gone⟩
      refine ⟨?_, low⟩
      rintro rfl
      rw [stage] at gone
      cases gone
    · exact fun left => ⟨left.2, all u left.2 left.1⟩
  have count := posted.avail
  rw [whole, Finset.card_erase_of_mem (Finset.mem_range.mpr inside), Finset.card_range] at count
  omega

/-- A receiver counts itself; the last one frees the handle. -/
theorem depart_follows (follows : Follows n calls c s m addr held) (several : 2 ≤ n)
    (inside : t < n) {d : BcastCall} (call : calls[c.call t]? = some d) {item : Nat} {data : Buffer}
    (at' : c.pc t = .depart item data) (taken : c.tmpiBcoBcast n t d = some c') :
    Followed n calls c' := by
  have here := rootAt_of call
  have tracks := follows.queues d.root
  obtain ⟨a, data', rfl, there⟩ := (follows.shows inside call at' nofun).of_depart
  have level : s.call t = c.call t := by simpa [at', BcastPc.leaving] using follows.call t inside
  have on : onCall (bcastKind n d.root).on (calls.map BcastCall.collective) (s.call t) = true := by
    rw [level]
    exact on_iff.mpr here
  have inv := reach_invariant several follows.reach
  have queue := inv.bco d.root
  have used := tracks.window.used_item queue inside on (a := a) (by rw [there]; rfl)
  have slot := (queue.thread t inside on).item a (by rw [there]; rfl)
  have abs : (calls.map BcastCall.collective)[s.call t]? = some (.bcast d.root (d.len d.root)) := by
    rw [level]
    exact collective_at call
  have stage := stage_now there nofun
  have cell := bcast_cell inv abs slot
  have posted := cell.depart_posted inside stage
  obtain ⟨avails, equal⟩ := tracks.mirror.mem a used
  have stored := equal posted.avail_ne_zero
  have before : (c.handles calls d.root (held d.root)).pc t = .idle := by
    rw [handles_pc here, at']
    rfl
  set handle : BCHandle := { (s.bco d.root).mem a with avail := ((s.bco d.root).mem a).avail + 1 }
    with counted
  have mirror := tracks.mirror.set used (⟨rfl, fun _ => rfl⟩ : BCHandle.Stores handle handle)
  simp only [BcastObj.tmpiBcoBcast, at', stored] at taken
  change (if handle.avail = n then _ else _) = _ at taken
  have low' : (Act.run t).thread < n := inside
  by_cases full : handle.avail = n
  · rw [if_pos full, Option.some.injEq] at taken
    set q : BCQueue := { c.bcoArray d.root with
      mem := Function.update (c.bcoArray d.root).mem (addr d.root a) handle
      first := (c.bcoArray d.root).cells.next (addr d.root a) } with which
    let counts := Function.update c.frees (c.call t) (c.frees (c.call t) + 1)
    let c₁ : BcastObj := { c with frees := counts }
    have taken' : (c₁.setQueue d.root q).goto t (.free (addr d.root a) .head data) = c' := taken
    subst taken'
    clear taken
    let q' := ((s.bco d.root).set a handle).retire a
    have goes : Coll.step n s (calls.map BcastCall.collective) (.run t) =
        some ((s.setBco d.root q').leave t { s.current t with data := data' }) := by
      rw [Coll.step, abs]
      simp only [Coll.tmpiBcoBcast, there]
      change some ((s.setBco d.root (if handle.avail = n then q' else _)).leave t _) = _
      rw [if_pos full]
    have moves := moves_setBco_leave s t d.root q' { s.current t with data := data' }
    have turns : Turns c ((c₁.setQueue d.root q).goto t (.free (addr d.root a) .head data)) t d.root
        q := by
      have same := turns_goto c₁ d.root t q (.free (addr d.root a) .head data)
      exact ⟨same.queues, same.pc, same.call, same.own, fun k other => Function.update_of_ne other _ _⟩
    have chain : ((s.setBco d.root q').leave t { s.current t with data := data' }).bco d.root = q' :=
      Function.update_self _ _ _
    have others : ∀ u < n, u ≠ t → s.call t < s.call u := by
      intro u low apart
      have gone := (cell.depart inside stage).2 full u low
      rw [Party.leave_stage_ne _ apart] at gone
      exact past_of_stage gone
    have turned : turn (bcastKind n d.root).on (calls.map BcastCall.collective) (s.call t) =
        m d.root := by
      obtain ⟨u, low, least⟩ := tracks.attained
      by_cases self : u = t
      · exact self ▸ least
      · have up := turn_lt on (others u low self)
        have down := tracks.window.behind t inside
        omega
    obtain ⟨b, link⟩ := Option.ne_none_iff_exists'.mp posted.next
    rw [turned] at slot
    have fewer : ∀ a', BcastObj.Uses n calls
        ((s.setBco d.root q').leave t { s.current t with data := data' }) d.root (m d.root + 1) a' →
        BcastObj.Uses n calls s d.root (m d.root) a' ∧ a' ≠ a := by
      intro a' used
      refine ⟨used_keep (by rw [chain]; rfl) moves on (Nat.le_succ _) (fun a spare => ?_) inside used,
        ?_⟩
      · simp [Objects.leave, Pc.spare] at spare
      · rintro rfl
        rcases used with ⟨i, above, here⟩ | ⟨u, low, onU, spare⟩
        · rw [chain] at here
          have := nth_injective queue.rising here slot
          omega
        · by_cases self : u = t
          · subst self
            simp [Objects.leave, Pc.spare] at spare
          · rw [moves.pc u self] at spare
            rw [moves.call u self] at onU
            obtain ⟨b', item⟩ := spare_item spare
            exact ((queue.thread u low onU).spare b' a' item spare).unchained _ slot
    have kept : Tracks n calls ((c₁.setQueue d.root q).goto t (.free (addr d.root a) .head data))
        ((s.setBco d.root q').leave t { s.current t with data := data' }) d.root (m d.root + 1)
        (addr d.root)
        (Function.update (held d.root) (addr d.root a) (held d.root (addr d.root a) - 1)) := by
      have still : ∀ b, BcastObj.Uses n calls s d.root (m d.root) b → b ≠ a →
          addr d.root b ≠ addr d.root a := fun b there apart same =>
        apart (tracks.mirror.distinct b a there used same)
      refine ⟨⟨?_, ?_⟩, ⟨t, inside, ?_⟩, ?_, ?_, fun b there => ?_, fun u low item new at' on => ?_,
        fun k on' => ?_⟩
      · rw [chain]
        exact ⟨b, link, nth_succ_of slot link⟩
      · intro u low
        by_cases self : u = t
        · subst self
          simp only [Objects.leave, Objects.setBco, Function.update_self]
          rw [turn_succ, turned, if_pos on]
        · rw [moves.call u self]
          have up := turn_lt on (others u low self)
          omega
      · simp only [Objects.leave, Objects.setBco, Function.update_self]
        rw [turn_succ, turned, if_pos on]
      · rw [chain, turns.queues, Function.update_self]
        exact (mirror.retire used).shrink fun b there => (fewer b there).1
      · have frees : (c.handles calls d.root (held d.root)).step n (.free t (addr d.root a)) =
            some _ := if_pos ⟨before, tracks.inUse a used⟩
        have now : ((c₁.setQueue d.root q).goto t (.free (addr d.root a) .head data)).handles calls
            d.root (Function.update (held d.root) (addr d.root a)
              (held d.root (addr d.root a) - 1)) = _ := handles_goto here _ _
        rw [now]
        exact tracks.handles.step (fun _ same => by cases same) frees
      · obtain ⟨old, apart⟩ := fewer b there
        rw [Function.update_of_ne (still b old apart)]
        exact tracks.inUse b old
      · by_cases self : u = t
        · subst self
          simp [BcastObj.goto] at at'
        · rw [turns.pc u self] at at'
          rw [turns.call u self] at on
          obtain ⟨sole, holds, apart⟩ := tracks.new u low item new at' on
          refine ⟨sole, ?_, fun b there => apart b (fewer b there).1⟩
          rw [Function.update_of_ne (apart a used).symm]
          exact holds
      · by_cases now : k = c.call t
        · subst now
          rw [level] at turned
          have freed := tracks.frees _ here
          rw [turned, if_neg (lt_irrefl _)] at freed
          rw [turned, if_pos (Nat.lt_succ_self _)]
          change Function.update c.frees (c.call t) (c.frees (c.call t) + 1) (c.call t) = 1
          rw [Function.update_self, freed]
        · have apart : turn (bcastKind n d.root).on (calls.map BcastCall.collective) k ≠ m d.root := by
            intro same
            rw [← turned, level] at same
            exact now (turn_injective (on_iff.mpr on') (on_iff.mpr here) same)
          rw [turns.frees k now, tracks.frees k on']
          congr 1
          simp only [Nat.lt_succ_iff_lt_or_eq, apart, or_false]
    refine ⟨_, _, _, _, follows.step several inside here turns moves (.inl level)
      (fun r away => Function.update_of_ne away _ _) (.step follows.reach low' goes) ?_ follows.args
      (fun b there => rfl) ?_ kept⟩
    · simpa [BcastObj.goto, Objects.leave, BcastObj.setQueue, Objects.setBco, BcastPc.leaving, c₁]
        using level
    · simpa [BcastObj.goto, Objects.leave] using BcastPc.Shows.free (addr d.root a) .head data
  · rw [if_neg full, Option.some.injEq] at taken
    set q : BCQueue := { c.bcoArray d.root with
      mem := Function.update (c.bcoArray d.root).mem (addr d.root a) handle } with which
    have taken' : (c.setQueue d.root q).leave t data = c' := taken
    subst taken'
    clear taken
    let q' := (s.bco d.root).set a handle
    have goes : Coll.step n s (calls.map BcastCall.collective) (.run t) =
        some ((s.setBco d.root q').leave t { s.current t with data := data' }) := by
      rw [Coll.step, abs]
      simp only [Coll.tmpiBcoBcast, there]
      change some ((s.setBco d.root (if handle.avail = n then _ else q')).leave t _) = _
      rw [if_neg full]
    have moves := moves_setBco_leave s t d.root q' { s.current t with data := data' }
    have turns := turns_leave c d.root t q data
    have chain : ((s.setBco d.root q').leave t { s.current t with data := data' }).bco d.root = q' :=
      Function.update_self _ _ _
    have fewer : ∀ a', BcastObj.Uses n calls
        ((s.setBco d.root q').leave t { s.current t with data := data' }) d.root (m d.root) a' →
        BcastObj.Uses n calls s d.root (m d.root) a' := by
      intro a' used
      refine used_keep (by rw [chain]; rfl) moves on le_rfl (fun a spare => ?_) inside used
      simp [Objects.leave, Pc.spare] at spare
    have returns := tracks.window.leave tracks.attained moves (posted.depart_others inside stage full)
    have kept : Tracks n calls ((c.setQueue d.root q).leave t data)
        ((s.setBco d.root q').leave t { s.current t with data := data' }) d.root (m d.root)
        (addr d.root) (held d.root) := by
      refine ⟨tracks.window.move moves (by rw [chain]; rfl) fun i b there => ?_, returns, ?_, ?_,
        fun b there => tracks.inUse b (fewer b there), fun u low item new at' on => ?_,
        tracks.frees⟩
      · rw [chain]
        exact there
      · rw [chain, turns.queues, Function.update_self]
        exact mirror.shrink fewer
      · rw [handles_leave, Handles.goto, Function.update_eq_self_iff.mpr before.symm]
        exact tracks.handles
      · by_cases self : u = t
        · subst self
          simp [BcastObj.leave] at at'
        · rw [turns.pc u self] at at'
          rw [turns.call u self] at on
          obtain ⟨sole, holds, apart⟩ := tracks.new u low item new at' on
          exact ⟨sole, holds, fun b there => apart b (fewer b there)⟩
    refine ⟨_, _, _, _, follows.step several inside here turns moves (.inl level)
      (fun r away => Function.update_of_ne away _ _) (.step follows.reach low' goes) ?_ follows.args
      (fun b there => rfl) ?_ kept⟩
    · simpa [BcastObj.leave, Objects.leave, BcastObj.setQueue, Objects.setBco, BcastPc.leaving]
        using level
    · simpa [BcastObj.leave, Objects.leave] using BcastPc.Shows.idle

theorem bcast_follows (follows : Follows n calls c s m addr held) (several : 2 ≤ n)
    (inside : t < n) {d : BcastCall} (call : calls[c.call t]? = some d)
    (taken : c.tmpiBcoBcast n t d = some c') : Followed n calls c' := by
  cases at' : c.pc t with
  | idle =>
      simp only [BcastObj.tmpiBcoBcast, at'] at taken
      cases taken
  | alloc => exact alloc_follows follows several inside call at' taken
  | post => exact post_follows follows several inside call at' taken
  | await => exact await_follows follows several inside call at' taken
  | depart => exact depart_follows follows several inside call at' taken
  | free => exact free_follows follows several inside call at' taken

theorem step_follows (follows : Follows n calls c s m addr held) (several : 2 ≤ n)
    {act : BcastObj.Act} (inside : act.thread < n) (taken : c.step n calls act = some c') :
    Followed n calls c' := by
  cases act with
  | enter t data =>
      rw [BcastObj.step] at taken
      split at taken
      next => cases taken
      next idle =>
        obtain ⟨d, call, entered⟩ := Option.bind_eq_some_iff.mp taken
        exact enter_follows follows several inside call (not_not.mp idle) entered
  | run t =>
      obtain ⟨d, call, ran⟩ := Option.bind_eq_some_iff.mp taken
      exact bcast_follows follows several inside call ran

/-- Every run is one in which no handle is handed out again, with its handles renamed. -/
theorem reach_followed (several : 2 ≤ n) (reach : BcastObj.Reach n calls c) :
    Followed n calls c := by
  induction reach with
  | create memory => exact ⟨_, _, _, _, create_follows several memory⟩
  | step _ inside taken ih =>
      obtain ⟨s, m, addr, held, follows⟩ := ih
      exact step_follows follows several inside taken

end Steps

/-! ## What the threads get -/

/-- What the buffer of thread `t` has after a broadcast. -/
def BcastCall.gets (d : BcastCall) (args : Nat → Buffer) (t : Nat) : Buffer :=
  if t = d.root then args t
  else memcpy (args t) ((args d.root).take (d.len d.root)) (min (d.len t) (d.len d.root))

/-- What a receiver has copied. -/
def BcastPc.data : BcastPc → Option Buffer
  | .depart _ data | .free _ _ data => some data
  | _ => none

section Results

variable {n : Nat} {calls : List BcastCall} {c c' : BcastObj} {s : Objects} {m : Nat → Nat}
  {addr held : Nat → Nat → Nat} {t : Nat}

/-- Threads that have their data have the root's. -/
structure Delivered (n : Nat) (calls : List BcastCall) (c : BcastObj) : Prop where
  copied : ∀ t < n, ∀ d data, calls[c.call t]? = some d → (c.pc t).data = some data →
    data = d.gets (c.args (c.call t)) t
  results : ∀ k t d, t < n → calls[k]? = some d → k < c.call t →
    c.results k t = some (d.gets (c.args k) t)

/-- The broadcast is posted as soon as somebody has its data. -/
theorem Follows.posted (follows : Follows n calls c s m addr held) (several : 2 ≤ n)
    (inside : t < n) {k : Nat} {d : BcastCall} (call : calls[k]? = some d)
    (served : k < c.call t ∨ k = c.call t ∧ ((c.pc t).data).isSome) :
    ∃ a, nth (s.bco d.root).next 0
        (turn (bcastKind n d.root).on (calls.map BcastCall.collective) k) = some a ∧
      Posted n d.root (d.len d.root) (s.party k) ((s.bco d.root).mem a) ((s.bco d.root).next a) := by
  have inv := reach_invariant several follows.reach
  have abs := collective_at call
  have on : onCall (bcastKind n d.root).on (calls.map BcastCall.collective) k = true :=
    on_iff.mpr (rootAt_of call)
  have stage : s.stage k t = .after ∨ ∃ a data, s.stage k t = .inside (.depart a data) := by
    have level := follows.call t inside
    rcases served with past | ⟨rfl, has⟩
    · exact .inl (Objects.stage_past (by omega))
    · cases at' : c.pc t with
      | depart item data =>
          obtain ⟨a, data', -, there⟩ := (follows.shows inside call at' nofun).of_depart
          have here : s.call t = c.call t := by simpa [at', BcastPc.leaving] using level
          refine .inr ⟨a, data', ?_⟩
          rw [Objects.stage_inside here (by rw [there]; nofun), there]
      | free item pc data =>
          have here : s.call t = c.call t + 1 := by simpa [at', BcastPc.leaving] using level
          exact .inl (Objects.stage_past (by omega))
      | _ => simp [at', BcastPc.data] at has
  have touched : s.stage k t ≠ .before := by
    rcases stage with gone | ⟨a, data, here⟩
    · rw [gone]
      nofun
    · rw [here]
      nofun
  cases slot : nth (s.bco d.root).next 0
      (turn (bcastKind n d.root).on (calls.map BcastCall.collective) k) with
  | none => exact absurd ((inv.bco d.root).untouched on slot inside) touched
  | some a =>
      refine ⟨a, rfl, ?_⟩
      have cell : BcastCell n d.root (d.len d.root) (s.party k) ((s.bco d.root).mem a)
          ((s.bco d.root).next a) := (inv.bco d.root).cell k _ abs (bcast_user ..) a slot
      cases cell with
      | posted cell => exact cell
      | unposted cell =>
          have outside := cell.stages t inside
          change (s.stage k t).outside d.root t at outside
          rcases stage with gone | ⟨a, data, here⟩
          · rw [gone] at outside
            exact outside.elim
          · rw [here] at outside
            exact outside.elim

/-- The root does not make that call any more. -/
theorem Follows.root_past (follows : Follows n calls c s m addr held) (several : 2 ≤ n)
    (inside : t < n) {k : Nat} {d : BcastCall} (call : calls[k]? = some d)
    (served : k < c.call t ∨ k = c.call t ∧ ((c.pc t).data).isSome) :
    d.root < n ∧ (k < c.call d.root ∨ c.pc d.root ≠ .idle) := by
  obtain ⟨a, -, posted⟩ := follows.posted several inside call served
  have past : k < s.call d.root := past_of_stage posted.gone
  refine ⟨posted.root_lt, ?_⟩
  rw [follows.call d.root posted.root_lt] at past
  cases leaves : (c.pc d.root).leaving with
  | false =>
      rw [leaves] at past
      exact .inl (by simpa using past)
  | true =>
      refine .inr fun idle => ?_
      rw [idle] at leaves
      cases leaves

/-- What a receiver copies is what the root has passed. -/
theorem Follows.copy (follows : Follows n calls c s m addr held) (several : 2 ≤ n) (inside : t < n)
    {d : BcastCall} (call : calls[c.call t]? = some d) {item : Nat} (at' : c.pc t = .await item)
    (avail : ((c.bcoArray d.root).mem item).avail ≠ 0) :
    memcpy (c.args (c.call t) t) ((c.bcoArray d.root).mem item).data
        (min (d.len t) ((c.bcoArray d.root).mem item).len) =
      d.gets (c.args (c.call t)) t := by
  have tracks := follows.queues d.root
  obtain ⟨a, rfl, there⟩ := (follows.shows inside call at' (by simp)).of_await
  have level : s.call t = c.call t := by simpa [at', BcastPc.leaving] using follows.call t inside
  have on : onCall (bcastKind n d.root).on (calls.map BcastCall.collective) (s.call t) = true := by
    rw [level]
    exact on_iff.mpr (rootAt_of call)
  have inv := reach_invariant several follows.reach
  have used := tracks.window.used_item (inv.bco d.root) inside on (a := a) (by rw [there]; rfl)
  have slot := ((inv.bco d.root).thread t inside on).item a (by rw [there]; rfl)
  have abs : (calls.map BcastCall.collective)[s.call t]? = some (.bcast d.root (d.len d.root)) := by
    rw [level]
    exact collective_at call
  obtain ⟨avails, equal⟩ := tracks.mirror.mem a used
  rw [avails] at avail
  rw [equal avail]
  cases bcast_cell inv abs slot with
  | unposted cell => exact absurd cell.avail avail
  | posted cell =>
      have served := cell.served t inside
      simp only [Served, stage_now there (by simp)] at served
      have data := cell.data
      change _ = (s.args (s.call t) d.root).data.take (d.len d.root) at data
      rw [follows.args _ d.root cell.root_lt, level] at data
      rw [BcastCall.gets, if_neg served, data, cell.length]

/-- A call of thread `u` does not change what others have received. -/
theorem Delivered.enter (delivered : Delivered n calls c) (follows : Follows n calls c s m addr held)
    (several : 2 ≤ n) {u : Nat} (idle : c.pc u = .idle) {data : Buffer} {pc : BcastPc}
    (fresh : pc.data = none) : Delivered n calls ((c.pass u data).goto u pc) := by
  have keeps : ∀ t < n, ∀ k d, calls[k]? = some d →
      (k < c.call t ∨ k = c.call t ∧ ((c.pc t).data).isSome) →
      d.gets ((c.pass u data).args k) t = d.gets (c.args k) t := by
    intro t inside k d call served
    by_cases here : k = c.call u
    · subst here
      have self : t ≠ u := by
        rintro rfl
        rcases served with past | ⟨-, has⟩
        · omega
        · rw [idle] at has
          cases has
      have root : d.root ≠ u := by
        rintro rfl
        rcases (follows.root_past several inside call served).2 with past | busy
        · omega
        · exact busy idle
      simp [BcastCall.gets, BcastObj.pass, self, root]
    · simp [BcastObj.pass, here]
  constructor
  · intro t inside d data' call has
    by_cases self : t = u
    · subst self
      simp [BcastObj.goto, fresh] at has
    · simp only [BcastObj.goto, Function.update_of_ne self] at has
      have served : ((c.pc t).data).isSome := by
        change (c.pc t).data = some data' at has
        rw [has]
        rfl
      exact (delivered.copied t inside d data' call has).trans
        (keeps t inside _ d call (.inr ⟨rfl, served⟩)).symm
  · intro k t d inside call past
    exact (delivered.results k t d inside call past).trans
      (congrArg some (keeps t inside k d call (.inl past)).symm)

/-- A thread goes on inside its call. -/
theorem Delivered.goto (delivered : Delivered n calls c) {root : Nat} {q : BCQueue} {pc : BcastPc}
    (copied : ∀ d data, calls[c.call t]? = some d → pc.data = some data →
      data = d.gets (c.args (c.call t)) t) :
    Delivered n calls ((c.setQueue root q).goto t pc) where
  copied u inside d data call has := by
    by_cases self : u = t
    · subst self
      simp only [BcastObj.goto, Function.update_self] at has
      exact copied d data call has
    · simp only [BcastObj.goto, Function.update_of_ne self] at has
      exact delivered.copied u inside d data call has
  results := delivered.results

/-- A thread returns. -/
theorem Delivered.leave (delivered : Delivered n calls c) {root : Nat} {q : BCQueue} {data : Buffer}
    (gets : ∀ d, calls[c.call t]? = some d → data = d.gets (c.args (c.call t)) t) :
    Delivered n calls ((c.setQueue root q).leave t data) where
  copied u inside d data' call has := by
    by_cases self : u = t
    · subst self
      simp [BcastObj.leave, BcastPc.data] at has
    · simp only [BcastObj.leave, BcastObj.setQueue, Function.update_of_ne self] at has call ⊢
      exact delivered.copied u inside d data' call has
  results k u d inside call past := by
    simp only [BcastObj.leave, BcastObj.setQueue] at past ⊢
    by_cases here : k = c.call t ∧ u = t
    · obtain ⟨rfl, rfl⟩ := here
      simp only [Function.update_self]
      exact congrArg some (gets d call)
    · have old : Function.update c.results (c.call t)
          (Function.update (c.results (c.call t)) t (some data)) k u = c.results k u := by
        by_cases call' : k = c.call t
        · subst call'
          rw [Function.update_self, Function.update_of_ne fun self => here ⟨rfl, self⟩]
        · rw [Function.update_of_ne call']
      rw [old]
      refine delivered.results k u d inside call ?_
      by_cases self : u = t
      · subst self
        rw [Function.update_self] at past
        have apart : k ≠ c.call u := fun same => here ⟨same, rfl⟩
        omega
      · rwa [Function.update_of_ne self] at past

theorem Delivered.step (delivered : Delivered n calls c) (follows : Follows n calls c s m addr held)
    (several : 2 ≤ n) {act : BcastObj.Act} (inside : act.thread < n)
    (taken : c.step n calls act = some c') : Delivered n calls c' := by
  cases act with
  | enter t data =>
      rw [BcastObj.step] at taken
      split at taken
      next => cases taken
      next idle =>
        obtain ⟨d, call, entered⟩ := Option.bind_eq_some_iff.mp taken
        rw [BcastObj.enter, if_neg (by omega), Option.map_eq_some_iff] at entered
        obtain ⟨item, -, rfl⟩ := entered
        refine delivered.enter follows several (not_not.mp idle) ?_
        split <;> rfl
  | run t =>
      obtain ⟨d, call, ran⟩ := Option.bind_eq_some_iff.mp taken
      have only : ∀ d', calls[c.call t]? = some d' → d' = d := by
        intro d' call'
        rw [call, Option.some.injEq] at call'
        exact call'.symm
      have copied := delivered.copied t inside d
      cases at' : c.pc t with
      | idle =>
          simp only [BcastObj.tmpiBcoBcast, at'] at ran
          cases ran
      | alloc item pc =>
          simp only [BcastObj.tmpiBcoBcast, at'] at ran
          split at ran <;>
            · rw [Option.some.injEq] at ran
              subst ran
              exact delivered.goto fun _ _ _ has => by cases has
      | post item newitem =>
          simp only [BcastObj.tmpiBcoBcast, at', Option.some.injEq] at ran
          subst ran
          refine delivered.leave fun d' call' => ?_
          rw [only d' call', BcastCall.gets,
            if_pos ((follows.queues d.root).new t inside item newitem at' (rootAt_of call)).1]
      | await item =>
          simp only [BcastObj.tmpiBcoBcast, at'] at ran
          split at ran
          next => cases ran
          next avail =>
            rw [Option.some.injEq] at ran
            subst ran
            refine delivered.goto fun d' data' call' has => ?_
            cases has
            rw [only d' call']
            exact follows.copy several inside call at' avail
      | depart item data =>
          have data_eq := copied data call (by rw [at']; rfl)
          simp only [BcastObj.tmpiBcoBcast, at'] at ran
          split at ran
          · rw [Option.some.injEq] at ran
            subst ran
            have counted : Delivered n calls
                { c with frees := Function.update c.frees (c.call t) (c.frees (c.call t) + 1) } :=
              ⟨delivered.copied, delivered.results⟩
            refine counted.goto fun d' data' call' has => ?_
            cases has
            rw [only d' call']
            exact data_eq
          · rw [Option.some.injEq] at ran
            subst ran
            exact delivered.leave fun d' call' => by rw [only d' call']; exact data_eq
      | free item pc data =>
          have data_eq := copied data call (by rw [at']; rfl)
          simp only [BcastObj.tmpiBcoBcast, at'] at ran
          split at ran
          · rw [Option.some.injEq] at ran
            subst ran
            refine delivered.goto fun d' data' call' has => ?_
            cases has
            rw [only d' call']
            exact data_eq
          · rw [Option.some.injEq] at ran
            subst ran
            exact delivered.leave fun d' call' => by rw [only d' call']; exact data_eq

theorem reach_delivered (several : 2 ≤ n) (reach : BcastObj.Reach n calls c) :
    Delivered n calls c := by
  induction reach with
  | create =>
      constructor
      · intro t inside d data call has
        cases has
      · intro k t d inside call past
        exact absurd past (Nat.not_lt_zero k)
  | step before inside taken ih =>
      obtain ⟨s, m, addr, held, follows⟩ := reach_followed several before
      exact ih.step follows several inside taken

end Results

/-! ## The handles in use -/

/-- The handle that a thread is at. -/
def BcastPc.item : BcastPc → Option Nat
  | .alloc item _ | .post item _ | .await item | .depart item _ => some item
  | _ => none

namespace BcastObj

variable (calls : List BcastCall) (c : BcastObj)

/-- Thread `t` has made its last access to the handle of call `k`. -/
def Past (k t : Nat) : Prop := k < c.call t ∨ k = c.call t ∧ (c.pc t).leaving = true

instance (k t : Nat) : Decidable (c.Past k t) := by
  unfold Past
  infer_instance

/-- How many broadcasts from `r` thread `t` is behind. -/
def passed (r t : Nat) : Nat :=
  (calls.take (c.call t + if (c.pc t).leaving then 1 else 0)).countP (·.root == r)

/-- Of the broadcasts from `r`, the first `finished` ones are behind all threads; `live` are the
handles of the next ones, in their order. -/
structure InUse (n r finished : Nat) (live : List Nat) : Prop where
  behind : ∀ t < n, finished ≤ c.passed calls r t
  attained : ∃ t < n, c.passed calls r t = finished
  chain : Path (c.bcoArray r).cells.next (c.bcoArray r).first live none
  started : live ≠ []
  nodup : live.Nodup
  item : ∀ t < n, ∀ h, (c.pc t).item = some h → rootAt calls (c.call t) = some r →
    live[c.passed calls r t - finished]? = some h
  cursor : ∀ t < n, ∀ h, (c.bcoArray r).cursor t = some h → h ∈ live
  notFree : ∀ h ∈ live, ¬ ∃ front, Path (c.bcoArray r).cells.next (c.bcoArray r).cells.free front
    (some h)
  notFreed : ∀ h ∈ live, ∀ t item pc data, c.pc t = .free item pc data →
    rootAt calls (c.call t) = some r → item ≠ h

end BcastObj

section InUse

variable {n : Nat} {calls : List BcastCall} {c c' : BcastObj} {s : Objects} {m : Nat → Nat}
  {addr held : Nat → Nat → Nat} {r t : Nat}

theorem turn_collective (r k : Nat) :
    turn (bcastKind n r).on (calls.map BcastCall.collective) k =
      (calls.take k).countP (·.root == r) := by
  rw [turn, ← List.map_take, List.countP_map]
  rfl

theorem Follows.passed (follows : Follows n calls c s m addr held) (inside : t < n) (r : Nat) :
    c.passed calls r t = turn (bcastKind n r).on (calls.map BcastCall.collective) (s.call t) := by
  rw [turn_collective, follows.call t inside]
  rfl

theorem BcastPc.Shows.item {addr : Nat → Nat} {pc : BcastPc} {pc' : Pc} {h : Nat}
    (shows' : pc.Shows addr pc') (item : pc.item = some h) :
    ∃ a, pc'.item = some a ∧ h = addr a := by
  cases shows' with
  | idle | free => cases item
  | alloc a | post a | await a | depart a => exact ⟨a, rfl, (Option.some.inj item).symm⟩

/-- The handles of a queue. -/
theorem Follows.inUse (follows : Follows n calls c s m addr held) (several : 2 ≤ n) (r : Nat) :
    ∃ live, c.InUse calls n r (m r) live ∧ ∀ h ∈ live, 0 < held r h := by
  have tracks := follows.queues r
  have queue := (reach_invariant several follows.reach).bco r
  obtain ⟨l, place, used, path, some', apart⟩ := tracks.window.live queue tracks.mirror
  have holds : ∀ h ∈ l.map (addr r), 0 < held r h := by
    intro h member
    obtain ⟨b, here, rfl⟩ := List.mem_map.mp member
    exact tracks.inUse b (used b here)
  have kept : ∀ h ∈ l.map (addr r), (c.handles calls r (held r)).Exclusive n h :=
    fun h member => Handles.sole_exclusive several tracks.handles (holds h member)
  refine ⟨l.map (addr r), ⟨?_, ?_, path, some', apart, ?_, ?_,
    fun h member => (kept h member).notListed, ?_⟩, holds⟩
  · intro t inside
    rw [follows.passed inside]
    exact tracks.window.behind t inside
  · obtain ⟨t, inside, least⟩ := tracks.attained
    exact ⟨t, inside, (follows.passed inside r).trans least⟩
  · intro t inside h item on
    have busy : c.pc t ≠ .idle := by
      intro idle
      rw [idle] at item
      cases item
    obtain ⟨r', here, shows'⟩ := follows.pc t inside
    have same := here.resolve_left busy
    rw [on, Option.some.injEq] at same
    subst same
    obtain ⟨b, has, rfl⟩ := shows'.item item
    obtain ⟨r', on', level, -, -⟩ := follows.used_item several inside has
    have on'' : onCall (bcastKind n r).on (calls.map BcastCall.collective) (s.call t) = true := by
      rw [level]
      exact on_iff.mpr on
    have low := tracks.window.behind t inside
    have slot := (queue.thread t inside on'').item b has
    rw [List.getElem?_map, place, follows.passed inside, Nat.add_sub_of_le low, slot]
    rfl
  · intro t inside h cursor
    rw [tracks.mirror.cursor t inside, Option.map_eq_some_iff] at cursor
    obtain ⟨b, set, rfl⟩ := cursor
    have low : m r ≤ moved (bcastKind n r).on (calls.map BcastCall.collective) s t :=
      le_trans (tracks.window.behind t inside) (Nat.le_add_right _ _)
    rcases queue.cursor t inside with ⟨unset, -⟩ | ⟨b', set', slot⟩
    · rw [set] at unset
      cases unset
    · rw [set, Option.some.injEq] at set'
      subst set'
      refine List.mem_map_of_mem (List.mem_iff_getElem?.mpr
        ⟨moved (bcastKind n r).on (calls.map BcastCall.collective) s t - m r, ?_⟩)
      rw [place, Nat.add_sub_of_le low, slot]
  · intro h member t item pc data at' on same
    have outside := (kept h member).notInside t
    rw [handles_pc on, at'] at outside
    exact outside same.symm

/-- The handle of a call is freed when all threads are past it. -/
theorem Follows.frees (follows : Follows n calls c s m addr held) {k : Nat} {d : BcastCall}
    (call : calls[k]? = some d) : c.frees k = if ∀ t < n, c.Past k t then 1 else 0 := by
  have tracks := follows.queues d.root
  have on : onCall (bcastKind n d.root).on (calls.map BcastCall.collective) k = true :=
    on_iff.mpr (rootAt_of call)
  have past : ∀ t < n, c.Past k t ↔ k < s.call t := by
    intro t inside
    rw [follows.call t inside, BcastObj.Past]
    cases (c.pc t).leaving with
    | false => simp
    | true =>
        simp only [and_true, if_true]
        omega
  rw [tracks.frees k (rootAt_of call)]
  congr 1
  rw [eq_iff_iff]
  constructor
  · intro behind t inside
    rw [past t inside]
    by_contra early
    have up : turn (bcastKind n d.root).on (calls.map BcastCall.collective) (s.call t) ≤
        turn (bcastKind n d.root).on (calls.map BcastCall.collective) k :=
      turn_mono (Nat.le_of_not_lt early)
    have low := tracks.window.behind t inside
    omega
  · intro all
    obtain ⟨t, inside, least⟩ := tracks.attained
    have up := turn_lt on ((past t inside).mp (all t inside))
    omega

/-- A handle that an allocation returns is not in use. -/
theorem Follows.alloc (follows : Follows n calls c s m addr held) (several : 2 ≤ n)
    {d : BcastCall} (call : calls[c.call t]? = some d)
    (taken : c.step n calls (.run t) = some c') {item newitem : Nat} {pc : AllocPc}
    (before : c.pc t = .alloc item pc) (after : c'.pc t = .post item newitem) {live : List Nat}
    (holds : ∀ h ∈ live, 0 < held d.root h) : newitem ∉ live := by
  have tracks := follows.queues d.root
  have ran : c.tmpiBcoBcast n t d = some c' := by
    rw [BcastObj.step, call] at taken
    exact taken
  simp only [BcastObj.tmpiBcoBcast, before] at ran
  split at ran
  next cells pc' made =>
    rw [Option.some.injEq] at ran
    subst ran
    simp [BcastObj.goto] at after
  next cells newitem' made =>
    rw [Option.some.injEq] at ran
    subst ran
    obtain rfl : newitem' = newitem := by simpa [BcastObj.goto] using after
    intro member
    have held' := holds newitem' member
    rw [tracks.unheld several (rootAt_of call) before made] at held'
    exact Nat.lt_irrefl 0 held'

/-- What holds of the broadcasts of a machine at any time. -/
structure BcastObj.Safe (n : Nat) (calls : List BcastCall) (c : BcastObj) : Prop where
  results : ∀ k d t, calls[k]? = some d → t < n → k < c.call t →
    c.results k t = some (d.gets (c.args k) t)
  frees : ∀ k < calls.length, c.frees k = if ∀ t < n, c.Past k t then 1 else 0
  handles : ∀ r, ∃ finished live, c.InUse calls n r finished live ∧
    ∀ t c' item newitem pc, c.step n calls (.run t) = some c' → c.pc t = .alloc item pc →
      c'.pc t = .post item newitem → rootAt calls (c.call t) = some r → newitem ∉ live

theorem bcast_safe (several : 2 ≤ n) (reach : BcastObj.Reach n calls c) : c.Safe n calls := by
  obtain ⟨s, m, addr, held, follows⟩ := reach_followed several reach
  refine ⟨fun k d t call inside past => ?_, fun k low => ?_, fun r => ?_⟩
  · exact (reach_delivered several reach).results k t d inside call past
  · exact follows.frees (List.getElem?_eq_getElem low)
  · obtain ⟨live, inUse, holds⟩ := follows.inUse several r
    refine ⟨m r, live, inUse, fun t c' item newitem pc taken before after on => ?_⟩
    obtain ⟨d, call, rfl⟩ := Option.map_eq_some_iff.mp on
    exact follows.alloc several call taken before after holds

/-- Two broadcasts of thread 0, whose `len` thread 1 has smaller in the first, and one of thread 2
between them. -/
def fromBothEnds : List BcastCall :=
  [⟨0, fun t => if t = 1 then 2 else 3⟩, ⟨2, fun _ => 1⟩, ⟨0, fun _ => 2⟩]

/-- Three threads make the calls. Thread 1 is already in the second one while thread 2 frees the
handle of the first, which thread 0 then takes again for the third. -/
def threeBroadcasts : List BcastObj.Act :=
  [.enter 0 [1, 2, 3], .run 0, .run 0, .run 0, .run 0,
    .enter 1 [0, 0, 0, 9], .enter 2 [7, 7, 7], .run 2, .run 1, .run 1,
    .enter 1 [4], .run 2, .run 2, .run 2, .run 2, .run 2,
    .enter 2 [8], .enter 0 [0], .run 2, .run 2, .run 2, .run 2,
    .run 0, .run 1, .run 1, .run 0, .run 0, .run 0, .run 0, .run 0,
    .enter 0 [5, 6], .run 0, .run 0, .run 0, .run 0,
    .enter 1 [0, 0], .run 1, .run 1]

theorem bcast_safe_three : ∃ c : BcastObj, c.Safe 3 fromBothEnds ∧
    [c.results 0 1, c.results 0 2, c.results 1 0, c.results 2 1] =
      [some [1, 2, 0, 9], some [1, 2, 3], some [8], some [5, 6]] ∧
    [c.frees 0, c.frees 1, c.frees 2] = [1, 1, 0] := by
  have ends : ((BcastObj.create 3 fun _ _ => ⟨0, [], 0⟩).run 3 fromBothEnds threeBroadcasts).map
      (fun c => ([c.results 0 1, c.results 0 2, c.results 1 0, c.results 2 1],
        [c.frees 0, c.frees 1, c.frees 2])) =
        some ([some [1, 2, 0, 9], some [1, 2, 3], some [8], some [5, 6]], [1, 1, 0]) := by
    decide +kernel
  obtain ⟨c, runs, equal⟩ := Option.map_eq_some_iff.mp ends
  have reach := (BcastObj.Reach.create fun _ _ => ⟨0, [], 0⟩).run (by decide) runs
  exact ⟨c, bcast_safe (by decide) reach, congrArg Prod.fst equal, congrArg Prod.snd equal⟩

end InUse

end Tmpi.Coll
