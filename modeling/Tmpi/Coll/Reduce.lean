import Tmpi.Coll.Recycling

/-! `reduce.c` with a correct allocator: the reduces of one machine, where a handle that has been
freed may be handed out again.

A step of a thread is one locked region, atomic load, `cas32` or `aadd32`, or one call of the
allocator, with the code up to the next one. -/

namespace Tmpi.Coll

open Chain

/-- `tmpi_RDCQueue`. `allocated` are the handles that the allocator has given out. -/
structure RDCQueue where
  mem : Nat → RDCHandle
  next : Nat → Option Nat
  first : Option Nat
  cursor : Nat → Option Nat
  allocated : Nat → Bool

/-- `tmpi_rdcq_create`; `memory` is what `malloc` has returned. -/
def RDCQueue.create (memory : Nat → RDCHandle) : RDCQueue where
  mem := Function.update memory 0 { memory 0 with avail := -1 }
  next _ := none
  first := some 0
  cursor _ := none
  allocated h := h == 0

/-- Where a thread is inside `tmpi_rdco_reduce`. -/
inductive ReducePc where
  | idle
  /-- Has its handle. -/
  | look (item : Nat)
  /-- Has found `avail==-1`. -/
  | alloc (item : Nat)
  | claim (item newitem : Nat)
  /-- Another thread has been the first; frees `newitem`. -/
  | discard (item newitem : Nat)
  /-- Has been the first. -/
  | publish (item newitem : Nat)
  /-- Waits until `avail` is set. -/
  | await (item : Nat)
  | combine (item i : Nat)
  /-- Inside `rdc_int_max` or `rdc_int_min`, before the `cas32`. -/
  | cas (item i : Nat) (tmp1 : BitVec 32)
  | bump (item : Nat)
  /-- The root waits for the others; `newitem` if it has been the first. -/
  | gather (item : Nat) (newitem : Option Nat)
  /-- The root has its result, and frees the handle. -/
  | release (item : Nat) (newitem : Option Nat) (b : Buffers)

/-- A reduce that all threads make. -/
structure ReduceCall where
  root : Nat
  op : RdcOp
  count : Nat

/-- `tmpi_ReduceObj` and the threads. `args` and `results` are what each thread has passed to each
call and what its buffers are when it returns. -/
structure ReduceObj where
  rdcoArray : Nat → RDCQueue
  pc : Nat → ReducePc
  call : Nat → Nat
  args : Nat → Nat → Buffers
  results : Nat → Nat → Option Buffers

namespace ReduceObj

/-- `tmpi_rdco_create`, before the first call. -/
def create (memory : Nat → Nat → RDCHandle) : ReduceObj where
  rdcoArray r := .create (memory r)
  pc _ := .idle
  call _ := 0
  args _ _ := ⟨[], fun _ => 0, fun _ => 0⟩
  results _ _ := none

variable (groupSize : Nat) (s : ReduceObj) (t : Nat)

/-- What thread `t` has passed to the call it is in. -/
def current : Buffers := s.args (s.call t) t

def setQueue (root : Nat) (q : RDCQueue) : ReduceObj :=
  { s with rdcoArray := Function.update s.rdcoArray root q }

def goto (pc : ReducePc) : ReduceObj := { s with pc := Function.update s.pc t pc }

def pass (b : Buffers) : ReduceObj :=
  { s with args := Function.update s.args (s.call t) (Function.update (s.args (s.call t)) t b) }

/-- Thread `t` returns from its call. -/
def leave (b : Buffers) : ReduceObj :=
  { s with
    pc := Function.update s.pc t .idle
    call := Function.update s.call t (s.call t + 1)
    results := Function.update s.results (s.call t)
      (Function.update (s.results (s.call t)) t (some b)) }

/-- Thread `t` makes its next call. -/
def enter (b : Buffers) (c : ReduceCall) : Option ReduceObj :=
  if groupSize < 2 then
    (memcpyInts b.recvbuf b.sendbuf (intsLen c.count)).map fun recvbuf =>
      (s.pass t b).leave t { b with recvbuf }
  else
    let q := s.rdcoArray c.root
    ((q.cursor t).or q.first).map fun item => (s.pass t b).goto t (.look item)

/-- `h` is what the allocator returns, if it is called. -/
def tmpiRdcoReduce (h : Nat) (c : ReduceCall) : Option ReduceObj :=
  let q := s.rdcoArray c.root
  let b := s.current t
  match s.pc t with
  | .idle => none
  | .look item =>
      if (q.mem item).avail = -1 then some (s.goto t (.alloc item))
      else some (s.goto t (.await item))
  | .alloc item =>
      if q.allocated h then none
      else
        let q := { q with
          allocated := Function.update q.allocated h true
          mem := Function.update q.mem h { q.mem h with avail := -1 }
          next := Function.update q.next h none }
        some ((s.setQueue c.root q).goto t (.claim item h))
  | .claim item newitem =>
      if (q.mem item).avail = -1 then
        let mem := Function.update q.mem item { q.mem item with avail := 0 }
        some ((s.setQueue c.root { q with mem }).goto t (.publish item newitem))
      else some (s.goto t (.discard item newitem))
  | .discard item newitem =>
      let allocated := Function.update q.allocated newitem false
      some ((s.setQueue c.root { q with allocated }).goto t (.await item))
  | .publish item newitem =>
      let next := Function.update q.next item (some newitem)
      let len := intsLen c.count
      if t = c.root then
        (memcpyInts b.recvbuf b.sendbuf len).map fun data =>
          let mem := Function.update q.mem item ⟨1, data, c.count⟩
          (s.setQueue c.root { q with next, mem }).goto t (.gather item (some newitem))
      else
        let cursor := Function.update q.cursor t (some newitem)
        let publishes := fun handle =>
          let mem := Function.update q.mem item handle
          some ((s.setQueue c.root { q with next, mem, cursor }).leave t b)
        -- `cm_alloc` has no block of a negative length, and the others find no elements
        if len < 0 then publishes ⟨1, (q.mem item).data, 0⟩
        else if len = 4 * c.count then publishes ⟨1, b.sendbuf, c.count⟩
        -- the others would write behind a block that is too short
        else none
  | .await item =>
      if (q.mem item).avail = 0 then none else some (s.goto t (.combine item 0))
  | .combine item i =>
      let handle := q.mem item
      if i < min c.count handle.count then
        match c.op with
        | .sum =>
            let data := Function.update handle.data i (handle.data i + b.sendbuf i)
            let mem := Function.update q.mem item { handle with data }
            some ((s.setQueue c.root { q with mem }).goto t (.combine item (i + 1)))
        | op =>
            if rdcBreak op (handle.data i) (b.sendbuf i) then some (s.goto t (.combine item (i + 1)))
            else some (s.goto t (.cas item i (handle.data i)))
      else
        let cursor := Function.update q.cursor t (q.next item)
        some ((s.setQueue c.root { q with cursor }).goto t (.bump item))
  | .cas item i tmp1 =>
      let handle := q.mem item
      if handle.data i = tmp1 then
        let data := Function.update handle.data i (b.sendbuf i)
        let mem := Function.update q.mem item { handle with data }
        some ((s.setQueue c.root { q with mem }).goto t (.combine item (i + 1)))
      else some (s.goto t (.combine item i))
  | .bump item =>
      let mem := Function.update q.mem item { q.mem item with avail := (q.mem item).avail + 1 }
      let s := s.setQueue c.root { q with mem }
      if t = c.root then some (s.goto t (.gather item none)) else some (s.leave t b)
  | .gather item newitem =>
      if (q.mem item).avail ≠ groupSize then none
      else
        let data := (q.mem item).data
        let count := min c.count (q.mem item).count
        -- the root that has been the first has combined in its `recvbuf`
        let recvbuf := if newitem.isSome then some (copyInts b.recvbuf data count)
          else memcpyInts b.recvbuf data (intsLen count)
        recvbuf.map fun recvbuf => (s.setQueue c.root { q with first := q.next item }).goto t
          (.release item newitem { b with recvbuf })
  | .release item newitem b =>
      let allocated := Function.update q.allocated item false
      let cursor := match newitem with
        | some newitem => Function.update q.cursor t (some newitem)
        | none => q.cursor
      some ((s.setQueue c.root { q with allocated, cursor }).leave t b)

inductive Act where
  | enter (t : Nat) (b : Buffers)
  /-- With what the allocator returns, if it is called. -/
  | run (t h : Nat)

def Act.thread : Act → Nat
  | .enter t _ => t
  | .run t _ => t

/-- A step of a machine whose threads make the `calls`, in their order. -/
def step (calls : List ReduceCall) : Act → Option ReduceObj
  | .enter t b =>
      match s.pc t with
      | .idle => (calls[s.call t]?).bind (s.enter groupSize t b)
      | _ => none
  | .run t h => (calls[s.call t]?).bind (s.tmpiRdcoReduce groupSize t h)

/-- Runs of the threads `0, .., groupSize - 1`. -/
inductive Reach (calls : List ReduceCall) : ReduceObj → Prop where
  | create (memory : Nat → Nat → RDCHandle) : Reach calls (create memory)
  | step {s₁ s₂ act} : Reach calls s₁ → act.thread < groupSize →
      s₁.step groupSize calls act = some s₂ → Reach calls s₂

/-- The run of some actions. -/
def run (calls : List ReduceCall) : ReduceObj → List Act → Option ReduceObj
  | s, [] => some s
  | s, act :: acts => (s.step groupSize calls act).bind fun s => run calls s acts

variable {groupSize s} in
theorem Reach.run {calls : List ReduceCall} {s' : ReduceObj} {acts : List Act}
    (reach : Reach groupSize calls s) (inside : ∀ act ∈ acts, act.thread < groupSize)
    (runs : s.run groupSize calls acts = some s') : Reach groupSize calls s' := by
  induction acts generalizing s with
  | nil => exact Option.some.inj runs ▸ reach
  | cons act acts ih =>
      obtain ⟨mid, taken, rest⟩ := Option.bind_eq_some_iff.mp runs
      exact ih (.step reach (inside act List.mem_cons_self) taken)
        (fun a later => inside a (List.mem_cons_of_mem act later)) rest

end ReduceObj

/-! ## The handles at their addresses -/

theorem Published.avail_pos {n root count : Nat} {op : Option RdcOp} {p : Party} {h : RDCHandle}
    {next : Option Nat} (cell : Published n root op count p h next) : 0 < h.avail := by
  rw [cell.avail]
  exact_mod_cast cell.begun

/-- Behind the claim, `avail` is set. -/
theorem ReduceCell.avail_of_waiting {n root count item t : Nat} {op : Option RdcOp} {p : Party} {h : RDCHandle}
    {next : Option Nat} (cell : ReduceCell n root op count p h next) (inside : t < n)
    (stage : p.stage t = .inside (.await item)) : h.avail ≠ -1 := by
  cases cell with
  | unclaimed cell =>
      have early := cell.stages t inside
      rw [stage] at early
      cases early
  | claimed cell => simp [cell.avail]
  | published cell =>
      have := Published.avail_pos cell
      omega

/-- What is stored for a handle: before its data is there, only `avail` matters. -/
def RDCHandle.Stores (stored handle : RDCHandle) : Prop :=
  stored.avail = handle.avail ∧ (0 < handle.avail → stored = handle)

/-- The bytes of the reduce fit the `int len` of the code. -/
def ReduceCall.Small (c : ReduceCall) : Prop := 4 * c.count < 2^31

instance ReduceCall.decidableSmall (c : ReduceCall) : Decidable c.Small := inferInstanceAs (Decidable (_ < _))

def ReduceCall.collective (c : ReduceCall) : Collective := .reduce c.root (some c.op) c.count

namespace ReducePc

/-- Has its result. -/
def leaving : ReducePc → Bool
  | .release .. => true
  | _ => false

/-- The place of a thread where handles are not handed out again. A thread that allocates after
another one has been the first does not allocate there. -/
inductive Shows (addr : Nat → Nat) : ReducePc → Pc → Prop where
  | idle : Shows addr .idle .idle
  | look (a : Nat) : Shows addr (.look (addr a)) (.look a)
  | alloc (a : Nat) : Shows addr (.alloc (addr a)) (.look a)
  | claim (a b : Nat) : Shows addr (.claim (addr a) (addr b)) (.claim a b)
  | late (a h : Nat) : Shows addr (.claim (addr a) h) (.await a)
  | discard (a h : Nat) : Shows addr (.discard (addr a) h) (.await a)
  | publish (a b : Nat) : Shows addr (.publish (addr a) (addr b)) (.publish a b)
  | await (a : Nat) : Shows addr (.await (addr a)) (.await a)
  | combine (a i : Nat) : Shows addr (.combine (addr a) i) (.combine a i)
  | cas (a i : Nat) (tmp1 : BitVec 32) : Shows addr (.cas (addr a) i tmp1) (.combine a i)
  | bump (a : Nat) : Shows addr (.bump (addr a)) (.bump a)
  | gather (a : Nat) (o : Option Nat) : Shows addr (.gather (addr a) (o.map addr)) (.gather a o)
  | release (item : Nat) (o : Option Nat) (b : Buffers) : Shows addr (.release item o b) .idle

/-- `h` is allocated for a thread and is nowhere where handles are not handed out again. -/
def Extra (h : Nat) : ReducePc → Pc → Prop
  | .claim _ newitem, .await _ => h = newitem
  | .discard _ newitem, _ => h = newitem
  | .release item _ _, _ => h = item
  | _, _ => False

theorem Shows.congr {addr addr' : Nat → Nat} {pc : ReducePc} {pc' : Pc}
    (shows' : pc.Shows addr pc') (same : ∀ a, pc'.item = some a → addr' a = addr a)
    (spare : ∀ a, pc'.spare = some a → addr' a = addr a)
    (linked : ∀ a b, pc' = .gather a (some b) → addr' b = addr b) : pc.Shows addr' pc' := by
  cases shows' with
  | idle => exact .idle
  | look a => exact same a rfl ▸ .look a
  | alloc a => exact same a rfl ▸ .alloc a
  | claim a b => exact same a rfl ▸ spare b rfl ▸ .claim a b
  | late a h => exact same a rfl ▸ .late a h
  | discard a h => exact same a rfl ▸ .discard a h
  | publish a b => exact same a rfl ▸ spare b rfl ▸ .publish a b
  | await a => exact same a rfl ▸ .await a
  | combine a i => exact same a rfl ▸ .combine a i
  | cas a i tmp1 => exact same a rfl ▸ .cas a i tmp1
  | bump a => exact same a rfl ▸ .bump a
  | gather a o =>
      have renamed : o.map addr = o.map addr' := by
        cases o with
        | none => rfl
        | some b => exact congrArg some (linked a b rfl).symm
      rw [renamed]
      exact same a rfl ▸ .gather a o
  | release item o b => exact .release item o b

theorem Shows.of_idle {addr : Nat → Nat} {pc' : Pc} (shows' : ReducePc.idle.Shows addr pc') :
    pc' = .idle := by
  cases shows' with
  | idle => rfl

theorem Shows.of_look {addr : Nat → Nat} {item : Nat} {pc' : Pc}
    (shows' : (ReducePc.look item).Shows addr pc') : ∃ a, item = addr a ∧ pc' = .look a := by
  cases shows' with
  | look a => exact ⟨a, rfl, rfl⟩

theorem Shows.of_alloc {addr : Nat → Nat} {item : Nat} {pc' : Pc}
    (shows' : (ReducePc.alloc item).Shows addr pc') : ∃ a, item = addr a ∧ pc' = .look a := by
  cases shows' with
  | alloc a => exact ⟨a, rfl, rfl⟩

theorem Shows.of_claim {addr : Nat → Nat} {item newitem : Nat} {pc' : Pc}
    (shows' : (ReducePc.claim item newitem).Shows addr pc') : ∃ a, item = addr a ∧
      ((∃ b, newitem = addr b ∧ pc' = .claim a b) ∨ pc' = .await a) := by
  cases shows' with
  | claim a b => exact ⟨a, rfl, .inl ⟨b, rfl, rfl⟩⟩
  | late a h => exact ⟨a, rfl, .inr rfl⟩

theorem Shows.of_discard {addr : Nat → Nat} {item newitem : Nat} {pc' : Pc}
    (shows' : (ReducePc.discard item newitem).Shows addr pc') :
    ∃ a, item = addr a ∧ pc' = .await a := by
  cases shows' with
  | discard a h => exact ⟨a, rfl, rfl⟩

theorem Shows.of_publish {addr : Nat → Nat} {item newitem : Nat} {pc' : Pc}
    (shows' : (ReducePc.publish item newitem).Shows addr pc') :
    ∃ a b, item = addr a ∧ newitem = addr b ∧ pc' = .publish a b := by
  cases shows' with
  | publish a b => exact ⟨a, b, rfl, rfl, rfl⟩

theorem Shows.of_await {addr : Nat → Nat} {item : Nat} {pc' : Pc}
    (shows' : (ReducePc.await item).Shows addr pc') : ∃ a, item = addr a ∧ pc' = .await a := by
  cases shows' with
  | await a => exact ⟨a, rfl, rfl⟩

theorem Shows.of_combine {addr : Nat → Nat} {item i : Nat} {pc' : Pc}
    (shows' : (ReducePc.combine item i).Shows addr pc') :
    ∃ a, item = addr a ∧ pc' = .combine a i := by
  cases shows' with
  | combine a i => exact ⟨a, rfl, rfl⟩

theorem Shows.of_cas {addr : Nat → Nat} {item i : Nat} {tmp1 : BitVec 32} {pc' : Pc}
    (shows' : (ReducePc.cas item i tmp1).Shows addr pc') :
    ∃ a, item = addr a ∧ pc' = .combine a i := by
  cases shows' with
  | cas a i tmp1 => exact ⟨a, rfl, rfl⟩

theorem Shows.of_bump {addr : Nat → Nat} {item : Nat} {pc' : Pc}
    (shows' : (ReducePc.bump item).Shows addr pc') : ∃ a, item = addr a ∧ pc' = .bump a := by
  cases shows' with
  | bump a => exact ⟨a, rfl, rfl⟩

theorem Shows.of_gather {addr : Nat → Nat} {item : Nat} {newitem : Option Nat} {pc' : Pc}
    (shows' : (ReducePc.gather item newitem).Shows addr pc') :
    ∃ a o, item = addr a ∧ newitem = o.map addr ∧ pc' = .gather a o := by
  cases shows' with
  | gather a o => exact ⟨a, o, rfl, rfl, rfl⟩

theorem Shows.of_release {addr : Nat → Nat} {item : Nat} {newitem : Option Nat} {b : Buffers}
    {pc' : Pc} (shows' : (ReducePc.release item newitem b).Shows addr pc') : pc' = .idle := by
  cases shows' with
  | release => rfl

theorem Shows.item_staying {addr : Nat → Nat} {pc : ReducePc} {pc' : Pc} {a : Nat}
    (shows' : pc.Shows addr pc') (item : pc'.item = some a) : pc.leaving = false := by
  cases shows' with
  | idle | release => cases item
  | _ => rfl

end ReducePc

namespace ReduceObj

section Tracks

variable (n : Nat) (calls : List ReduceCall)

/-- The root of call `k`. -/
def rootAt (k : Nat) : Option Nat := calls[k]?.map (·.root)

def Uses (s : Objects) (r m a : Nat) : Prop :=
  Used (reduceKind n r) (calls.map ReduceCall.collective) s (s.rdco r) m a

/-- What a thread will keep under `key_curhandle` when it returns from its call. -/
def cursors (c : ReduceObj) (r t : Nat) : Option Nat :=
  match c.pc t with
  | .release _ newitem _ =>
      if rootAt calls (c.call t) = some r then newitem.or ((c.rdcoArray r).cursor t)
      else (c.rdcoArray r).cursor t
  | _ => (c.rdcoArray r).cursor t

/-- The queue of the reduces to thread `r`, of which it has finished `m`. -/
structure Tracks (c : ReduceObj) (s : Objects) (r m : Nat) (addr : Nat → Nat) : Prop where
  window : Window (reduceKind n r) (calls.map ReduceCall.collective) s (s.rdco r) m
  finished : r < n → turn (reduceKind n r).on (calls.map ReduceCall.collective) (s.call r) = m
  mirror : Mirror n RDCHandle.Stores (Uses n calls s r m) addr (s.rdco r) (c.rdcoArray r).mem
    (c.rdcoArray r).next (c.rdcoArray r).first (cursors calls c r)
  inUse : ∀ a, Uses n calls s r m a → (c.rdcoArray r).allocated (addr a) = true
  extra : ∀ t < n, ∀ h, rootAt calls (c.call t) = some r → (c.pc t).Extra h (s.pc t) →
    (c.rdcoArray r).allocated h = true ∧ (∀ a, Uses n calls s r m a → addr a ≠ h) ∧
      ∀ u < n, u ≠ t → rootAt calls (c.call u) = some r → ¬ (c.pc u).Extra h (s.pc u)

/-- A run in which no handle is handed out again, and where its handles are stored. -/
structure Follows (c : ReduceObj) (s : Objects) (m : Nat → Nat) (addr : Nat → Nat → Nat) :
    Prop where
  reach : Coll.Reach n (calls.map ReduceCall.collective) s
  call : ∀ t < n, s.call t = c.call t + if (c.pc t).leaving then 1 else 0
  pc : ∀ t < n, ∃ r, (c.pc t = .idle ∨ rootAt calls (c.call t) = some r) ∧
    (c.pc t).Shows (addr r) (s.pc t)
  cas : ∀ t < n, ∀ item i tmp1 d, c.pc t = .cas item i tmp1 → calls[c.call t]? = some d →
    i < d.count ∧ d.op ≠ .sum ∧ rdcBreak d.op tmp1 ((c.current t).sendbuf i) = false
  args : s.args = c.args
  results : ∀ t < n, ∀ k, k < c.call t → c.results k t = s.results k t
  released : ∀ t < n, ∀ item newitem b, c.pc t = .release item newitem b →
    s.results (c.call t) t = some b
  queues : ∀ r, Tracks n calls c s r (m r) (addr r)

/-- A run in which no handle is handed out again corresponds to every run. -/
def Followed (c : ReduceObj) : Prop := ∃ s m addr, Follows n calls c s m addr

end Tracks

section Steps

variable {n : Nat} {calls : List ReduceCall} {c c' : ReduceObj} {s s' : Objects} {m : Nat → Nat}
  {addr : Nat → Nat → Nat} {r root t : Nat} {q : RDCQueue}

theorem rootAt_of {d : ReduceCall} {k : Nat} (call : calls[k]? = some d) :
    rootAt calls k = some d.root := by
  rw [rootAt, call]
  rfl

theorem collective_at {d : ReduceCall} {k : Nat} (call : calls[k]? = some d) :
    (calls.map ReduceCall.collective)[k]? = some (.reduce d.root (some d.op) d.count) := by
  rw [List.getElem?_map, call]
  rfl

theorem on_iff {k : Nat} : onCall (reduceKind n r).on (calls.map ReduceCall.collective) k = true ↔
    rootAt calls k = some r := by
  rw [onCall, rootAt, List.getElem?_map]
  cases calls[k]? with
  | none => simp
  | some c => simp [ReduceCall.collective, reduceKind]

/-- What a step in a call on the queue of `root` leaves alone. -/
structure Turns (c c' : ReduceObj) (t root : Nat) (q : RDCQueue) : Prop where
  queues : c'.rdcoArray = Function.update c.rdcoArray root q
  pc : ∀ u, u ≠ t → c'.pc u = c.pc u
  call : ∀ u, u ≠ t → c'.call u = c.call u
  own : c'.call t = c.call t ∨ c'.call t = c.call t + 1 ∧ c'.pc t = .idle
  args : ∀ k u, u ≠ t → c'.args k u = c.args k u
  results : ∀ k u, u ≠ t ∨ k ≠ c.call t → c'.results k u = c.results k u

theorem turns_goto (c : ReduceObj) (root t : Nat) (q : RDCQueue) (pc : ReducePc) :
    Turns c ((c.setQueue root q).goto t pc) t root q :=
  ⟨rfl, fun _ other => Function.update_of_ne other _ _, fun _ _ => rfl, .inl rfl,
    fun _ _ _ => rfl, fun _ _ _ => rfl⟩

theorem goto_pc (c : ReduceObj) (t : Nat) (pc : ReducePc) : (c.goto t pc).pc t = pc :=
  Function.update_self _ _ _

theorem leave_pc (c : ReduceObj) (t : Nat) (b : Buffers) : (c.leave t b).pc t = .idle :=
  Function.update_self _ _ _

theorem update_apart {α : Type} {f : Nat → Nat → α} {k j u t : Nat} {x : α}
    (apart : u ≠ t ∨ k ≠ j) : Function.update f j (Function.update (f j) t x) k u = f k u := by
  by_cases same : k = j
  · subst same
    rw [Function.update_self, Function.update_of_ne (apart.resolve_right fun ne => ne rfl)]
  · rw [Function.update_of_ne same]

theorem turns_leave (c : ReduceObj) (root t : Nat) (q : RDCQueue) (b : Buffers) :
    Turns c ((c.setQueue root q).leave t b) t root q :=
  ⟨rfl, fun _ other => Function.update_of_ne other _ _,
    fun _ other => Function.update_of_ne other _ _,
    .inr ⟨Function.update_self _ _ _, Function.update_self _ _ _⟩, fun _ _ _ => rfl,
    fun _ _ => update_apart⟩

theorem Turns.cursors_other (turns : Turns c c' t root q)
    (here : rootAt calls (c.call t) = some root) (away : r ≠ root) :
    cursors calls c' r = cursors calls c r := by
  have other : rootAt calls (c.call t) ≠ some r := fun same => by
    rw [here, Option.some.injEq] at same
    exact away same.symm
  have array : c'.rdcoArray r = c.rdcoArray r := by
    rw [turns.queues, Function.update_of_ne away]
  funext u
  by_cases self : u = t
  · subst self
    have before : cursors calls c r u = (c.rdcoArray r).cursor u := by
      unfold cursors
      split
      · rw [if_neg other]
      · rfl
    rw [before, ← array]
    rcases turns.own with stays | ⟨-, left⟩
    · unfold cursors
      split
      · rw [stays, if_neg other]
      · rfl
    · unfold cursors
      rw [left]
  · unfold cursors
    rw [turns.pc u self, turns.call u self, array]

/-- The queues of the other roots. -/
theorem Tracks.other {m : Nat} {addr : Nat → Nat} (tracks : Tracks n calls c s r m addr)
    (turns : Turns c c' t root q) (here : rootAt calls (c.call t) = some root) (away : r ≠ root)
    (moves : Moves s s' t) (off : onCall (reduceKind n r).on (calls.map ReduceCall.collective)
      (s.call t) = false ∨ s' = s)
    (queue : s'.rdco r = s.rdco r) : Tracks n calls c' s' r m addr := by
  have same : ∀ u, turn (reduceKind n r).on (calls.map ReduceCall.collective) (s'.call u) =
      turn (reduceKind n r).on (calls.map ReduceCall.collective) (s.call u) := by
    intro u
    rcases off with off | rfl
    · by_cases self : u = t
      · subst self
        rcases moves.own with stays | ⟨ahead, -⟩
        · rw [stays]
        · rw [ahead, turn_succ, off]
          simp
      · rw [moves.call u self]
    · rfl
  have fewer : ∀ a, Uses n calls s' r m a → Uses n calls s r m a := by
    intro a used
    rcases off with off | rfl
    · unfold Uses at used
      rw [queue] at used
      exact used_other moves off used
    · exact used
  have array : c'.rdcoArray r = c.rdcoArray r := by
    rw [turns.queues, Function.update_of_ne away]
  have on : ∀ u h, rootAt calls (c'.call u) = some r → (c'.pc u).Extra h (s'.pc u) →
      rootAt calls (c.call u) = some r ∧ (c.pc u).Extra h (s.pc u) := by
    intro u h on extra
    by_cases self : u = t
    · subst self
      rcases turns.own with stays | ⟨-, left⟩
      · rw [stays, here, Option.some.injEq] at on
        exact absurd on.symm away
      · rw [left] at extra
        exact extra.elim
    · rw [turns.pc u self, moves.pc u self] at extra
      rw [turns.call u self] at on
      exact ⟨on, extra⟩
  refine ⟨⟨?_, fun u inside => ?_⟩, fun low => ?_, ?_, fun a used => ?_, fun u inside h on' extra => ?_⟩
  · rw [queue]
    exact tracks.window.first
  · rw [same u]
    exact tracks.window.behind u inside
  · rw [same r]
    exact tracks.finished low
  · rw [array, queue, turns.cursors_other here away]
    exact tracks.mirror.shrink fewer
  · rw [array]
    exact tracks.inUse a (fewer a used)
  · obtain ⟨on', extra⟩ := on u h on' extra
    obtain ⟨holds, apart, alone⟩ := tracks.extra u inside h on' extra
    rw [array]
    refine ⟨holds, fun a used => apart a (fewer a used), fun v inside' other onV also => ?_⟩
    obtain ⟨onV, also⟩ := on v h onV also
    exact alone v inside' other onV also

theorem create_follows (memory : Nat → Nat → RDCHandle) :
    Follows n calls (create memory) Coll.create (fun _ => 0) (fun _ a => a) where
  reach := .create
  call _ _ := rfl
  pc _ _ := ⟨0, .inl rfl, .idle⟩
  cas := nofun
  args := rfl
  results _ _ k past := absurd past (Nat.not_lt_zero k)
  released := nofun
  queues r := by
    have used : ∀ a, Uses n calls Coll.create r 0 a → a = 0 := by
      rintro a (⟨i, -, here⟩ | ⟨t, -, -, spare⟩)
      · cases i with
        | zero => exact (Option.some.inj here).symm
        | succ i =>
            rw [nth_none (i := 1) rfl (by omega)] at here
            cases here
      · cases spare
    refine ⟨⟨⟨0, rfl, rfl⟩, fun t _ => Nat.zero_le _⟩, fun _ => rfl, ⟨?_, ?_, rfl, ?_, ?_⟩, ?_,
      fun _ _ _ _ extra => extra.elim⟩
    · intro a here
      rw [used a here]
      exact ⟨rfl, fun posted => absurd posted (by decide : ¬ (0 : Int) < -1)⟩
    · exact fun a here => rfl
    · exact fun t _ => rfl
    · intro a b here there _
      rw [used a here, used b there]
    · intro a here
      rw [used a here]
      rfl

/-- The handles of a thread are in use. -/
theorem Follows.used (follows : Follows n calls c s m addr) (several : 2 ≤ n) (inside : t < n)
    (on : rootAt calls (c.call t) = some r) {a : Nat} (item : (s.pc t).item = some a) :
    s.call t = c.call t ∧ Uses n calls s r (m r) a ∧
      (∀ b, (s.pc t).spare = some b → Uses n calls s r (m r) b) ∧
      ∀ b, s.pc t = .gather a (some b) → Uses n calls s r (m r) b := by
  have level : s.call t = c.call t := by
    obtain ⟨r', -, shows'⟩ := follows.pc t inside
    rw [follows.call t inside, shows'.item_staying item]
    rfl
  have inv := (reach_invariant several follows.reach).rdco r
  have on' : onCall (reduceKind n r).on (calls.map ReduceCall.collective) (s.call t) = true := by
    rw [level]
    exact on_iff.mpr on
  have used : Uses n calls s r (m r) a := (follows.queues r).window.used_item inv inside on' item
  refine ⟨level, used, fun b spare => .inr ⟨t, inside, on', spare⟩, fun b linked => ?_⟩
  exact used_next inv used ((inv.thread t inside on').linked a b linked)

/-- A step in a call on the queue of `root`. -/
theorem Follows.step (follows : Follows n calls c s m addr) (several : 2 ≤ n)
    (inside : t < n) {d : ReduceCall} (call : calls[c.call t]? = some d)
    (turns : Turns c c' t d.root q) (moves : Moves s s' t)
    (off : s.call t = c.call t ∨ s' = s) (queues : ∀ r, r ≠ d.root → s'.rdco r = s.rdco r)
    (reach : Coll.Reach n (calls.map ReduceCall.collective) s')
    (level : s'.call t = c'.call t + if (c'.pc t).leaving then 1 else 0)
    (args : s'.args = c'.args)
    (results : ∀ k u, u ≠ t ∨ k ≠ c.call t → s'.results k u = s.results k u)
    (own : c'.call t = c.call t + 1 → c'.results (c.call t) t = s'.results (c.call t) t)
    (released : ∀ item newitem b, c'.pc t = .release item newitem b →
      s'.results (c.call t) t = some b)
    (cas : ∀ item i tmp1, c'.pc t = .cas item i tmp1 → i < d.count ∧ d.op ≠ .sum ∧
      rdcBreak d.op tmp1 ((c'.args (c.call t) t).sendbuf i) = false) {addr' : Nat → Nat} {m' : Nat}
    (agree : ∀ a, Uses n calls s d.root (m d.root) a → addr' a = addr d.root a)
    (pc : (c'.pc t).Shows addr' (s'.pc t))
    (tracks : Tracks n calls c' s' d.root m' addr') :
    Follows n calls c' s' (Function.update m d.root m') (Function.update addr d.root addr') where
  reach := reach
  call u low := by
    by_cases self : u = t
    · subst self
      exact level
    · rw [turns.pc u self, turns.call u self, moves.call u self]
      exact follows.call u low
  pc u low := by
    by_cases self : u = t
    · subst self
      rcases turns.own with stays | ⟨-, left⟩
      · refine ⟨d.root, .inr (stays ▸ rootAt_of call), ?_⟩
        rw [Function.update_self]
        exact pc
      · refine ⟨d.root, .inl left, ?_⟩
        rw [Function.update_self]
        exact pc
    · rw [turns.pc u self, turns.call u self, moves.pc u self]
      obtain ⟨r, on, shows'⟩ := follows.pc u low
      refine ⟨r, on, ?_⟩
      by_cases same : r = d.root
      · subst same
        rw [Function.update_self]
        cases item : (s.pc u).item with
        | none =>
            have idle : s.pc u = .idle := by
              cases at' : s.pc u with
              | idle => rfl
              | _ => simp [at', Pc.item] at item
            rw [idle] at shows' ⊢
            exact shows'.congr nofun nofun nofun
        | some a =>
            have busy : c.pc u ≠ .idle := by
              intro idle
              rw [idle] at shows'
              rw [shows'.of_idle] at item
              cases item
            obtain ⟨-, used, spares, linked⟩ :=
              follows.used several low (on.resolve_left busy) item
            refine shows'.congr (fun b here => agree b ?_) (fun b spare => agree b (spares b spare))
              fun a' b at' => agree b (linked b ?_)
            · rw [item, Option.some.injEq] at here
              exact here ▸ used
            · rw [at', Pc.item, Option.some.injEq] at item
              rw [at', item]
      · rw [Function.update_of_ne same]
        exact shows'
  cas u low item i tmp1 d' at' call' := by
    by_cases self : u = t
    · subst self
      have stays : c'.call u = c.call u := turns.own.resolve_right fun left => by
        rw [left.2] at at'
        cases at'
      rw [stays, call, Option.some.injEq] at call'
      subst call'
      rw [current, stays]
      exact cas item i tmp1 at'
    · rw [turns.pc u self] at at'
      rw [turns.call u self] at call'
      rw [current, turns.call u self, turns.args _ _ self]
      exact follows.cas u low item i tmp1 d' at' call'
  args := args
  results u low k past := by
    by_cases here : u ≠ t ∨ k ≠ c.call t
    · rw [turns.results k u here, results k u here]
      refine follows.results u low k ?_
      rcases here with other | ne
      · rwa [turns.call u other] at past
      · by_cases self : u = t
        · subst self
          rcases turns.own with stays | ⟨ahead, -⟩ <;> omega
        · rwa [turns.call u self] at past
    · push Not at here
      obtain ⟨rfl, rfl⟩ := here
      rcases turns.own with stays | ⟨ahead, -⟩
      · omega
      · exact own ahead
  released u low item newitem b at' := by
    by_cases self : u = t
    · subst self
      have stays : c'.call u = c.call u := turns.own.resolve_right fun left => by
        rw [left.2] at at'
        cases at'
      rw [stays]
      exact released item newitem b at'
    · rw [turns.pc u self] at at'
      rw [turns.call u self, results _ u (.inl self)]
      exact follows.released u low item newitem b at'
  queues r := by
    by_cases same : r = d.root
    · subst same
      simp only [Function.update_self]
      exact tracks
    · simp only [Function.update_of_ne same]
      refine (follows.queues r).other turns (rootAt_of call) same moves (off.imp (fun level => ?_) id)
        (queues r same)
      rw [Bool.eq_false_iff, ne_eq, on_iff, level, rootAt_of call, Option.some.injEq]
      exact Ne.symm same

/-- What is known of a thread inside a call on the queue of its root. -/
structure Here (n : Nat) (calls : List ReduceCall) (c : ReduceObj) (s : Objects) (m : Nat → Nat)
    (addr : Nat → Nat → Nat) (t : Nat) (d : ReduceCall) : Prop where
  shows' : (c.pc t).Shows (addr d.root) (s.pc t)
  level : s.call t = c.call t
  on : onCall (reduceKind n d.root).on (calls.map ReduceCall.collective) (s.call t) = true
  abs : (calls.map ReduceCall.collective)[s.call t]? = some (.reduce d.root (some d.op) d.count)
  current : s.current t = c.current t
  inv : Invariant n (calls.map ReduceCall.collective) s
  tracks : Tracks n calls c s d.root (m d.root) (addr d.root)

theorem Follows.here (follows : Follows n calls c s m addr) (several : 2 ≤ n) (inside : t < n)
    {d : ReduceCall} (call : calls[c.call t]? = some d) (busy : c.pc t ≠ .idle)
    (staying : (c.pc t).leaving = false) : Here n calls c s m addr t d := by
  have level : s.call t = c.call t := by simpa [staying] using follows.call t inside
  have abs : (calls.map ReduceCall.collective)[s.call t]? =
      some (.reduce d.root (some d.op) d.count) := by
    rw [level]
    exact collective_at call
  refine ⟨?_, level, ?_, abs, ?_, reach_invariant several follows.reach, follows.queues d.root⟩
  · obtain ⟨r, on, shows'⟩ := follows.pc t inside
    have same := on.resolve_left busy
    rw [rootAt_of call, Option.some.injEq] at same
    exact same ▸ shows'
  · rw [level]
    exact on_iff.mpr (rootAt_of call)
  · rw [Objects.current, ReduceObj.current, level, follows.args]

theorem Here.used {d : ReduceCall} (here : Here n calls c s m addr t d) (inside : t < n) {a : Nat}
    (item : (s.pc t).item = some a) : Uses n calls s d.root (m d.root) a :=
  here.tracks.window.used_item (here.inv.rdco d.root) inside here.on item

theorem setQueue_self (c : ReduceObj) (root : Nat) : c.setQueue root (c.rdcoArray root) = c := by
  rw [ReduceObj.setQueue, Function.update_eq_self]

/-- Only the cursor of the thread may change. -/
theorem Turns.cursors (turns : Turns c c' t root q)
    (others : ∀ u, u ≠ t → q.cursor u = (c.rdcoArray root).cursor u) {v : Option Nat}
    (own : ReduceObj.cursors calls c' root t = v) :
    ReduceObj.cursors calls c' root = Function.update (ReduceObj.cursors calls c root) t v := by
  funext u
  by_cases self : u = t
  · subst self
    rw [Function.update_self, own]
  · rw [Function.update_of_ne self]
    unfold ReduceObj.cursors
    rw [turns.pc u self, turns.call u self, turns.queues, Function.update_self, others u self]

theorem cursors_of (staying : (c.pc t).leaving = false) :
    cursors calls c root t = (c.rdcoArray root).cursor t := by
  unfold cursors
  split
  next at' =>
    rw [at'] at staying
    cases staying
  next => rfl

/-- The thread goes on and its cursor stays. -/
theorem Turns.cursors_same (turns : Turns c c' t root q) (staying : (c.pc t).leaving = false)
    (stays : (c'.pc t).leaving = false) (same : q.cursor = (c.rdcoArray root).cursor) :
    ReduceObj.cursors calls c' root = ReduceObj.cursors calls c root := by
  have own : ReduceObj.cursors calls c' root t = ReduceObj.cursors calls c root t := by
    rw [cursors_of staying, cursors_of stays, turns.queues, Function.update_self, same]
  rw [turns.cursors (fun u _ => by rw [same]) own, Function.update_eq_self]

theorem cursors_goto {pc : ReducePc} (staying : (c.pc t).leaving = false)
    (stays : pc.leaving = false) (same : q.cursor = (c.rdcoArray root).cursor) :
    cursors calls ((c.setQueue root q).goto t pc) root = cursors calls c root :=
  (turns_goto c root t q pc).cursors_same staying ((congrArg _ (goto_pc _ t pc)).trans stays) same

theorem cursors_leave {b : Buffers} (staying : (c.pc t).leaving = false)
    (same : q.cursor = (c.rdcoArray root).cursor) :
    cursors calls ((c.setQueue root q).leave t b) root = cursors calls c root :=
  (turns_leave c root t q b).cursors_same staying (congrArg _ (leave_pc _ t b)) same

/-- A thread returns with its cursor at `v`. -/
theorem cursors_moved {b : Buffers} {v : Option Nat}
    (set' : q.cursor = Function.update (c.rdcoArray root).cursor t v) :
    cursors calls ((c.setQueue root q).leave t b) root =
      Function.update (cursors calls c root) t v := by
  have turns := turns_leave c root t q b
  refine turns.cursors (fun u other => ?_) ?_
  · rw [set', Function.update_of_ne other]
  · rw [cursors_of (congrArg _ (leave_pc _ t b)), turns.queues, Function.update_self, set',
      Function.update_self]

theorem cursors_release {item : Nat} {newitem : Option Nat} {b : Buffers}
    (on : rootAt calls (c.call t) = some root) (same : q.cursor = (c.rdcoArray root).cursor) :
    cursors calls ((c.setQueue root q).goto t (.release item newitem b)) root =
      Function.update (cursors calls c root) t (newitem.or ((c.rdcoArray root).cursor t)) := by
  have turns := turns_goto c root t q (.release item newitem b)
  refine turns.cursors (fun u _ => by rw [same]) ?_
  have on' : rootAt calls (((c.setQueue root q).goto t (.release item newitem b)).call t) =
    some root := on
  unfold cursors
  simp only [goto_pc, if_pos on', turns.queues, Function.update_self, same]

/-- A step that allocates nothing and frees nothing. -/
theorem Tracks.keep {m m' : Nat} {addr : Nat → Nat} (tracks : Tracks n calls c s root m addr)
    (inside : t < n) (turns : Turns c c' t root q) (moves : Moves s s' t)
    (on : rootAt calls (c.call t) = some root)
    (fewer : ∀ a, Uses n calls s' root m' a → Uses n calls s root m a)
    (window : Window (reduceKind n root) (calls.map ReduceCall.collective) s' (s'.rdco root) m')
    (finished : root < n → turn (reduceKind n root).on (calls.map ReduceCall.collective)
      (s'.call root) = m')
    (mirror : Mirror n RDCHandle.Stores (Uses n calls s root m) addr (s'.rdco root) q.mem q.next
      q.first (cursors calls c' root))
    (allocated : q.allocated = (c.rdcoArray root).allocated)
    (extra : ∀ h, (c'.pc t).Extra h (s'.pc t) → (c.pc t).Extra h (s.pc t) ∨
      ∃ a, Uses n calls s root m a ∧ ¬ Uses n calls s' root m' a ∧ addr a = h) :
    Tracks n calls c' s' root m' addr := by
  have array : c'.rdcoArray root = q := by rw [turns.queues, Function.update_self]
  refine ⟨window, finished, ?_, fun a used => ?_, fun u low h on' has => ?_⟩
  · rw [array]
    exact mirror.shrink fewer
  · rw [array, allocated]
    exact tracks.inUse a (fewer a used)
  · rw [array, allocated]
    by_cases self : u = t
    · subst self
      rcases extra h has with old | ⟨a, used, unused, rfl⟩
      · obtain ⟨holds, apart, alone⟩ := tracks.extra u inside h on old
        refine ⟨holds, fun a used => apart a (fewer a used), fun v low' other onV also => ?_⟩
        rw [turns.pc v other, moves.pc v other] at also
        rw [turns.call v other] at onV
        exact alone v low' other onV also
      · refine ⟨tracks.inUse a used, fun b used' same => ?_, fun v low' other onV also => ?_⟩
        · rw [tracks.mirror.distinct b a (fewer b used') used same] at used'
          exact unused used'
        · rw [turns.pc v other, moves.pc v other] at also
          rw [turns.call v other] at onV
          exact (tracks.extra v low' _ onV also).2.1 a used rfl
    · rw [turns.pc u self, moves.pc u self] at has
      rw [turns.call u self] at on'
      obtain ⟨holds, apart, alone⟩ := tracks.extra u low h on' has
      refine ⟨holds, fun a used => apart a (fewer a used), fun v low' other onV also => ?_⟩
      by_cases same : v = t
      · subst same
        rcases extra h also with old | ⟨a, used, -, same⟩
        · exact alone v inside other on old
        · exact apart a used same
      · rw [turns.pc v same, moves.pc v same] at also
        rw [turns.call v same] at onV
        exact alone v low' other onV also

/-- The number of finished reduces when the root does not return. -/
theorem Tracks.finished_stays {m : Nat} {addr : Nat → Nat} (tracks : Tracks n calls c s root m addr)
    (moves : Moves s s' t) (stays : s'.call t = s.call t ∨ t ≠ root) (low : root < n) :
    turn (reduceKind n root).on (calls.map ReduceCall.collective) (s'.call root) = m := by
  have same : s'.call root = s.call root := by
    by_cases self : root = t
    · subst self
      exact stays.resolve_right fun other => other rfl
    · exact moves.call root self
  rw [same]
  exact tracks.finished low

theorem abs_step {d : ReduceCall} (here : Here n calls c s m addr t d)
    (taken : Coll.tmpiRdcoReduce n s t d.root (some d.op) d.count = some s') :
    Coll.step n s (calls.map ReduceCall.collective) (.run t) = some s' := by
  rw [Coll.step, here.abs]
  exact taken

/-- A step that does nothing where handles are not handed out again. -/
theorem Follows.idles (follows : Follows n calls c s m addr) (several : 2 ≤ n) (inside : t < n)
    {d : ReduceCall} (call : calls[c.call t]? = some d) (here : Here n calls c s m addr t d)
    (staying : (c.pc t).leaving = false) {pc : ReducePc} (stays : pc.leaving = false)
    (shows' : pc.Shows (addr d.root) (s.pc t))
    (extra : ∀ h, pc.Extra h (s.pc t) → (c.pc t).Extra h (s.pc t))
    (cas : ∀ item i tmp1, pc = .cas item i tmp1 → i < d.count ∧ d.op ≠ .sum ∧
      rdcBreak d.op tmp1 ((c.current t).sendbuf i) = false) :
    Followed n calls (c.goto t pc) := by
  have now : (c.goto t pc).pc t = pc := Function.update_self _ _ _
  have turns := turns_goto c d.root t (c.rdcoArray d.root) pc
  rw [setQueue_self] at turns
  have kept := here.tracks.keep inside turns (moves_stay s t) (rootAt_of call) (fun _ => id)
    here.tracks.window here.tracks.finished (by
      rw [turns.cursors_same staying (by rw [now]; exact stays) rfl]
      exact here.tracks.mirror) rfl
    (fun h has => .inl (extra h (by rwa [now] at has)))
  refine ⟨s, _, _, follows.step several inside call turns (moves_stay s t) (.inr rfl)
    (fun _ _ => rfl) follows.reach ?_ follows.args (fun _ _ _ => rfl) ?_ ?_ ?_ (fun _ _ => rfl) ?_ kept⟩
  · rw [now, stays]
    exact here.level
  · intro ahead
    exact absurd ahead (Nat.ne_of_lt (Nat.lt_succ_self _))
  · intro item newitem b at'
    rw [now] at at'
    rw [at'] at stays
    cases stays
  · intro item i tmp1 at'
    rw [now] at at'
    exact cas item i tmp1 at'
  · rw [now]
    exact shows'

/-- A step inside the call. -/
theorem Follows.goes (follows : Follows n calls c s m addr) (several : 2 ≤ n) (inside : t < n)
    {d : ReduceCall} (call : calls[c.call t]? = some d) (here : Here n calls c s m addr t d)
    {q' : HandleQueue RDCHandle} {pc : ReducePc} {pc' : Pc}
    (taken : Coll.tmpiRdcoReduce n s t d.root (some d.op) d.count =
      some ((s.setRdco d.root q').goto t pc'))
    (keeps : ∀ i a, nth (s.rdco d.root).next 0 i = some a → nth q'.next 0 i = some a)
    (brings : ∀ i a, nth q'.next 0 i = some a →
      nth (s.rdco d.root).next 0 i = some a ∨ (s.pc t).spare = some a)
    (first : q'.first = (s.rdco d.root).first)
    (allocated : q.allocated = (c.rdcoArray d.root).allocated) (stays : pc.leaving = false)
    (shows' : pc.Shows (addr d.root) pc')
    (mirror : Mirror n RDCHandle.Stores (Uses n calls s d.root (m d.root)) (addr d.root) q' q.mem
      q.next q.first (cursors calls ((c.setQueue d.root q).goto t pc) d.root))
    (spare : ∀ a, pc'.spare = some a → (s.pc t).spare = some a)
    (extra : ∀ h, pc.Extra h pc' → (c.pc t).Extra h (s.pc t) ∨ ∃ a, Uses n calls s d.root (m d.root) a ∧
      ¬ Uses n calls ((s.setRdco d.root q').goto t pc') d.root (m d.root) a ∧ addr d.root a = h)
    (cas : ∀ item i tmp1, pc ≠ .cas item i tmp1) :
    Followed n calls ((c.setQueue d.root q).goto t pc) := by
  have now : ((c.setQueue d.root q).goto t pc).pc t = pc := Function.update_self _ _ _
  have now' : ((s.setRdco d.root q').goto t pc').pc t = pc' := Function.update_self _ _ _
  have chain : ((s.setRdco d.root q').goto t pc').rdco d.root = q' := Function.update_self _ _ _
  have turns := turns_goto c d.root t q pc
  have moves := moves_setRdco_goto s t d.root q' pc'
  have fewer : ∀ a, Uses n calls ((s.setRdco d.root q').goto t pc') d.root (m d.root) a →
      Uses n calls s d.root (m d.root) a := by
    intro a used
    refine (used_step (fun a => (s.pc t).spare = some a) (fun i a there => ?_) moves here.on le_rfl
      (fun a has => ?_) inside used).elim id fun has => .inr ⟨t, inside, here.on, has⟩
    · rw [chain] at there
      exact brings i a there
    · rw [now'] at has
      exact .inl (spare a has)
  have kept := here.tracks.keep inside turns moves (rootAt_of call) fewer
    (here.tracks.window.move moves (by rw [chain]; exact first) fun i a there => by
      rw [chain]
      exact keeps i a there)
    (here.tracks.finished_stays moves (.inl rfl)) (by rw [chain]; exact mirror) allocated
    (fun h has => extra h (by rwa [now, now'] at has))
  have low : (Coll.Act.run t).thread < n := inside
  refine ⟨_, _, _, follows.step several inside call turns moves (.inl here.level)
    (fun r away => Function.update_of_ne away _ _) (.step follows.reach low (abs_step here taken))
    ?_ follows.args (fun _ _ _ => rfl) ?_ ?_ ?_ (fun _ _ => rfl) ?_ kept⟩
  · rw [now, stays]
    exact here.level
  · intro ahead
    exact absurd ahead (Nat.ne_of_lt (Nat.lt_succ_self _))
  · intro item newitem b at'
    rw [now] at at'
    rw [at'] at stays
    cases stays
  · intro item i tmp1 at'
    rw [now] at at'
    exact absurd at' (cas item i tmp1)
  · rw [now, now']
    exact shows'

/-- A step inside the call that links nothing and keeps the cursors. -/
theorem Follows.goes_same (follows : Follows n calls c s m addr) (several : 2 ≤ n) (inside : t < n)
    {d : ReduceCall} (call : calls[c.call t]? = some d) (here : Here n calls c s m addr t d)
    (staying : (c.pc t).leaving = false) {q' : HandleQueue RDCHandle} {mem : Nat → RDCHandle}
    {pc : ReducePc} {pc' : Pc}
    (taken : Coll.tmpiRdcoReduce n s t d.root (some d.op) d.count =
      some ((s.setRdco d.root q').goto t pc'))
    (next : q'.next = (s.rdco d.root).next) (first : q'.first = (s.rdco d.root).first)
    (stays : pc.leaving = false) (shows' : pc.Shows (addr d.root) pc')
    (mirror : Mirror n RDCHandle.Stores (Uses n calls s d.root (m d.root)) (addr d.root) q' mem
      (c.rdcoArray d.root).next (c.rdcoArray d.root).first (cursors calls c d.root))
    (spare : ∀ a, pc'.spare = some a → (s.pc t).spare = some a)
    (extra : ∀ h, pc.Extra h pc' → (c.pc t).Extra h (s.pc t) ∨ ∃ a, Uses n calls s d.root (m d.root) a ∧
      ¬ Uses n calls ((s.setRdco d.root q').goto t pc') d.root (m d.root) a ∧ addr d.root a = h)
    (cas : ∀ item i tmp1, pc ≠ .cas item i tmp1) :
    Followed n calls ((c.setQueue d.root { c.rdcoArray d.root with mem }).goto t pc) := by
  have same : cursors calls ((c.setQueue d.root { c.rdcoArray d.root with mem }).goto t pc) d.root =
      cursors calls c d.root := cursors_goto staying stays rfl
  refine follows.goes several inside call here taken ?_ ?_ first rfl stays shows' ?_ spare extra cas
  · intro i a there
    rw [next]
    exact there
  · intro i a there
    rw [next] at there
    exact .inl there
  · rw [same]
    exact mirror

theorem look_follows (follows : Follows n calls c s m addr) (several : 2 ≤ n) (inside : t < n)
    {d : ReduceCall} (call : calls[c.call t]? = some d) {item h : Nat} (at' : c.pc t = .look item)
    (taken : c.tmpiRdcoReduce n t h d = some c') : Followed n calls c' := by
  have staying : (c.pc t).leaving = false := by rw [at']; rfl
  have here := follows.here several inside call (by rw [at']; simp) staying
  have shows' := here.shows'
  rw [at'] at shows'
  obtain ⟨a, rfl, there⟩ := shows'.of_look
  have used := here.used inside (a := a) (by rw [there]; rfl)
  have avails := (here.tracks.mirror.mem a used).1
  simp only [tmpiRdcoReduce, at'] at taken
  split at taken
  next avail =>
    rw [Option.some.injEq] at taken
    subst taken
    refine follows.idles several inside call here staying rfl ?_ ?_ (by simp)
    · rw [there]
      exact .alloc a
    · exact fun _ has => has.elim
  next avail =>
    rw [Option.some.injEq] at taken
    subst taken
    rw [avails] at avail
    rw [← setQueue_self c d.root]
    have goes : Coll.tmpiRdcoReduce n s t d.root (some d.op) d.count =
        some ((s.setRdco d.root (s.rdco d.root)).goto t (.await a)) := by
      rw [setRdco_self]
      simp only [Coll.tmpiRdcoReduce, there, if_neg avail]
    exact follows.goes_same several inside call here staying goes rfl rfl rfl (.await a)
      here.tracks.mirror (by simp [Pc.spare]) (fun _ has => has.elim) (by simp)

theorem Here.slot {d : ReduceCall} (here : Here n calls c s m addr t d) (inside : t < n) {a : Nat}
    (item : (s.pc t).item = some a) : nth (s.rdco d.root).next 0
      (turn (reduceKind n d.root).on (calls.map ReduceCall.collective) (s.call t)) = some a :=
  ((here.inv.rdco d.root).thread t inside here.on).item a item

theorem Here.cell {d : ReduceCall} (here : Here n calls c s m addr t d) (inside : t < n) {a : Nat}
    (item : (s.pc t).item = some a) : ReduceCell n d.root (some d.op) d.count
      (s.party (s.call t)) ((s.rdco d.root).mem a) ((s.rdco d.root).next a) :=
  reduce_cell here.inv here.abs (here.slot inside item)

/-- A thread that contributes does so to a handle that is published. -/
theorem Here.published {d : ReduceCall} (here : Here n calls c s m addr t d) (inside : t < n)
    {pc : Pc} (there : s.pc t = pc) {a : Nat} (item : pc.item = some a)
    (past : (Stage.inside pc).waiting = false) (second : ∀ item newitem, pc ≠ .publish item newitem) :
    Published n d.root (some d.op) d.count (s.party (s.call t)) ((s.rdco d.root).mem a)
      ((s.rdco d.root).next a) := by
  subst there
  have busy : s.pc t ≠ .idle := by
    intro idle
    rw [idle] at item
    cases item
  have stage := stage_now rfl busy
  refine (here.cell inside item).published_of inside ?_ fun item newitem publishes => ?_
  · rw [stage]
    exact past
  · rw [stage, Stage.inside.injEq] at publishes
    exact second item newitem publishes

theorem claim_follows (follows : Follows n calls c s m addr) (several : 2 ≤ n) (inside : t < n)
    {d : ReduceCall} (call : calls[c.call t]? = some d) {item newitem h : Nat}
    (at' : c.pc t = .claim item newitem) (taken : c.tmpiRdcoReduce n t h d = some c') :
    Followed n calls c' := by
  have staying : (c.pc t).leaving = false := by rw [at']; rfl
  have here := follows.here several inside call (by rw [at']; simp) staying
  have shows' := here.shows'
  rw [at'] at shows'
  simp only [tmpiRdcoReduce, at'] at taken
  obtain ⟨a, rfl, ⟨b, rfl, there⟩ | there⟩ := shows'.of_claim
  · have used := here.used inside (a := a) (by rw [there]; rfl)
    have avails := (here.tracks.mirror.mem a used).1
    have spare : (s.pc t).spare = some b := by rw [there]; rfl
    split at taken
    next avail =>
      rw [Option.some.injEq] at taken
      subst taken
      rw [avails] at avail
      have goes : Coll.tmpiRdcoReduce n s t d.root (some d.op) d.count =
          some ((s.setRdco d.root ((s.rdco d.root).set a
            { (s.rdco d.root).mem a with avail := 0 })).goto t (.publish a b)) := by
        simp only [Coll.tmpiRdcoReduce, there, if_pos avail]
      refine follows.goes_same several inside call here staying goes rfl rfl rfl (.publish a b)
        (here.tracks.mirror.set used ⟨rfl, fun posted => absurd posted (lt_irrefl 0)⟩)
        (fun b' same => ?_) (fun _ has => has.elim) (by simp)
      rw [spare]
      exact same
    next avail =>
      rw [Option.some.injEq] at taken
      subst taken
      rw [avails] at avail
      have goes : Coll.tmpiRdcoReduce n s t d.root (some d.op) d.count =
          some ((s.setRdco d.root ((s.rdco d.root).free b)).goto t (.await a)) := by
        simp only [Coll.tmpiRdcoReduce, there, if_neg avail]
      rw [← setQueue_self c d.root]
      refine follows.goes_same several inside call here staying goes rfl rfl rfl
        (.discard a (addr d.root b)) (here.tracks.mirror.drop b)
        (by simp [Pc.spare]) (fun h' has => .inr ?_) (by simp)
      obtain rfl : h' = addr d.root b := has
      refine ⟨b, .inr ⟨t, inside, here.on, spare⟩, ?_, rfl⟩
      have queue := here.inv.rdco d.root
      have moves := moves_setRdco_goto s t d.root ((s.rdco d.root).free b) (.await a)
      rintro (⟨i, -, chained⟩ | ⟨u, low, on, has⟩)
      · have chain : ((s.setRdco d.root ((s.rdco d.root).free b)).goto t (.await a)).rdco d.root =
            (s.rdco d.root).free b := Function.update_self _ _ _
        rw [chain] at chained
        exact ((queue.thread t inside here.on).spare a b (by rw [there]; rfl) spare).unchained i
          chained
      · by_cases self : u = t
        · subst self
          simp [Objects.goto, Pc.spare] at has
        · rw [moves.pc u self] at has
          rw [moves.call u self] at on
          exact queue.apart u low t inside self on here.on b has spare
  · have used := here.used inside (a := a) (by rw [there]; rfl)
    have avails := (here.tracks.mirror.mem a used).1
    have stage := stage_now there (by simp)
    have avail := (here.cell inside (by rw [there]; rfl)).avail_of_waiting inside stage
    rw [if_neg (by rw [avails]; exact avail), Option.some.injEq] at taken
    subst taken
    refine follows.idles several inside call here staying rfl ?_ ?_ (by simp)
    · rw [there]
      exact .discard a newitem
    · rw [at', there]
      exact fun _ has => has

theorem await_follows (follows : Follows n calls c s m addr) (several : 2 ≤ n) (inside : t < n)
    {d : ReduceCall} (call : calls[c.call t]? = some d) {item h : Nat} (at' : c.pc t = .await item)
    (taken : c.tmpiRdcoReduce n t h d = some c') : Followed n calls c' := by
  have staying : (c.pc t).leaving = false := by rw [at']; rfl
  have here := follows.here several inside call (by rw [at']; simp) staying
  have shows' := here.shows'
  rw [at'] at shows'
  obtain ⟨a, rfl, there⟩ := shows'.of_await
  have used := here.used inside (a := a) (by rw [there]; rfl)
  have avails := (here.tracks.mirror.mem a used).1
  simp only [tmpiRdcoReduce, at'] at taken
  split at taken
  next => cases taken
  next avail =>
    rw [Option.some.injEq] at taken
    subst taken
    rw [avails] at avail
    rw [← setQueue_self c d.root]
    have goes : Coll.tmpiRdcoReduce n s t d.root (some d.op) d.count =
        some ((s.setRdco d.root (s.rdco d.root)).goto t (.combine a 0)) := by
      rw [setRdco_self]
      simp only [Coll.tmpiRdcoReduce, there, if_neg avail]
    exact follows.goes_same several inside call here staying goes rfl rfl rfl (.combine a 0)
      here.tracks.mirror (by simp [Pc.spare]) (fun _ has => has.elim) (by simp)

theorem combine_follows (follows : Follows n calls c s m addr) (several : 2 ≤ n) (inside : t < n)
    {d : ReduceCall} (call : calls[c.call t]? = some d) {item i h : Nat}
    (at' : c.pc t = .combine item i) (taken : c.tmpiRdcoReduce n t h d = some c') :
    Followed n calls c' := by
  have staying : (c.pc t).leaving = false := by rw [at']; rfl
  have here := follows.here several inside call (by rw [at']; simp) staying
  have shows' := here.shows'
  rw [at'] at shows'
  obtain ⟨a, rfl, there⟩ := shows'.of_combine
  have used := here.used inside (a := a) (by rw [there]; rfl)
  have published := here.published inside there rfl rfl (by simp)
  have stored := (here.tracks.mirror.mem a used).2 published.avail_pos
  simp only [tmpiRdcoReduce, at', stored] at taken
  set handle := (s.rdco d.root).mem a with which
  have contributes : i < min d.count handle.count →
      Coll.tmpiRdcoReduce n s t d.root (some d.op) d.count =
        some ((s.setRdco d.root ((s.rdco d.root).set a { handle with
          data := Function.update handle.data i
            (simpleReduce (some d.op) (handle.data i) ((c.current t).sendbuf i)) })).goto t
          (.combine a (i + 1))) := by
    intro more
    rw [← here.current]
    simp only [Coll.tmpiRdcoReduce, there, ← which, if_pos more]
  split at taken
  next more =>
    have goes := contributes more
    by_cases sum : d.op = .sum
    · have adds : simpleReduce (some d.op) (handle.data i) ((c.current t).sendbuf i) =
          handle.data i + (c.current t).sendbuf i := by
        rw [sum]
        rfl
      rw [adds] at goes
      simp only [sum, Option.some.injEq] at taken
      subst taken
      exact follows.goes_same several inside call here staying goes rfl rfl rfl
        (.combine a (i + 1)) (here.tracks.mirror.set used ⟨rfl, fun _ => rfl⟩) (by simp [Pc.spare])
        (fun _ has => has.elim) (by simp)
    · have reads : (if rdcBreak d.op (handle.data i) ((c.current t).sendbuf i) = true then
            some (c.goto t (.combine (addr d.root a) (i + 1)))
          else some (c.goto t (.cas (addr d.root a) i (handle.data i)))) = some c' := by
        cases op : d.op with
        | sum => exact absurd op sum
        | _ => simpa only [op] using taken
      split at reads
      next breaks =>
        rw [Option.some.injEq] at reads
        subst reads
        have still : (s.rdco d.root).set a handle = s.rdco d.root := by
          rw [HandleQueue.set, which, Function.update_eq_self]
        rw [simpleReduce_break breaks, Function.update_eq_self, still] at goes
        rw [← setQueue_self c d.root]
        exact follows.goes_same several inside call here staying goes rfl rfl rfl
          (.combine a (i + 1)) here.tracks.mirror
          (by simp [Pc.spare]) (fun _ has => has.elim) (by simp)
      next breaks =>
        rw [Option.some.injEq] at reads
        subst reads
        refine follows.idles several inside call here staying rfl ?_ (fun _ has => has.elim) ?_
        · rw [there]
          exact .cas a i (handle.data i)
        · intro item' i' tmp1 same
          cases same
          exact ⟨by omega, sum, Bool.eq_false_iff.mpr breaks⟩
  next done =>
    rw [Option.some.injEq] at taken
    subst taken
    set q : RDCQueue := { c.rdcoArray d.root with
      cursor := Function.update (c.rdcoArray d.root).cursor t
        ((c.rdcoArray d.root).next (addr d.root a)) }
    have turns := turns_goto c d.root t q (.bump (addr d.root a))
    have set' : cursors calls ((c.setQueue d.root q).goto t (.bump (addr d.root a))) d.root =
        Function.update (cursors calls c d.root) t (((s.rdco d.root).next a).map (addr d.root)) := by
      refine turns.cursors (fun u other => Function.update_of_ne other _ _) ?_
      rw [cursors_of (congrArg _ (goto_pc _ t _)), turns.queues, Function.update_self,
        ← here.tracks.mirror.next a used]
      exact Function.update_self _ _ _
    have goes : Coll.tmpiRdcoReduce n s t d.root (some d.op) d.count =
        some ((s.setRdco d.root ((s.rdco d.root).setCursor t ((s.rdco d.root).next a))).goto t
          (.bump a)) := by
      simp only [Coll.tmpiRdcoReduce, there, ← which, if_neg done]
    refine follows.goes several inside call here goes (fun _ _ there => there)
      (fun _ _ there => .inl there) rfl rfl rfl (.bump a) ?_
      (by simp [Pc.spare]) (fun _ has => has.elim) (by simp)
    rw [set']
    exact here.tracks.mirror.setCursor t ((s.rdco d.root).next a)

theorem cas_follows (follows : Follows n calls c s m addr) (several : 2 ≤ n) (inside : t < n)
    {d : ReduceCall} (call : calls[c.call t]? = some d) {item i h : Nat} {tmp1 : BitVec 32}
    (at' : c.pc t = .cas item i tmp1) (taken : c.tmpiRdcoReduce n t h d = some c') :
    Followed n calls c' := by
  have staying : (c.pc t).leaving = false := by rw [at']; rfl
  have here := follows.here several inside call (by rw [at']; simp) staying
  have shows' := here.shows'
  rw [at'] at shows'
  obtain ⟨a, rfl, there⟩ := shows'.of_cas
  have used := here.used inside (a := a) (by rw [there]; rfl)
  have published := here.published inside there rfl rfl (by simp)
  have stored := (here.tracks.mirror.mem a used).2 published.avail_pos
  obtain ⟨more, other, goes⟩ := follows.cas t inside _ i tmp1 d at' call
  simp only [tmpiRdcoReduce, at', stored] at taken
  split at taken
  next same =>
    rw [Option.some.injEq] at taken
    subst taken
    have goes : Coll.tmpiRdcoReduce n s t d.root (some d.op) d.count =
        some ((s.setRdco d.root ((s.rdco d.root).set a { (s.rdco d.root).mem a with
          data := Function.update ((s.rdco d.root).mem a).data i ((c.current t).sendbuf i) })).goto t
          (.combine a (i + 1))) := by
      have short : i < min d.count ((s.rdco d.root).mem a).count := by
        rw [published.length, Nat.min_self]
        exact more
      simp only [Coll.tmpiRdcoReduce, there, if_pos short, here.current]
      rw [same, simpleReduce_cas other goes]
    exact follows.goes_same several inside call here staying goes rfl rfl rfl
      (.combine a (i + 1)) (here.tracks.mirror.set used ⟨rfl, fun _ => rfl⟩) (by simp [Pc.spare])
      (fun _ has => has.elim) (by simp)
  next changed =>
    rw [Option.some.injEq] at taken
    subst taken
    refine follows.idles several inside call here staying rfl ?_ (fun _ has => has.elim) (by simp)
    rw [there]
    exact .combine a i

/-- A thread other than the root returns. -/
theorem Follows.leaves (follows : Follows n calls c s m addr) (several : 2 ≤ n) (inside : t < n)
    {d : ReduceCall} (call : calls[c.call t]? = some d) (here : Here n calls c s m addr t d)
    {q' : HandleQueue RDCHandle} {b : Buffers} (away : t ≠ d.root)
    (taken : Coll.tmpiRdcoReduce n s t d.root (some d.op) d.count =
      some ((s.setRdco d.root q').leave t b))
    (keeps : ∀ i a, nth (s.rdco d.root).next 0 i = some a → nth q'.next 0 i = some a)
    (brings : ∀ i a, nth q'.next 0 i = some a →
      nth (s.rdco d.root).next 0 i = some a ∨ (s.pc t).spare = some a)
    (first : q'.first = (s.rdco d.root).first)
    (allocated : q.allocated = (c.rdcoArray d.root).allocated)
    (mirror : Mirror n RDCHandle.Stores (Uses n calls s d.root (m d.root)) (addr d.root) q' q.mem
      q.next q.first (cursors calls ((c.setQueue d.root q).leave t b) d.root)) :
    Followed n calls ((c.setQueue d.root q).leave t b) := by
  have now : ((c.setQueue d.root q).leave t b).pc t = .idle := Function.update_self _ _ _
  have now' : ((s.setRdco d.root q').leave t b).pc t = .idle := Function.update_self _ _ _
  have chain : ((s.setRdco d.root q').leave t b).rdco d.root = q' := Function.update_self _ _ _
  have turns := turns_leave c d.root t q b
  have moves := moves_setRdco_leave s t d.root q' b
  have fewer : ∀ a, Uses n calls ((s.setRdco d.root q').leave t b) d.root (m d.root) a →
      Uses n calls s d.root (m d.root) a := by
    intro a used
    refine (used_step (fun a => (s.pc t).spare = some a) (fun i a there => ?_) moves here.on le_rfl
      (fun a has => ?_) inside used).elim id fun has => .inr ⟨t, inside, here.on, has⟩
    · rw [chain] at there
      exact brings i a there
    · rw [now'] at has
      cases has
  have kept := here.tracks.keep inside turns moves (rootAt_of call) fewer
    (here.tracks.window.move moves (by rw [chain]; exact first) fun i a there => by
      rw [chain]
      exact keeps i a there)
    (here.tracks.finished_stays moves (.inr away)) (by rw [chain]; exact mirror) allocated
    (fun h has => by
      rw [now] at has
      exact has.elim)
  have low : (Coll.Act.run t).thread < n := inside
  refine ⟨_, _, _, follows.step several inside call turns moves (.inl here.level)
    (fun r away => Function.update_of_ne away _ _) (.step follows.reach low (abs_step here taken))
    ?_ follows.args (fun k u apart => ?_) (fun _ => ?_) ?_ ?_ (fun _ _ => rfl) ?_ kept⟩
  · rw [now]
    simpa [ReduceObj.leave, Objects.leave, ReduceObj.setQueue, Objects.setRdco, ReducePc.leaving]
      using here.level
  · rw [← here.level] at apart
    exact update_apart apart
  · simp only [ReduceObj.leave, Objects.leave, ReduceObj.setQueue, Objects.setRdco, here.level,
      Function.update_self]
  · intro item newitem b' at'
    rw [now] at at'
    cases at'
  · intro item i tmp1 at'
    rw [now] at at'
    cases at'
  · rw [now, now']
    exact .idle

theorem bump_follows (follows : Follows n calls c s m addr) (several : 2 ≤ n) (inside : t < n)
    {d : ReduceCall} (call : calls[c.call t]? = some d) {item h : Nat} (at' : c.pc t = .bump item)
    (taken : c.tmpiRdcoReduce n t h d = some c') : Followed n calls c' := by
  have staying : (c.pc t).leaving = false := by rw [at']; rfl
  have here := follows.here several inside call (by rw [at']; simp) staying
  have shows' := here.shows'
  rw [at'] at shows'
  obtain ⟨a, rfl, there⟩ := shows'.of_bump
  have used := here.used inside (a := a) (by rw [there]; rfl)
  have published := here.published inside there rfl rfl (by simp)
  have stored := (here.tracks.mirror.mem a used).2 published.avail_pos
  simp only [tmpiRdcoReduce, at', stored] at taken
  set handle : RDCHandle := { (s.rdco d.root).mem a with avail := ((s.rdco d.root).mem a).avail + 1 }
  have mirror := here.tracks.mirror.set used (⟨rfl, fun _ => rfl⟩ : RDCHandle.Stores handle handle)
  split at taken
  next atRoot =>
    rw [Option.some.injEq] at taken
    subst taken
    have goes : Coll.tmpiRdcoReduce n s t d.root (some d.op) d.count =
        some ((s.setRdco d.root ((s.rdco d.root).set a handle)).goto t (.gather a none)) := by
      simp only [Coll.tmpiRdcoReduce, there, if_pos atRoot]
      rfl
    exact follows.goes_same several inside call here staying goes rfl rfl rfl
      (.gather a none) mirror (by simp [Pc.spare]) (fun _ has => has.elim) (by simp)
  next away =>
    rw [Option.some.injEq] at taken
    subst taken
    have goes : Coll.tmpiRdcoReduce n s t d.root (some d.op) d.count =
        some ((s.setRdco d.root ((s.rdco d.root).set a handle)).leave t (c.current t)) := by
      rw [← here.current]
      simp only [Coll.tmpiRdcoReduce, there, if_neg away]
      rfl
    refine follows.leaves several inside call here away goes (fun _ _ there => there)
      (fun _ _ there => .inl there) rfl rfl ?_
    rw [cursors_leave staying]
    · exact mirror
    · rfl

theorem publish_follows (follows : Follows n calls c s m addr) (several : 2 ≤ n) (inside : t < n)
    {d : ReduceCall} (call : calls[c.call t]? = some d) (small : d.Small) {item newitem h : Nat}
    (at' : c.pc t = .publish item newitem) (taken : c.tmpiRdcoReduce n t h d = some c') :
    Followed n calls c' := by
  have staying : (c.pc t).leaving = false := by rw [at']; rfl
  have here := follows.here several inside call (by rw [at']; simp) staying
  have shows' := here.shows'
  rw [at'] at shows'
  obtain ⟨a, b, rfl, rfl, there⟩ := shows'.of_publish
  have used := here.used inside (a := a) (by rw [there]; rfl)
  have slot := here.slot inside (a := a) (by rw [there]; rfl)
  have ends := ((here.cell inside (a := a) (by rw [there]; rfl)).claimed_of inside
    (stage_now there (by simp))).1
  have queue := here.inv.rdco d.root
  have spare : (s.pc t).spare = some b := by rw [there]; rfl
  have held := (queue.thread t inside here.on).spare a b (by rw [there]; rfl) spare
  set handle : RDCHandle := ⟨1, (c.current t).firstData (t = d.root) d.count, d.count⟩ with what
  have exact := intsLen_eq_iff.mpr small
  have keeps : ∀ i e, nth (s.rdco d.root).next 0 i = some e →
      nth (((s.rdco d.root).link a b).set a handle).next 0 i = some e := by
    intro i e chained
    exact nth_extend_keeps queue.rising slot ends chained
  have brings : ∀ i e, nth (((s.rdco d.root).link a b).set a handle).next 0 i = some e →
      nth (s.rdco d.root).next 0 i = some e ∨ (s.pc t).spare = some e := by
    intro i e chained
    refine (nth_extend_cases queue.rising slot ends held.next held.above.ne' chained).imp id ?_
    rintro ⟨-, rfl⟩
    exact spare
  have mirror := (here.tracks.mirror.link used b).set used
    (⟨rfl, fun _ => rfl⟩ : RDCHandle.Stores handle handle)
  simp only [tmpiRdcoReduce, at'] at taken
  split at taken
  next atRoot =>
    have own : handle.data = copyInts (c.current t).recvbuf (c.current t).sendbuf d.count := by
      simp [what, Buffers.firstData, atRoot]
    rw [memcpyInts_small _ _ small, Option.map_some, Option.some.injEq, ← own] at taken
    subst taken
    have goes : Coll.tmpiRdcoReduce n s t d.root (some d.op) d.count =
        some ((s.setRdco d.root (((s.rdco d.root).link a b).set a handle)).goto t
          (.gather a (some b))) := by
      simp only [Coll.tmpiRdcoReduce, there, if_neg (not_not.mpr exact), if_pos atRoot, here.current]
      rfl
    refine follows.goes several inside call here goes keeps brings rfl rfl rfl
      (.gather a (some b)) ?_ (by simp [Pc.spare]) (fun _ has => has.elim) (by simp)
    rw [cursors_goto staying]
    · exact mirror
    · rfl
    · rfl
  next away =>
    have own : handle.data = (c.current t).sendbuf := by
      simp [what, Buffers.firstData, away]
    rw [if_neg (show ¬ intsLen d.count < 0 by omega), Option.some.injEq, ← own] at taken
    subst taken
    have goes : Coll.tmpiRdcoReduce n s t d.root (some d.op) d.count =
        some ((s.setRdco d.root ((((s.rdco d.root).link a b).set a handle).setCursor t
          (some b))).leave t (c.current t)) := by
      simp only [Coll.tmpiRdcoReduce, there, if_neg (not_not.mpr exact), if_neg away, here.current]
      rfl
    refine follows.leaves several inside call here away goes keeps brings rfl rfl ?_
    rw [cursors_moved (v := some (addr d.root b)) rfl]
    exact mirror.setCursor t (some b)

/-- The root has its result. -/
theorem gather_follows (follows : Follows n calls c s m addr) (several : 2 ≤ n) (inside : t < n)
    {d : ReduceCall} (call : calls[c.call t]? = some d) (small : d.Small) {item h : Nat}
    {newitem : Option Nat} (at' : c.pc t = .gather item newitem) (taken : c.tmpiRdcoReduce n t h d = some c') :
    Followed n calls c' := by
  have staying : (c.pc t).leaving = false := by rw [at']; rfl
  have here := follows.here several inside call (by rw [at']; nofun) staying
  have shows' := here.shows'
  rw [at'] at shows'
  obtain ⟨a, o, rfl, rfl, there⟩ := shows'.of_gather
  have used := here.used inside (a := a) (by rw [there]; rfl)
  have slot := here.slot inside (a := a) (by rw [there]; rfl)
  have published := here.published inside there (a := a) rfl rfl nofun
  have stored := (here.tracks.mirror.mem a used).2 published.avail_pos
  have queue := here.inv.rdco d.root
  simp only [tmpiRdcoReduce, at', stored] at taken
  split at taken
  next => cases taken
  next full =>
    have least : min d.count ((s.rdco d.root).mem a).count = d.count := by
      rw [published.length, Nat.min_self]
    have collected : (if (o.map (addr d.root)).isSome then
        some (copyInts (c.current t).recvbuf ((s.rdco d.root).mem a).data
          (min d.count ((s.rdco d.root).mem a).count))
      else memcpyInts (c.current t).recvbuf ((s.rdco d.root).mem a).data
        (intsLen (min d.count ((s.rdco d.root).mem a).count))) =
        some (copyInts (c.current t).recvbuf ((s.rdco d.root).mem a).data
          (min d.count ((s.rdco d.root).mem a).count)) := by
      rw [least, memcpyInts_small _ _ small, ite_self]
    rw [collected, Option.map_some, Option.some.injEq] at taken
    clear collected
    set b : Buffers := { c.current t with
      recvbuf := copyInts (c.current t).recvbuf ((s.rdco d.root).mem a).data
        (min d.count ((s.rdco d.root).mem a).count) }
    set q : RDCQueue := { c.rdcoArray d.root with
      first := (c.rdcoArray d.root).next (addr d.root a) }
    subst taken
    have atRoot : t = d.root := by
      have joined := published.joined t inside
      simp only [Joined, stage_now there nofun] at joined
      exact joined
    have all := (published.gather inside (stage_now there nofun) (not_not.mp full)).2
    have past : ∀ u < n, u ≠ t → s.call t < s.call u := by
      intro u low other
      have gone := all u low
      rw [Party.leave_stage_ne _ other] at gone
      exact past_of_stage gone
    obtain ⟨e, link⟩ := Option.ne_none_iff_exists'.mp published.next
    have turned : turn (reduceKind n d.root).on (calls.map ReduceCall.collective) (s.call t) =
        m d.root := by
      rw [atRoot]
      exact here.tracks.finished (atRoot ▸ inside)
    rw [turned] at slot
    let q' : HandleQueue RDCHandle := match o with
      | some e => ((s.rdco d.root).retire a).setCursor t (some e)
      | none => (s.rdco d.root).retire a
    have next : q'.next = (s.rdco d.root).next := by cases o <;> rfl
    have first : q'.first = (s.rdco d.root).next a := by cases o <;> rfl
    have goes : Coll.tmpiRdcoReduce n s t d.root (some d.op) d.count =
        some ((s.setRdco d.root q').leave t b) := by
      simp only [Coll.tmpiRdcoReduce, there, if_neg full, here.current]
      cases o <;> rfl
    have turns := turns_goto c d.root t q (.release (addr d.root a) (o.map (addr d.root)) b)
    have moves := moves_setRdco_leave s t d.root q' b
    have chain : ((s.setRdco d.root q').leave t b).rdco d.root = q' := Function.update_self _ _ _
    have now' : ((s.setRdco d.root q').leave t b).pc t = .idle := Function.update_self _ _ _
    have fewer : ∀ a', Uses n calls ((s.setRdco d.root q').leave t b) d.root (m d.root + 1) a' →
        Uses n calls s d.root (m d.root) a' := by
      intro a' used
      refine used_keep (by rw [chain]; exact next) moves here.on (Nat.le_succ _) (fun a' has => ?_)
        inside used
      rw [now'] at has
      cases has
    have retired : ¬ Uses n calls ((s.setRdco d.root q').leave t b) d.root (m d.root + 1) a := by
      rintro (⟨i, above, chained⟩ | ⟨u, low, on, has⟩)
      · rw [chain, next] at chained
        have := nth_injective queue.rising chained slot
        omega
      · by_cases self : u = t
        · subst self
          rw [now'] at has
          cases has
        · rw [moves.pc u self] at has
          rw [moves.call u self] at on
          obtain ⟨e', item⟩ := spare_item has
          exact ((queue.thread u low on).spare e' a item has).unchained _ slot
    have up : turn (reduceKind n d.root).on (calls.map ReduceCall.collective)
        (((s.setRdco d.root q').leave t b).call t) = m d.root + 1 := by
      simp only [Objects.leave, Objects.setRdco, Function.update_self]
      rw [turn_succ, turned, if_pos here.on]
    have kept : Tracks n calls
        ((c.setQueue d.root q).goto t (.release (addr d.root a) (o.map (addr d.root)) b))
        ((s.setRdco d.root q').leave t b) d.root (m d.root + 1) (addr d.root) := by
      refine here.tracks.keep inside turns moves (rootAt_of call) fewer ⟨⟨e, ?_, ?_⟩, fun u low => ?_⟩
        (fun _ => atRoot ▸ up) ?_ rfl fun h has => .inr ⟨a, used, retired, ?_⟩
      · rw [chain, first]
        exact link
      · rw [chain, next]
        exact nth_succ_of slot link
      · by_cases self : u = t
        · rw [self]
          exact up.ge
        · rw [moves.call u self]
          have := turn_lt here.on (past u low self)
          omega
      · have same : q.cursor = (c.rdcoArray d.root).cursor := rfl
        rw [chain, cursors_release (rootAt_of call) same]
        cases o with
        | none =>
            have own : Option.or none ((c.rdcoArray d.root).cursor t) = cursors calls c d.root t := by
              rw [cursors_of staying]
              rfl
            rw [Option.map_none, own, Function.update_eq_self]
            exact here.tracks.mirror.retire used
        | some e => exact (here.tracks.mirror.retire used).setCursor t (some e)
      · rw [goto_pc] at has
        exact has.symm
    have low : (Coll.Act.run t).thread < n := inside
    refine ⟨_, _, _, follows.step several inside call turns moves (.inl here.level)
      (fun r away => Function.update_of_ne away _ _) (.step follows.reach low (abs_step here goes))
      ?_ follows.args (fun k u apart => ?_) (fun ahead => ?_) (fun item newitem b' at' => ?_) ?_
      (fun _ _ => rfl) ?_ kept⟩
    · rw [goto_pc]
      simpa [Objects.leave, Objects.setRdco, ReduceObj.goto, ReduceObj.setQueue, ReducePc.leaving]
        using here.level
    · rw [← here.level] at apart
      exact update_apart apart
    · exact absurd ahead (Nat.ne_of_lt (Nat.lt_succ_self _))
    · rw [goto_pc] at at'
      cases at'
      rw [← here.level]
      simp only [Objects.leave, Objects.setRdco, Function.update_self]
    · intro item i tmp1 at'
      rw [goto_pc] at at'
      cases at'
    · rw [goto_pc, now']
      exact .release _ _ _

/-- Nothing that is in use is at an address that is freed. -/
theorem Tracks.deallocate {m : Nat} {addr : Nat → Nat} (tracks : Tracks n calls c s root m addr)
    (inside : t < n) (turns : Turns c c' t root q) (on : rootAt calls (c.call t) = some root)
    {h : Nat} (has : (c.pc t).Extra h (s.pc t))
    (mirror : Mirror n RDCHandle.Stores (Uses n calls s root m) addr (s.rdco root) q.mem q.next
      q.first (cursors calls c' root))
    (allocated : q.allocated = Function.update (c.rdcoArray root).allocated h false)
    (quiet : ∀ h', ¬ (c'.pc t).Extra h' (s.pc t)) : Tracks n calls c' s root m addr := by
  have array : c'.rdcoArray root = q := by rw [turns.queues, Function.update_self]
  obtain ⟨-, apart, alone⟩ := tracks.extra t inside h on has
  refine ⟨tracks.window, tracks.finished, ?_, fun a used => ?_, fun u low h' on' has' => ?_⟩
  · rw [array]
    exact mirror
  · rw [array, allocated, Function.update_of_ne (apart a used)]
    exact tracks.inUse a used
  · by_cases self : u = t
    · subst self
      exact absurd has' (quiet h')
    · rw [turns.pc u self] at has'
      rw [turns.call u self] at on'
      obtain ⟨holds, apart', alone'⟩ := tracks.extra u low h' on' has'
      have other : h' ≠ h := by
        rintro rfl
        exact alone u low self on' has'
      rw [array, allocated, Function.update_of_ne other]
      refine ⟨holds, apart', fun v low' ne onV also => ?_⟩
      by_cases same : v = t
      · subst same
        exact quiet h' also
      · rw [turns.pc v same] at also
        rw [turns.call v same] at onV
        exact alone' v low' ne onV also

theorem discard_follows (follows : Follows n calls c s m addr) (several : 2 ≤ n) (inside : t < n)
    {d : ReduceCall} (call : calls[c.call t]? = some d) {item newitem h : Nat}
    (at' : c.pc t = .discard item newitem) (taken : c.tmpiRdcoReduce n t h d = some c') :
    Followed n calls c' := by
  have staying : (c.pc t).leaving = false := by rw [at']; rfl
  have here := follows.here several inside call (by rw [at']; nofun) staying
  have shows' := here.shows'
  rw [at'] at shows'
  obtain ⟨a, rfl, there⟩ := shows'.of_discard
  simp only [tmpiRdcoReduce, at', Option.some.injEq] at taken
  subst taken
  set q : RDCQueue := { c.rdcoArray d.root with
    allocated := Function.update (c.rdcoArray d.root).allocated newitem false }
  have turns := turns_goto c d.root t q (.await (addr d.root a))
  have same : q.cursor = (c.rdcoArray d.root).cursor := rfl
  have kept : Tracks n calls ((c.setQueue d.root q).goto t (.await (addr d.root a))) s d.root
      (m d.root) (addr d.root) := by
    refine here.tracks.deallocate inside turns (rootAt_of call) (h := newitem) ?_ ?_ rfl fun h' => ?_
    · rw [at']
      exact rfl
    · rw [cursors_goto staying rfl same]
      exact here.tracks.mirror
    · rw [goto_pc]
      exact id
  refine ⟨s, _, _, follows.step several inside call turns (moves_stay s t) (.inr rfl)
    (fun _ _ => rfl) follows.reach ?_ follows.args (fun _ _ _ => rfl) (fun ahead => ?_) ?_ ?_
    (fun _ _ => rfl) ?_ kept⟩
  · rw [goto_pc]
    exact here.level
  · exact absurd ahead (Nat.ne_of_lt (Nat.lt_succ_self _))
  · intro item newitem b has
    rw [goto_pc] at has
    cases has
  · intro item i tmp1 has
    rw [goto_pc] at has
    cases has
  · rw [goto_pc, there]
    exact .await a

/-- The root frees the handle and returns. -/
theorem release_follows (follows : Follows n calls c s m addr) (several : 2 ≤ n) (inside : t < n)
    {d : ReduceCall} (call : calls[c.call t]? = some d) {item h : Nat} {newitem : Option Nat}
    {b : Buffers} (at' : c.pc t = .release item newitem b)
    (taken : c.tmpiRdcoReduce n t h d = some c') : Followed n calls c' := by
  have tracks := follows.queues d.root
  have level : s.call t = c.call t + 1 := by
    have level := follows.call t inside
    rw [at'] at level
    exact level
  have there : s.pc t = .idle := by
    obtain ⟨r, -, shows'⟩ := follows.pc t inside
    rw [at'] at shows'
    exact shows'.of_release
  simp only [tmpiRdcoReduce, at', Option.some.injEq] at taken
  obtain ⟨q, rfl, mem, next, first, allocated, moved⟩ : ∃ q : RDCQueue,
      (c.setQueue d.root q).leave t b = c' ∧ q.mem = (c.rdcoArray d.root).mem ∧
      q.next = (c.rdcoArray d.root).next ∧ q.first = (c.rdcoArray d.root).first ∧
      q.allocated = Function.update (c.rdcoArray d.root).allocated item false ∧
      q.cursor = Function.update (c.rdcoArray d.root).cursor t
        (newitem.or ((c.rdcoArray d.root).cursor t)) := by
    cases newitem with
    | none =>
        refine ⟨_, taken, rfl, rfl, rfl, rfl, ?_⟩
        exact (Function.update_eq_self _ _).symm
    | some newitem =>
        refine ⟨_, taken, rfl, rfl, rfl, rfl, ?_⟩
        rfl
  have before : cursors calls c d.root t = newitem.or ((c.rdcoArray d.root).cursor t) := by
    unfold cursors
    rw [at']
    exact if_pos (rootAt_of call)
  have turns := turns_leave c d.root t q b
  have kept : Tracks n calls ((c.setQueue d.root q).leave t b) s d.root (m d.root)
      (addr d.root) := by
    refine tracks.deallocate inside turns (rootAt_of call) ?_ ?_ allocated fun h' => ?_
    · rw [at']
      exact rfl
    · rw [cursors_moved moved, ← before, Function.update_eq_self, mem, next, first]
      exact tracks.mirror
    · rw [leave_pc]
      exact id
  refine ⟨s, _, _, follows.step several inside call turns (moves_stay s t) (.inr rfl)
    (fun _ _ => rfl) follows.reach ?_ follows.args (fun _ _ _ => rfl) (fun ahead => ?_) ?_ ?_
    (fun _ _ => rfl) ?_ kept⟩
  · rw [leave_pc]
    simpa [ReduceObj.leave, ReduceObj.setQueue, ReducePc.leaving] using level
  · rw [follows.released t inside item newitem b at']
    simp only [ReduceObj.leave, ReduceObj.setQueue, Function.update_self]
  · intro item newitem b has
    rw [leave_pc] at has
    cases has
  · intro item i tmp1 has
    rw [leave_pc] at has
    cases has
  · rw [leave_pc, there]
    exact .idle

/-- A handle is allocated, for the chain or for a thread that comes too late. -/
theorem Tracks.allocate {m : Nat} {addr addr' : Nat → Nat} (tracks : Tracks n calls c s root m addr)
    (inside : t < n) (turns : Turns c c' t root q) (moves : Moves s s' t) {h : Nat}
    (free : (c.rdcoArray root).allocated h = false)
    (allocated : q.allocated = Function.update (c.rdcoArray root).allocated h true)
    (window : Window (reduceKind n root) (calls.map ReduceCall.collective) s' (s'.rdco root) m)
    (finished : root < n → turn (reduceKind n root).on (calls.map ReduceCall.collective)
      (s'.call root) = m)
    (mirror : Mirror n RDCHandle.Stores (Uses n calls s' root m) addr' (s'.rdco root) q.mem q.next
      q.first (cursors calls c' root))
    (uses : ∀ b, Uses n calls s' root m b →
      Uses n calls s root m b ∧ addr' b = addr b ∨ addr' b = h)
    (own : ∀ h', (c'.pc t).Extra h' (s'.pc t) → h' = h ∧ ∀ b, Uses n calls s' root m b → addr' b ≠ h) :
    Tracks n calls c' s' root m addr' := by
  have array : c'.rdcoArray root = q := by rw [turns.queues, Function.update_self]
  have grows : ∀ h', (c.rdcoArray root).allocated h' = true → h' ≠ h ∧ q.allocated h' = true := by
    intro h' holds
    have other : h' ≠ h := by
      rintro rfl
      rw [free] at holds
      cases holds
    exact ⟨other, by rw [allocated, Function.update_of_ne other]; exact holds⟩
  refine ⟨window, finished, ?_, fun b there => ?_, fun u low h' on has => ?_⟩
  · rw [array]
    exact mirror
  · rw [array]
    rcases uses b there with ⟨old, same⟩ | new
    · rw [same]
      exact (grows _ (tracks.inUse b old)).2
    · rw [new, allocated, Function.update_self]
  · rw [array]
    by_cases self : u = t
    · subst self
      obtain ⟨rfl, apart⟩ := own h' has
      refine ⟨by rw [allocated, Function.update_self], apart, fun v low' ne onV also => ?_⟩
      rw [turns.pc v ne, moves.pc v ne] at also
      rw [turns.call v ne] at onV
      have holds := (tracks.extra v low' h' onV also).1
      rw [free] at holds
      cases holds
    · rw [turns.pc u self, moves.pc u self] at has
      rw [turns.call u self] at on
      obtain ⟨holds, apart, alone⟩ := tracks.extra u low h' on has
      refine ⟨(grows h' holds).2, fun b there => ?_, fun v low' ne onV also => ?_⟩
      · rcases uses b there with ⟨old, same⟩ | new
        · rw [same]
          exact apart b old
        · rw [new]
          exact (grows h' holds).1.symm
      · by_cases which : v = t
        · subst which
          exact (grows h' holds).1 (own h' also).1
        · rw [turns.pc v which, moves.pc v which] at also
          rw [turns.call v which] at onV
          exact alone v low' ne onV also

theorem alloc_follows (follows : Follows n calls c s m addr) (several : 2 ≤ n) (inside : t < n)
    {d : ReduceCall} (call : calls[c.call t]? = some d) {item h : Nat} (at' : c.pc t = .alloc item)
    (taken : c.tmpiRdcoReduce n t h d = some c') : Followed n calls c' := by
  have staying : (c.pc t).leaving = false := by rw [at']; rfl
  have here := follows.here several inside call (by rw [at']; nofun) staying
  have shows' := here.shows'
  rw [at'] at shows'
  obtain ⟨a, rfl, there⟩ := shows'.of_alloc
  have tracks := here.tracks
  have used := here.used inside (a := a) (by rw [there]; rfl)
  have queue := here.inv.rdco d.root
  simp only [tmpiRdcoReduce, at'] at taken
  split at taken
  next => cases taken
  next free =>
    rw [Option.some.injEq] at taken
    subst taken
    set q : RDCQueue := { c.rdcoArray d.root with
      allocated := Function.update (c.rdcoArray d.root).allocated h true
      mem := Function.update (c.rdcoArray d.root).mem h
        { (c.rdcoArray d.root).mem h with avail := -1 }
      next := Function.update (c.rdcoArray d.root).next h none }
    have turns := turns_goto c d.root t q (.claim (addr d.root a) h)
    have cursor : q.cursor = (c.rdcoArray d.root).cursor := rfl
    have same : cursors calls ((c.setQueue d.root q).goto t (.claim (addr d.root a) h)) d.root =
        cursors calls c d.root := cursors_goto staying rfl cursor
    have apart : ∀ b, Uses n calls s d.root (m d.root) b → addr d.root b ≠ h := by
      rintro b there rfl
      exact free (tracks.inUse b there)
    have low : (Coll.Act.run t).thread < n := inside
    by_cases avail : ((s.rdco d.root).mem a).avail = -1
    · set fresh := (s.rdco d.root).fresh with new
      set addr' := Function.update (addr d.root) fresh h with renamed
      let q' := (s.rdco d.root).alloc ⟨-1, fun _ => 0, 0⟩
      have goes : Coll.tmpiRdcoReduce n s t d.root (some d.op) d.count =
          some ((s.setRdco d.root q').goto t (.claim a fresh)) := by
        simp only [Coll.tmpiRdcoReduce, there, if_pos avail]
        rfl
      have moves := moves_setRdco_goto s t d.root q' (.claim a fresh)
      have chain : ((s.setRdco d.root q').goto t (.claim a fresh)).rdco d.root = q' :=
        Function.update_self _ _ _
      have now' : ((s.setRdco d.root q').goto t (.claim a fresh)).pc t = .claim a fresh :=
        Function.update_self _ _ _
      have links : q'.next = (s.rdco d.root).next := by
        change Function.update (s.rdco d.root).next fresh none = _
        rw [← queue.beyond fresh le_rfl, Function.update_eq_self]
      have more : ∀ b, Uses n calls ((s.setRdco d.root q').goto t (.claim a fresh)) d.root
          (m d.root) b → Uses n calls s d.root (m d.root) b ∨ b = fresh := by
        intro b there
        refine used_step (· = fresh) (fun i b there => .inl ?_) moves here.on le_rfl
          (fun b has => .inr ?_) inside there
        · rw [chain, links] at there
          exact there
        · rw [now'] at has
          exact (Option.some.inj has).symm
      have old : ∀ b, Uses n calls s d.root (m d.root) b → addr' b = addr d.root b :=
        fun b there => Function.update_of_ne (used_below queue there).ne _ _
      have mirror := (tracks.mirror.alloc (fun _ => used_below queue) (fun _ _ => used_next queue)
        (fun _ => tracks.window.used_first) (fun _ low _ => tracks.window.used_cursor queue low) apart
        (⟨rfl, fun posted => absurd posted (by decide : ¬ (0 : Int) < -1)⟩ : RDCHandle.Stores
          { (c.rdcoArray d.root).mem h with avail := -1 } ⟨-1, fun _ => 0, 0⟩)).shrink more
      have kept : Tracks n calls ((c.setQueue d.root q).goto t (.claim (addr d.root a) h))
          ((s.setRdco d.root q').goto t (.claim a fresh)) d.root (m d.root) addr' := by
        refine tracks.allocate inside turns moves (Bool.eq_false_iff.mpr free) rfl
          (tracks.window.move moves (by rw [chain]; rfl) fun i b there => by
            rw [chain, links]
            exact there)
          (tracks.finished_stays moves (.inl rfl)) ?_ (fun b there => ?_) fun h' has => ?_
        · rw [chain, same]
          exact mirror
        · rcases more b there with before | rfl
          · exact .inl ⟨before, old b before⟩
          · exact .inr (Function.update_self _ _ _)
        · rw [goto_pc, now'] at has
          exact has.elim
      refine ⟨_, _, _, follows.step several inside call turns moves (.inl here.level)
        (fun r away => Function.update_of_ne away _ _) (.step follows.reach low (abs_step here goes))
        ?_ follows.args (fun _ _ _ => rfl) (fun ahead => ?_) (fun item newitem b has => ?_)
        (fun item i tmp1 has => ?_) old ?_ kept⟩
      · rw [goto_pc]
        exact here.level
      · exact absurd ahead (Nat.ne_of_lt (Nat.lt_succ_self _))
      · rw [goto_pc] at has
        cases has
      · rw [goto_pc] at has
        cases has
      · have shows' : (ReducePc.claim (addr' a) (addr' fresh)).Shows addr' (.claim a fresh) := .claim a fresh
        rw [old a used, renamed, Function.update_self] at shows'
        rw [goto_pc, now']
        exact shows'
    · have goes : Coll.tmpiRdcoReduce n s t d.root (some d.op) d.count =
          some (s.goto t (.await a)) := by
        simp only [Coll.tmpiRdcoReduce, there, if_neg avail]
      have moves := moves_goto (s := s) (t := t) (.await a)
      have now' : (s.goto t (.await a)).pc t = .await a := Function.update_self _ _ _
      have fewer : ∀ b, Uses n calls (s.goto t (.await a)) d.root (m d.root) b →
          Uses n calls s d.root (m d.root) b := by
        intro b there
        refine used_keep rfl moves here.on le_rfl (fun b has => ?_) inside there
        rw [now'] at has
        cases has
      have kept : Tracks n calls ((c.setQueue d.root q).goto t (.claim (addr d.root a) h))
          (s.goto t (.await a)) d.root (m d.root) (addr d.root) := by
        refine tracks.allocate inside turns moves (Bool.eq_false_iff.mpr free) rfl
          (tracks.window.move moves rfl fun _ _ => id) (tracks.finished_stays moves (.inl rfl)) ?_
          (fun b there => .inl ⟨fewer b there, rfl⟩) fun h' has => ?_
        · rw [same]
          refine (tracks.mirror.congr fun b there => ?_).shrink fewer
          exact ⟨Function.update_of_ne (apart b there) _ _, Function.update_of_ne (apart b there) _ _⟩
        · rw [goto_pc, now'] at has
          exact ⟨has, fun b there => apart b (fewer b there)⟩
      refine ⟨_, _, _, follows.step several inside call turns moves (.inl here.level)
        (fun _ _ => rfl) (.step follows.reach low (abs_step here goes)) ?_ follows.args
        (fun _ _ _ => rfl) (fun ahead => ?_) (fun item newitem b has => ?_)
        (fun item i tmp1 has => ?_) (fun _ _ => rfl) ?_ kept⟩
      · rw [goto_pc]
        exact here.level
      · exact absurd ahead (Nat.ne_of_lt (Nat.lt_succ_self _))
      · rw [goto_pc] at has
        cases has
      · rw [goto_pc] at has
        cases has
      · rw [goto_pc, now']
        exact .late a h

theorem turns_enter (c : ReduceObj) (root t : Nat) (b : Buffers) (pc : ReducePc) :
    Turns c ((c.pass t b).goto t pc) t root (c.rdcoArray root) where
  queues := (Function.update_eq_self root c.rdcoArray).symm
  pc _ other := Function.update_of_ne other _ _
  call _ _ := rfl
  own := .inl rfl
  args _ _ other := update_apart (.inl other)
  results _ _ _ := rfl

/-- A thread makes its next call. -/
theorem enter_follows (follows : Follows n calls c s m addr) (several : 2 ≤ n) (inside : t < n)
    {d : ReduceCall} (call : calls[c.call t]? = some d) (idle : c.pc t = .idle) {b : Buffers}
    (taken : c.enter n t b d = some c') : Followed n calls c' := by
  have tracks := follows.queues d.root
  have staying : (c.pc t).leaving = false := by rw [idle]; rfl
  have idle' : s.pc t = .idle := by
    obtain ⟨r, -, shows'⟩ := follows.pc t inside
    rw [idle] at shows'
    exact shows'.of_idle
  have level : s.call t = c.call t := by simpa [staying] using follows.call t inside
  have on : onCall (reduceKind n d.root).on (calls.map ReduceCall.collective) (s.call t) = true := by
    rw [level]
    exact on_iff.mpr (rootAt_of call)
  rw [ReduceObj.enter, if_neg (by omega), Option.map_eq_some_iff] at taken
  obtain ⟨item, found, rfl⟩ := taken
  have stood : cursors calls c d.root t = (c.rdcoArray d.root).cursor t := cursors_of staying
  rw [← stood, tracks.mirror.curitem inside, Option.map_eq_some_iff] at found
  obtain ⟨a, curitem, rfl⟩ := found
  have goes : Coll.step n s (calls.map ReduceCall.collective) (.enter t b) =
      some ((s.pass t b).goto t (.look a)) := by
    rw [Coll.step, if_neg (not_not.mpr idle'), level, collective_at call, Option.bind_some, Coll.enter,
      if_neg (by omega), curitem]
    rfl
  have now : ((c.pass t b).goto t (.look (addr d.root a))).pc t = .look (addr d.root a) :=
    Function.update_self _ _ _
  have now' : ((s.pass t b).goto t (.look a)).pc t = .look a := Function.update_self _ _ _
  have moves := moves_enter (s := s) (t := t) (.look a) b
  have turns := turns_enter c d.root t b (.look (addr d.root a))
  have fewer : ∀ a', Uses n calls ((s.pass t b).goto t (.look a)) d.root (m d.root) a' →
      Uses n calls s d.root (m d.root) a' := by
    intro a' used
    refine used_keep rfl moves on le_rfl (fun a' spare => ?_) inside used
    rw [now'] at spare
    cases spare
  have kept := tracks.keep inside turns moves (rootAt_of call) fewer
    (tracks.window.move moves rfl fun _ _ => id) (tracks.finished_stays moves (.inl rfl)) (by
      rw [turns.cursors_same staying (congrArg _ now) rfl]
      exact tracks.mirror) rfl (fun h has => by
      rw [now] at has
      exact has.elim)
  have low : (Coll.Act.enter t b).thread < n := inside
  have args : ((s.pass t b).goto t (.look a)).args =
      ((c.pass t b).goto t (.look (addr d.root a))).args := by
    simp only [Objects.goto, Objects.pass, ReduceObj.goto, ReduceObj.pass, follows.args, level]
  refine ⟨_, _, _, follows.step several inside call turns moves (.inl level) (fun _ _ => rfl)
    (.step follows.reach low goes) ?_ args (fun _ _ _ => rfl) (fun ahead => ?_) ?_ ?_
    (fun _ _ => rfl) ?_ kept⟩
  · rw [now]
    exact level
  · exact absurd ahead (Nat.ne_of_lt (Nat.lt_succ_self _))
  · intro item newitem b' at'
    rw [now] at at'
    cases at'
  · intro item i tmp1 at'
    rw [now] at at'
    cases at'
  · rw [now, now']
    exact .look a

theorem reduce_follows (follows : Follows n calls c s m addr) (several : 2 ≤ n) (inside : t < n)
    {d : ReduceCall} (call : calls[c.call t]? = some d) (small : d.Small) {h : Nat}
    (taken : c.tmpiRdcoReduce n t h d = some c') : Followed n calls c' := by
  cases at' : c.pc t with
  | idle =>
      simp only [tmpiRdcoReduce, at'] at taken
      cases taken
  | look item => exact look_follows follows several inside call at' taken
  | alloc item => exact alloc_follows follows several inside call at' taken
  | claim item newitem => exact claim_follows follows several inside call at' taken
  | discard item newitem => exact discard_follows follows several inside call at' taken
  | publish item newitem => exact publish_follows follows several inside call small at' taken
  | await item => exact await_follows follows several inside call at' taken
  | combine item i => exact combine_follows follows several inside call at' taken
  | cas item i tmp1 => exact cas_follows follows several inside call at' taken
  | bump item => exact bump_follows follows several inside call at' taken
  | gather item newitem => exact gather_follows follows several inside call small at' taken
  | release item newitem b => exact release_follows follows several inside call at' taken

theorem step_follows (follows : Follows n calls c s m addr) (several : 2 ≤ n)
    (small : ∀ d ∈ calls, d.Small) {act : Act} (inside : act.thread < n) (taken : c.step n calls act = some c') : Followed n calls c' := by
  cases act with
  | enter t b =>
      rw [ReduceObj.step] at taken
      split at taken
      next idle =>
        obtain ⟨d, call, entered⟩ := Option.bind_eq_some_iff.mp taken
        exact enter_follows follows several inside call idle entered
      next => cases taken
  | run t h =>
      obtain ⟨d, call, ran⟩ := Option.bind_eq_some_iff.mp taken
      exact reduce_follows follows several inside call (small d (List.mem_of_getElem? call)) ran

/-- Every run is one in which no handle is handed out again, with its handles renamed. -/
theorem reach_followed (several : 2 ≤ n) (small : ∀ d ∈ calls, d.Small) (reach : Reach n calls c) :
    Followed n calls c := by
  induction reach with
  | create memory => exact ⟨_, _, _, create_follows memory⟩
  | step _ inside taken ih =>
      obtain ⟨s, m, addr, follows⟩ := ih
      exact step_follows follows several small inside taken

end Steps

end ReduceObj

/-! ## What the accumulators hold -/

namespace ReducePc

/-- The handle that a thread is at. -/
def item : ReducePc → Option Nat
  | .look item | .alloc item | .claim item _ | .discard item _ | .publish item _ | .await item
  | .combine item _ | .cas item _ _ | .bump item | .gather item _ => some item
  | .idle | .release .. => none

/-- Has its element `i` in the data. -/
def contributed (i : Nat) : ReducePc → Bool
  | .bump _ | .gather .. | .release .. => true
  | .combine _ j | .cas _ j _ => i < j
  | _ => false

theorem Shows.item {addr : Nat → Nat} {pc : ReducePc} {pc' : Pc} {h : Nat}
    (shows' : pc.Shows addr pc') (item : pc.item = some h) :
    ∃ a, pc'.item = some a ∧ h = addr a := by
  cases shows' with
  | idle | release => cases item
  | _ => exact ⟨_, rfl, (Option.some.inj item).symm⟩

theorem Shows.contributed {addr : Nat → Nat} {pc : ReducePc} {pc' : Pc}
    (shows' : pc.Shows addr pc') (staying : pc.leaving = false) (i : Nat) :
    (Stage.inside pc').contributed i = pc.contributed i := by
  cases shows' with
  | release => cases staying
  | _ => rfl

end ReducePc

namespace ReduceObj

section Results

variable (calls : List ReduceCall) (c : ReduceObj)

/-- Whether the data of call `k` has element `i` of thread `t`. -/
def contributed (k i t : Nat) : Bool :=
  decide (k < c.call t) || decide (c.call t = k) && (c.pc t).contributed i

/-- How many of the first `k` calls are reduces to thread `r`. -/
def order (r k : Nat) : Nat := (calls.take k).countP (·.root == r)

/-- The reduces to thread `r`, of which it has finished `finished`; `live` are the handles of the
next ones, in their order. -/
structure Accumulates (n r finished : Nat) (live : List Nat) : Prop where
  behind : r < n → order calls r (c.call r + if (c.pc r).leaving then 1 else 0) = finished
  path : Path (c.rdcoArray r).next (c.rdcoArray r).first live none
  some' : live ≠ []
  distinct : live.Nodup
  allocated : ∀ h ∈ live, (c.rdcoArray r).allocated h = true
  item : ∀ t < n, ∀ h, (c.pc t).item = some h → rootAt calls (c.call t) = some r →
    finished ≤ order calls r (c.call t) ∧
      live[order calls r (c.call t) - finished]? = some h
  begun : ∀ k d h, calls[k]? = some d → d.root = r → finished ≤ order calls r k →
    live[order calls r k - finished]? = some h → ∀ t < n, ∀ i, c.contributed k i t = true →
    0 < ((c.rdcoArray r).mem h).avail
  data : ∀ k d h, calls[k]? = some d → d.root = r → finished ≤ order calls r k →
    live[order calls r k - finished]? = some h → 0 < ((c.rdcoArray r).mem h).avail →
    ∀ i < d.count, ((c.rdcoArray r).mem h).data i =
      combined d.op (threads n (c.contributed k i)) fun t => (c.args k t).sendbuf i

/-- What holds of the reduces of a machine at any time. -/
structure Safe (n : Nat) : Prop where
  result : ∀ k d, calls[k]? = some d → d.root < n → k < c.call d.root → ∃ total : Ints,
    (∀ i < d.count, total i =
      combined d.op (Finset.range n) fun t => (c.args k t).sendbuf i) ∧
    c.results k d.root = some
      { c.args k d.root with recvbuf := copyInts (c.args k d.root).recvbuf total d.count }
  others : ∀ k d t, calls[k]? = some d → t < n → t ≠ d.root → k < c.call t →
    c.results k t = some (c.args k t)
  handles : ∀ r, ∃ finished live, c.Accumulates calls n r finished live

variable {calls c} {n r t : Nat} {s : Objects} {m : Nat → Nat} {addr : Nat → Nat → Nat}

theorem turn_collective (r k : Nat) :
    turn (reduceKind n r).on (calls.map ReduceCall.collective) k = order calls r k := by
  rw [turn, ← List.map_take, List.countP_map]
  rfl

theorem Follows.contributed (follows : Follows n calls c s m addr) (inside : t < n) (k i : Nat) :
    (s.stage k t).contributed i = c.contributed k i t := by
  have level := follows.call t inside
  obtain ⟨r, -, shows'⟩ := follows.pc t inside
  cases leaves : (c.pc t).leaving with
  | true =>
      have ended : (c.pc t).contributed i = true := by
        cases at' : c.pc t with
        | release => rfl
        | _ =>
            rw [at'] at leaves
            cases leaves
      have idle : s.pc t = .idle := by
        cases at' : c.pc t with
        | release item newitem b =>
            rw [at'] at shows'
            exact shows'.of_release
        | _ =>
            rw [at'] at leaves
            cases leaves
      rw [leaves, if_pos rfl] at level
      rw [ReduceObj.contributed, ended, Bool.and_true]
      by_cases past : k < s.call t
      · have early : k < c.call t ∨ c.call t = k := by omega
        rw [Objects.stage_past past, ← Bool.decide_or, decide_eq_true early]
        rfl
      · have late : ¬ (k < c.call t ∨ c.call t = k) := by omega
        rw [Objects.stage_idle (by omega) idle, ← Bool.decide_or, decide_eq_false late]
        rfl
  | false =>
      have here : s.call t = c.call t := by simpa [leaves] using level
      rw [ReduceObj.contributed, ← here, ← shows'.contributed leaves i]
      by_cases past : k < s.call t
      · rw [Objects.stage_past past, decide_eq_true past]
        rfl
      · rw [decide_eq_false past, Bool.false_or]
        by_cases now : s.call t = k
        · rw [decide_eq_true now, Bool.true_and]
          by_cases idle : s.pc t = .idle
          · rw [Objects.stage_idle now.le idle, idle]
            rfl
          · rw [Objects.stage_inside now idle]
        · rw [Objects.stage_later (by omega), decide_eq_false now, Bool.false_and]
          rfl

/-- The handle of a reduce that is not finished. -/
theorem Follows.cell (follows : Follows n calls c s m addr) (several : 2 ≤ n) {k a : Nat}
    {d : ReduceCall} (call : calls[k]? = some d)
    (slot : nth (s.rdco d.root).next 0 (order calls d.root k) = some a)
    (behind : m d.root ≤ order calls d.root k) :
    RDCHandle.Stores ((c.rdcoArray d.root).mem (addr d.root a)) ((s.rdco d.root).mem a) ∧
      ReduceCell n d.root (some d.op) d.count (s.party k) ((s.rdco d.root).mem a)
        ((s.rdco d.root).next a) := by
  have inv := reach_invariant several follows.reach
  rw [← turn_collective] at slot
  refine ⟨(follows.queues d.root).mirror.mem a (.inl ⟨_, ?_, slot⟩),
    (inv.rdco d.root).cell k _ (collective_at call) (reduce_user n d.root d.count _) a slot⟩
  rw [turn_collective]
  exact behind

/-- The handles of the reduces to thread `r`. -/
theorem Follows.accumulates (follows : Follows n calls c s m addr) (several : 2 ≤ n) (r : Nat) :
    ∃ live, c.Accumulates calls n r (m r) live := by
  have tracks := follows.queues r
  have inv := reach_invariant several follows.reach
  obtain ⟨l, place, used, path, some', apart⟩ := tracks.window.live (inv.rdco r) tracks.mirror
  have cell : ∀ k d h, calls[k]? = some d → d.root = r → m r ≤ order calls r k →
      (l.map (addr r))[order calls r k - m r]? = some h → ∃ a,
      RDCHandle.Stores ((c.rdcoArray r).mem h) ((s.rdco r).mem a) ∧
        ReduceCell n r (some d.op) d.count (s.party k) ((s.rdco r).mem a) ((s.rdco r).next a) := by
    rintro k d h call rfl behind here
    rw [List.getElem?_map, place, Nat.add_sub_of_le behind, Option.map_eq_some_iff] at here
    obtain ⟨a, slot, rfl⟩ := here
    exact ⟨a, follows.cell several call slot behind⟩
  refine ⟨l.map (addr r), ?_, path, some', apart, ?_, ?_, ?_, ?_⟩
  · intro inside
    rw [← follows.call r inside, ← turn_collective]
    exact tracks.finished inside
  · intro h member
    obtain ⟨a, here, rfl⟩ := List.mem_map.mp member
    exact tracks.inUse a (used a here)
  · intro t inside h item on
    obtain ⟨r', at', shows'⟩ := follows.pc t inside
    have busy : c.pc t ≠ .idle := by
      intro idle
      rw [idle] at item
      cases item
    have same := at'.resolve_left busy
    rw [on, Option.some.injEq] at same
    subst same
    obtain ⟨a, has, rfl⟩ := shows'.item item
    have level : s.call t = c.call t := (follows.used several inside on has).1
    have onCall' : onCall (reduceKind n r).on (calls.map ReduceCall.collective) (s.call t) = true := by
      rw [level]
      exact on_iff.mpr on
    have slot := ((inv.rdco r).thread t inside onCall').item a has
    have low := tracks.window.behind t inside
    rw [turn_collective, level] at slot low
    refine ⟨low, ?_⟩
    rw [List.getElem?_map, place, Nat.add_sub_of_le low, slot]
    rfl
  · intro k d h call root behind here t inside i given
    obtain ⟨a, stores, holds⟩ := cell k d h call root behind here
    have stage : ((s.party k).stage t).contributed i = true :=
      (follows.contributed inside k i).trans given
    rw [stores.1]
    cases holds with
    | unclaimed holds =>
        rw [Stage.waiting_contributed (Stage.early_waiting (holds.stages t inside))] at stage
        cases stage
    | claimed holds =>
        obtain ⟨f, -, ⟨item, newitem, first⟩, waits⟩ := holds.first
        by_cases self : t = f
        · subst self
          rw [first] at stage
          cases stage
        · rw [Stage.waiting_contributed (waits t inside self)] at stage
          cases stage
    | published holds => exact holds.avail_pos
  · intro k d h call root behind here avail i below
    obtain ⟨a, stores, holds⟩ := cell k d h call root behind here
    have avail' : 0 < ((s.rdco r).mem a).avail := stores.1 ▸ avail
    rw [stores.2 avail']
    cases holds with
    | unclaimed holds =>
        rw [holds.avail] at avail'
        exact absurd avail' (by decide)
    | claimed holds =>
        rw [holds.avail] at avail'
        exact absurd avail' (by decide)
    | published holds =>
        have total : ((s.rdco r).mem a).data i = combined d.op
            (threads n fun t => (s.stage k t).contributed i) fun t => (s.args k t).sendbuf i :=
          holds.data i below
        rw [total, follows.args]
        congr 1
        exact threads_congr fun t inside => follows.contributed inside k i

theorem Follows.past (follows : Follows n calls c s m addr) (several : 2 ≤ n) (inside : t < n)
    {k : Nat} {d : ReduceCall} (call : calls[k]? = some d) (past : k < c.call t) :
    ∃ b, c.results k t = some b ∧ Reduced n d.root (some d.op) d.count (c.args k) t b := by
  have level := follows.call t inside
  have gone : k < s.call t := by omega
  obtain ⟨b, result, leaves⟩ := reach_past several follows.reach (collective_at call) inside gone
  rw [← follows.results t inside k past, follows.args] at *
  exact ⟨b, result, leaves⟩

theorem reduce_safe (several : 2 ≤ n) (small : ∀ d ∈ calls, d.Small) (reach : Reach n calls c) :
    c.Safe calls n := by
  obtain ⟨s, m, addr, follows⟩ := reach_followed several small reach
  refine ⟨fun k d call low past => ?_, fun k d t call inside away past => ?_,
    fun r => ⟨m r, follows.accumulates several r⟩⟩
  · obtain ⟨b, result, reduced⟩ := follows.past several low call past
    rw [reduced_root] at reduced
    obtain ⟨total, sums, rfl⟩ := reduced
    exact ⟨total, sums, result⟩
  · obtain ⟨b, result, reduced⟩ := follows.past several inside call past
    rw [reduced_ne away] at reduced
    rw [result, reduced]

/-- Thread 1 is the first in a sum at thread 0. -/
def oneSum : List Act :=
  [.enter 1 ⟨[], fun _ => 5, fun _ => 0⟩, .run 1 0, .run 1 1, .run 1 0, .run 1 0,
    .enter 0 ⟨[], fun _ => 7, fun _ => 0⟩, .run 0 0, .run 0 0, .run 0 0, .run 0 0, .run 0 0,
    .run 0 0, .run 0 0]

theorem reduce_safe_one : ∃ c : ReduceObj, c.Safe [⟨0, .sum, 1⟩] 2 ∧
    (c.results 0 0).map (fun b => b.recvbuf 0) = some 12 := by
  have ends : ((create fun _ _ => ⟨0, fun _ => 0, 0⟩).run 2 [⟨0, .sum, 1⟩] oneSum).map
      (fun c => (c.results 0 0).map fun b => b.recvbuf 0) = some (some 12) := by decide
  obtain ⟨c, runs, equal⟩ := Option.map_eq_some_iff.mp ends
  have reach := (Reach.create fun _ _ => ⟨0, fun _ => 0, 0⟩).run (by decide) runs
  exact ⟨c, reduce_safe (by decide) (by decide) reach, equal⟩

end Results

/-! ## Lengths that do not fit -/

section Long

variable {calls : List ReduceCall} {c : ReduceObj} {d : ReduceCall} {n t item i h : Nat}

/-- An element that `rdc_int_max` leaves as it is. -/
theorem skip_max (at' : c.pc t = .combine item i) (op : d.op = .max)
    (more : i < min d.count ((c.rdcoArray d.root).mem item).count)
    (breaks : rdcBreak .max (((c.rdcoArray d.root).mem item).data i) ((c.current t).sendbuf i) = true) :
    c.tmpiRdcoReduce n t h d = some (c.goto t (.combine item (i + 1))) := by
  simp only [tmpiRdcoReduce, at', if_pos more, op, breaks, if_true]

/-- A thread that finds nothing to do for `k` elements. -/
theorem Reach.skips (reach : Reach n calls c) (inside : t < n) (call : calls[c.call t]? = some d)
    (op : d.op = .max) (at' : c.pc t = .combine item 0)
    (breaks : ∀ j, rdcBreak .max (((c.rdcoArray d.root).mem item).data j) ((c.current t).sendbuf j) = true)
    (k : Nat) (more : k ≤ min d.count ((c.rdcoArray d.root).mem item).count) :
    Reach n calls (c.goto t (.combine item k)) := by
  induction k with
  | zero =>
      have same : c.goto t (.combine item 0) = c := by
        rw [goto, ← at', Function.update_eq_self]
      rw [same]
      exact reach
  | succ k ih =>
      have here : (c.goto t (.combine item k)).pc t = .combine item k := Function.update_self ..
      have skips : (c.goto t (.combine item k)).tmpiRdcoReduce n t 0 d =
          some ((c.goto t (.combine item k)).goto t (.combine item (k + 1))) :=
        skip_max here op more (breaks k)
      have again : (c.goto t (.combine item k)).goto t (.combine item (k + 1)) =
          c.goto t (.combine item (k + 1)) := by
        simp [goto]
      have goes : (c.goto t (.combine item k)).step n calls (.run t 0) =
          some (c.goto t (.combine item (k + 1))) := by
        rw [← again, ← skips]
        change (calls[c.call t]?).bind _ = _
        rw [call, Option.bind_some]
      have member : (Act.run t 0).thread < n := inside
      exact .step (ih (Nat.le_of_succ_le more)) member goes

/-- One maximum of 2^30 elements at thread 0, which is the first: its length is 0, so its ones
stay in the accumulator, although both threads send zeros. -/
theorem reduce_long : ∃ c : ReduceObj, Reach 2 [⟨0, .max, 2^30⟩] c ∧
    ¬ c.Safe [⟨0, .max, 2^30⟩] 2 := by
  let zeros (own : Ints) : Buffers := ⟨[], fun _ => 0, own⟩
  obtain ⟨c, runs, at', call, count, ones, sent, e, rest, past, args, result⟩ : ∃ c,
      (create fun _ _ => ⟨0, fun _ => 0, 0⟩).run 2 [⟨0, .max, 2^30⟩]
        [.enter 0 (zeros fun _ => 1), .run 0 0, .run 0 1, .run 0 0, .run 0 0,
          .enter 1 (zeros fun _ => 0), .run 1 0, .run 1 0] = some c ∧
      c.pc 1 = .combine 0 0 ∧ c.call 1 = 0 ∧ ((c.rdcoArray 0).mem 0).count = 2^30 ∧
      (∀ j, ((c.rdcoArray 0).mem 0).data j = 1) ∧ (∀ j, (c.current 1).sendbuf j = 0) ∧
      ∃ e, (c.goto 1 (.combine 0 (2^30))).run 2 [⟨0, .max, 2^30⟩]
        [.run 1 0, .run 1 0, .run 0 0, .run 0 0] = some e ∧ e.call 0 = 1 ∧
        (fun t => (e.args 0 t).sendbuf 0) = (fun _ => 0) ∧
        (e.results 0 0).map (fun b => b.recvbuf 0) = some 1 :=
    ⟨_, rfl, rfl, rfl, rfl, fun _ => rfl, fun _ => rfl, _, rfl, rfl, by
      funext t
      rcases t with _ | _ | t <;> rfl, rfl⟩
  have reach := (Reach.create fun _ _ => ⟨0, fun _ => 0, 0⟩).run (by decide) runs
  have combined : Reach 2 [⟨0, .max, 2^30⟩] (c.goto 1 (.combine 0 (2^30))) := by
    refine reach.skips (d := ⟨0, .max, 2^30⟩) (by decide) (by rw [call]; rfl) rfl at' (fun j => ?_) _ ?_
    · rw [ones, sent]
      decide
    · rw [count]
      exact le_rfl
  refine ⟨e, combined.run (by decide) rest, fun safe => ?_⟩
  obtain ⟨total, each, left⟩ := safe.result 0 ⟨0, .max, 2^30⟩ rfl Nat.two_pos (past ▸ Nat.one_pos)
  have zero : total 0 = 0 := by
    rw [each 0 (by decide), args]
    exact combined_zero .max Nat.two_pos
  rw [left] at result
  simp [copyInts, zero] at result

end Long

end ReduceObj

end Tmpi.Coll
