import Tmpi.Coll.Reduce

/-! `tmpi_rdco_reduce` step by step: a step of a thread is one load or store of what the threads
share, one `cas32` or `aadd32`, or one operation on a mutex or a condition variable.

Both allocators may fail, and the handles come from any allocator: which handle
`tmpi_rdch_alloc` returns, or none, is up to the run. A thread that waits on a condition variable
may wake up at any time. The bytes of a reduce fit the `int len`; `Tmpi.Coll.ReduceObj` has the
other lengths, and takes the regions below as one step: its runs are runs of these steps
(`reach_leads`). -/

namespace Tmpi.Coll.Stepwise

/-- A `tmpi_RDCHandle *`. -/
inductive Ref where
  | null
  /-- `(tmpi_RDCHandle *)8L`. -/
  | failed
  | handle (h : Nat)
  deriving DecidableEq, Repr

/-- `tmpi_RDCHandle`; `lock` is the thread that holds the mutex, and `data` is `none` if it is
`NULL`. -/
structure RDCHandle where
  avail : Int
  next : Ref
  data : Option Ints
  count : Nat
  lock : Option Nat

/-- `tmpi_RDCQueue`. `inUse` are the handles that are not free. -/
structure RDCQueue where
  mem : Nat → RDCHandle
  first : Ref
  cursor : Nat → Ref
  inUse : Nat → Bool

/-- `tmpi_rdcq_create`; `memory` is what `malloc` has returned. -/
def RDCQueue.create (memory : Nat → RDCHandle) : RDCQueue where
  mem := Function.update memory 0 { memory 0 with avail := -1, next := .null, lock := none }
  first := .handle 0
  cursor _ := .null
  inUse h := h == 0

/-- What a thread is about to do inside `tmpi_rdco_reduce`. -/
inductive Line where
  | idle
  /-- `curitem->avail==-1` -/
  | look
  | alloc
  /-- `newitem->avail=-1`, `newitem->next=NULL` -/
  | initAvail | initNext
  /-- `cas32(&(curitem->avail), -1, 0)` -/
  | claim
  /-- `curitem->next=newitem` -/
  | link
  /-- `curitem->data=...`, `curitem->data==NULL` -/
  | setData | testData
  /-- `memcpy(curitem->data, sendbuf, len)`, from element `i` on. -/
  | fill
  | setCount
  /-- `curitem->avail=1` under the lock, and the broadcast. -/
  | publishLock | publish | publishBcast | publishUnlock
  /-- `tmpi_rdch_free` of `newitem`. -/
  | discardMutex | discardCond | discard
  /-- `while (curitem->avail==0)` under the lock. -/
  | awaitLock | awaitTest | awaitWait | awaitUnlock
  /-- `MIN(count, curitem->count)`, `if (curitem->data)` -/
  | minCount | checkData
  /-- `simple_reduce`, from element `i` on. -/
  | combine | cas
  /-- `ukey_setval(q->key_curhandle, curitem->next)` -/
  | setCursor
  /-- `curitem->avail++` under the lock, and the signal. -/
  | bumpLock | bumpLoad | bumpStore | bumpTest | bumpSignal | bumpUnlock
  /-- The root reads `curitem->avail` without the lock. -/
  | peek
  /-- `while (curitem->avail!=rdco->group_size)` under the lock. -/
  | gatherLock | gatherTest | gatherWait | gatherUnlock
  /-- `memcpy(recvbuf, curitem->data, len)`, from element `i` on, and `cm_free`. -/
  | copy
  /-- `q->first=curitem->next` -/
  | loadNext | storeFirst
  /-- `tmpi_rdch_free` of `curitem`. -/
  | freeMutex | freeCond | free
  deriving DecidableEq, Repr

/-- The local variables of a thread inside `tmpi_rdco_reduce`. `isFirst` is which of the two copies
of the root's code it is in; `avail` and `next` are what it has loaded. -/
structure Frame where
  line : Line
  root : Nat
  op : RdcOp
  count : Nat
  buffers : Buffers
  curitem : Nat
  newitem : Ref
  isFirst : Bool
  i : Nat
  tmp1 : BitVec 32
  avail : Int
  next : Ref
  ret : Int

namespace Frame

variable (f : Frame)

def goto (line : Line) : Frame := { f with line }

def leave (ret : Int) : Frame := { f with line := .idle, ret }

def setRecvbuf (recvbuf : Ints) : Frame := { f with buffers := { f.buffers with recvbuf } }

end Frame

namespace RDCQueue

variable (q : RDCQueue) (item : Nat)

def set (handle : RDCHandle) : RDCQueue := { q with mem := Function.update q.mem item handle }

def setAvail (avail : Int) : RDCQueue := q.set item { q.mem item with avail }

def setNext (next : Ref) : RDCQueue := q.set item { q.mem item with next }

def setData (data : Option Ints) : RDCQueue := q.set item { q.mem item with data }

def setCount (count : Nat) : RDCQueue := q.set item { q.mem item with count }

def setLock (lock : Option Nat) : RDCQueue := q.set item { q.mem item with lock }

/-- `ukey_setval`. -/
def setCursor (t : Nat) (ref : Ref) : RDCQueue :=
  { q with cursor := Function.update q.cursor t ref }

def setUse (used : Bool) : RDCQueue := { q with inUse := Function.update q.inUse item used }

/-- What the allocator returns has its mutex initialized. -/
def alloc : RDCQueue := (q.setLock item none).setUse item true

end RDCQueue

section Steps

variable (groupSize t : Nat) (q : RDCQueue) (f : Frame)

/-- Thread `t` makes a call, up to the first load of the handle. -/
def enter (c : ReduceCall) (buffers : Buffers) : Option Frame :=
  let f := { f with root := c.root, op := c.op, count := c.count, buffers, isFirst := false, ret := 0 }
  if groupSize < 2 then
    some ((f.setRecvbuf (copyInts buffers.recvbuf buffers.sendbuf c.count)).leave 0)
  else
    match if q.cursor t = .null then q.first else q.cursor t with
    | .null => none
    | .failed => some (f.leave (-1))
    | .handle curitem => some ({ f with curitem }.goto .look)

/-- `thr_mtx_lock`, or the end of `thr_cnd_wait`. -/
def acquire (line : Line) : Option (RDCQueue × Frame) :=
  match (q.mem f.curitem).lock with
  | none => some (q.setLock f.curitem (some t), f.goto line)
  | some _ => none

/-- `thr_mtx_unlock`, or the begin of `thr_cnd_wait`. -/
def release (line : Line) : RDCQueue × Frame := (q.setLock f.curitem none, f.goto line)

/-- The root has seen that it is the last. -/
def Frame.gathered : Frame :=
  if f.ret = 0 ∧ ¬ f.isFirst then { f with i := 0 }.goto .copy else f.goto .loadNext

/-- One step of thread `t`; `given` is what an allocator returns. -/
def tmpiRdcoReduce (given : Option Nat) : Option (RDCQueue × Frame) :=
  let item := f.curitem
  let handle := q.mem item
  match f.line with
  | .idle => none
  | .look => some (q, f.goto (if handle.avail = -1 then .alloc else .awaitLock))
  | .alloc =>
      match given with
      | none => some (q, { f with newitem := .failed }.goto .claim)
      | some h => some (q.alloc h, { f with newitem := .handle h }.goto .initAvail)
  | .initAvail =>
      match f.newitem with
      | .handle h => some (q.setAvail h (-1), f.goto .initNext)
      | _ => none
  | .initNext =>
      match f.newitem with
      | .handle h => some (q.setNext h .null, f.goto .claim)
      | _ => none
  | .claim =>
      if handle.avail = -1 then some (q.setAvail item 0, f.goto .link)
      else some (q, f.goto (if f.newitem = .failed then .awaitLock else .discardMutex))
  | .link => some (q.setNext item f.newitem, f.goto .setData)
  | .setData =>
      -- `NULL` from `cm_alloc`, or as the root's `recvbuf`
      let data := given.map fun _ => if t = f.root then f.buffers.recvbuf else fun _ => 0
      some (q.setData item data, f.goto .testData)
  | .testData =>
      match handle.data with
      | none => some (q, { f with ret := -2 }.goto .setCount)
      | some _ => some (q, { f with i := 0 }.goto .fill)
  | .fill =>
      if f.i < f.count then
        let data := handle.data.map fun d => Function.update d f.i (f.buffers.sendbuf f.i)
        some (q.setData item data, { f with i := f.i + 1 })
      else some (q, f.goto .setCount)
  | .setCount => some (q.setCount item (if f.ret = 0 then f.count else 0), f.goto .publishLock)
  | .publishLock => acquire t q f .publish
  | .publish => some (q.setAvail item 1, f.goto .publishBcast)
  | .publishBcast => some (q, f.goto .publishUnlock)
  | .publishUnlock =>
      if f.ret = 0 ∧ t = f.root then
        some (release q { f with isFirst := true } .gatherLock)
      else some ((q.setLock item none).setCursor t f.newitem, f.leave f.ret)
  | .discardMutex => some (q, f.goto .discardCond)
  | .discardCond => some (q, f.goto .discard)
  | .discard =>
      match f.newitem with
      | .handle h => some (q.setUse h false, f.goto .awaitLock)
      | _ => none
  | .awaitLock => acquire t q f .awaitTest
  | .awaitTest =>
      if handle.avail = 0 then some (release q f .awaitWait) else some (q, f.goto .awaitUnlock)
  | .awaitWait => acquire t q f .awaitTest
  | .awaitUnlock => some (release q f .minCount)
  | .minCount => some (q, { f with count := min f.count handle.count }.goto .checkData)
  | .checkData =>
      match handle.data with
      | none => some (q, { f with ret := -2 }.goto .setCursor)
      | some _ => some (q, { f with ret := 0, i := 0 }.goto .combine)
  | .combine =>
      match handle.data with
      | none => none
      | some d =>
          if f.i < f.count then
            match f.op with
            | .sum =>
                let d := Function.update d f.i (d f.i + f.buffers.sendbuf f.i)
                some (q.setData item (some d), { f with i := f.i + 1 })
            | op =>
                if rdcBreak op (d f.i) (f.buffers.sendbuf f.i) then some (q, { f with i := f.i + 1 })
                else some (q, { f with tmp1 := d f.i }.goto .cas)
          else some (q, f.goto .setCursor)
  | .cas =>
      match handle.data with
      | none => none
      | some d =>
          if d f.i = f.tmp1 then
            let d := Function.update d f.i (f.buffers.sendbuf f.i)
            some (q.setData item (some d), { f with i := f.i + 1 }.goto .combine)
          else some (q, f.goto .combine)
  | .setCursor => some (q.setCursor t handle.next, f.goto .bumpLock)
  | .bumpLock => acquire t q f .bumpLoad
  | .bumpLoad => some (q, { f with avail := handle.avail }.goto .bumpStore)
  | .bumpStore => some (q.setAvail item (f.avail + 1), f.goto .bumpTest)
  | .bumpTest =>
      if handle.avail = groupSize ∧ t ≠ f.root then some (q, f.goto .bumpSignal)
      else some (q, f.goto .bumpUnlock)
  | .bumpSignal => some (q, f.goto .bumpUnlock)
  | .bumpUnlock =>
      if t = f.root then some (release q f .peek)
      else some (q.setLock item none, f.leave f.ret)
  | .peek =>
      if handle.avail = groupSize then some (q, f.gathered) else some (q, f.goto .gatherLock)
  | .gatherLock => acquire t q f .gatherTest
  | .gatherTest =>
      if handle.avail = groupSize then some (q, f.goto .gatherUnlock)
      else some (release q f .gatherWait)
  | .gatherWait => acquire t q f .gatherTest
  | .gatherUnlock =>
      -- the first one has passed `recvbuf` as `data`
      let f := if f.isFirst then f.setRecvbuf (handle.data.getD f.buffers.recvbuf) else f
      some (q.setLock item none, f.gathered)
  | .copy =>
      match handle.data with
      | none => none
      | some d =>
          if f.i < f.count then
            let recvbuf := Function.update f.buffers.recvbuf f.i (d f.i)
            some (q, { f.setRecvbuf recvbuf with i := f.i + 1 })
          else some (q, f.goto .loadNext)
  | .loadNext => some (q, { f with next := handle.next }.goto .storeFirst)
  | .storeFirst => some ({ q with first := f.next }, f.goto .freeMutex)
  | .freeMutex => some (q, f.goto .freeCond)
  | .freeCond => some (q, f.goto .free)
  | .free =>
      let q := q.setUse item false
      some (if f.isFirst then q.setCursor t f.newitem else q, f.leave f.ret)

end Steps

/-- `tmpi_ReduceObj` and the threads. -/
structure ReduceObj where
  rdcoArray : Nat → RDCQueue
  frame : Nat → Frame

inductive Act where
  | enter (t : Nat) (c : ReduceCall) (buffers : Buffers)
  /-- With what an allocator returns, if one is called. -/
  | run (t : Nat) (given : Option Nat)

def Act.thread : Act → Nat
  | .enter t .. | .run t _ => t

namespace ReduceObj

/-- `tmpi_rdco_create`, before the first call. -/
def create (memory : Nat → Nat → RDCHandle) (frame : Nat → Frame) : ReduceObj where
  rdcoArray r := .create (memory r)
  frame t := (frame t).goto .idle

variable (groupSize : Nat) (s : ReduceObj)

/-- The calls are made with the local id of a thread as `root`. -/
def step : Act → Option ReduceObj
  | .enter t c buffers =>
      if (s.frame t).line = .idle ∧ c.root < groupSize then
        (enter groupSize t (s.rdcoArray c.root) (s.frame t) c buffers).map fun f =>
          { s with frame := Function.update s.frame t f }
      else none
  | .run t given =>
      let f := s.frame t
      (tmpiRdcoReduce groupSize t (s.rdcoArray f.root) f given).map fun (q, f') =>
        ⟨Function.update s.rdcoArray f.root q, Function.update s.frame t f'⟩

/-- Runs of the threads `0, .., groupSize - 1` whose steps `allowed` admits in their states. -/
inductive Leads (allowed : ReduceObj → Act → Prop) (s : ReduceObj) : ReduceObj → Prop where
  | refl : Leads allowed s s
  | step {s₁ s₂ act} : Leads allowed s s₁ → act.thread < groupSize → allowed s₁ act →
      s₁.step groupSize act = some s₂ → Leads allowed s s₂

variable {groupSize s} in
theorem Leads.trans {allowed : ReduceObj → Act → Prop} {s₁ s₂ : ReduceObj}
    (first : s.Leads groupSize allowed s₁) (second : s₁.Leads groupSize allowed s₂) :
    s.Leads groupSize allowed s₂ := by
  induction second with
  | refl => exact first
  | step _ low admitted taken ih => exact ih.step low admitted taken

/-- The run of some actions, if it is one whose steps `allowed` admits. -/
def run (allowed : ReduceObj → Act → Prop) [∀ s, DecidablePred (allowed s)] :
    ReduceObj → List Act → Option ReduceObj
  | s, [] => some s
  | s, act :: acts =>
      if act.thread < groupSize ∧ allowed s act then
        (s.step groupSize act).bind fun s => run allowed s acts
      else none

variable {groupSize s} in
theorem Leads.run {allowed : ReduceObj → Act → Prop} [∀ s, DecidablePred (allowed s)]
    {s₁ s₂ : ReduceObj} {acts : List Act} (leads : s.Leads groupSize allowed s₁)
    (runs : s₁.run groupSize allowed acts = some s₂) : s.Leads groupSize allowed s₂ := by
  induction acts generalizing s₁ with
  | nil => exact Option.some.inj runs ▸ leads
  | cons act acts ih =>
      simp only [ReduceObj.run] at runs
      split at runs
      next admitted =>
        obtain ⟨mid, taken, rest⟩ := Option.bind_eq_some_iff.mp runs
        exact ih (.step leads admitted.1 admitted.2 taken) rest
      next => cases runs

end ReduceObj

end Tmpi.Coll.Stepwise
