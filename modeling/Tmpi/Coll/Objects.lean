import Tmpi.Lib.Buffer
import Tmpi.Lib.Chain
import Mathlib.Tactic

/-! `bcast.c` and `reduce.c`: the broadcast and the reduce object of one machine.

The threads of a machine go through the same collectives. A step of a thread is one locked
region or atomic operation with the code up to the next one; `none` is a thread that waits.
Memory does not run out, and a handle that is freed is not handed out again: `BcastObj` and
`ReduceObj` have the allocators, and their runs are runs of this model with the handles renamed
(`reach_followed`). A reduce goes on where its bytes fit the `int len` of the code only;
`ReduceObj` has the other lengths. -/

namespace Tmpi.Coll

/-- An `int *` buffer. -/
abbrev Ints := Nat → BitVec 32

inductive RdcOp where
  | max | min | sum
  deriving DecidableEq, Repr

/-- One element of `rdc_int_max`, `rdc_int_min` and `rdc_int_sum`, which is one successful
`cas32` (or the read that makes it superfluous) or one `aadd32`. -/
def rdcInt : RdcOp → BitVec 32 → BitVec 32 → BitVec 32
  | .max, res, src => if src.sle res then res else src
  | .min, res, src => if res.sle src then res else src
  | .sum, res, src => res + src

/-- One element of `simple_reduce`; `none` is an operator that it has no function for. -/
def simpleReduce : Option RdcOp → BitVec 32 → BitVec 32 → BitVec 32
  | none, res, _ => res
  | some op, res, src => rdcInt op res src

/-- Whether `rdc_int_max` or `rdc_int_min` has nothing to do for an element. -/
def rdcBreak : RdcOp → BitVec 32 → BitVec 32 → Bool
  | .max, tmp1, tmp2 => tmp2.sle tmp1
  | .min, tmp1, tmp2 => tmp1.sle tmp2
  | .sum, _, _ => false

/-- `memcpy` of `count` elements. -/
def copyInts (dst src : Ints) (count : Nat) : Ints := fun i => if i < count then src i else dst i

/-- `int len=tmpi_Usize(type)*count`, for `int`s. -/
def intsLen (count : Nat) : Int := wrap (4 * count)

/-- `memcpy` of `len` bytes of `int`s. A negative `len` is a `size_t` that no buffer has, and the
process dies. -/
def memcpyInts (dst src : Ints) (len : Int) : Option Ints :=
  if len < 0 then none else some (copyInts dst src (len.toNat / 4))

theorem intsLen_eq_iff {count : Nat} : intsLen count = 4 * count ↔ 4 * count < 2^31 := by
  rw [intsLen, wrap_eq_iff (by omega)]
  omega

theorem memcpyInts_small (dst src : Ints) {count : Nat} (small : 4 * count < 2^31) :
    memcpyInts dst src (intsLen count) = some (copyInts dst src count) := by
  rw [intsLen_eq_iff.mpr small, memcpyInts, if_neg (by omega)]
  congr
  omega

/-! ## The objects -/

/-- `tmpi_BCHandle`, but for its `next`. -/
structure BCHandle where
  avail : Nat
  data : Buffer
  len : Nat

/-- `tmpi_RDCHandle`, but for its `next`. -/
structure RDCHandle where
  avail : Int
  data : Ints
  count : Nat

/-- `tmpi_BCQueue` and `tmpi_RDCQueue`. `cursor` is what each thread keeps under
`key_curhandle`; addresses from `fresh` on have not been handed out. -/
structure HandleQueue (Handle : Type) where
  mem : Nat → Handle
  next : Nat → Option Nat
  fresh : Nat
  freed : List Nat
  first : Option Nat
  cursor : Nat → Option Nat

namespace HandleQueue

variable {Handle : Type} (q : HandleQueue Handle)

/-- `tmpi_bcq_create` and `tmpi_rdcq_create`, with the guarding node. -/
def create (guard : Handle) : HandleQueue Handle :=
  ⟨fun _ => guard, fun _ => none, 1, [], some 0, fun _ => none⟩

/-- `tmpi_bch_alloc` and `tmpi_rdch_alloc` return `q.fresh`. -/
def alloc (handle : Handle) : HandleQueue Handle :=
  { q with
    mem := Function.update q.mem q.fresh handle
    next := Function.update q.next q.fresh none
    fresh := q.fresh + 1 }

def free (item : Nat) : HandleQueue Handle := { q with freed := item :: q.freed }

def set (item : Nat) (handle : Handle) : HandleQueue Handle :=
  { q with mem := Function.update q.mem item handle }

def link (item newitem : Nat) : HandleQueue Handle :=
  { q with next := Function.update q.next item (some newitem) }

/-- `ukey_setval`. -/
def setCursor (t : Nat) (item : Option Nat) : HandleQueue Handle :=
  { q with cursor := Function.update q.cursor t item }

/-- `q->first=curitem->next`, and the handle is freed. -/
def retire (item : Nat) : HandleQueue Handle := { q with first := q.next item }.free item

/-- `curitem`: the thread's handle, or the first one. -/
def curitem (t : Nat) : Option Nat := (q.cursor t).or q.first

end HandleQueue

/-! ## Calls -/

/-- A call that all threads of a machine make; `root` is a local id. -/
inductive Collective where
  | bcast (root len : Nat)
  | reduce (root : Nat) (op : Option RdcOp) (count : Nat)
  deriving DecidableEq, Repr

/-- What a thread passes: `data` to `tmpi_bco_bcast`, the others to `tmpi_rdco_reduce`. -/
structure Buffers where
  data : Buffer
  sendbuf : Ints
  recvbuf : Ints

/-- `curitem->data` of the first thread, with its elements: the root combines in its `recvbuf`. -/
def Buffers.firstData (b : Buffers) (isRoot : Bool) (count : Nat) : Ints :=
  if isRoot then copyInts b.recvbuf b.sendbuf count else b.sendbuf

theorem Buffers.firstData_below (b : Buffers) (isRoot : Bool) {count i : Nat} (below : i < count) :
    b.firstData isRoot count i = b.sendbuf i := by
  unfold firstData
  split
  next => exact if_pos below
  next => rfl

/-- Where a thread is inside a call. -/
inductive Pc where
  | idle
  /-- The root of a broadcast has its handle. -/
  | post (item : Nat)
  /-- Waits until `avail` is set. -/
  | await (item : Nat)
  /-- A receiver has copied, and has yet to count itself. -/
  | depart (item : Nat) (data : Buffer)
  /-- Has its handle in a reduce. -/
  | look (item : Nat)
  /-- Has found `avail==-1` and allocated. -/
  | claim (item newitem : Nat)
  /-- Has been the first. -/
  | publish (item newitem : Nat)
  | combine (item i : Nat)
  | bump (item : Nat)
  /-- The root waits for the others; `newitem` if it has been the first. -/
  | gather (item : Nat) (newitem : Option Nat)
  deriving DecidableEq, Repr

/-- `tmpi_BcastObj` and `tmpi_ReduceObj`, and the threads. `args` and `results` are what each
thread has passed to each call and what its buffers are when it returns. -/
structure Objects where
  bco : Nat → HandleQueue BCHandle
  rdco : Nat → HandleQueue RDCHandle
  pc : Nat → Pc
  call : Nat → Nat
  args : Nat → Nat → Buffers
  results : Nat → Nat → Option Buffers

namespace Objects

variable (s : Objects)

/-- What thread `t` has passed to the call it is in. -/
def current (t : Nat) : Buffers := s.args (s.call t) t

def setBco (root : Nat) (q : HandleQueue BCHandle) : Objects :=
  { s with bco := Function.update s.bco root q }

def setRdco (root : Nat) (q : HandleQueue RDCHandle) : Objects :=
  { s with rdco := Function.update s.rdco root q }

def goto (t : Nat) (pc : Pc) : Objects := { s with pc := Function.update s.pc t pc }

def pass (t : Nat) (b : Buffers) : Objects :=
  { s with args := Function.update s.args (s.call t) (Function.update (s.args (s.call t)) t b) }

/-- Thread `t` returns from its call. -/
def leave (t : Nat) (b : Buffers) : Objects :=
  { s with
    pc := Function.update s.pc t .idle
    call := Function.update s.call t (s.call t + 1)
    results := Function.update s.results (s.call t)
      (Function.update (s.results (s.call t)) t (some b)) }

end Objects

/-- `tmpi_bco_create` and `tmpi_rdco_create`, before the first call. -/
def create : Objects where
  bco _ := .create ⟨0, [], 0⟩
  rdco _ := .create ⟨-1, fun _ => 0, 0⟩
  pc _ := .idle
  call _ := 0
  args _ _ := ⟨[], fun _ => 0, fun _ => 0⟩
  results _ _ := none

section Steps

variable (groupSize : Nat) (s : Objects) (t : Nat)

/-- Thread `t` makes its next call. -/
def enter (b : Buffers) : Collective → Option Objects
  | .bcast root _ =>
      if groupSize < 2 then some ((s.pass t b).leave t b)
      else ((s.bco root).curitem t).map fun item =>
        (s.pass t b).goto t (if t = root then .post item else .await item)
  | .reduce root _ count =>
      if groupSize < 2 then
        if intsLen count = 4 * count then
          some ((s.pass t b).leave t { b with recvbuf := copyInts b.recvbuf b.sendbuf count })
        else none
      else ((s.rdco root).curitem t).map fun item => (s.pass t b).goto t (.look item)

def tmpiBcoBcast (root len : Nat) : Option Objects :=
  let q := s.bco root
  match s.pc t with
  | .post item =>
      let newitem := q.fresh
      some ((s.setBco root ((((q.alloc ⟨0, [], 0⟩).link item newitem).set item
        ⟨1, (s.current t).data.take len, len⟩).setCursor t (some newitem))).leave t (s.current t))
  | .await item =>
      if (q.mem item).avail = 0 then none
      else
        let data := memcpy (s.current t).data (q.mem item).data (min len (q.mem item).len)
        some ((s.setBco root (q.setCursor t (q.next item))).goto t (.depart item data))
  | .depart item data =>
      let handle := { q.mem item with avail := (q.mem item).avail + 1 }
      let q := q.set item handle
      let q := if handle.avail = groupSize then q.retire item else q
      some ((s.setBco root q).leave t { s.current t with data })
  | _ => none

def tmpiRdcoReduce (root : Nat) (op : Option RdcOp) (count : Nat) : Option Objects :=
  let q := s.rdco root
  match s.pc t with
  | .look item =>
      if (q.mem item).avail = -1 then
        some ((s.setRdco root (q.alloc ⟨-1, fun _ => 0, 0⟩)).goto t (.claim item q.fresh))
      else some (s.goto t (.await item))
  | .claim item newitem =>
      if (q.mem item).avail = -1 then
        some ((s.setRdco root (q.set item { q.mem item with avail := 0 })).goto t
          (.publish item newitem))
      else some ((s.setRdco root (q.free newitem)).goto t (.await item))
  | .publish item newitem =>
      let q := (q.link item newitem).set item ⟨1, (s.current t).firstData (t = root) count, count⟩
      if intsLen count ≠ 4 * count then none
      else if t = root then some ((s.setRdco root q).goto t (.gather item (some newitem)))
      else some ((s.setRdco root (q.setCursor t (some newitem))).leave t (s.current t))
  | .await item =>
      if (q.mem item).avail = 0 then none else some (s.goto t (.combine item 0))
  | .combine item i =>
      if i < min count (q.mem item).count then
        let data := Function.update (q.mem item).data i
          (simpleReduce op ((q.mem item).data i) ((s.current t).sendbuf i))
        some ((s.setRdco root (q.set item { q.mem item with data })).goto t (.combine item (i + 1)))
      else some ((s.setRdco root (q.setCursor t (q.next item))).goto t (.bump item))
  | .bump item =>
      let s := s.setRdco root (q.set item { q.mem item with avail := (q.mem item).avail + 1 })
      if t = root then some (s.goto t (.gather item none)) else some (s.leave t (s.current t))
  | .gather item newitem =>
      if (q.mem item).avail ≠ groupSize then none
      else
        let recvbuf := copyInts (s.current t).recvbuf (q.mem item).data
          (min count (q.mem item).count)
        let q := q.retire item
        let q := match newitem with
          | some newitem => q.setCursor t (some newitem)
          | none => q
        some ((s.setRdco root q).leave t { s.current t with recvbuf })
  | _ => none

inductive Act where
  | enter (t : Nat) (b : Buffers)
  | run (t : Nat)

def Act.thread : Act → Nat
  | .enter t _ => t
  | .run t => t

/-- A step of a machine whose threads make the `calls`, in their order. -/
def step (calls : List Collective) : Act → Option Objects
  | .enter t b =>
      if s.pc t ≠ .idle then none
      else (calls[s.call t]?).bind (enter groupSize s t b)
  | .run t =>
      match calls[s.call t]? with
      | none => none
      | some (.bcast root len) => tmpiBcoBcast groupSize s t root len
      | some (.reduce root op count) => tmpiRdcoReduce groupSize s t root op count

end Steps

/-- Runs of the threads `0, .., groupSize - 1`. -/
inductive Reach (groupSize : Nat) (calls : List Collective) : Objects → Prop where
  | create : Reach groupSize calls create
  | step {s s' act} : Reach groupSize calls s → act.thread < groupSize →
      step groupSize s calls act = some s' → Reach groupSize calls s'

/-- The run of some actions. -/
def run (groupSize : Nat) (calls : List Collective) : Objects → List Act → Option Objects
  | s, [] => some s
  | s, act :: acts => (step groupSize s calls act).bind fun s => run groupSize calls s acts

theorem run_reach {groupSize : Nat} {calls : List Collective} {s s' : Objects} {acts : List Act}
    (reach : Reach groupSize calls s) (inside : ∀ act ∈ acts, act.thread < groupSize)
    (runs : run groupSize calls s acts = some s') : Reach groupSize calls s' := by
  induction acts generalizing s with
  | nil =>
      cases runs
      exact reach
  | cons act acts ih =>
      obtain ⟨mid, taken, rest⟩ := Option.bind_eq_some_iff.mp runs
      exact ih (reach.step (inside act (by simp)) taken) (fun a later => inside a (by simp [later]))
        rest

end Tmpi.Coll
