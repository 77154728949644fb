import Tmpi.Intra.Handle
import Tmpi.Lib.Matching

/-! The channels of all ranks, the handles allocated from them and the links between
the machines. -/

namespace Tmpi.Intra

/-! ## Element pools and queues -/

/-- The allocation side of a `TQueue`: the elements carved so far and the free list. -/
structure Pool where
  carved : Nat
  allocate : List Nat
  deriving DecidableEq, Repr

/-- `Q_newElem`: carves a chunk of `group` elements when the free list is empty. -/
def qNewElem (group : Nat) (p : Pool) : Nat × Pool :=
  match p.allocate with
  | [] => (p.carved, ⟨p.carved + group, List.range' (p.carved + 1) (group - 1)⟩)
  | idx :: rest => (idx, { p with allocate := rest })

def qFreeElem (p : Pool) (idx : Nat) : Pool := { p with allocate := idx :: p.allocate }

/-- `Q_init` touches the pool once. -/
def qInit (group : Nat) : Pool :=
  let (idx, p) := qNewElem group ⟨0, []⟩
  qFreeElem p idx

/-- Handed out by `Q_newElem` and not given back since. -/
def Pool.Live (p : Pool) (idx : Nat) : Prop := idx < p.carved ∧ idx ∉ p.allocate

instance (p : Pool) (idx : Nat) : Decidable (p.Live idx) := inferInstanceAs (Decidable (_ ∧ _))

/-- `Q_find`: the first element that the comparison accepts, and the queue without it. -/
def qFind (accepts : Addr → Bool) : List Addr → Option (Addr × List Addr)
  | [] => none
  | x :: rest => if accepts x then some (x, rest) else (qFind accepts rest).map fun found =>
      (found.1, x :: found.2)

/-! ## The system -/

/-- `tmpi_Channel`. `busy` is the receive and the send between whose search and match
the channel is locked. -/
structure Channel where
  sq : List Addr
  rq : List Addr
  spool : Pool
  rpool : Pool
  busy : Option (Addr × Addr)

/-- What a handler still has to do after it has left its locked regions. -/
inductive Answer where
  | rmr (handle : RMSHandle) (rh : Addr)
  | rmdr (handle : RMSHandle) (rh : Addr)
  | nrdy (handle : RMSHandle)
  | rdr (remoteSend rh : Addr) (src dest : Int) (cancelled : Bool)

/-- The messages that the handlers and requests print, and what makes a handler's
pointer stale or an element be freed twice. -/
inductive Fault where
  | protocolError
  | stale (handle : Addr)
  | doubleFree (handle : Addr)
  deriving DecidableEq, Repr

/-- What a run is remembered by. -/
inductive Event where
  | sendStarted (inst : Nat) (src : Int) (tag : Int) (data : Buffer)
  | recvStarted (inst : Nat) (data : Buffer)
  | sendReturned (handle : Addr) (inst : Nat) (ret : Err) (status : Option Status)
  | recvReturned (handle : Addr) (inst : Nat) (ret : Err)
  | received (inst peer : Nat) (status : Status) (data : Buffer)
  | fault (what : Fault)
  deriving DecidableEq, Repr

/-- A send or a receive as the matching sees it. -/
structure Post where
  inst : Nat
  envelope : Envelope
  deriving DecidableEq, Repr

abbrev Trace := List (Matching.Event Post Post)

def postFits (send recv : Post) : Bool := fits send.envelope recv.envelope

/-- The ranks' machines, and the chunk size of the queues. -/
structure Config where
  home : Int → Nat
  group : Nat
  group_pos : 0 < group

/-- `stray` counts payload bytes that a handler left on a link; `clock`, `log` and
`trace` record the run and are read by nobody. -/
structure Sys where
  smem : Addr → SCell
  rmem : Addr → RHandle
  chan : Int → Channel
  link : Nat → Nat → List Frame
  stray : Nat → Nat → Nat
  answer : Nat → Option Answer
  clock : Nat
  log : List Event
  trace : Int → Trace

namespace Sys

variable (s : Sys)

def LiveS (a : Addr) : Prop := (s.chan a.owner).spool.Live a.idx

def LiveR (b : Addr) : Prop := (s.chan b.owner).rpool.Live b.idx

instance (a : Addr) : Decidable (s.LiveS a) := inferInstanceAs (Decidable (Pool.Live _ _))

instance (b : Addr) : Decidable (s.LiveR b) := inferInstanceAs (Decidable (Pool.Live _ _))

def setS (a : Addr) (cell : SCell) : Sys := { s with smem := Function.update s.smem a cell }

def setR (b : Addr) (r : RHandle) : Sys := { s with rmem := Function.update s.rmem b r }

def setChan (c : Int) (ch : Channel) : Sys := { s with chan := Function.update s.chan c ch }

def record (e : Event) : Sys := { s with log := s.log ++ [e] }

def post (c : Int) (events : Trace) : Sys :=
  { s with trace := Function.update s.trace c (s.trace c ++ events) }

/-- `netq_send` between the machines of two ranks. -/
def netqSend (cfg : Config) (src dest : Int) (frame : Frame) : Sys :=
  { s with link := fun m m' =>
      if m = cfg.home src ∧ m' = cfg.home dest then s.link m m' ++ [frame] else s.link m m' }

def setAnswer (m : Nat) (answer : Option Answer) : Sys :=
  { s with answer := Function.update s.answer m answer }

/-- The number a starting request gets. -/
def tick : Sys := { s with clock := s.clock + 1 }

/-- Payload that a handler leaves unread. -/
def leaveBytes (m m' n : Nat) : Sys :=
  { s with stray := fun i j => if i = m ∧ j = m' then s.stray i j + n else s.stray i j }

/-- A handle that machine `m` looks up through a pointer in a message. -/
def checkS (cfg : Config) (m : Nat) (a : Addr) : Sys :=
  { s with log := s.log ++
      if cfg.home a.owner = m ∧ s.LiveS a then [] else [.fault (.stale a)] }

def checkR (cfg : Config) (m : Nat) (b : Addr) : Sys :=
  { s with log := s.log ++
      if cfg.home b.owner = m ∧ s.LiveR b then [] else [.fault (.stale b)] }

def freeElemS (a : Addr) : Sys :=
  let ch := s.chan a.owner
  { s with
    chan := Function.update s.chan a.owner { ch with spool := qFreeElem ch.spool a.idx }
    log := s.log ++ if s.LiveS a then [] else [.fault (.doubleFree a)] }

def freeElemR (b : Addr) : Sys :=
  let ch := s.chan b.owner
  { s with
    chan := Function.update s.chan b.owner { ch with rpool := qFreeElem ch.rpool b.idx }
    log := s.log ++ if s.LiveR b then [] else [.fault (.doubleFree b)] }

end Sys

end Tmpi.Intra
