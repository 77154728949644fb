import Tmpi.Lib.Buffer

/-! `tmpi_struct.h`: request handles, their states and the messages between machines.

`unsigned long` is 32 bits wide, as `int` is. A request's buffer is the bytes it names. -/

namespace Tmpi.Intra

/-- The states a handle is ever put in. -/
inductive Stat where
  | create | pendStrt | pendWait | pendRels | pendData | pendDwat | pendNrdy
  | matched | cancel | free
  deriving DecidableEq, Repr

def Stat.bits : Stat → Nat
  | .create => 0x1
  | .pendStrt => 0x2
  | .pendWait => 0x6
  | .pendRels => 0xA
  | .pendData => 0x12
  | .pendDwat => 0x16
  | .pendNrdy => 0x22
  | .matched => 0x40
  | .cancel => 0x80
  | .free => 0x100

/-- `stat & (t1|t2|..)`. -/
def Stat.any (stat : Stat) (mask : List Stat) : Bool :=
  (stat.bits &&& mask.foldr (fun t rest => t.bits ||| rest) 0) != 0

/-- `stat & TMPI_PEND`; `TMPI_PEND_STRT` is the bare bit. -/
def Stat.pend (stat : Stat) : Bool := stat.any [.pendStrt]

/-! Every mask with `TMPI_PEND_STRT` in it has the bit that all pending states share. -/

theorem Stat.any_started (stat : Stat) :
    stat.any [.pendStrt, .matched, .pendNrdy, .pendData] = (stat.pend || stat = .matched) := by
  cases stat <;> rfl

theorem Stat.any_posted (stat : Stat) :
    stat.any [.pendStrt, .matched, .pendData] = (stat.pend || stat = .matched) := by
  cases stat <;> rfl

theorem Stat.any_linked (stat : Stat) :
    stat.any [.pendStrt, .matched] = (stat.pend || stat = .matched) := by
  cases stat <;> rfl

theorem Stat.any_dropped (stat : Stat) :
    stat.any [.matched, .pendStrt] = (stat.pend || stat = .matched) := by
  cases stat <;> rfl

theorem Stat.any_unused (stat : Stat) :
    stat.any [.free, .create] = (stat = .free || stat = .create) := by
  cases stat <;> rfl

inductive Mode where
  | standard | ready | sync | buffered
  deriving DecidableEq, Repr

/-- The `MPI_*` return codes in use. -/
inductive Err where
  | success | errBuffer | errIntern | errRequest | errCancel | errNrdy
  deriving DecidableEq, Repr

/-- `MPI_SEND`, `MPI_IMMEDIATE_SEND`, `MPI_PERSISTENT_SEND` and the same for receives. -/
inductive HandleType where
  | plain | immediate | persistent
  deriving DecidableEq, Repr

/-- A pointer to a handle: the rank whose channel it was allocated from and its place there. -/
structure Addr where
  owner : Int
  idx : Nat
  deriving DecidableEq, Repr

def anySource : Int := -2
def anyTag : Int := -1

/-- Where `curdata` points. -/
inductive Place where
  | userBuf | sysBuf | garbage
  deriving DecidableEq, Repr

/-- `tmpi_garbage_data`. -/
def garbageData : Buffer :=
  [67, 97, 110, 99, 101, 108, 108, 101, 100, 33, 0, 0, 0, 0, 0, 0, 0, 0, 0, 0]

/-- How far the owner of a request is inside a call on it. -/
inductive Pc where
  | idle
  | starting
  | waiting
  | readyWait
  deriving DecidableEq, Repr

/-- `tmpi_SHandle`. `locked` is a lock that its holder left without unlocking; `held`
says that the owner still has the pointer; `inst` numbers the start calls and is
read by nobody. -/
structure SHandle where
  handleType : HandleType
  stat : Stat
  context : UInt32
  tag : Int
  src : Int
  dest : Int
  len : Nat
  curdata : Place
  buflen : Nat
  mode : Mode
  userBuf : Buffer
  errval : Err
  sysBuf : Option Buffer
  isRemote : Bool
  locked : Bool
  pc : Pc
  held : Bool
  inst : Nat
  deriving DecidableEq, Repr

def SHandle.bytes (h : SHandle) : Buffer :=
  match h.curdata with
  | .userBuf => h.userBuf
  | .sysBuf => h.sysBuf.getD []
  | .garbage => garbageData

/-- `MPI_REMOTE_MSG_SEND` or `MPI_REMOTE_MSGDAT_SEND`. -/
inductive RmsType where
  | msg | msgdat
  deriving DecidableEq, Repr

/-- `tmpi_RMSHandle`. -/
structure RMSHandle where
  handleType : RmsType
  stat : Stat
  context : UInt32
  tag : Int
  src : Int
  dest : Int
  curdata : Option Buffer
  buflen : Nat
  mode : Mode
  remoteSendHandle : Addr
  deriving DecidableEq, Repr

/-- An element of a send queue. -/
inductive SCell where
  | send (h : SHandle)
  | remote (r : RMSHandle)
  deriving DecidableEq, Repr

/-- `tmpi_RHandle`. `inst` numbers the start calls, `peer` the send that was matched. -/
structure RHandle where
  handleType : HandleType
  stat : Stat
  context : UInt32
  tag : Int
  src : Int
  dest : Int
  data : Buffer
  buflen : Nat
  errval : Err
  permSource : Int
  permTag : Int
  permLen : Nat
  pc : Pc
  held : Bool
  inst : Nat
  peer : Nat
  deriving DecidableEq, Repr

/-- The part of a send handle that matching looks at. -/
structure Envelope where
  context : UInt32
  tag : Int
  src : Int
  deriving DecidableEq, Repr

def SCell.stat : SCell → Stat
  | .send h => h.stat
  | .remote r => r.stat

def SCell.envelope : SCell → Envelope
  | .send h => ⟨h.context, h.tag, h.src⟩
  | .remote r => ⟨r.context, r.tag, r.src⟩

def RHandle.envelope (r : RHandle) : Envelope := ⟨r.context, r.tag, r.src⟩

/-- `sq_cmp`, true when it returns 0: the wildcards are in the arguments. -/
def sqCmp (cell : SCell) (context : UInt32) (tag src : Int) : Bool :=
  !((cell.envelope.src ≠ src ∧ src ≠ anySource) ∨ (cell.envelope.tag ≠ tag ∧ tag ≠ anyTag) ∨
    cell.envelope.context ≠ context) && cell.stat.pend

/-- `rq_cmp`, true when it returns 0: the wildcards are in the handle. -/
def rqCmp (rh : RHandle) (context : UInt32) (tag src : Int) : Bool :=
  !((rh.src ≠ src ∧ rh.src ≠ anySource) ∨ (rh.tag ≠ tag ∧ rh.tag ≠ anyTag) ∨
    rh.context ≠ context) && rh.stat.pend

/-- A send's envelope is one that a receive asks for. -/
def fits (send recv : Envelope) : Bool :=
  (send.src = recv.src ∨ recv.src = anySource) && (send.tag = recv.tag ∨ recv.tag = anyTag) &&
    send.context = recv.context

theorem sqCmp_eq (cell : SCell) (r : RHandle) :
    sqCmp cell r.context r.tag r.src = (fits cell.envelope r.envelope && cell.stat.pend) := by
  simp only [sqCmp, fits, RHandle.envelope]
  grind

theorem rqCmp_eq (r : RHandle) (e : Envelope) :
    rqCmp r e.context e.tag e.src = (fits e r.envelope && r.stat.pend) := by
  simp only [rqCmp, fits, RHandle.envelope]
  grind

/-- Both comparisons accept the same pairs of pending handles. -/
theorem sqCmp_eq_rqCmp (cell : SCell) (r : RHandle) (sendPend : cell.stat.pend = true)
    (recvPend : r.stat.pend = true) : sqCmp cell r.context r.tag r.src =
      rqCmp r cell.envelope.context cell.envelope.tag cell.envelope.src := by
  rw [sqCmp_eq, rqCmp_eq, sendPend, recvPend]

/-- The bodies of `tmpi_MSG` and the payload that follows on the stream. -/
inductive Frame where
  | rms (handle : RMSHandle)
  | rmds (handle : RMSHandle) (payload : Buffer)
  | rmr (localSend remoteRecv : Addr) (buflen : Nat) (errval : Err)
  | rds (remoteSend localRecv : Addr) (buflen : Nat) (errval : Err) (payload : Buffer)
  | rdr (localSend : Addr) (buflen : Nat) (errval : Err)
  | rmdr (localSend : Addr) (buflen : Nat) (errval : Err)
  | nrdy (localSend : Addr) (buflen : Nat) (errval : Err)
  deriving DecidableEq, Repr

/-- The send request a message belongs to. -/
def Frame.send : Frame → Addr
  | .rms handle | .rmds handle _ => handle.remoteSendHandle
  | .rmr localSend _ _ _ => localSend
  | .rds remoteSend _ _ _ _ => remoteSend
  | .rdr localSend _ _ | .rmdr localSend _ _ | .nrdy localSend _ _ => localSend

structure Status where
  buflen : Nat
  source : Int
  tag : Int
  error : Err
  deriving DecidableEq, Repr

def SHandle.status (h : SHandle) : Status := ⟨h.buflen, h.src, h.tag, h.errval⟩

def RHandle.status (r : RHandle) : Status := ⟨r.buflen, r.src, r.tag, r.errval⟩

end Tmpi.Intra
