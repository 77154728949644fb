import Tmpi.Intra.Requests
import Tmpi.Mpi.Lengths
import Tmpi.Netq.Tables
import Tmpi.Utils.Arenas

/-! `mpi_sr.c`: the calls that make and start requests, when anything that they need may be missing.

A call is made at one moment of its thread; what becomes of a request that was started is in
`Tmpi.Intra`. -/

namespace Tmpi.Mpi

open Intra (Envelope HandleType Mode Pool Stat fits handleTypeOf)
open Netd (Platform)
open Netq (Info netqIsLocalNode netqTransGlobalRank netqTransLocalRank tmpiGrankToLrank)
open Utils (Mbuffer)

/-- `MPI_SUCCESS` and the `MPI_ERR_*` of these calls. -/
inductive Ret where
  | success | errBuffer | errComm | errIntern | errRequest | errNrdy
  deriving DecidableEq, Repr

/-- `MPI_Comm`: a predefined value, or a pointer to an object, which has `MPI_COMM_COOKIE` or not. -/
inductive Comm where
  | null
  | world
  | self
  | object (pt2ptContext : Option UInt32)
  deriving DecidableEq, Repr

/-- The parts of a `tmpi_SHandle` that these calls use; `sysBuf` is an address in its thread's buffers. -/
structure SendHandle where
  idx : Nat
  handleType : HandleType
  stat : Stat
  context : UInt32
  tag : Int
  src : Int
  dest : Int
  sysBuf : Option Nat
  buflen : BitVec 32
  mode : Mode
  isRemote : Bool
  errval : Ret
  deriving DecidableEq, Repr

/-- Of a `tmpi_RHandle`. -/
structure RecvHandle where
  idx : Nat
  handleType : HandleType
  stat : Stat
  context : UInt32
  tag : Int
  src : Int
  dest : Int
  buflen : BitVec 32
  errval : Ret
  deriving DecidableEq, Repr

/-- An element of a send queue: a send of this machine, or one that has come from another machine with
its data (`MPI_REMOTE_MSGDAT_SEND`) or without. -/
inductive Parked where
  | sh (h : SendHandle)
  | rmsh (idx : Nat) (stat : Stat) (envelope : Envelope) (dest : Int) (msgdat : Bool) (curdata : Option Nat)
  deriving DecidableEq, Repr

def SendHandle.envelope (sh : SendHandle) : Envelope := ⟨sh.context, sh.tag, sh.src⟩

def RecvHandle.envelope (rh : RecvHandle) : Envelope := ⟨rh.context, rh.tag, rh.src⟩

def Parked.envelope : Parked → Envelope
  | sh h => h.envelope
  | rmsh _ _ envelope _ _ _ => envelope

def Parked.stat : Parked → Stat
  | sh h => h.stat
  | rmsh _ stat _ _ _ _ => stat

/-- `tmpi_Channel` -/
structure Channel where
  group : Nat
  group_pos : 0 < group
  spool : Pool
  rpool : Pool
  sq : List Parked
  rq : List RecvHandle
  deriving DecidableEq, Repr

/-- `tmpi_channel`, `tmpi_COMM_WORLD` and the message buffers are found by local id. -/
structure Machine where
  platform : Platform
  sizeofLongDouble : Nat
  info : Info
  channels : List (Option Channel)
  commWorld : Int → Option UInt32
  buffers : Int → Mbuffer

/-- What a call meets that its own machine's state does not decide. -/
structure Luck where
  /-- `malloc` has memory for a chunk of handles. -/
  memory : Bool
  /-- What `mb_alloc` returns, and the buffers after it. -/
  mbAlloc : Mbuffer × Option Nat
  /-- `tmpi_inter_new_msg` returns an object. -/
  newMsg : Bool
  /-- `sa_alloc(netq_info.qalloc)` returns a `SENDREQ`. -/
  sendreq : Bool
  /-- `netd_sendmsg` or `netd_sendmsgdat` returns 0. -/
  netd : Bool
  /-- The state in which a wait finds a request that the other side knows of. -/
  early : Stat
  /-- The state that the other side's answer to a ready send puts it in, if there is an answer. -/
  answer : Option Stat
  /-- The request is matched while its thread waits for that. -/
  matched : Bool

/-- Whether a message was given to the matching of its destination, and whether a table was indexed with a
machine id that nobody has set. -/
structure Sent where
  handed : Bool
  undefinedId : Bool
  deriving DecidableEq, Repr

/-- A start that has failed, or has left the machine so. -/
inductive Begun (H : Type) where
  | failed (ret : Ret)
  | started (request : H) (sent : Sent) (m : Machine)

/-- The arguments of a send or a receive; `peer` is its destination or its source. -/
structure CallArgs where
  comm : Comm
  peer : Int
  tag : Int
  datatype : Datatype
  count : BitVec 32

namespace Machine

variable (m : Machine) (luck : Luck)

/-- `tmpi_intra_get_channel` -/
def tmpiIntraGetChannel (localId : Int) : Option Channel :=
  if localId < 0 ∨ (m.channels.length : Int) ≤ localId then none else (m.channels[localId.toNat]?).join

def setChannel (localId : Int) (ch : Channel) : Machine :=
  { m with channels := m.channels.set localId.toNat (some ch) }

def setBuffers (localId : Int) (mb : Mbuffer) : Machine :=
  { m with buffers := Function.update m.buffers localId mb }

/-- `tmpi_comm_verify`; none when it reads through a value that is no pointer. -/
def tmpiCommVerify (comm : Comm) (myid : Int) : Option (Option UInt32) :=
  match comm with
  | .world => some (m.commWorld myid)
  | .object pt2ptContext => some pt2ptContext
  | .null | .self => none

/-- `Q_newElem` on a pool with elements, or on one that needs a chunk. -/
def newElem (group : Nat) (p : Pool) : Option (Nat × Pool) :=
  if p.allocate = [] ∧ luck.memory = false then none else some (Intra.qNewElem group p)

/-- `len=tmpi_Usize(datatype)*count` -/
def len (c : CallArgs) : BitVec 32 := messageLen m.platform m.sizeofLongDouble c.datatype c.count

/-! ## Making a request -/

/-- `tmpi_intra_init_sh`: what it returns, and `*psh`. -/
def tmpiIntraInitSh (src : Int) (mode : Mode) (isPersistent isImmediate : Bool) (c : CallArgs) :
    Option (Ret × Option SendHandle × Machine) :=
  let localId := tmpiGrankToLrank m.info src
  let len := m.len c
  (m.tmpiCommVerify c.comm localId).map fun tcomm =>
    match m.tmpiIntraGetChannel localId with
    | none => (.errIntern, none, m)
    | some ch =>
        if len.toInt < 0 then (.errIntern, none, m)
        else
          match tcomm with
          | none => (.errComm, none, m)
          | some context =>
              match newElem luck ch.group ch.spool with
              | none => (.errIntern, none, m)
              | some (idx, spool) =>
                  let m := m.setChannel localId { ch with spool }
                  let (mb, sysBuf) :=
                    if (mode = .standard ∨ mode = .buffered) ∧ 0 < len.toInt then luck.mbAlloc
                    else (m.buffers localId, none)
                  let errval := if mode = .buffered ∧ sysBuf = none ∧ 0 < len.toInt then Ret.errBuffer else .success
                  let sh : SendHandle := {
                    idx
                    handleType := handleTypeOf isPersistent isImmediate
                    stat := .create
                    context
                    tag := c.tag
                    src
                    dest := c.peer
                    sysBuf
                    buflen := len
                    mode
                    isRemote := !netqIsLocalNode m.info c.peer
                    errval }
                  (errval, some sh, m.setBuffers localId mb)

/-- `tmpi_intra_init_rh` -/
def tmpiIntraInitRh (dest : Int) (isPersistent isImmediate : Bool) (c : CallArgs) :
    Option (Ret × Option RecvHandle × Machine) :=
  let localId := tmpiGrankToLrank m.info dest
  let len := m.len c
  (m.tmpiCommVerify c.comm localId).map fun tcomm =>
    match m.tmpiIntraGetChannel localId with
    | none => (.errIntern, none, m)
    | some ch =>
        if len.toInt < 0 then (.errIntern, none, m)
        else
          match tcomm with
          | none => (.errComm, none, m)
          | some context =>
              match newElem luck ch.group ch.rpool with
              | none => (.errIntern, none, m)
              | some (idx, rpool) =>
                  let rh : RecvHandle := {
                    idx
                    handleType := handleTypeOf isPersistent isImmediate
                    stat := .create
                    context
                    tag := c.tag
                    src := c.peer
                    dest
                    buflen := len
                    errval := .success }
                  (.success, some rh, m.setChannel localId { ch with rpool })

/-! ## Giving a request back -/

/-- `tmpi_intra_free_sh` -/
def tmpiIntraFreeSh (localId : Int) (ch : Channel) (sh : SendHandle) : Machine :=
  let m' := match sh.sysBuf with
    | none => m
    | some item =>
        let owner := tmpiGrankToLrank m.info sh.src
        if 0 ≤ owner then m.setBuffers owner ((m.buffers owner).mbFree item) else m
  m'.setChannel localId { ch with spool := Intra.qFreeElem ch.spool sh.idx }

/-- `tmpi_intra_free_rh` -/
def tmpiIntraFreeRh (localId : Int) (ch : Channel) (rh : RecvHandle) : Machine :=
  m.setChannel localId { ch with rpool := Intra.qFreeElem ch.rpool rh.idx }

/-- `tmpi_intra_free_rmsh` -/
def tmpiIntraFreeRmsh (localId : Int) (ch : Channel) (idx : Nat) (dest : Int) (curdata : Option Nat) : Machine :=
  let m' := match curdata with
    | none => m
    | some item =>
        let owner := tmpiGrankToLrank m.info dest
        if 0 ≤ owner then m.setBuffers owner ((m.buffers owner).mbFree item) else m
  m'.setChannel localId { ch with spool := Intra.qFreeElem ch.spool idx }

/-- `tmpi_Request_free_sh`; none when it leaves the request to `tmpi_intra_test_sh`. -/
def tmpiRequestFreeSh (psh : Option SendHandle) : Option Machine :=
  match psh with
  | none => some m
  | some sh =>
      if sh.stat.any [.free, .create] then
        let localId := tmpiGrankToLrank m.info sh.src
        match m.tmpiIntraGetChannel localId with
        | none => some m
        | some ch => some (m.tmpiIntraFreeSh localId ch sh)
      else none

/-- `tmpi_Request_free_rh`; none when it leaves the request to `tmpi_intra_test_rh`. -/
def tmpiRequestFreeRh (prh : Option RecvHandle) : Option Machine :=
  match prh with
  | none => some m
  | some rh =>
      if rh.stat.any [.free, .create] then
        let localId := tmpiGrankToLrank m.info rh.dest
        match m.tmpiIntraGetChannel localId with
        | none => some m
        | some ch => some (m.tmpiIntraFreeRh localId ch rh)
      else none

/-! ## Starting a request -/

/-- `netq_real_send`: `send_mtx` is indexed with the machine of `dest`, which `netq_transGlobalRank` leaves
unset when it fails. -/
def netqRealSend (dest : Int) : Sent :=
  match netqTransGlobalRank m.info dest with
  | none => ⟨false, true⟩
  | some _ => ⟨luck.netd, false⟩

/-- `netq_send` with `NETQ_BLK` -/
def netqSend (dest : Int) : Sent := if luck.sendreq = false then ⟨false, false⟩ else m.netqRealSend luck dest

/-- `tmpi_inter_start_sh`; what `netq_send` returns is not looked at. -/
def tmpiInterStartSh (sh : SendHandle) : Begun SendHandle :=
  if sh.stat ≠ .create ∧ (sh.stat ≠ .free ∨ sh.handleType ≠ .persistent) then .failed .errIntern
  else if luck.newMsg = false then .failed .errIntern
  else .started { sh with stat := .pendStrt } (m.netqSend luck sh.dest) m

/-- `tmpi_intra_start_sh` -/
def tmpiIntraStartSh (psh : Option SendHandle) : Begun SendHandle :=
  match psh with
  | none => .failed .errRequest
  | some sh =>
      if sh.errval ≠ .success then .failed .errIntern
      else if sh.isRemote then m.tmpiInterStartSh luck sh
      else if sh.stat ≠ .create ∧ (sh.stat ≠ .free ∨ sh.handleType ≠ .persistent) then .failed .errIntern
      else
        let localRecvId := tmpiGrankToLrank m.info sh.dest
        match m.tmpiIntraGetChannel localRecvId with
        | none => .failed .errIntern
        | some ch =>
            let accepts (rh : RecvHandle) := fits sh.envelope rh.envelope && rh.stat.pend
            match ch.rq.find? accepts with
            | none =>
                let sh := { sh with stat := .pendStrt }
                .started sh ⟨true, false⟩ (m.setChannel localRecvId { ch with sq := ch.sq ++ [.sh sh] })
            | some rh =>
                let buflen := if sh.buflen.toInt < rh.buflen.toInt then sh.buflen else rh.buflen
                .started { sh with stat := .matched, buflen } ⟨true, false⟩
                  (m.setChannel localRecvId { ch with rq := ch.rq.eraseP accepts })

/-- What becomes of a send that a receive has found, when the channel is unlocked. -/
def releaseMatched (localId : Int) (ch : Channel) : Parked → Machine
  | .sh sh =>
      let m := m.setChannel localId ch
      if sh.stat = .pendRels ∧ sh.handleType ≠ .persistent then
        let owner := tmpiGrankToLrank m.info sh.src
        match m.tmpiIntraGetChannel owner with
        | none => m
        | some peer => m.tmpiIntraFreeSh owner peer sh
      else m
  | .rmsh idx _ _ dest _ curdata => m.tmpiIntraFreeRmsh localId ch idx dest curdata

/-- `tmpi_intra_start_rh`: a receive is never persistent in the sense of its second test, for which only
sends are. -/
def tmpiIntraStartRh (prh : Option RecvHandle) : Begun RecvHandle :=
  match prh with
  | none => .failed .errRequest
  | some rh =>
      if rh.errval ≠ .success then .failed .errIntern
      else if rh.stat ≠ .create then .failed .errIntern
      else
        let localId := tmpiGrankToLrank m.info rh.dest
        match m.tmpiIntraGetChannel localId with
        | none => .failed .errIntern
        | some ch =>
            let accepts (p : Parked) := fits p.envelope rh.envelope && p.stat.pend
            match ch.sq.find? accepts with
            | none =>
                let rh := { rh with stat := .pendStrt }
                .started rh ⟨false, false⟩ (m.setChannel localId { ch with rq := ch.rq ++ [rh] })
            | some p =>
                let stat := match p with
                  | .rmsh _ _ _ _ false _ => Stat.pendData
                  | _ => .matched
                .started { rh with stat, src := p.envelope.src, tag := p.envelope.tag } ⟨false, false⟩
                  (m.releaseMatched localId { ch with sq := ch.sq.eraseP accepts } p)

end Machine

section

variable {m : Machine} {id : Int} {ch : Channel}

theorem setChannel_inside (channel : m.tmpiIntraGetChannel id = some ch) :
    ¬(id < 0 ∨ (m.channels.length : Int) ≤ id) := by
  intro outside
  rw [Machine.tmpiIntraGetChannel, if_pos outside] at channel
  cases channel

theorem getChannel_setChannel_self {ch' : Channel} (channel : m.tmpiIntraGetChannel id = some ch) :
    (m.setChannel id ch').tmpiIntraGetChannel id = some ch' := by
  have inside := setChannel_inside channel
  rw [Machine.tmpiIntraGetChannel, Machine.setChannel]
  dsimp only
  rw [List.length_set, if_neg inside, List.getElem?_set_self (by omega)]
  rfl

theorem getChannel_setChannel_of_ne {ch' : Channel} {other : Int} (channel : m.tmpiIntraGetChannel id = some ch)
    (ne : other ≠ id) : (m.setChannel id ch').tmpiIntraGetChannel other = m.tmpiIntraGetChannel other := by
  have inside := setChannel_inside channel
  rw [Machine.tmpiIntraGetChannel, Machine.tmpiIntraGetChannel, Machine.setChannel]
  dsimp only
  rw [List.length_set]
  split
  case isTrue => rfl
  case isFalse within => rw [List.getElem?_set_ne (by omega)]

/-- What a change to a channel keeps. -/
theorem getChannel_setChannel {α : Type} {ch' : Channel} (f : Channel → α)
    (channel : m.tmpiIntraGetChannel id = some ch) (same : f ch' = f ch) (other : Int) :
    ((m.setChannel id ch').tmpiIntraGetChannel other).map f = (m.tmpiIntraGetChannel other).map f := by
  by_cases equal : other = id
  · rw [equal, getChannel_setChannel_self channel, channel, Option.map_some, Option.map_some, same]
  · rw [getChannel_setChannel_of_ne channel equal]

end

/-! ## The calls -/

/-- How a call that makes and may start a request has ended, or how far it has come. `request` is what it
has written to `*request`: none for nothing, `some none` for `MPI_REQUEST_NULL`. -/
inductive Ended (H : Type) where
  | crashed
  | failed (ret : Ret) (request : Option (Option H)) (m : Option Machine)
  | made (request : Option H) (m : Machine)
  | started (request : H) (sent : Sent) (m : Machine)

/-- What the argument `*request` holds behind a call. -/
def Ended.request {H : Type} : Ended H → Option (Option H)
  | crashed => none
  | failed _ request _ => request
  | made request _ => some request
  | started request _ _ => some (some request)

section Calls

variable {H : Type} (m : Machine) (myid : Int)

/-- A call that makes a request and starts it; `refused` is what it writes to `*request` when one of the
two fails. -/
def startCall (init : Int → Option (Ret × Option H × Machine)) (start : Machine → Option H → Begun H)
    (free : Machine → Option H → Option Machine) (refused : Option (Option H)) : Ended H :=
  match netqTransLocalRank m.info myid with
  | none => .failed .errIntern none (some m)
  | some myGlobalId =>
      match init myGlobalId with
      | none => .crashed
      | some (ret, req, m) =>
          if ret ≠ .success then .failed ret refused (free m req)
          else
            match start m req with
            | .failed ret => .failed ret refused (free m req)
            | .started req sent m => .started req sent m

/-- A call that only makes a request. -/
def initCall (init : Int → Option (Ret × Option H × Machine)) (free : Machine → Option H → Option Machine) :
    Ended H :=
  match netqTransLocalRank m.info myid with
  | none => .failed .errIntern none (some m)
  | some myGlobalId =>
      match init myGlobalId with
      | none => .crashed
      | some (ret, req, m) => if ret ≠ .success then .failed ret (some none) (free m req) else .made req m

variable (luck : Luck) (c : CallArgs)

/-- `tmpi_Send`, `tmpi_Bsend`, `tmpi_Rsend` and `tmpi_Ssend` up to their wait. -/
def sendCall (mode : Mode) : Ended SendHandle :=
  startCall m myid (fun me => m.tmpiIntraInitSh luck me mode false false c) (fun m => m.tmpiIntraStartSh luck)
    Machine.tmpiRequestFreeSh none

def isendCall (mode : Mode) : Ended SendHandle :=
  startCall m myid (fun me => m.tmpiIntraInitSh luck me mode false true c) (fun m => m.tmpiIntraStartSh luck)
    Machine.tmpiRequestFreeSh (some none)

def sendInitCall (mode : Mode) : Ended SendHandle :=
  initCall m myid (fun me => m.tmpiIntraInitSh luck me mode true false c) Machine.tmpiRequestFreeSh

def tmpiSend : Ended SendHandle := sendCall m myid luck c .standard

def tmpiIsend : Ended SendHandle := isendCall m myid luck c .standard

def tmpiBsend : Ended SendHandle := sendCall m myid luck c .buffered

def tmpiIbsend : Ended SendHandle := isendCall m myid luck c .buffered

def tmpiRsend : Ended SendHandle := sendCall m myid luck c .ready

def tmpiIrsend : Ended SendHandle := isendCall m myid luck c .ready

def tmpiSsend : Ended SendHandle := sendCall m myid luck c .sync

def tmpiIssend : Ended SendHandle := isendCall m myid luck c .sync

/-- `tmpi_Recv` up to its wait. -/
def tmpiRecv : Ended RecvHandle :=
  startCall m myid (fun me => m.tmpiIntraInitRh luck me false false c) Machine.tmpiIntraStartRh
    Machine.tmpiRequestFreeRh none

def tmpiIrecv : Ended RecvHandle :=
  startCall m myid (fun me => m.tmpiIntraInitRh luck me false true c) Machine.tmpiIntraStartRh
    Machine.tmpiRequestFreeRh (some none)

/-- `tmpi_Recv_init` makes the same request as `tmpi_Irecv`. -/
def tmpiRecvInit : Ended RecvHandle :=
  initCall m myid (fun me => m.tmpiIntraInitRh luck me false true c) Machine.tmpiRequestFreeRh

end Calls

end Tmpi.Mpi
