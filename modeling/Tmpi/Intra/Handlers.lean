import Tmpi.Intra.Requests

/-! `inter_sr.c`: what a machine's receiver thread does with a message.

A handler is one step up to the end of its locked regions; the answer that `rms`,
`rmds` and `rds` then build from the receive handle is a second one. -/

namespace Tmpi.Intra

/-- An arriving send as the matching sees it. -/
def arrivePost (s : Sys) (handle : RMSHandle) : Post :=
  ⟨match s.smem handle.remoteSendHandle with
    | .send h => h.inst
    | .remote _ => 0, handle.context, handle.tag, handle.src⟩

/-- Puts an arriving send behind the others. -/
def enqueueRms (cfg : Config) (s : Sys) (rm : RMSHandle) : Sys :=
  let ch := s.chan rm.dest
  let (idx, spool) := qNewElem cfg.group ch.spool
  (s.setChan rm.dest { ch with spool, sq := ch.sq ++ [⟨rm.dest, idx⟩] }).setS ⟨rm.dest, idx⟩
    (.remote { rm with stat := .pendStrt })

def tmpiRmsHandle (cfg : Config) (s : Sys) (m : Nat) (message : Bool) (handle : RMSHandle) :
    Option Sys :=
  let ch := s.chan handle.dest
  if cfg.home handle.dest ≠ m then some s
  else if !message then some s
  else if ch.busy.isSome then none
  else
    let post := arrivePost s handle
    match qFind (fun b => rqCmp (s.rmem b) handle.context handle.tag handle.src) ch.rq with
    | some (b, rq) =>
        let r := s.rmem b
        let s := (s.setChan handle.dest { ch with rq }).post handle.dest
          [.postSend post, .matched post ⟨r.inst, r.envelope⟩]
        let r := { r with
          tag := handle.tag, src := handle.src, buflen := min r.buflen handle.buflen
          peer := post.inst }
        let s :=
          if r.stat = .pendStrt then s.setR b { r with stat := .pendData }
          else if r.stat = .pendWait then s.setR b { r with stat := .pendDwat }
          else (s.setR b r).record (.fault .protocolError)
        some (s.setAnswer m (some (.rmr handle b)))
    | none =>
        if handle.mode ≠ .ready then
          some ((enqueueRms cfg s { handle with curdata := none }).post handle.dest [.postSend post])
        else some (s.setAnswer m (some (.nrdy handle)))

/-- `from_` is the machine whose payload the handler reads, `room` whether `mb_alloc`
finds space for an unexpected message. Without a message object the payload stays unread. -/
def tmpiRmdsHandle (cfg : Config) (s : Sys) (from_ m : Nat) (message : Bool) (handle : RMSHandle)
    (payload : Buffer) (room : Bool) : Option Sys :=
  let ch := s.chan handle.dest
  if cfg.home handle.dest ≠ m then some (s.leaveBytes from_ m payload.length)
  else if !message then some (s.leaveBytes from_ m payload.length)
  else if ch.busy.isSome then none
  else
    let post := arrivePost s handle
    match qFind (fun b => rqCmp (s.rmem b) handle.context handle.tag handle.src) ch.rq with
    | some (b, rq) =>
        let r := s.rmem b
        let s := (s.setChan handle.dest { ch with rq }).post handle.dest
          [.postSend post, .matched post ⟨r.inst, r.envelope⟩]
        let full := r.fill handle.src handle.tag (min r.buflen handle.buflen) payload post.inst
        let s :=
          if r.stat = .pendStrt ∨ r.stat = .pendWait then s.setR b { full with stat := .matched }
          else (s.setR b full).record (.fault .protocolError)
        some (s.setAnswer m (some (.rmdr handle b)))
    | none =>
        if handle.mode ≠ .ready then
          let rm := if room then { handle with curdata := some (payload.take handle.buflen) }
            else { handle with handleType := .msg, curdata := none }
          some ((enqueueRms cfg s rm).post handle.dest [.postSend post])
        else some (s.setAnswer m (some (.nrdy handle)))

def tmpiRdsHandle (cfg : Config) (s : Sys) (from_ m : Nat) (message : Bool) (remoteSend b : Addr)
    (buflen : Nat) (payload : Buffer) : Sys :=
  if !message then s.leaveBytes from_ m payload.length
  else
  let s := s.checkR cfg m b
  let src := (s.rmem b).src
  let dest := (s.rmem b).dest
  let r : RHandle := { s.rmem b with buflen := min (s.rmem b).buflen buflen }
  if r.stat = .pendData ∨ r.stat = .pendDwat then
    (s.setR b { r with data := memcpy r.data payload r.buflen, stat := .matched }).setAnswer m
      (some (.rdr remoteSend b src dest false))
  else if r.stat = .cancel then
    (finishRh s b r).setAnswer m (some (.rdr remoteSend b src dest true))
  else
    -- nothing is read from the stream here
    (((s.setR b r).record (.fault .protocolError)).leaveBytes from_ m payload.length).setAnswer m
      (some (.rdr remoteSend b src dest false))

def tmpiRmrHandle (cfg : Config) (s : Sys) (m : Nat) (message : Bool) (a b : Addr) (buflen : Nat) :
    Option Sys :=
  if !message then some s
  else
  let s := s.checkS cfg m a
  match s.smem a with
  | .remote _ => some s
  | .send h =>
      if h.locked then none
      else
        let len := min h.buflen buflen
        let s := s.netqSend cfg h.src h.dest (.rds a b len .success (h.bytes.take len))
        if h.stat = .pendStrt then some (s.setS a (.send { h with stat := .pendData }))
        else if h.stat = .pendWait then some (s.setS a (.send { h with stat := .pendDwat }))
        else if h.stat ≠ .cancel ∧ h.stat ≠ .pendRels then some (s.record (.fault .protocolError))
        else some s

/-- `tmpi_rdr_handle` and `tmpi_rmdr_handle`: they differ in the two states that a
sender still has when the answer comes. -/
def answerHandle (cfg : Config) (s : Sys) (m : Nat) (a : Addr) (buflen : Nat) (errval : Err)
    (pending blocked : Stat) : Option Sys :=
  let s := s.checkS cfg m a
  match s.smem a with
  | .remote _ => some s
  | .send h =>
      if h.locked then none
      else
        let h := { h with buflen, errval }
        if h.stat = pending ∨ h.stat = blocked then some (s.setS a (.send { h with stat := .matched }))
        else if h.stat ≠ .cancel ∧ h.stat ≠ .pendRels then
          some ((s.setS a (.send h)).record (.fault .protocolError))
        else some (finishSh s a h)

def tmpiRdrHandle (cfg : Config) (s : Sys) (m : Nat) (a : Addr) (buflen : Nat) (errval : Err) :
    Option Sys :=
  answerHandle cfg s m a buflen errval .pendData .pendDwat

def tmpiRmdrHandle (cfg : Config) (s : Sys) (m : Nat) (a : Addr) (buflen : Nat) (errval : Err) :
    Option Sys :=
  answerHandle cfg s m a buflen errval .pendStrt .pendWait

def tmpiRndyHandle (cfg : Config) (s : Sys) (m : Nat) (a : Addr) (errval : Err) : Option Sys :=
  let s := s.checkS cfg m a
  match s.smem a with
  | .remote _ => some s
  | .send h =>
      if h.locked then none
      else
        let h := { h with errval }
        if h.stat = .pendStrt then some (s.setS a (.send { h with stat := .pendNrdy }))
        else some ((s.setS a (.send h)).record (.fault .protocolError))

/-- `tmpi_inter_msg_handle` on machine `m`, for a message from machine `from_`. -/
def tmpiInterMsgHandle (cfg : Config) (s : Sys) (from_ m : Nat) (room message : Bool) :
    Frame → Option Sys
  | .rms handle => tmpiRmsHandle cfg s m message handle
  | .rmds handle payload => tmpiRmdsHandle cfg s from_ m message handle payload room
  | .rds remoteSend localRecv buflen _ payload =>
      some (tmpiRdsHandle cfg s from_ m message remoteSend localRecv buflen payload)
  | .rmr localSend remoteRecv buflen _ => tmpiRmrHandle cfg s m message localSend remoteRecv buflen
  | .rdr localSend buflen errval => tmpiRdrHandle cfg s m localSend buflen errval
  | .rmdr localSend buflen errval => tmpiRmdrHandle cfg s m localSend buflen errval
  | .nrdy localSend _ errval => tmpiRndyHandle cfg s m localSend errval

/-- The receiver thread of machine `m` takes the next message from machine `from_`. -/
def deliver (cfg : Config) (s : Sys) (from_ m : Nat) (room message : Bool) : Option Sys :=
  if (s.answer m).isSome ∨ s.stray from_ m ≠ 0 then none
  else
    match s.link from_ m with
    | [] => none
    | frame :: frames =>
        tmpiInterMsgHandle cfg { s with link := fun i j =>
          if i = from_ ∧ j = m then frames else s.link i j } from_ m room message frame

/-- The end of a handler: the answer goes out with the length the receive handle has now. -/
def respond (cfg : Config) (s : Sys) (m : Nat) : Option Sys :=
  match s.answer m with
  | none => none
  | some answer =>
      let s := s.setAnswer m none
      match answer with
      | .rmr handle b => some (s.netqSend cfg handle.dest handle.src
          (.rmr handle.remoteSendHandle b (s.rmem b).buflen .success))
      | .rmdr handle b => some (s.netqSend cfg handle.dest handle.src
          (.rmdr handle.remoteSendHandle (s.rmem b).buflen .success))
      | .nrdy handle => some (s.netqSend cfg handle.dest handle.src
          (.nrdy handle.remoteSendHandle handle.buflen .success))
      | .rdr remoteSend b src dest cancelled => some (s.netqSend cfg dest src
          (.rdr remoteSend (s.rmem b).buflen (if cancelled then .errCancel else .success)))

/-! ## Runs -/

inductive Act where
  | initSh (context : UInt32) (src dest tag : Int) (data : Buffer) (mode : Mode)
      (isPersistent isImmediate room : Bool)
  | initRh (context : UInt32) (src dest tag : Int) (data : Buffer)
      (isPersistent isImmediate : Bool)
  | startSh (a : Addr) (message : Bool)
  | startRh (b : Addr) (message : Bool)
  | finishStartRh (c : Int)
  | waitSh (a : Addr)
  | wakeSh (a : Addr)
  | waitRh (b : Addr)
  | wakeRh (b : Addr)
  | testSh (a : Addr)
  | testRh (b : Addr)
  | cancelSh (a : Addr)
  | cancelRh (b : Addr)
  | freeSh (a : Addr)
  | freeRh (b : Addr)
  | deliver (from_ m : Nat) (room message : Bool)
  | respond (m : Nat)
  | writeBuf (a : Addr) (data : Buffer)

/-- A call on a send request by its owner, who is not inside another one. -/
def onSend (s : Sys) (a : Addr) (call : SHandle → Option Sys) : Option Sys :=
  match s.smem a with
  | .send h => if h.held ∧ h.pc = .idle then call h else none
  | .remote _ => none

def onRecv (s : Sys) (b : Addr) (call : RHandle → Option Sys) : Option Sys :=
  if (s.rmem b).held ∧ (s.rmem b).pc = .idle then call (s.rmem b) else none

/-- A sender may use its buffer again when its request is not active: it has not been
started, or a call has reported its completion. -/
def writeBuf (s : Sys) (a : Addr) (data : Buffer) (h : SHandle) : Option Sys :=
  if (h.stat = .create ∨ h.stat = .free ∨ h.stat = .pendRels) ∧ data.length = h.len then
    some (s.setS a (.send { h with userBuf := data }))
  else none

def step (cfg : Config) (s : Sys) : Act → Option Sys
  | .initSh context src dest tag data mode isPersistent isImmediate room =>
      some (tmpiIntraInitSh cfg s context src dest tag data mode isPersistent isImmediate room)
  | .initRh context src dest tag data isPersistent isImmediate =>
      some (tmpiIntraInitRh cfg s context src dest tag data isPersistent isImmediate)
  | .startSh a message => onSend s a (tmpiIntraStartSh cfg s a message)
  | .startRh b message => onRecv s b (tmpiIntraStartRh cfg s b message)
  | .finishStartRh c => finishStartRh s c
  | .waitSh a => onSend s a (tmpiIntraWaitSh s a)
  | .wakeSh a =>
      match s.smem a with
      | .send h => wakeSh s a h
      | .remote _ => none
  | .waitRh b => onRecv s b fun r => some (tmpiIntraWaitRh s b r)
  | .wakeRh b => wakeRh s b (s.rmem b)
  | .testSh a => onSend s a fun h => (tmpiIntraTestSh s a h).map Prod.fst
  | .testRh b => onRecv s b fun r => some (tmpiIntraTestRh s b r).1
  | .cancelSh a => onSend s a (tmpiIntraCancelSh s a)
  | .cancelRh b => onRecv s b fun r => some (tmpiIntraCancelRh s b r)
  | .freeSh a => onSend s a (tmpiRequestFreeSh s a)
  | .freeRh b => onRecv s b (tmpiRequestFreeRh s b)
  | .deliver from_ m room message => deliver cfg s from_ m room message
  | .respond m => respond cfg s m
  | .writeBuf a data =>
      match s.smem a with
      | .send h => writeBuf s a data h
      | .remote _ => none

/-- `tmpi_intra_init` on every machine: empty queues and links. The elements hold
something, which nobody reads before `tmpi_intra_init_sh` or `_rh` has written them. -/
def boot (cfg : Config) : Sys where
  smem _ := .remote ⟨.msg, .free, 0, 0, 0, 0, none, 0, .standard, ⟨0, 0⟩⟩
  rmem b := ⟨.plain, .free, 0, 0, 0, b.owner, [], 0, .success, 0, 0, 0, .idle, false, 0, 0⟩
  chan _ := ⟨[], [], qInit cfg.group, qInit cfg.group, none⟩
  link _ _ := []
  stray _ _ := 0
  answer _ := none
  clock := 0
  log := []
  trace _ := []

/-- Runs in which every step is one that `allowed` admits in its state. -/
inductive Reach (cfg : Config) (allowed : Sys → Act → Prop) : Sys → Prop where
  | boot : Reach cfg allowed (boot cfg)
  | step {s s' act} : Reach cfg allowed s → allowed s act → step cfg s act = some s' →
      Reach cfg allowed s'

end Tmpi.Intra
