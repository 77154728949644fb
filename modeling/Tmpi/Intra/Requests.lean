import Tmpi.Intra.State

/-! `intra_sr.c`: the calls on send and receive requests.

A call is one atomic step, except that a call that blocks ends in a second one and
that a receive leaves its channel locked between its search and its match. `none`
is a call that cannot be made now: its caller is inside another one, or it waits for
a lock. `message` is whether `tmpi_inter_new_msg` has an object to give, if the call
asks for one; queue elements never run out. -/

namespace Tmpi.Intra

/-- `TMPI_MAX_SHORT_MSG`. -/
def maxShortMsg : Nat := 3000 * 0x400

def handleTypeOf (isPersistent isImmediate : Bool) : HandleType :=
  if isPersistent then .persistent else if isImmediate then .immediate else .plain

/-! ## Creation and release -/

/-- `tmpi_intra_init_sh`; `room` is whether `mb_alloc` finds space. -/
def tmpiIntraInitSh (cfg : Config) (s : Sys) (context : UInt32) (src dest tag : Int) (data : Buffer)
    (mode : Mode) (isPersistent isImmediate room : Bool) : Sys :=
  let ch := s.chan src
  let (idx, spool) := qNewElem cfg.group ch.spool
  let len := data.length
  let sysBuf : Option Buffer :=
    if (mode = .standard ∨ mode = .buffered) ∧ 0 < len ∧ room then some (List.replicate len 0)
    else none
  let h : SHandle := {
    handleType := handleTypeOf isPersistent isImmediate
    stat := .create
    context, tag, src, dest, len
    curdata := .userBuf
    buflen := len
    mode
    userBuf := data
    errval := if mode = .buffered ∧ sysBuf = none ∧ 0 < len then .errBuffer else .success
    sysBuf
    isRemote := cfg.home dest ≠ cfg.home src
    locked := false
    pc := .idle
    held := true
    inst := 0 }
  (s.setChan src { ch with spool }).setS ⟨src, idx⟩ (.send h)

def tmpiIntraInitRh (cfg : Config) (s : Sys) (context : UInt32) (src dest tag : Int) (data : Buffer)
    (isPersistent isImmediate : Bool) : Sys :=
  let ch := s.chan dest
  let (idx, rpool) := qNewElem cfg.group ch.rpool
  let r : RHandle := {
    handleType := handleTypeOf isPersistent isImmediate
    stat := .create
    context, tag, src, dest, data
    buflen := data.length
    errval := .success
    permSource := src
    permTag := tag
    permLen := data.length
    pc := .idle
    held := true
    inst := 0
    peer := 0 }
  (s.setChan dest { ch with rpool }).setR ⟨dest, idx⟩ r

/-- The end of every completing call on a send: the handle is freed, or reset if persistent. -/
def finishSh (s : Sys) (a : Addr) (h : SHandle) : Sys :=
  let h := { h with stat := .free, errval := .success, pc := .idle }
  if h.handleType ≠ .persistent then (s.setS a (.send { h with held := false })).freeElemS a
  else s.setS a (.send { h with curdata := .userBuf, buflen := h.len })

def finishRh (s : Sys) (b : Addr) (r : RHandle) : Sys :=
  let r := { r with stat := .free, errval := .success, pc := .idle }
  if r.handleType ≠ .persistent then (s.setR b { r with held := false }).freeElemR b
  else s.setR b { r with tag := r.permTag, src := r.permSource, buflen := r.permLen }

/-! ## Start -/

/-- `(stat!=TMPI_CREATE) && ((stat!=TMPI_FREE)||(handle_type!=MPI_PERSISTENT_SEND))`, negated. -/
def SHandle.startable (h : SHandle) : Bool :=
  h.stat = .create ∨ (h.stat = .free ∧ h.handleType = .persistent)

/-- The receive side tests for `MPI_PERSISTENT_SEND` too, which no receive is. -/
def RHandle.startable (r : RHandle) : Bool := r.stat = .create

def SHandle.rmsHandle (h : SHandle) (a : Addr) (handleType : RmsType) : RMSHandle :=
  { handleType, stat := h.stat, context := h.context, tag := h.tag, src := h.src, dest := h.dest
    curdata := none, buflen := h.buflen, mode := h.mode, remoteSendHandle := a }

def tmpiInterStartSh (cfg : Config) (s : Sys) (a : Addr) (message : Bool) (h : SHandle) : Sys :=
  if !h.startable then s.record (.sendReturned a h.inst .errIntern none)
  else if !message then s.record (.sendReturned a h.inst .errIntern none)
  else
    let h := { h with stat := .pendStrt, inst := s.clock }
    let s := (s.tick.setS a (.send h)).record (.sendStarted h.inst h.src h.tag h.userBuf)
    if h.buflen < maxShortMsg then
      s.netqSend cfg h.src h.dest (.rmds (h.rmsHandle a .msgdat) (h.bytes.take h.buflen))
    else s.netqSend cfg h.src h.dest (.rms (h.rmsHandle a .msg))

/-- The receive half of a local match: `src`, `tag`, `buflen` and data of the send. -/
def RHandle.fill (r : RHandle) (src tag : Int) (buflen : Nat) (bytes : Buffer) (peer : Nat) :
    RHandle :=
  { r with src, tag, buflen, data := memcpy r.data bytes buflen, peer }

def tmpiIntraStartSh (cfg : Config) (s : Sys) (a : Addr) (message : Bool) (h : SHandle) : Option Sys :=
  if h.errval ≠ .success then some (s.record (.sendReturned a h.inst .errIntern none))
  else if h.isRemote then some (tmpiInterStartSh cfg s a message h)
  else if !h.startable then some (s.record (.sendReturned a h.inst .errIntern none))
  else
    let ch := s.chan h.dest
    if ch.busy.isSome then none
    else
      let h := { h with inst := s.clock }
      let s := s.tick.record (.sendStarted h.inst h.src h.tag h.userBuf)
      let post : Post := ⟨h.inst, h.context, h.tag, h.src⟩
      match qFind (fun b => rqCmp (s.rmem b) h.context h.tag h.src) ch.rq with
      | none =>
          some (((s.setS a (.send { h with stat := .pendStrt })).setChan h.dest
            { ch with sq := ch.sq ++ [a] }).post h.dest [.postSend post])
      | some (b, rq) =>
          let r := s.rmem b
          let buflen := min h.buflen r.buflen
          let s := ((s.setS a (.send { h with stat := .matched, buflen, errval := .success })).setChan
            h.dest { ch with rq }).post h.dest
              [.postSend post, .matched post ⟨r.inst, r.envelope⟩]
          let full := r.fill h.src h.tag buflen h.bytes h.inst
          if r.stat = .pendWait ∨ r.stat = .pendStrt then some (s.setR b { full with stat := .matched })
          else some ((s.setR b full).record (.fault .protocolError))

/-- What a receive does with a remote send it finds: answer it, if it gets a message object,
and drop its handle. -/
def startRemote (cfg : Config) (s : Sys) (b : Addr) (message : Bool) (r : RHandle) (q : Addr)
    (rm : RMSHandle) (peer : Nat) : Sys :=
  let r := { r with src := rm.src, tag := rm.tag, buflen := min rm.buflen r.buflen, peer }
  let s :=
    match rm.handleType with
    | .msgdat =>
        let s := s.setR b { r with
          stat := .matched, data := memcpy r.data (rm.curdata.getD []) r.buflen }
        if message then
          s.netqSend cfg r.dest r.src (.rmdr rm.remoteSendHandle r.buflen .success)
        else s
    | .msg =>
        let s := s.setR b { r with stat := .pendData }
        if message then
          s.netqSend cfg r.dest r.src (.rmr rm.remoteSendHandle b r.buflen .success)
        else s
  (s.setS q (.remote { rm with stat := .free })).freeElemS q

/-- The instance of the send request behind a queue element. -/
def Sys.instOf (s : Sys) (x : Addr) : Nat :=
  match s.smem x with
  | .send h => h.inst
  | .remote rm =>
      match s.smem rm.remoteSendHandle with
      | .send h => h.inst
      | .remote _ => 0

def tmpiIntraStartRh (cfg : Config) (s : Sys) (b : Addr) (message : Bool) (r : RHandle) : Option Sys :=
  if r.errval ≠ .success then some (s.record (.recvReturned b r.inst .errIntern))
  else if !r.startable then some (s.record (.recvReturned b r.inst .errIntern))
  else
    let ch := s.chan r.dest
    if ch.busy.isSome then none
    else
      let r := { r with inst := s.clock }
      let s := s.tick.record (.recvStarted r.inst r.data)
      let post : Post := ⟨r.inst, r.envelope⟩
      match qFind (fun x => sqCmp (s.smem x) r.context r.tag r.src) ch.sq with
      | none =>
          some (((s.setR b { r with stat := .pendStrt }).setChan r.dest
            { ch with rq := ch.rq ++ [b] }).post r.dest [.postRecv post])
      | some (x, sq) =>
          let s := s.post r.dest
            [.postRecv post, .matched ⟨s.instOf x, (s.smem x).envelope⟩ post]
          match s.smem x with
          | .send _ =>
              some ((s.setR b { r with pc := .starting }).setChan r.dest
                { ch with sq, busy := some (b, x) })
          | .remote rm =>
              some (startRemote cfg (s.setChan r.dest { ch with sq }) b message r x rm (s.instOf x))

/-- The second half of `tmpi_intra_start_rh` for a local send, under the send's lock. -/
def finishStartRh (s : Sys) (c : Int) : Option Sys :=
  match (s.chan c).busy with
  | none => none
  | some (b, a) =>
      match s.smem a with
      | .remote _ => none
      | .send h =>
          if h.locked then none
          else
            let r := s.rmem b
            let buflen := min h.buflen r.buflen
            let full := r.fill h.src h.tag buflen h.bytes h.inst
            let s := (s.setR b { full with stat := .matched, pc := .idle }).setChan c
              { s.chan c with busy := none }
            let h := { h with buflen }
            if h.stat = .pendWait ∨ h.stat = .pendStrt then
              some (s.setS a (.send { h with stat := .matched }))
            else if h.stat = .pendRels then
              some (finishSh s a { h with errval := .success })
            else some ((s.setS a (.send h)).record (.fault .protocolError))

/-! ## Wait -/

/-- The buffered sender leaves: its data is copied unless that has happened before.
`tmpi_intra_test_sh` also wants a non-empty buffer. -/
def leaveSh (s : Sys) (a : Addr) (h : SHandle) (copies : Bool) : Sys :=
  let status := h.status
  let left := { h with stat := .pendRels, held := h.handleType = .persistent, pc := .idle }
  if h.curdata = .userBuf then
    match h.sysBuf with
    | some sys =>
        if copies then
          (s.setS a (.send { left with
            sysBuf := some (memcpy sys h.userBuf h.buflen), curdata := .sysBuf })).record
              (.sendReturned a h.inst .success (some status))
        else (s.setS a (.send left)).record
          (.sendReturned a h.inst .errRequest (some { status with error := .errBuffer }))
    | none => (s.setS a (.send left)).record
        (.sendReturned a h.inst .errRequest (some { status with error := .errBuffer }))
  else (s.setS a (.send left)).record (.sendReturned a h.inst .success (some status))

/-- Blocking in the loop of a synchronous send. -/
def blockSh (s : Sys) (a : Addr) (h : SHandle) : Sys :=
  s.setS a (.send { h with
    stat := if h.stat = .pendStrt then .pendWait else .pendDwat, pc := .waiting })

/-- `tmpi_inter_wait_sh` from the end of its first loop. -/
def interWaitRest (s : Sys) (a : Addr) (h : SHandle) : Sys :=
  if h.stat = .matched then
    finishSh (s.record (.sendReturned a h.inst .success (some h.status))) a h
  else if h.stat = .pendNrdy then
    let s := if h.mode ≠ .ready then s.record (.fault .protocolError) else s
    finishSh (s.record (.sendReturned a h.inst .errNrdy (some { h.status with error := .errNrdy }))) a h
  else
    match h.mode with
    | .sync | .ready => blockSh s a h
    | .buffered => leaveSh s a h true
    | .standard => if h.sysBuf.isSome then leaveSh s a h true else blockSh s a h

def tmpiInterWaitSh (s : Sys) (a : Addr) (h : SHandle) : Option Sys :=
  if !h.stat.any [.pendStrt, .matched, .pendNrdy, .pendData] then
    some (s.record (.sendReturned a h.inst .errIntern none))
  else if h.locked then none
  else if h.stat = .pendStrt ∧ h.mode = .ready then
    some (s.setS a (.send { h with pc := .readyWait }))
  else some (interWaitRest s a h)

def tmpiIntraWaitSh (s : Sys) (a : Addr) (h : SHandle) : Option Sys :=
  if h.isRemote then tmpiInterWaitSh s a h
  else if !h.stat.any [.pendStrt, .matched] then
    some (s.record (.sendReturned a h.inst .errIntern none))
  else if h.locked then none
  else if h.stat = .matched then
    some (finishSh (s.record (.sendReturned a h.inst .success (some h.status))) a h)
  else
    match h.mode with
    | .sync => some (s.setS a (.send { h with stat := .pendWait, pc := .waiting }))
    | .buffered => some (leaveSh s a h true)
    | .ready =>
        some (finishSh (s.record
          (.sendReturned a h.inst .errNrdy (some { h.status with error := .errNrdy }))) a h)
    | .standard =>
        if h.sysBuf.isSome then some (leaveSh s a h true)
        else some (s.setS a (.send { h with stat := .pendWait, pc := .waiting }))

/-- The end of a blocked wait. -/
def wakeSh (s : Sys) (a : Addr) (h : SHandle) : Option Sys :=
  if h.locked then none
  else if h.pc = .readyWait then
    if h.stat = .pendStrt then none else some (interWaitRest s a { h with pc := .idle })
  else if h.pc = .waiting then
    if h.isRemote then
      if h.stat ≠ .matched then none
      else some (finishSh (s.record (.sendReturned a h.inst .success (some h.status))) a h)
    else if h.stat = .pendWait then none
    else
      let s := if h.stat ≠ .matched then s.record (.fault .protocolError) else s
      some (finishSh (s.record (.sendReturned a h.inst .success (some h.status))) a h)
  else none

/-- Completion of a receive: its status and its buffer are the caller's. -/
def completeRh (s : Sys) (b : Addr) (r : RHandle) : Sys :=
  finishRh (s.record (.received r.inst r.peer r.status r.data)) b r

def tmpiIntraWaitRh (s : Sys) (b : Addr) (r : RHandle) : Sys :=
  if !r.stat.any [.pendStrt, .matched, .pendData] then
    s.record (.recvReturned b r.inst .errIntern)
  else if r.stat = .matched then completeRh s b r
  else s.setR b { r with
    stat := if r.stat = .pendStrt then .pendWait else .pendDwat, pc := .waiting }

def wakeRh (s : Sys) (b : Addr) (r : RHandle) : Option Sys :=
  if r.pc = .waiting ∧ r.stat = .matched then some (completeRh s b r) else none

/-! ## Test -/

/-- `tmpi_intra_test_sh` with the value of `flag`. A pending synchronous send is left
with its lock held. -/
def tmpiIntraTestSh (s : Sys) (a : Addr) (h : SHandle) : Option (Sys × Bool) :=
  if !h.stat.any [.pendStrt, .matched, .pendNrdy, .pendData] then
    some (s.record (.sendReturned a h.inst .errIntern none), false)
  else if h.locked then none
  else if h.stat = .matched then
    some (finishSh (s.record (.sendReturned a h.inst .success (some h.status))) a h, true)
  else if h.stat = .pendNrdy then
    let s := if h.mode ≠ .ready then s.record (.fault .protocolError) else s
    some (finishSh (s.record (.sendReturned a h.inst .success (some h.status))) a h, true)
  else
    match h.mode with
    | .sync | .ready => some (s.setS a (.send { h with locked := true }), false)
    | .buffered => some (leaveSh s a h (h.buflen ≠ 0), true)
    | .standard =>
        if h.sysBuf.isSome then some (leaveSh s a h (h.buflen ≠ 0), true)
        else some (s.setS a (.send { h with locked := true }), false)

def tmpiIntraTestRh (s : Sys) (b : Addr) (r : RHandle) : Sys × Bool :=
  if !r.stat.any [.pendStrt, .matched, .pendData] then
    (s.record (.recvReturned b r.inst .errIntern), false)
  else if r.stat = .matched then (completeRh s b r, true)
  else (s, false)

/-! ## Cancel and `MPI_Request_free` -/

def tmpiInterCancelSh (s : Sys) (a : Addr) (h : SHandle) : Option Sys :=
  if !h.stat.any [.pendStrt, .matched, .pendNrdy, .pendData] then
    some (s.record (.sendReturned a h.inst .errIntern none))
  else if h.locked then none
  else if h.stat = .matched then some (finishSh s a h)
  else if h.stat = .pendNrdy then
    let s := if h.mode ≠ .ready then s.record (.fault .protocolError) else s
    some (finishSh s a h)
  else
    some (s.setS a (.send { h with
      stat := .cancel, errval := .errCancel, curdata := .garbage
      buflen := min h.buflen garbageData.length }))

def tmpiIntraCancelSh (s : Sys) (a : Addr) (h : SHandle) : Option Sys :=
  if h.isRemote then tmpiInterCancelSh s a h
  else if !h.stat.any [.pendStrt, .matched] then
    some (s.record (.sendReturned a h.inst .errIntern none))
  else if h.locked then none
  else some (finishSh s a h)

def tmpiIntraCancelRh (s : Sys) (b : Addr) (r : RHandle) : Sys :=
  if !r.stat.any [.pendStrt, .matched, .pendData] then
    s.record (.recvReturned b r.inst .errIntern)
  else if r.stat.any [.matched, .pendStrt] then finishRh s b r
  else s.setR b { r with stat := .cancel }

/-- `tmpi_Request_free_sh`. Where `tmpi_intra_test_sh` refuses, `flag` is read without
having been written, and the run is not followed further. -/
def tmpiRequestFreeSh (s : Sys) (a : Addr) (h : SHandle) : Option Sys :=
  if h.locked then none
  else if h.stat.any [.free, .create] then
    some ((s.setS a (.send { h with held := false })).freeElemS a)
  else if !h.stat.any [.pendStrt, .matched, .pendNrdy, .pendData] then none
  else do
    let (s, flag) ← tmpiIntraTestSh s a h
    if flag ∧ h.handleType = .persistent then
      match s.smem a with
      | .send h => return (s.setS a (.send { h with held := false })).freeElemS a
      | .remote _ => none
    else return s

def tmpiRequestFreeRh (s : Sys) (b : Addr) (r : RHandle) : Option Sys :=
  if r.stat.any [.free, .create] then
    some ((s.setR b { r with held := false }).freeElemR b)
  else if !r.stat.any [.pendStrt, .matched, .pendData] then none
  else
    let (s, flag) := tmpiIntraTestRh s b r
    if flag ∧ r.handleType = .persistent then
      some ((s.setR b { s.rmem b with held := false }).freeElemR b)
    else some s

end Tmpi.Intra
