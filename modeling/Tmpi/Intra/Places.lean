import Tmpi.Intra.Handlers

/-! Where the requests of a run stand.

A request that is under way is in exactly one place: linked in a queue, taken out of
it by a receive, on a link, or with the receiver thread of a machine. The places are
not part of the state; the invariant says that some assignment of them fits it. -/

namespace Tmpi.Intra

/-- What a send was started with. -/
structure Job where
  inst : Nat
  envelope : Envelope
  dest : Int
  mode : Mode
  data : Buffer

def Job.post (j : Job) : Post := ⟨j.inst, j.envelope⟩

/-- What a receive was started with. -/
structure Want where
  inst : Nat
  envelope : Envelope
  data : Buffer

def Want.post (w : Want) : Post := ⟨w.inst, w.envelope⟩

/-- How many bytes of a send a receive gets. -/
def shared (j : Job) (w : Want) : Nat := min j.data.length w.data.length

inductive SPlace where
  | off
  | queue
  | found (b : Addr)
  | wire (m m' : Nat) (frame : Frame)
  | parked (q : Addr)
  | answering (m : Nat) (answer : Answer)

inductive RPlace where
  | off
  | queue
  | starting (a : Addr)
  | awaiting (a : Addr)

structure Ghost where
  job : Addr → Job
  want : Addr → Want
  send : Addr → SPlace
  recv : Addr → RPlace

/-! ## Sends -/

/-- The send request that an answer is about. -/
def Answer.send : Answer → Addr
  | .rmr handle _ | .rmdr handle _ | .nrdy handle => handle.remoteSendHandle
  | .rdr remoteSend _ _ _ _ => remoteSend

/-- The place is one in a channel. -/
def SPlace.linked : SPlace → Bool
  | .queue | .found _ | .parked _ => true
  | _ => false

/-- The place is a link or a receiver thread. -/
def SPlace.away : SPlace → Bool
  | .wire _ _ _ | .answering _ _ => true
  | _ => false

/-- The message has not been seen at its destination. -/
def SPlace.arriving : SPlace → Bool
  | .wire _ _ (.rms _) | .wire _ _ (.rmds _ _) => true
  | _ => false

/-- The receive has been told to expect the data. -/
def SPlace.granted : SPlace → Bool
  | .wire _ _ (.rds ..) | .wire _ _ (.rdr ..) | .answering _ (.rdr ..) => true
  | _ => false

theorem SPlace.away_of_granted {p : SPlace} (granted : p.granted = true) : p.away = true := by
  unfold SPlace.granted at granted
  split at granted
  all_goals first | rfl | cases granted

/-- The states of a sender, by the progress of its message. -/
def SPlace.admits (p : SPlace) (mode : Mode) (stat : Stat) : Prop :=
  if p.granted then stat = .pendData ∨ stat = .pendDwat ∨ stat = .pendRels
  else stat = .pendStrt ∨ (mode ≠ .ready ∧ (stat = .pendWait ∨ stat = .pendRels))

theorem SPlace.unmatched {p : SPlace} {mode : Mode} {stat : Stat} (admits : p.admits mode stat) :
    stat ≠ .matched := by
  rintro rfl
  unfold SPlace.admits at admits
  split at admits <;> simp at admits

/-- A remote send handle as its messages carry it. -/
structure RmsOk (a : Addr) (j : Job) (r : RMSHandle) : Prop where
  envelope : (⟨r.context, r.tag, r.src⟩ : Envelope) = j.envelope
  dest : r.dest = j.dest
  buflen : r.buflen = j.data.length
  mode : r.mode = j.mode
  handle : r.remoteSendHandle = a

def Job.outward (cfg : Config) (j : Job) (m m' : Nat) : Prop :=
  m = cfg.home j.envelope.src ∧ m' = cfg.home j.dest

def FrameOk (cfg : Config) (a : Addr) (j : Job) (m m' : Nat) : Frame → Prop
  | .rms handle => RmsOk a j handle ∧ handle.handleType = .msg ∧ j.outward cfg m m'
  | .rmds handle payload => RmsOk a j handle ∧ payload = j.data ∧ j.outward cfg m m'
  | .rds send _ _ _ _ => send = a ∧ j.outward cfg m m'
  | .rmr send _ _ _ => send = a ∧ j.outward cfg m' m
  | .rdr send _ _ | .rmdr send _ _ => send = a ∧ j.outward cfg m' m
  | .nrdy send _ _ => send = a ∧ j.mode = .ready ∧ j.outward cfg m' m

def AnswerOk (a : Addr) (j : Job) : Answer → Prop
  | .rmr handle _ | .rmdr handle _ => RmsOk a j handle
  | .nrdy handle => RmsOk a j handle ∧ j.mode = .ready
  | .rdr send _ src dest _ => send = a ∧ src = j.envelope.src ∧ dest = j.dest

def PlaceOk (cfg : Config) (a : Addr) (j : Job) : SPlace → Prop
  | .off => True
  | .queue | .found _ => cfg.home j.dest = cfg.home j.envelope.src
  | .wire m m' frame => cfg.home j.dest ≠ cfg.home j.envelope.src ∧ FrameOk cfg a j m m' frame
  | .parked q =>
      cfg.home j.dest ≠ cfg.home j.envelope.src ∧ j.mode ≠ .ready ∧ q.owner = j.dest
  | .answering m answer =>
      cfg.home j.dest ≠ cfg.home j.envelope.src ∧ m = cfg.home j.dest ∧ AnswerOk a j answer

/-- What holds of a send handle wherever it is. -/
structure HandleOk (cfg : Config) (a : Addr) (h : SHandle) : Prop where
  owner : h.src = a.owner
  isRemote : h.isRemote = decide (cfg.home h.dest ≠ cfg.home h.src)
  userLen : h.userBuf.length = h.len
  sysLen : ∀ sys, h.sysBuf = some sys → sys.length = h.len
  noSpace : h.mode = .buffered → h.sysBuf = none → 0 < h.len →
    h.stat = .create ∧ h.errval ≠ .success
  fresh : h.startable = true → h.curdata = .userBuf ∧ h.buflen = h.len
  leaves : h.stat = .pendRels → h.mode = .buffered ∨ (h.mode = .standard ∧ h.sysBuf.isSome)
  refused : h.stat = .pendNrdy → h.mode = .ready ∧ h.isRemote = true
  blocked : h.stat = .pendWait ∨ h.stat = .pendDwat → h.pc = .waiting
  waiting : h.pc = .waiting → h.stat = .matched ∨ h.stat = .pendWait ∨
    (h.isRemote = true ∧ h.stat = .pendDwat)
  readyWait : h.pc = .readyWait → h.isRemote = true ∧ h.mode = .ready ∧
    (h.stat = .pendStrt ∨ h.stat = .pendData ∨ h.stat = .matched ∨ h.stat = .pendNrdy)
  notStarting : h.pc ≠ .starting

/-- A send handle against the start call it is under way for. -/
structure Agrees (h : SHandle) (j : Job) : Prop where
  inst : h.inst = j.inst
  envelope : (⟨h.context, h.tag, h.src⟩ : Envelope) = j.envelope
  dest : h.dest = j.dest
  mode : h.mode = j.mode
  len : h.len = j.data.length
  buflen : h.buflen = j.data.length
  bytes : (h.curdata = .userBuf ∧ h.userBuf = j.data ∧ (h.stat = .pendRels → h.len = 0)) ∨
    (h.curdata = .sysBuf ∧ h.sysBuf = some j.data)

/-- The states of a send that no other party refers to. -/
def Stat.settled (stat : Stat) : Prop :=
  stat = .create ∨ stat = .free ∨ stat = .matched ∨ stat = .pendNrdy

def SendOk (cfg : Config) (a : Addr) (cell : SCell) (j : Job) (p : SPlace) : Prop :=
  match cell with
  | .remote _ => p = .off
  | .send h => HandleOk cfg a h ∧ PlaceOk cfg a j p ∧ (p = .off → h.stat.settled) ∧
      (p ≠ .off → Agrees h j ∧ p.admits j.mode h.stat)

/-- Somebody has a pointer to the handle. -/
def SendUsed (cell : SCell) (p : SPlace) : Prop :=
  p ≠ .off ∨ match cell with
    | .send h => h.held = true ∨ h.pc ≠ .idle
    | .remote _ => False

/-! ## Receives -/

/-- The two posts are matched in the trace. -/
def Paired (trace : Trace) (send recv : Nat) : Prop :=
  ∃ e e', Matching.Event.matched ⟨send, e⟩ ⟨recv, e'⟩ ∈ trace

/-- What a matched receive has: the send's bytes as far as they fit. -/
structure Filled (log : List Event) (recv peer : Nat) (status : Status) (data : Buffer)
    (src tag : Int) (sent before : Buffer) : Prop where
  sendStarted : .sendStarted peer src tag sent ∈ log
  recvStarted : .recvStarted recv before ∈ log
  status : status = ⟨min sent.length before.length, src, tag, .success⟩
  data : data = sent.take (min sent.length before.length) ++
    before.drop (min sent.length before.length)

def Delivered (log : List Event) (trace : Trace) (recv peer : Nat) (status : Status)
    (data : Buffer) : Prop :=
  Paired trace peer recv ∧ ∃ src tag sent before,
    Filled log recv peer status data src tag sent before

/-- What holds of a receive handle wherever it is. -/
structure RHandleOk (b : Addr) (r : RHandle) : Prop where
  owner : r.dest = b.owner
  dataLen : r.data.length = r.permLen
  errval : r.errval = .success
  fresh : r.stat = .create → r.buflen = r.data.length
  blocked : r.stat = .pendWait ∨ r.stat = .pendDwat → r.pc = .waiting
  waiting : r.pc = .waiting → r.stat = .pendWait ∨ r.stat = .pendDwat ∨ r.stat = .matched
  notReady : r.pc ≠ .readyWait

/-- A receive handle against its start call, before the match. -/
structure RAgrees (r : RHandle) (w : Want) : Prop where
  inst : r.inst = w.inst
  envelope : r.envelope = w.envelope
  data : r.data = w.data
  buflen : r.buflen = w.data.length

/-- The same after the match, while the data is on its way. -/
structure Awaits (r : RHandle) (w : Want) (j : Job) (trace : Trace) : Prop where
  inst : r.inst = w.inst
  peer : r.peer = j.inst
  src : r.src = j.envelope.src
  tag : r.tag = j.envelope.tag
  data : r.data = w.data
  buflen : r.buflen = shared j w
  paired : Paired trace j.inst w.inst

def RPlaceOk (r : RHandle) (w : Want) (job : Addr → Job) (log : List Event) (trace : Trace) :
    RPlace → Prop
  | .off => r.pc ≠ .starting ∧ (r.stat = .create ∨ r.stat = .free ∨
      (r.stat = .matched ∧ Delivered log trace r.inst r.peer r.status r.data))
  | .queue => r.pc ≠ .starting ∧ (r.stat = .pendStrt ∨ r.stat = .pendWait) ∧ RAgrees r w
  | .starting a => r.pc = .starting ∧ r.stat = .create ∧ RAgrees r w ∧
      Paired trace (job a).inst w.inst
  | .awaiting a => r.pc ≠ .starting ∧ (r.stat = .pendData ∨ r.stat = .pendDwat) ∧
      Awaits r w (job a) trace

def RecvUsed (r : RHandle) (p : RPlace) : Prop := p ≠ .off ∨ r.held = true ∨ r.pc ≠ .idle

/-! ## Both -/

/-- The receive that a send is tied to, and whether by messages. -/
def SPlace.engaged : SPlace → Option (Addr × Bool)
  | .found b => some (b, false)
  | .wire _ _ (.rmr _ b _ _) | .wire _ _ (.rds _ b _ _ _) | .answering _ (.rmr _ b) =>
      some (b, true)
  | _ => none

def RPlace.engaged : RPlace → Option (Addr × Bool)
  | .starting a => some (a, false)
  | .awaiting a => some (a, true)
  | _ => none

/-- The lengths and the payload that travel with a matched message. -/
def SPlace.carries (data : Buffer) (n : Nat) : SPlace → Prop
  | .wire _ _ (.rmr _ _ buflen _) => buflen = n
  | .wire _ _ (.rds _ _ buflen _ payload) => buflen = n ∧ payload = data.take n
  | _ => True

theorem SPlace.of_arriving {p : SPlace} (arriving : p.arriving = true) :
    p ≠ .off ∧ p.linked = false ∧ p.granted = false ∧ p.engaged = none ∧ p.away = true := by
  unfold SPlace.arriving at arriving
  split at arriving
  · exact ⟨by simp, rfl, rfl, rfl, rfl⟩
  · exact ⟨by simp, rfl, rfl, rfl, rfl⟩
  · cases arriving

/-- The send request behind a queue element. -/
def SCell.origin (x : Addr) : SCell → Addr
  | .send _ => x
  | .remote r => r.remoteSendHandle

/-- A queue element against the request behind it. -/
def Linked (c : Int) (x : Addr) (cell : SCell) (job : Addr → Job) (send : Addr → SPlace) : Prop :=
  (job (cell.origin x)).dest = c ∧
    match cell with
    | .send _ => send x = .queue
    | .remote r => send r.remoteSendHandle = .parked x ∧
        RmsOk r.remoteSendHandle (job r.remoteSendHandle) r ∧ r.stat = .pendStrt ∧
        (r.handleType = .msgdat → r.curdata = some (job r.remoteSendHandle).data)

end Tmpi.Intra
