import Tmpi.Netd.Links
import Tmpi.Netd.Sock

/-! Messages between two machines: `netd_sendmsg`, `netd_sendmsgdat`, `netd_recvmsg` and `netd_recvdat`. -/

namespace Tmpi.Netd.Pt2pt

open Transfer

/-! ## Sending -/

section Sending

variable (info : NetdLinks) (calls : Nat → Call) (rank : Int)

/-- What is returned and what is written to the connection. -/
def netdSendmsg (msg : Buffer) : Option (Int × Buffer) :=
  match info.pt2pt rank with
  | none => some (-1, [])
  | some _ => sockWritev calls [storeInt (.ofNat 32 msg.length), msg]

def netdSendmsgdat (msg data : Buffer) : Option (Int × Buffer) :=
  match info.pt2pt rank with
  | none => some (-1, [])
  | some _ => sockWritev calls [storeInt (.ofNat 32 msg.length), msg, data]

end Sending

/-! ## Receiving -/

/-- What the system does: how the `n`-th `sock_read` goes, and whether the data for a descriptor has come when it is
asked for the `n`-th time. -/
structure System where
  reads : Nat → Nat → Call
  ready : Nat → Int → Bool

/-- A receiving machine. `streams` has all bytes that will still come in on a descriptor; `nset` and `idx` are the
static variables of `netd_recvmsg`. -/
structure Receiver where
  info : NetdLinks
  nset : Int
  idx : Int
  streams : Int → Buffer
  reads : Nat
  polls : Nat

namespace Receiver

variable (sys : System) (r : Receiver)

/-- `sock_read` -/
def read (fd : Int) (len : Int) : Option (Int × Buffer × Receiver) :=
  (sockRead (sys.reads r.reads) (r.streams fd) len).map fun (ret, data, rest) =>
    (ret, data, { r with streams := Function.update r.streams fd rest, reads := r.reads + 1 })

/-- `sock_canread` -/
def sockCanread (fd : Int) : Int :=
  if 0 ≤ fd ∧ r.streams fd ≠ [] ∧ sys.ready r.polls fd then 1 else 0

/-- `poll` without a time limit: it reports descriptors whose data has come, and waits until there is one. When none
has come it is all that will come that it reports; when nothing will, it waits for ever. -/
def poll (set : List Pollfd) : Option (List Pollfd) :=
  let come := fun p : Pollfd => decide (r.streams p.fd ≠ [])
  let seen := fun p : Pollfd => come p && sys.ready r.polls p.fd
  if set.all fun p => !come p then none
  else some (set.map fun p =>
    { p with revents := if if set.any seen then seen p else come p then .readable else .none })

/-- What `poll` returns. -/
def reported (set : List Pollfd) : Nat := set.countP fun p => p.revents ≠ .none

/-- `for (; idx<netd_info.size-1; idx++)`, with the descriptor it finds, `idx` and `nset`. -/
def scan : List Pollfd → Int → Int → Int × Int × Int
  | [], idx, nset => (-1, idx, nset)
  | p :: set, idx, nset =>
      match p.revents with
      | .none => scan set (idx + 1) nset
      | .readable => (p.fd, idx, nset - 1)
      | .other => scan set (idx + 1) (nset - 1)

def look (set : List Pollfd) (idx : Int) : Int × Receiver :=
  let (fd, idx, nset) := scan ((set.take (r.info.size - 1).toNat).drop idx.toNat) idx r.nset
  (fd, { r with idx := idx, nset := nset, info := { r.info with pt2ptset := some set } })

/-- The descriptor that `netd_recvmsg` reads from. -/
def select (set : List Pollfd) : Option (Int × Receiver) :=
  let (fd, r) :=
    if 0 < r.nset then
      let (fd, r) := r.look set (r.idx + 1)
      (if r.sockCanread sys fd ≠ 1 then -1 else fd, { r with polls := r.polls + 1 })
    else (-1, r)
  if fd = -1 then
    (r.poll sys set).map fun set => { r with nset := reported set, polls := r.polls + 1 }.look set 0
  else some (fd, r)

/-- `netd_info.pt2ptset[idx].revents=0` -/
def clear : Receiver :=
  { r with info := { r.info with
      pt2ptset := r.info.pt2ptset.map fun set => set.modify r.idx.toNat ({ · with revents := .none }) } }

/-- The loop that clears the data that is left. -/
def dump (fd : Int) (n : Nat) (r : Receiver) : Option Receiver :=
  if n = 0 then some r
  else (r.read sys fd (min n 128 : Nat)).bind fun (_, _, r) => dump fd (n - min n 128) r
termination_by n

/-- The message that `netd_recvmsg` hands on, unless it returns -1. -/
def readMsg (fd size : Int) : Option (Option Buffer × Receiver) := do
  let (ret, n, r) ← r.read sys fd 4
  if ret < 0 then return (none, r)
  let n := (loadInt n).toInt
  if n < 0 then return (none, r)
  let m := if size < n then size else n
  let (ret, msg, r) ← if 0 < m then r.read sys fd m else some (0, [], r)
  if ret < 0 then return (none, r)
  let r ← if m < n then dump sys fd (n - m).toNat r else some r
  return (some msg, r)

/-- What `msg_handle` returns; `none` where -1 is returned before it is called. -/
def netdRecvmsg {Result : Type} (size : Int) (msgHandle : Int → Buffer → Receiver → Option (Result × Receiver)) :
    Option (Option Result × Receiver) :=
  match r.info.pt2ptset, r.info.fdtorank with
  | some set, some fdtorank =>
      if r.info.size < 2 then some (none, r)
      else do
        let (fd, r) ← r.select sys set
        if fd = -1 then return (none, r)
        let r := r.clear
        if r.info.maxmsg < size then return (none, r)
        let (msg, r) ← r.readMsg sys fd size
        match msg with
        | none => return (none, r)
        | some msg =>
            let (result, r) ← msgHandle (fdtorank.getD fd.toNat (-1)) msg r
            return (some result, r)
  | _, _ => some (none, r)

def netdRecvdat (rank : Int) (len : Int) : Option (Int × Buffer × Receiver) :=
  match r.info.pt2pt rank with
  | none => some (-1, [], r)
  | some fd => r.read sys fd len

end Receiver

/-! ## Messages that are sent and handed on -/

/-- A message as its sender gives it: with `netd_sendmsg`, or with `netd_sendmsgdat` and a payload. -/
structure Message where
  header : Buffer
  payload : Option Buffer
  longEnough : 16 ≤ header.length
  notTooLong : header.length ≤ 1024
  datlen : (payload.getD []).length < 2^31

namespace Message

variable (msg : Message)

def data : Buffer := msg.payload.getD []

/-- The bytes of a message on its connection. -/
def frame : Buffer := storeInt (.ofNat 32 msg.header.length) ++ (msg.header ++ msg.data)

/-- An `int` holds the length of the frame. -/
def Fits : Prop := 4 + msg.header.length + msg.data.length < 2^31

instance : Decidable msg.Fits := inferInstanceAs (Decidable (_ < _))

def send (info : NetdLinks) (calls : Nat → Call) (rank : Int) : Option (Int × Buffer) :=
  match msg.payload with
  | none => netdSendmsg info calls rank msg.header
  | some data => netdSendmsgdat info calls rank msg.header data

end Message

/-- What a sequence of messages writes to its connection; `writes` has the calls of each of them. -/
def transmit (info : NetdLinks) (rank : Int) (writes : Nat → Nat → Call) : List Message → Option Buffer
  | [] => some []
  | msg :: msgs => do
      let (_, out) ← msg.send info (writes 0) rank
      let rest ← transmit info rank (fun k => writes (k + 1)) msgs
      return out ++ rest

/-- What a handler gets of a message. -/
structure Delivery where
  sender : Int
  header : Buffer
  payload : Buffer
  deriving DecidableEq, Repr

section Receiving

variable (sys : System) (announced : Buffer → Int) (limit : Int)

/-- A handler that reads the payload that the header announces. -/
def readPayload (sender : Int) (msg : Buffer) (r : Receiver) : Option (Delivery × Receiver) :=
  (r.netdRecvdat sys sender (announced msg)).map fun (_, payload, r) => (⟨sender, msg, payload⟩, r)

/-- What is handed on by a number of calls; a call that waits for ever is the last one. -/
def receive : Nat → Receiver → List Delivery
  | 0, _ => []
  | n + 1, r =>
      match r.netdRecvmsg sys limit (readPayload sys announced) with
      | none => []
      | some (none, r) => receive n r
      | some (some delivery, r) => delivery :: receive n r

end Receiving

/-- What is to be handed on of a message. -/
def Message.delivery (limit : Int) (sender : Nat) (msg : Message) : Delivery :=
  ⟨sender, msg.header.take limit.toNat, msg.data⟩

/-! ## What is written -/

theorem Message.send_eq (msg : Message) {info : NetdLinks} {calls : Nat → Call} {rank fd : Int}
    (fair : Fair maxRetry calls) (there : info.pt2pt rank = some fd) :
    msg.send info calls rank = some (0, if msg.Fits then msg.frame else []) := by
  have flat : ∃ iov : List Buffer, msg.send info calls rank = sockWritev calls iov ∧ iov.flatten = msg.frame := by
    cases payload : msg.payload with
    | none =>
        refine ⟨[storeInt (.ofNat 32 msg.header.length), msg.header], ?_, ?_⟩
        · simp only [send, payload, netdSendmsg, there]
        · simp [frame, data, payload]
    | some data =>
        refine ⟨[storeInt (.ofNat 32 msg.header.length), msg.header, data], ?_, ?_⟩
        · simp only [send, payload, netdSendmsgdat, there]
        · simp [frame, Message.data, payload]
  obtain ⟨iov, sends, flat⟩ := flat
  have length : iov.flatten.length = 4 + msg.header.length + msg.data.length := by
    rw [flat, frame, List.length_append, List.length_append, Nat.add_assoc]
    rfl
  have header := msg.notTooLong
  have data : msg.data.length < 2^31 := msg.datlen
  rw [sends]
  by_cases fits : msg.Fits
  · rw [if_pos fits, sockWritev_writes fair (length.trans_lt fits), flat]
  · have wide : 2^31 ≤ 4 + msg.header.length + msg.data.length := Nat.not_lt.mp fits
    rw [if_neg fits, sockWritev_overflows (by omega) (by omega)]

theorem transmit_eq {info : NetdLinks} {rank fd : Int} (there : info.pt2pt rank = some fd) {writes : Nat → Nat → Call}
    (fair : ∀ k, Fair maxRetry (writes k)) (msgs : List Message) :
    transmit info rank writes msgs = some ((msgs.filter fun msg => msg.Fits).flatMap Message.frame) := by
  induction msgs generalizing writes with
  | nil => rfl
  | cons msg msgs ih =>
      rw [transmit, msg.send_eq (fair 0) there, ih fun k => fair (k + 1)]
      by_cases fits : msg.Fits
      · simp only [fits, if_true, List.filter_cons, decide_true]
        rfl
      · simp only [fits, if_false, List.filter_cons, decide_false]
        rfl

/-! ## The descriptor that is read from -/

theorem NetdLinks.pt2pt_ne {info : NetdLinks} {rank fd : Int} (there : info.pt2pt rank = some fd) : fd ≠ -1 := by
  unfold pt2pt at there
  split at there
  · cases there
  · split_ifs at there with inside missing
    exact Option.some.inj there ▸ missing

theorem NetdLinks.Meshed.injective {info : NetdLinks} {size me : Nat} {socket : Nat → Int}
    (meshed : info.Meshed size me socket) {j k : Nat} (inJ : j < size) (otherJ : j ≠ me) (inK : k < size)
    (otherK : k ≠ me) (same : socket j = socket k) : j = k := by
  obtain ⟨ranks, -, rank⟩ := meshed.ranks
  have both := rank j inJ otherJ
  rw [same, rank k inK otherK] at both
  exact (Int.natCast_inj.mp both).symm

/-- Only the reports change. -/
theorem NetdLinks.Meshed.report {info : NetdLinks} {size me : Nat} {socket : Nat → Int} {set set' : List Pollfd}
    (meshed : info.Meshed size me socket) (before : info.pt2ptset = some set)
    (same : set'.map Pollfd.fd = set.map Pollfd.fd) :
    { info with pt2ptset := some set' }.Meshed size me socket := by
  obtain ⟨set₀, is_set, length, members⟩ := meshed.set
  obtain rfl := Option.some.inj (before.symm.trans is_set)
  have lengths := congrArg List.length same
  rw [List.length_map, List.length_map] at lengths
  exact ⟨meshed.large, meshed.sized, meshed.there, meshed.ranks, set', rfl, lengths.trans length,
    fun fd => same ▸ members fd⟩

namespace Receiver

theorem scan_cases (set : List Pollfd) (idx nset : Int) :
    (scan set idx nset).1 = -1 ∨ ∃ p ∈ set, p.revents = .readable ∧ (scan set idx nset).1 = p.fd := by
  induction set generalizing idx nset with
  | nil => exact .inl rfl
  | cons p set ih =>
      have rest : ∀ idx nset, (scan set idx nset).1 = -1 ∨
          ∃ q ∈ p :: set, q.revents = .readable ∧ (scan set idx nset).1 = q.fd :=
        fun idx nset => (ih idx nset).imp_right fun ⟨q, inside, found⟩ => ⟨q, List.mem_cons_of_mem p inside, found⟩
      unfold scan
      cases report : p.revents with
      | none => exact rest _ _
      | readable => exact .inr ⟨p, List.mem_cons_self, report, rfl⟩
      | other => exact rest _ _

theorem scan_finds {set : List Pollfd} (reported : ∃ p ∈ set, p.revents = .readable) (idx nset : Int) :
    ∃ p ∈ set, p.revents = .readable ∧ (scan set idx nset).1 = p.fd := by
  induction set generalizing idx nset with
  | nil =>
      obtain ⟨p, inside, -⟩ := reported
      cases inside
  | cons p set ih =>
      have rest : p.revents ≠ .readable → ∀ idx nset,
          ∃ q ∈ p :: set, q.revents = .readable ∧ (scan set idx nset).1 = q.fd := by
        intro unread idx nset
        obtain ⟨q, inside, read⟩ := reported
        have further : ∃ p ∈ set, p.revents = .readable := by
          rcases List.mem_cons.mp inside with rfl | later
          · exact absurd read unread
          · exact ⟨q, later, read⟩
        obtain ⟨q, inside, found⟩ := ih further idx nset
        exact ⟨q, List.mem_cons_of_mem p inside, found⟩
      unfold scan
      cases report : p.revents with
      | none => exact rest (by rw [report]; exact nofun) _ _
      | readable => exact ⟨p, List.mem_cons_self, report, rfl⟩
      | other => exact rest (by rw [report]; exact nofun) _ _

variable {sys : System} {r : Receiver} {set : List Pollfd}

theorem poll_waits (silent : ∀ p ∈ set, r.streams p.fd = []) : r.poll sys set = none := by
  unfold poll
  dsimp only
  rw [if_pos]
  rw [List.all_eq_true]
  intro p inside
  simp [silent p inside]

theorem poll_reports (data : ∃ p ∈ set, r.streams p.fd ≠ []) :
    ∃ set', r.poll sys set = some set' ∧ set'.map Pollfd.fd = set.map Pollfd.fd ∧
      (∃ p ∈ set', p.revents = .readable) ∧ ∀ p ∈ set', p.revents = .readable → r.streams p.fd ≠ [] := by
  obtain ⟨q, inside, come⟩ := data
  unfold poll
  dsimp only
  rw [if_neg (by
    rw [List.all_eq_true]
    intro silent
    simpa [come] using silent q inside)]
  refine ⟨_, rfl, by simp [Function.comp_def], ?_, ?_⟩
  · by_cases anySeen : set.any fun p => decide (r.streams p.fd ≠ []) && sys.ready r.polls p.fd
    · obtain ⟨p, member, seen⟩ := List.any_eq_true.mp anySeen
      exact ⟨_, List.mem_map_of_mem member, by dsimp only; rw [if_pos anySeen, if_pos seen]⟩
    · refine ⟨_, List.mem_map_of_mem inside, ?_⟩
      dsimp only
      rw [if_neg anySeen, if_pos (decide_eq_true come)]
  · intro p member report
    obtain ⟨p, -, rfl⟩ := List.mem_map.mp member
    dsimp only at report ⊢
    split_ifs at report with anySeen seen come
    · exact of_decide_eq_true (Bool.and_eq_true_iff.mp seen).1
    · exact of_decide_eq_true come

end Receiver

end Tmpi.Netd.Pt2pt
