import Tmpi.Intra.Runs
import Tmpi.Netq.Tables

/-! What the handlers of `inter_sr.c` do with the pool of message objects and with the
streams of the other machines, on every path: the branches are the handlers' own, and
what can go wrong around them is in `Env`. -/

namespace Tmpi.Intra.Effects

open Netq (Info netqGetMacID tmpiGrankToLrank)

inductive Effect where
  /-- `tmpi_inter_new_msg` returned an object. -/
  | newMsg
  | freeMsg
  /-- `sock_read` from the socket of a machine. -/
  | read (machine len : Nat)
  /-- `netq_send` with a payload of `pldlen` bytes. -/
  | send (src dest : Int) (pldlen : Nat)
  deriving DecidableEq, Repr

/-- The rest of a machine as a handler finds it. -/
structure Env where
  info : Info
  /-- `netd_info.pt2ptfd[i] != -1`. -/
  connected : Nat → Bool
  /-- `tmpi_channel_size`, 0 when `tmpi_intra_end` has been called. -/
  channelSize : Nat
  /-- The message pool has an object to give. -/
  message : Bool
  /-- `Q_newElem` has an element for a send queue. -/
  element : Bool
  /-- The message buffer of a local rank exists: `mb_init` has been called, and `mb_end` has not. -/
  buffer : Int → Bool
  /-- `mb_alloc` has space. -/
  room : Bool
  /-- `tmpi_debug(DBG_INFO)`. -/
  debug : Bool
  /-- `sizeof(tmpi_MSG)`. -/
  msgSize : Nat

/-- `body` of a `tmpi_MSG`, with what its handler reads; a pointer may be null. -/
inductive Body where
  | rms (handle : RMSHandle)
  | rmds (handle : RMSHandle)
  | rds (remoteSend localRecv : Option Addr) (buflen : Nat)
  | rmr (localSend remoteRecv : Option Addr) (buflen : Nat)
  | rdr (localSend : Option Addr)
  | rmdr (localSend : Option Addr)
  | nrdy (localSend : Option Addr)
  /-- A message of none of these types. -/
  | other (type : Nat) (src dest : Int)

/-- A message as `movin_msg_handle` hands it over. -/
structure Message where
  src : Int
  dest : Int
  msglen : Nat
  payloadsize : Nat
  body : Body

def Body.type : Body → Nat
  | .rms _ => 64
  | .rds .. => 128
  | .rmds _ => 192
  | .rmr .. => 256
  | .rdr _ => 512
  | .rmdr _ => 768
  | .nrdy _ => 1024
  | .other type .. => type

/-! ## Reading -/

/-- The machine that `netq_recvdata` reads from, if it reads. -/
def source (env : Env) (rank : Int) : Option Nat :=
  (netqGetMacID env.info rank).filter env.connected

def netqRecvdata (env : Env) (rank : Int) (len : Nat) : List Effect :=
  match source env rank with
  | none => []
  | some machine => [.read machine len]

/-- The loop reads pieces of at most 1024 bytes, and ends early when a read fails. -/
def tmpiDumpData (env : Env) (rank : Int) (len : Nat) : List Effect :=
  if 0 < len ∧ (source env rank).isSome then
    netqRecvdata env rank (min len 1024) ++ tmpiDumpData env rank (len - min len 1024)
  else []
termination_by len

/-- The delivered part, and the rest of a message that is longer than the buffer. -/
def recvTruncated (env : Env) (rank : Int) (buflen len : Nat) : List Effect :=
  netqRecvdata env rank buflen ++ if buflen < len then tmpiDumpData env rank (len - buflen) else []

/-! ## Handlers -/

/-- `tmpi_intra_get_channel` finds the channel of a rank. -/
def hasChannel (env : Env) (rank : Int) : Bool :=
  0 ≤ tmpiGrankToLrank env.info rank ∧ tmpiGrankToLrank env.info rank < env.channelSize

def tmpiRqFind (s : Sys) (handle : RMSHandle) : Option Addr :=
  (qFind (fun b => rqCmp (s.rmem b) handle.context handle.tag handle.src)
    (s.chan handle.dest).rq).map Prod.fst

def tmpiRmsHandle (env : Env) (s : Sys) (handle : RMSHandle) : List Effect :=
  if !hasChannel env handle.dest then []
  else if !env.message then []
  else
    let work :=
      match tmpiRqFind s handle with
      | some _ => [.send handle.dest handle.src 0]
      | none => if handle.mode = .ready then [.send handle.dest handle.src 0] else []
    .newMsg :: work ++ [.freeMsg]

def tmpiRmdsHandle (env : Env) (s : Sys) (handle : RMSHandle) : List Effect :=
  if !hasChannel env handle.dest then []
  else if !env.message then []
  else
    let work :=
      match tmpiRqFind s handle with
      | some b =>
          recvTruncated env handle.src (min (s.rmem b).buflen handle.buflen) handle.buflen ++
            [.send handle.dest handle.src 0]
      | none =>
          if handle.mode ≠ .ready then
            if env.room then netqRecvdata env handle.src handle.buflen
            else tmpiDumpData env handle.src handle.buflen
          else tmpiDumpData env handle.src handle.buflen ++ [.send handle.dest handle.src 0]
    .newMsg :: work ++ [.freeMsg]

/-- The response is allocated before the handle is looked at, and is not freed. -/
def tmpiRdsHandle (env : Env) (s : Sys) (localRecv : Option Addr) (buflen : Nat) : List Effect :=
  if !env.message then []
  else
    match localRecv with
    | none => [.newMsg]
    | some b =>
        let rh := s.rmem b
        let work :=
          if rh.stat = .pendData ∨ rh.stat = .pendDwat then
            recvTruncated env rh.src (min rh.buflen buflen) buflen
          else if rh.stat = .cancel then tmpiDumpData env rh.src buflen
          else []
        .newMsg :: work ++ [.send rh.dest rh.src 0]

/-- The response is not freed here either. -/
def tmpiRmrHandle (env : Env) (s : Sys) (localSend : Option Addr) (buflen : Nat) : List Effect :=
  if !env.message then []
  else
    match localSend with
    | none => [.newMsg]
    | some a =>
        match s.smem a with
        | .send sh => [.newMsg, .send sh.src sh.dest (min sh.buflen buflen)]
        | .remote _ => [.newMsg]

/-- The checks that `tmpi_inter_msg_handle` makes when debugging. -/
def rejects (env : Env) (msg : Message) : Bool :=
  env.debug &&
    ((match msg.body with
      | .rms handle | .rmds handle => handle.src ≠ msg.src ∨ handle.dest ≠ msg.dest
      | .other type src dest => type &&& 64 ≠ 0 ∧ (src ≠ msg.src ∨ dest ≠ msg.dest)
      | _ => false) ||
    decide (msg.msglen ≠ env.msgSize) ||
    match msg.body with
    | .rmds handle => handle.buflen ≠ msg.payloadsize
    | .rds _ _ buflen => buflen ≠ msg.payloadsize
    | _ => msg.payloadsize ≠ 0)

/-- `tmpi_rdr_handle`, `tmpi_rmdr_handle` and `tmpi_rndy_handle` use no message object and
have no payload. -/
def tmpiInterMsgHandle (env : Env) (s : Sys) (msg : Message) : List Effect :=
  if rejects env msg then []
  else
    match msg.body with
    | .rms handle => tmpiRmsHandle env s handle
    | .rmds handle => tmpiRmdsHandle env s handle
    | .rds _ localRecv buflen => tmpiRdsHandle env s localRecv buflen
    | .rmr localSend _ buflen => tmpiRmrHandle env s localSend buflen
    | .rdr _ | .rmdr _ | .nrdy _ | .other .. => []

/-! ## Start operations -/

def tmpiInterStartSh (env : Env) (sh : SHandle) : List Effect :=
  if !sh.startable then []
  else if !env.message then []
  else [.newMsg, .send sh.src sh.dest (if sh.buflen < maxShortMsg then sh.buflen else 0), .freeMsg]

/-- `tmpi_intra_start_rh`, which answers a remote send that it finds. -/
def tmpiIntraStartRh (env : Env) (s : Sys) (rh : RHandle) : List Effect :=
  if rh.errval ≠ .success ∨ !rh.startable then []
  else
    match qFind (fun x => sqCmp (s.smem x) rh.context rh.tag rh.src) (s.chan rh.dest).sq with
    | none => []
    | some (x, _) =>
        match s.smem x with
        | .send _ => []
        | .remote rm => if env.message then [.newMsg, .send rh.dest rm.src 0, .freeMsg] else []

/-! ## The message pool -/

/-- Objects allocated less objects freed. -/
def poolUse (effects : List Effect) : Int := effects.count .newMsg - effects.count .freeMsg

theorem poolUse_append (front back : List Effect) :
    poolUse (front ++ back) = poolUse front + poolUse back := by
  simp only [poolUse, List.count_append, Nat.cast_add]
  omega

/-- Neither allocates nor frees. -/
def Neutral (effects : List Effect) : Prop := .newMsg ∉ effects ∧ .freeMsg ∉ effects

theorem Neutral.nil : Neutral [] := by simp [Neutral]

theorem Neutral.send (src dest : Int) (pldlen : Nat) : Neutral [.send src dest pldlen] := by
  simp [Neutral]

theorem Neutral.append {front back : List Effect} (first : Neutral front) (second : Neutral back) :
    Neutral (front ++ back) := by
  simp only [Neutral, List.mem_append, not_or]
  exact ⟨⟨first.1, second.1⟩, first.2, second.2⟩

theorem Neutral.take {effects : List Effect} (neutral : Neutral effects) (n : Nat) :
    Neutral (effects.take n) :=
  ⟨fun member => neutral.1 (List.mem_of_mem_take member),
    fun member => neutral.2 (List.mem_of_mem_take member)⟩

theorem Neutral.poolUse {effects : List Effect} (neutral : Neutral effects) :
    Effects.poolUse effects = 0 := by
  rw [Effects.poolUse, List.count_eq_zero_of_not_mem neutral.1,
    List.count_eq_zero_of_not_mem neutral.2]
  rfl

theorem Neutral.netqRecvdata (env : Env) (rank : Int) (len : Nat) :
    Neutral (Effects.netqRecvdata env rank len) := by
  unfold Effects.netqRecvdata
  split <;> simp [Neutral]

theorem Neutral.tmpiDumpData (env : Env) (rank : Int) (len : Nat) :
    Neutral (Effects.tmpiDumpData env rank len) := by
  induction len using Nat.strongRecOn with
  | ind len ih =>
      unfold Effects.tmpiDumpData
      split
      next more => exact (Neutral.netqRecvdata env rank _).append (ih _ (by omega))
      next => exact .nil

theorem Neutral.recvTruncated (env : Env) (rank : Int) (buflen len : Nat) :
    Neutral (Effects.recvTruncated env rank buflen len) := by
  unfold Effects.recvTruncated
  apply Neutral.append (Neutral.netqRecvdata env rank buflen)
  split
  · exact Neutral.tmpiDumpData env rank _
  · exact .nil

/-- An operation that gives its message object back, or takes none. -/
def Balanced (effects : List Effect) : Prop :=
  effects = [] ∨ ∃ work, Neutral work ∧ effects = .newMsg :: work ++ [.freeMsg]

/-- An operation that keeps its message object. -/
def Leaking (effects : List Effect) : Prop := ∃ work, Neutral work ∧ effects = .newMsg :: work

theorem Balanced.poolUse {effects : List Effect} (balanced : Balanced effects) :
    Effects.poolUse effects = 0 := by
  rcases balanced with rfl | ⟨work, neutral, rfl⟩
  · rfl
  · have middle := neutral.poolUse
    simp only [Effects.poolUse, List.cons_append, List.count_cons, List.count_append] at middle ⊢
    simp
    omega

theorem Leaking.poolUse {effects : List Effect} (leaking : Leaking effects) :
    Effects.poolUse effects = 1 := by
  obtain ⟨work, neutral, rfl⟩ := leaking
  have rest := neutral.poolUse
  simp only [Effects.poolUse, List.count_cons] at rest ⊢
  simp
  omega

/-- An operation has one message object at most while it runs. -/
theorem poolUse_take {effects : List Effect} (shape : Balanced effects ∨ Leaking effects) (n : Nat) :
    0 ≤ poolUse (effects.take n) ∧ poolUse (effects.take n) ≤ 1 := by
  have opened : ∀ work, Neutral work → ∀ n,
      poolUse ((Effect.newMsg :: work).take n) = if n = 0 then 0 else 1 := by
    intro work neutral n
    cases n with
    | zero => simp [poolUse]
    | succ n =>
        rw [List.take_succ_cons]
        exact Leaking.poolUse ⟨_, neutral.take n, rfl⟩
  rcases shape with (rfl | ⟨work, neutral, rfl⟩) | ⟨work, neutral, rfl⟩
  · simp [poolUse]
  · rw [List.take_append, poolUse_append, opened work neutral]
    cases more : n - (Effect.newMsg :: work).length with
    | zero =>
        have none : poolUse (List.take 0 [Effect.freeMsg]) = 0 := by decide
        rw [none]
        split <;> omega
    | succ k =>
        have back : poolUse (List.take (k + 1) [Effect.freeMsg]) = -1 := by
          rw [List.take_succ_cons, List.take_nil]
          decide
        rw [back, if_neg (by omega)]
        omega
  · rw [opened work neutral]
    split <;> omega

/-! ### What each operation does with it -/

/-- The handlers of these two messages do not free their response. -/
def Body.kept : Body → Bool
  | .rds .. | .rmr .. => true
  | _ => false

/-- The message takes an object out of the pool for good. -/
def leaks (env : Env) (msg : Message) : Bool := !rejects env msg && env.message && msg.body.kept

theorem tmpiRmsHandle_balanced (env : Env) (s : Sys) (handle : RMSHandle) :
    Balanced (tmpiRmsHandle env s handle) := by
  unfold tmpiRmsHandle
  split
  · exact .inl rfl
  split
  · exact .inl rfl
  refine .inr ⟨_, ?_, rfl⟩
  split
  · exact Neutral.send _ _ _
  · split
    · exact Neutral.send _ _ _
    · exact .nil

theorem tmpiRmdsHandle_balanced (env : Env) (s : Sys) (handle : RMSHandle) :
    Balanced (tmpiRmdsHandle env s handle) := by
  unfold tmpiRmdsHandle
  split
  · exact .inl rfl
  split
  · exact .inl rfl
  refine .inr ⟨_, ?_, rfl⟩
  split
  · exact (Neutral.recvTruncated env _ _ _).append (Neutral.send _ _ _)
  · split
    · split
      · exact Neutral.netqRecvdata env _ _
      · exact Neutral.tmpiDumpData env _ _
    · exact (Neutral.tmpiDumpData env _ _).append (Neutral.send _ _ _)

theorem tmpiRdsHandle_leaking {env : Env} (available : env.message = true) (s : Sys)
    (localRecv : Option Addr) (buflen : Nat) : Leaking (tmpiRdsHandle env s localRecv buflen) := by
  unfold tmpiRdsHandle
  rw [available]
  cases localRecv with
  | none => exact ⟨[], .nil, rfl⟩
  | some b =>
      refine ⟨_, Neutral.append ?_ (Neutral.send _ _ _), rfl⟩
      split
      · exact Neutral.recvTruncated env _ _ _
      · split
        · exact Neutral.tmpiDumpData env _ _
        · exact .nil

theorem tmpiRmrHandle_leaking {env : Env} (available : env.message = true) (s : Sys)
    (localSend : Option Addr) (buflen : Nat) : Leaking (tmpiRmrHandle env s localSend buflen) := by
  unfold tmpiRmrHandle
  rw [available]
  cases localSend with
  | none => exact ⟨[], .nil, rfl⟩
  | some a =>
      cases cell : s.smem a with
      | send sh =>
          refine ⟨_, Neutral.send sh.src sh.dest (min sh.buflen buflen), ?_⟩
          simp [cell]
      | remote rm => exact ⟨[], .nil, by simp [cell]⟩

theorem handle_leaking {env : Env} {msg : Message} (s : Sys) (leak : leaks env msg = true) :
    Leaking (tmpiInterMsgHandle env s msg) := by
  simp only [leaks, Bool.and_eq_true, Bool.not_eq_eq_eq_not, Bool.not_true] at leak
  obtain ⟨⟨passes, available⟩, kept⟩ := leak
  rw [tmpiInterMsgHandle, passes]
  cases body : msg.body with
  | rds _ localRecv buflen => exact tmpiRdsHandle_leaking available s localRecv buflen
  | rmr localSend _ buflen => exact tmpiRmrHandle_leaking available s localSend buflen
  | rms _ | rmds _ | rdr _ | rmdr _ | nrdy _ | other _ _ _ =>
      rw [body] at kept
      cases kept

theorem handle_balanced {env : Env} {msg : Message} (s : Sys) (sound : leaks env msg = false) :
    Balanced (tmpiInterMsgHandle env s msg) := by
  unfold tmpiInterMsgHandle
  split
  · exact .inl rfl
  next passes =>
    have quiet : msg.body.kept = true → env.message = false := by
      intro kept
      simpa [leaks, passes, kept] using sound
    cases body : msg.body with
    | rms handle => exact tmpiRmsHandle_balanced env s handle
    | rmds handle => exact tmpiRmdsHandle_balanced env s handle
    | rds _ localRecv buflen =>
        have unavailable := quiet (by rw [body]; rfl)
        exact .inl (by simp [tmpiRdsHandle, unavailable])
    | rmr localSend _ buflen =>
        have unavailable := quiet (by rw [body]; rfl)
        exact .inl (by simp [tmpiRmrHandle, unavailable])
    | rdr _ | rmdr _ | nrdy _ | other _ _ _ => exact .inl rfl

theorem tmpiInterStartSh_balanced (env : Env) (sh : SHandle) : Balanced (tmpiInterStartSh env sh) := by
  unfold tmpiInterStartSh
  split
  · exact .inl rfl
  split
  · exact .inl rfl
  exact .inr ⟨_, Neutral.send _ _ _, rfl⟩

theorem tmpiIntraStartRh_balanced (env : Env) (s : Sys) (rh : RHandle) :
    Balanced (tmpiIntraStartRh env s rh) := by
  unfold tmpiIntraStartRh
  split
  · exact .inl rfl
  split
  · exact .inl rfl
  split
  · exact .inl rfl
  split
  · exact .inr ⟨_, Neutral.send _ _ _, rfl⟩
  · exact .inl rfl

/-! ### Runs -/

/-- The operations that use the pool. -/
inductive Op where
  | handle (env : Env) (s : Sys) (msg : Message)
  | startSh (env : Env) (sh : SHandle)
  | startRh (env : Env) (s : Sys) (rh : RHandle)

def Op.effects : Op → List Effect
  | .handle env s msg => tmpiInterMsgHandle env s msg
  | .startSh env sh => tmpiInterStartSh env sh
  | .startRh env s rh => tmpiIntraStartRh env s rh

def Op.leaks : Op → Bool
  | .handle env _ msg => Effects.leaks env msg
  | .startSh .. | .startRh .. => false

theorem Op.balanced {op : Op} (sound : op.leaks = false) : Balanced op.effects := by
  cases op with
  | handle env s msg => exact handle_balanced s sound
  | startSh env sh => exact tmpiInterStartSh_balanced env sh
  | startRh env s rh => exact tmpiIntraStartRh_balanced env s rh

theorem Op.leaking {op : Op} (leak : op.leaks = true) : Leaking op.effects := by
  cases op with
  | handle env s msg => exact handle_leaking s leak
  | startSh | startRh => cases leak

/-- Operations of any number of threads, in any order, each with the number of its effects
that have happened. -/
abbrev Run := List (Op × Nat)

def Run.use (run : Run) : Int := (run.map fun entry => poolUse (entry.1.effects.take entry.2)).sum

/-- The operations that have not returned. -/
def Run.active (run : Run) : Nat := run.countP fun entry => entry.2 < entry.1.effects.length

/-- The messages that have been handled and have taken an object for good. -/
def Run.leaked (run : Run) : Nat :=
  run.countP fun entry => entry.1.leaks && entry.1.effects.length ≤ entry.2

/-- What one operation contributes. -/
theorem Op.use_bounds (op : Op) (done : Nat) :
    (if op.leaks && op.effects.length ≤ done then 1 else 0) ≤ poolUse (op.effects.take done) ∧
      poolUse (op.effects.take done) ≤
        (if done < op.effects.length then 1 else 0) +
          (if op.leaks && op.effects.length ≤ done then 1 else 0) := by
  cases leak : op.leaks with
  | false =>
      have balanced := op.balanced leak
      obtain ⟨least, most⟩ := poolUse_take (.inl balanced) done
      by_cases running : done < op.effects.length
      · simpa [running] using ⟨least, most⟩
      · rw [List.take_of_length_le (by omega), balanced.poolUse]
        simp [running]
  | true =>
      have leaking := op.leaking leak
      obtain ⟨least, most⟩ := poolUse_take (.inr leaking) done
      by_cases running : done < op.effects.length
      · have early : ¬ op.effects.length ≤ done := by omega
        simpa [running, early] using ⟨least, most⟩
      · have finished : op.effects.length ≤ done := by omega
        rw [List.take_of_length_le finished, leaking.poolUse]
        simp [finished, running]

/-- The pool has one object for each operation that is active and one for each message
that took one for good. -/
theorem Run.use_bounds (run : Run) : (run.leaked : Int) ≤ run.use ∧
    run.use ≤ run.active + run.leaked := by
  induction run with
  | nil => simp [Run.use, Run.leaked, Run.active]
  | cons entry run ih =>
      have first := entry.1.use_bounds entry.2
      simp only [Run.use, Run.leaked, Run.active, List.map_cons, List.sum_cons, List.countP_cons,
        decide_eq_true_eq, Nat.cast_add, Nat.cast_ite, Nat.cast_one, Nat.cast_zero] at ih ⊢
      omega

/-- Handling a message leaves the pool as it was exactly when its handler is not one of the
two that keep their response, or takes none; and over a run the pool grows by the messages
that do. -/
theorem pool_kept_iff (env : Env) (s : Sys) (msg : Message) (run : Run) :
    (poolUse (tmpiInterMsgHandle env s msg) = 0 ↔ leaks env msg = false) ∧
      (run.leaked : Int) ≤ run.use ∧ run.use ≤ run.active + run.leaked := by
  refine ⟨⟨fun kept => ?_, fun sound => (handle_balanced s sound).poolUse⟩, run.use_bounds⟩
  cases leak : leaks env msg with
  | false => rfl
  | true =>
      rw [(handle_leaking s leak).poolUse] at kept
      cases kept

/-- The message that a frame is, from one rank to another. -/
def Frame.message (frame : Frame) (src dest : Int) (msgSize : Nat) : Message where
  src := src
  dest := dest
  msglen := msgSize
  payloadsize :=
    match frame with
    | .rmds handle _ => handle.buflen
    | .rds _ _ buflen _ _ => buflen
    | _ => 0
  body :=
    match frame with
    | .rms handle => .rms handle
    | .rmds handle _ => .rmds handle
    | .rmr localSend remoteRecv buflen _ => .rmr (some localSend) (some remoteRecv) buflen
    | .rds remoteSend localRecv buflen _ _ => .rds (some remoteSend) (some localRecv) buflen
    | .rdr localSend _ _ => .rdr (some localSend)
    | .rmdr localSend _ _ => .rmdr (some localSend)
    | .nrdy localSend _ _ => .nrdy (some localSend)

/-- Machine `m` of two machines with one rank each. -/
def sampleEnv (m channelSize : Nat) : Env where
  info := Netq.netqStart [⟨[], [0]⟩, ⟨[], [1]⟩] m
  connected i := i ≠ m
  channelSize := channelSize
  message := true
  element := true
  buffer _ := channelSize ≠ 0
  room := true
  debug := false
  msgSize := 76

/-- A send asks for its data to be fetched, and the sender's machine answers that. -/
theorem pool_grows : ∃ s frame, follow ⟨Int.toNat, 4, by decide⟩ (fun _ _ => true)
    (boot ⟨Int.toNat, 4, by decide⟩)
    [.initSh 7 0 1 5 [1, 2] .sync false false true, .startSh ⟨0, 0⟩ true, .deliver 0 1 false true,
      .initRh 7 0 1 5 [0, 0] false false, .startRh ⟨1, 0⟩ true] = some s ∧
    s.link 1 0 = [frame] ∧
    poolUse (tmpiInterMsgHandle (sampleEnv 0 1) s (Frame.message frame 1 0 76)) = 1 :=
  ⟨_, _, rfl, rfl, by decide +kernel⟩

/-! ## The streams -/

/-- The bytes read from the stream of a machine. -/
def bytesFrom (machine : Nat) : List Effect → Nat
  | [] => 0
  | .read source len :: rest => (if source = machine then len else 0) + bytesFrom machine rest
  | _ :: rest => bytesFrom machine rest

theorem bytesFrom_append (machine : Nat) (front back : List Effect) :
    bytesFrom machine (front ++ back) = bytesFrom machine front + bytesFrom machine back := by
  induction front with
  | nil => simp [bytesFrom]
  | cons effect front ih => cases effect <;> simp [bytesFrom, ih, Nat.add_assoc]

theorem bytesFrom_netqRecvdata (env : Env) (rank : Int) (len machine : Nat) :
    bytesFrom machine (netqRecvdata env rank len) =
      if source env rank = some machine then len else 0 := by
  cases found : source env rank <;> simp [netqRecvdata, found, bytesFrom]

theorem bytesFrom_tmpiDumpData (env : Env) (rank : Int) (len machine : Nat) :
    bytesFrom machine (tmpiDumpData env rank len) =
      if source env rank = some machine then len else 0 := by
  induction len using Nat.strongRecOn with
  | ind len ih =>
      unfold tmpiDumpData
      split
      next more =>
        rw [bytesFrom_append, bytesFrom_netqRecvdata, ih _ (by omega)]
        split <;> omega
      next done =>
        split
        next found =>
          have empty : len = 0 := by simpa [found] using done
          rw [empty]
          rfl
        next => rfl

/-! ### The end of the process -/

/-- A handler that queues a message writes to the element that `Q_newElem` returns, which may be
null. -/
def queues (env : Env) (s : Sys) (handle : RMSHandle) : Bool :=
  hasChannel env handle.dest && env.message && (tmpiRqFind s handle).isNone &&
    handle.mode ≠ .ready

/-- The process dies in the handler: it has no element to queue the message in, or `mb_alloc` locks
the mutex of a message buffer that does not exist. -/
def dies (env : Env) (s : Sys) (msg : Message) : Bool :=
  !rejects env msg &&
    match msg.body with
    | .rms handle => queues env s handle && !env.element
    | .rmds handle => queues env s handle &&
        (!env.element || !env.buffer (tmpiGrankToLrank env.info handle.dest))
    | _ => false

/-- What the handler has done when `movin` gets the control back, if it does. -/
def handled (env : Env) (s : Sys) (msg : Message) : Option (List Effect) :=
  if dies env s msg then none else some (tmpiInterMsgHandle env s msg)

/-- Both parts of a message are read. -/
theorem bytesFrom_recvTruncated (env : Env) (rank : Int) (limit len machine : Nat) :
    bytesFrom machine (recvTruncated env rank (min limit len) len) =
      if source env rank = some machine then len else 0 := by
  rw [recvTruncated, bytesFrom_append, bytesFrom_netqRecvdata]
  by_cases longer : min limit len < len
  · rw [if_pos longer, bytesFrom_tmpiDumpData]
    split <;> omega
  · rw [if_neg longer, bytesFrom, Nat.add_zero]
    split <;> omega

/-- The payload that follows a message on its stream. -/
def Body.payload : Body → Nat
  | .rmds handle => handle.buflen
  | .rds _ _ buflen => buflen
  | _ => 0

/-- The handler gets as far as reading, and reads from the sender. -/
def reads (env : Env) (s : Sys) (sender : Nat) (msg : Message) : Bool :=
  !rejects env msg && env.message &&
    match msg.body with
    | .rmds handle => hasChannel env handle.dest && source env handle.src = some sender
    | .rds _ (some b) _ =>
        ((s.rmem b).stat = .pendData ∨ (s.rmem b).stat = .pendDwat ∨ (s.rmem b).stat = .cancel) &&
          source env (s.rmem b).src = some sender
    | _ => false

theorem bytesFrom_tmpiRmdsHandle (env : Env) (s : Sys) (handle : RMSHandle) (sender : Nat) :
    bytesFrom sender (tmpiRmdsHandle env s handle) =
      if env.message && (hasChannel env handle.dest && source env handle.src = some sender) then
        handle.buflen
      else 0 := by
  unfold tmpiRmdsHandle
  cases channel : hasChannel env handle.dest with
  | false => simp [bytesFrom]
  | true =>
      cases available : env.message with
      | false => simp [bytesFrom]
      | true =>
          simp only [Bool.not_true, Bool.false_eq_true, ↓reduceIte, List.cons_append, bytesFrom,
            bytesFrom_append, Bool.true_and, decide_eq_true_eq, Nat.add_zero]
          cases tmpiRqFind s handle with
          | some b => simp [bytesFrom_append, bytesFrom_recvTruncated, bytesFrom]
          | none =>
              by_cases ready : handle.mode = .ready
              · simp [ready, bytesFrom_append, bytesFrom_tmpiDumpData, bytesFrom]
              · cases room : env.room <;>
                  simp [ready, bytesFrom_netqRecvdata, bytesFrom_tmpiDumpData]

theorem bytesFrom_tmpiRdsHandle (env : Env) (s : Sys) (b : Addr) (buflen sender : Nat) :
    bytesFrom sender (tmpiRdsHandle env s (some b) buflen) =
      if env.message && (((s.rmem b).stat = .pendData ∨ (s.rmem b).stat = .pendDwat ∨
          (s.rmem b).stat = .cancel) && source env (s.rmem b).src = some sender) then buflen
      else 0 := by
  unfold tmpiRdsHandle
  cases available : env.message with
  | false => simp [bytesFrom]
  | true =>
      simp only [Bool.not_true, Bool.false_eq_true, ↓reduceIte, List.cons_append, bytesFrom,
        bytesFrom_append, Bool.true_and, Nat.add_zero]
      by_cases waiting : (s.rmem b).stat = .pendData ∨ (s.rmem b).stat = .pendDwat
      · rw [if_pos waiting, bytesFrom_recvTruncated]
        rcases waiting with stat | stat <;> simp [stat]
      · rw [if_neg waiting]
        by_cases cancelled : (s.rmem b).stat = .cancel
        · simp [cancelled, bytesFrom_tmpiDumpData]
        · push Not at waiting
          simp [cancelled, waiting, bytesFrom]

theorem bytesFrom_tmpiRmsHandle (env : Env) (s : Sys) (handle : RMSHandle) (sender : Nat) :
    bytesFrom sender (tmpiRmsHandle env s handle) = 0 := by
  unfold tmpiRmsHandle
  cases hasChannel env handle.dest
  · rfl
  cases env.message
  · rfl
  cases tmpiRqFind s handle with
  | some b => rfl
  | none => by_cases ready : handle.mode = .ready <;> simp [ready, bytesFrom]

theorem bytesFrom_tmpiRmrHandle (env : Env) (s : Sys) (localSend : Option Addr)
    (buflen sender : Nat) : bytesFrom sender (tmpiRmrHandle env s localSend buflen) = 0 := by
  unfold tmpiRmrHandle
  cases env.message
  · rfl
  cases localSend with
  | none => rfl
  | some a => cases cell : s.smem a <;> simp [cell, bytesFrom]

theorem bytesFrom_tmpiInterMsgHandle_iff (env : Env) (s : Sys) (sender : Nat) (msg : Message) :
    bytesFrom sender (tmpiInterMsgHandle env s msg) = msg.body.payload ↔
      msg.body.payload = 0 ∨ reads env s sender msg = true := by
  have whole : ∀ (through : Bool) (len : Nat),
      (if through then len else 0) = len ↔ len = 0 ∨ through = true := by
    intro through len
    cases through <;> simp [eq_comm]
  unfold tmpiInterMsgHandle reads
  cases rejected : rejects env msg with
  | true => simp [bytesFrom, eq_comm]
  | false =>
      simp only [Bool.false_eq_true, ↓reduceIte, Bool.not_false, Bool.true_and]
      cases body : msg.body with
      | rms handle => simp [bytesFrom_tmpiRmsHandle, Body.payload]
      | rmds handle =>
          simp only [bytesFrom_tmpiRmdsHandle, Body.payload]
          exact whole _ _
      | rds remoteSend localRecv buflen =>
          cases localRecv with
          | none => cases available : env.message <;>
              simp [tmpiRdsHandle, available, bytesFrom, Body.payload, eq_comm]
          | some b =>
              simp only [bytesFrom_tmpiRdsHandle, Body.payload]
              exact whole _ _
      | rmr localSend remoteRecv buflen => simp [bytesFrom_tmpiRmrHandle, Body.payload]
      | rdr _ | rmdr _ | nrdy _ | other _ _ _ => simp [bytesFrom, Body.payload]

/-- The payload of a message is taken off the sender's stream exactly when the handler comes through,
and there is none or the handler reaches its reads. -/
theorem payload_consumed_iff (env : Env) (s : Sys) (sender : Nat) (msg : Message) :
    (∃ effects, handled env s msg = some effects ∧ bytesFrom sender effects = msg.body.payload) ↔
      dies env s msg = false ∧ (msg.body.payload = 0 ∨ reads env s sender msg = true) := by
  rw [← bytesFrom_tmpiInterMsgHandle_iff, handled]
  cases dies env s msg <;> simp

/-- A message that comes when `tmpi_main_end` has taken the channels down: its sender has
left it behind as a buffered one. -/
theorem payload_left_at_shutdown : ∃ s frame, follow ⟨Int.toNat, 4, by decide⟩ (fun _ _ => true)
    (boot ⟨Int.toNat, 4, by decide⟩)
    [.initSh 7 0 1 5 [1, 2] .buffered false false true, .startSh ⟨0, 0⟩ true, .waitSh ⟨0, 0⟩] = some s ∧
    s.link 0 1 = [frame] ∧ (Frame.message frame 0 1 76).body.payload = 2 ∧
    (handled (sampleEnv 1 0) s (Frame.message frame 0 1 76)).map (bytesFrom 0) = some 0 :=
  ⟨_, _, rfl, rfl, rfl, by decide +kernel⟩

end Tmpi.Intra.Effects
