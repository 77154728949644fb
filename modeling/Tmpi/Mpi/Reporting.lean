import Tmpi.Mpi.Entries

/-! Whether a send that nobody was told of is reported to its caller. -/

namespace Tmpi.Mpi

open Intra (Mode Stat fits)
open Netq (netqIsLocalNode netqTransGlobalRank netqTransLocalRank tmpiGrankToLrank)

/-! ## Waits -/

/-- How a call ends, if it does. -/
inductive Ending where
  | returned (ret : Ret)
  | blocked
  | crashed
  deriving DecidableEq, Repr

def Ending.andThen (e : Ending) (rest : Ret → Ending) : Ending :=
  match e with
  | returned ret => rest ret
  | blocked => .blocked
  | crashed => .crashed

/-- The loop that waits for a match. -/
def waitMatch (luck : Luck) : Ending := if luck.matched then .returned .success else .blocked

/-- A wait that copies the message to the system buffer. -/
def waitBuffer (sh : SendHandle) : Ending :=
  if sh.sysBuf.isSome then .returned .success else .returned .errRequest

/-- The `switch` over `send_mode` for a remote send, whose state is not `TMPI_MATCH` or `TMPI_PEND_NRDY`. -/
def interWaitMode (luck : Luck) (sh : SendHandle) : Ending :=
  match sh.mode with
  | .sync | .ready => waitMatch luck
  | .buffered => waitBuffer sh
  | .standard => if sh.sysBuf.isSome then waitBuffer sh else waitMatch luck

/-- `tmpi_inter_wait_sh` -/
def tmpiInterWaitSh (luck : Luck) (sh : SendHandle) : Ending :=
  if !sh.stat.any [.pendStrt, .matched, .pendNrdy, .pendData] then .returned .errIntern
  else
    let stat := if sh.stat = .pendStrt ∧ sh.mode = .ready then luck.answer else some sh.stat
    match stat with
    | none => .blocked
    | some .matched => .returned .success
    | some .pendNrdy => .returned .errNrdy
    | some _ => interWaitMode luck sh

/-- `tmpi_intra_wait_sh` -/
def tmpiIntraWaitSh (luck : Luck) (sh : SendHandle) : Ending :=
  if sh.isRemote then tmpiInterWaitSh luck sh
  else if !sh.stat.any [.pendStrt, .matched] then .returned .errIntern
  else if sh.stat = .matched then .returned .success
  else
    match sh.mode with
    | .sync => waitMatch luck
    | .buffered => waitBuffer sh
    | .ready => .returned .errNrdy
    | .standard => if sh.sysBuf.isSome then waitBuffer sh else waitMatch luck

/-- `tmpi_intra_wait_rh` -/
def tmpiIntraWaitRh (luck : Luck) (rh : RecvHandle) : Ending :=
  if !rh.stat.any [.pendStrt, .matched, .pendData] then .returned .errIntern
  else if rh.stat = .matched then .returned .success
  else waitMatch luck

/-- The wait for a send that was started. Nobody answers a message that was not handed over. -/
def waitStarted (luck : Luck) (sent : Sent) (sh : SendHandle) : Ending :=
  if sh.stat ≠ .pendStrt then tmpiIntraWaitSh luck sh
  else if sent.handed then tmpiIntraWaitSh luck { sh with stat := luck.early }
  else tmpiIntraWaitSh { luck with answer := none, matched := false } sh

/-! ## Whole calls -/

variable {H : Type}

def Ended.sent : Ended H → Sent
  | started _ sent _ => sent
  | _ => ⟨false, false⟩

/-- What a call returns that does not wait. -/
def Ended.ending : Ended H → Ending
  | crashed => .crashed
  | failed ret _ _ => .returned ret
  | made _ _ => .returned .success
  | started _ _ _ => .returned .success

/-- How a call with a send has ended, and what has become of its message. -/
structure Report where
  ending : Ending
  handed : Bool
  undefinedId : Bool
  deriving DecidableEq, Repr

/-- A send and its wait, in the same call or in one that follows it. -/
def sendReport (luck : Luck) (e : Ended SendHandle) : Report where
  ending :=
    match e with
    | .started sh sent _ => waitStarted luck sent sh
    | e => e.ending
  handed := e.sent.handed
  undefinedId := e.sent.undefinedId

/-- `tmpi_Wait` on what a call has left in `request`: a variable that was not written holds no pointer. -/
def tmpiWait (wait : H → Ending) (request : Option (Option H)) : Ending :=
  match request with
  | none => .crashed
  | some none => .returned .success
  | some (some h) => wait h

/-- The error of the send if there is one, else of the receive. -/
def firstError (ret1 ret2 : Ret) : Ret := if ret1 ≠ .success then ret1 else ret2

/-- `tmpi_Sendrecv`; the two halves find the machine in two states. -/
def tmpiSendrecv (m1 m2 : Machine) (myid : Int) (luck1 luck2 : Luck) (send recv : CallArgs) : Report :=
  let req1 := tmpiIsend m1 myid luck1 send
  let req2 := tmpiIrecv m2 myid luck2 { recv with comm := send.comm }
  { ending := req1.ending.andThen fun _ => req2.ending.andThen fun _ =>
      (tmpiWait (waitStarted luck1 req1.sent) req1.request).andThen fun ret1 =>
        (tmpiWait (tmpiIntraWaitRh luck2) req2.request).andThen fun ret2 => .returned (firstError ret1 ret2)
    handed := req1.sent.handed
    undefinedId := req1.sent.undefinedId }

/-- The sends of `tmpi_Sendrecv_replace`; of two that are made the second one counts. -/
def replaceSends (m1 m2 : Machine) (myid : Int) (luck1 luck2 : Luck) (send : CallArgs) : Report :=
  let first : Report :=
    if netqIsLocalNode m1.info send.peer then sendReport luck1 (tmpiRsend m1 myid luck1 send)
    else ⟨.returned .errNrdy, false, false⟩
  match first.ending with
  | .returned .success => first
  | .returned _ => sendReport luck2 (tmpiBsend m2 myid luck2 send)
  | _ => first

/-- `tmpi_Sendrecv_replace` -/
def tmpiSendrecvReplace (m1 m2 m3 : Machine) (myid : Int) (luck1 luck2 luck3 : Luck) (send recv : CallArgs) :
    Report :=
  let sends := replaceSends m1 m2 myid luck1 luck2 send
  let req2 := tmpiIrecv m3 myid luck3 { recv with comm := send.comm }
  { ending := sends.ending.andThen fun ret1 => req2.ending.andThen fun _ =>
      (tmpiWait (tmpiIntraWaitRh luck3) req2.request).andThen fun ret2 => .returned (firstError ret1 ret2)
    handed := sends.handed
    undefinedId := sends.undefinedId }

/-- If the message was not handed over, the caller is told so, and no table was indexed with an undefined id. -/
def Report.Reported (r : Report) : Prop :=
  r.handed = false → (∃ ret, ret ≠ .success ∧ r.ending = .returned ret) ∧ r.undefinedId = false

/-! ## What the halves of a call need -/

def Comm.Readable (comm : Comm) : Prop := comm ≠ .null ∧ comm ≠ .self

instance (comm : Comm) : Decidable comm.Readable := inferInstanceAs (Decidable (_ ∧ _))

section

variable (m : Machine) (myid : Int) (luck : Luck) (c : CallArgs) (mode : Mode) (me : Int)

/-- `tmpi_intra_init_sh` finds all that it needs. -/
def CanMake : Prop :=
  ∃ ch context, m.tmpiIntraGetChannel (tmpiGrankToLrank m.info me) = some ch ∧ 0 ≤ (m.len c).toInt ∧
    m.tmpiCommVerify c.comm (tmpiGrankToLrank m.info me) = some (some context) ∧
    (ch.spool.allocate = [] → luck.memory = true) ∧
    (mode = .buffered → 0 < (m.len c).toInt → luck.mbAlloc.2 ≠ none)

/-- `tmpi_intra_start_sh` finds all that it needs. -/
def CanStart : Prop :=
  if netqIsLocalNode m.info c.peer then
    m.tmpiIntraGetChannel (tmpiGrankToLrank m.info c.peer) ≠ none
  else luck.newMsg = true

/-- A receive that takes the message waits for it. -/
def Posted : Prop :=
  ∃ ch context, m.tmpiIntraGetChannel (tmpiGrankToLrank m.info c.peer) = some ch ∧
    m.tmpiCommVerify c.comm (tmpiGrankToLrank m.info me) = some (some context) ∧
    ∃ rh ∈ ch.rq, (fits ⟨context, c.tag, me⟩ rh.envelope && rh.stat.pend) = true

/-- `netq_send` gives the message to the machine of its destination. -/
def Taken : Prop :=
  luck.sendreq = true ∧ netqTransGlobalRank m.info c.peer ≠ none ∧ luck.netd = true

/-- The message gets to the matching of its destination. -/
def Hands : Prop :=
  ∃ me, netqTransLocalRank m.info myid = some me ∧ CanMake m luck c mode me ∧ CanStart m luck c ∧
    (netqIsLocalNode m.info c.peer = false → Taken m luck c)

/-- A send that gets as far as `netq_send` is given to its destination; or it is an empty buffered one, which
its wait refuses. -/
def Reports : Prop :=
  ∀ me, netqTransLocalRank m.info myid = some me → c.comm.Readable ∧
    (CanMake m luck c mode me → CanStart m luck c → netqIsLocalNode m.info c.peer = false →
      Taken m luck c ∨ (mode = .buffered ∧ (m.len c).toInt ≤ 0 ∧
        (luck.sendreq = true → netqTransGlobalRank m.info c.peer ≠ none)))

/-- `tmpi_intra_init_rh` finds all that it needs; the start that follows needs no more. -/
def CanRecv : Prop :=
  ∃ ch context, m.tmpiIntraGetChannel (tmpiGrankToLrank m.info me) = some ch ∧ 0 ≤ (m.len c).toInt ∧
    m.tmpiCommVerify c.comm (tmpiGrankToLrank m.info me) = some (some context) ∧
    (ch.rpool.allocate = [] → luck.memory = true)

/-- The receive finds a message with its data. -/
def Arrived : Prop :=
  ∃ ch context p, m.tmpiIntraGetChannel (tmpiGrankToLrank m.info me) = some ch ∧
    m.tmpiCommVerify c.comm (tmpiGrankToLrank m.info me) = some (some context) ∧
    ch.sq.find? (fun p => fits p.envelope ⟨context, c.tag, c.peer⟩ && p.stat.pend) = some p ∧
    ∀ idx stat envelope dest curdata, p ≠ .rmsh idx stat envelope dest false curdata

/-- A ready send to a thread of the same machine finds its receive, or a receive finds it before its wait. -/
def Met : Prop :=
  ∃ me, netqTransLocalRank m.info myid = some me ∧ CanMake m luck c .ready me ∧ CanStart m luck c ∧
    (Posted m c me ∨ luck.early = .matched)

/-- A receive is not left waiting for ever. -/
def Completes : Prop :=
  ∃ me, netqTransLocalRank m.info myid = some me ∧ c.comm.Readable ∧
    (CanRecv m luck c me → Arrived m c me ∨ luck.matched = true)

end

variable {m m' : Machine} {myid me : Int} {luck : Luck} {c : CallArgs} {mode : Mode} {persistent immediate : Bool}

/-! ## Sends -/

theorem tmpiCommVerify_eq_none_iff {id : Int} : m.tmpiCommVerify c.comm id = none ↔ ¬c.comm.Readable := by
  unfold Comm.Readable Machine.tmpiCommVerify
  cases c.comm with
  | null => simp
  | world => simp
  | self => simp
  | object pt2ptContext => simp

theorem CanMake.readable (can : CanMake m luck c mode me) : c.comm.Readable := by
  obtain ⟨_, context, -, -, verified, -⟩ := can
  by_contra unreadable
  rw [tmpiCommVerify_eq_none_iff.mpr unreadable] at verified
  cases verified

/-- A request that can be made is made. -/
theorem tmpiIntraInitSh_made (can : CanMake m luck c mode me) :
    ∃ sh m', m.tmpiIntraInitSh luck me mode persistent immediate c = some (.success, some sh, m') ∧
      m'.info = m.info ∧
      (∀ id, (m'.tmpiIntraGetChannel id).map Channel.rq = (m.tmpiIntraGetChannel id).map Channel.rq) ∧
      m.tmpiCommVerify c.comm (tmpiGrankToLrank m.info me) = some (some sh.envelope.context) ∧
      sh.envelope.tag = c.tag ∧ sh.envelope.src = me ∧
      sh.stat = .create ∧ sh.errval = .success ∧ sh.mode = mode ∧ sh.dest = c.peer ∧
      sh.isRemote = !netqIsLocalNode m.info c.peer ∧
      sh.sysBuf = if (mode = .standard ∨ mode = .buffered) ∧ 0 < (m.len c).toInt then luck.mbAlloc.2 else none := by
  obtain ⟨ch, context, channel, length, verified, memory, room⟩ := can
  have element : Machine.newElem luck ch.group ch.spool = some (Intra.qNewElem ch.group ch.spool) := by
    refine if_neg fun ⟨empty, lacking⟩ => ?_
    rw [memory empty] at lacking
    cases lacking
  have positive : ¬(m.len c).toInt < 0 := by omega
  have succeeds : ∀ mb : Utils.Mbuffer, ¬(mode = .buffered ∧
      (if (mode = .standard ∨ mode = .buffered) ∧ 0 < (m.len c).toInt then luck.mbAlloc else (mb, none)).2 = none ∧
        0 < (m.len c).toInt) := by
    rintro mb ⟨buffered, missing, long⟩
    rw [if_pos ⟨.inr buffered, long⟩] at missing
    exact room buffered long missing
  unfold Machine.tmpiIntraInitSh
  simp only [verified, channel, element, if_neg positive, Option.map_some]
  rw [if_neg (succeeds _)]
  refine ⟨_, _, rfl, rfl, fun id => ?_, rfl, rfl, rfl, rfl, rfl, rfl, rfl, rfl, ?_⟩
  · refine getChannel_setChannel Channel.rq channel ?_ id
    rfl
  · dsimp only
    split
    · rfl
    · rfl

theorem tmpiIntraInitSh_refused (readable : c.comm.Readable) (cannot : ¬CanMake m luck c mode me) :
    ∃ ret req m', m.tmpiIntraInitSh luck me mode persistent immediate c = some (ret, req, m') ∧ ret ≠ .success := by
  obtain ⟨tcomm, verified⟩ : ∃ tcomm, m.tmpiCommVerify c.comm (tmpiGrankToLrank m.info me) = some tcomm :=
    Option.ne_none_iff_exists'.mp fun unread => tmpiCommVerify_eq_none_iff.mp unread readable
  unfold Machine.tmpiIntraInitSh
  dsimp only
  rw [verified, Option.map_some]
  cases channel : m.tmpiIntraGetChannel (tmpiGrankToLrank m.info me) with
  | none => exact ⟨_, _, _, rfl, nofun⟩
  | some ch =>
      dsimp only
      split
      case isTrue => exact ⟨_, _, _, rfl, nofun⟩
      case isFalse length =>
        cases tcomm with
        | none => exact ⟨_, _, _, rfl, nofun⟩
        | some context =>
            dsimp only
            cases element : Machine.newElem luck ch.group ch.spool with
            | none => exact ⟨_, _, _, rfl, nofun⟩
            | some found =>
                refine ⟨_, _, _, rfl, fun success => cannot ⟨ch, context, channel, by omega, verified, fun empty => ?_,
                  fun buffered long missing => ?_⟩⟩
                · by_contra lacking
                  rw [Machine.newElem, if_pos ⟨empty, by simpa using lacking⟩] at element
                  cases element
                · have fails : mode = .buffered ∧ (if (mode = .standard ∨ mode = .buffered) ∧ 0 < (m.len c).toInt then
                      luck.mbAlloc else ((m.setChannel (tmpiGrankToLrank m.info me) { ch with spool := found.2 }).buffers
                        (tmpiGrankToLrank m.info me), none)).2 = none ∧ 0 < (m.len c).toInt := by
                    rw [if_pos ⟨Or.inr buffered, long⟩]
                    exact ⟨buffered, missing, long⟩
                  rw [if_pos fails] at success
                  cases success

theorem tmpiIntraInitSh_crashes (unreadable : ¬c.comm.Readable) :
    m.tmpiIntraInitSh luck me mode persistent immediate c = none := by
  unfold Machine.tmpiIntraInitSh
  dsimp only
  rw [tmpiCommVerify_eq_none_iff.mpr unreadable, Option.map_none]

theorem channels_present (channels : ∀ id,
    (m'.tmpiIntraGetChannel id).map Channel.rq = (m.tmpiIntraGetChannel id).map Channel.rq) (id : Int) :
    m'.tmpiIntraGetChannel id ≠ none ↔ m.tmpiIntraGetChannel id ≠ none := by
  rw [← not_iff_not, not_not, not_not, ← Option.map_eq_none_iff (f := Channel.rq), channels id, Option.map_eq_none_iff]

/-- A request that was made and can be started. -/
theorem tmpiIntraStartSh_starts {sh : SendHandle} (can : CanStart m luck c) (info : m'.info = m.info)
    (channels : ∀ id, (m'.tmpiIntraGetChannel id).map Channel.rq = (m.tmpiIntraGetChannel id).map Channel.rq)
    (verified : m.tmpiCommVerify c.comm (tmpiGrankToLrank m.info me) = some (some sh.envelope.context))
    (tag : sh.envelope.tag = c.tag) (src : sh.envelope.src = me)
    (stat : sh.stat = .create) (errval : sh.errval = .success) (dest : sh.dest = c.peer)
    (isRemote : sh.isRemote = !netqIsLocalNode m.info c.peer) :
    ∃ sh' m'', m'.tmpiIntraStartSh luck (some sh) =
        .started sh' (if netqIsLocalNode m.info c.peer then ⟨true, false⟩ else m.netqSend luck c.peer) m'' ∧
      sh'.isRemote = sh.isRemote ∧ sh'.mode = sh.mode ∧ sh'.sysBuf = sh.sysBuf ∧
      (sh'.stat = .pendStrt ∨ sh'.stat = .matched) ∧
      (sh'.stat = .matched ↔ netqIsLocalNode m.info c.peer = true ∧ Posted m c me) := by
  have startable : ¬(sh.stat ≠ .create ∧ (sh.stat ≠ .free ∨ sh.handleType ≠ .persistent)) := fun both => both.1 stat
  have fine : ¬sh.errval ≠ .success := not_not.mpr errval
  unfold CanStart at can
  unfold Machine.tmpiIntraStartSh
  dsimp only
  rw [if_neg fine]
  cases home : netqIsLocalNode m.info c.peer with
  | false =>
      rw [home, Bool.not_false] at isRemote
      rw [home] at can
      have object : ¬luck.newMsg = false := fun lacking => by simp [lacking] at can
      have send : m'.netqSend luck sh.dest = m.netqSend luck c.peer := by
        rw [Machine.netqSend, Machine.netqSend, Machine.netqRealSend, Machine.netqRealSend, info, dest]
      rw [if_pos isRemote, Machine.tmpiInterStartSh, if_neg startable, if_neg object, send]
      exact ⟨_, _, rfl, rfl, rfl, rfl, .inl rfl, by simp⟩
  | true =>
      rw [home] at can isRemote
      rw [if_pos rfl] at can
      obtain ⟨ch', channel'⟩ := Option.ne_none_iff_exists'.mp ((channels_present channels _).mpr can)
      obtain ⟨ch, channel⟩ := Option.ne_none_iff_exists'.mp can
      have queue : ch'.rq = ch.rq := by
        have same := channels (tmpiGrankToLrank m.info c.peer)
        rw [channel', channel] at same
        exact Option.some.inj same
      have away : ¬sh.isRemote = true := by
        rw [isRemote]
        exact nofun
      have posted : Posted m c me ↔ ∃ rh ∈ ch.rq, (fits sh.envelope rh.envelope && rh.stat.pend) = true := by
        have envelope : sh.envelope = ⟨sh.envelope.context, c.tag, me⟩ := by rw [← tag, ← src]
        constructor
        · rintro ⟨ch'', context, channel'', verified', found⟩
          rw [channel] at channel''
          rw [verified] at verified'
          rw [envelope, Option.some.inj (Option.some.inj verified'), Option.some.inj channel'']
          exact found
        · intro found
          rw [envelope] at found
          exact ⟨ch, _, channel, verified, found⟩
      rw [if_neg away, if_neg startable, info, dest, channel', posted]
      dsimp only
      rw [queue]
      cases search : ch.rq.find? fun rh => fits sh.envelope rh.envelope && rh.stat.pend with
      | none =>
          refine ⟨_, _, rfl, rfl, rfl, rfl, .inl rfl, iff_of_false nofun ?_⟩
          rintro ⟨-, rh, member, taken⟩
          exact List.find?_eq_none.mp search rh member taken
      | some rh =>
          have taken := List.find?_some search
          exact ⟨_, _, rfl, rfl, rfl, rfl, .inr rfl, iff_of_true rfl ⟨rfl, rh, List.mem_of_find?_eq_some search, taken⟩⟩

theorem tmpiIntraStartSh_refuses {sh : SendHandle} (cannot : ¬CanStart m luck c) (info : m'.info = m.info)
    (channels : ∀ id, (m'.tmpiIntraGetChannel id).map Channel.rq = (m.tmpiIntraGetChannel id).map Channel.rq)
    (errval : sh.errval = .success) (dest : sh.dest = c.peer)
    (isRemote : sh.isRemote = !netqIsLocalNode m.info c.peer) :
    m'.tmpiIntraStartSh luck (some sh) = .failed .errIntern := by
  have fine : ¬sh.errval ≠ .success := not_not.mpr errval
  unfold CanStart at cannot
  unfold Machine.tmpiIntraStartSh
  dsimp only
  rw [if_neg fine]
  cases home : netqIsLocalNode m.info c.peer with
  | false =>
      rw [home, Bool.not_false] at isRemote
      rw [home] at cannot
      have lacking : luck.newMsg = false := Bool.eq_false_iff.mpr cannot
      rw [if_pos isRemote, Machine.tmpiInterStartSh, if_pos lacking, ite_self]
  | true =>
      rw [home] at cannot isRemote
      rw [if_pos rfl] at cannot
      have missing : m'.tmpiIntraGetChannel (tmpiGrankToLrank m.info c.peer) = none := by
        by_contra present
        exact cannot ((channels_present channels _).mp present)
      have away : ¬sh.isRemote = true := by
        rw [isRemote]
        exact nofun
      rw [if_neg away, info, dest, missing]
      exact ite_self _

/-- How a call that sends ends. -/
theorem startCall_cases (refused : Option (Option SendHandle)) {e : Ended SendHandle}
    (call : e = startCall m myid (fun me => m.tmpiIntraInitSh luck me mode false immediate c)
      (fun m => m.tmpiIntraStartSh luck) Machine.tmpiRequestFreeSh refused) :
    (netqTransLocalRank m.info myid = none ∧ e = .failed .errIntern none (some m)) ∨
    ∃ me, netqTransLocalRank m.info myid = some me ∧
      ((¬c.comm.Readable ∧ e = .crashed) ∨
      (c.comm.Readable ∧ ¬(CanMake m luck c mode me ∧ CanStart m luck c) ∧
        ∃ ret m', ret ≠ .success ∧ e = .failed ret refused m') ∨
      (CanMake m luck c mode me ∧ CanStart m luck c ∧ ∃ sh m', e = .started sh
          (if netqIsLocalNode m.info c.peer then ⟨true, false⟩ else m.netqSend luck c.peer) m' ∧
        sh.isRemote = !netqIsLocalNode m.info c.peer ∧ sh.mode = mode ∧
        sh.sysBuf = (if (mode = .standard ∨ mode = .buffered) ∧ 0 < (m.len c).toInt then luck.mbAlloc.2 else none) ∧
        (sh.stat = .pendStrt ∨ sh.stat = .matched) ∧
        (sh.stat = .matched ↔ netqIsLocalNode m.info c.peer = true ∧ Posted m c me))) := by
  unfold startCall at call
  cases rank : netqTransLocalRank m.info myid with
  | none =>
      rw [rank] at call
      exact .inl ⟨rfl, call⟩
  | some me =>
      rw [rank] at call
      refine .inr ⟨me, rfl, ?_⟩
      dsimp only at call
      by_cases readable : c.comm.Readable
      · by_cases make : CanMake m luck c mode me
        · obtain ⟨sh, m', init, info, channels, verified, tag, src, stat, errval, isMode, dest, isRemote, sysBuf⟩ :=
            @tmpiIntraInitSh_made m me luck c mode false immediate make
          rw [init] at call
          dsimp only at call
          rw [if_neg (not_not.mpr rfl)] at call
          by_cases start : CanStart m luck c
          · obtain ⟨sh', m'', started, remote', mode', sysBuf', stat', matched⟩ :=
              tmpiIntraStartSh_starts start info channels verified tag src stat errval dest isRemote
            rw [started] at call
            exact .inr (.inr ⟨make, start, sh', m'', call, remote'.trans isRemote, mode'.trans isMode,
              sysBuf'.trans sysBuf, stat', matched⟩)
          · rw [tmpiIntraStartSh_refuses start info channels errval dest isRemote] at call
            exact .inr (.inl ⟨readable, fun both => start both.2, .errIntern, _, nofun, call⟩)
        · obtain ⟨ret, req, m', init, error⟩ :=
            @tmpiIntraInitSh_refused m me luck c mode false immediate readable make
          rw [init] at call
          dsimp only at call
          rw [if_pos error] at call
          exact .inr (.inl ⟨readable, fun both => make both.1, ret, _, error, call⟩)
      · rw [tmpiIntraInitSh_crashes readable] at call
        exact .inl ⟨readable, call⟩

theorem netqSend_handed_iff : (m.netqSend luck c.peer).handed = true ↔ Taken m luck c := by
  unfold Machine.netqSend Machine.netqRealSend Taken
  cases luck.sendreq with
  | false => simp
  | true => cases netqTransGlobalRank m.info c.peer <;> simp

theorem netqSend_undefinedId_iff : (m.netqSend luck c.peer).undefinedId = true ↔
    luck.sendreq = true ∧ netqTransGlobalRank m.info c.peer = none := by
  unfold Machine.netqSend Machine.netqRealSend
  cases luck.sendreq with
  | false => simp
  | true => cases netqTransGlobalRank m.info c.peer <;> simp

/-- The wait for a remote send that was not handed over. -/
theorem waitStarted_lost {sh : SendHandle} {sent : Sent} (lost : sent.handed = false) (stat : sh.stat = .pendStrt)
    (isRemote : sh.isRemote = true) : waitStarted luck sent sh =
      match sh.mode with
      | .sync | .ready => .blocked
      | .buffered => waitBuffer sh
      | .standard => if sh.sysBuf.isSome then .returned .success else .blocked := by
  have pending : Stat.any .pendStrt [.pendStrt, .matched, .pendNrdy, .pendData] = true := by decide
  unfold waitStarted tmpiIntraWaitSh tmpiInterWaitSh interWaitMode
  rw [if_neg (not_not.mpr stat), if_neg (by simp [lost]), if_pos isRemote, stat, pending]
  cases mode : sh.mode with
  | sync => simp [waitMatch]
  | ready => simp
  | buffered => simp
  | standard =>
      cases sysBuf : sh.sysBuf with
      | none => simp [waitMatch]
      | some item => simp [waitBuffer, sysBuf]

/-- Whether a lost message is reported depends on its mode and its length. -/
theorem waitStarted_lost_iff {sh : SendHandle} {sent : Sent} (lost : sent.handed = false) (stat : sh.stat = .pendStrt)
    (isRemote : sh.isRemote = true) (make : CanMake m luck c mode me) (isMode : sh.mode = mode)
    (sysBuf : sh.sysBuf = if (mode = .standard ∨ mode = .buffered) ∧ 0 < (m.len c).toInt then luck.mbAlloc.2
      else none) :
    (∃ ret, ret ≠ .success ∧ waitStarted luck sent sh = .returned ret) ↔
      mode = .buffered ∧ (m.len c).toInt ≤ 0 := by
  rw [waitStarted_lost lost stat isRemote, isMode]
  obtain ⟨ch, context, -, -, -, -, room⟩ := make
  cases mode with
  | sync => simp
  | ready => simp
  | standard =>
      dsimp only
      split
      · simp
      · simp
  | buffered =>
      dsimp only
      by_cases long : 0 < (m.len c).toInt
      · obtain ⟨item, found⟩ := Option.ne_none_iff_exists'.mp (room rfl long)
        rw [if_pos ⟨.inr rfl, long⟩, found] at sysBuf
        simp [waitBuffer, sysBuf, long]
      · rw [if_neg fun both => long both.2] at sysBuf
        simp [waitBuffer, sysBuf]
        omega

/-- The report of a send is right exactly when its message gets through, or cannot get lost unseen. -/
theorem sendReport_iff {refused : Option (Option SendHandle)} {e : Ended SendHandle}
    (call : e = startCall m myid (fun me => m.tmpiIntraInitSh luck me mode false immediate c)
      (fun m => m.tmpiIntraStartSh luck) Machine.tmpiRequestFreeSh refused) :
    (sendReport luck e).Reported ↔ Reports m myid luck c mode := by
  unfold Report.Reported Reports
  rcases startCall_cases refused call with ⟨rank, rfl⟩ | ⟨me, rank, ⟨unreadable, rfl⟩ |
    ⟨readable, cannot, ret, m', error, rfl⟩ | ⟨make, start, sh, m', rfl, isRemote, isMode, sysBuf, stat, matched⟩⟩
  · refine iff_of_true (fun _ => ⟨⟨.errIntern, nofun, rfl⟩, rfl⟩) fun me here => ?_
    rw [rank] at here
    cases here
  · refine iff_of_false (fun reported => ?_) fun reports => unreadable (reports me rank).1
    obtain ⟨⟨ret, -, crashed⟩, -⟩ := reported rfl
    cases crashed
  · refine iff_of_true (fun _ => ⟨⟨ret, error, rfl⟩, rfl⟩) fun me' here => ⟨readable, fun make start => ?_⟩
    rw [rank] at here
    exact absurd ⟨Option.some.inj here ▸ make, start⟩ cannot
  · have only : (∀ me', netqTransLocalRank m.info myid = some me' → c.comm.Readable ∧
        (CanMake m luck c mode me' → CanStart m luck c → netqIsLocalNode m.info c.peer = false →
          Taken m luck c ∨ (mode = .buffered ∧ (m.len c).toInt ≤ 0 ∧
            (luck.sendreq = true → netqTransGlobalRank m.info c.peer ≠ none)))) ↔
        (netqIsLocalNode m.info c.peer = false → Taken m luck c ∨ (mode = .buffered ∧ (m.len c).toInt ≤ 0 ∧
          (luck.sendreq = true → netqTransGlobalRank m.info c.peer ≠ none))) := by
      constructor
      · exact fun all => (all me rank).2 make start
      · exact fun here me' _ => ⟨make.readable, fun _ _ => here⟩
    rw [only]
    cases home : netqIsLocalNode m.info c.peer with
    | true => exact iff_of_true nofun nofun
    | false =>
        rw [home] at isRemote matched
        have pending : sh.stat = .pendStrt := stat.resolve_right fun here => by simpa using matched.mp here
        by_cases taken : Taken m luck c
        · refine iff_of_true (fun lost => ?_) fun _ => .inl taken
          have handed : (m.netqSend luck c.peer).handed = true := netqSend_handed_iff.mpr taken
          have lost' : (m.netqSend luck c.peer).handed = false := lost
          rw [handed] at lost'
          cases lost'
        · have lost : (m.netqSend luck c.peer).handed = false :=
            Bool.eq_false_iff.mpr fun handed => taken (netqSend_handed_iff.mp handed)
          have known : (m.netqSend luck c.peer).undefinedId = false ↔
              (luck.sendreq = true → netqTransGlobalRank m.info c.peer ≠ none) := by
            rw [Bool.eq_false_iff, ne_eq, netqSend_undefinedId_iff, not_and]
          have told := waitStarted_lost_iff lost pending isRemote make isMode sysBuf
          constructor
          · intro reported _
            obtain ⟨ending, id⟩ := reported lost
            obtain ⟨buffered, short⟩ := told.mp ending
            exact .inr ⟨buffered, short, known.mp id⟩
          · intro condition _
            obtain ⟨buffered, short, range⟩ := (condition rfl).resolve_left taken
            exact ⟨told.mpr ⟨buffered, short⟩, known.mpr range⟩

/-- A message is handed over exactly when nothing that it needs is missing. -/
theorem sent_handed_iff {refused : Option (Option SendHandle)} {e : Ended SendHandle}
    (call : e = startCall m myid (fun me => m.tmpiIntraInitSh luck me mode false immediate c)
      (fun m => m.tmpiIntraStartSh luck) Machine.tmpiRequestFreeSh refused) :
    e.sent.handed = true ↔ Hands m myid luck c mode := by
  rcases startCall_cases refused call with ⟨rank, rfl⟩ | ⟨me, rank, ⟨unreadable, rfl⟩ |
    ⟨readable, cannot, ret, m', error, rfl⟩ | ⟨make, start, sh, m', rfl, -⟩⟩
  · refine iff_of_false nofun ?_
    rintro ⟨me, here, -⟩
    rw [rank] at here
    cases here
  · refine iff_of_false nofun ?_
    rintro ⟨me, -, make, -⟩
    exact unreadable make.readable
  · refine iff_of_false nofun ?_
    rintro ⟨me', here, make, start, -⟩
    rw [rank] at here
    exact cannot ⟨Option.some.inj here ▸ make, start⟩
  · have hands : Hands m myid luck c mode ↔ (netqIsLocalNode m.info c.peer = false → Taken m luck c) := by
      constructor
      · rintro ⟨_, -, -, -, taken⟩
        exact taken
      · exact fun taken => ⟨me, rank, make, start, taken⟩
    rw [hands]
    cases netqIsLocalNode m.info c.peer with
    | true => exact iff_of_true rfl nofun
    | false => exact netqSend_handed_iff.trans ⟨fun taken _ => taken, fun taken => taken rfl⟩

/-! ## Receives -/

theorem tmpiIntraInitRh_made (can : CanRecv m luck c me) :
    ∃ rh m', m.tmpiIntraInitRh luck me persistent immediate c = some (.success, some rh, m') ∧
      m'.info = m.info ∧
      (∀ id, (m'.tmpiIntraGetChannel id).map Channel.sq = (m.tmpiIntraGetChannel id).map Channel.sq) ∧
      m.tmpiCommVerify c.comm (tmpiGrankToLrank m.info me) = some (some rh.envelope.context) ∧
      rh.envelope.tag = c.tag ∧ rh.envelope.src = c.peer ∧ rh.stat = .create ∧ rh.errval = .success ∧
      rh.dest = me := by
  obtain ⟨ch, context, channel, length, verified, memory⟩ := can
  have element : Machine.newElem luck ch.group ch.rpool = some (Intra.qNewElem ch.group ch.rpool) := by
    refine if_neg fun ⟨empty, lacking⟩ => ?_
    rw [memory empty] at lacking
    cases lacking
  have positive : ¬(m.len c).toInt < 0 := by omega
  unfold Machine.tmpiIntraInitRh
  simp only [verified, channel, element, if_neg positive, Option.map_some]
  refine ⟨_, _, rfl, rfl, fun id => ?_, rfl, rfl, rfl, rfl, rfl, rfl⟩
  refine getChannel_setChannel Channel.sq channel ?_ id
  rfl

theorem tmpiIntraInitRh_refused (readable : c.comm.Readable) (cannot : ¬CanRecv m luck c me) :
    ∃ ret req m', m.tmpiIntraInitRh luck me persistent immediate c = some (ret, req, m') ∧ ret ≠ .success := by
  obtain ⟨tcomm, verified⟩ : ∃ tcomm, m.tmpiCommVerify c.comm (tmpiGrankToLrank m.info me) = some tcomm :=
    Option.ne_none_iff_exists'.mp fun unread => tmpiCommVerify_eq_none_iff.mp unread readable
  unfold Machine.tmpiIntraInitRh
  dsimp only
  rw [verified, Option.map_some]
  cases channel : m.tmpiIntraGetChannel (tmpiGrankToLrank m.info me) with
  | none => exact ⟨_, _, _, rfl, nofun⟩
  | some ch =>
      dsimp only
      split
      case isTrue => exact ⟨_, _, _, rfl, nofun⟩
      case isFalse length =>
        cases tcomm with
        | none => exact ⟨_, _, _, rfl, nofun⟩
        | some context =>
            dsimp only
            cases element : Machine.newElem luck ch.group ch.rpool with
            | none => exact ⟨_, _, _, rfl, nofun⟩
            | some found =>
                refine absurd ⟨ch, context, channel, by omega, verified, fun empty => ?_⟩ cannot
                by_contra lacking
                rw [Machine.newElem, if_pos ⟨empty, by simpa using lacking⟩] at element
                cases element

theorem tmpiIntraInitRh_crashes (unreadable : ¬c.comm.Readable) :
    m.tmpiIntraInitRh luck me persistent immediate c = none := by
  unfold Machine.tmpiIntraInitRh
  dsimp only
  rw [tmpiCommVerify_eq_none_iff.mpr unreadable, Option.map_none]

theorem CanRecv.readable (can : CanRecv m luck c me) : c.comm.Readable := by
  obtain ⟨_, context, -, -, verified, -⟩ := can
  by_contra unreadable
  rw [tmpiCommVerify_eq_none_iff.mpr unreadable] at verified
  cases verified

/-- A receive that was made is started. -/
theorem tmpiIntraStartRh_starts {rh : RecvHandle} (can : CanRecv m luck c me) (info : m'.info = m.info)
    (channels : ∀ id, (m'.tmpiIntraGetChannel id).map Channel.sq = (m.tmpiIntraGetChannel id).map Channel.sq)
    (verified : m.tmpiCommVerify c.comm (tmpiGrankToLrank m.info me) = some (some rh.envelope.context))
    (tag : rh.envelope.tag = c.tag) (src : rh.envelope.src = c.peer)
    (stat : rh.stat = .create) (errval : rh.errval = .success) (dest : rh.dest = me) :
    ∃ rh' m'', m'.tmpiIntraStartRh (some rh) = .started rh' ⟨false, false⟩ m'' ∧
      (rh'.stat = .pendStrt ∨ rh'.stat = .matched ∨ rh'.stat = .pendData) ∧
      (rh'.stat = .matched ↔ Arrived m c me) := by
  obtain ⟨ch, _, channel, -⟩ := can
  have there := channels (tmpiGrankToLrank m.info me)
  rw [channel] at there
  obtain ⟨ch', channel', queue⟩ := Option.map_eq_some_iff.mp there
  have envelope : rh.envelope = ⟨rh.envelope.context, c.tag, c.peer⟩ := by rw [← tag, ← src]
  have arrived : Arrived m c me ↔ ∃ p, ch.sq.find? (fun p => fits p.envelope rh.envelope && p.stat.pend) = some p ∧
      ∀ idx stat envelope dest curdata, p ≠ .rmsh idx stat envelope dest false curdata := by
    constructor
    · rintro ⟨ch'', context, p, channel'', verified', found, kind⟩
      rw [channel] at channel''
      rw [verified] at verified'
      rw [envelope, Option.some.inj (Option.some.inj verified'), Option.some.inj channel'']
      exact ⟨p, found, kind⟩
    · rintro ⟨p, found, kind⟩
      rw [envelope] at found
      exact ⟨ch, _, p, channel, verified, found, kind⟩
  unfold Machine.tmpiIntraStartRh
  dsimp only
  rw [if_neg (not_not.mpr errval), if_neg (not_not.mpr stat), info, dest, channel', arrived]
  dsimp only
  rw [queue]
  cases search : ch.sq.find? fun p => fits p.envelope rh.envelope && p.stat.pend with
  | none =>
      refine ⟨_, _, rfl, .inl rfl, iff_of_false nofun ?_⟩
      rintro ⟨p, found, -⟩
      cases found
  | some p =>
      cases p with
      | sh h => exact ⟨_, _, rfl, .inr (.inl rfl), iff_of_true rfl ⟨_, rfl, nofun⟩⟩
      | rmsh idx stat envelope dest msgdat curdata =>
          cases msgdat with
          | true => exact ⟨_, _, rfl, .inr (.inl rfl), iff_of_true rfl ⟨_, rfl, nofun⟩⟩
          | false =>
              refine ⟨_, _, rfl, .inr (.inr rfl), iff_of_false nofun ?_⟩
              rintro ⟨_, found, kind⟩
              exact kind _ _ _ _ _ (Option.some.inj found).symm

/-- How a call that receives ends. -/
theorem recvCall_cases (refused : Option (Option RecvHandle)) {e : Ended RecvHandle}
    (call : e = startCall m myid (fun me => m.tmpiIntraInitRh luck me false immediate c)
      Machine.tmpiIntraStartRh Machine.tmpiRequestFreeRh refused) :
    (netqTransLocalRank m.info myid = none ∧ e = .failed .errIntern none (some m)) ∨
    ∃ me, netqTransLocalRank m.info myid = some me ∧
      ((¬c.comm.Readable ∧ e = .crashed) ∨
      (c.comm.Readable ∧ ¬CanRecv m luck c me ∧ ∃ ret m', ret ≠ .success ∧ e = .failed ret refused m') ∨
      (CanRecv m luck c me ∧ ∃ rh m', e = .started rh ⟨false, false⟩ m' ∧
        (rh.stat = .pendStrt ∨ rh.stat = .matched ∨ rh.stat = .pendData) ∧
        (rh.stat = .matched ↔ Arrived m c me))) := by
  unfold startCall at call
  cases rank : netqTransLocalRank m.info myid with
  | none =>
      rw [rank] at call
      exact .inl ⟨rfl, call⟩
  | some me =>
      rw [rank] at call
      refine .inr ⟨me, rfl, ?_⟩
      dsimp only at call
      by_cases readable : c.comm.Readable
      · by_cases can : CanRecv m luck c me
        · obtain ⟨rh, m', init, info, channels, verified, tag, src, stat, errval, dest⟩ :=
            @tmpiIntraInitRh_made m me luck c false immediate can
          obtain ⟨rh', m'', started, stat', matched⟩ :=
            tmpiIntraStartRh_starts can info channels verified tag src stat errval dest
          rw [init] at call
          dsimp only at call
          rw [if_neg (not_not.mpr rfl), started] at call
          exact .inr (.inr ⟨can, rh', m'', call, stat', matched⟩)
        · obtain ⟨ret, req, m', init, error⟩ :=
            @tmpiIntraInitRh_refused m me luck c false immediate readable can
          rw [init] at call
          dsimp only at call
          rw [if_pos error] at call
          exact .inr (.inl ⟨readable, can, ret, _, error, call⟩)
      · rw [tmpiIntraInitRh_crashes readable] at call
        exact .inl ⟨readable, call⟩

/-- The second half of a call that sends and receives. -/
def recvEnding (luck : Luck) (e : Ended RecvHandle) : Ending :=
  e.ending.andThen fun _ => tmpiWait (tmpiIntraWaitRh luck) e.request

theorem recvEnding_cases (luck : Luck) {e : Ended RecvHandle} (call : e = tmpiIrecv m myid luck c) :
    (recvEnding luck e = .returned .success ∧ Completes m myid luck c) ∨
    ((recvEnding luck e = .blocked ∨ recvEnding luck e = .crashed) ∧ ¬Completes m myid luck c) := by
  have only : ∀ me, netqTransLocalRank m.info myid = some me → (Completes m myid luck c ↔ c.comm.Readable ∧
      (CanRecv m luck c me → Arrived m c me ∨ luck.matched = true)) := by
    intro me rank
    constructor
    · rintro ⟨me', rank', completes⟩
      rw [rank] at rank'
      rw [Option.some.inj rank']
      exact completes
    · exact fun completes => ⟨me, rank, completes⟩
  rcases recvCall_cases (some none) call with ⟨rank, rfl⟩ | ⟨me, rank, ⟨unreadable, rfl⟩ |
    ⟨readable, cannot, ret, m', error, rfl⟩ | ⟨can, rh, m', rfl, stat, matched⟩⟩
  · refine .inr ⟨.inr rfl, ?_⟩
    rintro ⟨me, here, -⟩
    rw [rank] at here
    cases here
  · exact .inr ⟨.inr rfl, fun completes => unreadable ((only me rank).mp completes).1⟩
  · exact .inl ⟨rfl, (only me rank).mpr ⟨readable, fun can => absurd can cannot⟩⟩
  · rw [only me rank]
    have waits : recvEnding luck (.started rh ⟨false, false⟩ m') =
        if rh.stat = .matched then .returned .success else waitMatch luck := by
      have posted : rh.stat.any [.pendStrt, .matched, .pendData] = true := by
        rcases stat with stat | stat | stat <;> rw [stat] <;> decide
      show tmpiIntraWaitRh luck rh = _
      rw [tmpiIntraWaitRh, posted]
      rfl
    rw [waits]
    by_cases here : rh.stat = .matched
    · exact .inl ⟨if_pos here, can.readable, fun _ => .inl (matched.mp here)⟩
    · rw [if_neg here, waitMatch]
      cases later : luck.matched with
      | true => exact .inl ⟨rfl, can.readable, fun _ => .inr rfl⟩
      | false =>
          refine .inr ⟨.inl rfl, fun completes => ?_⟩
          rcases completes.2 can with arrived | impossible
          · exact here (matched.mpr arrived)
          · cases impossible

/-! ## Calls that send and receive -/

/-- No error is returned. -/
def Ending.Quiet (e : Ending) : Prop := ∀ ret, e = .returned ret → ret = .success

theorem Ending.quiet_andThen {e : Ending} {rest : Ret → Ending}
    (quiet : ∀ ret, e = .returned ret → (rest ret).Quiet) : (e.andThen rest).Quiet := by
  cases e with
  | returned ret => exact quiet ret rfl
  | blocked => exact nofun
  | crashed => exact nofun

theorem Ending.andThen_assoc (e : Ending) (f g : Ret → Ending) :
    (e.andThen f).andThen g = e.andThen fun ret => (f ret).andThen g := by
  cases e with
  | returned ret => rfl
  | blocked => rfl
  | crashed => rfl

theorem firstError_success (ret : Ret) : firstError ret .success = ret := by
  cases ret <;> rfl

theorem recvEnding_quiet (luck : Luck) {e : Ended RecvHandle} (call : e = tmpiIrecv m myid luck c) :
    (recvEnding luck e).Quiet := by
  intro ret ending
  rcases recvEnding_cases luck call with ⟨success, -⟩ | ⟨blocked | crashed, -⟩
  · rw [success] at ending
    exact (Ending.returned.inj ending).symm
  · rw [blocked] at ending
    cases ending
  · rw [crashed] at ending
    cases ending

/-- The wait for an immediate send whose message was not handed over returns no error. -/
theorem isend_quiet {e : Ended SendHandle} (call : e = tmpiIsend m myid luck c) (lost : e.sent.handed = false) :
    (tmpiWait (waitStarted luck e.sent) e.request).Quiet := by
  rcases startCall_cases (some none) call with ⟨rank, rfl⟩ | ⟨me, rank, ⟨unreadable, rfl⟩ |
    ⟨readable, cannot, ret, m', error, rfl⟩ | ⟨make, start, sh, m', rfl, isRemote, isMode, -, stat, matched⟩⟩
  · exact nofun
  · exact nofun
  · intro ret ending
    exact (Ending.returned.inj ending).symm
  · cases home : netqIsLocalNode m.info c.peer with
    | true =>
        rw [home] at lost
        cases lost
    | false =>
        rw [home] at isRemote matched lost
        have pending : sh.stat = .pendStrt := stat.resolve_right fun here => by simpa using matched.mp here
        have waits := @waitStarted_lost luck _ _ lost pending isRemote
        rw [isMode] at waits
        intro ret ending
        have returned : waitStarted luck (m.netqSend luck c.peer) sh = .returned ret := ending
        have lost' : waitStarted luck (m.netqSend luck c.peer) sh =
            if sh.sysBuf.isSome then .returned .success else .blocked := waits
        rw [lost'] at returned
        split at returned
        · exact (Ending.returned.inj returned).symm
        · cases returned

theorem tmpiSendrecv_iff {m1 m2 : Machine} {luck1 luck2 : Luck} {send recv : CallArgs} :
    (tmpiSendrecv m1 m2 myid luck1 luck2 send recv).Reported ↔ Hands m1 myid luck1 send .standard := by
  have handed : (tmpiIsend m1 myid luck1 send).sent.handed = true ↔ Hands m1 myid luck1 send .standard :=
    sent_handed_iff rfl
  constructor
  · intro reported
    by_contra missing
    have lost : (tmpiIsend m1 myid luck1 send).sent.handed = false :=
      Bool.eq_false_iff.mpr fun here => missing (handed.mp here)
    obtain ⟨⟨ret, error, ending⟩, -⟩ := reported lost
    refine error (Ending.quiet_andThen (fun _ _ => ?_) ret ending)
    have receives := recvEnding_quiet luck2 (rfl : tmpiIrecv m2 myid luck2 { recv with comm := send.comm } = _)
    unfold recvEnding at receives
    cases begun : (tmpiIrecv m2 myid luck2 { recv with comm := send.comm }).ending with
    | blocked => exact nofun
    | crashed => exact nofun
    | returned ret' =>
        rw [begun] at receives
        refine Ending.quiet_andThen fun _ _ => Ending.quiet_andThen fun ret1 first =>
          Ending.quiet_andThen fun ret2 second => ?_
        have none1 := isend_quiet rfl lost ret1 first
        have none2 := receives ret2 second
        intro ret same
        rw [← Ending.returned.inj same, none1, none2]
        rfl
  · intro hands lost
    have both : (tmpiIsend m1 myid luck1 send).sent.handed = false := lost
    rw [handed.mpr hands] at both
    cases both

/-- A ready send within the machine. -/
theorem tmpiRsend_cases (home : netqIsLocalNode m.info c.peer = true) :
    ((∃ me, netqTransLocalRank m.info myid = some me) ∧ ¬c.comm.Readable ∧
        (sendReport luck (tmpiRsend m myid luck c)).ending = .crashed ∧
        (sendReport luck (tmpiRsend m myid luck c)).handed = false) ∨
    (∀ me, netqTransLocalRank m.info myid = some me → c.comm.Readable) ∧
      ((Met m myid luck c ∧ (sendReport luck (tmpiRsend m myid luck c)).ending = .returned .success ∧
          (sendReport luck (tmpiRsend m myid luck c)).handed = true) ∨
        (¬Met m myid luck c ∧ ∃ ret, ret ≠ .success ∧
          (sendReport luck (tmpiRsend m myid luck c)).ending = .returned ret)) := by
  obtain ⟨e, call⟩ : ∃ e, e = tmpiRsend m myid luck c := ⟨_, rfl⟩
  rw [← call]
  rcases startCall_cases none call with ⟨rank, rfl⟩ | ⟨me, rank, ⟨unreadable, rfl⟩ |
    ⟨readable, cannot, ret, m', error, rfl⟩ | ⟨make, start, sh, m', rfl, isRemote, isMode, -, stat, matched⟩⟩
  · have nobody : ∀ me, netqTransLocalRank m.info myid ≠ some me := fun me here => by
      rw [rank] at here
      cases here
    refine .inr ⟨fun me here => absurd here (nobody me), .inr ⟨?_, .errIntern, nofun, rfl⟩⟩
    rintro ⟨me, here, -⟩
    exact nobody me here
  · exact .inl ⟨⟨me, rank⟩, unreadable, rfl, rfl⟩
  · refine .inr ⟨fun _ _ => readable, .inr ⟨?_, ret, error, rfl⟩⟩
    rintro ⟨me', here, make, start, -⟩
    rw [rank] at here
    exact cannot ⟨Option.some.inj here ▸ make, start⟩
  · refine .inr ⟨fun _ _ => make.readable, ?_⟩
    have met : Met m myid luck c ↔ sh.stat = .matched ∨ luck.early = .matched := by
      rw [matched]
      constructor
      · rintro ⟨me', here, -, -, posted | early⟩
        · rw [rank] at here
          exact .inl ⟨home, Option.some.inj here ▸ posted⟩
        · exact .inr early
      · rintro (⟨-, posted⟩ | early)
        · exact ⟨me, rank, make, start, .inl posted⟩
        · exact ⟨me, rank, make, start, .inr early⟩
    rw [home] at isRemote
    have away : ¬sh.isRemote = true := by
      rw [isRemote]
      exact nofun
    have waits : (sendReport luck (.started sh (if netqIsLocalNode m.info c.peer then ⟨true, false⟩ else
        m.netqSend luck c.peer) m')).ending = waitStarted luck ⟨true, false⟩ sh := by
      rw [home]
      rfl
    have handed : (sendReport luck (.started sh (if netqIsLocalNode m.info c.peer then ⟨true, false⟩ else
        m.netqSend luck c.peer) m')).handed = true := by
      rw [home]
      rfl
    rw [waits, handed, met, waitStarted]
    by_cases here : sh.stat = .matched
    · have ends : tmpiIntraWaitSh luck sh = .returned .success := by
        rw [tmpiIntraWaitSh, if_neg away, here]
        rfl
      rw [here, if_pos nofun, ends]
      exact .inl ⟨.inl rfl, rfl, rfl⟩
    · have pending : sh.stat = .pendStrt := stat.resolve_right here
      have ends : tmpiIntraWaitSh luck { sh with stat := luck.early } =
          if !luck.early.any [.pendStrt, .matched] then .returned .errIntern
          else if luck.early = .matched then .returned .success else .returned .errNrdy := by
        rw [tmpiIntraWaitSh, if_neg away, isMode]
      rw [if_neg (not_not.mpr pending), if_pos rfl, ends, or_iff_right here]
      by_cases early : luck.early = .matched
      · rw [early]
        exact .inl ⟨rfl, rfl, rfl⟩
      · rw [if_neg early]
        refine .inr ⟨early, ?_⟩
        split
        · exact ⟨.errIntern, nofun, rfl⟩
        · exact ⟨.errNrdy, nofun, rfl⟩

theorem tmpiSendrecvReplace_iff {m1 m2 m3 : Machine} {luck1 luck2 luck3 : Luck} {send recv : CallArgs} :
    (tmpiSendrecvReplace m1 m2 m3 myid luck1 luck2 luck3 send recv).Reported ↔
      (netqIsLocalNode m1.info send.peer = true → ∀ me, netqTransLocalRank m1.info myid = some me → send.comm.Readable) ∧
      ((netqIsLocalNode m1.info send.peer = true ∧ Met m1 myid luck1 send) ∨ Hands m2 myid luck2 send .buffered ∨
        (Reports m2 myid luck2 send .buffered ∧ Completes m3 myid luck3 { recv with comm := send.comm })) := by
  have handed : (tmpiBsend m2 myid luck2 send).sent.handed = true ↔ Hands m2 myid luck2 send .buffered :=
    sent_handed_iff rfl
  have reports : (sendReport luck2 (tmpiBsend m2 myid luck2 send)).Reported ↔ Reports m2 myid luck2 send .buffered :=
    sendReport_iff rfl
  have receives := recvEnding_cases luck3 (rfl : tmpiIrecv m3 myid luck3 { recv with comm := send.comm } = _)
  -- the second send counts unless the first one was matched, or never came back
  have second : replaceSends m1 m2 myid luck1 luck2 send = sendReport luck2 (tmpiBsend m2 myid luck2 send) →
      ((tmpiSendrecvReplace m1 m2 m3 myid luck1 luck2 luck3 send recv).Reported ↔
        Hands m2 myid luck2 send .buffered ∨
          (Reports m2 myid luck2 send .buffered ∧ Completes m3 myid luck3 { recv with comm := send.comm })) := by
    intro same
    rw [← handed, ← reports]
    have ending : (tmpiSendrecvReplace m1 m2 m3 myid luck1 luck2 luck3 send recv).ending =
        (sendReport luck2 (tmpiBsend m2 myid luck2 send)).ending.andThen fun ret1 =>
          (recvEnding luck3 (tmpiIrecv m3 myid luck3 { recv with comm := send.comm })).andThen fun ret2 =>
            .returned (firstError ret1 ret2) := by
      unfold tmpiSendrecvReplace recvEnding
      rw [same]
      simp only [Ending.andThen_assoc]
    have isHanded : (tmpiSendrecvReplace m1 m2 m3 myid luck1 luck2 luck3 send recv).handed =
        (sendReport luck2 (tmpiBsend m2 myid luck2 send)).handed := by
      rw [← same]
      rfl
    have isUndefined : (tmpiSendrecvReplace m1 m2 m3 myid luck1 luck2 luck3 send recv).undefinedId =
        (sendReport luck2 (tmpiBsend m2 myid luck2 send)).undefinedId := by
      rw [← same]
      rfl
    have sent : (tmpiBsend m2 myid luck2 send).sent.handed = (sendReport luck2 (tmpiBsend m2 myid luck2 send)).handed :=
      rfl
    unfold Report.Reported
    rw [ending, isHanded, isUndefined, sent]
    generalize sendReport luck2 (tmpiBsend m2 myid luck2 send) = r at *
    cases isSent : r.handed with
    | true => exact iff_of_true nofun (.inl rfl)
    | false =>
        rcases receives with ⟨success, completes⟩ | ⟨stuck, completes⟩
        · have whole : (r.ending.andThen fun ret1 => (Ending.returned .success).andThen fun ret2 =>
              .returned (firstError ret1 ret2)) = r.ending := by
            cases r.ending with
            | returned ret => exact congrArg Ending.returned (firstError_success ret)
            | blocked => rfl
            | crashed => rfl
          rw [success, whole]
          simp [completes]
        · have never : ∀ ret, (r.ending.andThen fun ret1 =>
              (recvEnding luck3 (tmpiIrecv m3 myid luck3 { recv with comm := send.comm })).andThen fun ret2 =>
                .returned (firstError ret1 ret2)) ≠ .returned ret := by
            intro ret
            rcases stuck with stuck | stuck
            · rw [stuck]
              cases r.ending <;> exact nofun
            · rw [stuck]
              cases r.ending <;> exact nofun
          simp [completes, never]
  cases home : netqIsLocalNode m1.info send.peer with
  | false =>
      have bsend : replaceSends m1 m2 myid luck1 luck2 send = sendReport luck2 (tmpiBsend m2 myid luck2 send) := by
        unfold replaceSends
        rw [home]
        rfl
      simpa using second bsend
  | true =>
      have first : ∀ ending, (sendReport luck1 (tmpiRsend m1 myid luck1 send)).ending = ending →
          replaceSends m1 m2 myid luck1 luck2 send = match ending with
            | .returned .success => sendReport luck1 (tmpiRsend m1 myid luck1 send)
            | .returned _ => sendReport luck2 (tmpiBsend m2 myid luck2 send)
            | _ => sendReport luck1 (tmpiRsend m1 myid luck1 send) := by
        rintro _ rfl
        unfold replaceSends
        rw [home]
        rfl
      rcases @tmpiRsend_cases m1 myid luck1 send home with ⟨⟨me, rank⟩, unreadable, crashed, lost⟩ |
        ⟨readable, ⟨met, success, isSent⟩ | ⟨unmet, ret, error, failed⟩⟩
      · have sends := first _ crashed
        refine iff_of_false (fun reported => ?_) fun both => unreadable (both.1 rfl me rank)
        have unsent : (replaceSends m1 m2 myid luck1 luck2 send).handed = false := by
          rw [sends]
          exact lost
        obtain ⟨⟨ret, -, ending⟩, -⟩ := reported unsent
        unfold tmpiSendrecvReplace at ending
        rw [sends] at ending
        dsimp only at ending
        rw [crashed] at ending
        cases ending
      · have sends := first _ success
        refine iff_of_true (fun lost => ?_) ⟨fun _ => readable, .inl ⟨rfl, met⟩⟩
        have unsent : (replaceSends m1 m2 myid luck1 luck2 send).handed = false := lost
        rw [sends] at unsent
        dsimp only at unsent
        rw [isSent] at unsent
        cases unsent
      · have bsend : replaceSends m1 m2 myid luck1 luck2 send = sendReport luck2 (tmpiBsend m2 myid luck2 send) := by
          rw [first _ failed]
          cases ret with
          | success => exact absurd rfl error
          | errBuffer | errComm | errIntern | errRequest | errNrdy => rfl
        rw [second bsend]
        constructor
        · exact fun reports => ⟨fun _ => readable, .inr reports⟩
        · exact fun both => both.2.resolve_left fun here => unmet here.2

/-- Exactly when a message that was not handed over is reported, for each kind of send, for both ways to wait for
it, and for the calls that receive as well. -/
theorem unsent_reported_iff {m1 m2 m3 : Machine} {myid : Int} {luck1 luck2 luck3 : Luck} {send recv : CallArgs} :
    (∀ mode, ((sendReport luck1 (sendCall m1 myid luck1 send mode)).Reported ↔ Reports m1 myid luck1 send mode) ∧
      ((sendReport luck1 (isendCall m1 myid luck1 send mode)).Reported ↔ Reports m1 myid luck1 send mode)) ∧
    ((tmpiSendrecv m1 m2 myid luck1 luck2 send recv).Reported ↔ Hands m1 myid luck1 send .standard) ∧
    ((tmpiSendrecvReplace m1 m2 m3 myid luck1 luck2 luck3 send recv).Reported ↔
      (netqIsLocalNode m1.info send.peer = true →
        ∀ me, netqTransLocalRank m1.info myid = some me → send.comm.Readable) ∧
      ((netqIsLocalNode m1.info send.peer = true ∧ Met m1 myid luck1 send) ∨ Hands m2 myid luck2 send .buffered ∨
        (Reports m2 myid luck2 send .buffered ∧ Completes m3 myid luck3 { recv with comm := send.comm }))) :=
  ⟨fun _ => ⟨sendReport_iff rfl, sendReport_iff rfl⟩, tmpiSendrecv_iff, tmpiSendrecvReplace_iff⟩

/-- One rank on one machine. -/
def lonely : Machine where
  platform := Netd.intPlatform
  sizeofLongDouble := 16
  info := ⟨[⟨0, 0⟩], [0], 0⟩
  channels := [some ⟨2, by decide, ⟨2, [0, 1]⟩, ⟨2, [0, 1]⟩, [], []⟩]
  commWorld := fun _ => some 0
  buffers := fun _ => Utils.mbInit (fun _ => ⟨none, none, true, 0⟩) 0 4096

/-- Nothing is missing, and a system buffer is found. -/
def fairLuck : Luck := ⟨true, (lonely.buffers 0, some 32), true, true, true, .pendStrt, none, true⟩

/-- Neither half of a send and receive on a communicator without its cookie is made, and the call succeeds; so
does a buffered send to a rank that does not exist. -/
theorem unsent_unreported :
    (tmpiSendrecv lonely lonely 0 fairLuck fairLuck ⟨.object none, 0, 5, .int, 1⟩ ⟨.object none, 0, 5, .int, 1⟩ =
      ⟨.returned .success, false, false⟩) ∧
    (sendReport fairLuck (sendCall lonely 0 fairLuck ⟨.world, 7, 5, .int, 1⟩ .buffered) =
      ⟨.returned .success, false, true⟩) ∧
    ¬(tmpiSendrecv lonely lonely 0 fairLuck fairLuck ⟨.object none, 0, 5, .int, 1⟩
        ⟨.object none, 0, 5, .int, 1⟩).Reported := by
  have ends : tmpiSendrecv lonely lonely 0 fairLuck fairLuck ⟨.object none, 0, 5, .int, 1⟩ ⟨.object none, 0, 5, .int, 1⟩ =
      ⟨.returned .success, false, false⟩ := by decide
  refine ⟨ends, by decide, fun reported => ?_⟩
  rw [ends] at reported
  obtain ⟨⟨ret, error, returned⟩, -⟩ := reported rfl
  exact error (Ending.returned.inj returned).symm

end Tmpi.Mpi
