import Tmpi.Intra.Effects

/-! The calls and handlers of `Tmpi.Intra.Effects` are those of the system: a handler, with the answer
that it has still to send, puts the messages on the links and takes the bytes off the streams that its
list of effects says. -/

namespace Tmpi.Intra

variable {cfg : Config} {s s' : Sys} {a b : Addr} {h : SHandle} {r : RHandle} {m : Nat}

/-- `netq_send` of a message from one rank to another. -/
structure Posted where
  src : Int
  dest : Int
  frame : Frame

def Frame.pldlen : Frame → Nat
  | .rmds handle _ => handle.buflen
  | .rds _ _ buflen _ _ => buflen
  | _ => 0

def Posted.send (posted : Posted) : Effects.Effect :=
  .send posted.src posted.dest posted.frame.pldlen

def Sys.sendAll (cfg : Config) (s : Sys) (posted : List Posted) : Sys :=
  posted.foldl (fun s p => s.netqSend cfg p.src p.dest p.frame) s

/-- A handler with the answer that it still has to send. -/
def finish (cfg : Config) (s : Sys) (m : Nat) : Sys := (respond cfg s m).getD s

/-- What `respond` sends. -/
def Answer.posted (s : Sys) : Answer → Posted
  | .rmr handle b =>
      ⟨handle.dest, handle.src, .rmr handle.remoteSendHandle b (s.rmem b).buflen .success⟩
  | .rmdr handle b =>
      ⟨handle.dest, handle.src, .rmdr handle.remoteSendHandle (s.rmem b).buflen .success⟩
  | .nrdy handle => ⟨handle.dest, handle.src, .nrdy handle.remoteSendHandle handle.buflen .success⟩
  | .rdr remoteSend b src dest cancelled =>
      ⟨dest, src, .rdr remoteSend (s.rmem b).buflen (if cancelled then .errCancel else .success)⟩

theorem finish_answered {answer : Answer} (pending : s.answer m = some answer) :
    (finish cfg s m).link = (s.sendAll cfg [answer.posted s]).link := by
  unfold finish respond
  rw [pending]
  cases answer <;> rfl

theorem finish_silent (silent : s.answer m = none) : finish cfg s m = s := by
  unfold finish respond
  rw [silent]
  rfl

theorem sendAll_link (same : s'.link = s.link) (posted : List Posted) :
    (s'.sendAll cfg posted).link = (s.sendAll cfg posted).link := by
  induction posted generalizing s s' with
  | nil => exact same
  | cons p posted ih =>
      apply ih
      simp only [Sys.netqSend, same]

namespace Effects

/-- The messages of a call, in their order. -/
def sends : List Effect → List Effect
  | [] => []
  | .send src dest pldlen :: rest => .send src dest pldlen :: sends rest
  | _ :: rest => sends rest

theorem sends_append (front back : List Effect) :
    sends (front ++ back) = sends front ++ sends back := by
  induction front with
  | nil => rfl
  | cons effect front ih => cases effect <;> simp [sends, ih]

theorem sends_netqRecvdata (env : Env) (rank : Int) (len : Nat) :
    sends (netqRecvdata env rank len) = [] := by
  unfold netqRecvdata
  cases source env rank <;> rfl

theorem sends_tmpiDumpData (env : Env) (rank : Int) (len : Nat) :
    sends (tmpiDumpData env rank len) = [] := by
  induction len using Nat.strongRecOn with
  | ind len ih =>
      unfold tmpiDumpData
      split
      next more =>
        rw [sends_append, sends_netqRecvdata, ih _ (by omega)]
        rfl
      next => rfl

theorem sends_recvTruncated (env : Env) (rank : Int) (buflen len : Nat) :
    sends (recvTruncated env rank buflen len) = [] := by
  rw [recvTruncated, sends_append, sends_netqRecvdata]
  split
  next => exact sends_tmpiDumpData env rank (len - buflen)
  next => rfl

/-- `env` is how machine `m` finds its surroundings when a frame comes from machine `sender`: its
channels are those of its own ranks, and the payload is on the stream that the handler reads. -/
def Sees (cfg : Config) (s : Sys) (sender m : Nat) (env : Env) : Frame → Prop
  | .rms handle => hasChannel env handle.dest = true ↔ cfg.home handle.dest = m
  | .rmds handle payload => (hasChannel env handle.dest = true ↔ cfg.home handle.dest = m) ∧
      source env handle.src = some sender ∧ payload.length = handle.buflen
  | .rds _ b buflen _ payload => source env (s.rmem b).src = some sender ∧ payload.length = buflen
  | _ => True

/-- The step `s` to `s'` of machine `m` and the rest of its handler do `effects`. -/
structure Does (cfg : Config) (s s' : Sys) (sender m len : Nat) (effects : List Effect) : Prop where
  sent : ∃ posted : List Posted, (finish cfg s' m).link = (s.sendAll cfg posted).link ∧
    posted.map Posted.send = sends effects
  read : s'.stray sender m + bytesFrom sender effects = s.stray sender m + len

namespace Does

variable {sender len : Nat} {effects : List Effect}

theorem silent (link : s'.link = s.link) (answer : s'.answer m = none) (sends : sends effects = [])
    (read : s'.stray sender m + bytesFrom sender effects = s.stray sender m + len) :
    Does cfg s s' sender m len effects := by
  refine ⟨⟨[], ?_, sends.symm⟩, read⟩
  rw [finish_silent answer]
  exact link

theorem answered (answer : Answer) (link : s'.link = s.link) (pending : s'.answer m = some answer)
    (sends : sends effects = [(answer.posted s').send])
    (read : s'.stray sender m + bytesFrom sender effects = s.stray sender m + len) :
    Does cfg s s' sender m len effects := by
  refine ⟨⟨[answer.posted s'], ?_, sends.symm⟩, read⟩
  rw [finish_answered pending]
  exact sendAll_link link _

end Does

variable {env : Env} {handle : RMSHandle} {sender : Nat}

theorem tmpiRmsHandle_does (free : s.answer m = none)
    (channel : hasChannel env handle.dest = true ↔ cfg.home handle.dest = m)
    (run : Intra.tmpiRmsHandle cfg s m env.message handle = some s') :
    Does cfg s s' sender m 0 (tmpiRmsHandle env s handle) := by
  have unread : ∀ {t : Sys}, t.stray = s.stray →
      t.stray sender m + bytesFrom sender (tmpiRmsHandle env s handle) = s.stray sender m + 0 := by
    intro t same
    rw [bytesFrom_tmpiRmsHandle, same]
  unfold Intra.tmpiRmsHandle at run
  dsimp only at run
  by_cases here : cfg.home handle.dest = m
  · rw [if_neg (not_not.mpr here)] at run
    have present := channel.mpr here
    cases available : env.message with
    | false =>
        rw [available, if_pos (by decide)] at run
        cases run
        exact .silent rfl free (by simp [tmpiRmsHandle, present, available, sends]) (unread rfl)
    | true =>
        rw [available, if_neg (by decide)] at run
        split at run
        · cases run
        split at run
        next b rq found =>
          cases run
          refine .answered (.rmr handle b) ?_ ?_ ?_ (unread ?_)
          · split
            · rfl
            · split <;> rfl
          · exact Function.update_self ..
          · simp [tmpiRmsHandle, present, available, tmpiRqFind, found, sends, Answer.posted,
              Posted.send, Frame.pldlen]
          · split
            · rfl
            · split <;> rfl
        next missing =>
          by_cases ready : handle.mode = .ready
          · rw [if_neg (not_not.mpr ready)] at run
            cases run
            refine .answered (.nrdy handle) rfl (Function.update_self ..) ?_ (unread rfl)
            simp [tmpiRmsHandle, present, available, tmpiRqFind, missing, ready, sends,
              Answer.posted, Posted.send, Frame.pldlen]
          · rw [if_pos ready] at run
            cases run
            refine .silent rfl free ?_ (unread rfl)
            simp [tmpiRmsHandle, present, available, tmpiRqFind, missing, ready, sends]
  · rw [if_pos here] at run
    cases run
    have absent : hasChannel env handle.dest = false := by simpa using mt channel.mp here
    exact .silent rfl free (by simp [tmpiRmsHandle, absent, sends]) (unread rfl)

theorem tmpiRmdsHandle_does {payload : Buffer} (free : s.answer m = none)
    (channel : hasChannel env handle.dest = true ↔ cfg.home handle.dest = m)
    (stream : source env handle.src = some sender) (whole : payload.length = handle.buflen)
    (run : Intra.tmpiRmdsHandle cfg s sender m env.message handle payload env.room = some s') :
    Does cfg s s' sender m payload.length (tmpiRmdsHandle env s handle) := by
  have left : ∀ {t : Sys}, t = s.leaveBytes sender m payload.length →
      bytesFrom sender (tmpiRmdsHandle env s handle) = 0 →
      t.stray sender m + bytesFrom sender (tmpiRmdsHandle env s handle) =
        s.stray sender m + payload.length := by
    intro t leaves none
    rw [none, leaves]
    simp [Sys.leaveBytes]
  unfold Intra.tmpiRmdsHandle at run
  dsimp only at run
  by_cases here : cfg.home handle.dest = m
  · rw [if_neg (not_not.mpr here)] at run
    have present := channel.mpr here
    cases available : env.message with
    | false =>
        rw [available, if_pos (by decide)] at run
        cases run
        refine .silent rfl free (by simp [tmpiRmdsHandle, present, available, sends]) (left rfl ?_)
        rw [bytesFrom_tmpiRmdsHandle, available]
        rfl
    | true =>
        have taken : ∀ {t : Sys}, t.stray = s.stray →
            t.stray sender m + bytesFrom sender (tmpiRmdsHandle env s handle) =
              s.stray sender m + payload.length := by
          intro t same
          rw [bytesFrom_tmpiRmdsHandle, available, present, stream, same, whole]
          simp
        rw [available, if_neg (by decide)] at run
        split at run
        · cases run
        split at run
        next b rq found =>
          cases run
          refine .answered (.rmdr handle b) ?_ ?_ ?_ (taken ?_)
          · split <;> rfl
          · exact Function.update_self ..
          · simp [tmpiRmdsHandle, present, available, tmpiRqFind, found, sends, sends_append,
              sends_recvTruncated, Answer.posted, Posted.send, Frame.pldlen]
          · split <;> rfl
        next missing =>
          by_cases ready : handle.mode = .ready
          · rw [if_neg (not_not.mpr ready)] at run
            cases run
            refine .answered (.nrdy handle) rfl (Function.update_self ..) ?_ (taken rfl)
            simp [tmpiRmdsHandle, present, available, tmpiRqFind, missing, ready, sends, sends_append,
              sends_tmpiDumpData, Answer.posted, Posted.send, Frame.pldlen]
          · rw [if_pos ready] at run
            cases run
            refine .silent rfl free ?_ (taken rfl)
            cases room : env.room <;>
              simp [tmpiRmdsHandle, present, available, tmpiRqFind, missing, ready, room, sends,
                sends_append, sends_tmpiDumpData, sends_netqRecvdata]
  · rw [if_pos here] at run
    cases run
    have absent : hasChannel env handle.dest = false := by simpa using mt channel.mp here
    refine .silent rfl free (by simp [tmpiRmdsHandle, absent, sends]) (left rfl ?_)
    simp [tmpiRmdsHandle, absent, bytesFrom]

theorem tmpiRdsHandle_does {payload : Buffer} {remoteSend : Addr} (free : s.answer m = none)
    (stream : source env (s.rmem b).src = some sender) :
    Does cfg s (Intra.tmpiRdsHandle cfg s sender m env.message remoteSend b payload.length payload)
      sender m payload.length (tmpiRdsHandle env s (some b) payload.length) := by
  cases available : env.message with
  | false =>
      refine .silent rfl free (by simp [tmpiRdsHandle, available, sends]) ?_
      rw [bytesFrom_tmpiRdsHandle, available]
      simp [Intra.tmpiRdsHandle, Sys.leaveBytes]
  | true =>
      have sent : sends (tmpiRdsHandle env s (some b) payload.length) =
          [.send (s.rmem b).dest (s.rmem b).src 0] := by
        unfold tmpiRdsHandle
        rw [available]
        simp only [Bool.not_true, Bool.false_eq_true, ↓reduceIte, List.cons_append, sends,
          sends_append, List.append_eq_singleton_iff, reduceCtorEq, and_false, or_false]
        split
        · simp [sends_recvTruncated]
        · split
          · simp [sends_tmpiDumpData]
          · simp [sends]
      unfold Intra.tmpiRdsHandle
      dsimp only
      rw [if_neg (by decide)]
      split
      next waiting =>
        refine .answered (.rdr remoteSend b _ _ false) rfl (Function.update_self ..) sent ?_
        rw [bytesFrom_tmpiRdsHandle, available, stream]
        rcases waiting with stat | stat <;>
          simp [show (s.rmem b).stat = _ from stat, Sys.setAnswer, Sys.setR, Sys.checkR]
      next waits =>
        split
        next cancelled =>
          have kept (r : RHandle) : (finishRh (s.checkR cfg m b) b r).link = s.link ∧
              (finishRh (s.checkR cfg m b) b r).stray = s.stray := by
            unfold finishRh
            dsimp only
            split <;> exact ⟨rfl, rfl⟩
          refine .answered (.rdr remoteSend b _ _ true) (kept _).1 (Function.update_self ..)
            sent ?_
          rw [bytesFrom_tmpiRdsHandle, available, stream, Sys.setAnswer, (kept _).2]
          simp [show (s.rmem b).stat = _ from cancelled]
        next other =>
          refine .answered (.rdr remoteSend b _ _ false) rfl (Function.update_self ..) sent ?_
          have unread : bytesFrom sender (tmpiRdsHandle env s (some b) payload.length) = 0 := by
            rw [bytesFrom_tmpiRdsHandle]
            push Not at waits
            simp [show (s.rmem b).stat ≠ _ from waits.1, show (s.rmem b).stat ≠ _ from waits.2,
              show (s.rmem b).stat ≠ _ from other]
          rw [unread]
          simp [Sys.setAnswer, Sys.leaveBytes, Sys.record, Sys.setR, Sys.checkR]

theorem tmpiRmrHandle_does {buflen : Nat} (free : s.answer m = none)
    (run : Intra.tmpiRmrHandle cfg s m env.message a b buflen = some s') :
    Does cfg s s' sender m 0 (tmpiRmrHandle env s (some a) buflen) := by
  have unread : ∀ {t : Sys}, t.stray = s.stray →
      t.stray sender m + bytesFrom sender (tmpiRmrHandle env s (some a) buflen) =
        s.stray sender m + 0 := by
    intro t same
    rw [bytesFrom_tmpiRmrHandle, same]
  unfold Intra.tmpiRmrHandle at run
  dsimp only at run
  cases available : env.message with
  | false =>
      rw [available, if_pos (by decide)] at run
      cases run
      exact .silent rfl free (by simp [tmpiRmrHandle, available, sends]) (unread rfl)
  | true =>
      rw [available, if_neg (by decide)] at run
      split at run
      next rm cell =>
        cases run
        have memory : s.smem a = .remote rm := cell
        exact .silent rfl free (by simp [tmpiRmrHandle, available, memory, sends]) (unread rfl)
      next h cell =>
        have memory : s.smem a = .send h := cell
        have sent : sends (tmpiRmrHandle env s (some a) buflen) =
            [.send h.src h.dest (min h.buflen buflen)] := by
          simp [tmpiRmrHandle, available, memory, sends]
        have does : ∀ {t : Sys}, t.link = (s.netqSend cfg h.src h.dest (.rds a b (min h.buflen buflen)
            .success (h.bytes.take (min h.buflen buflen)))).link → t.answer = s.answer →
            t.stray = s.stray → Does cfg s t sender m 0 (tmpiRmrHandle env s (some a) buflen) := by
          intro t link answer stray
          refine ⟨⟨[⟨h.src, h.dest, .rds a b (min h.buflen buflen) .success
            (h.bytes.take (min h.buflen buflen))⟩], ?_, sent.symm⟩, unread stray⟩
          rw [finish_silent (by rw [answer]; exact free), link]
          rfl
        split at run
        · cases run
        split at run
        · cases run
          exact does rfl rfl rfl
        split at run
        · cases run
          exact does rfl rfl rfl
        split at run
        · cases run
          exact does rfl rfl rfl
        · cases run
          exact does rfl rfl rfl

/-- The three handlers of an answer send nothing and read nothing. -/
theorem answered_does (free : s.answer m = none) (link : s'.link = s.link)
    (answer : s'.answer = s.answer) (stray : s'.stray = s.stray) : Does cfg s s' sender m 0 [] := by
  apply Does.silent link
  · rw [answer]
    exact free
  · rfl
  · rw [stray]
    rfl

theorem answerHandle_kept {buflen : Nat} {errval : Err} {pending blocked : Stat}
    (run : answerHandle cfg s m a buflen errval pending blocked = some s') :
    s'.link = s.link ∧ s'.answer = s.answer ∧ s'.stray = s.stray := by
  unfold answerHandle at run
  dsimp only at run
  split at run
  · cases run
    exact ⟨rfl, rfl, rfl⟩
  next h cell =>
    split at run
    · cases run
    split at run
    · cases run
      exact ⟨rfl, rfl, rfl⟩
    split at run
    · cases run
      exact ⟨rfl, rfl, rfl⟩
    · cases run
      unfold finishSh
      dsimp only
      split <;> exact ⟨rfl, rfl, rfl⟩

theorem tmpiRndyHandle_kept {errval : Err} (run : tmpiRndyHandle cfg s m a errval = some s') :
    s'.link = s.link ∧ s'.answer = s.answer ∧ s'.stray = s.stray := by
  unfold tmpiRndyHandle at run
  dsimp only at run
  split at run
  · cases run
    exact ⟨rfl, rfl, rfl⟩
  next h cell =>
    split at run
    · cases run
    split at run <;> cases run <;> exact ⟨rfl, rfl, rfl⟩

/-- A handler of the system and the same handler of this module send the same messages and read the
same bytes. -/
theorem handler_does {frame : Frame} {src dest : Int} (free : s.answer m = none)
    (sees : Sees cfg s sender m env frame)
    (accepted : rejects env (Frame.message frame src dest env.msgSize) = false)
    (run : Intra.tmpiInterMsgHandle cfg s sender m env.room env.message frame = some s') :
    Does cfg s s' sender m frame.pldlen
      (tmpiInterMsgHandle env s (Frame.message frame src dest env.msgSize)) := by
  rw [tmpiInterMsgHandle, accepted, if_neg Bool.false_ne_true]
  cases frame with
  | rms handle => exact tmpiRmsHandle_does free sees run
  | rmds handle payload =>
      obtain ⟨channel, stream, whole⟩ := sees
      have does := tmpiRmdsHandle_does free channel stream whole run
      rwa [whole] at does
  | rmr a b buflen errval => exact tmpiRmrHandle_does free run
  | rds remoteSend b buflen errval payload =>
      obtain ⟨stream, whole⟩ := sees
      cases run
      have does : Does cfg s
          (Intra.tmpiRdsHandle cfg s sender m env.message remoteSend b payload.length payload)
          sender m payload.length _ := tmpiRdsHandle_does free stream
      rwa [whole] at does
  | rdr a buflen errval =>
      obtain ⟨link, answer, stray⟩ := answerHandle_kept run
      exact answered_does free link answer stray
  | rmdr a buflen errval =>
      obtain ⟨link, answer, stray⟩ := answerHandle_kept run
      exact answered_does free link answer stray
  | nrdy a buflen errval =>
      obtain ⟨link, answer, stray⟩ := tmpiRndyHandle_kept run
      exact answered_does free link answer stray

/-! ## Starts -/

theorem tmpiInterStartSh_sends :
    (Intra.tmpiInterStartSh cfg s a env.message h).stray = s.stray ∧
      ∃ posted : List Posted,
        (Intra.tmpiInterStartSh cfg s a env.message h).link = (s.sendAll cfg posted).link ∧
        posted.map Posted.send = sends (tmpiInterStartSh env h) := by
  unfold Intra.tmpiInterStartSh tmpiInterStartSh
  split
  · exact ⟨rfl, [], rfl, rfl⟩
  split
  · exact ⟨rfl, [], rfl, rfl⟩
  dsimp only
  split
  · exact ⟨rfl, [⟨h.src, h.dest, _⟩], rfl, rfl⟩
  · exact ⟨rfl, [⟨h.src, h.dest, _⟩], rfl, rfl⟩

theorem startRemote_sends (cfg : Config) (env : Env) {s : Sys} {b : Addr} {r : RHandle} {q : Addr}
    {rm : RMSHandle} {peer : Nat} :
    (startRemote cfg s b env.message r q rm peer).stray = s.stray ∧
      ∃ posted : List Posted,
        (startRemote cfg s b env.message r q rm peer).link = (s.sendAll cfg posted).link ∧
        posted.map Posted.send =
          sends (if env.message then [.newMsg, .send r.dest rm.src 0, .freeMsg] else []) := by
  unfold startRemote
  cases rm.handleType <;> cases env.message
  · exact ⟨rfl, [], rfl, rfl⟩
  · exact ⟨rfl, [⟨r.dest, rm.src, _⟩], rfl, rfl⟩
  · exact ⟨rfl, [], rfl, rfl⟩
  · exact ⟨rfl, [⟨r.dest, rm.src, _⟩], rfl, rfl⟩

/-- The two views of a receive's start. -/
theorem tmpiIntraStartRh_sends
    (run : Intra.tmpiIntraStartRh cfg s b env.message r = some s') :
    s'.stray = s.stray ∧ ∃ posted : List Posted, s'.link = (s.sendAll cfg posted).link ∧
      posted.map Posted.send = sends (tmpiIntraStartRh env s r) := by
  unfold Intra.tmpiIntraStartRh at run
  dsimp only at run
  unfold tmpiIntraStartRh
  by_cases failed : r.errval ≠ .success
  · rw [if_pos failed] at run
    rw [if_pos (.inl failed)]
    cases run
    exact ⟨rfl, [], rfl, rfl⟩
  by_cases used : !r.startable
  · rw [if_neg failed, if_pos used] at run
    rw [if_pos (.inr used)]
    cases run
    exact ⟨rfl, [], rfl, rfl⟩
  rw [if_neg failed, if_neg used] at run
  rw [if_neg (by simp [failed, used])]
  split at run
  · cases run
  split at run
  next missing =>
    cases run
    rw [show qFind (fun x => sqCmp (s.smem x) r.context r.tag r.src) (s.chan r.dest).sq = none from
      missing]
    exact ⟨rfl, [], rfl, rfl⟩
  next x sq found =>
    rw [show qFind (fun x => sqCmp (s.smem x) r.context r.tag r.src) (s.chan r.dest).sq = some (x, sq)
      from found]
    dsimp only
    split at run
    next sh cell =>
      cases run
      rw [show s.smem x = .send sh from cell]
      exact ⟨rfl, [], rfl, rfl⟩
    next rm cell =>
      cases run
      rw [show s.smem x = .remote rm from cell]
      obtain ⟨stray, posted, link, sent⟩ := startRemote_sends cfg env
      refine ⟨stray, posted, link.trans ?_, sent⟩
      apply sendAll_link
      rfl

end Effects

end Tmpi.Intra
