import Tmpi.Intra.Completion

/-! Buffered sends: what their completion returns. -/

namespace Tmpi.Intra

/-- The error that a message carries to a handle. -/
def Frame.errval : Frame → Err
  | .rms _ | .rmds _ _ => .success
  | .rmr _ _ _ errval | .rds _ _ _ errval _ | .rdr _ _ errval | .rmdr _ _ errval
  | .nrdy _ _ errval => errval

/-- A started send has no error, nobody has left the lock of a buffered one, and an empty message
has no space of its own. -/
structure SHandle.Clean (h : SHandle) : Prop where
  errval : h.stat = .create ∨ h.errval = .success
  unlocked : h.mode = .buffered → h.locked = false
  empty : h.len = 0 → h.sysBuf = none

/-- Nothing has been cancelled while it was under way. -/
structure Clean (s : Sys) : Prop where
  sends : ∀ a h, s.smem a = .send h → h.Clean
  frames : ∀ m m', ∀ frame ∈ s.link m m', frame.errval = .success
  answers : ∀ m remoteSend rh src dest, s.answer m ≠ some (.rdr remoteSend rh src dest true)
  recvs : ∀ b, (s.rmem b).stat ≠ .cancel

variable {cfg : Config} {s s' : Sys} {g : Ghost} {a b : Addr} {h : SHandle} {r : RHandle} {m m' : Nat}

namespace Clean

theorem congr (clean : Clean s) (smem : s'.smem = s.smem) (rmem : s'.rmem = s.rmem)
    (link : s'.link = s.link) (answer : s'.answer = s.answer) : Clean s' := by
  obtain ⟨sends, frames, answers, recvs⟩ := clean
  exact ⟨smem ▸ sends, link ▸ frames, answer ▸ answers, rmem ▸ recvs⟩

theorem record (clean : Clean s) (e : Event) : Clean (s.record e) := clean.congr rfl rfl rfl rfl

theorem setChan (clean : Clean s) (c : Int) (ch : Channel) : Clean (s.setChan c ch) :=
  clean.congr rfl rfl rfl rfl

theorem post (clean : Clean s) (c : Int) (events : Trace) : Clean (s.post c events) :=
  clean.congr rfl rfl rfl rfl

theorem leaveBytes (clean : Clean s) (m m' n : Nat) : Clean (s.leaveBytes m m' n) :=
  clean.congr rfl rfl rfl rfl

theorem checkS (clean : Clean s) (cfg : Config) (m : Nat) (a : Addr) : Clean (s.checkS cfg m a) :=
  clean.congr rfl rfl rfl rfl

theorem checkR (clean : Clean s) (cfg : Config) (m : Nat) (b : Addr) : Clean (s.checkR cfg m b) :=
  clean.congr rfl rfl rfl rfl

theorem freeElemS (clean : Clean s) (a : Addr) : Clean (s.freeElemS a) := clean.congr rfl rfl rfl rfl

theorem freeElemR (clean : Clean s) (b : Addr) : Clean (s.freeElemR b) := clean.congr rfl rfl rfl rfl

theorem tick (clean : Clean s) : Clean s.tick := clean.congr rfl rfl rfl rfl

theorem setCell (clean : Clean s) (a : Addr) (cell : SCell) (ok : ∀ h, cell = .send h → h.Clean) :
    Clean (s.setS a cell) := by
  refine ⟨fun x hx there => ?_, clean.frames, clean.answers, clean.recvs⟩
  by_cases here : x = a
  · have same : (s.setS a cell).smem x = cell := by
      rw [here]
      exact Function.update_self ..
    exact ok hx (same.symm.trans there)
  · have same : (s.setS a cell).smem x = s.smem x := Function.update_of_ne here ..
    exact clean.sends x hx (same.symm.trans there)

theorem setS (clean : Clean s) (a : Addr) (ok : h.Clean) : Clean (s.setS a (.send h)) :=
  clean.setCell a _ fun _ same => SCell.send.inj same ▸ ok

theorem setRemote (clean : Clean s) (a : Addr) (rm : RMSHandle) : Clean (s.setS a (.remote rm)) :=
  clean.setCell a _ fun _ same => SCell.noConfusion same

theorem setR (clean : Clean s) (b : Addr) (ok : r.stat ≠ .cancel) : Clean (s.setR b r) := by
  refine ⟨clean.sends, clean.frames, clean.answers, fun x => ?_⟩
  by_cases here : x = b
  · have same : (s.setR b r).rmem x = r := by
      rw [here]
      exact Function.update_self ..
    rw [same]
    exact ok
  · have same : (s.setR b r).rmem x = s.rmem x := Function.update_of_ne here ..
    rw [same]
    exact clean.recvs x

theorem netqSend (clean : Clean s) (cfg : Config) (src dest : Int) {frame : Frame}
    (ok : frame.errval = .success) : Clean (s.netqSend cfg src dest frame) := by
  refine ⟨clean.sends, fun m m' f member => ?_, clean.answers, clean.recvs⟩
  unfold Sys.netqSend at member
  dsimp only at member
  split at member
  · rcases List.mem_append.mp member with old | new
    · exact clean.frames m m' f old
    · rw [List.mem_singleton.mp new]
      exact ok
  · exact clean.frames m m' f member

theorem setAnswer (clean : Clean s) (m : Nat) (answer : Option Answer)
    (ok : ∀ remoteSend rh src dest, answer ≠ some (.rdr remoteSend rh src dest true)) :
    Clean (s.setAnswer m answer) := by
  refine ⟨clean.sends, clean.frames, fun x remoteSend rh src dest => ?_, clean.recvs⟩
  by_cases here : x = m
  · have same : (s.setAnswer m answer).answer x = answer := by
      rw [here]
      exact Function.update_self ..
    rw [same]
    exact ok remoteSend rh src dest
  · have same : (s.setAnswer m answer).answer x = s.answer x := Function.update_of_ne here ..
    rw [same]
    exact clean.answers x remoteSend rh src dest

theorem recordIf (clean : Clean s) (p : Prop) [Decidable p] (e : Event) :
    Clean (if p then s.record e else s) := by
  split
  · exact clean.record e
  · exact clean

theorem finishSh (clean : Clean s) (a : Addr) (ok : h.Clean) : Clean (Intra.finishSh s a h) := by
  unfold Intra.finishSh
  dsimp only
  split
  · refine (clean.setS a ?_).freeElemS a
    exact ⟨.inr rfl, ok.unlocked, ok.empty⟩
  · refine clean.setS a ?_
    exact ⟨.inr rfl, ok.unlocked, ok.empty⟩

theorem finishRh (clean : Clean s) (b : Addr) (r : RHandle) : Clean (Intra.finishRh s b r) := by
  unfold Intra.finishRh
  dsimp only
  split
  · refine (clean.setR b ?_).freeElemR b
    simp
  · refine clean.setR b ?_
    simp

theorem completeRh (clean : Clean s) (b : Addr) (r : RHandle) : Clean (Intra.completeRh s b r) :=
  (clean.record _).finishRh b r

end Clean

/-- A state that a pending or matched send may be put in. -/
theorem SHandle.Clean.restate (ok : h.Clean) (past : h.stat ≠ .create) {h' : SHandle}
    (errval : h'.errval = h.errval) (mode : h'.mode = h.mode) (locked : h'.locked = h.locked)
    (empty : h'.len = 0 → h'.sysBuf = none) : h'.Clean :=
  ⟨.inr (errval.trans (ok.errval.resolve_left past)), fun buffered =>
    locked.trans (ok.unlocked (mode.symm.trans buffered)), empty⟩

theorem SHandle.Clean.started (ok : h.Clean) (errval : h.errval = .success) {h' : SHandle}
    (errval' : h'.errval = h.errval) (mode : h'.mode = h.mode) (locked : h'.locked = h.locked)
    (empty : h'.len = 0 → h'.sysBuf = none) : h'.Clean :=
  ⟨.inr (errval'.trans errval), fun buffered => locked.trans (ok.unlocked (mode.symm.trans buffered)),
    empty⟩

namespace Clean

/-! ## Creation and start -/

theorem tmpiIntraInitSh (clean : Clean s) (context : UInt32) (src dest tag : Int) (data : Buffer)
    (mode : Mode) (isPersistent isImmediate room : Bool) :
    Clean (tmpiIntraInitSh cfg s context src dest tag data mode isPersistent isImmediate room) := by
  refine (clean.setChan _ _).setS _ ?_
  refine ⟨.inl rfl, fun _ => rfl, fun zero => if_neg ?_⟩
  rintro ⟨-, long, -⟩
  exact absurd zero (Nat.ne_of_gt long)

theorem tmpiIntraInitRh (clean : Clean s) (context : UInt32) (src dest tag : Int) (data : Buffer)
    (isPersistent isImmediate : Bool) :
    Clean (tmpiIntraInitRh cfg s context src dest tag data isPersistent isImmediate) := by
  refine (clean.setChan _ _).setR _ ?_
  simp

theorem tmpiInterStartSh (clean : Clean s) (ok : h.Clean) (errval : h.errval = .success)
    (message : Bool) : Clean (Intra.tmpiInterStartSh cfg s a message h) := by
  unfold Intra.tmpiInterStartSh
  split
  · exact clean.record _
  split
  · exact clean.record _
  · have begun : Clean ((s.tick.setS a (.send { h with stat := .pendStrt, inst := s.clock })).record
        (.sendStarted s.clock h.src h.tag h.userBuf)) := by
      refine (clean.tick.setS a ?_).record _
      exact ok.started errval rfl rfl rfl ok.empty
    dsimp only
    split
    · exact begun.netqSend cfg _ _ rfl
    · exact begun.netqSend cfg _ _ rfl

theorem tmpiIntraStartSh (clean : Clean s) (ok : h.Clean) {message : Bool}
    (call : Intra.tmpiIntraStartSh cfg s a message h = some s') : Clean s' := by
  unfold Intra.tmpiIntraStartSh at call
  split at call
  next =>
    cases call
    exact clean.record _
  next errval =>
    have errval : h.errval = .success := by simpa using errval
    split at call
    next =>
      cases call
      exact clean.tmpiInterStartSh ok errval message
    next =>
      split at call
      next =>
        cases call
        exact clean.record _
      next =>
        dsimp only at call
        split at call
        next => cases call
        next =>
          split at call
          next =>
            cases call
            refine ((((clean.tick).record _).setS a ?_).setChan _ _).post _ _
            exact ok.started errval rfl rfl rfl ok.empty
          next =>
            have matched : ∀ buflen, SHandle.Clean { h with
                inst := s.clock, stat := .matched, buflen := buflen, errval := .success } :=
              fun _ => ⟨.inr rfl, ok.unlocked, ok.empty⟩
            have stat := clean.recvs
            split at call
            next =>
              cases call
              refine ((((((clean.tick).record _).setS a ?_).setChan _ _).post _ _).setR _ ?_)
              · exact matched _
              · simp
            next =>
              cases call
              refine ((((((clean.tick).record _).setS a ?_).setChan _ _).post _ _).setR _ ?_).record _
              · exact matched _
              · exact stat _

theorem startRemote (clean : Clean s) (message : Bool) (q : Addr) (rm : RMSHandle) (peer : Nat) :
    Clean (Intra.startRemote cfg s b message r q rm peer) := by
  unfold Intra.startRemote
  dsimp only
  split
  all_goals
    refine (Clean.setRemote ?_ q _).freeElemS q
    split
    · refine Clean.netqSend (clean.setR b ?_) cfg _ _ rfl
      simp
    · refine clean.setR b ?_
      simp

theorem tmpiIntraStartRh (clean : Clean s) (stat : r.stat ≠ .cancel) {message : Bool}
    (call : Intra.tmpiIntraStartRh cfg s b message r = some s') : Clean s' := by
  unfold Intra.tmpiIntraStartRh at call
  split at call
  next =>
    cases call
    exact clean.record _
  next =>
    split at call
    next =>
      cases call
      exact clean.record _
    next =>
      dsimp only at call
      split at call
      next => cases call
      next =>
        split at call
        next =>
          cases call
          refine ((((clean.tick).record _).setR b ?_).setChan _ _).post _ _
          simp
        next =>
          split at call
          next =>
            cases call
            refine ((((clean.tick).record _).post _ _).setR b ?_).setChan _ _
            exact stat
          next =>
            cases call
            exact ((((clean.tick).record _).post _ _).setChan _ _).startRemote _ _ _ _

theorem finishStartRh {c : Int} (clean : Clean s) (call : Intra.finishStartRh s c = some s') :
    Clean s' := by
  unfold Intra.finishStartRh at call
  split at call
  next => cases call
  next =>
    split at call
    next => cases call
    next h cell =>
      have ok := clean.sends _ _ cell
      split at call
      next => cases call
      next =>
        have filled : ∀ (b : Addr) (full : RHandle) (ch : Channel),
            Clean ((s.setR b { full with stat := .matched, pc := .idle }).setChan c ch) := by
          intro b full ch
          refine (clean.setR b ?_).setChan c ch
          simp
        dsimp only at call
        split at call
        next stats =>
          cases call
          refine (filled _ _ _).setS _ ?_
          exact ok.restate (by rcases stats with stat | stat <;> simp [stat]) rfl rfl rfl ok.empty
        next =>
          split at call
          next =>
            cases call
            exact (filled _ _ _).finishSh _ ⟨.inr rfl, ok.unlocked, ok.empty⟩
          next =>
            cases call
            refine ((filled _ _ _).setS _ ?_).record _
            exact ⟨ok.errval, ok.unlocked, ok.empty⟩

/-! ## Completion -/

theorem leaveSh (clean : Clean s) (ok : h.Clean) (past : h.stat ≠ .create) (copies : Bool) :
    Clean (Intra.leaveSh s a h copies) := by
  unfold Intra.leaveSh
  dsimp only
  split
  · split
    next sys full =>
      split
      · refine (clean.setS a ?_).record _
        exact ok.restate past rfl rfl rfl fun zero => absurd (full.symm.trans (ok.empty zero)) nofun
      · refine (clean.setS a ?_).record _
        exact ok.restate past rfl rfl rfl ok.empty
    next =>
      refine (clean.setS a ?_).record _
      exact ok.restate past rfl rfl rfl ok.empty
  · refine (clean.setS a ?_).record _
    exact ok.restate past rfl rfl rfl ok.empty

theorem blockSh (clean : Clean s) (ok : h.Clean) (past : h.stat ≠ .create) :
    Clean (Intra.blockSh s a h) := by
  refine clean.setS a ?_
  exact ok.restate past rfl rfl rfl ok.empty

theorem interWaitRest (clean : Clean s) (ok : h.Clean) (past : h.stat ≠ .create) :
    Clean (Intra.interWaitRest s a h) := by
  unfold Intra.interWaitRest
  split
  · exact (clean.record _).finishSh a ok
  · split
    · exact ((clean.recordIf _ _).record _).finishSh a ok
    · split
      · exact clean.blockSh ok past
      · exact clean.blockSh ok past
      · exact clean.leaveSh ok past true
      · split
        · exact clean.leaveSh ok past true
        · exact clean.blockSh ok past

theorem past_of_started (started : (h.stat.pend || h.stat = .matched) = true) :
    h.stat ≠ .create := by
  intro stat
  rw [stat] at started
  cases started

theorem tmpiIntraWaitSh (clean : Clean s) (ok : h.Clean)
    (call : Intra.tmpiIntraWaitSh s a h = some s') : Clean s' := by
  unfold Intra.tmpiIntraWaitSh at call
  split at call
  next =>
    unfold tmpiInterWaitSh at call
    split at call
    next =>
      cases call
      exact clean.record _
    next called =>
      rw [Stat.any_started, Bool.not_eq_true', Bool.not_eq_false] at called
      split at call
      next => cases call
      next =>
        split at call
        · cases call
          refine clean.setS a ?_
          exact ok.restate (past_of_started called) rfl rfl rfl ok.empty
        · cases call
          exact clean.interWaitRest ok (past_of_started called)
  next =>
    split at call
    next =>
      cases call
      exact clean.record _
    next called =>
      rw [Stat.any_linked, Bool.not_eq_true', Bool.not_eq_false] at called
      have past := past_of_started called
      split at call
      next => cases call
      next =>
        split at call
        next =>
          cases call
          exact (clean.record _).finishSh a ok
        next =>
          split at call
          next =>
            cases call
            refine clean.setS a ?_
            exact ok.restate past rfl rfl rfl ok.empty
          next =>
            cases call
            exact clean.leaveSh ok past true
          next =>
            cases call
            exact (clean.record _).finishSh a ok
          next =>
            split at call
            · cases call
              exact clean.leaveSh ok past true
            · cases call
              refine clean.setS a ?_
              exact ok.restate past rfl rfl rfl ok.empty

theorem wakeSh (clean : Clean s) (ok : h.Clean) (past : h.pc = .readyWait → h.stat ≠ .create)
    (call : Intra.wakeSh s a h = some s') : Clean s' := by
  unfold Intra.wakeSh at call
  split at call
  next => cases call
  next =>
    split at call
    next pc =>
      split at call
      next => cases call
      next =>
        cases call
        exact clean.interWaitRest ⟨ok.errval, ok.unlocked, ok.empty⟩ (past pc)
    next =>
      split at call
      next =>
        split at call
        next =>
          split at call
          next => cases call
          next =>
            cases call
            exact (clean.record _).finishSh a ok
        next =>
          split at call
          next => cases call
          next =>
            cases call
            exact ((clean.recordIf _ _).record _).finishSh a ok
      next => cases call

theorem tmpiIntraWaitRh (clean : Clean s) (r : RHandle) : Clean (Intra.tmpiIntraWaitRh s b r) := by
  unfold Intra.tmpiIntraWaitRh
  split
  · exact clean.record _
  · split
    · exact clean.completeRh b r
    · refine clean.setR b ?_
      dsimp only
      split <;> simp

theorem wakeRh (clean : Clean s) (call : Intra.wakeRh s b r = some s') : Clean s' := by
  unfold Intra.wakeRh at call
  split at call
  · cases call
    exact clean.completeRh b r
  · cases call

theorem tmpiIntraTestSh (clean : Clean s) (ok : h.Clean) {flag : Bool}
    (call : Intra.tmpiIntraTestSh s a h = some (s', flag)) : Clean s' := by
  unfold Intra.tmpiIntraTestSh at call
  split at call
  next =>
    cases call
    exact clean.record _
  next called =>
    rw [Stat.any_started, Bool.not_eq_true', Bool.not_eq_false] at called
    have past := past_of_started called
    have locks (mode : h.mode ≠ .buffered) : Clean (s.setS a (.send { h with locked := true })) := by
      refine clean.setS a ?_
      exact ⟨ok.errval, fun buffered => absurd buffered mode, ok.empty⟩
    split at call
    next => cases call
    next =>
      split at call
      next =>
        cases call
        exact (clean.record _).finishSh a ok
      next =>
        split at call
        next =>
          cases call
          exact ((clean.recordIf _ _).record _).finishSh a ok
        next =>
          split at call
          next mode =>
            cases call
            exact locks (by simp [mode])
          next mode =>
            cases call
            exact locks (by simp [mode])
          next =>
            cases call
            exact clean.leaveSh ok past _
          next mode =>
            split at call
            · cases call
              exact clean.leaveSh ok past _
            · cases call
              exact locks (by simp [mode])

theorem tmpiIntraTestRh (clean : Clean s) (r : RHandle) :
    Clean (Intra.tmpiIntraTestRh s b r).1 := by
  unfold Intra.tmpiIntraTestRh
  split
  · exact clean.record _
  · split
    · exact clean.completeRh b r
    · exact clean

/-! ## Cancel and release -/

theorem tmpiIntraCancelSh (clean : Clean s) (ok : h.Clean) (done : h.stat.pend = false)
    (call : Intra.tmpiIntraCancelSh s a h = some s') : Clean s' := by
  unfold Intra.tmpiIntraCancelSh tmpiInterCancelSh at call
  simp only [Stat.any_started, Stat.any_linked, done, Bool.false_or] at call
  by_cases stat : h.stat = .matched
  · simp only [stat, decide_true, Bool.not_true, Bool.false_eq_true, if_false, if_true] at call
    split at call
    all_goals
      split at call
      next => cases call
      next =>
        cases call
        exact clean.finishSh a ok
  · simp only [stat, decide_false, Bool.not_false, if_true, ite_self] at call
    cases call
    exact clean.record _

theorem tmpiIntraCancelRh (clean : Clean s) (r : RHandle) (done : r.stat.pend = false) :
    Clean (Intra.tmpiIntraCancelRh s b r) := by
  unfold Intra.tmpiIntraCancelRh
  simp only [Stat.any_posted, Stat.any_dropped, done, Bool.false_or]
  by_cases stat : r.stat = .matched
  · simp only [stat, decide_true, Bool.not_true, Bool.false_eq_true, if_false, if_true]
    exact clean.finishRh b r
  · simp only [stat, decide_false, Bool.not_false, if_true]
    exact clean.record _

theorem tmpiRequestFreeSh (clean : Clean s) (ok : h.Clean)
    (call : Intra.tmpiRequestFreeSh s a h = some s') : Clean s' := by
  unfold Intra.tmpiRequestFreeSh at call
  split at call
  next => cases call
  next =>
    split at call
    next =>
      cases call
      refine (clean.setS a ?_).freeElemS a
      exact ⟨ok.errval, ok.unlocked, ok.empty⟩
    next =>
      split at call
      next => cases call
      next =>
        obtain ⟨⟨s₁, flag⟩, test, rest⟩ := Option.bind_eq_some_iff.mp call
        have tested := clean.tmpiIntraTestSh ok test
        dsimp only at rest
        split at rest
        · split at rest
          next h' cell =>
            cases rest
            have ok' := tested.sends a h' cell
            refine (tested.setS a ?_).freeElemS a
            exact ⟨ok'.errval, ok'.unlocked, ok'.empty⟩
          next => cases rest
        · cases rest
          exact tested

theorem tmpiRequestFreeRh (clean : Clean s) (stat : r.stat ≠ .cancel)
    (call : Intra.tmpiRequestFreeRh s b r = some s') : Clean s' := by
  unfold Intra.tmpiRequestFreeRh at call
  split at call
  next =>
    cases call
    refine (clean.setR b ?_).freeElemR b
    exact stat
  next =>
    split at call
    next => cases call
    next =>
      have tested := clean.tmpiIntraTestRh (b := b) r
      dsimp only at call
      split at call
      · cases call
        refine (tested.setR b ?_).freeElemR b
        exact tested.recvs b
      · cases call
        exact tested

/-! ## Messages -/

theorem enqueueRms (clean : Clean s) (rm : RMSHandle) : Clean (Intra.enqueueRms cfg s rm) :=
  (clean.setChan _ _).setRemote _ _

theorem tmpiRmsHandle {handle : RMSHandle} {message : Bool} (clean : Clean s)
    (call : Intra.tmpiRmsHandle cfg s m message handle = some s') : Clean s' := by
  unfold Intra.tmpiRmsHandle at call
  dsimp only at call
  split at call
  next =>
    cases call
    exact clean
  split at call
  next =>
    cases call
    exact clean
  next =>
    split at call
    next => cases call
    next =>
      split at call
      next b rq _ =>
        cases call
        refine Clean.setAnswer ?_ m _ (by simp)
        have stat := clean.recvs b
        split
        · refine ((clean.setChan _ _).post _ _).setR b ?_
          simp
        · split
          · refine ((clean.setChan _ _).post _ _).setR b ?_
            simp
          · refine (((clean.setChan _ _).post _ _).setR b ?_).record _
            exact stat
      next =>
        split at call
        · cases call
          exact (clean.enqueueRms _).post _ _
        · cases call
          exact clean.setAnswer m _ (by simp)

theorem tmpiRmdsHandle {handle : RMSHandle} {payload : Buffer} {room message : Bool} (clean : Clean s)
    (call : Intra.tmpiRmdsHandle cfg s m' m message handle payload room = some s') : Clean s' := by
  unfold Intra.tmpiRmdsHandle at call
  dsimp only at call
  split at call
  next =>
    cases call
    exact clean.leaveBytes _ _ _
  split at call
  next =>
    cases call
    exact clean.leaveBytes _ _ _
  next =>
    split at call
    next => cases call
    next =>
      split at call
      next b rq _ =>
        cases call
        refine Clean.setAnswer ?_ m _ (by simp)
        have stat := clean.recvs b
        split
        · refine ((clean.setChan _ _).post _ _).setR b ?_
          simp
        · refine (((clean.setChan _ _).post _ _).setR b ?_).record _
          exact stat
      next =>
        split at call
        · cases call
          exact (clean.enqueueRms _).post _ _
        · cases call
          exact clean.setAnswer m _ (by simp)

theorem tmpiRdsHandle {buflen : Nat} {payload : Buffer} {message : Bool} (clean : Clean s) :
    Clean (Intra.tmpiRdsHandle cfg s m' m message a b buflen payload) := by
  have stat := clean.recvs b
  unfold Intra.tmpiRdsHandle
  dsimp only
  split
  · exact clean.leaveBytes _ _ _
  split
  · refine ((clean.checkR cfg m b).setR b ?_).setAnswer m _ (by simp)
    simp
  · split
    next cancelled => exact absurd cancelled stat
    next =>
      refine ((((clean.checkR cfg m b).setR b ?_).record _).leaveBytes _ _ _).setAnswer m _ (by simp)
      exact stat

theorem tmpiRmrHandle {buflen : Nat} {message : Bool} (clean : Clean s)
    (call : Intra.tmpiRmrHandle cfg s m message a b buflen = some s') : Clean s' := by
  have checked := clean.checkS cfg m a
  unfold Intra.tmpiRmrHandle at call
  dsimp only at call
  split at call
  next =>
    cases call
    exact clean
  split at call
  next =>
    cases call
    exact checked
  next h cell =>
    have ok := checked.sends a h cell
    split at call
    next => cases call
    next =>
      have sent {len : Nat} {bytes : Buffer} : Clean ((s.checkS cfg m a).netqSend cfg h.src h.dest
          (.rds a b len .success bytes)) :=
        checked.netqSend cfg _ _ rfl
      split at call
      next stat =>
        cases call
        refine sent.setS a ?_
        exact ok.restate (by simp [stat]) rfl rfl rfl ok.empty
      next =>
        split at call
        next stat =>
          cases call
          refine sent.setS a ?_
          exact ok.restate (by simp [stat]) rfl rfl rfl ok.empty
        next =>
          split at call
          · cases call
            exact sent.record _
          · cases call
            exact sent

theorem answerHandle {buflen : Nat} {errval : Err} {pending blocked : Stat} (clean : Clean s)
    (success : errval = .success)
    (call : Intra.answerHandle cfg s m a buflen errval pending blocked = some s') : Clean s' := by
  subst success
  have checked := clean.checkS cfg m a
  unfold Intra.answerHandle at call
  dsimp only at call
  split at call
  next =>
    cases call
    exact checked
  next h cell =>
    have ok := checked.sends a h cell
    split at call
    next => cases call
    next =>
      split at call
      next =>
        cases call
        refine checked.setS a ?_
        exact ⟨.inr rfl, ok.unlocked, ok.empty⟩
      next =>
        split at call
        · cases call
          refine (checked.setS a ?_).record _
          exact ⟨.inr rfl, ok.unlocked, ok.empty⟩
        · cases call
          refine checked.finishSh a ?_
          exact ⟨.inr rfl, ok.unlocked, ok.empty⟩

theorem tmpiRndyHandle {errval : Err} (clean : Clean s) (success : errval = .success)
    (call : Intra.tmpiRndyHandle cfg s m a errval = some s') : Clean s' := by
  subst success
  have checked := clean.checkS cfg m a
  unfold Intra.tmpiRndyHandle at call
  dsimp only at call
  split at call
  next =>
    cases call
    exact checked
  next h cell =>
    have ok := checked.sends a h cell
    split at call
    next => cases call
    next =>
      split at call
      · cases call
        refine checked.setS a ?_
        exact ⟨.inr rfl, ok.unlocked, ok.empty⟩
      · cases call
        refine (checked.setS a ?_).record _
        exact ⟨.inr rfl, ok.unlocked, ok.empty⟩

theorem deliver {room message : Bool} (clean : Clean s)
    (call : Intra.deliver cfg s m' m room message = some s') : Clean s' := by
  unfold Intra.deliver at call
  split at call
  next => cases call
  next =>
    split at call
    next => cases call
    next frame frames link =>
      have taken : Clean { s with link := fun i j =>
          if i = m' ∧ j = m then frames else s.link i j } := by
        refine ⟨clean.sends, fun i j f member => ?_, clean.answers, clean.recvs⟩
        dsimp only at member
        split at member
        next here =>
          refine clean.frames m' m f ?_
          rw [link]
          exact List.mem_cons_of_mem _ member
        next => exact clean.frames i j f member
      have success : frame.errval = .success := by
        refine clean.frames m' m frame ?_
        rw [link]
        exact List.mem_cons_self
      cases frame with
      | rms handle => exact taken.tmpiRmsHandle call
      | rmds handle payload => exact taken.tmpiRmdsHandle call
      | rds remoteSend localRecv buflen errval payload =>
          cases call
          exact taken.tmpiRdsHandle
      | rmr localSend remoteRecv buflen errval => exact taken.tmpiRmrHandle call
      | rdr localSend buflen errval => exact taken.answerHandle success call
      | rmdr localSend buflen errval => exact taken.answerHandle success call
      | nrdy localSend buflen errval => exact taken.tmpiRndyHandle success call

theorem respond (clean : Clean s) (call : Intra.respond cfg s m = some s') : Clean s' := by
  unfold Intra.respond at call
  split at call
  next => cases call
  next answer given =>
    have ended := clean.setAnswer m none (by simp)
    dsimp only at call
    cases answer with
    | rmr handle b =>
        cases call
        exact ended.netqSend cfg _ _ rfl
    | rmdr handle b =>
        cases call
        exact ended.netqSend cfg _ _ rfl
    | nrdy handle =>
        cases call
        exact ended.netqSend cfg _ _ rfl
    | rdr remoteSend b src dest cancelled =>
        cases call
        refine ended.netqSend cfg _ _ ?_
        cases cancelled with
        | false => rfl
        | true => exact absurd given (clean.answers m _ _ _ _)

/-! ## Runs -/

theorem writeBuf {data : Buffer} (clean : Clean s) (ok : h.Clean)
    (call : Intra.writeBuf s a data h = some s') : Clean s' := by
  unfold Intra.writeBuf at call
  split at call
  · cases call
    refine clean.setS a ?_
    exact ⟨ok.errval, ok.unlocked, ok.empty⟩
  · cases call

theorem boot (cfg : Config) : Clean (boot cfg) where
  sends _ _ cell := SCell.noConfusion cell
  frames _ _ _ member := by cases member
  answers _ _ _ _ _ := by simp [Intra.boot]
  recvs _ := by simp [Intra.boot]

theorem onSend (clean : Clean s) {call : SHandle → Option Sys} (run : Intra.onSend s a call = some s')
    (keeps : ∀ h, s.smem a = .send h → h.Clean → call h = some s' → Clean s') : Clean s' := by
  unfold Intra.onSend at run
  split at run
  next h cell =>
    split at run
    next => exact keeps h cell (clean.sends a h cell) run
    next => cases run
  next => cases run

theorem onRecv {call : RHandle → Option Sys} (run : Intra.onRecv s b call = some s')
    (keeps : call (s.rmem b) = some s' → Clean s') : Clean s' := by
  unfold Intra.onRecv at run
  split at run
  · exact keeps run
  · cases run

theorem step {act : Act} (clean : Clean s) (inv : Inv cfg s g) (sound : breaks s act = false)
    (run : Intra.step cfg s act = some s') : Clean s' := by
  cases act with
  | initSh =>
      cases run
      exact clean.tmpiIntraInitSh ..
  | initRh =>
      cases run
      exact clean.tmpiIntraInitRh ..
  | startSh a message => exact clean.onSend run fun h _ ok call => clean.tmpiIntraStartSh ok call
  | startRh b message => exact onRecv run fun call => clean.tmpiIntraStartRh (clean.recvs b) call
  | finishStartRh c => exact clean.finishStartRh run
  | waitSh a => exact clean.onSend run fun h _ ok call => clean.tmpiIntraWaitSh ok call
  | wakeSh a =>
      simp only [Intra.step] at run
      split at run
      next h cell =>
        refine clean.wakeSh (clean.sends a h cell) (fun waiting => ?_) run
        obtain ⟨handle, -⟩ := inv.sendOk cell
        intro stat
        rcases (handle.readyWait waiting).2.2 with on | on | on | on
        all_goals exact Stat.noConfusion (stat.symm.trans on)
      next => cases run
  | waitRh b =>
      change Intra.onRecv s b (fun r => some (Intra.tmpiIntraWaitRh s b r)) = some s' at run
      refine onRecv run fun call => ?_
      cases call
      exact clean.tmpiIntraWaitRh _
  | wakeRh b => exact clean.wakeRh run
  | testSh a =>
      refine clean.onSend run fun h _ ok call => ?_
      obtain ⟨⟨s₁, flag⟩, test, rfl⟩ := Option.map_eq_some_iff.mp call
      exact clean.tmpiIntraTestSh ok test
  | testRh b =>
      change Intra.onRecv s b (fun r => some (Intra.tmpiIntraTestRh s b r).1) = some s' at run
      refine onRecv run fun call => ?_
      cases call
      exact clean.tmpiIntraTestRh _
  | cancelSh a =>
      refine clean.onSend run fun h cell ok call => clean.tmpiIntraCancelSh ok ?_ call
      simpa [breaks, SCell.sendAnd, cell] using sound
  | cancelRh b =>
      change Intra.onRecv s b (fun r => some (Intra.tmpiIntraCancelRh s b r)) = some s' at run
      refine onRecv run fun call => ?_
      cases call
      exact clean.tmpiIntraCancelRh _ (by simpa [breaks] using sound)
  | freeSh a => exact clean.onSend run fun h _ ok call => clean.tmpiRequestFreeSh ok call
  | freeRh b => exact onRecv run fun call => clean.tmpiRequestFreeRh (clean.recvs b) call
  | deliver from_ m room message => exact clean.deliver run
  | respond m => exact clean.respond run
  | writeBuf a data =>
      simp only [Intra.step] at run
      split at run
      next h cell => exact clean.writeBuf (clean.sends a h cell) run
      next => cases run

end Clean

/-- Nothing is cancelled under way in a run without a breaking step. -/
theorem Reach.clean (reach : Reach cfg (fun s act => breaks s act = false) s) : Clean s := by
  induction reach with
  | boot => exact Clean.boot cfg
  | step before sound run ih =>
      obtain ⟨g, inv⟩ := before.inv fun _ _ _ sound => sound
      exact ih.step inv sound run

/-! ## The completing call -/

/-- The call has returned `MPI_SUCCESS`, and the status says so too. -/
def Succeeded (s s' : Sys) (a : Addr) (inst : Nat) : Prop :=
  ∃ status rest, s'.log = s.log ++ .sendReturned a inst .success (some status) :: rest ∧
    status.error = .success

theorem finishSh_succeeded (s : Sys) (a : Addr) (h : SHandle) (inst : Nat) (status : Status)
    (error : status.error = .success) :
    Succeeded s (finishSh (s.record (.sendReturned a inst .success (some status))) a h) a inst := by
  obtain ⟨rest, log⟩ := finishSh_records s a h (.sendReturned a inst .success (some status))
  exact ⟨status, rest, log, error⟩

/-- A sender that leaves has succeeded if its data is in a buffer, or goes there now. -/
theorem leaveSh_succeeded_iff (errval : h.errval = .success) (copies : Bool) :
    Succeeded s (leaveSh s a h copies) a h.inst ↔
      (h.curdata = .userBuf → h.sysBuf.isSome = true ∧ copies = true) := by
  have log : ∀ s₁ : Sys, s₁.log = s.log → ∀ e : Event, (s₁.record e).log = s.log ++ [e] := by
    intro s₁ same e
    rw [Sys.record, same]
  have error : h.status.error = .success := errval
  have good : ∀ left, Succeeded s ((s.setS a left).record
      (.sendReturned a h.inst .success (some h.status))) a h.inst :=
    fun left => ⟨h.status, [], log _ rfl _, error⟩
  have bad : ∀ left status, ¬ Succeeded s ((s.setS a left).record
      (.sendReturned a h.inst .errRequest (some status))) a h.inst := by
    rintro left status ⟨status', rest, same, -⟩
    rw [log (s.setS a left) rfl] at same
    have head := (List.cons.inj (List.append_cancel_left same)).1
    cases head
  unfold leaveSh
  dsimp only
  cases place : h.curdata with
  | userBuf =>
      cases full : h.sysBuf with
      | some sys =>
          cases copies with
          | true => simpa using good _
          | false => simpa using bad _ _
      | none => simpa using bad _ _
  | sysBuf => simpa using good _
  | garbage => simpa using good _

/-- A pending buffered send that is not empty has its space. -/
theorem Inv.buffered (inv : Inv cfg s g) (clean : Clean s) (cell : s.smem a = .send h)
    (mode : h.mode = .buffered) (pend : h.stat.pend = true) :
    h.stat ≠ .pendNrdy ∧ h.buflen = h.len ∧ (h.curdata = .userBuf ∨ 0 < h.len) ∧
      (0 < h.len → h.sysBuf.isSome = true) := by
  have handle := (inv.sendOk cell).1
  have taken : h.stat ≠ .pendNrdy := by
    intro stat
    have ready := (handle.refused stat).1
    rw [mode] at ready
    cases ready
  have pending : ¬ h.stat.settled := by
    rintro (stat | stat | stat | stat)
    · rw [stat] at pend
      cases pend
    · rw [stat] at pend
      cases pend
    · rw [stat] at pend
      cases pend
    · exact taken stat
  obtain ⟨-, agrees, -⟩ := inv.of_pending cell pending
  refine ⟨taken, agrees.buflen.trans agrees.len.symm, ?_, fun long => ?_⟩
  · rcases agrees.bytes with ⟨user, -, -⟩ | ⟨-, full⟩
    · exact .inl user
    · refine .inr (Nat.pos_of_ne_zero fun zero => ?_)
      rw [(clean.sends a h cell).empty zero] at full
      cases full
  · by_contra missing
    have absent : h.sysBuf = none := by simpa using missing
    have created := (handle.noSpace mode absent long).1
    exact pending (.inl created)

/-- The completing call on a started buffered send: the wait does not block, the test completes,
and both succeed exactly when the message is not empty or the receive has been matched first. -/
theorem buffered_succeeds_iff (reach : Reach cfg (fun s act => breaks s act = false) s)
    (cell : s.smem a = .send h) (mode : h.mode = .buffered)
    (started : h.stat.any [.pendStrt, .matched, .pendNrdy, .pendData] = true) :
    (∃ s', tmpiIntraWaitSh s a h = some s' ∧ s'.returned a = true ∧
      (Succeeded s s' a h.inst ↔ h.stat = .matched ∨ 0 < h.len)) ∧
    ∃ s', tmpiIntraTestSh s a h = some (s', true) ∧
      (Succeeded s s' a h.inst ↔ h.stat = .matched ∨ 0 < h.len) := by
  obtain ⟨g, inv⟩ := reach.inv fun _ _ _ sound => sound
  have clean := reach.clean
  have ok := clean.sends a h cell
  have unlocked := ok.unlocked mode
  rw [Stat.any_started] at started
  have success : h.errval = .success := ok.errval.resolve_left (Clean.past_of_started started)
  by_cases matched : h.stat = .matched
  · have done := finishSh_succeeded s a h h.inst h.status success
    exact ⟨⟨_, wait_matched unlocked matched, finishSh_returned _ _ _, by simp [done, matched]⟩,
      ⟨_, test_matched unlocked matched, by simp [done, matched]⟩⟩
  · have pend : h.stat.pend = true := by simpa [matched] using started
    obtain ⟨taken, buflen, place, space⟩ := inv.buffered clean cell mode pend
    have leaves : h.leaves = true := by simp [SHandle.leaves, mode]
    have copied : ∀ copies, (copies = true ∨ h.len = 0) →
        (Succeeded s (leaveSh s a h copies) a h.inst ↔ h.stat = .matched ∨ 0 < h.len) := by
      intro copies enough
      rw [leaveSh_succeeded_iff success]
      constructor
      · intro given
        refine .inr (place.elim (fun user => ?_) id)
        refine Nat.pos_of_ne_zero fun zero => ?_
        have full := (given user).1
        rw [ok.empty zero] at full
        cases full
      · rintro (stat | long) user
        · exact absurd stat matched
        · exact ⟨space long, enough.resolve_right (Nat.ne_of_gt long)⟩
    refine ⟨⟨_, (wait_pending unlocked pend fun _ => taken).1 leaves, leaveSh_returned _ _ _ _,
      copied true (.inl rfl)⟩, ⟨_, (test_pending unlocked pend taken).1 leaves, copied _ ?_⟩⟩
    rw [buflen]
    simpa using (em (h.len = 0)).symm

/-- Two bytes on their way to another machine, waited for before the receive is posted. -/
theorem buffered_succeeds_iff_two : ∃ s h, Reach ⟨Int.toNat, 4, by decide⟩
    (fun s act => breaks s act = false) s ∧ s.smem ⟨0, 0⟩ = .send h ∧ h.stat = .pendStrt ∧
    h.len = 2 ∧ ∃ s', tmpiIntraWaitSh s ⟨0, 0⟩ h = some s' ∧ Succeeded s s' ⟨0, 0⟩ h.inst := by
  obtain ⟨s, run, h, cell, mode, stat, long⟩ : ∃ s,
      follow ⟨Int.toNat, 4, by decide⟩ (fun s act => !breaks s act)
        (boot ⟨Int.toNat, 4, by decide⟩)
        [.initSh 7 0 1 5 [1, 2] .buffered false false true, .startSh ⟨0, 0⟩ true] = some s ∧
      ∃ h, s.smem ⟨0, 0⟩ = .send h ∧ h.mode = .buffered ∧ h.stat = .pendStrt ∧ h.len = 2 :=
    ⟨_, rfl, _, rfl, rfl, rfl, rfl⟩
  have reach : Reach ⟨Int.toNat, 4, by decide⟩ (fun s act => breaks s act = false) s := by
    simpa using Reach.boot.follow run
  obtain ⟨⟨s', wait, -, succeeded⟩, -⟩ := buffered_succeeds_iff reach cell mode (by rw [stat]; rfl)
  exact ⟨s, h, reach, cell, stat, long, s', wait, succeeded.mpr (.inr (by rw [long]; decide))⟩

/-- An empty buffered send is initialised and started, and its wait returns `MPI_ERR_REQUEST`
with `MPI_ERR_BUFFER` in the status, at home or away, unless the receive was posted first. -/
theorem buffered_empty_fails :
    (∃ s, follow ⟨fun _ => 0, 4, by decide⟩ (fun s act => !breaks s act)
      (boot ⟨fun _ => 0, 4, by decide⟩)
      [.initSh 7 0 1 5 [] .buffered false false true, .startSh ⟨0, 0⟩ true, .waitSh ⟨0, 0⟩] = some s ∧
      s.log = [.sendStarted 0 0 5 [],
        .sendReturned ⟨0, 0⟩ 0 .errRequest (some ⟨0, 0, 5, .errBuffer⟩)]) ∧
    (∃ s, follow ⟨Int.toNat, 4, by decide⟩ (fun s act => !breaks s act)
      (boot ⟨Int.toNat, 4, by decide⟩)
      [.initSh 7 0 1 5 [] .buffered false false true, .startSh ⟨0, 0⟩ true, .testSh ⟨0, 0⟩] = some s ∧
      s.log = [.sendStarted 0 0 5 [],
        .sendReturned ⟨0, 0⟩ 0 .errRequest (some ⟨0, 0, 5, .errBuffer⟩)]) ∧
    ∃ s, follow ⟨fun _ => 0, 4, by decide⟩ (fun s act => !breaks s act)
      (boot ⟨fun _ => 0, 4, by decide⟩)
      [.initRh 7 0 1 5 [] false false, .startRh ⟨1, 0⟩ true,
        .initSh 7 0 1 5 [] .buffered false false true, .startSh ⟨0, 0⟩ true, .waitSh ⟨0, 0⟩] = some s ∧
      s.log = [.recvStarted 0 [], .sendStarted 1 0 5 [],
        .sendReturned ⟨0, 0⟩ 1 .success (some ⟨0, 0, 5, .success⟩)] :=
  ⟨⟨_, rfl, by decide +kernel⟩, ⟨_, rfl, by decide +kernel⟩, ⟨_, rfl, by decide +kernel⟩⟩

end Tmpi.Intra
