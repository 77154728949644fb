import Tmpi.Intra.Runs

/-! What a step adds to the traces of the channels. Only the starts and the two handlers of an
arriving send post anything, and nothing is ever taken back. -/

namespace Tmpi.Intra

variable {cfg : Config} {s s' : Sys} {a b : Addr} {h : SHandle} {r : RHandle} {c : Int} {m : Nat}
  {act : Act}

/-! ## Calls on requests -/

theorem finishSh_trace : (finishSh s a h).trace = s.trace := by
  unfold finishSh
  dsimp only
  split <;> rfl

theorem finishRh_trace : (finishRh s b r).trace = s.trace := by
  unfold finishRh
  dsimp only
  split <;> rfl

theorem leaveSh_trace {copies : Bool} : (leaveSh s a h copies).trace = s.trace := by
  unfold leaveSh
  dsimp only
  split
  · split
    · split <;> rfl
    · rfl
  · rfl

theorem interWaitRest_trace : (interWaitRest s a h).trace = s.trace := by
  unfold interWaitRest
  split
  · exact finishSh_trace
  split
  · rw [finishSh_trace]
    split <;> rfl
  split
  · rfl
  · rfl
  · exact leaveSh_trace
  · split
    · exact leaveSh_trace
    · rfl

theorem tmpiIntraWaitSh_trace (call : tmpiIntraWaitSh s a h = some s') : s'.trace = s.trace := by
  unfold tmpiIntraWaitSh tmpiInterWaitSh at call
  repeat' split at call
  all_goals cases call
  all_goals first | rfl | exact finishSh_trace | exact leaveSh_trace | exact interWaitRest_trace

theorem wakeSh_trace (call : wakeSh s a h = some s') : s'.trace = s.trace := by
  unfold wakeSh at call
  dsimp only at call
  repeat' split at call
  all_goals cases call
  all_goals first | exact finishSh_trace | exact interWaitRest_trace

theorem tmpiIntraTestSh_trace {flag : Bool} (call : tmpiIntraTestSh s a h = some (s', flag)) :
    s'.trace = s.trace := by
  unfold tmpiIntraTestSh at call
  dsimp only at call
  repeat' split at call
  all_goals cases call
  all_goals first | rfl | exact finishSh_trace | exact leaveSh_trace

theorem tmpiIntraCancelSh_trace (call : tmpiIntraCancelSh s a h = some s') :
    s'.trace = s.trace := by
  unfold tmpiIntraCancelSh tmpiInterCancelSh at call
  dsimp only at call
  repeat' split at call
  all_goals cases call
  all_goals first | rfl | exact finishSh_trace

theorem tmpiRequestFreeSh_trace (call : tmpiRequestFreeSh s a h = some s') :
    s'.trace = s.trace := by
  unfold tmpiRequestFreeSh at call
  split at call
  · cases call
  split at call
  · cases call
    rfl
  split at call
  · cases call
  · obtain ⟨⟨s₁, flag⟩, test, rest⟩ := Option.bind_eq_some_iff.mp call
    have same := tmpiIntraTestSh_trace test
    dsimp only at rest
    split at rest
    · split at rest
      · cases rest
        exact same
      · cases rest
    · cases rest
      exact same

theorem completeRh_trace : (completeRh s b r).trace = s.trace := finishRh_trace

theorem tmpiIntraWaitRh_trace : (tmpiIntraWaitRh s b r).trace = s.trace := by
  unfold tmpiIntraWaitRh
  split
  · rfl
  · split
    · exact completeRh_trace
    · rfl

theorem wakeRh_trace (call : wakeRh s b r = some s') : s'.trace = s.trace := by
  unfold wakeRh at call
  split at call
  · cases call
    exact completeRh_trace
  · cases call

theorem tmpiIntraTestRh_trace : (tmpiIntraTestRh s b r).1.trace = s.trace := by
  unfold tmpiIntraTestRh
  split
  · rfl
  · split
    · exact completeRh_trace
    · rfl

theorem tmpiIntraCancelRh_trace : (tmpiIntraCancelRh s b r).trace = s.trace := by
  unfold tmpiIntraCancelRh
  split
  · rfl
  · split
    · exact finishRh_trace
    · rfl

theorem tmpiRequestFreeRh_trace (call : tmpiRequestFreeRh s b r = some s') :
    s'.trace = s.trace := by
  unfold tmpiRequestFreeRh at call
  dsimp only at call
  split at call
  · cases call
    rfl
  split at call
  · cases call
  · split at call
    all_goals
      cases call
      exact tmpiIntraTestRh_trace

/-! ## Starts -/

/-- The traces of `s` go on in `s'`. -/
def Grows (s s' : Sys) : Prop := ∀ c, s.trace c ⊆ s'.trace c

theorem Grows.same (same : s'.trace = s.trace) : Grows s s' := fun c => by
  rw [same]
  exact List.Subset.refl _

theorem Grows.post {events : Trace} (posts : s'.trace =
    Function.update s.trace c (s.trace c ++ events)) : Grows s s' := by
  intro c'
  rw [posts]
  exact trace_grows s.trace c events c'

theorem Grows.trans {s₁ : Sys} (first : Grows s s₁) (second : Grows s₁ s') : Grows s s' := fun c =>
  List.Subset.trans (first c) (second c)

theorem tmpiIntraStartSh_grows {message : Bool} (call : tmpiIntraStartSh cfg s a message h = some s') :
    Grows s s' := by
  unfold tmpiIntraStartSh at call
  split at call
  · cases call
    exact .same rfl
  split at call
  · cases call
    unfold tmpiInterStartSh
    dsimp only
    repeat' split
    all_goals exact .same rfl
  split at call
  · cases call
    exact .same rfl
  dsimp only at call
  split at call
  · cases call
  split at call
  · cases call
    exact .post rfl
  · split at call
    all_goals
      cases call
      exact .post rfl

theorem startRemote_trace {message : Bool} {q : Addr} {rm : RMSHandle} {peer : Nat} :
    (startRemote cfg s b message r q rm peer).trace = s.trace := by
  unfold startRemote
  dsimp only
  repeat' split
  all_goals rfl

theorem tmpiIntraStartRh_grows {message : Bool} (call : tmpiIntraStartRh cfg s b message r = some s') :
    Grows s s' := by
  unfold tmpiIntraStartRh at call
  split at call
  · cases call
    exact .same rfl
  split at call
  · cases call
    exact .same rfl
  dsimp only at call
  split at call
  · cases call
  split at call
  · cases call
    exact .post rfl
  · split at call
    · cases call
      exact .post rfl
    · cases call
      exact .post startRemote_trace

theorem finishStartRh_trace (call : finishStartRh s c = some s') : s'.trace = s.trace := by
  unfold finishStartRh at call
  dsimp only at call
  repeat' split at call
  all_goals cases call
  all_goals first | rfl | exact finishSh_trace

/-! ## Handlers -/

theorem tmpiRmsHandle_grows {message : Bool} {handle : RMSHandle}
    (call : tmpiRmsHandle cfg s m message handle = some s') : Grows s s' := by
  unfold tmpiRmsHandle at call
  dsimp only at call
  split at call
  · cases call
    exact .same rfl
  split at call
  · cases call
    exact .same rfl
  split at call
  · cases call
  split at call
  · cases call
    repeat' split
    all_goals exact .post rfl
  · split at call
    · cases call
      exact .post rfl
    · cases call
      exact .same rfl

theorem tmpiRmdsHandle_grows {from_ : Nat} {message room : Bool} {handle : RMSHandle}
    {payload : Buffer} (call : tmpiRmdsHandle cfg s from_ m message handle payload room = some s') :
    Grows s s' := by
  unfold tmpiRmdsHandle at call
  dsimp only at call
  split at call
  · cases call
    exact .same rfl
  split at call
  · cases call
    exact .same rfl
  split at call
  · cases call
  split at call
  · cases call
    split
    all_goals exact .post rfl
  · split at call
    · cases call
      exact .post rfl
    · cases call
      exact .same rfl

theorem tmpiRdsHandle_trace {from_ : Nat} {message : Bool} {buflen : Nat} {payload : Buffer} :
    (tmpiRdsHandle cfg s from_ m message a b buflen payload).trace = s.trace := by
  unfold tmpiRdsHandle
  dsimp only
  split
  · rfl
  split
  · rfl
  split
  · exact finishRh_trace
  · rfl

theorem tmpiRmrHandle_trace {message : Bool} {buflen : Nat}
    (call : tmpiRmrHandle cfg s m message a b buflen = some s') : s'.trace = s.trace := by
  unfold tmpiRmrHandle at call
  dsimp only at call
  repeat' split at call
  all_goals cases call
  all_goals rfl

theorem answerHandle_trace {buflen : Nat} {errval : Err} {pending blocked : Stat}
    (call : answerHandle cfg s m a buflen errval pending blocked = some s') :
    s'.trace = s.trace := by
  unfold answerHandle at call
  dsimp only at call
  repeat' split at call
  all_goals cases call
  all_goals first | rfl | exact finishSh_trace

theorem tmpiRndyHandle_trace {errval : Err} (call : tmpiRndyHandle cfg s m a errval = some s') :
    s'.trace = s.trace := by
  unfold tmpiRndyHandle at call
  dsimp only at call
  repeat' split at call
  all_goals cases call
  all_goals rfl

theorem deliver_grows {from_ : Nat} {room message : Bool}
    (call : deliver cfg s from_ m room message = some s') : Grows s s' := by
  unfold deliver at call
  split at call
  · cases call
  split at call
  · cases call
  next frame frames _ =>
    have taken : Grows s { s with link := fun i j => if i = from_ ∧ j = m then frames else s.link i j } :=
      .same rfl
    refine taken.trans ?_
    cases frame with
    | rms handle => exact tmpiRmsHandle_grows call
    | rmds handle payload => exact tmpiRmdsHandle_grows call
    | rds remoteSend localRecv buflen errval payload =>
        cases call
        exact .same tmpiRdsHandle_trace
    | rmr localSend remoteRecv buflen errval => exact .same (tmpiRmrHandle_trace call)
    | rdr localSend buflen errval => exact .same (answerHandle_trace call)
    | rmdr localSend buflen errval => exact .same (answerHandle_trace call)
    | nrdy localSend buflen errval => exact .same (tmpiRndyHandle_trace call)

theorem respond_trace (call : respond cfg s m = some s') : s'.trace = s.trace := by
  unfold respond at call
  split at call
  · cases call
  next answer _ =>
    cases answer
    all_goals
      cases call
      rfl

/-! ## Runs -/

theorem step_grows (run : step cfg s act = some s') : Grows s s' := by
  cases act with
  | initSh | initRh =>
      cases run
      exact .same rfl
  | startSh a message =>
      obtain ⟨h, -, call⟩ := onSend_call run
      exact tmpiIntraStartSh_grows call
  | startRh b message => exact tmpiIntraStartRh_grows (onRecv_call run)
  | finishStartRh c => exact .same (finishStartRh_trace run)
  | waitSh a =>
      obtain ⟨h, -, call⟩ := onSend_call run
      exact .same (tmpiIntraWaitSh_trace call)
  | wakeSh a =>
      simp only [step] at run
      split at run
      next h cell => exact .same (wakeSh_trace run)
      next => cases run
  | waitRh b =>
      change onRecv s b (fun r => some (tmpiIntraWaitRh s b r)) = some s' at run
      cases onRecv_call run
      exact .same tmpiIntraWaitRh_trace
  | wakeRh b => exact .same (wakeRh_trace run)
  | testSh a =>
      obtain ⟨h, -, call⟩ := onSend_call run
      obtain ⟨⟨s₁, flag⟩, test, rfl⟩ := Option.map_eq_some_iff.mp call
      exact .same (tmpiIntraTestSh_trace test)
  | testRh b =>
      change onRecv s b (fun r => some (tmpiIntraTestRh s b r).1) = some s' at run
      cases onRecv_call run
      exact .same tmpiIntraTestRh_trace
  | cancelSh a =>
      obtain ⟨h, -, call⟩ := onSend_call run
      exact .same (tmpiIntraCancelSh_trace call)
  | cancelRh b =>
      change onRecv s b (fun r => some (tmpiIntraCancelRh s b r)) = some s' at run
      cases onRecv_call run
      exact .same tmpiIntraCancelRh_trace
  | freeSh a =>
      obtain ⟨h, -, call⟩ := onSend_call run
      exact .same (tmpiRequestFreeSh_trace call)
  | freeRh b => exact .same (tmpiRequestFreeRh_trace (onRecv_call run))
  | deliver from_ m room message => exact deliver_grows run
  | respond m => exact .same (respond_trace run)
  | writeBuf a data =>
      simp only [step] at run
      split at run
      next h cell =>
        unfold writeBuf at run
        split at run
        · cases run
          exact .same rfl
        · cases run
      next => cases run

theorem follow_grows {may : Sys → Act → Bool} {acts : List Act} (run : follow cfg may s acts = some s') :
    Grows s s' := by
  induction acts generalizing s with
  | nil =>
      cases run
      exact .same rfl
  | cons act rest ih =>
      unfold follow at run
      split at run
      next =>
        obtain ⟨next, one, others⟩ := Option.bind_eq_some_iff.mp run
        exact (step_grows one).trans (ih others)
      next => cases run

end Tmpi.Intra
