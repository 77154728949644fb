import Tmpi.Intra.Runs

/-! What a step of a run does to the send handles and logs about them. -/

namespace Tmpi.Intra

open Function (update)

variable {cfg : Config} {s s' s₁ : Sys} {a b : Addr} {h h' h₁ : SHandle} {added front back : List Event}
  {starting : Bool} {act : Act}

/-- A call has reported the completion of the send. -/
def Reported (log : List Event) (a : Addr) : Prop :=
  ∃ inst ret status, .sendReturned a inst ret (some status) ∈ log

/-- What is fixed when a request is created. -/
def SHandle.made (h : SHandle) : HandleType × UInt32 × Int × Int × Int × Nat × Mode × Bool :=
  (h.handleType, h.context, h.tag, h.src, h.dest, h.len, h.mode, h.isRemote)

/-- A step that logs `added` makes `h'` of the handle `h`. -/
structure Update (starting : Bool) (added : List Event) (a : Addr) (h h' : SHandle) : Prop where
  made : h'.made = h.made
  held : h.handleType = .persistent → h.held = true → h'.held = true
  /-- Only a start makes it pending. -/
  starts : starting = false → h'.stat = .pendStrt → h.stat = .pendStrt
  freed : h'.stat = .free →
    h.stat = .free ∧ h'.errval = h.errval ∨ h'.errval = .success ∨ ∃ what, .fault what ∈ added
  left : h.stat = .pendRels → h'.stat = .pendRels ∨ h'.stat = .free ∨ h.leaves = false
  done : Reported added a → h'.stat = .free ∨ h'.stat = .pendRels

/-- How a cell of the send memory moves that was handed out before if `live`. -/
inductive CellMoves (starting : Bool) (added : List Event) (live : Prop) (a : Addr) : SCell → SCell → Prop where
  | send {h h' : SHandle} : Update starting added a h h' → CellMoves starting added live a (.send h) (.send h')
  | remote {r r' : RMSHandle} : CellMoves starting added live a (.remote r) (.remote r')
  | parked {cell : SCell} {r : RMSHandle} : ¬ live → CellMoves starting added live a cell (.remote r)

def MovesAt (starting : Bool) (s s' : Sys) (a : Addr) : Prop :=
  ∃ added, s'.log = s.log ++ added ∧ CellMoves starting added (s.LiveS a) a (s.smem a) (s'.smem a)

def Moves (starting : Bool) (s s' : Sys) : Prop := ∀ a, MovesAt starting s s' a

/-! ## Logs -/

theorem Reported.append (done : Reported (front ++ back) a) : Reported front a ∨ Reported back a := by
  obtain ⟨inst, ret, status, member⟩ := done
  cases List.mem_append.mp member with
  | inl before => exact .inl ⟨inst, ret, status, before⟩
  | inr after => exact .inr ⟨inst, ret, status, after⟩

/-- The log says of no send that it has been completed, but of `a`. -/
def About (added : List Event) (a : Addr) : Prop := ∀ x, Reported added x → x = a

/-- The log says of no send that it has been completed. -/
def Quiet (added : List Event) : Prop := ∀ x, ¬ Reported added x

theorem Quiet.about (quiet : Quiet added) (a : Addr) : About added a := fun x done => absurd done (quiet x)

theorem Quiet.nil : Quiet [] := by
  rintro x ⟨inst, ret, status, member⟩
  cases member

/-- The event reports the completion of a send. -/
def Event.completing : Event → Bool
  | .sendReturned _ _ _ (some _) => true
  | _ => false

theorem Quiet.singleton {e : Event} (other : e.completing = false) : Quiet [e] := by
  rintro x ⟨inst, ret, status, member⟩
  rw [← List.mem_singleton.mp member] at other
  cases other

theorem Quiet.append (quiet : Quiet front) (quiet' : Quiet back) : Quiet (front ++ back) := fun x done =>
  done.append.elim (quiet x) (quiet' x)

theorem About.append (about : About front a) (quiet : Quiet back) : About (front ++ back) a := fun x done =>
  done.append.elim (about x) fun later => absurd later (quiet x)

theorem About.after (quiet : Quiet front) (about : About back a) : About (front ++ back) a := fun x done =>
  done.append.elim (fun before => absurd before (quiet x)) (about x)

theorem About.returned (a : Addr) (inst : Nat) (ret : Err) (status : Option Status) :
    About [.sendReturned a inst ret status] a := by
  rintro x ⟨inst', ret', status', member⟩
  cases List.mem_singleton.mp member
  rfl

theorem quiet_ite {p : Prop} [Decidable p] {e : Event} (other : e.completing = false) :
    Quiet (if p then [] else [e]) := by
  split
  · exact .nil
  · exact .singleton other

/-! ## One handle -/

namespace Update

theorem refl (quiet : ¬ Reported added a) (h : SHandle) : Update starting added a h h where
  made := rfl
  held _ owned := owned
  starts _ stat := stat
  freed stat := .inl ⟨stat, rfl⟩
  left stat := .inl stat
  done reported := absurd reported quiet

/-- A field that nobody asks for. -/
theorem stay (quiet : ¬ Reported added a) (made : h'.made = h.made) (held : h'.held = h.held)
    (stat : h'.stat = h.stat) (errval : h'.errval = h.errval) : Update starting added a h h' where
  made := made
  held _ owned := held.trans owned
  starts _ pending := stat ▸ pending
  freed free := .inl ⟨stat ▸ free, errval⟩
  left rels := .inl (stat.trans rels)
  done reported := absurd reported quiet

theorem finish (made : h'.made = h.made) (held : h.handleType = .persistent → h.held = true → h'.held = true)
    (stat : h'.stat = .free) (errval : h'.errval = .success) : Update starting added a h h' where
  made := made
  held := held
  starts _ pending := by rw [stat] at pending; cases pending
  freed _ := .inr (.inl errval)
  left _ := .inr (.inl stat)
  done _ := .inl stat

theorem leave (made : h'.made = h.made) (held : h.handleType = .persistent → h.held = true → h'.held = true)
    (stat : h'.stat = .pendRels) : Update starting added a h h' where
  made := made
  held := held
  starts _ pending := by rw [stat] at pending; cases pending
  freed free := by rw [stat] at free; cases free
  left _ := .inl stat
  done _ := .inr stat

/-- The request goes on. -/
theorem onward (quiet : ¬ Reported added a) (made : h'.made = h.made) (held : h'.held = h.held)
    (open' : h'.stat ≠ .free ∧ h'.stat ≠ .pendRels) (pending : h'.stat = .pendStrt → h.stat = .pendStrt)
    (stays : h.stat = .pendRels → h.leaves = false) : Update starting added a h h' where
  made := made
  held _ owned := held.trans owned
  starts _ := pending
  freed free := absurd free open'.1
  left rels := .inr (.inr (stays rels))
  done reported := absurd reported quiet

/-- The message is not for the request. -/
theorem garble (quiet : ¬ Reported added a) (made : h'.made = h.made) (held : h'.held = h.held)
    (stat : h'.stat = h.stat) (fault : ∃ what, .fault what ∈ added) : Update starting added a h h' where
  made := made
  held _ owned := held.trans owned
  starts _ pending := stat ▸ pending
  freed _ := .inr (.inr fault)
  left rels := .inl (stat.trans rels)
  done reported := absurd reported quiet

/-- The step has logged something else before. -/
theorem after (quiet : ¬ Reported front a) (up : Update starting back a h h') :
    Update starting (front ++ back) a h h' where
  made := up.made
  held := up.held
  starts := up.starts
  freed stat := (up.freed stat).imp_right fun rest => rest.imp_right fun ⟨what, member⟩ =>
    ⟨what, List.mem_append_right front member⟩
  left := up.left
  done reported := up.done (reported.append.resolve_left quiet)

/-- The step logs something else afterwards. -/
theorem before (quiet : ¬ Reported back a) (up : Update starting front a h h') :
    Update starting (front ++ back) a h h' where
  made := up.made
  held := up.held
  starts := up.starts
  freed stat := (up.freed stat).imp_right fun rest => rest.imp_right fun ⟨what, member⟩ =>
    ⟨what, List.mem_append_left back member⟩
  left := up.left
  done reported := up.done (reported.append.resolve_right quiet)

end Update

theorem CellMoves.after {live : Prop} {cell cell' : SCell} (quiet : ¬ Reported front a)
    (moves : CellMoves starting back live a cell cell') : CellMoves starting (front ++ back) live a cell cell' := by
  cases moves with
  | send up => exact .send (up.after quiet)
  | remote => exact .remote
  | parked dead => exact .parked dead

theorem CellMoves.before {live : Prop} {cell cell' : SCell} (quiet : ¬ Reported back a)
    (moves : CellMoves starting front live a cell cell') : CellMoves starting (front ++ back) live a cell cell' := by
  cases moves with
  | send up => exact .send (up.before quiet)
  | remote => exact .remote
  | parked dead => exact .parked dead

/-! ## The whole memory -/

namespace MovesAt

theorem frame (memory : s'.smem a = s.smem a) (log : s'.log = s.log ++ added) (quiet : ¬ Reported added a) :
    MovesAt starting s s' a := by
  refine ⟨added, log, ?_⟩
  rw [memory]
  cases s.smem a with
  | send h => exact .send (.refl quiet h)
  | remote r => exact .remote

/-- Somebody else's update after a move. -/
theorem aside (moves : MovesAt starting s s₁ a) (memory : s'.smem a = s₁.smem a)
    (log : s'.log = s₁.log ++ back) (quiet : ¬ Reported back a) : MovesAt starting s s' a := by
  obtain ⟨front, log', cell⟩ := moves
  refine ⟨front ++ back, by rw [log, log', List.append_assoc], ?_⟩
  rw [memory]
  exact cell.before quiet

end MovesAt

namespace Moves

theorem same (memory : s'.smem = s.smem) (log : s'.log = s.log ++ added) (quiet : Quiet added) :
    Moves starting s s' := by
  refine fun x => ⟨added, log, ?_⟩
  rw [memory]
  cases s.smem x with
  | send h => exact .send (.refl (quiet x) h)
  | remote r => exact .remote

theorem still (memory : s'.smem = s.smem) (log : s'.log = s.log) : Moves starting s s' :=
  same memory (by rw [log, List.append_nil]) .nil

theorem put (cell : s.smem a = .send h) (memory : s'.smem = update s.smem a (.send h'))
    (log : s'.log = s.log ++ added) (about : About added a) (up : Update starting added a h h') :
    Moves starting s s' := by
  refine fun x => ⟨added, log, ?_⟩
  by_cases here : x = a
  · subst here
    rw [memory, Function.update_self, cell]
    exact .send up
  · rw [memory, Function.update_of_ne here]
    cases s.smem x with
    | send hx => exact .send (.refl (fun done => here (about x done)) hx)
    | remote r => exact .remote

/-- A step that logs nothing. -/
theorem putQuiet (cell : s.smem a = .send h) (memory : s'.smem = update s.smem a (.send h'))
    (log : s'.log = s.log) (up : Update starting [] a h h') : Moves starting s s' :=
  put cell memory (by rw [log, List.append_nil]) (Quiet.nil.about a) up

theorem putRemote {q : Addr} {r : RMSHandle} (memory : s'.smem = update s.smem q (.remote r))
    (log : s'.log = s.log ++ added) (quiet : Quiet added)
    (unused : ¬ s.LiveS q ∨ ∃ r, s.smem q = .remote r) : Moves starting s s' := by
  refine fun x => ⟨added, log, ?_⟩
  by_cases here : x = q
  · subst here
    rw [memory, Function.update_self]
    rcases unused with dead | ⟨r', cell⟩
    · exact .parked dead
    · rw [cell]
      exact .remote
  · rw [memory, Function.update_of_ne here]
    cases s.smem x with
    | send hx => exact .send (.refl (quiet x) hx)
    | remote r => exact .remote

theorem after (s₁ : Sys) (memory : s₁.smem = s.smem) (live : s₁.LiveS = s.LiveS) (log : s₁.log = s.log ++ front)
    (quiet : Quiet front) (moves : Moves starting s₁ s') : Moves starting s s' := by
  intro x
  obtain ⟨back, log', cell⟩ := moves x
  refine ⟨front ++ back, by rw [log', log, List.append_assoc], ?_⟩
  rw [← memory, ← live]
  exact cell.after (quiet x)

/-! ### Calls on sends -/

theorem finishSh (memory : s₁.smem = s.smem) (log : s₁.log = s.log ++ front) (about : About front a)
    (cell : s.smem a = .send h) (made : h₁.made = h.made) (held : h₁.held = h.held) :
    Moves starting s (finishSh s₁ a h₁) := by
  have type : h₁.handleType = h.handleType := congrArg Prod.fst made
  unfold Intra.finishSh
  dsimp only
  split
  next plain =>
    have up : Update starting (front ++ if s₁.LiveS a then [] else [.fault (.doubleFree a)]) a h
        { h₁ with stat := .free, errval := .success, pc := .idle, held := false } :=
      .finish made (fun persistent => absurd (type.trans persistent) plain) rfl rfl
    refine put cell ?_ ?_ (about.append (quiet_ite rfl)) up
    · rw [← memory]
      rfl
    · rw [← List.append_assoc, ← log]
      rfl
  next =>
    have up : Update starting front a h { h₁ with
        stat := .free, errval := .success, pc := .idle, curdata := .userBuf, buflen := h₁.len } :=
      .finish made (fun _ owned => held.trans owned) rfl rfl
    refine put cell ?_ log about up
    rw [← memory]
    rfl

theorem finish (memory : s₁.smem = s.smem) (log : s₁.log = s.log ++ front) (about : About front a)
    (cell : s.smem a = .send h) : Moves starting s (Intra.finishSh s₁ a h) :=
  finishSh memory log about cell rfl rfl

theorem leaveSh (cell : s.smem a = .send h) (copies : Bool) : Moves starting s (leaveSh s a h copies) := by
  unfold Intra.leaveSh
  dsimp only
  split
  · split
    · split
      all_goals exact put cell rfl rfl (.returned _ _ _ _) (.leave rfl (fun persistent _ => decide_eq_true persistent) rfl)
    · exact put cell rfl rfl (.returned _ _ _ _) (.leave rfl (fun persistent _ => decide_eq_true persistent) rfl)
  · exact put cell rfl rfl (.returned _ _ _ _) (.leave rfl (fun persistent _ => decide_eq_true persistent) rfl)

/-- A refused send is reported after a complaint about one that is not ready. -/
theorem finishRefused {p : Prop} [Decidable p] (cell : s.smem a = .send h) (inst : Nat) (ret : Err)
    (status : Option Status) : Moves starting s (Intra.finishSh
      ((if p then s.record (.fault .protocolError) else s).record (.sendReturned a inst ret status)) a h) := by
  have about := About.returned a inst ret status
  split
  · exact finish rfl (List.append_assoc _ _ _) (.after (.singleton rfl) about) cell
  · exact finish rfl rfl about cell

theorem blocks {stat : Stat} (cell : s.smem a = .send h) (must : h.leaves = false)
    (stat' : stat = .pendWait ∨ stat = .pendDwat) :
    Moves starting s (s.setS a (.send { h with stat, pc := .waiting })) := by
  have up : Update starting [] a h { h with stat, pc := .waiting } := by
    refine .onward (Quiet.nil a) rfl rfl ?_ (fun pending => ?_) fun _ => must
    · rcases stat' with rfl | rfl <;> exact ⟨nofun, nofun⟩
    · rcases stat' with rfl | rfl <;> cases pending
  exact putQuiet cell rfl rfl up

theorem blockSh (cell : s.smem a = .send h) (must : h.leaves = false) :
    Moves starting s (blockSh s a h) := by
  refine blocks cell must ?_
  split
  · exact .inl rfl
  · exact .inr rfl

theorem interWaitRest (cell : s.smem a = .send h) : Moves starting s (interWaitRest s a h) := by
  unfold Intra.interWaitRest
  split
  next => exact finish rfl rfl (.returned _ _ _ _) cell
  next =>
    split
    next =>
      exact finishRefused cell _ _ _
    next =>
      cases mode : h.mode with
      | sync => exact blockSh cell (by simp [SHandle.leaves, mode])
      | ready => exact blockSh cell (by simp [SHandle.leaves, mode])
      | buffered => exact leaveSh cell true
      | standard =>
          dsimp only
          split
          next => exact leaveSh cell true
          next room => exact blockSh cell (by simpa [SHandle.leaves, mode] using room)

theorem tmpiIntraWaitSh (cell : s.smem a = .send h) (call : tmpiIntraWaitSh s a h = some s') :
    Moves starting s s' := by
  have waits : Moves starting s (s.setS a (.send { h with pc := .readyWait })) :=
    putQuiet cell rfl rfl (.stay (Quiet.nil a) rfl rfl rfl rfl)
  unfold Intra.tmpiIntraWaitSh tmpiInterWaitSh at call
  split at call
  next =>
    split at call
    next =>
      cases call
      exact same rfl rfl (.singleton rfl)
    next =>
      split at call
      next => cases call
      next =>
        split at call
        · cases call
          exact waits
        · cases call
          exact interWaitRest cell
  next =>
    split at call
    next =>
      cases call
      exact same rfl rfl (.singleton rfl)
    next =>
      split at call
      next => cases call
      next =>
        split at call
        next =>
          cases call
          exact finish rfl rfl (.returned _ _ _ _) cell
        next =>
          split at call
          next mode =>
            cases call
            exact blocks cell (by simp [SHandle.leaves, mode]) (.inl rfl)
          next =>
            cases call
            exact leaveSh cell true
          next =>
            cases call
            exact finish rfl rfl (.returned _ _ _ _) cell
          next mode =>
            split at call
            next =>
              cases call
              exact leaveSh cell true
            next room =>
              cases call
              exact blocks cell (by simpa [SHandle.leaves, mode] using room) (.inl rfl)

theorem wakeSh (cell : s.smem a = .send h) (call : wakeSh s a h = some s') : Moves starting s s' := by
  unfold Intra.wakeSh at call
  split at call
  next => cases call
  next =>
    split at call
    next =>
      split at call
      next => cases call
      next =>
        cases call
        have same : Intra.interWaitRest s a { h with pc := .idle } = Intra.interWaitRest s a h := rfl
        rw [same]
        exact interWaitRest cell
    next =>
      split at call
      next =>
        split at call
        · split at call
          · cases call
          · cases call
            exact finish rfl rfl (.returned _ _ _ _) cell
        · split at call
          · cases call
          · cases call
            exact finishRefused cell _ _ _
      next => cases call

theorem tmpiIntraTestSh (cell : s.smem a = .send h) {flag : Bool}
    (call : tmpiIntraTestSh s a h = some (s', flag)) : Moves starting s s' := by
  have locks : Moves starting s (s.setS a (.send { h with locked := true })) :=
    putQuiet cell rfl rfl (.stay (Quiet.nil a) rfl rfl rfl rfl)
  unfold Intra.tmpiIntraTestSh at call
  split at call
  next =>
    cases call
    exact same rfl rfl (.singleton rfl)
  next =>
    split at call
    next => cases call
    next =>
      split at call
      next =>
        cases call
        exact finish rfl rfl (.returned _ _ _ _) cell
      next =>
        split at call
        next =>
          cases call
          exact finishRefused cell _ _ _
        next =>
          split at call
          · cases call
            exact locks
          · cases call
            exact locks
          · cases call
            exact leaveSh cell _
          · split at call
            · cases call
              exact leaveSh cell _
            · cases call
              exact locks

theorem writeBuf (cell : s.smem a = .send h) {data : Buffer}
    (call : writeBuf s a data h = some s') : Moves starting s s' := by
  unfold Intra.writeBuf at call
  split at call
  · cases call
    exact putQuiet cell rfl rfl (.stay (Quiet.nil a) rfl rfl rfl rfl)
  · cases call

/-! ### Calls on receives -/

theorem finishStartRh {c : Int} (call : finishStartRh s c = some s') : Moves starting s s' := by
  unfold Intra.finishStartRh at call
  split at call
  next => cases call
  next b a busy =>
    split at call
    next => cases call
    next h cell =>
      split at call
      next => cases call
      next =>
        dsimp only at call
        split at call
        next taken =>
          cases call
          refine putQuiet cell rfl rfl
            (.onward (Quiet.nil a) rfl rfl ⟨nofun, nofun⟩ nofun fun rels => ?_)
          rw [rels] at taken
          rcases taken with waits | pending
          · cases waits
          · cases pending
        next =>
          split at call
          next =>
            cases call
            exact finishSh rfl (List.append_nil _).symm (Quiet.nil.about a) cell rfl rfl
          next =>
            cases call
            exact put cell rfl rfl (Quiet.about (.singleton rfl) a)
              (.garble (Quiet.singleton rfl a) rfl rfl rfl ⟨_, List.mem_singleton_self _⟩)

theorem startRemote {r : RHandle} {q : Addr} {rm : RMSHandle} {peer : Nat} {message : Bool}
    (cell : s.smem q = .remote rm) : Moves starting s (startRemote cfg s b message r q rm peer) := by
  unfold Intra.startRemote
  cases rm.handleType
  all_goals
    cases message
    all_goals exact putRemote rfl rfl (quiet_ite rfl) (.inr ⟨rm, cell⟩)

theorem tmpiIntraStartRh {r : RHandle} {message : Bool}
    (call : tmpiIntraStartRh cfg s b message r = some s') : Moves starting s s' := by
  unfold Intra.tmpiIntraStartRh at call
  split at call
  next =>
    cases call
    exact same rfl rfl (.singleton rfl)
  next =>
    split at call
    next =>
      cases call
      exact same rfl rfl (.singleton rfl)
    next =>
      dsimp only at call
      split at call
      next => cases call
      next =>
        split at call
        next =>
          cases call
          exact same rfl rfl (.singleton rfl)
        next =>
          split at call
          next =>
            cases call
            exact same rfl rfl (.singleton rfl)
          next rm remote =>
            cases call
            have quiet : Quiet [.recvStarted s.clock r.data] := .singleton rfl
            refine after _ ?_ ?_ ?_ quiet (startRemote ?_)
            · rfl
            · exact liveS_congr (update_field Channel.spool rfl)
            · rfl
            · exact remote

theorem completeRh (r : RHandle) : Moves starting s (completeRh s b r) := by
  unfold Intra.completeRh finishRh
  dsimp only
  split
  · exact same rfl (List.append_assoc _ _ _) (.append (.singleton rfl) (quiet_ite rfl))
  · exact same rfl rfl (.singleton rfl)

theorem tmpiIntraWaitRh (r : RHandle) : Moves starting s (tmpiIntraWaitRh s b r) := by
  unfold Intra.tmpiIntraWaitRh
  split
  · exact same rfl rfl (.singleton rfl)
  · split
    · exact completeRh r
    · exact still rfl rfl

theorem tmpiIntraTestRh (r : RHandle) : Moves starting s (tmpiIntraTestRh s b r).1 := by
  unfold Intra.tmpiIntraTestRh
  split
  · exact same rfl rfl (.singleton rfl)
  · split
    · exact completeRh r
    · exact still rfl rfl

theorem wakeRh {r : RHandle} (call : wakeRh s b r = some s') : Moves starting s s' := by
  unfold Intra.wakeRh at call
  split at call
  · cases call
    exact completeRh r
  · cases call

theorem finishRh (r : RHandle) : Moves starting s (finishRh s b r) := by
  unfold Intra.finishRh
  dsimp only
  split
  · exact same rfl rfl (quiet_ite rfl)
  · exact still rfl rfl

theorem tmpiIntraCancelRh (r : RHandle) : Moves starting s (tmpiIntraCancelRh s b r) := by
  unfold Intra.tmpiIntraCancelRh
  split
  · exact same rfl rfl (.singleton rfl)
  · split
    · exact finishRh r
    · exact still rfl rfl

theorem tmpiRequestFreeRh {r : RHandle} (call : tmpiRequestFreeRh s b r = some s') : Moves starting s s' := by
  unfold Intra.tmpiRequestFreeRh at call
  split at call
  · cases call
    exact same rfl rfl (quiet_ite rfl)
  · split at call
    · cases call
    · have test : Moves starting s (Intra.tmpiIntraTestRh s b r).1 := tmpiIntraTestRh r
      dsimp only at call
      split at call
      · cases call
        exact fun a => (test a).aside rfl rfl (quiet_ite rfl a)
      · cases call
        exact test

/-! ### Handlers -/

theorem enqueueRms (rm : RMSHandle) (c : Int) (events : Trace) :
    Moves starting s ((enqueueRms cfg s rm).post c events) :=
  putRemote rfl (List.append_nil _).symm .nil (.inl qNewElem_fresh)

theorem tmpiRmsHandle {m : Nat} {handle : RMSHandle} {message : Bool}
    (call : tmpiRmsHandle cfg s m message handle = some s') : Moves starting s s' := by
  unfold Intra.tmpiRmsHandle at call
  dsimp only at call
  split at call
  · cases call
    exact still rfl rfl
  split at call
  · cases call
    exact still rfl rfl
  · split at call
    · cases call
    · split at call
      · cases call
        split
        · exact still rfl rfl
        · split
          · exact still rfl rfl
          · exact same rfl rfl (.singleton rfl)
      · split at call
        · cases call
          exact enqueueRms _ _ _
        · cases call
          exact still rfl rfl

theorem tmpiRmdsHandle {from_ m : Nat} {handle : RMSHandle} {payload : Buffer} {room message : Bool}
    (call : tmpiRmdsHandle cfg s from_ m message handle payload room = some s') :
    Moves starting s s' := by
  unfold Intra.tmpiRmdsHandle at call
  dsimp only at call
  split at call
  · cases call
    exact still rfl rfl
  split at call
  · cases call
    exact still rfl rfl
  · split at call
    · cases call
    · split at call
      · cases call
        split
        · exact still rfl rfl
        · exact same rfl rfl (.singleton rfl)
      · split at call
        · cases call
          exact enqueueRms _ _ _
        · cases call
          exact still rfl rfl

theorem checkS (cfg : Config) (s : Sys) (m : Nat) (x : Addr) (moves : Moves starting (s.checkS cfg m x) s') :
    Moves starting s s' := by
  have quiet : Quiet (if cfg.home x.owner = m ∧ s.LiveS x then [] else [.fault (.stale x)]) := quiet_ite rfl
  exact after (s.checkS cfg m x) rfl rfl rfl quiet moves

theorem tmpiRdsHandle (m from_ : Nat) (message : Bool) (send b : Addr) (buflen : Nat)
    (payload : Buffer) : Moves starting s (tmpiRdsHandle cfg s from_ m message send b buflen payload) := by
  have quiet : Quiet (if cfg.home b.owner = m ∧ s.LiveR b then [] else [.fault (.stale b)]) := quiet_ite rfl
  unfold Intra.tmpiRdsHandle
  dsimp only
  split
  · exact still rfl rfl
  split
  · exact same rfl rfl quiet
  · split
    · unfold Intra.finishRh
      dsimp only
      split
      · exact same rfl (List.append_assoc _ _ _) (quiet.append (quiet_ite rfl))
      · exact same rfl rfl quiet
    · exact same rfl (List.append_assoc _ _ _) (quiet.append (.singleton rfl))

theorem tmpiRmrHandle {m : Nat} {x b : Addr} {buflen : Nat} {message : Bool}
    (call : tmpiRmrHandle cfg s m message x b buflen = some s') : Moves starting s s' := by
  unfold Intra.tmpiRmrHandle at call
  dsimp only at call
  split at call
  · cases call
    exact still rfl rfl
  refine checkS cfg s m x ?_
  split at call
  next =>
    cases call
    exact still rfl rfl
  next h cell =>
    split at call
    · cases call
    · split at call
      next first =>
        cases call
        refine putQuiet cell rfl rfl
          (.onward (Quiet.nil x) rfl rfl ⟨nofun, nofun⟩ nofun fun rels => ?_)
        rw [rels] at first
        cases first
      next =>
        split at call
        next waits =>
          cases call
          refine putQuiet cell rfl rfl
            (.onward (Quiet.nil x) rfl rfl ⟨nofun, nofun⟩ nofun fun rels => ?_)
          rw [rels] at waits
          cases waits
        next =>
          split at call
          · cases call
            exact same rfl rfl (.singleton rfl)
          · cases call
            exact still rfl rfl

theorem answerHandle {m : Nat} {x : Addr} {buflen : Nat} {errval : Err} {pending blocked : Stat}
    (call : answerHandle cfg s m x buflen errval pending blocked = some s')
    (early : pending ≠ .pendRels ∧ blocked ≠ .pendRels) : Moves starting s s' := by
  unfold Intra.answerHandle at call
  dsimp only at call
  refine checkS cfg s m x ?_
  split at call
  next =>
    cases call
    exact still rfl rfl
  next h cell =>
    split at call
    · cases call
    · split at call
      next expected =>
        cases call
        refine putQuiet cell rfl rfl
          (.onward (Quiet.nil x) rfl rfl ⟨nofun, nofun⟩ nofun fun rels => ?_)
        rw [rels] at expected
        rcases expected with same | same
        · exact absurd same.symm early.1
        · exact absurd same.symm early.2
      next =>
        split at call
        · cases call
          exact put cell rfl rfl (Quiet.about (.singleton rfl) x)
            (.garble (Quiet.singleton rfl x) rfl rfl rfl ⟨_, List.mem_singleton_self _⟩)
        · cases call
          exact finishSh rfl (List.append_nil _).symm (Quiet.nil.about x) cell rfl rfl

theorem tmpiRndyHandle {m : Nat} {x : Addr} {errval : Err}
    (call : tmpiRndyHandle cfg s m x errval = some s') : Moves starting s s' := by
  unfold Intra.tmpiRndyHandle at call
  dsimp only at call
  refine checkS cfg s m x ?_
  split at call
  next =>
    cases call
    exact still rfl rfl
  next h cell =>
    split at call
    · cases call
    · split at call
      next first =>
        cases call
        refine putQuiet cell rfl rfl
          (.onward (Quiet.nil x) rfl rfl ⟨nofun, nofun⟩ nofun fun rels => ?_)
        have same : h.stat = .pendStrt := first
        rw [rels] at same
        cases same
      next =>
        cases call
        exact put cell rfl rfl (Quiet.about (.singleton rfl) x)
          (.garble (Quiet.singleton rfl x) rfl rfl rfl ⟨_, List.mem_singleton_self _⟩)

theorem deliver {from_ m : Nat} {room message : Bool}
    (call : deliver cfg s from_ m room message = some s') : Moves starting s s' := by
  unfold Intra.deliver at call
  split at call
  next => cases call
  next =>
    split at call
    next => cases call
    next frame frames _ =>
      refine after { s with link := fun i j => if i = from_ ∧ j = m then frames else s.link i j }
        rfl rfl (List.append_nil _).symm .nil ?_
      unfold tmpiInterMsgHandle at call
      cases frame with
      | rms handle => exact tmpiRmsHandle call
      | rmds handle payload => exact tmpiRmdsHandle call
      | rds send b buflen errval payload =>
          cases call
          exact tmpiRdsHandle _ _ _ _ _ _ _
      | rmr send b buflen errval => exact tmpiRmrHandle call
      | rdr send buflen errval => exact answerHandle call ⟨nofun, nofun⟩
      | rmdr send buflen errval => exact answerHandle call ⟨nofun, nofun⟩
      | nrdy send buflen errval => exact tmpiRndyHandle call

theorem respond {m : Nat} (call : respond cfg s m = some s') : Moves starting s s' := by
  unfold Intra.respond at call
  split at call
  next => cases call
  next answer _ =>
    cases answer
    all_goals
      cases call
      exact still rfl rfl

/-! ### Starts, cancels and releases -/

theorem put_start (cell : s.smem a = .send h) (may : h.startable = true) {stat : Stat} {buflen : Nat}
    {errval : Err} (active : stat = .pendStrt ∨ stat = .matched)
    (memory : s'.smem = update s.smem a (.send { h with inst := s.clock, stat, buflen, errval }))
    (log : s'.log = s.log ++ added) (quiet : Quiet added) : Moves true s s' := by
  refine put cell memory log (quiet.about a) ⟨rfl, fun _ owned => owned, nofun, fun free => ?_, fun rels => ?_,
    fun done => absurd done (quiet a)⟩
  · rcases active with same | same <;> rw [same] at free <;> cases free
  · rw [SHandle.startable, rels] at may
    simp at may

theorem tmpiIntraStartSh (cell : s.smem a = .send h) {message : Bool}
    (call : tmpiIntraStartSh cfg s a message h = some s') : Moves true s s' := by
  unfold Intra.tmpiIntraStartSh at call
  split at call
  next =>
    cases call
    exact same rfl rfl (.singleton rfl)
  next =>
    split at call
    next =>
      cases call
      unfold tmpiInterStartSh
      split
      next => exact same rfl rfl (.singleton rfl)
      next may =>
        have may : h.startable = true := by simpa using may
        split
        · exact same rfl rfl (.singleton rfl)
        · dsimp only
          split
          · exact put_start cell may (.inl rfl) rfl rfl (.singleton rfl)
          · exact put_start cell may (.inl rfl) rfl rfl (.singleton rfl)
    next =>
      split at call
      next =>
        cases call
        exact same rfl rfl (.singleton rfl)
      next may =>
        have may : h.startable = true := by simpa using may
        dsimp only at call
        split at call
        next => cases call
        next =>
          split at call
          next =>
            cases call
            exact put_start cell may (.inl rfl) rfl rfl (.singleton rfl)
          next =>
            split at call
            · cases call
              exact put_start cell may (.inr rfl) rfl rfl (.singleton rfl)
            · cases call
              exact put_start cell may (.inr rfl) rfl (List.append_assoc _ _ _)
                (.append (.singleton rfl) (.singleton rfl))

end Moves

namespace MovesAt

theorem finishSh {x : Addr} (moves : MovesAt starting s s₁ a) (other : a ≠ x) (h : SHandle) :
    MovesAt starting s (finishSh s₁ x h) a := by
  unfold Intra.finishSh
  dsimp only
  split
  · exact moves.aside (Function.update_of_ne other _ _) rfl (quiet_ite rfl a)
  · exact moves.aside (Function.update_of_ne other _ _) (List.append_nil _).symm (Quiet.nil a)

theorem tmpiIntraCancelSh {x : Addr} (other : a ≠ x) (call : tmpiIntraCancelSh s x h = some s') :
    MovesAt starting s s' a := by
  have still : MovesAt starting s s a := frame rfl (List.append_nil _).symm (Quiet.nil a)
  have refuses : MovesAt starting s (s.record (.sendReturned x h.inst .errIntern none)) a :=
    frame rfl rfl (Quiet.singleton rfl a)
  have complains : MovesAt starting s (s.record (.fault .protocolError)) a :=
    frame rfl rfl (Quiet.singleton rfl a)
  unfold Intra.tmpiIntraCancelSh tmpiInterCancelSh at call
  split at call
  · split at call
    · cases call
      exact refuses
    · split at call
      · cases call
      · split at call
        · cases call
          exact still.finishSh other h
        · split at call
          · cases call
            split
            · exact complains.finishSh other h
            · exact still.finishSh other h
          · cases call
            exact frame (Function.update_of_ne other _ _) (List.append_nil _).symm (Quiet.nil a)
  · split at call
    · cases call
      exact refuses
    · split at call
      · cases call
      · cases call
        exact still.finishSh other h

theorem tmpiRequestFreeSh {x : Addr} (cell : s.smem x = .send h) (other : a ≠ x)
    (call : tmpiRequestFreeSh s x h = some s') : MovesAt starting s s' a := by
  unfold Intra.tmpiRequestFreeSh at call
  split at call
  · cases call
  · split at call
    · cases call
      exact frame (Function.update_of_ne other _ _) rfl (quiet_ite rfl a)
    · split at call
      · cases call
      · obtain ⟨⟨s₁, flag⟩, test, rest⟩ := Option.bind_eq_some_iff.mp call
        have moves : MovesAt starting s s₁ a := Moves.tmpiIntraTestSh cell test a
        dsimp only at rest
        split at rest
        · split at rest
          · cases rest
            exact moves.aside (Function.update_of_ne other _ _) rfl (quiet_ite rfl a)
          · cases rest
        · cases rest
          exact moves

end MovesAt

/-! ## One step -/

/-- The step is a cancel or a release of the send by its owner. -/
def Act.drops (a : Addr) : Act → Bool
  | .cancelSh x | .freeSh x => x = a
  | _ => false

theorem step_moves (run : step cfg s act = some s') (kept : act.drops a = false) (live : s.LiveS a) :
    MovesAt true s s' a := by
  cases act with
  | initSh context src dest tag data mode isPersistent isImmediate room =>
      cases run
      have other : a ≠ ⟨src, (qNewElem cfg.group (s.chan src).spool).1⟩ := by
        rintro rfl
        exact qNewElem_fresh live
      exact .frame (Function.update_of_ne other _ _) (List.append_nil _).symm (Quiet.nil a)
  | initRh =>
      cases run
      exact .frame rfl (List.append_nil _).symm (Quiet.nil a)
  | startSh x message =>
      obtain ⟨h, cell, call⟩ := onSend_call run
      exact Moves.tmpiIntraStartSh cell call a
  | startRh b message => exact Moves.tmpiIntraStartRh (onRecv_call run) a
  | finishStartRh c => exact Moves.finishStartRh run a
  | waitSh x =>
      obtain ⟨h, cell, call⟩ := onSend_call run
      exact Moves.tmpiIntraWaitSh cell call a
  | wakeSh x =>
      simp only [Intra.step] at run
      split at run
      next h cell => exact Moves.wakeSh cell run a
      next => cases run
  | waitRh b =>
      change Intra.onRecv s b (fun r => some (tmpiIntraWaitRh s b r)) = some s' at run
      cases onRecv_call run
      exact Moves.tmpiIntraWaitRh _ a
  | wakeRh b => exact Moves.wakeRh run a
  | testSh x =>
      obtain ⟨h, cell, call⟩ := onSend_call run
      obtain ⟨⟨s₁, flag⟩, test, rfl⟩ := Option.map_eq_some_iff.mp call
      exact Moves.tmpiIntraTestSh cell test a
  | testRh b =>
      change Intra.onRecv s b (fun r => some (tmpiIntraTestRh s b r).1) = some s' at run
      cases onRecv_call run
      exact Moves.tmpiIntraTestRh _ a
  | cancelSh x =>
      obtain ⟨h, -, call⟩ := onSend_call run
      have other : a ≠ x := fun same => absurd kept (by simp [Act.drops, same])
      exact .tmpiIntraCancelSh other call
  | freeSh x =>
      obtain ⟨h, cell, call⟩ := onSend_call run
      have other : a ≠ x := fun same => absurd kept (by simp [Act.drops, same])
      exact .tmpiRequestFreeSh cell other call
  | cancelRh b =>
      change Intra.onRecv s b (fun r => some (tmpiIntraCancelRh s b r)) = some s' at run
      cases onRecv_call run
      exact Moves.tmpiIntraCancelRh _ a
  | freeRh b => exact Moves.tmpiRequestFreeRh (onRecv_call run) a
  | deliver from_ m room message => exact Moves.deliver run a
  | respond m => exact Moves.respond run a
  | writeBuf x data =>
      simp only [Intra.step] at run
      split at run
      next h cell => exact Moves.writeBuf cell run a
      next => cases run

end Tmpi.Intra
