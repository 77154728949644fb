import Tmpi.Intra.Updates

/-! What the steps of a run do to a send handle, whatever the others do. -/

namespace Tmpi.Intra

open Function (update)

variable {cfg : Config} {s s' : Sys} {a b : Addr} {h h' : SHandle} {act : Act}

/-- A handle keeps its mode and its kind, and only a start call makes it pending. -/
structure Descends (h h' : SHandle) : Prop where
  mode : h'.mode = h.mode
  isRemote : h'.isRemote = h.isRemote
  starts : h'.stat = .pendStrt → h.stat = .pendStrt

def Evolves (s s' : Sys) : Prop :=
  ∀ a h', s'.smem a = .send h' → ∃ h, s.smem a = .send h ∧ Descends h h'

namespace Evolves

theorem same (memory : s'.smem = s.smem) : Evolves s s' := fun _ h' cell =>
  ⟨h', memory ▸ cell, rfl, rfl, id⟩

theorem put (cell : s.smem a = .send h) (memory : s'.smem = update s.smem a (.send h'))
    (descends : Descends h h') : Evolves s s' := by
  intro x hx there
  rw [memory] at there
  by_cases here : x = a
  · subst here
    rw [Function.update_self] at there
    obtain rfl := SCell.send.inj there
    exact ⟨h, cell, descends⟩
  · rw [Function.update_of_ne here] at there
    exact ⟨hx, there, rfl, rfl, id⟩

end Evolves

theorem Moves.evolves (moves : Moves false s s') : Evolves s s' := by
  intro a h' there
  obtain ⟨added, -, cell⟩ := moves a
  rw [there] at cell
  cases old : s.smem a with
  | remote r =>
      rw [old] at cell
      cases cell
  | send h =>
      rw [old] at cell
      cases cell with
      | send up =>
          have made := up.made
          simp only [SHandle.made, Prod.mk.injEq] at made
          exact ⟨h, rfl, made.2.2.2.2.2.2.1, made.2.2.2.2.2.2.2, up.starts rfl⟩

/-- Neither a cancel nor `MPI_Request_free`, and no answer fails for want of a message object. -/
def Act.keeps : Act → Bool
  | .cancelSh _ | .cancelRh _ | .freeSh _ | .freeRh _ => false
  | .startRh _ message | .deliver _ _ _ message => message
  | _ => true

/-- What a start call makes of its handle. -/
theorem start_evolves (cell : s.smem a = .send h) {message : Bool}
    (call : tmpiIntraStartSh cfg s a message h = some s') :
    Evolves s s' ∨ (s'.smem = update s.smem a (.send { h with stat := .pendStrt, inst := s.clock }) ∧
      h.errval = .success ∧ h.startable = true ∧ (h.isRemote = false →
        ∀ b ∈ (s.chan h.dest).rq, rqCmp (s.rmem b) h.context h.tag h.src = false)) := by
  unfold tmpiIntraStartSh at call
  split at call
  next =>
    cases call
    exact .inl (.same rfl)
  next errval =>
    have errval : h.errval = .success := by simpa using errval
    split at call
    next far =>
      cases call
      unfold tmpiInterStartSh
      split
      next => exact .inl (.same rfl)
      next may =>
        split
        next => exact .inl (.same rfl)
        next =>
          refine .inr ⟨?_, errval, by simpa using may, by simp [far]⟩
          dsimp only
          split <;> rfl
    next =>
      split at call
      next =>
        cases call
        exact .inl (.same rfl)
      next may =>
        dsimp only at call
        split at call
        next => cases call
        next =>
          split at call
          next missing =>
            cases call
            exact .inr ⟨rfl, errval, by simpa using may, fun _ => qFind_none missing⟩
          next =>
            split at call
            all_goals
              cases call
              exact .inl (.put cell rfl ⟨rfl, rfl, by simp⟩)

/-- A property of send handles that survives every step but a start, a start and a creation. -/
structure Lasts (cfg : Config) (holds : SHandle → Prop) (allowed : Sys → Act → Prop) : Prop where
  descends : ∀ h h', holds h → Descends h h' → holds h'
  starts : ∀ s a message h, allowed s (.startSh a message) → s.smem a = .send h → holds h →
    h.startable = true →
    (h.isRemote = false →
      ∀ b ∈ (s.chan h.dest).rq, rqCmp (s.rmem b) h.context h.tag h.src = false) →
    holds { h with stat := .pendStrt, inst := s.clock }
  creates : ∀ s context src dest tag data mode isPersistent isImmediate room,
    allowed s (.initSh context src dest tag data mode isPersistent isImmediate room) →
    ∀ h : SHandle, h.mode = mode → h.isRemote = decide (cfg.home dest ≠ cfg.home src) →
      h.stat = .create → holds h

theorem Reach.lasts {holds : SHandle → Prop} {allowed : Sys → Act → Prop}
    (lasts : Lasts cfg holds allowed) (keeps : ∀ s act, allowed s act → act.keeps = true)
    (reach : Reach cfg allowed s) : ∀ a h, s.smem a = .send h → holds h := by
  induction reach with
  | boot => intro a h cell; cases cell
  | @step s s' act _ may run ih =>
      have evolved : Evolves s s' → ∀ a h, s'.smem a = .send h → holds h := by
        intro evolves a h' cell
        obtain ⟨h, old, descends⟩ := evolves a h' cell
        exact lasts.descends h h' (ih a h old) descends
      cases act with
      | initSh context src dest tag data mode isPersistent isImmediate room =>
          cases run
          intro x h cell
          by_cases here : x = ⟨src, (qNewElem cfg.group (s.chan src).spool).1⟩
          · subst here
            simp only [tmpiIntraInitSh, Sys.setS, Function.update_self] at cell
            obtain rfl := SCell.send.inj cell
            exact lasts.creates s _ _ _ _ _ _ _ _ _ may _ rfl rfl rfl
          · simp only [tmpiIntraInitSh, Sys.setS, Function.update_of_ne here] at cell
            exact ih x h cell
      | initRh =>
          cases run
          exact ih
      | startSh a message =>
          obtain ⟨h, cell, call⟩ := onSend_call run
          rcases start_evolves cell call with evolves | ⟨memory, -, may', missing⟩
          · exact evolved evolves
          · intro x hx there
            rw [memory] at there
            by_cases here : x = a
            · subst here
              rw [Function.update_self] at there
              obtain rfl := SCell.send.inj there
              exact lasts.starts s x message h may cell (ih x h cell) may' missing
            · rw [Function.update_of_ne here] at there
              exact ih x hx there
      | startRh b message => exact evolved (Moves.tmpiIntraStartRh (onRecv_call run)).evolves
      | finishStartRh c => exact evolved (Moves.finishStartRh run).evolves
      | waitSh a =>
          obtain ⟨h, cell, call⟩ := onSend_call run
          exact evolved (Moves.tmpiIntraWaitSh cell call).evolves
      | wakeSh a =>
          simp only [Intra.step] at run
          split at run
          next h cell => exact evolved (Moves.wakeSh cell run).evolves
          next => cases run
      | waitRh b =>
          change Intra.onRecv s b (fun r => some (tmpiIntraWaitRh s b r)) = some s' at run
          cases onRecv_call run
          exact evolved (Moves.tmpiIntraWaitRh _).evolves
      | wakeRh b => exact evolved (Moves.wakeRh run).evolves
      | testSh a =>
          obtain ⟨h, cell, call⟩ := onSend_call run
          obtain ⟨⟨s₁, flag⟩, test, rfl⟩ := Option.map_eq_some_iff.mp call
          exact evolved (Moves.tmpiIntraTestSh cell test).evolves
      | testRh b =>
          change Intra.onRecv s b (fun r => some (tmpiIntraTestRh s b r).1) = some s' at run
          cases onRecv_call run
          exact evolved (Moves.tmpiIntraTestRh _).evolves
      | cancelSh | cancelRh | freeSh | freeRh => exact absurd (keeps _ _ may) (by simp [Act.keeps])
      | deliver from_ m room message => exact evolved (Moves.deliver run).evolves
      | respond m => exact evolved (Moves.respond run).evolves
      | writeBuf a data =>
          simp only [Intra.step] at run
          split at run
          next h cell => exact evolved (Moves.writeBuf cell run).evolves
          next => cases run

end Tmpi.Intra
