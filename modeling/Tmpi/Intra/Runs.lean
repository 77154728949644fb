import Tmpi.Intra.Handshake

/-! Runs that keep the invariant.

Four calls give a handle back while somebody still refers to it: cancelling a request
that is pending, waiting for a local ready send that no receive has taken, and
`MPI_Request_free` on a persistent send whose sender has left its data behind. A message
gets lost when its answer finds the pool of message objects empty. In every run without
these steps the invariant holds. -/

namespace Tmpi.Intra

variable {cfg : Config} {s s' : Sys} {g : Ghost} {act : Act}

/-- A sender may leave its message behind and go on. -/
def SHandle.leaves (h : SHandle) : Bool :=
  h.mode = .buffered ∨ (h.mode = .standard ∧ h.sysBuf.isSome)

def SCell.sendAnd (cell : SCell) (holds : SHandle → Bool) : Bool :=
  match cell with
  | .send h => holds h
  | .remote _ => false

/-- The step gives back a handle that somebody still refers to, or has no message object
to answer with. -/
def breaks (s : Sys) : Act → Bool
  | .waitSh a => (s.smem a).sendAnd fun h => !h.isRemote && h.mode = .ready && h.stat = .pendStrt
  | .cancelSh a => (s.smem a).sendAnd fun h => h.stat.pend
  | .cancelRh b => (s.rmem b).stat.pend
  | .freeSh a => (s.smem a).sendAnd fun h =>
      h.handleType = .persistent && h.stat.pend && h.stat ≠ .pendNrdy && h.leaves
  | .startRh _ message | .deliver _ _ _ message => !message
  | _ => false

/-- The call that a step on a send request makes. -/
theorem onSend_call {a : Addr} {call : SHandle → Option Sys} (run : onSend s a call = some s') :
    ∃ h, s.smem a = .send h ∧ call h = some s' := by
  unfold onSend at run
  split at run
  next h cell =>
    split at run
    next => exact ⟨h, cell, run⟩
    next => cases run
  next => cases run

theorem onRecv_call {b : Addr} {call : RHandle → Option Sys} (run : onRecv s b call = some s') :
    call (s.rmem b) = some s' := by
  unfold onRecv at run
  split at run
  · exact run
  · cases run

namespace Inv

theorem boot (cfg : Config) : Inv cfg (boot cfg)
    ⟨fun _ => ⟨0, ⟨0, 0, 0⟩, 0, .standard, []⟩, fun _ => ⟨0, ⟨0, 0, 0⟩, []⟩, fun _ => .off,
      fun _ => .off⟩ where
  sends := ⟨fun _ => rfl, fun _ used => by simp [SendUsed, Intra.boot] at used⟩
  recvs := by
    refine ⟨fun b => ?_, fun b => ?_, fun b used => ?_⟩
    · constructor
      all_goals simp [Intra.boot]
    · exact ⟨by simp [Intra.boot], .inr (.inl rfl)⟩
    · simp [RecvUsed, Intra.boot] at used
  chans c := by
    constructor
    all_goals simp [Intra.boot]
  wires := by
    constructor
    all_goals simp [Intra.boot]
  pairs := by
    constructor
    all_goals simp [SPlace.engaged, RPlace.engaged]
  posts := by
    constructor
    case run => exact fun c => .start
    all_goals simp [Intra.boot, SPlace.arriving]
  logs := by
    constructor
    all_goals simp [Intra.boot]
  met := by
    intro a h cell
    cases cell
  pools := by
    have empty : PoolOk ⟨0, []⟩ := ⟨by simp, by simp⟩
    have pool : PoolOk (qInit cfg.group) :=
      qFreeElem_ok (qNewElem_ok empty cfg.group_pos)
        ((qNewElem_live empty cfg.group_pos).mpr (.inr rfl))
    exact ⟨fun c => pool, fun c => pool, by simp [Intra.boot]⟩
  stray _ _ := rfl

theorem onSend (inv : Inv cfg s g) {a : Addr} {call : SHandle → Option Sys}
    (run : Intra.onSend s a call = some s')
    (keeps : ∀ h, s.smem a = .send h → s.LiveS a → h.pc = .idle → call h = some s' →
      ∃ g', Inv cfg s' g') : ∃ g', Inv cfg s' g' := by
  unfold Intra.onSend at run
  split at run
  next h cell =>
    split at run
    next held => exact keeps h cell (inv.live_of_held cell (.inl held.1)) held.2 run
    next => cases run
  next => cases run

theorem onRecv (inv : Inv cfg s g) {b : Addr} {call : RHandle → Option Sys}
    (run : Intra.onRecv s b call = some s')
    (keeps : s.LiveR b → (s.rmem b).pc = .idle → call (s.rmem b) = some s' →
      ∃ g', Inv cfg s' g') : ∃ g', Inv cfg s' g' := by
  unfold Intra.onRecv at run
  split at run
  next held => exact keeps (inv.liveR_of_held (.inl held.1)) held.2 run
  next => cases run

/-- Every step that does not break it keeps the invariant. -/
theorem step (inv : Inv cfg s g) (sound : breaks s act = false)
    (run : Intra.step cfg s act = some s') : ∃ g', Inv cfg s' g' := by
  cases act with
  | initSh =>
      cases run
      exact ⟨g, inv.tmpiIntraInitSh ..⟩
  | initRh =>
      cases run
      exact ⟨g, inv.tmpiIntraInitRh ..⟩
  | startSh a message =>
      exact inv.onSend run fun h cell live idle call => inv.tmpiIntraStartSh cell live idle call
  | startRh b message =>
      obtain rfl : message = true := by simpa [breaks] using sound
      exact inv.onRecv run fun live idle call => inv.tmpiIntraStartRh live idle call
  | finishStartRh c => exact inv.finishStartRh run
  | waitSh a =>
      refine inv.onSend run fun h cell live idle call => ⟨g, inv.tmpiIntraWaitSh cell live idle ?_ call⟩
      intro near mode stat
      simp [breaks, SCell.sendAnd, cell, near, mode, stat] at sound
  | wakeSh a =>
      simp only [Intra.step] at run
      split at run
      next h cell => exact ⟨g, inv.wakeSh cell run⟩
      next => cases run
  | waitRh b =>
      change Intra.onRecv s b (fun r => some (Intra.tmpiIntraWaitRh s b r)) = some s' at run
      refine inv.onRecv run fun live idle call => ?_
      cases call
      exact ⟨g, inv.tmpiIntraWaitRh live idle⟩
  | wakeRh b => exact ⟨g, inv.wakeRh run⟩
  | testSh a =>
      refine inv.onSend run fun h cell live idle call => ?_
      obtain ⟨⟨s₁, flag⟩, test, rfl⟩ := Option.map_eq_some_iff.mp call
      exact ⟨g, inv.tmpiIntraTestSh cell live idle test⟩
  | testRh b =>
      change Intra.onRecv s b (fun r => some (Intra.tmpiIntraTestRh s b r).1) = some s' at run
      refine inv.onRecv run fun live idle call => ?_
      cases call
      exact ⟨g, inv.tmpiIntraTestRh live⟩
  | cancelSh a =>
      refine inv.onSend run fun h cell live idle call => ⟨g, inv.tmpiIntraCancelSh cell live ?_ call⟩
      simpa [breaks, SCell.sendAnd, cell] using sound
  | cancelRh b =>
      change Intra.onRecv s b (fun r => some (Intra.tmpiIntraCancelRh s b r)) = some s' at run
      refine inv.onRecv run fun live idle call => ?_
      cases call
      exact ⟨g, inv.tmpiIntraCancelRh live (by simpa [breaks] using sound)⟩
  | freeSh a =>
      refine inv.onSend run fun h cell live idle call => ⟨g, inv.tmpiRequestFreeSh cell live idle ?_ call⟩
      intro persistent pend accepted leaves
      have away : h.leaves = true := by simpa [SHandle.leaves] using leaves
      simp [breaks, SCell.sendAnd, cell, persistent, pend, accepted, away] at sound
  | freeRh b => exact inv.onRecv run fun live idle call => ⟨g, inv.tmpiRequestFreeRh live idle call⟩
  | deliver from_ m room message =>
      obtain rfl : message = true := by simpa [breaks] using sound
      exact inv.deliver run
  | respond m => exact inv.respond run
  | writeBuf a data =>
      simp only [Intra.step] at run
      split at run
      next h cell => exact ⟨g, inv.writeBuf cell run⟩
      next => cases run

end Inv

/-- The invariant holds in every state of a run without a breaking step. -/
theorem Reach.inv {allowed : Sys → Act → Prop} (reach : Reach cfg allowed s)
    (sound : ∀ s act, Reach cfg allowed s → allowed s act → breaks s act = false) :
    ∃ g, Inv cfg s g := by
  induction reach with
  | boot => exact ⟨_, Inv.boot cfg⟩
  | step before may run ih =>
      obtain ⟨g, inv⟩ := ih
      exact inv.step (sound _ _ before may) run

/-- The state after a list of steps, if each can be made and is one that `may` admits. -/
def follow (cfg : Config) (may : Sys → Act → Bool) (s : Sys) : List Act → Option Sys
  | [] => some s
  | act :: rest => if may s act then (step cfg s act).bind (follow cfg may · rest) else none

theorem Reach.follow {may : Sys → Act → Bool} {acts : List Act}
    (reach : Reach cfg (fun s act => may s act = true) s)
    (run : follow cfg may s acts = some s') : Reach cfg (fun s act => may s act = true) s' := by
  induction acts generalizing s with
  | nil =>
      cases run
      exact reach
  | cons act rest ih =>
      unfold Intra.follow at run
      split at run
      next admitted =>
        obtain ⟨next, one, others⟩ := Option.bind_eq_some_iff.mp run
        exact ih (.step reach admitted one) others
      next => cases run

end Tmpi.Intra
