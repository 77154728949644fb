import Tmpi.Intra.Order
import Tmpi.Intra.Traces

/-! Who holds a handle, and the calls that give one back too early. -/

namespace Tmpi.Intra

variable {cfg : Config} {s s' : Sys} {g : Ghost} {a b : Addr} {h : SHandle}

/-! ## Linked handles -/

/-- What a channel's queues link is allocated and pending. -/
def Owned (s : Sys) (c : Int) : Prop :=
  (∀ x ∈ (s.chan c).sq, s.LiveS x ∧ (s.smem x).stat.pend = true) ∧
    ∀ b ∈ (s.chan c).rq, s.LiveR b ∧ (s.rmem b).stat.pend = true

instance (s : Sys) (c : Int) : Decidable (Owned s c) := inferInstanceAs (Decidable (_ ∧ _))

/-- In a run without a breaking step every linked handle is allocated and pending. -/
theorem linked_owned (reach : Reach cfg (fun s act => breaks s act = false) s) (c : Int) :
    Owned s c := by
  obtain ⟨g, inv⟩ := reach.inv fun _ _ _ sound => sound
  refine ⟨fun x queued => ⟨inv.pools.linked c x queued, (inv.linked_cell queued).2⟩, ?_⟩
  intro b posted
  obtain ⟨queue, -, -, stat | stat, -⟩ := inv.posted posted
  all_goals exact ⟨inv.recvs.live b (.inl (by simp [queue])), by rw [stat]; rfl⟩

/-- A send that waits in the queue of its receiver. -/
theorem linked_owned_sync : ∃ s, Reach ⟨fun _ => 0, 4, by decide⟩
    (fun s act => breaks s act = false) s ∧ (s.chan 1).sq = [⟨0, 0⟩] ∧ Owned s 1 := by
  obtain ⟨s, run, facts⟩ : ∃ s, follow ⟨fun _ => 0, 4, by decide⟩ (fun s act => !breaks s act)
      (boot ⟨fun _ => 0, 4, by decide⟩)
      [.initSh 7 0 1 5 [1, 2] .sync false false true, .startSh ⟨0, 0⟩ true, .waitSh ⟨0, 0⟩] = some s ∧
      (s.chan 1).sq = [⟨0, 0⟩] := ⟨_, rfl, by decide +kernel⟩
  have reach : Reach ⟨fun _ => 0, 4, by decide⟩ (fun s act => breaks s act = false) s := by
    simpa using Reach.boot.follow run
  exact ⟨s, reach, facts, linked_owned reach 1⟩

/-- Cancelling the send instead leaves its handle linked and free. -/
theorem cancelled_not_owned : ∃ s, follow ⟨fun _ => 0, 4, by decide⟩ (fun _ _ => true)
    (boot ⟨fun _ => 0, 4, by decide⟩)
    [.initSh 7 0 1 5 [1, 2] .sync false false true, .startSh ⟨0, 0⟩ true, .cancelSh ⟨0, 0⟩] = some s ∧
    (s.chan 1).sq = [⟨0, 0⟩] ∧ ¬ s.LiveS ⟨0, 0⟩ ∧ ¬ Owned s 1 :=
  ⟨_, rfl, by decide +kernel⟩

/-! ## A ready send that nobody waits for -/

/-- The last call on the send has returned `MPI_ERR_NRDY`. -/
def Refused (s s' : Sys) (a : Addr) (inst : Nat) : Prop :=
  ∃ status rest, s'.log = s.log ++ .sendReturned a inst .errNrdy status :: rest

/-- The last call on the send has returned `MPI_SUCCESS`. -/
def Accepted (s s' : Sys) (a : Addr) (inst : Nat) : Prop :=
  ∃ status rest, s'.log = s.log ++ .sendReturned a inst .success status :: rest

/-- The destination does not link the send, and no receive there is about to take it. -/
def Unfelt (s : Sys) (a : Addr) (dest : Int) : Prop :=
  a ∉ (s.chan dest).sq ∧ ∀ b, (s.chan dest).busy ≠ some (b, a)

/-- A trace without the events of one send. -/
def without (inst : Nat) (trace : Trace) : Trace :=
  trace.filter fun
    | .postSend send | .matched send _ => send.inst ≠ inst
    | .postRecv _ => true

/-- The send has left nothing at its destination: the queues there are those that the matching
makes of all other sends and receives, and whatever happens next, no receive completes with
its data. -/
structure Traceless (cfg : Config) (s : Sys) (a : Addr) (inst : Nat) (dest : Int) : Prop where
  unfelt : Unfelt s a dest
  queues : Matching.Run postFits (without inst (s.trace dest)) (s.sendPosts dest) (s.recvPosts dest)
  untaken : ∀ acts t, follow cfg (fun _ _ => true) s acts = some t →
    ∀ recv status data, .received recv inst status data ∉ t.log

/-- One receive of the destination is matched with the send, and no other ever will be. -/
def Once (cfg : Config) (s : Sys) (inst : Nat) (dest : Int) : Prop :=
  ∃ recv, ∀ acts t, follow cfg (fun s act => !breaks s act) s acts = some t →
    ∀ recv', Paired (t.trace dest) inst recv' ↔ recv' = recv

/-- A ready send that is refused has left nothing, so that the one sent instead of it is the only
one, and a ready send that is accepted is received once. -/
structure OneMessage (cfg : Config) (s s' : Sys) (a : Addr) (inst : Nat) (dest : Int) : Prop where
  refused : Refused s s' a inst → Traceless cfg s' a inst dest
  accepted : Accepted s s' a inst → Once cfg s' inst dest

/-- A wait for a send leaves the queues as they are. -/
theorem finishSh_chan (s : Sys) (a : Addr) (h : SHandle) (c : Int) :
    ((finishSh s a h).chan c).sq = (s.chan c).sq ∧
      ((finishSh s a h).chan c).busy = (s.chan c).busy := by
  unfold finishSh Sys.freeElemS
  dsimp only
  split
  · by_cases same : c = a.owner
    · subst same
      simp [Sys.setS]
    · simp [Sys.setS, Function.update_of_ne same]
  · exact ⟨rfl, rfl⟩

theorem finishSh_log (s : Sys) (a : Addr) (h : SHandle) :
    ∃ rest, (finishSh s a h).log = s.log ++ rest := by
  unfold finishSh Sys.freeElemS
  dsimp only
  split
  · exact ⟨_, rfl⟩
  · exact ⟨[], (List.append_nil _).symm⟩

theorem finishSh_records (s : Sys) (a : Addr) (h : SHandle) (e : Event) :
    ∃ rest, (finishSh (s.record e) a h).log = s.log ++ e :: rest := by
  obtain ⟨rest, log⟩ := finishSh_log (s.record e) a h
  refine ⟨rest, log.trans ?_⟩
  rw [Sys.record, List.append_assoc, List.singleton_append]

/-- What a wait for a local ready send does and says. -/
theorem waitSh_ready (cell : s.smem a = .send h) (near : h.isRemote = false)
    (mode : h.mode = .ready) (run : step cfg s (.waitSh a) = some s') :
    (∀ c, (s'.chan c).sq = (s.chan c).sq ∧ (s'.chan c).busy = (s.chan c).busy) ∧
      (s'.log = s.log ++ [.sendReturned a h.inst .errIntern none] ∧ h.stat ≠ .pendStrt ∨
        Accepted s s' a h.inst ∧ h.stat = .matched ∨
        Refused s s' a h.inst ∧ h.stat.pend = true) := by
  obtain ⟨h', cell', call⟩ := onSend_call run
  obtain rfl := SCell.send.inj (cell.symm.trans cell')
  unfold tmpiIntraWaitSh at call
  rw [near, mode] at call
  split at call
  next remote => cases remote
  split at call
  next idle =>
    cases call
    refine ⟨fun c => ⟨rfl, rfl⟩, .inl ⟨rfl, fun stat => ?_⟩⟩
    rw [stat] at idle
    cases idle
  next busy =>
    split at call
    next => cases call
    split at call
    next matched =>
      cases call
      obtain ⟨rest, log⟩ := finishSh_records s a h (.sendReturned a h.inst .success (some h.status))
      exact ⟨fun c => finishSh_chan _ _ _ c, .inr (.inl ⟨⟨_, rest, log⟩, matched⟩)⟩
    next unmatched =>
      cases call
      obtain ⟨rest, log⟩ := finishSh_records s a h
        (.sendReturned a h.inst .errNrdy (some { h.status with error := .errNrdy }))
      refine ⟨fun c => finishSh_chan _ _ _ c, .inr (.inr ⟨⟨_, rest, log⟩, ?_⟩)⟩
      rw [Stat.any_linked] at busy
      simpa [unmatched] using busy

/-- A local ready send that is pending has not been waited for. -/
theorem Inv.near_ready (inv : Inv cfg s g) (cell : s.smem a = .send h) (near : h.isRemote = false)
    (mode : h.mode = .ready) (pend : h.stat.pend = true) : h.stat = .pendStrt := by
  obtain ⟨ok, placed, settled, on⟩ := inv.sendOk cell
  have active : g.send a ≠ .off := by
    intro off
    rcases settled off with stat | stat | stat | stat
    case inr.inr.inr =>
      rw [(ok.refused stat).2] at near
      cases near
    all_goals
      rw [stat] at pend
      cases pend
  obtain ⟨agrees, admits⟩ := on active
  have ungranted : (g.send a).granted = false := by
    cases granted : (g.send a).granted with
    | false => rfl
    | true =>
        rw [inv.far_of_away (SPlace.away_of_granted granted) cell] at near
        cases near
  rw [SPlace.admits, ungranted, ← agrees.mode] at admits
  exact admits.resolve_right fun patient => absurd mode patient.1

/-- A local ready send is at its destination exactly while its handle says so. -/
theorem Inv.unfelt_iff (inv : Inv cfg s g) (cell : s.smem a = .send h) (near : h.isRemote = false)
    (mode : h.mode = .ready) : Unfelt s a h.dest ↔ h.stat ≠ .pendStrt := by
  obtain ⟨ok, placed, settled, on⟩ := inv.sendOk cell
  have home : cfg.home h.dest = cfg.home h.src := by
    have remote := ok.isRemote
    rw [near] at remote
    simpa using remote.symm
  constructor
  · rintro ⟨unlinked, untaken⟩ stat
    have active : g.send a ≠ .off := by
      intro off
      have calm := settled off
      simp [Stat.settled, stat] at calm
    obtain ⟨agrees, -⟩ := on active
    have dest := agrees.dest
    have src := congrArg Envelope.src agrees.envelope
    cases place : g.send a with
    | off => exact active place
    | queue => exact unlinked ((inv.chans _).queued a place dest.symm)
    | found b => exact untaken b ((inv.chans _).taken a b place dest.symm)
    | wire m m' frame | parked q | answering m answer =>
        rw [place] at placed
        exact placed.1 (by rw [← dest, ← src, home])
  · intro stat
    have off : ∀ p, g.send a = p → p ≠ .off → p.granted = false → False := by
      rintro p rfl active ungranted
      obtain ⟨agrees, admits⟩ := on active
      rw [SPlace.admits, ungranted, ← agrees.mode] at admits
      rcases admits with pend | ⟨patient, -⟩
      · exact stat pend
      · exact patient mode
    refine ⟨(inv.chans _).notLinked cell fun queue => (off _ queue (by simp) rfl).elim, fun b busy => ?_⟩
    exact off _ ((inv.chans _).busy b a busy).1 (by simp) rfl

/-- A call has said one thing about its request. -/
theorem said_once {log log' rest rest' : List Event} {e e' : Event} (said : log' = log ++ e :: rest)
    (said' : log' = log ++ e' :: rest') : e = e' :=
  (List.cons.inj (List.append_cancel_left (said.symm.trans said'))).1

/-- What is matched stays matched with the same receive. -/
theorem Inv.once (inv : Inv cfg s g) (reach : Reach cfg (fun s act => breaks s act = false) s')
    (grows : Grows s s') (cell : s.smem a = .send h) (near : h.isRemote = false)
    (matched : h.stat = .matched) : Once cfg s' h.inst h.dest := by
  obtain ⟨recv, paired⟩ := inv.met a h cell near matched
  refine ⟨recv, fun acts t run recv' => ⟨fun paired' => ?_, fun same => ?_⟩⟩
  · have later : Reach cfg (fun s act => breaks s act = false) t := by
      have may : Reach cfg (fun s act => (!breaks s act) = true) s' := by simpa using reach
      simpa using may.follow run
    obtain ⟨g', inv'⟩ := later.inv fun _ _ _ sound => sound
    obtain ⟨e, w, here⟩ := (paired.mono (grows h.dest)).mono (follow_grows run h.dest)
    obtain ⟨e', w', here'⟩ := paired'
    have posted := (inv'.posts.run h.dest).matchedSends_posted
    have sends : ∀ {e w r}, .matched ⟨h.inst, e⟩ ⟨r, w⟩ ∈ t.trace h.dest →
        (⟨h.inst, e⟩ : Post) ∈ Matching.sendsOf (t.trace h.dest) := fun member =>
      posted (Matching.mem_matchedSends member)
    have post := List.inj_on_of_nodup_map (inv'.posts.sendsDiffer h.dest) (sends here) (sends here') rfl
    rw [← post] at here'
    exact (congrArg Post.inst ((inv'.posts.run h.dest).matched_once here here')).symm
  · rw [same]
    exact (paired.mono (grows h.dest)).mono (follow_grows run h.dest)

/-- The wait for a local ready send refuses it exactly when no receive has taken it, and exactly
then the send is not without effect. -/
theorem ready_refused_iff (reach : Reach cfg (fun s act => breaks s act = false) s)
    (cell : s.smem a = .send h) (near : h.isRemote = false) (mode : h.mode = .ready)
    (run : step cfg s (.waitSh a) = some s') :
    (OneMessage cfg s s' a h.inst h.dest ↔ h.stat ≠ .pendStrt) ∧
      (Refused s s' a h.inst ↔ h.stat = .pendStrt) := by
  obtain ⟨g, inv⟩ := reach.inv fun _ _ _ sound => sound
  obtain ⟨kept, told⟩ := waitSh_ready cell near mode run
  have refused : Refused s s' a h.inst ↔ h.stat = .pendStrt := by
    constructor
    · rintro ⟨status, rest, log⟩
      rcases told with ⟨log', -⟩ | ⟨⟨status', rest', log'⟩, -⟩ | ⟨-, pend⟩
      · cases said_once log log'
      · cases said_once log log'
      · exact inv.near_ready cell near mode pend
    · intro stat
      rcases told with ⟨-, other⟩ | ⟨-, matched⟩ | ⟨refused, -⟩
      · exact absurd stat other
      · rw [stat] at matched
        cases matched
      · exact refused
  refine ⟨⟨fun holds stat => ?_, fun stat => ?_⟩, refused⟩
  · have unfelt := (holds.refused (refused.mpr stat)).unfelt
    rw [Unfelt, (kept h.dest).1, (kept h.dest).2] at unfelt
    exact (inv.unfelt_iff cell near mode).mp unfelt stat
  · refine ⟨fun here => absurd (refused.mp here) stat, ?_⟩
    rintro ⟨status, rest, log⟩
    have sound : breaks s (.waitSh a) = false := by simp [breaks, SCell.sendAnd, cell, stat]
    rcases told with ⟨log', -⟩ | ⟨-, matched⟩ | ⟨⟨status', rest', log'⟩, -⟩
    · cases said_once log log'
    · exact inv.once (.step reach sound run) (step_grows run) cell near matched
    · cases said_once log log'

/-- A ready send whose receive was posted first. -/
theorem ready_refused_iff_matched : ∃ s s' h, Reach ⟨fun _ => 0, 4, by decide⟩
    (fun s act => breaks s act = false) s ∧ s.smem ⟨0, 0⟩ = .send h ∧ h.stat = .matched ∧
    step ⟨fun _ => 0, 4, by decide⟩ s (.waitSh ⟨0, 0⟩) = some s' ∧
    Accepted s s' ⟨0, 0⟩ h.inst ∧
    OneMessage ⟨fun _ => 0, 4, by decide⟩ s s' ⟨0, 0⟩ h.inst h.dest := by
  obtain ⟨s, run, h, cell, near, mode, stat, s', wait, accepted⟩ : ∃ s,
      follow ⟨fun _ => 0, 4, by decide⟩ (fun s act => !breaks s act)
        (boot ⟨fun _ => 0, 4, by decide⟩)
        [.initRh 7 0 1 5 [0, 0] false false, .startRh ⟨1, 0⟩ true,
          .initSh 7 0 1 5 [1, 2] .ready false false true, .startSh ⟨0, 0⟩ true] = some s ∧
      ∃ h, s.smem ⟨0, 0⟩ = .send h ∧ h.isRemote = false ∧ h.mode = .ready ∧ h.stat = .matched ∧
        ∃ s', step ⟨fun _ => 0, 4, by decide⟩ s (.waitSh ⟨0, 0⟩) = some s' ∧
          Accepted s s' ⟨0, 0⟩ h.inst :=
    ⟨_, rfl, _, rfl, rfl, rfl, rfl, _, rfl, _, _, rfl⟩
  have reach : Reach ⟨fun _ => 0, 4, by decide⟩ (fun s act => breaks s act = false) s := by
    simpa using Reach.boot.follow run
  refine ⟨s, s', h, reach, cell, stat, wait, accepted, ?_⟩
  exact (ready_refused_iff reach cell near mode wait).1.mpr (by simp [stat])

/-- The receive searches while the send is pending, the wait then reports `MPI_ERR_NRDY`, and
the receive completes with the data all the same. Without the receive the refused send stays
linked, and the buffered send that replaces it is linked through the same handle again. -/
theorem ready_refused_felt :
    (∃ s, follow ⟨fun _ => 0, 4, by decide⟩ (fun _ _ => true) (boot ⟨fun _ => 0, 4, by decide⟩)
      [.initSh 7 0 1 5 [1, 2] .ready false false true, .startSh ⟨0, 0⟩ true,
        .initRh 7 0 1 5 [0, 0] false false, .startRh ⟨1, 0⟩ true, .waitSh ⟨0, 0⟩, .finishStartRh 1,
        .waitRh ⟨1, 0⟩] = some s ∧
      .sendReturned ⟨0, 0⟩ 0 .errNrdy (some ⟨2, 0, 5, .errNrdy⟩) ∈ s.log ∧
      .received 1 0 ⟨2, 0, 5, .success⟩ [1, 2] ∈ s.log) ∧
    ∃ s, follow ⟨fun _ => 0, 4, by decide⟩ (fun _ _ => true) (boot ⟨fun _ => 0, 4, by decide⟩)
      [.initSh 7 0 1 5 [1, 2] .ready false false true, .startSh ⟨0, 0⟩ true, .waitSh ⟨0, 0⟩,
        .initSh 7 0 1 5 [1, 2] .buffered false false true, .startSh ⟨0, 0⟩ true] = some s ∧
      .sendReturned ⟨0, 0⟩ 0 .errNrdy (some ⟨2, 0, 5, .errNrdy⟩) ∈ s.log ∧
      (s.chan 1).sq = [⟨0, 0⟩, ⟨0, 0⟩] :=
  ⟨⟨_, rfl, by decide +kernel⟩, ⟨_, rfl, by decide +kernel⟩⟩

/-! ## Cancelling a receive that waits for data -/

/-- `tmpi_intra_cancel_rh` never keeps such a receive for the data: all pending states share
the bit that its first case tests. -/
theorem cancelRh_pendData (stat : (s.rmem b).stat = .pendData)
    (run : step cfg s (.cancelRh b) = some s') :
    ¬ (s'.LiveR b ∧ (s'.rmem b).stat = .cancel) ∧ (s'.rmem b).stat = .free ∧
      ((s.rmem b).handleType ≠ .persistent → ¬ s'.LiveR b) := by
  have freed : s' = finishRh s b (s.rmem b) := by
    simp only [step, onRecv] at run
    split at run
    · simpa [tmpiIntraCancelRh, stat, Stat.any_posted, Stat.any_dropped, Stat.pend, Stat.any, Stat.bits]
        using run.symm
    · cases run
  have memory : (s'.rmem b).stat = .free := by
    rw [freed]
    unfold finishRh
    dsimp only
    split <;> simp [Sys.freeElemR, Sys.setR]
  refine ⟨fun kept => ?_, memory, fun once live => ?_⟩
  · rw [memory] at kept
    cases kept.2
  · rw [freed] at live
    unfold finishRh at live
    rw [if_pos once] at live
    simp [Sys.freeElemR, Sys.setR, Sys.LiveR, Pool.Live, qFreeElem] at live

/-- A short message that found no room and is sent again as a long one; the receive that
asked for it is cancelled. -/
theorem cancelRh_pendData_short : ∃ s s', follow ⟨Int.toNat, 4, by decide⟩ (fun _ _ => true)
    (boot ⟨Int.toNat, 4, by decide⟩)
    [.initSh 7 0 1 5 [1, 2] .sync false false true, .startSh ⟨0, 0⟩ true, .deliver 0 1 false true,
      .initRh 7 0 1 5 [0, 0] false false, .startRh ⟨1, 0⟩ true] = some s ∧
    (s.rmem ⟨1, 0⟩).stat = .pendData ∧
    step ⟨Int.toNat, 4, by decide⟩ s (.cancelRh ⟨1, 0⟩) = some s' ∧
    ¬ (s'.LiveR ⟨1, 0⟩ ∧ (s'.rmem ⟨1, 0⟩).stat = .cancel) := by
  obtain ⟨s, run, stat, s', cancel⟩ : ∃ s, follow ⟨Int.toNat, 4, by decide⟩ (fun _ _ => true)
      (boot ⟨Int.toNat, 4, by decide⟩)
      [.initSh 7 0 1 5 [1, 2] .sync false false true, .startSh ⟨0, 0⟩ true, .deliver 0 1 false true,
        .initRh 7 0 1 5 [0, 0] false false, .startRh ⟨1, 0⟩ true] = some s ∧
      (s.rmem ⟨1, 0⟩).stat = .pendData ∧
      ∃ s', step ⟨Int.toNat, 4, by decide⟩ s (.cancelRh ⟨1, 0⟩) = some s' :=
    ⟨_, rfl, rfl, _, rfl⟩
  exact ⟨s, s', run, stat, cancel, (cancelRh_pendData stat cancel).1⟩

/-- The data then comes for a handle that is gone, and its bytes stay on the stream. -/
theorem cancelRh_pendData_stale : ∃ s, follow ⟨Int.toNat, 4, by decide⟩ (fun _ _ => true)
    (boot ⟨Int.toNat, 4, by decide⟩)
    [.initSh 7 0 1 5 [1, 2] .sync false false true, .startSh ⟨0, 0⟩ true, .deliver 0 1 false true,
      .initRh 7 0 1 5 [0, 0] false false, .startRh ⟨1, 0⟩ true, .cancelRh ⟨1, 0⟩, .deliver 1 0 true true,
      .deliver 0 1 true true] = some s ∧
    .fault (.stale ⟨1, 0⟩) ∈ s.log ∧ s.stray 0 1 = 2 :=
  ⟨_, rfl, by decide +kernel⟩

end Tmpi.Intra
