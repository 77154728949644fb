import Tmpi.Intra.Evolution

/-! Matching in order, and the handshake between machines.

Both hold in every run in which no request is cancelled or freed and no local send is
in ready mode; remote ready sends may be there. -/

namespace Tmpi.Intra

open Matching (sendsOf recvsOf matchedSends matchedRecvs)

variable {cfg : Config} {s : Sys} {g : Ghost}

def tame (cfg : Config) (_ : Sys) : Act → Bool
  | .initSh _ src dest _ _ mode _ _ _ => mode ≠ .ready || cfg.home dest ≠ cfg.home src
  | act => act.keeps

theorem tame_lasts (cfg : Config) :
    Lasts cfg (fun h => h.mode ≠ .ready ∨ h.isRemote = true) fun s act => tame cfg s act = true where
  descends h h' holds descends := by rwa [descends.mode, descends.isRemote]
  starts s a message h _ _ holds _ _ := holds
  creates s context src dest tag data mode isPersistent isImmediate room may h sameMode remote _ := by
    rw [sameMode, remote]
    simpa [tame] using may

theorem tame_keeps (s : Sys) (act : Act) (may : tame cfg s act = true) : act.keeps = true := by
  cases act <;> first | rfl | exact may

/-- No tame run breaks the invariant. -/
theorem tame_inv (reach : Reach cfg (fun s act => tame cfg s act = true) s) : ∃ g, Inv cfg s g := by
  refine reach.inv fun s act before may => ?_
  have keeps := tame_keeps s act may
  cases act with
  | waitSh a =>
      cases cell : s.smem a with
      | remote => simp [breaks, SCell.sendAnd, cell]
      | send h =>
          rcases before.lasts (tame_lasts cfg) tame_keeps a h cell with patient | away
          · simp [breaks, SCell.sendAnd, cell, patient]
          · simp [breaks, SCell.sendAnd, cell, away]
  | cancelSh | cancelRh | freeSh => cases keeps
  | startRh b message | deliver from_ m room message => simpa [breaks, Act.keeps] using keeps
  | _ => rfl

/-! ## Matching -/

/-- The sends that wait in a channel, as the matching sees them. -/
def Sys.sendPosts (s : Sys) (c : Int) : List Post :=
  (s.chan c).sq.map fun x => ⟨s.instOf x, (s.smem x).envelope⟩

def Sys.recvPosts (s : Sys) (c : Int) : List Post :=
  (s.chan c).rq.map fun b => ⟨(s.rmem b).inst, (s.rmem b).envelope⟩

/-- What a channel's matching keeps, in terms of its queues and of the order in which
sends and receives were posted and matched. -/
structure InOrder (s : Sys) (c : Int) : Prop where
  pending : (∀ x ∈ (s.chan c).sq, (s.smem x).stat.pend = true) ∧
    ∀ b ∈ (s.chan c).rq, (s.rmem b).stat.pend = true
  noPair : ∀ x ∈ (s.chan c).sq, ∀ b ∈ (s.chan c).rq,
    sqCmp (s.smem x) (s.rmem b).context (s.rmem b).tag (s.rmem b).src = false ∧
    rqCmp (s.rmem b) (s.smem x).envelope.context (s.smem x).envelope.tag
      (s.smem x).envelope.src = false
  sends : s.sendPosts c = (sendsOf (s.trace c)).filter fun p => p ∉ matchedSends (s.trace c)
  recvs : s.recvPosts c = (recvsOf (s.trace c)).filter fun p => p ∉ matchedRecvs (s.trace c)
  postedOnce : ((sendsOf (s.trace c)).map Post.inst).Nodup ∧
    ((recvsOf (s.trace c)).map Post.inst).Nodup
  sendOnce : ((matchedSends (s.trace c)).map Post.inst).Nodup
  recvOnce : ((matchedRecvs (s.trace c)).map Post.inst).Nodup
  fitting : ∀ send recv, .matched send recv ∈ s.trace c → postFits send recv = true
  /-- A receive takes the earliest send that waits for it. -/
  firstSend : ∀ before send recv earlier, before ++ [.matched send recv] <+: s.trace c →
    List.Sublist [earlier, send] (sendsOf before) → postFits earlier recv = true →
    earlier ∈ matchedSends before
  /-- A send takes the earliest receive that waits for it. -/
  firstRecv : ∀ before send recv earlier, before ++ [.matched send recv] <+: s.trace c →
    List.Sublist [earlier, recv] (recvsOf before) → postFits send earlier = true →
    earlier ∈ matchedRecvs before
  /-- Two sends of one source and context that a receive accepts are received in order. -/
  noOvertaking : ∀ before earlier later recv, before ++ [.matched later recv] <+: s.trace c →
    List.Sublist [earlier, later] (sendsOf (s.trace c)) →
    earlier.envelope.src = later.envelope.src → earlier.envelope.context = later.envelope.context →
    postFits earlier recv = true → earlier ∈ matchedSends before

theorem Inv.sendPosts_eq (inv : Inv cfg s g) (c : Int) :
    s.sendPosts c = (s.chan c).sq.map (postOf s.smem g.job) :=
  List.map_congr_left fun _ member => inv.instOf_linked member

theorem Inv.recvPosts_eq (inv : Inv cfg s g) (c : Int) :
    s.recvPosts c = (s.chan c).rq.map fun b => (g.want b).post :=
  List.map_congr_left fun _ member => (inv.posted member).2.2.2.2.2

theorem Inv.inOrder (inv : Inv cfg s g) (c : Int) : InOrder s c := by
  have run := inv.posts.run c
  have sendsPend : ∀ x ∈ (s.chan c).sq, (s.smem x).stat.pend = true := fun x member =>
    (inv.linked_cell member).2
  have recvsPend : ∀ b ∈ (s.chan c).rq, (s.rmem b).stat.pend = true := by
    intro b member
    obtain ⟨-, -, -, stat | stat, -⟩ := inv.posted member <;> rw [stat] <;> rfl
  have sendsDiffer := List.inj_on_of_nodup_map (inv.posts.sendsDiffer c)
  have recvsDiffer := List.inj_on_of_nodup_map (inv.posts.recvsDiffer c)
  have recvsPosted : matchedRecvs (s.trace c) ⊆ recvsOf (s.trace c) := by
    have dual := run.swap.matchedSends_posted
    rwa [Matching.matchedSends_map_swap, Matching.sendsOf_map_swap] at dual
  exact
    { pending := ⟨sendsPend, recvsPend⟩
      noPair := fun x queued b posted => by
        have apart := run.no_pair _ (List.mem_map_of_mem queued) _ (List.mem_map_of_mem posted)
        have agrees := (inv.posted posted).2.2.2.2.1
        have refused : sqCmp (s.smem x) (s.rmem b).context (s.rmem b).tag (s.rmem b).src = false := by
          rw [inv.sqCmp_linked queued (g.want b) agrees.envelope]
          exact apart
        exact ⟨refused, by rw [← sqCmp_eq_rqCmp _ _ (sendsPend x queued) (recvsPend b posted), refused]⟩
      sends := by
        rw [inv.sendPosts_eq, run.sends_eq]
        exact List.filter_congr fun p _ => decide_eq_decide.mpr Iff.rfl
      recvs := by
        rw [inv.recvPosts_eq, run.recvs_eq]
        exact List.filter_congr fun p _ => decide_eq_decide.mpr Iff.rfl
      postedOnce := ⟨inv.posts.sendsDiffer c, inv.posts.recvsDiffer c⟩
      sendOnce := run.matchedSends_nodup.map_on fun p first q second =>
        sendsDiffer (run.matchedSends_posted first) (run.matchedSends_posted second)
      recvOnce := run.matchedRecvs_nodup.map_on fun p first q second =>
        recvsDiffer (recvsPosted first) (recvsPosted second)
      fitting := fun send recv happened => run.fits_of_matched happened
      firstSend := fun before send recv earlier happened order would =>
        run.first_come happened order would
      firstRecv := fun before send recv earlier happened order would =>
        run.first_served happened order would
      noOvertaking := fun before earlier later recv happened order _ _ would =>
        run.no_overtaking happened order would }

/-- Every channel matches in order, and the two comparisons are one relation. -/
theorem matching_in_order (reach : Reach cfg (fun s act => tame cfg s act = true) s) (c : Int) :
    InOrder s c ∧ ∀ cell r, cell.stat.pend = true → r.stat.pend = true →
      sqCmp cell r.context r.tag r.src =
        rqCmp r cell.envelope.context cell.envelope.tag cell.envelope.src := by
  obtain ⟨g, inv⟩ := tame_inv reach
  exact ⟨inv.inOrder c, fun cell r sendPend recvPend => sqCmp_eq_rqCmp cell r sendPend recvPend⟩

/-- Two sends of rank 0 to rank 1 and a receive of any source that takes the first. -/
theorem matching_in_order_two : ∃ s, Reach ⟨fun _ => 0, 4, by decide⟩
    (fun s act => tame ⟨fun _ => 0, 4, by decide⟩ s act = true) s ∧
    (s.sendPosts 1).map Post.inst = [1] ∧ (matchedSends (s.trace 1)).map Post.inst = [0] ∧
    InOrder s 1 := by
  obtain ⟨s, run, facts⟩ : ∃ s, follow ⟨fun _ => 0, 4, by decide⟩ (tame ⟨fun _ => 0, 4, by decide⟩)
      (boot ⟨fun _ => 0, 4, by decide⟩)
      [.initSh 7 0 1 5 [1, 2] .sync false false true, .initSh 7 0 1 5 [3] .standard false false true,
        .initRh 7 anySource 1 5 [0, 0] false false, .startSh ⟨0, 0⟩ true, .startSh ⟨0, 1⟩ true,
        .startRh ⟨1, 0⟩ true, .finishStartRh 1] = some s ∧
      (s.sendPosts 1).map Post.inst = [1] ∧ (matchedSends (s.trace 1)).map Post.inst = [0] :=
    ⟨_, rfl, by decide +kernel⟩
  have reach := Reach.boot.follow run
  exact ⟨s, reach, facts.1, facts.2, (matching_in_order reach 1).1⟩

/-! ## The handshake -/

/-- What the handler of a message looks up is there. -/
def Frame.Reaches (cfg : Config) (s : Sys) (m : Nat) : Frame → Prop
  | .rms handle | .rmds handle _ => cfg.home handle.dest = m
  | .rmr a _ _ _ | .rdr a _ _ | .rmdr a _ _ | .nrdy a _ _ =>
      cfg.home a.owner = m ∧ s.LiveS a ∧ ∃ h, s.smem a = .send h
  | .rds _ b _ _ _ => cfg.home b.owner = m ∧ s.LiveR b

theorem Inv.reaches (inv : Inv cfg s g) {m m' : Nat} {frame : Frame} (member : frame ∈ s.link m m') :
    frame.Reaches cfg s m' := by
  have here := inv.wires.frames m m' frame member
  have active : g.send frame.send ≠ .off := by simp [here]
  obtain ⟨h, cell, -, placed, -, -, live, owner⟩ := inv.of_away (a := frame.send)
    (by simp [here, SPlace.away])
  rw [here] at placed
  obtain ⟨-, frameOk⟩ := placed
  have back : (g.job frame.send).outward cfg m' m →
      cfg.home frame.send.owner = m' ∧ s.LiveS frame.send ∧ ∃ h, s.smem frame.send = .send h :=
    fun way => ⟨by rw [owner, way.1], live, h, cell⟩
  cases frame with
  | rms handle =>
      obtain ⟨rms, -, way⟩ := frameOk
      exact (congrArg cfg.home rms.dest).trans way.2.symm
  | rmds handle payload =>
      obtain ⟨rms, -, way⟩ := frameOk
      exact (congrArg cfg.home rms.dest).trans way.2.symm
  | rmr a b buflen errval => exact back frameOk.2
  | rds a b buflen errval payload =>
      have tied : (g.send a).engaged = some (b, true) := by
        rw [show g.send a = _ from here]
        rfl
      have waits := (inv.pairs.agree a b true).mp tied
      refine ⟨?_, inv.recvs.live b (.inl fun off => ?_)⟩
      · rw [inv.pairs.owner a b true tied]
        exact frameOk.2.2.symm
      · rw [off] at waits
        cases waits
  | rdr a buflen errval => exact back frameOk.2
  | rmdr a buflen errval => exact back frameOk.2
  | nrdy a buflen errval => exact back frameOk.2.2

/-- No handler meets a state it does not expect or a handle that is gone, and no handle
is freed twice. -/
theorem handshake_safe (reach : Reach cfg (fun s act => tame cfg s act = true) s) :
    (∀ what, .fault what ∉ s.log) ∧
      ∀ m m', ∀ frame ∈ s.link m m', frame.Reaches cfg s m' := by
  obtain ⟨g, inv⟩ := tame_inv reach
  exact ⟨inv.logs.noFault, fun m m' frame member => inv.reaches member⟩

/-- A ready send between two machines whose message is on the link. -/
theorem handshake_safe_ready : ∃ s, Reach ⟨Int.toNat, 4, by decide⟩
    (fun s act => tame ⟨Int.toNat, 4, by decide⟩ s act = true) s ∧
    (s.link 0 1).length = 1 ∧ (∀ what, .fault what ∉ s.log) ∧
    ∀ frame ∈ s.link 0 1, frame.Reaches ⟨Int.toNat, 4, by decide⟩ s 1 := by
  obtain ⟨s, run, facts⟩ : ∃ s, follow ⟨Int.toNat, 4, by decide⟩ (tame ⟨Int.toNat, 4, by decide⟩)
      (boot ⟨Int.toNat, 4, by decide⟩)
      [.initSh 7 0 1 5 [1, 2] .ready false false true, .startSh ⟨0, 0⟩ true] = some s ∧
      (s.link 0 1).length = 1 := ⟨_, rfl, by decide +kernel⟩
  have reach := Reach.boot.follow run
  have safe := handshake_safe reach
  exact ⟨s, reach, facts, safe.1, safe.2 0 1⟩

end Tmpi.Intra
