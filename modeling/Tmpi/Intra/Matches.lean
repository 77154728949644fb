import Tmpi.Intra.Calls

/-! The calls that post a request, and the match of a receive with a local send. -/

namespace Tmpi.Intra

open Function (update)

variable {cfg : Config} {s s' : Sys} {g : Ghost} {a b x : Addr} {h : SHandle} {r : RHandle} {c : Int}

/-- What a send is started with. -/
def SHandle.job (h : SHandle) (clock : Nat) : Job :=
  ⟨clock, ⟨h.context, h.tag, h.src⟩, h.dest, h.mode, h.userBuf⟩

def RHandle.want (r : RHandle) (clock : Nat) : Want := ⟨clock, r.envelope, r.data⟩

namespace Inv

/-! ## The searches are the matcher's -/

theorem rqCmp_linked (inv : Inv cfg s g) (member : b ∈ (s.chan c).rq) (post : Post) :
    rqCmp (s.rmem b) post.envelope.context post.envelope.tag post.envelope.src =
      postFits post (g.want b).post := by
  have ok := inv.recvs.ok b
  rw [((inv.chans c).rq b member).1] at ok
  obtain ⟨-, stats, agrees⟩ := ok
  have pend : (s.rmem b).stat.pend = true := by rcases stats with stat | stat <;> rw [stat] <;> rfl
  rw [rqCmp_eq, agrees.envelope, pend, Bool.and_true]
  rfl

theorem linked_cell (inv : Inv cfg s g) (member : x ∈ (s.chan c).sq) :
    (s.smem x).envelope = (postOf s.smem g.job x).envelope ∧ (s.smem x).stat.pend = true := by
  have linked := (inv.chans c).sq x member
  cases cell : s.smem x with
  | send h =>
      rw [cell] at linked
      obtain ⟨-, -, -, on⟩ := inv.sendOk cell
      obtain ⟨agrees, admits⟩ := on (by simp [linked.2])
      refine ⟨by simp [SCell.envelope, postOf, cell, SCell.origin, Job.post, agrees.envelope], ?_⟩
      simp only [SPlace.admits, linked.2, SPlace.granted] at admits
      rcases admits with stat | ⟨-, stat | stat⟩ <;> simp only [SCell.stat, stat] <;> rfl
  | remote rm =>
      rw [cell] at linked
      obtain ⟨-, -, rms, stat, -⟩ := linked
      refine ⟨by simp [SCell.envelope, postOf, cell, SCell.origin, Job.post, rms.envelope], ?_⟩
      simp only [SCell.stat, stat]
      rfl

theorem sqCmp_linked (inv : Inv cfg s g) (member : x ∈ (s.chan c).sq) (w : Want)
    (envelope : r.envelope = w.envelope) :
    sqCmp (s.smem x) r.context r.tag r.src = postFits (postOf s.smem g.job x) w.post := by
  obtain ⟨same, pend⟩ := inv.linked_cell member
  rw [sqCmp_eq, same, pend, Bool.and_true, envelope]
  rfl

theorem instOf_linked (inv : Inv cfg s g) (member : x ∈ (s.chan c).sq) :
    (⟨s.instOf x, (s.smem x).envelope⟩ : Post) = postOf s.smem g.job x := by
  have envelope := (inv.linked_cell member).1
  have linked := (inv.chans c).sq x member
  have inst : s.instOf x = (postOf s.smem g.job x).inst := by
    cases cell : s.smem x with
    | send h =>
        rw [cell] at linked
        obtain ⟨-, -, -, on⟩ := inv.sendOk cell
        simp [Sys.instOf, cell, postOf, SCell.origin, Job.post, (on (by simp [linked.2])).1.inst]
    | remote rm =>
        rw [cell] at linked
        have active : g.send rm.remoteSendHandle ≠ .off := by simp [linked.2.1]
        obtain ⟨h, cell'⟩ := inv.cell_of_active active
        obtain ⟨-, -, -, on⟩ := inv.sendOk cell'
        simp [Sys.instOf, cell, cell', postOf, SCell.origin, Job.post, (on active).1.inst]
  rw [inst, envelope]

/-! ## Starting a send -/

theorem startable (inv : Inv cfg s g) (cell : s.smem a = .send h) (may : h.startable = true)
    (errval : h.errval = .success) :
    g.send a = .off ∧ h.curdata = .userBuf ∧ h.buflen = h.userBuf.length ∧
      (h.mode = .buffered → h.sysBuf = none → ¬ 0 < h.len) := by
  obtain ⟨ok, -, -, -⟩ := inv.sendOk cell
  have settled : h.stat.settled := by
    simp only [SHandle.startable, decide_eq_true_eq] at may
    exact may.elim .inl fun stat => .inr (.inl stat.1)
  obtain ⟨cur, len⟩ := ok.fresh may
  exact ⟨inv.off_of_settled cell settled, cur, len.trans ok.userLen.symm,
    fun mode none len => (ok.noSpace mode none len).2 errval⟩

theorem started (ok : HandleOk cfg a h) (spare : h.mode = .buffered → h.sysBuf = none → ¬ 0 < h.len)
    (idle : h.pc = .idle) {stat : Stat} (stats : stat = .pendStrt ∨ stat = .matched)
    (buflen inst : Nat) (errval : Err) :
    HandleOk cfg a { h with stat, buflen, errval, inst } := by
  rcases stats with rfl | rfl
  all_goals
    exact
      { ok with
        noSpace := fun mode none len => absurd len (spare mode none)
        fresh := by simp [SHandle.startable]
        leaves := by simp
        refused := by simp
        blocked := by simp
        waiting := by simp [idle]
        readyWait := by simp [idle] }

theorem apart_of_single (inv : Inv cfg s g) (single : (g.send a).engaged = none) :
    ∀ b, g.recv b ≠ .starting a ∧ g.recv b ≠ .awaiting a := by
  intro b
  constructor <;> intro place
  · have tied := (inv.pairs.agree a b false).mpr (by simp [place, RPlace.engaged])
    simp [single] at tied
  · have tied := (inv.pairs.agree a b true).mpr (by simp [place, RPlace.engaged])
    simp [single] at tied

theorem origin_apart (inv : Inv cfg s g) (off : g.send a = .off) :
    ∀ c, ∀ x ∈ (s.chan c).sq, (s.smem x).origin x ≠ a := fun c =>
  (inv.chans c).origin_ne (by simp [off, SPlace.linked])

/-- The posts of a channel are older than the clock. -/
theorem fresh_clock (inv : Inv cfg s g) (c : Int) :
    (∀ old ∈ Matching.sendsOf (s.trace c), old.inst ≠ s.clock) ∧
      ∀ old ∈ Matching.recvsOf (s.trace c), old.inst ≠ s.clock :=
  ⟨fun old member => (inv.posts.sendsOld c old member).ne,
    fun old member => (inv.posts.recvsOld c old member).ne⟩

/-- What is still arriving was started before. -/
theorem arriving_old (inv : Inv cfg s g) {j : Job} {p : SPlace} (inst : j.inst = s.clock)
    (seen : p.arriving = false) (a' : Addr) (arriving : (update g.send a p a').arriving = true) :
    j.post.inst ≠ (update g.job a j a').inst := by
  by_cases here : a' = a
  · simp [here, seen] at arriving
  · rw [Function.update_of_ne here] at arriving ⊢
    intro same
    refine (inv.posts.jobsOld a' fun off => ?_).ne (same.symm.trans inst)
    simp [off, SPlace.arriving] at arriving

/-- A local send that no posted receive wants is linked behind the others. -/
theorem postSend (inv : Inv cfg s g) (cell : s.smem a = .send h) (live : s.LiveS a)
    (idle : h.pc = .idle) (may : h.startable = true) (errval : h.errval = .success)
    (near : h.isRemote = false)
    (missing : ∀ b ∈ (s.chan h.dest).rq, rqCmp (s.rmem b) h.context h.tag h.src = false) :
    Inv cfg ((((s.tick.record (.sendStarted s.clock h.src h.tag h.userBuf)).setS a
        (.send { h with stat := .pendStrt, inst := s.clock })).setChan h.dest
          { s.chan h.dest with sq := (s.chan h.dest).sq ++ [a] }).post h.dest
            [.postSend ⟨s.clock, h.context, h.tag, h.src⟩])
      { g with job := update g.job a (h.job s.clock), send := update g.send a .queue } := by
  obtain ⟨ok, -, -, -⟩ := inv.sendOk cell
  obtain ⟨off, cur, len, spare⟩ := inv.startable cell may errval
  have apart := inv.unlinked cell (by simp [off])
  have out : (g.send a).linked = false := by simp [off, SPlace.linked]
  have single : (g.send a).engaged = none := by simp [off, SPlace.engaged]
  have sendOk : SendOk cfg a (.send { h with stat := .pendStrt, inst := s.clock })
      (h.job s.clock) .queue := by
    refine ⟨started ok spare idle (.inl rfl) h.buflen s.clock h.errval, ?_, by simp, fun _ => ⟨?_, .inl rfl⟩⟩
    · have remote := ok.isRemote
      rw [near] at remote
      simpa [PlaceOk, SHandle.job] using remote.symm
    · exact ⟨rfl, rfl, rfl, rfl, ok.userLen.symm, len, .inl ⟨cur, rfl, by simp⟩⟩
  have posts := (inv.posts.begin (p := .queue) (j := h.job s.clock) off (inv.origin_apart off) rfl).recell
    (update s.smem a (.send { h with stat := .pendStrt, inst := s.clock }))
    fun c x _ => origin_of_cell cell x
  have met : MetSide (update s.smem a (.send { h with stat := .pendStrt, inst := s.clock })) s.trace :=
    inv.met.keep cell (by simp)
  exact
    { sends := by
        rw [liveS_congr (s := s) (update_field Channel.spool (by rfl))]
        exact inv.sends.update sendOk fun _ => live
      recvs := by
        rw [liveR_congr (s := s) (update_field Channel.rpool (by rfl))]
        exact (inv.recvs.rejob (inv.apart_of_single single)).grow (List.subset_append_left _ _)
          (trace_grows _ _ _)
      chans := chans_update
        (fun c other => (inv.chans c).elsewhere (apart c) (by simp [out]) fun _ => other.symm)
        ((inv.chans h.dest).enqueue out cell rfl)
      wires := inv.wires.move (by simp [off, SPlace.away]) rfl
      pairs := inv.pairs.sendAlone single rfl
      posts := by
        refine posts.sendPosted rfl rfl (Nat.lt_succ_self _) (inv.fresh_clock _).1
          (inv.arriving_old (j := h.job s.clock) rfl rfl) ?_
        have new : (h.job s.clock).post ∉ Matching.sendsOf (s.trace h.dest) :=
          fun member => (inv.fresh_clock _).1 _ member rfl
        have run := (posts.run h.dest).sendWaits new ?_
        · simpa [postOf, SCell.origin, SHandle.job, Job.post] using run
        · intro w member
          obtain ⟨b, linked, rfl⟩ := List.mem_map.mp member
          rw [← inv.rqCmp_linked linked]
          exact missing b linked
      logs := (inv.logs.beginSend (j := h.job s.clock) rfl).grow (trace_grows _ _ _)
      met := met.grow (trace_grows _ _ _)
      pools := inv.pools.relink rfl rfl fun x member => by
        rcases List.mem_append.mp member with old | new
        · exact inv.pools.linked _ x old
        · obtain rfl := List.mem_singleton.mp new
          exact live
      stray := inv.stray }

theorem delivered {log : List Event} {trace : Trace} {recv peer : Nat} {src tag : Int}
    {sent before bytes : Buffer} {n buflen : Nat} (paired : Paired trace peer recv)
    (sendStarted : .sendStarted peer src tag sent ∈ log) (recvStarted : .recvStarted recv before ∈ log)
    (len : buflen = min sent.length before.length)
    (enough : bytes.take n = sent.take (min sent.length before.length))
    (count : n = min sent.length before.length) :
    Delivered log trace recv peer ⟨buflen, src, tag, .success⟩ (memcpy before bytes n) := by
  refine ⟨paired, src, tag, sent, before, sendStarted, recvStarted, by rw [len], ?_⟩
  rw [memcpy, enough, count]

theorem filled (ok : RHandleOk b r) (src tag : Int) (n : Nat) (bytes : Buffer) (peer : Nat)
    (enough : n ≤ bytes.length) (room : n ≤ r.data.length) :
    RHandleOk b { r.fill src tag n bytes peer with stat := .matched } :=
  { ok with
    dataLen := (length_memcpy enough room).trans ok.dataLen
    fresh := by simp
    blocked := by simp
    waiting := by simp }

/-- A local send takes the first posted receive that wants it. -/
theorem matchSend (inv : Inv cfg s g) (cell : s.smem a = .send h) (live : s.LiveS a)
    (idle : h.pc = .idle) (may : h.startable = true) (errval : h.errval = .success)
    {front back : List Addr} (split : (s.chan h.dest).rq = front ++ b :: back)
    (first : ∀ b' ∈ front, rqCmp (s.rmem b') h.context h.tag h.src = false)
    (wanted : rqCmp (s.rmem b) h.context h.tag h.src = true) :
    ((s.rmem b).stat = .pendWait ∨ (s.rmem b).stat = .pendStrt) ∧
    Inv cfg (((((s.tick.record (.sendStarted s.clock h.src h.tag h.userBuf)).setS a
        (.send { h with
          stat := .matched, buflen := min h.buflen (s.rmem b).buflen, errval := .success
          inst := s.clock })).setChan h.dest
          { s.chan h.dest with rq := front ++ back }).post h.dest
            [.postSend ⟨s.clock, h.context, h.tag, h.src⟩,
              .matched ⟨s.clock, h.context, h.tag, h.src⟩ ⟨(s.rmem b).inst, (s.rmem b).envelope⟩]).setR b
                { (s.rmem b).fill h.src h.tag (min h.buflen (s.rmem b).buflen) h.bytes s.clock with
                  stat := .matched })
      { g with job := update g.job a (h.job s.clock), send := update g.send a .off,
               recv := update g.recv b .off } := by
  obtain ⟨ok, -, -, -⟩ := inv.sendOk cell
  obtain ⟨off, cur, len, spare⟩ := inv.startable cell may errval
  have linked : b ∈ (s.chan h.dest).rq := by rw [split]; simp
  obtain ⟨queue, owner⟩ := (inv.chans h.dest).rq b linked
  have rok := inv.recvs.handle b
  have rplace := inv.recvs.ok b
  rw [queue] at rplace
  obtain ⟨awake, stats, agrees⟩ := rplace
  refine ⟨stats.symm, ?_⟩
  have apart := inv.unlinked cell (by simp [off])
  have out : (g.send a).linked = false := by simp [off, SPlace.linked]
  have single : (g.send a).engaged = none := by simp [off, SPlace.engaged]
  have posts := (inv.posts.begin (p := .off) (j := h.job s.clock) off (inv.origin_apart off) rfl).recell
    (update s.smem a (.send { h with
      stat := .matched, buflen := min h.buflen (s.rmem b).buflen, errval := .success
      inst := s.clock })) fun c x _ => origin_of_cell cell x
  have sendOk : SendOk cfg a (.send { h with
      stat := .matched, buflen := min h.buflen (s.rmem b).buflen, errval := .success
      inst := s.clock }) (h.job s.clock) .off :=
    ⟨started ok spare idle (.inr rfl) _ _ _, trivial, fun _ => .inr (.inr (.inl rfl)),
      fun on => absurd rfl on⟩
  have post : (⟨(s.rmem b).inst, (s.rmem b).envelope⟩ : Post) = (g.want b).post := by
    rw [agrees.inst, agrees.envelope]
    rfl
  have lens : min h.buflen (s.rmem b).buflen = min h.userBuf.length (g.want b).data.length := by
    rw [len, agrees.buflen]
  have bytes : h.bytes = h.userBuf := by simp [SHandle.bytes, cur]
  have handle : RHandleOk b { (s.rmem b).fill h.src h.tag (min h.buflen (s.rmem b).buflen) h.bytes
      s.clock with stat := .matched } := filled rok _ _ _ _ _ (by rw [bytes, len]; exact min_le_left _ _)
    (by rw [agrees.buflen, ← agrees.data]; exact min_le_right _ _)
  have done : Delivered (s.log ++ [.sendStarted s.clock h.src h.tag h.userBuf])
      (update s.trace h.dest (s.trace h.dest ++
        [.postSend ⟨s.clock, h.context, h.tag, h.src⟩, .matched ⟨s.clock, h.context, h.tag, h.src⟩
          ⟨(s.rmem b).inst, (s.rmem b).envelope⟩]) b.owner)
      (s.rmem b).inst s.clock ⟨min h.buflen (s.rmem b).buflen, h.src, h.tag, (s.rmem b).errval⟩
      (memcpy (s.rmem b).data h.bytes (min h.buflen (s.rmem b).buflen)) := by
    rw [rok.errval, agrees.data]
    refine delivered ?_ (List.mem_append_right _ (List.mem_singleton_self _))
      (List.mem_append_left _ ?_) lens ?_ lens
    · rw [owner, Function.update_self]
      exact ⟨_, _, by simp; exact .inr ⟨rfl, rfl⟩⟩
    · rw [agrees.inst]
      exact inv.logs.recvStarted b (by simp [queue])
    · rw [bytes, lens]
  have moved : ∀ c, ChanOk c (s.chan c) (update s.smem a (.send { h with
      stat := .matched, buflen := min h.buflen (s.rmem b).buflen, errval := .success
      inst := s.clock })) (update g.job a (h.job s.clock)) (update g.send a .off) g.recv := fun c =>
    (inv.chans c).elsewhere (apart c) (by simp [out]) (by simp [SPlace.linked])
  exact
    { sends := by
        rw [liveS_congr (s := s) (update_field Channel.spool (by rfl))]
        exact inv.sends.update sendOk fun _ => live
      recvs := by
        rw [liveR_congr (s := s) (update_field Channel.rpool (by rfl))]
        exact ((inv.recvs.rejob (inv.apart_of_single single)).grow (List.subset_append_left _ _)
          (trace_grows _ _ _)).move handle ⟨awake, .inr (.inr ⟨rfl, done⟩)⟩
            fun _ => inv.recvs.live b (.inl (by simp [queue]))
      chans := chans_update
        (fun c other => (moved c).recvElsewhere (fun _ => owner ▸ other.symm) (by simp))
        ((moved h.dest).takeRecv split (by simp))
      wires := inv.wires.move (by simp [off, SPlace.away]) rfl
      pairs := (inv.pairs.sendAlone single rfl).recvMove (by simp [queue, RPlace.engaged]) rfl
      posts := by
        refine posts.sendPosted rfl rfl (Nat.lt_succ_self _) (inv.fresh_clock _).1
          (inv.arriving_old (j := h.job s.clock) rfl rfl) ?_
        have before := posts.run h.dest
        rw [split, List.map_append, List.map_cons] at before
        have new : (h.job s.clock).post ∉ Matching.sendsOf (s.trace h.dest) :=
          fun member => (inv.fresh_clock _).1 _ member rfl
        have run := before.sendMatches new ?_ ?_
        · rw [post, List.map_append]
          exact run
        · intro w member
          obtain ⟨b', early, rfl⟩ := List.mem_map.mp member
          rw [← inv.rqCmp_linked (c := h.dest) (by rw [split]; simp [early])]
          exact first b' early
        · rw [← inv.rqCmp_linked linked]
          exact wanted
      logs := ((inv.logs.beginSend (j := h.job s.clock) rfl).grow (trace_grows _ _ _)).moveRecv
        (by simp)
      met := by
        refine (inv.met.grow (trace_grows _ _ _)).put _ fun h' here _ _ => ?_
        obtain rfl := SCell.send.inj here
        refine ⟨(s.rmem b).inst, ⟨h.context, h.tag, h.src⟩, (s.rmem b).envelope, ?_⟩
        rw [Function.update_self]
        simp
      pools := inv.pools.relink rfl rfl fun x member => inv.pools.linked _ x member
      stray := inv.stray }

/-- A remote send puts its first message on the link. -/
theorem postAway (inv : Inv cfg s g) (cell : s.smem a = .send h) (live : s.LiveS a)
    (idle : h.pc = .idle) (may : h.startable = true) (errval : h.errval = .success)
    (far : h.isRemote = true) {frame : Frame} (mine : frame.send = a)
    (ok : FrameOk cfg a (h.job s.clock) (cfg.home h.src) (cfg.home h.dest) frame)
    (first : (SPlace.wire (cfg.home h.src) (cfg.home h.dest) frame).granted = false ∧
      (SPlace.wire (cfg.home h.src) (cfg.home h.dest) frame).engaged = none) :
    Inv cfg (((s.tick.setS a (.send { h with stat := .pendStrt, inst := s.clock })).record
        (.sendStarted s.clock h.src h.tag h.userBuf)).netqSend cfg h.src h.dest frame)
      { g with
        job := update g.job a (h.job s.clock)
        send := update g.send a (.wire (cfg.home h.src) (cfg.home h.dest) frame) } := by
  obtain ⟨hok, -, -, -⟩ := inv.sendOk cell
  obtain ⟨off, cur, len, spare⟩ := inv.startable cell may errval
  have apart := inv.unlinked cell (by simp [off])
  have out : (g.send a).linked = false := by simp [off, SPlace.linked]
  have single : (g.send a).engaged = none := by simp [off, SPlace.engaged]
  have sendOk : SendOk cfg a (.send { h with stat := .pendStrt, inst := s.clock })
      (h.job s.clock) (.wire (cfg.home h.src) (cfg.home h.dest) frame) := by
    refine ⟨started hok spare idle (.inl rfl) h.buflen s.clock h.errval, ⟨?_, ok⟩, by simp,
      fun _ => ⟨?_, ?_⟩⟩
    · have remote := hok.isRemote
      rw [far] at remote
      simpa [SHandle.job] using remote.symm
    · exact ⟨rfl, rfl, rfl, rfl, hok.userLen.symm, len, .inl ⟨cur, rfl, by simp⟩⟩
    · rw [SPlace.admits, first.1]
      exact .inl rfl
  exact
    { sends := inv.sends.update sendOk fun _ => live
      recvs := (inv.recvs.rejob (inv.apart_of_single single)).grow (List.subset_append_left _ _)
        fun _ => List.Subset.refl _
      chans := fun c => (inv.chans c).elsewhere (apart c) (by simp [out]) (by simp [SPlace.linked])
      wires := by
        subst mine
        exact inv.wires.push _ _ _ (by simp [off, SPlace.away])
      pairs := inv.pairs.sendAlone single first.2
      posts := (inv.posts.begin off (inv.origin_apart off) rfl).recell _
        fun c x _ => origin_of_cell cell x
      logs := inv.logs.beginSend (j := h.job s.clock) rfl
      met := inv.met.away fun _ => far
      pools := inv.pools
      stray := inv.stray }

theorem tmpiIntraStartSh (inv : Inv cfg s g) (cell : s.smem a = .send h) (live : s.LiveS a)
    (idle : h.pc = .idle) {message : Bool}
    (call : Intra.tmpiIntraStartSh cfg s a message h = some s') : ∃ g', Inv cfg s' g' := by
  unfold Intra.tmpiIntraStartSh at call
  split at call
  next =>
    cases call
    exact ⟨g, inv.record rfl⟩
  next errval =>
    simp only [ne_eq, Decidable.not_not] at errval
    split at call
    next far =>
      cases call
      unfold tmpiInterStartSh
      split
      next => exact ⟨g, inv.record rfl⟩
      next may =>
        simp only [Bool.not_eq_true', Bool.not_eq_false] at may
        obtain ⟨-, cur, len, -⟩ := inv.startable cell may errval
        split
        next => exact ⟨g, inv.record rfl⟩
        next =>
          dsimp only
          split
          next =>
            refine ⟨_, inv.postAway cell live idle may errval far rfl ⟨?_, ?_, rfl, rfl⟩ ⟨rfl, rfl⟩⟩
            · exact ⟨rfl, rfl, len, rfl, rfl⟩
            · simp [SHandle.bytes, cur, len, SHandle.job]
          next =>
            refine ⟨_, inv.postAway cell live idle may errval far rfl ⟨?_, rfl, rfl, rfl⟩ ⟨rfl, rfl⟩⟩
            exact ⟨rfl, rfl, len, rfl, rfl⟩
    next near =>
      split at call
      next =>
        cases call
        exact ⟨g, inv.record rfl⟩
      next may =>
        simp only [Bool.not_eq_true', Bool.not_eq_false] at may
        dsimp only at call
        split at call
        next => cases call
        next =>
          split at call
          next missing =>
            cases call
            exact ⟨_, inv.postSend cell live idle may errval (by simpa using near) (qFind_none missing)⟩
          next b rq found =>
            obtain ⟨front, back, split, rfl, wanted, first⟩ := qFind_some found
            obtain ⟨stats, done⟩ := inv.matchSend cell live idle may errval split first wanted
            split at call
            next =>
              cases call
              exact ⟨_, done⟩
            next other => exact absurd stats other

/-! ## Starting a receive -/

theorem startableR (inv : Inv cfg s g) (idle : (s.rmem b).pc = .idle)
    (may : (s.rmem b).startable = true) :
    g.recv b = .off ∧ (s.rmem b).stat = .create ∧ (s.rmem b).buflen = (s.rmem b).data.length ∧
      ∀ c, b ∉ (s.chan c).rq := by
  have stat : (s.rmem b).stat = .create := by simpa [RHandle.startable] using may
  have place := inv.recvs.ok b
  have off : g.recv b = .off := by
    cases at_ : g.recv b <;> rw [at_] at place
    case starting a => exact absurd place.1 (by simp [idle])
    all_goals
      have stats := place.2.1
      simp [stat] at stats
  refine ⟨off, stat, (inv.recvs.handle b).fresh stat, fun c member => ?_⟩
  have queue := ((inv.chans c).rq b member).1
  rw [off] at queue
  cases queue

/-- A receive that no queued send suits is linked behind the others. -/
theorem postRecv (inv : Inv cfg s g) (live : s.LiveR b) (idle : (s.rmem b).pc = .idle)
    (may : (s.rmem b).startable = true)
    (missing : ∀ x ∈ (s.chan (s.rmem b).dest).sq,
      sqCmp (s.smem x) (s.rmem b).context (s.rmem b).tag (s.rmem b).src = false) :
    Inv cfg ((((s.tick.record (.recvStarted s.clock (s.rmem b).data)).setR b
        { s.rmem b with stat := .pendStrt, inst := s.clock }).setChan (s.rmem b).dest
          { s.chan (s.rmem b).dest with rq := (s.chan (s.rmem b).dest).rq ++ [b] }).post (s.rmem b).dest
            [.postRecv ⟨s.clock, (s.rmem b).envelope⟩])
      { g with want := update g.want b ((s.rmem b).want s.clock), recv := update g.recv b .queue } := by
  obtain ⟨off, stat, len, apart⟩ := inv.startableR idle may
  have ok := inv.recvs.handle b
  have handle : RHandleOk b { s.rmem b with stat := .pendStrt, inst := s.clock } :=
    { ok with
      fresh := by simp
      blocked := by simp
      waiting := by simp [idle] }
  have posts := inv.posts.later.rewant (b := b) (w := (s.rmem b).want s.clock) apart
  exact
    { sends := by
        rw [liveS_congr (s := s) (update_field Channel.spool (by rfl))]
        exact inv.sends
      recvs := by
        rw [liveR_congr (s := s) (update_field Channel.rpool (by rfl))]
        exact (inv.recvs.grow (List.subset_append_left _ _) (trace_grows _ _ _)).update handle
          ⟨by simp [idle], .inl rfl, rfl, rfl, rfl, len⟩ fun _ => live
      chans := chans_update
        (fun c other => (inv.chans c).recvElsewhere (by simp [off]) fun _ => ok.owner ▸ other.symm)
        ((inv.chans _).enqueueRecv (by simp [off]) ok.owner.symm)
      wires := inv.wires
      pairs := inv.pairs.recvAlone (by simp [off, RPlace.engaged]) rfl
      posts := by
        refine posts.recvPosted rfl rfl (Nat.lt_succ_self _) (inv.fresh_clock _).2 ?_
        have new : ((s.rmem b).want s.clock).post ∉ Matching.recvsOf (s.trace (s.rmem b).dest) :=
          fun member => (inv.fresh_clock _).2 _ member rfl
        have run := (posts.run (s.rmem b).dest).recvWaits new ?_
        · rw [List.map_append, List.map_singleton, Function.update_self]
          exact run
        · intro post member
          obtain ⟨x, linked, rfl⟩ := List.mem_map.mp member
          rw [← inv.sqCmp_linked linked _ rfl]
          exact missing x linked
      logs := (inv.logs.beginRecv (w := (s.rmem b).want s.clock) rfl).grow (trace_grows _ _ _)
      met := inv.met.grow (trace_grows _ _ _)
      pools := inv.pools.relink rfl rfl fun x member => inv.pools.linked _ x member
      stray := inv.stray }

/-- A receive that finds a queued send makes a step of the matcher. -/
theorem matched_run (inv : Inv cfg s g) {want : Addr → Want} {send : Addr → SPlace}
    (posts : MatchSide s.chan s.trace (s.clock + 1) s.smem g.job want send) {front back : List Addr}
    (split : (s.chan (s.rmem b).dest).sq = front ++ x :: back)
    (first : ∀ y ∈ front, sqCmp (s.smem y) (s.rmem b).context (s.rmem b).tag (s.rmem b).src = false)
    (wanted : sqCmp (s.smem x) (s.rmem b).context (s.rmem b).tag (s.rmem b).src = true) :
    Matching.Run postFits (s.trace (s.rmem b).dest ++ [.postRecv ⟨s.clock, (s.rmem b).envelope⟩,
        .matched ⟨s.instOf x, (s.smem x).envelope⟩ ⟨s.clock, (s.rmem b).envelope⟩])
      ((front ++ back).map (postOf s.smem g.job))
      ((s.chan (s.rmem b).dest).rq.map fun b => (want b).post) := by
  have linked : x ∈ (s.chan (s.rmem b).dest).sq := by rw [split]; simp
  have before := posts.run (s.rmem b).dest
  rw [split, List.map_append, List.map_cons] at before
  rw [inv.instOf_linked linked, List.map_append]
  refine before.recvMatches (fun member => (inv.fresh_clock _).2 _ member rfl) ?_ ?_
  · intro post member
    obtain ⟨y, early, rfl⟩ := List.mem_map.mp member
    have there : y ∈ (s.chan (s.rmem b).dest).sq := by rw [split]; simp [early]
    exact (inv.sqCmp_linked there ((s.rmem b).want s.clock) rfl).symm.trans (first y early)
  · exact (inv.sqCmp_linked linked ((s.rmem b).want s.clock) rfl).symm.trans wanted

/-- A receive takes the first queued send that suits it out of the queue; a local one stays
linked to it until the receive has its lock. -/
theorem takeSend (inv : Inv cfg s g) (live : s.LiveR b) (idle : (s.rmem b).pc = .idle)
    (may : (s.rmem b).startable = true) (free : (s.chan (s.rmem b).dest).busy = none)
    {front back : List Addr} (split : (s.chan (s.rmem b).dest).sq = front ++ x :: back)
    (first : ∀ y ∈ front, sqCmp (s.smem y) (s.rmem b).context (s.rmem b).tag (s.rmem b).src = false)
    (wanted : sqCmp (s.smem x) (s.rmem b).context (s.rmem b).tag (s.rmem b).src = true)
    (cell : s.smem x = .send h) :
    Inv cfg ((((s.tick.record (.recvStarted s.clock (s.rmem b).data)).post (s.rmem b).dest
        [.postRecv ⟨s.clock, (s.rmem b).envelope⟩,
          .matched ⟨s.instOf x, (s.smem x).envelope⟩ ⟨s.clock, (s.rmem b).envelope⟩]).setR b
            { s.rmem b with inst := s.clock, pc := .starting }).setChan (s.rmem b).dest
              { s.chan (s.rmem b).dest with sq := front ++ back, busy := some (b, x) })
      { g with
        want := update g.want b ((s.rmem b).want s.clock)
        send := update g.send x (.found b)
        recv := update g.recv b (.starting x) } := by
  obtain ⟨off, stat, len, apart⟩ := inv.startableR idle may
  have ok := inv.recvs.handle b
  have linked : x ∈ (s.chan (s.rmem b).dest).sq := by rw [split]; simp
  have here := (inv.chans _).sq x linked
  rw [cell] at here
  have queue : g.send x = .queue := here.2
  have post := inv.instOf_linked linked
  have origin : postOf s.smem g.job x = (g.job x).post := by simp [postOf, cell, SCell.origin]
  have handle : RHandleOk b { s.rmem b with inst := s.clock, pc := .starting } :=
    { ok with
      blocked := by simp [stat]
      waiting := by simp
      notReady := by simp }
  have sendOk : SendOk cfg x (s.smem x) (g.job x) (.found b) := by
    have old := inv.sends.ok x
    rw [cell, queue] at old
    rw [cell]
    exact ⟨old.1, old.2.1, by simp, fun _ => old.2.2.2 (by simp)⟩
  have paired : Paired (update s.trace (s.rmem b).dest (s.trace (s.rmem b).dest ++
      [.postRecv ⟨s.clock, (s.rmem b).envelope⟩,
        .matched ⟨s.instOf x, (s.smem x).envelope⟩ ⟨s.clock, (s.rmem b).envelope⟩]) b.owner)
      (g.job x).inst s.clock := by
    rw [← ok.owner, Function.update_self, post, origin]
    exact ⟨(g.job x).envelope, (s.rmem b).envelope, by simp [Job.post]⟩
  have posts := (inv.posts.later.rewant (b := b) (w := (s.rmem b).want s.clock) apart).move (a := x)
    (p := .found b) (by simp [queue]) rfl
  exact
    { sends := by
        rw [liveS_congr (s := s) (update_field Channel.spool (by rfl))]
        exact inv.sends.relocate sendOk fun _ => inv.live_of_active (by simp [queue])
      recvs := by
        rw [liveR_congr (s := s) (update_field Channel.rpool (by rfl))]
        exact (inv.recvs.grow (List.subset_append_left _ _) (trace_grows _ _ _)).update handle
          ⟨rfl, stat, ⟨rfl, rfl, rfl, len⟩, paired⟩ fun _ => live
      chans := by
        refine chans_update (fun c other => ?_) ((inv.chans _).take split cell free ok.owner.symm
          (by simp [off]) (by simp))
        have elsewhere : (g.job x).dest ≠ c := fun same => other (same.symm.trans here.1)
        have apart := (inv.chans c).notLinked cell fun _ => elsewhere
        exact ((inv.chans c).relocate apart (fun _ => elsewhere) fun _ => elsewhere).recvElsewhere
          (by simp [off]) (by simp)
      wires := inv.wires.move (by simp [queue, SPlace.away]) rfl
      pairs := inv.pairs.meet (by simp [queue, SPlace.engaged]) (by simp [off, RPlace.engaged]) rfl rfl
        trivial (ok.owner.symm.trans here.1.symm)
      posts := posts.recvPosted rfl rfl (Nat.lt_succ_self _) (inv.fresh_clock _).2
        (inv.matched_run posts split first wanted)
      logs := ((inv.logs.beginRecv (w := (s.rmem b).want s.clock) rfl).grow (trace_grows _ _ _)).move
        (by simp [queue])
      met := inv.met.grow (trace_grows _ _ _)
      pools := inv.pools.relink rfl rfl fun x member =>
        inv.pools.linked _ x (mem_of_mem_rest split member)
      stray := inv.stray }

/-- The handle of a remote send is given back. -/
theorem dropRms (inv : Inv cfg s g) {q : Addr} {rm rm' : RMSHandle} (cell : s.smem q = .remote rm)
    (apart : ∀ c, q ∉ (s.chan c).sq) (live : s.LiveS q) :
    Inv cfg ((s.setS q (.remote rm')).freeElemS q) g := by
  have off := inv.off_of_remote cell
  refine (inv.implant (.remote rm') off apart rfl live (by simp)).release ?_ apart live
  simp [SendUsed, off, Sys.setS]

/-- A receive answers the first queued send that suits it, which is a remote one. -/
theorem takeParked (inv : Inv cfg s g) (live : s.LiveR b) (idle : (s.rmem b).pc = .idle)
    (may : (s.rmem b).startable = true) {q : Addr} {front back : List Addr}
    (split : (s.chan (s.rmem b).dest).sq = front ++ q :: back)
    (first : ∀ y ∈ front, sqCmp (s.smem y) (s.rmem b).context (s.rmem b).tag (s.rmem b).src = false)
    (wanted : sqCmp (s.smem q) (s.rmem b).context (s.rmem b).tag (s.rmem b).src = true)
    {rm rm' : RMSHandle} (cell : s.smem q = .remote rm) {r' : RHandle} (p' : RPlace) (out : p' ≠ .queue) {frame : Frame}
    (mine : frame.send = rm.remoteSendHandle) (handle : RHandleOk b r')
    (place : RPlaceOk r' ((s.rmem b).want s.clock) g.job
      (s.log ++ [.recvStarted s.clock (s.rmem b).data])
      (s.trace (s.rmem b).dest ++ [.postRecv ⟨s.clock, (s.rmem b).envelope⟩,
        .matched (g.job rm.remoteSendHandle).post ⟨s.clock, (s.rmem b).envelope⟩]) p')
    (frameOk : FrameOk cfg rm.remoteSendHandle (g.job rm.remoteSendHandle)
      (cfg.home (s.rmem b).dest) (cfg.home rm.src) frame)
    (seen : (SPlace.wire (cfg.home (s.rmem b).dest) (cfg.home rm.src) frame).granted = false ∧
      (SPlace.wire (cfg.home (s.rmem b).dest) (cfg.home rm.src) frame).arriving = false)
    (pairs : PairSide g.job (update g.want b ((s.rmem b).want s.clock))
      (update g.send rm.remoteSendHandle (.wire (cfg.home (s.rmem b).dest) (cfg.home rm.src) frame))
      (update g.recv b p')) :
    ∃ g', Inv cfg (((((((s.tick.record (.recvStarted s.clock (s.rmem b).data)).post (s.rmem b).dest
        [.postRecv ⟨s.clock, (s.rmem b).envelope⟩,
          .matched ⟨s.instOf q, (s.smem q).envelope⟩ ⟨s.clock, (s.rmem b).envelope⟩]).setChan
            (s.rmem b).dest { s.chan (s.rmem b).dest with sq := front ++ back }).setR b r').netqSend cfg
              (s.rmem b).dest rm.src frame).setS q (.remote rm')).freeElemS q) g' := by
  obtain ⟨off, stat, len, apart⟩ := inv.startableR idle may
  have ok := inv.recvs.handle b
  have linked : q ∈ (s.chan (s.rmem b).dest).sq := by rw [split]; simp
  have here := (inv.chans _).sq q linked
  rw [cell] at here
  obtain ⟨dest, parked, rms, -, -⟩ := here
  have post := inv.instOf_linked linked
  have origin : postOf s.smem g.job q = (g.job rm.remoteSendHandle).post := by
    simp [postOf, cell, SCell.origin]
  have active : g.send rm.remoteSendHandle ≠ .off := by simp [parked]
  obtain ⟨h, cell'⟩ := inv.cell_of_active active
  have sendOk : SendOk cfg rm.remoteSendHandle (s.smem rm.remoteSendHandle)
      (g.job rm.remoteSendHandle)
      (.wire (cfg.home (s.rmem b).dest) (cfg.home rm.src) frame) := by
    have old := inv.sends.ok rm.remoteSendHandle
    rw [cell', parked] at old
    rw [cell']
    refine ⟨old.1, ⟨old.2.1.1, frameOk⟩, by simp, fun _ => ?_⟩
    have on := old.2.2.2 (by simp)
    refine ⟨on.1, ?_⟩
    rw [SPlace.admits, seen.1]
    exact on.2
  have apartQ : ∀ c, q ∉ ((update s.chan (s.rmem b).dest
      { s.chan (s.rmem b).dest with sq := front ++ back }) c).sq := by
    intro c member
    by_cases same : c = (s.rmem b).dest
    · subst same
      rw [Function.update_self] at member
      exact ((inv.chans _).others split q member).1 rfl
    · rw [Function.update_of_ne same] at member
      have there := (inv.chans c).sq q member
      rw [cell] at there
      exact same (there.1.symm.trans dest)
  have posts := (inv.posts.later.rewant (b := b) (w := (s.rmem b).want s.clock) apart).move
    (a := rm.remoteSendHandle) (p := .wire (cfg.home (s.rmem b).dest) (cfg.home rm.src) frame)
    (fun _ => active) seen.2
  refine ⟨{ g with
      want := update g.want b ((s.rmem b).want s.clock)
      send := update g.send rm.remoteSendHandle
        (.wire (cfg.home (s.rmem b).dest) (cfg.home rm.src) frame)
      recv := update g.recv b p' }, dropRms ?_ cell apartQ ?_⟩
  · exact
      { sends := by
          rw [liveS_congr (s := s) (update_field Channel.spool (by rfl))]
          exact inv.sends.relocate sendOk fun _ => inv.live_of_active active
        recvs := by
          rw [liveR_congr (s := s) (update_field Channel.rpool (by rfl))]
          refine (inv.recvs.grow (List.subset_append_left _ _) (trace_grows _ _ _)).update handle ?_
            fun _ => live
          rw [← ok.owner, Function.update_self, post, origin]
          exact place
        chans := by
          refine chans_update (fun c other => ?_) (((inv.chans _).unpark split cell
            (inv.off_of_remote cell) rfl).recvElsewhere (by simp [off]) fun place => absurd place out)
          have elsewhere : (g.job rm.remoteSendHandle).dest ≠ c :=
            fun same => other (same.symm.trans dest)
          have apart := (inv.chans c).notLinked cell' fun _ => elsewhere
          exact ((inv.chans c).relocate apart (fun _ => elsewhere) fun _ => elsewhere).recvElsewhere
            (by simp [off]) fun place => absurd place out
        wires := by
          rw [← mine]
          exact inv.wires.push _ _ _ (by rw [mine, parked]; rfl)
        pairs := pairs
        posts := posts.recvPosted rfl rfl (Nat.lt_succ_self _) (inv.fresh_clock _).2
          (inv.matched_run posts split first wanted)
        logs := ((inv.logs.beginRecv (w := (s.rmem b).want s.clock) rfl).grow (trace_grows _ _ _)).move
          fun _ => active
        met := inv.met.grow (trace_grows _ _ _)
        pools := inv.pools.relink rfl rfl fun x member =>
          inv.pools.linked _ x (mem_of_mem_rest split member)
        stray := inv.stray }
  · rw [liveS_congr (s := s) (update_field Channel.spool (by rfl))]
    exact inv.pools.linked _ q linked

theorem startRemote (inv : Inv cfg s g) (live : s.LiveR b) (idle : (s.rmem b).pc = .idle)
    (may : (s.rmem b).startable = true) {q : Addr} {front back : List Addr}
    (split : (s.chan (s.rmem b).dest).sq = front ++ q :: back)
    (first : ∀ y ∈ front, sqCmp (s.smem y) (s.rmem b).context (s.rmem b).tag (s.rmem b).src = false)
    (wanted : sqCmp (s.smem q) (s.rmem b).context (s.rmem b).tag (s.rmem b).src = true)
    {rm : RMSHandle} (cell : s.smem q = .remote rm) :
    ∃ g', Inv cfg (Intra.startRemote cfg (((s.tick.record (.recvStarted s.clock (s.rmem b).data)).post
        (s.rmem b).dest [.postRecv ⟨s.clock, (s.rmem b).envelope⟩,
          .matched ⟨s.instOf q, (s.smem q).envelope⟩ ⟨s.clock, (s.rmem b).envelope⟩]).setChan
            (s.rmem b).dest { s.chan (s.rmem b).dest with sq := front ++ back }) b true
              { s.rmem b with inst := s.clock } q rm (s.instOf q)) g' := by
  obtain ⟨off, stat, len, apart⟩ := inv.startableR idle may
  have ok := inv.recvs.handle b
  have linked : q ∈ (s.chan (s.rmem b).dest).sq := by rw [split]; simp
  have here := (inv.chans _).sq q linked
  rw [cell] at here
  obtain ⟨dest, parked, rms, -, data⟩ := here
  have active : g.send rm.remoteSendHandle ≠ .off := by simp [parked]
  have inst : s.instOf q = (g.job rm.remoteSendHandle).inst := by
    have post := congrArg Post.inst (inv.instOf_linked linked)
    simpa [postOf, cell, SCell.origin, Job.post] using post
  have src : rm.src = (g.job rm.remoteSendHandle).envelope.src := congrArg Envelope.src rms.envelope
  have tag : rm.tag = (g.job rm.remoteSendHandle).envelope.tag := congrArg Envelope.tag rms.envelope
  have lens : min rm.buflen (s.rmem b).buflen =
      min (g.job rm.remoteSendHandle).data.length (s.rmem b).data.length := by
    rw [rms.buflen, len]
  have back : Job.outward cfg (g.job rm.remoteSendHandle) (cfg.home rm.src)
      (cfg.home (s.rmem b).dest) := by
    constructor
    · rw [src]
    · rw [← dest]
      rfl
  have paired : Paired (s.trace (s.rmem b).dest ++ [.postRecv ⟨s.clock, (s.rmem b).envelope⟩,
      .matched (g.job rm.remoteSendHandle).post ⟨s.clock, (s.rmem b).envelope⟩])
      (g.job rm.remoteSendHandle).inst s.clock :=
    ⟨(g.job rm.remoteSendHandle).envelope, (s.rmem b).envelope, by simp [Job.post]⟩
  have alone : (g.send rm.remoteSendHandle).engaged = none := by simp [parked, SPlace.engaged]
  have alone' : (g.recv b).engaged = none := by simp [off, RPlace.engaged]
  unfold Intra.startRemote
  cases type : rm.handleType with
  | msgdat =>
      have enough : min rm.buflen (s.rmem b).buflen ≤ (rm.curdata.getD []).length := by
        rw [data type, rms.buflen]
        exact min_le_left _ _
      have room : min rm.buflen (s.rmem b).buflen ≤ (s.rmem b).data.length := by
        rw [len]
        exact min_le_right _ _
      refine inv.takeParked live idle may split first wanted cell .off (by simp) rfl ?_ ?_
        ⟨rfl, back⟩ ⟨rfl, rfl⟩ ?_
      · exact
          { ok with
            dataLen := (length_memcpy enough room).trans ok.dataLen
            fresh := by simp
            blocked := by simp
            waiting := by simp }
      · refine ⟨by simp [idle], .inr (.inr ⟨rfl, ?_⟩)⟩
        have sent := inv.logs.sendStarted rm.remoteSendHandle active
        rw [← src, ← tag] at sent
        simp only [RHandle.status, ok.errval, inst]
        exact delivered paired (List.mem_append_left _ sent) (by simp) lens
          (by rw [data type, lens]; rfl) lens
      · exact (inv.pairs.recvAlone alone' rfl).sendMove alone rfl
  | msg =>
      refine inv.takeParked live idle may split first wanted cell
        (.awaiting rm.remoteSendHandle) (by simp) rfl ?_ ?_ ⟨rfl, back⟩ ⟨rfl, rfl⟩ ?_
      · exact
          { ok with
            fresh := by simp
            blocked := by simp
            waiting := by simp [idle] }
      · refine ⟨by simp [idle], .inl rfl, rfl, inst, src, tag, rfl, lens, paired⟩
      · exact inv.pairs.meet alone alone' rfl rfl lens (ok.owner.symm.trans dest.symm)

theorem tmpiIntraStartRh (inv : Inv cfg s g) (live : s.LiveR b) (idle : (s.rmem b).pc = .idle)
    (call : Intra.tmpiIntraStartRh cfg s b true (s.rmem b) = some s') : ∃ g', Inv cfg s' g' := by
  unfold Intra.tmpiIntraStartRh at call
  split at call
  next =>
    cases call
    exact ⟨g, inv.record rfl⟩
  next =>
    split at call
    next =>
      cases call
      exact ⟨g, inv.record rfl⟩
    next may =>
      simp only [Bool.not_eq_true', Bool.not_eq_false] at may
      dsimp only at call
      split at call
      next => cases call
      next free =>
        have free : (s.chan (s.rmem b).dest).busy = none := by simpa using free
        split at call
        next missing =>
          cases call
          exact ⟨_, inv.postRecv live idle may (qFind_none missing)⟩
        next x sq found =>
          obtain ⟨front, back, split, rfl, wanted, first⟩ := qFind_some found
          split at call
          next h cell =>
            cases call
            exact ⟨_, inv.takeSend live idle may free split first wanted cell⟩
          next rm cell =>
            cases call
            exact inv.startRemote live idle may split first wanted cell

/-! ## The second half of a local match -/

theorem bytes_eq {j : Job} (agrees : Agrees h j) : h.bytes = j.data := by
  rcases agrees.bytes with ⟨cur, user, -⟩ | ⟨cur, sys⟩
  · simp [SHandle.bytes, cur, user]
  · simp [SHandle.bytes, cur, sys]

theorem completed (ok : HandleOk cfg a h) (past : h.stat ≠ .create) (buflen : Nat) (errval : Err) :
    HandleOk cfg a { h with stat := .matched, buflen, errval } :=
  { ok with
    noSpace := fun mode none len => absurd (ok.noSpace mode none len).1 past
    fresh := by simp [SHandle.startable]
    leaves := by simp
    refused := by simp
    blocked := by simp
    waiting := fun _ => .inl rfl
    readyWait := fun pc => ⟨(ok.readyWait pc).1, (ok.readyWait pc).2.1, by simp⟩ }

theorem meetLocal (inv : Inv cfg s g) (busy : (s.chan c).busy = some (b, a))
    (cell : s.smem a = .send h) {h' : SHandle}
    (ok' : HandleOk cfg a h') (settled : h'.stat.settled)
    (same : h'.stat = .matched → h'.dest = h.dest ∧ h'.inst = h.inst) :
    Inv cfg (((s.setR b { (s.rmem b).fill h.src h.tag (min h.buflen (s.rmem b).buflen) h.bytes h.inst with
        stat := .matched, pc := .idle }).setChan c { s.chan c with busy := none }).setS a (.send h'))
      { g with send := update g.send a .off, recv := update g.recv b .off } := by
  obtain ⟨found, dest, owner⟩ := (inv.chans c).busy b a busy
  have tied : (g.send a).engaged = some (b, false) := by simp [found, SPlace.engaged]
  have starting : g.recv b = .starting a := by
    have back := (inv.pairs.agree a b false).mp tied
    cases at_ : g.recv b <;> simp_all [RPlace.engaged]
  have active : g.send a ≠ .off := by simp [found]
  obtain ⟨-, -, -, on⟩ := inv.sendOk cell
  obtain ⟨agrees, -⟩ := on active
  have rok := inv.recvs.handle b
  have place := inv.recvs.ok b
  rw [starting] at place
  obtain ⟨-, -, ragrees, paired⟩ := place
  have lens : min h.buflen (s.rmem b).buflen =
      min (g.job a).data.length (g.want b).data.length := by
    rw [agrees.buflen, ragrees.buflen]
  have bytes := bytes_eq agrees
  have handle : RHandleOk b { (s.rmem b).fill h.src h.tag (min h.buflen (s.rmem b).buflen) h.bytes h.inst with
      stat := .matched, pc := .idle } := by
    have full := filled rok h.src h.tag (min h.buflen (s.rmem b).buflen) h.bytes h.inst (by rw [bytes, lens]; exact min_le_left _ _)
      (by rw [lens, ragrees.data]; exact min_le_right _ _)
    exact { full with blocked := by simp, waiting := by simp, notReady := by simp }
  have done : Delivered s.log (s.trace b.owner) (s.rmem b).inst h.inst
      ⟨min h.buflen (s.rmem b).buflen, h.src, h.tag, (s.rmem b).errval⟩
      (memcpy (s.rmem b).data h.bytes (min h.buflen (s.rmem b).buflen)) := by
    have sent := inv.logs.sendStarted a active
    rw [← agrees.envelope, ← agrees.inst] at sent
    have posted := inv.logs.recvStarted b (by simp [starting])
    rw [← ragrees.inst] at posted
    rw [rok.errval, ragrees.data]
    refine delivered ?_ sent posted lens (by rw [bytes, lens]) lens
    rw [agrees.inst, ragrees.inst]
    exact paired
  exact
    { sends := by
        rw [liveS_congr (s := s) (update_field Channel.spool (by rfl))]
        exact inv.sends.move ⟨ok', trivial, fun _ => settled, fun on => absurd rfl on⟩
          fun _ => inv.live_of_active active
      recvs := by
        rw [liveR_congr (s := s) (update_field Channel.rpool (by rfl))]
        exact inv.recvs.move handle ⟨by simp, .inr (.inr ⟨rfl, done⟩)⟩
          fun _ => inv.recvs.live b (.inl (by simp [starting]))
      chans := by
        refine chans_update (fun c' other => ?_) ((((inv.chans c).release busy).rewrite cell).recvElsewhere
          (by simp [starting]) nofun)
        have elsewhere : (g.job a).dest ≠ c' := fun same => other (same.symm.trans dest)
        have apart := (inv.chans c').notLinked cell fun _ => elsewhere
        exact ((inv.chans c').moveElsewhere apart (fun _ => elsewhere) fun _ => elsewhere).recvElsewhere
          (by simp [starting]) nofun
      wires := inv.wires.move (by simp [found, SPlace.away]) rfl
      pairs := inv.pairs.part tied rfl rfl
      posts := ((inv.posts.move (p := .off) (by simp) rfl).recell _
        fun c x _ => origin_of_cell cell x).rechan (update_field _ rfl) (update_field _ rfl)
      logs := (inv.logs.move (p := .off) (by simp)).moveRecv (by simp)
      met := by
        refine inv.met.put _ fun h'' here _ stat => ?_
        obtain rfl := SCell.send.inj here
        refine ⟨(g.want b).inst, ?_⟩
        rw [(same stat).1, (same stat).2, agrees.dest, agrees.inst, dest, ← owner]
        exact paired
      pools := inv.pools.relink rfl rfl fun x member => inv.pools.linked _ x member
      stray := inv.stray }

theorem finishStartRh (inv : Inv cfg s g) (call : Intra.finishStartRh s c = some s') :
    ∃ g', Inv cfg s' g' := by
  unfold Intra.finishStartRh at call
  split at call
  next => cases call
  next b a busy =>
    split at call
    next => cases call
    next h cell =>
      split at call
      next => cases call
      next =>
        obtain ⟨found, dest, owner⟩ := (inv.chans c).busy b a busy
        have active : g.send a ≠ .off := by simp [found]
        obtain ⟨ok, -, -, on⟩ := inv.sendOk cell
        obtain ⟨agrees, admits⟩ := on active
        have live := inv.live_of_active active
        simp only [found, SPlace.admits, SPlace.granted] at admits
        dsimp only at call
        split at call
        next stats =>
          cases call
          refine ⟨_, inv.meetLocal busy cell (completed ok ?_ _ _) (.inr (.inr (.inl rfl)))
            fun _ => ⟨rfl, rfl⟩⟩
          rcases stats with stat | stat <;> simp [stat]
        next pending =>
          split at call
          next stat =>
            cases call
            refine ⟨_, finishSh (Function.update_self ..) ?_ (by simp [stat])
              (fun h' ok' free => inv.meetLocal busy cell ok' (.inr (.inl free)) (by simp [free])) ?_⟩
            · exact { ok with
                noSpace := fun mode none len => absurd (ok.noSpace mode none len).1 (by simp [stat])
                fresh := by simp [SHandle.startable, stat] }
            · rwa [liveS_congr (s := s) (update_field Channel.spool (by rfl))]
          next other => grind

end Inv

end Tmpi.Intra
