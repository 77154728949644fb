import Tmpi.Intra.Matches

/-! The receiver threads: what a handler does to the request its message belongs to. -/

namespace Tmpi.Intra

open Function (update)

namespace Inv

variable {cfg : Config} {s s' : Sys} {g : Ghost} {a b q : Addr} {h : SHandle} {m m' : Nat}
  {frame : Frame} {handle : RMSHandle} {link : Nat → Nat → List Frame}

/-- A request that is away from the channels, with its handle. -/
theorem of_away (inv : Inv cfg s g) (away : (g.send a).away = true) :
    ∃ h, s.smem a = .send h ∧ HandleOk cfg a h ∧ PlaceOk cfg a (g.job a) (g.send a) ∧
      Agrees h (g.job a) ∧ (g.send a).admits (g.job a).mode h.stat ∧ s.LiveS a ∧
      a.owner = (g.job a).envelope.src := by
  have active : g.send a ≠ .off := by
    intro off
    simp [off, SPlace.away] at away
  obtain ⟨h, cell⟩ := inv.cell_of_active active
  obtain ⟨ok, place, -, on⟩ := inv.sendOk cell
  obtain ⟨agrees, admits⟩ := on active
  refine ⟨h, cell, ok, place, agrees, admits, inv.live_of_active active, ?_⟩
  rw [← ok.owner, ← agrees.envelope]

theorem checkS_eq (home : cfg.home a.owner = m) (live : s.LiveS a) : s.checkS cfg m a = s := by
  simp [Sys.checkS, home, live]

theorem checkR_eq (home : cfg.home b.owner = m) (live : s.LiveR b) : s.checkR cfg m b = s := by
  simp [Sys.checkR, home, live]

/-- A request that is away goes to another machine. -/
theorem far_of_away (inv : Inv cfg s g) (away : (g.send a).away = true) (cell : s.smem a = .send h) :
    h.isRemote = true := by
  obtain ⟨h', cell', ok, place, agrees, -⟩ := inv.of_away away
  obtain rfl := SCell.send.inj (cell.symm.trans cell')
  rw [ok.isRemote, agrees.dest, show h.src = (g.job a).envelope.src by rw [← agrees.envelope]]
  cases at_ : g.send a <;> rw [at_] at away place
  case wire => simpa using place.1
  case answering => simpa using place.1
  all_goals cases away

/-! ## Answers to a sender -/

/-- The last message of a request ends it. -/
theorem endSend (inv : Inv cfg s g) (away : (g.send a).away = true)
    (single : (g.send a).engaged = none)
    (wires : WireSide link s.answer (update g.send a .off)) (cell : s.smem a = .send h) {h' : SHandle}
    (ok : HandleOk cfg a h') (settled : h'.stat.settled)
    (far : h'.stat = .matched → h'.isRemote = true) :
    Inv cfg ({ s with link }.setS a (.send h')) { g with send := update g.send a .off } := by
  have live := inv.live_of_active (a := a) (by
    intro off
    simp [off, SPlace.away] at away)
  have out : (g.send a).linked = false := by
    cases place : g.send a <;> simp_all [SPlace.away, SPlace.linked]
  exact inv.moveSend _ cell ⟨ok, trivial, fun _ => settled, fun on => absurd rfl on⟩ live out rfl
    (by simp) rfl (inv.pairs.sendMove single rfl) wires far

theorem answerHandle (inv : Inv cfg s g) (away : (g.send a).away = true)
    (single : (g.send a).engaged = none)
    (wires : WireSide link s.answer (update g.send a .off)) (home : cfg.home a.owner = m)
    {buflen : Nat} {errval : Err} {pending blocked : Stat}
    (stats : (g.send a).granted = true ∧ pending = .pendData ∧ blocked = .pendDwat ∨
      (g.send a).granted = false ∧ pending = .pendStrt ∧ blocked = .pendWait)
    (call : Intra.answerHandle cfg { s with link } m a buflen errval pending blocked = some s') :
    ∃ g', Inv cfg s' g' := by
  obtain ⟨h, cell, ok, -, agrees, admits, live, -⟩ := inv.of_away away
  have admitted : h.stat = pending ∨ h.stat = blocked ∨ h.stat = .pendRels := by
    rcases stats with ⟨granted, rfl, rfl⟩ | ⟨granted, rfl, rfl⟩
    · simpa [SPlace.admits, granted] using admits
    · simp only [SPlace.admits, granted] at admits
      rcases admits with stat | ⟨-, stat⟩
      · exact .inl stat
      · exact .inr stat
  have past : h.stat ≠ .create := by
    rcases stats with ⟨-, rfl, rfl⟩ | ⟨-, rfl, rfl⟩ <;>
      rcases admitted with stat | stat | stat <;> simp [stat]
  have far := inv.far_of_away away cell
  unfold Intra.answerHandle at call
  rw [checkS_eq (s := { s with link }) home live] at call
  simp only [cell] at call
  split at call
  next => cases call
  next =>
    split at call
    next =>
      cases call
      exact ⟨_, inv.endSend away single wires cell (completed ok past buflen errval)
        (.inr (.inr (.inl rfl))) fun _ => far⟩
    next awaited =>
      have stat : h.stat = .pendRels := by
        rcases admitted with stat | stat | stat
        · exact absurd (.inl stat) awaited
        · exact absurd (.inr stat) awaited
        · exact stat
      rw [if_neg (by simp [stat])] at call
      cases call
      refine ⟨{ g with send := update g.send a .off }, finishSh (Function.update_self ..) ?_
        (by simp [stat]) (fun h' ok' free => inv.endSend away single wires cell ok' (.inr (.inl free))
          (by simp [free])) live⟩
      exact { ok with
        noSpace := fun mode none len => absurd (ok.noSpace mode none len).1 past
        fresh := by simp [SHandle.startable, stat] }

theorem tmpiRndyHandle (inv : Inv cfg s g) (away : (g.send a).away = true)
    (single : (g.send a).engaged = none) (ungranted : (g.send a).granted = false)
    (mode : (g.job a).mode = .ready)
    (wires : WireSide link s.answer (update g.send a .off)) (home : cfg.home a.owner = m)
    {errval : Err} (call : Intra.tmpiRndyHandle cfg { s with link } m a errval = some s') :
    ∃ g', Inv cfg s' g' := by
  obtain ⟨h, cell, ok, -, agrees, admits, live, -⟩ := inv.of_away away
  have stat : h.stat = .pendStrt := by simpa [SPlace.admits, ungranted, mode] using admits
  have far := inv.far_of_away away cell
  unfold Intra.tmpiRndyHandle at call
  rw [checkS_eq (s := { s with link }) home live] at call
  simp only [cell, stat] at call
  split at call
  next => cases call
  next =>
    cases call
    refine ⟨_, inv.endSend away single wires cell ?_ (.inr (.inr (.inr rfl))) (by simp)⟩
    exact
      { ok with
        noSpace := fun buffered none len => absurd (ok.noSpace buffered none len).1 (by simp [stat])
        fresh := by simp [SHandle.startable]
        leaves := by simp
        refused := fun _ => ⟨agrees.mode.trans mode, far⟩
        blocked := by simp
        waiting := fun pc => by simpa [stat] using ok.waiting pc
        readyWait := fun pc => ⟨(ok.readyWait pc).1, (ok.readyWait pc).2.1, by simp⟩ }

/-- A message goes out in the place of one that came in. -/
theorem resend (frame : Frame) (wires : WireSide link s.answer (update g.send frame.send .off))
    (m m' : Nat) :
    WireSide (fun i j => if i = m ∧ j = m' then link i j ++ [frame] else link i j) s.answer
      (update g.send frame.send (.wire m m' frame)) := by
  simpa using wires.push frame m m' (by simp [SPlace.away])

/-- The receiver thread keeps the request until it has answered. -/
theorem reask (wires : WireSide link s.answer (update g.send a .off)) (idle : s.answer m = none)
    {ans : Answer} (mine : ans.send = a) :
    WireSide link (update s.answer m (some ans)) (update g.send a (.answering m ans)) := by
  simpa using wires.ask (a := a) m ans (by simp [SPlace.away]) idle mine

theorem settle (wires : WireSide link s.answer (update g.send a .off)) {p : SPlace}
    (stays : p.away = false) :
    WireSide link s.answer (update g.send a p) := by
  simpa using wires.move (a := a) (p := p) (by simp [SPlace.away]) stays

/-- The sender is told that its message is wanted, and sends the data. -/
theorem tmpiRmrHandle (inv : Inv cfg s g) {buflen : Nat} {errval : Err}
    (here : g.send a = .wire m' m (.rmr a b buflen errval))
    (wires : WireSide link s.answer (update g.send a .off))
    (call : Intra.tmpiRmrHandle cfg { s with link } m true a b buflen = some s') :
    ∃ g', Inv cfg s' g' := by
  have away : (g.send a).away = true := by simp [here, SPlace.away]
  obtain ⟨h, cell, ok, place, agrees, admits, live, owner⟩ := inv.of_away away
  have remote := inv.far_of_away away cell
  rw [here] at place admits
  obtain ⟨far, -, back⟩ := place
  have home : cfg.home a.owner = m := by rw [owner, back.1]
  have tied : (g.send a).engaged = some (b, true) := by simp [here, SPlace.engaged]
  have carried := inv.pairs.carries a b true tied
  rw [here] at carried
  have len : min h.buflen buflen = shared (g.job a) (g.want b) := by
    rw [show buflen = shared (g.job a) (g.want b) from carried, agrees.buflen]
    exact Nat.min_eq_right (min_le_left _ _)
  set n := min h.buflen buflen with count
  set p := SPlace.wire (cfg.home h.src) (cfg.home h.dest) (.rds a b n .success (h.bytes.take n)) with reply
  have frameOk : PlaceOk cfg a (g.job a) p := by
    refine ⟨far, rfl, ?_, ?_⟩
    · rw [← agrees.envelope]
    · rw [agrees.dest]
  have pairs : PairSide g.job g.want (update g.send a p) g.recv := by
    refine inv.pairs.keep (by rw [tied]; rfl) fun b' k tied' => ?_
    obtain ⟨rfl, -⟩ := Prod.mk.inj (Option.some.inj tied')
    exact ⟨len, by rw [bytes_eq agrees, len]⟩
  -- the sender moves on, whether it is blocked, free to go or gone
  have moves : ∀ h', HandleOk cfg a h' → Agrees h' (g.job a) → p.admits (g.job a).mode h'.stat →
      Inv cfg (({ s with link }.netqSend cfg h.src h.dest
        (.rds a b n .success (h.bytes.take n))).setS a (.send h'))
        { g with send := update g.send a p } := fun h' ok' agrees' admits' =>
    inv.moveSend _ cell ⟨ok', frameOk, by simp [reply], fun _ => ⟨agrees', admits'⟩⟩ live
      (by simp [here, SPlace.linked]) rfl (by simp [here]) rfl pairs
      (resend (.rds a b n .success (h.bytes.take n)) wires _ _)
      fun stat => absurd stat (SPlace.unmatched admits')
  have past : ∀ stat, (stat = Stat.pendData ∨ stat = .pendDwat) → p.admits (g.job a).mode stat := by
    intro stat stats
    rcases stats with rfl | rfl <;> simp [SPlace.admits, reply, SPlace.granted]
  unfold Intra.tmpiRmrHandle at call
  rw [if_neg (by simp), checkS_eq (s := { s with link }) home live] at call
  simp only [cell] at call
  split at call
  next => cases call
  next =>
    split at call
    next stat =>
      cases call
      refine ⟨_, moves _ ?_ { agrees with bytes := agrees.bytes.imp_left fun bytes =>
        ⟨bytes.1, bytes.2.1, by simp⟩ } (past _ (.inl rfl))⟩
      exact
        { ok with
          noSpace := fun mode none len => absurd (ok.noSpace mode none len).1 (by simp [stat])
          fresh := by simp [SHandle.startable]
          leaves := by simp
          refused := by simp
          blocked := by simp
          waiting := fun pc => by simpa [stat] using ok.waiting pc
          readyWait := fun pc => ⟨(ok.readyWait pc).1, (ok.readyWait pc).2.1, by simp⟩ }
    next unblocked =>
      split at call
      next stat =>
        cases call
        refine ⟨_, moves _ ?_ { agrees with bytes := agrees.bytes.imp_left fun bytes =>
          ⟨bytes.1, bytes.2.1, by simp⟩ } (past _ (.inr rfl))⟩
        have pc := ok.blocked (.inl stat)
        exact
          { ok with
            noSpace := fun mode none len => absurd (ok.noSpace mode none len).1 (by simp [stat])
            fresh := by simp [SHandle.startable]
            leaves := by simp
            refused := by simp
            blocked := fun _ => pc
            waiting := fun _ => .inr (.inr ⟨remote, rfl⟩)
            readyWait := by simp [pc] }
      next unbuffered =>
        have stat : h.stat = .pendRels := by
          simpa [SPlace.admits, SPlace.granted, unblocked, unbuffered] using admits.resolve_left unblocked |>.2
        rw [if_neg (by simp [stat])] at call
        cases call
        refine ⟨{ g with send := update g.send a p }, ?_⟩
        have moved := moves h ok agrees (by simp [SPlace.admits, reply, SPlace.granted, stat])
        have same : update s.smem a (.send h) = s.smem := by
          rw [← cell]
          exact Function.update_eq_self _ _
        simpa only [Sys.setS, Sys.netqSend, same] using moved

/-! ## A send arrives -/

theorem arrivePost_eq (inv : Inv cfg s g) (active : g.send a ≠ .off)
    (rms : RmsOk a (g.job a) handle) : arrivePost { s with link } handle = (g.job a).post := by
  obtain ⟨h, cell⟩ := inv.cell_of_active active
  obtain ⟨-, -, -, on⟩ := inv.sendOk cell
  have inst := (on active).1.inst
  simp only [arrivePost, rms.handle, cell, Job.post, ← rms.envelope, inst]

/-- An arriving send has not been posted, and no other one has its number. -/
theorem arriving_fresh (inv : Inv cfg s g) (arriving : (g.send a).arriving = true) {p : SPlace}
    (seen : p.arriving = false) :
    (∀ old ∈ Matching.sendsOf (s.trace (g.job a).dest), old.inst ≠ (g.job a).post.inst) ∧
      (g.job a).post.inst < s.clock ∧
      ∀ a', (update g.send a p a').arriving = true → (g.job a).post.inst ≠ (g.job a').inst := by
  have active : ∀ a', (g.send a').arriving = true → g.send a' ≠ .off := fun a' arriving =>
    (SPlace.of_arriving arriving).1
  refine ⟨inv.posts.unposted a arriving,
    inv.posts.jobsOld a (active a arriving), fun a' arriving' same => ?_⟩
  by_cases other : a' = a
  · simp [other, seen] at arriving'
  · rw [Function.update_of_ne other] at arriving'
    exact other (inv.posts.jobsDiffer a a' (active a arriving) (active a' arriving') same).symm

/-- An arriving send takes the first posted receive that wants it. -/
theorem arriveMatch (inv : Inv cfg s g) (p' : RPlace) (arriving : (g.send a).arriving = true)
    (rms : RmsOk a (g.job a) handle) (wires : WireSide link s.answer (update g.send a .off))
    {front back : List Addr} (split : (s.chan handle.dest).rq = front ++ b :: back)
    (first : ∀ b' ∈ front, rqCmp (s.rmem b') handle.context handle.tag handle.src = false)
    (wanted : rqCmp (s.rmem b) handle.context handle.tag handle.src = true)
    {r' : RHandle} {ans : Answer} (idle : s.answer m = none) (mine : ans.send = a)
    (taken : p' ≠ .queue) (handleOk : RHandleOk b r')
    (place : RPlaceOk r' (g.want b) g.job s.log (s.trace handle.dest ++
      [.postSend (g.job a).post, .matched (g.job a).post (g.want b).post]) p')
    (placeOk : PlaceOk cfg a (g.job a) (.answering m ans))
    (seen : (SPlace.answering m ans).granted = false)
    (pairs : PairSide g.job g.want (update g.send a (.answering m ans)) (update g.recv b p')) :
    Inv cfg (((({ s with link }.setChan handle.dest
        { s.chan handle.dest with rq := front ++ back }).post handle.dest
          [.postSend (g.job a).post, .matched (g.job a).post (g.want b).post]).setR b r').setAnswer m
            (some ans))
      { g with send := update g.send a (.answering m ans), recv := update g.recv b p' } := by
  obtain ⟨active, out, ungranted, -, -⟩ := SPlace.of_arriving arriving
  obtain ⟨h, cell⟩ := inv.cell_of_active active
  obtain ⟨ok, -, -, on⟩ := inv.sendOk cell
  obtain ⟨agrees, admits⟩ := on active
  have linked : b ∈ (s.chan handle.dest).rq := by rw [split]; simp
  obtain ⟨queue, owner⟩ := (inv.chans handle.dest).rq b linked
  obtain ⟨fresh, old, differ⟩ := inv.arriving_fresh arriving (p := .answering m ans) rfl
  have apart : ∀ c, a ∉ (s.chan c).sq := inv.unlinked cell (by
    intro place
    simp [place, SPlace.linked] at out)
  have sendOk : SendOk cfg a (s.smem a) (g.job a) (.answering m ans) := by
    rw [cell]
    refine ⟨ok, placeOk, by simp, fun _ => ⟨agrees, ?_⟩⟩
    rw [SPlace.admits, seen]
    rwa [SPlace.admits, ungranted] at admits
  have posts := inv.posts.move (a := a) (p := .answering m ans) (fun _ => active) rfl
  have moved := fun c => (inv.chans c).relocate (p := .answering m ans) (apart c) (by simp [out])
    (by simp [SPlace.linked])
  exact
    { sends := by
        rw [liveS_congr (s := s) (update_field Channel.spool (by rfl))]
        exact inv.sends.relocate sendOk fun _ => inv.live_of_active active
      recvs := by
        rw [liveR_congr (s := s) (update_field Channel.rpool (by rfl))]
        refine (inv.recvs.grow (List.Subset.refl _) (trace_grows _ _ _)).move handleOk ?_
          fun _ => inv.recvs.live b (.inl (by simp [queue]))
        rw [owner, Function.update_self]
        exact place
      chans := chans_update (fun c other => (moved c).recvElsewhere (fun _ => owner ▸ other.symm)
          fun place => absurd place taken)
        ((moved handle.dest).takeRecv split taken)
      wires := reask wires idle mine
      pairs := pairs
      posts := by
        rw [← rms.dest] at fresh
        refine posts.sendPosted rfl rfl old fresh differ ?_
        have before := posts.run handle.dest
        rw [split, List.map_append, List.map_cons] at before
        rw [List.map_append]
        refine before.sendMatches (fun member => fresh _ member rfl) ?_ ?_
        · intro w member
          obtain ⟨b', early, rfl⟩ := List.mem_map.mp member
          rw [← inv.rqCmp_linked (c := handle.dest) (by rw [split]; simp [early]), Job.post,
            ← rms.envelope]
          exact first b' early
        · rw [← inv.rqCmp_linked linked, Job.post, ← rms.envelope]
          exact wanted
      logs := ((inv.logs.grow (trace_grows _ _ _)).move fun _ => active).moveRecv (by simp [queue])
      met := inv.met.grow (trace_grows _ _ _)
      pools := inv.pools.relink rfl rfl fun x member => inv.pools.linked _ x member
      stray := inv.stray }

/-- An arriving send that no posted receive wants is linked behind the others. -/
theorem arrivePark (inv : Inv cfg s g) (rm : RMSHandle) (arriving : (g.send a).arriving = true)
    (placed : PlaceOk cfg a (g.job a) (g.send a)) (patient : (g.job a).mode ≠ .ready)
    (wires : WireSide link s.answer (update g.send a .off))
    (rms : RmsOk a (g.job a) rm) (stat : rm.stat = .pendStrt)
    (data : rm.handleType = .msgdat → rm.curdata = some (g.job a).data)
    (missing : ∀ b ∈ (s.chan rm.dest).rq, rqCmp (s.rmem b) rm.context rm.tag rm.src = false)
    (off : g.send q = .off) (apartQ : ∀ c, q ∉ (s.chan c).sq) (live : s.LiveS q)
    (owner : q.owner = rm.dest) :
    Inv cfg ((({ s with link }.setChan rm.dest
        { s.chan rm.dest with sq := (s.chan rm.dest).sq ++ [q] }).setS q (.remote rm)).post rm.dest
          [.postSend (g.job a).post])
      { g with send := update g.send a (.parked q) } := by
  obtain ⟨active, out, ungranted, single, -⟩ := SPlace.of_arriving arriving
  have other : a ≠ q := by
    intro same
    exact active (same ▸ off)
  have far : cfg.home (g.job a).dest ≠ cfg.home (g.job a).envelope.src := by
    cases at_ : g.send a <;> rw [at_] at arriving placed <;> try cases arriving
    exact placed.1
  obtain ⟨h, cell⟩ := inv.cell_of_active active
  obtain ⟨ok, -, -, on⟩ := inv.sendOk cell
  obtain ⟨agrees, admits⟩ := on active
  obtain ⟨fresh, old, differ⟩ := inv.arriving_fresh arriving (p := .parked q) rfl
  have apart : ∀ c, a ∉ (s.chan c).sq := inv.unlinked cell (by
    intro place
    simp [place, SPlace.linked] at out)
  have sendOk : SendOk cfg a (s.smem a) (g.job a) (.parked q) := by
    rw [cell]
    refine ⟨ok, ⟨far, patient, by rw [owner, rms.dest]⟩, by simp, fun _ => ⟨agrees, ?_⟩⟩
    rw [SPlace.admits, show (SPlace.parked q).granted = false from rfl]
    rwa [SPlace.admits, ungranted] at admits
  have linked : Linked rm.dest q (.remote rm) g.job (update g.send a (.parked q)) := by
    have origin := rms.handle
    refine ⟨?_, ?_, ?_, stat, ?_⟩
    · rw [SCell.origin, origin, rms.dest]
    · rw [origin, Function.update_self]
    · rwa [origin]
    · rwa [origin]
  have posts := (inv.posts.move (a := a) (p := .parked q) (fun _ => active) rfl).recell
    (update s.smem q (.remote rm)) fun c x member => by
      have other : x ≠ q := fun same => apartQ c (same ▸ member)
      rw [Function.update_of_ne other]
  have sends : SendSide cfg s.LiveS (update s.smem q (.remote rm)) g.job
      (update g.send a (.parked q)) :=
    (inv.sends.relocate sendOk fun _ => inv.live_of_active active).rewrite
      (by rw [Function.update_of_ne other.symm]; exact off) fun _ => live
  have elsewhere : ∀ c, c ≠ rm.dest → ChanOk c (s.chan c) (update s.smem q (.remote rm)) g.job
      (update g.send a (.parked q)) g.recv := by
    intro c other'
    have moved := (inv.chans c).relocate (p := .parked q) (apart c) (by simp [out])
      (fun _ same => other' (by rw [rms.dest, same]))
    have same : update (update g.send a (.parked q)) q .off = update g.send a (.parked q) := by
      rw [Function.update_eq_self_iff, Function.update_of_ne other.symm, off]
    have put : ChanOk c (s.chan c) (update s.smem q (.remote rm)) g.job
        (update (update g.send a (.parked q)) q .off) g.recv := moved.moveElsewhere (apartQ c)
      (by rw [Function.update_of_ne other.symm, off]; simp [SPlace.linked]) (by simp [SPlace.linked])
    rwa [same] at put
  exact
    { sends := by
        rw [liveS_congr (s := s) (update_field Channel.spool (by rfl))]
        exact sends
      recvs := by
        rw [liveR_congr (s := s) (update_field Channel.rpool (by rfl))]
        exact inv.recvs.grow (List.Subset.refl _) (trace_grows _ _ _)
      chans := chans_update elsewhere ((inv.chans rm.dest).park out (apartQ _) linked)
      wires := settle wires rfl
      pairs := inv.pairs.sendMove single rfl
      posts := by
        rw [← rms.dest] at fresh
        refine posts.sendPosted rfl rfl old fresh differ ?_
        have new : (g.job a).post ∉ Matching.sendsOf (s.trace rm.dest) :=
          fun member => fresh _ member rfl
        have run := (posts.run rm.dest).sendWaits new ?_
        · simpa [postOf, SCell.origin, rms.handle] using run
        · intro w member
          obtain ⟨b, linked, rfl⟩ := List.mem_map.mp member
          rw [← inv.rqCmp_linked linked, Job.post, ← rms.envelope]
          exact missing b linked
      logs := (inv.logs.grow (trace_grows _ _ _)).move fun _ => active
      met := (inv.met.put (.remote rm) (by simp)).grow (trace_grows _ _ _)
      pools := inv.pools.relink rfl rfl fun x member => by
        rcases List.mem_append.mp member with old | new
        · exact inv.pools.linked _ x old
        · obtain rfl := List.mem_singleton.mp new
          exact live
      stray := inv.stray }

theorem enqueueRms (inv : Inv cfg s g) (rm : RMSHandle) (arriving : (g.send a).arriving = true)
    (placed : PlaceOk cfg a (g.job a) (g.send a)) (patient : (g.job a).mode ≠ .ready)
    (wires : WireSide link s.answer (update g.send a .off)) (rms : RmsOk a (g.job a) rm)
    (data : rm.handleType = .msgdat → rm.curdata = some (g.job a).data)
    (missing : ∀ b ∈ (s.chan rm.dest).rq, rqCmp (s.rmem b) rm.context rm.tag rm.src = false) :
    ∃ g', Inv cfg ((Intra.enqueueRms cfg { s with link } rm).post rm.dest
      [.postSend (g.job a).post]) g' := by
  cases call : qNewElem cfg.group (s.chan rm.dest).spool with
  | mk idx spool =>
      obtain ⟨carved, live, off, apart⟩ := inv.allocS rm.dest _ call
      have parked := carved.arrivePark { rm with stat := .pendStrt } arriving placed patient
        wires ⟨rms.envelope, rms.dest, rms.buflen, rms.mode, rms.handle⟩ rfl data
        (by simpa [Sys.setChan] using missing) off apart live rfl
      refine ⟨{ g with send := update g.send a (.parked ⟨rm.dest, idx⟩) }, ?_⟩
      simpa [Intra.enqueueRms, call, Sys.setChan, Sys.setS, Sys.post] using parked

/-- A ready send that no posted receive wants is refused. -/
theorem arriveRefuse (inv : Inv cfg s g) (arriving : (g.send a).arriving = true)
    (far : cfg.home (g.job a).dest ≠ cfg.home (g.job a).envelope.src)
    (home : m = cfg.home (g.job a).dest) (mode : (g.job a).mode = .ready)
    (rms : RmsOk a (g.job a) handle) (wires : WireSide link s.answer (update g.send a .off))
    (idle : s.answer m = none) :
    Inv cfg ({ s with link }.setAnswer m (some (.nrdy handle)))
      { g with send := update g.send a (.answering m (.nrdy handle)) } := by
  obtain ⟨active, out, ungranted, single, -⟩ := SPlace.of_arriving arriving
  obtain ⟨h, cell⟩ := inv.cell_of_active active
  obtain ⟨ok, -, -, on⟩ := inv.sendOk cell
  obtain ⟨agrees, admits⟩ := on active
  have moved := inv.moveSend h (p := .answering m (.nrdy handle)) cell
    ⟨ok, ⟨far, home, rms, mode⟩, by simp, fun _ => ⟨agrees, by
      rw [SPlace.admits, ungranted] at admits
      exact admits⟩⟩ (inv.live_of_active active) out rfl (fun _ => active) rfl
    (inv.pairs.sendMove single rfl) (reask wires idle rms.handle)
    fun stat => absurd stat (SPlace.unmatched admits)
  have same : update s.smem a (.send h) = s.smem := by
    rw [← cell]
    exact Function.update_eq_self _ _
  simpa only [Sys.setAnswer, same] using moved

/-- What a posted receive is when a message for it arrives. -/
theorem posted (inv : Inv cfg s g) {c : Int} (linked : b ∈ (s.chan c).rq) :
    g.recv b = .queue ∧ b.owner = c ∧ (s.rmem b).pc ≠ .starting ∧
      ((s.rmem b).stat = .pendStrt ∨ (s.rmem b).stat = .pendWait) ∧
      RAgrees (s.rmem b) (g.want b) ∧
      (⟨(s.rmem b).inst, (s.rmem b).envelope⟩ : Post) = (g.want b).post := by
  obtain ⟨queue, owner⟩ := (inv.chans c).rq b linked
  have place := inv.recvs.ok b
  rw [queue] at place
  obtain ⟨awake, stats, agrees⟩ := place
  refine ⟨queue, owner, awake, stats, agrees, ?_⟩
  rw [agrees.inst, agrees.envelope]
  rfl

theorem tmpiRmsHandle (inv : Inv cfg s g) (here : g.send a = .wire m' m (.rms handle))
    (wires : WireSide link s.answer (update g.send a .off)) (idle : s.answer m = none)
    (call : Intra.tmpiRmsHandle cfg { s with link } m true handle = some s') :
    ∃ g', Inv cfg s' g' := by
  have arriving : (g.send a).arriving = true := by simp [here, SPlace.arriving]
  obtain ⟨active, -, -, single, away⟩ := SPlace.of_arriving arriving
  obtain ⟨h, cell, ok, placed, agrees, admits, live, owner⟩ := inv.of_away away
  have placed' := placed
  rw [here] at placed
  obtain ⟨far, rms, type, -, home⟩ := placed
  have src : handle.src = (g.job a).envelope.src := congrArg Envelope.src rms.envelope
  have tag : handle.tag = (g.job a).envelope.tag := congrArg Envelope.tag rms.envelope
  unfold Intra.tmpiRmsHandle at call
  dsimp only at call
  rw [if_neg (by rw [rms.dest, home]; simp), if_neg (by simp), inv.arrivePost_eq active rms] at call
  split at call
  next => cases call
  next =>
    split at call
    next b rq found =>
      obtain ⟨front, back, split, rfl, wanted, first⟩ := qFind_some found
      have linked : b ∈ (s.chan handle.dest).rq := by rw [split]; simp
      obtain ⟨queue, bowner, awake, stats, ragrees, post⟩ := inv.posted linked
      have rok := inv.recvs.handle b
      have len : min (s.rmem b).buflen handle.buflen = shared (g.job a) (g.want b) := by
        rw [ragrees.buflen, rms.buflen, Nat.min_comm, shared]
      have awaits : ∀ stat pc, Awaits { s.rmem b with
          tag := handle.tag, src := handle.src, buflen := min (s.rmem b).buflen handle.buflen
          peer := (g.job a).post.inst, stat, pc } (g.want b) (g.job a) (s.trace handle.dest ++
            [.postSend (g.job a).post, .matched (g.job a).post (g.want b).post]) := fun stat pc =>
        ⟨ragrees.inst, rfl, src, tag, ragrees.data, len,
          ⟨(g.job a).envelope, (g.want b).envelope, by simp [Job.post, Want.post]⟩⟩
      have pairs : PairSide g.job g.want (update g.send a (.answering m (.rmr handle b)))
          (update g.recv b (.awaiting a)) :=
        inv.pairs.engage single (by simp [queue, RPlace.engaged]) rfl rfl trivial
          (bowner.trans rms.dest)
      rw [post] at call
      rcases stats with stat | stat
      · rw [if_pos stat] at call
        cases call
        refine ⟨_, inv.arriveMatch (.awaiting a) arriving rms wires split first wanted idle
          rms.handle (by simp) ?_
          ⟨awake, .inl rfl, awaits _ _⟩ ⟨far, home, rms⟩ rfl pairs⟩
        exact
          { rok with
            fresh := by simp
            blocked := by simp
            waiting := fun pc => by simpa [stat] using rok.waiting pc }
      · rw [if_neg (by simp [stat]), if_pos stat] at call
        cases call
        refine ⟨_, inv.arriveMatch (.awaiting a) arriving rms wires split first wanted idle
          rms.handle (by simp) ?_
          ⟨awake, .inr rfl, awaits _ _⟩ ⟨far, home, rms⟩ rfl pairs⟩
        exact
          { rok with
            fresh := by simp
            blocked := fun _ => rok.blocked (.inl stat)
            waiting := by simp }
    next missing =>
      split at call
      next patient =>
        cases call
        refine inv.enqueueRms { handle with curdata := none } arriving placed'
          (by rwa [← rms.mode]) wires ⟨rms.envelope, rms.dest, rms.buflen, rms.mode, rms.handle⟩
          (by simp [type]) (qFind_none missing)
      next ready =>
        cases call
        exact ⟨_, inv.arriveRefuse arriving far home (by rw [← rms.mode]; simpa using ready) rms wires
          idle⟩

theorem tmpiRmdsHandle (inv : Inv cfg s g) {payload : Buffer}
    (here : g.send a = .wire m' m (.rmds handle payload))
    (wires : WireSide link s.answer (update g.send a .off)) (idle : s.answer m = none)
    {from_ : Nat} {room : Bool}
    (call : Intra.tmpiRmdsHandle cfg { s with link } from_ m true handle payload room = some s') :
    ∃ g', Inv cfg s' g' := by
  have arriving : (g.send a).arriving = true := by simp [here, SPlace.arriving]
  obtain ⟨active, -, -, single, away⟩ := SPlace.of_arriving arriving
  obtain ⟨h, cell, ok, placed, agrees, admits, live, owner⟩ := inv.of_away away
  have placed' := placed
  rw [here] at placed
  obtain ⟨far, rms, data, -, home⟩ := placed
  have src : handle.src = (g.job a).envelope.src := congrArg Envelope.src rms.envelope
  have tag : handle.tag = (g.job a).envelope.tag := congrArg Envelope.tag rms.envelope
  unfold Intra.tmpiRmdsHandle at call
  dsimp only at call
  rw [if_neg (by rw [rms.dest, home]; simp), if_neg (by simp), inv.arrivePost_eq active rms] at call
  split at call
  next => cases call
  next =>
    split at call
    next b rq found =>
      obtain ⟨front, back, split, rfl, wanted, first⟩ := qFind_some found
      have linked : b ∈ (s.chan handle.dest).rq := by rw [split]; simp
      obtain ⟨queue, bowner, awake, stats, ragrees, post⟩ := inv.posted linked
      have rok := inv.recvs.handle b
      have lens : min (s.rmem b).buflen handle.buflen =
          min (g.job a).data.length (g.want b).data.length := by
        rw [ragrees.buflen, rms.buflen, Nat.min_comm]
      have full := filled rok handle.src handle.tag (min (s.rmem b).buflen handle.buflen) payload
        (g.job a).post.inst
        (by rw [data, rms.buflen]; exact min_le_right _ _)
        (by rw [ragrees.buflen, ragrees.data]; exact min_le_left _ _)
      have done : Delivered s.log (s.trace handle.dest ++
          [.postSend (g.job a).post, .matched (g.job a).post (g.want b).post]) (s.rmem b).inst
          (g.job a).post.inst ⟨min (s.rmem b).buflen handle.buflen, handle.src, handle.tag,
            (s.rmem b).errval⟩
          (memcpy (s.rmem b).data payload (min (s.rmem b).buflen handle.buflen)) := by
        have sent := inv.logs.sendStarted a active
        rw [← src, ← tag] at sent
        have wanted := inv.logs.recvStarted b (by simp [queue])
        rw [rok.errval, ragrees.data, ragrees.inst]
        exact delivered ⟨(g.job a).envelope, (g.want b).envelope, by simp [Job.post, Want.post]⟩
          sent wanted lens (by rw [data, lens]) lens
      have pairs : PairSide g.job g.want (update g.send a (.answering m (.rmdr handle b)))
          (update g.recv b .off) :=
        (inv.pairs.sendMove single rfl).recvMove (by simp [queue, RPlace.engaged]) rfl
      rw [post] at call
      rw [if_pos stats] at call
      cases call
      exact ⟨_, inv.arriveMatch .off arriving rms wires split first wanted idle rms.handle (by simp)
        full ⟨awake, .inr (.inr ⟨rfl, done⟩)⟩ ⟨far, home, rms⟩ rfl pairs⟩
    next missing =>
      split at call
      next patient =>
        cases call
        have patient' : (g.job a).mode ≠ .ready := by rwa [← rms.mode]
        cases room with
        | true =>
            refine inv.enqueueRms { handle with curdata := some (payload.take handle.buflen) }
              arriving placed' patient' wires
              ⟨rms.envelope, rms.dest, rms.buflen, rms.mode, rms.handle⟩ (fun _ => ?_)
              (qFind_none missing)
            simp [data, rms.buflen]
        | false =>
            exact inv.enqueueRms { handle with handleType := .msg, curdata := none }
              arriving placed' patient' wires
              ⟨rms.envelope, rms.dest, rms.buflen, rms.mode, rms.handle⟩ (by simp)
              (qFind_none missing)
      next ready =>
        cases call
        exact ⟨_, inv.arriveRefuse arriving far home (by rw [← rms.mode]; simpa using ready) rms wires
          idle⟩

/-! ## The data arrives -/

theorem tmpiRdsHandle (inv : Inv cfg s g) {buflen : Nat} {errval : Err} {payload : Buffer}
    (here : g.send a = .wire m' m (.rds a b buflen errval payload))
    (wires : WireSide link s.answer (update g.send a .off)) (idle : s.answer m = none)
    (from_ : Nat) :
    ∃ g', Inv cfg (Intra.tmpiRdsHandle cfg { s with link } from_ m true a b buflen payload) g' := by
  obtain ⟨h, cell, ok, placed, agrees, admits, live, owner⟩ :=
    inv.of_away (a := a) (by simp [here, SPlace.away])
  rw [here] at placed admits
  obtain ⟨far, -, -, home⟩ := placed
  have active : g.send a ≠ .off := by simp [here]
  have tied : (g.send a).engaged = some (b, true) := by simp [here, SPlace.engaged]
  have awaiting : g.recv b = .awaiting a := by
    have back := (inv.pairs.agree a b true).mp tied
    cases at_ : g.recv b <;> simp_all [RPlace.engaged]
  have carried := inv.pairs.carries a b true tied
  rw [here] at carried
  obtain ⟨len, bytes⟩ : buflen = shared (g.job a) (g.want b) ∧
    payload = (g.job a).data.take (shared (g.job a) (g.want b)) := carried
  have rok := inv.recvs.handle b
  have place := inv.recvs.ok b
  rw [awaiting] at place
  obtain ⟨awake, stats, awaits⟩ := place
  have liveR := inv.recvs.live b (.inl (by simp [awaiting]))
  have dest : b.owner = (g.job a).dest := inv.pairs.owner a b true tied
  have count : min (s.rmem b).buflen buflen = shared (g.job a) (g.want b) := by
    rw [awaits.buflen, len, Nat.min_self]
  have room : shared (g.job a) (g.want b) ≤ payload.length := by
    rw [bytes, List.length_take]
    exact le_min le_rfl (min_le_left _ _)
  have fits : shared (g.job a) (g.want b) ≤ (s.rmem b).data.length := by
    rw [awaits.data]
    exact min_le_right _ _
  have done : Delivered s.log (s.trace b.owner) (s.rmem b).inst (s.rmem b).peer
      ⟨min (s.rmem b).buflen buflen, (s.rmem b).src, (s.rmem b).tag, (s.rmem b).errval⟩
      (memcpy (s.rmem b).data payload (min (s.rmem b).buflen buflen)) := by
    have sent := inv.logs.sendStarted a active
    have posted := inv.logs.recvStarted b (by simp [awaiting])
    rw [rok.errval, awaits.data, awaits.inst, awaits.peer, awaits.src, awaits.tag]
    refine delivered awaits.paired sent posted count ?_ count
    rw [count, bytes, List.take_take, Nat.min_self]
    rfl
  have handle : RHandleOk b { s.rmem b with
      buflen := min (s.rmem b).buflen buflen
      data := memcpy (s.rmem b).data payload (min (s.rmem b).buflen buflen), stat := .matched } := by
    rw [count]
    exact
      { rok with
        dataLen := (length_memcpy room fits).trans rok.dataLen
        fresh := by simp
        blocked := by simp
        waiting := by simp }
  set ans := Answer.rdr a b (s.rmem b).src (s.rmem b).dest false with answer
  have sendOk : SendOk cfg a (s.smem a) (g.job a) (.answering m ans) := by
    rw [cell]
    refine ⟨ok, ⟨far, home, rfl, awaits.src, rok.owner.trans dest⟩, by simp, fun _ => ⟨agrees, ?_⟩⟩
    exact admits
  have apart : ∀ c, a ∉ (s.chan c).sq := inv.unlinked cell (by simp [here])
  refine ⟨{ g with send := update g.send a (.answering m ans), recv := update g.recv b .off }, ?_⟩
  unfold Intra.tmpiRdsHandle
  rw [if_neg (by simp), checkR_eq (s := { s with link }) (by rw [dest, home]) liveR]
  dsimp only
  rw [if_pos stats]
  exact
    { sends := inv.sends.relocate sendOk fun _ => live
      recvs := inv.recvs.move handle ⟨awake, .inr (.inr ⟨rfl, done⟩)⟩ fun _ => liveR
      chans := fun c => ((inv.chans c).relocate (apart c) (by simp [here, SPlace.linked])
        (by simp [SPlace.linked])).recvElsewhere (by simp [awaiting]) (by simp)
      wires := reask wires idle rfl
      pairs := inv.pairs.part tied rfl rfl
      posts := inv.posts.move (fun _ => active) rfl
      logs := (inv.logs.move fun _ => active).moveRecv (by simp)
      met := inv.met
      pools := inv.pools
      stray := inv.stray }

/-! ## The answer goes out -/

theorem respondWith (inv : Inv cfg s g) {ans : Answer} (here : g.send a = .answering m ans)
    (mine : frame.send = a) {dest src : Int}
    (placeOk : PlaceOk cfg a (g.job a) (.wire (cfg.home dest) (cfg.home src) frame))
    (granted : (SPlace.wire (cfg.home dest) (cfg.home src) frame).granted = (g.send a).granted)
    (seen : (SPlace.wire (cfg.home dest) (cfg.home src) frame).arriving = false)
    (kept : (SPlace.wire (cfg.home dest) (cfg.home src) frame).engaged = (g.send a).engaged)
    (carries : ∀ b k, (g.send a).engaged = some (b, k) →
      (SPlace.wire (cfg.home dest) (cfg.home src) frame).carries (g.job a).data
        (shared (g.job a) (g.want b))) :
    ∃ g', Inv cfg ((s.setAnswer m none).netqSend cfg dest src frame) g' := by
  have active : g.send a ≠ .off := by simp [here]
  obtain ⟨h, cell⟩ := inv.cell_of_active active
  obtain ⟨ok, -, -, on⟩ := inv.sendOk cell
  obtain ⟨agrees, admits⟩ := on active
  have wires : WireSide (fun i j => if i = cfg.home dest ∧ j = cfg.home src then s.link i j ++ [frame]
      else s.link i j) (update s.answer m none)
      (update g.send a (.wire (cfg.home dest) (cfg.home src) frame)) := by
    have replied := (inv.wires.reply (p := .off) here rfl).push frame (cfg.home dest)
      (cfg.home src) (by simp [mine, SPlace.away])
    simpa [mine] using replied
  have moved := inv.moveSend h cell
    ⟨ok, placeOk, by simp, fun _ => ⟨agrees, by rwa [SPlace.admits, granted]⟩⟩
    (inv.live_of_active active) (by simp [here, SPlace.linked]) rfl (fun _ => active) seen
    (inv.pairs.keep kept fun b k tied => carries b k (kept ▸ tied)) wires
    fun stat => absurd stat (SPlace.unmatched admits)
  have same : update s.smem a (.send h) = s.smem := by
    rw [← cell]
    exact Function.update_eq_self _ _
  exact ⟨{ g with send := update g.send a (.wire (cfg.home dest) (cfg.home src) frame) }, by
    simpa only [same, Sys.netqSend, Sys.setAnswer] using moved⟩

theorem respond (inv : Inv cfg s g) (call : Intra.respond cfg s m = some s') :
    ∃ g', Inv cfg s' g' := by
  unfold Intra.respond at call
  split at call
  next => cases call
  next ans pending =>
    obtain ⟨a, here⟩ := inv.wires.answers m ans pending
    obtain ⟨h, cell, ok, placed, -⟩ := inv.of_away (a := a) (by simp [here, SPlace.away])
    rw [here] at placed
    obtain ⟨far, home, ansOk⟩ := placed
    have back : ∀ {handle : RMSHandle}, RmsOk a (g.job a) handle →
        (g.job a).outward cfg (cfg.home handle.src) (cfg.home handle.dest) := fun rms =>
      ⟨congrArg (fun e => cfg.home (Envelope.src e)) rms.envelope, congrArg cfg.home rms.dest⟩
    dsimp only at call
    cases ans with
    | rmr handle b =>
        cases call
        have tied : (g.send a).engaged = some (b, true) := by simp [here, SPlace.engaged]
        refine inv.respondWith here (by exact ansOk.handle) ⟨far, ansOk.handle, back ansOk⟩
          (by simp [here, SPlace.granted]) rfl (by simp [here, SPlace.engaged]) ?_
        intro b' k tied'
        obtain ⟨rfl, -⟩ := Prod.mk.inj (Option.some.inj (tied.symm.trans tied'))
        have awaiting : g.recv b = .awaiting a := by
          have back := (inv.pairs.agree a b true).mp tied
          cases at_ : g.recv b <;> simp_all [RPlace.engaged]
        have place := inv.recvs.ok b
        rw [awaiting] at place
        exact place.2.2.buflen
    | rmdr handle b =>
        cases call
        exact inv.respondWith here (by exact ansOk.handle) ⟨far, ansOk.handle, back ansOk⟩
          (by simp [here, SPlace.granted]) rfl (by simp [here, SPlace.engaged]) fun _ _ _ => trivial
    | nrdy handle =>
        cases call
        exact inv.respondWith here (by exact ansOk.1.handle) ⟨far, ansOk.1.handle, ansOk.2, back ansOk.1⟩
          (by simp [here, SPlace.granted]) rfl (by simp [here, SPlace.engaged]) fun _ _ _ => trivial
    | rdr send b src dest cancelled =>
        cases call
        obtain ⟨rfl, rfl, rfl⟩ := ansOk
        exact inv.respondWith here rfl ⟨far, rfl, rfl, rfl⟩
          (by simp [here, SPlace.granted]) rfl (by simp [here, SPlace.engaged]) fun _ _ _ => trivial

theorem deliver (inv : Inv cfg s g) {from_ : Nat} {room : Bool}
    (call : Intra.deliver cfg s from_ m room true = some s') : ∃ g', Inv cfg s' g' := by
  unfold Intra.deliver at call
  split at call
  next => cases call
  next free =>
    have idle : s.answer m = none := by simpa using (not_or.mp free).1
    split at call
    next => cases call
    next frame frames first =>
      have here := inv.wires.frames from_ m frame (by simp [first])
      have wires := inv.wires.pop (p := .off) first rfl
      obtain ⟨h, cell, ok, placed, agrees, -, live, owner⟩ :=
        inv.of_away (a := frame.send) (by simp [here, SPlace.away])
      rw [here] at placed
      obtain ⟨far, frameOk⟩ := placed
      unfold tmpiInterMsgHandle at call
      cases frame with
      | rms handle => exact inv.tmpiRmsHandle here wires idle call
      | rmds handle payload => exact inv.tmpiRmdsHandle here wires idle call
      | rds send b buflen errval payload =>
          cases call
          exact inv.tmpiRdsHandle here wires idle from_
      | rmr send b buflen errval => exact inv.tmpiRmrHandle here wires call
      | rdr send buflen errval =>
          refine inv.answerHandle ?_ ?_ wires ?_ (.inl ⟨?_, rfl, rfl⟩) call
          · exact here ▸ rfl
          · exact here ▸ rfl
          · rw [owner, ← frameOk.2.1]
          · exact here ▸ rfl
      | rmdr send buflen errval =>
          refine inv.answerHandle ?_ ?_ wires ?_ (.inr ⟨?_, rfl, rfl⟩) call
          · exact here ▸ rfl
          · exact here ▸ rfl
          · rw [owner, ← frameOk.2.1]
          · exact here ▸ rfl
      | nrdy send buflen errval =>
          refine inv.tmpiRndyHandle ?_ ?_ ?_ frameOk.2.1 wires ?_ call
          · exact here ▸ rfl
          · exact here ▸ rfl
          · exact here ▸ rfl
          · rw [owner, ← frameOk.2.2.1]

end Inv

end Tmpi.Intra
