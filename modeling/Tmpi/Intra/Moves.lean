import Tmpi.Intra.Posts

/-! The updates of a state that the calls and handlers are made of. -/

namespace Tmpi.Intra

open Function (update)

variable {cfg : Config} {s : Sys} {g : Ghost} {a b : Addr} {h h' : SHandle} {r r' : RHandle}

theorem liveS_congr {s s' : Sys} (pools : ∀ c, (s'.chan c).spool = (s.chan c).spool) :
    s'.LiveS = s.LiveS := by
  funext a
  rw [Sys.LiveS, Sys.LiveS, pools]

theorem liveR_congr {s s' : Sys} (pools : ∀ c, (s'.chan c).rpool = (s.chan c).rpool) :
    s'.LiveR = s.LiveR := by
  funext b
  rw [Sys.LiveR, Sys.LiveR, pools]

theorem update_field {β : Type} {chan : Int → Channel} {c : Int} {ch : Channel} (field : Channel → β)
    (same : field ch = field (chan c)) (c' : Int) : field (update chan c ch c') = field (chan c') := by
  by_cases here : c' = c
  · subst here
    simpa using same
  · rw [Function.update_of_ne here]

namespace Inv

theorem sendOk (inv : Inv cfg s g) (cell : s.smem a = .send h) :
    HandleOk cfg a h ∧ PlaceOk cfg a (g.job a) (g.send a) ∧ (g.send a = .off → h.stat.settled) ∧
      (g.send a ≠ .off → Agrees h (g.job a) ∧ (g.send a).admits (g.job a).mode h.stat) := by
  have ok := inv.sends.ok a
  rwa [cell] at ok

theorem cell_of_active (inv : Inv cfg s g) (active : g.send a ≠ .off) : ∃ h, s.smem a = .send h := by
  have ok := inv.sends.ok a
  cases cell : s.smem a with
  | send h => exact ⟨h, rfl⟩
  | remote r =>
      rw [cell] at ok
      exact absurd ok active

theorem off_of_remote (inv : Inv cfg s g) {rm : RMSHandle} (cell : s.smem a = .remote rm) :
    g.send a = .off := by
  have ok := inv.sends.ok a
  rwa [cell] at ok

theorem unlinked (inv : Inv cfg s g) (cell : s.smem a = .send h) (out : g.send a ≠ .queue) :
    ∀ c, a ∉ (s.chan c).sq := fun c =>
  (inv.chans c).notLinked cell fun place => absurd place out

theorem live_of_active (inv : Inv cfg s g) (active : g.send a ≠ .off) : s.LiveS a :=
  inv.sends.live a (.inl active)

theorem live_of_held (inv : Inv cfg s g) (cell : s.smem a = .send h)
    (held : h.held = true ∨ h.pc ≠ .idle) : s.LiveS a := by
  refine inv.sends.live a (.inr ?_)
  rwa [cell]

theorem origin_of_cell (cell : s.smem a = .send h) (x : Addr) :
    (update s.smem a (.send h') x).origin x = (s.smem x).origin x := by
  by_cases same : x = a
  · subst same
    rw [Function.update_self, cell]
    rfl
  · rw [Function.update_of_ne same]

/-- A send changes its handle and goes from one place outside the channels to another. -/
theorem moveSend (inv : Inv cfg s g) (h' : SHandle) {p : SPlace} {link : Nat → Nat → List Frame}
    {answer : Nat → Option Answer} (cell : s.smem a = .send h)
    (ok : SendOk cfg a (.send h') (g.job a) p) (live : s.LiveS a)
    (old : (g.send a).linked = false) (new : p.linked = false)
    (active : p ≠ .off → g.send a ≠ .off) (seen : p.arriving = false)
    (pairs : PairSide g.job g.want (update g.send a p) g.recv)
    (wires : WireSide link answer (update g.send a p))
    (far : h'.stat = .matched → h'.isRemote = true) :
    Inv cfg { s with smem := update s.smem a (.send h'), link, answer }
      { g with send := update g.send a p } where
  sends := inv.sends.move ok fun _ => live
  recvs := inv.recvs
  chans c := by
    have apart : a ∉ (s.chan c).sq := by
      refine inv.unlinked cell (fun place => ?_) c
      simp [place, SPlace.linked] at old
    exact (inv.chans c).moveElsewhere apart (by simp [old]) (by simp [new])
  wires := wires
  pairs := pairs
  posts := (inv.posts.move active seen).recell _ fun _ x _ => origin_of_cell cell x
  logs := inv.logs.move active
  met := inv.met.away far
  pools := inv.pools
  stray := inv.stray

/-- A send changes its handle only. -/
theorem reput (inv : Inv cfg s g) (cell : s.smem a = .send h)
    (ok : SendOk cfg a (.send h') (g.job a) (g.send a))
    (used : SendUsed (.send h') (g.send a) → s.LiveS a)
    (same : h'.stat = .matched →
      h.stat = .matched ∧ h'.inst = h.inst ∧ h'.dest = h.dest ∧ h'.isRemote = h.isRemote) :
    Inv cfg (s.setS a (.send h')) g where
  sends := inv.sends.rewrite ok used
  recvs := inv.recvs
  chans c := (inv.chans c).rewrite cell
  wires := inv.wires
  pairs := inv.pairs
  posts := inv.posts.recell _ fun _ x _ => origin_of_cell cell x
  logs := inv.logs
  met := inv.met.keep cell same
  pools := inv.pools
  stray := inv.stray

theorem rewrite (inv : Inv cfg s g) (cell : s.smem a = .send h)
    (ok : SendOk cfg a (.send h') (g.job a) (g.send a)) (live : s.LiveS a)
    (same : h'.stat = .matched →
      h.stat = .matched ∧ h'.inst = h.inst ∧ h'.dest = h.dest ∧ h'.isRemote = h.isRemote) :
    Inv cfg (s.setS a (.send h')) g :=
  inv.reput cell ok (fun _ => live) same

theorem rewriteR (inv : Inv cfg s g) (handle : RHandleOk b r)
    (ok : RPlaceOk r (g.want b) g.job s.log (s.trace b.owner) (g.recv b)) (live : s.LiveR b) :
    Inv cfg (s.setR b r) g :=
  { inv with recvs := inv.recvs.rewrite handle ok fun _ => live }

theorem record (inv : Inv cfg s g) {e : Event} (plain : e.plain = true) :
    Inv cfg (s.record e) g :=
  { inv with
    recvs := inv.recvs.grow (List.subset_append_left _ _) fun _ => List.Subset.refl _
    logs := inv.logs.say (.inl plain) }

theorem recordReceived (inv : Inv cfg s g) {inst peer : Nat} {status : Status} {data : Buffer} {c : Int}
    (done : Delivered s.log (s.trace c) inst peer status data) :
    Inv cfg (s.record (.received inst peer status data)) g :=
  { inv with
    recvs := inv.recvs.grow (List.subset_append_left _ _) fun _ => List.Subset.refl _
    logs := inv.logs.say (.inr ⟨inst, peer, status, data, rfl, c, done⟩) }

/-- `Q_freeElem` of an element that nobody refers to. -/
theorem release (inv : Inv cfg s g) (unused : ¬ SendUsed (s.smem a) (g.send a))
    (apart : ∀ c, a ∉ (s.chan c).sq) (live : s.LiveS a) : Inv cfg (s.freeElemS a) g := by
  have ch : ∀ c, ((s.freeElemS a).chan c).sq = (s.chan c).sq := update_field _ rfl
  have pool : ∀ c, ((s.freeElemS a).chan c).rpool = (s.chan c).rpool := update_field _ rfl
  have lives : ∀ x, s.LiveS x → x ≠ a → (s.freeElemS a).LiveS x := by
    intro x alive other
    by_cases owner : x.owner = a.owner
    · have idx : x.idx ≠ a.idx := fun same => other (by cases x; cases a; simp_all)
      simp only [Sys.LiveS, owner] at alive ⊢
      simpa [Sys.freeElemS, qFreeElem_live] using ⟨alive, idx⟩
    · simpa [Sys.LiveS, Sys.freeElemS, Function.update_of_ne owner] using alive
  have log : (s.freeElemS a).log = s.log := by simp [Sys.freeElemS, live]
  exact
    { sends := inv.sends.relive fun x alive used => lives x alive fun same => by
        subst same
        exact unused used
      recvs := by
        rw [log, liveR_congr pool]
        exact inv.recvs
      chans := chans_update (fun c _ => inv.chans c)
        { inv.chans a.owner with }
      wires := inv.wires
      pairs := inv.pairs
      posts := inv.posts.rechan ch (update_field _ rfl)
      logs := by
        rw [log]
        exact inv.logs
      met := inv.met
      pools :=
        { spool := fun c => by
            by_cases here : c = a.owner
            · subst here
              simpa [Sys.freeElemS] using qFreeElem_ok (inv.pools.spool a.owner) live
            · simpa [Sys.freeElemS, Function.update_of_ne here] using inv.pools.spool c
          rpool := fun c => by
            rw [pool]
            exact inv.pools.rpool c
          linked := fun c x member => by
            rw [ch c] at member
            refine lives x (inv.pools.linked c x member) fun same => ?_
            subst same
            exact apart c member }
      stray := inv.stray }

theorem freeS (inv : Inv cfg s g) (cell : s.smem a = .send h) (off : g.send a = .off)
    (dropped : h.held = false) (idle : h.pc = .idle) (live : s.LiveS a) :
    Inv cfg (s.freeElemS a) g :=
  inv.release (by simp [SendUsed, cell, off, dropped, idle]) (inv.unlinked cell (by simp [off])) live

theorem freeR (inv : Inv cfg s g) (off : g.recv b = .off) (dropped : (s.rmem b).held = false)
    (idle : (s.rmem b).pc = .idle) (live : s.LiveR b) : Inv cfg (s.freeElemR b) g := by
  have ch : ∀ c, ((s.freeElemR b).chan c).sq = (s.chan c).sq := update_field _ rfl
  have pool : ∀ c, ((s.freeElemR b).chan c).spool = (s.chan c).spool := update_field _ rfl
  have lives : ∀ x, s.LiveR x → x ≠ b → (s.freeElemR b).LiveR x := by
    intro x alive other
    by_cases owner : x.owner = b.owner
    · have idx : x.idx ≠ b.idx := fun same => other (by cases x; cases b; simp_all)
      simp only [Sys.LiveR, owner] at alive ⊢
      simpa [Sys.freeElemR, qFreeElem_live] using ⟨alive, idx⟩
    · simpa [Sys.LiveR, Sys.freeElemR, Function.update_of_ne owner] using alive
  have log : (s.freeElemR b).log = s.log := by simp [Sys.freeElemR, live]
  exact
    { sends := by
        rw [liveS_congr pool]
        exact inv.sends
      recvs := by
        rw [log]
        refine inv.recvs.relive fun x alive used => lives x alive fun same => ?_
        subst same
        simp [RecvUsed, off, dropped, idle] at used
      chans := chans_update (fun c _ => inv.chans c)
        { inv.chans b.owner with }
      wires := inv.wires
      pairs := inv.pairs
      posts := inv.posts.rechan ch (update_field _ rfl)
      logs := by
        rw [log]
        exact inv.logs
      met := inv.met
      pools :=
        { spool := fun c => by
            rw [pool]
            exact inv.pools.spool c
          rpool := fun c => by
            by_cases here : c = b.owner
            · subst here
              simpa [Sys.freeElemR] using qFreeElem_ok (inv.pools.rpool b.owner) live
            · simpa [Sys.freeElemR, Function.update_of_ne here] using inv.pools.rpool c
          linked := fun c x member => by
            rw [ch c] at member
            rw [pool]
            exact inv.pools.linked c x member }
      stray := inv.stray }

/-- `Q_newElem` on a send queue hands out an element that nobody refers to. -/
theorem allocS (inv : Inv cfg s g) (c : Int) (new : Nat × Pool)
    (call : qNewElem cfg.group (s.chan c).spool = new) :
    Inv cfg (s.setChan c { s.chan c with spool := new.2 }) g ∧
      (s.setChan c { s.chan c with spool := new.2 }).LiveS ⟨c, new.1⟩ ∧
      g.send ⟨c, new.1⟩ = .off ∧
      ∀ c', ⟨c, new.1⟩ ∉ ((s.setChan c { s.chan c with spool := new.2 }).chan c').sq := by
  subst call
  set new := qNewElem cfg.group (s.chan c).spool with call
  set s' := s.setChan c { s.chan c with spool := new.2 } with state
  have sq : ∀ c', (s'.chan c').sq = (s.chan c').sq := update_field _ rfl
  have pool : ∀ c', (s'.chan c').rpool = (s.chan c').rpool := update_field _ rfl
  have poolOk := inv.pools.spool c
  have fresh : ¬ s.LiveS ⟨c, new.1⟩ := qNewElem_fresh
  have lives : ∀ x, s'.LiveS x ↔ s.LiveS x ∨ x = ⟨c, new.1⟩ := by
    intro x
    by_cases owner : x.owner = c
    · have idx : x = ⟨c, new.1⟩ ↔ x.idx = new.1 := by
        cases x
        simp_all
      simp only [Sys.LiveS, state, Sys.setChan, owner, Function.update_self, idx]
      exact qNewElem_live poolOk cfg.group_pos
    · have other : x ≠ ⟨c, new.1⟩ := fun same => owner (by rw [same])
      simp [Sys.LiveS, state, Sys.setChan, Function.update_of_ne owner, other]
  refine ⟨?_, (lives _).mpr (.inr rfl), ?_,
    fun c' member => fresh (inv.pools.linked c' _ (sq c' ▸ member))⟩
  · exact
      { sends := inv.sends.relive fun x alive _ => (lives x).mpr (.inl alive)
        recvs := by
          rw [liveR_congr pool]
          exact inv.recvs
        chans := chans_update (fun c' _ => inv.chans c') { inv.chans c with }
        wires := inv.wires
        pairs := inv.pairs
        posts := inv.posts.rechan sq (update_field _ rfl)
        logs := inv.logs
        met := inv.met
        pools :=
          { spool := fun c' => by
              by_cases here : c' = c
              · subst here
                simpa [state, Sys.setChan] using qNewElem_ok poolOk cfg.group_pos
              · simpa [state, Sys.setChan, Function.update_of_ne here] using inv.pools.spool c'
            rpool := fun c' => by
              rw [pool]
              exact inv.pools.rpool c'
            linked := fun c' x member => by
              rw [sq c'] at member
              exact (lives x).mpr (.inl (inv.pools.linked c' x member)) }
        stray := inv.stray }
  · by_contra active
    exact fresh (inv.live_of_active active)

theorem allocR (inv : Inv cfg s g) (c : Int) (new : Nat × Pool)
    (call : qNewElem cfg.group (s.chan c).rpool = new) :
    Inv cfg (s.setChan c { s.chan c with rpool := new.2 }) g ∧
      (s.setChan c { s.chan c with rpool := new.2 }).LiveR ⟨c, new.1⟩ ∧
      g.recv ⟨c, new.1⟩ = .off := by
  subst call
  set new := qNewElem cfg.group (s.chan c).rpool with call
  set s' := s.setChan c { s.chan c with rpool := new.2 } with state
  have sq : ∀ c', (s'.chan c').sq = (s.chan c').sq := update_field _ rfl
  have pool : ∀ c', (s'.chan c').spool = (s.chan c').spool := update_field _ rfl
  have poolOk := inv.pools.rpool c
  have fresh : ¬ s.LiveR ⟨c, new.1⟩ := qNewElem_fresh
  have lives : ∀ x, s'.LiveR x ↔ s.LiveR x ∨ x = ⟨c, new.1⟩ := by
    intro x
    by_cases owner : x.owner = c
    · have idx : x = ⟨c, new.1⟩ ↔ x.idx = new.1 := by
        cases x
        simp_all
      simp only [Sys.LiveR, state, Sys.setChan, owner, Function.update_self, idx]
      exact qNewElem_live poolOk cfg.group_pos
    · have other : x ≠ ⟨c, new.1⟩ := fun same => owner (by rw [same])
      simp [Sys.LiveR, state, Sys.setChan, Function.update_of_ne owner, other]
  refine ⟨?_, (lives _).mpr (.inr rfl), ?_⟩
  · exact
      { sends := by
          rw [liveS_congr pool]
          exact inv.sends
        recvs := inv.recvs.relive fun x alive _ => (lives x).mpr (.inl alive)
        chans := chans_update (fun c' _ => inv.chans c') { inv.chans c with }
        wires := inv.wires
        pairs := inv.pairs
        posts := inv.posts.rechan sq (update_field _ rfl)
        logs := inv.logs
        met := inv.met
        pools :=
          { spool := fun c' => by
              rw [pool]
              exact inv.pools.spool c'
            rpool := fun c' => by
              by_cases here : c' = c
              · subst here
                simpa [state, Sys.setChan] using qNewElem_ok poolOk cfg.group_pos
              · simpa [state, Sys.setChan, Function.update_of_ne here] using inv.pools.rpool c'
            linked := fun c' x member => by
              rw [sq c'] at member
              rw [pool]
              exact inv.pools.linked c' x member }
        stray := inv.stray }
  · by_contra active
    exact fresh (inv.recvs.live _ (.inl active))

/-- A send handle is written over an element that nobody refers to. -/
theorem implant (inv : Inv cfg s g) (cell : SCell) (off : g.send a = .off)
    (apart : ∀ c, a ∉ (s.chan c).sq) (ok : SendOk cfg a cell (g.job a) .off) (live : s.LiveS a)
    (fresh : ∀ h, cell = .send h → h.stat ≠ .matched) : Inv cfg (s.setS a cell) g where
  sends := inv.sends.rewrite (by rwa [off]) fun _ => live
  recvs := inv.recvs
  chans c := by
    have same : update g.send a (g.send a) = g.send := Function.update_eq_self _ _
    have moved : ChanOk c (s.chan c) (update s.smem a cell) g.job (update g.send a (g.send a)) g.recv :=
      (inv.chans c).moveElsewhere (apart c) (by simp [off, SPlace.linked])
        (by simp [off, SPlace.linked])
    rwa [same] at moved
  wires := inv.wires
  pairs := inv.pairs
  posts := inv.posts.recell _ fun c x member => by
    have other : x ≠ a := fun same => apart c (same ▸ member)
    simp [Sys.setS, Function.update_of_ne other]
  logs := inv.logs
  met := inv.met.put cell fun h here _ stat => absurd stat (fresh h here)
  pools := inv.pools
  stray := inv.stray

/-! ## The end of a request -/

theorem finishSh (off : g.send a = .off) (ok : HandleOk cfg a h) (past : h.stat ≠ .create)
    (put : ∀ h', HandleOk cfg a h' → h'.stat = .free → Inv cfg (s.setS a (.send h')) g)
    (live : s.LiveS a) : Inv cfg (finishSh s a h) g := by
  have spare : h.mode = .buffered → h.sysBuf = none → ¬ 0 < h.len := fun mode none some =>
    past (ok.noSpace mode none some).1
  unfold Intra.finishSh
  dsimp only
  split
  next plain =>
    refine freeS (put _ ?_ rfl) (Function.update_self ..) off rfl rfl live
    exact
      { ok with
        noSpace := fun mode none some => absurd some (spare mode none)
        fresh := by simp [SHandle.startable, plain]
        leaves := by simp
        refused := by simp
        blocked := by simp
        waiting := by simp
        readyWait := by simp
        notStarting := by simp }
  next =>
    refine put _ ?_ rfl
    exact
      { ok with
        noSpace := fun mode none some => absurd some (spare mode none)
        fresh := by simp
        leaves := by simp
        refused := by simp
        blocked := by simp
        waiting := by simp
        readyWait := by simp
        notStarting := by simp }

theorem finishRh (off : g.recv b = .off) (ok : RHandleOk b r)
    (put : ∀ r', RHandleOk b r' → r'.stat = .free → r'.pc = .idle → Inv cfg (s.setR b r') g)
    (live : s.LiveR b) : Inv cfg (finishRh s b r) g := by
  unfold Intra.finishRh
  dsimp only
  split
  next =>
    refine freeR (put _ ?_ rfl rfl) off ?_ ?_ live
    · exact
        { ok with
          errval := rfl
          fresh := by simp
          blocked := by simp
          waiting := by simp
          notReady := by simp }
    · simp [Sys.setR]
    · simp [Sys.setR]
  next =>
    refine put _ ?_ rfl rfl
    exact
      { ok with
        errval := rfl
        fresh := by simp
        blocked := by simp
        waiting := by simp
        notReady := by simp }

end Inv

end Tmpi.Intra
