import Tmpi.Intra.Moves

/-! The calls that leave every request in its place. -/

namespace Tmpi.Intra

open Function (update)

variable {cfg : Config} {s s' : Sys} {g : Ghost} {a b : Addr} {h : SHandle} {r : RHandle}

namespace Inv

/-! ## Creation -/

theorem tmpiIntraInitSh (inv : Inv cfg s g) (context : UInt32) (src dest tag : Int) (data : Buffer)
    (mode : Mode) (isPersistent isImmediate room : Bool) :
    Inv cfg (tmpiIntraInitSh cfg s context src dest tag data mode isPersistent isImmediate room) g := by
  cases call : qNewElem cfg.group (s.chan src).spool with
  | mk idx spool =>
      obtain ⟨carved, live, off, apart⟩ := inv.allocS src _ call
      simp only [Intra.tmpiIntraInitSh, call]
      refine carved.implant _ off apart ⟨?_, trivial, fun _ => .inl rfl, fun on => absurd rfl on⟩ live
        (by simp)
      constructor
      case sysLen =>
        intro sys some
        dsimp only at some
        split at some
        · cases some
          simp
        · cases some
      case noSpace =>
        intro mode none len
        simp_all
      all_goals simp

theorem tmpiIntraInitRh (inv : Inv cfg s g) (context : UInt32) (src dest tag : Int) (data : Buffer)
    (isPersistent isImmediate : Bool) :
    Inv cfg (tmpiIntraInitRh cfg s context src dest tag data isPersistent isImmediate) g := by
  cases call : qNewElem cfg.group (s.chan dest).rpool with
  | mk idx rpool =>
      obtain ⟨carved, live, off⟩ := inv.allocR dest _ call
      simp only [Intra.tmpiIntraInitRh, call]
      refine carved.rewriteR ?_ ?_ live
      · constructor
        all_goals simp
      · rw [off]
        exact ⟨by simp, .inl rfl⟩

/-! ## What a call finds -/

theorem of_pending (inv : Inv cfg s g) (cell : s.smem a = .send h) (pending : ¬ h.stat.settled) :
    g.send a ≠ .off ∧ Agrees h (g.job a) ∧ (g.send a).admits (g.job a).mode h.stat := by
  obtain ⟨-, -, off, on⟩ := inv.sendOk cell
  have active : g.send a ≠ .off := fun place => pending (off place)
  exact ⟨active, on active⟩

/-- A local send that is under way is linked in its destination's queue or taken from it. -/
theorem of_local (inv : Inv cfg s g) (cell : s.smem a = .send h) (here : h.isRemote = false)
    (active : g.send a ≠ .off) : (g.send a).granted = false ∧ (g.send a).away = false := by
  obtain ⟨handle, place, -, on⟩ := inv.sendOk cell
  have agrees := (on active).1
  have near : cfg.home (g.job a).dest = cfg.home (g.job a).envelope.src := by
    have remote := handle.isRemote
    rw [here, agrees.dest, ← agrees.envelope] at *
    simpa using remote.symm
  cases at_ : g.send a with
  | off => exact absurd at_ active
  | queue | found b => exact ⟨rfl, rfl⟩
  | wire m m' frame =>
      rw [at_] at place
      exact absurd near place.1
  | parked q =>
      rw [at_] at place
      exact absurd near place.1
  | answering m answer =>
      rw [at_] at place
      exact absurd near place.1

theorem off_of_settled (inv : Inv cfg s g) (cell : s.smem a = .send h) (settled : h.stat.settled) :
    g.send a = .off := by
  obtain ⟨-, -, -, on⟩ := inv.sendOk cell
  by_contra active
  have admits := (on active).2
  unfold SPlace.admits at admits
  rcases settled with stat | stat | stat | stat <;> rw [stat] at admits <;> split at admits <;>
    simp at admits

theorem finish (inv : Inv cfg s g) (cell : s.smem a = .send h) (live : s.LiveS a)
    (done : h.stat = .matched ∨ h.stat = .pendNrdy) : Inv cfg (Intra.finishSh s a h) g := by
  have off := inv.off_of_settled cell (by rcases done with done | done <;> simp [done, Stat.settled])
  obtain ⟨ok, place, -, -⟩ := inv.sendOk cell
  refine finishSh off ok ?_ (fun h' ok' free => inv.rewrite cell ?_ live (by simp [free])) live
  · rcases done with done | done <;> simp [done]
  · exact ⟨ok', place, fun _ => .inr (.inl free), fun on => absurd off on⟩

/-! ## Wait, test, cancel and release of a send -/

theorem blockSh (inv : Inv cfg s g) (cell : s.smem a = .send h) (live : s.LiveS a)
    (stat : (h.stat = .pendStrt ∧ h.mode ≠ .ready) ∨ (h.stat = .pendData ∧ h.isRemote = true)) :
    Inv cfg (Intra.blockSh s a h) g := by
  have pending : ¬ h.stat.settled := by
    rcases stat with ⟨stat, -⟩ | ⟨stat, -⟩ <;> simp [stat, Stat.settled]
  obtain ⟨ok, place, -, -⟩ := inv.sendOk cell
  obtain ⟨active, agrees, admits⟩ := inv.of_pending cell pending
  refine inv.rewrite cell ⟨?_, place, fun off => absurd off active, fun _ => ⟨?_, ?_⟩⟩ live ?_
  · rcases stat with ⟨stat, -⟩ | ⟨stat, remote⟩
    all_goals
      exact
        { ok with
          noSpace := fun mode none len => by simpa [stat] using (ok.noSpace mode none len).1
          fresh := by simp [SHandle.startable, stat]
          leaves := by simp [stat]
          refused := by simp [stat]
          blocked := by simp
          waiting := by simp_all
          readyWait := by simp
          notStarting := by simp }
  · exact { agrees with bytes := agrees.bytes.imp_left fun kept => ⟨kept.1, kept.2.1, by
      dsimp only
      split <;> simp⟩ }
  · have mode := agrees.mode
    unfold SPlace.admits at admits ⊢
    rcases stat with ⟨stat, mode'⟩ | ⟨stat, -⟩ <;> split at admits <;> simp_all
  · dsimp only
    split <;> simp

theorem memcpy_all {dst src : Buffer} {len : Nat} (dstLen : dst.length = len)
    (srcLen : src.length = len) : memcpy dst src len = src := by
  simp [memcpy, ← srcLen, List.drop_eq_nil_of_le (show dst.length ≤ src.length by omega)]

theorem leaveSh (inv : Inv cfg s g) (cell : s.smem a = .send h) (live : s.LiveS a)
    (pending : ¬ h.stat.settled)
    (leaves : h.mode = .buffered ∨ (h.mode = .standard ∧ h.sysBuf.isSome)) {copies : Bool}
    (enough : copies = true ∨ h.buflen = 0) : Inv cfg (Intra.leaveSh s a h copies) g := by
  obtain ⟨ok, place, -, -⟩ := inv.sendOk cell
  obtain ⟨active, agrees, admits⟩ := inv.of_pending cell pending
  have admits' : (g.send a).admits (g.job a).mode .pendRels := by
    have mode : (g.job a).mode ≠ .ready := by
      rw [← agrees.mode]
      rcases leaves with mode | ⟨mode, -⟩ <;> simp [mode]
    unfold SPlace.admits
    split <;> simp [mode]
  have notCreate : h.stat ≠ .create := fun stat => pending (.inl stat)
  -- the handle that is left behind, whatever became of its buffers
  have stays : ∀ sysBuf curdata, (∀ sys, sysBuf = some sys → sys.length = h.len) →
      (sysBuf = none → h.sysBuf = none) →
      ((curdata = .userBuf ∧ h.userBuf = (g.job a).data ∧ h.len = 0) ∨
        (curdata = .sysBuf ∧ sysBuf = some (g.job a).data)) →
      Inv cfg (s.setS a (.send { h with
        stat := .pendRels, held := h.handleType = .persistent, pc := .idle, sysBuf, curdata })) g := by
    intro sysBuf curdata len keep bytes
    refine inv.rewrite cell ⟨?_, place, fun off => absurd off active, fun _ => ⟨?_, admits'⟩⟩ live
      (by simp)
    · exact
        { ok with
          sysLen := len
          noSpace := fun mode none some => absurd (ok.noSpace mode (keep none) some).1 notCreate
          fresh := by simp [SHandle.startable]
          leaves := fun _ => leaves.imp_right fun left => ⟨left.1, by
            have full := left.2
            cases sysBuf with
            | none => simp [keep rfl] at full
            | some sys => rfl⟩
          refused := by simp
          blocked := by simp
          waiting := by simp
          readyWait := by simp
          notStarting := by simp }
    · exact { agrees with bytes := bytes.imp_left fun kept => ⟨kept.1, kept.2.1, fun _ => kept.2.2⟩ }
  have lens := agrees.len.trans agrees.buflen.symm
  unfold Intra.leaveSh
  dsimp only
  split
  next cur =>
    have user : h.userBuf = (g.job a).data := by
      rcases agrees.bytes with ⟨-, user, -⟩ | ⟨other, -⟩
      · exact user
      · simp [cur] at other
    split
    next sys full =>
      split
      next =>
        have copied : memcpy sys h.userBuf h.buflen = (g.job a).data := by
          rw [memcpy_all (by rw [ok.sysLen sys full, lens]) (by rw [ok.userLen, lens]), user]
        refine (stays _ _ ?_ (by simp) (.inr ⟨rfl, by rw [copied]⟩)).record rfl
        rintro _ ⟨⟩
        rw [copied, agrees.len]
      next skip =>
        have zero : h.len = 0 := by
          have := enough.resolve_left skip
          omega
        exact (stays h.sysBuf h.curdata ok.sysLen id (.inl ⟨cur, user, zero⟩)).record rfl
    next empty =>
      have zero : h.len = 0 := by
        by_contra some
        have mode : h.mode = .buffered := by simpa [empty] using leaves
        exact notCreate (ok.noSpace mode empty (by omega)).1
      exact (stays h.sysBuf h.curdata ok.sysLen id (.inl ⟨cur, user, zero⟩)).record rfl
  next cur =>
    have bytes : h.curdata = .sysBuf ∧ h.sysBuf = some (g.job a).data := by
      simpa [cur] using agrees.bytes
    exact (stays h.sysBuf h.curdata ok.sysLen id (.inr bytes)).record rfl

/-- The states in which an owner that is not blocked finds a request it has started. -/
theorem stat_of_call (inv : Inv cfg s g) (cell : s.smem a = .send h) {mask : List Stat}
    (mask_eq : mask = [.pendStrt, .matched, .pendNrdy, .pendData] ∨ mask = [.pendStrt, .matched])
    (called : h.stat.any mask = true) (awake : h.pc ≠ .waiting) :
    h.stat = .matched ∨ (h.stat = .pendNrdy ∧ h.mode = .ready) ∨ h.stat = .pendStrt ∨
      h.stat = .pendData ∨
      (h.stat = .pendRels ∧ (h.mode = .buffered ∨ (h.mode = .standard ∧ h.sysBuf.isSome))) := by
  obtain ⟨ok, -, -, -⟩ := inv.sendOk cell
  have blocked := ok.blocked
  have leaves := ok.leaves
  have refused := ok.refused
  cases stat : h.stat <;> simp only [stat] at blocked leaves refused
  case pendWait | pendDwat => exact absurd (blocked (by simp)) awake
  case create | free | cancel =>
    rcases mask_eq with rfl | rfl <;> rw [stat] at called <;> exact absurd called (by decide)
  all_goals simp_all

theorem not_pendData (inv : Inv cfg s g) (cell : s.smem a = .send h) (here : h.isRemote = false) :
    h.stat ≠ .pendData := by
  intro stat
  obtain ⟨active, -, admits⟩ := inv.of_pending cell (by simp [stat, Stat.settled])
  rw [SPlace.admits, (inv.of_local cell here active).1, stat] at admits
  simp at admits

theorem interWaitRest (inv : Inv cfg s g) (cell : s.smem a = .send h) (live : s.LiveS a)
    (remote : h.isRemote = true)
    (called : h.stat.any [.pendStrt, .matched, .pendNrdy, .pendData] = true)
    (ready : h.stat = .pendStrt → h.mode ≠ .ready) (awake : h.pc ≠ .waiting) :
    Inv cfg (Intra.interWaitRest s a h) g := by
  have stats := inv.stat_of_call cell (.inl rfl) called awake
  unfold Intra.interWaitRest
  split
  next stat => exact (inv.record rfl).finish cell live (.inl stat)
  next unmatched =>
    split
    next stat =>
      have mode : h.mode = .ready := ((inv.sendOk cell).1.refused stat).1
      simp only [mode, ne_eq, not_true_eq_false, if_false]
      exact (inv.record rfl).finish cell live (.inr stat)
    next accepted =>
      have pending : ¬ h.stat.settled := by
        rcases stats with stat | ⟨stat, -⟩ | stat | stat | ⟨stat, -⟩ <;> simp_all [Stat.settled]
      have blocks : h.mode ≠ .buffered → ¬ (h.mode = .standard ∧ h.sysBuf.isSome) →
          Inv cfg (Intra.blockSh s a h) g := by
        intro one two
        refine inv.blockSh cell live ?_
        rcases stats with stat | ⟨stat, -⟩ | stat | stat | ⟨stat, leaves⟩
        · exact absurd stat unmatched
        · exact absurd stat accepted
        · exact .inl ⟨stat, ready stat⟩
        · exact .inr ⟨stat, remote⟩
        · exact absurd leaves (by simp [one, two])
      cases mode : h.mode with
      | sync => exact blocks (by simp [mode]) (by simp [mode])
      | ready => exact blocks (by simp [mode]) (by simp [mode])
      | buffered => exact inv.leaveSh cell live pending (.inl mode) (.inl rfl)
      | standard =>
          dsimp only
          split
          next full => exact inv.leaveSh cell live pending (.inr ⟨mode, full⟩) (.inl rfl)
          next empty => exact blocks (by simp [mode]) (fun full => empty full.2)

theorem tmpiInterWaitSh (inv : Inv cfg s g) (cell : s.smem a = .send h) (live : s.LiveS a)
    (remote : h.isRemote = true) (idle : h.pc = .idle)
    (call : Intra.tmpiInterWaitSh s a h = some s') : Inv cfg s' g := by
  unfold Intra.tmpiInterWaitSh at call
  split at call
  next =>
    cases call
    exact inv.record rfl
  next called =>
    simp only [Bool.not_eq_true', Bool.not_eq_false] at called
    split at call
    next => cases call
    next =>
      split at call
      next first =>
        cases call
        obtain ⟨ok, place, -, -⟩ := inv.sendOk cell
        obtain ⟨active, agrees, admits⟩ := inv.of_pending cell (by simp [first.1, Stat.settled])
        refine inv.rewrite cell ⟨?_, place, fun off => absurd off active,
          fun _ => ⟨{ agrees with }, admits⟩⟩ live fun done => ⟨done, rfl, rfl, rfl⟩
        exact
          { ok with
            blocked := by simp [first.1]
            waiting := by simp
            readyWait := by simp [first.1, first.2, remote]
            notStarting := by simp }
      next first =>
        cases call
        exact inv.interWaitRest cell live remote called (fun stat mode => first ⟨stat, mode⟩)
          (by simp [idle])

theorem tmpiIntraWaitSh (inv : Inv cfg s g) (cell : s.smem a = .send h) (live : s.LiveS a)
    (idle : h.pc = .idle)
    (ready : h.isRemote = false → h.mode = .ready → h.stat ≠ .pendStrt)
    (call : Intra.tmpiIntraWaitSh s a h = some s') : Inv cfg s' g := by
  unfold Intra.tmpiIntraWaitSh at call
  split at call
  next remote => exact inv.tmpiInterWaitSh cell live remote idle call
  next here =>
    simp only [Bool.not_eq_true] at here
    split at call
    next =>
      cases call
      exact inv.record rfl
    next called =>
      simp only [Bool.not_eq_true', Bool.not_eq_false] at called
      have stats := inv.stat_of_call cell (.inr rfl) called (by simp [idle])
      split at call
      next => cases call
      next =>
        split at call
        next stat =>
          cases call
          exact (inv.record rfl).finish cell live (.inl stat)
        next unmatched =>
          have notData := inv.not_pendData cell here
          have blocks : h.mode ≠ .ready → h.mode ≠ .buffered →
              ¬ (h.mode = .standard ∧ h.sysBuf.isSome) →
              Inv cfg (s.setS a (.send { h with stat := .pendWait, pc := .waiting })) g := by
            intro one two three
            have stat : h.stat = .pendStrt := by
              rcases stats with stat | ⟨stat, mode⟩ | stat | stat | ⟨stat, leaves⟩
              · exact absurd stat unmatched
              · exact absurd mode one
              · exact stat
              · exact absurd stat notData
              · exact absurd leaves (by simp [two, three])
            have blocked := inv.blockSh cell live (.inl ⟨stat, one⟩)
            simpa [Intra.blockSh, stat] using blocked
          have leaves : h.mode ≠ .ready →
              (h.mode = .buffered ∨ (h.mode = .standard ∧ h.sysBuf.isSome)) →
              Inv cfg (Intra.leaveSh s a h true) g := by
            intro mode leaves
            refine inv.leaveSh cell live ?_ leaves (.inl rfl)
            rcases stats with stat | ⟨stat, mode'⟩ | stat | stat | ⟨stat, -⟩ <;>
              simp_all [Stat.settled]
          split at call
          next mode =>
            cases call
            exact blocks (by simp [mode]) (by simp [mode]) (by simp [mode])
          next mode =>
            cases call
            exact leaves (by simp [mode]) (.inl mode)
          next mode =>
            cases call
            refine (inv.record rfl).finish cell live (.inr ?_)
            rcases stats with stat | ⟨stat, -⟩ | stat | stat | ⟨stat, leaves⟩
            · exact absurd stat unmatched
            · exact stat
            · exact absurd stat (ready here mode)
            · exact absurd stat notData
            · simp [mode] at leaves
          next mode =>
            split at call
            next full =>
              cases call
              exact leaves (by simp [mode]) (.inr ⟨mode, full⟩)
            next empty =>
              cases call
              exact blocks (by simp [mode]) (by simp [mode]) fun full => empty full.2

theorem wakeSh (inv : Inv cfg s g) (cell : s.smem a = .send h)
    (call : Intra.wakeSh s a h = some s') : Inv cfg s' g := by
  obtain ⟨ok, -, -, -⟩ := inv.sendOk cell
  have waiting := ok.waiting
  have readyWait := ok.readyWait
  unfold Intra.wakeSh at call
  split at call
  next => cases call
  next =>
    split at call
    next pc =>
      obtain ⟨remote, mode, stats⟩ := readyWait pc
      split at call
      next => cases call
      next later =>
        cases call
        have live := inv.live_of_held cell (.inr (by simp [pc]))
        have same : Intra.interWaitRest s a { h with pc := .idle } = Intra.interWaitRest s a h := rfl
        rw [same]
        refine inv.interWaitRest cell live remote ?_ (fun stat => absurd stat later) (by simp [pc])
        rcases stats with stat | stat | stat | stat <;> rw [stat] <;> rfl
    next =>
      split at call
      next pc =>
        have live := inv.live_of_held cell (.inr (by simp [pc]))
        have stats := waiting pc
        split at call
        next remote =>
          split at call
          next => cases call
          next matched =>
            cases call
            exact (inv.record rfl).finish cell live (.inl (by simpa using matched))
        next here =>
          split at call
          next => cases call
          next moved =>
            cases call
            have matched : h.stat = .matched := by
              rcases stats with stat | stat | ⟨remote, -⟩
              · exact stat
              · exact absurd stat moved
              · exact absurd remote here
            simp only [matched, ne_eq, not_true_eq_false, if_false]
            exact (inv.record rfl).finish cell live (.inl matched)
      next => cases call

theorem tmpiIntraTestSh (inv : Inv cfg s g) (cell : s.smem a = .send h) (live : s.LiveS a)
    (idle : h.pc = .idle) {flag : Bool}
    (call : Intra.tmpiIntraTestSh s a h = some (s', flag)) : Inv cfg s' g := by
  obtain ⟨ok, place, off, on⟩ := inv.sendOk cell
  have lockUp : Inv cfg (s.setS a (.send { h with locked := true })) g :=
    inv.rewrite cell ⟨{ ok with }, place, off, fun active =>
      ⟨{ (on active).1 with }, (on active).2⟩⟩ live fun done => ⟨done, rfl, rfl, rfl⟩
  unfold Intra.tmpiIntraTestSh at call
  split at call
  next =>
    cases call
    exact inv.record rfl
  next called =>
    simp only [Bool.not_eq_true', Bool.not_eq_false] at called
    have stats := inv.stat_of_call cell (.inl rfl) called (by simp [idle])
    split at call
    next => cases call
    next =>
      split at call
      next stat =>
        cases call
        exact (inv.record rfl).finish cell live (.inl stat)
      next unmatched =>
        split at call
        next stat =>
          cases call
          have mode : h.mode = .ready := (ok.refused stat).1
          simp only [mode, ne_eq, not_true_eq_false, if_false]
          exact (inv.record rfl).finish cell live (.inr stat)
        next accepted =>
          have pending : ¬ h.stat.settled := by
            rcases stats with stat | ⟨stat, -⟩ | stat | stat | ⟨stat, -⟩ <;> simp_all [Stat.settled]
          have enough : decide (h.buflen ≠ 0) = true ∨ h.buflen = 0 := by
            simpa using (em (h.buflen = 0)).symm
          split at call
          next => cases call; exact lockUp
          next => cases call; exact lockUp
          next mode =>
            cases call
            exact inv.leaveSh cell live pending (.inl mode) enough
          next mode =>
            split at call
            next full =>
              cases call
              exact inv.leaveSh cell live pending (.inr ⟨mode, full⟩) enough
            next => cases call; exact lockUp

/-- Cancelling a send that is no longer pending. -/
theorem tmpiIntraCancelSh (inv : Inv cfg s g) (cell : s.smem a = .send h) (live : s.LiveS a)
    (done : h.stat.pend = false) (call : Intra.tmpiIntraCancelSh s a h = some s') :
    Inv cfg s' g := by
  unfold Intra.tmpiIntraCancelSh Intra.tmpiInterCancelSh at call
  simp only [Stat.any_started, Stat.any_linked, done, Bool.false_or] at call
  by_cases stat : h.stat = .matched
  · have finished := inv.finish cell live (.inl stat)
    simp only [stat, decide_true, Bool.not_true, Bool.false_eq_true, if_false, if_true] at call
    split at call
    all_goals
      split at call
      next => cases call
      next =>
        cases call
        exact finished
  · simp only [stat, decide_false, Bool.not_false, if_true, ite_self] at call
    cases call
    exact inv.record rfl

/-- `tmpi_intra_test_sh` completes a request that is done, or lets the sender leave. -/
theorem test_completes {flag : Bool} (call : Intra.tmpiIntraTestSh s a h = some (s', flag))
    (completed : flag = true) :
    ((h.stat = .matched ∨ h.stat = .pendNrdy) ∧ ∃ s₁ : Sys, s₁.chan = s.chan ∧
      s' = Intra.finishSh s₁ a h) ∨
    (h.stat.pend = true ∧ h.stat ≠ .pendNrdy ∧
      (h.mode = .buffered ∨ (h.mode = .standard ∧ h.sysBuf.isSome))) := by
  subst completed
  unfold Intra.tmpiIntraTestSh at call
  split at call
  next => cases call
  next called =>
    split at call
    next => cases call
    next =>
      split at call
      next stat =>
        cases call
        exact .inl ⟨.inl stat, s.record _, rfl, rfl⟩
      next unmatched =>
        split at call
        next stat =>
          cases call
          refine .inl ⟨.inr stat, _, ?_, rfl⟩
          split <;> rfl
        next accepted =>
          have pend : h.stat.pend = true := by
            simpa [Stat.any_started, unmatched] using called
          refine .inr ⟨pend, accepted, ?_⟩
          split at call
          next => cases call
          next => cases call
          next mode => exact .inl mode
          next mode =>
            split at call
            next full => exact .inr ⟨mode, full⟩
            next => cases call

/-- `MPI_Request_free` of a send that is not both persistent and left behind by its sender. -/
theorem tmpiRequestFreeSh (inv : Inv cfg s g) (cell : s.smem a = .send h) (live : s.LiveS a)
    (idle : h.pc = .idle)
    (owned : h.handleType = .persistent → h.stat.pend = true → h.stat ≠ .pendNrdy →
      ¬ (h.mode = .buffered ∨ (h.mode = .standard ∧ h.sysBuf.isSome)))
    (call : Intra.tmpiRequestFreeSh s a h = some s') : Inv cfg s' g := by
  obtain ⟨ok, place, off, on⟩ := inv.sendOk cell
  unfold Intra.tmpiRequestFreeSh at call
  split at call
  next => cases call
  next =>
    split at call
    next unused =>
      cases call
      have settled : h.stat.settled := by
        rw [Stat.any_unused] at unused
        simp only [Bool.or_eq_true, decide_eq_true_eq] at unused
        exact unused.elim (fun stat => .inr (.inl stat)) .inl
      have away := inv.off_of_settled cell settled
      have dropped : Inv cfg (s.setS a (.send { h with held := false })) g :=
        inv.rewrite cell ⟨{ ok with }, place, off, fun active => absurd away active⟩ live
          fun done => ⟨done, rfl, rfl, rfl⟩
      exact dropped.freeS (Function.update_self ..) away rfl idle live
    next =>
      split at call
      next => cases call
      next =>
        cases test : Intra.tmpiIntraTestSh s a h with
        | none =>
            rw [test] at call
            cases call
        | some result =>
            obtain ⟨s₁, flag⟩ := result
            have inv₁ := inv.tmpiIntraTestSh cell live idle test
            rw [test] at call
            dsimp only [bind, Option.bind] at call
            split at call
            next completed =>
              rcases test_completes test completed.1 with ⟨done, s₂, chan, rfl⟩ | ⟨pend, accepted, leaves⟩
              · have away := inv.off_of_settled cell
                  (by rcases done with done | done <;> simp [done, Stat.settled])
                have cell₁ : (Intra.finishSh s₂ a h).smem a = .send { h with
                    stat := .free, errval := .success, pc := .idle, curdata := .userBuf
                    buflen := h.len } := by
                  simp [Intra.finishSh, completed.2, Sys.setS]
                have live₁ : (Intra.finishSh s₂ a h).LiveS a := by
                  rw [Intra.finishSh, if_neg (by simp [completed.2])]
                  rwa [liveS_congr (s := s) fun c => by rw [← chan]; rfl]
                rw [cell₁] at call
                cases call
                obtain ⟨ok₁, place₁, off₁, -⟩ := inv₁.sendOk cell₁
                refine freeS (inv₁.rewrite cell₁ ?_ live₁ (by simp)) (Function.update_self ..) away rfl
                  rfl live₁
                exact ⟨{ ok₁ with }, place₁, off₁, fun active => absurd away active⟩
              · exact absurd leaves (owned completed.2 pend accepted)
            next =>
              cases call
              exact inv₁

theorem writeBuf (inv : Inv cfg s g) (cell : s.smem a = .send h) {data : Buffer}
    (call : Intra.writeBuf s a data h = some s') : Inv cfg s' g := by
  obtain ⟨ok, place, off, on⟩ := inv.sendOk cell
  unfold Intra.writeBuf at call
  split at call
  next may =>
    cases call
    obtain ⟨stats, len⟩ := may
    have used : SendUsed (.send { h with userBuf := data }) (g.send a) → s.LiveS a := fun used =>
      inv.sends.live a (by rw [cell]; exact used)
    refine inv.reput cell ⟨{ ok with userLen := len }, place, off, fun active => ?_⟩ used
      fun done => ⟨done, rfl, rfl, rfl⟩
    obtain ⟨agrees, admits⟩ := on active
    have stat : h.stat = .pendRels := by
      rcases stats with stat | stat | stat
      · exact absurd (inv.off_of_settled cell (.inl stat)) active
      · exact absurd (inv.off_of_settled cell (.inr (.inl stat))) active
      · exact stat
    refine ⟨{ agrees with bytes := agrees.bytes.imp_left ?_ }, admits⟩
    rintro ⟨cur, user, zero⟩
    -- a sender that left its own buffer behind sent nothing
    have none : h.len = 0 := zero stat
    have nil : data = [] := List.eq_nil_of_length_eq_zero (len.trans none)
    have nil' : (g.job a).data = [] := List.eq_nil_of_length_eq_zero (agrees.len.symm.trans none)
    exact ⟨cur, nil.trans nil'.symm, zero⟩
  next => cases call

/-! ## Wait, test, cancel and release of a receive -/

theorem liveR_of_held (inv : Inv cfg s g) (held : (s.rmem b).held = true ∨ (s.rmem b).pc ≠ .idle) :
    s.LiveR b := inv.recvs.live b (.inr held)

theorem off_of_matched (inv : Inv cfg s g) (matched : (s.rmem b).stat = .matched) :
    g.recv b = .off ∧ Delivered s.log (s.trace b.owner) (s.rmem b).inst (s.rmem b).peer
      (s.rmem b).status (s.rmem b).data := by
  have ok := inv.recvs.ok b
  cases place : g.recv b <;> rw [place] at ok <;> simp only [RPlaceOk, matched] at ok
  case off => exact ⟨rfl, by simpa using ok.2⟩
  all_goals simp at ok

theorem putFree (inv : Inv cfg s g) (off : g.recv b = .off) (live : s.LiveR b) {r : RHandle}
    (ok : RHandleOk b r) (free : r.stat = .free) (idle : r.pc = .idle) :
    Inv cfg (s.setR b r) g := by
  refine inv.rewriteR ok ?_ live
  rw [off]
  exact ⟨by simp [idle], .inr (.inl free)⟩

theorem dropRh (inv : Inv cfg s g) (matched : (s.rmem b).stat = .matched) (live : s.LiveR b) :
    Inv cfg (Intra.finishRh s b (s.rmem b)) g :=
  finishRh (inv.off_of_matched matched).1 (inv.recvs.handle b)
    (fun _ ok free idle => inv.putFree (inv.off_of_matched matched).1 live ok free idle) live

theorem completeRh (inv : Inv cfg s g) (matched : (s.rmem b).stat = .matched) (live : s.LiveR b) :
    Inv cfg (Intra.completeRh s b (s.rmem b)) g :=
  (inv.recordReceived (inv.off_of_matched matched).2).dropRh matched live

theorem tmpiIntraWaitRh (inv : Inv cfg s g) (live : s.LiveR b) (idle : (s.rmem b).pc = .idle) :
    Inv cfg (Intra.tmpiIntraWaitRh s b (s.rmem b)) g := by
  unfold Intra.tmpiIntraWaitRh
  simp only [Stat.any_posted]
  split
  next => exact inv.record rfl
  next called =>
    split
    next matched => exact inv.completeRh matched live
    next unmatched =>
      have ok := inv.recvs.handle b
      have place := inv.recvs.ok b
      have awake : (s.rmem b).stat ≠ .pendWait ∧ (s.rmem b).stat ≠ .pendDwat := by
        constructor <;> intro stat <;> simpa [idle] using ok.blocked (by simp [stat])
      refine inv.rewriteR ?_ ?_ live
      · exact
          { ok with
            fresh := by
              dsimp only
              split <;> simp
            blocked := by simp
            waiting := fun _ => by
              dsimp only
              split <;> simp
            notReady := by simp }
      · cases at_ : g.recv b <;> rw [at_] at place
        case off =>
          rcases place.2 with stat | stat | ⟨stat, -⟩
          · simp [stat, Stat.pend, Stat.any, Stat.bits] at called
          · simp [stat, Stat.pend, Stat.any, Stat.bits] at called
          · exact absurd stat unmatched
        case queue =>
          have stat : (s.rmem b).stat = .pendStrt := place.2.1.resolve_right awake.1
          exact ⟨by simp, by simp [stat], { place.2.2 with }⟩
        case starting a => exact absurd place.1 (by simp [idle])
        case awaiting a =>
          have stat : (s.rmem b).stat = .pendData := place.2.1.resolve_right awake.2
          exact ⟨by simp, by simp [stat], { place.2.2 with }⟩

theorem wakeRh (inv : Inv cfg s g) (call : Intra.wakeRh s b (s.rmem b) = some s') : Inv cfg s' g := by
  unfold Intra.wakeRh at call
  split at call
  next awake =>
    cases call
    exact inv.completeRh awake.2 (inv.liveR_of_held (.inr (by simp [awake.1])))
  next => cases call

theorem tmpiIntraTestRh (inv : Inv cfg s g) (live : s.LiveR b) :
    Inv cfg (Intra.tmpiIntraTestRh s b (s.rmem b)).1 g := by
  unfold Intra.tmpiIntraTestRh
  split
  next => exact inv.record rfl
  next =>
    split
    next matched => exact inv.completeRh matched live
    next => exact inv

theorem tmpiIntraCancelRh (inv : Inv cfg s g) (live : s.LiveR b)
    (done : (s.rmem b).stat.pend = false) :
    Inv cfg (Intra.tmpiIntraCancelRh s b (s.rmem b)) g := by
  unfold Intra.tmpiIntraCancelRh
  simp only [Stat.any_posted, Stat.any_dropped, done, Bool.false_or]
  by_cases matched : (s.rmem b).stat = .matched
  · simpa [matched] using inv.dropRh matched live
  · simpa [matched] using inv.record rfl

theorem tmpiRequestFreeRh (inv : Inv cfg s g) (live : s.LiveR b) (idle : (s.rmem b).pc = .idle)
    (call : Intra.tmpiRequestFreeRh s b (s.rmem b) = some s') : Inv cfg s' g := by
  have ok := inv.recvs.handle b
  have place := inv.recvs.ok b
  unfold Intra.tmpiRequestFreeRh at call
  split at call
  next unused =>
    cases call
    rw [Stat.any_unused] at unused
    simp only [Bool.or_eq_true, decide_eq_true_eq] at unused
    have off : g.recv b = .off := by
      cases at_ : g.recv b <;> rw [at_] at place
      case starting a => exact absurd place.1 (by simp [idle])
      all_goals
        have stats := place.2.1
        rcases unused with stat | stat <;> simp [stat] at stats
    have dropped : Inv cfg (s.setR b { s.rmem b with held := false }) g := by
      refine inv.rewriteR { ok with } ?_ live
      rw [off] at place ⊢
      exact place
    exact dropped.freeR off (by simp [Sys.setR]) (by simpa [Sys.setR] using idle) live
  next =>
    split at call
    next => cases call
    next called =>
      have tested := inv.tmpiIntraTestRh live
      dsimp only at call
      split at call
      next completed =>
        cases call
        have matched : (s.rmem b).stat = .matched := by
          by_contra unmatched
          simp [Intra.tmpiIntraTestRh, unmatched] at completed
          split at completed <;> simp at completed
        set t := (Intra.tmpiIntraTestRh s b (s.rmem b)).1 with result
        have reset : t = (s.record (.received (s.rmem b).inst (s.rmem b).peer (s.rmem b).status
            (s.rmem b).data)).setR b { s.rmem b with
              stat := .free, errval := .success, pc := .idle, tag := (s.rmem b).permTag
              src := (s.rmem b).permSource, buflen := (s.rmem b).permLen } := by
          simp [result, Intra.tmpiIntraTestRh, Intra.completeRh, Intra.finishRh, completed.2,
            matched, Stat.any_posted]
        have idle' : (t.rmem b).pc = .idle := by simp [reset, Sys.setR]
        have free : (t.rmem b).stat = .free := by simp [reset, Sys.setR]
        have live' : t.LiveR b := by
          rw [reset]
          exact live
        have off := (inv.off_of_matched matched).1
        have dropped := tested.putFree (r := { t.rmem b with held := false }) off live'
          { tested.recvs.handle b with } free idle'
        exact dropped.freeR off (by simp [Sys.setR]) (by simpa [Sys.setR] using idle') live'
      next =>
        cases call
        exact tested

end Inv

end Tmpi.Intra
