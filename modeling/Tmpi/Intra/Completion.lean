import Tmpi.Intra.Ownership

/-! `tmpi_intra_test_sh` against `tmpi_intra_wait_sh`, on the same handle at the same time. -/

namespace Tmpi.Intra

variable {s s' : Sys} {a : Addr} {h : SHandle}

/-- The owner of the send is not inside a call on it. -/
def Sys.returned (s : Sys) (a : Addr) : Bool := (s.smem a).sendAnd fun h => h.pc = .idle

/-- The test completes a send whenever the wait would not block, with the same outcome: the
return code, the status and all that is left of the handle. -/
structure Tested (s : Sys) (a : Addr) (h : SHandle) : Prop where
  same : ∀ s', tmpiIntraWaitSh s a h = some s' → s'.returned a = true →
    tmpiIntraTestSh s a h = some (s', true)
  ready : ∀ s', tmpiIntraTestSh s a h = some (s', true) →
    ∃ s'', tmpiIntraWaitSh s a h = some s'' ∧ s''.returned a = true

/-- The wait finds a buffer to copy an empty message to, the test does not. -/
def SHandle.emptyCopy (h : SHandle) : Bool :=
  (h.mode = .buffered ∨ h.mode = .standard) && h.curdata = .userBuf && h.sysBuf.isSome && h.buflen = 0

/-- The lock was left by an earlier test, or the send has been matched, or it is pending, has not
been refused, is not a local ready send and has no empty message in a buffer. -/
def SHandle.testable (h : SHandle) : Bool :=
  h.locked || h.stat = .matched ||
    (h.stat ≠ .pendNrdy && !(h.mode = .ready && !h.isRemote) && !h.emptyCopy)

/-! ## What is logged and left -/

theorem finishSh_smem (s : Sys) (a : Addr) (h : SHandle) : ∃ h', (finishSh s a h).smem a = .send h' ∧
    h'.stat = .free ∧ h'.pc = .idle ∧ h'.locked = h.locked := by
  unfold finishSh
  dsimp only
  split
  · exact ⟨_, Function.update_self _ _ _, rfl, rfl, rfl⟩
  · exact ⟨_, Function.update_self _ _ _, rfl, rfl, rfl⟩

theorem finishSh_returned (s : Sys) (a : Addr) (h : SHandle) : (finishSh s a h).returned a = true := by
  obtain ⟨h', cell, -, idle, -⟩ := finishSh_smem s a h
  simp [Sys.returned, cell, SCell.sendAnd, idle]

theorem leaveSh_smem (s : Sys) (a : Addr) (h : SHandle) (copies : Bool) :
    ∃ h', (leaveSh s a h copies).smem a = .send h' ∧ h'.stat = .pendRels ∧ h'.pc = .idle ∧
      h'.locked = h.locked := by
  unfold leaveSh
  dsimp only
  split
  · split
    · split
      · exact ⟨_, Function.update_self _ _ _, rfl, rfl, rfl⟩
      · exact ⟨_, Function.update_self _ _ _, rfl, rfl, rfl⟩
    · exact ⟨_, Function.update_self _ _ _, rfl, rfl, rfl⟩
  · exact ⟨_, Function.update_self _ _ _, rfl, rfl, rfl⟩

theorem leaveSh_returned (s : Sys) (a : Addr) (h : SHandle) (copies : Bool) :
    (leaveSh s a h copies).returned a = true := by
  obtain ⟨h', cell, -, idle, -⟩ := leaveSh_smem s a h copies
  simp [Sys.returned, cell, SCell.sendAnd, idle]

/-- Calls that log different codes first have different outcomes. -/
theorem finishSh_ne {e e' : Event} (differ : e ≠ e') :
    finishSh (s.record e) a h ≠ finishSh (s.record e') a h := by
  intro same
  obtain ⟨rest, log⟩ := finishSh_records s a h e
  obtain ⟨rest', log'⟩ := finishSh_records s a h e'
  rw [same, log'] at log
  exact differ (List.cons.inj (List.append_cancel_left log)).1.symm

theorem finishSh_ne_leaveSh (s₁ : Sys) (copies : Bool) : finishSh s₁ a h ≠ leaveSh s a h copies := by
  intro same
  obtain ⟨left, cell, rels, -, -⟩ := leaveSh_smem s a h copies
  obtain ⟨done, cell', free, -, -⟩ := finishSh_smem s₁ a h
  rw [same, cell] at cell'
  rw [SCell.send.inj cell', free] at rels
  cases rels

/-! ## The two calls on a started send -/

theorem setS_returned (s : Sys) (a : Addr) (h : SHandle) :
    (s.setS a (.send h)).returned a = decide (h.pc = .idle) := by
  simp [Sys.returned, Sys.setS, SCell.sendAnd]

section Calls

variable (unlocked : h.locked = false)
include unlocked

theorem wait_matched (matched : h.stat = .matched) : tmpiIntraWaitSh s a h =
    some (finishSh (s.record (.sendReturned a h.inst .success (some h.status))) a h) := by
  unfold tmpiIntraWaitSh tmpiInterWaitSh interWaitRest
  cases h.isRemote <;> simp [unlocked, matched, Stat.any_linked, Stat.any_started]

theorem test_matched (matched : h.stat = .matched) : tmpiIntraTestSh s a h =
    some (finishSh (s.record (.sendReturned a h.inst .success (some h.status))) a h, true) := by
  unfold tmpiIntraTestSh
  simp [unlocked, matched, Stat.any_started]

/-- The wait on a send that is pending, and not a refused remote one. -/
theorem wait_pending (pend : h.stat.pend = true) (taken : h.isRemote = true → h.stat ≠ .pendNrdy) :
    (h.leaves = true → tmpiIntraWaitSh s a h = some (leaveSh s a h true)) ∧
      (h.mode = .ready ∧ h.isRemote = false → tmpiIntraWaitSh s a h = some (finishSh (s.record
        (.sendReturned a h.inst .errNrdy (some { h.status with error := .errNrdy }))) a h)) ∧
      (h.leaves = false → ¬ (h.mode = .ready ∧ h.isRemote = false) →
        ∃ s', tmpiIntraWaitSh s a h = some s' ∧ s'.returned a = false) := by
  have unmatched : h.stat ≠ .matched := by
    intro matched
    rw [matched] at pend
    cases pend
  unfold tmpiIntraWaitSh tmpiInterWaitSh interWaitRest SHandle.leaves
  cases remote : h.isRemote with
  | false =>
      cases h.mode <;> cases h.sysBuf <;>
        simp [Stat.any_linked, pend, unlocked, unmatched, setS_returned]
  | true =>
      have accepted := taken remote
      cases h.mode <;> cases h.sysBuf <;>
        simp [Stat.any_started, pend, unlocked, unmatched, accepted, blockSh, setS_returned]
      all_goals split <;> simp [setS_returned]

/-- The test on a send that is pending. -/
theorem test_pending (pend : h.stat.pend = true) (accepted : h.stat ≠ .pendNrdy) :
    (h.leaves = true → tmpiIntraTestSh s a h = some (leaveSh s a h (h.buflen ≠ 0), true)) ∧
      (h.leaves = false →
        tmpiIntraTestSh s a h = some (s.setS a (.send { h with locked := true }), false)) := by
  have unmatched : h.stat ≠ .matched := by
    intro matched
    rw [matched] at pend
    cases pend
  unfold tmpiIntraTestSh SHandle.leaves
  cases h.mode <;> cases h.sysBuf <;> simp [Stat.any_started, pend, unlocked, unmatched, accepted]

/-- The test on a send that its receiver has refused. -/
theorem test_refused (refused : h.stat = .pendNrdy) : ∃ s₁ : Sys, (h.mode = .ready → s₁ = s) ∧
    tmpiIntraTestSh s a h = some (finishSh
      (s₁.record (.sendReturned a h.inst .success (some h.status))) a h, true) ∧
    (h.isRemote = true → tmpiIntraWaitSh s a h = some (finishSh (s₁.record
      (.sendReturned a h.inst .errNrdy (some { h.status with error := .errNrdy }))) a h)) := by
  refine ⟨if h.mode ≠ .ready then s.record (.fault .protocolError) else s, fun mode => if_neg (by simp [mode]),
    ?_, fun remote => ?_⟩
  · unfold tmpiIntraTestSh
    simp [Stat.any, Stat.bits, unlocked, refused]
  · unfold tmpiIntraWaitSh tmpiInterWaitSh interWaitRest
    simp [Stat.any, Stat.bits, unlocked, refused, remote]

end Calls

theorem wait_locked (started : (h.stat.pend || h.stat = .matched) = true) (locked : h.locked = true) :
    tmpiIntraWaitSh s a h = none := by
  unfold tmpiIntraWaitSh tmpiInterWaitSh
  cases h.isRemote <;> simp [Stat.any_linked, Stat.any_started, started, locked]

theorem test_locked (started : (h.stat.pend || h.stat = .matched) = true) (locked : h.locked = true) :
    tmpiIntraTestSh s a h = none := by
  unfold tmpiIntraTestSh
  simp [Stat.any_started, started, locked]

/-- A sender that leaves in a test does as in a wait, but for an empty message with a buffer. -/
theorem leaveSh_eq_iff (leaves : h.leaves = true) :
    leaveSh s a h true = leaveSh s a h (h.buflen ≠ 0) ↔ h.emptyCopy = false := by
  have mode : h.mode = .buffered ∨ h.mode = .standard := by
    rw [SHandle.leaves, decide_eq_true_iff] at leaves
    exact leaves.imp_right And.left
  by_cases empty : h.buflen = 0
  · cases place : h.curdata <;> cases buf : h.sysBuf <;>
      simp [SHandle.emptyCopy, leaveSh, mode, empty, place, buf]
    intro same
    have logs := congrArg Sys.log same
    simp [Sys.record, Sys.setS] at logs
  · simp [SHandle.emptyCopy, empty]

/-! ## When they agree -/

/-- A refused send is never completed by a test as by a wait. -/
theorem not_tested_of_refused (unlocked : h.locked = false) (refused : h.stat = .pendNrdy) :
    ¬ Tested s a h := by
  intro tested
  have pend : h.stat.pend = true := by
    rw [refused]
    rfl
  obtain ⟨s₁, mode, test, wait⟩ := test_refused (s := s) (a := a) unlocked refused
  obtain ⟨s₂, waited, returned⟩ := tested.ready _ test
  have same := tested.same s₂ waited returned
  rw [test] at same
  have equal := (Prod.mk.inj (Option.some.inj same)).1
  cases remote : h.isRemote with
  | true =>
      rw [wait remote] at waited
      rw [← Option.some.inj waited] at equal
      exact finishSh_ne (by simp) equal
  | false =>
      obtain ⟨left, unmatched, blocked⟩ := wait_pending (s := s) (a := a) unlocked pend
        fun far => absurd (remote.symm.trans far) Bool.false_ne_true
      by_cases ready : h.mode = .ready
      · rw [unmatched ⟨ready, remote⟩] at waited
        rw [mode ready, ← Option.some.inj waited] at equal
        exact finishSh_ne (by simp) equal
      · cases leaves : h.leaves with
        | true =>
            rw [left leaves] at waited
            rw [← Option.some.inj waited] at equal
            exact finishSh_ne_leaveSh _ _ equal
        | false =>
            obtain ⟨s', waits, inside⟩ := blocked leaves fun both => ready both.1
            rw [waited] at waits
            rw [← Option.some.inj waits, returned] at inside
            cases inside

theorem tested_pending_iff (unlocked : h.locked = false) (pend : h.stat.pend = true)
    (accepted : h.stat ≠ .pendNrdy) :
    Tested s a h ↔ ¬ (h.mode = .ready ∧ h.isRemote = false) ∧ h.emptyCopy = false := by
  obtain ⟨left, refuses, blocked⟩ := wait_pending (s := s) (a := a) unlocked pend fun _ => accepted
  obtain ⟨copied, unready⟩ := test_pending (s := s) (a := a) unlocked pend accepted
  cases leaves : h.leaves with
  | true =>
      have patient : h.mode ≠ .ready := by
        intro ready
        simp [SHandle.leaves, ready] at leaves
      rw [← leaveSh_eq_iff (s := s) (a := a) leaves]
      refine ⟨fun tested => ⟨fun both => patient both.1, ?_⟩, fun both => ⟨fun s' waited _ => ?_, fun s' _ => ?_⟩⟩
      · have same := tested.same _ (left leaves) (leaveSh_returned _ _ _ _)
        rw [copied leaves] at same
        exact (Prod.mk.inj (Option.some.inj same)).1.symm
      · rw [left leaves] at waited
        rw [copied leaves, ← Option.some.inj waited, both.2]
      · exact ⟨_, left leaves, leaveSh_returned _ _ _ _⟩
  | false =>
      have test := unready leaves
      have full : h.emptyCopy = false := by
        rw [SHandle.leaves, decide_eq_false_iff_not] at leaves
        push Not at leaves
        unfold SHandle.emptyCopy
        cases mode : h.mode <;> simp_all
      refine ⟨fun tested => ⟨fun ready => ?_, full⟩, fun both => ⟨fun s' waited returned => ?_, fun s' tested => ?_⟩⟩
      · have same := tested.same _ (refuses ready) (finishSh_returned _ _ _)
        rw [test] at same
        exact Bool.false_ne_true (Prod.mk.inj (Option.some.inj same)).2
      · obtain ⟨s₂, waits, inside⟩ := blocked leaves both.1
        rw [waited] at waits
        rw [← Option.some.inj waits, returned] at inside
        cases inside
      · rw [test] at tested
        exact absurd (Prod.mk.inj (Option.some.inj tested)).2 Bool.false_ne_true

/-- A test of a started send agrees with a wait exactly when the send is testable. -/
theorem tested_iff (s : Sys) (a : Addr) (h : SHandle)
    (started : h.stat.any [.pendStrt, .matched, .pendNrdy, .pendData] = true) :
    Tested s a h ↔ h.testable = true := by
  rw [Stat.any_started] at started
  cases locked : h.locked with
  | true =>
      have testable : h.testable = true := by simp [SHandle.testable, locked]
      rw [testable]
      refine ⟨fun _ => rfl, fun _ => ⟨fun s' waited => ?_, fun s' tested => ?_⟩⟩
      · rw [wait_locked started locked] at waited
        cases waited
      · rw [test_locked started locked] at tested
        cases tested
  | false =>
      by_cases matched : h.stat = .matched
      · have testable : h.testable = true := by simp [SHandle.testable, matched]
        rw [testable]
        refine ⟨fun _ => rfl, fun _ => ⟨fun s' waited _ => ?_, fun s' _ => ?_⟩⟩
        · rw [wait_matched locked matched] at waited
          rw [test_matched locked matched, ← Option.some.inj waited]
        · exact ⟨_, wait_matched locked matched, finishSh_returned _ _ _⟩
      · have pend : h.stat.pend = true := by simpa [matched] using started
        by_cases refused : h.stat = .pendNrdy
        · have untestable : h.testable = false := by simp [SHandle.testable, locked, refused]
          rw [untestable]
          exact ⟨fun tested => absurd tested (not_tested_of_refused locked refused), nofun⟩
        · rw [tested_pending_iff locked pend refused]
          simp [SHandle.testable, locked, matched, refused, imp_iff_not_or]

/-- A buffered send that is pending can be completed by both. -/
theorem tested_buffered : ∃ s h, follow ⟨fun _ => 0, 4, by decide⟩ (fun _ _ => true)
    (boot ⟨fun _ => 0, 4, by decide⟩)
    [.initSh 7 0 1 5 [1, 2] .buffered false false true, .startSh ⟨0, 0⟩ true] = some s ∧
    s.smem ⟨0, 0⟩ = .send h ∧ h.stat = .pendStrt ∧ Tested s ⟨0, 0⟩ h :=
  ⟨_, _, rfl, rfl, rfl, (tested_iff _ _ _ rfl).mpr rfl⟩

/-- A ready send to another machine has been refused: a wait returns `MPI_ERR_NRDY`, a test
`MPI_SUCCESS`. -/
theorem refused_not_tested : ∃ s h, follow ⟨Int.toNat, 4, by decide⟩ (fun _ _ => true)
    (boot ⟨Int.toNat, 4, by decide⟩)
    [.initSh 7 0 1 5 [1, 2] .ready false true true, .startSh ⟨0, 0⟩ true, .deliver 0 1 true true, .respond 1,
      .deliver 1 0 true true] = some s ∧
    s.smem ⟨0, 0⟩ = .send h ∧ h.held = true ∧ h.pc = .idle ∧ h.stat = .pendNrdy ∧
    ¬ Tested s ⟨0, 0⟩ h :=
  ⟨_, _, rfl, rfl, rfl, rfl, rfl, not_tested_of_refused rfl rfl⟩

end Tmpi.Intra
