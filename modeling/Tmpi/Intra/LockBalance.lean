import Tmpi.Intra.Completion
import Tmpi.Intra.Locks

/-! Which calls give back every mutex they lock. -/

namespace Tmpi.Intra.Locks

open Locking (Op Hold Balanced Clears)

variable {env : Env} {a b : Addr} {h : SHandle} {r : RHandle} {path : Path}

/-! ## Regions -/

theorem free_clears (env : Env) (rank : Int) (m : Mutex) : Clears m .free (free env rank m) := by
  unfold free
  split
  · exact .destroy
  · exact .nil

theorem finishSh_clears (env : Env) (a : Addr) (h : SHandle) :
    Clears (.send a) .held (finishSh env a h) := by
  unfold finishSh
  split
  · exact (free_clears env h.src (.send a)).relock
  · exact .unlock

theorem finishRh_clears (env : Env) (b : Addr) (r : RHandle) :
    Clears (.recv b) .held (finishRh env b r) := by
  unfold finishRh
  split
  · exact (free_clears env r.dest (.recv b)).relock
  · exact .unlock

theorem condLoop_waits {H : Type} {m : Mutex} {again : H → Bool} {wakes later : List H} {waits : Path}
    {last : H} (loop : condLoop m again wakes = some (waits, last, later)) :
    ∃ n, waits = List.replicate n (.wait m) := by
  induction wakes generalizing waits with
  | nil => cases loop
  | cons h wakes ih =>
      unfold condLoop at loop
      split at loop
      · obtain ⟨⟨front, rest⟩, inner, equal⟩ := Option.map_eq_some_iff.mp loop
        obtain ⟨rfl, rfl⟩ := Prod.mk.inj equal
        obtain ⟨n, rfl⟩ := ih inner
        exact ⟨n + 1, rfl⟩
      · obtain ⟨rfl, -⟩ := Prod.mk.inj (Option.some.inj loop)
        exact ⟨1, rfl⟩

theorem condLoop_clears {H : Type} {m : Mutex} {again : H → Bool} {wakes later : List H} {waits rest : Path}
    {last : H} (loop : condLoop m again wakes = some (waits, last, later))
    (clears : Clears m .held rest) : Clears m .held (waits ++ rest) := by
  obtain ⟨n, rfl⟩ := condLoop_waits loop
  exact clears.waits n

/-! ## Waits -/

theorem interSync_clears {wakes : List SHandle} (returns : interSync env a wakes = some path) :
    Clears (.send a) .held path := by
  obtain ⟨⟨waits, h, later⟩, loop, rfl⟩ := Option.map_eq_some_iff.mp returns
  exact condLoop_clears loop (finishSh_clears env a h)

theorem intraSync_clears {wakes : List SHandle} (returns : intraSync env a wakes = some path) :
    Clears (.send a) .held path := by
  obtain ⟨⟨waits, h, later⟩, loop, rfl⟩ := Option.map_eq_some_iff.mp returns
  exact condLoop_clears loop (finishSh_clears env a h)

theorem interWaitRest_clears {wakes : List SHandle} (returns : interWaitRest env a h wakes = some path) :
    Clears (.send a) .held path := by
  unfold interWaitRest at returns
  split at returns
  · exact Option.some.inj returns ▸ finishSh_clears env a h
  · split at returns
    · exact Option.some.inj returns ▸ finishSh_clears env a h
    · split at returns
      · exact interSync_clears returns
      · exact interSync_clears returns
      · exact Option.some.inj returns ▸ .unlock
      · split at returns
        · exact Option.some.inj returns ▸ .unlock
        · exact interSync_clears returns

theorem tmpiInterWaitSh_balanced {seen : Stat} {wakes : List SHandle}
    (returns : tmpiInterWaitSh env a seen h wakes = some path) : Balanced path := by
  unfold tmpiInterWaitSh at returns
  split at returns
  · exact Option.some.inj returns ▸ .nil
  · split at returns
    · obtain ⟨⟨waits, last, later⟩, loop, rest⟩ := Option.bind_eq_some_iff.mp returns
      obtain ⟨rest, ends, rfl⟩ := Option.map_eq_some_iff.mp rest
      exact (condLoop_clears loop (interWaitRest_clears ends)).lock.balanced
    · obtain ⟨rest, ends, rfl⟩ := Option.map_eq_some_iff.mp returns
      exact (interWaitRest_clears ends).lock.balanced

theorem tmpiIntraWaitSh_balanced {sh : Option Addr} {seen : Stat} {wakes : List SHandle}
    (returns : tmpiIntraWaitSh env sh seen h wakes = some path) : Balanced path := by
  unfold tmpiIntraWaitSh at returns
  split at returns
  · exact Option.some.inj returns ▸ .nil
  · next a =>
    split at returns
    · exact tmpiInterWaitSh_balanced returns
    · split at returns
      · exact Option.some.inj returns ▸ .nil
      · obtain ⟨rest, ends, rfl⟩ := Option.map_eq_some_iff.mp returns
        refine Clears.balanced (Clears.lock ?_)
        split at ends
        · exact Option.some.inj ends ▸ finishSh_clears env a h
        · split at ends
          · exact intraSync_clears ends
          · exact Option.some.inj ends ▸ .unlock
          · exact Option.some.inj ends ▸ finishSh_clears env a h
          · split at ends
            · exact Option.some.inj ends ▸ .unlock
            · exact intraSync_clears ends

theorem tmpiIntraWaitRh_balanced {rh : Option Addr} {seen : Stat} {wakes : List RHandle}
    (returns : tmpiIntraWaitRh env rh seen r wakes = some path) : Balanced path := by
  unfold tmpiIntraWaitRh at returns
  split at returns
  · exact Option.some.inj returns ▸ .nil
  · next b =>
    split at returns
    · exact Option.some.inj returns ▸ .nil
    · split at returns
      · exact Option.some.inj returns ▸ (finishRh_clears env b r).lock.balanced
      · obtain ⟨⟨waits, last, later⟩, loop, rfl⟩ := Option.map_eq_some_iff.mp returns
        exact (condLoop_clears loop (finishRh_clears env b last)).lock.balanced

/-! ## Starts and cancels -/

/-- The region of a receive that a send or a message has found in a queue. -/
theorem found_balanced (found : Option Addr) (rank : Int) :
    Balanced (.lock (.channel rank) ::
      (match found with
        | none => []
        | some b => [.lock (.recv b), .unlock (.recv b)] : Path) ++ [.unlock (.channel rank)]) := by
  cases found with
  | none => exact Clears.unlock.lock.balanced
  | some b => exact Clears.within (Clears.unlock (m := Mutex.recv b)).lock (by simp)

theorem tmpiIntraStartSh_balanced (env : Env) (sh : Option SHandle) (found : Option Addr) :
    Balanced (tmpiIntraStartSh env sh found) := by
  unfold tmpiIntraStartSh
  split
  · exact .nil
  · split
    · exact .nil
    · split
      · exact .nil
      · split
        · exact .nil
        · split
          · exact .nil
          · exact found_balanced found _

/-- The region of a send that a receive has found, which it may be the last to need. -/
theorem startRh_clears (env : Env) (a : Addr) (sh : SHandle) : Clears (.send a) .free
    (.lock (.send a) ::
      if sh.stat = .pendRels then
        if sh.handleType = .persistent then [.unlock (.send a)]
        else .unlock (.send a) :: free env sh.src (.send a)
      else [.unlock (.send a)]) := by
  refine Clears.lock ?_
  split
  · split
    · exact .unlock
    · exact (free_clears env sh.src (.send a)).relock
  · exact .unlock

theorem tmpiIntraStartRh_balanced (env : Env) (rh : Option RHandle) (found : Option (Addr × SCell)) :
    Balanced (tmpiIntraStartRh env rh found) := by
  unfold tmpiIntraStartRh
  split
  · exact .nil
  · split
    · exact .nil
    · split
      · exact .nil
      · split
        · exact .nil
        · match found with
          | none => exact Clears.unlock.lock.balanced
          | some (a, .send sh) => exact (startRh_clears env a sh).within (by simp)
          | some (_, .remote _) => exact Clears.unlock.lock.balanced

theorem tmpiIntraCancelSh_balanced (env : Env) (sh : Option Addr) (seen : Stat) (h : SHandle) :
    Balanced (tmpiIntraCancelSh env sh seen h) := by
  unfold tmpiIntraCancelSh tmpiInterCancelSh
  split
  · exact .nil
  · next a =>
    split
    · split
      · exact .nil
      · refine Clears.balanced (Clears.lock ?_)
        split
        · exact finishSh_clears env a h
        · split
          · exact finishSh_clears env a h
          · exact .unlock
    · split
      · exact .nil
      · exact (finishSh_clears env a h).lock.balanced

theorem tmpiIntraCancelRh_balanced (env : Env) (rh : Option Addr) (seen : Stat) (r : RHandle) :
    Balanced (tmpiIntraCancelRh env rh seen r) := by
  unfold tmpiIntraCancelRh
  split
  · exact .nil
  · next b =>
    split
    · exact .nil
    · refine Clears.balanced (Clears.lock ?_)
      split
      · exact finishRh_clears env b r
      · exact .unlock

/-! ## Handlers -/

theorem tmpiRmsHandle_balanced (env : Env) (handle : RMSHandle) (found : Option Addr) :
    Balanced (tmpiRmsHandle env handle found) := by
  unfold tmpiRmsHandle
  split
  · exact .nil
  · split
    · exact .nil
    · cases found with
      | none => exact found_balanced none _
      | some b => exact found_balanced (some b) _

theorem tmpiRmdsHandle_balanced (env : Env) (handle : RMSHandle) (found : Option Addr) :
    Balanced (tmpiRmdsHandle env handle found) := tmpiRmsHandle_balanced env handle found

theorem tmpiRdsHandle_balanced (env : Env) (localRecv : Option Addr) (r : RHandle) :
    Balanced (tmpiRdsHandle env localRecv r) := by
  unfold tmpiRdsHandle
  split
  · exact .nil
  · split
    · exact .nil
    · next b =>
      refine Clears.balanced (Clears.lock ?_)
      split
      · exact .unlock
      · split
        · exact .unlock
        · split
          · split
            · exact .unlock
            · exact (free_clears env r.dest (.recv b)).relock
          · exact .unlock

theorem answerHandle_balanced (env : Env) (localSend : Option Addr) (h : SHandle)
    (pending blocked : Stat) : Balanced (answerHandle env localSend h pending blocked) := by
  unfold answerHandle
  split
  · exact .nil
  · next a =>
    refine Clears.balanced (Clears.lock ?_)
    split
    · exact .unlock
    · split
      · exact .unlock
      · split
        · exact .unlock
        · split
          · exact .unlock
          · exact (free_clears env h.src (.send a)).relock

theorem tmpiRmrHandle_balanced (env : Env) (localSend : Option Addr) :
    Balanced (tmpiRmrHandle env localSend) := by
  unfold tmpiRmrHandle
  split
  · exact .nil
  · split
    · exact .nil
    · exact Clears.unlock.lock.balanced

theorem tmpiRndyHandle_balanced (localSend : Option Addr) : Balanced (tmpiRndyHandle localSend) := by
  unfold tmpiRndyHandle
  split
  · exact .nil
  · exact Clears.unlock.lock.balanced

/-! ## Tests -/

/-- A test of the send returns 0 in `flag`, with the lock held. -/
def unready (seen : Stat) (h : SHandle) : Bool :=
  seen.any [.pendStrt, .matched, .pendNrdy, .pendData] && h.stat ≠ .matched && h.stat ≠ .pendNrdy &&
    !h.leaves

theorem tmpiIntraTestSh_unready {seen : Stat} (waits : unready seen h = true) :
    tmpiIntraTestSh env (some a) seen h = ⟨[.lock (.send a)], some false, true⟩ := by
  unfold unready SHandle.leaves at waits
  unfold tmpiIntraTestSh
  cases mode : h.mode <;> simp_all

/-- The test gives its lock back, and keeps it alive if its caller still has the handle. -/
structure Tested.Sound (test : Tested) (m : Mutex) : Prop where
  clears : Clears m .free test.path
  kept : test.kept = true → ∀ rest, Clears m .free rest → Clears m .free (test.path ++ rest)

theorem Tested.Sound.freed {test : Tested} {m : Mutex} (sound : test.Sound m) (env : Env) (rank : Int)
    (junk : Bool) : Clears m .free
      (test.path ++ if test.flag.getD junk && test.kept then free env rank m else []) := by
  cases kept : test.kept with
  | false =>
      rw [Bool.and_false, if_neg Bool.false_ne_true, List.append_nil]
      exact sound.clears
  | true =>
      refine sound.kept kept _ ?_
      split
      · exact free_clears env rank m
      · exact .nil

theorem sound_refused (m : Mutex) : Tested.Sound ⟨[], none, true⟩ m := ⟨.nil, fun _ _ clears => clears⟩

theorem sound_unlocked (m : Mutex) (flag : Option Bool) (kept : Bool) :
    Tested.Sound ⟨[.lock m, .unlock m], flag, kept⟩ m :=
  ⟨Clears.unlock.lock, fun _ _ clears => clears.relock.lock⟩

theorem sound_finishSh (env : Env) (a : Addr) (h : SHandle) (flag : Option Bool) :
    Tested.Sound ⟨.lock (.send a) :: finishSh env a h, flag, h.handleType = .persistent⟩ (.send a) := by
  refine ⟨(finishSh_clears env a h).lock, fun kept rest clears => ?_⟩
  have persistent : h.handleType = .persistent := decide_eq_true_iff.mp kept
  have same : finishSh env a h = [.unlock (.send a)] := if_neg (not_not_intro persistent)
  rw [same]
  exact clears.relock.lock

theorem sound_finishRh (env : Env) (b : Addr) (r : RHandle) (flag : Option Bool) :
    Tested.Sound ⟨.lock (.recv b) :: finishRh env b r, flag, r.handleType = .persistent⟩ (.recv b) := by
  refine ⟨(finishRh_clears env b r).lock, fun kept rest clears => ?_⟩
  have persistent : r.handleType = .persistent := decide_eq_true_iff.mp kept
  have same : finishRh env b r = [.unlock (.recv b)] := if_neg (not_not_intro persistent)
  rw [same]
  exact clears.relock.lock

theorem tmpiIntraTestSh_sound (env : Env) (a : Addr) {seen : Stat} (ready : unready seen h = false) :
    (tmpiIntraTestSh env (some a) seen h).Sound (.send a) := by
  unfold unready SHandle.leaves at ready
  unfold tmpiIntraTestSh
  dsimp only
  split
  · exact sound_refused _
  · split
    · exact sound_finishSh env a h _
    · split
      · exact sound_finishSh env a h _
      · split
        · simp_all
        · simp_all
        · exact sound_unlocked _ _ _
        · split
          · exact sound_unlocked _ _ _
          · simp_all

theorem tmpiIntraTestRh_sound (env : Env) (b : Addr) (seen : Stat) (r : RHandle) :
    (tmpiIntraTestRh env (some b) seen r).Sound (.recv b) := by
  unfold tmpiIntraTestRh
  dsimp only
  split
  · exact sound_refused _
  · split
    · exact sound_finishRh env b r _
    · exact sound_unlocked _ _ _

/-- A ready send to another machine. -/
def sample : SHandle where
  handleType := .plain
  stat := .pendStrt
  context := 7
  tag := 5
  src := 0
  dest := 1
  len := 2
  curdata := .userBuf
  buflen := 2
  mode := .ready
  userBuf := [1, 2]
  errval := .success
  sysBuf := none
  isRemote := true
  locked := false
  pc := .idle
  held := true
  inst := 0

/-! ## All calls -/

inductive Call where
  | startSh (sh : Option SHandle) (found : Option Addr)
  | startRh (rh : Option RHandle) (found : Option (Addr × SCell))
  | waitSh (sh : Option Addr) (seen : Stat) (h : SHandle) (wakes : List SHandle)
  | waitRh (rh : Option Addr) (seen : Stat) (r : RHandle) (wakes : List RHandle)
  | testSh (sh : Option Addr) (seen : Stat) (h : SHandle)
  | testRh (rh : Option Addr) (seen : Stat) (r : RHandle)
  | cancelSh (sh : Option Addr) (seen : Stat) (h : SHandle)
  | cancelRh (rh : Option Addr) (seen : Stat) (r : RHandle)
  | freeSh (sh : Option Addr) (first seen : Stat) (h : SHandle) (junk : Bool)
  | freeRh (rh : Option Addr) (first seen : Stat) (r : RHandle) (junk : Bool)
  | rms (handle : RMSHandle) (found : Option Addr)
  | rmds (handle : RMSHandle) (found : Option Addr)
  | rds (localRecv : Option Addr) (r : RHandle)
  | rmr (localSend : Option Addr)
  | rdr (localSend : Option Addr) (h : SHandle)
  | rmdr (localSend : Option Addr) (h : SHandle)
  | rndy (localSend : Option Addr)

/-- `none` while a wait has not returned. -/
def Call.ops (env : Env) : Call → Option Path
  | .startSh sh found => some (tmpiIntraStartSh env sh found)
  | .startRh rh found => some (tmpiIntraStartRh env rh found)
  | .waitSh sh seen h wakes => tmpiIntraWaitSh env sh seen h wakes
  | .waitRh rh seen r wakes => tmpiIntraWaitRh env rh seen r wakes
  | .testSh sh seen h => some (tmpiIntraTestSh env sh seen h).path
  | .testRh rh seen r => some (tmpiIntraTestRh env rh seen r).path
  | .cancelSh sh seen h => some (tmpiIntraCancelSh env sh seen h)
  | .cancelRh rh seen r => some (tmpiIntraCancelRh env rh seen r)
  | .freeSh sh first seen h junk => some (tmpiRequestFreeSh env sh first seen h junk)
  | .freeRh rh first seen r junk => some (tmpiRequestFreeRh env rh first seen r junk)
  | .rms handle found => some (tmpiRmsHandle env handle found)
  | .rmds handle found => some (tmpiRmdsHandle env handle found)
  | .rds localRecv r => some (tmpiRdsHandle env localRecv r)
  | .rmr localSend => some (tmpiRmrHandle env localSend)
  | .rdr localSend h => some (tmpiRdrHandle env localSend h)
  | .rmdr localSend h => some (tmpiRmdrHandle env localSend h)
  | .rndy localSend => some (tmpiRndyHandle localSend)

/-- The call tests a send that is pending and not refused, and that its sender may not leave. -/
def Call.keepsLock : Call → Bool
  | .testSh sh seen h => sh.isSome && unready seen h
  | .freeSh sh first seen h _ => sh.isSome && !first.any [.free, .create] && unready seen h
  | _ => false

theorem testSh_balanced_iff (env : Env) (sh : Option Addr) (seen : Stat) (h : SHandle) :
    Balanced (tmpiIntraTestSh env sh seen h).path ↔ (Call.testSh sh seen h).keepsLock = false := by
  cases sh with
  | none => exact ⟨fun _ => rfl, fun _ => .nil⟩
  | some a =>
      rw [Call.keepsLock, Option.isSome_some, Bool.true_and]
      cases waits : unready seen h with
      | false => exact ⟨fun _ => rfl, fun _ => (tmpiIntraTestSh_sound env a waits).clears.balanced⟩
      | true =>
          rw [tmpiIntraTestSh_unready waits]
          exact ⟨fun balanced => absurd balanced (Locking.not_balanced rfl (Function.update_self _ _ _)), nofun⟩

theorem freeSh_balanced_iff (env : Env) (sh : Option Addr) (first seen : Stat) (h : SHandle)
    (junk : Bool) : Balanced (tmpiRequestFreeSh env sh first seen h junk) ↔
      (Call.freeSh sh first seen h junk).keepsLock = false := by
  cases sh with
  | none => exact ⟨fun _ => rfl, fun _ => .nil⟩
  | some a =>
      rw [Call.keepsLock, Option.isSome_some, Bool.true_and]
      unfold tmpiRequestFreeSh
      dsimp only
      cases unused : first.any [.free, .create] with
      | true => exact ⟨fun _ => rfl, fun _ => (free_clears env h.src (.send a)).relock.lock.balanced⟩
      | false =>
          rw [if_neg Bool.false_ne_true, Bool.not_false, Bool.true_and]
          cases waits : unready seen h with
          | false =>
              have sound := tmpiIntraTestSh_sound env a waits
              exact ⟨fun _ => rfl, fun _ => (sound.freed env h.src junk).relock.lock.balanced⟩
          | true =>
              rw [tmpiIntraTestSh_unready waits]
              refine ⟨fun balanced => absurd balanced ?_, nofun⟩
              exact Locking.not_balanced (m := .send a) (by simp [Locking.run, Op.run]; rfl) (by simp)

theorem tmpiRequestFreeRh_balanced (env : Env) (rh : Option Addr) (first seen : Stat) (r : RHandle)
    (junk : Bool) : Balanced (tmpiRequestFreeRh env rh first seen r junk) := by
  unfold tmpiRequestFreeRh
  split
  · exact .nil
  · next b =>
    split
    · exact (free_clears env r.dest (.recv b)).relock.lock.balanced
    · have sound := tmpiIntraTestRh_sound env b seen r
      exact (sound.freed env r.dest junk).relock.lock.balanced

/-- A call gives back exactly what it locks unless it is such a test. -/
theorem lock_balance_iff (env : Env) (call : Call) (path : Path) (returns : call.ops env = some path) :
    Balanced path ↔ call.keepsLock = false := by
  have always : Balanced path → call.keepsLock = false →
      (Balanced path ↔ call.keepsLock = false) := fun balanced free => ⟨fun _ => free, fun _ => balanced⟩
  cases call with
  | testSh sh seen h => exact Option.some.inj returns ▸ testSh_balanced_iff env sh seen h
  | freeSh sh first seen h junk =>
      exact Option.some.inj returns ▸ freeSh_balanced_iff env sh first seen h junk
  | waitSh => exact always (tmpiIntraWaitSh_balanced returns) rfl
  | waitRh => exact always (tmpiIntraWaitRh_balanced returns) rfl
  | startSh sh found => exact always (Option.some.inj returns ▸ tmpiIntraStartSh_balanced env sh found) rfl
  | startRh rh found => exact always (Option.some.inj returns ▸ tmpiIntraStartRh_balanced env rh found) rfl
  | testRh rh seen r =>
      refine always (Option.some.inj returns ▸ ?_) rfl
      cases rh with
      | none => exact .nil
      | some b => exact (tmpiIntraTestRh_sound env b seen r).clears.balanced
  | cancelSh sh seen h =>
      exact always (Option.some.inj returns ▸ tmpiIntraCancelSh_balanced env sh seen h) rfl
  | cancelRh rh seen r =>
      exact always (Option.some.inj returns ▸ tmpiIntraCancelRh_balanced env rh seen r) rfl
  | freeRh rh first seen r junk =>
      exact always (Option.some.inj returns ▸ tmpiRequestFreeRh_balanced env rh first seen r junk) rfl
  | rms handle found =>
      exact always (Option.some.inj returns ▸ tmpiRmsHandle_balanced env handle found) rfl
  | rmds handle found =>
      exact always (Option.some.inj returns ▸ tmpiRmdsHandle_balanced env handle found) rfl
  | rds localRecv r =>
      exact always (Option.some.inj returns ▸ tmpiRdsHandle_balanced env localRecv r) rfl
  | rmr localSend => exact always (Option.some.inj returns ▸ tmpiRmrHandle_balanced env localSend) rfl
  | rdr localSend h =>
      exact always (Option.some.inj returns ▸ answerHandle_balanced env localSend h _ _) rfl
  | rmdr localSend h =>
      exact always (Option.some.inj returns ▸ answerHandle_balanced env localSend h _ _) rfl
  | rndy localSend => exact always (Option.some.inj returns ▸ tmpiRndyHandle_balanced localSend) rfl

/-- A wait for a ready send that wakes up twice before it has been received. -/
def twoWakes : Call :=
  .waitSh (some ⟨0, 0⟩) .pendStrt sample [sample, { sample with stat := .matched }]

theorem lock_balance_wait : ∃ path, twoWakes.ops ⟨fun _ => true, true⟩ = some path ∧ path.length = 5 ∧
    Balanced path :=
  ⟨_, rfl, rfl, (lock_balance_iff _ twoWakes _ rfl).mpr rfl⟩

/-- A test of a synchronous send that nobody has received returns with its lock. -/
theorem test_keeps_lock : ∃ s h, follow ⟨fun _ => 0, 4, by decide⟩ (fun _ _ => true)
    (boot ⟨fun _ => 0, 4, by decide⟩)
    [.initSh 7 0 1 5 [1, 2] .sync false true true, .startSh ⟨0, 0⟩ true] = some s ∧
    s.smem ⟨0, 0⟩ = .send h ∧ h.held = true ∧ h.pc = .idle ∧
    ¬ Balanced (tmpiIntraTestSh ⟨fun _ => true, true⟩ (some ⟨0, 0⟩) h.stat h).path := by
  refine ⟨_, _, rfl, rfl, rfl, rfl, ?_⟩
  rw [tmpiIntraTestSh_unready rfl]
  exact Locking.not_balanced rfl (Function.update_self _ _ _)

end Tmpi.Intra.Locks
