import Tmpi.Intra.LockBalance

/-! The calls and handlers of `Tmpi.Intra.Locks` are those of the system: a call destroys the mutex of
its handle exactly when it gives the handle back to the channel. -/

namespace Tmpi.Intra

variable {cfg : Config} {s s' : Sys} {a b : Addr} {h : SHandle} {r : RHandle} {m : Nat}

namespace Locks

open Locking (Op)

variable {env : Env} {seen : Stat} {path : Path}

def Destroys (path : Path) (mutex : Mutex) : Prop := Op.destroy mutex ∈ path

instance (path : Path) (mutex : Mutex) : Decidable (Destroys path mutex) :=
  inferInstanceAs (Decidable (_ ∈ _))

/-- From `s` to `s'` the pool of the channel gets the send handle exactly if the path destroys its
mutex. -/
def FreesS (path : Path) (s s' : Sys) (a : Addr) : Prop :=
  (s'.chan a.owner).spool =
    if Destroys path (.send a) then qFreeElem (s.chan a.owner).spool a.idx else (s.chan a.owner).spool

def FreesR (path : Path) (s s' : Sys) (b : Addr) : Prop :=
  (s'.chan b.owner).rpool =
    if Destroys path (.recv b) then qFreeElem (s.chan b.owner).rpool b.idx else (s.chan b.owner).rpool

theorem destroys_free {mutex : Mutex} {rank : Int} (channel : env.channel rank = true) :
    Destroys (free env rank mutex) mutex := by
  simp [Destroys, free, channel]

theorem destroys_lock {mutex other : Mutex} :
    Destroys (.lock other :: path) mutex ↔ Destroys path mutex := by
  simp [Destroys]

theorem destroys_unlock {mutex other : Mutex} :
    Destroys (.unlock other :: path) mutex ↔ Destroys path mutex := by
  simp [Destroys]

theorem destroys_wait {mutex other : Mutex} :
    Destroys (.wait other :: path) mutex ↔ Destroys path mutex := by
  simp [Destroys]

theorem not_destroys_nil {mutex : Mutex} : ¬ Destroys [] mutex := by simp [Destroys]

namespace FreesS

theorem kept (undestroyed : ¬ Destroys path (.send a))
    (same : (s'.chan a.owner).spool = (s.chan a.owner).spool) : FreesS path s s' a := by
  rw [FreesS, if_neg undestroyed, same]

theorem lock {mutex : Mutex} (frees : FreesS path s s' a) : FreesS (.lock mutex :: path) s s' a := by
  unfold FreesS
  simp only [destroys_lock]
  exact frees

theorem unlock {mutex : Mutex} (frees : FreesS path s s' a) :
    FreesS (.unlock mutex :: path) s s' a := by
  unfold FreesS
  simp only [destroys_unlock]
  exact frees

theorem wait {mutex : Mutex} (frees : FreesS path s s' a) : FreesS (.wait mutex :: path) s s' a := by
  unfold FreesS
  simp only [destroys_wait]
  exact frees

/-- Handing the element back. -/
theorem freed {cell : SCell} (channel : env.channel h.src = true) :
    FreesS (free env h.src (.send a)) s ((s.setS a cell).freeElemS a) a := by
  rw [FreesS, if_pos (destroys_free channel)]
  simp [Sys.freeElemS, Sys.setS]

theorem finishSh (channel : env.channel h.src = true) :
    FreesS (finishSh env a h) s (Intra.finishSh s a h) a := by
  unfold Locks.finishSh Intra.finishSh
  dsimp only
  split
  · exact (freed channel).unlock
  · exact .kept (by simp [Destroys]) rfl

end FreesS

theorem tmpiIntraCancelSh_frees (channel : env.channel h.src = true)
    (run : Intra.tmpiIntraCancelSh s a h = some s') :
    FreesS (tmpiIntraCancelSh env (some a) h.stat h) s s' a := by
  unfold Intra.tmpiIntraCancelSh Intra.tmpiInterCancelSh at run
  unfold tmpiIntraCancelSh tmpiInterCancelSh
  dsimp only at run ⊢
  split at run
  next isRemote =>
    rw [if_pos isRemote]
    split at run
    next refused =>
      cases run
      rw [if_pos refused]
      exact .kept not_destroys_nil rfl
    next accepted =>
      rw [if_neg accepted]
      split at run
      · cases run
      apply FreesS.lock
      split at run
      next matched =>
        cases run
        rw [if_pos matched]
        exact .finishSh channel
      next unmatched =>
        rw [if_neg unmatched]
        split at run
        next refused =>
          cases run
          rw [if_pos refused]
          split
          · exact .finishSh channel
          · exact .finishSh channel
        next waiting =>
          cases run
          rw [if_neg waiting]
          exact .kept (by simp [Destroys]) rfl
  next onMachine =>
    rw [if_neg onMachine]
    split at run
    next refused =>
      cases run
      rw [if_pos refused]
      exact .kept not_destroys_nil rfl
    next accepted =>
      rw [if_neg accepted]
      split at run
      · cases run
      cases run
      exact (FreesS.finishSh channel).lock

/-- The handlers write the end of a call with the branches the other way round. -/
theorem finishSh_eq (env : Env) (a : Addr) (h : SHandle) : finishSh env a h =
    if h.handleType = .persistent then [.unlock (.send a)]
    else .unlock (.send a) :: free env h.src (.send a) := by
  unfold finishSh
  by_cases persistent : h.handleType = .persistent
  · rw [if_neg (not_not_intro persistent), if_pos persistent]
  · rw [if_pos persistent, if_neg persistent]

theorem finishRh_eq (env : Env) (b : Addr) (r : RHandle) : finishRh env b r =
    if r.handleType = .persistent then [.unlock (.recv b)]
    else .unlock (.recv b) :: free env r.dest (.recv b) := by
  unfold finishRh
  by_cases persistent : r.handleType = .persistent
  · rw [if_neg (not_not_intro persistent), if_pos persistent]
  · rw [if_pos persistent, if_neg persistent]

theorem leaveSh_frees {copies : Bool} (undestroyed : ¬ Destroys path (.send a)) :
    FreesS path s (leaveSh s a h copies) a := by
  apply FreesS.kept undestroyed
  unfold leaveSh
  dsimp only
  split
  · split
    · split <;> rfl
    · rfl
  · rfl

/-- With the value of `flag`. -/
theorem tmpiIntraTestSh_frees {flag : Bool} (channel : env.channel h.src = true)
    (run : Intra.tmpiIntraTestSh s a h = some (s', flag)) :
    FreesS (tmpiIntraTestSh env (some a) h.stat h).path s s' a ∧
      (h.stat.any [.pendStrt, .matched, .pendNrdy, .pendData] = true →
        (tmpiIntraTestSh env (some a) h.stat h).flag = some flag) := by
  unfold Intra.tmpiIntraTestSh at run
  unfold tmpiIntraTestSh
  dsimp only at run ⊢
  split at run
  next refused =>
    cases run
    rw [if_pos refused]
    exact ⟨.kept not_destroys_nil rfl, fun accepted => by simp [accepted] at refused⟩
  next accepted =>
    rw [if_neg accepted]
    split at run
    · cases run
    split at run
    next matched =>
      cases run
      rw [if_pos matched]
      exact ⟨(FreesS.finishSh channel).lock, fun _ => rfl⟩
    next unmatched =>
      rw [if_neg unmatched]
      split at run
      next refused =>
        cases run
        rw [if_pos refused]
        refine ⟨FreesS.lock ?_, fun _ => rfl⟩
        split <;> exact .finishSh channel
      next waiting =>
        rw [if_neg waiting]
        have left : ¬ Destroys [.lock (.send a), .unlock (.send a)] (.send a) := by simp [Destroys]
        have locked : ¬ Destroys [.lock (.send a)] (.send a) := by simp [Destroys]
        cases mode : h.mode with
        | ready =>
            simp only [mode] at run
            cases run
            exact ⟨.kept locked rfl, fun _ => rfl⟩
        | sync =>
            simp only [mode] at run
            cases run
            exact ⟨.kept locked rfl, fun _ => rfl⟩
        | buffered =>
            simp only [mode] at run
            cases run
            exact ⟨leaveSh_frees left, fun _ => rfl⟩
        | standard =>
            simp only [mode] at run
            dsimp only
            split at run
            next buffered =>
              cases run
              rw [if_pos buffered]
              exact ⟨leaveSh_frees left, fun _ => rfl⟩
            next unbuffered =>
              cases run
              rw [if_neg unbuffered]
              exact ⟨.kept locked rfl, fun _ => rfl⟩

theorem interWaitRest_frees (channel : env.channel h.src = true)
    (returns : interWaitRest env a h [] = some path) :
    FreesS path s (Intra.interWaitRest s a h) a := by
  have left : ¬ Destroys [.unlock (.send a)] (.send a) := by simp [Destroys]
  unfold interWaitRest interSync condLoop at returns
  unfold Intra.interWaitRest
  split
  next matched =>
    rw [if_pos matched] at returns
    cases returns
    exact .finishSh channel
  next unmatched =>
    rw [if_neg unmatched] at returns
    split
    next refused =>
      rw [if_pos refused] at returns
      cases returns
      dsimp only
      split <;> exact .finishSh channel
    next waiting =>
      rw [if_neg waiting] at returns
      cases mode : h.mode with
      | sync => cases mode ▸ returns
      | ready => cases mode ▸ returns
      | buffered =>
          rw [mode] at returns
          cases returns
          exact leaveSh_frees left
      | standard =>
          rw [mode] at returns
          dsimp only at returns ⊢
          split
          next buffered =>
            rw [if_pos buffered] at returns
            cases returns
            exact leaveSh_frees left
          next unbuffered =>
            rw [if_neg unbuffered] at returns
            cases returns

/-- A wait that returns without blocking. -/
theorem tmpiIntraWaitSh_frees (channel : env.channel h.src = true)
    (returns : tmpiIntraWaitSh env (some a) h.stat h [] = some path)
    (run : Intra.tmpiIntraWaitSh s a h = some s') : FreesS path s s' a := by
  have left : ¬ Destroys [.lock (.send a), .unlock (.send a)] (.send a) := by simp [Destroys]
  unfold Intra.tmpiIntraWaitSh Intra.tmpiInterWaitSh at run
  unfold tmpiIntraWaitSh tmpiInterWaitSh intraSync condLoop at returns
  dsimp only at run returns
  split at run
  next isRemote =>
    rw [if_pos isRemote] at returns
    split at run
    next refused =>
      rw [if_pos refused] at returns
      cases run
      cases returns
      exact .kept not_destroys_nil rfl
    next accepted =>
      rw [if_neg accepted] at returns
      split at run
      · cases run
      split at run
      next unanswered =>
        rw [if_pos unanswered] at returns
        cases returns
      next answered =>
        rw [if_neg answered] at returns
        cases run
        obtain ⟨rest, ends, rfl⟩ := Option.map_eq_some_iff.mp returns
        exact (interWaitRest_frees channel ends).lock
  next onMachine =>
    rw [if_neg onMachine] at returns
    split at run
    next refused =>
      rw [if_pos refused] at returns
      cases run
      cases returns
      exact .kept not_destroys_nil rfl
    next accepted =>
      rw [if_neg accepted] at returns
      split at run
      · cases run
      split at run
      next matched =>
        rw [if_pos matched] at returns
        cases run
        cases returns
        exact (FreesS.finishSh channel).lock
      next unmatched =>
        rw [if_neg unmatched] at returns
        split at run
        next mode =>
          rw [mode] at returns
          cases returns
        next mode =>
          rw [mode] at returns
          cases run
          cases returns
          exact leaveSh_frees left
        next mode =>
          rw [mode] at returns
          cases run
          cases returns
          exact (FreesS.finishSh channel).lock
        next mode =>
          rw [mode] at returns
          dsimp only at returns
          split at run
          next buffered =>
            rw [if_pos buffered] at returns
            cases run
            cases returns
            exact leaveSh_frees left
          next unbuffered =>
            rw [if_neg unbuffered] at returns
            cases returns

/-- The end of a wait that has blocked, from its last wake-up on. -/
theorem wakeSh_frees (channel : env.channel h.src = true) (waiting : h.pc = .waiting)
    (returns : (if h.isRemote then interSync env a [h] else intraSync env a [h]) = some path)
    (run : wakeSh s a h = some s') : FreesS path s s' a := by
  have woken (t : Sys) (same : t.chan = s.chan) :
      FreesS (.wait (.send a) :: finishSh env a h) s (Intra.finishSh t a h) a := by
    have frees : FreesS (.wait (.send a) :: finishSh env a h) t (Intra.finishSh t a h) a :=
      (FreesS.finishSh channel).wait
    unfold FreesS at frees ⊢
    rw [← same]
    exact frees
  unfold wakeSh at run
  rw [waiting, if_neg (c := Pc.waiting = Pc.readyWait) (by decide), if_pos rfl] at run
  split at run
  · cases run
  split at run
  next isRemote =>
    rw [if_pos isRemote] at returns
    split at run
    · cases run
    next matched =>
      cases run
      have done : interSync env a [h] = some (.wait (.send a) :: finishSh env a h) := by
        simp [interSync, condLoop, not_not.mp matched]
      rw [done] at returns
      cases returns
      exact woken _ rfl
  next onMachine =>
    rw [if_neg onMachine] at returns
    split at run
    · cases run
    next answered =>
      cases run
      have done : intraSync env a [h] = some (.wait (.send a) :: finishSh env a h) := by
        simp [intraSync, condLoop, answered]
      rw [done] at returns
      cases returns
      split <;> exact woken _ rfl

/-- A test that has succeeded leaves a persistent handle, and no other, to its caller. -/
theorem tmpiIntraTestSh_kept (env : Env) (a : Addr) (seen : Stat) (h : SHandle)
    (done : (tmpiIntraTestSh env (some a) seen h).flag = some true) :
    (tmpiIntraTestSh env (some a) seen h).kept = decide (h.handleType = .persistent) := by
  unfold tmpiIntraTestSh at done ⊢
  dsimp only at done ⊢
  split at done
  · cases done
  next accepted =>
    rw [if_neg accepted]
    split at done
    next matched => rw [if_pos matched]
    next unmatched =>
      rw [if_neg unmatched]
      split at done
      next refused => rw [if_pos refused]
      next waiting =>
        rw [if_neg waiting]
        cases mode : h.mode with
        | sync => cases mode ▸ done
        | ready => cases mode ▸ done
        | buffered => rfl
        | standard =>
            rw [mode] at done
            dsimp only at done ⊢
            split at done
            next buffered => rw [if_pos buffered]
            next unbuffered => cases done

theorem tmpiIntraTestSh_persistent (env : Env) (a : Addr) (seen : Stat)
    (persistent : h.handleType = .persistent) :
    ¬ Destroys (tmpiIntraTestSh env (some a) seen h).path (.send a) := by
  have finished : finishSh env a h = [.unlock (.send a)] := if_neg (not_not_intro persistent)
  unfold tmpiIntraTestSh
  dsimp only
  rw [finished]
  split
  · simp [Destroys]
  split
  · simp [Destroys]
  split
  · simp [Destroys]
  split
  · simp [Destroys]
  · simp [Destroys]
  · simp [Destroys]
  · split <;> simp [Destroys]

theorem tmpiRequestFreeSh_frees (channel : env.channel h.src = true) (junk : Bool)
    (run : Intra.tmpiRequestFreeSh s a h = some s') :
    FreesS (tmpiRequestFreeSh env (some a) h.stat h.stat h junk) s s' a := by
  unfold Intra.tmpiRequestFreeSh at run
  unfold tmpiRequestFreeSh
  split at run
  · cases run
  dsimp only
  split at run
  next unused =>
    cases run
    rw [if_pos unused]
    exact (FreesS.freed channel).unlock.lock
  next used =>
    rw [if_neg used]
    apply FreesS.lock
    apply FreesS.unlock
    split at run
    · cases run
    next accepted =>
      have started : h.stat.any [.pendStrt, .matched, .pendNrdy, .pendData] = true := by
        simpa using accepted
      obtain ⟨⟨t, flag⟩, tested, rest⟩ := Option.bind_eq_some_iff.mp run
      obtain ⟨frees, reported⟩ := tmpiIntraTestSh_frees channel tested
      rw [reported started, Option.getD_some]
      dsimp only at rest
      by_cases last : flag = true ∧ h.handleType = .persistent
      · rw [if_pos last] at rest
        have kept := tmpiIntraTestSh_kept env a h.stat h (by rw [reported started, last.1])
        rw [kept, last.1, decide_eq_true last.2, Bool.true_and, if_pos rfl]
        have alive : (t.chan a.owner).spool = (s.chan a.owner).spool := by
          rw [FreesS, if_neg (tmpiIntraTestSh_persistent env a h.stat last.2)] at frees
          exact frees
        split at rest
        · cases rest
          have destroyed : Destroys ((tmpiIntraTestSh env (some a) h.stat h).path ++
              free env h.src (.send a)) (.send a) :=
            List.mem_append_right _ (destroys_free channel)
          rw [FreesS, if_pos destroyed, ← alive]
          simp [Sys.freeElemS, Sys.setS]
        · cases rest
      · rw [if_neg last] at rest
        cases rest
        have unkept : ¬ (flag && (tmpiIntraTestSh env (some a) h.stat h).kept) = true := by
          cases flag with
          | false => simp
          | true =>
              rw [tmpiIntraTestSh_kept env a h.stat h (reported started)]
              simpa using last
        rw [if_neg unkept, List.append_nil]
        exact frees

namespace FreesR

theorem kept (undestroyed : ¬ Destroys path (.recv b))
    (same : (s'.chan b.owner).rpool = (s.chan b.owner).rpool) : FreesR path s s' b := by
  rw [FreesR, if_neg undestroyed, same]

theorem lock {mutex : Mutex} (frees : FreesR path s s' b) : FreesR (.lock mutex :: path) s s' b := by
  unfold FreesR
  simp only [destroys_lock]
  exact frees

theorem unlock {mutex : Mutex} (frees : FreesR path s s' b) :
    FreesR (.unlock mutex :: path) s s' b := by
  unfold FreesR
  simp only [destroys_unlock]
  exact frees

theorem wait {mutex : Mutex} (frees : FreesR path s s' b) : FreesR (.wait mutex :: path) s s' b := by
  unfold FreesR
  simp only [destroys_wait]
  exact frees

theorem freed {rank : Int} {r : RHandle} (channel : env.channel rank = true) :
    FreesR (free env rank (.recv b)) s ((s.setR b r).freeElemR b) b := by
  rw [FreesR, if_pos (destroys_free channel)]
  simp [Sys.freeElemR, Sys.setR]

theorem finishRh (channel : env.channel r.dest = true) :
    FreesR (finishRh env b r) s (Intra.finishRh s b r) b := by
  unfold Locks.finishRh Intra.finishRh
  dsimp only
  split
  · exact (freed channel).unlock
  · exact .kept (by simp [Destroys]) rfl

theorem completeRh (channel : env.channel r.dest = true) :
    FreesR (Locks.finishRh env b r) s (Intra.completeRh s b r) b := by
  have frees : FreesR (Locks.finishRh env b r) (s.record (.received r.inst r.peer r.status r.data))
      (Intra.completeRh s b r) b := finishRh channel
  exact frees

end FreesR

theorem tmpiIntraCancelRh_frees (channel : env.channel r.dest = true) :
    FreesR (tmpiIntraCancelRh env (some b) r.stat r) s (Intra.tmpiIntraCancelRh s b r) b := by
  unfold Intra.tmpiIntraCancelRh tmpiIntraCancelRh
  dsimp only
  split
  · exact .kept not_destroys_nil rfl
  apply FreesR.lock
  split
  · exact .finishRh channel
  · exact .kept (by simp [Destroys]) rfl

theorem tmpiIntraTestRh_frees (channel : env.channel r.dest = true) :
    FreesR (tmpiIntraTestRh env (some b) r.stat r).path s (Intra.tmpiIntraTestRh s b r).1 b ∧
      (r.stat.any [.pendStrt, .matched, .pendData] = true →
        (tmpiIntraTestRh env (some b) r.stat r).flag = some (Intra.tmpiIntraTestRh s b r).2) := by
  unfold Intra.tmpiIntraTestRh tmpiIntraTestRh
  dsimp only
  split
  next refused => exact ⟨.kept not_destroys_nil rfl, fun accepted => by simp [accepted] at refused⟩
  split
  · exact ⟨(FreesR.completeRh channel).lock, fun _ => rfl⟩
  · exact ⟨.kept (by simp [Destroys]) rfl, fun _ => rfl⟩

/-- A wait that returns without blocking. -/
theorem tmpiIntraWaitRh_frees (channel : env.channel r.dest = true)
    (returns : tmpiIntraWaitRh env (some b) r.stat r [] = some path) :
    FreesR path s (Intra.tmpiIntraWaitRh s b r) b := by
  unfold tmpiIntraWaitRh at returns
  unfold Intra.tmpiIntraWaitRh
  dsimp only at returns
  split at returns
  next refused =>
    cases returns
    rw [if_pos refused]
    exact .kept not_destroys_nil rfl
  next accepted =>
    rw [if_neg accepted]
    split at returns
    next matched =>
      cases returns
      rw [if_pos matched]
      exact (FreesR.completeRh channel).lock
    next unmatched => cases returns

/-- The end of a wait that has blocked, from its last wake-up on. -/
theorem wakeRh_frees (channel : env.channel r.dest = true) (run : wakeRh s b r = some s') :
    FreesR (.wait (.recv b) :: finishRh env b r) s s' b := by
  unfold wakeRh at run
  split at run
  · cases run
    exact (FreesR.completeRh channel).wait
  · cases run

theorem tmpiRequestFreeRh_frees (channel : env.channel r.dest = true) (junk : Bool)
    (run : Intra.tmpiRequestFreeRh s b r = some s') :
    FreesR (tmpiRequestFreeRh env (some b) r.stat r.stat r junk) s s' b := by
  unfold Intra.tmpiRequestFreeRh at run
  unfold tmpiRequestFreeRh
  dsimp only at run ⊢
  split at run
  next unused =>
    cases run
    rw [if_pos unused]
    exact (FreesR.freed channel).unlock.lock
  next used =>
    rw [if_neg used]
    apply FreesR.lock
    apply FreesR.unlock
    split at run
    · cases run
    next accepted =>
      by_cases matched : r.stat = .matched
      · have test : tmpiIntraTestRh env (some b) r.stat r =
            ⟨.lock (.recv b) :: finishRh env b r, some true, r.handleType = .persistent⟩ := by
          simp [tmpiIntraTestRh, matched, Stat.any_posted]
        have tested : Intra.tmpiIntraTestRh s b r = (Intra.completeRh s b r, true) := by
          simp [Intra.tmpiIntraTestRh, matched, Stat.any_posted]
        rw [test, Option.getD_some, Bool.true_and]
        rw [tested] at run
        dsimp only at run
        rw [List.cons_append]
        apply FreesR.lock
        have frees := FreesR.completeRh (s := s) (b := b) channel
        by_cases persistent : r.handleType = .persistent
        · have unlocked : finishRh env b r = [.unlock (.recv b)] := if_neg (not_not_intro persistent)
          rw [unlocked] at frees ⊢
          rw [if_pos ⟨rfl, persistent⟩] at run
          rw [if_pos (decide_eq_true persistent)]
          cases run
          rw [FreesR, if_neg (by simp [Destroys])] at frees
          have destroyed : Destroys ([.unlock (.recv b)] ++ free env r.dest (.recv b)) (.recv b) :=
            List.mem_append_right _ (destroys_free channel)
          rw [FreesR, if_pos destroyed, ← frees]
          simp [Sys.freeElemR, Sys.setR]
        · rw [if_neg (fun both => persistent both.2)] at run
          rw [if_neg (by simpa using persistent), List.append_nil]
          cases run
          exact frees
      · have test : tmpiIntraTestRh env (some b) r.stat r =
            ⟨[.lock (.recv b), .unlock (.recv b)], some false, true⟩ := by
          simp_all [tmpiIntraTestRh]
        have tested : Intra.tmpiIntraTestRh s b r = (s, false) := by
          simp_all [Intra.tmpiIntraTestRh]
        rw [test]
        rw [tested] at run
        cases run
        exact .kept (by simp [Destroys]) rfl

/-! ### Handlers -/

theorem answerHandle_frees {buflen : Nat} {errval : Err} {pending blocked : Stat}
    (channel : env.channel h.src = true) (memory : s.smem a = .send h)
    (run : Intra.answerHandle cfg s m a buflen errval pending blocked = some s') :
    FreesS (answerHandle env (some a) h pending blocked) s s' a := by
  unfold Intra.answerHandle at run
  dsimp only at run
  rw [show (s.checkS cfg m a).smem a = .send h from memory] at run
  unfold answerHandle
  dsimp only at run ⊢
  split at run
  · cases run
  have unlocked : ¬ Destroys [.unlock (.send a)] (.send a) := by simp [Destroys]
  apply FreesS.lock
  split at run
  next waiting =>
    cases run
    rcases waiting with stat | stat
    · rw [if_pos stat]
      exact .kept unlocked rfl
    · rw [if_pos stat]
      split <;> exact .kept unlocked rfl
  next answered =>
    push Not at answered
    rw [if_neg answered.1, if_neg answered.2]
    split at run
    next unexpected =>
      cases run
      rw [if_pos unexpected]
      exact .kept unlocked rfl
    next released =>
      cases run
      rw [if_neg released, ← finishSh_eq]
      have frees : FreesS (finishSh env a { h with buflen, errval }) (s.checkS cfg m a)
          (Intra.finishSh (s.checkS cfg m a) a { h with buflen, errval }) a := .finishSh channel
      exact frees

theorem tmpiRdsHandle_frees {remoteSend : Addr} {sender buflen : Nat} {payload : Buffer}
    (channel : env.channel (s.rmem b).dest = true) :
    FreesR (tmpiRdsHandle env (some b) (s.rmem b)) s
      (Intra.tmpiRdsHandle cfg s sender m env.message remoteSend b buflen payload) b := by
  have unlocked : ¬ Destroys [.unlock (.recv b)] (.recv b) := by simp [Destroys]
  unfold Intra.tmpiRdsHandle tmpiRdsHandle
  dsimp only
  split
  · exact .kept not_destroys_nil rfl
  apply FreesR.lock
  have memory : (s.checkR cfg m b).rmem b = s.rmem b := rfl
  simp only [memory]
  by_cases waiting : (s.rmem b).stat = .pendData ∨ (s.rmem b).stat = .pendDwat
  · rw [if_pos waiting]
    rcases waiting with stat | stat
    · rw [if_pos stat]
      exact .kept unlocked rfl
    · rw [if_pos stat]
      split <;> exact .kept unlocked rfl
  · rw [if_neg waiting]
    push Not at waiting
    rw [if_neg waiting.1, if_neg waiting.2]
    by_cases cancelled : (s.rmem b).stat = .cancel
    · rw [if_pos cancelled, if_pos cancelled, ← finishRh_eq]
      have frees : FreesR (finishRh env b (s.rmem b)) (s.checkR cfg m b)
          (Intra.finishRh (s.checkR cfg m b) b
            { s.rmem b with buflen := min (s.rmem b).buflen buflen }) b :=
        FreesR.finishRh (r := { s.rmem b with buflen := min (s.rmem b).buflen buflen }) channel
      exact frees
    · rw [if_neg cancelled, if_neg cancelled]
      exact .kept unlocked rfl

/-- A receive that takes over a send of its machine, after the two have found each other. -/
theorem finishStartRh_frees {c : Int} (channel : env.channel h.src = true)
    (busy : (s.chan c).busy = some (b, a)) (memory : s.smem a = .send h) (run : finishStartRh s c = some s') :
    FreesS (.lock (.send a) ::
      if h.stat = .pendRels then
        if h.handleType = .persistent then [.unlock (.send a)]
        else .unlock (.send a) :: free env h.src (.send a)
      else [.unlock (.send a)]) s s' a := by
  have unlocked : ¬ Destroys [.unlock (.send a)] (.send a) := by simp [Destroys]
  have spool (t : Sys) (same : t.chan = s.chan) :
      ((t.setChan c { s.chan c with busy := none }).chan a.owner).spool = (s.chan a.owner).spool := by
    rw [Sys.setChan]
    dsimp only
    by_cases own : a.owner = c
    · rw [own, Function.update_self]
    · rw [Function.update_of_ne own, same]
  unfold finishStartRh at run
  rw [busy] at run
  dsimp only at run
  rw [memory] at run
  dsimp only at run
  apply FreesS.lock
  split at run
  · cases run
  split at run
  next waiting =>
    cases run
    have sleeping : ¬ h.stat = .pendRels := by
      rcases waiting with stat | stat
      · rw [show h.stat = _ from stat]
        decide
      · rw [show h.stat = _ from stat]
        decide
    rw [if_neg sleeping]
    exact .kept unlocked (spool _ rfl)
  next awake =>
    split at run
    next left =>
      cases run
      rw [if_pos (show h.stat = _ from left)]
      have frees (t : Sys) (same : (t.chan a.owner).spool = (s.chan a.owner).spool) (len : Nat) :
          FreesS (finishSh env a h) s
            (Intra.finishSh t a { h with buflen := len, errval := .success }) a := by
        have later : FreesS (finishSh env a h) t
            (Intra.finishSh t a { h with buflen := len, errval := .success }) a :=
          FreesS.finishSh (h := { h with buflen := len, errval := .success }) channel
        rw [FreesS, same] at later
        exact later
      rw [← finishSh_eq]
      apply frees
      exact spool _ rfl
    next other =>
      cases run
      rw [if_neg (show h.stat ≠ _ from other)]
      exact .kept unlocked (spool _ rfl)

/-! ### All calls -/

/-- A call that is made at one moment leaves the state `s'`; with the mutex of its handle. -/
inductive Took (cfg : Config) (env : Env) (s : Sys) : Call → Mutex → Sys → Prop where
  | testSh {a : Addr} {h : SHandle} {s' : Sys} {flag : Bool}
      (run : Intra.tmpiIntraTestSh s a h = some (s', flag)) :
      Took cfg env s (.testSh (some a) h.stat h) (.send a) s'
  | waitSh {a : Addr} {h : SHandle} {s' : Sys} (run : Intra.tmpiIntraWaitSh s a h = some s') :
      Took cfg env s (.waitSh (some a) h.stat h []) (.send a) s'
  | cancelSh {a : Addr} {h : SHandle} {s' : Sys} (run : Intra.tmpiIntraCancelSh s a h = some s') :
      Took cfg env s (.cancelSh (some a) h.stat h) (.send a) s'
  | freeSh {a : Addr} {h : SHandle} {s' : Sys} {junk : Bool}
      (run : Intra.tmpiRequestFreeSh s a h = some s') :
      Took cfg env s (.freeSh (some a) h.stat h.stat h junk) (.send a) s'
  | testRh {b : Addr} {r : RHandle} :
      Took cfg env s (.testRh (some b) r.stat r) (.recv b) (Intra.tmpiIntraTestRh s b r).1
  | waitRh {b : Addr} {r : RHandle} :
      Took cfg env s (.waitRh (some b) r.stat r []) (.recv b) (Intra.tmpiIntraWaitRh s b r)
  | cancelRh {b : Addr} {r : RHandle} :
      Took cfg env s (.cancelRh (some b) r.stat r) (.recv b) (Intra.tmpiIntraCancelRh s b r)
  | freeRh {b : Addr} {r : RHandle} {s' : Sys} {junk : Bool}
      (run : Intra.tmpiRequestFreeRh s b r = some s') :
      Took cfg env s (.freeRh (some b) r.stat r.stat r junk) (.recv b) s'
  | rds {b remoteSend : Addr} {sender m buflen : Nat} {payload : Buffer} :
      Took cfg env s (.rds (some b) (s.rmem b)) (.recv b)
        (Intra.tmpiRdsHandle cfg s sender m env.message remoteSend b buflen payload)
  | rdr {a : Addr} {h : SHandle} {s' : Sys} {m buflen : Nat} {errval : Err}
      (memory : s.smem a = .send h) (run : Intra.tmpiRdrHandle cfg s m a buflen errval = some s') :
      Took cfg env s (.rdr (some a) h) (.send a) s'
  | rmdr {a : Addr} {h : SHandle} {s' : Sys} {m buflen : Nat} {errval : Err}
      (memory : s.smem a = .send h) (run : Intra.tmpiRmdrHandle cfg s m a buflen errval = some s') :
      Took cfg env s (.rmdr (some a) h) (.send a) s'

def Frees (path : Path) (s s' : Sys) : Mutex → Prop
  | .send a => FreesS path s s' a
  | .recv b => FreesR path s s' b
  | .channel _ => True

/-- While the channels are there, a call destroys the mutex of its handle exactly when it gives the
handle back. -/
theorem call_frees {call : Call} {mutex : Mutex} (channels : ∀ rank, env.channel rank = true)
    (took : Took cfg env s call mutex s') (returns : call.ops env = some path) :
    Frees path s s' mutex := by
  cases took with
  | testSh run =>
      cases returns
      exact (tmpiIntraTestSh_frees (channels _) run).1
  | waitSh run => exact tmpiIntraWaitSh_frees (channels _) returns run
  | cancelSh run =>
      cases returns
      exact tmpiIntraCancelSh_frees (channels _) run
  | freeSh run =>
      cases returns
      exact tmpiRequestFreeSh_frees (channels _) _ run
  | testRh =>
      cases returns
      exact (tmpiIntraTestRh_frees (channels _)).1
  | waitRh => exact tmpiIntraWaitRh_frees (channels _) returns
  | cancelRh =>
      cases returns
      exact tmpiIntraCancelRh_frees (channels _)
  | freeRh run =>
      cases returns
      exact tmpiRequestFreeRh_frees (channels _) _ run
  | rds =>
      cases returns
      exact tmpiRdsHandle_frees (channels _)
  | rdr memory run =>
      cases returns
      exact answerHandle_frees (channels _) memory run
  | rmdr memory run =>
      cases returns
      exact answerHandle_frees (channels _) memory run

end Locks

end Tmpi.Intra
