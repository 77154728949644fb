import Tmpi.Mpi.Entries
import Mathlib.Data.List.Forall2

/-! The start of a request as `mpi_sr.c` sees it, and as a step of the system in `Tmpi.Intra`: where the
one fails so does the other, and where the one starts a request so does the other, in the same state and
with the same queues. -/

namespace Tmpi.Mpi

open Intra (Addr Config RHandle SCell SHandle Sys qFind rqCmp sqCmp)
open Netq (tmpiGrankToLrank)

/-! ## The same queue twice -/

section Queues

variable {α : Type} {R : α → Addr → Prop} {accepts : α → Bool} {accepts' : Addr → Bool}
  {xs : List α} {ys : List Addr}

theorem qFind_none (same : List.Forall₂ R xs ys) (agree : ∀ x y, R x y → accepts x = accepts' y)
    (missing : xs.find? accepts = none) : qFind accepts' ys = none := by
  induction same with
  | nil => rfl
  | cons related rest ih =>
      have step := agree _ _ related
      rw [List.find?_cons] at missing
      split at missing
      · cases missing
      next refused =>
        rw [refused] at step
        rw [qFind, ← step, if_neg Bool.false_ne_true, ih missing]
        rfl

theorem qFind_some {x : α} (same : List.Forall₂ R xs ys)
    (agree : ∀ x y, R x y → accepts x = accepts' y) (found : xs.find? accepts = some x) :
    ∃ y rest, qFind accepts' ys = some (y, rest) ∧ R x y ∧ List.Forall₂ R (xs.eraseP accepts) rest ∧
      y ∈ ys ∧ (ys.Nodup → y ∉ rest) := by
  induction same with
  | nil => cases found
  | @cons front y xs ys related rest ih =>
      have step := agree _ _ related
      rw [List.find?_cons] at found
      split at found
      next taken =>
        cases found
        rw [taken] at step
        refine ⟨y, ys, ?_, related, ?_, List.mem_cons_self, fun distinct => ?_⟩
        · rw [qFind, ← step, if_pos rfl]
        · rw [List.eraseP_cons_of_pos taken]
          exact rest
        · exact (List.nodup_cons.mp distinct).1
      next refused =>
        obtain ⟨z, left, finds, relatedZ, erased, member, away⟩ := ih found
        rw [refused] at step
        refine ⟨z, y :: left, ?_, relatedZ, ?_, List.mem_cons_of_mem _ member, fun distinct => ?_⟩
        · rw [qFind, ← step, if_neg Bool.false_ne_true, finds]
          rfl
        · rw [List.eraseP_cons_of_neg (by simp [refused])]
          exact .cons related erased
        · obtain ⟨new, distinct⟩ := List.nodup_cons.mp distinct
          rw [List.mem_cons, not_or]
          exact ⟨fun same => new (same ▸ member), away distinct⟩

/-- The elements of a queue may change elsewhere. -/
theorem forall₂_congr_mem {β : Type} {S : α → β → Prop} {f g : Addr → β}
    (same : List.Forall₂ (fun x y => S x (f y)) xs ys) (agree : ∀ y ∈ ys, g y = f y) :
    List.Forall₂ (fun x y => S x (g y)) xs ys := by
  induction same with
  | nil => exact .nil
  | cons related rest ih =>
      refine .cons ?_ (ih fun y member => agree y (List.mem_cons_of_mem _ member))
      rw [agree _ List.mem_cons_self]
      exact related

end Queues

/-! ## The same handle twice -/

/-- A send handle as `mpi_sr.c` sees it and as the system has it. -/
structure SendHandle.Shows (sh : SendHandle) (h : SHandle) : Prop where
  handleType : sh.handleType = h.handleType
  stat : sh.stat = h.stat
  envelope : sh.envelope = ⟨h.context, h.tag, h.src⟩
  dest : sh.dest = h.dest
  mode : sh.mode = h.mode
  isRemote : sh.isRemote = h.isRemote
  buflen : sh.buflen.toInt = h.buflen
  errval : sh.errval = .success ↔ h.errval = .success

structure RecvHandle.Shows (rh : RecvHandle) (r : RHandle) : Prop where
  handleType : rh.handleType = r.handleType
  stat : rh.stat = r.stat
  envelope : rh.envelope = r.envelope
  dest : rh.dest = r.dest
  buflen : rh.buflen.toInt = r.buflen
  errval : rh.errval = .success ↔ r.errval = .success

/-- The same for an element of a send queue. -/
def Parked.Shows : Parked → SCell → Prop
  | .sh h, .send h' => h.Shows h'
  | .rmsh _ stat envelope dest msgdat _, .remote rm => stat = rm.stat ∧
      envelope = ⟨rm.context, rm.tag, rm.src⟩ ∧ dest = rm.dest ∧
      msgdat = decide (rm.handleType = .msgdat)
  | _, _ => False

/-- A channel as `mpi_sr.c` sees it and as the system has it. -/
structure Channel.Shows (ch : Channel) (s : Sys) (c : Int) : Prop where
  sq : List.Forall₂ (fun p x => p.Shows (s.smem x)) ch.sq (s.chan c).sq
  rq : List.Forall₂ (fun rh b => rh.Shows (s.rmem b)) ch.rq (s.chan c).rq

theorem SendHandle.Shows.startable {sh : SendHandle} {h : SHandle} (shown : sh.Shows h) :
    (sh.stat ≠ .create ∧ (sh.stat ≠ .free ∨ sh.handleType ≠ .persistent)) ↔ (!h.startable) = true := by
  rw [shown.stat, shown.handleType, SHandle.startable]
  simp

theorem Parked.Shows.stat {p : Parked} {cell : SCell} (shown : p.Shows cell) : p.stat = cell.stat := by
  cases p with
  | sh sh =>
      cases cell with
      | send h => exact SendHandle.Shows.stat shown
      | remote rm => exact shown.elim
  | rmsh =>
      cases cell with
      | send h => exact shown.elim
      | remote rm => exact shown.1

theorem Parked.Shows.envelope {p : Parked} {cell : SCell} (shown : p.Shows cell) :
    p.envelope = cell.envelope := by
  cases p with
  | sh sh =>
      cases cell with
      | send h => exact SendHandle.Shows.envelope shown
      | remote rm => exact shown.elim
  | rmsh =>
      cases cell with
      | send h => exact shown.elim
      | remote rm => exact shown.2.1

/-! ## Starting a send -/

section Send

variable {m : Machine} {luck : Luck} {cfg : Config} {s : Sys} {sh : SendHandle} {h : SHandle} {a : Addr}

/-- A handle of the system that has got its number. -/
theorem SendHandle.Shows.started {inst : Nat} (shown : sh.Shows h) :
    SendHandle.Shows { sh with stat := .pendStrt } { h with stat := .pendStrt, inst } :=
  { shown with stat := rfl }

theorem tmpiInterStartSh_shows (shown : sh.Shows h) :
    match m.tmpiInterStartSh luck sh with
    | .failed ret => ret = .errIntern ∧ Intra.tmpiInterStartSh cfg s a luck.newMsg h =
        s.record (.sendReturned a h.inst .errIntern none)
    | .started sh' _ m' => m' = m ∧
        ∃ h', (Intra.tmpiInterStartSh cfg s a luck.newMsg h).smem a = .send h' ∧ sh'.Shows h' := by
  unfold Machine.tmpiInterStartSh Intra.tmpiInterStartSh
  by_cases used : (!h.startable) = true
  · rw [if_pos (shown.startable.mpr used), if_pos used]
    exact ⟨rfl, rfl⟩
  rw [if_neg (mt shown.startable.mp used), if_neg used]
  cases available : luck.newMsg with
  | false => exact ⟨rfl, rfl⟩
  | true =>
      rw [if_neg (by decide), if_neg (by decide)]
      refine ⟨rfl, { h with stat := .pendStrt, inst := s.clock }, ?_, shown.started⟩
      dsimp only
      split
      · exact Function.update_self ..
      · exact Function.update_self ..

/-- The shorter of two buffers. -/
theorem shows_min {rh : RecvHandle} {r : RHandle} (sends : sh.Shows h) (receives : rh.Shows r) :
    (if sh.buflen.toInt < rh.buflen.toInt then sh.buflen else rh.buflen).toInt =
      (min h.buflen r.buflen : Nat) := by
  have left := sends.buflen
  have right := receives.buflen
  split <;> omega

/-- A start of a send fails or succeeds in both models, and what it leaves on the channel of its
destination is the same. -/
theorem tmpiIntraStartSh_shows {ch : Channel} (shown : sh.Shows h) (here : h.isRemote = false)
    (channel : m.tmpiIntraGetChannel (tmpiGrankToLrank m.info sh.dest) = some ch)
    (shows : ch.Shows s h.dest) (unlocked : (s.chan h.dest).busy = none)
    (distinct : (s.chan h.dest).rq.Nodup) (fresh : a ∉ (s.chan h.dest).sq) :
    match m.tmpiIntraStartSh luck (some sh) with
    | .failed ret => ret = .errIntern ∧ Intra.tmpiIntraStartSh cfg s a luck.newMsg h =
        some (s.record (.sendReturned a h.inst .errIntern none))
    | .started sh' _ m' => ∃ s' h' ch', Intra.tmpiIntraStartSh cfg s a luck.newMsg h = some s' ∧
        s'.smem a = .send h' ∧ sh'.Shows h' ∧
        m'.tmpiIntraGetChannel (tmpiGrankToLrank m.info sh.dest) = some ch' ∧ ch'.Shows s' h.dest := by
  unfold Machine.tmpiIntraStartSh Intra.tmpiIntraStartSh
  dsimp only
  by_cases failed : h.errval ≠ .success
  · rw [if_pos (mt shown.errval.mp failed), if_pos failed]
    exact ⟨rfl, rfl⟩
  have onMachine : ¬ h.isRemote = true := by simp [here]
  have free : ¬ (s.chan h.dest).busy.isSome = true := by simp [unlocked]
  rw [if_neg (not_not.mpr (shown.errval.mpr (not_not.mp failed))), if_neg failed,
    if_neg (shown.isRemote ▸ onMachine), if_neg onMachine]
  by_cases used : (!h.startable) = true
  · rw [if_pos (shown.startable.mpr used), if_pos used]
    exact ⟨rfl, rfl⟩
  rw [if_neg (mt shown.startable.mp used), if_neg used, channel, if_neg free]
  dsimp only
  have agree : ∀ (rh : RecvHandle) (b : Addr), rh.Shows (s.rmem b) →
      (Intra.fits sh.envelope rh.envelope && rh.stat.pend) =
        rqCmp (s.rmem b) h.context h.tag h.src := by
    intro rh b shows
    rw [shows.envelope, shows.stat, shown.envelope]
    exact (Intra.rqCmp_eq (s.rmem b) ⟨h.context, h.tag, h.src⟩).symm
  have queued (cell : SCell) :
      ∀ x ∈ (s.chan h.dest).sq, Function.update s.smem a cell x = s.smem x := by
    intro x member
    apply Function.update_of_ne
    rintro rfl
    exact fresh member
  cases found : ch.rq.find? fun rh => Intra.fits sh.envelope rh.envelope && rh.stat.pend with
  | none =>
      have missing := qFind_none shows.rq agree found
      dsimp only
      rw [show qFind (fun b => rqCmp ((s.tick.record (.sendStarted s.clock h.src h.tag h.userBuf)).rmem b)
        h.context h.tag h.src) (s.chan h.dest).rq = none from missing]
      refine ⟨_, { h with stat := .pendStrt, inst := s.clock }, _, rfl, Function.update_self ..,
        shown.started, getChannel_setChannel_self channel, ?_, ?_⟩
      · simp only [Sys.post, Sys.setChan, Function.update_self]
        apply List.rel_append (forall₂_congr_mem shows.sq (queued _))
        refine .cons ?_ .nil
        simp only [Function.update_self]
        exact shown.started
      · simp only [Sys.post, Sys.setChan, Function.update_self]
        exact shows.rq
  | some rh =>
      obtain ⟨b, rest, finds, related, erased, -, away⟩ := qFind_some shows.rq agree found
      dsimp only
      rw [show qFind (fun b => rqCmp ((s.tick.record (.sendStarted s.clock h.src h.tag h.userBuf)).rmem b)
        h.context h.tag h.src) (s.chan h.dest).rq = some (b, rest) from finds]
      have matched (inst : Nat) : SendHandle.Shows { sh with
          stat := .matched
          buflen := if sh.buflen.toInt < rh.buflen.toInt then sh.buflen else rh.buflen }
          { h with
            stat := .matched, buflen := min h.buflen (s.rmem b).buflen, errval := .success, inst } :=
        { shown with
          stat := rfl
          buflen := shows_min shown related
          errval := ⟨fun _ => rfl, fun _ => shown.errval.mpr (not_not.mp failed)⟩ }
      have others (r : RHandle) : ∀ x ∈ rest, Function.update s.rmem b r x = s.rmem x := by
        intro x member
        apply Function.update_of_ne
        rintro rfl
        exact away distinct member
      dsimp only
      split
      · refine ⟨_, _, _, rfl, Function.update_self .., matched s.clock,
          getChannel_setChannel_self channel, ?_, ?_⟩
        · simp only [Sys.setR, Sys.post, Sys.setChan, Function.update_self]
          exact forall₂_congr_mem shows.sq (queued _)
        · simp only [Sys.setR, Sys.post, Sys.setChan, Function.update_self]
          exact forall₂_congr_mem erased (others _)
      · refine ⟨_, _, _, rfl, Function.update_self .., matched s.clock,
          getChannel_setChannel_self channel, ?_, ?_⟩
        · simp only [Sys.setR, Sys.record, Sys.post, Sys.setChan, Function.update_self]
          exact forall₂_congr_mem shows.sq (queued _)
        · simp only [Sys.setR, Sys.record, Sys.post, Sys.setChan, Function.update_self]
          exact forall₂_congr_mem erased (others _)

end Send

/-! ## Starting a receive -/

section Receive

variable {m : Machine} {cfg : Config} {s : Sys} {rh : RecvHandle} {r : RHandle} {b : Addr}

/-- What a receive does with a send that it finds does not touch the queues. -/
theorem releaseMatched_channel {id : Int} {ch : Channel} (ch' : Channel) (p : Parked)
    (channel : m.tmpiIntraGetChannel id = some ch) :
    ∃ last, (m.releaseMatched id ch' p).tmpiIntraGetChannel id = some last ∧ last.sq = ch'.sq ∧
      last.rq = ch'.rq := by
  have set {m : Machine} {ch : Channel} (own : m.tmpiIntraGetChannel id = some ch) (ch' : Channel) :
      (m.setChannel id ch').tmpiIntraGetChannel id = some ch' := getChannel_setChannel_self own
  cases p with
  | rmsh idx stat envelope dest msgdat curdata =>
      unfold Machine.releaseMatched Machine.tmpiIntraFreeRmsh
      dsimp only
      split
      · exact ⟨_, set channel _, rfl, rfl⟩
      · split
        · exact ⟨_, set (m := m.setBuffers _ _) channel _, rfl, rfl⟩
        · exact ⟨_, set channel _, rfl, rfl⟩
  | sh sh =>
      unfold Machine.releaseMatched
      dsimp only
      have own := set channel ch'
      split
      next released =>
        split
        next missing => exact ⟨ch', own, rfl, rfl⟩
        next peer there =>
          have kept {m' : Machine} (same : m'.channels = (m.setChannel id ch').channels) :
              ∃ last, (m'.setChannel (tmpiGrankToLrank m.info sh.src)
                { peer with spool := Intra.qFreeElem peer.spool sh.idx }).tmpiIntraGetChannel id =
                some last ∧ last.sq = ch'.sq ∧ last.rq = ch'.rq := by
            have there' : m'.tmpiIntraGetChannel (tmpiGrankToLrank m.info sh.src) = some peer := by
              rw [Machine.tmpiIntraGetChannel, same]
              exact there
            have own' : m'.tmpiIntraGetChannel id = some ch' := by
              rw [Machine.tmpiIntraGetChannel, same]
              exact own
            have queues : ((m'.setChannel (tmpiGrankToLrank m.info sh.src)
                { peer with spool := Intra.qFreeElem peer.spool sh.idx }).tmpiIntraGetChannel id).map
                (fun ch => (ch.sq, ch.rq)) = (m'.tmpiIntraGetChannel id).map fun ch => (ch.sq, ch.rq) := by
              apply getChannel_setChannel (fun ch => (ch.sq, ch.rq)) there'
              rfl
            rw [own', Option.map_some] at queues
            obtain ⟨last, found, equal⟩ := Option.map_eq_some_iff.mp queues
            exact ⟨last, found, congrArg Prod.fst equal, congrArg Prod.snd equal⟩
          unfold Machine.tmpiIntraFreeSh
          dsimp only
          split
          · exact kept rfl
          · split
            · exact kept rfl
            · exact kept rfl
      next => exact ⟨ch', own, rfl, rfl⟩

/-- A receive that has taken a send has changed its own handle and the send's, and taken the send out of
its queue. -/
structure Takes (s s' : Sys) (b x : Addr) (c : Int) (rest : List Addr) : Prop where
  smem : ∀ y ≠ x, s'.smem y = s.smem y
  rmem : ∀ y ≠ b, s'.rmem y = s.rmem y
  sq : (s'.chan c).sq = rest
  rq : (s'.chan c).rq = (s.chan c).rq

section Taken

variable {x : Addr} {rest : List Addr}

theorem freeElemS_queues (t : Sys) (x : Addr) (c : Int) :
    ((t.freeElemS x).chan c).sq = (t.chan c).sq ∧ ((t.freeElemS x).chan c).rq = (t.chan c).rq := by
  unfold Sys.freeElemS
  dsimp only
  by_cases own : c = x.owner
  · rw [own, Function.update_self]
    exact ⟨rfl, rfl⟩
  · rw [Function.update_of_ne own]
    exact ⟨rfl, rfl⟩

theorem finishSh_rmem (t : Sys) (x : Addr) (h : SHandle) : (Intra.finishSh t x h).rmem = t.rmem := by
  unfold Intra.finishSh
  dsimp only
  split <;> rfl

/-- The send goes back to the pool. -/
theorem Takes.freed {t : Sys} {c : Int} (takes : Takes s t b x c rest) (cell : SCell) :
    Takes s ((t.setS x cell).freeElemS x) b x c rest := by
  obtain ⟨sq, rq⟩ := freeElemS_queues (t.setS x cell) x c
  refine ⟨fun y other => ?_, takes.rmem, sq.trans takes.sq, rq.trans takes.rq⟩
  exact (Function.update_of_ne other _ _).trans (takes.smem y other)

theorem Takes.finishSh {t : Sys} {c : Int} (takes : Takes s t b x c rest) (h : SHandle) :
    Takes s (Intra.finishSh t x h) b x c rest := by
  unfold Intra.finishSh
  dsimp only
  split
  · exact takes.freed _
  · refine ⟨fun y other => ?_, takes.rmem, takes.sq, takes.rq⟩
    exact (Function.update_of_ne other _ _).trans (takes.smem y other)

theorem startRh_takes_local (cfg : Config) (message : Bool) {h : SHandle}
    (sound : r.errval = .success) (startable : r.startable = true) (unlocked : (s.chan r.dest).busy = none)
    (finds : qFind (fun x => sqCmp (s.smem x) r.context r.tag r.src) (s.chan r.dest).sq = some (x, rest))
    (cell : s.smem x = .send h) (idle : h.locked = false) :
    ∃ s₁ s', Intra.tmpiIntraStartRh cfg s b message r = some s₁ ∧
      Intra.finishStartRh s₁ r.dest = some s' ∧ (s'.rmem b).stat = .matched ∧
      (s'.rmem b).envelope = ⟨r.context, h.tag, h.src⟩ ∧ Takes s s' b x r.dest rest := by
  have begun : ∃ s₁, Intra.tmpiIntraStartRh cfg s b message r = some s₁ ∧
      (s₁.chan r.dest).busy = some (b, x) ∧ (s₁.chan r.dest).sq = rest ∧
      (s₁.chan r.dest).rq = (s.chan r.dest).rq ∧ s₁.smem = s.smem ∧
      (s₁.rmem b).envelope = r.envelope ∧ ∀ y ≠ b, s₁.rmem y = s.rmem y := by
    unfold Intra.tmpiIntraStartRh
    simp only [sound, startable, unlocked, finds, cell, Sys.post, Sys.record, Sys.tick, ne_eq,
      not_true_eq_false, Bool.not_true, Bool.false_eq_true, Option.isSome_none, ↓reduceIte]
    refine ⟨_, rfl, ?_, ?_, ?_, rfl, ?_, fun y other => ?_⟩
    · simp [Sys.setChan]
    · simp [Sys.setChan]
    · simp [Sys.setChan]
    · simp [Sys.setChan, Sys.setR, RHandle.envelope]
    · simp [Sys.setChan, Sys.setR, other]
  obtain ⟨s₁, starts, busy, sq, rq, smem, envelope, rmem⟩ := begun
  have last : ∃ s', Intra.finishStartRh s₁ r.dest = some s' ∧ (s'.rmem b).stat = .matched ∧
      (s'.rmem b).envelope = ⟨(s₁.rmem b).context, h.tag, h.src⟩ ∧ Takes s₁ s' b x r.dest rest := by
    unfold Intra.finishStartRh
    simp only [busy, smem, cell, idle, Bool.false_eq_true, ↓reduceIte]
    split
    next waiting =>
      refine ⟨_, rfl, ?_, ?_, ⟨fun y other => ?_, fun y other => ?_, ?_, ?_⟩⟩
      · simp [Sys.setS, Sys.setChan, Sys.setR]
      · simp [Sys.setS, Sys.setChan, Sys.setR, RHandle.envelope, RHandle.fill]
      · simp [Sys.setS, Sys.setChan, Sys.setR, other]
      · simp [Sys.setS, Sys.setChan, Sys.setR, other]
      · simp [Sys.setS, Sys.setChan, Sys.setR, sq]
      · simp [Sys.setS, Sys.setChan, Sys.setR]
    next awake =>
      split
      next released =>
        refine ⟨_, rfl, ?_, ?_, Takes.finishSh ⟨fun y other => ?_, fun y other => ?_, ?_, ?_⟩ _⟩
        · simp [finishSh_rmem, Sys.setChan, Sys.setR]
        · simp [finishSh_rmem, Sys.setChan, Sys.setR, RHandle.envelope, RHandle.fill]
        · rfl
        · simp [Sys.setChan, Sys.setR, other]
        · simp [Sys.setChan, sq]
        · simp [Sys.setChan]
      next strange =>
        refine ⟨_, rfl, ?_, ?_, ⟨fun y other => ?_, fun y other => ?_, ?_, ?_⟩⟩
        · simp [Sys.record, Sys.setS, Sys.setChan, Sys.setR]
        · simp [Sys.record, Sys.setS, Sys.setChan, Sys.setR, RHandle.envelope, RHandle.fill]
        · simp [Sys.record, Sys.setS, Sys.setChan, Sys.setR, other]
        · simp [Sys.record, Sys.setS, Sys.setChan, Sys.setR, other]
        · simp [Sys.record, Sys.setS, Sys.setChan, Sys.setR, sq]
        · simp [Sys.record, Sys.setS, Sys.setChan, Sys.setR]
  obtain ⟨s', ends, stat, taken, takes⟩ := last
  have context : (s₁.rmem b).context = r.context := congrArg Intra.Envelope.context envelope
  refine ⟨s₁, s', starts, ends, stat, ?_, ⟨fun y other => ?_, fun y other => ?_, takes.sq, ?_⟩⟩
  · rw [taken, context]
  · rw [takes.smem y other, smem]
  · rw [takes.rmem y other, rmem y other]
  · rw [takes.rq, rq]

theorem startRh_takes_remote (cfg : Config) (message : Bool) {rm : Intra.RMSHandle}
    (sound : r.errval = .success) (startable : r.startable = true) (unlocked : (s.chan r.dest).busy = none)
    (finds : qFind (fun x => sqCmp (s.smem x) r.context r.tag r.src) (s.chan r.dest).sq = some (x, rest))
    (cell : s.smem x = .remote rm) :
    ∃ s', Intra.tmpiIntraStartRh cfg s b message r = some s' ∧
      (s'.rmem b).stat = (if rm.handleType = .msgdat then .matched else .pendData) ∧
      (s'.rmem b).envelope = ⟨r.context, rm.tag, rm.src⟩ ∧ Takes s s' b x r.dest rest := by
  unfold Intra.tmpiIntraStartRh
  simp only [sound, startable, unlocked, finds, cell, Sys.post, Sys.record, Sys.tick, ne_eq,
    not_true_eq_false, Bool.not_true, Bool.false_eq_true, Option.isSome_none, ↓reduceIte]
  unfold Intra.startRemote
  refine ⟨_, rfl, ?_⟩
  dsimp only
  cases rm.handleType <;> cases message
  all_goals
    refine ⟨?_, ?_, Takes.freed ⟨fun y other => ?_, fun y other => ?_, ?_, ?_⟩ _⟩
    · simp [Sys.freeElemS, Sys.setS, Sys.setR, Sys.setChan, Sys.netqSend]
    · simp [Sys.freeElemS, Sys.setS, Sys.setR, Sys.setChan, Sys.netqSend, RHandle.envelope]
    · rfl
    · simp [Sys.setR, Sys.setChan, Sys.netqSend, other]
    · simp [Sys.setR, Sys.setChan, Sys.netqSend]
    · simp [Sys.setR, Sys.setChan, Sys.netqSend]

end Taken

/-- A start of a receive fails or succeeds in both models, and leaves the same on its channel; in the
system it takes a second step when the send is one of the same machine. -/
theorem tmpiIntraStartRh_shows {ch : Channel} {message : Bool} (shown : rh.Shows r)
    (channel : m.tmpiIntraGetChannel (tmpiGrankToLrank m.info rh.dest) = some ch)
    (shows : ch.Shows s r.dest) (unlocked : (s.chan r.dest).busy = none)
    (distinct : (s.chan r.dest).sq.Nodup) (fresh : b ∉ (s.chan r.dest).rq)
    (idle : ∀ x h, s.smem x = .send h → h.locked = false) :
    match m.tmpiIntraStartRh (some rh) with
    | .failed ret => ret = .errIntern ∧ Intra.tmpiIntraStartRh cfg s b message r =
        some (s.record (.recvReturned b r.inst .errIntern))
    | .started rh' _ m' => ∃ s₁ s' ch', Intra.tmpiIntraStartRh cfg s b message r = some s₁ ∧
        (s₁ = s' ∨ Intra.finishStartRh s₁ r.dest = some s') ∧ (s'.rmem b).stat = rh'.stat ∧
        (s'.rmem b).envelope = rh'.envelope ∧
        m'.tmpiIntraGetChannel (tmpiGrankToLrank m.info rh.dest) = some ch' ∧ ch'.Shows s' r.dest := by
  unfold Machine.tmpiIntraStartRh
  dsimp only
  have startable : rh.stat ≠ .create ↔ (!r.startable) = true := by
    rw [shown.stat, RHandle.startable]
    simp
  by_cases failed : r.errval ≠ .success
  · rw [if_pos (mt shown.errval.mp failed), Intra.tmpiIntraStartRh, if_pos failed]
    exact ⟨rfl, rfl⟩
  rw [if_neg (not_not.mpr (shown.errval.mpr (not_not.mp failed)))]
  by_cases used : (!r.startable) = true
  · rw [if_pos (startable.mpr used), Intra.tmpiIntraStartRh, if_neg failed, if_pos used]
    exact ⟨rfl, rfl⟩
  rw [if_neg (mt startable.mp used), channel]
  dsimp only
  have agree : ∀ (p : Parked) (x : Addr), p.Shows (s.smem x) →
      (Intra.fits p.envelope rh.envelope && p.stat.pend) =
        sqCmp (s.smem x) r.context r.tag r.src := by
    intro p x shows
    rw [Intra.sqCmp_eq, shows.envelope, shows.stat, shown.envelope]
  cases found : ch.sq.find? fun p => Intra.fits p.envelope rh.envelope && p.stat.pend with
  | none =>
      have free : ¬ (s.chan r.dest).busy.isSome = true := by simp [unlocked]
      have queued (t : RHandle) :
          ∀ x ∈ (s.chan r.dest).rq, Function.update s.rmem b t x = s.rmem x := by
        intro x member
        apply Function.update_of_ne
        rintro rfl
        exact fresh member
      have missing := qFind_none shows.sq agree found
      rw [Intra.tmpiIntraStartRh, if_neg failed, if_neg used]
      dsimp only
      rw [if_neg free, show qFind (fun x => sqCmp ((s.tick.record (.recvStarted s.clock r.data)).smem x)
        r.context r.tag r.src) (s.chan r.dest).sq = none from missing]
      refine ⟨_, _, _, rfl, .inl rfl, ?_, ?_, getChannel_setChannel_self channel, ?_, ?_⟩
      · simp [Sys.post, Sys.setChan, Sys.setR]
      · have same := shown.envelope.symm
        simp only [Sys.post, Sys.setChan, Sys.setR, Function.update_self]
        exact same
      · simp only [Sys.post, Sys.setChan, Function.update_self]
        exact shows.sq
      · simp only [Sys.post, Sys.setChan, Function.update_self]
        apply List.rel_append (forall₂_congr_mem shows.rq (queued _))
        refine .cons ?_ .nil
        simp only [Function.update_self]
        exact { shown with stat := rfl }
  | some p =>
      obtain ⟨x, rest, finds, related, erased, -, away⟩ := qFind_some shows.sq agree found
      obtain ⟨last, there, lastSq, lastRq⟩ := releaseMatched_channel
        { ch with sq := ch.sq.eraseP fun p => Intra.fits p.envelope rh.envelope && p.stat.pend } p channel
      have left {s' : Sys} (takes : Takes s s' b x r.dest rest) : last.Shows s' r.dest := by
        constructor
        · rw [takes.sq, lastSq]
          refine forall₂_congr_mem erased fun y member => takes.smem y ?_
          rintro rfl
          exact away distinct member
        · rw [takes.rq, lastRq]
          refine forall₂_congr_mem shows.rq fun y member => takes.rmem y ?_
          rintro rfl
          exact fresh member
      have context : rh.context = r.context := congrArg Intra.Envelope.context shown.envelope
      have sound := not_not.mp failed
      have create : r.startable = true := by simpa using used
      dsimp only
      cases cell : s.smem x with
      | send h =>
          obtain ⟨s₁, s', starts, ends, stat, envelope, takes⟩ :=
            startRh_takes_local cfg message sound create unlocked finds cell (idle x h cell)
          rw [cell] at related
          cases p with
          | rmsh => exact related.elim
          | sh sh =>
              have sends : sh.envelope = _ := SendHandle.Shows.envelope related
              refine ⟨s₁, s', last, starts, .inr ends, stat, ?_, there, left takes⟩
              rw [envelope, RecvHandle.envelope, Parked.envelope, sends, context]
      | remote rm =>
          obtain ⟨s', starts, stat, envelope, takes⟩ :=
            startRh_takes_remote cfg message sound create unlocked finds cell
          rw [cell] at related
          cases p with
          | sh sh => exact related.elim
          | rmsh idx kept sends dest msgdat curdata =>
              obtain ⟨-, same, -, kind⟩ := related
              refine ⟨s', s', last, starts, .inl rfl, ?_, ?_, there, left takes⟩
              · rw [stat]
                cases handleType : rm.handleType <;> rw [handleType] at kind <;> rw [kind] <;> rfl
              · rw [envelope, RecvHandle.envelope, Parked.envelope, same, context]

end Receive

end Tmpi.Mpi
