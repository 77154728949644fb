import Tmpi.Intra.Runs

/-! What the receiver threads and the second halves of the starts do by themselves, and what is left
when they have nothing more to do. -/

namespace Tmpi.Intra

variable {cfg : Config} {s s' : Sys} {g g' : Ghost} {a b : Addr} {h : SHandle} {m : Nat} {c : Int}

/-- A step that no caller has to make; a handler has a message object to answer with. -/
def Act.internal : Act → Bool
  | .deliver _ _ _ message => message
  | .respond _ | .finishStartRh _ => true
  | _ => false

def Drained (cfg : Config) (s : Sys) : Prop := ∀ act : Act, act.internal = true → step cfg s act = none

/-- No call has left a send with its lock held. -/
def Unlocked (s : Sys) : Prop := ∀ a h, s.smem a = .send h → h.locked = false

/-! ## Nothing is stuck -/

theorem respond_isSome {ans : Answer} (pending : s.answer m = some ans) :
    (respond cfg s m).isSome = true := by
  rw [respond, pending]
  cases ans <;> rfl

theorem finishStartRh_isSome (unlocked : Unlocked s) (busy : (s.chan c).busy = some (b, a))
    (cell : s.smem a = .send h) : (finishStartRh s c).isSome = true := by
  simp only [finishStartRh, busy, cell, unlocked a h cell, Bool.false_eq_true, if_false]
  split
  · rfl
  · split <;> rfl

theorem answerHandle_isSome (unlocked : Unlocked s) {buflen : Nat} {errval : Err}
    {pending blocked : Stat} :
    (answerHandle cfg s m a buflen errval pending blocked).isSome = true := by
  cases cell : s.smem a with
  | remote r => simp [answerHandle, Sys.checkS, cell]
  | send h =>
      simp only [answerHandle, Sys.checkS, cell, unlocked a h cell, Bool.false_eq_true, if_false]
      split
      · rfl
      · split <;> rfl

/-- A handler waits for a lock only. -/
theorem interMsgHandle_isSome (unlocked : Unlocked s) (free : ∀ c, (s.chan c).busy = none)
    (from_ : Nat) (room message : Bool) (frame : Frame) :
    (tmpiInterMsgHandle cfg s from_ m room message frame).isSome = true := by
  have idle : ∀ c, (s.chan c).busy.isSome = false := fun c => by rw [free c]; rfl
  cases frame with
  | rms handle =>
      simp only [tmpiInterMsgHandle, tmpiRmsHandle, idle, Bool.false_eq_true, if_false]
      split
      · rfl
      split
      · rfl
      · split
        · rfl
        · split <;> rfl
  | rmds handle payload =>
      simp only [tmpiInterMsgHandle, tmpiRmdsHandle, idle, Bool.false_eq_true, if_false]
      split
      · rfl
      split
      · rfl
      · split
        · rfl
        · split <;> rfl
  | rds => rfl
  | rmr send recv buflen errval =>
      cases cell : s.smem send with
      | remote r =>
          simp only [tmpiInterMsgHandle, tmpiRmrHandle, Sys.checkS, cell]
          split <;> rfl
      | send h =>
          simp only [tmpiInterMsgHandle, tmpiRmrHandle, Sys.checkS, cell, unlocked send h cell,
            Bool.false_eq_true, if_false]
          split
          · rfl
          split
          · rfl
          · split
            · rfl
            · split <;> rfl
  | rdr => exact answerHandle_isSome unlocked
  | rmdr => exact answerHandle_isSome unlocked
  | nrdy send buflen errval =>
      cases cell : s.smem send with
      | remote r => simp [tmpiInterMsgHandle, tmpiRndyHandle, Sys.checkS, cell]
      | send h =>
          simp only [tmpiInterMsgHandle, tmpiRndyHandle, Sys.checkS, cell, unlocked send h cell,
            Bool.false_eq_true, if_false]
          split <;> rfl

namespace Drained

theorem answer (drained : Drained cfg s) (m : Nat) : s.answer m = none := by
  by_contra pending
  obtain ⟨ans, pending⟩ := Option.ne_none_iff_exists'.mp pending
  have goes := @respond_isSome cfg s m ans pending
  rw [show respond cfg s m = none from drained (.respond m) rfl] at goes
  cases goes

theorem busy (drained : Drained cfg s) (unlocked : Unlocked s) (inv : Inv cfg s g) (c : Int) :
    (s.chan c).busy = none := by
  by_contra held
  obtain ⟨⟨b, a⟩, held⟩ := Option.ne_none_iff_exists'.mp held
  obtain ⟨found, -, -⟩ := (inv.chans c).busy b a held
  obtain ⟨h, cell⟩ := inv.cell_of_active (a := a) (by simp [found])
  have goes := finishStartRh_isSome unlocked held cell
  rw [show finishStartRh s c = none from drained (.finishStartRh c) rfl] at goes
  cases goes

theorem link (drained : Drained cfg s) (unlocked : Unlocked s) (inv : Inv cfg s g) (from_ m : Nat) :
    s.link from_ m = [] := by
  cases first : s.link from_ m with
  | nil => rfl
  | cons frame frames =>
      set rest : Sys :=
        { s with link := fun i j => if i = from_ ∧ j = m then frames else s.link i j } with rest_eq
      have goes := @interMsgHandle_isSome cfg rest m unlocked (drained.busy unlocked inv) from_ true
        true frame
      have stuck : Intra.deliver cfg s from_ m true true = none :=
        drained (.deliver from_ m true true) rfl
      rw [Intra.deliver, if_neg (by simp [drained.answer m, inv.stray from_ m]), first] at stuck
      rw [show tmpiInterMsgHandle cfg rest from_ m true true frame = none from stuck] at goes
      cases goes

/-! ## Where the requests are -/

theorem place (drained : Drained cfg s) (unlocked : Unlocked s) (inv : Inv cfg s g) (a : Addr) :
    g.send a = .off ∨ g.send a = .queue ∨ ∃ q, g.send a = .parked q := by
  cases at_ : g.send a with
  | off => exact .inl rfl
  | queue => exact .inr (.inl rfl)
  | parked q => exact .inr (.inr ⟨q, rfl⟩)
  | found b =>
      have held := (inv.chans _).taken a b at_ rfl
      rw [drained.busy unlocked inv] at held
      cases held
  | wire m m' frame =>
      have under := (inv.wires.sent a m m' frame at_).1
      rw [drained.link unlocked inv] at under
      cases under
  | answering m ans =>
      have pending := (inv.wires.asked a m ans at_).1
      rw [drained.answer] at pending
      cases pending

/-- A send that is under way waits in the channel of its destination. -/
theorem send (drained : Drained cfg s) (unlocked : Unlocked s) (inv : Inv cfg s g)
    (cell : s.smem a = .send h) (under : ¬ h.stat.settled) :
    (h.stat = .pendStrt ∨ h.stat = .pendWait ∨ h.stat = .pendRels) ∧
      (h.isRemote = true → h.mode ≠ .ready) ∧
      ∃ x ∈ (s.chan h.dest).sq, (s.smem x).origin x = a := by
  obtain ⟨active, agrees, admits⟩ := inv.of_pending cell under
  obtain ⟨ok, placed, -, -⟩ := inv.sendOk cell
  have far : h.isRemote = true ↔ cfg.home (g.job a).dest ≠ cfg.home (g.job a).envelope.src := by
    rw [ok.isRemote, agrees.dest, ← agrees.envelope]
    simp
  rcases drained.place unlocked inv a with off | queue | ⟨q, parked⟩
  · exact absurd off active
  · rw [queue] at admits placed
    have member := (inv.chans h.dest).queued a queue agrees.dest.symm
    refine ⟨?_, fun remote => absurd placed (far.mp remote), a, member, by rw [cell]; rfl⟩
    rcases admits with stat | ⟨-, stat⟩
    · exact .inl stat
    · exact .inr stat
  · rw [parked] at admits placed
    obtain ⟨member, origin⟩ := (inv.chans h.dest).parked a q parked agrees.dest.symm
    refine ⟨?_, fun _ => ?_, q, member, origin⟩
    · rcases admits with stat | ⟨-, stat⟩
      · exact .inl stat
      · exact .inr stat
    · rw [agrees.mode]
      exact placed.2.1

/-- A receive that is under way waits in its channel. -/
theorem recv (drained : Drained cfg s) (unlocked : Unlocked s) (inv : Inv cfg s g) (b : Addr)
    (under : (s.rmem b).stat.pend = true ∨ (s.rmem b).pc = .starting) :
    (s.rmem b).pc ≠ .starting ∧ ((s.rmem b).stat = .pendStrt ∨ (s.rmem b).stat = .pendWait) ∧
      b ∈ (s.chan (s.rmem b).dest).rq := by
  have ok := inv.recvs.ok b
  cases at_ : g.recv b with
  | off =>
      rw [at_] at ok
      obtain ⟨pc, stat⟩ := ok
      rcases stat with stat | stat | ⟨stat, -⟩ <;> simp [stat, pc, Stat.pend, Stat.any, Stat.bits] at under
  | queue =>
      rw [at_] at ok
      refine ⟨ok.1, ok.2.1, ?_⟩
      rw [(inv.recvs.handle b).owner]
      exact (inv.chans _).waiting b at_ rfl
  | starting x =>
      have tied := (inv.pairs.agree x b false).mpr (by rw [at_]; rfl)
      rcases drained.place unlocked inv x with off | queue | ⟨q, parked⟩
      · simp [off, SPlace.engaged] at tied
      · simp [queue, SPlace.engaged] at tied
      · simp [parked, SPlace.engaged] at tied
  | awaiting x =>
      have tied := (inv.pairs.agree x b true).mpr (by rw [at_]; rfl)
      rcases drained.place unlocked inv x with off | queue | ⟨q, parked⟩
      · simp [off, SPlace.engaged] at tied
      · simp [queue, SPlace.engaged] at tied
      · simp [parked, SPlace.engaged] at tied

/-! ## Who sleeps -/

theorem sleepingSh (drained : Drained cfg s) (unlocked : Unlocked s) (inv : Inv cfg s g)
    (cell : s.smem a = .send h) (blocked : h.pc ≠ .idle) (asleep : wakeSh s a h = none) :
    h.stat = .pendWait := by
  obtain ⟨ok, -, -, -⟩ := inv.sendOk cell
  have free := unlocked a h cell
  cases pc : h.pc with
  | idle => exact absurd pc blocked
  | starting => exact absurd pc ok.notStarting
  | waiting =>
      rcases ok.waiting pc with stat | stat | ⟨-, stat⟩
      · cases remote : h.isRemote <;> simp [wakeSh, free, pc, stat, remote] at asleep
      · exact stat
      · have waits := (drained.send unlocked inv cell (by simp [stat, Stat.settled])).1
        simp [stat] at waits
  | readyWait =>
      obtain ⟨remote, mode, stats⟩ := ok.readyWait pc
      rcases stats with stat | stat | stat | stat
      · have waits := (drained.send unlocked inv cell (by simp [stat, Stat.settled])).2.1
        exact absurd mode (waits remote)
      · have waits := (drained.send unlocked inv cell (by simp [stat, Stat.settled])).1
        simp [stat] at waits
      · simp [wakeSh, free, pc, stat] at asleep
      · simp [wakeSh, free, pc, stat] at asleep

theorem sleepingRh (drained : Drained cfg s) (unlocked : Unlocked s) (inv : Inv cfg s g) (b : Addr)
    (blocked : (s.rmem b).pc ≠ .idle) (asleep : wakeRh s b (s.rmem b) = none) :
    (s.rmem b).stat = .pendWait := by
  have ok := inv.recvs.handle b
  cases pc : (s.rmem b).pc with
  | idle => exact absurd pc blocked
  | starting => exact absurd pc (drained.recv unlocked inv b (.inr pc)).1
  | readyWait => exact absurd pc ok.notReady
  | waiting =>
      rcases ok.waiting pc with stat | stat | stat
      · exact stat
      · have waits := (drained.recv unlocked inv b (.inl (by rw [stat]; rfl))).2.1
        simp [stat] at waits
      · simp [wakeRh, pc, stat] at asleep

/-- A send and a receive that both wait do not fit. -/
theorem apart (drained : Drained cfg s) (unlocked : Unlocked s) (inv : Inv cfg s g)
    (cell : s.smem a = .send h) (under : ¬ h.stat.settled) (posted : (s.rmem b).stat.pend = true)
    (same : (s.rmem b).dest = h.dest) :
    fits ⟨h.context, h.tag, h.src⟩ (s.rmem b).envelope = false := by
  obtain ⟨-, -, x, waits, origin⟩ := drained.send unlocked inv cell under
  obtain ⟨-, -, listens⟩ := drained.recv unlocked inv b (.inl posted)
  rw [same] at listens
  have alone := (inv.posts.run h.dest).no_pair _ (List.mem_map_of_mem waits) _
    (List.mem_map_of_mem listens)
  have wanted := inv.recvs.ok b
  rw [((inv.chans _).rq b listens).1] at wanted
  rw [(inv.of_pending cell under).2.1.envelope, wanted.2.2.envelope]
  rw [postFits, postOf, origin] at alone
  exact alone

end Drained

/-- No message is on its way, and who sleeps waits for a partner that has not come. -/
structure Rested (s : Sys) : Prop where
  link : ∀ m m', s.link m m' = []
  answer : ∀ m, s.answer m = none
  sender : ∀ a h, s.smem a = .send h → h.pc ≠ .idle → wakeSh s a h = none → h.stat = .pendWait
  receiver : ∀ b, (s.rmem b).pc ≠ .idle → wakeRh s b (s.rmem b) = none →
    (s.rmem b).stat = .pendWait
  apart : ∀ a h b, s.smem a = .send h → h.stat.pend = true → h.stat ≠ .pendNrdy →
    (s.rmem b).stat.pend = true → (s.rmem b).dest = h.dest →
    fits ⟨h.context, h.tag, h.src⟩ (s.rmem b).envelope = false

theorem Drained.rested (drained : Drained cfg s) (unlocked : Unlocked s) (inv : Inv cfg s g) :
    Rested s where
  link := drained.link unlocked inv
  answer := drained.answer
  sender _ _ cell blocked asleep := drained.sleepingSh unlocked inv cell blocked asleep
  receiver b blocked asleep := drained.sleepingRh unlocked inv b blocked asleep
  apart a h b cell pend accepted posted same := by
    refine drained.apart unlocked inv cell (fun settled => ?_) posted same
    rcases settled with stat | stat | stat | stat
    · rw [stat] at pend
      cases pend
    · rw [stat] at pend
      cases pend
    · rw [stat] at pend
      cases pend
    · exact accepted stat

/-- When nothing happens by itself any more, no message is on its way, and who sleeps waits for a
partner that has not come. -/
theorem drained_rested (reach : Reach cfg (fun s act => breaks s act = false) s)
    (unlocked : Unlocked s) (drained : Drained cfg s) : Rested s := by
  obtain ⟨g, inv⟩ := reach.inv fun _ _ _ sound => sound
  exact drained.rested unlocked inv

/-- A receive that has been posted before any send. -/
theorem drained_rested_receive : ∃ s, Reach ⟨Int.toNat, 4, by decide⟩
    (fun s act => breaks s act = false) s ∧ (s.rmem ⟨1, 0⟩).pc = .waiting ∧ Rested s := by
  let acts : List Act := [.initRh 7 0 1 5 [0, 0] false false, .startRh ⟨1, 0⟩ true, .waitRh ⟨1, 0⟩]
  obtain ⟨s, run, waits, cells, links, answers, old, new, chans, free⟩ : ∃ s, follow ⟨Int.toNat, 4, by decide⟩
      (fun s act => !breaks s act) (boot ⟨Int.toNat, 4, by decide⟩) acts = some s ∧
      (s.rmem ⟨1, 0⟩).pc = .waiting ∧ s.smem = (boot ⟨Int.toNat, 4, by decide⟩).smem ∧
      s.link = (fun _ _ => []) ∧ s.answer = (fun _ => none) ∧ ∃ old new, s.chan =
        Function.update (Function.update (boot ⟨Int.toNat, 4, by decide⟩).chan 1 old) 1 new ∧
        new.busy = none := ⟨_, rfl, rfl, rfl, rfl, rfl, _, _, rfl, rfl⟩
  have reach : Reach ⟨Int.toNat, 4, by decide⟩ (fun s act => breaks s act = false) s := by
    simpa using Reach.boot.follow run
  have unlocked : Unlocked s := by
    intro a h cell
    rw [cells] at cell
    cases cell
  have others : ∀ c, (s.chan c).busy = none := by
    intro c
    rw [chans, Function.update_idem]
    by_cases same : c = 1
    · rw [same, Function.update_self, free]
    · rw [Function.update_of_ne same]
      rfl
  refine ⟨s, reach, waits, drained_rested reach unlocked fun act internal => ?_⟩
  cases act with
  | deliver from_ m room message => simp [step, deliver, links]
  | respond m => simp [step, respond, answers]
  | finishStartRh c => simp [step, finishStartRh, others]
  | _ => cases internal

/-! ## How much is left -/

/-- How many steps a message has before it, at most. -/
def Frame.steps : Frame → Nat
  | .rms _ => 6
  | .rmr .. => 4
  | .rds .. | .rmds .. => 3
  | .rdr .. | .rmdr .. | .nrdy .. => 1

def Answer.steps : Answer → Nat
  | .rmr .. => 5
  | .rdr .. | .rmdr .. | .nrdy .. => 2

theorem Frame.steps_pos (frame : Frame) : 0 < frame.steps := by
  cases frame <;> simp [Frame.steps]

theorem Answer.steps_pos (ans : Answer) : 0 < ans.steps := by
  cases ans <;> simp [Answer.steps]

def SPlace.steps : SPlace → Nat
  | .wire _ _ frame => frame.steps
  | .answering _ ans => ans.steps
  | .found _ => 1
  | _ => 0

/-- Whatever is new is about the send `a`, and has fewer than `w` steps before it. -/
structure Adds (s s' : Sys) (a : Addr) (w : Nat) : Prop where
  frames : ∀ i j, ∀ f ∈ s'.link i j, f ∈ s.link i j ∨ (f.send = a ∧ f.steps < w)
  answers : ∀ i ans, s'.answer i = some ans → s.answer i = some ans ∨ (ans.send = a ∧ ans.steps < w)
  busy : ∀ c, (s'.chan c).busy = (s.chan c).busy

section Handlers

variable {s₁ : Sys} {w : Nat} {handle : RMSHandle} {buflen : Nat} {errval : Err}

namespace Adds

theorem still (link : s'.link = s.link) (answer : s'.answer = s.answer)
    (busy : ∀ c, (s'.chan c).busy = (s.chan c).busy) : Adds s s' a w :=
  ⟨fun _ _ _ member => .inl (link ▸ member), fun _ _ here => .inl (answer ▸ here), busy⟩

theorem frame {src dest : Int} {f : Frame} (link : s'.link = (s.netqSend cfg src dest f).link)
    (answer : s'.answer = s.answer) (busy : ∀ c, (s'.chan c).busy = (s.chan c).busy)
    (mine : f.send = a) (less : f.steps < w) : Adds s s' a w := by
  refine ⟨fun i j f' member => ?_, fun _ _ here => .inl (answer ▸ here), busy⟩
  rw [link] at member
  simp only [Sys.netqSend] at member
  split at member
  next =>
    rcases List.mem_append.mp member with old | new
    · exact .inl old
    · rw [List.mem_singleton.mp new]
      exact .inr ⟨mine, less⟩
  next => exact .inl member

theorem answered {ans : Answer} (link : s'.link = s.link)
    (answer : s'.answer = Function.update s.answer m (some ans))
    (busy : ∀ c, (s'.chan c).busy = (s.chan c).busy) (mine : ans.send = a) (less : ans.steps < w) :
    Adds s s' a w := by
  refine ⟨fun _ _ _ member => .inl (link ▸ member), fun i other here => ?_, busy⟩
  rw [answer] at here
  by_cases same : i = m
  · rw [same, Function.update_self, Option.some.injEq] at here
    subst here
    exact .inr ⟨mine, less⟩
  · rw [Function.update_of_ne same] at here
    exact .inl here

end Adds

theorem finishSh_kept (s : Sys) (a : Addr) (h : SHandle) :
    (finishSh s a h).link = s.link ∧ (finishSh s a h).answer = s.answer ∧
      ∀ c, ((finishSh s a h).chan c).busy = (s.chan c).busy := by
  unfold finishSh
  dsimp only
  split
  · exact ⟨rfl, rfl, update_field Channel.busy rfl⟩
  · exact ⟨rfl, rfl, fun _ => rfl⟩

theorem finishRh_kept (s : Sys) (b : Addr) (r : RHandle) :
    (finishRh s b r).link = s.link ∧ (finishRh s b r).answer = s.answer ∧
      ∀ c, ((finishRh s b r).chan c).busy = (s.chan c).busy := by
  unfold finishRh
  dsimp only
  split
  · exact ⟨rfl, rfl, update_field Channel.busy rfl⟩
  · exact ⟨rfl, rfl, fun _ => rfl⟩

theorem tmpiRmsHandle_adds {message : Bool} (call : tmpiRmsHandle cfg s m message handle = some s') :
    Adds s s' handle.remoteSendHandle 6 := by
  unfold tmpiRmsHandle at call
  dsimp only at call
  split at call
  next =>
    cases call
    exact .still rfl rfl fun _ => rfl
  split at call
  next =>
    cases call
    exact .still rfl rfl fun _ => rfl
  next =>
    split at call
    next => cases call
    next =>
      split at call
      next b rq found =>
        cases call
        refine @Adds.answered _ _ _ m 6 (.rmr handle b) ?_ ?_ ?_ rfl (Nat.lt_succ_self 5)
        · split
          · rfl
          · split <;> rfl
        · split
          · rfl
          · split <;> rfl
        · split
          · exact update_field Channel.busy rfl
          · split <;> exact update_field Channel.busy rfl
      next =>
        split at call
        next =>
          cases call
          exact .still rfl rfl (update_field Channel.busy rfl)
        next =>
          cases call
          exact .answered rfl rfl (fun _ => rfl) rfl
            (show Answer.steps (.nrdy handle) < 6 by simp [Answer.steps])

theorem tmpiRmdsHandle_adds {from_ : Nat} {payload : Buffer} {room message : Bool}
    (call : tmpiRmdsHandle cfg s from_ m message handle payload room = some s') :
    Adds s s' handle.remoteSendHandle 3 := by
  unfold tmpiRmdsHandle at call
  dsimp only at call
  split at call
  next =>
    cases call
    exact .still rfl rfl fun _ => rfl
  split at call
  next =>
    cases call
    exact .still rfl rfl fun _ => rfl
  next =>
    split at call
    next => cases call
    next =>
      split at call
      next b rq found =>
        cases call
        refine @Adds.answered _ _ _ m 3 (.rmdr handle b) ?_ ?_ ?_ rfl (Nat.lt_succ_self 2)
        · split <;> rfl
        · split <;> rfl
        · split <;> exact update_field Channel.busy rfl
      next =>
        split at call
        next =>
          cases call
          exact .still rfl rfl (update_field Channel.busy rfl)
        next =>
          cases call
          exact .answered rfl rfl (fun _ => rfl) rfl (Nat.lt_succ_self 2)

theorem tmpiRdsHandle_adds (from_ : Nat) (message : Bool) (payload : Buffer) :
    Adds s (tmpiRdsHandle cfg s from_ m message a b buflen payload) a 3 := by
  unfold tmpiRdsHandle
  dsimp only
  split
  next => exact .still rfl rfl fun _ => rfl
  split
  next =>
    exact .answered rfl rfl (fun _ => rfl) (show Answer.send (.rdr a b _ _ false) = _ from rfl)
      (Nat.lt_succ_self 2)
  next =>
    split
    next =>
      obtain ⟨link, answer, busy⟩ := finishRh_kept (s.checkR cfg m b) b
        { s.rmem b with buflen := min (s.rmem b).buflen buflen }
      exact .answered link (congrArg (Function.update · m _) answer) busy
        (show Answer.send (.rdr a b _ _ true) = _ from rfl) (Nat.lt_succ_self 2)
    next =>
      exact .answered rfl rfl (fun _ => rfl) (show Answer.send (.rdr a b _ _ false) = _ from rfl)
        (Nat.lt_succ_self 2)

theorem tmpiRmrHandle_adds {message : Bool} (call : tmpiRmrHandle cfg s m message a b buflen = some s') :
    Adds s s' a 4 := by
  unfold tmpiRmrHandle at call
  dsimp only at call
  split at call
  next =>
    cases call
    exact .still rfl rfl fun _ => rfl
  split at call
  next =>
    cases call
    exact .still rfl rfl fun _ => rfl
  next h cell =>
    have sends : ∀ {s'' : Sys}, s''.link = (s.netqSend cfg h.src h.dest (.rds a b
        (min h.buflen buflen) .success (h.bytes.take (min h.buflen buflen)))).link →
        s''.answer = s.answer → s''.chan = s.chan → Adds s s'' a 4 := fun link answer chan =>
      .frame link answer (fun _ => by rw [chan]) rfl (Nat.lt_succ_self 3)
    split at call
    next => cases call
    next =>
      split at call
      next =>
        cases call
        exact sends rfl rfl rfl
      next =>
        split at call
        next =>
          cases call
          exact sends rfl rfl rfl
        next => split at call <;> cases call <;> exact sends rfl rfl rfl

theorem answerHandle_adds {pending blocked : Stat}
    (call : answerHandle cfg s m a buflen errval pending blocked = some s') : Adds s s' a w := by
  unfold answerHandle at call
  dsimp only at call
  split at call
  next =>
    cases call
    exact .still rfl rfl fun _ => rfl
  next h cell =>
    split at call
    next => cases call
    next =>
      split at call
      next =>
        cases call
        exact .still rfl rfl fun _ => rfl
      next =>
        split at call
        next =>
          cases call
          exact .still rfl rfl fun _ => rfl
        next =>
          cases call
          obtain ⟨link, answer, busy⟩ := finishSh_kept (s.checkS cfg m a) a
            { h with buflen, errval }
          exact .still link answer busy

theorem tmpiRndyHandle_adds (call : tmpiRndyHandle cfg s m a errval = some s') :
    Adds s s' a w := by
  unfold tmpiRndyHandle at call
  dsimp only at call
  split at call
  next =>
    cases call
    exact .still rfl rfl fun _ => rfl
  next =>
    split at call
    next => cases call
    next => split at call <;> cases call <;> exact .still rfl rfl fun _ => rfl

theorem interMsgHandle_adds {from_ : Nat} {room message : Bool} {frame : Frame}
    (call : tmpiInterMsgHandle cfg s from_ m room message frame = some s') :
    Adds s s' frame.send frame.steps := by
  cases frame with
  | rms handle => exact tmpiRmsHandle_adds call
  | rmds handle payload => exact tmpiRmdsHandle_adds call
  | rds send recv buflen errval payload =>
      cases call
      exact tmpiRdsHandle_adds from_ message payload
  | rmr => exact tmpiRmrHandle_adds call
  | rdr => exact answerHandle_adds call
  | rmdr => exact answerHandle_adds call
  | nrdy => exact tmpiRndyHandle_adds call

end Handlers

/-! ## Every step brings a send nearer to its end -/

/-- The messages about `a` are replaced by some with fewer than `w` steps before them. -/
structure Lowers (s s' : Sys) (a : Addr) (w : Nat) : Prop where
  frames : ∀ i j, ∀ f ∈ s'.link i j, (f.send ≠ a ∧ f ∈ s.link i j) ∨ (f.send = a ∧ f.steps < w)
  answers : ∀ i ans, s'.answer i = some ans →
    (ans.send ≠ a ∧ s.answer i = some ans) ∨ (ans.send = a ∧ ans.steps < w)
  busy : ∀ c b x, (s'.chan c).busy = some (b, x) → x ≠ a ∧ (s.chan c).busy = some (b, x)

namespace Inv

theorem frame_place (inv : Inv cfg s g) {i j : Nat} {f : Frame} (member : f ∈ s.link i j) :
    g.send f.send = .wire i j f := inv.wires.frames i j f member

theorem answer_place (inv : Inv cfg s g) {ans : Answer} (pending : s.answer m = some ans) :
    g.send ans.send = .answering m ans := by
  obtain ⟨x, place⟩ := inv.wires.answers m ans pending
  rw [(inv.wires.asked x m ans place).2]
  exact place

theorem busy_place (inv : Inv cfg s g) (busy : (s.chan c).busy = some (b, a)) :
    g.send a = .found b := ((inv.chans c).busy b a busy).1

theorem deliver_lowers (inv : Inv cfg s g) {from_ : Nat} {room message : Bool}
    (call : Intra.deliver cfg s from_ m room message = some s') :
    ∃ a, Lowers s s' a (g.send a).steps ∧ 0 < (g.send a).steps := by
  unfold Intra.deliver at call
  split at call
  next => cases call
  next =>
    split at call
    next => cases call
    next frame frames first =>
      have here := inv.frame_place (f := frame) (i := from_) (j := m) (by simp [first])
      have rest := inv.wires.pop (p := .off) first rfl
      have adds := interMsgHandle_adds call
      refine ⟨frame.send, ?_, ?_⟩
      · rw [here]
        constructor
        · intro i j f member
          refine (adds.frames i j f member).imp_left fun old => ?_
          have apart : f.send ≠ frame.send := by
            intro same
            have place := rest.frames i j f old
            rw [same, Function.update_self] at place
            cases place
          have place := rest.frames i j f old
          rw [Function.update_of_ne apart] at place
          exact ⟨apart, (inv.wires.sent _ i j f place).1⟩
        · intro i ans pending
          refine (adds.answers i ans pending).imp_left fun old => ⟨fun same => ?_, old⟩
          have place := inv.answer_place old
          rw [same, here] at place
          cases place
        · intro c b x busy
          rw [adds.busy] at busy
          refine ⟨fun same => ?_, busy⟩
          have place := inv.busy_place busy
          rw [same, here] at place
          cases place
      · rw [here]
        exact frame.steps_pos

theorem respond_lowers (inv : Inv cfg s g) (call : Intra.respond cfg s m = some s') :
    ∃ a, Lowers s s' a (g.send a).steps ∧ 0 < (g.send a).steps := by
  unfold Intra.respond at call
  split at call
  next => cases call
  next ans pending =>
    have here := inv.answer_place pending
    have sends : ∀ src dest f, f.send = ans.send → f.steps < ans.steps →
        Lowers s ((s.setAnswer m none).netqSend cfg src dest f) ans.send ans.steps := by
      intro src dest f mine less
      have old : ∀ i j, ∀ f' ∈ s.link i j, f'.send ≠ ans.send := by
        intro i j f' member same
        have place := inv.frame_place member
        rw [same, here] at place
        cases place
      constructor
      · intro i j f' member
        simp only [Sys.netqSend] at member
        split at member
        next =>
          rcases List.mem_append.mp member with before | new
          · exact .inl ⟨old i j f' before, before⟩
          · rw [List.mem_singleton.mp new]
            exact .inr ⟨mine, less⟩
        next => exact .inl ⟨old i j f' member, member⟩
      · intro i other there
        change Function.update s.answer m none i = some other at there
        by_cases same : i = m
        · rw [same, Function.update_self] at there
          cases there
        · rw [Function.update_of_ne same] at there
          refine .inl ⟨fun equal => ?_, there⟩
          have place := inv.answer_place there
          rw [equal, here] at place
          exact same (SPlace.answering.inj place).1.symm
      · intro c b x busy
        refine ⟨fun same => ?_, busy⟩
        have place := inv.busy_place busy
        rw [same, here] at place
        cases place
    refine ⟨ans.send, ?_, ?_⟩
    · rw [here]
      dsimp only at call
      cases ans <;> cases call <;> exact sends _ _ _ rfl (by simp [Frame.steps, Answer.steps])
    · rw [here]
      exact ans.steps_pos

theorem finishStartRh_lowers (inv : Inv cfg s g) (call : Intra.finishStartRh s c = some s') :
    ∃ a, Lowers s s' a (g.send a).steps ∧ 0 < (g.send a).steps := by
  unfold Intra.finishStartRh at call
  split at call
  next => cases call
  next b a busy =>
    have here := inv.busy_place busy
    have kept : s'.link = s.link ∧ s'.answer = s.answer ∧
        ∀ c', (s'.chan c').busy = if c' = c then none else (s.chan c').busy := by
      split at call
      next => cases call
      next h cell =>
        have frees : ∀ ch : Channel, ch.busy = none → ∀ c',
            (Function.update s.chan c ch c').busy = if c' = c then none else (s.chan c').busy := by
          intro ch free c'
          by_cases same : c' = c
          · rw [same, Function.update_self, if_pos rfl, free]
          · rw [Function.update_of_ne same, if_neg same]
        split at call
        next => cases call
        next =>
          dsimp only at call
          split at call
          next =>
            cases call
            exact ⟨rfl, rfl, frees _ rfl⟩
          next =>
            split at call
            next =>
              cases call
              obtain ⟨link, answer, same⟩ := finishSh_kept _ a _
              exact ⟨link, answer, fun c' => (same c').trans (frees _ rfl c')⟩
            next =>
              cases call
              exact ⟨rfl, rfl, frees _ rfl⟩
    obtain ⟨link, answer, free⟩ := kept
    refine ⟨a, ?_, by rw [here]; exact Nat.one_pos⟩
    constructor
    · intro i j f member
      rw [link] at member
      refine .inl ⟨fun same => ?_, member⟩
      have place := inv.frame_place member
      rw [same, here] at place
      cases place
    · intro i ans pending
      rw [answer] at pending
      refine .inl ⟨fun same => ?_, pending⟩
      have place := inv.answer_place pending
      rw [same, here] at place
      cases place
    · intro c' b' x held
      rw [free] at held
      split at held
      next => cases held
      next other =>
        refine ⟨fun same => other ?_, held⟩
        obtain ⟨-, dest', -⟩ := (inv.chans c').busy b' x held
        obtain ⟨-, dest, -⟩ := (inv.chans c).busy b a busy
        rw [← dest', same, dest]

theorem internal_lowers (inv : Inv cfg s g) {act : Act} (internal : act.internal = true)
    (run : Intra.step cfg s act = some s') :
    ∃ a, Lowers s s' a (g.send a).steps ∧ 0 < (g.send a).steps := by
  cases act with
  | deliver from_ m room message => exact inv.deliver_lowers run
  | respond m => exact inv.respond_lowers run
  | finishStartRh c => exact inv.finishStartRh_lowers run
  | _ => cases internal

/-- The sends under way have different numbers, and all of them are below the clock. -/
theorem active_finite (inv : Inv cfg s g) : {a | g.send a ≠ .off}.Finite ∧
    {a | g.send a ≠ .off}.ncard ≤ s.clock := by
  have below : ∀ a ∈ {a | g.send a ≠ .off}, (g.job a).inst ∈ Set.Iio s.clock :=
    fun a active => inv.posts.jobsOld a active
  have differ : Set.InjOn (fun a => (g.job a).inst) {a | g.send a ≠ .off} :=
    fun a active a' active' same => inv.posts.jobsDiffer a a' active active' same
  have finite := Set.finite_Iio s.clock
  refine ⟨Set.Finite.of_injOn below differ finite, ?_⟩
  calc
    _ ≤ (Set.Iio s.clock).ncard := Set.ncard_le_ncard_of_injOn _ below differ finite
    _ = s.clock := by rw [← Finset.coe_range, Set.ncard_coe_finset, Finset.card_range]

end Inv

/-- A step leaves one send with less before it, and no other with more. -/
theorem Lowers.lower (inv : Inv cfg s g) (inv' : Inv cfg s' g')
    (lowers : Lowers s s' a (g.send a).steps) (positive : 0 < (g.send a).steps) :
    (g'.send a).steps < (g.send a).steps ∧ ∀ x ≠ a, (g'.send x).steps ≤ (g.send x).steps := by
  refine ⟨?_, fun x other => ?_⟩
  · cases at_ : g'.send a with
    | wire i j f =>
        obtain ⟨member, mine⟩ := inv'.wires.sent a i j f at_
        rcases lowers.frames i j f member with ⟨apart, -⟩ | ⟨-, less⟩
        · exact absurd mine apart
        · exact less
    | answering i ans =>
        obtain ⟨pending, mine⟩ := inv'.wires.asked a i ans at_
        rcases lowers.answers i ans pending with ⟨apart, -⟩ | ⟨-, less⟩
        · exact absurd mine apart
        · exact less
    | found b =>
        have held := (inv'.chans _).taken a b at_ rfl
        exact absurd rfl (lowers.busy _ b a held).1
    | _ => exact positive
  · cases at_ : g'.send x with
    | wire i j f =>
        obtain ⟨member, mine⟩ := inv'.wires.sent x i j f at_
        rcases lowers.frames i j f member with ⟨-, old⟩ | ⟨same, -⟩
        · rw [← mine, inv.frame_place old]
        · exact absurd (mine.symm.trans same) other
    | answering i ans =>
        obtain ⟨pending, mine⟩ := inv'.wires.asked x i ans at_
        rcases lowers.answers i ans pending with ⟨-, old⟩ | ⟨same, -⟩
        · rw [← mine, inv.answer_place old]
        · exact absurd (mine.symm.trans same) other
    | found b =>
        have held := (inv'.chans _).taken x b at_ rfl
        rw [inv.busy_place (lowers.busy _ b x held).2]
    | _ => exact Nat.zero_le _

/-! ## Runs of the machines alone -/

theorem SPlace.steps_le (p : SPlace) : p.steps ≤ 6 := by
  cases p with
  | wire i j frame => cases frame <;> simp [SPlace.steps, Frame.steps]
  | answering m ans => cases ans <;> simp [SPlace.steps, Answer.steps]
  | _ => simp [SPlace.steps]

/-- What all sends have left. -/
noncomputable def Ghost.left (g : Ghost) : Nat := ∑ᶠ a, (g.send a).steps

theorem left_eq {active : Finset Addr} (all : ∀ a, g.send a ≠ .off → a ∈ active) :
    g.left = ∑ a ∈ active, (g.send a).steps := by
  apply finsum_eq_sum_of_support_subset
  intro a some
  refine Finset.mem_coe.mpr (all a fun off => some ?_)
  simp [off, SPlace.steps]

theorem left_lt (inv : Inv cfg s g) (inv' : Inv cfg s' g')
    (less : (g'.send a).steps < (g.send a).steps)
    (others : ∀ x ≠ a, (g'.send x).steps ≤ (g.send x).steps) : g'.left < g.left := by
  have finite := inv.active_finite.1.union inv'.active_finite.1
  have active : a ∈ finite.toFinset := by
    refine finite.mem_toFinset.mpr (.inl fun off => ?_)
    simp [off, SPlace.steps] at less
  calc
    g'.left = ∑ x ∈ finite.toFinset, (g'.send x).steps :=
      left_eq fun x here => finite.mem_toFinset.mpr (.inr here)
    _ < ∑ x ∈ finite.toFinset, (g.send x).steps := by
      refine Finset.sum_lt_sum (fun x _ => ?_) ⟨a, active, less⟩
      by_cases same : x = a
      · rw [same]
        exact less.le
      · exact others x same
    _ = g.left := (left_eq fun x here => finite.mem_toFinset.mpr (.inl here)).symm

theorem left_le (inv : Inv cfg s g) : g.left ≤ 6 * s.clock := by
  obtain ⟨finite, few⟩ := inv.active_finite
  calc
    g.left = ∑ x ∈ finite.toFinset, (g.send x).steps :=
      left_eq fun x here => finite.mem_toFinset.mpr here
    _ ≤ finite.toFinset.card • 6 :=
      Finset.sum_le_card_nsmul _ _ _ fun x _ => (g.send x).steps_le
    _ ≤ 6 * s.clock := by
      rw [smul_eq_mul, mul_comm, ← Set.ncard_eq_toFinset_card _ finite]
      exact Nat.mul_le_mul_left 6 few

theorem Inv.internal_step (inv : Inv cfg s g) {act : Act} (internal : act.internal = true)
    (run : Intra.step cfg s act = some s') : ∃ g', Inv cfg s' g' ∧ g'.left < g.left := by
  have sound : breaks s act = false := by
    cases act with
    | deliver from_ m room message => simpa [breaks, Act.internal] using internal
    | respond | finishStartRh => rfl
    | _ => cases internal
  obtain ⟨g', inv'⟩ := inv.step sound run
  obtain ⟨a, lowers, positive⟩ := inv.internal_lowers internal run
  obtain ⟨less, others⟩ := lowers.lower inv inv' positive
  exact ⟨g', inv', left_lt inv inv' less others⟩

/-- Steps that no caller makes, one after the other; the handlers find message objects. -/
def alone (_ : Sys) (act : Act) : Bool := act.internal

theorem Inv.length_le (inv : Inv cfg s g) {acts : List Act}
    (run : follow cfg alone s acts = some s') : acts.length ≤ g.left := by
  induction acts generalizing s g with
  | nil => exact Nat.zero_le _
  | cons act rest ih =>
      rw [follow] at run
      split at run
      next internal =>
        obtain ⟨s₁, one, others⟩ := Option.bind_eq_some_iff.mp run
        obtain ⟨g₁, inv₁, less⟩ := inv.internal_step internal one
        have few := ih inv₁ others
        rw [List.length_cons]
        omega
      next => cases run

end Tmpi.Intra
