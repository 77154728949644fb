import Mathlib.Data.Finset.Card
import Mathlib.Data.Nat.Bits
import Mathlib.Tactic

/-! `barrier.c`: two sub-barriers that the threads of a machine use in turn.

A step is a critical section or the unlocked read of `bp->sbp`; a waiter may wake at any time. -/

namespace Tmpi.Coll

/-- `tmpi_Bar`; `false` is `sb[0]`. -/
structure Bar where
  maxcnt : Int
  sbp : Bool
  runners : Bool → Int

def barInit (count : Int) : Option Bar :=
  if count < 1 then none else some ⟨count, false, fun _ => count⟩

/-- Where a thread is inside `bar_wait`: it has read `bp->sbp`, or waits on the condition. -/
inductive BarPc where
  | out
  | entering (sbp : Bool)
  | waiting (sbp : Bool)
  deriving DecidableEq, Repr

/-- A thread has been counted: in its call number `call` and in phase `phase` of the barrier. -/
structure Arrival where
  thread : Nat
  call : Nat
  phase : Nat
  sb : Bool
  deriving DecidableEq, Repr

/-- A barrier and its threads. `phase` counts the times that a last thread has come; it and
`arrivals` are read by nobody. -/
structure Barrier where
  bar : Bar
  pc : Nat → BarPc
  called : Nat → Nat
  returned : Nat → Nat
  phase : Nat
  arrivals : List Arrival

namespace Barrier

def start (bar : Bar) : Barrier := ⟨bar, fun _ => .out, fun _ => 0, fun _ => 0, 0, []⟩

variable (s : Barrier) (t : Nat)

def goto (pc : BarPc) : Barrier := { s with pc := Function.update s.pc t pc }

def leave : Barrier :=
  { s with
    pc := Function.update s.pc t .out
    returned := Function.update s.returned t (s.returned t + 1) }

/-- A call of `bar_wait`, up to the read of `bp->sbp`. -/
def callWait : Option Barrier :=
  match s.pc t with
  | .out => some ({ s with called := Function.update s.called t (s.called t + 1) }.goto t
      (.entering s.bar.sbp))
  | _ => none

/-- The critical section, up to the end or to `thr_cnd_wait`. -/
def enterWait : Option Barrier :=
  match s.pc t with
  | .entering sbp =>
      let arrivals := ⟨t, s.called t - 1, s.phase, sbp⟩ :: s.arrivals
      if s.bar.runners sbp = 1 then
        let bar :=
          if s.bar.maxcnt ≠ 1 then
            { s.bar with
              runners := Function.update s.bar.runners sbp s.bar.maxcnt
              sbp := !s.bar.sbp }
          else s.bar
        some ({ s with bar, arrivals, phase := s.phase + 1 }.leave t)
      else
        let runners := s.bar.runners sbp - 1
        let s := { s with
          bar := { s.bar with runners := Function.update s.bar.runners sbp runners }
          arrivals }
        some (if runners ≠ s.bar.maxcnt then s.goto t (.waiting sbp) else s.leave t)
  | _ => none

/-- The end of `thr_cnd_wait`. -/
def wakeWait : Option Barrier :=
  match s.pc t with
  | .waiting sbp => some (if s.bar.runners sbp ≠ s.bar.maxcnt then s else s.leave t)
  | _ => none

inductive Act where
  | call (t : Nat)
  | enter (t : Nat)
  | wake (t : Nat)
  deriving DecidableEq, Repr

def Act.thread : Act → Nat
  | .call t | .enter t | .wake t => t

def step : Act → Option Barrier
  | .call t => s.callWait t
  | .enter t => s.enterWait t
  | .wake t => s.wakeWait t

/-- Runs of the threads `0, .., count - 1`. -/
inductive Reach (count : Nat) : Barrier → Prop where
  | init {bar} : barInit count = some bar → Reach count (start bar)
  | step {s s' act} : Reach count s → act.thread < count → s.step act = some s' → Reach count s'

def run : Barrier → List Act → Option Barrier
  | s, [] => some s
  | s, act :: acts => (s.step act).bind fun s => run s acts

variable {s t} {s' : Barrier}

theorem run_reach {count : Nat} {acts : List Act} (reach : Reach count s)
    (inside : ∀ act ∈ acts, act.thread < count) (runs : s.run acts = some s') : Reach count s' := by
  induction acts generalizing s with
  | nil =>
      cases runs
      exact reach
  | cons act acts ih =>
      obtain ⟨mid, taken, rest⟩ := Option.bind_eq_some_iff.mp runs
      exact ih (reach.step (inside act (by simp)) taken) (fun a later => inside a (by simp [later]))
        rest

theorem step_frame {act : Act} (taken : s.step act = some s') {u : Nat} (other : u ≠ act.thread) :
    s'.called u = s.called u ∧ s'.pc u = s.pc u := by
  cases act with
  | call t =>
      change s.callWait t = some s' at taken
      unfold callWait at taken
      split at taken
      next =>
        cases taken
        simp [goto, Function.update_of_ne (show u ≠ t from other)]
      next => cases taken
  | enter t =>
      change s.enterWait t = some s' at taken
      unfold enterWait at taken
      split at taken
      next =>
        dsimp only at taken
        split at taken
        next =>
          cases taken
          simp [leave, Function.update_of_ne (show u ≠ t from other)]
        next =>
          cases taken
          split <;> simp [goto, leave, Function.update_of_ne (show u ≠ t from other)]
      next => cases taken
  | wake t =>
      change s.wakeWait t = some s' at taken
      unfold wakeWait at taken
      split at taken
      next =>
        cases taken
        split <;> simp [leave, Function.update_of_ne (show u ≠ t from other)]
      next => cases taken

theorem call_cases (taken : s.step (.call t) = some s') :
    s.pc t = .out ∧ s'.called t = s.called t + 1 ∧ s'.pc t ≠ .out := by
  change s.callWait t = some s' at taken
  unfold callWait at taken
  split at taken
  next idle =>
    cases taken
    exact ⟨idle, by simp [goto], by simp [goto]⟩
  next => cases taken

/-- Inside a call no other one is made. -/
theorem inside_cases {act : Act} (inside : act = .enter t ∨ act = .wake t)
    (taken : s.step act = some s') : s.pc t ≠ .out ∧ s'.called t = s.called t := by
  rcases inside with rfl | rfl
  · change s.enterWait t = some s' at taken
    unfold enterWait at taken
    split at taken
    next at' =>
      refine ⟨by rw [at']; exact nofun, ?_⟩
      dsimp only at taken
      split at taken
      next =>
        cases taken
        rfl
      next =>
        cases taken
        split <;> rfl
    next => cases taken
  · change s.wakeWait t = some s' at taken
    unfold wakeWait at taken
    split at taken
    next at' =>
      refine ⟨by rw [at']; exact nofun, ?_⟩
      cases taken
      split <;> rfl
    next => cases taken

/-! ## The invariant -/

/-- The threads that have been counted in the current phase. -/
def counted (count : Nat) (s : Barrier) : Finset Nat :=
  (Finset.range count).filter fun t => s.pc t = .waiting s.bar.sbp

theorem mem_counted {count u : Nat} :
    u ∈ counted count s ↔ u < count ∧ s.pc u = .waiting s.bar.sbp := by
  rw [counted, Finset.mem_filter, Finset.mem_range]

/-- What thread `t` is doing in phase `p` of the barrier, whose sub-barrier is `b`. -/
def Joined (p : Nat) (b : Bool) (called returned : Nat) : BarPc → Prop
  | .out => called = p ∧ returned = p
  | .entering sb => sb = b ∧ called = p + 1 ∧ returned = p
  | .waiting sb => returned + 1 = called ∧ called = if sb = b then p + 1 else p

structure Inv (count : Nat) (s : Barrier) : Prop where
  maxcnt : s.bar.maxcnt = count
  joined : ∀ t < count, Joined s.phase s.bar.sbp (s.called t) (s.returned t) (s.pc t)
  now : s.bar.runners s.bar.sbp = count - (counted count s).card
  room : (counted count s).card < count
  other : s.bar.runners (!s.bar.sbp) = count
  turn : 2 ≤ count → s.bar.sbp = s.phase.bodd
  arrivals : ∀ a ∈ s.arrivals, a.call = a.phase ∧ (2 ≤ count → a.sb = a.phase.bodd)

namespace Inv

variable {count : Nat}

theorem start {bar : Bar} (init : barInit count = some bar) : Inv count (start bar) := by
  unfold barInit at init
  split at init
  next => cases init
  next positive =>
    cases init
    have nobody : counted count (Barrier.start ⟨count, false, fun _ => count⟩) = ∅ := by
      refine Finset.eq_empty_of_forall_notMem fun u member => ?_
      exact absurd (mem_counted.mp member).2 nofun
    refine ⟨rfl, fun t _ => ⟨rfl, rfl⟩, ?_, ?_, rfl, fun _ => by simp [Barrier.start],
      by simp [Barrier.start]⟩
    · rw [nobody]
      simp [Barrier.start]
    · rw [nobody, Finset.card_empty]
      omega

/-- A thread moves without a change of the sub-barriers. -/
theorem move (t : Nat) (inv : Inv count s) (maxcnt : s'.bar = s.bar) (phase : s'.phase = s.phase)
    (same : ∀ u, u ≠ t → s'.called u = s.called u ∧ s'.returned u = s.returned u ∧ s'.pc u = s.pc u)
    (joined : Joined s.phase s.bar.sbp (s'.called t) (s'.returned t) (s'.pc t))
    (counts : s.pc t = .waiting s.bar.sbp ↔ s'.pc t = .waiting s.bar.sbp)
    (arrivals : s'.arrivals = s.arrivals) : Inv count s' := by
  have who : counted count s' = counted count s := by
    ext u
    rw [mem_counted, mem_counted, maxcnt]
    by_cases mine : u = t
    · rw [mine, counts]
    · rw [(same u mine).2.2]
  refine ⟨by rw [maxcnt]; exact inv.maxcnt, fun u inside => ?_, ?_, ?_, ?_, ?_, ?_⟩
  · rw [phase, maxcnt]
    by_cases mine : u = t
    · rw [mine]
      exact joined
    · obtain ⟨called, returned, pc⟩ := same u mine
      rw [called, returned, pc]
      exact inv.joined u inside
  · rw [who, maxcnt]
    exact inv.now
  · rw [who]
    exact inv.room
  · rw [maxcnt]
    exact inv.other
  · rw [maxcnt, phase]
    exact inv.turn
  · rw [arrivals]
    exact inv.arrivals

theorem callWait (inv : Inv count s) (inside : t < count) (call : s.callWait t = some s') :
    Inv count s' := by
  unfold Barrier.callWait at call
  split at call
  next idle =>
    cases call
    have before := inv.joined t inside
    rw [idle] at before
    obtain ⟨called, returned⟩ := before
    refine move t inv rfl rfl (fun u other => ?_) ?_ ?_ rfl
    · simp [goto, Function.update_of_ne other]
    · simp [goto, Joined, called, returned]
    · simp [goto, idle]
  next => cases call

theorem wakeWait (inv : Inv count s) (inside : t < count) (wake : s.wakeWait t = some s') :
    Inv count s' := by
  unfold Barrier.wakeWait at wake
  split at wake
  next sb waiting =>
    cases wake
    split
    next => exact inv
    next full =>
      rw [not_not] at full
      have before := inv.joined t inside
      rw [waiting] at before
      obtain ⟨counts, called⟩ := before
      -- who is counted in this phase finds its sub-barrier not full
      have past : sb ≠ s.bar.sbp := by
        rintro rfl
        have member : t ∈ counted count s := mem_counted.mpr ⟨inside, waiting⟩
        have positive := Finset.card_pos.mpr ⟨t, member⟩
        have now := inv.now
        rw [full, inv.maxcnt] at now
        omega
      rw [if_neg past] at called
      refine move t inv rfl rfl (fun u other => ?_) ?_ ?_ rfl
      · simp [leave, Function.update_of_ne other]
      · simp [leave, Joined, called, counts]
      · simp [leave, waiting, past]
  next => cases wake

/-- The last thread finds all others counted. -/
theorem last (inv : Inv count s) (inside : t < count) {sb : Bool} (at' : s.pc t = .entering sb)
    (one : s.bar.runners sb = 1) : ∀ u < count, u ≠ t → s.pc u = .waiting s.bar.sbp := by
  have before := inv.joined t inside
  rw [at'] at before
  obtain ⟨rfl, -⟩ := before
  have size : (counted count s).card + 1 = count := by
    have now := inv.now
    rw [one] at now
    omega
  have apart : t ∉ counted count s := by simp [mem_counted, at']
  have all : insert t (counted count s) = Finset.range count := by
    apply Finset.eq_of_subset_of_card_le
    · intro u member
      rcases Finset.mem_insert.mp member with rfl | there
      · exact Finset.mem_range.mpr inside
      · exact Finset.mem_range.mpr (mem_counted.mp there).1
    · rw [Finset.card_insert_of_notMem apart, Finset.card_range, size]
  intro u below other
  have member : u ∈ insert t (counted count s) := by
    rw [all]
    exact Finset.mem_range.mpr below
  exact (mem_counted.mp ((Finset.mem_insert.mp member).resolve_left other)).2

theorem enterWait (inv : Inv count s) (inside : t < count) (enter : s.enterWait t = some s') :
    Inv count s' := by
  unfold Barrier.enterWait at enter
  split at enter
  next sb at' =>
    have before := inv.joined t inside
    rw [at'] at before
    obtain ⟨mine, called, returned⟩ := before
    have arrived : ∀ a ∈ (⟨t, s.called t - 1, s.phase, sb⟩ : Arrival) :: s.arrivals,
        a.call = a.phase ∧ (2 ≤ count → a.sb = a.phase.bodd) := by
      intro a member
      rcases List.mem_cons.mp member with rfl | old
      · exact ⟨by simp [called], fun more => mine.trans (inv.turn more)⟩
      · exact inv.arrivals a old
    dsimp only at enter
    split at enter
    next one =>
      have others := inv.last inside at' one
      subst mine
      cases enter
      by_cases several : s.bar.maxcnt ≠ 1
      · rw [if_pos several]
        have nobody : ∀ u < count, Function.update s.pc t .out u ≠ .waiting (!s.bar.sbp) := by
          intro u below
          by_cases self : u = t
          · simp [self]
          · rw [Function.update_of_ne self, others u below self]
            simp
        have empty : counted count ({ s with
            bar := { s.bar with
              runners := Function.update s.bar.runners s.bar.sbp s.bar.maxcnt
              sbp := !s.bar.sbp }
            arrivals := ⟨t, s.called t - 1, s.phase, s.bar.sbp⟩ :: s.arrivals
            phase := s.phase + 1 }.leave t) = ∅ := by
          refine Finset.eq_empty_of_forall_notMem fun u member => ?_
          obtain ⟨below, waits⟩ := mem_counted.mp member
          exact nobody u below waits
        refine ⟨inv.maxcnt, fun u below => ?_, ?_, ?_, ?_, fun more => ?_, arrived⟩
        · by_cases self : u = t
          · subst self
            simp [leave, Joined, called, returned]
          · have early := inv.joined u below
            rw [others u below self] at early
            simpa [leave, Joined, Function.update_of_ne self, others u below self] using early
        · rw [empty]
          simpa [leave] using inv.other
        · rw [empty, Finset.card_empty]
          omega
        · simp [leave, inv.maxcnt]
        · simp [leave, inv.turn more]
      · rw [if_neg several]
        rw [not_not, inv.maxcnt] at several
        have single : count = 1 := by exact_mod_cast several
        subst single
        obtain rfl : t = 0 := by omega
        have empty : counted 1 ({ s with
            arrivals := ⟨0, s.called 0 - 1, s.phase, s.bar.sbp⟩ :: s.arrivals
            phase := s.phase + 1 }.leave 0) = ∅ := by
          refine Finset.eq_empty_of_forall_notMem fun u member => ?_
          obtain ⟨below, waits⟩ := mem_counted.mp member
          obtain rfl : u = 0 := by omega
          simp [leave] at waits
        refine ⟨inv.maxcnt, fun u below => ?_, ?_, ?_, inv.other, fun more => ?_, arrived⟩
        · obtain rfl : u = 0 := by omega
          simp [leave, Joined, called, returned]
        · rw [empty]
          simpa [leave] using one
        · rw [empty]
          simp
        · omega
    next more =>
      subst mine
      have apart : t ∉ counted count s := by simp [mem_counted, at']
      have now := inv.now
      have room := inv.room
      have low : s.bar.runners s.bar.sbp - 1 ≠ s.bar.maxcnt := by
        rw [now, inv.maxcnt]
        omega
      rw [if_pos low] at enter
      cases enter
      have grown : counted count ({ s with
          bar := { s.bar with
            runners := Function.update s.bar.runners s.bar.sbp (s.bar.runners s.bar.sbp - 1) }
          arrivals := ⟨t, s.called t - 1, s.phase, s.bar.sbp⟩ :: s.arrivals }.goto t
            (.waiting s.bar.sbp)) = insert t (counted count s) := by
        ext u
        rw [Finset.mem_insert, mem_counted, mem_counted]
        by_cases self : u = t
        · simp [goto, self, inside]
        · simp [goto, self]
      have size := Finset.card_insert_of_notMem apart
      refine ⟨inv.maxcnt, fun u below => ?_, ?_, ?_, ?_, inv.turn, arrived⟩
      · by_cases self : u = t
        · subst self
          simp [goto, Joined, called, returned]
        · simpa [goto, Function.update_of_ne self] using inv.joined u below
      · rw [grown, size]
        simp only [goto, Function.update_self, now]
        omega
      · rw [grown, size]
        omega
      · simpa [goto] using inv.other
  next => cases enter

theorem step (inv : Inv count s) {act : Act} (inside : act.thread < count)
    (taken : s.step act = some s') : Inv count s' := by
  cases act with
  | call t => exact inv.callWait inside taken
  | enter t => exact inv.enterWait inside taken
  | wake t => exact inv.wakeWait inside taken

end Inv

theorem Reach.inv {count : Nat} (reach : Reach count s) : Inv count s := by
  induction reach with
  | init init => exact .start init
  | step _ inside taken ih => exact ih.step inside taken

theorem Inv.returned_le {count : Nat} (inv : Inv count s) {t u : Nat} (inside : t < count)
    (below : u < count) : s.returned t ≤ s.called u := by
  have mine := inv.joined t inside
  have theirs := inv.joined u below
  have low : s.returned t ≤ s.phase := by
    cases at' : s.pc t with
    | out =>
        rw [at'] at mine
        exact mine.2.le
    | entering =>
        rw [at'] at mine
        exact mine.2.2.le
    | waiting =>
        rw [at'] at mine
        obtain ⟨counts, called⟩ := mine
        split at called <;> omega
  have high : s.phase ≤ s.called u := by
    cases at' : s.pc u with
    | out =>
        rw [at'] at theirs
        exact theirs.1.ge
    | entering =>
        rw [at'] at theirs
        exact le_trans (Nat.le_succ _) theirs.2.1.ge
    | waiting =>
        rw [at'] at theirs
        obtain ⟨counts, called⟩ := theirs
        split at called <;> omega
  exact le_trans low high

/-- Who is outside has returned from all its calls. -/
theorem Inv.returned_eq {count : Nat} (inv : Inv count s) {t : Nat} (inside : t < count) :
    s.called t = s.returned t + if s.pc t = .out then 0 else 1 := by
  have mine := inv.joined t inside
  cases at' : s.pc t with
  | out =>
      rw [at'] at mine
      exact mine.1.trans mine.2.symm
  | entering =>
      rw [at'] at mine
      exact mine.2.1.trans (congrArg (· + 1) mine.2.2.symm)
  | waiting =>
      rw [at'] at mine
      exact mine.1.symm

end Barrier

end Tmpi.Coll
