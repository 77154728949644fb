import Tmpi.Coll.Cells

/-! `tmpi_ardco_allreduce` of `reduce.c`: the allreduces of one machine, on two alternating
sub-objects.

A step of a thread is one locked region, atomic load or store, `cas32`, `aadd32`, `anf32` or
`casp`, with the code up to the next one. `malloc` succeeds, but for a negative length. -/

namespace Tmpi.Coll

/-- `struct _sub`; `live` while the memory at `data` is allocated. -/
structure Sub where
  avail : Int
  done : Int
  data : Ints
  count : Nat
  live : Bool

/-- Where a thread is inside `tmpi_ardco_allreduce`; `j` is the index of its `subp`. -/
inductive AllreducePc where
  | idle
  /-- Has its `subp`. -/
  | look (j : Fin 2)
  /-- Has found `avail==-1`. -/
  | claim (j : Fin 2)
  /-- Has been the first. -/
  | publish (j : Fin 2)
  /-- Waits until `avail` is set. -/
  | await (j : Fin 2)
  | combine (j : Fin 2) (i : Nat)
  /-- Inside `rdc_int_max` or `rdc_int_min`, before the `cas32`. -/
  | cas (j : Fin 2) (i : Nat) (tmp1 : BitVec 32)
  | bump (j : Fin 2)
  /-- Waits for the result. -/
  | gather (j : Fin 2)
  /-- Has the result, as all threads behind this one. -/
  | count (j : Fin 2) (b : Buffers)
  /-- Is the last one, and has yet to free the data and to set `done`. -/
  | reset (j : Fin 2) (b : Buffers)
  /-- Has yet to set `avail`. -/
  | reopen (j : Fin 2) (b : Buffers)
  | check (j : Fin 2) (b : Buffers)
  /-- Has found its `subp` in the object. -/
  | switch (j : Fin 2) (b : Buffers)

/-- An allreduce that all threads make. -/
structure AllreduceCall where
  op : RdcOp
  count : Nat

/-- The bytes of the allreduce fit the `int len` of the code. -/
def AllreduceCall.Small (c : AllreduceCall) : Prop := 4 * c.count < 2^31

instance AllreduceCall.decidableSmall (c : AllreduceCall) : Decidable c.Small := inferInstanceAs (Decidable (_ < _))

/-- `tmpi_AllreduceObj` and the threads. `resets` counts for each call how often the sub-object has
been reset in it. -/
structure AllreduceObj where
  sub : Fin 2 → Sub
  subp : Fin 2
  pc : Nat → AllreducePc
  call : Nat → Nat
  args : Nat → Nat → Buffers
  results : Nat → Nat → Option Buffers
  resets : Nat → Nat

namespace AllreduceObj

/-- `tmpi_ardco_create`, before the first call. -/
def create : AllreduceObj where
  sub _ := ⟨-1, 0, fun _ => 0, 0, false⟩
  subp := 0
  pc _ := .idle
  call _ := 0
  args _ _ := ⟨[], fun _ => 0, fun _ => 0⟩
  results _ _ := none
  resets _ := 0

variable (groupSize : Nat) (s : AllreduceObj) (t : Nat)

/-- What thread `t` has passed to the call it is in. -/
def current : Buffers := s.args (s.call t) t

def setSub (j : Fin 2) (sub : Sub) : AllreduceObj := { s with sub := Function.update s.sub j sub }

def goto (pc : AllreducePc) : AllreduceObj := { s with pc := Function.update s.pc t pc }

def pass (b : Buffers) : AllreduceObj :=
  { s with args := Function.update s.args (s.call t) (Function.update (s.args (s.call t)) t b) }

/-- Thread `t` returns from its call. -/
def leave (b : Buffers) : AllreduceObj :=
  { s with
    pc := Function.update s.pc t .idle
    call := Function.update s.call t (s.call t + 1)
    results := Function.update s.results (s.call t)
      (Function.update (s.results (s.call t)) t (some b)) }

/-- Thread `t` makes its next call. -/
def enter (b : Buffers) (c : AllreduceCall) : Option AllreduceObj :=
  if groupSize < 2 then
    (memcpyInts b.recvbuf b.sendbuf (intsLen c.count)).map fun recvbuf =>
      (s.pass t b).leave t { b with recvbuf }
  else some ((s.pass t b).goto t (.look s.subp))

/-- `(subp==&(ardco->sub[0])) ? &(ardco->sub[1]) : &(ardco->sub[0])` -/
def otherSub (j : Fin 2) : Fin 2 := if j = 0 then 1 else 0

def tmpiArdcoAllreduce (c : AllreduceCall) : Option AllreduceObj :=
  let b := s.current t
  match s.pc t with
  | .idle => none
  | .look j =>
      if (s.sub j).avail = -1 then some (s.goto t (.claim j)) else some (s.goto t (.await j))
  | .claim j =>
      if (s.sub j).avail = -1 then some ((s.setSub j { s.sub j with avail := 0 }).goto t (.publish j))
      else some (s.goto t (.await j))
  | .publish j =>
      let sub := { s.sub j with avail := 1 }
      let len := intsLen c.count
      -- `cm_alloc` has no block of a negative length, and the others find no elements
      let sub := if len < 0 then { sub with count := 0 }
        else { sub with
          data := copyInts sub.data b.sendbuf (len.toNat / 4), count := c.count, live := true }
      some ((s.setSub j sub).goto t (.gather j))
  | .await j => if (s.sub j).avail = 0 then none else some (s.goto t (.combine j 0))
  | .combine j i =>
      let sub := s.sub j
      if i < min c.count sub.count then
        match c.op with
        | .sum =>
            let data := Function.update sub.data i (sub.data i + b.sendbuf i)
            some ((s.setSub j { sub with data }).goto t (.combine j (i + 1)))
        | op =>
            if rdcBreak op (sub.data i) (b.sendbuf i) then some (s.goto t (.combine j (i + 1)))
            else some (s.goto t (.cas j i (sub.data i)))
      else some (s.goto t (.bump j))
  | .cas j i tmp1 =>
      let sub := s.sub j
      if sub.data i = tmp1 then
        let data := Function.update sub.data i (b.sendbuf i)
        some ((s.setSub j { sub with data }).goto t (.combine j (i + 1)))
      else some (s.goto t (.combine j i))
  | .bump j =>
      some ((s.setSub j { s.sub j with avail := (s.sub j).avail + 1 }).goto t (.gather j))
  | .gather j =>
      let sub := s.sub j
      if sub.avail ≠ groupSize then none
      else
        (memcpyInts b.recvbuf sub.data (intsLen (min c.count sub.count))).map fun recvbuf =>
          s.goto t (.count j { b with recvbuf })
  | .count j b =>
      let done := (s.sub j).done + 1
      let s := s.setSub j { s.sub j with done }
      if done = groupSize then some (s.goto t (.reset j b)) else some (s.goto t (.check j b))
  | .reset j b => some ((s.setSub j { s.sub j with live := false, done := 0 }).goto t (.reopen j b))
  | .reopen j b =>
      let s := s.setSub j { s.sub j with avail := -1 }
      let resets := Function.update s.resets (s.call t) (s.resets (s.call t) + 1)
      some ({ s with resets }.goto t (.check j b))
  | .check j b => if s.subp = j then some (s.goto t (.switch j b)) else some (s.leave t b)
  | .switch j b =>
      if s.subp = j then some ({ s with subp := otherSub j }.leave t b) else some (s.leave t b)

inductive Act where
  | enter (t : Nat) (b : Buffers)
  | run (t : Nat)

def Act.thread : Act → Nat
  | .enter t _ => t
  | .run t => t

/-- A step of a machine whose threads make the `calls`, in their order. -/
def step (calls : List AllreduceCall) : Act → Option AllreduceObj
  | .enter t b =>
      match s.pc t with
      | .idle => (calls[s.call t]?).bind (s.enter groupSize t b)
      | _ => none
  | .run t => (calls[s.call t]?).bind (s.tmpiArdcoAllreduce groupSize t)

/-- Runs of the threads `0, .., groupSize - 1`. -/
inductive Reach (calls : List AllreduceCall) : AllreduceObj → Prop where
  | create : Reach calls create
  | step {s₁ s₂ act} : Reach calls s₁ → act.thread < groupSize →
      s₁.step groupSize calls act = some s₂ → Reach calls s₂

/-- The run of some actions. -/
def run (calls : List AllreduceCall) : AllreduceObj → List Act → Option AllreduceObj
  | s, [] => some s
  | s, act :: acts => (s.step groupSize calls act).bind fun s => run calls s acts

variable {groupSize s} in
theorem Reach.run {calls : List AllreduceCall} {s' : AllreduceObj} {acts : List Act}
    (reach : Reach groupSize calls s) (inside : ∀ act ∈ acts, act.thread < groupSize)
    (runs : s.run groupSize calls acts = some s') : Reach groupSize calls s' := by
  induction acts generalizing s with
  | nil => exact Option.some.inj runs ▸ reach
  | cons act acts ih =>
      obtain ⟨mid, taken, rest⟩ := Option.bind_eq_some_iff.mp runs
      exact ih (.step reach (inside act List.mem_cons_self) taken)
        (fun a later => inside a (List.mem_cons_of_mem act later)) rest

end AllreduceObj

/-! ## One use of a sub-object -/

namespace AllreducePc

/-- The `subp` of a thread. -/
def sub : AllreducePc → Option (Fin 2)
  | .idle => none
  | .look j | .claim j | .publish j | .await j | .combine j _ | .cas j _ _ | .bump j | .gather j
  | .count j _ | .reset j _ | .reopen j _ | .check j _ | .switch j _ => some j

/-- Has the result, and has yet to return it. -/
def result : AllreducePc → Option Buffers
  | .count _ b | .reset _ b | .reopen _ b | .check _ b | .switch _ b => some b
  | _ => none

/-- Uses the data. -/
def uses : AllreducePc → Bool
  | .combine .. | .cas .. | .bump _ | .gather _ => true
  | _ => false

end AllreducePc

/-- Where a thread is in a call, which it may have finished. -/
inductive CallStage where
  | inside (pc : AllreducePc)
  | past

namespace CallStage

/-- Has yet to be the first, or not. -/
def early : CallStage → Bool
  | .inside .idle | .inside (.look _) | .inside (.claim _) => true
  | _ => false

def waiting : CallStage → Bool
  | .inside (.await _) => true
  | stage => stage.early

/-- Has the result. -/
def finished : CallStage → Bool
  | .past => true
  | .inside pc => pc.result.isSome

/-- Has been counted in `avail`. -/
def arrived : CallStage → Bool
  | .inside (.gather _) => true
  | stage => stage.finished

/-- Has its element `i` in the data. -/
def contributed (i : Nat) : CallStage → Bool
  | .inside (.combine _ m) | .inside (.cas _ m _) => i < m
  | .inside (.bump _) => true
  | stage => stage.arrived

/-- Has been counted in `done`. -/
def copied : CallStage → Bool
  | .past | .inside (.reset ..) | .inside (.reopen ..) | .inside (.check ..) | .inside (.switch ..) => true
  | _ => false

/-- Has nothing more to do with the sub-object but to leave it. -/
def closed : CallStage → Bool
  | .past | .inside (.check ..) | .inside (.switch ..) => true
  | _ => false

/-- Has the sub-object for itself. -/
def alone : CallStage → Bool
  | .inside (.publish _) | .inside (.reset ..) | .inside (.reopen ..) => true
  | _ => false

/-- Is at work with the others. -/
def sharing : CallStage → Bool
  | stage => !stage.early && !stage.alone && !stage.closed

variable {stage : CallStage}

theorem early_waiting (early : stage.early = true) : stage.waiting = true := by
  cases stage with
  | past => cases early
  | inside pc => cases pc <;> first | rfl | cases early

theorem waiting_contributed (waiting : stage.waiting = true) (i : Nat) : stage.contributed i = false := by
  cases stage with
  | past => cases waiting
  | inside pc => cases pc <;> first | rfl | cases waiting

theorem waiting_arrived (waiting : stage.waiting = true) : stage.arrived = false := by
  cases stage with
  | past => cases waiting
  | inside pc => cases pc <;> first | rfl | cases waiting

theorem waiting_alone (waiting : stage.waiting = true) : stage.alone = false := by
  cases stage with
  | past => cases waiting
  | inside pc => cases pc <;> first | rfl | cases waiting

theorem arrived_contributed (arrived : stage.arrived = true) (i : Nat) : stage.contributed i = true := by
  cases stage with
  | past => rfl
  | inside pc => cases pc <;> first | rfl | cases arrived

theorem finished_arrived (finished : stage.finished = true) : stage.arrived = true := by
  cases stage with
  | past => rfl
  | inside pc => cases pc <;> first | rfl | cases finished

theorem copied_finished (copied : stage.copied = true) : stage.finished = true := by
  cases stage with
  | past => rfl
  | inside pc => cases pc <;> first | rfl | cases copied

theorem closed_copied (closed : stage.closed = true) : stage.copied = true := by
  cases stage with
  | past => rfl
  | inside pc => cases pc <;> first | rfl | cases closed

theorem closed_alone (closed : stage.closed = true) : stage.alone = false := by
  cases stage with
  | past => rfl
  | inside pc => cases pc <;> first | rfl | cases closed

end CallStage

namespace Sub

section Phases

variable (n : Nat) (c : AllreduceCall) (args : Nat → Buffers) (stage : Nat → CallStage) (sub : Sub)

/-- Nobody has been the first. -/
structure Fresh : Prop where
  avail : sub.avail = -1
  done : sub.done = 0
  stages : ∀ t < n, (stage t).early = true

/-- A thread has been the first, and the others wait. -/
structure Claimed : Prop where
  avail : sub.avail = 0
  done : sub.done = 0
  first : ∃ f < n, (∃ j, stage f = .inside (.publish j)) ∧ ∀ t < n, t ≠ f → (stage t).waiting = true

/-- The data is there. -/
structure Shared : Prop where
  avail : sub.avail = (threads n fun t => (stage t).arrived).card
  done : sub.done = (threads n fun t => (stage t).copied).card
  begun : ∃ t < n, (stage t).arrived = true
  several : ∀ t < n, (stage t).alone = false
  pending : ∃ t < n, (stage t).copied = false
  whole : (∃ t < n, (stage t).finished = true) → ∀ u < n, (stage u).arrived = true
  data : ∀ i < c.count, sub.data i =
    combined c.op (threads n fun t => (stage t).contributed i) fun t => (args t).sendbuf i
  count : sub.count = c.count
  live : sub.live = true

/-- All have copied the result, and the last one frees the data. -/
structure Resetting : Prop where
  avail : sub.avail = n
  done : sub.done = n
  last : ∃ r < n, (∃ j b, stage r = .inside (.reset j b)) ∧ ∀ t < n, t ≠ r → (stage t).closed = true

structure Reopening : Prop where
  avail : sub.avail = n
  done : sub.done = 0
  last : ∃ r < n, (∃ j b, stage r = .inside (.reopen j b)) ∧ ∀ t < n, t ≠ r → (stage t).closed = true

structure Closed : Prop where
  avail : sub.avail = -1
  done : sub.done = 0
  stages : ∀ t < n, (stage t).closed = true

/-- The use of a sub-object in one call, which has been reset `resets` times. -/
inductive Use : Nat → Prop where
  | fresh : sub.Fresh n stage → Use 0
  | claimed : sub.Claimed n stage → Use 0
  | shared : sub.Shared n c args stage → Use 0
  | resetting : sub.Resetting n stage → Use 0
  | reopening : sub.Reopening n stage → Use 0
  | closed : sub.Closed n stage → Use 1

end Phases

section Moves

variable {n t resets : Nat} {c : AllreduceCall} {args args' : Nat → Buffers} {stage : Nat → CallStage}
  {sub sub' : Sub} {st : CallStage}

theorem forall_update {P : CallStage → Prop} (all : ∀ u < n, P (stage u)) (here : P st) :
    ∀ u < n, P (Function.update stage t st u) := by
  intro u inside
  by_cases same : u = t
  · rw [same, Function.update_self]
    exact here
  · rw [Function.update_of_ne same]
    exact all u inside

theorem forall_update_ne {f : Nat} {P : CallStage → Prop} (all : ∀ u < n, u ≠ f → P (stage u))
    (here : P st) : ∀ u < n, u ≠ f → P (Function.update stage t st u) := by
  intro u inside ne
  by_cases same : u = t
  · rw [same, Function.update_self]
    exact here
  · rw [Function.update_of_ne same]
    exact all u inside ne

theorem threads_update (P : CallStage → Bool) (same : P st = P (stage t)) :
    (threads n fun u => P (Function.update stage t st u)) = threads n fun u => P (stage u) := by
  refine threads_congr fun u _ => ?_
  by_cases here : u = t
  · rw [here, Function.update_self, same]
  · rw [Function.update_of_ne here]

variable (stage) in
theorem threads_update_insert (P : CallStage → Bool) (inside : t < n) (now : P st = true) :
    (threads n fun u => P (Function.update stage t st u)) = insert t (threads n fun u => P (stage u)) := by
  refine threads_insert inside (fun u _ ne => ?_) ?_
  · rw [Function.update_of_ne ne]
  · rw [Function.update_self, now]

variable (stage) in
theorem card_update (P : CallStage → Bool) (inside : t < n) (now : P st = true)
    (before : P (stage t) = false) :
    (threads n fun u => P (Function.update stage t st u)).card = (threads n fun u => P (stage u)).card + 1 := by
  refine threads_card_insert inside (fun u _ ne => ?_) ?_ before
  · rw [Function.update_of_ne ne]
  · rw [Function.update_self, now]

theorem Resetting.ended (resetting : sub.Resetting n stage) (inside : t < n) :
    (stage t).alone = true ∨ (stage t).closed = true := by
  obtain ⟨r, -, ⟨j, b, last⟩, others⟩ := resetting.last
  by_cases same : t = r
  · rw [same, last]
    exact .inl rfl
  · exact .inr (others t inside same)

theorem Reopening.ended (reopening : sub.Reopening n stage) (inside : t < n) :
    (stage t).alone = true ∨ (stage t).closed = true := by
  obtain ⟨r, -, ⟨j, b, last⟩, others⟩ := reopening.last
  by_cases same : t = r
  · rw [same, last]
    exact .inl rfl
  · exact .inr (others t inside same)

theorem not_ended_of_waiting (waiting : (stage t).waiting = true) :
    ¬ ((stage t).alone = true ∨ (stage t).closed = true) := by
  cases at' : stage t with
  | past =>
      rw [at'] at waiting
      cases waiting
  | inside pc =>
      rw [at'] at waiting
      cases pc <;> simp_all [CallStage.waiting, CallStage.early, CallStage.alone, CallStage.closed]

/-- A thread that is at work has others at work with it. -/
theorem Use.shared_of_sharing (use : sub.Use n c args stage resets) (inside : t < n)
    (sharing : (stage t).sharing = true) (ready : sub.avail ≠ 0 ∨ (stage t).waiting = false) :
    sub.Shared n c args stage ∧ resets = 0 := by
  rw [CallStage.sharing, Bool.and_eq_true, Bool.and_eq_true, Bool.not_eq_true', Bool.not_eq_true',
    Bool.not_eq_true'] at sharing
  obtain ⟨⟨late, several⟩, opened⟩ := sharing
  have work : ¬ ((stage t).alone = true ∨ (stage t).closed = true) := by simp [several, opened]
  cases use with
  | fresh fresh =>
      have early := fresh.stages t inside
      rw [late] at early
      cases early
  | claimed claimed =>
      obtain ⟨f, low, ⟨j, first⟩, others⟩ := claimed.first
      by_cases same : t = f
      · rw [same, first] at several
        cases several
      · have waits := others t inside same
        cases ready with
        | inl set' => exact absurd claimed.avail set'
        | inr ahead =>
            rw [ahead] at waits
            cases waits
  | shared shared => exact ⟨shared, rfl⟩
  | resetting resetting => exact absurd (resetting.ended inside) work
  | reopening reopening => exact absurd (reopening.ended inside) work
  | closed closed => exact absurd (.inr (closed.stages t inside)) work

/-- A step of a thread that is counted as before. -/
theorem Shared.move (shared : sub.Shared n c args stage)
    (arrived : st.arrived = (stage t).arrived) (copied : st.copied = (stage t).copied)
    (alone : st.alone = false) (finished : st.finished = true → ∀ u < n, (stage u).arrived = true)
    (same : sub' = { sub with data := sub'.data })
    (data : ∀ i < c.count, sub'.data i = combined c.op
      (threads n fun u => (Function.update stage t st u).contributed i) fun u => (args u).sendbuf i) :
    sub'.Shared n c args (Function.update stage t st) where
  avail := by
    rw [threads_update CallStage.arrived arrived, same]
    exact shared.avail
  done := by
    rw [threads_update CallStage.copied copied, same]
    exact shared.done
  begun := by
    obtain ⟨u, low, here⟩ := shared.begun
    refine ⟨u, low, ?_⟩
    by_cases self : u = t
    · rw [self, Function.update_self, arrived, ← self, here]
    · rw [Function.update_of_ne self, here]
  several := forall_update (P := fun st => st.alone = false) shared.several alone
  pending := by
    obtain ⟨u, low, here⟩ := shared.pending
    refine ⟨u, low, ?_⟩
    by_cases self : u = t
    · rw [self, Function.update_self, copied, ← self, here]
    · rw [Function.update_of_ne self, here]
  whole := by
    rintro ⟨u, low, has⟩
    have all : ∀ v < n, (stage v).arrived = true := by
      by_cases self : u = t
      · rw [self, Function.update_self] at has
        exact finished has
      · rw [Function.update_of_ne self] at has
        exact shared.whole ⟨u, low, has⟩
    intro v below
    by_cases self : v = t
    · rw [self, Function.update_self, arrived, ← self, all v below]
    · rw [Function.update_of_ne self, all v below]
  data := data
  count := by rw [same]; exact shared.count
  live := by rw [same]; exact shared.live

/-- A step that leaves the sub-object as it is, and the thread as it is counted. -/
theorem Shared.stay (shared : sub.Shared n c args stage) (arrived : st.arrived = (stage t).arrived)
    (copied : st.copied = (stage t).copied) (alone : st.alone = false)
    (contributed : ∀ i < c.count, st.contributed i = (stage t).contributed i)
    (finished : st.finished = true → ∀ u < n, (stage u).arrived = true) :
    sub.Shared n c args (Function.update stage t st) := by
  refine shared.move arrived copied alone finished rfl fun i below => ?_
  rw [threads_update (CallStage.contributed i) (contributed i below)]
  exact shared.data i below

/-- A thread is still not the first. -/
theorem Use.wait (use : sub.Use n c args stage resets) (inside : t < n)
    (before : (stage t).waiting = true) (after : st.waiting = true)
    (later : st.early = true ∨ sub.avail ≠ -1) :
    sub.Use n c args (Function.update stage t st) resets := by
  have work := not_ended_of_waiting before
  cases use with
  | fresh fresh =>
      have early : st.early = true := later.resolve_right fun other => other fresh.avail
      exact .fresh ⟨fresh.avail, fresh.done, forall_update (P := fun st => st.early = true) fresh.stages early⟩
  | claimed claimed =>
      obtain ⟨f, low, ⟨j, first⟩, others⟩ := claimed.first
      have ne : f ≠ t := by
        rintro rfl
        rw [first] at before
        cases before
      refine .claimed ⟨claimed.avail, claimed.done, f, low, ⟨j, ?_⟩,
        forall_update_ne (P := fun st => st.waiting = true) others after⟩
      rw [Function.update_of_ne ne, first]
  | shared shared =>
      have unfinished : ∀ {st : CallStage}, st.waiting = true → st.copied = false := by
        intro st waits
        cases has : st.copied with
        | false => rfl
        | true =>
            have arrived := CallStage.finished_arrived (CallStage.copied_finished has)
            rw [CallStage.waiting_arrived waits] at arrived
            cases arrived
      refine .shared (shared.stay ?_ ?_ (CallStage.waiting_alone after) (fun i _ => ?_) fun has => ?_)
      · rw [CallStage.waiting_arrived after, CallStage.waiting_arrived before]
      · rw [unfinished after, unfinished before]
      · rw [CallStage.waiting_contributed after, CallStage.waiting_contributed before]
      · have arrived := CallStage.finished_arrived has
        rw [CallStage.waiting_arrived after] at arrived
        cases arrived
  | resetting resetting => exact absurd (resetting.ended inside) work
  | reopening reopening => exact absurd (reopening.ended inside) work
  | closed closed => exact absurd (.inr (closed.stages t inside)) work

/-- A thread is the first. -/
theorem Use.claim {j : Fin 2} (use : sub.Use n c args stage resets) (inside : t < n)
    (before : (stage t).waiting = true) (free : sub.avail = -1) :
    resets = 0 ∧ Claimed n (Function.update stage t (.inside (.publish j))) { sub with avail := 0 } := by
  have work := not_ended_of_waiting before
  cases use with
  | fresh fresh =>
      refine ⟨rfl, rfl, fresh.done, t, inside, ⟨j, Function.update_self _ _ _⟩, fun u low ne => ?_⟩
      rw [Function.update_of_ne ne]
      exact CallStage.early_waiting (fresh.stages u low)
  | claimed claimed =>
      rw [claimed.avail] at free
      exact absurd free (by decide)
  | shared shared =>
      rw [shared.avail] at free
      omega
  | resetting resetting => exact absurd (resetting.ended inside) work
  | reopening reopening => exact absurd (reopening.ended inside) work
  | closed closed => exact absurd (.inr (closed.stages t inside)) work

/-- The first thread has put its data into the sub-object. -/
theorem Use.publish {j m : Fin 2} (use : sub.Use n c args stage resets) (inside : t < n)
    (first : stage t = .inside (.publish j)) {data : Ints}
    (filled : ∀ i < c.count, data i = (args t).sendbuf i) :
    resets = 0 ∧ Shared n c args (Function.update stage t (.inside (.gather m)))
      { sub with avail := 1, data, count := c.count, live := true } := by
  have open' : ¬ (stage t).closed = true := by rw [first]; nofun
  cases use with
  | fresh fresh =>
      have early := fresh.stages t inside
      rw [first] at early
      cases early
  | claimed claimed =>
      obtain ⟨f, low, -, others⟩ := claimed.first
      have waits : ∀ u < n, u ≠ t → (stage u).waiting = true := by
        intro u below ne
        by_cases same : u = f
        · by_cases same' : t = f
          · exact absurd (same.trans same'.symm) ne
          · have waiting := others t inside same'
            rw [first] at waiting
            cases waiting
        · exact others u below same
      have alone : ∀ (P : CallStage → Bool), P (.inside (.gather m)) = true →
          (∀ st : CallStage, st.waiting = true → P st = false) →
          (threads n fun u => P (Function.update stage t (.inside (.gather m)) u)) = {t} := by
        intro P here absent
        ext u
        rw [threads, Finset.mem_filter, Finset.mem_range, Finset.mem_singleton]
        constructor
        · rintro ⟨below, has⟩
          by_contra ne
          rw [Function.update_of_ne ne, absent _ (waits u below ne)] at has
          cases has
        · rintro rfl
          rw [Function.update_self]
          exact ⟨inside, here⟩
      refine ⟨rfl, ?_, ?_, ?_, ?_, ?_, ?_, ?_, rfl, rfl⟩
      · rw [alone CallStage.arrived rfl fun st waits => CallStage.waiting_arrived waits]
        rfl
      · rw [threads_empty]
        · exact claimed.done
        · intro u below
          by_cases same : u = t
          · rw [same, Function.update_self]
            rfl
          · rw [Function.update_of_ne same]
            cases has : (stage u).copied with
            | false => rfl
            | true =>
                have arrived := CallStage.finished_arrived (CallStage.copied_finished has)
                rw [CallStage.waiting_arrived (waits u below same)] at arrived
                cases arrived
      · exact ⟨t, inside, by rw [Function.update_self]; rfl⟩
      · intro u below
        by_cases same : u = t
        · rw [same, Function.update_self]
          rfl
        · rw [Function.update_of_ne same]
          exact CallStage.waiting_alone (waits u below same)
      · exact ⟨t, inside, by rw [Function.update_self]; rfl⟩
      · rintro ⟨u, below, has⟩
        by_cases same : u = t
        · rw [same, Function.update_self] at has
          cases has
        · rw [Function.update_of_ne same] at has
          have arrived := CallStage.finished_arrived has
          rw [CallStage.waiting_arrived (waits u below same)] at arrived
          cases arrived
      · intro i below
        rw [alone (CallStage.contributed i) rfl fun st waits => CallStage.waiting_contributed waits i,
          combined_singleton]
        exact filled i below
  | shared shared =>
      have alone := shared.several t inside
      rw [first] at alone
      cases alone
  | resetting resetting =>
      obtain ⟨r, -, ⟨j, b, last⟩, others⟩ := resetting.last
      by_cases same : t = r
      · rw [same, last] at first
        cases first
      · exact absurd (others t inside same) open'
  | reopening reopening =>
      obtain ⟨r, -, ⟨j, b, last⟩, others⟩ := reopening.last
      by_cases same : t = r
      · rw [same, last] at first
        cases first
      · exact absurd (others t inside same) open'
  | closed closed => exact absurd (closed.stages t inside) open'

/-- A thread adds its element `i`. -/
theorem Shared.contribute {j : Fin 2} {i : Nat} (shared : sub.Shared n c args stage) (inside : t < n)
    (adding : ∀ m, (stage t).contributed m = decide (m < i)) (arrived : (stage t).arrived = false)
    (copied : (stage t).copied = false) (data : sub'.data i = rdcInt c.op (sub.data i) ((args t).sendbuf i))
    (others : ∀ m, m ≠ i → sub'.data m = sub.data m) (same : sub' = { sub with data := sub'.data }) :
    sub'.Shared n c args (Function.update stage t (.inside (.combine j (i + 1)))) := by
  refine shared.move (arrived ▸ rfl) (copied ▸ rfl) rfl nofun same fun m below => ?_
  by_cases here : m = i
  · subst here
    have now : (CallStage.inside (.combine j (m + 1))).contributed m = true :=
      decide_eq_true (Nat.lt_succ_self m)
    have added := threads_update_insert stage (CallStage.contributed m) inside now
    rw [added, combined_insert, data, shared.data m below]
    intro member
    have has : (stage t).contributed m = true := (Finset.mem_filter.mp member).2
    rw [adding, decide_eq_true_iff] at has
    exact lt_irrefl m has
  · rw [others m here, threads_update (CallStage.contributed m)]
    · exact shared.data m below
    · rw [adding]
      show decide (m < i + 1) = decide (m < i)
      rw [decide_eq_decide]
      omega

/-- A thread is counted in `avail`. -/
theorem Shared.bump {j j' : Fin 2} (shared : sub.Shared n c args stage) (inside : t < n)
    (at' : stage t = .inside (.bump j)) :
    Shared n c args (Function.update stage t (.inside (.gather j'))) { sub with avail := sub.avail + 1 } where
  avail := by
    rw [card_update stage CallStage.arrived inside rfl (by rw [at']; rfl), Nat.cast_add, Nat.cast_one, shared.avail]
  done := by
    rw [threads_update CallStage.copied (by rw [at']; rfl)]
    exact shared.done
  begun := ⟨t, inside, by rw [Function.update_self]; rfl⟩
  several := forall_update (P := fun st => st.alone = false) shared.several rfl
  pending := ⟨t, inside, by rw [Function.update_self]; rfl⟩
  whole := by
    rintro ⟨u, low, has⟩
    by_cases self : u = t
    · rw [self, Function.update_self] at has
      cases has
    · rw [Function.update_of_ne self] at has
      have mine := shared.whole ⟨u, low, has⟩ t inside
      rw [at'] at mine
      cases mine
  data i below := by
    rw [threads_update (CallStage.contributed i) (by rw [at']; rfl)]
    exact shared.data i below
  count := shared.count
  live := shared.live

/-- When all are counted in `avail`, the data is what it should be. -/
theorem Shared.total (shared : sub.Shared n c args stage) (all : sub.avail = n) :
    (∀ u < n, (stage u).arrived = true) ∧ ∀ i < c.count, sub.data i =
      combined c.op (Finset.range n) fun u => (args u).sendbuf i := by
  have full : (threads n fun u => (stage u).arrived).card = n := by
    have := shared.avail
    omega
  have arrived := threads_all full
  refine ⟨arrived, fun i below => ?_⟩
  rw [shared.data i below]
  congr 1
  exact Finset.filter_true_of_mem fun u member =>
    CallStage.arrived_contributed (arrived u (Finset.mem_range.mp member)) i

theorem Shared.avail_pos (shared : sub.Shared n c args stage) : 0 < sub.avail := by
  obtain ⟨t, inside, arrived⟩ := shared.begun
  rw [shared.avail]
  have member : t ∈ threads n fun u => (stage u).arrived :=
    Finset.mem_filter.mpr ⟨Finset.mem_range.mpr inside, arrived⟩
  exact_mod_cast Finset.card_pos.mpr ⟨t, member⟩

theorem Shared.avail_eq (shared : sub.Shared n c args stage) (arrived : ∀ u < n, (stage u).arrived = true) :
    sub.avail = n := by
  have all : (threads n fun u => (stage u).arrived) = Finset.range n :=
    Finset.filter_true_of_mem fun u member => arrived u (Finset.mem_range.mp member)
  rw [shared.avail, all, Finset.card_range]

theorem Shared.whole_avail (shared : sub.Shared n c args stage) (inside : t < n)
    (finished : (stage t).finished = true) : sub.avail = n :=
  shared.avail_eq (shared.whole ⟨t, inside, finished⟩)

/-- A thread is counted in `done`, and is not the last. -/
theorem Shared.count_up {j j' : Fin 2} {b b' : Buffers} (shared : sub.Shared n c args stage) (inside : t < n)
    (at' : stage t = .inside (.count j b)) (more : sub.done + 1 ≠ n) :
    Shared n c args (Function.update stage t (.inside (.check j' b'))) { sub with done := sub.done + 1 } := by
  have now : (CallStage.inside (.check j' b')).copied = true := rfl
  have counted := card_update stage CallStage.copied inside now (by rw [at']; rfl)
  have done : sub.done + 1 = (threads n fun u =>
      (Function.update stage t (.inside (.check j' b')) u).copied).card := by
    rw [counted, Nat.cast_add, Nat.cast_one, shared.done]
  refine ⟨?_, done, ⟨t, inside, by rw [Function.update_self]; rfl⟩, ?_, ?_, ?_, ?_, shared.count, shared.live⟩
  · rw [threads_update CallStage.arrived (by rw [at']; rfl)]
    exact shared.avail
  · exact forall_update (P := fun st => st.alone = false) shared.several rfl
  · by_contra none
    push Not at none
    refine more ?_
    have all : (threads n fun u => (Function.update stage t (.inside (.check j' b')) u).copied) =
        Finset.range n := Finset.filter_true_of_mem fun u member =>
      Bool.eq_true_of_not_eq_false (none u (Finset.mem_range.mp member))
    rw [done, all, Finset.card_range]
  · intro _
    have arrived := shared.whole ⟨t, inside, by rw [at']; rfl⟩
    exact forall_update (P := fun st => st.arrived = true) arrived rfl
  · intro i below
    rw [threads_update (CallStage.contributed i) (by rw [at']; rfl)]
    exact shared.data i below

/-- The last thread is counted in `done`. -/
theorem Shared.count_last {j j' : Fin 2} {b b' : Buffers} (shared : sub.Shared n c args stage)
    (inside : t < n) (at' : stage t = .inside (.count j b)) (last : sub.done + 1 = n) :
    Resetting n (Function.update stage t (.inside (.reset j' b'))) { sub with done := sub.done + 1 } := by
  refine ⟨shared.whole_avail inside (by rw [at']; rfl), last, t, inside, ⟨j', b', Function.update_self _ _ _⟩,
    fun u low ne => ?_⟩
  have now : (CallStage.inside (.reset j' b')).copied = true := rfl
  have counted := card_update stage CallStage.copied inside now (by rw [at']; rfl)
  have full : (threads n fun u => (Function.update stage t (.inside (.reset j' b')) u).copied).card = n := by
    have := shared.done
    omega
  have copied := threads_all full u low
  rw [Function.update_of_ne ne] at copied ⊢
  have alone := shared.several u low
  cases here : stage u with
  | past => rfl
  | inside pc =>
      rw [here] at copied alone
      cases pc <;> simp_all [CallStage.closed, CallStage.copied, CallStage.alone]

/-- When all wait, the data is there. -/
theorem Use.shared_of_all (use : sub.Use n c args stage resets) (inside : t < n)
    (sharing : ∀ u < n, (stage u).sharing = true) : sub.Shared n c args stage := by
  have apart : ∀ u < n, (stage u).early = false ∧ (stage u).alone = false := by
    intro u low
    have here := sharing u low
    rw [CallStage.sharing, Bool.and_eq_true, Bool.and_eq_true, Bool.not_eq_true', Bool.not_eq_true',
      Bool.not_eq_true'] at here
    exact here.1
  cases use with
  | fresh fresh =>
      have early := fresh.stages t inside
      rw [(apart t inside).1] at early
      cases early
  | claimed claimed =>
      obtain ⟨f, low, ⟨j, first⟩, -⟩ := claimed.first
      have alone := (apart f low).2
      rw [first] at alone
      cases alone
  | shared shared => exact shared
  | resetting resetting =>
      obtain ⟨r, low, ⟨j, b, last⟩, -⟩ := resetting.last
      have alone := (apart r low).2
      rw [last] at alone
      cases alone
  | reopening reopening =>
      obtain ⟨r, low, ⟨j, b, last⟩, -⟩ := reopening.last
      have alone := (apart r low).2
      rw [last] at alone
      cases alone
  | closed closed =>
      have here := sharing t inside
      rw [CallStage.sharing, closed.stages t inside, Bool.not_true, Bool.and_false] at here
      cases here

/-- The last thread that copies the result has the sub-object for itself. -/
theorem Use.ending (use : sub.Use n c args stage resets) (inside : t < n)
    (alone : (stage t).alone = true) (finished : (stage t).finished = true) :
    (sub.Resetting n stage ∨ sub.Reopening n stage) ∧ resets = 0 := by
  have arrived := CallStage.finished_arrived finished
  cases use with
  | fresh fresh =>
      have early := CallStage.waiting_arrived (CallStage.early_waiting (fresh.stages t inside))
      rw [arrived] at early
      cases early
  | claimed claimed =>
      obtain ⟨f, -, ⟨j, first⟩, others⟩ := claimed.first
      by_cases same : t = f
      · rw [same, first] at finished
        cases finished
      · have waits := CallStage.waiting_arrived (others t inside same)
        rw [arrived] at waits
        cases waits
  | shared shared =>
      rw [shared.several t inside] at alone
      cases alone
  | resetting resetting => exact ⟨.inl resetting, rfl⟩
  | reopening reopening => exact ⟨.inr reopening, rfl⟩
  | closed closed =>
      rw [CallStage.closed_alone (closed.stages t inside)] at alone
      cases alone

theorem Use.resetting_of {j : Fin 2} {b : Buffers} (use : sub.Use n c args stage resets) (inside : t < n)
    (at' : stage t = .inside (.reset j b)) : sub.Resetting n stage ∧ resets = 0 := by
  obtain ⟨phase, unset⟩ := use.ending inside (by rw [at']; rfl) (by rw [at']; rfl)
  refine ⟨phase.resolve_right fun reopening => ?_, unset⟩
  obtain ⟨r, -, ⟨j, b, last⟩, others⟩ := reopening.last
  by_cases same : t = r
  · rw [same, last] at at'
    cases at'
  · have closed := others t inside same
    rw [at'] at closed
    cases closed

theorem Use.reopening_of {j : Fin 2} {b : Buffers} (use : sub.Use n c args stage resets) (inside : t < n)
    (at' : stage t = .inside (.reopen j b)) : sub.Reopening n stage ∧ resets = 0 := by
  obtain ⟨phase, unset⟩ := use.ending inside (by rw [at']; rfl) (by rw [at']; rfl)
  refine ⟨phase.resolve_left fun resetting => ?_, unset⟩
  obtain ⟨r, -, ⟨j, b, last⟩, others⟩ := resetting.last
  by_cases same : t = r
  · rw [same, last] at at'
    cases at'
  · have closed := others t inside same
    rw [at'] at closed
    cases closed

/-- The last thread resets the sub-object when all have copied the result. -/
theorem Use.copied_of_ending (use : sub.Use n c args stage resets) (inside : t < n)
    (alone : (stage t).alone = true) (finished : (stage t).finished = true) :
    ∀ u < n, (stage u).copied = true := by
  intro u low
  cases (use.ending inside alone finished).1 with
  | inl resetting =>
      obtain ⟨r, -, ⟨j, b, last⟩, others⟩ := resetting.last
      by_cases same : u = r
      · rw [same, last]
        rfl
      · exact CallStage.closed_copied (others u low same)
  | inr reopening =>
      obtain ⟨r, -, ⟨j, b, last⟩, others⟩ := reopening.last
      by_cases same : u = r
      · rw [same, last]
        rfl
      · exact CallStage.closed_copied (others u low same)

/-- The last thread frees the data and sets `done`. -/
theorem Resetting.reset {j j' : Fin 2} {b b' : Buffers} (resetting : sub.Resetting n stage) (inside : t < n)
    (at' : stage t = .inside (.reset j b)) :
    Reopening n (Function.update stage t (.inside (.reopen j' b'))) { sub with live := false, done := 0 } := by
  refine ⟨resetting.avail, rfl, t, inside, ⟨j', b', Function.update_self _ _ _⟩, fun u low ne => ?_⟩
  obtain ⟨r, -, -, others⟩ := resetting.last
  rw [Function.update_of_ne ne]
  by_cases same : u = r
  · have here := others t inside fun same' => ne (same.trans same'.symm)
    rw [at'] at here
    cases here
  · exact others u low same

theorem Reopening.reopen {j j' : Fin 2} {b b' : Buffers} (reopening : sub.Reopening n stage) (inside : t < n)
    (at' : stage t = .inside (.reopen j b)) :
    Closed n (Function.update stage t (.inside (.check j' b'))) { sub with avail := -1 } := by
  refine ⟨rfl, reopening.done, fun u low => ?_⟩
  obtain ⟨r, -, -, others⟩ := reopening.last
  by_cases ne : u = t
  · rw [ne, Function.update_self]
    rfl
  · rw [Function.update_of_ne ne]
    by_cases same : u = r
    · have here := others t inside fun same' => ne (same.trans same'.symm)
      rw [at'] at here
      cases here
    · exact others u low same

/-- A thread leaves the sub-object. -/
theorem Use.away (use : sub.Use n c args stage resets) (inside : t < n) (before : (stage t).closed = true)
    (after : st.closed = true) : sub.Use n c args (Function.update stage t st) resets := by
  have copied := CallStage.closed_copied before
  have finished := CallStage.copied_finished copied
  have arrived := CallStage.finished_arrived finished
  have copied' := CallStage.closed_copied after
  have arrived' := CallStage.finished_arrived (CallStage.copied_finished copied')
  have unlike : ∀ r, (stage r).closed = false → r ≠ t := by
    rintro r open' rfl
    rw [open'] at before
    cases before
  cases use with
  | fresh fresh =>
      have early := CallStage.waiting_arrived (CallStage.early_waiting (fresh.stages t inside))
      rw [arrived] at early
      cases early
  | claimed claimed =>
      obtain ⟨f, -, ⟨j, first⟩, others⟩ := claimed.first
      have waits := CallStage.waiting_arrived (others t inside (unlike f (by rw [first]; rfl)).symm)
      rw [arrived] at waits
      cases waits
  | shared shared =>
      refine .shared (shared.stay (arrived'.trans arrived.symm) (copied'.trans copied.symm)
        (CallStage.closed_alone after) (fun i _ => ?_) fun _ => shared.whole ⟨t, inside, finished⟩)
      rw [CallStage.arrived_contributed arrived', CallStage.arrived_contributed arrived]
  | resetting resetting =>
      obtain ⟨r, low, ⟨j, b, last⟩, others⟩ := resetting.last
      refine .resetting ⟨resetting.avail, resetting.done, r, low, ⟨j, b, ?_⟩,
        forall_update_ne (P := fun st => st.closed = true) others after⟩
      rw [Function.update_of_ne (unlike r (by rw [last]; rfl)), last]
  | reopening reopening =>
      obtain ⟨r, low, ⟨j, b, last⟩, others⟩ := reopening.last
      refine .reopening ⟨reopening.avail, reopening.done, r, low, ⟨j, b, ?_⟩,
        forall_update_ne (P := fun st => st.closed = true) others after⟩
      rw [Function.update_of_ne (unlike r (by rw [last]; rfl)), last]
  | closed closed =>
      exact .closed ⟨closed.avail, closed.done,
        forall_update (P := fun st => st.closed = true) closed.stages after⟩

/-- When a thread has the result, all are counted in `avail`. -/
theorem Use.whole (use : sub.Use n c args stage resets) (inside : t < n)
    (finished : (stage t).finished = true) : ∀ u < n, (stage u).arrived = true := by
  have arrived := CallStage.finished_arrived finished
  have ended : ∀ u, (stage u).closed = true → (stage u).arrived = true := fun u closed =>
    CallStage.finished_arrived (CallStage.copied_finished (CallStage.closed_copied closed))
  intro u low
  cases use with
  | fresh fresh =>
      have early := CallStage.waiting_arrived (CallStage.early_waiting (fresh.stages t inside))
      rw [arrived] at early
      cases early
  | claimed claimed =>
      obtain ⟨f, -, ⟨j, first⟩, others⟩ := claimed.first
      by_cases same : t = f
      · rw [same, first] at arrived
        cases arrived
      · have waits := CallStage.waiting_arrived (others t inside same)
        rw [arrived] at waits
        cases waits
  | shared shared => exact shared.whole ⟨t, inside, finished⟩ u low
  | resetting resetting =>
      obtain ⟨r, -, ⟨j, b, last⟩, others⟩ := resetting.last
      by_cases same : u = r
      · rw [same, last]
        rfl
      · exact ended u (others u low same)
  | reopening reopening =>
      obtain ⟨r, -, ⟨j, b, last⟩, others⟩ := reopening.last
      by_cases same : u = r
      · rw [same, last]
        rfl
      · exact ended u (others u low same)
  | closed closed => exact ended u (closed.stages u low)

theorem Use.resets_le (use : sub.Use n c args stage resets) : resets ≤ 1 := by
  cases use <;> decide

theorem Use.closed_of_pos (use : sub.Use n c args stage resets) (reset : 0 < resets) :
    sub.Closed n stage := by
  cases use with
  | closed closed => exact closed
  | _ => exact absurd reset (lt_irrefl 0)

/-- When all threads have left it, the sub-object has been reset. -/
theorem Use.closed_of_past (use : sub.Use n c args stage resets) (inside : t < n)
    (gone : ∀ u < n, stage u = .past) : sub.Closed n stage ∧ resets = 1 := by
  cases use with
  | fresh fresh =>
      have early := fresh.stages t inside
      rw [gone t inside] at early
      cases early
  | claimed claimed =>
      obtain ⟨f, low, ⟨i, first⟩, -⟩ := claimed.first
      rw [gone f low] at first
      cases first
  | shared shared =>
      obtain ⟨u, low, pending⟩ := shared.pending
      rw [gone u low] at pending
      cases pending
  | resetting resetting =>
      obtain ⟨r, low, ⟨i, b, last⟩, -⟩ := resetting.last
      rw [gone r low] at last
      cases last
  | reopening reopening =>
      obtain ⟨r, low, ⟨i, b, last⟩, -⟩ := reopening.last
      rw [gone r low] at last
      cases last
  | closed closed => exact ⟨closed, rfl⟩

/-- What the threads that have not begun will pass does not matter yet. -/
theorem Use.pass (use : sub.Use n c args stage resets)
    (same : ∀ u < n, (stage u).waiting = false → args' u = args u) : sub.Use n c args' stage resets := by
  cases use with
  | fresh fresh => exact .fresh fresh
  | claimed claimed => exact .claimed claimed
  | shared shared =>
      refine .shared { shared with data := fun i below => ?_ }
      rw [shared.data i below]
      refine (Finset.fold_congr fun u member => ?_).symm
      obtain ⟨low, has⟩ := Finset.mem_filter.mp member
      rw [same u (Finset.mem_range.mp low)]
      cases waits : (stage u).waiting with
      | false => rfl
      | true =>
          have contributed : (stage u).contributed i = true := has
          rw [CallStage.waiting_contributed waits] at contributed
          cases contributed
  | resetting resetting => exact .resetting resetting
  | reopening reopening => exact .reopening reopening
  | closed closed => exact .closed closed

end Moves

end Sub

end Tmpi.Coll
