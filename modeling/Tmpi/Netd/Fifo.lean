import Tmpi.Lib.Ring
import Tmpi.Lib.Wakeup

/-! `fifo.c`: a bounded queue between any number of producers and consumers. -/

namespace Tmpi.Netd

/-- `FIFO`, without its mutex and its conditions. -/
structure Fifo (Item : Type) where
  bufSize : Nat
  queue : Nat → Item
  header : Nat
  tail : Nat

/-- `FIFO_LEN_DEFAULT` -/
def fifoLenDefault : Int := 1024

/-- `fifo_create`, where `calloc` succeeds. -/
def fifoCreate {Item : Type} (null : Item) (len : Int) : Fifo Item where
  bufSize := (if len < fifoLenDefault then fifoLenDefault else len).toNat
  queue _ := null
  header := 0
  tail := 0

/-- Where a thread is. A call goes on in a new locked region when it has been woken. -/
inductive FifoPc (Item : Type) where
  | idle
  /-- Waits on `full` in `fifo_enqueue`. -/
  | full (item : Item)
  | fullWoken (item : Item)
  /-- Waits on `empty` in `fifo_dequeue`. -/
  | empty
  | emptyWoken

/-- A queue and its threads, with what `fifo_enqueue` has stored and `fifo_dequeue` returned. -/
structure FifoSys (Item : Type) where
  q : Fifo Item
  pc : Nat → FifoPc Item
  enqueued : List Item
  dequeued : List Item

namespace FifoPc

variable {Item : Type}

def onEmpty : FifoPc Item → CondPhase
  | .empty => .waiting
  | .emptyWoken => .woken
  | _ => .off

def onFull : FifoPc Item → CondPhase
  | .full _ => .waiting
  | .fullWoken _ => .woken
  | _ => .off

def wakeEmpty : FifoPc Item → FifoPc Item
  | .empty => .emptyWoken
  | pc => pc

def wakeFull : FifoPc Item → FifoPc Item
  | .full item => .fullWoken item
  | pc => pc

@[simp] theorem wakeEmpty_onFull (pc : FifoPc Item) : pc.wakeEmpty.onFull = pc.onFull := by
  cases pc <;> rfl

@[simp] theorem wakeFull_onEmpty (pc : FifoPc Item) : pc.wakeFull.onEmpty = pc.onEmpty := by
  cases pc <;> rfl

theorem wakeEmpty_wakes (pc : FifoPc Item) : pc.wakeEmpty.onEmpty = pc.onEmpty ∨
    pc.onEmpty = .waiting ∧ pc.wakeEmpty.onEmpty = .woken := by
  cases pc with
  | empty => exact .inr ⟨rfl, rfl⟩
  | _ => exact .inl rfl

theorem wakeFull_wakes (pc : FifoPc Item) : pc.wakeFull.onFull = pc.onFull ∨
    pc.onFull = .waiting ∧ pc.wakeFull.onFull = .woken := by
  cases pc with
  | full item => exact .inr ⟨rfl, rfl⟩
  | _ => exact .inl rfl

theorem wakeEmpty_waiting {pc : FifoPc Item} (waits : pc.onEmpty = .waiting) :
    pc.wakeEmpty.onEmpty = .woken := by
  cases pc with
  | empty => rfl
  | _ => cases waits

theorem wakeFull_waiting {pc : FifoPc Item} (waits : pc.onFull = .waiting) :
    pc.wakeFull.onFull = .woken := by
  cases pc with
  | full item => rfl
  | _ => cases waits

end FifoPc

namespace FifoSys

variable {Item : Type} (n : Nat) (s : FifoSys Item) (t : Nat)

def create (null : Item) (len : Int) : FifoSys Item := ⟨fifoCreate null len, fun _ => .idle, [], []⟩

def goto (pc : FifoPc Item) : FifoSys Item := { s with pc := Function.update s.pc t pc }

/-- `thr_cnd_signal(&(q->empty))` wakes at least one thread, if one waits. -/
def signalEmpty (wakes : Nat → Bool) : Option (FifoSys Item) :=
  if (∃ u < n, (s.pc u).onEmpty = .waiting) → ∃ u < n, (s.pc u).onEmpty = .waiting ∧ wakes u = true
  then some { s with pc := fun u => if wakes u then (s.pc u).wakeEmpty else s.pc u }
  else none

def signalFull (wakes : Nat → Bool) : Option (FifoSys Item) :=
  if (∃ u < n, (s.pc u).onFull = .waiting) → ∃ u < n, (s.pc u).onFull = .waiting ∧ wakes u = true
  then some { s with pc := fun u => if wakes u then (s.pc u).wakeFull else s.pc u }
  else none

/-- A locked region of `fifo_enqueue`. -/
def fifoEnqueue (item : Item) (wakes : Nat → Bool) : Option (FifoSys Item) :=
  let newtail := (s.q.tail + 1) % s.q.bufSize
  if newtail = s.q.header then some (s.goto t (.full item))
  else
    let q := { s.q with queue := Function.update s.q.queue s.q.tail item, tail := newtail }
    ({ s with q, enqueued := s.enqueued ++ [item] }.goto t .idle).signalEmpty n wakes

/-- A locked region of `fifo_dequeue`. -/
def fifoDequeue (wakes : Nat → Bool) : Option (FifoSys Item) :=
  if s.q.tail = s.q.header then some (s.goto t .empty)
  else
    let item := s.q.queue s.q.header
    let q := { s.q with header := (s.q.header + 1) % s.q.bufSize }
    ({ s with q, dequeued := s.dequeued ++ [item] }.goto t .idle).signalFull n wakes

inductive Act (Item : Type) where
  | enqueue (t : Nat) (item : Item) (wakes : Nat → Bool)
  | dequeue (t : Nat) (wakes : Nat → Bool)
  /-- A thread that has been woken has the mutex again. -/
  | again (t : Nat) (wakes : Nat → Bool)
  /-- A thread wakes without a signal. -/
  | wake (t : Nat)

def Act.thread : Act Item → Nat
  | .enqueue t _ _ | .dequeue t _ | .again t _ | .wake t => t

def step : Act Item → Option (FifoSys Item)
  | .enqueue t item wakes =>
      match s.pc t with
      | .idle => s.fifoEnqueue n t item wakes
      | _ => none
  | .dequeue t wakes =>
      match s.pc t with
      | .idle => s.fifoDequeue n t wakes
      | _ => none
  | .again t wakes =>
      match s.pc t with
      | .fullWoken item => s.fifoEnqueue n t item wakes
      | .emptyWoken => s.fifoDequeue n t wakes
      | _ => none
  | .wake t =>
      match s.pc t with
      | .full item => some (s.goto t (.fullWoken item))
      | .empty => some (s.goto t .emptyWoken)
      | _ => none

/-- Runs of the threads `0, .., n - 1`. -/
inductive Reach : FifoSys Item → Prop where
  | create (null : Item) (len : Int) : Reach (create null len)
  | step {s s' : FifoSys Item} {act : Act Item} : Reach s → act.thread < n →
      s.step n act = some s' → Reach s'

/-- The run of some actions. -/
def run : FifoSys Item → List (Act Item) → Option (FifoSys Item)
  | s, [] => some s
  | s, act :: acts => (s.step n act).bind fun s => run s acts

variable {n s} in
theorem Reach.run {s' : FifoSys Item} {acts : List (Act Item)} (reach : Reach n s)
    (inside : ∀ act ∈ acts, act.thread < n) (runs : s.run n acts = some s') : Reach n s' := by
  induction acts generalizing s with
  | nil => exact Option.some.inj runs ▸ reach
  | cons act acts ih =>
      obtain ⟨mid, taken, rest⟩ := Option.bind_eq_some_iff.mp runs
      exact ih (.step reach (inside act List.mem_cons_self) taken)
        (fun a later => inside a (List.mem_cons_of_mem act later)) rest

end FifoSys

/-! ## The buffer -/

/-- `items` are what the queue holds. -/
structure Fifo.Holds {Item : Type} (q : Fifo Item) (items : List Item) : Prop where
  room : items.length < q.bufSize
  header : q.header < q.bufSize
  tail : q.tail = (q.header + items.length) % q.bufSize
  items : items = ringItems q.bufSize q.queue q.header items.length

namespace Fifo.Holds

variable {Item : Type} {q : Fifo Item} {items : List Item} (holds : q.Holds items)

include holds

theorem tail_lt : q.tail < q.bufSize := by
  rw [holds.tail]
  exact Nat.mod_lt _ (lt_of_le_of_lt (Nat.zero_le _) holds.header)

theorem empty_iff : q.tail = q.header ↔ items = [] := by
  have pos : 0 < q.bufSize := lt_of_le_of_lt (Nat.zero_le _) holds.header
  have head : q.header = (q.header + 0) % q.bufSize := (Nat.mod_eq_of_lt holds.header).symm
  rw [← List.length_eq_zero_iff]
  constructor
  · intro same
    rw [holds.tail] at same
    exact Ring.slot_injective holds.room pos (same.trans head)
  · intro none
    rw [holds.tail, none]
    exact head.symm

theorem full_iff : (q.tail + 1) % q.bufSize = q.header ↔ items.length = q.bufSize - 1 := by
  have room := holds.room
  have low := holds.header
  rw [holds.tail, Nat.mod_add_mod, Nat.add_assoc]
  constructor
  · intro same
    by_contra few
    have pos : 0 < q.bufSize := lt_of_le_of_lt (Nat.zero_le _) low
    have small : items.length + 1 < q.bufSize := by omega
    have head : (q.header + (items.length + 1)) % q.bufSize = (q.header + 0) % q.bufSize :=
      same.trans (Nat.mod_eq_of_lt low).symm
    cases Ring.slot_injective small pos head
  · intro all
    have round : q.header + (items.length + 1) = q.header + q.bufSize := by omega
    rw [round, Nat.add_mod_right, Nat.mod_eq_of_lt low]

theorem enqueue (more : (q.tail + 1) % q.bufSize ≠ q.header) (item : Item) :
    Fifo.Holds { q with
      queue := Function.update q.queue q.tail item
      tail := (q.tail + 1) % q.bufSize } (items ++ [item]) := by
  have few : items.length ≠ q.bufSize - 1 := fun all => more (holds.full_iff.mpr all)
  have room := holds.room
  refine ⟨?_, holds.header, ?_, ?_⟩
  · simp only [List.length_append, List.length_singleton]
    omega
  · simp only [List.length_append, List.length_singleton]
    rw [holds.tail, Nat.mod_add_mod, Nat.add_assoc]
  · simp only [List.length_append, List.length_singleton]
    rw [holds.tail, Ring.push room, ← holds.items]

theorem dequeue (some' : q.tail ≠ q.header) : ∃ rest, items = q.queue q.header :: rest ∧
    Fifo.Holds { q with header := (q.header + 1) % q.bufSize } rest := by
  cases split : items with
  | nil => exact absurd (holds.empty_iff.mpr split) some'
  | cons item rest =>
      subst split
      have cells := holds.items
      rw [List.length_cons, Ring.pop, List.cons.injEq, Nat.mod_eq_of_lt holds.header] at cells
      refine ⟨rest, by rw [cells.1], ?_, Nat.mod_lt _ (lt_of_le_of_lt (Nat.zero_le _) holds.header),
        ?_, cells.2⟩
      · have room := holds.room
        rw [List.length_cons] at room
        change rest.length < q.bufSize
        omega
      · change q.tail = ((q.header + 1) % q.bufSize + rest.length) % q.bufSize
        rw [holds.tail, List.length_cons, Nat.mod_add_mod, Nat.add_right_comm, Nat.add_assoc]

end Fifo.Holds

/-! ## The threads -/

namespace FifoSys

variable {Item : Type} {n : Nat} {s s' : FifoSys Item} {t : Nat}

/-- What holds between locked regions. -/
structure Inv (n : Nat) (s : FifoSys Item) (items : List Item) : Prop where
  holds : s.q.Holds items
  order : s.enqueued = s.dequeued ++ items
  consumers : Covered n (fun u => (s.pc u).onEmpty) items.length
  producers : Covered n (fun u => (s.pc u).onFull) (s.q.bufSize - 1 - items.length)

theorem goto_self (s : FifoSys Item) (t : Nat) (pc : FifoPc Item) : (s.goto t pc).pc t = pc :=
  Function.update_self ..

theorem goto_other (s : FifoSys Item) {t u : Nat} (other : u ≠ t) (pc : FifoPc Item) :
    (s.goto t pc).pc u = s.pc u :=
  Function.update_of_ne other ..

theorem goto_phase {phase : FifoPc Item → CondPhase} {pc : FifoPc Item} (same : phase pc = phase (s.pc t))
    (u : Nat) : phase ((s.goto t pc).pc u) = phase (s.pc u) := by
  by_cases self : u = t
  · rw [self, goto_self, same]
  · rw [goto_other s self]

/-- One thread is woken. -/
theorem goto_wakes {phase : FifoPc Item → CondPhase} {pc : FifoPc Item} (asleep : phase (s.pc t) = .waiting)
    (awake : phase pc = .woken) :
    Covered.Wakes n (fun u => phase (s.pc u)) (fun u => phase ((s.goto t pc).pc u)) := by
  intro u _
  by_cases self : u = t
  · subst self
    refine .inr ⟨asleep, ?_⟩
    change phase ((s.goto u pc).pc u) = _
    rw [goto_self, awake]
  · refine .inl ?_
    change phase ((s.goto t pc).pc u) = _
    rw [goto_other s self]

/-- A signal wakes threads that wait for it, at least one if there is one. -/
theorem signalEmpty_wakes {wakes : Nat → Bool} (signals : s.signalEmpty n wakes = some s') :
    s'.q = s.q ∧ s'.enqueued = s.enqueued ∧ s'.dequeued = s.dequeued ∧
      (∀ u, (s'.pc u).onFull = (s.pc u).onFull) ∧
      Covered.Wakes n (fun u => (s.pc u).onEmpty) (fun u => (s'.pc u).onEmpty) ∧
      ((∃ u < n, (s.pc u).onEmpty = .waiting) →
        ∃ u < n, (s.pc u).onEmpty = .waiting ∧ (s'.pc u).onEmpty = .woken) := by
  rw [signalEmpty, Option.ite_none_right_eq_some, Option.some.injEq] at signals
  obtain ⟨one, rfl⟩ := signals
  refine ⟨rfl, rfl, rfl, fun u => ?_, fun u _ => ?_, fun waiting => ?_⟩
  · change (if wakes u then (s.pc u).wakeEmpty else s.pc u).onFull = _
    split
    · exact (s.pc u).wakeEmpty_onFull
    · rfl
  · change (if wakes u then (s.pc u).wakeEmpty else s.pc u).onEmpty = _ ∨
      _ ∧ (if wakes u then (s.pc u).wakeEmpty else s.pc u).onEmpty = _
    split
    · exact (s.pc u).wakeEmpty_wakes
    · exact .inl rfl
  · obtain ⟨u, low, waits, wake⟩ := one waiting
    refine ⟨u, low, waits, ?_⟩
    change (if wakes u then (s.pc u).wakeEmpty else s.pc u).onEmpty = _
    rw [if_pos wake, FifoPc.wakeEmpty_waiting waits]

theorem signalFull_wakes {wakes : Nat → Bool} (signals : s.signalFull n wakes = some s') :
    s'.q = s.q ∧ s'.enqueued = s.enqueued ∧ s'.dequeued = s.dequeued ∧
      (∀ u, (s'.pc u).onEmpty = (s.pc u).onEmpty) ∧
      Covered.Wakes n (fun u => (s.pc u).onFull) (fun u => (s'.pc u).onFull) ∧
      ((∃ u < n, (s.pc u).onFull = .waiting) →
        ∃ u < n, (s.pc u).onFull = .waiting ∧ (s'.pc u).onFull = .woken) := by
  rw [signalFull, Option.ite_none_right_eq_some, Option.some.injEq] at signals
  obtain ⟨one, rfl⟩ := signals
  refine ⟨rfl, rfl, rfl, fun u => ?_, fun u _ => ?_, fun waiting => ?_⟩
  · change (if wakes u then (s.pc u).wakeFull else s.pc u).onEmpty = _
    split
    · exact (s.pc u).wakeFull_onEmpty
    · rfl
  · change (if wakes u then (s.pc u).wakeFull else s.pc u).onFull = _ ∨
      _ ∧ (if wakes u then (s.pc u).wakeFull else s.pc u).onFull = _
    split
    · exact (s.pc u).wakeFull_wakes
    · exact .inl rfl
  · obtain ⟨u, low, waits, wake⟩ := one waiting
    refine ⟨u, low, waits, ?_⟩
    change (if wakes u then (s.pc u).wakeFull else s.pc u).onFull = _
    rw [if_pos wake, FifoPc.wakeFull_waiting waits]

theorem create_inv (null : Item) (len : Int) : Inv n (create null len) [] := by
  have pos : 0 < (fifoCreate null len).bufSize := by
    change 0 < (if len < 1024 then 1024 else len).toNat
    split <;> omega
  refine ⟨⟨pos, pos, ?_, rfl⟩, rfl, .none, ?_⟩
  · exact (Nat.mod_eq_of_lt pos).symm
  · rintro ⟨u, -, waits⟩
    cases waits

/-- A thread goes on or waits: nothing else changes. -/
theorem Inv.goto {items : List Item} (inv : Inv n s items) {pc : FifoPc Item}
    (consumers : Covered n (fun u => ((s.goto t pc).pc u).onEmpty) items.length)
    (producers : Covered n (fun u => ((s.goto t pc).pc u).onFull)
      (s.q.bufSize - 1 - items.length)) : Inv n (s.goto t pc) items :=
  ⟨inv.holds, inv.order, consumers, producers⟩

/-- A producer that does not wait takes a slot, and a consumer hears of it. -/
theorem enqueue_inv {items : List Item} (inv : Inv n s items) {item : Item} {wakes : Nat → Bool}
    (empty : (s.pc t).onEmpty = .off) (full : (s.pc t).onFull ≠ .waiting)
    (taken : s.fifoEnqueue n t item wakes = some s') : ∃ items, Inv n s' items := by
  rw [fifoEnqueue] at taken
  split at taken
  next all =>
    rw [Option.some.injEq] at taken
    subst taken
    have stays := inv.holds.full_iff.mp all
    refine ⟨items, inv.goto (inv.consumers.congr fun u _ => goto_phase (by rw [empty]; rfl) u) ?_⟩
    rw [stays, Nat.sub_self]
    exact .none
  next more =>
    obtain ⟨q, enqueued, dequeued, producers, wakes', one⟩ := signalEmpty_wakes taken
    have few : items.length ≠ s.q.bufSize - 1 := fun all => more (inv.holds.full_iff.mpr all)
    have room := inv.holds.room
    have consumers : Covered n (fun u => (Function.update s.pc t .idle u).onEmpty) items.length :=
      inv.consumers.congr fun u _ => goto_phase (s := s) (by rw [empty]; rfl) u
    have producers' : Covered n (fun u => (Function.update s.pc t .idle u).onFull)
        (s.q.bufSize - 1 - (items.length + 1)) := by
      have slots : s.q.bufSize - 1 - items.length = s.q.bufSize - 1 - (items.length + 1) + 1 := by
        omega
      refine (slots ▸ inv.producers).take (t := t) full ?_ fun u other => ?_
      · rw [Function.update_self]
        nofun
      · rw [Function.update_of_ne other]
    refine ⟨items ++ [item], ?_, ?_, ?_, ?_⟩
    · rw [q]
      exact inv.holds.enqueue more item
    · rw [enqueued, dequeued]
      change s.enqueued ++ [item] = s.dequeued ++ (items ++ [item])
      rw [inv.order, List.append_assoc]
    · rw [List.length_append, List.length_singleton]
      exact consumers.signal wakes' one
    · rw [q, List.length_append, List.length_singleton]
      exact producers'.congr fun u _ => producers u

/-- A consumer that does not wait takes an item, and a producer hears of it. -/
theorem dequeue_inv {items : List Item} (inv : Inv n s items) {wakes : Nat → Bool}
    (full : (s.pc t).onFull = .off) (empty : (s.pc t).onEmpty ≠ .waiting)
    (taken : s.fifoDequeue n t wakes = some s') : ∃ items, Inv n s' items := by
  rw [fifoDequeue] at taken
  split at taken
  next none =>
    rw [Option.some.injEq] at taken
    subst taken
    have nil := inv.holds.empty_iff.mp none
    refine ⟨items, inv.goto ?_ (inv.producers.congr fun u _ => goto_phase (by rw [full]; rfl) u)⟩
    rw [nil]
    exact .none
  next more =>
    obtain ⟨q, enqueued, dequeued, consumers, wakes', one⟩ := signalFull_wakes taken
    obtain ⟨rest, items_eq, holds⟩ := inv.holds.dequeue more
    have long : items.length = rest.length + 1 := by rw [items_eq, List.length_cons]
    have room := inv.holds.room
    have producers : Covered n (fun u => (Function.update s.pc t .idle u).onFull)
        (s.q.bufSize - 1 - items.length) :=
      inv.producers.congr fun u _ => goto_phase (s := s) (by rw [full]; rfl) u
    have consumers' : Covered n (fun u => (Function.update s.pc t .idle u).onEmpty) rest.length := by
      refine (long ▸ inv.consumers).take (t := t) empty ?_ fun u other => ?_
      · rw [Function.update_self]
        nofun
      · rw [Function.update_of_ne other]
    refine ⟨rest, ?_, ?_, consumers'.congr fun u _ => consumers u, ?_⟩
    · rw [q]
      exact holds
    · rw [enqueued, dequeued]
      change s.enqueued = s.dequeued ++ [s.q.queue s.q.header] ++ rest
      rw [inv.order, items_eq, List.append_assoc, List.singleton_append]
    · have slots : s'.q.bufSize - 1 - rest.length = s.q.bufSize - 1 - items.length + 1 := by
        rw [q]
        change s.q.bufSize - 1 - rest.length = _
        omega
      rw [slots]
      exact producers.signal wakes' one

theorem step_inv {items : List Item} (inv : Inv n s items) {act : Act Item}
    (taken : s.step n act = some s') : ∃ items, Inv n s' items := by
  cases act with
  | enqueue t item wakes =>
      cases at' : s.pc t with
      | idle =>
          simp only [step, at'] at taken
          exact enqueue_inv inv (by rw [at']; rfl) (by rw [at']; nofun) taken
      | _ => simp only [step, at', reduceCtorEq] at taken
  | dequeue t wakes =>
      cases at' : s.pc t with
      | idle =>
          simp only [step, at'] at taken
          exact dequeue_inv inv (by rw [at']; rfl) (by rw [at']; nofun) taken
      | _ => simp only [step, at', reduceCtorEq] at taken
  | again t wakes =>
      cases at' : s.pc t with
      | fullWoken item =>
          simp only [step, at'] at taken
          exact enqueue_inv inv (by rw [at']; rfl) (by rw [at']; nofun) taken
      | emptyWoken =>
          simp only [step, at'] at taken
          exact dequeue_inv inv (by rw [at']; rfl) (by rw [at']; nofun) taken
      | _ => simp only [step, at', reduceCtorEq] at taken
  | wake t =>
      cases at' : s.pc t with
      | full item =>
          simp only [step, at', Option.some.injEq] at taken
          subst taken
          exact ⟨items, inv.goto (inv.consumers.congr fun u _ => goto_phase (by rw [at']; rfl) u)
            (inv.producers.wake (goto_wakes (by rw [at']; rfl) rfl))⟩
      | empty =>
          simp only [step, at', Option.some.injEq] at taken
          subst taken
          exact ⟨items, inv.goto (inv.consumers.wake (goto_wakes (by rw [at']; rfl) rfl))
            (inv.producers.congr fun u _ => goto_phase (by rw [at']; rfl) u)⟩
      | _ => simp only [step, at', reduceCtorEq] at taken

theorem reach_inv (reach : Reach n s) : ∃ items, Inv n s items := by
  induction reach with
  | create null len => exact ⟨[], create_inv null len⟩
  | step _ _ taken ih =>
      obtain ⟨items, inv⟩ := ih
      exact step_inv inv taken

/-- How many items the queue holds. -/
def held (s : FifoSys Item) : Nat := s.enqueued.length - s.dequeued.length

/-- What holds of a queue at any time. -/
structure Safe (n : Nat) (s : FifoSys Item) : Prop where
  order : s.dequeued <+: s.enqueued
  header : s.q.header < s.q.bufSize
  tail : s.q.tail < s.q.bufSize
  held : s.held ≤ s.q.bufSize - 1
  empty : s.q.tail = s.q.header ↔ s.held = 0
  full : (s.q.tail + 1) % s.q.bufSize = s.q.header ↔ s.held = s.q.bufSize - 1
  consumers : ∀ t < n, s.pc t = .empty → 0 < s.held →
    s.held ≤ (woken n fun u => (s.pc u).onEmpty).card
  producers : ∀ t < n, ∀ item, s.pc t = .full item → s.held < s.q.bufSize - 1 →
    s.q.bufSize - 1 - s.held ≤ (woken n fun u => (s.pc u).onFull).card

theorem fifo_safe (reach : Reach n s) : s.Safe n := by
  obtain ⟨items, inv⟩ := reach_inv reach
  have held : s.held = items.length := by
    rw [FifoSys.held, inv.order, List.length_append, Nat.add_sub_cancel_left]
  have room := inv.holds.room
  refine ⟨⟨items, inv.order.symm⟩, inv.holds.header, inv.holds.tail_lt, ?_, ?_, ?_, ?_, ?_⟩
  · rw [held]
    omega
  · rw [held, inv.holds.empty_iff, List.length_eq_zero_iff]
  · rw [held, inv.holds.full_iff]
  · intro t low waits _
    rw [held]
    exact inv.consumers ⟨t, low, congrArg FifoPc.onEmpty waits⟩
  · intro t low item waits _
    rw [held]
    exact inv.producers ⟨t, low, congrArg FifoPc.onFull waits⟩

/-- Thread 1 waits for an item, and thread 0 wakes it. -/
def oneItem : List (Act Nat) :=
  [.dequeue 1 fun _ => false, .enqueue 0 7 (· == 1), .again 1 fun _ => false]

theorem fifo_safe_one : ∃ s : FifoSys Nat, s.Safe 2 ∧ s.enqueued = [7] ∧ s.dequeued = [7] := by
  have ends : ((create 0 0).run 2 oneItem).map (fun s => (s.enqueued, s.dequeued)) =
      some ([7], [7]) := by decide
  obtain ⟨s, runs, equal⟩ := Option.map_eq_some_iff.mp ends
  have reach := (Reach.create 0 0).run (by decide) runs
  exact ⟨s, fifo_safe reach, congrArg Prod.fst equal, congrArg Prod.snd equal⟩

end FifoSys

end Tmpi.Netd
