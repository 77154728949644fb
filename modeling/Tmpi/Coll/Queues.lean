import Tmpi.Coll.Cells
import Mathlib.Data.List.Count

/-! One queue of handles while the threads go through the calls: the `m`-th call on the queue
has the `m`-th handle of the chain. -/

namespace Tmpi.Coll

open Chain

/-! ## Where the threads are -/

namespace Objects

variable (s : Objects) (k t : Nat)

def stage : Stage :=
  if k < s.call t then .after
  else if s.call t = k ∧ s.pc t ≠ .idle then .inside (s.pc t)
  else .before

def party : Party := ⟨s.stage k, s.args k, s.results k⟩

variable {s k t}

theorem stage_past (past : k < s.call t) : s.stage k t = .after := if_pos past

theorem stage_inside (here : s.call t = k) (busy : s.pc t ≠ .idle) :
    s.stage k t = .inside (s.pc t) := by
  rw [stage, if_neg (by omega), if_pos ⟨here, busy⟩]

theorem stage_idle (early : s.call t ≤ k) (idle : s.pc t = .idle) : s.stage k t = .before := by
  rw [stage, if_neg (by omega), if_neg (fun both => both.2 idle)]

theorem stage_later (early : s.call t < k) : s.stage k t = .before := by
  rw [stage, if_neg (by omega), if_neg (fun both => by omega)]

end Objects

/-- A step of thread `t`: what it leaves alone. -/
structure Moves (s s' : Objects) (t : Nat) : Prop where
  pc : ∀ u, u ≠ t → s'.pc u = s.pc u
  call : ∀ u, u ≠ t → s'.call u = s.call u
  own : s'.call t = s.call t ∨ (s'.call t = s.call t + 1 ∧ s'.pc t = .idle)
  others : ∀ k, k ≠ s.call t → s'.party k = s.party k

section Parties

variable {s : Objects} {t : Nat}

theorem moves_goto (pc : Pc) : Moves s (s.goto t pc) t := by
  refine ⟨fun u other => Function.update_of_ne other .., fun _ _ => rfl, .inl rfl, fun k away => ?_⟩
  have same : (s.goto t pc).stage k = s.stage k := by
    funext u
    by_cases self : u = t
    · subst self
      simp [Objects.stage, Objects.goto, away.symm]
    · simp [Objects.stage, Objects.goto, Function.update_of_ne self]
  simp only [Objects.party, same]
  rfl

theorem party_goto {pc : Pc} (busy : pc ≠ .idle) :
    (s.goto t pc).party (s.call t) = (s.party (s.call t)).goto t pc := by
  have same : (s.goto t pc).stage (s.call t) =
      Function.update (s.stage (s.call t)) t (.inside pc) := by
    funext u
    by_cases self : u = t
    · subst self
      simp [Objects.stage, Objects.goto, busy]
    · simp [Objects.stage, Objects.goto, Function.update_of_ne self]
  simp only [Objects.party, same]
  rfl

theorem moves_leave (b : Buffers) : Moves s (s.leave t b) t := by
  refine ⟨fun u other => Function.update_of_ne other .., fun u other => Function.update_of_ne other ..,
    .inr ⟨Function.update_self .., Function.update_self ..⟩, fun k away => ?_⟩
  have stages : (s.leave t b).stage k = s.stage k := by
    funext u
    by_cases self : u = t
    · subst self
      have past : k < s.call u + 1 ↔ k < s.call u := by omega
      simp [Objects.stage, Objects.leave, past, away.symm]
    · simp [Objects.stage, Objects.leave, Function.update_of_ne self]
  have results : (s.leave t b).results k = s.results k := Function.update_of_ne away ..
  simp only [Objects.party, stages, results]
  rfl

theorem party_leave (b : Buffers) :
    (s.leave t b).party (s.call t) = (s.party (s.call t)).leave t b := by
  have stages : (s.leave t b).stage (s.call t) =
      Function.update (s.stage (s.call t)) t .after := by
    funext u
    by_cases self : u = t
    · subst self
      simp [Objects.stage, Objects.leave]
    · simp [Objects.stage, Objects.leave, Function.update_of_ne self]
  have results : (s.leave t b).results (s.call t) =
      Function.update (s.results (s.call t)) t (some b) := Function.update_self ..
  simp only [Objects.party, stages, results]
  rfl

theorem moves_enter (pc : Pc) (b : Buffers) : Moves s ((s.pass t b).goto t pc) t := by
  have moves := moves_goto (s := s.pass t b) (t := t) pc
  refine ⟨moves.pc, moves.call, moves.own, fun k away => ?_⟩
  have args : (s.pass t b).args k = s.args k := Function.update_of_ne away ..
  rw [moves.others k away]
  simp only [Objects.party, args]
  rfl

theorem party_enter {pc : Pc} (busy : pc ≠ .idle) (b : Buffers) :
    ((s.pass t b).goto t pc).party (s.call t) = (s.party (s.call t)).enter t pc b := by
  have args : (s.pass t b).args (s.call t) = Function.update (s.args (s.call t)) t b :=
    Function.update_self ..
  have here : (s.pass t b).call t = s.call t := rfl
  rw [← here, party_goto busy]
  simp only [Objects.party, here, args]
  rfl

end Parties

/-! ## Turns -/

section Turns

variable (on : Collective → Bool) (calls : List Collective)

/-- Whether call `k` is one on the queue. -/
def onCall (k : Nat) : Bool := (calls[k]?).any on

/-- How many of the first `k` calls are on the queue. -/
def turn (k : Nat) : Nat := (calls.take k).countP on

/-- A thread inside a call that has put its cursor behind the call's handle. -/
def Pc.advanced : Pc → Bool
  | .depart .. | .bump _ | .gather _ none => true
  | _ => false

/-- How many handles of the queue thread `t` has behind it. -/
def moved (s : Objects) (t : Nat) : Nat :=
  turn on calls (s.call t) + if (s.pc t).advanced && onCall on calls (s.call t) then 1 else 0

variable {on calls}

theorem turn_succ (k : Nat) :
    turn on calls (k + 1) = turn on calls k + if onCall on calls k then 1 else 0 := by
  rw [turn, turn, List.take_add_one, List.countP_append, onCall]
  cases calls[k]? with
  | none => rfl
  | some c => simp [List.countP_singleton]

theorem turn_mono {j k : Nat} (le : j ≤ k) : turn on calls j ≤ turn on calls k := by
  induction k with
  | zero =>
      obtain rfl : j = 0 := by omega
      exact le_rfl
  | succ k ih =>
      rcases Nat.lt_or_ge j (k + 1) with before | after
      · have := ih (by omega)
        rw [turn_succ]
        omega
      · obtain rfl : j = k + 1 := by omega
        exact le_rfl

theorem turn_lt {j k : Nat} (here : onCall on calls j = true) (before : j < k) :
    turn on calls j < turn on calls k := by
  have up : turn on calls (j + 1) ≤ turn on calls k := turn_mono before
  rw [turn_succ, if_pos here] at up
  omega

/-- Calls on one queue have different turns. -/
theorem turn_injective {j k : Nat} (here : onCall on calls j = true)
    (there : onCall on calls k = true) (same : turn on calls j = turn on calls k) : j = k := by
  rcases Nat.lt_trichotomy j k with before | equal | after
  · have := turn_lt here before
    omega
  · exact equal
  · have := turn_lt there after
    omega

theorem moved_stays {s s' : Objects} {t : Nat} (here : onCall on calls (s.call t) = true)
    (stays : s'.call t = s.call t) :
    moved on calls s' t = turn on calls (s.call t) + if (s'.pc t).advanced then 1 else 0 := by
  rw [moved, stays, here, Bool.and_true]

theorem moved_left {s s' : Objects} {t : Nat} (here : onCall on calls (s.call t) = true)
    (next : s'.call t = s.call t + 1) (left : s'.pc t = .idle) :
    moved on calls s' t = turn on calls (s.call t) + 1 := by
  rw [moved, next, left, turn_succ, if_pos here]
  rfl

theorem moved_le {s : Objects} {t k : Nat} (early : s.call t ≤ k)
    (here : onCall on calls k = true) : moved on calls s t ≤ turn on calls k + 1 := by
  rcases Nat.lt_or_ge (s.call t) k with before | now
  · have up : turn on calls (s.call t + 1) ≤ turn on calls k := turn_mono before
    rw [turn_succ] at up
    unfold moved
    cases onCall on calls (s.call t) <;> cases (s.pc t).advanced <;> simp at up ⊢ <;> omega
  · obtain rfl : k = s.call t := by omega
    unfold moved
    split <;> omega

end Turns

/-! ## The invariant of a queue -/

/-- What is to know of a kind of queue: the calls that use it, what a new handle is, and what a
handle holds that is for a call of `n` threads. -/
structure Kind (n : Nat) (Handle : Type) where
  on : Collective → Bool
  Blank : Handle → Prop
  Cell : Collective → Party → Handle → Option Nat → Prop
  new : ∀ c p h, Blank h → (∀ t < n, p.stage t = .before) → Cell c p h none

section Queues

variable {Handle : Type} {n : Nat} (kind : Kind n Handle) (calls : List Collective)

/-- A handle that a thread has allocated and that is not in the chain. -/
structure Spare (q : HandleQueue Handle) (item newitem : Nat) : Prop where
  blank : kind.Blank (q.mem newitem)
  next : q.next newitem = none
  unchained : ∀ i, nth q.next 0 i ≠ some newitem
  above : item < newitem
  below : newitem < q.fresh

def Pc.item : Pc → Option Nat
  | .idle => none
  | .post item | .await item | .depart item _ | .look item | .claim item _ | .publish item _
  | .combine item _ | .bump item | .gather item _ => some item

def Pc.spare : Pc → Option Nat
  | .claim _ newitem | .publish _ newitem => some newitem
  | _ => none

/-- A place of a thread that owns nothing but its handle `item`. -/
structure Pc.Plain (pc : Pc) (item : Nat) : Prop where
  item : pc.item = some item
  spare : pc.spare = none
  linked : ∀ a b, pc ≠ .gather a (some b)

/-- A thread inside a call on the queue that has the `m`-th handle. -/
structure Holds (q : HandleQueue Handle) (m : Nat) (pc : Pc) : Prop where
  item : ∀ item, pc.item = some item → nth q.next 0 m = some item
  spare : ∀ item newitem, pc.item = some item → pc.spare = some newitem → Spare kind q item newitem
  linked : ∀ item newitem, pc = .gather item (some newitem) → q.next item = some newitem

variable {kind} in
theorem Pc.Plain.holds {pc : Pc} {item m : Nat} (plain : pc.Plain item) {q : HandleQueue Handle}
    (slot : nth q.next 0 m = some item) : Holds kind q m pc := by
  refine ⟨fun a is => ?_, fun a b _ is => ?_, fun a b is => absurd is (plain.linked a b)⟩
  · rw [plain.item, Option.some.injEq] at is
    rw [← is]
    exact slot
  · rw [plain.spare] at is
    cases is

/-- A thread's cursor, when it has `m` handles behind it. -/
def Stands (q : HandleQueue Handle) (m : Nat) (cursor : Option Nat) : Prop :=
  (cursor = none ∧ m = 0) ∨ ∃ item, cursor = some item ∧ nth q.next 0 m = some item

structure QueueInv (s : Objects) (q : HandleQueue Handle) : Prop where
  pos : 0 < q.fresh
  rising : Rising q.next q.fresh
  beyond : ∀ a, q.fresh ≤ a → q.next a = none
  cursor : ∀ t < n, Stands q (moved kind.on calls s t) (q.cursor t)
  first : (∃ t < n, moved kind.on calls s t = 0) → q.first = some 0
  thread : ∀ t < n, onCall kind.on calls (s.call t) = true →
    Holds kind q (turn kind.on calls (s.call t)) (s.pc t)
  apart : ∀ t < n, ∀ u < n, t ≠ u → onCall kind.on calls (s.call t) = true →
    onCall kind.on calls (s.call u) = true →
    ∀ a, (s.pc t).spare = some a → (s.pc u).spare ≠ some a
  cell : ∀ k c, calls[k]? = some c → kind.on c = true → ∀ a,
    nth q.next 0 (turn kind.on calls k) = some a → kind.Cell c (s.party k) (q.mem a) (q.next a)

/-- What a step does to a queue when the thread has the handle `item`: the chain stays, or
`newitem` becomes its last handle behind `item`. -/
structure Change (q q' : HandleQueue Handle) (item newitem : Nat) : Prop where
  rising : Rising q'.next q'.fresh
  fresh : q.fresh ≤ q'.fresh
  beyond : ∀ a, q'.fresh ≤ a → q'.next a = none
  keeps : ∀ i a, nth q.next 0 i = some a → nth q'.next 0 i = some a
  brings : ∀ i a, nth q'.next 0 i = some a → nth q.next 0 i = some a ∨
    (a = newitem ∧ nth q.next 0 i = none ∧ kind.Blank (q'.mem a) ∧ q'.next a = none)
  next : ∀ a, a ≠ item → q'.next a = q.next a
  mem : ∀ a, a ≠ item → a < q.fresh → q'.mem a = q.mem a

variable {kind calls} {s s' : Objects} {q q' : HandleQueue Handle} {item newitem t : Nat}

/-- A step that leaves the links alone. -/
theorem Change.same (inv : QueueInv kind calls s q) (links : q'.next = q.next)
    (fresh : q.fresh ≤ q'.fresh) (mem : ∀ a, a ≠ item → a < q.fresh → q'.mem a = q.mem a)
    (newitem : Nat) : Change kind q q' item newitem := by
  refine ⟨?_, fresh, fun a above => ?_, fun i a here => ?_, fun i a here => .inl ?_,
    fun a _ => by rw [links], mem⟩
  · rw [links]
    exact inv.rising.mono fresh
  · rw [links]
    exact inv.beyond a (le_trans fresh above)
  · rwa [links]
  · rwa [← links]

/-- A step that links a blank handle behind the last one. -/
theorem Change.link (inv : QueueInv kind calls s q) {m : Nat}
    (last : nth q.next 0 m = some item) (ends : q.next item = none) (empty : q.next newitem = none)
    (up : item < newitem) (below : newitem < q'.fresh) (blank : kind.Blank (q'.mem newitem))
    (links : q'.next = Function.update q.next item (some newitem)) (fresh : q.fresh ≤ q'.fresh)
    (mem : ∀ a, a ≠ item → a < q.fresh → q'.mem a = q.mem a) :
    Change kind q q' item newitem := by
  refine ⟨?_, fresh, fun a above => ?_, fun i a here => ?_, fun i a here => ?_,
    fun a other => ?_, mem⟩
  · rw [links]
    exact (inv.rising.mono fresh).extend up below
  · rw [links, Function.update_of_ne (by omega)]
    exact inv.beyond a (le_trans fresh above)
  · rw [links]
    exact nth_extend_keeps inv.rising last ends here
  · rw [links] at here
    rcases nth_extend_cases inv.rising last ends empty up.ne' here with old | ⟨rfl, rfl⟩
    · exact .inl old
    · refine .inr ⟨rfl, nth_last last ends (by omega), blank, ?_⟩
      rw [links, Function.update_of_ne up.ne', empty]
  · rw [links, Function.update_of_ne other]

theorem Change.stands (change : Change kind q q' item newitem) {m : Nat} {cursor : Option Nat}
    (old : Stands q m cursor) : Stands q' m cursor := by
  rcases old with unset | ⟨a, set, here⟩
  · exact .inl unset
  · exact .inr ⟨a, set, change.keeps m a here⟩

namespace QueueInv

/-- The handle that a thread takes is the one of its turn. -/
theorem curitem (inv : QueueInv kind calls s q) (inside : t < n) :
    ∃ item, q.curitem t = some item ∧ nth q.next 0 (moved kind.on calls s t) = some item := by
  rcases inv.cursor t inside with ⟨unset, start⟩ | ⟨item, set, here⟩
  · refine ⟨0, ?_, ?_⟩
    · rw [HandleQueue.curitem, unset, inv.first ⟨t, inside, start⟩]
      rfl
    · rw [start]
      rfl
  · exact ⟨item, by rw [HandleQueue.curitem, set]; rfl, here⟩

/-- No thread has begun a call whose handle is not in the chain yet. -/
theorem untouched (inv : QueueInv kind calls s q) {k : Nat}
    (here : onCall kind.on calls k = true) (missing : nth q.next 0 (turn kind.on calls k) = none)
    (inside : t < n) : s.stage k t = .before := by
  rcases Nat.lt_trichotomy (s.call t) k with before | now | after
  · exact Objects.stage_later before
  · subst now
    by_cases idle : s.pc t = .idle
    · exact Objects.stage_idle le_rfl idle
    · have holds := inv.thread t inside here
      obtain ⟨item, has⟩ : ∃ item, (s.pc t).item = some item := by
        cases at' : s.pc t with
        | idle => exact absurd at' idle
        | _ => exact ⟨_, rfl⟩
      rw [holds.item item has] at missing
      cases missing
  · exfalso
    obtain ⟨item, -, there⟩ := inv.curitem inside
    have up := turn_lt here after
    rw [nth_none missing (by unfold moved; omega)] at there
    cases there

theorem step (inv : QueueInv kind calls s q) (inside : t < n) {c : Collective}
    (call : calls[s.call t]? = some c) (user : kind.on c = true)
    (slot : nth q.next 0 (turn kind.on calls (s.call t)) = some item) (moves : Moves s s' t)
    (change : Change kind q q' item newitem)
    (mine : (s.pc t).spare = some newitem ∨ q.fresh ≤ newitem)
    (cursors : ∀ u, u ≠ t → q'.cursor u = q.cursor u)
    (cursor : (moved kind.on calls s' t = moved kind.on calls s t ∧ q'.cursor t = q.cursor t) ∨
      (moved kind.on calls s' t = turn kind.on calls (s.call t) + 1 ∧
        ∃ a, q'.cursor t = some a ∧ q'.next item = some a))
    (first : q'.first = q.first ∨ ∀ u < n, s'.stage (s.call t) u = .after)
    (holds : Holds kind q' (turn kind.on calls (s.call t)) (s'.pc t))
    (spare : ∀ a, (s'.pc t).spare = some a → (s.pc t).spare = some a ∨ q.fresh ≤ a)
    (cell : kind.Cell c (s'.party (s.call t)) (q'.mem item) (q'.next item)) :
    QueueInv kind calls s' q' := by
  have here : onCall kind.on calls (s.call t) = true := by
    rw [onCall, call]
    exact user
  have still : ∀ u, u ≠ t → moved kind.on calls s' u = moved kind.on calls s u := by
    intro u other
    rw [moved, moved, moves.pc u other, moves.call u other]
  have spares : ∀ u < n, u ≠ t → onCall kind.on calls (s.call u) = true → ∀ a b,
      (s.pc u).item = some a → (s.pc u).spare = some b → Spare kind q' a b := by
    intro u member other on a b has holding
    have old := (inv.thread u member on).spare a b has holding
    have apart : b ≠ item := fun same => old.unchained _ (same ▸ slot)
    refine ⟨?_, ?_, fun i chained => ?_, old.above, lt_of_lt_of_le old.below change.fresh⟩
    · rw [change.mem b apart old.below]
      exact old.blank
    · rw [change.next b apart]
      exact old.next
    · rcases change.brings i b chained with before | ⟨rfl, -, -, -⟩
      · exact old.unchained i before
      · rcases mine with own | above
        · exact inv.apart u member t inside other on here b holding own
        · have := old.below
          omega
  have busy : ∀ u < n, u ≠ t → onCall kind.on calls (s.call u) = true →
      Holds kind q' (turn kind.on calls (s.call u)) (s.pc u) := by
    intro u member other on
    have old := inv.thread u member on
    refine ⟨fun a has => change.keeps _ a (old.item a has), spares u member other on,
      fun a b linked => ?_⟩
    have has := old.item a (by rw [linked]; rfl)
    have behind := change.keeps _ b (nth_succ_of has (old.linked a b linked))
    obtain ⟨a', there, link⟩ := nth_prev behind
    rw [change.keeps _ a has, Option.some.injEq] at there
    rwa [there]
  have forward : moved kind.on calls s t ≤ moved kind.on calls s' t := by
    rcases cursor with ⟨stays, -⟩ | ⟨ahead, -⟩
    · exact stays.ge
    · rw [ahead]
      exact moved_le le_rfl here
  refine ⟨lt_of_lt_of_le inv.pos change.fresh, change.rising, change.beyond, fun u member => ?_,
    fun ⟨u, member, start⟩ => ?_, fun u member on => ?_, fun u low v high other onU onV a hu hv => ?_,
    fun k c' call' on a there => ?_⟩
  · by_cases self : u = t
    · rw [self]
      rcases cursor with ⟨stays, same⟩ | ⟨ahead, a, set, link⟩
      · rw [stays, same]
        exact change.stands (inv.cursor t inside)
      · rw [ahead, set]
        exact .inr ⟨a, rfl, nth_succ_of (change.keeps _ item slot) link⟩
    · rw [still u self, cursors u self]
      exact change.stands (inv.cursor u member)
  · rcases first with same | all
    · rw [same]
      refine inv.first ⟨u, member, ?_⟩
      by_cases self : u = t
      · rw [self] at start ⊢
        omega
      · rwa [still u self] at start
    · have past : s.call t < s'.call u := by
        have gone := all u member
        unfold Objects.stage at gone
        split at gone
        next past => exact past
        next =>
          split at gone <;> cases gone
      have up := turn_lt here past
      unfold moved at start
      omega
  · by_cases self : u = t
    · subst self
      rcases moves.own with stays | ⟨-, left⟩
      · rw [stays]
        exact holds
      · rw [left]
        exact ⟨nofun, nofun, nofun⟩
    · rw [moves.call u self] at on ⊢
      rw [moves.pc u self]
      exact busy u member self on
  · have old : ∀ w < n, w ≠ t → onCall kind.on calls (s'.call w) = true →
        (s'.pc w).spare = some a → (s'.pc t).spare ≠ some a := by
      intro w member other on has own
      rw [moves.call w other] at on
      rw [moves.pc w other] at has
      rcases spare a own with before | above
      · exact inv.apart w member t inside other on here a has before
      · obtain ⟨b, item⟩ : ∃ b, (s.pc w).item = some b := by
          cases at' : s.pc w with
          | idle =>
              rw [at'] at has
              cases has
          | _ => exact ⟨_, rfl⟩
        have := ((inv.thread w member on).spare b a item has).below
        omega
    by_cases uSelf : u = t
    · subst uSelf
      exact old v high (Ne.symm other) onV hv hu
    · by_cases vSelf : v = t
      · subst vSelf
        exact old u low other onU hu hv
      · rw [moves.call u uSelf] at onU
        rw [moves.call v vSelf] at onV
        rw [moves.pc u uSelf] at hu
        rw [moves.pc v vSelf] at hv
        exact inv.apart u low v high other onU onV a hu hv
  · by_cases same : k = s.call t
    · subst same
      rw [call, Option.some.injEq] at call'
      subst call'
      rw [change.keeps _ item slot, Option.some.injEq] at there
      subst there
      exact cell
    · have on' : onCall kind.on calls k = true := by
        rw [onCall, call']
        exact on
      rw [moves.others k same]
      rcases change.brings _ a there with old | ⟨-, missing, blank, ends⟩
      · have apart : a ≠ item := by
          rintro rfl
          exact same (turn_injective on' here (nth_injective inv.rising old slot))
        rw [change.mem a apart (nth_below inv.rising inv.pos old), change.next a apart]
        exact inv.cell k c' call' on a old
      · rw [ends]
        exact kind.new c' _ _ blank fun u member => inv.untouched on' missing member

section Steps

variable (inv : QueueInv kind calls s q) (inside : t < n) {c : Collective}
  (call : calls[s.call t]? = some c) (user : kind.on c = true)
  (slot : nth q.next 0 (turn kind.on calls (s.call t)) = some item) (moves : Moves s s' t)
  (cell : kind.Cell c (s'.party (s.call t)) (q'.mem item) (q'.next item))

include inv inside call user slot moves cell

/-- A thread stays in its call, and does not go beyond its handle. -/
theorem goes (change : Change kind q q' item newitem)
    (mine : (s.pc t).spare = some newitem ∨ q.fresh ≤ newitem) (stays : s'.call t = s.call t)
    {pc : Pc} (now : s'.pc t = pc) (holds : Holds kind q' (turn kind.on calls (s.call t)) pc)
    (spare : ∀ a, pc.spare = some a → (s.pc t).spare = some a ∨ q.fresh ≤ a)
    (level : pc.advanced = (s.pc t).advanced) (cursors : q'.cursor = q.cursor)
    (first : q'.first = q.first) : QueueInv kind calls s' q' := by
  have here : onCall kind.on calls (s.call t) = true := by
    rw [onCall, call]
    exact user
  subst now
  refine inv.step inside call user slot moves change mine (fun u _ => by rw [cursors])
    (.inl ⟨?_, by rw [cursors]⟩) (.inl first) holds spare cell
  rw [moved_stays here stays, moved_stays here rfl, level]

/-- A thread stays in its call, and puts its cursor behind its handle. -/
theorem advances (stays : s'.call t = s.call t) {pc : Pc} (now : s'.pc t = pc)
    (plain : pc.Plain item) (ahead : pc.advanced = true) {a : Nat} (link : q.next item = some a)
    (queue : q' = q.setCursor t (some a)) : QueueInv kind calls s' q' := by
  have here : onCall kind.on calls (s.call t) = true := by
    rw [onCall, call]
    exact user
  subst queue
  have change : Change kind q (q.setCursor t (some a)) item q.fresh := by
    refine Change.same inv ?_ ?_ ?_ q.fresh
    · rfl
    · exact le_rfl
    · exact fun _ _ _ => rfl
  refine inv.step inside call user slot moves change (.inr le_rfl) (fun u other => Function.update_of_ne other ..)
    (.inr ⟨?_, a, Function.update_self .., link⟩) (.inl rfl) ?_ ?_ cell
  · rw [moved_stays here stays, now, ahead]
    rfl
  · rw [now]
    exact plain.holds slot
  · rw [now, plain.spare]
    exact nofun

/-- A thread returns, with its cursor behind its handle. -/
theorem leaves (change : Change kind q q' item newitem)
    (mine : (s.pc t).spare = some newitem ∨ q.fresh ≤ newitem)
    (next : s'.call t = s.call t + 1) (left : s'.pc t = .idle)
    (cursors : ∀ u, u ≠ t → q'.cursor u = q.cursor u)
    (cursor : ((s.pc t).advanced = true ∧ q'.cursor t = q.cursor t) ∨
      ∃ a, q'.cursor t = some a ∧ q'.next item = some a)
    (first : q'.first = q.first ∨ ∀ u < n, s'.stage (s.call t) u = .after) :
    QueueInv kind calls s' q' := by
  have here : onCall kind.on calls (s.call t) = true := by
    rw [onCall, call]
    exact user
  have ahead := moved_left here next left
  refine inv.step inside call user slot moves change mine cursors ?_ first ?_ ?_ cell
  · rcases cursor with ⟨behind, same⟩ | set
    · refine .inl ⟨?_, same⟩
      rw [ahead, moved_stays here rfl, behind]
      rfl
    · exact .inr ⟨ahead, set⟩
  · rw [left]
    exact ⟨nofun, nofun, nofun⟩
  · rw [left]
    exact nofun

end Steps

/-- A step of a thread that is in a call on another queue. -/
theorem other (inv : QueueInv kind calls s q) (inside : t < n) (moves : Moves s s' t)
    (away : onCall kind.on calls (s.call t) = false) : QueueInv kind calls s' q := by
  have still : ∀ u, moved kind.on calls s' u = moved kind.on calls s u := by
    intro u
    by_cases self : u = t
    · subst self
      have none : moved kind.on calls s u = turn kind.on calls (s.call u) := by
        simp [moved, away]
      rcases moves.own with stays | ⟨next, left⟩
      · rw [none, moved, stays, away]
        simp
      · rw [none, moved, next, left, turn_succ, away]
        simp [Pc.advanced]
    · rw [moved, moved, moves.pc u self, moves.call u self]
  have busy : ∀ u, onCall kind.on calls (s'.call u) = true → s'.pc u = .idle ∨
      (u ≠ t ∧ s'.pc u = s.pc u ∧ s'.call u = s.call u) := by
    intro u on
    by_cases self : u = t
    · subst self
      rcases moves.own with stays | ⟨-, left⟩
      · rw [stays, away] at on
        cases on
      · exact .inl left
    · exact .inr ⟨self, moves.pc u self, moves.call u self⟩
  refine ⟨inv.pos, inv.rising, inv.beyond, fun u member => ?_, fun ⟨u, member, start⟩ => ?_,
    fun u member on => ?_, fun u low v high different onU onV a hu hv => ?_,
    fun k c call on a there => ?_⟩
  · rw [still u]
    exact inv.cursor u member
  · rw [still u] at start
    exact inv.first ⟨u, member, start⟩
  · rcases busy u on with idle | ⟨-, pc, call⟩
    · rw [idle]
      exact ⟨nofun, nofun, nofun⟩
    · rw [call] at on ⊢
      rw [pc]
      exact inv.thread u member on
  · rcases busy u onU with idle | ⟨-, pcU, callU⟩
    · rw [idle] at hu
      cases hu
    · rcases busy v onV with idle | ⟨-, pcV, callV⟩
      · rw [idle] at hv
        cases hv
      · rw [callU] at onU
        rw [callV] at onV
        rw [pcU] at hu
        rw [pcV] at hv
        exact inv.apart u low v high different onU onV a hu hv
  · have apart : k ≠ s.call t := by
      rintro rfl
      rw [onCall, call] at away
      simp [on] at away
    rw [moves.others k apart]
    exact inv.cell k c call on a there

end QueueInv

end Queues

end Tmpi.Coll
