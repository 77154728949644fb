import Tmpi.Coll.Invariant
import Tmpi.Lib.Path

/-! Queues whose handles are handed out again: each handle of a queue that is in use has an
address, and what is stored there is the handle. -/

namespace Tmpi.Coll

open Chain

section Used

variable {Handle : Type} {n : Nat} (kind : Kind n Handle) (calls : List Collective) (s : Objects)
  (q : HandleQueue Handle)

/-- The first `m` handles of the chain are behind every thread, and `first` is the next one. -/
structure Window (m : Nat) : Prop where
  first : ∃ a, q.first = some a ∧ nth q.next 0 m = some a
  behind : ∀ t < n, m ≤ turn kind.on calls (s.call t)

/-- In the chain from the `m`-th handle on, or allocated for it by a thread. -/
def Used (m a : Nat) : Prop :=
  (∃ i, m ≤ i ∧ nth q.next 0 i = some a) ∨
    ∃ t < n, onCall kind.on calls (s.call t) = true ∧ (s.pc t).spare = some a

variable {kind calls s q} {m a b t : Nat}

theorem spare_item {pc : Pc} (spare : pc.spare = some a) : ∃ b, pc.item = some b := by
  cases pc with
  | idle => cases spare
  | _ => exact ⟨_, rfl⟩

section

variable (inv : QueueInv kind calls s q) (window : Window kind calls s q m)

include window

theorem Window.used_first (first : q.first = some a) : Used kind calls s q m a := by
  obtain ⟨b, same, here⟩ := window.first
  rw [first, Option.some.injEq] at same
  exact .inl ⟨m, le_rfl, same ▸ here⟩

include inv

theorem Window.used_cursor (inside : t < n) (cursor : q.cursor t = some a) :
    Used kind calls s q m a := by
  rcases inv.cursor t inside with ⟨unset, -⟩ | ⟨b, set, here⟩
  · rw [cursor] at unset
    cases unset
  · rw [cursor, Option.some.injEq] at set
    have low : m ≤ moved kind.on calls s t :=
      le_trans (window.behind t inside) (Nat.le_add_right ..)
    exact .inl ⟨_, low, set ▸ here⟩

theorem Window.used_item (inside : t < n) (on : onCall kind.on calls (s.call t) = true)
    (item : (s.pc t).item = some a) : Used kind calls s q m a :=
  .inl ⟨_, window.behind t inside, (inv.thread t inside on).item a item⟩

end

theorem used_next (inv : QueueInv kind calls s q) (used : Used kind calls s q m a)
    (next : q.next a = some b) : Used kind calls s q m b := by
  rcases used with ⟨i, low, here⟩ | ⟨t, inside, on, spare⟩
  · exact .inl ⟨i + 1, by omega, nth_succ_of here next⟩
  · obtain ⟨item, has⟩ := spare_item spare
    have ends := ((inv.thread t inside on).spare item a has spare).next
    rw [ends] at next
    cases next

theorem used_below (inv : QueueInv kind calls s q) (used : Used kind calls s q m a) :
    a < q.fresh := by
  rcases used with ⟨i, -, here⟩ | ⟨t, inside, on, spare⟩
  · exact nth_below inv.rising inv.pos here
  · obtain ⟨item, has⟩ := spare_item spare
    exact ((inv.thread t inside on).spare item a has spare).below

/-- The front of the queue stays. -/
theorem Window.move {s' : Objects} {q' : HandleQueue Handle} (window : Window kind calls s q m)
    (moves : Moves s s' t) (first : q'.first = q.first)
    (keeps : ∀ i a, nth q.next 0 i = some a → nth q'.next 0 i = some a) :
    Window kind calls s' q' m where
  first := by
    obtain ⟨a, same, here⟩ := window.first
    exact ⟨a, first.trans same, keeps m a here⟩
  behind u inside := by
    refine le_trans (window.behind u inside) (turn_mono ?_)
    by_cases self : u = t
    · subst self
      rcases moves.own with stays | ⟨ahead, -⟩ <;> omega
    · exact (moves.call u self).ge

/-- What a step brings into use comes into the chain or into the thread's hands. -/
theorem used_step {s' : Objects} {q' : HandleQueue Handle} {m' : Nat} (New : Nat → Prop)
    (brings : ∀ i a, nth q'.next 0 i = some a → nth q.next 0 i = some a ∨ New a)
    (moves : Moves s s' t) (on : onCall kind.on calls (s.call t) = true) (later : m ≤ m')
    (spare : ∀ a, (s'.pc t).spare = some a → (s.pc t).spare = some a ∨ New a) (inside : t < n)
    (used : Used kind calls s' q' m' a) : Used kind calls s q m a ∨ New a := by
  rcases used with ⟨i, low, here⟩ | ⟨u, member, onU, has⟩
  · rcases brings i a here with before | new
    · exact .inl (.inl ⟨i, by omega, before⟩)
    · exact .inr new
  · by_cases self : u = t
    · subst self
      rcases spare a has with before | new
      · exact .inl (.inr ⟨u, inside, on, before⟩)
      · exact .inr new
    · rw [moves.call u self] at onU
      rw [moves.pc u self] at has
      exact .inl (.inr ⟨u, member, onU, has⟩)

/-- A step that does not link or allocate brings nothing into use. -/
theorem used_keep {s' : Objects} {q' : HandleQueue Handle} {m' : Nat} (next : q'.next = q.next)
    (moves : Moves s s' t) (on : onCall kind.on calls (s.call t) = true) (later : m ≤ m')
    (spare : ∀ a, (s'.pc t).spare = some a → (s.pc t).spare = some a) (inside : t < n)
    (used : Used kind calls s' q' m' a) : Used kind calls s q m a := by
  have either := used_step (fun _ => False) (fun i a here => .inl (next ▸ here)) moves on later
    (fun a has => .inl (spare a has)) inside used
  exact either.resolve_right id

/-- A step on another queue brings none. -/
theorem used_other {s' : Objects} (moves : Moves s s' t)
    (away : onCall kind.on calls (s.call t) = false) (used : Used kind calls s' q m a) :
    Used kind calls s q m a := by
  rcases used with chained | ⟨u, member, on, has⟩
  · exact .inl chained
  · by_cases self : u = t
    · subst self
      rcases moves.own with stays | ⟨-, left⟩
      · rw [stays, away] at on
        cases on
      · rw [left] at has
        cases has
    · rw [moves.call u self] at on
      rw [moves.pc u self] at has
      exact .inr ⟨u, member, on, has⟩

end Used

section Stages

variable {s : Objects} {t : Nat}

theorem moves_stay (s : Objects) (t : Nat) : Moves s s t :=
  ⟨fun _ _ => rfl, fun _ _ => rfl, .inl rfl, fun _ _ => rfl⟩

theorem past_of_stage {k u : Nat} (gone : s.stage k u = .after) : k < s.call u := by
  unfold Objects.stage at gone
  split at gone
  next past => exact past
  next => split at gone <;> cases gone

theorem call_le_of_stage {k u : Nat} (going : s.stage k u ≠ .after) : s.call u ≤ k := by
  by_contra past
  exact going (Objects.stage_past (Nat.lt_of_not_le past))

end Stages

/-! ## Addresses -/

/-- The handles of `q` that are in use are stored at the addresses `addr`. -/
structure Mirror {Handle : Type} (n : Nat) (Same : Handle → Handle → Prop) (used : Nat → Prop)
    (addr : Nat → Nat) (q : HandleQueue Handle) (mem : Nat → Handle) (next : Nat → Option Nat)
    (first : Option Nat) (cursor : Nat → Option Nat) : Prop where
  mem : ∀ a, used a → Same (mem (addr a)) (q.mem a)
  next : ∀ a, used a → next (addr a) = (q.next a).map addr
  first : first = q.first.map addr
  cursor : ∀ t < n, cursor t = (q.cursor t).map addr
  distinct : ∀ a b, used a → used b → addr a = addr b → a = b

namespace Mirror

variable {Handle : Type} {n : Nat} {Same : Handle → Handle → Prop} {used : Nat → Prop}
  {addr : Nat → Nat} {q : HandleQueue Handle} {mem : Nat → Handle} {next : Nat → Option Nat}
  {first : Option Nat} {cursor : Nat → Option Nat} {a b t : Nat}
  (mirror : Mirror n Same used addr q mem next first cursor)

include mirror

theorem curitem (inside : t < n) : (cursor t).or first = (q.curitem t).map addr := by
  rw [mirror.cursor t inside, mirror.first, HandleQueue.curitem]
  cases q.cursor t with
  | none => rfl
  | some a => rfl

/-- Fewer handles are in use. -/
theorem shrink {used' : Nat → Prop} (fewer : ∀ a, used' a → used a) :
    Mirror n Same used' addr q mem next first cursor where
  mem a here := mirror.mem a (fewer a here)
  next a here := mirror.next a (fewer a here)
  first := mirror.first
  cursor := mirror.cursor
  distinct a b here there := mirror.distinct a b (fewer a here) (fewer b there)

/-- What is stored at other addresses does not matter. -/
theorem congr {mem' : Nat → Handle} {next' : Nat → Option Nat}
    (same : ∀ a, used a → mem' (addr a) = mem (addr a) ∧ next' (addr a) = next (addr a)) :
    Mirror n Same used addr q mem' next' first cursor where
  mem a here := by
    rw [(same a here).1]
    exact mirror.mem a here
  next a here := by
    rw [(same a here).2]
    exact mirror.next a here
  first := mirror.first
  cursor := mirror.cursor
  distinct := mirror.distinct

theorem set (here : used a) {h h' : Handle} (same : Same h' h) :
    Mirror n Same used addr (q.set a h) (Function.update mem (addr a) h') next first cursor where
  mem b there := by
    by_cases self : b = a
    · subst self
      simpa [HandleQueue.set] using same
    · have apart : addr b ≠ addr a := fun equal => self (mirror.distinct b a there here equal)
      simpa [HandleQueue.set, self, apart] using mirror.mem b there
  next := mirror.next
  first := mirror.first
  cursor := mirror.cursor
  distinct := mirror.distinct

theorem link (here : used a) (newitem : Nat) :
    Mirror n Same used addr (q.link a newitem) mem
      (Function.update next (addr a) (some (addr newitem))) first cursor where
  mem := mirror.mem
  next b there := by
    by_cases self : b = a
    · subst self
      simp [HandleQueue.link]
    · have apart : addr b ≠ addr a := fun equal => self (mirror.distinct b a there here equal)
      simpa [HandleQueue.link, self, apart] using mirror.next b there
  first := mirror.first
  cursor := mirror.cursor
  distinct := mirror.distinct

theorem setCursor (t : Nat) (item : Option Nat) :
    Mirror n Same used addr (q.setCursor t item) mem next first
      (Function.update cursor t (item.map addr)) where
  mem := mirror.mem
  next := mirror.next
  first := mirror.first
  cursor u inside := by
    by_cases self : u = t
    · subst self
      simp [HandleQueue.setCursor]
    · simpa [HandleQueue.setCursor, self] using mirror.cursor u inside
  distinct := mirror.distinct

theorem retire (here : used a) :
    Mirror n Same used addr (q.retire a) mem next (next (addr a)) cursor where
  mem := mirror.mem
  next := mirror.next
  first := mirror.next a here
  cursor := mirror.cursor
  distinct := mirror.distinct

theorem drop (newitem : Nat) :
    Mirror n Same used addr (q.free newitem) mem next first cursor where
  mem := mirror.mem
  next := mirror.next
  first := mirror.first
  cursor := mirror.cursor
  distinct := mirror.distinct

/-- A handle is allocated at an address where none is in use. -/
theorem alloc (inside : ∀ a, used a → a < q.fresh)
    (closed : ∀ a b, used a → q.next a = some b → used b)
    (starts : ∀ a, q.first = some a → used a)
    (stands : ∀ t < n, ∀ a, q.cursor t = some a → used a) {at' : Nat}
    (free : ∀ a, used a → addr a ≠ at') {h h' : Handle} (same : Same h' h) :
    Mirror n Same (fun a => used a ∨ a = q.fresh) (Function.update addr q.fresh at') (q.alloc h)
      (Function.update mem at' h') (Function.update next at' none) first cursor := by
  have old : ∀ a, used a → Function.update addr q.fresh at' a = addr a :=
    fun a here => Function.update_of_ne (inside a here).ne _ _
  have olds : ∀ o : Option Nat, (∀ a, o = some a → used a) →
      o.map (Function.update addr q.fresh at') = o.map addr := by
    intro o here
    cases o with
    | none => rfl
    | some a => rw [Option.map_some, Option.map_some, old a (here a rfl)]
  constructor
  · intro a here
    rcases here with here | rfl
    · have apart : a ≠ q.fresh := (inside a here).ne
      rw [old a here]
      simpa [HandleQueue.alloc, apart, free a here] using mirror.mem a here
    · simpa [HandleQueue.alloc] using same
  · intro a here
    rcases here with here | rfl
    · have apart : a ≠ q.fresh := (inside a here).ne
      rw [old a here, Function.update_of_ne (free a here), mirror.next a here]
      simp only [HandleQueue.alloc, Function.update_of_ne apart]
      exact (olds _ fun b next => closed a b here next).symm
    · simp [HandleQueue.alloc]
  · rw [mirror.first]
    exact (olds _ starts).symm
  · intro t low
    rw [mirror.cursor t low]
    exact (olds _ (stands t low)).symm
  · intro a b here there equal
    rcases here with here | rfl
    · rw [old a here] at equal
      rcases there with there | rfl
      · rw [old b there] at equal
        exact mirror.distinct a b here there equal
      · rw [Function.update_self] at equal
        exact absurd equal (free a here)
    · rw [Function.update_self] at equal
      rcases there with there | rfl
      · rw [old b there] at equal
        exact absurd equal.symm (free b there)
      · rfl

end Mirror

/-- The handles of a queue from the `m`-th on are what is stored from `first` on. -/
theorem Window.live {Handle : Type} {n m : Nat} {kind : Kind n Handle} {calls : List Collective}
    {s : Objects} {q : HandleQueue Handle} {Same : Handle → Handle → Prop} {addr : Nat → Nat}
    {mem : Nat → Handle} {next : Nat → Option Nat} {first : Option Nat} {cursor : Nat → Option Nat}
    (window : Window kind calls s q m) (inv : QueueInv kind calls s q)
    (mirror : Mirror n Same (Used kind calls s q m) addr q mem next first cursor) :
    ∃ l : List Nat, (∀ i, l[i]? = nth q.next 0 (m + i)) ∧ (∀ a ∈ l, Used kind calls s q m a) ∧
      Path next first (l.map addr) none ∧ l.map addr ≠ [] ∧ (l.map addr).Nodup := by
  obtain ⟨a, start, here⟩ := window.first
  obtain ⟨l, path, places⟩ := exists_path inv.rising (nth_below inv.rising inv.pos here)
  have place : ∀ i, l[i]? = nth q.next 0 (m + i) := by
    intro i
    rw [places, nth_add here]
  have used : ∀ b ∈ l, Used kind calls s q m b := by
    intro b member
    obtain ⟨i, there⟩ := List.mem_iff_getElem?.mp member
    exact .inl ⟨m + i, Nat.le_add_right _ _, (place i).symm.trans there⟩
  have apart : l.Nodup := by
    rw [List.nodup_iff_getElem?_ne_getElem?]
    intro i j before low same
    obtain ⟨b, there⟩ : ∃ b, l[j]? = some b := ⟨_, List.getElem?_eq_getElem low⟩
    have equal := nth_injective inv.rising ((place i).symm.trans (same.trans there))
      ((place j).symm.trans there)
    omega
  refine ⟨l, place, used, ?_, ?_, ?_⟩
  · rw [mirror.first, start]
    exact path.map fun b member => mirror.next b (used b member)
  · intro empty
    rw [List.map_eq_nil_iff] at empty
    have head := places 0
    rw [empty] at head
    cases head
  · exact apart.map_on fun b here b' there => mirror.distinct b b' (used b here) (used b' there)

end Tmpi.Coll
