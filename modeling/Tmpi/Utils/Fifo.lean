import Tmpi.Utils.Tqueue

/-! Queues of one item size: in every run each of them is the list of what was put in. -/

namespace Tmpi.Utils

/-- Where an element is. -/
inductive Place where
  | unknown
  | free (q : Nat)
  | queue (q : Nat)
  | held
  deriving DecidableEq, Repr

/-- The queue whose lists an element is on. -/
def Place.owner : Place → Option Nat
  | unknown | held => none
  | free q | queue q => some q

/-- The queues beside the lists they stand for. -/
structure Fifos (α : Type) where
  mem : Queues α
  made : Nat → Bool
  contents : Nat → List Nat
  place : Nat → Place

namespace Fifos

variable {α : Type} (x : Fifos α) (q : Nat)

/-- The elements of a block that `malloc` returns. -/
def elements (size group : Nat) : Option Nat → List Nat
  | none => []
  | some base => chunk size group base

/-- The elements that `Q_newElem` carves. -/
def carved (block : Option Nat) : List Nat :=
  if (x.mem.queue q).allocate = none then elements (x.mem.queue q).itemSize (x.mem.queue q).chunkGroup block else []

def supply (place : Nat → Place) (l : List Nat) : Nat → Place := fun a => if a ∈ l then .free q else place a

def hand (place : Nat → Place) (r : Option Bucket) : Nat → Place :=
  fun a => if r = some (.elem a) then .held else place a

/-- What `Q_find` looks for in a queue. -/
def accept (context tag src : Int) (a : Nat) : Bool :=
  match (x.mem.queue q).cmp with
  | none => false
  | some cmp => x.mem.accepts cmp context tag src (.elem a)

def newElem (block : Option Nat) : Fifos α :=
  { x with
    mem := (x.mem.qNewElem q block).1
    place := hand (supply q x.place (x.carved q block)) (x.mem.qNewElem q block).2 }

def freeElem (a : Nat) : Fifos α :=
  { x with
    mem := x.mem.qFreeElem q (some (.elem a))
    place := Function.update x.place a (.free q) }

def enQ (a : Nat) : Fifos α :=
  { x with
    mem := x.mem.enQ q (.elem a)
    contents := Function.update x.contents q (x.contents q ++ [a])
    place := Function.update x.place a (.queue q) }

def removeElem (a : Nat) : Fifos α :=
  { x with
    mem := x.mem.qRemoveElem q (.elem a)
    contents := Function.update x.contents q ((x.contents q).erase a)
    place := Function.update x.place a .held }

/-- One call of a run. `malloc` returns elements that were never there. -/
inductive Step (itemSize : Nat) (x : Fifos α) : Fifos α → Prop
  | create {q : Nat} {cmp : Option (α → Int → Int → Int → Int)} {group : Nat} {block : Option Nat} {s : Queues α}
      (new : x.made q = false) (call : x.mem.qCreate q cmp itemSize group block = some s)
      (fresh : ∀ a ∈ elements (itemStride itemSize) group block, x.place a = .unknown) :
      Step itemSize x ⟨s, Function.update x.made q true, x.contents,
        supply q x.place (elements (itemStride itemSize) group block)⟩
  | newElem {q : Nat} {block : Option Nat} (made : x.made q = true)
      (fresh : ∀ a ∈ x.carved q block, x.place a = .unknown) : Step itemSize x (x.newElem q block)
  | freeElem {q a : Nat} (made : x.made q = true) (held : x.place a = .held) : Step itemSize x (x.freeElem q a)
  | freeNull {q : Nat} (made : x.made q = true) : Step itemSize x { x with mem := x.mem.qFreeElem q none }
  | enQ {q a : Nat} (made : x.made q = true) (held : x.place a = .held) : Step itemSize x (x.enQ q a)
  | deQ {q : Nat} (made : x.made q = true) :
      Step itemSize x ⟨(x.mem.deQ q).1, x.made, Function.update x.contents q (x.contents q).tail,
        hand x.place (x.mem.deQ q).2⟩
  | probe {q fuel : Nat} {context tag src : Int} {r : Option Bucket} (made : x.made q = true)
      (call : x.mem.qProbe q fuel context tag src = some r) : Step itemSize x x
  | find {q fuel : Nat} {context tag src : Int} {s : Queues α} {r : Option Bucket} (made : x.made q = true)
      (call : x.mem.qFind q fuel context tag src = some (s, r)) :
      Step itemSize x ⟨s, x.made, Function.update x.contents q ((x.contents q).eraseP (x.accept q context tag src)),
        hand x.place r⟩
  | removeElem {q a : Nat} (made : x.made q = true) (linked : x.place a = .queue q) :
      Step itemSize x (x.removeElem q a)
  | write (a : Nat) (v : α) :
      Step itemSize x { x with mem := { x.mem with content := Function.update x.mem.content a v } }

/-- Before the first queue. -/
def start (mem : Queues α) : Fifos α := ⟨mem, fun _ => false, fun _ => [], fun _ => .unknown⟩

inductive Reach (itemSize : Nat) : Fifos α → Prop
  | start (mem : Queues α) : Reach itemSize (start mem)
  | step {x y : Fifos α} (before : Reach itemSize x) (step : Step itemSize x y) : Reach itemSize y

/-- A queue, its free list and the lists they stand for. -/
structure Row (stride : Nat) : Prop where
  ring : x.mem.links.Ring (.qctrl q) ((x.contents q).map .elem)
  count : (x.mem.queue q).count = (x.contents q).length
  once : (x.contents q).Nodup
  queued : ∀ a, a ∈ x.contents q ↔ x.place a = .queue q
  free : ∃ l : List Nat, Path x.mem.links.prev (x.mem.queue q).allocate (l.map .elem) none ∧ l.Nodup ∧
    ∀ a, a ∈ l ↔ x.place a = .free q
  size : (x.mem.queue q).itemSize = stride
  group : 1 < (x.mem.queue q).chunkGroup

/-- Every queue that was made is in order, and the others have no elements. -/
structure Inv (stride : Nat) : Prop where
  row : ∀ q, x.made q = true → x.Row q stride
  bare : ∀ q, x.made q = false → x.contents q = [] ∧ ∀ a, (x.place a).owner ≠ some q

/-- A step from `x` to `y` leaves queue `q` alone. -/
structure Spares (y : Fifos α) : Prop where
  queue : y.mem.queue q = x.mem.queue q
  contents : y.contents q = x.contents q
  control : y.mem.links.next (.qctrl q) = x.mem.links.next (.qctrl q) ∧
    y.mem.links.prev (.qctrl q) = x.mem.links.prev (.qctrl q)
  place : ∀ a, (y.place a).owner = some q ∨ (x.place a).owner = some q → y.place a = x.place a
  elem : ∀ a, (x.place a).owner = some q → y.mem.links.next (.elem a) = x.mem.links.next (.elem a) ∧
    y.mem.links.prev (.elem a) = x.mem.links.prev (.elem a)

variable {x q} {y : Fifos α} {stride a : Nat} {block : Option Nat}

theorem Spares.place_iff (spares : x.Spares q y) {place : Place} (own : place.owner = some q) (a : Nat) :
    y.place a = place ↔ x.place a = place := by
  constructor
  · intro here
    rw [← spares.place a (.inl (here ▸ own))]
    exact here
  · intro here
    rw [spares.place a (.inr (here ▸ own))]
    exact here

theorem Row.frame (row : x.Row q stride) (spares : x.Spares q y) : y.Row q stride := by
  have elem : ∀ b ∈ Bucket.qctrl q :: (x.contents q).map .elem,
      y.mem.links.next b = x.mem.links.next b ∧ y.mem.links.prev b = x.mem.links.prev b := by
    intro b member
    rcases List.mem_cons.mp member with rfl | inside
    · exact spares.control
    · obtain ⟨a, linked, rfl⟩ := List.mem_map.mp inside
      exact spares.elem a (by rw [(row.queued a).mp linked, Place.owner])
  obtain ⟨l, path, once, free⟩ := row.free
  constructor
  · rw [spares.contents]
    exact row.ring.congr (fun b member => (elem b member).1) fun b member => (elem b member).2
  · rw [spares.contents, spares.queue]
    exact row.count
  · rw [spares.contents]
    exact row.once
  · intro a
    rw [spares.contents, spares.place_iff rfl, row.queued]
  · refine ⟨l, ?_, once, fun a => ?_⟩
    · rw [spares.queue]
      apply path.congr
      intro b member
      obtain ⟨a, inside, rfl⟩ := List.mem_map.mp member
      exact (spares.elem a (by rw [(free a).mp inside, Place.owner])).2
    · rw [spares.place_iff rfl, free]
  · rw [spares.queue]
    exact row.size
  · rw [spares.queue]
    exact row.group

/-- A step on one queue. -/
theorem Inv.on (inv : x.Inv stride) (q : Nat) (made : y.made = Function.update x.made q true)
    (spares : ∀ q' ≠ q, x.Spares q' y) (row : y.Row q stride) : y.Inv stride := by
  constructor
  · intro q' isMade
    by_cases same : q' = q
    · exact same ▸ row
    · rw [made, Function.update_of_ne same] at isMade
      exact (inv.row q' isMade).frame (spares q' same)
  · intro q' unmade
    have same : q' ≠ q := by
      rintro rfl
      rw [made, Function.update_self] at unmade
      cases unmade
    rw [made, Function.update_of_ne same] at unmade
    obtain ⟨empty, none⟩ := inv.bare q' unmade
    refine ⟨(spares q' same).contents.trans empty, fun a own => none a ?_⟩
    rw [← (spares q' same).place a (.inl own)]
    exact own

theorem Row.elem_not_mem (row : x.Row q stride) (off : x.place a ≠ .queue q) :
    Bucket.elem a ∉ Bucket.qctrl q :: (x.contents q).map .elem := by
  intro member
  rcases List.mem_cons.mp member with same | inside
  · cases same
  · obtain ⟨b, linked, same⟩ := List.mem_map.mp inside
    obtain rfl := Bucket.elem.inj same
    exact off ((row.queued b).mp linked)

theorem Row.control_not_mem {q' : Nat} (other : q' ≠ q) :
    Bucket.qctrl q' ∉ Bucket.qctrl q :: (x.contents q).map .elem := by
  intro member
  rcases List.mem_cons.mp member with same | inside
  · exact other (Bucket.qctrl.inj same)
  · obtain ⟨b, -, same⟩ := List.mem_map.mp inside
    cases same

theorem Row.ring_nodup (row : x.Row q stride) : (Bucket.qctrl q :: (x.contents q).map Bucket.elem).Nodup :=
  List.nodup_cons.mpr ⟨by simp, row.once.map fun _ _ same => Bucket.elem.inj same⟩

/-- An element that changes hands. -/
theorem place_update_iff {place : Nat → Place} {a b : Nat} {new t : Place} (was : place a ≠ t) (now : new ≠ t) :
    Function.update place a new b = t ↔ place b = t := by
  by_cases same : b = a
  · subst same
    rw [Function.update_self]
    exact iff_of_false now was
  · rw [Function.update_of_ne same]

theorem place_update_self_iff {place : Nat → Place} {a b : Nat} {new : Place} :
    Function.update place a new b = new ↔ b = a ∨ place b = new := by
  by_cases same : b = a
  · subst same
    rw [Function.update_self]
    exact iff_of_true rfl (.inl rfl)
  · rw [Function.update_of_ne same]
    exact (or_iff_right same).symm

theorem place_update_spares {place : Nat → Place} {a q : Nat} {new : Place} (was : (place a).owner ≠ some q)
    (now : new.owner ≠ some q) (b : Nat)
    (own : (Function.update place a new b).owner = some q ∨ (place b).owner = some q) :
    Function.update place a new b = place b := by
  apply Function.update_of_ne
  rintro rfl
  rw [Function.update_self] at own
  exact own.elim now was

theorem Row.freeElem (row : x.Row q stride) (held : x.place a = .held) : (x.freeElem q a).Row q stride := by
  have off : Bucket.elem a ∉ Bucket.qctrl q :: (x.contents q).map .elem :=
    row.elem_not_mem (by rw [held]; exact nofun)
  obtain ⟨l, path, once, free⟩ := row.free
  have new : a ∉ l := fun member => by
    have here := (free a).mp member
    rw [held] at here
    cases here
  have queue : (x.freeElem q a).mem.queue q = { x.mem.queue q with allocate := some (.elem a) } :=
    Function.update_self ..
  constructor
  · refine row.ring.congr (fun _ _ => rfl) fun b member => ?_
    apply Function.update_of_ne
    rintro rfl
    exact off member
  · rw [queue]
    exact row.count
  · exact row.once
  · intro b
    have kept : Function.update x.place a (.free q) b = .queue q ↔ x.place b = .queue q := by
      apply place_update_iff
      · rw [held]
        exact nofun
      · exact nofun
    exact (row.queued b).trans kept.symm
  · refine ⟨a :: l, ?_, List.nodup_cons.mpr ⟨new, once⟩, fun b => ?_⟩
    · rw [queue]
      refine ⟨rfl, ?_⟩
      have link : (x.freeElem q a).mem.links.prev (.elem a) = (x.mem.queue q).allocate := Function.update_self ..
      rw [link]
      apply path.congr
      intro b member
      obtain ⟨c, inside, rfl⟩ := List.mem_map.mp member
      apply Function.update_of_ne
      rintro ⟨⟩
      exact new inside
    · exact List.mem_cons.trans ((or_congr_right (free b)).trans place_update_self_iff.symm)
  · rw [queue]
    exact row.size
  · rw [queue]
    exact row.group

theorem spares_freeElem {q' : Nat} (held : x.place a = .held) (other : q' ≠ q) :
    x.Spares q' (x.freeElem q a) := by
  have prev : ∀ b ≠ Bucket.elem a, (x.freeElem q a).mem.links.prev b = x.mem.links.prev b :=
    fun b ne => Function.update_of_ne ne ..
  have off : (x.place a).owner ≠ some q' := by
    rw [held]
    exact nofun
  constructor
  · exact Function.update_of_ne other ..
  · rfl
  · exact ⟨rfl, prev _ nofun⟩
  · exact place_update_spares off fun same => other (Option.some.inj same).symm
  · intro b own
    refine ⟨rfl, prev _ ?_⟩
    rintro ⟨⟩
    exact off own

theorem Row.enQ (row : x.Row q stride) (held : x.place a = .held) : (x.enQ q a).Row q stride := by
  have off : Bucket.elem a ∉ Bucket.qctrl q :: (x.contents q).map .elem :=
    row.elem_not_mem (by rw [held]; exact nofun)
  have new : a ∉ x.contents q := fun member => off (List.mem_cons_of_mem _ (List.mem_map_of_mem member))
  obtain ⟨l, path, once, free⟩ := row.free
  have queue : (x.enQ q a).mem.queue q = { x.mem.queue q with count := (x.mem.queue q).count + 1 } :=
    Function.update_self ..
  have contents : (x.enQ q a).contents q = x.contents q ++ [a] := Function.update_self ..
  constructor
  · rw [contents, List.map_append]
    exact row.ring.append row.ring_nodup off
  · rw [queue, contents, List.length_append]
    exact congrArg (· + 1) row.count
  · rw [contents]
    exact List.nodup_append.mpr ⟨row.once, List.nodup_singleton a, fun b member c single same => by
      rw [List.mem_singleton] at single
      exact new (single ▸ same ▸ member)⟩
  · intro b
    have place : (x.enQ q a).place = Function.update x.place a (.queue q) := rfl
    rw [contents, place, place_update_self_iff, ← row.queued, List.mem_append, List.mem_singleton, or_comm]
  · refine ⟨l, ?_, once, fun b => ?_⟩
    · rw [queue]
      apply path.congr
      intro b member
      obtain ⟨c, inside, rfl⟩ := List.mem_map.mp member
      have here := (free c).mp inside
      refine (row.ring.append_outside (row.elem_not_mem ?_) ?_).2
      · rw [here]
        exact nofun
      · intro same
        rw [Bucket.elem.inj same, held] at here
        cases here
    · have kept : Function.update x.place a (.queue q) b = .free q ↔ x.place b = .free q := by
        apply place_update_iff
        · rw [held]
          exact nofun
        · exact nofun
      exact (free b).trans kept.symm
  · rw [queue]
    exact row.size
  · rw [queue]
    exact row.group

theorem Row.spares_enQ {q' : Nat} (row : x.Row q stride) (held : x.place a = .held) (other : q' ≠ q) :
    x.Spares q' (x.enQ q a) := by
  constructor
  · exact Function.update_of_ne other ..
  · exact Function.update_of_ne other ..
  · exact row.ring.append_outside (Row.control_not_mem other) nofun
  · apply place_update_spares
    · rw [held]
      exact nofun
    · exact fun same => other (Option.some.inj same).symm
  · intro b own
    apply row.ring.append_outside
    · apply row.elem_not_mem
      intro here
      rw [here] at own
      exact other (Option.some.inj own).symm
    · intro same
      rw [Bucket.elem.inj same, held] at own
      cases own

theorem Row.removeElem (row : x.Row q stride) (linked : x.place a = .queue q) :
    (x.removeElem q a).Row q stride := by
  have member : a ∈ x.contents q := (row.queued a).mpr linked
  obtain ⟨front, back, shape⟩ := List.append_of_mem member
  have absent : a ∉ front := fun early => by
    have once := row.once
    rw [shape] at once
    exact (List.nodup_append.mp once).2.2 a early a List.mem_cons_self rfl
  have erased : (x.contents q).erase a = front ++ back := by
    rw [shape, List.erase_append_right _ absent, List.erase_cons_head]
  obtain ⟨l, path, once, free⟩ := row.free
  have queue : (x.removeElem q a).mem.queue q = { x.mem.queue q with count := (x.mem.queue q).count - 1 } :=
    Function.update_self ..
  have contents : (x.removeElem q a).contents q = (x.contents q).erase a := Function.update_self ..
  constructor
  · have ring := row.ring
    have nodup := row.ring_nodup
    rw [shape, List.map_append, List.map_cons] at ring nodup
    rw [contents, erased, List.map_append]
    exact ring.remove nodup
  · rw [queue, contents, List.length_erase_of_mem member, Nat.cast_sub (List.length_pos_of_mem member)]
    exact congrArg (· - 1) row.count
  · rw [contents]
    exact row.once.erase a
  · intro b
    have place : (x.removeElem q a).place = Function.update x.place a .held := rfl
    rw [contents, row.once.mem_erase_iff, place]
    by_cases same : b = a
    · subst same
      rw [Function.update_self]
      exact iff_of_false (fun both => both.1 rfl) nofun
    · rw [Function.update_of_ne same, and_iff_right same]
      exact row.queued b
  · refine ⟨l, ?_, once, fun b => ?_⟩
    · rw [queue]
      apply path.congr
      intro b onList
      obtain ⟨c, inside, rfl⟩ := List.mem_map.mp onList
      refine (row.ring.remove_outside (List.mem_map_of_mem member) (row.elem_not_mem ?_)).2
      rw [(free c).mp inside]
      exact nofun
    · have kept : Function.update x.place a .held b = .free q ↔ x.place b = .free q := by
        apply place_update_iff
        · rw [linked]
          exact nofun
        · exact nofun
      exact (free b).trans kept.symm
  · rw [queue]
    exact row.size
  · rw [queue]
    exact row.group

theorem Row.spares_removeElem {q' : Nat} (row : x.Row q stride) (linked : x.place a = .queue q) (other : q' ≠ q) :
    x.Spares q' (x.removeElem q a) := by
  have member : Bucket.elem a ∈ (x.contents q).map Bucket.elem := List.mem_map_of_mem ((row.queued a).mpr linked)
  constructor
  · exact Function.update_of_ne other ..
  · exact Function.update_of_ne other ..
  · exact row.ring.remove_outside member (Row.control_not_mem other)
  · apply place_update_spares
    · rw [linked]
      exact fun same => other (Option.some.inj same).symm
    · exact nofun
  · intro b own
    apply row.ring.remove_outside member
    apply row.elem_not_mem
    intro here
    rw [here] at own
    exact other (Option.some.inj own).symm

theorem hand_none {place : Nat → Place} : hand place none = place := rfl

theorem hand_some {place : Nat → Place} : hand place (some (.elem a)) = Function.update place a .held := by
  funext b
  by_cases same : b = a
  · subst same
    rw [hand, if_pos rfl, Function.update_self]
  · rw [hand, if_neg fun equal => same (Bucket.elem.inj (Option.some.inj equal)).symm, Function.update_of_ne same]

theorem supply_nil {place : Nat → Place} : supply q place [] = place := by
  funext b
  exact if_neg List.not_mem_nil

/-- The head of the free list is handed out. -/
theorem newElem_of_some (head : (x.mem.queue q).allocate = some (.elem a)) :
    (x.mem.qNewElem q block).2 = some (.elem a) ∧
    x.newElem q block = { x with
      mem := { x.mem with
        queue := Function.update x.mem.queue q
          { x.mem.queue q with allocate := x.mem.links.prev (.elem a) }
        links := { x.mem.links with next := Function.update x.mem.links.next (.elem a) none } }
      place := Function.update x.place a .held } := by
  have result : x.mem.qNewElem q block = ({ x.mem with
      queue := Function.update x.mem.queue q
        { x.mem.queue q with allocate := x.mem.links.prev (.elem a) }
      links := { x.mem.links with next := Function.update x.mem.links.next (.elem a) none } },
      some (.elem a)) := by simp only [Queues.qNewElem, head]
  have none : x.carved q block = [] := by
    rw [carved, head]
    exact if_neg nofun
  constructor
  · rw [result]
  · rw [Fifos.newElem, result, none, supply_nil, hand_some]

/-- Or the first element of a chunk. -/
theorem newElem_of_none {base : Nat} (empty : (x.mem.queue q).allocate = none) :
    (x.mem.qNewElem q (some base)).2 = some (.elem base) ∧
    x.newElem q (some base) = { x with
      mem := { x.mem with
        queue := Function.update x.mem.queue q
          { x.mem.queue q with allocate := some (.elem (base + (x.mem.queue q).itemSize)) }
        links := {
          next := Function.update x.mem.links.next (.elem base) none
          prev := carveChunk x.mem.links.prev (x.mem.queue q).itemSize (x.mem.queue q).chunkGroup base } }
      place := Function.update
        (supply q x.place (chunk (x.mem.queue q).itemSize (x.mem.queue q).chunkGroup base)) base .held } := by
  have result : x.mem.qNewElem q (some base) = ({ x.mem with
      queue := Function.update x.mem.queue q
        { x.mem.queue q with allocate := some (.elem (base + (x.mem.queue q).itemSize)) }
      links := {
        next := Function.update x.mem.links.next (.elem base) none
        prev := carveChunk x.mem.links.prev (x.mem.queue q).itemSize (x.mem.queue q).chunkGroup base } },
      some (.elem base)) := by simp only [Queues.qNewElem, empty]
  have all : x.carved q (some base) = chunk (x.mem.queue q).itemSize (x.mem.queue q).chunkGroup base := by
    rw [carved, empty]
    exact if_pos rfl
  constructor
  · rw [result]
  · rw [Fifos.newElem, result, all, hand_some]

theorem newElem_of_null (empty : (x.mem.queue q).allocate = none) :
    (x.mem.qNewElem q none).2 = none ∧ x.newElem q none = x := by
  have result : x.mem.qNewElem q none = (x.mem, none) := by simp only [Queues.qNewElem, empty]
  have nothing : x.carved q none = [] := by
    rw [carved, empty]
    exact if_pos rfl
  constructor
  · rw [result]
  · rw [Fifos.newElem, result, nothing, supply_nil, hand_none]

theorem Row.head_free {e : Bucket} (row : x.Row q stride) (head : (x.mem.queue q).allocate = some e) :
    ∃ a, e = .elem a ∧ x.place a = .free q := by
  obtain ⟨l, path, -, free⟩ := row.free
  rw [head] at path
  cases l with
  | nil => cases path
  | cons a l => exact ⟨a, Option.some.inj path.1, (free a).mp List.mem_cons_self⟩

theorem Row.take (row : x.Row q stride) (head : (x.mem.queue q).allocate = some (.elem a)) :
    (x.newElem q block).Row q stride := by
  obtain ⟨l, path, once, free⟩ := row.free
  cases l with
  | nil =>
      have ends : (x.mem.queue q).allocate = none := path
      rw [head] at ends
      cases ends
  | cons c l =>
      obtain ⟨first, rest⟩ := path
      obtain rfl := Bucket.elem.inj (Option.some.inj (head.symm.trans first))
      have isFree : x.place a = .free q := (free a).mp List.mem_cons_self
      have off : Bucket.elem a ∉ Bucket.qctrl q :: (x.contents q).map .elem :=
        row.elem_not_mem (by rw [isFree]; exact nofun)
      obtain ⟨new, once⟩ := List.nodup_cons.mp once
      rw [(newElem_of_some head).2]
      have queue : Function.update x.mem.queue q { x.mem.queue q with allocate := x.mem.links.prev (.elem a) } q =
          { x.mem.queue q with allocate := x.mem.links.prev (.elem a) } := Function.update_self ..
      constructor
      · refine row.ring.congr (fun b member => ?_) fun _ _ => rfl
        apply Function.update_of_ne
        rintro rfl
        exact off member
      · dsimp only
        rw [queue]
        exact row.count
      · exact row.once
      · intro b
        have kept : Function.update x.place a .held b = .queue q ↔ x.place b = .queue q := by
          apply place_update_iff
          · rw [isFree]
            exact nofun
          · exact nofun
        exact (row.queued b).trans kept.symm
      · refine ⟨l, ?_, once, fun b => ?_⟩
        · dsimp only
          rw [queue]
          exact rest
        · dsimp only
          by_cases same : b = a
          · subst same
            rw [Function.update_self]
            exact iff_of_false new nofun
          · rw [Function.update_of_ne same, ← free, List.mem_cons, or_iff_right same]
      · dsimp only
        rw [queue]
        exact row.size
      · dsimp only
        rw [queue]
        exact row.group

theorem spares_take {q' : Nat} (head : (x.mem.queue q).allocate = some (.elem a)) (isFree : x.place a = .free q)
    (other : q' ≠ q) : x.Spares q' (x.newElem q block) := by
  have off : (x.place a).owner ≠ some q' := by
    rw [isFree]
    exact fun same => other (Option.some.inj same).symm
  rw [(newElem_of_some head).2]
  have next : ∀ b ≠ Bucket.elem a, Function.update x.mem.links.next (.elem a) none b = x.mem.links.next b :=
    fun b ne => Function.update_of_ne ne ..
  constructor
  · exact Function.update_of_ne other ..
  · rfl
  · exact ⟨next (.qctrl q') nofun, rfl⟩
  · exact place_update_spares off nofun
  · intro b own
    refine ⟨next _ ?_, rfl⟩
    rintro ⟨⟩
    exact off own

/-- The places after a chunk was carved for `q`. -/
theorem supply_iff {place : Nat → Place} {l : List Nat} {t : Place} (fresh : ∀ a ∈ l, place a = .unknown)
    (other : t ≠ .free q) (known : t ≠ .unknown) {b : Nat} : supply q place l b = t ↔ place b = t := by
  rw [supply]
  split
  case isTrue inside =>
    rw [fresh b inside]
    exact iff_of_false other.symm known.symm
  case isFalse => exact Iff.rfl

theorem Row.carve {base : Nat} (row : x.Row q stride) (pos : 0 < stride) (empty : (x.mem.queue q).allocate = none)
    (fresh : ∀ a ∈ x.carved q (some base), x.place a = .unknown) : (x.newElem q (some base)).Row q stride := by
  have carved : x.carved q (some base) = chunk stride (x.mem.queue q).chunkGroup base := by
    rw [Fifos.carved, empty, row.size]
    exact if_pos rfl
  rw [carved] at fresh
  have many := row.group
  have headed : chunk stride (x.mem.queue q).chunkGroup base =
      base :: (chunk stride (x.mem.queue q).chunkGroup base).tail := by
    obtain ⟨m, same⟩ : ∃ m, (x.mem.queue q).chunkGroup = m + 1 := ⟨(x.mem.queue q).chunkGroup - 1, by omega⟩
    rw [same, chunk, List.range_succ_eq_map]
    simp
  have once : (chunk stride (x.mem.queue q).chunkGroup base).Nodup := chunk_nodup pos
  have path : Path (carveChunk x.mem.links.prev stride (x.mem.queue q).chunkGroup base)
      (some (.elem (base + stride))) ((chunk stride (x.mem.queue q).chunkGroup base).tail.map .elem) none :=
    carveChunk_path pos many
  have noFree : ∀ a, x.place a ≠ .free q := by
    obtain ⟨l, whole, -, free⟩ := row.free
    rw [empty] at whole
    intro a here
    cases l with
    | nil => exact absurd ((free a).mpr here) List.not_mem_nil
    | cons c l => cases whole.1
  have off : ∀ a ∈ chunk stride (x.mem.queue q).chunkGroup base,
      Bucket.elem a ∉ Bucket.qctrl q :: (x.contents q).map .elem := by
    intro a member
    apply row.elem_not_mem
    rw [fresh a member]
    simp
  have isBase : base ∈ chunk stride (x.mem.queue q).chunkGroup base := by
    rw [headed]
    exact List.mem_cons_self
  have apart : ∀ b ∈ Bucket.qctrl q :: (x.contents q).map .elem,
      carveChunk x.mem.links.prev stride (x.mem.queue q).chunkGroup base b = x.mem.links.prev b := by
    intro b member
    apply carveChunk_of_not_mem _ (by omega)
    rintro a inside rfl
    exact off a inside member
  rw [(newElem_of_none empty).2, row.size]
  have queue : Function.update x.mem.queue q { x.mem.queue q with allocate := some (.elem (base + stride)) } q =
      { x.mem.queue q with allocate := some (.elem (base + stride)) } := Function.update_self ..
  constructor
  · refine row.ring.congr (fun b member => ?_) apart
    apply Function.update_of_ne
    rintro rfl
    exact off base isBase member
  · dsimp only
    rw [queue]
    exact row.count
  · exact row.once
  · intro b
    have supplied : supply q x.place (chunk stride (x.mem.queue q).chunkGroup base) b = .queue q ↔
        x.place b = .queue q := by
      apply supply_iff fresh
      · simp
      · simp
    have kept : Function.update (supply q x.place (chunk stride (x.mem.queue q).chunkGroup base)) base .held b =
        .queue q ↔ supply q x.place (chunk stride (x.mem.queue q).chunkGroup base) b = .queue q := by
      apply place_update_iff
      · rw [supply, if_pos isBase]
        simp
      · simp
    exact (row.queued b).trans (supplied.symm.trans kept.symm)
  · refine ⟨_, ?_, once.tail, fun b => ?_⟩
    · dsimp only
      rw [queue]
      exact path
    · dsimp only
      rw [headed] at once
      by_cases same : b = base
      · subst same
        rw [Function.update_self]
        exact iff_of_false (List.nodup_cons.mp once).1 (by simp)
      · rw [Function.update_of_ne same, supply]
        split
        case isTrue inside =>
          rw [headed] at inside
          exact iff_of_true ((List.mem_cons.mp inside).resolve_left same) rfl
        case isFalse outside =>
          exact iff_of_false (fun member => outside (List.mem_of_mem_tail member)) (noFree b)
  · dsimp only
    rw [queue]
    exact row.size
  · dsimp only
    rw [queue]
    exact row.group

theorem Row.spares_carve {q' base : Nat} (row : x.Row q stride) (empty : (x.mem.queue q).allocate = none)
    (fresh : ∀ a ∈ x.carved q (some base), x.place a = .unknown) (other : q' ≠ q) :
    x.Spares q' (x.newElem q (some base)) := by
  have carved : x.carved q (some base) = chunk (x.mem.queue q).itemSize (x.mem.queue q).chunkGroup base := by
    rw [Fifos.carved, empty]
    exact if_pos rfl
  rw [carved] at fresh
  have many := row.group
  have isBase : base ∈ chunk (x.mem.queue q).itemSize (x.mem.queue q).chunkGroup base :=
    List.mem_map.mpr ⟨0, List.mem_range.mpr (by omega), by omega⟩
  have known : ∀ a t, t ≠ .unknown → x.place a = t →
      a ∉ chunk (x.mem.queue q).itemSize (x.mem.queue q).chunkGroup base := by
    rintro a t ne rfl member
    exact ne (fresh a member)
  have owned : ∀ a, (x.place a).owner = some q' →
      a ∉ chunk (x.mem.queue q).itemSize (x.mem.queue q).chunkGroup base := by
    intro a own member
    rw [fresh a member] at own
    cases own
  have next : ∀ b ≠ Bucket.elem base, Function.update x.mem.links.next (.elem base) none b = x.mem.links.next b :=
    fun b ne => Function.update_of_ne ne ..
  have prev : ∀ b, (∀ a ∈ chunk (x.mem.queue q).itemSize (x.mem.queue q).chunkGroup base, b ≠ .elem a) →
      carveChunk x.mem.links.prev (x.mem.queue q).itemSize (x.mem.queue q).chunkGroup base b =
        x.mem.links.prev b := fun b outside => carveChunk_of_not_mem outside (by omega)
  rw [(newElem_of_none empty).2]
  constructor
  · exact Function.update_of_ne other ..
  · rfl
  · exact ⟨next (.qctrl q') nofun, prev (.qctrl q') fun _ _ => nofun⟩
  · intro b own
    dsimp only at own ⊢
    by_cases same : b = base
    · subst same
      rw [Function.update_self, fresh b isBase] at own
      rcases own with own | own
      · cases own
      · cases own
    · rw [Function.update_of_ne same, supply] at own ⊢
      split
      case isTrue inside =>
        rw [if_pos inside, fresh b inside] at own
        rcases own with own | own
        · exact absurd (Option.some.inj own).symm other
        · cases own
      case isFalse => rfl
  · intro b own
    constructor
    · apply next
      rintro ⟨⟩
      exact owned _ own isBase
    · apply prev
      rintro a inside ⟨⟩
      exact owned _ own inside

/-- Whatever `Q_newElem` does, the queues stay in order. -/
theorem Row.newElem (row : x.Row q stride) (pos : 0 < stride)
    (fresh : ∀ a ∈ x.carved q block, x.place a = .unknown) :
    (x.newElem q block).Row q stride ∧ ∀ q' ≠ q, x.Spares q' (x.newElem q block) := by
  cases head : (x.mem.queue q).allocate with
  | none =>
      cases block with
      | none =>
          rw [(newElem_of_null head).2]
          exact ⟨row, fun _ _ => ⟨rfl, rfl, ⟨rfl, rfl⟩, fun _ _ => rfl, fun _ _ => ⟨rfl, rfl⟩⟩⟩
      | some base => exact ⟨row.carve pos head fresh, fun q' other => row.spares_carve head fresh other⟩
  | some e =>
      obtain ⟨a, rfl, isFree⟩ := row.head_free head
      exact ⟨row.take head, fun q' other => spares_take head isFree other⟩

/-- `Q_probe` finds the first element that is accepted. -/
theorem Row.probe (row : x.Row q stride) (context tag src : Int) {fuel : Nat}
    (enough : (x.contents q).length < fuel) :
    x.mem.qProbe q fuel context tag src =
      some (((x.contents q).find? (x.accept q context tag src)).map .elem) := by
  unfold Queues.qProbe accept
  cases (x.mem.queue q).cmp with
  | none =>
      have nothing : (x.contents q).find? (fun _ => false) = none := List.find?_eq_none.mpr fun _ _ => nofun
      exact (congrArg (fun r => some (Option.map Bucket.elem r)) nothing).symm
  | some cmp => exact Queues.probeLoop_ring row.ring enough

theorem Row.probe_result (row : x.Row q stride) {context tag src : Int} {fuel : Nat} {r : Option Bucket}
    (call : x.mem.qProbe q fuel context tag src = some r) :
    r = ((x.contents q).find? (x.accept q context tag src)).map .elem := by
  have whole := row.probe context tag src (Nat.lt_add_of_pos_right (n := (x.contents q).length) fuel.succ_pos)
  unfold Queues.qProbe at call whole
  cases shape : (x.mem.queue q).cmp with
  | none =>
      rw [shape] at call whole
      exact Option.some.inj (call.symm.trans whole)
  | some cmp =>
      rw [shape] at call whole
      dsimp only at call whole
      rw [Queues.probeLoop_mono call (by omega)] at whole
      exact Option.some.inj whole

/-- Removing the first element that is accepted. -/
theorem erase_of_find? {p : Nat → Bool} {l : List Nat} (found : l.find? p = some a) : l.erase a = l.eraseP p := by
  obtain ⟨holds, front, back, rfl, before⟩ := List.find?_eq_some_iff_append.mp found
  have none : ∀ b ∈ front, ¬p b = true := fun b member taken => by
    have refused := before b member
    rw [taken] at refused
    cases refused
  have absent : a ∉ front := fun member => none a member holds
  rw [List.erase_append_right _ absent, List.erase_cons_head, List.eraseP_append_right _ none,
    List.eraseP_cons_of_pos holds]

/-- A step that leaves the set of queues alone. -/
theorem Inv.within (inv : x.Inv stride) (q : Nat) (made : x.made q = true) (same : y.made = x.made)
    (spares : ∀ q' ≠ q, x.Spares q' y) (row : y.Row q stride) : y.Inv stride := by
  refine inv.on q ?_ spares row
  rw [same, ← made, Function.update_eq_self]

/-- Taking an element off a queue, or none. -/
theorem Inv.unlink (inv : x.Inv stride) (made : x.made q = true) {r : Option Nat} {l : List Nat}
    (some : ∀ a, r = some a → a ∈ x.contents q ∧ l = (x.contents q).erase a) (none : r = none → l = x.contents q) :
    Inv ⟨(x.mem.removeProbed q (r.map .elem)).1, x.made, Function.update x.contents q l,
      hand x.place (r.map .elem)⟩ stride := by
  cases r with
  | none =>
      rw [none rfl, Function.update_eq_self]
      exact inv
  | some a =>
      obtain ⟨member, rfl⟩ := some a rfl
      have row := inv.row q made
      have linked := (row.queued a).mp member
      have step : (x.removeElem q a).Inv stride :=
        inv.within q made rfl (fun q' other => row.spares_removeElem linked other) (row.removeElem linked)
      have handed : hand x.place ((Option.some a).map .elem) = Function.update x.place a .held := hand_some
      rw [handed]
      exact step

/-- A queue as `Q_init` has it before the first touch. -/
def reset (cmp : Option (α → Int → Int → Int → Int)) (size group : Nat) (x : Fifos α) (q : Nat) : Fifos α :=
  { x with
    mem := { x.mem with
      queue := Function.update x.mem.queue q ⟨0, cmp, none, size, group⟩
      links := {
        next := Function.update x.mem.links.next (.qctrl q) (some (.qctrl q))
        prev := Function.update x.mem.links.prev (.qctrl q) (some (.qctrl q)) } }
    made := Function.update x.made q true }

theorem Inv.reset (inv : x.Inv stride) (new : x.made q = false) {cmp : Option (α → Int → Int → Int → Int)}
    {group : Nat} (many : 1 < group) : (reset cmp stride group x q).Inv stride := by
  obtain ⟨empty, unowned⟩ := inv.bare q new
  have queue : (Fifos.reset cmp stride group x q).mem.queue q = ⟨0, cmp, none, stride, group⟩ :=
    Function.update_self ..
  have contents : (Fifos.reset cmp stride group x q).contents q = [] := empty
  refine inv.on q rfl (fun q' other => ?_) ?_
  · have control : Bucket.qctrl q' ≠ .qctrl q := fun same => other (Bucket.qctrl.inj same)
    constructor
    · exact Function.update_of_ne other ..
    · rfl
    · exact ⟨Function.update_of_ne control .., Function.update_of_ne control ..⟩
    · exact fun _ _ => rfl
    · intro a _
      have elem : Bucket.elem a ≠ .qctrl q := nofun
      have next := Function.update_of_ne elem (some (Bucket.qctrl q)) x.mem.links.next
      have prev := Function.update_of_ne elem (some (Bucket.qctrl q)) x.mem.links.prev
      exact ⟨next, prev⟩
  · constructor
    · rw [contents]
      exact ⟨Function.update_self .., Function.update_self .., trivial⟩
    · rw [queue, contents]
      rfl
    · rw [contents]
      exact List.nodup_nil
    · intro a
      rw [contents]
      refine iff_of_false List.not_mem_nil fun here => unowned a ?_
      rw [show x.place a = .queue q from here, Place.owner]
    · refine ⟨[], ?_, List.nodup_nil, fun a => iff_of_false List.not_mem_nil fun here => unowned a ?_⟩
      · rw [queue]
        rfl
      · rw [show x.place a = .free q from here, Place.owner]
    · rw [queue]
    · rw [queue]
      exact many

theorem Inv.create {itemSize group : Nat} {cmp : Option (α → Int → Int → Int → Int)} {s : Queues α}
    (inv : x.Inv (itemStride itemSize)) (new : x.made q = false)
    (call : x.mem.qCreate q cmp itemSize group block = some s)
    (fresh : ∀ a ∈ elements (itemStride itemSize) group block, x.place a = .unknown) :
    Inv ⟨s, Function.update x.made q true, x.contents, supply q x.place (elements (itemStride itemSize) group block)⟩
      (itemStride itemSize) := by
  unfold Queues.qCreate at call
  split at call
  case isTrue => cases call
  case isFalse guard =>
      obtain rfl := Option.some.inj call
      have many : 1 < group := by omega
      have first : (Fifos.reset cmp (itemStride itemSize) group x q).Inv (itemStride itemSize) := inv.reset new many
      have made : (Fifos.reset cmp (itemStride itemSize) group x q).made q = true := Function.update_self ..
      have queue : (Fifos.reset cmp (itemStride itemSize) group x q).mem.queue q =
          ⟨0, cmp, none, itemStride itemSize, group⟩ := Function.update_self ..
      have empty : ((Fifos.reset cmp (itemStride itemSize) group x q).mem.queue q).allocate = none := by rw [queue]
      have carved : (Fifos.reset cmp (itemStride itemSize) group x q).carved q block =
          elements (itemStride itemSize) group block := by
        rw [Fifos.carved, queue]
        exact if_pos rfl
      rw [← carved] at fresh ⊢
      obtain ⟨row, spares⟩ := (first.row q made).newElem (itemStride_pos itemSize) fresh
      have touched : ((Fifos.reset cmp (itemStride itemSize) group x q).newElem q block).Inv (itemStride itemSize) :=
        first.within q made rfl spares row
      have init : x.mem.qInit q cmp itemSize group block =
          ((Fifos.reset cmp (itemStride itemSize) group x q).mem.qNewElem q block).1.qFreeElem q
            ((Fifos.reset cmp (itemStride itemSize) group x q).mem.qNewElem q block).2 := rfl
      rw [init]
      cases block with
      | none =>
          have result := (newElem_of_null empty).1
          rw [Fifos.newElem, result, hand_none] at touched
          rw [result]
          exact touched
      | some base =>
          have result : ((Fifos.reset cmp (itemStride itemSize) group x q).mem.qNewElem q (some base)).2 =
              some (.elem base) := (newElem_of_none empty).1
          have held : ((Fifos.reset cmp (itemStride itemSize) group x q).newElem q (some base)).place base = .held := by
            rw [Fifos.newElem, result, hand_some]
            exact Function.update_self ..
          have freed : (((Fifos.reset cmp (itemStride itemSize) group x q).newElem q (some base)).freeElem q base).Inv
              (itemStride itemSize) :=
            touched.within q made rfl (fun q' other => spares_freeElem held other) (row.freeElem held)
          have isBase : base ∈ elements (itemStride itemSize) group (some base) :=
            List.mem_map.mpr ⟨0, List.mem_range.mpr (by omega), by omega⟩
          rw [← carved] at isBase
          have place : Function.update (hand (supply q x.place
              ((Fifos.reset cmp (itemStride itemSize) group x q).carved q (some base))) (some (.elem base))) base
              (.free q) = supply q x.place ((Fifos.reset cmp (itemStride itemSize) group x q).carved q (some base)) := by
            rw [hand_some, Function.update_idem]
            refine Function.update_eq_iff.mpr ⟨?_, fun _ _ => rfl⟩
            exact (if_pos isBase).symm
          rw [← place]
          rw [Fifos.freeElem, Fifos.newElem, result] at freed
          rw [result]
          exact freed

/-- Every call keeps every queue in order. -/
theorem Inv.step {itemSize : Nat} (inv : x.Inv (itemStride itemSize)) (step : Step itemSize x y) :
    y.Inv (itemStride itemSize) := by
  cases step with
  | create new call fresh => exact inv.create new call fresh
  | @newElem q block made fresh =>
      obtain ⟨row, spares⟩ := (inv.row q made).newElem (itemStride_pos itemSize) fresh
      exact inv.within q made rfl spares row
  | @freeElem q a made held =>
      exact inv.within q made rfl (fun q' other => spares_freeElem held other) ((inv.row q made).freeElem held)
  | freeNull made => exact inv
  | @enQ q a made held =>
      exact inv.within q made rfl (fun q' other => (inv.row q made).spares_enQ held other) ((inv.row q made).enQ held)
  | @deQ q made =>
      rw [Queues.deQ_ring (inv.row q made).ring]
      rw [Queues.removeProbed_snd]
      apply inv.unlink made
      · intro a head
        obtain ⟨l, shape⟩ := List.head?_eq_some_iff.mp head
        rw [shape, List.erase_cons_head]
        exact ⟨List.mem_cons_self, rfl⟩
      · intro none
        rw [List.head?_eq_none_iff.mp none]
        rfl
  | probe made call => exact inv
  | @find q fuel context tag src s r made call =>
      rw [Queues.qFind_eq, Option.map_eq_some_iff] at call
      obtain ⟨probed, call, same⟩ := call
      rw [(inv.row q made).probe_result call] at same
      have result : r = ((x.contents q).find? (x.accept q context tag src)).map .elem :=
        (congrArg Prod.snd same).symm.trans Queues.removeProbed_snd
      have state : s = _ := (congrArg Prod.fst same).symm
      rw [result, state]
      apply inv.unlink made
      · intro a found
        exact ⟨List.mem_of_find?_eq_some found, (erase_of_find? found).symm⟩
      · intro none
        exact List.eraseP_of_forall_not (List.find?_eq_none.mp none)
  | @removeElem q a made linked =>
      have row := inv.row q made
      exact inv.within q made rfl (fun q' other => row.spares_removeElem linked other) (row.removeElem linked)
  | write a v =>
      constructor
      · intro q made
        have row := inv.row q made
        exact ⟨row.ring, row.count, row.once, row.queued, row.free, row.size, row.group⟩
      · exact inv.bare

theorem Reach.inv {itemSize : Nat} (run : Reach itemSize x) : x.Inv (itemStride itemSize) := by
  induction run with
  | start mem => exact ⟨fun _ => nofun, fun _ _ => ⟨rfl, fun _ => nofun⟩⟩
  | step before step ih => exact ih.step step

end Fifos

/-- In every run the queues are rings that hold their lists in order, every element is in one place, and the
calls do to the lists what they should. -/
theorem tqueue_refines_fifo {α : Type} {itemSize : Nat} {x : Fifos α} (run : Fifos.Reach itemSize x) :
    (∀ q, x.made q = true → x.Row q (itemStride itemSize)) ∧
    (∀ q a, (x.place a).owner = some q → x.made q = true) ∧
    (∀ q, x.made q = true → (x.mem.deQ q).2 = (x.contents q).head?.map .elem) ∧
    (∀ q context tag src fuel, x.made q = true → (x.contents q).length < fuel →
      x.mem.qProbe q fuel context tag src =
        some (((x.contents q).find? (x.accept q context tag src)).map .elem)) ∧
    (∀ q context tag src fuel, x.mem.qFind q fuel context tag src =
      (x.mem.qProbe q fuel context tag src).map (x.mem.removeProbed q)) ∧
    ∀ q block e, x.made q = true → (∀ a ∈ x.carved q block, x.place a = .unknown) →
      (x.mem.qNewElem q block).2 = some e → ∃ a, e = .elem a ∧ (x.place a = .unknown ∨ x.place a = .free q) := by
  have inv := run.inv
  refine ⟨inv.row, fun q a own => ?_, fun q made => ?_, ?_, fun q context tag src fuel => Queues.qFind_eq ..,
    fun q block e made fresh result => ?_⟩
  · cases made : x.made q with
    | true => rfl
    | false => exact absurd own ((inv.bare q made).2 a)
  · rw [Queues.deQ_ring (inv.row q made).ring, Queues.removeProbed_snd]
  · intro q context tag src fuel made enough
    exact (inv.row q made).probe context tag src enough
  · have row := inv.row q made
    cases head : (x.mem.queue q).allocate with
    | some e' =>
        obtain ⟨a, rfl, isFree⟩ := row.head_free head
        rw [(Fifos.newElem_of_some head).1] at result
        exact ⟨a, (Option.some.inj result).symm, .inr isFree⟩
    | none =>
        cases block with
        | none =>
            rw [(Fifos.newElem_of_null head).1] at result
            cases result
        | some base =>
            rw [(Fifos.newElem_of_none head).1] at result
            refine ⟨base, (Option.some.inj result).symm, .inl (fresh base ?_)⟩
            rw [Fifos.carved, if_pos head]
            exact List.mem_map.mpr ⟨0, List.mem_range.mpr (by have := row.group; omega), by omega⟩

/-- Three elements are put into queue 0. The one whose content the comparison accepts is taken from
behind the head, written to and put into queue 1, then the head follows it. -/
theorem tqueue_refines_fifo_two : ∃ x : Fifos Int, x.contents 0 = [132] ∧ x.contents 1 = [116, 100] ∧
    x.Row 0 16 ∧ x.Row 1 16 ∧ (x.mem.deQ 0).2 = some (.elem 132) ∧ (x.mem.deQ 1).2 = some (.elem 116) := by
  let accepts : Option (Int → Int → Int → Int → Int) := some fun v _ tag _ => v - tag
  have start : Fifos.Reach 8
      (Fifos.start ⟨fun _ => ⟨0, none, none, 0, 0⟩, ⟨fun _ => none, fun _ => none⟩, fun _ => (0 : Int)⟩) := .start _
  have create₀ := start.step (@Fifos.Step.create _ _ _ 0 accepts 3 (some 100) _ rfl rfl fun _ _ => rfl)
  have create₁ := create₀.step (@Fifos.Step.create _ _ _ 1 none 2 (some 200) _ rfl rfl (by decide))
  have new₀ := create₁.step (@Fifos.Step.newElem _ _ _ 0 none rfl fun _ _ => by contradiction)
  have enQ₀ := new₀.step (@Fifos.Step.enQ _ _ _ 0 100 rfl rfl)
  have new₁ := enQ₀.step (@Fifos.Step.newElem _ _ _ 0 none rfl fun _ _ => by contradiction)
  have write := new₁.step (@Fifos.Step.write _ _ _ 116 5)
  have enQ₁ := write.step (@Fifos.Step.enQ _ _ _ 0 116 rfl rfl)
  have new₂ := enQ₁.step (@Fifos.Step.newElem _ _ _ 0 none rfl fun _ _ => by contradiction)
  have enQ₂ := new₂.step (@Fifos.Step.enQ _ _ _ 0 132 rfl rfl)
  have find := enQ₂.step (@Fifos.Step.find _ _ _ 0 5 0 5 0 _ _ rfl rfl)
  have moved := find.step (@Fifos.Step.enQ _ _ _ 1 116 rfl rfl)
  have deQ := moved.step (@Fifos.Step.deQ _ _ _ 0 rfl)
  have run := deQ.step (@Fifos.Step.enQ _ _ _ 1 100 rfl rfl)
  obtain ⟨rows, -, heads, -⟩ := tqueue_refines_fifo run
  exact ⟨_, rfl, rfl, rows 0 rfl, rows 1 rfl, heads 0 rfl, heads 1 rfl⟩

end Tmpi.Utils
