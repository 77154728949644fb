import Mathlib.Data.List.Nodup
import Mathlib.Logic.Function.Basic

/-! Circular doubly linked lists through a control node. -/

namespace Tmpi

/-- The two pointers of every node. -/
structure Pointers (Node : Type) where
  next : Node → Option Node
  prev : Node → Option Node

namespace Pointers

variable {Node : Type}

/-- Consecutive nodes point at each other. -/
def Linked (p : Pointers Node) : List Node → Prop
  | x :: y :: l => p.next x = some y ∧ p.prev y = some x ∧ p.Linked (y :: l)
  | _ => True

/-- From the control node along the list and back. -/
def Ring (p : Pointers Node) (c : Node) (l : List Node) : Prop := p.Linked (c :: l ++ [c])

variable {p p' : Pointers Node} {c e x y : Node} {l r : List Node}

theorem linked_append : p.Linked (l ++ x :: r) ↔ p.Linked (l ++ [x]) ∧ p.Linked (x :: r) := by
  induction l with
  | nil => exact (and_iff_right trivial).symm
  | cons a l ih =>
      cases l with
      | nil =>
          constructor
          · rintro ⟨next, prev, rest⟩
            exact ⟨⟨next, prev, trivial⟩, rest⟩
          · rintro ⟨⟨next, prev, -⟩, rest⟩
            exact ⟨next, prev, rest⟩
      | cons b l =>
          constructor
          · rintro ⟨next, prev, rest⟩
            obtain ⟨front, back⟩ := ih.mp rest
            exact ⟨⟨next, prev, front⟩, back⟩
          · rintro ⟨⟨next, prev, front⟩, back⟩
            exact ⟨next, prev, ih.mpr ⟨front, back⟩⟩

/-- The last node's `next` and the first one's `prev` do not matter. -/
theorem Linked.congr (linked : p.Linked (l ++ [x])) (next : ∀ y ∈ l, p'.next y = p.next y)
    (prev : ∀ y ∈ (l ++ [x]).tail, p'.prev y = p.prev y) : p'.Linked (l ++ [x]) := by
  induction l with
  | nil => trivial
  | cons a l ih =>
      have rest : ∀ b l', l ++ [x] = b :: l' → p'.next a = some b ∧ p'.prev b = some a ∧ p'.Linked (b :: l') := by
        intro b l' same
        rw [List.cons_append, same] at linked
        obtain ⟨here, back, behind⟩ := linked
        refine ⟨(next a List.mem_cons_self).trans here, ?_, ?_⟩
        · exact (prev b (by simp [same])).trans back
        · rw [← same] at behind ⊢
          refine ih behind (fun y member => next y (List.mem_cons_of_mem a member)) fun y member => ?_
          exact prev y (List.mem_of_mem_tail member)
      rw [List.cons_append]
      cases shape : l ++ [x] with
      | nil => exact absurd shape (by simp)
      | cons b l' => exact rest b l' shape

/-- Only the pointers of the ring's own nodes matter. -/
theorem Ring.congr (ring : p.Ring c l) (next : ∀ y ∈ c :: l, p'.next y = p.next y)
    (prev : ∀ y ∈ c :: l, p'.prev y = p.prev y) : p'.Ring c l := by
  refine Linked.congr ring next fun y member => prev y ?_
  have inside : y ∈ l ++ [c] := member
  rw [List.mem_append, List.mem_singleton] at inside
  exact List.mem_cons.mpr inside.symm

/-- The neighbours of a node in a ring are in it. -/
theorem Ring.neighbours (ring : p.Ring c (l ++ x :: r)) :
    (∃ y ∈ c :: l, p.prev x = some y) ∧ ∃ y ∈ c :: r, p.next x = some y := by
  have whole : c :: (l ++ x :: r) ++ [c] = (c :: l) ++ x :: (r ++ [c]) := by simp
  rw [Ring, whole, linked_append] at ring
  obtain ⟨front, back⟩ := ring
  constructor
  · obtain ⟨l', y, same⟩ : ∃ l' y, c :: l = l' ++ [y] :=
      (List.eq_nil_or_concat' (c :: l)).resolve_left (List.cons_ne_nil _ _)
    rw [same, List.append_assoc] at front
    exact ⟨y, by simp [same], ((linked_append.mp front).2).2.1⟩
  · cases r with
    | nil => exact ⟨c, by simp, back.1⟩
    | cons y r => exact ⟨y, by simp, back.1⟩

theorem Ring.last (ring : p.Ring c l) : ∃ z ∈ c :: l, p.prev c = some z := by
  obtain ⟨l', z, same⟩ : ∃ l' z, c :: l = l' ++ [z] :=
    (List.eq_nil_or_concat' (c :: l)).resolve_left (List.cons_ne_nil _ _)
  rw [Ring, same, List.append_assoc] at ring
  exact ⟨z, by simp [same], ((linked_append.mp ring).2).2.1⟩

theorem Ring.first (ring : p.Ring c l) : p.next c = some (l.headD c) := by
  cases l with
  | nil => exact ring.1
  | cons x l => exact ring.1

variable [DecidableEq Node]

/-- A pointer to nothing is not written through. -/
def setAt (f : Node → Option Node) (x : Option Node) (y : Option Node) : Node → Option Node :=
  match x with
  | none => f
  | some x => Function.update f x y

theorem setAt_of_ne {f : Node → Option Node} {z : Option Node} (other : z ≠ some x) {v : Option Node} :
    setAt f z v x = f x := by
  cases z with
  | none => rfl
  | some z => exact Function.update_of_ne (fun same => other (congrArg some same.symm)) ..

/-- A node is put in front of the control node. -/
def append (p : Pointers Node) (c e : Node) : Pointers Node where
  next := setAt (Function.update p.next e (some c)) (p.prev c) (some e)
  prev := Function.update (Function.update p.prev e (p.prev c)) c (some e)

/-- A node's neighbours are made to point past it. -/
def remove (p : Pointers Node) (x : Node) : Pointers Node where
  next := setAt p.next (p.prev x) (p.next x)
  prev := setAt p.prev (p.next x) (p.prev x)

theorem next_append_of_ne (new : y ≠ e) (last : p.prev c ≠ some y) : (p.append c e).next y = p.next y :=
  (setAt_of_ne last).trans (Function.update_of_ne new ..)

theorem prev_append_of_ne (new : y ≠ e) (control : y ≠ c) : (p.append c e).prev y = p.prev y :=
  (Function.update_of_ne control ..).trans (Function.update_of_ne new ..)

theorem next_remove_of_ne (other : p.prev x ≠ some y) : (p.remove x).next y = p.next y := setAt_of_ne other

theorem prev_remove_of_ne (other : p.next x ≠ some y) : (p.remove x).prev y = p.prev y := setAt_of_ne other

theorem Ring.append (ring : p.Ring c l) (once : (c :: l).Nodup) (new : e ∉ c :: l) :
    (p.append c e).Ring c (l ++ [e]) := by
  obtain ⟨l', z, same⟩ : ∃ l' z, c :: l = l' ++ [z] :=
    (List.eq_nil_or_concat' (c :: l)).resolve_left (List.cons_ne_nil _ _)
  have whole : c :: (l ++ [e]) ++ [c] = l' ++ z :: [e, c] := by
    calc
      c :: (l ++ [e]) ++ [c] = (c :: l) ++ [e, c] := by simp
      _ = l' ++ z :: [e, c] := by rw [same, List.append_assoc]; rfl
  rw [Ring, same, List.append_assoc] at ring
  obtain ⟨front, back⟩ := linked_append.mp ring
  have last : p.prev c = some z := back.2.1
  have ne : z ≠ e := fun equal => new (by simp [same, equal])
  have control : e ≠ c := fun equal => new (by simp [equal])
  rw [Ring, whole, linked_append]
  refine ⟨front.congr (fun y member => ?_) fun y member => ?_, ?_, ?_, ?_, ?_, trivial⟩
  · have other : y ≠ z := by
      rintro rfl
      rw [same] at once
      exact (List.nodup_append.mp once).2.2 y member y (by simp) rfl
    refine next_append_of_ne (fun equal => new (by simp [same, ← equal, member])) ?_
    rw [last]
    exact fun equal => other (Option.some.inj equal).symm
  · rw [← same] at member
    have inside : y ∈ l := member
    refine prev_append_of_ne (fun equal => new ?_) fun equal => ?_
    · rw [← equal]
      exact List.mem_cons_of_mem c inside
    · exact (List.nodup_cons.mp once).1 (equal ▸ inside)
  · rw [Pointers.append, last]
    exact Function.update_self ..
  · rw [Pointers.append]
    dsimp only
    rw [Function.update_of_ne control, Function.update_self, last]
  · rw [Pointers.append, last]
    dsimp only [setAt]
    rw [Function.update_of_ne ne.symm, Function.update_self]
  · exact Function.update_self ..

theorem Ring.remove (ring : p.Ring c (l ++ x :: r)) (once : (c :: (l ++ x :: r)).Nodup) :
    (p.remove x).Ring c (l ++ r) := by
  obtain ⟨l', y, front⟩ : ∃ l' y, c :: l = l' ++ [y] :=
    (List.eq_nil_or_concat' (c :: l)).resolve_left (List.cons_ne_nil _ _)
  obtain ⟨z, r', back⟩ : ∃ z r', r ++ [c] = z :: r' := by
    cases r with
    | nil => exact ⟨c, [], rfl⟩
    | cons z r => exact ⟨z, r ++ [c], rfl⟩
  have whole : c :: (l ++ x :: r) ++ [c] = l' ++ y :: x :: z :: r' := by
    calc
      c :: (l ++ x :: r) ++ [c] = (c :: l) ++ x :: (r ++ [c]) := by simp
      _ = l' ++ y :: x :: z :: r' := by rw [front, back, List.append_assoc]; rfl
  have whole' : c :: (l ++ r) ++ [c] = l' ++ y :: z :: r' := by
    calc
      c :: (l ++ r) ++ [c] = (c :: l) ++ (r ++ [c]) := by simp
      _ = l' ++ y :: z :: r' := by rw [front, back, List.append_assoc]; rfl
  rw [Ring, whole] at ring
  obtain ⟨before, next, prev, next', prev', behind⟩ := linked_append.mp ring
  -- every node of the ring stands in it once
  have split : ((c :: l) ++ x :: r).Nodup := once
  obtain ⟨onceFront, onceBack, apart⟩ := List.nodup_append.mp split
  have inFront : ∀ w, w ∈ l' ∨ w = y → w ∈ c :: l := by
    intro w place
    rw [front]
    simpa using place
  rw [Ring, whole', linked_append]
  refine ⟨before.congr (fun w member => ?_) fun w member => ?_, ?_, ?_, ?_⟩
  · apply next_remove_of_ne
    intro same
    have equal : y = w := Option.some.inj (prev.symm.trans same)
    rw [front] at onceFront
    exact (List.nodup_append.mp onceFront).2.2 w member y (by simp) equal.symm
  · rw [← front] at member
    have inside : w ∈ l := member
    apply prev_remove_of_ne
    intro same
    have equal : z = w := Option.some.inj (next'.symm.trans same)
    have place : z ∈ r ++ [c] := by simp [back]
    rcases List.mem_append.mp place with later | control
    · exact apart w (List.mem_cons_of_mem c inside) z (List.mem_cons_of_mem x later) equal.symm
    · rw [List.mem_singleton.mp control] at equal
      exact (List.nodup_cons.mp onceFront).1 (equal ▸ inside)
  · rw [Pointers.remove, prev, next']
    exact Function.update_self ..
  · rw [Pointers.remove, prev, next']
    exact Function.update_self ..
  · rw [← back] at behind ⊢
    refine behind.congr (fun w member => ?_) fun w member => ?_
    · apply next_remove_of_ne
      intro same
      have equal : y = w := Option.some.inj (prev.symm.trans same)
      exact apart y (inFront y (.inr rfl)) w (List.mem_cons_of_mem x member) equal
    · apply prev_remove_of_ne
      intro same
      have equal : z = w := Option.some.inj (next'.symm.trans same)
      cases r with
      | nil => cases member
      | cons d r =>
          obtain rfl : d = z := (List.cons.inj back).1
          rcases List.mem_append.mp member with later | control
          · exact (List.nodup_cons.mp (List.nodup_cons.mp onceBack).2).1 (equal ▸ later)
          · rw [List.mem_singleton.mp control] at equal
            exact apart c List.mem_cons_self d (by simp) equal.symm

/-- What is not in the ring is not written. -/
theorem Ring.append_outside (ring : p.Ring c l) (outside : y ∉ c :: l) (new : y ≠ e) :
    (p.append c e).next y = p.next y ∧ (p.append c e).prev y = p.prev y := by
  obtain ⟨z, member, last⟩ := ring.last
  constructor
  · apply next_append_of_ne new
    rw [last]
    exact fun same => outside (Option.some.inj same ▸ member)
  · exact prev_append_of_ne new fun same => outside (same ▸ List.mem_cons_self)

theorem Ring.remove_outside (ring : p.Ring c l) (member : x ∈ l) (outside : y ∉ c :: l) :
    (p.remove x).next y = p.next y ∧ (p.remove x).prev y = p.prev y := by
  obtain ⟨front, back, rfl⟩ := List.append_of_mem member
  obtain ⟨⟨z, before, prev⟩, w, after, next⟩ := ring.neighbours
  constructor
  · apply next_remove_of_ne
    rw [prev]
    intro same
    rcases List.mem_cons.mp before with rfl | inside
    · exact outside (Option.some.inj same ▸ List.mem_cons_self)
    · exact outside (Option.some.inj same ▸ List.mem_cons_of_mem c (List.mem_append_left _ inside))
  · apply prev_remove_of_ne
    rw [next]
    intro same
    rcases List.mem_cons.mp after with rfl | inside
    · exact outside (Option.some.inj same ▸ List.mem_cons_self)
    · apply outside
      rw [← Option.some.inj same]
      exact List.mem_cons_of_mem c (List.mem_append_right _ (List.mem_cons_of_mem x inside))

end Pointers

end Tmpi
