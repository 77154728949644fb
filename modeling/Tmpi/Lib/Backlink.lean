import Mathlib.Data.List.Nodup
import Mathlib.Logic.Function.Basic

/-! Lists whose elements point back at the pointer that leads to them. -/

namespace Tmpi

/-- Where a pointer to an element is: at the head of a list, or in an element. -/
inductive Slot (Head Ref : Type) where
  | head (h : Head)
  | next (r : Ref)
  deriving DecidableEq

/-- What the pointers hold, and the slot to which each element points back. -/
structure Links (Head Ref : Type) where
  target : Slot Head Ref → Option Ref
  back : Ref → Option (Slot Head Ref)

namespace Links

variable {Head Ref : Type}

/-- From the slot on there is the list, with every element pointing back. -/
def Linked (links : Links Head Ref) : Slot Head Ref → List Ref → Prop
  | slot, [] => links.target slot = none
  | slot, r :: l => links.target slot = some r ∧ links.back r = some slot ∧ links.Linked (.next r) l

variable {links links' : Links Head Ref} {slot : Slot Head Ref} {l : List Ref} {r : Ref}

theorem Linked.congr (linked : links.Linked slot l) (here : links'.target slot = links.target slot)
    (target : ∀ x ∈ l, links'.target (.next x) = links.target (.next x))
    (back : ∀ x ∈ l, links'.back x = links.back x) : links'.Linked slot l := by
  induction l generalizing slot with
  | nil => exact here.trans linked
  | cons x l ih =>
      obtain ⟨first, behind, rest⟩ := linked
      have tail := ih rest (target x List.mem_cons_self)
        (fun y member => target y (List.mem_cons_of_mem x member))
        (fun y member => back y (List.mem_cons_of_mem x member))
      exact ⟨here.trans first, (back x List.mem_cons_self).trans behind, tail⟩

/-- The slot an element points back at is the first one or in an element, and holds the element. -/
theorem Linked.back_of_mem (linked : links.Linked slot l) (member : r ∈ l) :
    ∃ s, links.back r = some s ∧ links.target s = some r ∧ (s = slot ∨ ∃ x ∈ l, s = .next x) := by
  induction l generalizing slot with
  | nil => exact absurd member List.not_mem_nil
  | cons x l ih =>
      obtain ⟨first, behind, rest⟩ := linked
      cases List.mem_cons.mp member with
      | inl same =>
          subst same
          exact ⟨slot, behind, first, .inl rfl⟩
      | inr later =>
          obtain ⟨s, back, target, place⟩ := ih rest later
          refine ⟨s, back, target, .inr ?_⟩
          cases place with
          | inl here => exact ⟨x, List.mem_cons_self, here⟩
          | inr inside =>
              obtain ⟨y, within, equal⟩ := inside
              exact ⟨y, List.mem_cons_of_mem x within, equal⟩

theorem Linked.next_mem {y : Ref} (linked : links.Linked slot l) (member : r ∈ l)
    (next : links.target (.next r) = some y) : y ∈ l := by
  induction l generalizing slot with
  | nil => exact absurd member List.not_mem_nil
  | cons x l ih =>
      obtain ⟨-, -, rest⟩ := linked
      apply List.mem_cons_of_mem
      cases List.mem_cons.mp member with
      | inl same =>
          subst same
          cases l with
          | nil => exact absurd (rest.symm.trans next) nofun
          | cons z l =>
              obtain ⟨first, -⟩ := rest
              have equal : z = y := Option.some.inj (first.symm.trans next)
              exact equal ▸ List.mem_cons_self
      | inr later => exact ih rest later

theorem Linked.first_mem (linked : links.Linked slot l) (first : links.target slot = some r) : r ∈ l := by
  cases l with
  | nil => exact absurd (linked.symm.trans first) nofun
  | cons x l =>
      have same : x = r := Option.some.inj (linked.1.symm.trans first)
      exact same ▸ List.mem_cons_self

variable [DecidableEq Ref]

/-- Make the element, if there is one, point back at the slot. -/
def setBack (links : Links Head Ref) (slot : Slot Head Ref) : Option Ref → Links Head Ref
  | none => links
  | some r => { links with back := Function.update links.back r (some slot) }

theorem target_setBack (elem : Option Ref) : (links.setBack slot elem).target = links.target := by
  cases elem <;> rfl

theorem back_setBack_self : (links.setBack slot (some r)).back r = some slot := Function.update_self _ _ _

theorem back_setBack_of_ne {elem : Option Ref} (other : elem ≠ some r) :
    (links.setBack slot elem).back r = links.back r := by
  cases elem with
  | none => rfl
  | some x =>
      have ne : r ≠ x := fun same => other (congrArg some same.symm)
      exact Function.update_of_ne ne _ _

variable [DecidableEq Head]

/-- Put an element at the head of a list. -/
def push (links : Links Head Ref) (h : Head) (r : Ref) : Links Head Ref :=
  let tmp := links.target (.head h)
  let target := Function.update links.target (.head h) (some r)
  let back := Function.update links.back r (some (.head h))
  setBack { target := Function.update target (.next r) tmp, back := back } (.next r) tmp

/-- Make the slot of an element lead to the one after it. -/
def bypass (links : Links Head Ref) (slot : Slot Head Ref) (r : Ref) : Links Head Ref :=
  let next := links.target (.next r)
  setBack { links with target := Function.update links.target slot next } slot next

/-- Take an element out, through the slot it points back at. -/
def unlink (links : Links Head Ref) (r : Ref) : Option (Links Head Ref) :=
  (links.back r).map fun slot => links.bypass slot r

section Cells

variable {h : Head} {s : Slot Head Ref} {x : Ref}

theorem target_push_head : (links.push h r).target (.head h) = some r := by
  have ne : (Slot.head h : Slot Head Ref) ≠ .next r := nofun
  rw [push, target_setBack]
  dsimp only
  rw [Function.update_of_ne ne, Function.update_self]

theorem target_push_next : (links.push h r).target (.next r) = links.target (.head h) := by
  rw [push, target_setBack]
  exact Function.update_self _ _ _

theorem target_push_of_ne (head : s ≠ .head h) (next : s ≠ .next r) :
    (links.push h r).target s = links.target s := by
  rw [push, target_setBack]
  exact (Function.update_of_ne next _ _).trans (Function.update_of_ne head _ _)

theorem back_push_self (other : links.target (.head h) ≠ some r) :
    (links.push h r).back r = some (.head h) := by
  rw [push, back_setBack_of_ne other]
  exact Function.update_self _ _ _

theorem back_push_first (first : links.target (.head h) = some x) :
    (links.push h r).back x = some (.next r) := by
  rw [push, first, back_setBack_self]

theorem back_push_of_ne (other : links.target (.head h) ≠ some x) (ne : x ≠ r) :
    (links.push h r).back x = links.back x := by
  rw [push, back_setBack_of_ne other]
  exact Function.update_of_ne ne _ _

theorem target_bypass_self : (links.bypass slot r).target slot = links.target (.next r) := by
  rw [bypass, target_setBack]
  exact Function.update_self _ _ _

theorem target_bypass_of_ne (ne : s ≠ slot) : (links.bypass slot r).target s = links.target s := by
  rw [bypass, target_setBack]
  exact Function.update_of_ne ne _ _

theorem back_bypass_next (next : links.target (.next r) = some x) :
    (links.bypass slot r).back x = some slot := by
  rw [bypass, next, back_setBack_self]

theorem back_bypass_of_ne (other : links.target (.next r) ≠ some x) :
    (links.bypass slot r).back x = links.back x := by
  rw [bypass, back_setBack_of_ne other]

end Cells

theorem Linked.push {h : Head} (linked : links.Linked (.head h) l) (new : r ∉ l) (once : l.Nodup) :
    (links.push h r).Linked (.head h) (r :: l) := by
  refine ⟨target_push_head, back_push_self fun first => new (linked.first_mem first), ?_⟩
  cases l with
  | nil => exact target_push_next.trans linked
  | cons x l =>
      obtain ⟨first, -, rest⟩ := linked
      have ne : ∀ y ∈ x :: l, (Slot.next y : Slot Head Ref) ≠ .next r :=
        fun y member same => new (Slot.next.inj same ▸ member)
      refine ⟨target_push_next.trans first, back_push_first first, rest.congr ?_ ?_ ?_⟩
      · exact target_push_of_ne nofun (ne x List.mem_cons_self)
      · intro y member
        exact target_push_of_ne nofun (ne y (List.mem_cons_of_mem x member))
      · intro y member
        have later : links.target (.head h) ≠ some y := by
          intro same
          have equal : x = y := Option.some.inj (first.symm.trans same)
          exact (List.nodup_cons.mp once).1 (equal ▸ member)
        exact back_push_of_ne later fun same => new (same ▸ List.mem_cons_of_mem x member)

theorem Linked.bypass {s : Slot Head Ref} (linked : links.Linked slot l) (once : l.Nodup)
    (outside : ∀ x ∈ l, slot ≠ .next x) (member : r ∈ l) (back : links.back r = some s) :
    (links.bypass s r).Linked slot (l.filter (· ≠ r)) := by
  induction l generalizing slot with
  | nil => exact absurd member List.not_mem_nil
  | cons x l ih =>
      obtain ⟨first, behind, rest⟩ := linked
      obtain ⟨apart, once⟩ := List.nodup_cons.mp once
      by_cases same : x = r
      · subst same
        obtain rfl : slot = s := Option.some.inj (behind.symm.trans back)
        have keep : (x :: l).filter (· ≠ x) = l := by
          rw [List.filter_cons_of_neg (by simp), List.filter_eq_self]
          intro y within
          exact decide_eq_true fun same => apart (same ▸ within)
        rw [keep]
        cases l with
        | nil => exact target_bypass_self.trans rest
        | cons y l =>
            obtain ⟨second, -, rest⟩ := rest
            obtain ⟨distinct, -⟩ := List.nodup_cons.mp once
            refine ⟨target_bypass_self.trans second, back_bypass_next second, rest.congr ?_ ?_ ?_⟩
            · exact target_bypass_of_ne fun same => outside y (by simp) same.symm
            · intro z within
              exact target_bypass_of_ne fun same => outside z (by simp [within]) same.symm
            · intro z within
              refine back_bypass_of_ne fun same => ?_
              have equal : y = z := Option.some.inj (second.symm.trans same)
              exact distinct (equal ▸ within)
      · have later : r ∈ l := (List.mem_cons.mp member).resolve_left (Ne.symm same)
        have tail := ih rest once (fun y within same => apart (Slot.next.inj same ▸ within)) later
        rw [List.filter_cons_of_pos (by simpa using same)]
        obtain ⟨s', back', -, place⟩ := rest.back_of_mem later
        obtain rfl : s' = s := Option.some.inj (back'.symm.trans back)
        have ne : slot ≠ s' := by
          cases place with
          | inl here =>
              rw [here]
              exact outside x List.mem_cons_self
          | inr inside =>
              obtain ⟨y, within, equal⟩ := inside
              rw [equal]
              exact outside y (List.mem_cons_of_mem x within)
        have unmoved : links.target (.next r) ≠ some x := fun next => apart (rest.next_mem later next)
        exact ⟨(target_bypass_of_ne ne).trans first, (back_bypass_of_ne unmoved).trans behind, tail⟩

/-- Every head has its list, and no two lists share an element. -/
structure Lists (links : Links Head Ref) (chain : Head → List Ref) : Prop where
  linked : ∀ h, links.Linked (.head h) (chain h)
  once : ∀ h, (chain h).Nodup
  apart : ∀ h h' r, r ∈ chain h → r ∈ chain h' → h = h'

namespace Lists

variable {chain : Head → List Ref}

theorem push (lists : links.Lists chain) (h : Head) (new : ∀ h', r ∉ chain h') :
    (links.push h r).Lists (Function.update chain h (r :: chain h)) where
  linked := by
    intro h'
    by_cases same : h' = h
    · rw [same, Function.update_self]
      exact (lists.linked h).push (new h) (lists.once h)
    · rw [Function.update_of_ne same]
      have ne : ∀ x ∈ chain h', x ≠ r := fun x member equal => new h' (equal ▸ member)
      refine (lists.linked h').congr ?_ ?_ ?_
      · exact target_push_of_ne (fun equal => same (Slot.head.inj equal)) nofun
      · intro x member
        exact target_push_of_ne nofun fun equal => ne x member (Slot.next.inj equal)
      · intro x member
        refine back_push_of_ne (fun first => ?_) (ne x member)
        exact same (lists.apart h' h x member ((lists.linked h).first_mem first))
  once := by
    intro h'
    by_cases same : h' = h
    · rw [same, Function.update_self]
      exact List.nodup_cons.mpr ⟨new h, lists.once h⟩
    · rw [Function.update_of_ne same]
      exact lists.once h'
  apart := by
    have known : ∀ x h', x ∈ Function.update chain h (r :: chain h) h' → x = r ∧ h' = h ∨ x ∈ chain h' := by
      intro x h' member
      by_cases same : h' = h
      · rw [same, Function.update_self] at member
        cases List.mem_cons.mp member with
        | inl equal => exact .inl ⟨equal, same⟩
        | inr old => exact .inr (same ▸ old)
      · rw [Function.update_of_ne same] at member
        exact .inr member
    intro a b x here there
    cases known x a here with
    | inl left =>
        cases known x b there with
        | inl right => exact left.2.trans right.2.symm
        | inr right => exact absurd (left.1 ▸ right) (new b)
    | inr left =>
        cases known x b there with
        | inl right => exact absurd (right.1 ▸ left) (new a)
        | inr right => exact lists.apart a b x left right

theorem unlink {h : Head} (lists : links.Lists chain) (member : r ∈ chain h) :
    ∃ links', links.unlink r = some links' ∧ links'.Lists fun h' => (chain h').filter (· ≠ r) := by
  obtain ⟨s, back, -, place⟩ := (lists.linked h).back_of_mem member
  refine ⟨links.bypass s r, by rw [Links.unlink, back, Option.map_some], ?_, ?_, ?_⟩
  · intro h'
    by_cases same : h' = h
    · rw [same]
      exact (lists.linked h).bypass (lists.once h) (fun x _ => nofun) member back
    · have absent : ∀ x ∈ chain h', x ∉ chain h := fun x here there => same (lists.apart h' h x here there)
      have keep : (chain h').filter (· ≠ r) = chain h' := by
        rw [List.filter_eq_self]
        intro x here
        exact decide_eq_true fun equal => absent x here (equal ▸ member)
      rw [keep]
      have head : Slot.head h' ≠ s := by
        cases place with
        | inl equal => exact fun equal' => same (Slot.head.inj (equal'.trans equal))
        | inr inside =>
            obtain ⟨x, -, equal⟩ := inside
            exact fun equal' => absurd (equal'.trans equal) nofun
      have next : ∀ x ∈ chain h', Slot.next x ≠ s := by
        intro x here equal'
        cases place with
        | inl equal => exact absurd (equal'.trans equal) nofun
        | inr inside =>
            obtain ⟨y, within, equal⟩ := inside
            exact absent x here (Slot.next.inj (equal'.trans equal) ▸ within)
      refine (lists.linked h').congr (target_bypass_of_ne head) ?_ ?_
      · exact fun x here => target_bypass_of_ne (next x here)
      · exact fun x here => back_bypass_of_ne fun after => absent x here ((lists.linked h).next_mem member after)
  · exact fun h' => (lists.once h').filter _
  · exact fun a b x here there => lists.apart a b x (List.mem_of_mem_filter here) (List.mem_of_mem_filter there)

end Lists

end Links

end Tmpi
