import Tmpi.Mpitrans.Buckets
import Mathlib.Data.List.Perm.Lattice

/-! The scopes of the program and the table: what a name stands for, and the invariant of the
translator. -/

namespace Tmpi.Mpitrans

/-- The symbol for which a name stands in a scope: the last one that the name was given by
`add_SYMs_to_table`, or else the first one. -/
def symbolOf (name : CString) : List Decl → Option Nat
  | [] => none
  | d :: scope =>
      if d.name = name then
        if d.single then some ((symbolOf name scope).getD d.ref) else some d.ref
      else symbolOf name scope

/-- The symbol of the innermost scope that declares the name. -/
def lookup (scopes : List (List Decl)) (name : CString) : Option Nat := scopes.findSome? (symbolOf name)

/-- The declarations of a scope whose symbols are in the table. -/
def visible : List Decl → List Decl
  | [] => []
  | d :: scope =>
      if d.single = true ∧ ∃ e ∈ scope, e.name = d.name then visible scope else d :: visible scope

section Visible

variable {scope : List Decl} {scopes : List (List Decl)} {name : CString} {d : Decl}

theorem visible_sublist : (visible scope).Sublist scope := by
  induction scope with
  | nil => exact List.Sublist.slnil
  | cons d scope ih =>
      rw [visible]
      split
      · exact ih.cons d
      · exact ih.cons_cons d

theorem flatMap_visible_sublist : (scopes.flatMap visible).Sublist scopes.flatten := by
  induction scopes with
  | nil => exact List.Sublist.slnil
  | cons scope scopes ih =>
      rw [List.flatMap_cons, List.flatten_cons]
      exact visible_sublist.append ih

theorem symbolOf_isSome (declared : ∃ e ∈ scope, e.name = name) : (symbolOf name scope).isSome = true := by
  induction scope with
  | nil => simp at declared
  | cons d scope ih =>
      rw [symbolOf]
      split
      · split <;> rfl
      · rename_i other
        obtain ⟨e, member, same⟩ := declared
        cases List.mem_cons.mp member with
        | inl equal => exact absurd (equal ▸ same) other
        | inr later => exact ih ⟨e, later, same⟩

theorem find_visible :
    ((visible scope).find? fun d => d.name.bytes = name.bytes).map Decl.ref = symbolOf name scope := by
  induction scope with
  | nil => rfl
  | cons d scope ih =>
      have names : d.name.bytes = name.bytes ↔ d.name = name := by
        cases d.name
        cases name
        simp
      rw [visible, symbolOf]
      by_cases same : d.name = name
      · rw [if_pos same]
        by_cases single : d.single = true
        · rw [if_pos single]
          by_cases before : ∃ e ∈ scope, e.name = d.name
          · rw [if_pos ⟨single, before⟩, ih]
            obtain ⟨r, known⟩ := Option.isSome_iff_exists.mp (symbolOf_isSome (same ▸ before))
            rw [known, Option.getD_some]
          · rw [if_neg fun both => before both.2, List.find?_cons_of_pos (by simpa using names.mpr same),
              Option.map_some]
            have absent : symbolOf name scope = none := by
              rw [← ih, Option.map_eq_none_iff, List.find?_eq_none]
              intro e member
              have ne : e.name.bytes ≠ name.bytes := by
                intro equal
                have equal' : e.name = d.name := by
                  rw [same]
                  cases h : e.name
                  cases h' : name
                  simpa [h, h'] using equal
                exact before ⟨e, visible_sublist.subset member, equal'⟩
              simpa using ne
            rw [absent, Option.getD_none]
        · rw [if_neg single, if_neg fun both => single both.1,
            List.find?_cons_of_pos (by simpa using names.mpr same), Option.map_some]
      · rw [if_neg same]
        have other : ¬ d.name.bytes = name.bytes := fun equal => same (names.mp equal)
        split
        · exact ih
        · rw [List.find?_cons_of_neg (by simpa using other), ih]

theorem find_flatMap_visible :
    ((scopes.flatMap visible).find? fun d => d.name.bytes = name.bytes).map Decl.ref =
      lookup scopes name := by
  rw [List.find?_flatMap, lookup]
  induction scopes with
  | nil => rfl
  | cons scope scopes ih =>
      rw [List.findSome?_cons, List.findSome?_cons, ← find_visible]
      cases (visible scope).find? fun d => d.name.bytes = name.bytes with
      | none => exact ih
      | some d => rfl

end Visible

/-- The names of the symbols of each scope end before the frame of the next one. -/
def Framed (sb : StrBuf) (name : Nat → Int) : Nat → List Nat → List (List Decl) → Prop
  | current, [], [scope] => ∀ d ∈ scope, sb.Holds (name d.ref) d.name.bytes current
  | current, mark :: stk, scope :: scopes =>
      (∀ d ∈ scope, sb.Holds (name d.ref) d.name.bytes current) ∧ mark ≤ current ∧
        Framed sb name mark stk scopes
  | _, _, _ => False

/-- The symbols of a scope have its level. -/
def Levelled (level : Nat → Int) : List (List Decl) → Prop
  | [] => True
  | scope :: scopes => (∀ d ∈ scope, level d.ref = scopes.length) ∧ Levelled level scopes

/-- The symbols, the buffer and the free list, where the parser has made the declarations. -/
structure Heap (t : Translator) (scopes : List (List Decl)) : Prop where
  free : ∃ free, Path (fun r => (t.syms r).next) t.freesymlist free none ∧
    (scopes.flatten.map Decl.ref ++ free).Nodup ∧
    ∀ r ∈ scopes.flatten.map Decl.ref ++ free, r < t.fresh
  framed : Framed t.symnames (fun r => (t.syms r).name) t.symnames.current t.symnames.stk scopes
  room : t.symnames.current ≤ strbufSize
  depth : t.symnames.stk.length ≤ stackSize
  level : t.level + 1 = scopes.length
  levels : Levelled (fun r => (t.syms r).level) scopes

/-- The invariant of the translator between two actions of the parser. -/
structure Inv (t : Translator) : Prop where
  heap : Heap t t.scopes
  table : Table t.symTab (t.scopes.flatMap visible)
  dups : ∀ scope ∈ t.scopes, ∀ d ∈ scope, (t.syms d.ref).isDup = false ↔ d ∈ visible scope

section Frames

variable {sb sb' : StrBuf} {name name' level level' : Nat → Int} {current limit : Nat} {stk : List Nat}
  {scope : List Decl} {scopes : List (List Decl)}

theorem Framed.head (framed : Framed sb name current stk (scope :: scopes)) :
    ∀ d ∈ scope, sb.Holds (name d.ref) d.name.bytes current := by
  cases stk with
  | nil =>
      cases scopes with
      | nil => exact framed
      | cons => exact absurd framed id
  | cons mark stk => exact framed.1

theorem Framed.holds (framed : Framed sb name current stk scopes) :
    ∀ d ∈ scopes.flatten, sb.Holds (name d.ref) d.name.bytes current := by
  induction scopes generalizing current stk with
  | nil => simp
  | cons scope scopes ih =>
      intro d member
      rw [List.flatten_cons, List.mem_append] at member
      cases member with
      | inl here => exact framed.head d here
      | inr later =>
          cases stk with
          | nil =>
              cases scopes with
              | nil => simp at later
              | cons => exact absurd framed id
          | cons mark stk => exact (ih framed.2.2 d later).mono framed.2.1

theorem Framed.length (framed : Framed sb name current stk scopes) : stk.length + 1 = scopes.length := by
  induction scopes generalizing current stk with
  | nil => cases stk <;> exact absurd framed id
  | cons scope scopes ih =>
      cases stk with
      | nil =>
          cases scopes with
          | nil => rfl
          | cons => exact absurd framed id
      | cons mark stk => rw [List.length_cons, List.length_cons, ih framed.2.2]

theorem Framed.congr (framed : Framed sb name current stk scopes)
    (names : ∀ d ∈ scopes.flatten, name' d.ref = name d.ref)
    (same : ∀ place < current, sb'.buf place = sb.buf place) : Framed sb' name' current stk scopes := by
  induction scopes generalizing current stk with
  | nil => cases stk <;> exact absurd framed id
  | cons scope scopes ih =>
      have here : ∀ d ∈ scope, sb'.Holds (name' d.ref) d.name.bytes current := by
        intro d member
        rw [names d (List.mem_append_left _ member)]
        exact (framed.head d member).congr same
      cases stk with
      | nil =>
          cases scopes with
          | nil => exact here
          | cons => exact absurd framed id
      | cons mark stk =>
          refine ⟨here, framed.2.1, ih framed.2.2 (fun d member => names d (List.mem_append_right _ member)) ?_⟩
          exact fun place before => same place (lt_of_lt_of_le before framed.2.1)

/-- A new name goes behind the others. -/
theorem Framed.cons {d : Decl} (framed : Framed sb name current stk (scope :: scopes))
    (new : sb.Holds (name d.ref) d.name.bytes limit) (le : current ≤ limit) :
    Framed sb name limit stk ((d :: scope) :: scopes) := by
  have here : ∀ e ∈ d :: scope, sb.Holds (name e.ref) e.name.bytes limit := by
    intro e member
    cases List.mem_cons.mp member with
    | inl equal => exact equal ▸ new
    | inr old => exact (framed.head e old).mono le
  cases stk with
  | nil =>
      cases scopes with
      | nil => exact here
      | cons => exact absurd framed id
  | cons mark stk => exact ⟨here, framed.2.1.trans le, framed.2.2⟩

theorem Levelled.congr (levelled : Levelled level scopes)
    (same : ∀ d ∈ scopes.flatten, level' d.ref = level d.ref) : Levelled level' scopes := by
  induction scopes with
  | nil => trivial
  | cons scope scopes ih =>
      refine ⟨fun d member => ?_, ih levelled.2 fun d member => same d (List.mem_append_right _ member)⟩
      rw [same d (List.mem_append_left _ member)]
      exact levelled.1 d member

/-- Outside the innermost scope the levels are lower. -/
theorem Levelled.outer {d : Decl} (levelled : Levelled level scopes) (member : d ∈ scopes.flatten) :
    level d.ref < scopes.length := by
  induction scopes with
  | nil => simp at member
  | cons scope scopes ih =>
      rw [List.flatten_cons, List.mem_append] at member
      rw [List.length_cons]
      cases member with
      | inl here =>
          rw [levelled.1 d here]
          omega
      | inr later =>
          have lower := ih levelled.2 later
          omega

end Frames

end Tmpi.Mpitrans
