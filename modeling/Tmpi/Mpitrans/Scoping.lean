import Tmpi.Mpitrans.Declarations
import Mathlib.Algebra.BigOperators.Group.Finset.Piecewise

/-! The symbol table over whole translations. -/

namespace Tmpi.Mpitrans

open Translator

section Steps

variable {t t' : Translator} {scope : List Decl} {scopes : List (List Decl)}

/-- The declarations of a parameter list. -/
def paramDecls (refs : List Nat) (names : List CString) : List Decl :=
  List.zipWith (fun r name => ⟨r, name, false⟩) refs names

theorem visible_paramDecls {decls : List Decl} (several : ∀ d ∈ decls, d.single = false) :
    visible (decls ++ scope) = decls ++ visible scope := by
  induction decls with
  | nil => rfl
  | cons d decls ih =>
      have here := several d List.mem_cons_self
      rw [List.cons_append, visible, if_neg fun both => Bool.false_ne_true (here.symm.trans both.1),
        ih fun e member => several e (List.mem_cons_of_mem d member), List.cons_append]

theorem newSYMs_spec {names : List CString} (heap : Heap t (scope :: scopes))
    (room : Room t.symnames.current names) :
    ∃ t' refs, newSYMs names t = some (t', refs) ∧ refs.length = names.length ∧
      Heap t' (((paramDecls refs names).reverse ++ scope) :: scopes) ∧ t'.symTab = t.symTab ∧
      t'.scopes = t.scopes ∧ ∀ x ∉ refs, (t'.syms x).isDup = (t.syms x).isDup := by
  induction names generalizing t scope with
  | nil => exact ⟨t, [], rfl, rfl, heap, rfl, rfl, fun _ _ => rfl⟩
  | cons name names ih =>
      obtain ⟨short, fits, rest⟩ := room
      obtain ⟨t₁, r, made, heap₁, tab₁, -, scopes₁, current₁, dups₁⟩ := newSYM_spec name heap short fits false
      obtain ⟨t', refs, made', length, heap', tab', scopes', dups'⟩ := ih heap₁ (current₁ ▸ rest)
      refine ⟨t', r :: refs, ?_, congrArg Nat.succ length, ?_, tab'.trans tab₁, scopes'.trans scopes₁, ?_⟩
      · rw [newSYMs, made, Option.bind_some]
        dsimp only
        rw [made', Option.map_some]
      · rw [paramDecls, List.zipWith_cons_cons, List.reverse_cons, List.append_assoc]
        exact heap'
      · intro x outside
        rw [List.mem_cons, not_or] at outside
        rw [dups' x outside.2, dups₁ x outside.1]

theorem paramDecls_refs {refs : List Nat} {names : List CString} (length : refs.length = names.length) :
    (paramDecls refs names).map Decl.ref = refs := by
  induction refs generalizing names with
  | nil => rfl
  | cons r refs ih =>
      cases names with
      | nil => exact absurd length nofun
      | cons name names =>
          rw [paramDecls, List.zipWith_cons_cons, List.map_cons, ← paramDecls, ih (Nat.succ.inj length)]

theorem paramDecls_single {refs : List Nat} {names : List CString} :
    ∀ d ∈ paramDecls refs names, d.single = false := by
  induction refs generalizing names with
  | nil => exact fun d member => absurd member List.not_mem_nil
  | cons r refs ih =>
      cases names with
      | nil => exact fun d member => absurd member List.not_mem_nil
      | cons name names =>
          intro d member
          cases List.mem_cons.mp member with
          | inl same => exact same ▸ rfl
          | inr later => exact ih d later

theorem Inv.init (memory : Nat → UInt8) : Inv (Translator.init memory) where
  heap := {
    free := ⟨[], rfl, List.nodup_nil, fun r member => absurd member List.not_mem_nil⟩
    framed := fun d member => absurd member List.not_mem_nil
    room := Nat.zero_le _
    depth := Nat.zero_le _
    level := rfl
    levels := ⟨fun d member => absurd member List.not_mem_nil, trivial⟩ }
  table := {
    lists := {
      linked := fun _ => rfl
      once := fun _ => List.nodup_nil
      apart := fun _ _ r member => absurd member List.not_mem_nil }
    once := List.nodup_nil
    count := rfl }
  dups := by
    intro scope member d inside
    rw [List.mem_singleton.mp member] at inside
    exact absurd inside List.not_mem_nil

theorem Inv.enter (inv : Inv t) (fits : t.Fits .enter) :
    ∃ t', t.step .enter = some t' ∧ Inv t' ∧ t'.scopes = [] :: t.scopes := by
  have pushed : t.symnames.newframe = ({ t.symnames with stk := t.symnames.current :: t.symnames.stk }, []) := by
    rw [StrBuf.newframe, if_neg (not_le.mpr fits)]
  refine ⟨_, rfl, ⟨⟨inv.heap.free, ?_, ?_, ?_, ?_, ?_⟩, inv.table, ?_⟩, rfl⟩
  · rw [newframe]
    dsimp only
    rw [pushed]
    exact ⟨fun d member => absurd member List.not_mem_nil, le_rfl, inv.heap.framed.congr (fun _ _ => rfl)
      fun _ _ => rfl⟩
  · rw [newframe]
    dsimp only
    rw [pushed]
    exact inv.heap.room
  · rw [newframe]
    dsimp only
    rw [pushed]
    exact fits
  · have level := inv.heap.level
    show t.level + 1 + 1 = (([] :: t.scopes).length : Int)
    rw [List.length_cons]
    omega
  · exact ⟨fun d member => absurd member List.not_mem_nil, inv.heap.levels⟩
  · intro scope member d inside
    cases List.mem_cons.mp member with
    | inl same =>
        rw [same] at inside
        exact absurd inside List.not_mem_nil
    | inr old => exact inv.dups scope old d inside

theorem mem_visible_append {decls : List Decl} {e : Decl} (new : e.ref ∉ decls.map Decl.ref) :
    e ∈ visible (decls ++ scope) ↔ e ∈ visible scope := by
  induction decls with
  | nil => exact Iff.rfl
  | cons d decls ih =>
      rw [List.map_cons, List.mem_cons, not_or] at new
      rw [List.cons_append, visible]
      split
      · exact ih new.2
      · rw [List.mem_cons, ih new.2]
        exact or_iff_right fun same => new.1 (congrArg Decl.ref same)

/-- New declarations of the innermost scope, when their symbols are made and are in the table. -/
theorem Inv.declared (t' : Translator) (decls : List Decl) (inv : Inv t) (open_scopes : t.scopes = scope :: scopes)
    (same : t'.scopes = t.scopes) (heap : Heap t' ((decls ++ scope) :: scopes))
    (table : Table t'.symTab (((decls ++ scope) :: scopes).flatMap visible))
    (new : ∀ d ∈ decls, (t'.syms d.ref).isDup = false ↔ d ∈ visible (decls ++ scope))
    (old : ∀ r ∉ decls.map Decl.ref, (t'.syms r).isDup = (t.syms r).isDup) :
    Inv (t'.declared decls) ∧ (t'.declared decls).scopes = (decls ++ scope) :: scopes := by
  have equal : t'.declared decls = { t' with scopes := (decls ++ scope) :: scopes } := by
    rw [Translator.declared, same, open_scopes]
  rw [equal]
  refine ⟨⟨⟨heap.free, heap.framed, heap.room, heap.depth, heap.level, heap.levels⟩, table, ?_⟩, rfl⟩
  have once := heap.once
  rw [List.flatten_cons, List.append_assoc, List.map_append] at once
  have apart : ∀ e ∈ scope ++ scopes.flatten, e.ref ∉ decls.map Decl.ref := fun e member inside =>
    (List.nodup_append.mp once).2.2 e.ref inside e.ref (List.mem_map_of_mem member) rfl
  intro scope' member d inside
  cases List.mem_cons.mp member with
  | inl here =>
      subst here
      cases List.mem_append.mp inside with
      | inl fresh => exact new d fresh
      | inr before =>
          have outside := apart d (List.mem_append_left _ before)
          rw [mem_visible_append outside]
          dsimp only
          rw [old d.ref outside]
          exact inv.dups scope (open_scopes ▸ List.mem_cons_self) d before
  | inr outer =>
      have outside := apart d (List.mem_append_right _ (List.mem_flatten_of_mem outer inside))
      dsimp only
      rw [old d.ref outside]
      exact inv.dups scope' (open_scopes ▸ List.mem_cons_of_mem scope outer) d inside

theorem Inv.exists_scope (inv : Inv t) : ∃ scope scopes, t.scopes = scope :: scopes := by
  have length := inv.heap.framed.length
  cases scopes : t.scopes with
  | nil =>
      rw [scopes] at length
      exact absurd length (Nat.succ_ne_zero _)
  | cons scope rest => exact ⟨scope, rest, rfl⟩

theorem Inv.declare {name : CString} (inv : Inv t) (fits : t.Fits (.declare name)) :
    ∃ t' decls, t.step (.declare name) = some t' ∧ Inv t' ∧
      t'.scopes = (decls ++ t.scopes.head!) :: t.scopes.tail := by
  obtain ⟨scope, scopes, open_scopes⟩ := inv.exists_scope
  have heap := inv.heap
  have table := inv.table
  rw [open_scopes] at heap table
  obtain ⟨short, room, -⟩ := fits
  obtain ⟨t₁, r, made, heap₁, tab₁, -, scopes₁, -, dups₁⟩ := newSYM_spec name heap short room true
  obtain ⟨tab, isDup, added, table₂, dup⟩ := addSYM_spec heap₁ rfl (tab₁ ▸ table)
  have plain : Kept t₁ { t₁ with symTab := tab } := ⟨rfl, rfl, rfl, rfl, fun _ => rfl, fun _ => rfl⟩
  have kept := plain.trans (Kept.setDup (r := r) isDup)
  have heap₂ := heap₁.kept kept rfl fun x _ => setDup_next (t := { t₁ with symTab := tab }) isDup x
  have done := inv.declared ({ t₁ with symTab := tab }.setDup r isDup) [⟨r, name, true⟩] open_scopes scopes₁ heap₂ table₂
    (fun d member => by
      rw [List.mem_singleton.mp member, setDup_sym, if_pos rfl]
      exact dup)
    (fun x outside => by
      have ne : x ≠ r := fun same => outside (same ▸ List.mem_singleton_self r)
      rw [setDup_sym, if_neg ne]
      exact dups₁ x ne)
  refine ⟨_, [⟨r, name, true⟩], ?_, done.1, ?_⟩
  · rw [step, made, Option.bind_some]
    dsimp only
    rw [added, Option.map_some]
  · rw [done.2, open_scopes]
    rfl

theorem Inv.parameters {names : List CString} (inv : Inv t) (fits : t.Fits (.parameters names)) :
    ∃ t' decls, t.step (.parameters names) = some t' ∧ Inv t' ∧
      t'.scopes = (decls ++ t.scopes.head!) :: t.scopes.tail := by
  obtain ⟨scope, scopes, open_scopes⟩ := inv.exists_scope
  have heap := inv.heap
  have table := inv.table
  rw [open_scopes] at heap table
  obtain ⟨t₁, refs, made, length, heap₁, tab₁, scopes₁, dups₁⟩ := newSYMs_spec heap fits
  have refs_eq := paramDecls_refs length
  have once := heap₁.once
  rw [List.flatten_cons, List.append_assoc, List.map_append, List.map_reverse, refs_eq] at once
  have distinct : refs.Nodup := List.nodup_reverse.mp once.of_append_left
  obtain ⟨syms, linked, path, others, fields⟩ := linkSYMs_spec (t := t₁) distinct
  have kept : Kept t₁ { t₁ with syms := syms } :=
    ⟨rfl, rfl, rfl, rfl, fun r => by dsimp only; rw [fields r], fun r => by dsimp only; rw [fields r]⟩
  have inside : ∀ r ∈ refs, r ∈ ((((paramDecls refs names).reverse ++ scope) :: scopes).flatten).map Decl.ref := by
    intro r member
    rw [List.flatten_cons, List.append_assoc, List.map_append, List.map_reverse, refs_eq]
    exact List.mem_append_left _ (List.mem_reverse.mpr member)
  have heap₂ := heap₁.kept kept rfl fun r outside => by
    dsimp only
    rw [others r fun member => outside (inside r member)]
  have member₂ : ∀ d ∈ paramDecls refs names ++ (scope :: scopes).flatMap visible,
      d ∈ (((paramDecls refs names).reverse ++ scope) :: scopes).flatten := by
    intro d member
    rw [List.flatten_cons, List.append_assoc]
    cases List.mem_append.mp member with
    | inl new => exact List.mem_append_left _ (List.mem_reverse.mpr new)
    | inr old => exact List.mem_append_right _ (flatMap_visible_sublist.subset old)
  have once₂ : ((paramDecls refs names ++ (scope :: scopes).flatMap visible).map Decl.ref).Nodup := by
    rw [List.map_append, refs_eq]
    refine List.Nodup.sublist (List.Sublist.append_left (flatMap_visible_sublist.map Decl.ref) refs) ?_
    exact ((List.reverse_perm refs).append_right _).nodup_iff.mp once
  have low : ∀ d ∈ paramDecls refs names ++ (scope :: scopes).flatMap visible, d.ref < t₁.fresh :=
    fun d member => heap₁.low d (member₂ d member)
  have short : (paramDecls refs names).length < t₁.fresh + 1 := by
    have bound := length_le_of_fresh distinct fun r member => by
      obtain ⟨d, within, same⟩ := List.mem_map.mp (inside r member)
      exact same ▸ heap₁.low d within
    rw [← List.length_map (f := Decl.ref), refs_eq]
    exact Nat.lt_succ_of_le bound
  obtain ⟨t', added, kept', list, table', next, news, olds⟩ := addSYMsLoop_spec
    (t := { t₁ with syms := syms }) (t₁.fresh + 1) (refs.head?.getD 0) (tab₁.symm ▸ table)
    (fun d member => heap₂.named d (member₂ d member))
    (fun d member => low d (List.mem_append_right _ member))
    (fun d member => low d (List.mem_append_left _ member))
    (refs_eq.symm ▸ path) once₂ short
  rw [refs_eq] at added
  have enter : ({ t₁ with syms := syms }.addSYMsToTable refs.head?) = some t' := by
    rw [← added]
    cases refs with
    | nil => rfl
    | cons r refs => rfl
  have several : ∀ d ∈ (paramDecls refs names).reverse, d.single = false := fun d member =>
    paramDecls_single d (List.mem_reverse.mp member)
  have done := inv.declared t' (paramDecls refs names).reverse open_scopes
    (kept'.scopes.trans scopes₁) (heap₂.kept kept' list fun r _ => next r)
    (by
      rw [List.flatMap_cons, visible_paramDecls several, List.append_assoc]
      exact table')
    (fun d member => by
      rw [visible_paramDecls several]
      exact iff_of_true (news d (List.mem_reverse.mp member)) (List.mem_append_left _ member))
    (fun r outside => by
      rw [List.map_reverse, refs_eq, List.mem_reverse] at outside
      rw [olds r (refs_eq.symm ▸ outside)]
      dsimp only
      rw [others r outside, dups₁ r outside])
  refine ⟨_, (paramDecls refs names).reverse, ?_, done.1, ?_⟩
  · rw [step, made, Option.bind_some]
    dsimp only
    rw [linked, enter, Option.map_some]
    rfl
  · rw [done.2, open_scopes]
    rfl

theorem Inv.leave {order : List Nat} (inv : Inv t) (allowed : t.Allowed (.leave order)) :
    ∃ t', t.step (.leave order) = some t' ∧ Inv t' ∧ t'.scopes = t.scopes.tail := by
  obtain ⟨scope, outer, scopes, open_scopes, perm⟩ := allowed
  have heap := inv.heap
  have table := inv.table
  rw [open_scopes] at heap table
  obtain ⟨free, list, once, low⟩ := heap.free
  have parts : ((scope :: outer :: scopes).flatten.map Decl.ref ++ free).Perm
      ((outer :: scopes).flatten.map Decl.ref ++ (order.reverse ++ free)) := by
    rw [List.flatten_cons, List.map_append, List.append_assoc]
    refine (List.perm_append_comm_assoc _ _ _).trans (List.Perm.append_left _ ?_)
    exact ((order.reverse_perm.trans perm).symm).append_right free
  have nodup := parts.nodup_iff.mp once
  have apart : (order ++ free).Nodup :=
    ((order.reverse_perm).append_right free).nodup_iff.mp nodup.of_append_right
  obtain ⟨syms, linked, path, others, fields⟩ := linkSYMs_spec (t := t) apart.of_append_left
  have plain : ∀ d ∈ scope, ∀ e ∈ (outer :: scopes).flatten, d.ref ≠ e.ref := by
    intro d here e there
    have refs := once.of_append_left
    rw [List.flatten_cons, List.map_append] at refs
    exact (List.nodup_append.mp refs).2.2 _ (List.mem_map_of_mem here) _ (List.mem_map_of_mem there)
  obtain ⟨t', discarded, kept, table', list', dups⟩ := discardSYMChain_spec
    (t := { t with syms := syms, level := t.level - 1 }) (t.fresh + 1) table path
    (list.congr fun r member => by
      dsimp only
      rw [others r fun inside => (List.nodup_append.mp apart).2.2 r inside r member rfl])
    apart
    (fun r member => by
      obtain ⟨d, within, same⟩ := List.mem_map.mp (perm.mem_iff.mp member)
      subst same
      have mark : (syms d.ref).isDup = (t.syms d.ref).isDup := by rw [fields]
      dsimp only
      rw [mark, inv.dups scope (open_scopes ▸ List.mem_cons_self) d within, List.flatMap_cons, List.map_append,
        List.mem_append]
      constructor
      · exact fun here => .inl (List.mem_map_of_mem here)
      · intro place
        cases place with
        | inl here =>
            obtain ⟨e, inside, equal⟩ := List.mem_map.mp here
            have refs : (scope.map Decl.ref).Nodup := perm.nodup_iff.mp apart.of_append_left
            have same := List.inj_on_of_nodup_map refs (visible_sublist.subset inside) within equal
            exact same ▸ inside
        | inr there =>
            obtain ⟨e, inside, equal⟩ := List.mem_map.mp there
            exact absurd equal.symm (plain d within e (flatMap_visible_sublist.subset inside)))
    (by
      have bound := length_le_of_fresh (l := order) apart.of_append_left fun r member =>
        low r (parts.mem_iff.mpr (List.mem_append_right _
          (List.mem_append_left _ (List.mem_reverse.mpr member))))
      exact Nat.lt_succ_of_le bound)
  have rest : ((scope :: outer :: scopes).flatMap visible).filter (fun d => d.ref ∉ order) =
      (outer :: scopes).flatMap visible := by
    rw [List.flatMap_cons, List.filter_append, List.filter_eq_nil_iff.mpr, List.nil_append,
      List.filter_eq_self]
    · intro e inside
      refine decide_eq_true fun member => ?_
      obtain ⟨d, within, same⟩ := List.mem_map.mp (perm.mem_iff.mp member)
      exact plain d within e (flatMap_visible_sublist.subset inside) same
    · intro d inside
      have member : d.ref ∈ order := perm.mem_iff.mpr (List.mem_map_of_mem (visible_sublist.subset inside))
      simpa using member
  rw [rest] at table'
  have framed := heap.framed
  cases stk : t.symnames.stk with
  | nil =>
      rw [stk] at framed
      exact absurd framed id
  | cons mark stk' =>
      rw [stk] at framed
      have popped : t'.symnames.restore = ({ t.symnames with stk := stk', current := mark }, []) := by
        rw [kept.symnames, StrBuf.restore]
        dsimp only
        rw [stk]
      have tail : t'.scopes.tail = outer :: scopes := by
        rw [kept.scopes, open_scopes]
        rfl
      have left : t.step (.leave order) = some { t' with
          symnames := { t.symnames with stk := stk', current := mark }
          messages := t'.messages ++ []
          scopes := outer :: scopes } := by
        rw [step]
        dsimp only
        rw [linked, discarded, Option.map_some, Translator.restore]
        dsimp only
        rw [popped, tail]
      refine ⟨_, left, ⟨⟨⟨_, list', nodup, ?_⟩, ?_, ?_, ?_, ?_, ?_⟩, table', ?_⟩, ?_⟩
      · intro r member
        have bound := low r (parts.mem_iff.mpr member)
        rwa [← kept.fresh] at bound
      · refine framed.2.2.congr (fun d _ => ?_) fun _ _ => rfl
        dsimp only
        rw [kept.name]
        dsimp only
        rw [fields]
      · exact framed.2.1.trans heap.room
      · have depth := heap.depth
        rw [stk, List.length_cons] at depth
        exact Nat.le_of_succ_le depth
      · have level := heap.level
        rw [List.length_cons] at level
        dsimp only
        rw [kept.level]
        dsimp only
        omega
      · refine heap.levels.2.congr fun d _ => ?_
        dsimp only
        rw [kept.levels]
        dsimp only
        rw [fields]
      · intro scope' member d inside
        have same := dups d.ref
        dsimp only at same ⊢
        rw [fields] at same
        rw [same]
        exact inv.dups scope' (open_scopes ▸ List.mem_cons_of_mem scope member) d inside
      · rw [open_scopes, List.tail_cons]

end Steps

/-- Every scope that is entered is left again, and `depth` more are. -/
def Balanced : Nat → List Act → Prop
  | depth, [] => depth = 0
  | depth, .enter :: acts => Balanced (depth + 1) acts
  | 0, .leave _ :: _ => False
  | depth + 1, .leave _ :: acts => Balanced depth acts
  | depth, _ :: acts => Balanced depth acts

/-- The table between two actions of the parser, with the symbols of each bucket. -/
structure Sound (t : Translator) (bucket : Nat → List Nat) : Prop where
  finds : ∀ name : CString, t.findsym name.bytes = some (lookup t.scopes name)
  linked : ∀ i, t.symTab.links.Linked (.head i) (bucket i)
  back : ∀ i, ∀ r ∈ bucket i, ∃ slot,
    t.symTab.links.back r = some slot ∧ t.symTab.links.target slot = some r
  once : ∀ i, (bucket i).Nodup
  count : t.symTab.numsyms = ∑ i ∈ Finset.range tableSize.toNat, ((bucket i).length : Int)
  /-- Linked are the symbols of the open scopes that are not marked as duplicates. -/
  members : ∀ i r, r ∈ bucket i ↔ ∃ d ∈ t.scopes.flatten,
    d.ref = r ∧ (t.syms r).isDup = false ∧ bucketOf d.name.bytes = i
  recycled : ∃ free, Path (fun r => (t.syms r).next) t.freesymlist free none ∧ ∀ r ∈ free, ∀ i, r ∉ bucket i

/-- The sequence leads to a sound table; when it ends by leaving a scope, every name is found as
when it was entered, and its symbols without a mark have been unlinked, and no others. -/
def Scoped (memory : Nat → UInt8) (acts : List Act) : Prop :=
  ∃ t, (Translator.init memory).run acts = some t ∧ (∃ bucket, Sound t bucket) ∧
    (∀ before inner order s, acts = before ++ .enter :: (inner ++ [.leave order]) → Balanced 0 inner →
      (Translator.init memory).run before = some s →
        ∀ name : CString, t.findsym name.bytes = s.findsym name.bytes) ∧
    ∀ before order s scope, acts = before ++ [.leave order] →
      (Translator.init memory).run before = some s → s.scopes.head? = some scope →
        t.symTab.numsyms = s.symTab.numsyms - (scope.filter fun d => (s.syms d.ref).isDup = false).length

section Runs

variable {t t' : Translator} {acts : List Act}

theorem bucketOf_lt (key : List UInt8) : bucketOf key < tableSize.toNat := by
  rw [bucketOf, UInt32.toNat_mod]
  exact Nat.mod_lt _ (by decide)

theorem sum_chain (live : List Decl) :
    (live.length : Int) = ∑ i ∈ Finset.range tableSize.toNat, ((chain live i).length : Int) := by
  induction live with
  | nil => exact (Finset.sum_const_zero).symm
  | cons d live ih =>
      have split : ∀ i ∈ Finset.range tableSize.toNat, ((chain (d :: live) i).length : Int) =
          (chain live i).length + if bucketOf d.name.bytes = i then 1 else 0 := by
        intro i _
        by_cases same : bucketOf d.name.bytes = i
        · rw [chain, List.filter_cons_of_pos (by simpa using same), if_pos same, chain]
          simp
        · rw [chain, List.filter_cons_of_neg (by simpa using same), if_neg same, chain, add_zero]
      rw [Finset.sum_congr rfl split, Finset.sum_add_distrib, ← ih, Finset.sum_ite_eq,
        if_pos (Finset.mem_range.mpr (bucketOf_lt _)), List.length_cons, Nat.cast_add, Nat.cast_one]

theorem Inv.mem_live (inv : Inv t) {d : Decl} :
    d ∈ t.scopes.flatMap visible ↔ d ∈ t.scopes.flatten ∧ (t.syms d.ref).isDup = false := by
  constructor
  · intro live
    obtain ⟨scope, open_scope, inside⟩ := List.mem_flatMap.mp live
    have member := visible_sublist.subset inside
    exact ⟨List.mem_flatten_of_mem open_scope member, (inv.dups scope open_scope d member).mpr inside⟩
  · rintro ⟨member, single⟩
    obtain ⟨scope, open_scope, inside⟩ := List.mem_flatten.mp member
    exact List.mem_flatMap.mpr ⟨scope, open_scope, (inv.dups scope open_scope d inside).mp single⟩

theorem Inv.finds (inv : Inv t) (name : CString) : t.findsym name.bytes = some (lookup t.scopes name) := by
  rw [← find_flatMap_visible]
  apply findsym_eq name.bytes inv.table
  · exact fun d member => inv.heap.named d (flatMap_visible_sublist.subset member)
  · exact fun d member => inv.heap.low d (flatMap_visible_sublist.subset member)

theorem Inv.sound (inv : Inv t) : Sound t (chain (t.scopes.flatMap visible)) where
  finds := inv.finds
  linked := inv.table.lists.linked
  back i r member := by
    obtain ⟨slot, back, target, -⟩ := (inv.table.lists.linked i).back_of_mem member
    exact ⟨slot, back, target⟩
  once := inv.table.lists.once
  count := inv.table.count.trans (sum_chain _)
  members i r := by
    rw [mem_chain]
    constructor
    · rintro ⟨d, live, rfl, place⟩
      have known := inv.mem_live.mp live
      exact ⟨d, known.1, rfl, known.2, place⟩
    · rintro ⟨d, member, rfl, single, place⟩
      exact ⟨d, inv.mem_live.mpr ⟨member, single⟩, rfl, place⟩
  recycled := by
    obtain ⟨free, path, once, -⟩ := inv.heap.free
    refine ⟨free, path, fun r recycled i member => ?_⟩
    obtain ⟨d, live, same, -⟩ := mem_chain.mp member
    have inside : r ∈ t.scopes.flatten.map Decl.ref :=
      same ▸ List.mem_map_of_mem (flatMap_visible_sublist.subset live)
    exact (List.nodup_append.mp once).2.2 r inside r recycled rfl

/-- What an action does to the open scopes. -/
def NewScopes (scopes scopes' : List (List Decl)) : Act → Prop
  | .enter => scopes' = [] :: scopes
  | .leave _ => scopes' = scopes.tail
  | _ => ∃ decls, scopes' = (decls ++ scopes.head!) :: scopes.tail

theorem Inv.step {a : Act} (inv : Inv t) (allowed : t.Allowed a) (fits : t.Fits a) :
    ∃ t', t.step a = some t' ∧ Inv t' ∧ NewScopes t.scopes t'.scopes a := by
  cases a with
  | enter => exact inv.enter fits
  | declare name =>
      obtain ⟨t', decls, step, inv', scopes⟩ := inv.declare fits
      exact ⟨t', step, inv', decls, scopes⟩
  | parameters names =>
      obtain ⟨t', decls, step, inv', scopes⟩ := inv.parameters fits
      exact ⟨t', step, inv', decls, scopes⟩
  | leave order => exact inv.leave allowed

theorem run_append {acts acts' : List Act} :
    t.run (acts ++ acts') = (t.run acts).bind fun t => t.run acts' := by
  induction acts generalizing t with
  | nil => rfl
  | cons a acts ih =>
      rw [List.cons_append, run, run]
      cases t.step a with
      | none => rfl
      | some t' => exact ih

theorem Inv.run (inv : Inv t) (nested : t.Nested acts) (fits : t.AllFit acts) :
    ∃ t', t.run acts = some t' ∧ Inv t' := by
  induction acts generalizing t with
  | nil => exact ⟨t, rfl, inv⟩
  | cons a acts ih =>
      obtain ⟨t₁, step, inv₁, -⟩ := inv.step nested.1 fits.1
      obtain ⟨t', run, inv'⟩ := ih inv₁ (nested.2 t₁ step) (fits.2 t₁ step)
      exact ⟨t', by rw [Translator.run, step, Option.bind_some, run], inv'⟩

theorem nested_append {acts' : List Act} (nested : t.Nested (acts ++ acts')) :
    t.Nested acts ∧ ∀ t', t.run acts = some t' → t'.Nested acts' := by
  induction acts generalizing t with
  | nil => exact ⟨trivial, fun t' run => Option.some.inj run ▸ nested⟩
  | cons a acts ih =>
      refine ⟨⟨nested.1, fun t₁ step => (ih (nested.2 t₁ step)).1⟩, fun t' run => ?_⟩
      rw [Translator.run] at run
      obtain ⟨t₁, step, rest⟩ := Option.bind_eq_some_iff.mp run
      exact (ih (nested.2 t₁ step)).2 t' rest

theorem allFit_append {acts' : List Act} (fits : t.AllFit (acts ++ acts')) :
    t.AllFit acts ∧ ∀ t', t.run acts = some t' → t'.AllFit acts' := by
  induction acts generalizing t with
  | nil => exact ⟨trivial, fun t' run => Option.some.inj run ▸ fits⟩
  | cons a acts ih =>
      refine ⟨⟨fits.1, fun t₁ step => (ih (fits.2 t₁ step)).1⟩, fun t' run => ?_⟩
      rw [Translator.run] at run
      obtain ⟨t₁, step, rest⟩ := Option.bind_eq_some_iff.mp run
      exact (ih (fits.2 t₁ step)).2 t' rest

/-- The scopes outside stay as they are while the scopes inside come and go. -/
theorem Inv.balanced {depth : Nat} {outer : List (List Decl)} (inner : List (List Decl)) (inv : Inv t)
    (nested : t.Nested acts) (fits : t.AllFit acts) (balanced : Balanced depth acts)
    (scopes : t.scopes = inner ++ outer) (length : inner.length = depth + 1) (run : t.run acts = some t') :
    t'.scopes.tail = outer := by
  induction acts generalizing t depth inner with
  | nil =>
      obtain rfl := Option.some.inj run
      have zero : depth = 0 := balanced
      rw [zero, zero_add] at length
      obtain ⟨scope, rfl⟩ := List.length_eq_one_iff.mp length
      rw [scopes]
      rfl
  | cons a acts ih =>
      obtain ⟨t₁, step, inv₁, new⟩ := inv.step nested.1 fits.1
      rw [Translator.run, step, Option.bind_some] at run
      have next : ∀ {depth' : Nat} (inner' : List (List Decl)), Balanced depth' acts →
          t₁.scopes = inner' ++ outer → inner'.length = depth' + 1 → t'.scopes.tail = outer :=
        fun inner' balanced' scopes' length' =>
          ih inner' inv₁ (nested.2 t₁ step) (fits.2 t₁ step) balanced' scopes' length' run
      obtain ⟨scope, inner, rfl⟩ : ∃ scope rest, inner = scope :: rest := by
        cases inner with
        | nil => exact absurd length.symm (Nat.succ_ne_zero _)
        | cons scope rest => exact ⟨scope, rest, rfl⟩
      rw [scopes] at new
      cases a with
      | enter => exact next ([] :: scope :: inner) balanced new (congrArg Nat.succ length)
      | declare name =>
          obtain ⟨decls, equal⟩ := new
          exact next ((decls ++ scope) :: inner) (by cases depth <;> exact balanced) equal length
      | parameters names =>
          obtain ⟨decls, equal⟩ := new
          exact next ((decls ++ scope) :: inner) (by cases depth <;> exact balanced) equal length
      | leave order =>
          cases depth with
          | zero => exact absurd balanced id
          | succ depth => exact next inner balanced new (Nat.succ.inj length)

/-- The symbols of a scope that have no mark are those in the table. -/
theorem Inv.length_unmarked {scope : List Decl} (inv : Inv t) (member : scope ∈ t.scopes) :
    (scope.filter fun d => (t.syms d.ref).isDup = false).length = (visible scope).length := by
  have refs := inv.heap.once
  rw [List.map_flatten, List.nodup_flatten] at refs
  have once : scope.Nodup := (refs.1 _ (List.mem_map_of_mem member)).of_map
  apply List.Perm.length_eq
  rw [List.perm_ext_iff_of_nodup (once.filter _) (visible_sublist.nodup once)]
  intro d
  rw [List.mem_filter, decide_eq_true_iff]
  constructor
  · rintro ⟨inside, single⟩
    exact (inv.dups scope member d inside).mp single
  · intro live
    have inside := visible_sublist.subset live
    exact ⟨inside, (inv.dups scope member d inside).mpr live⟩

/-- An identifier of one letter. -/
def shortName : CString where
  bytes := [97]
  noNul b member := by
    rw [List.mem_singleton.mp member]
    decide

/-- While the names and the frames fit, the table is as it should be in every translation. -/
theorem symbolTable_scoped (memory : Nat → UInt8) (acts : List Act)
    (nested : (Translator.init memory).Nested acts) (fits : (Translator.init memory).AllFit acts) :
    Scoped memory acts := by
  have start := Inv.init memory
  obtain ⟨t, run, inv⟩ := start.run nested fits
  refine ⟨t, run, ⟨_, inv.sound⟩, ?_, ?_⟩
  · intro before inner order s whole balanced entering name
    rw [whole] at run nested fits
    have nested₁ := nested_append nested
    have fits₁ := allFit_append fits
    obtain ⟨s', entering', inv₁⟩ := start.run nested₁.1 fits₁.1
    obtain rfl : s' = s := Option.some.inj (entering'.symm.trans entering)
    rw [run_append, entering, Option.bind_some, Translator.run] at run
    obtain ⟨s₂, enter, run⟩ := Option.bind_eq_some_iff.mp run
    obtain ⟨s₂', enter', inv₂, scopes₂⟩ := inv₁.step (nested₁.2 s' entering).1 (fits₁.2 s' entering).1
    obtain rfl : s₂' = s₂ := Option.some.inj (enter'.symm.trans enter)
    have nested₂ := nested_append ((nested₁.2 s' entering).2 s₂' enter)
    have fits₂ := allFit_append ((fits₁.2 s' entering).2 s₂' enter)
    rw [run_append] at run
    obtain ⟨s₃, middle, last⟩ := Option.bind_eq_some_iff.mp run
    obtain ⟨s₃', middle', inv₃⟩ := inv₂.run nested₂.1 fits₂.1
    obtain rfl : s₃' = s₃ := Option.some.inj (middle'.symm.trans middle)
    have outside := inv₂.balanced [[]] nested₂.1 fits₂.1 balanced scopes₂ rfl middle
    obtain ⟨t', leave, -, scopes⟩ := inv₃.step (nested₂.2 s₃' middle).1 (fits₂.2 s₃' middle).1
    rw [Translator.run, leave] at last
    obtain rfl := Option.some.inj last
    have same : t'.scopes = s'.scopes := scopes.trans outside
    rw [inv.finds, inv₁.finds, same]
  · intro before order s scope whole leaving open_scope
    rw [whole] at run nested fits
    have nested₁ := nested_append nested
    have fits₁ := allFit_append fits
    obtain ⟨s', leaving', inv₁⟩ := start.run nested₁.1 fits₁.1
    obtain rfl : s' = s := Option.some.inj (leaving'.symm.trans leaving)
    rw [run_append, leaving, Option.bind_some, Translator.run] at run
    obtain ⟨t', leave, -, scopes⟩ := inv₁.step (nested₁.2 s' leaving).1 (fits₁.2 s' leaving).1
    rw [leave] at run
    obtain rfl := Option.some.inj run
    obtain ⟨scope', rest, scopes₁⟩ := inv₁.exists_scope
    rw [scopes₁, List.head?_cons] at open_scope
    obtain rfl := Option.some.inj open_scope
    have remaining : t'.scopes = rest := by
      rw [show t'.scopes = s'.scopes.tail from scopes, scopes₁, List.tail_cons]
    have member : scope' ∈ s'.scopes := by
      rw [scopes₁]
      exact List.mem_cons_self
    rw [inv₁.length_unmarked member, inv.table.count, inv₁.table.count, remaining, scopes₁, List.flatMap_cons,
      List.length_append]
    omega

/-- A parameter of this name. -/
def otherName : CString where
  bytes := [98]
  noNul b member := by
    rw [List.mem_singleton.mp member]
    decide

/-- A scope declares a name of the scope outside, a parameter list that has it again and one more
name, and a duplicate of that; a scope inside has come and gone. -/
def shadowing : List Act :=
  [.declare shortName, .enter, .declare shortName, .parameters [otherName, shortName],
    .declare otherName, .enter, .declare otherName, .leave [5], .leave [4, 1, 3, 2]]

theorem symbolTable_scoped_block : Scoped (fun _ => 0) shadowing :=
  symbolTable_scoped _ _ (by decide +kernel) (by decide +kernel)

theorem toShort_wide {n : Nat} (wide : 32768 ≤ n) (small : n ≤ 65535) : toShort n < 0 := by
  have wrapped : toShort n = n - 65536 := by
    rw [toShort, Int.bmod_def, Int.emod_eq_of_lt (Int.natCast_nonneg n) (by omega), if_neg (by omega)]
    rfl
  omega

theorem alloc_offset (sb : StrBuf) (size : Nat) :
    (sb.alloc size).2.1 = toShort sb.current ∨ (sb.alloc size).2.1 = -1 := by
  by_cases room : sb.current + size + 1 < strbufSize
  · simp only [StrBuf.alloc, if_pos room, true_or]
  · simp only [StrBuf.alloc, if_neg room, or_true]

/-- Behind 32767 bytes of names the `short` is negative. -/
theorem newSYM_undefined {name : List UInt8} {level : Int} (wide : 32768 ≤ t.symnames.current)
    (small : t.symnames.current ≤ 65535) : t.newSYM name level = none := by
  have negative : (t.symnames.alloc (name.length + 1)).2.1 < 0 := by
    cases alloc_offset t.symnames (name.length + 1) with
    | inl short =>
        rw [short]
        exact toShort_wide wide small
    | inr full =>
        rw [full]
        decide
  have outside : ∀ (sb : StrBuf) (bytes : List UInt8),
      sb.strcpy (t.symnames.alloc (name.length + 1)).2.1 bytes = none := by
    intro sb bytes
    rw [StrBuf.strcpy, if_neg fun inside => absurd inside.1 (not_le.mpr negative)]
  rw [newSYM, takeSYM]
  cases t.freesymlist with
  | none => simp only [nameSYM, outside, Option.map_none]
  | some r => simp only [nameSYM, outside, Option.map_none]

theorem declared_symnames (decls : List Decl) : (t.declared decls).symnames = t.symnames := by
  rw [Translator.declared]
  split <;> rfl

/-- An identifier of 32766 letters. -/
def wideName : CString where
  bytes := List.replicate 32766 97
  noNul b member := by
    rw [(List.mem_replicate.mp member).2]
    decide

theorem wideName_not_scoped :
    (Translator.init fun _ => 0).Nested [.declare wideName, .declare shortName] ∧
      ¬ Scoped (fun _ => 0) [.declare wideName, .declare shortName] := by
  refine ⟨⟨trivial, fun _ _ => ⟨trivial, fun _ _ => trivial⟩⟩, ?_⟩
  rintro ⟨t, run, -⟩
  have length : wideName.bytes.length = 32766 := List.length_replicate
  have start := Inv.init fun _ => 0
  obtain ⟨t₁, r, made, heap₁, tab₁, -, scopes₁, current₁, -⟩ := newSYM_spec wideName
    start.heap (Nat.zero_le _) (by rw [length]; decide) true
  obtain ⟨tab, isDup, added, -, -⟩ := addSYM_spec heap₁ rfl (tab₁ ▸ start.table)
  rw [Translator.run, Translator.step, made, Option.bind_some] at run
  dsimp only at run
  have current : (({ t₁ with symTab := tab }.setDup r isDup).declared
      [⟨r, wideName, true⟩]).symnames.current = 32768 := by
    rw [declared_symnames]
    show t₁.symnames.current = 32768
    rw [current₁, length]
    rfl
  rw [added, Option.map_some, Option.bind_some, Translator.run, Translator.step,
    newSYM_undefined (ge_of_eq current) (by rw [current]; decide)] at run
  exact absurd run nofun

end Runs

end Tmpi.Mpitrans
