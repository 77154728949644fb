import Tmpi.Mpitrans.Scopes

/-! What the operations of the symbol table do to the scopes. -/

namespace Tmpi.Mpitrans

open Translator

section Operations

variable {t t' : Translator} {scope decls live : List Decl} {scopes : List (List Decl)} {d : Decl} {r : Nat}

/-- Only the links between symbols, the marks of duplicates and the hash table may differ. -/
structure Kept (t t' : Translator) : Prop where
  symnames : t'.symnames = t.symnames
  level : t'.level = t.level
  fresh : t'.fresh = t.fresh
  scopes : t'.scopes = t.scopes
  name : ∀ r, (t'.syms r).name = (t.syms r).name
  levels : ∀ r, (t'.syms r).level = (t.syms r).level

theorem Kept.trans {t'' : Translator} (first : Kept t t') (second : Kept t' t'') : Kept t t'' where
  symnames := second.symnames.trans first.symnames
  level := second.level.trans first.level
  fresh := second.fresh.trans first.fresh
  scopes := second.scopes.trans first.scopes
  name r := (second.name r).trans (first.name r)
  levels r := (second.levels r).trans (first.levels r)

theorem Kept.named (kept : Kept t t') (named : t.Named d) : t'.Named d := by
  rw [Named, symstr, kept.symnames, kept.name]
  exact named

theorem Heap.named (heap : Heap t scopes) : ∀ d ∈ scopes.flatten, t.Named d := fun d member =>
  (heap.framed.holds d member).string heap.room d.name.noNul

theorem Heap.once (heap : Heap t scopes) : (scopes.flatten.map Decl.ref).Nodup := by
  obtain ⟨free, -, nodup, -⟩ := heap.free
  exact nodup.of_append_left

theorem Heap.low (heap : Heap t scopes) : ∀ d ∈ scopes.flatten, d.ref < t.fresh := by
  obtain ⟨free, -, -, low⟩ := heap.free
  exact fun d member => low d.ref (List.mem_append_left _ (List.mem_map_of_mem member))

theorem Heap.kept (heap : Heap t scopes) (kept : Kept t t') (list : t'.freesymlist = t.freesymlist)
    (next : ∀ r ∉ scopes.flatten.map Decl.ref, (t'.syms r).next = (t.syms r).next) : Heap t' scopes where
  free := by
    obtain ⟨free, path, nodup, low⟩ := heap.free
    refine ⟨free, ?_, nodup, fun r member => kept.fresh ▸ low r member⟩
    rw [list]
    exact path.congr fun r member => next r fun inside => (List.nodup_append.mp nodup).2.2 r inside r member rfl
  framed := by
    rw [kept.symnames]
    exact heap.framed.congr (fun d _ => kept.name d.ref) fun _ _ => rfl
  room := kept.symnames ▸ heap.room
  depth := kept.symnames ▸ heap.depth
  level := kept.level ▸ heap.level
  levels := heap.levels.congr fun d _ => kept.levels d.ref

theorem takeSYM_spec (heap : Heap t scopes) :
    ∃ list fresh r, t.takeSYM = ({ t with freesymlist := list, fresh := fresh }, r) ∧
      ∃ free, Path (fun r => (t.syms r).next) list free none ∧
        (r :: (scopes.flatten.map Decl.ref ++ free)).Nodup ∧
        ∀ x ∈ r :: (scopes.flatten.map Decl.ref ++ free), x < fresh := by
  obtain ⟨free, path, nodup, low⟩ := heap.free
  cases free with
  | nil =>
      have none : t.freesymlist = none := path
      refine ⟨_, _, _, by rw [takeSYM, none], [], none, ?_, ?_⟩
      · exact List.nodup_cons.mpr ⟨fun member => lt_irrefl _ (low _ member), nodup⟩
      · intro x member
        cases List.mem_cons.mp member with
        | inl same => exact same ▸ Nat.lt_succ_self _
        | inr old => exact Nat.lt_succ_of_lt (low x old)
  | cons r free =>
      obtain ⟨first, rest⟩ := path
      have order : (scopes.flatten.map Decl.ref ++ r :: free).Perm
          (r :: (scopes.flatten.map Decl.ref ++ free)) := List.perm_middle
      refine ⟨_, _, _, by rw [takeSYM, first], free, rest, order.nodup_iff.mp nodup, ?_⟩
      exact fun x member => low x (order.mem_iff.mpr member)

theorem toShort_small {n : Nat} (small : n ≤ 32767) : toShort n = n := by
  rw [toShort]
  exact Int.bmod_eq_of_le (by omega) (by omega)

theorem newSYM_spec (name : CString) (heap : Heap t (scope :: scopes))
    (short : t.symnames.current ≤ 32767)
    (fits : t.symnames.current + name.bytes.length + 2 < strbufSize) (single : Bool) :
    ∃ t' r, t.newSYM name.bytes t.level = some (t', r) ∧
      Heap t' ((⟨r, name, single⟩ :: scope) :: scopes) ∧ t'.symTab = t.symTab ∧ t'.level = t.level ∧
      t'.scopes = t.scopes ∧ t'.symnames.current = t.symnames.current + name.bytes.length + 2 ∧
      ∀ x ≠ r, (t'.syms x).isDup = (t.syms x).isDup := by
  obtain ⟨list, fresh, r, taken, free, path, nodup, low⟩ := takeSYM_spec heap
  obtain ⟨apart, once⟩ := List.nodup_cons.mp nodup
  have offset : toShort t.symnames.current = t.symnames.current := toShort_small short
  have depth := heap.framed.length
  have small : toShort t.level = t.level := by
    have bound := heap.depth
    have level := heap.level
    have equal : t.level = t.symnames.stk.length := by omega
    rw [equal]
    exact toShort_small (le_trans bound (by decide))
  have alloc : t.symnames.alloc (name.bytes.length + 1) =
      ({ t.symnames with current := t.symnames.current + name.bytes.length + 2 },
        (t.symnames.current : Int), []) := by
    rw [StrBuf.alloc, if_pos (by omega), offset]
    rfl
  obtain ⟨buf, copied, holds, before⟩ := StrBuf.strcpy_spec
    { t.symnames with current := t.symnames.current + name.bytes.length + 2 } t.symnames.current name.bytes (Int.natCast_nonneg _) (by rw [Int.toNat_natCast]; omega)
  rw [Int.toNat_natCast] at holds before
  have made : t.newSYM name.bytes t.level = some ({ t with
      symnames := { t.symnames with buf := buf, current := t.symnames.current + name.bytes.length + 2 }
      freesymlist := list
      fresh := fresh
      syms := Function.update t.syms r { t.syms r with
        next := none, name := t.symnames.current, level := toShort t.level }
      messages := t.messages ++ [] }, r) := by
    simp only [newSYM, taken, nameSYM, alloc, copied, Option.map_some]
  refine ⟨_, r, made, ?_, rfl, rfl, rfl, rfl, ?_⟩
  · have other : ∀ d ∈ (scope :: scopes).flatten, d.ref ≠ r := fun d member same =>
      apart (List.mem_append_left _ (same ▸ List.mem_map_of_mem member))
    refine ⟨⟨free, ?_, ?_, ?_⟩, ?_, le_of_lt fits, heap.depth, heap.level, ?_⟩
    · refine path.congr fun x member => ?_
      dsimp only
      rw [Function.update_of_ne]
      exact fun same => apart (List.mem_append_right _ (same ▸ member))
    · exact nodup
    · exact low
    · refine (heap.framed.congr (fun d member => ?_) before).cons ?_
        (Nat.le_add_right_of_le (Nat.le_add_right _ _))
      · dsimp only
        rw [Function.update_of_ne (other d member)]
      · dsimp only
        rw [Function.update_self]
        exact holds.mono (Nat.le_succ _)
    · refine ⟨fun d member => ?_, ?_⟩
      · dsimp only
        cases List.mem_cons.mp member with
        | inl same =>
            have level := heap.level
            rw [List.length_cons] at level
            rw [same, Function.update_self]
            dsimp only
            omega
        | inr old =>
            rw [Function.update_of_ne (other d (List.mem_append_left _ old))]
            exact heap.levels.1 d old
      · refine heap.levels.2.congr fun d member => ?_
        dsimp only
        rw [Function.update_of_ne (other d (List.mem_append_right _ member))]
  · intro x ne
    dsimp only
    rw [Function.update_of_ne ne]

theorem setDup_sym (isDup : Bool) (x : Nat) :
    (t.setDup r isDup).syms x = { t.syms x with isDup := if x = r then isDup else (t.syms x).isDup } := by
  by_cases same : x = r
  · rw [same, if_pos rfl]
    exact Function.update_self _ _ _
  · rw [if_neg same]
    exact Function.update_of_ne same _ _

theorem Kept.setDup (isDup : Bool) : Kept t (t.setDup r isDup) where
  symnames := rfl
  level := rfl
  fresh := rfl
  scopes := rfl
  name x := by rw [setDup_sym]
  levels x := by rw [setDup_sym]

theorem setDup_next (isDup : Bool) (x : Nat) : ((t.setDup r isDup).syms x).next = (t.syms x).next := by
  rw [setDup_sym]

/-- `add_SYM` adds a symbol unless the scope has declared its name. -/
theorem addSYM_spec (heap : Heap t ((d :: scope) :: scopes)) (single : d.single = true)
    (table : Table t.symTab ((scope :: scopes).flatMap visible)) :
    ∃ tab isDup, t.addSYM d.ref = some ({ t with symTab := tab }.setDup d.ref isDup) ∧
      Table tab (((d :: scope) :: scopes).flatMap visible) ∧
      (isDup = false ↔ d ∈ visible (d :: scope)) := by
  have named : t.symstr d.ref = some d.name.bytes := heap.named d List.mem_cons_self
  have inside : ∀ e ∈ (scope :: scopes).flatMap visible, e ∈ ((d :: scope) :: scopes).flatten :=
    fun e member => List.mem_cons_of_mem d (flatMap_visible_sublist.subset member)
  have new : d.ref ∉ ((scope :: scopes).flatMap visible).map Decl.ref := by
    intro member
    obtain ⟨e, within, same⟩ := List.mem_map.mp member
    have once : (d.ref :: (scope :: scopes).flatten.map Decl.ref).Nodup := heap.once
    exact (List.nodup_cons.mp once).1 (same ▸ List.mem_map_of_mem (flatMap_visible_sublist.subset within))
  have search := findsym_eq d.name.bytes table (fun e member => heap.named e (inside e member))
    fun e member => heap.low e (inside e member)
  have level : (t.syms d.ref).level = scopes.length := heap.levels.1 d List.mem_cons_self
  obtain ⟨tab, added, table'⟩ := addsym_spec table (heap.named d List.mem_cons_self) new
  have add : (t.addsym d.ref).map (fun t => t.setDup d.ref false) =
      some ({ t with symTab := tab }.setDup d.ref false) := by rw [added, Option.map_some]
  rw [addSYM, named, Option.bind_some, search, List.flatMap_cons, List.find?_append]
  by_cases before : ∃ e ∈ scope, e.name = d.name
  · have twice : visible (d :: scope) = visible scope := by rw [visible, if_pos ⟨single, before⟩]
    obtain ⟨f, found⟩ : ∃ f, (visible scope).find? (fun e => e.name.bytes = d.name.bytes) = some f := by
      have some := symbolOf_isSome before
      rw [← find_visible, Option.isSome_map] at some
      exact Option.isSome_iff_exists.mp some
    have member : f ∈ scope := visible_sublist.subset (List.mem_of_find?_eq_some found)
    have same : (t.syms f.ref).level = scopes.length := heap.levels.1 f (List.mem_cons_of_mem d member)
    rw [found, Option.some_or, Option.map_some]
    dsimp only
    rw [if_neg (not_not.mpr (same.trans level.symm))]
    refine ⟨t.symTab, true, rfl, ?_, ?_⟩
    · rw [List.flatMap_cons, twice]
      exact table
    · rw [twice]
      refine iff_of_false (by simp) fun member => ?_
      exact new (List.mem_map_of_mem (List.mem_append_left _ member))
  · have first : visible (d :: scope) = d :: visible scope := by
      rw [visible, if_neg fun both => before both.2]
    have absent : (visible scope).find? (fun e => e.name.bytes = d.name.bytes) = none := by
      rw [List.find?_eq_none]
      intro e member same
      refine before ⟨e, visible_sublist.subset member, ?_⟩
      have bytes : e.name.bytes = d.name.bytes := by simpa using same
      obtain ⟨ref, ⟨bytes', noNul⟩, one⟩ := e
      obtain ⟨ref', ⟨bytes'', noNul'⟩, one'⟩ := d
      simpa using bytes
    refine ⟨tab, false, ?_, ?_, ?_⟩
    · rw [absent, Option.none_or]
      cases found : (scopes.flatMap visible).find? fun e => e.name.bytes = d.name.bytes with
      | none => exact add
      | some f =>
          have member : f ∈ scopes.flatten :=
            flatMap_visible_sublist.subset (List.mem_of_find?_eq_some found)
          have lower := heap.levels.2.outer member
          rw [Option.map_some]
          dsimp only
          rw [if_pos (by rw [level]; exact ne_of_lt lower)]
          exact add
    · rw [List.flatMap_cons, first]
      exact table'
    · rw [first]
      exact iff_of_true rfl List.mem_cons_self

/-- `add_SYMs_to_table` adds them all. -/
theorem addSYMsLoop_spec (fuel syms : Nat) {p : Option Nat} (table : Table t.symTab live)
    (named : ∀ d ∈ decls ++ live, t.Named d) (low : ∀ d ∈ live, d.ref < t.fresh)
    (low' : ∀ d ∈ decls, d.ref < t.fresh)
    (path : Path (fun r => (t.syms r).next) p (decls.map Decl.ref) none)
    (once : ((decls ++ live).map Decl.ref).Nodup) (enough : decls.length < fuel) :
    ∃ t', addSYMsLoop syms fuel p t = some t' ∧ Kept t t' ∧ t'.freesymlist = t.freesymlist ∧
      Table t'.symTab (decls.reverse ++ live) ∧ (∀ r, (t'.syms r).next = (t.syms r).next) ∧
      (∀ d ∈ decls, (t'.syms d.ref).isDup = false) ∧
      ∀ r ∉ decls.map Decl.ref, (t'.syms r).isDup = (t.syms r).isDup := by
  induction decls generalizing t live p fuel with
  | nil =>
      obtain ⟨fuel, rfl⟩ : ∃ m, fuel = m + 1 := ⟨fuel - 1, by simp at enough; omega⟩
      have last : p = none := path
      rw [last]
      exact ⟨t, rfl, ⟨rfl, rfl, rfl, rfl, fun _ => rfl, fun _ => rfl⟩, rfl, table, fun _ => rfl,
        fun d member => absurd member List.not_mem_nil, fun _ _ => rfl⟩
  | cons d decls ih =>
      obtain ⟨fuel, rfl⟩ : ∃ m, fuel = m + 1 := ⟨fuel - 1, by simp at enough; omega⟩
      obtain ⟨first, rest⟩ := path
      have nodup : (d.ref :: (decls ++ live).map Decl.ref).Nodup := once
      obtain ⟨apart, once⟩ := List.nodup_cons.mp nodup
      have name : t.symstr d.ref = some d.name.bytes := named d List.mem_cons_self
      have search := findsym_eq d.name.bytes table
        (fun e member => named e (List.mem_append_right _ member)) low
      obtain ⟨messages, same⟩ : ∃ messages, messages = t.messages ++
          t.warning syms d.name.bytes ((live.find? fun e => e.name.bytes = d.name.bytes).map Decl.ref) :=
        ⟨_, rfl⟩
      obtain ⟨tab, added, table'⟩ := addsym_spec (t := { t with messages := messages }) (d := d) table
        (named d List.mem_cons_self)
        fun member => apart (by rw [List.map_append]; exact List.mem_append_right _ member)
      have plain : Kept t { t with messages := messages, symTab := tab } :=
        ⟨rfl, rfl, rfl, rfl, fun _ => rfl, fun _ => rfl⟩
      have kept := plain.trans (Kept.setDup (r := d.ref) false)
      obtain ⟨t', done, kept', list, table'', next, dups, others⟩ := ih
        (t := setDup { t with messages := messages, symTab := tab } d.ref false)
        fuel table'
        (fun e member => kept.named (named e (List.perm_middle.mem_iff.mp member)))
        (fun e member => by
          cases List.mem_cons.mp member with
          | inl same => exact same ▸ low' d List.mem_cons_self
          | inr old => exact low e old)
        (fun e member => low' e (List.mem_cons_of_mem d member))
        (rest.congr fun x _ => setDup_next false x)
        ((List.perm_middle.map Decl.ref).nodup_iff.mpr (List.nodup_cons.mpr ⟨apart, once⟩))
        (by simpa using enough)
      refine ⟨t', ?_, kept.trans kept', list, ?_, ?_, ?_, ?_⟩
      · rw [first, addSYMsLoop, name]
        dsimp only
        rw [search]
        dsimp only
        rw [← same, added]
        exact done
      · rw [List.reverse_cons, List.append_assoc]
        exact table''
      · exact fun r => (next r).trans (setDup_next false r)
      · intro e member
        cases List.mem_cons.mp member with
        | inl same =>
            have outside : d.ref ∉ decls.map Decl.ref := fun inside =>
              apart (by rw [List.map_append]; exact List.mem_append_left _ inside)
            rw [same, others d.ref outside, setDup_sym, if_pos rfl]
        | inr old => exact dups e old
      · intro r outside
        rw [List.map_cons, List.mem_cons, not_or] at outside
        rw [others r outside.2, setDup_sym, if_neg outside.1]

theorem discardSYM_sym (x : Nat) : (t.discardSYM r).syms x =
    { t.syms x with next := if x = r then t.freesymlist else (t.syms x).next } := by
  by_cases same : x = r
  · rw [same, if_pos rfl]
    exact Function.update_self _ _ _
  · rw [if_neg same]
    exact Function.update_of_ne same _ _

theorem Kept.discardSYM : Kept t (t.discardSYM r) where
  symnames := rfl
  level := rfl
  fresh := rfl
  scopes := rfl
  name x := by rw [discardSYM_sym]
  levels x := by rw [discardSYM_sym]

/-- `discard_SYM_chain` takes the symbols that are not duplicates out of the table, and recycles
them all. -/
theorem discardSYMChain_spec (fuel : Nat) {p : Option Nat} {order free : List Nat}
    (table : Table t.symTab live) (path : Path (fun r => (t.syms r).next) p order none)
    (list : Path (fun r => (t.syms r).next) t.freesymlist free none) (once : (order ++ free).Nodup)
    (dups : ∀ r ∈ order, (t.syms r).isDup = false ↔ r ∈ live.map Decl.ref) (enough : order.length < fuel) :
    ∃ t', discardSYMChain fuel p t = some t' ∧ Kept t t' ∧
      Table t'.symTab (live.filter fun d => d.ref ∉ order) ∧
      Path (fun r => (t'.syms r).next) t'.freesymlist (order.reverse ++ free) none ∧
      ∀ r, (t'.syms r).isDup = (t.syms r).isDup := by
  induction order generalizing t live p fuel free with
  | nil =>
      obtain ⟨fuel, rfl⟩ : ∃ m, fuel = m + 1 := ⟨fuel - 1, by simp at enough; omega⟩
      have last : p = none := path
      have keep : live.filter (fun d => d.ref ∉ ([] : List Nat)) = live := by simp
      rw [last, keep]
      exact ⟨t, rfl, ⟨rfl, rfl, rfl, rfl, fun _ => rfl, fun _ => rfl⟩, table, list, fun _ => rfl⟩
  | cons r order ih =>
      obtain ⟨fuel, rfl⟩ : ∃ m, fuel = m + 1 := ⟨fuel - 1, by simp at enough; omega⟩
      obtain ⟨first, rest⟩ := path
      have nodup : (r :: (order ++ free)).Nodup := once
      obtain ⟨apart, once⟩ := List.nodup_cons.mp nodup
      rw [List.mem_append, not_or] at apart
      have unlinked : ∃ tab, (if (t.syms r).isDup then some t else t.delsym r) = some { t with symTab := tab } ∧
          Table tab (live.filter fun d => d.ref ≠ r) := by
        by_cases dup : (t.syms r).isDup = true
        · have absent : r ∉ live.map Decl.ref := fun member => by
            have single := (dups r List.mem_cons_self).mpr member
            exact absurd (dup.symm.trans single) nofun
          have keep : live.filter (fun d => d.ref ≠ r) = live := by
            rw [List.filter_eq_self]
            exact fun d member => decide_eq_true fun same => absent (same ▸ List.mem_map_of_mem member)
          rw [if_pos dup, keep]
          exact ⟨t.symTab, rfl, table⟩
        · rw [if_neg dup]
          exact delsym_spec table ((dups r List.mem_cons_self).mp (Bool.eq_false_of_not_eq_true dup))
      obtain ⟨tab, taken, table'⟩ := unlinked
      have plain : Kept t { t with symTab := tab } := ⟨rfl, rfl, rfl, rfl, fun _ => rfl, fun _ => rfl⟩
      have next : ∀ x ≠ r, ((discardSYM { t with symTab := tab } r).syms x).next = (t.syms x).next := by
        intro x ne
        rw [discardSYM_sym, if_neg ne]
      have recycled : Path (fun x => ((discardSYM { t with symTab := tab } r).syms x).next) (some r)
          (r :: free) none := by
        refine ⟨rfl, ?_⟩
        have here : ((discardSYM { t with symTab := tab } r).syms r).next = t.freesymlist := by
          rw [discardSYM_sym, if_pos rfl]
        dsimp only
        rw [here]
        exact list.congr fun x member => next x fun same => apart.2 (same ▸ member)
      have kept := plain.trans (Kept.discardSYM (r := r))
      obtain ⟨t', done, kept', table'', list', same⟩ := ih (t := discardSYM { t with symTab := tab } r)
        fuel table'
        (rest.congr fun x member => next x fun same => apart.1 (same ▸ member))
        recycled
        (List.perm_middle.nodup_iff.mpr nodup)
        (fun x member => by
          have ne : x ≠ r := fun same => apart.1 (same ▸ member)
          have mark : ((discardSYM { t with symTab := tab } r).syms x).isDup = (t.syms x).isDup := by
            rw [discardSYM_sym]
          rw [mark, dups x (List.mem_cons_of_mem r member), List.mem_map, List.mem_map]
          constructor
          · rintro ⟨d, within, rfl⟩
            exact ⟨d, List.mem_filter.mpr ⟨within, decide_eq_true ne⟩, rfl⟩
          · rintro ⟨d, within, rfl⟩
            exact ⟨d, List.mem_of_mem_filter within, rfl⟩)
        (by simpa using enough)
      refine ⟨t', ?_, kept.trans kept', ?_, ?_, ?_⟩
      · rw [first, discardSYMChain, ← done]
        by_cases dup : (t.syms r).isDup = true
        · rw [if_pos dup] at taken
          dsimp only
          rw [if_pos dup, ← Option.some.inj taken]
        · rw [if_neg dup] at taken
          dsimp only
          rw [if_neg dup, taken, Option.bind_some]
      · have equal : live.filter (fun d => d.ref ∉ r :: order) =
            (live.filter fun d => d.ref ≠ r).filter fun d => d.ref ∉ order := by
          rw [List.filter_filter]
          apply List.filter_congr
          intro d _
          rw [Bool.eq_iff_iff]
          simp [and_comm]
        rw [equal]
        exact table''
      · rw [List.reverse_cons, List.append_assoc]
        exact list'
      · intro x
        rw [same x, discardSYM_sym]

/-- The parser has linked the symbols, and has done nothing else. -/
theorem linkSYMs_spec {l : List Nat} (once : l.Nodup) :
    ∃ syms, t.linkSYMs l = { t with syms := syms } ∧ Path (fun r => (syms r).next) l.head? l none ∧
      (∀ r ∉ l, syms r = t.syms r) ∧ ∀ r, syms r = { t.syms r with next := (syms r).next } := by
  induction l with
  | nil => exact ⟨t.syms, rfl, rfl, fun _ _ => rfl, fun _ => rfl⟩
  | cons r l ih =>
      obtain ⟨apart, once⟩ := List.nodup_cons.mp once
      obtain ⟨syms, linked, path, others, fields⟩ := ih once
      refine ⟨Function.update syms r { syms r with next := l.head? }, by rw [linkSYMs, linked], ?_, ?_, ?_⟩
      · refine ⟨rfl, ?_⟩
        dsimp only
        rw [Function.update_self]
        refine path.congr fun x member => ?_
        have ne : x ≠ r := fun same => apart (same ▸ member)
        rw [Function.update_of_ne ne]
      · intro x outside
        rw [List.mem_cons, not_or] at outside
        rw [Function.update_of_ne outside.1, others x outside.2]
      · intro x
        by_cases same : x = r
        · rw [same, Function.update_self, fields r]
        · rw [Function.update_of_ne same]
          exact fields x

end Operations

end Tmpi.Mpitrans
