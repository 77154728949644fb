import Tmpi.Lib.Path

/-! `mpitrans.y`: the lists of symbols that the declarations of a block, and of a file, yield.

What is modelled of a `SYM` is its `next`. The parser writes links on the way to a declarator, too:
`new_SYM` takes symbols from those that are free, parameters are linked, and symbols are given
back. -/

namespace Tmpi.Mpitrans

abbrev SymLinks := Nat → Option Nat

/-- Links that are written elsewhere, one after the other. -/
def SymLinks.write (next : SymLinks) (others : List (Nat × Option Nat)) : SymLinks :=
  others.foldl (fun next (sym, link) => Function.update next sym link) next

/-- What `identifier_list` writes, from a list on. Its first identifier has been read ahead of
`func_decl_intro`, in the scope of the declarator, and may be a symbol of the table. -/
def identifierList (list : Option Nat) : List Nat → List (Nat × Option Nat)
  | [] => []
  | sym :: syms => (sym, list) :: identifierList (some sym) syms

/-- For a symbol that the lexer has found in the table `declarator2` makes a new one. -/
structure Declarator where
  sym : Nat
  others : List (Nat × Option Nat)

/-- `others` are written by the specifiers. -/
structure Declaration where
  others : List (Nat × Option Nat)
  declarators : List Declarator

/-- The parameters and the body of a function write the `others` of its declarator. -/
inductive ExternalDeclaration where
  | functionDefinition (declarator : Declarator)
  | declaration (declaration : Declaration)

namespace SymLinks

/-- `init_declarator_list`, from a list on -/
def initDeclaratorList (next : SymLinks) (list : Option Nat) : List Declarator → SymLinks × Option Nat
  | [] => (next, list)
  | d :: ds => initDeclaratorList (Function.update (next.write d.others) d.sym list) (some d.sym) ds

/-- The loop of `reverse_symlink`. -/
def reverseLoop : Nat → SymLinks → Nat → Option Nat → Option (SymLinks × Nat)
  | 0, _, _, _ => none
  | _ + 1, next, previous, none => some (next, previous)
  | fuel + 1, next, previous, some current =>
      reverseLoop fuel (Function.update next current (some previous)) current (next current)

/-- `reverse_symlink` -/
def reverseSymlink (fuel : Nat) (next : SymLinks) : Option Nat → Option (SymLinks × Option Nat)
  | none => some (next, none)
  | some sym =>
      (reverseLoop fuel next sym (next sym)).map fun (next, previous) =>
        (Function.update next sym none, some previous)

/-- `declaration`: a declaration without declarators yields `NULL`, the other one what
`ParseDeclList` returns. -/
def declaration (fuel : Nat) (next : SymLinks) (d : Declaration) : Option (SymLinks × Option Nat) :=
  match d.declarators with
  | [] => some (next.write d.others, none)
  | declarators =>
      let (next, list) := initDeclaratorList (next.write d.others) none declarators
      reverseSymlink fuel next list

/-- `function_definition` -/
def functionDefinition (next : SymLinks) (d : Declarator) : SymLinks × Option Nat :=
  let next := next.write d.others
  if (next d.sym).isSome then (Function.update next d.sym none, some d.sym) else (next, some d.sym)

/-- `external_declaration` -/
def externalDeclaration (fuel : Nat) (next : SymLinks) : ExternalDeclaration → Option (SymLinks × Option Nat)
  | .functionDefinition d => some (functionDefinition next d)
  | .declaration d => declaration fuel next d

/-- `while (s->next) s=s->next` -/
def lastLoop : Nat → SymLinks → Nat → Option Nat
  | 0, _, _ => none
  | fuel + 1, next, s =>
      match next s with
      | none => some s
      | some s => lastLoop fuel next s

/-- The action of `declaration_list` and of `translation_unit` on `$1` and `$2`. It reads through
`$1`. -/
def append (fuel : Nat) (next : SymLinks) (list : Option Nat) : Option Nat → Option SymLinks
  | none => some next
  | some second =>
      match list with
      | none => none
      | some s => (lastLoop fuel next s).map fun s => Function.update next s (some second)

section

variable {ι : Type} (yields : Nat → SymLinks → ι → Option (SymLinks × Option Nat)) (fuel : Nat)

/-- The left-recursive rule, behind its first list. -/
def accumulate (next : SymLinks) (list : Option Nat) : List ι → Option (SymLinks × Option Nat)
  | [] => some (next, list)
  | d :: ds =>
      (yields fuel next d).bind fun (next, second) =>
        (append fuel next list second).bind fun next => accumulate next list ds

/-- The whole rule. -/
def listOf (next : SymLinks) (d : ι) (ds : List ι) : Option (SymLinks × Option Nat) :=
  (yields fuel next d).bind fun (next, list) => accumulate yields fuel next list ds

end

/-- `declaration_list` -/
def declarationList := listOf declaration

/-- `translation_unit` -/
def translationUnit := listOf externalDeclaration

/-- The symbols that the loop of `init_localstatic` looks at. -/
def initLocalstatic (next : SymLinks) : Nat → Option Nat → Option (List Nat)
  | 0, _ => none
  | _ + 1, none => some []
  | fuel + 1, some sym => (initLocalstatic next fuel (next sym)).map (sym :: ·)

/-- The symbols that `discard_SYM_chain` discards. `free` is the list of those that are free. -/
def discardSYMChain : Nat → SymLinks → Option Nat → Option Nat → Option (List Nat)
  | 0, _, _, _ => none
  | _ + 1, _, _, none => some []
  | fuel + 1, next, free, some sym =>
      (discardSYMChain fuel (Function.update next sym free) (some sym) (next sym)).map (sym :: ·)

end SymLinks

/-! ## The lists -/

/-- The links of a list. -/
def linksOf : List Nat → SymLinks
  | [] => fun _ => none
  | sym :: l => Function.update (linksOf l) sym l.head?

/-- What is written leaves the links of a list as they are. -/
def Keeps (l : List Nat) (others : List (Nat × Option Nat)) : Prop :=
  ∀ sym ∈ l, (linksOf l).write others sym = linksOf l sym

instance (l : List Nat) (others : List (Nat × Option Nat)) : Decidable (Keeps l others) :=
  inferInstanceAs (Decidable (∀ sym ∈ l, _))

/-- What is written up to the end of an `init_declarator_list`. -/
def declaratorWrites (list : Option Nat) : List Declarator → List (Nat × Option Nat)
  | [] => []
  | d :: ds => d.others ++ (d.sym, list) :: declaratorWrites (some d.sym) ds

namespace Declaration

def syms (d : Declaration) : List Nat := d.declarators.map Declarator.sym

def writes (d : Declaration) : List (Nat × Option Nat) :=
  d.others ++ declaratorWrites none d.declarators

/-- When its declarators have been read, the symbols that were declared before have their links
still, and its own ones those of the `init_declarator_list`. -/
def Undisturbed (before : List Nat) (d : Declaration) : Prop :=
  Keeps before d.writes ∧ ∀ sym ∈ d.syms, (linksOf []).write d.writes sym = linksOf d.syms.reverse sym

instance (before : List Nat) (d : Declaration) : Decidable (d.Undisturbed before) :=
  inferInstanceAs (Decidable (_ ∧ ∀ sym ∈ d.syms, _))

end Declaration

namespace ExternalDeclaration

def syms : ExternalDeclaration → List Nat
  | functionDefinition d => [d.sym]
  | declaration d => d.syms

def Undisturbed (before : List Nat) : ExternalDeclaration → Prop
  | functionDefinition d => Keeps before d.others
  | declaration d => d.Undisturbed before

instance (before : List Nat) : (d : ExternalDeclaration) → Decidable (d.Undisturbed before)
  | functionDefinition d => inferInstanceAs (Decidable (Keeps before d.others))
  | declaration d => inferInstanceAs (Decidable (d.Undisturbed before))

end ExternalDeclaration

section

variable {ι : Type} (syms : ι → List Nat)

/-- The symbols of some declarations, in their order. -/
def collected (ds : List ι) : List Nat := (ds.map syms).flatten

/-- No declaration disturbs the list of the symbols before it. -/
def AllUndisturbed (Undisturbed : List Nat → ι → Prop) : List Nat → List ι → Prop
  | _, [] => True
  | before, d :: ds => Undisturbed before d ∧ AllUndisturbed Undisturbed (before ++ syms d) ds

/-- The first declaration yields symbols, if any does; no symbol is yielded twice; and none that is
in the list is written to. -/
def Collectable (Undisturbed : List Nat → ι → Prop) (d : ι) (ds : List ι) : Prop :=
  (syms d = [] → collected syms ds = []) ∧ (collected syms (d :: ds)).Nodup ∧
    AllUndisturbed syms Undisturbed [] (d :: ds)

/-- The rule returns the concatenation of the lists, behind each declaration, and the next
declaration yields the list of its symbols. -/
def Concatenates (rule : Nat → SymLinks → ι → List ι → Option (SymLinks × Option Nat))
    (yields : Nat → SymLinks → ι → Option (SymLinks × Option Nat)) (fuel : Nat) (next : SymLinks)
    (d : ι) (ds : List ι) : Prop :=
  ∀ n, ∃ next' head, rule fuel next d (ds.take n) = some (next', head) ∧
    Path next' head (collected syms (d :: ds.take n)) none ∧
    ∀ d', ds[n]? = some d' → ∃ next'' second, yields fuel next' d' = some (next'', second) ∧
      Path next'' second (syms d') none

end

/-- The list of a block is what `init_localstatic` and, behind the statements, `discard_SYM_chain`
get. -/
def Passes (fuel : Nat) (next : SymLinks) (d : Declaration) (ds : List Declaration)
    (statements : List (Nat × Option Nat)) (free : Option Nat) : Prop :=
  ∃ next' head, SymLinks.declarationList fuel next d ds = some (next', head) ∧
    next'.initLocalstatic fuel head = some (collected Declaration.syms (d :: ds)) ∧
    SymLinks.discardSYMChain fuel (next'.write statements) free head =
      some (collected Declaration.syms (d :: ds))

namespace SymLinks

variable {next next' : SymLinks} {fuel : Nat} {list : Option Nat} {l : List Nat}

/-! ## Links that are written -/

theorem write_cons (other : Nat × Option Nat) (others : List (Nat × Option Nat)) :
    next.write (other :: others) =
      SymLinks.write (Function.update next other.1 other.2) others := rfl

/-- A link depends on what is written to its symbol. -/
theorem write_congr {others : List (Nat × Option Nat)} {sym : Nat} (same : next sym = next' sym) :
    next.write others sym = next'.write others sym := by
  induction others generalizing next next' with
  | nil => exact same
  | cons other others ih =>
      rw [write_cons, write_cons]
      apply ih
      rw [Function.update_apply, Function.update_apply, same]

theorem write_append (others others' : List (Nat × Option Nat)) :
    next.write (others ++ others') = (next.write others).write others' :=
  List.foldl_append

theorem write_other {others : List (Nat × Option Nat)} {sym : Nat}
    (out : ∀ other ∈ others, other.1 ≠ sym) : next.write others sym = next sym := by
  induction others generalizing next with
  | nil => rfl
  | cons other others ih =>
      rw [write_cons, ih fun o member => out o (List.mem_cons_of_mem other member)]
      exact Function.update_of_ne (out other List.mem_cons_self).symm _ _

/-- Behind a write to the symbol the links from before do not matter. -/
theorem write_written {others : List (Nat × Option Nat)} {sym : Nat}
    (written : ∃ other ∈ others, other.1 = sym) : next.write others sym = next'.write others sym := by
  obtain ⟨other, member, rfl⟩ := written
  obtain ⟨front, back, rfl⟩ := List.append_of_mem member
  rw [write_append, write_append, write_cons, write_cons]
  apply write_congr
  rw [Function.update_self, Function.update_self]

theorem linksOf_path (distinct : l.Nodup) : Path (linksOf l) l.head? l none := by
  induction l with
  | nil => rfl
  | cons sym l ih =>
      obtain ⟨out, distinct⟩ := List.nodup_cons.mp distinct
      exact (ih distinct).push out

/-- The links of a list are determined by it. -/
theorem path_iff (distinct : l.Nodup) :
    Path next list l none ↔ list = l.head? ∧ ∀ sym ∈ l, next sym = linksOf l sym := by
  constructor
  · intro path
    induction l generalizing list with
    | nil => exact ⟨path, fun sym member => absurd member List.not_mem_nil⟩
    | cons sym l ih =>
        obtain ⟨out, distinct⟩ := List.nodup_cons.mp distinct
        obtain ⟨head, links⟩ := ih distinct path.2
        refine ⟨path.1, fun other member => ?_⟩
        rcases List.mem_cons.mp member with rfl | behind
        · rw [linksOf, Function.update_self, head]
        · have away : other ≠ sym := fun same => out (same ▸ behind)
          rw [linksOf, Function.update_of_ne away, links other behind]
  · rintro ⟨rfl, links⟩
    exact (linksOf_path distinct).congr links

/-- A list stays exactly where the writes keep its links. -/
theorem keeps_iff {others : List (Nat × Option Nat)} (path : Path next list l none) :
    Path (next.write others) list l none ↔ Keeps l others := by
  have distinct := path.nodup
  obtain ⟨head, links⟩ := (path_iff distinct).mp path
  rw [path_iff distinct]
  have same : ∀ sym ∈ l, next.write others sym = (linksOf l).write others sym := fun sym member =>
    write_congr (links sym member)
  constructor
  · intro stays sym member
    rw [← same sym member]
    exact stays.2 sym member
  · intro keeps
    refine ⟨head, fun sym member => ?_⟩
    rw [same sym member]
    exact keeps sym member

theorem identifierList_mem {syms : List Nat} {other : Nat × Option Nat}
    (member : other ∈ identifierList list syms) : other.1 ∈ syms := by
  induction syms generalizing list with
  | nil => cases member
  | cons sym syms ih =>
      rcases List.mem_cons.mp member with rfl | behind
      · exact List.mem_cons_self
      · exact List.mem_cons_of_mem sym (ih behind)

/-- An identifier list that begins with a symbol of the list cuts it off there. -/
theorem not_keeps_identifierList {sym sym' : Nat} {syms : List Nat} (member : sym ∈ l)
    (follows : linksOf l sym = some sym') (once : sym ∉ syms) :
    ¬ Keeps l (identifierList none (sym :: syms)) := by
  intro keeps
  have cut : (linksOf l).write (identifierList none (sym :: syms)) sym = none := by
    rw [identifierList, write_cons, write_other, Function.update_self]
    intro other there same
    exact once (same ▸ identifierList_mem there)
  rw [keeps sym member, follows] at cut
  cases cut

/-- `int a; int b; int f(a) int a; { }` takes the `a` of the file for the parameter. -/
example : ¬ Keeps [0, 1] (identifierList none [0]) := by decide

/-! ## Lists that do not end -/

/-- From each of the symbols one comes to another one. -/
def Endless (next : SymLinks) (syms : Set Nat) : Prop :=
  ∀ sym ∈ syms, ∃ sym' ∈ syms, next sym = some sym'

theorem exists_path_or_endless (next : SymLinks) (sym : Nat) :
    (∃ l, Path next (some sym) l none) ∨ ∃ syms, sym ∈ syms ∧ Endless next syms := by
  by_cases ends : ∃ l, Path next (some sym) l none
  · exact .inl ends
  · refine .inr ⟨{sym | ¬ ∃ l, Path next (some sym) l none}, ends, fun other endless => ?_⟩
    cases link : next other with
    | none => exact absurd ⟨[other], rfl, link⟩ endless
    | some sym' =>
        refine ⟨sym', fun ⟨l, path⟩ => endless ⟨other :: l, rfl, ?_⟩, rfl⟩
        rw [link]
        exact path

/-- `reverse_symlink` does not return then. -/
theorem reverseLoop_endless {syms : Set Nat} (endless : Endless next syms) {previous current : Nat}
    (behind : previous ∈ syms) (ahead : current ∈ syms) :
    reverseLoop fuel next previous (some current) = none := by
  induction fuel generalizing next previous current with
  | zero => rfl
  | succ fuel ih =>
      obtain ⟨following, member, link⟩ := endless current ahead
      have turned : Endless (Function.update next current (some previous)) syms := by
        intro sym there
        by_cases same : sym = current
        · rw [same, Function.update_self]
          exact ⟨previous, behind, rfl⟩
        · rw [Function.update_of_ne same]
          exact endless sym there
      rw [reverseLoop, link]
      exact ih turned ahead member

theorem lastLoop_path {s last : Nat} (ran : lastLoop fuel next s = some last) :
    ∃ front, Path next (some s) (front ++ [last]) none := by
  induction fuel generalizing s with
  | zero => cases ran
  | succ fuel ih =>
      rw [lastLoop] at ran
      cases link : next s with
      | none =>
          rw [link] at ran
          obtain rfl := Option.some.inj ran
          exact ⟨[], rfl, link⟩
      | some s' =>
          rw [link] at ran
          obtain ⟨front, path⟩ := ih ran
          refine ⟨s :: front, rfl, ?_⟩
          rw [link]
          exact path

/-! ## Declarations -/

theorem initDeclaratorList_eq (ds : List Declarator) : next.initDeclaratorList list ds =
    (next.write (declaratorWrites list ds), ((ds.map Declarator.sym).reverse.head?).or list) := by
  induction ds generalizing next list with
  | nil => rfl
  | cons d ds ih =>
      have written : next.write (declaratorWrites list (d :: ds)) =
          SymLinks.write (Function.update (next.write d.others) d.sym list)
            (declaratorWrites (some d.sym) ds) := write_append _ _
      rw [initDeclaratorList, ih, written]
      cases last : (ds.map Declarator.sym).reverse.head? <;> simp [List.head?_append, last]

/-- The links of a declaration's own symbols are written by it. -/
theorem declaratorWrites_syms {ds : List Declarator} {sym : Nat}
    (member : sym ∈ ds.map Declarator.sym) : ∃ other ∈ declaratorWrites list ds, other.1 = sym := by
  induction ds generalizing list with
  | nil => cases member
  | cons d ds ih =>
      rcases List.mem_cons.mp member with rfl | behind
      · exact ⟨(d.sym, list), by simp [declaratorWrites], rfl⟩
      · have later : ∃ other ∈ declaratorWrites (some d.sym) ds, other.1 = sym := ih behind
        obtain ⟨other, there, same⟩ := later
        exact ⟨other, by simp [declaratorWrites, there], same⟩

/-- `front` is what has been reversed, without the symbol that was first. -/
theorem reverseLoop_spec {previous sym : Nat} {current : Option Nat} {front rest : List Nat}
    (back : Path next (some previous) front (some sym)) (ahead : Path next current rest none)
    (distinct : (rest ++ front).Nodup) : ∃ next' last,
      (∀ fuel, rest.length < fuel → reverseLoop fuel next previous current = some (next', last)) ∧
      (∀ fuel r, reverseLoop fuel next previous current = some r → r = (next', last)) ∧
      Path next' (some last) (rest.reverse ++ front) (some sym) ∧ ∀ r ∉ rest, next' r = next r := by
  induction rest generalizing next previous current front with
  | nil =>
      have done : current = none := ahead
      rw [done]
      refine ⟨next, previous, fun fuel enough => ?_, fun fuel r ran => ?_, back, fun _ _ => rfl⟩
      · obtain ⟨fuel, rfl⟩ := Nat.exists_eq_add_of_lt enough
        rfl
      · cases fuel with
        | zero => cases ran
        | succ fuel => exact (Option.some.inj ran).symm
  | cons c rest ih =>
      obtain ⟨rfl, behind⟩ := ahead
      obtain ⟨outRest, distinctRest⟩ := List.nodup_cons.mp distinct
      have outFront : c ∉ front := fun member => outRest (List.mem_append_right rest member)
      have later : c ∉ rest := fun member => outRest (List.mem_append_left front member)
      obtain ⟨next', last, runs, only, path, others⟩ := ih (back.push outFront) (behind.write later)
        (List.nodup_middle.mpr distinct)
      refine ⟨next', last, fun fuel enough => ?_, fun fuel r ran => ?_, ?_, fun r out => ?_⟩
      · cases fuel with
        | zero => cases enough
        | succ fuel => exact runs fuel (Nat.lt_of_succ_lt_succ enough)
      · cases fuel with
        | zero => cases ran
        | succ fuel => exact only fuel r ran
      · rw [List.reverse_cons, List.append_assoc]
        exact path
      · rw [others r fun member => out (List.mem_cons_of_mem c member)]
        exact Function.update_of_ne (List.ne_of_not_mem_cons out) _ _

theorem reverseSymlink_spec (path : Path next list l none) (filled : l ≠ []) : ∃ next' head,
    (∀ fuel, l.length ≤ fuel → reverseSymlink fuel next list = some (next', head)) ∧
    (∀ fuel r, reverseSymlink fuel next list = some r → r = (next', head)) ∧
    Path next' head l.reverse none ∧ ∀ r ∉ l, next' r = next r := by
  have distinct := path.nodup
  cases l with
  | nil => exact absurd rfl filled
  | cons sym rest =>
      obtain ⟨rfl, ahead⟩ := path
      obtain ⟨out, distinctRest⟩ := List.nodup_cons.mp distinct
      have start : Path next (some sym) [] (some sym) := rfl
      obtain ⟨next', last, runs, only, back, others⟩ := reverseLoop_spec start ahead
        (by rw [List.append_nil]; exact distinctRest)
      rw [List.append_nil] at back
      have whole : Path next' (some last) (rest.reverse ++ [sym]) (next' sym) :=
        Path.append_iff.mpr ⟨some sym, back, rfl, rfl⟩
      refine ⟨Function.update next' sym none, some last, fun fuel enough => ?_, fun fuel r ran => ?_,
        ?_, fun r other => ?_⟩
      · rw [reverseSymlink, runs fuel enough, Option.map_some]
      · obtain ⟨reached, looped, rfl⟩ := Option.map_eq_some_iff.mp ran
        rw [only fuel reached looped]
      · rw [List.reverse_cons]
        exact whole.redirect fun member => out (List.mem_reverse.mp member)
      · rw [Function.update_of_ne (List.ne_of_not_mem_cons other)]
        exact others r fun member => other (List.mem_cons_of_mem sym member)

/-- `reverse_symlink` returns from lists only. -/
theorem reverseSymlink_path {sym : Nat} {r : SymLinks × Option Nat}
    (ran : reverseSymlink fuel next (some sym) = some r) : ∃ l, Path next (some sym) l none := by
  apply (exists_path_or_endless next sym).resolve_right
  rintro ⟨syms, member, endless⟩
  obtain ⟨current, ahead, link⟩ := endless sym member
  rw [reverseSymlink, link, reverseLoop_endless endless member ahead] at ran
  cases ran

section

variable {before : List Nat} {d : Declaration} (path : Path next list before none)
  (distinct : (before ++ d.syms).Nodup)

include distinct

/-- Before `ParseDeclList` the declarators are linked, the last one first, where nothing else has
disturbed it. -/
theorem own_iff : Path (next.write d.writes) d.syms.reverse.head? d.syms.reverse none ↔
    ∀ sym ∈ d.syms, (linksOf []).write d.writes sym = linksOf d.syms.reverse sym := by
  have distinctSyms := (List.nodup_append.mp distinct).2.1
  have same : ∀ sym ∈ d.syms, next.write d.writes sym = (linksOf []).write d.writes sym := by
    intro sym member
    obtain ⟨other, there, same⟩ := declaratorWrites_syms member
    exact write_written ⟨other, List.mem_append_right _ there, same⟩
  rw [path_iff (List.nodup_reverse.mpr distinctSyms)]
  constructor
  · rintro ⟨-, links⟩ sym member
    rw [← same sym member]
    exact links sym (List.mem_reverse.mpr member)
  · intro links
    refine ⟨rfl, fun sym member => ?_⟩
    have there := List.mem_reverse.mp member
    rw [same sym there]
    exact links sym there

omit distinct in
theorem declaration_nil (none' : d.declarators = []) :
    declaration fuel next d = some (next.write d.writes, none) ∧ d.syms = [] := by
  have writes : d.writes = d.others := by
    rw [Declaration.writes, none', declaratorWrites, List.append_nil]
  unfold declaration
  rw [none', writes, Declaration.syms, none']
  exact ⟨rfl, rfl⟩

omit distinct in
theorem declaration_cons (some' : d.declarators ≠ []) : d.syms ≠ [] ∧
    declaration fuel next d = reverseSymlink fuel (next.write d.writes) d.syms.reverse.head? := by
  refine ⟨fun none' => some' (List.map_eq_nil_iff.mp none'), ?_⟩
  obtain ⟨first, rest, made⟩ := List.exists_cons_of_ne_nil some'
  have last : d.syms.reverse.head?.or none = d.syms.reverse.head? := Option.or_none
  rw [Declaration.writes, write_append, ← last]
  unfold declaration
  rw [Declaration.syms, made]
  simp only [initDeclaratorList_eq]

include path

/-- What a declaration does that is not disturbed. -/
theorem declaration_spec (enough : d.syms.length ≤ fuel) (undisturbed : d.Undisturbed before) :
    ∃ next' head, declaration fuel next d = some (next', head) ∧ Path next' head d.syms none ∧
      Path next' list before none := by
  obtain ⟨keeps, own⟩ := undisturbed
  have kept := (keeps_iff path).mpr keeps
  by_cases none' : d.declarators = []
  · obtain ⟨ran, empty⟩ := declaration_nil none'
    exact ⟨_, _, ran, by rw [empty]; rfl, kept⟩
  · obtain ⟨filled, ran⟩ := declaration_cons none'
    have linked : Path (next.write d.writes) d.syms.reverse.head? d.syms.reverse none :=
      (own_iff distinct).mpr own
    obtain ⟨next', head, runs, -, whole, others⟩ := reverseSymlink_spec linked
      fun empty => filled (List.reverse_eq_nil_iff.mp empty)
    rw [List.reverse_reverse] at whole
    refine ⟨next', head, ?_, whole, kept.congr fun sym member => ?_⟩
    · rw [ran]
      apply runs
      rw [List.length_reverse]
      exact enough
    · apply others
      intro there
      exact (List.nodup_append.mp distinct).2.2 sym member sym (List.mem_reverse.mp there) rfl

/-- A declaration that yields its symbols, and leaves the list, is not disturbed. -/
theorem declaration_exact {next' : SymLinks} {head : Option Nat}
    (ran : declaration fuel next d = some (next', head)) (yielded : Path next' head d.syms none)
    (kept : Path next' list before none) : d.Undisturbed before := by
  by_cases none' : d.declarators = []
  · obtain ⟨ran', empty⟩ := declaration_nil none'
    rw [ran'] at ran
    obtain ⟨rfl, -⟩ := Prod.mk.inj (Option.some.inj ran)
    refine ⟨(keeps_iff path).mp kept, fun sym member => ?_⟩
    rw [empty] at member
    cases member
  · obtain ⟨filled, ran'⟩ := declaration_cons none'
    rw [ran'] at ran
    obtain ⟨last, head'⟩ : ∃ last, d.syms.reverse.head? = some last := by
      cases made : d.syms.reverse with
      | nil => exact absurd (List.reverse_eq_nil_iff.mp made) filled
      | cons last rest => exact ⟨last, rfl⟩
    rw [head'] at ran
    obtain ⟨l, linked⟩ := reverseSymlink_path ran
    have some' : l ≠ [] := by
      rintro rfl
      cases linked
    obtain ⟨next₁, first, -, only, whole, others⟩ := reverseSymlink_spec linked some'
    obtain ⟨rfl, rfl⟩ := Prod.mk.inj (only fuel _ ran)
    have same : l = d.syms.reverse := by rw [← whole.unique yielded, List.reverse_reverse]
    rw [same, ← head'] at linked
    refine ⟨(keeps_iff path).mp (kept.congr fun sym member => ?_), (own_iff distinct).mp linked⟩
    symm
    apply others
    intro there
    rw [same] at there
    exact (List.nodup_append.mp distinct).2.2 sym member sym (List.mem_reverse.mp there) rfl

end

section

variable {before : List Nat} {d : ExternalDeclaration} (path : Path next list before none)
  (distinct : (before ++ d.syms).Nodup)

theorem functionDefinition_last (d : Declarator) : (functionDefinition next d).1 d.sym = none := by
  unfold functionDefinition
  dsimp only
  split_ifs with linked
  · exact Function.update_self _ _ _
  · exact Option.not_isSome_iff_eq_none.mp linked

theorem functionDefinition_other (d : Declarator) {sym : Nat} (other : sym ≠ d.sym) :
    (functionDefinition next d).1 sym = next.write d.others sym := by
  unfold functionDefinition
  dsimp only
  split_ifs
  · exact Function.update_of_ne other _ _
  · rfl

theorem functionDefinition_eq (d : Declarator) :
    functionDefinition next d = ((functionDefinition next d).1, some d.sym) := by
  unfold functionDefinition
  dsimp only
  split_ifs <;> rfl

include path distinct

theorem externalDeclaration_spec (enough : d.syms.length ≤ fuel) (undisturbed : d.Undisturbed before) :
    ∃ next' head, externalDeclaration fuel next d = some (next', head) ∧
      Path next' head d.syms none ∧ Path next' list before none := by
  cases d with
  | declaration d => exact declaration_spec path distinct enough undisturbed
  | functionDefinition d =>
      have kept := (keeps_iff path).mpr undisturbed
      refine ⟨(functionDefinition next d).1, some d.sym, congrArg some (functionDefinition_eq d),
        ⟨rfl, functionDefinition_last d⟩, kept.congr fun sym member => ?_⟩
      apply functionDefinition_other
      intro same
      exact (List.nodup_append.mp distinct).2.2 sym member d.sym List.mem_cons_self same

theorem externalDeclaration_exact {next' : SymLinks} {head : Option Nat}
    (ran : externalDeclaration fuel next d = some (next', head)) (yielded : Path next' head d.syms none)
    (kept : Path next' list before none) : d.Undisturbed before := by
  cases d with
  | declaration d => exact declaration_exact path distinct ran yielded kept
  | functionDefinition d =>
      have made : functionDefinition next d = (next', head) := Option.some.inj ran
      have links : (functionDefinition next d).1 = next' := congrArg Prod.fst made
      apply (keeps_iff path).mp
      apply kept.congr
      intro sym member
      rw [← links]
      symm
      apply functionDefinition_other
      intro same
      exact (List.nodup_append.mp distinct).2.2 sym member d.sym List.mem_cons_self same

end

/-! ## Lists of declarations -/

theorem lastLoop_spec {s x : Nat} {front : List Nat} (enough : front.length < fuel)
    (path : Path next (some s) (front ++ [x]) none) : lastLoop fuel next s = some x := by
  induction front generalizing fuel s with
  | nil =>
      obtain ⟨fuel, rfl⟩ : ∃ n, fuel = n + 1 := ⟨fuel - 1, by omega⟩
      obtain ⟨here, last⟩ := path
      obtain rfl := Option.some.inj here
      have last : next s = none := last
      rw [lastLoop, last]
  | cons y front ih =>
      obtain ⟨fuel, rfl⟩ : ∃ n, fuel = n + 1 := ⟨fuel - 1, by omega⟩
      obtain ⟨here, behind⟩ := path
      obtain rfl := Option.some.inj here
      obtain ⟨s', link⟩ : ∃ s', next s = some s' := by
        cases front with
        | nil => exact ⟨x, behind.1⟩
        | cons z front => exact ⟨z, behind.1⟩
      rw [lastLoop, link]
      exact ih (Nat.lt_of_succ_lt_succ enough) (link ▸ behind)

theorem path_none {b : Option Nat} (path : Path next none l b) : l = [] := by
  cases l with
  | nil => rfl
  | cons sym l => cases path.1

section

variable {second : Option Nat} {l' : List Nat} (yielded : Path next second l' none)

include yielded

theorem append_spec (enough : l.length ≤ fuel) (path : Path next list l none)
    (distinct : (l ++ l').Nodup) (first : l = [] → l' = []) :
    ∃ next', append fuel next list second = some next' ∧ Path next' list (l ++ l') none := by
  cases second with
  | none =>
      rw [path_none yielded, List.append_nil]
      exact ⟨next, rfl, path⟩
  | some s' =>
      have filled : l' ≠ [] := by
        rintro rfl
        cases yielded
      obtain ⟨front, x, rfl⟩ := (List.eq_nil_or_concat l).resolve_left fun empty => filled (first empty)
      rw [List.concat_eq_append] at *
      obtain ⟨outFront, out⟩ : x ∉ front ∧ x ∉ l' := by
        have disjoint := List.nodup_append.mp distinct
        refine ⟨fun member => ?_, fun member => disjoint.2.2 x (by simp) x member rfl⟩
        exact (List.nodup_append.mp disjoint.1).2.2 x member x List.mem_cons_self rfl
      obtain ⟨s, rfl⟩ : ∃ s, list = some s := by
        cases list with
        | none => exact absurd (path_none path) (by simp)
        | some s => exact ⟨s, rfl⟩
      refine ⟨Function.update next x (some s'), ?_, ?_⟩
      · rw [append, lastLoop_spec (by simpa using enough) path, Option.map_some]
      · exact Path.append_iff.mpr ⟨some s', path.redirect outFront, yielded.write out⟩

/-- What makes the lists one has found the first list as it was. -/
theorem append_exact {next' : SymLinks} (ran : append fuel next list second = some next')
    (whole : Path next' list (l ++ l') none) : Path next list l none := by
  cases second with
  | none =>
      obtain rfl := Option.some.inj ran
      rw [path_none yielded, List.append_nil] at whole
      exact whole
  | some s' =>
      cases list with
      | none => cases ran
      | some s =>
          obtain ⟨x, found, rfl⟩ := Option.map_eq_some_iff.mp ran
          obtain ⟨front, path⟩ := lastLoop_path found
          have out : x ∉ front := by
            intro member
            exact (List.nodup_append.mp path.nodup).2.2 x member x List.mem_cons_self rfl
          -- behind `x` the second list follows, so the first one ends with it
          obtain ⟨rest, same, behind⟩ := whole.split (path.redirect out)
          obtain ⟨middle, -, back⟩ := Path.append_iff.mp whole
          obtain ⟨x', rest', rfl⟩ : ∃ x' rest', l' = x' :: rest' := by
            cases l' with
            | nil => cases yielded
            | cons x' rest' => exact ⟨x', rest', rfl⟩
          rw [back.1, ← yielded.1] at back
          have tail := behind.unique back
          rw [tail] at same
          rw [List.append_cancel_right same]
          exact path

end

/-- What is known of `declaration` and of `external_declaration`. -/
structure Yields {ι : Type} (syms : ι → List Nat) (Undisturbed : List Nat → ι → Prop)
    (yields : Nat → SymLinks → ι → Option (SymLinks × Option Nat)) : Prop where
  spec : ∀ {fuel next list before d}, Path next list before none → (before ++ syms d).Nodup →
    (syms d).length ≤ fuel → Undisturbed before d →
      ∃ next' head, yields fuel next d = some (next', head) ∧ Path next' head (syms d) none ∧
        Path next' list before none
  undisturbed : ∀ {fuel next list before d next' head}, Path next list before none →
    (before ++ syms d).Nodup → yields fuel next d = some (next', head) →
      Path next' head (syms d) none → Path next' list before none → Undisturbed before d

theorem yields_declaration : Yields Declaration.syms Declaration.Undisturbed declaration where
  spec path distinct := declaration_spec path distinct
  undisturbed path distinct := declaration_exact path distinct

theorem yields_externalDeclaration :
    Yields ExternalDeclaration.syms ExternalDeclaration.Undisturbed externalDeclaration where
  spec path distinct := externalDeclaration_spec path distinct
  undisturbed path distinct := externalDeclaration_exact path distinct

section

variable {ι : Type} {syms : ι → List Nat} {Undisturbed : List Nat → ι → Prop}
  {yields : Nat → SymLinks → ι → Option (SymLinks × Option Nat)}

theorem collected_cons (d : ι) (ds : List ι) :
    collected syms (d :: ds) = syms d ++ collected syms ds := by
  rw [collected, List.map_cons, List.flatten_cons]
  rfl

/-- As `Concatenates`, behind the list of the first declarations. -/
def Accumulates (syms : ι → List Nat) (yields : Nat → SymLinks → ι → Option (SymLinks × Option Nat))
    (fuel : Nat) (next : SymLinks) (list : Option Nat) (l : List Nat) (ds : List ι) : Prop :=
  ∀ n, ∃ next' head, accumulate yields fuel next list (ds.take n) = some (next', head) ∧
    Path next' head (l ++ collected syms (ds.take n)) none ∧
    ∀ d', ds[n]? = some d' → ∃ next'' second, yields fuel next' d' = some (next'', second) ∧
      Path next'' second (syms d') none

theorem accumulates_nil : Accumulates syms yields fuel next list l [] ↔ Path next list l none := by
  constructor
  · intro all
    obtain ⟨next', head, ran, path, -⟩ := all 0
    obtain ⟨rfl, rfl⟩ := Prod.mk.inj (Option.some.inj ran)
    rw [List.take_nil, collected, List.map_nil, List.flatten_nil, List.append_nil] at path
    exact path
  · intro path n
    refine ⟨next, list, ?_, ?_, fun d' there => ?_⟩
    · rw [List.take_nil]
      rfl
    · rw [List.take_nil, collected, List.map_nil, List.flatten_nil, List.append_nil]
      exact path
    · cases there

/-- One declaration and one action. -/
theorem accumulates_cons {d : ι} {ds : List ι} : Accumulates syms yields fuel next list l (d :: ds) ↔
    Path next list l none ∧ ∃ next₁ second, yields fuel next d = some (next₁, second) ∧
      Path next₁ second (syms d) none ∧ ∃ next₂, append fuel next₁ list second = some next₂ ∧
        Accumulates syms yields fuel next₂ list (l ++ syms d) ds := by
  constructor
  · intro all
    obtain ⟨start, head, ran, path, yielded⟩ := all 0
    obtain ⟨rfl, rfl⟩ := Prod.mk.inj (Option.some.inj ran)
    rw [List.take_zero, collected, List.map_nil, List.flatten_nil, List.append_nil] at path
    obtain ⟨next₁, second, here, list'⟩ := yielded d rfl
    have later : ∀ n, ∃ next₂, append fuel next₁ list second = some next₂ ∧
        ∃ next' head, accumulate yields fuel next₂ list (ds.take n) = some (next', head) ∧
          Path next' head (l ++ syms d ++ collected syms (ds.take n)) none ∧
          ∀ d', ds[n]? = some d' → ∃ next'' second, yields fuel next' d' = some (next'', second) ∧
            Path next'' second (syms d') none := by
      intro n
      obtain ⟨next', head, ran, path, yielded⟩ := all (n + 1)
      rw [List.take_succ_cons, accumulate, here, Option.bind_some] at ran
      obtain ⟨next₂, appended, ran⟩ := Option.bind_eq_some_iff.mp ran
      rw [List.take_succ_cons, collected_cons, ← List.append_assoc] at path
      exact ⟨next₂, appended, next', head, ran, path, yielded⟩
    obtain ⟨next₂, appended, -⟩ := later 0
    refine ⟨path, next₁, second, here, list', next₂, appended, fun n => ?_⟩
    obtain ⟨next₂', appended', rest⟩ := later n
    obtain rfl := Option.some.inj (appended.symm.trans appended')
    exact rest
  · rintro ⟨path, next₁, second, here, list', next₂, appended, rest⟩ n
    cases n with
    | zero =>
        refine ⟨next, list, rfl, ?_, fun d' there => ?_⟩
        · rw [List.take_zero, collected, List.map_nil, List.flatten_nil, List.append_nil]
          exact path
        · obtain rfl := Option.some.inj there
          exact ⟨next₁, second, here, list'⟩
    | succ n =>
        obtain ⟨next', head, ran, whole, yielded⟩ := rest n
        refine ⟨next', head, ?_, ?_, yielded⟩
        · rw [List.take_succ_cons, accumulate, here, Option.bind_some]
          simp only [appended, Option.bind_some]
          exact ran
        · rw [List.take_succ_cons, collected_cons, ← List.append_assoc]
          exact whole

theorem Accumulates.path {ds : List ι} (all : Accumulates syms yields fuel next list l ds) :
    Path next list l none := by
  cases ds with
  | nil => exact accumulates_nil.mp all
  | cons d ds => exact (accumulates_cons.mp all).1

theorem accumulates_of (rule : Yields syms Undisturbed yields) {ds : List ι}
    (path : Path next list l none) (first : l = [] → collected syms ds = [])
    (distinct : (l ++ collected syms ds).Nodup)
    (undisturbed : AllUndisturbed syms Undisturbed l ds)
    (enough : (l ++ collected syms ds).length ≤ fuel) :
    Accumulates syms yields fuel next list l ds := by
  induction ds generalizing next l with
  | nil => exact accumulates_nil.mpr path
  | cons d ds ih =>
      obtain ⟨here, rest⟩ := undisturbed
      rw [collected_cons] at first distinct enough
      rw [← List.append_assoc] at distinct enough
      have distinctHere := (List.nodup_append.mp distinct).1
      have short : (l ++ syms d).length ≤ fuel := by
        rw [List.length_append] at enough
        omega
      have short' : l.length ≤ fuel ∧ (syms d).length ≤ fuel := by
        rw [List.length_append] at short
        omega
      obtain ⟨next₁, second, ran, yielded, kept⟩ := rule.spec path distinctHere short'.2 here
      obtain ⟨next₂, appended, whole⟩ := append_spec yielded short'.1 kept distinctHere fun empty =>
        (List.append_eq_nil_iff.mp (first empty)).1
      refine accumulates_cons.mpr ⟨path, next₁, second, ran, yielded, next₂, appended, ?_⟩
      apply ih whole ?_ distinct rest enough
      intro empty
      exact (List.append_eq_nil_iff.mp (first (List.append_eq_nil_iff.mp empty).1)).2

/-- Behind an empty list there may only be empty ones. -/
theorem Accumulates.empty {ds : List ι} (all : Accumulates syms yields fuel next list l ds)
    (none' : list = none) : collected syms ds = [] := by
  induction ds generalizing next l with
  | nil => rfl
  | cons d ds ih =>
      obtain ⟨-, next₁, second, -, yielded, next₂, appended, rest⟩ := accumulates_cons.mp all
      have nothing : second = none := by
        cases second with
        | none => rfl
        | some s =>
            rw [none'] at appended
            cases appended
      rw [nothing] at yielded
      rw [collected_cons, path_none yielded, ih rest, List.nil_append]

theorem Accumulates.undisturbed (rule : Yields syms Undisturbed yields) {ds : List ι}
    (all : Accumulates syms yields fuel next list l ds) :
    (l ++ collected syms ds).Nodup ∧ AllUndisturbed syms Undisturbed l ds := by
  induction ds generalizing next l with
  | nil =>
      rw [collected, List.map_nil, List.flatten_nil, List.append_nil]
      exact ⟨all.path.nodup, trivial⟩
  | cons d ds ih =>
      obtain ⟨path, next₁, second, ran, yielded, next₂, appended, rest⟩ := accumulates_cons.mp all
      have kept := append_exact yielded appended rest.path
      obtain ⟨distinct, later⟩ := ih rest
      rw [collected_cons, ← List.append_assoc]
      exact ⟨distinct, rule.undisturbed path rest.path.nodup ran yielded kept, later⟩

theorem concatenates_iff {d : ι} {ds : List ι} :
    Concatenates syms (listOf yields) yields fuel next d ds ↔
    ∃ next₁ list, yields fuel next d = some (next₁, list) ∧
      Accumulates syms yields fuel next₁ list (syms d) ds := by
  constructor
  · intro all
    obtain ⟨_, _, ran, -⟩ := all 0
    obtain ⟨⟨next₁, list⟩, here, -⟩ := Option.bind_eq_some_iff.mp ran
    refine ⟨next₁, list, here, fun n => ?_⟩
    obtain ⟨next', head, ran, whole, yielded⟩ := all n
    rw [listOf, here, Option.bind_some] at ran
    rw [collected_cons] at whole
    exact ⟨next', head, ran, whole, yielded⟩
  · rintro ⟨next₁, list, here, all⟩ n
    obtain ⟨next', head, ran, whole, yielded⟩ := all n
    refine ⟨next', head, ?_, ?_, yielded⟩
    · rw [listOf, here, Option.bind_some]
      exact ran
    · rw [collected_cons]
      exact whole

theorem concatenates_of (rule : Yields syms Undisturbed yields) {d : ι} {ds : List ι}
    (collectable : Collectable syms Undisturbed d ds)
    (enough : (collected syms (d :: ds)).length ≤ fuel) :
    Concatenates syms (listOf yields) yields fuel next d ds := by
  obtain ⟨first, distinct, here, rest⟩ := collectable
  rw [collected_cons] at distinct enough
  have nothing : Path next none [] none := rfl
  have short : (syms d).length ≤ fuel := by
    rw [List.length_append] at enough
    omega
  obtain ⟨next₁, list, ran, yielded, -⟩ := rule.spec nothing (List.nodup_append.mp distinct).1 short here
  exact concatenates_iff.mpr ⟨next₁, list, ran,
    accumulates_of rule yielded first distinct rest enough⟩

theorem collectable_of_concatenates (rule : Yields syms Undisturbed yields) {d : ι} {ds : List ι}
    (all : Concatenates syms (listOf yields) yields fuel next d ds) :
    Collectable syms Undisturbed d ds := by
  obtain ⟨next₁, list, ran, accumulates⟩ := concatenates_iff.mp all
  obtain ⟨distinct, rest⟩ := accumulates.undisturbed rule
  have nothing : Path next none [] none := rfl
  have kept : Path next₁ none [] none := rfl
  refine ⟨fun empty => accumulates.empty ?_, ?_, ?_, rest⟩
  · have path := accumulates.path
    rw [empty] at path
    exact path
  · rw [collected_cons]
    exact distinct
  · exact rule.undisturbed nothing (List.nodup_append.mp distinct).1 ran accumulates.path kept

end

/-! ## What is done with the symbols of a block -/

theorem initLocalstatic_spec (enough : l.length < fuel) (path : Path next list l none) :
    next.initLocalstatic fuel list = some l := by
  induction l generalizing fuel list with
  | nil =>
      obtain ⟨fuel, rfl⟩ : ∃ n, fuel = n + 1 := ⟨fuel - 1, by omega⟩
      have done : list = none := path
      rw [done, initLocalstatic]
  | cons sym l ih =>
      obtain ⟨fuel, rfl⟩ : ∃ n, fuel = n + 1 := ⟨fuel - 1, by omega⟩
      obtain ⟨rfl, behind⟩ := path
      rw [initLocalstatic, ih (Nat.lt_of_succ_lt_succ enough) behind, Option.map_some]

theorem discardSYMChain_spec {free : Option Nat} (enough : l.length < fuel)
    (path : Path next list l none) : discardSYMChain fuel next free list = some l := by
  have distinct := path.nodup
  induction l generalizing fuel next free list with
  | nil =>
      obtain ⟨fuel, rfl⟩ : ∃ n, fuel = n + 1 := ⟨fuel - 1, by omega⟩
      have done : list = none := path
      rw [done, discardSYMChain]
  | cons sym l ih =>
      obtain ⟨fuel, rfl⟩ : ∃ n, fuel = n + 1 := ⟨fuel - 1, by omega⟩
      obtain ⟨rfl, behind⟩ := path
      obtain ⟨out, distinct⟩ := List.nodup_cons.mp distinct
      rw [discardSYMChain, ih (Nat.lt_of_succ_lt_succ enough) (behind.write out) distinct, Option.map_some]

/-- What is discarded once each has been a list. -/
theorem discardSYMChain_exact {free : Option Nat} (distinct : l.Nodup)
    (ran : discardSYMChain fuel next free list = some l) : Path next list l none := by
  induction l generalizing fuel next free list with
  | nil =>
      cases fuel with
      | zero => cases ran
      | succ fuel =>
          cases list with
          | none => rfl
          | some sym =>
              obtain ⟨_, -, same⟩ := Option.map_eq_some_iff.mp ran
              cases same
  | cons sym l ih =>
      obtain ⟨out, distinctRest⟩ := List.nodup_cons.mp distinct
      cases fuel with
      | zero => cases ran
      | succ fuel =>
          cases list with
          | none => cases ran
          | some sym' =>
              obtain ⟨rest, discarded, same⟩ := Option.map_eq_some_iff.mp ran
              obtain ⟨rfl, rfl⟩ := List.cons.inj same
              have behind := ih distinctRest discarded
              refine ⟨rfl, behind.congr fun other member => ?_⟩
              rw [Function.update_of_ne]
              rintro rfl
              exact out member

end SymLinks

/-- The lists of a block are concatenated and passed on, and those of a file are concatenated,
exactly where none is in front of the first symbol, no symbol is in two places, and none of them is
written to by the rest of the parser. -/
theorem symbols_collected_iff (next : SymLinks) (free : Option Nat) :
    (∀ (d : Declaration) (ds : List Declaration) (statements : List (Nat × Option Nat)),
        (∃ fuel, Concatenates Declaration.syms SymLinks.declarationList SymLinks.declaration fuel next
            d ds ∧ Passes fuel next d ds statements free) ↔
          Collectable Declaration.syms Declaration.Undisturbed d ds ∧
            Keeps (collected Declaration.syms (d :: ds)) statements) ∧
      ∀ (d : ExternalDeclaration) (ds : List ExternalDeclaration),
        (∃ fuel, Concatenates ExternalDeclaration.syms SymLinks.translationUnit
            SymLinks.externalDeclaration fuel next d ds) ↔
          Collectable ExternalDeclaration.syms ExternalDeclaration.Undisturbed d ds := by
  refine ⟨fun d ds statements => ⟨?_, ?_⟩, fun d ds => ⟨?_, fun collectable => ?_⟩⟩
  · rintro ⟨fuel, all, next', head, ran, -, discarded⟩
    obtain ⟨next'', head', ran', whole, -⟩ := all ds.length
    rw [List.take_length] at ran' whole
    obtain ⟨rfl, rfl⟩ := Prod.mk.inj (Option.some.inj (ran'.symm.trans ran))
    have stays := SymLinks.discardSYMChain_exact whole.nodup discarded
    exact ⟨SymLinks.collectable_of_concatenates SymLinks.yields_declaration all,
      (SymLinks.keeps_iff whole).mp stays⟩
  · rintro ⟨collectable, keeps⟩
    let fuel := (collected Declaration.syms (d :: ds)).length + 1
    have all : Concatenates Declaration.syms SymLinks.declarationList SymLinks.declaration fuel next d
        ds :=
      SymLinks.concatenates_of SymLinks.yields_declaration collectable (Nat.le_succ _)
    obtain ⟨next', head, ran, whole, -⟩ := all ds.length
    rw [List.take_length] at ran whole
    refine ⟨fuel, all, next', head, ran, ?_, ?_⟩
    · exact SymLinks.initLocalstatic_spec (Nat.lt_succ_self _) whole
    · apply SymLinks.discardSYMChain_spec (Nat.lt_succ_self _)
      exact (SymLinks.keeps_iff whole).mpr keeps
  · rintro ⟨fuel, all⟩
    exact SymLinks.collectable_of_concatenates SymLinks.yields_externalDeclaration all
  · exact ⟨_, SymLinks.concatenates_of SymLinks.yields_externalDeclaration collectable (le_refl _)⟩

/-- `int x; struct s; int y, z;`, with statements that take a symbol and give it back. -/
theorem symbols_collected_block : ∃ fuel,
    Concatenates Declaration.syms SymLinks.declarationList SymLinks.declaration fuel (fun _ => none)
      ⟨[], [⟨0, []⟩]⟩ [⟨[(3, none), (3, some 4)], []⟩, ⟨[], [⟨1, []⟩, ⟨2, []⟩]⟩] ∧
    Passes fuel (fun _ => none) ⟨[], [⟨0, []⟩]⟩
      [⟨[(3, none), (3, some 4)], []⟩, ⟨[], [⟨1, []⟩, ⟨2, []⟩]⟩] [(3, none), (3, some 4)] (some 3) :=
  ((symbols_collected_iff (fun _ => none) (some 3)).1 ⟨[], [⟨0, []⟩]⟩
    [⟨[(3, none), (3, some 4)], []⟩, ⟨[], [⟨1, []⟩, ⟨2, []⟩]⟩] [(3, none), (3, some 4)]).mpr (by
      refine ⟨⟨fun empty => ?_, by decide, ?_⟩, by decide⟩
      · cases empty
      · exact ⟨by decide, by decide, by decide, trivial⟩)

/-- `struct s; int x;` -/
theorem symbols_behind_null : ¬ ∃ fuel, Concatenates Declaration.syms SymLinks.declarationList
    SymLinks.declaration fuel (fun _ => none) ⟨[], []⟩ [⟨[], [⟨0, []⟩]⟩] := by
  rintro ⟨fuel, all⟩
  have collectable := SymLinks.collectable_of_concatenates SymLinks.yields_declaration all
  exact absurd (collectable.1 rfl) (by decide)

end Tmpi.Mpitrans
