import Tmpi.Lib.Backlink
import Tmpi.Lib.Path
import Mathlib.Data.List.Perm.Basic

/-! `symbol.c`, `hash.c` and the string buffer of `misc.c`: the symbol table of the translator.

A symbol is its address. The parser holds the symbols of the open scopes, in lists that it links
through `next`. -/

namespace Tmpi.Mpitrans

/-- The bytes of a string before the one that ends it. -/
structure CString where
  bytes : List UInt8
  noNul : ∀ b ∈ bytes, b ≠ 0
  deriving DecidableEq

/-- An `int` stored in a `short`. -/
def toShort (n : Int) : Int := n.bmod 65536

/-- `STRBUF_SIZE` -/
def strbufSize : Nat := 65000

/-- `STACK_SIZE` -/
def stackSize : Nat := 126

/-- What is written by `yyerror`. -/
inductive Message where
  /-- "Stack underflow!" -/
  | stackUnderflow
  /-- "Stack overflow!\n" -/
  | stackOverflow
  /-- "StrBuf overflow!" -/
  | strBufOverflow
  /-- "Warning: duplicate declarations of %s." -/
  | duplicate (name : List UInt8)

/-- The top of the stack is first. -/
structure StrBuf where
  stk : List Nat
  buf : Nat → UInt8
  current : Nat

namespace StrBuf

variable (sb : StrBuf)

/-- `sb_newframe` -/
def newframe : StrBuf × List Message :=
  if stackSize ≤ sb.stk.length then (sb, [.stackOverflow])
  else ({ sb with stk := sb.current :: sb.stk }, [])

/-- `sb_restore` -/
def restore : StrBuf × List Message :=
  match sb.stk with
  | [] => ({ sb with current := 0 }, [.stackUnderflow])
  | mark :: stk => ({ sb with stk := stk, current := mark }, [])

/-- `sb_alloc`, with the `short` that it returns. -/
def alloc (size : Nat) : StrBuf × Int × List Message :=
  if sb.current + size + 1 < strbufSize then
    ({ sb with current := sb.current + size + 1 }, toShort sb.current, [])
  else (sb, -1, [.strBufOverflow])

/-- The string in `buf` from `place` on, where at most `room` bytes are left. -/
def read : Nat → Nat → Option (List UInt8)
  | 0, _ => none
  | room + 1, place =>
      if sb.buf place = 0 then some []
      else (read room (place + 1)).map (sb.buf place :: ·)

/-- `sb_string`, read as a string. There is none outside `buf`. -/
def string (offset : Int) : Option (List UInt8) :=
  if offset < 0 then none else sb.read (strbufSize - offset.toNat) offset.toNat

/-- `strcpy` to `sb_string`, which is undefined outside `buf`. -/
def strcpy (offset : Int) (bytes : List UInt8) : Option StrBuf :=
  if 0 ≤ offset ∧ offset.toNat + bytes.length < strbufSize then
    some { sb with
      buf := fun place =>
        if offset.toNat ≤ place then ((bytes ++ [0])[place - offset.toNat]?).getD (sb.buf place)
        else sb.buf place }
  else none

end StrBuf

/-- `SYM`, without the links of the hash table that stand before it. -/
structure Sym where
  next : Option Nat
  name : Int
  level : Int
  isDup : Bool

/-- `HASH_TAB`: `links` are the table and the `BUCKET`s before the symbols. -/
structure HashTab where
  links : Links Nat Nat
  numsyms : Int

/-- The size of the table that `symtab_init` makes. -/
def tableSize : UInt32 := 1021

/-- `hash_add` -/
def hashAdd (key : List UInt8) : UInt32 := key.foldl (fun h b => h + b.toUInt32) 0

/-- The bucket of a key. -/
def bucketOf (key : List UInt8) : Nat := (hashAdd key % tableSize).toNat

/-- What the program declares: the symbol made for it, its name, and whether `add_SYM` adds it. -/
structure Decl where
  ref : Nat
  name : CString
  single : Bool
  deriving DecidableEq

/-- The translator. The innermost scope is first, and so is its last declaration. `fresh` symbols
have been allocated. -/
structure Translator where
  symnames : StrBuf
  level : Int
  symTab : HashTab
  syms : Nat → Sym
  fresh : Nat
  freesymlist : Option Nat
  scopes : List (List Decl)
  messages : List Message

/-- The parser has not begun. `memory` is what `symnames` holds. -/
def Translator.init (memory : Nat → UInt8) : Translator where
  symnames := { stk := [], buf := memory, current := 0 }
  level := 0
  symTab := { links := { target := fun _ => none, back := fun _ => none }, numsyms := 0 }
  syms _ := { next := none, name := 0, level := 0, isDup := false }
  fresh := 0
  freesymlist := none
  scopes := [[]]
  messages := []

namespace Translator

variable (t : Translator)

/-- `SYMSTR(sym->name)` -/
def symstr (r : Nat) : Option (List UInt8) := t.symnames.string (t.syms r).name

/-- The loop of `findsym`. -/
def findLoop (key : List UInt8) : Nat → Option Nat → Option (Option Nat)
  | 0, _ => none
  | _ + 1, none => some none
  | fuel + 1, some r =>
      match t.symstr r with
      | none => none
      | some name =>
          if name = key then some (some r) else findLoop key fuel (t.symTab.links.target (.next r))

def findsym (key : List UInt8) : Option (Option Nat) :=
  t.findLoop key (t.fresh + 1) (t.symTab.links.target (.head (bucketOf key)))

def addsym (r : Nat) : Option Translator :=
  (t.symstr r).map fun key =>
    { t with
      symTab := { links := t.symTab.links.push (bucketOf key) r, numsyms := t.symTab.numsyms + 1 } }

def delsym (r : Nat) : Option Translator :=
  (t.symTab.links.unlink r).map fun links =>
    { t with symTab := { links := links, numsyms := t.symTab.numsyms - 1 } }

/-- The first lines of `new_SYM`. -/
def takeSYM : Translator × Nat :=
  match t.freesymlist with
  | some r => ({ t with freesymlist := (t.syms r).next }, r)
  | none => ({ t with fresh := t.fresh + 1 }, t.fresh)

/-- The rest of `new_SYM`. -/
def nameSYM (r : Nat) (name : List UInt8) (level : Int) : Option Translator :=
  let (sb, offset, messages) := t.symnames.alloc (name.length + 1)
  (sb.strcpy offset name).map fun sb =>
    { t with
      symnames := sb
      syms := Function.update t.syms r
        { t.syms r with next := none, name := offset, level := toShort level }
      messages := t.messages ++ messages }

def newSYM (name : List UInt8) (level : Int) : Option (Translator × Nat) :=
  let (t, r) := t.takeSYM
  (t.nameSYM r name level).map fun t => (t, r)

def setDup (r : Nat) (isDup : Bool) : Translator :=
  { t with syms := Function.update t.syms r { t.syms r with isDup := isDup } }

def addSYM (r : Nat) : Option Translator :=
  match (t.symstr r).bind t.findsym with
  | none => none
  | some none => (t.addsym r).map fun t => t.setDup r false
  | some (some found) =>
      if (t.syms found).level ≠ (t.syms r).level then (t.addsym r).map fun t => t.setDup r false
      else some (t.setDup r true)

/-- The message of `add_SYMs_to_table` about a symbol of `name`. -/
def warning (syms : Nat) (name : List UInt8) : Option Nat → List Message
  | none => []
  | some found => if (t.syms found).level = (t.syms syms).level then [.duplicate name] else []

/-- The loop of `add_SYMs_to_table`. -/
def addSYMsLoop (syms : Nat) : Nat → Option Nat → Translator → Option Translator
  | 0, _, _ => none
  | _ + 1, none, t => some t
  | fuel + 1, some new, t =>
      match t.symstr new with
      | none => none
      | some name =>
          match t.findsym name with
          | none => none
          | some found =>
              match { t with messages := t.messages ++ t.warning syms name found }.addsym new with
              | none => none
              | some t => addSYMsLoop syms fuel (t.syms new).next (t.setDup new false)

def addSYMsToTable : Option Nat → Option Translator
  | none => some t
  | some syms => addSYMsLoop syms (t.fresh + 1) (some syms) t

def discardSYM (r : Nat) : Translator :=
  { t with
    syms := Function.update t.syms r { t.syms r with next := t.freesymlist }
    freesymlist := some r }

def discardSYMChain : Nat → Option Nat → Translator → Option Translator
  | 0, _, _ => none
  | _ + 1, none, t => some t
  | fuel + 1, some r, t =>
      let p := (t.syms r).next
      if (t.syms r).isDup then discardSYMChain fuel p (t.discardSYM r)
      else (t.delsym r).bind fun t => discardSYMChain fuel p (t.discardSYM r)

/-- The parser links symbols into a list. -/
def linkSYMs : List Nat → Translator
  | [] => t
  | r :: l =>
      let t := linkSYMs l
      { t with syms := Function.update t.syms r { t.syms r with next := l.head? } }

/-- Make the symbols of a parameter list. -/
def newSYMs : List CString → Translator → Option (Translator × List Nat)
  | [], t => some (t, [])
  | name :: names, t =>
      (t.newSYM name.bytes t.level).bind fun (t, r) =>
        (newSYMs names t).map fun (t, refs) => (t, r :: refs)

/-- Add the declarations, the last one first, to the innermost scope. -/
def declared (decls : List Decl) : Translator :=
  match t.scopes with
  | [] => t
  | scope :: scopes => { t with scopes := (decls ++ scope) :: scopes }

/-- A new frame of `symnames`. -/
def newframe : Translator :=
  { t with symnames := t.symnames.newframe.1, messages := t.messages ++ t.symnames.newframe.2 }

def restore : Translator :=
  { t with symnames := t.symnames.restore.1, messages := t.messages ++ t.symnames.restore.2 }

end Translator

/-- What the parser does with the table. -/
inductive Act where
  | enter
  /-- A declaration, by `add_SYM`. -/
  | declare (name : CString)
  /-- A parameter list, by `add_SYMs_to_table`. -/
  | parameters (names : List CString)
  /-- The end of the innermost scope, whose symbols are linked in this order. -/
  | leave (order : List Nat)

namespace Translator

variable (t : Translator)

/-- There is no next state where the behaviour is undefined. -/
def step : Act → Option Translator
  | .enter =>
      some { newframe { t with level := t.level + 1 } with scopes := [] :: t.scopes }
  | .declare name =>
      (t.newSYM name.bytes t.level).bind fun (t, r) =>
        (t.addSYM r).map fun t => t.declared [⟨r, name, true⟩]
  | .parameters names =>
      (newSYMs names t).bind fun (t, refs) =>
        ((t.linkSYMs refs).addSYMsToTable refs.head?).map fun t =>
          t.declared (List.zipWith (fun r name => ⟨r, name, false⟩) refs names).reverse
  | .leave order =>
      let t := { t.linkSYMs order with level := t.level - 1 }
      (discardSYMChain (t.fresh + 1) order.head? t).map fun t =>
        { t.restore with scopes := t.scopes.tail }

def run : Translator → List Act → Option Translator
  | t, [] => some t
  | t, a :: acts => (t.step a).bind fun t => run t acts

/-- The outermost scope is not left, and a scope is left with all its symbols. -/
def Allowed : Act → Prop
  | .leave order => ∃ scope outer scopes, t.scopes = scope :: outer :: scopes ∧
      order.Perm (scope.map Decl.ref)
  | _ => True

/-- Each step of the sequence may be taken after those before it. -/
def Nested : Translator → List Act → Prop
  | _, [] => True
  | t, a :: acts => t.Allowed a ∧ ∀ t', t.step a = some t' → Nested t' acts

end Translator

instance Translator.decidableAllowed (t : Translator) (a : Act) : Decidable (t.Allowed a) :=
  match a with
  | .leave order =>
      match scopes : t.scopes with
      | scope :: outer :: rest =>
          decidable_of_iff (order.Perm (scope.map Decl.ref))
            (by simp [Translator.Allowed, scopes])
      | [] => isFalse (by simp [Translator.Allowed, scopes])
      | [_] => isFalse (by simp [Translator.Allowed, scopes])
  | .enter => isTrue trivial
  | .declare _ => isTrue trivial
  | .parameters _ => isTrue trivial

instance Translator.decidableNested : (t : Translator) → (acts : List Act) → Decidable (t.Nested acts)
  | _, [] => isTrue trivial
  | t, a :: acts =>
      match step : t.step a with
      | none => decidable_of_iff (t.Allowed a) (by simp [Translator.Nested, step])
      | some t' =>
          have := decidableNested t' acts
          decidable_of_iff (t.Allowed a ∧ t'.Nested acts) (by simp [Translator.Nested, step])

/-- From `current` on the buffer takes the names, and their offsets fit into a `short`. -/
def Room : Nat → List CString → Prop
  | _, [] => True
  | current, name :: names =>
      current ≤ 32767 ∧ current + name.bytes.length + 2 < strbufSize ∧
        Room (current + name.bytes.length + 2) names

instance decidableRoom : (current : Nat) → (names : List CString) → Decidable (Room current names)
  | _, [] => isTrue trivial
  | current, name :: names =>
      have := decidableRoom (current + name.bytes.length + 2) names
      inferInstanceAs (Decidable (_ ∧ _ ∧ Room (current + name.bytes.length + 2) names))

namespace Translator

/-- The frame of a scope fits on the stack, and the names of the symbols in the buffer. -/
def Fits (t : Translator) : Act → Prop
  | .enter => t.symnames.stk.length < stackSize
  | .declare name => Room t.symnames.current [name]
  | .parameters names => Room t.symnames.current names
  | .leave _ => True

/-- Every step of the sequence fits. -/
def AllFit : Translator → List Act → Prop
  | _, [] => True
  | t, a :: acts => t.Fits a ∧ ∀ t', t.step a = some t' → AllFit t' acts

instance decidableFits (t : Translator) (a : Act) : Decidable (t.Fits a) :=
  match a with
  | .enter => inferInstanceAs (Decidable (t.symnames.stk.length < stackSize))
  | .declare name => inferInstanceAs (Decidable (Room t.symnames.current [name]))
  | .parameters names => inferInstanceAs (Decidable (Room t.symnames.current names))
  | .leave _ => isTrue trivial

instance decidableAllFit : (t : Translator) → (acts : List Act) → Decidable (t.AllFit acts)
  | _, [] => isTrue trivial
  | t, a :: acts =>
      match step : t.step a with
      | none => decidable_of_iff (t.Fits a) (by simp [AllFit, step])
      | some t' =>
          have := decidableAllFit t' acts
          decidable_of_iff (t.Fits a ∧ t'.AllFit acts) (by simp [AllFit, step])

end Translator

end Tmpi.Mpitrans
