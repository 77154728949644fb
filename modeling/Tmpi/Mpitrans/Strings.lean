import Tmpi.Mpitrans.SymbolTable
import Tmpi.Lib.Path

/-! `misc.c`: the strings that the translator builds, and the list of those it may use again. -/

namespace Tmpi.Mpitrans

/-- `STRBLK` -/
def strblk : Nat := 128

/-- `(n+STRBLK-1)/STRBLK*STRBLK`, in `unsigned int`s. -/
def roundUp (n : Int) : Nat := ((n + (strblk - 1)) % 2^32).toNat / strblk * strblk

/-- A sum stored in an `int`. -/
def toInt (n : Int) : Int := n.bmod (2^32)

/-- `STR`; `namex` is the number of a block. -/
structure Str where
  namex : Nat
  next : Option Nat
  maxlen : Int
  curlen : Int

/-- What `malloc` gives. -/
structure Block where
  size : Nat
  bytes : Nat → UInt8

/-- The string that begins at a place, where at most `room` bytes are left. -/
def readBytes (bytes : Nat → UInt8) : Nat → Nat → Option (List UInt8)
  | 0, _ => none
  | room + 1, place =>
      if bytes place = 0 then some [] else (readBytes bytes room (place + 1)).map (bytes place :: ·)

/-- The strings and their blocks; a block that was freed is not there any more. `junk` is what new blocks hold. -/
structure StrMem where
  strs : Nat → Str
  blocks : Nat → Option Block
  freestrlist : Option Nat
  freshStr : Nat
  freshBlock : Nat
  junk : Nat → Nat → UInt8

namespace StrMem

variable (m : StrMem)

/-- What is written next goes through the pointer, so there is no state after a `malloc` that fails. It does when a
negative number is asked for. -/
def malloc (n : Int) : Option (StrMem × Nat) :=
  if n < 0 then none
  else some ({ m with
    blocks := Function.update m.blocks m.freshBlock (some ⟨n.toNat, m.junk m.freshBlock⟩)
    freshBlock := m.freshBlock + 1 }, m.freshBlock)

def free (b : Nat) : StrMem := { m with blocks := Function.update m.blocks b none }

/-- `strcpy` into a block. It is undefined outside of it. -/
def strcpy (b : Nat) (offset : Int) (text : List UInt8) : Option StrMem :=
  match m.blocks b with
  | none => none
  | some block =>
      if 0 ≤ offset ∧ offset.toNat + text.length < block.size then
        some { m with
          blocks := Function.update m.blocks b (some { block with
            bytes := fun place =>
              if offset.toNat ≤ place then ((text ++ [0])[place - offset.toNat]?).getD (block.bytes place)
              else block.bytes place }) }
      else none

/-- The string in a block. -/
def text (b : Nat) : Option (List UInt8) :=
  match m.blocks b with
  | none => none
  | some block => readBytes block.bytes block.size 0

def set (r : Nat) (str : Str) : StrMem := { m with strs := Function.update m.strs r str }

/-- `str_string`, and the string there. -/
def strString (r : Nat) : Option (List UInt8) := m.text (m.strs r).namex

/-- `new_blankstr` -/
def newBlankstr : Option (StrMem × Nat) :=
  let create :=
    let r := m.freshStr
    (m.malloc strblk).bind fun (m, b) =>
      let str := { m.strs r with namex := b, maxlen := toShort strblk, curlen := 1 }
      ({ m with freshStr := r + 1 }.set r str |>.strcpy b 0 []).map fun m => (m, r)
  match m.freestrlist with
  | none => create
  | some r =>
      -- the comparison is one of `unsigned int`s
      if strblk ≤ (m.strs r).maxlen % 2^32 then
        let str := { m.strs r with curlen := 1 }
        ({ m with freestrlist := str.next }.set r str |>.strcpy str.namex 0 []).map fun m => (m, r)
      else create

/-- `new_str` -/
def newStr (s : Option CString) : Option (StrMem × Nat) :=
  match s with
  | none => m.newBlankstr
  | some s =>
      let curlen := toShort (s.bytes.length + 1)
      let maxlen := toShort (roundUp curlen)
      match m.freestrlist with
      | some r =>
          let str := { m.strs r with curlen := curlen }
          let m := { m with freestrlist := str.next }
          if str.maxlen < curlen then
            ((m.free str.namex).malloc maxlen).bind fun (m, b) =>
              (m.set r { str with maxlen := maxlen, namex := b } |>.strcpy b 0 s.bytes).map fun m => (m, r)
          else (m.set r str |>.strcpy str.namex 0 s.bytes).map fun m => (m, r)
      | none =>
          let r := m.freshStr
          (m.malloc maxlen).bind fun (m, b) =>
            let str := { m.strs r with namex := b, maxlen := maxlen, curlen := curlen }
            ({ m with freshStr := r + 1 }.set r str |>.strcpy b 0 s.bytes).map fun m => (m, r)

/-- `del_str` -/
def delStr (str : Option Nat) : StrMem :=
  match str with
  | none => m
  | some r => { m with freestrlist := some r }.set r { m.strs r with next := m.freestrlist }

/-- What `str_append` and `str_cat` do, from the `size` of both strings on. -/
def extend (r : Nat) (size : Int) (text : List UInt8) : Option StrMem :=
  let str := m.strs r
  if str.maxlen < size then
    let maxlen := toInt (roundUp size)
    (m.malloc maxlen).bind fun (m, ss) =>
      (m.strString r).bind fun old =>
        (m.strcpy ss 0 old).bind fun m =>
          (m.strcpy ss (str.curlen - 1) text).map fun m =>
            (m.free str.namex).set r { str with namex := ss, maxlen := toShort maxlen, curlen := toShort size }
  else
    (m.strcpy str.namex (str.curlen - 1) text).map fun m => m.set r { str with curlen := toShort size }

/-- `str_append` -/
def strAppend (r : Nat) (s : Option CString) : Option StrMem :=
  match s with
  | none => some m
  | some s => m.extend r (toInt (s.bytes.length + (m.strs r).curlen)) s.bytes

/-- `str_cat`. The second string is another one, so what it holds may be read first. -/
def strCat (r : Nat) (str2 : Option Nat) : Option StrMem :=
  match str2 with
  | none => some m
  | some r2 => (m.strString r2).bind fun text => m.extend r ((m.strs r).curlen + (m.strs r2).curlen - 1) text

end StrMem

inductive StrCall where
  | newBlank
  | newStr (s : Option CString)
  | append (r : Nat) (s : Option CString)
  | cat (r : Nat) (str2 : Option Nat)
  | del (str : Option Nat)

/-- The strings beside what was put into each of them. -/
structure Strings where
  mem : StrMem
  live : Nat → Option (List UInt8)

namespace Strings

variable (x : Strings)

/-- Before the first string. -/
def start (junk : Nat → Nat → UInt8) : Strings where
  mem := ⟨fun _ => ⟨0, none, 0, 0⟩, fun _ => none, none, 0, 0, junk⟩
  live := fun _ => none

def put (r : Nat) (content : List UInt8) (mem : StrMem) : Strings := ⟨mem, Function.update x.live r (some content)⟩

/-- The bytes of an argument that may be `NULL`. -/
def bytesOf (s : Option CString) : List UInt8 := (s.map CString.bytes).getD []

/-- What is in a string. -/
def content (r : Nat) : List UInt8 := (x.live r).getD []

/-- There is no next state where the behaviour is undefined. -/
def step : StrCall → Option Strings
  | .newBlank => x.mem.newBlankstr.map fun (m, r) => x.put r [] m
  | .newStr s => (x.mem.newStr s).map fun (m, r) => x.put r (bytesOf s) m
  | .append r s => (x.mem.strAppend r s).map fun m => x.put r (x.content r ++ bytesOf s) m
  | .cat r str2 =>
      (x.mem.strCat r str2).map fun m => x.put r (x.content r ++ (str2.map x.content).getD []) m
  | .del str =>
      match str with
      | none => some x
      | some r => some ⟨x.mem.delStr r, Function.update x.live r none⟩

/-- The strings of a call are there, and `str_cat` is given two. -/
def Allowed : StrCall → Prop
  | .append r _ => x.live r ≠ none
  | .cat r str2 => x.live r ≠ none ∧ ∀ r2 ∈ str2, x.live r2 ≠ none ∧ r2 ≠ r
  | .del str => ∀ r ∈ str, x.live r ≠ none
  | _ => True

/-- It is on the list of those that may be used again. -/
def Freed (r : Nat) : Prop := ∃ front, Path (fun r => (x.mem.strs r).next) x.mem.freestrlist front (some r)

/-- What a string should be. -/
structure Whole (r : Nat) (content : List UInt8) : Prop where
  holds : x.mem.strString r = some content
  curlen : (x.mem.strs r).curlen = content.length + 1
  room : (x.mem.strs r).curlen ≤ (x.mem.strs r).maxlen
  maxlen : ∃ block, x.mem.blocks (x.mem.strs r).namex = some block ∧ (x.mem.strs r).maxlen = block.size
  own : ∀ r' ≠ r, x.live r' ≠ none ∨ x.Freed r' → (x.mem.strs r').namex ≠ (x.mem.strs r).namex

def Sound : Prop := ∀ r content, x.live r = some content → x.Whole r content

/-- The call makes no string of 32640 bytes or more. -/
def Fits : StrCall → Prop
  | .newStr s => (bytesOf s).length < 255 * strblk
  | .append r s => (x.content r).length + (bytesOf s).length < 255 * strblk
  | .cat r str2 => (x.content r).length + ((str2.map x.content).getD []).length < 255 * strblk
  | _ => True

/-- Every call is one of those that may be made. -/
def Valid : Strings → List StrCall → Prop
  | _, [] => True
  | x, call :: calls => x.Allowed call ∧ ∀ y, x.step call = some y → Valid y calls

/-- No call is undefined, and the strings are whole after each. -/
def AllSound : Strings → List StrCall → Prop
  | _, [] => True
  | x, call :: calls => ∃ y, x.step call = some y ∧ y.Sound ∧ AllSound y calls

def AllFit : Strings → List StrCall → Prop
  | _, [] => True
  | x, call :: calls => x.Fits call ∧ ∀ y, x.step call = some y → AllFit y calls

end Strings

/-! ## Blocks -/

/-- The string is in the block. -/
structure Block.Holds (block : Block) (content : List UInt8) : Prop where
  fits : content.length < block.size
  byte : ∀ i (inside : i < (content ++ [0]).length), block.bytes i = (content ++ [0])[i]

theorem Block.Holds.before {block : Block} {content : List UInt8} (holds : block.Holds content) (i : Nat)
    (inside : i < content.length) : block.bytes i = content[i] := by
  rw [holds.byte i (by simp; omega), List.getElem_append_left inside]

theorem readBytes_of {bytes : Nat → UInt8} {content : List UInt8} {room place : Nat} (fits : content.length < room)
    (noNul : ∀ b ∈ content, b ≠ 0)
    (byte : ∀ i (inside : i < (content ++ [0]).length), bytes (place + i) = (content ++ [0])[i]) :
    readBytes bytes room place = some content := by
  induction content generalizing room place with
  | nil =>
      obtain ⟨room, rfl⟩ : ∃ n, room = n + 1 := ⟨room - 1, by simp at fits; omega⟩
      rw [readBytes, if_pos]
      simpa using byte 0 (by simp)
  | cons b content ih =>
      obtain ⟨room, rfl⟩ : ∃ n, room = n + 1 := ⟨room - 1, by simp at fits; omega⟩
      have first : bytes place = b := by simpa using byte 0 (by simp)
      have rest : readBytes bytes room (place + 1) = some content := by
        apply ih
        · simpa using fits
        · exact fun c member => noNul c (List.mem_cons_of_mem b member)
        · intro i inside
          have next := byte (i + 1) (by simpa using inside)
          rwa [show place + (i + 1) = place + 1 + i by omega] at next
      rw [readBytes, first, if_neg (noNul b List.mem_cons_self), rest, Option.map_some]

namespace StrMem

variable {m : StrMem} {b : Nat} {block : Block} {content text : List UInt8}

theorem text_of_holds (there : m.blocks b = some block) (holds : block.Holds content) (noNul : ∀ c ∈ content, c ≠ 0) :
    m.text b = some content := by
  rw [StrMem.text, there]
  exact readBytes_of holds.fits noNul fun i inside => by rw [Nat.zero_add, holds.byte i inside]

/-- What is copied stands behind what was there. -/
theorem strcpy_spec (m : StrMem) (text : List UInt8) (there : m.blocks b = some block)
    (before : ∀ i (inside : i < content.length), block.bytes i = content[i])
    (fits : content.length + text.length < block.size) :
    ∃ block', m.strcpy b content.length text = some { m with blocks := Function.update m.blocks b (some block') } ∧
      block'.size = block.size ∧ block'.Holds (content ++ text) := by
  have inBlock : (0 : Int) ≤ content.length ∧ (content.length : Int).toNat + text.length < block.size :=
    ⟨Int.natCast_nonneg _, by rw [Int.toNat_natCast]; exact fits⟩
  unfold strcpy
  rw [there]
  dsimp only
  rw [if_pos inBlock]
  refine ⟨_, rfl, rfl, ?_, ?_⟩
  · rw [List.length_append]
    exact fits
  · intro i inside
    rw [Int.toNat_natCast]
    dsimp only
    by_cases old : i < content.length
    · have left : (content ++ text ++ [0])[i] = content[i] := by
        simp only [List.append_assoc]
        exact List.getElem_append_left old
      rw [if_neg (by omega), before i old, left]
    · have new : i - content.length < (text ++ [0]).length := by
        simp only [List.length_append, List.length_singleton] at inside ⊢
        omega
      have right : (content ++ text ++ [0])[i] = (text ++ [0])[i - content.length] := by
        simp only [List.append_assoc]
        exact List.getElem_append_right (by omega)
      rw [if_pos (by omega), List.getElem?_eq_getElem new, Option.getD_some, right]

/-- Into a new block. -/
theorem strcpy_first (m : StrMem) (text : List UInt8) (there : m.blocks b = some block) (fits : text.length < block.size) :
    ∃ block', m.strcpy b 0 text = some { m with blocks := Function.update m.blocks b (some block') } ∧
      block'.size = block.size ∧ block'.Holds text :=
  @strcpy_spec b block [] m text there nofun (by simpa using fits)

theorem malloc_spec {n : Int} (asked : 0 ≤ n) :
    m.malloc n = some ({ m with
      blocks := Function.update m.blocks m.freshBlock (some ⟨n.toNat, m.junk m.freshBlock⟩)
      freshBlock := m.freshBlock + 1 }, m.freshBlock) := if_neg (not_lt.mpr asked)

end StrMem

namespace StrMem

variable {m m' : StrMem} {r : Nat}

@[simp]
theorem set_self (str : Str) : (m.set r str).strs r = str := by
  unfold set
  dsimp only
  rw [Function.update_self]

theorem strcpy_strs {b : Nat} {offset : Int} {text : List UInt8} (copied : m.strcpy b offset text = some m') :
    m'.strs = m.strs := by
  unfold strcpy at copied
  split at copied
  · exact absurd copied nofun
  · split_ifs at copied
    rw [← Option.some.inj copied]

/-- The fields of a string that was made. -/
theorem newStr_fields {s : CString} (made : m.newStr (some s) = some (m', r)) :
    (m'.strs r).curlen = toShort (s.bytes.length + 1) ∧
      ((m'.strs r).maxlen = toShort (roundUp (toShort (s.bytes.length + 1))) ∨
        m.freestrlist = some r ∧ (m'.strs r).maxlen = (m.strs r).maxlen) := by
  unfold newStr at made
  dsimp only at made
  split at made
  case h_1 r₁ first =>
    split_ifs at made with narrow
    · obtain ⟨⟨m₁, b⟩, gave, made⟩ := Option.bind_eq_some_iff.mp made
      obtain ⟨m₂, copied, pair⟩ := Option.map_eq_some_iff.mp made
      obtain ⟨rfl, rfl⟩ := Prod.mk.inj pair
      rw [strcpy_strs copied, set_self]
      exact ⟨by dsimp only, .inl (by dsimp only)⟩
    · obtain ⟨m₂, copied, pair⟩ := Option.map_eq_some_iff.mp made
      obtain ⟨rfl, rfl⟩ := Prod.mk.inj pair
      rw [strcpy_strs copied, set_self]
      exact ⟨by dsimp only, .inr ⟨first, by dsimp only⟩⟩
  case h_2 first =>
    obtain ⟨⟨m₁, b⟩, gave, made⟩ := Option.bind_eq_some_iff.mp made
    obtain ⟨m₂, copied, pair⟩ := Option.map_eq_some_iff.mp made
    obtain ⟨rfl, rfl⟩ := Prod.mk.inj pair
    rw [strcpy_strs copied, set_self]
    exact ⟨by dsimp only, .inl (by dsimp only)⟩

/-- The fields of a string that has grown. -/
theorem extend_fields {size : Int} {text : List UInt8} (made : m.extend r size text = some m') :
    (m'.strs r).curlen = toShort size ∧
      ((m'.strs r).maxlen = toShort (toInt (roundUp size)) ∨ (m'.strs r).maxlen = (m.strs r).maxlen) := by
  unfold extend at made
  dsimp only at made
  split_ifs at made with narrow
  · obtain ⟨⟨m₁, ss⟩, gave, made⟩ := Option.bind_eq_some_iff.mp made
    obtain ⟨old, read, made⟩ := Option.bind_eq_some_iff.mp made
    obtain ⟨m₂, copied, made⟩ := Option.bind_eq_some_iff.mp made
    obtain ⟨m₃, copied', rfl⟩ := Option.map_eq_some_iff.mp made
    rw [set_self]
    exact ⟨by dsimp only, .inl (by dsimp only)⟩
  · obtain ⟨m₁, copied, rfl⟩ := Option.map_eq_some_iff.mp made
    rw [set_self]
    exact ⟨by dsimp only, .inr (by dsimp only)⟩

end StrMem

theorem toShort_of_small {n : Int} (low : 0 ≤ n) (high : n < 2^15) : toShort n = n := by
  rw [toShort, Int.bmod_def]
  omega

theorem toShort_le (n : Int) : toShort n < 2^15 := by
  rw [toShort, Int.bmod_def]
  omega

theorem toInt_of_small {n : Int} (low : 0 ≤ n) (high : n < 2^31) : toInt n = n := by
  rw [toInt, Int.bmod_def]
  omega

theorem roundUp_small {n : Nat} (small : n ≤ 255 * strblk) : n ≤ roundUp n ∧ roundUp n ≤ 255 * strblk := by
  unfold roundUp strblk at *
  omega

/-- The block of a longer string does not fit the field. -/
theorem roundUp_wide {n : Int} (wide : 255 * strblk < n) (small : n < 2^15) : roundUp n = 2^15 := by
  unfold roundUp strblk at *
  omega

/-- A string of 32640 bytes or more has no fields that say so. -/
theorem fields_short {length : Nat} {curlen maxlen size : Int} (current : curlen = length + 1)
    (room : curlen ≤ maxlen) (bound : curlen < 2^15)
    (block : maxlen = toShort (roundUp size) ∨ maxlen = toShort (toInt (roundUp size)) ∨ maxlen ≤ 255 * strblk)
    (size_eq : size = curlen ∨ size = toInt (length + 1)) : length < 255 * strblk := by
  by_contra long
  have small : toInt (length + 1) = length + 1 := toInt_of_small (by omega) (by omega)
  have same : size = length + 1 := by
    cases size_eq with
    | inl same => rw [same, current]
    | inr same => rw [same, small]
  have wide : roundUp size = 2^15 := by
    apply roundUp_wide
    · rw [same]
      omega
    · omega
  rw [wide] at block
  have negative : maxlen ≤ 255 * strblk := by
    rcases block with stored | stored | low
    · rw [stored]
      decide
    · rw [stored]
      decide
    · exact low
  omega

/-! ## What holds of the strings -/

/-- A string that is used, or may be used again. -/
structure StrMem.Shaped (m : StrMem) (r : Nat) : Prop where
  str : r < m.freshStr
  block : (m.strs r).namex < m.freshBlock
  maxlen : ∃ block, m.blocks (m.strs r).namex = some block ∧ (m.strs r).maxlen = block.size
  small : (m.strs r).maxlen ≤ 255 * strblk

/-- A string that is used. -/
structure StrMem.Filled (m : StrMem) (r : Nat) (content : List UInt8) : Prop where
  holds : ∃ block, m.blocks (m.strs r).namex = some block ∧ block.Holds content
  noNul : ∀ b ∈ content, b ≠ 0
  curlen : (m.strs r).curlen = content.length + 1

/-- `content` was put into `r`, which may have been there, and there is room for it. -/
structure StrMem.Writes (m m' : StrMem) (kept : Prop) (r : Nat) (content : List UInt8) : Prop where
  others : ∀ r' ≠ r, m'.strs r' = m.strs r'
  blocks : ∀ b ≠ (m'.strs r).namex, (kept → b ≠ (m.strs r).namex) → m'.blocks b = m.blocks b
  namex : (m'.strs r).namex = m.freshBlock ∨ kept ∧ (m'.strs r).namex = (m.strs r).namex
  freshStr : m.freshStr ≤ m'.freshStr
  freshBlock : m.freshBlock ≤ m'.freshBlock
  shaped : m'.Shaped r
  filled : m'.Filled r content

namespace StrMem

variable {m : StrMem} {kept : Prop} {r : Nat} {str : Str} {content text : List UInt8} {block block' : Block}
  {list : Option Nat}

theorem Writes.inPlace (shaped : m.Shaped r) (was : kept) (there : m.blocks (m.strs r).namex = some block)
    (namex : str.namex = (m.strs r).namex) (maxlen : str.maxlen = (m.strs r).maxlen)
    (curlen : str.curlen = content.length + 1) (size : block'.size = block.size) (holds : block'.Holds content)
    (noNul : ∀ b ∈ content, b ≠ 0) :
    m.Writes { m with
      strs := Function.update m.strs r str
      blocks := Function.update m.blocks (m.strs r).namex (some block')
      freestrlist := list } kept r content := by
  have here : Function.update m.strs r str r = str := Function.update_self r str m.strs
  have blockSize : (m.strs r).maxlen = block.size := by
    obtain ⟨block, there', size⟩ := shaped.maxlen
    rwa [Option.some.inj (there.symm.trans there')]
  have newBlock : Function.update m.blocks (m.strs r).namex (some block') str.namex = some block' := by
    rw [namex]
    exact Function.update_self _ _ _
  refine ⟨fun r' other => Function.update_of_ne other str m.strs, ?_, .inr ⟨was, ?_⟩, le_rfl, le_rfl,
    ⟨shaped.str, ?_, ?_, ?_⟩, ⟨?_, noNul, ?_⟩⟩ <;> dsimp only <;> rw [here]
  · intro b other _
    exact Function.update_of_ne (namex ▸ other) _ _
  · exact namex
  · rw [namex]
    exact shaped.block
  · exact ⟨block', newBlock, by rw [maxlen, blockSize, size]⟩
  · rw [maxlen]
    exact shaped.small
  · exact ⟨block', newBlock, holds⟩
  · exact curlen

theorem Writes.moved {blocks : Nat → Option Block} {freshStr : Nat} (above : m.freshStr ≤ freshStr)
    (inside : r < freshStr) (there : blocks m.freshBlock = some block)
    (others : ∀ b ≠ m.freshBlock, (kept → b ≠ (m.strs r).namex) → blocks b = m.blocks b)
    (namex : str.namex = m.freshBlock) (maxlen : str.maxlen = block.size) (small : str.maxlen ≤ 255 * strblk)
    (curlen : str.curlen = content.length + 1) (holds : block.Holds content) (noNul : ∀ b ∈ content, b ≠ 0) :
    m.Writes { m with
      strs := Function.update m.strs r str
      blocks := blocks
      freestrlist := list
      freshStr := freshStr
      freshBlock := m.freshBlock + 1 } kept r content := by
  have here : Function.update m.strs r str r = str := Function.update_self r str m.strs
  refine ⟨fun r' other => Function.update_of_ne other str m.strs, ?_, .inl ?_, above, Nat.le_succ _,
    ⟨inside, ?_, ?_, ?_⟩, ⟨?_, noNul, ?_⟩⟩ <;> dsimp only <;> rw [here]
  · intro b other apart
    exact others b (namex ▸ other) apart
  · exact namex
  · rw [namex]
    exact Nat.lt_succ_self _
  · exact ⟨block, namex ▸ there, maxlen⟩
  · exact small
  · exact ⟨block, namex ▸ there, holds⟩
  · exact curlen

end StrMem

namespace Strings

variable {x y : Strings} {l l' : List Nat}

def Kept (x : Strings) (l : List Nat) (r : Nat) : Prop := x.live r ≠ none ∨ r ∈ l

/-- `l` is the list of those that may be used again. -/
structure Inv (x : Strings) (l : List Nat) : Prop where
  path : Path (fun r => (x.mem.strs r).next) x.mem.freestrlist l none
  free : ∀ r ∈ l, x.live r = none
  shaped : ∀ r, x.Kept l r → x.mem.Shaped r
  apart : ∀ r r', x.Kept l r → x.Kept l r' → (x.mem.strs r).namex = (x.mem.strs r').namex → r = r'
  filled : ∀ r content, x.live r = some content → x.mem.Filled r content

theorem Inv.start (junk : Nat → Nat → UInt8) : (start junk).Inv [] where
  path := rfl
  free := nofun
  shaped := by rintro r (live | member); exacts [absurd rfl live, absurd member List.not_mem_nil]
  apart := by rintro r r' (live | member); exacts [absurd rfl live, absurd member List.not_mem_nil]
  filled := nofun

theorem Inv.whole (inv : x.Inv l) {r : Nat} {content : List UInt8} (live : x.live r = some content) :
    x.Whole r content := by
  have kept : x.Kept l r := .inl (by rw [live]; exact Option.some_ne_none content)
  have filled := inv.filled r content live
  obtain ⟨block, there, holds⟩ := filled.holds
  have maxlen : (x.mem.strs r).maxlen = block.size := by
    obtain ⟨block', there', size⟩ := (inv.shaped r kept).maxlen
    rwa [Option.some.inj (there.symm.trans there')]
  refine ⟨StrMem.text_of_holds there holds filled.noNul, filled.curlen, ?_, ⟨block, there, maxlen⟩, ?_⟩
  · have fits := holds.fits
    rw [filled.curlen, maxlen]
    omega
  · intro r' other used same
    apply other
    apply inv.apart r' r ?_ kept same
    exact used.imp_right inv.path.mem_iff.mpr

theorem Inv.sound (inv : x.Inv l) : x.Sound := fun _ _ live => inv.whole live

/-- The others stay what they are. -/
theorem Inv.put {r : Nat} {content : List UInt8} {m' : StrMem} (inv : x.Inv l)
    (writes : x.mem.Writes m' (x.Kept l r) r content)
    (path : Path (fun r => (m'.strs r).next) m'.freestrlist l' none) (fewer : ∀ r' ∈ l', r' ∈ l) (out : r ∉ l') :
    (x.put r content m').Inv l' := by
  have live : ∀ r' ≠ r, (x.put r content m').live r' = x.live r' := fun r' other =>
    Function.update_of_ne other _ _
  have here : (x.put r content m').live r = some content := Function.update_self r _ _
  have kept : ∀ r' ≠ r, (x.put r content m').Kept l' r' → x.Kept l r' := by
    intro r' other used
    rw [Kept, live r' other] at used
    exact used.imp_right (fewer r')
  have distinct : ∀ r' ≠ r, x.Kept l r' → (x.mem.strs r').namex ≠ (m'.strs r).namex := by
    intro r' other used same
    cases writes.namex with
    | inl new =>
        have low := (inv.shaped r' used).block
        omega
    | inr old => exact other (inv.apart r' r used old.1 (same.trans old.2))
  have block : ∀ r' ≠ r, x.Kept l r' → m'.blocks (m'.strs r').namex = x.mem.blocks (x.mem.strs r').namex := by
    intro r' other used
    rw [writes.others r' other]
    apply writes.blocks _ (distinct r' other used)
    exact fun was same => other (inv.apart r' r used was same)
  refine ⟨path, ?_, ?_, ?_, ?_⟩
  · intro r' member
    have other : r' ≠ r := fun same => out (same ▸ member)
    rw [live r' other]
    exact inv.free r' (fewer r' member)
  · intro r' used
    by_cases other : r' = r
    · exact other ▸ writes.shaped
    · have old := inv.shaped r' (kept r' other used)
      refine ⟨old.str.trans_le writes.freshStr, ?_, ?_, ?_⟩
      · show (m'.strs r').namex < m'.freshBlock
        rw [writes.others r' other]
        exact old.block.trans_le writes.freshBlock
      · show ∃ block, m'.blocks (m'.strs r').namex = some block ∧ (m'.strs r').maxlen = block.size
        rw [block r' other (kept r' other used), writes.others r' other]
        exact old.maxlen
      · show (m'.strs r').maxlen ≤ 255 * strblk
        rw [writes.others r' other]
        exact old.small
  · intro r' r'' used used' same
    change (m'.strs r').namex = (m'.strs r'').namex at same
    by_cases other : r' = r
    · by_cases other' : r'' = r
      · rw [other, other']
      · rw [other, writes.others r'' other'] at same
        exact absurd same.symm (distinct r'' other' (kept r'' other' used'))
    · by_cases other' : r'' = r
      · rw [other', writes.others r' other] at same
        exact absurd same (distinct r' other (kept r' other used))
      · rw [writes.others r' other, writes.others r'' other'] at same
        exact inv.apart r' r'' (kept r' other used) (kept r'' other' used') same
  · intro r' content' was
    by_cases other : r' = r
    · rw [other, here] at was
      rw [other, ← Option.some.inj was]
      exact writes.filled
    · rw [live r' other] at was
      have old := inv.filled r' content' was
      have used : x.Kept l r' := .inl (by rw [was]; exact Option.some_ne_none content')
      refine ⟨?_, old.noNul, ?_⟩
      · show ∃ block, m'.blocks (m'.strs r').namex = some block ∧ block.Holds content'
        rw [block r' other used]
        exact old.holds
      · show (m'.strs r').curlen = content'.length + 1
        rw [writes.others r' other]
        exact old.curlen

/-- The first string of the list is used again. -/
theorem Inv.reused {r : Nat} {content : List UInt8} {m' : StrMem} (inv : x.Inv l) (first : x.mem.freestrlist = some r)
    (writes : x.mem.Writes m' (x.Kept l r) r content) (list : m'.freestrlist = (x.mem.strs r).next) :
    ∃ l', (x.put r content m').Inv l' := by
  obtain ⟨rest, rfl, behind⟩ : ∃ rest, l = r :: rest ∧
      Path (fun r => (x.mem.strs r).next) (x.mem.strs r).next rest none := by
    have path := inv.path
    cases l with
    | nil => exact absurd (first.symm.trans path) nofun
    | cons r' rest =>
        obtain ⟨here, behind⟩ := path
        obtain rfl := Option.some.inj (first.symm.trans here)
        exact ⟨rest, rfl, behind⟩
  have out : r ∉ rest := (List.nodup_cons.mp inv.path.nodup).1
  refine ⟨rest, inv.put writes ?_ (fun r' => List.mem_cons_of_mem r) out⟩
  rw [list]
  apply behind.congr
  exact fun r' member => congrArg Str.next (writes.others r' fun same => out (same ▸ member))

/-- The list stays what it is. -/
theorem Inv.added {r : Nat} {content : List UInt8} {m' : StrMem} (inv : x.Inv l) (out : r ∉ l)
    (writes : x.mem.Writes m' (x.Kept l r) r content) (list : m'.freestrlist = x.mem.freestrlist) :
    ∃ l', (x.put r content m').Inv l' := by
  refine ⟨l, inv.put writes ?_ (fun _ member => member) out⟩
  rw [list]
  apply inv.path.congr
  exact fun r' member => congrArg Str.next (writes.others r' fun same => out (same ▸ member))

theorem Inv.first_kept {r : Nat} (inv : x.Inv l) (first : x.mem.freestrlist = some r) : x.Kept l r :=
  .inr (inv.path.mem_iff.mpr ⟨[], first⟩)

theorem Inv.fresh_out (inv : x.Inv l) : x.mem.freshStr ∉ l := fun member =>
  lt_irrefl _ (inv.shaped _ (.inr member)).str

/-- A new string, in a new block. -/
theorem Inv.create {content : List UInt8} {n : Nat} (inv : x.Inv l) (noNul : ∀ b ∈ content, b ≠ 0)
    (fits : content.length < n) (small : n ≤ 255 * strblk) (next : Option Nat) :
    ∃ m', StrMem.strcpy { x.mem with
        strs := Function.update x.mem.strs x.mem.freshStr ⟨x.mem.freshBlock, next, n, content.length + 1⟩
        blocks := Function.update x.mem.blocks x.mem.freshBlock (some ⟨n, x.mem.junk x.mem.freshBlock⟩)
        freshStr := x.mem.freshStr + 1
        freshBlock := x.mem.freshBlock + 1 } x.mem.freshBlock 0 content = some m' ∧
      ∃ l', (x.put x.mem.freshStr content m').Inv l' := by
  obtain ⟨block, copied, size, holds⟩ := StrMem.strcpy_first
    { x.mem with
      strs := Function.update x.mem.strs x.mem.freshStr ⟨x.mem.freshBlock, next, n, content.length + 1⟩
      blocks := Function.update x.mem.blocks x.mem.freshBlock (some ⟨n, x.mem.junk x.mem.freshBlock⟩)
      freshStr := x.mem.freshStr + 1
      freshBlock := x.mem.freshBlock + 1 }
    content
    (Function.update_self x.mem.freshBlock _ _) fits
  refine ⟨_, copied, inv.added inv.fresh_out ?_ rfl⟩
  apply StrMem.Writes.moved (Nat.le_succ _) (Nat.lt_succ_self _) (Function.update_self _ _ _)
  · intro b other _
    dsimp only
    rw [Function.update_of_ne other, Function.update_of_ne other]
  · rfl
  · exact congrArg Int.ofNat size.symm
  · show (n : Int) ≤ 255 * strblk
    exact_mod_cast small
  · rfl
  · exact holds
  · exact noNul

theorem Inv.newBlankstr (inv : x.Inv l) :
    ∃ m' r, x.mem.newBlankstr = some (m', r) ∧ ∃ l', (x.put r [] m').Inv l' := by
  obtain ⟨m', copied, done⟩ := @Inv.create x l [] strblk inv nofun (by decide) (by decide)
    (x.mem.strs x.mem.freshStr).next
  have create : ((x.mem.malloc strblk).bind fun (m, b) =>
      let str := { m.strs x.mem.freshStr with namex := b, maxlen := toShort strblk, curlen := 1 }
      ({ m with freshStr := x.mem.freshStr + 1 }.set x.mem.freshStr str |>.strcpy b 0 []).map fun m =>
        (m, x.mem.freshStr)) = some (m', x.mem.freshStr) := by
    rw [StrMem.malloc_spec (by decide), Option.bind_some]
    exact congrArg (Option.map fun m => (m, x.mem.freshStr)) copied
  unfold StrMem.newBlankstr
  cases first : x.mem.freestrlist with
  | none => exact ⟨m', x.mem.freshStr, create, done⟩
  | some r =>
      dsimp only
      split_ifs with roomy
      · have kept := inv.first_kept first
        have shaped := inv.shaped r kept
        obtain ⟨block, there, size⟩ := shaped.maxlen
        have small := shaped.small
        have fits : ([] : List UInt8).length < block.size := by
          rw [size] at roomy
          rw [List.length_nil]
          unfold strblk at *
          omega
        obtain ⟨block', copied, size', holds⟩ := StrMem.strcpy_first
          { x.mem with
            strs := Function.update x.mem.strs r { x.mem.strs r with curlen := 1 }
            freestrlist := (x.mem.strs r).next }
          [] there fits
        refine ⟨_, r, congrArg (Option.map fun m => (m, r)) copied, ?_⟩
        apply inv.reused first ?_ rfl
        exact StrMem.Writes.inPlace shaped kept there rfl rfl rfl size' holds nofun
      · exact ⟨m', x.mem.freshStr, create, done⟩

theorem Inv.newStr (inv : x.Inv l) (s : Option CString) (fits : x.Fits (.newStr s)) :
    ∃ m' r, x.mem.newStr s = some (m', r) ∧ ∃ l', (x.put r (bytesOf s) m').Inv l' := by
  cases s with
  | none => exact inv.newBlankstr
  | some s =>
      have short : s.bytes.length + 1 ≤ 255 * strblk := fits
      obtain ⟨above, small⟩ := roundUp_small short
      have curlen : toShort (s.bytes.length + 1) = s.bytes.length + 1 :=
        toShort_of_small (by omega) (by unfold strblk at short; omega)
      have maxlen : toShort (roundUp (toShort (s.bytes.length + 1))) = roundUp (s.bytes.length + 1 : Nat) := by
        rw [curlen, ← Nat.cast_add_one]
        exact toShort_of_small (Int.natCast_nonneg _) (by unfold strblk at small; omega)
      unfold StrMem.newStr
      dsimp only
      rw [maxlen, curlen]
      cases first : x.mem.freestrlist with
      | none =>
          obtain ⟨m', copied, done⟩ := inv.create s.noNul (Nat.lt_of_succ_le above) small
            (x.mem.strs x.mem.freshStr).next
          refine ⟨m', x.mem.freshStr, ?_, done⟩
          dsimp only
          rw [StrMem.malloc_spec (Int.natCast_nonneg _), Option.bind_some]
          exact congrArg (Option.map fun m => (m, x.mem.freshStr)) copied
      | some r =>
          dsimp only
          have kept := inv.first_kept first
          have shaped := inv.shaped r kept
          split_ifs with narrow
          · obtain ⟨block, copied, size, holds⟩ := StrMem.strcpy_first
              { x.mem with
                strs := Function.update x.mem.strs r
                  ⟨x.mem.freshBlock, (x.mem.strs r).next, roundUp (s.bytes.length + 1 : Nat), s.bytes.length + 1⟩
                blocks := Function.update (Function.update x.mem.blocks (x.mem.strs r).namex none) x.mem.freshBlock
                  (some ⟨roundUp (s.bytes.length + 1 : Nat), x.mem.junk x.mem.freshBlock⟩)
                freestrlist := (x.mem.strs r).next
                freshBlock := x.mem.freshBlock + 1 }
              s.bytes
              (Function.update_self x.mem.freshBlock _ _) (Nat.lt_of_succ_le above)
            rw [StrMem.malloc_spec (Int.natCast_nonneg _), Option.bind_some]
            refine ⟨_, r, congrArg (Option.map fun m => (m, r)) copied, ?_⟩
            apply inv.reused first ?_ rfl
            apply StrMem.Writes.moved le_rfl shaped.str (Function.update_self _ _ _)
            · intro b other apart
              dsimp only
              rw [Function.update_of_ne other, Function.update_of_ne other, Function.update_of_ne (apart kept)]
            · rfl
            · exact congrArg Int.ofNat size.symm
            · show (roundUp (s.bytes.length + 1 : Nat) : Int) ≤ 255 * strblk
              exact_mod_cast small
            · rfl
            · exact holds
            · exact s.noNul
          · obtain ⟨block, there, size⟩ := shaped.maxlen
            have roomy : s.bytes.length < block.size := by omega
            obtain ⟨block', copied, size', holds⟩ := StrMem.strcpy_first
              { x.mem with
                strs := Function.update x.mem.strs r { x.mem.strs r with curlen := s.bytes.length + 1 }
                freestrlist := (x.mem.strs r).next }
              s.bytes there roomy
            refine ⟨_, r, congrArg (Option.map fun m => (m, r)) copied, ?_⟩
            apply inv.reused first ?_ rfl
            exact StrMem.Writes.inPlace shaped kept there rfl rfl rfl size' holds s.noNul

theorem live_content {r : Nat} (live : x.live r ≠ none) : x.live r = some (x.content r) := by
  obtain ⟨content, there⟩ := Option.ne_none_iff_exists'.mp live
  rw [Strings.content, there, Option.getD_some]

/-- A string that is used grows. -/
theorem Inv.extend {r : Nat} {text : List UInt8} {size : Int} (inv : x.Inv l) (live : x.live r ≠ none)
    (noNul : ∀ b ∈ text, b ≠ 0) (short : (x.content r).length + text.length < 255 * strblk)
    (size_eq : size = (x.content r).length + text.length + 1) :
    ∃ m', x.mem.extend r size text = some m' ∧ ∃ l', (x.put r (x.content r ++ text) m').Inv l' := by
  have was := live_content live
  have kept : x.Kept l r := .inl live
  have out : r ∉ l := fun member => live (inv.free r member)
  have shaped := inv.shaped r kept
  have filled := inv.filled r _ was
  have curlen : (x.mem.strs r).curlen - 1 = (x.content r).length := by
    rw [filled.curlen]
    exact add_sub_cancel_right _ _
  have noNul' : ∀ b ∈ x.content r ++ text, b ≠ 0 := by
    intro b member
    exact (List.mem_append.mp member).elim (filled.noNul b) (noNul b)
  have sizeShort : toShort size = (x.content r ++ text).length + 1 := by
    rw [size_eq, List.length_append]
    push_cast
    exact toShort_of_small (by omega) (by unfold strblk at short; omega)
  obtain ⟨block, there, holds⟩ := filled.holds
  unfold StrMem.extend
  dsimp only
  rw [sizeShort]
  split_ifs with narrow
  · have size_nat : size = ((x.content r).length + text.length + 1 : Nat) := by
      rw [size_eq]
      push_cast
      rfl
    obtain ⟨above, small⟩ := roundUp_small (n := (x.content r).length + text.length + 1) short
    rw [← size_nat] at above small
    have roomy : (x.content r).length + text.length < roundUp size := Nat.lt_of_succ_le above
    have asked : toInt (roundUp size) = roundUp size :=
      toInt_of_small (Int.natCast_nonneg _) (by unfold strblk at small; omega)
    have stored : toShort (roundUp size) = roundUp size :=
      toShort_of_small (Int.natCast_nonneg _) (by unfold strblk at small; omega)
    have apart : (x.mem.strs r).namex ≠ x.mem.freshBlock := shaped.block.ne
    have old : StrMem.strString { x.mem with
        blocks := Function.update x.mem.blocks x.mem.freshBlock (some ⟨roundUp size, x.mem.junk x.mem.freshBlock⟩)
        freshBlock := x.mem.freshBlock + 1 } r = some (x.content r) := by
      apply StrMem.text_of_holds ?_ holds filled.noNul
      exact (Function.update_of_ne apart _ _).trans there
    obtain ⟨block₁, copied₁, size₁, holds₁⟩ := StrMem.strcpy_first
      { x.mem with
        blocks := Function.update x.mem.blocks x.mem.freshBlock (some ⟨roundUp size, x.mem.junk x.mem.freshBlock⟩)
        freshBlock := x.mem.freshBlock + 1 }
      (x.content r)
      (Function.update_self x.mem.freshBlock _ _) ((Nat.le_add_right _ _).trans_lt roomy)
    obtain ⟨block₂, copied₂, size₂, holds₂⟩ := StrMem.strcpy_spec
      { x.mem with
        blocks := Function.update (Function.update x.mem.blocks x.mem.freshBlock
          (some ⟨roundUp size, x.mem.junk x.mem.freshBlock⟩)) x.mem.freshBlock (some block₁)
        freshBlock := x.mem.freshBlock + 1 }
      text
      (Function.update_self x.mem.freshBlock _ _) holds₁.before (roomy.trans_eq size₁.symm)
    rw [asked, stored, StrMem.malloc_spec (Int.natCast_nonneg _), Option.bind_some]
    dsimp only [Int.toNat_natCast]
    rw [old, Option.bind_some, copied₁, Option.bind_some, curlen, copied₂]
    refine ⟨_, rfl, inv.added out ?_ rfl⟩
    apply StrMem.Writes.moved le_rfl shaped.str
    · show _ = some block₂
      dsimp only [StrMem.free]
      rw [Function.update_of_ne apart.symm, Function.update_self]
    · intro b other moved
      dsimp only [StrMem.free]
      rw [Function.update_of_ne (moved kept), Function.update_of_ne other, Function.update_of_ne other,
        Function.update_of_ne other]
    · rfl
    · exact congrArg Int.ofNat (size₂.trans size₁).symm
    · show (roundUp size : Int) ≤ 255 * strblk
      exact_mod_cast small
    · rfl
    · exact holds₂
    · exact noNul'
  · have blockSize : (x.mem.strs r).maxlen = block.size := by
      obtain ⟨block', there', size'⟩ := shaped.maxlen
      rwa [Option.some.inj (there.symm.trans there')]
    obtain ⟨block', copied, size', holds'⟩ := StrMem.strcpy_spec x.mem text there holds.before (by omega)
    rw [curlen, copied]
    refine ⟨_, rfl, inv.added out ?_ rfl⟩
    exact StrMem.Writes.inPlace shaped kept there rfl rfl rfl size' holds' noNul'

theorem put_same {r : Nat} (live : x.live r ≠ none) : x.put r (x.content r ++ []) x.mem = x := by
  have same : Function.update x.live r (some (x.content r ++ [])) = x.live := by
    rw [List.append_nil, ← live_content live]
    exact Function.update_eq_self r x.live
  rw [put, same]

/-- What `str_cat` asks for. -/
theorem Inv.cat_size {r r2 : Nat} (inv : x.Inv l) (live : x.live r ≠ none) (live2 : x.live r2 ≠ none) :
    (x.mem.strs r).curlen + (x.mem.strs r2).curlen - 1 = (x.content r).length + (x.content r2).length + 1 := by
  rw [(inv.filled r _ (live_content live)).curlen, (inv.filled r2 _ (live_content live2)).curlen]
  omega

theorem Inv.short {r : Nat} (inv : x.Inv l) (live : x.live r ≠ none) : (x.content r).length < 255 * strblk := by
  have whole := inv.whole (live_content live)
  have small := (inv.shaped r (.inl live)).small
  have room := whole.room
  rw [whole.curlen] at room
  omega

theorem Inv.del {r : Nat} (inv : x.Inv l) (live : x.live r ≠ none) :
    Inv ⟨x.mem.delStr (some r), Function.update x.live r none⟩ (r :: l) := by
  have out : r ∉ l := fun member => live (inv.free r member)
  have namex : ∀ r', ((x.mem.delStr (some r)).strs r').namex = (x.mem.strs r').namex ∧
      ((x.mem.delStr (some r)).strs r').maxlen = (x.mem.strs r').maxlen ∧
      ((x.mem.delStr (some r)).strs r').curlen = (x.mem.strs r').curlen := by
    intro r'
    dsimp only [StrMem.delStr, StrMem.set]
    by_cases same : r' = r
    · rw [same, Function.update_self]
      exact ⟨rfl, rfl, rfl⟩
    · rw [Function.update_of_ne same]
      exact ⟨rfl, rfl, rfl⟩
  have kept : ∀ r', Kept ⟨x.mem.delStr (some r), Function.update x.live r none⟩ (r :: l) r' → x.Kept l r' := by
    intro r' used
    by_cases same : r' = r
    · exact same ▸ .inl live
    · cases used with
      | inl there =>
          dsimp only at there
          rw [Function.update_of_ne same] at there
          exact .inl there
      | inr member => exact .inr ((List.mem_cons.mp member).resolve_left same)
  refine ⟨⟨rfl, ?_⟩, ?_, ?_, ?_, ?_⟩
  · have next : ((x.mem.delStr (some r)).strs r).next = x.mem.freestrlist := by
      dsimp only [StrMem.delStr, StrMem.set]
      rw [Function.update_self]
    dsimp only
    rw [next]
    apply inv.path.congr
    intro r' member
    have other : r' ≠ r := fun same => out (same ▸ member)
    exact congrArg Str.next (Function.update_of_ne other _ _)
  · intro r' member
    dsimp only
    by_cases same : r' = r
    · rw [same, Function.update_self]
    · rw [Function.update_of_ne same]
      exact inv.free r' ((List.mem_cons.mp member).resolve_left same)
  · intro r' used
    have old := inv.shaped r' (kept r' used)
    obtain ⟨block, maxlen, -⟩ := namex r'
    exact ⟨old.str, block ▸ old.block, block ▸ maxlen ▸ old.maxlen, maxlen ▸ old.small⟩
  · intro r' r'' used used' same
    rw [(namex r').1, (namex r'').1] at same
    exact inv.apart r' r'' (kept r' used) (kept r'' used') same
  · intro r' content was
    dsimp only at was
    have other : r' ≠ r := by
      intro same
      rw [same, Function.update_self] at was
      exact absurd was nofun
    rw [Function.update_of_ne other] at was
    have old := inv.filled r' content was
    obtain ⟨block, -, curlen⟩ := namex r'
    exact ⟨block ▸ old.holds, old.noNul, curlen.trans old.curlen⟩

/-- A call that makes no long string is defined. -/
theorem Inv.step_fits {call : StrCall} (inv : x.Inv l) (allowed : x.Allowed call) (fits : x.Fits call) :
    ∃ y, x.step call = some y ∧ ∃ l', y.Inv l' := by
  cases call with
  | newBlank =>
      obtain ⟨m', r, made, done⟩ := inv.newBlankstr
      exact ⟨_, by rw [step, made, Option.map_some], done⟩
  | newStr s =>
      obtain ⟨m', r, made, done⟩ := inv.newStr s fits
      exact ⟨_, by rw [step, made, Option.map_some], done⟩
  | append r s =>
      cases s with
      | none => exact ⟨x, congrArg some (put_same allowed), l, inv⟩
      | some s =>
          have short : (x.content r).length + s.bytes.length < 255 * strblk := fits
          have size : toInt (s.bytes.length + (x.mem.strs r).curlen) = (x.content r).length + s.bytes.length + 1 := by
            rw [(inv.filled r _ (live_content allowed)).curlen, toInt_of_small (by omega)
              (by unfold strblk at short; omega)]
            omega
          obtain ⟨m', made, done⟩ := inv.extend allowed s.noNul short size
          exact ⟨_, congrArg (Option.map _) made, done⟩
  | cat r str2 =>
      cases str2 with
      | none => exact ⟨x, congrArg some (put_same allowed.1), l, inv⟩
      | some r2 =>
          obtain ⟨live, both⟩ := allowed
          have live2 := (both r2 rfl).1
          have filled := inv.filled r2 _ (live_content live2)
          obtain ⟨m', made, done⟩ := inv.extend live filled.noNul fits (inv.cat_size live live2)
          have read : x.mem.strCat r (some r2) = some m' := by
            rw [StrMem.strCat, (inv.whole (live_content live2)).holds, Option.bind_some, made]
          exact ⟨_, congrArg (Option.map _) read, done⟩
  | del str =>
      cases str with
      | none => exact ⟨x, rfl, l, inv⟩
      | some r => exact ⟨_, rfl, r :: l, inv.del (allowed r rfl)⟩

/-- A string that grows to 32640 bytes or more is not whole. -/
theorem Inv.extend_sound {r : Nat} {text : List UInt8} {size : Int} {m' : StrMem} (inv : x.Inv l)
    (live : x.live r ≠ none) (made : x.mem.extend r size text = some m')
    (size_eq : size = toInt ((x.content r).length + text.length + 1))
    (sound : (x.put r (x.content r ++ text) m').Sound) : (x.content r).length + text.length < 255 * strblk := by
  obtain ⟨stored, block⟩ := StrMem.extend_fields made
  have whole := sound r _ (Function.update_self r _ _)
  rw [← List.length_append]
  apply fields_short whole.curlen whole.room (stored ▸ toShort_le size)
  · refine .inr (block.imp_right fun same => ?_)
    have small := (inv.shaped r (.inl live)).small
    exact same.le.trans small
  · right
    rw [size_eq, List.length_append, Nat.cast_add]

/-- Only such calls leave the strings whole. -/
theorem Inv.step_sound {call : StrCall} (inv : x.Inv l) (allowed : x.Allowed call) (taken : x.step call = some y)
    (sound : y.Sound) : x.Fits call := by
  cases call with
  | newBlank => exact trivial
  | newStr s =>
      cases s with
      | none => exact (by decide : 0 < 255 * strblk)
      | some s =>
          obtain ⟨⟨m', r⟩, made, rfl⟩ := Option.map_eq_some_iff.mp taken
          obtain ⟨stored, block⟩ := StrMem.newStr_fields made
          have whole := sound r _ (Function.update_self r _ _)
          have current : (m'.strs r).curlen = s.bytes.length + 1 := whole.curlen
          apply fields_short current whole.room (stored ▸ toShort_le _) ?_ (.inl stored.symm)
          refine block.imp_right fun ⟨first, same⟩ => .inr ?_
          exact same.le.trans (inv.shaped r (inv.first_kept first)).small
  | append r s =>
      cases s with
      | none => exact inv.short allowed
      | some s =>
          obtain ⟨m', made, rfl⟩ := Option.map_eq_some_iff.mp taken
          apply inv.extend_sound allowed made ?_ sound
          rw [(inv.filled r _ (live_content allowed)).curlen]
          congr 1
          omega
  | cat r str2 =>
      cases str2 with
      | none => exact inv.short allowed.1
      | some r2 =>
          obtain ⟨live, both⟩ := allowed
          have live2 := (both r2 rfl).1
          obtain ⟨m', made, rfl⟩ := Option.map_eq_some_iff.mp taken
          rw [StrMem.strCat, (inv.whole (live_content live2)).holds, Option.bind_some] at made
          apply inv.extend_sound live made ?_ sound
          have short := inv.short live
          have short2 := inv.short live2
          rw [inv.cat_size live live2, toInt_of_small (by omega) (by unfold strblk at short short2; omega)]
  | del str => exact trivial

theorem Inv.run_sound_iff {calls : List StrCall} (inv : x.Inv l) (valid : Valid x calls) :
    AllSound x calls ↔ AllFit x calls := by
  induction calls generalizing x l with
  | nil => exact Iff.rfl
  | cons call calls ih =>
      obtain ⟨allowed, rest⟩ := valid
      constructor
      · rintro ⟨y, taken, sound, behind⟩
        have fits := inv.step_sound allowed taken sound
        refine ⟨fits, fun y' taken' => ?_⟩
        obtain ⟨y'', made, l', inv'⟩ := inv.step_fits allowed fits
        obtain rfl := Option.some.inj (taken.symm.trans taken')
        obtain rfl := Option.some.inj (taken.symm.trans made)
        exact (ih inv' (rest y taken)).mp behind
      · rintro ⟨fits, behind⟩
        obtain ⟨y, taken, l', inv'⟩ := inv.step_fits allowed fits
        exact ⟨y, taken, inv'.sound, (ih inv' (rest y taken)).mpr (behind y taken)⟩

end Strings

/-- The strings are whole after every call exactly when none of 32640 bytes or more is made. -/
theorem strings_sound_iff {junk : Nat → Nat → UInt8} {calls : List StrCall}
    (valid : Strings.Valid (Strings.start junk) calls) :
    Strings.AllSound (Strings.start junk) calls ↔ Strings.AllFit (Strings.start junk) calls :=
  (Strings.Inv.start junk).run_sound_iff valid

/-- `ab` is made, `cd` follows, and the string is given back. -/
theorem strings_sound_pieces : Strings.AllSound (Strings.start fun _ _ => 0)
    [.newStr (some ⟨[97, 98], by simp⟩), .append 0 (some ⟨[99, 100], by simp⟩), .del (some 0), .newBlank] := by
  refine (strings_sound_iff ?_).mpr ?_
  · refine ⟨trivial, fun y taken => ⟨?_, fun y' taken' => ⟨?_, fun _ _ => ⟨trivial, fun _ _ => trivial⟩⟩⟩⟩
    · cases taken
      exact Option.some_ne_none _
    · cases taken
      cases taken'
      rintro r ⟨rfl⟩
      exact Option.some_ne_none _
  · refine ⟨(by decide : 2 < 255 * strblk), fun y taken =>
      ⟨?_, fun _ _ => ⟨trivial, fun _ _ => ⟨trivial, fun _ _ => trivial⟩⟩⟩⟩
    cases taken
    exact (by decide : 2 + 2 < 255 * strblk)

/-- A string of 32640 bytes. -/
def longText : CString where
  bytes := List.replicate (255 * strblk) 97
  noNul _ member := by
    rw [List.eq_of_mem_replicate member]
    decide

theorem strings_long :
    Strings.Valid (Strings.start fun _ _ => 0) [.newStr (some longText)] ∧
      ¬ Strings.AllSound (Strings.start fun _ _ => 0) [.newStr (some longText)] := by
  have valid : Strings.Valid (Strings.start fun _ _ => 0) [.newStr (some longText)] := ⟨trivial, fun _ _ => trivial⟩
  refine ⟨valid, fun sound => ?_⟩
  have fits := ((Strings.Inv.start _).run_sound_iff valid).mp sound
  have short : (List.replicate (255 * strblk) (97 : UInt8)).length < 255 * strblk := fits.1
  rw [List.length_replicate] at short
  exact lt_irrefl _ short

end Tmpi.Mpitrans
