import Tmpi.Mpitrans.SymbolTable
import Mathlib.Data.List.Perm.Subperm

/-! What the string buffer and the hash table hold, and what `findsym` finds there. -/

namespace Tmpi.Mpitrans

namespace StrBuf

variable {sb sb' : StrBuf} {offset offset' : Int} {bytes other : List UInt8} {limit limit' : Nat}

/-- The string is in the buffer at the offset, and ends before the limit. -/
structure Holds (sb : StrBuf) (offset : Int) (bytes : List UInt8) (limit : Nat) : Prop where
  low : 0 ≤ offset
  ends : offset.toNat + bytes.length < limit
  byte : ∀ i (inside : i < (bytes ++ [0]).length), sb.buf (offset.toNat + i) = (bytes ++ [0])[i]

theorem Holds.mono (holds : sb.Holds offset bytes limit) (le : limit ≤ limit') :
    sb.Holds offset bytes limit' :=
  { holds with ends := lt_of_lt_of_le holds.ends le }

theorem Holds.congr (holds : sb.Holds offset bytes limit)
    (same : ∀ place < limit, sb'.buf place = sb.buf place) : sb'.Holds offset bytes limit where
  low := holds.low
  ends := holds.ends
  byte i inside := by
    have long : (bytes ++ [0]).length = bytes.length + 1 := by simp
    rw [same _ (by have := holds.ends; omega), holds.byte i inside]

theorem read_of_bytes {room place : Nat} (fits : bytes.length < room) (noNul : ∀ b ∈ bytes, b ≠ 0)
    (byte : ∀ i (inside : i < (bytes ++ [0]).length), sb.buf (place + i) = (bytes ++ [0])[i]) :
    sb.read room place = some bytes := by
  induction bytes generalizing room place with
  | nil =>
      obtain ⟨room, rfl⟩ : ∃ m, room = m + 1 := ⟨room - 1, by simp at fits; omega⟩
      rw [read, if_pos]
      simpa using byte 0 (by simp)
  | cons b bytes ih =>
      obtain ⟨room, rfl⟩ : ∃ m, room = m + 1 := ⟨room - 1, by simp at fits; omega⟩
      have first : sb.buf place = b := by simpa using byte 0 (by simp)
      have rest : sb.read room (place + 1) = some bytes := by
        apply ih
        · simpa using fits
        · exact fun c member => noNul c (List.mem_cons_of_mem b member)
        · intro i inside
          have next := byte (i + 1) (by simpa using inside)
          rwa [show place + (i + 1) = place + 1 + i by omega] at next
      rw [read, first, if_neg (noNul b List.mem_cons_self), rest, Option.map_some]

theorem Holds.string (holds : sb.Holds offset bytes limit) (le : limit ≤ strbufSize)
    (noNul : ∀ b ∈ bytes, b ≠ 0) : sb.string offset = some bytes := by
  rw [StrBuf.string, if_neg (not_lt.mpr holds.low)]
  exact read_of_bytes (by have := holds.ends; omega) noNul holds.byte

/-- What is copied is there, and the bytes before it stay. -/
theorem strcpy_spec (sb : StrBuf) (offset : Int) (bytes : List UInt8) (low : 0 ≤ offset)
    (fits : offset.toNat + bytes.length < strbufSize) :
    ∃ buf, sb.strcpy offset bytes = some { sb with buf := buf } ∧
      Holds { sb with buf := buf } offset bytes (offset.toNat + bytes.length + 1) ∧
      ∀ place < offset.toNat, buf place = sb.buf place := by
  refine ⟨_, by rw [strcpy, if_pos ⟨low, fits⟩], ⟨low, Nat.lt_succ_self _, ?_⟩, ?_⟩
  · intro i inside
    dsimp only
    rw [if_pos (Nat.le_add_right _ _), Nat.add_sub_cancel_left, List.getElem?_eq_getElem inside,
      Option.getD_some]
  · intro place before
    exact if_neg (not_le.mpr before)

end StrBuf

section Find

variable {t : Translator} {key : List UInt8} {decls live : List Decl} {d : Decl} {r : Nat}

/-- The symbol of the declaration has its name. -/
def Translator.Named (t : Translator) (d : Decl) : Prop := t.symstr d.ref = some d.name.bytes

theorem findLoop_eq {slot : Slot Nat Nat} {fuel : Nat}
    (linked : t.symTab.links.Linked slot (decls.map Decl.ref)) (named : ∀ d ∈ decls, t.Named d)
    (enough : decls.length < fuel) :
    t.findLoop key fuel (t.symTab.links.target slot) =
      some ((decls.find? fun d => d.name.bytes = key).map Decl.ref) := by
  induction decls generalizing slot fuel with
  | nil =>
      obtain ⟨fuel, rfl⟩ : ∃ m, fuel = m + 1 := ⟨fuel - 1, by simp at enough; omega⟩
      have last : t.symTab.links.target slot = none := linked
      rw [last, Translator.findLoop]
      rfl
  | cons d decls ih =>
      obtain ⟨fuel, rfl⟩ : ∃ m, fuel = m + 1 := ⟨fuel - 1, by simp at enough; omega⟩
      obtain ⟨first, -, rest⟩ := linked
      have name : t.symstr d.ref = some d.name.bytes := named d List.mem_cons_self
      rw [first, Translator.findLoop, name]
      dsimp only
      by_cases same : d.name.bytes = key
      · rw [if_pos same, List.find?_cons_of_pos (by simpa using same), Option.map_some]
      · rw [if_neg same, List.find?_cons_of_neg (by simpa using same)]
        exact ih rest (fun e member => named e (List.mem_cons_of_mem d member)) (by simpa using enough)

/-- The symbols of the declarations that are in bucket `i`. -/
def chain (live : List Decl) (i : Nat) : List Nat :=
  (live.filter fun d => bucketOf d.name.bytes = i).map Decl.ref

/-- The table holds the declarations: each bucket those with its hash, the last one first. -/
structure Table (tab : HashTab) (live : List Decl) : Prop where
  lists : tab.links.Lists (chain live)
  once : (live.map Decl.ref).Nodup
  count : tab.numsyms = live.length

theorem length_le_of_fresh {l : List Nat} {fresh : Nat} (once : l.Nodup) (low : ∀ x ∈ l, x < fresh) :
    l.length ≤ fresh := by
  have within : l ⊆ List.range fresh := fun x member => List.mem_range.mpr (low x member)
  have bound := (once.subperm within).length_le
  rwa [List.length_range] at bound

theorem findsym_eq (key : List UInt8) (table : Table t.symTab live) (named : ∀ d ∈ live, t.Named d)
    (low : ∀ d ∈ live, d.ref < t.fresh) :
    t.findsym key = some ((live.find? fun d => d.name.bytes = key).map Decl.ref) := by
  have short : (chain live (bucketOf key)).length ≤ t.fresh := by
    apply length_le_of_fresh (table.lists.once _)
    intro x member
    obtain ⟨d, within, rfl⟩ := List.mem_map.mp member
    exact low d (List.mem_of_mem_filter within)
  rw [chain, List.length_map] at short
  rw [Translator.findsym, findLoop_eq (table.lists.linked (bucketOf key))
    (fun d member => named d (List.mem_of_mem_filter member)) (by omega), List.find?_filter]
  congr 2
  apply congrArg (List.find? · live)
  funext d
  by_cases same : d.name.bytes = key
  · simp [same]
  · simp [same]

theorem mem_chain {i : Nat} :
    r ∈ chain live i ↔ ∃ d ∈ live, d.ref = r ∧ bucketOf d.name.bytes = i := by
  rw [chain, List.mem_map]
  constructor
  · rintro ⟨d, member, rfl⟩
    exact ⟨d, List.mem_of_mem_filter member, rfl, of_decide_eq_true (List.mem_filter.mp member).2⟩
  · rintro ⟨d, member, rfl, place⟩
    exact ⟨d, List.mem_filter.mpr ⟨member, decide_eq_true place⟩, rfl⟩

theorem addsym_spec (table : Table t.symTab live) (named : t.Named d)
    (new : d.ref ∉ live.map Decl.ref) :
    ∃ tab, t.addsym d.ref = some { t with symTab := tab } ∧ Table tab (d :: live) := by
  refine ⟨_, by rw [Translator.addsym, named, Option.map_some], ?_, ?_, ?_⟩
  · have absent : ∀ i, d.ref ∉ chain live i := by
      intro i member
      obtain ⟨e, within, same, -⟩ := mem_chain.mp member
      exact new (same ▸ List.mem_map_of_mem within)
    have pushed := table.lists.push (bucketOf d.name.bytes) absent
    have equal : chain (d :: live) = Function.update (chain live) (bucketOf d.name.bytes)
        (d.ref :: chain live (bucketOf d.name.bytes)) := by
      funext i
      by_cases same : bucketOf d.name.bytes = i
      · subst same
        rw [Function.update_self, chain, List.filter_cons_of_pos (by simp), List.map_cons, chain]
      · rw [Function.update_of_ne (Ne.symm same), chain, List.filter_cons_of_neg (by simpa using same), chain]
    rw [equal]
    exact pushed
  · exact List.nodup_cons.mpr ⟨new, table.once⟩
  · dsimp only
    rw [table.count, List.length_cons, Nat.cast_add, Nat.cast_one]

theorem delsym_spec (table : Table t.symTab live) (member : r ∈ live.map Decl.ref) :
    ∃ tab, t.delsym r = some { t with symTab := tab } ∧ Table tab (live.filter fun d => d.ref ≠ r) := by
  obtain ⟨d, within, rfl⟩ := List.mem_map.mp member
  have place : d.ref ∈ chain live (bucketOf d.name.bytes) := mem_chain.mpr ⟨d, within, rfl, rfl⟩
  obtain ⟨links, taken, lists⟩ := table.lists.unlink place
  refine ⟨_, by rw [Translator.delsym, taken, Option.map_some], ?_, ?_, ?_⟩
  · have equal : chain (live.filter fun e => e.ref ≠ d.ref) = fun i => (chain live i).filter (· ≠ d.ref) := by
      funext i
      rw [chain, chain, List.filter_map, List.filter_filter, List.filter_filter]
      congr 1
      apply List.filter_congr
      intro e _
      exact Bool.and_comm _ _
    rw [equal]
    exact lists
  · exact table.once.sublist (List.Sublist.map _ List.filter_sublist)
  · have parts : (live.map Decl.ref).length = ((live.map Decl.ref).erase d.ref).length + 1 := by
      rw [List.length_erase_of_mem member]
      have positive := List.length_pos_of_mem member
      omega
    have rest : (live.filter fun e => e.ref ≠ d.ref).length = ((live.map Decl.ref).erase d.ref).length := by
      rw [table.once.erase_eq_filter, List.filter_map, List.length_map]
      congr 1
      apply List.filter_congr
      intro e _
      rw [Function.comp_apply, bne, beq_eq_decide, decide_not]
    rw [List.length_map] at parts
    dsimp only
    rw [table.count]
    omega

end Find

end Tmpi.Mpitrans
