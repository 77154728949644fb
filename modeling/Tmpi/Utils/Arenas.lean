import Tmpi.Utils.Mbuffer

/-! The message buffers of one thread over whole runs: its system buffer, the buffer that the
user has attached, and the items in both. -/

namespace Tmpi.Utils

open Tiling

/-- The buffers, the items that are in use with the sizes asked for, and the address and size of
the system buffer and of the attached one. -/
structure Arenas where
  mb : Mbuffer
  live : List (Nat × Nat)
  sys : Nat × Nat
  usr : Option (Nat × Nat)

/-- The address is in the buffer. -/
def inside (arena : Nat × Nat) (a : Nat) : Prop := arena.1 ≤ a ∧ a < arena.1 + arena.2

instance (arena : Nat × Nat) (a : Nat) : Decidable (inside arena a) := inferInstanceAs (Decidable (_ ∧ _))

/-- The two buffers do not overlap. -/
def Disjoint (arena other : Nat × Nat) : Prop :=
  arena.1 + arena.2 ≤ other.1 ∨ other.1 + other.2 ≤ arena.1

/-- `sizeof(BufferHandle)` -/
def handleSize : Nat := 16

inductive Step : Arenas → Arenas → Prop where
  | alloc {s : Arenas} {mb : Mbuffer} {item : Option Nat} (fuel : Nat) (isize : BitVec 32)
      (positive : 0 ≤ isize.toInt) (returned : s.mb.mbAlloc fuel isize = some (mb, item)) :
      Step s { s with mb, live := (item.map (·, isize.toNat)).toList ++ s.live }
  | free {s : Arenas} (item n : Nat) (used : (item, n) ∈ s.live) :
      Step s { s with mb := s.mb.mbFree item, live := s.live.erase (item, n) }
  /-- The user hands over memory of its own. -/
  | attach {s : Arenas} (buf bsize : Nat) (header : bufHeaderSize ≤ bsize)
      (apart : Disjoint s.sys (buf, bsize)) :
      Step s { s with
        mb := (s.mb.mbAttachBuffer buf bsize).1
        usr := if (s.mb.mbAttachBuffer buf bsize).2 then some (buf, bsize) else s.usr }
  | detach {s : Arenas} :
      Step s { s with
        mb := s.mb.mbDetachBuffer.1
        usr := if s.mb.mbDetachBuffer.2.2 then none else s.usr }
  /-- Bytes of an item in use are written. -/
  | write {s : Arenas} (item n : Nat) (heap : Nat → BufferHandle) (used : (item, n) ∈ s.live)
      (elsewhere : ∀ a, a + handleSize ≤ item ∨ item + n ≤ a → heap a = s.mb.heap a) :
      Step s { s with mb := { s.mb with heap } }

/-- The states of a thread that has called `mb_init` for a buffer of `bsize` bytes. -/
inductive Reach : Arenas → Prop where
  | init (heap : Nat → BufferHandle) (base bsize : Nat) (header : bufHeaderSize ≤ bsize) :
      Reach ⟨mbInit heap base bsize, [], (base, bsize), none⟩
  | step {s s' : Arenas} : Reach s → Step s s' → Reach s'

/-! ## One buffer -/

/-- The items in a row of blocks: they begin behind the headers. -/
def held (base : Nat) (bs : List (Block Nat)) : List (Nat × Nat) :=
  (items base bs).map fun item => (item.1 + bufHeaderSize, item.2)

/-- The headers of a buffer are those of blocks that fill it, with room for what they hold. -/
structure ArenaOk (heap : Nat → BufferHandle) (arena : Nat × Nat) (bs : List (Block Nat)) : Prop where
  header : bufHeaderSize ≤ arena.2
  laid : Laid heap none arena.1 bs none
  tiles : Tiles bufHeaderSize arena.2 bs
  room : ∀ b ∈ bs, ∀ n, b.held = some n → n + bufHeaderSize ≤ b.size

variable {heap heap' : Nat → BufferHandle} {arena : Nat × Nat} {bs : List (Block Nat)} {item n a : Nat}

theorem header_pos : 0 < bufHeaderSize := by decide

namespace ArenaOk

theorem positive (ok : ArenaOk heap arena bs) : ∀ b ∈ bs, 0 < b.size :=
  fun b member => header_pos.trans_le (ok.tiles.least b member)

theorem congr (ok : ArenaOk heap arena bs) (same : ∀ a, inside arena a → heap' a = heap a) :
    ArenaOk heap' arena bs := by
  refine ⟨ok.header, ok.laid.congr ok.positive fun a low high => same a ⟨low, ?_⟩, ok.tiles, ok.room⟩
  rw [← ok.tiles.covers]
  exact high

theorem of_init (base bsize : Nat) (header : bufHeaderSize ≤ bsize) :
    ArenaOk (Function.update heap base ⟨none, none, true, bsize⟩) (base, bsize) [⟨bsize, none⟩] where
  header := header
  laid := ⟨Function.update_self .., trivial⟩
  tiles := .of_single header
  room := by simp

theorem first (ok : ArenaOk heap arena bs) : firstOf arena.1 bs none = some arena.1 := by
  cases bs with
  | nil => exact absurd rfl (ok.tiles.ne_nil (header_pos.trans_le ok.header))
  | cons b bs => rfl

/-- What the loop of `mb_alloc` finds in the buffer. -/
theorem search (ok : ArenaOk heap arena bs) {need fuel : Nat} {found : Option Nat}
    (result : findFree heap need fuel (some arena.1) = some found) :
    found = (firstFit need bs).map fun found => arena.1 + cover found.1 := by
  rw [← ok.first] at result
  exact findFree_eq ok.laid result

theorem nodup (ok : ArenaOk heap arena bs) : ((held arena.1 bs).map Prod.fst).Nodup := by
  have starts : ((items arena.1 bs).map Prod.fst).Nodup := items_nodup header_pos ok.tiles.least
  have shifted : (held arena.1 bs).map Prod.fst = ((items arena.1 bs).map Prod.fst).map (· + bufHeaderSize) := by
    simp [held, Function.comp_def]
  rw [shifted]
  exact starts.map fun _ _ same => Nat.add_right_cancel same

/-- An item lies in a block of the buffer. -/
theorem of_held (ok : ArenaOk heap arena bs) (member : (item, n) ∈ held arena.1 bs) :
    ∃ l b r, bs = l ++ b :: r ∧ b.held = some n ∧ item = arena.1 + cover l + bufHeaderSize ∧
      n + bufHeaderSize ≤ b.size ∧ cover l + b.size ≤ arena.2 := by
  obtain ⟨⟨place, n'⟩, inRow, same⟩ := List.mem_map.mp member
  obtain ⟨rfl, rfl⟩ := Prod.mk.inj same
  obtain ⟨l, b, r, rfl, holds, rfl⟩ := mem_items_iff.mp inRow
  refine ⟨l, b, r, rfl, holds, rfl, ok.room b (by simp) n' holds, ?_⟩
  have whole := ok.tiles.covers
  rw [cover_append, cover] at whole
  omega

theorem inside_of_held (ok : ArenaOk heap arena bs) (member : (item, n) ∈ held arena.1 bs) :
    inside arena (item - bufHeaderSize) ∧ bufHeaderSize ≤ item ∧ item + n ≤ arena.1 + arena.2 := by
  obtain ⟨l, b, r, -, -, rfl, room, bound⟩ := ok.of_held member
  have header := header_pos
  refine ⟨⟨?_, ?_⟩, ?_, ?_⟩ <;> omega

theorem outside_of_not_inside (ok : ArenaOk heap arena bs) (out : ¬ inside arena a) :
    Outside arena.1 (cover bs) a := by
  rw [ok.tiles.covers]
  unfold inside at out
  unfold Outside
  omega

/-- A block that `mb_alloc` finds is put to use. -/
theorem alloc (ok : ArenaOk heap arena bs) {l r : List (Block Nat)} {b : Block Nat} {need : Nat}
    (found : firstFit need bs = some (l, b, r)) (room : n + bufHeaderSize ≤ need) :
    ArenaOk (useBlock heap (arena.1 + cover l) need) arena (l ++ carve need minFragment n b ++ r) ∧
      (held arena.1 (l ++ carve need minFragment n b ++ r)).Perm
        ((arena.1 + cover l + bufHeaderSize, n) :: held arena.1 bs) ∧
      ∀ a, ¬ inside arena a → useBlock heap (arena.1 + cover l) need a = heap a := by
  obtain ⟨rfl, free, fits, -⟩ := firstFit_some found
  have enough : bufHeaderSize ≤ need := by omega
  have positive : 0 < need := header_pos.trans_le enough
  refine ⟨⟨ok.header, ok.laid.useBlock ok.positive positive, ok.tiles.place free fits enough (by decide), ?_⟩, ?_, ?_⟩
  · intro c member m holds
    rw [List.append_assoc, List.mem_append, List.mem_append] at member
    rcases member with before | here | after
    · exact ok.room c (by simp [before]) m holds
    · unfold carve at here
      split at here
      · rcases List.mem_pair.mp here with rfl | rfl
        · cases holds
          exact room
        · cases holds
      · rw [List.mem_singleton.mp here] at holds ⊢
        cases holds
        exact room.trans fits
    · exact ok.room c (by simp [after]) m holds
  · exact (items_place free fits).map _
  · intro a out
    exact useBlock_outside ok.positive (ok.outside_of_not_inside out) ok.laid positive

/-- An item is given back. -/
theorem free {mb : Mbuffer} (ok : ArenaOk mb.heap arena bs) (member : (item, n) ∈ held arena.1 bs) :
    ∃ bs', ArenaOk (mb.mbFree item).heap arena bs' ∧
      (held arena.1 bs).Perm ((item, n) :: held arena.1 bs') ∧
      ∀ a, ¬ inside arena a → (mb.mbFree item).heap a = mb.heap a := by
  obtain ⟨l, b, r, rfl, holds, rfl, -, -⟩ := ok.of_held member
  refine ⟨release l b r, ⟨ok.header, ok.laid.mbFree ok.positive, ok.tiles.release, ?_⟩, ?_, ?_⟩
  · intro c within m holds'
    have used : c.free = false := by simp [Block.free, holds']
    have old := mem_release within used
    exact ok.room c (by rcases old with old | old <;> simp [old]) m holds'
  · unfold held
    rw [items_used holds, items_release, List.map_append, List.map_append, List.map_cons]
    exact List.perm_middle
  · intro a out
    exact mbFree_outside ok.positive (ok.outside_of_not_inside out) ok.laid

/-- A block that is put to use and given back leaves the row as it was. -/
theorem alloc_free {mb : Mbuffer} (ok : ArenaOk mb.heap arena bs) {l r : List (Block Nat)} {b : Block Nat} {need : Nat}
    (found : firstFit need bs = some (l, b, r)) (room : n + bufHeaderSize ≤ need) {mb' : Mbuffer}
    (used : mb'.heap = useBlock mb.heap (arena.1 + cover l) need) :
    ArenaOk (mb'.mbFree (arena.1 + cover l + bufHeaderSize)).heap arena bs ∧
      ∀ a, ¬ inside arena a → (mb'.mbFree (arena.1 + cover l + bufHeaderSize)).heap a = mb.heap a := by
  obtain ⟨changed, -, outside⟩ := ok.alloc found room
  obtain ⟨rfl, free, fits, -⟩ := firstFit_some found
  obtain ⟨c, rest, shape, -, whole⟩ : ∃ c rest, carve need minFragment n b = c :: rest ∧ c.held = some n ∧
      release l c (rest ++ r) = l ++ b :: r := ok.tiles.release_carve free fits
  rw [shape, List.append_assoc, List.cons_append, ← used] at changed
  have laid := changed.laid.mbFree changed.positive
  rw [whole] at laid
  refine ⟨⟨ok.header, laid, ok.tiles, ok.room⟩, fun a out => ?_⟩
  rw [mbFree_outside changed.positive (changed.outside_of_not_inside out) changed.laid, used]
  exact outside a out

end ArenaOk

/-! ## Both buffers -/

/-- A buffer and its blocks. -/
abbrev Row := (Nat × Nat) × List (Block Nat)

def allHeld (rows : List Row) : List (Nat × Nat) := rows.flatMap fun row => held row.1.1 row.2

/-- The blocks of the buffers, which hold the items in use. -/
structure Inv (s : Arenas) (rows : List Row) : Prop where
  buffers : rows.map Prod.fst = s.sys :: s.usr.toList
  sysFirst : s.mb.sysBuffer = some s.sys.1
  usrFirst : s.mb.usrBuffer = s.usr.map Prod.fst
  ok : ∀ row ∈ rows, ArenaOk s.mb.heap row.1 row.2
  apart : rows.Pairwise fun row row' => Disjoint row.1 row'.1
  live : s.live.Perm (allHeld rows)

variable {s s' : Arenas} {rows before behind : List Row} {bs' : List (Block Nat)}

/-- One buffer has changed. -/
theorem rows_ok (ok : ∀ row ∈ before ++ (arena, bs) :: behind, ArenaOk heap row.1 row.2)
    (apart : (before ++ (arena, bs) :: behind).Pairwise fun row row' => Disjoint row.1 row'.1)
    (changed : ArenaOk heap' arena bs') (outside : ∀ a, ¬ inside arena a → heap' a = heap a) :
    (∀ row ∈ before ++ (arena, bs') :: behind, ArenaOk heap' row.1 row.2) ∧
      (before ++ (arena, bs') :: behind).Pairwise fun row row' => Disjoint row.1 row'.1 := by
  rw [List.pairwise_append, List.pairwise_cons] at apart
  obtain ⟨front, ⟨next, back⟩, across⟩ := apart
  constructor
  · intro row member
    have kept : (row ∈ before ∨ row ∈ behind) → Disjoint row.1 arena ∨ Disjoint arena row.1 →
        ArenaOk heap' row.1 row.2 := by
      intro other disjoint
      have old := ok row (by rcases other with other | other <;> simp [other])
      refine old.congr fun a within => outside a fun here => ?_
      unfold inside at within here
      unfold Disjoint at disjoint
      omega
    rcases List.mem_append.mp member with inFront | rest
    · exact kept (.inl inFront) (.inl (across row inFront (arena, bs) List.mem_cons_self))
    · cases List.mem_cons.mp rest with
      | inl here =>
          rw [here]
          exact changed
      | inr inBack => exact kept (.inr inBack) (.inr (next row inBack))
  · refine List.pairwise_append.mpr ⟨front, List.pairwise_cons.mpr ⟨next, back⟩, fun row inFront row' member => ?_⟩
    cases List.mem_cons.mp member with
    | inl here =>
        rw [here]
        exact across row inFront (arena, bs) List.mem_cons_self
    | inr inBack => exact across row inFront row' (List.mem_cons_of_mem _ inBack)

theorem allHeld_perm {x : Nat × Nat} (more : (held arena.1 bs).Perm (x :: held arena.1 bs')) :
    (allHeld (before ++ (arena, bs) :: behind)).Perm (x :: allHeld (before ++ (arena, bs') :: behind)) := by
  simp only [allHeld, List.flatMap_append, List.flatMap_cons]
  exact ((more.append_right _).append_left _).trans List.perm_middle

/-- The rows: the system buffer, and the one of the user if it has attached one. -/
theorem Inv.rows_eq (inv : Inv s rows) : ∃ bs, (s.usr = none ∧ rows = [(s.sys, bs)]) ∨
    ∃ arena bs', s.usr = some arena ∧ rows = [(s.sys, bs), (arena, bs')] := by
  obtain ⟨⟨_, bs⟩, tail, rfl, rfl, rest⟩ := List.map_eq_cons_iff.mp inv.buffers
  refine ⟨bs, ?_⟩
  cases usr : s.usr with
  | none =>
      rw [usr] at rest
      exact .inl ⟨rfl, by rw [List.map_eq_nil_iff.mp rest]⟩
  | some arena =>
      rw [usr] at rest
      obtain ⟨⟨_, bs'⟩, tail', rfl, rfl, ended⟩ := List.map_eq_cons_iff.mp rest
      have last : tail' = [] := List.map_eq_nil_iff.mp ended
      exact .inr ⟨_, bs', rfl, by rw [last]⟩

/-- The loops of `mb_alloc` over the buffers. -/
theorem Inv.mbAlloc_cases {fuel : Nat} {isize : BitVec 32} {mb : Mbuffer} {result : Option Nat}
    (inv : Inv s rows) (returned : s.mb.mbAlloc fuel isize = some (mb, result)) :
    (result = none ∧ mb = s.mb ∧ ∀ row ∈ rows, firstFit (adjustedSize isize) row.2 = none) ∨
      ∃ before arena bs behind l b r, rows = before ++ (arena, bs) :: behind ∧
        (∀ row ∈ before, firstFit (adjustedSize isize) row.2 = none) ∧
        firstFit (adjustedSize isize) bs = some (l, b, r) ∧
        result = some (arena.1 + cover l + bufHeaderSize) ∧
        mb = { s.mb with heap := useBlock s.mb.heap (arena.1 + cover l) (adjustedSize isize) } := by
  unfold Mbuffer.mbAlloc at returned
  obtain ⟨found, search, same⟩ := Option.map_eq_some_iff.mp returned
  obtain ⟨bs, shape⟩ := inv.rows_eq
  have sysOk : ArenaOk s.mb.heap s.sys bs :=
    inv.ok (s.sys, bs) (by rcases shape with ⟨-, rfl⟩ | ⟨_, _, -, rfl⟩ <;> simp)
  rw [inv.sysFirst] at search
  split at search
  next missed =>
    have noneHere : firstFit (adjustedSize isize) bs = none := by
      simpa using (sysOk.search missed).symm
    rw [inv.usrFirst] at search
    rcases shape with ⟨usr, rfl⟩ | ⟨arena, bs', usr, rfl⟩
    · rw [usr] at search
      have nothing : found = none := by
        cases fuel with
        | zero => cases search
        | succ fuel => exact (Option.some.inj search).symm
      subst nothing
      obtain ⟨rfl, rfl⟩ := Prod.mk.inj same
      exact .inl ⟨rfl, rfl, by simpa using noneHere⟩
    · have usrOk : ArenaOk s.mb.heap arena bs' := inv.ok (arena, bs') (by simp)
      rw [usr] at search
      have result := usrOk.search search
      cases fit : firstFit (adjustedSize isize) bs' with
      | none =>
          rw [fit] at result
          subst result
          obtain ⟨rfl, rfl⟩ := Prod.mk.inj same
          exact .inl ⟨rfl, rfl, by simp [noneHere, fit]⟩
      | some at_ =>
          obtain ⟨l, b, r⟩ := at_
          rw [fit] at result
          subst result
          obtain ⟨rfl, rfl⟩ := Prod.mk.inj same
          exact .inr ⟨[(s.sys, bs)], arena, bs', [], l, b, r, rfl, by simpa using noneHere, fit, rfl, rfl⟩
  next hit =>
    have result := sysOk.search search
    cases fit : firstFit (adjustedSize isize) bs with
    | none =>
        rw [fit] at result
        subst result
        exact absurd search hit
    | some at_ =>
        obtain ⟨l, b, r⟩ := at_
        rw [fit] at result
        subst result
        obtain ⟨rfl, rfl⟩ := Prod.mk.inj same
        obtain ⟨behind, rfl⟩ : ∃ behind, rows = (s.sys, bs) :: behind := by
          rcases shape with ⟨-, rfl⟩ | ⟨arena, bs', -, rfl⟩
          · exact ⟨_, rfl⟩
          · exact ⟨_, rfl⟩
        exact .inr ⟨[], s.sys, bs, behind, l, b, r, rfl, nofun, fit, rfl, rfl⟩

/-- With enough fuel the loops end. -/
theorem Inv.mbAlloc_returns (inv : Inv s rows) (isize : BitVec 32) :
    ∃ fuel mb result, s.mb.mbAlloc fuel isize = some (mb, result) := by
  obtain ⟨bs, shape⟩ := inv.rows_eq
  have ends : ∀ row ∈ rows, ∀ fuel, row.2.length < fuel →
      ∃ found, findFree s.mb.heap (adjustedSize isize) fuel (some row.1.1) = some found := by
    intro row member fuel enough
    have ok := inv.ok row member
    rw [← ok.first]
    exact ⟨_, findFree_laid ok.laid enough⟩
  let fuel := (rows.map fun row => row.2.length).sum + 1
  have enough : ∀ row ∈ rows, row.2.length < fuel := fun row member =>
    Nat.lt_succ_of_le (List.le_sum_of_mem (List.mem_map_of_mem member))
  have sysIn : (s.sys, bs) ∈ rows := by rcases shape with ⟨-, rfl⟩ | ⟨_, _, -, rfl⟩ <;> simp
  obtain ⟨found, search⟩ := ends _ sysIn fuel (enough _ sysIn)
  obtain ⟨found', search'⟩ : ∃ found', findFree s.mb.heap (adjustedSize isize) fuel s.mb.usrBuffer = some found' := by
    rw [inv.usrFirst]
    rcases shape with ⟨usr, -⟩ | ⟨arena, bs', usr, rfl⟩
    · rw [usr]
      exact ⟨none, rfl⟩
    · rw [usr]
      exact ends (arena, bs') (by simp) fuel (enough _ (by simp))
  refine ⟨fuel, ?_⟩
  unfold Mbuffer.mbAlloc
  dsimp only at search ⊢
  rw [inv.sysFirst, search, search']
  split
  · exact ⟨_, _, rfl⟩
  · exact ⟨_, _, rfl⟩

/-! ## Runs -/

/-- A buffer can be detached exactly when nothing in it is in use. -/
theorem ArenaOk.detach_iff (ok : ArenaOk heap arena bs) :
    ((heap arena.1).free = false ∨ (heap arena.1).next.isSome = true) ↔ held arena.1 bs ≠ [] := by
  cases bs with
  | nil => exact absurd ok.first nofun
  | cons b bs =>
      have here := ok.laid.1
      rw [here]
      constructor
      · intro busy empty
        have nothing : items arena.1 (b :: bs) = [] := List.map_eq_nil_iff.mp empty
        have alone := ok.tiles.single (header_pos.trans_le ok.header) nothing
        obtain ⟨rfl, rfl⟩ := List.cons.inj alone
        rcases busy with used | more
        · cases used
        · cases more
      · intro full
        by_contra idle
        push Not at idle
        have last : bs = [] := by
          cases bs with
          | nil => rfl
          | cons c bs => exact absurd rfl idle.2
        subst last
        have empty : b.held = none := by simpa [Block.free] using idle.1
        exact full (by simp [held, items, empty])

/-- A buffer in which nothing is in use is one free block. -/
theorem ArenaOk.whole (ok : ArenaOk heap arena bs) (empty : held arena.1 bs = []) :
    bs = [⟨arena.2, none⟩] ∧ heap arena.1 = ⟨none, none, true, arena.2⟩ := by
  have nothing : items arena.1 bs = [] := List.map_eq_nil_iff.mp empty
  have alone := ok.tiles.single (header_pos.trans_le ok.header) nothing
  subst alone
  exact ⟨rfl, ok.laid.1⟩

/-- Writing to an item changes no header. -/
theorem ArenaOk.write {other : Nat × Nat} {bs' : List (Block Nat)} (ok : ArenaOk heap arena bs)
    (inOther : ArenaOk heap other bs') (member : (item, n) ∈ held other.1 bs')
    (place : (arena, bs) = (other, bs') ∨ Disjoint arena other)
    (elsewhere : ∀ a, a + handleSize ≤ item ∨ item + n ≤ a → heap' a = heap a) : ArenaOk heap' arena bs := by
  obtain ⟨l, b, r, rfl, -, rfl, room, bound⟩ := inOther.of_held member
  have sizes : handleSize ≤ bufHeaderSize := by decide
  refine ⟨ok.header, ok.laid.transfer fun a start => elsewhere a ?_, ok.tiles, ok.room⟩
  rcases place with same | disjoint
  · obtain ⟨rfl, rfl⟩ := Prod.mk.inj same
    have := starts_apart start
    omega
  · obtain ⟨c, within, low, high⟩ := starts_bound start
    have least := ok.tiles.least c within
    rw [ok.tiles.covers] at high
    unfold Disjoint at disjoint
    omega

namespace Inv

/-- The row that an item in use is in. -/
theorem row_of_live (inv : Inv s rows) (used : (item, n) ∈ s.live) :
    ∃ before arena bs behind, rows = before ++ (arena, bs) :: behind ∧ (item, n) ∈ held arena.1 bs := by
  obtain ⟨⟨arena, bs⟩, inRows, member⟩ := List.mem_flatMap.mp (inv.live.mem_iff.mp used)
  obtain ⟨before, behind, rfl⟩ := List.append_of_mem inRows
  exact ⟨before, arena, bs, behind, rfl, member⟩

theorem alloc {fuel : Nat} {isize : BitVec 32} {mb : Mbuffer} {result : Option Nat} (inv : Inv s rows)
    (positive : 0 ≤ isize.toInt) (returned : s.mb.mbAlloc fuel isize = some (mb, result)) :
    ∃ rows', Inv { s with mb, live := (result.map (·, isize.toNat)).toList ++ s.live } rows' := by
  rcases inv.mbAlloc_cases returned with ⟨rfl, rfl, -⟩ | ⟨before, arena, bs, behind, l, b, r, rfl, -, fit, rfl, rfl⟩
  · exact ⟨rows, { inv with }⟩
  · have room : isize.toNat + bufHeaderSize ≤ adjustedSize isize := by
      have header : bufHeaderSize = 32 := by decide
      rw [adjustedSize_eq positive]
      omega
    have ok := inv.ok (arena, bs) (by simp)
    obtain ⟨changed, more, outside⟩ := ok.alloc fit room
    obtain ⟨oks, apart⟩ := rows_ok inv.ok inv.apart changed outside
    refine ⟨_, ?_, inv.sysFirst, inv.usrFirst, oks, apart, ?_⟩
    · rw [← inv.buffers]
      simp
    · exact (inv.live.cons _).trans (allHeld_perm more).symm

theorem free (inv : Inv s rows) (used : (item, n) ∈ s.live) :
    ∃ rows', Inv { s with mb := s.mb.mbFree item, live := s.live.erase (item, n) } rows' := by
  obtain ⟨before, arena, bs, behind, rfl, member⟩ := inv.row_of_live used
  have ok : ArenaOk s.mb.heap arena bs := inv.ok (arena, bs) (by simp)
  obtain ⟨bs', changed, fewer, outside⟩ := ok.free member
  obtain ⟨oks, apart⟩ := rows_ok inv.ok inv.apart changed outside
  refine ⟨before ++ (arena, bs') :: behind, ?_, inv.sysFirst, inv.usrFirst, oks, apart, ?_⟩
  · rw [← inv.buffers]
    simp
  · have perm := (inv.live.trans (allHeld_perm fewer)).erase (item, n)
    rwa [List.erase_cons_head] at perm

/-- A buffer that is allocated and given back leaves all rows as they were. -/
theorem alloc_free {fuel : Nat} {isize : BitVec 32} {mb : Mbuffer} (inv : Inv s rows)
    (positive : 0 ≤ isize.toInt) (returned : s.mb.mbAlloc fuel isize = some (mb, some item)) :
    Inv { s with mb := mb.mbFree item } rows := by
  rcases inv.mbAlloc_cases returned with ⟨none, -⟩ | ⟨before, arena, bs, behind, l, b, r, rfl, -, fit, same, rfl⟩
  · cases none
  · obtain rfl := Option.some.inj same
    have room : isize.toNat + bufHeaderSize ≤ adjustedSize isize := by
      have header : bufHeaderSize = 32 := by decide
      rw [adjustedSize_eq positive]
      omega
    have ok : ArenaOk s.mb.heap arena bs := inv.ok (arena, bs) (by simp)
    have used : Mbuffer.heap { s.mb with heap := useBlock s.mb.heap (arena.1 + cover l) (adjustedSize isize) } =
        useBlock s.mb.heap (arena.1 + cover l) (adjustedSize isize) := rfl
    obtain ⟨changed, outside⟩ := ok.alloc_free fit room used
    obtain ⟨oks, -⟩ := rows_ok inv.ok inv.apart changed outside
    exact { inv with ok := oks }

theorem alloc_none {fuel : Nat} {isize : BitVec 32} {mb : Mbuffer} (inv : Inv s rows)
    (returned : s.mb.mbAlloc fuel isize = some (mb, none)) : mb = s.mb := by
  rcases inv.mbAlloc_cases returned with ⟨-, same, -⟩ | ⟨_, _, _, _, _, _, _, -, -, -, some, -⟩
  · exact same
  · cases some

theorem attach (inv : Inv s rows) {buf bsize : Nat} (header : bufHeaderSize ≤ bsize)
    (disjoint : Disjoint s.sys (buf, bsize)) : ∃ rows', Inv { s with
      mb := (s.mb.mbAttachBuffer buf bsize).1
      usr := if (s.mb.mbAttachBuffer buf bsize).2 then some (buf, bsize) else s.usr } rows' := by
  have usrFirst := inv.usrFirst
  obtain ⟨bs, ⟨usr, rfl⟩ | ⟨arena, bs', usr, rfl⟩⟩ := inv.rows_eq
  · have unused : s.mb.usrBuffer = none := by rw [usrFirst, usr, Option.map_none]
    have sysOk : ArenaOk s.mb.heap s.sys bs := inv.ok (s.sys, bs) (by simp)
    refine ⟨[(s.sys, bs), ((buf, bsize), [⟨bsize, none⟩])], ?_⟩
    simp only [Mbuffer.mbAttachBuffer, unused]
    refine ⟨rfl, inv.sysFirst, rfl, ?_, ?_, ?_⟩
    · refine List.forall_mem_cons.mpr ⟨sysOk.congr fun a within => ?_,
        List.forall_mem_singleton.mpr (.of_init buf bsize header)⟩
      refine Function.update_of_ne (fun same => ?_) ..
      unfold inside at within
      unfold Disjoint at disjoint
      have positive := header_pos
      dsimp only at disjoint
      omega
    · exact List.pairwise_pair.mpr disjoint
    · simpa [allHeld, held, items] using inv.live
  · have used : s.mb.usrBuffer = some arena.1 := by rw [usrFirst, usr, Option.map_some]
    refine ⟨[(s.sys, bs), (arena, bs')], ?_⟩
    simp only [Mbuffer.mbAttachBuffer, used]
    exact inv

theorem detach (inv : Inv s rows) : ∃ rows', Inv { s with
    mb := s.mb.mbDetachBuffer.1
    usr := if s.mb.mbDetachBuffer.2.2 then none else s.usr } rows' := by
  have usrFirst := inv.usrFirst
  obtain ⟨bs, ⟨usr, rfl⟩ | ⟨arena, bs', usr, rfl⟩⟩ := inv.rows_eq
  · have unused : s.mb.usrBuffer = none := by rw [usrFirst, usr, Option.map_none]
    refine ⟨[(s.sys, bs)], ?_⟩
    simp only [Mbuffer.mbDetachBuffer, unused]
    exact inv
  · have used : s.mb.usrBuffer = some arena.1 := by rw [usrFirst, usr, Option.map_some]
    have usrOk : ArenaOk s.mb.heap arena bs' := inv.ok (arena, bs') (by simp)
    simp only [Mbuffer.mbDetachBuffer, used]
    by_cases busy : (s.mb.heap arena.1).free = false ∨ (s.mb.heap arena.1).next.isSome = true
    · rw [if_pos busy]
      exact ⟨[(s.sys, bs), (arena, bs')], inv⟩
    · have empty : held arena.1 bs' = [] := by
        by_contra full
        exact busy (usrOk.detach_iff.mpr full)
      rw [if_neg busy]
      refine ⟨[(s.sys, bs)], rfl, inv.sysFirst, rfl, ?_, List.pairwise_singleton _ _, ?_⟩
      · exact fun row member => inv.ok row (by simpa using .inl (List.mem_singleton.mp member))
      · simpa [allHeld, empty] using inv.live

theorem write (inv : Inv s rows) {heap : Nat → BufferHandle} (used : (item, n) ∈ s.live)
    (elsewhere : ∀ a, a + handleSize ≤ item ∨ item + n ≤ a → heap a = s.mb.heap a) :
    Inv { s with mb := { s.mb with heap } } rows := by
  obtain ⟨before, arena, bs, behind, rfl, member⟩ := inv.row_of_live used
  have ok : ArenaOk s.mb.heap arena bs := inv.ok (arena, bs) (by simp)
  refine { inv with ok := fun row within => ?_ }
  have apart := inv.apart
  rw [List.pairwise_append, List.pairwise_cons] at apart
  obtain ⟨-, ⟨next, -⟩, across⟩ := apart
  refine (inv.ok row within).write ok member ?_ elsewhere
  rcases List.mem_append.mp within with front | rest
  · exact .inr (across row front (arena, bs) List.mem_cons_self)
  · cases List.mem_cons.mp rest with
    | inl here => exact .inl here
    | inr back => exact .inr (Or.symm (next row back))

theorem step (inv : Inv s rows) (run : Step s s') : ∃ rows', Inv s' rows' := by
  cases run with
  | alloc fuel isize positive returned => exact inv.alloc positive returned
  | free item n used => exact inv.free used
  | attach buf bsize header apart => exact inv.attach header apart
  | detach => exact inv.detach
  | write item n heap used elsewhere => exact ⟨rows, inv.write used elsewhere⟩

end Inv

theorem Reach.inv (reach : Reach s) : ∃ rows, Inv s rows := by
  induction reach with
  | init heap base bsize header =>
      refine ⟨[((base, bsize), [⟨bsize, none⟩])], rfl, rfl, rfl, ?_, List.pairwise_singleton _ _, .refl _⟩
      exact List.forall_mem_singleton.mpr (.of_init base bsize header)
  | step before run ih =>
      obtain ⟨rows, inv⟩ := ih
      exact inv.step run

/-! ## What the headers say -/

/-- The blocks lie next to each other from one address to another. -/
def Consecutive (heap : Nat → BufferHandle) : Nat → List Nat → Nat → Prop
  | start, [], stop => start = stop
  | start, a :: l, stop => a = start ∧ bufHeaderSize ≤ (heap a).size ∧
      Consecutive heap (start + (heap a).size) l stop

/-- The block of the item begins in the buffer. -/
def belongs (arena : Nat × Nat) (item : Nat) : Prop := inside arena (item - bufHeaderSize)

/-- What holds of the headers of a buffer, and of the items in it. -/
structure ArenaInv (heap : Nat → BufferHandle) (arena : Nat × Nat) (live : List (Nat × Nat))
    (blocks : List Nat) : Prop where
  reached : Path (fun a => (heap a).next) (some arena.1) blocks none
  consecutive : Consecutive heap arena.1 blocks (arena.1 + arena.2)
  next_pre : ∀ a b, a ∈ blocks → (heap a).next = some b → b ∈ blocks ∧ (heap b).pre = some a
  pre_next : ∀ a b, b ∈ blocks → (heap b).pre = some a → a ∈ blocks ∧ (heap a).next = some b
  apart : ∀ a b, a ∈ blocks → (heap a).next = some b → (heap a).free = false ∨ (heap b).free = false
  lies : ∀ item n, (item, n) ∈ live → belongs arena item → item + n ≤ arena.1 + arena.2 ∧
    ∃ a ∈ blocks, item = a + bufHeaderSize ∧ (heap a).free = false ∧ n + bufHeaderSize ≤ (heap a).size
  used : ∀ a ∈ blocks, (heap a).free = false → ∃ n, (a + bufHeaderSize, n) ∈ live
  whole : (∀ item n, (item, n) ∈ live → ¬ belongs arena item) →
    blocks = [arena.1] ∧ heap arena.1 = ⟨none, none, true, arena.2⟩

theorem Laid.path {pre after : Option Nat} {start : Nat} (laid : Laid heap pre start bs after) :
    Path (fun a => (heap a).next) (firstOf start bs after) (starts start bs) after := by
  induction bs generalizing pre start with
  | nil => rfl
  | cons b bs ih =>
      obtain ⟨here, rest⟩ := laid
      have next : (heap start).next = firstOf (start + b.size) bs after := by rw [here]
      refine ⟨rfl, ?_⟩
      dsimp only
      rw [next]
      exact ih rest

theorem Laid.consecutive {pre after : Option Nat} {start : Nat} (laid : Laid heap pre start bs after)
    (large : ∀ b ∈ bs, bufHeaderSize ≤ b.size) :
    Consecutive heap start (starts start bs) (start + cover bs) := by
  induction bs generalizing pre start with
  | nil => rfl
  | cons b bs ih =>
      obtain ⟨here, rest⟩ := laid
      have size : (heap start).size = b.size := by rw [here]
      refine ⟨rfl, ?_, ?_⟩
      · rw [size]
        exact large b List.mem_cons_self
      · rw [size, cover, ← Nat.add_assoc]
        exact ih rest fun c member => large c (List.mem_cons_of_mem b member)

theorem mem_starts_iff {start : Nat} :
    a ∈ starts start bs ↔ ∃ l b r, bs = l ++ b :: r ∧ a = start + cover l := by
  constructor
  · intro member
    induction bs generalizing start with
    | nil => cases member
    | cons b bs ih =>
        cases List.mem_cons.mp member with
        | inl here => exact ⟨[], b, bs, rfl, here⟩
        | inr later =>
            obtain ⟨l, c, r, rfl, place⟩ := ih later
            exact ⟨b :: l, c, r, rfl, place.trans (Nat.add_assoc ..)⟩
  · rintro ⟨l, b, r, rfl, rfl⟩
    rw [starts_append, starts]
    simp

/-- The block behind another one. -/
theorem Laid.follows {pre : Option Nat} {start a b : Nat} (laid : Laid heap pre start bs none)
    (member : a ∈ starts start bs) (next : (heap a).next = some b) :
    ∃ l c c' r, bs = l ++ c :: c' :: r ∧ a = start + cover l ∧ b = start + cover (l ++ [c]) ∧
      (heap a).free = c.free ∧ (heap b).free = c'.free ∧ (heap b).pre = some a := by
  obtain ⟨l, c, r, rfl, rfl⟩ := mem_starts_iff.mp member
  have here := laid.at.1
  rw [here] at next
  cases r with
  | nil => cases next
  | cons c' r =>
      obtain rfl := Option.some.inj next
      have second := laid.at.2.1
      refine ⟨l, c, c', r, rfl, rfl, ?_, by rw [here], by rw [second], by rw [second]⟩
      rw [cover_append, cover, cover, Nat.add_assoc]
      rfl

namespace Inv

/-- An item that belongs to a buffer is held in it. -/
theorem held_of_belongs (inv : Inv s rows) (row : (arena, bs) ∈ rows) (used : (item, n) ∈ s.live)
    (here : belongs arena item) : (item, n) ∈ held arena.1 bs := by
  obtain ⟨before, arena', bs', behind, rfl, member⟩ := inv.row_of_live used
  have there := ((inv.ok (arena', bs') (by simp)).inside_of_held member).1
  have apart := inv.apart
  rw [List.pairwise_append, List.pairwise_cons] at apart
  obtain ⟨-, ⟨next, -⟩, across⟩ := apart
  have clash : ¬ (Disjoint arena arena' ∨ Disjoint arena' arena) := by
    unfold belongs inside at here
    unfold inside at there
    unfold Disjoint
    dsimp only at there
    omega
  rcases List.mem_append.mp row with front | rest
  · exact absurd (.inl (across _ front _ List.mem_cons_self)) clash
  · cases List.mem_cons.mp rest with
    | inl same =>
        obtain ⟨rfl, rfl⟩ := Prod.mk.inj same
        exact member
    | inr back => exact absurd (.inr (next _ back)) clash

theorem live_of_held (inv : Inv s rows) (row : (arena, bs) ∈ rows) (member : (item, n) ∈ held arena.1 bs) :
    (item, n) ∈ s.live :=
  inv.live.mem_iff.mpr (List.mem_flatMap.mpr ⟨_, row, member⟩)

theorem arenaInv (inv : Inv s rows) (row : (arena, bs) ∈ rows) :
    ArenaInv s.mb.heap arena s.live (starts arena.1 bs) := by
  have ok : ArenaOk s.mb.heap arena bs := inv.ok _ row
  constructor
  case reached =>
    rw [← ok.first]
    exact ok.laid.path
  case consecutive =>
    rw [← ok.tiles.covers]
    exact ok.laid.consecutive ok.tiles.least
  case next_pre =>
    intro a b member next
    obtain ⟨l, c, c', r, rfl, rfl, rfl, -, -, pre⟩ := ok.laid.follows member next
    exact ⟨mem_starts_iff.mpr ⟨l ++ [c], c', r, by simp, rfl⟩, pre⟩
  case pre_next =>
    intro a b member pre
    obtain ⟨l, c, r, rfl, rfl⟩ := mem_starts_iff.mp member
    rw [ok.laid.at.1] at pre
    rcases List.eq_nil_or_concat' l with rfl | ⟨l, p, rfl⟩
    · cases pre
    · rw [lastOf_concat] at pre
      obtain rfl := Option.some.inj pre
      have laid := ok.laid
      rw [List.append_assoc] at laid
      refine ⟨mem_starts_iff.mpr ⟨l, p, c :: r, by simp, rfl⟩, ?_⟩
      rw [laid.at.1, cover_append, cover, cover, Nat.add_assoc]
      rfl
  case apart =>
    intro a b member next
    obtain ⟨l, c, c', r, rfl, -, -, free, free', -⟩ := ok.laid.follows member next
    rw [free, free']
    exact (List.isChain_append_cons_cons.mp ok.tiles.apart).2.1
  case lies =>
    intro item n used here
    obtain ⟨l, b, r, rfl, holds, rfl, room, bound⟩ := ok.of_held (inv.held_of_belongs row used here)
    have header := ok.laid.at.1
    refine ⟨by omega, _, mem_starts_iff.mpr ⟨l, b, r, rfl, rfl⟩, rfl, ?_, ?_⟩
    · rw [header]
      simp [Block.free, holds]
    · rw [header]
      exact room
  case used =>
    intro a member busy
    obtain ⟨l, b, r, rfl, rfl⟩ := mem_starts_iff.mp member
    rw [ok.laid.at.1] at busy
    obtain ⟨n, holds⟩ : ∃ n, b.held = some n := by
      cases content : b.held with
      | none => simp [Block.free, content] at busy
      | some n => exact ⟨n, rfl⟩
    refine ⟨n, inv.live_of_held row ?_⟩
    exact List.mem_map_of_mem (mem_items_iff.mpr ⟨l, b, r, rfl, holds, rfl⟩)
  case whole =>
    intro unused
    have empty : held arena.1 bs = [] := by
      rw [List.eq_nil_iff_forall_not_mem]
      rintro ⟨item, n⟩ member
      exact unused item n (inv.live_of_held row member) (ok.inside_of_held member).1
    obtain ⟨rfl, header⟩ := ok.whole empty
    exact ⟨rfl, header⟩

end Inv

/-- The blocks of both buffers, what a call of `mb_alloc` finds in them, and when the user's buffer
can be detached. -/
structure Managed (s : Arenas) (sysBlocks usrBlocks : List Nat) : Prop where
  sys : ArenaInv s.mb.heap s.sys s.live sysBlocks
  usr : ∀ arena, s.usr = some arena → ArenaInv s.mb.heap arena s.live usrBlocks
  unattached : s.usr = none → usrBlocks = []
  distinct : (s.live.map Prod.fst).Nodup
  owned : ∀ item n, (item, n) ∈ s.live → belongs s.sys item ∨ ∃ arena, s.usr = some arena ∧ belongs arena item
  returns : ∀ isize, ∃ fuel mb item, s.mb.mbAlloc fuel isize = some (mb, item)
  fails : ∀ fuel isize mb item, s.mb.mbAlloc fuel isize = some (mb, item) →
    (item = none ↔ ∀ a ∈ sysBlocks ++ usrBlocks,
      ¬ ((s.mb.heap a).free = true ∧ adjustedSize isize ≤ (s.mb.heap a).size))
  first : ∀ fuel isize mb item, s.mb.mbAlloc fuel isize = some (mb, item) → item =
    ((sysBlocks ++ usrBlocks).find? fun a => (s.mb.heap a).free ∧ adjustedSize isize ≤ (s.mb.heap a).size).map
      (· + bufHeaderSize)
  detaches : s.mb.mbDetachBuffer.2.2 = true ↔
    ∃ arena, s.usr = some arena ∧ ∀ item n, (item, n) ∈ s.live → ¬ belongs arena item
  detached : s.mb.mbDetachBuffer.2.2 = true → s.mb.mbDetachBuffer.2.1 = s.usr

theorem Laid.find {pre : Option Nat} {start need : Nat} (laid : Laid heap pre start bs none) :
    (starts start bs).find? (fun a => (heap a).free ∧ need ≤ (heap a).size) =
      (firstFit need bs).map fun found => start + cover found.1 := by
  induction bs generalizing pre start with
  | nil => rfl
  | cons b bs ih =>
      obtain ⟨here, rest⟩ := laid
      rw [starts, List.find?_cons, firstFit, here]
      by_cases fits : b.free = true ∧ need ≤ b.size
      · simp [fits, cover]
      · have tight : decide (b.free = true ∧ need ≤ b.size) = false := decide_eq_false fits
        rw [tight, if_neg fits, ih rest, Option.map_map]
        dsimp only
        congr 1
        funext found
        exact Nat.add_assoc ..

namespace Inv

theorem find (inv : Inv s rows) {fuel : Nat} {isize : BitVec 32} {mb : Mbuffer} {result : Option Nat}
    (returned : s.mb.mbAlloc fuel isize = some (mb, result)) : result =
      ((rows.flatMap fun row => starts row.1.1 row.2).find? fun a =>
        (s.mb.heap a).free ∧ adjustedSize isize ≤ (s.mb.heap a).size).map (· + bufHeaderSize) := by
  have inRow : ∀ row ∈ rows, ((starts row.1.1 row.2).find? fun a =>
      (s.mb.heap a).free ∧ adjustedSize isize ≤ (s.mb.heap a).size) =
        (firstFit (adjustedSize isize) row.2).map fun found => row.1.1 + cover found.1 :=
    fun row member => (inv.ok row member).laid.find
  rw [List.find?_flatMap]
  rcases inv.mbAlloc_cases returned with ⟨rfl, -, none⟩ | ⟨before, arena, bs, behind, l, b, r, rfl, none, fit, rfl, -⟩
  · have nowhere : rows.findSome? (fun row => (starts row.1.1 row.2).find? fun a =>
        (s.mb.heap a).free ∧ adjustedSize isize ≤ (s.mb.heap a).size) = Option.none := by
      rw [List.findSome?_eq_none_iff]
      intro row member
      rw [inRow row member, none row member]
      rfl
    rw [nowhere]
    rfl
  · have nowhere : before.findSome? (fun row => (starts row.1.1 row.2).find? fun a =>
        (s.mb.heap a).free ∧ adjustedSize isize ≤ (s.mb.heap a).size) = Option.none := by
      rw [List.findSome?_eq_none_iff]
      intro row member
      rw [inRow row (List.mem_append_left _ member), none row member]
      rfl
    rw [List.findSome?_append, nowhere, Option.none_or, List.findSome?_cons, inRow (arena, bs) (by simp), fit]
    rfl

theorem distinct (inv : Inv s rows) : (s.live.map Prod.fst).Nodup := by
  rw [(inv.live.map Prod.fst).nodup_iff]
  obtain ⟨bs, ⟨-, rfl⟩ | ⟨arena, bs', -, rfl⟩⟩ := inv.rows_eq
  · have sysOk : ArenaOk s.mb.heap s.sys bs := inv.ok (s.sys, bs) (by simp)
    simpa [allHeld] using sysOk.nodup
  · have sysOk : ArenaOk s.mb.heap s.sys bs := inv.ok (s.sys, bs) (by simp)
    have usrOk : ArenaOk s.mb.heap arena bs' := inv.ok (arena, bs') (by simp)
    have disjoint : Disjoint s.sys arena := by simpa using inv.apart
    simp only [allHeld, List.flatMap_cons, List.flatMap_nil, List.append_nil, List.map_append]
    refine List.nodup_append.mpr ⟨sysOk.nodup, usrOk.nodup, ?_⟩
    rintro item here item' there rfl
    obtain ⟨⟨_, n⟩, member, rfl⟩ := List.mem_map.mp here
    obtain ⟨⟨_, n'⟩, member', same⟩ := List.mem_map.mp there
    dsimp only at same
    subst same
    have left := (sysOk.inside_of_held member).1
    have right := (usrOk.inside_of_held member').1
    unfold inside at left right
    unfold Disjoint at disjoint
    omega

theorem detaches (inv : Inv s rows) : (s.mb.mbDetachBuffer.2.2 = true ↔
      ∃ arena, s.usr = some arena ∧ ∀ item n, (item, n) ∈ s.live → ¬ belongs arena item) ∧
    (s.mb.mbDetachBuffer.2.2 = true → s.mb.mbDetachBuffer.2.1 = s.usr) := by
  have usrFirst := inv.usrFirst
  obtain ⟨bs, ⟨usr, rfl⟩ | ⟨arena, bs', usr, rfl⟩⟩ := inv.rows_eq
  · have unused : s.mb.usrBuffer = none := by rw [usrFirst, usr, Option.map_none]
    simp [Mbuffer.mbDetachBuffer, unused, usr]
  · have used : s.mb.usrBuffer = some arena.1 := by rw [usrFirst, usr, Option.map_some]
    have usrOk : ArenaOk s.mb.heap arena bs' := inv.ok (arena, bs') (by simp)
    have idle : held arena.1 bs' = [] ↔ ∀ item n, (item, n) ∈ s.live → ¬ belongs arena item := by
      constructor
      · intro empty item n used here
        have member : (item, n) ∈ held arena.1 bs' := inv.held_of_belongs (by simp) used here
        rw [empty] at member
        cases member
      · intro unused
        rw [List.eq_nil_iff_forall_not_mem]
        rintro ⟨item, n⟩ member
        exact unused item n (inv.live_of_held (by simp) member) (usrOk.inside_of_held member).1
    simp only [Mbuffer.mbDetachBuffer, used, usr, Option.some.injEq, exists_eq_left', ← idle]
    by_cases busy : (s.mb.heap arena.1).free = false ∨ (s.mb.heap arena.1).next.isSome = true
    · have full := usrOk.detach_iff.mp busy
      simp [busy, full]
    · have empty : held arena.1 bs' = [] := by
        by_contra full
        exact busy (usrOk.detach_iff.mpr full)
      have size : (s.mb.heap arena.1).size = arena.2 := by rw [(usrOk.whole empty).2]
      simp [busy, empty, size]

/-- The row of an item in use. -/
theorem owned (inv : Inv s rows) (used : (item, n) ∈ s.live) : ∃ row ∈ rows, belongs row.1 item := by
  obtain ⟨before, arena, bs, behind, rfl, member⟩ := inv.row_of_live used
  have ok : ArenaOk s.mb.heap arena bs := inv.ok (arena, bs) (by simp)
  exact ⟨(arena, bs), by simp, (ok.inside_of_held member).1⟩

/-- What does not depend on whether there is a second buffer. -/
theorem managed (inv : Inv s rows) {sysBlocks usrBlocks : List Nat}
    (all : (rows.flatMap fun row => starts row.1.1 row.2) = sysBlocks ++ usrBlocks)
    (sys : ArenaInv s.mb.heap s.sys s.live sysBlocks)
    (usr : ∀ arena, s.usr = some arena → ArenaInv s.mb.heap arena s.live usrBlocks)
    (unattached : s.usr = none → usrBlocks = []) : Managed s sysBlocks usrBlocks := by
  have find : ∀ fuel isize mb item, s.mb.mbAlloc fuel isize = some (mb, item) → item =
      ((sysBlocks ++ usrBlocks).find? fun a =>
        (s.mb.heap a).free ∧ adjustedSize isize ≤ (s.mb.heap a).size).map (· + bufHeaderSize) := by
    intro fuel isize mb item returned
    rw [← all]
    exact inv.find returned
  constructor
  case sys => exact sys
  case usr => exact usr
  case unattached => exact unattached
  case distinct => exact inv.distinct
  case owned =>
    intro item n used
    obtain ⟨row, member, here⟩ := inv.owned used
    have place : row.1 ∈ s.sys :: s.usr.toList := by
      rw [← inv.buffers]
      exact List.mem_map_of_mem member
    cases List.mem_cons.mp place with
    | inl system => exact .inl (system ▸ here)
    | inr user => exact .inr ⟨row.1, by simpa using user, here⟩
  case returns => exact inv.mbAlloc_returns
  case fails =>
    intro fuel isize mb item returned
    rw [find fuel isize mb item returned, Option.map_eq_none_iff, List.find?_eq_none]
    simp only [decide_eq_true_eq]
  case first => exact find
  case detaches => exact inv.detaches.1
  case detached => exact inv.detaches.2

end Inv

/-- In every state the blocks tile the buffers, hold the items in use, and allow exactly what they
have room for. -/
theorem message_buffers_managed (reach : Reach s) :
    ∃ sysBlocks usrBlocks, Managed s sysBlocks usrBlocks := by
  obtain ⟨rows, inv⟩ := reach.inv
  obtain ⟨bs, shape⟩ := inv.rows_eq
  rcases shape with ⟨usr, rfl⟩ | ⟨arena, bs', usr, rfl⟩
  · refine ⟨starts s.sys.1 bs, [], inv.managed ?_ (inv.arenaInv (by simp)) ?_ fun _ => rfl⟩
    · simp
    · intro arena attached
      exact absurd (usr.symm.trans attached) nofun
  · refine ⟨starts s.sys.1 bs, starts arena.1 bs', inv.managed ?_ (inv.arenaInv (by simp)) ?_ ?_⟩
    · simp
    · intro other attached
      obtain rfl := Option.some.inj (usr.symm.trans attached)
      exact inv.arenaInv (by simp)
    · intro unattached
      exact absurd (usr.symm.trans unattached) nofun

/-- In a buffer of 512 bytes two items are in use, of which the first is freed. A third one needs more
than that leaves, so it comes from the buffer of 384 bytes that the user has attached. -/
theorem message_buffers_managed_item : ∃ s, Reach s ∧ s.live = [(8224, 300), (1216, 200)] ∧
    s.usr = some (8192, 384) ∧ (s.mb.heap 1024).free ∧ (s.mb.heap 1024).size = 160 ∧
    ∃ sysBlocks usrBlocks, Managed s sysBlocks usrBlocks := by
  have start : Reach ⟨mbInit (fun _ => ⟨none, none, false, 0⟩) 1024 512, [], (1024, 512), none⟩ :=
    .init _ 1024 512 (by decide)
  have first := start.step (.alloc 2 100 (by decide) rfl)
  have second := first.step (.alloc 3 200 (by decide) rfl)
  have freed := second.step (.free 1056 100 (by decide))
  have attached := freed.step (.attach 8192 384 (by decide) (.inl (by decide)))
  have reach := attached.step (.alloc 4 300 (by decide) rfl)
  exact ⟨_, reach, rfl, rfl, rfl, rfl, message_buffers_managed reach⟩

end Tmpi.Utils
