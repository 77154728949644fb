import Mathlib.Data.List.Chain
import Mathlib.Tactic

/-! Ranges of addresses that are cut into blocks, some of them free. -/

namespace Tmpi.Tiling

/-- A block, and what it holds. -/
structure Block (α : Type) where
  size : Nat
  held : Option α
  deriving DecidableEq, Repr

variable {α : Type}

def Block.free (b : Block α) : Bool := b.held.isNone

/-- How many addresses a row of blocks takes. -/
def cover : List (Block α) → Nat
  | [] => 0
  | b :: bs => b.size + cover bs

/-- The addresses of a row of blocks from address `start` on. -/
def starts : Nat → List (Block α) → List Nat
  | _, [] => []
  | start, b :: bs => start :: starts (start + b.size) bs

/-- What is held, with the addresses, in a row of blocks from address `start` on. -/
def items : Nat → List (Block α) → List (Nat × α)
  | _, [] => []
  | start, b :: bs => (b.held.map (start, ·)).toList ++ items (start + b.size) bs

/-- One of two neighbours is in use. -/
def Apart (b b' : Block α) : Prop := b.free = false ∨ b'.free = false

/-- The blocks fill `size` addresses, each has `least`, and free ones do not touch. -/
structure Tiles (least size : Nat) (bs : List (Block α)) : Prop where
  covers : cover bs = size
  least : ∀ b ∈ bs, least ≤ b.size
  apart : bs.IsChain Apart

variable {least size need spare start : Nat} {b c : Block α} {bs l r : List (Block α)} {x : α}

theorem cover_append : cover (l ++ r) = cover l + cover r := by
  induction l with
  | nil => simp [cover]
  | cons b l ih =>
      calc
        b.size + cover (l ++ r) = b.size + (cover l + cover r) := by rw [ih]
        _ = b.size + cover l + cover r := by omega

theorem starts_append : starts start (l ++ r) = starts start l ++ starts (start + cover l) r := by
  induction l generalizing start with
  | nil => rfl
  | cons b l ih =>
      have place : start + b.size + cover l = start + cover (b :: l) := Nat.add_assoc ..
      rw [List.cons_append, starts, starts, ih, place, List.cons_append]

theorem starts_bound {a : Nat} (member : a ∈ starts start bs) :
    ∃ b ∈ bs, start ≤ a ∧ a + b.size ≤ start + cover bs := by
  induction bs generalizing start with
  | nil => cases member
  | cons b bs ih =>
      cases List.mem_cons.mp member with
      | inl here =>
          refine ⟨b, List.mem_cons_self, Nat.le_of_eq here.symm, ?_⟩
          rw [here, cover]
          omega
      | inr later =>
          obtain ⟨c, within, low, high⟩ := ih later
          refine ⟨c, List.mem_cons_of_mem b within, ?_, ?_⟩
          · omega
          · rw [cover]
            omega

/-- No block begins in another one. -/
theorem starts_apart {a : Nat} (member : a ∈ starts start (l ++ b :: r)) :
    a ≤ start + cover l ∨ start + cover l + b.size ≤ a := by
  rw [starts_append, starts] at member
  rcases List.mem_append.mp member with before | here
  · obtain ⟨c, -, -, high⟩ := starts_bound before
    omega
  · cases List.mem_cons.mp here with
    | inl same => exact .inl (Nat.le_of_eq same)
    | inr later =>
        obtain ⟨c, -, low, -⟩ := starts_bound later
        exact .inr low

theorem items_append : items start (l ++ r) = items start l ++ items (start + cover l) r := by
  induction l generalizing start with
  | nil => rfl
  | cons b l ih =>
      have place : start + b.size + cover l = start + cover (b :: l) := Nat.add_assoc ..
      rw [List.cons_append, items, items, ih, place, List.append_assoc]

/-- Every item is in a block, which is not free. -/
theorem mem_items_iff {place : Nat} : (place, x) ∈ items start bs ↔
    ∃ l b r, bs = l ++ b :: r ∧ b.held = some x ∧ place = start + cover l := by
  constructor
  · intro member
    induction bs generalizing start with
    | nil => cases member
    | cons b bs ih =>
        cases List.mem_append.mp member with
        | inl here =>
            obtain ⟨y, held, same⟩ : ∃ y, b.held = some y ∧ (start, y) = (place, x) := by simpa using here
            obtain ⟨at_, equal⟩ := Prod.mk.inj same
            exact ⟨[], b, bs, rfl, equal ▸ held, at_.symm⟩
        | inr later =>
            obtain ⟨l, c, r, rfl, held, at_⟩ := ih later
            refine ⟨b :: l, c, r, rfl, held, ?_⟩
            rw [at_, cover]
            omega
  · rintro ⟨l, b, r, rfl, held, rfl⟩
    rw [items_append, items, held]
    simp

theorem items_nil_iff : items start bs = [] ↔ ∀ b ∈ bs, b.free = true := by
  induction bs generalizing start with
  | nil => simp [items]
  | cons b bs ih => simp [items, ih, Block.free]

/-- The addresses of what is held are inside the range. -/
theorem items_bound {place : Nat} (inside : (place, x) ∈ items start bs) :
    ∃ b ∈ bs, b.held = some x ∧ start ≤ place ∧ place + b.size ≤ start + cover bs := by
  obtain ⟨l, b, r, rfl, held, rfl⟩ := mem_items_iff.mp inside
  refine ⟨b, by simp, held, Nat.le_add_right _ _, ?_⟩
  rw [cover_append, cover]
  omega

theorem items_nodup (positive : 0 < least) (large : ∀ b ∈ bs, least ≤ b.size) :
    ((items start bs).map Prod.fst).Nodup := by
  induction bs generalizing start with
  | nil => exact List.nodup_nil
  | cons b bs ih =>
      have rest : ((items (start + b.size) bs).map Prod.fst).Nodup :=
        ih fun c member => large c (List.mem_cons_of_mem b member)
      have first := large b List.mem_cons_self
      cases held : b.held with
      | none => simpa [items, held] using rest
      | some y =>
          rw [items, held]
          refine List.nodup_cons.mpr ⟨fun again => ?_, rest⟩
          obtain ⟨⟨place, z⟩, member, same⟩ := List.mem_map.mp again
          obtain ⟨-, -, -, after, -⟩ := items_bound member
          have equal : place = start := same
          omega

namespace Tiles

theorem ne_nil (tiles : Tiles least size bs) (positive : 0 < size) : bs ≠ [] := by
  rintro rfl
  have zero : 0 = size := tiles.covers
  omega

/-- When nothing is held there is one block. -/
theorem single (tiles : Tiles least size bs) (positive : 0 < size) (empty : items start bs = []) :
    bs = [⟨size, none⟩] := by
  rw [items_nil_iff] at empty
  cases bs with
  | nil => exact absurd rfl (tiles.ne_nil positive)
  | cons b bs =>
      have free := empty b List.mem_cons_self
      cases bs with
      | nil =>
          obtain ⟨size', held⟩ := b
          obtain rfl : held = none := by simpa [Block.free] using free
          have same : size' = size := tiles.covers
          rw [same]
      | cons c bs =>
          have second := empty c (by simp)
          cases (List.isChain_cons_cons.mp tiles.apart).1 with
          | inl used => exact absurd (free.symm.trans used) (by simp)
          | inr used => exact absurd (second.symm.trans used) (by simp)

theorem of_single (large : least ≤ size) : Tiles least size [(⟨size, none⟩ : Block α)] where
  covers := Nat.add_zero size
  least := by simpa using large
  apart := .singleton _

end Tiles

/-! ## First fit -/

/-- The first block that is free and large enough, with the blocks before and behind it. -/
def firstFit (need : Nat) : List (Block α) → Option (List (Block α) × Block α × List (Block α))
  | [] => none
  | b :: bs =>
      if b.free ∧ need ≤ b.size then some ([], b, bs)
      else (firstFit need bs).map fun found => (b :: found.1, found.2)

theorem firstFit_some (found : firstFit need bs = some (l, b, r)) :
    bs = l ++ b :: r ∧ b.free = true ∧ need ≤ b.size ∧ ∀ c ∈ l, ¬ (c.free = true ∧ need ≤ c.size) := by
  induction bs generalizing l with
  | nil => cases found
  | cons c bs ih =>
      unfold firstFit at found
      split at found
      next fits =>
        cases found
        exact ⟨rfl, fits.1, fits.2, nofun⟩
      next tight =>
        obtain ⟨⟨l', b', r'⟩, later, same⟩ := Option.map_eq_some_iff.mp found
        cases same
        obtain ⟨rfl, free, fits, before⟩ := ih later
        exact ⟨rfl, free, fits, List.forall_mem_cons.mpr ⟨tight, before⟩⟩

/-- A free block is put to use; what is over stays free if that is at least `spare`. -/
def carve (need spare : Nat) (x : α) (b : Block α) : List (Block α) :=
  if need + spare ≤ b.size then [⟨need, some x⟩, ⟨b.size - need, none⟩] else [⟨b.size, some x⟩]

theorem cover_carve (fits : need ≤ b.size) : cover (carve need spare x b) = b.size := by
  unfold carve
  split
  · simp only [cover]
    omega
  · simp [cover]

theorem items_carve : items start (carve need spare x b) = [(start, x)] := by
  unfold carve
  split <;> simp [items]

theorem items_place (free : b.free = true) (fits : need ≤ b.size) :
    (items start (l ++ carve need spare x b ++ r)).Perm
      ((start + cover l, x) :: items start (l ++ b :: r)) := by
  have empty : b.held = none := by simpa [Block.free] using free
  rw [items_append, items_append, cover_append, cover_carve fits, items_carve, items_append, items, empty,
    ← Nat.add_assoc]
  simp only [Option.map_none, Option.toList_none, List.nil_append, List.append_assoc]
  exact List.perm_middle

theorem Tiles.place (tiles : Tiles least size (l ++ b :: r)) (free : b.free = true) (fits : need ≤ b.size)
    (enough : least ≤ need) (room : least ≤ spare) :
    Tiles least size (l ++ carve need spare x b ++ r) where
  covers := by
    calc
      cover (l ++ carve need spare x b ++ r) = cover l + b.size + cover r := by
        rw [cover_append, cover_append, cover_carve fits]
      _ = cover (l ++ b :: r) := by rw [cover_append, cover, Nat.add_assoc]
      _ = size := tiles.covers
  least := by
    have large := tiles.least
    intro c member
    rw [List.append_assoc, List.mem_append, List.mem_append] at member
    rcases member with before | here | after
    · exact large c (by simp [before])
    · unfold carve at here
      split at here
      next split =>
        rcases List.mem_pair.mp here with rfl | rfl
        · exact enough
        · dsimp only
          omega
      next =>
        rw [List.mem_singleton.mp here]
        exact large b (by simp)
    · exact large c (by simp [after])
  apart := by
    have chain := tiles.apart
    rw [List.isChain_append] at chain
    obtain ⟨before, after, seam⟩ := chain
    rw [List.isChain_cons] at after
    have used : ∀ y, y ∈ r.head? → y.free = false := by
      intro y first
      cases after.1 y first with
      | inl busy => exact absurd (free.symm.trans busy) (by simp)
      | inr busy => exact busy
    unfold carve
    split
    · refine List.isChain_append.mpr ⟨List.isChain_append.mpr ⟨before, ?_, ?_⟩, after.2, ?_⟩
      · exact List.isChain_pair.mpr (.inl rfl)
      · intro p _ c first
        cases first
        exact .inr rfl
      · intro p last y first
        exact .inr (used y first)
    · refine List.isChain_append.mpr ⟨List.isChain_append.mpr ⟨before, .singleton _, ?_⟩, after.2, ?_⟩
      · intro p _ c first
        cases first
        exact .inr rfl
      · intro p _ y first
        exact .inr (used y first)

/-! ## Release -/

/-- A free block in front of others, with the first of them if that is free. -/
def grow (size : Nat) : List (Block α) → List (Block α)
  | [] => [⟨size, none⟩]
  | c :: r => if c.free then ⟨size + c.size, none⟩ :: r else ⟨size, none⟩ :: c :: r

/-- A block is given back, and joins the free blocks on its two sides. -/
def release (l : List (Block α)) (b : Block α) (r : List (Block α)) : List (Block α) :=
  match l.getLast? with
  | none => grow b.size r
  | some p => if p.free then l.dropLast ++ grow (p.size + b.size) r else l ++ grow b.size r

theorem release_nil : release [] b r = grow b.size r := rfl

theorem release_free {p : Block α} (free : p.free = true) :
    release (l ++ [p]) b r = l ++ grow (p.size + b.size) r := by
  simp [release, free]

theorem release_used {p : Block α} (used : p.free = false) :
    release (l ++ [p]) b r = l ++ [p] ++ grow b.size r := by
  simp [release, used]

theorem release_of_used (used : ∀ p ∈ l.getLast?, p.free = false) : release l b r = l ++ grow b.size r := by
  unfold release
  cases last : l.getLast? with
  | none => rw [List.getLast?_eq_none_iff.mp last, List.nil_append]
  | some p =>
      have busy := used p last
      simp [busy]

theorem grow_cons : grow need (c :: r) =
    if c.free then ⟨need + c.size, none⟩ :: r else ⟨need, none⟩ :: c :: r := rfl

theorem cover_grow : cover (grow need r) = need + cover r := by
  cases r with
  | nil => rfl
  | cons c r =>
      rw [grow_cons]
      split
      · exact Nat.add_assoc ..
      · rfl

theorem items_grow : items start (grow need r) = items (start + need) r := by
  cases r with
  | nil => rfl
  | cons c r =>
      rw [grow_cons]
      split
      next free =>
        have empty : c.held = none := by simpa [Block.free] using free
        simp [items, empty, Nat.add_assoc]
      next => rfl

theorem cover_release : cover (release l b r) = cover (l ++ b :: r) := by
  rcases List.eq_nil_or_concat' l with rfl | ⟨l, p, rfl⟩
  · rw [release_nil, cover_grow]
    rfl
  · cases free : p.free with
    | true =>
        rw [release_free free]
        simp only [cover_append, cover_grow, cover]
        omega
    | false =>
        rw [release_used free]
        simp only [cover_append, cover_grow, cover]

/-- What the block held is gone, and nothing else. -/
theorem items_release :
    items start (release l b r) = items start l ++ items (start + cover l + b.size) r := by
  rcases List.eq_nil_or_concat' l with rfl | ⟨l, p, rfl⟩
  · rw [release_nil, items_grow]
    rfl
  · cases free : p.free with
    | true =>
        have empty : p.held = none := by simpa [Block.free] using free
        have place : start + cover l + (p.size + b.size) = start + cover (l ++ [p]) + b.size := by
          simp only [cover_append, cover]
          omega
        rw [release_free free, items_append, items_grow, place, items_append]
        simp [items, empty]
    | false =>
        rw [release_used free, items_append, items_grow]

theorem items_used (held : b.held = some x) : items start (l ++ b :: r) =
    items start l ++ (start + cover l, x) :: items (start + cover l + b.size) r := by
  rw [items_append, items, held]
  rfl

theorem isChain_grow (chain : (b :: r).IsChain Apart) : (grow need r).IsChain Apart := by
  cases r with
  | nil => exact .singleton _
  | cons c r =>
      have rest := (List.isChain_cons_cons.mp chain).2
      rw [grow_cons]
      split
      next free =>
        rw [List.isChain_cons] at rest ⊢
        refine ⟨fun y first => ?_, rest.2⟩
        cases rest.1 y first with
        | inl used => exact absurd (free.symm.trans used) (by simp)
        | inr used => exact .inr used
      next used => exact List.isChain_cons_cons.mpr ⟨.inr (by simpa using used), rest⟩

theorem mem_grow (member : c ∈ grow need r) : (c.free = true ∧ need ≤ c.size) ∨ c ∈ r := by
  cases r with
  | nil =>
      rw [List.mem_singleton.mp member]
      exact .inl ⟨rfl, Nat.le_refl _⟩
  | cons d r =>
      rw [grow_cons] at member
      split at member
      · rcases List.mem_cons.mp member with rfl | later
        · exact .inl ⟨rfl, Nat.le_add_right _ _⟩
        · exact .inr (List.mem_cons_of_mem d later)
      · rcases List.mem_cons.mp member with rfl | later
        · exact .inl ⟨rfl, Nat.le_refl _⟩
        · exact .inr later

/-- The blocks in use are those on the two sides. -/
theorem mem_release (member : c ∈ release l b r) (used : c.free = false) : c ∈ l ∨ c ∈ r := by
  have tail : ∀ need, c ∈ grow need r → c ∈ r := by
    intro need here
    cases mem_grow here with
    | inl joined => exact absurd (joined.1.symm.trans used) (by simp)
    | inr old => exact old
  rcases List.eq_nil_or_concat' l with rfl | ⟨l, p, rfl⟩
  · exact .inr (tail _ member)
  · cases free : p.free with
    | true =>
        rw [release_free free] at member
        cases List.mem_append.mp member with
        | inl before => exact .inl (List.mem_append_left _ before)
        | inr here => exact .inr (tail _ here)
    | false =>
        rw [release_used free] at member
        cases List.mem_append.mp member with
        | inl before => exact .inl before
        | inr here => exact .inr (tail _ here)

theorem Tiles.release (tiles : Tiles least size (l ++ b :: r)) :
    Tiles least size (release l b r) := by
  have large := tiles.least
  have chain := tiles.apart
  have tail : ∀ need, least ≤ need → ∀ c ∈ grow need r, least ≤ c.size := by
    intro need enough c member
    cases mem_grow member with
    | inl bigger => exact enough.trans bigger.2
    | inr old => exact large c (by simp [old])
  refine ⟨cover_release.trans tiles.covers, ?_, ?_⟩
  · rcases List.eq_nil_or_concat' l with rfl | ⟨l, p, rfl⟩
    · exact tail b.size (large b (by simp))
    · have first := large p (by simp)
      cases free : p.free with
      | true =>
          rw [release_free free]
          intro c member
          cases List.mem_append.mp member with
          | inl before => exact large c (by simp [before])
          | inr here => exact tail (p.size + b.size) (by omega) c here
      | false =>
          rw [release_used free]
          intro c member
          cases List.mem_append.mp member with
          | inl before => exact large c (List.mem_append_left _ before)
          | inr here => exact tail b.size (large b (by simp)) c here
  · rw [List.isChain_append] at chain
    obtain ⟨before, after, -⟩ := chain
    rcases List.eq_nil_or_concat' l with rfl | ⟨l, p, rfl⟩
    · exact isChain_grow after
    · cases free : p.free with
      | true =>
          obtain ⟨front, -, seam⟩ := List.isChain_append.mp before
          rw [release_free free]
          refine List.isChain_append.mpr ⟨front, isChain_grow after, fun q last y _ => ?_⟩
          cases seam q last p rfl with
          | inl used => exact .inl used
          | inr used => exact absurd (free.symm.trans used) (by simp)
      | false =>
          rw [release_used free]
          refine List.isChain_append.mpr ⟨before, isChain_grow after, fun q last y _ => ?_⟩
          rw [List.getLast?_concat] at last
          cases last
          exact .inl free

/-- A block that is put to use and given back is what it was. -/
theorem Tiles.release_carve (tiles : Tiles least size (l ++ b :: r)) (free : b.free = true) (fits : need ≤ b.size) :
    ∃ c rest, carve need spare x b = c :: rest ∧ c.held = some x ∧ Tiling.release l c (rest ++ r) = l ++ b :: r := by
  have chain := tiles.apart
  rw [List.isChain_append, List.isChain_cons] at chain
  obtain ⟨-, ⟨next, -⟩, seam⟩ := chain
  have before : ∀ p ∈ l.getLast?, p.free = false := by
    intro p last
    cases seam p last b rfl with
    | inl busy => exact busy
    | inr busy => exact absurd (free.symm.trans busy) (by simp)
  have behind : grow b.size r = b :: r := by
    have whole : b = ⟨b.size, none⟩ := by
      cases b with
      | mk size held =>
          have empty : held = none := by simpa [Block.free] using free
          rw [empty]
    cases r with
    | nil => rw [grow, ← whole]
    | cons d r =>
        have busy : d.free = false := by
          cases next d rfl with
          | inl busy => exact absurd (free.symm.trans busy) (by simp)
          | inr busy => exact busy
        rw [grow, busy, ← whole]
        rfl
  unfold carve
  split
  · refine ⟨_, _, rfl, rfl, ?_⟩
    have sum : need + (b.size - need) = b.size := by omega
    have joined : grow need ([⟨b.size - need, none⟩] ++ r) = b :: r := by
      calc
        grow need ([⟨b.size - need, none⟩] ++ r) = ⟨need + (b.size - need), none⟩ :: r := rfl
        _ = b :: r := by
          rw [sum]
          cases b with
          | mk size held =>
              have empty : held = none := by simpa [Block.free] using free
              rw [empty]
    rw [release_of_used before, joined]
  · refine ⟨_, _, rfl, rfl, ?_⟩
    rw [release_of_used before, List.nil_append, behind]

end Tmpi.Tiling
