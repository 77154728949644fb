import Tmpi.Utils.Tqueue
import Mathlib.Data.BitVec
import Mathlib.Tactic

/-! The size of a queue's elements in the `int`s of `Q_init`, and the chunks that `Q_newElem` cuts into elements of
that size. -/

namespace Tmpi.Utils

/-- Whether pointers and `size_t` have 32 or 64 bits. -/
inductive Pointer where
  | narrow | wide
  deriving DecidableEq, Repr

namespace Pointer

variable (p : Pointer)

/-- `sizeof(BUCKET)`: two pointers. -/
def bucket : Nat :=
  match p with
  | narrow => bucketSize
  | wide => 2 * bucketSize

/-- An `int` where a `size_t` is asked for. -/
def sizeT (x : BitVec 32) : Nat :=
  match p with
  | narrow => x.toNat
  | wide => (x.signExtend 64).toNat

/-- A number of bytes that is not asked for as a smaller one. With 64 bits the product may also come out negative,
which asks for more than there is. -/
def Asks (bytes : Nat) : Prop :=
  match p with
  | narrow => bytes < 2^32
  | wide => bytes < 2^31 ∨ 2^31 ≤ bytes % 2^32

/-- `p->item_size` -/
def qInitItemSize (itemSize : BitVec 32) : BitVec 32 :=
  (if itemSize.srem 7 ≠ 0 then (itemSize + 7).sshiftRight 3 <<< 3 else itemSize) + .ofNat 32 p.bucket

/-- `size1*p->chunk_group` -/
def chunkBytes (size group : BitVec 32) : Nat := p.sizeT (size * group)

end Pointer

/-- An element has room for its header and its item, and the next one is aligned as it is. -/
structure Sized (p : Pointer) (itemSize : BitVec 32) : Prop where
  header : 8 ∣ p.bucket
  multiple : 8 ∣ (p.qInitItemSize itemSize).toInt
  enough : itemSize.toInt + p.bucket ≤ (p.qInitItemSize itemSize).toInt

/-- What `Q_newElem` makes of a new block of `bytes` bytes at `base`, for elements of `size` bytes. -/
structure Carved {α : Type} (s : Queues α) (q size group base bytes : Nat) : Prop where
  first : (s.qNewElem q (some base)).2 = some (.elem base)
  rest : Path (s.qNewElem q (some base)).1.links.prev ((s.qNewElem q (some base)).1.queue q).allocate
    ((chunk size group base).tail.map .elem) none
  head : (chunk size group base).head? = some base
  all : (chunk size group base).length = group
  aligned : ∀ a ∈ chunk size group base, 8 ∣ a
  apart : (chunk size group base).Pairwise fun a b => a + size ≤ b
  inside : ∀ a ∈ chunk size group base, base ≤ a ∧ a + size ≤ base + bytes

section

variable {p : Pointer} {itemSize group : BitVec 32}

theorem bucket_cases : p.bucket = 8 ∨ p.bucket = 16 := by
  cases p with
  | narrow => exact .inl rfl
  | wide => exact .inr rfl

/-- Shifting right and left again clears three bits. -/
theorem shift_back (x : BitVec 32) : (x.sshiftRight 3 <<< 3).toNat = x.toNat / 8 * 8 := by
  have clears : x.sshiftRight 3 <<< 3 = (x >>> 3) <<< 3 := by
    ext i bound
    rw [BitVec.getElem_shiftLeft, BitVec.getElem_shiftLeft]
    by_cases low : i < 3
    · simp [low]
    · simp only [low, decide_false, Bool.not_false, Bool.true_and]
      rw [BitVec.getElem_sshiftRight, BitVec.getElem_ushiftRight]
      have inside : 3 + (i - 3) < 32 := by omega
      rw [dif_pos inside, ← BitVec.getLsbD_eq_getElem]
  have bound := x.isLt
  rw [clears, BitVec.toNat_shiftLeft, BitVec.toNat_ushiftRight, Nat.shiftLeft_eq, Nat.shiftRight_eq_div_pow]
  omega

/-- The remainder that is tested is the one by 7. -/
theorem srem_seven (positive : 0 < itemSize.toInt) : itemSize.srem 7 ≠ 0 ↔ ¬7 ∣ itemSize.toNat := by
  have nonneg : itemSize.toInt = itemSize.toNat := by
    have cond := BitVec.toInt_eq_toNat_cond itemSize
    have bound := itemSize.isLt
    split at cond <;> omega
  have value : (itemSize.srem 7).toInt = itemSize.toNat % 7 := by
    rw [BitVec.toInt_srem, nonneg]
    exact (Int.tmod_eq_emod_of_nonneg (Int.natCast_nonneg _))
  rw [Nat.dvd_iff_mod_eq_zero, ← BitVec.toInt_inj.ne, value]
  change ¬((itemSize.toNat : Int) % 7 = 0) ↔ _
  omega

theorem qInitItemSize_toNat (positive : 0 < itemSize.toInt) :
    (p.qInitItemSize itemSize).toNat =
      (if 7 ∣ itemSize.toNat then itemSize.toNat else (itemSize.toNat + 7) / 8 * 8) + p.bucket := by
  have small : itemSize.toNat < 2^31 := by
    have cond := BitVec.toInt_eq_toNat_cond itemSize
    have bound := itemSize.isLt
    split at cond <;> omega
  have header := @bucket_cases p
  unfold Pointer.qInitItemSize
  rw [BitVec.toNat_add, BitVec.toNat_ofNat]
  by_cases seven : 7 ∣ itemSize.toNat
  · rw [if_neg (fun other => (srem_seven positive).mp other seven), if_pos seven]
    omega
  · rw [if_pos ((srem_seven positive).mpr seven), if_neg seven, shift_back, BitVec.toNat_add]
    have seven_toNat : (7 : BitVec 32).toNat = 7 := rfl
    omega

/-- With pointers of 32 bits it is the distance that the queues of `Tmpi.Utils.Tqueue` are made with: no size that
an `int` holds makes it wrap. -/
theorem qInitItemSize_narrow (positive : 0 < itemSize.toInt) :
    (Pointer.narrow.qInitItemSize itemSize).toNat = itemStride itemSize.toNat := by
  rw [qInitItemSize_toNat positive, itemStride]
  by_cases seven : 7 ∣ itemSize.toNat
  · rw [if_pos seven, if_neg (not_not.mpr (Nat.mod_eq_zero_of_dvd seven))]
    rfl
  · rw [if_neg seven, if_pos (mt Nat.dvd_of_mod_eq_zero seven)]
    rfl

/-- The exact element size, where the rounding is not left out. -/
def elementSize (p : Pointer) (itemSize : BitVec 32) : Nat := (itemSize.toNat + 7) / 8 * 8 + p.bucket

theorem sized_iff (positive : 0 < itemSize.toInt) :
    Sized p itemSize ↔ (7 ∣ itemSize.toNat → 8 ∣ itemSize.toNat) ∧ elementSize p itemSize < 2^31 := by
  have nonneg := BitVec.toInt_eq_toNat_cond itemSize
  have bound := itemSize.isLt
  have size := BitVec.toInt_eq_toNat_cond (p.qInitItemSize itemSize)
  have exact_size := @qInitItemSize_toNat p itemSize positive
  have header := @bucket_cases p
  unfold elementSize
  constructor
  · rintro ⟨-, multiple, enough⟩
    split at nonneg <;> split at size <;> split at exact_size <;> omega
  · rintro ⟨rounded, fits⟩
    refine ⟨by omega, ?_, ?_⟩
    · split at nonneg <;> split at size <;> split at exact_size <;> omega
    · split at nonneg <;> split at size <;> split at exact_size <;> omega

theorem qInitItemSize_eq (positive : 0 < itemSize.toInt) (rounded : 7 ∣ itemSize.toNat → 8 ∣ itemSize.toNat) :
    (p.qInitItemSize itemSize).toNat = elementSize p itemSize := by
  rw [qInitItemSize_toNat positive, elementSize]
  split
  · have whole := rounded ‹_›
    omega
  · rfl

theorem chunkBytes_iff {size : BitVec 32} (small : size.toNat < 2^31) (positive : 0 < group.toInt) :
    size.toNat * group.toNat ≤ p.chunkBytes size group ↔ p.Asks (size.toNat * group.toNat) := by
  have cond := BitVec.toInt_eq_toNat_cond group
  have less : group.toNat < 2^31 := by
    have bound := group.isLt
    split at cond <;> omega
  have bytes : size.toNat * group.toNat < 2^31 * 2^31 := Nat.mul_lt_mul'' small less
  unfold Pointer.chunkBytes
  have wrapped : (size * group).toNat = size.toNat * group.toNat % 2^32 := BitVec.toNat_mul ..
  cases p with
  | narrow =>
      unfold Pointer.sizeT Pointer.Asks
      dsimp only
      omega
  | wide =>
      unfold Pointer.sizeT Pointer.Asks
      dsimp only
      rw [BitVec.toNat_signExtend, BitVec.toNat_setWidth, BitVec.msb_eq_decide]
      split
      · have high := of_decide_eq_true ‹_›
        norm_num at high ⊢
        omega
      · have low := of_decide_eq_false (Bool.eq_false_iff.mpr ‹_›)
        norm_num at low ⊢
        omega

/-- A chunk that is asked for whole. -/
theorem carved_iff {α : Type} {s : Queues α} {q base size group bytes : Nat} (itemSize : (s.queue q).itemSize = size)
    (chunkGroup : (s.queue q).chunkGroup = group) (empty : (s.queue q).allocate = none) (positive : 0 < size)
    (multiple : 8 ∣ size) (many : 1 < group) (aligned : 8 ∣ base) :
    Carved s q size group base bytes ↔ size * group ≤ bytes := by
  obtain ⟨m, rfl⟩ : ∃ m, group = m + 1 := ⟨group - 1, by omega⟩
  have within : ∀ i < m + 1, i * size + size ≤ size * (m + 1) := by
    intro i less
    calc
      i * size + size = (i + 1) * size := (Nat.succ_mul i size).symm
      _ ≤ (m + 1) * size := Nat.mul_le_mul_right size less
      _ = size * (m + 1) := Nat.mul_comm ..
  constructor
  · intro carved
    have last := (carved.inside (base + m * size) (List.mem_map.mpr ⟨m, List.mem_range.mpr (by omega), rfl⟩)).2
    have whole : m * size + size = size * (m + 1) := by rw [Nat.mul_comm m, Nat.mul_succ]
    omega
  · intro room
    have result : s.qNewElem q (some base) = ({ s with
        queue := Function.update s.queue q { s.queue q with allocate := some (.elem (base + size)) }
        links := {
          next := Function.update s.links.next (.elem base) none
          prev := carveChunk s.links.prev size (m + 1) base } }, some (.elem base)) := by
      simp only [Queues.qNewElem, empty, itemSize, chunkGroup]
    constructor
    · rw [result]
    · rw [result]
      dsimp only
      rw [Function.update_self]
      exact carveChunk_path positive many
    · rw [chunk, List.range_succ_eq_map]
      simp
    · rw [chunk, List.length_map, List.length_range]
    · intro a member
      obtain ⟨i, -, rfl⟩ := List.mem_map.mp member
      exact (Nat.dvd_add_right aligned).mpr (Dvd.dvd.mul_left multiple i)
    · rw [chunk, List.pairwise_map]
      apply List.pairwise_lt_range.imp
      intro i j less
      have step := Nat.mul_le_mul_right size (Nat.succ_le_of_lt less)
      rw [Nat.succ_mul] at step
      omega
    · intro a member
      obtain ⟨i, less, rfl⟩ := List.mem_map.mp member
      have inside := within i (List.mem_range.mp less)
      omega

end

/-- Elements are sized and chunks carved as they should be just when the item size is no multiple of 7, or one of 8,
and the sizes of an element and of a chunk fit. -/
theorem carving_sound_iff {α : Type} {p : Pointer} {itemSize group : BitVec 32} (positive : 0 < itemSize.toInt)
    (many : 1 < group.toInt) {s : Queues α} {q base : Nat}
    (size : (s.queue q).itemSize = (p.qInitItemSize itemSize).toNat) (grouped : (s.queue q).chunkGroup = group.toNat)
    (empty : (s.queue q).allocate = none) (aligned : 8 ∣ base) :
    Sized p itemSize ∧ Carved s q (p.qInitItemSize itemSize).toNat group.toNat base
        (p.chunkBytes (p.qInitItemSize itemSize) group) ↔
      (7 ∣ itemSize.toNat → 8 ∣ itemSize.toNat) ∧ elementSize p itemSize < 2^31 ∧
        p.Asks (elementSize p itemSize * group.toNat) := by
  have cond := BitVec.toInt_eq_toNat_cond group
  have group_many : 1 < group.toNat := by
    have bound := group.isLt
    split at cond <;> omega
  rw [sized_iff positive, and_assoc]
  refine and_congr_right fun rounded => and_congr_right fun fits => ?_
  have exact_size := @qInitItemSize_eq p itemSize positive rounded
  have header := @bucket_cases p
  have some_size : 0 < elementSize p itemSize := by
    unfold elementSize
    omega
  have multiple : 8 ∣ elementSize p itemSize := by
    unfold elementSize
    omega
  rw [carved_iff size grouped empty (exact_size ▸ some_size) (exact_size ▸ multiple) group_many aligned,
    chunkBytes_iff (exact_size ▸ fits) (by omega), exact_size]

/-- A queue of items of 20 bytes, two to a chunk. -/
theorem carving_sound_twenty : Sized .narrow 20 ∧
    Carved (⟨fun _ => ⟨0, none, none, 32, 2⟩, ⟨fun _ => none, fun _ => none⟩, fun _ => (0 : Int)⟩ : Queues Int) 0 32 2 64
      64 := by
  apply (@carving_sound_iff Int .narrow 20 2 (by decide) (by decide)
    ⟨fun _ => ⟨0, none, none, 32, 2⟩, ⟨fun _ => none, fun _ => none⟩, fun _ => 0⟩ 0 64 rfl rfl rfl (by decide)).mpr
  exact ⟨by decide, by decide, show _ < _ by decide⟩

/-- Items of 7 bytes are not rounded up: of two elements in an aligned block the second one is not aligned. -/
theorem seven_unaligned :
    ¬Sized .wide 7 ∧ ∃ a ∈ chunk (Pointer.wide.qInitItemSize 7).toNat 2 64, ¬8 ∣ a := by
  refine ⟨fun sized => ?_, 87, by decide, by decide⟩
  exact absurd sized.multiple (by decide)

end Tmpi.Utils
