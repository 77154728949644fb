import Tmpi.Mpi.Types
import Tmpi.Netd.Reduce

/-! The length of a message in bytes, as the calls compute it in `int`s. -/

namespace Tmpi.Mpi

open Netd (Platform)

/-- `MPI_ERR_INTERN`, `MPI_ERR_COMM` and `MPI_ERR_BUFFER`. -/
inductive Refusal where
  | intern | comm | buffer
  deriving DecidableEq, Repr

/-- What a request is made with beside its type and count. `buffered` says that the mode of a
send is `BUFFERED`; `room` whether `mb_alloc` finds space for a buffer. -/
structure InitCall where
  pointer : Bool
  channel : Bool
  communicator : Bool
  handle : Bool
  buffered : Bool
  room : Bool
  deriving DecidableEq, Repr

/-- What a collective call is made with; `memory` is whether `malloc` returns a block. -/
structure CollectiveCall where
  commWorld : Bool
  communicator : Bool
  machines : Nat
  memory : Bool
  deriving DecidableEq, Repr

section Calls

variable (platform : Platform) (sizeofLongDouble : Nat)

/-- `tmpi_Usize(datatype)*count`. -/
def messageLen (datatype : Datatype) (count : BitVec 32) : BitVec 32 :=
  BitVec.ofNat 32 (tmpiUsize platform sizeofLongDouble datatype) * count

/-- The checks that `tmpi_intra_init_sh` and `tmpi_intra_init_rh` begin with. -/
def initChecks (call : InitCall) (len : BitVec 32) : Except Refusal (BitVec 32) :=
  if !call.pointer then .error .intern
  else if !call.channel then .error .intern
  else if len.toInt < 0 then .error .intern
  else if !call.communicator then .error .comm
  else if !call.handle then .error .intern
  else .ok len

/-- `tmpi_intra_init_sh` up to the `buflen` it stores. -/
def initShLen (call : InitCall) (datatype : Datatype) (count : BitVec 32) :
    Except Refusal (BitVec 32) := do
  let len ← initChecks call (messageLen platform sizeofLongDouble datatype count)
  if call.buffered ∧ !call.room ∧ 0 < len.toInt then .error .buffer else .ok len

/-- `tmpi_intra_init_rh` up to the `buflen` it stores. -/
def initRhLen (call : InitCall) (datatype : Datatype) (count : BitVec 32) :
    Except Refusal (BitVec 32) :=
  initChecks call (messageLen platform sizeofLongDouble datatype count)

/-- `tmpi_Bcast` up to the `buflen` that it moves. -/
def bcastLen (call : CollectiveCall) (datatype : Datatype) (count : BitVec 32) :
    Except Refusal (BitVec 32) :=
  if !call.commWorld then .error .intern
  else if !call.communicator then .error .comm
  else .ok (messageLen platform sizeofLongDouble datatype count)

/-- `tmpi_Reduce` up to its reduction: `buflen` is the size of the block for the partial result. -/
def reduceLen (call : CollectiveCall) (datatype : Datatype) (count : BitVec 32) :
    Except Refusal (BitVec 32) :=
  if !call.commWorld then .error .intern
  else if !call.communicator then .error .comm
  else if !call.memory then .error .intern
  else .ok (messageLen platform sizeofLongDouble datatype count)

/-- `tmpi_Allreduce` up to its reduction. -/
def allreduceLen (call : CollectiveCall) (datatype : Datatype) (count : BitVec 32) :
    Except Refusal (BitVec 32) :=
  if !call.commWorld then .error .intern
  else if !call.communicator then .error .comm
  else if 1 < call.machines ∧ !call.memory then .error .intern
  else .ok (messageLen platform sizeofLongDouble datatype count)

/-! ## Exact lengths -/

/-- The bytes of `count` elements. -/
def exactLen (datatype : Datatype) (count : BitVec 32) : Int :=
  tmpiUsize platform sizeofLongDouble datatype * count.toInt

/-- A call refuses its arguments or goes on with the exact length. -/
def Exact (result : Except Refusal (BitVec 32)) (exact : Int) : Prop :=
  ∀ len, result = .ok len → len.toInt = exact ∧ 0 ≤ exact

variable {platform sizeofLongDouble} {datatype : Datatype} {count : BitVec 32}

theorem toInt_messageLen : (messageLen platform sizeofLongDouble datatype count).toInt =
    (exactLen platform sizeofLongDouble datatype count).bmod (2 ^ 32) := by
  rw [messageLen, exactLen, BitVec.toInt_mul, BitVec.toInt_ofNat', Int.bmod_mul_bmod]

/-- The length is exact where the product is in the upper half of an `int`. -/
theorem messageLen_exact_iff :
    ((messageLen platform sizeofLongDouble datatype count).toInt =
        exactLen platform sizeofLongDouble datatype count ∧
      0 ≤ exactLen platform sizeofLongDouble datatype count) ↔
    0 ≤ exactLen platform sizeofLongDouble datatype count ∧
      exactLen platform sizeofLongDouble datatype count < 2 ^ 31 := by
  constructor
  · rintro ⟨exact, positive⟩
    have high := (Netd.toInt_range (messageLen platform sizeofLongDouble datatype count)).2
    exact ⟨positive, exact ▸ high⟩
  · rintro ⟨positive, high⟩
    refine ⟨?_, positive⟩
    rw [toInt_messageLen]
    exact Int.bmod_eq_of_le (by omega) (by omega)

theorem exact_ok_iff :
    Exact (.ok (messageLen platform sizeofLongDouble datatype count))
        (exactLen platform sizeofLongDouble datatype count) ↔
      0 ≤ exactLen platform sizeofLongDouble datatype count ∧
        exactLen platform sizeofLongDouble datatype count < 2 ^ 31 := by
  rw [← messageLen_exact_iff]
  constructor
  · exact fun exact => exact _ rfl
  · rintro exact len same
    cases same
    exact exact

theorem exact_error (refusal : Refusal) (exact : Int) : Exact (.error refusal) exact := nofun

/-- A guard before a call: it refuses, or the rest of the call is exact. -/
theorem exact_guard_iff {p : Prop} [Decidable p] {refusal : Refusal} {exact : Int}
    {rest : Except Refusal (BitVec 32)} :
    Exact (if p then .error refusal else rest) exact ↔ p ∨ Exact rest exact := by
  by_cases refused : p
  · rw [if_pos refused]
    exact ⟨fun _ => .inl refused, fun _ => exact_error refusal exact⟩
  · rw [if_neg refused]
    exact ⟨.inr, fun outcome => outcome.resolve_left refused⟩

end Calls

/-- Refused by the tests of the other arguments. -/
def InitCall.refused (call : InitCall) : Prop :=
  !call.pointer ∨ !call.channel ∨ !call.communicator ∨ !call.handle

section Lengths

variable (platform : Platform) (sizeofLongDouble : Nat) (datatype : Datatype) (count : BitVec 32)

/-- The exact length is one of an `int`. -/
def Representable : Prop :=
  0 ≤ exactLen platform sizeofLongDouble datatype count ∧
    exactLen platform sizeofLongDouble datatype count < 2 ^ 31

/-- The exact length wraps around to a negative `int`. -/
def WrapsNegative : Prop :=
  2 ^ 31 ≤ exactLen platform sizeofLongDouble datatype count % 2 ^ 32

theorem messageLen_neg_iff :
    (messageLen platform sizeofLongDouble datatype count).toInt < 0 ↔
      WrapsNegative platform sizeofLongDouble datatype count := by
  rw [toInt_messageLen, WrapsNegative, Int.bmod_def]
  have low := Int.emod_nonneg (exactLen platform sizeofLongDouble datatype count)
    (show (2 ^ 32 : Int) ≠ 0 by decide)
  have high := Int.emod_lt_of_pos (exactLen platform sizeofLongDouble datatype count)
    (show (0 : Int) < 2 ^ 32 by decide)
  split <;> omega

theorem initChecks_refused (call : InitCall) (refused : call.refused ∨
    WrapsNegative platform sizeofLongDouble datatype count) : ∃ refusal,
    initChecks call (messageLen platform sizeofLongDouble datatype count) = .error refusal := by
  rw [← messageLen_neg_iff, InitCall.refused] at refused
  unfold initChecks
  split_ifs
  · exact ⟨_, rfl⟩
  · exact ⟨_, rfl⟩
  · exact ⟨_, rfl⟩
  · exact ⟨_, rfl⟩
  · exact ⟨_, rfl⟩
  · tauto

theorem initChecks_accepted (call : InitCall) (accepted : ¬ (call.refused ∨
    WrapsNegative platform sizeofLongDouble datatype count)) :
    initChecks call (messageLen platform sizeofLongDouble datatype count) =
      .ok (messageLen platform sizeofLongDouble datatype count) := by
  rw [← messageLen_neg_iff, InitCall.refused] at accepted
  unfold initChecks
  split_ifs <;> tauto

theorem initRhLen_exact_iff (call : InitCall) :
    Exact (initRhLen platform sizeofLongDouble call datatype count)
        (exactLen platform sizeofLongDouble datatype count) ↔
      call.refused ∨ WrapsNegative platform sizeofLongDouble datatype count ∨
        Representable platform sizeofLongDouble datatype count := by
  unfold initRhLen
  rw [← or_assoc]
  by_cases refused : call.refused ∨ WrapsNegative platform sizeofLongDouble datatype count
  · obtain ⟨refusal, result⟩ := initChecks_refused platform sizeofLongDouble datatype count call refused
    rw [result]
    exact ⟨fun _ => .inl refused, fun _ => exact_error refusal _⟩
  · rw [initChecks_accepted platform sizeofLongDouble datatype count call refused, exact_ok_iff]
    exact ⟨.inr, fun outcome => outcome.resolve_left refused⟩

theorem messageLen_pos_iff (wraps : ¬ WrapsNegative platform sizeofLongDouble datatype count) :
    0 < (messageLen platform sizeofLongDouble datatype count).toInt ↔
      exactLen platform sizeofLongDouble datatype count % 2 ^ 32 ≠ 0 := by
  rw [WrapsNegative] at wraps
  rw [toInt_messageLen, Int.bmod_def]
  have low := Int.emod_nonneg (exactLen platform sizeofLongDouble datatype count)
    (show (2 ^ 32 : Int) ≠ 0 by decide)
  split <;> omega

/-- A buffered send of some bytes gets no buffer. -/
def NoBuffer (call : InitCall) : Prop :=
  call.buffered ∧ !call.room ∧ exactLen platform sizeofLongDouble datatype count % 2 ^ 32 ≠ 0

theorem initShLen_exact_iff (call : InitCall) :
    Exact (initShLen platform sizeofLongDouble call datatype count)
        (exactLen platform sizeofLongDouble datatype count) ↔
      call.refused ∨ WrapsNegative platform sizeofLongDouble datatype count ∨
        NoBuffer platform sizeofLongDouble datatype count call ∨
          Representable platform sizeofLongDouble datatype count := by
  unfold initShLen
  rw [← or_assoc]
  by_cases refused : call.refused ∨ WrapsNegative platform sizeofLongDouble datatype count
  · obtain ⟨refusal, result⟩ := initChecks_refused platform sizeofLongDouble datatype count call refused
    rw [result]
    exact ⟨fun _ => .inl refused, fun _ => exact_error refusal _⟩
  · have wraps := (not_or.mp refused).2
    rw [initChecks_accepted platform sizeofLongDouble datatype count call refused]
    refine Iff.trans (exact_guard_iff (p := call.buffered ∧ !call.room ∧
      0 < (messageLen platform sizeofLongDouble datatype count).toInt)) ?_
    rw [messageLen_pos_iff _ _ _ _ wraps, exact_ok_iff]
    exact ⟨.inr, fun outcome => outcome.resolve_left refused⟩

/-- Refused by the tests of the other arguments. -/
def CollectiveCall.refused (call : CollectiveCall) : Prop :=
  !call.commWorld ∨ !call.communicator

theorem bcastLen_exact_iff (call : CollectiveCall) :
    Exact (bcastLen platform sizeofLongDouble call datatype count)
        (exactLen platform sizeofLongDouble datatype count) ↔
      call.refused ∨ Representable platform sizeofLongDouble datatype count := by
  unfold bcastLen CollectiveCall.refused Representable
  rw [exact_guard_iff, exact_guard_iff, exact_ok_iff, or_assoc]

theorem reduceLen_exact_iff (call : CollectiveCall) :
    Exact (reduceLen platform sizeofLongDouble call datatype count)
        (exactLen platform sizeofLongDouble datatype count) ↔
      call.refused ∨ !call.memory ∨ Representable platform sizeofLongDouble datatype count := by
  unfold reduceLen CollectiveCall.refused Representable
  rw [exact_guard_iff, exact_guard_iff, exact_guard_iff, exact_ok_iff, or_assoc]

theorem allreduceLen_exact_iff (call : CollectiveCall) :
    Exact (allreduceLen platform sizeofLongDouble call datatype count)
        (exactLen platform sizeofLongDouble datatype count) ↔
      call.refused ∨ (1 < call.machines ∧ !call.memory) ∨
        Representable platform sizeofLongDouble datatype count := by
  unfold allreduceLen CollectiveCall.refused Representable
  rw [exact_guard_iff, exact_guard_iff, exact_guard_iff, exact_ok_iff, or_assoc]

/-- A length is exact when it is the length of an `int`, or when the call does not use it: the
point to point calls refuse a length that wraps around to a negative one, and all refuse for
other reasons. -/
theorem message_length_exact_iff (init : InitCall) (call : CollectiveCall) :
    (Exact (initShLen platform sizeofLongDouble init datatype count)
        (exactLen platform sizeofLongDouble datatype count) ↔
      init.refused ∨ WrapsNegative platform sizeofLongDouble datatype count ∨
        NoBuffer platform sizeofLongDouble datatype count init ∨
          Representable platform sizeofLongDouble datatype count) ∧
    (Exact (initRhLen platform sizeofLongDouble init datatype count)
        (exactLen platform sizeofLongDouble datatype count) ↔
      init.refused ∨ WrapsNegative platform sizeofLongDouble datatype count ∨
        Representable platform sizeofLongDouble datatype count) ∧
    (Exact (bcastLen platform sizeofLongDouble call datatype count)
        (exactLen platform sizeofLongDouble datatype count) ↔
      call.refused ∨ Representable platform sizeofLongDouble datatype count) ∧
    (Exact (reduceLen platform sizeofLongDouble call datatype count)
        (exactLen platform sizeofLongDouble datatype count) ↔
      call.refused ∨ !call.memory ∨ Representable platform sizeofLongDouble datatype count) ∧
    (Exact (allreduceLen platform sizeofLongDouble call datatype count)
        (exactLen platform sizeofLongDouble datatype count) ↔
      call.refused ∨ (1 < call.machines ∧ !call.memory) ∨
        Representable platform sizeofLongDouble datatype count) :=
  ⟨initShLen_exact_iff platform sizeofLongDouble datatype count init,
    initRhLen_exact_iff platform sizeofLongDouble datatype count init,
    bcastLen_exact_iff platform sizeofLongDouble datatype count call,
    reduceLen_exact_iff platform sizeofLongDouble datatype count call,
    allreduceLen_exact_iff platform sizeofLongDouble datatype count call⟩

end Lengths

/-- 2^29 doubles: the length wraps around to 0 and the send is made. -/
theorem init_sh_wraps :
    ¬ Exact (initShLen Netd.intPlatform 16 ⟨true, true, true, true, false, true⟩ .double (2 ^ 29))
      (exactLen Netd.intPlatform 16 .double (2 ^ 29)) := by
  intro exact
  have len : messageLen Netd.intPlatform 16 .double (2 ^ 29) = 0 := by decide
  have made : initShLen Netd.intPlatform 16 ⟨true, true, true, true, false, true⟩ .double
      (2 ^ 29) = .ok 0 := by
    rw [initShLen, len]
    rfl
  have wanted := (exact 0 made).1
  have bytes : exactLen Netd.intPlatform 16 .double (2 ^ 29) = 8 * 2 ^ 29 := by decide
  rw [bytes] at wanted
  exact absurd wanted (by decide)

end Tmpi.Mpi
