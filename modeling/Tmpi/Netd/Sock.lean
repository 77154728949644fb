import Tmpi.Lib.Transfer
import Tmpi.Netd.Op

/-! `sock_sr.c`: bytes that are written to a socket and read from it in parts. -/

namespace Tmpi.Netd.Pt2pt

open Transfer

/-- `MAX_RETRY` -/
def maxRetry : Nat := 100

/-- `len`, the sum of the `iov_len`s, in an `int`. -/
def iovLen (iov : List Buffer) : BitVec 32 := iov.foldl (fun len base => len + .ofNat 32 base.length) 0

/-- The loop that takes `m` written bytes off the buffers, with what is left of `m`. -/
def adjustIov : Nat → List Buffer → Nat × List Buffer
  | m, [] => (m, [])
  | m, base :: iov =>
      let t := if base.length < m then base.length else m
      if m - t = 0 then (0, base.drop t :: iov)
      else ((adjustIov (m - t) iov).1, base.drop t :: (adjustIov (m - t) iov).2)

/-- What follows a `writev` of `m` bytes. The state is the buffers that are left and the bytes that are written. -/
def writevMove (m : Nat) (s : List Buffer × Buffer) : Except (List Buffer × Buffer) (List Buffer × Buffer) :=
  let out := s.2 ++ s.1.flatten.take m
  if (adjustIov m s.1).1 ≠ 0 then .error ((adjustIov m s.1).2, out)
  else .ok ((adjustIov m s.1).2.dropWhile List.isEmpty, out)

/-- What `sock_writev` returns, and the bytes it has written. -/
def sockWritev (calls : Nat → Call) (iov : List Buffer) : Option (Int × Buffer) :=
  (loop maxRetry calls (fun _ s => s.1.flatten.length) writevMove (iovLen iov).toInt.toNat 0 0 0 (iov, [])).map
    fun (ret, _, out) => (ret, out)

/-- What `sock_read` returns, the bytes it has read of `stream` and those it leaves. -/
def sockRead (calls : Nat → Call) (stream : Buffer) (len : Int) : Option (Int × Buffer × Buffer) :=
  loop maxRetry calls (fun n s => min (len.toNat - n) s.2.length) (fun m s => .ok (s.1 ++ s.2.take m, s.2.drop m))
    len.toNat 0 0 0 ([], stream)

theorem adjustIov_spec {m : Nat} {iov : List Buffer} (within : m ≤ iov.flatten.length) :
    (adjustIov m iov).1 = 0 ∧ (adjustIov m iov).2.flatten = iov.flatten.drop m := by
  induction iov generalizing m with
  | nil => exact ⟨Nat.le_zero.mp within, by simp [adjustIov]⟩
  | cons base iov ih =>
      rw [List.flatten_cons, List.length_append] at within
      unfold adjustIov
      dsimp only
      by_cases inside : base.length < m
      · have rest := @ih (m - base.length) (by omega)
        rw [if_pos inside, if_neg (by omega : m - base.length ≠ 0), List.drop_length]
        exact ⟨rest.1, by rw [List.flatten_cons, List.nil_append, rest.2, List.flatten_cons,
          List.drop_append, List.drop_eq_nil_of_le inside.le, List.nil_append]⟩
      · rw [if_neg inside, if_pos (Nat.sub_self m), List.flatten_cons, List.flatten_cons,
          List.drop_append_of_le_length (Nat.not_lt.mp inside)]
        exact ⟨rfl, rfl⟩

theorem flatten_dropWhile_isEmpty (iov : List Buffer) : (iov.dropWhile List.isEmpty).flatten = iov.flatten := by
  induction iov with
  | nil => rfl
  | cons base iov ih =>
      cases base with
      | nil => exact ih
      | cons byte bytes => rfl

theorem writevMove_eq {m : Nat} {iov : List Buffer} {out : Buffer} (within : m ≤ iov.flatten.length) :
    ∃ rest, writevMove m (iov, out) = .ok (rest, out ++ iov.flatten.take m) ∧
      rest.flatten = iov.flatten.drop m := by
  have adjusted := adjustIov_spec within
  refine ⟨(adjustIov m iov).2.dropWhile List.isEmpty, ?_, ?_⟩
  · exact if_neg (not_not.mpr adjusted.1)
  · rw [flatten_dropWhile_isEmpty, adjusted.2]

theorem iovLen_eq (iov : List Buffer) : iovLen iov = .ofNat 32 iov.flatten.length := by
  have from_any : ∀ (iov : List Buffer) (len : BitVec 32),
      iov.foldl (fun len base => len + .ofNat 32 base.length) len = len + .ofNat 32 iov.flatten.length := by
    intro iov
    induction iov with
    | nil => intro len; simp
    | cons base iov ih =>
        intro len
        rw [List.foldl_cons, ih, List.flatten_cons, List.length_append, BitVec.ofNat_add, BitVec.add_assoc]
  rw [iovLen, from_any]
  exact BitVec.zero_add _

/-- After `n` bytes: what is written and what is left make up the buffers. -/
def Written (iov : List Buffer) (n : Nat) (s : List Buffer × Buffer) : Prop :=
  s.2 ++ s.1.flatten = iov.flatten ∧ s.2.length = n

theorem Written.left {iov : List Buffer} {n : Nat} {s : List Buffer × Buffer} (written : Written iov n s) :
    n + s.1.flatten.length = iov.flatten.length := by
  rw [← written.2, ← List.length_append, written.1]

theorem Written.move {iov : List Buffer} {n m : Nat} {s : List Buffer × Buffer} (written : Written iov n s)
    (within : m ≤ s.1.flatten.length) : ∃ s', writevMove m s = .ok s' ∧ Written iov (n + m) s' := by
  obtain ⟨rest, moved, left⟩ := @writevMove_eq m s.1 s.2 within
  refine ⟨_, moved, ?_, ?_⟩
  · dsimp only
    rw [left, List.append_assoc, List.take_append_drop, written.1]
  · dsimp only
    rw [List.length_append, List.length_take_of_le within, written.2]

/-- The whole of the buffers is written, in whatever parts. -/
theorem sockWritev_writes {calls : Nat → Call} (fair : Fair maxRetry calls) {iov : List Buffer}
    (small : iov.flatten.length < 2^31) : sockWritev calls iov = some (0, iov.flatten) := by
  have len : (iovLen iov).toInt.toNat = iov.flatten.length := by
    rw [iovLen_eq, BitVec.toInt_eq_toNat_of_lt (by rw [BitVec.toNat_ofNat]; omega), BitVec.toNat_ofNat]
    omega
  have completes := @loop_completes _ _ calls (fun _ s => s.1.flatten.length) writevMove iov.flatten.length
    (Written iov) fair (fun n s written more => by
      have left := written.left
      exact ⟨by omega, fun m _ offered => ⟨by omega, written.move offered⟩⟩)
    0 0 (iov, []) ⟨rfl, rfl⟩ (Nat.zero_le _)
  obtain ⟨⟨rest, out⟩, done, written⟩ := completes
  have nothing : rest.flatten = [] := List.eq_nil_of_length_eq_zero (Nat.add_eq_left.mp written.left)
  have whole : out = iov.flatten := by
    rw [← written.1, nothing, List.append_nil]
  rw [whole] at done
  unfold sockWritev
  rw [len]
  exact congrArg (Option.map fun s => (s.1, s.2.2)) done

/-- From `2^31` bytes on the sum does not say how many there are. -/
theorem sockWritev_writes_iff {iov : List Buffer} :
    (∀ calls, Fair maxRetry calls → sockWritev calls iov = some (0, iov.flatten)) ↔ iov.flatten.length < 2^31 := by
  refine ⟨fun writes => ?_, fun small calls fair => sockWritev_writes fair small⟩
  have sum := BitVec.toInt_eq_toNat_cond (iovLen iov)
  rw [iovLen_eq, BitVec.toNat_ofNat, ← iovLen_eq] at sum
  have less : (iovLen iov).toInt.toNat ≤ iov.flatten.length := by
    split at sum <;> omega
  obtain ⟨⟨rest, out⟩, done, -, count⟩ := @loop_single _ maxRetry (fun _ s => s.1.flatten.length) writevMove
    (iovLen iov).toInt.toNat (Written iov) (fun n s written more => by
      have left := written.left
      exact ⟨by omega, written.move (by omega)⟩) 0 0 0 (iov, []) ⟨rfl, rfl⟩ (Nat.zero_le _)
  have written := writes _ (Fair.moved (by decide) 0)
  unfold sockWritev at written
  rw [done] at written
  have whole : out = iov.flatten := (Prod.mk.inj (Option.some.inj written)).2
  rw [whole] at count
  dsimp only at count
  split at sum <;> omega

/-- From `2^31` bytes on the sum is negative: nothing is written, and the call succeeds. -/
theorem sockWritev_overflows {calls : Nat → Call} {iov : List Buffer} (wide : 2^31 ≤ iov.flatten.length)
    (narrow : iov.flatten.length < 2^32) : sockWritev calls iov = some (0, []) := by
  have negative : (iovLen iov).toInt < 0 := by
    rw [iovLen_eq, BitVec.toInt_eq_toNat_cond, BitVec.toNat_ofNat]
    split <;> omega
  unfold sockWritev
  rw [Int.toNat_of_nonpos negative.le, loop_done le_rfl]
  rfl

/-- After `n` bytes: what is read and what is left make up the stream. -/
def Read (stream : Buffer) (n : Nat) (s : Buffer × Buffer) : Prop := s.1 ++ s.2 = stream ∧ s.1.length = n

theorem Read.left {stream : Buffer} {n : Nat} {s : Buffer × Buffer} (read : Read stream n s) :
    n + s.2.length = stream.length := by
  rw [← read.2, ← List.length_append, read.1]

theorem Read.move {stream : Buffer} {n m : Nat} {s : Buffer × Buffer} (read : Read stream n s)
    (within : m ≤ s.2.length) : Read stream (n + m) (s.1 ++ s.2.take m, s.2.drop m) := by
  constructor
  · dsimp only
    rw [List.append_assoc, List.take_append_drop, read.1]
  · dsimp only
    rw [List.length_append, List.length_take_of_le within, read.2]

theorem sockRead_reads {calls : Nat → Call} (fair : Fair maxRetry calls) {stream : Buffer} {len : Int}
    (there : len.toNat ≤ stream.length) :
    sockRead calls stream len = some (0, stream.take len.toNat, stream.drop len.toNat) := by
  have completes := @loop_completes _ _ calls (fun n s => min (len.toNat - n) s.2.length)
    (fun m s => .ok (s.1 ++ s.2.take m, s.2.drop m)) len.toNat (Read stream) fair (fun n s read more => by
      have left := read.left
      refine ⟨lt_min (by omega) (by omega), fun m _ offered => ⟨?_, _, rfl, ?_⟩⟩
      · have wanted := le_trans offered (min_le_left _ _)
        omega
      · exact read.move (le_trans offered (min_le_right _ _)))
    0 0 ([], stream) ⟨rfl, rfl⟩ (Nat.zero_le _)
  obtain ⟨⟨data, rest⟩, done, read⟩ := completes
  obtain ⟨rfl, rfl⟩ : data = stream.take len.toNat ∧ rest = stream.drop len.toNat := by
    rw [← read.1, ← read.2]
    exact ⟨List.take_left.symm, List.drop_left.symm⟩
  exact done

end Tmpi.Netd.Pt2pt
