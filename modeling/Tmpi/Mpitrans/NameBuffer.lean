import Tmpi.Mpitrans.SymbolTable

/-! `misc.c`: the names of the open frames in the string buffer. -/

namespace Tmpi.Mpitrans

/-- The bytes from `offset` to `offset + size`. -/
structure Region where
  offset : Int
  size : Nat
  deriving DecidableEq, Repr

namespace Region

variable (r r' : Region)

/-- It lies in the buffer. -/
def Inside : Prop := 0 ≤ r.offset ∧ r.offset + r.size ≤ strbufSize - 1

def Disjoint : Prop := r.offset + r.size < r'.offset ∨ r'.offset + r'.size < r.offset

/-- It ends before `current`. -/
def Below (current : Nat) : Prop := 0 ≤ r.offset ∧ r.offset + r.size < current

end Region

inductive SbCall where
  | newframe
  | alloc (size : Nat)
  | restore
  deriving DecidableEq, Repr

/-- An open frame: what `current` was before it, and the names allocated in it. -/
structure SbFrame where
  opened : Nat
  names : List Region

/-- A buffer and the names in it. The innermost frame is first; `outer` names are in no frame. -/
structure Names where
  sb : StrBuf
  frames : List SbFrame
  outer : List Region

namespace Names

variable (x : Names)

/-- `new_strbuf` -/
def start (memory : Nat → UInt8) : Names := ⟨⟨[], memory, 0⟩, [], []⟩

/-- The names of all open frames. -/
def live : List Region := x.frames.flatMap SbFrame.names ++ x.outer

/-- A name of the innermost frame. -/
def add (r : Region) : Names :=
  match x.frames with
  | [] => { x with outer := r :: x.outer }
  | f :: frames => { x with frames := { f with names := r :: f.names } :: frames }

def step : SbCall → Names
  | .newframe => { x with sb := x.sb.newframe.1, frames := ⟨x.sb.current, []⟩ :: x.frames }
  | .alloc size =>
      match x.sb.alloc size with
      | (sb, offset, []) => { x with sb := sb }.add ⟨offset, size⟩
      | (sb, _, _) => { x with sb := sb }
  | .restore => { x with sb := x.sb.restore.1, frames := x.frames.tail }

/-- What a call should do: a name that is allocated lies in the buffer and overlaps with none of an open frame, and
`current` is restored. -/
def Sound : SbCall → Prop
  | .newframe => True
  | .alloc size =>
      match x.sb.alloc size with
      | (_, offset, []) => Region.Inside ⟨offset, size⟩ ∧ ∀ r ∈ x.live, Region.Disjoint ⟨offset, size⟩ r
      | _ => True
  | .restore => ∀ f ∈ x.frames.head?, x.sb.restore.1.current = f.opened

/-- A name that still fits begins where a `short` can say so. -/
def Narrow : SbCall → Prop
  | .alloc size => x.sb.current + size + 1 < strbufSize → x.sb.current < 2^15
  | _ => True

/-- Every call is made where `p` allows it. -/
def Everywhere (p : Names → SbCall → Prop) : Names → List SbCall → Prop
  | _, [] => True
  | x, call :: calls => p x call ∧ Everywhere p (x.step call) calls

end Names

/-- Frames are restored that are open, and at most `STACK_SIZE` are. -/
def Nested : Nat → List SbCall → Prop
  | _, [] => True
  | frames, .newframe :: calls => frames < stackSize ∧ Nested (frames + 1) calls
  | frames, .alloc _ :: calls => Nested frames calls
  | frames, .restore :: calls => 0 < frames ∧ Nested (frames - 1) calls

/-- The names of each frame end before `current`, and those of the frames around it before its mark. -/
def Stacked (outer : List Region) : Nat → List Nat → List SbFrame → Prop
  | current, [], [] => ∀ r ∈ outer, r.Below current
  | current, mark :: stk, f :: frames =>
      (∀ r ∈ f.names, r.Below current) ∧ f.opened = mark ∧ mark ≤ current ∧ Stacked outer mark stk frames
  | _, _, _ => False

theorem toShort_narrow {n : Nat} (small : n < 2^15) : toShort n = n := by
  rw [toShort, Int.bmod_def]
  omega

theorem toShort_negative {n : Nat} (wide : 2^15 ≤ n) (small : n ≤ strbufSize) : toShort n < 0 := by
  unfold strbufSize at small
  rw [toShort, Int.bmod_def]
  omega

section

variable {outer : List Region} {current limit : Nat} {stk : List Nat} {frames : List SbFrame} {r : Region}

theorem Region.Below.mono (below : r.Below current) (le : current ≤ limit) : r.Below limit :=
  ⟨below.1, lt_of_lt_of_le below.2 (Int.ofNat_le.mpr le)⟩

theorem Stacked.length (stacked : Stacked outer current stk frames) : stk.length = frames.length := by
  induction stk generalizing current frames with
  | nil =>
      cases frames with
      | nil => rfl
      | cons f frames => exact absurd stacked id
  | cons mark stk ih =>
      cases frames with
      | nil => exact absurd stacked id
      | cons f frames => rw [List.length_cons, List.length_cons, ih stacked.2.2.2]

theorem Stacked.below (stacked : Stacked outer current stk frames) :
    ∀ r ∈ frames.flatMap SbFrame.names ++ outer, r.Below current := by
  induction stk generalizing current frames with
  | nil =>
      cases frames with
      | nil => exact stacked
      | cons f frames => exact absurd stacked id
  | cons mark stk ih =>
      cases frames with
      | nil => exact absurd stacked id
      | cons f frames =>
          obtain ⟨here, -, le, rest⟩ := stacked
          intro r member
          rw [List.flatMap_cons, List.append_assoc] at member
          rcases List.mem_append.mp member with inner | further
          · exact here r inner
          · exact (ih rest r further).mono le

end

namespace Names

variable {x : Names} {call : SbCall}

/-- The invariant of the buffer. -/
structure Inv (x : Names) : Prop where
  stacked : Stacked x.outer x.sb.current x.sb.stk x.frames
  room : x.sb.current ≤ strbufSize

theorem Inv.add {r : Region} {current : Nat} (inv : x.Inv) (below : r.Below current) (le : x.sb.current ≤ current)
    (room : current ≤ strbufSize) : ({ x with sb := { x.sb with current := current } }.add r).Inv := by
  have stacked := inv.stacked
  unfold Names.add
  dsimp only
  cases shape : x.frames with
  | nil =>
      rw [shape] at stacked
      have none := List.length_eq_zero_iff.mp stacked.length
      rw [none] at stacked
      refine ⟨?_, room⟩
      dsimp only
      rw [none]
      intro r' member
      rcases List.mem_cons.mp member with rfl | old
      · exact below
      · exact (stacked r' old).mono le
  | cons f frames =>
      rw [shape] at stacked
      cases marks : x.sb.stk with
      | nil =>
          rw [marks] at stacked
          exact absurd stacked id
      | cons mark stk =>
          rw [marks] at stacked
          obtain ⟨names, opened, low, rest⟩ := stacked
          refine ⟨⟨fun r' member => ?_, opened, low.trans le, rest⟩, room⟩
          rcases List.mem_cons.mp member with rfl | old
          · exact below
          · exact (names r' old).mono le

theorem add_depth (x : Names) (r : Region) : (x.add r).frames.length = x.frames.length := by
  unfold add
  split
  · rfl
  · simp_all

/-- Where the offset is a `short`, the call does what it should, and not elsewhere. -/
theorem Inv.sound_iff (inv : x.Inv) : x.Sound call ↔ x.Narrow call := by
  cases call with
  | newframe => exact Iff.rfl
  | restore =>
      refine iff_of_true (fun f head => ?_) trivial
      have stacked := inv.stacked
      obtain ⟨frames, shape⟩ := List.head?_eq_some_iff.mp head
      rw [shape] at stacked
      cases stk : x.sb.stk with
      | nil =>
          rw [stk] at stacked
          exact absurd stacked id
      | cons mark stk =>
          rw [stk] at stacked
          rw [StrBuf.restore, stk]
          exact stacked.2.1.symm
  | alloc size =>
      unfold Sound Narrow StrBuf.alloc
      dsimp only
      by_cases room : x.sb.current + size + 1 < strbufSize
      · rw [if_pos room]
        dsimp only
        constructor
        · rintro ⟨⟨inside, -⟩, -⟩ -
          by_contra wide
          have negative : toShort x.sb.current < 0 := toShort_negative (Nat.le_of_not_lt wide) inv.room
          dsimp only at inside
          exact absurd inside (not_le.mpr negative)
        · intro narrow
          rw [toShort_narrow (narrow room)]
          constructor
          · unfold Region.Inside strbufSize at *
            dsimp only
            omega
          · intro r member
            have below := (inv.stacked.below r member).2
            exact .inr (by dsimp only; omega)
      · rw [if_neg room]
        exact iff_of_true trivial fun fits => absurd fits room

theorem Inv.step (inv : x.Inv) {calls : List SbCall} (nested : Nested x.frames.length (call :: calls))
    (narrow : x.Narrow call) : (x.step call).Inv ∧ Nested (x.step call).frames.length calls := by
  cases call with
  | newframe =>
      obtain ⟨few, rest⟩ := nested
      have push : x.sb.newframe.1 = { x.sb with stk := x.sb.current :: x.sb.stk } := by
        rw [StrBuf.newframe, inv.stacked.length, if_neg (Nat.not_le.mpr few)]
      refine ⟨⟨?_, ?_⟩, rest⟩
      · unfold Names.step
        dsimp only
        rw [push]
        exact ⟨nofun, rfl, le_rfl, inv.stacked⟩
      · unfold Names.step
        dsimp only
        rw [push]
        exact inv.room
  | restore =>
      obtain ⟨some_frame, rest⟩ := nested
      have stacked := inv.stacked
      cases frames : x.frames with
      | nil =>
          rw [frames] at some_frame
          exact absurd some_frame (Nat.lt_irrefl 0)
      | cons f inner =>
          rw [frames] at stacked rest
          cases stk : x.sb.stk with
          | nil =>
              rw [stk] at stacked
              exact absurd stacked id
          | cons mark marks =>
              rw [stk] at stacked
              obtain ⟨-, -, low, behind⟩ := stacked
              have pop : x.sb.restore.1 = { x.sb with stk := marks, current := mark } := by rw [StrBuf.restore, stk]
              unfold Names.step
              rw [pop, frames]
              exact ⟨⟨behind, low.trans inv.room⟩, rest⟩
  | alloc size =>
      have rest : Nested x.frames.length calls := nested
      unfold Names.step StrBuf.alloc
      dsimp only
      by_cases room : x.sb.current + size + 1 < strbufSize
      · rw [if_pos room]
        dsimp only
        have below : Region.Below ⟨toShort x.sb.current, size⟩ (x.sb.current + size + 1) := by
          rw [toShort_narrow (narrow room)]
          exact ⟨Int.natCast_nonneg _, by push_cast; omega⟩
        refine ⟨inv.add below (by omega) room.le, ?_⟩
        rw [add_depth]
        exact rest
      · rw [if_neg room]
        exact ⟨inv, rest⟩

theorem Inv.everywhere (inv : x.Inv) {calls : List SbCall} (nested : Nested x.frames.length calls) :
    Everywhere Sound x calls ↔ Everywhere Narrow x calls := by
  induction calls generalizing x with
  | nil => exact Iff.rfl
  | cons call calls ih =>
      unfold Everywhere
      rw [inv.sound_iff]
      refine and_congr_right fun narrow => ?_
      obtain ⟨next, rest⟩ := inv.step nested narrow
      exact ih next rest

end Names

theorem Names.Inv.start (memory : Nat → UInt8) : (Names.start memory).Inv := ⟨nofun, Nat.zero_le _⟩

/-- In every well-nested sequence of calls the names are as they should be, just when none that fits begins behind
the first 32768 bytes. -/
theorem nameBuffer_sound_iff (memory : Nat → UInt8) {calls : List SbCall} (nested : Nested 0 calls) :
    (Names.start memory).Everywhere Names.Sound calls ↔ (Names.start memory).Everywhere Names.Narrow calls := by
  apply (Names.Inv.start memory).everywhere
  exact nested

theorem nameBuffer_sound_frame :
    (Names.start fun _ => 0).Everywhere Names.Sound [.newframe, .alloc 5, .restore, .alloc 7] := by
  apply (nameBuffer_sound_iff (fun _ => 0) _).mpr
  · exact ⟨trivial, fun _ => by decide, trivial, fun _ => by decide, trivial⟩
  · unfold Nested Nested Nested
    exact ⟨by decide, by decide, trivial⟩

/-- The name behind one of 32767 bytes gets a negative offset. -/
theorem nameBuffer_behind : Nested 0 [.alloc 32767, .alloc 0] ∧
    ¬(Names.start fun _ => 0).Everywhere Names.Sound [.alloc 32767, .alloc 0] := by
  have nested : Nested 0 [.alloc 32767, .alloc 0] := trivial
  refine ⟨nested, fun sound => ?_⟩
  have narrow := ((Names.Inv.start fun _ => 0).everywhere nested).mp sound
  exact absurd (narrow.2.1 (by decide)) (by decide)

end Tmpi.Mpitrans
