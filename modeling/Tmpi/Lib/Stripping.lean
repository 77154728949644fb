import Mathlib.Data.List.Chain

/-! Flags that are taken out of a list from the back, some of them with the element that follows. -/

namespace Tmpi.Stripping

inductive Kind where
  | plain
  | alone
  /-- With the element behind it, which has to be there. -/
  | value
  /-- With the element behind it, if there is one. -/
  | option
  deriving DecidableEq

/-- It goes with the element behind it. -/
def Kind.Takes (k : Kind) : Prop := k = .value ∨ k = .option

instance (k : Kind) : Decidable k.Takes := inferInstanceAs (Decidable (k = .value ∨ k = .option))

variable {α : Type} (kind : α → Kind)

/-- An element in front of what has been gone through. -/
def take (f : α) (done : List α) : Option (List α) :=
  match kind f with
  | .plain => some (f :: done)
  | .alone => some done
  | .option => some done.tail
  | .value =>
      match done with
      | [] => none
      | _ :: done => some done

/-- All of them, from the back. -/
def strip (l done : List α) : Option (List α) := l.foldr (fun f done => done.bind (take kind f)) (some done)

/-- The elements that are neither flags nor go with one. -/
def kept : List α → List α
  | [] => []
  | [f] => if kind f = .plain then [f] else []
  | f :: v :: rest =>
      match kind f with
      | .plain => f :: kept (v :: rest)
      | .alone => kept (v :: rest)
      | _ => kept rest

/-- What goes with a flag is not a flag. -/
def Separate (l : List α) : Prop := l.IsChain fun f v => (kind f).Takes → kind v = .plain

instance (l : List α) : Decidable (Separate kind l) :=
  inferInstanceAs (Decidable (l.IsChain fun f v => (kind f).Takes → kind v = .plain))

/-- The last element needs one behind it. -/
def Lacking (l : List α) : Prop := ∃ f, l.getLast? = some f ∧ kind f = .value

variable {kind} {f v : α} {l : List α}

theorem strip_cons (done : List α) : strip kind (f :: l) done = (strip kind l done).bind (take kind f) := rfl

theorem strip_append (done : List α) : strip kind (l ++ [f]) done = (take kind f done).bind (strip kind l) := by
  induction l with
  | nil =>
      show (some done).bind (take kind f) = (take kind f done).bind some
      rw [Option.bind_some, Option.bind_fun_some]
  | cons g l ih =>
      rw [List.cons_append, strip_cons, ih, Option.bind_assoc]
      rfl

section

variable (l)

theorem kept_plain (plain : kind f = .plain) : kept kind (f :: l) = f :: kept kind l := by
  cases l with
  | nil => simp [kept, plain]
  | cons v l => simp only [kept, plain]

theorem kept_alone (alone : kind f = .alone) : kept kind (f :: l) = kept kind l := by
  cases l with
  | nil => simp [kept, alone]
  | cons v l => simp only [kept, alone]

theorem kept_takes (takes : (kind f).Takes) : kept kind (f :: v :: l) = kept kind l := by
  cases takes with
  | inl value => simp only [kept, value]
  | inr option => simp only [kept, option]

end

theorem Separate.tail (separate : Separate kind (f :: l)) : Separate kind l := by
  cases l with
  | nil => exact List.isChain_nil
  | cons v l => exact (List.isChain_cons_cons.mp separate).2

theorem Separate.next (separate : Separate kind (f :: v :: l)) (takes : (kind f).Takes) : kind v = .plain :=
  (List.isChain_cons_cons.mp separate).1 takes

theorem lacking_cons (g : α) : Lacking kind (f :: g :: l) ↔ Lacking kind (g :: l) := by
  rw [Lacking, List.getLast?_cons_cons]
  exact Iff.rfl

theorem not_lacking_nil : ¬ Lacking kind [] := fun ⟨_, last, _⟩ => absurd last nofun

theorem lacking_single : Lacking kind [f] ↔ kind f = .value := by
  constructor
  · rintro ⟨g, last, value⟩
    have same : f = g := Option.some.inj last
    rwa [same]
  · exact fun value => ⟨f, rfl, value⟩

/-- Only the last element may lack something. -/
theorem lacking_cons_iff (l : List α) (other : kind f ≠ .value) : Lacking kind (f :: l) ↔ Lacking kind l := by
  cases l with
  | nil => exact iff_of_false (fun lacking => other (lacking_single.mp lacking)) not_lacking_nil
  | cons g l => exact lacking_cons g

/-- A list is taken apart into elements that stand alone and flags with what goes with them. -/
theorem groups (kind : α → Kind) {P : List α → Prop} (nil : P []) (single : ∀ f, P [f])
    (one : ∀ f v l, ¬ (kind f).Takes → P (v :: l) → P (f :: v :: l))
    (pair : ∀ f v l, (kind f).Takes → P l → P (f :: v :: l)) : ∀ l, P l
  | [] => nil
  | [f] => single f
  | f :: v :: l => by
      by_cases takes : (kind f).Takes
      · exact pair f v l takes (groups kind nil single one pair l)
      · exact one f v l takes (groups kind nil single one pair (v :: l))

theorem Kind.cases {k : Kind} (other : ¬ k.Takes) : k = .plain ∨ k = .alone := by
  cases k with
  | plain => exact .inl rfl
  | alone => exact .inr rfl
  | value => exact absurd (.inl rfl) other
  | option => exact absurd (.inr rfl) other

theorem take_pair (takes : (kind f).Takes) (done : List α) : take kind f (v :: done) = some done := by
  cases takes with
  | inl value => simp only [take, value]
  | inr option => simp only [take, option, List.tail_cons]

theorem take_lacking (value : kind f = .value) : take kind f [] = none := by
  simp only [take, value]

theorem take_last (option : kind f = .option) : take kind f [] = some [] := by
  simp only [take, option, List.tail_nil]

theorem take_plain (plain : kind f = .plain) (done : List α) : take kind f done = some (f :: done) := by
  simp only [take, plain]

theorem take_alone (alone : kind f = .alone) (done : List α) : take kind f done = some done := by
  simp only [take, alone]

/-- What stays are the elements that are neither flags nor go with one. -/
theorem strip_kept (separate : Separate kind l) (whole : ¬ Lacking kind l) : strip kind l [] = some (kept kind l) := by
  induction l using groups kind with
  | nil => rfl
  | single f =>
      show take kind f [] = _
      rw [lacking_single] at whole
      cases k : kind f with
      | value => exact absurd k whole
      | _ => simp [take, kept, k]
  | one f v l other ih =>
      rw [lacking_cons] at whole
      rw [strip_cons, ih separate.tail whole, Option.bind_some]
      cases Kind.cases other with
      | inl plain => rw [take_plain plain, kept_plain _ plain]
      | inr alone => rw [kept_alone _ alone, take_alone alone]
  | pair f v l takes ih =>
      have plain := separate.next takes
      rw [lacking_cons, lacking_cons_iff l (by rw [plain]; exact nofun)] at whole
      rw [strip_cons, strip_cons, ih separate.tail.tail whole, Option.bind_some, take_plain plain, Option.bind_some,
        take_pair takes, kept_takes _ takes]

theorem strip_lacking (lacking : Lacking kind l) : strip kind l [] = none := by
  obtain ⟨f, last, value⟩ := lacking
  obtain ⟨front, rfl⟩ := List.getLast?_eq_some_iff.mp last
  rw [strip_append, take_lacking value, Option.bind_none]

/-! ## Two kinds of flags, one after the other -/

/-- The flags of both. -/
def both (first second : α → Kind) (f : α) : Kind := if first f = .plain then second f else first f

variable {first second : α → Kind}

theorem both_plain : both first second f = .plain ↔ first f = .plain ∧ second f = .plain := by
  unfold both
  split_ifs with plain
  · exact ⟨fun plain' => ⟨plain, plain'⟩, And.right⟩
  · exact iff_of_false plain fun both => plain both.1

theorem both_of_plain (second : α → Kind) (plain : first f = .plain) : both first second f = second f := if_pos plain

theorem both_of_flag (second : α → Kind) (flag : first f ≠ .plain) : both first second f = first f := if_neg flag

theorem takes_flag {k : Kind} (takes : k.Takes) : k ≠ .plain := by
  rintro rfl
  exact takes.elim nofun nofun

theorem Separate.ofBoth (separate : Separate (both first second) l) : Separate first l := by
  apply separate.imp
  intro f v next takes
  rw [both_of_flag second (takes_flag takes)] at next
  exact (both_plain.mp (next takes)).1

theorem kept_kept (separate : Separate (both first second) l) :
    kept second (kept first l) = kept (both first second) l := by
  induction l using groups (both first second) with
  | nil => rfl
  | single f =>
      by_cases plain : first f = .plain
      · simp only [kept, plain, if_true, both_of_plain]
      · have flag := both_of_flag second plain
        simp only [kept, flag, if_neg plain]
  | one f v l other ih =>
      have rest := ih separate.tail
      by_cases plain : first f = .plain
      · have same := both_of_plain second plain
        rw [kept_plain _ plain]
        cases Kind.cases other with
        | inl plain' => rw [kept_plain _ plain', kept_plain _ (same ▸ plain'), rest]
        | inr alone => rw [kept_alone _ alone, kept_alone _ (same ▸ alone), rest]
      · have same := both_of_flag second plain
        have alone := (Kind.cases other).resolve_left fun plain' => plain (both_plain.mp plain').1
        rw [kept_alone _ alone, kept_alone _ (same ▸ alone), rest]
  | pair f v l takes ih =>
      have next := both_plain.mp (separate.next takes)
      have rest := ih separate.tail.tail
      rw [kept_takes _ takes]
      by_cases plain : first f = .plain
      · rw [kept_plain _ plain, kept_plain _ next.1, kept_takes _ (both_of_plain second plain ▸ takes), rest]
      · rw [kept_takes _ (both_of_flag second plain ▸ takes), rest]

theorem Separate.keptBoth (separate : Separate (both first second) l) : Separate second (kept first l) := by
  induction l using groups (both first second) with
  | nil => exact List.isChain_nil
  | single f =>
      rw [kept]
      split_ifs
      · exact List.isChain_singleton f
      · exact List.isChain_nil
  | one f v l other ih =>
      have rest := ih separate.tail
      by_cases plain : first f = .plain
      · rw [kept_plain _ plain]
        apply List.isChain_cons.mpr ⟨fun _ _ takes => ?_, rest⟩
        exact absurd (both_of_plain second plain ▸ takes) other
      · have alone := (Kind.cases other).resolve_left fun plain' => plain (both_plain.mp plain').1
        rw [both_of_flag second plain] at alone
        rw [kept_alone _ alone]
        exact rest
  | pair f v l takes ih =>
      have next := both_plain.mp (separate.next takes)
      have rest := ih separate.tail.tail
      by_cases plain : first f = .plain
      · rw [kept_plain _ plain, kept_plain _ next.1]
        apply List.isChain_cons_cons.mpr ⟨fun _ => next.2, List.isChain_cons.mpr ⟨fun _ _ takes' => ?_, rest⟩⟩
        exact absurd next.2 (takes_flag takes')
      · rw [kept_takes _ (both_of_flag second plain ▸ takes)]
        exact rest

/-- Nothing is lacking after the first that was not lacking before. -/
theorem lacking_kept (distinct : ∀ f, first f = .plain ∨ second f = .plain)
    (separate : Separate (both first second) l) : Lacking second (kept first l) ↔ Lacking second l := by
  induction l using groups (both first second) with
  | nil => exact Iff.rfl
  | single f =>
      by_cases plain : first f = .plain
      · rw [kept, if_pos plain]
      · have plain' := (distinct f).resolve_left plain
        rw [kept, if_neg plain, lacking_single, plain']
        exact iff_of_false not_lacking_nil nofun
  | one f v l other ih =>
      have rest := ih separate.tail
      rw [lacking_cons]
      by_cases plain : first f = .plain
      · rw [both_of_plain second plain] at other
        rw [kept_plain _ plain, lacking_cons_iff _ fun value => other (.inl value)]
        exact rest
      · have alone := (Kind.cases other).resolve_left fun plain' => plain (both_plain.mp plain').1
        rw [both_of_flag second plain] at alone
        rw [kept_alone _ alone]
        exact rest
  | pair f v l takes ih =>
      have next := both_plain.mp (separate.next takes)
      have rest := ih separate.tail.tail
      have value : second v ≠ .value := by
        rw [next.2]
        exact nofun
      rw [lacking_cons, lacking_cons_iff l value, ← rest]
      by_cases plain : first f = .plain
      · rw [kept_plain _ plain, kept_plain _ next.1, lacking_cons, lacking_cons_iff _ value]
      · rw [kept_takes _ (both_of_flag second plain ▸ takes)]

theorem lacking_both (distinct : ∀ f, first f = .plain ∨ second f = .plain) :
    Lacking (both first second) l ↔ Lacking first l ∨ Lacking second l := by
  have same : ∀ f, both first second f = .value ↔ first f = .value ∨ second f = .value := by
    intro f
    by_cases plain : first f = .plain
    · rw [both_of_plain second plain, plain]
      exact ⟨.inr, fun value => value.resolve_left nofun⟩
    · have plain' := (distinct f).resolve_left plain
      rw [both_of_flag second plain, plain']
      exact ⟨.inl, fun value => value.resolve_right nofun⟩
  constructor
  · rintro ⟨f, last, value⟩
    exact ((same f).mp value).imp (fun value => ⟨f, last, value⟩) fun value => ⟨f, last, value⟩
  · rintro (⟨f, last, value⟩ | ⟨f, last, value⟩)
    · exact ⟨f, last, (same f).mpr (.inl value)⟩
    · exact ⟨f, last, (same f).mpr (.inr value)⟩

end Tmpi.Stripping
