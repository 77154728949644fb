import Tmpi.Netq.GroupFile
import Mathlib.Data.List.TakeWhile

/-! The format of group files, and that the parser accepts it and nothing else. -/

namespace Tmpi.Netq

@[simp] theorem ok_bind {α β : Type} (a : α) (f : α → Parse β) : (Except.ok a >>= f) = f a := rfl

@[simp] theorem error_bind {α β : Type} (e : Failure) (f : α → Parse β) :
    ((Except.error e : Parse α) >>= f) = Except.error e := rfl

/-! ## Words -/

/-- The words of a text, which blanks and tabs separate. -/
def words (text : Text) : List Text := (text.splitOnP isBlank).filter fun word => !word.isEmpty

theorem splitOnP_ne_nil' (text : Text) : ∃ first others, text.splitOnP isBlank = first :: others := by
  cases split : text.splitOnP isBlank with
  | nil => exact absurd split (List.splitOnP_ne_nil _ _)
  | cons first others => exact ⟨first, others, rfl⟩

theorem words_blank {c : UInt8} (blank : isBlank c = true) (rest : Text) :
    words (c :: rest) = words rest := by
  simp [words, List.splitOnP_cons_eq_if_modifyHead, blank]

/-- `strtok` finds the words. -/
theorem tokens_eq (text : Text) : tokens text = words text := by
  induction text with
  | nil => simp [tokens, words]
  | cons c rest ih =>
      by_cases blank : isBlank c = true
      · rw [words_blank blank, ← ih]
        simp [tokens, blank]
      · have plain : isBlank c = false := by simpa using blank
        cases rest with
        | nil => simp [tokens, words, List.splitOnP_cons_eq_if_modifyHead, plain]
        | cons next more =>
            obtain ⟨first, others, split⟩ := splitOnP_ne_nil' more
            by_cases gap : isBlank next = true
            · simp only [tokens, plain, gap, Bool.false_eq_true, ↓reduceIte]
              simp only [tokens, gap, ↓reduceIte] at ih
              rw [ih, words_blank gap]
              simp [words, List.splitOnP_cons_eq_if_modifyHead, plain, gap]
            · have joined : isBlank next = false := by simpa using gap
              have head : words (next :: more) = (next :: first) :: others.filter fun word =>
                  !word.isEmpty := by
                simp [words, List.splitOnP_cons_eq_if_modifyHead, joined, split]
              rw [head] at ih
              simp only [tokens, plain, joined, Bool.false_eq_true, ↓reduceIte] at ih ⊢
              rw [ih]
              simp [words, List.splitOnP_cons_eq_if_modifyHead, plain, joined, split, consHead]

/-! ## Items -/

def Digits (word : Text) : Prop := word ≠ [] ∧ ∀ c ∈ word, isdigit c = true

/-- The ids that an item of a line lists. -/
inductive ItemIds : Text → List Nat → Prop where
  | one {word} : Digits word → ItemIds word [numeral word]
  | range {a b} : Digits a → Digits b → ItemIds (a ++ dash :: b)
      (List.range' (min (numeral a) (numeral b))
        (max (numeral a) (numeral b) - min (numeral a) (numeral b) + 1))

theorem isInteger_iff (word : Text) : isInteger word = true ↔ Digits word := by
  cases word <;> simp [isInteger, Digits]

theorem isdigit_dash : isdigit dash = false := by decide

theorem Digits.no_dash {word : Text} (digits : Digits word) : dash ∉ word := fun member => by
  have digit := digits.2 dash member
  rw [isdigit_dash] at digit
  cases digit

theorem isRangeFrom_many (word : Text) : ∀ nDigit nDash, 2 ≤ nDash →
    isRangeFrom nDigit nDash word = false := by
  induction word with
  | nil =>
      intro nDigit nDash many
      have more : nDash ≠ 1 := by omega
      simp [isRangeFrom, more]
  | cons c rest ih =>
      intro nDigit nDash many
      unfold isRangeFrom
      split
      · rfl
      · split
        · split
          · rfl
          · exact ih _ _ (by omega)
        · exact ih _ _ many

/-- Behind the dash there are digits only. -/
theorem isRangeFrom_one (word : Text) : ∀ nDigit, isRangeFrom nDigit 1 word = true ↔
    (∀ c ∈ word, isdigit c = true) ∧ nDigit + word.length ≠ 0 := by
  induction word with
  | nil => intro nDigit; simp [isRangeFrom]
  | cons c rest ih =>
      intro nDigit
      by_cases digit : isdigit c = true
      · have other : c ≠ dash := by
          rintro rfl
          rw [isdigit_dash] at digit
          cases digit
        simp [isRangeFrom, digit, other, ih]
      · have plain : isdigit c = false := by simpa using digit
        constructor
        · intro accepted
          by_cases here : c = dash
          · subst here
            unfold isRangeFrom at accepted
            rw [if_neg (by simp), if_pos rfl, isRangeFrom_many _ _ _ (le_refl 2), ite_self] at accepted
            cases accepted
          · simp [isRangeFrom, plain, here] at accepted
        · rintro ⟨all, -⟩
          rw [all c (by simp)] at plain
          cases plain

theorem isRangeFrom_zero (word : Text) : ∀ nDigit, isRangeFrom nDigit 0 word = true ↔
    ∃ a b, word = a ++ dash :: b ∧ (∀ c ∈ a, isdigit c = true) ∧ nDigit + a.length ≠ 0 ∧
      Digits b := by
  induction word with
  | nil => intro nDigit; simp [isRangeFrom]
  | cons c rest ih =>
      intro nDigit
      by_cases here : c = dash
      · subst here
        unfold isRangeFrom
        rw [if_neg (by simp), if_pos rfl]
        constructor
        · intro accepted
          split at accepted
          · cases accepted
          · next digits =>
              obtain ⟨all, some⟩ := (isRangeFrom_one rest 0).mp accepted
              refine ⟨[], rest, rfl, by simp, by simpa using digits, ?_, all⟩
              rintro rfl
              simp at some
        · rintro ⟨a, b, split, all, digits, nonempty, tail⟩
          cases a with
          | nil =>
              obtain rfl := (List.cons.inj split).2
              rw [if_neg (by simpa using digits)]
              exact (isRangeFrom_one rest 0).mpr ⟨tail, by simpa using nonempty⟩
          | cons d a =>
              obtain ⟨rfl, -⟩ := List.cons.inj split
              have digit := all dash (by simp)
              rw [isdigit_dash] at digit
              cases digit
      · by_cases digit : isdigit c = true
        · have step : isRangeFrom nDigit 0 (c :: rest) = isRangeFrom (nDigit + 1) 0 rest := by
            simp [isRangeFrom, digit, here]
          rw [step, ih]
          constructor
          · rintro ⟨a, b, rfl, all, digits, tail⟩
            exact ⟨c :: a, b, rfl, by simpa [digit] using all, by simp, tail⟩
          · rintro ⟨a, b, split, all, digits, tail⟩
            cases a with
            | nil => exact absurd (List.cons.inj split).1 here
            | cons d a =>
                obtain ⟨rfl, rfl⟩ := List.cons.inj split
                exact ⟨a, b, rfl, fun e member => all e (by simp [member]), by omega, tail⟩
        · have plain : isdigit c = false := by simpa using digit
          constructor
          · intro accepted
            simp [isRangeFrom, plain, here] at accepted
          · rintro ⟨a, b, split, all, -, -⟩
            cases a with
            | nil => exact absurd (List.cons.inj split).1 here
            | cons d a =>
                obtain ⟨rfl, -⟩ := List.cons.inj split
                rw [all c (by simp)] at plain
                cases plain

theorem isRange_iff (word : Text) :
    isRange word = true ↔ ∃ a b, Digits a ∧ Digits b ∧ word = a ++ dash :: b := by
  have nonempty : isRange word = isRangeFrom 0 0 word := by
    cases word <;> simp [isRange, isRangeFrom]
  rw [nonempty, isRangeFrom_zero]
  constructor
  · rintro ⟨a, b, rfl, all, digits, tail⟩
    exact ⟨a, b, ⟨by simpa [List.length_eq_zero_iff] using digits, all⟩, tail, rfl⟩
  · rintro ⟨a, b, head, tail, rfl⟩
    exact ⟨a, b, rfl, head.2, by simpa [List.length_eq_zero_iff] using head.1, tail⟩

theorem takeWhile_dash {a b : Text} (digits : Digits a) :
    (a ++ dash :: b).takeWhile isdigit = a := by
  rw [List.takeWhile_append_of_pos digits.2]
  simp [isdigit_dash]

theorem takeWhile_digits {word : Text} (digits : Digits word) : word.takeWhile isdigit = word :=
  List.takeWhile_eq_self_iff.mpr digits.2

theorem numeral_range {a : Text} (digits : Digits a) (b : Text) :
    numeral (a ++ dash :: b) = numeral a := by
  rw [numeral, takeWhile_dash digits, numeral, takeWhile_digits digits]

theorem behind_dash {a : Text} (digits : Digits a) (b : Text) :
    ((a ++ dash :: b).dropWhile (· ≠ dash)).drop 1 = b := by
  rw [List.dropWhile_append_of_pos]
  · simp
  · intro c member
    simp only [ne_eq, decide_not, Bool.not_eq_eq_eq_not, Bool.not_true, decide_eq_false_iff_not]
    rintro rfl
    exact digits.no_dash member

theorem ItemIds.of_range {a b : Text} {ids : List Nat} (item : ItemIds (a ++ dash :: b) ids)
    (head : Digits a) : ids = List.range' (min (numeral a) (numeral b))
      (max (numeral a) (numeral b) - min (numeral a) (numeral b) + 1) := by
  generalize same : a ++ dash :: b = word at item
  cases item with
  | one digits => exact absurd (by simp [← same]) digits.no_dash
  | @range a' b' head' tail' =>
      have first : a = a' := by
        rw [← takeWhile_dash (b := b) head, same, takeWhile_dash head']
      subst first
      obtain rfl : b = b' := (List.cons.inj (List.append_cancel_left same)).2
      rfl

theorem range_unique {a b a' b' : Text} (head : Digits a) (head' : Digits a')
    (same : a ++ dash :: b = a' ++ dash :: b') : a = a' ∧ b = b' := by
  have first : a = a' := by rw [← takeWhile_dash (b := b) head, same, takeWhile_dash head']
  subst first
  exact ⟨rfl, (List.cons.inj (List.append_cancel_left same)).2⟩

theorem ItemIds.unique {word : Text} {ids ids' : List Nat} (item : ItemIds word ids)
    (other : ItemIds word ids') : ids = ids' := by
  cases item with
  | one digits =>
      cases other with
      | one => rfl
      | range => exact absurd (by simp) digits.no_dash
  | range head tail => exact (other.of_range head).symm

/-- An item that the parser reads when a line has listed `i` ids stays within `int` and within
the array. -/
structure ItemInRange (nNodes i : Nat) (word : Text) : Prop where
  number : Digits word → i < nNodes → numeral word < 2^31
  range : ∀ a b, Digits a → Digits b → word = a ++ dash :: b →
    numeral a < 2^31 ∧ numeral b < 2^31 ∧
      max (numeral a) (numeral b) - min (numeral a) (numeral b) + i < 2^31 ∧
      (max (numeral a) (numeral b) - min (numeral a) (numeral b) + i < nNodes →
        max (numeral a) (numeral b) + 1 < 2^31)
  room : ∀ ids, ItemIds word ids → i + ids.length ≤ nNodes → i + ids.length ≤ maxNodes

/-- An item whose ids a line with `i` ids so far has room for. -/
structure FitsItem (nNodes i : Nat) (word : Text) (ids : List Nat) : Prop where
  item : ItemIds word ids
  room : i + ids.length ≤ nNodes

/-- A part of the parser on a text that may have a form: it has the result of the form, or
refuses, or does what is not defined, which it does just when it leaves its range. -/
inductive Outcome {α β : Type} (inRange : Prop) (Form : α → Prop) (f : α → β)
    (result : Parse β) : Prop where
  | ok (a : α) : inRange → Form a → result = .ok (f a) → Outcome inRange Form f result
  | refused : inRange → (∀ a, ¬ Form a) → result = .error .refused → Outcome inRange Form f result
  | undefined : ¬ inRange → result = .error .undefined → Outcome inRange Form f result

theorem parseItem_range {a b : Text} (head : Digits a) (tail : Digits b) {nNodes : Nat}
    {listed : List Nat} : parseItem nNodes listed (a ++ dash :: b) =
      if ¬ (numeral a < 2^31 ∧ numeral b < 2^31) then .error .undefined
      else if 2^31 ≤ max (numeral a) (numeral b) - min (numeral a) (numeral b) + listed.length then
        .error .undefined
      else if nNodes ≤ max (numeral a) (numeral b) - min (numeral a) (numeral b) + listed.length then
        .error .refused
      else if 2^31 ≤ max (numeral a) (numeral b) + 1 then .error .undefined
      else store listed (List.range' (min (numeral a) (numeral b))
        (max (numeral a) (numeral b) - min (numeral a) (numeral b) + 1)) := by
  have accepted : isRange (a ++ dash :: b) = true := (isRange_iff _).mpr ⟨a, b, head, tail, rfl⟩
  have dashed : dash ∈ a ++ dash :: b := by simp
  by_cases small : numeral a < 2^31
  · by_cases small' : numeral b < 2^31
    · simp only [parseItem, List.contains_eq_mem, dashed, decide_true, ↓reduceIte, accepted,
        Bool.not_true, Bool.false_eq_true, behind_dash head b, atoi, numeral_range head b, small,
        small', bind, Except.bind, and_self, not_true_eq_false, ge_iff_le]
    · simp only [parseItem, List.contains_eq_mem, dashed, decide_true, ↓reduceIte, accepted,
        Bool.not_true, Bool.false_eq_true, behind_dash head b, atoi, numeral_range head b, small,
        small', bind, Except.bind, and_false, not_false_eq_true]
  · simp only [parseItem, List.contains_eq_mem, dashed, decide_true, ↓reduceIte, accepted,
      Bool.not_true, Bool.false_eq_true, atoi, numeral_range head b, small, bind, Except.bind,
      false_and, not_false_eq_true]

/-- What the parser does with an item. -/
theorem parseItem_spec (word : Text) (nNodes : Nat) (listed : List Nat) :
    Outcome (ItemInRange nNodes listed.length word) (FitsItem nNodes listed.length word)
      (listed ++ ·) (parseItem nNodes listed word) := by
  by_cases dashed : dash ∈ word
  · have single : ¬ Digits word := fun digits => digits.no_dash dashed
    by_cases range : ∃ a b, Digits a ∧ Digits b ∧ word = a ++ dash :: b
    · obtain ⟨a, b, head, tail, rfl⟩ := range
      rw [parseItem_range head tail]
      set low := min (numeral a) (numeral b) with lowest
      set high := max (numeral a) (numeral b) with highest
      have length : (List.range' low (high - low + 1)).length = high - low + 1 := List.length_range'
      by_cases small : numeral a < 2^31 ∧ numeral b < 2^31
      · rw [if_neg (not_not.mpr small)]
        by_cases wide : 2^31 ≤ high - low + listed.length
        · refine .undefined (fun inside => ?_) (if_pos wide)
          have := (inside.range a b head tail rfl).2.2.1
          omega
        · rw [if_neg wide]
          by_cases full : nNodes ≤ high - low + listed.length
          · refine .refused ⟨fun digits => absurd digits single, ?_, ?_⟩ ?_ (if_pos full)
            · intro a' b' head' tail' same
              obtain ⟨rfl, rfl⟩ := range_unique head head' same
              exact ⟨small.1, small.2, by omega, by omega⟩
            · intro ids item fits
              rw [item.of_range head, length] at fits
              omega
            · rintro ids ⟨item, fits⟩
              rw [item.of_range head, length] at fits
              omega
          · rw [if_neg full]
            by_cases last : 2^31 ≤ high + 1
            · refine .undefined (fun inside => ?_) (if_pos last)
              have := (inside.range a b head tail rfl).2.2.2
              omega
            · rw [if_neg last]
              by_cases room : (listed ++ List.range' low (high - low + 1)).length ≤ maxNodes
              · refine .ok _ ⟨fun digits => absurd digits single, ?_, ?_⟩ ⟨.range head tail, ?_⟩
                  (if_pos room)
                · intro a' b' head' tail' same
                  obtain ⟨rfl, rfl⟩ := range_unique head head' same
                  exact ⟨small.1, small.2, by omega, by omega⟩
                · intro ids item _
                  rw [List.length_append] at room
                  rw [item.of_range head]
                  exact room
                · rw [length]
                  omega
              · refine .undefined (fun inside => room ?_) (if_neg room)
                rw [List.length_append]
                refine inside.room _ (.range head tail) ?_
                rw [length]
                omega
      · rw [if_pos small]
        refine .undefined (fun inside => small ?_) rfl
        have bounds := inside.range a b head tail rfl
        exact ⟨bounds.1, bounds.2.1⟩
    · have refused : isRange word = false := by
        rw [← Bool.not_eq_true, isRange_iff]
        exact range
      have none : ∀ ids, ¬ ItemIds word ids := by
        intro ids item
        cases item with
        | one digits => exact single digits
        | range head tail => exact range ⟨_, _, head, tail, rfl⟩
      refine .refused ⟨fun digits => absurd digits single, fun a b head tail same => ?_,
        fun ids item => absurd item (none ids)⟩ (fun ids fits => none ids fits.item) ?_
      · exact absurd ⟨a, b, head, tail, same⟩ range
      · simp [parseItem, dashed, refused]
  · have plain : ∀ a b, word ≠ a ++ dash :: b := by
      rintro a b rfl
      exact dashed (by simp)
    by_cases digits : Digits word
    · have accepted : isInteger word = true := (isInteger_iff word).mpr digits
      have only : ∀ ids, ItemIds word ids → ids = [numeral word] :=
        fun ids item => item.unique (.one digits)
      by_cases full : nNodes ≤ listed.length
      · refine .refused ⟨fun _ more => absurd more (by omega),
          fun a b _ _ same => absurd same (plain a b), fun ids item fits => ?_⟩ ?_
          (by simp [parseItem, dashed, accepted, full])
        · rw [only ids item, List.length_singleton] at fits
          omega
        · rintro ids ⟨item, fits⟩
          rw [only ids item, List.length_singleton] at fits
          omega
      · have parsed : parseItem nNodes listed word =
            if numeral word < 2^31 then store listed [numeral word] else .error .undefined := by
          simp only [parseItem, List.contains_eq_mem, dashed, decide_false, Bool.false_eq_true,
            ↓reduceIte, accepted, Bool.not_true, ge_iff_le, full, atoi]
          split <;> rfl
        rw [parsed]
        by_cases small : numeral word < 2^31
        · rw [if_pos small]
          by_cases room : (listed ++ [numeral word]).length ≤ maxNodes
          · refine .ok _ ⟨fun _ _ => small, fun a b _ _ same => absurd same (plain a b), ?_⟩
              ⟨.one digits, ?_⟩ (if_pos room)
            · intro ids item _
              rw [List.length_append] at room
              rw [only ids item]
              exact room
            · rw [List.length_singleton]
              omega
          · refine .undefined (fun inside => room ?_) (if_neg room)
            rw [List.length_append]
            refine inside.room _ (.one digits) ?_
            rw [List.length_singleton]
            omega
        · exact .undefined (fun inside => small (inside.number digits (by omega))) (if_neg small)
    · have refused : isInteger word = false := by
        rw [← Bool.not_eq_true, isInteger_iff]
        exact digits
      have none : ∀ ids, ¬ ItemIds word ids := by
        intro ids item
        cases item with
        | one good => exact digits good
        | range => exact plain _ _ rfl
      refine .refused ⟨fun good => absurd good digits, fun a b _ _ same => absurd same (plain a b),
        fun ids item => absurd item (none ids)⟩ (fun ids fits => none ids fits.item) ?_
      simp [parseItem, dashed, refused]

/-- The items behind the node count, up to the first one that the parser refuses. -/
def ItemsInRange (nNodes : Nat) : Nat → List Text → Prop
  | _, [] => True
  | i, word :: words => ItemInRange nNodes i word ∧ ∀ ids, FitsItem nNodes i word ids →
      ItemsInRange nNodes (i + ids.length) words

/-- Items whose ids a line with `i` ids so far has room for. -/
structure FitsItems (nNodes i : Nat) (items : List Text) (idss : List (List Nat)) : Prop where
  items : List.Forall₂ ItemIds items idss
  room : i + idss.flatten.length ≤ nNodes

theorem parseItems_spec (items : List Text) {nNodes : Nat} {listed : List Nat}
    (room : listed.length ≤ nNodes) :
    Outcome (ItemsInRange nNodes listed.length items) (FitsItems nNodes listed.length items)
      (fun idss => listed ++ idss.flatten) (items.foldlM (parseItem nNodes) listed) := by
  induction items generalizing listed with
  | nil => exact .ok [] trivial ⟨.nil, room⟩ (by simp [pure, Except.pure])
  | cons word items ih =>
      rw [List.foldlM_cons]
      cases parseItem_spec word nNodes listed with
      | ok ids inside fits parsed =>
          have room' : (listed ++ ids).length ≤ nNodes := by
            rw [List.length_append]
            exact fits.room
          have later : ItemsInRange nNodes (listed ++ ids).length items ↔
              ItemsInRange nNodes listed.length (word :: items) := by
            rw [List.length_append]
            refine ⟨fun rest => ⟨inside, fun ids' fits' => ?_⟩, fun all => all.2 ids fits⟩
            rw [fits'.item.unique fits.item]
            exact rest
          rw [parsed, ok_bind]
          cases ih room' with
          | ok idss rest forms parsed' =>
              refine .ok (ids :: idss) (later.mp rest) ⟨.cons fits.item forms.items, ?_⟩ ?_
              · have all := forms.room
                rw [List.length_append] at all
                rw [List.flatten_cons, List.length_append, ← Nat.add_assoc]
                exact all
              · rw [parsed', List.flatten_cons, List.append_assoc]
          | refused rest none parsed' =>
              refine .refused (later.mp rest) ?_ parsed'
              rintro idss ⟨forms, all⟩
              cases forms with
              | @cons _ ids' _ idss' item' others =>
                  rw [item'.unique fits.item, List.flatten_cons, List.length_append, ← Nat.add_assoc,
                    ← List.length_append] at all
                  exact none idss' ⟨others, all⟩
          | undefined out parsed' => exact .undefined (fun all => out (later.mpr all)) parsed'
      | refused inside none parsed =>
          rw [parsed]
          refine .refused ⟨inside, fun ids fits => absurd fits (none ids)⟩ ?_ rfl
          rintro idss ⟨forms, all⟩
          cases forms with
          | @cons _ ids' _ idss' item' others =>
              rw [List.flatten_cons, List.length_append, ← Nat.add_assoc] at all
              exact none ids' ⟨item', le_trans (Nat.le_add_right _ _) all⟩
      | undefined out parsed =>
          rw [parsed]
          exact .undefined (fun all => out all.1) rfl

/-- The ids of a line fit into the array. -/
theorem ItemsInRange.most {nNodes : Nat} {items : List Text} {idss : List (List Nat)} {i : Nat}
    (inside : ItemsInRange nNodes i items) (fits : FitsItems nNodes i items idss)
    (start : i ≤ maxNodes) : i + idss.flatten.length ≤ maxNodes := by
  obtain ⟨forms, room⟩ := fits
  induction forms generalizing i with
  | nil => exact start
  | @cons word ids items idss item _ ih =>
      rw [List.flatten_cons, List.length_append, ← Nat.add_assoc] at room ⊢
      have here : FitsItem nNodes i word ids := ⟨item, le_trans (Nat.le_add_right _ _) room⟩
      exact ih (inside.2 ids here) (inside.1.room ids item here.room) room

/-! ## Lines -/

/-- What a line of the file says. -/
structure Row where
  host : Text
  nNodes : Nat
  listed : List Nat

/-- `host n item*`, with at most `n` ids. -/
structure LineForm (text : Text) (row : Row) : Prop where
  form : ∃ sNodes items idss, words text = row.host :: sNodes :: items ∧ Digits sNodes ∧
    row.nNodes = numeral sNodes ∧ List.Forall₂ ItemIds items idss ∧ row.listed = idss.flatten
  room : row.listed.length ≤ row.nNodes

/-- The numbers in an item are small enough for `int`. -/
def BoundedItem (word : Text) : Prop :=
  (Digits word → numeral word < 2^31) ∧
    ∀ a b, Digits a → Digits b → word = a ++ dash :: b →
      numeral a < 2^31 ∧ numeral b < 2^31 ∧
        max (numeral a) (numeral b) - min (numeral a) (numeral b) < 2^30

/-- The numbers of a line are small enough, and it has at most 256 nodes. -/
def BoundedLine (text : Text) : Prop :=
  ∀ host sNodes items, words text = host :: sNodes :: items →
    (Digits sNodes → numeral sNodes ≤ maxNodes) ∧ ∀ word ∈ items, BoundedItem word

/-- The entry that the line gives before the free nodes get their ids. -/
def Row.entry (row : Row) : MacEntry :=
  ⟨row.host.take maxHostName,
    row.listed.map Int.ofNat ++ List.replicate (row.nNodes - row.listed.length) (-1)⟩

/-- A line whose node count is an `int`, and whose items are in range. -/
def LineInRange (text : Text) : Prop :=
  ∀ host sNodes items, words text = host :: sNodes :: items → Digits sNodes →
    numeral sNodes < 2^31 ∧ ItemsInRange (numeral sNodes) 0 items

theorem parseOneLine_spec (text : Text) :
    Outcome (LineInRange text) (LineForm text) Row.entry (parseOneLine text) := by
  have short : (words text).length < 2 → LineInRange text ∧ ∀ row, ¬ LineForm text row := by
    intro few
    refine ⟨fun host sNodes items split => ?_, ?_⟩
    · rw [split] at few
      simp at few
    · rintro row ⟨⟨sNodes, items, idss, split, -⟩, -⟩
      rw [split] at few
      simp at few
  unfold parseOneLine
  rw [tokens_eq]
  match split : words text with
  | [] =>
      obtain ⟨inside, none⟩ := short (by simp [split])
      exact .refused inside none rfl
  | [_] =>
      obtain ⟨inside, none⟩ := short (by simp [split])
      exact .refused inside none rfl
  | host :: sNodes :: items =>
      by_cases digits : Digits sNodes
      · have accepted : isInteger sNodes = true := (isInteger_iff sNodes).mpr digits
        have inside : LineInRange text ↔
            numeral sNodes < 2^31 ∧ ItemsInRange (numeral sNodes) 0 items := by
          refine ⟨fun all => all host sNodes items split digits, fun both host' sNodes' items' split' _ => ?_⟩
          rw [split] at split'
          cases split'
          exact both
        have empty : ([] : List Nat).length ≤ numeral sNodes := Nat.zero_le _
        by_cases small : numeral sNodes < 2^31
        · simp only [accepted, Bool.not_true, Bool.false_eq_true, ↓reduceIte, atoi, small]
          cases parseItems_spec items empty with
          | ok idss rest forms parsed =>
              have room := forms.room
              refine .ok ⟨host, numeral sNodes, idss.flatten⟩ (inside.mpr ⟨small, rest⟩)
                ⟨⟨sNodes, items, idss, split, digits, rfl, forms.items, rfl⟩, by simpa using room⟩ ?_
              simp [bind, Except.bind, parsed, pure, Except.pure, Row.entry]
          | refused rest none parsed =>
              refine .refused (inside.mpr ⟨small, rest⟩) ?_ (by simp [bind, Except.bind, parsed])
              rintro row ⟨⟨sNodes', items', idss, split', -, count, forms, all⟩, room⟩
              rw [split] at split'
              cases split'
              refine none idss ⟨forms, ?_⟩
              rw [← count, ← all, List.length_nil, Nat.zero_add]
              exact room
          | undefined out parsed =>
              refine .undefined (fun all => out (inside.mp all).2) ?_
              simp [bind, Except.bind, parsed]
        · refine .undefined (fun all => small (inside.mp all).1) ?_
          simp only [accepted, Bool.not_true, Bool.false_eq_true, ↓reduceIte, atoi, small, bind,
            Except.bind]
      · have refused : isInteger sNodes = false := by
          rw [← Bool.not_eq_true, isInteger_iff]
          exact digits
        refine .refused ?_ ?_ (by simp [refused])
        · intro host' sNodes' items' split' good
          rw [split] at split'
          cases split'
          exact absurd good digits
        · rintro row ⟨⟨sNodes', items', idss, split', good, -⟩, -⟩
          rw [split] at split'
          cases split'
          exact digits good

theorem LineForm.most {text : Text} {row : Row} (form : LineForm text row)
    (inside : LineInRange text) : row.listed.length ≤ maxNodes := by
  obtain ⟨⟨sNodes, items, idss, split, digits, count, forms, all⟩, room⟩ := form
  have fits : FitsItems (numeral sNodes) 0 items idss := by
    refine ⟨forms, ?_⟩
    rw [Nat.zero_add, ← all, ← count]
    exact room
  have most := (inside _ _ _ split digits).2.most fits (Nat.zero_le _)
  rwa [Nat.zero_add, ← all] at most

end Tmpi.Netq
