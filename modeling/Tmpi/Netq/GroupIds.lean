import Tmpi.Netq.GroupFormat

/-! A whole group file: which files are accepted, and the ids that their machines get. -/

namespace Tmpi.Netq

/-! ## Reading the lines -/

/-- The lines of a file that are not blank once their comments are gone. -/
def fileTexts (input : Text) : List Text :=
  ((input.splitOn newline).map fun line => stripOffComment (cstr line)).filter fun text =>
    !isBlankLine text

theorem fgets_line {line : Text} (plain : newline ∉ line) (rest : Text) :
    ∀ {size : Nat}, line.length < size →
      fgets size (line ++ newline :: rest) = (line ++ [newline], rest) := by
  induction line with
  | nil =>
      intro size room
      obtain ⟨more, rfl⟩ := Nat.exists_eq_succ_of_ne_zero (Nat.ne_of_gt room)
      simp [fgets]
  | cons c line ih =>
      intro size room
      obtain ⟨more, rfl⟩ := Nat.exists_eq_succ_of_ne_zero (Nat.ne_of_gt (Nat.zero_lt_of_lt room))
      simp only [List.mem_cons, not_or] at plain
      have tail := ih plain.2 (Nat.lt_of_succ_lt_succ room)
      simp [fgets, Ne.symm plain.1, tail]

/-- A line that fills the buffer leaves its newline behind. -/
theorem fgets_full {line : Text} (plain : newline ∉ line) (rest : Text) :
    fgets line.length (line ++ rest) = (line, rest) := by
  induction line with
  | nil => simp [fgets]
  | cons c line ih =>
      simp only [List.mem_cons, not_or] at plain
      simp [fgets, Ne.symm plain.1, ih plain.2]

theorem fgets_last {line : Text} (plain : newline ∉ line) :
    ∀ {size : Nat}, line.length ≤ size → fgets size line = (line, []) := by
  induction line with
  | nil => intro size _; cases size <;> simp [fgets]
  | cons c line ih =>
      intro size room
      obtain ⟨more, rfl⟩ := Nat.exists_eq_succ_of_ne_zero
        (Nat.ne_of_gt (Nat.lt_of_lt_of_le (Nat.zero_lt_succ _) room))
      simp only [List.mem_cons, not_or] at plain
      simp [fgets, Ne.symm plain.1, ih plain.2 (Nat.le_of_succ_le_succ room)]

theorem chop_plain {line : Text} (plain : newline ∉ line) : chop line = cstr line := by
  refine if_neg fun last => plain ?_
  exact (List.takeWhile_prefix _).subset (List.mem_of_getLast? last)

theorem chop_newline {line : Text} (plain : newline ∉ line) :
    chop (line ++ [newline]) = cstr line := by
  by_cases whole : ∀ c ∈ line, c ≠ 0
  · have all : cstr line = line := List.takeWhile_eq_self_iff.mpr (by simpa using whole)
    have ends : cstr (line ++ [newline]) = line ++ [newline] := by
      refine List.takeWhile_eq_self_iff.mpr fun c member => ?_
      rcases List.mem_append.mp member with inside | last
      · simpa using whole c inside
      · obtain rfl := List.mem_singleton.mp last
        decide
    simp [chop, ends, all]
  · have same : cstr (line ++ [newline]) = cstr line := by
      unfold cstr
      rw [List.takeWhile_append, if_neg]
      intro full
      apply whole
      intro c member
      have kept : line.takeWhile (fun c => decide (c ≠ 0)) = line :=
        (List.takeWhile_prefix _).eq_of_length full
      simpa using List.takeWhile_eq_self_iff.mp kept c member
    have inside : newline ∉ cstr line := fun member =>
      plain ((List.takeWhile_prefix _).subset member)
    rw [chop, same]
    exact if_neg fun last => inside (List.mem_of_getLast? last)

/-- The text of one line, in front of the texts of the others. -/
theorem fileTexts_cons {line : Text} (plain : newline ∉ line) (rest : Text) :
    fileTexts (line ++ newline :: rest) =
      (if isBlankLine (stripOffComment (cstr line)) then [] else [stripOffComment (cstr line)]) ++
        fileTexts rest := by
  unfold fileTexts
  rw [List.splitOn_append_cons_self_of_not_mem plain, List.map_cons, List.filter_cons]
  cases isBlankLine (stripOffComment (cstr line)) <;> simp

theorem fileTexts_last {line : Text} (plain : newline ∉ line) :
    fileTexts line =
      if isBlankLine (stripOffComment (cstr line)) then [] else [stripOffComment (cstr line)] := by
  unfold fileTexts
  rw [List.splitOn_eq_singleton plain, List.map_singleton, List.filter_cons]
  cases isBlankLine (stripOffComment (cstr line)) <;> simp

theorem fileTexts_newline (rest : Text) : fileTexts (newline :: rest) = fileTexts rest := by
  have empty : newline ∉ ([] : Text) := by simp
  exact fileTexts_cons empty rest

/-- The lines that the reading loop finds, `fgets` by `fgets`. -/
def readTexts : Nat → Text → List Text
  | 0, _ => []
  | count + 1, input =>
      if input.isEmpty then []
      else
        let line := stripOffComment (chop (fgets 1023 input).1)
        (if isBlankLine line then [] else [line]) ++ readTexts count (fgets 1023 input).2

theorem readLines_eq (count : Nat) (input : Text) (macs : List MacEntry) :
    readLines count input macs = (readTexts count input).foldlM addLine macs := by
  induction count generalizing input macs with
  | zero => rfl
  | succ count ih =>
      rw [readLines, readTexts]
      split
      · rfl
      · simp only [List.foldlM_append]
        split
        · exact ih _ macs
        · simp only [List.foldlM_cons, List.foldlM_nil, bind_pure]
          exact bind_congr fun macs => ih _ macs

/-- `fgets` takes something away. -/
theorem fgets_shorter {input : Text} (more : input ≠ []) (size : Nat) :
    (fgets (size + 1) input).2.length < input.length := by
  induction size generalizing input with
  | zero =>
      cases input with
      | nil => exact absurd rfl more
      | cons c rest =>
          rw [fgets]
          split <;> simp [fgets]
  | succ size ih =>
      cases input with
      | nil => exact absurd rfl more
      | cons c rest =>
          rw [fgets]
          split
          · simp
          · cases rest with
            | nil => simp [fgets]
            | cons d rest =>
                have more' : d :: rest ≠ [] := nofun
                have shorter := ih more'
                simp only [List.length_cons] at shorter ⊢
                omega

/-- The reading loop ends with the file. -/
theorem readTexts_enough {count : Nat} {input : Text} (enough : input.length < count) :
    readTexts count input = readTexts (input.length + 1) input := by
  obtain ⟨length, length_eq⟩ : ∃ length, input.length = length := ⟨_, rfl⟩
  induction length using Nat.strong_induction_on generalizing count input with
  | _ length ih =>
      cases count with
      | zero => cases enough
      | succ count =>
          rw [readTexts, readTexts]
          by_cases empty : input = []
          · rw [empty]
            rfl
          · have shorter := fgets_shorter empty 1022
            have small : (fgets 1023 input).2.length < length := length_eq ▸ shorter
            have left : (fgets 1023 input).2.length < count := by omega
            have right : (fgets 1023 input).2.length < input.length := shorter
            rw [ih _ small left rfl, ih _ small right rfl]

/-- The reading loop goes through the texts of the file. -/
theorem readTexts_eq {count : Nat} : ∀ {input : Text},
    (∀ line ∈ input.splitOn newline, line.length < 1024) → input.length < count →
    readTexts count input = fileTexts input := by
  induction count with
  | zero => intro input _ enough; cases enough
  | succ count ih =>
      intro input short enough
      by_cases empty : input = []
      · subst empty
        rfl
      have step : ∀ {line rest : Text}, fgets 1023 input = (line, rest) →
          readTexts (count + 1) input = (if isBlankLine (stripOffComment (chop line)) then []
            else [stripOffComment (chop line)]) ++ readTexts count rest := by
        intro line rest read
        have nonempty : input.isEmpty = false := by simpa using empty
        simp only [readTexts, nonempty, Bool.false_eq_true, ↓reduceIte, read]
      by_cases present : newline ∈ input
      · obtain ⟨line, rest, rfl, plain⟩ := List.eq_append_cons_of_mem present
        rw [List.splitOn_append_cons_self_of_not_mem plain] at short
        have later : ∀ other ∈ rest.splitOn newline, other.length < 1024 := fun other member =>
          short other (by simp [member])
        rw [List.length_append, List.length_cons] at enough
        rw [fileTexts_cons plain]
        rcases Nat.lt_or_ge line.length 1023 with inside | filled
        · rw [step (fgets_line plain rest inside), chop_newline plain, ih later (by omega)]
        · -- the newline that is left behind reads as a blank line
          have exact : line.length = 1023 := by
            have := short line (by simp)
            omega
          have read := fgets_full plain (newline :: rest)
          rw [exact] at read
          rw [step read, chop_plain plain, ih ?_ (by rw [List.length_cons]; omega), fileTexts_newline]
          intro other member
          have split : (newline :: rest).splitOn newline = [] :: rest.splitOn newline := by
            have empty : newline ∉ ([] : Text) := by simp
            exact List.splitOn_append_cons_self_of_not_mem empty rest
          rw [split] at member
          rcases List.mem_cons.mp member with rfl | tail
          · simp
          · exact later other tail
      · have room : input.length ≤ 1023 := by
          have := short input (by rw [List.splitOn_eq_singleton present]; simp)
          omega
        have ends : readTexts count [] = [] := by
          cases count <;> rfl
        rw [step (fgets_last present room), chop_plain present, fileTexts_last present, ends,
          List.append_nil]

/-! ## The form of a file -/

/-- A group file. Its lines list different ids, below the number of nodes. -/
structure FileForm (input : Text) (rows : List Row) : Prop where
  lines : List.Forall₂ LineForm (fileTexts input) rows
  distinct : (rows.flatMap Row.listed).Nodup
  below : ∀ id ∈ rows.flatMap Row.listed, id < (rows.map Row.nNodes).sum

/-- The file stays within the sizes that the parser's arrays and integers have. -/
structure Bounded (input : Text) : Prop where
  short : ∀ line ∈ input.splitOn newline, line.length < 1024
  few : (fileTexts input).length ≤ maxNodes
  small : ∀ text ∈ fileTexts input, BoundedLine text

theorem LineForm.unique {text : Text} {row row' : Row} (form : LineForm text row)
    (form' : LineForm text row') : row = row' := by
  obtain ⟨⟨sNodes, items, idss, split, -, count, forms, all⟩, -⟩ := form
  obtain ⟨⟨sNodes', items', idss', split', -, count', forms', all'⟩, -⟩ := form'
  rw [split] at split'
  simp only [List.cons.injEq] at split'
  obtain ⟨host, rfl, rfl⟩ := split'
  have same : idss = idss' :=
    List.right_unique_forall₂' (fun _ _ _ item item' => item.unique item') forms forms'
  have listed : row.listed = row'.listed := by rw [all, all', same]
  cases row
  cases row'
  simp only [Row.mk.injEq]
  exact ⟨host, count.trans count'.symm, listed⟩

theorem LineForm.unique_rows {texts : List Text} {rows rows' : List Row}
    (forms : List.Forall₂ LineForm texts rows) (forms' : List.Forall₂ LineForm texts rows') :
    rows = rows' :=
  List.right_unique_forall₂' (fun _ _ _ line line' => line.unique line') forms forms'

theorem Row.entry_nNodes {text : Text} {row : Row} (form : LineForm text row) :
    row.entry.nNodes = row.nNodes := by
  have room := form.room
  simp only [MacEntry.nNodes, Row.entry, List.length_append, List.length_map, List.length_replicate]
  omega

/-- The lines up to the first one that the parser refuses, when there are `count` machines with
`total` nodes before them. -/
def LinesInRange : Nat → Nat → List Text → Prop
  | _, _, [] => True
  | count, total, text :: texts => count < maxNodes ∧ LineInRange text ∧
      ∀ row, LineForm text row → total + row.nNodes < 2^31 ∧
        LinesInRange (count + 1) (total + row.nNodes) texts

theorem totalNodes_append (macs : List MacEntry) (mac : MacEntry) :
    totalNodes (macs ++ [mac]) = totalNodes macs + mac.nNodes := by
  simp [totalNodes]

theorem addLine_eq {macs : List MacEntry} (few : macs.length < maxNodes) (text : Text) :
    addLine macs text = parseOneLine text >>= fun mac =>
      if 2^31 ≤ totalNodes (macs ++ [mac]) then .error .undefined else pure (macs ++ [mac]) := by
  rw [addLine, if_neg (by omega)]

/-- The texts of the file give its rows, or one of them is no line. -/
theorem addLines_spec (texts : List Text) (macs : List MacEntry) :
    Outcome (LinesInRange macs.length (totalNodes macs) texts) (List.Forall₂ LineForm texts)
      (fun rows => macs ++ rows.map Row.entry) (texts.foldlM addLine macs) := by
  induction texts generalizing macs with
  | nil => exact .ok [] trivial .nil (by simp [pure, Except.pure])
  | cons text texts ih =>
      rw [List.foldlM_cons]
      by_cases few : macs.length < maxNodes
      · rw [addLine_eq few]
        cases parseOneLine_spec text with
        | ok row inside line parsed =>
            have nodes := Row.entry_nNodes line
            rw [parsed, ok_bind]
            have later : LinesInRange macs.length (totalNodes macs) (text :: texts) ↔
                totalNodes macs + row.nNodes < 2^31 ∧
                  LinesInRange (macs ++ [row.entry]).length (totalNodes (macs ++ [row.entry])) texts := by
              rw [List.length_append, List.length_singleton, totalNodes_append, nodes]
              refine ⟨fun all => all.2.2 row line, fun rest => ⟨few, inside, fun row' line' => ?_⟩⟩
              rw [line'.unique line]
              exact rest
            by_cases small : totalNodes macs + row.nNodes < 2^31
            · have fits : ¬ 2^31 ≤ totalNodes (macs ++ [row.entry]) := by
                rw [totalNodes_append, nodes]
                omega
              rw [if_neg fits, pure_bind]
              cases ih (macs ++ [row.entry]) with
              | ok rows rest lines parsed' =>
                  refine .ok (row :: rows) (later.mpr ⟨small, rest⟩) (.cons line lines) ?_
                  rw [parsed', List.map_cons, List.append_assoc, List.singleton_append]
              | refused rest none parsed' =>
                  refine .refused (later.mpr ⟨small, rest⟩) (fun rows forms => ?_) parsed'
                  cases forms with
                  | cons _ others => exact none _ others
              | undefined out parsed' =>
                  exact .undefined (fun all => out (later.mp all).2) parsed'
            · have large : 2^31 ≤ totalNodes (macs ++ [row.entry]) := by
                rw [totalNodes_append, nodes]
                omega
              rw [if_pos large]
              exact .undefined (fun all => small (later.mp all).1) rfl
        | refused inside none parsed =>
            rw [parsed]
            refine .refused ⟨few, inside, fun row line => absurd line (none row)⟩
              (fun rows forms => ?_) rfl
            cases forms with
            | cons line _ => exact none _ line
        | undefined out parsed =>
            rw [parsed]
            exact .undefined (fun all => out all.2.1) rfl
      · rw [addLine, if_pos (by omega)]
        exact .undefined (fun all => few all.1) rfl

/-! ## The first pass -/

/-- The table `used` once the ids in `seen` are taken. -/
def usedTable (total : Nat) (seen : List Nat) : List Bool :=
  (List.range total).map fun id => decide (id ∈ seen)

theorem usedTable_getD {total id : Nat} (below : id < total) (seen : List Nat) :
    (usedTable total seen).getD id false = decide (id ∈ seen) := by
  simp [usedTable, List.getD_eq_getElem?_getD, below]

theorem usedTable_set {total id : Nat} (seen : List Nat) :
    (usedTable total seen).set id true = usedTable total (seen ++ [id]) := by
  apply List.ext_getElem
  · simp [usedTable]
  · intro place inside inside'
    rw [List.getElem_set]
    by_cases here : id = place
    · simp [usedTable, here]
    · simp [usedTable, here, Ne.symm here]

/-- The ids of a line may join the ones before. -/
def Fresh (total : Nat) (seen listed : List Nat) : Prop :=
  (seen ++ listed).Nodup ∧ ∀ id ∈ listed, id < total

theorem Fresh.append {total : Nat} {seen listed more : List Nat} :
    Fresh total seen (listed ++ more) ↔
      Fresh total seen listed ∧ Fresh total (seen ++ listed) more := by
  unfold Fresh
  constructor
  · rintro ⟨distinct, below⟩
    rw [← List.append_assoc] at distinct
    exact ⟨⟨distinct.of_append_left, fun id member => below id (by simp [member])⟩, distinct,
      fun id member => below id (by simp [member])⟩
  · rintro ⟨⟨-, first⟩, distinct, second⟩
    refine ⟨by rw [← List.append_assoc]; exact distinct, fun id member => ?_⟩
    exact (List.mem_append.mp member).elim (first id) (second id)

/-- The first pass over the ids of a line, which reads behind them unless they fill it. -/
theorem markUsed_spec (total free : Nat) {listed : List Nat} : ∀ {j : Nat} {seen : List Nat},
    j + listed.length ≤ maxNodes → seen.Nodup →
    Outcome (Fresh total seen listed → free = 0 ∨ j + listed.length < maxNodes)
      (fun _ : Unit => Fresh total seen listed) (fun _ => usedTable total (seen ++ listed))
      (markUsed total j (usedTable total seen)
        (listed.map Int.ofNat ++ List.replicate free (-1))) := by
  induction listed with
  | nil =>
      intro j seen room distinct
      have fresh : Fresh total seen [] := ⟨by simpa using distinct, by simp⟩
      cases free with
      | zero => exact .ok () (fun _ => .inl rfl) fresh (by simp [markUsed])
      | succ free =>
          have small : ¬ (-1 : Int) ≥ total := by omega
          by_cases inside : maxNodes ≤ j
          · refine .undefined (fun all => ?_) (by simp [List.replicate_succ, markUsed, inside])
            have both := all fresh
            rw [List.length_nil] at both
            omega
          · refine .ok () (fun _ => .inr ?_) fresh ?_
            · rw [List.length_nil]
              omega
            · simp [List.replicate_succ, markUsed, inside, small]
  | cons id listed ih =>
      intro j seen room distinct
      rw [List.length_cons] at room
      have inside : ¬ maxNodes ≤ j := by omega
      by_cases big : total ≤ id
      · have stale : ¬ Fresh total seen (id :: listed) := by
          intro fresh
          have := fresh.2 id (by simp)
          omega
        exact .refused (fun fresh => absurd fresh stale) (fun _ => stale)
          (by simp [markUsed, inside, big])
      · have below : id < total := Nat.lt_of_not_le big
        have turn : markUsed total j (usedTable total seen)
            ((id :: listed).map Int.ofNat ++ List.replicate free (-1)) =
            if id ∈ seen then .error .refused
            else markUsed total (j + 1) (usedTable total (seen ++ [id]))
              (listed.map Int.ofNat ++ List.replicate free (-1)) := by
          simp only [List.map_cons, List.cons_append, markUsed, Int.ofNat_eq_natCast,
            Int.toNat_natCast, usedTable_getD below, usedTable_set, decide_eq_true_eq]
          rw [if_neg inside, if_neg (by omega), if_neg (by omega)]
        by_cases taken : id ∈ seen
        · have stale : ¬ Fresh total seen (id :: listed) := fun fresh =>
            (List.nodup_append.mp fresh.1).2.2 id taken id (by simp) rfl
          exact .refused (fun fresh => absurd fresh stale) (fun _ => stale) (by rw [turn, if_pos taken])
        · have single : Fresh total seen [id] :=
            ⟨by simpa using List.Nodup.concat taken distinct, by simpa using below⟩
          have split : Fresh total seen (id :: listed) ↔ Fresh total (seen ++ [id]) listed := by
            rw [← List.singleton_append, Fresh.append]
            exact ⟨And.right, fun rest => ⟨single, rest⟩⟩
          have shift : j + (id :: listed).length = j + 1 + listed.length := by
            rw [List.length_cons]
            omega
          have room' : j + 1 + listed.length ≤ maxNodes := by omega
          rw [turn, if_neg taken, split, shift]
          simpa using ih room' single.1

/-- A line that lists 256 ids and has more nodes. -/
def Row.Overfull (row : Row) : Prop := row.listed.length = maxNodes ∧ maxNodes < row.nNodes

instance (row : Row) : Decidable row.Overfull := inferInstanceAs (Decidable (_ ∧ _))

/-- The rows that the first pass goes through, unless it refuses: behind the ids of an overfull
one it reads beyond the array. -/
def firstPass : List Row → List Row
  | [] => []
  | row :: rows => if row.Overfull then [row] else row :: firstPass rows

/-- The first pass takes the ids of every line, or finds one that is taken or too large. -/
theorem markAll_spec (total : Nat) (rows : List Row)
    (fits : ∀ row ∈ rows, row.listed.length ≤ row.nNodes ∧ row.listed.length ≤ maxNodes) :
    ∀ {seen : List Nat}, seen.Nodup →
    Outcome (Fresh total seen ((firstPass rows).flatMap Row.listed) → ∀ row ∈ rows, ¬ row.Overfull)
      (fun _ : Unit => Fresh total seen (rows.flatMap Row.listed))
      (fun _ => usedTable total (seen ++ rows.flatMap Row.listed))
      ((rows.map Row.entry).foldlM (fun used mac => markUsed total 0 used mac.nodeIDs)
        (usedTable total seen)) := by
  induction rows with
  | nil =>
      intro seen distinct
      exact .ok () (fun _ => nofun) ⟨by simpa using distinct, by simp⟩ (by simp [pure, Except.pure])
  | cons row rows ih =>
      intro seen distinct
      obtain ⟨room, most⟩ := fits row (by simp)
      have inside : 0 + row.listed.length ≤ maxNodes := by omega
      rw [List.map_cons, List.foldlM_cons, List.flatMap_cons, Fresh.append]
      have begins : ∃ rest, firstPass (row :: rows) = row :: rest := by
        rw [firstPass]
        split
        · exact ⟨[], rfl⟩
        · exact ⟨_, rfl⟩
      obtain ⟨rest, begins⟩ := begins
      have step : markUsed total 0 (usedTable total seen) row.entry.nodeIDs =
          markUsed total 0 (usedTable total seen) (row.listed.map Int.ofNat ++
            List.replicate (row.nNodes - row.listed.length) (-1)) := rfl
      rw [step]
      cases markUsed_spec total (row.nNodes - row.listed.length) inside distinct with
      | ok _ within fresh marked =>
          have plain : ¬ row.Overfull := by
            rintro ⟨full, more⟩
            have := within fresh
            omega
          have front : firstPass (row :: rows) = row :: firstPass rows := if_neg plain
          have split : (Fresh total seen ((firstPass (row :: rows)).flatMap Row.listed) →
              ∀ other ∈ row :: rows, ¬ other.Overfull) ↔
              (Fresh total (seen ++ row.listed) ((firstPass rows).flatMap Row.listed) →
                ∀ other ∈ rows, ¬ other.Overfull) := by
            rw [front, List.flatMap_cons, Fresh.append]
            constructor
            · intro all later other member
              exact all ⟨fresh, later⟩ other (List.mem_cons_of_mem _ member)
            · rintro all ⟨-, later⟩ other member
              rcases List.mem_cons.mp member with rfl | behind
              · exact plain
              · exact all later other behind
          rw [marked, ok_bind, ← List.append_assoc]
          cases ih (fun other member => fits other (by simp [member])) fresh.1 with
          | ok _ within' fresh' marked' => exact .ok () (split.mpr within') ⟨fresh, fresh'⟩ marked'
          | refused within' stale marked' =>
              exact .refused (split.mpr within') (fun _ both => stale () both.2) marked'
          | undefined out marked' => exact .undefined (fun all => out (split.mp all)) marked'
      | refused within stale marked =>
          rw [marked]
          refine .refused (fun all => ?_) (fun _ both => stale () both.1) rfl
          rw [begins, List.flatMap_cons, Fresh.append] at all
          exact absurd all.1 (stale ())
      | undefined out marked =>
          rw [marked]
          refine .undefined (fun all => out fun fresh => ?_) rfl
          by_contra over'
          have full : row.Overfull := by
            unfold Row.Overfull
            omega
          have front : firstPass (row :: rows) = [row] := if_pos full
          rw [front, List.flatMap_singleton] at all
          exact all fresh row List.mem_cons_self full

/-! ## The second pass -/

/-- The ids that are still free, in increasing order. -/
def spare (total : Nat) (seen : List Nat) : List Nat :=
  (List.range total).filter fun id => id ∉ seen

theorem spare_cons {total id : Nat} {seen rest : List Nat} (first : spare total seen = id :: rest) :
    id < total ∧ id ∉ seen ∧ (∀ other < id, other ∈ seen) ∧ spare total (seen ++ [id]) = rest := by
  obtain ⟨front, back, split, taken, free, others⟩ := List.filter_eq_cons_iff.mp first
  simp only [decide_not, Bool.not_eq_eq_eq_not, Bool.not_true, decide_eq_false_iff_not,
    Decidable.not_not] at taken free
  have below : id < total := List.mem_range.mp (by rw [split]; simp)
  have ordered : (front ++ id :: back).Pairwise (· < ·) := split ▸ List.pairwise_lt_range
  obtain ⟨-, behind, -⟩ := List.pairwise_append.mp ordered
  have later : ∀ other ∈ back, id < other := (List.pairwise_cons.mp behind).1
  refine ⟨below, free, fun other smaller => ?_, ?_⟩
  · have present : other ∈ front ++ id :: back := by
      rw [← split]
      exact List.mem_range.mpr (by omega)
    rcases List.mem_append.mp present with inside | outside
    · exact taken other inside
    · rcases List.mem_cons.mp outside with rfl | after
      · omega
      · have := later other after
        omega
  · have gone : front.filter (fun other => other ∉ seen ++ [id]) = [] := by
      refine List.filter_eq_nil_iff.mpr fun other member => ?_
      simp [taken other member]
    have kept : back.filter (fun other => other ∉ seen ++ [id]) =
        back.filter fun other => other ∉ seen := by
      refine List.filter_congr fun other member => ?_
      have := later other member
      have apart : other ≠ id := by omega
      simp [apart]
    rw [spare, split, List.filter_append, gone, List.nil_append, List.filter_cons_of_neg (by simp),
      kept]
    exact others

theorem scan_spec {seen : List Nat} {id : Nat} (free : id ∉ seen) : ∀ {n k : Nat}, k ≤ id →
    id < k + n → (∀ other, k ≤ other → other < id → other ∈ seen) →
    scan k ((List.range' k n).map fun id => decide (id ∈ seen)) = .ok id := by
  intro n
  induction n with
  | zero => intro k low high _; omega
  | succ n ih =>
      intro k low high taken
      rw [List.range'_succ, List.map_cons]
      by_cases here : k = id
      · subst here
        simp [scan, free]
      · have used : k ∈ seen := taken k (le_refl k) (by omega)
        simp only [used, decide_true, scan]
        exact ih (by omega) (by omega) fun other above => taken other (by omega)

/-- `used` and `k` when the ids in `free` are left. -/
def Stands (total : Nat) (free : List Nat) (filling : Filling) : Prop :=
  ∃ seen, filling.used = usedTable total seen ∧ free = spare total seen ∧
    ∀ id < filling.k, id ∈ seen

/-- An open slot takes the first free id. -/
theorem fillNode_open {total id : Nat} {free : List Nat} {filling : Filling}
    (stands : Stands total (id :: free) filling) {nodeIDs : List Int}
    (room : nodeIDs.length < maxNodes) :
    ∃ filling', Stands total free filling' ∧
      fillNode (filling, nodeIDs) (-1) = .ok (filling', nodeIDs ++ [(id : Int)]) := by
  obtain ⟨seen, table, left, passed⟩ := stands
  obtain ⟨below, unused, smaller, rest⟩ := spare_cons left.symm
  have reached : filling.k ≤ id := Nat.le_of_not_lt fun beyond => unused (passed id beyond)
  have found : scan filling.k (filling.used.drop filling.k) = .ok id := by
    rw [table, usedTable, ← List.map_drop, List.range_eq_range', List.drop_range']
    simp only [Nat.zero_add, Nat.mul_one]
    exact scan_spec unused reached (by omega) fun other _ => smaller other
  refine ⟨⟨filling.used.set id true, id⟩, ⟨seen ++ [id], ?_, rest.symm, ?_⟩, ?_⟩
  · rw [table, usedTable_set]
  · exact fun other before => List.mem_append_left _ (smaller other before)
  · have inside : ¬ maxNodes ≤ nodeIDs.length := by omega
    simp [fillNode, inside, found, bind, Except.bind, pure, Except.pure]

theorem fillNode_listed (filling : Filling) {nodeIDs : List Int} (listed : List Nat)
    (room : nodeIDs.length + listed.length ≤ maxNodes) :
    (listed.map Int.ofNat).foldlM fillNode (filling, nodeIDs) =
      .ok (filling, nodeIDs ++ listed.map Int.ofNat) := by
  induction listed generalizing nodeIDs with
  | nil => simp [pure, Except.pure]
  | cons id listed ih =>
      rw [List.length_cons] at room
      have inside : ¬ maxNodes ≤ nodeIDs.length := by omega
      have given : Int.ofNat id ≠ -1 := by simp
      have step : fillNode (filling, nodeIDs) (Int.ofNat id) =
          .ok (filling, nodeIDs ++ [Int.ofNat id]) := by
        rw [fillNode, if_neg inside, if_neg given]
        rfl
      have rest : (nodeIDs ++ [Int.ofNat id]).length + listed.length ≤ maxNodes := by
        rw [List.length_append, List.length_singleton]
        omega
      rw [List.map_cons, List.foldlM_cons, step, ok_bind, ih rest, List.append_assoc,
        List.singleton_append]

theorem fillNode_opens {total n : Nat} : ∀ {free : List Nat} {filling : Filling}
    {nodeIDs : List Int}, Stands total free filling → n ≤ free.length →
    nodeIDs.length + n ≤ maxNodes → ∃ filling', Stands total (free.drop n) filling' ∧
      (List.replicate n (-1)).foldlM fillNode (filling, nodeIDs) =
        .ok (filling', nodeIDs ++ (free.take n).map Int.ofNat) := by
  induction n with
  | zero => exact fun stands _ _ => ⟨_, stands, by simp [pure, Except.pure]⟩
  | succ n ih =>
      intro free filling nodeIDs stands enough room
      cases free with
      | nil => cases enough
      | cons id free =>
          have inside : nodeIDs.length < maxNodes := by omega
          obtain ⟨filling₁, stands₁, step⟩ := fillNode_open stands inside
          have room₁ : (nodeIDs ++ [(id : Int)]).length + n ≤ maxNodes := by
            rw [List.length_append, List.length_singleton]
            omega
          obtain ⟨filling₂, stands₂, rest⟩ := ih stands₁ (Nat.le_of_succ_le_succ enough) room₁
          refine ⟨filling₂, stands₂, ?_⟩
          rw [List.replicate_succ, List.foldlM_cons, step, ok_bind, rest]
          simp

/-- The entry of a row whose open slots have the ids in `fill`. -/
def Row.filled (row : Row) (fill : List Nat) : MacEntry :=
  ⟨row.host.take maxHostName, (row.listed ++ fill).map Int.ofNat⟩

/-- The number of slots of a row that list no id. -/
def Row.slots (row : Row) : Nat := row.nNodes - row.listed.length

theorem fillMac_entry {total : Nat} {row : Row} (room : row.listed.length ≤ row.nNodes)
    (most : row.nNodes ≤ maxNodes) {free : List Nat} {filling : Filling}
    (stands : Stands total free filling) (enough : row.slots ≤ free.length) (macs : List MacEntry) :
    ∃ filling', Stands total (free.drop row.slots) filling' ∧
      fillMac (filling, macs) row.entry =
        .ok (filling', macs ++ [row.filled (free.take row.slots)]) := by
  have given : ([] : List Int).length + row.listed.length ≤ maxNodes := by
    rw [List.length_nil]
    omega
  have open' : (row.listed.map Int.ofNat).length + row.slots ≤ maxNodes := by
    rw [List.length_map, Row.slots]
    omega
  obtain ⟨filling', stands', filled⟩ := fillNode_opens stands enough open'
  refine ⟨filling', stands', ?_⟩
  unfold fillMac
  rw [Row.entry, List.foldlM_append, fillNode_listed filling row.listed given, ok_bind,
    List.nil_append, ← Row.slots, filled]
  simp [Row.filled, pure, Except.pure]

/-- The second pass fills the open slots of all rows, in their order, from the free ids. -/
theorem fillAll_spec {total : Nat} {rows : List Row}
    (fits : ∀ row ∈ rows, row.listed.length ≤ row.nNodes ∧ row.nNodes ≤ maxNodes) :
    ∀ {free : List Nat} {filling : Filling} (macs : List MacEntry), Stands total free filling →
    free.length = (rows.map Row.slots).sum →
    ∃ fills filling', fills.map List.length = rows.map Row.slots ∧ fills.flatten = free ∧
      (rows.map Row.entry).foldlM fillMac (filling, macs) =
        .ok (filling', macs ++ List.zipWith Row.filled rows fills) := by
  induction rows with
  | nil =>
      intro free filling macs _ count
      have empty : free = [] := List.length_eq_zero_iff.mp count
      exact ⟨[], filling, rfl, by simp [empty], by simp [pure, Except.pure]⟩
  | cons row rows ih =>
      intro free filling macs stands count
      rw [List.map_cons, List.sum_cons] at count
      obtain ⟨room, most⟩ := fits row (by simp)
      have enough : row.slots ≤ free.length := by omega
      obtain ⟨filling₁, stands₁, step⟩ := fillMac_entry room most stands enough macs
      have count₁ : (free.drop row.slots).length = (rows.map Row.slots).sum := by
        rw [List.length_drop]
        omega
      obtain ⟨fills, filling₂, lengths, all, rest⟩ :=
        ih (fun other member => fits other (by simp [member]))
          (macs ++ [row.filled (free.take row.slots)]) stands₁ count₁
      refine ⟨free.take row.slots :: fills, filling₂, ?_, ?_, ?_⟩
      · simp [lengths, List.length_take, enough]
      · rw [List.flatten_cons, all, List.take_append_drop]
      · rw [List.map_cons, List.foldlM_cons, step, ok_bind, rest]
        simp

/-! ## Every id has one place -/

/-- The listed ids and the free ones are all ids below the total. -/
theorem listed_spare_perm {total : Nat} {listed : List Nat} (fresh : Fresh total [] listed) :
    (listed ++ spare total listed).Perm (List.range total) := by
  have listed' : listed.Perm ((List.range total).filter fun id => decide (id ∈ listed)) := by
    refine (List.perm_ext_iff_of_nodup fresh.1 (List.nodup_range.filter _)).mpr fun id => ?_
    simp only [List.mem_filter, List.mem_range, decide_eq_true_eq]
    exact ⟨fun member => ⟨fresh.2 id member, member⟩, And.right⟩
  have rest : spare total listed = (List.range total).filter fun id => !decide (id ∈ listed) := by
    simp [spare]
  rw [rest]
  exact (listed'.append_right _).trans (List.filter_append_perm _ _)

theorem filled_perm {rows : List Row} : ∀ {fills : List (List Nat)},
    fills.map List.length = rows.map Row.slots →
    ((List.zipWith Row.filled rows fills).flatMap MacEntry.nodeIDs).Perm
      ((rows.flatMap Row.listed ++ fills.flatten).map Int.ofNat) := by
  induction rows with
  | nil => intro fills lengths; simp_all
  | cons row rows ih =>
      intro fills lengths
      cases fills with
      | nil => simp at lengths
      | cons fill fills =>
          rw [List.map_cons, List.map_cons] at lengths
          have rest := ih (List.cons.inj lengths).2
          simp only [List.zipWith_cons_cons, List.flatMap_cons, List.flatten_cons, Row.filled,
            List.map_append, List.append_assoc] at rest ⊢
          refine List.Perm.append_left _ ((List.Perm.append_left _ rest).trans ?_)
          rw [← List.append_assoc, ← List.append_assoc]
          exact List.Perm.append_right _ List.perm_append_comm

theorem filled_nNodes {rows : List Row} : ∀ {fills : List (List Nat)},
    fills.map List.length = rows.map Row.slots →
    (∀ row ∈ rows, row.listed.length ≤ row.nNodes) →
    (List.zipWith Row.filled rows fills).map MacEntry.nNodes = rows.map Row.nNodes := by
  induction rows with
  | nil => intro fills lengths _; simp
  | cons row rows ih =>
      intro fills lengths fits
      cases fills with
      | nil => simp at lengths
      | cons fill fills =>
          rw [List.map_cons, List.map_cons] at lengths
          obtain ⟨here, rest⟩ := List.cons.inj lengths
          have fit := fits row (by simp)
          rw [List.zipWith_cons_cons, List.map_cons, List.map_cons,
            ih rest fun other member => fits other (by simp [member])]
          simp only [List.cons.injEq, and_true, MacEntry.nNodes, Row.filled, List.length_map,
            List.length_append, here, Row.slots]
          omega

theorem scan_error {used : List Bool} : ∀ {k : Nat} {e : Failure}, scan k used = .error e →
    e = .undefined := by
  induction used with
  | nil =>
      intro k e failed
      cases failed
      rfl
  | cons taken used ih =>
      intro k e failed
      cases taken with
      | true => exact ih failed
      | false => cases failed

theorem fillNode_cases (state : Filling × List Int) (id : Int) :
    fillNode state id = .error .undefined ∨ state.2.length < maxNodes ∧
      ∃ state', fillNode state id = .ok state' ∧ state'.2.length = state.2.length + 1 := by
  by_cases full : maxNodes ≤ state.2.length
  · exact .inl (if_pos full)
  · have room : state.2.length < maxNodes := by omega
    rw [fillNode, if_neg full]
    split
    · cases found : scan state.1.k (state.1.used.drop state.1.k) with
      | error e =>
          rw [scan_error found]
          exact .inl rfl
      | ok k => exact .inr ⟨room, _, rfl, by simp⟩
    · exact .inr ⟨room, _, rfl, by simp⟩

theorem fillNodes_cases (nodeIDs : List Int) (state : Filling × List Int) :
    nodeIDs.foldlM fillNode state = .error .undefined ∨
      (nodeIDs = [] ∨ state.2.length + nodeIDs.length ≤ maxNodes) ∧
        ∃ state', nodeIDs.foldlM fillNode state = .ok state' := by
  induction nodeIDs generalizing state with
  | nil => exact .inr ⟨.inl rfl, state, rfl⟩
  | cons id nodeIDs ih =>
      rw [List.foldlM_cons]
      rcases fillNode_cases state id with failed | ⟨room, state', filled, longer⟩
      · rw [failed]
        exact .inl rfl
      · rw [filled, ok_bind]
        rcases ih state' with failed | ⟨fits, last, rest⟩
        · exact .inl failed
        · refine .inr ⟨.inr ?_, last, rest⟩
          rw [List.length_cons]
          rcases fits with rfl | fits
          · rw [List.length_nil]
            omega
          · omega

theorem fillMac_cases (state : Filling × List MacEntry) (mac : MacEntry) :
    fillMac state mac = .error .undefined ∨
      mac.nodeIDs.length ≤ maxNodes ∧ ∃ state', fillMac state mac = .ok state' := by
  rw [fillMac]
  rcases fillNodes_cases mac.nodeIDs (state.1, []) with failed | ⟨fits, ⟨filling, nodeIDs⟩, filled⟩
  · rw [failed]
    exact .inl rfl
  · rw [filled]
    refine .inr ⟨?_, _, rfl⟩
    rcases fits with none | fits
    · rw [none]
      exact Nat.zero_le _
    · simpa using fits

/-- The second pass does not stay within the array of a machine with too many nodes. -/
theorem fillAll_beyond {macs : List MacEntry} (state : Filling × List MacEntry)
    (large : ∃ mac ∈ macs, maxNodes < mac.nodeIDs.length) :
    macs.foldlM fillMac state = .error .undefined := by
  induction macs generalizing state with
  | nil =>
      obtain ⟨mac, member, -⟩ := large
      cases member
  | cons mac macs ih =>
      rw [List.foldlM_cons]
      rcases fillMac_cases state mac with failed | ⟨fits, state', filled⟩
      · rw [failed]
        rfl
      · rw [filled, ok_bind]
        refine ih state' ?_
        obtain ⟨other, member, long⟩ := large
        rcases List.mem_cons.mp member with rfl | later
        · omega
        · exact ⟨other, later, long⟩

/-! ## The parser -/

/-- One entry for each row, in order, which starts with the ids that the row lists. The other
slots have the unlisted ids, in increasing order, and every id has one slot. -/
structure Numbered (rows : List Row) (macs : List MacEntry) : Prop where
  entries : ∃ fills, fills.map List.length = rows.map Row.slots ∧
    fills.flatten = spare (rows.map Row.nNodes).sum (rows.flatMap Row.listed) ∧
    macs = List.zipWith Row.filled rows fills
  length : macs.length = rows.length
  ids : (macs.flatMap MacEntry.nodeIDs).Perm
    ((List.range (rows.map Row.nNodes).sum).map Int.ofNat)

theorem LineForm.rooms {texts : List Text} {rows : List Row}
    (lines : List.Forall₂ LineForm texts rows) : ∀ row ∈ rows, row.listed.length ≤ row.nNodes := by
  induction lines with
  | nil => simp
  | cons line _ ih =>
      intro row member
      rcases List.mem_cons.mp member with rfl | later
      · exact line.room
      · exact ih row later

theorem slots_sum {rows : List Row} (fits : ∀ row ∈ rows, row.listed.length ≤ row.nNodes) :
    (rows.flatMap Row.listed).length + (rows.map Row.slots).sum = (rows.map Row.nNodes).sum := by
  induction rows with
  | nil => rfl
  | cons row rows ih =>
      have fit := fits row (by simp)
      have rest := ih fun other member => fits other (by simp [member])
      simp only [List.flatMap_cons, List.length_append, List.map_cons, List.sum_cons, Row.slots]
        at rest ⊢
      omega

/-- The second pass after a first pass that accepts. -/
theorem fill_numbered {rows : List Row}
    (fits : ∀ row ∈ rows, row.listed.length ≤ row.nNodes ∧ row.nNodes ≤ maxNodes)
    (fresh : Fresh (rows.map Row.nNodes).sum [] (rows.flatMap Row.listed)) :
    ∃ filling macs, Numbered rows macs ∧ (rows.map Row.entry).foldlM fillMac
      (⟨usedTable (rows.map Row.nNodes).sum (rows.flatMap Row.listed), 0⟩, []) =
        .ok (filling, macs) := by
  have rooms : ∀ row ∈ rows, row.listed.length ≤ row.nNodes := fun row member => (fits row member).1
  have perm := listed_spare_perm fresh
  have count : (spare (rows.map Row.nNodes).sum (rows.flatMap Row.listed)).length =
      (rows.map Row.slots).sum := by
    have lengths := perm.length_eq
    have sum := slots_sum rooms
    rw [List.length_append, List.length_range] at lengths
    omega
  have stands : Stands (rows.map Row.nNodes).sum
      (spare (rows.map Row.nNodes).sum (rows.flatMap Row.listed))
      ⟨usedTable (rows.map Row.nNodes).sum (rows.flatMap Row.listed), 0⟩ :=
    ⟨rows.flatMap Row.listed, rfl, rfl, by simp⟩
  obtain ⟨fills, filling, lengths, all, filled⟩ := fillAll_spec fits [] stands count
  refine ⟨filling, _, ⟨⟨fills, lengths, all, rfl⟩, ?_, ?_⟩, filled⟩
  · have same := congrArg List.length lengths
    rw [List.length_map, List.length_map] at same
    rw [List.length_zipWith, same, Nat.min_self]
  · refine (filled_perm lengths).trans ?_
    rw [all]
    exact perm.map _

/-- What `FileForm` says of the texts of a file. -/
structure TextForm (texts : List Text) (rows : List Row) : Prop where
  lines : List.Forall₂ LineForm texts rows
  distinct : (rows.flatMap Row.listed).Nodup
  below : ∀ id ∈ rows.flatMap Row.listed, id < (rows.map Row.nNodes).sum

/-- A file for which the parser stays within its arrays and `int`. Once the lines are read, every
machine has at most 256 nodes, or the first pass refuses the file before it matters. -/
structure InRange (texts : List Text) : Prop where
  lines : LinesInRange 0 0 texts
  passes : ∀ rows, List.Forall₂ LineForm texts rows →
    Fresh (rows.map Row.nNodes).sum [] ((firstPass rows).flatMap Row.listed) →
    ∀ row ∈ rows, row.nNodes ≤ maxNodes

/-- What the parser reads of a file. -/
def grpTexts (input : Text) : List Text := readTexts (input.length + 1) input

theorem LinesInRange.line {texts : List Text} {rows : List Row}
    (lines : List.Forall₂ LineForm texts rows) : ∀ {count total : Nat},
    LinesInRange count total texts → ∀ row ∈ rows, row.listed.length ≤ maxNodes := by
  induction lines with
  | nil => exact fun _ => nofun
  | @cons text row texts rows line _ ih =>
      intro count total inside other member
      rcases List.mem_cons.mp member with rfl | later
      · exact line.most inside.2.1
      · exact ih (inside.2.2 row line).2 other later

theorem firstPass_sublist (rows : List Row) : (firstPass rows).Sublist rows := by
  induction rows with
  | nil => exact .slnil
  | cons row rows ih =>
      rw [firstPass]
      split
      · exact (List.nil_sublist rows).cons_cons row
      · exact ih.cons_cons row

theorem firstPass_plain {rows : List Row} (plain : ∀ row ∈ rows, ¬ row.Overfull) :
    firstPass rows = rows := by
  induction rows with
  | nil => rfl
  | cons row rows ih =>
      rw [firstPass, if_neg (plain row List.mem_cons_self),
        ih fun other member => plain other (List.mem_cons_of_mem _ member)]

theorem Fresh.firstPass {total : Nat} {rows : List Row}
    (fresh : Fresh total [] (rows.flatMap Row.listed)) :
    Fresh total [] ((firstPass rows).flatMap Row.listed) := by
  have fewer := (firstPass_sublist rows).flatMap Row.listed
  exact ⟨fewer.nodup fresh.1, fun id member => fresh.2 id (fewer.subset member)⟩

/-- The parser accepts the files that have the form, and numbers their nodes. -/
theorem netqParseGrpFile_spec (input : Text) :
    (InRange (grpTexts input) ∧ ∃ rows macs, TextForm (grpTexts input) rows ∧ Numbered rows macs ∧
      netqParseGrpFile input = .ok macs) ∨
    (InRange (grpTexts input) ∧ (∀ rows, ¬ TextForm (grpTexts input) rows) ∧
      netqParseGrpFile input = .error .refused) ∨
    (¬ InRange (grpTexts input) ∧ netqParseGrpFile input = .error .undefined) := by
  unfold netqParseGrpFile
  rw [readLines_eq]
  change (_ ∧ ∃ rows macs, _ ∧ _ ∧ ((grpTexts input).foldlM addLine [] >>= _) = _) ∨
    (_ ∧ _ ∧ ((grpTexts input).foldlM addLine [] >>= _) = _) ∨
    (_ ∧ ((grpTexts input).foldlM addLine [] >>= _) = _)
  cases addLines_spec (grpTexts input) [] with
  | refused inside none read =>
      refine .inr (.inl ⟨⟨inside, fun rows lines => absurd lines (none rows)⟩,
        fun rows form => none rows form.lines, ?_⟩)
      rw [read, error_bind]
  | undefined out read =>
      refine .inr (.inr ⟨fun all => out all.lines, ?_⟩)
      rw [read, error_bind]
  | ok rows inside lines read =>
      have rooms := LineForm.rooms lines
      have mosts := LinesInRange.line lines inside
      have only : ∀ rows', List.Forall₂ LineForm (grpTexts input) rows' → rows' = rows :=
        fun rows' lines' => LineForm.unique_rows lines' lines
      have total : totalNodes (rows.map Row.entry) = (rows.map Row.nNodes).sum := by
        rw [totalNodes, List.map_map]
        refine congrArg List.sum (List.map_congr_left fun row member => ?_)
        have := rooms row member
        simp only [Function.comp, MacEntry.nNodes, Row.entry, List.length_append, List.length_map,
          List.length_replicate]
        omega
      have start : List.replicate (rows.map Row.nNodes).sum false =
          usedTable (rows.map Row.nNodes).sum [] := by
        simp [usedTable, List.map_const']
      rw [read, ok_bind, List.nil_append]
      simp only [total, start]
      cases markAll_spec (rows.map Row.nNodes).sum rows
        (fun row member => ⟨rooms row member, mosts row member⟩) List.nodup_nil with
      | ok _ within fresh marked =>
          rw [marked, ok_bind, List.nil_append]
          by_cases most : ∀ row ∈ rows, row.nNodes ≤ maxNodes
          · obtain ⟨filling, macs, numbered, filled⟩ := fill_numbered
              (fun row member => ⟨rooms row member, most row member⟩) fresh
            refine .inl ⟨⟨inside, fun rows' lines' _ => ?_⟩, rows, macs,
              ⟨lines, fresh.1, fresh.2⟩, numbered, ?_⟩
            · rw [only rows' lines']
              exact most
            · rw [filled]
              rfl
          · push Not at most
            obtain ⟨row, member, large⟩ := most
            refine .inr (.inr ⟨fun all => ?_, ?_⟩)
            · have := all.passes rows lines fresh.firstPass row member
              omega
            · rw [fillAll_beyond _ ⟨row.entry, List.mem_map_of_mem member, ?_⟩, error_bind]
              have room := rooms row member
              simp only [Row.entry, List.length_append, List.length_map, List.length_replicate]
              omega
      | refused within stale marked =>
          refine .inr (.inl ⟨⟨inside, fun rows' lines' fresh' => ?_⟩, fun rows' form => ?_, ?_⟩)
          · rw [only rows' lines'] at fresh' ⊢
            have plain := within fresh'
            have all : firstPass rows = rows := firstPass_plain plain
            rw [all] at fresh'
            exact absurd fresh' (stale ())
          · rw [only rows' form.lines] at form
            exact stale () ⟨form.distinct, form.below⟩
          · rw [marked, error_bind]
      | undefined out marked =>
          refine .inr (.inr ⟨fun all => out fun fresh row member full => ?_, ?_⟩)
          · have := all.passes rows lines fresh row member
            have large := full.2
            omega
          · rw [marked, error_bind]

/-- The parser stays within its arrays and `int`, and its loops end, just for the files that
`InRange` describes; it never lists more ids than the line has nodes. -/
theorem groupFile_inRange_iff (input : Text) :
    (netqParseGrpFile input ≠ .error .undefined ↔ InRange (grpTexts input)) ∧
    (∀ count, input.length < count → readLines count input [] = readLines (input.length + 1) input []) ∧
    ∀ nNodes listed token listed', parseItem nNodes listed token = .ok listed' →
      listed'.length ≤ nNodes := by
  refine ⟨?_, fun count enough => ?_, fun nNodes listed token listed' parsed => ?_⟩
  · rcases netqParseGrpFile_spec input with
      ⟨inside, rows, macs, -, -, parsed⟩ | ⟨inside, -, parsed⟩ | ⟨out, parsed⟩
    · rw [parsed]
      exact ⟨fun _ => inside, fun _ => nofun⟩
    · rw [parsed]
      exact ⟨fun _ => inside, fun _ => by decide⟩
    · rw [parsed]
      exact ⟨fun defined => absurd rfl defined, fun inside => absurd inside out⟩
  · rw [readLines_eq, readLines_eq, readTexts_enough enough]
  · cases parseItem_spec token nNodes listed with
    | ok ids _ fits here =>
        rw [here, Except.ok.injEq] at parsed
        rw [← parsed, List.length_append]
        exact fits.room
    | refused _ _ here =>
        rw [here] at parsed
        cases parsed
    | undefined _ here =>
        rw [here] at parsed
        cases parsed

/-- `h 257 0-256` -/
def wideFile : Text := [104, 32, 50, 53, 55, 32, 48, 45, 50, 53, 54, 10]

set_option maxRecDepth 4000 in
/-- The line's last id is stored behind `nodeIDs`. -/
theorem wideFile_outside : netqParseGrpFile wideFile = .error .undefined := by rfl

/-! ## Files of ordinary size -/

theorem itemsInRange_of_form {nNodes : Nat} (most : nNodes ≤ maxNodes) {items : List Text}
    {idss : List (List Nat)} (forms : List.Forall₂ ItemIds items idss)
    (bounded : ∀ word ∈ items, BoundedItem word) (small : ∀ id ∈ idss.flatten, id + 1 < 2^31) :
    ∀ {i : Nat}, i ≤ nNodes → ItemsInRange nNodes i items := by
  induction forms with
  | nil => exact fun _ => trivial
  | @cons word ids items idss item others ih =>
      intro i room
      obtain ⟨number, range⟩ := bounded word List.mem_cons_self
      refine ⟨⟨fun digits _ => number digits, fun a b head tail same => ?_, fun ids' _ fits => ?_⟩,
        fun ids' fits => ?_⟩
      · obtain ⟨first, second, width⟩ := range a b head tail same
        simp only [maxNodes] at most
        refine ⟨first, second, by omega, fun _ => ?_⟩
        subst same
        have listed := item.of_range head
        refine small _ (List.mem_flatten.mpr ⟨ids, List.mem_cons_self, ?_⟩)
        rw [listed, List.mem_range']
        exact ⟨max (numeral a) (numeral b) - min (numeral a) (numeral b), by omega, by omega⟩
      · exact le_trans fits most
      · refine ih (fun other member => bounded other (List.mem_cons_of_mem _ member))
          (fun id member => small id ?_) fits.room
        rw [List.flatten_cons]
        exact List.mem_append_right _ member

theorem lineInRange_of_form {text : Text} {row : Row} (form : LineForm text row)
    (bounded : BoundedLine text) (small : ∀ id ∈ row.listed, id + 1 < 2^31) :
    LineInRange text ∧ row.nNodes ≤ maxNodes := by
  obtain ⟨⟨sNodes, items, idss, split, digits, count, forms, all⟩, -⟩ := form
  obtain ⟨most, items'⟩ := bounded _ _ _ split
  have few := most digits
  refine ⟨fun host' sNodes' items'' split' digits' => ?_, count ▸ few⟩
  rw [split] at split'
  cases split'
  simp only [maxNodes] at few
  refine ⟨by omega, itemsInRange_of_form (most digits) forms items' ?_ (Nat.zero_le _)⟩
  rwa [← all]

theorem linesInRange_of_form {texts : List Text} {rows : List Row}
    (lines : List.Forall₂ LineForm texts rows) (bounded : ∀ text ∈ texts, BoundedLine text)
    (small : ∀ id ∈ rows.flatMap Row.listed, id + 1 < 2^31) : ∀ count total : Nat,
    count + texts.length ≤ maxNodes → total + maxNodes * texts.length < 2^31 →
    LinesInRange count total texts ∧ ∀ row ∈ rows, row.nNodes ≤ maxNodes := by
  induction lines with
  | nil => exact fun _ _ _ _ => ⟨trivial, nofun⟩
  | @cons text row texts rows line others ih =>
      intro count total few fits
      rw [List.length_cons] at few fits
      rw [Nat.mul_succ] at fits
      have here : ∀ id ∈ row.listed, id + 1 < 2^31 := fun id member =>
        small id (List.mem_flatMap.mpr ⟨row, List.mem_cons_self, member⟩)
      obtain ⟨inside, most⟩ := lineInRange_of_form line (bounded text List.mem_cons_self) here
      have later : ∀ id ∈ rows.flatMap Row.listed, id + 1 < 2^31 := by
        intro id member
        refine small id ?_
        rw [List.flatMap_cons]
        exact List.mem_append_right _ member
      have rest : total + row.nNodes + maxNodes * texts.length < 2^31 := by omega
      obtain ⟨behind, mosts⟩ := ih
        (fun other member => bounded other (List.mem_cons_of_mem _ member)) later
        (count + 1) _ (by omega) rest
      refine ⟨⟨by omega, inside, fun row' line' => ?_⟩, fun other member => ?_⟩
      · rw [line'.unique line]
        exact ⟨by omega, behind⟩
      · rcases List.mem_cons.mp member with rfl | tail
        · exact most
        · exact mosts other tail

theorem lineNodes {texts : List Text} {rows : List Row} (lines : List.Forall₂ LineForm texts rows)
    (bounded : ∀ text ∈ texts, BoundedLine text) : ∀ row ∈ rows, row.nNodes ≤ maxNodes := by
  induction lines with
  | nil => exact nofun
  | @cons text row texts rows line _ ih =>
      intro other member
      rcases List.mem_cons.mp member with rfl | tail
      · obtain ⟨⟨sNodes, items, idss, split, digits, count, -⟩, -⟩ := line
        rw [count]
        exact (bounded text List.mem_cons_self _ _ _ split).1 digits
      · exact ih (fun text' later => bounded text' (List.mem_cons_of_mem _ later)) other tail

/-- A bounded file that has the form has small ids, so that the parser stays in range. -/
theorem Bounded.inRange {input : Text} {rows : List Row} (bounded : Bounded input)
    (form : FileForm input rows) : InRange (fileTexts input) := by
  have nodes := lineNodes form.lines bounded.small
  have sum : (rows.map Row.nNodes).sum ≤ maxNodes * maxNodes := by
    have each : ∀ count ∈ rows.map Row.nNodes, count ≤ maxNodes := by
      intro count member
      obtain ⟨row, here, rfl⟩ := List.mem_map.mp member
      exact nodes row here
    have few : rows.length ≤ maxNodes := form.lines.length_eq ▸ bounded.few
    calc
      (rows.map Row.nNodes).sum ≤ (rows.map Row.nNodes).length • maxNodes :=
        List.sum_le_card_nsmul _ _ each
      _ = rows.length * maxNodes := by rw [List.length_map, smul_eq_mul]
      _ ≤ maxNodes * maxNodes := Nat.mul_le_mul_right _ few
  have small : ∀ id ∈ rows.flatMap Row.listed, id + 1 < 2^31 := by
    intro id member
    have below := form.below id member
    simp only [maxNodes] at sum
    omega
  have few := bounded.few
  obtain ⟨lines, mosts⟩ := linesInRange_of_form form.lines bounded.small small 0 0
    (by omega) (by simp only [maxNodes] at few ⊢; omega)
  refine ⟨lines, fun rows' lines' _ => ?_⟩
  rw [LineForm.unique_rows lines' form.lines]
  exact mosts

/-- A group file is accepted just when it has the form, and the result is numbered as the form
says. -/
theorem groupFile_accepted_iff {input : Text} (bounded : Bounded input) :
    ((∃ macs, netqParseGrpFile input = .ok macs) ↔ ∃ rows, FileForm input rows) ∧
    (∀ macs, netqParseGrpFile input = .ok macs →
      ∃ rows, FileForm input rows ∧ Numbered rows macs) := by
  have same : grpTexts input = fileTexts input := readTexts_eq bounded.short (Nat.lt_succ_self _)
  have spec := netqParseGrpFile_spec input
  rw [same] at spec
  rcases spec with ⟨-, rows, macs, form, numbered, parsed⟩ | ⟨-, none, parsed⟩ | ⟨out, parsed⟩
  · have form' : FileForm input rows := ⟨form.lines, form.distinct, form.below⟩
    refine ⟨⟨fun _ => ⟨rows, form'⟩, fun _ => ⟨macs, parsed⟩⟩, fun macs' parsed' => ?_⟩
    rw [parsed] at parsed'
    obtain rfl := Except.ok.inj parsed'
    exact ⟨rows, form', numbered⟩
  · have refused : ∀ macs, netqParseGrpFile input ≠ .ok macs := by
      intro macs accepted
      rw [parsed] at accepted
      cases accepted
    refine ⟨⟨fun ⟨macs, accepted⟩ => absurd accepted (refused macs), fun ⟨rows, form⟩ => ?_⟩,
      fun macs accepted => absurd accepted (refused macs)⟩
    exact absurd ⟨form.lines, form.distinct, form.below⟩ (none rows)
  · have refused : ∀ macs, netqParseGrpFile input ≠ .ok macs := by
      intro macs accepted
      rw [parsed] at accepted
      cases accepted
    refine ⟨⟨fun ⟨macs, accepted⟩ => absurd accepted (refused macs), fun ⟨rows, form⟩ => ?_⟩,
      fun macs accepted => absurd accepted (refused macs)⟩
    exact absurd (bounded.inRange form) out

/-- The machine lists that the parser returns give every rank one place. -/
theorem Numbered.accepted {rows : List Row} {macs : List MacEntry} (numbered : Numbered rows macs)
    (fits : ∀ row ∈ rows, row.listed.length ≤ row.nNodes) : Accepted macs := by
  obtain ⟨fills, lengths, -, rfl⟩ := numbered.entries
  rw [Accepted, filled_nNodes lengths fits]
  exact numbered.ids

/-- `a 3 2-1` and `b 1`, with a comment. -/
def sampleFile : Text :=
  [97, 32, 51, 32, 50, 45, 49, 10, 98, 9, 49, 32, 35, 120, 10]

theorem sampleFile_bounded : Bounded sampleFile := by
  have texts : fileTexts sampleFile = [[97, 32, 51, 32, 50, 45, 49], [98, 9, 49, 32]] := by decide
  refine ⟨by decide, by decide, fun text member => ?_⟩
  rw [texts] at member
  rcases List.mem_cons.mp member with rfl | later
  · intro host sNodes items split
    have found : words [97, 32, 51, 32, 50, 45, 49] = [[97], [51], [50, 45, 49]] := by decide
    rw [found] at split
    cases split
    refine ⟨fun _ => by decide, fun word inside => ?_⟩
    obtain rfl := List.mem_singleton.mp inside
    refine ⟨fun _ => by decide, fun a b head tail form => ?_⟩
    obtain rfl : [50] = a := by rw [← takeWhile_dash (b := b) head, ← form]; decide
    obtain rfl : [49] = b := (List.cons.inj (List.cons.inj form).2).2
    decide
  · obtain rfl := List.mem_singleton.mp later
    intro host sNodes items split
    have found : words [98, 9, 49, 32] = [[98], [49]] := by decide
    rw [found] at split
    cases split
    exact ⟨fun _ => by decide, fun word inside => nomatch inside⟩

/-- The free slots of the sample take 0 and 3. -/
theorem groupFile_accepted_sample :
    netqParseGrpFile sampleFile = .ok [⟨[97], [1, 2, 0]⟩, ⟨[98], [3]⟩] ∧
    ∃ rows, FileForm sampleFile rows ∧ Numbered rows [⟨[97], [1, 2, 0]⟩, ⟨[98], [3]⟩] := by
  have parsed : netqParseGrpFile sampleFile = .ok [⟨[97], [1, 2, 0]⟩, ⟨[98], [3]⟩] := by rfl
  exact ⟨parsed, (groupFile_accepted_iff sampleFile_bounded).2 _ parsed⟩

end Tmpi.Netq
