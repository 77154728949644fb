import Tmpi.Coll.Objects
import Mathlib.Data.Finset.Fold
import Mathlib.Data.Finset.Card

/-! The life of one handle: what it holds while the threads go through the call that it
is for. -/

namespace Tmpi.Coll

/-! ## Elements -/

theorem rdcInt_max_toInt (a b : BitVec 32) : (rdcInt .max a b).toInt = max a.toInt b.toInt := by
  change (if b.sle a then a else b).toInt = _
  split
  next less => rw [max_eq_left (BitVec.sle_iff_toInt_le.mp less)]
  next more =>
    rw [BitVec.sle_iff_toInt_le, not_le] at more
    rw [max_eq_right more.le]

theorem rdcInt_min_toInt (a b : BitVec 32) : (rdcInt .min a b).toInt = min a.toInt b.toInt := by
  change (if a.sle b then a else b).toInt = _
  split
  next less => rw [min_eq_left (BitVec.sle_iff_toInt_le.mp less)]
  next more =>
    rw [BitVec.sle_iff_toInt_le, not_le] at more
    rw [min_eq_right more.le]

instance rdcInt_commutative (op : RdcOp) : Std.Commutative (rdcInt op) where
  comm a b := by
    cases op with
    | max => exact BitVec.eq_of_toInt_eq (by rw [rdcInt_max_toInt, rdcInt_max_toInt, max_comm])
    | min => exact BitVec.eq_of_toInt_eq (by rw [rdcInt_min_toInt, rdcInt_min_toInt, min_comm])
    | sum => exact BitVec.add_comm a b

instance rdcInt_associative (op : RdcOp) : Std.Associative (rdcInt op) where
  assoc a b c := by
    cases op with
    | max => exact BitVec.eq_of_toInt_eq (by simp only [rdcInt_max_toInt, max_assoc])
    | min => exact BitVec.eq_of_toInt_eq (by simp only [rdcInt_min_toInt, min_assoc])
    | sum => exact BitVec.add_assoc a b c

/-- What a reduction of no elements would be. -/
def neutral : RdcOp → BitVec 32
  | .max => .intMin 32
  | .min => .intMax 32
  | .sum => 0

theorem rdcInt_neutral (op : RdcOp) (a : BitVec 32) : rdcInt op a (neutral op) = a := by
  have least := BitVec.le_toInt a
  have most := BitVec.toInt_lt (x := a)
  cases op with
  | max =>
      apply BitVec.eq_of_toInt_eq
      have bottom : (neutral .max).toInt = -2^31 := by decide
      rw [rdcInt_max_toInt, bottom, max_eq_left (by simpa using least)]
  | min =>
      apply BitVec.eq_of_toInt_eq
      have top : (neutral .min).toInt = 2^31 - 1 := by decide
      rw [rdcInt_min_toInt, top, min_eq_left]
      simp at most
      omega
  | sum => exact BitVec.add_zero a

/-- An element of `simple_reduce` where the `cas32` has nothing to do. -/
theorem simpleReduce_break {op : RdcOp} {tmp1 tmp2 : BitVec 32}
    (breaks : rdcBreak op tmp1 tmp2 = true) : simpleReduce (some op) tmp1 tmp2 = tmp1 := by
  cases op with
  | max | min => exact if_pos breaks
  | sum => cases breaks

theorem simpleReduce_cas {op : RdcOp} {tmp1 tmp2 : BitVec 32} (other : op ≠ .sum)
    (goes : rdcBreak op tmp1 tmp2 = false) : simpleReduce (some op) tmp1 tmp2 = tmp2 := by
  cases op with
  | max | min => exact if_neg (Bool.eq_false_iff.mp goes)
  | sum => exact absurd rfl other

/-- The threads below `n` of a kind. -/
def threads (n : Nat) (kind : Nat → Bool) : Finset Nat := (Finset.range n).filter fun t => kind t

/-- The elements of some threads, combined in any order. -/
def combined (op : RdcOp) (who : Finset Nat) (value : Nat → BitVec 32) : BitVec 32 :=
  who.fold (rdcInt op) (neutral op) value

theorem combined_singleton (op : RdcOp) (t : Nat) (value : Nat → BitVec 32) :
    combined op {t} value = value t := by
  rw [combined, Finset.fold_singleton, rdcInt_neutral]

theorem combined_insert (op : RdcOp) {who : Finset Nat} {t : Nat} (fresh : t ∉ who)
    (value : Nat → BitVec 32) :
    combined op (insert t who) value = rdcInt op (combined op who value) (value t) := by
  rw [combined, Finset.fold_insert fresh, (rdcInt_commutative op).comm]
  rfl

/-- What a handle may have for an element when some threads have contributed theirs: without
an operator it is the one that came first. -/
def Totals : Option RdcOp → Finset Nat → (Nat → BitVec 32) → BitVec 32 → Prop
  | some op, who, value, x => x = combined op who value
  | none, who, value, x => ∃ u ∈ who, x = value u

theorem totals_singleton (op : Option RdcOp) (t : Nat) (value : Nat → BitVec 32) :
    Totals op {t} value (value t) := by
  cases op with
  | none => exact ⟨t, Finset.mem_singleton_self t, rfl⟩
  | some op => exact (combined_singleton op t value).symm

theorem Totals.insert {op : Option RdcOp} {who : Finset Nat} {value : Nat → BitVec 32}
    {x : BitVec 32} (total : Totals op who value x) {t : Nat} (fresh : t ∉ who) :
    Totals op (Insert.insert t who) value (simpleReduce op x (value t)) := by
  cases op with
  | none =>
      obtain ⟨u, member, same⟩ := total
      exact ⟨u, Finset.mem_insert_of_mem member, same⟩
  | some op =>
      have same : x = combined op who value := total
      rw [same]
      exact (combined_insert op fresh value).symm

theorem Totals.congr {op : Option RdcOp} {who : Finset Nat} {value value' : Nat → BitVec 32}
    {x : BitVec 32} (total : Totals op who value x) (same : ∀ u ∈ who, value' u = value u) :
    Totals op who value' x := by
  cases op with
  | none =>
      obtain ⟨u, member, here⟩ := total
      exact ⟨u, member, by rw [same u member, here]⟩
  | some op =>
      have here : x = combined op who value := total
      rw [here]
      exact Finset.fold_congr fun u member => (same u member).symm

/-! ## Stages -/

/-- How far a thread is with one call. -/
inductive Stage where
  | before
  | inside (pc : Pc)
  | after
  deriving DecidableEq

/-- Has been counted in `avail` of a reduce. -/
def Stage.arrived : Stage → Bool
  | .after | .inside (.gather ..) => true
  | _ => false

/-- Has its element `i` in the data of a reduce. -/
def Stage.contributed (i : Nat) : Stage → Bool
  | .after | .inside (.gather ..) | .inside (.bump _) => true
  | .inside (.combine _ j) => i < j
  | _ => false

/-- Has not looked behind `avail`. -/
def Stage.early : Stage → Bool
  | .before | .inside (.look _) | .inside (.claim ..) => true
  | _ => false

def Stage.waiting : Stage → Bool
  | .inside (.await _) => true
  | stage => stage.early

theorem Stage.early_waiting {stage : Stage} (early : stage.early = true) : stage.waiting = true := by
  cases stage with
  | before => rfl
  | after => cases early
  | inside pc => cases pc <;> first | rfl | cases early

theorem Stage.waiting_contributed {stage : Stage} (waiting : stage.waiting = true) (i : Nat) :
    stage.contributed i = false := by
  cases stage with
  | before => rfl
  | after => cases waiting
  | inside pc => cases pc <;> first | rfl | cases waiting

theorem Stage.waiting_arrived {stage : Stage} (waiting : stage.waiting = true) :
    stage.arrived = false := by
  cases stage with
  | before => rfl
  | after => cases waiting
  | inside pc => cases pc <;> first | rfl | cases waiting

/-- The threads and their buffers, as far as they concern one call. -/
structure Party where
  stage : Nat → Stage
  args : Nat → Buffers
  results : Nat → Option Buffers

namespace Party

variable (p : Party) (t : Nat)

def goto (pc : Pc) : Party := { p with stage := Function.update p.stage t (.inside pc) }

def enter (pc : Pc) (b : Buffers) : Party :=
  { p.goto t pc with args := Function.update p.args t b }

def leave (b : Buffers) : Party :=
  { p with
    stage := Function.update p.stage t .after
    results := Function.update p.results t (some b) }

variable {p t} {u : Nat}

@[simp] theorem goto_stage_self (pc : Pc) : (p.goto t pc).stage t = .inside pc :=
  Function.update_self ..

theorem goto_stage_ne (pc : Pc) (other : u ≠ t) : (p.goto t pc).stage u = p.stage u :=
  Function.update_of_ne other ..

@[simp] theorem leave_stage_self (b : Buffers) : (p.leave t b).stage t = .after :=
  Function.update_self ..

theorem leave_stage_ne (b : Buffers) (other : u ≠ t) : (p.leave t b).stage u = p.stage u :=
  Function.update_of_ne other ..

@[simp] theorem leave_results_self (b : Buffers) : (p.leave t b).results t = some b :=
  Function.update_self ..

theorem leave_results_ne (b : Buffers) (other : u ≠ t) :
    (p.leave t b).results u = p.results u :=
  Function.update_of_ne other ..

theorem enter_args_ne (pc : Pc) (b : Buffers) (other : u ≠ t) :
    (p.enter t pc b).args u = p.args u :=
  Function.update_of_ne other ..

end Party

section Counting

variable {n t : Nat} {kind kind' : Nat → Bool}

theorem threads_insert (inside : t < n) (others : ∀ u < n, u ≠ t → kind' u = kind u)
    (now : kind' t = true) : threads n kind' = insert t (threads n kind) := by
  ext u
  simp only [threads, Finset.mem_filter, Finset.mem_range, Finset.mem_insert]
  by_cases same : u = t
  · subst same
    simp [inside, now]
  · by_cases member : u < n
    · simp [same, member, others u member same]
    · simp [same, member]

theorem threads_congr (same : ∀ u < n, kind' u = kind u) : threads n kind' = threads n kind := by
  ext u
  simp only [threads, Finset.mem_filter, Finset.mem_range]
  constructor
  · exact fun ⟨inside, holds⟩ => ⟨inside, by rw [← same u inside]; exact holds⟩
  · exact fun ⟨inside, holds⟩ => ⟨inside, by rw [same u inside]; exact holds⟩

theorem threads_card_insert (inside : t < n) (others : ∀ u < n, u ≠ t → kind' u = kind u)
    (now : kind' t = true) (before : kind t = false) :
    (threads n kind').card = (threads n kind).card + 1 := by
  rw [threads_insert inside others now, Finset.card_insert_of_notMem]
  simp [threads, before]

theorem threads_all (full : (threads n kind).card = n) : ∀ u < n, kind u = true := by
  intro u inside
  have whole : threads n kind = Finset.range n :=
    Finset.eq_of_subset_of_card_le (Finset.filter_subset _ _) (by rw [Finset.card_range, full])
  have member : u ∈ threads n kind := by
    rw [whole]
    exact Finset.mem_range.mpr inside
  exact (Finset.mem_filter.mp member).2

theorem threads_empty (none : ∀ u < n, kind u = false) : threads n kind = ∅ := by
  refine Finset.filter_eq_empty_iff.mpr fun u member => ?_
  simp [none u (Finset.mem_range.mp member)]

end Counting

/-! ## A broadcast -/

/-- What a broadcast leaves with thread `t`. -/
def bcastResult (root len : Nat) (args : Nat → Buffers) (t : Nat) : Buffers :=
  if t = root then args t
  else { args t with data := memcpy (args t).data ((args root).data.take len) len }

/-- A thread that the root of a broadcast does not concern yet. -/
def Stage.outside (root t : Nat) : Stage → Prop
  | .before => True
  | .inside (.post _) => t = root
  | .inside (.await _) => t ≠ root
  | _ => False

/-- A handle of a broadcast before the root has posted. -/
structure Unposted (n root : Nat) (p : Party) (h : BCHandle) (next : Option Nat) : Prop where
  next : next = none
  avail : h.avail = 0
  stages : ∀ t < n, (p.stage t).outside root t

/-- A thread behind the root's post. -/
def Served (root len : Nat) (p : Party) (t : Nat) : Prop :=
  match p.stage t with
  | .before | .inside (.await _) => t ≠ root
  | .inside (.depart _ data) => t ≠ root ∧ { p.args t with data } = bcastResult root len p.args t
  | .after => p.results t = some (bcastResult root len p.args t)
  | _ => False

structure Posted (n root len : Nat) (p : Party) (h : BCHandle) (next : Option Nat) : Prop where
  next : next ≠ none
  avail : h.avail = (threads n fun t => p.stage t = .after).card
  root_lt : root < n
  gone : p.stage root = .after
  data : h.data = (p.args root).data.take len
  length : h.len = len
  served : ∀ t < n, Served root len p t

/-- What a handle holds that is for a broadcast. -/
inductive BcastCell (n root len : Nat) (p : Party) (h : BCHandle) (next : Option Nat) : Prop where
  | unposted : Unposted n root p h next → BcastCell n root len p h next
  | posted : Posted n root len p h next → BcastCell n root len p h next

namespace BcastCell

variable {n root len t item : Nat} {p : Party} {h : BCHandle} {next : Option Nat}

/-- A handle that is not in use yet. -/
theorem new (untouched : ∀ t < n, p.stage t = .before) (data : Buffer) (length : Nat) :
    BcastCell n root len p ⟨0, data, length⟩ none := by
  refine .unposted ⟨rfl, rfl, fun t inside => ?_⟩
  rw [untouched t inside]
  trivial

theorem enter (cell : BcastCell n root len p h next) (inside : t < n)
    (fresh : p.stage t = .before) (item : Nat) (b : Buffers) :
    BcastCell n root len (p.enter t (if t = root then .post item else .await item) b) h next := by
  have others : ∀ pc u, u ≠ t → (p.enter t pc b).stage u = p.stage u := fun pc u other =>
    Party.goto_stage_ne pc other
  cases cell with
  | unposted cell =>
      refine .unposted ⟨cell.next, cell.avail, fun u member => ?_⟩
      by_cases same : u = t
      · subst same
        by_cases atRoot : u = root <;>
          simp [Party.enter, Party.goto, atRoot, Stage.outside]
      · rw [others _ u same]
        exact cell.stages u member
  | posted cell =>
      have away : t ≠ root := by
        rintro rfl
        rw [cell.gone] at fresh
        cases fresh
      rw [if_neg away]
      have root_args : (p.enter t (.await item) b).args root = p.args root :=
        Party.enter_args_ne _ _ away.symm
      refine .posted ⟨cell.next, ?_, cell.root_lt, ?_, ?_, cell.length, fun u member => ?_⟩
      · rw [cell.avail, threads_congr]
        intro u _
        by_cases same : u = t
        · subst same
          simp [Party.enter, fresh]
        · rw [others _ u same]
      · rw [others _ root away.symm]
        exact cell.gone
      · rw [root_args]
        exact cell.data
      · by_cases same : u = t
        · subst same
          simpa [Served, Party.enter] using away
        · have args := Party.enter_args_ne (p := p) (Pc.await item) b same
          have served := cell.served u member
          simp only [Served, bcastResult, others _ u same, args, root_args] at served ⊢
          exact served

theorem ends (cell : BcastCell n root len p h next) (inside : t < n)
    (stage : p.stage t = .inside (.post item)) : next = none := by
  cases cell with
  | unposted cell => exact cell.next
  | posted cell =>
      have served := cell.served t inside
      simp only [Served, stage] at served

/-- The root posts its data. -/
theorem post (cell : BcastCell n root len p h next) (inside : t < n)
    (stage : p.stage t = .inside (.post item)) (newitem : Nat) : t = root ∧
    BcastCell n root len (p.leave t (p.args t)) ⟨1, (p.args t).data.take len, len⟩
      (some newitem) := by
  cases cell with
  | posted cell =>
      have served := cell.served t inside
      simp only [Served, stage] at served
  | unposted cell =>
      have atRoot : t = root := by simpa [Stage.outside, stage] using cell.stages t inside
      subst atRoot
      have waits : ∀ u < n, u ≠ t → Served t len (p.leave t (p.args t)) u := by
        intro u member other
        have outside := cell.stages u member
        simp only [Served, Party.leave_stage_ne _ other]
        cases at' : p.stage u with
        | before => exact other
        | after => simp [Stage.outside, at'] at outside
        | inside pc =>
            rw [at'] at outside
            cases pc <;> first | exact other | exact absurd outside other | exact outside.elim
      refine ⟨rfl, .posted ⟨by simp, ?_, inside, Party.leave_stage_self _, rfl, rfl, fun u member => ?_⟩⟩
      · have only : (threads n fun u => (p.leave t (p.args t)).stage u = .after) = {t} := by
          have others : ∀ u < n, u ≠ t →
              decide ((p.leave t (p.args t)).stage u = .after) = false := by
            intro u member other
            have outside := cell.stages u member
            rw [Party.leave_stage_ne _ other, decide_eq_false_iff_not]
            intro gone
            rw [gone] at outside
            exact outside
          rw [threads_insert inside others (by simp), threads_empty fun _ _ => rfl]
          rfl
        rw [only]
        rfl
      · by_cases same : u = t
        · subst same
          simp [Served, bcastResult]
          rfl
        · exact waits u member same

/-- A receiver copies what the root has posted. -/
theorem copy (cell : BcastCell n root len p h next) (inside : t < n)
    (stage : p.stage t = .inside (.await item)) (avail : h.avail ≠ 0) : next ≠ none ∧
    BcastCell n root len
      (p.goto t (.depart item (memcpy (p.args t).data h.data (min len h.len)))) h next := by
  cases cell with
  | unposted cell => exact absurd cell.avail avail
  | posted cell =>
      have away : t ≠ root := by simpa [Served, stage] using cell.served t inside
      refine ⟨cell.next, .posted ⟨cell.next, ?_, cell.root_lt, ?_, cell.data, cell.length,
        fun u member => ?_⟩⟩
      · rw [cell.avail, threads_congr]
        intro u _
        by_cases same : u = t
        · subst same
          simp [stage]
        · rw [Party.goto_stage_ne _ same]
      · rw [Party.goto_stage_ne _ away.symm]
        exact cell.gone
      · by_cases same : u = t
        · subst same
          simp [Served, away, bcastResult, cell.data, cell.length, Party.goto]
        · have served := cell.served u member
          simp only [Served, Party.goto_stage_ne _ same] at served ⊢
          exact served

/-- A receiver counts itself; the last one finds that all have left. -/
theorem depart (cell : BcastCell n root len p h next) (inside : t < n) {data : Buffer}
    (stage : p.stage t = .inside (.depart item data)) :
    BcastCell n root len (p.leave t { p.args t with data }) { h with avail := h.avail + 1 } next ∧
    (h.avail + 1 = n → ∀ u < n, (p.leave t { p.args t with data }).stage u = .after) := by
  cases cell with
  | unposted cell =>
      have outside := cell.stages t inside
      rw [stage] at outside
      exact outside.elim
  | posted cell =>
      obtain ⟨away, result⟩ : t ≠ root ∧ { p.args t with data } = bcastResult root len p.args t := by
        simpa [Served, stage] using cell.served t inside
      have count : (threads n fun u => (p.leave t { p.args t with data }).stage u = .after).card =
          h.avail + 1 := by
        rw [cell.avail]
        refine threads_card_insert inside (fun u _ other => ?_) (by simp) (by simp [stage])
        rw [Party.leave_stage_ne _ other]
      refine ⟨.posted ⟨cell.next, count.symm, cell.root_lt, ?_, cell.data, cell.length,
        fun u member => ?_⟩, fun full u member => ?_⟩
      · rw [Party.leave_stage_ne _ away.symm]
        exact cell.gone
      · by_cases same : u = t
        · subst same
          simpa [Served, Party.leave] using result
        · have served := cell.served u member
          simp only [Served, Party.leave_stage_ne _ same, Party.leave_results_ne _ same] at served ⊢
          exact served
      · rw [full] at count
        simpa using threads_all count u member

/-- A thread that has left has the root's data, and the root has left too. -/
theorem left (cell : BcastCell n root len p h next) (inside : t < n) (stage : p.stage t = .after) :
    p.results t = some (bcastResult root len p.args t) ∧ p.stage root = .after ∧ next ≠ none := by
  cases cell with
  | unposted cell =>
      have outside := cell.stages t inside
      rw [stage] at outside
      exact outside.elim
  | posted cell =>
      have served := cell.served t inside
      simp only [Served, stage] at served
      exact ⟨served, cell.gone, cell.next⟩

end BcastCell

theorem combined_zero (op : RdcOp) {n : Nat} (positive : 0 < n) :
    combined op (Finset.range n) (fun _ => 0) = 0 := by
  have zeros : rdcInt op 0 0 = 0 := by cases op <;> decide
  induction n with
  | zero => omega
  | succ n ih =>
      rcases Nat.eq_zero_or_pos n with rfl | more
      · exact combined_singleton op 0 _
      · rw [Finset.range_add_one, combined_insert op Finset.notMem_range_self, ih more, zeros]

/-! ## A reduce -/

/-- What a reduce may leave with thread `t`. -/
def Reduced (n root : Nat) (op : Option RdcOp) (count : Nat) (args : Nat → Buffers) (t : Nat)
    (b : Buffers) : Prop :=
  if t = root then
    ∃ total : Ints,
      (∀ i < count, Totals op (Finset.range n) (fun u => (args u).sendbuf i) (total i)) ∧
      b = { args t with recvbuf := copyInts (args t).recvbuf total count }
  else b = args t

structure Unclaimed (n : Nat) (p : Party) (h : RDCHandle) (next : Option Nat) : Prop where
  next : next = none
  avail : h.avail = -1
  stages : ∀ t < n, (p.stage t).early = true

structure Claimed (n : Nat) (p : Party) (h : RDCHandle) (next : Option Nat) : Prop where
  next : next = none
  avail : h.avail = 0
  first : ∃ f < n, (∃ item newitem, p.stage f = .inside (.publish item newitem)) ∧
    ∀ t < n, t ≠ f → (p.stage t).waiting = true

/-- A thread behind the first one's publication. -/
def Joined (n root : Nat) (op : Option RdcOp) (count : Nat) (p : Party) (t : Nat) : Prop :=
  match p.stage t with
  | .inside (.post _) | .inside (.depart ..) | .inside (.publish ..) | .inside .idle => False
  | .inside (.gather ..) => t = root
  | .after => ∃ b, p.results t = some b ∧ Reduced n root op count p.args t b
  | _ => True

structure Published (n root : Nat) (op : Option RdcOp) (count : Nat) (p : Party) (h : RDCHandle)
    (next : Option Nat) : Prop where
  next : next ≠ none
  avail : h.avail = (threads n fun t => (p.stage t).arrived).card
  begun : 0 < (threads n fun t => (p.stage t).arrived).card
  length : h.count = count
  data : ∀ i < count, Totals op (threads n fun t => (p.stage t).contributed i)
    (fun t => (p.args t).sendbuf i) (h.data i)
  joined : ∀ t < n, Joined n root op count p t
  finished : p.stage root = .after → root < n → ∀ t < n, p.stage t = .after

/-- What a handle holds that is for a reduce. -/
inductive ReduceCell (n root : Nat) (op : Option RdcOp) (count : Nat) (p : Party) (h : RDCHandle)
    (next : Option Nat) : Prop where
  | unclaimed : Unclaimed n p h next → ReduceCell n root op count p h next
  | claimed : Claimed n p h next → ReduceCell n root op count p h next
  | published : Published n root op count p h next → ReduceCell n root op count p h next

theorem Stage.arrived_contributed {stage : Stage} (arrived : stage.arrived = true) (i : Nat) :
    stage.contributed i = true := by
  cases stage with
  | before => cases arrived
  | after => rfl
  | inside pc => cases pc <;> first | rfl | cases arrived

theorem reduced_root {n root count : Nat} {op : Option RdcOp} {args : Nat → Buffers} {b : Buffers} :
    Reduced n root op count args root b ↔ ∃ total : Ints,
      (∀ i < count, Totals op (Finset.range n) (fun u => (args u).sendbuf i) (total i)) ∧
      b = { args root with recvbuf := copyInts (args root).recvbuf total count } := by
  rw [Reduced, if_pos rfl]

theorem reduced_ne {n root count t : Nat} {op : Option RdcOp} {args : Nat → Buffers} {b : Buffers}
    (away : t ≠ root) : Reduced n root op count args t b ↔ b = args t := by
  rw [Reduced, if_neg away]

namespace Published

variable {n root count t item : Nat} {op : Option RdcOp} {p p' : Party} {h h' : RDCHandle}
  {next : Option Nat}

/-- As long as some thread has not left, the root has not. -/
theorem root_stays (cell : Published n root op count p h next) (inside : t < n)
    (going : p.stage t ≠ .after) (low : root < n) : p.stage root ≠ .after := fun gone =>
  going (cell.finished gone low t inside)

/-- While some thread has not left, what the others have left with does not change. -/
theorem joined_ne (cell : Published n root op count p h next) (inside : t < n)
    (going : p.stage t ≠ .after) (stage : ∀ u, u ≠ t → p'.stage u = p.stage u)
    (args : ∀ u, u ≠ t → p'.args u = p.args u) (results : ∀ u, u ≠ t → p'.results u = p.results u)
    {u : Nat} (member : u < n) (other : u ≠ t) : Joined n root op count p' u := by
  have joined := cell.joined u member
  unfold Joined at joined ⊢
  rw [stage u other]
  cases at' : p.stage u with
  | before => trivial
  | inside pc =>
      rw [at'] at joined
      cases pc <;> exact joined
  | after =>
      have away : u ≠ root := by
        rintro rfl
        exact cell.root_stays inside going member at'
      simp only [at', reduced_ne away] at joined ⊢
      rw [results u other, args u other]
      exact joined

/-- A thread goes on without touching the handle. -/
theorem keep (cell : Published n root op count p h next) (inside : t < n) {pc : Pc}
    (others : ∀ u, u ≠ t → p'.stage u = p.stage u) (now : p'.stage t = .inside pc)
    (args : ∀ u, u ≠ t → p'.args u = p.args u) (results : ∀ u, u ≠ t → p'.results u = p.results u)
    (going : p.stage t ≠ .after) (own : p'.args t = p.args t ∨ p.stage t = .before)
    (arrived : (p'.stage t).arrived = (p.stage t).arrived)
    (contributed : ∀ i < count, (p'.stage t).contributed i = (p.stage t).contributed i)
    (joined : Joined n root op count p' t) : Published n root op count p' h next := by
  have same : (threads n fun u => (p'.stage u).arrived) = threads n fun u => (p.stage u).arrived := by
    refine threads_congr fun u _ => ?_
    by_cases self : u = t
    · rw [self, arrived]
    · rw [others u self]
  refine ⟨cell.next, by rw [same]; exact cell.avail, by rw [same]; exact cell.begun, cell.length,
    fun i below => ?_, fun u member => ?_, fun gone low => ?_⟩
  · have who : (threads n fun u => (p'.stage u).contributed i) =
        threads n fun u => (p.stage u).contributed i := by
      refine threads_congr fun u _ => ?_
      by_cases self : u = t
      · rw [self, contributed i below]
      · rw [others u self]
    rw [who]
    refine (cell.data i below).congr fun u member => ?_
    by_cases self : u = t
    · subst self
      rcases own with unchanged | fresh
      · rw [unchanged]
      · have given : (p.stage u).contributed i = true := (Finset.mem_filter.mp member).2
        rw [fresh] at given
        cases given
    · rw [args u self]
  · by_cases self : u = t
    · rw [self]
      exact joined
    · exact cell.joined_ne inside going others args results member self
  · have away : root ≠ t := by
      rintro rfl
      rw [now] at gone
      cases gone
    rw [others root away] at gone
    exact absurd gone (cell.root_stays inside going low)

/-- A thread goes to a stage in which it owes the handle nothing more. -/
theorem goto (cell : Published n root op count p h next) (inside : t < n) {pc : Pc}
    (going : p.stage t ≠ .after) (arrived : (Stage.inside pc).arrived = (p.stage t).arrived)
    (contributed : ∀ i < count, (Stage.inside pc).contributed i = (p.stage t).contributed i)
    (joined : Joined n root op count (p.goto t pc) t) :
    Published n root op count (p.goto t pc) h next := by
  have now : (p.goto t pc).stage t = .inside pc := Party.goto_stage_self pc
  refine cell.keep inside (fun u other => Party.goto_stage_ne pc other) now (fun _ _ => rfl)
    (fun _ _ => rfl) going (.inl rfl) ?_ (fun i below => ?_) joined
  · rw [now, arrived]
  · rw [now, contributed i below]

/-- One element of a thread's data joins the handle's. -/
theorem combine (cell : Published n root op count p h next) (inside : t < n) {i : Nat}
    (stage : p.stage t = .inside (.combine item i)) :
    Published n root op count (p.goto t (.combine item (i + 1)))
      { h with data := Function.update h.data i (simpleReduce op (h.data i) ((p.args t).sendbuf i)) }
      next := by
  have now : (p.goto t (.combine item (i + 1))).stage t = .inside (.combine item (i + 1)) :=
    Party.goto_stage_self _
  have others : ∀ u, u ≠ t → (p.goto t (.combine item (i + 1))).stage u = p.stage u :=
    fun u other => Party.goto_stage_ne _ other
  have going : p.stage t ≠ .after := by simp [stage]
  have same : (threads n fun u => ((p.goto t (.combine item (i + 1))).stage u).arrived) =
      threads n fun u => (p.stage u).arrived := by
    refine threads_congr fun u _ => ?_
    by_cases self : u = t
    · rw [self, now, stage]
      rfl
    · rw [others u self]
  refine ⟨cell.next, by rw [same]; exact cell.avail, by rw [same]; exact cell.begun, cell.length,
    fun j below => ?_, fun u member => ?_, fun gone low => ?_⟩
  · by_cases here : j = i
    · subst here
      have who : (threads n fun u => ((p.goto t (.combine item (j + 1))).stage u).contributed j) =
          insert t (threads n fun u => (p.stage u).contributed j) := by
        refine threads_insert inside (fun u _ other => by rw [others u other]) ?_
        rw [now]
        simp [Stage.contributed]
      have absent : t ∉ threads n fun u => (p.stage u).contributed j := by
        intro member
        have given : (p.stage t).contributed j = true := (Finset.mem_filter.mp member).2
        simp [stage, Stage.contributed] at given
      rw [who]
      simp only [Function.update_self]
      exact (cell.data j below).insert absent
    · have who : (threads n fun u => ((p.goto t (.combine item (i + 1))).stage u).contributed j) =
          threads n fun u => (p.stage u).contributed j := by
        refine threads_congr fun u _ => ?_
        by_cases self : u = t
        · rw [self, now, stage]
          simp only [Stage.contributed, decide_eq_decide]
          omega
        · rw [others u self]
      rw [who]
      simp only [Function.update_of_ne here]
      exact cell.data j below
  · by_cases self : u = t
    · subst self
      unfold Joined
      rw [now]
      trivial
    · exact cell.joined_ne inside going others (fun _ _ => rfl) (fun _ _ => rfl) member self
  · have away : root ≠ t := by
      rintro rfl
      rw [now] at gone
      cases gone
    rw [others root away] at gone
    exact absurd gone (cell.root_stays inside going low)

/-- A thread counts itself. -/
theorem bump (cell : Published n root op count p h next) (inside : t < n)
    (stage : p.stage t = .inside (.bump item)) (stage' : Stage)
    (others : ∀ u, u ≠ t → p'.stage u = p.stage u) (now : p'.stage t = stage')
    (args : p'.args = p.args) (results : ∀ u, u ≠ t → p'.results u = p.results u)
    (arrived : stage'.arrived = true) (away : stage' = .after → t ≠ root)
    (joined : Joined n root op count p' t) :
    Published n root op count p' { h with avail := h.avail + 1 } next := by
  have going : p.stage t ≠ .after := by simp [stage]
  have counted : (threads n fun u => (p'.stage u).arrived).card =
      (threads n fun u => (p.stage u).arrived).card + 1 := by
    refine threads_card_insert inside (fun u _ other => by rw [others u other]) ?_ ?_
    · rw [now, arrived]
    · rw [stage]
      rfl
  refine ⟨cell.next, ?_, by omega, cell.length, fun i below => ?_, fun u member => ?_,
    fun gone low => ?_⟩
  · rw [counted]
    simp only [cell.avail, Nat.cast_add, Nat.cast_one]
  · have who : (threads n fun u => (p'.stage u).contributed i) =
        threads n fun u => (p.stage u).contributed i := by
      refine threads_congr fun u _ => ?_
      by_cases self : u = t
      · rw [self, now, stage, Stage.arrived_contributed arrived]
        rfl
      · rw [others u self]
    rw [who, args]
    exact cell.data i below
  · by_cases self : u = t
    · rw [self]
      exact joined
    · exact cell.joined_ne inside going others (fun u _ => by rw [args]) results member self
  · by_cases self : root = t
    · subst self
      rw [now] at gone
      exact absurd rfl (away gone)
    · rw [others root self] at gone
      exact absurd gone (cell.root_stays inside going low)

/-- When all have counted themselves the root takes the result. -/
theorem gather (cell : Published n root op count p h next) (inside : t < n)
    {newitem : Option Nat} (stage : p.stage t = .inside (.gather item newitem))
    (full : h.avail = n) :
    Published n root op count (p.leave t { p.args t with
      recvbuf := copyInts (p.args t).recvbuf h.data (min count h.count) }) h next ∧
    ∀ u < n, (p.leave t { p.args t with
      recvbuf := copyInts (p.args t).recvbuf h.data (min count h.count) }).stage u = .after := by
  set b : Buffers := { p.args t with
    recvbuf := copyInts (p.args t).recvbuf h.data (min count h.count) } with buffers
  have now : (p.leave t b).stage t = .after := Party.leave_stage_self b
  have others : ∀ u, u ≠ t → (p.leave t b).stage u = p.stage u := fun u other =>
    Party.leave_stage_ne b other
  have atRoot : t = root := by
    have joined := cell.joined t inside
    unfold Joined at joined
    rw [stage] at joined
    exact joined
  have all : ∀ u < n, (p.stage u).arrived = true := by
    refine threads_all ?_
    have exact := cell.avail
    rw [full] at exact
    exact_mod_cast exact.symm
  have gone : ∀ u < n, (p.leave t b).stage u = .after := by
    intro u member
    by_cases self : u = t
    · rw [self, now]
    · rw [others u self]
      have arrived := all u member
      have joined := cell.joined u member
      unfold Joined at joined
      cases at' : p.stage u with
      | after => rfl
      | before =>
          rw [at'] at arrived
          cases arrived
      | inside pc =>
          rw [at'] at arrived joined
          cases pc with
          | gather _ _ =>
              have isRoot : u = root := joined
              exact absurd (isRoot.trans atRoot.symm) self
          | _ => cases arrived
  have everyone : ∀ kind : Stage → Bool, kind .after = true →
      (threads n fun u => kind ((p.leave t b).stage u)) = Finset.range n := by
    intro kind holds
    refine Finset.filter_eq_self.mpr fun u member => ?_
    change kind ((p.leave t b).stage u) = true
    rw [gone u (Finset.mem_range.mp member), holds]
  have before : ∀ i, (threads n fun u => (p.stage u).contributed i) = Finset.range n := by
    intro i
    refine Finset.filter_eq_self.mpr fun u member => ?_
    exact Stage.arrived_contributed (all u (Finset.mem_range.mp member)) i
  have result : Reduced n root op count p.args t b := by
    rw [Reduced, if_pos atRoot]
    refine ⟨h.data, fun i below => ?_, ?_⟩
    · rw [← before i]
      exact cell.data i below
    · rw [buffers, cell.length, Nat.min_self]
  refine ⟨⟨cell.next, ?_, ?_, cell.length, fun i below => ?_, fun u member => ?_,
    fun _ _ => gone⟩, gone⟩
  · rw [everyone Stage.arrived rfl, Finset.card_range, full]
  · rw [everyone Stage.arrived rfl, Finset.card_range]
    omega
  · rw [everyone (Stage.contributed i) rfl, ← before i]
    exact cell.data i below
  · by_cases self : u = t
    · subst self
      unfold Joined
      rw [now]
      exact ⟨b, Party.leave_results_self b, result⟩
    · have joined := cell.joined u member
      have away : u ≠ root := by rwa [← atRoot]
      have at' : p.stage u = .after := by
        rw [← others u self]
        exact gone u member
      unfold Joined at joined ⊢
      rw [at'] at joined
      rw [gone u member, Party.leave_results_ne b self]
      exact joined

/-- The first one's data is the handle's at first. -/
theorem first (inside : t < n) (waits : ∀ u < n, u ≠ t → (p.stage u).waiting = true)
    (others : ∀ u, u ≠ t → p'.stage u = p.stage u) (args : p'.args = p.args) {stage' : Stage}
    (now : p'.stage t = stage') (arrived : stage'.arrived = true)
    (away : stage' = .after → t ≠ root) (joined : Joined n root op count p' t) (newitem : Nat)
    {data : Ints} (copied : ∀ i < count, data i = (p.args t).sendbuf i) :
    Published n root op count p' ⟨1, data, count⟩ (some newitem) := by
  have only : ∀ kind : Stage → Bool, kind stage' = true →
      (∀ stage, stage.waiting = true → kind stage = false) →
      (threads n fun u => kind (p'.stage u)) = {t} := by
    intro kind own rest
    have absent : ∀ u < n, u ≠ t → kind (p'.stage u) = false := by
      intro u member other
      rw [others u other]
      exact rest _ (waits u member other)
    rw [threads_insert inside absent (by rw [now, own]), threads_empty fun _ _ => rfl]
    rfl
  refine ⟨by simp, ?_, ?_, rfl, fun i below => ?_, fun u member => ?_, fun gone low => ?_⟩
  · rw [only _ arrived fun _ => Stage.waiting_arrived]
    rfl
  · rw [only _ arrived fun _ => Stage.waiting_arrived]
    exact Nat.one_pos
  · have who := only (Stage.contributed i) (Stage.arrived_contributed arrived i)
      fun _ waiting => Stage.waiting_contributed waiting i
    rw [who, args]
    change Totals op {t} _ (data i)
    rw [copied i below]
    exact totals_singleton op t fun u => (p.args u).sendbuf i
  · by_cases self : u = t
    · rw [self]
      exact joined
    · have waiting := waits u member self
      unfold Joined
      rw [others u self]
      cases at' : p.stage u with
      | before => trivial
      | after =>
          rw [at'] at waiting
          cases waiting
      | inside pc =>
          rw [at'] at waiting
          cases pc <;> trivial
  · by_cases self : root = t
    · subst self
      rw [now] at gone
      exact absurd rfl (away gone)
    · rw [others root self] at gone
      have waiting := waits root low self
      rw [gone] at waiting
      cases waiting

end Published

namespace ReduceCell

variable {n root count t item newitem : Nat} {op : Option RdcOp} {p : Party} {h : RDCHandle}
  {next : Option Nat}

theorem new (untouched : ∀ t < n, p.stage t = .before) (data : Ints) (length : Nat) :
    ReduceCell n root op count p ⟨-1, data, length⟩ none := by
  refine .unclaimed ⟨rfl, rfl, fun t inside => ?_⟩
  rw [untouched t inside]
  rfl

/-- A thread that is past the look behind `avail` has found it published. -/
theorem published_of (cell : ReduceCell n root op count p h next) (inside : t < n)
    (past : (p.stage t).waiting = false)
    (second : ∀ item newitem, p.stage t ≠ .inside (.publish item newitem)) :
    Published n root op count p h next := by
  cases cell with
  | unclaimed cell =>
      have waiting := Stage.early_waiting (cell.stages t inside)
      rw [past] at waiting
      cases waiting
  | claimed cell =>
      obtain ⟨f, -, ⟨item, newitem, first⟩, rest⟩ := cell.first
      have other : t ≠ f := by
        rintro rfl
        exact second item newitem first
      have waiting := rest t inside other
      rw [past] at waiting
      cases waiting
  | published cell => exact cell

theorem enter (cell : ReduceCell n root op count p h next) (inside : t < n)
    (fresh : p.stage t = .before) (item : Nat) (b : Buffers) :
    ReduceCell n root op count (p.enter t (.look item) b) h next := by
  have now : (p.enter t (.look item) b).stage t = .inside (.look item) := Party.goto_stage_self _
  have others : ∀ u, u ≠ t → (p.enter t (.look item) b).stage u = p.stage u := fun u other =>
    Party.goto_stage_ne _ other
  cases cell with
  | unclaimed cell =>
      refine .unclaimed ⟨cell.next, cell.avail, fun u member => ?_⟩
      by_cases self : u = t
      · rw [self, now]
        rfl
      · rw [others u self]
        exact cell.stages u member
  | claimed cell =>
      obtain ⟨f, low, ⟨item', newitem, first⟩, rest⟩ := cell.first
      have apart : f ≠ t := by
        rintro rfl
        rw [fresh] at first
        cases first
      refine .claimed ⟨cell.next, cell.avail, f, low, ⟨item', newitem, ?_⟩, fun u member other => ?_⟩
      · rw [others f apart]
        exact first
      · by_cases self : u = t
        · rw [self, now]
          rfl
        · rw [others u self]
          exact rest u member other
  | published cell =>
      refine .published (cell.keep inside others now
        (fun u other => Party.enter_args_ne _ b other) (fun _ _ => rfl) (by simp [fresh])
        (.inr fresh) ?_ (fun i _ => ?_) ?_)
      · rw [now, fresh]
        rfl
      · rw [now, fresh]
        rfl
      · unfold Joined
        rw [now]
        trivial

/-- A thread finds the handle unclaimed. -/
theorem look (cell : ReduceCell n root op count p h next) (avail : h.avail = -1)
    (item newitem : Nat) :
    ReduceCell n root op count (p.goto t (.claim item newitem)) h next := by
  cases cell with
  | unclaimed cell =>
      refine .unclaimed ⟨cell.next, cell.avail, fun u member => ?_⟩
      by_cases self : u = t
      · rw [self, Party.goto_stage_self]
        rfl
      · rw [Party.goto_stage_ne _ self]
        exact cell.stages u member
  | claimed cell =>
      rw [cell.avail] at avail
      omega
  | published cell =>
      rw [cell.avail] at avail
      omega

/-- A thread finds the handle claimed. -/
theorem wait (cell : ReduceCell n root op count p h next) (inside : t < n) {pc : Pc}
    (stage : p.stage t = .inside pc) (early : (p.stage t).early = true) (avail : h.avail ≠ -1)
    (item : Nat) : ReduceCell n root op count (p.goto t (.await item)) h next := by
  cases cell with
  | unclaimed cell => exact absurd cell.avail avail
  | claimed cell =>
      obtain ⟨f, low, ⟨item', newitem, first⟩, rest⟩ := cell.first
      have apart : f ≠ t := by
        rintro rfl
        rw [first] at early
        cases early
      refine .claimed ⟨cell.next, cell.avail, f, low, ⟨item', newitem, ?_⟩, fun u member other => ?_⟩
      · rw [Party.goto_stage_ne _ apart]
        exact first
      · by_cases self : u = t
        · rw [self, Party.goto_stage_self]
          rfl
        · rw [Party.goto_stage_ne _ self]
          exact rest u member other
  | published cell =>
      have waiting := Stage.early_waiting early
      refine .published (cell.goto inside (by simp [stage]) ?_ (fun i _ => ?_) ?_)
      · rw [Stage.waiting_arrived waiting]
        rfl
      · rw [Stage.waiting_contributed waiting]
        rfl
      · unfold Joined
        rw [Party.goto_stage_self]
        trivial

/-- The thread whose `cas32` succeeds. -/
theorem claim (cell : ReduceCell n root op count p h next) (inside : t < n)
    (avail : h.avail = -1) (item newitem : Nat) :
    ReduceCell n root op count (p.goto t (.publish item newitem)) { h with avail := 0 } next := by
  cases cell with
  | unclaimed cell =>
      refine .claimed ⟨cell.next, rfl, t, inside, ⟨item, newitem, Party.goto_stage_self _⟩,
        fun u member other => ?_⟩
      rw [Party.goto_stage_ne _ other]
      exact Stage.early_waiting (cell.stages u member)
  | claimed cell =>
      rw [cell.avail] at avail
      omega
  | published cell =>
      rw [cell.avail] at avail
      omega

/-- The others wait while the first one publishes. -/
theorem claimed_of (cell : ReduceCell n root op count p h next) (inside : t < n)
    (stage : p.stage t = .inside (.publish item newitem)) :
    next = none ∧ ∀ u < n, u ≠ t → (p.stage u).waiting = true := by
  cases cell with
  | unclaimed cell =>
      have early := cell.stages t inside
      rw [stage] at early
      cases early
  | published cell =>
      have joined := cell.joined t inside
      unfold Joined at joined
      rw [stage] at joined
      exact joined.elim
  | claimed cell =>
      obtain ⟨f, -, -, rest⟩ := cell.first
      have first : t = f := by
        by_contra other
        have waiting := rest t inside other
        rw [stage] at waiting
        cases waiting
      rw [first]
      exact ⟨cell.next, rest⟩

theorem publish (cell : ReduceCell n root op count p h next) (inside : t < n)
    (stage : p.stage t = .inside (.publish item newitem)) :
    ReduceCell n root op count
      (if t = root then p.goto t (.gather item (some newitem)) else p.leave t (p.args t))
      ⟨1, (p.args t).firstData (t = root) count, count⟩ (some newitem) := by
  have waits := (cell.claimed_of inside stage).2
  have copied : ∀ i < count, (p.args t).firstData (t = root) count i = (p.args t).sendbuf i :=
    fun i below => Buffers.firstData_below _ _ below
  split
  next atRoot =>
    refine .published (Published.first inside waits (fun u other => Party.goto_stage_ne _ other) rfl
      (Party.goto_stage_self _) rfl (fun gone => by cases gone) ?_ newitem copied)
    unfold Joined
    rw [Party.goto_stage_self]
    exact atRoot
  next away =>
    refine .published (Published.first inside waits (fun u other => Party.leave_stage_ne _ other) rfl
      (Party.leave_stage_self _) rfl (fun _ => away) ?_ newitem copied)
    unfold Joined
    rw [Party.leave_stage_self]
    exact ⟨p.args t, Party.leave_results_self _, (reduced_ne away).mpr rfl⟩

/-- A later thread finds the data published. -/
theorem join (cell : ReduceCell n root op count p h next) (inside : t < n)
    (stage : p.stage t = .inside (.await item)) (avail : h.avail ≠ 0) :
    ReduceCell n root op count (p.goto t (.combine item 0)) h next := by
  cases cell with
  | unclaimed cell =>
      have early := cell.stages t inside
      rw [stage] at early
      cases early
  | claimed cell => exact absurd cell.avail avail
  | published cell =>
      refine .published (cell.goto inside (by simp [stage]) ?_ (fun i _ => ?_) ?_)
      · rw [stage]
        rfl
      · rw [stage]
        simp [Stage.contributed]
      · unfold Joined
        rw [Party.goto_stage_self]
        trivial

theorem combine (cell : ReduceCell n root op count p h next) (inside : t < n) {i : Nat}
    (stage : p.stage t = .inside (.combine item i)) :
    ReduceCell n root op count (p.goto t (.combine item (i + 1)))
      { h with data := Function.update h.data i (simpleReduce op (h.data i) ((p.args t).sendbuf i)) }
      next :=
  .published ((cell.published_of inside (by rw [stage]; rfl) (by simp [stage])).combine inside stage)

/-- A thread has combined all its elements. -/
theorem combined (cell : ReduceCell n root op count p h next) (inside : t < n) {i : Nat}
    (stage : p.stage t = .inside (.combine item i)) (done : ¬i < min count h.count) :
    next ≠ none ∧ ReduceCell n root op count (p.goto t (.bump item)) h next := by
  have cell := cell.published_of inside (by rw [stage]; rfl) (by simp [stage])
  have all : count ≤ i := by
    rw [cell.length, Nat.min_self] at done
    omega
  refine ⟨cell.next, .published (cell.goto inside (by simp [stage]) ?_ (fun j below => ?_) ?_)⟩
  · rw [stage]
    rfl
  · rw [stage]
    simp only [Stage.contributed]
    exact (decide_eq_true (lt_of_lt_of_le below all)).symm
  · unfold Joined
    rw [Party.goto_stage_self]
    trivial

theorem bump (cell : ReduceCell n root op count p h next) (inside : t < n)
    (stage : p.stage t = .inside (.bump item)) :
    ReduceCell n root op count
      (if t = root then p.goto t (.gather item none) else p.leave t (p.args t))
      { h with avail := h.avail + 1 } next := by
  have cell := cell.published_of inside (by rw [stage]; rfl) (by simp [stage])
  split
  next atRoot =>
    refine .published (cell.bump inside stage _ (fun u other => Party.goto_stage_ne _ other)
      (Party.goto_stage_self _) rfl (fun _ _ => rfl) rfl (fun gone => by cases gone) ?_)
    unfold Joined
    rw [Party.goto_stage_self]
    exact atRoot
  next away =>
    refine .published (cell.bump inside stage _ (fun u other => Party.leave_stage_ne _ other)
      (Party.leave_stage_self _) rfl (fun u other => Party.leave_results_ne _ other) rfl
      (fun _ => away) ?_)
    unfold Joined
    rw [Party.leave_stage_self]
    exact ⟨p.args t, Party.leave_results_self _, (reduced_ne away).mpr rfl⟩

theorem gather (cell : ReduceCell n root op count p h next) (inside : t < n)
    {newitem : Option Nat} (stage : p.stage t = .inside (.gather item newitem))
    (full : h.avail = n) :
    next ≠ none ∧ ReduceCell n root op count (p.leave t { p.args t with
      recvbuf := copyInts (p.args t).recvbuf h.data (min count h.count) }) h next ∧
    ∀ u < n, (p.leave t { p.args t with
      recvbuf := copyInts (p.args t).recvbuf h.data (min count h.count) }).stage u = .after := by
  have cell := cell.published_of inside (by rw [stage]; rfl) (by simp [stage])
  have taken := cell.gather inside stage full
  exact ⟨cell.next, .published taken.1, taken.2⟩

/-- A thread that has left has what the reduce is to leave with it; the root leaves last. -/
theorem left (cell : ReduceCell n root op count p h next) (inside : t < n)
    (stage : p.stage t = .after) :
    (∃ b, p.results t = some b ∧ Reduced n root op count p.args t b) ∧ next ≠ none ∧ (t = root → ∀ u < n, p.stage u = .after) := by
  have cell := cell.published_of inside (by rw [stage]; rfl) (by simp [stage])
  have joined := cell.joined t inside
  unfold Joined at joined
  rw [stage] at joined
  refine ⟨joined, cell.next, fun atRoot => ?_⟩
  subst atRoot
  exact cell.finished stage inside

end ReduceCell

end Tmpi.Coll
