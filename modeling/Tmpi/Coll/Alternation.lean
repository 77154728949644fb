import Tmpi.Coll.Allreduce

/-! The two sub-objects of an allreduce take turns: no two calls use one of them at a time. -/

namespace Tmpi.Coll

namespace AllreduceObj

local instance : NeZero 2 := ⟨two_ne_zero⟩

/-- The sub-object of a call. -/
def subOf (k : Nat) : Fin 2 := if k % 2 = 0 then 0 else 1

theorem subOf_succ (k : Nat) : subOf (k + 1) = otherSub (subOf k) := by
  rw [subOf, subOf, otherSub]
  cases Nat.mod_two_eq_zero_or_one k with
  | inl even =>
      have odd : ¬ (k + 1) % 2 = 0 := by omega
      rw [if_neg odd, if_pos even, if_pos rfl]
  | inr odd =>
      have even : (k + 1) % 2 = 0 := by omega
      have nonzero : ¬ k % 2 = 0 := by omega
      rw [if_pos even, if_neg nonzero, if_neg (by decide)]

theorem subOf_succ_ne (k : Nat) : subOf (k + 1) ≠ subOf k := by
  rw [subOf_succ, otherSub]
  split
  · next zero =>
      rw [zero]
      decide
  · next one => exact Ne.symm one

theorem subOf_add_two (k : Nat) : subOf (k + 2) = subOf k := by
  rw [subOf, subOf, Nat.add_mod_right]

section Stages

variable (n : Nat) (calls : List AllreduceCall) (s : AllreduceObj)

/-- Where thread `t` is in call `k`. -/
def stage (k t : Nat) : CallStage :=
  if s.call t < k then .inside .idle else if s.call t = k then .inside (s.pc t) else .past

def callAt (k : Nat) : AllreduceCall := calls[k]?.getD ⟨.sum, 0⟩

/-- What call `k` leaves with thread `t`. -/
def allreduced (k t : Nat) : Buffers :=
  { s.args k t with
    recvbuf := copyInts (s.args k t).recvbuf
      (fun i => combined (callAt calls k).op (Finset.range n) fun u => (s.args k u).sendbuf i)
      (callAt calls k).count }

/-- The use of the sub-object in call `k`. -/
def Uses (k : Nat) : Prop :=
  (s.sub (subOf k)).Use n (callAt calls k) (s.args k) (s.stage k) (s.resets k)

/-- The threads are in call `k`, but for some that have yet to leave the one before. -/
structure Inv (k : Nat) : Prop where
  call : ∀ t < n, s.call t = k ∨ s.call t + 1 = k
  late : ∀ t < n, s.call t + 1 = k → (CallStage.inside (s.pc t)).arrived = true
  subp : s.subp = subOf k
  subs : ∀ t < n, ∀ j, (s.pc t).sub = some j → j = subOf (s.call t)
  current : s.Uses n calls k
  previous : ∀ j, j + 1 = k → s.Uses n calls j
  spare : k = 0 → (s.sub (subOf 1)).avail = -1 ∧ (s.sub (subOf 1)).done = 0
  past : ∀ j, j + 1 < k → s.resets j = 1
  future : ∀ j, k < j → s.resets j = 0
  results : ∀ t < n, ∀ j < s.call t, s.results j t = some (s.allreduced n calls j t)
  copies : ∀ t < n, ∀ b, (s.pc t).result = some b → b = s.allreduced n calls (s.call t) t
  reads : ∀ t < n, ∀ j i tmp1, s.pc t = .cas j i tmp1 → i < (callAt calls (s.call t)).count ∧
    (callAt calls (s.call t)).op ≠ .sum ∧
    rdcBreak (callAt calls (s.call t)).op tmp1 ((s.args (s.call t) t).sendbuf i) = false

end Stages

section Moves

variable {n k t : Nat} {calls : List AllreduceCall} {s s' : AllreduceObj} {b : Buffers} {c : AllreduceCall}

theorem stage_here : s.stage (s.call t) t = .inside (s.pc t) := by
  rw [stage, if_neg (lt_irrefl _), if_pos rfl]

theorem stage_past (past : k < s.call t) : s.stage k t = .past := by
  rw [stage, if_neg (by omega), if_neg (by omega)]

theorem callAt_eq (call : calls[k]? = some c) : callAt calls k = c := by
  rw [callAt, call, Option.getD_some]

/-- A thread goes on inside its call. -/
def moved (s : AllreduceObj) (t : Nat) (p : AllreducePc) (sub : Sub) (resets : Nat) : AllreduceObj :=
  { s with
    sub := Function.update s.sub (subOf (s.call t)) sub
    pc := Function.update s.pc t p
    resets := Function.update s.resets (s.call t) resets }

variable {p : AllreducePc} {sub : Sub} {resets : Nat}

theorem stage_moved : (s.moved t p sub resets).stage (s.call t) =
    Function.update (s.stage (s.call t)) t (.inside p) := by
  funext u
  by_cases same : u = t
  · subst same
    rw [Function.update_self]
    have here := stage_here (s := s.moved u p sub resets) (t := u)
    simpa [moved] using here
  · rw [Function.update_of_ne same, stage, stage]
    simp [moved, Function.update_of_ne same]

theorem stage_moved_ne (other : k ≠ s.call t) : (s.moved t p sub resets).stage k = s.stage k := by
  funext u
  rw [stage, stage]
  by_cases same : u = t
  · subst same
    simp [moved, Ne.symm other]
  · simp [moved, Function.update_of_ne same]

theorem uses_moved : (s.moved t p sub resets).Uses n calls (s.call t) ↔
    sub.Use n (callAt calls (s.call t)) (s.args (s.call t))
      (Function.update (s.stage (s.call t)) t (.inside p)) resets := by
  rw [Uses, stage_moved]
  simp [moved]

theorem uses_moved_ne (other : k ≠ s.call t) (apart : subOf k ≠ subOf (s.call t)) :
    (s.moved t p sub resets).Uses n calls k ↔ s.Uses n calls k := by
  rw [Uses, Uses, stage_moved_ne other]
  simp [moved, Function.update_of_ne other, Function.update_of_ne apart]

theorem Inv.moved (inv : s.Inv n calls k) (inside : t < n) (sub_p : p.sub = some (subOf (s.call t)))
    (use : sub.Use n (callAt calls (s.call t)) (s.args (s.call t))
      (Function.update (s.stage (s.call t)) t (.inside p)) resets)
    (arrived : (CallStage.inside (s.pc t)).arrived = true → (CallStage.inside p).arrived = true)
    (result : ∀ b, p.result = some b → b = s.allreduced n calls (s.call t) t)
    (read : ∀ j i tmp1, p = .cas j i tmp1 → i < (callAt calls (s.call t)).count ∧
      (callAt calls (s.call t)).op ≠ .sum ∧
      rdcBreak (callAt calls (s.call t)).op tmp1 ((s.args (s.call t) t).sendbuf i) = false) :
    (s.moved t p sub resets).Inv n calls k where
  call := inv.call
  late u low before := by
    by_cases same : u = t
    · subst same
      have here := arrived (inv.late u low before)
      simpa [AllreduceObj.moved] using here
    · have here := inv.late u low before
      simpa [AllreduceObj.moved, Function.update_of_ne same] using here
  subp := inv.subp
  subs u low j has := by
    by_cases same : u = t
    · subst same
      have here : p.sub = some j := by simpa [AllreduceObj.moved] using has
      exact Option.some.inj (here.symm.trans sub_p)
    · exact inv.subs u low j (by simpa [AllreduceObj.moved, Function.update_of_ne same] using has)
  current := by
    by_cases same : k = s.call t
    · rw [same]
      exact uses_moved.mpr use
    · have before := (inv.call t inside).resolve_left (Ne.symm same)
      refine (uses_moved_ne same ?_).mpr inv.current
      rw [← before]
      exact subOf_succ_ne _
  previous j before := by
    by_cases same : j = s.call t
    · rw [same]
      exact uses_moved.mpr use
    · have here : s.call t = j + 1 := by
        have := inv.call t inside
        omega
      refine (uses_moved_ne same ?_).mpr (inv.previous j before)
      rw [here]
      exact (subOf_succ_ne j).symm
  spare zero := by
    have here : s.call t = 0 := by
      have := inv.call t inside
      omega
    have apart : subOf 1 ≠ subOf (s.call t) := by
      rw [here]
      decide
    have spare := inv.spare zero
    simpa [AllreduceObj.moved, Function.update_of_ne apart] using spare
  past j before := by
    have other : j ≠ s.call t := by
      have := inv.call t inside
      omega
    have same := inv.past j before
    simpa [AllreduceObj.moved, Function.update_of_ne other] using same
  future j after := by
    have other : j ≠ s.call t := by
      have := inv.call t inside
      omega
    have same := inv.future j after
    simpa [AllreduceObj.moved, Function.update_of_ne other] using same
  results := inv.results
  copies u low b has := by
    by_cases same : u = t
    · subst same
      exact result b (by simpa [AllreduceObj.moved] using has)
    · exact inv.copies u low b (by simpa [AllreduceObj.moved, Function.update_of_ne same] using has)
  reads u low j i tmp1 at' := by
    by_cases same : u = t
    · subst same
      exact read j i tmp1 (by simpa [AllreduceObj.moved] using at')
    · exact inv.reads u low j i tmp1 (by simpa [AllreduceObj.moved, Function.update_of_ne same] using at')

/-- The use of the sub-object that a thread is at. -/
theorem Inv.uses (inv : s.Inv n calls k) (inside : t < n) : s.Uses n calls (s.call t) := by
  cases inv.call t inside with
  | inl now => exact now ▸ inv.current
  | inr before => exact inv.previous _ before

/-- A thread that has not been counted in `avail` is in the last call that has begun. -/
theorem Inv.call_eq (inv : s.Inv n calls k) (inside : t < n)
    (open' : (CallStage.inside (s.pc t)).arrived = false) : s.call t = k := by
  refine (inv.call t inside).resolve_right fun before => ?_
  rw [inv.late t inside before] at open'
  cases open'

theorem Inv.create : create.Inv n calls 0 where
  call _ _ := .inl rfl
  late _ _ before := absurd before (Nat.succ_ne_zero _)
  subp := rfl
  subs _ _ := nofun
  current := .fresh ⟨rfl, rfl, fun _ _ => rfl⟩
  previous j before := absurd before (Nat.succ_ne_zero j)
  spare _ := ⟨rfl, rfl⟩
  past _ before := absurd before (Nat.not_lt_zero _)
  future _ _ := rfl
  results _ _ j before := absurd before (Nat.not_lt_zero j)
  copies _ _ _ := nofun
  reads _ _ _ _ _ := nofun

theorem args_pass_ne {u : Nat} (other : ¬ (k = s.call t ∧ u = t)) : (s.pass t b).args k u = s.args k u := by
  rw [pass]
  by_cases here : k = s.call t
  · have ne : u ≠ t := fun same => other ⟨here, same⟩
    simp [here, Function.update_of_ne ne]
  · simp [Function.update_of_ne here]

theorem args_pass_call (other : k ≠ s.call t) : (s.pass t b).args k = s.args k :=
  Function.update_of_ne other _ _

/-- A thread has its arguments. -/
theorem Inv.pass (inv : s.Inv n calls k) (inside : t < n) (idle : s.pc t = .idle) :
    (s.pass t b).Inv n calls k := by
  have now : s.call t = k := inv.call_eq inside (by rw [idle]; rfl)
  have waits : (s.stage k t).waiting = true := by
    rw [← now, stage_here, idle]
    rfl
  refine { inv with current := ?_, previous := ?_, results := ?_, copies := ?_, reads := ?_ }
  · refine inv.current.pass fun u low ready => args_pass_ne fun both => ?_
    rw [both.2, waits] at ready
    cases ready
  · intro j before
    have other : j ≠ s.call t := by omega
    have use := inv.previous j before
    rw [Uses] at use ⊢
    rw [args_pass_call other]
    exact use
  · intro u low j before
    have other : j ≠ s.call t := by
      have := inv.call u low
      have here : j < s.call u := before
      omega
    rw [allreduced, args_pass_call other]
    exact inv.results u low j before
  · intro u low b' has
    have other : s.call u ≠ s.call t := by
      intro same
      have finished : (s.stage k u).finished = true := by
        rw [← now, ← same, stage_here]
        exact Option.isSome_iff_exists.mpr ⟨b', has⟩
      have arrived := inv.current.whole low finished t inside
      rw [CallStage.waiting_arrived waits] at arrived
      cases arrived
    have equal : (s.pass t b).allreduced n calls (s.call u) u = s.allreduced n calls (s.call u) u := by
      rw [allreduced, allreduced, args_pass_call other]
    exact (inv.copies u low b' has).trans equal.symm
  · intro u low j i tmp1 at'
    have ne : u ≠ t := by
      rintro rfl
      have reads : s.pc u = .cas j i tmp1 := at'
      rw [idle] at reads
      cases reads
    have same : (s.pass t b).args (s.call u) u = s.args (s.call u) u := args_pass_ne fun both => ne both.2
    have reads := inv.reads u low j i tmp1 at'
    rw [← same] at reads
    exact reads

/-- Leave a call. -/
theorem stage_leave : (s.leave t b).stage (s.call t) = Function.update (s.stage (s.call t)) t .past := by
  funext u
  by_cases same : u = t
  · subst same
    rw [Function.update_self, stage]
    simp [leave]
  · rw [Function.update_of_ne same, stage, stage]
    simp [leave, Function.update_of_ne same]

theorem stage_leave_ne (other : k ≠ s.call t) : (s.leave t b).stage k = s.stage k := by
  funext u
  rw [stage, stage]
  by_cases same : u = t
  · subst same
    simp only [leave, Function.update_self]
    by_cases before : s.call u + 1 < k
    · rw [if_pos before, if_pos (by omega)]
    · by_cases now : s.call u + 1 = k
      · rw [if_neg before, if_pos now, if_pos (by omega)]
      · rw [if_neg before, if_neg now, if_neg (by omega), if_neg (by omega)]
  · simp [leave, Function.update_of_ne same]

theorem uses_leave (inside : t < n) (use : s.Uses n calls (s.call t))
    (closed : (CallStage.inside (s.pc t)).closed = true) : (s.leave t b).Uses n calls (s.call t) := by
  rw [Uses, stage_leave]
  exact Sub.Use.away use inside (by rw [stage_here]; exact closed) rfl

theorem uses_leave_ne (other : k ≠ s.call t) (use : s.Uses n calls k) : (s.leave t b).Uses n calls k := by
  rw [Uses, stage_leave_ne other]
  exact use

theorem leave_call_ne {u : Nat} (ne : u ≠ t) : (s.leave t b).call u = s.call u :=
  Function.update_of_ne ne _ _

theorem leave_pc_ne {u : Nat} (ne : u ≠ t) : (s.leave t b).pc u = s.pc u :=
  Function.update_of_ne ne _ _

theorem leave_call : (s.leave t b).call t = s.call t + 1 := Function.update_self _ _ _

theorem leave_pc : (s.leave t b).pc t = .idle := Function.update_self _ _ _

theorem leave_results {u j : Nat} (other : ¬ (j = s.call t ∧ u = t)) :
    (s.leave t b).results j u = s.results j u := by
  rw [leave]
  by_cases here : j = s.call t
  · have ne : u ≠ t := fun same => other ⟨here, same⟩
    simp [here, Function.update_of_ne ne]
  · simp [Function.update_of_ne here]

theorem leave_result : (s.leave t b).results (s.call t) t = some b := by simp [leave]

/-- What a thread that returns has left behind. -/
theorem Inv.leave_results (inv : s.Inv n calls k) (result : (s.pc t).result = some b) (inside : t < n) :
    ∀ u < n, ∀ j < (s.leave t b).call u,
      (s.leave t b).results j u = some ((s.leave t b).allreduced n calls j u) := by
  intro u low j before
  have same : (s.leave t b).allreduced n calls j u = s.allreduced n calls j u := rfl
  rw [same]
  by_cases here : j = s.call t ∧ u = t
  · rw [here.1, here.2, leave_result, ← inv.copies t inside b result]
  · rw [AllreduceObj.leave_results here]
    refine inv.results u low j ?_
    by_cases self : u = t
    · subst self
      rw [leave_call] at before
      have ne : j ≠ s.call u := fun equal => here ⟨equal, rfl⟩
      omega
    · rwa [leave_call_ne self] at before

/-- A thread leaves the last call but one. -/
theorem Inv.follow (inv : s.Inv n calls k) (inside : t < n) (before : s.call t + 1 = k)
    (closed : (CallStage.inside (s.pc t)).closed = true) (result : (s.pc t).result = some b) :
    (s.leave t b).Inv n calls k := by
  refine ⟨?_, ?_, inv.subp, ?_, ?_, ?_, inv.spare, inv.past, inv.future, inv.leave_results result inside, ?_, ?_⟩
  · intro u low
    by_cases same : u = t
    · rw [same, leave_call]
      exact .inl before
    · rw [leave_call_ne same]
      exact inv.call u low
  · intro u low behind
    by_cases same : u = t
    · rw [same, leave_call] at behind
      omega
    · rw [leave_call_ne same] at behind
      rw [leave_pc_ne same]
      exact inv.late u low behind
  · intro u low j has
    by_cases same : u = t
    · rw [same, leave_pc] at has
      cases has
    · rw [leave_pc_ne same] at has
      rw [leave_call_ne same]
      exact inv.subs u low j has
  · exact uses_leave_ne (by omega) inv.current
  · intro j next
    have here : j = s.call t := by omega
    rw [here]
    exact uses_leave inside (here ▸ inv.previous j next) closed
  · intro u low b' has
    by_cases same : u = t
    · rw [same, leave_pc] at has
      cases has
    · rw [leave_pc_ne same] at has
      rw [leave_call_ne same]
      exact inv.copies u low b' has
  · intro u low j i tmp1 at'
    by_cases same : u = t
    · rw [same, leave_pc] at at'
      cases at'
    · rw [leave_pc_ne same] at at'
      rw [leave_call_ne same]
      exact inv.reads u low j i tmp1 at'

/-- When a thread is at the end of a call, all have begun it. -/
theorem Inv.all_arrived (inv : s.Inv n calls k) (inside : t < n)
    (closed : (CallStage.inside (s.pc t)).closed = true) :
    ∀ u < n, (s.stage (s.call t) u).arrived = true := by
  apply (inv.uses inside).whole inside
  rw [stage_here]
  exact CallStage.copied_finished (CallStage.closed_copied closed)

/-- The first thread leaves the last call that has begun, and the next one begins. -/
theorem Inv.lead (inv : s.Inv n calls k) (inside : t < n) (now : s.call t = k)
    (closed : (CallStage.inside (s.pc t)).closed = true) (result : (s.pc t).result = some b) :
    ({ s with subp := otherSub (subOf k) }.leave t b).Inv n calls (k + 1) := by
  have arrived := inv.all_arrived inside closed
  have together : ∀ u < n, s.call u = k := by
    intro u low
    have here := arrived u low
    rw [now, stage] at here
    by_cases before : s.call u < k
    · rw [if_pos before] at here
      cases here
    · have := inv.call u low
      omega
  have free : (s.sub (subOf (k + 1))).avail = -1 ∧ (s.sub (subOf (k + 1))).done = 0 ∧
      ∀ j, j + 1 = k → s.resets j = 1 := by
    cases k with
    | zero => exact ⟨(inv.spare rfl).1, (inv.spare rfl).2, fun j before => absurd before (Nat.succ_ne_zero j)⟩
    | succ j =>
        have gone : ∀ u < n, s.stage j u = .past := fun u low => stage_past (by rw [together u low]; omega)
        obtain ⟨ended, once⟩ := (inv.previous j rfl).closed_of_past inside gone
        rw [subOf_add_two]
        refine ⟨ended.avail, ended.done, fun i before => ?_⟩
        rwa [Nat.succ.inj before]
  refine ⟨?_, ?_, (subOf_succ k).symm, ?_, ?_, ?_, nofun, ?_, ?_, inv.leave_results result inside, ?_, ?_⟩
  · intro u low
    by_cases same : u = t
    · rw [same, leave_call]
      exact .inl (congrArg Nat.succ now)
    · rw [leave_call_ne same]
      exact .inr (congrArg Nat.succ (together u low))
  · intro u low behind
    by_cases same : u = t
    · rw [same, leave_call] at behind
      have : s.call t + 1 + 1 = k + 1 := behind
      omega
    · rw [leave_pc_ne same]
      have here := arrived u low
      rwa [now, ← together u low, stage_here] at here
  · intro u low j has
    by_cases same : u = t
    · rw [same, leave_pc] at has
      cases has
    · rw [leave_pc_ne same] at has
      rw [leave_call_ne same]
      exact inv.subs u low j has
  · have early : ∀ u < n, ({ s with subp := otherSub (subOf k) }.leave t b).stage (k + 1) u = .inside .idle := by
      intro u low
      rw [stage]
      by_cases same : u = t
      · rw [same, leave_call, leave_pc]
        have here : ¬ s.call t + 1 < k + 1 := by omega
        rw [if_neg here, if_pos (congrArg Nat.succ now)]
      · rw [leave_call_ne same, if_pos (show s.call u < k + 1 by rw [together u low]; exact Nat.lt_succ_self k)]
    have unset : ({ s with subp := otherSub (subOf k) }.leave t b).resets (k + 1) = 0 :=
      inv.future (k + 1) (Nat.lt_succ_self k)
    rw [Uses, unset]
    refine .fresh ⟨free.1, free.2.1, fun u low => ?_⟩
    rw [early u low]
    rfl
  · intro j next
    obtain rfl : j = k := Nat.succ.inj next
    have use : ({ s with subp := otherSub (subOf j) }.leave t b).Uses n calls (s.call t) :=
      uses_leave (s := { s with subp := otherSub (subOf j) }) inside (now.symm ▸ inv.current) closed
    rwa [now] at use
  · intro j before
    by_cases next : j + 1 = k
    · exact free.2.2 j next
    · exact inv.past j (by omega)
  · intro j after
    exact inv.future j (by omega)
  · intro u low b' has
    by_cases same : u = t
    · rw [same, leave_pc] at has
      cases has
    · rw [leave_pc_ne same] at has
      rw [leave_call_ne same]
      exact inv.copies u low b' has
  · intro u low j i tmp1 at'
    by_cases same : u = t
    · rw [same, leave_pc] at at'
      cases at'
    · rw [leave_pc_ne same] at at'
      rw [leave_call_ne same]
      exact inv.reads u low j i tmp1 at'

theorem goto_eq : s.goto t p = s.moved t p (s.sub (subOf (s.call t))) (s.resets (s.call t)) := by
  simp [goto, AllreduceObj.moved]

theorem setSub_goto_eq :
    (s.setSub (subOf (s.call t)) sub).goto t p = s.moved t p sub (s.resets (s.call t)) := by
  simp [goto, setSub, AllreduceObj.moved]

/-- The sub-object that a thread is at, with what holds of its use. -/
theorem Inv.at (inv : s.Inv n calls k) (inside : t < n) (call : calls[s.call t]? = some c) :
    (s.sub (subOf (s.call t))).Use n c (s.args (s.call t)) (s.stage (s.call t)) (s.resets (s.call t)) := by
  have use := inv.uses inside
  rwa [Uses, callAt_eq call] at use

theorem allreduced_eq (call : calls[k]? = some c) : s.allreduced n calls k t =
    { s.args k t with
      recvbuf := copyInts (s.args k t).recvbuf
        (fun i => combined c.op (Finset.range n) fun u => (s.args k u).sendbuf i) c.count } := by
  rw [allreduced, callAt_eq call]

/-- A step of a thread that has yet to see data. -/
theorem Inv.begin (inv : s.Inv n calls k) (inside : t < n) (call : calls[s.call t]? = some c)
    (small : c.Small) {j : Fin 2} (at' : s.pc t = .look j ∨ s.pc t = .claim j ∨ s.pc t = .publish j)
    (taken : s.tmpiArdcoAllreduce n t c = some s') : s'.Inv n calls k := by
  have use := inv.at inside call
  have waits : s.pc t ≠ .publish j → (s.stage (s.call t) t).waiting = true := by
    intro early
    rw [stage_here]
    rcases at' with here | here | here
    · rw [here]
      rfl
    · rw [here]
      rfl
    · exact absurd here early
  have low : j = subOf (s.call t) := inv.subs t inside j (by rcases at' with here | here | here <;> rw [here] <;> rfl)
  subst low
  -- Goes on without having been the first.
  have go : ∀ p, (CallStage.inside p).waiting = true → p.sub = some (subOf (s.call t)) →
      s.pc t ≠ .publish (subOf (s.call t)) → p.result = none → (∀ j i tmp1, p ≠ .cas j i tmp1) →
      ((CallStage.inside p).early = true ∨ (s.sub (subOf (s.call t))).avail ≠ -1) →
      (s.goto t p).Inv n calls k := by
    intro p waits' sub_p early none plain later
    rw [goto_eq]
    refine inv.moved inside sub_p ?_ ?_ ?_ ?_
    · rw [callAt_eq call]
      exact use.wait inside (waits early) waits' later
    · intro arrived
      have before := CallStage.waiting_arrived (waits early)
      rw [stage_here, arrived] at before
      cases before
    · intro b has
      rw [none] at has
      cases has
    · exact fun j i tmp1 same => absurd same (plain j i tmp1)
  rcases at' with here | here | here
  · simp only [tmpiArdcoAllreduce, here] at taken
    split at taken
    next free =>
      rw [← Option.some.inj taken]
      exact go _ rfl rfl (by rw [here]; nofun) rfl nofun (.inl rfl)
    next set' =>
      rw [← Option.some.inj taken]
      exact go _ rfl rfl (by rw [here]; nofun) rfl nofun (.inr set')
  · simp only [tmpiArdcoAllreduce, here] at taken
    split at taken
    next free =>
      rw [← Option.some.inj taken, setSub_goto_eq]
      obtain ⟨once, claimed⟩ := use.claim (j := subOf (s.call t)) inside (waits (by rw [here]; nofun)) free
      refine inv.moved inside rfl ?_ (by rw [here]; nofun) nofun nofun
      rw [once]
      exact .claimed claimed
    next set' =>
      rw [← Option.some.inj taken]
      exact go _ rfl rfl (by rw [here]; nofun) rfl nofun (.inr set')
  · simp only [tmpiArdcoAllreduce, here] at taken
    have exact := intsLen_eq_iff.mpr small
    have whole : (intsLen c.count).toNat / 4 = c.count := by omega
    rw [if_neg (show ¬ intsLen c.count < 0 by omega), whole] at taken
    rw [← Option.some.inj taken, setSub_goto_eq]
    have copied : ∀ i < c.count, copyInts (s.sub (subOf (s.call t))).data (s.current t).sendbuf
        c.count i = (s.current t).sendbuf i := fun i below => if_pos below
    obtain ⟨once, shared⟩ := use.publish (m := subOf (s.call t)) inside
      (stage_here.trans (by rw [here])) copied
    refine inv.moved inside rfl ?_ (by rw [here]; nofun) nofun nofun
    rw [once, callAt_eq call]
    exact .shared shared

/-- The data of a sub-object that a thread works on. -/
theorem Inv.shared (inv : s.Inv n calls k) (inside : t < n) (call : calls[s.call t]? = some c)
    (sharing : (CallStage.inside (s.pc t)).sharing = true)
    (ready : (s.sub (subOf (s.call t))).avail ≠ 0 ∨ (CallStage.inside (s.pc t)).waiting = false) :
    (s.sub (subOf (s.call t))).Shared n c (s.args (s.call t)) (s.stage (s.call t)) ∧
      s.resets (s.call t) = 0 := by
  rw [← stage_here] at sharing ready
  exact (inv.at inside call).shared_of_sharing inside sharing ready

/-- A thread that is still at work goes on. -/
theorem Inv.work (inv : s.Inv n calls k) (inside : t < n) (call : calls[s.call t]? = some c)
    (once : s.resets (s.call t) = 0) (open' : (CallStage.inside (s.pc t)).arrived = false)
    (sub_p : p.sub = some (subOf (s.call t))) (none : p.result = none)
    (shared : sub.Shared n c (s.args (s.call t))
      (Function.update (s.stage (s.call t)) t (.inside p)))
    (read : ∀ j i tmp1, p = .cas j i tmp1 → i < c.count ∧ c.op ≠ .sum ∧
      rdcBreak c.op tmp1 ((s.args (s.call t) t).sendbuf i) = false) :
    ((s.setSub (subOf (s.call t)) sub).goto t p).Inv n calls k := by
  rw [setSub_goto_eq]
  refine inv.moved inside sub_p ?_ ?_ ?_ ?_
  · rw [once, callAt_eq call]
    exact .shared shared
  · intro arrived
    rw [open'] at arrived
    cases arrived
  · intro b has
    rw [none] at has
    cases has
  · rw [callAt_eq call]
    exact read

theorem setSub_self (j : Fin 2) : s.setSub j (s.sub j) = s := by
  rw [setSub, Function.update_eq_self]

/-- A thread that is still at work goes on, and leaves the sub-object as it is. -/
theorem Inv.work_on (inv : s.Inv n calls k) (inside : t < n) (call : calls[s.call t]? = some c)
    (once : s.resets (s.call t) = 0) (open' : (CallStage.inside (s.pc t)).arrived = false)
    (sub_p : p.sub = some (subOf (s.call t))) (none : p.result = none)
    (shared : (s.sub (subOf (s.call t))).Shared n c (s.args (s.call t))
      (Function.update (s.stage (s.call t)) t (.inside p)))
    (read : ∀ j i tmp1, p = .cas j i tmp1 → i < c.count ∧ c.op ≠ .sum ∧
      rdcBreak c.op tmp1 ((s.args (s.call t) t).sendbuf i) = false) :
    (s.goto t p).Inv n calls k := by
  have worked := inv.work inside call once open' sub_p none shared read
  rwa [setSub_self] at worked

theorem Inv.await (inv : s.Inv n calls k) (inside : t < n) (call : calls[s.call t]? = some c)
    {j : Fin 2} (at' : s.pc t = .await j) (taken : s.tmpiArdcoAllreduce n t c = some s') :
    s'.Inv n calls k := by
  obtain rfl : j = subOf (s.call t) := inv.subs t inside j (by rw [at']; rfl)
  simp only [tmpiArdcoAllreduce, at'] at taken
  split at taken
  next => cases taken
  next set' =>
    obtain ⟨shared, once⟩ := inv.shared inside call (by rw [at']; rfl) (.inl set')
    rw [← Option.some.inj taken]
    refine inv.work_on inside call once (by rw [at']; rfl) rfl rfl ?_ nofun
    have stage : s.stage (s.call t) t = .inside (.await (subOf (s.call t))) := stage_here.trans (by rw [at'])
    refine shared.stay (by rw [stage]; rfl) (by rw [stage]; rfl) rfl (fun i _ => ?_) nofun
    rw [stage]
    exact decide_eq_false (Nat.not_lt_zero i)

theorem Inv.combine (inv : s.Inv n calls k) (inside : t < n) (call : calls[s.call t]? = some c)
    {j : Fin 2} {i : Nat} (at' : s.pc t = .combine j i) (taken : s.tmpiArdcoAllreduce n t c = some s') :
    s'.Inv n calls k := by
  obtain rfl : j = subOf (s.call t) := inv.subs t inside j (by rw [at']; rfl)
  obtain ⟨shared, once⟩ := inv.shared inside call (by rw [at']; rfl) (.inr (by rw [at']; rfl))
  have stage : s.stage (s.call t) t = .inside (.combine (subOf (s.call t)) i) := stage_here.trans (by rw [at'])
  have open' : (CallStage.inside (s.pc t)).arrived = false := by rw [at']; rfl
  have adding : ∀ m, (s.stage (s.call t) t).contributed m = decide (m < i) := fun m => by rw [stage]; rfl
  simp only [tmpiArdcoAllreduce, at'] at taken
  split at taken
  next more =>
    rw [shared.count, min_self] at more
    by_cases sum : c.op = .sum
    · simp only [sum] at taken
      rw [← Option.some.inj taken]
      refine inv.work inside call once open' rfl rfl ?_ nofun
      refine shared.contribute inside adding (by rw [stage]; rfl) (by rw [stage]; rfl) ?_ ?_ rfl
      · rw [sum]
        exact Function.update_self _ _ _
      · exact fun m ne => Function.update_of_ne ne _ _
    · have reads : (if rdcBreak c.op ((s.sub (subOf (s.call t))).data i) ((s.current t).sendbuf i) = true then
            some (s.goto t (.combine (subOf (s.call t)) (i + 1)))
          else some (s.goto t (.cas (subOf (s.call t)) i ((s.sub (subOf (s.call t))).data i)))) = some s' := by
        cases op : c.op with
        | sum => exact absurd op sum
        | _ => simpa only [op] using taken
      split at reads
      next breaks =>
        rw [← Option.some.inj reads]
        refine inv.work_on inside call once open' rfl rfl ?_ nofun
        refine shared.contribute inside adding (by rw [stage]; rfl) (by rw [stage]; rfl) ?_ (fun _ _ => rfl) rfl
        exact (simpleReduce_break breaks).symm
      next goes =>
        rw [← Option.some.inj reads]
        refine inv.work_on inside call once open' rfl rfl ?_ ?_
        · exact shared.stay (by rw [stage]; rfl) (by rw [stage]; rfl) rfl (fun m _ => by rw [stage]; rfl) nofun
        · intro j' i' tmp1 same
          cases same
          exact ⟨more, sum, Bool.eq_false_iff.mpr goes⟩
  next done =>
    rw [← Option.some.inj taken]
    refine inv.work_on inside call once open' rfl rfl ?_ nofun
    refine shared.stay (by rw [stage]; rfl) (by rw [stage]; rfl) rfl (fun m below => ?_) nofun
    rw [shared.count, min_self] at done
    rw [adding]
    exact (decide_eq_true (by omega)).symm

theorem Inv.cas (inv : s.Inv n calls k) (inside : t < n) (call : calls[s.call t]? = some c)
    {j : Fin 2} {i : Nat} {tmp1 : BitVec 32} (at' : s.pc t = .cas j i tmp1)
    (taken : s.tmpiArdcoAllreduce n t c = some s') : s'.Inv n calls k := by
  obtain rfl : j = subOf (s.call t) := inv.subs t inside j (by rw [at']; rfl)
  obtain ⟨shared, once⟩ := inv.shared inside call (by rw [at']; rfl) (.inr (by rw [at']; rfl))
  obtain ⟨-, sum, goes⟩ := inv.reads t inside _ i tmp1 at'
  rw [callAt_eq call] at sum goes
  have stage : s.stage (s.call t) t = .inside (.cas (subOf (s.call t)) i tmp1) := stage_here.trans (by rw [at'])
  have open' : (CallStage.inside (s.pc t)).arrived = false := by rw [at']; rfl
  simp only [tmpiArdcoAllreduce, at'] at taken
  split at taken
  next same =>
    rw [← Option.some.inj taken]
    refine inv.work inside call once open' rfl rfl ?_ nofun
    refine shared.contribute inside (fun m => by rw [stage]; rfl) (by rw [stage]; rfl) (by rw [stage]; rfl) ?_ ?_ rfl
    · rw [same]
      exact (Function.update_self _ _ _).trans (simpleReduce_cas sum goes).symm
    · exact fun m ne => Function.update_of_ne ne _ _
  next =>
    rw [← Option.some.inj taken]
    refine inv.work_on inside call once open' rfl rfl ?_ nofun
    exact shared.stay (by rw [stage]; rfl) (by rw [stage]; rfl) rfl (fun m _ => by rw [stage]; rfl) nofun

theorem Inv.bump (inv : s.Inv n calls k) (inside : t < n) (call : calls[s.call t]? = some c)
    {j : Fin 2} (at' : s.pc t = .bump j) (taken : s.tmpiArdcoAllreduce n t c = some s') :
    s'.Inv n calls k := by
  obtain rfl : j = subOf (s.call t) := inv.subs t inside j (by rw [at']; rfl)
  obtain ⟨shared, once⟩ := inv.shared inside call (by rw [at']; rfl) (.inr (by rw [at']; rfl))
  simp only [tmpiArdcoAllreduce, at'] at taken
  rw [← Option.some.inj taken]
  refine inv.work inside call once (by rw [at']; rfl) rfl rfl ?_ nofun
  exact shared.bump inside (stage_here.trans (by rw [at']))

theorem Inv.gather (inv : s.Inv n calls k) (inside : t < n) (call : calls[s.call t]? = some c)
    (small : c.Small) {j : Fin 2} (at' : s.pc t = .gather j) (taken : s.tmpiArdcoAllreduce n t c = some s') :
    s'.Inv n calls k := by
  obtain rfl : j = subOf (s.call t) := inv.subs t inside j (by rw [at']; rfl)
  obtain ⟨shared, once⟩ := inv.shared inside call (by rw [at']; rfl) (.inr (by rw [at']; rfl))
  simp only [tmpiArdcoAllreduce, at'] at taken
  split at taken
  next => cases taken
  next all =>
    obtain ⟨arrived, total⟩ := shared.total (not_not.mp all)
    have stage : s.stage (s.call t) t = .inside (.gather (subOf (s.call t))) := stage_here.trans (by rw [at'])
    rw [shared.count, min_self, memcpyInts_small _ _ small, Option.map_some] at taken
    rw [← Option.some.inj taken, goto_eq]
    refine inv.moved inside rfl ?_ (fun _ => rfl) ?_ nofun
    · rw [once, callAt_eq call]
      refine .shared (shared.stay (by rw [stage]; rfl) (by rw [stage]; rfl) rfl (fun m _ => ?_) fun _ => arrived)
      rw [stage]
      rfl
    · intro b has
      obtain rfl := Option.some.inj has
      rw [allreduced_eq call, AllreduceObj.current]
      congr 1
      funext i
      rw [copyInts, copyInts]
      split
      next below => exact total i below
      next => rfl

theorem Inv.count (inv : s.Inv n calls k) (inside : t < n) (call : calls[s.call t]? = some c)
    {j : Fin 2} (at' : s.pc t = .count j b) (taken : s.tmpiArdcoAllreduce n t c = some s') :
    s'.Inv n calls k := by
  obtain rfl : j = subOf (s.call t) := inv.subs t inside j (by rw [at']; rfl)
  obtain ⟨shared, once⟩ := inv.shared inside call (by rw [at']; rfl) (.inr (by rw [at']; rfl))
  have stage : s.stage (s.call t) t = .inside (.count (subOf (s.call t)) b) := stage_here.trans (by rw [at'])
  have copy := inv.copies t inside b (by rw [at']; rfl)
  have result : ∀ b', some b = some b' → b' = s.allreduced n calls (s.call t) t :=
    fun b' same => (Option.some.inj same).symm.trans copy
  simp only [tmpiArdcoAllreduce, at'] at taken
  split at taken
  next last =>
    rw [← Option.some.inj taken, setSub_goto_eq]
    refine inv.moved inside rfl ?_ (fun _ => rfl) result nofun
    rw [once]
    exact .resetting (shared.count_last inside stage last)
  next more =>
    rw [← Option.some.inj taken, setSub_goto_eq]
    refine inv.moved inside rfl ?_ (fun _ => rfl) result nofun
    rw [once, callAt_eq call]
    exact .shared (shared.count_up inside stage more)

theorem Inv.reset (inv : s.Inv n calls k) (inside : t < n) (call : calls[s.call t]? = some c)
    {j : Fin 2} (at' : s.pc t = .reset j b) (taken : s.tmpiArdcoAllreduce n t c = some s') :
    s'.Inv n calls k := by
  obtain rfl : j = subOf (s.call t) := inv.subs t inside j (by rw [at']; rfl)
  have stage : s.stage (s.call t) t = .inside (.reset (subOf (s.call t)) b) := stage_here.trans (by rw [at'])
  obtain ⟨resetting, once⟩ := (inv.at inside call).resetting_of inside stage
  have copy := inv.copies t inside b (by rw [at']; rfl)
  simp only [tmpiArdcoAllreduce, at'] at taken
  rw [← Option.some.inj taken, setSub_goto_eq]
  refine inv.moved inside rfl ?_ (fun _ => rfl) (fun b' same => (Option.some.inj same).symm.trans copy) nofun
  rw [once]
  exact .reopening (resetting.reset inside stage)

theorem Inv.reopen (inv : s.Inv n calls k) (inside : t < n) (call : calls[s.call t]? = some c)
    {j : Fin 2} (at' : s.pc t = .reopen j b) (taken : s.tmpiArdcoAllreduce n t c = some s') :
    s'.Inv n calls k := by
  obtain rfl : j = subOf (s.call t) := inv.subs t inside j (by rw [at']; rfl)
  have stage : s.stage (s.call t) t = .inside (.reopen (subOf (s.call t)) b) := stage_here.trans (by rw [at'])
  obtain ⟨reopening, once⟩ := (inv.at inside call).reopening_of inside stage
  have copy := inv.copies t inside b (by rw [at']; rfl)
  simp only [tmpiArdcoAllreduce, at'] at taken
  have shape : s' = s.moved t (.check (subOf (s.call t)) b)
      { s.sub (subOf (s.call t)) with avail := -1 } (s.resets (s.call t) + 1) := (Option.some.inj taken).symm
  rw [shape]
  refine inv.moved inside rfl ?_ (fun _ => rfl) (fun b' same => (Option.some.inj same).symm.trans copy) nofun
  rw [once]
  exact .closed (reopening.reopen inside stage)

theorem Inv.check (inv : s.Inv n calls k) (inside : t < n) (call : calls[s.call t]? = some c)
    {j : Fin 2} (at' : s.pc t = .check j b) (taken : s.tmpiArdcoAllreduce n t c = some s') :
    s'.Inv n calls k := by
  obtain rfl : j = subOf (s.call t) := inv.subs t inside j (by rw [at']; rfl)
  have stage : s.stage (s.call t) t = .inside (.check (subOf (s.call t)) b) := stage_here.trans (by rw [at'])
  have copy := inv.copies t inside b (by rw [at']; rfl)
  simp only [tmpiArdcoAllreduce, at'] at taken
  split at taken
  next here =>
    rw [← Option.some.inj taken, goto_eq]
    refine inv.moved inside rfl ?_ (fun _ => rfl) (fun b' same => (Option.some.inj same).symm.trans copy) nofun
    rw [callAt_eq call]
    exact (inv.at inside call).away inside (by rw [stage]; rfl) rfl
  next away =>
    rw [← Option.some.inj taken]
    refine inv.follow inside ((inv.call t inside).resolve_left fun now => away ?_) (by rw [at']; rfl)
      (by rw [at']; rfl)
    rw [now]
    exact inv.subp

theorem Inv.switch (inv : s.Inv n calls k) (inside : t < n) {j : Fin 2} (at' : s.pc t = .switch j b)
    (taken : s.tmpiArdcoAllreduce n t c = some s') : ∃ k', s'.Inv n calls k' := by
  obtain rfl : j = subOf (s.call t) := inv.subs t inside j (by rw [at']; rfl)
  simp only [tmpiArdcoAllreduce, at'] at taken
  split at taken
  next here =>
    have now : s.call t = k := by
      refine (inv.call t inside).resolve_right fun before => ?_
      rw [inv.subp, ← before] at here
      exact subOf_succ_ne _ here
    rw [← Option.some.inj taken, now]
    exact ⟨k + 1, inv.lead inside now (by rw [at']; rfl) (by rw [at']; rfl)⟩
  next away =>
    rw [← Option.some.inj taken]
    refine ⟨k, inv.follow inside ((inv.call t inside).resolve_left fun now => away ?_) (by rw [at']; rfl)
      (by rw [at']; rfl)⟩
    rw [now]
    exact inv.subp

theorem Inv.run (inv : s.Inv n calls k) (inside : t < n) (call : calls[s.call t]? = some c)
    (small : c.Small) (taken : s.tmpiArdcoAllreduce n t c = some s') : ∃ k', s'.Inv n calls k' := by
  cases at' : s.pc t with
  | idle =>
      simp only [tmpiArdcoAllreduce, at'] at taken
      cases taken
  | look j => exact ⟨k, inv.begin inside call small (.inl at') taken⟩
  | claim j => exact ⟨k, inv.begin inside call small (.inr (.inl at')) taken⟩
  | publish j => exact ⟨k, inv.begin inside call small (.inr (.inr at')) taken⟩
  | await j => exact ⟨k, inv.await inside call at' taken⟩
  | combine j i => exact ⟨k, inv.combine inside call at' taken⟩
  | cas j i tmp1 => exact ⟨k, inv.cas inside call at' taken⟩
  | bump j => exact ⟨k, inv.bump inside call at' taken⟩
  | gather j => exact ⟨k, inv.gather inside call small at' taken⟩
  | count j b => exact ⟨k, inv.count inside call at' taken⟩
  | reset j b => exact ⟨k, inv.reset inside call at' taken⟩
  | reopen j b => exact ⟨k, inv.reopen inside call at' taken⟩
  | check j b => exact ⟨k, inv.check inside call at' taken⟩
  | switch j b => exact inv.switch inside at' taken

theorem Inv.enter (inv : s.Inv n calls k) (several : 2 ≤ n) (inside : t < n) (idle : s.pc t = .idle)
    (entered : s.enter n t b c = some s') : s'.Inv n calls k := by
  have now : s.call t = k := inv.call_eq inside (by rw [idle]; rfl)
  have passed : (s.pass t b).Inv n calls k := inv.pass inside idle
  rw [AllreduceObj.enter, if_neg (by omega), Option.some.injEq] at entered
  rw [← entered, goto_eq]
  have here : s.subp = subOf ((s.pass t b).call t) := by
    rw [inv.subp, ← now]
    rfl
  refine passed.moved inside (congrArg some here) ?_ ?_ nofun nofun
  · have waits : ((s.pass t b).stage ((s.pass t b).call t) t).waiting = true := by
      rw [stage_here]
      show (CallStage.inside (s.pc t)).waiting = true
      rw [idle]
      rfl
    exact (passed.uses inside).wait inside waits rfl (.inl rfl)
  · show (CallStage.inside (s.pc t)).arrived = true → _
    rw [idle]
    nofun

theorem reach_inv (several : 2 ≤ n) (small : ∀ c ∈ calls, c.Small) (reach : Reach n calls s) :
    ∃ k, s.Inv n calls k := by
  induction reach with
  | create => exact ⟨0, .create⟩
  | @step s₁ s₂ act _ inside taken ih =>
      obtain ⟨k, inv⟩ := ih
      cases act with
      | enter t b =>
          simp only [step] at taken
          cases idle : s₁.pc t with
          | idle =>
              simp only [idle] at taken
              obtain ⟨c, -, entered⟩ := Option.bind_eq_some_iff.mp taken
              exact ⟨k, inv.enter several inside idle entered⟩
          | _ =>
              simp only [idle] at taken
              cases taken
      | run t =>
          obtain ⟨c, call, ran⟩ := Option.bind_eq_some_iff.mp taken
          exact inv.run inside call (small c (List.mem_of_getElem? call)) ran

end Moves

section Safety

variable (n : Nat) (calls : List AllreduceCall) (s : AllreduceObj)

/-- Thread `t` has copied the result of call `k`. -/
def Copied (k t : Nat) : Prop := k < s.call t ∨ s.call t = k ∧ (s.pc t).result.isSome = true

/-- What holds of the allreduces of a machine at any time. -/
structure Safe : Prop where
  result : ∀ k c t, calls[k]? = some c → t < n → k < s.call t → s.results k t = some
    { s.args k t with
      recvbuf := copyInts (s.args k t).recvbuf
        (fun i => combined c.op (Finset.range n) fun u => (s.args k u).sendbuf i) c.count }
  once : ∀ k, s.resets k ≤ 1
  ended : ∀ k, (∀ t < n, k < s.call t) → s.resets k = 1
  after : ∀ k, 0 < s.resets k → ∀ t < n, s.Copied k t
  resetting : ∀ t < n, ∀ j b, s.pc t = .reset j b ∨ s.pc t = .reopen j b → ∀ u < n, s.Copied (s.call t) u
  /-- The threads at a sub-object are in the same call. -/
  apart : ∀ t < n, ∀ u < n, ∀ j, (s.pc t).sub = some j → (s.pc u).sub = some j → s.call t = s.call u
  memory : ∀ t < n, ∀ j, (s.pc t).sub = some j → (s.pc t).uses = true → (s.sub j).live = true
  /-- Somebody can go on until all calls have been made. -/
  progress : (∃ t < n, s.call t < calls.length) → ∃ act, act.thread < n ∧ (s.step n calls act).isSome = true

variable {n calls s} {k t : Nat} {c : AllreduceCall}

theorem stage_copied (finished : (s.stage k t).finished = true) : s.Copied k t := by
  rw [stage] at finished
  by_cases before : s.call t < k
  · rw [if_pos before] at finished
    cases finished
  · by_cases now : s.call t = k
    · rw [if_neg before, if_pos now] at finished
      exact .inr ⟨now, finished⟩
    · exact .inl (by omega)

/-- A step of a thread is its own, and it stays in its call or leaves it. -/
structure Steps (s s' : AllreduceObj) (t : Nat) : Prop where
  others : ∀ u ≠ t, s'.pc u = s.pc u ∧ s'.call u = s.call u
  own : s'.pc t = .idle ∨ s'.call t = s.call t

theorem Steps.goto {s₁ : AllreduceObj} {p : AllreducePc} (pc : s₁.pc = s.pc) (call : s₁.call = s.call) :
    Steps s (s₁.goto t p) t where
  others u ne := ⟨by rw [← pc]; exact Function.update_of_ne ne _ _, congrFun call u⟩
  own := .inr (congrFun call t)

theorem Steps.leave {s₁ : AllreduceObj} {b : Buffers} (pc : s₁.pc = s.pc) (call : s₁.call = s.call) :
    Steps s (s₁.leave t b) t where
  others u ne := ⟨by rw [← pc]; exact leave_pc_ne ne, by rw [← call]; exact leave_call_ne ne⟩
  own := .inl leave_pc

theorem steps_run {s' : AllreduceObj} (taken : s.tmpiArdcoAllreduce n t c = some s') : Steps s s' t := by
  cases at' : s.pc t with
  | idle =>
      simp only [tmpiArdcoAllreduce, at'] at taken
      cases taken
  | combine j i =>
      simp only [tmpiArdcoAllreduce, at'] at taken
      split at taken
      · cases op : c.op with
        | sum =>
            simp only [op] at taken
            exact Option.some.inj taken ▸ .goto rfl rfl
        | _ =>
            simp only [op] at taken
            split at taken <;> exact Option.some.inj taken ▸ .goto rfl rfl
      · exact Option.some.inj taken ▸ .goto rfl rfl
  | check j b =>
      simp only [tmpiArdcoAllreduce, at'] at taken
      split at taken
      · exact Option.some.inj taken ▸ .goto rfl rfl
      · exact Option.some.inj taken ▸ .leave rfl rfl
  | switch j b =>
      simp only [tmpiArdcoAllreduce, at'] at taken
      split at taken <;> exact Option.some.inj taken ▸ .leave rfl rfl
  | await j =>
      simp only [tmpiArdcoAllreduce, at'] at taken
      split at taken
      · cases taken
      · exact Option.some.inj taken ▸ .goto rfl rfl
  | gather j =>
      simp only [tmpiArdcoAllreduce, at'] at taken
      split at taken
      · cases taken
      · obtain ⟨recvbuf, -, rfl⟩ := Option.map_eq_some_iff.mp taken
        exact .goto rfl rfl
  | look j | claim j | cas j i tmp1 | count j b =>
      simp only [tmpiArdcoAllreduce, at'] at taken
      split at taken <;> exact Option.some.inj taken ▸ .goto rfl rfl
  | publish j | bump j | reset j b | reopen j b =>
      simp only [tmpiArdcoAllreduce, at'] at taken
      exact Option.some.inj taken ▸ .goto rfl rfl

/-- A thread inside a call is in one of the `calls`. -/
theorem reach_inside (reach : Reach n calls s) : ∀ t, s.pc t ≠ .idle → s.call t < calls.length := by
  induction reach with
  | create => exact fun t busy => absurd rfl busy
  | @step s₁ s₂ act _ inside taken ih =>
      have stays : ∀ t c, calls[s₁.call t]? = some c → Steps s₁ s₂ t →
          ∀ u, s₂.pc u ≠ .idle → s₂.call u < calls.length := by
        intro t c call steps u busy
        by_cases same : u = t
        · subst same
          rw [steps.own.resolve_left busy]
          exact (List.getElem?_eq_some_iff.mp call).1
        · obtain ⟨pc, equal⟩ := steps.others u same
          rw [equal]
          exact ih u (pc ▸ busy)
      cases act with
      | enter t b =>
          simp only [step] at taken
          cases idle : s₁.pc t with
          | idle =>
              simp only [idle] at taken
              obtain ⟨c, call, entered⟩ := Option.bind_eq_some_iff.mp taken
              refine stays t c call ?_
              rw [enter] at entered
              split at entered
              · obtain ⟨recvbuf, -, rfl⟩ := Option.map_eq_some_iff.mp entered
                exact .leave rfl rfl
              · exact Option.some.inj entered ▸ .goto rfl rfl
          | _ =>
              simp only [idle] at taken
              cases taken
      | run t =>
          obtain ⟨c, call, ran⟩ := Option.bind_eq_some_iff.mp taken
          exact stays t c call (steps_run ran)

/-- A thread that does not wait can go on. -/
theorem run_isSome (busy : s.pc t ≠ .idle)
    (await : ∀ j, s.pc t = .await j → (s.sub j).avail ≠ 0)
    (gather : ∀ j, s.pc t = .gather j → (s.sub j).avail = n) (small : c.Small)
    (length : ∀ j, s.pc t = .gather j → (s.sub j).count = c.count) : (s.tmpiArdcoAllreduce n t c).isSome = true := by
  cases at' : s.pc t with
  | idle => exact absurd at' busy
  | await j => simp [tmpiArdcoAllreduce, at', await j at']
  | gather j =>
      simp [tmpiArdcoAllreduce, at', gather j at', length j at', memcpyInts_small _ _ small]
  | combine j i =>
      simp only [tmpiArdcoAllreduce, at']
      split
      · cases c.op <;> dsimp only <;> (try split) <;> rfl
      · rfl
  | _ =>
      simp only [tmpiArdcoAllreduce, at']
      first | rfl | (split <;> rfl)

/-- Not all threads wait for each other. -/
theorem Inv.progress (inv : s.Inv n calls k) (several : 2 ≤ n) (small : ∀ c ∈ calls, c.Small)
    (begun : ∀ t, s.pc t ≠ .idle → s.call t < calls.length)
    (more : ∃ t < n, s.call t < calls.length) : ∃ act, act.thread < n ∧ (s.step n calls act).isSome = true := by
  by_contra stuck
  push Not at stuck
  have blocked : ∀ t < n, s.call t < calls.length → (∃ j, s.pc t = .await j ∧ (s.sub j).avail = 0) ∨
      ∃ j, s.pc t = .gather j ∧ (s.sub j).avail ≠ n := by
    intro t inside called
    have call := List.getElem?_eq_getElem called
    by_cases idle : s.pc t = .idle
    · refine absurd ?_ (stuck (.enter t (s.current t)) inside)
      simp [step, idle, call, AllreduceObj.enter, show ¬ n < 2 by omega]
    · by_contra none
      push Not at none
      refine stuck (.run t) inside ?_
      rw [step, call, Option.bind_some]
      refine run_isSome idle none.1 none.2 (small _ (List.getElem_mem called)) fun j at' => ?_
      obtain rfl : j = subOf (s.call t) := inv.subs t inside j (by rw [at']; rfl)
      exact (inv.shared inside call (by rw [at']; rfl) (.inr (by rw [at']; rfl))).1.count
  have sharing : ∀ t < n, s.call t < calls.length → (CallStage.inside (s.pc t)).sharing = true := by
    intro t inside called
    rcases blocked t inside called with ⟨j, at', -⟩ | ⟨j, at', -⟩ <;> rw [at'] <;> rfl
  have busy : ∀ t < n, (CallStage.inside (s.pc t)).arrived = true → s.pc t ≠ .idle := by
    intro t _ arrived idle
    rw [idle] at arrived
    cases arrived
  -- Nobody who waits for the result can be in the call that all have begun.
  have gathering : ∀ t < n, ∀ j, s.pc t = .gather j → (s.sub j).avail ≠ n →
      ¬ ∀ u < n, (s.stage (s.call t) u).arrived = true := by
    intro t inside j at' short all
    have stage : s.stage (s.call t) t = .inside (.gather j) := stage_here.trans (by rw [at'])
    obtain ⟨shared, -⟩ := (inv.uses inside).shared_of_sharing inside (by rw [stage]; rfl)
      (.inr (by rw [stage]; rfl))
    rw [inv.subs t inside j (by rw [at']; rfl)] at short
    exact short (shared.avail_eq all)
  by_cases late : ∃ t < n, s.call t + 1 = k
  · obtain ⟨t, inside, before⟩ := late
    have arrived := inv.late t inside before
    rcases blocked t inside (begun t (busy t inside arrived)) with ⟨j, at', -⟩ | ⟨j, at', short⟩
    · rw [at'] at arrived
      cases arrived
    · refine gathering t inside j at' short fun u low => ?_
      cases inv.call u low with
      | inl now =>
          rw [stage_past (by omega)]
          rfl
      | inr behind =>
          have same : s.call t = s.call u := by omega
          rw [same, stage_here]
          exact inv.late u low behind
  · push Not at late
    have together : ∀ u < n, s.call u = k := fun u low => (inv.call u low).resolve_right (late u low)
    obtain ⟨t, inside, called⟩ := more
    have all : ∀ u < n, s.call u < calls.length := fun u low => by
      rw [together u low, ← together t inside]
      exact called
    have shared := inv.current.shared_of_all inside fun u low => by
      rw [← together u low, stage_here]
      exact sharing u low (all u low)
    have here : ∀ u < n, ∃ j, s.pc u = .gather j ∧ (s.sub j).avail ≠ n := by
      intro u low
      refine (blocked u low (all u low)).resolve_left ?_
      rintro ⟨j, at', unset⟩
      have slot : j = subOf k := (inv.subs u low j (by rw [at']; rfl)).trans (by rw [together u low])
      rw [slot] at unset
      have := shared.avail_pos
      omega
    obtain ⟨j, at', short⟩ := here t inside
    refine gathering t inside j at' short fun u low => ?_
    obtain ⟨j', at'', -⟩ := here u low
    rw [together t inside, ← together u low, stage_here, at'']
    rfl

/-- Every allreduce returns what it should, and its sub-object is reset once, when nobody needs it. -/
theorem allreduce_safe (several : 2 ≤ n) (small : ∀ c ∈ calls, c.Small) (reach : Reach n calls s) :
    s.Safe n calls := by
  obtain ⟨K, inv⟩ := reach_inv several small reach
  have first : 0 < n := by omega
  have copied : ∀ k, s.Uses n calls k → 0 < s.resets k → ∀ t < n, s.Copied k t := fun k use reset t inside =>
    stage_copied (CallStage.copied_finished (CallStage.closed_copied ((use.closed_of_pos reset).stages t inside)))
  refine ⟨?_, ?_, ?_, ?_, ?_, ?_, ?_, inv.progress several small (reach_inside reach)⟩
  · intro k c t call inside past
    rw [inv.results t inside k past, allreduced_eq call]
  · intro k
    by_cases past : k + 1 < K
    · exact (inv.past k past).le
    · by_cases previous : k + 1 = K
      · exact (inv.previous k previous).resets_le
      · by_cases now : k = K
        · exact now ▸ inv.current.resets_le
        · rw [inv.future k (by omega)]
          exact Nat.zero_le 1
  · intro k all
    by_cases past : k + 1 < K
    · exact inv.past k past
    · have here := all 0 first
      have before : k + 1 = K := by
        have := inv.call 0 first
        omega
      exact ((inv.previous k before).closed_of_past first fun u low => stage_past (all u low)).2
  · intro k reset t inside
    by_cases past : k + 1 < K
    · have := inv.call t inside
      exact .inl (by omega)
    · by_cases previous : k + 1 = K
      · exact copied k (inv.previous k previous) reset t inside
      · by_cases now : k = K
        · exact copied k (now ▸ inv.current) reset t inside
        · rw [inv.future k (by omega)] at reset
          exact absurd reset (lt_irrefl 0)
  · intro t inside j b at' u low
    have ending : (s.stage (s.call t) t).alone = true ∧ (s.stage (s.call t) t).finished = true := by
      rw [stage_here]
      cases at' with
      | inl reset =>
          rw [reset]
          exact ⟨rfl, rfl⟩
      | inr reopen =>
          rw [reopen]
          exact ⟨rfl, rfl⟩
    exact stage_copied (CallStage.copied_finished
      ((inv.uses inside).copied_of_ending inside ending.1 ending.2 u low))
  · intro t inside u low j at' at''
    have here := inv.subs t inside j at'
    have there := inv.subs u low j at''
    by_contra apart
    have slot : subOf (s.call t) = subOf (s.call u) := here.symm.trans there
    rcases inv.call t inside with now | before
    · rcases inv.call u low with now' | before'
      · exact apart (now.trans now'.symm)
      · rw [now, ← before'] at slot
        exact subOf_succ_ne _ slot
    · rcases inv.call u low with now' | before'
      · rw [now', ← before] at slot
        exact subOf_succ_ne _ slot.symm
      · exact apart (by omega)
  · intro t inside j at' uses
    rw [inv.subs t inside j at']
    have ready : (s.stage (s.call t) t).sharing = true ∧ (s.stage (s.call t) t).waiting = false := by
      rw [stage_here]
      cases here : s.pc t with
      | combine | cas | bump | gather => exact ⟨rfl, rfl⟩
      | _ =>
          rw [here] at uses
          cases uses
    exact ((inv.uses inside).shared_of_sharing inside ready.1 (.inr ready.2)).1.live

/-- Thread 0 is the first in a sum, and the last to leave. -/
def twoSum : List Act :=
  [.enter 0 ⟨[], fun _ => 5, fun _ => 0⟩, .run 0, .run 0, .run 0,
    .enter 1 ⟨[], fun _ => 7, fun _ => 0⟩, .run 1, .run 1, .run 1, .run 1, .run 1, .run 1, .run 1, .run 1,
    .run 1, .run 0, .run 0, .run 0, .run 0, .run 0]

theorem allreduce_safe_two : ∃ s : AllreduceObj, s.Safe 2 [⟨.sum, 1⟩] ∧ s.call 0 = 1 ∧ s.resets 0 = 1 ∧
    (s.results 0 1).map (fun b => b.recvbuf 0) = some 12 := by
  have ends : (create.run 2 [⟨.sum, 1⟩] twoSum).map
      (fun s => (s.call 0, s.resets 0, (s.results 0 1).map fun b => b.recvbuf 0)) =
        some (1, 1, some 12) := by decide
  obtain ⟨s, runs, equal⟩ := Option.map_eq_some_iff.mp ends
  obtain ⟨call, resets, result⟩ := Prod.mk.inj equal |>.imp_right Prod.mk.inj
  have reach := Reach.create.run (by decide) runs
  exact ⟨s, allreduce_safe (by decide) (by decide) reach, call, resets, result⟩

end Safety

/-! ## Lengths that do not fit -/

section Long

variable {calls : List AllreduceCall} {s : AllreduceObj} {c : AllreduceCall} {n t i : Nat} {j : Fin 2}

/-- An element that `rdc_int_max` leaves as it is. -/
theorem skip_max (at' : s.pc t = .combine j i) (op : c.op = .max) (more : i < min c.count (s.sub j).count)
    (breaks : rdcBreak .max ((s.sub j).data i) ((s.current t).sendbuf i) = true) :
    s.tmpiArdcoAllreduce n t c = some (s.goto t (.combine j (i + 1))) := by
  simp only [tmpiArdcoAllreduce, at', if_pos more, op, breaks, if_true]

/-- A thread that finds nothing to do for `k` elements. -/
theorem Reach.skips (reach : Reach n calls s) (inside : t < n) (call : calls[s.call t]? = some c)
    (op : c.op = .max) (at' : s.pc t = .combine j 0)
    (breaks : ∀ m, rdcBreak .max ((s.sub j).data m) ((s.current t).sendbuf m) = true) (k : Nat)
    (more : k ≤ min c.count (s.sub j).count) : Reach n calls (s.goto t (.combine j k)) := by
  induction k with
  | zero =>
      have same : s.goto t (.combine j 0) = s := by
        rw [goto, ← at', Function.update_eq_self]
      rw [same]
      exact reach
  | succ k ih =>
      have here : (s.goto t (.combine j k)).pc t = .combine j k := Function.update_self ..
      have skips : (s.goto t (.combine j k)).tmpiArdcoAllreduce n t c =
          some ((s.goto t (.combine j k)).goto t (.combine j (k + 1))) :=
        skip_max here op more (breaks k)
      have again : (s.goto t (.combine j k)).goto t (.combine j (k + 1)) =
          s.goto t (.combine j (k + 1)) := by
        simp [goto]
      have goes : (s.goto t (.combine j k)).step n calls (.run t) =
          some (s.goto t (.combine j (k + 1))) := by
        rw [← again, ← skips]
        change (calls[s.call t]?).bind _ = _
        rw [call, Option.bind_some]
      have member : (Act.run t).thread < n := inside
      exact .step (ih (Nat.le_of_succ_le more)) member goes

/-- A thread that copies a result of length 0. -/
theorem gather_empty (at' : s.pc t = .gather j) (all : (s.sub j).avail = n)
    (empty : intsLen (min c.count (s.sub j).count) = 0) :
    s.tmpiArdcoAllreduce n t c = some (s.goto t (.count j (s.current t))) := by
  have same : copyInts (s.current t).recvbuf (s.sub j).data 0 = (s.current t).recvbuf := by
    funext i
    simp [copyInts]
  simp [tmpiArdcoAllreduce, at', all, empty, memcpyInts, same]

/-- One maximum of 2^30 elements: its length is 0, so nobody copies a result, and the ones stay in
the receive buffers although both threads send zeros. -/
theorem allreduce_long : ∃ s : AllreduceObj, Reach 2 [⟨.max, 2^30⟩] s ∧
    ¬ s.Safe 2 [⟨.max, 2^30⟩] := by
  let zeros : Buffers := ⟨[], fun _ => 0, fun _ => 1⟩
  obtain ⟨s, runs, at', call, count, data, sent, f, rest, waits, all, same, begun, e, ends, past, args,
      result⟩ : ∃ s,
      create.run 2 [⟨.max, 2^30⟩] [.enter 0 zeros, .run 0, .run 0, .run 0, .enter 1 zeros, .run 1,
        .run 1] = some s ∧
      s.pc 1 = .combine 0 0 ∧ s.call 1 = 0 ∧ (s.sub 0).count = 2^30 ∧
      (∀ m, (s.sub 0).data m = 0) ∧ (∀ m, (s.current 1).sendbuf m = 0) ∧
      ∃ f, (s.goto 1 (.combine 0 (2^30))).run 2 [⟨.max, 2^30⟩] [.run 1, .run 1] = some f ∧
      f.pc 0 = .gather 0 ∧ (f.sub 0).avail = 2 ∧ (f.sub 0).count = 2^30 ∧ f.call 0 = 0 ∧
      ∃ e, (f.goto 0 (.count 0 (f.current 0))).run 2 [⟨.max, 2^30⟩] [.run 0, .run 0, .run 0] = some e ∧
      e.call 0 = 1 ∧ (fun t => (e.args 0 t).sendbuf 0) = (fun _ => 0) ∧
      (e.results 0 0).map (fun b => b.recvbuf 0) = some 1 :=
    ⟨_, rfl, rfl, rfl, rfl, fun _ => rfl, fun _ => rfl, _, rfl, rfl, rfl, rfl, rfl, _, rfl, rfl, by
      funext t
      rcases t with _ | _ | t <;> rfl, rfl⟩
  have reach := Reach.create.run (by decide) runs
  have combined : Reach 2 [⟨.max, 2^30⟩] (s.goto 1 (.combine 0 (2^30))) := by
    refine reach.skips (c := ⟨.max, 2^30⟩) (by decide) (by rw [call]; rfl) rfl at' (fun m => ?_) _ ?_
    · rw [data, sent]
      decide
    · rw [count]
      exact le_rfl
  have empty : f.step 2 [⟨.max, 2^30⟩] (.run 0) = some (f.goto 0 (.count 0 (f.current 0))) := by
    rw [step, begun]
    refine gather_empty waits all ?_
    rw [same, min_self]
    decide
  have first : (Act.run 0).thread < 2 := Nat.two_pos
  have gathered : Reach 2 [⟨.max, 2^30⟩] (f.goto 0 (.count 0 (f.current 0))) :=
    .step (combined.run (by decide) rest) first empty
  have returned : 0 < e.call 0 := by
    rw [past]
    exact Nat.one_pos
  refine ⟨e, gathered.run (by decide) ends, fun safe => ?_⟩
  have left := safe.result 0 ⟨.max, 2^30⟩ 0 rfl Nat.two_pos returned
  have zero : Coll.combined .max (Finset.range 2) (fun t => (e.args 0 t).sendbuf 0) = 0 := by
    rw [args]
    exact combined_zero .max Nat.two_pos
  rw [left] at result
  simp [copyInts, zero] at result

end Long

end AllreduceObj

end Tmpi.Coll
