import Tmpi.Coll.Invariant
import Mathlib.Data.Finset.Max
import Mathlib.Algebra.Order.BigOperators.Group.Finset

/-! No machine gets stuck in its collectives, and every run ends. -/

namespace Tmpi.Coll

open Chain

/-- The local id of the root. -/
def Collective.root : Collective → Nat
  | .bcast root _ => root
  | .reduce root .. => root

/-- The bytes of a reduce fit an `int`. -/
def Collective.Fits : Collective → Prop
  | .bcast .. => True
  | .reduce _ _ count => 4 * count < 2^31

/-- Thread `u` can make a step. -/
def Enabled (n : Nat) (calls : List Collective) (s : Objects) (u : Nat) : Prop :=
  (s.pc u = .idle ∧ ∀ b, ∃ s', step n s calls (.enter u b) = some s') ∨
  ∃ s', step n s calls (.run u) = some s'

section Stages

variable {s : Objects} {k t : Nat}

theorem of_stage_before (reached : k ≤ s.call t) (stage : s.stage k t = .before) :
    s.call t = k ∧ s.pc t = .idle := by
  unfold Objects.stage at stage
  split at stage
  next => cases stage
  next =>
    split at stage
    next => cases stage
    next out =>
      have here : s.call t = k := by omega
      exact ⟨here, by_contra fun busy => out ⟨here, busy⟩⟩

theorem of_stage_inside {pc : Pc} (stage : s.stage k t = .inside pc) :
    s.call t = k ∧ s.pc t = pc := by
  unfold Objects.stage at stage
  split at stage
  next => cases stage
  next =>
    split at stage
    next both => exact ⟨both.1, Stage.inside.inj stage⟩
    next => cases stage

end Stages

section Enabled

variable {n : Nat} {calls : List Collective} {s : Objects} {k t : Nat}

theorem enter_enabled (inv : Invariant n calls s) (several : 2 ≤ n) (inside : t < n)
    {c : Collective} (call : calls[s.call t]? = some c) (idle : s.pc t = .idle) :
    Enabled n calls s t := by
  refine .inl ⟨idle, fun b => ?_⟩
  rw [step, if_neg (not_not.mpr idle), call]
  cases c with
  | bcast root len =>
      obtain ⟨item, found, -⟩ := (inv.bco root).curitem inside
      rw [Option.bind_some, enter, if_neg (by omega), found]
      exact ⟨_, rfl⟩
  | reduce root op count =>
      obtain ⟨item, found, -⟩ := (inv.rdco root).curitem inside
      rw [Option.bind_some, enter, if_neg (by omega), found]
      exact ⟨_, rfl⟩

theorem before_enabled (inv : Invariant n calls s) (several : 2 ≤ n) (inside : t < n)
    {c : Collective} (call : calls[k]? = some c) (reached : k ≤ s.call t)
    (stage : s.stage k t = .before) : Enabled n calls s t := by
  obtain ⟨rfl, idle⟩ := of_stage_before reached stage
  exact enter_enabled inv several inside call idle

/-- A thread that is alone is never inside a call. -/
theorem alone_idle (alone : n < 2) (reach : Reach n calls s) : ∀ t < n, s.pc t = .idle := by
  induction reach with
  | create => exact fun _ _ => rfl
  | @step s s' act _ inside taken ih =>
      intro t member
      obtain rfl : act.thread = t := by omega
      cases act with
      | enter u b =>
          rw [step] at taken
          split at taken
          next => cases taken
          next =>
            obtain ⟨c, -, entered⟩ := Option.bind_eq_some_iff.mp taken
            cases c with
            | bcast root len =>
                rw [enter, if_pos alone] at entered
                cases entered
                exact Function.update_self ..
            | reduce root op count =>
                rw [enter, if_pos alone] at entered
                split at entered <;> cases entered
                exact Function.update_self ..
      | run u =>
          have idle : s.pc u = .idle := ih u inside
          rw [step] at taken
          split at taken
          next => cases taken
          next => simp [tmpiBcoBcast, idle] at taken
          next => simp [tmpiRdcoReduce, idle] at taken

theorem alone_enabled (alone : n < 2) (fits : ∀ c ∈ calls, c.Fits) (reach : Reach n calls s)
    (inside : t < n) (short : s.call t < calls.length) : Enabled n calls s t := by
  have idle := alone_idle alone reach t inside
  refine .inl ⟨idle, fun b => ?_⟩
  rw [step, if_neg (not_not.mpr idle), List.getElem?_eq_getElem short, Option.bind_some]
  have fit := fits _ (List.getElem_mem short)
  cases call : calls[s.call t] with
  | bcast root len =>
      rw [enter, if_pos alone]
      exact ⟨_, rfl⟩
  | reduce root op count =>
      rw [call] at fit
      rw [enter, if_pos alone, if_pos (intsLen_eq_iff.mpr fit)]
      exact ⟨_, rfl⟩

/-- Some thread of those that are furthest behind can go on with its broadcast. -/
theorem bcast_goes (inv : Invariant n calls s) (several : 2 ≤ n) {root len : Nat} (low : root < n)
    (call : calls[s.call t]? = some (.bcast root len)) (inside : t < n)
    (least : ∀ u < n, s.call t ≤ s.call u) : ∃ u < n, Enabled n calls s u := by
  by_cases idle : s.pc t = .idle
  · exact ⟨t, inside, enter_enabled inv several inside call idle⟩
  have runs : ∀ u, s.call u = s.call t → (∃ s', tmpiBcoBcast n s u root len = some s') →
      Enabled n calls s u := by
    intro u here taken
    refine .inr ?_
    rw [step, here, call]
    exact taken
  have stage := stage_now rfl idle
  obtain ⟨item, has⟩ : ∃ item, (s.pc t).item = some item := by
    cases at' : s.pc t with
    | idle => exact absurd at' idle
    | _ => exact ⟨_, rfl⟩
  cases bcast_cell inv call (bcast_slot inv inside call has) with
  | unposted cell =>
      have rooted := cell.stages root low
      cases at' : (s.party (s.call t)).stage root with
      | before => exact ⟨root, low, before_enabled inv several low call (least root low) at'⟩
      | after =>
          rw [at'] at rooted
          exact rooted.elim
      | inside pc =>
          obtain ⟨here, now⟩ := of_stage_inside at'
          rw [at'] at rooted
          refine ⟨root, low, runs root here ?_⟩
          cases pc with
          | post item => exact ⟨_, by rw [tmpiBcoBcast, now]⟩
          | await item => exact absurd rfl rooted
          | _ => exact rooted.elim
  | posted cell =>
      refine ⟨t, inside, runs t rfl ?_⟩
      have served := cell.served t inside
      unfold Served at served
      rw [stage] at served
      cases at' : s.pc t with
      | await item' =>
          have same : item' = item := by
            rw [at'] at has
            exact Option.some.inj has
          have avail : ((s.bco root).mem item').avail ≠ 0 := by
            rw [same, cell.avail]
            refine Finset.card_ne_zero.mpr ⟨root, ?_⟩
            exact Finset.mem_filter.mpr ⟨Finset.mem_range.mpr low, decide_eq_true cell.gone⟩
          rw [tmpiBcoBcast, at']
          simp only [if_neg avail]
          exact ⟨_, rfl⟩
      | depart item' data => exact ⟨_, by rw [tmpiBcoBcast, at']⟩
      | idle => exact absurd at' idle
      | _ =>
          rw [at'] at served
          exact served.elim

/-- A thread that has not been counted is not held up by a handle that is published. -/
theorem uncounted_goes {root count : Nat} {op : Option RdcOp}
    (here : s.call t = k) (call : calls[k]? = some (.reduce root op count))
    (busy : s.pc t ≠ .idle) {item : Nat} (has : (s.pc t).item = some item)
    (open' : ((s.rdco root).mem item).avail ≠ 0) (joined : Joined n root op count (s.party k) t)
    (away : ∀ a b, s.pc t ≠ .gather a b) : Enabled n calls s t := by
  refine .inr ?_
  subst here
  have stage := stage_now rfl busy
  unfold Joined at joined
  rw [stage] at joined
  rw [step, call]
  change ∃ s', tmpiRdcoReduce n s t root op count = some s'
  cases at' : s.pc t with
  | idle => exact absurd at' busy
  | look a =>
      simp only [tmpiRdcoReduce, at']
      split <;> exact ⟨_, rfl⟩
  | claim a b =>
      simp only [tmpiRdcoReduce, at']
      split <;> exact ⟨_, rfl⟩
  | await a =>
      rw [at', Pc.item, Option.some.injEq] at has
      simp only [tmpiRdcoReduce, at', has, if_neg open']
      exact ⟨_, rfl⟩
  | combine a i =>
      simp only [tmpiRdcoReduce, at']
      split <;> exact ⟨_, rfl⟩
  | bump a =>
      simp only [tmpiRdcoReduce, at']
      split <;> exact ⟨_, rfl⟩
  | gather a b => exact absurd at' (away a b)
  | _ =>
      rw [at'] at joined
      exact joined.elim

theorem reduce_goes (inv : Invariant n calls s) (several : 2 ≤ n) {root count : Nat} {op : Option RdcOp}
    (fit : 4 * count < 2^31) (call : calls[s.call t]? = some (.reduce root op count)) (inside : t < n)
    (least : ∀ u < n, s.call t ≤ s.call u) : ∃ u < n, Enabled n calls s u := by
  by_cases idle : s.pc t = .idle
  · exact ⟨t, inside, enter_enabled inv several inside call idle⟩
  have items : ∀ u, s.pc u ≠ .idle → ∃ item, (s.pc u).item = some item := by
    intro u busy
    cases at' : s.pc u with
    | idle => exact absurd at' busy
    | _ => exact ⟨_, rfl⟩
  obtain ⟨item, has⟩ := items t idle
  have slot := reduce_slot inv inside call has
  have stage := stage_now rfl idle
  have runs : ∀ u, s.call u = s.call t → (∃ s', tmpiRdcoReduce n s u root op count = some s') →
      Enabled n calls s u := by
    intro u here taken
    refine .inr ?_
    rw [step, here, call]
    exact taken
  cases reduce_cell inv call slot with
  | unclaimed cell =>
      have early := cell.stages t inside
      rw [stage] at early
      refine ⟨t, inside, runs t rfl ?_⟩
      cases at' : s.pc t with
      | look a =>
          simp only [tmpiRdcoReduce, at']
          split <;> exact ⟨_, rfl⟩
      | claim a b =>
          simp only [tmpiRdcoReduce, at']
          split <;> exact ⟨_, rfl⟩
      | _ =>
          rw [at'] at early
          cases early
  | claimed cell =>
      obtain ⟨f, low, ⟨a, b, first⟩, -⟩ := cell.first
      obtain ⟨here, now⟩ := of_stage_inside first
      refine ⟨f, low, runs f here ?_⟩
      simp only [tmpiRdcoReduce, now, if_neg (not_not.mpr (intsLen_eq_iff.mpr fit))]
      split <;> exact ⟨_, rfl⟩
  | published cell =>
      have open' : ((s.rdco root).mem item).avail ≠ 0 := by
        have begun := cell.begun
        rw [cell.avail]
        omega
      by_cases waits : ∃ a b, s.pc t = .gather a b
      · obtain ⟨a, b, at'⟩ := waits
        have same : a = item := by
          rw [at'] at has
          exact Option.some.inj has
        subst same
        by_cases full : ((s.rdco root).mem a).avail = n
        · refine ⟨t, inside, runs t rfl ?_⟩
          simp only [tmpiRdcoReduce, at', if_neg (not_not.mpr full)]
          exact ⟨_, rfl⟩
        · -- some thread has not been counted yet
          obtain ⟨u, member, missing⟩ : ∃ u < n, ((s.party (s.call t)).stage u).arrived = false := by
            by_contra all
            push Not at all
            apply full
            rw [cell.avail]
            have whole : threads n (fun u => ((s.party (s.call t)).stage u).arrived) =
                Finset.range n := by
              refine Finset.filter_eq_self.mpr fun u member => ?_
              simpa using all u (Finset.mem_range.mp member)
            rw [whole, Finset.card_range]
          have joined := cell.joined u member
          refine ⟨u, member, ?_⟩
          cases at'' : (s.party (s.call t)).stage u with
          | before => exact before_enabled inv several member call (least u member) at''
          | after =>
              rw [at''] at missing
              cases missing
          | inside pc =>
              obtain ⟨here, now⟩ := of_stage_inside at''
              have busy : s.pc u ≠ .idle := by
                intro still
                rw [now] at still
                unfold Joined at joined
                rw [at'', still] at joined
                exact joined
              obtain ⟨item', has'⟩ := items u busy
              have slot' := reduce_slot inv member (by rw [here]; exact call) has'
              rw [here, slot, Option.some.injEq] at slot'
              refine uncounted_goes here call busy has' (by rw [← slot']; exact open') joined ?_
              intro a b at'''
              rw [now] at at'''
              rw [at'', at'''] at missing
              cases missing
      · push Not at waits
        exact ⟨t, inside, uncounted_goes rfl call idle has open' (cell.joined t inside) waits⟩

/-- As long as some thread has a call to make or to finish, some thread can make a step. -/
theorem reach_goes (roots : ∀ c ∈ calls, c.root < n) (fits : ∀ c ∈ calls, c.Fits)
    (reach : Reach n calls s) (inside : t < n) (short : s.call t < calls.length) :
    ∃ u < n, Enabled n calls s u := by
  rcases Nat.lt_or_ge n 2 with alone | several
  · exact ⟨t, inside, alone_enabled alone fits reach inside short⟩
  have inv := reach_invariant several reach
  obtain ⟨u, member, least⟩ := (Finset.range n).exists_min_image s.call ⟨t, Finset.mem_range.mpr inside⟩
  have low := Finset.mem_range.mp member
  have behind : ∀ v < n, s.call u ≤ s.call v := fun v there => least v (Finset.mem_range.mpr there)
  have short' : s.call u < calls.length := lt_of_le_of_lt (behind t inside) short
  have call := List.getElem?_eq_getElem short'
  have root := roots _ (List.getElem_mem short')
  have fit := fits _ (List.getElem_mem short')
  cases c : calls[s.call u] with
  | bcast r len =>
      rw [c] at call root
      exact bcast_goes inv several root call low behind
  | reduce r op count =>
      rw [c] at call fit
      exact reduce_goes inv several fit call low behind

end Enabled

/-! ## Every run ends -/

/-- How many elements a call combines. -/
def Collective.count : Collective → Nat
  | .bcast .. => 0
  | .reduce _ _ count => count

/-- How many steps a thread has left in its call, at most. -/
def Pc.rank (count : Nat) : Pc → Nat
  | .idle => count + 7
  | .look _ => count + 6
  | .claim .. => count + 5
  | .await _ => count + 4
  | .combine _ i => count - i + 3
  | .publish .. | .bump _ => 2
  | .post _ | .depart .. | .gather .. => 1

/-- What a step changes of the threads: one of them goes on in its call, or returns. -/
def Passes (count : Nat) (s s' : Objects) (t : Nat) : Prop :=
  (∃ pc, s'.pc = Function.update s.pc t pc ∧ s'.call = s.call ∧
    pc.rank count < (s.pc t).rank count) ∨
  (s'.pc = Function.update s.pc t .idle ∧ s'.call = Function.update s.call t (s.call t + 1))

section Ends

variable {n : Nat} {calls : List Collective} {s s' : Objects} {t : Nat}

theorem enter_passes {b : Buffers} {c : Collective} (idle : s.pc t = .idle)
    (taken : enter n s t b c = some s') : Passes c.count s s' t ∧
      s'.args = Function.update s.args (s.call t) (Function.update (s.args (s.call t)) t b) := by
  cases c with
  | bcast root len =>
      rw [enter] at taken
      split at taken
      next =>
        cases taken
        exact ⟨.inr ⟨rfl, rfl⟩, rfl⟩
      next =>
        obtain ⟨item, -, rfl⟩ := Option.map_eq_some_iff.mp taken
        refine ⟨.inl ⟨_, rfl, rfl, ?_⟩, rfl⟩
        rw [idle]
        split <;> simp [Pc.rank]
  | reduce root op count =>
      rw [enter] at taken
      split at taken
      next =>
        split at taken <;> cases taken
        exact ⟨.inr ⟨rfl, rfl⟩, rfl⟩
      next =>
        obtain ⟨item, -, rfl⟩ := Option.map_eq_some_iff.mp taken
        refine ⟨.inl ⟨_, rfl, rfl, ?_⟩, rfl⟩
        rw [idle]
        simp [Pc.rank]

theorem bcast_passes {root len : Nat} (taken : tmpiBcoBcast n s t root len = some s') :
    Passes 0 s s' t ∧ s'.args = s.args := by
  cases at' : s.pc t with
  | post item =>
      simp only [tmpiBcoBcast, at', Option.some.injEq] at taken
      subst taken
      exact ⟨.inr ⟨rfl, rfl⟩, rfl⟩
  | await item =>
      simp only [tmpiBcoBcast, at'] at taken
      split at taken
      next => cases taken
      next =>
        cases taken
        refine ⟨.inl ⟨_, rfl, rfl, ?_⟩, rfl⟩
        rw [at']
        simp [Pc.rank]
  | depart item data =>
      simp only [tmpiBcoBcast, at', Option.some.injEq] at taken
      subst taken
      exact ⟨.inr ⟨rfl, rfl⟩, rfl⟩
  | _ => simp [tmpiBcoBcast, at'] at taken

theorem reduce_passes {root count : Nat} {op : Option RdcOp}
    (taken : tmpiRdcoReduce n s t root op count = some s') :
    Passes count s s' t ∧ s'.args = s.args := by
  have goes : ∀ q pc, pc.rank count < (s.pc t).rank count →
      Passes count s ((s.setRdco root q).goto t pc) t ∧ ((s.setRdco root q).goto t pc).args = s.args :=
    fun q pc less => ⟨.inl ⟨pc, rfl, rfl, less⟩, rfl⟩
  have stays : ∀ pc, pc.rank count < (s.pc t).rank count →
      Passes count s (s.goto t pc) t ∧ (s.goto t pc).args = s.args :=
    fun pc less => ⟨.inl ⟨pc, rfl, rfl, less⟩, rfl⟩
  have leaves : ∀ q b, Passes count s ((s.setRdco root q).leave t b) t ∧
      ((s.setRdco root q).leave t b).args = s.args :=
    fun q b => ⟨.inr ⟨rfl, rfl⟩, rfl⟩
  cases at' : s.pc t with
  | look item =>
      simp only [tmpiRdcoReduce, at'] at taken
      split at taken <;> cases taken
      · exact goes _ _ (by simp [at', Pc.rank])
      · exact stays _ (by simp [at', Pc.rank])
  | claim item newitem =>
      simp only [tmpiRdcoReduce, at'] at taken
      split at taken <;> cases taken
      · exact goes _ _ (by simp [at', Pc.rank])
      · exact goes _ _ (by simp [at', Pc.rank])
  | publish item newitem =>
      simp only [tmpiRdcoReduce, at'] at taken
      split at taken
      next => cases taken
      split at taken <;> cases taken
      · exact goes _ _ (by simp [at', Pc.rank])
      · exact leaves _ _
  | await item =>
      simp only [tmpiRdcoReduce, at'] at taken
      split at taken <;> cases taken
      exact stays _ (by simp [at', Pc.rank])
  | combine item i =>
      simp only [tmpiRdcoReduce, at'] at taken
      split at taken <;> cases taken
      next more =>
        refine goes _ _ ?_
        simp only [at', Pc.rank]
        omega
      next => exact goes _ _ (by simp [at', Pc.rank])
  | bump item =>
      simp only [tmpiRdcoReduce, at'] at taken
      split at taken <;> cases taken
      · exact goes _ _ (by simp [at', Pc.rank])
      · exact leaves _ _
  | gather item newitem =>
      simp only [tmpiRdcoReduce, at'] at taken
      split at taken <;> cases taken
      exact leaves _ _
  | _ => simp [tmpiRdcoReduce, at'] at taken

/-- The buffers that a step brings in. -/
def Act.buffers (s : Objects) : Act → Nat → Nat → Buffers
  | .enter t b => Function.update s.args (s.call t) (Function.update (s.args (s.call t)) t b)
  | .run _ => s.args

theorem step_passes {act : Act} (taken : step n s calls act = some s') :
    ∃ c, calls[s.call act.thread]? = some c ∧ Passes c.count s s' act.thread ∧
      s'.args = act.buffers s := by
  cases act with
  | enter t b =>
      rw [step] at taken
      split at taken
      next => cases taken
      next idle =>
        obtain ⟨c, call, entered⟩ := Option.bind_eq_some_iff.mp taken
        exact ⟨c, call, enter_passes (not_not.mp idle) entered⟩
  | run t =>
      rw [step] at taken
      split at taken
      next => cases taken
      next call => exact ⟨_, call, bcast_passes taken⟩
      next call => exact ⟨_, call, reduce_passes taken⟩

/-- How many steps thread `t` has left, at most. -/
def left (calls : List Collective) (s : Objects) (t : Nat) : Nat :=
  ((calls.drop (s.call t + 1)).map fun c => c.count + 7).sum +
    (calls[s.call t]?).elim 0 fun c => (s.pc t).rank c.count

theorem left_idle {k : Nat} (here : s.call t = k) (idle : s.pc t = .idle) :
    left calls s t = ((calls.drop k).map fun c => c.count + 7).sum := by
  rw [left, here, idle]
  by_cases inside : k < calls.length
  · rw [List.getElem?_eq_getElem inside, List.drop_eq_getElem_cons inside, List.map_cons,
      List.sum_cons]
    simp only [Option.elim, Pc.rank]
    omega
  · rw [List.getElem?_eq_none (by omega), List.drop_of_length_le (by omega),
      List.drop_of_length_le (by omega)]
    rfl

theorem passes_left {c : Collective} (call : calls[s.call t]? = some c)
    (passes : Passes c.count s s' t) : left calls s' t < left calls s t ∧
      ∀ u, u ≠ t → left calls s' u = left calls s u := by
  rcases passes with ⟨pc, pcs, same, less⟩ | ⟨pcs, counts⟩
  · refine ⟨?_, fun u other => ?_⟩
    · rw [left, left, same, call, pcs, Function.update_self]
      simpa using less
    · rw [left, left, same, pcs, Function.update_of_ne other]
  · refine ⟨?_, fun u other => ?_⟩
    · have next : s'.call t = s.call t + 1 := by rw [counts, Function.update_self]
      have idle : s'.pc t = .idle := by rw [pcs, Function.update_self]
      have positive : 0 < (s.pc t).rank c.count := by
        cases s.pc t <;> simp [Pc.rank]
      rw [left_idle next idle, left, call]
      simpa using positive
    · rw [left, left, counts, pcs, Function.update_of_ne other, Function.update_of_ne other]

/-- Every step brings a machine nearer to its end. -/
theorem step_left {act : Act} (inside : act.thread < n) (taken : step n s calls act = some s') :
    ∑ t ∈ Finset.range n, left calls s' t < ∑ t ∈ Finset.range n, left calls s t := by
  obtain ⟨c, call, passes, -⟩ := step_passes taken
  obtain ⟨less, others⟩ := passes_left call passes
  refine Finset.sum_lt_sum (fun u _ => ?_) ⟨_, Finset.mem_range.mpr inside, less⟩
  by_cases self : u = act.thread
  · rw [self]
    exact less.le
  · rw [others u self]

/-- The threads have passed `buf` to their calls. -/
def Given (buf : Nat → Nat → Buffers) (s : Objects) : Prop :=
  ∀ t k, k < s.call t ∨ (k = s.call t ∧ s.pc t ≠ .idle) → s.args k t = buf k t

theorem given_step {buf : Nat → Nat → Buffers} {act : Act} (given : Given buf s)
    (fits : ∀ t b, act = .enter t b → b = buf (s.call t) t)
    (taken : step n s calls act = some s') : Given buf s' := by
  obtain ⟨c, call, passes, args⟩ := step_passes taken
  intro u k begun
  rw [args]
  have before : u ≠ act.thread → k < s.call u ∨ (k = s.call u ∧ s.pc u ≠ .idle) := by
    intro other
    rcases passes with ⟨pc, pcs, same, -⟩ | ⟨pcs, counts⟩
    · rwa [same, pcs, Function.update_of_ne other] at begun
    · rwa [counts, pcs, Function.update_of_ne other, Function.update_of_ne other] at begun
  have own : u = act.thread → k < s.call u ∨ k = s.call u := by
    rintro rfl
    rcases passes with ⟨pc, pcs, same, -⟩ | ⟨pcs, counts⟩
    · rw [same] at begun
      exact begun.imp id And.left
    · rw [counts, pcs, Function.update_self, Function.update_self] at begun
      rcases begun with past | ⟨-, busy⟩
      · omega
      · exact absurd rfl busy
  cases act with
  | enter t b =>
      have passed := fits t b rfl
      by_cases self : u = t
      · subst self
        rcases own rfl with past | now
        · rw [Act.buffers, Function.update_of_ne past.ne]
          exact given u k (.inl past)
        · rw [Act.buffers, now, Function.update_self, Function.update_self, passed]
      · have kept := given u k (before self)
        by_cases now : k = s.call t
        · rw [Act.buffers, now, Function.update_self, Function.update_of_ne self, ← now]
          exact kept
        · rw [Act.buffers, Function.update_of_ne now]
          exact kept
  | run t =>
      by_cases self : u = t
      · subst self
        rcases own rfl with past | now
        · exact given u k (.inl past)
        · refine given u k (.inr ⟨now, fun idle => ?_⟩)
          -- an idle thread does not run
          have runs := taken
          rw [step] at runs
          split at runs
          next => cases runs
          next => simp [tmpiBcoBcast, idle] at runs
          next => simp [tmpiRdcoReduce, idle] at runs
      · exact given u k (before self)

/-- Every run can be brought to its end, whatever the threads pass to their calls. -/
theorem run_ends (roots : ∀ c ∈ calls, c.root < n) (fits : ∀ c ∈ calls, c.Fits)
    (buf : Nat → Nat → Buffers) (reach : Reach n calls s) (given : Given buf s) :
    ∃ s', Reach n calls s' ∧ (∀ t < n, calls.length ≤ s'.call t) ∧ Given buf s' := by
  induction measure : ∑ t ∈ Finset.range n, left calls s t using Nat.strong_induction_on
    generalizing s with
  | _ m ih =>
      by_cases done : ∀ t < n, calls.length ≤ s.call t
      · exact ⟨s, reach, done, given⟩
      push Not at done
      obtain ⟨t, inside, short⟩ := done
      obtain ⟨u, low, ⟨-, enters⟩ | ⟨s', taken⟩⟩ := reach_goes roots fits reach inside short
      · obtain ⟨s', taken⟩ := enters (buf (s.call u) u)
        have member : (Act.enter u (buf (s.call u) u)).thread < n := low
        have kept := given_step given (fun v b same => by cases same; rfl) taken
        exact ih _ (measure ▸ step_left member taken) (reach.step member taken) kept rfl
      · have member : (Act.run u).thread < n := low
        have kept := given_step given (fun v b same => by cases same) taken
        exact ih _ (measure ▸ step_left member taken) (reach.step member taken) kept rfl

end Ends

/-! ## Results -/

section Results

variable {n : Nat} {calls : List Collective} {s s' : Objects} {t : Nat}

/-- A call of a thread that is alone leaves what it should. -/
theorem alone_enters (alone : n < 2) (low : t < n) {b : Buffers} {c : Collective}
    (root : c.root < n) (taken : enter n s t b c = some s') :
    s'.call t = s.call t + 1 ∧
      (∀ k, k ≠ s.call t → s'.results k = s.results k ∧ s'.args k = s.args k) ∧
      ∃ b', s'.results (s.call t) t = some b' ∧ c.Leaves n (s'.args (s.call t)) t b' := by
  obtain rfl : t = 0 := by omega
  obtain rfl : n = 1 := by omega
  obtain here : c.root = 0 := by omega
  cases c with
  | bcast r len =>
      obtain rfl : r = 0 := here
      rw [enter, if_pos alone, Option.some.injEq] at taken
      subst taken
      refine ⟨by simp [Objects.leave, Objects.pass], fun k away => ⟨Function.update_of_ne away ..,
        Function.update_of_ne away ..⟩, ?_⟩
      have passed : ((s.pass 0 b).leave 0 b).args (s.call 0) 0 = b := by
        simp [Objects.leave, Objects.pass]
      refine ⟨b, by simp [Objects.leave, Objects.pass], ?_⟩
      change b = bcastResult 0 len _ 0
      rw [bcastResult, if_pos rfl, passed]
  | reduce r op count =>
      obtain rfl : r = 0 := here
      rw [enter, if_pos alone] at taken
      split at taken <;> cases taken
      refine ⟨by simp [Objects.leave, Objects.pass], fun k away => ⟨Function.update_of_ne away ..,
        Function.update_of_ne away ..⟩, ?_⟩
      set b' : Buffers := { b with recvbuf := copyInts b.recvbuf b.sendbuf count }
      have passed : ((s.pass 0 b).leave 0 b').args (s.call 0) 0 = b := by
        simp [Objects.leave, Objects.pass]
      refine ⟨b', by simp [Objects.leave, Objects.pass], ?_⟩
      change Reduced 1 0 op count _ 0 _
      rw [Reduced, if_pos rfl]
      refine ⟨b.sendbuf, fun i _ => ?_, by rw [passed]⟩
      have only := totals_singleton op 0 fun u =>
        ((((s.pass 0 b).leave 0 b').args (s.call 0)) u).sendbuf i
      rw [passed] at only
      exact only

theorem alone_past (alone : n < 2) (roots : ∀ c ∈ calls, c.root < n) (reach : Reach n calls s) :
    ∀ t < n, ∀ k c, calls[k]? = some c → k < s.call t →
      ∃ b, s.results k t = some b ∧ c.Leaves n (s.args k) t b := by
  induction reach with
  | create => exact fun t _ k _ _ past => absurd past (Nat.not_lt_zero k)
  | @step s s' act reached inside taken ih =>
      intro t low k c call past
      obtain rfl : act.thread = t := by omega
      have idle := alone_idle alone reached _ low
      cases act with
      | enter t b =>
          rw [step] at taken
          split at taken
          next => cases taken
          next =>
            obtain ⟨c', call', entered⟩ := Option.bind_eq_some_iff.mp taken
            have member : t < n := low
            obtain ⟨next, others, now⟩ := alone_enters alone member
              (roots c' (List.mem_of_getElem? call')) entered
            change k < s'.call t at past
            change ∃ b, s'.results k t = some b ∧ c.Leaves n (s'.args k) t b
            rw [next] at past
            by_cases same : k = s.call t
            · subst same
              rw [call, Option.some.injEq] at call'
              subst call'
              exact now
            · obtain ⟨results, args⟩ := others k same
              rw [results, args]
              have earlier : k < s.call t := by omega
              exact ih t member k c call earlier
      | run t =>
          rw [step] at taken
          split at taken
          next => cases taken
          next => simp [tmpiBcoBcast, show s.pc t = .idle from idle] at taken
          next => simp [tmpiRdcoReduce, show s.pc t = .idle from idle] at taken

/-- A thread that has returned from a call has what the call is to leave with it. -/
theorem reach_results (roots : ∀ c ∈ calls, c.root < n) (reach : Reach n calls s) {k : Nat}
    {c : Collective} (call : calls[k]? = some c) (inside : t < n) (past : k < s.call t) :
    ∃ b, s.results k t = some b ∧ c.Leaves n (s.args k) t b := by
  rcases Nat.lt_or_ge n 2 with alone | several
  · exact alone_past alone roots reach t inside k c call past
  · exact reach_past several reach call inside past

/-- Nobody leaves a broadcast before its root, and the root leaves a reduce last. -/
theorem reach_meets (reach : Reach n calls s) {k u : Nat} {c : Collective}
    (call : calls[k]? = some c) (inside : t < n) (past : k < s.call t) (there : u < n) :
    match c with
    | .bcast root _ => u = root → k < s.call u
    | .reduce root _ _ => t = root → k < s.call u := by
  rcases Nat.lt_or_ge n 2 with alone | several
  · have same : u = t := by omega
    subst same
    cases c with
    | bcast => exact fun _ => past
    | reduce => exact fun _ => past
  have inv := reach_invariant several reach
  have stage : (s.party k).stage t = .after := Objects.stage_past past
  have gone : (s.party k).stage u = .after → k < s.call u := by
    intro after
    by_contra early
    change s.stage k u = .after at after
    rw [Objects.stage, if_neg early] at after
    split at after <;> cases after
  cases c with
  | bcast root len =>
      rintro rfl
      have on : onCall (bcastKind n u).on calls k = true := by simp [onCall, call, bcastKind]
      cases slot : nth (s.bco u).next 0 (turn (bcastKind n u).on calls k) with
      | none =>
          have before := (inv.bco u).untouched on slot inside
          exact absurd (before.symm.trans stage) (by simp)
      | some a =>
          have cell := (inv.bco u).cell k _ call (bcast_user n u len) a slot
          exact gone (BcastCell.left cell inside stage).2.1
  | reduce root op count =>
      rintro rfl
      have on : onCall (reduceKind n t).on calls k = true := by simp [onCall, call, reduceKind]
      cases slot : nth (s.rdco t).next 0 (turn (reduceKind n t).on calls k) with
      | none =>
          have before := (inv.rdco t).untouched on slot inside
          exact absurd (before.symm.trans stage) (by simp)
      | some a =>
          have cell := (inv.rdco t).cell k _ call (reduce_user n t count op) a slot
          exact gone ((ReduceCell.left cell inside stage).2.2 rfl u there)

end Results

end Tmpi.Coll
