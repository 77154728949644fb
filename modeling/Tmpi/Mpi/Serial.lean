import Tmpi.Mpi.Single

/-! The `netq_*` calls that the threads of one machine make in the collectives of
`MPI_COMM_WORLD` when there are several machines.

The thread with the id `local_root` calls `netq_bcast` before `tmpi_bco_bcast`, `netq_reduce` after
`tmpi_rdco_reduce`, and thread 0 calls `netq_allreduce` between the two. `netq.c` says that these
calls have to be serialized, and that they are. -/

namespace Tmpi.Mpi

open Coll Netq

/-- A call on `MPI_COMM_WORLD`; the root is a global rank. The reduces are of `int`s. -/
inductive WorldCall where
  | bcast (root : Int) (len : Nat)
  | reduce (root : Int) (op : Option RdcOp) (count : Nat)
  | allreduce (op : Option RdcOp) (count : Nat)
  deriving DecidableEq, Repr

namespace WorldCall

variable (info : Info)

/-- The bytes of the elements that the thread reduces or broadcasts. -/
def bytes : WorldCall → Nat
  | bcast _ len => len
  | reduce _ _ count | allreduce _ count => 4 * count

/-- `tmpi_Reduce` and `tmpi_Allreduce` return `MPI_ERR_INTERN` without a `tmp_buf`, before they call
anything, and `malloc` has none of a negative `buflen`. -/
def enters : WorldCall → Bool
  | bcast .. => true
  | reduce _ _ count | allreduce _ count => 0 ≤ intsLen count

/-- The bytes of a reduce fit an `int`. -/
def Small : WorldCall → Prop
  | bcast .. => True
  | reduce _ _ count | allreduce _ count => 4 * count < 2^31

theorem small_of_enters {c : WorldCall} (enters : c.enters = true) (bytes : c.bytes < 2^32) :
    c.Small := by
  have fits : ∀ {count : Nat}, 0 ≤ intsLen count → 4 * count < 2^32 → 4 * count < 2^31 := by
    intro count nonneg most
    obtain ⟨k, parts⟩ := exists_wrap (4 * count)
    have above := wrap_lt (4 * count)
    rw [intsLen] at nonneg
    omega
  cases c with
  | bcast => trivial
  | reduce | allreduce =>
      simp only [WorldCall.enters, WorldCall.bytes, decide_eq_true_eq] at enters bytes
      exact fits enters bytes

/-- The thread that makes the `netq_*` call. -/
def caller : WorldCall → Nat
  | bcast root _ => (localRoot info root).toNat
  | reduce root _ _ => (localRoot info root).toNat
  | allreduce _ _ => 0

/-- What a thread calls on its machine in the `k`-th call that gets so far, each with the number of
the `netq_*` calls that come before it. -/
def locals (k : Nat) : WorldCall → List (Collective × Nat)
  | bcast root len => [(.bcast (localRoot info root).toNat (len % 2^32), k + 1)]
  | reduce root op count => [(.reduce (localRoot info root).toNat op count, k)]
  | allreduce op count => [(.reduce 0 op count, k), (.bcast 0 (count * 4), k + 1)]

end WorldCall

namespace Serial

/-- What each thread calls on its machine, from the `k`-th call on. -/
def parts (info : Info) : Nat → List WorldCall → List (Collective × Nat)
  | _, [] => []
  | k, c :: calls => c.locals info k ++ parts info (k + 1) calls

section

variable (info : Info) (calls : List WorldCall)

def collectives : List Collective := (parts info 0 calls).map Prod.fst

/-- How many `netq_*` calls of the machine come before the `j`-th local one. -/
def due (j : Nat) : Nat := ((parts info 0 calls)[j]?.map Prod.snd).getD calls.length

/-- How many of the first `k` calls have thread `t` for their caller. -/
def turn (t k : Nat) : Nat := (calls.take k).countP fun c => c.caller info = t

end

/-- The objects of the machine, how many `netq_*` calls each thread has returned from, and whether it
is in one. -/
structure Machine where
  objs : Objects
  made : Nat → Nat
  calling : Nat → Bool

inductive Act where
  | enter (t : Nat) (b : Buffers)
  | run (t : Nat)
  | call (t : Nat)
  | leave (t : Nat)

def Act.thread : Act → Nat
  | enter t _ => t
  | run t => t
  | call t => t
  | leave t => t

section

variable (info : Info) (calls : List WorldCall) (n : Nat)

/-- A step of the machine. A thread makes its calls in their order. When a `netq_*` call returns is
left open. -/
def step (s : Machine) : Act → Option Machine
  | .enter t b =>
      if s.calling t ∨ s.made t < turn info calls t (due info calls (s.objs.call t)) then none
      else (Coll.step n s.objs (collectives info calls) (.enter t b)).map fun objs => { s with objs }
  | .run t => (Coll.step n s.objs (collectives info calls) (.run t)).map fun objs => { s with objs }
  | .call t =>
      if s.objs.pc t = .idle ∧ s.calling t = false ∧
          s.made t < turn info calls t (due info calls (s.objs.call t)) then
        some { s with calling := Function.update s.calling t true }
      else none
  | .leave t =>
      if s.calling t then
        some { s with
          calling := Function.update s.calling t false
          made := Function.update s.made t (s.made t + 1) }
      else none

/-- Runs of the threads `0, .., n - 1`. -/
inductive Reach : Machine → Prop where
  | create : Reach ⟨create, fun _ => 0, fun _ => false⟩
  | step {s s' act} : Reach s → act.thread < n → step info calls n s act = some s' → Reach s'

end

/-! ## Turns -/

section Turns

variable {info : Info} {calls : List WorldCall} {t g k j : Nat} {c : WorldCall}

theorem turn_succ (call : calls[g]? = some c) :
    turn info calls t (g + 1) = turn info calls t g + if c.caller info = t then 1 else 0 := by
  rw [turn, turn, List.take_add_one, List.countP_append, call]
  simp [List.countP_singleton]

theorem turn_mono (le : g ≤ k) : turn info calls t g ≤ turn info calls t k := by
  apply List.Sublist.countP_le
  exact List.take_sublist_take_left le

theorem turn_lt (call : calls[g]? = some c) (before : g < k) :
    turn info calls (c.caller info) g < turn info calls (c.caller info) k := by
  calc
    _ < turn info calls (c.caller info) (g + 1) := by
      rw [turn_succ call, if_pos rfl]
      exact Nat.lt_succ_self _
    _ ≤ _ := turn_mono before

/-- The call that is next for a thread. -/
theorem exists_turn {m : Nat} (more : m < turn info calls t k) :
    ∃ g c, g < k ∧ calls[g]? = some c ∧ c.caller info = t ∧ turn info calls t g = m := by
  induction k with
  | zero => exact absurd more (Nat.not_lt_zero m)
  | succ k ih =>
      by_cases early : m < turn info calls t k
      · obtain ⟨g, c, below, rest⟩ := ih early
        exact ⟨g, c, Nat.lt_succ_of_lt below, rest⟩
      · cases call : calls[k]? with
        | none =>
            have same : turn info calls t (k + 1) = turn info calls t k := by
              rw [turn, turn, List.take_add_one, call, Option.toList_none, List.append_nil]
            omega
        | some c =>
            rw [turn_succ call] at more
            split at more
            next own => exact ⟨k, c, Nat.lt_succ_self k, call, own, by omega⟩
            next => omega

end Turns

/-! ## Where the `netq_*` calls are -/

section Places

variable {info : Info} {calls : List WorldCall}

/-- No `tmpi_Reduce` is followed by a `tmpi_Bcast` for which another thread is the local root. -/
def Smooth (info : Info) (calls : List WorldCall) : Prop :=
  ∀ k root op count root' len, calls[k]? = some (.reduce root op count) →
    calls[k + 1]? = some (.bcast root' len) → localRoot info root = localRoot info root'

/-- What is due before part `j`. -/
def limit (info : Info) (k : Nat) (calls : List WorldCall) (j : Nat) : Nat :=
  ((parts info k calls)[j]?.map Prod.snd).getD (k + calls.length)

theorem parts_cons (c : WorldCall) (k j : Nat) :
    (parts info k (c :: calls))[(c.locals info k).length + j]? = (parts info (k + 1) calls)[j]? := by
  rw [parts, List.getElem?_append_right (Nat.le_add_right _ _), Nat.add_sub_cancel_left]

theorem limit_cons (c : WorldCall) (k j : Nat) :
    limit info k (c :: calls) ((c.locals info k).length + j) = limit info (k + 1) calls j := by
  rw [limit, limit, parts_cons, List.length_cons]
  congr 1
  omega

theorem le_limit (k j : Nat) : k ≤ limit info k calls j := by
  induction calls generalizing k j with
  | nil => simp [limit, parts]
  | cons c calls ih =>
      by_cases inside : j < (c.locals info k).length
      · rw [limit, parts, List.getElem?_append_left inside]
        cases c <;> simp [WorldCall.locals] at inside ⊢
        · simp [inside]
        · simp [inside]
        · obtain rfl | rfl : j = 0 ∨ j = 1 := by omega
          · simp
          · simp
      · obtain ⟨i, rfl⟩ := Nat.exists_eq_add_of_le (not_lt.mp inside)
        rw [limit_cons]
        exact (Nat.le_succ k).trans (ih (k + 1) i)

theorem limit_zero (k : Nat) : limit info k calls 0 ≤ k + 1 ∧
    (limit info k calls 0 = k + 1 → ∃ root len, calls[0]? = some (.bcast root len)) := by
  cases calls with
  | nil => simp [limit, parts]
  | cons c calls => cases c <;> simp [limit, parts, WorldCall.locals]

theorem Smooth.tail {c : WorldCall} (smooth : Smooth info (c :: calls)) : Smooth info calls := by
  intro k root op count root' len first second
  exact smooth (k + 1) root op count root' len first second

/-- The part that a thread has gone through right before its `netq_*` call number `g`: one in which
it has met the thread with the call before, if it is not that thread itself. -/
def Behind (info : Info) (k : Nat) (calls : List WorldCall) (i g : Nat) (c : WorldCall) : Prop :=
  (∃ op count, (parts info k calls)[i]? = some (.reduce (c.caller info) op count, k + g)) ∨
    ∃ h c', g = h + 1 ∧ calls[h]? = some c' ∧
      ((∃ len, (parts info k calls)[i]? = some (.bcast (c'.caller info) len, k + g)) ∨
        c'.caller info = c.caller info)

theorem Behind.cons {k i g : Nat} {c first : WorldCall} (behind : Behind info (k + 1) calls i g c) :
    Behind info k (first :: calls) ((first.locals info k).length + i) (g + 1) c := by
  have number : k + (g + 1) = k + 1 + g := by omega
  rcases behind with ⟨op, count, part⟩ | ⟨h, c', rfl, call, rest⟩
  · refine .inl ⟨op, count, ?_⟩
    rw [parts_cons, part, number]
  · refine .inr ⟨h + 1, c', rfl, call, ?_⟩
    rcases rest with ⟨len, part⟩ | same
    · refine .inl ⟨len, ?_⟩
      rw [parts_cons, part, number]
    · exact .inr same

theorem crossing {k j g : Nat} {c : WorldCall} (smooth : Smooth info calls)
    (call : calls[g]? = some c) (more : k + g < limit info k calls j)
    (reached : ∀ i, j = i + 1 → limit info k calls i ≤ k + g) :
    (j = 0 ∧ g = 0) ∨ ∃ i, j = i + 1 ∧ Behind info k calls i g c := by
  induction calls generalizing k j g with
  | nil => cases call
  | cons first calls ih =>
      by_cases inside : j < (first.locals info k).length
      · rw [limit, parts, List.getElem?_append_left inside] at more
        cases first with
        | bcast root len =>
            obtain rfl : j = 0 := Nat.lt_one_iff.mp inside
            have early : k + g < k + 1 := more
            exact .inl ⟨rfl, by omega⟩
        | reduce root op count =>
            obtain rfl : j = 0 := Nat.lt_one_iff.mp inside
            have early : k + g < k := more
            omega
        | allreduce op count =>
            have two : j < 2 := inside
            obtain rfl | rfl : j = 0 ∨ j = 1 := by omega
            · have early : k + g < k := more
              omega
            · have early : k + g < k + 1 := more
              obtain rfl : g = 0 := by omega
              obtain rfl := Option.some.inj call
              exact .inr ⟨0, rfl, .inl ⟨op, count, rfl⟩⟩
      · obtain ⟨j, rfl⟩ := Nat.exists_eq_add_of_le (not_lt.mp inside)
        rw [limit_cons] at more
        cases g with
        | zero =>
            obtain rfl := Option.some.inj call
            cases j with
            | succ i =>
                have before := reached ((first.locals info k).length + i) rfl
                have least := @le_limit info calls (k + 1) i
                rw [limit_cons] at before
                omega
            | zero =>
                cases first with
                | bcast root len =>
                    have before : k + 1 ≤ k := reached 0 rfl
                    omega
                | reduce root op count => exact .inr ⟨0, rfl, .inl ⟨op, count, rfl⟩⟩
                | allreduce op count =>
                    have before : k + 1 ≤ k := reached 1 rfl
                    omega
        | succ g =>
            have number : k + 1 + g = k + (g + 1) := by omega
            have later := @ih (k + 1) j g smooth.tail call (by omega) (by
              rintro i rfl
              have before := reached ((first.locals info k).length + i) rfl
              rw [limit_cons] at before
              omega)
            rcases later with ⟨rfl, rfl⟩ | ⟨i, rfl, behind⟩
            · obtain ⟨root, len, head⟩ := (@limit_zero info calls (k + 1)).2 (by
                have most := (@limit_zero info calls (k + 1)).1
                omega)
              cases first with
              | bcast root len => exact .inr ⟨0, rfl, .inr ⟨0, _, rfl, rfl, .inl ⟨_, rfl⟩⟩⟩
              | reduce root' op count =>
                  have same := smooth 0 root' op count root len rfl head
                  rw [show calls[0]? = some c from call, Option.some.injEq] at head
                  subst head
                  exact .inr ⟨0, rfl, .inr ⟨0, _, rfl, rfl, .inr (congrArg Int.toNat same)⟩⟩
              | allreduce op count =>
                  exact .inr ⟨1, rfl, .inr ⟨0, _, rfl, rfl, .inl ⟨count * 4, rfl⟩⟩⟩
            · exact .inr ⟨_, rfl, behind.cons⟩

end Places

/-! ## One machine -/

section Machines

variable {info : Info} {calls : List WorldCall} {n : Nat} {s s' : Machine} {t : Nat}

theorem due_eq (j : Nat) : due info calls j = limit info 0 calls j := by
  rw [due, limit, Nat.zero_add]

theorem limit_succ (k j : Nat) : limit info k calls j ≤ limit info k calls (j + 1) := by
  induction calls generalizing k j with
  | nil => simp [limit, parts]
  | cons c calls ih =>
      by_cases inside : j < (c.locals info k).length
      · have later := @le_limit info calls (k + 1) 0
        cases c with
        | bcast root len =>
            obtain rfl : j = 0 := Nat.lt_one_iff.mp inside
            exact later.trans (limit_cons (.bcast root len) k 0).ge
        | reduce root op count =>
            obtain rfl : j = 0 := Nat.lt_one_iff.mp inside
            exact (Nat.le_succ k).trans (later.trans (limit_cons (.reduce root op count) k 0).ge)
        | allreduce op count =>
            have two : j < 2 := inside
            obtain rfl | rfl : j = 0 ∨ j = 1 := by omega
            · exact Nat.le_succ k
            · exact later.trans (limit_cons (.allreduce op count) k 0).ge
      · obtain ⟨i, rfl⟩ := Nat.exists_eq_add_of_le (not_lt.mp inside)
        rw [Nat.add_assoc, limit_cons, limit_cons]
        exact ih (k + 1) i

theorem due_mono {i j : Nat} (le : i ≤ j) : due info calls i ≤ due info calls j := by
  rw [due_eq, due_eq]
  exact monotone_nat_of_le_succ (limit_succ 0) le

/-- The `g`-th `netq_*` call has been made and has returned. -/
def Returned (info : Info) (calls : List WorldCall) (s : Machine) (g : Nat) : Prop :=
  ∃ c, calls[g]? = some c ∧ turn info calls (c.caller info) g < s.made (c.caller info)

/-- A thread is in the `g`-th `netq_*` call. -/
def Inside (info : Info) (calls : List WorldCall) (s : Machine) (g : Nat) : Prop :=
  ∃ c, calls[g]? = some c ∧ s.calling (c.caller info) = true ∧
    s.made (c.caller info) = turn info calls (c.caller info) g

/-- At most one thread is in a `netq_*` call, and a call begins when all the ones before it have
returned. -/
structure Serialized (info : Info) (calls : List WorldCall) (s : Machine) : Prop where
  alone : ∀ t u, s.calling t = true → s.calling u = true → t = u
  order : ∀ g h, Inside info calls s g ∨ Returned info calls s g → h < g → Returned info calls s h

structure Inv (info : Info) (calls : List WorldCall) (n : Nat) (s : Machine) : Prop where
  reach : Coll.Reach n (collectives info calls) s.objs
  calling : ∀ t, s.calling t = true → s.objs.pc t = .idle ∧
    s.made t < turn info calls t (due info calls (s.objs.call t))
  least : ∀ t j, j < s.objs.call t → turn info calls t (due info calls j) ≤ s.made t
  busy : ∀ t, s.objs.pc t ≠ .idle →
    turn info calls t (due info calls (s.objs.call t)) ≤ s.made t
  order : ∀ g h, Inside info calls s g ∨ Returned info calls s g → h < g → Returned info calls s h

theorem part_due {i g : Nat} {c : Collective} (part : (parts info 0 calls)[i]? = some (c, g)) :
    (collectives info calls)[i]? = some c ∧ due info calls i = g := by
  rw [collectives, List.getElem?_map, due, part]
  exact ⟨rfl, rfl⟩

theorem turn_inj {g h : Nat} {c c' : WorldCall} (call : calls[g]? = some c)
    (call' : calls[h]? = some c') (same : c.caller info = c'.caller info)
    (equal : turn info calls (c.caller info) g = turn info calls (c.caller info) h) : g = h := by
  rcases Nat.lt_trichotomy g h with before | same | after
  · exact absurd equal (turn_lt call before).ne
  · exact same
  · have more := @turn_lt info _ _ _ _ call' after
    rw [← same] at more
    exact absurd equal more.ne'

theorem collectives_root (roots : ∀ c ∈ calls, c.caller info < n) :
    ∀ c ∈ collectives info calls, c.root < n := by
  have all : ∀ k, ∀ c ∈ parts info k calls, c.1.root < n := by
    induction calls with
    | nil => exact fun k c member => absurd member List.not_mem_nil
    | cons first calls ih =>
        intro k c member
        have low := roots first List.mem_cons_self
        rcases List.mem_append.mp member with here | later
        · cases first with
          | bcast | reduce =>
              rw [List.mem_singleton.mp here]
              exact low
          | allreduce =>
              simp only [WorldCall.locals, List.mem_cons, List.not_mem_nil, or_false] at here
              rcases here with rfl | rfl
              · exact low
              · exact low
        · exact ih (fun c member => roots c (List.mem_cons_of_mem _ member)) _ c later
  intro c member
  obtain ⟨part, listed, rfl⟩ := List.mem_map.mp member
  exact all 0 part listed

theorem collectives_fits (small : ∀ c ∈ calls, c.Small) : ∀ c ∈ collectives info calls, c.Fits := by
  have all : ∀ k, ∀ c ∈ parts info k calls, c.1.Fits := by
    induction calls with
    | nil => exact fun k c member => absurd member List.not_mem_nil
    | cons first calls ih =>
        intro k c member
        have fits := small first List.mem_cons_self
        rcases List.mem_append.mp member with here | later
        · cases first with
          | bcast =>
              rw [List.mem_singleton.mp here]
              trivial
          | reduce =>
              rw [List.mem_singleton.mp here]
              exact fits
          | allreduce =>
              simp only [WorldCall.locals, List.mem_cons, List.not_mem_nil, or_false] at here
              rcases here with rfl | rfl
              · exact fits
              · trivial
        · exact ih (fun c member => small c (List.mem_cons_of_mem _ member)) _ c later
  intro c member
  obtain ⟨part, listed, rfl⟩ := List.mem_map.mp member
  exact all 0 part listed

/-- A thread that is in a call is not between two. -/
theorem run_busy {objs objs' : Objects} {made : List Collective}
    (taken : Coll.step n objs made (.run t) = some objs') : objs.pc t ≠ .idle := by
  intro idle
  rw [Coll.step] at taken
  split at taken
  next => cases taken
  next => simp [tmpiBcoBcast, idle] at taken
  next => simp [tmpiRdcoReduce, idle] at taken

namespace Inv

/-- A step in a local call that the thread has made its `netq_*` calls for. -/
theorem inner (inv : Inv info calls n s) {act : Coll.Act} {objs : Objects} (inside : act.thread < n)
    (free : s.calling act.thread = false)
    (settled : turn info calls act.thread (due info calls (s.objs.call act.thread)) ≤
      s.made act.thread)
    (taken : Coll.step n s.objs (collectives info calls) act = some objs) :
    Inv info calls n { s with objs } := by
  obtain ⟨c, call, passes, -⟩ := step_passes taken
  have others : ∀ u, u ≠ act.thread → objs.pc u = s.objs.pc u ∧ objs.call u = s.objs.call u := by
    intro u other
    rcases passes with ⟨pc, pcs, same, -⟩ | ⟨pcs, counts⟩
    · exact ⟨by rw [pcs, Function.update_of_ne other], by rw [same]⟩
    · exact ⟨by rw [pcs, Function.update_of_ne other], by rw [counts, Function.update_of_ne other]⟩
  refine ⟨inv.reach.step inside taken, fun u calling => ?_, fun u j past => ?_, fun u busy => ?_,
    inv.order⟩
  · have other : u ≠ act.thread := by
      rintro rfl
      exact absurd calling (by simp [free])
    obtain ⟨idle, more⟩ := inv.calling u calling
    obtain ⟨pc, counts⟩ := others u other
    refine ⟨pc.trans idle, ?_⟩
    rw [counts]
    exact more
  · by_cases same : u = act.thread
    · subst same
      change j < objs.call act.thread at past
      rcases passes with ⟨pc, -, same, -⟩ | ⟨-, counts⟩
      · rw [same] at past
        exact inv.least _ j past
      · rw [counts, Function.update_self] at past
        exact (turn_mono (due_mono (Nat.le_of_lt_succ past))).trans settled
    · change j < objs.call u at past
      rw [(others u same).2] at past
      exact inv.least u j past
  · change objs.pc u ≠ .idle at busy
    change turn info calls u (due info calls (objs.call u)) ≤ s.made u
    by_cases same : u = act.thread
    · subst same
      rcases passes with ⟨pc, -, same, -⟩ | ⟨pcs, -⟩
      · rw [same]
        exact settled
      · exact absurd (by rw [pcs, Function.update_self]) busy
    · rw [(others u same).1] at busy
      rw [(others u same).2]
      exact inv.busy u busy

/-- When a thread is to make its next `netq_*` call, those before it have returned. -/
theorem before (inv : Inv info calls n s) (smooth : Smooth info calls)
    (roots : ∀ c ∈ calls, c.caller info < n) {g : Nat} {c : WorldCall} (call : calls[g]? = some c)
    (next : s.made (c.caller info) = turn info calls (c.caller info) g)
    (below : g < due info calls (s.objs.call (c.caller info))) :
    ∀ h < g, Returned info calls s h := by
  have low : ∀ h (c : WorldCall), calls[h]? = some c → c.caller info < n :=
    fun h c call => roots c (List.mem_of_getElem? call)
  have reached : ∀ i, s.objs.call (c.caller info) = i + 1 → limit info 0 calls i ≤ 0 + g := by
    intro i at'
    have least := inv.least (c.caller info) i (by omega)
    rw [next] at least
    rw [← due_eq, Nat.zero_add]
    by_contra more
    exact absurd (@turn_lt info _ _ _ _ call (not_le.mp more)) (not_lt.mpr least)
  have past : ∀ {i u}, i < s.objs.call u → due info calls i = g → ∀ h c', h < g →
      calls[h]? = some c' → c'.caller info = u → Returned info calls s h := by
    rintro i u gone rfl h c' earlier call' rfl
    exact ⟨c', call', (turn_lt call' earlier).trans_le (inv.least _ i gone)⟩
  rw [due_eq] at below
  rcases crossing smooth call (by omega) reached with ⟨-, rfl⟩ | ⟨i, at', behind⟩
  · exact fun h impossible => absurd impossible (Nat.not_lt_zero h)
  have gone : i < s.objs.call (c.caller info) := by omega
  have meets := fun {u} {d : Collective} listed => reach_meets (u := u) inv.reach (c := d) listed
    (low g c call) gone
  rcases behind with ⟨op, count, part⟩ | ⟨h, c', rfl, call', rest⟩
  · -- the root of a reduce leaves it last
    obtain ⟨listed, number⟩ := part_due part
    intro h earlier
    have some' : h < calls.length := earlier.trans (List.getElem?_eq_some_iff.mp call).1
    have call' := List.getElem?_eq_getElem some'
    have there := meets listed (low h _ call') rfl
    exact past there (number.trans (Nat.zero_add g)) h _ earlier call' rfl
  · have returned : Returned info calls s h := by
      rcases rest with ⟨len, part⟩ | same
      · -- nobody leaves a broadcast before its root
        obtain ⟨listed, number⟩ := part_due part
        have there := meets listed (low h _ call') rfl
        exact past there (number.trans (Nat.zero_add _)) h c' (Nat.lt_succ_self h) call' rfl
      · refine ⟨c', call', ?_⟩
        rw [same, next, ← same]
        exact turn_lt call' (Nat.lt_succ_self h)
    intro h' earlier
    rcases Nat.lt_or_ge h' h with less | more
    · exact inv.order h h' (.inr returned) less
    · obtain rfl : h' = h := by omega
      exact returned

theorem call (inv : Inv info calls n s) (smooth : Smooth info calls)
    (roots : ∀ c ∈ calls, c.caller info < n) (idle : s.objs.pc t = .idle)
    (more : s.made t < turn info calls t (due info calls (s.objs.call t))) :
    Inv info calls n { s with calling := Function.update s.calling t true } := by
  obtain ⟨g, c, below, call, rfl, number⟩ := exists_turn more
  have before := inv.before smooth roots call number.symm below
  refine ⟨inv.reach, fun u calling => ?_, inv.least, inv.busy, fun g' h begun earlier => ?_⟩
  · by_cases same : u = c.caller info
    · rw [same]
      exact ⟨idle, more⟩
    · simp only [Function.update_of_ne same] at calling
      exact inv.calling u calling
  · rcases begun with ⟨c', call', calling, made⟩ | returned
    · by_cases same : c'.caller info = c.caller info
      · have equal : turn info calls (c'.caller info) g' = turn info calls (c'.caller info) g := by
          rw [same, number, ← same]
          exact made.symm
        obtain rfl := turn_inj call' call same equal
        exact before h earlier
      · simp only [Function.update_of_ne same] at calling
        exact inv.order g' h (.inl ⟨c', call', calling, made⟩) earlier
    · exact inv.order g' h (.inr returned) earlier

theorem leave (inv : Inv info calls n s) (calling : s.calling t = true) :
    Inv info calls n { s with
      calling := Function.update s.calling t false
      made := Function.update s.made t (s.made t + 1) } := by
  have grows : ∀ u, s.made u ≤ Function.update s.made t (s.made t + 1) u := by
    intro u
    by_cases same : u = t
    · rw [same, Function.update_self]
      exact Nat.le_succ _
    · rw [Function.update_of_ne same]
  refine ⟨inv.reach, fun u calling' => ?_, fun u j past => (inv.least u j past).trans (grows u),
    fun u busy => (inv.busy u busy).trans (grows u), fun g h begun earlier => ?_⟩
  · by_cases same : u = t
    · simp [same] at calling'
    · simp only [Function.update_of_ne same] at calling' ⊢
      exact inv.calling u calling'
  · have begun' : Inside info calls s g ∨ Returned info calls s g := by
      rcases begun with ⟨c, call, calling', made⟩ | ⟨c, call, made⟩
      · by_cases same : c.caller info = t
        · simp [same] at calling'
        · simp only [Function.update_of_ne same] at calling' made
          exact .inl ⟨c, call, calling', made⟩
      · by_cases same : c.caller info = t
        · subst same
          simp only [Function.update_self] at made
          rcases Nat.lt_succ_iff_lt_or_eq.mp made with less | equal
          · exact .inr ⟨c, call, less⟩
          · exact .inl ⟨c, call, calling, equal.symm⟩
        · simp only [Function.update_of_ne same] at made
          exact .inr ⟨c, call, made⟩
    obtain ⟨c, call, made⟩ := inv.order g h begun' earlier
    exact ⟨c, call, made.trans_le (grows _)⟩

theorem step (inv : Inv info calls n s) (smooth : Smooth info calls)
    (roots : ∀ c ∈ calls, c.caller info < n) {act : Act} (inside : act.thread < n)
    (taken : step info calls n s act = some s') : Inv info calls n s' := by
  cases act with
  | enter t b =>
      rw [Serial.step] at taken
      split at taken
      next => cases taken
      next ready =>
        push Not at ready
        obtain ⟨objs, moved, rfl⟩ := Option.map_eq_some_iff.mp taken
        exact @inner _ _ _ _ inv (.enter t b) _ inside (Bool.eq_false_iff.mpr ready.1) ready.2 moved
  | run t =>
      obtain ⟨objs, moved, rfl⟩ := Option.map_eq_some_iff.mp taken
      have busy := run_busy moved
      have free : s.calling t = false := by
        by_contra calling
        exact busy (inv.calling t (Bool.eq_true_of_not_eq_false calling)).1
      exact @inner _ _ _ _ inv (.run t) _ inside free (inv.busy t busy) moved
  | call t =>
      rw [Serial.step] at taken
      split at taken
      next ready =>
        cases taken
        exact inv.call smooth roots ready.1 ready.2.2
      next => cases taken
  | leave t =>
      rw [Serial.step] at taken
      split at taken
      next calling =>
        cases taken
        exact inv.leave calling
      next => cases taken

end Inv

theorem reach_inv (smooth : Smooth info calls) (roots : ∀ c ∈ calls, c.caller info < n)
    (reach : Reach info calls n s) : Inv info calls n s := by
  induction reach with
  | create =>
      refine ⟨.create, nofun, fun t j past => absurd past (Nat.not_lt_zero j),
        fun t busy => absurd rfl busy, fun g h begun => ?_⟩
      rcases begun with ⟨c, call, calling, -⟩ | ⟨c, call, made⟩
      · cases calling
      · exact absurd made (Nat.not_lt_zero _)
  | step reached inside taken ih => exact ih.step smooth roots inside taken

theorem Inv.serialized (inv : Inv info calls n s) : Serialized info calls s := by
  refine ⟨fun t u first second => ?_, inv.order⟩
  obtain ⟨g, c, -, call, rfl, made⟩ := exists_turn (inv.calling t first).2
  obtain ⟨h, c', -, call', rfl, made'⟩ := exists_turn (inv.calling u second).2
  rcases Nat.lt_trichotomy g h with before | rfl | after
  · obtain ⟨c'', again, past⟩ := inv.order h g (.inl ⟨c', call', second, made'.symm⟩) before
    obtain rfl := Option.some.inj (call.symm.trans again)
    exact absurd made past.ne
  · rw [Option.some.inj (call.symm.trans call')]
  · obtain ⟨c'', again, past⟩ := inv.order g h (.inl ⟨c, call, first, made.symm⟩) after
    obtain rfl := Option.some.inj (call'.symm.trans again)
    exact absurd made' past.ne

end Machines

/-! ## Two at once -/

section Lazy

variable {info : Info} {calls : List WorldCall} {n : Nat} {t : Nat} {o o' : Objects}

/-- How many local calls a thread has begun. -/
def entered (o : Objects) (t : Nat) : Nat := if o.pc t = .idle then o.call t else o.call t + 1

/-- How many `netq_*` calls a thread cannot have left out. -/
def needed (info : Info) (calls : List WorldCall) (o : Objects) (t : Nat) : Nat :=
  match entered o t with
  | 0 => 0
  | j + 1 => turn info calls t (due info calls j)

theorem needed_idle (idle : o.pc t = .idle) :
    needed info calls o t ≤ turn info calls t (due info calls (o.call t)) := by
  rw [needed, entered, if_pos idle]
  cases o.call t with
  | zero => exact Nat.zero_le _
  | succ j => exact turn_mono (due_mono (Nat.le_succ j))

theorem entered_step {made : List Collective} {act : Coll.Act}
    (taken : Coll.step n o made act = some o') :
    entered o' act.thread = o.call act.thread + 1 ∧
      ∀ u, u ≠ act.thread → entered o' u = entered o u := by
  obtain ⟨c, call, passes, -⟩ := step_passes taken
  rcases passes with ⟨pc, pcs, same, less⟩ | ⟨pcs, counts⟩
  · have busy : pc ≠ .idle := by
      rintro rfl
      have most : (o.pc act.thread).rank c.count ≤ c.count + 7 := by
        cases o.pc act.thread <;> simp [Pc.rank]
        omega
      exact absurd less (not_lt.mpr most)
    refine ⟨?_, fun u other => ?_⟩
    · rw [entered, pcs, same, Function.update_self, if_neg busy]
    · rw [entered, entered, pcs, same, Function.update_of_ne other]
  · refine ⟨?_, fun u other => ?_⟩
    · rw [entered, pcs, counts, Function.update_self, Function.update_self, if_pos rfl]
    · rw [entered, entered, pcs, counts, Function.update_of_ne other, Function.update_of_ne other]

theorem needed_step {made : List Collective} {act : Coll.Act}
    (taken : Coll.step n o made act = some o') :
    needed info calls o' act.thread =
        turn info calls act.thread (due info calls (o.call act.thread)) ∧
      ∀ u, u ≠ act.thread → needed info calls o' u = needed info calls o u := by
  obtain ⟨own, others⟩ := entered_step taken
  refine ⟨by rw [needed, own], fun u other => ?_⟩
  rw [needed, needed, others u other]

/-- A thread makes the `netq_*` calls that are due, one after the other. -/
theorem catch_up {s : Machine} (reach : Reach info calls n s) (inside : t < n)
    (idle : s.objs.pc t = .idle) (free : ∀ u, s.calling u = false)
    (behind : s.made t ≤ turn info calls t (due info calls (s.objs.call t))) :
    ∃ s', Reach info calls n s' ∧ s'.objs = s.objs ∧ (∀ u, s'.calling u = false) ∧
      s'.made = Function.update s.made t (turn info calls t (due info calls (s.objs.call t))) := by
  induction gap : turn info calls t (due info calls (s.objs.call t)) - s.made t
    generalizing s with
  | zero =>
      have equal : turn info calls t (due info calls (s.objs.call t)) = s.made t := by omega
      exact ⟨s, reach, rfl, free, by rw [equal, Function.update_eq_self]⟩
  | succ gap' ih =>
      have more : s.made t < turn info calls t (due info calls (s.objs.call t)) := by omega
      have begun := @Reach.step _ _ _ _ _ (.call t) reach inside (if_pos ⟨idle, free t, more⟩)
      have returned := @Reach.step _ _ _ _ _ (.leave t) begun inside (if_pos (Function.update_self ..))
      obtain ⟨s', reach', objs, free', made⟩ := ih returned idle
        (fun u => by by_cases same : u = t <;> simp [same, free])
        (by simpa using more) (by simp only [Function.update_self]; omega)
      exact ⟨s', reach', objs, free', by rw [made, Function.update_idem]⟩

/-- A run of the objects is one of the machine in which the threads make each `netq_*` call as late
as they can. -/
theorem lazily (reach : Coll.Reach n (collectives info calls) o) : ∃ s, Reach info calls n s ∧
    s.objs = o ∧ (∀ u, s.calling u = false) ∧ s.made = needed info calls o := by
  induction reach with
  | create => exact ⟨_, .create, rfl, fun _ => rfl, rfl⟩
  | @step o o' act reached inside taken ih =>
      obtain ⟨s, reach, rfl, free, made⟩ := ih
      obtain ⟨own, others⟩ := @needed_step info calls _ _ _ _ _ taken
      cases act with
      | enter t b =>
          have idle : s.objs.pc t = .idle := by
            by_contra busy
            rw [Coll.step, if_pos busy] at taken
            cases taken
          have member : t < n := inside
          simp only [Coll.Act.thread] at own others
          obtain ⟨s', reach', objs, free', made'⟩ := catch_up reach member idle free
            (by rw [made]; exact needed_idle idle)
          have ready : ¬ (s'.calling t = true ∨
              s'.made t < turn info calls t (due info calls (s'.objs.call t))) := by
            rw [free' t, made', objs, Function.update_self]
            simp
          have goes : step info calls n s' (.enter t b) = some { s' with objs := o' } := by
            rw [step, if_neg ready, objs, taken]
            rfl
          refine ⟨_, @Reach.step _ _ _ _ _ (.enter t b) reach' member goes, rfl, free', ?_⟩
          funext u
          by_cases same : u = t
          · rw [same, own, made', Function.update_self]
          · rw [others u same, ← made, made', Function.update_of_ne same]
      | run t =>
          have goes : step info calls n s (.run t) = some { s with objs := o' } := by
            rw [step, taken]
            rfl
          have member : t < n := inside
          simp only [Coll.Act.thread] at own others
          refine ⟨_, @Reach.step _ _ _ _ _ (.run t) reach member goes, rfl, free, ?_⟩
          funext u
          by_cases same : u = t
          · rw [same, own, made, needed, entered, if_neg (run_busy taken)]
          · rw [others u same, ← made]

theorem reach_within {made : List Collective} (reach : Coll.Reach n made o) :
    o.call t ≤ made.length ∧ (o.pc t ≠ .idle → o.call t < made.length) := by
  induction reach with
  | create => exact ⟨Nat.zero_le _, fun busy => absurd rfl busy⟩
  | @step o o' act reached inside taken ih =>
      obtain ⟨c, call, passes, -⟩ := step_passes taken
      have below := (List.getElem?_eq_some_iff.mp call).1
      by_cases same : t = act.thread
      · subst same
        rcases passes with ⟨-, -, same, -⟩ | ⟨pcs, counts⟩
        · rw [same]
          exact ⟨below.le, fun _ => below⟩
        · rw [counts, pcs, Function.update_self, Function.update_self]
          exact ⟨below, fun busy => absurd rfl busy⟩
      · rcases passes with ⟨pc, pcs, same', -⟩ | ⟨pcs, counts⟩
        · rw [same', pcs, Function.update_of_ne same]
          exact ih
        · rw [counts, pcs, Function.update_of_ne same, Function.update_of_ne same]
          exact ih

/-- What comes after the calls of a run is free. -/
theorem reach_append {made : List Collective} (later : List Collective)
    (reach : Coll.Reach n made o) : Coll.Reach n (made ++ later) o := by
  induction reach with
  | create => exact .create
  | @step o o' act reached inside taken ih =>
      refine ih.step inside ?_
      obtain ⟨c, call, -⟩ := step_passes taken
      have below := (List.getElem?_eq_some_iff.mp call).1
      have same : (made ++ later)[o.call act.thread]? = made[o.call act.thread]? :=
        List.getElem?_append_left below
      cases act with
      | enter t b =>
          simp only [Coll.Act.thread] at same
          rw [← taken, Coll.step, Coll.step, same]
      | run t =>
          simp only [Coll.Act.thread] at same
          rw [← taken, Coll.step, Coll.step, same]

theorem parts_append (k : Nat) (early late : List WorldCall) :
    parts info k (early ++ late) = parts info k early ++ parts info (k + early.length) late := by
  induction early generalizing k with
  | nil => rfl
  | cons c early ih =>
      rw [List.cons_append, parts, ih, parts, List.append_assoc, List.length_cons, Nat.add_assoc,
        Nat.add_comm 1]

theorem split_pair {k : Nat} {a b : WorldCall} (first : calls[k]? = some a)
    (second : calls[k + 1]? = some b) :
    ∃ early late, calls = early ++ a :: b :: late ∧ k = early.length := by
  obtain ⟨inside, rfl⟩ := List.getElem?_eq_some_iff.mp first
  obtain ⟨inside', rfl⟩ := List.getElem?_eq_some_iff.mp second
  refine ⟨calls.take k, calls.drop (k + 2), ?_, ?_⟩
  · rw [← List.drop_eq_getElem_cons inside', ← List.drop_eq_getElem_cons inside,
      List.take_append_drop]
  · rw [List.length_take, min_eq_left inside.le]

theorem localRoot_nonneg (info : Info) (root : Int) : 0 ≤ localRoot info root := by
  rw [localRoot]
  split
  next here => exact (isLocalNode_iff info root).mp here
  next => exact le_rfl

/-- The root of a reduce and the one of a broadcast that follows it can be in their calls at
once. -/
theorem exists_overlap {k len count : Nat} {root root' : Int} {op : Option RdcOp}
    (roots : ∀ c ∈ calls, c.caller info < n) (small : ∀ c ∈ calls, c.Small)
    (first : calls[k]? = some (.reduce root op count)) (second : calls[k + 1]? = some (.bcast root' len))
    (apart : localRoot info root ≠ localRoot info root') :
    ∃ s, Reach info calls n s ∧ ∃ t u, t ≠ u ∧ s.calling t = true ∧ s.calling u = true := by
  have low := roots _ (List.mem_of_getElem? first)
  have low' := roots _ (List.mem_of_getElem? second)
  set t := (localRoot info root).toNat with own
  set u := (localRoot info root').toNat with other
  have different : u ≠ t := by
    have nonneg := localRoot_nonneg info root
    have nonneg' := localRoot_nonneg info root'
    omega
  -- the machine has gone through the reduce, and has not made its `netq_reduce` yet
  obtain ⟨early, late, rfl, rfl⟩ := split_pair first second
  have all : parts info 0 (early ++ .reduce root op count :: .bcast root' len :: late) =
      parts info 0 early ++ (.reduce t op count, early.length) ::
        (.bcast u (len % 2^32), early.length + 2) :: parts info (early.length + 2) late := by
    rw [parts_append, Nat.zero_add]
    rfl
  set calls := early ++ WorldCall.reduce root op count :: .bcast root' len :: late with calls_eq
  set made := (parts info 0 early).map Prod.fst ++ [Collective.reduce t op count] with made_eq
  have listed : collectives info calls =
      made ++ .bcast u (len % 2^32) :: (parts info (early.length + 2) late).map Prod.fst := by
    rw [collectives, all, made_eq, List.map_append, List.append_assoc]
    rfl
  have rooted : ∀ c ∈ made, c.root < n := by
    intro c member
    apply collectives_root roots
    rw [listed]
    exact List.mem_append_left _ member
  have fitted : ∀ c ∈ made, c.Fits := by
    intro c member
    apply collectives_fits small
    rw [listed]
    exact List.mem_append_left _ member
  obtain ⟨o, ran, done, -⟩ := run_ends rooted fitted (fun _ _ => ⟨[], fun _ => 0, fun _ => 0⟩) .create
    fun v k begun => by simp [Coll.create] at begun
  have size : made.length = (parts info 0 early).length + 1 := by
    rw [made_eq, List.length_append, List.length_map, List.length_singleton]
  have there : ∀ v < n, o.call v = (parts info 0 early).length + 1 ∧ o.pc v = .idle := by
    intro v inside
    have least := done v inside
    obtain ⟨most, busy⟩ := @reach_within _ v _ _ ran
    refine ⟨by omega, ?_⟩
    by_contra inside'
    exact absurd (busy inside') (not_lt.mpr least)
  obtain ⟨s, reach, rfl, free, lazy⟩ := @lazily info calls _ _ (listed ▸ reach_append _ ran)
  have before : due info calls (parts info 0 early).length = early.length := by
    rw [due, all, List.getElem?_append_right le_rfl, Nat.sub_self]
    rfl
  have after : due info calls ((parts info 0 early).length + 1) = early.length + 2 := by
    rw [due, all, List.getElem?_append_right (Nat.le_add_right _ 1), Nat.add_sub_cancel_left]
    rfl
  have has : ∀ v < n, s.made v = turn info calls v early.length := by
    intro v inside
    obtain ⟨counts, idle⟩ := there v inside
    rw [lazy, needed, entered, if_pos idle, counts, ← before]
  have first' : s.made t < turn info calls t (due info calls (s.objs.call t)) := by
    rw [has t low, (there t low).1, after]
    exact @turn_lt info _ _ _ _ first (by omega)
  have second' : s.made u < turn info calls u (due info calls (s.objs.call u)) := by
    rw [has u low', (there u low').1, after]
    calc
      _ ≤ turn info calls u (early.length + 1) := turn_mono (Nat.le_succ _)
      _ < turn info calls u (early.length + 2) := @turn_lt info _ _ _ _ second (by omega)
  have one := @Reach.step _ _ _ _ _ (.call t) reach low (if_pos ⟨(there t low).2, free t, first'⟩)
  have two := @Reach.step _ _ _ _ _ (.call u) one low'
    (if_pos ⟨(there u low').2, (Function.update_of_ne different ..).trans (free u), second'⟩)
  refine ⟨_, two, u, t, different, Function.update_self .., ?_⟩
  exact (Function.update_of_ne different.symm ..).trans (Function.update_self ..)

end Lazy

/-! ## Serialization -/

theorem caller_lt {macs : List MacEntry} (accepted : Accepted macs) {m : Nat} {mac : MacEntry}
    (place : macs[m]? = some mac) (threads : 0 < mac.nNodes) (c : WorldCall) :
    c.caller (netqStart macs m) < mac.nNodes := by
  have low : ∀ root, (localRoot (netqStart macs m) root).toNat < mac.nNodes := by
    intro root
    rw [localRoot]
    split
    next here =>
      rw [isLocalNode_iff] at here
      obtain ⟨l, known⟩ := Int.eq_ofNat_of_zero_le here
      obtain ⟨mac', place', node⟩ := mem_places.mp ((accepted.local_iff m root l).mp known)
      obtain rfl := Option.some.inj (place.symm.trans place')
      rw [known]
      exact (List.getElem?_eq_some_iff.mp node).1
    next => exact threads
  cases c with
  | bcast root => exact low root
  | reduce root => exact low root
  | allreduce => exact threads

/-- Of the calls that find their `tmp_buf`, the `netq_*` calls of a machine are serialized in every
run exactly if no `tmpi_Reduce` is followed by a `tmpi_Bcast` for which another thread is the local
root; otherwise two threads can be in theirs at once. -/
theorem netq_calls_serialized (macs : List MacEntry) (accepted : Accepted macs)
    (_several : 1 < macs.length) (m : Nat) (mac : MacEntry) (place : macs[m]? = some mac)
    (threads : 0 < mac.nNodes) (calls : List WorldCall) (bytes : ∀ c ∈ calls, c.bytes < 2^32) :
    let info := netqStart macs m
    let made := calls.filter WorldCall.enters
    ((∀ s, Reach info made mac.nNodes s → Serialized info made s) ↔ Smooth info made) ∧
      (¬ Smooth info made → ∃ s, Reach info made mac.nNodes s ∧
        ∃ t u, t ≠ u ∧ s.calling t = true ∧ s.calling u = true) := by
  intro info made
  have roots : ∀ c ∈ made, c.caller info < mac.nNodes :=
    fun c _ => caller_lt accepted place threads c
  have small : ∀ c ∈ made, c.Small := by
    intro c member
    obtain ⟨listed, enters⟩ := List.mem_filter.mp member
    exact WorldCall.small_of_enters enters (bytes c listed)
  have overlap : ¬ Smooth info made → ∃ s, Reach info made mac.nNodes s ∧
      ∃ t u, t ≠ u ∧ s.calling t = true ∧ s.calling u = true := by
    intro rough
    unfold Smooth at rough
    push Not at rough
    obtain ⟨k, root, op, count, root', len, first, second, apart⟩ := rough
    exact exists_overlap roots small first second apart
  refine ⟨⟨fun serialized => ?_, fun smooth s reach => (reach_inv smooth roots reach).serialized⟩, overlap⟩
  by_contra rough
  obtain ⟨s, reach, t, u, different, calling, calling'⟩ := overlap rough
  exact different ((serialized s reach).alone t u calling calling')

/-- Two machines with two threads each; the second reduce finds no memory. -/
theorem netq_calls_serialized_two :
    let macs : List MacEntry := [⟨[97], [0, 1]⟩, ⟨[98], [2, 3]⟩]
    let calls : List WorldCall := [.bcast 0 4, .reduce 1 (some .sum) 1, .reduce 0 (some .sum) (2^29),
      .bcast 1 4, .allreduce (some .max) 1]
    let made := calls.filter WorldCall.enters
    Accepted macs ∧ made.length = 4 ∧ ∀ s, Reach (netqStart macs 0) made 2 s →
      Serialized (netqStart macs 0) made s := by
  intro macs calls made
  refine ⟨by decide, by decide, (netq_calls_serialized macs (by decide) (by decide) 0 _ rfl (by decide)
    calls (by decide)).1.mpr ?_⟩
  intro k root op count root' len first second
  match k with
  | 1 =>
      cases first
      cases second
      rfl
  | 0 | 2 | 3 | k + 4 => cases first

end Serial

end Tmpi.Mpi
