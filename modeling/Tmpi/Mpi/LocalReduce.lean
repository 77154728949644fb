import Tmpi.Coll.Cells
import Tmpi.Mpi.Types

/-! One `tmpi_rdco_reduce` of the threads of a machine, for all data types: what it does to the
bytes of its handle and of the buffers.

All threads have the same handle for their n-th reduce with a root, so the others do not matter. A
step of a thread is one locked region, atomic load, `cas32`, `cas64` or `aadd32`. -/

namespace Tmpi.Mpi

open Coll (RdcOp RDCHandle ReduceCell Party Published Ints copyInts threads)

/-! ## The code -/

/-- What the threads of a machine pass to `tmpi_rdco_reduce`. -/
structure RdcCall where
  groupSize : Nat
  root : Nat
  count : Nat
  datatype : Datatype
  op : Op
  sendbuf : Nat → Buffer
  recvbuf : Nat → Buffer

/-- Where a thread is inside `tmpi_rdco_reduce`. -/
inductive LocalPc where
  | look
  /-- Has found `avail==-1` and allocated. -/
  | claim
  /-- Has been the first. -/
  | publish
  | await
  | combine (i : Nat)
  | bump
  /-- The root waits for the others; it has been the `first`, or not. -/
  | gather (first : Bool)
  /-- Has returned. -/
  | done (recvbuf : Buffer)
  /-- In a `simple_reduce` that goes behind the data of the handle. -/
  | wild

/-- The `tmpi_RDCHandle` of the reduce and the threads. The data are in the `recvbuf` of the root
if that is the first. -/
structure LocalReduce where
  avail : Int
  data : Buffer
  count : Nat
  pc : Nat → LocalPc

namespace RdcCall

variable (abi : Abi) (c : RdcCall)

/-- `int len=tmpi_Usize(type)*count`. Where that is negative, `tmpi_Reduce` has returned before. -/
def len : Nat := (wrap (abi.usize c.datatype * c.count)).toNat

/-- The function of `simple_reduce`, if it has one. -/
def opfunc : Option ElemOp := simpleReduceOp c.datatype c.op

/-- `simple_reduce` stays in a block of `size` bytes. -/
def Within (size : Nat) : Prop := ∀ f ∈ c.opfunc, c.count * f.elem.width abi.platform ≤ size

instance (size : Nat) : Decidable (c.Within abi size) :=
  inferInstanceAs (Decidable (∀ f ∈ c.opfunc, _))

/-- There is nothing to copy and nothing to combine. -/
def Idle : Prop := c.len abi = 0 ∧ ∀ f ∈ c.opfunc, c.count = 0

/-- Before the call; a group of one copies and returns. -/
def start : LocalReduce where
  avail := -1
  data := []
  count := 0
  pc t := if c.groupSize < 2 then .done (memcpy (c.recvbuf t) (c.sendbuf t) (c.len abi)) else .look

end RdcCall

namespace LocalReduce

variable (abi : Abi) (c : RdcCall) (s : LocalReduce) (t : Nat)

def goto (pc : LocalPc) : LocalReduce := { s with pc := Function.update s.pc t pc }

/-- A step of thread `t` in `tmpi_rdco_reduce`. -/
def step : Option LocalReduce :=
  match s.pc t with
  | .look => some (s.goto t (if s.avail = -1 then .claim else .await))
  | .claim =>
      if s.avail = -1 then some ({ s with avail := 0 }.goto t .publish)
      else some (s.goto t .await)
  | .publish =>
      if t = c.root then
        let data := memcpy (c.recvbuf t) (c.sendbuf t) (c.len abi)
        some ({ s with avail := 1, data, count := c.count }.goto t (.gather true))
      else
        let data := (c.sendbuf t).take (c.len abi)
        some ({ s with avail := 1, data, count := c.count }.goto t (.done (c.recvbuf t)))
  | .await =>
      if s.avail = 0 then none
      else some (s.goto t (if c.Within abi s.data.length then .combine 0 else .wild))
  | .combine i =>
      match c.opfunc with
      | none => some (s.goto t .bump)
      | some f =>
          if i < min c.count s.count then
            some ({ s with data := f.rdc abi i s.data (c.sendbuf t) }.goto t (.combine (i + 1)))
          else some (s.goto t .bump)
  | .bump =>
      let pc := if t = c.root then .gather false else .done (c.recvbuf t)
      some ({ s with avail := s.avail + 1 }.goto t pc)
  | .gather first =>
      if s.avail ≠ c.groupSize then none
      else if first then some (s.goto t (.done s.data))
      else some (s.goto t (.done (memcpy (c.recvbuf t) s.data (c.len abi))))
  | .done _ | .wild => none

/-- The states of a machine whose threads make the call. -/
inductive Reach : LocalReduce → Prop where
  | start : Reach (c.start abi)
  | step {s s' t} : Reach s → t < c.groupSize → s.step abi c t = some s' → Reach s'

/-- All threads have returned, with `after` in their `recvbuf`s. -/
def Leaves (after : Nat → Buffer) : Prop :=
  ∃ s, Reach abi c s ∧ ∀ t < c.groupSize, s.pc t = .done (after t)

end LocalReduce

/-! ## As the reduce of `Tmpi.Coll` -/

/-- A reading of the buffers as `int`s, of which the call combines the first `count` with `op`. -/
structure View (abi : Abi) (c : RdcCall) where
  read : Buffer → Ints
  op : Option RdcOp
  count : Nat
  few : count ≤ c.count
  unread : c.opfunc = none → count = 0
  copied : ∀ {dst src : Buffer} {i : Nat}, c.len abi ≤ src.length → i < count →
    read (memcpy dst src (c.len abi)) i = read src i
  combined : ∀ {f : ElemOp} {i : Nat} {data : Buffer} (operand : Buffer), c.opfunc = some f →
    i < c.count → c.count * f.elem.width abi.platform ≤ data.length →
    read (f.rdc abi i data operand) =
      Function.update (read data) i (Coll.simpleReduce op (read data i) (read operand i))

def LocalPc.stage : LocalPc → Coll.Stage
  | .look => .inside (.look 0)
  | .claim => .inside (.claim 0 1)
  | .publish => .inside (.publish 0 1)
  | .await | .wild => .inside (.await 0)
  | .combine i => .inside (.combine 0 i)
  | .bump => .inside (.bump 0)
  | .gather first => .inside (.gather 0 (if first then some 1 else none))
  | .done _ => .after

namespace View

variable {abi : Abi} {c : RdcCall} (v : View abi c)

/-- Without the elements. -/
def blind (abi : Abi) (c : RdcCall) : View abi c where
  read _ _ := 0
  op := none
  count := 0
  few := Nat.zero_le _
  unread _ := rfl
  copied _ _ := rfl
  combined _ _ _ _ := (Function.update_eq_self _ _).symm

def args (t : Nat) : Coll.Buffers := ⟨[], v.read (c.sendbuf t), v.read (c.recvbuf t)⟩

/-- The buffers of a thread that returns with `b` in its `recvbuf`. -/
def outcome (t : Nat) (b : Buffer) : Coll.Buffers :=
  { v.args t with recvbuf := copyInts (v.args t).recvbuf (v.read b) v.count }

def party (pc : Nat → LocalPc) : Party where
  stage t := (pc t).stage
  args := v.args
  results t :=
    match pc t with
    | .done b => some (v.outcome t b)
    | _ => none

def handle (s : LocalReduce) : RDCHandle := ⟨s.avail, v.read s.data, v.count⟩

variable {pc : Nat → LocalPc} {t : Nat}

theorem party_results {pc' : LocalPc} {q : Coll.Pc} (at' : pc t = pc') (stage : pc'.stage = .inside q) :
    (v.party pc).results t = none := by
  cases pc' with
  | done b => cases stage
  | _ => simp [party, at']

theorem party_goto {pc' : LocalPc} {q q' : Coll.Pc} (going : (pc t).stage = .inside q)
    (stage : pc'.stage = .inside q') :
    v.party (Function.update pc t pc') = (v.party pc).goto t q' := by
  have results : (v.party (Function.update pc t pc')).results = (v.party pc).results := by
    funext u
    by_cases self : u = t
    · subst self
      rw [v.party_results rfl going, v.party_results (Function.update_self ..) stage]
    · simp only [party, Function.update_of_ne self]
  have stages : (v.party (Function.update pc t pc')).stage =
      Function.update (v.party pc).stage t (.inside q') := by
    funext u
    by_cases self : u = t
    · subst self
      simp [party, stage]
    · simp [party, self]
  unfold Party.goto
  rw [← stages, ← results]
  rfl

theorem party_leave (b : Buffer) :
    v.party (Function.update pc t (.done b)) = (v.party pc).leave t (v.outcome t b) := by
  have results : (v.party (Function.update pc t (.done b))).results =
      Function.update (v.party pc).results t (some (v.outcome t b)) := by
    funext u
    by_cases self : u = t
    · subst self
      simp [party]
    · simp [party, self]
  have stages : (v.party (Function.update pc t (.done b))).stage =
      Function.update (v.party pc).stage t .after := by
    funext u
    by_cases self : u = t
    · subst self
      simp [party, LocalPc.stage]
    · simp [party, self]
  unfold Party.leave
  rw [← stages, ← results]
  rfl

theorem outcome_recvbuf (t : Nat) : v.outcome t (c.recvbuf t) = v.args t := by
  have same : copyInts (v.args t).recvbuf (v.read (c.recvbuf t)) v.count = (v.args t).recvbuf := by
    funext i
    exact ite_self _
  rw [outcome, same]

end View

namespace LocalReduce

variable {abi : Abi} {c : RdcCall} {s s' : LocalReduce} {t : Nat}

/-- What a state of a call of several threads is, seen through a view. -/
structure Inv (v : View abi c) (s : LocalReduce) : Prop where
  cell : ∃ next, ReduceCell c.groupSize c.root v.op v.count (v.party s.pc) (v.handle s) next
  counted : 0 < s.avail → s.count = c.count
  room : 0 < s.avail → c.len abi ≤ s.data.length
  within : ∀ t < c.groupSize, ∀ i, s.pc t = .combine i → c.Within abi s.data.length
  own : ∀ t < c.groupSize, s.pc t = .gather true →
    s.data.length = (c.recvbuf t).length ∧ (c.Idle abi → s.data = c.recvbuf t)
  kept : ∀ t < c.groupSize, ∀ b, s.pc t = .done b →
    b.length = (c.recvbuf t).length ∧ (t ≠ c.root ∨ c.Idle abi → b = c.recvbuf t)
  wild : ∀ t < c.groupSize, s.pc t = .wild → ¬ c.Within abi (c.len abi)

namespace Inv

variable {v : View abi c}

/-- A step that keeps the size of the data. -/
theorem goto (inv : Inv v s) (pc : LocalPc) (moved : s'.pc = Function.update s.pc t pc)
    (later : 0 < s'.avail → 0 < s.avail) (count : s'.count = s.count)
    (length : s'.data.length = s.data.length) (idle : c.Idle abi → s'.data = s.data)
    (cell : ∃ next, ReduceCell c.groupSize c.root v.op v.count
      (v.party (Function.update s.pc t pc)) (v.handle s') next)
    (within : ∀ i, pc = .combine i → c.Within abi s.data.length)
    (own : pc ≠ .gather true)
    (kept : ∀ b, pc = .done b →
      b.length = (c.recvbuf t).length ∧ (t ≠ c.root ∨ c.Idle abi → b = c.recvbuf t))
    (wild : pc = .wild → ¬ c.Within abi (c.len abi)) : Inv v s' := by
  have owned : ∀ u < c.groupSize, s.pc u = .gather true →
      s'.data.length = (c.recvbuf u).length ∧ (c.Idle abi → s'.data = c.recvbuf u) := by
    intro u inside at'
    obtain ⟨own', same⟩ := inv.own u inside at'
    refine ⟨length.trans own', fun none' => ?_⟩
    rw [idle none']
    exact same none'
  refine ⟨by rw [moved]; exact cell, fun begun => ?_, fun begun => ?_, fun u inside i at' => ?_,
    fun u inside at' => ?_, fun u inside b at' => ?_, fun u inside at' => ?_⟩
  · rw [count]
    exact inv.counted (later begun)
  · rw [length]
    exact inv.room (later begun)
  all_goals
    rw [moved] at at'
    by_cases self : u = t
    · subst self
      rw [Function.update_self] at at'
      first
        | exact length ▸ within i at'
        | exact absurd at' own
        | exact kept b at'
        | exact wild at'
    · rw [Function.update_of_ne self] at at'
      first
        | exact length ▸ inv.within u inside i at'
        | exact owned u inside at'
        | exact inv.kept u inside b at'
        | exact inv.wild u inside at'

/-- Behind the look at `avail` the data are there. -/
theorem published (inv : Inv v s) (inside : t < c.groupSize) {pc : LocalPc} (at' : s.pc t = pc)
    (past : pc.stage.waiting = false) (second : pc ≠ .publish) :
    ∃ next, Published c.groupSize c.root v.op v.count (v.party s.pc) (v.handle s) next := by
  obtain ⟨next, cell⟩ := inv.cell
  refine ⟨next, cell.published_of inside ?_ fun item newitem stage => ?_⟩
  · change (s.pc t).stage.waiting = false
    rw [at']
    exact past
  · change (s.pc t).stage = _ at stage
    rw [at'] at stage
    cases pc with
    | publish => exact second rfl
    | _ => cases stage

theorem avail_pos (inv : Inv v s) (inside : t < c.groupSize) {pc : LocalPc} (at' : s.pc t = pc)
    (past : pc.stage.waiting = false) (second : pc ≠ .publish) : 0 < s.avail := by
  obtain ⟨next, cell⟩ := inv.published inside at' past second
  have counted : s.avail = _ := cell.avail
  have begun := cell.begun
  omega

section Steps

variable (inv : Inv v s) (inside : t < c.groupSize)

include inv inside

theorem look (at' : s.pc t = .look) :
    Inv v (s.goto t (if s.avail = -1 then .claim else .await)) := by
  obtain ⟨next, cell⟩ := inv.cell
  have stage : (s.pc t).stage = .inside (.look 0) := congrArg LocalPc.stage at'
  split
  next unclaimed =>
    have moved : v.party (Function.update s.pc t .claim) = (v.party s.pc).goto t (.claim 0 1) :=
      v.party_goto stage rfl
    refine inv.goto .claim rfl id rfl rfl (fun _ => rfl) ⟨next, ?_⟩ ?_ ?_ ?_ ?_
    · rw [moved]
      exact cell.look unclaimed 0 1
    all_goals simp
  next claimed =>
    have moved : v.party (Function.update s.pc t .await) = (v.party s.pc).goto t (.await 0) :=
      v.party_goto stage rfl
    have early : ((v.party s.pc).stage t).early = true := by
      change (s.pc t).stage.early = true
      rw [stage]
      rfl
    refine inv.goto .await rfl id rfl rfl (fun _ => rfl) ⟨next, ?_⟩ ?_ ?_ ?_ ?_
    · rw [moved]
      exact cell.wait inside stage early claimed 0
    all_goals simp

theorem claim (at' : s.pc t = .claim) :
    Inv v (if s.avail = -1 then { s with avail := 0 }.goto t .publish else s.goto t .await) := by
  obtain ⟨next, cell⟩ := inv.cell
  have stage : (s.pc t).stage = .inside (.claim 0 1) := congrArg LocalPc.stage at'
  split
  next unclaimed =>
    have moved : v.party (Function.update s.pc t .publish) = (v.party s.pc).goto t (.publish 0 1) :=
      v.party_goto stage rfl
    refine inv.goto .publish rfl (fun begun => absurd begun (lt_irrefl 0)) rfl rfl (fun _ => rfl)
      ⟨next, ?_⟩ ?_ ?_ ?_ ?_
    · rw [moved]
      exact cell.claim inside unclaimed 0 1
    all_goals simp
  next claimed =>
    have moved : v.party (Function.update s.pc t .await) = (v.party s.pc).goto t (.await 0) :=
      v.party_goto stage rfl
    have early : ((v.party s.pc).stage t).early = true := by
      change (s.pc t).stage.early = true
      rw [stage]
      rfl
    refine inv.goto .await rfl id rfl rfl (fun _ => rfl) ⟨next, ?_⟩ ?_ ?_ ?_ ?_
    · rw [moved]
      exact cell.wait inside stage early claimed 0
    all_goals simp

theorem await (at' : s.pc t = .await) (set : s.avail ≠ 0) :
    Inv v (s.goto t (if c.Within abi s.data.length then .combine 0 else .wild)) := by
  obtain ⟨next, cell⟩ := inv.cell
  have stage : (s.pc t).stage = .inside (.await 0) := congrArg LocalPc.stage at'
  have joined := cell.join inside stage set
  split
  next within =>
    have moved : v.party (Function.update s.pc t (.combine 0)) =
        (v.party s.pc).goto t (.combine 0 0) := v.party_goto stage rfl
    refine inv.goto (.combine 0) rfl id rfl rfl (fun _ => rfl) ⟨next, ?_⟩ ?_ ?_ ?_ ?_
    · rw [moved]
      exact joined
    · intro _ _
      exact within
    all_goals simp
  next short =>
    have moved : v.party (Function.update s.pc t .wild) = v.party s.pc := by
      have same : Function.update (v.party s.pc).stage t (.inside (.await 0)) =
          (v.party s.pc).stage := by
        rw [← stage]
        exact Function.update_eq_self t _
      rw [v.party_goto stage rfl, Party.goto, same]
    -- where the data are there, they are `len` bytes at least
    have begun : 0 < s.avail := by
      cases cell with
      | unclaimed cell =>
          have early := cell.stages t inside
          change (s.pc t).stage.early = true at early
          rw [stage] at early
          cases early
      | claimed cell => exact absurd cell.avail set
      | published cell =>
          have counted : s.avail = _ := cell.avail
          have some' := cell.begun
          omega
    refine inv.goto .wild rfl id rfl rfl (fun _ => rfl) ⟨next, ?_⟩ ?_ ?_ ?_ ?_
    · rw [moved]
      exact cell
    · simp
    · simp
    · simp
    · intro _ whole
      exact short fun f has => (whole f has).trans (inv.room begun)

theorem bump (at' : s.pc t = .bump) :
    Inv v ({ s with avail := s.avail + 1 }.goto t
      (if t = c.root then .gather false else .done (c.recvbuf t))) := by
  obtain ⟨next, cell⟩ := inv.cell
  have stage : (s.pc t).stage = .inside (.bump 0) := congrArg LocalPc.stage at'
  have begun := inv.avail_pos inside at' rfl (by simp)
  have counted := cell.bump inside stage
  split
  next atRoot =>
    have moved : v.party (Function.update s.pc t (.gather false)) =
        (v.party s.pc).goto t (.gather 0 none) := v.party_goto stage rfl
    rw [if_pos atRoot] at counted
    refine inv.goto (.gather false) rfl (fun _ => begun) rfl rfl (fun _ => rfl)
      ⟨next, ?_⟩ ?_ ?_ ?_ ?_
    · rw [moved]
      exact counted
    all_goals simp
  next away =>
    rw [if_neg away] at counted
    have left : v.party (Function.update s.pc t (.done (c.recvbuf t))) =
        (v.party s.pc).leave t (v.outcome t (c.recvbuf t)) := v.party_leave _
    rw [v.outcome_recvbuf] at left
    refine inv.goto (.done (c.recvbuf t)) rfl (fun _ => begun) rfl rfl (fun _ => rfl)
      ⟨next, ?_⟩ ?_ ?_ ?_ ?_
    · rw [left]
      exact counted
    · simp
    · simp
    · intro b same
      obtain rfl : c.recvbuf t = b := by simpa using same
      exact ⟨rfl, fun _ => rfl⟩
    · simp

theorem combined {i : Nat} (at' : s.pc t = .combine i)
    (over' : ¬ i < min v.count v.count) : Inv v (s.goto t .bump) := by
  obtain ⟨next, cell⟩ := inv.cell
  have stage : (s.pc t).stage = .inside (.combine 0 i) := congrArg LocalPc.stage at'
  have moved : v.party (Function.update s.pc t .bump) = (v.party s.pc).goto t (.bump 0) :=
    v.party_goto stage rfl
  refine inv.goto .bump rfl id rfl rfl (fun _ => rfl) ⟨next, ?_⟩ ?_ ?_ ?_ ?_
  · rw [moved]
    exact (cell.combined inside stage over').2
  all_goals simp

theorem combine {i : Nat} {f : ElemOp} (at' : s.pc t = .combine i) (has : c.opfunc = some f)
    (below : i < c.count) :
    Inv v ({ s with data := f.rdc abi i s.data (c.sendbuf t) }.goto t (.combine (i + 1))) := by
  obtain ⟨next, cell⟩ := inv.cell
  have stage : (s.pc t).stage = .inside (.combine 0 i) := congrArg LocalPc.stage at'
  have moved : v.party (Function.update s.pc t (.combine (i + 1))) =
      (v.party s.pc).goto t (.combine 0 (i + 1)) := v.party_goto stage rfl
  have within := inv.within t inside i at'
  have room : c.count * f.elem.width abi.platform ≤ s.data.length := within f has
  have fits : (i + 1) * (f.elem.scalar abi.platform).size ≤ s.data.length := by
    rw [width_eq] at room
    exact (Nat.mul_le_mul_right _ below).trans room
  have idle : c.Idle abi → f.rdc abi i s.data (c.sendbuf t) = s.data := by
    intro none'
    have empty := none'.2 f has
    omega
  refine inv.goto (.combine (i + 1)) rfl id rfl (Scalar.length_combineAt _ fits) idle
    ⟨next, ?_⟩ ?_ ?_ ?_ ?_
  · rw [moved]
    have element := v.combined (c.sendbuf t) has below room
    have joined := cell.combine inside stage
    simp only [View.handle, LocalReduce.goto, element]
    exact joined
  · intro _ _
    exact within
  all_goals simp

theorem gather {first : Bool} (at' : s.pc t = .gather first)
    (full : s.avail = c.groupSize) (fits : c.len abi ≤ (c.recvbuf t).length) :
    Inv v (s.goto t (.done (if first then s.data else memcpy (c.recvbuf t) s.data (c.len abi)))) := by
  obtain ⟨next, cell⟩ := inv.cell
  have stage : (s.pc t).stage = .inside (.gather 0 (if first then some 1 else none)) :=
    congrArg LocalPc.stage at'
  have begun := inv.avail_pos inside at' rfl (by simp)
  have room := inv.room begun
  set b := if first then s.data else memcpy (c.recvbuf t) s.data (c.len abi) with result
  have length : b.length = (c.recvbuf t).length := by
    rw [result]
    split
    next isFirst =>
      rw [isFirst] at at'
      exact (inv.own t inside at').1
    next => exact length_memcpy room fits
  have idle : c.Idle abi → b = c.recvbuf t := by
    intro none'
    rw [result]
    split
    next isFirst =>
      rw [isFirst] at at'
      exact (inv.own t inside at').2 none'
    next =>
      rw [none'.1]
      rfl
  have reads : ∀ i < v.count, v.read b i = v.read s.data i := by
    intro i below
    rw [result]
    split
    next => rfl
    next => exact v.copied room below
  have atRoot : t = c.root := by
    obtain ⟨_, published⟩ := inv.published inside at' rfl (by simp)
    have joined := published.joined t inside
    have here : (v.party s.pc).stage t = _ := stage
    rw [Coll.Joined, here] at joined
    exact joined
  have outcome : v.outcome t b = { (v.party s.pc).args t with
      recvbuf := copyInts ((v.party s.pc).args t).recvbuf (v.handle s).data
        (min v.count (v.handle s).count) } := by
    have same : copyInts (v.args t).recvbuf (v.read b) v.count =
        copyInts (v.args t).recvbuf (v.read s.data) (min v.count v.count) := by
      funext i
      rw [Nat.min_self]
      unfold copyInts
      split
      next below => exact reads i below
      next => rfl
    rw [View.outcome, same]
    rfl
  refine inv.goto (.done b) rfl id rfl rfl (fun _ => rfl) ⟨next, ?_⟩ ?_ ?_ ?_ ?_
  · rw [v.party_leave, outcome]
    exact (cell.gather inside stage full).2.1
  · simp
  · simp
  · intro b' same
    obtain rfl : b = b' := by simpa using same
    exact ⟨length, fun kind => idle (kind.resolve_left (not_not.mpr atRoot))⟩
  · simp

/-- The first one's data are in a new block, or in its `recvbuf`. -/
theorem publish {pc : LocalPc} {data : Buffer} (at' : s.pc t = .publish)
    (room : c.len abi ≤ (c.sendbuf t).length)
    (copied : ∃ dst, data = memcpy dst (c.sendbuf t) (c.len abi))
    (kind : (pc = .gather true ∧ t = c.root ∧ data.length = (c.recvbuf t).length ∧
        (c.Idle abi → data = c.recvbuf t)) ∨ (pc = .done (c.recvbuf t) ∧ t ≠ c.root)) :
    Inv v ({ s with avail := 1, data, count := c.count }.goto t pc) := by
  obtain ⟨next, cell⟩ := inv.cell
  have stage : (s.pc t).stage = .inside (.publish 0 1) := congrArg LocalPc.stage at'
  have waits := (cell.claimed_of inside stage).2
  have front : c.len abi ≤ data.length := by
    obtain ⟨dst, same⟩ := copied
    rw [same, memcpy, List.length_append, List.length_take, Nat.min_eq_left room]
    exact Nat.le_add_right _ _
  have reads : ∀ i < v.count, v.read data i = ((v.party s.pc).args t).sendbuf i := by
    intro i below
    obtain ⟨dst, same⟩ := copied
    rw [same]
    exact v.copied room below
  have others : ∀ u < c.groupSize, u ≠ t → ∀ pc', s.pc u = pc' → pc'.stage.waiting = true := by
    intro u member other pc' here
    rw [← here]
    exact waits u member other
  have published : Published c.groupSize c.root v.op v.count (v.party (Function.update s.pc t pc))
      (v.handle ({ s with avail := 1, data, count := c.count }.goto t pc)) (some 1) := by
    rcases kind with ⟨rfl, atRoot, -⟩ | ⟨rfl, away⟩
    · have moved : v.party (Function.update s.pc t (.gather true)) =
          (v.party s.pc).goto t (.gather 0 (some 1)) := v.party_goto stage rfl
      rw [moved]
      apply Published.first inside waits (fun u other => Party.goto_stage_ne _ other) rfl
        (Party.goto_stage_self _) rfl (fun gone => by cases gone)
      · unfold Coll.Joined
        rw [Party.goto_stage_self]
        exact atRoot
      · exact reads
    · rw [v.party_leave, v.outcome_recvbuf]
      apply Published.first inside waits (fun u other => Party.leave_stage_ne _ other) rfl
        (Party.leave_stage_self _) rfl (fun _ => away)
      · unfold Coll.Joined
        rw [Party.leave_stage_self]
        exact ⟨_, Party.leave_results_self _, (Coll.reduced_ne away).mpr rfl⟩
      · exact reads
  -- the other threads have not looked behind `avail`
  have only : ∀ u < c.groupSize, ∀ pc', Function.update s.pc t pc u = pc' →
      pc'.stage.waiting = false → u = t ∧ pc = pc' := by
    intro u member pc' here past
    by_cases self : u = t
    · subst self
      rw [Function.update_self] at here
      exact ⟨rfl, here⟩
    · rw [Function.update_of_ne self] at here
      have waiting := others u member self _ here
      rw [past] at waiting
      cases waiting
  refine ⟨⟨some 1, .published published⟩, fun _ => rfl, fun _ => front, fun u member i here => ?_,
    fun u member here => ?_, fun u member b here => ?_, fun u member here => ?_⟩
  · obtain ⟨-, rfl⟩ := only u member _ here rfl
    simp at kind
  · obtain ⟨rfl, rfl⟩ := only u member _ here rfl
    simp only [true_and, reduceCtorEq, false_and, or_false] at kind
    exact kind.2
  · obtain ⟨rfl, rfl⟩ := only u member _ here rfl
    simp only [reduceCtorEq, false_and, false_or, LocalPc.done.injEq] at kind
    rw [kind.1]
    exact ⟨rfl, fun _ => rfl⟩
  · by_cases self : u = t
    · subst self
      have own : pc = .wild := by simpa [LocalReduce.goto] using here
      simp [own] at kind
    · refine inv.wild u member ?_
      simpa [LocalReduce.goto, self] using here

end Steps

theorem step (inv : Inv v s) (inside : t < c.groupSize) (sent : c.len abi ≤ (c.sendbuf t).length)
    (received : c.len abi ≤ (c.recvbuf t).length) (taken : s.step abi c t = some s') : Inv v s' := by
  unfold LocalReduce.step at taken
  cases at' : s.pc t with
  | look =>
      simp only [at', Option.some.injEq] at taken
      exact taken ▸ inv.look inside at'
  | claim =>
      have claimed := inv.claim inside at'
      simp only [at'] at taken
      split at taken
      next unclaimed =>
        rw [if_pos unclaimed] at claimed
        exact Option.some.inj taken ▸ claimed
      next later =>
        rw [if_neg later] at claimed
        exact Option.some.inj taken ▸ claimed
  | publish =>
      simp only [at'] at taken
      split at taken
      next atRoot =>
        cases taken
        apply inv.publish inside at' sent ⟨_, rfl⟩
        refine .inl ⟨rfl, atRoot, length_memcpy sent received, fun none' => ?_⟩
        rw [none'.1]
        rfl
      next away =>
        cases taken
        exact inv.publish inside at' sent ⟨[], by simp [memcpy]⟩ (.inr ⟨rfl, away⟩)
  | await =>
      simp only [at'] at taken
      split at taken
      next => cases taken
      next set =>
        cases taken
        exact inv.await inside at' set
  | combine i =>
      simp only [at'] at taken
      split at taken
      next none' =>
        cases taken
        apply inv.combined inside at'
        have empty := v.unread none'
        omega
      next f has =>
        split at taken
        next below =>
          cases taken
          exact inv.combine inside at' has (by omega)
        next over' =>
          cases taken
          have count := inv.counted (inv.avail_pos inside at' rfl (by simp))
          have few := v.few
          apply inv.combined inside at'
          omega
  | bump =>
      simp only [at', Option.some.injEq] at taken
      exact taken ▸ inv.bump inside at'
  | gather first =>
      simp only [at'] at taken
      split at taken
      next => cases taken
      next full =>
        have gathered := inv.gather inside at' (not_not.mp full) received
        split at taken
        next isFirst =>
          rw [isFirst, if_pos rfl] at gathered
          exact Option.some.inj taken ▸ gathered
        next later =>
          rw [if_neg later] at gathered
          exact Option.some.inj taken ▸ gathered
  | done b =>
      simp only [at'] at taken
      cases taken
  | wild =>
      simp only [at'] at taken
      cases taken

end Inv

/-! ## What a call leaves -/

section Results

variable (fits : ∀ t < c.groupSize, c.len abi ≤ (c.sendbuf t).length ∧
  c.len abi ≤ (c.recvbuf t).length)

include fits

theorem Reach.inv (reach : Reach abi c s) (several : ¬ c.groupSize < 2) (v : View abi c) :
    Inv v s := by
  induction reach with
  | start =>
      have early : ∀ t, (c.start abi).pc t = .look := fun t => if_neg several
      refine ⟨⟨none, .unclaimed ⟨rfl, rfl, fun t _ => ?_⟩⟩, fun begun => ?_, fun begun => ?_,
        fun t _ i here => ?_, fun t _ here => ?_, fun t _ b here => ?_, fun t _ here => ?_⟩
      · change ((c.start abi).pc t).stage.early = true
        rw [early]
        rfl
      · cases begun
      · cases begun
      all_goals
        rw [early] at here
        cases here
  | step _ inside taken ih => exact ih.step inside (fits _ inside).1 (fits _ inside).2 taken

omit fits in
/-- A group of one has returned at once. -/
theorem Reach.alone (reach : Reach abi c s) (single : c.groupSize < 2) (t : Nat) :
    s.pc t = .done (memcpy (c.recvbuf t) (c.sendbuf t) (c.len abi)) := by
  induction reach generalizing t with
  | start => exact if_pos single
  | @step s s' u _ _ taken ih =>
      simp only [LocalReduce.step, ih u] at taken
      cases taken

theorem Leaves.length {after : Nat → Buffer} (left : Leaves abi c after) {t : Nat}
    (inside : t < c.groupSize) : (after t).length = (c.recvbuf t).length := by
  obtain ⟨s, reach, gone⟩ := left
  by_cases single : c.groupSize < 2
  · have here := gone t inside
    rw [reach.alone single, LocalPc.done.injEq] at here
    rw [← here]
    exact length_memcpy (fits t inside).1 (fits t inside).2
  · exact ((reach.inv fits single (.blind abi c)).kept t inside _ (gone t inside)).1

/-- The threads but the root get their `recvbuf` back. -/
theorem Leaves.kept {after : Nat → Buffer} (left : Leaves abi c after) (low : c.root < c.groupSize)
    {t : Nat} (inside : t < c.groupSize) (away : t ≠ c.root) : after t = c.recvbuf t := by
  obtain ⟨s, reach, gone⟩ := left
  by_cases single : c.groupSize < 2
  · omega
  · exact ((reach.inv fits single (.blind abi c)).kept t inside _ (gone t inside)).2 (.inl away)

theorem Leaves.idle {after : Nat → Buffer} (left : Leaves abi c after) (none' : c.Idle abi)
    {t : Nat} (inside : t < c.groupSize) : after t = c.recvbuf t := by
  obtain ⟨s, reach, gone⟩ := left
  by_cases single : c.groupSize < 2
  · have here := gone t inside
    rw [reach.alone single, none'.1, LocalPc.done.injEq] at here
    exact here.symm
  · exact ((reach.inv fits single (.blind abi c)).kept t inside _ (gone t inside)).2 (.inr none')

/-- Where the elements are in the bytes that are copied, no thread goes behind them. -/
theorem Reach.tame (reach : Reach abi c s) (within : c.groupSize < 2 ∨ c.Within abi (c.len abi))
    {t : Nat} (inside : t < c.groupSize) : s.pc t ≠ .wild := by
  intro wild
  by_cases single : c.groupSize < 2
  · rw [reach.alone single] at wild
    cases wild
  · have short := (reach.inv fits single (.blind abi c)).wild t inside wild
    exact short (within.resolve_left single)

/-- What the root gets, seen through a view. -/
theorem Leaves.total (v : View abi c) {after : Nat → Buffer} (left : Leaves abi c after)
    (low : c.root < c.groupSize) {i : Nat} (below : i < v.count) :
    Coll.Totals v.op (Finset.range c.groupSize) (fun t => v.read (c.sendbuf t) i)
      (v.read (after c.root) i) := by
  obtain ⟨s, reach, gone⟩ := left
  have here := gone c.root low
  by_cases single : c.groupSize < 2
  · have only : c.groupSize = 1 := by omega
    have zero : c.root = 0 := by omega
    rw [reach.alone single, LocalPc.done.injEq] at here
    rw [← here, only, v.copied (fits c.root low).1 below, zero]
    exact Coll.totals_singleton v.op 0 fun t => v.read (c.sendbuf t) i
  · obtain ⟨next, cell⟩ := (reach.inv fits single v).cell
    have stage : (v.party s.pc).stage c.root = .after := congrArg LocalPc.stage here
    obtain ⟨⟨b, result, reduced⟩, -⟩ := cell.left low stage
    have known : (v.party s.pc).results c.root = some (v.outcome c.root (after c.root)) := by
      simp only [View.party, here]
    rw [known, Option.some.injEq] at result
    subst result
    obtain ⟨total, each, same⟩ := Coll.reduced_root.mp reduced
    have first := congrArg (fun b : Coll.Buffers => b.recvbuf i) same
    simp only [View.outcome, copyInts, below, if_true] at first
    rw [first]
    exact each i below

end Results

end LocalReduce

/-! ## Some runs -/

namespace RdcCall

variable (abi : Abi) (c : RdcCall)

/-- A whole `simple_reduce` in a block that is large enough. -/
def simpleReduce (data operand : Buffer) : Buffer :=
  match c.opfunc with
  | none => data
  | some f => (List.range c.count).foldl (fun data i => f.rdc abi i data operand) data

/-- A thread that is not the root. -/
def another : Nat := if c.root = 0 then 1 else 0

def rest : List Nat := (List.range c.groupSize).erase c.another

/-- The data if `another` has been the first, and the rest have come in their order. -/
def gathered : Buffer :=
  c.rest.foldl (fun data t => c.simpleReduce abi data (c.sendbuf t))
    ((c.sendbuf c.another).take (c.len abi))

/-- When `another` has been the first. -/
def opened : LocalReduce where
  avail := 1
  data := (c.sendbuf c.another).take (c.len abi)
  count := c.count
  pc := Function.update (fun _ => .look) c.another (.done (c.recvbuf c.another))

/-- Where a thread is that has contributed. -/
def counted (t : Nat) : LocalPc := if t = c.root then .gather false else .done (c.recvbuf t)

variable {abi c}

theorem gathered_recvbuf (recvbuf : Nat → Buffer) :
    ({ c with recvbuf } : RdcCall).gathered abi = c.gathered abi := by
  unfold gathered simpleReduce rest another opfunc len
  rfl

theorem another_ne : c.another ≠ c.root := by
  rw [another]
  split <;> omega

theorem another_lt (several : ¬ c.groupSize < 2) : c.another < c.groupSize := by
  rw [another]
  split <;> omega

theorem length_elements {f : ElemOp} (operand : Buffer) {k : Nat} {data : Buffer}
    (room : k * f.elem.width abi.platform ≤ data.length) :
    ((List.range k).foldl (fun data i => f.rdc abi i data operand) data).length = data.length := by
  induction k with
  | zero => rfl
  | succ k ih =>
      have before : k * f.elem.width abi.platform ≤ data.length :=
        (Nat.mul_le_mul_right _ (Nat.le_succ k)).trans room
      have same := ih before
      rw [List.range_succ, List.foldl_append, List.foldl_cons, List.foldl_nil]
      rw [← same]
      apply Scalar.length_combineAt
      rw [same, ← width_eq]
      exact room

theorem length_simpleReduce {data : Buffer} (operand : Buffer) (within : c.Within abi data.length) :
    (c.simpleReduce abi data operand).length = data.length := by
  unfold simpleReduce
  split
  next => rfl
  next f has => exact length_elements operand (within f has)

theorem length_gathered (sent : c.len abi ≤ (c.sendbuf c.another).length)
    (within : c.Within abi (c.len abi)) : (c.gathered abi).length = c.len abi := by
  have folded : ∀ (others : List Nat) (data : Buffer), data.length = c.len abi →
      (others.foldl (fun data t => c.simpleReduce abi data (c.sendbuf t)) data).length =
        c.len abi := by
    intro others
    induction others with
    | nil => exact fun _ same => same
    | cons t others ih =>
        intro data same
        apply ih
        rw [length_simpleReduce _ (by rw [same]; exact within), same]
  apply folded
  rw [List.length_take, Nat.min_eq_left sent]

end RdcCall

namespace LocalReduce

variable {abi : Abi} {c : RdcCall} {s : LocalReduce} {t : Nat}

/-- The thread that comes first publishes. -/
theorem Reach.opened (several : ¬ c.groupSize < 2) : Reach abi c (c.opened abi) := by
  have inside := RdcCall.another_lt several
  have start : c.start abi = ⟨-1, [], 0, fun _ => .look⟩ := by
    rw [RdcCall.start]
    congr
    funext t
    exact if_neg several
  have begun : Reach abi c ⟨-1, [], 0, fun _ => .look⟩ := start ▸ .start
  have looked : Reach abi c ((⟨-1, [], 0, fun _ => .look⟩ : LocalReduce).goto c.another .claim) :=
    begun.step inside rfl
  have claimed : Reach abi c ((⟨0, [], 0, fun _ => .look⟩ : LocalReduce).goto c.another .publish) := by
    refine looked.step inside ?_
    simp [LocalReduce.step, goto]
  refine claimed.step inside ?_
  simp [LocalReduce.step, goto, RdcCall.another_ne, RdcCall.opened]

/-- A thread that comes later contributes its elements. -/
theorem Reach.contribute (reach : Reach abi c s) (inside : t < c.groupSize) (at' : s.pc t = .look)
    (begun : 0 < s.avail) (count : s.count = c.count) (within : c.Within abi s.data.length) :
    Reach abi c ({ s with
      avail := s.avail + 1, data := c.simpleReduce abi s.data (c.sendbuf t) }.goto t
        (c.counted t)) := by
  have waits : Reach abi c (s.goto t .await) := by
    refine reach.step inside ?_
    simp [LocalReduce.step, at', show s.avail ≠ -1 by omega]
  have enters : Reach abi c (s.goto t (.combine 0)) := by
    refine waits.step inside ?_
    have set : s.avail ≠ 0 := by omega
    simp [LocalReduce.step, goto, set, within]
  have combines : Reach abi c ({ s with data := c.simpleReduce abi s.data (c.sendbuf t) }.goto t
      .bump) := by
    unfold RdcCall.simpleReduce
    split
    next none' =>
      refine enters.step inside ?_
      simp [LocalReduce.step, goto, none']
    next f has =>
      have elements : ∀ k ≤ c.count, Reach abi c ({ s with
          data := (List.range k).foldl (fun data i => f.rdc abi i data (c.sendbuf t)) s.data
          }.goto t (.combine k)) := by
        intro k
        induction k with
        | zero => exact fun _ => enters
        | succ k ih =>
            intro below
            refine (ih (by omega)).step inside ?_
            simp [LocalReduce.step, goto, has, count, List.range_succ, show k < c.count by omega]
      refine (elements c.count (le_refl _)).step inside ?_
      simp [LocalReduce.step, goto, has]
  refine combines.step inside ?_
  simp [LocalReduce.step, goto, RdcCall.counted]

theorem Reach.contribute_all (others : List Nat) (nodup : others.Nodup)
    (inside : ∀ t ∈ others, t < c.groupSize) (reach : Reach abi c s)
    (at' : ∀ t ∈ others, s.pc t = .look) (begun : 0 < s.avail) (count : s.count = c.count)
    (within : c.Within abi s.data.length) :
    ∃ s', Reach abi c s' ∧ s'.avail = s.avail + others.length ∧
      s'.data = others.foldl (fun data t => c.simpleReduce abi data (c.sendbuf t)) s.data ∧
      ∀ t, s'.pc t = if t ∈ others then c.counted t else s.pc t := by
  induction others generalizing s with
  | nil => exact ⟨s, reach, by simp, rfl, by simp⟩
  | cons t others ih =>
      obtain ⟨fresh, distinct⟩ := List.nodup_cons.mp nodup
      have contributed := reach.contribute (inside t (by simp)) (at' t (by simp)) begun count within
      have same := RdcCall.length_simpleReduce (c.sendbuf t) within
      obtain ⟨s', reach', avail, data, pcs⟩ := ih distinct (fun u member => inside u (by simp [member]))
        contributed (fun u member => by
          have other : u ≠ t := fun self => fresh (self ▸ member)
          simp [goto, other, at' u (by simp [member])])
        (by simp only [goto]; omega) count (by simpa only [goto, same] using within)
      refine ⟨s', reach', ?_, data, fun u => ?_⟩
      · rw [avail, List.length_cons]
        simp only [goto]
        omega
      · rw [pcs u]
        by_cases self : u = t
        · subst self
          simp [fresh, goto]
        · simp [self, goto]

section Runs

variable (several : ¬ c.groupSize < 2) (low : c.root < c.groupSize)
  (sent : c.len abi ≤ (c.sendbuf c.another).length)

include several low sent

/-- A run that leaves with the root what another thread has gathered the elements in. -/
theorem leaves_gathered (within : c.Within abi (c.len abi)) : Leaves abi c fun t =>
    if t = c.root then memcpy (c.recvbuf t) (c.gathered abi) (c.len abi) else c.recvbuf t := by
  have length : ((c.sendbuf c.another).take (c.len abi)).length = c.len abi := by
    rw [List.length_take, Nat.min_eq_left sent]
  have distinct : (List.range c.groupSize).Nodup := List.nodup_range
  have listed : ∀ t, t ∈ c.rest ↔ t ≠ c.another ∧ t < c.groupSize := by
    intro t
    rw [RdcCall.rest, distinct.mem_erase_iff, List.mem_range]
  have quiet : ∀ t ∈ c.rest, (c.opened abi).pc t = .look := by
    intro t member
    simp [RdcCall.opened, ((listed t).mp member).1]
  have room : c.Within abi (c.opened abi).data.length := by
    rw [RdcCall.opened, length]
    exact within
  obtain ⟨s, reach, avail, data, pcs⟩ := (Reach.opened several).contribute_all c.rest
    (distinct.erase _) (fun t member => ((listed t).mp member).2) quiet Int.one_pos rfl room
  have total : s.data = c.gathered abi := by rw [data, RdcCall.gathered, RdcCall.opened]
  have full : s.avail = c.groupSize := by
    have rest : c.rest.length = c.groupSize - 1 := by
      rw [RdcCall.rest, List.length_erase_of_mem (List.mem_range.mpr (RdcCall.another_lt several)),
        List.length_range]
    have one : (c.opened abi).avail = 1 := rfl
    rw [avail, rest, one]
    omega
  have root : c.root ∈ c.rest := (listed _).mpr ⟨RdcCall.another_ne.symm, low⟩
  have waits : s.pc c.root = .gather false := by
    rw [pcs, if_pos root]
    exact if_pos rfl
  have gone : Reach abi c (s.goto c.root (.done (memcpy (c.recvbuf c.root) s.data (c.len abi)))) := by
    refine reach.step low ?_
    simp [LocalReduce.step, waits, full]
  refine ⟨_, gone, fun t inside => ?_⟩
  by_cases self : t = c.root
  · subst self
    simp only [goto, Function.update_self, if_true, total]
  · simp only [goto, Function.update_of_ne self, if_neg self, pcs]
    by_cases member : t ∈ c.rest
    · rw [if_pos member]
      exact if_neg self
    · have isFirst : t = c.another := by
        by_contra other
        exact member ((listed t).mpr ⟨other, inside⟩)
      rw [if_neg member, isFirst]
      simp [RdcCall.opened]

/-- Where the elements are not in the bytes that are copied, the root may go behind the data. -/
theorem exists_wild (short : ¬ c.Within abi (c.len abi)) :
    ∃ s, Reach abi c s ∧ s.pc c.root = .wild := by
  have length : ((c.sendbuf c.another).take (c.len abi)).length = c.len abi := by
    rw [List.length_take, Nat.min_eq_left sent]
  have away : c.root ≠ c.another := RdcCall.another_ne.symm
  have looks : Reach abi c ((c.opened abi).goto c.root .await) := by
    refine (Reach.opened several).step low ?_
    simp [LocalReduce.step, goto, RdcCall.opened, away]
  have strays : Reach abi c ((c.opened abi).goto c.root .wild) := by
    refine looks.step low ?_
    simp [LocalReduce.step, goto, RdcCall.opened, length, short]
  exact ⟨_, strays, Function.update_self _ _ _⟩

end Runs

theorem exists_leaves (low : c.root < c.groupSize)
    (sent : ∀ t < c.groupSize, c.len abi ≤ (c.sendbuf t).length)
    (within : c.groupSize < 2 ∨ c.Within abi (c.len abi)) : ∃ after, Leaves abi c after := by
  by_cases several : c.groupSize < 2
  · exact ⟨_, c.start abi, .start, fun t _ => if_pos several⟩
  · exact ⟨_, leaves_gathered several low (sent _ (RdcCall.another_lt several))
      (within.resolve_left several)⟩

end LocalReduce

/-! ## `int`s -/

/-- The operators by their names between machines. -/
def netqOp : RdcOp → Netd.Op
  | .max => .max
  | .min => .min
  | .sum => .sum

theorem rdcElement_int (op : RdcOp) (res src : BitVec 32) :
    rdcElement Netd.intScalar BitVec.sle (netqOp op) res src = Coll.rdcInt op res src := by
  cases op with
  | max => rfl
  | min => rfl
  | sum => exact BitVec.add_comm src res

/-- A buffer read as `int`s. -/
def readInts (b : Buffer) : Ints := fun i => Netd.intScalar.elem i b

/-- The elements of a reduce of `int`s. -/
def View.ints {abi : Abi} {c : RdcCall} (op : RdcOp) (has : c.opfunc = some ⟨.int, netqOp op⟩)
    (whole : 4 * c.count ≤ c.len abi) : View abi c where
  read := readInts
  op := some op
  count := c.count
  few := le_refl _
  unread none' := by
    rw [has] at none'
    cases none'
  copied {dst src i} room below := by
    apply Scalar.elem_memcpy
    · change (i + 1) * 4 ≤ _
      omega
    · exact room
  combined {f i data} operand known below room := by
    obtain rfl : ⟨.int, netqOp op⟩ = f := Option.some.inj (has.symm.trans known)
    have fits : (i + 1) * Netd.intScalar.size ≤ data.length := by
      change c.count * 4 ≤ _ at room
      change (i + 1) * 4 ≤ _
      omega
    funext j
    by_cases here : j = i
    · subst here
      rw [Function.update_self]
      exact (Scalar.elem_combineAt operand fits).trans (rdcElement_int op _ _)
    · rw [Function.update_of_ne here]
      exact Scalar.elem_combineAt_ne operand fits here

end Tmpi.Mpi
