import Tmpi.Mpi.LocalReduce
import Tmpi.Mpi.Single
import Tmpi.Netd.Reduce

/-! One `tmpi_Reduce` of all ranks: the reduces inside the machines, and `netq_reduce` between
them. -/

namespace Tmpi.Mpi

open Netq Network
open Netd (WireByte Event Outcome)

/-! ## The code -/

/-- What a rank passes to `tmpi_Reduce`. -/
structure RankBuffers where
  sendbuf : Buffer
  recvbuf : Buffer

/-- A `tmpi_Reduce` that all ranks make; `lastRoot` is the `last_root` that earlier reduces have left
in `netd_reduce`. -/
structure ReduceCall where
  macs : List MacEntry
  root : Int
  datatype : Datatype
  op : Op
  count : Nat
  lastRoot : Int

namespace ReduceCall

variable (abi : Abi) (c : ReduceCall)

def size : Nat := c.macs.length

def info (m : Nat) : Info := netqStart c.macs m

/-- How many threads machine `m` has. -/
def threads (m : Nat) : Nat := (c.macs.getD m ⟨[], []⟩).nNodes

def localRoot (m : Nat) : Nat := (Mpi.localRoot (c.info m) c.root).toNat

/-- The machine of the root. -/
def rootMac : Nat := (netqGetMacID (c.info 0) c.root).getD 0

/-- `int buflen=count*tmpi_Usize(datatype)`. -/
def buflen : Int := wrap (c.count * abi.usize c.datatype)

/-- What the threads of machine `m` pass to `tmpi_rdco_reduce`. -/
def rdc (m : Nat) (sendbuf recvbuf : Nat → Buffer) : RdcCall where
  groupSize := c.threads m
  root := if c.size > 1 then c.localRoot m else c.root.toNat
  count := c.count
  datatype := c.datatype
  op := c.op
  sendbuf
  recvbuf

/-- The function of `netd_reduce`, if it has one. -/
def netdFunc : Option ElemOp := do netdElemOp (← typeMpi2netq c.datatype) (← opMpi2netq c.op)

/-- The machine of the root, which copies `len` bytes and combines `nelem` elements, stays in its
`tmp_buf`. -/
def NetdWithin (dtype : Netd.DataType) : Prop := ∀ f ∈ c.netdFunc,
  Netd.reduceLen abi.platform c.count dtype ≤ c.buflen abi ∧
    c.count * f.elem.width abi.platform ≤ c.buflen abi

instance (dtype : Netd.DataType) : Decidable (c.NetdWithin abi dtype) :=
  inferInstanceAs (Decidable (∀ f ∈ c.netdFunc, _))

/-- The machines in `netq_reduce`, each with the `tmp_buf` and the `recvbuf` of its local root. They
are not followed where memory behind a `tmp_buf` or outside the tables is accessed. -/
def netqReduce (tmpBuf recvbuf : Nat → Buffer) : State Nat WireByte Event Outcome where
  proc m :=
    if m < c.size then
      match typeMpi2netq c.datatype, opMpi2netq c.op with
      | some dtype, some netqOp =>
          if c.NetdWithin abi dtype then do
            let (outcome, _) ← Netd.netdReduce abi.platform (Netd.groupInfo c.size m) 0 (tmpBuf m)
              (recvbuf m) c.count netqOp dtype c.rootMac { reduceLastRoot := c.lastRoot }
            return outcome
          else .stop
      | _, _ => .stop
    else .done ⟨0, [], []⟩
  link _ _ := []
  log _ := []

section Runs

variable (passed : IdEntry → RankBuffers)

/-- Machine `m` reduces into `recvbuf`. -/
def inside (m : Nat) (recvbuf : IdEntry → Buffer) : RdcCall :=
  c.rdc m (fun l => (passed ⟨m, l⟩).sendbuf) fun l => recvbuf ⟨m, l⟩

/-- All machines have reduced into their `tmp_buf`s, which holds `reduced` then. -/
structure Gathered (tmpBuf reduced : IdEntry → Buffer) : Prop where
  allocated : ∀ entry, (tmpBuf entry).length = (c.buflen abi).toNat
  leaves : ∀ m < c.size, LocalReduce.Leaves abi (c.inside passed m tmpBuf) fun l => reduced ⟨m, l⟩

/-- A state of the machines in `netq_reduce`. -/
def Between (net : State Nat WireByte Event Outcome) : Prop :=
  ∃ tmpBuf reduced schedule, c.Gathered abi passed tmpBuf reduced ∧
    exec schedule (c.netqReduce abi (fun m => reduced ⟨m, c.localRoot m⟩)
      fun m => (passed ⟨m, c.localRoot m⟩).recvbuf) = some net

/-- All ranks have made the call and have returned with `after` in their `recvbuf`s. -/
inductive Returns (after : IdEntry → Buffer) : Prop where
  /-- There is no `tmp_buf` of a negative size, and they return at once. -/
  | refused (negative : c.buflen abi < 0) (same : ∀ entry, after entry = (passed entry).recvbuf)
  /-- The local roots have been in `netq_reduce`. -/
  | between (allocated : 0 ≤ c.buflen abi) (several : c.size > 1)
      (net : State Nat WireByte Event Outcome) (reached : c.Between abi passed net)
      (ends : ∀ m < c.size, ∃ outcome, net.proc m = .done outcome ∧ ∀ l < c.threads m,
        after ⟨m, l⟩ = if l = c.localRoot m then outcome.result else (passed ⟨m, l⟩).recvbuf)
  /-- The only machine reduces into the `recvbuf`s. -/
  | alone (allocated : 0 ≤ c.buflen abi) (single : ¬ c.size > 1)
      (leaves : LocalReduce.Leaves abi (c.inside passed 0 fun entry => (passed entry).recvbuf)
        fun l => after ⟨0, l⟩)

/-- In some run of the call memory behind a block is accessed. -/
inductive Strays : Prop where
  /-- In a `tmpi_rdco_reduce` of machine `m`, one of several. -/
  | inside (allocated : 0 ≤ c.buflen abi) (several : c.size > 1) (tmpBuf : IdEntry → Buffer)
      (sizes : ∀ entry, (tmpBuf entry).length = (c.buflen abi).toNat) (m : Nat) (member : m < c.size)
      (wild : ∃ s, LocalReduce.Reach abi (c.inside passed m tmpBuf) s ∧
        ∃ t < c.threads m, s.pc t = .wild)
  /-- In `netq_reduce`. -/
  | between (allocated : 0 ≤ c.buflen abi) (several : c.size > 1)
      (stops : ∃ net, c.Between abi passed net ∧ ∃ m < c.size, net.proc m = .stop)
  /-- In a `tmpi_rdco_reduce` of the only machine. -/
  | alone (allocated : 0 ≤ c.buflen abi) (single : ¬ c.size > 1)
      (wild : ∃ s, LocalReduce.Reach abi
        (c.inside passed 0 fun entry => (passed entry).recvbuf) s ∧
          ∃ t < c.threads 0, s.pc t = .wild)

/-- The buffers have the elements of the call. -/
def Fits : Prop := ∀ entry, c.count * abi.usize c.datatype ≤ (passed entry).sendbuf.length ∧
  c.count * abi.usize c.datatype ≤ (passed entry).recvbuf.length

end Runs

/-! ## The machines -/

section Places

variable {c} (accepted : Accepted c.macs) (nonneg : 0 ≤ c.root)
  (rank : c.root < (c.macs.map MacEntry.nNodes).sum)

include accepted nonneg rank

/-- The root is a thread of its machine. -/
theorem root_place : ∃ l, (c.root, (⟨c.rootMac, l⟩ : IdEntry)) ∈ places c.macs ∧
    c.rootMac < c.size ∧ l < c.threads c.rootMac := by
  obtain ⟨⟨m, l⟩, mac, member, place, node⟩ := accepted.exists_place nonneg rank
  have known := (accepted.trans_iff 0 c.root ⟨m, l⟩).mpr member
  have here : c.rootMac = m := by
    rw [rootMac, info, getMacID_eq, known]
    rfl
  rw [here]
  refine ⟨l, member, (List.getElem?_eq_some_iff.mp place).1, ?_⟩
  rw [threads, List.getD_eq_getElem?_getD, place]
  exact (List.getElem?_eq_some_iff.mp node).1

/-- On the machine of the root the local root is the root. -/
theorem localRoot_root : (c.root, (⟨c.rootMac, c.localRoot c.rootMac⟩ : IdEntry)) ∈ places c.macs := by
  obtain ⟨l, member, -⟩ := root_place accepted nonneg rank
  have known := (accepted.local_iff c.rootMac c.root l).mpr member
  have here : netqIsLocalNode (c.info c.rootMac) c.root = true := by
    rw [isLocalNode_iff, info, known]
    exact Int.natCast_nonneg l
  rw [localRoot, Mpi.localRoot, if_pos here, info, known, Int.toNat_natCast]
  exact member

omit nonneg rank in
/-- Every machine has its local root. -/
theorem localRoot_lt (threads : ∀ mac ∈ c.macs, 0 < mac.nNodes) {m : Nat} (inside : m < c.size) :
    c.localRoot m < c.threads m := by
  have place : c.macs[m]? = some c.macs[m] := List.getElem?_eq_getElem inside
  have count : c.threads m = (c.macs[m]).nNodes := by
    rw [ReduceCall.threads, List.getD_eq_getElem?_getD, place]
    rfl
  rw [count, localRoot, Mpi.localRoot]
  split
  next here =>
    rw [isLocalNode_iff] at here
    obtain ⟨l, known⟩ := Int.eq_ofNat_of_zero_le here
    obtain ⟨mac, place', node⟩ := mem_places.mp ((accepted.local_iff m c.root l).mp known)
    rw [place, Option.some.injEq] at place'
    rw [known, place']
    exact (List.getElem?_eq_some_iff.mp node).1
  next => exact threads _ (List.getElem_mem inside)

omit accepted nonneg rank in
theorem place_lt {g : Int} {m l : Nat} (place : (g, (⟨m, l⟩ : IdEntry)) ∈ places c.macs) :
    m < c.size ∧ l < c.threads m := by
  obtain ⟨mac, here, node⟩ := mem_places.mp place
  refine ⟨(List.getElem?_eq_some_iff.mp here).1, ?_⟩
  rw [ReduceCall.threads, List.getD_eq_getElem?_getD, here]
  exact (List.getElem?_eq_some_iff.mp node).1

omit accepted nonneg rank in
/-- A thread has a rank. -/
theorem exists_rank {m l : Nat} (inside : m < c.size) (thread : l < c.threads m) :
    ∃ g, (g, (⟨m, l⟩ : IdEntry)) ∈ places c.macs := by
  have here : c.macs[m]? = some c.macs[m] := List.getElem?_eq_getElem inside
  have node : l < (c.macs[m]).nodeIDs.length := by
    rw [ReduceCall.threads, List.getD_eq_getElem?_getD, here] at thread
    exact thread
  exact ⟨_, mem_places.mpr ⟨_, here, List.getElem?_eq_getElem node⟩⟩

/-- On one machine the root is less than the number of its threads. -/
theorem root_thread (alone : ¬ c.size > 1) : c.root.toNat < c.threads 0 := by
  obtain ⟨-, -, inRoot, -⟩ := root_place accepted nonneg rank
  have single : c.macs.length = 1 := by
    change ¬ c.macs.length > 1 at alone
    change c.rootMac < c.macs.length at inRoot
    omega
  obtain ⟨mac, same⟩ := List.length_eq_one_iff.mp single
  have count : c.threads 0 = mac.nNodes := by
    rw [threads, same]
    rfl
  rw [same] at rank
  simp only [List.map_cons, List.map_nil, List.sum_cons, List.sum_nil, add_zero] at rank
  omega

/-- `tmpi_rdco_reduce` gets the number of a thread for its root. -/
theorem rdc_root_lt (threads : ∀ mac ∈ c.macs, 0 < mac.nNodes) {m : Nat} (inside : m < c.size)
    (passed : IdEntry → RankBuffers) (recvbuf : IdEntry → Buffer) :
    (c.inside passed m recvbuf).root < c.threads m := by
  change (if c.size > 1 then c.localRoot m else c.root.toNat) < c.threads m
  split
  next => exact localRoot_lt accepted threads inside
  next alone =>
    have zero : m = 0 := by omega
    rw [zero]
    exact root_thread accepted nonneg rank alone

end Places

/-! ## Lengths -/

section Lengths

variable {abi : Abi} {c : ReduceCall} {passed : IdEntry → RankBuffers}

theorem len_inside (m : Nat) (recvbuf : IdEntry → Buffer) :
    (c.inside passed m recvbuf).len abi = (c.buflen abi).toNat := by
  rw [buflen, mul_comm]
  rfl

theorem buflen_le : (c.buflen abi).toNat ≤ c.count * abi.usize c.datatype := by
  have least := @wrap_le (c.count * abi.usize c.datatype) (by positivity)
  rw [buflen]
  omega

/-- Four bytes of each element fit only if all eight do. -/
theorem wrap_eight {n : Nat} (room : (n * 4 : Int) ≤ wrap (n * 8)) : wrap (n * 8) = n * 8 := by
  obtain ⟨k, parts⟩ := exists_wrap ((n * 8 : Nat) : Int)
  have most := wrap_lt (n * 8)
  push_cast at parts
  omega

/-- Where the root's machine stays in its `tmp_buf`, that has all elements of the row. -/
theorem netd_fits (nonneg : 0 ≤ c.buflen abi) {dtype : Netd.DataType} {netqOp : Netd.Op}
    {opfunc : Netd.OpFunc} (type : typeMpi2netq c.datatype = some dtype)
    (operator : opMpi2netq c.op = some netqOp) (within : c.NetdWithin abi dtype)
    (entry : Netd.optable abi.platform dtype netqOp = some opfunc) :
    c.count * Netd.dtypetable abi.platform dtype ≤ (c.buflen abi).toNat := by
  rw [optable_eq] at entry
  obtain ⟨f, has, -⟩ := Option.map_eq_some_iff.mp entry
  have known : c.netdFunc = some f := by
    rw [netdFunc, type, operator]
    exact has
  obtain ⟨-, room⟩ := within f known
  have double := abi.platform.double_size
  have float := abi.platform.float_size
  -- the elements have the width of the row, but for `long`s of eight bytes
  cases dtype with
  | none | chr => cases netqOp <;> cases has
  | int =>
      have elem : f.elem = .int := by cases netqOp <;> cases has <;> rfl
      simp only [elem, Elem.width, Netd.intScalar] at room
      simp only [Netd.dtypetable]
      omega
  | flt =>
      have elem : f.elem = .double := by cases netqOp <;> cases has <;> rfl
      simp only [elem, Elem.width, double] at room
      simp only [Netd.dtypetable]
      omega
  | dbl =>
      have elem : f.elem = .float := by cases netqOp <;> cases has <;> rfl
      simp only [elem, Elem.width, float] at room
      simp only [Netd.dtypetable]
      omega
  | lng =>
      have elem : f.elem = .int := by cases netqOp <;> cases has <;> rfl
      have long : abi.usize c.datatype = abi.platform.sizeofLong := by
        cases datatype : c.datatype <;> (rw [datatype] at type; cases type; try rfl)
      simp only [elem, Elem.width, Netd.intScalar] at room
      simp only [Netd.dtypetable]
      have whole : c.buflen abi = wrap (c.count * abi.platform.sizeofLong) := by rw [buflen, long]
      rcases abi.long with short | wide
      · rw [short]
        omega
      · rw [wide] at whole ⊢
        rw [whole] at room ⊢
        have same := wrap_eight (n := c.count) (by exact_mod_cast room)
        have exact : wrap (c.count * (8 : Nat)) = c.count * 8 := by exact_mod_cast same
        rw [exact]
        omega

theorem buflen_lt : c.buflen abi < 2^31 := wrap_lt _

theorem reduceLen_fits {dtype : Netd.DataType}
    (fits : c.count * Netd.dtypetable abi.platform dtype ≤ (c.buflen abi).toNat) :
    Netd.reduceLen abi.platform c.count dtype =
      (c.count * Netd.dtypetable abi.platform dtype : Nat) := by
  have small := @buflen_lt abi c
  rw [Netd.reduceLen, ← Nat.cast_mul]
  apply wrap_eq
  · omega
  · omega

end Lengths

/-! ## Between the machines -/

section Netq

variable {abi : Abi} {c : ReduceCall} {dtype : Netd.DataType} {netqOp : Netd.Op}

theorem netdFunc_eq (type : typeMpi2netq c.datatype = some dtype)
    (operator : opMpi2netq c.op = some netqOp) : c.netdFunc = netdElemOp dtype netqOp := by
  rw [netdFunc, type, operator]
  rfl

/-- What a reduce leaves with machine `m`, in every run: nothing goes wrong, and without a function
nothing changes. -/
theorem netqReduce_outcome (several : ¬ c.size < 2) (inRoot : c.rootMac < c.size)
    (nonneg : 0 ≤ c.buflen abi) (type : typeMpi2netq c.datatype = some dtype)
    (operator : opMpi2netq c.op = some netqOp) (within : c.NetdWithin abi dtype)
    {tmpBuf recvbuf : Nat → Buffer} (src : ∀ m < c.size, (c.buflen abi).toNat ≤ (tmpBuf m).length)
    (result : ∀ m < c.size, (c.buflen abi).toNat ≤ (recvbuf m).length) :
    ∃ outcome : Nat → Outcome,
      (∀ schedule net, exec schedule (c.netqReduce abi tmpBuf recvbuf) = some net → ∀ m < c.size,
        net.proc m ≠ .stop ∧ ∀ last, net.proc m = .done last → last = outcome m) ∧
      (∃ schedule net, exec schedule (c.netqReduce abi tmpBuf recvbuf) = some net ∧
        ∀ m < c.size, net.proc m = .done (outcome m)) ∧
      (c.netdFunc = none → ∀ m, (outcome m).result = recvbuf m) ∧
      ∀ f, c.netdFunc = some f → ∃ share,
        Netd.Shares (Netd.reduceTree inRoot (Netd.chooseAlgorithm c.size c.lastRoot c.rootMac))
          (f.func abi.platform) c.count (Netd.reduceBytes abi.platform c.count dtype) tmpBuf recvbuf
          share ∧
        outcome = Netd.finalOutcome (Netd.chooseAlgorithm c.size c.lastRoot c.rootMac) c.rootMac
          tmpBuf recvbuf share := by
  set algorithm := Netd.chooseAlgorithm c.size c.lastRoot c.rootMac
  let code := fun m => Netd.reduceBy abi.platform (Netd.groupInfo c.size m) 0 (tmpBuf m) (recvbuf m)
    c.count netqOp dtype c.rootMac algorithm >>= fun outcome => (.done outcome : Netd.Code Outcome)
  -- all machines choose the same algorithm, and then run it
  have runs : ∀ (outcome : Nat → Outcome) (events : Nat → List Event),
      Phase (Finset.range c.size) code (fun m => .done (outcome m)) events →
      (∀ schedule net, exec schedule (c.netqReduce abi tmpBuf recvbuf) = some net → ∀ m < c.size,
        net.proc m ≠ .stop ∧ ∀ last, net.proc m = .done last → last = outcome m) ∧
      ∃ schedule net, exec schedule (c.netqReduce abi tmpBuf recvbuf) = some net ∧
        ∀ m < c.size, net.proc m = .done (outcome m) := by
    intro outcome events phase
    have whole := (phase_note (fun _ => .chose 0 .reduce algorithm) code).trans phase
    have stands : Stands (Finset.range c.size)
        (fun m => .note (.chose 0 .reduce algorithm) (code m))
        (c.netqReduce abi tmpBuf recvbuf) := by
      refine ⟨fun _ _ => rfl, fun m member => ?_, fun m outside => ⟨⟨0, [], []⟩, ?_⟩⟩
      · simp only [netqReduce, Finset.mem_range.mp member, if_true, type, operator, within]
        exact @Netd.netdReduce_bind c.size 0 _ abi.platform c.count netqOp dtype m c.rootMac
          (tmpBuf m) (recvbuf m) { reduceLastRoot := c.lastRoot } fun out => .done out.1
      · simp [netqReduce, show ¬ m < c.size by simpa using outside]
    refine ⟨fun schedule net ran m inside => ⟨fun stopped => ?_, fun last done =>
      phase_done whole stands ran (Finset.mem_range.mpr inside) done⟩, ?_⟩
    · obtain ⟨⟨remaining, final, rest, ended⟩, -⟩ := phase_runs whole stands ran
      obtain ⟨value, done⟩ := ended m
      rw [exec_stop rest stopped] at done
      cases done
    · have started : exec [] (c.netqReduce abi tmpBuf recvbuf) =
        some (c.netqReduce abi tmpBuf recvbuf) := rfl
      obtain ⟨⟨schedule, net, ran, ended⟩, -, -⟩ := phase_runs whole stands started
      have final := ((phase_runs whole stands ran).2.2 ended).1
      exact ⟨schedule, net, ran, fun m inside => final.inside m (Finset.mem_range.mpr inside)⟩
  cases has : c.netdFunc with
  | none =>
      have entry : Netd.optable abi.platform dtype netqOp = none := by
        rw [optable_eq, ← netdFunc_eq type operator, has]
        rfl
      have phase : Phase (Finset.range c.size) code (fun m => .done ⟨-1, tmpBuf m, recvbuf m⟩)
          fun _ => [] := by
        refine phase_silent fun m _ => ?_
        simp only [code]
        rw [Netd.reduceBy_undefined abi.platform 0 c.count netqOp dtype _ _ entry, Prog.done_bind]
      obtain ⟨done, completes⟩ := runs _ _ phase
      exact ⟨_, done, completes, fun _ _ => rfl, fun f known => by cases known⟩
  | some f =>
      have entry : Netd.optable abi.platform dtype netqOp = some (f.func abi.platform) := by
        rw [optable_eq, ← netdFunc_eq type operator, has]
        rfl
      have fits := netd_fits nonneg type operator within entry
      have length : 0 ≤ Netd.reduceLen abi.platform c.count dtype := by
        rw [reduceLen_fits fits]
        exact Int.natCast_nonneg _
      obtain ⟨share, events, shares, -, phase⟩ := Netd.reduceBy_group_phase 0 inRoot entry length
        algorithm tmpBuf recvbuf (fun m inside => fits.trans (src m inside))
        (fun m inside => fits.trans (result m inside)) several
        (fun _ outcome => (.done outcome : Netd.Code Outcome))
      obtain ⟨done, completes⟩ := runs _ _ phase
      refine ⟨_, done, completes, fun unknown => (by cases unknown), fun g known => ?_⟩
      obtain rfl := Option.some.inj known
      exact ⟨share, shares, rfl⟩

end Netq

end ReduceCall

end Tmpi.Mpi
