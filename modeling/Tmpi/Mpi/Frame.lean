import Tmpi.Mpi.Reduce

/-! What a `tmpi_Reduce` does to the receive buffers of the ranks. -/

namespace Tmpi.Mpi

open Netq Network
open Netd (WireByte Event Outcome)

/-- Nothing is combined where there are no elements. -/
theorem gathered_zero {platform : Netd.Platform} (f : ElemOp) (dtype : Netd.DataType)
    (src result : Buffer) (values : List Buffer) :
    (Netd.gathered (f.func platform) 0 (Netd.reduceBytes platform 0 dtype) src result values).2 =
      result := by
  have bytes : Netd.reduceBytes platform 0 dtype = 0 := by
    have most := Netd.reduceBytes_le platform 0 dtype
    omega
  have folded : ∀ buffers : Buffer × Buffer, (values.foldl (fun buffers value =>
      (memcpy buffers.1 value 0, f.func platform buffers.2 (memcpy buffers.1 value 0) 0))
      buffers).2 = buffers.2 := by
    induction values with
    | nil => exact fun _ => rfl
    | cons value values ih =>
        intro buffers
        rw [List.foldl_cons, ih]
        obtain ⟨elem, op⟩ := f
        cases op <;> rfl
  rw [bytes, Netd.gathered, folded]
  rfl

theorem head?_memcpy {dst src : Buffer} {len : Nat} (positive : 0 < len) (room : len ≤ src.length) :
    (memcpy dst src len).head? = src.head? := by
  obtain ⟨len, rfl⟩ := Nat.exists_eq_succ_of_ne_zero positive.ne'
  cases src with
  | nil => cases room
  | cons x src => rfl

namespace ReduceCall

variable (abi : Abi) (c : ReduceCall)

/-- No run accesses memory behind a block, and the ranks but the root find their `recvbuf`s as they
were. -/
def Frames : Prop := ∀ passed, c.Fits abi passed → ¬ c.Strays abi passed ∧
  ∀ after, c.Returns abi passed after → ∀ g entry, (g, entry) ∈ places c.macs → g ≠ c.root →
    after entry = (passed entry).recvbuf

/-- `simple_reduce` stays in the block of a machine's first thread. -/
def LocalWithin (m : Nat) : Prop := c.threads m < 2 ∨
  ∀ f ∈ simpleReduceOp c.datatype c.op, c.count * f.elem.width abi.platform ≤ (c.buflen abi).toNat

instance (m : Nat) : Decidable (c.LocalWithin abi m) :=
  inferInstanceAs (Decidable (_ ∨ ∀ f ∈ simpleReduceOp c.datatype c.op, _))

/-- `netd_reduce` finds its function in the tables, and stays in `tmp_buf`. -/
def NetdSound : Prop :=
  (∃ dtype ∈ typeMpi2netq c.datatype, c.NetdWithin abi dtype) ∧ opMpi2netq c.op ≠ none

instance : Decidable (c.NetdSound abi) :=
  inferInstanceAs (Decidable ((∃ dtype ∈ typeMpi2netq c.datatype, _) ∧ _))

/-- The reduces that write to no `recvbuf` but the root's. -/
def Spares : Prop :=
  c.buflen abi < 0 ∨
  if c.size > 1 then
    (∀ m < c.size, c.LocalWithin abi m) ∧ c.NetdSound abi ∧
      (c.netdFunc = none ∨ c.count = 0 ∨
        Netd.chooseAlgorithm c.size c.lastRoot c.rootMac = .simple)
  else c.LocalWithin abi 0 ∧ (c.buflen abi = 0 ∨ tmpiGrankToLrank (c.info 0) c.root = c.root)

instance : Decidable (c.Spares abi) := inferInstanceAs (Decidable (_ ∨ ite _ _ _))

section Blocks

variable {abi} {c} {passed : IdEntry → RankBuffers} (fits : c.Fits abi passed)

include fits

/-- The buffers of a reduce inside a machine have the bytes that it copies. -/
theorem inside_fits {recvbuf : IdEntry → Buffer}
    (room : ∀ entry, (c.buflen abi).toNat ≤ (recvbuf entry).length) (m : Nat) :
    ∀ t < (c.inside passed m recvbuf).groupSize,
      (c.inside passed m recvbuf).len abi ≤ ((c.inside passed m recvbuf).sendbuf t).length ∧
      (c.inside passed m recvbuf).len abi ≤ ((c.inside passed m recvbuf).recvbuf t).length := by
  intro t _
  rw [len_inside]
  exact ⟨buflen_le.trans (fits ⟨m, t⟩).1, room ⟨m, t⟩⟩

theorem recvbuf_fits (entry : IdEntry) : (c.buflen abi).toNat ≤ (passed entry).recvbuf.length :=
  buflen_le.trans (fits entry).2

omit fits in
theorem LocalWithin.inside {m : Nat} (within : c.LocalWithin abi m) (recvbuf : IdEntry → Buffer) :
    (c.inside passed m recvbuf).groupSize < 2 ∨
      (c.inside passed m recvbuf).Within abi ((c.inside passed m recvbuf).len abi) := by
  rw [len_inside]
  exact within

/-- The `tmp_buf`s of the local roots have their size still. -/
theorem Gathered.length {tmpBuf reduced : IdEntry → Buffer}
    (gathered : c.Gathered abi passed tmpBuf reduced) {m l : Nat} (inside : m < c.size)
    (thread : l < c.threads m) : (reduced ⟨m, l⟩).length = (c.buflen abi).toNat := by
  have room := inside_fits fits (fun entry => (gathered.allocated entry).ge) m
  have same := (gathered.leaves m inside).length room thread
  exact same.trans (gathered.allocated ⟨m, l⟩)

end Blocks

/-- Where a machine's local id of the root is its rank, the root has that place. -/
theorem straight_place {c : ReduceCall} (accepted : Accepted c.macs) (nonneg : 0 ≤ c.root)
    (straight : tmpiGrankToLrank (c.info 0) c.root = c.root) :
    (c.root, (⟨0, c.root.toNat⟩ : IdEntry)) ∈ places c.macs := by
  apply (accepted.local_iff 0 c.root c.root.toNat).mp
  rw [Int.toNat_of_nonneg nonneg]
  exact straight

/-! ## Where they are spared -/

section Spared

variable {abi} {c} (accepted : Accepted c.macs) (threads : ∀ mac ∈ c.macs, 0 < mac.nNodes)
  (nonneg : 0 ≤ c.root) (rank : c.root < (c.macs.map MacEntry.nNodes).sum)
  {passed : IdEntry → RankBuffers} (fits : c.Fits abi passed) (allocated : 0 ≤ c.buflen abi)

include accepted threads nonneg rank fits allocated

omit accepted threads nonneg rank in
/-- What a machine leaves that is in `netq_reduce`. -/
theorem between_outcome (inRoot : c.rootMac < c.size) (several : c.size > 1)
    (roots : ∀ m < c.size, c.localRoot m < c.threads m) (sound : c.NetdSound abi)
    {net : State Nat WireByte Event Outcome} (between : c.Between abi passed net) {m : Nat}
    (inside : m < c.size) : net.proc m ≠ .stop ∧ ∀ last, net.proc m = .done last →
      (c.netdFunc = none ∨ c.count = 0 ∨
        Netd.chooseAlgorithm c.size c.lastRoot c.rootMac = .simple ∧ m ≠ c.rootMac) →
      last.result = (passed ⟨m, c.localRoot m⟩).recvbuf := by
  obtain ⟨tmpBuf, reduced, schedule, gathered, ran⟩ := between
  obtain ⟨⟨dtype, type, within⟩, known⟩ := sound
  obtain ⟨netqOp, operator⟩ := Option.ne_none_iff_exists'.mp known
  obtain ⟨outcome, all, -, unknown, final⟩ := netqReduce_outcome (by omega) inRoot allocated type
    operator within (fun m inside => (gathered.length fits inside (roots m inside)).ge)
    (fun m _ => recvbuf_fits fits ⟨m, c.localRoot m⟩)
  obtain ⟨going, ended⟩ := all schedule net ran m inside
  refine ⟨going, fun last done kind => ?_⟩
  rw [ended last done]
  cases has : c.netdFunc with
  | none => exact unknown has m
  | some f =>
      obtain ⟨share, shares, rfl⟩ := final f has
      rcases kind with none' | zero | sender
      · rw [has] at none'
        cases none'
      · rw [Netd.finalOutcome]
        split
        next => rfl
        next =>
          rw [shares.combined m inside, zero]
          exact gathered_zero f dtype _ _ _
      · rw [Netd.finalOutcome, if_pos sender]

/-- Where the lengths fit, no run accesses memory behind a block. -/
theorem tame (within : ∀ m < c.size, c.LocalWithin abi m) (sound : c.size > 1 → c.NetdSound abi) :
    ¬ c.Strays abi passed := by
  obtain ⟨-, -, inRoot, -⟩ := root_place accepted nonneg rank
  have roots : ∀ m < c.size, c.localRoot m < c.threads m := fun m inside =>
    localRoot_lt accepted threads inside
  intro strays
  cases strays with
  | inside _ _ tmpBuf sizes m member wild =>
      obtain ⟨s, reach, t, thread, wild⟩ := wild
      have room := inside_fits fits (fun entry => (sizes entry).ge) m
      exact reach.tame room ((within m member).inside tmpBuf) thread wild
  | between _ several stops =>
      obtain ⟨net, between, m, member, stopped⟩ := stops
      have outcome := between_outcome fits allocated inRoot several roots (sound several) between
        member
      exact outcome.1 stopped
  | alone _ _ wild =>
      obtain ⟨s, reach, t, thread, wild⟩ := wild
      have room := inside_fits fits (recvbuf_fits fits) 0
      exact reach.tame room ((within 0 (by omega)).inside _) thread wild

theorem spared (spares : c.Spares abi) : ¬ c.Strays abi passed ∧
    ∀ after, c.Returns abi passed after → ∀ g entry, (g, entry) ∈ places c.macs → g ≠ c.root →
      after entry = (passed entry).recvbuf := by
  obtain ⟨-, -, inRoot, -⟩ := root_place accepted nonneg rank
  have large : ¬ c.buflen abi < 0 := not_lt.mpr allocated
  have roots : ∀ m < c.size, c.localRoot m < c.threads m := fun m inside =>
    localRoot_lt accepted threads inside
  have kind := spares.resolve_left large
  refine ⟨?_, fun after returns g entry place other => ?_⟩
  · by_cases several : c.size > 1
    · rw [if_pos several] at kind
      exact tame accepted threads nonneg rank fits allocated kind.1 fun _ => kind.2.1
    · rw [if_neg several] at kind
      apply tame accepted threads nonneg rank fits allocated
      · intro m inside
        obtain rfl : m = 0 := by omega
        exact kind.1
      · exact fun more => absurd more several
  · obtain ⟨m, l⟩ := entry
    obtain ⟨inside, thread⟩ := place_lt place
    cases returns with
    | refused _ same => exact same ⟨m, l⟩
    | between _ several net between ends =>
        rw [if_pos several] at kind
        obtain ⟨-, sound, kind⟩ := kind
        obtain ⟨last, done, buffers⟩ := ends m inside
        rw [buffers l thread]
        split
        next isLocalRoot =>
          subst isLocalRoot
          have away : m ≠ c.rootMac := by
            rintro rfl
            exact other (rank_unique place (localRoot_root accepted nonneg rank))
          apply (between_outcome fits allocated inRoot several roots sound between inside).2 last done
          rcases kind with none' | zero | simple
          · exact .inl none'
          · exact .inr (.inl zero)
          · exact .inr (.inr ⟨simple, away⟩)
        next => rfl
    | alone _ single left =>
        rw [if_neg single] at kind
        obtain ⟨within, kind⟩ := kind
        have room := inside_fits fits (recvbuf_fits fits) 0
        obtain rfl : m = 0 := by omega
        rcases kind with nothing | straight
        · -- a single thread is the root
          have many : ¬ c.threads 0 < 2 := by
            intro one
            obtain ⟨l', member, inRoot', thread'⟩ := root_place accepted nonneg rank
            have zero : c.rootMac = 0 := by omega
            rw [zero] at member thread'
            obtain rfl : l = l' := by omega
            exact other (rank_unique place member)
          have idle : (c.inside passed 0 fun entry => (passed entry).recvbuf).Idle abi := by
            refine ⟨by rw [len_inside, nothing]; rfl, fun f has => ?_⟩
            have room' := within.resolve_left many f has
            have wide := width_pos abi f.elem
            rw [nothing] at room'
            have nothing' := Nat.mul_eq_zero.mp (Nat.le_zero.mp room')
            exact nothing'.resolve_right wide.ne'
          exact left.idle room idle thread
        · have away : l ≠ c.root.toNat := by
            rintro rfl
            have known := straight_place accepted nonneg straight
            exact other (rank_unique place known)
          have root : (c.inside passed 0 fun entry => (passed entry).recvbuf).root = c.root.toNat :=
            if_neg single
          apply left.kept room (by rw [root]; exact root_thread accepted nonneg rank single) thread
          rw [root]
          exact away

end Spared

/-! ## Where they are not -/

/-- Buffers of zeros. -/
def blank (recvbuf : IdEntry → UInt8) : IdEntry → RankBuffers := fun entry =>
  ⟨List.replicate (c.count * abi.usize c.datatype) 0,
    List.replicate (c.count * abi.usize c.datatype) (recvbuf entry)⟩

/-- Another first byte. -/
def unlike (b : Buffer) : UInt8 := if b.head? = some 0 then 1 else 0

theorem head?_unlike (b : Buffer) : b.head? ≠ some (unlike b) := by
  unfold unlike
  split
  next zero =>
    rw [zero]
    decide
  next other => exact other

section Written

variable {abi} {c}

theorem blank_fits (recvbuf : IdEntry → UInt8) : c.Fits abi (c.blank abi recvbuf) := by
  intro entry
  simp only [blank, List.length_replicate, le_refl, and_self]

/-- A `recvbuf` that bytes are copied to has changed. -/
theorem memcpy_blank {src : Buffer} {entry : IdEntry} {recvbuf : IdEntry → UInt8} {len : Nat}
    (positive : 0 < len) (room : len ≤ src.length) (size : len ≤ c.count * abi.usize c.datatype)
    (differs : recvbuf entry = unlike src) :
    memcpy (c.blank abi recvbuf entry).recvbuf src len ≠ (c.blank abi recvbuf entry).recvbuf := by
  intro same
  have heads := congrArg List.head? same
  rw [head?_memcpy positive room] at heads
  obtain ⟨n, more⟩ := Nat.exists_eq_succ_of_ne_zero (show c.count * abi.usize c.datatype ≠ 0 by omega)
  simp only [blank, more, List.replicate_succ, List.head?_cons, differs] at heads
  exact head?_unlike src heads

variable (accepted : Accepted c.macs) (threads : ∀ mac ∈ c.macs, 0 < mac.nNodes)
  (nonneg : 0 ≤ c.root) (rank : c.root < (c.macs.map MacEntry.nNodes).sum)
  (allocated : 0 ≤ c.buflen abi)

include accepted threads nonneg rank

/-- Where the first thread's block is too short, another one goes behind it. -/
theorem exists_wild {m : Nat} (inside : m < c.size) (short : ¬ c.LocalWithin abi m)
    {passed : IdEntry → RankBuffers} (fits : c.Fits abi passed) {recvbuf : IdEntry → Buffer}
    (room : ∀ entry, (c.buflen abi).toNat ≤ (recvbuf entry).length) :
    ∃ s, LocalReduce.Reach abi (c.inside passed m recvbuf) s ∧
      ∃ t < c.threads m, s.pc t = .wild := by
  rw [LocalWithin, not_or] at short
  obtain ⟨many, short⟩ := short
  have low := rdc_root_lt accepted nonneg rank threads inside passed recvbuf
  have blocks := inside_fits fits room m
  have short' : ¬ (c.inside passed m recvbuf).Within abi ((c.inside passed m recvbuf).len abi) := by
    rw [len_inside]
    exact short
  obtain ⟨s, reach, wild⟩ := LocalReduce.exists_wild many low
    (blocks _ (RdcCall.another_lt many)).1 short'
  exact ⟨s, reach, _, low, wild⟩

/-- Some run of the reduces inside the machines. -/
theorem exists_gathered (within : ∀ m < c.size, c.LocalWithin abi m)
    {passed : IdEntry → RankBuffers} (fits : c.Fits abi passed) : ∃ tmpBuf reduced,
      c.Gathered abi passed tmpBuf reduced := by
  let tmpBuf : IdEntry → Buffer := fun _ => List.replicate (c.buflen abi).toNat 0
  have lengths : ∀ entry, (tmpBuf entry).length = (c.buflen abi).toNat := fun _ =>
    List.length_replicate
  have made : ∀ m, ∃ after, m < c.size → LocalReduce.Leaves abi (c.inside passed m tmpBuf) after := by
    intro m
    by_cases inside : m < c.size
    · have blocks := inside_fits fits (fun entry => (lengths entry).ge) m
      obtain ⟨after, leaves⟩ := LocalReduce.exists_leaves
        (rdc_root_lt accepted nonneg rank threads inside passed tmpBuf)
        (fun t thread => (blocks t thread).1) ((within m inside).inside tmpBuf)
      exact ⟨after, fun _ => leaves⟩
    · exact ⟨fun _ => [], fun member => absurd member inside⟩
  choose after leaves using made
  exact ⟨tmpBuf, fun entry => after entry.macID entry.localID, lengths, leaves⟩

omit accepted threads nonneg rank in
/-- The ranks return when all machines have left `netq_reduce`. -/
theorem returns_between (allocated : 0 ≤ c.buflen abi) (several : c.size > 1)
    {passed : IdEntry → RankBuffers} {tmpBuf reduced : IdEntry → Buffer}
    (gathered : c.Gathered abi passed tmpBuf reduced) {schedule : List Nat}
    {net : State Nat WireByte Event Outcome}
    (ran : exec schedule (c.netqReduce abi (fun m => reduced ⟨m, c.localRoot m⟩)
      fun m => (passed ⟨m, c.localRoot m⟩).recvbuf) = some net) {outcome : Nat → Outcome}
    (ends : ∀ m < c.size, net.proc m = .done (outcome m)) : c.Returns abi passed fun entry =>
      if entry.localID = c.localRoot entry.macID then (outcome entry.macID).result
      else (passed entry).recvbuf :=
  .between allocated several net ⟨tmpBuf, reduced, schedule, gathered, ran⟩ fun m inside =>
    ⟨outcome m, ends m inside, fun _ _ => rfl⟩

/-- Where the lengths fit, the ranks can return. -/
theorem exists_returns (allocated : 0 ≤ c.buflen abi) (within : ∀ m < c.size, c.LocalWithin abi m)
    (sound : c.size > 1 → c.NetdSound abi) {passed : IdEntry → RankBuffers}
    (fits : c.Fits abi passed) : ∃ after, c.Returns abi passed after := by
  obtain ⟨-, -, inRoot, -⟩ := root_place accepted nonneg rank
  by_cases several : c.size > 1
  · obtain ⟨⟨dtype, type, room⟩, known⟩ := sound several
    obtain ⟨netqOp, operator⟩ := Option.ne_none_iff_exists'.mp known
    obtain ⟨tmpBuf, reduced, gathered⟩ := exists_gathered accepted threads nonneg rank within fits
    have lengths := fun m (inside : m < c.size) =>
      gathered.length fits inside (localRoot_lt accepted threads inside)
    obtain ⟨outcome, -, ⟨schedule, net, ran, ends⟩, -⟩ := netqReduce_outcome (by omega) inRoot
      allocated type operator room (fun m inside => (lengths m inside).ge)
      (fun m _ => recvbuf_fits fits ⟨m, c.localRoot m⟩)
    exact ⟨_, returns_between allocated several gathered ran ends⟩
  · have only : 0 < c.size := by omega
    have blocks := inside_fits fits (recvbuf_fits fits) 0
    obtain ⟨after, leaves⟩ := LocalReduce.exists_leaves
      (rdc_root_lt accepted nonneg rank threads only passed _) (fun t thread => (blocks t thread).1)
      ((within 0 only).inside _)
    exact ⟨fun entry => after entry.localID, .alone allocated several leaves⟩

/-- Outside the tables, or where `tmp_buf` is too short, the machines come to nothing. -/
theorem exists_stop (inRoot : c.rootMac < c.size) (within : ∀ m < c.size, c.LocalWithin abi m)
    (unsound : ¬ c.NetdSound abi) {passed : IdEntry → RankBuffers} (fits : c.Fits abi passed) :
    ∃ net, c.Between abi passed net ∧ ∃ m < c.size, net.proc m = .stop := by
  obtain ⟨tmpBuf, reduced, gathered⟩ := exists_gathered accepted threads nonneg rank within fits
  refine ⟨_, ⟨tmpBuf, reduced, [], gathered, rfl⟩, c.rootMac, inRoot, ?_⟩
  rw [NetdSound, not_and_or] at unsound
  simp only [netqReduce, if_pos inRoot]
  cases type : typeMpi2netq c.datatype with
  | none => rfl
  | some dtype =>
      cases operator : opMpi2netq c.op with
      | none => rfl
      | some netqOp =>
          have short : ¬ c.NetdWithin abi dtype := by
            intro within
            rcases unsound with absent | absent
            · exact absent ⟨dtype, type, within⟩
            · rw [operator] at absent
              exact absent (by simp)
          exact if_neg short

include allocated

omit nonneg rank in
/-- Where the leaf of the tree is, the `recvbuf` of the local root takes the place of an
accumulator. -/
theorem leaf_copies (inRoot : c.rootMac < c.size) (several : c.size > 1) {dtype : Netd.DataType}
    {netqOp : Netd.Op} (type : typeMpi2netq c.datatype = some dtype)
    (operator : opMpi2netq c.op = some netqOp) (room : c.NetdWithin abi dtype) {f : ElemOp}
    (has : c.netdFunc = some f)
    (gathers : Netd.chooseAlgorithm c.size c.lastRoot c.rootMac ≠ .simple)
    {passed : IdEntry → RankBuffers} (fits : c.Fits abi passed) {tmpBuf reduced : IdEntry → Buffer}
    (gathered : c.Gathered abi passed tmpBuf reduced) :
    ∃ m < c.size, m ≠ c.rootMac ∧ ∃ after, c.Returns abi passed after ∧
      after ⟨m, c.localRoot m⟩ = memcpy (passed ⟨m, c.localRoot m⟩).recvbuf
        (reduced ⟨m, c.localRoot m⟩) (c.count * Netd.dtypetable abi.platform dtype) := by
  set algorithm := Netd.chooseAlgorithm c.size c.lastRoot c.rootMac with chosen
  obtain ⟨m, member, other, leaf⟩ := (Netd.reduceTree inRoot algorithm).exists_leaf (by
    by_cases first : c.rootMac = 0
    · exact ⟨1, Finset.mem_range.mpr several, by omega⟩
    · exact ⟨0, Finset.mem_range.mpr (by omega), by omega⟩)
  have inside := Finset.mem_range.mp member
  have lengths := fun m (inside : m < c.size) =>
    gathered.length fits inside (localRoot_lt accepted threads inside)
  obtain ⟨outcome, -, ⟨schedule, net, ran, ends⟩, -, final⟩ := netqReduce_outcome (by omega) inRoot
    allocated type operator room (fun m inside => (lengths m inside).ge)
    (fun m _ => recvbuf_fits fits ⟨m, c.localRoot m⟩)
  obtain ⟨share, shares, total⟩ := final f has
  refine ⟨m, inside, other, _, returns_between allocated several gathered ran ends, ?_⟩
  have entry : Netd.optable abi.platform dtype netqOp = some (f.func abi.platform) := by
    rw [optable_eq, ← netdFunc_eq type operator, has]
    rfl
  have covered := netd_fits allocated type operator room entry
  have bytes : Netd.reduceBytes abi.platform c.count dtype =
      c.count * Netd.dtypetable abi.platform dtype := by
    rw [Netd.reduceBytes, reduceLen_fits covered, Int.toNat_natCast]
  simp only [if_true]
  rw [total, Netd.finalOutcome, if_neg fun sender => gathers sender.1, shares.combined m inside,
    leaf, bytes]
  rfl

theorem leaf_written (inRoot : c.rootMac < c.size) (several : c.size > 1)
    (within : ∀ m < c.size, c.LocalWithin abi m) (sound : c.NetdSound abi) {f : ElemOp}
    (has : c.netdFunc = some f) (more : c.count ≠ 0)
    (gathers : Netd.chooseAlgorithm c.size c.lastRoot c.rootMac ≠ .simple) :
    ∃ passed, c.Fits abi passed ∧ ∃ after, c.Returns abi passed after ∧
      ∃ g entry, (g, entry) ∈ places c.macs ∧ g ≠ c.root ∧ after entry ≠ (passed entry).recvbuf := by
  obtain ⟨⟨dtype, type, room⟩, known⟩ := sound
  obtain ⟨netqOp, operator⟩ := Option.ne_none_iff_exists'.mp known
  -- the reduces inside the machines do not depend on the `recvbuf`s
  obtain ⟨tmpBuf, reduced, allocation, leaves⟩ := exists_gathered accepted threads nonneg rank within
    (blank_fits fun _ => 0)
  let recvbuf : IdEntry → UInt8 := fun entry => unlike (reduced entry)
  have fits : c.Fits abi (c.blank abi recvbuf) := blank_fits recvbuf
  have gathered : c.Gathered abi (c.blank abi recvbuf) tmpBuf reduced := ⟨allocation, leaves⟩
  obtain ⟨m, inside, other, after, returns, copied⟩ := leaf_copies accepted threads allocated inRoot
    several type operator room has gathers fits gathered
  have thread := localRoot_lt accepted threads inside
  obtain ⟨g, place⟩ := exists_rank inside thread
  refine ⟨_, fits, after, returns, g, _, place, fun same => ?_, ?_⟩
  · rw [same] at place
    have entry := accepted.entry_unique place (localRoot_root accepted nonneg rank)
    exact other (congrArg IdEntry.macID entry)
  · have entry : Netd.optable abi.platform dtype netqOp = some (f.func abi.platform) := by
      rw [optable_eq, ← netdFunc_eq type operator, has]
      rfl
    have covered := netd_fits allocated type operator room entry
    have positive : 0 < c.count * Netd.dtypetable abi.platform dtype :=
      Nat.mul_pos (Nat.pos_of_ne_zero more) (Netd.dtypetable_pos abi.platform entry)
    rw [copied]
    apply memcpy_blank positive
    · rw [gathered.length fits inside thread]
      exact covered
    · exact covered.trans buflen_le
    · rfl

omit threads in
/-- The thread that has the number of the root gets the result. -/
theorem thread_written (alone : ¬ c.size > 1) (within : c.LocalWithin abi 0)
    (more : c.buflen abi ≠ 0) (crooked : tmpiGrankToLrank (c.info 0) c.root ≠ c.root) :
    ∃ passed, c.Fits abi passed ∧ ∃ after, c.Returns abi passed after ∧
      ∃ g entry, (g, entry) ∈ places c.macs ∧ g ≠ c.root ∧ after entry ≠ (passed entry).recvbuf := by
  obtain ⟨l, member, inRoot, inside⟩ := root_place accepted nonneg rank
  have low := root_thread accepted nonneg rank alone
  have zero : c.rootMac = 0 := by omega
  rw [zero] at member inRoot inside
  have known := (accepted.local_iff 0 c.root l).mpr member
  have away : l ≠ c.root.toNat := by
    rintro rfl
    rw [Int.toNat_of_nonneg nonneg] at known
    exact crooked known
  have many : ¬ c.threads 0 < 2 := by omega
  -- the data do not depend on the `recvbuf`s
  let data := (c.inside (c.blank abi fun _ => 0) 0 fun _ => []).gathered abi
  let recvbuf : IdEntry → UInt8 := fun _ => unlike data
  let passed := c.blank abi recvbuf
  have fits : c.Fits abi passed := blank_fits recvbuf
  have blocks := inside_fits fits (recvbuf_fits fits) 0
  set call := c.inside passed 0 fun entry => (passed entry).recvbuf with isCall
  have root : call.root = c.root.toNat := if_neg alone
  have sent := (blocks _ (RdcCall.another_lt many)).1
  have room : call.Within abi (call.len abi) := (within.inside _).resolve_left many
  have leaves := LocalReduce.leaves_gathered many (root ▸ low) sent room
  have length := RdcCall.length_gathered sent room
  have len : call.len abi = (c.buflen abi).toNat := len_inside 0 _
  have returns : c.Returns abi passed fun entry => if entry.localID = call.root then
      memcpy (call.recvbuf entry.localID) (call.gathered abi) (call.len abi)
      else call.recvbuf entry.localID := .alone allocated alone leaves
  obtain ⟨g, place⟩ := exists_rank inRoot low
  refine ⟨passed, fits, _, returns, g, _, place, fun same => ?_, ?_⟩
  · rw [same] at place
    have known' := (accepted.local_iff 0 c.root c.root.toNat).mpr place
    rw [Int.toNat_of_nonneg nonneg] at known'
    exact crooked known'
  · rw [root, if_pos rfl, len]
    have positive : 0 < (c.buflen abi).toNat :=
      Int.lt_toNat.mpr (lt_of_le_of_ne allocated more.symm)
    apply memcpy_blank positive
    · rw [← len]
      exact length.ge
    · exact buflen_le
    · have same : data = call.gathered abi := RdcCall.gathered_recvbuf (c := call) fun _ => []
      exact congrArg unlike same

end Written

/-- A reduce stays in its blocks and writes to the `recvbuf` of no rank but the root exactly if it
fails at once; or, between machines, the lengths fit and it has nothing to write or is simple; or,
on the only machine, they fit and the root is its own local id. -/
theorem reduce_frame (abi : Abi) (c : ReduceCall) (accepted : Accepted c.macs)
    (threads : ∀ mac ∈ c.macs, 0 < mac.nNodes) (nonneg : 0 ≤ c.root)
    (rank : c.root < (c.macs.map MacEntry.nNodes).sum) : c.Frames abi ↔ c.Spares abi := by
  constructor
  · intro frames
    by_contra written
    obtain ⟨l, -, inRoot, -⟩ := root_place accepted nonneg rank
    rw [Spares, not_or] at written
    obtain ⟨allocated, kind⟩ := written
    rw [not_lt] at allocated
    have still : ¬ ∃ passed, c.Fits abi passed ∧ ∃ after, c.Returns abi passed after ∧
        ∃ g entry, (g, entry) ∈ places c.macs ∧ g ≠ c.root ∧
          after entry ≠ (passed entry).recvbuf := by
      rintro ⟨passed, fits, after, returns, g, entry, place, other, differs⟩
      exact differs ((frames passed fits).2 after returns g entry place other)
    have blank : c.Fits abi (c.blank abi fun _ => 0) := blank_fits fun _ => 0
    have strays := (frames _ blank).1
    by_cases several : c.size > 1
    · rw [if_pos several] at kind
      have within : ∀ m < c.size, c.LocalWithin abi m := by
        intro m inside
        by_contra short
        let tmpBuf : IdEntry → Buffer := fun _ => List.replicate (c.buflen abi).toNat 0
        have sizes : ∀ entry, (tmpBuf entry).length = (c.buflen abi).toNat := fun _ =>
          List.length_replicate
        exact strays (.inside allocated several tmpBuf sizes m inside (exists_wild accepted threads
          nonneg rank inside short blank fun entry => (sizes entry).ge))
      have sound : c.NetdSound abi := by
        by_contra unsound
        exact strays (.between allocated several (exists_stop accepted threads nonneg rank inRoot
          within unsound blank))
      rw [not_and, not_and] at kind
      have busy := kind within sound
      rw [not_or, not_or] at busy
      obtain ⟨known, more, gathers⟩ := busy
      obtain ⟨f, has⟩ := Option.ne_none_iff_exists'.mp known
      exact still (leaf_written accepted threads nonneg rank allocated inRoot several within sound has
        more gathers)
    · rw [if_neg several] at kind
      have only : 0 < c.size := by omega
      have within : c.LocalWithin abi 0 := by
        by_contra short
        exact strays (.alone allocated several (exists_wild accepted threads nonneg rank only short
          blank (recvbuf_fits blank)))
      rw [not_and] at kind
      have busy := kind within
      rw [not_or] at busy
      exact still (thread_written accepted nonneg rank allocated several within busy.1 busy.2)
  · intro spares passed fits
    by_cases large : c.buflen abi < 0
    · refine ⟨fun strays => ?_, fun after returns g entry _ _ => ?_⟩
      · cases strays <;> omega
      · cases returns with
        | refused _ same => exact same entry
        | between allocated => omega
        | alone allocated => omega
    · exact spared accepted threads nonneg rank fits (not_lt.mp large) spares

/-- Three machines, a later reduce: the root moves to the second machine. -/
theorem reduce_frame_three :
    let c : ReduceCall := ⟨[⟨[97], [0, 1]⟩, ⟨[98], [2]⟩, ⟨[99], [3]⟩], 2, .int, .sum, 5, 0⟩
    c.Frames intAbi :=
  (reduce_frame intAbi ⟨[⟨[97], [0, 1]⟩, ⟨[98], [2]⟩, ⟨[99], [3]⟩], 2, .int, .sum, 5, 0⟩
    (by decide) (by decide) (by decide) (by decide)).mpr (by decide)

/-- Two machines, the first reduce: `netd_reduce_tree` copies into the `recvbuf` of rank 1. -/
theorem reduce_writes :
    let c : ReduceCall := ⟨[⟨[97], [0]⟩, ⟨[98], [1]⟩], 0, .int, .max, 1, -1⟩
    let passed : IdEntry → RankBuffers := fun _ => ⟨[0, 0, 0, 0], [1, 1, 1, 1]⟩
    c.Fits intAbi passed ∧ ∃ after, c.Returns intAbi passed after ∧
      (1, ⟨1, 0⟩) ∈ places c.macs ∧ 1 ≠ c.root ∧ after ⟨1, 0⟩ = [0, 0, 0, 0] := by
  intro c passed
  let zeros : IdEntry → Buffer := fun _ => [0, 0, 0, 0]
  have gathered : c.Gathered intAbi passed zeros zeros := by
    have length : (c.buflen intAbi).toNat = 4 := by decide
    refine ⟨fun _ => length.symm, fun m inside => ⟨_, .start, fun t thread => ?_⟩⟩
    have single : (c.inside passed m zeros).groupSize < 2 := by
      change m < 2 at inside
      interval_cases m <;> decide
    have start : ((c.inside passed m zeros).start intAbi).pc t = .done (memcpy (zeros ⟨m, t⟩)
        (passed ⟨m, t⟩).sendbuf ((c.inside passed m zeros).len intAbi)) := if_pos single
    rw [start, len_inside, length]
    rfl
  have fits : c.Fits intAbi passed := fun _ => ⟨by decide, by decide⟩
  obtain ⟨m, inside, other, after, returns, copied⟩ := leaf_copies (c := c) (f := ⟨.int, .max⟩)
    (by decide) (by decide) (by decide) (by decide) (by decide) rfl rfl (by decide) rfl (by decide)
    fits gathered
  have second : m = 1 := by
    change m < 2 at inside
    change m ≠ 0 at other
    omega
  subst second
  exact ⟨fits, after, returns, by decide, by decide, copied⟩

end ReduceCall

end Tmpi.Mpi
