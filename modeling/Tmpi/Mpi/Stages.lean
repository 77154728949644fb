import Tmpi.Mpi.Frame

/-! The two stages of a reduce: where they agree on the elements, and that the result does not
depend on the machines of the ranks then. -/

namespace Tmpi.Mpi

open Netq Network
open Coll (RdcOp rdcInt neutral combined)
open Netd (WireByte Event Outcome)

/-! ## The tables -/

/-- The inter-machine stage of a reduce moves `count` elements of the type's width and combines
them with the operator that the intra-machine stage uses, which is one for that width. -/
structure StagesAgree (abi : Abi) (count : Nat) (datatype : Datatype) (op : Op) (f : ElemOp)
    (dtype : Netd.DataType) (netqOp : Netd.Op) : Prop where
  type : typeMpi2netq datatype = some dtype
  operator : opMpi2netq op = some netqOp
  moved : Netd.reduceLen abi.platform count dtype = (count * abi.usize datatype : Nat)
  width : Netd.dtypetable abi.platform dtype = abi.usize datatype
  combined : netdElemOp dtype netqOp = some f
  elements : f.elem.width abi.platform = abi.usize datatype

/-- Of the types that have operators inside a machine, the `int`s agree, and `long` where it
is an `int`; the rows for `float` and `double` are swapped between machines. Of 2^31 bytes the
`int len` keeps others. -/
theorem stagesAgree_iff (abi : Abi) (count : Nat) (datatype : Datatype) (op : Op) (f : ElemOp)
    (inside : simpleReduceOp datatype op = some f) :
    (∃ dtype netqOp, StagesAgree abi count datatype op f dtype netqOp) ↔
      (datatype = .int ∨ datatype = .integer ∨ (datatype = .long ∧ abi.platform.sizeofLong = 4)) ∧
        count * abi.usize datatype < 2^31 := by
  obtain ⟨operator, real, known, types⟩ := simpleReduceOp_cases inside
  obtain ⟨elem, netqOp⟩ := f
  have row : ∀ dtype e, netdElemOp dtype netqOp = some ⟨e, netqOp⟩ ↔
      (e = .int ∧ (dtype = .int ∨ dtype = .lng)) ∨ (e = .double ∧ dtype = .flt) ∨
        (e = .float ∧ dtype = .dbl) := by
    intro dtype e
    cases netqOp <;> first | exact absurd rfl real | exact absurd rfl known |
      (cases dtype <;> cases e <;> simp [netdElemOp])
  have whole : ∀ dtype, Netd.dtypetable abi.platform dtype = abi.usize datatype →
      (Netd.reduceLen abi.platform count dtype = (count * abi.usize datatype : Nat) ↔
        count * abi.usize datatype < 2^31) := by
    intro dtype width
    rw [Netd.reduceLen, width, ← Nat.cast_mul, wrap_eq_iff (Int.natCast_nonneg _)]
    omega
  constructor
  · rintro ⟨dtype, netqOp', agree⟩
    obtain rfl := Option.some.inj (operator.symm.trans agree.operator)
    have entry := (row dtype elem).mp agree.combined
    have type := agree.type
    have width := agree.width
    refine ⟨?_, (whole dtype width).mp agree.moved⟩
    rcases types with ⟨rfl, rfl | rfl | rfl⟩ | ⟨rfl, rfl | rfl⟩ | ⟨rfl, rfl | rfl⟩
    · exact .inl rfl
    · exact .inr (.inl rfl)
    · exact .inr (.inr ⟨rfl, agree.elements.symm⟩)
    all_goals
      cases type
      simp at entry
  · rintro ⟨rfl | rfl | ⟨rfl, short⟩, small⟩
    all_goals
      obtain rfl : elem = .int := by simpa using types
    · exact ⟨.int, netqOp, rfl, operator, (whole .int rfl).mpr small, rfl,
        (row _ _).mpr (by simp), rfl⟩
    · exact ⟨.int, netqOp, rfl, operator, (whole .int rfl).mpr small, rfl,
        (row _ _).mpr (by simp), rfl⟩
    · exact ⟨.lng, netqOp, rfl, operator, (whole .lng rfl).mpr small, rfl,
        (row _ _).mpr (by simp), short.symm⟩

/-! ## Folds over the ranks -/

/-- Elements combined in their order. -/
def joined (op : RdcOp) (values : List (BitVec 32)) : BitVec 32 :=
  values.foldl (rdcInt op) (neutral op)

section Joined

variable (op : RdcOp)

theorem joined_perm {values values' : List (BitVec 32)} (perm : values.Perm values') :
    joined op values = joined op values' := perm.foldl_eq _

theorem neutral_rdcInt (a : BitVec 32) : rdcInt op (neutral op) a = a := by
  rw [(Coll.rdcInt_commutative op).comm, Coll.rdcInt_neutral]

theorem foldl_rdcInt (a : BitVec 32) (values : List (BitVec 32)) :
    values.foldl (rdcInt op) a = rdcInt op a (joined op values) := by
  have apart : values.foldl (rdcInt op) (rdcInt op a (neutral op)) =
      rdcInt op a (values.foldl (rdcInt op) (neutral op)) := List.foldl_assoc
  rw [Coll.rdcInt_neutral] at apart
  exact apart

theorem joined_cons (value : BitVec 32) (values : List (BitVec 32)) :
    joined op (value :: values) = values.foldl (rdcInt op) value := by
  rw [joined, List.foldl_cons, neutral_rdcInt]

theorem joined_flatMap {α : Type} (list : List α) (values : α → List (BitVec 32)) :
    joined op (list.flatMap values) = joined op (list.map fun x => joined op (values x)) := by
  rw [joined, List.foldl_flatMap, joined, List.foldl_map]
  congr
  funext total x
  exact foldl_rdcInt op total (values x)

theorem combined_range (n : Nat) (value : Nat → BitVec 32) :
    combined op (Finset.range n) value = joined op ((List.range n).map value) := by
  induction n with
  | zero => rfl
  | succ n ih =>
      rw [Finset.range_add_one, Coll.combined_insert op Finset.notMem_range_self, ih,
        List.range_succ, List.map_append, joined, joined, List.foldl_append]
      rfl

/-- An element of a fold of vectors. -/
theorem getElem?_foldl_zipWith {i : Nat} {input : Nat → List (BitVec 32)} {value : Nat → BitVec 32}
    (here : ∀ m, (input m)[i]? = some (value m)) (machines : List Nat) {total : List (BitVec 32)}
    {x : BitVec 32} (first : total[i]? = some x) :
    ((machines.map input).foldl (List.zipWith (rdcInt op)) total)[i]? =
      some ((machines.map value).foldl (rdcInt op) x) := by
  induction machines generalizing total x with
  | nil => exact first
  | cons m machines ih =>
      apply ih
      rw [List.getElem?_zipWith, first, here]

theorem join_netqOp (a b : BitVec 32) : Netd.join (netqOp op) a b = rdcInt op a b := by
  cases op with
  | max =>
      calc
        _ = BitVec.ofInt 32 (rdcInt .max a b).toInt := by
          rw [Coll.rdcInt_max_toInt]
          rfl
        _ = _ := BitVec.ofInt_toInt
  | min =>
      calc
        _ = BitVec.ofInt 32 (rdcInt .min a b).toInt := by
          rw [Coll.rdcInt_min_toInt]
          rfl
        _ = _ := BitVec.ofInt_toInt
  | sum =>
      calc
        _ = BitVec.ofInt 32 a.toInt + BitVec.ofInt 32 b.toInt := BitVec.ofInt_add _ _
        _ = a + b := by rw [BitVec.ofInt_toInt, BitVec.ofInt_toInt]

theorem prepare_netqOp : Netd.prepare (netqOp op) = id := by
  funext a
  cases op <;> rfl

/-- An element of what a reduce of the machines leaves. -/
theorem getElem?_reduceSpec {i : Nat} {input : Nat → List (BitVec 32)} {value : Nat → BitVec 32}
    (here : ∀ m, (input m)[i]? = some (value m)) {size : Nat} (positive : 0 < size) :
    (Netd.reduceSpec (netqOp op) size input)[i]? =
      some (joined op ((List.range size).map value)) := by
  obtain ⟨size, rfl⟩ := Nat.exists_eq_succ_of_ne_zero positive.ne'
  have machines : List.range (size + 1) = 0 :: List.range' 1 size := by
    rw [List.range_eq_range', List.range'_succ]
  have combine : Netd.join (netqOp op) = rdcInt op := by
    funext a b
    exact join_netqOp op a b
  have folded := getElem?_foldl_zipWith op here (List.range' 1 size) (here 0)
  rw [machines, List.map_cons, joined_cons, ← folded, Netd.reduceSpec, combine, prepare_netqOp]
  simp

end Joined

/-- The machines one after the other have the elements of the ranks. -/
theorem ReduceCall.joined_places (op : RdcOp) {c : ReduceCall} (accepted : Accepted c.macs)
    {value : IdEntry → BitVec 32} {sent : Int → BitVec 32}
    (same : ∀ g entry, (g, entry) ∈ places c.macs → value entry = sent g) :
    joined op ((List.range c.size).map fun m =>
      combined op (Finset.range (c.threads m)) fun l => value ⟨m, l⟩) =
      joined op ((List.range (c.macs.map MacEntry.nNodes).sum).map fun g : Nat => sent g) := by
  let inside : MacEntry × Nat → List (BitVec 32) := fun mac =>
    mac.1.nodeIDs.zipIdx.map fun node => value ⟨mac.2, node.2⟩
  have machines : ((List.range c.size).map fun m =>
      combined op (Finset.range (c.threads m)) fun l => value ⟨m, l⟩) =
      c.macs.zipIdx.map fun mac => joined op (inside mac) := by
    apply List.ext_getElem
    · simp [ReduceCall.size]
    · intro m here there
      have member : m < c.macs.length := by simpa using there
      have count : c.threads m = (c.macs[m]).nodeIDs.length := by
        rw [ReduceCall.threads, List.getD_eq_getElem?_getD, List.getElem?_eq_getElem member]
        rfl
      have nodes : inside (c.macs[m], m) =
          (List.range (c.threads m)).map fun l => value ⟨m, l⟩ := by
        rw [count, List.range_eq_range', ← List.zipIdx_map_snd 0 (c.macs[m]).nodeIDs, List.map_map]
        rfl
      simp only [List.getElem_map, List.getElem_range, List.getElem_zipIdx, Nat.zero_add]
      rw [nodes, combined_range]
  have entries : c.macs.zipIdx.flatMap inside = (places c.macs).map fun place => value place.2 := by
    rw [places, List.map_flatMap]
    congr
    funext mac
    rw [List.map_map]
    rfl
  have ranks : ((places c.macs).map fun place => value place.2) =
      (c.macs.flatMap MacEntry.nodeIDs).map sent := by
    rw [← places_ranks, List.map_map]
    apply List.map_congr_left
    intro place member
    exact same place.1 place.2 member
  have perm := accepted.map sent
  rw [List.map_map] at perm
  calc
    _ = joined op (c.macs.zipIdx.map fun mac => joined op (inside mac)) := by rw [machines]
    _ = joined op (c.macs.zipIdx.flatMap inside) := (joined_flatMap op _ _).symm
    _ = joined op ((c.macs.flatMap MacEntry.nodeIDs).map sent) := by rw [entries, ranks]
    _ = _ := joined_perm op perm

/-! ## The elements of a result -/

theorem loadInt_injective {a b : List UInt8} (size : a.length = 4) (size' : b.length = 4)
    (same : Netd.loadInt a = Netd.loadInt b) : a = b := by
  have stored : ∀ bytes : List UInt8, bytes.length = 4 →
      Netd.storeInt (Netd.loadInt bytes) = bytes := by
    intro bytes four
    obtain ⟨x, y, z, w, rfl⟩ := List.length_eq_four.mp four
    have small := x.toNat_lt
    have small' := y.toNat_lt
    have small'' := z.toNat_lt
    have small''' := w.toNat_lt
    simp only [Netd.storeInt, Netd.loadInt, List.foldr_cons, List.foldr_nil, BitVec.toNat_ofNat,
      List.cons.injEq, and_true, ← UInt8.toNat_inj, UInt8.toNat_ofNat']
    omega
  rw [← stored a size, ← stored b size', same]


namespace ReduceCall

variable {abi : Abi} {c : ReduceCall} {op : RdcOp} {dtype : Netd.DataType} {netqOp' : Netd.Op}
  (inside : simpleReduceOp c.datatype c.op = some ⟨.int, netqOp op⟩)
  (agree : StagesAgree abi c.count c.datatype c.op ⟨.int, netqOp op⟩ dtype netqOp')

include agree

theorem buflen_agree : c.buflen abi = (c.count * 4 : Nat) := by
  have moved := agree.moved
  rw [Netd.reduceLen, agree.width] at moved
  have four : 4 = abi.usize c.datatype := agree.elements
  rw [four]
  exact moved

theorem netdFunc_agree : c.netdFunc = some ⟨.int, netqOp op⟩ := by
  rw [netdFunc_eq agree.type agree.operator]
  exact agree.combined

theorem sound_agree : c.NetdSound abi := by
  refine ⟨⟨dtype, agree.type, fun f has => ?_⟩, ?_⟩
  · obtain rfl := Option.some.inj ((netdFunc_agree agree).symm.trans has)
    have four : 4 = abi.usize c.datatype := agree.elements
    have bytes := buflen_agree agree
    refine ⟨?_, ?_⟩
    · rw [agree.moved, bytes, four]
    · rw [bytes]
      exact le_of_eq (Nat.cast_mul _ _).symm
  · rw [agree.operator]
    exact Option.some_ne_none _

include inside

theorem within_agree (m : Nat) : c.LocalWithin abi m := by
  refine .inr fun f has => ?_
  obtain rfl := Option.some.inj (inside.symm.trans has)
  rw [buflen_agree agree, Int.toNat_natCast]
  exact le_refl _

variable {passed : IdEntry → RankBuffers} (fits : c.Fits abi passed)

include fits

/-- What a machine reduces to. -/
theorem inside_total {recvbuf : IdEntry → Buffer}
    (room : ∀ entry, (c.buflen abi).toNat ≤ (recvbuf entry).length) {m root : Nat}
    (isRoot : (c.inside passed m recvbuf).root = root) (low : root < c.threads m)
    {after : Nat → Buffer} (left : LocalReduce.Leaves abi (c.inside passed m recvbuf) after)
    {i : Nat} (below : i < c.count) : readInts (after root) i =
      combined op (Finset.range (c.threads m)) fun l => readInts (passed ⟨m, l⟩).sendbuf i := by
  subst isRoot
  have whole : 4 * (c.inside passed m recvbuf).count ≤ (c.inside passed m recvbuf).len abi := by
    rw [len_inside, buflen_agree agree, Int.toNat_natCast, Nat.mul_comm]
    exact le_refl _
  exact left.total (inside_fits fits room m) (.ints op inside whole) low below

/-- What a reduce between the machines leaves with the root. -/
theorem between_total (roots : ∀ m < c.size, c.localRoot m < c.threads m)
    (inRoot : c.rootMac < c.size) (several : c.size > 1) {net : State Nat WireByte Event Outcome}
    (between : c.Between abi passed net) {last : Outcome}
    (done : net.proc c.rootMac = .done last) : c.count * 4 ≤ last.result.length ∧
      ∀ i < c.count, readInts last.result i =
        joined op ((List.range c.size).map fun m =>
          combined op (Finset.range (c.threads m)) fun l =>
            readInts (passed ⟨m, l⟩).sendbuf i) := by
  obtain ⟨tmpBuf, reduced, schedule, gathered, ran⟩ := between
  have allocated : 0 ≤ c.buflen abi := by
    rw [buflen_agree agree]
    exact Int.natCast_nonneg _
  have within : c.NetdWithin abi dtype := by
    obtain ⟨⟨dtype', type, within⟩, -⟩ := sound_agree agree
    obtain rfl := Option.some.inj (agree.type.symm.trans type)
    exact within
  have lengths := fun m (inside : m < c.size) => gathered.length fits inside (roots m inside)
  obtain ⟨outcome, all, -, -, final⟩ := netqReduce_outcome (by omega) inRoot allocated agree.type
    agree.operator within (fun m inside => (lengths m inside).ge)
    (fun m _ => recvbuf_fits fits ⟨m, c.localRoot m⟩)
  obtain ⟨share, shares, rfl⟩ := final _ (netdFunc_agree agree)
  have bytes : Netd.reduceBytes abi.platform c.count dtype = c.count * 4 := by
    have four : 4 = abi.usize c.datatype := agree.elements
    rw [Netd.reduceBytes, agree.moved, Int.toNat_natCast, four]
  have func : ElemOp.func abi.platform ⟨.int, netqOp op⟩ = Netd.intOpFunc (netqOp op) := by
    cases op <;> rfl
  rw [bytes, func] at shares
  have known : Netd.IsIntOp (netqOp op) := by cases op <;> decide
  have sent : ∀ m < c.size, c.count * 4 ≤ (reduced ⟨m, c.localRoot m⟩).length := by
    intro m inside
    rw [lengths m inside, buflen_agree agree, Int.toNat_natCast]
  have vector := Netd.vec_root _ known (by omega) sent shares
  have result : last.result = (share c.rootMac).2 := by
    rw [(all schedule net ran c.rootMac inRoot).2 last done, Netd.finalOutcome_root]
  refine ⟨result ▸ shares.room _ inRoot, fun i below => ?_⟩
  have element : (Netd.intVec c.count last.result)[i]? = some (readInts last.result i) :=
    Netd.intScalar.getElem?_vec _ below
  have here : ∀ m, (Netd.intVec c.count (reduced ⟨m, c.localRoot m⟩))[i]? =
      some (readInts (reduced ⟨m, c.localRoot m⟩) i) := fun m =>
    Netd.intScalar.getElem?_vec _ below
  rw [result, vector, getElem?_reduceSpec op here (by omega), ← result] at element
  rw [← Option.some.inj element]
  apply congrArg (joined op)
  apply List.map_congr_left
  intro m member
  have machine := List.mem_range.mp member
  have isRoot : (c.inside passed m tmpBuf).root = c.localRoot m := if_pos several
  exact inside_total inside agree fits (fun entry => (gathered.allocated entry).ge) isRoot
    (roots m machine) (gathered.leaves m machine) below

variable (accepted : Accepted c.macs) (threads : ∀ mac ∈ c.macs, 0 < mac.nNodes)
  (nonneg : 0 ≤ c.root) (rank : c.root < (c.macs.map MacEntry.nNodes).sum)
  (straight : c.size > 1 ∨ tmpiGrankToLrank (c.info 0) c.root = c.root)

include accepted threads nonneg rank straight

/-- What the root gets: the elements of all ranks, combined in any order. -/
theorem Returns.total {after : IdEntry → Buffer} (returns : c.Returns abi passed after)
    {entry : IdEntry} (isRoot : (c.root, entry) ∈ places c.macs) {sent : Int → Buffer}
    (sends : ∀ g e, (g, e) ∈ places c.macs → (passed e).sendbuf = sent g) :
    c.count * 4 ≤ (after entry).length ∧ ∀ i < c.count, readInts (after entry) i =
      joined op ((List.range (c.macs.map MacEntry.nNodes).sum).map fun g : Nat =>
        readInts (sent g) i) := by
  have ranks : ∀ i, joined op ((List.range c.size).map fun m =>
      combined op (Finset.range (c.threads m)) fun l => readInts (passed ⟨m, l⟩).sendbuf i) =
      joined op ((List.range (c.macs.map MacEntry.nNodes).sum).map fun g : Nat =>
        readInts (sent g) i) := by
    intro i
    let value : IdEntry → BitVec 32 := fun e => readInts (passed e).sendbuf i
    have same : ∀ g e, (g, e) ∈ places c.macs → value e = readInts (sent g) i :=
      fun g e place => congrArg (fun b => readInts b i) (sends g e place)
    exact joined_places op accepted same
  have roots : ∀ m < c.size, c.localRoot m < c.threads m := fun m inside =>
    localRoot_lt accepted threads inside
  obtain ⟨-, -, inRoot, -⟩ := root_place accepted nonneg rank
  simp only [← ranks]
  cases returns with
  | refused negative =>
      rw [buflen_agree agree] at negative
      omega
  | between _ several net between ends =>
      obtain rfl := accepted.entry_unique (localRoot_root accepted nonneg rank) isRoot
      obtain ⟨last, done, buffers⟩ := ends c.rootMac inRoot
      rw [buffers _ (roots _ inRoot), if_pos rfl]
      exact between_total inside agree fits roots inRoot several between done
  | alone _ single left =>
      obtain rfl := accepted.entry_unique
        (straight_place accepted nonneg (straight.resolve_left single)) isRoot
      have one : c.size = 1 := by omega
      have root : (c.inside passed 0 fun e => (passed e).recvbuf).root = c.root.toNat :=
        if_neg single
      have low := root_thread accepted nonneg rank single
      refine ⟨?_, fun i below => ?_⟩
      · have length := left.length (inside_fits fits (recvbuf_fits fits) 0) low
        have room := recvbuf_fits fits ⟨0, c.root.toNat⟩
        rw [buflen_agree agree, Int.toNat_natCast] at room
        exact room.trans length.ge
      · rw [one, List.range_one, List.map_singleton, joined_cons, List.foldl_nil]
        exact inside_total inside agree fits (recvbuf_fits fits) root low left below

end ReduceCall

/-! ## The result -/

/-- The reduces that give the root its result. On one machine `tmpi_Reduce` passes the root's rank
for its local id. -/
structure ReduceCall.Placed (c : ReduceCall) : Prop where
  accepted : Accepted c.macs
  threads : ∀ mac ∈ c.macs, 0 < mac.nNodes
  nonneg : 0 ≤ c.root
  rank : c.root < (c.macs.map MacEntry.nNodes).sum
  straight : c.size > 1 ∨ tmpiGrankToLrank (c.info 0) c.root = c.root

/-- Two reduces of the same data leave the same result with the root, and both can return. -/
structure SameResult (abi : Abi) (c c' : ReduceCall) : Prop where
  tame : ∀ passed, c.Fits abi passed → ¬ c.Strays abi passed
  returns : ∀ passed, c.Fits abi passed → ∃ after, c.Returns abi passed after
  same : ∀ passed passed' after after', c.Fits abi passed → c'.Fits abi passed' →
    (∀ g entry entry', (g, entry) ∈ places c.macs → (g, entry') ∈ places c'.macs →
      (passed entry).sendbuf = (passed' entry').sendbuf) →
    c.Returns abi passed after → c'.Returns abi passed' after' →
    ∀ entry entry', (c.root, entry) ∈ places c.macs → (c'.root, entry') ∈ places c'.macs →
      (after entry).take (c.count * abi.usize c.datatype) =
        (after' entry').take (c.count * abi.usize c.datatype)

/-- On whatever machines the ranks are, all on one of them too, a reduce gives the root the same
result. -/
def SameAnywhere (abi : Abi) (count : Nat) (datatype : Datatype) (op : Op) : Prop :=
  ∀ (root : Int) (macs macs' : List MacEntry) (lastRoot lastRoot' : Int),
    (macs.map MacEntry.nNodes).sum = (macs'.map MacEntry.nNodes).sum →
    (⟨macs, root, datatype, op, count, lastRoot⟩ : ReduceCall).Placed →
    (⟨macs', root, datatype, op, count, lastRoot'⟩ : ReduceCall).Placed →
    SameResult abi ⟨macs, root, datatype, op, count, lastRoot⟩
      ⟨macs', root, datatype, op, count, lastRoot'⟩

/-- The operators that a machine has functions for. -/
theorem exists_rdcOp {datatype : Datatype} {op : Op} {f : ElemOp}
    (inside : simpleReduceOp datatype op = some f) : ∃ rdcOp, f.op = netqOp rdcOp := by
  obtain ⟨operator, real, -, -⟩ := simpleReduceOp_cases inside
  cases op with
  | max => exact ⟨.max, (Option.some.inj operator).symm⟩
  | min => exact ⟨.min, (Option.some.inj operator).symm⟩
  | sum => exact ⟨.sum, (Option.some.inj operator).symm⟩
  | other => cases operator
  | _ => exact absurd (Option.some.inj operator).symm real

theorem StagesAgree.sameAnywhere {abi : Abi} {count : Nat} {datatype : Datatype} {op : Op}
    {rdcOp : RdcOp} {dtype : Netd.DataType} {between : Netd.Op}
    (inside : simpleReduceOp datatype op = some ⟨.int, netqOp rdcOp⟩)
    (agree : StagesAgree abi count datatype op ⟨.int, netqOp rdcOp⟩ dtype between) :
    SameAnywhere abi count datatype op := by
  intro root macs macs' lastRoot lastRoot' ranks placed placed'
  let c : ReduceCall := ⟨macs, root, datatype, op, count, lastRoot⟩
  have allocated : 0 ≤ c.buflen abi := by
    have whole : c.buflen abi = (c.count * 4 : Nat) := ReduceCall.buflen_agree agree
    rw [whole]
    exact Int.natCast_nonneg _
  have sound : c.NetdSound abi := ReduceCall.sound_agree agree
  have within : ∀ m, c.LocalWithin abi m := ReduceCall.within_agree inside agree
  have four : 4 = abi.usize datatype := agree.elements
  refine ⟨fun passed fits => ?_, fun passed fits => ?_, ?_⟩
  · exact ReduceCall.tame placed.accepted placed.threads placed.nonneg placed.rank fits allocated
      (fun m _ => within m) fun _ => sound
  · exact ReduceCall.exists_returns placed.accepted placed.threads placed.nonneg placed.rank
      allocated (fun m _ => within m) (fun _ => sound) fits
  · intro passed passed' after after' fits fits' sends returns returns' entry entry' isRoot isRoot'
    -- what each rank sends, wherever it is
    let sent : Int → Buffer := fun g =>
      (passed ((netqTransGlobalRank (netqStart macs 0) g).getD ⟨0, 0⟩)).sendbuf
    have first : ∀ g e, (g, e) ∈ places macs → (passed e).sendbuf = sent g := by
      intro g e place
      have known := (placed.accepted.trans_iff 0 g e).mpr place
      simp only [sent, known, Option.getD_some]
    have second : ∀ g e, (g, e) ∈ places macs' → (passed' e).sendbuf = sent g := by
      intro g e place
      have listed : g ∈ macs'.flatMap MacEntry.nodeIDs := by
        rw [← places_ranks]
        exact List.mem_map_of_mem place
      obtain ⟨low, high⟩ := (placed'.accepted.mem_iff g).mp listed
      rw [← ranks] at high
      obtain ⟨e', -, place', -⟩ := placed.accepted.exists_place low high
      rw [← sends g e' e place' place]
      exact first g e' place'
    obtain ⟨room, total⟩ := ReduceCall.Returns.total inside agree fits placed.accepted
      placed.threads placed.nonneg placed.rank placed.straight returns isRoot first
    obtain ⟨room', total'⟩ := ReduceCall.Returns.total inside agree fits' placed'.accepted
      placed'.threads placed'.nonneg placed'.rank placed'.straight returns' isRoot' second
    rw [← four]
    apply Netd.intScalar.take_eq_of_elem (fun _ _ => loadInt_injective) room room'
    intro i below
    exact (total i below).trans (ranks ▸ (total' i below).symm)

/-- The stages agree, and the result is the same on any machines, exactly for `int`s, and for
`long`s of their size, of fewer than 2^31 bytes. -/
theorem stages_same_iff (abi : Abi) (count : Nat) (datatype : Datatype) (op : Op) (f : ElemOp)
    (inside : simpleReduceOp datatype op = some f) :
    ((∃ dtype netqOp, StagesAgree abi count datatype op f dtype netqOp) ∧
        SameAnywhere abi count datatype op) ↔
      (datatype = .int ∨ datatype = .integer ∨ (datatype = .long ∧ abi.platform.sizeofLong = 4)) ∧
        count * abi.usize datatype < 2^31 := by
  rw [← stagesAgree_iff abi count datatype op f inside]
  refine ⟨fun both => both.1, fun agrees => ⟨agrees, ?_⟩⟩
  obtain ⟨types, -⟩ := (stagesAgree_iff abi count datatype op f inside).mp agrees
  obtain ⟨dtype, between, agree⟩ := agrees
  obtain ⟨rdcOp, operator⟩ := exists_rdcOp inside
  obtain ⟨-, -, -, kinds⟩ := simpleReduceOp_cases inside
  have elem : f.elem = .int := by
    rcases types with rfl | rfl | ⟨rfl, -⟩ <;> simpa using kinds
  obtain ⟨e, o⟩ := f
  simp only at elem operator
  subst elem operator
  exact agree.sameAnywhere inside

theorem stages_same_three : (∃ dtype netqOp,
    StagesAgree intAbi 3 .int .max ⟨.int, .max⟩ dtype netqOp) ∧ SameAnywhere intAbi 3 .int .max :=
  (stages_same_iff intAbi 3 .int .max ⟨.int, .max⟩ rfl).mpr ⟨.inl rfl, by decide⟩

/-- A `float` goes through the row of the `double`s. -/
theorem stages_float : simpleReduceOp .float .sum = some ⟨.float, .sum⟩ ∧
    typeMpi2netq .float = some .flt ∧ netdElemOp .flt .sum = some ⟨.double, .sum⟩ ∧
    Netd.dtypetable intAbi.platform .flt = 8 ∧ intAbi.usize .float = 4 ∧
    ¬ ∃ dtype netqOp, StagesAgree intAbi 1 .float .sum ⟨.float, .sum⟩ dtype netqOp := by
  refine ⟨rfl, rfl, rfl, rfl, rfl, ?_⟩
  rintro ⟨dtype, netqOp, agree⟩
  cases agree.type
  exact absurd agree.width (by decide)

end Tmpi.Mpi
