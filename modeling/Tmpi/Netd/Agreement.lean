import Tmpi.Netd.Collective

/-! Agreement of the group operations over whole runs.

Each algorithm is a flood or a gather over one of the trees of `Tmpi.Netd.Tree`, so
every call is a phase of the group: its bytes are written and read within it. -/

namespace Tmpi.Netd

open Network

/-- `netd_info` on machine `i` of a started group. -/
def groupInfo (size i : Nat) : NetdInfo := ⟨size, i, true⟩

section Transfers

variable (call : Nat)

theorem length_wire {data : Buffer} {len : Nat} (room : len ≤ data.length) :
    (wire call data len).length = len := by
  simp [wire, room]

theorem map_value_wire (data : Buffer) (len : Nat) :
    (wire call data len).map WireByte.value = data.take len := by
  simp [wire, Function.comp_def]

theorem wire_congr {data origin : Buffer} {len : Nat} (same : data.take len = origin.take len) :
    wire call data len = wire call origin len := by
  rw [wire, wire, same]

theorem performs_sockRead {origin : Buffer} (fd : Nat) (data : Buffer) {len : Nat}
    (room : len ≤ origin.length) :
    Performs (sockRead call fd data len) (received (heard call) fd (wire call origin len))
      (.done (memcpy data origin len)) := by
  have reads := performs_receive (heard call) fd (wire call origin len)
  rw [length_wire call room] at reads
  have both := reads.andThen fun bytes =>
    (.done (memcpy data (bytes.map WireByte.value) len) : Code Buffer)
  rw [map_value_wire] at both
  rw [show memcpy data origin len = memcpy data (origin.take len) len by
    simp [memcpy, List.take_take]]
  exact both

end Transfers

/-! ## Broadcasts -/

section Broadcast

variable {size root : Nat}

/-- The code all broadcasts share once a machine knows its place in the tree. -/
def floodCode (call : Nat) (data : Buffer) (len : Nat) (up : Option Nat) (kids : List Nat) :
    Code (Int × Buffer) := do
  let data ← match up with
    | none => pure data
    | some fd => sockRead call fd data len
  kids.forM fun child => sockWrite call child data len
  return (0, data)

def bcastTree (inRoot : root < size) : Algorithm → Spanning (Finset.range size) root
  | .simple => starTree inRoot
  | .tree => detourTree inRoot
  | .hcube => hcubeTree inRoot

/-- The three algorithms by name. -/
def bcastBy (info : NetdInfo) (call : Nat) (data : Buffer) (len root : Nat) :
    Algorithm → Code (Int × Buffer)
  | .simple => netdBcastSimple info call data len root
  | .tree => netdBcastTree info call data len root
  | .hcube => netdBcastHcube info call data len root

theorem bcastBy_alone (info : NetdInfo) (here : ¬ info.myid < 0) (started : info.groupfd = true)
    (small : info.size < 2) (call : Nat) (data : Buffer) (len root : Nat) (algorithm : Algorithm) :
    bcastBy info call data len root algorithm = .done (0, data) := by
  cases algorithm <;>
    simp [bcastBy, netdBcastSimple, netdBcastTree, netdBcastHcube, here, started, small]

theorem bcastBy_group (inRoot : root < size) (large : ¬ size < 2) {i : Nat} (inside : i < size)
    (call : Nat) (data : Buffer) (len : Nat) (algorithm : Algorithm) :
    bcastBy (groupInfo size i) call data len root algorithm =
      floodCode call data len ((bcastTree inRoot algorithm).up i)
        ((bcastTree inRoot algorithm).kids i) := by
  have here : ¬ (i : Int) < 0 := by omega
  cases algorithm with
  | simple =>
      by_cases atRoot : i = root
      · simp [bcastBy, netdBcastSimple, groupInfo, large, atRoot, floodCode, bcastTree, starTree]
      · simp [bcastBy, netdBcastSimple, groupInfo, large, here, atRoot, floodCode, bcastTree,
          starTree]
  | tree =>
      by_cases atRoot : i = root
      · by_cases zero : root = 0
        · simp [bcastBy, netdBcastTree, groupInfo, large, atRoot, zero, floodCode,
            bcastTree, detourTree, detourUp, detourKids]
        · simp [bcastBy, netdBcastTree, groupInfo, large, atRoot, zero, floodCode,
            bcastTree, detourTree, detourUp, detourKids]
      · by_cases zero : i = 0
        · subst zero
          have other : ¬ (0 : Int) = root := by omega
          simp [bcastBy, netdBcastTree, groupInfo, large, other, atRoot, floodCode,
            bcastTree, detourTree, detourUp, detourKids]
        · have above := detourUp_binary inside atRoot zero
          have parent := above
          rw [detourUp, if_neg atRoot, if_neg zero] at parent
          simp [bcastBy, netdBcastTree, groupInfo, large, here, zero, atRoot, floodCode,
            bcastTree, detourTree, above, detourKids, linked_toNat parent]
  | hcube =>
      cases up : linked (hcubeOf size root i).up <;>
        simp [bcastBy, netdBcastHcube, groupInfo, large, here, floodCode, bcastTree, hcubeTree,
          (hcubeOf_spec inRoot inside).1, up]

theorem performs_floodCode (tree : Spanning (Finset.range size) root) {i : Nat} (call : Nat)
    {data origin : Buffer} {len : Nat} (room : len ≤ origin.length)
    (atRoot : tree.up i = none → data = origin) :
    ∃ kept : Buffer, kept.take len = origin.take len ∧
      Performs (floodCode call data len (tree.up i) (tree.kids i))
        (tree.floodActions (heard call) (wire call origin len) i) (.done (0, kept)) := by
  have writes (kept : Buffer) (same : kept.take len = origin.take len) :
      Performs ((tree.kids i).forM (fun child => sockWrite call child kept len) >>=
          fun _ => (.done (0, kept) : Code (Int × Buffer)))
        ((tree.kids i).flatMap fun c => sent c (wire call origin len)) (.done (0, kept)) := by
    have all := (performs_forM (tree.kids i) (wire call origin len)).andThen
      fun _ => (.done (0, kept) : Code (Int × Buffer))
    simpa only [sockWrite, wire_congr call same] using all
  cases above : tree.up i with
  | none =>
      refine ⟨data, by rw [atRoot above], ?_⟩
      rw [Spanning.floodActions, above]
      exact writes data (by rw [atRoot above])
  | some fd =>
      refine ⟨memcpy data origin len, take_memcpy room, ?_⟩
      rw [Spanning.floodActions, above]
      exact (performs_sockRead call fd data room).bind (writes _ (take_memcpy room))

theorem bcastBy_performs (inRoot : root < size) {i : Nat} (inside : i < size) (call : Nat)
    (data : Nat → Buffer) {len : Nat} (room : len ≤ (data root).length) (algorithm : Algorithm) :
    ∃ kept : Buffer, kept.take len = (data root).take len ∧
      Performs (bcastBy (groupInfo size i) call (data i) len root algorithm)
        ((bcastTree inRoot algorithm).floodActions (heard call) (wire call (data root) len) i)
        (.done (0, kept)) := by
  set tree := bcastTree inRoot algorithm
  have atRoot : tree.up i = none → data i = data root := by
    intro none
    by_contra other
    obtain ⟨p, _, above, _⟩ := tree.up_some i (Finset.mem_range.mpr inside)
      (fun same => other (by rw [same]))
    rw [none] at above
    cases above
  by_cases large : size < 2
  · have same : i = root := by omega
    subst same
    have alone := tree.kids_alone (fun v member => by
      have := Finset.mem_range.mp member
      omega)
    refine ⟨data i, rfl, ?_⟩
    rw [bcastBy_alone (groupInfo size i) (by simp [groupInfo]) rfl large,
      Spanning.floodActions, tree.up_root, alone]
    exact .rest _
  · rw [bcastBy_group inRoot large inside]
    exact performs_floodCode tree call room atRoot

/-- A broadcast is a phase of the group that leaves the root's bytes everywhere. -/
theorem bcast_phase {α : Type} (inRoot : root < size) (call : Nat) (data : Nat → Buffer) {len : Nat}
    (room : len ≤ (data root).length) (statics : Statics)
    (next : Nat → Int × Buffer × Statics → Code α) :
    ∃ (kept : Nat → Buffer) (events : Nat → List Event),
      (∀ i < size, (kept i).take len = (data root).take len) ∧
      (∀ i, ∀ e ∈ events i, e = .consumed call call) ∧
      Phase (Finset.range size)
        (fun i => netdBcast (groupInfo size i) call (data i) len root statics >>= next i)
        (fun i => next i (0, kept i, { statics with bcastLastRoot := root }))
        (fun i => .chose call .bcast (chooseAlgorithm size statics.bcastLastRoot root) :: events i) := by
  set algorithm := chooseAlgorithm size statics.bcastLastRoot root with chosen
  have each : ∀ i, ∃ kept : Buffer, i < size → kept.take len = (data root).take len ∧
      Performs (bcastBy (groupInfo size i) call (data i) len root algorithm)
        ((bcastTree inRoot algorithm).floodActions (heard call) (wire call (data root) len) i)
        (.done (0, kept)) := by
    intro i
    by_cases inside : i < size
    · obtain ⟨kept, facts⟩ := bcastBy_performs inRoot inside call data room algorithm
      exact ⟨kept, fun _ => facts⟩
    · exact ⟨[], fun member => absurd member inside⟩
  choose kept facts using each
  have flood := (bcastTree inRoot algorithm).flood_phase (heard call) (wire call (data root) len)
    (fun i member => (facts i (Finset.mem_range.mp member)).2.andThen
      fun out => next i (out.1, out.2, { statics with bcastLastRoot := root }))
  refine ⟨kept, _, fun i inside => (facts i inside).1, ?_,
    ((phase_note (fun _ => .chose call .bcast algorithm) _).trans flood).congr ?_⟩
  · intro i e noted
    obtain ⟨token, member, same⟩ := (bcastTree inRoot algorithm).mem_notes_flood (heard call) noted
    simp only [wire, List.mem_map] at member
    obtain ⟨value, _, rfl⟩ := member
    exact same
  · intro i _
    have size_eq : (groupInfo size i).size = size := rfl
    simp only [netdBcast, size_eq, ← chosen, Prog.note_bind]
    congr 1
    cases algorithm <;> simp [bcastBy]

end Broadcast

/-! ## Reductions -/

section Reduce

variable {size root : Nat}

/-- `src` and `result` after the values of the children have come in. -/
def gathered (opfunc : OpFunc) (nelem len : Nat) (src result : Buffer) (values : List Buffer) :
    Buffer × Buffer :=
  values.foldl (fun buffers value =>
    (memcpy buffers.1 value len, opfunc buffers.2 (memcpy buffers.1 value len) nelem))
    (src, memcpy result src len)

/-- The code all reductions share once a machine knows its place in the tree. -/
def gatherCode (call : Nat) (opfunc : OpFunc) (nelem len : Nat) (src result : Buffer)
    (up : Option Nat) (kids : List Nat) : Code Outcome := do
  let (src, result) ← kids.foldlM (reduceFrom call nelem opfunc len) (src, memcpy result src len)
  match up with
  | none => pure ()
  | some fd => sockWrite call fd result len
  return ⟨0, src, result⟩

def reduceTree (inRoot : root < size) : Algorithm → Spanning (Finset.range size) root
  | .simple => starTree inRoot
  | .tree => binaryTree inRoot
  | .hcube => hcubeTreeReversed inRoot

def reduceBy (platform : Platform) (info : NetdInfo) (call : Nat) (src result : Buffer)
    (nelem : Nat) (op : Op) (dtype : DataType) (root : Nat) : Algorithm → Code Outcome
  | .simple => netdReduceSimple platform info call src result nelem op dtype root
  | .tree => netdReduceTree platform info call src result nelem op dtype root
  | .hcube => netdReduceHcube platform info call src result nelem op dtype root

variable (platform : Platform) (call : Nat) (nelem : Nat) (op : Op) (dtype : DataType)

/-- The bytes that a reduce moves at a time. -/
def reduceBytes : Nat := (reduceLen platform nelem dtype).toNat

/-- The product of a reduce is not negative as an `int`, or there is no operator to use it for. -/
def LenSound : Prop := optable platform dtype op = none ∨ 0 ≤ reduceLen platform nelem dtype

theorem reduceBytes_le : reduceBytes platform nelem dtype ≤ nelem * dtypetable platform dtype := by
  have least := @wrap_le (nelem * dtypetable platform dtype) (by positivity)
  rw [reduceBytes, reduceLen]
  omega

theorem memcpyInt_of_nonneg (dst src : Buffer) (nonneg : 0 ≤ reduceLen platform nelem dtype) :
    memcpyInt dst src (reduceLen platform nelem dtype) =
      .done (memcpy dst src (reduceBytes platform nelem dtype)) := if_neg (not_lt.mpr nonneg)

theorem LenSound.nonneg {platform : Platform} {nelem : Nat} {op : Op} {dtype : DataType}
    (sound : LenSound platform nelem op dtype) {opfunc : OpFunc}
    (entry : optable platform dtype op = some opfunc) : 0 ≤ reduceLen platform nelem dtype := by
  rcases sound with none | nonneg
  · rw [entry] at none
    cases none
  · exact nonneg

theorem reduceBy_undefined {i : Nat} (src result : Buffer)
    (noEntry : optable platform dtype op = none) (algorithm : Algorithm) :
    reduceBy platform (groupInfo size i) call src result nelem op dtype root algorithm =
      .done ⟨-1, src, result⟩ := by
  cases algorithm <;>
    simp [reduceBy, netdReduceSimple, netdReduceTree, netdReduceHcube, noEntry]

theorem reduceBy_alone {i : Nat} (src result : Buffer) {opfunc : OpFunc}
    (entry : optable platform dtype op = some opfunc)
    (nonneg : 0 ≤ reduceLen platform nelem dtype) (small : size < 2) (algorithm : Algorithm) :
    reduceBy platform (groupInfo size i) call src result nelem op dtype root algorithm =
      .done ⟨0, src, reduceAlone platform (memcpy result src (reduceBytes platform nelem dtype))
        nelem op dtype⟩ := by
  have here : ¬ (i : Int) < 0 := by omega
  have positive : dtypetable platform dtype ≠ 0 := by
    have := dtypetable_pos platform entry
    omega
  cases algorithm <;>
    simp [reduceBy, netdReduceSimple, netdReduceTree, netdReduceHcube, entry, small, groupInfo,
      here, positive, memcpyInt_of_nonneg platform nelem dtype _ _ nonneg]

/-- In a larger group every machine runs the shared code, but for the machines that
only send in the simple algorithm: they leave `result` alone. -/
theorem reduceBy_group (inRoot : root < size) (large : ¬ size < 2) {i : Nat} (inside : i < size)
    (src result : Buffer) {opfunc : OpFunc} (entry : optable platform dtype op = some opfunc)
    (nonneg : 0 ≤ reduceLen platform nelem dtype) (algorithm : Algorithm)
    (gathers : algorithm = .simple → i = root) :
    reduceBy platform (groupInfo size i) call src result nelem op dtype root algorithm =
      gatherCode call opfunc nelem (reduceBytes platform nelem dtype) src result
        ((reduceTree inRoot algorithm).up i) ((reduceTree inRoot algorithm).kids i) := by
  have here : ¬ (i : Int) < 0 := by omega
  have positive : dtypetable platform dtype ≠ 0 := by
    have := dtypetable_pos platform entry
    omega
  have copies := memcpyInt_of_nonneg platform nelem dtype result src nonneg
  have bytes : (reduceLen platform nelem dtype).toNat = reduceBytes platform nelem dtype := rfl
  cases algorithm with
  | simple =>
      have atRoot := gathers rfl
      subst atRoot
      simp [reduceBy, netdReduceSimple, entry, large, groupInfo, here, positive, gatherCode,
        reduceTree, starTree, copies, bytes]
  | tree =>
      cases up : linked (netdMakeTree size i root).up <;>
        simp [reduceBy, netdReduceTree, entry, large, groupInfo, here, positive, gatherCode,
          reduceTree, binaryTree, up, copies, bytes]
  | hcube =>
      cases up : linked (hcubeOf size root i).up <;>
        simp [reduceBy, netdReduceHcube, entry, large, groupInfo, here, positive, gatherCode,
          reduceTree, hcubeTreeReversed, hcubeTree, (hcubeOf_spec inRoot inside).1, up, copies,
          bytes]

theorem reduceSimple_sender (large : ¬ size < 2) {i : Nat} (other : i ≠ root)
    (src result : Buffer) {opfunc : OpFunc} (entry : optable platform dtype op = some opfunc) :
    reduceBy platform (groupInfo size i) call src result nelem op dtype root .simple =
      sockWrite call root src (reduceBytes platform nelem dtype) >>=
        fun _ => .done ⟨0, src, result⟩ := by
  have here : ¬ (i : Int) < 0 := by omega
  have positive : dtypetable platform dtype ≠ 0 := by
    have := dtypetable_pos platform entry
    omega
  simp [reduceBy, netdReduceSimple, entry, large, groupInfo, here, positive, other, reduceBytes]

variable {platform} {nelem} {op} {dtype}

theorem length_gathered {opfunc : OpFunc} (entry : optable platform dtype op = some opfunc)
    {src result : Buffer} (values : List Buffer)
    (srcFits : nelem * dtypetable platform dtype ≤ src.length)
    (resultFits : nelem * dtypetable platform dtype ≤ result.length) :
    (gathered opfunc nelem (reduceBytes platform nelem dtype) src result values).2.length =
      result.length := by
  have less := reduceBytes_le platform nelem dtype
  have start := length_memcpy (less.trans srcFits) (less.trans resultFits)
  have folded : ∀ buffers : Buffer × Buffer, buffers.2.length = result.length →
      (values.foldl (fun buffers value =>
        (memcpy buffers.1 value (reduceBytes platform nelem dtype),
          opfunc buffers.2 (memcpy buffers.1 value (reduceBytes platform nelem dtype)) nelem))
        buffers).2.length = result.length := by
    induction values with
    | nil => exact fun _ same => same
    | cons value values ih =>
        intro buffers same
        rw [List.foldl_cons]
        apply ih
        rw [optable_length platform entry _ (by rw [same]; exact resultFits), same]
  exact folded _ start

/-- Every machine's share of a reduction: its buffers once its children are in. -/
structure Shares (tree : Spanning (Finset.range size) root) (opfunc : OpFunc) (nelem len : Nat)
    (src result : Nat → Buffer) (share : Nat → Buffer × Buffer) : Prop where
  room : ∀ i < size, len ≤ (share i).2.length
  combined : ∀ i < size, share i =
    gathered opfunc nelem len (src i) (result i) ((tree.kids i).map fun c => (share c).2)

theorem exists_shares (tree : Spanning (Finset.range size) root) {opfunc : OpFunc}
    (entry : optable platform dtype op = some opfunc) {src result : Nat → Buffer}
    (srcFits : ∀ i < size, nelem * dtypetable platform dtype ≤ (src i).length)
    (resultFits : ∀ i < size, nelem * dtypetable platform dtype ≤ (result i).length) :
    ∃ share, Shares tree opfunc nelem (reduceBytes platform nelem dtype) src result share := by
  obtain ⟨share, combined⟩ := tree.exists_values (fun i values =>
    gathered opfunc nelem (reduceBytes platform nelem dtype) (src i) (result i)
      (values.map Prod.snd))
  have equation : ∀ i < size, share i = gathered opfunc nelem (reduceBytes platform nelem dtype)
      (src i) (result i) ((tree.kids i).map fun c => (share c).2) := by
    intro i inside
    rw [combined i (Finset.mem_range.mpr inside), List.map_map]
    rfl
  refine ⟨share, ?_, equation⟩
  intro i inside
  rw [equation i inside, length_gathered entry _ (srcFits i inside) (resultFits i inside)]
  exact (reduceBytes_le platform nelem dtype).trans (resultFits i inside)

theorem performs_gatherCode (tree : Spanning (Finset.range size) root) {opfunc : OpFunc}
    {len : Nat} {src result : Nat → Buffer} {share : Nat → Buffer × Buffer}
    (shares : Shares tree opfunc nelem len src result share) {i : Nat} (inside : i < size) :
    Performs (gatherCode call opfunc nelem len (src i) (result i) (tree.up i) (tree.kids i))
      (tree.gatherActions (heard call) (fun c => wire call (share c).2 len) i)
      (.done ⟨0, (share i).1, (share i).2⟩) := by
  have reads := performs_foldlM (heard call) (reduceFrom call nelem opfunc len)
    (fun buffers c => (memcpy buffers.1 (share c).2 len,
      opfunc buffers.2 (memcpy buffers.1 (share c).2 len) nelem))
    (fun c => wire call (share c).2 len) (tree.kids i)
    (by
      intro buffers c child
      have inC := Finset.mem_range.mp (tree.mem_kids_up (Finset.mem_range.mpr inside) child).1
      exact (performs_sockRead call c buffers.1 (shares.room c inC)).andThen
        fun src => .done (src, opfunc buffers.2 src nelem))
    (src i, memcpy (result i) (src i) len)
  rw [← List.foldl_map (f := fun c => (share c).2) (g := fun (buffers : Buffer × Buffer) value =>
    (memcpy buffers.1 value len, opfunc buffers.2 (memcpy buffers.1 value len) nelem))] at reads
  change Performs _ _ (.done (gathered opfunc nelem len (src i) (result i)
    ((tree.kids i).map fun c => (share c).2))) at reads
  rw [← shares.combined i inside] at reads
  refine reads.bind ?_
  cases tree.up i with
  | none => exact .rest _
  | some fd =>
      exact (performs_send fd (wire call (share i).2 len)).andThen
        fun _ => (.done ⟨0, (share i).1, (share i).2⟩ : Code Outcome)

/-- What machine `i` of a larger group gets back: its share, but for the machines that only
send in the simple algorithm. -/
def finalOutcome (algorithm : Algorithm) (root : Nat) (src result : Nat → Buffer)
    (share : Nat → Buffer × Buffer) (i : Nat) : Outcome :=
  if algorithm = .simple ∧ i ≠ root then ⟨0, src i, result i⟩ else ⟨0, (share i).1, (share i).2⟩

theorem finalOutcome_root (algorithm : Algorithm) (root : Nat) (src result : Nat → Buffer)
    (share : Nat → Buffer × Buffer) :
    finalOutcome algorithm root src result share root = ⟨0, (share root).1, (share root).2⟩ :=
  if_neg fun sender => sender.2 rfl

/-- What machine `i` does in a reduction of a group whose operator is in the table. -/
theorem reduceBy_performs (inRoot : root < size) {opfunc : OpFunc}
    (entry : optable platform dtype op = some opfunc)
    (nonneg : 0 ≤ reduceLen platform nelem dtype) (algorithm : Algorithm)
    {src result : Nat → Buffer} {share : Nat → Buffer × Buffer}
    (srcFits : ∀ i < size, nelem * dtypetable platform dtype ≤ (src i).length)
    (shares : Shares (reduceTree inRoot algorithm) opfunc nelem (reduceBytes platform nelem dtype)
      src result share) (large : ¬ size < 2) {i : Nat} (inside : i < size) :
    Performs (reduceBy platform (groupInfo size i) call (src i) (result i) nelem op dtype root
        algorithm)
      ((reduceTree inRoot algorithm).gatherActions (heard call)
        (fun c => wire call (share c).2 (reduceBytes platform nelem dtype)) i)
      (.done (finalOutcome algorithm root src result share i)) := by
  by_cases gathers : algorithm = .simple → i = root
  · have final : finalOutcome algorithm root src result share i = ⟨0, (share i).1, (share i).2⟩ :=
      if_neg fun sender => sender.2 (gathers sender.1)
    have gathered' := reduceBy_group platform call nelem op dtype inRoot large inside (src i)
      (result i) entry nonneg algorithm gathers
    rw [gathered', final]
    generalize reduceBytes platform nelem dtype = len at *
    exact performs_gatherCode call _ shares inside
  · push Not at gathers
    obtain ⟨rfl, other⟩ := gathers
    have sends := reduceSimple_sender platform call nelem op dtype large other (src i) (result i) entry
    -- the bytes sent are those a copy in `result` would hold
    have less := (reduceBytes_le platform nelem dtype).trans (srcFits i inside)
    generalize reduceBytes platform nelem dtype = len at *
    have same : wire call (share i).2 len = wire call (src i) len := by
      apply wire_congr
      rw [shares.combined i inside]
      simp only [reduceTree, starTree, other, if_false, List.map_nil, gathered, List.foldl_nil]
      exact take_memcpy less
    have writes := (performs_send root (wire call (src i) len)).andThen
      fun _ => (.done ⟨0, src i, result i⟩ : Code Outcome)
    have final : finalOutcome .simple root src result share i = ⟨0, src i, result i⟩ :=
      if_pos ⟨rfl, other⟩
    have actions : (reduceTree inRoot .simple).gatherActions (heard call)
        (fun c => wire call (share c).2 len) i = sent root (wire call (src i) len) := by
      have above : (reduceTree inRoot .simple).up i = some root := if_neg other
      have leaf : (reduceTree inRoot .simple).kids i = [] := if_neg other
      rw [Spanning.gatherActions, above, leaf, same, List.flatMap_nil, List.nil_append]
    rw [sends, final, actions]
    exact writes

/-- A reduction of a larger group is a phase of it. -/
theorem reduceBy_group_phase {α : Type} (inRoot : root < size) {opfunc : OpFunc}
    (entry : optable platform dtype op = some opfunc)
    (nonneg : 0 ≤ reduceLen platform nelem dtype) (algorithm : Algorithm)
    (src result : Nat → Buffer)
    (srcFits : ∀ i < size, nelem * dtypetable platform dtype ≤ (src i).length)
    (resultFits : ∀ i < size, nelem * dtypetable platform dtype ≤ (result i).length)
    (large : ¬ size < 2) (next : Nat → Outcome → Code α) :
    ∃ (share : Nat → Buffer × Buffer) (events : Nat → List Event),
      Shares (reduceTree inRoot algorithm) opfunc nelem (reduceBytes platform nelem dtype)
        src result share ∧
      (∀ i, ∀ e ∈ events i, e = .consumed call call) ∧
      Phase (Finset.range size)
        (fun i => reduceBy platform (groupInfo size i) call (src i) (result i) nelem op dtype root
          algorithm >>= next i)
        (fun i => next i (finalOutcome algorithm root src result share i)) events := by
  obtain ⟨share, shares⟩ := exists_shares (reduceTree inRoot algorithm) entry srcFits resultFits
  refine ⟨share, _, shares, ?_, (reduceTree inRoot algorithm).gather_phase (heard call)
    (fun c => wire call (share c).2 (reduceBytes platform nelem dtype)) ?_⟩
  · intro i e noted
    obtain ⟨c, token, member, same⟩ :=
      (reduceTree inRoot algorithm).mem_notes_gather (heard call) noted
    simp only [wire, List.mem_map] at member
    obtain ⟨value, _, rfl⟩ := member
    exact same
  · intro i member
    exact (reduceBy_performs call inRoot entry nonneg algorithm srcFits shares large
      (Finset.mem_range.mp member)).andThen (next i)

theorem length_reduceAlone {result : Buffer}
    (fits : nelem * dtypetable platform dtype ≤ result.length) :
    (reduceAlone platform result nelem op dtype).length = result.length := by
  rw [reduceAlone]
  split_ifs
  · cases entry : absoptable platform dtype with
    | none => rfl
    | some opfunc => exact absoptable_length platform entry fits
  · rfl

/-- What the root holds after a reduction whose operator is in the table. -/
def Reduced (inRoot : root < size) (algorithm : Algorithm) (platform : Platform) (nelem : Nat)
    (op : Op) (dtype : DataType) (opfunc : OpFunc) (src result : Nat → Buffer) (final : Buffer) :
    Prop :=
  (size < 2 → final = reduceAlone platform
    (memcpy (result root) (src root) (reduceBytes platform nelem dtype)) nelem op dtype) ∧
  (¬ size < 2 → ∃ share, Shares (reduceTree inRoot algorithm) opfunc nelem
    (reduceBytes platform nelem dtype) src result share ∧ final = (share root).2)

/-- A reduction is a phase of the group. -/
theorem reduceBy_phase {α : Type} (platform : Platform) (nelem : Nat) (op : Op) (dtype : DataType)
    (sound : LenSound platform nelem op dtype) (inRoot : root < size) (algorithm : Algorithm)
    (src result : Nat → Buffer)
    (srcFits : ∀ i < size, nelem * dtypetable platform dtype ≤ (src i).length)
    (resultFits : ∀ i < size, nelem * dtypetable platform dtype ≤ (result i).length)
    (next : Nat → Outcome → Code α) :
    ∃ (outcome : Nat → Outcome) (events : Nat → List Event),
      (∀ i < size, reduceBytes platform nelem dtype ≤ (outcome i).result.length) ∧
      (∀ i, ∀ e ∈ events i, e = .consumed call call) ∧
      (∀ opfunc, optable platform dtype op = some opfunc → (outcome root).ret = 0 ∧
        Reduced inRoot algorithm platform nelem op dtype opfunc src result
          (outcome root).result) ∧
      Phase (Finset.range size)
        (fun i => reduceBy platform (groupInfo size i) call (src i) (result i) nelem op dtype root
          algorithm >>= next i)
        (fun i => next i (outcome i)) events := by
  cases entry : optable platform dtype op with
  | none =>
      refine ⟨fun i => ⟨-1, src i, result i⟩, fun _ => [], fun i inside => ?_, by simp, by simp,
        phase_silent fun i _ => ?_⟩
      · exact (reduceBytes_le platform nelem dtype).trans (resultFits i inside)
      rw [reduceBy_undefined platform call nelem op dtype _ _ entry, Prog.done_bind]
  | some opfunc =>
      have nonneg := sound.nonneg entry
      have less := reduceBytes_le platform nelem dtype
      by_cases small : size < 2
      · refine ⟨fun i => ⟨0, src i, reduceAlone platform (memcpy (result i) (src i)
          (reduceBytes platform nelem dtype)) nelem op dtype⟩, fun _ => [], ?_, by simp, ?_,
          phase_silent fun i _ => ?_⟩
        · intro i inside
          have copied := length_memcpy (less.trans (srcFits i inside))
            (less.trans (resultFits i inside))
          have fits := resultFits i inside
          rw [← copied] at fits
          exact less.trans (le_of_le_of_eq fits (length_reduceAlone fits).symm)
        · exact fun _ _ => ⟨rfl, fun _ => rfl, fun large => absurd small large⟩
        · rw [reduceBy_alone platform call nelem op dtype _ _ entry nonneg small, Prog.done_bind]
      · obtain ⟨share, events, shares, consumed, phase⟩ := reduceBy_group_phase call inRoot entry
          nonneg algorithm src result srcFits resultFits small next
        refine ⟨finalOutcome algorithm root src result share, events, fun i inside => ?_, consumed,
          ?_, phase⟩
        · unfold finalOutcome
          split
          · exact less.trans (resultFits i inside)
          · exact shares.room i inside
        · intro opfunc' present
          rw [Option.some.injEq] at present
          subst present
          rw [finalOutcome_root]
          exact ⟨rfl, fun tiny => absurd tiny small, fun _ => ⟨share, shares, rfl⟩⟩

theorem netdReduce_bind {α : Type} (platform : Platform) (nelem : Nat) (op : Op) (dtype : DataType)
    (i root : Nat) (src result : Buffer) (statics : Statics) (next : Outcome × Statics → Code α) :
    netdReduce platform (groupInfo size i) call src result nelem op dtype root statics >>= next =
      .note (.chose call .reduce (chooseAlgorithm size statics.reduceLastRoot root))
        (reduceBy platform (groupInfo size i) call src result nelem op dtype root
          (chooseAlgorithm size statics.reduceLastRoot root) >>= fun outcome =>
            next (outcome, { statics with reduceLastRoot := root })) := by
  have size_eq : (groupInfo size i).size = size := rfl
  simp only [netdReduce, size_eq, Prog.note_bind]
  congr 1
  cases chooseAlgorithm size statics.reduceLastRoot root <;> simp [reduceBy]

theorem reduce_phase {α : Type} (platform : Platform) (nelem : Nat) (op : Op) (dtype : DataType)
    (sound : LenSound platform nelem op dtype) (inRoot : root < size) (src result : Nat → Buffer)
    (statics : Statics)
    (srcFits : ∀ i < size, nelem * dtypetable platform dtype ≤ (src i).length)
    (resultFits : ∀ i < size, nelem * dtypetable platform dtype ≤ (result i).length)
    (next : Nat → Outcome × Statics → Code α) :
    ∃ (outcome : Nat → Outcome) (events : Nat → List Event),
      (∀ i < size, reduceBytes platform nelem dtype ≤ (outcome i).result.length) ∧
      (∀ i, ∀ e ∈ events i, e = .consumed call call) ∧
      (∀ opfunc, optable platform dtype op = some opfunc → (outcome root).ret = 0 ∧
        Reduced inRoot (chooseAlgorithm size statics.reduceLastRoot root) platform nelem op dtype
          opfunc src result (outcome root).result) ∧
      Phase (Finset.range size)
        (fun i => netdReduce platform (groupInfo size i) call (src i) (result i) nelem op dtype root
          statics >>= next i)
        (fun i => next i (outcome i, { statics with reduceLastRoot := root }))
        (fun i => .chose call .reduce (chooseAlgorithm size statics.reduceLastRoot root) ::
          events i) := by
  set algorithm := chooseAlgorithm size statics.reduceLastRoot root with chosen
  obtain ⟨outcome, events, fits, consumed, reduced, phase⟩ := reduceBy_phase call platform nelem op
    dtype sound inRoot algorithm src result srcFits resultFits
    (fun i outcome => next i (outcome, { statics with reduceLastRoot := root }))
  refine ⟨outcome, events, fits, consumed, reduced,
    ((phase_note (fun _ => .chose call .reduce algorithm) _).trans phase).congr fun i _ => ?_⟩
  exact netdReduce_bind call platform nelem op dtype i root (src i) (result i) statics (next i)

end Reduce

/-! ## One call -/

section Calls

variable {size : Nat} (platform : Platform)

/-- No reduction of the call gets a negative length. -/
def Call.Sound : Call → Prop
  | .bcast .. => True
  | .reduce nelem op dtype _ => LenSound platform nelem op dtype
  | .allreduce nelem op dtype => LenSound platform nelem op dtype

instance (c : Call) : Decidable (c.Sound platform) :=
  match c with
  | .bcast .. => isTrue trivial
  | .reduce .. => inferInstanceAs (Decidable (_ ∨ _))
  | .allreduce .. => inferInstanceAs (Decidable (_ ∨ _))

/-- The inner events of a call that the group runs in step: one choice for each
operation, and nothing consumed but what was sent for this call. -/
def InStep (call : Nat) (choice : Operation → Algorithm) (event : Event) : Prop :=
  event = .consumed call call ∨ ∃ operation, event = .chose call operation (choice operation)

theorem call_phase {α : Type} (call : Nat) (c : Call) (sound : c.Sound platform)
    (inRoot : c.root < size)
    (args : Nat → Args platform c) (statics : Statics) (next : Nat → Outcome × Statics → Code α) :
    ∃ (outcome : Nat → Outcome) (after : Statics) (choice : Operation → Algorithm)
      (events : Nat → List Event),
      (∀ i, ∀ e ∈ events i, InStep call choice e) ∧
      (∀ len root, c = .bcast len root → ∀ i < size, (outcome i).ret = 0 ∧
        (outcome i).result.take len = (args root).src.take len) ∧
      Phase (Finset.range size)
        (fun i => netdCall platform (groupInfo size i) call c (args i) statics >>= next i)
        (fun i => next i (outcome i, after)) events := by
  cases c with
  | bcast len root =>
      obtain ⟨kept, events, same, consumed, phase⟩ := bcast_phase inRoot call
        (fun i => (args i).src) (args root).src_fits statics
        (fun i out => next i (⟨out.1, out.2.1, out.2.1⟩, out.2.2))
      refine ⟨fun i => ⟨0, kept i, kept i⟩, _, fun _ => chooseAlgorithm size statics.bcastLastRoot root,
        _, ?_, ?_, phase.congr fun i _ => ?_⟩
      · intro i e member
        rcases List.mem_cons.mp member with rfl | later
        · exact Or.inr ⟨.bcast, rfl⟩
        · exact Or.inl (consumed i e later)
      · intro len' root' isBcast i inside
        cases isBcast
        exact ⟨rfl, same i inside⟩
      · simp [netdCall, Call.len, Call.root]
  | reduce nelem op dtype root =>
      obtain ⟨outcome, events, _, consumed, _, phase⟩ := reduce_phase call platform nelem op dtype
        sound inRoot (fun i => (args i).src) (fun i => (args i).result) statics
        (fun i _ => (args i).src_fits) (fun i _ => (args i).result_fits) next
      refine ⟨outcome, _, fun _ => chooseAlgorithm size statics.reduceLastRoot root, _, ?_, ?_,
        phase⟩
      · intro i e member
        rcases List.mem_cons.mp member with rfl | later
        · exact Or.inr ⟨.reduce, rfl⟩
        · exact Or.inl (consumed i e later)
      · intro _ _ isBcast
        cases isBcast
  | allreduce nelem op dtype =>
      let finish (i : Nat) (outcome : Outcome) (out : Int × Buffer × Statics) : Code α :=
        next i (⟨if outcome.ret + out.1 ≠ 0 then -1 else 0, outcome.src, out.2.1⟩, out.2.2)
      obtain ⟨outcome, events, fits, consumed, _, first⟩ := reduce_phase call platform nelem op
        dtype sound inRoot (fun i => (args i).src) (fun i => (args i).result) statics
        (fun i _ => (args i).src_fits) (fun i _ => (args i).result_fits)
        (fun i out => netdBcast (groupInfo size i) call out.1.result
          (reduceBytes platform nelem dtype) 0 out.2 >>= finish i out.1)
      obtain ⟨kept, events', _, consumed', second⟩ := bcast_phase inRoot call
        (fun i => (outcome i).result) (fits 0 inRoot)
        { statics with reduceLastRoot := ((0 : Nat) : Int) } (fun i => finish i (outcome i))
      refine ⟨fun i => ⟨if (outcome i).ret + 0 ≠ 0 then -1 else 0, (outcome i).src, kept i⟩, _,
        fun operation => match operation with
          | .reduce => chooseAlgorithm size statics.reduceLastRoot 0
          | .bcast => chooseAlgorithm size statics.bcastLastRoot 0,
        _, ?_, ?_, (first.trans second).congr fun i _ => ?_⟩
      · intro i e member
        rcases List.mem_append.mp member with front | back
        · rcases List.mem_cons.mp front with rfl | later
          · exact Or.inr ⟨.reduce, rfl⟩
          · exact Or.inl (consumed i e later)
        · rcases List.mem_cons.mp back with rfl | later
          · exact Or.inr ⟨.bcast, rfl⟩
          · exact Or.inl (consumed' i e later)
      · intro _ _ isBcast
        cases isBcast
      · simp [netdCall, netdAllreduce, finish, Call.root, reduceBytes]

end Calls

/-! ## Sequences of calls -/

def Event.call : Event → Nat
  | .began call _ _ => call
  | .chose call _ _ => call
  | .consumed call _ => call
  | .returned call _ => call

/-- What the machines log for call number `call`. -/
structure CallLog (size call : Nat) (c : Call) (events : Nat → List Event) : Prop where
  numbered : ∀ i, ∀ e ∈ events i, e.call = call
  chose : ∃ choice : Operation → Algorithm, ∀ i operation algorithm,
    .chose call operation algorithm ∈ events i → algorithm = choice operation
  consumed : ∀ i sentFor, .consumed call sentFor ∈ events i → sentFor = call
  returned : ∀ i, ∃ outcome, .returned call outcome ∈ events i
  bcast : ∀ len root, c = .bcast len root → ∀ i < size, ∀ src result outcome,
    .began call src result ∈ events root → .returned call outcome ∈ events i →
    outcome.ret = 0 ∧ outcome.result.take len = src.take len

inductive SessionLog (size : Nat) : Nat → List Call → (Nat → List Event) → Prop where
  | nil (call) : SessionLog size call [] (fun _ => [])
  | cons {call c calls events later} : CallLog size call c events →
      SessionLog size (call + 1) calls later →
      SessionLog size call (c :: calls) (fun i => events i ++ later i)

theorem SessionLog.numbered {size call : Nat} {calls : List Call} {events : Nat → List Event}
    (log : SessionLog size call calls events) (i : Nat) :
    ∀ e ∈ events i, call ≤ e.call ∧ e.call < call + calls.length := by
  induction log with
  | nil => simp
  | cons first _ ih =>
      intro e member
      rcases List.mem_append.mp member with here | there
      · rw [first.numbered i e here, List.length_cons]
        omega
      · have := ih e there
        rw [List.length_cons]
        omega

/-- The part of a session's log that belongs to its `n`-th call. -/
theorem SessionLog.slice {size call : Nat} {calls : List Call} {events : Nat → List Event}
    (log : SessionLog size call calls events) {n : Nat} {c : Call} (here : calls[n]? = some c) :
    ∃ part : Nat → List Event, CallLog size (call + n) c part ∧
      ∀ i e, e.call = call + n → (e ∈ events i ↔ e ∈ part i) := by
  induction log generalizing n with
  | nil => simp at here
  | @cons call c' calls events later first rest ih =>
      cases n with
      | zero =>
          rw [List.getElem?_cons_zero, Option.some.injEq] at here
          subst here
          refine ⟨events, first, ?_⟩
          intro i e number
          rw [List.mem_append, or_iff_left]
          intro there
          have := rest.numbered i e there
          omega
      | succ n =>
          rw [List.getElem?_cons_succ] at here
          obtain ⟨part, facts, same⟩ := ih here
          rw [show call + (n + 1) = call + 1 + n by omega]
          refine ⟨part, facts, ?_⟩
          intro i e number
          rw [List.mem_append, ← same i e number, or_iff_right]
          intro present
          have := first.numbered i e present
          omega

section Sessions

variable {size : Nat} (platform : Platform)

theorem session_phase (caller : Nat → Caller platform) (calls : List Call)
    (sound : ∀ c ∈ calls, c.Sound platform) (inRoots : ∀ c ∈ calls, c.root < size) (call : Nat)
    (history : Nat → List Outcome) (statics : Statics) :
    ∃ (histories : Nat → List Outcome) (events : Nat → List Event),
      SessionLog size call calls events ∧
      Phase (Finset.range size)
        (fun i => session platform (groupInfo size i) (caller i) call calls (history i) statics)
        (fun i => .done (histories i)) events := by
  induction calls generalizing call history statics with
  | nil => exact ⟨history, fun _ => [], .nil call, phase_silent fun _ _ => rfl⟩
  | cons c calls ih =>
      let code (i : Nat) (out : Outcome × Statics) : Code (List Outcome) :=
        session platform (groupInfo size i) (caller i) (call + 1) calls (history i ++ [out.1]) out.2
      obtain ⟨outcome, after, choice, events, inStep, bcast, phase⟩ := call_phase platform call c
        (sound c (by simp)) (inRoots c (by simp)) (fun i => caller i (history i) c) statics
        (fun i out => .note (.returned call out.1) (code i out))
      obtain ⟨histories, later, log, rest⟩ := ih (fun c' member => sound c' (by simp [member]))
        (fun c' member => inRoots c' (by simp [member])) (call + 1)
        (fun i => history i ++ [outcome i]) after
      have whole := ((phase_note (fun i => .began call (caller i (history i) c).src
        (caller i (history i) c).result) _).trans phase).trans
          ((phase_note (fun i => .returned call (outcome i))
            (fun i => code i (outcome i, after))).trans rest)
      let part (i : Nat) : List Event := .began call (caller i (history i) c).src
        (caller i (history i) c).result :: (events i ++ [.returned call (outcome i)])
      have member_part : ∀ i e, e ∈ part i → e = .began call (caller i (history i) c).src
          (caller i (history i) c).result ∨ InStep call choice e ∨
            e = .returned call (outcome i) := by
        intro i e member
        rcases List.mem_cons.mp member with first | later
        · exact Or.inl first
        · rcases List.mem_append.mp later with inner | last
          · exact Or.inr (Or.inl (inStep i e inner))
          · exact Or.inr (Or.inr (List.mem_singleton.mp last))
      have facts : CallLog size call c part := by
        refine ⟨?_, ⟨choice, ?_⟩, ?_, ?_, ?_⟩
        · intro i e member
          rcases member_part i e member with rfl | (rfl | ⟨_, rfl⟩) | rfl <;> rfl
        · intro i operation algorithm member
          rcases member_part i _ member with same | (same | ⟨_, same⟩) | same <;> cases same
          rfl
        · intro i sentFor member
          rcases member_part i _ member with same | (same | ⟨_, same⟩) | same <;> cases same
          rfl
        · intro i
          exact ⟨outcome i, by simp [part]⟩
        · intro len root isBcast i inside src result final began returned
          rcases member_part root _ began with same | (same | ⟨_, same⟩) | same <;> cases same
          rcases member_part i _ returned with same | (same | ⟨_, same⟩) | same <;> cases same
          exact bcast len root isBcast i inside
      refine ⟨histories, fun i => part i ++ later i, .cons facts log, ?_⟩
      have same : (fun i => part i ++ later i) = fun i =>
          ([.began call (caller i (history i) c).src (caller i (history i) c).result] ++ events i) ++
            ([.returned call (outcome i)] ++ later i) := by
        funext i
        simp [part]
      rw [same]
      exact whole

end Sessions

/-! ## Whole runs -/

/-- All machines at the start of their sessions; no bytes are under way. -/
def netdStart (platform : Platform) (size : Nat) (caller : Nat → Caller platform)
    (calls : List Call) : State Nat WireByte Event (List Outcome) where
  proc i := if i < size then session platform (groupInfo size i) (caller i) 0 calls [] {} else .done []
  link _ _ := []
  log _ := []

/-- In every run of a group of machines that issue the same calls, all machines choose
the same algorithms, every byte is consumed by the call it was written for, every
broadcast leaves the root's bytes everywhere, every state can be run to the end, and
at the end every call has returned and nothing is left on any link. -/
def Agrees (platform : Platform) (size : Nat) (caller : Nat → Caller platform) (calls : List Call) :
    Prop :=
  ∀ schedule s, exec schedule (netdStart platform size caller calls) = some s →
    (∀ k operation i j a b, i < size → j < size → .chose k operation a ∈ s.log i →
      .chose k operation b ∈ s.log j → a = b) ∧
    (∀ k i sentFor, i < size → .consumed k sentFor ∈ s.log i → sentFor = k) ∧
    (∀ k len root i src result outcome, calls[k]? = some (.bcast len root) → i < size →
      .began k src result ∈ s.log root → .returned k outcome ∈ s.log i →
      outcome.ret = 0 ∧ outcome.result.take len = src.take len) ∧
    (∃ remaining final, exec remaining s = some final ∧ Finished final) ∧
    (Finished s → (∀ i j, s.link i j = []) ∧
      ∀ k i, k < calls.length → i < size → ∃ outcome, .returned k outcome ∈ s.log i)

theorem stands_netdStart (platform : Platform) (size : Nat) (caller : Nat → Caller platform)
    (calls : List Call) : Stands (Finset.range size)
      (fun i => session platform (groupInfo size i) (caller i) 0 calls [] {})
      (netdStart platform size caller calls) := by
  refine ⟨fun _ _ => rfl, fun i member => ?_, fun i outside => ⟨[], ?_⟩⟩
  · simp [netdStart, Finset.mem_range.mp member]
  · simp [netdStart, show ¬ i < size by simpa using outside]

theorem agrees_of_sound {platform : Platform} {size : Nat} {calls : List Call}
    (inRoots : ∀ c ∈ calls, c.root < size) (sound : ∀ c ∈ calls, c.Sound platform)
    (caller : Nat → Caller platform) : Agrees platform size caller calls := by
  intro schedule s ran
  obtain ⟨histories, events, log, phase⟩ := session_phase platform caller calls sound
    inRoots 0 (fun _ => []) {}
  have stands := stands_netdStart platform size caller calls
  obtain ⟨completes, prefixes, ended⟩ := phase_runs phase stands ran
  have logged : ∀ i e, i < size → e ∈ s.log i → e ∈ events i := by
    intro i e inside member
    have cut := prefixes i (Finset.mem_range.mpr inside)
    exact cut.subset member
  have located : ∀ i e, i < size → e ∈ s.log i → ∃ c part, CallLog size e.call c part ∧
      calls[e.call]? = some c ∧ ∀ j e', e'.call = e.call → (e' ∈ events j ↔ e' ∈ part j) := by
    intro i e inside member
    have bound := (log.numbered i e (logged i e inside member)).2
    rw [Nat.zero_add] at bound
    obtain ⟨part, facts, same⟩ := log.slice (List.getElem?_eq_getElem bound)
    rw [Nat.zero_add] at facts same
    exact ⟨_, part, facts, List.getElem?_eq_getElem bound, same⟩
  refine ⟨?_, ?_, ?_, completes, ?_⟩
  · intro k operation i j a b inI inJ first second
    obtain ⟨c, part, facts, _, same⟩ := located i _ inI first
    obtain ⟨choice, agreed⟩ := facts.chose
    have choiceI := agreed i operation a ((same i _ rfl).mp (logged i _ inI first))
    have choiceJ := agreed j operation b
      ((same j (.chose k operation b) rfl).mp (logged j _ inJ second))
    rw [choiceI, choiceJ]
  · intro k i sentFor inside member
    obtain ⟨c, part, facts, _, same⟩ := located i _ inside member
    exact facts.consumed i sentFor ((same i _ rfl).mp (logged i _ inside member))
  · intro k len root i src result outcome isBcast inside began returned
    have inRoot : root < size := inRoots _ (List.mem_of_getElem? isBcast)
    obtain ⟨c, part, facts, here, same⟩ := located i _ inside returned
    have isCall : c = .bcast len root := by
      rw [← Option.some.injEq, ← here]
      exact isBcast
    exact facts.bcast len root isCall i inside src result outcome
      ((same root (.began k src result) rfl).mp (logged root _ inRoot began))
      ((same i _ rfl).mp (logged i _ inside returned))
  · intro stopped
    obtain ⟨standsEnd, logs⟩ := ended stopped
    refine ⟨standsEnd.quiet, ?_⟩
    intro k i bound inside
    obtain ⟨part, facts, same⟩ := log.slice (List.getElem?_eq_getElem bound)
    rw [Nat.zero_add] at facts same
    obtain ⟨outcome, present⟩ := facts.returned i
    refine ⟨outcome, ?_⟩
    rw [logs i (Finset.mem_range.mpr inside)]
    simp only [netdStart, List.nil_append]
    exact (same i _ rfl).mpr present

/-! ## Lengths that no `int` holds -/

section Unsound

variable {size : Nat} {platform : Platform}

/-- Where the length is negative, the machine of the root dies in its `memcpy`. -/
theorem reduceBy_stops {root nelem : Nat} {op : Op} {dtype : DataType} (call : Nat)
    (src result : Buffer) (unsound : ¬ LenSound platform nelem op dtype) (algorithm : Algorithm) :
    reduceBy platform (groupInfo size root) call src result nelem op dtype root algorithm = .stop := by
  rw [LenSound, not_or, not_le] at unsound
  obtain ⟨known, negative⟩ := unsound
  obtain ⟨opfunc, entry⟩ := Option.ne_none_iff_exists'.mp known
  have here : ¬ (root : Int) < 0 := by omega
  have positive : dtypetable platform dtype ≠ 0 := by
    have := dtypetable_pos platform entry
    omega
  have dies : ∀ dst, memcpyInt dst src (reduceLen platform nelem dtype) = .stop :=
    fun dst => if_pos negative
  cases algorithm with
  | simple =>
      by_cases small : size < 2
      · simp [reduceBy, netdReduceSimple, groupInfo, here, entry, positive, small, dies]
      · simp [reduceBy, netdReduceSimple, groupInfo, here, entry, positive, small, dies]
  | tree => simp [reduceBy, netdReduceTree, groupInfo, here, entry, positive, dies]
  | hcube => simp [reduceBy, netdReduceHcube, groupInfo, here, entry, positive, dies]

/-- The machine of the root has chosen its algorithm when it dies. -/
theorem netdCall_stops {c : Call} (unsound : ¬ c.Sound platform) (call : Nat)
    (args : Args platform c) (statics : Statics) : ∃ event,
    netdCall platform (groupInfo size c.root) call c args statics = .note event .stop := by
  have reduces : ∀ nelem op dtype root, ¬ LenSound platform nelem op dtype →
      netdReduce platform (groupInfo size root) call args.src args.result nelem op dtype root
        statics = .note (.chose call .reduce (chooseAlgorithm size statics.reduceLastRoot root))
          .stop := by
    intro nelem op dtype root negative
    rw [← Prog.bind_done (netdReduce platform (groupInfo size root) call args.src args.result nelem
      op dtype root statics), netdReduce_bind, reduceBy_stops call _ _ negative]
    rfl
  cases c with
  | bcast len root => exact absurd trivial unsound
  | reduce nelem op dtype root => exact ⟨_, reduces nelem op dtype root unsound⟩
  | allreduce nelem op dtype =>
      refine ⟨.chose call .reduce (chooseAlgorithm size statics.reduceLastRoot 0), ?_⟩
      simp only [netdCall, netdAllreduce, Call.root]
      rw [reduces nelem op dtype 0 unsound]
      rfl

/-- A session with such a call leads to a machine that has died. -/
theorem session_stops (caller : Nat → Caller platform) {calls : List Call}
    (inRoots : ∀ c ∈ calls, c.root < size) (unsound : ¬ ∀ c ∈ calls, c.Sound platform) (call : Nat)
    (history : Nat → List Outcome) (statics : Statics) (s : State Nat WireByte Event (List Outcome))
    (stands : Stands (Finset.range size)
      (fun i => session platform (groupInfo size i) (caller i) call calls (history i) statics) s) :
    ∃ schedule t i, exec schedule s = some t ∧ t.proc i = .stop := by
  induction calls generalizing call history statics s with
  | nil => exact absurd (by simp) unsound
  | cons c calls ih =>
      have inRoot := inRoots c List.mem_cons_self
      by_cases sound : c.Sound platform
      · -- all machines come through this call
        obtain ⟨outcome, after, choice, events, -, -, phase⟩ := call_phase platform call c sound
          inRoot (fun i => caller i (history i) c) statics
          (fun i out => .note (.returned call out.1) (session platform (groupInfo size i) (caller i)
            (call + 1) calls (history i ++ [out.1]) out.2))
        have first := (phase_note (fun i => .began call (caller i (history i) c).src
          (caller i (history i) c).result) _).trans phase
        have whole := first.trans (phase_note (fun i => .returned call (outcome i))
          (fun i => session platform (groupInfo size i) (caller i) (call + 1) calls
            (history i ++ [outcome i]) after))
        obtain ⟨front, t, ran, standsT, -⟩ := whole s stands
        have later : ¬ ∀ c ∈ calls, c.Sound platform := by
          intro all
          apply unsound
          intro d member
          rcases List.mem_cons.mp member with rfl | behind
          · exact sound
          · exact all d behind
        obtain ⟨back, u, i, ranBack, stopped⟩ := ih
          (fun d member => inRoots d (List.mem_cons_of_mem c member)) later (call + 1)
          (fun i => history i ++ [outcome i]) after t standsT
        refine ⟨front ++ back, u, i, ?_, stopped⟩
        rw [exec_append, ran]
        exact ranBack
      · have stops : ∃ event, netdCall platform (groupInfo size c.root) call c
            (caller c.root (history c.root) c) statics = .note event .stop :=
          netdCall_stops sound call _ statics
        obtain ⟨event, dies⟩ := stops
        have code := stands.inside c.root (Finset.mem_range.mpr inRoot)
        simp only [session, dies, Prog.note_bind, Prog.stop_bind] at code
        obtain ⟨t, began, codeT⟩ := exec_note code
        obtain ⟨u, chose, codeU⟩ := exec_note codeT
        refine ⟨[c.root] ++ [c.root], u, c.root, ?_, codeU⟩
        rw [exec_append, began]
        exact chose

/-- Every machine passes zeros. -/
def zeroCaller (platform : Platform) : Caller platform := fun _ c =>
  ⟨List.replicate (c.len platform) 0, List.replicate (c.len platform) 0, by simp, by simp⟩

theorem not_agrees (caller : Nat → Caller platform) {calls : List Call}
    (inRoots : ∀ c ∈ calls, c.root < size) (unsound : ¬ ∀ c ∈ calls, c.Sound platform) :
    ¬ Agrees platform size caller calls := by
  intro agrees
  obtain ⟨schedule, s, i, ran, stopped⟩ := session_stops caller inRoots unsound 0 (fun _ => []) {}
    _ (stands_netdStart platform size caller calls)
  obtain ⟨-, -, -, ⟨remaining, final, rest, ended⟩, -⟩ := agrees schedule s ran
  obtain ⟨value, done⟩ := ended i
  rw [exec_stop rest stopped] at done
  cases done

end Unsound

/-- The machines agree in every run exactly if no reduction among the calls has a length that is
negative as an `int`. -/
theorem netd_agreement (platform : Platform) (size : Nat) (calls : List Call)
    (inRoots : ∀ c ∈ calls, c.root < size) :
    (∀ caller, Agrees platform size caller calls) ↔ ∀ c ∈ calls, c.Sound platform := by
  refine ⟨fun agrees => ?_, fun sound caller => agrees_of_sound inRoots sound caller⟩
  by_contra unsound
  exact not_agrees (fun _ => zeroCaller platform) inRoots unsound (agrees fun _ => zeroCaller platform)

/-- Two machines that reduce three `int`s at machine 1, broadcast them from machine 0 and reduce to
all. -/
theorem netd_agreement_two : Agrees intPlatform 2 (fun _ => zeroCaller intPlatform)
    [.reduce 3 .sum .int 1, .bcast 12 0, .allreduce 5 .absmax .int] :=
  (netd_agreement intPlatform 2 _ (by decide)).mpr (by decide) _

/-- With 2^29 `int`s the length is -2^31. -/
theorem netd_agreement_broken : ¬ ∀ caller, Agrees intPlatform 2 caller
    [.reduce (2^29) .sum .int 0, .bcast 1 0] := by
  intro agrees
  exact not_agrees (fun _ => zeroCaller intPlatform) (by decide) (by decide)
    (agrees fun _ => zeroCaller intPlatform)

end Tmpi.Netd
