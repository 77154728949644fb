import Tmpi.Netd.Op
import Tmpi.Netd.Tree

/-! The group operations of `netd_sock_c`, one process per machine.

Every byte on a link carries the number of the call it was written for, and every
process logs what it chooses, consumes and returns. Neither is looked at by the code. -/

namespace Tmpi.Netd

open Network

structure NetdInfo where
  size : Nat
  myid : Int
  groupfd : Bool

/-- A byte on a group link. -/
structure WireByte where
  call : Nat
  value : UInt8
  deriving DecidableEq, Repr

inductive Algorithm where
  | simple | tree | hcube
  deriving DecidableEq, Repr

inductive Operation where
  | bcast | reduce
  deriving DecidableEq, Repr

/-- What a group call leaves with its caller; `src` and `result` coincide with the
data buffer in a broadcast. -/
structure Outcome where
  ret : Int
  src : Buffer
  result : Buffer
  deriving DecidableEq, Repr

inductive Event where
  | began (call : Nat) (src result : Buffer)
  | chose (call : Nat) (operation : Operation) (algorithm : Algorithm)
  | consumed (call sentFor : Nat)
  | returned (call : Nat) (outcome : Outcome)
  deriving DecidableEq, Repr

abbrev Code := Prog Nat WireByte Event

/-- The `static int last_root` of `netd_bcast` and of `netd_reduce`. -/
structure Statics where
  bcastLastRoot : Int := -1
  reduceLastRoot : Int := -1
  deriving DecidableEq, Repr

def wire (call : Nat) (data : Buffer) (len : Nat) : List WireByte :=
  (data.take len).map (WireByte.mk call)

def heard (call : Nat) (byte : WireByte) : Event := .consumed call byte.call

/-! The links are reliable, so both transfers return 0 and `stat` stays 0. A negative length is
below 0 bytes from the start, and they move nothing. -/

def sockWrite (call fd : Nat) (data : Buffer) (len : Nat) : Code Unit :=
  send fd (wire call data len)

def sockRead (call fd : Nat) (data : Buffer) (len : Nat) : Code Buffer := do
  let bytes ← receive (heard call) fd len
  return memcpy data (bytes.map WireByte.value) len

/-- `memcpy`, which gets its length as a `size_t`: no buffer has as many bytes as a negative `int`
then stands for, and the process dies. -/
def memcpyInt (dst src : Buffer) (len : Int) : Code Buffer :=
  if len < 0 then .stop else return memcpy dst src len.toNat

section Broadcast

variable (info : NetdInfo) (call : Nat) (data : Buffer) (len root : Nat)

def netdBcastSimple : Code (Int × Buffer) := do
  if info.myid < 0 then return (-1, data)
  if !info.groupfd then return (-1, data)
  if info.size < 2 then return (0, data)
  if info.myid = root then
    (others info.size info.myid.toNat).forM fun i => sockWrite call i data len
    return (0, data)
  else
    let data ← sockRead call root data len
    return (0, data)

def netdBcastTree : Code (Int × Buffer) := do
  if info.myid < 0 then return (-1, data)
  if !info.groupfd then return (-1, data)
  if info.size < 2 then return (0, data)
  let tr := netdMakeTree info.size info.myid.toNat 0
  let data ←
    if info.myid = root then
      if info.myid ≠ 0 then sockWrite call 0 data len
      pure data
    else
      sockRead call (if info.myid = 0 then root else tr.up.toNat) data len
  (tr.children.filter fun child => child ≠ root).forM fun child => sockWrite call child data len
  return (0, data)

def netdBcastHcube : Code (Int × Buffer) := do
  if info.myid < 0 then return (-1, data)
  if !info.groupfd then return (-1, data)
  if info.size < 2 then return (0, data)
  match netdMakeHcube info.size info.myid.toNat root with
  | none => return (-1, data)
  | some tr =>
      let data ←
        match linked tr.up with
        | none => pure data
        | some fd => sockRead call fd data len
      tr.children.forM fun child => sockWrite call child data len
      return (0, data)

/-- `BCAST_SIMPLE_NODES`, `BCAST_TREE_NODES`, `REDUCE_SIMPLE_NODES` and `REDUCE_TREE_NODES`. -/
def smallGroup : Nat := 4

def chooseAlgorithm (size : Nat) (lastRoot : Int) (root : Nat) : Algorithm :=
  if size ≤ smallGroup ∧ lastRoot ≠ root ∧ lastRoot ≠ -1 then .simple
  else if size ≤ smallGroup then .tree
  else .hcube

def netdBcast (statics : Statics) : Code (Int × Buffer × Statics) := do
  let algorithm := chooseAlgorithm info.size statics.bcastLastRoot root
  let statics := { statics with bcastLastRoot := root }
  .note (.chose call .bcast algorithm) do
    let (ret, data) ← match algorithm with
      | .simple => netdBcastSimple info call data len root
      | .tree => netdBcastTree info call data len root
      | .hcube => netdBcastHcube info call data len root
    return (ret, data, statics)

end Broadcast

section Reduce

variable (platform : Platform) (info : NetdInfo) (call : Nat) (src result : Buffer)
  (nelem : Nat) (op : Op) (dtype : DataType) (root : Nat)

/-- `int len=nelem*dsize`. -/
def reduceLen : Int := wrap (nelem * dtypetable platform dtype)

/-- One round of the reading loops: `src` is the receive buffer. -/
def reduceFrom (opfunc : OpFunc) (len : Nat) (buffers : Buffer × Buffer) (fd : Nat) :
    Code (Buffer × Buffer) := do
  let src ← sockRead call fd buffers.1 len
  return (src, opfunc buffers.2 src nelem)

/-- The group of one machine. -/
def reduceAlone : Buffer :=
  if op = .absmax ∨ op = .absmin then
    match absoptable platform dtype with
    | some opfunc => opfunc result nelem
    | none => result
  else result

def netdReduceTree : Code Outcome := do
  let len := reduceLen platform nelem dtype
  if info.myid < 0 then return ⟨-1, src, result⟩
  match optable platform dtype op with
  | none => return ⟨-1, src, result⟩
  | some opfunc =>
      if dtypetable platform dtype = 0 ∨ !info.groupfd then return ⟨-1, src, result⟩
      let result ← memcpyInt result src len
      if info.size < 2 then return ⟨0, src, reduceAlone platform result nelem op dtype⟩
      let tr := netdMakeTree info.size info.myid.toNat root
      let (src, result) ← tr.children.foldlM (reduceFrom call nelem opfunc len.toNat) (src, result)
      match linked tr.up with
      | none => pure ()
      | some fd => sockWrite call fd result len.toNat
      return ⟨0, src, result⟩

def netdReduceHcube : Code Outcome := do
  let len := reduceLen platform nelem dtype
  if info.myid < 0 then return ⟨-1, src, result⟩
  match optable platform dtype op with
  | none => return ⟨-1, src, result⟩
  | some opfunc =>
      if dtypetable platform dtype = 0 ∨ !info.groupfd then return ⟨-1, src, result⟩
      let result ← memcpyInt result src len
      if info.size < 2 then return ⟨0, src, reduceAlone platform result nelem op dtype⟩
      match netdMakeHcube info.size info.myid.toNat root with
      | none => return ⟨-1, src, result⟩
      | some tr =>
          let (src, result) ←
            tr.children.reverse.foldlM (reduceFrom call nelem opfunc len.toNat) (src, result)
          match linked tr.up with
          | none => pure ()
          | some fd => sockWrite call fd result len.toNat
          return ⟨0, src, result⟩

def netdReduceSimple : Code Outcome := do
  let len := reduceLen platform nelem dtype
  if info.myid < 0 then return ⟨-1, src, result⟩
  match optable platform dtype op with
  | none => return ⟨-1, src, result⟩
  | some opfunc =>
      if dtypetable platform dtype = 0 ∨ !info.groupfd then return ⟨-1, src, result⟩
      if info.size < 2 then
        let result ← memcpyInt result src len
        return ⟨0, src, reduceAlone platform result nelem op dtype⟩
      if info.myid = root then
        let result ← memcpyInt result src len
        let (src, result) ← (others info.size info.myid.toNat).foldlM
          (reduceFrom call nelem opfunc len.toNat) (src, result)
        return ⟨0, src, result⟩
      else
        sockWrite call root src len.toNat
        return ⟨0, src, result⟩

def netdReduce (statics : Statics) : Code (Outcome × Statics) := do
  let algorithm := chooseAlgorithm info.size statics.reduceLastRoot root
  let statics := { statics with reduceLastRoot := root }
  .note (.chose call .reduce algorithm) do
    let outcome ← match algorithm with
      | .simple => netdReduceSimple platform info call src result nelem op dtype root
      | .tree => netdReduceTree platform info call src result nelem op dtype root
      | .hcube => netdReduceHcube platform info call src result nelem op dtype root
    return (outcome, statics)

/-- The `static int root` of the source is 0 and never changes. -/
def netdAllreduce (statics : Statics) : Code (Outcome × Statics) := do
  let len := reduceLen platform nelem dtype
  let (outcome, statics) ← netdReduce platform info call src result nelem op dtype 0 statics
  let (ret, result, statics) ← netdBcast info call outcome.result len.toNat 0 statics
  return (⟨if outcome.ret + ret ≠ 0 then -1 else 0, outcome.src, result⟩, statics)

end Reduce

/-! ## Sequences of calls -/

inductive Call where
  | bcast (len root : Nat)
  | reduce (nelem : Nat) (op : Op) (dtype : DataType) (root : Nat)
  | allreduce (nelem : Nat) (op : Op) (dtype : DataType)
  deriving DecidableEq, Repr

/-- The bytes of the elements in each of a call's buffers; the code may take fewer. -/
def Call.len (platform : Platform) : Call → Nat
  | .bcast len _ => len
  | .reduce nelem _ dtype _ => nelem * dtypetable platform dtype
  | .allreduce nelem _ dtype => nelem * dtypetable platform dtype

def Call.root : Call → Nat
  | .bcast _ root => root
  | .reduce _ _ _ root => root
  | .allreduce _ _ _ => 0

/-- The buffers a caller passes: as long as the call needs them. A broadcast uses `src`. -/
structure Args (platform : Platform) (c : Call) where
  src : Buffer
  result : Buffer
  src_fits : c.len platform ≤ src.length
  result_fits : c.len platform ≤ result.length

/-- What a machine's caller passes next may depend on all it got back so far. -/
abbrev Caller (platform : Platform) := List Outcome → (c : Call) → Args platform c

variable (platform : Platform)

def netdCall (info : NetdInfo) (call : Nat) (c : Call) (args : Args platform c)
    (statics : Statics) : Code (Outcome × Statics) :=
  match c with
  | .bcast len root => do
      let (ret, data, statics) ← netdBcast info call args.src len root statics
      return (⟨ret, data, data⟩, statics)
  | .reduce nelem op dtype root =>
      netdReduce platform info call args.src args.result nelem op dtype root statics
  | .allreduce nelem op dtype =>
      netdAllreduce platform info call args.src args.result nelem op dtype statics

def session (info : NetdInfo) (caller : Caller platform) :
    Nat → List Call → List Outcome → Statics → Code (List Outcome)
  | _, [], history, _ => return history
  | call, c :: calls, history, statics =>
      .note (.began call (caller history c).src (caller history c).result) do
        let (outcome, statics) ← netdCall platform info call c (caller history c) statics
        .note (.returned call outcome)
          (session info caller (call + 1) calls (history ++ [outcome]) statics)

end Tmpi.Netd
