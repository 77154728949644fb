import Tmpi.Netd.Collective

/-! The data types and operators of a reduce on its way through the two levels: the tables
of `reduce.c` inside a machine, and those of `mpi_reduce.c` and `netd_sock_c` between them. -/

namespace Tmpi.Mpi

open Netd (Platform)

/-- `MPI_Datatype`; `MPI_CHARACTER` is `MPI_CHAR`. -/
inductive Datatype where
  | char | unsignedChar | byte | short | unsignedShort | int | unsigned | long | unsignedLong
  | float | double | longDouble | longLongInt | packed | lb | ub | floatInt | doubleInt | longInt
  | shortInt | int2 | longDoubleInt | complex | doubleComplex | logical | real | doublePrecision
  | integer | integer2 | complex2 | doubleComplex2 | real2 | doublePrecision2
  | other
  deriving DecidableEq, Repr

/-- `MPI_Op`. -/
inductive Op where
  | max | min | sum | prod | land | band | lor | bor | lxor | bxor | minloc | maxloc
  | other
  deriving DecidableEq, Repr

/-- The C types that operators are written for. -/
inductive Elem where
  | int | float | double
  deriving DecidableEq, Repr

/-- An operator of the tables, by its element type. -/
structure ElemOp where
  elem : Elem
  op : Netd.Op
  deriving DecidableEq, Repr

section Sizes

variable (platform : Platform)

def Elem.width : Elem → Nat
  | .int => Netd.intScalar.size
  | .float => platform.float.size
  | .double => platform.double.size

/-- `tmpi_Usize`; the types it does not list have the size of an `int`. -/
def tmpiUsize (sizeofLongDouble : Nat) : Datatype → Nat
  | .byte | .char => 1
  | .short => 2
  | .int => 4
  | .long => platform.sizeofLong
  | .unsignedLong => platform.sizeofLong
  | .float => 4
  | .double => 8
  | .longDouble => sizeofLongDouble
  | .doublePrecision => 8
  | .integer => 4
  | .logical => 4
  | _ => 4

end Sizes

/-! ## Inside a machine -/

/-- `rdc_type_idx`, without the -1 of an unknown type. -/
def rdcTypeIdx : Datatype → Option Nat
  | .int | .integer | .long => some 1
  | .float | .real => some 2
  | .double | .doublePrecision => some 3
  | .char | .byte => some 4
  | .short => some 5
  | .longLongInt => some 6
  | .unsignedShort => some 7
  | .unsigned | .unsignedLong => some 8
  | .other => none
  | _ => some 0

/-- `rdc_op_idx`. -/
def rdcOpIdx : Op → Option Nat
  | .max => some 1
  | .min => some 2
  | .sum => some 3
  | .other => none
  | _ => some 0

/-- `optable` of `reduce.c`. -/
def rdcOptable : Nat → Nat → Option ElemOp
  | 1, 1 => some ⟨.int, .max⟩
  | 1, 2 => some ⟨.int, .min⟩
  | 1, 3 => some ⟨.int, .sum⟩
  | 2, 1 => some ⟨.float, .max⟩
  | 2, 2 => some ⟨.float, .min⟩
  | 2, 3 => some ⟨.float, .sum⟩
  | 3, 1 => some ⟨.double, .max⟩
  | 3, 2 => some ⟨.double, .min⟩
  | 3, 3 => some ⟨.double, .sum⟩
  | _, _ => none

/-- The operator that `simple_reduce` applies, if it has one. -/
def simpleReduceOp (datatype : Datatype) (op : Op) : Option ElemOp := do
  rdcOptable (← rdcTypeIdx datatype) (← rdcOpIdx op)

/-! ## Between machines -/

/-- `op_mpi2netq`, without the -1 of an unknown operator. The `NETQ_OP_*` are the `NETD_OP_*`. -/
def opMpi2netq : Op → Option Netd.Op
  | .max => some .max
  | .min => some .min
  | .sum => some .sum
  | .other => none
  | _ => some .none

/-- `type_mpi2netq`. -/
def typeMpi2netq : Datatype → Option Netd.DataType
  | .int | .integer => some .int
  | .long => some .lng
  | .float | .real => some .flt
  | .double | .doublePrecision => some .dbl
  | .char | .byte => some .chr
  | .other => none
  | _ => some .none

/-- `optable` of `netd_sock_c`, by name. -/
def netdElemOp : Netd.DataType → Netd.Op → Option ElemOp
  | _, .none | _, .last => none
  | .none, _ | .chr, _ => none
  | .int, op | .lng, op => some ⟨.int, op⟩
  | .flt, op => some ⟨.double, op⟩
  | .dbl, op => some ⟨.float, op⟩

def Elem.scalar (platform : Platform) : Elem → Scalar
  | .int => Netd.intScalar
  | .float => platform.float
  | .double => platform.double

/-- What an operator of the inter-machine table does. -/
def ElemOp.func (platform : Platform) (f : ElemOp) : Netd.OpFunc :=
  match f.op with
  | .absmax => Netd.absmaxOp (f.elem.scalar platform)
  | .absmin => Netd.absminOp (f.elem.scalar platform)
  | .max => Netd.maxOp (f.elem.scalar platform)
  | .min => Netd.minOp (f.elem.scalar platform)
  | .mult => Netd.multOp (f.elem.scalar platform)
  | .sum => Netd.sumOp (f.elem.scalar platform)
  | .none | .last => fun x _ _ => x

/-- A machine as `reduce.c` and `rdc_op.c` find it: besides the types of a group, the size of
`long double` and the comparisons `<=` of the floating types. -/
structure Abi where
  platform : Platform
  sizeofLongDouble : Nat
  long : platform.sizeofLong = 4 ∨ platform.sizeofLong = 8
  floatLe : platform.float.Value → platform.float.Value → Bool
  doubleLe : platform.double.Value → platform.double.Value → Bool

/-- A machine that works on `int`s only. -/
def intAbi : Abi where
  platform := Netd.intPlatform
  sizeofLongDouble := 16
  long := .inr rfl
  floatLe _ _ := false
  doubleLe _ _ := false

namespace Abi

variable (abi : Abi)

/-- `tmpi_Usize`. -/
def usize (datatype : Datatype) : Nat := tmpiUsize abi.platform abi.sizeofLongDouble datatype

def le : (e : Elem) → (e.scalar abi.platform).Value → (e.scalar abi.platform).Value → Bool
  | .int => BitVec.sle
  | .float => abi.floatLe
  | .double => abi.doubleLe

end Abi

/-- One element of the functions of `rdc_op.c`, which differ in their types only. An element whose
`cas32` or `cas64` fails is read again. -/
def rdcElement (t : Scalar) (le : t.Value → t.Value → Bool) :
    Netd.Op → t.Value → t.Value → t.Value
  | .max, res, src => if le src res then res else src
  | .min, res, src => if le res src then res else src
  | .sum, res, src => t.add src res
  | _, res, _ => res

/-- What an operator of the intra-machine table does to element `i` of its result. -/
def ElemOp.rdc (abi : Abi) (f : ElemOp) (i : Nat) (result operand : Buffer) : Buffer :=
  (f.elem.scalar abi.platform).combineAt (rdcElement _ (abi.le f.elem) f.op) i result operand

theorem width_pos (abi : Abi) (e : Elem) : 0 < e.width abi.platform := by
  have float := abi.platform.float_size
  have double := abi.platform.double_size
  cases e with
  | int => exact Nat.succ_pos 3
  | float => simp only [Elem.width, float, Nat.ofNat_pos]
  | double => simp only [Elem.width, double, Nat.ofNat_pos]

theorem width_eq (abi : Abi) (e : Elem) : e.width abi.platform = (e.scalar abi.platform).size := by
  cases e <;> rfl

/-- The names are those of the table that the reduce algorithms use. -/
theorem optable_eq (platform : Platform) (dtype : Netd.DataType) (op : Netd.Op) :
    Netd.optable platform dtype op = (netdElemOp dtype op).map (ElemOp.func platform) := by
  cases dtype <;> cases op <;> rfl

/-- The types and operators that have a function inside a machine. -/
theorem simpleReduceOp_cases {datatype : Datatype} {op : Op} {f : ElemOp}
    (inside : simpleReduceOp datatype op = some f) :
    opMpi2netq op = some f.op ∧ f.op ≠ .none ∧ f.op ≠ .last ∧
      ((f.elem = .int ∧ (datatype = .int ∨ datatype = .integer ∨ datatype = .long)) ∨
        (f.elem = .float ∧ (datatype = .float ∨ datatype = .real)) ∨
        (f.elem = .double ∧ (datatype = .double ∨ datatype = .doublePrecision))) := by
  obtain ⟨row, type, inside⟩ := Option.bind_eq_some_iff.mp inside
  obtain ⟨column, operator, entry⟩ := Option.bind_eq_some_iff.mp inside
  have rows : (row = 1 ∧ (datatype = .int ∨ datatype = .integer ∨ datatype = .long)) ∨
      (row = 2 ∧ (datatype = .float ∨ datatype = .real)) ∨
      (row = 3 ∧ (datatype = .double ∨ datatype = .doublePrecision)) ∨ row = 0 ∨ 4 ≤ row := by
    cases datatype <;> cases type <;> simp
  have columns : (column = 1 ∧ op = .max) ∨ (column = 2 ∧ op = .min) ∨ (column = 3 ∧ op = .sum) ∨
      column = 0 := by
    cases op <;> cases operator <;> simp
  unfold rdcOptable at entry
  split at entry
  case h_10 => cases entry
  all_goals
    cases entry
    simp_all [opMpi2netq]

end Tmpi.Mpi
