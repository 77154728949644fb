import Tmpi.Lib.Buffer
import Mathlib.Data.BitVec

/-! `netd_op.c`: the elementwise operators of the group reductions, and the tables
that select one by operator and data type. -/

namespace Tmpi.Netd

section Macros

variable (t : Scalar)

def absval (x : t.Value) : t.Value := if t.gt x t.zero then x else t.neg x

def maxval (a b : t.Value) : t.Value := if t.gt a b then a else b

def minval (a b : t.Value) : t.Value := if t.gt b a then a else b

/-! The source repeats these operators for `int`, `double` and `float`. -/

def sumOp (x y : Buffer) (nelem : Nat) : Buffer := t.zipElems t.add nelem x y

def multOp (x y : Buffer) (nelem : Nat) : Buffer := t.zipElems t.mul nelem x y

def maxOp (x y : Buffer) (nelem : Nat) : Buffer := t.zipElems (maxval t) nelem x y

def minOp (x y : Buffer) (nelem : Nat) : Buffer := t.zipElems (minval t) nelem x y

def absmaxOp (x y : Buffer) (nelem : Nat) : Buffer :=
  t.zipElems (fun a b => maxval t (absval t a) (absval t b)) nelem x y

def absminOp (x y : Buffer) (nelem : Nat) : Buffer :=
  t.zipElems (fun a b => minval t (absval t a) (absval t b)) nelem x y

def absOp (x : Buffer) (nelem : Nat) : Buffer := t.mapElems (absval t) nelem x

end Macros

/-! ## `int` -/

def storeInt (x : BitVec 32) : List UInt8 :=
  [.ofNat x.toNat, .ofNat (x.toNat / 2^8), .ofNat (x.toNat / 2^16), .ofNat (x.toNat / 2^24)]

def loadInt (bytes : List UInt8) : BitVec 32 :=
  .ofNat 32 (bytes.foldr (fun byte rest => byte.toNat + 2^8 * rest) 0)

theorem loadInt_storeInt (x : BitVec 32) : loadInt (storeInt x) = x := by
  apply BitVec.eq_of_toNat_eq
  have bound := x.isLt
  simp only [loadInt, storeInt, List.foldr_cons, List.foldr_nil, UInt8.toNat_ofNat',
    BitVec.toNat_ofNat]
  omega

/-- `int`: 32 bits, two's complement, little-endian. -/
def intScalar : Scalar where
  Value := BitVec 32
  size := 4
  load := loadInt
  store := storeInt
  length_store := fun _ => rfl
  load_store := loadInt_storeInt
  zero := 0
  add := (· + ·)
  mul := (· * ·)
  neg := (- ·)
  gt := fun a b => b.slt a

/-! ## The tables -/

/-- The floating types and the width of `long` of the machines in a group. -/
structure Platform where
  double : Scalar
  float : Scalar
  sizeofLong : Nat
  double_size : double.size = 8
  float_size : float.size = 4
  long_wide : 4 ≤ sizeofLong

/-- Uninterpreted bytes, for the types a group makes no use of. -/
def opaqueScalar (size : Nat) : Scalar where
  Value := Vector UInt8 size
  size := size
  load bytes := Vector.ofFn fun i => bytes.getD i 0
  store x := x.toList
  length_store := fun x => x.length_toList
  load_store := fun x => by
    apply Vector.ext
    intro i bound
    simp [List.getD_eq_getElem?_getD]
  zero := Vector.replicate size 0
  add a _ := a
  mul a _ := a
  neg a := a
  gt _ _ := false

/-- A group that works on `int`s only, with 64-bit `long`s. -/
def intPlatform : Platform where
  double := opaqueScalar 8
  float := opaqueScalar 4
  sizeofLong := 8
  double_size := rfl
  float_size := rfl
  long_wide := by decide

/-- `NETD_OP_*`. -/
inductive Op where
  | none | absmax | absmin | max | min | mult | sum | last
  deriving DecidableEq, Repr

/-- The rows of the tables, under the names of the `NETD_TYPE_*` constants. -/
inductive DataType where
  | none | int | flt | dbl | lng | chr
  deriving DecidableEq, Repr

abbrev OpFunc := Buffer → Buffer → Nat → Buffer

variable (platform : Platform)

def netdIntSumOp : OpFunc := sumOp intScalar
def netdIntMultOp : OpFunc := multOp intScalar
def netdIntMaxOp : OpFunc := maxOp intScalar
def netdIntMinOp : OpFunc := minOp intScalar
def netdIntAbsmaxOp : OpFunc := absmaxOp intScalar
def netdIntAbsminOp : OpFunc := absminOp intScalar
def netdIntAbsOp : Buffer → Nat → Buffer := absOp intScalar

def netdDblSumOp : OpFunc := sumOp platform.double
def netdDblMultOp : OpFunc := multOp platform.double
def netdDblMaxOp : OpFunc := maxOp platform.double
def netdDblMinOp : OpFunc := minOp platform.double
def netdDblAbsmaxOp : OpFunc := absmaxOp platform.double
def netdDblAbsminOp : OpFunc := absminOp platform.double
def netdDblAbsOp : Buffer → Nat → Buffer := absOp platform.double

def netdFltSumOp : OpFunc := sumOp platform.float
def netdFltMultOp : OpFunc := multOp platform.float
def netdFltMaxOp : OpFunc := maxOp platform.float
def netdFltMinOp : OpFunc := minOp platform.float
def netdFltAbsmaxOp : OpFunc := absmaxOp platform.float
def netdFltAbsminOp : OpFunc := absminOp platform.float
def netdFltAbsOp : Buffer → Nat → Buffer := absOp platform.float

/-- `optable`. Row 2, which `NETD_TYPE_FLT` selects, holds the `double` operators and
row 3, which `NETD_TYPE_DBL` selects, the `float` ones; `long` uses those for `int`. -/
def optable : DataType → Op → Option OpFunc
  | .none, _ | .chr, _ | _, .none | _, .last => Option.none
  | .int, .absmax => some netdIntAbsmaxOp
  | .int, .absmin => some netdIntAbsminOp
  | .int, .max => some netdIntMaxOp
  | .int, .min => some netdIntMinOp
  | .int, .mult => some netdIntMultOp
  | .int, .sum => some netdIntSumOp
  | .flt, .absmax => some (netdDblAbsmaxOp platform)
  | .flt, .absmin => some (netdDblAbsminOp platform)
  | .flt, .max => some (netdDblMaxOp platform)
  | .flt, .min => some (netdDblMinOp platform)
  | .flt, .mult => some (netdDblMultOp platform)
  | .flt, .sum => some (netdDblSumOp platform)
  | .dbl, .absmax => some (netdFltAbsmaxOp platform)
  | .dbl, .absmin => some (netdFltAbsminOp platform)
  | .dbl, .max => some (netdFltMaxOp platform)
  | .dbl, .min => some (netdFltMinOp platform)
  | .dbl, .mult => some (netdFltMultOp platform)
  | .dbl, .sum => some (netdFltSumOp platform)
  | .lng, .absmax => some netdIntAbsmaxOp
  | .lng, .absmin => some netdIntAbsminOp
  | .lng, .max => some netdIntMaxOp
  | .lng, .min => some netdIntMinOp
  | .lng, .mult => some netdIntMultOp
  | .lng, .sum => some netdIntSumOp

/-- `dtypetable`: the size in the row, which is that of the operators there. -/
def dtypetable : DataType → Nat
  | .none => 0
  | .int => 4
  | .flt => 8
  | .dbl => 4
  | .lng => platform.sizeofLong
  | .chr => 0

def absoptable : DataType → Option (Buffer → Nat → Buffer)
  | .none => Option.none
  | .int => some netdIntAbsOp
  | .flt => some (netdDblAbsOp platform)
  | .dbl => some (netdFltAbsOp platform)
  | .lng => some netdIntAbsOp
  | .chr => Option.none

/-- No operator touches memory behind the `nelem` elements of its row. -/
theorem optable_length {dtype : DataType} {op : Op} {f : OpFunc}
    (entry : optable platform dtype op = some f) {x : Buffer} (y : Buffer) {nelem : Nat}
    (fits : nelem * dtypetable platform dtype ≤ x.length) : (f x y nelem).length = x.length := by
  have covered : ∀ t : Scalar, t.size ≤ dtypetable platform dtype →
      nelem * t.size ≤ x.length := fun t narrow =>
    le_trans (Nat.mul_le_mul_left nelem narrow) fits
  have double := le_of_eq platform.double_size
  have float := le_of_eq platform.float_size
  have long : intScalar.size ≤ platform.sizeofLong := platform.long_wide
  have int : intScalar.size ≤ 4 := le_refl 4
  cases dtype <;> cases op <;> cases entry <;>
    exact Scalar.length_zipElems _ _ nelem x y (covered _ (by assumption))

theorem absoptable_length {dtype : DataType} {f : Buffer → Nat → Buffer}
    (entry : absoptable platform dtype = some f) {x : Buffer} {nelem : Nat}
    (fits : nelem * dtypetable platform dtype ≤ x.length) : (f x nelem).length = x.length := by
  have wide := platform.long_wide
  cases dtype with
  | none => cases entry
  | int => cases entry; exact Scalar.length_mapElems _ _ nelem x fits
  | flt =>
      cases entry
      exact Scalar.length_mapElems _ _ nelem x (by rwa [platform.double_size])
  | dbl =>
      cases entry
      exact Scalar.length_mapElems _ _ nelem x (by rwa [platform.float_size])
  | lng =>
      cases entry
      exact Scalar.length_mapElems _ _ nelem x (le_trans (Nat.mul_le_mul_left nelem wide) fits)
  | chr => cases entry

theorem dtypetable_pos {dtype : DataType} {op : Op} {f : OpFunc}
    (entry : optable platform dtype op = some f) : 0 < dtypetable platform dtype := by
  have wide := platform.long_wide
  cases dtype <;> simp only [dtypetable] <;> first | cases entry | omega

end Tmpi.Netd
