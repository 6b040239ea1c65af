import SymphonyPlus.Tokenize

/-!
The constant arithmetic of `symcc/src/const_int.h`, in the integers of either build.
-/

namespace SymphonyPlus

inductive ConstOp
  | logAnd | logOr | eq | ne | lt | le | gt | ge | shl | shr | add | sub | mul | div | mod
  | bitAnd | bitXor | bitOr
  deriving DecidableEq, Repr

/-- A constant and `cc_eval_unsigned`. -/
structure Constant where
  val : Int
  uns : Bool
  deriving DecidableEq, Repr

def flagValue (value : Bool) : Constant := { val := if value then 1 else 0, uns := false }

section ConstInt

variable (build : Build)

def Build.word (value : Int) : BitVec build.bits := BitVec.ofInt build.bits value

def compare32 (op : ConstOp) (uns : Bool) (a b : Int) : Bool :=
  let x := BitVec.ofInt 32 a
  let y := BitVec.ofInt 32 b
  match op with
  | .eq => if uns then x = y else a = b
  | .ne => if uns then x ≠ y else a ≠ b
  | .lt => if uns then x.ult y else a < b
  | .le => if uns then x.ule y else a ≤ b
  | .gt => if uns then y.ult x else b < a
  | _ => if uns then y.ule x else b ≤ a

/-- `cc_binary`. A signed result that overflows wraps around. -/
def ccBinary (left right : Constant) (op : ConstOp) : Except Failure Constant :=
  let a := left.val
  let b := right.val
  let uns := left.uns || right.uns
  let x := BitVec.ofInt 32 a
  let y := BitVec.ofInt 32 b
  let result (narrow : BitVec 32) (wide : Int) : Except Failure Constant :=
    .ok { val := if uns then build.toCcInt narrow.toNat else build.toCcInt wide, uns }
  match op with
  | .logAnd => .ok (flagValue (a ≠ 0 && b ≠ 0))
  | .logOr => .ok (flagValue (a ≠ 0 || b ≠ 0))
  | .eq | .ne | .lt | .le | .gt | .ge => .ok (flagValue (compare32 op uns a b))
  | .shl =>
      if b < 0 ∨ 32 ≤ b then exitWith "constant shift out of range\n"
      else .ok { val := if left.uns then build.toCcInt (x <<< y.toNat).toNat
                        else build.toCcInt (a * 2 ^ b.toNat), uns := left.uns }
  | .shr =>
      if b < 0 ∨ 32 ≤ b then exitWith "constant shift out of range\n"
      else .ok { val := if left.uns then build.toCcInt (x >>> y.toNat).toNat
                        else a / 2 ^ b.toNat, uns := left.uns }
  | .add => result (x + y) (a + b)
  | .sub => result (x - y) (a - b)
  | .mul => result (x * y) (a * b)
  | .div =>
      if b = 0 then .ok { val := 0, uns }
      else if uns && y = 0 then .error .fault
      else result (x / y) (a.tdiv b)
  | .mod =>
      if b = 0 then .ok { val := 0, uns }
      else if uns && y = 0 then .error .fault
      else result (x % y) (a.tmod b)
  | .bitAnd => result (x &&& y) (build.word a &&& build.word b).toInt
  | .bitXor => result (x ^^^ y) (build.word a ^^^ build.word b).toInt
  | .bitOr => result (x ||| y) (build.word a ||| build.word b).toInt

end ConstInt

end SymphonyPlus
