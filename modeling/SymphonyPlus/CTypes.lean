/-!
The types of `symcc/src/parse.c`.
-/

namespace SymphonyPlus

/-- `Type`: a struct or union has the size it has when the type is used. -/
inductive CType
  | int (isUnsigned : Bool)
  | char (isUnsigned : Bool)
  | short (isUnsigned : Bool)
  | void
  | ptr (base : CType)
  | array (base : CType) (len : Int)
  | struct (size : Nat)
  | union (size : Nat)
  | func (ret : CType)
  deriving DecidableEq, Repr

def CType.size : CType → Nat
  | .int _ => 4
  | .char _ => 1
  | .short _ => 2
  | .void => 1
  | .ptr _ => 4
  | .array base len => if len < 0 then 0 else len.toNat * base.size
  | .struct size => size
  | .union size => size
  | .func _ => 0

def CType.isUnsigned : CType → Bool
  | .int unsigned => unsigned
  | .char unsigned => unsigned
  | .short unsigned => unsigned
  | _ => false

def CType.funcToPtr : CType → CType
  | .func ret => .ptr (.func ret)
  | ty => ty

def CType.element : CType → CType
  | .array base _ => base.element
  | ty => ty

def CType.align (ty : CType) : Nat :=
  match ty.element with
  | .char _ => 1
  | .short _ => 2
  | _ => 4

/-- The second type is the first one after structs and unions in it were completed in place. -/
inductive CType.Completes : CType → CType → Prop
  | same (ty : CType) : Completes ty ty
  | struct (size size' : Nat) : Completes (.struct size) (.struct size')
  | union (size size' : Nat) : Completes (.union size) (.union size')
  | ptr {base whole : CType} : Completes base whole → Completes (.ptr base) (.ptr whole)
  | array {base whole : CType} (len : Int) :
      Completes base whole → Completes (.array base len) (.array whole len)
  | func {ret whole : CType} : Completes ret whole → Completes (.func ret) (.func whole)

theorem CType.Completes.align {ty whole : CType} (completes : ty.Completes whole) :
    whole.align = ty.align := by
  induction completes with
  | array len _ ih => exact ih
  | _ => rfl

theorem CType.Completes.funcToPtr {ty whole : CType} (completes : ty.Completes whole) :
    ty.funcToPtr.Completes whole.funcToPtr := by
  cases completes with
  | same => exact .same _
  | struct => exact .struct _ _
  | union => exact .union _ _
  | ptr base => exact .ptr base
  | array len base => exact .array len base
  | func ret => exact .ptr (.func ret)

theorem CType.align_cases (ty : CType) : ty.align = 1 ∨ ty.align = 2 ∨ ty.align = 4 := by
  rw [CType.align]
  split <;> simp

end SymphonyPlus
