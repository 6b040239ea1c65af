import SymphonyPlus.AssignedValue

/-!
Expression trees of `symcc/src/parse.c` and the functions that build them.
-/

namespace SymphonyPlus

inductive BinaryKind
  | mul | div | mod | add | sub | eq | ne | lt | le | gt | ge | bitand | bitor | bitxor | lsl | lsr
  | logand | logor
  deriving DecidableEq, Repr

inductive UnaryKind
  | neg | not | bitnot
  deriving DecidableEq, Repr

/-- `Node`, for expressions. `α` names the calls. -/
inductive Node (α : Type)
  | num (val : Int) (ty : CType)
  | var (offset : Int) (ty : CType)
  | gvar (name : String) (ty : CType)
  | func (name : String) (ty : CType)
  | str (val : Nat)
  | call (which : α) (ty : CType)
  | addr (lhs : Node α) (ty : CType)
  | deref (lhs : Node α) (ty : CType)
  | member (lhs : Node α) (val : Nat) (field : Option BitField) (ty : CType)
  | cast (lhs : Node α) (ty : CType)
  | unary (kind : UnaryKind) (lhs : Node α)
  | binary (kind : BinaryKind) (lhs rhs : Node α) (ty : CType) (val : Nat)
  | assign (lhs rhs : Node α) (ty : CType)
  | comma (lhs rhs : Node α) (ty : CType)
  | cond (lhs rhs els : Node α) (ty : CType)

variable {α : Type}

def CType.isArray : CType → Bool
  | .array _ _ => true
  | _ => false

def CType.isPtr : CType → Bool
  | .ptr _ => true
  | _ => false

def CType.base : CType → CType
  | .ptr base => base
  | .array base _ => base
  | .func ret => ret
  | ty => ty

@[simp] theorem CType.isArray_ptr (base : CType) : (CType.ptr base).isArray = false := rfl

@[simp] theorem CType.isArray_array (base : CType) (len : Int) :
    (CType.array base len).isArray = true := rfl

@[simp] theorem CType.isPtr_ptr (base : CType) : (CType.ptr base).isPtr = true := rfl

@[simp] theorem CType.isPtr_array (base : CType) (len : Int) :
    (CType.array base len).isPtr = false := rfl

@[simp] theorem CType.base_ptr (base : CType) : (CType.ptr base).base = base := rfl

@[simp] theorem CType.base_array (base : CType) (len : Int) : (CType.array base len).base = base := rfl

def tyInt : CType := .int false

def tyUint : CType := .int true

def Node.ty : Node α → CType
  | .num _ ty | .var _ ty | .gvar _ ty | .func _ ty | .call _ ty | .addr _ ty | .deref _ ty
  | .member _ _ _ ty | .cast _ ty | .binary _ _ _ ty _ | .assign _ _ ty | .comma _ _ ty
  | .cond _ _ _ ty => ty
  | .str _ => .ptr (.char false)
  | .unary _ _ => tyInt

def newNumNode (val : Int) : Node α := .num val tyInt

/-- The product has no type, and nothing asks for it. -/
def scalePtr (n : Node α) (elem : CType) : Node α :=
  if elem.size = 1 then n else .binary .mul n (newNumNode elem.size) .void 0

/-- The type of an operation that is no pointer arithmetic. -/
def arithmeticType (kind : BinaryKind) (lhs rhs : CType) : CType :=
  let unsigned := lhs.isUnsigned || rhs.isUnsigned
  match kind with
  | .add | .sub | .mul | .div | .mod | .bitand | .bitor | .bitxor =>
      if unsigned then tyUint else tyInt
  | .lsl | .lsr => lhs
  | .lt | .le | .gt | .ge => if unsigned then tyUint else tyInt
  | _ => tyInt

def newBinop (kind : BinaryKind) (lhs rhs : Node α) : Node α :=
  if kind = .add ∧ lhs.ty.isArray then
    .binary .add lhs (scalePtr rhs lhs.ty.base) (.ptr lhs.ty.base) 0
  else if kind = .add ∧ rhs.ty.isArray then
    .binary .add (scalePtr lhs rhs.ty.base) rhs (.ptr rhs.ty.base) 0
  else if kind = .add ∧ lhs.ty.isPtr ∧ ¬rhs.ty.isPtr then
    .binary .add lhs (scalePtr rhs lhs.ty.base) lhs.ty 0
  else if kind = .add ∧ rhs.ty.isPtr ∧ ¬lhs.ty.isPtr then
    .binary .add (scalePtr lhs rhs.ty.base) rhs rhs.ty 0
  else if kind = .sub ∧ lhs.ty.isArray then
    .binary .sub lhs (scalePtr rhs lhs.ty.base) (.ptr lhs.ty.base) 0
  else if kind = .sub ∧ lhs.ty.isPtr ∧ rhs.ty.isPtr then
    .binary .sub lhs rhs tyInt
      (if lhs.ty.base = .void ∨ lhs.ty.base.size = 0 then 1 else lhs.ty.base.size)
  else if kind = .sub ∧ lhs.ty.isPtr then
    .binary .sub lhs (scalePtr rhs lhs.ty.base) lhs.ty 0
  else if kind = .sub ∧ rhs.ty.isArray then
    .binary .sub (scalePtr lhs rhs.ty.base) rhs (.ptr rhs.ty.base) 0
  else .binary kind lhs rhs (arithmeticType kind lhs.ty rhs.ty) 0

def Node.isLvalue : Node α → Bool
  | .var _ _ | .gvar _ _ | .deref _ _ | .member _ _ _ _ => true
  | _ => false

def newAssign (lhs rhs : Node α) : Node α := .assign lhs rhs lhs.ty

/-- A clone is the same tree. -/
def expandCompound (lhs : Node α) (opkind : BinaryKind) (rhs : Node α) : Node α :=
  newAssign lhs (newBinop opkind lhs rhs)

def postfixStep (offset : Int) (inc : Bool) (n : Node α) : Node α :=
  let tmp : Node α := .var offset n.ty
  let a1 := newAssign tmp n
  let a2 := newAssign n (newBinop (if inc then .add else .sub) n (newNumNode 1))
  .comma (.comma a1 a2 a2.ty) tmp tmp.ty

def prefixStep (inc : Bool) (x : Node α) : Node α :=
  newAssign x (newBinop (if inc then .add else .sub) x (newNumNode 1))

def subscript (n idx : Node α) : Node α :=
  .deref (.binary .add n (scalePtr idx n.ty.base) (.ptr n.ty.base) 0) n.ty.base

end SymphonyPlus
