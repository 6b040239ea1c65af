import SymphonyPlus.Expressions

/-!
The code of expressions: `gen_expr`, `gen_laddr` and `gen_member_addr` of `symcc/src/codegen.c`.
-/

namespace SymphonyPlus

inductive Runtime
  | divsi3 | modsi3
  deriving DecidableEq, Repr

/-- A line of the code. A call is one line, with its arguments and what cleans up behind it. -/
inductive CodeLine (α : Type)
  | op (operation : Operation)
  | compare (left right : Fin 16)
  | label (n : Nat)
  | jump (n : Nat)
  | jumpIf (condition : Condition) (n : Nat)
  | call (which : α)
  | runtime (which : Runtime)

variable {α : Type}

/-- Code with the next unused label before and after it; `none` where the compiler stops or the
assembler refuses a line. -/
def Emit (α : Type) : Type := Nat → Option (List (CodeLine α) × Nat)

def emit (lines : List (CodeLine α)) : Emit α := fun next => some (lines, next)

def emitOps (operations : Option (List Operation)) : Emit α :=
  fun next => operations.map fun operations => (operations.map .op, next)

def emitFailure : Emit α := fun _ => none

def Emit.seq (first second : Emit α) : Emit α := fun next =>
  (first next).bind fun emitted =>
    (second emitted.2).map fun later => (emitted.1 ++ later.1, later.2)

instance : Append (Emit α) := ⟨Emit.seq⟩

def newLabel (code : Nat → Emit α) : Emit α := fun next => code next (next + 1)

def emitOp (operation : Operation) : Emit α := emit [.op operation]

def emitImm (operation : Source → Operation) (value : Int) : Emit α :=
  emitOps ((imm16 value).map fun source => [operation source])

def emitPush (reg : Fin 16) : Emit α :=
  emit [.op (.alu .sub 14 14 (.imm 4)), .op (.store .word (.reg 14) reg)]

def emitPop (reg : Fin 16) : Emit α :=
  emit [.op (.load .word reg (.reg 14)), .op (.alu .add 14 14 (.imm 4))]

/-- What code generation takes from the rest of the program: the symbols' addresses, which the
linker fills in, and the names whose addresses take two halves. -/
structure Naming where
  address : String → BitVec 32
  needsD32 : String → Bool

def Naming.string (naming : Naming) (number : Nat) : BitVec 32 :=
  naming.address (String.ofList ('s' :: Nat.toDigits 10 number))

def emitAddr32 (address : BitVec 32) : Emit α :=
  emit [.op (.move 9 (.imm (address.extractLsb' 16 16))), .op (.alu .lsl 9 9 (.imm 16)),
    .op (.alu .or 9 9 (.imm (address.truncate 16)))]

def genCompare (condition : Condition) : Emit α :=
  newLabel fun whenTrue => newLabel fun done =>
    emit [.compare 1 2, .jumpIf condition whenTrue, .op (.move 1 (.imm 0)), .jump done,
      .label whenTrue, .op (.move 1 (.imm 1)), .label done]

def genBranchZero (cond : Emit α) (n : Nat) (jumpIfZero : Bool) : Emit α :=
  cond ++ emit [.op (.move 2 (.imm 0)), .compare 1 2, .jumpIf (if jumpIfZero then .je else .jne) n]

/-- Both operands jump to the same label, which decides the value. -/
def genShortCircuit (jumpIfZero : Bool) (through jumped : BitVec 16) (lhs rhs : Emit α) : Emit α :=
  newLabel fun decided => newLabel fun done =>
    genBranchZero lhs decided jumpIfZero ++ genBranchZero rhs decided jumpIfZero ++
    emit [.op (.move 1 (.imm through)), .jump done, .label decided, .op (.move 1 (.imm jumped)),
      .label done]

def genLogand (lhs rhs : Emit α) : Emit α := genShortCircuit true 1 0 lhs rhs

def genLogor (lhs rhs : Emit α) : Emit α := genShortCircuit false 0 1 lhs rhs

def genCond (cond then_ els : Emit α) : Emit α :=
  newLabel fun otherwise => newLabel fun done =>
    genBranchZero cond otherwise true ++ then_ ++ emit [.jump done, .label otherwise] ++ els ++
      emit [.label done]

def genRuntime (which : Runtime) : Emit α :=
  emitPush 2 ++ emitPush 1 ++ emit [.runtime which, .op (.alu .add 14 14 (.imm 8))]

def genPointerQuotient (build : Build) (val : Nat) : Emit α :=
  if val = 0 ∨ val = 1 then emit []
  else if val = 2 then emitOp (.alu .asr 1 1 (.imm 1))
  else if val = 4 then emitOp (.alu .asr 1 1 (.imm 2))
  else if val = 8 then emitOp (.alu .asr 1 1 (.imm 3))
  else
    emitPush 1 ++ emitOps (genNumReg build 1 val) ++ emitPush 1 ++ emitPop 2 ++ emitPop 1 ++
      genRuntime .divsi3

def genOperation (build : Build) (kind : BinaryKind) (ty : CType) (val : Nat) : Emit α :=
  match kind with
  | .mul => emitOp (.alu .mul 1 1 (.reg 2))
  | .div => if ty.isUnsigned then emitOp (.alu .div 1 1 (.reg 2)) else genRuntime .divsi3
  | .mod => if ty.isUnsigned then emitOp (.alu .mod 1 1 (.reg 2)) else genRuntime .modsi3
  | .add => emitOp (.alu .add 1 1 (.reg 2))
  | .sub => emitOp (.alu .sub 1 1 (.reg 2)) ++ genPointerQuotient build val
  | .eq => genCompare .je
  | .ne => genCompare .jne
  | .lt => genCompare (if ty.isUnsigned then .jb else .jl)
  | .le => genCompare (if ty.isUnsigned then .jbe else .jle)
  | .gt => genCompare (if ty.isUnsigned then .ja else .jg)
  | .ge => genCompare (if ty.isUnsigned then .jae else .jge)
  | .bitand => emitOp (.alu .and 1 1 (.reg 2))
  | .bitor => emitOp (.alu .or 1 1 (.reg 2))
  | .bitxor => emitOp (.alu .xor 1 1 (.reg 2))
  | .lsl => emitOp (.alu .lsl 1 1 (.reg 2))
  | .lsr => emitOp (.alu (if ty.isUnsigned then .lsr else .asr) 1 1 (.reg 2))
  | .logand | .logor => emitFailure

/-- A value of this type is an address. -/
def CType.isPlace : CType → Bool
  | .array _ _ | .struct _ | .union _ => true
  | _ => false

def genObject (ty : CType) : Emit α :=
  if ty.isPlace then emitOp (.move 1 (.reg 9)) else emitOps (some (genLoad ty))

def genCast : CType → Emit α
  | .char unsigned => emitOps (some (genExtend (.char unsigned) 24))
  | .short unsigned => emitOps (some (genExtend (.short unsigned) 16))
  | _ => emit []

def genUnary (build : Build) : UnaryKind → Emit α
  | .neg => emitOp (.negate 1 (.reg 1))
  | .not => emitOp (.move 2 (.imm 0)) ++ genCompare .je
  | .bitnot => emitOps (genNumReg build 2 (build.toCcInt 0xFFFFFFFF)) ++
      emitOp (.alu .xor 1 1 (.reg 2))

def Node.lvalue : Node α → Lvalue
  | .member _ _ (some field) _ => .bits field
  | n => .object n.ty

/-- The codes of a node: `gen_expr`, `gen_laddr`, and for an object that is reached through an
address in `r1` the code of that address, from which `gen_member_addr` starts. -/
structure NodeCode (α : Type) where
  value : Emit α
  address : Emit α
  pointer : Option (Emit α)

def genMemberAddr (lhs : NodeCode α) (val : Nat) : Emit α :=
  match lhs.pointer with
  | some pointer =>
      pointer ++ if val = 0 then emitOp (.move 9 (.reg 1)) else emitImm (.alu .add 9 1) val
  | none => lhs.address ++ if val = 0 then emit [] else emitImm (.alu .add 9 9) val

def genNode (build : Build) (naming : Naming) : Node α → NodeCode α
  | .num val _ => ⟨emitOps (genNumReg build 1 val), emitFailure, none⟩
  | .var offset ty =>
      let address := emitImm (.alu .sub 9 10) (-offset)
      ⟨address ++ genObject ty, address, none⟩
  | .gvar name ty =>
      let address := if naming.needsD32 name then emitAddr32 (naming.address name)
        else emitImm (.move 9) (naming.address name).toNat
      ⟨address ++ genObject ty, address, none⟩
  | .func name _ =>
      ⟨emitAddr32 (naming.address name) ++ emitOp (.move 1 (.reg 9)), emitFailure, none⟩
  | .str val =>
      ⟨emitAddr32 (naming.string val) ++ emitOp (.move 1 (.reg 9)), emitFailure, none⟩
  | .call which _ => ⟨emit [.call which], emitFailure, some (emit [.call which])⟩
  | .addr (.str val) _ =>
      ⟨emitAddr32 (naming.string val) ++ emitOp (.move 1 (.reg 9)), emitFailure, none⟩
  | .addr lhs _ =>
      ⟨(genNode build naming lhs).address ++ emitOp (.move 1 (.reg 9)), emitFailure, none⟩
  | .deref lhs ty =>
      let pointer := (genNode build naming lhs).value
      ⟨if ty.isPlace then pointer
        else pointer ++ emitOp (.move 9 (.reg 1)) ++ emitOps (some (genLoad ty)),
        pointer ++ emitOp (.move 9 (.reg 1)), some pointer⟩
  | .member lhs val field ty =>
      let address := genMemberAddr (genNode build naming lhs) val
      ⟨address ++ match field with
        | some field => emitOps (genLoadBitfield build field)
        | none => genObject ty, address, none⟩
  | .cast lhs ty => ⟨(genNode build naming lhs).value ++ genCast ty, emitFailure, none⟩
  | .unary kind lhs => ⟨(genNode build naming lhs).value ++ genUnary build kind, emitFailure, none⟩
  | .binary .logand lhs rhs _ _ =>
      ⟨genLogand (genNode build naming lhs).value (genNode build naming rhs).value, emitFailure, none⟩
  | .binary .logor lhs rhs _ _ =>
      ⟨genLogor (genNode build naming lhs).value (genNode build naming rhs).value, emitFailure, none⟩
  | .binary kind lhs rhs ty val =>
      ⟨(genNode build naming rhs).value ++ emitPush 1 ++ (genNode build naming lhs).value ++
        emitPop 2 ++ genOperation build kind ty val, emitFailure, none⟩
  | .assign lhs rhs ty =>
      ⟨(genNode build naming lhs).address ++ emitPush 9 ++ (genNode build naming rhs).value ++
        emitPop 9 ++ emitOps (genAssign build ty lhs.lvalue), emitFailure, none⟩
  | .comma lhs rhs _ =>
      ⟨(genNode build naming lhs).value ++ (genNode build naming rhs).value, emitFailure, none⟩
  | .cond lhs rhs els _ =>
      ⟨genCond (genNode build naming lhs).value (genNode build naming rhs).value
        (genNode build naming els).value, emitFailure, none⟩

def genExpr (build : Build) (naming : Naming) (n : Node α) : Emit α := (genNode build naming n).value

def genLaddr (build : Build) (naming : Naming) (n : Node α) : Emit α :=
  (genNode build naming n).address

end SymphonyPlus
