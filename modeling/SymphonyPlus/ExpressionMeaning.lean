import SymphonyPlus.ExpressionCode
import SymphonyPlus.SignedDivision

/-!
What an expression means: its value modulo `2^32` and the memory after it. Operands are evaluated in
the order of the generated code.
-/

namespace SymphonyPlus

open ByteMemory BitRanges

/-- A state goes to a value and the state after it; `none` where the expression has no meaning. -/
abbrev Evaluation (σ : Type) : Type := σ → Option (BitVec 32 × σ)

abbrev Meaning : Type := Evaluation Memory

/-- The frame in which an expression is evaluated. Temporaries lie from `limit` to the stack pointer,
where an expression has no objects. -/
structure Stack where
  ram : Ram
  limit : Nat
  sp : Nat
  base : BitVec 32

def Stack.reads (frame : Stack) (address : BitVec 32) (size : Nat) : Bool :=
  address.toNat + size ≤ frame.ram.top &&
    (address.toNat + size ≤ frame.limit || frame.sp ≤ address.toNat)

def Stack.writes (frame : Stack) (address : BitVec 32) (size : Nat) : Bool :=
  frame.ram.low ≤ address.toNat && frame.reads address size

def Stack.fetch (frame : Stack) (lhs : Lvalue) (address : BitVec 32) (memory : Memory) :
    Option (BitVec 32) :=
  match lhs with
  | .bits field =>
      if frame.reads address 4 then some (field.extend (field.stored (read32 memory address.toNat)))
      else none
  | .object ty =>
      if ty.isPlace then some address
      else if frame.reads address ty.width.bytes then
        some (ty.convert (ty.width.load memory address.toNat))
      else none

def Stack.put (frame : Stack) (ty : CType) (lhs : Lvalue) (address value : BitVec 32)
    (memory : Memory) : Option (BitVec 32 × Memory) :=
  if ty.isAgg then none
  else
    match lhs with
    | .bits field =>
        if frame.writes address 4 then
          some ((value &&& BitRanges.mask 32 field.width) <<< field.shift,
            write32 memory address.toNat
              (replace (read32 memory address.toNat) field.shift field.width value))
        else none
    | .object _ =>
        if frame.writes address ty.width.bytes then
          some (value, ty.width.store memory address.toNat value)
        else none

def truth (condition : Bool) : BitVec 32 := if condition then 1 else 0

def pointerQuotient (val : Nat) (difference : BitVec 32) : BitVec 32 :=
  if val = 0 ∨ val = 1 then difference
  else if val = 2 then difference.sshiftRight 1
  else if val = 4 then difference.sshiftRight 2
  else if val = 8 then difference.sshiftRight 3
  else divsi3 difference (BitVec.ofNat 32 val)

def BinaryKind.apply (kind : BinaryKind) (ty : CType) (val : Nat) (left right : BitVec 32) :
    BitVec 32 :=
  match kind with
  | .mul => left * right
  | .div => if ty.isUnsigned then machineDiv left right else divsi3 left right
  | .mod => if ty.isUnsigned then machineMod left right else modsi3 left right
  | .add => left + right
  | .sub => pointerQuotient val (left - right)
  | .eq => truth (left == right)
  | .ne => truth (left != right)
  | .lt => truth (if ty.isUnsigned then left.ult right else left.slt right)
  | .le => truth (if ty.isUnsigned then left.ule right else left.sle right)
  | .gt => truth (if ty.isUnsigned then !left.ule right else !left.sle right)
  | .ge => truth (if ty.isUnsigned then !left.ult right else !left.slt right)
  | .bitand => left &&& right
  | .bitor => left ||| right
  | .bitxor => left ^^^ right
  | .lsl => left <<< (right &&& 31)
  | .lsr => if ty.isUnsigned then left >>> (right &&& 31) else left.sshiftRight (right &&& 31).toNat
  | .logand => truth (left != 0 && right != 0)
  | .logor => truth (left != 0 || right != 0)

def UnaryKind.apply : UnaryKind → BitVec 32 → BitVec 32
  | .neg, value => -value
  | .not, value => truth (value == 0)
  | .bitnot, value => ~~~value

def castValue : CType → BitVec 32 → BitVec 32
  | .char unsigned, value => CType.convert (.char unsigned) value
  | .short unsigned, value => CType.convert (.short unsigned) value
  | _, value => value

structure Setting (α : Type) where
  frame : Stack
  naming : Naming
  calls : α → Meaning

/-- What an expression does to a state: it reads objects, assigns to them and calls. -/
structure World (α σ : Type) where
  base : BitVec 32
  naming : Naming
  fetch : Lvalue → BitVec 32 → Evaluation σ
  put : CType → Lvalue → BitVec 32 → BitVec 32 → Evaluation σ
  calls : α → Evaluation σ

variable {α σ : Type}

def Evaluation.bind (first : Evaluation σ) (next : BitVec 32 → Evaluation σ) : Evaluation σ :=
  fun state => (first state).bind fun result => next result.1 result.2

def Evaluation.pure (value : BitVec 32) : Evaluation σ := fun state => some (value, state)

def Evaluation.none : Evaluation σ := fun _ => Option.none

@[simp] theorem Evaluation.pure_bind (value : BitVec 32) (next : BitVec 32 → Evaluation σ) :
    (Evaluation.pure value).bind next = next value := rfl

@[simp] theorem Evaluation.bind_assoc (first : Evaluation σ)
    (second third : BitVec 32 → Evaluation σ) :
    (first.bind second).bind third = first.bind fun value => (second value).bind third := by
  funext state
  simp only [Evaluation.bind, Option.bind_assoc]

theorem Evaluation.bind_pure (evaluation : Evaluation σ) : evaluation.bind .pure = evaluation := by
  funext state
  rw [Evaluation.bind]
  cases evaluation state <;> rfl

theorem Evaluation.bind_eq_some {first : Evaluation σ} {next : BitVec 32 → Evaluation σ}
    {state state' : σ} {value : BitVec 32} : first.bind next state = some (value, state') ↔
      ∃ middle state₂, first state = some (middle, state₂) ∧
        next middle state₂ = some (value, state') := by
  simp [Evaluation.bind, Option.bind_eq_some_iff]

def Setting.world (setting : Setting α) : World α Memory where
  base := setting.frame.base
  naming := setting.naming
  fetch lhs address memory :=
    (setting.frame.fetch lhs address memory).map fun value => (value, memory)
  put := setting.frame.put
  calls := setting.calls

/-- The meanings of a node: of its value, of its address as an object, and of the address of the
members of its object. -/
structure NodeMeaning (σ : Type) where
  value : Evaluation σ
  address : Evaluation σ
  object : Evaluation σ

def nodeMeaning (world : World α σ) : Node α → NodeMeaning σ
  | .num val _ => ⟨.pure (BitVec.ofInt 32 val), .none, .none⟩
  | .var offset ty =>
      let address := Evaluation.pure (world.base + BitVec.ofInt 32 offset)
      ⟨address.bind (world.fetch (.object ty)), address, address⟩
  | .gvar name ty =>
      let address := Evaluation.pure (world.naming.address name)
      ⟨address.bind (world.fetch (.object ty)), address, address⟩
  | .func name _ => ⟨.pure (world.naming.address name), .none, .none⟩
  | .str val => ⟨.pure (world.naming.string val), .none, .none⟩
  | .call which _ => ⟨world.calls which, .none, world.calls which⟩
  | .addr (.str val) _ => ⟨.pure (world.naming.string val), .none, .none⟩
  | .addr lhs _ => ⟨(nodeMeaning world lhs).address, .none, .none⟩
  | .deref lhs ty =>
      let address := (nodeMeaning world lhs).value
      ⟨address.bind (world.fetch (.object ty)), address, address⟩
  | .member lhs val field ty =>
      let address := (nodeMeaning world lhs).object.bind fun object =>
        .pure (object + BitVec.ofNat 32 val)
      ⟨address.bind (world.fetch (Node.member lhs val field ty).lvalue), address, address⟩
  | .cast lhs ty =>
      ⟨(nodeMeaning world lhs).value.bind fun value => .pure (castValue ty value), .none, .none⟩
  | .unary kind lhs =>
      ⟨(nodeMeaning world lhs).value.bind fun value => .pure (kind.apply value), .none, .none⟩
  | .binary .logand lhs rhs _ _ =>
      ⟨(nodeMeaning world lhs).value.bind fun left =>
        if left = 0 then .pure 0
        else (nodeMeaning world rhs).value.bind fun right => .pure (truth (right != 0)),
        .none, .none⟩
  | .binary .logor lhs rhs _ _ =>
      ⟨(nodeMeaning world lhs).value.bind fun left =>
        if left = 0 then
          (nodeMeaning world rhs).value.bind fun right => .pure (truth (right != 0))
        else .pure 1, .none, .none⟩
  | .binary kind lhs rhs ty val =>
      ⟨(nodeMeaning world rhs).value.bind fun right =>
        (nodeMeaning world lhs).value.bind fun left => .pure (kind.apply ty val left right),
        .none, .none⟩
  | .assign lhs rhs ty =>
      ⟨(nodeMeaning world lhs).address.bind fun address =>
        (nodeMeaning world rhs).value.bind fun value =>
          world.put ty lhs.lvalue address value, .none, .none⟩
  | .comma lhs rhs _ =>
      ⟨(nodeMeaning world lhs).value.bind fun _ => (nodeMeaning world rhs).value, .none, .none⟩
  | .cond lhs rhs els _ =>
      ⟨(nodeMeaning world lhs).value.bind fun condition =>
        if condition = 0 then (nodeMeaning world els).value else (nodeMeaning world rhs).value,
        .none, .none⟩

def eval (setting : Setting α) (n : Node α) : Meaning := (nodeMeaning setting.world n).value

def evalAddress (setting : Setting α) (n : Node α) : Meaning := (nodeMeaning setting.world n).address

end SymphonyPlus
