import SymphonyPlus.ExpressionCorrect

/-!
Pointer arithmetic: what `new_binop` and `scale_ptr` of `symcc/src/parse.c` make of sums and
differences with pointers and arrays.
-/

namespace SymphonyPlus

open ByteMemory

inductive PointsTo (elem : CType) : CType → Prop
  | ptr : PointsTo elem (.ptr elem)
  | array (len : Int) : PointsTo elem (.array elem len)

theorem PointsTo.base {elem ty : CType} (points : PointsTo elem ty) : ty.base = elem := by
  cases points <;> rfl

theorem PointsTo.of_isPtr {elem ty : CType} (points : PointsTo elem ty) (pointer : ty.isPtr) :
    ty = .ptr elem := by
  cases points with
  | ptr => rfl
  | array len => cases pointer

def CType.IsInteger (ty : CType) : Prop := ty.isArray = false ∧ ty.isPtr = false

variable {α : Type}

theorem eval_add (setting : Setting α) (lhs rhs : Node α) (ty : CType) (val : Nat) :
    eval setting (.binary .add lhs rhs ty val) =
      (eval setting rhs).bind fun right => (eval setting lhs).bind fun left => .pure (left + right) :=
  rfl

theorem eval_sub (setting : Setting α) (lhs rhs : Node α) (ty : CType) (val : Nat) :
    eval setting (.binary .sub lhs rhs ty val) =
      (eval setting rhs).bind fun right => (eval setting lhs).bind fun left =>
        .pure (pointerQuotient val (left - right)) :=
  rfl

/-- Scaling multiplies the value by the size of the element. -/
theorem scalePtr_value {σ : Type} (world : World α σ) (n : Node α) (elem : CType) :
    (nodeMeaning world (scalePtr n elem)).value =
      (nodeMeaning world n).value.bind fun value => .pure (value * BitVec.ofNat 32 elem.size) := by
  rw [scalePtr]
  split
  · rename_i one
    rw [one]
    refine (Evaluation.bind_pure _).symm.trans ?_
    congr 1
    funext value
    rw [BitVec.mul_one]
  · funext state
    change ((Evaluation.pure (BitVec.ofInt 32 elem.size)).bind fun right =>
      (nodeMeaning world n).value.bind fun left => .pure (left * right)) state = _
    rw [BitVec.ofInt_natCast]
    rfl

theorem eval_scalePtr (setting : Setting α) (n : Node α) (elem : CType) :
    eval setting (scalePtr n elem) =
      (eval setting n).bind fun value => .pure (value * BitVec.ofNat 32 elem.size) :=
  scalePtr_value setting.world n elem

section Built

variable {elem : CType} {p q n : Node α}

theorem newBinop_add (points : PointsTo elem p.ty) (integer : n.ty.IsInteger) :
    newBinop .add p n = .binary .add p (scalePtr n elem) (.ptr elem) 0 := by
  obtain ⟨notArray, notPtr⟩ := integer
  rw [newBinop]
  generalize p.ty = ty at points ⊢
  cases points with
  | ptr => simp [notArray, notPtr]
  | array len => simp

theorem newBinop_add_swapped (points : PointsTo elem p.ty) (integer : n.ty.IsInteger) :
    newBinop .add n p = .binary .add (scalePtr n elem) p (.ptr elem) 0 := by
  obtain ⟨notArray, notPtr⟩ := integer
  rw [newBinop]
  generalize p.ty = ty at points ⊢
  cases points with
  | ptr => simp [notArray, notPtr]
  | array len => simp [notArray]

theorem newBinop_sub (points : PointsTo elem p.ty) (integer : n.ty.IsInteger) :
    newBinop .sub p n = .binary .sub p (scalePtr n elem) (.ptr elem) 0 := by
  obtain ⟨notArray, notPtr⟩ := integer
  rw [newBinop]
  generalize p.ty = ty at points ⊢
  cases points with
  | ptr => simp [notPtr]
  | array len => simp

theorem newBinop_difference (pointer : p.ty = .ptr elem) (pointer₂ : q.ty = .ptr elem)
    (positive : 0 < elem.size) :
    newBinop .sub p q = .binary .sub p q tyInt elem.size := by
  have size : (if elem = .void ∨ elem.size = 0 then 1 else elem.size) = elem.size := by
    split
    · rename_i special
      rcases special with void | zero
      · rw [void]
        rfl
      · omega
    · rfl
  rw [newBinop]
  simp [pointer, pointer₂, size]

/-- The address of an array is scaled as an integer would be. -/
theorem newBinop_difference_array (points : PointsTo elem p.ty) (points₂ : PointsTo elem q.ty)
    (array : ¬(p.ty.isPtr ∧ q.ty.isPtr)) :
    newBinop .sub p q = .binary .sub p (scalePtr q elem) (.ptr elem) 0 := by
  rw [newBinop]
  generalize p.ty = ty at points array ⊢
  generalize q.ty = ty₂ at points₂ array ⊢
  cases points with
  | ptr =>
      cases points₂ with
      | ptr => exact absurd ⟨rfl, rfl⟩ array
      | array len => simp
  | array len => simp

end Built

/-- An exact multiple of the size is divided exactly. -/
theorem pointerQuotient_exact {size : Nat} (positive : 0 < size) (small : size < 2 ^ 31) {k : Int}
    (bounds : -2 ^ 31 ≤ k * size ∧ k * size < 2 ^ 31) :
    pointerQuotient size (BitVec.ofInt 32 (k * size)) = BitVec.ofInt 32 k := by
  have signed : (BitVec.ofInt 32 (k * size)).toInt = k * size :=
    BitVec.toInt_ofInt_eq_self (by decide) (by omega) (by omega)
  have shifted (amount : Nat) (power : size = 2 ^ amount) :
      (BitVec.ofInt 32 (k * size)).sshiftRight amount = BitVec.ofInt 32 k := by
    rw [← BitVec.ofInt_toInt (x := BitVec.sshiftRight _ _), BitVec.toInt_sshiftRight, signed,
      Int.shiftRight_eq_div_pow, power]
    rw [Int.mul_ediv_cancel _ (by exact_mod_cast (Nat.two_pow_pos amount).ne')]
  rw [pointerQuotient]
  split
  · rename_i small
    obtain rfl : size = 1 := by omega
    rw [Int.natCast_one, Int.mul_one]
  · split
    · rename_i two
      exact shifted 1 two
    · split
      · rename_i four
        exact shifted 2 four
      · split
        · rename_i eight
          exact shifted 3 eight
        · have divisor : (BitVec.ofNat 32 size).toInt = size := by
            rw [BitVec.toInt_eq_toNat_cond, BitVec.toNat_ofNat, Nat.mod_eq_of_lt (by omega),
              if_pos (by omega)]
          rw [divsi3_eq, signed, divisor, Int.mul_tdiv_cancel _ (by omega)]

def elementAt (elem : CType) (base : BitVec 32) (i : Nat) : BitVec 32 :=
  base + BitVec.ofNat 32 (i * elem.size)

def scaled (elem : CType) (i : BitVec 32) : BitVec 32 := i * BitVec.ofNat 32 elem.size

/-- Arithmetic with operands of the types `tp` and `tq`, which point to `elem` or are arrays of it.
The elements `i` and `j` lie in one object, whose size the compiler keeps below `2^31`. -/
structure PointerLaws (elem tp tq : CType) : Prop where
  add : ∀ {α : Type} (setting : Setting α) (p n : Node α), p.ty = tp → n.ty.IsInteger →
    eval setting (newBinop .add p n) = (eval setting n).bind fun i =>
      (eval setting p).bind fun address => .pure (address + scaled elem i)
  addSwapped : ∀ {α : Type} (setting : Setting α) (p n : Node α), p.ty = tp → n.ty.IsInteger →
    eval setting (newBinop .add n p) = (eval setting p).bind fun address =>
      (eval setting n).bind fun i => .pure (address + scaled elem i)
  sub : ∀ {α : Type} (setting : Setting α) (p n : Node α), p.ty = tp → n.ty.IsInteger →
    eval setting (newBinop .sub p n) = (eval setting n).bind fun i =>
      (eval setting p).bind fun address => .pure (address - scaled elem i)
  difference : ∀ {α : Type} (setting : Setting α) (p q : Node α), p.ty = tp → q.ty = tq →
    ∀ memory memory₁ memory₂ base i j, i * elem.size < 2 ^ 31 → j * elem.size < 2 ^ 31 →
    eval setting q memory = some (elementAt elem base j, memory₁) →
    eval setting p memory₁ = some (elementAt elem base i, memory₂) →
    eval setting (newBinop .sub p q) memory = some (BitVec.ofInt 32 (i - j), memory₂)
  addSub : ∀ {α : Type} (setting : Setting α) (p n : Node α), p.ty = tp → n.ty.IsInteger →
    ∀ memory memory₁ memory₂ memory₃ base (i j : Nat), i * elem.size < 2 ^ 31 →
    j * elem.size < 2 ^ 31 →
    eval setting p memory = some (elementAt elem base j, memory₁) →
    eval setting n memory₁ = some (BitVec.ofInt 32 (i - j), memory₂) →
    eval setting p memory₂ = some (elementAt elem base j, memory₃) →
    eval setting (newBinop .sub (newBinop .add p n) p) memory =
      some (BitVec.ofInt 32 (i - j), memory₃)
  subAdd : ∀ {α : Type} (setting : Setting α) (p n : Node α), p.ty = tp → n.ty.IsInteger →
    ∀ memory memory₁ memory₂ memory₃ i address,
    eval setting n memory = some (i, memory₁) → eval setting n memory₁ = some (i, memory₂) →
    eval setting p memory₂ = some (address, memory₃) →
    eval setting (newBinop .add (newBinop .sub p n) n) memory = some (address, memory₃)

section Laws

variable {elem : CType} {p q n : Node α}

theorem eval_newBinop_add (setting : Setting α) (points : PointsTo elem p.ty)
    (integer : n.ty.IsInteger) :
    eval setting (newBinop .add p n) = (eval setting n).bind fun i =>
      (eval setting p).bind fun address => .pure (address + scaled elem i) := by
  rw [newBinop_add points integer, eval_add, eval_scalePtr, Evaluation.bind_assoc]
  rfl

theorem eval_newBinop_add_swapped (setting : Setting α) (points : PointsTo elem p.ty)
    (integer : n.ty.IsInteger) :
    eval setting (newBinop .add n p) = (eval setting p).bind fun address =>
      (eval setting n).bind fun i => .pure (address + scaled elem i) := by
  rw [newBinop_add_swapped points integer, eval_add, eval_scalePtr]
  simp only [Evaluation.bind_assoc, Evaluation.pure_bind, BitVec.add_comm]
  rfl

theorem eval_newBinop_sub (setting : Setting α) (points : PointsTo elem p.ty)
    (integer : n.ty.IsInteger) :
    eval setting (newBinop .sub p n) = (eval setting n).bind fun i =>
      (eval setting p).bind fun address => .pure (address - scaled elem i) := by
  rw [newBinop_sub points integer, eval_sub, eval_scalePtr, Evaluation.bind_assoc]
  rfl

theorem element_difference (base : BitVec 32) (i j : Nat) :
    elementAt elem base i - elementAt elem base j = BitVec.ofInt 32 ((i - j : Int) * elem.size) := by
  rw [elementAt, elementAt, Int.sub_mul, Int.sub_eq_add_neg, BitVec.ofInt_add, BitVec.ofInt_neg,
    ← Int.natCast_mul, ← Int.natCast_mul, BitVec.ofInt_natCast, BitVec.ofInt_natCast]
  generalize BitVec.ofNat 32 (i * elem.size) = first
  generalize BitVec.ofNat 32 (j * elem.size) = second
  grind

theorem element_add (base : BitVec 32) (i j : Nat) :
    elementAt elem base j + scaled elem (BitVec.ofInt 32 (i - j)) = elementAt elem base i := by
  have difference := @element_difference elem base i j
  rw [BitVec.ofInt_mul, BitVec.ofInt_natCast] at difference
  rw [scaled, ← difference]
  grind

theorem eval_difference (setting : Setting α) (points : PointsTo elem p.ty)
    (points₂ : PointsTo elem q.ty) (positive : 0 < elem.size) (small : elem.size < 2 ^ 31)
    (right : elem.size = 1 ∨ p.ty.isPtr ∧ q.ty.isPtr) {memory memory₁ memory₂ : Memory}
    {base : BitVec 32} {i j : Nat} (inside : i * elem.size < 2 ^ 31) (inside₂ : j * elem.size < 2 ^ 31)
    (isQ : eval setting q memory = some (elementAt elem base j, memory₁))
    (isP : eval setting p memory₁ = some (elementAt elem base i, memory₂)) :
    eval setting (newBinop .sub p q) memory = some (BitVec.ofInt 32 (i - j), memory₂) := by
  have exact_ : pointerQuotient elem.size (elementAt elem base i - elementAt elem base j) =
      BitVec.ofInt 32 (i - j) := by
    rw [element_difference]
    refine pointerQuotient_exact positive small ?_
    rw [Int.sub_mul]
    omega
  by_cases pointers : p.ty.isPtr ∧ q.ty.isPtr
  · rw [newBinop_difference (points.of_isPtr pointers.1) (points₂.of_isPtr pointers.2) positive,
      eval_sub]
    simp only [Evaluation.bind, isQ, isP, Option.bind_some, exact_]
    rfl
  · have one := right.resolve_right pointers
    rw [newBinop_difference_array points points₂ pointers, eval_sub, eval_scalePtr, one]
    rw [one] at exact_
    simp only [Evaluation.bind, Evaluation.pure, isQ, isP, Option.bind_some, BitVec.mul_one]
    exact congrArg (fun value => some (value, memory₂)) exact_

end Laws

theorem pointerLaws_of {elem tp tq : CType} (positive : 0 < elem.size) (small : elem.size < 2 ^ 31)
    (points : PointsTo elem tp) (points₂ : PointsTo elem tq)
    (right : elem.size = 1 ∨ tp.isPtr ∧ tq.isPtr) : PointerLaws elem tp tq where
  add := by
    rintro α setting p n rfl integer
    exact eval_newBinop_add setting points integer
  addSwapped := by
    rintro α setting p n rfl integer
    exact eval_newBinop_add_swapped setting points integer
  sub := by
    rintro α setting p n rfl integer
    exact eval_newBinop_sub setting points integer
  difference := by
    rintro α setting p q rfl rfl memory memory₁ memory₂ base i j inside inside₂ isQ isP
    exact eval_difference setting points points₂ positive small right inside inside₂ isQ isP
  addSub := by
    rintro α setting p n rfl integer memory memory₁ memory₂ memory₃ base i j inside inside₂ isP isN
      isP₂
    have sum : (newBinop .add p n).ty = .ptr elem := by
      rw [newBinop_add points integer]
      rfl
    refine eval_difference setting (by rw [sum]; exact .ptr) points positive small
      (right.imp_right fun both => ⟨by rw [sum]; rfl, both.1⟩) inside inside₂ isP ?_
    rw [eval_newBinop_add setting points integer]
    simp only [Evaluation.bind, isN, isP₂, Option.bind_some]
    exact congrArg (fun value => some (value, memory₃)) (element_add base i j)
  subAdd := by
    rintro α setting p n rfl integer memory memory₁ memory₂ memory₃ i address isN isN₂ isP
    have rest : (newBinop .sub p n).ty = .ptr elem := by
      rw [newBinop_sub points integer]
      rfl
    rw [eval_newBinop_add setting (by rw [rest]; exact .ptr) integer,
      eval_newBinop_sub setting points integer]
    simp only [Evaluation.bind, Evaluation.pure, isN, isN₂, isP, Option.bind_some, BitVec.sub_add_cancel]

def oneOperand (ty : CType) : Node Empty := if ty.isPtr then .cast (.num 1 tyInt) ty else .gvar "p" ty

def oneSetting : Setting Empty where
  frame := ⟨⟨0, 0⟩, 0, 0, 0⟩
  naming := ⟨fun _ => 1, fun _ => true⟩
  calls := Empty.elim

theorem oneOperand_ty (ty : CType) : (oneOperand ty).ty = ty := by
  rw [oneOperand]
  split <;> rfl

theorem eval_oneOperand {elem ty : CType} (points : PointsTo elem ty) :
    eval oneSetting (oneOperand ty) = .pure 1 := by
  cases points with
  | ptr => rfl
  | array len => rfl

/-- The laws hold for exactly the operands that are both pointers, and for elements of size one. -/
theorem pointerLaws_iff {elem tp tq : CType} (positive : 0 < elem.size) (small : elem.size < 2 ^ 31)
    (points : PointsTo elem tp) (points₂ : PointsTo elem tq) :
    PointerLaws elem tp tq ↔ elem.size = 1 ∨ tp.isPtr ∧ tq.isPtr := by
  constructor
  · intro laws
    by_contra wrong
    obtain ⟨large, array⟩ := not_or.mp wrong
    have isP := eval_oneOperand points
    have isQ := eval_oneOperand points₂
    have first : elementAt elem 1 0 = 1 := by simp [elementAt]
    have zero := laws.difference oneSetting (oneOperand tp) (oneOperand tq) (oneOperand_ty tp)
      (oneOperand_ty tq) (fun _ => 0) (fun _ => 0) (fun _ => 0) 1 0 0 (by omega) (by omega)
      (by rw [isQ, first]; rfl) (by rw [isP, first]; rfl)
    rw [@newBinop_difference_array _ elem _ _ (by rw [oneOperand_ty]; exact points)
      (by rw [oneOperand_ty]; exact points₂) (by rw [oneOperand_ty, oneOperand_ty]; exact array),
      eval_sub, eval_scalePtr, isP, isQ] at zero
    have value : (1 : BitVec 32) - 1 * BitVec.ofNat 32 elem.size = BitVec.ofInt 32 (0 - 0) :=
      congrArg Prod.fst (Option.some.inj zero)
    have one : BitVec.ofNat 32 elem.size = 1 := by
      rw [show BitVec.ofInt 32 (0 - 0) = 0#32 from rfl] at value
      grind
    have size := congrArg BitVec.toNat one
    rw [BitVec.toNat_ofNat, Nat.mod_eq_of_lt (by omega)] at size
    exact large size
  · exact pointerLaws_of positive small points points₂

/-- Pointers to words obey the laws. -/
theorem pointerLaws_words : PointerLaws (.int false) (.ptr (.int false)) (.ptr (.int false)) :=
  (pointerLaws_iff (by decide) (by decide) .ptr .ptr).mpr (.inr ⟨rfl, rfl⟩)

/-- `q - a` for an array `a` of words at address 1 and a pointer `q` to its first. -/
theorem pointerLaws_array_difference :
    ¬PointerLaws (.int false) (.ptr (.int false)) (.array (.int false) 3) := by
  intro laws
  have difference := laws.difference oneSetting (oneOperand (.ptr (.int false)))
    (oneOperand (.array (.int false) 3)) rfl rfl (fun _ => 0) (fun _ => 0) (fun _ => 0) 1 0 0
    (by decide) (by decide) rfl rfl
  have value := congrArg Prod.fst (Option.some.inj difference)
  revert value
  decide

end SymphonyPlus
