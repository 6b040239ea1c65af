import SymphonyPlus.ExpressionCorrect
import SymphonyPlus.ExpressionEffects
import SymphonyPlus.PointerArithmetic

/-!
Compound assignments, increments and decrements: how often the lvalue is evaluated.
-/

namespace SymphonyPlus

open ByteMemory BitRanges

variable {α σ : Type}

def combined (kind : BinaryKind) (lhs rhs : CType) (left right : BitVec 32) : BitVec 32 :=
  match kind, lhs with
  | .add, .ptr elem => left + scaled elem right
  | .sub, .ptr elem => left - scaled elem right
  | kind, lhs => kind.apply (arithmeticType kind lhs rhs) 0 left right

def compoundKinds : List BinaryKind :=
  [.add, .sub, .mul, .div, .mod, .bitand, .bitor, .bitxor, .lsl, .lsr]

def stepKind (inc : Bool) : BinaryKind := if inc then .add else .sub

theorem combined_other {kind : BinaryKind} {lhs : CType}
    (other : kind ≠ .add ∧ kind ≠ .sub ∨ lhs.isPtr = false) (rhs : CType) (left right : BitVec 32) :
    combined kind lhs rhs left right = kind.apply (arithmeticType kind lhs rhs) 0 left right := by
  rw [combined]
  · rintro elem rfl rfl
    simp at other
  · rintro elem rfl rfl
    simp at other

section Operands

variable (world : World α σ) {lhs rhs : Node α}

theorem newBinop_other {kind : BinaryKind} (notArray : lhs.ty.isArray = false)
    (integer : rhs.ty.IsInteger) (other : kind ≠ .add ∧ kind ≠ .sub ∨ lhs.ty.isPtr = false) :
    newBinop kind lhs rhs = .binary kind lhs rhs (arithmeticType kind lhs.ty rhs.ty) 0 := by
  obtain ⟨notArray₂, notPtr₂⟩ := integer
  rcases other with ⟨notAdd, notSub⟩ | notPtr
  · simp [newBinop, notAdd, notSub]
  · simp [newBinop, notArray, notPtr, notArray₂, notPtr₂]

theorem newBinop_value {kind : BinaryKind} (compound : kind ∈ compoundKinds)
    (scalar : lhs.ty.isPlace = false) (integer : rhs.ty.IsInteger) :
    (nodeMeaning world (newBinop kind lhs rhs)).value =
      (nodeMeaning world rhs).value.bind fun right => (nodeMeaning world lhs).value.bind fun left =>
        .pure (combined kind lhs.ty rhs.ty left right) := by
  have plain : kind ≠ .logand ∧ kind ≠ .logor := by
    constructor <;> (rintro rfl; simp [compoundKinds] at compound)
  have notArray : lhs.ty.isArray = false := by
    generalize lhs.ty = ty at scalar
    cases ty <;> first | rfl | cases scalar
  by_cases other : kind ≠ .add ∧ kind ≠ .sub ∨ lhs.ty.isPtr = false
  · rw [newBinop_other notArray integer other, nodeMeaning_binary world plain]
    simp only [combined_other other]
  · obtain ⟨additive, pointer⟩ := not_or.mp other
    obtain ⟨elem, isPtr⟩ : ∃ elem, lhs.ty = .ptr elem := by
      generalize lhs.ty = ty at pointer
      cases ty <;> first | exact ⟨_, rfl⟩ | exact absurd rfl pointer
    have points : PointsTo elem lhs.ty := by
      rw [isPtr]
      exact .ptr
    obtain rfl | rfl : kind = .add ∨ kind = .sub := by
      by_contra neither
      exact additive (not_or.mp neither)
    · rw [newBinop_add points integer, nodeMeaning_binary world plain, scalePtr_value, isPtr,
        Evaluation.bind_assoc]
      rfl
    · rw [newBinop_sub points integer, nodeMeaning_binary world plain, scalePtr_value, isPtr,
        Evaluation.bind_assoc]
      rfl

theorem expandCompound_value {kind : BinaryKind} (compound : kind ∈ compoundKinds)
    (scalar : lhs.ty.isPlace = false) (integer : rhs.ty.IsInteger) :
    (nodeMeaning world (expandCompound lhs kind rhs)).value =
      (nodeMeaning world lhs).address.bind fun address => (nodeMeaning world rhs).value.bind fun right =>
        (nodeMeaning world lhs).value.bind fun left =>
          world.put lhs.ty lhs.lvalue address (combined kind lhs.ty rhs.ty left right) := by
  rw [expandCompound, newAssign, nodeMeaning, newBinop_value world compound scalar integer]
  simp only [Evaluation.bind_assoc, Evaluation.pure_bind]

theorem newNumNode_integer : (newNumNode 1 : Node α).ty.IsInteger := ⟨rfl, rfl⟩

theorem stepKind_compound (inc : Bool) : stepKind inc ∈ compoundKinds := by
  cases inc <;> decide

theorem comma_value (ty : CType) :
    (nodeMeaning world (.comma lhs rhs ty)).value =
      (nodeMeaning world lhs).value.bind fun _ => (nodeMeaning world rhs).value := rfl

theorem postfixStep_value (scalar : lhs.ty.isPlace = false) (offset : Int) (inc : Bool) :
    (nodeMeaning world (postfixStep offset inc lhs)).value =
      (nodeMeaning world lhs).value.bind fun old =>
        (world.put lhs.ty (.object lhs.ty) (world.base + BitVec.ofInt 32 offset) old).bind fun _ =>
          (nodeMeaning world lhs).address.bind fun address => (nodeMeaning world lhs).value.bind fun left =>
            (world.put lhs.ty lhs.lvalue address (combined (stepKind inc) lhs.ty tyInt left 1)).bind
              fun _ => world.fetch (.object lhs.ty) (world.base + BitVec.ofInt 32 offset) := by
  have second := expandCompound_value world (stepKind_compound inc) scalar
    (newNumNode_integer (α := α))
  have same : postfixStep offset inc lhs =
      .comma (.comma (.assign (.var offset lhs.ty) lhs lhs.ty)
        (expandCompound lhs (stepKind inc) (newNumNode 1)) lhs.ty) (.var offset lhs.ty) lhs.ty := rfl
  rw [same, comma_value, comma_value, second]
  simp only [nodeMeaning, Evaluation.bind_assoc, Evaluation.pure_bind, newNumNode]
  rfl

theorem address_none (notLvalue : lhs.isLvalue = false) : (nodeMeaning world lhs).address = .none := by
  cases lhs with
  | var offset ty => cases notLvalue
  | gvar name ty => cases notLvalue
  | deref lhs ty => cases notLvalue
  | member lhs val field ty => cases notLvalue
  | addr lhs ty => cases lhs <;> rfl
  | binary kind lhs rhs ty val => cases kind <;> rfl
  | _ => rfl

/-- An lvalue is read where its address is. -/
theorem lvalue_value (isLvalue : lhs.isLvalue) :
    (nodeMeaning world lhs).value = (nodeMeaning world lhs).address.bind (world.fetch lhs.lvalue) := by
  cases lhs with
  | var offset ty => rfl
  | gvar name ty => rfl
  | deref lhs ty => rfl
  | member lhs val field ty => rfl
  | _ => cases isLvalue

end Operands

/-- The new value is what the lvalue then reads, as the assignment leaves it. -/
def Lvalue.Keeps : Lvalue → BitVec 32 → Prop
  | .object ty, value => ty.convert value = value
  | .bits field, value => field.Keeps value

def Lvalue.bytes : Lvalue → Nat
  | .object ty => ty.width.bytes
  | .bits _ => 4

section Objects

variable {frame : Stack} {ty : CType} {lhs : Lvalue} {address value left : BitVec 32}
  {memory memory' : Memory}

def Lvalue.Of (ty : CType) (lhs : Lvalue) : Prop := lhs = .object ty ∨ ∃ field, lhs = .bits field

theorem Node.lvalue_of (n : Node α) : n.lvalue.Of n.ty := by
  cases n with
  | member lhs val field ty =>
      cases field with
      | none => exact .inl rfl
      | some field => exact .inr ⟨field, rfl⟩
  | _ => exact .inl rfl

theorem CType.isAgg_of_scalar {ty : CType} (scalar : ty.isPlace = false) : ty.isAgg = false := by
  cases ty <;> first | rfl | cases scalar

theorem CType.convert_low (ty : CType) (value : BitVec 32) :
    ty.convert ((value.truncate ty.width.bits).setWidth 32) = ty.convert value := by
  have fits := ty.width.bits_le
  have low : ((value.truncate ty.width.bits).setWidth 32).truncate ty.width.bits =
      value.truncate ty.width.bits := by
    apply BitVec.eq_of_getLsbD_eq
    intro i bound
    have inside : i < 32 := by omega
    simp [bound, inside]
  rw [CType.convert, low, ← CType.convert]

theorem put_object (scalar : ty.isPlace = false) :
    frame.put ty (.object ty) address value memory = some (left, memory') ↔
      frame.writes address ty.width.bytes ∧ left = value ∧
        memory' = ty.width.store memory address.toNat value := by
  rw [Stack.put, CType.isAgg_of_scalar scalar]
  by_cases writes : frame.writes address ty.width.bytes <;> simp [writes, eq_comm]

theorem put_bits {field : BitField} (scalar : ty.isPlace = false) :
    frame.put ty (.bits field) address value memory = some (left, memory') ↔
      frame.writes address 4 ∧
        left = (value &&& BitRanges.mask 32 field.width) <<< field.shift ∧
        memory' = write32 memory address.toNat
          (replace (read32 memory address.toNat) field.shift field.width value) := by
  rw [Stack.put, CType.isAgg_of_scalar scalar]
  by_cases writes : frame.writes address 4 <;> simp [writes, eq_comm]

/-- What an assignment leaves is what its lvalue then reads for exactly the values that it keeps. -/
theorem fetch_put (scalar : ty.isPlace = false) (of : lhs.Of ty)
    (puts : frame.put ty lhs address value memory = some (left, memory')) :
    frame.fetch lhs address memory' = some left ↔ lhs.Keeps value := by
  rcases of with rfl | ⟨field, rfl⟩
  · obtain ⟨writes, rfl, rfl⟩ := (put_object scalar).mp puts
    obtain ⟨-, reads⟩ := Stack.writes_visible writes
    rw [Stack.fetch, scalar, if_neg Bool.false_ne_true, if_pos reads, Option.some.injEq,
      Width.load_store, Lvalue.Keeps]
    rw [CType.convert_low]
  · obtain ⟨writes, rfl, rfl⟩ := (put_bits scalar).mp puts
    obtain ⟨-, reads⟩ := Stack.writes_visible writes
    rw [Stack.fetch, if_pos reads, Option.some.injEq, read32_write32_same, field.stored_replace,
      eq_comm, field.keeps_iff, Lvalue.Keeps]

/-- An assignment leaves the bytes of other objects. -/
theorem put_apart (scalar : ty.isPlace = false) (of : lhs.Of ty)
    (puts : frame.put ty lhs address value memory = some (left, memory')) {query : Nat}
    (apart : query < address.toNat ∨ address.toNat + lhs.bytes ≤ query) :
    memory' query = memory query := by
  rcases of with rfl | ⟨field, rfl⟩
  · obtain ⟨-, -, rfl⟩ := (put_object scalar).mp puts
    rw [Lvalue.bytes] at apart
    rcases apart with below | above
    · exact ty.width.store_below _ below
    · rw [show query = address.toNat + (query - address.toNat) by omega, Width.store_apply,
        if_neg (by omega)]
  · obtain ⟨-, -, rfl⟩ := (put_bits scalar).mp puts
    rw [Lvalue.bytes] at apart
    rcases apart with below | above
    · exact Width.word.store_below _ below
    · rw [show query = address.toNat + (query - address.toNat) by omega]
      exact (Width.word.store_apply _ _ _ _).trans (if_neg (by rw [Width.bytes]; omega))

theorem fetch_congr (same : ∀ i < lhs.bytes, memory' (address.toNat + i) = memory (address.toNat + i)) :
    frame.fetch lhs address memory' = frame.fetch lhs address memory := by
  cases lhs with
  | object ty =>
      have loads : ty.width.load memory' address.toNat = ty.width.load memory address.toNat :=
        ty.width.load_congr same
      rw [Stack.fetch, Stack.fetch, loads]
  | bits field =>
      have loads : Width.word.load memory' address.toNat = Width.word.load memory address.toNat :=
        Width.word.load_congr same
      rw [Stack.fetch, Stack.fetch]
      rw [Width.load, Width.load] at loads
      rw [loads]

end Objects

structure Once (α : Type) where
  address : BitVec 32
  right : BitVec 32
  old : BitVec 32
  state : Logged α

def once (setting : Setting α) (lhs rhs : Node α) (memory : Memory) : Option (Once α) :=
  ((nodeMeaning setting.logged lhs).address (memory, [])).bind fun located =>
    ((nodeMeaning setting.logged rhs).value located.2).bind fun computed =>
      (setting.frame.fetch lhs.lvalue located.1 computed.2.1).map fun old =>
        ⟨located.1, computed.1, old, computed.2⟩

def Access.isLoad : Access α → Bool
  | .load _ _ => true
  | _ => false

def lastLoad (trace : List (Access α)) : Option (Access α) := (trace.filter Access.isLoad).getLast?

/-- The code `n` of `lhs op= rhs` stores and calls what the two sides do and then stores `op(old, rhs)`,
with the old value of the object that it stores to, and it yields the new value. -/
def StoresOnce (setting : Setting α) (n : Node α) (kind : BinaryKind) (lhs rhs : Node α)
    (memory : Memory) : Prop :=
  ∀ run left after, once setting lhs rhs memory = some run →
    setting.frame.put lhs.ty lhs.lvalue run.address (combined kind lhs.ty rhs.ty run.old run.right)
      run.state.1 = some (left, after) →
    ∃ value trace, (nodeMeaning setting.logged n).value (memory, []) = some (value, after, trace) ∧
      effects trace = effects run.state.2 ++
        [.store lhs.lvalue run.address (combined kind lhs.ty rhs.ty run.old run.right)] ∧
      lastLoad trace = some (.load lhs.lvalue run.address) ∧
      setting.frame.fetch lhs.lvalue run.address after = some value

/-- Evaluated again, the lvalue denotes the same object, and nothing is stored or called. -/
def Repeats (setting : Setting α) (lhs : Node α) (address : BitVec 32) (memory : Memory) : Prop :=
  ∃ trace, (nodeMeaning setting.logged lhs).address (memory, []) = some (address, memory, trace) ∧
    effects trace = []

/-- When `lhs op= rhs` stores once. -/
def RepeatsAndKeeps (setting : Setting α) (kind : BinaryKind) (lhs rhs : Node α) (memory : Memory) :
    Prop :=
  ∀ run left after, once setting lhs rhs memory = some run →
    setting.frame.put lhs.ty lhs.lvalue run.address (combined kind lhs.ty rhs.ty run.old run.right)
      run.state.1 = some (left, after) →
    Repeats setting lhs run.address run.state.1 ∧
      lhs.lvalue.Keeps (combined kind lhs.ty rhs.ty run.old run.right)

def Setting.hidden (setting : Setting α) (offset : Int) : BitVec 32 :=
  setting.frame.base + BitVec.ofInt 32 offset

def HiddenApart (setting : Setting α) (offset : Int) (lhs : Node α) (memory : Memory) : Prop :=
  ∀ run, once setting lhs (newNumNode 1) memory = some run →
    (setting.hidden offset).toNat + lhs.ty.width.bytes ≤ run.address.toNat ∨
      run.address.toNat + lhs.lvalue.bytes ≤ (setting.hidden offset).toNat

/-- `x++` and `x--` store and call what `x` does, save the old value in the hidden variable, store the
next value in the object of `x`, and yield the old one. -/
def YieldsOld (setting : Setting α) (offset : Int) (inc : Bool) (lhs : Node α) (memory : Memory) :
    Prop :=
  ∀ run stored saved left after, once setting lhs (newNumNode 1) memory = some run →
    setting.frame.put lhs.ty (.object lhs.ty) (setting.hidden offset) run.old run.state.1 =
      some (stored, saved) →
    setting.frame.put lhs.ty lhs.lvalue run.address (combined (stepKind inc) lhs.ty tyInt run.old 1)
      saved = some (left, after) →
    ∃ trace, (nodeMeaning setting.logged (postfixStep offset inc lhs)).value (memory, []) =
        some (run.old, after, trace) ∧
      effects trace = effects run.state.2 ++
        [.store (.object lhs.ty) (setting.hidden offset) run.old,
          .store lhs.lvalue run.address (combined (stepKind inc) lhs.ty tyInt run.old 1)]

/-- When `x++` and `x--` store once. -/
def RepeatsAndFits (setting : Setting α) (offset : Int) (inc : Bool) (lhs : Node α)
    (memory : Memory) : Prop :=
  ∀ run stored saved left after, once setting lhs (newNumNode 1) memory = some run →
    setting.frame.put lhs.ty (.object lhs.ty) (setting.hidden offset) run.old run.state.1 =
      some (stored, saved) →
    setting.frame.put lhs.ty lhs.lvalue run.address (combined (stepKind inc) lhs.ty tyInt run.old 1)
      saved = some (left, after) →
    Repeats setting lhs run.address saved ∧ lhs.ty.convert run.old = run.old

theorem once_eq_some {setting : Setting α} {lhs rhs : Node α} {memory : Memory} {run : Once α} :
    once setting lhs rhs memory = some run ↔ ∃ first,
      (nodeMeaning setting.logged lhs).address (memory, []) = some (run.address, first) ∧
      (nodeMeaning setting.logged rhs).value first = some (run.right, run.state) ∧
      setting.frame.fetch lhs.lvalue run.address run.state.1 = some run.old := by
  obtain ⟨address, right, old, state⟩ := run
  simp only [once, Option.bind_eq_some_iff, Option.map_eq_some_iff]
  constructor
  · rintro ⟨located, isLocated, computed, isComputed, old, fetched, ⟨⟩⟩
    exact ⟨located.2, isLocated, isComputed, fetched⟩
  · rintro ⟨first, located, computed, fetched⟩
    exact ⟨(address, first), located, (right, state), computed, old, fetched, rfl⟩

section Logging

variable {setting : Setting α} {lhs rhs : Node α}

theorem address_isLvalue {start state : Logged α} {address : BitVec 32}
    (located : (nodeMeaning setting.logged lhs).address start = some (address, state)) :
    lhs.isLvalue := by
  by_contra notLvalue
  rw [address_none setting.logged (by simpa using notLvalue)] at located
  cases located

theorem address_extends {start state : Logged α} {address : BitVec 32}
    (located : (nodeMeaning setting.logged lhs).address start = some (address, state)) :
    Extends start state := by
  obtain ⟨_, -, rfl, extends_⟩ := (nodeMeaning_related (logged_extends setting start) lhs).address.left
    ⟨rfl, .refl start⟩ located
  exact extends_

/-- A repeated evaluation, behind a record of what came before. -/
theorem Repeats.behind {address : BitVec 32} {memory : Memory}
    (repeats : Repeats setting lhs address memory) (before : List (Access α)) :
    ∃ trace, (nodeMeaning setting.logged lhs).address (memory, before) =
      some (address, memory, before ++ trace) ∧ effects trace = [] := by
  obtain ⟨trace, located, quiet⟩ := repeats
  obtain ⟨⟨memory', trace'⟩, located', same, longer⟩ :=
    (nodeMeaning_related (logged_shift setting before) lhs).address.left
      (s := (memory, [])) (t := (memory, before)) ⟨rfl, (List.append_nil before).symm⟩ located
  obtain rfl : memory = memory' := same
  obtain rfl : trace' = before ++ trace := longer
  exact ⟨trace, located', quiet⟩

theorem Repeats.of_quiet {address : BitVec 32} {memory : Memory} {before : List (Access α)}
    {state : Logged α}
    (located : (nodeMeaning setting.logged lhs).address (memory, before) = some (address, state))
    (quiet : effects state.2 = effects before) :
    Repeats setting lhs address memory ∧ state.1 = memory := by
  have same := (address_extends located).memory quiet
  obtain ⟨⟨memory', trace⟩, located', same', longer⟩ :=
    (nodeMeaning_related (logged_shift setting before) lhs).address.right
      (s := (memory, [])) (t := (memory, before)) ⟨rfl, (List.append_nil before).symm⟩ located
  obtain rfl : memory' = memory := same'.trans same
  refine ⟨⟨trace, located', ?_⟩, same⟩
  rw [longer, effects_append] at quiet
  simpa using quiet

theorem logged_fetch {start state : Logged α} {lvalue : Lvalue} {address value : BitVec 32} :
    setting.logged.fetch lvalue address start = some (value, state) ↔
      setting.frame.fetch lvalue address start.1 = some value ∧
        state = (start.1, start.2 ++ [.load lvalue address]) := by
  refine recorded_eq_some.trans ?_
  simp only [Setting.world, Option.map_eq_some_iff, Prod.ext_iff]
  constructor
  · rintro ⟨⟨value, fetched, rfl, same⟩, trace⟩
    exact ⟨fetched, same.symm, trace⟩
  · rintro ⟨fetched, same, trace⟩
    exact ⟨⟨value, fetched, rfl, same.symm⟩, trace⟩

theorem logged_put {start state : Logged α} {ty : CType} {lvalue : Lvalue}
    {address value left : BitVec 32} :
    setting.logged.put ty lvalue address value start = some (left, state) ↔
      setting.frame.put ty lvalue address value start.1 = some (left, state.1) ∧
        state.2 = start.2 ++ [.store lvalue address value] :=
  recorded_eq_some

theorem lastLoad_store (trace : List (Access α)) (lvalue stored : Lvalue)
    (address target value : BitVec 32) :
    lastLoad (trace ++ [.load lvalue address] ++ [.store stored target value]) =
      some (.load lvalue address) := by
  simp [lastLoad, Access.isLoad, List.filter_append]

theorem storesOnce_iff {kind : BinaryKind} (compound : kind ∈ compoundKinds)
    (scalar : lhs.ty.isPlace = false) (integer : rhs.ty.IsInteger) (memory : Memory) :
    StoresOnce setting (expandCompound lhs kind rhs) kind lhs rhs memory ↔
      RepeatsAndKeeps setting kind lhs rhs memory := by
  refine forall₃_congr fun run left after => forall₂_congr fun runs puts => ?_
  obtain ⟨first, located, computed, fetched⟩ := once_eq_some.mp runs
  obtain ⟨address, right, old, middle, before⟩ := run
  simp only at located computed fetched puts ⊢
  rw [expandCompound_value _ compound scalar integer,
    lvalue_value setting.logged (address_isLvalue located)]
  constructor
  · rintro ⟨value, trace, means, effective, last, yields⟩
    obtain ⟨_, _, located₂, means⟩ := Evaluation.bind_eq_some.mp means
    obtain ⟨rfl, rfl⟩ := Prod.ext_iff.mp (Option.some.inj (located.symm.trans located₂))
    obtain ⟨_, _, computed₂, means⟩ := Evaluation.bind_eq_some.mp means
    obtain ⟨rfl, rfl⟩ := Prod.ext_iff.mp (Option.some.inj (computed.symm.trans computed₂))
    obtain ⟨old₂, read, reads, stores⟩ := Evaluation.bind_eq_some.mp means
    obtain ⟨address₂, again, located₃, reads⟩ := Evaluation.bind_eq_some.mp reads
    obtain ⟨fetched₂, rfl⟩ := logged_fetch.mp reads
    obtain ⟨puts₂, longer⟩ := logged_put.mp stores
    obtain rfl : trace = again.2 ++ [.load lhs.lvalue address₂] ++ [.store lhs.lvalue address _] := longer
    rw [effects_append, effects_append, effects_load, effects_store, effects_nil,
      List.append_nil] at effective
    obtain ⟨quiet, store⟩ := List.append_inj' effective rfl
    rw [lastLoad_store, Option.some.injEq, Access.load.injEq] at last
    obtain rfl : address₂ = address := last.2
    obtain ⟨repeats, same⟩ := Repeats.of_quiet located₃ quiet
    rw [same, (Access.store.inj (List.cons.inj store).1).2.2] at puts₂
    obtain rfl : left = value := congrArg Prod.fst (Option.some.inj (puts.symm.trans puts₂))
    exact ⟨repeats, (fetch_put scalar lhs.lvalue_of puts).mp yields⟩
  · rintro ⟨repeats, keeps⟩
    obtain ⟨trace, located₂, quiet⟩ := repeats.behind before
    have reads : setting.logged.fetch lhs.lvalue address (middle, before ++ trace) =
        some (old, middle, before ++ trace ++ [.load lhs.lvalue address]) :=
      logged_fetch.mpr ⟨fetched, rfl⟩
    have stores := (@logged_put α setting
      (middle, before ++ trace ++ [.load lhs.lvalue address])
      (after, before ++ trace ++ [.load lhs.lvalue address] ++ [.store lhs.lvalue address _]) _ _ _ _ _).mpr
        ⟨puts, rfl⟩
    refine ⟨left, _, Evaluation.bind_eq_some.mpr ⟨_, _, located, Evaluation.bind_eq_some.mpr ⟨_, _,
      computed, Evaluation.bind_eq_some.mpr ⟨_, _, Evaluation.bind_eq_some.mpr ⟨_, _, located₂, reads⟩,
      stores⟩⟩⟩, ?_, lastLoad_store _ _ _ _ _ _, (fetch_put scalar lhs.lvalue_of puts).mpr keeps⟩
    simp [quiet]

/-- What the hidden variable holds when the object has its new value. -/
theorem fetch_hidden {offset : Int} {stored left old address value : BitVec 32}
    {memory saved after : Memory} (scalar : lhs.ty.isPlace = false)
    (saves : setting.frame.put lhs.ty (.object lhs.ty) (setting.hidden offset) old memory =
      some (stored, saved))
    (puts : setting.frame.put lhs.ty lhs.lvalue address value saved = some (left, after))
    (apart : (setting.hidden offset).toNat + lhs.ty.width.bytes ≤ address.toNat ∨
      address.toNat + lhs.lvalue.bytes ≤ (setting.hidden offset).toNat) :
    setting.frame.fetch (.object lhs.ty) (setting.hidden offset) after =
      some (lhs.ty.convert old) := by
  have kept : setting.frame.fetch (.object lhs.ty) (setting.hidden offset) after =
      setting.frame.fetch (.object lhs.ty) (setting.hidden offset) saved := by
    refine fetch_congr fun i bound => put_apart scalar lhs.lvalue_of puts ?_
    rw [Lvalue.bytes] at bound
    omega
  obtain ⟨writes, -, rfl⟩ := (put_object scalar).mp saves
  obtain ⟨-, reads⟩ := Stack.writes_visible writes
  rw [kept, Stack.fetch, scalar, if_neg Bool.false_ne_true, if_pos reads, Width.load_store,
    CType.convert_low]

theorem yieldsOld_iff (scalar : lhs.ty.isPlace = false) (offset : Int) (inc : Bool) {memory : Memory}
    (apart : HiddenApart setting offset lhs memory) :
    YieldsOld setting offset inc lhs memory ↔ RepeatsAndFits setting offset inc lhs memory := by
  refine forall₃_congr fun run stored saved => forall₂_congr fun left after =>
    forall₃_congr fun runs saves puts => ?_
  have apart := apart run runs
  obtain ⟨first, located, computed, fetched⟩ := once_eq_some.mp runs
  obtain ⟨address, right, old, middle, before⟩ := run
  obtain rfl : first = (middle, before) := congrArg Prod.snd (Option.some.inj computed)
  simp only at located fetched saves puts apart ⊢
  have hidden := fetch_hidden scalar saves puts apart
  have reads : setting.logged.fetch lhs.lvalue address (middle, before) =
      some (old, middle, before ++ [.load lhs.lvalue address]) := logged_fetch.mpr ⟨fetched, rfl⟩
  have keeps := (@logged_put α setting (middle, before ++ [.load lhs.lvalue address])
    (saved, before ++ [.load lhs.lvalue address] ++
      [.store (.object lhs.ty) (setting.hidden offset) old]) _ _ _ _ _).mpr ⟨saves, rfl⟩
  rw [postfixStep_value _ scalar, lvalue_value setting.logged (address_isLvalue located)]
  constructor
  · rintro ⟨trace, means, effective⟩
    obtain ⟨_, _, first, means⟩ := Evaluation.bind_eq_some.mp means
    obtain ⟨rfl, rfl⟩ := Prod.ext_iff.mp (Option.some.inj
      ((Evaluation.bind_eq_some.mpr ⟨_, _, located, reads⟩).symm.trans first))
    obtain ⟨_, _, saves₂, means⟩ := Evaluation.bind_eq_some.mp means
    obtain ⟨rfl, rfl⟩ := Prod.ext_iff.mp (Option.some.inj (keeps.symm.trans saves₂))
    obtain ⟨address₂, again, located₂, means⟩ := Evaluation.bind_eq_some.mp means
    obtain ⟨old₂, read, reads₂, means⟩ := Evaluation.bind_eq_some.mp means
    obtain ⟨address₃, last, located₃, reads₂⟩ := Evaluation.bind_eq_some.mp reads₂
    obtain ⟨fetched₂, rfl⟩ := logged_fetch.mp reads₂
    obtain ⟨left₂, state, puts₂, means⟩ := Evaluation.bind_eq_some.mp means
    obtain ⟨puts₂, longer⟩ := logged_put.mp puts₂
    obtain ⟨fetched₃, final⟩ := logged_fetch.mp means
    obtain ⟨rfl, rfl⟩ := Prod.ext_iff.mp final
    have pair (first second : Access α) :
        effects before ++ [first, second] = effects before ++ [first] ++ [second] := by simp
    rw [longer, effects_append, effects_append, effects_append, effects_load, effects_load,
      effects_store, effects_nil, List.append_nil, List.append_nil, pair] at effective
    obtain ⟨quiet, store⟩ := List.append_inj' effective rfl
    obtain rfl : address₂ = address := (Access.store.inj (List.cons.inj store).1).2.1
    refine ⟨(Repeats.of_quiet located₂ ?_).1, Option.some.inj (hidden.symm.trans fetched₃)⟩
    have one := (address_extends located₂).effects_grow
    have two := (address_extends located₃).effects_grow
    rw [quiet] at two
    rw [effects_append, effects_append, effects_load, effects_store, effects_nil,
      List.append_nil] at one ⊢
    exact (one.eq_of_length_le two.length_le).symm
  · rintro ⟨repeats, fits⟩
    rw [fits] at hidden
    have same : setting.frame.fetch lhs.lvalue address saved = some old := by
      refine (fetch_congr fun i bound => put_apart scalar (.inl rfl) saves ?_).trans fetched
      rw [Lvalue.bytes]
      omega
    obtain ⟨trace, located₂, quiet⟩ := repeats.behind (before ++ [.load lhs.lvalue address] ++
      [.store (.object lhs.ty) (setting.hidden offset) old])
    obtain ⟨trace₂, located₃, quiet₂⟩ := repeats.behind (before ++ [.load lhs.lvalue address] ++
      [.store (.object lhs.ty) (setting.hidden offset) old] ++ trace)
    refine ⟨_, Evaluation.bind_eq_some.mpr ⟨_, _, Evaluation.bind_eq_some.mpr ⟨_, _, located, reads⟩,
      Evaluation.bind_eq_some.mpr ⟨_, _, keeps, Evaluation.bind_eq_some.mpr ⟨_, _, located₂,
        Evaluation.bind_eq_some.mpr ⟨_, _, Evaluation.bind_eq_some.mpr ⟨_, _, located₃,
          logged_fetch.mpr ⟨same, rfl⟩⟩, Evaluation.bind_eq_some.mpr ⟨left, (after, _),
            logged_put.mpr ⟨puts, rfl⟩, logged_fetch.mpr ⟨hidden, rfl⟩⟩⟩⟩⟩⟩, ?_⟩
    simp [quiet, quiet₂]

end Logging

/-- Compound assignments, increments and decrements evaluate their lvalue once, store `op(old, rhs)` in
its object and yield the new or the old value exactly when a further evaluation of the lvalue has no
effect and denotes the same object, and the value that is yielded fits. -/
theorem lvalue_once_iff (setting : Setting α) {lhs : Node α} (scalar : lhs.ty.isPlace = false)
    (memory : Memory) :
    (∀ kind ∈ compoundKinds, ∀ rhs : Node α, rhs.ty.IsInteger →
      (StoresOnce setting (expandCompound lhs kind rhs) kind lhs rhs memory ↔
        RepeatsAndKeeps setting kind lhs rhs memory)) ∧
    (∀ inc, StoresOnce setting (prefixStep inc lhs) (stepKind inc) lhs (newNumNode 1) memory ↔
      RepeatsAndKeeps setting (stepKind inc) lhs (newNumNode 1) memory) ∧
    ∀ inc offset, HiddenApart setting offset lhs memory →
      (YieldsOld setting offset inc lhs memory ↔ RepeatsAndFits setting offset inc lhs memory) := by
  refine ⟨fun kind compound rhs integer => storesOnce_iff compound scalar integer memory,
    fun inc => storesOnce_iff (stepKind_compound inc) scalar newNumNode_integer memory,
    fun inc offset apart => yieldsOld_iff scalar offset inc apart⟩

section Examples

def frameAt64 : Setting Empty where
  frame := ⟨⟨16, 128⟩, 32, 48, 64⟩
  naming := oneSetting.naming
  calls := Empty.elim

/-- `i`, a variable at 60. -/
def variableI : Node Empty := .var (-4) tyInt

/-- `i += 2` -/
theorem variable_stores_once :
    StoresOnce frameAt64 (expandCompound variableI .add (newNumNode 2)) .add variableI (newNumNode 2)
      (fun _ => 0) := by
  refine ((lvalue_once_iff frameAt64 rfl _).1 .add (by decide) _ ⟨rfl, rfl⟩).mpr ?_
  rintro run left after runs -
  obtain ⟨first, located, -, -⟩ := once_eq_some.mp runs
  obtain ⟨isAddress, -⟩ := Prod.ext_iff.mp (Option.some.inj located)
  exact ⟨⟨[], congrArg (fun address => some (address, run.state.1, [])) isAddress, rfl⟩,
    CType.convert_word rfl _⟩

/-- `*p++`, with `p` at 60 and its old value at 56. -/
def derefPostfix : Node Empty := .deref (postfixStep (-8) true (.var (-4) (.ptr tyInt))) tyInt

def pointsTo100 : Memory := write32 (fun _ => 0) 60 100

/-- `*p++ += 1` -/
theorem derefPostfix_stores_twice :
    ¬StoresOnce frameAt64 (expandCompound derefPostfix .add (newNumNode 1)) .add derefPostfix
      (newNumNode 1) pointsTo100 := by
  rw [storesOnce_iff (by decide) rfl ⟨rfl, rfl⟩]
  intro condition
  have runs : ∃ trace, once frameAt64 derefPostfix (newNumNode 1) pointsTo100 =
      some ⟨100, 1, 0, write32 (write32 pointsTo100 56 100) 60 104, trace⟩ := ⟨_, rfl⟩
  obtain ⟨before, runs⟩ := runs
  obtain ⟨⟨trace, located, -⟩, -⟩ := condition _ _ _ runs rfl
  have again : ((nodeMeaning frameAt64.logged derefPostfix).address
      (write32 (write32 pointsTo100 56 100) 60 104, [])).map Prod.fst = some 104 := by decide
  rw [located] at again
  exact absurd (Option.some.inj again) (show ¬(100 : BitVec 32) = 104 by decide)

end Examples

end SymphonyPlus
