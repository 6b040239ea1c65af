import SymphonyPlus.BitFields
import SymphonyPlus.CTypes

/-!
What an assignment leaves in `r1`: the end of `ND_ASSIGN` in `gen_expr`, `gen_load` and `gen_store`
of `symcc/src/codegen.c`.
-/

namespace SymphonyPlus

open ByteMemory BitRanges

def CType.isAgg : CType → Bool
  | .struct _ | .union _ => true
  | _ => false

/-- How much `gen_load` and `gen_store` move. -/
def CType.width : CType → Width
  | .char _ => .byte
  | .short _ => .half
  | _ => .word

def genExtend (ty : CType) (amount : BitVec 16) : List Operation :=
  [.alu .lsl 1 1 (.imm amount), .alu (if ty.isUnsigned then .lsr else .asr) 1 1 (.imm amount)]

def genLoad : CType → List Operation
  | .char unsigned => .load .byte 1 (.reg 9) :: genExtend (.char unsigned) 24
  | .short unsigned => .load .half 1 (.reg 9) :: genExtend (.short unsigned) 16
  | _ => [.load .word 1 (.reg 9)]

def genStore (ty : CType) : List Operation := [.store ty.width (.reg 9) 1]

/-- The assembler takes constants of sixteen bits. -/
def imm16 (value : Int) : Option Source :=
  if 0 ≤ value ∧ value < 2 ^ 16 then some (.imm (BitVec.ofInt 16 value)) else none

def genBlock (block : Nat) : Option (List Operation) :=
  (imm16 (4 * block)).map fun off =>
    [.alu .add 3 1 off, .load .word 2 (.reg 3), .alu .add 3 9 off, .store .word (.reg 3) 2]

def genBlockCopy (size : Nat) : Option (List Operation) :=
  ((List.range (size / 4)).mapM genBlock).map List.flatten

inductive Lvalue
  | object (ty : CType)
  | bits (field : BitField)

/-- The end of an assignment: the value is in `r1` and the address in `r9`. `ty` is the type of the
assignment, which a cast on the left side makes another one than that of the object. -/
def genAssign (build : Build) (ty : CType) (lhs : Lvalue) : Option (List Operation) :=
  if ty.isAgg then genBlockCopy ty.size
  else
    match lhs with
    | .bits field => genStoreBitfield build field
    | .object _ => some (genStore ty)

def Lvalue.genLoad (build : Build) : Lvalue → Option (List Operation)
  | .object ty => some (SymphonyPlus.genLoad ty)
  | .bits field => genLoadBitfield build field

def ValueIsStored (ram : Ram) (build : Build) (ty : CType) (lhs : Lvalue) (work : Work) : Prop :=
  ∃ store load stored loaded, genAssign build ty lhs = some store ∧ lhs.genLoad build = some load ∧
    runCode ram store work = some stored ∧
    runCode ram load (stored.set 9 (work.regs 9)) = some loaded ∧ stored.regs 1 = loaded.regs 1

def Width.bits (width : Width) : Nat := 8 * width.bytes

def Width.storedByte (width : Width) (value : BitVec 32) (i : Nat) : BitVec 8 :=
  value.extractLsb' (width.bits - 8 - 8 * i) 8

def CType.convert (ty : CType) (value : BitVec 32) : BitVec 32 :=
  if ty.isUnsigned then (value.truncate ty.width.bits).setWidth 32
  else (value.truncate ty.width.bits).signExtend 32

theorem Width.store_apply (width : Width) (memory : Memory) (address : Nat) (value : BitVec 32)
    (i : Nat) : width.store memory address value (address + i) =
      if i < width.bytes then width.storedByte value i else memory (address + i) := by
  have low (start length : Nat) (fits : start + 8 ≤ length) :
      (value.truncate length).extractLsb' start 8 = value.extractLsb' start 8 := by
    apply BitVec.eq_of_getLsbD_eq
    intro j bound
    have inside : start + j < length := by omega
    simp [bound, inside]
  have byte : value.truncate 8 = value.extractLsb' 0 8 :=
    BitVec.setWidth_eq_extractLsb' (by decide)
  cases width with
  | byte =>
      rcases i with _ | i
      · simp [Width.store, Width.bytes, Width.storedByte, Width.bits, ← byte]
      · simp [Width.store, Width.bytes, write8]
  | half =>
      rcases i with _ | _ | i
      · simp [Width.store, Width.bytes, Width.storedByte, Width.bits, write16, write8, low]
      · simp [Width.store, Width.bytes, Width.storedByte, Width.bits, write16, write8, low]
      · rw [Width.store, write16_outside _ _ _ _ (by omega), if_neg (by simp [Width.bytes])]
  | word =>
      rcases i with _ | _ | _ | _ | i
      · simp [Width.store, Width.bytes, Width.storedByte, Width.bits, write32, write8]
      · simp [Width.store, Width.bytes, Width.storedByte, Width.bits, write32, write8]
      · simp [Width.store, Width.bytes, Width.storedByte, Width.bits, write32, write8]
      · simp [Width.store, Width.bytes, Width.storedByte, Width.bits, write32, write8]
      · rw [Width.store, write32_outside _ _ _ _ (by omega), if_neg (by simp [Width.bytes])]

theorem Width.store_below (width : Width) {memory : Memory} {address query : Nat} (value : BitVec 32)
    (below : query < address) : width.store memory address value query = memory query := by
  cases width with
  | byte => exact write8_other _ _ _ _ (by omega)
  | half => exact write16_outside _ _ _ _ (.inl below)
  | word => exact write32_outside _ _ _ _ (.inl below)

theorem Width.load_congr (width : Width) {first second : Memory} {address : Nat}
    (same : ∀ i < width.bytes, first (address + i) = second (address + i)) :
    width.load first address = width.load second address := by
  cases width with
  | byte =>
      have byte0 := same 0 (by decide)
      simp only [Nat.add_zero] at byte0
      rw [Width.load, Width.load, byte0]
  | half =>
      have byte0 := same 0 (by decide)
      have byte1 := same 1 (by decide)
      simp only [Nat.add_zero] at byte0
      rw [Width.load, Width.load, read16, read16, byte0, byte1]
  | word =>
      refine read32_congr fun query inside => ?_
      have here := same (query - address) (by simp only [Width.bytes]; omega)
      rwa [show address + (query - address) = query by omega] at here

theorem Width.storedByte_load (width : Width) (memory : Memory) (address : Nat) {i : Nat}
    (bound : i < width.bytes) : width.storedByte (width.load memory address) i = memory (address + i) := by
  cases width with
  | byte =>
      obtain rfl : i = 0 := by simp only [Width.bytes] at bound; omega
      apply BitVec.eq_of_getLsbD_eq
      intro j small
      have inside : j < 32 := by omega
      simp [Width.storedByte, Width.load, Width.bits, Width.bytes, small, inside]
  | half =>
      apply BitVec.eq_of_getLsbD_eq
      intro j small
      have joined : (read16 memory address).extractLsb' 8 8 = memory address ∧
          (read16 memory address).extractLsb' 0 8 = memory (address + 1) := by
        refine ⟨?_, ?_⟩ <;> ext index bound <;>
          simp only [read16, BitVec.getElem_extractLsb', BitVec.getLsbD_append] <;> grind
      obtain rfl | rfl : i = 0 ∨ i = 1 := by simp only [Width.bytes] at bound; omega
      · have inside : 8 + j < 32 := by omega
        refine Eq.trans ?_ (congrArg (fun byte => byte.getLsbD j) joined.1)
        simp [Width.storedByte, Width.load, Width.bits, Width.bytes, small, inside]
      · have inside : j < 32 := by omega
        refine Eq.trans ?_ (congrArg (fun byte => byte.getLsbD j) joined.2)
        simp [Width.storedByte, Width.load, Width.bits, Width.bytes, small, inside]
  | word =>
      obtain ⟨first, second, third, fourth⟩ := extractLsb_joined (memory address)
        (memory (address + 1)) (memory (address + 2)) (memory (address + 3))
      obtain rfl | rfl | rfl | rfl : i = 0 ∨ i = 1 ∨ i = 2 ∨ i = 3 := by
        simp only [Width.bytes] at bound
        omega
      · exact first
      · exact second
      · exact third
      · exact fourth

/-- A load reads no more than the width. -/
theorem Width.load_low (width : Width) (memory : Memory) (address : Nat) :
    ((width.load memory address).truncate width.bits).setWidth 32 = width.load memory address := by
  cases width with
  | byte => simp [Width.load, Width.bits, Width.bytes]
  | half => simp [Width.load, Width.bits, Width.bytes]
  | word => simp [Width.bits, Width.bytes]

theorem Width.storedByte_low (width : Width) (value : BitVec 32) {i : Nat} (bound : i < width.bytes) :
    width.storedByte ((value.truncate width.bits).setWidth 32) i = width.storedByte value i := by
  apply BitVec.eq_of_getLsbD_eq
  intro j small
  have low : width.bits - 8 - 8 * i + j < width.bits := by
    simp only [Width.bits]
    omega
  have word : width.bits ≤ 32 := by cases width <;> decide
  have inside : width.bits - 8 - 8 * i + j < 32 := by omega
  simp [Width.storedByte, small, low, inside]

theorem Width.truncate_eq (width : Width) {first second : BitVec 32}
    (same : ∀ i < width.bytes, width.storedByte first i = width.storedByte second i) :
    first.truncate width.bits = second.truncate width.bits := by
  apply BitVec.eq_of_getLsbD_eq
  intro j bound
  have byte := same (width.bytes - 1 - j / 8) (by simp only [Width.bits] at bound; omega)
  have bit := congrArg (fun byte => byte.getLsbD (j % 8)) byte
  have place : width.bits - 8 - 8 * (width.bytes - 1 - j / 8) + j % 8 = j := by
    simp only [Width.bits] at bound ⊢
    omega
  have small : j % 8 < 8 := by omega
  simpa [Width.storedByte, place, bound, small] using bit

theorem Width.load_store (width : Width) (memory : Memory) (address : Nat) (value : BitVec 32) :
    width.load (width.store memory address value) address =
      (value.truncate width.bits).setWidth 32 := by
  rw [← width.load_low]
  congr 1
  refine width.truncate_eq fun i bound => ?_
  rw [width.storedByte_load _ _ bound, width.store_apply, if_pos bound]

theorem Width.bits_le (width : Width) : width.bits ≤ 32 := by
  cases width <;> decide

theorem genExtend_run (ram : Ram) (ty : CType) {amount : BitVec 16}
    (up : amount.zeroExtend 32 = BitVec.ofNat 32 (32 - ty.width.bits)) (narrow : 0 < ty.width.bits) :
    Turns ram ty.convert (genExtend ty amount) := by
  have fits := ty.width.bits_le
  refine ((turns_alu ram .lsl amount).append (turns_alu ram _ amount)).congr fun word => ?_
  rw [Function.comp, up, CType.convert]
  have first : AluOp.lsl.apply word (BitVec.ofNat 32 (32 - ty.width.bits)) =
      word <<< (32 - ty.width.bits) := by
    rw [AluOp.apply, BitVec.shiftLeft_eq', shift_amount (by omega)]
  rw [first]
  split
  · rw [AluOp.apply, BitVec.ushiftRight_eq', shift_amount (by omega), zeroExtend_low _ fits]
  · rw [AluOp.apply, shift_amount (by omega), signExtend_low _ fits]

theorem CType.convert_word {ty : CType} (wide : ty.width = .word) (value : BitVec 32) :
    ty.convert value = value := by
  rw [CType.convert, wide]
  simp [Width.bits, Width.bytes]

theorem genLoad_run (ram : Ram) (ty : CType) (work : Work)
    (inside : (work.regs 9).toNat + ty.width.bytes ≤ ram.top) :
    ∃ after, runCode ram (genLoad ty) work = some after ∧
      Yields work after (ty.convert (ty.width.load work.memory (work.regs 9).toNat)) := by
  have loaded (width : Width) (inside : (work.regs 9).toNat + width.bytes ≤ ram.top)
      {next : BitVec 32 → BitVec 32} {code : List Operation} (turns : Turns ram next code) :
      ∃ after, runCode ram (.load width 1 (.reg 9) :: code) work = some after ∧
        Yields work after (next (width.load work.memory (work.regs 9).toNat)) := by
    obtain ⟨after, runs, yields⟩ := turns
      (work.set 1 (width.load work.memory (work.regs 9).toNat))
    refine ⟨after, ?_, ?_, fun reg not1 not2 => ?_, yields.memory⟩
    · rw [runCode_cons, work_load 1 inside, Option.bind_some, runs]
    · rw [yields.result, Work.set_same _ _ (by decide)]
    · rw [yields.others reg not1 not2, Work.set_regs, if_neg (fun both => not1 both.1)]
  cases ty with
  | char unsigned => exact loaded .byte inside (genExtend_run ram (.char unsigned) rfl (Nat.succ_pos 7))
  | short unsigned => exact loaded .half inside (genExtend_run ram (.short unsigned) rfl (Nat.succ_pos 15))
  | _ =>
      rw [CType.convert_word rfl]
      exact loaded .word inside (turns_nil ram)

/-- The value keeps its bits where the unit has them. -/
def BitField.Keeps (field : BitField) (value : BitVec 32) : Prop :=
  value.truncate field.width = 0 ∨
    field.shift = 0 ∧ (field.isUnsigned ∨ field.width = 32 ∨
      (value.truncate field.width).msb = false)

/-- The right values that an assignment leaves as its left side then reads. In a bit-field they keep
their bits where the unit has them; a cast on the left side to a type of another width stores other
bytes than the object's. -/
def ReadsBack (ty : CType) : Lvalue → Work → Prop
  | .object target, work =>
      target.convert (work.regs 1) = work.regs 1 ∧
        (ty.width ≠ target.width → ∀ i < target.width.bytes,
          target.width.storedByte (work.regs 1) i =
            if i < ty.width.bytes then ty.width.storedByte (work.regs 1) i
            else work.memory ((work.regs 9).toNat + i))
  | .bits field, work =>
      (work.regs 1).truncate field.width = 0 ∨
        field.shift = 0 ∧ (field.isUnsigned ∨ field.width = 32 ∨
          ((work.regs 1).truncate field.width).msb = false)

def Lvalue.reach (ty : CType) : Lvalue → Nat
  | .object target => max ty.width.bytes target.width.bytes
  | .bits _ => 4

theorem CType.truncate_convert (ty : CType) (value : BitVec 32) :
    (ty.convert value).truncate ty.width.bits = value.truncate ty.width.bits := by
  have fits := ty.width.bits_le
  rw [CType.convert]
  split
  · apply BitVec.eq_of_getLsbD_eq
    intro i bound
    have inside : i < 32 := by omega
    simp [bound, inside]
  · apply BitVec.eq_of_getLsbD_eq
    intro i bound
    have inside : i < 32 := by omega
    simp [BitVec.getElem_signExtend, bound, inside]

theorem CType.eq_convert_iff (ty : CType) (value loaded : BitVec 32) :
    value = ty.convert loaded ↔
      ty.convert value = value ∧ value.truncate ty.width.bits = loaded.truncate ty.width.bits := by
  constructor
  · rintro rfl
    refine ⟨?_, ty.truncate_convert loaded⟩
    rw [CType.convert, ty.truncate_convert loaded, ← CType.convert]
  · rintro ⟨kept, low⟩
    rw [← kept, CType.convert, low, ← CType.convert]

theorem Width.truncate_load_iff (width : Width) (memory : Memory) (address : Nat) (value : BitVec 32) :
    value.truncate width.bits = (width.load memory address).truncate width.bits ↔
      ∀ i < width.bytes, width.storedByte value i = memory (address + i) := by
  constructor
  · intro low i bound
    rw [← width.storedByte_low value bound, low, width.load_low, width.storedByte_load _ _ bound]
  · intro bytes
    refine width.truncate_eq fun i bound => ?_
    rw [bytes i bound, width.storedByte_load _ _ bound]

theorem object_readsBack_iff (ty target : CType) (work : Work) :
    work.regs 1 = target.convert (target.width.load
        (ty.width.store work.memory (work.regs 9).toNat (work.regs 1)) (work.regs 9).toNat) ↔
      ReadsBack ty (.object target) work := by
  rw [CType.eq_convert_iff, Width.truncate_load_iff, ReadsBack, and_congr_right_iff]
  intro _
  simp only [Width.store_apply]
  constructor
  · exact fun bytes _ => bytes
  · intro bytes
    by_cases same : ty.width = target.width
    · intro i bound
      rw [same, if_pos bound]
    · exact bytes same

theorem BitField.keeps_iff (field : BitField) (value : BitVec 32) :
    (value &&& BitRanges.mask 32 field.width) <<< field.shift =
        field.extend (value.truncate field.width) ↔ field.Keeps value := by
  have fits := field.fits
  have narrow : field.width ≤ 32 := by omega
  rw [and_mask, BitField.Keeps]
  generalize value.truncate field.width = value
  have low (i : Nat) (bound : i < field.width) : (field.extend value).getLsbD i = value.getLsbD i := by
    have inside : i < 32 := by omega
    rw [BitField.extend]
    split
    · simp [inside]
    · rw [BitVec.getLsbD_signExtend]
      simp [inside, bound]
  constructor
  · intro same
    by_cases lowest : field.shift = 0
    · rw [lowest, BitVec.shiftLeft_zero, BitField.extend] at same
      refine .inr ⟨lowest, ?_⟩
      split at same
      · rename_i unsigned
        exact .inl unsigned
      · exact .inr ((setWidth_eq_signExtend_iff value narrow).mp same)
    · exact .inl (eq_zero_of_shift (Nat.pos_of_ne_zero lowest) low same)
  · rintro (zero | ⟨lowest, clear⟩)
    · subst zero
      rw [BitField.extend]
      have positive := (setWidth_eq_signExtend_iff (0 : BitVec field.width) narrow).mpr
        (.inr (by simp))
      split
      · simp
      · rw [← positive]
        simp
    · rw [lowest, BitVec.shiftLeft_zero, BitField.extend]
      split
      · rfl
      · rename_i signed
        exact (setWidth_eq_signExtend_iff value narrow).mpr (clear.resolve_left signed)

theorem bits_readsBack_iff (ty : CType) (field : BitField) (work : Work) :
    (work.regs 1 &&& BitRanges.mask 32 field.width) <<< field.shift =
        field.extend ((work.regs 1).truncate field.width) ↔
      ReadsBack ty (.bits field) work :=
  field.keeps_iff (work.regs 1)

theorem valueIsStored_of_runs {ram : Ram} {build : Build} {ty : CType} {lhs : Lvalue} {work : Work}
    {store load : List Operation} {stored loaded : Work} (isStore : genAssign build ty lhs = some store)
    (isLoad : lhs.genLoad build = some load) (runStore : runCode ram store work = some stored)
    (runLoad : runCode ram load (stored.set 9 (work.regs 9)) = some loaded) :
    ValueIsStored ram build ty lhs work ↔ stored.regs 1 = loaded.regs 1 := by
  constructor
  · rintro ⟨store₂, load₂, stored₂, loaded₂, isStore₂, isLoad₂, runStore₂, runLoad₂, same⟩
    obtain rfl := Option.some.inj (isStore.symm.trans isStore₂)
    obtain rfl := Option.some.inj (isLoad.symm.trans isLoad₂)
    obtain rfl := Option.some.inj (runStore.symm.trans runStore₂)
    obtain rfl := Option.some.inj (runLoad.symm.trans runLoad₂)
    exact same
  · exact fun same => ⟨store, load, stored, loaded, isStore, isLoad, runStore, runLoad, same⟩

/-- An assignment leaves what its left side then reads for exactly these right values. -/
theorem valueIsStored_iff (ram : Ram) (build : Build) {ty : CType} (scalar : ty.isAgg = false)
    (lhs : Lvalue) (work : Work)
    (inside : ram.low ≤ (work.regs 9).toNat ∧ (work.regs 9).toNat + lhs.reach ty ≤ ram.top) :
    ValueIsStored ram build ty lhs work ↔ ReadsBack ty lhs work := by
  cases lhs with
  | object target =>
      simp only [Lvalue.reach] at inside
      have runStore := @work_store ram ty.width 9 1 work
        ⟨inside.1, by omega⟩
      generalize storedEq : (⟨work.regs, ty.width.store work.memory (work.regs 9).toNat
        (work.regs 1)⟩ : Work) = stored at runStore
      have pointer : (stored.set 9 (work.regs 9)).regs 9 = work.regs 9 :=
        Work.set_same _ _ (by decide)
      obtain ⟨loaded, runLoad, yields⟩ := genLoad_run ram target (stored.set 9 (work.regs 9))
        (by rw [pointer]; omega)
      rw [valueIsStored_of_runs (by rw [genAssign, scalar]; rfl) rfl (by
        rw [genStore, runCode_cons, runStore]; rfl) runLoad, yields.result, pointer,
        Work.set_memory, ← object_readsBack_iff, ← storedEq]
  | bits field =>
      obtain ⟨store, isStore, runsStore⟩ := genStoreBitfield_run ram build field
      obtain ⟨load, isLoad, runsLoad⟩ := genLoadBitfield_run ram build field
      obtain ⟨stored, runStore, memory, value, -⟩ := runsStore work inside
      have pointer : (stored.set 9 (work.regs 9)).regs 9 = work.regs 9 :=
        Work.set_same _ _ (by decide)
      obtain ⟨loaded, runLoad, yields⟩ := runsLoad (stored.set 9 (work.regs 9))
        (by rw [pointer]; exact inside.2)
      rw [valueIsStored_of_runs (by rw [genAssign, scalar]; exact isStore)
        (show (Lvalue.bits field).genLoad build = some load from isLoad) runStore runLoad,
        yields.result, pointer, Work.set_memory, memory, read32_write32_same, value,
        field.stored_replace, bits_readsBack_iff]

/-- A character that the value fits. -/
theorem valueIsStored_char :
    ValueIsStored ⟨16, 64⟩ .host (.char true) (.object (.char true))
      ⟨(Registers.clear.set 9 16).set 1 200, fun _ => 0⟩ :=
  (valueIsStored_iff ⟨16, 64⟩ .host rfl (.object (.char true))
    ⟨(Registers.clear.set 9 16).set 1 200, fun _ => 0⟩ (by decide)).mpr
    ⟨by decide, fun different => absurd rfl different⟩

/-- `i = (c = 300)` for an unsigned character `c`. -/
theorem valueIsStored_char_too_large :
    ¬ValueIsStored ⟨16, 64⟩ .host (.char true) (.object (.char true))
      ⟨(Registers.clear.set 9 16).set 1 300, fun _ => 0⟩ := by
  rintro ⟨store, load, stored, loaded, isStore, isLoad, runStore, runLoad, same⟩
  obtain rfl := Option.some.inj isStore
  obtain rfl := Option.some.inj isLoad
  obtain rfl := Option.some.inj runStore
  obtain rfl := Option.some.inj runLoad
  revert same
  decide

end SymphonyPlus
