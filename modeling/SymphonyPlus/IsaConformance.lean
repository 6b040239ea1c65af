import SymphonyPlus.IsaTable
import SymphonyPlus.Emulator

/-!
The table and the emulator implement one instruction set. The middle term is
`isaMeaning`, the list of operations `SymphonyPlus.isa` gives for a mnemonic and
its operands; the encoder's words are compared with it one word at a time.
-/

namespace SymphonyPlus

/-- The instruction descriptions of `SymphonyPlus.isa`, pseudo-instructions as the sequences it
spells out. -/
def isaMeaning (name : String) (operands : List Source) : Option (List Operation) :=
  match name, operands with
  | "nop", [] => some [.nop]
  | "in", [.reg a] => some [.device .standardInput a]
  | "out", [a] => some [.output a]
  | "keyboard", [.reg a] => some [.device .keyboard a]
  | "screen", [.reg a, b] => some [.screen a b]
  | "time_0", [.reg a] => some [.device .timeLow a]
  | "time_1", [.reg a] => some [.device .timeHigh a]
  | "counter", [.reg a] => some [.counter a]
  | "nand", [.reg a, .reg b, c] => some [.alu .nand a b c]
  | "or", [.reg a, .reg b, c] => some [.alu .or a b c]
  | "and", [.reg a, .reg b, c] => some [.alu .and a b c]
  | "nor", [.reg a, .reg b, c] => some [.alu .nor a b c]
  | "add", [.reg a, .reg b, c] => some [.alu .add a b c]
  | "sub", [.reg a, .reg b, c] => some [.alu .sub a b c]
  | "xor", [.reg a, .reg b, c] => some [.alu .xor a b c]
  | "lsl", [.reg a, .reg b, c] => some [.alu .lsl a b c]
  | "lsr", [.reg a, .reg b, c] => some [.alu .lsr a b c]
  | "asr", [.reg a, .reg b, c] => some [.alu .asr a b c]
  | "mul", [.reg a, .reg b, c] => some [.alu .mul a b c]
  | "div", [.reg a, .reg b, c] => some [.alu .div a b c]
  | "mod", [.reg a, .reg b, c] => some [.alu .mod a b c]
  | "cmp", [.reg a, b] => some [.compare a b]
  | "jmp", [a] => some [.jump a]
  | "je", [.imm a] => some [.jumpIf .je a]
  | "jne", [.imm a] => some [.jumpIf .jne a]
  | "jb", [.imm a] => some [.jumpIf .jb a]
  | "jae", [.imm a] => some [.jumpIf .jae a]
  | "jbe", [.imm a] => some [.jumpIf .jbe a]
  | "ja", [.imm a] => some [.jumpIf .ja a]
  | "jl", [.imm a] => some [.jumpIf .jl a]
  | "jge", [.imm a] => some [.jumpIf .jge a]
  | "jle", [.imm a] => some [.jumpIf .jle a]
  | "jg", [.imm a] => some [.jumpIf .jg a]
  | "load_8", [.reg dest, adr] => some [.load .byte dest adr]
  | "load_16", [.reg dest, adr] => some [.load .half dest adr]
  | "load_32", [.reg dest, adr] => some [.load .word dest adr]
  | "pload", [.reg dest, adr] => some [.diskLoad dest adr]
  | "store_8", [adr, .reg value] => some [.store .byte adr value]
  | "store_16", [adr, .reg value] => some [.store .half adr value]
  | "store_32", [adr, .reg value] => some [.store .word adr value]
  | "pstore", [adr, .reg value] => some [.diskStore adr value]
  | "mov", [.reg a, b] => some [.move a b]
  | "neg", [.reg a, b] => some [.negate a b]
  | "not", [.reg a, b] => some [.complement a b]
  | "push", [.reg a] => some [.alu .sub 14 14 (.imm 4), .store .word (.reg 14) a]
  | "pop", [.reg a] => some [.load .word a (.reg 14), .alu .add 14 14 (.imm 4)]
  | "call", [.imm a] => some [.counter 15, .alu .add 15 15 (.imm 20), .alu .sub 14 14 (.imm 4),
      .store .word (.reg 14) 15, .jump (.imm a)]
  | "ret", [] => some [.load .word 15 (.reg 14), .alu .add 14 14 (.imm 4), .jump (.reg 15)]
  | _, _ => none

def Source.kind : Source → OperandKind
  | .reg _ => .reg
  | .imm _ => .imm

def regWord (index : Fin 16) : BitVec 32 := BitVec.ofNat 32 index

def immWord (value : BitVec 16) : BitVec 32 := value.zeroExtend 32

def Source.word : Source → BitVec 32
  | .reg index => regWord index
  | .imm value => immWord value

/-- A step does what the effect asks for. A jump to the instruction's own address may stop the
emulator, which is its documented stop convention. -/
def Realises : Effect → StepResult → Prop
  | .advance machine, result => result = .running machine.next
  | .jump machine target, result =>
      result = .running { machine with pc := target } ∨
        (target = machine.pc % 2 ^ 32 ∧ result = .halted machine)
  | .outOfRange machine, result => result = .fault 2 machine

def Implements (word : BitVec 32) (operation : Operation) : Prop :=
  ∀ options machine, Realises (operation.effect options machine) (execute options machine word)

/-! Bit fields of encoded words. -/

def nibbleOf (word : BitVec 32) (position : Nat) : BitVec 32 := (word >>> position) &&& 15

theorem nibbleOf_or (left right : BitVec 32) (position : Nat) :
    nibbleOf (left ||| right) position = nibbleOf left position ||| nibbleOf right position := by
  simp only [nibbleOf, BitVec.ushiftRight_or_distrib]
  ext index bound
  simp [Bool.and_or_distrib_right]

theorem nibbleOf_toNat (word : BitVec 32) (position : Nat) :
    (nibbleOf word position).toNat = (word >>> position).toNat % 16 := by
  simp only [nibbleOf, BitVec.toNat_and]
  exact Nat.and_two_pow_sub_one_eq_mod _ 4

theorem fieldOf_eq (word : BitVec 32) (position : Nat) :
    fieldOf word position = Fin.ofNat 16 (nibbleOf word position).toNat := by
  apply Fin.ext
  simp [fieldOf, nibbleOf_toNat]

theorem opcodeOf_or (left right : BitVec 32) (small : right >>> 24 = 0) :
    opcodeOf (left ||| right) = opcodeOf left := by
  simp [opcodeOf, BitVec.ushiftRight_or_distrib, small]

theorem fieldOf_regWord {word : BitVec 32} {position : Nat} {index : Fin 16}
    (nibble : nibbleOf word position = regWord index) : fieldOf word position = index := by
  have all : ∀ number : Fin 16, Fin.ofNat 16 (regWord number).toNat = number := by decide
  rw [fieldOf_eq, nibble, all]

theorem regWord_shift : ∀ index : Fin 16,
    (regWord index <<< 20) >>> 24 = 0 ∧ (regWord index <<< 16) >>> 24 = 0 ∧
      (regWord index <<< 8) >>> 24 = 0 := by
  decide

theorem regWord_nibbles : ∀ index : Fin 16,
    nibbleOf (regWord index <<< 20) 20 = regWord index ∧
    nibbleOf (regWord index <<< 20) 16 = 0 ∧ nibbleOf (regWord index <<< 20) 8 = 0 ∧
    nibbleOf (regWord index <<< 16) 20 = 0 ∧
    nibbleOf (regWord index <<< 16) 16 = regWord index ∧ nibbleOf (regWord index <<< 16) 8 = 0 ∧
    nibbleOf (regWord index <<< 8) 20 = 0 ∧ nibbleOf (regWord index <<< 8) 16 = 0 ∧
    nibbleOf (regWord index <<< 8) 8 = regWord index := by
  decide

theorem regWord_immediate : ∀ index : Fin 16,
    immediateOf (regWord index <<< 20) = 0 ∧ immediateOf (regWord index <<< 16) = 0 := by
  decide

@[simp] theorem immWord_toNat (value : BitVec 16) : (immWord value).toNat = value.toNat := by
  have bound := value.isLt
  simp only [immWord, BitVec.truncate_eq_setWidth, BitVec.toNat_setWidth]
  exact Nat.mod_eq_of_lt (by omega)

theorem immWord_shift (value : BitVec 16) (amount : Nat) (large : 16 ≤ amount) :
    immWord value >>> amount = 0 := by
  apply BitVec.eq_of_toNat_eq
  have small : value.toNat < 2 ^ amount :=
    Nat.lt_of_lt_of_le value.isLt (Nat.pow_le_pow_right (by omega) large)
  rw [BitVec.toNat_ushiftRight, immWord_toNat, Nat.shiftRight_eq_div_pow, Nat.div_eq_of_lt small]
  rfl

theorem immediateOf_or (left right : BitVec 32) :
    immediateOf (left ||| right) = immediateOf left ||| immediateOf right := by
  unfold immediateOf
  ext index bound
  simp [Bool.and_or_distrib_right]

theorem immediateOf_immWord (value : BitVec 16) : immediateOf (immWord value) = immWord value := by
  apply BitVec.eq_of_toNat_eq
  rw [immediateOf, BitVec.toNat_and, immWord_toNat]
  exact (Nat.and_two_pow_sub_one_eq_mod _ 16).trans (Nat.mod_eq_of_lt value.isLt)

theorem immWord_nibble (value : BitVec 16) (position : Nat) (large : 16 ≤ position) :
    nibbleOf (immWord value) position = 0 := by
  rw [nibbleOf, immWord_shift value position large]
  rfl

def regForm (bits : BitVec 32) (a b c : Fin 16) : BitVec 32 :=
  bits ||| regWord a <<< 20 ||| regWord b <<< 16 ||| regWord c <<< 8

def immForm (bits : BitVec 32) (a b : Fin 16) (imm : BitVec 16) : BitVec 32 :=
  bits ||| regWord a <<< 20 ||| regWord b <<< 16 ||| immWord imm

/-- Only the opcode byte of these fixed bits is set. -/
def OpcodeOnly (bits : BitVec 32) : Prop := bits &&& 0xFF000000 = bits

instance (bits : BitVec 32) : Decidable (OpcodeOnly bits) :=
  inferInstanceAs (Decidable (_ = _))

theorem OpcodeOnly.clear {bits : BitVec 32} (only : OpcodeOnly bits) (value : BitVec 32)
    (low : 0xFF000000 &&& value = 0) : bits &&& value = 0 := by
  rw [← only, BitVec.and_assoc, low]
  exact BitVec.and_zero

theorem OpcodeOnly.nibble {bits : BitVec 32} (only : OpcodeOnly bits) :
    nibbleOf bits 20 = 0 ∧ nibbleOf bits 16 = 0 ∧ nibbleOf bits 8 = 0 := by
  have spread (position : Nat) : nibbleOf bits position =
      (bits >>> position) &&& ((0xFF000000 : BitVec 32) >>> position &&& 15) := by
    rw [nibbleOf, ← BitVec.and_assoc, ← BitVec.ushiftRight_and_distrib, only]
  refine ⟨?_, ?_, ?_⟩ <;>
  · rw [spread]
    exact BitVec.and_zero

theorem OpcodeOnly.immediate {bits : BitVec 32} (only : OpcodeOnly bits) : immediateOf bits = 0 :=
  only.clear _ (by decide)

section Fields

variable {bits : BitVec 32} (only : OpcodeOnly bits) (a b c : Fin 16) (imm : BitVec 16)

theorem regForm_opcode (bits : BitVec 32) : opcodeOf (regForm bits a b c) = opcodeOf bits := by
  unfold regForm
  rw [opcodeOf_or _ _ (regWord_shift c).2.2, opcodeOf_or _ _ (regWord_shift b).2.1,
    opcodeOf_or _ _ (regWord_shift a).1]

theorem immForm_opcode (bits : BitVec 32) : opcodeOf (immForm bits a b imm) = opcodeOf bits := by
  unfold immForm
  rw [opcodeOf_or _ _ (immWord_shift imm 24 (by omega)), opcodeOf_or _ _ (regWord_shift b).2.1,
    opcodeOf_or _ _ (regWord_shift a).1]

include only

theorem regForm_fields : fieldOf (regForm bits a b c) 20 = a ∧
    fieldOf (regForm bits a b c) 16 = b ∧ fieldOf (regForm bits a b c) 8 = c := by
  refine ⟨?_, ?_, ?_⟩ <;>
  · apply fieldOf_regWord
    simp [regForm, nibbleOf_or, only.nibble, regWord_nibbles]

theorem immForm_fields : fieldOf (immForm bits a b imm) 20 = a ∧
    fieldOf (immForm bits a b imm) 16 = b ∧ immediateOf (immForm bits a b imm) = immWord imm := by
  refine ⟨?_, ?_, ?_⟩
  · apply fieldOf_regWord
    simp [immForm, nibbleOf_or, only.nibble, regWord_nibbles, immWord_nibble]
  · apply fieldOf_regWord
    simp [immForm, nibbleOf_or, only.nibble, regWord_nibbles, immWord_nibble]
  · simp [immForm, immediateOf_or, only.immediate, regWord_immediate, immediateOf_immWord]

end Fields

def AluOp.opcode : AluOp → Nat
  | .nand => 0x20
  | .or => 0x21
  | .and => 0x22
  | .nor => 0x23
  | .add => 0x24
  | .sub => 0x25
  | .xor => 0x26
  | .lsl => 0x27
  | .lsr => 0x28
  | .asr => 0x29
  | .mul => 0x2B
  | .div => 0x2C
  | .mod => 0x2D

def Condition.opcode : Condition → Nat
  | .je => 0x51
  | .jne => 0x59
  | .jb => 0x52
  | .jae => 0x5A
  | .jbe => 0x53
  | .ja => 0x5B
  | .jl => 0x54
  | .jge => 0x5C
  | .jle => 0x55
  | .jg => 0x5D

def Width.opcode : Width → Nat
  | .byte => 0
  | .half => 1
  | .word => 2

def Device.opcode : Device → Nat
  | .standardInput => 0x01
  | .keyboard => 0x03
  | .timeLow => 0x05
  | .timeHigh => 0x06

theorem realises_screen (options : EmuOptions) (machine : Machine) (option : Fin 16)
    (source : Source) :
    Realises ((Operation.screen option source).effect options machine)
      (setOption machine (machine.regs option) (source.read machine.regs)) := by
  unfold Operation.effect setOption
  by_cases bound : (machine.regs option).toNat < 8
  · simp only [bound, ↓reduceDIte]
    exact rfl
  · simp only [bound, ↓reduceDIte]
    exact rfl

theorem realises_jump (machine : Machine) (target : BitVec 32) :
    Realises (.jump machine target.toNat) (jumpRegister machine target) := by
  unfold jumpRegister
  by_cases own : target = BitVec.ofNat 32 machine.pc
  · rw [if_pos own]
    exact Or.inr ⟨by rw [own, BitVec.toNat_ofNat], rfl⟩
  · rw [if_neg own]
    exact Or.inl rfl

theorem realises_jumpIf (options : EmuOptions) (machine : Machine) (condition : Condition)
    (target : BitVec 16) :
    Realises ((Operation.jumpIf condition target).effect options machine)
      (jumpWhen machine (condition.holds machine.lastA machine.lastB) (immWord target)) := by
  unfold Operation.effect jumpWhen
  by_cases taken : condition.holds machine.lastA machine.lastB = true
  · simp only [taken, if_true, immWord_toNat]
    by_cases own : target.toNat = machine.pc
    · rw [if_pos own]
      have bound := target.isLt
      exact Or.inr ⟨by omega, rfl⟩
    · rw [if_neg own]
      exact Or.inl rfl
  · simp only [taken]
    exact rfl

theorem realises_load (options : EmuOptions) (machine : Machine) (width : Width) (target : Fin 16)
    (address : Source) :
    Realises ((Operation.load width target address).effect options machine)
      (loadInto machine width.bytes options.ramSize (ramAddress options machine address) target
        (width.load machine.memory (ramAddress options machine address))) := by
  unfold Operation.effect loadInto
  by_cases bound : ramAddress options machine address + width.bytes ≤ options.ramSize
  · simp only [bound, ↓reduceIte]
    exact rfl
  · simp only [bound, ↓reduceIte]
    exact rfl

theorem realises_store (options : EmuOptions) (machine : Machine) (width : Width)
    (address : Source) (source : Fin 16) :
    Realises ((Operation.store width address source).effect options machine)
      (storeMemory machine width.bytes options.ramSize (ramAddress options machine address)
        (width.store machine.memory (ramAddress options machine address)
          (machine.regs source))) := by
  unfold Operation.effect storeMemory
  by_cases bound : ramAddress options machine address + width.bytes ≤ options.ramSize
  · simp only [bound, ↓reduceIte]
    exact rfl
  · simp only [bound, ↓reduceIte]
    exact rfl

theorem realises_diskLoad (options : EmuOptions) (machine : Machine) (target : Fin 16)
    (address : Source) :
    Realises ((Operation.diskLoad target address).effect options machine)
      (loadInto machine 4 options.diskSize (diskAddress options machine address) target
        (ByteMemory.read32 machine.disk (diskAddress options machine address))) := by
  unfold Operation.effect loadInto
  by_cases bound : diskAddress options machine address + 4 ≤ options.diskSize
  · simp only [bound, ↓reduceIte]
    exact rfl
  · simp only [bound, ↓reduceIte]
    exact rfl

theorem realises_diskStore (options : EmuOptions) (machine : Machine) (address : Source)
    (source : Fin 16) :
    Realises ((Operation.diskStore address source).effect options machine)
      (storeDisk machine options.diskSize (diskAddress options machine address)
        (ByteMemory.write32 machine.disk (diskAddress options machine address)
          (machine.regs source))) := by
  unfold Operation.effect storeDisk
  by_cases bound : diskAddress options machine address + 4 ≤ options.diskSize
  · simp only [bound, ↓reduceIte]
    exact rfl
  · simp only [bound, ↓reduceIte]
    exact rfl

/-! One lemma for each shape of operation: the switch case of the word's opcode reads exactly
the operands that were packed. -/

section Implements

variable {bits : BitVec 32} (only : OpcodeOnly bits) (a b c : Fin 16) (imm : BitVec 16)
include only

theorem implements_alu_reg (op : AluOp) (code : opcodeOf bits = op.opcode) :
    Implements (regForm bits a b c) (.alu op a b (.reg c)) := by
  intro options machine
  obtain ⟨fieldA, fieldB, fieldC⟩ := regForm_fields only a b c
  unfold execute
  rw [regForm_opcode, code, fieldA, fieldB, fieldC]
  cases op <;> exact rfl

theorem implements_alu_imm (op : AluOp) (code : opcodeOf bits = op.opcode + 0x10) :
    Implements (immForm bits a b imm) (.alu op a b (.imm imm)) := by
  intro options machine
  obtain ⟨fieldA, fieldB, value⟩ := immForm_fields only a b imm
  unfold execute
  rw [immForm_opcode, code, fieldA, fieldB, value]
  cases op <;> exact rfl

theorem implements_compare_reg (code : opcodeOf bits = 0x2A) :
    Implements (regForm bits a b c) (.compare b (.reg c)) := by
  intro options machine
  obtain ⟨fieldA, fieldB, fieldC⟩ := regForm_fields only a b c
  unfold execute
  rw [regForm_opcode, code, fieldA, fieldB, fieldC]
  exact rfl

theorem implements_compare_imm (code : opcodeOf bits = 0x3A) :
    Implements (immForm bits a b imm) (.compare b (.imm imm)) := by
  intro options machine
  obtain ⟨fieldA, fieldB, value⟩ := immForm_fields only a b imm
  unfold execute
  rw [immForm_opcode, code, fieldA, fieldB, value]
  exact rfl

theorem implements_move_reg (code : opcodeOf bits = 0x21) :
    Implements (regForm bits a 0 c) (.move a (.reg c)) := by
  intro options machine
  obtain ⟨fieldA, fieldB, fieldC⟩ := regForm_fields only a 0 c
  unfold execute
  rw [regForm_opcode, code, fieldA, fieldB, fieldC]
  change continueWith machine a (machine.regs 0 ||| machine.regs c) = _
  rw [Registers.value_zero, BitVec.zero_or]
  rfl

theorem implements_move_imm (code : opcodeOf bits = 0x31) :
    Implements (immForm bits a 0 imm) (.move a (.imm imm)) := by
  intro options machine
  obtain ⟨fieldA, fieldB, value⟩ := immForm_fields only a 0 imm
  unfold execute
  rw [immForm_opcode, code, fieldA, fieldB, value]
  change continueWith machine a (machine.regs 0 ||| immWord imm) = _
  rw [Registers.value_zero, BitVec.zero_or]
  rfl

theorem implements_negate_reg (code : opcodeOf bits = 0x25) :
    Implements (regForm bits a 0 c) (.negate a (.reg c)) := by
  intro options machine
  obtain ⟨fieldA, fieldB, fieldC⟩ := regForm_fields only a 0 c
  unfold execute
  rw [regForm_opcode, code, fieldA, fieldB, fieldC]
  change continueWith machine a (machine.regs 0 - machine.regs c) = _
  rw [Registers.value_zero, BitVec.zero_sub]
  rfl

theorem implements_negate_imm (code : opcodeOf bits = 0x35) :
    Implements (immForm bits a 0 imm) (.negate a (.imm imm)) := by
  intro options machine
  obtain ⟨fieldA, fieldB, value⟩ := immForm_fields only a 0 imm
  unfold execute
  rw [immForm_opcode, code, fieldA, fieldB, value]
  change continueWith machine a (machine.regs 0 - immWord imm) = _
  rw [Registers.value_zero, BitVec.zero_sub]
  rfl

theorem implements_complement_reg (code : opcodeOf bits = 0x23) :
    Implements (regForm bits a c c) (.complement a (.reg c)) := by
  intro options machine
  obtain ⟨fieldA, fieldB, fieldC⟩ := regForm_fields only a c c
  unfold execute
  rw [regForm_opcode, code, fieldA, fieldB, fieldC]
  change continueWith machine a (~~~(machine.regs c ||| machine.regs c)) = _
  rw [BitVec.or_self]
  rfl

theorem implements_complement_imm (code : opcodeOf bits = 0x33) :
    Implements (immForm bits a 0 imm) (.complement a (.imm imm)) := by
  intro options machine
  obtain ⟨fieldA, fieldB, value⟩ := immForm_fields only a 0 imm
  unfold execute
  rw [immForm_opcode, code, fieldA, fieldB, value]
  change continueWith machine a (~~~(machine.regs 0 ||| immWord imm)) = _
  rw [Registers.value_zero, BitVec.zero_or]
  rfl

theorem implements_device (kind : Device) (code : opcodeOf bits = kind.opcode) :
    Implements (regForm bits a b c) (.device kind a) := by
  intro options machine
  obtain ⟨fieldA, fieldB, fieldC⟩ := regForm_fields only a b c
  unfold execute
  rw [regForm_opcode, code, fieldA]
  cases kind <;> exact rfl

theorem implements_counter (code : opcodeOf bits = 0x07) :
    Implements (regForm bits a b c) (.counter a) := by
  intro options machine
  obtain ⟨fieldA, fieldB, fieldC⟩ := regForm_fields only a b c
  unfold execute
  rw [regForm_opcode, code, fieldA]
  exact rfl

theorem implements_output_reg (code : opcodeOf bits = 0x02) :
    Implements (regForm bits a b c) (.output (.reg c)) := by
  intro options machine
  obtain ⟨fieldA, fieldB, fieldC⟩ := regForm_fields only a b c
  unfold execute
  rw [regForm_opcode, code, fieldC]
  exact rfl

theorem implements_screen_reg (code : opcodeOf bits = 0x04) :
    Implements (regForm bits a b c) (.screen b (.reg c)) := by
  intro options machine
  obtain ⟨fieldA, fieldB, fieldC⟩ := regForm_fields only a b c
  unfold execute
  rw [regForm_opcode, code, fieldB, fieldC]
  exact realises_screen options machine b (.reg c)

theorem implements_screen_imm (code : opcodeOf bits = 0x14) :
    Implements (immForm bits a b imm) (.screen b (.imm imm)) := by
  intro options machine
  obtain ⟨fieldA, fieldB, value⟩ := immForm_fields only a b imm
  unfold execute
  rw [immForm_opcode, code, fieldB, value]
  exact realises_screen options machine b (.imm imm)

theorem implements_jump_reg (code : opcodeOf bits = 0x48) :
    Implements (regForm bits a b c) (.jump (.reg c)) := by
  intro options machine
  obtain ⟨fieldA, fieldB, fieldC⟩ := regForm_fields only a b c
  unfold execute
  rw [regForm_opcode, code, fieldC]
  exact realises_jump machine (machine.regs c)

theorem implements_jump_imm (code : opcodeOf bits = 0x58) :
    Implements (immForm bits a b imm) (.jump (.imm imm)) := by
  intro options machine
  obtain ⟨fieldA, fieldB, value⟩ := immForm_fields only a b imm
  unfold execute
  rw [immForm_opcode, code, value]
  exact realises_jump machine (immWord imm)

theorem implements_jumpIf (condition : Condition) (code : opcodeOf bits = condition.opcode) :
    Implements (immForm bits a b imm) (.jumpIf condition imm) := by
  intro options machine
  obtain ⟨fieldA, fieldB, value⟩ := immForm_fields only a b imm
  unfold execute
  rw [immForm_opcode, code, value]
  have realised := realises_jumpIf options machine condition imm
  cases condition <;> exact realised

theorem accessAddress_reg (options : EmuOptions) (machine : Machine) {opcode : Nat}
    (code : opcodeOf bits = opcode) (block : opcode / 8 = 12) :
    accessAddress options machine (regForm bits a b c) =
      if opcode % 4 = 3 then diskAddress options machine (.reg c)
      else ramAddress options machine (.reg c) := by
  unfold accessAddress
  rw [regForm_opcode, code, (regForm_fields only a b c).2.2]
  simp only [block, ↓reduceIte]
  split <;> rfl

theorem accessAddress_imm (options : EmuOptions) (machine : Machine) {opcode : Nat}
    (code : opcodeOf bits = opcode) (block : opcode / 8 = 14) :
    accessAddress options machine (immForm bits a b imm) =
      if opcode % 4 = 3 then diskAddress options machine (.imm imm)
      else ramAddress options machine (.imm imm) := by
  unfold accessAddress
  rw [immForm_opcode, code, (immForm_fields only a b imm).2.2]
  simp only [block, show ¬(14 = 12) by decide, ↓reduceIte]
  split <;> rfl

theorem implements_load_reg (width : Width) (code : opcodeOf bits = 0x60 + width.opcode) :
    Implements (regForm bits a b c) (.load width a (.reg c)) := by
  intro options machine
  have realised := realises_load options machine width a (.reg c)
  obtain ⟨fieldA, fieldB, fieldC⟩ := regForm_fields only a b c
  unfold execute
  rw [regForm_opcode, accessAddress_reg only a b c options machine code (by cases width <;> rfl),
    code, fieldA]
  cases width <;> exact realised

theorem implements_load_imm (width : Width) (code : opcodeOf bits = 0x70 + width.opcode) :
    Implements (immForm bits a b imm) (.load width a (.imm imm)) := by
  intro options machine
  have realised := realises_load options machine width a (.imm imm)
  obtain ⟨fieldA, fieldB, value⟩ := immForm_fields only a b imm
  unfold execute
  rw [immForm_opcode, accessAddress_imm only a b imm options machine code (by cases width <;> rfl),
    code, fieldA]
  cases width <;> exact realised

theorem implements_store_reg (width : Width) (code : opcodeOf bits = 0x64 + width.opcode) :
    Implements (regForm bits a b c) (.store width (.reg c) b) := by
  intro options machine
  have realised := realises_store options machine width (.reg c) b
  obtain ⟨fieldA, fieldB, fieldC⟩ := regForm_fields only a b c
  unfold execute
  rw [regForm_opcode, accessAddress_reg only a b c options machine code (by cases width <;> rfl),
    code, fieldB]
  cases width <;> exact realised

theorem implements_store_imm (width : Width) (code : opcodeOf bits = 0x74 + width.opcode) :
    Implements (immForm bits a b imm) (.store width (.imm imm) b) := by
  intro options machine
  have realised := realises_store options machine width (.imm imm) b
  obtain ⟨fieldA, fieldB, value⟩ := immForm_fields only a b imm
  unfold execute
  rw [immForm_opcode, accessAddress_imm only a b imm options machine code (by cases width <;> rfl),
    code, fieldB]
  cases width <;> exact realised

theorem implements_diskLoad_reg (code : opcodeOf bits = 0x63) :
    Implements (regForm bits a b c) (.diskLoad a (.reg c)) := by
  intro options machine
  obtain ⟨fieldA, fieldB, fieldC⟩ := regForm_fields only a b c
  unfold execute
  rw [regForm_opcode, accessAddress_reg only a b c options machine code rfl, code, fieldA]
  exact realises_diskLoad options machine a (.reg c)

theorem implements_diskLoad_imm (code : opcodeOf bits = 0x73) :
    Implements (immForm bits a b imm) (.diskLoad a (.imm imm)) := by
  intro options machine
  obtain ⟨fieldA, fieldB, value⟩ := immForm_fields only a b imm
  unfold execute
  rw [immForm_opcode, accessAddress_imm only a b imm options machine code rfl, code, fieldA]
  exact realises_diskLoad options machine a (.imm imm)

theorem implements_diskStore_reg (code : opcodeOf bits = 0x67) :
    Implements (regForm bits a b c) (.diskStore (.reg c) b) := by
  intro options machine
  obtain ⟨fieldA, fieldB, fieldC⟩ := regForm_fields only a b c
  unfold execute
  rw [regForm_opcode, accessAddress_reg only a b c options machine code rfl, code, fieldB]
  exact realises_diskStore options machine (.reg c) b

theorem implements_diskStore_imm (code : opcodeOf bits = 0x77) :
    Implements (immForm bits a b imm) (.diskStore (.imm imm) b) := by
  intro options machine
  obtain ⟨fieldA, fieldB, value⟩ := immForm_fields only a b imm
  unfold execute
  rw [immForm_opcode, accessAddress_imm only a b imm options machine code rfl, code, fieldB]
  exact realises_diskStore options machine (.imm imm) b

end Implements

theorem implements_nop : Implements 0 .nop := fun _ _ => rfl

def Conforms (insn : Insn) (sources : List Source) : Prop :=
  ∃ operations, isaMeaning insn.name sources = some operations ∧
    List.Forall₂ Implements (isaWords insn (sources.map Source.word)) operations

/-- The one row whose opcode the emulator does not have: `out` of an immediate. -/
def outImmediate (insn : Insn) : Bool := insn.name = "out" && insn.kinds = [.imm]

/-- A row of the table means what its words do, for all operands of its kinds. -/
def RowConforms (insn : Insn) : Prop :=
  outImmediate insn = false →
    ∀ sources, sources.map Source.kind = insn.kinds → Conforms insn sources

theorem conforms_single {name : String} {bits mask word : BitVec 32} {fields : List OpField}
    {sources : List Source} {operation : Operation}
    (meaning : isaMeaning name sources = some [operation])
    (encoded : (insertFields fields bits (sources.map Source.word)).1 = word)
    (implemented : Implements word operation) :
    Conforms (single name bits mask fields) sources := by
  refine ⟨[operation], meaning, ?_⟩
  simp only [isaWords, single, encodeWords, encoded]
  exact .cons implemented .nil

/-! The operand lists that each list of kinds admits. -/

theorem kind_reg {source : Source} (kind : source.kind = .reg) :
    ∃ index, source = .reg index := by
  cases source with
  | reg index => exact ⟨index, rfl⟩
  | imm value => cases kind

theorem kind_imm {source : Source} (kind : source.kind = .imm) :
    ∃ value, source = .imm value := by
  cases source with
  | reg index => cases kind
  | imm value => exact ⟨value, rfl⟩

theorem kinds_one {sources : List Source} {first : OperandKind}
    (kinds : sources.map Source.kind = [first]) : ∃ a, sources = [a] ∧ a.kind = first := by
  obtain ⟨a, rest, rfl, found, none⟩ := List.map_eq_cons_iff.mp kinds
  rw [List.map_eq_nil_iff] at none
  exact ⟨a, by rw [none], found⟩

theorem kinds_two {sources : List Source} {first second : OperandKind}
    (kinds : sources.map Source.kind = [first, second]) :
    ∃ a b, sources = [a, b] ∧ a.kind = first ∧ b.kind = second := by
  obtain ⟨a, rest, rfl, found, others⟩ := List.map_eq_cons_iff.mp kinds
  obtain ⟨b, rfl, last⟩ := kinds_one others
  exact ⟨a, b, rfl, found, last⟩

theorem kinds_three {sources : List Source} {first second third : OperandKind}
    (kinds : sources.map Source.kind = [first, second, third]) :
    ∃ a b c, sources = [a, b, c] ∧ a.kind = first ∧ b.kind = second ∧ c.kind = third := by
  obtain ⟨a, rest, rfl, found, others⟩ := List.map_eq_cons_iff.mp kinds
  obtain ⟨b, c, rfl, more, last⟩ := kinds_two others
  exact ⟨a, b, c, rfl, found, more, last⟩

/-! One lemma for each shape of row. A fixed operand of the row is part of its bits. -/

theorem regWord_zero (position : Nat) : regWord 0 <<< position = 0#32 := by simp [regWord]

section Rows

variable {name : String} {bits mask : BitVec 32}

theorem row_target (operation : Fin 16 → Operation)
    (meaning : ∀ a, isaMeaning name [.reg a] = some [operation a])
    (implemented : ∀ a, Implements (regForm bits a 0 0) (operation a)) :
    RowConforms (single name bits mask [REG 20]) := by
  intro _ _ kinds
  obtain ⟨_, rfl, first⟩ := kinds_one kinds
  obtain ⟨a, rfl⟩ := kind_reg first
  have encoded : bits ||| regWord a <<< 20 = regForm bits a 0 0 := by
    simp only [regForm, regWord_zero, BitVec.or_zero]
  exact conforms_single (meaning a) encoded (implemented a)

theorem row_source (base : BitVec 32) (b : Fin 16) (operation : Fin 16 → Operation)
    (meaning : ∀ c, isaMeaning name [.reg c] = some [operation c])
    (fixed : bits = base ||| regWord b <<< 16)
    (implemented : ∀ c, Implements (regForm base 0 b c) (operation c)) :
    RowConforms (single name bits mask [REG 8]) := by
  intro _ _ kinds
  obtain ⟨_, rfl, first⟩ := kinds_one kinds
  obtain ⟨c, rfl⟩ := kind_reg first
  have encoded : bits ||| regWord c <<< 8 = regForm base 0 b c := by
    simp only [fixed, regForm, regWord_zero, BitVec.or_zero]
  exact conforms_single (meaning c) encoded (implemented c)

theorem row_imm (base : BitVec 32) (b : Fin 16) (operation : BitVec 16 → Operation)
    (meaning : ∀ imm, isaMeaning name [.imm imm] = some [operation imm])
    (fixed : bits = base ||| regWord b <<< 16)
    (implemented : ∀ imm, Implements (immForm base 0 b imm) (operation imm)) :
    RowConforms (single name bits mask [IMM 0]) := by
  intro _ _ kinds
  obtain ⟨_, rfl, first⟩ := kinds_one kinds
  obtain ⟨imm, rfl⟩ := kind_imm first
  have encoded : bits ||| immWord imm <<< 0 = immForm base 0 b imm := by
    simp only [fixed, immForm, regWord_zero, BitVec.or_zero, BitVec.shiftLeft_zero]
  exact conforms_single (meaning imm) encoded (implemented imm)

theorem row_source_source (base : BitVec 32) (a : Fin 16)
    (operation : Fin 16 → Fin 16 → Operation)
    (meaning : ∀ b c, isaMeaning name [.reg b, .reg c] = some [operation b c])
    (fixed : bits = base ||| regWord a <<< 20)
    (implemented : ∀ b c, Implements (regForm base a b c) (operation b c)) :
    RowConforms (single name bits mask [REG 16, REG 8]) := by
  intro _ _ kinds
  obtain ⟨_, _, rfl, first, second⟩ := kinds_two kinds
  obtain ⟨b, rfl⟩ := kind_reg first
  obtain ⟨c, rfl⟩ := kind_reg second
  have encoded : bits ||| regWord b <<< 16 ||| regWord c <<< 8 = regForm base a b c := by
    rw [fixed, regForm]
  exact conforms_single (meaning b c) encoded (implemented b c)

theorem row_source_imm (base : BitVec 32) (a : Fin 16)
    (operation : Fin 16 → BitVec 16 → Operation)
    (meaning : ∀ b imm, isaMeaning name [.reg b, .imm imm] = some [operation b imm])
    (fixed : bits = base ||| regWord a <<< 20)
    (implemented : ∀ b imm, Implements (immForm base a b imm) (operation b imm)) :
    RowConforms (single name bits mask [REG 16, IMM 0]) := by
  intro _ _ kinds
  obtain ⟨_, _, rfl, first, second⟩ := kinds_two kinds
  obtain ⟨b, rfl⟩ := kind_reg first
  obtain ⟨imm, rfl⟩ := kind_imm second
  have encoded : bits ||| regWord b <<< 16 ||| immWord imm <<< 0 = immForm base a b imm := by
    rw [fixed, immForm, BitVec.shiftLeft_zero]
  exact conforms_single (meaning b imm) encoded (implemented b imm)

theorem row_target_source (operation : Fin 16 → Fin 16 → Operation)
    (meaning : ∀ a c, isaMeaning name [.reg a, .reg c] = some [operation a c])
    (implemented : ∀ a c, Implements (regForm bits a 0 c) (operation a c)) :
    RowConforms (single name bits mask [REG 20, REG 8]) := by
  intro _ _ kinds
  obtain ⟨_, _, rfl, first, second⟩ := kinds_two kinds
  obtain ⟨a, rfl⟩ := kind_reg first
  obtain ⟨c, rfl⟩ := kind_reg second
  have encoded : bits ||| regWord a <<< 20 ||| regWord c <<< 8 = regForm bits a 0 c := by
    simp only [regForm, regWord_zero, BitVec.or_zero]
  exact conforms_single (meaning a c) encoded (implemented a c)

theorem row_target_imm (operation : Fin 16 → BitVec 16 → Operation)
    (meaning : ∀ a imm, isaMeaning name [.reg a, .imm imm] = some [operation a imm])
    (implemented : ∀ a imm, Implements (immForm bits a 0 imm) (operation a imm)) :
    RowConforms (single name bits mask [REG 20, IMM 0]) := by
  intro _ _ kinds
  obtain ⟨_, _, rfl, first, second⟩ := kinds_two kinds
  obtain ⟨a, rfl⟩ := kind_reg first
  obtain ⟨imm, rfl⟩ := kind_imm second
  have encoded : bits ||| regWord a <<< 20 ||| immWord imm <<< 0 = immForm bits a 0 imm := by
    simp only [immForm, regWord_zero, BitVec.or_zero, BitVec.shiftLeft_zero]
  exact conforms_single (meaning a imm) encoded (implemented a imm)

/-- The register form of `not` repeats its source, so that it is a `nor`. -/
theorem row_target_repeated (operation : Fin 16 → Fin 16 → Operation)
    (meaning : ∀ a c, isaMeaning name [.reg a, .reg c] = some [operation a c])
    (implemented : ∀ a c, Implements (regForm bits a c c) (operation a c)) :
    RowConforms (single name bits mask
      [REG 20, { kind := .reg, pos := 16, pos2 := some 8 }]) := by
  intro _ _ kinds
  obtain ⟨_, _, rfl, first, second⟩ := kinds_two kinds
  obtain ⟨a, rfl⟩ := kind_reg first
  obtain ⟨c, rfl⟩ := kind_reg second
  exact conforms_single (meaning a c) rfl (implemented a c)

theorem row_address_value (operation : Fin 16 → Fin 16 → Operation)
    (meaning : ∀ c b, isaMeaning name [.reg c, .reg b] = some [operation c b])
    (implemented : ∀ c b, Implements (regForm bits 0 b c) (operation c b)) :
    RowConforms (single name bits mask [REG 8, REG 16]) := by
  intro _ _ kinds
  obtain ⟨_, _, rfl, first, second⟩ := kinds_two kinds
  obtain ⟨c, rfl⟩ := kind_reg first
  obtain ⟨b, rfl⟩ := kind_reg second
  have encoded : bits ||| regWord c <<< 8 ||| regWord b <<< 16 = regForm bits 0 b c := by
    simp only [regForm, regWord_zero, BitVec.or_zero, BitVec.or_assoc,
      BitVec.or_comm (regWord c <<< 8)]
  exact conforms_single (meaning c b) encoded (implemented c b)

theorem row_imm_value (operation : BitVec 16 → Fin 16 → Operation)
    (meaning : ∀ imm b, isaMeaning name [.imm imm, .reg b] = some [operation imm b])
    (implemented : ∀ imm b, Implements (immForm bits 0 b imm) (operation imm b)) :
    RowConforms (single name bits mask [IMM 0, REG 16]) := by
  intro _ _ kinds
  obtain ⟨_, _, rfl, first, second⟩ := kinds_two kinds
  obtain ⟨imm, rfl⟩ := kind_imm first
  obtain ⟨b, rfl⟩ := kind_reg second
  have encoded : bits ||| immWord imm <<< 0 ||| regWord b <<< 16 = immForm bits 0 b imm := by
    simp only [immForm, regWord_zero, BitVec.or_zero, BitVec.shiftLeft_zero, BitVec.or_assoc,
      BitVec.or_comm (immWord imm)]
  exact conforms_single (meaning imm b) encoded (implemented imm b)

theorem row_alu_reg (op : AluOp)
    (meaning : ∀ a b c, isaMeaning name [.reg a, .reg b, .reg c] =
      some [.alu op a b (.reg c)])
    (only : OpcodeOnly bits) (code : opcodeOf bits = op.opcode) :
    RowConforms (single name bits mask [REG 20, REG 16, REG 8]) := by
  intro _ _ kinds
  obtain ⟨_, _, _, rfl, first, second, third⟩ := kinds_three kinds
  obtain ⟨a, rfl⟩ := kind_reg first
  obtain ⟨b, rfl⟩ := kind_reg second
  obtain ⟨c, rfl⟩ := kind_reg third
  exact conforms_single (meaning a b c) rfl (implements_alu_reg only a b c op code)

theorem row_alu_imm (op : AluOp)
    (meaning : ∀ a b c, isaMeaning name [.reg a, .reg b, .imm c] =
      some [.alu op a b (.imm c)])
    (only : OpcodeOnly bits) (code : opcodeOf bits = op.opcode + 0x10) :
    RowConforms (single name bits mask [REG 20, REG 16, IMM 0]) := by
  intro _ _ kinds
  obtain ⟨_, _, _, rfl, first, second, third⟩ := kinds_three kinds
  obtain ⟨a, rfl⟩ := kind_reg first
  obtain ⟨b, rfl⟩ := kind_reg second
  obtain ⟨imm, rfl⟩ := kind_imm third
  have encoded : bits ||| regWord a <<< 20 ||| regWord b <<< 16 ||| immWord imm <<< 0 =
      immForm bits a b imm := by
    rw [immForm, BitVec.shiftLeft_zero]
  exact conforms_single (meaning a b imm) encoded (implements_alu_imm only a b imm op code)

end Rows

/-! The pseudo-instructions, one word after the other. -/

theorem implements_push_first : Implements 0x35EE0004 (.alu .sub 14 14 (.imm 4)) :=
  implements_alu_imm (show OpcodeOnly 0x35000000 by decide) 14 14 4 .sub (by decide)

theorem implements_pop_last : Implements 0x34EE0004 (.alu .add 14 14 (.imm 4)) :=
  implements_alu_imm (show OpcodeOnly 0x34000000 by decide) 14 14 4 .add (by decide)

theorem row_push {mask0 mask1 : BitVec 32} :
    RowConforms { name := "push", words := [{ bits := 0x35EE0004, mask := mask0, ops := [] },
      { bits := 0x66000E00, mask := mask1, ops := [REG 16] }] } := by
  intro _ _ kinds
  obtain ⟨_, rfl, first⟩ := kinds_one kinds
  obtain ⟨a, rfl⟩ := kind_reg first
  have stored : Implements (0x66000E00#32 ||| regWord a <<< 16) (.store .word (.reg 14) a) := by
    have shape : ∀ a, 0x66000E00#32 ||| regWord a <<< 16 = regForm 0x66000000 0 a 14 := by decide
    rw [shape a]
    exact implements_store_reg (by decide) 0 a 14 .word (by decide)
  exact ⟨_, rfl, .cons implements_push_first (.cons stored .nil)⟩

theorem row_pop {mask0 mask1 : BitVec 32} :
    RowConforms { name := "pop", words := [{ bits := 0x62000E00, mask := mask0, ops := [REG 20] },
      { bits := 0x34EE0004, mask := mask1, ops := [] }] } := by
  intro _ _ kinds
  obtain ⟨_, rfl, first⟩ := kinds_one kinds
  obtain ⟨a, rfl⟩ := kind_reg first
  have loaded : Implements (0x62000E00#32 ||| regWord a <<< 20) (.load .word a (.reg 14)) := by
    have shape : ∀ a, 0x62000E00#32 ||| regWord a <<< 20 = regForm 0x62000000 a 0 14 := by decide
    rw [shape a]
    exact implements_load_reg (by decide) a 0 14 .word (by decide)
  exact ⟨_, rfl, .cons loaded (.cons implements_pop_last .nil)⟩

theorem implements_jump_imm_fixed (imm : BitVec 16) :
    Implements (0x580F0000#32 ||| immWord imm <<< 0) (.jump (.imm imm)) := by
  have shape : 0x580F0000#32 ||| immWord imm <<< 0 = immForm 0x58000000 0 15 imm := by
    rw [immForm, BitVec.shiftLeft_zero]
    rfl
  rw [shape]
  exact implements_jump_imm (by decide) 0 15 imm (by decide)

theorem row_call {mask0 mask1 mask2 mask3 mask4 : BitVec 32} :
    RowConforms { name := "call", words := [{ bits := 0x07F00000, mask := mask0, ops := [] },
      { bits := 0x34FF0014, mask := mask1, ops := [] },
      { bits := 0x35EE0004, mask := mask2, ops := [] },
      { bits := 0x660F0E00, mask := mask3, ops := [] },
      { bits := 0x580F0000, mask := mask4, ops := [IMM 0] }] } := by
  intro _ _ kinds
  obtain ⟨_, rfl, first⟩ := kinds_one kinds
  obtain ⟨imm, rfl⟩ := kind_imm first
  have counted : Implements 0x07F00000 (.counter 15) :=
    implements_counter (show OpcodeOnly 0x07000000 by decide) 15 0 0 (by decide)
  have added : Implements 0x34FF0014 (.alu .add 15 15 (.imm 20)) :=
    implements_alu_imm (show OpcodeOnly 0x34000000 by decide) 15 15 20 .add (by decide)
  have stored : Implements 0x660F0E00 (.store .word (.reg 14) 15) :=
    implements_store_reg (show OpcodeOnly 0x66000000 by decide) 0 15 14 .word (by decide)
  exact ⟨_, rfl, .cons counted (.cons added (.cons implements_push_first (.cons stored
    (.cons (implements_jump_imm_fixed imm) .nil))))⟩

theorem row_ret {mask0 mask1 mask2 : BitVec 32} :
    RowConforms { name := "ret", words := [{ bits := 0x62F00E00, mask := mask0, ops := [] },
      { bits := 0x34EE0004, mask := mask1, ops := [] },
      { bits := 0x480F0F00, mask := mask2, ops := [] }] } := by
  intro _ _ kinds
  obtain rfl := List.map_eq_nil_iff.mp kinds
  have loaded : Implements 0x62F00E00 (.load .word 15 (.reg 14)) :=
    implements_load_reg (show OpcodeOnly 0x62000000 by decide) 15 0 14 .word (by decide)
  have jumped : Implements 0x480F0F00 (.jump (.reg 15)) :=
    implements_jump_reg (show OpcodeOnly 0x48000000 by decide) 0 15 15 (by decide)
  exact ⟨_, rfl, .cons loaded (.cons implements_pop_last (.cons jumped .nil))⟩

theorem row_nop {mask : BitVec 32} : RowConforms (single "nop" 0 mask []) := by
  intro _ _ kinds
  obtain rfl := List.map_eq_nil_iff.mp kinds
  exact conforms_single rfl rfl implements_nop

theorem row_outImmediate {bits mask : BitVec 32} : RowConforms (single "out" bits mask [IMM 0]) :=
  fun ordinary => nomatch ordinary

theorem row_device (kind : Device) {name : String} {bits mask : BitVec 32}
    (meaning : ∀ a, isaMeaning name [.reg a] = some [.device kind a])
    (only : OpcodeOnly bits) (code : opcodeOf bits = kind.opcode) :
    RowConforms (single name bits mask [REG 20]) :=
  row_target (.device kind) meaning fun a => implements_device only a 0 0 kind code

theorem row_jumpIf (condition : Condition) (base : BitVec 32) {name : String}
    {bits mask : BitVec 32}
    (meaning : ∀ imm, isaMeaning name [.imm imm] = some [.jumpIf condition imm])
    (fixed : bits = base ||| regWord 15 <<< 16) (only : OpcodeOnly base)
    (code : opcodeOf base = condition.opcode) :
    RowConforms (single name bits mask [IMM 0]) :=
  row_imm base 15 (.jumpIf condition) meaning fixed fun imm =>
    implements_jumpIf only 0 15 imm condition code

theorem row_load_reg (width : Width) {name : String} {bits mask : BitVec 32}
    (meaning : ∀ a c, isaMeaning name [.reg a, .reg c] = some [.load width a (.reg c)])
    (only : OpcodeOnly bits) (code : opcodeOf bits = 0x60 + width.opcode) :
    RowConforms (single name bits mask [REG 20, REG 8]) :=
  row_target_source _ meaning fun a c => implements_load_reg only a 0 c width code

theorem row_load_imm (width : Width) {name : String} {bits mask : BitVec 32}
    (meaning : ∀ a imm, isaMeaning name [.reg a, .imm imm] = some [.load width a (.imm imm)])
    (only : OpcodeOnly bits) (code : opcodeOf bits = 0x70 + width.opcode) :
    RowConforms (single name bits mask [REG 20, IMM 0]) :=
  row_target_imm _ meaning fun a imm => implements_load_imm only a 0 imm width code

theorem row_store_reg (width : Width) {name : String} {bits mask : BitVec 32}
    (meaning : ∀ c b, isaMeaning name [.reg c, .reg b] = some [.store width (.reg c) b])
    (only : OpcodeOnly bits) (code : opcodeOf bits = 0x64 + width.opcode) :
    RowConforms (single name bits mask [REG 8, REG 16]) :=
  row_address_value _ meaning fun c b => implements_store_reg only 0 b c width code

theorem row_store_imm (width : Width) {name : String} {bits mask : BitVec 32}
    (meaning : ∀ imm b, isaMeaning name [.imm imm, .reg b] = some [.store width (.imm imm) b])
    (only : OpcodeOnly bits) (code : opcodeOf bits = 0x74 + width.opcode) :
    RowConforms (single name bits mask [IMM 0, REG 16]) :=
  row_imm_value _ meaning fun imm b => implements_store_imm only 0 b imm width code

/-- Every row but one does what `SymphonyPlus.isa` says, for every operand. -/
theorem isaTable_conforms : ∀ insn ∈ isaTable, RowConforms insn := by
  simp only [isaTable, List.forall_mem_cons]
  refine ⟨row_nop,
    row_device .standardInput (fun _ => rfl) (by decide) (by decide),
    row_source 0x02000000 0 (fun c => .output (.reg c)) (fun _ => rfl) rfl
      fun c => implements_output_reg (by decide) 0 0 c (by decide),
    row_outImmediate,
    row_device .keyboard (fun _ => rfl) (by decide) (by decide),
    row_source_source 0x04000000 0 (fun b c => .screen b (.reg c)) (fun _ _ => rfl) rfl
      fun b c => implements_screen_reg (by decide) 0 b c (by decide),
    row_source_imm 0x14000000 0 (fun b imm => .screen b (.imm imm)) (fun _ _ => rfl) rfl
      fun b imm => implements_screen_imm (by decide) 0 b imm (by decide),
    row_device .timeLow (fun _ => rfl) (by decide) (by decide),
    row_device .timeHigh (fun _ => rfl) (by decide) (by decide),
    row_target .counter (fun _ => rfl)
      fun a => implements_counter (by decide) a 0 0 (by decide),
    row_target_source (fun a c => .move a (.reg c)) (fun _ _ => rfl)
      fun a c => implements_move_reg (by decide) a c (by decide),
    row_target_imm (fun a imm => .move a (.imm imm)) (fun _ _ => rfl)
      fun a imm => implements_move_imm (by decide) a imm (by decide),
    row_target_source (fun a c => .negate a (.reg c)) (fun _ _ => rfl)
      fun a c => implements_negate_reg (by decide) a c (by decide),
    row_target_imm (fun a imm => .negate a (.imm imm)) (fun _ _ => rfl)
      fun a imm => implements_negate_imm (by decide) a imm (by decide),
    row_target_repeated (fun a c => .complement a (.reg c)) (fun _ _ => rfl)
      fun a c => implements_complement_reg (by decide) a c (by decide),
    row_target_imm (fun a imm => .complement a (.imm imm)) (fun _ _ => rfl)
      fun a imm => implements_complement_imm (by decide) a imm (by decide),
    row_alu_reg .nand (fun _ _ _ => rfl) (by decide) (by decide),
    row_alu_reg .or (fun _ _ _ => rfl) (by decide) (by decide),
    row_alu_reg .and (fun _ _ _ => rfl) (by decide) (by decide),
    row_alu_reg .nor (fun _ _ _ => rfl) (by decide) (by decide),
    row_alu_reg .add (fun _ _ _ => rfl) (by decide) (by decide),
    row_alu_reg .sub (fun _ _ _ => rfl) (by decide) (by decide),
    row_alu_reg .xor (fun _ _ _ => rfl) (by decide) (by decide),
    row_alu_reg .lsl (fun _ _ _ => rfl) (by decide) (by decide),
    row_alu_reg .lsr (fun _ _ _ => rfl) (by decide) (by decide),
    row_alu_reg .asr (fun _ _ _ => rfl) (by decide) (by decide),
    row_alu_reg .mul (fun _ _ _ => rfl) (by decide) (by decide),
    row_alu_reg .div (fun _ _ _ => rfl) (by decide) (by decide),
    row_alu_reg .mod (fun _ _ _ => rfl) (by decide) (by decide),
    row_source_source 0x2A000000 15 (fun b c => .compare b (.reg c)) (fun _ _ => rfl) rfl
      fun b c => implements_compare_reg (by decide) 15 b c (by decide),
    row_alu_imm .nand (fun _ _ _ => rfl) (by decide) (by decide),
    row_alu_imm .or (fun _ _ _ => rfl) (by decide) (by decide),
    row_alu_imm .and (fun _ _ _ => rfl) (by decide) (by decide),
    row_alu_imm .nor (fun _ _ _ => rfl) (by decide) (by decide),
    row_alu_imm .add (fun _ _ _ => rfl) (by decide) (by decide),
    row_alu_imm .sub (fun _ _ _ => rfl) (by decide) (by decide),
    row_alu_imm .xor (fun _ _ _ => rfl) (by decide) (by decide),
    row_alu_imm .lsl (fun _ _ _ => rfl) (by decide) (by decide),
    row_alu_imm .lsr (fun _ _ _ => rfl) (by decide) (by decide),
    row_alu_imm .asr (fun _ _ _ => rfl) (by decide) (by decide),
    row_alu_imm .mul (fun _ _ _ => rfl) (by decide) (by decide),
    row_alu_imm .div (fun _ _ _ => rfl) (by decide) (by decide),
    row_alu_imm .mod (fun _ _ _ => rfl) (by decide) (by decide),
    row_source_imm 0x3A000000 15 (fun b imm => .compare b (.imm imm)) (fun _ _ => rfl) rfl
      fun b imm => implements_compare_imm (by decide) 15 b imm (by decide),
    row_source 0x48000000 15 (fun c => .jump (.reg c)) (fun _ => rfl) rfl
      fun c => implements_jump_reg (by decide) 0 15 c (by decide),
    row_imm 0x58000000 15 (fun imm => .jump (.imm imm)) (fun _ => rfl) rfl
      fun imm => implements_jump_imm (by decide) 0 15 imm (by decide),
    row_jumpIf .je 0x51000000 (fun _ => rfl) rfl (by decide) (by decide),
    row_jumpIf .jne 0x59000000 (fun _ => rfl) rfl (by decide) (by decide),
    row_jumpIf .jb 0x52000000 (fun _ => rfl) rfl (by decide) (by decide),
    row_jumpIf .jae 0x5A000000 (fun _ => rfl) rfl (by decide) (by decide),
    row_jumpIf .jbe 0x53000000 (fun _ => rfl) rfl (by decide) (by decide),
    row_jumpIf .ja 0x5B000000 (fun _ => rfl) rfl (by decide) (by decide),
    row_jumpIf .jl 0x54000000 (fun _ => rfl) rfl (by decide) (by decide),
    row_jumpIf .jge 0x5C000000 (fun _ => rfl) rfl (by decide) (by decide),
    row_jumpIf .jle 0x55000000 (fun _ => rfl) rfl (by decide) (by decide),
    row_jumpIf .jg 0x5D000000 (fun _ => rfl) rfl (by decide) (by decide),
    row_load_reg .byte (fun _ _ => rfl) (by decide) (by decide),
    row_load_reg .half (fun _ _ => rfl) (by decide) (by decide),
    row_load_reg .word (fun _ _ => rfl) (by decide) (by decide),
    row_target_source (fun a c => .diskLoad a (.reg c)) (fun _ _ => rfl)
      fun a c => implements_diskLoad_reg (by decide) a 0 c (by decide),
    row_store_reg .byte (fun _ _ => rfl) (by decide) (by decide),
    row_store_reg .half (fun _ _ => rfl) (by decide) (by decide),
    row_store_reg .word (fun _ _ => rfl) (by decide) (by decide),
    row_address_value (fun c b => .diskStore (.reg c) b) (fun _ _ => rfl)
      fun c b => implements_diskStore_reg (by decide) 0 b c (by decide),
    row_load_imm .byte (fun _ _ => rfl) (by decide) (by decide),
    row_load_imm .half (fun _ _ => rfl) (by decide) (by decide),
    row_load_imm .word (fun _ _ => rfl) (by decide) (by decide),
    row_target_imm (fun a imm => .diskLoad a (.imm imm)) (fun _ _ => rfl)
      fun a imm => implements_diskLoad_imm (by decide) a 0 imm (by decide),
    row_store_imm .byte (fun _ _ => rfl) (by decide) (by decide),
    row_store_imm .half (fun _ _ => rfl) (by decide) (by decide),
    row_store_imm .word (fun _ _ => rfl) (by decide) (by decide),
    row_imm_value (fun imm b => .diskStore (.imm imm) b) (fun _ _ => rfl)
      fun imm b => implements_diskStore_imm (by decide) 0 b imm (by decide),
    row_push,
    row_pop,
    row_call,
    row_ret, ?_⟩
  exact fun _ absent => nomatch absent

end SymphonyPlus
