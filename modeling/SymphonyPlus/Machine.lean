import SymphonyPlus.ByteMemory

/-!
The SymphonyPlus machine: registers, devices and the operations that
`SymphonyPlus.isa` describes, independent of how instruction words spell them.
-/

namespace SymphonyPlus

open ByteMemory

instance registerCount_ne_zero : NeZero 16 := ⟨Nat.succ_ne_zero 15⟩

/-- Sixteen registers; `zr` reads as zero because no value with another content exists. -/
structure Registers where
  value : Fin 16 → BitVec 32
  zero : value 0 = 0

instance : CoeFun Registers (fun _ => Fin 16 → BitVec 32) := ⟨Registers.value⟩

/-- `set_reg`: a write to `zr` is dropped. -/
def Registers.set (registers : Registers) (index : Fin 16) (newValue : BitVec 32) : Registers where
  value := fun query => if query = index ∧ index ≠ 0 then newValue else registers query
  zero := by
    have kept : ¬((0 : Fin 16) = index ∧ index ≠ 0) := fun both => both.2 both.1.symm
    rw [if_neg kept, registers.zero]

def Registers.clear : Registers := ⟨fun _ => 0, rfl⟩

theorem Registers.ext_value {first second : Registers}
    (same : ∀ index, first index = second index) : first = second := by
  cases first
  cases second
  congr
  exact funext same

@[simp] theorem Registers.value_zero (registers : Registers) : registers 0 = 0#32 :=
  registers.zero

theorem Registers.set_same (registers : Registers) {index : Fin 16} (newValue : BitVec 32)
    (nonzero : index ≠ 0) : registers.set index newValue index = newValue := by
  simp [Registers.set, nonzero]

theorem Registers.set_other (registers : Registers) {index query : Fin 16} (newValue : BitVec 32)
    (different : query ≠ index) : registers.set index newValue query = registers query := by
  simp [Registers.set, different]

def stackReg : Fin 16 := 14

inductive AluOp
  | nand | or | and | nor | add | sub | xor | lsl | lsr | asr | mul | div | mod
  deriving DecidableEq, Repr

/-- Shift amounts use their low five bits, and division by zero gives zero. -/
def AluOp.apply : AluOp → BitVec 32 → BitVec 32 → BitVec 32
  | .nand, left, right => ~~~(left &&& right)
  | .or, left, right => left ||| right
  | .and, left, right => left &&& right
  | .nor, left, right => ~~~(left ||| right)
  | .add, left, right => left + right
  | .sub, left, right => left - right
  | .xor, left, right => left ^^^ right
  | .lsl, left, right => left <<< (right &&& 31)
  | .lsr, left, right => left >>> (right &&& 31)
  | .asr, left, right => left.sshiftRight (right &&& 31).toNat
  | .mul, left, right => left * right
  | .div, left, right => if right = 0 then 0 else left / right
  | .mod, left, right => if right = 0 then 0 else left % right

inductive Condition
  | je | jne | jb | jae | jbe | ja | jl | jge | jle | jg
  deriving DecidableEq, Repr

def Condition.holds : Condition → BitVec 32 → BitVec 32 → Bool
  | .je, left, right => left == right
  | .jne, left, right => left != right
  | .jb, left, right => left.ult right
  | .jae, left, right => !left.ult right
  | .jbe, left, right => left.ule right
  | .ja, left, right => !left.ule right
  | .jl, left, right => left.slt right
  | .jge, left, right => !left.slt right
  | .jle, left, right => left.sle right
  | .jg, left, right => !left.sle right

inductive Width
  | byte | half | word
  deriving DecidableEq, Repr

def Width.bytes : Width → Nat
  | .byte => 1
  | .half => 2
  | .word => 4

def Width.load : Width → Memory → Nat → BitVec 32
  | .byte, memory, address => (memory address).zeroExtend 32
  | .half, memory, address => (read16 memory address).zeroExtend 32
  | .word, memory, address => read32 memory address

def Width.store : Width → Memory → Nat → BitVec 32 → Memory
  | .byte, memory, address, value => write8 memory address (value.truncate 8)
  | .half, memory, address, value => write16 memory address (value.truncate 16)
  | .word, memory, address, value => write32 memory address value

/-- A last operand: a register or a 16-bit constant, which is extended with zeros. -/
inductive Source
  | reg (index : Fin 16)
  | imm (value : BitVec 16)
  deriving DecidableEq, Repr

def Source.read (source : Source) (registers : Registers) : BitVec 32 :=
  match source with
  | .reg index => registers index
  | .imm value => value.zeroExtend 32

inductive Device
  | standardInput | keyboard | timeLow | timeHigh
  deriving DecidableEq, Repr

inductive Operation
  | nop
  | device (kind : Device) (target : Fin 16)
  | output (source : Source)
  | screen (option : Fin 16) (source : Source)
  | counter (target : Fin 16)
  | alu (op : AluOp) (target left : Fin 16) (right : Source)
  | move (target : Fin 16) (source : Source)
  | negate (target : Fin 16) (source : Source)
  | complement (target : Fin 16) (source : Source)
  | compare (left : Fin 16) (right : Source)
  | jump (target : Source)
  | jumpIf (condition : Condition) (target : BitVec 16)
  | load (width : Width) (target : Fin 16) (address : Source)
  | store (width : Width) (address : Source) (source : Fin 16)
  | diskLoad (target : Fin 16) (address : Source)
  | diskStore (address : Source) (source : Fin 16)
  deriving DecidableEq, Repr

/-- Sizes and options of one emulator run. A mask of all ones is full addressing, which is
what the emulator uses for a zero mask. -/
structure EmuOptions where
  ramSize : Nat
  diskSize : Nat
  ramMask : BitVec 32 := BitVec.allOnes 32
  diskMask : BitVec 32 := BitVec.allOnes 32
  events : List (Nat × BitVec 32) := []
  keyboard : Option (Nat → BitVec 32) := none
  nsPerInstruction : BitVec 64 := 0

/-- The state of one run. `instruction` is the number of instructions before this one. -/
structure Machine where
  regs : Registers
  lastA : BitVec 32
  lastB : BitVec 32
  pc : Nat
  memory : Memory
  disk : Memory
  settings : Fin 8 → BitVec 32
  timeHigh : BitVec 32
  keyIndex : Nat
  keyCalls : Nat
  printed : List (BitVec 32)
  instruction : Nat

def Machine.setReg (machine : Machine) (index : Fin 16) (value : BitVec 32) : Machine :=
  { machine with regs := machine.regs.set index value }

/-- `SymphonyPlus.isa` leaves the answers of devices open. These are the emulator's: zero from `in`,
scripted or live keys, and a clock whose high half is the one sampled with the last low half. -/
def Device.read (device : Device) (options : EmuOptions) (machine : Machine) :
    BitVec 32 × Machine :=
  match device with
  | .standardInput => (0, machine)
  | .keyboard =>
      match options.events[machine.keyIndex]? with
      | some event =>
          if event.1 ≤ machine.instruction then
            (event.2, { machine with keyIndex := machine.keyIndex + 1 })
          else (0, machine)
      | none =>
          match options.events, options.keyboard with
          | [], some live =>
              (live machine.keyCalls, { machine with keyCalls := machine.keyCalls + 1 })
          | _, _ => (0, machine)
  | .timeLow =>
      let nanoseconds := BitVec.ofNat 64 machine.instruction * options.nsPerInstruction
      (nanoseconds.extractLsb' 0 32, { machine with timeHigh := nanoseconds.extractLsb' 32 32 })
  | .timeHigh => (machine.timeHigh, machine)

/-- What one operation asks for: the next instruction, a jump, or a range fault. -/
inductive Effect
  | advance (machine : Machine)
  | jump (machine : Machine) (target : Nat)
  | outOfRange (machine : Machine)

def ramAddress (options : EmuOptions) (machine : Machine) (address : Source) : Nat :=
  (address.read machine.regs &&& options.ramMask).toNat

def diskAddress (options : EmuOptions) (machine : Machine) (address : Source) : Nat :=
  (address.read machine.regs &&& options.diskMask).toNat

/-- The meaning of each operation as `SymphonyPlus.isa` words it. What it leaves open is taken from
the emulator: the devices, and flags that are the pair of the values compared last. -/
def Operation.effect (operation : Operation) (options : EmuOptions) (machine : Machine) : Effect :=
  match operation with
  | .nop => .advance machine
  | .device kind target =>
      let reading := kind.read options machine
      .advance (reading.2.setReg target reading.1)
  | .output source =>
      .advance { machine with printed := machine.printed ++ [source.read machine.regs] }
  | .screen option source =>
      if bound : (machine.regs option).toNat < 8 then
        .advance { machine with
          settings := fun query =>
            if query = ⟨(machine.regs option).toNat, bound⟩ then source.read machine.regs
            else machine.settings query }
      else .outOfRange machine
  | .counter target => .advance (machine.setReg target (BitVec.ofNat 32 machine.pc))
  | .alu op target left right =>
      .advance (machine.setReg target (op.apply (machine.regs left) (right.read machine.regs)))
  | .move target source => .advance (machine.setReg target (source.read machine.regs))
  | .negate target source => .advance (machine.setReg target (-source.read machine.regs))
  | .complement target source => .advance (machine.setReg target (~~~source.read machine.regs))
  | .compare left right =>
      .advance { machine with lastA := machine.regs left, lastB := right.read machine.regs }
  | .jump target => .jump machine (target.read machine.regs).toNat
  | .jumpIf condition target =>
      if condition.holds machine.lastA machine.lastB then .jump machine target.toNat
      else .advance machine
  | .load width target address =>
      if ramAddress options machine address + width.bytes ≤ options.ramSize then
        .advance (machine.setReg target
          (width.load machine.memory (ramAddress options machine address)))
      else .outOfRange machine
  | .store width address source =>
      if ramAddress options machine address + width.bytes ≤ options.ramSize then
        .advance { machine with
          memory := width.store machine.memory (ramAddress options machine address)
            (machine.regs source) }
      else .outOfRange machine
  | .diskLoad target address =>
      if diskAddress options machine address + 4 ≤ options.diskSize then
        .advance (machine.setReg target (read32 machine.disk (diskAddress options machine address)))
      else .outOfRange machine
  | .diskStore address source =>
      if diskAddress options machine address + 4 ≤ options.diskSize then
        .advance { machine with
          disk := write32 machine.disk (diskAddress options machine address)
            (machine.regs source) }
      else .outOfRange machine

end SymphonyPlus
