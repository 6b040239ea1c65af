import SymphonyPlus.Machine

/-! The instruction step of `emu/emu.c`: fetch one word and dispatch on its first byte. -/

namespace SymphonyPlus

open ByteMemory

/-- What one step leaves: a running machine, the stop convention, or an error code. -/
inductive StepResult
  | running (machine : Machine)
  | halted (machine : Machine)
  | fault (code : Nat) (machine : Machine)

def opcodeOf (word : BitVec 32) : Nat := (word >>> 24).toNat

def fieldOf (word : BitVec 32) (position : Nat) : Fin 16 :=
  Fin.ofNat 16 (word >>> position).toNat

def immediateOf (word : BitVec 32) : BitVec 32 := word &&& 0xFFFF

def accessAddress (options : EmuOptions) (machine : Machine) (word : BitVec 32) : Nat :=
  let opcode := opcodeOf word
  let mask := if opcode % 4 = 3 then options.diskMask else options.ramMask
  if opcode / 8 = 12 then (machine.regs (fieldOf word 8) &&& mask).toNat
  else if opcode / 8 = 14 then (immediateOf word &&& mask).toNat
  else 0

def Machine.next (machine : Machine) : Machine :=
  { machine with pc := (machine.pc + 4) % 2 ^ 64 }

def jumpRegister (machine : Machine) (target : BitVec 32) : StepResult :=
  if target = BitVec.ofNat 32 machine.pc then .halted machine
  else .running { machine with pc := target.toNat }

def jumpWhen (machine : Machine) (taken : Bool) (target : BitVec 32) : StepResult :=
  if taken then
    if target.toNat = machine.pc then .halted machine
    else .running { machine with pc := target.toNat }
  else .running machine.next

def continueWith (machine : Machine) (target : Fin 16) (value : BitVec 32) : StepResult :=
  .running (machine.setReg target value).next

def setOption (machine : Machine) (option : BitVec 32) (value : BitVec 32) : StepResult :=
  if bound : option.toNat < 8 then
    .running ({ machine with
      settings := fun query =>
        if query = (⟨option.toNat, bound⟩ : Fin 8) then value
        else machine.settings query }).next
  else .fault 2 machine

def loadInto (machine : Machine) (size limit address : Nat) (target : Fin 16)
    (value : BitVec 32) : StepResult :=
  if address + size ≤ limit then continueWith machine target value else .fault 2 machine

def storeMemory (machine : Machine) (size limit address : Nat) (memory : Memory) : StepResult :=
  if address + size ≤ limit then .running ({ machine with memory := memory }).next
  else .fault 2 machine

def storeDisk (machine : Machine) (limit address : Nat) (disk : Memory) : StepResult :=
  if address + 4 ≤ limit then .running ({ machine with disk := disk }).next
  else .fault 2 machine

/-- The opcode switch. Each case reads its operands from the fixed bit fields of the word. -/
def execute (options : EmuOptions) (machine : Machine) (word : BitVec 32) : StepResult :=
  let a := fieldOf word 20
  let b := fieldOf word 16
  let c := fieldOf word 8
  let imm := immediateOf word
  let address := accessAddress options machine word
  let regs := machine.regs
  let memory := machine.memory
  let lastA := machine.lastA
  let lastB := machine.lastB
  match opcodeOf word with
  | 0x00 => .running machine.next
  | 0x01 => continueWith machine a 0
  | 0x02 => .running ({ machine with printed := machine.printed ++ [regs c] }).next
  | 0x03 =>
      let reading := Device.keyboard.read options machine
      continueWith reading.2 a reading.1
  | 0x04 => setOption machine (regs b) (regs c)
  | 0x05 =>
      let reading := Device.timeLow.read options machine
      continueWith reading.2 a reading.1
  | 0x06 => continueWith machine a machine.timeHigh
  | 0x07 => continueWith machine a (BitVec.ofNat 32 machine.pc)
  | 0x10 => .running ({ machine with printed := machine.printed ++ [imm] }).next
  | 0x14 => setOption machine (regs b) imm
  | 0x20 => continueWith machine a (~~~(regs b &&& regs c))
  | 0x21 => continueWith machine a (regs b ||| regs c)
  | 0x22 => continueWith machine a (regs b &&& regs c)
  | 0x23 => continueWith machine a (~~~(regs b ||| regs c))
  | 0x24 => continueWith machine a (regs b + regs c)
  | 0x25 => continueWith machine a (regs b - regs c)
  | 0x26 => continueWith machine a (regs b ^^^ regs c)
  | 0x27 => continueWith machine a (regs b <<< (regs c &&& 31))
  | 0x28 => continueWith machine a (regs b >>> (regs c &&& 31))
  | 0x29 => continueWith machine a ((regs b).sshiftRight (regs c &&& 31).toNat)
  | 0x2A => .running ({ machine with lastA := regs b, lastB := regs c }).next
  | 0x2B => continueWith machine a (regs b * regs c)
  | 0x2C => continueWith machine a (if regs c = 0 then 0 else regs b / regs c)
  | 0x2D => continueWith machine a (if regs c = 0 then 0 else regs b % regs c)
  | 0x30 => continueWith machine a (~~~(regs b &&& imm))
  | 0x31 => continueWith machine a (regs b ||| imm)
  | 0x32 => continueWith machine a (regs b &&& imm)
  | 0x33 => continueWith machine a (~~~(regs b ||| imm))
  | 0x34 => continueWith machine a (regs b + imm)
  | 0x35 => continueWith machine a (regs b - imm)
  | 0x36 => continueWith machine a (regs b ^^^ imm)
  | 0x37 => continueWith machine a (regs b <<< (imm &&& 31))
  | 0x38 => continueWith machine a (regs b >>> (imm &&& 31))
  | 0x39 => continueWith machine a ((regs b).sshiftRight (imm &&& 31).toNat)
  | 0x3A => .running ({ machine with lastA := regs b, lastB := imm }).next
  | 0x3B => continueWith machine a (regs b * imm)
  | 0x3C => continueWith machine a (if imm = 0 then 0 else regs b / imm)
  | 0x3D => continueWith machine a (if imm = 0 then 0 else regs b % imm)
  | 0x48 => jumpRegister machine (regs c)
  | 0x58 => jumpRegister machine imm
  | 0x51 => jumpWhen machine (lastA == lastB) imm
  | 0x59 => jumpWhen machine (lastA != lastB) imm
  | 0x52 => jumpWhen machine (lastA.ult lastB) imm
  | 0x5A => jumpWhen machine (!lastA.ult lastB) imm
  | 0x53 => jumpWhen machine (lastA.ule lastB) imm
  | 0x5B => jumpWhen machine (!lastA.ule lastB) imm
  | 0x54 => jumpWhen machine (lastA.slt lastB) imm
  | 0x5C => jumpWhen machine (!lastA.slt lastB) imm
  | 0x55 => jumpWhen machine (lastA.sle lastB) imm
  | 0x5D => jumpWhen machine (!lastA.sle lastB) imm
  | 0x60 => loadInto machine 1 options.ramSize address a ((memory address).zeroExtend 32)
  | 0x61 => loadInto machine 2 options.ramSize address a ((read16 memory address).zeroExtend 32)
  | 0x62 => loadInto machine 4 options.ramSize address a (read32 memory address)
  | 0x63 => loadInto machine 4 options.diskSize address a (read32 machine.disk address)
  | 0x64 => storeMemory machine 1 options.ramSize address
      (write8 memory address ((regs b).truncate 8))
  | 0x65 => storeMemory machine 2 options.ramSize address
      (write16 memory address ((regs b).truncate 16))
  | 0x66 => storeMemory machine 4 options.ramSize address (write32 memory address (regs b))
  | 0x67 => storeDisk machine options.diskSize address (write32 machine.disk address (regs b))
  | 0x70 => loadInto machine 1 options.ramSize address a ((memory address).zeroExtend 32)
  | 0x71 => loadInto machine 2 options.ramSize address a ((read16 memory address).zeroExtend 32)
  | 0x72 => loadInto machine 4 options.ramSize address a (read32 memory address)
  | 0x73 => loadInto machine 4 options.diskSize address a (read32 machine.disk address)
  | 0x74 => storeMemory machine 1 options.ramSize address
      (write8 memory address ((regs b).truncate 8))
  | 0x75 => storeMemory machine 2 options.ramSize address
      (write16 memory address ((regs b).truncate 16))
  | 0x76 => storeMemory machine 4 options.ramSize address (write32 memory address (regs b))
  | 0x77 => storeDisk machine options.diskSize address (write32 machine.disk address (regs b))
  | _ => .fault 3 machine

/-- One pass of the loop of `emu_run_ex` below the instruction limit. -/
def step (options : EmuOptions) (machine : Machine) : StepResult :=
  let fetch :=
    if options.ramMask = BitVec.allOnes 32 then machine.pc
    else machine.pc % 2 ^ 32 &&& options.ramMask.toNat
  if fetch + 4 ≤ options.ramSize then
    match execute options machine (read32 machine.memory fetch) with
    | .running after => .running { after with instruction := machine.instruction + 1 }
    | stopped => stopped
  else .fault 2 machine

end SymphonyPlus
