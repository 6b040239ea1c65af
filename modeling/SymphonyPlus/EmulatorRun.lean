import SymphonyPlus.Emulator

/-! `emu_run_ex` over the arrays it allocates. An access outside its array has no result, so
`none` is undefined behaviour and the range checks are the only protection. -/

namespace SymphonyPlus.EmuRun

def defaultDiskBytes : Nat := 8 <<< 20

def spDiskBytes : Nat := 0x2000000

structure EmuState where
  regs : List (BitVec 32)
  settings : List (BitVec 32)
  lastA : BitVec 32
  lastB : BitVec 32
  pc : Nat
  mem : List (BitVec 8)
  disk : List (BitVec 8)
  timeHigh : BitVec 32
  keyIndex : Nat
  keyCalls : Nat
  printed : List (BitVec 32)

/-- The caller's options. A disk image has the length that is passed with it. -/
structure RunOptions where
  disk : Option (List (BitVec 8))
  diskLen : Nat
  sized : ∀ image, disk = some image → image.length = diskLen
  events : List (Nat × BitVec 32)
  nsPerInstruction : BitVec 64
  observe : Option (EmuState → Nat → Bool)
  keyboard : Option (Nat → BitVec 32)
  ramAddressMask : BitVec 32
  diskAddressMask : BitVec 32

/-- How one pass of the loop ends: `continue` or the end of its body, `goto halt`, the `break`
of a failed fetch, and `goto done` with an error. -/
inductive Passed
  | running (state : EmuState)
  | halted (state : EmuState)
  | cut (state : EmuState)
  | fault (code : Nat) (state : EmuState)

section arrays
variable {α : Type}

def store (array : List α) (index : Nat) (value : α) : Option (List α) :=
  if index < array.length then some (array.set index value) else none

def memcpy (target source : List α) : Option (List α) :=
  if source.length ≤ target.length then some (source ++ target.drop source.length) else none

def rd8 (bytes : List (BitVec 8)) (p : Nat) : Option (BitVec 32) :=
  bytes[p]?.map fun byte => byte.zeroExtend 32

def rd16 (bytes : List (BitVec 8)) (p : Nat) : Option (BitVec 16) := do
  let high ← bytes[p]?
  let low ← bytes[p + 1]?
  return high ++ low

def rd32 (bytes : List (BitVec 8)) (p : Nat) : Option (BitVec 32) := do
  let first ← bytes[p]?
  let second ← bytes[p + 1]?
  let third ← bytes[p + 2]?
  let fourth ← bytes[p + 3]?
  return first ++ second ++ third ++ fourth

def wr16 (bytes : List (BitVec 8)) (p : Nat) (v : BitVec 16) : Option (List (BitVec 8)) := do
  let bytes ← store bytes p (v.extractLsb' 8 8)
  store bytes (p + 1) (v.extractLsb' 0 8)

def wr32 (bytes : List (BitVec 8)) (p : Nat) (v : BitVec 32) : Option (List (BitVec 8)) := do
  let bytes ← store bytes p (v.extractLsb' 24 8)
  let bytes ← store bytes (p + 1) (v.extractLsb' 16 8)
  let bytes ← store bytes (p + 2) (v.extractLsb' 8 8)
  store bytes (p + 3) (v.extractLsb' 0 8)

end arrays

def reg (state : EmuState) (i : Nat) : Option (BitVec 32) := state.regs[i]?

def setReg (state : EmuState) (i : Nat) (v : BitVec 32) : Option EmuState :=
  if 0 < i then (store state.regs i v).map fun regs => { state with regs := regs } else some state

def advance (state : EmuState) : Passed :=
  .running { state with pc := (state.pc + 4) % 2 ^ 64 }

def put (state : EmuState) (a : Nat) (value : BitVec 32) : Option Passed :=
  (setReg state a value).map advance

def alu (state : EmuState) (a b c : Nat) (f : BitVec 32 → BitVec 32 → BitVec 32) :
    Option Passed := do
  let left ← reg state b
  let right ← reg state c
  put state a (f left right)

def aluImm (state : EmuState) (a b : Nat) (imm : BitVec 32)
    (f : BitVec 32 → BitVec 32 → BitVec 32) : Option Passed := do
  let left ← reg state b
  put state a (f left imm)

def out (state : EmuState) (value : Option (BitVec 32)) : Option Passed :=
  value.map fun value => advance { state with printed := state.printed ++ [value] }

def nextKey (options : EmuOptions) (n : Nat) (state : EmuState) :
    Option (BitVec 32 × EmuState) := do
  let due ← if state.keyIndex < options.events.length then
      options.events[state.keyIndex]?.map fun event => if event.1 ≤ n then some event.2 else none
    else some none
  match due with
  | some key => return (key, { state with keyIndex := state.keyIndex + 1 })
  | none =>
      match options.events, options.keyboard with
      | [], some live => return (live state.keyCalls, { state with keyCalls := state.keyCalls + 1 })
      | _, _ => return (0, state)

def keyboard (options : EmuOptions) (n : Nat) (state : EmuState) (a : Nat) : Option Passed := do
  let (key, state) ← nextKey options n state
  put state a key

def timeLow (options : EmuOptions) (n : Nat) (state : EmuState) (a : Nat) : Option Passed :=
  let ns := BitVec.ofNat 64 n * options.nsPerInstruction
  put { state with timeHigh := ns.extractLsb' 32 32 } a (ns.extractLsb' 0 32)

def screen (state : EmuState) (b : Nat) (value : Option (BitVec 32)) : Option Passed := do
  let option ← reg state b
  if 8 ≤ option.toNat then return .fault 2 state
  let value ← value
  let settings ← store state.settings option.toNat value
  return advance { state with settings := settings }

def compare (state : EmuState) (b : Nat) (right : Option (BitVec 32)) : Option Passed := do
  let left ← reg state b
  let right ← right
  return advance { state with lastA := left, lastB := right }

def jump (state : EmuState) (target : Option (BitVec 32)) : Option Passed :=
  target.map fun t =>
    if t = BitVec.ofNat 32 state.pc then .halted state else .running { state with pc := t.toNat }

def jumpIf (state : EmuState) (taken : Bool) (target : BitVec 32) : Option Passed :=
  if taken then
    if target.toNat = state.pc then some (.halted state)
    else some (.running { state with pc := target.toNat })
  else some (advance state)

def load (state : EmuState) (size limit address a : Nat) (value : Option (BitVec 32)) :
    Option Passed :=
  if limit < address + size then some (.fault 2 state) else value.bind (put state a)

def storeMem (state : EmuState) (size limit address b : Nat)
    (write : BitVec 32 → Option (List (BitVec 8))) : Option Passed :=
  if limit < address + size then some (.fault 2 state)
  else (reg state b).bind fun value =>
    (write value).map fun mem => advance { state with mem := mem }

def storeDisk (state : EmuState) (limit address b : Nat)
    (write : BitVec 32 → Option (List (BitVec 8))) : Option Passed :=
  if limit < address + 4 then some (.fault 2 state)
  else (reg state b).bind fun value =>
    (write value).map fun disk => advance { state with disk := disk }

def nibble (word : BitVec 32) (position : Nat) : Nat := ((word >>> position) &&& 0xF).toNat

def effective (options : EmuOptions) (state : EmuState) (word : BitVec 32) : Option Nat :=
  let b0 := opcodeOf word
  let mask := if b0 &&& 3 = 3 then options.diskMask else options.ramMask
  if b0 &&& 0xf8 = 0x60 then (reg state (nibble word 8)).map fun value => (value &&& mask).toNat
  else if b0 &&& 0xf8 = 0x70 then some (immediateOf word &&& mask).toNat
  else some 0

def dispatch (options : EmuOptions) (n : Nat) (state : EmuState) (word : BitVec 32)
    (address : Nat) : Option Passed :=
  let a := nibble word 20
  let b := nibble word 16
  let c := nibble word 8
  let imm := immediateOf word
  let ram := options.ramSize
  let disk := options.diskSize
  let lastA := state.lastA
  let lastB := state.lastB
  match opcodeOf word with
  | 0x00 => some (advance state)
  | 0x01 => put state a 0
  | 0x02 => out state (reg state c)
  | 0x03 => keyboard options n state a
  | 0x04 => screen state b (reg state c)
  | 0x05 => timeLow options n state a
  | 0x06 => put state a state.timeHigh
  | 0x07 => put state a (BitVec.ofNat 32 state.pc)
  | 0x10 => out state (some imm)
  | 0x14 => screen state b (some imm)
  | 0x20 => alu state a b c fun left right => ~~~(left &&& right)
  | 0x21 => alu state a b c fun left right => left ||| right
  | 0x22 => alu state a b c fun left right => left &&& right
  | 0x23 => alu state a b c fun left right => ~~~(left ||| right)
  | 0x24 => alu state a b c fun left right => left + right
  | 0x25 => alu state a b c fun left right => left - right
  | 0x26 => alu state a b c fun left right => left ^^^ right
  | 0x27 => alu state a b c fun left right => left <<< (right &&& 31)
  | 0x28 => alu state a b c fun left right => left >>> (right &&& 31)
  | 0x29 => alu state a b c fun left right => left.sshiftRight (right &&& 31).toNat
  | 0x2A => compare state b (reg state c)
  | 0x2B => alu state a b c fun left right => left * right
  | 0x2C => alu state a b c fun left right => if right = 0 then 0 else left / right
  | 0x2D => alu state a b c fun left right => if right = 0 then 0 else left % right
  | 0x30 => aluImm state a b imm fun left right => ~~~(left &&& right)
  | 0x31 => aluImm state a b imm fun left right => left ||| right
  | 0x32 => aluImm state a b imm fun left right => left &&& right
  | 0x33 => aluImm state a b imm fun left right => ~~~(left ||| right)
  | 0x34 => aluImm state a b imm fun left right => left + right
  | 0x35 => aluImm state a b imm fun left right => left - right
  | 0x36 => aluImm state a b imm fun left right => left ^^^ right
  | 0x37 => aluImm state a b imm fun left right => left <<< (right &&& 31)
  | 0x38 => aluImm state a b imm fun left right => left >>> (right &&& 31)
  | 0x39 => aluImm state a b imm fun left right => left.sshiftRight (right &&& 31).toNat
  | 0x3A => compare state b (some imm)
  | 0x3B => aluImm state a b imm fun left right => left * right
  | 0x3C => aluImm state a b imm fun left right => if right = 0 then 0 else left / right
  | 0x3D => aluImm state a b imm fun left right => if right = 0 then 0 else left % right
  | 0x48 => jump state (reg state c)
  | 0x58 => jump state (some imm)
  | 0x51 => jumpIf state (lastA == lastB) imm
  | 0x59 => jumpIf state (lastA != lastB) imm
  | 0x52 => jumpIf state (lastA.ult lastB) imm
  | 0x5A => jumpIf state (!lastA.ult lastB) imm
  | 0x53 => jumpIf state (lastA.ule lastB) imm
  | 0x5B => jumpIf state (!lastA.ule lastB) imm
  | 0x54 => jumpIf state (lastA.slt lastB) imm
  | 0x5C => jumpIf state (!lastA.slt lastB) imm
  | 0x55 => jumpIf state (lastA.sle lastB) imm
  | 0x5D => jumpIf state (!lastA.sle lastB) imm
  | 0x60 => load state 1 ram address a (rd8 state.mem address)
  | 0x61 => load state 2 ram address a ((rd16 state.mem address).map (·.zeroExtend 32))
  | 0x62 => load state 4 ram address a (rd32 state.mem address)
  | 0x63 => load state 4 disk address a (rd32 state.disk address)
  | 0x64 => storeMem state 1 ram address b fun value => store state.mem address (value.truncate 8)
  | 0x65 => storeMem state 2 ram address b fun value => wr16 state.mem address (value.truncate 16)
  | 0x66 => storeMem state 4 ram address b (wr32 state.mem address)
  | 0x67 => storeDisk state disk address b (wr32 state.disk address)
  | 0x70 => load state 1 ram address a (rd8 state.mem address)
  | 0x71 => load state 2 ram address a ((rd16 state.mem address).map (·.zeroExtend 32))
  | 0x72 => load state 4 ram address a (rd32 state.mem address)
  | 0x73 => load state 4 disk address a (rd32 state.disk address)
  | 0x74 => storeMem state 1 ram address b fun value => store state.mem address (value.truncate 8)
  | 0x75 => storeMem state 2 ram address b fun value => wr16 state.mem address (value.truncate 16)
  | 0x76 => storeMem state 4 ram address b (wr32 state.mem address)
  | 0x77 => storeDisk state disk address b (wr32 state.disk address)
  | _ => some (.fault 3 state)

/-- `fetch`: with a partial mask only the masked bits of the counter are on the address lines. -/
def fetchAddress (options : EmuOptions) (state : EmuState) : Nat :=
  if options.ramMask = BitVec.allOnes 32 then state.pc else state.pc &&& options.ramMask.toNat

/-- One pass of the loop after the observer: the bound of the fetch is computed in 64 bits. -/
def pass (options : EmuOptions) (n : Nat) (state : EmuState) : Option Passed :=
  let fetch := fetchAddress options state
  if options.ramSize < (fetch + 4) % 2 ^ 64 then some (.cut state)
  else do
    let word ← rd32 state.mem fetch
    let address ← effective options state word
    dispatch options n state word address

structure EmuResult where
  regs : List (BitVec 32)
  mem : Option (List (BitVec 8))
  memSize : Nat
  disk : Option (List (BitVec 8))
  diskSize : Nat
  exitCode : BitVec 32
  error : Nat
  settings : List (BitVec 32)
  instructions : Nat
  stopReason : Nat

def stopReasonOf (error stopReason : Nat) : Nat :=
  if error = 0 then stopReason else if error = 1 then 2 else 3

/-- The label `done`. -/
def finish (options : EmuOptions) (state : EmuState) (error stopReason instructions : Nat)
    (exitCode : BitVec 32) : EmuResult where
  regs := state.regs
  mem := some state.mem
  memSize := options.ramSize
  disk := some state.disk
  diskSize := options.diskSize
  exitCode := exitCode
  error := error
  settings := state.settings
  instructions := instructions
  stopReason := stopReasonOf error stopReason

def halt (options : EmuOptions) (state : EmuState) (error instructions : Nat) :
    Option EmuResult :=
  (reg state 1).map (finish options state error 0 instructions)

def observed (observe : Option (EmuState → Nat → Bool)) (n : Nat) (state : EmuState) : Bool :=
  match observe with
  | none => false
  | some observe => n % 1024 == 0 && observe state n

def loop (options : EmuOptions) (observe : Option (EmuState → Nat → Bool)) (maxInstr n : Nat)
    (state : EmuState) : Option EmuResult :=
  if n < maxInstr then
    if observed observe n state then some (finish options state 0 1 n 0)
    else
      match pass options n state with
      | none => none
      | some (.running after) => loop options observe maxInstr (n + 1) after
      | some (.halted after) => halt options after 0 n
      | some (.cut after) => halt options after 2 n
      | some (.fault code after) => some (finish options after code 0 n 0)
  else
    -- the count that left the loop is one more, and wraps where the limit is the largest one
    halt options state (if maxInstr < (n + 1) % 2 ^ 64 then 1 else 0) (n - 1)
termination_by maxInstr - n

/-- The arguments of one call, and whether each `calloc` succeeds. -/
structure Run where
  binary : List (BitVec 8)
  ramSize : Nat
  maxInstr : BitVec 64
  opt : Option RunOptions
  memAllocated : Bool
  diskAllocated : Bool

def maskOf (mask : Option (BitVec 32)) : BitVec 32 :=
  match mask with
  | some mask => if mask = 0 then BitVec.allOnes 32 else mask
  | none => BitVec.allOnes 32

def Run.options (run : Run) : EmuOptions where
  ramSize := if run.ramSize < 1 then 1 else run.ramSize
  diskSize :=
    match run.opt with
    | some opt => if defaultDiskBytes < opt.diskLen then spDiskBytes else defaultDiskBytes
    | none => defaultDiskBytes
  ramMask := maskOf (run.opt.map (·.ramAddressMask))
  diskMask := maskOf (run.opt.map (·.diskAddressMask))
  events := match run.opt with
    | some opt => opt.events
    | none => []
  keyboard := run.opt.bind (·.keyboard)
  nsPerInstruction := match run.opt with
    | some opt => opt.nsPerInstruction
    | none => 0

def Run.blank (run : Run) : EmuState where
  regs := List.replicate 16 0
  settings := List.replicate 8 0
  lastA := 0
  lastB := 0
  pc := 0
  mem := List.replicate run.options.ramSize 0
  disk := List.replicate run.options.diskSize 0
  timeHigh := 0
  keyIndex := 0
  keyCalls := 0
  printed := []

inductive Setup
  | refused (result : EmuResult)
  | ready (state : EmuState)

def Run.refuse (run : Run) (state : EmuState) : Setup := .refused (finish run.options state 2 0 0 0)

def Run.setup (run : Run) : Option Setup :=
  if !run.memAllocated || !run.diskAllocated then
    let result := finish run.options run.blank 2 0 0 0
    let mem := if run.memAllocated then result.mem else none
    let disk := if run.diskAllocated then result.disk else none
    some (.refused { result with mem := mem, disk := disk })
  else if run.options.ramSize < run.binary.length then some (run.refuse run.blank)
  else do
    let mem ← memcpy run.blank.mem run.binary
    let state := { run.blank with mem := mem }
    match run.opt with
    | none => return .ready state
    | some opt =>
        if opt.diskLen = 0 then return .ready state
        match opt.disk with
        | none => return run.refuse state
        | some image =>
            if spDiskBytes < opt.diskLen then return run.refuse state
            let disk ← memcpy state.disk image
            return .ready { state with disk := disk }

def Run.emuRunEx (run : Run) : Option EmuResult := do
  match ← run.setup with
  | .refused result => return result
  | .ready state =>
      loop run.options (run.opt.bind (·.observe)) run.maxInstr.toNat 0 state

end SymphonyPlus.EmuRun
