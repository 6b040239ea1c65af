import SymphonyPlus.Machine
import SymphonyPlus.ProcessHistory
import Mathlib.Logic.Function.Basic

/-!
The kernel state of `kernel/symplus/process.c`, the user window and the terminal.
The file system is a parameter: its calls see and change file-system state and
the current task's file fields only.
-/

namespace SymphonyPlus

open ByteMemory

def SP_USER_BASE : BitVec 32 := 0x200000
def SP_USER_SIZE : BitVec 32 := 0x200000
def NR_OPEN : Nat := 20
def statSize : BitVec 32 := 32
def execSentinel : BitVec 32 := 0x70000000

def EINTR : BitVec 32 := 4
def E2BIG : BitVec 32 := 7
def ENOEXEC : BitVec 32 := 8
def EBADF : BitVec 32 := 9
def ECHILD : BitVec 32 := 10
def EAGAIN : BitVec 32 := 11
def EACCES : BitVec 32 := 13
def EFAULT : BitVec 32 := 14
def EINVAL : BitVec 32 := 22
def ENAMETOOLONG : BitVec 32 := 36
def ENOSYS : BitVec 32 := 38

structure Context where
  regs : Fin 16 → BitVec 32
  pc : BitVec 32

def Context.setReg (context : Context) (index : Fin 16) (value : BitVec 32) : Context :=
  { context with regs := Function.update context.regs index value }

/-- The file fields of `task_struct`; files and inodes are indices of the kernel's tables. -/
structure Files where
  filp : Nat → Option Nat
  pwd : Option Nat
  root : Option Nat
  executable : Option Nat
  closeOnExec : BitVec 32

inductive TaskState
  | running | interruptible | zombie
  deriving DecidableEq, Repr

def TaskState.number : TaskState → BitVec 32
  | .running => 0
  | .interruptible => 1
  | .zombie => 3

structure Task where
  pid : BitVec 32
  father : BitVec 32
  state : TaskState
  exitCode : BitVec 32
  endData : BitVec 32
  brk : BitVec 32
  startStack : BitVec 32
  files : Files

inductive PathCall
  | unlink | chdir | chmod | mkdir | rmdir
  deriving DecidableEq, Repr

inductive DescriptorCall
  | lseek | dup | dup2 | sync
  deriving DecidableEq, Repr

structure CallResult (S : Type) where
  result : BitVec 32
  fs : S
  files : Files

structure FillResult (S : Type) (count : Nat) extends CallResult S where
  data : List (BitVec 8)
  bounded : data.length ≤ count

structure FileSystem (S : Type) where
  mode : S → Nat → BitVec 32
  shareFile : S → Nat → S
  shareInode : S → Nat → S
  closeFile : S → Nat → S
  iput : S → Nat → S
  mountRoot : S → Files → S × Files
  sysOpen : S → Files → List (BitVec 8) → BitVec 32 → BitVec 32 → CallResult S
  path : PathCall → S → Files → List (BitVec 8) → BitVec 32 → CallResult S
  rename : S → Files → List (BitVec 8) → List (BitVec 8) → CallResult S
  descriptor : DescriptorCall → S → Files → BitVec 32 → BitVec 32 → BitVec 32 → CallResult S
  write : S → Files → BitVec 32 → List (BitVec 8) → CallResult S
  read : S → Files → BitVec 32 → (count : Nat) → FillResult S count
  stat : S → Files → List (BitVec 8) → FillResult S statSize.toNat
  fstat : S → Files → BitVec 32 → FillResult S statSize.toNat

structure Terminal where
  input : Nat → BitVec 8
  head : BitVec 32
  tail : BitVec 32
  shift : BitVec 32
  control : BitVec 32

structure Clock where
  lastLow : BitVec 32
  lastHigh : BitVec 32
  remainder : BitVec 32
  ready : Bool
  jiffies : BitVec 32

/-- The window and the registers with which a process entered the dispatcher. -/
structure Entry where
  pid : BitVec 32
  window : Memory
  saved : Context

/-- What happened to processes. An exit has no code when the process was interrupted. -/
abbrev Event :=
  ProcessHistory.Event (BitVec 32) Nat (Option (BitVec 32)) (BitVec 32) Entry

/-- Pointers to tasks are indices of `process`. `window` is the memory of the user window and
`snapshots` that of each slot's snapshot, by window address. No function reads `history`,
which has the newest event first. -/
structure Kernel (S : Type) where
  process : Nat → Task
  task : Nat → Option Nat
  current : Nat
  contexts : Nat → Context
  occupied : Nat → Bool
  pending : Nat → BitVec 32
  arg1 : Nat → BitVec 32
  arg2 : Nat → BitVec 32
  arg3 : Nat → BitVec 32
  active : Nat
  nextPid : BitVec 32
  terminal : Terminal
  foregroundPid : BitVec 32
  foregroundOwner : BitVec 32
  interrupted : Nat → Bool
  deferred : Nat → Bool
  cancelRead : Nat → Bool
  clock : Clock
  window : Memory
  snapshots : Nat → Memory
  fs : S
  history : List Event

section Kernel

variable {S : Type}

def Kernel.currentTask (k : Kernel S) : Task := k.process k.current

/-- `*task[slot]`. A null pointer is never read. -/
def Kernel.taskOf (k : Kernel S) (slot : Nat) : Task := k.process ((k.task slot).getD slot)

def Kernel.setCurrent (k : Kernel S) (task : Task) : Kernel S :=
  { k with process := Function.update k.process k.current task }

def Kernel.setFiles (k : Kernel S) (fs : S) (files : Files) : Kernel S :=
  { k.setCurrent { k.currentTask with files := files } with fs := fs }

def slots : List Nat := [1, 2, 3, 4, 5, 6, 7, 8]

end Kernel

/-! The user window. -/

def userRange (address length : BitVec 32) : Bool :=
  SP_USER_BASE.ule address && address.ule (SP_USER_BASE + SP_USER_SIZE) &&
    length.ule (SP_USER_BASE + SP_USER_SIZE - address)

def stringFrom (window : Memory) : Nat → BitVec 32 → Option (List (BitVec 8))
  | 0, _ => none
  | fuel + 1, address =>
      if !userRange address 1 then none
      else if window address.toNat = 0 then some []
      else (stringFrom window fuel (address + 1)).map (window address.toNat :: ·)

/-- `user_string`: the string, if its end lies within 4096 bytes of the window. -/
def userString (window : Memory) (address : BitVec 32) : Option (List (BitVec 8)) :=
  stringFrom window 4096 address

def windowBytes (window : Memory) (address length : BitVec 32) : List (BitVec 8) :=
  (List.range length.toNat).map fun i => window (address.toNat + i)

/-! The terminal. -/

def ringIndex (position : BitVec 32) : Nat := (position &&& 1023).toNat

def lineFrom (terminal : Terminal) : Nat → BitVec 32 → Bool
  | 0, _ => false
  | fuel + 1, position =>
      if position.ult terminal.head then
        terminal.input (ringIndex position) = 10 || lineFrom terminal fuel (position + 1)
      else false

def lineReady (terminal : Terminal) : Bool :=
  lineFrom terminal (terminal.head - terminal.tail).toNat terminal.tail

def takeInput (terminal : Terminal) : Nat → BitVec 32 → List (BitVec 8) × BitVec 32
  | 0, tail => ([], tail)
  | count + 1, tail =>
      if tail.ult terminal.head then
        let c := terminal.input (ringIndex tail)
        if c = 10 then ([c], tail + 1)
        else
          let rest := takeInput terminal count (tail + 1)
          (c :: rest.1, rest.2)
      else ([], tail)

theorem takeInput_length (terminal : Terminal) (count : Nat) (tail : BitVec 32) :
    (takeInput terminal count tail).1.length ≤ count := by
  induction count generalizing tail with
  | zero => exact Nat.le_refl 0
  | succ count ih =>
      unfold takeInput
      split
      · dsimp only
        split
        · exact Nat.succ_le_succ (Nat.zero_le count)
        · exact Nat.succ_le_succ (ih (tail + 1))
      · exact Nat.zero_le _

def plainKeys : List Char := "`1234567890-=[]\\;',./".toList
def shiftedKeys : List Char := "~!@#$%^&*()_+\x7b\x7d|:\"<>?".toList

def shiftedKey (key : BitVec 8) : BitVec 8 :=
  match (plainKeys.zip shiftedKeys).find? (fun pair => BitVec.ofNat 8 pair.1.toNat = key) with
  | some pair => BitVec.ofNat 8 pair.2.toNat
  | none => key

def keyChar (shift : BitVec 32) (key : BitVec 8) : BitVec 8 :=
  if key = 13 then 8
  else if 65 ≤ key.toNat ∧ key.toNat ≤ 90 then if shift ≠ 0 then key else key + 32
  else if 97 ≤ key.toNat ∧ key.toNat ≤ 122 then if shift ≠ 0 then key - 32 else key
  else if shift ≠ 0 then shiftedKey key
  else key

def Terminal.type (terminal : Terminal) (c : BitVec 8) : Terminal :=
  if c = 8 ∨ c = 127 then
    if terminal.tail.ult terminal.head ∧ terminal.input (ringIndex (terminal.head - 1)) ≠ 10 then
      { terminal with head := terminal.head - 1 }
    else terminal
  else if c = 10 ∨ (32 ≤ c.toNat ∧ c.toNat < 127) then
    if (terminal.head - terminal.tail).ult 1022 ∨
        (c = 10 ∧ (terminal.head - terminal.tail).ult 1023) then
      { terminal with
        input := Function.update terminal.input (ringIndex terminal.head) c
        head := terminal.head + 1 }
    else terminal
  else terminal

/-! The tick counter of `kernel/symplus/tick.c`. -/

def tickLength : BitVec 32 := 10000000

def divideStep (word : BitVec 32) (state : BitVec 32 × BitVec 32) (bit : Nat) :
    BitVec 32 × BitVec 32 :=
  let remainder := state.2 * 2 + ((word >>> bit) &&& 1)
  if tickLength.ule remainder then (state.1 <<< 1 ||| 1, remainder - tickLength)
  else (state.1 <<< 1, remainder)

/-- `sp_tick_elapsed`: the ticks and the remainder saved for the next call. -/
def tickElapsed (oldLow oldHigh low high saved : BitVec 32) : BitVec 32 × BitVec 32 :=
  let lo := low - oldLow
  let hi := high - oldHigh - (if low.ult oldLow then 1 else 0)
  let bits := (List.range 32).reverse
  let divided :=
    if hi = 0 then (lo / tickLength, lo % tickLength)
    else
      let upper := bits.foldl (divideStep hi) (0, 0)
      bits.foldl (divideStep lo) (0, upper.2)
  let remainder := divided.2 + saved
  if tickLength.ule remainder then (divided.1 + 1, remainder - tickLength)
  else (divided.1, remainder)

def Clock.poll (clock : Clock) (low high : BitVec 32) : Clock :=
  let lastLow := if clock.ready then clock.lastLow else low
  let lastHigh := if clock.ready then clock.lastHigh else high
  let elapsed := tickElapsed lastLow lastHigh low high clock.remainder
  { lastLow := low, lastHigh := high, remainder := elapsed.2, ready := true,
    jiffies := clock.jiffies + elapsed.1 }

end SymphonyPlus
