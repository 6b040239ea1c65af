import SymphonyPlus.Exec

/-!
The process table and the dispatcher of `kernel/symplus/process.c`. One call of
`dispatch` is one entry of `sp_dispatch` with the keyboard events and clock values
that its polls see.
-/

namespace SymphonyPlus

open ByteMemory Function

section Process

variable {S : Type}

/-- `activate`: the window of a live slot is saved before another slot's is loaded. -/
def activate (k : Kernel S) (slot : Nat) : Kernel S :=
  if slot = k.active then { k with current := (k.task slot).getD slot }
  else
    let saved :=
      if 0 < k.active ∧ k.occupied k.active ∧ (k.taskOf k.active).state ≠ .zombie then
        update k.snapshots k.active k.window
      else k.snapshots
    { k with
      snapshots := saved
      window := saved slot
      active := slot
      current := (k.task slot).getD slot }

def descendantFrom (k : Kernel S) (root : BitVec 32) : Nat → BitVec 32 → Bool
  | 0, _ => false
  | depth + 1, pid =>
      if (1 : BitVec 32).slt pid then
        if pid = root then true
        else
          match slots.find? (fun i => k.occupied i && (k.taskOf i).pid = pid) with
          | none => false
          | some i => descendantFrom k root depth (k.taskOf i).father
      else false

def descendant (k : Kernel S) (slot : Nat) (root : BitVec 32) : Bool :=
  descendantFrom k root 9 (k.taskOf slot).pid

def terminalInterrupt (k : Kernel S) : Kernel S :=
  { k with
    terminal := { k.terminal with tail := k.terminal.head }
    interrupted := fun i =>
      if i ∈ slots ∧ k.occupied i ∧ k.foregroundPid ≠ 0 ∧ descendant k i k.foregroundPid then true
      else k.interrupted i
    cancelRead := fun i =>
      if i ∈ slots ∧ k.occupied i ∧ k.foregroundPid = 0 ∧ (k.taskOf i).pid = k.foregroundOwner then
        true
      else k.cancelRead i }

/-- What one poll reads: a keyboard event and the two halves of the clock. -/
structure Poll where
  event : BitVec 32
  low : BitVec 32
  high : BitVec 32

def modifier (bits : BitVec 32) (bit : BitVec 32) (pressed : Bool) : BitVec 32 :=
  if pressed then bits ||| bit else bits &&& ~~~bit

def keyEvent (k : Kernel S) (event : BitVec 32) : Kernel S :=
  let key := event &&& 255
  let pressed : Bool := event &&& 256 ≠ 0
  if key = 17 ∨ key = 21 then
    { k with terminal := { k.terminal with
      control := modifier k.terminal.control (if key = 17 then 1 else 2) pressed } }
  else if key = 16 ∨ key = 20 then
    { k with terminal := { k.terminal with
      shift := modifier k.terminal.shift (if key = 16 then 1 else 2) pressed } }
  else if pressed ∧ (key = 3 ∨ (k.terminal.control ≠ 0 ∧ (key = 67 ∨ key = 99))) then
    terminalInterrupt k
  else if pressed ∧ k.terminal.control = 0 then
    { k with terminal := k.terminal.type (keyChar k.terminal.shift (key.truncate 8)) }
  else k

def pollIo (k : Kernel S) (poll : Poll) : Kernel S :=
  let k := keyEvent k poll.event
  { k with clock := k.clock.poll poll.low poll.high }

def ttyReadUser (k : Kernel S) (buf count : BitVec 32) : BitVec 32 × Kernel S :=
  if k.cancelRead k.active then
    (-EINTR, { k with cancelRead := update k.cancelRead k.active false })
  else if count = 0 then (0, k)
  else if !lineReady k.terminal then (-EAGAIN, k)
  else
    let taken := takeInput k.terminal count.toNat k.terminal.tail
    (BitVec.ofNat 32 taken.1.length,
      { k with
        terminal := { k.terminal with tail := taken.2 }
        window := writeBytes k.window buf.toNat taken.1 })

def shareFiles (fileSystem : FileSystem S) (fs : S) (files : Files) : S :=
  let opened := (List.range NR_OPEN).filterMap files.filp
  let inodes := [files.pwd, files.root, files.executable].filterMap id
  inodes.foldl fileSystem.shareInode (opened.foldl fileSystem.shareFile fs)

def freeSlot (k : Kernel S) : Option Nat := slots.find? fun slot => !k.occupied slot

def forkInto (fileSystem : FileSystem S) (k : Kernel S) (slot : Nat) : Kernel S :=
  let pid := k.nextPid + 1
  let child := { k.currentTask with
    pid := pid, father := k.currentTask.pid, state := .running, exitCode := 0 }
  { k with
    process := update k.process slot child
    nextPid := pid
    contexts := update k.contexts slot ((k.contexts k.active).setReg 1 0)
    snapshots := update k.snapshots slot k.window
    fs := shareFiles fileSystem k.fs child.files
    task := update k.task slot (some slot)
    occupied := update k.occupied slot true
    pending := update k.pending slot 0
    interrupted := update k.interrupted slot false
    deferred := update k.deferred slot false
    cancelRead := update k.cancelRead slot false
    history := .forked k.currentTask.pid pid slot :: k.history }

def forkCurrent (fileSystem : FileSystem S) (k : Kernel S) : BitVec 32 × Kernel S :=
  if k.deferred k.active ∧ k.interrupted k.active then (-EINTR, k)
  else
    match freeSlot k with
    | none => (-EAGAIN, k)
    | some slot => (k.nextPid + 1, forkInto fileSystem k slot)

def closeOpen (fileSystem : FileSystem S) (state : S × Files) (i : Nat) : S × Files :=
  if (state.2.filp i).isSome then
    let closed := sysClose fileSystem state.1 state.2 (BitVec.ofNat 32 i)
    (closed.fs, closed.files)
  else state

def closeAll (fileSystem : FileSystem S) (fs : S) (files : Files) : S × Files :=
  (List.range NR_OPEN).foldl (closeOpen fileSystem) (fs, files)

def releaseFiles (fileSystem : FileSystem S) (fs : S) (files : Files) : S × Files :=
  let closed := closeAll fileSystem fs files
  let inodes := [closed.2.pwd, closed.2.root, closed.2.executable].filterMap id
  (inodes.foldl fileSystem.iput closed.1,
    { closed.2 with pwd := none, root := none, executable := none })

/-- Children of an exiting process go to process 1. -/
def adopt (k : Kernel S) (pid : BitVec 32) : Nat → Task := fun index =>
  if (slots.any fun i => k.occupied i && (k.task i).getD i = index) ∧
      (k.process index).father = pid then
    { k.process index with father := 1 }
  else k.process index

def exitCurrent (fileSystem : FileSystem S) (k : Kernel S) (code : BitVec 32) : Kernel S :=
  let released := releaseFiles fileSystem k.fs k.currentTask.files
  let k := k.setFiles released.1 released.2
  let k := k.setCurrent { k.currentTask with
    exitCode := (code &&& 255) <<< 8, state := .zombie }
  { k with process := adopt k k.currentTask.pid }

def recordExit (k : Kernel S) (code : Option (BitVec 32)) : Kernel S :=
  { k with history := .exited k.currentTask.pid k.active code :: k.history }

/-- An interrupted process exits with status 2. -/
def exitInterrupted (fileSystem : FileSystem S) (k : Kernel S) : Kernel S :=
  let k := exitCurrent fileSystem k 0
  recordExit (k.setCurrent { k.currentTask with exitCode := 2 }) none

def waitMatches (k : Kernel S) (pid : BitVec 32) (i : Nat) : Bool :=
  k.occupied i && (k.task i).getD i ≠ k.current && (k.taskOf i).father = k.currentTask.pid &&
    (pid = -1 || pid = (k.taskOf i).pid)

/-- A zombie child is handed over: its status is stored and its slot is free. -/
def reapSlot (k : Kernel S) (i : Nat) (status : BitVec 32) : Kernel S :=
  let child := k.taskOf i
  { k with
    window := if status ≠ 0 then write32 k.window status.toNat child.exitCode else k.window
    occupied := update k.occupied i false
    task := update k.task i none
    pending := update k.pending i 0
    history := .reaped child.pid i child.exitCode k.currentTask.pid :: k.history }

def waitCurrent (k : Kernel S) (pid status options : BitVec 32) : BitVec 32 × Kernel S :=
  if pid ≠ -1 ∧ pid.sle 0 then (-EINVAL, k)
  else if options &&& ~~~1 ≠ 0 then (-EINVAL, k)
  else
    match slots.find? fun i => waitMatches k pid i && (k.taskOf i).state = .zombie with
    | some i => ((k.taskOf i).pid, reapSlot k i status)
    | none =>
        if slots.any (waitMatches k pid) then
          (if options &&& 1 ≠ 0 then 0 else -EAGAIN, k)
        else (-ECHILD, k)

def waitReady (k : Kernel S) (slot : Nat) : Bool :=
  let matching := fun i => k.occupied i && (k.taskOf i).father = (k.taskOf slot).pid &&
    (k.arg1 slot = -1 || k.arg1 slot = (k.taskOf i).pid)
  slots.any (fun i => matching i && (k.taskOf i).state = .zombie) || !slots.any matching

/-! System calls. -/

def fsCall (k : Kernel S) (call : CallResult S) : BitVec 32 × Kernel S :=
  (call.result, k.setFiles call.fs call.files)

def fillCall (k : Kernel S) (address : BitVec 32) {count : Nat} (call : FillResult S count) :
    BitVec 32 × Kernel S :=
  (call.result, { k.setFiles call.fs call.files with
    window := writeBytes k.window address.toNat call.data })

def pathCall (k : Kernel S) (address : BitVec 32) (call : List (BitVec 8) → CallResult S) :
    BitVec 32 × Kernel S :=
  match userString k.window address with
  | none => (-EFAULT, k)
  | some path => fsCall k (call path)

def performRead (fileSystem : FileSystem S) (k : Kernel S) (a b c : BitVec 32) :
    BitVec 32 × Kernel S :=
  if !userRange b c then (-EFAULT, k)
  else
    match if NR_OPEN ≤ a.toNat then none else k.currentTask.files.filp a.toNat with
    | none => (-EBADF, k)
    | some file =>
        if isCharacter (fileSystem.mode k.fs file) then ttyReadUser k b c
        else fillCall k b (fileSystem.read k.fs k.currentTask.files a c.toNat)

def performExec (fileSystem : FileSystem S) (k : Kernel S) (a b c : BitVec 32) :
    BitVec 32 × Kernel S :=
  match userString k.window a with
  | none => (-EFAULT, k)
  | some path =>
      match spExecve fileSystem path b c k.window k.fs k.currentTask.files with
      | .failed result fs files => (result, k.setFiles fs files)
      | .loaded fs files window context endData startStack =>
          let k := k.setFiles fs files
          (execSentinel, { k.setCurrent { k.currentTask with
              endData := endData, brk := endData, startStack := startStack } with
            window := window
            contexts := update k.contexts k.active context })

def performBreak (k : Kernel S) (a : BitVec 32) : BitVec 32 × Kernel S :=
  let task := k.currentTask
  if task.endData.ule a ∧ a.ule task.startStack then (a, k.setCurrent { task with brk := a })
  else (task.brk, k)

def performForeground (k : Kernel S) (a : BitVec 32) : BitVec 32 × Kernel S :=
  if a ≠ 0 ∧ !slots.any (fun i => k.occupied i && (k.taskOf i).pid = a &&
      (k.taskOf i).father = k.currentTask.pid) then (-ECHILD, k)
  else
    let k := { k with foregroundOwner := k.currentTask.pid, foregroundPid := a }
    if a ≠ 0 ∧ k.cancelRead k.active then
      (0, { k with
        cancelRead := update k.cancelRead k.active false
        interrupted := fun i =>
          if i ∈ slots ∧ k.occupied i ∧ descendant k i a then true else k.interrupted i })
    else (0, k)

def flag (value : Bool) : BitVec 32 := if value then 1 else 0

/-- `perform`; the context argument is always that of the active slot. -/
def perform (fileSystem : FileSystem S) (k : Kernel S) (nr a b c : BitVec 32) :
    BitVec 32 × Kernel S :=
  let files := k.currentTask.files
  match nr.toNat with
  | 1 => (0, recordExit (exitCurrent fileSystem k a) (some a))
  | 2 => forkCurrent fileSystem k
  | 3 => performRead fileSystem k a b c
  | 4 =>
      if !userRange b c then (-EFAULT, k)
      else fsCall k (fileSystem.write k.fs files a (windowBytes k.window b c))
  | 5 => pathCall k a fun path => fileSystem.sysOpen k.fs files path b c
  | 6 => fsCall k (sysClose fileSystem k.fs files a)
  | 7 => if b ≠ 0 ∧ !userRange b 4 then (-EFAULT, k) else waitCurrent k a b c
  | 10 => pathCall k a fun path => fileSystem.path .unlink k.fs files path 0
  | 11 => performExec fileSystem k a b c
  | 12 => pathCall k a fun path => fileSystem.path .chdir k.fs files path 0
  | 15 => pathCall k a fun path => fileSystem.path .chmod k.fs files path b
  | 18 =>
      match userString k.window a with
      | none => (-EFAULT, k)
      | some path =>
          if !userRange b statSize then (-EFAULT, k)
          else fillCall k b (fileSystem.stat k.fs files path)
  | 19 => fsCall k (fileSystem.descriptor .lseek k.fs files a b c)
  | 20 => (k.currentTask.pid, k)
  | 28 =>
      if !userRange b statSize then (-EFAULT, k)
      else fillCall k b (fileSystem.fstat k.fs files a)
  | 36 => fsCall k (fileSystem.descriptor .sync k.fs files 0 0 0)
  | 38 =>
      if k.deferred k.active ∧ k.interrupted k.active then (-EINTR, k)
      else
        match userString k.window a, userString k.window b with
        | some source, some target => fsCall k (fileSystem.rename k.fs files source target)
        | _, _ => (-EFAULT, k)
  | 39 => pathCall k a fun path => fileSystem.path .mkdir k.fs files path b
  | 40 => pathCall k a fun path => fileSystem.path .rmdir k.fs files path 0
  | 41 => fsCall k (fileSystem.descriptor .dup k.fs files a 0 0)
  | 45 => performBreak k a
  | 63 => fsCall k (fileSystem.descriptor .dup2 k.fs files a b 0)
  | 64 => (k.currentTask.father, k)
  | 100 => (0, k)
  | 101 => (0, k)
  | 102 => (0, k)
  | 103 => performForeground k a
  | 104 =>
      let k := if a ≠ 0 then { k with deferred := update k.deferred k.active true } else k
      (flag (k.interrupted k.active), k)
  | 105 => (flag (k.cancelRead k.active), { k with
      cancelRead := update k.cancelRead k.active false })
  | _ => (-ENOSYS, k)

/-! The dispatcher. -/

def setResult (k : Kernel S) (slot : Nat) (result : BitVec 32) : Kernel S :=
  { k with contexts := update k.contexts slot ((k.contexts slot).setReg 1 result) }

def blockActive (k : Kernel S) (nr a b c : BitVec 32) : Kernel S :=
  let k := { k with
    pending := update k.pending k.active nr
    arg1 := update k.arg1 k.active a
    arg2 := update k.arg2 k.active b
    arg3 := update k.arg3 k.active c }
  k.setCurrent { k.currentTask with state := .interruptible }

def callActive (fileSystem : FileSystem S) (k : Kernel S) (nr a b c : BitVec 32) : Kernel S :=
  let performed :=
    if k.interrupted k.active ∧ !k.deferred k.active then (0, exitInterrupted fileSystem k)
    else perform fileSystem k nr a b c
  if performed.1 = -EAGAIN ∧ (nr = 3 ∨ nr = 7) then blockActive performed.2 nr a b c
  else if performed.1 ≠ execSentinel then
    setResult performed.2 performed.2.active performed.1
  else performed.2

def cleanupSlot (fileSystem : FileSystem S) (k : Kernel S) (slot : Nat) : Kernel S :=
  if k.occupied slot ∧ k.interrupted slot ∧ !k.deferred slot ∧ (k.taskOf slot).state ≠ .zombie then
    let k := activate k slot
    exitInterrupted fileSystem { k with pending := update k.pending slot 0 }
  else k

def resumeCurrent (k : Kernel S) (slot : Nat) (result : BitVec 32) : Kernel S :=
  let k := setResult k slot result
  let k := { k with pending := update k.pending slot 0 }
  k.setCurrent { k.currentTask with state := .running }

def retryReady (k : Kernel S) (slot : Nat) : Bool :=
  k.occupied slot && k.pending slot ≠ 0 &&
    !(k.pending slot = 3 && !lineReady k.terminal && !k.cancelRead slot) &&
    !(k.pending slot = 7 && !waitReady k slot)

def retrySlot (fileSystem : FileSystem S) (k : Kernel S) (slot : Nat) : Kernel S :=
  if retryReady k slot then
    let k := activate k slot
    let performed :=
      perform fileSystem k (k.pending slot) (k.arg1 slot) (k.arg2 slot) (k.arg3 slot)
    if performed.1 ≠ -EAGAIN then resumeCurrent performed.2 slot performed.1 else performed.2
  else k

def runnable (k : Kernel S) (slot : Nat) : Bool :=
  k.occupied slot && (k.taskOf slot).state = .running

def chooseSlot (k : Kernel S) (nr : BitVec 32) : Option Nat :=
  if nr ≠ 101 ∧ runnable k k.active then some k.active
  else (slots.map fun slot => (k.active - 1 + slot) % 8 + 1).find? (runnable k)

def servePass (fileSystem : FileSystem S) (k : Kernel S) : Kernel S :=
  slots.foldl (retrySlot fileSystem) (slots.foldl (cleanupSlot fileSystem) k)

/-- The loop of `sp_dispatch`; it goes on while no process can run. -/
def dispatchLoop (fileSystem : FileSystem S) (nr : BitVec 32) :
    List Poll → Kernel S → Option (Nat × Kernel S)
  | polls, k =>
      let k := servePass fileSystem k
      match chooseSlot k nr with
      | some chosen => some (chosen, activate k chosen)
      | none =>
          match polls with
          | [] => none
          | poll :: polls => dispatchLoop fileSystem nr polls (pollIo k poll)

def saveContext (k : Kernel S) (saved : Context) : Kernel S :=
  { k with
    contexts := update k.contexts k.active saved
    history := .noted { pid := k.currentTask.pid, window := k.window, saved } :: k.history }

/-- `sp_dispatch`: the index of the context that is returned, and the state then. -/
def dispatch (fileSystem : FileSystem S) (k : Kernel S) (saved : Context) (poll : Poll)
    (polls : List Poll) : Option (Nat × Kernel S) :=
  let nr := saved.regs 1
  let k := pollIo (saveContext k saved) poll
  let k := callActive fileSystem k nr (saved.regs 2) (saved.regs 3) (saved.regs 4)
  dispatchLoop fileSystem nr polls k

def emptyContext : Context := { regs := fun _ => 0, pc := 0 }

def emptyTask : Task :=
  { pid := 0, father := 0, state := .running, exitCode := 0, endData := 0, brk := 0,
    startStack := 0,
    files := { filp := fun _ => none, pwd := none, root := none, executable := none,
               closeOnExec := 0 } }

/-- `sp_boot` from the statically initialised variables, if `/bin/init` can be loaded. -/
def spBoot (fileSystem : FileSystem S) (fs : S) (files : Files) (window : Memory)
    (snapshots : Nat → Memory) : Option (Kernel S) :=
  let mounted := fileSystem.mountRoot fs files
  let initPath := "/bin/init".toList.map fun c => BitVec.ofNat 8 c.toNat
  match spExecve fileSystem initPath 0 0 window mounted.1 mounted.2 with
  | .failed _ _ _ => none
  | .loaded fs files window context endData startStack =>
      let init : Task :=
        { pid := 1, father := 0, state := .running, exitCode := 0, endData,
          brk := endData, startStack, files }
      some {
        process := fun slot => if slot = 1 then init else emptyTask
        task := fun slot => if slot = 1 then some 1 else none
        current := 1
        contexts := fun slot => if slot = 1 then context else emptyContext
        occupied := fun slot => slot = 1
        pending := fun _ => 0
        arg1 := fun _ => 0
        arg2 := fun _ => 0
        arg3 := fun _ => 0
        active := 1
        nextPid := 1
        terminal := { input := fun _ => 0, head := 0, tail := 0, shift := 0, control := 0 }
        foregroundPid := 0
        foregroundOwner := 0
        interrupted := fun _ => false
        deferred := fun _ => false
        cancelRead := fun _ => false
        clock := { lastLow := 0, lastHigh := 0, remainder := 0, ready := false, jiffies := 0 }
        window
        snapshots
        fs
        history := [] }

end Process

end SymphonyPlus
