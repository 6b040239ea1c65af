import SymphonyPlus.Kernel

/-!
`sys_close` and the program loader of `fs/symexec.c`. The staging areas are
values here: nothing is written to the window before the commit point.
-/

namespace SymphonyPlus

open ByteMemory

section Exec

variable {S : Type}

def sysClose (fileSystem : FileSystem S) (fs : S) (files : Files) (fd : BitVec 32) :
    CallResult S :=
  if NR_OPEN ≤ fd.toNat then { result := -EINVAL, fs, files }
  else
    let cleared :=
      { files with closeOnExec := files.closeOnExec &&& ~~~((1 : BitVec 32) <<< fd.toNat) }
    match files.filp fd.toNat with
    | none => { result := -EINVAL, fs, files := cleared }
    | some file =>
        { result := 0, fs := fileSystem.closeFile fs file,
          files := { cleared with filp := Function.update files.filp fd.toNat none } }

def copyString (window : Memory) : Nat → BitVec 32 → Except (BitVec 32) (List (BitVec 8))
  | 0, _ => .error (-E2BIG)
  | fuel + 1, address =>
      if !userRange address 1 then .error (-EFAULT)
      else if window address.toNat = 0 then .ok [0]
      else do
        let rest ← copyString window fuel (address + 1)
        return window address.toNat :: rest

/-- The pointers of a vector from entry `32 - remaining` on: the offset of each string. -/
def copyEntries (window : Memory) (list : BitVec 32) :
    Nat → List (BitVec 8) → Except (BitVec 32) (List Nat × List (BitVec 8))
  | remaining, strings =>
      let entry := list + BitVec.ofNat 32 (4 * (32 - remaining))
      if !userRange entry 4 then .error (-EFAULT)
      else
        let s := read32 window entry.toNat
        if s = 0 then .ok ([], strings)
        else
          match remaining with
          | 0 => .error (-E2BIG)
          | remaining + 1 => do
              let copied ← copyString window (8192 - strings.length) s
              let rest ← copyEntries window list remaining (strings ++ copied)
              return (strings.length :: rest.1, rest.2)

def copyVector (window : Memory) (list : BitVec 32) (strings : List (BitVec 8)) :
    Except (BitVec 32) (List Nat × List (BitVec 8)) :=
  if list = 0 then .ok ([], strings) else copyEntries window list 32 strings

def get32 (stage : Memory) (offset : Nat) : BitVec 32 := read32 stage offset

def loadImage (fileSystem : FileSystem S) (fd loaded : BitVec 32) :
    Nat → BitVec 32 → S → Files → Memory → Bool × S × Files × Memory
  | 0, _, fs, files, stage => (true, fs, files, stage)
  | fuel + 1, n, fs, files, stage =>
      if n.ult loaded then
        let got := fileSystem.read fs files fd (loaded - n).toNat
        if got.result.sle 0 then (false, got.fs, got.files, stage)
        else loadImage fileSystem fd loaded fuel (n + got.result) got.fs got.files
          (writeBytes stage n.toNat got.data)
      else (true, fs, files, stage)

inductive ExecOutcome (S : Type)
  | failed (result : BitVec 32) (fs : S) (files : Files)
  | loaded (fs : S) (files : Files) (window : Memory) (context : Context)
      (endData startStack : BitVec 32)

def roundUp (address : BitVec 32) : BitVec 32 := (address + 3) &&& ~~~3

def validHeader (stage : Memory) : Bool :=
  let entry := get32 stage 8
  let loaded := get32 stage 12
  let bss := get32 stage 16
  let stack := get32 stage 20
  get32 stage 0 = 0x53505831 && get32 stage 4 = 1 && get32 stage 24 = 0 &&
    loaded ≠ 0 && entry.ult loaded && entry &&& 3 = 0 && !stack.ult 16384 &&
    stack.ule SP_USER_SIZE && loaded.ule (SP_USER_SIZE - stack) &&
    bss.ule (SP_USER_SIZE - stack - loaded) &&
    (roundUp (loaded + bss)).ule (SP_USER_SIZE - stack)

def writeVector (memory : Memory) (address base : BitVec 32) (offsets : List Nat) : Memory :=
  writeBytes memory address.toNat
    ((offsets.map fun offset => base + BitVec.ofNat 32 offset) ++ [0] |>.flatMap wordBytes)

def buildWindow (stage : Memory) (loaded : BitVec 32) (argv envp : List Nat)
    (strings : List (BitVec 8)) : Memory × BitVec 32 :=
  let image := windowBytes stage 0 loaded
  let window := writeBytes (fun _ => 0) SP_USER_BASE.toNat image
  let n := SP_USER_BASE + SP_USER_SIZE - BitVec.ofNat 32 strings.length
  let window := writeBytes window n.toNat strings
  let envpAddr := (n &&& ~~~3) - BitVec.ofNat 32 (4 * (envp.length + 1))
  let window := writeVector window envpAddr n envp
  let argvAddr := envpAddr - BitVec.ofNat 32 (4 * (argv.length + 1))
  let window := writeVector window argvAddr n argv
  let sp := argvAddr - 12
  let window := writeBytes window sp.toNat
    ([BitVec.ofNat 32 argv.length, argvAddr, envpAddr].flatMap wordBytes)
  (window, sp)

def closeOnExecFiles (fileSystem : FileSystem S) (fs : S) (files : Files) : S × Files :=
  (List.range NR_OPEN).foldl
    (fun state i =>
      if state.2.closeOnExec &&& ((1 : BitVec 32) <<< i) ≠ 0 then
        let closed := sysClose fileSystem state.1 state.2 (BitVec.ofNat 32 i)
        (closed.fs, closed.files)
      else state)
    (fs, files)

def fileMode (fileSystem : FileSystem S) (fs : S) (files : Files) (fd : BitVec 32) : BitVec 32 :=
  match files.filp fd.toNat with
  | some file => fileSystem.mode fs file
  | none => 0

def isRegular (mode : BitVec 32) : Bool := mode &&& 0o170000 = 0o100000

def isCharacter (mode : BitVec 32) : Bool := mode &&& 0o170000 = 0o020000

/-- The part of `sp_execve` after the argument vectors are staged. -/
def execFile (fileSystem : FileSystem S) (path : List (BitVec 8)) (argv envp : List Nat)
    (strings : List (BitVec 8)) (fs : S) (files : Files) : ExecOutcome S :=
  let opened := fileSystem.sysOpen fs files path 0 0
  let fd := opened.result
  if fd.slt 0 then .failed fd opened.fs opened.files
  else
    let fail (result : BitVec 32) (fs : S) (files : Files) : ExecOutcome S :=
      let closed := sysClose fileSystem fs files fd
      .failed result closed.fs closed.files
    let mode := fileMode fileSystem opened.fs opened.files fd
    if !isRegular mode || mode &&& 0o111 = 0 then fail (-EACCES) opened.fs opened.files
    else
      let header := fileSystem.read opened.fs opened.files fd 28
      let stage := writeBytes (fun _ => 0) 0 header.data
      if header.result ≠ 28 || !validHeader stage then fail (-ENOEXEC) header.fs header.files
      else
        let loaded := get32 stage 12
        let (complete, fs, files, image) :=
          loadImage fileSystem fd loaded loaded.toNat 0 header.fs header.files stage
        if !complete then fail (-ENOEXEC) fs files
        else
          let rest := fileSystem.read fs files fd 1
          if rest.result ≠ 0 then fail (-ENOEXEC) rest.fs rest.files
          else
            let closed := sysClose fileSystem rest.fs rest.files fd
            let built := buildWindow image loaded argv envp strings
            let kept := closeOnExecFiles fileSystem closed.fs closed.files
            .loaded kept.1 { kept.2 with closeOnExec := 0 } built.1
              { regs := fun index => if index = 14 then built.2 else 0
                pc := SP_USER_BASE + get32 stage 8 }
              (SP_USER_BASE + roundUp (loaded + get32 stage 16))
              (SP_USER_BASE + SP_USER_SIZE - get32 stage 20)

/-- `sp_execve` on a kernel copy of the path. -/
def spExecve (fileSystem : FileSystem S) (path : List (BitVec 8)) (argv envp : BitVec 32)
    (window : Memory) (fs : S) (files : Files) : ExecOutcome S :=
  if 255 ≤ path.length then .failed (-ENAMETOOLONG) fs files
  else
    match copyVector window argv [] with
    | .error code => .failed code fs files
    | .ok (argvOffsets, argvStrings) =>
        match copyVector window envp argvStrings with
        | .error code => .failed code fs files
        | .ok (envpOffsets, strings) =>
            execFile fileSystem path argvOffsets envpOffsets strings fs files

end Exec

end SymphonyPlus
