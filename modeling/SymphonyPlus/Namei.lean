import SymphonyPlus.Directories

/-! The calls of `fs/namei.c`, with `chdir` and `chmod`. -/

namespace SymphonyPlus.Namei

def EPERM : Int := 1
def ENOENT : Int := 2
def EACCES : Int := 13
def EEXIST : Int := 17
def ENOTDIR : Int := 20
def EISDIR : Int := 21
def ENOSPC : Int := 28
def ENAMETOOLONG : Int := 36
def ENOTEMPTY : Int := 39
def ERROR : Int := 99

/-! Paths. -/

def getDirFrom (env : Env) : List Name → Ino → Disk → Option (Option Ino × Disk)
  | [], dir, d =>
      if env.enterable (d.inode dir) then some (some dir, d) else d.leave none [dir] []
  | name :: rest, dir, d =>
      if env.enterable (d.inode dir) then
        match d.findEntry env dir name with
        | none => d.leave none [dir] []
        | some (i, d) => do
            let next := (d.entryAt dir i).inode
            let d ← d.brelse (blockOf dir i)
            let d ← d.iput dir
            let d ← d.iget env next
            getDirFrom env rest next d
      else d.leave none [dir] []

/-- "No root inode" and "No cwd inode" are panics. -/
def getDir (env : Env) (path : Name) (d : Disk) : Option (Option Ino × Disk) :=
  if d.inodeRefs rootIno = 0 ∨ d.inodeRefs env.pwd = 0 then none
  else
    match path with
    | [] => some (none, d)
    | c :: rest =>
        let start := if c = slash then rootIno else env.pwd
        let text := if c = slash then rest else path
        getDirFrom env (text.splitOn slash).dropLast start (d.take start)

def basename (path : Name) : Name := (path.splitOn slash).getLastD []

def dirNamei (env : Env) (path : Name) (d : Disk) : Option (Option (Ino × Name) × Disk) := do
  let (dir, d) ← getDir env path d
  return (dir.map fun dir => (dir, basename path), d)

def namei (env : Env) (path : Name) (d : Disk) : Option (Option Ino × Disk) :=
  (dirNamei env path d).bind fun
    | (none, d) => some (none, d)
    | (some (dir, name), d) =>
        if name = [] then some (some dir, d)
        else
          match d.findEntry env dir name with
          | none => d.leave none [dir] []
          | some (i, d) => do
              let next := (d.entryAt dir i).inode
              let d ← d.brelse (blockOf dir i)
              let d ← d.iput dir
              let d ← d.iget env next
              return (some next, d)

/-! `open_namei` -/

def O_ACCMODE : BitVec 32 := 0o3
def O_WRONLY : BitVec 32 := 0o1
def O_CREAT : BitVec 32 := 0o100
def O_EXCL : BitVec 32 := 0o200
def O_TRUNC : BitVec 32 := 0o1000

def accMode (flag : BitVec 32) : BitVec 16 :=
  match (flag &&& O_ACCMODE).toNat with
  | 0 => 0o4
  | 1 => 0o2
  | 2 => 0o6
  | _ => 0o377

def Disk.truncate (d : Disk) (id : Ino) : Disk :=
  if isRegular (d.inode id).mode || isDirectory (d.inode id).mode then
    (d.setSlots id []).setContent id []
  else d

abbrev Opened := Except Int Ino

def createFile (env : Env) (mode : BitVec 16) (dir : Ino) (name : Name) (d : Disk) :
    Option (Opened × Disk) :=
  match d.newNumber with
  | none => d.leave (.error (-ENOSPC)) [dir] []
  | some id => do
      let d ← d.newInode env id
      let d := d.setInode id { d.inode id with uid := env.euid, mode }
      match d.addEntry env dir name with
      | none =>
          (d.setNlinks id ((d.inode id).nlinks - 1)).leave (.error (-ENOSPC)) [id, dir] []
      | some (i, d) => (d.writeEntry dir i id).leave (.ok id) [dir] [blockOf dir i]

def openEntry (env : Env) (flag : BitVec 32) (dir : Ino) (i : Nat) (d : Disk) :
    Option (Opened × Disk) := do
  let id := (d.entryAt dir i).inode
  let d ← d.brelse (blockOf dir i)
  let d ← d.iput dir
  if flag &&& O_EXCL ≠ 0 then some (.error (-EEXIST), d)
  else
    let d ← d.iget env id
    if isDirectory (d.inode id).mode && flag &&& O_ACCMODE ≠ 0 ||
        !env.permission (d.inode id) (accMode flag) then d.leave (.error (-EPERM)) [id] []
    else some (.ok id, if flag &&& O_TRUNC ≠ 0 then d.truncate id else d)

def openNamei (env : Env) (d : Disk) (path : Name) (flag : BitVec 32) (mode : BitVec 16) :
    Option (Opened × Disk) :=
  let flag := if flag &&& O_TRUNC ≠ 0 ∧ flag &&& O_ACCMODE = 0 then flag ||| O_WRONLY else flag
  let mode := mode &&& 0o777#16 &&& ~~~env.umask ||| 0o100000#16
  (dirNamei env path d).bind fun
    | (none, d) => some (.error (-ENOENT), d)
    | (some (dir, name), d) =>
        if name = [] then
          if flag &&& (O_ACCMODE ||| O_CREAT ||| O_TRUNC) = 0 then some (.ok dir, d)
          else d.leave (.error (-EISDIR)) [dir] []
        else
          match d.findEntry env dir name with
          | none =>
              if flag &&& O_CREAT = 0 then d.leave (.error (-ENOENT)) [dir] []
              else if !env.permission (d.inode dir) mayWrite then
                d.leave (.error (-EACCES)) [dir] []
              else createFile env mode dir name d
          | some (i, d) => openEntry env flag dir i d

/-! `sys_mkdir`, `sys_rmdir` and `sys_unlink` -/

/-- How the three begin: the directory of the path, its permission, and the entry. -/
def within (env : Env) (d : Disk) (path : Name)
    (present : Ino → Nat → Disk → Option (Int × Disk))
    (absent : Ino → Name → Disk → Option (Int × Disk)) : Option (Int × Disk) :=
  (dirNamei env path d).bind fun
    | (none, d) => some (-ENOENT, d)
    | (some (dir, name), d) =>
        if name = [] then d.leave (-ENOENT) [dir] []
        else if !env.permission (d.inode dir) mayWrite then d.leave (-EPERM) [dir] []
        else
          match d.findEntry env dir name with
          | none => absent dir name d
          | some (i, d) => present dir i d

def makeDirectory (env : Env) (mode : BitVec 16) (dir : Ino) (name : Name) (d : Disk) :
    Option (Int × Disk) :=
  match d.newNumber with
  | none => d.leave (-ENOSPC) [dir] []
  | some id => do
      let d ← d.newInode env id
      if env.noBlock || env.badBlock then do
        let d ← d.iput dir
        (d.setNlinks id ((d.inode id).nlinks - 1)).leave
          (if env.noBlock then -ENOSPC else -ERROR) [id] []
      else
        let mode := 0o040000#16 ||| mode &&& 0o777#16 &&& ~~~env.umask
        let d := (d.setSlots id [⟨id, dot⟩, ⟨dir, dotDot⟩]).setInode id
          { d.inode id with nlinks := 2, mode }
        match d.addEntry env dir name with
        | none => do
            let d ← d.iput dir
            (d.setNlinks id 0).leave (-ENOSPC) [id] []
        | some (i, d) =>
            let d := d.writeEntry dir i id
            (d.setNlinks dir ((d.inode dir).nlinks + 1)).leave 0 [dir, id] [blockOf dir i]

def sysMkdir (env : Env) (d : Disk) (path : Name) (mode : BitVec 16) : Option (Int × Disk) :=
  if !env.suser then some (-EPERM, d)
  else
    within env d path (fun dir i d => d.leave (-EEXIST) [dir] [blockOf dir i])
      (makeDirectory env mode)

/-- `empty_dir`, which keeps the buffer of a directory that does not begin as it should. -/
def Disk.emptyDir (env : Env) (d : Disk) (id : Ino) : Bool × Disk :=
  let first := d.entryAt id 0
  let second := d.entryAt id 1
  let len := (d.slots id).length
  if len < 2 || env.unreadable (blockOf id 0) then (false, d)
  else if first.inode ≠ id || second.inode = 0 || first.name ≠ dot || second.name ≠ dotDot then
    (false, d.hold (blockOf id 0))
  else (!env.blocked id (len - 1) && ((d.slots id).drop 2).all fun e => e.inode = 0, d)

def removeDirectory (env : Env) (dir : Ino) (i : Nat) (d : Disk) : Option (Int × Disk) := do
  let id := (d.entryAt dir i).inode
  let block := blockOf dir i
  let d ← d.iget env id
  if isSticky (d.inode dir).mode && !env.suser && (d.inode id).uid ≠ env.euid then
    d.leave (-EPERM) [dir, id] [block]
  else if 1 < d.inodeRefs id then d.leave (-EPERM) [dir, id] [block]
  else if id = dir then d.leave (-EPERM) [id, dir] [block]
  else if !isDirectory (d.inode id).mode then d.leave (-ENOTDIR) [id, dir] [block]
  else
    match d.emptyDir env id with
    | (false, d) => d.leave (-ENOTEMPTY) [id, dir] [block]
    | (true, d) => do
        let d ← (d.writeEntry dir i 0).brelse block
        let d := d.setNlinks id 0
        (d.setNlinks dir ((d.inode dir).nlinks - 1)).leave 0 [dir, id] []

def sysRmdir (env : Env) (d : Disk) (path : Name) : Option (Int × Disk) :=
  if !env.suser then some (-EPERM, d)
  else within env d path (removeDirectory env) fun dir _ d => d.leave (-ENOENT) [dir] []

/-- In a sticky directory only its owner, the owner of the file and root take a file away. -/
def Env.stuck (env : Env) (dir file : Inode) : Bool :=
  isSticky dir.mode && !env.suser && env.euid ≠ file.uid && env.euid ≠ dir.uid

def unlinkEntry (env : Env) (dir : Ino) (i : Nat) (d : Disk) : Option (Int × Disk) := do
  let id := (d.entryAt dir i).inode
  let block := blockOf dir i
  let d ← d.iget env id
  if env.stuck (d.inode dir) (d.inode id) then d.leave (-EPERM) [dir, id] [block]
  else if isDirectory (d.inode id).mode then d.leave (-EPERM) [id, dir] [block]
  else do
    -- "Deleting nonexistent file"
    let d := d.setNlinks id (if (d.inode id).nlinks = 0 then 1 else (d.inode id).nlinks)
    let d ← (d.writeEntry dir i 0).brelse block
    (d.setNlinks id ((d.inode id).nlinks - 1)).leave 0 [id, dir] []

def sysUnlink (env : Env) (d : Disk) (path : Name) : Option (Int × Disk) :=
  within env d path (unlinkEntry env) fun dir _ d => d.leave (-ENOENT) [dir] []

/-! `sys_rename` has one place where everything is given back. -/

structure Exit where
  result : Int
  ids : List Ino
  blocks : List DirBlock
  disk : Disk

/-- From `ne->inode=src->i_num` on nothing fails. -/
def Disk.publish (d : Disk) (od : Ino) (k : Nat) (nd : Ino) (j : Nat) (src : Ino) : Disk :=
  (d.writeEntry nd j src).writeEntry od k 0

/-- From the second `find_entry` on. -/
def renameTo (env : Env) (d : Disk) (od : Ino) (k : Nat) (nd src : Ino) (nname : Name) :
    Option Exit :=
  match d.findEntry env nd nname with
  | some (j, d) => do
      let dst := (d.entryAt nd j).inode
      let blocks := [blockOf nd j, blockOf od k]
      let d ← d.iget env dst
      let ids := [dst, src, nd, od]
      if dst = src then return ⟨0, ids, blocks, d⟩
      else if !isRegular (d.inode dst).mode then return ⟨-EPERM, ids, blocks, d⟩
      else if env.stuck (d.inode nd) (d.inode dst) then return ⟨-EPERM, ids, blocks, d⟩
      else
        let d := d.publish od k nd j src
        return ⟨0, ids, blocks, d.setNlinks dst ((d.inode dst).nlinks - 1)⟩
  | none =>
      match d.addEntry env nd nname with
      | none => some ⟨-ENOSPC, [src, nd, od], [blockOf od k], d⟩
      | some (j, d) =>
          some ⟨0, [src, nd, od], [blockOf nd j, blockOf od k], d.publish od k nd j src⟩

/-- From the first `find_entry` on. -/
def renameFrom (env : Env) (d : Disk) (od : Ino) (oname : Name) (nd : Ino) (nname : Name) :
    Option Exit :=
  match d.findEntry env od oname with
  | none => some ⟨-ENOENT, [nd, od], [], d⟩
  | some (k, d) => do
      let src := (d.entryAt od k).inode
      let blocks := [blockOf od k]
      let d ← d.iget env src
      let ids := [src, nd, od]
      if !isRegular (d.inode src).mode then return ⟨-EPERM, ids, blocks, d⟩
      else if env.stuck (d.inode od) (d.inode src) then return ⟨-EPERM, ids, blocks, d⟩
      else renameTo env d od k nd src nname

/-- From the first check on. -/
def renameBetween (env : Env) (d : Disk) :
    Option (Ino × Name) → Option (Ino × Name) → Option Exit
  | some (od, oname), some (nd, nname) =>
      if oname = [] ∨ nname = [] then some ⟨-ENOENT, [nd, od], [], d⟩
      else if nameLen < oname.length ∨ nameLen < nname.length then
        some ⟨-ENAMETOOLONG, [nd, od], [], d⟩
      else if !env.permission (d.inode od) mayWrite || !env.permission (d.inode nd) mayWrite then
        some ⟨-EACCES, [nd, od], [], d⟩
      else renameFrom env d od oname nd nname
  | od, nd => some ⟨-ENOENT, nd.toList.map Prod.fst ++ od.toList.map Prod.fst, [], d⟩

def sysRename (env : Env) (d : Disk) (oldname newname : Name) : Option (Int × Disk) := do
  let (old, d) ← dirNamei env oldname d
  let (new, d) ← dirNamei env newname d
  let exit ← renameBetween env d old new
  exit.disk.leave exit.result exit.ids exit.blocks

/-! `sys_chdir` and `sys_chmod` -/

/-- The result with the directory of the process afterwards. -/
def sysChdir (env : Env) (d : Disk) (path : Name) : Option ((Int × Ino) × Disk) :=
  (namei env path d).bind fun
    | (none, d) => some ((-ENOENT, env.pwd), d)
    | (some id, d) =>
        if !isDirectory (d.inode id).mode then d.leave (-ENOTDIR, env.pwd) [id] []
        else d.leave (0, id) [env.pwd] []

def sysChmod (env : Env) (d : Disk) (path : Name) (mode : BitVec 16) : Option (Int × Disk) :=
  (namei env path d).bind fun
    | (none, d) => some (-ENOENT, d)
    | (some id, d) =>
        if env.euid ≠ (d.inode id).uid && !env.suser then d.leave (-EACCES) [id] []
        else
          let changed := mode &&& 0o7777#16 ||| (d.inode id).mode &&& ~~~0o7777#16
          (d.setInode id { d.inode id with mode := changed }).leave 0 [id] []

end SymphonyPlus.Namei
