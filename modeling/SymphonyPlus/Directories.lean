import Mathlib.Data.BitVec
import Mathlib.Data.List.Basic
import Mathlib.Data.List.Count
import Mathlib.Data.List.Nodup
import Mathlib.Data.List.Perm.Basic
import Mathlib.Logic.Function.Basic

/-! Inodes, directory entries, and the references to inodes and buffers that the calls of
`fs/namei.c` take and give back. A panic has no result. -/

namespace SymphonyPlus.Namei

open Function

abbrev Ino := BitVec 16
abbrev Name := List (BitVec 8)

def nameLen : Nat := 14
def dirEntriesPerBlock : Nat := 64
def nrInode : Nat := 32
def rootIno : Ino := 1

def slash : BitVec 8 := 47
def dot : Name := [46]
def dotDot : Name := [46, 46]

structure DirEntry where
  inode : Ino
  name : Name
  deriving DecidableEq

structure DirBlock where
  dir : Ino
  block : Nat
  deriving DecidableEq

/-- The fields of a `struct m_inode` that the calls look at, without its times. -/
structure Inode where
  mode : BitVec 16
  uid : BitVec 16
  gid : BitVec 8
  nlinks : BitVec 8
  deriving DecidableEq

def noInode : Inode := ⟨0, 0, 0, 0⟩

structure Disk where
  ninodes : Nat
  used : Ino → Bool
  inode : Ino → Inode
  slots : Ino → List DirEntry
  content : Ino → List (BitVec 8)
  inodeRefs : Ino → Nat
  bufferRefs : DirBlock → Nat

def isRegular (mode : BitVec 16) : Bool := mode &&& 0o170000#16 = 0o100000#16
def isDirectory (mode : BitVec 16) : Bool := mode &&& 0o170000#16 = 0o040000#16
def isSticky (mode : BitVec 16) : Bool := mode &&& 0o1000#16 ≠ 0#16

/-- The process that calls, the slots of the inode table that other inodes take, and what cannot be
had: a block of a directory, a block for a directory to grow, and for a new directory a block or
its buffer. -/
structure Env where
  euid : BitVec 16
  egid : BitVec 16
  umask : BitVec 16
  pwd : Ino
  others : Nat
  unreadable : DirBlock → Bool
  full : Ino → Bool
  noBlock : Bool
  badBlock : Bool

def mayExec : BitVec 16 := 1
def mayWrite : BitVec 16 := 2

namespace Env

variable (env : Env)

def suser : Bool := env.euid = 0

def permission (inode : Inode) (mask : BitVec 16) : Bool :=
  if inode.nlinks = 0 then false
  else
    let mode :=
      if env.euid = inode.uid then inode.mode >>> 6
      else if env.egid = inode.gid.setWidth 16 then inode.mode >>> 3
      else inode.mode
    mode &&& mask &&& 7#16 = mask || env.suser

def enterable (inode : Inode) : Bool := isDirectory inode.mode && env.permission inode mayExec

end Env

namespace Disk

variable (d : Disk)

def take (id : Ino) : Disk :=
  { d with inodeRefs := update d.inodeRefs id (d.inodeRefs id + 1) }

def numbers : List Ino := (List.range' 1 d.ninodes).map (BitVec.ofNat 16)

def cached : Nat := d.numbers.countP fun id => d.inodeRefs id ≠ 0

/-- `get_empty_inode` panics where the inode table is full: "No free inodes in mem". -/
def slotFree (env : Env) : Bool := d.cached + env.others < nrInode

/-- A free slot is taken first, also for an inode that has one. -/
def iget (env : Env) (id : Ino) : Option Disk := if d.slotFree env then some (d.take id) else none

def hold (block : DirBlock) : Disk :=
  { d with bufferRefs := update d.bufferRefs block (d.bufferRefs block + 1) }

def brelse (block : DirBlock) : Option Disk :=
  if d.bufferRefs block = 0 then none
  else some { d with bufferRefs := update d.bufferRefs block (d.bufferRefs block - 1) }

/-- `truncate` and `free_inode`; nothing is read from an inode that is free. -/
def freeInode (id : Ino) : Disk :=
  { d with
    used := update d.used id false
    inode := update d.inode id noInode
    slots := update d.slots id []
    content := update d.content id []
    inodeRefs := update d.inodeRefs id 0 }

/-- "trying to free free inode" is a panic. -/
def iput (id : Ino) : Option Disk :=
  if d.inodeRefs id = 0 then none
  else if d.inodeRefs id = 1 ∧ (d.inode id).nlinks = 0 then some (d.freeInode id)
  else some { d with inodeRefs := update d.inodeRefs id (d.inodeRefs id - 1) }

def leave {α : Type} (result : α) (ids : List Ino) (blocks : List DirBlock) :
    Option (α × Disk) := do
  let d ← ids.foldlM iput d
  let d ← blocks.foldlM brelse d
  return (result, d)

def setInode (id : Ino) (inode : Inode) : Disk := { d with inode := update d.inode id inode }

def setNlinks (id : Ino) (nlinks : BitVec 8) : Disk := d.setInode id { d.inode id with nlinks }

def setContent (id : Ino) (bytes : List (BitVec 8)) : Disk :=
  { d with content := update d.content id bytes }

def setSlots (dir : Ino) (slots : List DirEntry) : Disk :=
  { d with slots := update d.slots dir slots }

def entryAt (dir : Ino) (i : Nat) : DirEntry := (d.slots dir).getD i ⟨0, []⟩

def writeEntry (dir : Ino) (i : Nat) (id : Ino) : Disk :=
  d.setSlots dir ((d.slots dir).set i { d.entryAt dir i with inode := id })

end Disk

def blockOf (dir : Ino) (i : Nat) : DirBlock := ⟨dir, i / dirEntriesPerBlock⟩

/-- The name that `find_entry` compares: `..` of the root is faked as `.`. -/
def soughtName (dir : Ino) (name : Name) : Name :=
  if name = dotDot ∧ dir = rootIno then dot else name.take nameLen

def entryIndex (slots : List DirEntry) (name : Name) : Option Nat :=
  slots.findIdx? fun e => e.inode ≠ 0 ∧ e.name = name

/-- The entries in front of the first block that cannot be read. -/
def Env.reached (env : Env) (dir : Ino) (slots : List DirEntry) : List DirEntry :=
  slots.take ((List.range slots.length).takeWhile fun i => !env.unreadable (blockOf dir i)).length

/-- One of the blocks up to an entry cannot be read. -/
def Env.blocked (env : Env) (dir : Ino) (i : Nat) : Bool :=
  (List.range (i + 1)).any fun j => env.unreadable (blockOf dir j)

def Disk.found (env : Env) (d : Disk) (dir : Ino) (name : Name) : Option Nat :=
  if name = [] then none
  else entryIndex (env.reached dir (d.slots dir)) (soughtName dir name)

def Disk.findEntry (env : Env) (d : Disk) (dir : Ino) (name : Name) : Option (Nat × Disk) :=
  (d.found env dir name).map fun i => (i, d.hold (blockOf dir i))

/-- The first free entry, or one behind the last. -/
def freeSlot (slots : List DirEntry) : Nat := slots.findIdx fun e => e.inode = 0

def grown (slots : List DirEntry) : List DirEntry :=
  if freeSlot slots < slots.length then slots else slots ++ [⟨0, []⟩]

/-- A directory that has no free entry and whose last block is full needs another block. -/
def cannotGrow (env : Env) (dir : Ino) (slots : List DirEntry) : Bool :=
  freeSlot slots = slots.length && slots.length % dirEntriesPerBlock = 0 && env.full dir

/-- An empty directory has no first block. -/
def Disk.addEntry (env : Env) (d : Disk) (dir : Ino) (name : Name) : Option (Nat × Disk) :=
  let slots := d.slots dir
  let i := freeSlot slots
  if name = [] || slots = [] || env.blocked dir i || cannotGrow env dir slots then none
  else some (i, (d.setSlots dir ((grown slots).set i ⟨0, name.take nameLen⟩)).hold (blockOf dir i))

def Disk.newNumber (d : Disk) : Option Ino :=
  d.numbers.find? fun id => !d.used id

/-- The new inode in a free slot, referenced once. -/
def Disk.newInode (env : Env) (d : Disk) (id : Ino) : Option Disk :=
  if d.slotFree env then some
    { d with
      used := update d.used id true
      inode := update d.inode id ⟨0, env.euid, env.egid.setWidth 8, 1⟩
      slots := update d.slots id []
      content := update d.content id []
      inodeRefs := update d.inodeRefs id 1 }
  else none

/-! The references that a call holds. -/

def Disk.holding (d : Disk) (ids : List Ino) (blocks : List DirBlock) : Disk :=
  { d with
    inodeRefs := fun id => d.inodeRefs id + ids.count id
    bufferRefs := fun block => d.bufferRefs block + blocks.count block }

/-- An inode that is not freed when a call gives its reference back. -/
def Live (d : Disk) (id : Ino) : Prop := (d.inode id).nlinks ≠ 0 ∨ d.inodeRefs id ≠ 0

/-- The last reference to an inode without links frees it. -/
def Disk.settle (d : Disk) (id : Ino) : Disk :=
  if (d.inode id).nlinks = 0 ∧ d.inodeRefs id = 0 then d.freeInode id else d

theorem count_head {α : Type} [DecidableEq α] (f : α → Nat) (a : α) (as : List α) :
    update (fun x => f x + as.count x) a (f a + as.count a + 1) =
      fun x => f x + (a :: as).count x := by
  funext x
  by_cases same : x = a
  · subst same
    rw [update_self, List.count_cons_self]
    omega
  · rw [update_of_ne same, List.count_cons_of_ne (Ne.symm same)]

theorem count_tail {α : Type} [DecidableEq α] (f : α → Nat) (a : α) (as : List α) :
    update (fun x => f x + (a :: as).count x) a (f a + (a :: as).count a - 1) =
      fun x => f x + as.count x := by
  funext x
  by_cases same : x = a
  · subst same
    rw [update_self, List.count_cons_self]
    omega
  · rw [update_of_ne same, List.count_cons_of_ne (Ne.symm same)]

section

variable {d : Disk} {id : Ino} {block : DirBlock} {ids : List Ino} {blocks : List DirBlock}

theorem holding_nothing : d.holding [] [] = d := rfl

theorem holding_perm {ids' : List Ino} {blocks' : List DirBlock} (inodes : ids.Perm ids')
    (buffers : blocks.Perm blocks') : d.holding ids blocks = d.holding ids' blocks' := by
  have refs : (fun id => d.inodeRefs id + ids.count id) =
      fun id => d.inodeRefs id + ids'.count id := funext fun id => by rw [inodes.count_eq]
  have held : (fun block => d.bufferRefs block + blocks.count block) =
      fun block => d.bufferRefs block + blocks'.count block :=
    funext fun block => by rw [buffers.count_eq]
  simp only [Disk.holding, refs, held]

theorem holding_take : (d.holding ids blocks).take id = d.holding (id :: ids) blocks := by
  simp only [Disk.take, Disk.holding, count_head]

theorem holding_one : d.holding [id] [] = d.take id := by
  rw [← holding_take, holding_nothing]

/-- Two tests that differ at one place count the same but for one. -/
theorem countP_one {α : Type} [DecidableEq α] {as : List α} (distinct : as.Nodup) {p q : α → Bool}
    (a : α) (same : ∀ x, x ≠ a → q x = p x) : as.countP q ≤ as.countP p + 1 := by
  induction as with
  | nil => exact Nat.zero_le _
  | cons x as ih =>
      obtain ⟨apart, distinct⟩ := List.nodup_cons.mp distinct
      rw [List.countP_cons, List.countP_cons]
      by_cases here : x = a
      · have others : as.countP q = as.countP p :=
          List.countP_congr fun y inside => by rw [same y fun equal => apart (here ▸ equal ▸ inside)]
        rw [others]
        split_ifs <;> omega
      · have rest := ih distinct
        rw [same x here]
        omega

theorem numbers_nodup (few : d.ninodes < 2 ^ 16) : d.numbers.Nodup := by
  refine List.Nodup.map_on (fun a first b second equal => ?_) List.nodup_range'
  have left := List.mem_range'_1.mp first
  have right := List.mem_range'_1.mp second
  have values := congrArg BitVec.toNat equal
  rw [BitVec.toNat_ofNat, BitVec.toNat_ofNat] at values
  omega

theorem cached_take (few : d.ninodes < 2 ^ 16) (id : Ino) : (d.take id).cached ≤ d.cached + 1 := by
  refine countP_one (numbers_nodup few) id fun other away => ?_
  rw [show (d.take id).inodeRefs other = d.inodeRefs other from update_of_ne away _ _]

/-- Each inode that is held takes one more slot at most. -/
theorem cached_holding (few : d.ninodes < 2 ^ 16) (ids : List Ino) (blocks : List DirBlock) :
    (d.holding ids blocks).cached ≤ d.cached + ids.length := by
  induction ids with
  | nil => exact Nat.le_refl _
  | cons id ids ih =>
      have more := cached_take (d := d.holding ids blocks) few id
      rw [holding_take] at more
      rw [List.length_cons]
      omega

theorem slotFree_holding {env : Env} (few : d.ninodes < 2 ^ 16)
    (room : d.cached + env.others + 4 ≤ nrInode) (held : ids.length ≤ 3) :
    (d.holding ids blocks).slotFree env = true := by
  have more := cached_holding few ids blocks
  exact decide_eq_true (by omega)

theorem holding_hold : (d.holding ids blocks).hold block = d.holding ids (block :: blocks) := by
  simp only [Disk.hold, Disk.holding, count_head]

theorem holding_brelse :
    (d.holding ids (block :: blocks)).brelse block = some (d.holding ids blocks) := by
  have held : (d.holding ids (block :: blocks)).bufferRefs block ≠ 0 := by
    simp only [Disk.holding, List.count_cons_self]
    omega
  rw [Disk.brelse, if_neg held]
  simp only [Disk.holding, count_tail]

theorem settle_live (live : Live d id) : d.settle id = d :=
  if_neg fun dead => live.elim (· dead.1) (· dead.2)

theorem freeInode_holding (none : id ∉ ids) :
    (d.holding (id :: ids) blocks).freeInode id = (d.freeInode id).holding ids blocks := by
  have refs : update (fun x => d.inodeRefs x + (id :: ids).count x) id 0 =
      fun x => update d.inodeRefs id 0 x + ids.count x := by
    funext x
    by_cases same : x = id
    · subst same
      rw [update_self, update_self, List.count_eq_zero.mpr none]
    · rw [update_of_ne same, update_of_ne same, List.count_cons_of_ne (Ne.symm same)]
  simp only [Disk.freeInode, Disk.holding, refs]

theorem holding_iput (fine : Live d id ∨ id ∉ ids) :
    (d.holding (id :: ids) blocks).iput id = some ((d.settle id).holding ids blocks) := by
  have count : (d.holding (id :: ids) blocks).inodeRefs id = d.inodeRefs id + ids.count id + 1 := by
    simp only [Disk.holding, List.count_cons_self]
    omega
  have links : ((d.holding (id :: ids) blocks).inode id).nlinks = (d.inode id).nlinks := rfl
  rw [Disk.iput, if_neg (by omega), count, links]
  by_cases dead : (d.inode id).nlinks = 0 ∧ d.inodeRefs id = 0
  · have away : id ∉ ids := fine.resolve_left fun live => live.elim (· dead.1) (· dead.2)
    have zero : ids.count id = 0 := List.count_eq_zero.mpr away
    rw [if_pos ⟨by omega, dead.1⟩, Disk.settle, if_pos dead, freeInode_holding away]
  · rw [if_neg (fun last => dead ⟨last.2, by omega⟩), Disk.settle, if_neg dead, ← count]
    simp only [Disk.holding, count_tail]

theorem iput_live (live : Live d id) :
    (d.holding (id :: ids) blocks).iput id = some (d.holding ids blocks) := by
  rw [holding_iput (.inl live), settle_live live]

theorem live_settle {other : Ino} (live : Live d other) (away : other ≠ id) :
    Live (d.settle id) other := by
  rw [Disk.settle]
  split
  · have inode : (d.freeInode id).inode other = d.inode other := update_of_ne away _ _
    have refs : (d.freeInode id).inodeRefs other = d.inodeRefs other := update_of_ne away _ _
    rwa [Live, inode, refs]
  · exact live

theorem leave_cons {α : Type} {result : α} {e : Disk} (put : d.iput id = some e) :
    d.leave result (id :: ids) blocks = e.leave result ids blocks := by
  rw [Disk.leave, List.foldlM_cons, put]
  rfl

theorem leave_rest {α : Type} {result : α} {more : List Ino} (live : ∀ id ∈ ids, Live d id) :
    (d.holding (ids ++ more) blocks).leave result ids blocks =
      some (result, d.holding more []) := by
  have puts : ids.foldlM Disk.iput (d.holding (ids ++ more) blocks) =
      some (d.holding more blocks) := by
    induction ids with
    | nil => rfl
    | cons id ids ih =>
        rw [List.foldlM_cons, List.cons_append, iput_live (live id List.mem_cons_self)]
        exact ih fun other inside => live other (List.mem_cons_of_mem id inside)
  have releases : blocks.foldlM Disk.brelse (d.holding more blocks) =
      some (d.holding more []) := by
    clear puts
    induction blocks with
    | nil => rfl
    | cons block blocks ih =>
        rw [List.foldlM_cons, holding_brelse]
        exact ih
  rw [Disk.leave, puts]
  exact congrArg (·.bind fun d => some (result, d)) releases

theorem leave_live {α : Type} {result : α} (live : ∀ id ∈ ids, Live d id) :
    (d.holding ids blocks).leave result ids blocks = some (result, d) := by
  have all := @leave_rest d ids blocks α result [] live
  rwa [List.append_nil] at all

/-- A call that gives back all that it holds leaves the disk that it has without. -/
theorem leave_held {α : Type} {result : α} {held : List Ino} {buffers : List DirBlock}
    (inodes : held.Perm ids) (cached : buffers.Perm blocks) (live : ∀ id ∈ ids, Live d id) :
    (d.holding held buffers).leave result ids blocks = some (result, d) := by
  rw [holding_perm inodes cached, leave_live live]

/-- One of the inodes may be freed on the way out. -/
theorem leave_first {α : Type} {result : α} (away : id ∉ ids) (live : ∀ id ∈ ids, Live d id) :
    (d.holding (id :: ids) blocks).leave result (id :: ids) blocks =
      some (result, d.settle id) := by
  have rest : ∀ other ∈ ids, Live (d.settle id) other := fun other inside =>
    live_settle (live other inside) fun same => away (same ▸ inside)
  rw [leave_cons (holding_iput (.inr away)), leave_live rest]

end

end SymphonyPlus.Namei
