import Mathlib.Data.BitVec
import Mathlib.Data.List.GetD
import Mathlib.Data.List.TakeWhile
import SymphonyPlus.Namei

/-! What each call of `Namei` does to the disk, with all that it takes given back: nothing where it
fails, and one change of the tree where it does not. -/

namespace SymphonyPlus.Namei

open Function

/-- What the calls rely on: entries lead to inodes that stay, a directory begins with its two own
entries and can lose or gain a link, the two directories where paths begin are held, and four slots
of the inode table are free. -/
structure Ready (env : Env) (d : Disk) : Prop where
  linked : ∀ dir, ∀ e ∈ d.slots dir, e.inode ≠ 0 → Live d e.inode
  files : ∀ dir, ∀ e ∈ d.slots dir, e.inode ≠ 0 →
    isDirectory (d.inode e.inode).mode = false → (d.inode e.inode).nlinks ≠ 0
  directories : ∀ dir, isDirectory (d.inode dir).mode = true →
    1 < (d.inode dir).nlinks.toNat ∧ (d.inode dir).nlinks.toNat < 255 ∨ d.inodeRefs dir ≠ 0
  free : ∀ id, d.used id = false →
    d.inode id = noInode ∧ d.slots id = [] ∧ d.content id = [] ∧ d.inodeRefs id = 0
  starts : ∀ dir, isDirectory (d.inode dir).mode = true → ∃ parent rest,
    parent ≠ 0 ∧ d.slots dir = ⟨dir, dot⟩ :: ⟨parent, dotDot⟩ :: rest
  root : d.inodeRefs rootIno ≠ 0
  pwd : d.inodeRefs env.pwd ≠ 0
  few : d.ninodes < 2 ^ 16
  room : d.cached + env.others + 4 ≤ nrInode

/-! Lookups. -/

def entered (env : Env) (d : Disk) : List Name → Ino → Option Ino
  | [], dir => if env.enterable (d.inode dir) then some dir else none
  | name :: rest, dir =>
      if env.enterable (d.inode dir) then
        (d.found env dir name).bind fun i => entered env d rest (d.entryAt dir i).inode
      else none

def leads (env : Env) (d : Disk) : Name → Option (Ino × Name)
  | [] => none
  | c :: rest =>
      let start := if c = slash then rootIno else env.pwd
      let text := if c = slash then rest else c :: rest
      (entered env d (text.splitOn slash).dropLast start).map fun dir =>
        (dir, basename (c :: rest))

theorem enterable_live {env : Env} {d : Disk} {dir : Ino}
    (may : env.enterable (d.inode dir) = true) :
    isDirectory (d.inode dir).mode = true ∧ (d.inode dir).nlinks ≠ 0 := by
  simp only [Env.enterable, Bool.and_eq_true] at may
  refine ⟨may.1, fun none => ?_⟩
  simp only [Env.permission, none, if_true, Bool.false_eq_true, and_false] at may

theorem entered_enterable {env : Env} {d : Disk} {names : List Name} {start dir : Ino}
    (there : entered env d names start = some dir) : env.enterable (d.inode dir) = true := by
  induction names generalizing start with
  | nil =>
      rw [entered] at there
      split at there
      · rename_i may
        cases there
        exact may
      · cases there
  | cons name rest ih =>
      rw [entered] at there
      split at there
      · obtain ⟨i, _, below⟩ := Option.bind_eq_some_iff.mp there
        exact ih below
      · cases there

theorem leads_enterable {env : Env} {d : Disk} {path name : Name} {dir : Ino}
    (there : leads env d path = some (dir, name)) : env.enterable (d.inode dir) = true := by
  cases path with
  | nil => cases there
  | cons c rest =>
      obtain ⟨last, reached, same⟩ := Option.map_eq_some_iff.mp there
      cases same
      exact entered_enterable reached

theorem leads_live {env : Env} {d : Disk} {path name : Name} {dir : Ino}
    (there : leads env d path = some (dir, name)) : Live d dir :=
  .inl (enterable_live (leads_enterable there)).2

section

variable {env : Env} {d : Disk} {dir : Ino} {name : Name} {i : Nat} {ids : List Ino}
  {blocks : List DirBlock}

theorem found_entry (there : d.found env dir name = some i) :
    i < (d.slots dir).length ∧ d.entryAt dir i ∈ d.slots dir ∧ (d.entryAt dir i).inode ≠ 0 ∧
      (d.entryAt dir i).name = soughtName dir name := by
  rw [Disk.found] at there
  split at there
  · cases there
  · obtain ⟨within, fits, _⟩ := List.findIdx?_eq_some_iff_getElem.mp there
    have bound := Nat.lt_of_lt_of_le within (List.length_take_le' _ _)
    simp only [Env.reached, List.getElem_take, decide_eq_true_eq] at fits
    have entry : d.entryAt dir i = (d.slots dir)[i] := List.getD_eq_getElem _ _ bound
    rw [entry]
    exact ⟨bound, List.getElem_mem bound, fits.1, fits.2⟩

/-- Where every block can be read, every entry is reached. -/
theorem reached_all (readable : ∀ i, env.unreadable (blockOf dir i) = false)
    (slots : List DirEntry) : env.reached dir slots = slots := by
  have all : ((List.range slots.length).takeWhile fun i => !env.unreadable (blockOf dir i)) =
      List.range slots.length :=
    List.takeWhile_eq_self_iff.mpr fun i _ => by rw [readable]; rfl
  rw [Env.reached, all, List.length_range, List.take_length]

theorem found_live (ready : Ready env d) (there : d.found env dir name = some i) :
    Live d (d.entryAt dir i).inode :=
  ready.linked dir _ (found_entry there).2.1 (found_entry there).2.2.1

theorem findEntry_none (missed : d.found env dir name = none) :
    (d.holding ids blocks).findEntry env dir name = none := by
  have same : (d.holding ids blocks).found env dir name = d.found env dir name := rfl
  rw [Disk.findEntry, same, missed]
  rfl

theorem findEntry_some (there : d.found env dir name = some i) :
    (d.holding ids blocks).findEntry env dir name =
      some (i, d.holding ids (blockOf dir i :: blocks)) := by
  have same : (d.holding ids blocks).found env dir name = d.found env dir name := rfl
  rw [Disk.findEntry, same, there, Option.map_some, holding_hold]

theorem leave_one {α : Type} {result : α} (live : Live d dir) :
    (d.holding (dir :: ids) blocks).leave result [dir] [] =
      some (result, d.holding ids blocks) := by
  rw [leave_cons (iput_live live)]
  rfl

/-- `brelse(bh); iput(dir);` -/
theorem release_entry {α : Type} (live : Live d dir) (rest : Disk → Option α) :
    ((d.holding (dir :: ids) (blockOf dir i :: blocks)).brelse (blockOf dir i)).bind
      (fun d => (d.iput dir).bind rest) = rest (d.holding ids blocks) := by
  rw [holding_brelse, Option.bind_some, iput_live live, Option.bind_some]

theorem single_few (id : Ino) : [id].length ≤ 3 := Nat.succ_le_succ (Nat.zero_le 2)

theorem iget_held (ready : Ready env d) {id : Ino} (few : ids.length ≤ 3) :
    (d.holding ids blocks).iget env id = some (d.holding (id :: ids) blocks) := by
  rw [Disk.iget, if_pos (slotFree_holding ready.few ready.room few), holding_take]

theorem getDirFrom_held (ready : Ready env d) (names : List Name) (live : Live d dir)
    (few : ids.length ≤ 3) : getDirFrom env names dir (d.holding (dir :: ids) blocks) =
      some (entered env d names dir,
        d.holding ((entered env d names dir).toList ++ ids) blocks) := by
  induction names generalizing dir with
  | nil =>
      rw [getDirFrom, entered]
      have same : (d.holding (dir :: ids) blocks).inode = d.inode := rfl
      rw [same]
      split
      · rfl
      · exact leave_one live
  | cons name rest ih =>
      rw [getDirFrom, entered]
      have same : (d.holding (dir :: ids) blocks).inode = d.inode := rfl
      rw [same]
      split
      · cases there : d.found env dir name with
        | none =>
            rw [findEntry_none there]
            exact leave_one live
        | some i =>
            rw [findEntry_some there]
            have next : (d.holding (dir :: ids) (blockOf dir i :: blocks)).entryAt dir i =
              d.entryAt dir i := rfl
            simp only [next, Option.bind_eq_bind, Option.bind_some, release_entry live]
            rw [iget_held ready few]
            exact ih (found_live ready there)
      · exact leave_one live

theorem dirNamei_leads (ready : Ready env d) (ids : List Ino) (few : ids.length ≤ 3)
    (blocks : List DirBlock) (path : Name) :
    dirNamei env path (d.holding ids blocks) =
      some (leads env d path, d.holding ((leads env d path).toList.map Prod.fst ++ ids) blocks) := by
  have root : (d.holding ids blocks).inodeRefs rootIno ≠ 0 :=
    Nat.ne_of_gt (Nat.add_pos_left (Nat.pos_of_ne_zero ready.root) _)
  have pwd : (d.holding ids blocks).inodeRefs env.pwd ≠ 0 :=
    Nat.ne_of_gt (Nat.add_pos_left (Nat.pos_of_ne_zero ready.pwd) _)
  rw [dirNamei, getDir.eq_def, if_neg (not_or.mpr ⟨root, pwd⟩)]
  cases path with
  | nil => rfl
  | cons c rest =>
      have start : Live d (if c = slash then rootIno else env.pwd) := by
        split
        · exact .inr ready.root
        · exact .inr ready.pwd
      simp only [holding_take, getDirFrom_held ready _ start few]
      rw [leads]
      cases entered env d _ (if c = slash then rootIno else env.pwd) <;> rfl

@[simp] theorem holding_inode : (d.holding ids blocks).inode = d.inode := rfl
@[simp] theorem holding_slots : (d.holding ids blocks).slots = d.slots := rfl
@[simp] theorem holding_entryAt : (d.holding ids blocks).entryAt dir i = d.entryAt dir i := rfl
@[simp] theorem holding_newNumber : (d.holding ids blocks).newNumber = d.newNumber := rfl

@[simp] theorem holding_setInode (id : Ino) (inode : Inode) :
    (d.holding ids blocks).setInode id inode = (d.setInode id inode).holding ids blocks := rfl
@[simp] theorem holding_setNlinks (id : Ino) (nlinks : BitVec 8) :
    (d.holding ids blocks).setNlinks id nlinks = (d.setNlinks id nlinks).holding ids blocks := rfl
@[simp] theorem holding_setSlots (slots : List DirEntry) :
    (d.holding ids blocks).setSlots dir slots = (d.setSlots dir slots).holding ids blocks := rfl
@[simp] theorem holding_writeEntry (id : Ino) :
    (d.holding ids blocks).writeEntry dir i id = (d.writeEntry dir i id).holding ids blocks := rfl

theorem live_setInode {id other : Ino} {inode : Inode} (away : other ≠ id) (live : Live d other) :
    Live (d.setInode id inode) other := by
  have same : (d.setInode id inode).inode other = d.inode other := update_of_ne away _ _
  rw [Live, same]
  exact live

theorem setSlots_self (slots : List DirEntry) : (d.setSlots dir slots).slots dir = slots :=
  update_self _ _ _

theorem setSlots_twice (slots slots' : List DirEntry) :
    (d.setSlots dir slots).setSlots dir slots' = d.setSlots dir slots' := by
  simp only [Disk.setSlots, update_idem]

theorem setInode_self (id : Ino) : d.setInode id (d.inode id) = d := by
  simp only [Disk.setInode, update_eq_self]

structure Missed (env : Env) (d : Disk) (dir : Ino) (name : Name) : Prop where
  named : name ≠ []
  missed : d.found env dir name = none

/-- No entry of the directory has the name: it is missed with every block read. -/
structure Absent (env : Env) (d : Disk) (dir : Ino) (name : Name) : Prop
    extends Missed env d dir name where
  readable : ∀ i, env.unreadable (blockOf dir i) = false

/-! The beginning of `sys_mkdir`, `sys_rmdir` and `sys_unlink`. -/

theorem within_cases (ready : Ready env d) (path : Name)
    (present : Ino → Nat → Disk → Option (Int × Disk))
    (absent : Ino → Name → Disk → Option (Int × Disk)) :
    (∃ result, result < 0 ∧ within env d path present absent = some (result, d)) ∨
    (∃ dir name i, leads env d path = some (dir, name) ∧ d.found env dir name = some i ∧
      within env d path present absent = present dir i (d.holding [dir] [blockOf dir i])) ∨
    ∃ dir name, leads env d path = some (dir, name) ∧ name ≠ [] ∧ d.found env dir name = none ∧
      within env d path present absent = absent dir name (d.holding [dir] []) := by
  have start : dirNamei env path d = _ := dirNamei_leads ready [] (by decide) [] path
  rw [within, start, Option.bind_some]
  cases there : leads env d path with
  | none => exact .inl ⟨-ENOENT, by decide, rfl⟩
  | some found =>
      obtain ⟨dir, name⟩ := found
      have live := leads_live there
      simp only [Option.toList_some, List.map_cons, List.map_nil, List.append_nil, holding_inode]
      split
      · exact .inl ⟨-ENOENT, by decide, leave_one live⟩
      · rename_i named
        split
        · exact .inl ⟨-EPERM, by decide, leave_one live⟩
        · cases entry : d.found env dir name with
          | none =>
              rw [findEntry_none entry]
              exact .inr (.inr ⟨dir, name, rfl, named, entry, rfl⟩)
          | some i =>
              rw [findEntry_some entry]
              exact .inr (.inl ⟨dir, name, i, rfl, entry, rfl⟩)

/-! `sys_unlink` -/

def Disk.dropLink (d : Disk) (id : Ino) : Disk :=
  (d.setNlinks id ((d.inode id).nlinks - 1)).settle id

theorem setNlinks_linked {id : Ino} (links : (d.inode id).nlinks ≠ 0) :
    d.setNlinks id (if (d.inode id).nlinks = 0 then 1 else (d.inode id).nlinks) = d := by
  rw [if_neg links]
  exact setInode_self id

theorem unlinkEntry_cases (ready : Ready env d) (live : Live d dir)
    (isDir : isDirectory (d.inode dir).mode = true) (there : d.found env dir name = some i) :
    (∃ result, result < 0 ∧
      unlinkEntry env dir i (d.holding [dir] [blockOf dir i]) = some (result, d)) ∨
    isDirectory (d.inode (d.entryAt dir i).inode).mode = false ∧
      unlinkEntry env dir i (d.holding [dir] [blockOf dir i]) =
        some (0, (d.writeEntry dir i 0).dropLink (d.entryAt dir i).inode) := by
  have target := found_live ready there
  have both : ∀ id ∈ [(d.entryAt dir i).inode, dir], Live d id := by
    intro id inside
    rcases List.mem_pair.mp inside with rfl | rfl
    · exact target
    · exact live
  have swapped : ∀ id ∈ [dir, (d.entryAt dir i).inode], Live d id := fun id inside =>
    both id (List.mem_pair.mpr (List.mem_pair.mp inside).symm)
  rw [unlinkEntry, holding_entryAt, Option.bind_eq_bind, iget_held ready (single_few dir),
    Option.bind_some]
  split
  · exact .inl ⟨-EPERM, by decide, leave_held (.swap ..) (.refl _) swapped⟩
  · split
    · exact .inl ⟨-EPERM, by decide, leave_live both⟩
    · rename_i file
      have plain : isDirectory (d.inode (d.entryAt dir i).inode).mode = false :=
        Bool.eq_false_iff.mpr file
      refine .inr ⟨plain, ?_⟩
      have entry := found_entry there
      have links := ready.files dir _ entry.2.1 entry.2.2.1 plain
      have apart : (d.entryAt dir i).inode ≠ dir := fun same => by
        rw [same, isDir] at plain
        cases plain
      have away : (d.entryAt dir i).inode ∉ [dir] := fun inside =>
        apart (List.mem_singleton.mp inside)
      rw [setNlinks_linked (show ((d.holding _ _).inode _).nlinks ≠ 0 from links)]
      simp only [holding_writeEntry, holding_brelse, Option.bind_some, holding_inode,
        holding_setNlinks]
      refine leave_first away fun id inside => ?_
      rw [List.mem_singleton.mp inside]
      exact live_setInode (Ne.symm apart) live

theorem unlink_cases (ready : Ready env d) (path : Name) :
    (∃ result, result < 0 ∧ sysUnlink env d path = some (result, d)) ∨
    ∃ dir name i, leads env d path = some (dir, name) ∧ d.found env dir name = some i ∧
      isDirectory (d.inode (d.entryAt dir i).inode).mode = false ∧
      sysUnlink env d path =
        some (0, (d.writeEntry dir i 0).dropLink (d.entryAt dir i).inode) := by
  rw [sysUnlink]
  rcases within_cases ready path (unlinkEntry env) (fun dir _ d => d.leave (-ENOENT) [dir] []) with
    failed | ⟨dir, name, i, there, entry, run⟩ | ⟨dir, name, there, _, _, run⟩
  · exact .inl failed
  · have enterable := enterable_live (leads_enterable there)
    rw [run]
    rcases unlinkEntry_cases ready (leads_live there) enterable.1 entry with failed | done
    · exact .inl failed
    · exact .inr ⟨dir, name, i, there, entry, done⟩
  · exact .inl ⟨-ENOENT, by decide, run.trans (leave_one (leads_live there))⟩

/-! `sys_rmdir` -/

theorem emptyDir_starts (ready : Ready env d) (ids : List Ino) (blocks : List DirBlock) {id : Ino}
    (isDir : isDirectory (d.inode id).mode = true) :
    ((d.holding ids blocks).emptyDir env id).2 = d.holding ids blocks ∧
      (((d.holding ids blocks).emptyDir env id).1 = true →
        ∀ e ∈ (d.slots id).drop 2, e.inode = 0) := by
  obtain ⟨parent, rest, nonzero, slots⟩ := ready.starts id isDir
  have first : d.entryAt id 0 = ⟨id, dot⟩ := by rw [Disk.entryAt, slots]; rfl
  have second : d.entryAt id 1 = ⟨parent, dotDot⟩ := by rw [Disk.entryAt, slots]; rfl
  simp only [Disk.emptyDir, holding_entryAt, holding_slots, first, second]
  split
  · exact ⟨rfl, fun wrong => absurd wrong Bool.false_ne_true⟩
  · split
    · rename_i wrong
      simp only [ne_eq, not_true_eq_false, decide_false, nonzero, Bool.or_self,
        Bool.false_eq_true] at wrong
    · refine ⟨rfl, fun all e inside => ?_⟩
      exact of_decide_eq_true (List.all_eq_true.mp (Bool.and_eq_true_iff.mp all).2 e inside)

def Disk.removedDirectory (d : Disk) (dir : Ino) (i : Nat) : Disk :=
  let id := (d.entryAt dir i).inode
  ((((d.writeEntry dir i 0).setNlinks id 0).setNlinks dir ((d.inode dir).nlinks - 1))).freeInode id

theorem setNlinks_self {id : Ino} {nlinks : BitVec 8} :
    ((d.setNlinks id nlinks).inode id).nlinks = nlinks := by
  simp only [Disk.setNlinks, Disk.setInode, update_self]

theorem setNlinks_other {id other : Ino} {nlinks : BitVec 8} (away : other ≠ id) :
    (d.setNlinks id nlinks).inode other = d.inode other := update_of_ne away _ _

theorem removedDirectory_left (ready : Ready env d)
    (isDir : isDirectory (d.inode dir).mode = true)
    (apart : (d.entryAt dir i).inode ≠ dir) (alone : d.inodeRefs (d.entryAt dir i).inode = 0) :
    ((((d.writeEntry dir i 0).setNlinks (d.entryAt dir i).inode 0).setNlinks dir
      ((d.inode dir).nlinks - 1)).holding [dir, (d.entryAt dir i).inode] []).leave (0 : Int)
        [dir, (d.entryAt dir i).inode] [] = some (0, d.removedDirectory dir i) := by
  generalize goal : ((d.writeEntry dir i 0).setNlinks (d.entryAt dir i).inode 0).setNlinks dir
    ((d.inode dir).nlinks - 1) = after
  have below : ((d.inode dir).nlinks - 1 ≠ 0#8) ∨ d.inodeRefs dir ≠ 0 := by
    rcases ready.directories dir isDir with ⟨more, _⟩ | held
    · left
      intro none
      bv_omega
    · exact .inr held
  have stays : Live after dir := by
    subst goal
    rw [Live, setNlinks_self]
    exact below
  have dead : (after.inode (d.entryAt dir i).inode).nlinks = 0 ∧
      after.inodeRefs (d.entryAt dir i).inode = 0 := by
    subst goal
    rw [setNlinks_other apart, setNlinks_self]
    exact ⟨rfl, alone⟩
  rw [leave_cons (iput_live stays), leave_first List.not_mem_nil (List.forall_mem_nil _),
    Disk.settle, if_pos dead]
  subst goal
  rfl

theorem removeDirectory_cases (ready : Ready env d)
    (isDir : isDirectory (d.inode dir).mode = true) (live : Live d dir)
    (there : d.found env dir name = some i) :
    (∃ result, result < 0 ∧
      removeDirectory env dir i (d.holding [dir] [blockOf dir i]) = some (result, d)) ∨
    (d.entryAt dir i).inode ≠ dir ∧ d.inodeRefs (d.entryAt dir i).inode = 0 ∧
      isDirectory (d.inode (d.entryAt dir i).inode).mode = true ∧
      (∀ e ∈ (d.slots (d.entryAt dir i).inode).drop 2, e.inode = 0) ∧
      removeDirectory env dir i (d.holding [dir] [blockOf dir i]) =
        some (0, d.removedDirectory dir i) := by
  have target := found_live ready there
  have both : ∀ id ∈ [(d.entryAt dir i).inode, dir], Live d id := by
    intro id inside
    rcases List.mem_pair.mp inside with rfl | rfl
    · exact target
    · exact live
  have swapped : ∀ id ∈ [dir, (d.entryAt dir i).inode], Live d id := fun id inside =>
    both id (List.mem_pair.mpr (List.mem_pair.mp inside).symm)
  rw [removeDirectory, holding_entryAt, Option.bind_eq_bind, iget_held ready (single_few dir),
    Option.bind_some]
  split
  · exact .inl ⟨-EPERM, by decide, leave_held (.swap ..) (.refl _) swapped⟩
  · split
    · exact .inl ⟨-EPERM, by decide, leave_held (.swap ..) (.refl _) swapped⟩
    · rename_i single
      split
      · exact .inl ⟨-EPERM, by decide, leave_live both⟩
      · rename_i apart
        split
        · exact .inl ⟨-ENOTDIR, by decide, leave_live both⟩
        · rename_i directory
          simp only [Bool.not_eq_true', Bool.not_eq_false] at directory
          have empty := emptyDir_starts ready [(d.entryAt dir i).inode, dir] [blockOf dir i]
            directory
          split
          · rename_i after outcome
            rw [outcome] at empty
            refine .inl ⟨-ENOTEMPTY, by decide, ?_⟩
            rw [show after = _ from empty.1, leave_live both]
          · rename_i after outcome
            rw [outcome] at empty
            have alone : d.inodeRefs (d.entryAt dir i).inode = 0 := by
              simp only [Disk.holding, List.count_cons_self] at single
              omega
            refine .inr ⟨apart, alone, directory, empty.2 rfl, ?_⟩
            rw [show after = _ from empty.1]
            simp only [holding_writeEntry, holding_brelse, holding_setNlinks, holding_inode,
              Option.bind_some]
            rw [setNlinks_other (Ne.symm apart), holding_perm (.swap ..) (.refl _)]
            exact removedDirectory_left ready isDir apart alone

theorem rmdir_cases (ready : Ready env d) (path : Name) :
    (∃ result, result < 0 ∧ sysRmdir env d path = some (result, d)) ∨
    ∃ dir name i, leads env d path = some (dir, name) ∧ d.found env dir name = some i ∧
      (d.entryAt dir i).inode ≠ dir ∧ d.inodeRefs (d.entryAt dir i).inode = 0 ∧
      isDirectory (d.inode (d.entryAt dir i).inode).mode = true ∧
      (∀ e ∈ (d.slots (d.entryAt dir i).inode).drop 2, e.inode = 0) ∧
      sysRmdir env d path = some (0, d.removedDirectory dir i) := by
  rw [sysRmdir]
  split
  · exact .inl ⟨-EPERM, by decide, rfl⟩
  · rcases within_cases ready path (removeDirectory env)
        (fun dir _ d => d.leave (-ENOENT) [dir] []) with
      failed | ⟨dir, name, i, there, entry, run⟩ | ⟨dir, name, there, _, _, run⟩
    · exact .inl failed
    · have enterable := enterable_live (leads_enterable there)
      rw [run]
      rcases removeDirectory_cases ready enterable.1 (leads_live there) entry with failed | done
      · exact .inl failed
      · exact .inr ⟨dir, name, i, there, entry, done⟩
    · exact .inl ⟨-ENOENT, by decide, run.trans (leave_one (leads_live there))⟩

/-! New inodes and their entries. -/

def Disk.fresh (d : Disk) (id : Ino) (inode : Inode) (slots : List DirEntry) : Disk :=
  { d with
    used := update d.used id true
    inode := update d.inode id inode
    slots := update d.slots id slots
    content := update d.content id [] }

def Disk.enter (d : Disk) (dir : Ino) (name : Name) (id : Ino) : Disk :=
  d.setSlots dir ((grown (d.slots dir)).set (freeSlot (d.slots dir)) ⟨id, name.take nameLen⟩)

theorem fresh_inode (id : Ino) (inode : Inode) (slots : List DirEntry) :
    (d.fresh id inode slots).inode id = inode := update_self _ _ _

theorem freeInode_setInode (id : Ino) (inode : Inode) :
    (d.setInode id inode).freeInode id = d.freeInode id := by
  simp only [Disk.freeInode, Disk.setInode, update_idem]

theorem newNumber_unused {id : Ino} (new : d.newNumber = some id) : d.used id = false := by
  simpa only [Bool.not_eq_true'] using List.find?_some new

theorem newInode_held (ready : Ready env d) {id : Ino} (new : d.newNumber = some id)
    (away : id ∉ ids) (few : ids.length ≤ 3) : (d.holding ids blocks).newInode env id =
      some ((d.fresh id ⟨0, env.euid, env.egid.setWidth 8, 1⟩ []).holding (id :: ids) blocks) := by
  have refs : update (fun x => d.inodeRefs x + ids.count x) id 1 =
      fun x => d.inodeRefs x + (id :: ids).count x := by
    rw [← count_head, (ready.free id (newNumber_unused new)).2.2.2, List.count_eq_zero.mpr away]
  rw [Disk.newInode, if_pos (slotFree_holding ready.few ready.room few)]
  simp only [Disk.holding, Disk.fresh, refs]

theorem unused_apart (ready : Ready env d) {id : Ino} (new : d.newNumber = some id)
    (isDir : isDirectory (d.inode dir).mode = true) : id ≠ dir := by
  rintro rfl
  rw [(ready.free id (newNumber_unused new)).1] at isDir
  cases isDir

theorem fresh_restored (ready : Ready env d) {id : Ino} (new : d.newNumber = some id)
    (inode : Inode) (slots : List DirEntry) : (d.fresh id inode slots).freeInode id = d := by
  obtain ⟨noneInode, noneSlots, noneContent, noneRefs⟩ := ready.free id (newNumber_unused new)
  simp only [Disk.fresh, Disk.freeInode, update_idem, ← noneInode, ← noneSlots]
  simp only [← newNumber_unused new, update_eq_self]
  rw [update_eq_self_iff.mpr noneContent.symm, update_eq_self_iff.mpr noneRefs.symm]

theorem fresh_gone (ready : Ready env d) {id : Ino} (new : d.newNumber = some id)
    (inode : Inode) (slots : List DirEntry) :
    ((d.fresh id inode slots).setNlinks id 0).settle id = d := by
  have dead : (((d.fresh id inode slots).setNlinks id 0).inode id).nlinks = 0 ∧
      ((d.fresh id inode slots).setNlinks id 0).inodeRefs id = 0 := by
    rw [setNlinks_self]
    exact ⟨rfl, (ready.free id (newNumber_unused new)).2.2.2⟩
  rw [Disk.settle, if_pos dead, Disk.setNlinks, freeInode_setInode, fresh_restored ready new]

theorem freeSlot_grown (slots : List DirEntry) : freeSlot slots < (grown slots).length := by
  rw [grown]
  split
  · assumption
  · have most : freeSlot slots ≤ slots.length := List.findIdx_le_length
    simp only [List.length_append, List.length_cons, List.length_nil]
    omega

theorem addEntry_cases (env : Env) (d : Disk) (ids : List Ino) (blocks : List DirBlock) (dir : Ino)
    (name : Name) :
    (d.holding ids blocks).addEntry env dir name = none ∨
    ∃ i after, (d.holding ids blocks).addEntry env dir name =
        some (i, after.holding ids (blockOf dir i :: blocks)) ∧
      after = d.enter dir name 0 ∧ ∀ id, after.writeEntry dir i id = d.enter dir name id := by
  rw [Disk.addEntry]
  split
  · exact .inl rfl
  · refine .inr ⟨freeSlot (d.slots dir), d.enter dir name 0, ?_, rfl, fun id => ?_⟩
    · rw [holding_setSlots, holding_hold]
      rfl
    · have bound : freeSlot (d.slots dir) <
          ((grown (d.slots dir)).set (freeSlot (d.slots dir)) ⟨0, name.take nameLen⟩).length := by
        rw [List.length_set]
        exact freeSlot_grown _
      simp only [Disk.writeEntry, Disk.entryAt, Disk.enter, setSlots_self, setSlots_twice,
        List.getD_eq_getElem _ _ bound, List.getElem_set_self, List.set_set]

/-! `open_namei` -/

def named (env : Env) (d : Disk) (path : Name) : Option Ino :=
  (leads env d path).bind fun (dir, name) =>
    if name = [] then some dir
    else (d.found env dir name).map fun i => (d.entryAt dir i).inode

theorem named_live (ready : Ready env d) {path : Name} {id : Ino}
    (there : named env d path = some id) : Live d id := by
  obtain ⟨⟨dir, name⟩, above, there⟩ := Option.bind_eq_some_iff.mp there
  simp only at there
  split at there
  · cases there
    exact leads_live above
  · obtain ⟨i, entry, rfl⟩ := Option.map_eq_some_iff.mp there
    exact found_live ready entry

def Disk.withFile (env : Env) (d : Disk) (mode : BitVec 16) (dir : Ino) (name : Name) (id : Ino) :
    Disk :=
  (d.fresh id ⟨mode, env.euid, env.egid.setWidth 8, 1⟩ []).enter dir name id

theorem live_fresh {id other : Ino} {inode : Inode} {slots : List DirEntry} (away : other ≠ id)
    (live : Live d other) : Live (d.fresh id inode slots) other := by
  have same : (d.fresh id inode slots).inode other = d.inode other := update_of_ne away _ _
  rw [Live, same]
  exact live

theorem createFile_cases (ready : Ready env d) (mode : BitVec 16) (name : Name)
    (isDir : isDirectory (d.inode dir).mode = true) (live : Live d dir) :
    createFile env mode dir name (d.holding [dir] []) = some (.error (-ENOSPC), d) ∨
    ∃ id, d.newNumber = some id ∧
      createFile env mode dir name (d.holding [dir] []) =
        some (.ok id, (d.withFile env mode dir name id).take id) := by
  rw [createFile, holding_newNumber]
  cases new : d.newNumber with
  | none => exact .inl (leave_one live)
  | some id =>
      have apart := unused_apart ready new isDir
      have away : id ∉ [dir] := fun inside => apart (List.mem_singleton.mp inside)
      simp only [newInode_held ready new away (single_few dir), Option.bind_eq_bind,
        Option.bind_some, holding_setInode, holding_inode]
      generalize made : (d.fresh id ⟨0, env.euid, env.egid.setWidth 8, 1⟩ []).setInode id _ = e
      have file : e = d.fresh id ⟨mode, env.euid, env.egid.setWidth 8, 1⟩ [] := by
        subst made
        simp only [Disk.fresh, Disk.setInode, update_self, update_idem]
      have stays : Live e dir := file ▸ live_fresh (Ne.symm apart) live
      rcases addEntry_cases env e [id, dir] [] dir name with
        full | ⟨i, after, run, _, written⟩
      · left
        rw [full]
        have last : (e.inode id).nlinks - 1 = 0 := by
          rw [file, fresh_inode]
          exact BitVec.sub_self 1
        have gone : (e.setNlinks id 0).settle id = d := file ▸ fresh_gone ready new _ _
        rw [holding_setNlinks, last, leave_first away fun other inside => ?_, gone]
        rw [List.mem_singleton.mp inside]
        exact live_setInode (Ne.symm apart) stays
      · right
        refine ⟨id, rfl, ?_⟩
        rw [run]
        simp only [holding_writeEntry, written]
        have live : ∀ other ∈ [dir], Live (e.enter dir name id) other := fun other inside =>
          List.mem_singleton.mp inside ▸ stays
        rw [holding_perm (.swap ..) (.refl _), Disk.withFile, ← file, ← holding_one]
        exact leave_rest live

inductive Opening (env : Env) (d : Disk) (path : Name) (flag : BitVec 32) : Opened → Disk → Prop
  | fails {result : Int} (negative : result < 0) : Opening env d path flag (.error result) d
  | reference {id : Ino} (there : named env d path = some id) :
      Opening env d path flag (.ok id) (d.take id)
  | truncated {id : Ino} (there : named env d path = some id)
      (file : isDirectory (d.inode id).mode = false) (truncates : flag &&& O_TRUNC ≠ 0) :
      Opening env d path flag (.ok id) ((d.take id).truncate id)
  | created {name : Name} {dir id : Ino} (mode : BitVec 16) (creates : flag &&& O_CREAT ≠ 0)
      (there : leads env d path = some (dir, name)) (absent : Missed env d dir name)
      (new : d.newNumber = some id) :
      Opening env d path flag (.ok id) ((d.withFile env
        (mode &&& 0o777#16 &&& ~~~env.umask ||| 0o100000#16) dir name id).take id)

theorem openEntry_cases (ready : Ready env d) {path : Name} {flag : BitVec 32}
    (above : leads env d path = some (dir, name)) (known : name ≠ [])
    (there : d.found env dir name = some i)
    (writes : flag &&& O_TRUNC ≠ 0 → flag &&& O_ACCMODE ≠ 0) :
    ∃ opened after, openEntry env flag dir i (d.holding [dir] [blockOf dir i]) =
      some (opened, after) ∧ Opening env d path flag opened after := by
  have live := leads_live above
  have target := found_live ready there
  have leadsTo : named env d path = some (d.entryAt dir i).inode := by
    rw [named, above, Option.bind_some]
    simp only [known, if_false, there, Option.map_some]
  rw [openEntry]
  generalize same : ((d.holding [dir] [blockOf dir i]).entryAt dir i).inode = id
  rw [show (d.entryAt dir i).inode = id from same] at target leadsTo
  simp only [Option.bind_eq_bind]
  rw [release_entry live]
  by_cases exclusive : flag &&& O_EXCL ≠ 0
  · exact ⟨_, _, if_pos exclusive, .fails (show -EEXIST < 0 by decide)⟩
  rw [if_neg exclusive, iget_held ready (Nat.zero_le _), Option.bind_some]
  split
  · exact ⟨_, _, leave_one target, .fails (show -EPERM < 0 by decide)⟩
  · rename_i allowed
    refine ⟨_, _, rfl, ?_⟩
    rw [holding_one]
    split
    · rename_i truncates
      refine .truncated leadsTo (Bool.eq_false_iff.mpr fun isDir => ?_) truncates
      simp only [holding_inode, isDir, Bool.true_and, Bool.or_eq_true, not_or,
        decide_eq_true_eq] at allowed
      exact allowed.1 (writes truncates)
    · exact .reference leadsTo

theorem truncate_writes (flag : BitVec 32) :
    (if flag &&& O_TRUNC ≠ 0 ∧ flag &&& O_ACCMODE = 0 then flag ||| O_WRONLY else flag) &&&
        O_TRUNC ≠ 0 →
      (if flag &&& O_TRUNC ≠ 0 ∧ flag &&& O_ACCMODE = 0 then flag ||| O_WRONLY else flag) &&&
        O_ACCMODE ≠ 0 := by
  intro truncates
  split
  · intro none
    have bit := congrArg (fun bits => bits.getLsbD 0) none
    simp [O_WRONLY, O_ACCMODE] at bit
  · rename_i unchanged
    rw [if_neg unchanged] at truncates
    exact fun none => unchanged ⟨truncates, none⟩

theorem Opening.adjusted {path : Name} {flag : BitVec 32} {opened : Opened} {after : Disk}
    (opening : Opening env d path (if flag &&& O_TRUNC ≠ 0 ∧ flag &&& O_ACCMODE = 0 then
      flag ||| O_WRONLY else flag) opened after) : Opening env d path flag opened after := by
  have keeps : ∀ bits : BitVec 32, O_WRONLY &&& bits = 0 →
      (if flag &&& O_TRUNC ≠ 0 ∧ flag &&& O_ACCMODE = 0 then flag ||| O_WRONLY else flag) &&&
        bits = flag &&& bits := by
    intro bits apart
    split
    · rw [BitVec.and_or_distrib_right, apart]
      exact BitVec.or_zero
    · rfl
  cases opening with
  | fails negative => exact .fails negative
  | reference there => exact .reference there
  | truncated there file truncates =>
      exact .truncated there file (keeps O_TRUNC rfl ▸ truncates)
  | created mode creates there absent new =>
      exact .created mode (keeps O_CREAT rfl ▸ creates) there absent new

theorem open_cases (ready : Ready env d) (path : Name) (flag : BitVec 32) (mode : BitVec 16) :
    ∃ opened after, openNamei env d path flag mode = some (opened, after) ∧
      Opening env d path flag opened after := by
  have start : dirNamei env path d = _ := dirNamei_leads ready [] (by decide) [] path
  have writes := truncate_writes flag
  suffices all : ∃ opened after, openNamei env d path flag mode = some (opened, after) ∧
      Opening env d path (if flag &&& O_TRUNC ≠ 0 ∧ flag &&& O_ACCMODE = 0 then
        flag ||| O_WRONLY else flag) opened after by
    obtain ⟨opened, after, run, opening⟩ := all
    exact ⟨opened, after, run, opening.adjusted⟩
  rw [openNamei, start, Option.bind_some]
  generalize (if flag &&& O_TRUNC ≠ 0 ∧ flag &&& O_ACCMODE = 0 then flag ||| O_WRONLY else flag) =
    flag at writes ⊢
  cases there : leads env d path with
  | none => exact ⟨_, _, rfl, .fails (show -ENOENT < 0 by decide)⟩
  | some found =>
      obtain ⟨dir, name⟩ := found
      have live := leads_live there
      have isDir := (enterable_live (leads_enterable there)).1
      simp only [Option.toList_some, List.map_cons, List.map_nil, List.append_nil, holding_inode]
      split
      · rename_i empty
        have itself : named env d path = some dir := by
          rw [named, there, Option.bind_some]
          exact if_pos empty
        split
        · exact ⟨_, _, rfl, holding_one (d := d) ▸ .reference itself⟩
        · exact ⟨_, _, leave_one live, .fails (show -EISDIR < 0 by decide)⟩
      · rename_i known
        cases entry : d.found env dir name with
        | none =>
            rw [findEntry_none entry]
            simp only
            split
            · exact ⟨_, _, leave_one live, .fails (show -ENOENT < 0 by decide)⟩
            · rename_i creates
              split
              · exact ⟨_, _, leave_one live, .fails (show -EACCES < 0 by decide)⟩
              · rcases createFile_cases ready
                  (mode &&& 0o777#16 &&& ~~~env.umask ||| 0o100000#16) name isDir live with
                  run | ⟨id, new, run⟩
                · exact ⟨_, _, run, .fails (show -ENOSPC < 0 by decide)⟩
                · exact ⟨_, _, run, .created mode creates there ⟨known, entry⟩ new⟩
        | some i =>
            rw [findEntry_some entry]
            exact openEntry_cases ready there known entry writes

/-! `sys_mkdir` -/

def Disk.withDirectory (env : Env) (d : Disk) (mode : BitVec 16) (dir : Ino) (name : Name)
    (id : Ino) : Disk :=
  ((d.fresh id ⟨0o040000#16 ||| mode &&& 0o777#16 &&& ~~~env.umask, env.euid, env.egid.setWidth 8, 2⟩
    [⟨id, dot⟩, ⟨dir, dotDot⟩]).enter dir name id).setNlinks dir ((d.inode dir).nlinks + 1)

theorem makeDirectory_cases (ready : Ready env d) (mode : BitVec 16) (name : Name)
    (isDir : isDirectory (d.inode dir).mode = true) (live : Live d dir) :
    (∃ result, result < 0 ∧ makeDirectory env mode dir name (d.holding [dir] []) =
      some (result, d)) ∨
    ∃ id, d.newNumber = some id ∧
      makeDirectory env mode dir name (d.holding [dir] []) =
        some (0, d.withDirectory env mode dir name id) := by
  rw [makeDirectory, holding_newNumber]
  cases new : d.newNumber with
  | none => exact .inl ⟨-ENOSPC, by decide, leave_one live⟩
  | some id =>
      have apart := unused_apart ready new isDir
      have away : id ∉ [dir] := fun inside => apart (List.mem_singleton.mp inside)
      have swapped : ∀ e : Disk, e.holding [id, dir] [] = e.holding [dir, id] [] := fun e =>
        holding_perm (.swap ..) (.refl _)
      simp only [newInode_held ready new away (single_few dir), Option.bind_eq_bind,
        Option.bind_some, holding_setInode, holding_setSlots, holding_inode]
      split
      · left
        have stays : Live (d.fresh id ⟨0, env.euid, env.egid.setWidth 8, 1⟩ []) dir :=
          live_fresh (Ne.symm apart) live
        have last : ((d.fresh id ⟨0, env.euid, env.egid.setWidth 8, 1⟩ []).inode id).nlinks - 1 = 0 := by
          rw [fresh_inode]
          exact BitVec.sub_self 1
        refine ⟨if env.noBlock then -ENOSPC else -ERROR, by split <;> decide, ?_⟩
        rw [swapped, iput_live stays, Option.bind_some, holding_inode, last, holding_setNlinks,
          leave_first List.not_mem_nil (List.forall_mem_nil _), fresh_gone ready new]
      · generalize made : ((d.fresh id ⟨0, env.euid, env.egid.setWidth 8, 1⟩ []).setSlots id
          [⟨id, dot⟩, ⟨dir, dotDot⟩]).setInode id _ = e
        have directory : e = d.fresh id
            ⟨0o040000#16 ||| mode &&& 0o777#16 &&& ~~~env.umask, env.euid, env.egid.setWidth 8, 2⟩
            [⟨id, dot⟩, ⟨dir, dotDot⟩] := by
          subst made
          simp only [Disk.fresh, Disk.setInode, Disk.setSlots, update_self, update_idem]
        have stays : Live e dir := directory ▸ live_fresh (Ne.symm apart) live
        rcases addEntry_cases env e [id, dir] [] dir name with
          full | ⟨i, after, run, _, written⟩
        · left
          refine ⟨-ENOSPC, by decide, ?_⟩
          rw [full]
          simp only
          rw [swapped, iput_live stays, Option.bind_some, holding_setNlinks,
            leave_first List.not_mem_nil (List.forall_mem_nil _), directory,
            fresh_gone ready new]
        · right
          refine ⟨id, rfl, ?_⟩
          rw [run]
          simp only [holding_writeEntry, written, holding_setNlinks, holding_inode]
          have links : ((e.enter dir name id).inode dir).nlinks = (d.inode dir).nlinks := by
            rw [directory]
            exact congrArg Inode.nlinks (update_of_ne (Ne.symm apart) _ _)
          rw [links, leave_held (.swap ..) (.refl _), Disk.withDirectory, ← directory]
          intro other inside
          rcases List.mem_pair.mp inside with rfl | rfl
          · rw [Live, setNlinks_self]
            rcases ready.directories other isDir with ⟨_, less⟩ | held
            · exact .inl fun none => by bv_omega
            · exact .inr (directory ▸ held)
          · refine .inl ?_
            have inode : (e.enter dir name other).inode other = _ := directory ▸ fresh_inode _ _ _
            rw [setNlinks_other apart, inode]
            exact show 2#8 ≠ 0#8 by decide

theorem mkdir_cases (ready : Ready env d) (path : Name) (mode : BitVec 16) :
    (∃ result, result < 0 ∧ sysMkdir env d path mode = some (result, d)) ∨
    ∃ dir name id, leads env d path = some (dir, name) ∧ Missed env d dir name ∧
      d.newNumber = some id ∧
      sysMkdir env d path mode = some (0, d.withDirectory env mode dir name id) := by
  rw [sysMkdir]
  split
  · exact .inl ⟨-EPERM, by decide, rfl⟩
  · rcases within_cases ready path (fun dir i d => d.leave (-EEXIST) [dir] [blockOf dir i])
        (makeDirectory env mode) with
      failed | ⟨dir, name, i, there, entry, run⟩ | ⟨dir, name, there, named, absent, run⟩
    · exact .inl failed
    · have live : ∀ id ∈ [dir], Live d id := fun id inside =>
        List.mem_singleton.mp inside ▸ leads_live there
      exact .inl ⟨-EEXIST, by decide, run.trans (leave_live live)⟩
    · have enterable := enterable_live (leads_enterable there)
      rw [run]
      rcases makeDirectory_cases ready mode name enterable.1 (leads_live there) with
        failed | ⟨id, new, done⟩
      · exact .inl failed
      · exact .inr ⟨dir, name, id, there, ⟨named, absent⟩, new, done⟩

/-! `sys_chdir` and `sys_chmod` -/

theorem namei_named (ready : Ready env d) (path : Name) :
    namei env path d = some (named env d path, d.holding (named env d path).toList []) := by
  have start : dirNamei env path d = _ := dirNamei_leads ready [] (by decide) [] path
  rw [namei, start, Option.bind_some, named]
  cases there : leads env d path with
  | none => rfl
  | some found =>
      obtain ⟨dir, name⟩ := found
      have live := leads_live there
      simp only [Option.toList_some, List.map_cons, List.map_nil, List.append_nil,
        Option.bind_some]
      split
      · rfl
      · cases entry : d.found env dir name with
        | none =>
            rw [findEntry_none entry]
            exact leave_one live
        | some i =>
            rw [findEntry_some entry]
            simp only [Option.bind_eq_bind]
            rw [holding_entryAt, release_entry live, iget_held ready (Nat.zero_le _)]
            rfl

theorem chdir_cases (ready : Ready env d) (path : Name) :
    (∃ result, result < 0 ∧ sysChdir env d path = some ((result, env.pwd), d)) ∨
    ∃ id, named env d path = some id ∧ isDirectory (d.inode id).mode = true ∧
      sysChdir env d path = (d.take id).leave (0, id) [env.pwd] [] := by
  rw [sysChdir, namei_named ready, Option.bind_some]
  cases there : named env d path with
  | none => exact .inl ⟨-ENOENT, by decide, rfl⟩
  | some id =>
      rw [Option.toList_some]
      simp only
      rw [holding_inode]
      split
      · exact .inl ⟨-ENOTDIR, by decide, leave_one (named_live ready there)⟩
      · rename_i directory
        simp only [Bool.not_eq_true', Bool.not_eq_false] at directory
        exact .inr ⟨id, rfl, directory, by rw [holding_one]⟩

theorem chmod_cases (ready : Ready env d) (path : Name) (mode : BitVec 16) :
    (∃ result, result < 0 ∧ sysChmod env d path mode = some (result, d)) ∨
    ∃ id, named env d path = some id ∧ sysChmod env d path mode =
      some (0, d.setInode id { d.inode id with
        mode := mode &&& 0o7777#16 ||| (d.inode id).mode &&& ~~~0o7777#16 }) := by
  rw [sysChmod, namei_named ready, Option.bind_some]
  cases there : named env d path with
  | none => exact .inl ⟨-ENOENT, by decide, rfl⟩
  | some id =>
      have live := named_live ready there
      rw [Option.toList_some]
      simp only
      rw [holding_inode, holding_setInode]
      split
      · exact .inl ⟨-EACCES, by decide, leave_one live⟩
      · refine .inr ⟨id, rfl, leave_one ?_⟩
        simp only [Live, Disk.setInode, update_self]
        exact live

end

end SymphonyPlus.Namei
