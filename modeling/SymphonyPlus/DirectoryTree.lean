import Mathlib.Data.FinEnum
import SymphonyPlus.NameiCalls
import SymphonyPlus.SlotTables

/-! The directories of a disk are a tree, and the link count of an inode is the number of entries
that lead to it: what the changes of a call keep of this. -/

namespace SymphonyPlus.Namei

open Function SlotTables

abbrev Disk.IsDir (d : Disk) (id : Ino) : Prop := isDirectory (d.inode id).mode = true

def Disk.parent (d : Disk) (dir : Ino) : Ino := (d.entryAt dir 1).inode

/-- The entries of a directory behind its own two. -/
def Disk.plain (d : Disk) (dir : Ino) : List DirEntry := (d.slots dir).drop 2

def leadsTo (id : Ino) (e : DirEntry) : Bool := e.inode = id

def inUse (e : DirEntry) : Bool := e.inode ≠ 0

def Disk.links (d : Disk) (id : Ino) : Nat := total d.slots (leadsTo id)

def usedNames (slots : List DirEntry) : List Name := valuesOf inUse DirEntry.name slots

structure Proper (name : Name) : Prop where
  nonempty : name ≠ []
  short : name.length ≤ nameLen
  part : slash ∉ name
  text : 0 ∉ name

inductive Rooted (d : Disk) : Ino → Prop
  | root : Rooted d rootIno
  | under {dir : Ino} (isDir : d.IsDir dir) (above : Rooted d (d.parent dir)) : Rooted d dir

structure Shape (d : Disk) : Prop where
  small : d.ninodes ≤ 250
  range : ∀ id, d.used id = true → id ≠ 0 ∧ id.toNat ≤ d.ninodes
  blank : ∀ id, d.used id = false → d.inode id = noInode ∧ d.slots id = [] ∧ d.content id = []
  root : d.IsDir rootIno
  top : d.parent rootIno = rootIno
  files : ∀ id, isDirectory (d.inode id).mode = false → d.slots id = []
  starts : ∀ dir, d.IsDir dir →
    d.slots dir = ⟨dir, dot⟩ :: ⟨d.parent dir, dotDot⟩ :: d.plain dir
  above : ∀ dir, d.IsDir dir → d.IsDir (d.parent dir)
  leads : ∀ dir, ∀ e ∈ d.slots dir, e.inode ≠ 0 → d.used e.inode = true
  names : ∀ dir, (usedNames (d.slots dir)).Nodup
  proper : ∀ dir, ∀ e ∈ d.slots dir, e.inode ≠ 0 → Proper e.name
  rooted : ∀ dir, d.IsDir dir → Rooted d dir

/-- A disk in the middle of a call: how far each link count is ahead of the entries, and the one
directory that no entry leads to. -/
structure Midway (d : Disk) (ahead : Ino → Int) (loose : Ino) : Prop where
  shape : Shape d
  home : ∀ id, d.IsDir id → ∀ dir, (d.plain dir).countP (leadsTo id) =
    if id ≠ rootIno ∧ id ≠ loose ∧ dir = d.parent id then 1 else 0
  counts : ∀ id, id ≠ 0 → id ≠ rootIno → ((d.inode id).nlinks.toNat : Int) = d.links id + ahead id

/-- The tree between calls. Only the link count of the root is not what leads to it: the image
begins with another one. -/
def Tree (d : Disk) : Prop := Midway d (fun _ => 0) 0

section

variable {d : Disk} {dir id : Ino} {ahead : Ino → Int} {loose : Ino}

theorem Shape.directory_used (shape : Shape d) (isDir : d.IsDir id) : d.used id = true := by
  by_contra unused
  have blank := (shape.blank id (Bool.eq_false_iff.mpr unused)).1
  rw [Disk.IsDir, blank] at isDir
  cases isDir

theorem Shape.directory_nonzero (shape : Shape d) (isDir : d.IsDir id) : id ≠ 0 :=
  (shape.range id (shape.directory_used isDir)).1

/-! Entries that change. -/

theorem setSlots_other {other : Ino} {slots : List DirEntry} (away : other ≠ dir) :
    (d.setSlots dir slots).slots other = d.slots other := update_of_ne away _ _

/-- One entry behind the first two becomes another, or a new one is added. -/
structure Edit (d : Disk) (dir : Ino) (slots : List DirEntry) (old new : DirEntry) : Prop where
  rest : slots = ⟨dir, dot⟩ :: ⟨d.parent dir, dotDot⟩ :: slots.drop 2
  members : ∀ e ∈ slots, e.inode ≠ 0 → e ∈ d.slots dir ∨ e = new
  counts : ∀ id, id ≠ 0 → (slots.drop 2).countP (leadsTo id) + (if old.inode = id then 1 else 0) =
    (d.plain dir).countP (leadsTo id) + if new.inode = id then 1 else 0

theorem Edit.parent {slots : List DirEntry} {old new : DirEntry} (edit : Edit d dir slots old new)
    (id : Ino) : (d.setSlots dir slots).parent id = d.parent id := by
  rw [Disk.parent, Disk.entryAt]
  by_cases same : id = dir
  · subst same
    rw [setSlots_self, edit.rest]
    rfl
  · rw [setSlots_other same]
    rfl

theorem Edit.plain {slots : List DirEntry} {old new : DirEntry} (edit : Edit d dir slots old new)
    {id : Ino} (nonzero : id ≠ 0) (other : Ino) :
    ((d.setSlots dir slots).plain other).countP (leadsTo id) +
        (if other = dir ∧ old.inode = id then 1 else 0) =
      (d.plain other).countP (leadsTo id) + if other = dir ∧ new.inode = id then 1 else 0 := by
  rw [Disk.plain]
  by_cases same : other = dir
  · subst same
    rw [setSlots_self]
    simpa only [true_and] using edit.counts id nonzero
  · rw [setSlots_other same]
    simp only [same, false_and, if_false]
    rfl

theorem Edit.links {slots : List DirEntry} {old new : DirEntry} (edit : Edit d dir slots old new)
    (shape : Shape d) (isDir : d.IsDir dir) {id : Ino} (nonzero : id ≠ 0) :
    (d.setSlots dir slots).links id + (if old.inode = id then 1 else 0) =
      d.links id + if new.inode = id then 1 else 0 := by
  have whole := total_update d.slots dir slots (leadsTo id)
  have counted := edit.counts id nonzero
  have after := congrArg (List.countP (leadsTo id)) edit.rest
  have before := congrArg (List.countP (leadsTo id)) (shape.starts dir isDir)
  rw [List.countP_cons, List.countP_cons] at after before
  change (d.setSlots dir slots).links id + _ = d.links id + _ at whole
  omega

theorem rooted_mono (d' : Disk) (dirs : ∀ id, d.IsDir id → d'.IsDir id)
    (parents : ∀ id, d.IsDir id → d'.parent id = d.parent id) {dir : Ino} (rooted : Rooted d dir) :
    Rooted d' dir := by
  induction rooted with
  | root => exact .root
  | @under dir isDir above ih => exact .under (dirs dir isDir) (parents dir isDir ▸ ih)

theorem shape_edit {slots : List DirEntry} {old new : DirEntry} (shape : Shape d)
    (isDir : d.IsDir dir) (edit : Edit d dir slots old new) (names : (usedNames slots).Nodup)
    (leads : new.inode ≠ 0 → d.used new.inode = true) (proper : new.inode ≠ 0 → Proper new.name) :
    Shape (d.setSlots dir slots) where
  small := shape.small
  range := shape.range
  blank := by
    intro id unused
    have apart : id ≠ dir := by
      rintro rfl
      exact absurd (shape.directory_used isDir) (Bool.eq_false_iff.mp unused)
    rw [setSlots_other apart]
    exact shape.blank id unused
  root := shape.root
  top := (edit.parent rootIno).trans shape.top
  files := by
    intro id file
    have apart : id ≠ dir := by
      rintro rfl
      exact absurd isDir (Bool.eq_false_iff.mp file)
    rw [setSlots_other apart]
    exact shape.files id file
  starts := by
    intro id directory
    rw [edit.parent, Disk.plain]
    by_cases same : id = dir
    · subst same
      rw [setSlots_self]
      exact edit.rest
    · rw [setSlots_other same]
      exact shape.starts id directory
  above := by
    intro id directory
    rw [edit.parent]
    exact shape.above id directory
  leads := by
    intro id e inside used
    by_cases same : id = dir
    · subst same
      rw [setSlots_self] at inside
      rcases edit.members e inside used with before | rfl
      · exact shape.leads id e before used
      · exact leads used
    · rw [setSlots_other same] at inside
      exact shape.leads id e inside used
  names := by
    intro id
    by_cases same : id = dir
    · subst same
      rwa [setSlots_self]
    · rw [setSlots_other same]
      exact shape.names id
  proper := by
    intro id e inside used
    by_cases same : id = dir
    · subst same
      rw [setSlots_self] at inside
      rcases edit.members e inside used with before | rfl
      · exact shape.proper id e before used
      · exact proper used
    · rw [setSlots_other same] at inside
      exact shape.proper id e inside used
  rooted := fun id directory =>
    rooted_mono (d := d) (d.setSlots dir slots) (fun _ isDir => isDir) (fun id _ => edit.parent id)
      (shape.rooted id directory)

/-- An entry that leads to a file may come, go, or lead to another file. -/
theorem midway_edit {slots : List DirEntry} {old new : DirEntry} (mid : Midway d ahead loose)
    (isDir : d.IsDir dir) (edit : Edit d dir slots old new) (names : (usedNames slots).Nodup)
    (leads : new.inode ≠ 0 → d.used new.inode = true) (proper : new.inode ≠ 0 → Proper new.name)
    (fileOld : ¬ d.IsDir old.inode) (fileNew : ¬ d.IsDir new.inode) :
    Midway (d.setSlots dir slots) (fun id => ahead id + (if old.inode = id then 1 else 0) -
      if new.inode = id then 1 else 0) loose where
  shape := shape_edit mid.shape isDir edit names leads proper
  home := by
    intro id directory other
    have nonzero := mid.shape.directory_nonzero directory
    have before : old.inode ≠ id := fun same => fileOld (same ▸ directory)
    have after : new.inode ≠ id := fun same => fileNew (same ▸ directory)
    have counted := edit.plain nonzero other
    rw [if_neg (fun both => before both.2), if_neg (fun both => after both.2)] at counted
    rw [edit.parent]
    exact counted.trans (mid.home id directory other)
  counts := by
    intro id nonzero below
    have counted := edit.links mid.shape isDir nonzero
    have links := mid.counts id nonzero below
    change ((d.inode id).nlinks.toNat : Int) = _
    split_ifs at counted ⊢ <;> omega

/-! The edits of the calls. -/

theorem entryAt_eq {i : Nat} (bound : i < (d.slots dir).length) :
    d.entryAt dir i = (d.slots dir)[i] := List.getD_eq_getElem _ _ bound

/-- A number that is written to an entry behind the first two. -/
theorem edit_write (shape : Shape d) (isDir : d.IsDir dir) {i : Nat}
    (behind : 2 ≤ i) (bound : i < (d.slots dir).length) (e : DirEntry) :
    Edit d dir ((d.slots dir).set i e) (d.entryAt dir i) e := by
  obtain ⟨j, rfl⟩ : ∃ j, i = j + 2 := ⟨i - 2, by omega⟩
  have starts := shape.starts dir isDir
  have inside : j < (d.plain dir).length := by
    rw [Disk.plain, List.length_drop]
    omega
  have entry : d.entryAt dir (j + 2) = (d.plain dir)[j] := by
    simp only [entryAt_eq bound, Disk.plain, List.getElem_drop, Nat.add_comm]
  have changed : (d.slots dir).set (j + 2) e =
      ⟨dir, dot⟩ :: ⟨d.parent dir, dotDot⟩ :: (d.plain dir).set j e := by
    rw [starts]
    rfl
  refine ⟨?_, ?_, fun id _ => ?_⟩
  · rw [changed]
    rfl
  · intro other member _
    exact mem_set_or member
  · have counted := countP_set_add (leadsTo id) inside e
    rw [changed, entry]
    change ((d.plain dir).set j e).countP (leadsTo id) + _ = _
    simpa only [leadsTo, decide_eq_true_eq] using counted

theorem grown_starts (slots : List DirEntry) :
    grown slots = slots ∨ grown slots = slots ++ [⟨0, []⟩] := by
  rw [grown]
  split
  · exact .inl rfl
  · exact .inr rfl

theorem grown_free (slots : List DirEntry) (bound : freeSlot slots < (grown slots).length) :
    (grown slots)[freeSlot slots].inode = 0 := by
  by_cases room : freeSlot slots < slots.length
  · have same : grown slots = slots := if_pos room
    have found := List.findIdx_getElem (p := fun e => decide (DirEntry.inode e = 0)) (w := room)
    simp only [same]
    exact of_decide_eq_true found
  · have same : grown slots = slots ++ [⟨0, []⟩] := if_neg room
    have most : freeSlot slots ≤ slots.length := List.findIdx_le_length
    have last : freeSlot slots = slots.length := by omega
    simp only [same, last, List.getElem_concat_length]

theorem usedNames_grown (slots : List DirEntry) : usedNames (grown slots) = usedNames slots := by
  rcases grown_starts slots with same | more
  · rw [same]
  · have empty : usedNames [⟨0, []⟩] = [] := rfl
    rw [more, usedNames, valuesOf_append]
    exact (congrArg (usedNames slots ++ ·) empty).trans (List.append_nil _)

theorem grown_count {id : Ino} (nonzero : id ≠ 0) (slots : List DirEntry) :
    (grown slots).countP (leadsTo id) = slots.countP (leadsTo id) := by
  rcases grown_starts slots with same | more
  · rw [same]
  · have other : leadsTo id ⟨0, []⟩ = false := decide_eq_false (Ne.symm nonzero)
    rw [more, List.countP_append, List.countP_cons, other]
    rfl

/-- A free entry that leads somewhere. -/
theorem edit_enter (shape : Shape d) (isDir : d.IsDir dir) (name : Name) (id : Ino) :
    Edit d dir ((grown (d.slots dir)).set (freeSlot (d.slots dir)) ⟨id, name.take nameLen⟩)
      ⟨0, []⟩ ⟨id, name.take nameLen⟩ := by
  have starts := shape.starts dir isDir
  have self : dir ≠ 0 := shape.directory_nonzero isDir
  have up : d.parent dir ≠ 0 := shape.directory_nonzero (shape.above dir isDir)
  have index : freeSlot (d.slots dir) = freeSlot (d.plain dir) + 2 := by
    rw [starts, freeSlot, List.findIdx_cons, List.findIdx_cons]
    simp only [self, up, decide_false, cond_false]
    rfl
  have grows : grown (d.slots dir) =
      ⟨dir, dot⟩ :: ⟨d.parent dir, dotDot⟩ :: grown (d.plain dir) := by
    have length := congrArg List.length starts
    simp only [List.length_cons] at length
    rw [grown, grown, index]
    by_cases room : freeSlot (d.plain dir) < (d.plain dir).length
    · rw [if_pos room, if_pos (by omega)]
      exact starts
    · rw [if_neg room, if_neg (by omega)]
      exact congrArg (· ++ [⟨0, []⟩]) starts
  have bound := freeSlot_grown (d.plain dir)
  rw [index, grows]
  refine ⟨rfl, ?_, fun other nonzero => ?_⟩
  · intro e inside used
    rw [starts]
    simp only [List.set_cons_succ, List.mem_cons] at inside ⊢
    rcases inside with first | second | rest
    · exact .inl (.inl first)
    · exact .inl (.inr (.inl second))
    · rcases mem_set_or rest with before | new
      · rcases grown_starts (d.plain dir) with same | more
        · exact .inl (.inr (.inr (same ▸ before)))
        · rw [more] at before
          rcases List.mem_append.mp before with before | last
          · exact .inl (.inr (.inr before))
          · rw [List.mem_singleton.mp last] at used
            exact absurd rfl used
      · exact .inr new
  · have counted := countP_set_add (leadsTo other) bound ⟨id, name.take nameLen⟩
    have free := grown_free (d.plain dir) bound
    simp only [grown_count nonzero, leadsTo, free, decide_eq_true_eq] at counted
    exact counted

/-! Names. -/

theorem splitOn_parts (path : Name) : ∀ part ∈ path.splitOn slash,
    slash ∉ part ∧ ∀ c ∈ part, c ∈ path := by
  induction path with
  | nil =>
      intro part inside
      rw [List.splitOn_nil, List.mem_singleton] at inside
      rw [inside]
      exact ⟨List.not_mem_nil, fun c none => none⟩
  | cons first rest ih =>
      have whole : (first :: rest).splitOn slash = if first == slash then [] :: rest.splitOn slash
          else (rest.splitOn slash).modifyHead (List.cons first) :=
        List.splitOnP_cons_eq_if_modifyHead first rest
      intro part inside
      rw [whole] at inside
      have later : ∀ part : Name, (slash ∉ part ∧ ∀ c ∈ part, c ∈ rest) →
          slash ∉ part ∧ ∀ c ∈ part, c ∈ first :: rest := fun part fine =>
        ⟨fine.1, fun c member => List.mem_cons_of_mem first (fine.2 c member)⟩
      split at inside
      · rcases List.mem_cons.mp inside with rfl | inside
        · exact ⟨List.not_mem_nil, fun c none => absurd none List.not_mem_nil⟩
        · exact later part (ih part inside)
      · rename_i other
        cases parts : rest.splitOn slash with
        | nil =>
            rw [parts] at inside
            cases inside
        | cons head tail =>
            rw [parts] at inside ih
            rcases List.mem_cons.mp inside with rfl | inside
            · obtain ⟨clear, within⟩ := ih head List.mem_cons_self
              refine ⟨fun slashed => ?_, fun c member => ?_⟩
              · rcases List.mem_cons.mp slashed with same | slashed
                · exact other (by rw [same]; exact beq_self_eq_true first)
                · exact clear slashed
              · rcases List.mem_cons.mp member with rfl | member
                · exact List.mem_cons_self
                · exact List.mem_cons_of_mem first (within c member)
            · exact later part (ih part (List.mem_cons_of_mem head inside))

theorem basename_part (path : Name) :
    slash ∉ basename path ∧ ∀ c ∈ basename path, c ∈ path := by
  have nonempty : path.splitOn slash ≠ [] := List.splitOnP_ne_nil _ path
  refine splitOn_parts path _ ?_
  rw [basename, List.getLastD_eq_getLast?, List.getLast?_eq_some_getLast nonempty]
  exact List.getLast_mem nonempty

theorem leads_name {env : Env} {path name : Name} (there : leads env d path = some (dir, name)) :
    name = basename path := by
  cases path with
  | nil => cases there
  | cons c rest =>
      obtain ⟨last, _, same⟩ := Option.map_eq_some_iff.mp there
      exact (congrArg Prod.snd same).symm

theorem proper_new {env : Env} {path name : Name} (text : 0 ∉ path)
    (there : leads env d path = some (dir, name)) (named : name ≠ []) :
    Proper (name.take nameLen) := by
  obtain ⟨clear, within⟩ := basename_part path
  rw [← leads_name there] at clear within
  refine ⟨fun empty => ?_, ?_, fun slashed => clear (List.mem_of_mem_take slashed),
    fun zero => text (within 0 (List.mem_of_mem_take zero))⟩
  · rcases List.take_eq_nil_iff.mp empty with zero | empty
    · cases zero
    · exact named empty
  · rw [List.length_take]
    exact Nat.min_le_left _ _

theorem mem_usedNames {slots : List DirEntry} {e : DirEntry} (inside : e ∈ slots)
    (used : e.inode ≠ 0) : e.name ∈ usedNames slots :=
  List.mem_map_of_mem (List.mem_filter.mpr ⟨inside, decide_eq_true used⟩)

theorem absent_name {env : Env} {name : Name} (shape : Shape d) (isDir : d.IsDir dir)
    (absent : Absent env d dir name) : name.take nameLen ∉ usedNames (d.slots dir) ∧
      soughtName dir name = name.take nameLen := by
  have missed := absent.missed
  rw [Disk.found, if_neg absent.named, reached_all absent.readable, entryIndex,
    List.findIdx?_eq_none_iff] at missed
  have nobody : ∀ e ∈ d.slots dir, e.inode ≠ 0 → e.name ≠ soughtName dir name := by
    intro e inside used same
    have wrong := missed e inside
    simp only [used, same, ne_eq, not_false_eq_true, and_self, decide_true, Bool.true_eq_false]
      at wrong
  have sought : soughtName dir name = name.take nameLen := by
    rw [soughtName]
    split
    · rename_i faked
      have starts := shape.starts dir isDir
      have first : (⟨dir, dot⟩ : DirEntry) ∈ d.slots dir := starts ▸ List.mem_cons_self
      have wrong := nobody _ first (shape.directory_nonzero isDir)
      rw [soughtName, if_pos faked] at wrong
      exact absurd rfl wrong
    · rfl
  refine ⟨fun inside => ?_, sought⟩
  obtain ⟨e, member, same⟩ := List.mem_map.mp inside
  obtain ⟨inside, used⟩ := List.mem_filter.mp member
  exact nobody e inside (of_decide_eq_true used) (same.trans sought.symm)

theorem names_enter {env : Env} {name : Name} (shape : Shape d) (isDir : d.IsDir dir)
    (absent : Absent env d dir name) (nonzero : id ≠ 0) :
    (usedNames ((grown (d.slots dir)).set (freeSlot (d.slots dir))
      ⟨id, name.take nameLen⟩)).Nodup := by
  have bound := freeSlot_grown (d.slots dir)
  have free : inUse (grown (d.slots dir))[freeSlot (d.slots dir)] = false := by
    rw [inUse, grown_free _ bound]
    rfl
  have entered := valuesOf_set_used DirEntry.name (a := ⟨id, name.take nameLen⟩) bound free
    (decide_eq_true nonzero)
  have before := usedNames_grown (d.slots dir)
  rw [usedNames] at before
  rw [before] at entered
  exact entered.nodup_iff.mpr
    (List.nodup_cons.mpr ⟨(absent_name shape isDir absent).1, shape.names dir⟩)

theorem names_clear {i : Nat} (shape : Shape d) (bound : i < (d.slots dir).length)
    (used : (d.entryAt dir i).inode ≠ 0) (name : Name) :
    (usedNames ((d.slots dir).set i ⟨0, name⟩)).Nodup := by
  have busy : inUse (d.slots dir)[i] = true := by
    rw [← entryAt_eq bound]
    exact decide_eq_true used
  have cleared := valuesOf_set_free DirEntry.name (a := ⟨0, name⟩) bound busy rfl
  exact (List.nodup_cons.mp (cleared.nodup_iff.mp (shape.names dir))).2

theorem names_write {i : Nat} (shape : Shape d) (bound : i < (d.slots dir).length)
    (used : (d.entryAt dir i).inode ≠ 0) (nonzero : id ≠ 0) :
    (usedNames ((d.slots dir).set i { d.entryAt dir i with inode := id })).Nodup := by
  have busy : inUse (d.slots dir)[i] = true := by
    rw [← entryAt_eq bound]
    exact decide_eq_true used
  have same := valuesOf_set_same DirEntry.name
    (a := { d.entryAt dir i with inode := id }) bound busy (decide_eq_true nonzero)
    (by rw [← entryAt_eq bound])
  rw [usedNames, same]
  exact shape.names dir

end

end SymphonyPlus.Namei
