import SymphonyPlus.TreeRuns

/-! What names denote: each call of `Namei` changes the map from the names of the directories to
inodes at the names it was given only, and `sys_rename` does all or nothing. -/

namespace SymphonyPlus.Namei

open Function SlotTables

abbrev NameMap := Ino → Name → Option Ino

def Disk.lookup (d : Disk) : NameMap := fun dir name =>
  ((d.slots dir).find? fun e => e.inode ≠ 0 ∧ e.name = name).map DirEntry.inode

namespace NameMap

def bind (m : NameMap) (dir : Ino) (name : Name) (id : Ino) : NameMap := fun other text =>
  if other = dir ∧ text = name then some id else m other text

def unbind (m : NameMap) (dir : Ino) (name : Name) : NameMap := fun other text =>
  if other = dir ∧ text = name then none else m other text

def drop (m : NameMap) (dir : Ino) : NameMap := fun other text =>
  if other = dir then none else m other text

/-- An inode that no name leads to and that has no names. -/
def Unknown (m : NameMap) (id : Ino) : Prop :=
  (∀ dir name, m dir name ≠ some id) ∧ ∀ name, m id name = none

end NameMap

section

variable {d : Disk} {dir id : Ino} {name : Name} {i : Nat}

theorem find_used {slots : List DirEntry} {e : DirEntry}
    (found : slots.find? (fun e => e.inode ≠ 0 ∧ e.name = name) = some e) :
    e ∈ slots ∧ e.inode ≠ 0 ∧ e.name = name := by
  have fits := List.find?_some found
  simp only [decide_eq_true_eq] at fits
  exact ⟨List.mem_of_find?_eq_some found, fits.1, fits.2⟩

/-- With unique names a name leads to the inode of the entry that has it. -/
theorem lookup_iff (names : (usedNames (d.slots dir)).Nodup) :
    d.lookup dir name = some id ↔ (⟨id, name⟩ : DirEntry) ∈ d.slots dir ∧ id ≠ 0 := by
  rw [Disk.lookup]
  constructor
  · intro there
    obtain ⟨e, found, same⟩ := Option.map_eq_some_iff.mp there
    obtain ⟨inside, used, named⟩ := find_used found
    subst same named
    exact ⟨inside, used⟩
  · rintro ⟨inside, used⟩
    cases found : (d.slots dir).find? fun e => e.inode ≠ 0 ∧ e.name = name with
    | none =>
        have missed := List.find?_eq_none.mp found _ inside
        simp only [used, ne_eq, not_false_eq_true, and_self, decide_true, not_true] at missed
    | some e =>
        obtain ⟨member, busy, named⟩ := find_used found
        have kept : ∀ {e : DirEntry}, e ∈ d.slots dir → e.inode ≠ 0 →
            e ∈ (d.slots dir).filter inUse := fun inside used =>
          List.mem_filter.mpr ⟨inside, decide_eq_true used⟩
        have same : e = ⟨id, name⟩ :=
          List.inj_on_of_nodup_map names (kept member busy) (kept inside used) named
        rw [same]
        rfl

theorem lookup_same {after : Disk} {other : Ino} (same : after.slots other = d.slots other)
    (text : Name) : after.lookup other text = d.lookup other text := by
  rw [Disk.lookup, Disk.lookup, same]

theorem used_entries (slots : List DirEntry) (e : DirEntry) :
    e ∈ slots ∧ e.inode ≠ 0 ↔ e ∈ valuesOf inUse (fun e => e) slots := by
  rw [valuesOf, List.map_id', List.mem_filter, inUse, decide_eq_true_eq]

/-- Two lookups with the same entries. -/
theorem lookup_ext {m : NameMap} (names : (usedNames (d.slots dir)).Nodup)
    (same : ∀ id, (⟨id, name⟩ : DirEntry) ∈ d.slots dir ∧ id ≠ 0 ↔ m dir name = some id) :
    d.lookup dir name = m dir name :=
  Option.ext fun id => (lookup_iff names).trans (same id)

theorem lookup_clear (shape : Shape d) (bound : i < (d.slots dir).length)
    (used : (d.entryAt dir i).inode ≠ 0) :
    (d.writeEntry dir i 0).lookup = d.lookup.unbind dir (d.entryAt dir i).name := by
  funext other text
  rw [NameMap.unbind]
  by_cases same : other = dir
  · subst same
    have busy : inUse (d.slots other)[i] = true := by
      rw [← entryAt_eq bound]
      exact decide_eq_true used
    have slots : (d.writeEntry other i 0).slots other =
      (d.slots other).set i ⟨0, (d.entryAt other i).name⟩ := setSlots_self _
    have names := names_clear shape bound used (d.entryAt other i).name
    have entries := valuesOf_set_free (fun e : DirEntry => e)
      (a := ⟨0, (d.entryAt other i).name⟩) bound busy rfl
    have cleared := valuesOf_set_free DirEntry.name
      (a := ⟨0, (d.entryAt other i).name⟩) bound busy rfl
    have fresh := (List.nodup_cons.mp (cleared.nodup_iff.mp (shape.names other))).1
    rw [← entryAt_eq bound] at entries fresh
    refine lookup_ext (m := d.lookup.unbind other (d.entryAt other i).name)
      (slots ▸ names) fun id => ?_
    rw [slots, NameMap.unbind, used_entries _ ⟨id, text⟩]
    by_cases gone : text = (d.entryAt other i).name
    · subst gone
      rw [if_pos ⟨rfl, rfl⟩]
      constructor
      · intro inside
        exact absurd (List.mem_map_of_mem (f := DirEntry.name) inside) (by
          rw [valuesOf, List.map_id']
          exact fresh)
      · intro none
        cases none
    · rw [if_neg (fun both => gone both.2), lookup_iff (shape.names other),
        used_entries _ ⟨id, text⟩, entries.mem_iff, List.mem_cons]
      constructor
      · exact .inr
      · rintro (equal | inside)
        · exact absurd (congrArg DirEntry.name equal) gone
        · exact inside
  · rw [if_neg (fun both => same both.1)]
    exact lookup_same (setSlots_other same) text

theorem used_grown (slots : List DirEntry) :
    valuesOf inUse (fun e => e) (grown slots) = valuesOf inUse (fun e => e) slots := by
  rcases grown_starts slots with same | more
  · rw [same]
  · have empty : valuesOf inUse (fun e => e) [(⟨0, []⟩ : DirEntry)] = [] := rfl
    rw [more, valuesOf_append, empty, List.append_nil]

theorem lookup_enter {env : Env} (shape : Shape d) (isDir : d.IsDir dir)
    (absent : Absent env d dir name) (nonzero : id ≠ 0) :
    (d.enter dir name id).lookup = d.lookup.bind dir (name.take nameLen) id := by
  funext other text
  rw [NameMap.bind]
  by_cases same : other = dir
  · subst same
    have bound := freeSlot_grown (d.slots other)
    have free : inUse (grown (d.slots other))[freeSlot (d.slots other)] = false := by
      rw [inUse, grown_free _ bound]
      rfl
    have entries := valuesOf_set_used (fun e : DirEntry => e) (a := ⟨id, name.take nameLen⟩) bound
      free (decide_eq_true nonzero)
    rw [used_grown] at entries
    have slots : (d.enter other name id).slots other = (grown (d.slots other)).set
      (freeSlot (d.slots other)) ⟨id, name.take nameLen⟩ := setSlots_self _
    have names := names_enter shape isDir absent nonzero
    have missed := (absent_name shape isDir absent).1
    refine lookup_ext (m := d.lookup.bind other (name.take nameLen) id) (slots ▸ names)
      fun found => ?_
    rw [slots, NameMap.bind, used_entries _ ⟨found, text⟩, entries.mem_iff, List.mem_cons,
      ← used_entries]
    by_cases new : text = name.take nameLen
    · subst new
      rw [if_pos ⟨rfl, rfl⟩, Option.some_inj]
      constructor
      · rintro (equal | ⟨inside, used⟩)
        · exact (congrArg DirEntry.inode equal).symm
        · exact absurd (mem_usedNames inside used) missed
      · rintro rfl
        exact .inl rfl
    · rw [if_neg (fun both => new both.2), lookup_iff (shape.names other)]
      constructor
      · rintro (equal | inside)
        · exact absurd (congrArg DirEntry.name equal) new
        · exact inside
      · exact .inr
  · rw [if_neg (fun both => same both.1)]
    exact lookup_same (setSlots_other same) text

theorem lookup_write (shape : Shape d) (bound : i < (d.slots dir).length)
    (used : (d.entryAt dir i).inode ≠ 0) (nonzero : id ≠ 0) :
    (d.writeEntry dir i id).lookup = d.lookup.bind dir (d.entryAt dir i).name id := by
  have cleared := lookup_clear shape bound used
  have without := names_clear shape bound used (d.entryAt dir i).name
  have names := names_write shape bound used nonzero
  funext other text
  rw [NameMap.bind]
  by_cases same : other = dir
  · subst same
    have slots : (d.writeEntry other i id).slots other =
      (d.slots other).set i ⟨id, (d.entryAt other i).name⟩ := setSlots_self _
    have before : (d.writeEntry other i 0).slots other =
      (d.slots other).set i ⟨0, (d.entryAt other i).name⟩ := setSlots_self _
    have room : i < ((d.slots other).set i ⟨0, (d.entryAt other i).name⟩).length := by
      rwa [List.length_set]
    have free : inUse ((d.slots other).set i ⟨0, (d.entryAt other i).name⟩)[i] = false := by
      rw [List.getElem_set_self]
      rfl
    have entries := valuesOf_set_used (fun e : DirEntry => e)
      (a := ⟨id, (d.entryAt other i).name⟩) room free (decide_eq_true nonzero)
    rw [List.set_set] at entries
    refine lookup_ext (m := d.lookup.bind other (d.entryAt other i).name id) (slots ▸ names)
      fun found => ?_
    have rest := congrFun (congrFun cleared other) text
    have known : (d.writeEntry other i 0).lookup other text = some found ↔
        (⟨found, text⟩ : DirEntry) ∈ (d.writeEntry other i 0).slots other ∧ found ≠ 0 :=
      lookup_iff (before ▸ without)
    rw [rest, NameMap.unbind, before] at known
    rw [slots, NameMap.bind, used_entries _ ⟨found, text⟩, entries.mem_iff, List.mem_cons,
      ← used_entries, ← known]
    by_cases new : text = (d.entryAt other i).name
    · rw [if_pos ⟨rfl, new⟩, if_pos ⟨rfl, new⟩, Option.some_inj, DirEntry.mk.injEq]
      constructor
      · rintro (equal | none)
        · exact equal.1.symm
        · cases none
      · intro equal
        exact .inl ⟨equal.symm, new⟩
    · rw [if_neg (fun both => new both.2), if_neg (fun both => new both.2), DirEntry.mk.injEq]
      constructor
      · rintro (equal | there)
        · exact absurd equal.2 new
        · exact there
      · exact .inr
  · rw [if_neg (fun both => same both.1)]
    exact lookup_same (setSlots_other same) text

theorem lookup_freeInode : (d.freeInode id).lookup = d.lookup.drop id := by
  funext other text
  rw [NameMap.drop]
  by_cases same : other = id
  · subst same
    rw [if_pos rfl, Disk.lookup, show (d.freeInode other).slots other = [] from update_self _ _ _]
    rfl
  · rw [if_neg same]
    exact lookup_same (freeInode_slots same) text

theorem lookup_empty (empty : d.slots id = []) : ∀ text, d.lookup id text = none := by
  intro text
  rw [Disk.lookup, empty]
  rfl

theorem drop_empty {m : NameMap} (empty : ∀ text, m id text = none) : m.drop id = m := by
  funext other text
  rw [NameMap.drop]
  split
  · rename_i same
    rw [same, empty]
  · rfl

theorem lookup_settle (empty : d.slots id = []) : (d.settle id).lookup = d.lookup := by
  rw [Disk.settle]
  split
  · rw [lookup_freeInode, drop_empty (lookup_empty empty)]
  · rfl

theorem lookup_dropLink (empty : d.slots id = []) : (d.dropLink id).lookup = d.lookup := by
  rw [Disk.dropLink, lookup_settle (show (d.setNlinks id _).slots id = [] from empty)]
  rfl

theorem lookup_found {env : Env} (shape : Shape d) (there : d.found env dir name = some i) :
    d.lookup dir (soughtName dir name) = some (d.entryAt dir i).inode ∧
      (d.entryAt dir i).name = soughtName dir name := by
  obtain ⟨_, inside, used, named⟩ := found_entry there
  refine ⟨(lookup_iff (shape.names dir)).mpr ⟨?_, used⟩, named⟩
  rw [← named]
  exact inside

theorem lookup_absent {env : Env} (shape : Shape d) (isDir : d.IsDir dir)
    (absent : Absent env d dir name) : d.lookup dir (soughtName dir name) = none ∧
      soughtName dir name = name.take nameLen := by
  obtain ⟨missed, sought⟩ := absent_name shape isDir absent
  refine ⟨?_, sought⟩
  rw [sought]
  refine Option.eq_none_iff_forall_ne_some.mpr fun id there => ?_
  obtain ⟨inside, used⟩ := (lookup_iff (shape.names dir)).mp there
  exact missed (mem_usedNames inside used)

theorem unknown_new (shape : Shape d) (new : d.newNumber = some id) : d.lookup.Unknown id := by
  obtain ⟨unused, nonzero, _⟩ := newNumber_range shape new
  refine ⟨fun dir name there => ?_, lookup_empty (shape.blank id unused).2.1⟩
  obtain ⟨inside, _⟩ := (lookup_iff (shape.names dir)).mp there
  exact shape.nobody unused nonzero dir _ inside rfl

/-! `sys_rename` -/

theorem settle_inode {other : Ino} (away : other ≠ id) :
    (d.settle id).inode other = d.inode other ∧ (d.settle id).content other = d.content other := by
  rw [Disk.settle]
  split
  · exact ⟨update_of_ne away _ _, update_of_ne away _ _⟩
  · exact ⟨rfl, rfl⟩

theorem settle_nlinks : ((d.settle id).inode id).nlinks = (d.inode id).nlinks := by
  rw [Disk.settle]
  split
  · rename_i dead
    rw [dead.1, show (d.freeInode id).inode id = noInode from update_self _ _ _]
    rfl
  · rfl

theorem settle_refs : (d.settle id).inodeRefs = d.inodeRefs ∧
    (d.settle id).bufferRefs = d.bufferRefs := by
  rw [Disk.settle]
  split
  · rename_i dead
    exact ⟨freeInode_refs dead.2, rfl⟩
  · exact ⟨rfl, rfl⟩

theorem dropLink_fields (d : Disk) (id : Ino) : ((d.dropLink id).inode id).nlinks = (d.inode id).nlinks - 1 ∧
    (d.dropLink id).inodeRefs = d.inodeRefs ∧ (d.dropLink id).bufferRefs = d.bufferRefs ∧
    ∀ other, other ≠ id → (d.dropLink id).inode other = d.inode other ∧
      (d.dropLink id).content other = d.content other := by
  refine ⟨?_, settle_refs.1, settle_refs.2, fun other away => ?_⟩
  · rw [Disk.dropLink, settle_nlinks, setNlinks_self]
  · rw [Disk.dropLink]
    exact ⟨(settle_inode away).1.trans (setNlinks_other away), (settle_inode away).2⟩

theorem lookup_moved {env : Env} {od nd : Ino} {k : Nat} {oname nname : Name} (shape : Shape d)
    (ndDir : d.IsDir nd) (source : d.found env od oname = some k)
    (absent : Absent env d nd nname) (proper : Proper (nname.take nameLen)) :
    ((d.enter nd nname (d.entryAt od k).inode).writeEntry od k 0).lookup =
      (d.lookup.bind nd (soughtName nd nname) (d.entryAt od k).inode).unbind od
        (soughtName od oname) := by
  obtain ⟨bound, inside, used, _⟩ := found_entry source
  have known := shape.leads od _ inside used
  have entered : Shape (d.enter nd nname (d.entryAt od k).inode) :=
    shape_edit shape ndDir (edit_enter shape ndDir nname (d.entryAt od k).inode)
      (names_enter shape ndDir absent used) (fun _ => known) fun _ => proper
  obtain ⟨still, same⟩ := enter_entryAt nd nname (d.entryAt od k).inode bound used
  have cleared := lookup_clear entered still (by rw [same]; exact used)
  rw [same, lookup_enter shape ndDir absent used, (lookup_found shape source).2] at cleared
  rw [cleared, (lookup_absent shape ndDir absent).2]

theorem lookup_replaced {env : Env} {od nd : Ino} {j k : Nat} {oname nname : Name}
    (shape : Shape d) (ndDir : d.IsDir nd) (source : d.found env od oname = some k)
    (target : d.found env nd nname = some j)
    (apart : (d.entryAt nd j).inode ≠ (d.entryAt od k).inode)
    (other : ¬ d.IsDir (d.entryAt nd j).inode) :
    (d.publish od k nd j (d.entryAt od k).inode).lookup =
      (d.lookup.bind nd (soughtName nd nname) (d.entryAt od k).inode).unbind od
        (soughtName od oname) := by
  obtain ⟨bound, inside, used, _⟩ := found_entry source
  obtain ⟨boundN, insideN, usedN, _⟩ := found_entry target
  have known := shape.leads od _ inside used
  have text := shape.proper nd _ insideN usedN
  have written : Shape (d.writeEntry nd j (d.entryAt od k).inode) :=
    shape_edit shape ndDir
      (edit_write shape ndDir (entry_behind shape ndDir boundN other) boundN _)
      (names_write shape boundN usedN used) (fun _ => known) fun _ => text
  have places : ¬ (od = nd ∧ k = j) := by
    rintro ⟨rfl, rfl⟩
    exact apart rfl
  obtain ⟨length, same⟩ := write_entryAt (d := d) (d.entryAt od k).inode places
  have cleared := lookup_clear written (by rw [length]; exact bound) (by rw [same]; exact used)
  rw [same, lookup_write shape boundN usedN used, (lookup_found shape source).2,
    (lookup_found shape target).2] at cleared
  exact cleared

theorem lookup_dropped {env : Env} {od nd : Ino} {j k : Nat} {oname nname : Name}
    (shape : Shape d) (odDir : d.IsDir od) (ndDir : d.IsDir nd)
    (source : d.found env od oname = some k) (target : d.found env nd nname = some j)
    (apart : (d.entryAt nd j).inode ≠ (d.entryAt od k).inode)
    (other : ¬ d.IsDir (d.entryAt nd j).inode) :
    ((d.publish od k nd j (d.entryAt od k).inode).dropLink (d.entryAt nd j).inode).lookup =
      (d.lookup.bind nd (soughtName nd nname) (d.entryAt od k).inode).unbind od
        (soughtName od oname) := by
  have empty : (d.publish od k nd j (d.entryAt od k).inode).slots (d.entryAt nd j).inode = [] := by
    rw [Disk.publish, Disk.writeEntry, setSlots_other (Ne.symm (file_apart other odDir)),
      Disk.writeEntry, setSlots_other (Ne.symm (file_apart other ndDir)),
      shape.files _ (Bool.eq_false_iff.mpr other)]
  rw [lookup_dropLink empty]
  exact lookup_replaced shape ndDir source target apart other

theorem lookup_fresh {inode : Inode} {slots : List DirEntry} (other : Ino) (text : Name) :
    (d.fresh id inode slots).lookup other text = if other = id then
      (slots.find? fun e => e.inode ≠ 0 ∧ e.name = text).map DirEntry.inode
      else d.lookup other text := by
  split
  · rename_i same
    rw [same, Disk.lookup, show (d.fresh id inode slots).slots id = slots from update_self _ _ _]
  · rename_i away
    exact lookup_same (fresh_slots away) text

theorem absent_fresh {env : Env} {inode : Inode} {slots : List DirEntry} (apart : dir ≠ id)
    (absent : Absent env d dir name) : Absent env (d.fresh id inode slots) dir name := by
  refine ⟨⟨absent.named, ?_⟩, absent.readable⟩
  rw [Disk.found, fresh_slots apart]
  exact absent.missed

theorem lookup_withFile {env : Env} {mode : BitVec 16} (shape : Shape d)
    (new : d.newNumber = some id) (isDir : d.IsDir dir) (absent : Absent env d dir name)
    (file : isDirectory mode = false) :
    (d.withFile env mode dir name id).lookup = d.lookup.bind dir (soughtName dir name) id := by
  obtain ⟨unused, nonzero, _⟩ := newNumber_range shape new
  have apart : dir ≠ id := by
    rintro rfl
    exact absurd (shape.directory_used isDir) (Bool.eq_false_iff.mp unused)
  have made := shape_fresh shape new (show Begins d id ⟨mode, env.euid, env.egid.setWidth 8, 1⟩ [] from .file file)
  have same : (d.fresh id ⟨mode, env.euid, env.egid.setWidth 8, 1⟩ []).lookup = d.lookup := by
    funext other text
    rw [lookup_fresh]
    split
    · rename_i same
      rw [same, lookup_empty (shape.blank id unused).2.1]
      rfl
    · rfl
  have there : (d.fresh id ⟨mode, env.euid, env.egid.setWidth 8, 1⟩ []).IsDir dir := by
    rw [Disk.IsDir, fresh_other apart]
    exact isDir
  rw [Disk.withFile, lookup_enter made there (absent_fresh apart absent) nonzero, same,
    (lookup_absent shape isDir absent).2]

theorem lookup_withDirectory {env : Env} (mode : BitVec 16) (shape : Shape d)
    (new : d.newNumber = some id) (isDir : d.IsDir dir) (absent : Absent env d dir name) :
    (d.withDirectory env mode dir name id).lookup =
      ((d.lookup.bind id dot id).bind id dotDot dir).bind dir (soughtName dir name) id := by
  obtain ⟨unused, nonzero, _⟩ := newNumber_range shape new
  have apart : dir ≠ id := by
    rintro rfl
    exact absurd (shape.directory_used isDir) (Bool.eq_false_iff.mp unused)
  have above := shape.directory_nonzero isDir
  rw [Disk.withDirectory]
  generalize bits : 0o040000#16 ||| mode &&& 0o777#16 &&& ~~~env.umask = filemode
  have directory : isDirectory filemode = true := bits ▸ directory_mode _ _
  have made := shape_fresh shape new
    (show Begins d id ⟨filemode, env.euid, env.egid.setWidth 8, 2⟩ _ from .directory directory isDir)
  have begun : (d.fresh id ⟨filemode, env.euid, env.egid.setWidth 8, 2⟩
      [⟨id, dot⟩, ⟨dir, dotDot⟩]).lookup = (d.lookup.bind id dot id).bind id dotDot dir := by
    funext other text
    rw [lookup_fresh, NameMap.bind, NameMap.bind]
    split
    · rename_i same
      subst same
      by_cases first : text = dot
      · subst first
        simpa [dot, dotDot] using nonzero
      · by_cases second : text = dotDot
        · subst second
          simpa [dot, dotDot] using above
        · have blank := lookup_empty (shape.blank other unused).2.1 text
          simp [first, second, Ne.symm first, Ne.symm second, blank]
    · rename_i away
      simp only [away, false_and, if_false]
  have there : (d.fresh id ⟨filemode, env.euid, env.egid.setWidth 8, 2⟩
      [⟨id, dot⟩, ⟨dir, dotDot⟩]).IsDir dir := by
    rw [Disk.IsDir, fresh_other apart]
    exact isDir
  have entered := lookup_enter made there (absent_fresh apart absent) nonzero
  rw [begun, ← (lookup_absent shape isDir absent).2] at entered
  exact entered

theorem lookup_removed {env : Env} {i : Nat} (shape : Shape d)
    (there : d.found env dir name = some i) : (d.removedDirectory dir i).lookup =
      (d.lookup.unbind dir (soughtName dir name)).drop (d.entryAt dir i).inode := by
  obtain ⟨bound, _, used, _⟩ := found_entry there
  rw [Disk.removedDirectory, lookup_freeInode, ← (lookup_found shape there).2,
    ← lookup_clear shape bound used]
  rfl

theorem lookup_unlinked {env : Env} {i : Nat} (shape : Shape d)
    (there : d.found env dir name = some i) (isDir : d.IsDir dir)
    (file : isDirectory (d.inode (d.entryAt dir i).inode).mode = false) :
    ((d.writeEntry dir i 0).dropLink (d.entryAt dir i).inode).lookup =
      d.lookup.unbind dir (soughtName dir name) := by
  obtain ⟨bound, _, used, _⟩ := found_entry there
  have apart : (d.entryAt dir i).inode ≠ dir := by
    intro same
    rw [same, show isDirectory (d.inode dir).mode = true from isDir] at file
    cases file
  have empty : (d.writeEntry dir i 0).slots (d.entryAt dir i).inode = [] :=
    (setSlots_other apart).trans (shape.files _ file)
  rw [lookup_dropLink empty, lookup_clear shape bound used, (lookup_found shape there).2]

/-- An empty directory has its own two names only. -/
theorem empty_names (shape : Shape d) (isDir : d.IsDir id)
    (empty : ∀ e ∈ (d.slots id).drop 2, e.inode = 0) :
    ∀ text, text ≠ dot → text ≠ dotDot → d.lookup id text = none := by
  intro text first second
  refine Option.eq_none_iff_forall_ne_some.mpr fun found there => ?_
  obtain ⟨inside, used⟩ := (lookup_iff (shape.names id)).mp there
  rw [shape.starts id isDir] at inside
  rcases List.mem_cons.mp inside with same | inside
  · exact first (congrArg DirEntry.name same)
  · rcases List.mem_cons.mp inside with same | inside
    · exact second (congrArg DirEntry.name same)
    · exact used (empty _ inside)

end

/-! Calls. -/

inductive Effect (d : Disk) : Call → Int → Disk → Prop
  | fails {call : Call} {result : Int} (negative : result < 0) : Effect d call result d
  | closes {id : Ino} {after : Disk} (same : after.lookup = d.lookup) :
      Effect d (.closes id) 0 after
  | shares {id : Ino} : Effect d (.shares id) 0 (d.take id)
  | writes {id : Ino} {bytes : List (BitVec 8)} :
      Effect d (.writes id bytes) 0 (d.setContent id bytes)
  | chdir {env : Env} {path : Name} {id : Ino} {after : Disk} (there : named env d path = some id)
      (isDir : d.IsDir id) (same : after.lookup = d.lookup) : Effect d (.chdir env path) 0 after
  | chmod {env : Env} {path : Name} {mode : BitVec 16} {id : Ino} {inode : Inode}
      (there : named env d path = some id) :
      Effect d (.chmod env path mode) 0 (d.setInode id inode)
  | opens {env : Env} {path : Name} {flag : BitVec 32} {mode : BitVec 16} {id : Ino} {after : Disk}
      (there : named env d path = some id) (same : after.lookup = d.lookup) :
      Effect d (.opens env path flag mode) 0 after
  | creates {env : Env} {path : Name} {flag : BitVec 32} {mode : BitVec 16} {dir id : Ino}
      {name : Name} {after : Disk} (asked : flag &&& O_CREAT ≠ 0)
      (there : leads env d path = some (dir, name))
      (unbound : d.lookup dir (soughtName dir name) = none) (new : d.lookup.Unknown id)
      (bound : after.lookup = d.lookup.bind dir (soughtName dir name) id) :
      Effect d (.opens env path flag mode) 0 after
  | mkdir {env : Env} {path : Name} {mode : BitVec 16} {dir id : Ino} {name : Name} {after : Disk}
      (there : leads env d path = some (dir, name))
      (unbound : d.lookup dir (soughtName dir name) = none) (new : d.lookup.Unknown id)
      (bound : after.lookup =
        ((d.lookup.bind id dot id).bind id dotDot dir).bind dir (soughtName dir name) id) :
      Effect d (.mkdir env path mode) 0 after
  | rmdir {env : Env} {path : Name} {dir id : Ino} {name : Name} {after : Disk}
      (there : leads env d path = some (dir, name))
      (bound : d.lookup dir (soughtName dir name) = some id) (isDir : d.IsDir id)
      (empty : ∀ text, text ≠ dot → text ≠ dotDot → d.lookup id text = none)
      (gone : after.lookup = (d.lookup.unbind dir (soughtName dir name)).drop id) :
      Effect d (.rmdir env path) 0 after
  | unlink {env : Env} {path : Name} {dir id : Ino} {name : Name} {after : Disk}
      (there : leads env d path = some (dir, name))
      (bound : d.lookup dir (soughtName dir name) = some id) (file : ¬ d.IsDir id)
      (gone : after.lookup = d.lookup.unbind dir (soughtName dir name)) :
      Effect d (.unlink env path) 0 after
  | same {env : Env} {oldname newname : Name} {od nd src : Ino} {oname nname : Name}
      (old : leads env d oldname = some (od, oname)) (new : leads env d newname = some (nd, nname))
      (source : d.lookup od (soughtName od oname) = some src)
      (target : d.lookup nd (soughtName nd nname) = some src) :
      Effect d (.rename env oldname newname) 0 d
  | renames {env : Env} {oldname newname : Name} {od nd src : Ino} {oname nname : Name}
      {after : Disk} (old : leads env d oldname = some (od, oname))
      (new : leads env d newname = some (nd, nname))
      (source : d.lookup od (soughtName od oname) = some src)
      (target : d.lookup nd (soughtName nd nname) ≠ some src)
      (moved : after.lookup =
        (d.lookup.bind nd (soughtName nd nname) src).unbind od (soughtName od oname)) :
      Effect d (.rename env oldname newname) 0 after

section

variable {env : Env} {d : Disk} {held : List Ino}

theorem opening_effect {path : Name} {flag : BitVec 32} {opened : Opened} {after : Disk}
    (mode : BitVec 16) (shape : Shape d) (whole : flag &&& O_CREAT ≠ 0 → env.Whole)
    (opening : Opening env d path flag opened after) :
    Effect d (.opens env path flag mode) (answered opened) after := by
  cases opening with
  | fails negative => exact .fails negative
  | reference there => exact .opens there rfl
  | @truncated id there file truncates =>
      refine .opens there ?_
      have empty : (d.take id).slots id = [] := shape.files id file
      rw [Disk.truncate.eq_def]
      split
      · funext other text
        refine lookup_same ?_ text
        change update d.slots id [] other = d.slots other
        exact congrFun (update_eq_self_iff.mpr empty.symm) other
      · rfl
  | created bits asked there absent new =>
      have isDir := (enterable_live (leads_enterable there)).1
      have absent := absent.absent (whole asked)
      exact .creates asked there (lookup_absent shape isDir absent).1 (unknown_new shape new)
        (lookup_withFile shape new isDir absent (file_kind bits (~~~env.umask)))

theorem renaming_effect {oldname newname : Name} {result : Int} {after : Disk} (shape : Shape d)
    (text : 0 ∉ newname) (whole : env.Whole)
    (outcome : Renaming env d oldname newname result after) :
    Effect d (.rename env oldname newname) result after := by
  cases outcome with
  | fails negative => exact .fails negative
  | same old source new target one =>
      refine .same old new (lookup_found shape source).1 ?_
      rw [← one]
      exact (lookup_found shape target).1
  | @replaced od nd oname nname k j old source new target apart file other =>
      have ndDir := (enterable_live (leads_enterable new)).1
      refine .renames old new (lookup_found shape source).1 ?_
        (lookup_dropped shape (enterable_live (leads_enterable old)).1 ndDir source target apart
          (Bool.eq_false_iff.mp (regular_file other)))
      rw [(lookup_found shape target).1]
      exact fun same => apart (Option.some.inj same)
  | @moved od nd oname nname k old source new absent file =>
      have ndDir := (enterable_live (leads_enterable new)).1
      have absent := absent.absent whole
      refine .renames old new (lookup_found shape source).1 ?_
        (lookup_moved shape ndDir source absent (proper_new text new absent.named))
      rw [(lookup_absent shape ndDir absent).1]
      exact fun none => nomatch none

theorem lookup_iput {id : Ino} {after : Disk} (sound : Sound d held)
    (stays : rootIno ∈ held.erase id) (put : d.iput id = some after) :
    after.lookup = d.lookup := by
  rw [Disk.iput] at put
  split at put
  · cases put
  · split at put
    · rename_i last
      cases put
      rw [lookup_freeInode]
      refine drop_empty (lookup_empty (sound.tree.shape.files id (Bool.eq_false_iff.mpr ?_)))
      intro isDir
      by_cases top : id = rootIno
      · have more := List.count_pos_iff.mpr stays
        rw [top, List.count_erase_self, ← sound.counted.refs, ← top, last.1] at more
        exact absurd more (by decide)
      · have links := (directory_nlinks sound.tree isDir top).1
        rw [last.2] at links
        exact absurd links (by decide)
    · cases put
      rfl

/-- What each call does to the names, with its result. -/
theorem answer_effect {s : Session} (sound : s.Sound) {call : Call} (allowed : call.Allowed s) :
    ∃ result after, s.answer call = some (result, after) ∧
      Effect s.disk call result after.disk := by
  obtain ⟨d, held⟩ := s
  have shape := (Sound.tree sound).shape
  have counted := Sound.counted sound
  cases call with
  | opens env path flag mode =>
      obtain ⟨opened, after, run, opening⟩ :=
        open_cases (serves_ready sound allowed.1) path flag mode
      exact ⟨_, _, congrArg (Option.map _) run, opening_effect mode shape allowed.2.2 opening⟩
  | closes id =>
      obtain ⟨after, run, _⟩ := sound_iput sound allowed.1 allowed.2
      exact ⟨_, _, congrArg (Option.map _) run, .closes (lookup_iput sound allowed.2 run)⟩
  | shares id => exact ⟨_, _, rfl, .shares⟩
  | writes id bytes => exact ⟨_, _, rfl, .writes⟩
  | chdir env path =>
      rcases chdir_cases (serves_ready sound allowed.1) path with
        ⟨result, negative, run⟩ | ⟨id, there, isDir, run⟩
      · exact ⟨_, _, congrArg (Option.map _) run, .fails negative⟩
      · have live := named_live (serves_ready sound allowed.1) there
        have taken := sound_take sound (live_used sound live)
        have stays : rootIno ∈ (id :: held).erase env.pwd := by
          rw [List.erase_cons]
          split
          · exact counted.root
          · exact List.mem_cons_of_mem id allowed.2.2
        obtain ⟨after, put, _⟩ := sound_iput taken (List.mem_cons_of_mem id allowed.1.pwd) stays
        exact ⟨_, _, congrArg (Option.map _) (run.trans (leave_cons put)),
          .chdir there isDir (show after.lookup = (d.take id).lookup from
            lookup_iput taken stays put)⟩
  | chmod env path mode =>
      rcases chmod_cases (serves_ready sound allowed.1) path mode with
        ⟨result, negative, run⟩ | ⟨id, there, run⟩
      · exact ⟨_, _, congrArg (Option.map _) run, .fails negative⟩
      · exact ⟨_, _, congrArg (Option.map _) run, .chmod there⟩
  | mkdir env path mode =>
      rcases mkdir_cases (serves_ready sound allowed.1) path mode with
        ⟨result, negative, run⟩ | ⟨dir, name, id, there, absent, new, run⟩
      · exact ⟨_, _, congrArg (Option.map _) run, .fails negative⟩
      · have isDir := (enterable_live (leads_enterable there)).1
        have absent := absent.absent allowed.2.2
        exact ⟨_, _, congrArg (Option.map _) run,
          .mkdir there (lookup_absent shape isDir absent).1 (unknown_new shape new)
            (lookup_withDirectory mode shape new isDir absent)⟩
  | rmdir env path =>
      rcases rmdir_cases (serves_ready sound allowed.1) path with
        ⟨result, negative, run⟩ | ⟨dir, name, i, there, found, _, _, directory, empty, run⟩
      · exact ⟨_, _, congrArg (Option.map _) run, .fails negative⟩
      · exact ⟨_, _, congrArg (Option.map _) run,
          .rmdir there (lookup_found shape found).1 directory
            (empty_names shape directory empty) (lookup_removed shape found)⟩
  | unlink env path =>
      rcases unlink_cases (serves_ready sound allowed.1) path with
        ⟨result, negative, run⟩ | ⟨dir, name, i, there, found, file, run⟩
      · exact ⟨_, _, congrArg (Option.map _) run, .fails negative⟩
      · have isDir := (enterable_live (leads_enterable there)).1
        exact ⟨_, _, congrArg (Option.map _) run,
          .unlink there (lookup_found shape found).1 (Bool.eq_false_iff.mp file)
            (lookup_unlinked shape found isDir file)⟩
  | rename env oldname newname =>
      obtain ⟨result, after, run, outcome⟩ :=
        rename_cases (serves_ready sound allowed.1) oldname newname
      exact ⟨_, _, congrArg (Option.map _) run, renaming_effect shape allowed.2.2.1 allowed.2.2.2 outcome⟩

/-- In every state that a run reaches, each call has one of the effects, and no other. -/
theorem runs_effects {s t : Session} (sound : s.Sound) (reaches : Reaches s t) {call : Call}
    (allowed : call.Allowed t) : ∃ result after, t.answer call = some (result, after) ∧
      Effect t.disk call result after.disk :=
  answer_effect (reaches_sound sound reaches) allowed

def Session.filed : Session := Session.first.next (.opens .first [47, 97] O_CREAT 0o644)

theorem filed_reached : Reaches Session.first Session.filed :=
  reaches_next first_sound .start ⟨⟨List.mem_cons_self, by decide⟩, by decide, fun _ _ => rfl⟩

/-- `unlink /a` takes the name away, and the open file keeps its inode. -/
theorem runs_effects_unlink : ∃ after,
    Session.filed.answer (.unlink .first [47, 97]) = some (0, after) ∧
      Effect Session.filed.disk (.unlink .first [47, 97]) 0 after.disk ∧
      Session.filed.disk.lookup rootIno [97] = some 2 ∧ after.disk.lookup rootIno [97] = none := by
  have allowed : (Call.unlink .first [47, 97]).Allowed Session.filed :=
    ⟨⟨by decide +kernel, by decide +kernel⟩, by decide⟩
  obtain ⟨result, after, run, effect⟩ := runs_effects first_sound filed_reached allowed
  have answer : (Session.filed.answer (.unlink .first [47, 97])).map
      (fun out => (out.1, out.2.disk.lookup rootIno [97])) = some (0, none) := by decide +kernel
  rw [run] at answer
  obtain ⟨done, gone⟩ := Prod.mk.inj (Option.some.inj answer)
  simp only at done gone
  subst done
  exact ⟨after, run, effect, by decide +kernel, gone⟩

/-- `sys_rename` does all or nothing: it fails and leaves the disk as it is, or both names lead to
one file already, or in one step the new name leads to the file and the old one is gone; then one
link less leads to the file that the new name led to before, and every other inode, every other
file's content and every reference stay. -/
theorem rename_atomic {s t : Session} (sound : s.Sound) (reaches : Reaches s t)
    {oldname newname : Name} (allowed : (Call.rename env oldname newname).Allowed t) :
    ∃ result after, sysRename env t.disk oldname newname = some (result, after) ∧
      (result < 0 ∧ after = t.disk ∨ result = 0 ∧ ∃ od oname nd nname src,
        leads env t.disk oldname = some (od, oname) ∧
        leads env t.disk newname = some (nd, nname) ∧
        t.disk.lookup od (soughtName od oname) = some src ∧
        (t.disk.lookup nd (soughtName nd nname) = some src ∧ after = t.disk ∨
          t.disk.lookup nd (soughtName nd nname) ≠ some src ∧
          after.lookup = (t.disk.lookup.bind nd (soughtName nd nname) src).unbind od
            (soughtName od oname) ∧
          (∀ id, (after.inode id).nlinks = (t.disk.inode id).nlinks -
            if t.disk.lookup nd (soughtName nd nname) = some id then 1 else 0) ∧
          (∀ id, t.disk.lookup nd (soughtName nd nname) ≠ some id →
            after.inode id = t.disk.inode id ∧ after.content id = t.disk.content id) ∧
          after.inodeRefs = t.disk.inodeRefs ∧ after.bufferRefs = t.disk.bufferRefs)) := by
  have kept := reaches_sound sound reaches
  have shape := (Sound.tree kept).shape
  obtain ⟨result, after, run, outcome⟩ :=
    rename_cases (serves_ready kept allowed.1) oldname newname
  refine ⟨result, after, run, ?_⟩
  cases outcome with
  | fails negative => exact .inl ⟨negative, rfl⟩
  | same old source new target one =>
      have found := (lookup_found shape target).1
      rw [one] at found
      exact .inr ⟨rfl, _, _, _, _, _, old, new, (lookup_found shape source).1, .inl ⟨found, rfl⟩⟩
  | @replaced od nd oname nname k j old source new target apart file other =>
      have odDir := (enterable_live (leads_enterable old)).1
      have ndDir := (enterable_live (leads_enterable new)).1
      have found := (lookup_found shape target).1
      have moved := lookup_dropped shape odDir ndDir source target apart
        (Bool.eq_false_iff.mp (regular_file other))
      obtain ⟨links, refs, buffers, rest⟩ := dropLink_fields
        (t.disk.publish od k nd j (t.disk.entryAt od k).inode) (t.disk.entryAt nd j).inode
      refine .inr ⟨rfl, _, _, _, _, _, old, new, (lookup_found shape source).1,
        .inr ⟨?_, moved, fun id => ?_, fun id away => ?_, refs, buffers⟩⟩
      · rw [found]
        exact fun same => apart (Option.some.inj same)
      · rw [found]
        by_cases same : (t.disk.entryAt nd j).inode = id
        · subst same
          rw [if_pos rfl]
          exact links
        · rw [if_neg (fun equal => same (Option.some.inj equal)), (rest id (Ne.symm same)).1]
          exact (BitVec.sub_zero _).symm
      · rw [found] at away
        exact rest id fun same => away (congrArg some same.symm)
  | @moved od nd oname nname k old source new absent file =>
      have ndDir := (enterable_live (leads_enterable new)).1
      have absent := absent.absent allowed.2.2.2
      have free := (lookup_absent shape ndDir absent).1
      have moved := lookup_moved shape ndDir source absent
        (proper_new allowed.2.2.1 new absent.named)
      refine .inr ⟨rfl, _, _, _, _, _, old, new, (lookup_found shape source).1,
        .inr ⟨?_, moved, fun id => ?_, fun _ _ => ⟨rfl, rfl⟩, rfl, rfl⟩⟩
      · rw [free]
        exact fun none => nomatch none
      · rw [free, if_neg (fun none => nomatch none)]
        exact (BitVec.sub_zero _).symm

/-- `rename /a /b` of the new file. -/
theorem rename_atomic_moves : ∃ after od oname nd nname src,
    sysRename .first Session.filed.disk [47, 97] [47, 98] = some (0, after) ∧
      Session.filed.disk.lookup od (soughtName od oname) = some src ∧
      after.lookup = (Session.filed.disk.lookup.bind nd (soughtName nd nname) src).unbind od
        (soughtName od oname) ∧
      after.lookup rootIno [97] = none ∧ after.lookup rootIno [98] = some 2 := by
  have allowed : (Call.rename .first [47, 97] [47, 98]).Allowed Session.filed :=
    ⟨⟨by decide +kernel, by decide +kernel⟩, by decide, by decide, fun _ => rfl⟩
  obtain ⟨result, after, run, outcome⟩ := rename_atomic first_sound filed_reached allowed
  have answer : (sysRename .first Session.filed.disk [47, 97] [47, 98]).map (fun out =>
      (out.1, out.2.lookup rootIno [97], out.2.lookup rootIno [98])) = some (0, none, some 2) := by
    decide +kernel
  have before : Session.filed.disk.lookup rootIno [97] = some 2 := by decide +kernel
  rw [run] at answer
  simp only [Option.map_some, Option.some_inj, Prod.mk.injEq] at answer
  obtain ⟨rfl, gone, there⟩ := answer
  rcases outcome with failed | ⟨-, od, oname, nd, nname, src, -, -, source, same | moved⟩
  · exact absurd failed.1 (Int.lt_irrefl 0)
  · rw [same.2, before] at gone
    cases gone
  · exact ⟨after, od, oname, nd, nname, src, run, source, moved.2.1, gone, there⟩

end

end SymphonyPlus.Namei
