import SymphonyPlus.DirectoryTree
import SymphonyPlus.NameiRename

/-! Each change that a call of `Namei` makes keeps the tree. -/

namespace SymphonyPlus.Namei

open Function SlotTables

section

variable {d : Disk} {dir id : Ino} {ahead : Ino → Int} {loose : Ino}

theorem midway_ahead {other : Ino → Int} (mid : Midway d ahead loose)
    (same : ∀ id, id ≠ 0 → id ≠ rootIno → ahead id = other id) : Midway d other loose where
  shape := mid.shape
  home := mid.home
  counts := fun id nonzero below => same id nonzero below ▸ mid.counts id nonzero below

/-! Link counts. -/

theorem setNlinks_mode (nlinks : BitVec 8) (other : Ino) :
    ((d.setNlinks id nlinks).inode other).mode = (d.inode other).mode := by
  by_cases same : other = id
  · subst same
    simp only [Disk.setNlinks, Disk.setInode, update_self]
  · rw [setNlinks_other same]

theorem isDir_setNlinks (nlinks : BitVec 8) (other : Ino) :
    (d.setNlinks id nlinks).IsDir other ↔ d.IsDir other := by
  rw [Disk.IsDir, setNlinks_mode]

theorem shape_setNlinks (shape : Shape d) (used : d.used id = true) (nlinks : BitVec 8) :
    Shape (d.setNlinks id nlinks) where
  small := shape.small
  range := shape.range
  blank := by
    intro other unused
    have apart : other ≠ id := by
      rintro rfl
      exact absurd used (Bool.eq_false_iff.mp unused)
    rw [setNlinks_other apart]
    exact shape.blank other unused
  root := (isDir_setNlinks nlinks rootIno).mpr shape.root
  top := shape.top
  files := fun other file => shape.files other (setNlinks_mode nlinks other ▸ file)
  starts := fun dir isDir => shape.starts dir ((isDir_setNlinks nlinks dir).mp isDir)
  above := fun dir isDir =>
    (isDir_setNlinks nlinks _).mpr (shape.above dir ((isDir_setNlinks nlinks dir).mp isDir))
  leads := shape.leads
  names := shape.names
  proper := shape.proper
  rooted := fun dir isDir => rooted_mono (d := d) (d.setNlinks id nlinks)
    (fun other => (isDir_setNlinks nlinks other).mpr) (fun _ _ => rfl)
    (shape.rooted dir ((isDir_setNlinks nlinks dir).mp isDir))

theorem midway_setNlinks (mid : Midway d ahead loose) (used : d.used id = true)
    (nlinks : BitVec 8) : Midway (d.setNlinks id nlinks)
      (fun other => if other = id then (nlinks.toNat : Int) - d.links id else ahead other)
      loose where
  shape := shape_setNlinks mid.shape used nlinks
  home := fun other isDir => mid.home other ((isDir_setNlinks nlinks other).mp isDir)
  counts := by
    intro other nonzero below
    change _ = (d.links other : Int) + _
    by_cases same : other = id
    · subst same
      rw [setNlinks_self, if_pos rfl]
      omega
    · rw [setNlinks_other same, if_neg same]
      exact mid.counts other nonzero below

/-! An inode that is freed. -/

theorem freeInode_slots {other : Ino} (away : other ≠ id) :
    (d.freeInode id).slots other = d.slots other := update_of_ne away _ _

theorem freeInode_inode {other : Ino} (away : other ≠ id) :
    (d.freeInode id).inode other = d.inode other := update_of_ne away _ _

theorem freeInode_directory {other : Ino} (isDir : (d.freeInode id).IsDir other) :
    other ≠ id ∧ d.IsDir other := by
  by_cases same : other = id
  · subst same
    rw [Disk.IsDir, show (d.freeInode other).inode other = noInode from update_self _ _ _] at isDir
    cases isDir
  · rw [Disk.IsDir, freeInode_inode same] at isDir
    exact ⟨same, isDir⟩

theorem freeInode_parent {other : Ino} (away : other ≠ id) :
    (d.freeInode id).parent other = d.parent other := by
  rw [Disk.parent, Disk.parent, Disk.entryAt, Disk.entryAt, freeInode_slots away]

def Alone (d : Disk) (id : Ino) : Prop := ∀ dir, dir ≠ id → ∀ e ∈ d.slots dir, e.inode ≠ id

theorem Alone.parent (alone : Alone d id) (shape : Shape d) {other : Ino} (away : other ≠ id)
    (isDir : d.IsDir other) : d.parent other ≠ id := by
  refine alone other away ⟨d.parent other, dotDot⟩ ?_
  rw [shape.starts other isDir]
  exact List.mem_cons_of_mem _ List.mem_cons_self

theorem rooted_free (shape : Shape d) (alone : Alone d id) {other : Ino} (rooted : Rooted d other)
    (away : other ≠ id) : Rooted (d.freeInode id) other := by
  induction rooted with
  | root => exact .root
  | @under other directory above ih =>
      refine .under ?_ ?_
      · rw [Disk.IsDir, freeInode_inode away]
        exact directory
      · rw [freeInode_parent away]
        exact ih (alone.parent shape away directory)

theorem shape_free (shape : Shape d) (below : id ≠ rootIno) (alone : Alone d id) :
    Shape (d.freeInode id) where
  small := shape.small
  range := by
    intro other used
    by_cases same : other = id
    · subst same
      rw [show (d.freeInode other).used other = false from update_self _ _ _] at used
      cases used
    · rw [show (d.freeInode id).used other = d.used other from update_of_ne same _ _] at used
      exact shape.range other used
  blank := by
    intro other unused
    by_cases same : other = id
    · subst same
      exact ⟨update_self _ _ _, update_self _ _ _, update_self _ _ _⟩
    · rw [show (d.freeInode id).used other = d.used other from update_of_ne same _ _] at unused
      rw [freeInode_inode same, freeInode_slots same,
        show (d.freeInode id).content other = d.content other from update_of_ne same _ _]
      exact shape.blank other unused
  root := by
    rw [Disk.IsDir, freeInode_inode (Ne.symm below)]
    exact shape.root
  top := (freeInode_parent (Ne.symm below)).trans shape.top
  files := by
    intro other file
    by_cases same : other = id
    · subst same
      exact update_self _ _ _
    · rw [freeInode_inode same] at file
      rw [freeInode_slots same]
      exact shape.files other file
  starts := by
    intro other isDir
    obtain ⟨away, isDir⟩ := freeInode_directory isDir
    rw [freeInode_parent away, Disk.plain, freeInode_slots away]
    exact shape.starts other isDir
  above := by
    intro other isDir
    obtain ⟨away, isDir⟩ := freeInode_directory isDir
    rw [freeInode_parent away, Disk.IsDir, freeInode_inode (alone.parent shape away isDir)]
    exact shape.above other isDir
  leads := by
    intro other e inside used
    by_cases same : other = id
    · subst same
      rw [show (d.freeInode other).slots other = [] from update_self _ _ _] at inside
      cases inside
    · rw [freeInode_slots same] at inside
      rw [show (d.freeInode id).used e.inode = d.used e.inode from
        update_of_ne (alone other same e inside) _ _]
      exact shape.leads other e inside used
  names := by
    intro other
    by_cases same : other = id
    · subst same
      rw [show (d.freeInode other).slots other = [] from update_self _ _ _]
      exact List.nodup_nil
    · rw [freeInode_slots same]
      exact shape.names other
  proper := by
    intro other e inside used
    by_cases same : other = id
    · subst same
      rw [show (d.freeInode other).slots other = [] from update_self _ _ _] at inside
      cases inside
    · rw [freeInode_slots same] at inside
      exact shape.proper other e inside used
  rooted := by
    intro other isDir
    obtain ⟨away, isDir⟩ := freeInode_directory isDir
    exact rooted_free shape alone (shape.rooted other isDir) away

theorem links_alone (alone : Alone d id) : (d.freeInode id).links id = 0 := by
  refine total_eq_zero fun other e inside => ?_
  by_cases same : other = id
  · subst same
    rw [show (d.freeInode other).slots other = [] from update_self _ _ _] at inside
    cases inside
  · rw [freeInode_slots same] at inside
    exact decide_eq_false (alone other same e inside)

theorem midway_free (mid : Midway d ahead loose) (below : id ≠ rootIno) (alone : Alone d id)
    (settled : loose = 0 ∨ loose = id) :
    Midway (d.freeInode id)
      (fun other => if other = id then 0 else ahead other + (d.slots id).countP (leadsTo other))
      0 where
  shape := shape_free mid.shape below alone
  home := by
    intro other freed dir
    obtain ⟨away, isDir⟩ := freeInode_directory freed
    have nonzero := mid.shape.directory_nonzero isDir
    have notLoose : other ≠ loose := by
      rintro rfl
      exact settled.elim nonzero away
    have notAbove := alone.parent mid.shape away isDir
    have before := mid.home other isDir dir
    rw [freeInode_parent away]
    by_cases same : dir = id
    · subst same
      have gone : (d.freeInode dir).plain dir = [] := by
        rw [Disk.plain, show (d.freeInode dir).slots dir = [] from update_self _ _ _]
        rfl
      rw [gone, if_neg fun all => notAbove all.2.2.symm]
      rfl
    · rw [Disk.plain, freeInode_slots same]
      refine before.trans ?_
      simp only [notLoose, nonzero, ne_eq, not_false_eq_true, true_and]
  counts := by
    intro other nonzero top
    by_cases same : other = id
    · subst same
      rw [show (d.freeInode other).inode other = noInode from update_self _ _ _, if_pos rfl,
        links_alone alone]
      rfl
    · have counted := total_update d.slots id [] (leadsTo other)
      have links := mid.counts other nonzero top
      change (d.freeInode id).links other + _ = d.links other + 0 at counted
      rw [freeInode_inode same, if_neg same]
      omega

/-! An inode that is new. -/

theorem newNumber_range (shape : Shape d) (new : d.newNumber = some id) :
    d.used id = false ∧ id ≠ 0 ∧ id.toNat ≤ d.ninodes := by
  have small := shape.small
  obtain ⟨n, inside, rfl⟩ := List.mem_map.mp (List.mem_of_find?_eq_some new)
  obtain ⟨k, less, rfl⟩ := List.mem_range'.mp inside
  have value : (BitVec.ofNat 16 (1 + 1 * k)).toNat = 1 + k := by
    rw [BitVec.toNat_ofNat]
    omega
  refine ⟨newNumber_unused new, fun zero => ?_, by omega⟩
  rw [zero, show (0 : Ino).toNat = 0 from rfl] at value
  omega

theorem Shape.nobody (shape : Shape d) (unused : d.used id = false) (nonzero : id ≠ 0) :
    ∀ dir, ∀ e ∈ d.slots dir, e.inode ≠ id := by
  rintro dir e inside rfl
  exact absurd (shape.leads dir e inside nonzero) (Bool.eq_false_iff.mp unused)

section

variable {inode : Inode} {slots : List DirEntry}

theorem fresh_slots {other : Ino} (away : other ≠ id) :
    (d.fresh id inode slots).slots other = d.slots other := update_of_ne away _ _

theorem fresh_other {other : Ino} (away : other ≠ id) :
    (d.fresh id inode slots).inode other = d.inode other := update_of_ne away _ _

theorem fresh_used {other : Ino} (used : d.used other = true) :
    (d.fresh id inode slots).used other = true := by
  by_cases same : other = id
  · subst same
    exact update_self _ _ _
  · exact (update_of_ne same _ _).trans used

theorem fresh_parent {other : Ino} (away : other ≠ id) :
    (d.fresh id inode slots).parent other = d.parent other := by
  rw [Disk.parent, Disk.parent, Disk.entryAt, Disk.entryAt, fresh_slots away]

/-- What a new inode may begin with: nothing, or the two entries of a directory. -/
inductive Begins (d : Disk) (id : Ino) (inode : Inode) : List DirEntry → Prop
  | file (plain : isDirectory inode.mode = false) : Begins d id inode []
  | directory {dir : Ino} (isDir : isDirectory inode.mode = true) (above : d.IsDir dir) :
      Begins d id inode [⟨id, dot⟩, ⟨dir, dotDot⟩]

theorem Begins.members (begins : Begins d id inode slots) :
    ∀ e ∈ slots, (e.inode = id ∨ d.IsDir e.inode) ∧ (e.name = dot ∨ e.name = dotDot) := by
  cases begins with
  | file plain => exact fun e none => absurd none List.not_mem_nil
  | directory isDir above =>
      intro e inside
      rcases List.mem_pair.mp inside with rfl | rfl
      · exact ⟨.inl rfl, .inl rfl⟩
      · exact ⟨.inr above, .inr rfl⟩

theorem shape_fresh (shape : Shape d) (new : d.newNumber = some id)
    (begins : Begins d id inode slots) : Shape (d.fresh id inode slots) := by
  obtain ⟨unused, nonzero, within⟩ := newNumber_range shape new
  have apart : ∀ dir, d.IsDir dir → dir ≠ id := by
    rintro dir isDir rfl
    exact absurd (shape.directory_used isDir) (Bool.eq_false_iff.mp unused)
  have keeps : ∀ dir, d.IsDir dir → (d.fresh id inode slots).IsDir dir := by
    intro dir isDir
    rw [Disk.IsDir, fresh_other (apart dir isDir)]
    exact isDir
  have rooted : ∀ dir, d.IsDir dir → Rooted (d.fresh id inode slots) dir := fun dir isDir =>
    rooted_mono (d := d) _ keeps (fun other isDir => fresh_parent (apart other isDir))
      (shape.rooted dir isDir)
  have own : (d.fresh id inode slots).slots id = slots := update_self _ _ _
  have ownInode : (d.fresh id inode slots).inode id = inode := fresh_inode id inode slots
  refine
    { small := shape.small
      range := ?_
      blank := ?_
      root := keeps rootIno shape.root
      top := (fresh_parent (apart rootIno shape.root)).trans shape.top
      files := ?_
      starts := ?_
      above := ?_
      leads := ?_
      names := ?_
      proper := ?_
      rooted := ?_ }
  · intro other used
    by_cases same : other = id
    · subst same
      exact ⟨nonzero, within⟩
    · exact shape.range other ((update_of_ne same _ _).symm.trans used)
  · intro other free
    have away : other ≠ id := by
      rintro rfl
      rw [show (d.fresh other inode slots).used other = true from update_self _ _ _] at free
      cases free
    rw [fresh_other away, fresh_slots away,
      show (d.fresh id inode slots).content other = d.content other from update_of_ne away _ _]
    exact shape.blank other ((update_of_ne away _ _).symm.trans free)
  · intro other file
    by_cases same : other = id
    · subst same
      rw [ownInode] at file
      rw [own]
      cases begins with
      | file plain => rfl
      | directory isDir above => exact absurd isDir (Bool.eq_false_iff.mp file)
    · rw [fresh_other same] at file
      rw [fresh_slots same]
      exact shape.files other file
  · intro other isDir
    by_cases same : other = id
    · subst same
      rw [Disk.IsDir, ownInode] at isDir
      rw [Disk.plain, Disk.parent, Disk.entryAt, own]
      cases begins with
      | file plain => exact absurd isDir (Bool.eq_false_iff.mp plain)
      | directory isDir above => rfl
    · rw [Disk.IsDir, fresh_other same] at isDir
      rw [fresh_parent same, Disk.plain, fresh_slots same]
      exact shape.starts other isDir
  · intro other isDir
    by_cases same : other = id
    · subst same
      rw [Disk.IsDir, ownInode] at isDir
      rw [Disk.parent, Disk.entryAt, own]
      cases begins with
      | file plain => exact absurd isDir (Bool.eq_false_iff.mp plain)
      | directory isDir above => exact keeps _ above
    · rw [Disk.IsDir, fresh_other same] at isDir
      rw [fresh_parent same]
      exact keeps _ (shape.above other isDir)
  · intro other e inside used
    by_cases same : other = id
    · subst same
      rw [own] at inside
      rcases (begins.members e inside).1 with rfl | isDir
      · exact update_self _ _ _
      · exact fresh_used (shape.directory_used isDir)
    · rw [fresh_slots same] at inside
      exact fresh_used (shape.leads other e inside used)
  · intro other
    by_cases same : other = id
    · subst same
      rw [own]
      cases begins with
      | file plain => exact List.nodup_nil
      | @directory dir isDir above =>
          have first : inUse ⟨other, dot⟩ = true := decide_eq_true nonzero
          have second : inUse ⟨dir, dotDot⟩ = true :=
            decide_eq_true (shape.directory_nonzero above)
          rw [usedNames, valuesOf_used first, valuesOf_used second]
          change [dot, dotDot].Nodup
          decide
    · rw [fresh_slots same]
      exact shape.names other
  · intro other e inside used
    by_cases same : other = id
    · subst same
      rw [own] at inside
      rcases (begins.members e inside).2 with name | name
      · rw [name]
        exact ⟨by decide, by decide, by decide, by decide⟩
      · rw [name]
        exact ⟨by decide, by decide, by decide, by decide⟩
    · rw [fresh_slots same] at inside
      exact shape.proper other e inside used
  · intro other isDir
    by_cases same : other = id
    · subst same
      rw [Disk.IsDir, ownInode] at isDir
      cases begins with
      | file plain => exact absurd isDir (Bool.eq_false_iff.mp plain)
      | @directory dir isDir above =>
          refine .under (by rw [Disk.IsDir, ownInode]; exact isDir) ?_
          rw [Disk.parent, Disk.entryAt, own]
          exact rooted dir above
    · rw [Disk.IsDir, fresh_other same] at isDir
      exact rooted other isDir

theorem links_fresh (shape : Shape d) (new : d.newNumber = some id) (other : Ino) :
    (d.fresh id inode slots).links other = d.links other + slots.countP (leadsTo other) := by
  have blank := (shape.blank id (newNumber_unused new)).2.1
  have counted := total_update d.slots id slots (leadsTo other)
  rw [blank, List.countP_nil, Nat.add_zero] at counted
  exact counted

theorem midway_fresh (tree : Tree d) (new : d.newNumber = some id)
    (begins : Begins d id inode slots) : Midway (d.fresh id inode slots)
      (fun other => (if other = id then (inode.nlinks.toNat : Int) else 0) -
        slots.countP (leadsTo other)) id where
  shape := shape_fresh tree.shape new begins
  home := by
    have unused := newNumber_unused new
    have nonzero := (newNumber_range tree.shape new).2.1
    have blank := (tree.shape.blank id unused).2.1
    have plain : ∀ dir, (d.fresh id inode slots).plain dir = d.plain dir := by
      intro dir
      rw [Disk.plain, Disk.plain]
      by_cases same : dir = id
      · subst same
        rw [show (d.fresh dir inode slots).slots dir = slots from update_self _ _ _, blank]
        cases begins with
        | file _ => rfl
        | directory _ _ => rfl
      · rw [fresh_slots same]
    intro other isDir dir
    rw [plain]
    by_cases same : other = id
    · subst same
      rw [if_neg (fun all => all.2.1 rfl), List.countP_eq_zero]
      intro e inside leads
      exact tree.shape.nobody unused nonzero dir e (List.mem_of_mem_drop inside)
        (of_decide_eq_true leads)
    · rw [Disk.IsDir, fresh_other same] at isDir
      rw [fresh_parent same]
      refine (tree.home other isDir dir).trans ?_
      simp only [tree.shape.directory_nonzero isDir, same, ne_eq, not_false_eq_true, true_and]
  counts := by
    intro other nonzero below
    rw [links_fresh tree.shape new]
    by_cases same : other = id
    · subst same
      have before := tree.counts other nonzero below
      rw [(tree.shape.blank other (newNumber_unused new)).1] at before
      have none : ((noInode.nlinks.toNat : Nat) : Int) = 0 := rfl
      rw [fresh_inode, if_pos rfl]
      omega
    · have before := tree.counts other nonzero below
      rw [fresh_other same, if_neg same]
      omega

end

end

end SymphonyPlus.Namei
