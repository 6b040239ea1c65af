import SymphonyPlus.TreeChanges

/-! What a call of `Namei` makes of the disk is a tree again: the changes put together. -/

namespace SymphonyPlus.Namei

open Function SlotTables

section

variable {d : Disk} {dir id : Ino} {env : Env} {name : Name} {i : Nat}

theorem entry_behind (shape : Shape d) (isDir : d.IsDir dir) (bound : i < (d.slots dir).length)
    (file : ¬ d.IsDir (d.entryAt dir i).inode) : 2 ≤ i := by
  have starts := shape.starts dir isDir
  by_contra less
  have small : i = 0 ∨ i = 1 := by omega
  refine file ?_
  rcases small with rfl | rfl
  · rw [show d.entryAt dir 0 = ⟨dir, dot⟩ by rw [Disk.entryAt, starts]; rfl]
    exact isDir
  · exact shape.above dir isDir

theorem file_apart (file : ¬ d.IsDir id) (isDir : d.IsDir dir) : dir ≠ id := by
  rintro rfl
  exact file isDir

theorem zero_file (shape : Shape d) : ¬ d.IsDir 0 := fun isDir => shape.directory_nonzero isDir rfl

theorem midway_file {ahead : Ino → Int} {loose : Ino} (mid : Midway d ahead loose)
    (file : ¬ d.IsDir loose) : Midway d ahead 0 where
  shape := mid.shape
  counts := mid.counts
  home := by
    intro other isDir dir
    have notLoose : other ≠ loose := file_apart file isDir
    refine (mid.home other isDir dir).trans ?_
    simp only [notLoose, mid.shape.directory_nonzero isDir, ne_eq, not_false_eq_true, true_and]

/-- An inode without links has no entry; it may be freed. -/
theorem tree_settle (tree : Tree d) (file : ¬ d.IsDir id) (nonzero : id ≠ 0) :
    Tree (d.settle id) := by
  rw [Disk.settle]
  split
  · rename_i dead
    have below := file_apart file tree.shape.root
    have counted := tree.counts id nonzero (Ne.symm below)
    have none : (d.inode id).nlinks.toNat = 0 := by rw [dead.1]; rfl
    have links : d.links id = 0 := by omega
    have alone : Alone d id := fun dir _ e inside leads =>
      Bool.eq_false_iff.mp (total_zero links dir e inside) (decide_eq_true leads)
    have empty := tree.shape.files id (Bool.eq_false_iff.mpr file)
    refine midway_ahead (midway_free tree (Ne.symm below) alone (.inl rfl)) fun other _ _ => ?_
    rw [empty]
    split <;> rfl
  · exact tree

theorem tree_withFile (tree : Tree d) (new : d.newNumber = some id) (isDir : d.IsDir dir)
    (absent : Absent env d dir name) (proper : Proper (name.take nameLen)) {mode : BitVec 16}
    (file : isDirectory mode = false) : Tree (d.withFile env mode dir name id) := by
  obtain ⟨unused, nonzero, _⟩ := newNumber_range tree.shape new
  have apart : dir ≠ id := by
    rintro rfl
    exact absurd (tree.shape.directory_used isDir) (Bool.eq_false_iff.mp unused)
  have mid := midway_fresh tree new
    (show Begins d id ⟨mode, env.euid, env.egid.setWidth 8, 1⟩ [] from .file file)
  generalize made : d.fresh id ⟨mode, env.euid, env.egid.setWidth 8, 1⟩ [] = e at mid
  have there : e.IsDir dir := by
    rw [← made, Disk.IsDir, fresh_other apart]
    exact isDir
  have missing : Absent env e dir name := by
    refine ⟨⟨absent.named, ?_⟩, absent.readable⟩
    rw [Disk.found, ← made, fresh_slots apart]
    exact absent.missed
  have plain : ¬ e.IsDir id := by
    rw [← made, Disk.IsDir, fresh_inode, file]
    exact Bool.false_ne_true
  have used : e.used id = true := by
    rw [← made]
    exact update_self _ _ _
  have entered := midway_edit mid there (edit_enter mid.shape there name id)
    (names_enter mid.shape there missing nonzero) (fun _ => used) (fun _ => proper)
    (zero_file mid.shape) plain
  rw [Disk.withFile, made]
  refine midway_ahead (midway_file entered plain) fun other other0 _ => ?_
  have none : (0 : Ino) ≠ other := Ne.symm other0
  simp only [none, if_false, List.countP_nil]
  by_cases same : other = id
  · subst same
    simp only [if_true]
    rfl
  · simp only [same, Ne.symm same, if_false]
    rfl

theorem directory_mode (bits mask : BitVec 16) :
    isDirectory (0o040000#16 ||| bits &&& 0o777#16 &&& mask) = true := by
  have apart : (0o040000#16 ||| bits &&& 0o777#16 &&& mask) &&& 0o170000#16 =
      0o040000#16 &&& 0o170000#16 ||| bits &&& mask &&& (0o777#16 &&& 0o170000#16) := by
    ext i
    simp only [BitVec.getElem_and, BitVec.getElem_or]
    grind
  rw [isDirectory, apart]
  simp

theorem tree_withDirectory (tree : Tree d) (new : d.newNumber = some id) (isDir : d.IsDir dir)
    (absent : Absent env d dir name) (proper : Proper (name.take nameLen)) (mode : BitVec 16)
    (less : dir ≠ rootIno → (d.inode dir).nlinks.toNat < 255) :
    Tree (d.withDirectory env mode dir name id) := by
  obtain ⟨unused, nonzero, _⟩ := newNumber_range tree.shape new
  have apart : dir ≠ id := by
    rintro rfl
    exact absurd (tree.shape.directory_used isDir) (Bool.eq_false_iff.mp unused)
  have below : id ≠ rootIno := by
    rintro rfl
    exact absurd (tree.shape.directory_used tree.shape.root) (Bool.eq_false_iff.mp unused)
  rw [Disk.withDirectory]
  generalize bits : 0o040000#16 ||| mode &&& 0o777#16 &&& ~~~env.umask = filemode
  have directory : isDirectory filemode = true := bits ▸ directory_mode _ _
  have mid := midway_fresh tree new
    (show Begins d id ⟨filemode, env.euid, env.egid.setWidth 8, 2⟩ _ from .directory directory isDir)
  generalize made : d.fresh id ⟨filemode, env.euid, env.egid.setWidth 8, 2⟩ _ = e at mid ⊢
  have there : e.IsDir dir := by
    rw [← made, Disk.IsDir, fresh_other apart]
    exact isDir
  have missing : Absent env e dir name := by
    refine ⟨⟨absent.named, ?_⟩, absent.readable⟩
    rw [Disk.found, ← made, fresh_slots apart]
    exact absent.missed
  have used : e.used id = true := by
    rw [← made]
    exact update_self _ _ _
  have edit := edit_enter mid.shape there name id
  have shape := shape_edit mid.shape there edit (names_enter mid.shape there missing nonzero)
    (fun _ => used) (fun _ => proper)
  have entered : Midway (e.enter dir name id)
      (fun other => if other = dir then -1 else 0) 0 := by
    refine ⟨shape, ?_, ?_⟩
    · intro other isDir dir'
      have other0 := shape.directory_nonzero isDir
      have counted := edit.plain other0 dir'
      rw [if_neg (fun both => other0 both.2.symm)] at counted
      refine (counted.trans ?_)
      have parents : (e.enter dir name id).parent other = e.parent other := edit.parent other
      rw [mid.home other isDir dir', parents]
      by_cases same : other = id
      · subst same
        have up : e.parent other = dir := by
          rw [← made, Disk.parent, Disk.entryAt]
          rw [show (d.fresh other ⟨filemode, env.euid, env.egid.setWidth 8, 2⟩ _).slots other = _ from
            update_self _ _ _]
          rfl
        simp only [up, below, nonzero, ne_eq, not_true_eq_false, not_false_eq_true, false_and,
          and_false, if_false, and_true, true_and, Nat.zero_add]
      · simp only [same, Ne.symm same, other0, and_false, if_false, ne_eq, not_false_eq_true,
          true_and, Nat.add_zero]
    · intro other other0 top
      have counted := edit.links mid.shape there other0
      have before := mid.counts other other0 top
      rw [if_neg (Ne.symm other0)] at counted
      change ((e.inode other).nlinks.toNat : Int) = ((e.enter dir name id).links other : Int) + _
      change (e.enter dir name id).links other + 0 = _ at counted
      simp only [List.countP_cons, List.countP_nil, leadsTo, decide_eq_true_eq] at before
      have two : ((2 : BitVec 8).toNat : Int) = 2 := rfl
      by_cases same : other = id
      · subst same
        simp only [if_true, apart, Ne.symm apart, if_false, two] at before counted ⊢
        omega
      · by_cases up : other = dir
        · subst up
          simp only [if_true, same, Ne.symm same, if_false] at before counted ⊢
          omega
        · simp only [up, Ne.symm up, same, Ne.symm same, if_false] at before counted ⊢
          omega
  have links : (e.enter dir name id).inode dir = d.inode dir := by
    rw [← made]
    exact update_of_ne apart _ _
  refine midway_ahead (midway_setNlinks entered (shape.directory_used there) _) fun other _ top => ?_
  by_cases same : other = dir
  · subst same
    have counted := entered.counts other ‹_› top
    rw [links] at counted
    rw [if_pos rfl] at counted ⊢
    have room := less top
    have next : ((d.inode other).nlinks + 1).toNat = (d.inode other).nlinks.toNat + 1 := by
      rw [BitVec.toNat_add, show (1 : BitVec 8).toNat = 1 from rfl]
      omega
    rw [next]
    omega
  · simp only [same, if_false]

/-- A link count that is one ahead of the entries. -/
theorem tree_dropLink {ahead : Ino → Int} (mid : Midway d ahead 0)
    (one : ∀ other, other ≠ 0 → ahead other = if id = other then 1 else 0)
    (file : ¬ d.IsDir id) (used : d.used id = true) : Tree (d.dropLink id) := by
  have nonzero := (mid.shape.range id used).1
  have below := file_apart file mid.shape.root
  have counted := mid.counts id nonzero (Ne.symm below)
  rw [one id nonzero, if_pos rfl] at counted
  have less : ((d.inode id).nlinks - 1).toNat = (d.inode id).nlinks.toNat - 1 := by
    have range := (d.inode id).nlinks.isLt
    rw [BitVec.toNat_sub, show (1 : BitVec 8).toNat = 1 from rfl]
    omega
  refine tree_settle ?_ (fun isDir => file ((isDir_setNlinks _ id).mp isDir)) nonzero
  refine midway_ahead (midway_setNlinks mid used _) fun other other0 _ => ?_
  by_cases same : other = id
  · subst same
    rw [if_pos rfl, less]
    omega
  · rw [if_neg same, one other other0, if_neg (Ne.symm same)]

/-- The entry of a file that is cleared. -/
theorem midway_clear {ahead : Ino → Int} (mid : Midway d ahead 0) (isDir : d.IsDir dir)
    (bound : i < (d.slots dir).length) (used : (d.entryAt dir i).inode ≠ 0)
    (file : ¬ d.IsDir (d.entryAt dir i).inode) : Midway (d.writeEntry dir i 0)
      (fun other => ahead other + (if (d.entryAt dir i).inode = other then 1 else 0) -
        if (0 : Ino) = other then 1 else 0) 0 :=
  midway_edit mid isDir
    (edit_write mid.shape isDir (entry_behind mid.shape isDir bound file) bound _)
    (names_clear mid.shape bound used _) (fun wrong => absurd rfl wrong)
    (fun wrong => absurd rfl wrong) file (zero_file mid.shape)

theorem tree_unlink (tree : Tree d) (isDir : d.IsDir dir) (there : d.found env dir name = some i)
    (file : ¬ d.IsDir (d.entryAt dir i).inode) :
    Tree ((d.writeEntry dir i 0).dropLink (d.entryAt dir i).inode) := by
  obtain ⟨bound, inside, used, _⟩ := found_entry there
  refine tree_dropLink (midway_clear tree isDir bound used file) (fun other nonzero => ?_) file
    (tree.shape.leads dir _ inside used)
  rw [if_neg (Ne.symm nonzero)]
  omega

/-! `sys_rename` -/

theorem enter_entryAt (nd : Ino) (name : Name) (id : Ino) {k : Nat} (bound : k < (d.slots dir).length)
    (used : (d.entryAt dir k).inode ≠ 0) :
    k < ((d.enter nd name id).slots dir).length ∧
      (d.enter nd name id).entryAt dir k = d.entryAt dir k := by
  rw [Disk.entryAt, Disk.entryAt, Disk.enter]
  by_cases same : dir = nd
  · subst same
    rw [setSlots_self, List.length_set]
    have other : freeSlot (d.slots dir) ≠ k := by
      rintro rfl
      have found := List.findIdx_getElem (p := fun e => decide (DirEntry.inode e = 0)) (w := bound)
      rw [entryAt_eq bound] at used
      exact used (of_decide_eq_true found)
    have longer : k < (grown (d.slots dir)).length := by
      rcases grown_starts (d.slots dir) with same | more
      · rwa [same]
      · rw [more, List.length_append]
        omega
    refine ⟨longer, ?_⟩
    rw [List.getD_eq_getElem _ _ (by rwa [List.length_set]), List.getElem_set_ne other,
      List.getD_eq_getElem _ _ bound]
    rcases grown_starts (d.slots dir) with same | more
    · simp only [same]
    · simp only [more, List.getElem_append_left bound]
  · rw [setSlots_other same]
    exact ⟨bound, rfl⟩

theorem tree_moved {od nd : Ino} {k : Nat} {oname nname : Name} (tree : Tree d)
    (odDir : d.IsDir od) (ndDir : d.IsDir nd) (source : d.found env od oname = some k)
    (absent : Absent env d nd nname) (proper : Proper (nname.take nameLen))
    (file : ¬ d.IsDir (d.entryAt od k).inode) :
    Tree ((d.enter nd nname (d.entryAt od k).inode).writeEntry od k 0) := by
  obtain ⟨bound, inside, used, _⟩ := found_entry source
  have known := tree.shape.leads od _ inside used
  have entered : Midway (d.enter nd nname (d.entryAt od k).inode) _ 0 :=
    midway_edit tree ndDir (edit_enter tree.shape ndDir nname (d.entryAt od k).inode)
      (names_enter tree.shape ndDir absent used) (fun _ => known)
      (fun _ => proper) (zero_file tree.shape) file
  obtain ⟨still, same⟩ := enter_entryAt nd nname (d.entryAt od k).inode bound used
  have cleared := midway_clear (i := k) entered odDir still (by rw [same]; exact used)
    (by rw [same]; exact file)
  rw [same] at cleared
  refine midway_ahead cleared fun other nonzero _ => ?_
  have zero : (0 : Ino) ≠ other := Ne.symm nonzero
  simp only [zero, if_false]
  omega

theorem write_entryAt {nd : Ino} {j k : Nat} (id : Ino) (apart : ¬ (dir = nd ∧ k = j)) :
    ((d.writeEntry nd j id).slots dir).length = (d.slots dir).length ∧
      (d.writeEntry nd j id).entryAt dir k = d.entryAt dir k := by
  rw [Disk.entryAt, Disk.entryAt, Disk.writeEntry]
  by_cases same : dir = nd
  · subst same
    have other : j ≠ k := fun equal => apart ⟨rfl, equal.symm⟩
    rw [setSlots_self, List.length_set]
    refine ⟨rfl, ?_⟩
    rw [List.getD_eq_getElem?_getD, List.getD_eq_getElem?_getD, List.getElem?_set_ne other]
  · rw [setSlots_other same]
    exact ⟨rfl, rfl⟩

theorem tree_replaced {od nd : Ino} {j k : Nat} {oname nname : Name} (tree : Tree d)
    (odDir : d.IsDir od) (ndDir : d.IsDir nd) (source : d.found env od oname = some k)
    (target : d.found env nd nname = some j)
    (apart : (d.entryAt nd j).inode ≠ (d.entryAt od k).inode)
    (file : ¬ d.IsDir (d.entryAt od k).inode) (other : ¬ d.IsDir (d.entryAt nd j).inode) :
    Tree ((d.publish od k nd j (d.entryAt od k).inode).dropLink (d.entryAt nd j).inode) := by
  obtain ⟨bound, inside, used, _⟩ := found_entry source
  obtain ⟨boundN, insideN, usedN, _⟩ := found_entry target
  have known := tree.shape.leads od _ inside used
  have proper := tree.shape.proper nd _ insideN usedN
  have written : Midway (d.writeEntry nd j (d.entryAt od k).inode) _ 0 :=
    midway_edit tree ndDir
      (edit_write tree.shape ndDir (entry_behind tree.shape ndDir boundN other) boundN _)
      (names_write tree.shape boundN usedN used) (fun _ => known) (fun _ => proper) other file
  have places : ¬ (od = nd ∧ k = j) := by
    rintro ⟨rfl, rfl⟩
    exact apart rfl
  obtain ⟨length, same⟩ := write_entryAt (d := d) (d.entryAt od k).inode places
  have cleared := midway_clear (i := k) written odDir (by rw [length]; exact bound)
    (by rw [same]; exact used) (by rw [same]; exact file)
  rw [same] at cleared
  refine tree_dropLink cleared (fun x nonzero => ?_) other (tree.shape.leads nd _ insideN usedN)
  have zero : (0 : Ino) ≠ x := Ne.symm nonzero
  simp only [zero, if_false]
  omega

/-! `sys_rmdir` -/

theorem empty_count {slots : List DirEntry} (empty : ∀ e ∈ slots, e.inode = 0) (nonzero : id ≠ 0) :
    slots.countP (leadsTo id) = 0 :=
  List.countP_eq_zero.mpr fun e inside leads =>
    nonzero ((of_decide_eq_true leads).symm.trans (empty e inside))

/-- No directory is below an empty one. -/
theorem empty_above (tree : Tree d) (empty : ∀ e ∈ d.plain id, e.inode = 0) (isDir : d.IsDir dir)
    (below : dir ≠ rootIno) : d.parent dir ≠ id := by
  rintro rfl
  have nonzero := tree.shape.directory_nonzero isDir
  have home := tree.home dir isDir (d.parent dir)
  rw [if_pos ⟨below, nonzero, rfl⟩, empty_count empty nonzero] at home
  cases home

theorem plain_entry (behind : 2 ≤ i) (bound : i < (d.slots dir).length) :
    d.entryAt dir i ∈ d.plain dir := by
  rw [entryAt_eq bound, Disk.plain]
  refine List.mem_iff_getElem.mpr ⟨i - 2, ?_, ?_⟩
  · rw [List.length_drop]
    omega
  · rw [List.getElem_drop]
    congr 1
    omega

theorem removed_entry (tree : Tree d) (isDir : d.IsDir dir) (bound : i < (d.slots dir).length)
    (target : d.entryAt dir i = ⟨id, name⟩) (apart : id ≠ dir) (directory : d.IsDir id)
    (empty : ∀ e ∈ d.plain id, e.inode = 0) : 2 ≤ i ∧ id ≠ rootIno ∧ d.parent id = dir := by
  have starts := tree.shape.starts dir isDir
  have nonzero := tree.shape.directory_nonzero directory
  have behind : 2 ≤ i := by
    by_contra less
    have small : i = 0 ∨ i = 1 := by omega
    rcases small with rfl | rfl
    · rw [show d.entryAt dir 0 = ⟨dir, dot⟩ by rw [Disk.entryAt, starts]; rfl] at target
      exact apart (congrArg DirEntry.inode target).symm
    · have up : d.parent dir = id := congrArg DirEntry.inode target
      by_cases top : dir = rootIno
      · subst top
        exact apart (up.symm.trans tree.shape.top)
      · exact empty_above tree empty isDir top up
  have member := plain_entry behind bound
  have counted : 0 < (d.plain dir).countP (leadsTo id) :=
    List.countP_pos_iff.mpr ⟨_, member, by rw [target]; exact decide_eq_true rfl⟩
  rw [tree.home id directory dir] at counted
  split at counted
  · rename_i home
    exact ⟨behind, home.1, home.2.2.symm⟩
  · cases counted

theorem tree_removed (tree : Tree d) (isDir : d.IsDir dir) (there : d.found env dir name = some i)
    (apart : (d.entryAt dir i).inode ≠ dir) (directory : d.IsDir (d.entryAt dir i).inode)
    (empty : ∀ e ∈ d.plain (d.entryAt dir i).inode, e.inode = 0) :
    Tree (d.removedDirectory dir i) := by
  obtain ⟨bound, inside, used, _⟩ := found_entry there
  have known := tree.shape.leads dir _ inside used
  rw [Disk.removedDirectory]
  generalize target : d.entryAt dir i = entry at *
  obtain ⟨id, shown⟩ := entry
  simp only at apart directory empty used known ⊢
  obtain ⟨behind, below, up⟩ := removed_entry tree isDir bound target apart directory empty
  have edit := edit_write tree.shape isDir behind bound ⟨0, shown⟩
  rw [target] at edit
  have names := names_clear tree.shape bound (by rw [target]; exact used) shown
  have shape := shape_edit tree.shape isDir edit names (fun wrong => absurd rfl wrong)
    (fun wrong => absurd rfl wrong)
  have whole : d.setSlots dir ((d.slots dir).set i ⟨0, shown⟩) = d.writeEntry dir i 0 := by
    rw [Disk.writeEntry, target]
  rw [whole] at shape
  have parents : ∀ other, (d.writeEntry dir i 0).parent other = d.parent other :=
    whole ▸ edit.parent
  have plain : ∀ other, other ≠ 0 → ∀ dir', ((d.writeEntry dir i 0).plain dir').countP
      (leadsTo other) + (if dir' = dir ∧ id = other then 1 else 0) =
        (d.plain dir').countP (leadsTo other) := by
    intro other nonzero dir'
    have counted := edit.plain nonzero dir'
    have zero : ¬ (dir' = dir ∧ (0 : Ino) = other) := fun both => nonzero both.2.symm
    rw [whole] at counted
    simp only [zero, if_false, Nat.add_zero] at counted
    exact counted
  have mid : Midway (d.writeEntry dir i 0) (fun other => if id = other then 1 else 0) id := by
    refine ⟨shape, ?_, ?_⟩
    · intro other isDir dir'
      have nonzero := shape.directory_nonzero isDir
      have counted := plain other nonzero dir'
      have before := tree.home other isDir dir'
      rw [parents]
      by_cases same : other = id
      · subst same
        simp only [up, below, used, ne_eq, not_false_eq_true, true_and, and_true] at before counted
        rw [if_neg (fun all => all.2.1 rfl)]
        split_ifs at before counted <;> omega
      · simp only [Ne.symm same, and_false, if_false, Nat.add_zero] at counted
        simp only [same, nonzero, ne_eq, not_false_eq_true, true_and] at before ⊢
        omega
    · intro other nonzero top
      have counted := edit.links tree.shape isDir nonzero
      have before := tree.counts other nonzero top
      rw [whole, if_neg (Ne.symm nonzero)] at counted
      change ((d.inode other).nlinks.toNat : Int) = _
      split_ifs at counted ⊢ <;> omega
  have alone : ∀ dir', dir' ≠ id → ∀ e ∈ (d.writeEntry dir i 0).slots dir', e.inode ≠ id := by
    intro dir' away e inside
    by_cases directory' : d.IsDir dir'
    · have count := mid.home id directory dir'
      rw [if_neg (fun all => all.2.1 rfl), List.countP_eq_zero] at count
      rw [shape.starts dir' directory', parents] at inside
      rcases List.mem_cons.mp inside with rfl | inside
      · exact away
      · rcases List.mem_cons.mp inside with rfl | inside
        · by_cases top : dir' = rootIno
          · rw [top, tree.shape.top]
            exact Ne.symm below
          · exact empty_above tree empty directory' top
        · exact fun leads => count e inside (decide_eq_true leads)
    · rw [shape.files dir' (Bool.eq_false_iff.mpr directory')] at inside
      cases inside
  have marked := midway_setNlinks mid known 0
  have lower := midway_setNlinks marked (tree.shape.directory_used isDir) ((d.inode dir).nlinks - 1)
  have freed := midway_free lower below alone (.inr rfl)
  have own : (d.writeEntry dir i 0).slots id = d.slots id := setSlots_other apart
  have below' : ∀ other, other ≠ 0 → (d.slots id).countP (leadsTo other) =
      (if dir = other then 1 else 0) + if id = other then 1 else 0 := by
    intro other nonzero
    rw [tree.shape.starts id directory, up, List.countP_cons, List.countP_cons,
      empty_count empty nonzero]
    simp only [leadsTo, decide_eq_true_eq, Nat.zero_add]
  refine midway_ahead freed fun other nonzero top => ?_
  change (if other = id then (0 : Int) else (if other = dir then
    (((d.inode dir).nlinks - 1).toNat : Int) - ((d.writeEntry dir i 0).links dir : Int)
    else if other = id then _ else if id = other then 1 else 0) +
      (((d.writeEntry dir i 0).slots id).countP (leadsTo other) : Int)) = 0
  rw [own, below' other nonzero]
  by_cases same : other = id
  · rw [if_pos same]
  · by_cases lowered : other = dir
    · subst lowered
      have links := edit.links tree.shape isDir nonzero
      have counted := tree.counts other nonzero top
      have once := le_total d.slots (leadsTo other) id
      rw [below' other nonzero] at once
      rw [whole] at links
      simp only [same, Ne.symm same, Ne.symm nonzero, if_true, if_false] at links once ⊢
      change _ ≤ d.links other at once
      have less : ((d.inode other).nlinks - 1).toNat = (d.inode other).nlinks.toNat - 1 := by
        have range := (d.inode other).nlinks.isLt
        rw [BitVec.toNat_sub, show (1 : BitVec 8).toNat = 1 from rfl]
        omega
      rw [less]
      omega
    · simp only [same, Ne.symm same, lowered, Ne.symm lowered, if_false]
      rfl

end

end SymphonyPlus.Namei
