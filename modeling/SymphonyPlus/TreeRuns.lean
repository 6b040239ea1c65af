import Mathlib.Algebra.BigOperators.Group.Finset.Piecewise
import Mathlib.Order.Interval.Finset.Nat
import SymphonyPlus.TreeCalls

/-! Whole runs of the file-system calls: no panic, every reference is given back, link counts are
the entries that lead to an inode, and directories stay a tree. -/

namespace SymphonyPlus.Namei

open Function SlotTables

section

variable {d : Disk} {dir id : Ino}

/-! How far the link count of a directory goes. -/

theorem used_card (shape : Shape d) :
    (Finset.univ.filter fun id => d.used id = true).card ≤ d.ninodes := by
  have inside : ∀ id ∈ Finset.univ.filter fun id => d.used id = true,
      id.toNat ∈ Finset.Icc 1 d.ninodes := by
    intro id member
    obtain ⟨nonzero, within⟩ := shape.range id (Finset.mem_filter.mp member).2
    have positive : id.toNat ≠ 0 := fun zero => nonzero (BitVec.eq_of_toNat_eq zero)
    exact Finset.mem_Icc.mpr ⟨by omega, within⟩
  have fits := Finset.card_le_card_of_injOn BitVec.toNat inside
    fun a _ b _ same => BitVec.eq_of_toNat_eq same
  rwa [Nat.card_Icc, Nat.add_sub_cancel] at fits

theorem directory_links (tree : Tree d) (isDir : d.IsDir dir) (below : dir ≠ rootIno) :
    1 < d.links dir ∧ d.links dir < 255 := by
  have shape := tree.shape
  have nonzero := shape.directory_nonzero isDir
  have counts : ∀ other, d.IsDir other → (d.slots other).countP (leadsTo dir) =
      (d.plain other).countP (leadsTo dir) + (if d.parent other = dir then 1 else 0) +
        if other = dir then 1 else 0 := by
    intro other isDir
    rw [shape.starts other isDir, List.countP_cons, List.countP_cons]
    simp only [leadsTo, decide_eq_true_eq]
  have home : ∀ other, (d.plain other).countP (leadsTo dir) =
      if other = d.parent dir then 1 else 0 := by
    intro other
    rw [tree.home dir isDir other]
    simp only [below, nonzero, ne_eq, not_false_eq_true, true_and]
  constructor
  · have own := counts dir isDir
    rw [if_pos rfl] at own
    by_cases self : d.parent dir = dir
    · rw [if_pos self] at own
      have some := le_total d.slots (leadsTo dir) dir
      change _ ≤ d.links dir at some
      omega
    · have above := counts (d.parent dir) (shape.above dir isDir)
      rw [home, if_pos rfl] at above
      have some := add_le_total d.slots (leadsTo dir) self
      change _ ≤ d.links dir at some
      omega
  · have each : ∀ other, (d.slots other).countP (leadsTo dir) ≤
        (if other = d.parent dir then 1 else 0) + (if d.used other = true then 1 else 0) +
          if other = dir then 1 else 0 := by
      intro other
      by_cases directory : d.IsDir other
      · rw [counts other directory, home, if_pos (shape.directory_used directory)]
        split_ifs <;> omega
      · rw [shape.files other (Bool.eq_false_iff.mpr directory)]
        exact Nat.zero_le _
    have small := shape.small
    have used := used_card shape
    have sum := Finset.sum_le_sum fun other (_ : other ∈ Finset.univ) => each other
    rw [Finset.sum_add_distrib, Finset.sum_add_distrib, Finset.sum_ite_eq', Finset.sum_ite_eq',
      if_pos (Finset.mem_univ _), if_pos (Finset.mem_univ _), ← Finset.card_filter] at sum
    change d.links dir ≤ _ at sum
    omega

theorem directory_nlinks (tree : Tree d) (isDir : d.IsDir dir) (below : dir ≠ rootIno) :
    1 < (d.inode dir).nlinks.toNat ∧ (d.inode dir).nlinks.toNat < 255 := by
  have counted := tree.counts dir (tree.shape.directory_nonzero isDir) below
  have links := directory_links tree isDir below
  omega

theorem tree_congr {after : Disk} (tree : Tree d) (ninodes : after.ninodes = d.ninodes)
    (used : after.used = d.used) (slots : after.slots = d.slots)
    (kinds : ∀ id, isDirectory (after.inode id).mode = isDirectory (d.inode id).mode)
    (nlinks : ∀ id, (after.inode id).nlinks = (d.inode id).nlinks)
    (blank : ∀ id, d.used id = false → after.inode id = noInode ∧ after.content id = []) :
    Tree after := by
  have shape := tree.shape
  have dirs : ∀ id, after.IsDir id ↔ d.IsDir id := fun id => by rw [Disk.IsDir, kinds id]
  have parents : ∀ id, after.parent id = d.parent id := fun id => by
    rw [Disk.parent, Disk.parent, Disk.entryAt, Disk.entryAt, slots]
  have plain : ∀ id, after.plain id = d.plain id := fun id => by
    rw [Disk.plain, Disk.plain, slots]
  refine ⟨?_, ?_, ?_⟩
  · refine
      { small := ninodes ▸ shape.small
        range := by rw [used, ninodes]; exact shape.range
        blank := ?_
        root := (dirs rootIno).mpr shape.root
        top := (parents rootIno).trans shape.top
        files := by intro id file; rw [slots]; exact shape.files id (kinds id ▸ file)
        starts := ?_
        above := ?_
        leads := by rw [slots, used]; exact shape.leads
        names := by rw [slots]; exact shape.names
        proper := by rw [slots]; exact shape.proper
        rooted := ?_ }
    · intro id unused
      rw [used] at unused
      rw [slots]
      exact ⟨(blank id unused).1, (shape.blank id unused).2.1, (blank id unused).2⟩
    · intro id isDir
      rw [slots, parents, plain]
      exact shape.starts id ((dirs id).mp isDir)
    · intro id isDir
      rw [parents]
      exact (dirs _).mpr (shape.above id ((dirs id).mp isDir))
    · intro id isDir
      exact rooted_mono (d := d) after (fun id => (dirs id).mpr) (fun id _ => parents id)
        (shape.rooted id ((dirs id).mp isDir))
  · intro id isDir dir
    rw [plain, parents]
    exact tree.home id ((dirs id).mp isDir) dir
  · intro id nonzero below
    rw [nlinks, Disk.links, slots]
    exact tree.counts id nonzero below

/-! What the processes hold. -/

structure Counted (d : Disk) (held : List Ino) : Prop where
  refs : ∀ id, d.inodeRefs id = held.count id
  buffers : ∀ block, d.bufferRefs block = 0
  used : ∀ id ∈ held, d.used id = true
  root : rootIno ∈ held

/-- Between calls: a file that has no entry and is not open is free. -/
structure Sound (d : Disk) (held : List Ino) : Prop where
  tree : Tree d
  counted : Counted d held
  alive : ∀ id, d.used id = true → ¬ d.IsDir id → Live d id

variable {held : List Ino}

theorem held_refs (counted : Counted d held) (inside : id ∈ held) : d.inodeRefs id ≠ 0 := by
  rw [counted.refs]
  exact Nat.ne_of_gt (List.count_pos_iff.mpr inside)

theorem sound_live (sound : Sound d held) (used : d.used id = true) : Live d id := by
  by_cases isDir : d.IsDir id
  · by_cases top : id = rootIno
    · exact .inr (held_refs sound.counted (top ▸ sound.counted.root))
    · refine .inl fun none => ?_
      have more := (directory_nlinks sound.tree isDir top).1
      rw [none] at more
      exact absurd more (by decide)
  · exact sound.alive id used isDir

theorem live_used (sound : Sound d held) (live : Live d id) : d.used id = true := by
  by_contra unused
  have free := Bool.eq_false_iff.mpr unused
  rcases live with links | refs
  · rw [(sound.tree.shape.blank id free).1] at links
    exact links rfl
  · rw [sound.counted.refs] at refs
    exact unused (sound.counted.used id (List.count_pos_iff.mp (Nat.pos_of_ne_zero refs)))

theorem sound_ready {env : Env} (sound : Sound d held) (pwd : env.pwd ∈ held)
    (room : d.cached + env.others + 4 ≤ nrInode) : Ready env d where
  linked := fun dir e inside used => sound_live sound (sound.tree.shape.leads dir e inside used)
  files := by
    intro dir e inside nonzero file none
    have below : e.inode ≠ rootIno := by
      intro same
      rw [same, show isDirectory (d.inode rootIno).mode = true from sound.tree.shape.root] at file
      cases file
    have counted := sound.tree.counts e.inode nonzero below
    have one : 0 < (d.slots dir).countP (leadsTo e.inode) :=
      List.countP_pos_iff.mpr ⟨e, inside, decide_eq_true rfl⟩
    have all := le_total d.slots (leadsTo e.inode) dir
    change _ ≤ d.links e.inode at all
    rw [none, show (0 : BitVec 8).toNat = 0 from rfl] at counted
    omega
  directories := by
    intro dir isDir
    by_cases top : dir = rootIno
    · exact .inr (held_refs sound.counted (top ▸ sound.counted.root))
    · exact .inl (directory_nlinks sound.tree isDir top)
  free := by
    intro id unused
    obtain ⟨inode, slots, content⟩ := sound.tree.shape.blank id unused
    refine ⟨inode, slots, content, ?_⟩
    rw [sound.counted.refs, List.count_eq_zero]
    intro inside
    exact absurd (sound.counted.used id inside) (Bool.eq_false_iff.mp unused)
  starts := fun dir isDir => ⟨d.parent dir, d.plain dir,
    sound.tree.shape.directory_nonzero (sound.tree.shape.above dir isDir),
    sound.tree.shape.starts dir isDir⟩
  root := held_refs sound.counted sound.counted.root
  pwd := held_refs sound.counted pwd
  few := Nat.lt_of_le_of_lt sound.tree.shape.small (by decide)
  room := room

theorem freeInode_refs (none : d.inodeRefs id = 0) : (d.freeInode id).inodeRefs = d.inodeRefs :=
  update_eq_self_iff.mpr none.symm

theorem freeInode_used {other : Ino} (used : (d.freeInode id).used other = true) :
    other ≠ id ∧ d.used other = true := by
  by_cases same : other = id
  · subst same
    rw [show (d.freeInode other).used other = false from update_self _ _ _] at used
    cases used
  · exact ⟨same, (update_of_ne same _ _).symm.trans used⟩

theorem counted_free (counted : Counted d held) (none : d.inodeRefs id = 0) :
    Counted (d.freeInode id) held where
  refs := freeInode_refs none ▸ counted.refs
  buffers := counted.buffers
  used := by
    intro other inside
    have away : other ≠ id := by
      rintro rfl
      rw [counted.refs] at none
      exact List.count_eq_zero.mp none inside
    exact (update_of_ne away _ _).trans (counted.used other inside)
  root := counted.root

/-- A file that lost a link or a reference is freed where nothing else keeps it. -/
theorem sound_settle (tree : Tree (d.settle id)) (counted : Counted d held)
    (others : ∀ other, other ≠ id → d.used other = true → ¬ d.IsDir other → Live d other) :
    Sound (d.settle id) held := by
  by_cases dead : (d.inode id).nlinks = 0 ∧ d.inodeRefs id = 0
  · have freed : d.settle id = d.freeInode id := if_pos dead
    rw [freed] at tree ⊢
    refine ⟨tree, counted_free counted dead.2, fun other used file => ?_⟩
    obtain ⟨away, used⟩ := freeInode_used used
    rw [Disk.IsDir, freeInode_inode away] at file
    rw [Live, freeInode_inode away, freeInode_refs dead.2]
    exact others other away used file
  · have kept : d.settle id = d := if_neg dead
    rw [kept] at tree ⊢
    refine ⟨tree, counted, fun other used file => ?_⟩
    by_cases same : other = id
    · subst same
      by_cases links : (d.inode other).nlinks = 0
      · exact .inr fun refs => dead ⟨links, refs⟩
      · exact .inl links
    · exact others other same used file

theorem sound_dropLink (tree : Tree (d.dropLink id)) (counted : Counted d held)
    (alive : ∀ other, d.used other = true → ¬ d.IsDir other → Live d other) :
    Sound (d.dropLink id) held := by
  have marked : Counted (d.setNlinks id ((d.inode id).nlinks - 1)) held :=
    ⟨counted.refs, counted.buffers, counted.used, counted.root⟩
  refine sound_settle tree marked fun other away used file => ?_
  have same : (d.setNlinks id ((d.inode id).nlinks - 1)).IsDir other ↔ d.IsDir other :=
    isDir_setNlinks _ other
  exact live_setInode away (alive other used fun isDir => file (same.mpr isDir))

theorem sound_removed {i : Nat} (sound : Sound d held) (tree : Tree (d.removedDirectory dir i))
    (isDir : d.IsDir dir) (none : d.inodeRefs (d.entryAt dir i).inode = 0) : Sound (d.removedDirectory dir i) held := by
  have counted := sound.counted
  refine ⟨tree, ?_, fun other used file => ?_⟩
  · exact counted_free ⟨counted.refs, counted.buffers, counted.used, counted.root⟩ none
  · obtain ⟨away, used⟩ := freeInode_used used
    have plain : ¬ d.IsDir other := by
      intro wrong
      refine file ?_
      rw [Disk.removedDirectory, Disk.IsDir, freeInode_inode away, setNlinks_mode, setNlinks_mode]
      exact wrong
    have apart : other ≠ dir := Ne.symm (file_apart plain isDir)
    rw [Disk.removedDirectory, Live, freeInode_inode away, setNlinks_other apart,
      setNlinks_other away]
    exact (sound.alive other used plain).imp_right fun refs => freeInode_refs none ▸ refs

theorem counted_take (counted : Counted d held) (used : d.used id = true) :
    Counted (d.take id) (id :: held) where
  refs := by
    intro other
    rw [List.count_cons]
    by_cases same : other = id
    · subst same
      rw [show (d.take other).inodeRefs other = d.inodeRefs other + 1 from update_self _ _ _,
        counted.refs, if_pos (beq_self_eq_true other)]
    · rw [show (d.take id).inodeRefs other = d.inodeRefs other from update_of_ne same _ _,
        counted.refs, if_neg (by simpa using Ne.symm same)]
      rfl
  buffers := counted.buffers
  used := List.forall_mem_cons.mpr ⟨used, counted.used⟩
  root := List.mem_cons_of_mem id counted.root

theorem tree_take (tree : Tree d) (id : Ino) : Tree (d.take id) :=
  tree_congr tree rfl rfl rfl (fun _ => rfl) (fun _ => rfl) fun other unused =>
    ⟨(tree.shape.blank other unused).1, (tree.shape.blank other unused).2.2⟩

theorem live_take {other : Ino} (live : Live d other) : Live (d.take id) other := by
  refine live.imp_right fun refs => ?_
  by_cases same : other = id
  · subst same
    rw [show (d.take other).inodeRefs other = d.inodeRefs other + 1 from update_self _ _ _]
    exact Nat.succ_ne_zero _
  · rw [show (d.take id).inodeRefs other = d.inodeRefs other from update_of_ne same _ _]
    exact refs

theorem sound_take (sound : Sound d held) (used : d.used id = true) :
    Sound (d.take id) (id :: held) :=
  ⟨tree_take sound.tree id, counted_take sound.counted used,
    fun other used file => live_take (sound.alive other used file)⟩

/-- A reference that is given back. -/
theorem sound_iput (sound : Sound d held) (inside : id ∈ held) (stays : rootIno ∈ held.erase id) :
    ∃ after, d.iput id = some after ∧ Sound after (held.erase id) := by
  have positive := List.count_pos_iff.mpr inside
  have refs := sound.counted.refs id
  let less : Disk := { d with inodeRefs := update d.inodeRefs id (d.inodeRefs id - 1) }
  have lessRefs : less.inodeRefs id = d.inodeRefs id - 1 := update_self _ _ _
  have run : d.iput id = some (less.settle id) := by
    rw [Disk.iput, if_neg (by omega), Disk.settle, lessRefs]
    by_cases last : d.inodeRefs id = 1 ∧ (d.inode id).nlinks = 0
    · rw [if_pos last, if_pos ⟨last.2, by omega⟩]
      simp only [less, Disk.freeInode, update_idem]
    · rw [if_neg last, if_neg fun dead => last ⟨by omega, dead.1⟩]
  have counted : Counted less (held.erase id) := by
    refine ⟨fun other => ?_, sound.counted.buffers,
      fun other member => sound.counted.used other (List.mem_of_mem_erase member), stays⟩
    by_cases same : other = id
    · subst same
      rw [lessRefs, refs, List.count_erase_self]
    · rw [List.count_erase_of_ne same, ← sound.counted.refs]
      exact update_of_ne same _ _
  have tree : Tree less := tree_congr sound.tree rfl rfl rfl (fun _ => rfl) (fun _ => rfl)
    fun other unused => ⟨(sound.tree.shape.blank other unused).1,
      (sound.tree.shape.blank other unused).2.2⟩
  refine ⟨_, run, ?_⟩
  by_cases directory : d.IsDir id
  · have live : Live less id := by
      by_cases top : id = rootIno
      · refine .inr ?_
        rw [counted.refs, top]
        exact Nat.ne_of_gt (List.count_pos_iff.mpr (top ▸ stays))
      · refine .inl fun none => ?_
        have more := (directory_nlinks tree directory top).1
        rw [none] at more
        exact absurd more (by decide)
    rw [settle_live live]
    refine ⟨tree, counted, fun other used file => ?_⟩
    have away : other ≠ id := fun same => file (same ▸ directory)
    exact (sound.alive other used file).imp_right fun refs =>
      (update_of_ne away _ _).trans_ne refs
  · have nonzero := (sound.tree.shape.range id (sound.counted.used id inside)).1
    refine sound_settle (tree_settle tree directory nonzero) counted fun other away used file => ?_
    exact (sound.alive other used file).imp_right fun refs =>
      (update_of_ne away _ _).trans_ne refs

theorem chmod_kind (mode old : BitVec 16) :
    isDirectory (mode &&& 0o7777#16 ||| old &&& ~~~0o7777#16) = isDirectory old := by
  have same : (mode &&& 0o7777#16 ||| old &&& ~~~0o7777#16) &&& 0o170000#16 =
      mode &&& (0o7777#16 &&& 0o170000#16) ||| old &&& (~~~0o7777#16 &&& 0o170000#16) := by
    ext i
    simp only [BitVec.getElem_and, BitVec.getElem_or]
    grind
  have first : 0o7777#16 &&& 0o170000#16 = 0#16 := by decide
  have second : ~~~0o7777#16 &&& 0o170000#16 = 0o170000#16 := by decide
  rw [isDirectory, isDirectory, same, first, second, BitVec.and_zero, BitVec.zero_or]

theorem file_kind (bits mask : BitVec 16) :
    isDirectory (bits &&& 0o777#16 &&& mask ||| 0o100000#16) = false := by
  rw [isDirectory, decide_eq_false_iff_not]
  intro same
  have bit := congrArg (fun bits => bits.getLsbD 15) same
  simp at bit

end

/-! Sessions. -/

/-- The disk with the inodes that working directories, roots and open files hold. -/
structure Session where
  disk : Disk
  held : List Ino

inductive Call
  | opens (env : Env) (path : Name) (flag : BitVec 32) (mode : BitVec 16)
  | closes (id : Ino)
  | shares (id : Ino)
  | writes (id : Ino) (bytes : List (BitVec 8))
  | chdir (env : Env) (path : Name)
  | chmod (env : Env) (path : Name) (mode : BitVec 16)
  | mkdir (env : Env) (path : Name) (mode : BitVec 16)
  | rmdir (env : Env) (path : Name)
  | unlink (env : Env) (path : Name)
  | rename (env : Env) (oldname newname : Name)

def withOpened (held : List Ino) : Opened → List Ino
  | .ok id => id :: held
  | .error _ => held

/-- Descriptors are left out: an open call that succeeds has the result 0. -/
def answered : Opened → Int
  | .ok _ => 0
  | .error result => result

/-- One call of a process, with its result; a panic has none. -/
def Session.answer (s : Session) : Call → Option (Int × Session)
  | .opens env path flag mode => (openNamei env s.disk path flag mode).map fun out =>
      (answered out.1, ⟨out.2, withOpened s.held out.1⟩)
  | .closes id => (s.disk.iput id).map fun d => (0, ⟨d, s.held.erase id⟩)
  | .shares id => some (0, ⟨s.disk.take id, id :: s.held⟩)
  | .writes id bytes => some (0, ⟨s.disk.setContent id bytes, s.held⟩)
  | .chdir env path => (sysChdir env s.disk path).map fun out =>
      (out.1.1, ⟨out.2, (out.1.2 :: s.held).erase env.pwd⟩)
  | .chmod env path mode => (sysChmod env s.disk path mode).map fun out =>
      (out.1, ⟨out.2, s.held⟩)
  | .mkdir env path mode => (sysMkdir env s.disk path mode).map fun out =>
      (out.1, ⟨out.2, s.held⟩)
  | .rmdir env path => (sysRmdir env s.disk path).map fun out => (out.1, ⟨out.2, s.held⟩)
  | .unlink env path => (sysUnlink env s.disk path).map fun out => (out.1, ⟨out.2, s.held⟩)
  | .rename env oldname newname => (sysRename env s.disk oldname newname).map fun out =>
      (out.1, ⟨out.2, s.held⟩)

def Session.run (s : Session) (call : Call) : Option Session := (s.answer call).map Prod.snd

/-- A process has its own directory, and four slots of the inode table are free. -/
structure Session.Serves (s : Session) (env : Env) : Prop where
  pwd : env.pwd ∈ s.held
  room : s.disk.cached + env.others + 4 ≤ nrInode

def Env.Whole (env : Env) : Prop := ∀ block, env.unreadable block = false

/-- Strings end at a zero, a process gives back what it holds, the first process keeps the root, a
directory is not opened for writing, and where a name may be new every block can be read: a name
behind a block that cannot be read would be entered twice. -/
def Call.Allowed (s : Session) : Call → Prop
  | .opens env path flag _ => s.Serves env ∧ 0 ∉ path ∧ (flag &&& O_CREAT ≠ 0 → env.Whole)
  | .closes id => id ∈ s.held ∧ rootIno ∈ s.held.erase id
  | .shares id => id ∈ s.held
  | .writes id _ => id ∈ s.held ∧ isDirectory (s.disk.inode id).mode = false
  | .chdir env path => s.Serves env ∧ 0 ∉ path ∧ rootIno ∈ s.held.erase env.pwd
  | .chmod env path _ => s.Serves env ∧ 0 ∉ path
  | .mkdir env path _ => s.Serves env ∧ 0 ∉ path ∧ env.Whole
  | .rmdir env path => s.Serves env ∧ 0 ∉ path
  | .unlink env path => s.Serves env ∧ 0 ∉ path
  | .rename env oldname newname => s.Serves env ∧ 0 ∉ oldname ∧ 0 ∉ newname ∧ env.Whole

section

variable {d : Disk} {held : List Ino} {env : Env}

/-- A new inode that is entered; other link counts of files stay. -/
theorem sound_fresh {e after : Disk} {id : Ino} {inode : Inode} {slots : List DirEntry}
    (sound : Sound d held) (live : ¬ e.IsDir id → (e.inode id).nlinks ≠ 0) (tree : Tree after)
    (made : e = d.fresh id inode slots) (used : after.used = e.used)
    (inodes : ∀ other, ¬ e.IsDir other → after.inode other = e.inode other)
    (kinds : ∀ other, after.IsDir other ↔ e.IsDir other)
    (refs : after.inodeRefs = d.inodeRefs) (buffers : after.bufferRefs = d.bufferRefs) :
    Sound after held := by
  subst made
  refine ⟨tree, ⟨refs ▸ sound.counted.refs, buffers ▸ sound.counted.buffers,
    fun other inside => used ▸ fresh_used (sound.counted.used other inside),
    sound.counted.root⟩, fun other known file => ?_⟩
  have plain := mt (kinds other).mpr file
  rw [Live, inodes other plain, refs]
  by_cases same : other = id
  · subst same
    exact .inl (live plain)
  · rw [Disk.IsDir, fresh_other same] at plain
    rw [fresh_other same]
    refine sound.alive other ?_ plain
    rw [used] at known
    exact (update_of_ne same _ _).symm.trans known

theorem sound_writes {id : Ino} (sound : Sound d held) (used : d.used id = true)
    (bytes : List (BitVec 8)) : Sound (d.setContent id bytes) held := by
  have counted := sound.counted
  refine ⟨?_, ⟨counted.refs, counted.buffers, counted.used, counted.root⟩, sound.alive⟩
  refine tree_congr sound.tree rfl rfl rfl (fun _ => rfl) (fun _ => rfl) fun other unused => ?_
  obtain ⟨inode, _, content⟩ := sound.tree.shape.blank other unused
  have away : other ≠ id := by
    rintro rfl
    exact absurd used (Bool.eq_false_iff.mp unused)
  exact ⟨inode, (update_of_ne away _ _).trans content⟩

theorem sound_chmod {id : Ino} (sound : Sound d held) (used : d.used id = true)
    (mode : BitVec 16) : Sound (d.setInode id { d.inode id with
      mode := mode &&& 0o7777#16 ||| (d.inode id).mode &&& ~~~0o7777#16 }) held := by
  generalize made : d.setInode id _ = after
  have counted := sound.counted
  have inodes : ∀ other, other ≠ id → after.inode other = d.inode other := by
    intro other away
    rw [← made]
    exact update_of_ne away _ _
  have changed : after.inode id = { d.inode id with
      mode := mode &&& 0o7777#16 ||| (d.inode id).mode &&& ~~~0o7777#16 } := by
    rw [← made]
    exact update_self _ _ _
  have kinds : ∀ other, isDirectory (after.inode other).mode = isDirectory (d.inode other).mode := by
    intro other
    by_cases same : other = id
    · subst same
      rw [changed]
      exact chmod_kind mode _
    · rw [inodes other same]
  have nlinks : ∀ other, (after.inode other).nlinks = (d.inode other).nlinks := by
    intro other
    by_cases same : other = id
    · subst same
      rw [changed]
    · rw [inodes other same]
  have kept : after.inodeRefs = d.inodeRefs := by rw [← made]; rfl
  refine ⟨?_, ?_, fun other known file => ?_⟩
  · refine tree_congr sound.tree (by rw [← made]; rfl) (by rw [← made]; rfl) (by rw [← made]; rfl)
      kinds nlinks fun other unused => ?_
    obtain ⟨inode, _, content⟩ := sound.tree.shape.blank other unused
    have away : other ≠ id := by
      rintro rfl
      exact absurd used (Bool.eq_false_iff.mp unused)
    rw [inodes other away, ← made]
    exact ⟨inode, content⟩
  · subst made
    exact ⟨counted.refs, counted.buffers, counted.used, counted.root⟩
  · rw [Live, nlinks, kept]
    refine sound.alive other (by rw [← made] at known; exact known) ?_
    rwa [Disk.IsDir, kinds] at file

theorem Missed.absent {dir : Ino} {name : Name} (missed : Missed env d dir name)
    (whole : env.Whole) : Absent env d dir name := ⟨missed, fun _ => whole _⟩

theorem sound_opening {opened : Opened} {after : Disk} {path : Name} (sound : Sound d held)
    {flag : BitVec 32} (ready : Ready env d) (text : 0 ∉ path)
    (whole : flag &&& O_CREAT ≠ 0 → env.Whole)
    (opening : Opening env d path flag opened after) :
    Sound after (withOpened held opened) := by
  cases opening with
  | fails negative => exact sound
  | reference there => exact sound_take sound (live_used sound (named_live ready there))
  | @truncated id there file truncates =>
      have used := live_used sound (named_live ready there)
      have taken := sound_take sound used
      have slots : (d.take id).slots id = [] := sound.tree.shape.files id file
      rw [withOpened, Disk.truncate.eq_def]
      split
      · have same : ((d.take id).setSlots id []).slots = (d.take id).slots :=
          update_eq_self_iff.mpr slots.symm
        refine ⟨?_, ⟨taken.counted.refs, taken.counted.buffers, taken.counted.used,
          taken.counted.root⟩, taken.alive⟩
        refine tree_congr taken.tree rfl rfl same (fun _ => rfl) (fun _ => rfl)
          fun other unused => ?_
        obtain ⟨inode, _, content⟩ := taken.tree.shape.blank other unused
        refine ⟨inode, ?_⟩
        have away : other ≠ id := by
          rintro rfl
          exact absurd used (Bool.eq_false_iff.mp unused)
        exact (update_of_ne away _ _).trans content
      · exact taken
  | @created name dir id mode creates there absent new =>
      have isDir := (enterable_live (leads_enterable there)).1
      have tree := tree_withFile sound.tree new isDir (absent.absent (whole creates)) (proper_new text there absent.named)
        (file_kind mode (~~~env.umask))
      rw [Disk.withFile] at tree ⊢
      generalize made : d.fresh id _ [] = e at tree ⊢
      have links : (e.inode id).nlinks ≠ 0 := by
        rw [← made, fresh_inode]
        exact show 1#8 ≠ 0#8 by decide
      have used : e.used id = true := by
        rw [← made]
        exact update_self _ _ _
      have refs : e.inodeRefs = d.inodeRefs ∧ e.bufferRefs = d.bufferRefs := by
        rw [← made]
        exact ⟨rfl, rfl⟩
      exact sound_take (sound_fresh sound (fun _ => links) tree made.symm rfl (fun _ _ => rfl)
        (fun _ => Iff.rfl) refs.1 refs.2) used

theorem sound_directory {id dir : Ino} {path name : Name} (mode : BitVec 16) (sound : Sound d held)
    (text : 0 ∉ path) (there : leads env d path = some (dir, name))
    (absent : Absent env d dir name) (new : d.newNumber = some id) :
    Sound (d.withDirectory env mode dir name id) held := by
  have isDir := (enterable_live (leads_enterable there)).1
  have less : dir ≠ rootIno → (d.inode dir).nlinks.toNat < 255 := fun below =>
    (directory_nlinks sound.tree isDir below).2
  have tree := tree_withDirectory sound.tree new isDir absent (proper_new text there absent.named)
    mode less
  have apart : dir ≠ id := by
    rintro rfl
    exact absurd (sound.tree.shape.directory_used isDir)
      (Bool.eq_false_iff.mp (newNumber_unused new))
  generalize made : d.fresh id ⟨0o040000#16 ||| mode &&& 0o777#16 &&& ~~~env.umask, env.euid,
    env.egid.setWidth 8, 2⟩ [⟨id, dot⟩, ⟨dir, dotDot⟩] = e
  have still : e.IsDir dir := by
    rw [← made, Disk.IsDir, fresh_other apart]
    exact isDir
  have shape : d.withDirectory env mode dir name id =
      (e.enter dir name id).setNlinks dir ((d.inode dir).nlinks + 1) := by
    rw [Disk.withDirectory, made]
  rw [shape] at tree ⊢
  have links : (e.inode id).nlinks ≠ 0 := by
    rw [← made, fresh_inode]
    exact show 2#8 ≠ 0#8 by decide
  have refs : e.inodeRefs = d.inodeRefs ∧ e.bufferRefs = d.bufferRefs := by
    rw [← made]
    exact ⟨rfl, rfl⟩
  refine sound_fresh sound (fun _ => links) tree made.symm rfl (fun other file => ?_)
    (fun other => ?_) refs.1 refs.2
  · exact setNlinks_other (Ne.symm (file_apart file still))
  · exact isDir_setNlinks _ other

theorem sound_renaming {oldname newname : Name} {result : Int} {after : Disk}
    (sound : Sound d held) (text : 0 ∉ newname) (whole : env.Whole)
    (outcome : Renaming env d oldname newname result after) : Sound after held := by
  have counted := sound.counted
  cases outcome with
  | fails negative => exact sound
  | same old source new target one => exact sound
  | @replaced od nd oname nname k j old source new target apart file other =>
      have odDir := (enterable_live (leads_enterable old)).1
      have ndDir := (enterable_live (leads_enterable new)).1
      have plain := Bool.eq_false_iff.mp (regular_file file)
      have plainN := Bool.eq_false_iff.mp (regular_file other)
      exact sound_dropLink (tree_replaced sound.tree odDir ndDir source target apart plain plainN)
        ⟨counted.refs, counted.buffers, counted.used, counted.root⟩ sound.alive
  | @moved od nd oname nname k old source new absent file =>
      have odDir := (enterable_live (leads_enterable old)).1
      have ndDir := (enterable_live (leads_enterable new)).1
      have tree := tree_moved sound.tree odDir ndDir source (absent.absent whole)
        (proper_new text new absent.named) (Bool.eq_false_iff.mp (regular_file file))
      exact ⟨tree, ⟨counted.refs, counted.buffers, counted.used, counted.root⟩, sound.alive⟩

end

/-! Runs. -/

def Session.Sound (s : Session) : Prop := Namei.Sound s.disk s.held

theorem serves_ready {s : Session} {env : Env} (sound : s.Sound) (serves : s.Serves env) :
    Ready env s.disk := sound_ready sound serves.pwd serves.room

theorem answer_sound {s : Session} (sound : s.Sound) {call : Call} (allowed : call.Allowed s) :
    ∃ result after, s.answer call = some (result, after) ∧ after.Sound := by
  obtain ⟨d, held⟩ := s
  have counted := Sound.counted sound
  cases call with
  | opens env path flag mode =>
      have ready := serves_ready sound allowed.1
      obtain ⟨opened, after, run, opening⟩ := open_cases ready path flag mode
      exact ⟨_, _, congrArg (Option.map _) run, sound_opening sound ready allowed.2.1 allowed.2.2 opening⟩
  | closes id =>
      obtain ⟨after, run, sound⟩ := sound_iput sound allowed.1 allowed.2
      exact ⟨_, _, congrArg (Option.map _) run, sound⟩
  | shares id => exact ⟨_, _, rfl, sound_take sound (counted.used id allowed)⟩
  | writes id bytes => exact ⟨_, _, rfl, sound_writes sound (counted.used id allowed.1) bytes⟩
  | chdir env path =>
      rcases chdir_cases (serves_ready sound allowed.1) path with
        ⟨result, _, run⟩ | ⟨id, there, isDir, run⟩
      · refine ⟨_, _, congrArg (Option.map _) run, ?_⟩
        change Namei.Sound d ((env.pwd :: held).erase env.pwd)
        rw [List.erase_cons_head]
        exact sound
      · have live := named_live (serves_ready sound allowed.1) there
        have taken := sound_take sound (live_used sound live)
        have stays : rootIno ∈ (id :: held).erase env.pwd := by
          rw [List.erase_cons]
          split
          · exact counted.root
          · exact List.mem_cons_of_mem id allowed.2.2
        obtain ⟨after, put, sound⟩ :=
          sound_iput taken (List.mem_cons_of_mem id allowed.1.pwd) stays
        refine ⟨_, _, congrArg (Option.map _) (run.trans (leave_cons put)), sound⟩
  | chmod env path mode =>
      rcases chmod_cases (serves_ready sound allowed.1) path mode with
        ⟨result, _, run⟩ | ⟨id, there, run⟩
      · exact ⟨_, _, congrArg (Option.map _) run, sound⟩
      · have live := named_live (serves_ready sound allowed.1) there
        exact ⟨_, _, congrArg (Option.map _) run, sound_chmod sound (live_used sound live) mode⟩
  | mkdir env path mode =>
      rcases mkdir_cases (serves_ready sound allowed.1) path mode with
        ⟨result, _, run⟩ | ⟨dir, name, id, there, absent, new, run⟩
      · exact ⟨_, _, congrArg (Option.map _) run, sound⟩
      · exact ⟨_, _, congrArg (Option.map _) run,
          sound_directory mode sound allowed.2.1 there (absent.absent allowed.2.2) new⟩
  | rmdir env path =>
      rcases rmdir_cases (serves_ready sound allowed.1) path with
        ⟨result, _, run⟩ | ⟨dir, name, i, there, found, apart, none, directory, empty, run⟩
      · exact ⟨_, _, congrArg (Option.map _) run, sound⟩
      · have isDir := (enterable_live (leads_enterable there)).1
        have tree := tree_removed (Sound.tree sound) isDir found apart directory empty
        exact ⟨_, _, congrArg (Option.map _) run, sound_removed sound tree isDir none⟩
  | unlink env path =>
      rcases unlink_cases (serves_ready sound allowed.1) path with
        ⟨result, _, run⟩ | ⟨dir, name, i, there, found, file, run⟩
      · exact ⟨_, _, congrArg (Option.map _) run, sound⟩
      · have isDir := (enterable_live (leads_enterable there)).1
        have tree := tree_unlink (Sound.tree sound) isDir found (Bool.eq_false_iff.mp file)
        have alive := Sound.alive sound
        exact ⟨_, _, congrArg (Option.map _) run, sound_dropLink tree
          ⟨counted.refs, counted.buffers, counted.used, counted.root⟩ alive⟩
  | rename env oldname newname =>
      obtain ⟨result, after, run, outcome⟩ :=
        rename_cases (serves_ready sound allowed.1) oldname newname
      exact ⟨_, _, congrArg (Option.map _) run, sound_renaming sound allowed.2.2.1 allowed.2.2.2 outcome⟩

theorem run_sound {s : Session} (sound : s.Sound) {call : Call} (allowed : call.Allowed s) :
    ∃ after, s.run call = some after ∧ after.Sound := by
  obtain ⟨result, after, answer, kept⟩ := answer_sound sound allowed
  exact ⟨after, congrArg (Option.map Prod.snd) answer, kept⟩

inductive Reaches (s : Session) : Session → Prop
  | start : Reaches s s
  | next {t after : Session} {call : Call} (before : Reaches s t) (allowed : call.Allowed t)
      (run : t.run call = some after) : Reaches s after

theorem reaches_sound {s t : Session} (sound : s.Sound) (reaches : Reaches s t) : t.Sound := by
  induction reaches with
  | start => exact sound
  | next before allowed run ih =>
      obtain ⟨after, same, sound⟩ := run_sound ih allowed
      rw [run] at same
      cases same
      exact sound

/-- After any run: no call that begins with four free slots in the inode table panics, what is held
is what working directories, roots and open files hold, an inode is in use where it has a link or
is held, link counts are the entries that lead to a file or a directory below the root, and
directories are a tree with unique names. -/
theorem runs_keep_tree {s t : Session} (sound : s.Sound) (reaches : Reaches s t) :
    (∀ call : Call, call.Allowed t → (t.run call).isSome) ∧
    (∀ id, t.disk.inodeRefs id = t.held.count id) ∧ (∀ block, t.disk.bufferRefs block = 0) ∧
    (∀ id, t.disk.used id = true ↔ (t.disk.inode id).nlinks ≠ 0 ∨ id ∈ t.held) ∧
    (∀ id, id ≠ 0 → id ≠ rootIno → (t.disk.inode id).nlinks.toNat = t.disk.links id) ∧
    (∀ dir, ∀ e ∈ t.disk.slots dir, e.inode ≠ 0 → t.disk.used e.inode = true) ∧
    (∀ dir, (usedNames (t.disk.slots dir)).Nodup) ∧
    (∀ id, t.disk.IsDir id → id ≠ rootIno → ∀ dir,
      (t.disk.plain dir).countP (leadsTo id) = if dir = t.disk.parent id then 1 else 0) ∧
    ∀ dir, t.disk.IsDir dir → Rooted t.disk dir := by
  have kept := reaches_sound sound reaches
  have tree := Sound.tree kept
  have counted := Sound.counted kept
  refine ⟨fun call allowed => ?_, counted.refs, counted.buffers, fun id => ⟨fun used => ?_, ?_⟩,
    fun id nonzero below => ?_, tree.shape.leads, tree.shape.names, fun id isDir below dir => ?_,
    tree.shape.rooted⟩
  · obtain ⟨after, run, _⟩ := run_sound kept allowed
    rw [run]
    rfl
  · refine (sound_live kept used).imp_right fun refs => ?_
    rw [counted.refs] at refs
    exact List.count_pos_iff.mp (Nat.pos_of_ne_zero refs)
  · rintro (links | held)
    · exact live_used kept (.inl links)
    · exact counted.used id held
  · have counts := tree.counts id nonzero below
    omega
  · rw [tree.home id isDir dir]
    simp only [below, tree.shape.directory_nonzero isDir, ne_eq, not_false_eq_true, true_and]

def Session.first : Session where
  disk :=
    { ninodes := 8
      used := fun id => id = rootIno
      inode := fun id => if id = rootIno then ⟨0o040755, 0, 0, 2⟩ else noInode
      slots := fun id => if id = rootIno then [⟨rootIno, dot⟩, ⟨rootIno, dotDot⟩] else []
      content := fun _ => []
      inodeRefs := fun id => if id = rootIno then 2 else 0
      bufferRefs := fun _ => 0 }
  held := [rootIno, rootIno]

theorem first_directory {id : Ino} (isDir : Session.first.disk.IsDir id) : id = rootIno := by
  by_contra other
  have none : Session.first.disk.inode id = noInode := if_neg other
  rw [Disk.IsDir, none] at isDir
  cases isDir

theorem first_slots {id : Ino} (other : id ≠ rootIno) : Session.first.disk.slots id = [] :=
  if_neg other

theorem first_shape : Shape Session.first.disk where
  small := by decide
  range := by
    intro id used
    rw [of_decide_eq_true used]
    decide
  blank := by
    intro id unused
    have other : id ≠ rootIno := of_decide_eq_false unused
    exact ⟨if_neg other, first_slots other, rfl⟩
  root := rfl
  top := rfl
  files := by
    intro id file
    refine first_slots fun same => ?_
    rw [same] at file
    exact absurd file (by decide)
  starts := by
    intro dir isDir
    rw [first_directory isDir]
    rfl
  above := by
    intro dir isDir
    rw [first_directory isDir]
    rfl
  leads := by
    intro dir e inside _
    by_cases top : dir = rootIno
    · subst top
      rcases List.mem_pair.mp inside with rfl | rfl <;> rfl
    · rw [first_slots top] at inside
      cases inside
  names := by
    intro dir
    by_cases top : dir = rootIno
    · subst top
      change [dot, dotDot].Nodup
      decide
    · rw [first_slots top]
      exact List.nodup_nil
  proper := by
    intro dir e inside _
    by_cases top : dir = rootIno
    · subst top
      rcases List.mem_pair.mp inside with rfl | rfl <;>
        exact ⟨by decide, by decide, by decide, by decide⟩
    · rw [first_slots top] at inside
      cases inside
  rooted := fun dir isDir => first_directory isDir ▸ .root

theorem first_sound : Session.first.Sound where
  tree := by
    refine ⟨first_shape, fun id isDir dir => ?_, fun id nonzero below => ?_⟩
    · have none : Session.first.disk.plain dir = [] := by
        rw [Disk.plain]
        by_cases top : dir = rootIno
        · rw [top]
          rfl
        · rw [first_slots top]
          rfl
      rw [none, if_neg fun all => all.1 (first_directory isDir)]
      rfl
    · have links : Session.first.disk.links id = 0 := by
        refine total_eq_zero fun dir e inside => ?_
        by_cases top : dir = rootIno
        · subst top
          rcases List.mem_pair.mp inside with rfl | rfl <;> exact decide_eq_false (Ne.symm below)
        · rw [first_slots top] at inside
          cases inside
      rw [links, show Session.first.disk.inode id = noInode from if_neg below]
      rfl
  counted := by
    refine ⟨fun id => ?_, fun _ => rfl, fun id inside => ?_, List.mem_cons_self⟩
    · by_cases top : id = rootIno
      · subst top
        rfl
      · have none : id ∉ Session.first.held := fun inside => by
          rcases List.mem_pair.mp inside with same | same <;> exact top same
        rw [List.count_eq_zero.mpr none]
        exact if_neg top
    · rcases List.mem_pair.mp inside with rfl | rfl <;> rfl
  alive := by
    intro id used file
    rw [show id = rootIno from of_decide_eq_true used] at file
    exact absurd rfl file

def Env.first : Env where
  euid := 0
  egid := 0
  umask := 0o22
  pwd := rootIno
  others := 0
  unreadable := fun _ => false
  full := fun _ => false
  noBlock := false
  badBlock := false

/-- The session after a call; one that panics is left out. -/
def Session.next (s : Session) (call : Call) : Session := (s.run call).getD s

theorem reaches_next {s t : Session} (sound : s.Sound) (reaches : Reaches s t) {call : Call}
    (allowed : call.Allowed t) : Reaches s (t.next call) := by
  obtain ⟨after, run, _⟩ := run_sound (reaches_sound sound reaches) allowed
  rw [Session.next, run]
  exact .next reaches allowed run

def Session.nested : Session :=
  (Session.first.next (.mkdir .first [47, 97] 0o755)).next (.mkdir .first [47, 97, 47, 98] 0o755)

theorem nested_reached : Reaches Session.first Session.nested := by
  have first : (Call.mkdir .first [47, 97] 0o755).Allowed Session.first :=
    ⟨⟨List.mem_cons_self, by decide⟩, by decide, fun _ => rfl⟩
  have second : (Call.mkdir .first [47, 97, 47, 98] 0o755).Allowed
      (Session.first.next (.mkdir .first [47, 97] 0o755)) :=
    ⟨⟨List.mem_cons_self, by decide +kernel⟩, by decide, fun _ => rfl⟩
  exact reaches_next first_sound (reaches_next first_sound .start first) second

/-- Three entries lead to `/a`: its name, its own and the one above in `/a/b`. -/
theorem runs_keep_tree_nested : Session.nested.disk.links 2 = 3 ∧
    ∀ dir, Session.nested.disk.IsDir dir → Rooted Session.nested.disk dir := by
  obtain ⟨-, -, -, -, links, -, -, -, rooted⟩ := runs_keep_tree first_sound nested_reached
  refine ⟨?_, rooted⟩
  rw [← links 2 (by decide) (by decide)]
  decide +kernel

end SymphonyPlus.Namei
