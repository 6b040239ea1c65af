import SymphonyPlus.ChangeDirectory
import SymphonyPlus.NameMap

/-! The records of the directories of a disk, and the directory that the shell finds in them after
any run of calls. -/

namespace SymphonyPlus.Namei

open Function SlotTables

def DirEntry.record (e : DirEntry) : WorkingDirectory.Record where
  bytes := e.inode.extractLsb' 8 8 :: e.inode.extractLsb' 0 8 ::
    (e.name.take nameLen ++ List.replicate (nameLen - e.name.length) 0)
  size := by
    simp only [nameLen, List.length_cons, List.length_append, List.length_take,
      List.length_replicate]
    omega

/-- What a process can read of the directories. -/
def Disk.tree (d : Disk) (device : BitVec 16) : WorkingDirectory.Tree where
  root := rootIno
  device := device
  records := fun dir => if d.IsDir dir then some ((d.slots dir).map DirEntry.record) else none

theorem record_inode (e : DirEntry) : e.record.inode = e.inode :=
  show e.inode.extractLsb' 8 8 ++ e.inode.extractLsb' 0 8 = e.inode from
    BitVec.extractLsb'_append_extractLsb'

theorem takeWhile_padded {name : Name} (text : 0 ∉ name) (k : Nat) :
    (name ++ List.replicate k 0).takeWhile (· ≠ 0) = name := by
  have kept : ∀ c ∈ name, decide (c ≠ 0) = true := fun c inside =>
    decide_eq_true fun zero => text (zero ▸ inside)
  rw [List.takeWhile_append_of_pos kept]
  cases k with
  | zero => exact List.append_nil name
  | succ k =>
      rw [List.replicate_succ, List.takeWhile_cons_of_neg (by decide)]
      exact List.append_nil name

theorem record_name {e : DirEntry} (proper : Proper e.name) : e.record.name = e.name := by
  rw [WorkingDirectory.Record.name, DirEntry.record]
  simp only [List.drop_succ_cons, List.drop_zero, List.take_of_length_le proper.short]
  exact takeWhile_padded proper.text _

section

variable {d : Disk} {dir id : Ino} {name : Name} {device : BitVec 16}

theorem tree_records (device : BitVec 16) (isDir : d.IsDir dir) :
    (d.tree device).records dir = some ((d.slots dir).map DirEntry.record) := if_pos isDir

theorem records_directory (inside : ((d.tree device).records dir).isSome) : d.IsDir dir := by
  by_contra other
  rw [Disk.tree] at inside
  simp only [if_neg other] at inside
  cases inside

theorem find_same {p q : DirEntry → Bool} (slots : List DirEntry) (same : ∀ e ∈ slots, p e = q e) :
    slots.find? p = slots.find? q := by
  induction slots with
  | nil => rfl
  | cons e slots ih =>
      have first := same e List.mem_cons_self
      have later := ih fun other inside => same other (List.mem_cons_of_mem e inside)
      rw [List.find?_cons, List.find?_cons, first, later]

/-- The records say what the entries say. -/
theorem tree_lookup (shape : Shape d) (dir : Ino) (name : Name) :
    (d.tree device).lookup dir name = d.lookup dir (name.take nameLen) := by
  rw [WorkingDirectory.Tree.lookup, Disk.lookup]
  by_cases isDir : d.IsDir dir
  · rw [tree_records _ isDir, Option.bind_some, List.find?_map, Option.map_map]
    have inodes : WorkingDirectory.Record.inode ∘ DirEntry.record = DirEntry.inode :=
      funext record_inode
    rw [inodes]
    refine congrArg (Option.map DirEntry.inode) (find_same _ fun e inside => ?_)
    rw [Function.comp_apply, record_inode]
    by_cases used : e.inode = 0
    · simp only [used, ne_eq, not_true_eq_false, false_and]
    · rw [record_name (shape.proper dir e inside used)]
      rfl
  · rw [show (d.tree device).records dir = none from if_neg isDir,
      shape.files dir (Bool.eq_false_iff.mpr isDir)]
    rfl

theorem lookup_dots (shape : Shape d) (isDir : d.IsDir dir) :
    d.lookup dir dot = some dir ∧ d.lookup dir dotDot = some (d.parent dir) := by
  have starts := shape.starts dir isDir
  have self := shape.directory_nonzero isDir
  have up := shape.directory_nonzero (shape.above dir isDir)
  refine ⟨(lookup_iff (shape.names dir)).mpr ⟨?_, self⟩,
    (lookup_iff (shape.names dir)).mpr ⟨?_, up⟩⟩
  · rw [starts]
    exact List.mem_cons_self
  · rw [starts]
    exact List.mem_cons_of_mem _ List.mem_cons_self

/-- Behind its own two names a directory has neither again. -/
theorem plain_name (shape : Shape d) (isDir : d.IsDir dir) {e : DirEntry} (inside : e ∈ d.plain dir)
    (used : e.inode ≠ 0) : WorkingDirectory.Plain e.name := by
  have self : inUse ⟨dir, dot⟩ = true := decide_eq_true (shape.directory_nonzero isDir)
  have up : inUse ⟨d.parent dir, dotDot⟩ = true :=
    decide_eq_true (shape.directory_nonzero (shape.above dir isDir))
  have names := shape.names dir
  rw [shape.starts dir isDir, usedNames, valuesOf, List.filter_cons_of_pos self,
    List.filter_cons_of_pos up, List.map_cons, List.map_cons, List.nodup_cons,
    List.nodup_cons] at names
  have member := mem_usedNames inside used
  refine ⟨fun (same : e.name = dot) => names.1 (List.mem_cons_of_mem _ ?_),
    fun (same : e.name = dotDot) => names.2.1 ?_⟩
  · rwa [← same]
  · rwa [← same]

theorem plain_entries (shape : Shape d) (isDir : d.IsDir dir) {e : DirEntry}
    (inside : e ∈ d.slots dir) (plain : WorkingDirectory.Plain e.name) : e ∈ d.plain dir := by
  rw [shape.starts dir isDir] at inside
  rcases List.mem_cons.mp inside with rfl | inside
  · exact absurd rfl plain.1
  · rcases List.mem_cons.mp inside with rfl | inside
    · exact absurd rfl plain.2
    · exact inside

theorem home_filter (tree : Tree d) (isDir : d.IsDir id) (dir : Ino) :
    ((d.plain dir).filter (leadsTo id)).length =
      if id ≠ rootIno ∧ dir = d.parent id then 1 else 0 := by
  rw [← List.countP_eq_length_filter, tree.home id isDir dir]
  simp only [tree.shape.directory_nonzero isDir, ne_eq, not_false_eq_true, true_and]

/-- No two entries behind the first two lead to a directory. -/
theorem leads_once (tree : Tree d) (isDir : d.IsDir id) {e e' : DirEntry}
    (kept : e ∈ (d.plain dir).filter (leadsTo id)) (kept' : e' ∈ (d.plain dir).filter (leadsTo id)) :
    e = e' := by
  have few : ((d.plain dir).filter (leadsTo id)).length ≤ 1 := by
    rw [home_filter tree isDir]
    split <;> omega
  generalize (d.plain dir).filter (leadsTo id) = entries at kept kept' few
  cases entries with
  | nil => cases kept
  | cons only others =>
      cases List.eq_nil_of_length_eq_zero (Nat.le_zero.mp (Nat.le_of_succ_le_succ few))
      exact (List.mem_singleton.mp kept).trans (List.mem_singleton.mp kept').symm

/-- The names of the records in use are those of the entries. -/
theorem record_names (shape : Shape d) (dir : Ino) :
    (((d.slots dir).map DirEntry.record).filter fun r =>
      WorkingDirectory.Record.inode r ≠ 0).map WorkingDirectory.Record.name = usedNames (d.slots dir) := by
  have kept : (fun r => decide (WorkingDirectory.Record.inode r ≠ 0)) ∘ DirEntry.record =
      inUse := funext fun e => by rw [Function.comp_apply, record_inode, inUse]
  rw [List.filter_map, List.map_map, kept]
  rw [usedNames, valuesOf]
  refine List.map_congr_left fun e inside => ?_
  obtain ⟨member, used⟩ := List.mem_filter.mp inside
  exact record_name (shape.proper dir e member (of_decide_eq_true used))

theorem rooted_levels (rooted : Rooted d dir) :
    ∃ levels, d.parent^[levels] dir = rootIno := by
  induction rooted with
  | root => exact ⟨0, rfl⟩
  | under isDir above ih =>
      obtain ⟨levels, reaches⟩ := ih
      exact ⟨levels + 1, reaches⟩

theorem tree_rooted (tree : Tree d) (device : BitVec 16) :
    WorkingDirectory.Rooted (d.tree device) d.parent where
  root := Option.isSome_of_eq_some (tree_records device tree.shape.root)
  zero := if_neg (zero_file tree.shape)
  names := by
    intro dir records found r inside used
    have isDir := records_directory (Option.isSome_of_eq_some found)
    rw [tree_records _ isDir] at found
    cases found
    obtain ⟨e, member, rfl⟩ := List.mem_map.mp inside
    rw [record_inode] at used
    have proper := tree.shape.proper dir e member used
    rw [record_name proper]
    exact ⟨proper.nonempty, proper.part⟩
  unique := by
    intro dir records found
    have isDir := records_directory (Option.isSome_of_eq_some found)
    rw [tree_records _ isDir] at found
    cases found
    rw [record_names tree.shape]
    exact tree.shape.names dir
  self := by
    intro dir inside
    rw [tree_lookup tree.shape]
    exact (lookup_dots tree.shape (records_directory inside)).1
  up := by
    intro dir inside
    rw [tree_lookup tree.shape]
    exact (lookup_dots tree.shape (records_directory inside)).2
  above := by
    intro dir inside
    rw [tree_records _ (tree.shape.above dir (records_directory inside))]
    rfl
  entry := by
    intro dir records inside below found
    have isDir := records_directory inside
    have up := tree.shape.above dir isDir
    rw [tree_records _ up] at found
    cases found
    have one := home_filter tree isDir (d.parent dir)
    rw [if_pos ⟨below, rfl⟩] at one
    obtain ⟨e, only⟩ := List.length_eq_one_iff.mp one
    obtain ⟨member, leads⟩ := List.mem_filter.mp (only ▸ List.mem_singleton_self e)
    have same : e.inode = dir := of_decide_eq_true leads
    have used : e.inode ≠ 0 := same ▸ tree.shape.directory_nonzero isDir
    have behind := List.mem_of_mem_drop member
    refine ⟨e.record, List.mem_map_of_mem behind, (record_inode e).trans same, ?_⟩
    rw [record_name (tree.shape.proper _ e behind used)]
    exact plain_name tree.shape up member used
  once := by
    intro dir records inside found r first s second leads leads' plain plain'
    have isDir := records_directory inside
    have up := tree.shape.above dir isDir
    rw [tree_records _ up] at found
    cases found
    obtain ⟨e, member, rfl⟩ := List.mem_map.mp first
    obtain ⟨e', member', rfl⟩ := List.mem_map.mp second
    rw [record_inode] at leads leads'
    have nonzero := tree.shape.directory_nonzero isDir
    have named := record_name (tree.shape.proper _ e member (leads ▸ nonzero))
    have named' := record_name (tree.shape.proper _ e' member' (leads' ▸ nonzero))
    rw [named] at plain
    rw [named'] at plain'
    have kept : e ∈ (d.plain (d.parent dir)).filter (leadsTo dir) :=
      List.mem_filter.mpr ⟨plain_entries tree.shape up member plain, decide_eq_true leads⟩
    have kept' : e' ∈ (d.plain (d.parent dir)).filter (leadsTo dir) :=
      List.mem_filter.mpr ⟨plain_entries tree.shape up member' plain', decide_eq_true leads'⟩
    rw [leads_once tree isDir kept kept']
  top := tree.shape.top
  reaches := fun dir inside =>
    rooted_levels (tree.shape.rooted dir (records_directory inside))
  down := by
    intro dir name next found plain inside
    have isDir := records_directory inside
    rw [tree_lookup tree.shape] at found
    obtain ⟨member, used⟩ := (lookup_iff (tree.shape.names dir)).mp found
    have directory : d.IsDir dir := by
      by_contra file
      rw [tree.shape.files dir (Bool.eq_false_iff.mpr file)] at member
      cases member
    have kept : (⟨next, name.take nameLen⟩ : DirEntry) ∈ (d.plain dir).filter (leadsTo next) :=
      List.mem_filter.mpr ⟨plain_entries tree.shape directory member
        (WorkingDirectory.cut_plain plain), decide_eq_true rfl⟩
    have some := List.length_pos_of_mem kept
    rw [home_filter tree isDir] at some
    split at some
    · rename_i home
      exact ⟨home.2.symm, home.1⟩
    · cases some

/-! Paths. -/

theorem components_splitOn (text current : Name) : WorkingDirectory.components current text =
    ((text.splitOn slash).modifyHead (current ++ ·)).filter (· ≠ []) := by
  induction text generalizing current with
  | nil =>
      rw [WorkingDirectory.components, List.splitOn_nil]
      by_cases none : current = []
      · subst none
        rfl
      · simp [none]
  | cons c text ih =>
      have whole : (c :: text).splitOn slash = if c == slash then [] :: text.splitOn slash
          else (text.splitOn slash).modifyHead (List.cons c) :=
        List.splitOnP_cons_eq_if_modifyHead c text
      rw [WorkingDirectory.components, whole]
      by_cases here : c = slash
      · have later := ih []
        simp only [List.nil_append] at later
        rw [show (fun part : Name => part) = id from rfl, List.modifyHead_id, id] at later
        rw [if_pos (show c = WorkingDirectory.slash from here), if_pos (beq_iff_eq.mpr here), later]
        by_cases none : current = []
        · simp [none]
        · simp [none]
      · rw [if_neg (show c ≠ WorkingDirectory.slash from here), if_neg (by simpa using here), ih,
          List.modifyHead_modifyHead]
        simp only [Function.comp_def, List.append_assoc, List.cons_append, List.nil_append]

theorem lookup_sought (shape : Shape d) (isDir : d.IsDir dir) (device : BitVec 16) (name : Name) :
    d.lookup dir (soughtName dir name) = (d.tree device).lookup dir name := by
  rw [tree_lookup shape, soughtName]
  split
  · rename_i faked
    obtain ⟨rfl, rfl⟩ := faked
    rw [(lookup_dots shape isDir).1, show dotDot.take nameLen = dotDot from rfl,
      (lookup_dots shape isDir).2, shape.top]
  · rfl

theorem found_lookup (device : BitVec 16) {env : Env} {i : Nat} (shape : Shape d)
    (isDir : d.IsDir dir) (there : d.found env dir name = some i) :
    name ≠ [] ∧ (d.tree device).lookup dir name = some (d.entryAt dir i).inode := by
  have nonempty : name ≠ [] := by
    rintro rfl
    rw [Disk.found, if_pos rfl] at there
    cases there
  rw [← lookup_sought shape isDir]
  exact ⟨nonempty, (lookup_found shape there).1⟩

theorem entered_walk (device : BitVec 16) {env : Env} {names : List Name} {start : Ino}
    (shape : Shape d) (there : entered env d names start = some dir) :
    (∀ name ∈ names, name ≠ []) ∧ (d.tree device).walk start names = some dir := by
  induction names generalizing start with
  | nil =>
      rw [entered] at there
      split at there
      · cases there
        exact ⟨fun name none => absurd none List.not_mem_nil, rfl⟩
      · cases there
  | cons name names ih =>
      rw [entered] at there
      split at there
      · rename_i enterable
        obtain ⟨i, found, there⟩ := Option.bind_eq_some_iff.mp there
        have isDir : d.IsDir start := (enterable_live enterable).1
        obtain ⟨nonempty, step⟩ := found_lookup device shape isDir found
        obtain ⟨named, walked⟩ := ih there
        refine ⟨List.forall_mem_cons.mpr ⟨nonempty, named⟩, ?_⟩
        rw [WorkingDirectory.Tree.walk, step]
        exact walked
      · cases there

/-! A process that sees the whole tree walks it as the records say. -/

/-- A process that may search and read every directory, and whose directory blocks can be read. -/
structure Env.Sees (env : Env) (d : Disk) : Prop where
  search : ∀ dir, d.IsDir dir → env.enterable (d.inode dir) = true
  read : ∀ dir, d.IsDir dir → env.permission (d.inode dir) (accMode 0) = true
  whole : env.Whole

variable {env : Env} {names : List Name}

theorem lookup_directory {next : Ino} (found : (d.tree device).lookup dir name = some next) :
    d.IsDir dir := by
  obtain ⟨records, inside, _⟩ := Option.bind_eq_some_iff.mp found
  exact records_directory (Option.isSome_of_eq_some inside)

theorem lookup_entered {next : Ino} (shape : Shape d) (whole : env.Whole) (named : name ≠ [])
    (there : (d.tree device).lookup dir name = some next) :
    ∃ i, d.found env dir name = some i ∧ (d.entryAt dir i).inode = next := by
  have isDir := lookup_directory there
  rw [← lookup_sought shape isDir] at there
  cases found : d.found env dir name with
  | none =>
      have absent : Absent env d dir name := Missed.absent ⟨named, found⟩ whole
      rw [(lookup_absent shape isDir absent).1] at there
      cases there
  | some i =>
      rw [(lookup_found shape found).1] at there
      exact ⟨i, rfl, Option.some.inj there⟩

theorem walk_entered {start : Ino} (shape : Shape d) (sees : env.Sees d)
    (named : ∀ name ∈ names, name ≠ []) (isDir : d.IsDir dir)
    (walked : (d.tree device).walk start names = some dir) :
    entered env d names start = some dir := by
  induction names generalizing start with
  | nil =>
      cases walked
      rw [entered, if_pos (sees.search dir isDir)]
  | cons name names ih =>
      obtain ⟨next, found, later⟩ := Option.bind_eq_some_iff.mp walked
      obtain ⟨i, there, same⟩ :=
        lookup_entered shape sees.whole (named name List.mem_cons_self) found
      rw [entered, if_pos (sees.search start (lookup_directory found)), there, Option.bind_some, same]
      exact ih (fun other inside => named other (List.mem_cons_of_mem name inside)) later

theorem suser_permission {inode : Inode} (suser : env.suser = true) (links : inode.nlinks ≠ 0)
    (mask : BitVec 16) : env.permission inode mask = true := by
  rw [Env.permission, if_neg links, suser, Bool.or_true]

/-- The superuser sees the whole tree while the root has a link. -/
theorem suser_sees (tree : Tree d) (suser : env.suser = true) (whole : env.Whole)
    (root : (d.inode rootIno).nlinks ≠ 0) : env.Sees d := by
  have links : ∀ dir, d.IsDir dir → (d.inode dir).nlinks ≠ 0 := by
    intro dir isDir none
    by_cases top : dir = rootIno
    · exact root (top ▸ none)
    · have more := (directory_nlinks tree isDir top).1
      rw [none] at more
      exact absurd more (by decide)
  refine ⟨fun dir isDir => ?_, fun dir isDir => suser_permission suser (links dir isDir) _, whole⟩
  rw [Env.enterable, isDir, suser_permission suser (links dir isDir), Bool.and_true]

/-! Paths. -/

/-- A path in its parts: what is walked, and the last part of it. -/
theorem path_parts (text : Name) : WorkingDirectory.components [] text =
    ((text.splitOn slash).dropLast ++ [(text.splitOn slash).getLastD []]).filter (· ≠ []) := by
  have nonempty : text.splitOn slash ≠ [] := List.splitOnP_ne_nil _ text
  have whole := components_splitOn text []
  simp only [List.nil_append] at whole
  rw [show (fun part : Name => part) = id from rfl, List.modifyHead_id, id] at whole
  rw [whole, List.getLastD_eq_getLast?, List.getLast?_eq_some_getLast nonempty, Option.getD_some,
    List.dropLast_append_getLast nonempty]

theorem basename_slash (rest : Name) : basename (slash :: rest) = basename rest := by
  have nonempty : rest.splitOn slash ≠ [] := List.splitOnP_ne_nil _ rest
  have whole : (slash :: rest).splitOn slash = [] :: rest.splitOn slash :=
    (List.splitOnP_cons_eq_if_modifyHead slash rest).trans (if_pos (beq_self_eq_true slash))
  rw [basename, basename, whole]
  cases parts : rest.splitOn slash with
  | nil => exact absurd parts nonempty
  | cons part parts => rfl

def body (path : Name) : Name := if path.head? = some slash then path.tail else path

def Env.start (env : Env) (path : Name) : Ino :=
  if path.head? = some slash then rootIno else env.pwd

theorem leads_body {path : Name} (nonempty : path ≠ []) : leads env d path =
    (entered env d ((body path).splitOn slash).dropLast (env.start path)).map fun dir =>
      (dir, basename (body path)) := by
  cases path with
  | nil => exact absurd rfl nonempty
  | cons c rest =>
      rw [leads, body, Env.start]
      by_cases absolute : c = slash
      · subst absolute
        rw [basename_slash]
        rfl
      · have other : (c :: rest).head? ≠ some slash := fun same => absolute (Option.some.inj same)
        simp only [if_neg absolute, if_neg other]

theorem resolve_body (path : Name) : (d.tree device).resolve env.pwd path =
    (d.tree device).walk (env.start path) (WorkingDirectory.components [] (body path)) := by
  rw [WorkingDirectory.Tree.resolve, Env.start, body]
  by_cases absolute : path.head? = some slash
  · obtain ⟨rest, rfl⟩ := List.head?_eq_some_iff.mp absolute
    rfl
  · rw [if_neg absolute, if_neg absolute]
    exact congrArg ((d.tree device).walk · _) (if_neg absolute)

theorem part_kept {part : Name} (known : part ≠ []) : [part].filter (· ≠ []) = [part] :=
  List.filter_cons_of_pos (decide_eq_true known)

/-- Where `namei` leads, the records lead too. -/
theorem named_resolve (device : BitVec 16) {path : Name} (shape : Shape d)
    (there : named env d path = some id) : (d.tree device).resolve env.pwd path = some id := by
  obtain ⟨⟨dir, name⟩, above, there⟩ := Option.bind_eq_some_iff.mp there
  have nonempty : path ≠ [] := by
    rintro rfl
    cases above
  have isDir := (enterable_live (leads_enterable above)).1
  rw [leads_body nonempty] at above
  obtain ⟨last, walked, same⟩ := Option.map_eq_some_iff.mp above
  obtain ⟨rfl, rfl⟩ := Prod.mk.inj same
  obtain ⟨parts, walked⟩ := entered_walk device shape walked
  have kept : ((body path).splitOn slash).dropLast.filter (· ≠ []) =
      ((body path).splitOn slash).dropLast :=
    List.filter_eq_self.mpr fun part inside => by simpa using parts part inside
  rw [resolve_body, path_parts, List.filter_append, kept, WorkingDirectory.walk_append, walked,
    Option.bind_some, ← basename]
  simp only at there
  split at there
  · rename_i empty
    cases there
    rw [empty]
    rfl
  · rename_i known
    obtain ⟨i, found, rfl⟩ := Option.map_eq_some_iff.mp there
    rw [part_kept known, WorkingDirectory.Tree.walk, (found_lookup device shape isDir found).2]
    rfl

/-- Where the records lead to a directory on a path without a doubled slash, `namei` leads too. -/
theorem resolve_named {path : Name} (shape : Shape d) (sees : env.Sees d) (nonempty : path ≠ [])
    (clean : ∀ part ∈ ((body path).splitOn slash).dropLast, part ≠ []) (isDir : d.IsDir id)
    (there : (d.tree device).resolve env.pwd path = some id) : named env d path = some id := by
  have kept : ((body path).splitOn slash).dropLast.filter (· ≠ []) =
      ((body path).splitOn slash).dropLast :=
    List.filter_eq_self.mpr fun part inside => by simpa using clean part inside
  rw [resolve_body, path_parts, List.filter_append, kept, WorkingDirectory.walk_append,
    ← basename] at there
  obtain ⟨dir, walked, last⟩ := Option.bind_eq_some_iff.mp there
  rw [named, leads_body nonempty]
  by_cases empty : basename (body path) = []
  · rw [empty] at last
    cases last
    rw [walk_entered shape sees clean isDir walked, Option.map_some, Option.bind_some]
    exact if_pos empty
  · rw [part_kept empty] at last
    obtain ⟨next, found, final⟩ := Option.bind_eq_some_iff.mp last
    cases final
    obtain ⟨i, entry, same⟩ := lookup_entered shape sees.whole empty found
    rw [walk_entered shape sees clean (lookup_directory found) walked, Option.map_some,
      Option.bind_some]
    simp only [if_neg empty, entry, Option.map_some, same]

/-- Names that are joined by slashes. -/
theorem joined_parts {name : Name} (clear : slash ∉ name) (parts : ∀ other ∈ names, slash ∉ other) :
    (name ++ WorkingDirectory.pathText names).splitOn slash = name :: names := by
  have joined : name ++ WorkingDirectory.pathText names = [slash].intercalate (name :: names) := by
    clear clear parts
    induction names generalizing name with
    | nil => simp [WorkingDirectory.pathText]
    | cons other names ih =>
        have text : WorkingDirectory.pathText (other :: names) =
            slash :: (other ++ WorkingDirectory.pathText names) := rfl
        rw [text, ih, List.intercalate_cons_cons, List.append_assoc]
        rfl
  rw [joined]
  exact List.splitOn_intercalate slash (fun other inside => by
    rcases List.mem_cons.mp inside with rfl | inside
    · exact clear
    · exact parts other inside) (List.cons_ne_nil _ _)

theorem names_clean {path : Name} (whole : (body path).splitOn slash = names)
    (named : ∀ name ∈ names, name ≠ []) :
    ∀ part ∈ ((body path).splitOn slash).dropLast, part ≠ [] := fun part inside =>
  named part (whole ▸ List.dropLast_subset _ inside)

theorem above_directory (shape : Shape d) (isDir : d.IsDir id) (levels : Nat) :
    d.IsDir (d.parent^[levels] id) := by
  induction levels with
  | zero => exact isDir
  | succ levels ih =>
      rw [Function.iterate_succ_apply']
      exact shape.above _ ih

/-- What `read_cwd` asks for leads to directories that the process may read, as the records say. -/
theorem asked_named (tree : Tree d) (device : BitVec 16) (sees : env.Sees d)
    (isDir : d.IsDir env.pwd) {path : Name} (asked : WorkingDirectory.Asked path) :
    ∃ id, d.IsDir id ∧ env.permission (d.inode id) (accMode 0) = true ∧
      (d.tree device).resolve env.pwd path = some id ∧ named env d path = some id := by
  have good := (tree_rooted tree device).toWellFormed
  have inside := Option.isSome_of_eq_some (tree_records device isDir)
  have clear : ∀ part ∈ ([] : List Name), part ≠ [] := fun part none => absurd none List.not_mem_nil
  cases asked with
  | here =>
      have there : (d.tree device).resolve env.pwd [WorkingDirectory.dot] = some env.pwd := by
        have found : (d.tree device).walk env.pwd [dot] = some env.pwd := by
          rw [WorkingDirectory.Tree.walk, show (d.tree device).lookup env.pwd dot = some env.pwd from
            good.self env.pwd inside]
          rfl
        exact found
      exact ⟨env.pwd, isDir, sees.read _ isDir, there,
        resolve_named tree.shape sees (List.cons_ne_nil _ _) clear isDir there⟩
  | root =>
      have there : (d.tree device).resolve env.pwd [WorkingDirectory.slash] = some rootIno := rfl
      exact ⟨rootIno, tree.shape.root, sees.read _ tree.shape.root, there,
        resolve_named tree.shape sees (List.cons_ne_nil _ _) clear tree.shape.root there⟩
  | above levels =>
      have there := WorkingDirectory.resolve_up good levels inside
      have directory := above_directory tree.shape isDir (levels + 1)
      have dots : ∀ name ∈ List.replicate levels dotDot, slash ∉ name ∧ name ≠ [] := by
        intro name member
        rw [List.eq_of_mem_replicate member]
        decide
      have parts : (body (dotDot ++ WorkingDirectory.pathText (List.replicate levels dotDot))).splitOn
          slash = dotDot :: List.replicate levels dotDot :=
        joined_parts (by decide) fun name member => (dots name member).1
      refine ⟨_, directory, sees.read _ directory, there, resolve_named tree.shape sees
        (List.cons_ne_nil _ _) (names_clean parts ?_) directory there⟩
      exact List.forall_mem_cons.mpr ⟨by decide, fun name member => (dots name member).2⟩

/-- The text of the names on the way to a directory leads to it. -/
theorem rootText_named {parent : BitVec 16 → BitVec 16} (shape : Shape d) (sees : env.Sees d)
    (good : WorkingDirectory.WellFormed (d.tree device) parent) (isDir : d.IsDir id)
    (path : WorkingDirectory.PathOf (d.tree device) parent id names) :
    named env d (WorkingDirectory.rootText names) = some id := by
  have parts := path.names good
  have resolved : (d.tree device).resolve env.pwd (WorkingDirectory.rootText names) = some id := by
    rw [WorkingDirectory.Tree.resolve, if_pos (WorkingDirectory.rootText_head names),
      WorkingDirectory.components_rootText parts]
    exact path.walk good
  refine resolve_named shape sees ?_ ?_ isDir resolved
  · cases names with
    | nil => exact List.cons_ne_nil _ _
    | cons name names => exact List.cons_ne_nil _ _
  · cases names with
    | nil => exact fun part none => absurd none List.not_mem_nil
    | cons name names =>
        have whole : (body (WorkingDirectory.rootText (name :: names))).splitOn slash =
            name :: names :=
          joined_parts (parts name List.mem_cons_self).2 fun other inside =>
            (parts other (List.mem_cons_of_mem name inside)).2
        exact names_clean whole fun other inside => (parts other inside).1

end

/-- After any run of calls a process that sees the whole tree finds its directory: what `read_cwd`
asks for leads where the records say, its text leads every such process to the directory and no
process to another inode, and it gives up only where the directory is too deep or its path too
long. -/
theorem pwd_after_runs {s t : Session} (sound : s.Sound) (reaches : Reaches s t)
    (device : BitVec 16) {env : Env} (sees : env.Sees t.disk) (isDir : t.disk.IsDir env.pwd) :
    (∀ path, WorkingDirectory.Asked path → ∃ id, t.disk.IsDir id ∧
      env.permission (t.disk.inode id) (accMode 0) = true ∧
      (t.disk.tree device).resolve env.pwd path = some id ∧ named env t.disk path = some id) ∧
    ∃ names, WorkingDirectory.PathOf (t.disk.tree device) t.disk.parent env.pwd names ∧
      ∃ result, WorkingDirectory.readCwd (t.disk.tree device) env.pwd = some result ∧
        (result = none ↔ 128 < names.length ∨ 255 < (WorkingDirectory.pathText names).length) ∧
        ∀ text, result = some text →
          (∀ other : Env, other.Sees t.disk → named other t.disk text = some env.pwd) ∧
          ∀ other id, named other t.disk text = some id → id = env.pwd := by
  have tree := Sound.tree (reaches_sound sound reaches)
  have good := (tree_rooted tree device).toWellFormed
  have inside := Option.isSome_of_eq_some (tree_records device isDir)
  obtain ⟨names, path⟩ := WorkingDirectory.path_exists good inside
  refine ⟨fun _ asked => asked_named tree device sees isDir asked, names, path, _,
    WorkingDirectory.readCwd_path good inside path, ?_, ?_⟩
  · split
    · rename_i fits
      constructor
      · exact fun none => absurd none (Option.some_ne_none _)
      · omega
    · rename_i wide
      refine ⟨fun _ => by omega, fun _ => rfl⟩
  · intro text made
    split at made
    · have whole : text = WorkingDirectory.rootText names := by
        rw [← Option.some.inj made, WorkingDirectory.rootText]
        refine if_congr ?_ rfl rfl
        cases names with
        | nil => exact iff_of_true rfl rfl
        | cons name names => exact iff_of_false (List.cons_ne_nil _ _) (List.cons_ne_nil _ _)
      subst whole
      refine ⟨fun other seen => rootText_named tree.shape seen good isDir path,
        fun other id there => ?_⟩
      have resolved := named_resolve device tree.shape there
      rw [WorkingDirectory.Tree.resolve, if_pos (WorkingDirectory.rootText_head names),
        WorkingDirectory.components_rootText (path.names good), path.walk good] at resolved
      exact (Option.some.inj resolved).symm
    · cases made

def Env.inside (dir : Ino) : Env := { Env.first with pwd := dir }

theorem nested_sees (dir : Ino) : (Env.inside dir).Sees Session.nested.disk :=
  suser_sees (Sound.tree (reaches_sound first_sound nested_reached)) rfl (fun _ => rfl)
    (by decide +kernel)

/-- In `/a/b`. -/
theorem pwd_after_runs_nested :
    WorkingDirectory.readCwd (Session.nested.disk.tree 0) 3 = some (some [47, 97, 47, 98]) ∧
    ∀ dir, named (Env.inside dir) Session.nested.disk [47, 97, 47, 98] = some 3 := by
  obtain ⟨-, names, -, result, found, -, leads⟩ := pwd_after_runs first_sound nested_reached 0
    (nested_sees 3) (show Session.nested.disk.IsDir 3 by decide +kernel)
  have text : WorkingDirectory.readCwd (Session.nested.disk.tree 0) 3 =
      some (some [47, 97, 47, 98]) := by decide +kernel
  have same := found.symm.trans text
  exact ⟨text, fun dir => (leads _ (Option.some.inj same)).1 (Env.inside dir) (nested_sees dir)⟩

end SymphonyPlus.Namei
