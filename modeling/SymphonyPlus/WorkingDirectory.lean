import Mathlib.Data.BitVec
import Mathlib.Data.List.Basic
import Mathlib.Data.List.Nodup
import Mathlib.Logic.Function.Iterate

/-! `read_cwd` of the shell finds the path of its directory from the records of the directories
above it. A write outside its buffers has no result. -/

namespace SymphonyPlus.WorkingDirectory

abbrev Name := List (BitVec 8)

def slash : BitVec 8 := 47
def dot : BitVec 8 := 46
def nameLen : Nat := 14

/-- One record of a directory file: two bytes of the inode number, 14 of the name. -/
structure Record where
  bytes : List (BitVec 8)
  size : bytes.length = 16

def Record.byte (r : Record) (i : Nat) : BitVec 8 := r.bytes.getD i 0

def Record.inode (r : Record) : BitVec 16 := r.byte 0 ++ r.byte 1

def Record.name (r : Record) : Name := (r.bytes.drop 2).takeWhile (· ≠ 0)

structure Tree where
  root : BitVec 16
  device : BitVec 16
  records : BitVec 16 → Option (List Record)

/-! What the kernel does with a path of a process that may search every directory. -/

/-- A name is cut to what an entry can hold. -/
def Tree.lookup (tree : Tree) (dir : BitVec 16) (name : Name) : Option (BitVec 16) :=
  (tree.records dir).bind fun records =>
    (records.find? fun r => r.inode ≠ 0 ∧ r.name = name.take nameLen).map Record.inode

def Tree.walk (tree : Tree) (dir : BitVec 16) : List Name → Option (BitVec 16)
  | [] => some dir
  | name :: rest => (tree.lookup dir name).bind fun next => tree.walk next rest

/-- The components of a path, with the bytes read so far of the first one. -/
def components : Name → Name → List Name
  | current, [] => if current = [] then [] else [current]
  | current, c :: rest =>
      if c = slash then
        if current = [] then components [] rest else current :: components [] rest
      else components (current ++ [c]) rest

def Tree.resolve (tree : Tree) (cwd : BitVec 16) (path : Name) : Option (BitVec 16) :=
  tree.walk (if path.head? = some slash then tree.root else cwd) (components [] path)

structure Stat where
  ino : BitVec 16
  dev : BitVec 16
  deriving DecidableEq

def Tree.stat (tree : Tree) (cwd : BitVec 16) (path : Name) : Option Stat :=
  (tree.resolve cwd path).map fun ino => { ino := ino, dev := tree.device }

def Tree.openDir (tree : Tree) (cwd : BitVec 16) (path : Name) : Option (List Record) :=
  (tree.resolve cwd path).bind tree.records

def pathText (names : List Name) : Name := names.flatMap fun name => slash :: name

/-! `read_cwd` itself. The path grows to the front of its buffer. -/

def strcpy (capacity : Nat) (before s : Name) : Option Name :=
  if before.length + s.length + 1 ≤ capacity then some (before ++ s) else none

/-- `result[--at] = c`; the last byte of the buffer is the zero. -/
def prepend (c : BitVec 8) (result : Name) : Option Name :=
  if result.length + 1 ≤ 255 then some (c :: result) else none

def isDots (r : Record) : Bool :=
  r.byte 2 = dot && (r.byte 3 = 0 || r.byte 3 = dot && r.byte 4 = 0)

inductive Scan
  | found (result : Name)
  | full
  | missing

def scan (child : Stat) (result : Name) : List Record → Option Scan
  | [] => some .missing
  | r :: rest =>
      if r.inode ≠ child.ino || isDots r then scan child result rest
      else if 255 - result.length < r.name.length + 1 then some .full
      else do
        let result ← r.name.foldrM prepend result
        let result ← prepend slash result
        return .found result

def climb (tree : Tree) (cwd : BitVec 16) (root : Stat) (left : Nat) (child : Stat)
    (parents result : Name) : Option (Option Name) :=
  if child = root then (strcpy 256 [] (if result = [] then [slash] else result)).map some
  else
    match left with
    | 0 => some none
    | left + 1 =>
        match tree.stat cwd parents, tree.openDir cwd parents with
        | some parent, some records =>
            match scan child result records with
            | none => none
            | some (.found result) => do
                let parents ← strcpy 512 parents [slash, dot, dot]
                climb tree cwd root left parent parents result
            | some _ => some none
        | _, _ => some none

def readCwd (tree : Tree) (cwd : BitVec 16) : Option (Option Name) := do
  let parents ← strcpy 512 [] [dot, dot]
  match tree.stat cwd [dot], tree.stat cwd [slash] with
  | some child, some root => climb tree cwd root 128 child parents []
  | _, _ => some none

/-- The paths for which `read_cwd` asks the kernel. -/
inductive Asked : Name → Prop
  | here : Asked [dot]
  | root : Asked [slash]
  | above (levels : Nat) : Asked ([dot, dot] ++ pathText (List.replicate levels [dot, dot]))

/-! Trees. -/

def Plain (name : Name) : Prop := name ≠ [dot] ∧ name ≠ [dot, dot]

instance (name : Name) : Decidable (Plain name) := inferInstanceAs (Decidable (_ ∧ _))

/-- A directory tree: names are unique and one entry leads to each directory but the root. -/
structure WellFormed (tree : Tree) (parent : BitVec 16 → BitVec 16) : Prop where
  root : (tree.records tree.root).isSome
  zero : tree.records 0 = none
  names : ∀ dir records, tree.records dir = some records → ∀ r ∈ records, r.inode ≠ 0 →
    r.name ≠ [] ∧ slash ∉ r.name
  unique : ∀ dir records, tree.records dir = some records →
    ((records.filter fun r => r.inode ≠ 0).map Record.name).Nodup
  self : ∀ dir, (tree.records dir).isSome → tree.lookup dir [dot] = some dir
  up : ∀ dir, (tree.records dir).isSome → tree.lookup dir [dot, dot] = some (parent dir)
  above : ∀ dir, (tree.records dir).isSome → (tree.records (parent dir)).isSome
  entry : ∀ dir records, (tree.records dir).isSome → dir ≠ tree.root →
    tree.records (parent dir) = some records → ∃ r ∈ records, r.inode = dir ∧ Plain r.name
  once : ∀ dir records, (tree.records dir).isSome → tree.records (parent dir) = some records →
    ∀ r ∈ records, ∀ s ∈ records, r.inode = dir → s.inode = dir → Plain r.name → Plain s.name →
      r.name = s.name
  top : parent tree.root = tree.root
  reaches : ∀ dir, (tree.records dir).isSome → ∃ levels, parent^[levels] dir = tree.root

inductive PathOf (tree : Tree) (parent : BitVec 16 → BitVec 16) : BitVec 16 → List Name → Prop
  | root : PathOf tree parent tree.root []
  | entry {dir : BitVec 16} {names : List Name} {records : List Record} {r : Record}
      (below : dir ≠ tree.root) (inside : (tree.records dir).isSome)
      (above : PathOf tree parent (parent dir) names)
      (found : tree.records (parent dir) = some records) (member : r ∈ records)
      (leads : r.inode = dir) (plain : Plain r.name) : PathOf tree parent dir (names ++ [r.name])

/-! Paths are taken apart at their slashes. -/

theorem components_name {name : Name} (plain : slash ∉ name) (current rest : Name) :
    components current (name ++ rest) = components (current ++ name) rest := by
  induction name generalizing current with
  | nil => rw [List.nil_append, List.append_nil]
  | cons c name ih =>
      obtain ⟨other, plain⟩ := not_or.mp (mt List.mem_cons.mpr plain)
      rw [List.cons_append, components, if_neg (Ne.symm other), ih plain, List.append_assoc]
      rfl

theorem components_text {names : List Name} (plain : ∀ name ∈ names, name ≠ [] ∧ slash ∉ name)
    (current : Name) : components current (pathText names) =
      if current = [] then names else current :: names := by
  induction names generalizing current with
  | nil => rfl
  | cons name names ih =>
      obtain ⟨nonempty, clear⟩ := plain name List.mem_cons_self
      have later := ih fun other inside => plain other (List.mem_cons_of_mem _ inside)
      have text : pathText (name :: names) = slash :: (name ++ pathText names) := rfl
      rw [text, components, if_pos rfl, components_name clear, List.nil_append, later,
        if_neg nonempty]

theorem components_up (levels : Nat) :
    components [] ([dot, dot] ++ pathText (List.replicate levels [dot, dot])) =
      List.replicate (levels + 1) [dot, dot] := by
  have plain : ∀ name ∈ List.replicate levels [dot, dot], name ≠ [] ∧ slash ∉ name := by
    intro name inside
    rw [List.eq_of_mem_replicate inside]
    decide
  rw [components_name (by decide), components_text plain]
  rfl

section
variable {tree : Tree} {parent : BitVec 16 → BitVec 16}

theorem walk_append (dir : BitVec 16) (names more : List Name) :
    tree.walk dir (names ++ more) = (tree.walk dir names).bind fun next => tree.walk next more := by
  induction names generalizing dir with
  | nil => rfl
  | cons name names ih =>
      rw [List.cons_append, Tree.walk, Tree.walk]
      cases tree.lookup dir name with
      | none => rfl
      | some next => exact ih next

theorem walk_up (good : WellFormed tree parent) (levels : Nat) {dir : BitVec 16}
    (inside : (tree.records dir).isSome) :
    tree.walk dir (List.replicate levels [dot, dot]) = some (parent^[levels] dir) := by
  induction levels generalizing dir with
  | zero => rfl
  | succ levels ih =>
      rw [List.replicate_succ, Tree.walk, good.up dir inside, Option.bind_some,
        ih (good.above dir inside)]
      rfl

theorem resolve_up (good : WellFormed tree parent) (levels : Nat) {cwd : BitVec 16}
    (inside : (tree.records cwd).isSome) :
    tree.resolve cwd ([dot, dot] ++ pathText (List.replicate levels [dot, dot])) =
      some (parent^[levels + 1] cwd) := by
  rw [Tree.resolve, components_up, if_neg (by simp [slash, dot]), walk_up good _ inside]

theorem directory_nonzero (good : WellFormed tree parent) {dir : BitVec 16}
    (inside : (tree.records dir).isSome) : dir ≠ 0 := by
  rintro rfl
  rw [good.zero] at inside
  cases inside

theorem Record.name_short (r : Record) : r.name.length ≤ nameLen := by
  have whole := (List.takeWhile_sublist (· ≠ 0) (l := r.bytes.drop 2)).length_le
  rw [List.length_drop, r.size] at whole
  exact whole

theorem lookup_entry (good : WellFormed tree parent) {dir above : BitVec 16}
    {records : List Record} {r : Record} (inside : (tree.records dir).isSome)
    (found : tree.records above = some records) (member : r ∈ records) (leads : r.inode = dir) :
    tree.lookup above r.name = some dir := by
  have used : r.inode ≠ 0 := leads ▸ directory_nonzero good inside
  have kept : ∀ {s}, s ∈ records → s.inode ≠ 0 → s ∈ records.filter fun r => r.inode ≠ 0 :=
    fun member used => List.mem_filter.mpr ⟨member, decide_eq_true used⟩
  rw [Tree.lookup, found, Option.bind_some, List.take_of_length_le r.name_short]
  cases first : records.find? fun s => s.inode ≠ 0 ∧ s.name = r.name with
  | none =>
      have missed := List.find?_eq_none.mp first r member
      simp only [used, ne_eq, not_false_eq_true, and_self, decide_true, not_true] at missed
  | some s =>
      have accepted := List.find?_some first
      simp only [decide_eq_true_eq] at accepted
      have same : s = r := List.inj_on_of_nodup_map (good.unique above records found)
        (kept (List.mem_of_find?_eq_some first) accepted.1) (kept member used) accepted.2
      rw [same, Option.map_some, leads]

theorem PathOf.walk (good : WellFormed tree parent) {dir : BitVec 16} {names : List Name}
    (path : PathOf tree parent dir names) : tree.walk tree.root names = some dir := by
  induction path with
  | root => rfl
  | entry below inside above found member leads plain ih =>
      rw [walk_append, ih, Option.bind_some, Tree.walk, lookup_entry good inside found member leads]
      rfl

theorem PathOf.names (good : WellFormed tree parent) {dir : BitVec 16} {names : List Name}
    (path : PathOf tree parent dir names) : ∀ name ∈ names, name ≠ [] ∧ slash ∉ name := by
  induction path with
  | root => exact fun name none => absurd none List.not_mem_nil
  | @entry dir names records r below inside above found member leads plain ih =>
      intro name one
      rcases List.mem_append.mp one with one | one
      · exact ih name one
      · rw [List.mem_singleton.mp one]
        exact good.names _ records found r member (leads ▸ directory_nonzero good inside)

theorem path_exists (good : WellFormed tree parent) {dir : BitVec 16}
    (inside : (tree.records dir).isSome) : ∃ names, PathOf tree parent dir names := by
  obtain ⟨levels, top⟩ := good.reaches dir inside
  induction levels generalizing dir with
  | zero => exact ⟨[], by cases top; exact .root⟩
  | succ levels ih =>
      by_cases root : dir = tree.root
      · rw [root]
        exact ⟨[], .root⟩
      · have above := good.above dir inside
        obtain ⟨names, path⟩ := ih above top
        obtain ⟨records, found⟩ := Option.isSome_iff_exists.mp above
        obtain ⟨r, member, leads, plain⟩ := good.entry dir records inside root found
        exact ⟨_, .entry root inside path found member leads plain⟩

/-! The search in one directory. -/

theorem takeWhile_one {a c : BitVec 8} {rest name : Name} (nonzero : c ≠ 0) :
    (a :: rest).takeWhile (· ≠ 0) = c :: name ↔ a = c ∧ rest.takeWhile (· ≠ 0) = name := by
  rw [List.takeWhile_cons]
  by_cases ends : a = 0
  · rw [if_neg (by simp [ends])]
    simp only [reduceCtorEq, false_iff, not_and]
    intro same
    exact absurd (same.symm.trans ends) nonzero
  · rw [if_pos (by simpa using ends), List.cons.injEq]

theorem takeWhile_none {a : BitVec 8} {rest : Name} :
    (a :: rest).takeWhile (· ≠ 0) = [] ↔ a = 0 := by
  rw [List.takeWhile_cons]
  by_cases ends : a = 0
  · simp [ends]
  · simp

theorem isDots_iff (r : Record) : isDots r = true ↔ ¬Plain r.name := by
  obtain ⟨bytes, size⟩ := r
  match bytes, size with
  | _ :: _ :: a :: b :: c :: rest, _ =>
      have nonzero : dot ≠ 0 := by decide
      show (a == dot && (b == 0 || b == dot && c == 0)) = true ↔
        ¬((a :: b :: c :: rest).takeWhile (· ≠ 0) ≠ [dot] ∧
          (a :: b :: c :: rest).takeWhile (· ≠ 0) ≠ [dot, dot])
      simp only [ne_eq, takeWhile_one nonzero, takeWhile_none, Bool.and_eq_true, Bool.or_eq_true,
        beq_iff_eq, ← not_or, not_not, and_or_left]

theorem prepend_all {name result : Name} (fits : name.length + result.length ≤ 255) :
    name.foldrM prepend result = some (name ++ result) := by
  induction name with
  | nil => rfl
  | cons c name ih =>
      rw [List.length_cons] at fits
      have room : (name ++ result).length + 1 ≤ 255 := by
        rw [List.length_append]
        omega
      rw [List.foldrM_cons, ih (by omega)]
      exact if_pos room

theorem scan_entry {records : List Record} (child : Stat) {result name : Name}
    (once : ∀ s ∈ records, s.inode = child.ino → Plain s.name → s.name = name)
    (present : ∃ r ∈ records, r.inode = child.ino ∧ Plain r.name) (small : result.length ≤ 255) :
    scan child result records =
      if name.length + 1 + result.length ≤ 255 then some (.found (slash :: name ++ result))
      else some .full := by
  induction records with
  | nil =>
      obtain ⟨r, none, -⟩ := present
      exact absurd none List.not_mem_nil
  | cons r records ih =>
      rw [scan]
      by_cases skipped : (decide (r.inode ≠ child.ino) || isDots r) = true
      · rw [if_pos skipped]
        refine ih (fun s inside => once s (List.mem_cons_of_mem _ inside)) ?_
        obtain ⟨s, member, leads, plain⟩ := present
        rcases List.mem_cons.mp member with rfl | later
        · simp only [leads, ne_eq, not_true_eq_false, decide_false, Bool.false_or] at skipped
          exact absurd plain ((isDots_iff s).mp skipped)
        · exact ⟨s, later, leads, plain⟩
      · simp only [Bool.or_eq_true, decide_eq_true_eq, not_or, ne_eq, not_not] at skipped
        have named : r.name = name := once r List.mem_cons_self skipped.1
          (not_not.mp (mt (isDots_iff r).mpr skipped.2))
        rw [if_neg (by simpa [skipped.1] using skipped.2), named]
        by_cases fits : name.length + 1 + result.length ≤ 255
        · have room : (name ++ result).length + 1 ≤ 255 := by
            rw [List.length_append]
            omega
          rw [if_neg (by omega), if_pos fits]
          simp only [prepend_all (show name.length + result.length ≤ 255 by omega), bind,
            Option.bind_some, prepend, if_pos room]
          rfl
        · rw [if_pos (by omega), if_neg fits]

/-! The climb. -/

theorem pathText_single (name : Name) : pathText [name] = slash :: name := by
  rw [pathText, List.flatMap_cons, List.flatMap_nil, List.append_nil]

theorem pathText_append (names more : List Name) :
    pathText (names ++ more) = pathText names ++ pathText more := List.flatMap_append

/-- The path that leads one level further up. -/
theorem parents_next {levels : Nat} (small : levels < 128) :
    strcpy 512 ([dot, dot] ++ pathText (List.replicate levels [dot, dot])) [slash, dot, dot] =
      some ([dot, dot] ++ pathText (List.replicate (levels + 1) [dot, dot])) := by
  have length : (pathText (List.replicate levels [dot, dot])).length = 3 * levels := by
    induction levels with
    | zero => rfl
    | succ levels ih =>
        have text : pathText (List.replicate (levels + 1) [dot, dot]) =
          [slash, dot, dot] ++ pathText (List.replicate levels [dot, dot]) := rfl
        rw [text, List.length_append, ih (by omega), List.length_cons, List.length_cons,
          List.length_singleton]
        omega
  rw [strcpy, if_pos, List.replicate_succ', pathText_append, List.append_assoc]
  · rfl
  · simp only [List.length_append, length, List.length_cons, List.length_nil]
    omega

/-- The result of a climb whose way from the root is known. -/
theorem climb_path (good : WellFormed tree parent) {cwd : BitVec 16} (levels left : Nat)
    (result : Name) (cwdInside : (tree.records cwd).isSome) {names : List Name} {child : BitVec 16}
    (here : parent^[levels] cwd = child) (path : PathOf tree parent child names)
    (count : left + levels = 128) (small : result.length ≤ 255) :
    climb tree cwd ⟨tree.root, tree.device⟩ left ⟨child, tree.device⟩
      ([dot, dot] ++ pathText (List.replicate levels [dot, dot])) result =
      some (if names.length ≤ left ∧ (pathText names ++ result).length ≤ 255 then
        some (if pathText names ++ result = [] then [slash] else pathText names ++ result)
      else none) := by
  induction path generalizing levels left result with
  | root =>
      have text : (if result = [] then [slash] else result).length + 1 ≤ 256 := by
        split
        · decide
        · omega
      have fits : ([] : List Name).length ≤ left ∧ (pathText [] ++ result).length ≤ 255 :=
        ⟨Nat.zero_le left, small⟩
      rw [climb.eq_def, if_pos rfl, if_pos fits, strcpy, if_pos]
      · rfl
      · rw [List.length_nil, Nat.zero_add]
        exact text
  | @entry dir names records r below inside above found member leads plain ih =>
      have different : ¬(⟨dir, tree.device⟩ : Stat) = ⟨tree.root, tree.device⟩ :=
        fun same => below (congrArg Stat.ino same)
      have text : pathText (names ++ [r.name]) ++ result =
          pathText names ++ (slash :: r.name ++ result) := by
        rw [pathText_append, pathText_single, List.append_assoc]
      rw [climb.eq_def, if_neg different, text]
      cases left with
      | zero =>
          rw [if_neg fun both => by simpa using both.1]
      | succ left =>
          have next : parent^[levels + 1] cwd = parent dir := by
            rw [Function.iterate_succ_apply', here]
          have resolved := (resolve_up good levels cwdInside).trans (congrArg some next)
          have once := good.once dir records inside found
          have scanned := scan_entry ⟨dir, tree.device⟩
            (fun s one leads' plain' => once s one r member leads' leads plain' plain)
            ⟨r, member, leads, plain⟩ small
          simp only [Tree.stat, Tree.openDir, resolved, Option.map_some, Option.bind_some, found,
            scanned]
          by_cases fits : r.name.length + 1 + result.length ≤ 255
          · have later := ih (levels + 1) left (slash :: r.name ++ result) next (by omega)
              (by simp only [List.length_append, List.length_cons]; omega)
            simp only [if_pos fits, parents_next (show levels < 128 by omega), bind,
              Option.bind_some, later]
            simp only [List.length_append, List.length_singleton, Nat.add_le_add_iff_right]
          · simp only [if_neg fits]
            rw [if_neg]
            simp only [List.length_append, List.length_cons]
            omega

/-- The shell finds its directory when the path fits, and says so when it does not. -/
theorem readCwd_path (good : WellFormed tree parent) {cwd : BitVec 16}
    (inside : (tree.records cwd).isSome) {names : List Name} (path : PathOf tree parent cwd names) :
    readCwd tree cwd = some (if names.length ≤ 128 ∧ (pathText names).length ≤ 255 then
      some (if pathText names = [] then [slash] else pathText names) else none) := by
  have child : tree.stat cwd [dot] = some ⟨cwd, tree.device⟩ := by
    have here : tree.resolve cwd [dot] = some cwd := by
      have found : tree.walk cwd [[dot]] = some cwd := by
        rw [Tree.walk, good.self cwd inside]
        rfl
      exact found
    rw [Tree.stat, here]
    rfl
  have climbed := climb_path good 0 128 [] inside rfl path rfl (Nat.zero_le _)
  rw [List.append_nil] at climbed
  have root : tree.stat cwd [slash] = some ⟨tree.root, tree.device⟩ := rfl
  have start : strcpy 512 [] [dot, dot] = some [dot, dot] := rfl
  simp only [readCwd, start, bind, Option.bind_some, child, root]
  exact climbed

end

/-- The result of `read_cwd` is a path of the current directory, or -1 where the path is too long
or too deep. -/
theorem read_cwd_correct (tree : Tree) (parent : BitVec 16 → BitVec 16)
    (good : WellFormed tree parent) (cwd : BitVec 16) (inside : (tree.records cwd).isSome) :
    ∃ names, PathOf tree parent cwd names ∧
      ∃ result, readCwd tree cwd = some result ∧
        (∀ text, result = some text → text.head? = some slash ∧
          ∀ place, tree.resolve place text = some cwd) ∧
        (result ≠ none ↔ names.length ≤ 128 ∧ (pathText names).length ≤ 255) := by
  obtain ⟨names, path⟩ := path_exists good inside
  refine ⟨names, path, _, readCwd_path good inside path, ?_, ?_⟩
  · intro text made
    split at made
    · cases made
      cases names with
      | nil => exact ⟨rfl, fun place => path.walk good⟩
      | cons name names =>
          have text : pathText (name :: names) = slash :: (name ++ pathText names) := rfl
          rw [if_neg (by rw [text]; exact List.cons_ne_nil _ _)]
          refine ⟨by rw [text]; rfl, fun place => ?_⟩
          have first : (pathText (name :: names)).head? = some slash := by rw [text]; rfl
          rw [Tree.resolve, if_pos first, components_text (path.names good), if_pos rfl]
          exact path.walk good
    · cases made
  · split
    · exact iff_of_true (Option.some_ne_none _) ‹_›
    · exact iff_of_false (fun other => other rfl) ‹_›

def smallTree : Tree where
  root := 1
  device := 0
  records := fun dir =>
    if dir = 1 then
      some [⟨[0, 1, dot, 0, 0, 0, 0, 0, 0, 0, 0, 0, 0, 0, 0, 0], rfl⟩,
        ⟨[0, 1, dot, dot, 0, 0, 0, 0, 0, 0, 0, 0, 0, 0, 0, 0], rfl⟩,
        ⟨[0, 2, 97, 0, 0, 0, 0, 0, 0, 0, 0, 0, 0, 0, 0, 0], rfl⟩]
    else if dir = 2 then
      some [⟨[0, 2, dot, 0, 0, 0, 0, 0, 0, 0, 0, 0, 0, 0, 0, 0], rfl⟩,
        ⟨[0, 1, dot, dot, 0, 0, 0, 0, 0, 0, 0, 0, 0, 0, 0, 0], rfl⟩]
    else none

theorem smallTree_directories {dir : BitVec 16} (inside : (smallTree.records dir).isSome) :
    dir = 1 ∨ dir = 2 := by
  by_contra other
  obtain ⟨one, two⟩ := not_or.mp other
  rw [smallTree] at inside
  simp only [if_neg one, if_neg two, Option.isSome_none, Bool.false_eq_true] at inside

theorem smallTree_wellFormed : WellFormed smallTree fun _ => 1 where
  root := rfl
  zero := rfl
  names := by
    intro dir records found
    rcases smallTree_directories (found ▸ rfl : (smallTree.records dir).isSome) with rfl | rfl
    · cases found
      decide
    · cases found
      decide
  unique := by
    intro dir records found
    rcases smallTree_directories (found ▸ rfl : (smallTree.records dir).isSome) with rfl | rfl
    · cases found
      decide
    · cases found
      decide
  self := by
    intro dir inside
    rcases smallTree_directories inside with rfl | rfl <;> decide
  up := by
    intro dir inside
    rcases smallTree_directories inside with rfl | rfl <;> decide
  above := fun _ _ => rfl
  entry := by
    intro dir records inside below found
    rcases smallTree_directories inside with rfl | rfl
    · exact absurd rfl below
    · cases found
      exact ⟨⟨[0, 2, 97, 0, 0, 0, 0, 0, 0, 0, 0, 0, 0, 0, 0, 0], rfl⟩, by simp, by decide, by decide⟩
  once := by
    intro dir records inside found
    rcases smallTree_directories inside with rfl | rfl
    · cases found
      decide
    · cases found
      decide
  top := rfl
  reaches := fun dir _ => ⟨1, rfl⟩

theorem read_cwd_correct_a : readCwd smallTree 2 = some (some [slash, 97]) ∧
    ∃ names, PathOf smallTree (fun _ => 1) 2 names := by
  obtain ⟨names, path, -⟩ := read_cwd_correct smallTree _ smallTree_wellFormed 2 rfl
  exact ⟨by decide, names, path⟩

end SymphonyPlus.WorkingDirectory
