import SymphonyPlus.WorkingDirectory

/-! `cd_path` of the shell: the path that `cd` goes to, made up from the text alone. -/

namespace SymphonyPlus.WorkingDirectory

def addByte (out : Name) (c : BitVec 8) : Option Name :=
  if out.length < 256 then some (out ++ [c]) else none

def back (out : Name) : Nat → Nat
  | 0 => 0
  | 1 => 1
  | n + 2 => if out[n + 1]? ≠ some slash then back out (n + 1) else n + 2

def textAbove (out : Name) : Name :=
  let n := back out out.length
  out.take (if 1 < n then n - 1 else n)

def addSlash (out : Name) : Option Name := if 1 < out.length then addByte out slash else some out

/-- The loop over the parts of the path; `some none` is the result -1. -/
def cdLoop : List Name → Name → Option (Option Name)
  | [], out => some (some out)
  | name :: rest, out =>
      if name = [dot] then cdLoop rest out
      else if name = [dot, dot] then cdLoop rest (textAbove out)
      else if 256 ≤ out.length + name.length + 1 then some none
      else do
        let out ← addSlash out
        let out ← name.foldlM addByte out
        let _ ← addByte out 0
        cdLoop rest out

def cdStart (cwd path : Name) : Option Name :=
  if path.head? = some slash then some [slash] else strcpy 256 [] cwd

def cdPath (cwd path : Name) : Option (Option Name) :=
  if path = [] then some none else (cdStart cwd path).bind (cdLoop (components [] path))

/-! The names that are left of a path. -/

def step (names : List Name) (name : Name) : List Name :=
  if name = [dot] then names
  else if name = [dot, dot] then names.dropLast
  else names ++ [name]

def rootText (names : List Name) : Name := if names = [] then [slash] else pathText names

/-- The names can be parts of a path. -/
def Parts (names : List Name) : Prop := ∀ name ∈ names, name ≠ [] ∧ slash ∉ name

theorem components_parts (path current : Name) (clear : slash ∉ current) :
    Parts (components current path) := by
  induction path generalizing current with
  | nil =>
      rw [components]
      split
      · exact fun name none => absurd none List.not_mem_nil
      · rename_i nonempty
        intro name one
        rw [List.mem_singleton.mp one]
        exact ⟨nonempty, clear⟩
  | cons c path ih =>
      rw [components]
      split
      · have later := ih [] List.not_mem_nil
        split
        · exact later
        · rename_i nonempty
          intro name inside
          rcases List.mem_cons.mp inside with rfl | inside
          · exact ⟨nonempty, clear⟩
          · exact later name inside
      · rename_i other
        apply ih
        intro inside
        rcases List.mem_append.mp inside with before | last
        · exact clear before
        · exact other (List.mem_singleton.mp last).symm

theorem Parts.dropLast {names : List Name} (parts : Parts names) : Parts names.dropLast :=
  fun name inside => parts name (List.dropLast_subset names inside)

theorem Parts.step {names : List Name} {name : Name} (parts : Parts names)
    (part : name ≠ [] ∧ slash ∉ name) : Parts (step names name) := by
  rw [WorkingDirectory.step]
  split
  · exact parts
  · split
    · exact parts.dropLast
    · intro other inside
      rcases List.mem_append.mp inside with before | last
      · exact parts other before
      · rw [List.mem_singleton.mp last]
        exact part

theorem components_rootText {names : List Name} (parts : Parts names) :
    components [] (rootText names) = names := by
  rw [rootText]
  split
  · rename_i root
    rw [root]
    rfl
  · rw [components_text parts, if_pos rfl]

theorem rootText_head (names : List Name) : (rootText names).head? = some slash := by
  cases names with
  | nil => rfl
  | cons name names => rfl

theorem rootText_snoc (names : List Name) (name : Name) :
    rootText (names ++ [name]) = pathText names ++ slash :: name := by
  rw [rootText, if_neg (List.append_ne_nil_of_right_ne_nil _ (List.cons_ne_nil _ _)),
    pathText_append, pathText_single]

theorem back_stop (text : Name) {name : Name} (clear : slash ∉ name) {n : Nat} (small : n ≤ name.length) :
    back (text ++ slash :: name) (text.length + 1 + n) = text.length + 1 := by
  induction n with
  | zero =>
      cases length : text.length with
      | zero => rfl
      | succ m =>
          have here : (text ++ slash :: name)[m + 1]? = some slash := by
            rw [← length, List.getElem?_append_right (Nat.le_refl _), Nat.sub_self]
            rfl
          rw [Nat.add_zero, back, here, if_neg (not_not.mpr rfl)]
  | succ n ih =>
      obtain ⟨m, total⟩ : ∃ m, text.length + 1 + (n + 1) = m + 2 := ⟨text.length + n, by omega⟩
      have here : (text ++ slash :: name)[m + 1]? = name[n]? := by
        rw [List.getElem?_append_right (by omega)]
        have place : m + 1 - text.length = n + 1 := by omega
        rw [place, List.getElem?_cons_succ]
      have other : (text ++ slash :: name)[m + 1]? ≠ some slash := by
        rw [here]
        exact fun found => clear (List.mem_of_getElem? found)
      rw [total, back, if_pos other, show m + 1 = text.length + 1 + n by omega, ih (by omega)]

theorem textAbove_rootText {names : List Name} (parts : Parts names) :
    textAbove (rootText names) = rootText names.dropLast := by
  rcases List.eq_nil_or_concat names with rfl | ⟨before, name, rfl⟩
  · rfl
  · have clear := (parts name (by simp)).2
    have stop := back_stop (pathText before) clear (Nat.le_refl name.length)
    have length : (pathText before ++ slash :: name).length =
        (pathText before).length + 1 + name.length := by
      rw [List.length_append, List.length_cons]
      omega
    rw [List.concat_eq_append, List.dropLast_concat, textAbove, rootText_snoc, length, stop]
    cases before with
    | nil => rfl
    | cons first before =>
        have some : 0 < (pathText (first :: before)).length := Nat.succ_pos _
        simp only [if_pos (Nat.succ_lt_succ some), Nat.add_sub_cancel, List.take_left]
        rfl

theorem addAll {name : Name} (out : Name) (fits : out.length + name.length ≤ 256) :
    name.foldlM addByte out = some (out ++ name) := by
  induction name generalizing out with
  | nil => exact congrArg some (List.append_nil out).symm
  | cons c name ih =>
      rw [List.length_cons] at fits
      have added : addByte out c = some (out ++ [c]) := if_pos (by omega)
      have later := ih (out ++ [c]) (by
        rw [List.length_append, List.length_singleton]
        omega)
      rw [List.foldlM_cons, added]
      exact later.trans (congrArg some (List.append_cons out c name).symm)

/-- The slash before a name. The root has its own. -/
theorem addSlash_text {names : List Name} (parts : Parts names) (room : (rootText names).length < 256) :
    addSlash (rootText names) = some (pathText names ++ [slash]) := by
  cases names with
  | nil => rfl
  | cons name names =>
      have nonempty := (parts name List.mem_cons_self).1
      have text : rootText (name :: names) = slash :: (name ++ pathText names) :=
        if_neg (List.cons_ne_nil _ _)
      have long : 1 < (rootText (name :: names)).length := by
        rw [text, List.length_cons, List.length_append]
        have some := List.length_pos_of_ne_nil nonempty
        omega
      rw [addSlash, if_pos long]
      exact if_pos room

theorem pathText_short (names : List Name) : (pathText names).length ≤ (rootText names).length := by
  cases names with
  | nil => exact Nat.zero_le _
  | cons name names => exact Nat.le_refl _

theorem dropLast_short (names : List Name) :
    (rootText names.dropLast).length ≤ (rootText names).length := by
  rcases List.eq_nil_or_concat names with rfl | ⟨before, name, rfl⟩
  · exact Nat.le_refl _
  · rw [List.concat_eq_append, List.dropLast_concat, rootText_snoc, List.length_append,
      List.length_cons]
    cases before with
    | nil => exact Nat.le_add_left _ _
    | cons first before => exact Nat.le_add_right _ _

def Room : List Name → List Name → Prop
  | _, [] => True
  | names, name :: rest =>
      (Plain name → (rootText names).length + name.length + 1 < 256) ∧ Room (step names name) rest

theorem step_length {names : List Name} {name : Name}
    (room : Plain name → (rootText names).length + name.length + 1 < 256)
    (short : (rootText names).length < 256) : (rootText (step names name)).length < 256 := by
  by_cases plain : Plain name
  · have fits := room plain
    have less := pathText_short names
    rw [step, if_neg plain.1, if_neg plain.2, rootText_snoc, List.length_append, List.length_cons]
    omega
  · rw [step]
    split
    · exact short
    · rename_i here
      rw [if_pos (by_contra fun other => plain ⟨here, other⟩)]
      exact Nat.lt_of_le_of_lt (dropLast_short names) short

/-- The loop keeps the text of the names, and gives up where one does not fit. -/
theorem cdLoop_steps {comps names : List Name} (parts : Parts comps) (before : Parts names)
    (short : (rootText names).length < 256) :
    (Room names comps → cdLoop comps (rootText names) =
      some (some (rootText (comps.foldl step names)))) ∧
    (¬Room names comps → cdLoop comps (rootText names) = some none) := by
  induction comps generalizing names with
  | nil => exact ⟨fun _ => rfl, fun none => absurd trivial none⟩
  | cons name rest ih =>
      have part := parts name List.mem_cons_self
      have partsRest : Parts rest := fun other inside => parts other (List.mem_cons_of_mem _ inside)
      have ready (room : Plain name → (rootText names).length + name.length + 1 < 256) :=
        ih partsRest (before.step part) (step_length room short)
      by_cases plain : Plain name
      · have stepped : step names name = names ++ [name] := by
          rw [step, if_neg plain.1, if_neg plain.2]
        by_cases room : (rootText names).length + name.length + 1 < 256
        · have wrote : cdLoop (name :: rest) (rootText names) =
              cdLoop rest (rootText (names ++ [name])) := by
            have less := pathText_short names
            have fits : (pathText names ++ [slash]).length + name.length < 256 := by
              rw [List.length_append, List.length_singleton]
              omega
            have ended : addByte (pathText names ++ [slash] ++ name) 0 =
                some (pathText names ++ [slash] ++ name ++ [0]) :=
              if_pos (by rw [List.length_append]; exact fits)
            rw [cdLoop, if_neg plain.1, if_neg plain.2, if_neg (Nat.not_le.mpr room),
              addSlash_text before short]
            simp only [bind, Option.bind_some, addAll _ (Nat.le_of_lt fits), ended]
            rw [rootText_snoc, List.append_assoc, List.singleton_append]
          obtain ⟨accepts, refuses⟩ := ready fun _ => room
          rw [wrote, ← stepped, List.foldl_cons]
          refine ⟨fun whole => accepts whole.2, fun other => refuses fun later => other ?_⟩
          exact ⟨fun _ => room, later⟩
        · refine ⟨fun whole => absurd (whole.1 plain) room, fun _ => ?_⟩
          rw [cdLoop, if_neg plain.1, if_neg plain.2, if_pos (Nat.not_lt.mp room)]
      · have free : Plain name → (rootText names).length + name.length + 1 < 256 :=
          fun other => absurd other plain
        obtain ⟨accepts, refuses⟩ := ready free
        have moved : cdLoop (name :: rest) (rootText names) =
            cdLoop rest (rootText (step names name)) := by
          rw [cdLoop, step]
          by_cases here : name = [dot]
          · rw [if_pos here, if_pos here]
          · have up : name = [dot, dot] := by
              by_contra other
              exact plain ⟨here, other⟩
            rw [if_neg here, if_neg here, if_pos up, if_pos up, textAbove_rootText before]
        rw [moved, List.foldl_cons]
        exact ⟨fun whole => accepts whole.2, fun other => refuses fun later => other ⟨free, later⟩⟩

/-! Where the path leads. -/

/-- A tree in which an entry for a directory stands in the directory above it. -/
structure Rooted (tree : Tree) (parent : BitVec 16 → BitVec 16) : Prop extends
    WellFormed tree parent where
  down : ∀ dir name next, tree.lookup dir name = some next → Plain name →
    (tree.records next).isSome → parent next = dir ∧ next ≠ tree.root

def cut (name : Name) : Name := name.take nameLen

/-- The names lead to the node and, cut as entries hold them, are its path where it is a
directory. -/
structure At (tree : Tree) (parent : BitVec 16 → BitVec 16) (names : List Name)
    (node : BitVec 16) : Prop where
  leads : tree.walk tree.root names = some node
  path : (tree.records node).isSome → PathOf tree parent node (names.map cut)

section

variable {tree : Tree} {parent : BitVec 16 → BitVec 16}

theorem lookup_inside {dir next : BitVec 16} {name : Name}
    (found : tree.lookup dir name = some next) :
    ∃ records r, tree.records dir = some records ∧ r ∈ records ∧ r.inode = next ∧
      r.name = cut name := by
  obtain ⟨records, inside, later⟩ := Option.bind_eq_some_iff.mp found
  obtain ⟨r, first, leads⟩ := Option.map_eq_some_iff.mp later
  have named := List.find?_some first
  simp only [decide_eq_true_eq] at named
  exact ⟨records, r, inside, List.mem_of_find?_eq_some first, leads, named.2⟩

theorem cut_short {name : Name} (short : name.length ≤ nameLen) : cut name = name :=
  List.take_of_length_le short

/-- The two names of every directory are not what is left of a longer one. -/
theorem cut_small {name small : Name} (less : small.length < nameLen) (left : cut name = small) :
    name = small := by
  have length := congrArg List.length left
  rw [cut, List.length_take] at length
  exact (cut_short (by omega)).symm.trans left

theorem cut_plain {name : Name} (plain : Plain name) : Plain (cut name) :=
  ⟨fun left => plain.1 (cut_small (by decide) left), fun left => plain.2 (cut_small (by decide) left)⟩

theorem PathOf.cut_names {dir : BitVec 16} {names : List Name}
    (path : PathOf tree parent dir names) : names.map cut = names := by
  induction path with
  | root => rfl
  | @entry dir names records r below inside above found member leads plain ih =>
      rw [List.map_append, ih, List.map_singleton, cut_short r.name_short]

theorem PathOf.above (good : WellFormed tree parent) {dir : BitVec 16} {names : List Name}
    (path : PathOf tree parent dir names) : PathOf tree parent (parent dir) names.dropLast := by
  cases path with
  | root =>
      rw [good.top]
      exact .root
  | entry below inside above found member leads plain =>
      rw [List.dropLast_concat]
      exact above

theorem walk_cut (start : BitVec 16) (names : List Name) :
    tree.walk start (names.map cut) = tree.walk start names := by
  induction names generalizing start with
  | nil => rfl
  | cons name names ih =>
      have same : tree.lookup start (cut name) = tree.lookup start name := by
        rw [Tree.lookup, Tree.lookup, cut, List.take_take, Nat.min_self]
      rw [List.map_cons, Tree.walk, Tree.walk, same]
      exact congrArg _ (funext ih)

theorem At.step (good : Rooted tree parent) {names : List Name} {node next : BitVec 16}
    {name : Name} (here : At tree parent names node) (found : tree.lookup node name = some next) :
    At tree parent (step names name) next := by
  obtain ⟨records, r, inside, member, leads, named⟩ := lookup_inside found
  have directory : (tree.records node).isSome := by
    rw [inside]
    rfl
  rw [WorkingDirectory.step]
  by_cases itself : name = [dot]
  · rw [itself, good.self node directory] at found
    cases found
    rw [if_pos itself]
    exact here
  · rw [if_neg itself]
    by_cases up : name = [dot, dot]
    · rw [up, good.up node directory] at found
      cases found
      rw [if_pos up]
      have path := (here.path directory).above good.toWellFormed
      rw [← List.map_dropLast] at path
      refine ⟨?_, fun _ => path⟩
      rw [← walk_cut]
      exact path.walk good.toWellFormed
    · rw [if_neg up]
      constructor
      · rw [walk_append, here.leads, Option.bind_some, Tree.walk, found]
        rfl
      · intro below
        obtain ⟨above, notRoot⟩ := good.down node name next found ⟨itself, up⟩ below
        have path := here.path directory
        rw [← above] at path inside
        rw [List.map_append, List.map_singleton, ← named]
        exact .entry notRoot below path inside member leads (named ▸ cut_plain ⟨itself, up⟩)

theorem At.walk (good : Rooted tree parent) {comps names : List Name} {node dest : BitVec 16}
    (here : At tree parent names node) (walked : tree.walk node comps = some dest) :
    At tree parent (comps.foldl WorkingDirectory.step names) dest := by
  induction comps generalizing names node with
  | nil =>
      cases walked
      exact here
  | cons name rest ih =>
      obtain ⟨next, found, later⟩ := Option.bind_eq_some_iff.mp walked
      exact ih (here.step good found) later

end

/-- The names that a path leads to from a directory with these names. -/
def goal (cwdNames : List Name) (path : Name) : List Name :=
  (components [] path).foldl step (if path.head? = some slash then [] else cwdNames)

theorem step_plain {names : List Name} {name : Name} (plain : ∀ other ∈ names, Plain other) :
    ∀ other ∈ step names name, Plain other := by
  rw [step]
  split
  · exact plain
  · rename_i here
    split
    · exact fun other inside => plain other (List.dropLast_subset names inside)
    · rename_i up
      intro other inside
      rcases List.mem_append.mp inside with before | last
      · exact plain other before
      · rw [List.mem_singleton.mp last]
        exact ⟨here, up⟩

theorem steps_kept {comps names : List Name} (parts : Parts comps) (before : Parts names)
    (plain : ∀ other ∈ names, Plain other) :
    Parts (comps.foldl step names) ∧ ∀ other ∈ comps.foldl step names, Plain other := by
  induction comps generalizing names with
  | nil => exact ⟨before, plain⟩
  | cons name rest ih =>
      exact ih (fun other inside => parts other (List.mem_cons_of_mem _ inside))
        (before.step (parts name List.mem_cons_self)) (step_plain plain)

theorem PathOf.plain {tree : Tree} {parent : BitVec 16 → BitVec 16} {dir : BitVec 16}
    {names : List Name} (path : PathOf tree parent dir names) : ∀ name ∈ names, Plain name := by
  induction path with
  | root => exact fun name none => absurd none List.not_mem_nil
  | entry below inside above found member leads plain ih =>
      intro name one
      rcases List.mem_append.mp one with before | last
      · exact ih name before
      · rw [List.mem_singleton.mp last]
        exact plain

/-- `cd_path` is -1 exactly for the empty path and where a name does not fit; its text has no `.`,
no `..` and no second slash in it, and leads where the path leads. -/
theorem cd_path_leads (tree : Tree) (parent : BitVec 16 → BitVec 16) (good : Rooted tree parent)
    (cwd : BitVec 16) (names : List Name) (path : PathOf tree parent cwd names)
    (short : (rootText names).length ≤ 255) (target : Name) :
    ∃ result, cdPath (rootText names) target = some result ∧
      (result = none ↔ target = [] ∨
        ¬Room (if target.head? = some slash then [] else names) (components [] target)) ∧
      ∀ text, result = some text →
        text = rootText (goal names target) ∧ Parts (goal names target) ∧
        (∀ name ∈ goal names target, Plain name) ∧
        ∀ dest, tree.resolve cwd target = some dest →
          ∀ place, tree.resolve place text = some dest := by
  have parts := components_parts target [] List.not_mem_nil
  generalize comps_eq : components [] target = comps at parts
  -- where the text and the walk begin
  obtain ⟨first, begins, started, partsFrom, plainFrom, shortFrom, stands⟩ :
      ∃ first : List Name, (if target.head? = some slash then [] else names) = first ∧
        cdStart (rootText names) target = some (rootText first) ∧ Parts first ∧ (∀ name ∈ first, Plain name) ∧
        (rootText first).length < 256 ∧
        At tree parent first (if target.head? = some slash then tree.root else cwd) := by
    by_cases absolute : target.head? = some slash
    · refine ⟨[], if_pos absolute, if_pos absolute, ?_, ?_, by decide, ?_⟩
      · exact fun name none => absurd none List.not_mem_nil
      · exact fun name none => absurd none List.not_mem_nil
      · rw [if_pos absolute]
        exact ⟨rfl, fun _ => .root⟩
    · refine ⟨names, if_neg absolute, ?_, path.names good.toWellFormed, path.plain,
        Nat.lt_succ_of_le short, ?_⟩
      · rw [cdStart, if_neg absolute, strcpy, if_pos (by rw [List.length_nil]; omega)]
        rfl
      · rw [if_neg absolute]
        exact ⟨path.walk good.toWellFormed, fun _ => path.cut_names.symm ▸ path⟩
  have kept := steps_kept parts partsFrom plainFrom
  obtain ⟨accepts, refuses⟩ := cdLoop_steps parts partsFrom shortFrom
  have reached : goal names target = comps.foldl step first := by
    rw [goal, comps_eq, begins]
  rw [begins, reached]
  by_cases nothing : target = []
  · refine ⟨none, if_pos nothing, iff_of_true rfl (Or.inl nothing), ?_⟩
    intro text made
    cases made
  · have loops : cdPath (rootText names) target = cdLoop comps (rootText first) := by
      rw [cdPath, if_neg nothing, started, comps_eq, Option.bind_some]
    rw [loops]
    by_cases room : Room first comps
    · refine ⟨_, accepts room, iff_of_false (Option.some_ne_none _) ?_, ?_⟩
      · rintro (none | full)
        · exact nothing none
        · exact full room
      · intro text made
        cases made
        refine ⟨rfl, kept.1, kept.2, fun dest resolved place => ?_⟩
        rw [Tree.resolve, comps_eq] at resolved
        rw [Tree.resolve, if_pos (rootText_head _), components_rootText kept.1]
        exact (stands.walk good resolved).leads
    · refine ⟨none, refuses room, iff_of_true rfl (Or.inr room), ?_⟩
      intro text made
      cases made

theorem smallTree_rooted : Rooted smallTree fun _ => 1 where
  toWellFormed := smallTree_wellFormed
  down := by
    intro dir name next found plain inside
    obtain ⟨records, r, above, member, leads, named⟩ := lookup_inside found
    have plain := named ▸ cut_plain plain
    rw [← leads]
    have directory : (smallTree.records dir).isSome := by
      rw [above]
      rfl
    rcases smallTree_directories directory with rfl | rfl
    · cases above
      rcases List.mem_cons.mp member with rfl | member
      · exact absurd plain (by decide)
      · rcases List.mem_cons.mp member with rfl | member
        · exact absurd plain (by decide)
        · rw [List.mem_singleton.mp member]
          decide
    · cases above
      rcases List.mem_cons.mp member with rfl | member
      · exact absurd plain (by decide)
      · rw [List.mem_singleton.mp member] at plain
        exact absurd plain (by decide)

/-- `cd ../a/.` in `a`. -/
theorem cd_path_leads_a :
    cdPath [slash, 97] [dot, dot, slash, 97, slash, dot] = some (some [slash, 97]) ∧
    ∀ place, smallTree.resolve place [slash, 97] = some 2 := by
  have path : PathOf smallTree (fun _ => 1) 2 [[97]] := by
    have below : (2 : BitVec 16) ≠ smallTree.root := by decide
    have above : PathOf smallTree (fun _ => 1) 1 [] := .root
    refine .entry (r := ⟨[0, 2, 97, 0, 0, 0, 0, 0, 0, 0, 0, 0, 0, 0, 0, 0], rfl⟩) below rfl above rfl
      ?_ rfl (by decide)
    exact List.mem_cons_of_mem _ (List.mem_cons_of_mem _ List.mem_cons_self)
  obtain ⟨result, made, -, leads⟩ := cd_path_leads smallTree _ smallTree_rooted 2 [[97]] path
    (by decide) [dot, dot, slash, 97, slash, dot]
  have text : cdPath (rootText [[97]]) [dot, dot, slash, 97, slash, dot] =
      some (some [slash, 97]) := by decide
  rw [text] at made
  cases made
  exact ⟨text, (leads _ rfl).2.2.2 2 (by decide)⟩

end SymphonyPlus.WorkingDirectory
