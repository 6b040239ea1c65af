import SymphonyPlus.LineExpansion

/-!
What the conditional groups of a text mean, and that the main loop of the preprocessor does it
where no line it selects is read past its end.
-/

namespace SymphonyPlus

open NestedGroups (Frame Mark Items wellNested runLines visits beside)

def directiveMark : DirectiveName → Mark
  | .cond _ => .opener
  | .elif => .arm
  | .else_ => .arm
  | .endif => .closer
  | _ => .plain

/-- A line is the chain from its first token on. -/
def lineMark (chain : List Token) : Mark :=
  match lineHead chain with
  | .dangling => .broken
  | .directive name _ => directiveMark (directiveName name)
  | _ => .plain

def directiveTest (build : Build) (macros : MacroTable) (directive : DirectiveName)
    (after : List Token) : Except Failure Bool :=
  match directive with
  | .cond kind => condValue build macros kind after
  | .elif => elifValue build macros after
  | _ => .ok true

def lineTest (build : Build) (macros : MacroTable) (chain : List Token) : Except Failure Bool :=
  match lineHead chain with
  | .directive name after => directiveTest build macros (directiveName name) after
  | _ => .ok true

def strayDirective : DirectiveName → Failure
  | .elif => .exit "#elif without #if\n".toList
  | .else_ => .exit "#else without #if\n".toList
  | _ => .exit "#endif without #if\n".toList

def strayLine (chain : List Token) : Failure :=
  match lineHead chain with
  | .directive name _ => strayDirective (directiveName name)
  | _ => .exit "unexpected end of file in directive\n".toList

/-- A line that is selected: a directive is executed, a text line is expanded by itself. -/
def selectedLine (env : PpEnv) (srcName : Option (List Char)) (nested : Option Nested)
    (macros : MacroTable) (chain : List Token) : Except Failure (List Token × MacroTable) :=
  match lineHead chain with
  | .directive name after =>
      (runDirective env srcName nested { macros, conds := [] } (directiveName name) name
        after).map fun read => (read.1, read.2.macros)
  | .text =>
      (expand env.build macros 1 (lineTokens chain ++ [endOfFile])).map fun out => (out, macros)
  | _ => .ok ([], macros)

@[reducible] def groupLanguage (env : PpEnv) (srcName : Option (List Char))
    (nested : Option Nested) : NestedGroups.Language (List Token) MacroTable Token Failure where
  mark := lineMark
  run := selectedLine env srcName nested
  test := lineTest env.build
  stray := strayLine
  deep := .exit "#if nesting too deep\n".toList
  limit := maxConds

def chainLines : Nat → List Token → List (List Token)
  | 0, _ => []
  | _ + 1, [] => []
  | fuel + 1, t :: rest =>
      if t.kind = .eof then [] else (t :: rest) :: chainLines fuel (lineRest (t :: rest))

def fileLines (tokens : List Token) : List (List Token) := chainLines (tokens.length + 1) tokens

def unterminated : Failure := .exit "unterminated #if (missing #endif)\n".toList

/-- The lines of a file that its groups select. -/
def selectFile (env : PpEnv) (srcName : Option (List Char)) (nested : Option Nested)
    (macros : MacroTable) (tokens : List Token) : Except Failure (List Token × MacroTable) :=
  match wellNested lineMark (fileLines tokens) with
  | some items => NestedGroups.select (groupLanguage env srcName nested) macros items
  | none => .error unterminated

def selectIncluded (env : PpEnv) : Nat → Nested
  | 0, path, tokens, state =>
      (selectFile env (some path) none state.macros tokens).map fun read =>
        (closeChain read.1, { state with macros := read.2 })
  | depth + 1, path, tokens, state =>
      (selectFile env (some path) (some (selectIncluded env depth)) state.macros tokens).map
        fun read => (closeChain read.1, { state with macros := read.2 })

/-- What the file given to the preprocessor means. -/
def selectText (env : PpEnv) (srcName : Option (List Char)) (macros : MacroTable)
    (tokens : List Token) : Except Failure (List Token) :=
  (selectFile env srcName (some (selectIncluded env (maxIncludes - 1))) macros tokens).map
    fun read => closeChain read.1

def includedFile (env : PpEnv) (srcName : Option (List Char)) (chain : List Token) :
    Option (List Char × List Token) := do
  let name ← (includeName chain).toOption
  let path ← resolveInclude env srcName name.1 name.2
  let text ← (phase12 ((env.sources path).getD [])).toOption
  let tokens ← (tokenize env.build text).toOption
  return (path, tokens)

/-- A selected line is not read past its end, and `cleanFile` holds of the file it includes. -/
def cleanLine (env : PpEnv) (srcName : Option (List Char))
    (cleanFile : List Char → List Token → MacroTable × List Frame → Bool)
    (machine : MacroTable × List Frame) (chain : List Token) : Bool :=
  match lineHead chain with
  | .text => !overruns machine.1 chain
  | .directive name after =>
      if directiveName name = .include then
        match includedFile env srcName after with
        | some file => cleanFile file.1 file.2 machine
        | none => true
      else true
  | _ => true

/-- The groups of an included file are closed in it and there is room for them, and its selected
lines are clean. -/
def cleanIncluded (env : PpEnv) :
    Nat → List Char → List Token → MacroTable × List Frame → Bool
  | 0, path, tokens, machine =>
      ((wellNested lineMark (fileLines tokens)).any fun items =>
        machine.2.length + items.depth ≤ maxConds) &&
      visits (groupLanguage env (some path) none)
        (cleanLine env (some path) fun _ _ _ => true) machine (fileLines tokens)
  | depth + 1, path, tokens, machine =>
      ((wellNested lineMark (fileLines tokens)).any fun items =>
        machine.2.length + items.depth ≤ maxConds) &&
      visits (groupLanguage env (some path) (some (selectIncluded env depth)))
        (cleanLine env (some path) (cleanIncluded env depth)) machine (fileLines tokens)

def cleanText (env : PpEnv) (srcName : Option (List Char)) (macros : MacroTable)
    (tokens : List Token) : Bool :=
  visits (groupLanguage env srcName (some (selectIncluded env (maxIncludes - 1))))
    (cleanLine env srcName (cleanIncluded env (maxIncludes - 1))) (macros, [])
    (fileLines tokens)

def onState (read : List Token × (MacroTable × List Frame)) : List Token × PpState :=
  (read.1, { macros := read.2.1, conds := read.2.2 })

def keeping (conds : List Frame) (read : List Token × PpState) : List Token × PpState :=
  (read.1, { read.2 with conds })

theorem skipping_eq (state : PpState) : skipping state = NestedGroups.skipping state.conds := rfl

section Reading

variable {env : PpEnv} {srcName : Option (List Char)} {macros : MacroTable} {conds : List Frame}

theorem doInclude_keeping {first second : Nested} {chain : List Token}
    (same : ∀ file, includedFile env srcName chain = some file →
      first file.1 file.2 { macros, conds } =
        (second file.1 file.2 { macros, conds := [] }).map (keeping conds)) :
    doInclude env srcName (some first) { macros, conds } chain =
      (doInclude env srcName (some second) { macros, conds := [] } chain).map
        (keeping conds) := by
  unfold doInclude
  simp only [includedFile] at same
  cases named : includeName chain with
  | error failure => rfl
  | ok name =>
      simp only [bind, Except.bind]
      cases found : resolveInclude env srcName name.1 name.2 with
      | none => rfl
      | some path =>
          simp only
          cases read : phase12 ((env.sources path).getD []) with
          | error failure => rfl
          | ok text =>
              simp only
              cases lexed : tokenize env.build text with
              | error failure => rfl
              | ok tokens =>
                  have equal := same (path, tokens) (by
                    simp [named, found, read, lexed, Except.toOption])
                  dsimp only at equal
                  simp only [equal]
                  cases second path tokens { macros, conds := [] } <;> rfl

theorem runDirective_keeping {nested spec : Option Nested} {directive : DirectiveName}
    {name : Token} {after : List Token}
    (same : directive = .include →
      doInclude env srcName nested { macros, conds } after =
        (doInclude env srcName spec { macros, conds := [] } after).map (keeping conds)) :
    runDirective env srcName nested { macros, conds } directive name after =
      (runDirective env srcName spec { macros, conds := [] } directive name after).map
        (keeping conds) := by
  cases directive with
  | «include» => exact same rfl
  | define =>
      simp only [runDirective]
      cases doDefine macros after <;> rfl
  | undef =>
      simp only [runDirective]
      cases doUndef macros after <;> rfl
  | _ => rfl

/-- Above a group that is skipped every group counts as taken, so that no other arm begins. -/
def Settled : List Frame → Prop
  | [] => True
  | top :: below => (NestedGroups.skipping below = true → top.taken = true) ∧ Settled below

variable {nested spec : Option Nested} {chain after : List Token} {name : Token}

theorem condPush_push (skip taken : Bool) :
    (condPush { macros, conds } skip taken).map (fun state => (([] : List Token), state)) =
      (NestedGroups.push (groupLanguage env srcName spec) macros conds skip taken).map
        onState := by
  unfold condPush NestedGroups.push
  split <;> rfl

theorem step_directive {directive : DirectiveName} (head : lineHead chain = .directive name after)
    (named : directiveName name = directive) (marked : directiveMark directive ≠ .plain)
    (settled : Settled conds) :
    ppLine env srcName nested { macros, conds } chain =
      (NestedGroups.step (groupLanguage env srcName spec) (macros, conds) chain).map onState := by
  simp only [ppLine, NestedGroups.step, lineMark, head, named, lineTest, strayLine]
  cases directive with
  | cond kind =>
      simp only [directiveMark, doCondIf, directiveTest]
      by_cases dead : skipping { macros, conds } = true
      · rw [if_pos dead, if_pos (show NestedGroups.skipping conds = true from dead)]
        exact condPush_push true true
      · rw [if_neg dead, if_neg (show ¬NestedGroups.skipping conds = true from dead)]
        cases condValue env.build macros kind after with
        | error failure => rfl
        | ok value => exact condPush_push (!value) value
  | elif =>
      simp only [directiveMark, doElif, directiveTest]
      cases conds with
      | nil => rfl
      | cons top below =>
          dsimp only
          split
          · rfl
          · rename_i open_
            have awake : (below.any fun c => c.skip) = false :=
              eq_false_of_ne_true fun dead => open_ (settled.1 dead)
            rw [awake]
            cases elifValue env.build macros after <;> rfl
  | else_ =>
      simp only [directiveMark, doElse, directiveTest]
      cases conds with
      | nil => rfl
      | cons top below =>
          dsimp only
          split <;> rfl
  | endif =>
      simp only [directiveMark, doEndif]
      cases conds <;> rfl
  | _ => exact absurd rfl marked

theorem ppLine_step (settled : Settled conds)
    (agrees : lineMark chain = .plain → NestedGroups.skipping conds = false →
      runLine env srcName nested { macros, conds } chain =
        (selectedLine env srcName spec macros chain).map fun read =>
          (read.1, { macros := read.2, conds })) :
    ppLine env srcName nested { macros, conds } chain =
      (NestedGroups.step (groupLanguage env srcName spec) (macros, conds) chain).map onState := by
  have plain (marked : lineMark chain = .plain)
      (other : ppLine env srcName nested { macros, conds } chain =
        if skipping { macros, conds } then .ok ([], { macros, conds })
        else runLine env srcName nested { macros, conds } chain) :
      ppLine env srcName nested { macros, conds } chain =
        (NestedGroups.step (groupLanguage env srcName spec) (macros, conds) chain).map onState := by
    rw [other, skipping_eq]
    cases dead : NestedGroups.skipping conds with
    | true =>
        rw [NestedGroups.step_skipped marked dead]
        rfl
    | false =>
        rw [NestedGroups.step_live marked dead, agrees marked dead]
        dsimp only [groupLanguage]
        cases selectedLine env srcName spec macros chain <;> rfl
  cases head : lineHead chain with
  | text => exact plain (by rw [lineMark, head]) (by rw [ppLine, head])
  | dangling => simp only [ppLine, NestedGroups.step, lineMark, head, strayLine]; rfl
  | empty => exact plain (by rw [lineMark, head]) (by rw [ppLine, head])
  | directive name after =>
      by_cases marked : directiveMark (directiveName name) = .plain
      · refine plain (by simp only [lineMark, head, marked]) ?_
        simp only [ppLine, head]
        cases named : directiveName name <;> first | rfl | (rw [named] at marked; cases marked)
      · exact step_directive head rfl marked settled

theorem step_settled {next : MacroTable × List Frame} {out : List Token}
    (settled : Settled conds)
    (read : NestedGroups.step (groupLanguage env srcName spec) (macros, conds) chain =
      .ok (out, next)) :
    Settled next.2 := by
  have pushed {skip taken : Bool} {result : List Token × (MacroTable × List Frame)}
      (room : NestedGroups.push (groupLanguage env srcName spec) macros conds skip taken =
        .ok result) (dead : NestedGroups.skipping conds = true → taken = true) :
      Settled result.2.2 := by
    unfold NestedGroups.push at room
    split at room
    · cases room
    · cases room
      exact ⟨dead, settled⟩
  unfold NestedGroups.step at read
  split at read
  · split at read
    · cases read
      exact settled
    · obtain ⟨r, _, same⟩ := Except.of_map_ok read
      cases same
      exact settled
  · split at read
    · exact pushed read fun _ => rfl
    · rename_i live
      obtain ⟨value, _, room⟩ := Except.of_bind_ok read
      exact pushed room fun dead => absurd dead live
  · dsimp only at read
    split at read
    · cases read
    · split at read
      · cases read
        exact settled
      · rename_i open_
        obtain ⟨value, _, same⟩ := Except.of_map_ok read
        cases same
        exact ⟨fun dead => absurd (settled.1 dead) open_, settled.2⟩
  · dsimp only at read
    split at read
    · cases read
    · cases read
      exact settled.2
  · cases read

/-- A file that is clean can be included by the code as by what it means. -/
def Calls (env : PpEnv) (srcName : Option (List Char)) (nested spec : Option Nested)
    (cleanFile : List Char → List Token → MacroTable × List Frame → Bool) : Prop :=
  ∀ macros conds after, Settled conds → NestedGroups.skipping conds = false →
    (∀ file, includedFile env srcName after = some file →
      cleanFile file.1 file.2 (macros, conds) = true) →
    doInclude env srcName nested { macros, conds } after =
      (doInclude env srcName spec { macros, conds := [] } after).map (keeping conds)

variable {cleanFile : List Char → List Token → MacroTable × List Frame → Bool}

theorem runLine_selected (calls : Calls env srcName nested spec cleanFile)
    (settled : Settled conds) (live : NestedGroups.skipping conds = false)
    (stops : Stops (lineRest chain))
    (clean : cleanLine env srcName cleanFile (macros, conds) chain = true) :
    runLine env srcName nested { macros, conds } chain =
      (selectedLine env srcName spec macros chain).map fun read =>
        (read.1, { macros := read.2, conds }) := by
  unfold runLine selectedLine
  unfold cleanLine at clean
  cases head : lineHead chain with
  | text =>
      simp only [head, Bool.not_eq_true'] at clean
      simp only [expand_line env.build stops clean]
      cases expand env.build macros 1 (lineTokens chain ++ [endOfFile]) <;> rfl
  | dangling => rfl
  | empty => rfl
  | directive name after =>
      simp only [head] at clean
      have kept : runDirective env srcName nested { macros, conds } (directiveName name) name
          after = (runDirective env srcName spec { macros, conds := [] } (directiveName name) name
            after).map (keeping conds) := by
        refine runDirective_keeping fun named => calls macros conds after settled live ?_
        intro file found
        rw [if_pos named, found] at clean
        exact clean
      dsimp only
      rw [kept]
      cases runDirective env srcName spec { macros, conds := [] } (directiveName name) name
        after <;> rfl

def EndsFile (chain : List Token) : Prop := ∃ before, chain = before ++ [endOfFile]

theorem EndsFile.rest {t : Token} {rest : List Token} (ends : EndsFile (t :: rest))
    (kind : t.kind ≠ .eof) : Stops (lineRest (t :: rest)) ∧ EndsFile (lineRest (t :: rest)) := by
  obtain ⟨before, same⟩ := ends
  cases before with
  | nil =>
      cases same
      exact absurd rfl kind
  | cons u before =>
      cases same
      have found : ∀ before : List Token, Stops ((before ++ [endOfFile]).dropWhile insideLine) ∧
          EndsFile ((before ++ [endOfFile]).dropWhile insideLine) := by
        intro before
        induction before with
        | nil => exact ⟨⟨endOfFile, [], rfl, rfl⟩, [], rfl⟩
        | cons v before ih =>
            cases inside : insideLine v with
            | true => simpa [inside] using ih
            | false =>
                simp only [List.cons_append, List.dropWhile_cons, inside, Bool.false_eq_true,
                  if_false]
                exact ⟨⟨v, before ++ [endOfFile], rfl, inside⟩, v :: before, rfl⟩
      exact found before

/-- The main loop reads the lines of a chain as the machine does. -/
theorem ppLoop_runLines (calls : Calls env srcName nested spec cleanFile) {fuel : Nat}
    (settled : Settled conds) (ends : EndsFile chain)
    (clean : visits (groupLanguage env srcName spec) (cleanLine env srcName cleanFile)
      (macros, conds) (chainLines fuel chain) = true) :
    ppLoop env srcName nested fuel { macros, conds } chain =
      (runLines (groupLanguage env srcName spec) (macros, conds) (chainLines fuel chain)).map
        onState := by
  induction fuel generalizing macros conds chain with
  | zero => rfl
  | succ fuel ih =>
      cases chain with
      | nil => exact absurd ends (by simp [EndsFile])
      | cons t rest =>
          rw [ppLoop, chainLines]
          split
          · rfl
          · rename_i kind
            rw [chainLines, if_neg kind, visits, Bool.and_eq_true] at clean
            obtain ⟨stops, ending⟩ := ends.rest kind
            have line : ppLine env srcName nested { macros, conds } (t :: rest) =
                (NestedGroups.step (groupLanguage env srcName spec) (macros, conds) (t :: rest)).map
                  onState := by
              refine ppLine_step settled fun marked live => ?_
              refine runLine_selected calls settled live stops ?_
              simpa [marked, live] using clean.1
            rw [line, runLines]
            have later := clean.2
            cases read : NestedGroups.step (groupLanguage env srcName spec) (macros, conds)
                (t :: rest) with
            | error failure => rfl
            | ok r =>
                rw [read] at later
                have after := ih (step_settled settled read) ending later
                simp only [Except.map, onState, bind, Except.bind, NestedGroups.andThen] at after ⊢
                rw [after]
                cases runLines (groupLanguage env srcName spec) r.2
                  (chainLines fuel (lineRest (t :: rest))) <;> rfl

theorem doInclude_deepest (after : List Token) :
    doInclude env srcName none { macros, conds } after =
      (doInclude env srcName none { macros, conds := [] } after).map (keeping conds) := by
  unfold doInclude
  cases includeName after with
  | error failure => rfl
  | ok name =>
      simp only [bind, Except.bind]
      cases resolveInclude env srcName name.1 name.2 <;> rfl

/-- A file whose groups are closed in it, with room for them, is read as what it means. -/
theorem ppLoop_selectFile (calls : Calls env srcName nested spec cleanFile)
    {tokens : List Token} {items : Items lineMark} (settled : Settled conds)
    (live : NestedGroups.skipping conds = false) (ends : EndsFile tokens)
    (groups : wellNested lineMark (fileLines tokens) = some items)
    (room : conds.length + items.depth ≤ maxConds)
    (clean : visits (groupLanguage env srcName spec) (cleanLine env srcName cleanFile)
      (macros, conds) (fileLines tokens) = true) :
    ppLoop env srcName nested (tokens.length + 1) { macros, conds } tokens =
      (selectFile env srcName spec macros tokens).map fun read =>
        (read.1, { macros := read.2, conds }) := by
  have lines := NestedGroups.wellNested_lines groups
  have meaning := @NestedGroups.runLines_select _ _ _ _ (groupLanguage env srcName spec) items
    macros conds live room
  rw [ppLoop_runLines calls settled ends clean, selectFile, groups]
  rw [← fileLines, ← lines, meaning]
  dsimp only
  cases NestedGroups.select (groupLanguage env srcName spec) macros items <;> rfl

theorem ppLoop_included (calls : Calls env srcName nested spec cleanFile)
    {tokens : List Token} (settled : Settled conds)
    (live : NestedGroups.skipping conds = false) (ends : EndsFile tokens)
    (clean : (((wellNested lineMark (fileLines tokens)).any fun items =>
        conds.length + items.depth ≤ maxConds) &&
      visits (groupLanguage env srcName spec) (cleanLine env srcName cleanFile) (macros, conds)
        (fileLines tokens)) = true) :
    ((ppLoop env srcName nested (tokens.length + 1) { macros, conds } tokens).map fun read =>
        (closeChain read.1, read.2)) =
      ((selectFile env srcName spec macros tokens).map fun read =>
        (closeChain read.1,
          ({ macros := read.2, conds := [] } : PpState))).map (keeping conds) := by
  rw [Bool.and_eq_true, Option.any_eq_true] at clean
  obtain ⟨⟨items, groups, room⟩, visited⟩ := clean
  rw [ppLoop_selectFile calls settled live ends groups (of_decide_eq_true room) visited]
  cases selectFile env srcName spec macros tokens <;> rfl

theorem includedFile_ends {file : List Char × List Token}
    (found : includedFile env srcName after = some file) : EndsFile file.2 := by
  unfold includedFile at found
  obtain ⟨name, _, found⟩ := Option.bind_eq_some_iff.mp found
  obtain ⟨path, _, found⟩ := Option.bind_eq_some_iff.mp found
  obtain ⟨text, _, found⟩ := Option.bind_eq_some_iff.mp found
  obtain ⟨tokens, lexed, same⟩ := Option.bind_eq_some_iff.mp found
  cases same
  cases result : tokenize env.build text with
  | error failure =>
      rw [result] at lexed
      cases lexed
  | ok tokens =>
      rw [result] at lexed
      cases lexed
      obtain ⟨before, same, _⟩ := tokenize_end result
      exact ⟨before, same⟩

end Reading

theorem calls_included (env : PpEnv) (depth : Nat) (srcName : Option (List Char)) :
    Calls env srcName (some (ppIncluded env depth)) (some (selectIncluded env depth))
      (cleanIncluded env depth) := by
  induction depth generalizing srcName with
  | zero =>
      intro macros conds after settled live clean
      refine doInclude_keeping fun file found => ?_
      have deepest : Calls env (some file.1) none none fun _ _ _ => true :=
        fun macros conds after _ _ _ => doInclude_deepest after
      exact ppLoop_included deepest settled live (includedFile_ends found) (clean file found)
  | succ depth ih =>
      intro macros conds after settled live clean
      refine doInclude_keeping fun file found => ?_
      exact ppLoop_included (ih (some file.1)) settled live (includedFile_ends found)
        (clean file found)

section Texts

variable {env : PpEnv} {srcName : Option (List Char)} {defines : List (List Char)}
  {macros : MacroTable} {tokens : List Token}

/-- The selected lines are output, and their directives executed, in the order of the text. -/
theorem preprocessTokens_select (ends : EndsFile tokens)
    (defined : applyDefines env.build defines = .ok macros)
    (clean : cleanText env srcName macros tokens = true) {items : Items lineMark}
    (groups : wellNested lineMark (fileLines tokens) = some items)
    (room : items.depth ≤ maxConds) :
    preprocessTokens env srcName defines tokens = selectText env srcName macros tokens := by
  have read := ppLoop_selectFile (calls_included env (maxIncludes - 1) srcName)
    (show Settled [] from trivial) rfl ends groups (by simpa using room) clean
  simp only [preprocessTokens, defined, bind, Except.bind, read, selectText]
  cases selectFile env srcName (some (selectIncluded env (maxIncludes - 1))) macros tokens <;> rfl

/-- Where groups do not nest, a group is left open at the end, or a line fails: one that stands
where it cannot, or one that is selected. -/
def Diagnoses (env : PpEnv) (srcName : Option (List Char)) (tokens : List Token)
    (failure : Failure) : Prop :=
  failure = unterminated ∨ NestedGroups.Fails
    (groupLanguage env srcName (some (selectIncluded env (maxIncludes - 1)))) (fileLines tokens) failure

theorem preprocessTokens_stray (ends : EndsFile tokens)
    (defined : applyDefines env.build defines = .ok macros)
    (clean : cleanText env srcName macros tokens = true)
    (groups : wellNested lineMark (fileLines tokens) = none) :
    ∃ failure, preprocessTokens env srcName defines tokens = .error failure ∧
      Diagnoses env srcName tokens failure := by
  have read := ppLoop_runLines (calls_included env (maxIncludes - 1) srcName)
    (show Settled [] from trivial) ends clean
  simp only [preprocessTokens, defined, bind, Except.bind, read]
  rw [← fileLines]
  cases done : runLines (groupLanguage env srcName (some (selectIncluded env (maxIncludes - 1))))
      (macros, []) (fileLines tokens) with
  | error failure => exact ⟨failure, rfl, .inr (NestedGroups.runLines_fails done)⟩
  | ok r =>
      by_cases closed : r.2.2 = []
      · obtain ⟨items, some⟩ := NestedGroups.runLines_wellNested done closed
        exact absurd (groups.symm.trans some) (by simp)
      · refine ⟨unterminated, ?_, .inl rfl⟩
        simp only [Except.map, onState, ne_eq, closed, not_false_eq_true, if_true]
        rfl

def selectedText (env : PpEnv) (srcName : Option (List Char)) (defines : List (List Char))
    (src : List Char) : Except Failure (List Token) :=
  ((phase12 src).bind (tokenize env.build)).bind fun tokens =>
    (applyDefines env.build defines).bind fun macros => selectText env srcName macros tokens

/-- A text whose lines are nested groups has the result of its selected lines. Other texts are not
accepted. -/
structure SelectsLines (env : PpEnv) (srcName : Option (List Char))
    (defines : List (List Char)) (src : List Char) : Prop where
  selected : ∀ tokens items, (phase12 src).bind (tokenize env.build) = .ok tokens →
    wellNested lineMark (fileLines tokens) = some items → items.depth ≤ maxConds →
    preprocessSourceText env srcName defines src = selectedText env srcName defines src
  diagnosed : ∀ tokens, (phase12 src).bind (tokenize env.build) = .ok tokens →
    wellNested lineMark (fileLines tokens) = none →
    ∃ failure, preprocessSourceText env srcName defines src = .error failure ∧
      (applyDefines env.build defines = .error failure ∨ Diagnoses env srcName tokens failure)

/-- No selected line ends in the name of a function macro with a parenthesis at the start of the
next line, and every file that is included closes its own groups. -/
def cleanSource (env : PpEnv) (srcName : Option (List Char)) (defines : List (List Char))
    (src : List Char) : Bool :=
  match (phase12 src).bind (tokenize env.build), applyDefines env.build defines with
  | .ok tokens, .ok macros => cleanText env srcName macros tokens
  | _, _ => true

theorem preprocessSourceText_tokens {src : List Char}
    (lexed : (phase12 src).bind (tokenize env.build) = .ok tokens) :
    preprocessSourceText env srcName defines src = preprocessTokens env srcName defines tokens ∧
      EndsFile tokens := by
  obtain ⟨text, spliced, read⟩ := Except.of_bind_ok lexed
  obtain ⟨before, same, _⟩ := tokenize_end read
  refine ⟨?_, before, same⟩
  simp only [preprocessSourceText, spliced, read, bind, Except.bind]

end Texts

def hostEnv : PpEnv := { build := .host, sources := fun _ => none, incDirs := [] }

def nestedText : List Char :=
  ("#if 0\n#if (\na\n#else\nb\n#endif\n#elif X\n#define X 0\nc\n#if X\nd\n#else\ne\n#endif\n" ++
    "#elif (\n#endif\nX f\n").toList

def overrunText : List Char := "#define f(x) x\nf\n(1)\n#if 0\nbad\n#endif\n".toList

end SymphonyPlus
