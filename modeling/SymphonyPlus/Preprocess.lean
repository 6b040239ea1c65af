import SymphonyPlus.Conditions
import SymphonyPlus.NestedGroups

/-!
The preprocessor of `symcc/src/preprocess.c`: splices and comments, directives, conditional
groups, included files and the main loop. The files of the host are a parameter.
-/

namespace SymphonyPlus

/-! Splices and comments. -/

inductive Phase
  | normal | string | character | lineComment | blockComment
  deriving DecidableEq, Repr

def consOk {α : Type} (a : α) (result : Except Failure (List α)) : Except Failure (List α) :=
  result.map (a :: ·)

def phase12From : Phase → List Char → Except Failure (List Char)
  | .blockComment, [] => exitWith "unterminated block comment\n"
  | _, [] => .ok []
  | .lineComment, c :: rest =>
      if c = '\n' then consOk '\n' (phase12From .normal rest) else phase12From .lineComment rest
  | .blockComment, [c] =>
      consOk (if c = '\n' then '\n' else ' ') (phase12From .blockComment [])
  | .blockComment, c :: d :: rest =>
      if c = '*' ∧ d = '/' then phase12From .normal rest
      else consOk (if c = '\n' then '\n' else ' ') (phase12From .blockComment (d :: rest))
  | _, [c] => .ok [c]
  | phase, c :: d :: rest =>
      if c = '\\' ∧ d = '\n' then phase12From phase rest
      else if c = '\\' ∧ d = '\r' ∧ rest.head? = some '\n' then
        match rest with
        | [] => .ok []
        | _ :: more => phase12From phase more
      else if phase = .normal then
        if c = '/' ∧ d = '/' then phase12From .lineComment rest
        else if c = '/' ∧ d = '*' then phase12From .blockComment rest
        else consOk c (phase12From
          (if c = '"' then .string else if c = '\'' then .character else .normal) (d :: rest))
      else if c = '\\' then consOk c (consOk d (phase12From phase rest))
      else consOk c (phase12From
        (if (phase = .string ∧ c = '"') ∨ (phase = .character ∧ c = '\'') then .normal
          else phase) (d :: rest))

def phase12 (src : List Char) : Except Failure (List Char) := phase12From .normal src

/-! State. -/

/-- One level of `cond_skip` and `cond_taken`. -/
abbrev Cond := NestedGroups.Frame

structure PpState where
  macros : MacroTable
  conds : List Cond
  deriving DecidableEq, Repr

def maxConds : Nat := 64
def maxIncludes : Nat := 64

def skipping (state : PpState) : Bool := state.conds.any fun c => c.skip

/-! Macro definitions. -/

def macroParams : List Token → Except Failure (List (List Char) × List Token)
  | [] => .error .fault
  | t :: rest =>
      if !tokIdent t then exitWith "macro parameter expected\n"
      else
        match rest with
        | [] => .error .fault
        | u :: more =>
            if tokIs u "," then (macroParams more).map fun found => (t.text :: found.1, found.2)
            else if tokIs u ")" then .ok ([t.text], more)
            else exitWith "expected ',' or ')' in macro parameter list\n"

def macroHead (name : Token) (after : List Token) :
    Except Failure (Option (List (List Char)) × List Token) :=
  match after with
  | [] => .ok (none, [])
  | p :: inside =>
      if tokIs p "(" && p.loc = name.loc.drop name.len then
        match inside with
        | [] => .error .fault
        | t :: rest =>
            if tokIs t ")" then .ok (some [], rest)
            else (macroParams inside).map fun found => (some found.1, found.2)
      else .ok (none, after)

/-- `do_define`, on the chain after the directive's name. -/
def doDefine (macros : MacroTable) : List Token → Except Failure MacroTable
  | [] => .error .fault
  | name :: after => do
      if !tokIdent name then exitWith "macro name expected after #define\n"
      else
        let head ← macroHead name after
        let body := if head.2.head?.any (fun t => t.kind = .eof || tokAtBol t) then []
          else lineTokens head.2
        return addMacro macros { name := name.text, params := head.1, body, expanding := false }

def doUndef (macros : MacroTable) : List Token → Except Failure MacroTable
  | [] => .error .fault
  | name :: _ =>
      if !tokIdent name then exitWith "macro name expected after #undef\n"
      else .ok (delMacro macros name.text)

/-! Included files. -/

abbrev Sources := List Char → Option (List Char)

structure PpEnv where
  build : Build
  sources : Sources
  incDirs : List (List Char)

def tryPath (env : PpEnv) (dir fname : List Char) : Option (List Char) :=
  let path := if dir = [] then fname else dir ++ '/' :: fname
  if (env.sources path).isSome then some path else none

def isSlash (c : Char) : Bool := c = '/' || c = '\\'

def sourceDir (srcName : List Char) : Option (List Char) :=
  if srcName.any isSlash then some ((srcName.rdropWhile fun c => !isSlash c).dropLast) else none

def resolveInclude (env : PpEnv) (srcName : Option (List Char)) (angle : Bool)
    (fname : List Char) : Option (List Char) :=
  let near := if angle then none
    else (srcName.bind sourceDir).bind fun dir => tryPath env dir fname
  let listed := env.incDirs.findSome? fun dir => tryPath env dir fname
  let here := if angle then none else tryPath env [] fname
  near.or (listed.or here)

def includeName : List Token → Except Failure (Bool × List Char)
  | [] => .error .fault
  | t :: rest =>
      if t.kind = .str then
        .ok (false, if 2 ≤ t.len then (t.loc.drop 1).take (t.len - 2) else bytesText t.str)
      else if tokIs t "<" then
        match rest.head?, rest.find? fun u => u.kind = .eof || tokAtBol u || tokIs u ">" with
        | some first, some last =>
            if tokIs last ">" then
              .ok (true, first.loc.take (first.loc.length - last.loc.length))
            else exitWith "#include expects '>'\n"
        | _, _ => exitWith "#include expects '>'\n"
      else exitWith "#include expects \"file\" or <file>\n"

/-- A call of `pp_tokens` for an included file: its name, its tokens and the state. -/
abbrev Nested := List Char → List Token → PpState → Except Failure (List Token × PpState)

/-- `do_include`; there is no nested call left at the deepest level. -/
def doInclude (env : PpEnv) (srcName : Option (List Char)) (nested : Option Nested)
    (state : PpState) (chain : List Token) : Except Failure (List Token × PpState) := do
  let name ← includeName chain
  match resolveInclude env srcName name.1 name.2 with
  | none => exitAt "cannot open include " name.2
  | some path =>
      match nested with
      | none => exitWith "#include nested too deeply\n"
      | some call => do
          let text ← phase12 ((env.sources path).getD [])
          let tokens ← tokenize env.build text
          let included ← call path tokens state
          return (included.1.takeWhile fun t => t.kind ≠ .eof, included.2)

/-! Conditional groups. -/

def condPush (state : PpState) (skip taken : Bool) : Except Failure PpState :=
  if maxConds ≤ state.conds.length then exitWith "#if nesting too deep\n"
  else .ok { state with conds := { skip, taken } :: state.conds }

/-- The value of an expression up to the end of the line; it is an `int`. -/
def evalCondition (build : Build) (macros : MacroTable) (chain : List Token) :
    Except Failure Bool := do
  let defs ← preDefs macros (lineRest chain).length chain.length chain
  let expanded ← expand build macros 0 defs
  let value ← evalChain build expanded
  return value.bmod (2 ^ 32) ≠ 0

def atLineEnd (chain : List Token) : Bool := chain.head?.any fun t => t.kind = .eof || tokAtBol t

inductive CondKind
  | ifExpr | ifdef | ifndef
  deriving DecidableEq, Repr

def condValue (build : Build) (macros : MacroTable) (kind : CondKind) (chain : List Token) :
    Except Failure Bool :=
  match kind with
  | .ifExpr =>
      if atLineEnd chain then exitWith "#if with no expression\n"
      else evalCondition build macros chain
  | .ifdef =>
      match chain with
      | [] => .error .fault
      | t :: _ =>
          if !tokIdent t then exitWith "#ifdef expects a macro name\n"
          else .ok (findMacro macros t.text).isSome
  | .ifndef =>
      match chain with
      | [] => .error .fault
      | t :: _ =>
          if !tokIdent t then exitWith "#ifndef expects a macro name\n"
          else .ok !(findMacro macros t.text).isSome

def doCondIf (build : Build) (state : PpState) (kind : CondKind) (chain : List Token) :
    Except Failure PpState :=
  if skipping state then condPush state true true
  else (condValue build state.macros kind chain).bind fun value => condPush state (!value) value

/-- The condition of `#elif`; without an expression it is true. -/
def elifValue (build : Build) (macros : MacroTable) (chain : List Token) : Except Failure Bool :=
  if atLineEnd chain then .ok true else evalCondition build macros chain

def doElif (build : Build) (state : PpState) (chain : List Token) : Except Failure PpState :=
  match state.conds with
  | [] => exitWith "#elif without #if\n"
  | top :: below =>
      if top.taken then .ok { state with conds := { top with skip := true } :: below }
      else if below.any fun c => c.skip then
        .ok { state with conds := { skip := true, taken := true } :: below }
      else (elifValue build state.macros chain).map fun value =>
        { state with conds := { skip := !value, taken := value } :: below }

def doElse (state : PpState) : Except Failure PpState :=
  match state.conds with
  | [] => exitWith "#else without #if\n"
  | top :: below =>
      if top.taken then .ok { state with conds := { top with skip := true } :: below }
      else .ok { state with conds := { skip := false, taken := true } :: below }

def doEndif (state : PpState) : Except Failure PpState :=
  match state.conds with
  | [] => exitWith "#endif without #if\n"
  | _ :: below => .ok { state with conds := below }

/-! The main loop. -/

inductive DirectiveName
  | define | undef | include | cond (kind : CondKind) | elif | else_ | endif | pragma | error
  | unknown
  deriving DecidableEq, Repr

def directiveNames : List (String × DirectiveName) :=
  [("define", .define), ("undef", .undef), ("include", .include), ("if", .cond .ifExpr),
   ("ifdef", .cond .ifdef), ("ifndef", .cond .ifndef), ("elif", .elif), ("else", .else_),
   ("endif", .endif), ("pragma", .pragma), ("error", .error)]

def directiveName (t : Token) : DirectiveName :=
  match directiveNames.find? fun entry => t.kind ≠ .eof && t.text = entry.1.toList with
  | some entry => entry.2
  | none => .unknown

def errorText (name : Token) (after : List Token) : List Char :=
  match after with
  | [] => "#error\n".toList
  | p :: _ =>
      if p.kind = .eof || tokAtBol p then "#error\n".toList
      else
        let last := (lineTokens (name :: after)).getLast?.getD p
        quoted "#error " (p.loc.take (p.loc.length - (last.loc.length - last.len))) "\n"

/-- A directive other than one of a conditional group, where nothing is skipped. -/
def runDirective (env : PpEnv) (srcName : Option (List Char)) (nested : Option Nested)
    (state : PpState) (directive : DirectiveName) (name : Token) (after : List Token) :
    Except Failure (List Token × PpState) :=
  match directive with
  | .define => (doDefine state.macros after).map fun macros => ([], { state with macros })
  | .undef => (doUndef state.macros after).map fun macros => ([], { state with macros })
  | .include => doInclude env srcName nested state after
  | .error => .error (.exit (errorText name after))
  | .unknown => .error (.exit (quoted "unknown preprocessor directive: #" name.text "\n"))
  | _ => .ok ([], state)

inductive LineHead
  | text
  | dangling
  | empty
  | directive (name : Token) (after : List Token)

def lineHead : List Token → LineHead
  | [] => .text
  | t :: rest =>
      if tokAtBol t && tokIs t "#" then
        match rest with
        | [] => .dangling
        | name :: after =>
            if name.kind = .eof then .dangling
            else if tokAtBol name then .empty
            else .directive name after
      else .text

def runLine (env : PpEnv) (srcName : Option (List Char)) (nested : Option Nested)
    (state : PpState) (chain : List Token) : Except Failure (List Token × PpState) :=
  match lineHead chain with
  | .directive name after =>
      runDirective env srcName nested state (directiveName name) name after
  | .text =>
      (expand env.build state.macros (lineRest chain).length chain).map fun out => (out, state)
  | _ => .ok ([], state)

def ppLine (env : PpEnv) (srcName : Option (List Char)) (nested : Option Nested)
    (state : PpState) (chain : List Token) : Except Failure (List Token × PpState) :=
  let done (result : Except Failure PpState) : Except Failure (List Token × PpState) :=
    result.map fun state => ([], state)
  let other := if skipping state then .ok ([], state) else runLine env srcName nested state chain
  match lineHead chain with
  | .dangling => exitWith "unexpected end of file in directive\n"
  | .directive name after =>
      match directiveName name with
      | .cond kind => done (doCondIf env.build state kind after)
      | .elif => done (doElif env.build state after)
      | .else_ => done (doElse state)
      | .endif => done (doEndif state)
      | _ => other
  | _ => other

/-- The loop of `pp_tokens` up to the end of the file. Every round consumes a token. -/
def ppLoop (env : PpEnv) (srcName : Option (List Char)) (nested : Option Nested) :
    Nat → PpState → List Token → Except Failure (List Token × PpState)
  | 0, state, _ => .ok ([], state)
  | _ + 1, _, [] => .error .fault
  | fuel + 1, state, t :: rest => do
      if t.kind = .eof then return ([], state)
      else
        let line ← ppLine env srcName nested state (t :: rest)
        let later ← ppLoop env srcName nested fuel line.2 (lineRest (t :: rest))
        return (line.1 ++ later.1, later.2)

def endOfFile : Token := newToken .eof [] 0

def endsInStrings (chain : List Token) : Bool :=
  match chain.reverse with
  | t :: s :: _ => t.kind = .str && s.kind = .str
  | _ => false

/-- The end of `pp_tokens`: `out` still points to the last token that was appended. -/
def closeChain (chain : List Token) : List Token :=
  -- `merge_adjacent_strings` has taken that token out of the chain, and with it what is hung on it
  if endsInStrings chain then mergeAdjacentStrings chain
  else mergeAdjacentStrings chain ++ [endOfFile]

/-- `pp_tokens` for an included file, with `depth` levels of inclusion left. -/
def ppIncluded (env : PpEnv) : Nat → Nested
  | 0, path, tokens, state =>
      (ppLoop env (some path) none (tokens.length + 1) state tokens).map fun read =>
        (closeChain read.1, read.2)
  | depth + 1, path, tokens, state =>
      (ppLoop env (some path) (some (ppIncluded env depth)) (tokens.length + 1) state tokens).map
        fun read => (closeChain read.1, read.2)

/-- `-D`: the text after the equals sign is the body. -/
def defineArgument (build : Build) (argument : List Char) : Except Failure Macro := do
  let name := argument.takeWhile (· ≠ '=')
  if name = [] then exitWith "empty -D macro name\n"
  else
    let value := argument.dropWhile (· ≠ '=')
    let body ← if value = [] then .ok [] else tokenize build (value.drop 1)
    return { name, params := none, body := body.takeWhile fun t => t.kind ≠ .eof
             expanding := false }

def applyDefines (build : Build) (defines : List (List Char)) : Except Failure MacroTable :=
  defines.foldlM (fun macros argument =>
    (defineArgument build argument).map (addMacro macros)) []

def preprocessTokens (env : PpEnv) (srcName : Option (List Char)) (defines : List (List Char))
    (tokens : List Token) : Except Failure (List Token) := do
  let macros ← applyDefines env.build defines
  let read ← ppLoop env srcName (some (ppIncluded env (maxIncludes - 1))) (tokens.length + 1)
    { macros, conds := [] } tokens
  if read.2.conds ≠ [] then exitWith "unterminated #if (missing #endif)\n"
  return closeChain read.1

def preprocessSourceText (env : PpEnv) (srcName : Option (List Char))
    (defines : List (List Char)) (src : List Char) : Except Failure (List Token) := do
  preprocessTokens env srcName defines (← tokenize env.build (← phase12 src))

end SymphonyPlus
