import SymphonyPlus.ConstInt

/-!
The macro table and the macro expansion of `symcc/src/preprocess.c`. A token chain is the list
of its tokens up to the null pointer, a pointer into a chain the rest of it, and the range
`[head..tail]` a chain with the length of what follows `tail`.
-/

namespace SymphonyPlus

/-- An object macro has no `params`. -/
structure Macro where
  name : List Char
  params : Option (List (List Char))
  body : List Token
  expanding : Bool
  deriving DecidableEq, Repr

abbrev MacroTable := List Macro

def findMacro (macros : MacroTable) (name : List Char) : Option Macro :=
  macros.find? fun m => m.name = name

def delMacro (macros : MacroTable) (name : List Char) : MacroTable :=
  macros.eraseP fun m => m.name = name

def addMacro (macros : MacroTable) (m : Macro) : MacroTable := m :: delMacro macros m.name

def setExpanding (macros : MacroTable) (name : List Char) : MacroTable :=
  macros.map fun m => if m.name = name then { m with expanding := true } else m

def tokIdent (t : Token) : Bool := t.kind = .ident || t.kind = .keyword

def bytesText (bytes : List (BitVec 8)) : List Char :=
  bytes.map fun byte => Char.ofNat byte.toNat

/-- `tok_spell`: a string that is made up has its bytes only. -/
def tokSpell (t : Token) : List Char :=
  if t.kind = .str ∧ t.len = 0 then bytesText t.str else t.text

def lineTokens : List Token → List Token
  | [] => []
  | t :: rest => t :: rest.takeWhile fun u => u.kind ≠ .eof && !tokAtBol u

def lineRest : List Token → List Token
  | [] => []
  | _ :: rest => rest.dropWhile fun u => u.kind ≠ .eof && !tokAtBol u

def mergeInto (t : Token) : List Token → List Token
  | [] => [t]
  | s :: rest =>
      if t.kind = .str ∧ s.kind = .str then
        { t with str := t.str ++ s.str, len := t.str.length + s.str.length + 2 } :: rest
      else t :: s :: rest

def mergeAdjacentStrings (chain : List Token) : List Token := chain.foldr mergeInto []

/-- `Arg`: the chain from the argument's head on and the number of its tokens. -/
structure Arg where
  chain : List Token
  count : Nat
  deriving DecidableEq, Repr

def Arg.empty : Arg := { chain := [], count := 0 }

def Arg.tokens (arg : Arg) : List Token := arg.chain.take arg.count

def Arg.extend (arg : Arg) (chain : List Token) : Arg :=
  if arg.count = 0 then { chain, count := 1 } else { arg with count := arg.count + 1 }

def collectFrom (depth : Nat) (args : List Arg) (arg : Arg) :
    List Token → Except Failure (List Arg × List Token)
  | [] => .error .fault
  | t :: rest =>
      if t.kind = .eof || tokAtBol t then exitWith "unterminated macro argument list\n"
      else if tokIs t "(" then collectFrom (depth + 1) args (arg.extend (t :: rest)) rest
      else if tokIs t ")" then
        if depth = 0 then
          .ok (if args = [] ∧ arg.count = 0 then [] else args ++ [arg], rest)
        else collectFrom (depth - 1) args (arg.extend (t :: rest)) rest
      else if tokIs t "," && depth = 0 then collectFrom depth (args ++ [arg]) .empty rest
      else collectFrom depth args (arg.extend (t :: rest)) rest

def collectArgs (chain : List Token) : Except Failure (List Arg × List Token) :=
  collectFrom 0 [] .empty chain

def stringizeChar (c : Char) : List (BitVec 8) :=
  if c = '"' ∨ c = '\\' then [charByte '\\', charByte c] else [charByte c]

def stringize (arg : Arg) : Token :=
  { newToken .str [] 0 with
    str := List.intercalate [charByte ' '] (arg.tokens.map fun t =>
      (tokSpell t).flatMap stringizeChar) }

def paramIndex (m : Macro) (t : Token) : Option Nat :=
  m.params.bind fun params => params.findIdx? fun param => param = t.text

def paramArg (m : Macro) (args : List Arg) (t : Token) : Option Arg :=
  if tokIdent t then (paramIndex m t).map fun i => args.getD i .empty else none

/-- The chain `substitute` builds. The second last token is not known right after `##` has taken
the last one, and then the last one cannot be taken. -/
structure Built where
  chain : List Token
  secondKnown : Bool

def Built.append (built : Built) (tokens : List Token) : Built :=
  if tokens = [] then built else { chain := built.chain ++ tokens, secondKnown := true }

section Expansion

variable (build : Build)

/-- `A ## B`: the last token and the next one are read again as one text, with its end. -/
def paste (m : Macro) (args : List Arg) (built : Built) (next : Token) : Except Failure Built := do
  match built.chain.getLast? with
  | none => exitWith "'##' at beginning of macro body\n"
  | some last =>
      let right := match paramArg m args next with
        | some arg => arg.tokens.flatMap tokSpell
        | none => tokSpell next
      let merged ← tokenize build (tokSpell last ++ right)
      let kept : Built :=
        { chain := if built.secondKnown then built.chain.dropLast else built.chain
          secondKnown := false }
      return kept.append (if merged.head?.any (fun t => t.kind = .eof) then [] else merged)

/-- The loop of `substitute` over the body. -/
def substituteFrom (expandArg : Arg → Except Failure (List Token)) (m : Macro)
    (args : List Arg) (built : Built) : List Token → Except Failure (List Token)
  | [] => .ok built.chain
  | t :: rest =>
      if tokIs t "##" then
        match rest with
        | [] =>
            if built.chain = [] then exitWith "'##' at beginning of macro body\n"
            else exitWith "'##' at end of macro body\n"
        | next :: more => do
            let built ← paste build m args built next
            substituteFrom expandArg m args built more
      else if m.params.isSome && tokIs t "#" && rest.head?.any (fun u => (paramArg m args u).isSome)
      then
        match rest with
        | [] => .error .fault
        | param :: more =>
            substituteFrom expandArg m args
              (built.append [stringize ((paramArg m args param).getD .empty)]) more
      else
        match paramArg m args t with
        | some arg => do
            let value ←
              if rest.head?.any (fun u => tokIs u "##") then .ok arg.tokens
              else if arg.count = 0 then .ok []
              else expandArg arg
            substituteFrom expandArg m args (built.append value) rest
        | none => substituteFrom expandArg m args (built.append [t]) rest

def substitute (expandArg : Arg → Except Failure (List Token)) (m : Macro) (args : List Arg) :
    Except Failure (List Token) :=
  substituteFrom build expandArg m args { chain := [], secondKnown := false } m.body

/-- The macro that a token calls, unless it is being expanded. -/
def calledMacro (macros : MacroTable) (t : Token) : Option Macro :=
  if tokIdent t then (findMacro macros t.text).filter fun m => !m.expanding else none

/-- The loop of `expand_range`, which ends at the chain of length `stop` or at the null pointer.
Every round consumes a token. -/
def expandFrom (macros : MacroTable) (call : Macro → List Arg → Except Failure (List Token))
    (stop : Nat) : Nat → List Token → Except Failure (List Token)
  | 0, _ => .ok []
  | _ + 1, [] => .ok []
  | fuel + 1, t :: next => do
      if next.length + 1 = stop then return []
      match calledMacro macros t with
      | none => return t :: (← expandFrom macros call stop fuel next)
      | some m =>
          match m.params with
          | none =>
              let expansion ← call m []
              return expansion ++ (← expandFrom macros call stop fuel next)
          | some params =>
              match next with
              | [] => return [t]
              | open_ :: inside =>
                  if tokIs open_ "(" then
                    let collected ← collectArgs inside
                    if collected.1.length ≠ params.length then
                      .error (.exit (quoted "macro '" m.name ("' expects " ++
                        toString params.length ++ " arguments, but " ++
                        toString collected.1.length ++ " given\n")))
                    else
                      let expansion ← call m collected.1
                      return expansion ++ (← expandFrom macros call stop fuel collected.2)
                  else return t :: (← expandFrom macros call stop fuel next)

/-- `expand_range` below `level` macros that are being expanded. -/
def expandRange : Nat → MacroTable → Nat → List Token → Except Failure (List Token)
  | 0, macros, stop, chain => expandFrom macros (fun _ _ => .ok []) stop chain.length chain
  | level + 1, macros, stop, chain =>
      expandFrom macros (fun m args => do
        let inner := setExpanding macros m.name
        let body ← substitute build
          (fun arg => expandRange level inner (arg.chain.length - arg.count) arg.chain) m args
        expandRange level inner 0 body) stop chain.length chain

def expand (macros : MacroTable) (stop : Nat) (chain : List Token) : Except Failure (List Token) :=
  expandRange build macros.length macros stop chain

end Expansion

end SymphonyPlus
