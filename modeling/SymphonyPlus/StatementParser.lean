import SymphonyPlus.Statements

/-! The statement parser: from the tokens of a function body, an expression being one token, to the
node lists the code generator walks. -/

namespace SymphonyPlus.Statements

inductive Tok
  | kwReturn | kwIf | kwElse | kwWhile | kwFor | kwDo | kwSwitch | kwCase | kwDefault | kwBreak
  | kwContinue | kwGoto
  | lparen | rparen | lbrace | rbrace | semi | colon
  | ident (name : String)
  | expr (e : Expr)
deriving DecidableEq, Repr

structure CaseEntry where
  value : Option Nat
  num : Nat
deriving DecidableEq, Repr

inductive Node
  | expr (e : Expr)
  | ndReturn (lhs : Option Expr)
  | ndIf (lhs : Expr) (rhs els : List Node)
  | ndWhile (lhs : Expr) (rhs : List Node)
  | ndFor (lhs rhs els : Option Expr) (body : List Node)
  | ndDoWhile (lhs : List Node) (rhs : Expr)
  | ndSwitch (lhs : Expr) (rhs : List CaseEntry) (els : List Node) (offset : Nat)
  | ndCase (val num : Nat)
  | ndDefault (num : Nat)
  | ndBreak
  | ndContinue
  | ndGoto (num : Nat)
  | ndLabel (num : Nat) (rhs : List Node)

structure LblEnt where
  name : String
  num : Nat
  defined : Bool
deriving DecidableEq, Repr

structure Parser where
  lbls : List LblEnt
  lblNum : Nat
  localsBytes : Nat
  caseStack : List (List CaseEntry)

def Parser.hiddenLvar (p : Parser) : Nat × Parser :=
  (p.localsBytes + 4, { p with localsBytes := p.localsBytes + 4 })

def Parser.labelOf (p : Parser) (name : String) : Nat × Parser :=
  match p.lbls.find? (·.name = name) with
  | some e => (e.num, p)
  | none => (p.lblNum, { p with lbls := ⟨name, p.lblNum, false⟩ :: p.lbls, lblNum := p.lblNum + 1 })

def Parser.define (p : Parser) (num : Nat) : Parser :=
  { p with lbls := p.lbls.map fun e => if e.num = num then { e with defined := true } else e }

def Parser.registerCase (p : Parser) (entry : CaseEntry) : Except String Parser :=
  match p.caseStack with
  | [] => .error "case outside switch"
  | list :: outer =>
      if list.any (·.value = entry.value) then
        .error (if entry.value.isSome then "duplicate case value" else "duplicate default")
      else .ok { p with caseStack := (list ++ [entry]) :: outer }

def skip (t : Tok) : List Tok → Except String (List Tok)
  | [] => .error "unexpected end"
  | u :: rest => if u = t then .ok rest else .error "unexpected token"

def expr : List Tok → Except String (Expr × List Tok)
  | .expr e :: rest => .ok (e, rest)
  | _ => .error "expected expression"

def optionalExpr (stop : Tok) : List Tok → Except String (Option Expr × List Tok)
  | [] => .error "expected expression"
  | t :: rest =>
      if t = stop then .ok (none, t :: rest)
      else do
        let (e, rest) ← expr (t :: rest)
        return (some e, rest)

mutual

/-- One statement; `breakable` and `loops` count the statements around it that `break` and `continue`
can refer to. A case label is a node of its own, and the statement behind it the next one. -/
def stmt : Nat → Nat → Nat → List Tok → Parser → Except String (List Node × List Tok × Parser)
  | 0, _, _, _, _ => .error "out of fuel"
  | fuel + 1, breakable, loops, toks, p =>
      match toks with
      | .kwReturn :: .semi :: rest => .ok ([.ndReturn none], rest, p)
      | .kwReturn :: .rbrace :: rest => .ok ([.ndReturn none], .rbrace :: rest, p)
      | .kwReturn :: rest => do
          let (e, rest) ← expr rest
          let rest ← skip .semi rest
          return ([.ndReturn (some e)], rest, p)
      | .kwIf :: rest => do
          let rest ← skip .lparen rest
          let (cond, rest) ← expr rest
          let rest ← skip .rparen rest
          let (body, rest, p) ← stmt fuel breakable loops rest p
          match rest with
          | .kwElse :: rest => do
              let (els, rest, p) ← stmt fuel breakable loops rest p
              return ([.ndIf cond body els], rest, p)
          | _ => return ([.ndIf cond body []], rest, p)
      | .kwWhile :: rest => do
          let rest ← skip .lparen rest
          let (cond, rest) ← expr rest
          let rest ← skip .rparen rest
          let (body, rest, p) ← stmt fuel (breakable + 1) (loops + 1) rest p
          return ([.ndWhile cond body], rest, p)
      | .kwFor :: rest => do
          let rest ← skip .lparen rest
          let (init, rest) ← optionalExpr .semi rest
          let rest ← skip .semi rest
          let (cond, rest) ← optionalExpr .semi rest
          let rest ← skip .semi rest
          let (inc, rest) ← optionalExpr .rparen rest
          let rest ← skip .rparen rest
          let (body, rest, p) ← stmt fuel (breakable + 1) (loops + 1) rest p
          return ([.ndFor init cond inc body], rest, p)
      | .kwDo :: rest => do
          let (body, rest, p) ← stmt fuel (breakable + 1) (loops + 1) rest p
          let rest ← skip .kwWhile rest
          let rest ← skip .lparen rest
          let (cond, rest) ← expr rest
          let rest ← skip .rparen rest
          let rest ← skip .semi rest
          return ([.ndDoWhile body cond], rest, p)
      | .kwSwitch :: rest => do
          let rest ← skip .lparen rest
          let (cond, rest) ← expr rest
          let rest ← skip .rparen rest
          if 32 ≤ p.caseStack.length then .error "switch nesting too deep"
          else do
            let (body, rest, p) ← stmt fuel (breakable + 1) loops rest
              { p with caseStack := [] :: p.caseStack }
            let entries := p.caseStack.head?.getD []
            let (offset, p) := { p with caseStack := p.caseStack.tail }.hiddenLvar
            return ([.ndSwitch cond entries body offset], rest, p)
      | .kwCase :: rest => do
          let (e, rest) ← expr rest
          match e with
          | .num value => do
              let rest ← skip .colon rest
              let num := p.lblNum
              let p ← { p with lblNum := p.lblNum + 1 }.registerCase ⟨some value, num⟩
              return ([.ndCase value num], rest, p)
          | _ => .error "case value is not a constant"
      | .kwDefault :: rest => do
          let rest ← skip .colon rest
          let num := p.lblNum
          let p ← { p with lblNum := p.lblNum + 1 }.registerCase ⟨none, num⟩
          return ([.ndDefault num], rest, p)
      | .kwBreak :: rest => do
          let rest ← skip .semi rest
          if breakable = 0 then .error "break outside loop or switch"
          else return ([.ndBreak], rest, p)
      | .kwContinue :: rest => do
          let rest ← skip .semi rest
          if loops = 0 then .error "continue outside loop"
          else return ([.ndContinue], rest, p)
      | .kwGoto :: .ident name :: rest => do
          let (num, p) := p.labelOf name
          let rest ← skip .semi rest
          return ([.ndGoto num], rest, p)
      | .kwGoto :: _ => .error "expected label name"
      | .ident name :: .colon :: rest => do
          let (num, p) := p.labelOf name
          let (body, rest, p) ← stmt fuel breakable loops rest (p.define num)
          return ([.ndLabel num body], rest, p)
      | .lbrace :: rest => blockItems fuel breakable loops rest p
      | .semi :: rest => .ok ([], rest, p)
      | rest => do
          let (e, rest) ← expr rest
          let rest ← skip .semi rest
          return ([.expr e], rest, p)

def blockItems : Nat → Nat → Nat → List Tok → Parser → Except String (List Node × List Tok × Parser)
  | 0, _, _, _, _ => .error "out of fuel"
  | _ + 1, _, _, [], _ => .error "unclosed block"
  | _ + 1, _, _, .rbrace :: rest, p => .ok ([], rest, p)
  | fuel + 1, breakable, loops, toks, p => do
      let (s, rest, p) ← stmt fuel breakable loops toks p
      let (items, rest, p) ← blockItems fuel breakable loops rest p
      return (s ++ items, rest, p)

end

/-- The body of a function behind its opening brace. Labels are numbered on from `lblNum`, hidden
variables lie below `localsBytes`. -/
def funcBody (lblNum localsBytes : Nat) (toks : List Tok) : Except String (List Node × Parser) := do
  let (body, _, p) ← blockItems (2 * toks.length + 1) 0 0 toks ⟨[], lblNum, localsBytes, []⟩
  if p.lbls.all (·.defined) then return (body, p) else .error "undefined label"

end SymphonyPlus.Statements
