import SymphonyPlus.StatementParser

/-! The code of statements and the part of the machine it runs on: the registers it uses, the flag of
the last comparison and the hidden frame slots of the switches. -/

namespace SymphonyPlus.Statements

/-! Labels print as `L%d`, `Lg%d` and `__sp_poll_L%d`. -/

inductive Label
  | l (num : Nat)
  | lg (num : Nat)
  | poll (num : Nat)
deriving DecidableEq, Repr

inductive Line
  | expr (e : Expr)
  | label (l : Label)
  | jmp (l : Label)
  | je (l : Label)
  | movR2 (value : Nat)
  | lslR2
  | orR2 (value : Nat)
  | cmp
  | slotAddress (offset : Nat)
  | storeSlot
  | loadSlot
  | comment (text : String)
  | movSp
  | popFrame
  | ret
deriving DecidableEq, Repr

/-- The generator either refuses its input, as `err_imm` does, or leaves the arrays it keeps its
targets in, after which nothing is known. -/
inductive Failure
  | tooLarge (value : Nat)
  | outside
deriving DecidableEq, Repr

abbrev Gen := Except Failure (List Line × Nat)

def Expr.labels : Expr → Nat
  | .other _ labels => labels
  | _ => 0

def genExpr (e : Expr) (count : Nat) : Gen := .ok ([.expr e], count + e.labels)

/-- An expression as a statement: a bare variable emits nothing. -/
def genExprStmt (e : Expr) (count : Nat) : Gen :=
  if e.bare then .ok ([], count) else genExpr e count

def genSome (gen : Expr → Nat → Gen) : Option Expr → Nat → Gen
  | none, count => .ok ([], count)
  | some e, count => gen e count

def genBranchZero (e : Expr) (target : Label) (count : Nat) : Gen := do
  let (code, count) ← genExpr e count
  return (code ++ [.movR2 0, .cmp, .je target], count)

/-- `gen_num_reg` for r2, in the build with 64-bit constants. -/
def genNumReg (value : Nat) : Except Failure (List Line) :=
  if 0xFFFFFFFF < value then .error (.tooLarge value)
  else if value / 65536 % 65536 ≠ 0 then
    if value % 65536 ≠ 0 then .ok [.movR2 (value / 65536 % 65536), .lslR2, .orR2 (value % 65536)]
    else .ok [.movR2 (value / 65536 % 65536), .lslR2]
  else .ok [.movR2 (value % 65536)]

/-- The comparisons of a switch with its cases, the default left to the jump behind them. -/
def genChain (offset : Nat) : List CaseEntry → Except Failure (List Line)
  | [] => .ok []
  | ⟨none, _⟩ :: rest => genChain offset rest
  | ⟨some value, num⟩ :: rest => do
      let constant ← genNumReg value
      let later ← genChain offset rest
      return [.slotAddress offset, .loadSlot] ++ constant ++ [.cmp, .je (.lg num)] ++ later

def defaultLabel : List CaseEntry → Option Label
  | [] => none
  | ⟨none, num⟩ :: rest => (defaultLabel rest).or (some (.lg num))
  | _ :: rest => defaultLabel rest

def push (target : Label) (stack : List Label) : Except Failure (List Label) :=
  if stack.length < 64 then .ok (target :: stack) else .error .outside

def top : List Label → Except Failure Label
  | [] => .error .outside
  | target :: _ => .ok target

def epilogue : List Line := [.movSp, .popFrame, .ret]

mutual

def genStmt : Node → List Label → List Label → Nat → Gen
  | .expr e, _, _, count => genExprStmt e count
  | .ndReturn lhs, _, _, count => do
      let (code, count) ← genSome genExpr lhs count
      return (code ++ .comment "return" :: epilogue, count)
  | .ndIf lhs rhs els, brk, cont, count => do
      let lelse := Label.l count
      let lend := Label.l (count + 1)
      let (test, count) ← genBranchZero lhs lelse (count + 2)
      let (body, count) ← genStmts rhs brk cont count
      if els.isEmpty then return (test ++ body ++ [.label lelse], count)
      else do
        let (other, count) ← genStmts els brk cont count
        return (test ++ body ++ [.jmp lend, .label lelse] ++ other ++ [.label lend], count)
  | .ndWhile lhs rhs, brk, cont, count => do
      let lbegin := Label.l count
      let lend := Label.l (count + 1)
      let poll := Label.poll (count + 2)
      let inner ← push lend brk
      let again ← push lbegin cont
      let (test, count) ← genBranchZero lhs lend (count + 3)
      let (body, count) ← genStmts rhs inner again count
      return ([.label lbegin, .label poll] ++ test ++ body ++ [.jmp lbegin, .label lend], count)
  | .ndFor lhs rhs els body, brk, cont, count => do
      let lbegin := Label.l count
      let lcont := Label.l (count + 1)
      let lend := Label.l (count + 2)
      let (init, count) ← genSome genExprStmt lhs (count + 3)
      let poll := Label.poll count
      let (test, count) ← genSome (genBranchZero · lend) rhs (count + 1)
      let inner ← push lend brk
      let again ← push lcont cont
      let (body, count) ← genStmts body inner again count
      let (inc, count) ← genSome genExpr els count
      return (init ++ [.label lbegin, .label poll] ++ test ++ body ++ [.label lcont] ++ inc
        ++ [.jmp lbegin, .label lend], count)
  | .ndDoWhile lhs rhs, brk, cont, count => do
      let lbegin := Label.l count
      let lcond := Label.l (count + 1)
      let lend := Label.l (count + 2)
      let inner ← push lend brk
      let again ← push lcond cont
      let poll := Label.poll (count + 3)
      let (body, count) ← genStmts lhs inner again (count + 4)
      let (test, count) ← genBranchZero rhs lend count
      return ([.label lbegin, .label poll] ++ body ++ [.label lcond] ++ test
        ++ [.jmp lbegin, .label lend], count)
  | .ndSwitch lhs rhs els offset, brk, cont, count => do
      let lend := Label.l count
      let (value, count) ← genExpr lhs (count + 1)
      let (before, count) ← genPrelude els brk cont count
      let chain ← genChain offset rhs
      let inner ← push lend brk
      let (body, count) ← genLabelled els inner cont count
      return (value ++ [.slotAddress offset, .storeSlot] ++ before ++ chain
        ++ [.jmp ((defaultLabel rhs).getD lend)] ++ body ++ [.label lend], count)
  | .ndCase _ num, _, _, count => .ok ([.label (.lg num)], count)
  | .ndDefault num, _, _, count => .ok ([.label (.lg num)], count)
  | .ndBreak, brk, _, count => do
      let target ← top brk
      return ([.jmp target], count)
  | .ndContinue, _, cont, count => do
      let target ← top cont
      return ([.jmp target], count)
  | .ndGoto num, _, _, count => .ok ([.label (.poll count), .jmp (.lg num)], count + 1)
  | .ndLabel num rhs, brk, cont, count => do
      let (body, count) ← genStmts rhs brk cont count
      return (.label (.lg num) :: body, count)

def genStmts : List Node → List Label → List Label → Nat → Gen
  | [], _, _, count => .ok ([], count)
  | n :: rest, brk, cont, count => do
      let (code, count) ← genStmt n brk cont count
      let (later, count) ← genStmts rest brk cont count
      return (code ++ later, count)

/-- The statements of a switch body before its first case or default, with the targets from outside. -/
def genPrelude : List Node → List Label → List Label → Nat → Gen
  | [], _, _, count => .ok ([], count)
  | .ndCase _ _ :: _, _, _, count => .ok ([], count)
  | .ndDefault _ :: _, _, _, count => .ok ([], count)
  | n :: rest, brk, cont, count => do
      let (code, count) ← genStmt n brk cont count
      let (later, count) ← genPrelude rest brk cont count
      return (code ++ later, count)

def genLabelled : List Node → List Label → List Label → Nat → Gen
  | [], _, _, count => .ok ([], count)
  | .ndCase _ num :: rest, brk, cont, count => do
      let (later, count) ← genStmts rest brk cont count
      return (.label (.lg num) :: later, count)
  | .ndDefault num :: rest, brk, cont, count => do
      let (later, count) ← genStmts rest brk cont count
      return (.label (.lg num) :: later, count)
  | _ :: rest, brk, cont, count => genLabelled rest brk cont count

end

def genFunc (body : List Node) (count : Nat) : Except Failure (List Line) := do
  let (code, _) ← genStmts body [] [] (count + 1)
  return .label (.poll count) :: code ++ epilogue

/-! The machine. What is left to execute is a part of the lines that reaches to their end. -/

structure Cpu where
  rest : List Line
  r1 : Nat
  r2 : Nat
  r9 : Nat
  equal : Bool
  slots : Nat → Nat
  returned : Bool
  history : List Expr

abbrev Cpu.on (c : Cpu) (rest : List Line) : Cpu := { c with rest := rest }

def target (l : Label) : List Line → Option (List Line)
  | [] => none
  | line :: rest => if line = .label l then some (line :: rest) else target l rest

def Cpu.evaluate (world : World) (c : Cpu) (e : Expr) : Cpu :=
  { c with
    r1 := world.outcome c.history
    r2 := world.r2 c.history
    r9 := world.r9 c.history
    equal := world.equal c.history
    history := c.history ++ [e] }

def execute (world : World) (code : List Line) (c : Cpu) : Option Cpu :=
  if c.returned then none
  else match c.rest with
    | [] => none
    | line :: rest =>
        let c := c.on rest
        match line with
        | .expr e => some (c.evaluate world e)
        | .label _ => some c
        | .jmp l => (target l code).map c.on
        | .je l =>
            if c.equal then (target l code).map c.on else some c
        | .movR2 value => some { c with r2 := value }
        | .lslR2 => some { c with r2 := c.r2 <<< 16 % 2 ^ 32 }
        | .orR2 value => some { c with r2 := c.r2 ||| value }
        | .cmp => some { c with equal := decide (c.r1 = c.r2) }
        | .slotAddress offset => some { c with r9 := offset }
        | .storeSlot => some { c with slots := fun o => if o = c.r9 then c.r1 else c.slots o }
        | .loadSlot => some { c with r1 := c.slots c.r9 }
        | .comment _ => some c
        | .movSp => some c
        | .popFrame => some c
        | .ret => some { c with returned := true }

end SymphonyPlus.Statements
