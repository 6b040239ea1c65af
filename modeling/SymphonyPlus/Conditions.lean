import SymphonyPlus.Macros

/-!
The conditions of `#if` and `#elif` in `symcc/src/preprocess.c`. The evaluator reads a chain that
ends with the null pointer, and each level takes the one below it as a parameter, so that a
parenthesis can call the whole again.
-/

namespace SymphonyPlus

structure Evaluated where
  constant : Constant
  rest : List Token
  deriving DecidableEq, Repr

abbrev EvalLevel := List Token → Except Failure Evaluated

abbrev OpTable := List (String × ConstOp)

def findOp (ops : OpTable) : List Token → Option (ConstOp × List Token)
  | [] => none
  | t :: rest => (ops.find? fun entry => tokIs t entry.1).map fun entry => (entry.2, rest)

def expectToken (s : String) : List Token → Except Failure (List Token)
  | t :: rest =>
      if tokIs t s then .ok rest
      else .error (.exit (quoted "expected '" s.toList "' in #if expression\n"))
  | [] => .error (.exit (quoted "expected '" s.toList "' in #if expression\n"))

section Evaluation

variable (build : Build)

def evalPrimary (expr : EvalLevel) : EvalLevel
  | [] => exitWith "unexpected end of #if expression\n"
  | t :: rest => do
      if t.kind = .num then return { constant := { val := t.val, uns := t.isUnsigned }, rest }
      else if tokIdent t then return { constant := { val := 0, uns := false }, rest }
      else if tokIs t "(" then
        let inner ← expr rest
        return { inner with rest := ← expectToken ")" inner.rest }
      else exitWith "unexpected token in #if expression\n"

/-- A missing operand is a null pointer here. -/
def evalUnary (expr : EvalLevel) : EvalLevel
  | [] => .error .fault
  | t :: rest => do
      if tokIs t "+" then evalUnary expr rest
      else if tokIs t "-" then
        let inner ← evalUnary expr rest
        return { inner with
          constant := { inner.constant with val := build.toCcInt (-inner.constant.val) } }
      else if tokIs t "~" then
        let inner ← evalUnary expr rest
        return { inner with
          constant := { inner.constant with val := build.toCcInt (-inner.constant.val - 1) } }
      else if tokIs t "!" then
        let inner ← evalUnary expr rest
        return { inner with constant := flagValue (inner.constant.val = 0) }
      else evalPrimary expr (t :: rest)

def evalOps (ops : OpTable) (next : EvalLevel) : Nat → Evaluated → Except Failure Evaluated
  | 0, left => .ok left
  | fuel + 1, left =>
      match findOp ops left.rest with
      | none => .ok left
      | some (op, rest) => do
          let right ← next rest
          let constant ← ccBinary build left.constant right.constant op
          evalOps ops next fuel { constant, rest := right.rest }

def evalLevel (ops : OpTable) (next : EvalLevel) : EvalLevel := fun chain => do
  evalOps build ops next chain.length (← next chain)

def mulOps : OpTable := [("*", .mul), ("/", .div), ("%", .mod)]
def addOps : OpTable := [("+", .add), ("-", .sub)]
def shiftOps : OpTable := [("<<", .shl), (">>", .shr)]
def relOps : OpTable := [("<", .lt), ("<=", .le), (">", .gt), (">=", .ge)]
def eqOps : OpTable := [("==", .eq), ("!=", .ne)]
def bitAndOps : OpTable := [("&", .bitAnd)]
def bitXorOps : OpTable := [("^", .bitXor)]
def bitOrOps : OpTable := [("|", .bitOr)]
def andOps : OpTable := [("&&", .logAnd)]
def orOps : OpTable := [("||", .logOr)]

def evalMul (expr : EvalLevel) : EvalLevel := evalLevel build mulOps (evalUnary build expr)
def evalAdd (expr : EvalLevel) : EvalLevel := evalLevel build addOps (evalMul build expr)
def evalShift (expr : EvalLevel) : EvalLevel := evalLevel build shiftOps (evalAdd build expr)
def evalRel (expr : EvalLevel) : EvalLevel := evalLevel build relOps (evalShift build expr)
def evalEq (expr : EvalLevel) : EvalLevel := evalLevel build eqOps (evalRel build expr)
def evalBitand (expr : EvalLevel) : EvalLevel := evalLevel build bitAndOps (evalEq build expr)
def evalBitxor (expr : EvalLevel) : EvalLevel := evalLevel build bitXorOps (evalBitand build expr)
def evalBitor (expr : EvalLevel) : EvalLevel := evalLevel build bitOrOps (evalBitxor build expr)
def evalAnd (expr : EvalLevel) : EvalLevel := evalLevel build andOps (evalBitor build expr)
def evalOr (expr : EvalLevel) : EvalLevel := evalLevel build orOps (evalAnd build expr)

/-! Skipping, for the arm of a condition that is not taken. -/

def skipParens : Nat → List Token → List Token
  | _, [] => []
  | depth, t :: rest =>
      if tokIs t "(" then skipParens (depth + 1) rest
      else if tokIs t ")" then if depth = 1 then rest else skipParens (depth - 1) rest
      else if tokIs t ":" && depth = 1 then t :: rest
      else skipParens depth rest

def skipUnary : List Token → List Token
  | [] => []
  | t :: rest =>
      if tokIs t "+" || tokIs t "-" || tokIs t "~" || tokIs t "!" then skipUnary rest
      else if tokIs t "(" then skipParens 1 rest
      else rest

def skipOps (ops : OpTable) (next : List Token → List Token) : Nat → List Token → List Token
  | 0, chain => chain
  | fuel + 1, chain =>
      match findOp ops chain with
      | none => chain
      | some (_, rest) => skipOps ops next fuel (next rest)

def skipLevel (ops : OpTable) (next : List Token → List Token) (chain : List Token) :
    List Token :=
  skipOps ops next chain.length (next chain)

def skipOr : List Token → List Token :=
  [addOps, shiftOps, relOps, eqOps, bitAndOps, bitXorOps, bitOrOps, andOps, orOps].foldl
    (fun next ops => skipLevel ops next) (skipLevel mulOps skipUnary)

def skipExpr : Nat → List Token → List Token
  | 0, chain => chain
  | fuel + 1, chain =>
      match skipOr chain with
      | [] => []
      | t :: rest =>
          if tokIs t "?" then
            match skipExpr fuel rest with
            | [] => []
            | u :: more => if tokIs u ":" then skipExpr fuel more else u :: more
          else t :: rest

/-- `eval_expr`. Every call below consumes a token. -/
def evalExpr : Nat → EvalLevel
  | 0, _ => .error .fault
  | fuel + 1, chain => do
      let left ← evalOr build (evalExpr fuel) chain
      match left.rest with
      | [] => return left
      | t :: rest =>
          if tokIs t "?" then
            if left.constant.val ≠ 0 then
              let taken ← evalExpr fuel rest
              let other ← expectToken ":" taken.rest
              return { taken with rest := skipExpr other.length other }
            else evalExpr fuel (← expectToken ":" (skipExpr rest.length rest))
          else return left

def evalChain (chain : List Token) : Except Failure Int := do
  let value ← evalExpr build (chain.length + 1) chain
  if value.rest ≠ [] then exitWith "extra tokens in #if expression\n"
  return value.constant.val

end Evaluation

def newNum (value : Int) : Token := { newToken .num [] 0 with val := value }

def definedNum (macros : MacroTable) (t : Token) : Token :=
  newNum (if (findMacro macros t.text).isSome then 1 else 0)

/-- `pre_defs`: `defined` becomes a number. The chain of length `stop` is the one after the line,
and a `defined` that reads past it is not stopped any more. -/
def preDefs (macros : MacroTable) (stop : Nat) : Nat → List Token → Except Failure (List Token)
  | 0, _ => .error .fault
  | _ + 1, [] => .error .fault
  | fuel + 1, t :: next => do
      let goOn (num : Token) (after : List Token) : Except Failure (List Token) := do
        if after.length = stop then return [num]
        return num :: (← preDefs macros stop fuel after)
      if t.kind = .ident ∧ t.text = "defined".toList then
        match next with
        | [] => exitWith "malformed 'defined' in #if expression\n"
        | p :: inside =>
            if tokIs p "(" then
              match inside with
              | name :: close :: after =>
                  if tokIdent name && tokIs close ")" then goOn (definedNum macros name) after
                  else exitWith "malformed defined() in #if expression\n"
              | _ => exitWith "malformed defined() in #if expression\n"
            else if tokIdent p then goOn (definedNum macros p) inside
            else exitWith "malformed 'defined' in #if expression\n"
      else if next.length = stop then return [t]
      else return t :: (← preDefs macros stop fuel next)

end SymphonyPlus
