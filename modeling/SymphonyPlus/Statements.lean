import Mathlib.Data.BitVec
import Mathlib.Data.List.Nodup
import SymphonyPlus.StutterSimulation

/-! Statements of a function body and the machine that executes them. Expressions stay closed: a run
records which of them were evaluated, and what they yield is given from outside. -/

namespace SymphonyPlus.Statements

/-- What the statement level sees of an expression: a bare variable, an integer constant, or another
one, whose code uses up some labels. -/
inductive Expr
  | var (name : Nat)
  | num (value : Nat)
  | other (index labels : Nat)
deriving DecidableEq, Repr

def Expr.bare : Expr → Bool
  | .var _ => true
  | _ => false

inductive Stmt
  | empty
  | expr (e : Expr)
  | block (items : List Stmt)
  | ifThen (cond : Expr) (body : Stmt)
  | ifElse (cond : Expr) (body other : Stmt)
  | whileLoop (cond : Expr) (body : Stmt)
  | forLoop (init cond inc : Option Expr) (body : Stmt)
  | doWhile (body : Stmt) (cond : Expr)
  | switch (cond : Expr) (body : Stmt)
  | case (value : Nat) (body : Stmt)
  | default (body : Stmt)
  | label (name : String) (body : Stmt)
  | breakOut
  | continueLoop
  | goto (name : String)
  | returnValue (e : Option Expr)

/-! The labels a jump can look for. -/

inductive Target
  | label (name : String)
  | case (value : Nat)
  | default
deriving DecidableEq

def Target.isLabel : Target → Bool
  | .label _ => true
  | _ => false

inductive Cont
  | stop
  | seq (rest : List Stmt) (k : Cont)
  | whileBody (cond : Expr) (body : Stmt) (k : Cont)
  | forBody (cond inc : Option Expr) (body : Stmt) (k : Cont)
  | doBody (body : Stmt) (cond : Expr) (k : Cont)
  | switchBody (k : Cont)
  | select (value : Nat) (body : Stmt) (k : Cont)

/-! Looking for a label gives the statements from there on and what follows them. The case labels of
an inner switch are not those of the outer one. -/

mutual

def Stmt.find (t : Target) : Stmt → List Stmt → Cont → Option (List Stmt × Cont)
  | .block items, rest, k => find t items (.seq rest k)
  | .ifThen _ body, rest, k => body.find t [] (.seq rest k)
  | .ifElse _ body other, rest, k =>
      (body.find t [] (.seq rest k)).or (other.find t [] (.seq rest k))
  | .whileLoop cond body, rest, k => body.find t [] (.whileBody cond body (.seq rest k))
  | .forLoop _ cond inc body, rest, k => body.find t [] (.forBody cond inc body (.seq rest k))
  | .doWhile body cond, rest, k => body.find t [] (.doBody body cond (.seq rest k))
  | .switch _ body, rest, k =>
      if t.isLabel then body.find t [] (.switchBody (.seq rest k)) else none
  | .case value body, rest, k =>
      if t = .case value then some (.case value body :: rest, k) else body.find t rest k
  | .default body, rest, k =>
      if t = .default then some (.default body :: rest, k) else body.find t rest k
  | .label name body, rest, k =>
      if t = .label name then some (.label name body :: rest, k) else body.find t rest k
  | _, _, _ => none

def find (t : Target) : List Stmt → Cont → Option (List Stmt × Cont)
  | [], _ => none
  | s :: rest, k => (s.find t rest k).or (find t rest k)

end

def breakTo : Cont → Option Cont
  | .stop => none
  | .seq _ k => breakTo k
  | .whileBody _ _ k => some k
  | .forBody _ _ _ k => some k
  | .doBody _ _ k => some k
  | .switchBody k => some k
  | .select _ _ k => breakTo k

def continueTo : Cont → Option (List Stmt × Cont)
  | .stop => none
  | .seq _ k => continueTo k
  | .whileBody cond body k => some ([.whileLoop cond body], k)
  | .forBody cond inc body k => some ([], .forBody cond inc body k)
  | .doBody body cond k => some ([], .doBody body cond k)
  | .switchBody k => continueTo k
  | .select _ _ k => continueTo k

/-- What evaluating expressions yields, by the expressions evaluated before, and what their code
leaves in the registers it does not return its value in. -/
structure World where
  outcome : List Expr → Nat
  r2 : List Expr → Nat
  r9 : List Expr → Nat
  equal : List Expr → Bool

structure State where
  focus : List Stmt
  cont : Cont
  history : List Expr

def State.evaluate (s : State) (e : Expr) : State := { s with history := s.history ++ [e] }

def State.evaluateSome (s : State) : Option Expr → State
  | none => s
  | some e => s.evaluate e

def State.to (s : State) (focus : List Stmt) (k : Cont) : State := { s with focus := focus, cont := k }

/-- The switch goes to the case of its value, else to its default, else behind its body. -/
def selection (value : Nat) (body : Stmt) (k : Cont) : List Stmt × Cont :=
  ((find (.case value) [body] (.switchBody k)).or (find .default [body] (.switchBody k))).getD ([], k)

def State.jump (s : State) (place : List Stmt × Cont) : State := s.to place.1 place.2

/-- One step of the machine that executes `before body` ahead of the selection in a switch; C executes
nothing there. -/
def next (before : Stmt → List Stmt) (world : World) (program : List Stmt) (s : State) : Option State :=
  match s.focus, s.cont with
  | [], .stop => none
  | [], .seq rest k => some (s.to rest k)
  | [], .whileBody cond body k => some (s.to [.whileLoop cond body] k)
  | [], .forBody cond inc body k => some ((s.evaluateSome inc).to [.forLoop none cond inc body] k)
  | [], .doBody body cond k =>
      let s' := s.evaluate cond
      if world.outcome s.history = 0 then some (s'.to [] k) else some (s'.to [.doWhile body cond] k)
  | [], .switchBody k => some (s.to [] k)
  | [], .select value body k => some (s.jump (selection value body k))
  | .empty :: rest, k => some (s.to rest k)
  | .expr e :: rest, k => if e.bare then some (s.to rest k) else some ((s.evaluate e).to rest k)
  | .block items :: rest, k => some (s.to items (.seq rest k))
  | .ifThen cond body :: rest, k =>
      let s' := s.evaluate cond
      if world.outcome s.history = 0 then some (s'.to rest k) else some (s'.to [body] (.seq rest k))
  | .ifElse cond body other :: rest, k =>
      let s' := s.evaluate cond
      if world.outcome s.history = 0 then some (s'.to [other] (.seq rest k))
      else some (s'.to [body] (.seq rest k))
  | .whileLoop cond body :: rest, k =>
      let s' := s.evaluate cond
      if world.outcome s.history = 0 then some (s'.to rest k)
      else some (s'.to [body] (.whileBody cond body (.seq rest k)))
  | .forLoop (some init) cond inc body :: rest, k =>
      if init.bare then some (s.to (.forLoop none cond inc body :: rest) k)
      else some ((s.evaluate init).to (.forLoop none cond inc body :: rest) k)
  | .forLoop none none inc body :: rest, k =>
      some (s.to [body] (.forBody none inc body (.seq rest k)))
  | .forLoop none (some cond) inc body :: rest, k =>
      let s' := s.evaluate cond
      if world.outcome s.history = 0 then some (s'.to rest k)
      else some (s'.to [body] (.forBody (some cond) inc body (.seq rest k)))
  | .doWhile body cond :: rest, k => some (s.to [body] (.doBody body cond (.seq rest k)))
  | .switch cond body :: rest, k =>
      some ((s.evaluate cond).to (before body)
        (.select (world.outcome s.history) body (.seq rest k)))
  | .case _ body :: rest, k => some (s.to (body :: rest) k)
  | .default body :: rest, k => some (s.to (body :: rest) k)
  | .label _ body :: rest, k => some (s.to (body :: rest) k)
  | .breakOut :: _, k => (breakTo k).map (s.to [])
  | .continueLoop :: _, k => (continueTo k).map s.jump
  | .goto name :: _, _ => (find (.label name) program .stop).map s.jump
  | .returnValue e :: _, _ => some ((s.evaluateSome e).to [] .stop)

def State.done (s : State) : Prop := s.focus = [] ∧ s.cont = .stop

/-! A switch body falls into the statements before its first case or default label and the rest; the
braces of a block do not count. -/

mutual

def Stmt.marked : Stmt → Bool
  | .case _ _ => true
  | .default _ => true
  | .block items => marked items
  | _ => false

def marked : List Stmt → Bool
  | [] => false
  | s :: rest => s.marked || marked rest

end

mutual

def Stmt.prelude : Stmt → List Stmt
  | .case _ _ => []
  | .default _ => []
  | .block items => [.block (prelude items)]
  | s => [s]

def prelude : List Stmt → List Stmt
  | [] => []
  | s :: rest => if s.marked then s.prelude else s :: prelude rest

end

mutual

def Stmt.selected : Stmt → List Stmt
  | .case value body => [.case value body]
  | .default body => [.default body]
  | .block items => [.block (selected items)]
  | _ => []

def selected : List Stmt → List Stmt
  | [] => []
  | s :: rest => if s.marked then s.selected ++ rest else selected rest

end

/-! The case labels that belong to the switch around a statement, a default having no value, and the
labels, jumps and breaks that do not end inside it. -/

mutual

def Stmt.cases : Stmt → List (Option Nat)
  | .case value body => some value :: body.cases
  | .default body => none :: body.cases
  | .label _ body => body.cases
  | .block items => cases items
  | .ifThen _ body => body.cases
  | .ifElse _ body other => body.cases ++ other.cases
  | .whileLoop _ body => body.cases
  | .forLoop _ _ _ body => body.cases
  | .doWhile body _ => body.cases
  | _ => []

def cases : List Stmt → List (Option Nat)
  | [] => []
  | s :: rest => s.cases ++ cases rest

end

mutual

def Stmt.labels : Stmt → List String
  | .label name body => name :: body.labels
  | .case _ body => body.labels
  | .default body => body.labels
  | .block items => labels items
  | .ifThen _ body => body.labels
  | .ifElse _ body other => body.labels ++ other.labels
  | .whileLoop _ body => body.labels
  | .forLoop _ _ _ body => body.labels
  | .doWhile body _ => body.labels
  | .switch _ body => body.labels
  | _ => []

def labels : List Stmt → List String
  | [] => []
  | s :: rest => s.labels ++ labels rest

end

mutual

def Stmt.gotos : Stmt → List String
  | .goto name => [name]
  | .label _ body => body.gotos
  | .case _ body => body.gotos
  | .default body => body.gotos
  | .block items => gotos items
  | .ifThen _ body => body.gotos
  | .ifElse _ body other => body.gotos ++ other.gotos
  | .whileLoop _ body => body.gotos
  | .forLoop _ _ _ body => body.gotos
  | .doWhile body _ => body.gotos
  | .switch _ body => body.gotos
  | _ => []

def gotos : List Stmt → List String
  | [] => []
  | s :: rest => s.gotos ++ gotos rest

end

mutual

def Stmt.breaks : Stmt → Bool
  | .breakOut => true
  | .label _ body => body.breaks
  | .case _ body => body.breaks
  | .default body => body.breaks
  | .block items => breaks items
  | .ifThen _ body => body.breaks
  | .ifElse _ body other => body.breaks || other.breaks
  | _ => false

def breaks : List Stmt → Bool
  | [] => false
  | s :: rest => s.breaks || breaks rest

end

/-! Statements without any effect, and the bodies of all switches. -/

mutual

def Stmt.blank : Stmt → Bool
  | .empty => true
  | .block items => blank items
  | _ => false

def blank : List Stmt → Bool
  | [] => true
  | s :: rest => s.blank && blank rest

end

mutual

def Stmt.bodies : Stmt → List Stmt
  | .label _ body => body.bodies
  | .case _ body => body.bodies
  | .default body => body.bodies
  | .block items => bodies items
  | .ifThen _ body => body.bodies
  | .ifElse _ body other => body.bodies ++ other.bodies
  | .whileLoop _ body => body.bodies
  | .forLoop _ _ _ body => body.bodies
  | .doWhile body _ => body.bodies
  | .switch _ body => body :: body.bodies
  | _ => []

def bodies : List Stmt → List Stmt
  | [] => []
  | s :: rest => s.bodies ++ bodies rest

end

def Stmt.isCase : Stmt → Bool
  | .case _ _ => true
  | .default _ => true
  | _ => false

def Stmt.endsOpen : Stmt → Bool
  | .ifThen _ _ => true
  | .ifElse _ _ other => other.endsOpen
  | .whileLoop _ body => body.endsOpen
  | .forLoop _ _ _ body => body.endsOpen
  | .switch _ body => body.endsOpen
  | .case _ body => body.endsOpen
  | .default body => body.endsOpen
  | .label _ body => body.endsOpen
  | _ => false

structure Place where
  breaks : Nat
  loops : Nat
  switches : Nat

def Place.loop (p : Place) : Place := { p with breaks := p.breaks + 1, loops := p.loops + 1 }

def Place.switch (p : Place) : Place := { p with breaks := p.breaks + 1, switches := p.switches + 1 }

/-- The statements before the first case of a switch body have no label and do not leave the switch. -/
structure PlainPrelude (body : Stmt) : Prop where
  cases : cases (prelude [body]) = []
  labels : labels (prelude [body]) = []
  breaks : breaks (prelude [body]) = false

mutual

/-- What the grammar and the constraints of C ask of a statement, with the depths of nesting the
compiler allows, and every case label in a list of statements. -/
def Stmt.Fits (p : Place) : Stmt → Prop
  | .block items => Fits p items
  | .ifThen _ body => body.isCase = false ∧ body.Fits p
  | .ifElse _ body other => body.isCase = false ∧ body.endsOpen = false ∧ other.isCase = false ∧
      body.Fits p ∧ other.Fits p
  | .whileLoop _ body => body.isCase = false ∧ p.breaks < 64 ∧ body.Fits p.loop
  | .forLoop _ _ _ body => body.isCase = false ∧ p.breaks < 64 ∧ body.Fits p.loop
  | .doWhile body _ => body.isCase = false ∧ p.breaks < 64 ∧ body.Fits p.loop
  | .switch _ body => body.isCase = false ∧ p.breaks < 64 ∧ p.switches < 32 ∧ body.cases.Nodup ∧
      (∀ value, some value ∈ body.cases → value ≤ 0xFFFFFFFF) ∧ PlainPrelude body ∧
      body.Fits p.switch
  | .case _ body => 0 < p.switches ∧ body.Fits p
  | .default body => 0 < p.switches ∧ body.Fits p
  | .label _ body => body.isCase = false ∧ body.Fits p
  | .breakOut => 0 < p.breaks
  | .continueLoop => 0 < p.loops
  | _ => True

def Fits (p : Place) : List Stmt → Prop
  | [] => True
  | s :: rest => s.Fits p ∧ Fits p rest

end

structure Allowed (program : List Stmt) : Prop where
  fits : Fits ⟨0, 0, 0⟩ program
  labels : (labels program).Nodup
  gotos : gotos program ⊆ Statements.labels program

end SymphonyPlus.Statements
