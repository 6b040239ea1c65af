import SymphonyPlus.StatementCode

/-! How the lines of a statement list look, label numbers aside, and the simulation of the statement
machine by the code. -/

namespace SymphonyPlus.Statements

open StutterSimulation

/-! Where `break` and `continue` lead. -/

structure Context where
  brk : Option Label
  cont : Option Label

def branch (l : Label) : List Line := [.movR2 0, .cmp, .je l]

def stmtLines : Option Expr → List Line
  | none => []
  | some e => if e.bare then [] else [.expr e]

def valueLines : Option Expr → List Line
  | none => []
  | some e => [.expr e]

def testLines (l : Label) : Option Expr → List Line
  | none => []
  | some e => .expr e :: branch l

/-- What all parts of a program have in common: what a switch executes first, the numbers of its
labels and which labels it has. -/
structure Layout where
  before : Stmt → List Stmt
  num : String → Nat
  defined : String → Prop

/-- The lines of a statement list whose switches keep their values in slots below `bound`, and the
case labels in it. -/
inductive Emits (layout : Layout) : Nat → List Stmt → Context → List Line → List CaseEntry → Prop
  | nil {bound : Nat} {ctx : Context} : Emits layout bound [] ctx [] []
  | empty {bound : Nat} {ctx : Context} {rest : List Stmt} {later : List Line} {ms : List CaseEntry} :
      Emits layout bound rest ctx later ms → Emits layout bound (.empty :: rest) ctx later ms
  | expr {bound : Nat} {ctx : Context} {rest : List Stmt} {later : List Line} {ms : List CaseEntry}
      {e : Expr} :
      Emits layout bound rest ctx later ms →
      Emits layout bound (.expr e :: rest) ctx (stmtLines (some e) ++ later) ms
  | block {bound : Nat} {ctx : Context} {items rest : List Stmt} {body later : List Line}
      {ms ns : List CaseEntry} :
      Emits layout bound items ctx body ms → Emits layout bound rest ctx later ns →
      Emits layout bound (.block items :: rest) ctx (body ++ later) (ms ++ ns)
  | ifThen {bound : Nat} {ctx : Context} {s : Stmt} {rest : List Stmt} {body later : List Line}
      {ms ns : List CaseEntry} {cond : Expr} {lelse : Label} :
      Emits layout bound [s] ctx body ms → Emits layout bound rest ctx later ns →
      Emits layout bound (.ifThen cond s :: rest) ctx
        (.expr cond :: branch lelse ++ body ++ .label lelse :: later) (ms ++ ns)
  | ifElseEmpty {bound : Nat} {ctx : Context} {s t : Stmt} {rest : List Stmt} {body later : List Line}
      {ms ns : List CaseEntry} {cond : Expr} {lelse : Label} :
      Emits layout bound [s] ctx body ms → Emits layout bound [t] ctx [] [] →
      Emits layout bound rest ctx later ns →
      Emits layout bound (.ifElse cond s t :: rest) ctx
        (.expr cond :: branch lelse ++ body ++ .label lelse :: later) (ms ++ ns)
  | ifElse {bound : Nat} {ctx : Context} {s t : Stmt} {rest : List Stmt} {body other later : List Line}
      {ms os ns : List CaseEntry} {cond : Expr} {lelse lend : Label} :
      Emits layout bound [s] ctx body ms → Emits layout bound [t] ctx other os →
      Emits layout bound rest ctx later ns →
      Emits layout bound (.ifElse cond s t :: rest) ctx
        (.expr cond :: branch lelse ++ body ++ .jmp lend :: .label lelse :: other
          ++ .label lend :: later) (ms ++ os ++ ns)
  | whileLoop {bound : Nat} {ctx : Context} {s : Stmt} {rest : List Stmt} {body later : List Line}
      {ms ns : List CaseEntry} {cond : Expr} {lbegin lend poll : Label} :
      Emits layout bound [s] ⟨some lend, some lbegin⟩ body ms → Emits layout bound rest ctx later ns →
      Emits layout bound (.whileLoop cond s :: rest) ctx
        (.label lbegin :: .label poll :: .expr cond :: branch lend ++ body
          ++ .jmp lbegin :: .label lend :: later) (ms ++ ns)
  | forLoop {bound : Nat} {ctx : Context} {s : Stmt} {rest : List Stmt} {body later : List Line}
      {ms ns : List CaseEntry} {init cond inc : Option Expr} {lbegin lcont lend poll : Label} :
      Emits layout bound [s] ⟨some lend, some lcont⟩ body ms → Emits layout bound rest ctx later ns →
      Emits layout bound (.forLoop init cond inc s :: rest) ctx
        (stmtLines init ++ .label lbegin :: .label poll :: testLines lend cond ++ body
          ++ .label lcont :: valueLines inc ++ .jmp lbegin :: .label lend :: later) (ms ++ ns)
  | doWhile {bound : Nat} {ctx : Context} {s : Stmt} {rest : List Stmt} {body later : List Line}
      {ms ns : List CaseEntry} {cond : Expr} {lbegin lcond lend poll : Label} :
      Emits layout bound [s] ⟨some lend, some lcond⟩ body ms → Emits layout bound rest ctx later ns →
      Emits layout bound (.doWhile s cond :: rest) ctx
        (.label lbegin :: .label poll :: body ++ .label lcond :: .expr cond :: branch lend
          ++ .jmp lbegin :: .label lend :: later) (ms ++ ns)
  | switch {bound offset : Nat} {ctx : Context} {s : Stmt} {rest : List Stmt}
      {before chain body later : List Line} {ms ns : List CaseEntry} {cond : Expr} {lend : Label} :
      offset < bound → genChain offset ms = .ok chain →
      (ms.map CaseEntry.value).Nodup →
      Emits layout offset (layout.before s) ctx before [] →
      Emits layout bound (selected [s]) ⟨some lend, ctx.cont⟩ body ms →
      (∀ t k, find t [s] k = find t (selected [s]) k) →
      Emits layout bound rest ctx later ns →
      Emits layout bound (.switch cond s :: rest) ctx
        (.expr cond :: .slotAddress offset :: .storeSlot :: before ++ chain
          ++ .jmp ((defaultLabel ms).getD lend) :: body ++ .label lend :: later) ns
  | case {bound : Nat} {ctx : Context} {s : Stmt} {rest : List Stmt} {later : List Line}
      {ms : List CaseEntry} {value num : Nat} :
      Emits layout bound (s :: rest) ctx later ms →
      Emits layout bound (.case value s :: rest) ctx (.label (.lg num) :: later)
        (⟨some value, num⟩ :: ms)
  | default {bound : Nat} {ctx : Context} {s : Stmt} {rest : List Stmt} {later : List Line}
      {ms : List CaseEntry} {num : Nat} :
      Emits layout bound (s :: rest) ctx later ms →
      Emits layout bound (.default s :: rest) ctx (.label (.lg num) :: later) (⟨none, num⟩ :: ms)
  | label {bound : Nat} {ctx : Context} {s : Stmt} {rest : List Stmt} {later : List Line}
      {ms : List CaseEntry} {name : String} :
      Emits layout bound (s :: rest) ctx later ms →
      Emits layout bound (.label name s :: rest) ctx (.label (.lg (layout.num name)) :: later) ms
  | breakOut {bound : Nat} {ctx : Context} {rest : List Stmt} {later : List Line}
      {ms : List CaseEntry} {l : Label} :
      ctx.brk = some l → Emits layout bound rest ctx later ms →
      Emits layout bound (.breakOut :: rest) ctx (.jmp l :: later) ms
  | continueLoop {bound : Nat} {ctx : Context} {rest : List Stmt} {later : List Line}
      {ms : List CaseEntry} {l : Label} :
      ctx.cont = some l → Emits layout bound rest ctx later ms →
      Emits layout bound (.continueLoop :: rest) ctx (.jmp l :: later) ms
  | goto {bound : Nat} {ctx : Context} {rest : List Stmt} {later : List Line}
      {ms : List CaseEntry} {name : String} {poll : Label} :
      layout.defined name → Emits layout bound rest ctx later ms →
      Emits layout bound (.goto name :: rest) ctx
        (.label poll :: .jmp (.lg (layout.num name)) :: later) ms
  | returnValue {bound : Nat} {ctx : Context} {rest : List Stmt} {later : List Line}
      {ms : List CaseEntry} {e : Option Expr} :
      Emits layout bound rest ctx later ms →
      Emits layout bound (.returnValue e :: rest) ctx
        (valueLines e ++ .comment "return" :: epilogue ++ later) ms

/-- Lines that are left by taking jumps and passing labels only. -/
inductive Silent (code : List Line) : List Line → List Line → Prop
  | refl (lines : List Line) : Silent code lines lines
  | jump {l : Label} {rest middle final : List Line} : target l code = some middle →
      Silent code middle final → Silent code (.jmp l :: rest) final
  | label {l : Label} {rest final : List Line} :
      Silent code rest final → Silent code (.label l :: rest) final

inductive At (layout : Layout) (code : List Line) (slots : Nat → Nat) :
    Nat → Cont → Context → List Line → Prop
  | stop {bound : Nat} {after : List Line} :
      At layout code slots bound .stop ⟨none, none⟩ (epilogue ++ after)
  | seq {bound : Nat} {k : Cont} {ctx : Context} {rest : List Stmt} {start lines after : List Line}
      {ms : List CaseEntry} :
      Silent code start (lines ++ after) → Emits layout bound rest ctx lines ms →
      At layout code slots bound k ctx after → At layout code slots bound (.seq rest k) ctx start
  | whileBody {bound : Nat} {k : Cont} {ctx : Context} {cond : Expr} {s : Stmt}
      {lbegin lend : Label} {loop after : List Line} {ms : List CaseEntry} :
      Emits layout bound [.whileLoop cond s] ctx loop ms → At layout code slots bound k ctx after →
      target lbegin code = some (loop ++ after) → target lend code = some (.label lend :: after) →
      At layout code slots bound (.whileBody cond s k) ⟨some lend, some lbegin⟩
        (.jmp lbegin :: .label lend :: after)
  | forBody {bound : Nat} {k : Cont} {ctx : Context} {cond inc : Option Expr} {s : Stmt}
      {lbegin lcont lend : Label} {loop after : List Line} {ms : List CaseEntry} :
      Emits layout bound [.forLoop none cond inc s] ctx loop ms →
      At layout code slots bound k ctx after →
      target lbegin code = some (loop ++ after) → target lend code = some (.label lend :: after) →
      target lcont code =
        some (.label lcont :: valueLines inc ++ .jmp lbegin :: .label lend :: after) →
      At layout code slots bound (.forBody cond inc s k) ⟨some lend, some lcont⟩
        (.label lcont :: valueLines inc ++ .jmp lbegin :: .label lend :: after)
  | doBody {bound : Nat} {k : Cont} {ctx : Context} {cond : Expr} {s : Stmt}
      {lbegin lcond lend : Label} {loop after : List Line} {ms : List CaseEntry} :
      Emits layout bound [.doWhile s cond] ctx loop ms → At layout code slots bound k ctx after →
      target lbegin code = some (loop ++ after) → target lend code = some (.label lend :: after) →
      target lcond code = some (.label lcond :: .expr cond :: branch lend
        ++ .jmp lbegin :: .label lend :: after) →
      At layout code slots bound (.doBody s cond k) ⟨some lend, some lcond⟩
        (.label lcond :: .expr cond :: branch lend ++ .jmp lbegin :: .label lend :: after)
  | switchBody {bound : Nat} {k : Cont} {ctx : Context} {lend : Label} {after : List Line} :
      At layout code slots bound k ctx after → target lend code = some (.label lend :: after) →
      At layout code slots bound (.switchBody k) ⟨some lend, ctx.cont⟩ (.label lend :: after)
  | select {bound outer offset value : Nat} {k : Cont} {ctx : Context} {s : Stmt} {lend : Label}
      {chain body after : List Line} {ms : List CaseEntry} :
      bound ≤ offset → offset < outer → slots offset = value →
      genChain offset ms = .ok chain →
      (ms.map CaseEntry.value).Nodup →
      Emits layout outer (selected [s]) ⟨some lend, ctx.cont⟩ body ms →
      (∀ t k, find t [s] k = find t (selected [s]) k) →
      At layout code slots outer k ctx after →
      (body ++ .label lend :: after) <:+ code →
      At layout code slots bound (.select value s k) ctx
        (chain ++ .jmp ((defaultLabel ms).getD lend) :: body ++ .label lend :: after)

structure Matches (layout : Layout) (code : List Line) (s : State) (c : Cpu) : Prop where
  history : s.history = c.history
  running : c.returned = false
  inside : c.rest <:+ code
  place : ∃ bound ctx lines after ms, Silent code c.rest (lines ++ after) ∧
    Emits layout bound s.focus ctx lines ms ∧ At layout code c.slots bound s.cont ctx after

end SymphonyPlus.Statements
