import Mathlib.Logic.Relation
import SymphonyPlus.ExpressionMeaning

/-!
Execution of the code of expressions. A jump goes to the line behind its label in the program.
-/

namespace SymphonyPlus

open ByteMemory BitRanges

structure Core where
  work : Work
  lastA : BitVec 32
  lastB : BitVec 32

variable {α : Type}

structure Outside (α : Type) where
  call : α → Work → Option Work
  runtime : Runtime → Work → Option Work

structure Host (α : Type) where
  ram : Ram
  outside : Outside α
  program : List (CodeLine α)

def behindLabel (n : Nat) : List (CodeLine α) → Option (List (CodeLine α))
  | [] => none
  | .label m :: rest => if m = n then some rest else behindLabel n rest
  | _ :: rest => behindLabel n rest

def Host.step (host : Host α) : List (CodeLine α) × Core → Option (List (CodeLine α) × Core)
  | ([], _) => none
  | (.op operation :: rest, core) =>
      (operation.work host.ram core.work).map fun work => (rest, { core with work })
  | (.compare left right :: rest, core) =>
      some (rest, ⟨core.work, core.work.regs left, core.work.regs right⟩)
  | (.label _ :: rest, core) => some (rest, core)
  | (.jump n :: _, core) => (behindLabel n host.program).map fun rest => (rest, core)
  | (.jumpIf condition n :: rest, core) =>
      if condition.holds core.lastA core.lastB then
        (behindLabel n host.program).map fun rest => (rest, core)
      else some (rest, core)
  | (.call which :: rest, core) =>
      (host.outside.call which core.work).map fun work => (rest, { core with work })
  | (.runtime which :: rest, core) =>
      (host.outside.runtime which core.work).map fun work => (rest, { core with work })

def Host.Reaches (host : Host α) : List (CodeLine α) × Core → List (CodeLine α) × Core → Prop :=
  Relation.ReflTransGen fun first second => host.step first = some second

theorem Host.reaches_step {host : Host α} {first second third : List (CodeLine α) × Core}
    (step : host.step first = some second) (later : host.Reaches second third) :
    host.Reaches first third :=
  .head step later

def codeLabels (code : List (CodeLine α)) : List Nat :=
  code.filterMap fun line => match line with
    | .label n => some n
    | _ => none

@[simp] theorem codeLabels_append (first second : List (CodeLine α)) :
    codeLabels (first ++ second) = codeLabels first ++ codeLabels second :=
  List.filterMap_append

@[simp] theorem codeLabels_label (n : Nat) (rest : List (CodeLine α)) :
    codeLabels (.label n :: rest) = n :: codeLabels rest := rfl

theorem behindLabel_of_unique {n : Nat} {before after : List (CodeLine α)}
    (unique : (codeLabels (before ++ .label n :: after)).Nodup) :
    behindLabel n (before ++ .label n :: after) = some after := by
  rw [codeLabels_append, codeLabels_label, List.nodup_append] at unique
  have fresh : n ∉ codeLabels before := fun member =>
    unique.2.2 n member n List.mem_cons_self rfl
  clear unique
  induction before with
  | nil => exact if_pos rfl
  | cons line before ih =>
      cases line with
      | label m =>
          rw [codeLabels_label, List.mem_cons, not_or] at fresh
          rw [List.cons_append, behindLabel, if_neg (Ne.symm fresh.1)]
          exact ih fresh.2
      | _ => exact ih fresh

theorem Host.finds {host : Host α} (unique : (codeLabels host.program).Nodup) (n : Nat)
    (before after : List (CodeLine α)) (place : host.program = before ++ .label n :: after) :
    behindLabel n host.program = some after := by
  rw [place] at unique ⊢
  exact behindLabel_of_unique unique

/-- The emitted code takes the first state to the second, wherever it stands in the program. -/
def Does (host : Host α) (code : Emit α) (first second : Core) : Prop :=
  ∀ next lines next', code next = some (lines, next') → ∀ before after,
    host.program = before ++ (lines ++ after) → host.Reaches (lines ++ after, first) (after, second)

structure Placed (host : Host α) (code : Emit α) where
  next : Nat
  next' : Nat
  before : List (CodeLine α)
  lines : List (CodeLine α)
  after : List (CodeLine α)
  emitted : code next = some (lines, next')
  place : host.program = before ++ (lines ++ after)

variable {host : Host α}

/-- The code runs from its first line to the line behind it. -/
def Placed.Runs {code : Emit α} (placed : Placed host code) (first second : Core) : Prop :=
  host.Reaches (placed.lines ++ placed.after, first) (placed.after, second)

theorem Does.runs {code : Emit α} {first second : Core} (does : Does host code first second)
    (placed : Placed host code) : placed.Runs first second :=
  does placed.next placed.lines placed.next' placed.emitted placed.before placed.after placed.place

theorem Emit.append_some {first second : Emit α} {next next' : Nat} {lines : List (CodeLine α)}
    (emitted : (first ++ second) next = some (lines, next')) :
    ∃ lines₁ middle lines₂, first next = some (lines₁, middle) ∧
      second middle = some (lines₂, next') ∧ lines = lines₁ ++ lines₂ := by
  obtain ⟨⟨lines₁, middle⟩, one, rest⟩ := Option.bind_eq_some_iff.mp emitted
  obtain ⟨⟨lines₂, next₂⟩, two, same⟩ := Option.map_eq_some_iff.mp rest
  cases same
  exact ⟨lines₁, middle, lines₂, one, two, rfl⟩

theorem Does.append {first second : Emit α} {one two three : Core}
    (left : Does host first one two) (right : Does host second two three) :
    Does host (first ++ second) one three := by
  intro next lines next' emitted before after place
  obtain ⟨lines₁, middle, lines₂, isFirst, isSecond, rfl⟩ := Emit.append_some emitted
  rw [List.append_assoc] at place ⊢
  refine Relation.ReflTransGen.trans (left next lines₁ middle isFirst before _ place) ?_
  exact right middle lines₂ next' isSecond (before ++ lines₁) after (by rw [place, List.append_assoc])

section Reaching

variable {rest : List (CodeLine α)} {core : Core} {final : List (CodeLine α) × Core}

theorem reaches_op {operation : Operation} {work : Work}
    (done : operation.work host.ram core.work = some work)
    (later : host.Reaches (rest, { core with work }) final) :
    host.Reaches (.op operation :: rest, core) final :=
  host.reaches_step (by rw [Host.step, done]; rfl) later

theorem reaches_compare {left right : Fin 16}
    (later : host.Reaches (rest, ⟨core.work, core.work.regs left, core.work.regs right⟩) final) :
    host.Reaches (.compare left right :: rest, core) final :=
  host.reaches_step rfl later

theorem reaches_label {n : Nat} (later : host.Reaches (rest, core) final) :
    host.Reaches (.label n :: rest, core) final :=
  host.reaches_step rfl later

theorem reaches_jump {n : Nat} {behind : List (CodeLine α)}
    (found : behindLabel n host.program = some behind) (later : host.Reaches (behind, core) final) :
    host.Reaches (.jump n :: rest, core) final :=
  host.reaches_step (by rw [Host.step, found]; rfl) later

theorem reaches_taken {condition : Condition} {n : Nat} {behind : List (CodeLine α)}
    (holds : condition.holds core.lastA core.lastB = true)
    (found : behindLabel n host.program = some behind) (later : host.Reaches (behind, core) final) :
    host.Reaches (.jumpIf condition n :: rest, core) final :=
  host.reaches_step (by rw [Host.step, if_pos holds, found]; rfl) later

theorem reaches_passed {condition : Condition} {n : Nat}
    (fails : condition.holds core.lastA core.lastB = false) (later : host.Reaches (rest, core) final) :
    host.Reaches (.jumpIf condition n :: rest, core) final :=
  host.reaches_step (by rw [Host.step, if_neg (Bool.eq_false_iff.mp fails)]) later

theorem reaches_runtime {which : Runtime} {work : Work}
    (done : host.outside.runtime which core.work = some work)
    (later : host.Reaches (rest, { core with work }) final) :
    host.Reaches (.runtime which :: rest, core) final :=
  host.reaches_step (by rw [Host.step, done]; rfl) later

end Reaching

theorem does_nothing (core : Core) : Does host (emit []) core core := by
  rintro next lines next' ⟨⟩ before after -
  exact .refl

theorem reaches_operations {operations : List Operation} {core : Core} {work : Work}
    (done : runCode host.ram operations core.work = some work) (after : List (CodeLine α)) :
    host.Reaches (operations.map CodeLine.op ++ after, core) (after, { core with work }) := by
  induction operations generalizing core with
  | nil =>
      cases done
      exact .refl
  | cons operation operations ih =>
      rw [runCode_cons] at done
      obtain ⟨middle, first, rest⟩ := Option.bind_eq_some_iff.mp done
      exact host.reaches_step (by rw [List.map_cons, List.cons_append, Host.step, first]; rfl)
        (@ih { core with work := middle } rest)

theorem does_lines {operations : List Operation} {core : Core} {work : Work}
    (done : runCode host.ram operations core.work = some work) :
    Does host (emit (operations.map .op)) core { core with work } := by
  rintro next lines next' ⟨⟩ before after -
  exact reaches_operations done after

theorem does_ops {operations : Option (List Operation)} {core : Core} {work : Work}
    (done : ∀ code, operations = some code → runCode host.ram code core.work = some work) :
    Does host (emitOps operations) core { core with work } := by
  intro next lines next' emitted before after _
  obtain ⟨code, isCode, same⟩ := Option.map_eq_some_iff.mp emitted
  cases same
  exact reaches_operations (done code isCode) after

theorem does_op {operation : Operation} {core : Core} {work : Work}
    (done : operation.work host.ram core.work = some work) :
    Does host (emitOp operation) core { core with work } :=
  @does_lines _ _ [operation] _ _ (by rw [runCode_cons, done]; rfl)

end SymphonyPlus
