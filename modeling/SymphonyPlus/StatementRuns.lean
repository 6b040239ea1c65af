import SymphonyPlus.StatementCorrect

/-! Which function bodies run as C prescribes. What stands in a switch body before its first case is
executed ahead of the selection. -/

namespace SymphonyPlus.Statements

open StutterSimulation

theorem statements_follow {program : List Stmt} (allowed : Allowed program) :
    Follows (fun body => prelude [body]) program ∧
    ((∀ body ∈ bodies program, blank (prelude [body]) = true) → Follows (fun _ => []) program) :=
  ⟨follows _ allowed fun _ _ => .inl rfl,
    fun plain => follows _ allowed fun body inside => .inr ⟨rfl, plain body inside⟩⟩

def condition : Expr := .other 0 0

def first : Expr := .other 1 0

def second : Expr := .other 2 0

/-- `while (condition) switch (condition) { default: continue; case 1: first; }` -/
def retrying : List Stmt :=
  [.whileLoop condition (.switch condition
    (.block [.default .continueLoop, .case 1 (.expr first)]))]

theorem retrying_allowed : Allowed retrying := by
  refine ⟨?_, by decide, by decide⟩
  refine ⟨⟨rfl, by decide, rfl, by decide, by decide, by decide, ?_, ⟨rfl, rfl, rfl⟩, ?_⟩, trivial⟩
  · intro value member
    simp [Stmt.cases, cases] at member
    omega
  · simp [Stmt.Fits, Fits, Place.loop, Place.switch]

/-- `switch (condition) { first; case 1: second; }` -/
def unselected : List Stmt :=
  [.switch condition (.block [.expr first, .case 1 (.expr second)])]

theorem unselected_allowed : Allowed unselected := by
  refine ⟨⟨⟨rfl, by decide, by decide, by decide, ?_, ⟨rfl, rfl, rfl⟩, ?_⟩, trivial⟩, by decide,
    by decide⟩
  · intro value member
    simp [Stmt.cases, cases] at member
    omega
  · exact ⟨trivial, ⟨by decide, trivial⟩, trivial⟩

theorem statements_follow_retrying :
    Follows (fun body => prelude [body]) unselected ∧ Follows (fun _ => []) retrying := by
  refine ⟨(statements_follow unselected_allowed).1, (statements_follow retrying_allowed).2 ?_⟩
  intro body inside
  simp [retrying, bodies, Stmt.bodies] at inside
  rw [inside]
  rfl

def World.zero : World where
  outcome := fun _ => 0
  r2 := fun _ => 0
  r9 := fun _ => 0
  equal := fun _ => false

/-- `switch (condition) { case 0: if (first) case 1: second; }` -/
def caseUnderIf : List Stmt :=
  [.switch condition (.block [.case 0 (.ifThen first (.case 1 (.expr second)))])]

/-- `switch (condition) { break; case 1: second; }` -/
def leavesAtOnce : List Stmt :=
  [.switch condition (.block [.breakOut, .case 1 (.expr second)])]

def loops : Nat → Stmt
  | 0 => .empty
  | n + 1 => .whileLoop condition (loops n)

def start (code : List Line) : Cpu := ⟨code, 0, 0, 0, false, fun _ => 0, false, []⟩

/-- A body whose code ends with other expressions evaluated is not followed. -/
theorem not_follows {before : Stmt → List Stmt} {program : List Stmt} (world : World)
    (due found : List Expr) (differ : due ≠ found)
    (prescribed : Finishes (stmtMachine before world program) ⟨program, .stop, []⟩ due)
    (executed : ∀ code, compileBody 0 0 0 (tokens program ++ [.rbrace]) = some code →
      Finishes (codeMachine world code) (start code) found) :
    ¬ Follows before program := by
  intro follows
  obtain ⟨code, made, same⟩ := follows 0 0 0
  have reached := (same world (start code) rfl rfl rfl due).2.mp prescribed
  exact differ (Finishes.unique reached (executed code made))

theorem not_follows_refused {before : Stmt → List Stmt} {program : List Stmt}
    (refused : compileBody 0 0 0 (tokens program ++ [.rbrace]) = none) :
    ¬ Follows before program := by
  intro follows
  obtain ⟨code, made, -⟩ := follows 0 0 0
  rw [refused] at made
  cases made

theorem unselected_differs : ¬ Follows (fun _ => []) unselected := by
  refine not_follows World.zero [condition] [condition, first] (by decide) ?_ ?_
  · exact ⟨3, ⟨[], .stop, [condition]⟩, .head rfl (.head rfl (.head rfl (.refl _))), ⟨rfl, rfl⟩, rfl⟩
  · intro code made
    obtain ⟨code', made', same⟩ := follows (fun body => prelude [body]) unselected_allowed
      (fun _ _ => .inl rfl) 0 0 0
    rw [made] at made'
    obtain rfl := Option.some.inj made'
    refine (same World.zero (start code) rfl rfl rfl _).2.mp
      ⟨6, ⟨[], .stop, [condition, first]⟩, ?_, ⟨rfl, rfl⟩, rfl⟩
    exact .head rfl (.head rfl (.head rfl (.head rfl (.head rfl (.head rfl (.refl _))))))

theorem caseUnderIf_differs : ¬ Follows (fun _ => []) caseUnderIf := by
  refine not_follows World.zero [condition, first] [condition, first, second] (by decide) ?_ ?_
  · refine ⟨7, ⟨[], .stop, [condition, first]⟩, ?_, ⟨rfl, rfl⟩, rfl⟩
    exact .head rfl (.head rfl (.head rfl (.head rfl (.head rfl (.head rfl (.head rfl (.refl _)))))))
  · intro code made
    obtain rfl : [.label (.poll 0), .expr condition, .slotAddress 4, .storeSlot, .slotAddress 4,
        .loadSlot, .movR2 0, .cmp, .je (.lg 0), .slotAddress 4, .loadSlot, .movR2 1, .cmp,
        .je (.lg 1), .jmp (.l 1), .label (.lg 0), .expr first, .movR2 0, .cmp, .je (.l 2),
        .label (.lg 1), .label (.l 2), .expr second, .label (.l 1), .movSp, .popFrame, .ret] = code :=
      Option.some.inj (Eq.trans rfl made)
    refine ⟨20, ⟨[], 0, 0, 0, false, fun o => if o = 4 then 0 else 0, true,
      [condition, first, second]⟩, ?_, rfl, rfl⟩
    repeat (first | exact .refl _ | refine .head rfl ?_)

/-- Statements ahead of the first case are executed; a case that is the body of another statement loses
its own statement; the 65th target and a `break` ahead of the first case leave the arrays. -/
theorem statements_not_followed : ¬ Follows (fun _ => []) unselected ∧
    ¬ Follows (fun _ => []) caseUnderIf ∧ ¬ Follows (fun _ => []) [loops 65] ∧
    ¬ Follows (fun _ => []) leavesAtOnce :=
  ⟨unselected_differs, caseUnderIf_differs, not_follows_refused (by decide +kernel),
    not_follows_refused (by decide +kernel)⟩

end SymphonyPlus.Statements
