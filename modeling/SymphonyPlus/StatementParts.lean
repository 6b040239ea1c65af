import SymphonyPlus.StatementNumbers

/-! The two parts of a switch body, in the syntax, in the parser and in the code generator, and the
labels of generated code. -/

namespace SymphonyPlus.Statements

/-! A switch body in its two parts. -/

theorem front_induction {motive : List Stmt → Prop} (nil : motive [])
    (skip : ∀ s rest, s.marked = false → motive rest → motive (s :: rest))
    (block : ∀ items rest, marked items = true → motive items → motive (.block items :: rest))
    (case : ∀ value s rest, motive (.case value s :: rest))
    (default : ∀ s rest, motive (.default s :: rest)) (ss : List Stmt) : motive ss := by
  induction ss using stmts_induction with
  | nil => exact nil
  | block items rest ihItems ihRest =>
      cases inside : marked items with
      | false => exact skip _ _ inside ihRest
      | true => exact block _ _ inside ihItems
  | case value s rest _ _ => exact case _ _ _
  | default s rest _ _ => exact default _ _
  | empty rest ih => exact skip _ _ rfl ih
  | expr e rest ih => exact skip _ _ rfl ih
  | ifThen cond s rest _ ih => exact skip _ _ rfl ih
  | ifElse cond s o rest _ _ ih => exact skip _ _ rfl ih
  | whileLoop cond s rest _ ih => exact skip _ _ rfl ih
  | forLoop init test inc s rest _ ih => exact skip _ _ rfl ih
  | doWhile s cond rest _ ih => exact skip _ _ rfl ih
  | «switch» cond s rest _ _ _ ih => exact skip _ _ rfl ih
  | label name s rest _ ih _ => exact skip _ _ rfl ih
  | breakOut rest ih => exact skip _ _ rfl ih
  | continueLoop rest ih => exact skip _ _ rfl ih
  | goto name rest ih => exact skip _ _ rfl ih
  | returnValue e rest ih => exact skip _ _ rfl ih

theorem prelude_skip {s : Stmt} {rest : List Stmt} (unmarked : s.marked = false) :
    prelude (s :: rest) = s :: prelude rest := by
  simp [prelude, unmarked]

theorem selected_skip {s : Stmt} {rest : List Stmt} (unmarked : s.marked = false) :
    selected (s :: rest) = selected rest := by
  simp [selected, unmarked]

theorem prelude_block {items rest : List Stmt} (inside : marked items = true) :
    prelude (.block items :: rest) = [.block (prelude items)] := by
  simp [prelude, Stmt.marked, inside, Stmt.prelude]

theorem selected_block {items rest : List Stmt} (inside : marked items = true) :
    selected (.block items :: rest) = .block (selected items) :: rest := by
  simp [selected, Stmt.marked, inside, Stmt.selected]

@[simp] theorem prelude_case (value : Nat) (s : Stmt) (rest : List Stmt) :
    prelude (.case value s :: rest) = [] := rfl

@[simp] theorem prelude_default (s : Stmt) (rest : List Stmt) :
    prelude (.default s :: rest) = [] := rfl

@[simp] theorem selected_case (value : Nat) (s : Stmt) (rest : List Stmt) :
    selected (.case value s :: rest) = .case value s :: rest := rfl

@[simp] theorem selected_default (s : Stmt) (rest : List Stmt) :
    selected (.default s :: rest) = .default s :: rest := rfl

theorem build_split (ss : List Stmt) : ∀ p : Parser, build ss p =
    ((build (prelude ss) p).1 ++ (build (selected ss) (build (prelude ss) p).2).1,
      (build (selected ss) (build (prelude ss) p).2).2) := by
  induction ss using front_induction with
  | nil => exact fun p => rfl
  | skip s rest unmarked ih =>
      intro p
      simp [prelude_skip unmarked, selected_skip unmarked, build, ih (s.build p).2]
  | block items rest inside ih =>
      intro p
      simp [prelude_block inside, selected_block inside, build, Stmt.build, ih p]
  | case value s rest => exact fun p => by simp [build]
  | default s rest => exact fun p => by simp [build]

theorem cases_split (ss : List Stmt) : cases ss = cases (prelude ss) ++ cases (selected ss) := by
  induction ss using front_induction with
  | nil => rfl
  | skip s rest unmarked ih => simp [prelude_skip unmarked, selected_skip unmarked, cases, ih]
  | block items rest inside ih =>
      simp [prelude_block inside, selected_block inside, cases, Stmt.cases, ih]
  | case value s rest => simp [cases]
  | default s rest => simp [cases]

theorem gotos_split (ss : List Stmt) : gotos ss = gotos (prelude ss) ++ gotos (selected ss) := by
  induction ss using front_induction with
  | nil => rfl
  | skip s rest unmarked ih => simp [prelude_skip unmarked, selected_skip unmarked, gotos, ih]
  | block items rest inside ih =>
      simp [prelude_block inside, selected_block inside, gotos, Stmt.gotos, ih]
  | case value s rest => simp [gotos]
  | default s rest => simp [gotos]

theorem bodies_split (ss : List Stmt) : bodies ss = bodies (prelude ss) ++ bodies (selected ss) := by
  induction ss using front_induction with
  | nil => rfl
  | skip s rest unmarked ih => simp [prelude_skip unmarked, selected_skip unmarked, bodies, ih]
  | block items rest inside ih =>
      simp [prelude_block inside, selected_block inside, bodies, Stmt.bodies, ih]
  | case value s rest => simp [bodies]
  | default s rest => simp [bodies]

theorem fits_split (place : Place) (ss : List Stmt) :
    Fits place ss ↔ Fits place (prelude ss) ∧ Fits place (selected ss) := by
  induction ss using front_induction with
  | nil => simp [prelude, selected, Fits]
  | skip s rest unmarked ih =>
      simp [prelude_skip unmarked, selected_skip unmarked, Fits, ih, and_assoc]
  | block items rest inside ih =>
      simp [prelude_block inside, selected_block inside, Fits, Stmt.Fits, ih, and_assoc]
  | case value s rest => simp [Fits]
  | default s rest => simp [Fits]

def Lacks (t : Target) (s : Stmt) : Prop :=
  (t.isLabel = true → s.labels = []) ∧ (t.isLabel = false → s.cases = [])

def Hides (t : Target) (s : Stmt) : Prop := ∀ rest k, s.find t rest k = none

theorem find_hidden {t : Target} {ss : List Stmt} (hidden : ∀ s ∈ ss, Hides t s) (k : Cont) :
    find t ss k = none := by
  induction ss with
  | nil => rfl
  | cons s rest ih =>
      rw [find_cons_eq, hidden s List.mem_cons_self, Option.none_or]
      exact ih fun s member => hidden s (List.mem_cons_of_mem _ member)

theorem lacks_list {t : Target} {ss : List Stmt} (noLabels : t.isLabel = true → labels ss = [])
    (noCases : t.isLabel = false → cases ss = []) : ∀ s ∈ ss, Lacks t s := by
  induction ss with
  | nil => exact nofun
  | cons s rest ih =>
      simp only [labels, cases, List.append_eq_nil_iff] at noLabels noCases
      intro x member
      rcases List.mem_cons.mp member with rfl | member
      · exact ⟨fun h => (noLabels h).1, fun h => (noCases h).1⟩
      · exact ih (fun h => (noLabels h).2) (fun h => (noCases h).2) x member

/-- A statement without labels of its kind hides every target. -/
theorem hides {t : Target} (ss : List Stmt) : ∀ s ∈ ss, Lacks t s → Hides t s := by
  have more : ∀ {s : Stmt} {rest : List Stmt}, (Lacks t s → Hides t s) →
      (∀ s ∈ rest, Lacks t s → Hides t s) → ∀ x ∈ s :: rest, Lacks t x → Hides t x := by
    intro s rest here later x member
    rcases List.mem_cons.mp member with rfl | member
    · exact here
    · exact later x member
  induction ss using stmts_induction with
  | nil => exact nofun
  | empty rest ih => exact more (fun _ _ _ => rfl) ih
  | expr e rest ih => exact more (fun _ _ _ => rfl) ih
  | block items rest ihItems ihRest =>
      refine more (fun lacks _ _ => ?_) ihRest
      exact find_hidden (fun s member => ihItems s member (lacks_list lacks.1 lacks.2 s member)) _
  | ifThen cond s rest ihBody ihRest =>
      exact more (fun lacks _ _ => ihBody s List.mem_cons_self lacks _ _) ihRest
  | ifElse cond s o rest ihBody ihOther ihRest =>
      refine more (fun lacks _ _ => ?_) ihRest
      simp only [Lacks, Stmt.labels, Stmt.cases, List.append_eq_nil_iff] at lacks
      rw [Stmt.find,
        ihBody s List.mem_cons_self ⟨fun h => (lacks.1 h).1, fun h => (lacks.2 h).1⟩,
        ihOther o List.mem_cons_self ⟨fun h => (lacks.1 h).2, fun h => (lacks.2 h).2⟩, Option.none_or]
  | whileLoop cond s rest ihBody ihRest =>
      exact more (fun lacks _ _ => ihBody s List.mem_cons_self lacks _ _) ihRest
  | forLoop init test inc s rest ihBody ihRest =>
      exact more (fun lacks _ _ => ihBody s List.mem_cons_self lacks _ _) ihRest
  | doWhile s cond rest ihBody ihRest =>
      exact more (fun lacks _ _ => ihBody s List.mem_cons_self lacks _ _) ihRest
  | «switch» cond s rest ihBody _ _ ihRest =>
      refine more (fun lacks _ _ => ?_) ihRest
      rw [Stmt.find]
      split
      · rename_i isLabel
        exact ihBody s List.mem_cons_self ⟨lacks.1, fun h => by simp [isLabel] at h⟩ _ _
      · rfl
  | case value s rest _ ih =>
      refine more (fun lacks rest k => ?_) fun s member => ih s (List.mem_cons_of_mem _ member)
      have other : t ≠ .case value := fun same => by simpa [same, Target.isLabel, Stmt.cases] using lacks.2
      rw [Stmt.find, if_neg other]
      exact ih s List.mem_cons_self ⟨lacks.1, fun h => by simpa [Stmt.cases] using lacks.2 h⟩ _ _
  | default s rest _ ih =>
      refine more (fun lacks rest k => ?_) fun s member => ih s (List.mem_cons_of_mem _ member)
      have other : t ≠ .default := fun same => by simpa [same, Target.isLabel, Stmt.cases] using lacks.2
      rw [Stmt.find, if_neg other]
      exact ih s List.mem_cons_self ⟨lacks.1, fun h => by simpa [Stmt.cases] using lacks.2 h⟩ _ _
  | label name s rest ihBody ihRest _ =>
      refine more (fun lacks rest k => ?_) ihRest
      have other : t ≠ .label name := fun same => by simpa [same, Target.isLabel, Stmt.labels] using lacks.1
      rw [Stmt.find, if_neg other]
      exact ihBody s List.mem_cons_self ⟨fun h => by simpa [Stmt.labels] using lacks.1 h, lacks.2⟩ _ _
  | breakOut rest ih => exact more (fun _ _ _ => rfl) ih
  | continueLoop rest ih => exact more (fun _ _ _ => rfl) ih
  | goto name rest ih => exact more (fun _ _ _ => rfl) ih
  | returnValue e rest ih => exact more (fun _ _ _ => rfl) ih

/-- Nothing is found before the first case label when there is no label. -/
theorem find_selected (t : Target) (ss : List Stmt) : labels (prelude ss) = [] →
    cases (prelude ss) = [] → ∀ k, find t ss k = find t (selected ss) k := by
  induction ss using front_induction with
  | nil => exact fun _ _ _ => rfl
  | skip s rest unmarked ih =>
      intro noLabels noCases k
      rw [prelude_skip unmarked, labels, List.append_eq_nil_iff] at noLabels
      rw [prelude_skip unmarked, cases, List.append_eq_nil_iff] at noCases
      have hidden : Hides t s :=
        hides [s] s List.mem_cons_self ⟨fun _ => noLabels.1, fun _ => noCases.1⟩
      rw [selected_skip unmarked, find_cons_eq, hidden, Option.none_or, ih noLabels.2 noCases.2]
  | block items rest inside ih =>
      intro noLabels noCases k
      rw [prelude_block inside] at noLabels noCases
      rw [selected_block inside, find_cons_eq, find_cons_eq, Stmt.find, Stmt.find,
        ih (by simpa [labels, Stmt.labels] using noLabels) (by simpa [cases, Stmt.cases] using noCases)]
  | case value s rest => exact fun _ _ _ => rfl
  | default s rest => exact fun _ _ _ => rfl

/-- Every label of a statement list can be found from outside. -/
theorem find_label {name : String} (ss : List Stmt) : name ∈ labels ss →
    ∀ k, (find (.label name) ss k).isSome := by
  have inside : ∀ {s : Stmt}, (name ∈ labels [s] → ∀ k, (find (.label name) [s] k).isSome) →
      name ∈ s.labels → ∀ {k : Cont}, (s.find (.label name) [] k).isSome := by
    intro s single member k
    simpa using single (by simpa [labels] using member) k
  induction ss using stmts_induction with
  | nil => exact fun member => absurd member List.not_mem_nil
  | empty rest ih => exact fun member k => ih member k
  | expr e rest ih => exact fun member k => ih member k
  | block items rest ihItems ihRest =>
      intro member k
      rw [find_cons_eq, Stmt.find, Option.isSome_or, Bool.or_eq_true]
      exact (List.mem_append.mp member).imp (ihItems · _) (ihRest · _)
  | ifThen cond s rest ihBody ihRest =>
      intro member k
      rw [find_cons_eq, Stmt.find, Option.isSome_or, Bool.or_eq_true]
      exact (List.mem_append.mp member).imp (inside ihBody ·) (ihRest · _)
  | ifElse cond s o rest ihBody ihOther ihRest =>
      intro member k
      rw [find_cons_eq, Stmt.find, Option.isSome_or, Option.isSome_or, Bool.or_eq_true,
        Bool.or_eq_true]
      refine (List.mem_append.mp member).imp (fun inBranches => ?_) (ihRest · _)
      exact (List.mem_append.mp inBranches).imp (inside ihBody ·) (inside ihOther ·)
  | whileLoop cond s rest ihBody ihRest =>
      intro member k
      rw [find_cons_eq, Stmt.find, Option.isSome_or, Bool.or_eq_true]
      exact (List.mem_append.mp member).imp (inside ihBody ·) (ihRest · _)
  | forLoop init test inc s rest ihBody ihRest =>
      intro member k
      rw [find_cons_eq, Stmt.find, Option.isSome_or, Bool.or_eq_true]
      exact (List.mem_append.mp member).imp (inside ihBody ·) (ihRest · _)
  | doWhile s cond rest ihBody ihRest =>
      intro member k
      rw [find_cons_eq, Stmt.find, Option.isSome_or, Bool.or_eq_true]
      exact (List.mem_append.mp member).imp (inside ihBody ·) (ihRest · _)
  | «switch» cond s rest ihBody _ _ ihRest =>
      intro member k
      rw [find_cons_eq, Stmt.find, if_pos (show (Target.label name).isLabel = true from rfl),
        Option.isSome_or, Bool.or_eq_true]
      exact (List.mem_append.mp member).imp (inside ihBody ·) (ihRest · _)
  | case value s rest _ ih =>
      intro member k
      rw [find_cons_eq, Stmt.find, if_neg (by simp), ← find_cons_eq]
      exact ih member k
  | default s rest _ ih =>
      intro member k
      rw [find_cons_eq, Stmt.find, if_neg (by simp), ← find_cons_eq]
      exact ih member k
  | label own s rest _ _ ih =>
      intro member k
      rw [find_cons_eq, Stmt.find]
      split
      · rfl
      · rename_i other
        rw [← find_cons_eq]
        refine ih ?_ k
        rcases List.mem_cons.mp member with rfl | later
        · exact absurd rfl other
        · exact later
  | breakOut rest ih => exact fun member k => ih member k
  | continueLoop rest ih => exact fun member k => ih member k
  | goto own rest ih => exact fun member k => ih member k
  | returnValue e rest ih => exact fun member k => ih member k

/-! The parts of a switch body as the code generator sees them. -/

def Node.isMark : Node → Bool
  | .ndCase _ _ => true
  | .ndDefault _ => true
  | _ => false

theorem build_unmarked (ss : List Stmt) : marked ss = false →
    ∀ p : Parser, ∀ n ∈ (build ss p).1, n.isMark = false := by
  have more : ∀ {s : Stmt} {rest : List Stmt},
      (s.marked = false → ∀ p : Parser, ∀ n ∈ (s.build p).1, n.isMark = false) →
      (marked rest = false → ∀ p : Parser, ∀ n ∈ (build rest p).1, n.isMark = false) →
      marked (s :: rest) = false → ∀ p : Parser, ∀ n ∈ (build (s :: rest) p).1, n.isMark = false := by
    intro s rest here later unmarked p n member
    rw [marked, Bool.or_eq_false_iff] at unmarked
    rcases List.mem_append.mp member with first | second
    · exact here unmarked.1 p n first
    · exact later unmarked.2 _ n second
  have only : ∀ {m : Node}, m.isMark = false → ∀ n ∈ [m], n.isMark = false := by
    intro m plain n member
    rwa [List.mem_singleton.mp member]
  induction ss using stmts_induction with
  | nil => exact fun _ _ => nofun
  | empty rest ih => exact more (fun _ _ => nofun) ih
  | expr e rest ih => exact more (fun _ _ => only rfl) ih
  | block items rest ihItems ihRest => exact more ihItems ihRest
  | ifThen cond s rest _ ih => exact more (fun _ _ => only rfl) ih
  | ifElse cond s o rest _ _ ih => exact more (fun _ _ => only rfl) ih
  | whileLoop cond s rest _ ih => exact more (fun _ _ => only rfl) ih
  | forLoop init test inc s rest _ ih => exact more (fun _ _ => only rfl) ih
  | doWhile s cond rest _ ih => exact more (fun _ _ => only rfl) ih
  | «switch» cond s rest _ _ _ ih => exact more (fun _ _ => only rfl) ih
  | case value s rest _ _ => exact fun unmarked => by cases unmarked
  | default s rest _ _ => exact fun unmarked => by cases unmarked
  | label name s rest _ ih _ => exact more (fun _ _ => only rfl) ih
  | breakOut rest ih => exact more (fun _ _ => only rfl) ih
  | continueLoop rest ih => exact more (fun _ _ => only rfl) ih
  | goto name rest ih => exact more (fun _ _ => only rfl) ih
  | returnValue e rest ih => exact more (fun _ _ => only rfl) ih

theorem build_prelude (ss : List Stmt) : ∀ p : Parser,
    ∀ n ∈ (build (prelude ss) p).1, n.isMark = false := by
  induction ss using front_induction with
  | nil => exact fun p => nofun
  | skip s rest unmarked ih =>
      intro p n member
      rw [prelude_skip unmarked] at member
      rcases List.mem_append.mp member with first | second
      · exact build_unmarked [s] (by simp [marked, unmarked]) p n (by simpa using first)
      · exact ih _ n second
  | block items rest inside ih =>
      intro p n member
      rw [prelude_block inside] at member
      exact ih p n (by simpa [build, Stmt.build] using member)
  | case value s rest => exact fun p => nofun
  | default s rest => exact fun p => nofun

theorem selected_unmarked (ss : List Stmt) (unmarked : marked ss = false) : selected ss = [] := by
  induction ss with
  | nil => rfl
  | cons s rest ih =>
      rw [marked, Bool.or_eq_false_iff] at unmarked
      rw [selected_skip unmarked.1, ih unmarked.2]

theorem build_selected (ss : List Stmt) : marked ss = true → ∀ p : Parser,
    ∃ n rest, (build (selected ss) p).1 = n :: rest ∧ n.isMark = true := by
  induction ss using front_induction with
  | nil => exact nofun
  | skip s rest unmarked ih =>
      intro some_ p
      rw [marked, unmarked, Bool.false_or] at some_
      rw [selected_skip unmarked]
      exact ih some_ p
  | block items rest inside ih =>
      intro _ p
      obtain ⟨n, more, shape, mark⟩ := ih inside p
      refine ⟨n, more ++ (build rest (build (selected items) p).2).1, ?_, mark⟩
      rw [selected_block inside, build, Stmt.build, shape]
      rfl
  | case value s rest => exact fun _ p => ⟨_, _, rfl, rfl⟩
  | default s rest => exact fun _ p => ⟨_, _, rfl, rfl⟩

theorem genStmts_append (first second : List Node) (brk cont : List Label) (count : Nat) :
    genStmts (first ++ second) brk cont count = (genStmts first brk cont count).bind fun one =>
      (genStmts second brk cont one.2).bind fun two => .ok (one.1 ++ two.1, two.2) := by
  induction first generalizing count with
  | nil =>
      rw [List.nil_append, genStmts]
      simp only [Except.bind]
      cases genStmts second brk cont count <;> rfl
  | cons n first ih =>
      rw [List.cons_append, genStmts, genStmts]
      simp only [Bind.bind, Except.bind, Pure.pure, Except.pure]
      cases genStmt n brk cont count with
      | error failure => rfl
      | ok one =>
          simp only [ih, Except.bind]
          cases genStmts first brk cont one.2 with
          | error failure => rfl
          | ok two =>
              simp only
              cases genStmts second brk cont two.2 with
              | error failure => rfl
              | ok three => simp

theorem genPrelude_append {front : List Node} (plain : ∀ n ∈ front, n.isMark = false)
    {back : List Node} (marks : back = [] ∨ ∃ n rest, back = n :: rest ∧ n.isMark = true)
    (brk cont : List Label) (count : Nat) :
    genPrelude (front ++ back) brk cont count = genStmts front brk cont count := by
  induction front generalizing count with
  | nil =>
      rcases marks with rfl | ⟨n, rest, rfl, mark⟩
      · rfl
      · cases n <;> first | rfl | cases mark
  | cons n front ih =>
      have later := ih (fun m member => plain m (List.mem_cons_of_mem _ member))
      have here := plain n List.mem_cons_self
      rw [List.cons_append, genStmts]
      cases n
      case ndCase => cases here
      case ndDefault => cases here
      all_goals
        simp only [genPrelude, Bind.bind, later]

theorem genLabelled_append {front : List Node} (plain : ∀ n ∈ front, n.isMark = false)
    {back : List Node} (marks : back = [] ∨ ∃ n rest, back = n :: rest ∧ n.isMark = true)
    (brk cont : List Label) (count : Nat) :
    genLabelled (front ++ back) brk cont count = genStmts back brk cont count := by
  induction front with
  | nil =>
      rcases marks with rfl | ⟨n, rest, rfl, mark⟩
      · rfl
      · cases n <;> first | rfl | cases mark
  | cons n front ih =>
      have later := ih (fun m member => plain m (List.mem_cons_of_mem _ member))
      have here := plain n List.mem_cons_self
      rw [List.cons_append]
      cases n
      case ndCase => cases here
      case ndDefault => cases here
      all_goals
        simp only [genLabelled, later]

theorem blank_build (ss : List Stmt) : blank ss = true → ∀ p : Parser, (build ss p).1 = [] := by
  induction ss using stmts_induction with
  | nil => exact fun _ _ => rfl
  | empty rest ih => exact ih
  | block items rest ihItems ihRest =>
      intro empty p
      rw [blank, Stmt.blank, Bool.and_eq_true] at empty
      rw [build, Stmt.build, ihItems empty.1, ihRest empty.2, List.nil_append]
  | _ => intro empty; simp [blank, Stmt.blank] at empty

theorem genChain_ok (offset : Nat) {ms : List CaseEntry}
    (small : ∀ value, some value ∈ ms.map CaseEntry.value → value ≤ 0xFFFFFFFF) :
    ∃ chain, genChain offset ms = .ok chain ∧ definedLabels chain = [] := by
  induction ms with
  | nil => exact ⟨[], rfl, rfl⟩
  | cons e ms ih =>
      obtain ⟨later, chained, plain⟩ := ih fun value member => small value (List.mem_cons_of_mem _ member)
      obtain ⟨_ | value, num⟩ := e
      · exact ⟨later, chained, plain⟩
      have bound : ¬ 0xFFFFFFFF < value := Nat.not_lt.mpr (small value List.mem_cons_self)
      obtain ⟨constant, number, unlabelled⟩ : ∃ constant, genNumReg value = .ok constant ∧
          definedLabels constant = [] := by
        rw [genNumReg, if_neg bound]
        split
        · split
          · exact ⟨_, rfl, rfl⟩
          · exact ⟨_, rfl, rfl⟩
        · exact ⟨_, rfl, rfl⟩
      refine ⟨[.slotAddress offset, .loadSlot] ++ constant ++ [.cmp, .je (.lg num)] ++ later, ?_, ?_⟩
      · rw [genChain, number, chained]
        rfl
      · rw [definedLabels_append, definedLabels_append, definedLabels_append, unlabelled, plain]
        rfl

/-! The labels in generated code: numbered ones as the nodes say, counted ones each once. -/

def Label.number : Label → Option Nat
  | .lg num => some num
  | _ => none

def Label.counter : Label → Option Nat
  | .l num => some num
  | .poll num => some num
  | .lg _ => none

structure Counted (low high : Nat) (numbers : List Nat) (ls : List Label) : Prop where
  order : low ≤ high
  numbers : ls.filterMap Label.number = numbers
  distinct : (ls.filterMap Label.counter).Nodup
  range : ∀ n ∈ ls.filterMap Label.counter, low ≤ n ∧ n < high

theorem Counted.nil {low high : Nat} (order : low ≤ high) : Counted low high [] [] :=
  ⟨order, rfl, .nil, nofun⟩

theorem Counted.append {low middle high : Nat} {ns ms : List Nat} {first second : List Label}
    (one : Counted low middle ns first) (two : Counted middle high ms second) :
    Counted low high (ns ++ ms) (first ++ second) where
  order := one.order.trans two.order
  numbers := by rw [List.filterMap_append, one.numbers, two.numbers]
  distinct := by
    rw [List.filterMap_append]
    refine List.nodup_append.mpr ⟨one.distinct, two.distinct, fun n inFirst m inSecond => ?_⟩
    have := one.range n inFirst
    have := two.range m inSecond
    omega
  range := by
    intro n member
    rw [List.filterMap_append] at member
    rcases List.mem_append.mp member with inFirst | inSecond
    · have := one.range n inFirst
      have := two.order
      omega
    · have := two.range n inSecond
      have := one.order
      omega

theorem Counted.number {low high num : Nat} {ns : List Nat} {ls : List Label}
    (rest : Counted low high ns ls) : Counted low high (num :: ns) (.lg num :: ls) :=
  ⟨rest.order, by simp [Label.number, rest.numbers], rest.distinct, rest.range⟩

/-- A label whose number was taken before. -/
theorem Counted.insert {start high num : Nat} {ns : List Nat} {front back : List Label}
    (inner : Counted start high ns (front ++ back)) {l : Label} (plain : l.number = none)
    (counter : l.counter = some num) (earlier : num < start) :
    Counted num high ns (front ++ l :: back) := by
  have numbers := inner.numbers
  have distinct := inner.distinct
  have range := inner.range
  have order := inner.order
  rw [List.filterMap_append] at numbers distinct range
  refine ⟨by omega, ?_, ?_, ?_⟩
  · rw [List.filterMap_append, List.filterMap_cons_none plain, numbers]
  · rw [List.filterMap_append, List.filterMap_cons_some counter, List.nodup_middle]
    refine List.nodup_cons.mpr ⟨fun again => ?_, distinct⟩
    have := range num again
    omega
  · intro n member
    rw [List.filterMap_append, List.filterMap_cons_some counter] at member
    rcases List.mem_append.mp member with first | later
    · have := range n (List.mem_append_left _ first)
      omega
    · rcases List.mem_cons.mp later with rfl | last
      · omega
      · have := range n (List.mem_append_right _ last)
        omega

theorem Counted.first {start high num : Nat} {ns : List Nat} {ls : List Label} {l : Label}
    (inner : Counted start high ns ls) (plain : l.number = none) (counter : l.counter = some num)
    (earlier : num < start) : Counted num high ns (l :: ls) := by
  have opened : Counted start high ns ([] ++ ls) := inner
  exact opened.insert plain counter earlier

theorem Counted.last {start high num : Nat} {ns : List Nat} {ls : List Label} {l : Label}
    (inner : Counted start high ns ls) (plain : l.number = none) (counter : l.counter = some num)
    (earlier : num < start) : Counted num high ns (ls ++ [l]) := by
  rw [← List.append_nil ls] at inner
  exact inner.insert plain counter earlier

theorem Counted.widen {low high high' : Nat} {ns : List Nat} {ls : List Label}
    (counted : Counted low high ns ls) (more : high ≤ high') : Counted low high' ns ls :=
  ⟨counted.order.trans more, counted.numbers, counted.distinct,
    fun n member => ⟨(counted.range n member).1, (counted.range n member).2.trans_le more⟩⟩

theorem nodup_of_kinds {ls : List Label} (numbers : (ls.filterMap Label.number).Nodup)
    (counters : (ls.filterMap Label.counter).Nodup) : ls.Nodup := by
  induction ls with
  | nil => exact .nil
  | cons l ls ih =>
      cases l with
      | lg num =>
          have numbers : (num :: ls.filterMap Label.number).Nodup := numbers
          refine List.nodup_cons.mpr ⟨fun again => (List.nodup_cons.mp numbers).1 ?_, ?_⟩
          · exact List.mem_filterMap.mpr ⟨_, again, rfl⟩
          · exact ih (List.nodup_cons.mp numbers).2 counters
      | l num =>
          have counters : (num :: ls.filterMap Label.counter).Nodup := counters
          refine List.nodup_cons.mpr ⟨fun again => (List.nodup_cons.mp counters).1 ?_, ?_⟩
          · exact List.mem_filterMap.mpr ⟨_, again, rfl⟩
          · exact ih numbers (List.nodup_cons.mp counters).2
      | poll num =>
          have counters : (num :: ls.filterMap Label.counter).Nodup := counters
          refine List.nodup_cons.mpr ⟨fun again => (List.nodup_cons.mp counters).1 ?_, ?_⟩
          · exact List.mem_filterMap.mpr ⟨_, again, rfl⟩
          · exact ih numbers (List.nodup_cons.mp counters).2

theorem Counted.nodup {low high : Nat} {ns : List Nat} {ls : List Label}
    (counted : Counted low high ns ls) (distinct : ns.Nodup) : ls.Nodup :=
  nodup_of_kinds (counted.numbers ▸ distinct) counted.distinct

end SymphonyPlus.Statements
