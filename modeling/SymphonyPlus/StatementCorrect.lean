import SymphonyPlus.StatementParts

/-! Every allowed function body is compiled to code that behaves as the body does. -/

namespace SymphonyPlus.Statements

open StutterSimulation

attribute [local simp] Stmt.build build genStmt genStmts genPrelude genLabelled Stmt.cases cases

section
variable {layout : Layout}

theorem Emits.append {bound : Nat} {ctx : Context} {first second : List Stmt} {lines later : List Line}
    {ms ns : List CaseEntry} (one : Emits layout bound first ctx lines ms)
    (two : Emits layout bound second ctx later ns) :
    Emits layout bound (first ++ second) ctx (lines ++ later) (ms ++ ns) := by
  induction one with
  | nil => exact two
  | empty _ ih => exact .empty (ih two)
  | expr _ ih => simpa using Emits.expr (ih two)
  | block items _ _ ih => simpa using Emits.block items (ih two)
  | ifThen body _ _ ih => simpa using Emits.ifThen body (ih two)
  | ifElseEmpty body other _ _ _ ih => simpa using Emits.ifElseEmpty body other (ih two)
  | ifElse body other _ _ _ ih => simpa using Emits.ifElse body other (ih two)
  | whileLoop body _ _ ih => simpa using Emits.whileLoop body (ih two)
  | forLoop body _ _ ih => simpa using Emits.forLoop body (ih two)
  | doWhile body _ _ ih => simpa using Emits.doWhile body (ih two)
  | «switch» below chained unique before body same _ _ _ ih =>
      simpa using Emits.switch below chained unique before body same (ih two)
  | case _ ih => exact .case (ih two)
  | default _ ih => exact .default (ih two)
  | label _ ih => exact .label (ih two)
  | breakOut aim _ ih => exact .breakOut aim (ih two)
  | continueLoop aim _ ih => exact .continueLoop aim (ih two)
  | goto defined _ ih => exact .goto defined (ih two)
  | returnValue _ ih => simpa using Emits.returnValue (ih two)

theorem Emits.no_lines {bound : Nat} {ctx : Context} {ss : List Stmt} {lines : List Line}
    {ms : List CaseEntry} (emitted : Emits layout bound ss ctx lines ms) : lines = [] → ms = [] := by
  induction emitted with
  | nil => exact fun _ => rfl
  | empty _ ih => exact ih
  | expr _ ih => exact fun none => ih (List.append_eq_nil_iff.mp none).2
  | block _ _ ihItems ihRest =>
      intro none
      obtain ⟨first, second⟩ := List.append_eq_nil_iff.mp none
      rw [ihItems first, ihRest second, List.nil_append]
  | _ => simp

def Before (layout : Layout) (body : Stmt) : Prop :=
  layout.before body = prelude [body] ∨ layout.before body = [] ∧ blank (prelude [body]) = true

structure Situation (layout : Layout) (ss : List Stmt) (place : Place) (p : Parser) (bound : Nat)
    (brk cont : List Label) : Prop where
  fits : Fits place ss
  loops : place.loops ≤ place.breaks
  conts : cont.length = place.loops
  brks : brk.length ≤ place.breaks
  inside : breaks ss = true → brk ≠ []
  agrees : ∀ x ∈ (build ss p).2.nums, layout.num x.1 = x.2
  gotos : ∀ name ∈ gotos ss, layout.defined name
  bodies : ∀ b ∈ bodies ss, Before layout b
  bound : (build ss p).2.localsBytes < bound

def Generates (layout : Layout) (bound : Nat) (ss : List Stmt) (p : Parser) (brk cont : List Label)
    (count : Nat) : Prop :=
  ∃ code high ms, genStmts (build ss p).1 brk cont count = .ok (code, high) ∧
    Emits layout bound ss ⟨brk.head?, cont.head?⟩ code ms ∧
    ms.map CaseEntry.value = cases ss ∧ (build ss p).2.caseStack = extend ms p.caseStack ∧
    Counted count high (nodeNums (build ss p).1) (definedLabels code)

def AlwaysGenerates (layout : Layout) (ss : List Stmt) : Prop :=
  ∀ (place : Place) (p : Parser) (bound : Nat) (brk cont : List Label) (count : Nat),
    Situation layout ss place p bound brk cont → Generates layout bound ss p brk cont count

/-- `Generates` for one statement, in front of any others. -/
def Heads (layout : Layout) (bound : Nat) (s : Stmt) (p : Parser) (brk cont : List Label)
    (count : Nat) : Prop :=
  ∃ code high ms, genStmts (s.build p).1 brk cont count = .ok (code, high) ∧
    (∀ rest later ns, Emits layout bound rest ⟨brk.head?, cont.head?⟩ later ns →
      Emits layout bound (s :: rest) ⟨brk.head?, cont.head?⟩ (code ++ later) (ms ++ ns)) ∧
    ms.map CaseEntry.value = s.cases ∧ (s.build p).2.caseStack = extend ms p.caseStack ∧
    Counted count high (nodeNums (s.build p).1) (definedLabels code)

variable {s : Stmt} {rest : List Stmt} {place : Place} {p : Parser} {bound : Nat}
variable {brk cont : List Label}

theorem Situation.head (situation : Situation layout (s :: rest) place p bound brk cont) :
    Situation layout [s] place p bound brk cont := by
  have grows := build_extends rest (s.build p).2
  refine ⟨⟨situation.fits.1, trivial⟩, situation.loops, situation.conts, situation.brks, ?_, ?_, ?_, ?_, ?_⟩
  · exact fun out => situation.inside (by simp_all [breaks])
  · rw [build_single]
    exact fun x member => situation.agrees x (grows.nums member)
  · exact fun name member => situation.gotos name (by simp_all [Statements.gotos])
  · exact fun b member => situation.bodies b (by simp_all [Statements.bodies])
  · rw [build_single]
    exact grows.bytes.trans_lt situation.bound

theorem Situation.tail (situation : Situation layout (s :: rest) place p bound brk cont) :
    Situation layout rest place (s.build p).2 bound brk cont :=
  ⟨situation.fits.2, situation.loops, situation.conts, situation.brks,
    fun out => situation.inside (by simp [breaks, out]), situation.agrees,
    fun name member => situation.gotos name (by simp [Statements.gotos, member]),
    fun b member => situation.bodies b (by simp [Statements.bodies, member]), situation.bound⟩

theorem generates_cons (here : ∀ (place : Place) (p : Parser) (bound : Nat) (brk cont : List Label)
      (count : Nat), Situation layout [s] place p bound brk cont → Heads layout bound s p brk cont count)
    (later : AlwaysGenerates layout rest) : AlwaysGenerates layout (s :: rest) := by
  intro place p bound brk cont count situation
  obtain ⟨code, middle, ms, generated, emits, values, stack, counted⟩ :=
    here place p bound brk cont count situation.head
  obtain ⟨code', high, ns, generated', emits', values', stack', counted'⟩ :=
    later place _ bound brk cont middle situation.tail
  refine ⟨code ++ code', high, ms ++ ns, ?_, emits _ _ _ emits', ?_, ?_, ?_⟩
  · rw [build, genStmts_append, generated, Except.bind, generated']
    rfl
  · rw [List.map_append, values, values', cases]
  · rw [build, stack', stack, extend_extend]
  · rw [build, nodeNums_append, definedLabels_append]
    exact counted.append counted'

theorem genStmts_single (n : Node) (brk cont : List Label) (count : Nat) :
    genStmts [n] brk cont count = genStmt n brk cont count := by
  rw [genStmts]
  simp only [genStmts, Bind.bind, Except.bind, Pure.pure, Except.pure]
  cases genStmt n brk cont count with
  | error failure => rfl
  | ok one => simp

theorem genBranchZero_eq (e : Expr) (l : Label) (count : Nat) :
    genBranchZero e l count = .ok (Line.expr e :: branch l, count + e.labels) := rfl

@[simp] theorem definedLabels_expr (e : Expr) (code : List Line) :
    definedLabels (Line.expr e :: code) = definedLabels code := rfl

@[simp] theorem definedLabels_jmp (l : Label) (code : List Line) :
    definedLabels (.jmp l :: code) = definedLabels code := rfl

@[simp] theorem definedLabels_movR2 (value : Nat) (code : List Line) :
    definedLabels (.movR2 value :: code) = definedLabels code := rfl

@[simp] theorem definedLabels_cmp (code : List Line) :
    definedLabels (.cmp :: code) = definedLabels code := rfl

@[simp] theorem definedLabels_je (l : Label) (code : List Line) :
    definedLabels (.je l :: code) = definedLabels code := rfl

@[simp] theorem definedLabels_slotAddress (offset : Nat) (code : List Line) :
    definedLabels (.slotAddress offset :: code) = definedLabels code := rfl

@[simp] theorem definedLabels_storeSlot (code : List Line) :
    definedLabels (.storeSlot :: code) = definedLabels code := rfl

@[simp] theorem definedLabels_branch (l : Label) : definedLabels (branch l) = [] := rfl

theorem generates_if {cond : Expr} (body : AlwaysGenerates layout [s])
    (situation : Situation layout [.ifThen cond s] place p bound brk cont) (count : Nat) :
    Heads layout bound (.ifThen cond s) p brk cont count := by
  have inner : Situation layout [s] place p bound brk cont :=
    ⟨⟨situation.fits.1.2, trivial⟩, situation.loops, situation.conts, situation.brks,
      situation.inside, situation.agrees, situation.gotos, situation.bodies, situation.bound⟩
  obtain ⟨code, high, ms, generated, emitted, values, stack, counted⟩ :=
    body place p bound brk cont (count + 2 + cond.labels) inner
  rw [build_single] at generated stack counted
  refine ⟨Line.expr cond :: branch (.l count) ++ code ++ [Line.label (.l count)], high, ms, ?_, ?_, ?_, ?_, ?_⟩
  · rw [Stmt.build, genStmts_single, genStmt]
    simp only [genBranchZero_eq, Bind.bind, Except.bind, generated]
    rfl
  · intro rest later ns restEmitted
    simpa using Emits.ifThen emitted restEmitted
  · simpa [cases, Stmt.cases] using values
  · exact stack
  · have whole := counted.last (l := .l count) rfl rfl (by omega)
    simpa [Stmt.build, nodeNums, Node.nums] using whole

theorem generates_ifElse {cond : Expr} {o : Stmt} (body : AlwaysGenerates layout [s])
    (other : AlwaysGenerates layout [o])
    (situation : Situation layout [.ifElse cond s o] place p bound brk cont) (count : Nat) :
    Heads layout bound (.ifElse cond s o) p brk cont count := by
  obtain ⟨notCase, closed, notCase', fits, fits'⟩ := situation.fits.1
  have grows := build_single o _ ▸ build_extends [o] (s.build p).2
  have both : Situation layout [s, o] place p bound brk cont :=
    ⟨⟨fits, fits', trivial⟩, situation.loops, situation.conts, situation.brks,
      fun out => situation.inside (by simpa [breaks, Stmt.breaks] using out), situation.agrees,
      fun name member => situation.gotos name (by simpa [gotos, Stmt.gotos] using member),
      fun b member => situation.bodies b (by simpa [bodies, Stmt.bodies] using member),
      situation.bound⟩
  obtain ⟨code, middle, ms, generated, emitted, values, stack, counted⟩ :=
    body place p bound brk cont (count + 2 + cond.labels) both.head
  obtain ⟨code', high, ns, generated', emitted', values', stack', counted'⟩ :=
    other place (s.build p).2 bound brk cont middle both.tail
  rw [build_single] at generated stack counted generated' stack' counted'
  have lists : (ms ++ ns).map CaseEntry.value = (Stmt.ifElse cond s o).cases := by
    simp only [cases, List.append_nil] at values values'
    rw [List.map_append, values, values', Stmt.cases]
  have stacked : ((Stmt.ifElse cond s o).build p).2.caseStack = extend (ms ++ ns) p.caseStack := by
    rw [Stmt.build, stack', stack, extend_extend]
  cases empty : (o.build (s.build p).2).1 with
  | nil =>
      rw [empty, genStmts] at generated'
      obtain ⟨rfl, rfl⟩ := Prod.mk.inj (Except.ok.inj generated')
      have noMarks : ns = [] := emitted'.no_lines rfl
      refine ⟨Line.expr cond :: branch (.l count) ++ code ++ [Line.label (.l count)], middle, ms ++ ns, ?_, ?_,
        lists, stacked, ?_⟩
      · rw [Stmt.build, genStmts_single, genStmt, empty]
        simp only [genBranchZero_eq, Bind.bind, Except.bind, generated]
        rfl
      · intro rest later os restEmitted
        subst noMarks
        simpa using Emits.ifElseEmpty emitted emitted' restEmitted
      · have whole := counted.last (l := .l count) rfl rfl (by omega)
        simpa [Stmt.build, nodeNums, Node.nums, empty] using whole
  | cons n more =>
      refine ⟨Line.expr cond :: branch (.l count) ++ code ++ [Line.jmp (.l (count + 1)), .label (.l count)] ++ code'
        ++ [Line.label (.l (count + 1))], high, ms ++ ns, ?_, ?_, lists, stacked, ?_⟩
      · rw [Stmt.build, genStmts_single, genStmt]
        rw [empty] at generated' ⊢
        simp only [genBranchZero_eq, Bind.bind, Except.bind, generated, List.isEmpty_cons,
          Bool.false_eq_true, ↓reduceIte, generated']
        rfl
      · intro rest later os restEmitted
        simpa using Emits.ifElse emitted emitted' restEmitted
      · have both := counted.append counted'
        have first := both.last (l := .l (count + 1)) rfl rfl (by omega)
        rw [List.append_assoc] at first
        have whole := first.insert (l := .l count) rfl rfl (by omega)
        simpa [Stmt.build, nodeNums, Node.nums] using whole

theorem push_ok {target : Label} {stack : List Label} (room : stack.length < 64) :
    push target stack = .ok (target :: stack) := if_pos room

/-- The body of a loop, with the targets of the loop. -/
theorem Situation.loop {whole : Stmt} (situation : Situation layout [whole] place p bound brk cont)
    (fits : s.Fits place.loop) (built : (whole.build p).2 = (s.build p).2)
    (jumps : whole.gotos = s.gotos) (switches : whole.bodies = s.bodies) (lend lcont : Label) :
    Situation layout [s] place.loop p bound (lend :: brk) (lcont :: cont) := by
  have agrees := situation.agrees
  have below := situation.bound
  rw [build_single, built] at agrees below
  refine ⟨⟨fits, trivial⟩, ?_, ?_, ?_, nofun, build_single s p ▸ agrees, fun name member => ?_,
    fun b member => ?_, build_single s p ▸ below⟩
  · exact Nat.succ_le_succ situation.loops
  · exact congrArg Nat.succ situation.conts
  · exact Nat.succ_le_succ situation.brks
  · exact situation.gotos name (by simpa [Statements.gotos, jumps] using member)
  · exact situation.bodies b (by simpa [Statements.bodies, switches] using member)

theorem generates_while {cond : Expr} (body : AlwaysGenerates layout [s])
    (situation : Situation layout [.whileLoop cond s] place p bound brk cont) (count : Nat) :
    Heads layout bound (.whileLoop cond s) p brk cont count := by
  obtain ⟨notCase, room, fits⟩ := situation.fits.1
  have loops := situation.loops
  have conts := situation.conts
  have brks := situation.brks
  have inner := situation.loop fits rfl rfl rfl (.l (count + 1)) (.l count)
  obtain ⟨code, high, ms, generated, emitted, values, stack, counted⟩ :=
    body place.loop p bound _ _ (count + 3 + cond.labels) inner
  rw [build_single] at generated stack counted
  refine ⟨Line.label (.l count) :: .label (.poll (count + 2)) :: .expr cond :: branch (.l (count + 1)) ++ code
    ++ [Line.jmp (.l count), .label (.l (count + 1))], high, ms, ?_, ?_, ?_, stack, ?_⟩
  · rw [Stmt.build, genStmts_single, genStmt, push_ok (by omega), push_ok (by omega)]
    simp only [genBranchZero_eq, Bind.bind, Except.bind, generated]
    rfl
  · intro rest later ns restEmitted
    simpa using Emits.whileLoop emitted restEmitted
  · simpa [cases, Stmt.cases] using values
  · have first := counted.first (l := .poll (count + 2)) rfl rfl (by omega)
    have second := first.last (l := .l (count + 1)) rfl rfl (by omega)
    have whole := second.first (l := .l count) rfl rfl (by omega)
    simpa [Stmt.build, nodeNums, Node.nums] using whole

theorem stmtLines_labels (e : Option Expr) : definedLabels (stmtLines e) = [] := by
  cases e with
  | none => rfl
  | some e =>
      rw [stmtLines]
      split <;> rfl

theorem genSome_stmt (e : Option Expr) (count : Nat) :
    ∃ high, genSome genExprStmt e count = .ok (stmtLines e, high) ∧ count ≤ high := by
  cases e with
  | none => exact ⟨count, rfl, Nat.le_refl _⟩
  | some e =>
      rw [genSome, genExprStmt, stmtLines]
      split
      · exact ⟨count, rfl, Nat.le_refl _⟩
      · exact ⟨count + e.labels, rfl, Nat.le_add_right _ _⟩

theorem genSome_value (e : Option Expr) (count : Nat) :
    ∃ high, genSome genExpr e count = .ok (valueLines e, high) ∧ count ≤ high := by
  cases e with
  | none => exact ⟨count, rfl, Nat.le_refl _⟩
  | some e => exact ⟨count + e.labels, rfl, Nat.le_add_right _ _⟩

theorem genSome_test (l : Label) (e : Option Expr) (count : Nat) :
    ∃ high, genSome (genBranchZero · l) e count = .ok (testLines l e, high) ∧ count ≤ high := by
  cases e with
  | none => exact ⟨count, rfl, Nat.le_refl _⟩
  | some e => exact ⟨count + e.labels, rfl, Nat.le_add_right _ _⟩

@[simp] theorem valueLines_labels (e : Option Expr) : definedLabels (valueLines e) = [] := by
  cases e <;> rfl

@[simp] theorem testLines_labels (l : Label) (e : Option Expr) : definedLabels (testLines l e) = [] := by
  cases e <;> rfl

theorem generates_for {init test inc : Option Expr} (body : AlwaysGenerates layout [s])
    (situation : Situation layout [.forLoop init test inc s] place p bound brk cont) (count : Nat) :
    Heads layout bound (.forLoop init test inc s) p brk cont count := by
  obtain ⟨notCase, room, fits⟩ := situation.fits.1
  have loops := situation.loops
  have conts := situation.conts
  have brks := situation.brks
  have inner := situation.loop fits rfl rfl rfl (.l (count + 2)) (.l (count + 1))
  obtain ⟨poll, started, afterInit⟩ := genSome_stmt init (count + 3)
  obtain ⟨start, tested, afterTest⟩ := genSome_test (.l (count + 2)) test (poll + 1)
  obtain ⟨code, high, ms, generated, emitted, values, stack, counted⟩ :=
    body place.loop p bound _ _ start inner
  obtain ⟨last, stepped, afterInc⟩ := genSome_value inc high
  rw [build_single] at generated stack counted
  refine ⟨stmtLines init ++ Line.label (.l count) :: .label (.poll poll) :: testLines (.l (count + 2)) test
    ++ code ++ Line.label (.l (count + 1)) :: valueLines inc ++ [Line.jmp (.l count), .label (.l (count + 2))],
    last, ms, ?_, ?_, ?_, stack, ?_⟩
  · rw [Stmt.build, genStmts_single, genStmt, push_ok (by omega), push_ok (by omega)]
    simp only [Bind.bind, Except.bind, started, tested, generated, stepped, Pure.pure, Except.pure]
    simp
  · intro rest later ns restEmitted
    simpa using Emits.forLoop emitted restEmitted
  · simpa [cases, Stmt.cases] using values
  · have first := counted.first (l := .poll poll) rfl rfl (by omega)
    have second := first.last (l := .l (count + 2)) rfl rfl (by omega)
    have third := second.insert (l := .l (count + 1)) rfl rfl (by omega)
    have whole := third.first (l := .l count) rfl rfl (by omega)
    simpa [Stmt.build, nodeNums, Node.nums, stmtLines_labels] using whole.widen afterInc

theorem generates_do {cond : Expr} (body : AlwaysGenerates layout [s])
    (situation : Situation layout [.doWhile s cond] place p bound brk cont) (count : Nat) :
    Heads layout bound (.doWhile s cond) p brk cont count := by
  obtain ⟨notCase, room, fits⟩ := situation.fits.1
  have loops := situation.loops
  have conts := situation.conts
  have brks := situation.brks
  have inner := situation.loop fits rfl rfl rfl (.l (count + 2)) (.l (count + 1))
  obtain ⟨code, high, ms, generated, emitted, values, stack, counted⟩ :=
    body place.loop p bound _ _ (count + 4) inner
  rw [build_single] at generated stack counted
  refine ⟨Line.label (.l count) :: .label (.poll (count + 3)) :: code ++ Line.label (.l (count + 1)) ::
    .expr cond :: branch (.l (count + 2)) ++ [Line.jmp (.l count), .label (.l (count + 2))],
    high + cond.labels, ms, ?_, ?_, ?_, stack, ?_⟩
  · rw [Stmt.build, genStmts_single, genStmt, push_ok (by omega), push_ok (by omega)]
    simp only [genBranchZero_eq, Bind.bind, Except.bind, generated, Pure.pure, Except.pure]
    simp
  · intro rest later ns restEmitted
    simpa using Emits.doWhile emitted restEmitted
  · simpa [cases, Stmt.cases] using values
  · have first := counted.first (l := .poll (count + 3)) rfl rfl (by omega)
    have second := first.last (l := .l (count + 2)) rfl rfl (by omega)
    have third := second.insert (l := .l (count + 1)) rfl rfl (by omega)
    have whole := third.first (l := .l count) rfl rfl (by omega)
    simpa [Stmt.build, nodeNums, Node.nums] using whole.widen (Nat.le_add_right _ _)

/-- The two parts of a switch body, and what the parser makes of them. -/
theorem Situation.switchParts {cond : Expr}
    (situation : Situation layout [.switch cond s] place p bound brk cont) (lend : Label) :
    Situation layout (prelude [s]) place.switch p.enterSwitch
        ((s.build p.enterSwitch).2.localsBytes + 4) brk cont ∧
      Situation layout (selected [s]) place.switch (build (prelude [s]) p.enterSwitch).2 bound
        (lend :: brk) cont := by
  obtain ⟨-, room, -, -, -, plain, fits⟩ := situation.fits.1
  obtain ⟨fitsFront, fitsBack⟩ := (fits_split place.switch [s]).mp ⟨fits, trivial⟩
  have whole := build_split [s] p.enterSwitch
  rw [build_single] at whole
  have end_ : (build (selected [s]) (build (prelude [s]) p.enterSwitch).2).2 =
      (s.build p.enterSwitch).2 := by rw [whole]
  have grows := build_extends (selected [s]) (build (prelude [s]) p.enterSwitch).2
  rw [end_] at grows
  have agrees : ∀ x ∈ (s.build p.enterSwitch).2.nums, layout.num x.1 = x.2 := by
    have := situation.agrees
    rwa [build_single] at this
  have below : (s.build p.enterSwitch).2.localsBytes + 4 < bound := by
    have := situation.bound
    rwa [build_single] at this
  have jumps : ∀ name ∈ Statements.gotos (prelude [s]) ++ Statements.gotos (selected [s]),
      layout.defined name := by
    rw [← gotos_split]
    exact fun name member => situation.gotos name (by simpa [Statements.gotos, Stmt.gotos] using member)
  have switches : ∀ b ∈ Statements.bodies (prelude [s]) ++ Statements.bodies (selected [s]),
      Before layout b := by
    rw [← bodies_split]
    intro b member
    refine situation.bodies b ?_
    simp only [Statements.bodies, List.append_nil, Stmt.bodies] at member ⊢
    exact List.mem_cons_of_mem _ member
  refine ⟨⟨fitsFront, ?_, situation.conts, ?_, fun out => ?_, fun x member => agrees x (grows.nums member),
    fun name member => jumps name (List.mem_append_left _ member),
    fun b member => switches b (List.mem_append_left _ member), ?_⟩,
    ⟨fitsBack, ?_, situation.conts, ?_, fun _ none => absurd none (List.cons_ne_nil _ _),
      end_ ▸ agrees,
      fun name member => jumps name (List.mem_append_right _ member),
      fun b member => switches b (List.mem_append_right _ member), ?_⟩⟩
  · exact situation.loops.trans (Nat.le_succ _)
  · exact situation.brks.trans (Nat.le_succ _)
  · simp [plain.breaks] at out
  · exact Nat.lt_of_le_of_lt grows.bytes (Nat.lt_add_of_pos_right (by omega))
  · exact situation.loops.trans (Nat.le_succ _)
  · exact Nat.succ_le_succ situation.brks
  · rw [end_]
    omega

theorem generates_switch {cond : Expr} (front : AlwaysGenerates layout (prelude [s]))
    (back : AlwaysGenerates layout (selected [s]))
    (situation : Situation layout [.switch cond s] place p bound brk cont) (count : Nat) :
    Heads layout bound (.switch cond s) p brk cont count := by
  obtain ⟨-, room, -, distinct, small, plain, -⟩ := situation.fits.1
  have brks := situation.brks
  obtain ⟨inFront, inBack⟩ := situation.switchParts (.l count)
  have below : (s.build p.enterSwitch).2.localsBytes + 4 < bound := by
    have := situation.bound
    rwa [build_single] at this
  obtain ⟨before, middle, os, generated, emitted, values, stack, counted⟩ :=
    front place.switch p.enterSwitch _ brk cont (count + 1 + cond.labels) inFront
  obtain ⟨body, high, ms, generated', emitted', values', stack', counted'⟩ :=
    back place.switch _ bound (.l count :: brk) cont middle inBack
  have whole := build_split [s] p.enterSwitch
  rw [build_single] at whole
  have noMarks : os = [] := by
    rw [plain.cases] at values
    exact List.map_eq_nil_iff.mp values
  have own : cases [s] = cases (selected [s]) := by rw [cases_split, plain.cases, List.nil_append]
  rw [cases, cases, List.append_nil] at own
  have collected : (s.build p.enterSwitch).2.caseStack = ms :: p.caseStack := by
    rw [whole, stack', stack, noMarks]
    rfl
  have marks : (build (selected [s]) (build (prelude [s]) p.enterSwitch).2).1 = [] ∨
      ∃ n rest, (build (selected [s]) (build (prelude [s]) p.enterSwitch).2).1 = n :: rest ∧
        n.isMark = true := by
    cases marked_ : marked [s] with
    | false => exact .inl (by rw [selected_unmarked [s] marked_]; rfl)
    | true => exact .inr (build_selected [s] marked_ _)
  have plainFront := build_prelude [s] p.enterSwitch
  obtain ⟨chain, chained, unlabelled⟩ := genChain_ok ((s.build p.enterSwitch).2.localsBytes + 4)
    (show ∀ value, some value ∈ ms.map CaseEntry.value → value ≤ 0xFFFFFFFF by
      rwa [values', ← own])
  have entries : (s.build p.enterSwitch).2.entries = ms := by
    rw [Parser.entries, collected]
    rfl
  refine ⟨Line.expr cond :: .slotAddress ((s.build p.enterSwitch).2.localsBytes + 4) :: .storeSlot ::
    before ++ chain ++ [Line.jmp ((defaultLabel ms).getD (.l count))] ++ body ++ [Line.label (.l count)], high, [],
    ?_, ?_, rfl, ?_, ?_⟩
  · rw [Stmt.build, genStmts_single, genStmt, entries, push_ok (by omega)]
    simp only [genExpr, Bind.bind, Except.bind]
    rw [show (s.build p.enterSwitch).1 = _ from congrArg Prod.fst whole,
      genPrelude_append plainFront marks, generated]
    simp only [chained]
    rw [genLabelled_append plainFront marks, generated']
    rfl
  · intro rest later ns restEmitted
    have ahead : Emits layout ((s.build p.enterSwitch).2.localsBytes + 4) (layout.before s)
        ⟨brk.head?, cont.head?⟩ before [] := by
      rcases situation.bodies s (by simp [bodies, Stmt.bodies]) with same | ⟨none, empty⟩
      · rw [same]
        exact noMarks ▸ emitted
      · rw [blank_build _ empty, genStmts] at generated
        obtain ⟨rfl, -⟩ := Prod.mk.inj (Except.ok.inj generated)
        rw [none]
        exact .nil
    have found : ∀ t k, find t [s] k = find t (selected [s]) k :=
      fun t k => find_selected t [s] plain.labels plain.cases k
    have unique : (ms.map CaseEntry.value).Nodup := by rwa [values', ← own]
    have shape : Emits layout bound (.switch cond s :: rest) _ _ _ :=
      .switch below chained unique ahead emitted' found restEmitted
    simpa using shape
  · rw [Stmt.build, Parser.leaveSwitch, collected, List.tail_cons, extend_nil]
  · have both := counted.append counted'
    have last := both.last (l := .l count) rfl rfl (by omega)
    have numbers : nodeNums (s.build p.enterSwitch).1 = _ := congrArg (nodeNums ·.1) whole
    rw [nodeNums_append] at numbers
    simpa [Stmt.build, nodeNums, Node.nums, numbers, unlabelled] using last

theorem generates_label {name : String} (body : AlwaysGenerates layout [s])
    (situation : Situation layout [.label name s] place p bound brk cont) (count : Nat) :
    Heads layout bound (.label name s) p brk cont count := by
  obtain ⟨notCase, fits⟩ := situation.fits.1
  have agrees := situation.agrees
  have below := situation.bound
  rw [build_single] at agrees below
  have inner : Situation layout [s] place ((p.labelOf name).2.define (p.labelOf name).1) bound brk cont :=
    ⟨⟨fits, trivial⟩, situation.loops, situation.conts, situation.brks, situation.inside,
      build_single s _ ▸ agrees, situation.gotos, situation.bodies, build_single s _ ▸ below⟩
  obtain ⟨code, high, ms, generated, emitted, values, stack, counted⟩ :=
    body place _ bound brk cont count inner
  have grows := build_single s _ ▸ build_extends [s] ((p.labelOf name).2.define (p.labelOf name).1)
  rw [build_single] at generated stack counted
  have num : layout.num name = (p.labelOf name).1 := by
    refine agrees (name, (p.labelOf name).1) (grows.nums ?_)
    rw [define_nums]
    exact labelOf_mem p name
  refine ⟨Line.label (.lg (p.labelOf name).1) :: code, high, ms, ?_, ?_, ?_, ?_, ?_⟩
  · rw [Stmt.build, genStmts_single, genStmt, generated]
    rfl
  · intro rest later ns restEmitted
    have shape : Emits layout bound (.label name s :: rest) _ _ _ := .label (emitted.append restEmitted)
    rwa [num] at shape
  · simpa [cases, Stmt.cases] using values
  · rwa [define_stack, labelOf_stack] at stack
  · simpa [Stmt.build, nodeNums, Node.nums] using counted.number

theorem heads_of_lines (lines : List Line) (high : Nat) {count : Nat}
    (generated : genStmts (s.build p).1 brk cont count = .ok (lines, high)) (plain : s.cases = [])
    (unnumbered : nodeNums (s.build p).1 = []) (stack : (s.build p).2.caseStack = p.caseStack)
    (counted : Counted count high [] (definedLabels lines))
    (emits : ∀ rest later ns, Emits layout bound rest ⟨brk.head?, cont.head?⟩ later ns →
      Emits layout bound (s :: rest) ⟨brk.head?, cont.head?⟩ (lines ++ later) ns) :
    Heads layout bound s p brk cont count :=
  ⟨lines, high, [], generated, emits, plain.symm, by rw [stack, extend_nil], unnumbered ▸ counted⟩

theorem generates_marked (node : Nat → Node) {whole : Stmt} {value : Option Nat}
    (later : AlwaysGenerates layout (s :: rest))
    (fits : ∀ place, whole.Fits place → s.Fits place)
    (cases : whole.cases = value :: s.cases) (breaks : whole.breaks = s.breaks)
    (gotos : whole.gotos = s.gotos) (bodies : whole.bodies = s.bodies)
    (built : ∀ p, whole.build p =
      (node p.lblNum :: (s.build (p.addCase value)).1, (s.build (p.addCase value)).2))
    (gen : ∀ num brk cont count, genStmt (node num) brk cont count = .ok ([.label (.lg num)], count))
    (nums : ∀ num, (node num).nums = [num])
    (emits : ∀ {bound ctx lines ms num}, Emits layout bound (s :: rest) ctx lines ms →
      Emits layout bound (whole :: rest) ctx (Line.label (.lg num) :: lines) (⟨value, num⟩ :: ms)) :
    AlwaysGenerates layout (whole :: rest) := by
  intro place p bound brk cont count situation
  have same : ∀ p, build (whole :: rest) p = (node p.lblNum :: (build (s :: rest) (p.addCase value)).1,
      (build (s :: rest) (p.addCase value)).2) := by
    intro p
    simp [build, built]
  have inner : Situation layout (s :: rest) place (p.addCase value) bound brk cont := by
    refine ⟨⟨fits place situation.fits.1, situation.fits.2⟩, situation.loops, situation.conts,
      situation.brks, fun out => situation.inside ?_, ?_, fun name member => situation.gotos name ?_,
      fun b member => situation.bodies b ?_, ?_⟩
    · rwa [Statements.breaks, breaks]
    · have := situation.agrees
      rwa [same] at this
    · rwa [Statements.gotos, gotos]
    · rwa [Statements.bodies, bodies]
    · have := situation.bound
      rwa [same] at this
  obtain ⟨code, high, ms, generated, emitted, values, stack, counted⟩ :=
    later place _ bound brk cont count inner
  refine ⟨Line.label (.lg p.lblNum) :: code, high, ⟨value, p.lblNum⟩ :: ms, ?_, emits emitted, ?_, ?_, ?_⟩
  · rw [same, genStmts, gen]
    simp only [Bind.bind, Except.bind, generated]
    rfl
  · rw [List.map_cons, values, Statements.cases, Statements.cases, cases, List.cons_append]
  · rw [same, stack, addCase_stack, extend_extend, List.singleton_append]
  · rw [same, nodeNums, nums]
    exact counted.number

theorem generates (ss : List Stmt) : AlwaysGenerates layout ss := by
  induction ss using stmts_induction with
  | nil =>
      exact fun place p bound brk cont count _ =>
        ⟨[], count, [], rfl, .nil, rfl, (extend_nil _).symm, .nil (Nat.le_refl _)⟩
  | empty rest ih =>
      refine generates_cons (fun place p bound brk cont count _ => ?_) ih
      exact heads_of_lines [] count rfl rfl rfl rfl (.nil (Nat.le_refl _))
        fun _ _ _ emitted => .empty emitted
  | expr e rest ih =>
      refine generates_cons (fun place p bound brk cont count _ => ?_) ih
      have emits : ∀ rest later ns, Emits layout bound rest ⟨brk.head?, cont.head?⟩ later ns →
          Emits layout bound (.expr e :: rest) ⟨brk.head?, cont.head?⟩ (stmtLines (some e) ++ later) ns :=
        fun _ _ _ emitted => .expr emitted
      obtain ⟨high, generated, order⟩ := genSome_stmt (some e) count
      refine heads_of_lines (stmtLines (some e)) high ?_ rfl rfl rfl ?_ emits
      · rw [Stmt.build, genStmts_single, genStmt]
        exact generated
      · rw [stmtLines_labels]
        exact .nil order
  | block items rest ihItems ihRest =>
      refine generates_cons (fun place p bound brk cont count situation => ?_) ihRest
      have agrees := situation.agrees
      have below := situation.bound
      rw [build_single] at agrees below
      obtain ⟨code, high, ms, generated, emitted, values, stack, counted⟩ :=
        ihItems place p bound brk cont count ⟨situation.fits.1, situation.loops, situation.conts,
          situation.brks, fun out => situation.inside (by simpa [breaks, Stmt.breaks] using out), agrees,
          fun name member => situation.gotos name (by simpa [gotos, Stmt.gotos] using member),
          fun b member => situation.bodies b (by simpa [bodies, Stmt.bodies] using member), below⟩
      exact ⟨code, high, ms, generated, fun _ _ _ restEmitted => .block emitted restEmitted, values, stack,
        counted⟩
  | ifThen cond s rest ihBody ihRest =>
      exact generates_cons (fun _ _ _ _ _ count situation => generates_if ihBody situation count) ihRest
  | ifElse cond s o rest ihBody ihOther ihRest =>
      exact generates_cons (fun _ _ _ _ _ count situation =>
        generates_ifElse ihBody ihOther situation count) ihRest
  | whileLoop cond s rest ihBody ihRest =>
      exact generates_cons (fun _ _ _ _ _ count situation => generates_while ihBody situation count) ihRest
  | forLoop init test inc s rest ihBody ihRest =>
      exact generates_cons (fun _ _ _ _ _ count situation => generates_for ihBody situation count) ihRest
  | doWhile s cond rest ihBody ihRest =>
      exact generates_cons (fun _ _ _ _ _ count situation => generates_do ihBody situation count) ihRest
  | «switch» cond s rest _ ihFront ihBack ihRest =>
      exact generates_cons (fun _ _ _ _ _ count situation =>
        generates_switch ihFront ihBack situation count) ihRest
  | case value s rest _ ih =>
      exact generates_marked (.ndCase value) ih (fun _ fits => fits.2) rfl rfl rfl rfl
        (fun _ => rfl) (fun _ _ _ _ => rfl) (fun _ => rfl) .case
  | default s rest _ ih =>
      exact generates_marked .ndDefault ih (fun _ fits => fits.2) rfl rfl rfl rfl
        (fun _ => rfl) (fun _ _ _ _ => rfl) (fun _ => rfl) .default
  | label name s rest ihBody ihRest _ =>
      exact generates_cons (fun _ _ _ _ _ count situation => generates_label ihBody situation count) ihRest
  | breakOut rest ih =>
      refine generates_cons (fun place p bound brk cont count situation => ?_) ih
      obtain ⟨l, outer, rfl⟩ := List.exists_cons_of_ne_nil (situation.inside rfl)
      exact heads_of_lines [.jmp l] count rfl rfl rfl rfl (.nil (Nat.le_refl _))
        fun _ _ _ emitted => .breakOut rfl emitted
  | continueLoop rest ih =>
      refine generates_cons (fun place p bound brk cont count situation => ?_) ih
      have nonempty : cont ≠ [] := by
        rintro rfl
        have conts := situation.conts
        have fits : 0 < place.loops := situation.fits.1
        simp at conts
        omega
      obtain ⟨l, outer, rfl⟩ := List.exists_cons_of_ne_nil nonempty
      exact heads_of_lines [.jmp l] count rfl rfl rfl rfl (.nil (Nat.le_refl _))
        fun _ _ _ emitted => .continueLoop rfl emitted
  | goto name rest ih =>
      refine generates_cons (fun place p bound brk cont count situation => ?_) ih
      have agrees := situation.agrees
      rw [build_single] at agrees
      have num : layout.num name = (p.labelOf name).1 := agrees _ (labelOf_mem p name)
      refine heads_of_lines [.label (.poll count), .jmp (.lg (p.labelOf name).1)] (count + 1) rfl rfl rfl
        (labelOf_stack p name) ?_ fun rest later ns emitted => ?_
      · exact (Counted.nil (Nat.le_refl (count + 1))).first rfl rfl (Nat.lt_succ_self _)
      · have shape : Emits layout bound (.goto name :: rest) ⟨brk.head?, cont.head?⟩
            (Line.label (.poll count) :: .jmp (.lg (layout.num name)) :: later) ns :=
          .goto (situation.gotos name (by simp [gotos, Stmt.gotos])) emitted
        rwa [num] at shape
  | returnValue e rest ih =>
      refine generates_cons (fun place p bound brk cont count situation => ?_) ih
      obtain ⟨high, generated, order⟩ := genSome_value e count
      refine heads_of_lines (valueLines e ++ Line.comment "return" :: epilogue) high ?_ rfl rfl rfl ?_
        fun _ _ _ emitted => ?_
      · rw [Stmt.build, genStmts_single, genStmt, generated]
        rfl
      · rw [definedLabels_append, valueLines_labels]
        exact .nil order
      · simpa using Emits.returnValue emitted

end

/-! Whole function bodies. -/

/-- A function body from the tokens behind its opening brace to the lines of its code. The counters are
those the compiler has reached, `localsBytes` the size of the parameters and locals. -/
def compileBody (lblNum localsBytes count : Nat) (toks : List Tok) : Option (List Line) :=
  match funcBody lblNum localsBytes toks with
  | .error _ => none
  | .ok (body, _) => (genFunc body count).toOption

/-- The body is compiled, and its code evaluates what the statement machine evaluates and returns when
that is done, whatever the expressions yield. -/
def Follows (before : Stmt → List Stmt) (program : List Stmt) : Prop :=
  ∀ lblNum localsBytes count, ∃ code,
    compileBody lblNum localsBytes count (tokens program ++ [.rbrace]) = some code ∧
    ∀ (world : World) (c : Cpu), c.rest = code → c.returned = false → c.history = [] →
      ∀ reported,
        (Reports (stmtMachine before world program) ⟨program, .stop, []⟩ reported ↔
          Reports (codeMachine world code) c reported) ∧
        (Finishes (stmtMachine before world program) ⟨program, .stop, []⟩ reported ↔
          Finishes (codeMachine world code) c reported)

/-- Outside all loops and switches there is nothing to break out of. -/
theorem breaks_outside (ss : List Stmt) : ∀ place : Place, place.breaks = 0 → Fits place ss →
    breaks ss = false := by
  have more : ∀ {s : Stmt} {rest : List Stmt} {place : Place}, s.breaks = false →
      breaks rest = false → breaks (s :: rest) = false := by
    intro s rest place here later
    rw [breaks, here, later, Bool.or_false]
  have only : ∀ {s : Stmt}, breaks [s] = false → s.breaks = false := fun none => by
    rwa [breaks, breaks, Bool.or_false] at none
  induction ss using stmts_induction with
  | nil => exact fun _ _ _ => rfl
  | empty rest ih => exact fun place none fits => ih place none fits.2
  | expr e rest ih => exact fun place none fits => ih place none fits.2
  | block items rest ihItems ihRest =>
      intro place none fits
      rw [breaks, Stmt.breaks, ihItems place none fits.1, ihRest place none fits.2, Bool.or_false]
  | ifThen cond s rest ihBody ihRest =>
      intro place none fits
      have body := only (ihBody place none ⟨fits.1.2, trivial⟩)
      rw [breaks, Stmt.breaks, body, ihRest place none fits.2, Bool.or_false]
  | ifElse cond s o rest ihBody ihOther ihRest =>
      intro place none fits
      have body := only (ihBody place none ⟨fits.1.2.2.2.1, trivial⟩)
      have other := only (ihOther place none ⟨fits.1.2.2.2.2, trivial⟩)
      rw [breaks, Stmt.breaks, body, other, ihRest place none fits.2, Bool.or_false, Bool.or_false]
  | whileLoop cond s rest _ ih => exact fun place none fits => ih place none fits.2
  | forLoop init test inc s rest _ ih => exact fun place none fits => ih place none fits.2
  | doWhile s cond rest _ ih => exact fun place none fits => ih place none fits.2
  | «switch» cond s rest _ _ _ ih => exact fun place none fits => ih place none fits.2
  | case value s rest _ ih => exact fun place none fits => ih place none ⟨fits.1.2, fits.2⟩
  | default s rest _ ih => exact fun place none fits => ih place none ⟨fits.1.2, fits.2⟩
  | label name s rest _ _ ih => exact fun place none fits => ih place none ⟨fits.1.2, fits.2⟩
  | breakOut rest ih =>
      intro place none fits
      have inside : 0 < place.breaks := fits.1
      omega
  | continueLoop rest ih => exact fun place none fits => ih place none fits.2
  | goto name rest ih => exact fun place none fits => ih place none fits.2
  | returnValue e rest ih => exact fun place none fits => ih place none fits.2

section
variable (lblNum localsBytes : Nat) {program : List Stmt}

def startParser : Parser := ⟨[], lblNum, localsBytes, []⟩

theorem startParser_ok : (startParser lblNum localsBytes).Ok := ⟨.nil, .nil, nofun⟩

theorem build_ok (program : List Stmt) : (build program (startParser lblNum localsBytes)).2.Ok :=
  (build_extends program _).ok (startParser_ok lblNum localsBytes)

theorem entry_of_name {p : Parser} (ok : p.Ok) {e e' : LblEnt} (member : e ∈ p.lbls)
    (member' : e' ∈ p.lbls) (same : e.name = e'.name) : e = e' := by
  have distinct : (p.lbls.map LblEnt.name).Nodup := by
    have := ok.names
    rwa [Parser.nums, List.map_map] at this
  exact List.inj_on_of_nodup_map distinct member member' same

theorem parsed (allowed : Allowed program) :
    funcBody lblNum localsBytes (tokens program ++ [.rbrace]) =
      .ok (build program (startParser lblNum localsBytes)) := by
  have read := (readable program).2 ⟨0, 0, 0⟩ (startParser lblNum localsBytes)
    (2 * (tokens program ++ [Tok.rbrace]).length) [] allowed.fits rfl nofun (by rw [List.length_append]; omega)
  obtain ⟨defined, known⟩ := build_names program (startParser lblNum localsBytes)
  have all : (build program (startParser lblNum localsBytes)).2.lbls.all (·.defined) = true := by
    rw [List.all_eq_true]
    intro e member
    have inNums : (e.name, e.num) ∈ (build program (startParser lblNum localsBytes)).2.nums :=
      List.mem_map.mpr ⟨e, member, rfl⟩
    have inLabels : e.name ∈ labels program := by
      rcases known e.name (List.mem_map_of_mem inNums) with none | label | goto
      · simp [Parser.nums, startParser] at none
      · exact label
      · exact allowed.gotos goto
    obtain ⟨e', kept, same⟩ := List.mem_map.mp (defined inLabels)
    obtain ⟨member', defined'⟩ := List.mem_filter.mp kept
    rwa [entry_of_name (build_ok lblNum localsBytes program) member member' same.symm]
  rw [startParser] at read all
  rw [funcBody, read]
  simp only [Bind.bind, Except.bind, all]
  rfl

def bodyLayout (before : Stmt → List Stmt) (program : List Stmt) : Layout where
  before := before
  num := fun name => (((build program (startParser lblNum localsBytes)).2.lbls.find?
    (·.name = name)).map LblEnt.num).getD 0
  defined := (· ∈ labels program)

theorem bodyLayout_agrees (before : Stmt → List Stmt) :
    ∀ x ∈ (build program (startParser lblNum localsBytes)).2.nums,
      (bodyLayout lblNum localsBytes before program).num x.1 = x.2 := by
  intro x inNums
  obtain ⟨e, member, rfl⟩ := List.mem_map.mp inNums
  cases found : (build program (startParser lblNum localsBytes)).2.lbls.find? (·.name = e.name) with
  | none => exact absurd (List.find?_eq_none.mp found e member) (by simp)
  | some e' =>
      have same : e'.name = e.name := by simpa using List.find?_some found
      have equal := entry_of_name (build_ok lblNum localsBytes program)
        (List.mem_of_find?_eq_some found) member same
      simp [bodyLayout, found, equal]

theorem compiled (before : Stmt → List Stmt) (allowed : Allowed program)
    (front : ∀ b ∈ bodies program, before b = prelude [b] ∨
      before b = [] ∧ blank (prelude [b]) = true) (count : Nat) :
    ∃ code, compileBody lblNum localsBytes count (tokens program ++ [.rbrace]) = some code ∧
      Compiled (bodyLayout lblNum localsBytes before program) code program := by
  have situation : Situation (bodyLayout lblNum localsBytes before program) program ⟨0, 0, 0⟩
      (startParser lblNum localsBytes)
      ((build program (startParser lblNum localsBytes)).2.localsBytes + 1) [] [] := by
    refine ⟨allowed.fits, Nat.le_refl _, rfl, Nat.le_refl _, fun out => ?_,
      bodyLayout_agrees lblNum localsBytes before, fun name member => allowed.gotos member, front,
      Nat.lt_succ_self _⟩
    simp [breaks_outside program _ rfl allowed.fits] at out
  obtain ⟨lines, high, ms, generated, emitted, -, -, counted⟩ :=
    generates program _ _ _ _ _ (count + 1) situation
  have ok := build_ok lblNum localsBytes program
  have settled : Settled (build program (startParser lblNum localsBytes)).2.nums
      (build program (startParser lblNum localsBytes)).2 := ⟨fun _ h => h, fun _ h _ => h⟩
  have unique : ∀ a b n, (a, n) ∈ (build program (startParser lblNum localsBytes)).2.nums →
      (b, n) ∈ (build program (startParser lblNum localsBytes)).2.nums → a = b := by
    intro a b n inA inB
    exact congrArg Prod.fst (List.inj_on_of_nodup_map ok.values inA inB rfl)
  have owns := build_owns unique program _ (startParser_ok lblNum localsBytes) settled allowed.labels
  have first := counted.first (l := .poll count) rfl rfl (Nat.lt_succ_self _)
  refine ⟨Line.label (.poll count) :: lines ++ epilogue, ?_, ?_, ⟨.poll count, lines, _, ms, rfl, emitted⟩, ?_⟩
  · rw [compileBody, parsed lblNum localsBytes allowed]
    simp only [genFunc, generated, Bind.bind, Except.bind]
    rfl
  · rw [definedLabels_append]
    simpa [epilogue, definedLabels] using first.nodup owns.1
  · exact fun name member => find_label program member .stop

end

theorem follows (before : Stmt → List Stmt) {program : List Stmt} (allowed : Allowed program)
    (front : ∀ b ∈ bodies program, before b = prelude [b] ∨
      before b = [] ∧ blank (prelude [b]) = true) : Follows before program := by
  intro lblNum localsBytes count
  obtain ⟨code, made, compiled⟩ := compiled lblNum localsBytes before allowed front count
  exact ⟨code, made, fun world c start running fresh reported =>
    compiled.same_runs world start running fresh reported⟩

end SymphonyPlus.Statements
