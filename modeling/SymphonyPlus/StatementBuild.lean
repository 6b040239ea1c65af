import SymphonyPlus.StatementSimulation

/-! The parser and the code generator turn every allowed function body into lines of the shape the
simulation asks for. -/

namespace SymphonyPlus.Statements

/-! The tokens of a statement. -/

def optional : Option Expr → List Tok
  | none => []
  | some e => [.expr e]

mutual

def Stmt.tokens : Stmt → List Tok
  | .empty => [.semi]
  | .expr e => [.expr e, .semi]
  | .block items => .lbrace :: tokens items ++ [.rbrace]
  | .ifThen cond body => .kwIf :: .lparen :: .expr cond :: .rparen :: body.tokens
  | .ifElse cond body other =>
      .kwIf :: .lparen :: .expr cond :: .rparen :: body.tokens ++ .kwElse :: other.tokens
  | .whileLoop cond body => .kwWhile :: .lparen :: .expr cond :: .rparen :: body.tokens
  | .forLoop init cond inc body =>
      .kwFor :: .lparen :: optional init ++ .semi :: optional cond ++ .semi :: optional inc ++
        .rparen :: body.tokens
  | .doWhile body cond =>
      .kwDo :: body.tokens ++ [.kwWhile, .lparen, .expr cond, .rparen, .semi]
  | .switch cond body => .kwSwitch :: .lparen :: .expr cond :: .rparen :: body.tokens
  | .case value body => .kwCase :: .expr (.num value) :: .colon :: body.tokens
  | .default body => .kwDefault :: .colon :: body.tokens
  | .label name body => .ident name :: .colon :: body.tokens
  | .breakOut => [.kwBreak, .semi]
  | .continueLoop => [.kwContinue, .semi]
  | .goto name => [.kwGoto, .ident name, .semi]
  | .returnValue e => .kwReturn :: optional e ++ [.semi]

def tokens : List Stmt → List Tok
  | [] => []
  | s :: rest => s.tokens ++ tokens rest

end

/-! What the parser makes of a statement it accepts. -/

def Parser.addCase (p : Parser) (value : Option Nat) : Parser :=
  { p with
    lblNum := p.lblNum + 1
    caseStack := match p.caseStack with
      | [] => []
      | list :: outer => (list ++ [⟨value, p.lblNum⟩]) :: outer }

def Parser.enterSwitch (p : Parser) : Parser := { p with caseStack := [] :: p.caseStack }

def Parser.leaveSwitch (p : Parser) : Parser :=
  { p with caseStack := p.caseStack.tail, localsBytes := p.localsBytes + 4 }

def Parser.entries (p : Parser) : List CaseEntry := p.caseStack.head?.getD []

mutual

def Stmt.build : Stmt → Parser → List Node × Parser
  | .empty, p => ([], p)
  | .expr e, p => ([.expr e], p)
  | .block items, p => build items p
  | .ifThen cond body, p => ([.ndIf cond (body.build p).1 []], (body.build p).2)
  | .ifElse cond body other, p =>
      ([.ndIf cond (body.build p).1 (other.build (body.build p).2).1], (other.build (body.build p).2).2)
  | .whileLoop cond body, p => ([.ndWhile cond (body.build p).1], (body.build p).2)
  | .forLoop init cond inc body, p => ([.ndFor init cond inc (body.build p).1], (body.build p).2)
  | .doWhile body cond, p => ([.ndDoWhile (body.build p).1 cond], (body.build p).2)
  | .switch cond body, p =>
      let inner := body.build p.enterSwitch
      ([.ndSwitch cond inner.2.entries inner.1 (inner.2.localsBytes + 4)], inner.2.leaveSwitch)
  | .case value body, p =>
      (.ndCase value p.lblNum :: (body.build (p.addCase (some value))).1,
        (body.build (p.addCase (some value))).2)
  | .default body, p =>
      (.ndDefault p.lblNum :: (body.build (p.addCase none)).1, (body.build (p.addCase none)).2)
  | .label name body, p =>
      let named := p.labelOf name
      let inner := body.build (named.2.define named.1)
      ([.ndLabel named.1 inner.1], inner.2)
  | .breakOut, p => ([.ndBreak], p)
  | .continueLoop, p => ([.ndContinue], p)
  | .goto name, p => ([.ndGoto (p.labelOf name).1], (p.labelOf name).2)
  | .returnValue e, p => ([.ndReturn e], p)

def build : List Stmt → Parser → List Node × Parser
  | [], p => ([], p)
  | s :: rest, p => ((s.build p).1 ++ (build rest (s.build p).2).1, (build rest (s.build p).2).2)

end

attribute [local simp] Stmt.build build Stmt.tokens tokens

@[simp] theorem build_single (s : Stmt) (p : Parser) : build [s] p = s.build p := by
  simp [build]

@[simp] theorem tokens_single (s : Stmt) : tokens [s] = s.tokens := by
  simp [tokens]

/-! Induction over statement lists, in which the body of a switch also counts in its two parts. -/

theorem size_pos (ss : List Stmt) : 1 ≤ sizeOf ss := by
  cases ss
  · simp
  · simp
    omega

mutual

theorem Stmt.size_prelude (s : Stmt) : sizeOf s.prelude ≤ 2 + sizeOf s := by
  cases s with
  | block items =>
      have inner := size_prelude items
      simp only [Stmt.prelude, List.cons.sizeOf_spec, List.nil.sizeOf_spec, Stmt.block.sizeOf_spec]
      omega
  | _ => simp [Stmt.prelude] <;> omega

theorem size_prelude (ss : List Stmt) : sizeOf (prelude ss) ≤ sizeOf ss := by
  cases ss with
  | nil => simp [prelude]
  | cons s rest =>
      have first := s.size_prelude
      have later := size_prelude rest
      have := size_pos rest
      rw [prelude]
      split
      · simp only [List.cons.sizeOf_spec]
        omega
      · simp only [List.cons.sizeOf_spec]
        omega

end

mutual

theorem Stmt.size_selected (s : Stmt) (rest : List Stmt) :
    sizeOf (s.selected ++ rest) ≤ 1 + sizeOf s + sizeOf rest := by
  cases s with
  | block items =>
      have inner := size_selected items
      simp only [Stmt.selected, List.cons_append, List.nil_append, List.cons.sizeOf_spec,
        Stmt.block.sizeOf_spec]
      omega
  | _ => simp [Stmt.selected]

theorem size_selected (ss : List Stmt) : sizeOf (selected ss) ≤ sizeOf ss := by
  cases ss with
  | nil => simp [selected]
  | cons s rest =>
      have first := s.size_selected rest
      have later := size_selected rest
      rw [selected]
      split
      · simpa only [List.cons.sizeOf_spec] using first
      · simp only [List.cons.sizeOf_spec]
        omega

end

/-- Induction over statement lists; a labelled statement heads the list behind its label. -/
theorem stmts_induction {motive : List Stmt → Prop} (nil : motive [])
    (empty : ∀ rest, motive rest → motive (.empty :: rest))
    (expr : ∀ e rest, motive rest → motive (.expr e :: rest))
    (block : ∀ items rest, motive items → motive rest → motive (.block items :: rest))
    (ifThen : ∀ cond s rest, motive [s] → motive rest → motive (.ifThen cond s :: rest))
    (ifElse : ∀ cond s o rest, motive [s] → motive [o] → motive rest →
      motive (.ifElse cond s o :: rest))
    (whileLoop : ∀ cond s rest, motive [s] → motive rest → motive (.whileLoop cond s :: rest))
    (forLoop : ∀ init test inc s rest, motive [s] → motive rest →
      motive (.forLoop init test inc s :: rest))
    (doWhile : ∀ s cond rest, motive [s] → motive rest → motive (.doWhile s cond :: rest))
    («switch» : ∀ cond s rest, motive [s] → motive (prelude [s]) → motive (selected [s]) → motive rest →
      motive (.switch cond s :: rest))
    (case : ∀ value s rest, motive [s] → motive (s :: rest) → motive (.case value s :: rest))
    (default : ∀ s rest, motive [s] → motive (s :: rest) → motive (.default s :: rest))
    (label : ∀ name s rest, motive [s] → motive rest → motive (s :: rest) →
      motive (.label name s :: rest))
    (breakOut : ∀ rest, motive rest → motive (.breakOut :: rest))
    (continueLoop : ∀ rest, motive rest → motive (.continueLoop :: rest))
    (goto : ∀ name rest, motive rest → motive (.goto name :: rest))
    (returnValue : ∀ e rest, motive rest → motive (.returnValue e :: rest)) (ss : List Stmt) :
    motive ss := by
  have all : ∀ n (ss : List Stmt), sizeOf ss < n → motive ss := by
    intro n
    induction n with
    | zero => exact fun _ small => absurd small (Nat.not_lt_zero _)
    | succ n ih =>
        intro ss small
        rcases ss with _ | ⟨s, rest⟩
        · exact nil
        have positive := size_pos rest
        have later : motive rest := ih rest (by simp at small; omega)
        cases s
        all_goals simp at small
        · exact empty _ later
        · exact expr _ _ later
        · exact block _ _ (ih _ (by omega)) later
        · exact ifThen _ _ _ (ih _ (by simp; omega)) later
        · exact ifElse _ _ _ _ (ih _ (by simp; omega)) (ih _ (by simp; omega)) later
        · exact whileLoop _ _ _ (ih _ (by simp; omega)) later
        · exact forLoop _ _ _ _ _ (ih _ (by simp; omega)) later
        · exact doWhile _ _ _ (ih _ (by simp; omega)) later
        · rename_i cond body
          have front := size_prelude [body]
          have back := size_selected [body]
          simp at front back
          exact «switch» _ _ _ (ih _ (by simp; omega)) (ih _ (by omega)) (ih _ (by omega)) later
        · exact case _ _ _ (ih _ (by simp; omega)) (ih _ (by simp; omega))
        · exact default _ _ (ih _ (by simp; omega)) (ih _ (by simp; omega))
        · exact label _ _ _ (ih _ (by simp; omega)) later (ih _ (by simp; omega))
        · exact breakOut _ later
        · exact continueLoop _ later
        · exact goto _ _ later
        · exact returnValue _ _ later
  exact all _ ss (Nat.lt_succ_self _)

/-! The collected cases of the innermost switch. -/

def extend (entries : List CaseEntry) : List (List CaseEntry) → List (List CaseEntry)
  | [] => []
  | list :: outer => (list ++ entries) :: outer

@[simp] theorem extend_nil (stack : List (List CaseEntry)) : extend [] stack = stack := by
  cases stack <;> simp [extend]

@[simp] theorem extend_extend (first second : List CaseEntry) (stack : List (List CaseEntry)) :
    extend second (extend first stack) = extend (first ++ second) stack := by
  cases stack <;> simp [extend]

@[simp] theorem extend_length (entries : List CaseEntry) (stack : List (List CaseEntry)) :
    (extend entries stack).length = stack.length := by
  cases stack <;> rfl

theorem addCase_stack (p : Parser) (value : Option Nat) :
    (p.addCase value).caseStack = extend [⟨value, p.lblNum⟩] p.caseStack := by
  cases shape : p.caseStack <;> simp [Parser.addCase, extend, shape]

@[simp] theorem labelOf_stack (p : Parser) (name : String) :
    (p.labelOf name).2.caseStack = p.caseStack := by
  unfold Parser.labelOf
  split <;> rfl

@[simp] theorem define_stack (p : Parser) (num : Nat) : (p.define num).caseStack = p.caseStack := rfl

def Registers (ss : List Stmt) (p p' : Parser) : Prop :=
  ∃ entries, entries.map CaseEntry.value = cases ss ∧ p'.caseStack = extend entries p.caseStack

theorem Registers.append {first second : List Stmt} {p p₁ p₂ : Parser}
    (one : Registers first p p₁) (two : Registers second p₁ p₂) (whole : List Stmt)
    (same : cases whole = cases first ++ cases second) : Registers whole p p₂ := by
  obtain ⟨entries, values, stack⟩ := one
  obtain ⟨entries', values', stack'⟩ := two
  exact ⟨entries ++ entries', by rw [List.map_append, values, values', same],
    by rw [stack', stack, extend_extend]⟩

theorem Registers.none {ss : List Stmt} {p p' : Parser} (empty : cases ss = [])
    (same : p'.caseStack = p.caseStack) : Registers ss p p' :=
  ⟨[], empty.symm, by rw [same, extend_nil]⟩

/-- The statements register their own case labels, in order. -/
theorem build_registers (ss : List Stmt) : ∀ p : Parser, Registers ss p (build ss p).2 := by
  induction ss using stmts_induction with
  | nil => exact fun p => .none rfl rfl
  | empty rest ih => exact ih
  | expr e rest ih => exact ih
  | block items rest ihItems ihRest => exact fun p => (ihItems p).append (ihRest _) _ rfl
  | ifThen cond s rest ihBody ihRest =>
      intro p
      have body := build_single s p ▸ ihBody p
      exact body.append (ihRest _) _ (by simp [cases, Stmt.cases])
  | ifElse cond s o rest ihBody ihOther ihRest =>
      intro p
      have body := build_single s p ▸ ihBody p
      have other := build_single o _ ▸ ihOther (s.build p).2
      have both := body.append other [s, o] (by simp [cases])
      exact both.append (ihRest _) _ (by simp [cases, Stmt.cases])
  | whileLoop cond s rest ihBody ihRest =>
      intro p
      have body := build_single s p ▸ ihBody p
      exact body.append (ihRest _) _ (by simp [cases, Stmt.cases])
  | forLoop init test inc s rest ihBody ihRest =>
      intro p
      have body := build_single s p ▸ ihBody p
      exact body.append (ihRest _) _ (by simp [cases, Stmt.cases])
  | doWhile s cond rest ihBody ihRest =>
      intro p
      have body := build_single s p ▸ ihBody p
      exact body.append (ihRest _) _ (by simp [cases, Stmt.cases])
  | «switch» cond s rest ihBody _ _ ihRest =>
      intro p
      obtain ⟨entries, -, stack⟩ := build_single s _ ▸ ihBody p.enterSwitch
      have left : ((Stmt.switch cond s).build p).2.caseStack = p.caseStack := by
        rw [Stmt.build, Parser.leaveSwitch, stack, Parser.enterSwitch, extend, List.tail_cons]
      have whole : Registers [] p ((Stmt.switch cond s).build p).2 := .none rfl left
      exact whole.append (ihRest _) _ (by simp [cases, Stmt.cases])
  | case value s rest _ ih =>
      intro p
      have here : Registers [.case value .empty] p (p.addCase (some value)) :=
        ⟨[⟨some value, p.lblNum⟩], rfl, addCase_stack p _⟩
      exact here.append (ih _) _ rfl
  | default s rest _ ih =>
      intro p
      have here : Registers [.default .empty] p (p.addCase none) :=
        ⟨[⟨none, p.lblNum⟩], rfl, addCase_stack p _⟩
      exact here.append (ih _) _ rfl
  | label name s rest ihBody ihRest _ =>
      intro p
      obtain ⟨entries, values, stack⟩ := build_single s _ ▸ ihBody ((p.labelOf name).2.define _)
      rw [define_stack, labelOf_stack] at stack
      have body : Registers [s] p ((Stmt.label name s).build p).2 := ⟨entries, values, stack⟩
      exact body.append (ihRest _) _ (by simp [cases, Stmt.cases])
  | breakOut rest ih => exact ih
  | continueLoop rest ih => exact ih
  | goto name rest ih =>
      intro p
      have here : Registers [] p (p.labelOf name).2 := .none rfl (labelOf_stack p name)
      exact here.append (ih _) _ rfl
  | returnValue e rest ih => exact ih

/-! The parser reads the tokens of a statement as that statement. -/

attribute [local simp] stmt blockItems

def Readable (s : Stmt) : Prop :=
  ∀ (place : Place) (p : Parser) (fuel : Nat) (rest : List Tok), s.Fits place →
    p.caseStack.length = place.switches →
    (∀ list ∈ p.caseStack.head?, (list.map CaseEntry.value ++ s.cases).Nodup) →
    (s.endsOpen = true → rest.head? ≠ some .kwElse) → 2 * s.tokens.length ≤ fuel + 1 →
    stmt (fuel + 1) place.breaks place.loops (s.tokens ++ rest) p =
      .ok ((s.build p).1, rest, (s.build p).2)

def ReadableList (ss : List Stmt) : Prop :=
  ∀ (place : Place) (p : Parser) (fuel : Nat) (rest : List Tok), Fits place ss →
    p.caseStack.length = place.switches →
    (∀ list ∈ p.caseStack.head?, (list.map CaseEntry.value ++ cases ss).Nodup) →
    2 * (tokens ss).length ≤ fuel →
    blockItems (fuel + 1) place.breaks place.loops (tokens ss ++ .rbrace :: rest) p =
      .ok ((build ss p).1, rest, (build ss p).2)

theorem tokens_head (s : Stmt) : ∃ t more, s.tokens = t :: more ∧ t ≠ .rbrace ∧ t ≠ .kwElse := by
  cases s <;> simp [Stmt.tokens]

theorem blockItems_step {fuel breakable loops : Nat} {toks rest : List Tok} {p p₁ : Parser}
    {s : List Node} (head : ∃ t more, toks = t :: more ∧ t ≠ .rbrace)
    (first : stmt fuel breakable loops toks p = .ok (s, rest, p₁))
    {items : List Node} {rest' : List Tok} {p₂ : Parser}
    (second : blockItems fuel breakable loops rest p₁ = .ok (items, rest', p₂)) :
    blockItems (fuel + 1) breakable loops toks p = .ok (s ++ items, rest', p₂) := by
  obtain ⟨t, more, rfl, notBrace⟩ := head
  rw [blockItems]
  · rw [first]
    simp only [Bind.bind, Except.bind, second]
    rfl
  · rintro ⟨⟩
  · rintro rest ⟨⟩
    exact notBrace rfl

theorem registered_nodup {s : Stmt} {rest : List Stmt} {p p₁ : Parser}
    (registers : Registers [s] p p₁)
    (distinct : ∀ list ∈ p.caseStack.head?, (list.map CaseEntry.value ++ cases (s :: rest)).Nodup) :
    ∀ list ∈ p₁.caseStack.head?, (list.map CaseEntry.value ++ cases rest).Nodup := by
  obtain ⟨entries, values, stack⟩ := registers
  intro list member
  rw [stack] at member
  cases shape : p.caseStack with
  | nil => simp [shape, extend] at member
  | cons top outer =>
      rw [shape] at member distinct
      simp only [extend, List.head?_cons, Option.mem_def, Option.some.injEq] at member
      subst member
      have all := distinct top rfl
      simp only [cases, List.append_nil] at values
      rwa [cases, ← List.append_assoc, ← values, ← List.map_append] at all

theorem Readable.cons {s : Stmt} {rest : List Stmt} (readable : Readable s)
    (later : ReadableList rest) : ReadableList (s :: rest) := by
  intro place p fuel after fits depth distinct enough
  obtain ⟨t, more, shape, notBrace, notElse⟩ := tokens_head s
  have long : 1 ≤ s.tokens.length := by simp [shape]
  rw [tokens, List.length_append] at enough
  obtain ⟨fuel, rfl⟩ : ∃ f, fuel = f + 1 := ⟨fuel - 1, by omega⟩
  have registers := build_single s p ▸ build_registers [s] p
  rw [tokens, List.append_assoc, build]
  apply blockItems_step
  · exact ⟨t, more ++ (tokens rest ++ .rbrace :: after), by simp [shape], notBrace⟩
  · refine readable place p fuel _ fits.1 depth ?_ ?_ (by omega)
    · intro list member
      have all := distinct list member
      rw [cases, ← List.append_assoc] at all
      exact (List.nodup_append.mp all).1
    · intro _
      cases rest with
      | nil => simp [tokens]
      | cons next others =>
          obtain ⟨t, more, shape, -, notElse⟩ := tokens_head next
          simpa [tokens, shape] using notElse
  · refine later place _ fuel after fits.2 ?_ (registered_nodup registers distinct) (by omega)
    obtain ⟨entries, -, stack⟩ := registers
    rw [stack, extend_length, depth]

theorem optionalExpr_optional (stop : Tok) (notExpr : ∀ e, stop ≠ .expr e) (e : Option Expr)
    (rest : List Tok) : optionalExpr stop (optional e ++ stop :: rest) = .ok (e, stop :: rest) := by
  cases e with
  | none => simp [optional, optionalExpr]
  | some e =>
      rw [optional, List.cons_append, optionalExpr, if_neg (notExpr e).symm]
      rfl

def ReadableHead (ss : List Stmt) : Prop := ∀ s, ss.head? = some s → s.isCase = false → Readable s

theorem Readable.toList {s : Stmt} {rest : List Stmt} (readable : Readable s)
    (later : ReadableHead rest ∧ ReadableList rest) :
    ReadableHead (s :: rest) ∧ ReadableList (s :: rest) :=
  ⟨fun _ shape _ => by cases shape; exact readable, readable.cons later.2⟩

theorem stmt_if (fuel breakable loops : Nat) (cond : Expr) (rest : List Tok) (p : Parser) :
    stmt (fuel + 1) breakable loops (.kwIf :: .lparen :: .expr cond :: .rparen :: rest) p =
      (stmt fuel breakable loops rest p).bind fun r => match r.2.1 with
        | .kwElse :: rest => (stmt fuel breakable loops rest r.2.2).bind fun o =>
            .ok ([.ndIf cond r.1 o.1], o.2.1, o.2.2)
        | _ => .ok ([.ndIf cond r.1 []], r.2.1, r.2.2) := rfl

theorem readable_if {cond : Expr} {s : Stmt} (body : s.isCase = false → Readable s) :
    Readable (.ifThen cond s) := by
  intro place p fuel rest fits depth distinct noElse enough
  simp only [Stmt.tokens, List.length_cons] at enough
  obtain ⟨fuel, rfl⟩ : ∃ f, fuel = f + 1 := ⟨fuel - 1, by omega⟩
  have inner := body fits.1 place p fuel rest fits.2 depth distinct (fun _ => noElse rfl) (by omega)
  rw [Stmt.tokens, List.cons_append, List.cons_append, List.cons_append, List.cons_append, stmt_if,
    inner]
  cases rest with
  | nil => rfl
  | cons t rest =>
      have notElse : t ≠ .kwElse := fun same => noElse rfl (congrArg some same)
      simp only [Except.bind]
      split
      · rename_i shape
        cases shape
        exact absurd rfl notElse
      · rfl

theorem readable_ifElse {cond : Expr} {s o : Stmt} (body : s.isCase = false → Readable s)
    (other : o.isCase = false → Readable o) : Readable (.ifElse cond s o) := by
  intro place p fuel rest fits depth distinct noElse enough
  obtain ⟨notCase, closed, notCase', fits, fits'⟩ := fits
  simp only [Stmt.tokens, List.length_cons, List.length_append] at enough
  obtain ⟨fuel, rfl⟩ : ∃ f, fuel = f + 1 := ⟨fuel - 1, by omega⟩
  have registers := build_single s p ▸ build_registers [s] p
  have both : ∀ list ∈ p.caseStack.head?,
      (list.map CaseEntry.value ++ cases [s, o]).Nodup := by simpa [cases, Stmt.cases] using distinct
  have distinct' := registered_nodup registers both
  have inner := body notCase place p fuel (.kwElse :: (o.tokens ++ rest)) fits depth
    (fun list member => by
      have all := distinct list member
      rw [Stmt.cases, ← List.append_assoc] at all
      exact (List.nodup_append.mp all).1)
    (fun opened => by simp [closed] at opened) (by omega)
  have depth' : (s.build p).2.caseStack.length = place.switches := by
    obtain ⟨entries, -, stack⟩ := registers
    rw [stack, extend_length, depth]
  have inner' := other notCase' place (s.build p).2 fuel rest fits' depth'
    (by simpa [cases] using distinct') noElse (by omega)
  rw [Stmt.tokens, List.append_assoc, List.cons_append, List.cons_append, List.cons_append,
    List.cons_append, stmt_if, List.cons_append, inner, Except.bind]
  simp only [inner', Except.bind, Stmt.build]

theorem readable_loop (kind : Tok) (head : List Tok) (node : List Node → Node) {whole s : Stmt}
    (shape : whole.tokens = kind :: head ++ s.tokens) (body : s.isCase = false → Readable s)
    (fits : ∀ place, whole.Fits place → s.isCase = false ∧ place.breaks < 64 ∧ s.Fits place.loop)
    (cases : whole.cases = s.cases) (openEnd : whole.endsOpen = s.endsOpen)
    (built : ∀ p, whole.build p = ([node (s.build p).1], (s.build p).2))
    (reads : ∀ fuel breakable loops rest p, stmt (fuel + 1) breakable loops (kind :: head ++ rest) p =
      (stmt fuel (breakable + 1) (loops + 1) rest p).bind fun r => .ok ([node r.1], r.2.1, r.2.2)) :
    Readable whole := by
  intro place p fuel rest fitting depth distinct noElse enough
  rw [shape] at enough
  simp only [List.length_append, List.length_cons] at enough
  obtain ⟨fuel, rfl⟩ : ∃ f, fuel = f + 1 := ⟨fuel - 1, by omega⟩
  obtain ⟨notCase, -, inside⟩ := fits place fitting
  have inner := body notCase place.loop p fuel rest inside depth (cases ▸ distinct)
    (fun opened => noElse (openEnd.trans opened)) (by omega)
  rw [shape, List.append_assoc, reads, built, show place.breaks + 1 = place.loop.breaks from rfl,
    show place.loops + 1 = place.loop.loops from rfl, inner]
  rfl

theorem readable_while {cond : Expr} {s : Stmt} (body : s.isCase = false → Readable s) :
    Readable (.whileLoop cond s) :=
  readable_loop .kwWhile [.lparen, .expr cond, .rparen] (.ndWhile cond) rfl body (fun _ fits => fits)
    rfl rfl (fun _ => rfl) fun _ _ _ _ _ => rfl

theorem readable_for {init test inc : Option Expr} {s : Stmt} (body : s.isCase = false → Readable s) :
    Readable (.forLoop init test inc s) := by
  refine readable_loop .kwFor (.lparen :: optional init ++ .semi :: optional test ++ .semi ::
    optional inc ++ [.rparen]) (.ndFor init test inc) (by simp [Stmt.tokens]) body
    (fun _ fits => fits) rfl rfl (fun _ => rfl) fun fuel breakable loops rest p => ?_
  have first := optionalExpr_optional .semi (fun _ => nofun) init (optional test ++ .semi ::
    (optional inc ++ .rparen :: rest))
  have second := optionalExpr_optional .semi (fun _ => nofun) test (optional inc ++ .rparen :: rest)
  have third := optionalExpr_optional .rparen (fun _ => nofun) inc rest
  have shape : .kwFor :: (.lparen :: optional init ++ .semi :: optional test ++ .semi :: optional inc
      ++ [.rparen]) ++ rest = .kwFor :: .lparen :: (optional init ++ .semi :: (optional test ++ .semi ::
        (optional inc ++ .rparen :: rest))) := by simp
  rw [shape, stmt]
  simp only [skip, ↓reduceIte, Bind.bind, Except.bind, first, second, third]
  rfl

theorem readable_do {cond : Expr} {s : Stmt} (body : s.isCase = false → Readable s) :
    Readable (.doWhile s cond) := by
  intro place p fuel rest fits depth distinct _ enough
  obtain ⟨notCase, -, fits⟩ := fits
  simp only [Stmt.tokens, List.length_cons, List.length_append] at enough
  obtain ⟨fuel, rfl⟩ : ∃ f, fuel = f + 1 := ⟨fuel - 1, by omega⟩
  have inner := body notCase place.loop p fuel
    (.kwWhile :: .lparen :: .expr cond :: .rparen :: .semi :: rest) fits depth distinct
    (fun _ => by simp) (by omega)
  have shape : (Stmt.doWhile s cond).tokens ++ rest = .kwDo :: (s.tokens ++
      .kwWhile :: .lparen :: .expr cond :: .rparen :: .semi :: rest) := by simp [Stmt.tokens]
  rw [shape, stmt]
  simp only [Place.loop] at inner
  simp only [Bind.bind, Except.bind, inner]
  rfl

theorem readable_switch {cond : Expr} {s : Stmt} (body : s.isCase = false → Readable s) :
    Readable (.switch cond s) := by
  intro place p fuel rest fits depth distinct noElse enough
  obtain ⟨notCase, -, room, values, -, -, fits⟩ := fits
  simp only [Stmt.tokens, List.length_cons] at enough
  obtain ⟨fuel, rfl⟩ : ∃ f, fuel = f + 1 := ⟨fuel - 1, by omega⟩
  have inner := body notCase place.switch p.enterSwitch fuel rest fits
    (by simp [Parser.enterSwitch, Place.switch, depth])
    (by simpa [Parser.enterSwitch] using values) noElse (by omega)
  have open_ : ¬ 32 ≤ p.caseStack.length := by omega
  rw [Stmt.tokens, List.cons_append, List.cons_append, List.cons_append, List.cons_append, stmt]
  simp only [Place.switch, Parser.enterSwitch] at inner
  simp only [skip, expr, ↓reduceIte, Bind.bind, Except.bind, if_neg open_, inner]
  rfl

theorem readable_label {name : String} {s : Stmt} (body : s.isCase = false → Readable s) :
    Readable (.label name s) := by
  intro place p fuel rest fits depth distinct noElse enough
  simp only [Stmt.tokens, List.length_cons] at enough
  obtain ⟨fuel, rfl⟩ : ∃ f, fuel = f + 1 := ⟨fuel - 1, by omega⟩
  have inner := body fits.1 place ((p.labelOf name).2.define (p.labelOf name).1) fuel rest fits.2
    (by simpa using depth) (by simpa [Stmt.cases] using distinct) noElse (by omega)
  rw [Stmt.tokens, List.cons_append, List.cons_append, stmt]
  simp only [Bind.bind, Except.bind, inner]
  rfl

theorem readable_block {items : List Stmt} (inside : ReadableList items) :
    Readable (.block items) := by
  intro place p fuel rest fits depth distinct _ enough
  simp only [Stmt.tokens, List.length_cons, List.length_append] at enough
  obtain ⟨fuel, rfl⟩ : ∃ f, fuel = f + 1 := ⟨fuel - 1, by omega⟩
  have inner := inside place p fuel rest fits depth distinct (by omega)
  have shape : (Stmt.block items).tokens ++ rest = .lbrace :: (tokens items ++ .rbrace :: rest) := by
    simp [Stmt.tokens]
  rw [shape, stmt, inner]
  rfl

/-- Statements that are read by their first token alone. -/
theorem readable_simple {s : Stmt}
    (reads : ∀ place p fuel rest, s.Fits place →
      stmt (fuel + 1) place.breaks place.loops (s.tokens ++ rest) p =
        .ok ((s.build p).1, rest, (s.build p).2)) : Readable s :=
  fun place p fuel rest fits _ _ _ _ => reads place p fuel rest fits

theorem registerCase_addCase {p : Parser} {value : Option Nat} (inside : p.caseStack ≠ [])
    (fresh : ∀ list ∈ p.caseStack.head?, value ∉ list.map CaseEntry.value) :
    Parser.registerCase { p with lblNum := p.lblNum + 1 } ⟨value, p.lblNum⟩ = .ok (p.addCase value) := by
  cases shape : p.caseStack with
  | nil => exact absurd shape inside
  | cons list outer =>
      have absent : (list.any fun e => decide (e.value = value)) = false := by
        rw [List.any_eq_false]
        intro e member
        have := fresh list (by simp [shape])
        simp only [decide_eq_true_eq]
        exact fun same => this (same ▸ List.mem_map_of_mem member)
      simp [Parser.registerCase, Parser.addCase, shape, absent]

theorem readable_marked {value : Option Nat} (toks : List Tok) {node : Nat → Node} {whole s : Stmt}
    {rest : List Stmt} (later : ReadableList (s :: rest))
    (head : ∃ t more, toks = t :: more ∧ t ≠ .rbrace) (shape : whole.tokens = toks ++ s.tokens)
    (fits : ∀ place, whole.Fits place → 0 < place.switches ∧ s.Fits place)
    (cases : whole.cases = value :: s.cases)
    (built : ∀ p, whole.build p =
      (node p.lblNum :: (s.build (p.addCase value)).1, (s.build (p.addCase value)).2))
    (reads : ∀ fuel breakable loops rest p, stmt (fuel + 1) breakable loops (toks ++ rest) p =
      (Parser.registerCase { p with lblNum := p.lblNum + 1 } ⟨value, p.lblNum⟩).bind fun p' =>
        .ok ([node p.lblNum], rest, p')) :
    ReadableList (whole :: rest) := by
  intro place p fuel after fitting depth distinct enough
  obtain ⟨inSwitch, inside⟩ := fits place fitting.1
  obtain ⟨t, more, rfl, notBrace⟩ := head
  rw [tokens, shape] at enough
  simp only [List.length_append, List.length_cons] at enough
  obtain ⟨fuel, rfl⟩ : ∃ f, fuel = f + 1 := ⟨fuel - 1, by omega⟩
  have nonempty : p.caseStack ≠ [] := by
    intro empty
    rw [empty] at depth
    simp at depth
    omega
  have all : ∀ list ∈ p.caseStack.head?,
      (list.map CaseEntry.value ++ value :: (s.cases ++ Statements.cases rest)).Nodup := by
    intro list member
    have := distinct list member
    rwa [Statements.cases, cases, List.cons_append] at this
  have fresh : ∀ list ∈ p.caseStack.head?, value ∉ list.map CaseEntry.value := fun list member =>
    fun old => (List.nodup_append.mp (all list member)).2.2 value old value List.mem_cons_self rfl
  have stack := addCase_stack p value
  have second := later place (p.addCase value) fuel after ⟨inside, fitting.2⟩
    (by rw [stack, extend_length, depth]) ?_ (by rw [tokens, List.length_append]; omega)
  · rw [tokens, shape, build, built]
    have first : stmt (fuel + 1) place.breaks place.loops
        (t :: more ++ (tokens (s :: rest) ++ .rbrace :: after)) p =
        .ok ([node p.lblNum], tokens (s :: rest) ++ .rbrace :: after, p.addCase value) := by
      rw [reads, registerCase_addCase nonempty fresh]
      rfl
    have joined := blockItems_step ⟨t, more ++ _, rfl, notBrace⟩ first second
    simpa [build, tokens] using joined
  · intro list member
    obtain ⟨top, outer, shape⟩ := List.exists_cons_of_ne_nil nonempty
    rw [stack, shape] at member
    simp only [extend, List.head?_cons, Option.mem_def, Option.some.injEq] at member
    subst member
    have := all top (by simp [shape])
    simpa [Statements.cases] using this

theorem readable (ss : List Stmt) : ReadableHead ss ∧ ReadableList ss := by
  induction ss using stmts_induction with
  | nil => exact ⟨fun s head => by simp at head, fun place p fuel rest _ _ _ _ => rfl⟩
  | empty rest ih => exact (readable_simple fun _ _ _ _ _ => rfl).toList ih
  | expr e rest ih => exact (readable_simple fun _ _ _ _ _ => rfl).toList ih
  | block items rest ihItems ihRest => exact (readable_block ihItems.2).toList ihRest
  | ifThen cond s rest ihBody ihRest => exact (readable_if (ihBody.1 s rfl)).toList ihRest
  | ifElse cond s o rest ihBody ihOther ihRest =>
      exact (readable_ifElse (ihBody.1 s rfl) (ihOther.1 o rfl)).toList ihRest
  | whileLoop cond s rest ihBody ihRest => exact (readable_while (ihBody.1 s rfl)).toList ihRest
  | forLoop init test inc s rest ihBody ihRest => exact (readable_for (ihBody.1 s rfl)).toList ihRest
  | doWhile s cond rest ihBody ihRest => exact (readable_do (ihBody.1 s rfl)).toList ihRest
  | «switch» cond s rest ihBody _ _ ihRest => exact (readable_switch (ihBody.1 s rfl)).toList ihRest
  | case value s rest _ ih =>
      refine ⟨fun _ shape notCase => ?_, ?_⟩
      · cases shape
        cases notCase
      exact readable_marked [.kwCase, .expr (.num value), .colon] ih.2 ⟨_, _, rfl, nofun⟩ rfl
        (fun _ fits => fits) rfl (fun _ => rfl) fun _ _ _ _ _ => rfl
  | default s rest _ ih =>
      refine ⟨fun _ shape notCase => ?_, ?_⟩
      · cases shape
        cases notCase
      exact readable_marked [.kwDefault, .colon] ih.2 ⟨_, _, rfl, nofun⟩ rfl
        (fun _ fits => fits) rfl (fun _ => rfl) fun _ _ _ _ _ => rfl
  | label name s rest ihBody ihRest _ => exact (readable_label (ihBody.1 s rfl)).toList ihRest
  | breakOut rest ih =>
      refine (readable_simple fun place p fuel rest fits => ?_).toList ih
      have inside : place.breaks ≠ 0 := Nat.pos_iff_ne_zero.mp fits
      simp [Stmt.tokens, stmt, skip, Bind.bind, Except.bind, inside, Stmt.build, Pure.pure, Except.pure]
  | continueLoop rest ih =>
      refine (readable_simple fun place p fuel rest fits => ?_).toList ih
      have inside : place.loops ≠ 0 := Nat.pos_iff_ne_zero.mp fits
      simp [Stmt.tokens, stmt, skip, Bind.bind, Except.bind, inside, Stmt.build, Pure.pure, Except.pure]
  | goto name rest ih => exact (readable_simple fun _ _ _ _ _ => rfl).toList ih
  | returnValue e rest ih =>
      cases e with
      | none => exact (readable_simple fun _ _ _ _ _ => rfl).toList ih
      | some e => exact (readable_simple fun _ _ _ _ _ => rfl).toList ih

end SymphonyPlus.Statements
