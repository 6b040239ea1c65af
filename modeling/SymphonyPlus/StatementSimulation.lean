import SymphonyPlus.Results
import SymphonyPlus.StatementFlow

/-! Each step of the statement machine is some steps of the code. -/

namespace SymphonyPlus.Statements

open StutterSimulation

attribute [local simp] Stmt.find find

@[simp] theorem to_history (s : State) (focus : List Stmt) (k : Cont) :
    (s.to focus k).history = s.history := rfl

@[simp] theorem jump_history (s : State) (place : List Stmt × Cont) :
    (s.jump place).history = s.history := rfl

@[simp] theorem evaluate_history (s : State) (e : Expr) :
    (s.evaluate e).history = s.history ++ [e] := rfl

@[simp] theorem evaluateSome_history (s : State) (e : Option Expr) :
    (s.evaluateSome e).history = s.history ++ e.toList := by
  cases e <;> simp [State.evaluateSome]

theorem next_log {before : Stmt → List Stmt} {world : World} {program : List Stmt} {s s' : State}
    (step : next before world program s = some s') : s.history <+: s'.history := by
  unfold next at step
  split at step
  all_goals
    try split at step
  all_goals
    first
      | (obtain rfl := Option.some.inj step; simp)
      | (obtain ⟨place, _, rfl⟩ := Option.map_eq_some_iff.mp step; simp)
      | cases step

def stmtMachine (before : Stmt → List Stmt) (world : World) (program : List Stmt) :
    Automaton State Expr where
  next := next before world program
  done := State.done
  log := State.history
  done_next := by
    rintro ⟨focus, k, history⟩ ⟨rfl, rfl⟩
    rfl
  log_next := fun _ _ step => next_log step

theorem execute_log {world : World} {code : List Line} {c c' : Cpu}
    (step : execute world code c = some c') : c.history <+: c'.history := by
  unfold execute at step
  split at step
  · cases step
  · split at step
    · cases step
    · dsimp only at step
      split at step
      all_goals
        try split at step
      all_goals
        first
          | (obtain rfl := Option.some.inj step; simp [Cpu.evaluate])
          | (obtain ⟨rest, _, rfl⟩ := Option.map_eq_some_iff.mp step; simp)

def codeMachine (world : World) (code : List Line) : Automaton Cpu Expr where
  next := execute world code
  done := fun c => c.returned = true
  log := Cpu.history
  done_next := fun c returned => by simp [execute, returned]
  log_next := fun _ _ step => execute_log step

theorem target_eq {l : Label} {code rest : List Line} (found : target l code = some rest) :
    ∃ after, rest = .label l :: after := by
  induction code with
  | nil => cases found
  | cons line code ih =>
      simp only [target] at found
      split at found
      · rename_i same
        exact ⟨code, by rw [← Option.some.inj found, same]⟩
      · exact ih found

theorem target_suffix {l : Label} {code rest : List Line} (found : target l code = some rest) :
    rest <:+ code := by
  induction code with
  | nil => cases found
  | cons line code ih =>
      simp only [target] at found
      split at found
      · exact Option.some.inj found ▸ List.suffix_rfl
      · exact (ih found).trans (List.suffix_cons line code)

def definedLabels (code : List Line) : List Label :=
  code.filterMap fun line => match line with
    | .label l => some l
    | _ => none

@[simp] theorem definedLabels_nil : definedLabels [] = [] := rfl

@[simp] theorem definedLabels_label (l : Label) (code : List Line) :
    definedLabels (Line.label l :: code) = l :: definedLabels code := rfl

@[simp] theorem definedLabels_append (first second : List Line) :
    definedLabels (first ++ second) = definedLabels first ++ definedLabels second :=
  List.filterMap_append

theorem mem_definedLabels {l : Label} {code : List Line} :
    l ∈ definedLabels code ↔ .label l ∈ code := by
  simp only [definedLabels, List.mem_filterMap]
  constructor
  · rintro ⟨line, member, same⟩
    cases line <;> simp_all
  · exact fun member => ⟨.label l, member, rfl⟩

/-- When no label stands twice, a jump finds the place the label stands at. -/
theorem target_of_suffix {l : Label} {code after : List Line} (distinct : (definedLabels code).Nodup)
    (inside : (Line.label l :: after) <:+ code) : target l code = some (.label l :: after) := by
  obtain ⟨front, rfl⟩ := inside
  have absent : .label l ∉ front := by
    rw [definedLabels_append, definedLabels_label] at distinct
    intro member
    exact List.disjoint_of_nodup_append distinct (mem_definedLabels.mpr member) List.mem_cons_self
  induction front with
  | nil => simp [target]
  | cons line front ih =>
      have other : line ≠ .label l := fun same => absent (same ▸ List.mem_cons_self)
      have tail : (definedLabels (front ++ Line.label l :: after)).Nodup :=
        distinct.sublist ((List.sublist_cons_self line _).filterMap _)
      rw [List.cons_append, target, if_neg other]
      exact ih tail fun member => absent (List.mem_cons_of_mem _ member)

section
variable {world : World} {code : List Line} {c : Cpu}

/-! What the code does line by line. -/

theorem run_line {d : Cpu} (step : execute world code c = some d) :
    Moves (codeMachine world code) 1 c d := .single step

theorem run_label {l : Label} {rest : List Line} (running : c.returned = false)
    (here : c.rest = .label l :: rest) :
    Moves (codeMachine world code) 1 c (c.on rest) :=
  run_line (by simp [execute, running, here])

theorem run_jump {l : Label} {rest found : List Line} (running : c.returned = false)
    (here : c.rest = .jmp l :: rest) (target : target l code = some found) :
    Moves (codeMachine world code) 1 c (c.on found) :=
  run_line (by simp [execute, running, here, target])

theorem run_expr {e : Expr} {rest : List Line} (running : c.returned = false)
    (here : c.rest = .expr e :: rest) :
    Moves (codeMachine world code) 1 c ((c.on rest).evaluate world e) :=
  run_line (by simp [execute, running, here])

variable (world) in
theorem Silent.run {start final : List Line} (silent : Silent code start final) :
    ∀ {c : Cpu}, c.returned = false → c.rest = start →
      ∃ n, Moves (codeMachine world code) n c (c.on final) := by
  induction silent with
  | refl lines => exact fun {c} _ here => ⟨0, by cases c; cases here; exact .refl _⟩
  | @jump _ _ middle _ found _ ih =>
      intro c running here
      obtain ⟨n, run⟩ := @ih (c.on middle) running rfl
      exact ⟨1 + n, (run_jump running here found).trans run⟩
  | @label _ rest _ _ ih =>
      intro c running here
      obtain ⟨n, run⟩ := @ih (c.on rest) running rfl
      exact ⟨1 + n, (run_label running here).trans run⟩

theorem Silent.trans {first second third : List Line} (one : Silent code first second)
    (two : Silent code second third) : Silent code first third := by
  induction one with
  | refl => exact two
  | jump found _ ih => exact .jump found (ih two)
  | label _ ih => exact .label (ih two)

theorem Silent.suffix {start final : List Line} (silent : Silent code start final)
    (inside : start <:+ code) : final <:+ code := by
  induction silent with
  | refl => exact inside
  | jump found _ ih => exact ih (target_suffix found)
  | label _ ih => exact ih ((List.suffix_cons _ _).trans inside)

variable (world) in
/-- A condition and the branch on it: on at its target when the outcome is zero. -/
theorem run_test {e : Expr} {l : Label} {rest found : List Line} (running : c.returned = false)
    (here : c.rest = .expr e :: branch l ++ rest) (aim : target l code = some found) :
    ∃ c', Moves (codeMachine world code) 4 c c' ∧ c'.history = c.history ++ [e] ∧
      c'.returned = false ∧ c'.slots = c.slots ∧
      c'.rest = if world.outcome c.history = 0 then found else rest := by
  have first : Moves (codeMachine world code) 1 c _ := run_expr running here
  have second : Moves (codeMachine world code) 1 ((c.on (branch l ++ rest)).evaluate world e)
      { c.evaluate world e with rest := .cmp :: .je l :: rest, r2 := 0 } :=
    run_line (by simp [execute, running, branch, Cpu.evaluate])
  have third : Moves (codeMachine world code) 1
      { c.evaluate world e with rest := .cmp :: .je l :: rest, r2 := 0 }
      { c.evaluate world e with
        rest := .je l :: rest, r2 := 0, equal := decide (world.outcome c.history = 0) } :=
    run_line (by simp [execute, running, Cpu.evaluate])
  refine ⟨{ c.evaluate world e with
    rest := if world.outcome c.history = 0 then found else rest
    r2 := 0
    equal := decide (world.outcome c.history = 0) }, ((first.trans second).trans third).trans
      (run_line ?_), rfl, running, rfl, rfl⟩
  by_cases zero : world.outcome c.history = 0
  · simp [execute, running, Cpu.evaluate, zero, aim]
  · simp [execute, running, Cpu.evaluate, zero]

/-! A comparison chain leaves through the entry of its value. -/

variable (world code) in
theorem run_numReg {value : Nat} {lines rest : List Line} (emitted : genNumReg value = .ok lines)
    (running : c.returned = false) (here : c.rest = lines ++ rest) :
    ∃ n c', Moves (codeMachine world code) n c c' ∧ c' = { c with rest := rest, r2 := value } := by
  unfold genNumReg at emitted
  split at emitted
  · cases emitted
  rename_i bound
  have high : value / 65536 % 65536 = value / 65536 := Nat.mod_eq_of_lt (by omega)
  have joined : (value / 65536) <<< 16 + value % 65536 = value := by
    rw [Nat.shiftLeft_eq]
    omega
  have shifted : (value / 65536) <<< 16 % 2 ^ 32 = (value / 65536) <<< 16 :=
    Nat.mod_eq_of_lt (by omega)
  rw [high] at emitted
  split at emitted
  · split at emitted
    · obtain rfl := Except.ok.inj emitted
      have merged : (value / 65536) <<< 16 ||| value % 65536 = value := by
        rw [← Nat.shiftLeft_add_eq_or_of_lt (by omega), joined]
      refine ⟨3, _, .head (t := { c with
        rest := .lslR2 :: .orR2 (value % 65536) :: rest, r2 := value / 65536 }) ?_ (.head (t := { c with
        rest := .orR2 (value % 65536) :: rest, r2 := (value / 65536) <<< 16 }) ?_ (.single ?_)), rfl⟩
      · simp [codeMachine, execute, running, here]
      · simp only [codeMachine, execute, running, shifted, Bool.false_eq_true, ↓reduceIte]
      · simp [codeMachine, execute, running, merged]
    · rename_i low
      obtain rfl := Except.ok.inj emitted
      have whole : (value / 65536) <<< 16 % 2 ^ 32 = value := by omega
      refine ⟨2, _, .head (t := { c with rest := .lslR2 :: rest, r2 := value / 65536 }) ?_
        (.single ?_), rfl⟩
      · simp [codeMachine, execute, running, here]
      · simp only [codeMachine, execute, running, whole, Bool.false_eq_true, ↓reduceIte]
  · rename_i low
    obtain rfl := Except.ok.inj emitted
    have whole : value % 65536 = value := by omega
    exact ⟨1, _, run_line (by simp [execute, running, here, whole]), rfl⟩

variable (world code) in
theorem run_chain {offset value : Nat} {rest : List Line} :
    ∀ {ms : List CaseEntry} {chain : List Line} {c : Cpu}, genChain offset ms = .ok chain →
      c.returned = false → c.rest = chain ++ rest → c.slots offset = value →
      (∀ e ∈ ms, ∃ found, target (.lg e.num) code = some found) →
      ∃ n c', Moves (codeMachine world code) n c c' ∧ c'.history = c.history ∧
        c'.returned = false ∧ c'.slots = c.slots ∧
        ((∃ e ∈ ms, e.value = some value ∧ 0 < n ∧ target (.lg e.num) code = some c'.rest) ∨
          ((∀ e ∈ ms, e.value ≠ some value) ∧ c'.rest = rest))
  | [], _, c, emitted, running, here, _, _ => by
      obtain rfl := Except.ok.inj emitted
      exact ⟨0, c, .refl c, rfl, running, rfl, .inr ⟨by simp, here⟩⟩
  | ⟨none, num⟩ :: ms, chain, c, emitted, running, here, kept, placed => by
      have emitted : genChain offset ms = .ok chain := emitted
      obtain ⟨n, c', run, history, running', slots, place⟩ := run_chain emitted running here
        kept fun e member => placed e (List.mem_cons_of_mem _ member)
      refine ⟨n, c', run, history, running', slots, place.imp ?_ ?_⟩
      · exact fun ⟨e, member, fact⟩ => ⟨e, List.mem_cons_of_mem _ member, fact⟩
      · exact fun ⟨absent, here⟩ => ⟨by simpa using absent, here⟩
  | ⟨some v, num⟩ :: ms, chain, c, emitted, running, here, kept, placed => by
      rw [genChain] at emitted
      obtain ⟨constant, number, emitted⟩ := Except.of_bind_ok emitted
      obtain ⟨later, chained, emitted⟩ := Except.of_bind_ok emitted
      obtain rfl := Except.ok.inj emitted
      obtain ⟨found, aim⟩ := placed _ List.mem_cons_self
      have load : Moves (codeMachine world code) 2 c { c with
          rest := constant ++ Line.cmp :: .je (.lg num) :: (later ++ rest)
          r9 := offset, r1 := value } :=
        .head (t := { c with
          rest := .loadSlot :: constant ++ Line.cmp :: .je (.lg num) :: (later ++ rest), r9 := offset })
          (by simp [codeMachine, execute, running, here])
          (.single (by simp [codeMachine, execute, running, kept]))
      obtain ⟨n, c₁, numbered, rfl⟩ := run_numReg world code number
        (c := { c with
          rest := constant ++ Line.cmp :: .je (.lg num) :: (later ++ rest), r9 := offset, r1 := value })
        running rfl
      have compare : Moves (codeMachine world code) 1 _ { c with
          rest := .je (.lg num) :: (later ++ rest), r9 := offset, r1 := value, r2 := v
          equal := decide (value = v) } :=
        run_line (c := { c with
          rest := .cmp :: .je (.lg num) :: (later ++ rest), r9 := offset, r1 := value, r2 := v })
          (by simp [execute, running])
      have before := (load.trans numbered).trans compare
      by_cases same : value = v
      · refine ⟨_, _, before.trans (run_line (d := { c with
          rest := found, r9 := offset, r1 := value, r2 := v, equal := decide (value = v) })
          (by simp [execute, running, same, aim])), rfl, running, rfl, .inl ?_⟩
        exact ⟨_, List.mem_cons_self, congrArg some same.symm, by omega, aim⟩
      · have on : Moves (codeMachine world code) 1 _ { c with
            rest := later ++ rest, r9 := offset, r1 := value, r2 := v
            equal := decide (value = v) } :=
          run_line (c := { c with
            rest := .je (.lg num) :: (later ++ rest), r9 := offset, r1 := value, r2 := v
            equal := decide (value = v) }) (by simp [execute, running, same])
        obtain ⟨m, c', run, history, running', slots, place⟩ := run_chain chained
          (c := { c with
            rest := later ++ rest, r9 := offset, r1 := value, r2 := v
            equal := decide (value = v) })
          running rfl kept fun e member => placed e (List.mem_cons_of_mem _ member)
        refine ⟨_, c', (before.trans on).trans run, history, running', slots, place.imp ?_ ?_⟩
        · exact fun ⟨e, member, fits, _, aim⟩ =>
            ⟨e, List.mem_cons_of_mem _ member, fits, by omega, aim⟩
        · refine fun ⟨absent, here⟩ => ⟨fun e member => ?_, here⟩
          rcases List.mem_cons.mp member with rfl | member
          · exact fun equal => same (Option.some.inj equal).symm
          · exact absent e member

/-! The places the machine can be in. -/

variable {layout : Layout}

/-- Storing below the bound leaves the values the outer switches wait for. -/
theorem At.store {slots : Nat → Nat} {bound offset value : Nat} {k : Cont} {ctx : Context}
    {lines : List Line} (place : At layout code slots bound k ctx lines) (below : offset < bound) :
    At layout code (fun o => if o = offset then value else slots o) bound k ctx lines := by
  induction place with
  | stop => exact .stop
  | seq silent emitted _ ih => exact .seq silent emitted (ih below)
  | whileBody loop _ start stop ih => exact .whileBody loop (ih below) start stop
  | forBody loop _ start stop again ih => exact .forBody loop (ih below) start stop again
  | doBody loop _ start stop again ih => exact .doBody loop (ih below) start stop again
  | switchBody _ stop ih => exact .switchBody (ih below) stop
  | select low high kept chain unique body same _ inside ih =>
      refine .select low high ?_ chain unique body same (ih (by omega)) inside
      rw [if_neg (by omega), kept]

/-- What a jump to a place of the machine needs: the lines from its target on. -/
def Reached (layout : Layout) (code : List Line) (slots : Nat → Nat) (l : Label)
    (focus : List Stmt) (k : Cont) : Prop :=
  ∃ start bound ctx lines after ms, target l code = some start ∧ Silent code start (lines ++ after) ∧
    Emits layout bound focus ctx lines ms ∧ At layout code slots bound k ctx after

theorem At.breakTo {slots : Nat → Nat} {k : Cont} : ∀ {bound : Nat} {ctx : Context} {l : Label}
    {lines : List Line}, At layout code slots bound k ctx lines → ctx.brk = some l →
    ∃ k', breakTo k = some k' ∧ Reached layout code slots l [] k' := by
  induction k with
  | stop => exact fun place aim => by cases place; cases aim
  | seq rest k ih =>
      intro bound ctx l lines place aim
      cases place with
      | seq _ _ place => exact ih place aim
  | whileBody cond s k ih =>
      intro bound ctx l lines place aim
      cases place with
      | whileBody _ place _ stop =>
          cases aim
          exact ⟨k, rfl, _, _, _, [], _, [], stop, .label (.refl _), .nil, place⟩
  | forBody cond inc s k ih =>
      intro bound ctx l lines place aim
      cases place with
      | forBody _ place _ stop _ =>
          cases aim
          exact ⟨k, rfl, _, _, _, [], _, [], stop, .label (.refl _), .nil, place⟩
  | doBody s cond k ih =>
      intro bound ctx l lines place aim
      cases place with
      | doBody _ place _ stop _ =>
          cases aim
          exact ⟨k, rfl, _, _, _, [], _, [], stop, .label (.refl _), .nil, place⟩
  | switchBody k ih =>
      intro bound ctx l lines place aim
      cases place with
      | switchBody place stop =>
          cases aim
          exact ⟨k, rfl, _, _, _, [], _, [], stop, .label (.refl _), .nil, place⟩
  | select value s k ih =>
      intro bound ctx l lines place aim
      cases place with
      | select _ _ _ _ _ _ _ place _ => exact ih place aim

theorem At.continueTo {slots : Nat → Nat} {k : Cont} : ∀ {bound : Nat} {ctx : Context} {l : Label}
    {lines : List Line}, At layout code slots bound k ctx lines → ctx.cont = some l →
    ∃ focus k', continueTo k = some (focus, k') ∧ Reached layout code slots l focus k' := by
  induction k with
  | stop => exact fun place aim => by cases place; cases aim
  | seq rest k ih =>
      intro bound ctx l lines place aim
      cases place with
      | seq _ _ place => exact ih place aim
  | whileBody cond s k ih =>
      intro bound ctx l lines place aim
      cases place with
      | whileBody loop place start _ =>
          cases aim
          exact ⟨_, k, rfl, _, _, _, _, _, _, start, .refl _, loop, place⟩
  | forBody cond inc s k ih =>
      intro bound ctx l lines place aim
      cases place with
      | forBody loop place start stop again =>
          cases aim
          exact ⟨_, _, rfl, _, _, _, [], _, [], again, .refl _, .nil,
            .forBody loop place start stop again⟩
  | doBody s cond k ih =>
      intro bound ctx l lines place aim
      cases place with
      | doBody loop place start stop again =>
          cases aim
          exact ⟨_, _, rfl, _, _, _, [], _, [], again, .refl _, .nil,
            .doBody loop place start stop again⟩
  | switchBody k ih =>
      intro bound ctx l lines place aim
      cases place with
      | switchBody place _ => exact ih place aim
  | select value s k ih =>
      intro bound ctx l lines place aim
      cases place with
      | select _ _ _ _ _ _ _ place _ => exact ih place aim

/-! Entering the body of a loop or a switch. -/

section
variable {slots : Nat → Nat} {bound : Nat} {k : Cont} {ctx : Context} {s : Stmt}
variable {body after : List Line} {ms : List CaseEntry} {cond : Expr} {lend : Label}

theorem At.enterWhile {lbegin poll : Label} (distinct : (definedLabels code).Nodup)
    (inside : (Line.label lbegin :: .label poll :: .expr cond :: branch lend ++ body
      ++ Line.jmp lbegin :: .label lend :: after) <:+ code)
    (emitted : Emits layout bound [s] ⟨some lend, some lbegin⟩ body ms)
    (place : At layout code slots bound k ctx after) :
    At layout code slots bound (.whileBody cond s k) ⟨some lend, some lbegin⟩
      (.jmp lbegin :: .label lend :: after) := by
  have loop : Emits layout bound [.whileLoop cond s] ctx (Line.label lbegin :: .label poll ::
      .expr cond :: branch lend ++ body ++ [Line.jmp lbegin, .label lend]) (ms ++ []) :=
    .whileLoop emitted .nil
  refine .whileBody loop place ?_ ?_
  · rw [target_of_suffix distinct inside]
    simp
  · apply target_of_suffix distinct
    refine List.IsSuffix.trans ⟨?_, ?_⟩ inside
    · exact Line.label lbegin :: .label poll :: .expr cond :: branch lend ++ body ++ [Line.jmp lbegin]
    · simp

theorem At.enterFor {test inc : Option Expr} {lbegin lcont poll : Label}
    (distinct : (definedLabels code).Nodup)
    (inside : (Line.label lbegin :: .label poll :: testLines lend test ++ body
      ++ Line.label lcont :: valueLines inc ++ Line.jmp lbegin :: .label lend :: after) <:+ code)
    (emitted : Emits layout bound [s] ⟨some lend, some lcont⟩ body ms)
    (place : At layout code slots bound k ctx after) :
    At layout code slots bound (.forBody test inc s k) ⟨some lend, some lcont⟩
      (Line.label lcont :: valueLines inc ++ Line.jmp lbegin :: .label lend :: after) := by
  have loop : Emits layout bound [.forLoop none test inc s] ctx (stmtLines none ++ Line.label lbegin ::
      .label poll :: testLines lend test ++ body ++ Line.label lcont :: valueLines inc
      ++ [Line.jmp lbegin, .label lend]) (ms ++ []) :=
    .forLoop emitted .nil
  refine .forBody loop place ?_ ?_ ?_
  · rw [target_of_suffix distinct inside]
    simp [stmtLines]
  · apply target_of_suffix distinct
    refine List.IsSuffix.trans ⟨?_, ?_⟩ inside
    · exact Line.label lbegin :: .label poll :: testLines lend test ++ body
        ++ Line.label lcont :: valueLines inc ++ [Line.jmp lbegin]
    · simp
  · apply target_of_suffix distinct
    refine List.IsSuffix.trans ⟨?_, ?_⟩ inside
    · exact Line.label lbegin :: .label poll :: testLines lend test ++ body
    · simp

theorem At.enterDo {lbegin lcond poll : Label} (distinct : (definedLabels code).Nodup)
    (inside : (Line.label lbegin :: .label poll :: body ++ Line.label lcond :: .expr cond :: branch lend
      ++ Line.jmp lbegin :: .label lend :: after) <:+ code)
    (emitted : Emits layout bound [s] ⟨some lend, some lcond⟩ body ms)
    (place : At layout code slots bound k ctx after) :
    At layout code slots bound (.doBody s cond k) ⟨some lend, some lcond⟩
      (Line.label lcond :: .expr cond :: branch lend ++ Line.jmp lbegin :: .label lend :: after) := by
  have loop : Emits layout bound [.doWhile s cond] ctx (Line.label lbegin :: .label poll :: body
      ++ Line.label lcond :: .expr cond :: branch lend ++ [Line.jmp lbegin, .label lend]) (ms ++ []) :=
    .doWhile emitted .nil
  refine .doBody loop place ?_ ?_ ?_
  · rw [target_of_suffix distinct inside]
    simp
  · apply target_of_suffix distinct
    refine List.IsSuffix.trans ⟨?_, ?_⟩ inside
    · exact Line.label lbegin :: .label poll :: body ++ Line.label lcond :: .expr cond :: branch lend
        ++ [Line.jmp lbegin]
    · simp
  · apply target_of_suffix distinct
    refine List.IsSuffix.trans ⟨?_, ?_⟩ inside
    · exact Line.label lbegin :: .label poll :: body
    · simp

theorem At.enterSwitch (distinct : (definedLabels code).Nodup)
    (inside : (body ++ Line.label lend :: after) <:+ code)
    (place : At layout code slots bound k ctx after) :
    At layout code slots bound (.switchBody k) ⟨some lend, ctx.cont⟩ (Line.label lend :: after) :=
  .switchBody place
    (target_of_suffix distinct ((List.suffix_append body (Line.label lend :: after)).trans inside))

end

/-! Looking for a label finds statements whose code stands at the number of that label. -/

def Numbered (layout : Layout) (ms : List CaseEntry) : Target → Nat → Prop
  | .label name, num => num = layout.num name
  | .case value, num => ⟨some value, num⟩ ∈ ms
  | .default, num => ⟨none, num⟩ ∈ ms

theorem Numbered.mono {ms ns : List CaseEntry} {t : Target} {num : Nat}
    (numbered : Numbered layout ms t num) (more : ms ⊆ ns) : Numbered layout ns t num := by
  cases t with
  | label name => exact numbered
  | case value => exact more numbered
  | default => exact more numbered

@[simp] theorem find_nil (t : Target) (k : Cont) : find t [] k = none := rfl

@[simp] theorem find_single (t : Target) (s : Stmt) (k : Cont) : find t [s] k = s.find t [] k := by
  simp [find]

def Found (layout : Layout) (code : List Line) (slots : Nat → Nat) (ms : List CaseEntry) (t : Target)
    (focus : List Stmt) (k : Cont) : Prop :=
  ∃ num, Numbered layout ms t num ∧ Reached layout code slots (.lg num) focus k

theorem Found.mono {slots : Nat → Nat} {ms ns : List CaseEntry} {t : Target} {focus : List Stmt}
    {k : Cont} (found : Found layout code slots ms t focus k) (more : ms ⊆ ns) :
    Found layout code slots ns t focus k := by
  obtain ⟨num, numbered, reached⟩ := found
  exact ⟨num, numbered.mono more, reached⟩

theorem inner_suffix (front : List Line) {back whole : List Line} (inside : whole <:+ code)
    (same : whole = front ++ back) : back <:+ code :=
  (same ▸ List.suffix_append front back).trans inside

theorem find_cons_eq (t : Target) (s : Stmt) (rest : List Stmt) (k : Cont) :
    find t (s :: rest) k = (s.find t rest k).or (find t rest k) := by
  rw [find]

section
variable {slots : Nat → Nat} {bound : Nat} {k : Cont} {ctx : Context} {rest : List Stmt}
variable {lines after : List Line} {ms : List CaseEntry}

theorem At.afterLabel {l : Label} (emitted : Emits layout bound rest ctx lines ms)
    (place : At layout code slots bound k ctx after) :
    At layout code slots bound (.seq rest k) ctx (Line.label l :: lines ++ after) :=
  .seq (.label (.refl _)) emitted place

theorem At.afterJump {l : Label} {middle : List Line} (distinct : (definedLabels code).Nodup)
    (inside : (Line.label l :: lines ++ after) <:+ code) (emitted : Emits layout bound rest ctx lines ms)
    (place : At layout code slots bound k ctx after) :
    At layout code slots bound (.seq rest k) ctx (.jmp l :: middle) :=
  .seq (.jump (target_of_suffix distinct inside) (.label (.refl _))) emitted place

end

theorem Emits.find {slots : Nat → Nat} {t : Target} (distinct : (definedLabels code).Nodup)
    {bound : Nat} {focus : List Stmt} {ctx : Context} {lines : List Line} {ms : List CaseEntry}
    (emitted : Emits layout bound focus ctx lines ms) : ∀ {after : List Line} {k : Cont}
      {focus' : List Stmt} {k' : Cont}, (lines ++ after) <:+ code →
      At layout code slots bound k ctx after → find t focus k = some (focus', k') →
      Found layout code slots ms t focus' k' := by
  induction emitted with
  | nil => exact fun _ _ found => by cases found
  | empty _ ih =>
      exact fun inside place found => ih inside place (by simpa [Statements.find, Stmt.find] using found)
  | @expr _ _ _ later _ e _ ih =>
      intro after k focus' k' inside place found
      exact ih (inner_suffix (stmtLines (some e)) inside (by simp)) place
        (by simpa [Statements.find, Stmt.find] using found)
  | @block _ _ _ _ body later _ _ items rest ihItems ihRest =>
      intro after k focus' k' inside place found
      rw [find_cons_eq, Stmt.find] at found
      rcases Option.or_eq_some_iff.mp found with inItems | ⟨-, inRest⟩
      · exact (ihItems (by simpa using inside) (.seq (.refl _) rest place) inItems).mono (by simp)
      · exact (ihRest (inner_suffix body inside (by simp)) place inRest).mono (by simp)
  | @ifThen _ _ s _ body later _ _ cond lelse bodyEmitted rest ihBody ihRest =>
      intro after k focus' k' inside place found
      rw [find_cons_eq, Stmt.find, ← find_single] at found
      have first : (body ++ (Line.label lelse :: later ++ after)) <:+ code :=
        inner_suffix (Line.expr cond :: branch lelse) inside (by simp)
      rcases Option.or_eq_some_iff.mp found with inBody | ⟨-, inRest⟩
      · exact (ihBody first (.afterLabel rest place) inBody).mono (by simp)
      · exact (ihRest (inner_suffix (Line.expr cond :: branch lelse ++ body ++ [Line.label lelse]) inside
          (by simp)) place inRest).mono (by simp)
  | @ifElseEmpty _ _ s o _ body later _ _ cond lelse bodyEmitted otherEmitted rest ihBody ihOther ihRest =>
      intro after k focus' k' inside place found
      rw [find_cons_eq, Stmt.find, ← find_single, ← find_single] at found
      have first : (body ++ (Line.label lelse :: later ++ after)) <:+ code :=
        inner_suffix (Line.expr cond :: branch lelse) inside (by simp)
      rcases Option.or_eq_some_iff.mp found with inBranches | ⟨-, inRest⟩
      · rcases Option.or_eq_some_iff.mp inBranches with inBody | ⟨-, inOther⟩
        · exact (ihBody first (.afterLabel rest place) inBody).mono (by simp)
        · exact (ihOther (inner_suffix body first rfl) (.afterLabel rest place) inOther).mono (by simp)
      · exact (ihRest (inner_suffix (Line.expr cond :: branch lelse ++ body ++ [Line.label lelse]) inside
          (by simp)) place inRest).mono (by simp)
  | @ifElse _ _ s o _ body other later _ _ _ cond lelse lend _ _ rest ihBody ihOther ihRest =>
      intro after k focus' k' inside place found
      rw [find_cons_eq, Stmt.find, ← find_single, ← find_single] at found
      have last : (Line.label lend :: later ++ after) <:+ code :=
        inner_suffix (Line.expr cond :: branch lelse ++ body ++ Line.jmp lend :: .label lelse :: other) inside
          (by simp)
      have first : (body ++ Line.jmp lend :: (Line.label lelse :: other ++ Line.label lend :: later ++ after)) <:+
          code := inner_suffix (Line.expr cond :: branch lelse) inside (by simp)
      have second : (other ++ (Line.label lend :: later ++ after)) <:+ code :=
        inner_suffix (body ++ [Line.jmp lend, .label lelse]) first (by simp)
      rcases Option.or_eq_some_iff.mp found with inBranches | ⟨-, inRest⟩
      · rcases Option.or_eq_some_iff.mp inBranches with inBody | ⟨-, inOther⟩
        · exact (ihBody first (.afterJump distinct last rest place) inBody).mono (by simp)
        · exact (ihOther second (.afterLabel rest place) inOther).mono (by simp)
      · exact (ihRest (inner_suffix [.label lend] last (by simp)) place inRest).mono (by simp)
  | @whileLoop _ _ s _ body later _ _ cond lbegin lend poll bodyEmitted rest ihBody ihRest =>
      intro after k focus' k' inside place found
      rw [find_cons_eq, Stmt.find, ← find_single] at found
      rcases Option.or_eq_some_iff.mp found with inBody | ⟨-, inRest⟩
      · have place' := At.enterWhile distinct (by simpa using inside) bodyEmitted
          (.seq (.refl _) rest place)
        exact (ihBody (inner_suffix (Line.label lbegin :: .label poll :: .expr cond :: branch lend) inside
          (by simp)) place' inBody).mono (by simp)
      · exact (ihRest (inner_suffix (Line.label lbegin :: .label poll :: .expr cond :: branch lend ++ body
          ++ [Line.jmp lbegin, .label lend]) inside (by simp)) place inRest).mono (by simp)
  | @forLoop _ _ s _ body later _ _ init test inc lbegin lcont lend poll bodyEmitted rest ihBody ihRest =>
      intro after k focus' k' inside place found
      rw [find_cons_eq, Stmt.find, ← find_single] at found
      have loop : (Line.label lbegin :: .label poll :: testLines lend test ++ body ++ Line.label lcont ::
          valueLines inc ++ Line.jmp lbegin :: .label lend :: (later ++ after)) <:+ code :=
        inner_suffix (stmtLines init) inside (by simp)
      rcases Option.or_eq_some_iff.mp found with inBody | ⟨-, inRest⟩
      · have place' := At.enterFor distinct (by simpa using loop) bodyEmitted
          (.seq (.refl _) rest place)
        exact (ihBody (inner_suffix (Line.label lbegin :: .label poll :: testLines lend test) loop
          (by simp)) place' inBody).mono (by simp)
      · exact (ihRest (inner_suffix (Line.label lbegin :: .label poll :: testLines lend test ++ body
          ++ Line.label lcont :: valueLines inc ++ [Line.jmp lbegin, .label lend]) loop (by simp)) place
          inRest).mono (by simp)
  | @doWhile _ _ s _ body later _ _ cond lbegin lcond lend poll bodyEmitted rest ihBody ihRest =>
      intro after k focus' k' inside place found
      rw [find_cons_eq, Stmt.find, ← find_single] at found
      rcases Option.or_eq_some_iff.mp found with inBody | ⟨-, inRest⟩
      · have place' := At.enterDo distinct (by simpa using inside) bodyEmitted
          (.seq (.refl _) rest place)
        exact (ihBody (inner_suffix [.label lbegin, .label poll] inside (by simp)) place' inBody).mono
          (by simp)
      · exact (ihRest (inner_suffix (Line.label lbegin :: .label poll :: body ++ Line.label lcond :: .expr cond ::
          branch lend ++ [Line.jmp lbegin, .label lend]) inside (by simp)) place inRest).mono (by simp)
  | @«switch» _ offset _ s _ before chain body later ms _ cond lend _ _ _ _ _ same rest _ ihBody ihRest =>
      intro after k focus' k' inside place found
      have inBody : (body ++ Line.label lend :: (later ++ after)) <:+ code :=
        inner_suffix (Line.expr cond :: .slotAddress offset :: .storeSlot :: before ++ chain
          ++ [Line.jmp ((defaultLabel ms).getD lend)]) inside (by simp)
      rw [find_cons_eq, Stmt.find] at found
      rcases Option.or_eq_some_iff.mp found with inSwitch | ⟨-, inRest⟩
      · split at inSwitch
        · rename_i isLabel
          rw [← find_single, same] at inSwitch
          obtain ⟨num, numbered, reached⟩ := ihBody (by simpa using inBody)
            (At.enterSwitch distinct inBody (.seq (.refl _) rest place)) inSwitch
          cases t with
          | label name => exact ⟨num, numbered, reached⟩
          | case value => cases isLabel
          | default => cases isLabel
        · cases inSwitch
      · exact ihRest (inner_suffix (body ++ [Line.label lend]) inBody (by simp)) place inRest
  | @case _ _ s rest later ms value num emitted ih =>
      intro after k focus' k' inside place found
      rw [find_cons_eq, Stmt.find] at found
      split at found
      · rename_i same
        obtain rfl := same
        cases found
        exact ⟨num, List.mem_cons_self, _, _, _, _, _, _, target_of_suffix distinct inside, .refl _,
          .case emitted, place⟩
      · exact (ih (inner_suffix [.label (.lg num)] inside rfl) place
          (by rw [find_cons_eq]; exact found)).mono (by simp)
  | @default _ _ s rest later ms num emitted ih =>
      intro after k focus' k' inside place found
      rw [find_cons_eq, Stmt.find] at found
      split at found
      · rename_i same
        obtain rfl := same
        cases found
        exact ⟨num, List.mem_cons_self, _, _, _, _, _, _, target_of_suffix distinct inside, .refl _,
          .default emitted, place⟩
      · exact (ih (inner_suffix [.label (.lg num)] inside rfl) place
          (by rw [find_cons_eq]; exact found)).mono (by simp)
  | @label _ _ s rest later ms name emitted ih =>
      intro after k focus' k' inside place found
      rw [find_cons_eq, Stmt.find] at found
      split at found
      · rename_i same
        obtain rfl := same
        cases found
        exact ⟨_, rfl, _, _, _, _, _, _, target_of_suffix distinct inside, .refl _, .label emitted,
          place⟩
      · exact ih (inner_suffix [.label (.lg (layout.num name))] inside rfl) place
          (by rw [find_cons_eq]; exact found)
  | @breakOut _ _ _ later _ l _ _ ih =>
      intro after k focus' k' inside place found
      exact ih (inner_suffix [.jmp l] inside rfl) place
        (by simpa [Statements.find, Stmt.find] using found)
  | @continueLoop _ _ _ later _ l _ _ ih =>
      intro after k focus' k' inside place found
      exact ih (inner_suffix [.jmp l] inside rfl) place
        (by simpa [Statements.find, Stmt.find] using found)
  | @goto _ _ _ later _ name poll _ _ ih =>
      intro after k focus' k' inside place found
      exact ih (inner_suffix [.label poll, .jmp (.lg (layout.num name))] inside rfl) place
        (by simpa [Statements.find, Stmt.find] using found)
  | @returnValue _ _ _ later _ e _ ih =>
      intro after k focus' k' inside place found
      exact ih (inner_suffix (valueLines e ++ Line.comment "return" :: epilogue) inside (by simp)) place
        (by simpa [Statements.find, Stmt.find] using found)

/-! Every case label that is registered is there to be found. -/

def CaseEntry.target (e : CaseEntry) : Target :=
  match e.value with
  | some value => .case value
  | none => .default

theorem Emits.find_entry {bound : Nat} {focus : List Stmt} {ctx : Context} {lines : List Line}
    {ms : List CaseEntry} (emitted : Emits layout bound focus ctx lines ms) :
    ∀ e ∈ ms, ∀ k, (Statements.find e.target focus k).isSome := by
  induction emitted with
  | nil => exact fun e member => by cases member
  | empty _ ih => exact fun e member k => by simpa [find_cons_eq, Stmt.find] using ih e member k
  | expr _ ih => exact fun e member k => by simpa [find_cons_eq, Stmt.find] using ih e member k
  | block _ _ ihItems ihRest =>
      intro e member k
      rw [find_cons_eq, Stmt.find, Option.isSome_or, Bool.or_eq_true]
      exact (List.mem_append.mp member).imp (ihItems e · _) (ihRest e · _)
  | ifThen _ _ ihBody ihRest =>
      intro e member k
      rw [find_cons_eq, Stmt.find, ← find_single, Option.isSome_or, Bool.or_eq_true]
      exact (List.mem_append.mp member).imp (ihBody e · _) (ihRest e · _)
  | ifElseEmpty _ _ _ ihBody _ ihRest =>
      intro e member k
      rw [find_cons_eq, Stmt.find, ← find_single, Option.isSome_or, Option.isSome_or, Bool.or_eq_true,
        Bool.or_eq_true]
      exact (List.mem_append.mp member).imp (Or.inl ∘ (ihBody e · _)) (ihRest e · _)
  | ifElse _ _ _ ihBody ihOther ihRest =>
      intro e member k
      rw [find_cons_eq, Stmt.find, ← find_single, ← find_single, Option.isSome_or, Option.isSome_or,
        Bool.or_eq_true, Bool.or_eq_true]
      refine (List.mem_append.mp member).imp (fun inBranches => ?_) (ihRest e · _)
      exact (List.mem_append.mp inBranches).imp (ihBody e · _) (ihOther e · _)
  | whileLoop _ _ ihBody ihRest =>
      intro e member k
      rw [find_cons_eq, Stmt.find, ← find_single, Option.isSome_or, Bool.or_eq_true]
      exact (List.mem_append.mp member).imp (ihBody e · _) (ihRest e · _)
  | forLoop _ _ ihBody ihRest =>
      intro e member k
      rw [find_cons_eq, Stmt.find, ← find_single, Option.isSome_or, Bool.or_eq_true]
      exact (List.mem_append.mp member).imp (ihBody e · _) (ihRest e · _)
  | doWhile _ _ ihBody ihRest =>
      intro e member k
      rw [find_cons_eq, Stmt.find, ← find_single, Option.isSome_or, Bool.or_eq_true]
      exact (List.mem_append.mp member).imp (ihBody e · _) (ihRest e · _)
  | «switch» _ _ _ _ _ _ _ _ _ ihRest =>
      intro e member k
      rw [find_cons_eq, Option.isSome_or, ihRest e member k, Bool.or_true]
  | case _ ih =>
      intro e member k
      rw [find_cons_eq, Stmt.find]
      rcases List.mem_cons.mp member with rfl | member
      · simp [CaseEntry.target]
      · split
        · rfl
        · exact find_cons_eq .. ▸ ih e member k
  | default _ ih =>
      intro e member k
      rw [find_cons_eq, Stmt.find]
      rcases List.mem_cons.mp member with rfl | member
      · simp [CaseEntry.target]
      · split
        · rfl
        · exact find_cons_eq .. ▸ ih e member k
  | label _ ih =>
      intro e member k
      rw [find_cons_eq, Stmt.find]
      split
      · rfl
      · exact find_cons_eq .. ▸ ih e member k
  | breakOut _ _ ih => exact fun e member k => by simpa [find_cons_eq, Stmt.find] using ih e member k
  | continueLoop _ _ ih =>
      exact fun e member k => by simpa [find_cons_eq, Stmt.find] using ih e member k
  | goto _ _ ih => exact fun e member k => by simpa [find_cons_eq, Stmt.find] using ih e member k
  | returnValue _ ih =>
      exact fun e member k => by simpa [find_cons_eq, Stmt.find] using ih e member k

/-! The selection of a switch goes where its comparison chain goes. -/

theorem Matches.of_place {s : State} {c : Cpu} {bound : Nat} {ctx : Context}
    {lines after : List Line} {ms : List CaseEntry} (history : s.history = c.history)
    (running : c.returned = false) (here : c.rest = lines ++ after) (inside : (lines ++ after) <:+ code)
    (emitted : Emits layout bound s.focus ctx lines ms)
    (place : At layout code c.slots bound s.cont ctx after) : Matches layout code s c :=
  ⟨history, running, here ▸ inside, bound, ctx, lines, after, ms, here ▸ .refl _, emitted, place⟩

theorem Matches.of_reached {s : State} {c : Cpu} {l : Label} (history : s.history = c.history)
    (running : c.returned = false) (aim : target l code = some c.rest)
    (reached : Reached layout code c.slots l s.focus s.cont) : Matches layout code s c := by
  obtain ⟨start, bound, ctx, lines, after, ms, aim', silent, emitted, place⟩ := reached
  obtain rfl := Option.some.inj (aim.symm.trans aim')
  exact ⟨history, running, target_suffix aim, bound, ctx, lines, after, ms, silent, emitted, place⟩

theorem entry_unique {ms : List CaseEntry} (unique : (ms.map CaseEntry.value).Nodup) {e e' : CaseEntry}
    (member : e ∈ ms) (member' : e' ∈ ms) (same : e.value = e'.value) : e = e' :=
  List.inj_on_of_nodup_map unique member member' same

theorem defaultLabel_mem {ms : List CaseEntry} {l : Label} (found : defaultLabel ms = some l) :
    ∃ num, l = .lg num ∧ ⟨none, num⟩ ∈ ms := by
  induction ms with
  | nil => cases found
  | cons e ms ih =>
      obtain ⟨_ | value, num⟩ := e
      · rw [defaultLabel] at found
        rcases Option.or_eq_some_iff.mp found with later | ⟨-, here⟩
        · obtain ⟨num', shape, member⟩ := ih later
          exact ⟨num', shape, List.mem_cons_of_mem _ member⟩
        · exact ⟨num, (Option.some.inj here).symm, List.mem_cons_self⟩
      · obtain ⟨num', shape, member⟩ := ih found
        exact ⟨num', shape, List.mem_cons_of_mem _ member⟩

theorem defaultLabel_none {ms : List CaseEntry} (absent : defaultLabel ms = none) :
    ∀ e ∈ ms, e.value ≠ none := by
  induction ms with
  | nil => simp
  | cons e ms ih =>
      obtain ⟨_ | value, num⟩ := e
      · simp [defaultLabel] at absent
      · simpa using ih absent

theorem Emits.entry_reached {slots : Nat → Nat} (distinct : (definedLabels code).Nodup)
    {bound : Nat} {focus : List Stmt} {ctx : Context} {lines after : List Line} {ms : List CaseEntry}
    {k : Cont} (emitted : Emits layout bound focus ctx lines ms)
    (unique : (ms.map CaseEntry.value).Nodup) (inside : (lines ++ after) <:+ code)
    (place : At layout code slots bound k ctx after) {e : CaseEntry} (member : e ∈ ms) :
    ∃ focus' k', Statements.find e.target focus k = some (focus', k') ∧
      Reached layout code slots (.lg e.num) focus' k' := by
  obtain ⟨⟨focus', k'⟩, found⟩ := Option.isSome_iff_exists.mp (emitted.find_entry e member k)
  obtain ⟨num, numbered, reached⟩ := emitted.find distinct inside place found
  refine ⟨focus', k', found, ?_⟩
  obtain ⟨_ | value, own⟩ := e
  · rwa [entry_unique unique member numbered rfl]
  · rwa [entry_unique unique member numbered rfl]

variable (world) in
theorem run_select {slots : Nat → Nat} (distinct : (definedLabels code).Nodup) {s : State}
    {offset outer : Nat} {k : Cont} {ctx : Context} {stmt : Stmt} {lend : Label}
    {chain body after : List Line} {ms : List CaseEntry} (chained : genChain offset ms = .ok chain)
    (unique : (ms.map CaseEntry.value).Nodup)
    (emitted : Emits layout outer (selected [stmt]) ⟨some lend, ctx.cont⟩ body ms)
    (same : ∀ t k, Statements.find t [stmt] k = Statements.find t (selected [stmt]) k)
    (place : At layout code slots outer k ctx after)
    (inside : (body ++ Line.label lend :: after) <:+ code) {c : Cpu} (history : s.history = c.history)
    (running : c.returned = false) (kept : c.slots = slots)
    (here : c.rest = chain ++ Line.jmp ((defaultLabel ms).getD lend) :: body ++ Line.label lend :: after) :
    ∃ n c', Moves (codeMachine world code) n c c' ∧ 0 < n ∧
      Matches layout code (s.jump (selection (slots offset) stmt k)) c' := by
  have place' := At.enterSwitch distinct inside place
  have reach : ∀ e ∈ ms, ∃ focus' k', Statements.find e.target [stmt] (.switchBody k) =
      some (focus', k') ∧ Reached layout code slots (.lg e.num) focus' k' :=
    fun e member => same _ _ ▸ emitted.entry_reached distinct unique inside place' member
  have placed : ∀ e ∈ ms, ∃ found, target (.lg e.num) code = some found := by
    intro e member
    obtain ⟨_, _, -, start, _, _, _, _, _, aim, -⟩ := reach e member
    exact ⟨start, aim⟩
  obtain ⟨n, c₁, run, history₁, running₁, slots₁, way⟩ := run_chain world code chained running
    (here.trans (List.append_assoc _ _ _)) (congrFun kept offset) placed
  have kept₁ : c₁.slots = slots := slots₁.trans kept
  rcases way with ⟨e, member, value, moved, aim⟩ | ⟨absent, rest⟩
  · obtain ⟨focus', k', found, reached⟩ := reach e member
    have chosen : selection (slots offset) stmt k = (focus', k') := by
      rw [CaseEntry.target, value] at found
      rw [selection, found, Option.some_or, Option.getD_some]
    exact ⟨n, c₁, run, moved, .of_reached (history.trans history₁.symm) running₁ aim
      (by rw [chosen, kept₁]; exact reached)⟩
  · have noCase : Statements.find (.case (slots offset)) [stmt] (.switchBody k) = none := by
      by_contra present
      obtain ⟨⟨focus', k'⟩, found⟩ := Option.ne_none_iff_exists'.mp present
      obtain ⟨num, numbered, -⟩ := emitted.find distinct inside place' ((same _ _).symm.trans found)
      exact absent _ numbered rfl
    cases byDefault : defaultLabel ms with
    | some l =>
        obtain ⟨num, rfl, member⟩ := defaultLabel_mem byDefault
        obtain ⟨focus', k', found, reached⟩ := reach _ member
        have chosen : selection (slots offset) stmt k = (focus', k') := by
          rw [CaseEntry.target] at found
          rw [selection, noCase, Option.none_or, found, Option.getD_some]
        obtain ⟨start, aim⟩ := placed _ member
        rw [byDefault, Option.getD_some] at rest
        refine ⟨_, _, run.trans (run_jump running₁ rest aim), by omega, ?_⟩
        exact .of_reached (history.trans history₁.symm) running₁ aim
          (by rw [chosen, kept₁]; exact reached)
    | none =>
        have noDefault : Statements.find .default [stmt] (.switchBody k) = none := by
          by_contra present
          obtain ⟨⟨focus', k'⟩, found⟩ := Option.ne_none_iff_exists'.mp present
          obtain ⟨num, numbered, -⟩ := emitted.find distinct inside place' ((same _ _).symm.trans found)
          exact defaultLabel_none byDefault _ numbered rfl
        have chosen : selection (slots offset) stmt k = ([], k) := by
          rw [selection, noCase, Option.none_or, noDefault, Option.getD_none]
        have aim : target lend code = some (Line.label lend :: after) :=
          target_of_suffix distinct (inner_suffix body inside rfl)
        rw [byDefault, Option.getD_none] at rest
        refine ⟨_, _, run.trans (run_jump running₁ rest aim), by omega, ?_⟩
        refine .of_reached (history.trans history₁.symm) running₁ aim ?_
        rw [chosen, kept₁]
        exact ⟨_, outer, ctx, [], after, [], aim, .label (.refl _), .nil, place⟩

/-! One step of the statement machine. -/

noncomputable def Cont.weight : Cont → Nat
  | .seq rest k => 1 + sizeOf rest + k.weight
  | _ => 0

noncomputable def State.weight (s : State) : Nat := sizeOf s.focus + s.cont.weight

structure Compiled (layout : Layout) (code : List Line) (program : List Stmt) : Prop where
  distinct : (definedLabels code).Nodup
  body : ∃ poll lines bound ms, code = .label poll :: lines ++ epilogue ∧
    Emits layout bound program ⟨none, none⟩ lines ms
  defined : ∀ name, layout.defined name → (Statements.find (.label name) program .stop).isSome

def Progress (layout : Layout) (world : World) (code : List Line) (program : List Stmt) (s : State)
    (c : Cpu) : Prop :=
  ∃ s' n c', next layout.before world program s = some s' ∧ Moves (codeMachine world code) n c c' ∧
    Matches layout code s' c' ∧ (0 < n ∨ s'.weight < s.weight)

theorem Compiled.goto {program : List Stmt} (compiled : Compiled layout code program) {name : String}
    (defined : layout.defined name) (slots : Nat → Nat) : ∃ focus k,
      Statements.find (.label name) program .stop = some (focus, k) ∧
      Reached layout code slots (.lg (layout.num name)) focus k := by
  obtain ⟨⟨focus, k⟩, found⟩ := Option.isSome_iff_exists.mp (compiled.defined name defined)
  obtain ⟨poll, lines, bound, ms, shape, emitted⟩ := compiled.body
  have place : At layout code slots bound .stop ⟨none, none⟩ (epilogue ++ []) := .stop
  obtain ⟨num, rfl, reached⟩ := emitted.find compiled.distinct
    (inner_suffix [.label poll] List.suffix_rfl (by simp [shape])) place found
  exact ⟨focus, k, found, reached⟩

section
variable {program : List Stmt} {history : List Expr} {k : Cont} {ctx : Context} {bound : Nat}
variable {after : List Line}

variable (world program) in
theorem progress_done (distinct : (definedLabels code).Nodup) (running : c.returned = false)
    (here : c.rest = after) (inside : after <:+ code) (place : At layout code c.slots bound k ctx after)
    (unfinished : k ≠ .stop) : Progress layout world code program ⟨[], k, c.history⟩ c := by
  cases place with
  | stop => exact absurd rfl unfinished
  | @seq _ k _ rest start lines after ms silent emitted place =>
      obtain ⟨n, run⟩ := silent.run world running here
      refine ⟨_, n, _, rfl, run, .of_place rfl running rfl (silent.suffix inside) emitted place,
        .inr ?_⟩
      simp only [State.weight, State.to, Cont.weight, List.nil.sizeOf_spec]
      omega
  | whileBody loop place start _ =>
      exact ⟨_, 1, _, rfl, run_jump running here start, .of_place rfl running rfl
        (target_suffix start) loop place, .inl Nat.one_pos⟩
  | @forBody _ _ _ test inc s lbegin lcont lend loop after ms emitted place start stop again =>
      have first : Moves (codeMachine world code) 1 c _ := run_label running here
      cases inc with
      | none =>
          exact ⟨_, _, _, rfl, first.trans (run_jump running rfl start), .of_place rfl running rfl
            (target_suffix start) emitted place, .inl (by omega)⟩
      | some e =>
          exact ⟨_, _, _, rfl, (first.trans (run_expr running rfl)).trans (run_jump running rfl start),
            .of_place rfl running rfl (target_suffix start) emitted place, .inl (by omega)⟩
  | @doBody _ _ _ cond s lbegin lcond lend loop after ms emitted place start stop again =>
      have first : Moves (codeMachine world code) 1 c _ := run_label running here
      obtain ⟨c', run, history', running', slots', rest'⟩ :=
        run_test world (c := c.on (Line.expr cond :: branch lend ++ Line.jmp lbegin :: .label lend :: after))
          running rfl stop
      by_cases zero : world.outcome c.history = 0
      · rw [if_pos zero] at rest'
        refine ⟨_, _, c', if_pos zero, first.trans run, ?_, .inl (by omega)⟩
        exact ⟨history'.symm, running', rest' ▸ target_suffix stop, _, _, [], _, [],
          rest' ▸ .label (.refl _), .nil, slots' ▸ place⟩
      · rw [if_neg zero] at rest'
        refine ⟨_, _, _, if_neg zero, (first.trans run).trans (run_jump running' rest' start), ?_,
          .inl (by omega)⟩
        exact .of_place history'.symm running' rfl (target_suffix start) emitted (slots' ▸ place)
  | switchBody place stop =>
      exact ⟨_, 1, _, rfl, run_label running here, .of_place rfl running rfl
        ((List.suffix_cons _ _).trans inside) .nil place, .inl Nat.one_pos⟩
  | select low high kept chained unique emitted same place within =>
      subst kept
      obtain ⟨n, c', run, moved, matched⟩ := run_select world distinct chained unique emitted same place
        within (s := ⟨[], _, c.history⟩) rfl running rfl here
      exact ⟨_, n, c', rfl, run, matched, .inl moved⟩

theorem Matches.passed {c' : Cpu} {focus : List Stmt} {lines whole : List Line} {ms : List CaseEntry}
    {e : List Expr} (front : List Line) (history : c'.history = c.history ++ e)
    (running : c'.returned = false) (kept : c'.slots = c.slots) (here : c'.rest = lines ++ after)
    (inside : whole <:+ code) (same : whole = front ++ (lines ++ after))
    (emitted : Emits layout bound focus ctx lines ms)
    (place : At layout code c.slots bound k ctx after) :
    Matches layout code ⟨focus, k, c.history ++ e⟩ c' :=
  .of_place history.symm running here (inner_suffix front inside same) emitted (kept ▸ place)

variable (world) in
theorem progress_if {cond : Expr} {s : Stmt} {rest : List Stmt} {lelse : Label}
    {body later : List Line} {ms ns : List CaseEntry} (distinct : (definedLabels code).Nodup)
    (running : c.returned = false)
    (here : c.rest = .expr cond :: branch lelse ++ body ++ Line.label lelse :: later ++ after)
    (inside : c.rest <:+ code) (bodyEmitted : Emits layout bound [s] ctx body ms)
    (restEmitted : Emits layout bound rest ctx later ns)
    (place : At layout code c.slots bound k ctx after) :
    Progress layout world code program ⟨.ifThen cond s :: rest, k, c.history⟩ c := by
  rw [here] at inside
  have last : (Line.label lelse :: later ++ after) <:+ code :=
    inner_suffix (Line.expr cond :: branch lelse ++ body) inside (by simp)
  have aim := target_of_suffix distinct last
  obtain ⟨c', run, history', running', slots', rest'⟩ := run_test world running
    (here.trans (by simp : _ = .expr cond :: branch lelse ++ (body ++ (Line.label lelse :: later ++ after))))
    aim
  by_cases zero : world.outcome c.history = 0
  · rw [if_pos zero] at rest'
    refine ⟨_, _, _, if_pos zero, run.trans (run_label running' rest'), ?_, .inl (by omega)⟩
    exact .passed [.label lelse] history' running' slots' rfl last rfl restEmitted place
  · rw [if_neg zero] at rest'
    refine ⟨_, _, c', if_neg zero, run, ?_, .inl (by omega)⟩
    exact .passed (Line.expr cond :: branch lelse) history' running' slots' rest' inside (by simp)
      bodyEmitted (.afterLabel restEmitted place)

variable (world) in
theorem progress_ifElseEmpty {cond : Expr} {s o : Stmt} {rest : List Stmt} {lelse : Label}
    {body later : List Line} {ms ns : List CaseEntry} (distinct : (definedLabels code).Nodup)
    (running : c.returned = false)
    (here : c.rest = .expr cond :: branch lelse ++ body ++ Line.label lelse :: later ++ after)
    (inside : c.rest <:+ code) (bodyEmitted : Emits layout bound [s] ctx body ms)
    (otherEmitted : Emits layout bound [o] ctx [] [])
    (restEmitted : Emits layout bound rest ctx later ns)
    (place : At layout code c.slots bound k ctx after) :
    Progress layout world code program ⟨.ifElse cond s o :: rest, k, c.history⟩ c := by
  rw [here] at inside
  have last : (Line.label lelse :: later ++ after) <:+ code :=
    inner_suffix (Line.expr cond :: branch lelse ++ body) inside (by simp)
  have aim := target_of_suffix distinct last
  obtain ⟨c', run, history', running', slots', rest'⟩ := run_test world running
    (here.trans (by simp : _ = .expr cond :: branch lelse ++ (body ++ (Line.label lelse :: later ++ after))))
    aim
  by_cases zero : world.outcome c.history = 0
  · rw [if_pos zero] at rest'
    refine ⟨_, _, c', if_pos zero, run, ?_, .inl (by omega)⟩
    exact .passed [] history' running' slots' rest' last rfl otherEmitted
      (.afterLabel restEmitted place)
  · rw [if_neg zero] at rest'
    refine ⟨_, _, c', if_neg zero, run, ?_, .inl (by omega)⟩
    exact .passed (Line.expr cond :: branch lelse) history' running' slots' rest' inside (by simp)
      bodyEmitted (.afterLabel restEmitted place)

variable (world) in
theorem progress_ifElse {cond : Expr} {s o : Stmt} {rest : List Stmt} {lelse lend : Label}
    {body other later : List Line} {ms os ns : List CaseEntry} (distinct : (definedLabels code).Nodup)
    (running : c.returned = false)
    (here : c.rest = .expr cond :: branch lelse ++ body ++ Line.jmp lend :: .label lelse :: other
      ++ Line.label lend :: later ++ after)
    (inside : c.rest <:+ code) (bodyEmitted : Emits layout bound [s] ctx body ms)
    (otherEmitted : Emits layout bound [o] ctx other os)
    (restEmitted : Emits layout bound rest ctx later ns)
    (place : At layout code c.slots bound k ctx after) :
    Progress layout world code program ⟨.ifElse cond s o :: rest, k, c.history⟩ c := by
  rw [here] at inside
  have last : (Line.label lend :: later ++ after) <:+ code :=
    inner_suffix (Line.expr cond :: branch lelse ++ body ++ Line.jmp lend :: .label lelse :: other) inside
      (by simp)
  have second : (Line.label lelse :: (other ++ (Line.label lend :: later ++ after))) <:+ code :=
    inner_suffix (Line.expr cond :: branch lelse ++ body ++ [Line.jmp lend]) inside (by simp)
  have aim := target_of_suffix distinct second
  obtain ⟨c', run, history', running', slots', rest'⟩ := run_test world running
    (here.trans (by simp : _ = .expr cond :: branch lelse ++ (body ++ Line.jmp lend ::
      .label lelse :: (other ++ (Line.label lend :: later ++ after))))) aim
  by_cases zero : world.outcome c.history = 0
  · rw [if_pos zero] at rest'
    refine ⟨_, _, _, if_pos zero, run.trans (run_label running' rest'), ?_, .inl (by omega)⟩
    exact .passed [.label lelse] history' running' slots' rfl second rfl otherEmitted
      (.afterLabel restEmitted place)
  · rw [if_neg zero] at rest'
    refine ⟨_, _, c', if_neg zero, run, ?_, .inl (by omega)⟩
    exact .passed (Line.expr cond :: branch lelse) history' running' slots' rest' inside (by simp)
      bodyEmitted (.afterJump distinct last restEmitted place)

variable (world) in
theorem progress_while {cond : Expr} {s : Stmt} {rest : List Stmt} {lbegin lend poll : Label}
    {body later : List Line} {ms ns : List CaseEntry} (distinct : (definedLabels code).Nodup)
    (running : c.returned = false)
    (here : c.rest = .label lbegin :: .label poll :: .expr cond :: branch lend ++ body
      ++ Line.jmp lbegin :: .label lend :: later ++ after)
    (inside : c.rest <:+ code)
    (bodyEmitted : Emits layout bound [s] ⟨some lend, some lbegin⟩ body ms)
    (restEmitted : Emits layout bound rest ctx later ns)
    (place : At layout code c.slots bound k ctx after) :
    Progress layout world code program ⟨.whileLoop cond s :: rest, k, c.history⟩ c := by
  rw [here] at inside
  have last : (Line.label lend :: later ++ after) <:+ code :=
    inner_suffix (Line.label lbegin :: .label poll :: .expr cond :: branch lend ++ body ++ [Line.jmp lbegin])
      inside (by simp)
  have inBody := At.enterWhile distinct (by simpa using inside) bodyEmitted
    (.seq (.refl _) restEmitted place)
  have first : Moves (codeMachine world code) 1 c _ := run_label running here
  have second : Moves (codeMachine world code) 1 _ _ := run_label (c := c.on (Line.label poll ::
    .expr cond :: branch lend ++ body ++ Line.jmp lbegin :: .label lend :: later ++ after)) running rfl
  obtain ⟨c', run, history', running', slots', rest'⟩ := run_test world
    (c := c.on (Line.expr cond :: branch lend ++ (body ++ (Line.jmp lbegin :: .label lend :: later ++ after))))
    running rfl (target_of_suffix distinct last)
  have before := first.trans second
  rw [show (c.on (Line.label poll :: .expr cond :: branch lend ++ body ++ Line.jmp lbegin :: .label lend ::
    later ++ after)).on _ = c.on (Line.expr cond :: branch lend ++
      (body ++ (Line.jmp lbegin :: .label lend :: later ++ after))) by simp] at before
  by_cases zero : world.outcome c.history = 0
  · rw [if_pos zero] at rest'
    refine ⟨_, _, _, if_pos zero, (before.trans run).trans (run_label running' rest'), ?_,
      .inl (by omega)⟩
    exact .passed [.label lend] history' running' slots' rfl last rfl restEmitted place
  · rw [if_neg zero] at rest'
    refine ⟨_, _, c', if_neg zero, before.trans run, ?_, .inl (by omega)⟩
    exact .passed (Line.label lbegin :: .label poll :: .expr cond :: branch lend) history' running' slots'
      rest' inside (by simp) bodyEmitted inBody

variable (world) in
/-- An expression statement, or the first part of a `for`: a bare variable has no code. -/
theorem progress_expr {e : Expr} {front rest : List Stmt} {later : List Line} {ms : List CaseEntry}
    (running : c.returned = false) (here : c.rest = stmtLines (some e) ++ later ++ after)
    (inside : c.rest <:+ code) (emitted : Emits layout bound rest ctx later ms)
    (place : At layout code c.slots bound k ctx after)
    (step : next layout.before world program ⟨front, k, c.history⟩ =
      if e.bare then some ⟨rest, k, c.history⟩ else some ⟨rest, k, c.history ++ [e]⟩)
    (smaller : sizeOf rest < sizeOf front) :
    Progress layout world code program ⟨front, k, c.history⟩ c := by
  rw [here] at inside
  by_cases bare : e.bare = true
  · rw [stmtLines, if_pos bare] at here inside
    rw [if_pos bare] at step
    refine ⟨_, 0, c, step, .refl c, .of_place rfl running here inside emitted place, .inr ?_⟩
    exact Nat.add_lt_add_right smaller _
  · rw [stmtLines, if_neg bare] at here inside
    rw [if_neg bare] at step
    exact ⟨_, 1, _, step, run_expr running here,
      .passed [.expr e] rfl running rfl rfl inside rfl emitted place, .inl Nat.one_pos⟩

variable (world) in
theorem progress_for {test inc : Option Expr} {s : Stmt} {rest : List Stmt}
    {lbegin lcont lend poll : Label} {body later : List Line} {ms ns : List CaseEntry}
    (distinct : (definedLabels code).Nodup) (running : c.returned = false)
    (here : c.rest = .label lbegin :: .label poll :: testLines lend test ++ body
      ++ Line.label lcont :: valueLines inc ++ Line.jmp lbegin :: .label lend :: (later ++ after))
    (inside : c.rest <:+ code)
    (bodyEmitted : Emits layout bound [s] ⟨some lend, some lcont⟩ body ms)
    (restEmitted : Emits layout bound rest ctx later ns)
    (place : At layout code c.slots bound k ctx after) :
    Progress layout world code program ⟨.forLoop none test inc s :: rest, k, c.history⟩ c := by
  rw [here] at inside
  have last : (Line.label lend :: later ++ after) <:+ code :=
    inner_suffix (Line.label lbegin :: .label poll :: testLines lend test ++ body ++ Line.label lcont ::
      valueLines inc ++ [Line.jmp lbegin]) inside (by simp)
  have inBody := At.enterFor distinct inside bodyEmitted (.seq (.refl _) restEmitted place)
  have first : Moves (codeMachine world code) 1 c _ := run_label running here
  have second : Moves (codeMachine world code) 1 _ _ := run_label (c := c.on (Line.label poll ::
    testLines lend test ++ body ++ Line.label lcont :: valueLines inc ++ Line.jmp lbegin :: .label lend ::
      (later ++ after))) running rfl
  have before := first.trans second
  rw [show (c.on (Line.label poll :: testLines lend test ++ body ++ Line.label lcont :: valueLines inc ++
    .jmp lbegin :: .label lend :: (later ++ after))).on _ = c.on (testLines lend test ++ (body ++
      (Line.label lcont :: valueLines inc ++ Line.jmp lbegin :: .label lend :: (later ++ after)))) by simp]
    at before
  cases test with
  | none =>
      have within : (body ++ (Line.label lcont :: valueLines inc ++ Line.jmp lbegin :: .label lend ::
          (later ++ after))) <:+ code :=
        inner_suffix [.label lbegin, .label poll] inside (by simp [testLines])
      change Moves (codeMachine world code) _ c (c.on (body ++ (Line.label lcont :: valueLines inc ++
        .jmp lbegin :: .label lend :: (later ++ after)))) at before
      exact ⟨_, _, _, rfl, before, .of_place rfl running rfl within bodyEmitted inBody,
        .inl (by omega)⟩
  | some cond =>
      obtain ⟨c', run, history', running', slots', rest'⟩ := run_test world
        (c := c.on (Line.expr cond :: branch lend ++ (body ++ (Line.label lcont :: valueLines inc ++
          .jmp lbegin :: .label lend :: (later ++ after))))) running rfl (target_of_suffix distinct last)
      by_cases zero : world.outcome c.history = 0
      · rw [if_pos zero] at rest'
        refine ⟨_, _, _, if_pos zero, (before.trans run).trans (run_label running' rest'), ?_,
          .inl (by omega)⟩
        exact .passed [.label lend] history' running' slots' rfl last rfl restEmitted place
      · rw [if_neg zero] at rest'
        refine ⟨_, _, c', if_neg zero, before.trans run, ?_, .inl (by omega)⟩
        exact .passed (Line.label lbegin :: .label poll :: .expr cond :: branch lend) history' running'
          slots' rest' inside (by simp [testLines]) bodyEmitted inBody

variable (world) in
theorem progress_do {cond : Expr} {s : Stmt} {rest : List Stmt} {lbegin lcond lend poll : Label}
    {body later : List Line} {ms ns : List CaseEntry} (distinct : (definedLabels code).Nodup)
    (running : c.returned = false)
    (here : c.rest = .label lbegin :: .label poll :: body ++ Line.label lcond :: .expr cond :: branch lend
      ++ Line.jmp lbegin :: .label lend :: (later ++ after))
    (inside : c.rest <:+ code)
    (bodyEmitted : Emits layout bound [s] ⟨some lend, some lcond⟩ body ms)
    (restEmitted : Emits layout bound rest ctx later ns)
    (place : At layout code c.slots bound k ctx after) :
    Progress layout world code program ⟨.doWhile s cond :: rest, k, c.history⟩ c := by
  rw [here] at inside
  have inBody := At.enterDo distinct inside bodyEmitted (.seq (.refl _) restEmitted place)
  have first : Moves (codeMachine world code) 1 c _ := run_label running here
  have second : Moves (codeMachine world code) 1 _ _ := run_label (c := c.on (Line.label poll :: body ++
    .label lcond :: .expr cond :: branch lend ++ Line.jmp lbegin :: .label lend :: (later ++ after)))
    running rfl
  refine ⟨_, _, _, rfl, first.trans second, .of_place rfl running (List.append_assoc _ _ _)
    (inner_suffix [.label lbegin, .label poll] inside ?_) bodyEmitted inBody, .inl (by omega)⟩
  simp

variable (world) in
theorem progress_switch {cond : Expr} {s : Stmt} {rest : List Stmt} {offset : Nat} {lend : Label}
    {before chain body later : List Line} {ms ns : List CaseEntry}
    (running : c.returned = false)
    (here : c.rest = .expr cond :: .slotAddress offset :: .storeSlot :: before ++ chain
      ++ Line.jmp ((defaultLabel ms).getD lend) :: body ++ Line.label lend :: later ++ after)
    (inside : c.rest <:+ code) (below : offset < bound) (chained : genChain offset ms = .ok chain)
    (unique : (ms.map CaseEntry.value).Nodup)
    (beforeEmitted : Emits layout offset (layout.before s) ctx before [])
    (bodyEmitted : Emits layout bound (selected [s]) ⟨some lend, ctx.cont⟩ body ms)
    (same : ∀ t k, Statements.find t [s] k = Statements.find t (selected [s]) k)
    (restEmitted : Emits layout bound rest ctx later ns)
    (place : At layout code c.slots bound k ctx after) :
    Progress layout world code program ⟨.switch cond s :: rest, k, c.history⟩ c := by
  rw [here] at inside
  let stored := fun o => if o = offset then world.outcome c.history else c.slots o
  have first : Moves (codeMachine world code) 1 c _ := run_expr running here
  let after' := .jmp ((defaultLabel ms).getD lend) :: body ++ Line.label lend :: (later ++ after)
  let c' : Cpu := { c.evaluate world cond with
    rest := before ++ (chain ++ after'), r9 := offset, slots := stored }
  have second : Moves (codeMachine world code) 2 ((c.on (.slotAddress offset :: .storeSlot :: before
      ++ chain ++ Line.jmp ((defaultLabel ms).getD lend) :: body ++ Line.label lend :: later
      ++ after)).evaluate world cond) c' :=
    .head (t := { c.evaluate world cond with
      rest := .storeSlot :: (before ++ (chain ++ after')), r9 := offset })
      (by simp [codeMachine, execute, Cpu.evaluate, running, after'])
      (.single (by simp [codeMachine, execute, Cpu.evaluate, running, c', stored]))
  refine ⟨_, _, c', rfl, first.trans second, ?_, .inl (by omega)⟩
  refine .of_place rfl running rfl
    (inner_suffix [.expr cond, .slotAddress offset, .storeSlot] inside (by simp [after']))
    beforeEmitted ?_
  have inBody : (body ++ Line.label lend :: (later ++ after)) <:+ code :=
    inner_suffix (Line.expr cond :: .slotAddress offset :: .storeSlot :: before ++ chain
      ++ [Line.jmp ((defaultLabel ms).getD lend)]) inside (by simp)
  have selects : At layout code stored offset (.select (world.outcome c.history) s (.seq rest k)) ctx
      (chain ++ Line.jmp ((defaultLabel ms).getD lend) :: body ++ Line.label lend :: (later ++ after)) :=
    .select (Nat.le_refl _) below (if_pos rfl) chained unique bodyEmitted same
      (.seq (.refl _) restEmitted (place.store below)) inBody
  rw [List.append_assoc chain] at selects
  exact selects

theorem Matches.stopped {s : State} {c' : Cpu} {rest : List Line} (history : s.history = c'.history)
    (running : c'.returned = false) (here : c'.rest = epilogue ++ rest)
    (inside : (epilogue ++ rest) <:+ code) (nothing : s.focus = []) (stop : s.cont = .stop) :
    Matches layout code s c' :=
  ⟨history, running, here ▸ inside, 0, ⟨none, none⟩, [], epilogue ++ rest, [], here ▸ .refl _,
    nothing ▸ .nil, stop ▸ .stop⟩

variable (world) in
theorem progress_at (compiled : Compiled layout code program) {focus : List Stmt} {lines : List Line}
    {ms : List CaseEntry} (running : c.returned = false) (here : c.rest = lines ++ after)
    (inside : c.rest <:+ code) (emitted : Emits layout bound focus ctx lines ms)
    (place : At layout code c.slots bound k ctx after) (unfinished : ¬ (focus = [] ∧ k = .stop)) :
    Progress layout world code program ⟨focus, k, c.history⟩ c := by
  have distinct := compiled.distinct
  cases emitted with
  | nil =>
      exact progress_done world program distinct running here (by simpa [here] using inside) place
        (by simpa using unfinished)
  | empty emitted =>
      exact ⟨_, 0, c, rfl, .refl c, .of_place rfl running here (here ▸ inside) emitted place,
        .inr (by simp [State.weight, State.to])⟩
  | expr emitted =>
      exact progress_expr world running here inside emitted place rfl (by rw [List.cons.sizeOf_spec]; omega)
  | block items rest =>
      refine ⟨_, 0, c, rfl, .refl c, .of_place rfl running (here.trans (List.append_assoc _ _ _))
        (by simpa [here] using inside) items (.seq (.refl _) rest place), .inr ?_⟩
      simp [State.weight, State.to, Cont.weight]
      omega
  | ifThen body rest => exact progress_if world distinct running here inside body rest place
  | ifElseEmpty body other rest =>
      exact progress_ifElseEmpty world distinct running here inside body other rest place
  | ifElse body other rest =>
      exact progress_ifElse world distinct running here inside body other rest place
  | whileLoop body rest => exact progress_while world distinct running here inside body rest place
  | @forLoop _ _ s rest body later ms ns init test inc lbegin lcont lend poll bodyEmitted restEmitted =>
      cases init with
      | none =>
          exact progress_for world distinct running (by simpa [stmtLines] using here) inside bodyEmitted
            restEmitted place
      | some e =>
          have again : Emits layout bound (.forLoop none test inc s :: rest) ctx
              (stmtLines none ++ Line.label lbegin :: .label poll :: testLines lend test ++ body
                ++ Line.label lcont :: valueLines inc ++ Line.jmp lbegin :: .label lend :: later) (ms ++ ns) :=
            .forLoop bodyEmitted restEmitted
          refine progress_expr world running ?_ inside again place rfl ?_
          · rw [here]
            simp [stmtLines]
          · have positive : 0 < sizeOf e := by
              cases e with
              | var name => exact Nat.add_pos_left Nat.one_pos _
              | num value => exact Nat.add_pos_left Nat.one_pos _
              | other index labels => exact Nat.add_pos_left (Nat.add_pos_left Nat.one_pos _) _
            simp
            omega
  | doWhile body rest =>
      exact progress_do world distinct running (by simpa using here) inside body rest place
  | «switch» below chained unique before body same rest =>
      exact progress_switch world running here inside below chained unique before body same rest place
  | case emitted =>
      exact ⟨_, 1, _, rfl, run_label running here, .of_place rfl running rfl
        ((List.suffix_cons _ _).trans (here ▸ inside)) emitted place, .inl Nat.one_pos⟩
  | default emitted =>
      exact ⟨_, 1, _, rfl, run_label running here, .of_place rfl running rfl
        ((List.suffix_cons _ _).trans (here ▸ inside)) emitted place, .inl Nat.one_pos⟩
  | label emitted =>
      exact ⟨_, 1, _, rfl, run_label running here, .of_place rfl running rfl
        ((List.suffix_cons _ _).trans (here ▸ inside)) emitted place, .inl Nat.one_pos⟩
  | breakOut aim _ =>
      obtain ⟨k', out, reached⟩ := place.breakTo aim
      obtain ⟨start, _, _, _, _, _, found, _⟩ := id reached
      refine ⟨_, 1, _, congrArg (Option.map _) out, run_jump running here found,
        .of_reached rfl running found reached, .inl Nat.one_pos⟩
  | continueLoop aim _ =>
      obtain ⟨focus', k', out, reached⟩ := place.continueTo aim
      obtain ⟨start, _, _, _, _, _, found, _⟩ := id reached
      exact ⟨_, 1, _, congrArg (Option.map _) out, run_jump running here found,
        .of_reached rfl running found reached, .inl Nat.one_pos⟩
  | goto defined _ =>
      obtain ⟨focus', k', out, reached⟩ := compiled.goto defined c.slots
      obtain ⟨start, _, _, _, _, _, found, _⟩ := id reached
      have first : Moves (codeMachine world code) 1 c _ := run_label running here
      exact ⟨_, 2, _, congrArg (Option.map _) out, first.trans (run_jump running rfl found),
        .of_reached rfl running found reached, .inl Nat.two_pos⟩
  | @returnValue _ _ _ later _ e _ =>
      have within : (epilogue ++ (later ++ after)) <:+ code :=
        inner_suffix (valueLines e ++ [Line.comment "return"]) (here ▸ inside) (by simp)
      cases e with
      | none =>
          have only : Moves (codeMachine world code) 1 c (c.on (epilogue ++ (later ++ after))) :=
            run_line (by simp [execute, running, here, valueLines])
          exact ⟨_, 1, _, rfl, only, .stopped rfl running rfl within rfl rfl, .inl Nat.one_pos⟩
      | some e =>
          have first : Moves (codeMachine world code) 1 c _ := run_expr running here
          have second : Moves (codeMachine world code) 1 _
              ((c.evaluate world e).on (epilogue ++ (later ++ after))) :=
            run_line (c := (c.evaluate world e).on (.comment "return" :: (epilogue ++ (later ++ after))))
              (by simp [execute, running, Cpu.evaluate])
          refine ⟨_, 2, _, rfl, first.trans (by simpa [Cpu.evaluate] using second), ?_,
            .inl Nat.two_pos⟩
          exact .stopped rfl running rfl within rfl rfl

end

variable (world code) in
theorem run_epilogue {after : List Line} (running : c.returned = false)
    (here : c.rest = epilogue ++ after) : ∃ c', Moves (codeMachine world code) 3 c c' ∧
      c'.returned = true ∧ c'.history = c.history := by
  refine ⟨{ c with rest := after, returned := true }, .head (t := c.on (.popFrame :: .ret :: after)) ?_
    (.head (t := c.on (.ret :: after)) ?_ (.single ?_)), rfl, rfl⟩
  · simp [codeMachine, execute, running, here, epilogue]
  · simp [codeMachine, execute, running]
  · simp [codeMachine, execute, running]

theorem Compiled.simulates {program : List Stmt} (compiled : Compiled layout code program)
    (world : World) : Simulates (stmtMachine layout.before world program) (codeMachine world code)
      (Matches layout code) State.weight where
  log := fun _ _ matched => matched.history
  final := by
    rintro ⟨focus, k, history⟩ c ⟨same, running, inside, bound, ctx, lines, after, ms, silent, emitted,
      place⟩ ⟨rfl, rfl⟩
    cases emitted
    cases place with
    | @stop _ after =>
        obtain ⟨n, first⟩ := silent.run world running rfl
        obtain ⟨c', second, returned, kept⟩ := run_epilogue world code
          (c := c.on (epilogue ++ after)) running rfl
        exact ⟨_, c', first.trans second, returned, kept.trans same.symm⟩
  step := by
    rintro ⟨focus, k, history⟩ c ⟨same, running, inside, bound, ctx, lines, after, ms, silent, emitted,
      place⟩ unfinished
    obtain rfl : history = c.history := same
    obtain ⟨n, first⟩ := silent.run world running rfl
    obtain ⟨s', m, c', step, second, matched, moved⟩ := progress_at world compiled
      (c := c.on (lines ++ after)) running rfl (silent.suffix inside) emitted place unfinished
    exact ⟨s', _, c', step, first.trans second, matched, moved.imp (by omega) id⟩

/-- The code of a program reports what the statement machine reports, and returns with it. -/
theorem Compiled.same_runs {program : List Stmt} (compiled : Compiled layout code program)
    (world : World) (start : c.rest = code) (running : c.returned = false) (fresh : c.history = [])
    (reported : List Expr) :
    (Reports (stmtMachine layout.before world program) ⟨program, .stop, []⟩ reported ↔
      Reports (codeMachine world code) c reported) ∧
    (Finishes (stmtMachine layout.before world program) ⟨program, .stop, []⟩ reported ↔
      Finishes (codeMachine world code) c reported) := by
  have related : Matches layout code ⟨program, .stop, []⟩ c := by
    obtain ⟨poll, lines, bound, ms, shape, emitted⟩ := compiled.body
    refine ⟨fresh.symm, running, start ▸ List.suffix_rfl, bound, _, lines, epilogue ++ [], ms, ?_,
      emitted, .stop⟩
    rw [start, shape]
    exact .label (by simpa using .refl _)
  exact ⟨(compiled.simulates world).reports_iff related reported,
    (compiled.simulates world).finishes_iff related reported⟩

end

end SymphonyPlus.Statements
