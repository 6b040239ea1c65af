import Mathlib.Data.List.Infix

/-! Deterministic machines that keep a log of what they have reported, and the forward simulation
that lets one of them take no step while the other moves. A decreasing measure excludes that this
goes on for ever, so both machines report the same sequences and finish with the same ones. -/

namespace StutterSimulation

structure Automaton (σ ε : Type) where
  next : σ → Option σ
  done : σ → Prop
  log : σ → List ε
  done_next : ∀ s, done s → next s = none
  log_next : ∀ s s', next s = some s' → log s <+: log s'

inductive Moves {σ ε : Type} (machine : Automaton σ ε) : Nat → σ → σ → Prop
  | refl (s : σ) : Moves machine 0 s s
  | head {n : Nat} {s t u : σ} : machine.next s = some t → Moves machine n t u →
      Moves machine (n + 1) s u

def Reports {σ ε : Type} (machine : Automaton σ ε) (s : σ) (reported : List ε) : Prop :=
  ∃ n s', Moves machine n s s' ∧ reported <+: machine.log s'

def Finishes {σ ε : Type} (machine : Automaton σ ε) (s : σ) (reported : List ε) : Prop :=
  ∃ n s', Moves machine n s s' ∧ machine.done s' ∧ machine.log s' = reported

section
variable {σ ε : Type} {machine : Automaton σ ε}

theorem Moves.single {s s' : σ} (step : machine.next s = some s') : Moves machine 1 s s' :=
  .head step (.refl s')

theorem Moves.trans {m n : Nat} {s s₁ s₂ : σ} (first : Moves machine m s s₁)
    (second : Moves machine n s₁ s₂) : Moves machine (m + n) s s₂ := by
  induction first with
  | refl => simpa using second
  | @head count _ _ _ step _ ih =>
      have joined := Moves.head step (ih second)
      rwa [show count + 1 + n = count + n + 1 by omega]

theorem Moves.log_prefix {n : Nat} {s s' : σ} (run : Moves machine n s s') :
    machine.log s <+: machine.log s' := by
  induction run with
  | refl => exact List.prefix_rfl
  | head step _ ih => exact (machine.log_next _ _ step).trans ih

/-- The shorter of two runs from one state is the beginning of the longer one. -/
theorem Moves.extends {m n : Nat} {s s₁ s₂ : σ} (short : Moves machine m s s₁)
    (long : Moves machine n s s₂) (order : m ≤ n) : Moves machine (n - m) s₁ s₂ := by
  induction short generalizing n with
  | refl => simpa using long
  | @head count _ _ _ step _ ih =>
      cases long with
      | refl => omega
      | @head later _ _ _ step' rest =>
          have same := step.symm.trans step'
          injection same with same
          subst same
          have tail := ih rest (by omega)
          rwa [show later + 1 - (count + 1) = later - count by omega]

theorem Moves.from_done {n : Nat} {s s' : σ} (run : Moves machine n s s') (stopped : machine.done s) :
    n = 0 ∧ s' = s := by
  cases run with
  | refl => exact ⟨rfl, rfl⟩
  | head step _ => simp [machine.done_next s stopped] at step

theorem Moves.to_done {m n : Nat} {s s₁ s₂ : σ} (run : Moves machine m s s₁)
    (final : Moves machine n s s₂) (stopped : machine.done s₂) : m ≤ n := by
  by_contra longer
  have rest := final.extends run (by omega)
  have := (rest.from_done stopped).1
  omega

theorem Finishes.unique {s : σ} {reported reported' : List ε} (one : Finishes machine s reported)
    (other : Finishes machine s reported') : reported = reported' := by
  obtain ⟨m, s₁, run₁, stopped₁, rfl⟩ := one
  obtain ⟨n, s₂, run₂, stopped₂, rfl⟩ := other
  have rest := run₁.extends run₂ (run₁.to_done run₂ stopped₂)
  obtain ⟨-, rfl⟩ := rest.from_done stopped₁
  rfl

end

/-- Every step of the source is matched by some steps of the target, none only when the measure
goes down. -/
structure Simulates {σ τ ε : Type} (source : Automaton σ ε) (target : Automaton τ ε)
    (related : σ → τ → Prop) (measure : σ → Nat) : Prop where
  log : ∀ s t, related s t → source.log s = target.log t
  final : ∀ s t, related s t → source.done s →
    ∃ n t', Moves target n t t' ∧ target.done t' ∧ target.log t' = source.log s
  step : ∀ s t, related s t → ¬ source.done s → ∃ s' n t', source.next s = some s' ∧
    Moves target n t t' ∧ related s' t' ∧ (0 < n ∨ measure s' < measure s)

section
variable {σ τ ε : Type} {source : Automaton σ ε} {target : Automaton τ ε}
variable {related : σ → τ → Prop} {measure : σ → Nat}

theorem Simulates.steps (simulation : Simulates source target related measure) {n : Nat} {s s' : σ}
    (run : Moves source n s s') : ∀ {t : τ}, related s t → ∃ m t', Moves target m t t' ∧ related s' t' := by
  induction run with
  | refl => exact fun {t} relation => ⟨0, t, .refl t, relation⟩
  | @head _ s₀ s₁ _ step _ ih =>
      intro t relation
      have running : ¬ source.done s₀ := fun stopped => by simp [source.done_next s₀ stopped] at step
      obtain ⟨s₁', m, t₁, step', run, relation', -⟩ := simulation.step s₀ t relation running
      obtain rfl : s₁' = s₁ := by simpa [step'] using step
      obtain ⟨k, t₂, run', relation''⟩ := ih relation'
      exact ⟨m + k, t₂, run.trans run', relation''⟩

/-- Wherever the target is after some steps, the source gets at least as far. -/
theorem Simulates.covers (simulation : Simulates source target related measure) (n : Nat) (s : σ)
    (t t' : τ) (relation : related s t) (run : Moves target n t t') :
    ∃ k s', Moves source k s s' ∧ target.log t' <+: source.log s' := by
  by_cases stopped : source.done s
  · obtain ⟨m, t₁, run₁, final, log⟩ := simulation.final s t relation stopped
    have rest := run.extends run₁ (run.to_done run₁ final)
    exact ⟨0, s, .refl s, log ▸ rest.log_prefix⟩
  · obtain ⟨s₁, m, t₁, step, run₁, relation₁, progress⟩ := simulation.step s t relation stopped
    by_cases inside : n ≤ m
    · have rest := run.extends run₁ inside
      exact ⟨1, s₁, .single step, simulation.log s₁ t₁ relation₁ ▸ rest.log_prefix⟩
    · obtain ⟨k, s₂, run₂, shown⟩ := simulation.covers (n - m) s₁ t₁ t' relation₁
        (run₁.extends run (by omega))
      exact ⟨k + 1, s₂, .head step run₂, shown⟩
termination_by (n, measure s)
decreasing_by
  rcases progress with moved | smaller
  · exact Prod.Lex.left _ _ (by omega)
  · rcases Nat.eq_zero_or_pos m with none | moved
    · simpa [none] using Prod.Lex.right n smaller
    · exact Prod.Lex.left _ _ (by omega)

theorem Simulates.finished (simulation : Simulates source target related measure) (n : Nat) (s : σ)
    (t t' : τ) (relation : related s t) (run : Moves target n t t') (final : target.done t') :
    Finishes source s (target.log t') := by
  by_cases stopped : source.done s
  · obtain ⟨m, t₁, run₁, final₁, log⟩ := simulation.final s t relation stopped
    have rest := run.extends run₁ (run.to_done run₁ final₁)
    obtain ⟨-, rfl⟩ := rest.from_done final
    exact ⟨0, s, .refl s, stopped, log.symm⟩
  · obtain ⟨s₁, m, t₁, step, run₁, relation₁, progress⟩ := simulation.step s t relation stopped
    have inside : m ≤ n := run₁.to_done run final
    obtain ⟨k, s₂, run₂, done₂, log₂⟩ := simulation.finished (n - m) s₁ t₁ t' relation₁
      (run₁.extends run inside) final
    exact ⟨k + 1, s₂, .head step run₂, done₂, log₂⟩
termination_by (n, measure s)
decreasing_by
  rcases progress with moved | smaller
  · exact Prod.Lex.left _ _ (by omega)
  · rcases Nat.eq_zero_or_pos m with none | moved
    · simpa [none] using Prod.Lex.right n smaller
    · exact Prod.Lex.left _ _ (by omega)

theorem Simulates.reports_iff (simulation : Simulates source target related measure) {s : σ} {t : τ}
    (relation : related s t) (reported : List ε) :
    Reports source s reported ↔ Reports target t reported := by
  constructor
  · rintro ⟨n, s', run, shown⟩
    obtain ⟨m, t', run', relation'⟩ := simulation.steps run relation
    exact ⟨m, t', run', simulation.log s' t' relation' ▸ shown⟩
  · rintro ⟨n, t', run, shown⟩
    obtain ⟨k, s', run', further⟩ := simulation.covers n s t t' relation run
    exact ⟨k, s', run', shown.trans further⟩

theorem Simulates.finishes_iff (simulation : Simulates source target related measure) {s : σ} {t : τ}
    (relation : related s t) (reported : List ε) :
    Finishes source s reported ↔ Finishes target t reported := by
  constructor
  · rintro ⟨n, s', run, stopped, rfl⟩
    obtain ⟨m, t₁, run₁, relation₁⟩ := simulation.steps run relation
    obtain ⟨k, t₂, run₂, final, log⟩ := simulation.final s' t₁ relation₁ stopped
    exact ⟨m + k, t₂, run₁.trans run₂, final, log⟩
  · rintro ⟨n, t', run, final, rfl⟩
    exact simulation.finished n s t t' relation run final

end

end StutterSimulation
