import Mathlib.Data.Option.Basic
import SymphonyPlus.ExpressionMeaning

/-!
Evaluations in related worlds, and the order in which an expression reads, stores and calls.
-/

namespace SymphonyPlus

open ByteMemory BitRanges

variable {α σ τ : Type}

/-- From related states two evaluations go to the same value and to related states. -/
def Evaluation.Related (related : σ → τ → Prop) (first : Evaluation σ) (second : Evaluation τ) :
    Prop :=
  ∀ s t, related s t → Option.Rel (fun x y => x.1 = y.1 ∧ related x.2 y.2) (first s) (second t)

section Related

variable {related : σ → τ → Prop}

theorem Evaluation.related_pure (value : BitVec 32) :
    Evaluation.Related related (.pure value) (.pure value) :=
  fun _ _ relates => .some ⟨rfl, relates⟩

theorem Evaluation.related_none : Evaluation.Related related .none .none :=
  fun _ _ _ => .none

theorem Evaluation.Related.left {first : Evaluation σ} {second : Evaluation τ}
    (relates : first.Related related second) {s s' : σ} {t : τ} {value : BitVec 32}
    (start : related s t) (runs : first s = some (value, s')) :
    ∃ t', second t = some (value, t') ∧ related s' t' := by
  have step := relates s t start
  rw [runs] at step
  generalize isResult : second t = result at step
  cases step with
  | some both => exact ⟨_, congrArg (fun v => some (v, _)) both.1.symm, both.2⟩

theorem Evaluation.Related.right {first : Evaluation σ} {second : Evaluation τ}
    (relates : first.Related related second) {s : σ} {t t' : τ} {value : BitVec 32}
    (start : related s t) (runs : second t = some (value, t')) :
    ∃ s', first s = some (value, s') ∧ related s' t' := by
  have step := relates s t start
  rw [runs] at step
  generalize isResult : first s = result at step
  cases step with
  | some both => exact ⟨_, congrArg (fun v => some (v, _)) both.1, both.2⟩

theorem Evaluation.Related.bind {first : Evaluation σ} {second : Evaluation τ}
    {next : BitVec 32 → Evaluation σ} {next₂ : BitVec 32 → Evaluation τ}
    (relates : first.Related related second)
    (later : ∀ value, (next value).Related related (next₂ value)) :
    (first.bind next).Related related (second.bind next₂) := by
  intro s t start
  have step := relates s t start
  simp only [Evaluation.bind]
  generalize first s = x at step ⊢
  generalize second t = y at step ⊢
  cases step with
  | none => exact .none
  | some both =>
      obtain ⟨same, states⟩ := both
      simp only [Option.bind_some, same]
      exact later _ _ _ states

structure World.Related (related : σ → τ → Prop) (first : World α σ) (second : World α τ) : Prop where
  base : first.base = second.base
  naming : first.naming = second.naming
  fetch : ∀ lhs address, (first.fetch lhs address).Related related (second.fetch lhs address)
  put : ∀ ty lhs address value,
    (first.put ty lhs address value).Related related (second.put ty lhs address value)
  calls : ∀ which, (first.calls which).Related related (second.calls which)

structure NodeMeaning.Related (related : σ → τ → Prop) (first : NodeMeaning σ)
    (second : NodeMeaning τ) : Prop where
  value : first.value.Related related second.value
  address : first.address.Related related second.address
  object : first.object.Related related second.object

theorem NodeMeaning.related_value {first : Evaluation σ} {second : Evaluation τ}
    (relates : first.Related related second) :
    NodeMeaning.Related related ⟨first, .none, .none⟩ ⟨second, .none, .none⟩ :=
  ⟨relates, Evaluation.related_none, Evaluation.related_none⟩

theorem NodeMeaning.related_object {first : Evaluation σ} {second : Evaluation τ}
    {read : BitVec 32 → Evaluation σ} {read₂ : BitVec 32 → Evaluation τ}
    (relates : first.Related related second)
    (reads : ∀ address, (read address).Related related (read₂ address)) :
    NodeMeaning.Related related ⟨first.bind read, first, first⟩ ⟨second.bind read₂, second, second⟩ :=
  ⟨relates.bind reads, relates, relates⟩

theorem nodeMeaning_addr (world : World α σ) {lhs : Node α} (other : ∀ val, lhs ≠ .str val)
    (ty : CType) :
    nodeMeaning world (.addr lhs ty) = ⟨(nodeMeaning world lhs).address, .none, .none⟩ := by
  cases lhs <;> first | rfl | exact absurd rfl (other _)

theorem nodeMeaning_binary (world : World α σ) {kind : BinaryKind}
    (plain : kind ≠ .logand ∧ kind ≠ .logor) (lhs rhs : Node α) (ty : CType) (val : Nat) :
    nodeMeaning world (.binary kind lhs rhs ty val) =
      ⟨(nodeMeaning world rhs).value.bind fun right =>
        (nodeMeaning world lhs).value.bind fun left => .pure (kind.apply ty val left right),
        .none, .none⟩ := by
  cases kind <;> first | rfl | simp at plain

/-- Related worlds give a node related meanings. -/
theorem nodeMeaning_related {first : World α σ} {second : World α τ}
    (relates : World.Related related first second) (n : Node α) :
    NodeMeaning.Related related (nodeMeaning first n) (nodeMeaning second n) := by
  induction n with
  | num val ty => exact NodeMeaning.related_value (Evaluation.related_pure _)
  | var offset ty =>
      simp only [nodeMeaning, relates.base]
      exact NodeMeaning.related_object (Evaluation.related_pure _) (relates.fetch _)
  | gvar name ty =>
      simp only [nodeMeaning, relates.naming]
      exact NodeMeaning.related_object (Evaluation.related_pure _) (relates.fetch _)
  | func name ty =>
      simp only [nodeMeaning, relates.naming]
      exact NodeMeaning.related_value (Evaluation.related_pure _)
  | str val =>
      simp only [nodeMeaning, relates.naming]
      exact NodeMeaning.related_value (Evaluation.related_pure _)
  | call which ty => exact ⟨relates.calls which, Evaluation.related_none, relates.calls which⟩
  | addr lhs ty ih =>
      by_cases isString : ∃ val, lhs = .str val
      · obtain ⟨val, rfl⟩ := isString
        simp only [nodeMeaning, relates.naming]
        exact NodeMeaning.related_value (Evaluation.related_pure _)
      · have other : ∀ val, lhs ≠ .str val := fun val same => isString ⟨val, same⟩
        rw [nodeMeaning_addr first other, nodeMeaning_addr second other]
        exact NodeMeaning.related_value ih.address
  | deref lhs ty ih => exact NodeMeaning.related_object ih.value (relates.fetch _)
  | member lhs val field ty ih =>
      exact NodeMeaning.related_object (ih.object.bind fun _ => Evaluation.related_pure _)
        (relates.fetch _)
  | cast lhs ty ih =>
      exact NodeMeaning.related_value (ih.value.bind fun _ => Evaluation.related_pure _)
  | unary kind lhs ih =>
      exact NodeMeaning.related_value (ih.value.bind fun _ => Evaluation.related_pure _)
  | binary kind lhs rhs ty val left right =>
      have test := right.value.bind fun second => Evaluation.related_pure (truth (second != 0))
      by_cases plain : kind ≠ .logand ∧ kind ≠ .logor
      · rw [nodeMeaning_binary first plain, nodeMeaning_binary second plain]
        exact NodeMeaning.related_value (right.value.bind fun _ => left.value.bind fun _ =>
          Evaluation.related_pure _)
      · obtain rfl | rfl : kind = .logand ∨ kind = .logor := by
          by_contra neither
          exact plain (not_or.mp neither)
        · refine NodeMeaning.related_value (left.value.bind fun value => ?_)
          split
          · exact Evaluation.related_pure _
          · exact test
        · refine NodeMeaning.related_value (left.value.bind fun value => ?_)
          split
          · exact test
          · exact Evaluation.related_pure _
  | assign lhs rhs ty left right =>
      exact NodeMeaning.related_value (left.address.bind fun _ => right.value.bind fun _ =>
        relates.put _ _ _ _)
  | comma lhs rhs ty left right =>
      exact NodeMeaning.related_value (left.value.bind fun _ => right.value)
  | cond lhs rhs els ty test left right =>
      refine NodeMeaning.related_value (test.value.bind fun value => ?_)
      split
      · exact right.value
      · exact left.value

end Related

inductive Access (α : Type)
  | load (lhs : Lvalue) (address : BitVec 32)
  | store (lhs : Lvalue) (address value : BitVec 32)
  | call (which : α)

def Access.isEffect : Access α → Bool
  | .load _ _ => false
  | _ => true

def effects (trace : List (Access α)) : List (Access α) := trace.filter Access.isEffect

abbrev Logged (α : Type) : Type := Memory × List (Access α)

def recorded (event : Access α) (meaning : Meaning) : Evaluation (Logged α) := fun state =>
  (meaning state.1).map fun result => (result.1, (result.2, state.2 ++ [event]))

/-- The setting, with a record of what happens. -/
def Setting.logged (setting : Setting α) : World α (Logged α) where
  base := setting.frame.base
  naming := setting.naming
  fetch lhs address := recorded (.load lhs address) (setting.world.fetch lhs address)
  put ty lhs address value :=
    recorded (.store lhs address value) (setting.world.put ty lhs address value)
  calls which := recorded (.call which) (setting.calls which)

@[simp] theorem effects_append (first second : List (Access α)) :
    effects (first ++ second) = effects first ++ effects second :=
  List.filter_append _ _

@[simp] theorem effects_nil : effects ([] : List (Access α)) = [] := rfl

@[simp] theorem effects_load (lhs : Lvalue) (address : BitVec 32) (rest : List (Access α)) :
    effects (.load lhs address :: rest) = effects rest := rfl

@[simp] theorem effects_store (lhs : Lvalue) (address value : BitVec 32) (rest : List (Access α)) :
    effects (.store lhs address value :: rest) = .store lhs address value :: effects rest := rfl

theorem recorded_eq_some {event : Access α} {meaning : Meaning} {state state' : Logged α}
    {value : BitVec 32} : recorded event meaning state = some (value, state') ↔
      meaning state.1 = some (value, state'.1) ∧ state'.2 = state.2 ++ [event] := by
  obtain ⟨memory', trace'⟩ := state'
  rw [recorded]
  cases meaning state.1 <;> simp [Prod.ext_iff, and_assoc, eq_comm]

theorem recorded_related {related : Logged α → τ → Prop} {event : Access α} {meaning : Meaning}
    {second : Evaluation τ} (relates : ∀ s t, related s t →
      Option.Rel (fun x y => x.1 = y.1 ∧ related (x.2, s.2 ++ [event]) y.2) (meaning s.1) (second t)) :
    (recorded event meaning).Related related second := by
  intro s t start
  have step := relates s t start
  rw [recorded]
  generalize meaning s.1 = x at step ⊢
  generalize second t = y at step ⊢
  cases step with
  | none => exact .none
  | some both => exact .some both

/-- Without its record a run is a run of the setting. -/
theorem logged_forget (setting : Setting α) :
    World.Related (fun (state : Logged α) memory => state.1 = memory) setting.logged setting.world := by
  have forgets (event : Access α) (meaning : Meaning) :
      (recorded event meaning).Related (fun state memory => state.1 = memory) meaning := by
    refine recorded_related ?_
    rintro s t rfl
    cases meaning s.1 with
    | none => exact .none
    | some result => exact .some ⟨rfl, rfl⟩
  exact ⟨rfl, rfl, fun _ _ => forgets _ _, fun _ _ _ _ => forgets _ _, fun _ => forgets _ _⟩

/-- A run does not depend on what the record holds at its start. -/
theorem logged_shift (setting : Setting α) (before : List (Access α)) :
    World.Related (fun s t : Logged α => s.1 = t.1 ∧ t.2 = before ++ s.2) setting.logged
      setting.logged := by
  have shifts (event : Access α) (meaning : Meaning) : (recorded event meaning).Related
      (fun s t : Logged α => s.1 = t.1 ∧ t.2 = before ++ s.2) (recorded event meaning) := by
    refine recorded_related ?_
    rintro ⟨memory, trace⟩ ⟨memory', trace'⟩ ⟨same, longer⟩
    cases same
    cases longer
    rw [recorded]
    cases meaning memory with
    | none => exact .none
    | some result => exact .some ⟨rfl, rfl, List.append_assoc _ _ _⟩
  exact ⟨rfl, rfl, fun _ _ => shifts _ _, fun _ _ _ _ => shifts _ _, fun _ => shifts _ _⟩

/-- The record goes on, and the memory is the same wherever it shows no effect. -/
structure Extends (start state : Logged α) : Prop where
  trace : start.2 <+: state.2
  memory : effects state.2 = effects start.2 → state.1 = start.1

theorem Extends.effects_grow {start state : Logged α} (extends_ : Extends start state) :
    effects start.2 <+: effects state.2 :=
  extends_.trace.filter _

theorem Extends.refl (start : Logged α) : Extends start start :=
  ⟨List.prefix_refl _, fun _ => rfl⟩

theorem Extends.load {start : Logged α} {memory : Memory} {trace : List (Access α)}
    (extends_ : Extends start (memory, trace)) (lhs : Lvalue) (address : BitVec 32) :
    Extends start (memory, trace ++ [.load lhs address]) where
  trace := extends_.trace.trans (List.prefix_append _ _)
  memory quiet := extends_.memory (by simpa using quiet)

theorem Extends.effect {start : Logged α} {memory memory' : Memory} {trace : List (Access α)}
    (extends_ : Extends start (memory, trace)) {event : Access α} (effect : event.isEffect) :
    Extends start (memory', trace ++ [event]) where
  trace := extends_.trace.trans (List.prefix_append _ _)
  memory quiet := by
    obtain ⟨more, longer⟩ := extends_.trace
    change start.2 ++ more = trace at longer
    change effects (trace ++ [event]) = effects start.2 at quiet
    have lengths := congrArg List.length quiet
    have one : effects [event] = [event] := List.filter_cons_of_pos effect
    rw [← longer, effects_append, effects_append, one] at lengths
    simp at lengths

theorem logged_extends (setting : Setting α) (start : Logged α) :
    World.Related (fun s t : Logged α => s = t ∧ Extends start s) setting.logged setting.logged := by
  have acts (event : Access α) (meaning : Meaning) (effect : event.isEffect) :
      (recorded event meaning).Related (fun s t => s = t ∧ Extends start s)
        (recorded event meaning) := by
    refine recorded_related ?_
    rintro s t ⟨rfl, extends_⟩
    rw [recorded]
    cases meaning s.1 with
    | none => exact .none
    | some result => exact .some ⟨rfl, rfl, extends_.effect effect⟩
  refine ⟨rfl, rfl, fun lhs address => ?_, fun _ _ _ _ => acts _ _ rfl, fun _ => acts _ _ rfl⟩
  refine recorded_related ?_
  rintro s t ⟨rfl, extends_⟩
  simp only [Setting.logged, recorded, Setting.world]
  cases setting.frame.fetch lhs address s.1 with
  | none => exact .none
  | some value => exact .some ⟨rfl, rfl, extends_.load lhs address⟩

end SymphonyPlus
