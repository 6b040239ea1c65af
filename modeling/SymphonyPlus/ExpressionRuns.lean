import SymphonyPlus.ExpressionCorrect
import SymphonyPlus.PointerArithmetic

/-!
Runs of the code of expressions without calls, and what the temporaries below the stack pointer do to
an expression that looks there.
-/

namespace SymphonyPlus

open ByteMemory BitRanges

variable {α : Type}

/-- The code ends in at most one state. -/
theorem Host.ends_once {host : Host α} {start : List (CodeLine α) × Core} {first second : Core}
    (one : host.Reaches start ([], first)) (two : host.Reaches start ([], second)) : first = second := by
  have stuck (core : Core) (other : List (CodeLine α) × Core)
      (reached : host.Reaches ([], core) other) : other = ([], core) := by
    rcases Relation.ReflTransGen.cases_head reached with same | ⟨next, step, -⟩
    · exact same.symm
    · cases step
  have functional : Relator.RightUnique fun first second => host.step first = some second :=
    fun _ _ _ left right => Option.some.inj (left.symm.trans right)
  rcases Relation.ReflTransGen.total_of_right_unique functional one two with later | later
  · exact (congrArg Prod.snd (stuck first _ later)).symm
  · exact congrArg Prod.snd (stuck second _ later)

/-- An expression without calls: its code leaves the value in `r1`, the stack pointer and the frame
base as before, and the memory that the expression makes, but for the bytes under the stack pointer
that it does not mention. -/
theorem expression_code {setting : Setting Empty} {host : Host Empty} {costs : Costs Empty}
    (sound : setting.frame.Sound) (faithful : Faithful host setting costs) (build : Build)
    (n : Node Empty) {next next' : Nat} {lines before after : List (CodeLine Empty)}
    (emitted : genExpr build setting.naming n next = some (lines, next'))
    (place : host.program = before ++ (lines ++ after)) {core : Core}
    (room : setting.frame.limit + n.bytes costs ≤ setting.frame.sp)
    (stack : core.sp = setting.frame.sp) (base : core.work.regs 10 = setting.frame.base)
    {value : BitVec 32} {memory' : ByteMemory.Memory}
    (means : eval setting n core.work.memory = some (value, memory')) :
    ∃ final, host.Reaches (lines ++ after, core) (after, final) ∧ final.work.regs 1 = value ∧
      final.work.regs 14 = core.work.regs 14 ∧ final.work.regs 10 = core.work.regs 10 ∧
      ∀ address, address < setting.frame.limit ∨ core.sp ≤ address →
        final.work.memory address = memory' address := by
  have ready : Ready setting.frame core.work.memory (n.bytes costs) core :=
    ⟨by omega, by omega, base, .refl _ _⟩
  obtain ⟨final, reaches, result, steady⟩ :=
    genExpr_correct sound faithful build n emitted place ready means
  refine ⟨final, reaches, result, steady.sp, steady.base, fun address outside => ?_⟩
  rw [stack] at outside
  exact (steady.visible address outside).symm

section Examples

def frameAt96 (limit : Nat) : Setting Empty where
  frame := ⟨⟨16, 128⟩, limit, 64, 96⟩
  naming := oneSetting.naming
  calls := Empty.elim

def instantRuntime (program : List (CodeLine Empty)) : Host Empty where
  ram := ⟨16, 128⟩
  outside := ⟨fun which => which.elim, fun which work => some (work.set 1
    (which.apply (read32 work.memory (work.regs 14).toNat)
      (read32 work.memory ((work.regs 14).toNat + 4))))⟩
  program := program

def coreAt64 : Core := ⟨⟨(Registers.clear.set 14 64).set 10 96, fun _ => 0⟩, 0, 0⟩

def quotient : Node Empty := newBinop .div (.unary .neg (newNumNode 5)) (newNumNode 2)

def codeOf (n : Node Empty) : List (CodeLine Empty) :=
  ((genExpr .host oneSetting.naming n 0).map Prod.fst).getD []

theorem instantRuntime_faithful {program : List (CodeLine Empty)} {limit : Nat}
    (unique : (codeLabels program).Nodup) :
    Faithful (instantRuntime program) (frameAt96 limit) ⟨fun which => which.elim, 0⟩ where
  ram := rfl
  unique := unique
  runtime which work _ :=
    ⟨_, rfl, Work.set_same _ _ (by decide), Registers.set_other _ _ (by decide),
      Registers.set_other _ _ (by decide), fun _ _ => rfl⟩
  call which := which.elim

theorem quotient_code :
    ∃ final, (instantRuntime (codeOf quotient)).Reaches (codeOf quotient ++ [], coreAt64) ([], final) ∧
      final.work.regs 1 = -2 ∧ final.work.regs 14 = coreAt64.work.regs 14 ∧
      final.work.regs 10 = coreAt64.work.regs 10 ∧
      ∀ address, address < 32 ∨ coreAt64.sp ≤ address →
        final.work.memory address = coreAt64.work.memory address :=
  @expression_code (frameAt96 32) (instantRuntime (codeOf quotient)) _ ⟨by decide, by decide, by decide⟩
    (instantRuntime_faithful (by decide)) .host quotient 0 0 (codeOf quotient) [] [] rfl
    (List.append_nil _).symm coreAt64 (by decide) rfl rfl _ _ rfl

/-- `*(int *)60 + 7` -/
def readBelow : Node Empty := newBinop .add (.deref (.num 60 (.ptr tyInt)) tyInt) (newNumNode 7)

/-- The right operand waits at 60 while the left one is read from there. -/
theorem readBelow_wrong :
    genExpr .host oneSetting.naming readBelow 0 = some (codeOf readBelow, 0) ∧
    eval (frameAt96 64) readBelow coreAt64.work.memory = some (7, coreAt64.work.memory) ∧
    ¬∃ final, (instantRuntime (codeOf readBelow)).Reaches (codeOf readBelow, coreAt64) ([], final) ∧
      final.work.regs 1 = 7 := by
  refine ⟨rfl, rfl, ?_⟩
  rintro ⟨final, reaches, seven⟩
  obtain ⟨last, reached, fourteen⟩ : ∃ last,
      (instantRuntime (codeOf readBelow)).Reaches (codeOf readBelow, coreAt64) ([], last) ∧
        last.work.regs 1 = 14 :=
    ⟨_, .head rfl (.head rfl (.head rfl (.head rfl (.head rfl (.head rfl (.head rfl (.head rfl
      (.head rfl .refl)))))))), rfl⟩
  obtain rfl := Host.ends_once reached reaches
  rw [fourteen] at seven
  exact absurd seven (by decide)

end Examples

end SymphonyPlus
