import SymphonyPlus.IsaConformance

/-!
Runs of the machine over code whose words are known to do a list of operations. The code lies under
a bound that no store of it passes.
-/

namespace SymphonyPlus

open ByteMemory

theorem Registers.set_set (registers : Registers) (index : Fin 16) (first second : BitVec 32) :
    (registers.set index first).set index second = registers.set index second := by
  refine Registers.ext_value fun query => ?_
  by_cases same : query = index
  · by_cases zero : index = 0
    · simp [Registers.set, same, zero]
    · rw [same, Registers.set_same _ _ zero, Registers.set_same _ _ zero]
  · rw [Registers.set_other _ _ same, Registers.set_other _ _ same, Registers.set_other _ _ same]

theorem Registers.set_self (registers : Registers) (index : Fin 16) :
    registers.set index (registers index) = registers := by
  refine Registers.ext_value fun query => ?_
  by_cases same : query = index ∧ index ≠ 0
  · rw [same.1, Registers.set_same _ _ same.2]
  · simp [Registers.set, same]

inductive MachineRuns (options : EmuOptions) : Machine → Machine → Prop
  | here (machine : Machine) : MachineRuns options machine machine
  | next {machine after final : Machine} (first : step options machine = .running after)
      (later : MachineRuns options after final) : MachineRuns options machine final

theorem MachineRuns.trans {options : EmuOptions} {first second third : Machine}
    (left : MachineRuns options first second) (right : MachineRuns options second third) :
    MachineRuns options first third := by
  induction left with
  | here => exact right
  | next first _ ih => exact .next first (ih right)

/-- The words at an address do the operations, one after the other. -/
def OperationsAt (memory : Memory) (address : Nat) (operations : List Operation) : Prop :=
  ∀ i (bound : i < operations.length),
    Implements (read32 memory (address + 4 * i)) operations[i]

theorem OperationsAt.head {memory : Memory} {address : Nat} {operation : Operation}
    {operations : List Operation} (code : OperationsAt memory address (operation :: operations)) :
    Implements (read32 memory address) operation :=
  code 0 (Nat.succ_pos _)

theorem OperationsAt.left {memory : Memory} {address : Nat} {first second : List Operation}
    (code : OperationsAt memory address (first ++ second)) : OperationsAt memory address first := by
  intro i bound
  have here := code i (by rw [List.length_append]; omega)
  rwa [List.getElem_append_left bound] at here

theorem OperationsAt.right {memory : Memory} {address : Nat} {first second : List Operation}
    (code : OperationsAt memory address (first ++ second)) :
    OperationsAt memory (address + 4 * first.length) second := by
  intro i bound
  have here := code (first.length + i) (by rw [List.length_append]; omega)
  rw [List.getElem_append_right (Nat.le_add_right _ _)] at here
  simpa only [Nat.add_sub_cancel_left, Nat.mul_add, Nat.add_assoc] using here

theorem OperationsAt.tail {memory : Memory} {address : Nat} {operation : Operation}
    {operations : List Operation} (code : OperationsAt memory address (operation :: operations)) :
    OperationsAt memory (address + 4) operations := by
  have rest : OperationsAt memory address ([operation] ++ operations) := code
  exact rest.right

structure MachineAt (machine : Machine) (pc : Nat) (regs : Registers) (memory : Memory) : Prop where
  pc : machine.pc = pc
  regs : machine.regs = regs
  memory : machine.memory = memory

/-- From the first place every machine runs to the second. -/
def Leads (options : EmuOptions) (pc : Nat) (regs : Registers) (memory : Memory) (pc₂ : Nat)
    (regs₂ : Registers) (memory₂ : Memory) : Prop :=
  ∀ machine, MachineAt machine pc regs memory →
    ∃ after, MachineRuns options machine after ∧ MachineAt after pc₂ regs₂ memory₂

theorem Leads.refl (options : EmuOptions) (pc : Nat) (regs : Registers) (memory : Memory) :
    Leads options pc regs memory pc regs memory :=
  fun machine here => ⟨machine, .here machine, here⟩

theorem Leads.trans {options : EmuOptions} {pc pc₂ pc₃ : Nat} {regs regs₂ regs₃ : Registers}
    {memory memory₂ memory₃ : Memory} (first : Leads options pc regs memory pc₂ regs₂ memory₂)
    (second : Leads options pc₂ regs₂ memory₂ pc₃ regs₃ memory₃) :
    Leads options pc regs memory pc₃ regs₃ memory₃ := by
  intro machine here
  obtain ⟨middle, run, there⟩ := first machine here
  obtain ⟨after, run', final⟩ := second middle there
  exact ⟨after, run.trans run', final⟩

/-- As `Leads`, by a last jump that may be to itself: the emulator then stops there. -/
def Arrives (options : EmuOptions) (pc : Nat) (regs : Registers) (memory : Memory) (pc₂ : Nat)
    (regs₂ : Registers) (memory₂ : Memory) : Prop :=
  ∀ machine, MachineAt machine pc regs memory → ∃ last after, MachineRuns options machine last ∧
    (step options last = .running after ∨ step options last = .halted after) ∧
    MachineAt after pc₂ regs₂ memory₂

theorem Leads.arrives {options : EmuOptions} {pc pc₂ pc₃ : Nat} {regs regs₂ regs₃ : Registers}
    {memory memory₂ memory₃ : Memory} (first : Leads options pc regs memory pc₂ regs₂ memory₂)
    (second : Arrives options pc₂ regs₂ memory₂ pc₃ regs₃ memory₃) :
    Arrives options pc regs memory pc₃ regs₃ memory₃ := by
  intro machine here
  obtain ⟨middle, run, there⟩ := first machine here
  obtain ⟨last, after, run', ended, final⟩ := second middle there
  exact ⟨last, after, run.trans run', ended, final⟩

structure FullAddressing (options : EmuOptions) (top : Nat) : Prop where
  mask : options.ramMask = BitVec.allOnes 32
  size : top ≤ options.ramSize
  small : top ≤ 2 ^ 32

section Operations

variable {options : EmuOptions} {top bound pc : Nat} {regs : Registers} {image memory : Memory}

def CodeKept (bound : Nat) (image memory : Memory) : Prop := AgreeOn (· < bound) image memory

theorem CodeKept.write32 {address : Nat} {value : BitVec 32} (kept : CodeKept bound image memory)
    (above : bound ≤ address) : CodeKept bound image (write32 memory address value) := by
  intro query below
  rw [write32_outside _ _ _ _ (.inl (Nat.lt_of_lt_of_le below above))]
  exact kept query below

theorem step_of_effect (full : FullAddressing options top) {operation : Operation}
    {machine : Machine} (low : machine.pc + 4 ≤ top)
    (implemented : Implements (read32 machine.memory machine.pc) operation) :
    ∃ result, Realises (operation.effect options machine) result ∧
      step options machine = match result with
        | .running after => .running { after with instruction := machine.instruction + 1 }
        | stopped => stopped := by
  refine ⟨_, implemented options machine, ?_⟩
  have size := full.size
  rw [step, if_pos full.mask]
  exact if_pos (by omega)

theorem leads_advance (full : FullAddressing options top) (within : bound ≤ top)
    {operation : Operation} {operations : List Operation}
    (code : OperationsAt image pc (operation :: operations)) (low : pc + 4 ≤ bound)
    (kept : CodeKept bound image memory) {regs₂ : Registers} {memory₂ : Memory}
    (effect : ∀ machine, MachineAt machine pc regs memory → ∃ after,
      operation.effect options machine = .advance after ∧ after.pc = machine.pc ∧
        after.regs = regs₂ ∧ after.memory = memory₂) :
    Leads options pc regs memory (pc + 4) regs₂ memory₂ := by
  intro machine here
  obtain ⟨after, advanced, samePc, sameRegs, sameMemory⟩ := effect machine here
  have word : read32 machine.memory machine.pc = read32 image pc := by
    rw [here.pc, here.memory]
    exact (read32_congr fun query inside => kept query (by omega)).symm
  obtain ⟨result, realised, stepped⟩ := step_of_effect full (by rw [here.pc]; omega)
    (by rw [word]; exact code.head)
  rw [advanced] at realised
  obtain rfl : result = .running after.next := realised
  have small := full.small
  refine ⟨_, .next stepped (.here _), ?_, sameRegs, sameMemory⟩
  change (after.pc + 4) % 2 ^ 64 = pc + 4
  rw [samePc, here.pc, Nat.mod_eq_of_lt (by omega)]

theorem leads_alu (regs : Registers) (full : FullAddressing options top) (within : bound ≤ top)
    {op : AluOp} {target left : Fin 16} {right : Source} {operations : List Operation}
    (code : OperationsAt image pc (.alu op target left right :: operations)) (low : pc + 4 ≤ bound)
    (kept : CodeKept bound image memory) :
    Leads options pc regs memory (pc + 4)
      (regs.set target (op.apply (regs left) (right.read regs))) memory := by
  refine leads_advance full within code low kept fun machine here => ⟨_, rfl, rfl, ?_, here.memory⟩
  change machine.regs.set target _ = _
  rw [here.regs]

theorem leads_move (regs : Registers) (full : FullAddressing options top) (within : bound ≤ top)
    {target : Fin 16} {source : Source} {operations : List Operation}
    (code : OperationsAt image pc (.move target source :: operations)) (low : pc + 4 ≤ bound)
    (kept : CodeKept bound image memory) :
    Leads options pc regs memory (pc + 4) (regs.set target (source.read regs)) memory := by
  refine leads_advance full within code low kept fun machine here => ⟨_, rfl, rfl, ?_, here.memory⟩
  change machine.regs.set target _ = _
  rw [here.regs]

theorem leads_counter (regs : Registers) (full : FullAddressing options top) (within : bound ≤ top)
    {target : Fin 16} {operations : List Operation}
    (code : OperationsAt image pc (.counter target :: operations)) (low : pc + 4 ≤ bound)
    (kept : CodeKept bound image memory) :
    Leads options pc regs memory (pc + 4) (regs.set target (BitVec.ofNat 32 pc)) memory := by
  refine leads_advance full within code low kept fun machine here => ⟨_, rfl, rfl, ?_, here.memory⟩
  change machine.regs.set target _ = _
  rw [here.regs, here.pc]

theorem ramAddress_reg (full : FullAddressing options top) (machine : Machine) (address : Fin 16) :
    ramAddress options machine (.reg address) = (machine.regs address).toNat := by
  rw [ramAddress, full.mask, BitVec.and_allOnes]
  rfl

theorem leads_load (regs : Registers) (full : FullAddressing options top) (within : bound ≤ top)
    {target address : Fin 16} {operations : List Operation}
    (code : OperationsAt image pc (.load .word target (.reg address) :: operations))
    (low : pc + 4 ≤ bound) (kept : CodeKept bound image memory)
    (inside : (regs address).toNat + 4 ≤ top) :
    Leads options pc regs memory (pc + 4)
      (regs.set target (read32 memory (regs address).toNat)) memory := by
  refine leads_advance full within code low kept fun machine here => ?_
  have size := full.size
  refine ⟨machine.setReg target (read32 machine.memory (machine.regs address).toNat), ?_, rfl, ?_,
    here.memory⟩
  · simp only [Operation.effect, ramAddress_reg full, Width.bytes, Width.load, here.regs]
    rw [if_pos (by omega)]
  · change machine.regs.set target _ = _
    rw [here.regs, here.memory]

theorem leads_store (regs : Registers) (full : FullAddressing options top) (within : bound ≤ top)
    {address source : Fin 16} {operations : List Operation}
    (code : OperationsAt image pc (.store .word (.reg address) source :: operations))
    (low : pc + 4 ≤ bound) (kept : CodeKept bound image memory)
    (inside : (regs address).toNat + 4 ≤ top) :
    Leads options pc regs memory (pc + 4) regs
      (write32 memory (regs address).toNat (regs source)) := by
  refine leads_advance full within code low kept fun machine here => ?_
  have size := full.size
  refine ⟨{ machine with
    memory := write32 machine.memory (machine.regs address).toNat (machine.regs source) }, ?_, rfl,
    here.regs, ?_⟩
  · simp only [Operation.effect, ramAddress_reg full, Width.bytes, Width.store, here.regs]
    rw [if_pos (by omega)]
  · rw [here.regs, here.memory]

/-- A jump to another place goes on there. -/
theorem leads_jump (regs : Registers) (full : FullAddressing options top) (within : bound ≤ top)
    {target : Fin 16} {operations : List Operation}
    (code : OperationsAt image pc (.jump (.reg target) :: operations)) (low : pc + 4 ≤ bound)
    (kept : CodeKept bound image memory) (other : (regs target).toNat ≠ pc) :
    Leads options pc regs memory (regs target).toNat regs memory := by
  intro machine here
  have word : read32 machine.memory machine.pc = read32 image pc := by
    rw [here.pc, here.memory]
    exact (read32_congr fun query inside => kept query (by omega)).symm
  obtain ⟨result, realised, stepped⟩ := step_of_effect full (by rw [here.pc]; omega)
    (by rw [word]; exact code.head)
  have small := full.small
  have target_eq : (Source.reg target).read machine.regs = regs target := by rw [here.regs]; rfl
  rcases realised with rfl | ⟨self, -⟩
  · refine ⟨_, .next stepped (.here _), ?_, here.regs, here.memory⟩
    change ((Source.reg target).read machine.regs).toNat = _
    rw [target_eq]
  · rw [target_eq, here.pc, Nat.mod_eq_of_lt (by omega)] at self
    exact absurd self other

theorem arrives_jump (regs : Registers) (full : FullAddressing options top) (within : bound ≤ top)
    {target : Fin 16} {operations : List Operation}
    (code : OperationsAt image pc (.jump (.reg target) :: operations)) (low : pc + 4 ≤ bound)
    (kept : CodeKept bound image memory) :
    Arrives options pc regs memory (regs target).toNat regs memory := by
  intro machine here
  have word : read32 machine.memory machine.pc = read32 image pc := by
    rw [here.pc, here.memory]
    exact (read32_congr fun query inside => kept query (by omega)).symm
  obtain ⟨result, realised, stepped⟩ := step_of_effect full (by rw [here.pc]; omega)
    (by rw [word]; exact code.head)
  have small := full.small
  have target_eq : (Source.reg target).read machine.regs = regs target := by rw [here.regs]; rfl
  rcases realised with rfl | ⟨self, rfl⟩
  · refine ⟨machine, _, .here machine, .inl stepped, ?_, here.regs, here.memory⟩
    change ((Source.reg target).read machine.regs).toNat = _
    rw [target_eq]
  · refine ⟨machine, _, .here machine, .inr stepped, ?_, here.regs, here.memory⟩
    rw [target_eq, here.pc, Nat.mod_eq_of_lt (by omega)] at self
    rw [here.pc, self]

end Operations

end SymphonyPlus
