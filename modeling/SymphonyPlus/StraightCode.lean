import SymphonyPlus.CodeRuns

/-!
Code without jumps: what a list of operations makes of the registers and the memory, and that the
emulator does the same.
-/

namespace SymphonyPlus

open ByteMemory

/-- The memory that code may write begins at `low`, and all of it ends at `top`. -/
structure Ram where
  low : Nat
  top : Nat

structure Work where
  regs : Registers
  memory : Memory

def Work.set (work : Work) (reg : Fin 16) (value : BitVec 32) : Work :=
  { work with regs := work.regs.set reg value }

@[simp] theorem Work.set_memory (work : Work) (reg : Fin 16) (value : BitVec 32) :
    (work.set reg value).memory = work.memory := rfl

theorem Work.set_regs (work : Work) (reg query : Fin 16) (value : BitVec 32) :
    (work.set reg value).regs query =
      if query = reg ∧ reg ≠ 0 then value else work.regs query := rfl

theorem Work.set_same (work : Work) {reg : Fin 16} (value : BitVec 32) (nonzero : reg ≠ 0) :
    (work.set reg value).regs reg = value := Registers.set_same _ _ nonzero

theorem Work.set_self (work : Work) (reg : Fin 16) : work.set reg (work.regs reg) = work := by
  rw [Work.set, Registers.set_self]

theorem Work.set_set (work : Work) (reg : Fin 16) (first second : BitVec 32) :
    (work.set reg first).set reg second = work.set reg second := by
  rw [Work.set, Work.set, Registers.set_set]
  rfl

def Operation.work (ram : Ram) (operation : Operation) (work : Work) : Option Work :=
  match operation with
  | .alu op target left right =>
      some (work.set target (op.apply (work.regs left) (right.read work.regs)))
  | .move target source => some (work.set target (source.read work.regs))
  | .negate target source => some (work.set target (-source.read work.regs))
  | .load width target (.reg address) =>
      if (work.regs address).toNat + width.bytes ≤ ram.top then
        some (work.set target (width.load work.memory (work.regs address).toNat))
      else none
  | .store width (.reg address) source =>
      if ram.low ≤ (work.regs address).toNat ∧ (work.regs address).toNat + width.bytes ≤ ram.top then
        some { work with
          memory := width.store work.memory (work.regs address).toNat (work.regs source) }
      else none
  | _ => none

theorem work_alu (ram : Ram) (op : AluOp) (target left : Fin 16) (right : Source) (work : Work) :
    (Operation.alu op target left right).work ram work =
      some (work.set target (op.apply (work.regs left) (right.read work.regs))) := rfl

theorem work_load {ram : Ram} {width : Width} (target : Fin 16) {address : Fin 16} {work : Work}
    (inside : (work.regs address).toNat + width.bytes ≤ ram.top) :
    (Operation.load width target (.reg address)).work ram work =
      some (work.set target (width.load work.memory (work.regs address).toNat)) :=
  if_pos inside

theorem work_store {ram : Ram} {width : Width} {address : Fin 16} (source : Fin 16) {work : Work}
    (inside : ram.low ≤ (work.regs address).toNat ∧
      (work.regs address).toNat + width.bytes ≤ ram.top) :
    (Operation.store width (.reg address) source).work ram work = some { work with
      memory := width.store work.memory (work.regs address).toNat (work.regs source) } :=
  if_pos inside

def runCode (ram : Ram) (operations : List Operation) (work : Work) : Option Work :=
  operations.foldlM (fun work operation => operation.work ram work) work

theorem runCode_nil (ram : Ram) (work : Work) : runCode ram [] work = some work := rfl

theorem runCode_cons (ram : Ram) (operation : Operation) (operations : List Operation) (work : Work) :
    runCode ram (operation :: operations) work =
      (operation.work ram work).bind (runCode ram operations) := rfl

theorem runCode_append (ram : Ram) (first second : List Operation) (work : Work) :
    runCode ram (first ++ second) work = (runCode ram first work).bind (runCode ram second) :=
  List.foldlM_append

section Bridge

variable {options : EmuOptions} {ram : Ram} {image : Memory}

theorem store_kept {width : Width} {memory : Memory} {address : Nat} {value : BitVec 32}
    (kept : CodeKept ram.low image memory) (above : ram.low ≤ address) :
    CodeKept ram.low image (width.store memory address value) := by
  intro query below
  cases width with
  | byte =>
      rw [Width.store, write8_other _ _ _ _ (by omega)]
      exact kept query below
  | half =>
      rw [Width.store, write16_outside _ _ _ _ (by omega)]
      exact kept query below
  | word => exact kept.write32 above query below

theorem leads_work (full : FullAddressing options ram.top) (within : ram.low ≤ ram.top) {pc : Nat}
    {operation : Operation} {operations : List Operation} {work after : Work}
    (code : OperationsAt image pc (operation :: operations)) (low : pc + 4 ≤ ram.low)
    (kept : CodeKept ram.low image work.memory) (done : operation.work ram work = some after) :
    Leads options pc work.regs work.memory (pc + 4) after.regs after.memory ∧
      CodeKept ram.low image after.memory := by
  have size := full.size
  cases operation with
  | alu op target left right =>
      cases done
      exact ⟨leads_alu work.regs full within code low kept, kept⟩
  | move target source =>
      cases done
      exact ⟨leads_move work.regs full within code low kept, kept⟩
  | negate target source =>
      cases done
      refine ⟨leads_advance full within code low kept fun machine here => ⟨_, rfl, rfl, ?_,
        here.memory⟩, kept⟩
      change machine.regs.set target _ = _
      rw [here.regs]
      rfl
  | load width target address =>
      cases address with
      | imm => cases done
      | reg address =>
          rw [Operation.work] at done
          split at done
          · rename_i inside
            cases done
            refine ⟨leads_advance full within code low kept fun machine here => ⟨machine.setReg target
              (width.load machine.memory (machine.regs address).toNat), ?_, rfl, ?_, here.memory⟩, kept⟩
            · simp only [Operation.effect, ramAddress_reg full, here.regs]
              rw [if_pos (by omega)]
            · change machine.regs.set target _ = _
              rw [here.regs, here.memory]
              rfl
          · cases done
  | store width address source =>
      cases address with
      | imm => cases done
      | reg address =>
          rw [Operation.work] at done
          split at done
          · rename_i inside
            cases done
            refine ⟨leads_advance full within code low kept fun machine here => ⟨{ machine with
              memory := width.store machine.memory (machine.regs address).toNat (machine.regs source) },
              ?_, rfl, here.regs, ?_⟩, store_kept kept inside.1⟩
            · simp only [Operation.effect, ramAddress_reg full, here.regs]
              rw [if_pos (by omega)]
            · rw [here.regs, here.memory]
          · cases done
  | _ => cases done

/-- Straight code in memory takes the emulator where `runCode` says. -/
theorem leads_runCode (full : FullAddressing options ram.top) (within : ram.low ≤ ram.top) {pc : Nat}
    {operations : List Operation} {work after : Work} (code : OperationsAt image pc operations)
    (low : pc + 4 * operations.length ≤ ram.low) (kept : CodeKept ram.low image work.memory)
    (done : runCode ram operations work = some after) :
    Leads options pc work.regs work.memory (pc + 4 * operations.length) after.regs after.memory := by
  induction operations generalizing pc work with
  | nil =>
      cases done
      exact .refl _ _ _ _
  | cons operation operations ih =>
      rw [List.length_cons] at low
      rw [runCode_cons] at done
      obtain ⟨next, first, rest⟩ := Option.bind_eq_some_iff.mp done
      obtain ⟨leads, kept⟩ := leads_work full within code (by omega) kept first
      have later := ih code.tail (by omega) kept rest
      rw [show pc + 4 + 4 * operations.length = pc + 4 * (operations.length + 1) by omega] at later
      exact leads.trans later

end Bridge

end SymphonyPlus
