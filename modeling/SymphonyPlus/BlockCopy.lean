import SymphonyPlus.BlockLines
import SymphonyPlus.SyscallTransparency

/-!
`sp_copy` and `sp_zero` set the bytes of their destination and no others, for every number of words.
-/

namespace SymphonyPlus

open ByteMemory

/-! Memory with the first bytes of a range taken from another memory. -/

def filled (memory other : Memory) (start count : Nat) : Memory := fun query =>
  if start ≤ query ∧ query < start + count then other query else memory query

theorem filled_none (memory other : Memory) (start : Nat) : filled memory other start 0 = memory := by
  funext query
  exact if_neg (by omega)

theorem filled_inside {memory other : Memory} {start count query : Nat}
    (inside : start ≤ query ∧ query < start + count) :
    filled memory other start count query = other query :=
  if_pos inside

theorem filled_outside {memory other : Memory} {start count query : Nat}
    (outside : ¬(start ≤ query ∧ query < start + count)) :
    filled memory other start count query = memory query :=
  if_neg outside

theorem write32_filled (memory other : Memory) (start count : Nat) :
    write32 (filled memory other start count) (start + count) (read32 other (start + count)) =
      filled memory other start (count + 4) := by
  funext query
  by_cases inside : start + count ≤ query ∧ query < start + count + 4
  · rw [write32_read32 _ _ _ _ inside, filled_inside (by omega)]
  · rw [write32_outside _ _ _ _ (by omega)]
    by_cases early : start ≤ query ∧ query < start + count
    · rw [filled_inside early, filled_inside (by omega)]
    · rw [filled_outside early, filled_outside (by omega)]

def RangesApart (first size second reach : Nat) : Prop :=
  ∀ query, first ≤ query → query < first + size → ¬(second ≤ query ∧ query < second + reach)

theorem RangesApart.shorter {first size second reach done : Nat} (apart : RangesApart first size second reach)
    (short : done ≤ reach) : RangesApart first size second done := by
  intro query low high inside
  exact apart query low high (by omega)

theorem OperationsAt.filled {memory other : Memory} {address start count : Nat}
    {operations : List Operation} (code : OperationsAt memory address operations)
    (apart : RangesApart address (4 * operations.length) start count) :
    OperationsAt (filled memory other start count) address operations := by
  intro i bound
  have same : read32 (SymphonyPlus.filled memory other start count) (address + 4 * i) =
      read32 memory (address + 4 * i) :=
    read32_congr fun query inside => filled_outside (apart query (by omega) (by omega))
  rw [same]
  exact code i bound

/-! Conditional jumps through the gate. -/

section Branches

variable {options : EmuOptions} {top pc : Nat} {regs : Registers} {memory : Memory}

structure Compared (machine : Machine) (pc : Nat) (regs : Registers) (memory : Memory)
    (left right : BitVec 32) : Prop where
  here : MachineAt machine pc regs memory
  lastA : machine.lastA = left
  lastB : machine.lastB = right

theorem step_advance (full : FullAddressing options top) {operation : Operation}
    {operations : List Operation} (code : OperationsAt memory pc (operation :: operations))
    (low : pc + 4 ≤ top) {machine after : Machine} (here : MachineAt machine pc regs memory)
    (advanced : operation.effect options machine = .advance after) :
    step options machine = .running { after.next with instruction := machine.instruction + 1 } := by
  obtain ⟨result, realised, stepped⟩ := step_of_effect full (by rw [here.pc]; exact low)
    (by rw [here.pc, here.memory]; exact code.head)
  rw [advanced] at realised
  obtain rfl : result = .running after.next := realised
  exact stepped

theorem next_pc (full : FullAddressing options top) (low : pc + 4 ≤ top) {machine : Machine}
    (here : machine.pc = pc) : machine.next.pc = pc + 4 := by
  have small := full.small
  change (machine.pc + 4) % 2 ^ 64 = pc + 4
  rw [here, Nat.mod_eq_of_lt (by omega)]

theorem runs_compare (full : FullAddressing options top) {left : Fin 16} {right : Source}
    {operations : List Operation} (code : OperationsAt memory pc (.compare left right :: operations))
    (low : pc + 4 ≤ top) {machine : Machine} (here : MachineAt machine pc regs memory) :
    ∃ after, MachineRuns options machine after ∧
      Compared after (pc + 4) regs memory (regs left) (right.read regs) := by
  refine ⟨_, .next (step_advance full code low here rfl) (.here _), ⟨?_, here.regs, here.memory⟩, ?_, ?_⟩
  · exact next_pc full low here.pc
  · change machine.regs left = _
    rw [here.regs]
  · change right.read machine.regs = _
    rw [here.regs]

/-- An operation that only sets a register keeps what was compared. -/
theorem Compared.runs_set (full : FullAddressing options top) {operation : Operation}
    {operations : List Operation} (code : OperationsAt memory pc (operation :: operations))
    (low : pc + 4 ≤ top) {machine : Machine} {left right : BitVec 32}
    (target : Fin 16) (value : BitVec 32) (compared : Compared machine pc regs memory left right)
    (effect : ∀ machine : Machine, machine.regs = regs →
      operation.effect options machine = .advance (machine.setReg target value)) :
    ∃ after, MachineRuns options machine after ∧
      Compared after (pc + 4) (regs.set target value) memory left right := by
  obtain ⟨here, lastA, lastB⟩ := compared
  refine ⟨_, .next (step_advance full code low here (effect machine here.regs)) (.here _),
    ⟨?_, ?_, here.memory⟩, lastA, lastB⟩
  · exact next_pc full low here.pc
  · change machine.regs.set target value = _
    rw [here.regs]

theorem Compared.runs_target (full : FullAddressing options top) {addr gate : Nat}
    {condition : Condition} (small : addr < 2 ^ 32) {rest : List Operation}
    (code : OperationsAt memory pc (branchOps condition addr gate ++ rest)) (low : pc + 12 ≤ top)
    {machine : Machine} {left right : BitVec 32}
    (compared : Compared machine pc regs memory left right) :
    ∃ after, MachineRuns options machine after ∧
      Compared after (pc + 12) (regs.set 13 (BitVec.ofNat 32 addr)) memory left right := by
  let high : BitVec 32 := (BitVec.ofNat 16 (addr / 2 ^ 16)).zeroExtend 32
  obtain ⟨first, run, compared⟩ := compared.runs_set full code (by omega) 13 high fun _ _ => rfl
  obtain ⟨second, run', compared⟩ := compared.runs_set full code.tail (by omega) 13 (high <<< 16)
    fun machine same => by
      rw [Operation.effect, same, Registers.set_same _ _ (by decide), apply_lsl_imm]
  obtain ⟨third, run'', compared⟩ := compared.runs_set full code.tail.tail (by omega) 13
    (BitVec.ofNat 32 addr) fun machine same => by
      rw [Operation.effect, same, Registers.set_same _ _ (by decide), ← joined_halves small]
      rfl
  refine ⟨third, (run.trans run').trans run'', ?_⟩
  rwa [Registers.set_set, Registers.set_set] at compared

/-- A comparison and a conditional jump: the target through the gate, or the next operation. -/
theorem leads_branch (regs : Registers) (full : FullAddressing options top) {left : Fin 16} {right : Source}
    {condition : Condition} {addr gate : Nat} (small : addr < 2 ^ 32) (gateBound : gate < 2 ^ 16)
    {rest : List Operation}
    (code : OperationsAt memory pc (.compare left right :: (branchOps condition addr gate ++ rest)))
    (low : pc + 20 ≤ top) (gateCode : OperationsAt memory gate [.jump (.reg 13)])
    (gateLow : gate + 4 ≤ top) (other : gate ≠ pc + 16) (away : addr ≠ gate) :
    Leads options pc regs memory
      (if condition.holds (regs left) (right.read regs) then addr else pc + 20)
      (regs.set 13 (BitVec.ofNat 32 addr)) memory := by
  intro machine here
  obtain ⟨first, run, compared⟩ := runs_compare full code (by omega) here
  obtain ⟨second, run', compared⟩ := compared.runs_target full small code.tail (by omega)
  obtain ⟨there, lastA, lastB⟩ := compared
  have jump : OperationsAt memory (pc + 16) (.jumpIf condition (BitVec.ofNat 16 gate) :: rest) :=
    code.tail.tail.tail.tail
  obtain ⟨result, realised, stepped⟩ := step_of_effect full (by rw [there.pc]; omega)
    (by rw [there.pc, there.memory]; exact jump.head)
  have number : (BitVec.ofNat 16 gate).toNat = gate := by
    rw [BitVec.toNat_ofNat, Nat.mod_eq_of_lt gateBound]
  have bounds := full.small
  simp only [Operation.effect, lastA, lastB] at realised
  by_cases holds : condition.holds (regs left) (right.read regs) = true
  · rw [if_pos holds, number] at realised
    rcases realised with rfl | ⟨self, -⟩
    · have place : ((regs.set 13 (BitVec.ofNat 32 addr)) 13).toNat = addr := by
        rw [Registers.set_same _ _ (by decide), BitVec.toNat_ofNat, Nat.mod_eq_of_lt small]
      obtain ⟨final, last, arrived⟩ := leads_jump (regs.set 13 (BitVec.ofNat 32 addr)) full le_rfl
        gateCode gateLow (fun _ _ => rfl) (by rw [place]; exact away)
        { second with pc := gate, instruction := second.instruction + 1 } ⟨rfl, there.regs, there.memory⟩
      rw [place] at arrived
      rw [if_pos holds]
      exact ⟨final, (run.trans run').trans (.next stepped last), arrived⟩
    · rw [there.pc] at self
      omega
  · rw [if_neg holds] at realised
    obtain rfl : result = .running second.next := realised
    rw [if_neg holds]
    exact ⟨_, (run.trans run').trans (.next stepped (.here _)),
      next_pc full (by omega) there.pc, there.regs, there.memory⟩

end Branches

/-! The two loops. -/

/-- The registers after some bytes of a block, with the rest to go. -/
structure Progress (regs : Registers) (counter : Fin 16) (pointers : List (Fin 16 × Nat))
    (done left : Nat) (now : Registers) : Prop where
  pointers : ∀ pointer ∈ pointers, now pointer.1 = BitVec.ofNat 32 (pointer.2 + done)
  counter : now counter = BitVec.ofNat 32 left
  same : SameBut [1, 2, 3, 4, 9, 13] regs now

structure BlockParts (memory : Memory) (counter : Fin 16) (word : List Operation)
    (loop gate : Nat) : Prop where
  many : OperationsAt memory loop (.compare counter (.imm 32) ::
    (branchOps .jb (loop + 40 + 32 * word.length) gate ++ []))
  words : OperationsAt memory (loop + 20) (List.replicate 8 word).flatten
  eight : OperationsAt memory (loop + 20 + 32 * word.length) [.alu .sub counter counter (.imm 32)]
  again : OperationsAt memory (loop + 24 + 32 * word.length) (jumpOps loop ++ [])
  few : OperationsAt memory (loop + 40 + 32 * word.length) (.compare counter (.imm 0) ::
    (branchOps .je (loop + 80 + 36 * word.length) gate ++ []))
  single : OperationsAt memory (loop + 60 + 32 * word.length) word
  one : OperationsAt memory (loop + 60 + 36 * word.length) [.alu .sub counter counter (.imm 4)]
  last : OperationsAt memory (loop + 64 + 36 * word.length)
    (jumpOps (loop + 40 + 32 * word.length) ++ [])
  ret : OperationsAt memory (loop + 80 + 36 * word.length) retOps

theorem OperationsAt.after {memory : Memory} {address next : Nat} {first second : List Operation}
    (code : OperationsAt memory address (first ++ second))
    (place : address + 4 * first.length = next) : OperationsAt memory next second :=
  place ▸ code.right

theorem OperationsAt.both {memory : Memory} {address : Nat} {first second third : List Operation}
    (code : OperationsAt memory address (first ++ (second ++ third))) :
    OperationsAt memory address (first ++ second) := by
  rw [← List.append_assoc] at code
  exact code.left

theorem blockParts {memory : Memory} {counter : Fin 16} {word : List Operation} {loop gate : Nat}
    (code : OperationsAt memory loop (blockOps counter word loop (loop + 40 + 32 * word.length)
      (loop + 80 + 36 * word.length) gate)) : BlockParts memory counter word loop gate := by
  have words : 4 * (List.replicate 8 word).flatten.length = 32 * word.length := by
    simp only [List.replicate, List.flatten_cons, List.flatten_nil, List.length_append,
      List.length_nil]
    omega
  have four (condition : Condition) (addr : Nat) : (branchOps condition addr gate).length = 4 := rfl
  have jump (addr : Nat) : (jumpOps addr).length = 4 := rfl
  have compared : OperationsAt memory (loop + 4) _ := code.right
  have moving : OperationsAt memory (loop + 20) _ := compared.right
  have counted : OperationsAt memory (loop + 20 + 32 * word.length) _ := moving.after (by omega)
  have jumping : OperationsAt memory (loop + 24 + 32 * word.length) _ :=
    counted.after (by simp only [List.length_singleton]; omega)
  have few : OperationsAt memory (loop + 40 + 32 * word.length) _ :=
    jumping.after (by rw [jump]; omega)
  have branching : OperationsAt memory (loop + 44 + 32 * word.length) _ :=
    few.after (by simp only [List.length_singleton]; omega)
  have single : OperationsAt memory (loop + 60 + 32 * word.length) _ :=
    branching.after (by rw [four]; omega)
  have one : OperationsAt memory (loop + 60 + 36 * word.length) _ := single.after (by omega)
  have last : OperationsAt memory (loop + 64 + 36 * word.length) _ :=
    one.after (by simp only [List.length_singleton]; omega)
  have ret : OperationsAt memory (loop + 80 + 36 * word.length) _ := last.after (by rw [jump]; omega)
  refine ⟨?_, moving.left, counted.left, ?_, ?_, single.left, one.left, ?_, ret⟩
  · rw [List.append_nil]
    exact OperationsAt.both code
  · rw [List.append_nil]
    exact jumping.left
  · rw [List.append_nil]
    exact OperationsAt.both few
  · rw [List.append_nil]
    exact last.left

structure BlockRun (options : EmuOptions) (top : Nat) (memory other : Memory) (start count : Nat)
    (counter : Fin 16) (pointers : List (Fin 16 × Nat)) (word : List Operation) (loop gate : Nat)
    (regs : Registers) : Prop where
  full : FullAddressing options top
  parts : ∀ done ≤ count, BlockParts (filled memory other start done) counter word loop gate
  gateCode : ∀ done ≤ count, OperationsAt (filled memory other start done) gate [.jump (.reg 13)]
  high : loop + 92 + 36 * word.length ≤ top
  gateHigh : gate + 4 ≤ top
  gateBound : gate < 2 ^ 16
  away : gate < loop ∨ loop + 92 + 36 * word.length ≤ gate
  fits : count < 2 ^ 32
  register : counter = 2 ∨ counter = 3
  others : ∀ pointer ∈ pointers, pointer.1 ≠ 13 ∧ pointer.1 ≠ counter
  moves : ∀ {pc done left : Nat} {now : Registers}, done + 4 ≤ count → pc + 4 * word.length ≤ top →
    OperationsAt (filled memory other start done) pc word →
    OperationsAt (filled memory other start (done + 4)) pc word →
    Progress regs counter pointers done left now →
    ∃ after, Leads options pc now (filled memory other start done) (pc + 4 * word.length) after
      (filled memory other start (done + 4)) ∧ Progress regs counter pointers (done + 4) left after

namespace BlockRun

variable {options : EmuOptions} {top start count loop gate : Nat} {memory other : Memory}
  {counter : Fin 16} {pointers : List (Fin 16 × Nat)} {word : List Operation} {regs : Registers}
  (block : BlockRun options top memory other start count counter pointers word loop gate regs)

include block

theorem target {done left : Nat} {now : Registers}
    (progress : Progress regs counter pointers done left now) (value : BitVec 32) :
    Progress regs counter pointers done left (now.set 13 value) := by
  refine ⟨fun pointer member => ?_, ?_, fun index outside => ?_⟩
  · rw [Registers.set_other _ _ (block.others pointer member).1, progress.pointers pointer member]
  · have different : counter ≠ 13 := by
      rcases block.register with rfl | rfl <;> decide
    rw [Registers.set_other _ _ different, progress.counter]
  · have different : index ≠ 13 := fun same => outside (by rw [same]; decide)
    rw [Registers.set_other _ _ different, progress.same index outside]

theorem counted {done left : Nat} {now : Registers}
    (progress : Progress regs counter pointers done left now) (rest : Nat) :
    Progress regs counter pointers done rest (now.set counter (BitVec.ofNat 32 rest)) := by
  have nonzero : counter ≠ 0 := by
    rcases block.register with rfl | rfl <;> decide
  have inside : counter ∈ [1, 2, 3, 4, 9, 13] := by
    rcases block.register with rfl | rfl <;> decide
  refine ⟨fun pointer member => ?_, Registers.set_same _ _ nonzero, fun index outside => ?_⟩
  · rw [Registers.set_other _ _ (block.others pointer member).2, progress.pointers pointer member]
  · have different : index ≠ counter := fun same => outside (same ▸ inside)
    rw [Registers.set_other _ _ different, progress.same index outside]

/-- The counter goes down by the bytes of a turn. -/
theorem leads_sub {done left pc : Nat} {bytes : BitVec 16} {now : Registers} {current : Memory}
    (code : OperationsAt current pc [.alu .sub counter counter (.imm bytes)]) (low : pc + 4 ≤ top)
    (enough : bytes.toNat ≤ left) (small : left < 2 ^ 32)
    (progress : Progress regs counter pointers done left now) :
    ∃ after, Leads options pc now current (pc + 4) after current ∧
      Progress regs counter pointers done (left - bytes.toNat) after := by
  have value : AluOp.sub.apply (now counter) ((Source.imm bytes).read now) =
      BitVec.ofNat 32 (left - bytes.toNat) := by
    have wide : (bytes.zeroExtend 32).toNat = bytes.toNat := by
      have bound := bytes.isLt
      rw [BitVec.toNat_setWidth, Nat.mod_eq_of_lt (by omega)]
    change now counter - bytes.zeroExtend 32 = _
    rw [progress.counter]
    refine BitVec.eq_of_toNat_eq ?_
    rw [BitVec.toNat_sub, wide, BitVec.toNat_ofNat, BitVec.toNat_ofNat]
    omega
  have run := leads_alu now block.full le_rfl code low fun _ _ => rfl
  rw [value] at run
  exact ⟨_, run, block.counted progress _⟩

theorem words_lead (n : Nat) {pc done left : Nat} {now : Registers} (fits : done + 4 * n ≤ count)
    (high : pc + 4 * word.length * n ≤ top)
    (code : ∀ done ≤ count,
      OperationsAt (filled memory other start done) pc (List.replicate n word).flatten)
    (progress : Progress regs counter pointers done left now) :
    ∃ after, Leads options pc now (filled memory other start done) (pc + 4 * word.length * n) after
        (filled memory other start (done + 4 * n)) ∧
      Progress regs counter pointers (done + 4 * n) left after := by
  induction n generalizing pc done now with
  | zero => exact ⟨now, .refl _ _ _ _, progress⟩
  | succ n ih =>
      simp only [Nat.mul_succ] at fits high
      have split : ∀ done ≤ count, OperationsAt (filled memory other start done) pc
          (word ++ (List.replicate n word).flatten) := fun done within => by
        have here := code done within
        rwa [List.replicate_succ, List.flatten_cons] at here
      obtain ⟨middle, first, progress⟩ := block.moves (by omega) (by omega)
        (split done (by omega)).left (split (done + 4) (by omega)).left progress
      obtain ⟨after, later, progress⟩ := ih (by omega) (by omega)
        (fun done within => (split done within).right) progress
      rw [show pc + 4 * word.length + 4 * word.length * n = pc + 4 * word.length * (n + 1) by
        rw [Nat.mul_succ]; omega, show done + 4 + 4 * n = done + 4 * (n + 1) by omega] at later
      rw [show done + 4 + 4 * n = done + 4 * (n + 1) by omega] at progress
      exact ⟨after, first.trans later, progress⟩

theorem jumps_back {pc target done left : Nat} {now : Registers} {current : Memory}
    (code : OperationsAt current pc (jumpOps target ++ [])) (low : pc + 16 ≤ top)
    (earlier : target < pc) (progress : Progress regs counter pointers done left now) :
    ∃ after, Leads options pc now current target after current ∧
      Progress regs counter pointers done left after := by
  have small := block.full.small
  exact ⟨_, leads_jumpTo now block.full le_rfl (by omega) code low (fun _ _ => rfl) (by omega),
    block.target progress _⟩

/-- A comparison of the counter: the branch is taken when its condition holds. -/
theorem branches {condition : Condition} {limit : BitVec 16} {pc addr done left : Nat}
    {now : Registers} (within : done ≤ count)
    (code : OperationsAt (filled memory other start done) pc
      (.compare counter (.imm limit) :: (branchOps condition addr gate ++ [])))
    (inside : loop ≤ pc ∧ pc + 20 ≤ loop + 92 + 36 * word.length)
    (near : loop ≤ addr ∧ addr < loop + 92 + 36 * word.length)
    (progress : Progress regs counter pointers done left now) :
    ∃ after, Leads options pc now (filled memory other start done)
        (if condition.holds (BitVec.ofNat 32 left) (limit.zeroExtend 32) then addr else pc + 20) after
        (filled memory other start done) ∧
      Progress regs counter pointers done left after := by
  have small := block.full.small
  have high := block.high
  have away := block.away
  have run := leads_branch now block.full (by omega) block.gateBound code (by omega)
    (block.gateCode done within) block.gateHigh (by omega) (by omega)
  rw [progress.counter] at run
  exact ⟨_, run, block.target progress _⟩

theorem turn_leads {done left : Nat} {now : Registers} (total : done + left = count)
    (many : 32 ≤ left) (progress : Progress regs counter pointers done left now) :
    ∃ after, Leads options loop now (filled memory other start done) loop after
        (filled memory other start (done + 32)) ∧
      Progress regs counter pointers (done + 32) (left - 32) after := by
  have small := block.fits
  have high := block.high
  have parts := block.parts (done + 32) (by omega)
  obtain ⟨compared, first, progress⟩ := block.branches (by omega) (block.parts done (by omega)).many
    (by omega) (by omega) progress
  have stays : Condition.jb.holds (BitVec.ofNat 32 left) ((32 : BitVec 16).zeroExtend 32) = false := by
    have below : ¬left % 2 ^ 32 < 32 := by omega
    simpa [Condition.holds, BitVec.ult] using below
  rw [stays, if_neg Bool.false_ne_true] at first
  obtain ⟨moved, second, progress⟩ := block.words_lead 8 (by omega) (by omega)
    (fun done within => (block.parts done within).words) progress
  rw [show loop + 20 + 4 * word.length * 8 = loop + 20 + 32 * word.length by omega] at second
  obtain ⟨lowered, third, progress⟩ := block.leads_sub parts.eight (by omega) many (by omega) progress
  rw [show loop + 20 + 32 * word.length + 4 = loop + 24 + 32 * word.length by omega] at third
  obtain ⟨after, last, progress⟩ := block.jumps_back parts.again (by omega) (by omega) progress
  exact ⟨after, ((first.trans second).trans third).trans last, progress⟩

/-- The unrolled loop ends with less than a turn to go. -/
theorem loop_leads {done left : Nat} {now : Registers} (total : done + left = count)
    (progress : Progress regs counter pointers done left now) :
    ∃ done' left' after, done' + left' = count ∧ left' % 4 = left % 4 ∧
      Leads options loop now (filled memory other start done) (loop + 40 + 32 * word.length) after
        (filled memory other start done') ∧
      Progress regs counter pointers done' left' after := by
  induction left using Nat.strongRecOn generalizing done now with
  | ind left ih =>
      by_cases many : 32 ≤ left
      · obtain ⟨middle, first, progress⟩ := block.turn_leads total many progress
        obtain ⟨done', left', after, total, same, later, progress⟩ :=
          ih (left - 32) (by omega) (by omega) progress
        exact ⟨done', left', after, total, by omega, first.trans later, progress⟩
      · obtain ⟨after, run, progress⟩ := block.branches (by omega) (block.parts done (by omega)).many
          (by omega) (by omega) progress
        have leaves : Condition.jb.holds (BitVec.ofNat 32 left) ((32 : BitVec 16).zeroExtend 32) := by
          have below : left % 2 ^ 32 < 32 := by omega
          simpa [Condition.holds, BitVec.ult] using below
        rw [if_pos leaves] at run
        exact ⟨done, left, after, total, rfl, run, progress⟩

theorem word_turn_leads {done left : Nat} {now : Registers} (total : done + left = count)
    (some : 4 ≤ left) (progress : Progress regs counter pointers done left now) :
    ∃ after, Leads options (loop + 40 + 32 * word.length) now (filled memory other start done)
        (loop + 40 + 32 * word.length) after (filled memory other start (done + 4)) ∧
      Progress regs counter pointers (done + 4) (left - 4) after := by
  have small := block.fits
  have high := block.high
  have parts := block.parts done (by omega)
  have parts' := block.parts (done + 4) (by omega)
  obtain ⟨compared, first, progress⟩ := block.branches (by omega) parts.few (by omega) (by omega) progress
  have stays : Condition.je.holds (BitVec.ofNat 32 left) ((0 : BitVec 16).zeroExtend 32) = false := by
    refine beq_false_of_ne fun same => ?_
    have zero := congrArg BitVec.toNat same
    rw [BitVec.toNat_ofNat, Nat.mod_eq_of_lt (by omega)] at zero
    change left = 0 at zero
    omega
  rw [stays, if_neg Bool.false_ne_true,
    show loop + 40 + 32 * word.length + 20 = loop + 60 + 32 * word.length by omega] at first
  obtain ⟨moved, second, progress⟩ := block.moves (by omega) (by omega) parts.single parts'.single progress
  rw [show loop + 60 + 32 * word.length + 4 * word.length = loop + 60 + 36 * word.length by omega]
    at second
  obtain ⟨lowered, third, progress⟩ := block.leads_sub parts'.one (by omega) some (by omega) progress
  rw [show loop + 60 + 36 * word.length + 4 = loop + 64 + 36 * word.length by omega] at third
  obtain ⟨after, last, progress⟩ := block.jumps_back parts'.last (by omega) (by omega) progress
  exact ⟨after, ((first.trans second).trans third).trans last, progress⟩

theorem tail_leads {done left : Nat} {now : Registers} (total : done + left = count)
    (words : left % 4 = 0) (progress : Progress regs counter pointers done left now) :
    ∃ after, Leads options (loop + 40 + 32 * word.length) now (filled memory other start done)
        (loop + 80 + 36 * word.length) after (filled memory other start count) ∧
      Progress regs counter pointers count 0 after := by
  induction left using Nat.strongRecOn generalizing done now with
  | ind left ih =>
      by_cases ended : left = 0
      · subst ended
        obtain rfl : done = count := total
        obtain ⟨after, run, progress⟩ := block.branches le_rfl (block.parts done le_rfl).few
          (by omega) (by omega) progress
        exact ⟨after, run, progress⟩
      · obtain ⟨middle, first, progress⟩ := block.word_turn_leads total (by omega) progress
        obtain ⟨after, later, progress⟩ := ih (left - 4) (by omega) (by omega) (by omega) progress
        exact ⟨after, first.trans later, progress⟩

/-- The whole block: all its bytes are set before the return. -/
theorem leads {now : Registers} (words : count % 4 = 0)
    (progress : Progress regs counter pointers 0 count now) :
    ∃ after, Leads options loop now memory (loop + 80 + 36 * word.length) after
        (filled memory other start count) ∧
      Progress regs counter pointers count 0 after := by
  obtain ⟨done, left, middle, total, same, first, progress⟩ :=
    block.loop_leads (Nat.zero_add count) progress
  obtain ⟨after, later, progress⟩ := block.tail_leads total (by omega) progress
  rw [filled_none] at first
  exact ⟨after, first.trans later, progress⟩

end BlockRun

/-! The words that are moved. -/

theorem ofNat_toNat_small {n : Nat} (small : n < 2 ^ 32) : (BitVec.ofNat 32 n).toNat = n := by
  rw [BitVec.toNat_ofNat, Nat.mod_eq_of_lt small]

theorem apply_add_four (regs : Registers) (place : Nat) :
    AluOp.add.apply (BitVec.ofNat 32 place) ((Source.imm 4).read regs) =
      BitVec.ofNat 32 (place + 4) := by
  rw [BitVec.ofNat_add]
  rfl

def shifted (memory : Memory) (start source : Nat) : Memory := fun query =>
  memory (query - start + source)

theorem read32_shifted (memory : Memory) (start source address : Nat) :
    read32 (shifted memory start source) (start + address) = read32 memory (source + address) := by
  simp only [read32, shifted, Nat.add_assoc, Nat.add_sub_cancel_left]
  simp only [Nat.add_comm, Nat.add_left_comm]

section Moves

variable {options : EmuOptions} {top start source count : Nat} {memory : Memory} {regs : Registers}

theorem zero_moves (full : FullAddressing options top) (inside : 0 < count → start + count ≤ top)
    {pc done left : Nat} {now : Registers} (fits : done + 4 ≤ count)
    (low : pc + 4 * zeroWordOps.length ≤ top)
    (before : OperationsAt (filled memory (fun _ => 0) start done) pc zeroWordOps)
    (after : OperationsAt (filled memory (fun _ => 0) start (done + 4)) pc zeroWordOps)
    (progress : Progress regs 2 [(1, start)] done left now) :
    ∃ next, Leads options pc now (filled memory (fun _ => 0) start done)
        (pc + 4 * zeroWordOps.length) next (filled memory (fun _ => 0) start (done + 4)) ∧
      Progress regs 2 [(1, start)] (done + 4) left next := by
  have small := full.small
  have within := inside (by omega)
  change pc + 8 ≤ top at low
  have pointer : now 1 = BitVec.ofNat 32 (start + done) :=
    progress.pointers (1, start) List.mem_cons_self
  have place : (now 1).toNat = start + done := by rw [pointer, ofNat_toNat_small (by omega)]
  have stored := leads_store now full le_rfl before (by omega) (fun _ _ => rfl) (by omega)
  have zero : now 0 = read32 (fun _ => 0) (start + done) := by
    rw [Registers.value_zero, read32]
    decide
  rw [place, zero, write32_filled] at stored
  have raised := leads_alu now full le_rfl after.tail (by omega) fun _ _ => rfl
  rw [pointer, apply_add_four] at raised
  refine ⟨_, stored.trans raised, fun other member => ?_, ?_, fun index outside => ?_⟩
  · obtain rfl := List.mem_singleton.mp member
    exact Registers.set_same _ _ (by decide)
  · rw [Registers.set_other _ _ (by decide), progress.counter]
  · have different : index ≠ 1 := fun same => outside (by rw [same]; decide)
    rw [Registers.set_other _ _ different, progress.same index outside]

theorem copy_moves (full : FullAddressing options top) (inside : 0 < count → start + count ≤ top)
    (readable : 0 < count → source + count ≤ top) (apart : RangesApart source count start count)
    {pc done left : Nat} {now : Registers} (fits : done + 4 ≤ count)
    (low : pc + 4 * copyWordOps.length ≤ top)
    (before : OperationsAt (filled memory (shifted memory start source) start done) pc
      copyWordOps)
    (after : OperationsAt (filled memory (shifted memory start source) start
      (done + 4)) pc copyWordOps)
    (progress : Progress regs 3 [(1, start), (2, source)] done left now) :
    ∃ next, Leads options pc now
        (filled memory (shifted memory start source) start done)
        (pc + 4 * copyWordOps.length) next
        (filled memory (shifted memory start source) start (done + 4)) ∧
      Progress regs 3 [(1, start), (2, source)] (done + 4) left next := by
  have small := full.small
  have within := inside (by omega)
  have within' := readable (by omega)
  change pc + 16 ≤ top at low
  have target : now 1 = BitVec.ofNat 32 (start + done) :=
    progress.pointers (1, start) List.mem_cons_self
  have origin : now 2 = BitVec.ofNat 32 (source + done) :=
    progress.pointers (2, source) (List.mem_cons_of_mem _ List.mem_cons_self)
  have place : (now 2).toNat = source + done := by rw [origin, ofNat_toNat_small (by omega)]
  have loaded := leads_load now full le_rfl before (by omega) (fun _ _ => rfl) (by omega)
  have word : read32 (filled memory (shifted memory start source) start done) (now 2).toNat =
      read32 (shifted memory start source) (start + done) := by
    rw [read32_shifted, place]
    refine read32_congr fun query bounds => filled_outside fun wrong => ?_
    exact apart query (by omega) (by omega) (by omega)
  rw [word] at loaded
  generalize reached : now.set 4 (read32 (shifted memory start source)
    (start + done)) = holding at loaded
  have target' : holding 1 = BitVec.ofNat 32 (start + done) := by
    rw [← reached, Registers.set_other _ _ (by decide), target]
  have place' : (holding 1).toNat = start + done := by rw [target', ofNat_toNat_small (by omega)]
  have stored := leads_store holding full le_rfl before.tail (by omega) (fun _ _ => rfl) (by omega)
  have value : holding 4 = read32 (shifted memory start source) (start + done) := by
    rw [← reached, Registers.set_same _ _ (by decide)]
  rw [place', value, write32_filled] at stored
  have first := leads_alu holding full le_rfl after.tail.tail (by omega) fun _ _ => rfl
  rw [target', apply_add_four] at first
  have second := leads_alu (holding.set 1 (BitVec.ofNat 32 (start + done + 4))) full le_rfl
    after.tail.tail.tail (by omega) fun _ _ => rfl
  have origin' : (holding.set 1 (BitVec.ofNat 32 (start + done + 4))) 2 =
      BitVec.ofNat 32 (source + done) := by
    rw [Registers.set_other _ _ (by decide), ← reached, Registers.set_other _ _ (by decide), origin]
  rw [origin', apply_add_four] at second
  refine ⟨_, ((loaded.trans stored).trans first).trans second, fun other member => ?_, ?_,
    fun index outside => ?_⟩
  · rcases List.mem_cons.mp member with rfl | member
    · change (Registers.set _ 2 _) 1 = _
      rw [Registers.set_other _ _ (by decide), Registers.set_same _ _ (by decide), Nat.add_assoc]
    · obtain rfl := List.mem_singleton.mp member
      exact Registers.set_same _ _ (by decide)
  · rw [Registers.set_other _ _ (by decide), Registers.set_other _ _ (by decide), ← reached,
      Registers.set_other _ _ (by decide), progress.counter]
  · simp only [List.mem_cons, List.not_mem_nil, or_false, not_or] at outside
    rw [Registers.set_other _ _ outside.2.1, Registers.set_other _ _ outside.1, ← reached,
      Registers.set_other _ _ outside.2.2.2.1, progress.same index (by simpa using outside)]

end Moves

/-! The return, and the routines as a whole. -/

section Routines

variable {options : EmuOptions} {top entry gate : Nat}

theorem ret_arrives (regs : Registers) (full : FullAddressing options top) {memory : Memory} {pc : Nat}
    (code : OperationsAt memory pc retOps) (low : pc + 12 ≤ top) (high : (regs 14).toNat + 4 ≤ top) :
    Arrives options pc regs memory (read32 memory (regs 14).toNat).toNat
      ((regs.set 15 (read32 memory (regs 14).toNat)).set 14 (regs 14 + 4)) memory := by
  have loaded := leads_load regs full le_rfl code (by omega) (fun _ _ => rfl) high
  have raised := leads_alu (regs.set 15 (read32 memory (regs 14).toNat)) full le_rfl code.tail
    (by omega) fun _ _ => rfl
  have stack : (regs.set 15 (read32 memory (regs 14).toNat)) 14 = regs 14 :=
    Registers.set_other _ _ (by decide)
  have four : AluOp.add.apply (regs 14)
      ((Source.imm 4).read (regs.set 15 (read32 memory (regs 14).toNat))) = regs 14 + 4 := rfl
  rw [stack, four] at raised
  have jumped := arrives_jump ((regs.set 15 (read32 memory (regs 14).toNat)).set 14 (regs 14 + 4)) full
    le_rfl code.tail.tail (by omega) fun _ _ => rfl
  have target : ((regs.set 15 (read32 memory (regs 14).toNat)).set 14 (regs 14 + 4)) 15 =
      read32 memory (regs 14).toNat := by
    rw [Registers.set_other _ _ (by decide), Registers.set_same _ _ (by decide)]
  rw [target] at jumped
  exact (loaded.trans raised).arrives jumped

/-- What a caller of either routine provides: the printed code at the entry, the jump of the gate, and a
destination apart from both and from the return address. -/
structure BlockCalled (top entry gate size : Nat) (printed : List (List Char)) (arguments : Nat)
    (start count : Nat) (before : Machine) : Prop where
  pc : before.pc = entry
  code : AssembledAt before.memory entry printed
  gateCode : AssembledAt before.memory gate ["    jmp r13".toList]
  codeHigh : entry + size ≤ top
  gateHigh : gate + 4 ≤ top
  gateApart : gate + 4 ≤ entry ∨ entry + size ≤ gate
  stack : (before.regs 14).toNat + 4 * arguments + 4 ≤ top
  words : count % 4 = 0
  inside : 0 < count → start + count ≤ top
  codeKept : RangesApart entry size start count
  gateKept : RangesApart gate 4 start count
  returnKept : RangesApart (before.regs 14).toNat 4 start count

def argument (machine : Machine) (index : Nat) : Nat :=
  (read32 machine.memory ((machine.regs 14).toNat + 4 * index)).toNat

structure CopyCalled (top entry gate : Nat) (before : Machine) : Prop where
  called : BlockCalled top entry gate 260 (printedCopy entry gate) 3 (argument before 1)
    (argument before 3) before
  readable : 0 < argument before 3 → argument before 2 + argument before 3 ≤ top
  apart : RangesApart (argument before 2) (argument before 3) (argument before 1) (argument before 3)

def ZeroCalled (top entry gate : Nat) (before : Machine) : Prop :=
  BlockCalled top entry gate 180 (printedZero entry gate) 2 (argument before 1) (argument before 2)
    before

structure BlockDone (before final : Machine) (start count : Nat) (value : Nat → BitVec 8) : Prop where
  set : ∀ i < count, final.memory (start + i) = value i
  kept : ∀ query, query < start ∨ start + count ≤ query → final.memory query = before.memory query
  pc : final.pc = (read32 before.memory (before.regs 14).toNat).toNat
  sp : final.regs 14 = before.regs 14 + 4
  general : ∀ index : Fin 16, index ∉ [1, 2, 3, 4, 9, 13, 14, 15] →
    final.regs index = before.regs index

theorem BlockRun.finishes {other : Memory} {start count loop : Nat} {counter : Fin 16}
    {pointers : List (Fin 16 × Nat)} {word : List Operation} {before : Machine} {now : Registers}
    (block : BlockRun options top before.memory other start count counter pointers word loop gate
      before.regs) (words : count % 4 = 0)
    (progress : Progress before.regs counter pointers 0 count now)
    (entered : Leads options entry before.regs before.memory loop now before.memory)
    (here : before.pc = entry) (stack : (before.regs 14).toNat + 4 ≤ top)
    (returnKept : RangesApart (before.regs 14).toNat 4 start count) :
    ∃ final, Reaches options before final ∧
      BlockDone before final start count fun i => other (start + i) := by
  obtain ⟨after, run, progress⟩ := block.leads words progress
  have sp : after 14 = before.regs 14 := progress.same 14 (by decide)
  have arrives := ret_arrives after block.full (block.parts count le_rfl).ret
    (by have := block.high; omega) (by rw [sp]; exact stack)
  have word : read32 (filled before.memory other start count) (before.regs 14).toNat =
      read32 before.memory (before.regs 14).toNat :=
    read32_congr fun query inside => filled_outside (returnKept query inside.1 inside.2)
  rw [sp, word] at arrives
  obtain ⟨last, final, runs, ended, there⟩ := (entered.trans run).arrives arrives before
    ⟨here, rfl, rfl⟩
  refine ⟨final, ⟨last, runs, ended⟩, fun i bound => ?_, fun query outside => ?_, there.pc, ?_,
    fun index others => ?_⟩
  · rw [there.memory, filled_inside (by omega)]
  · rw [there.memory, filled_outside (by omega)]
  · rw [there.regs, Registers.set_same _ _ (by decide)]
  · simp only [List.mem_cons, List.not_mem_nil, or_false, not_or] at others
    obtain ⟨one, two, three, four, nine, thirteen, stackReg, flags⟩ := others
    rw [there.regs, Registers.set_other _ _ stackReg, Registers.set_other _ _ flags]
    exact progress.same index (by simp [one, two, three, four, nine, thirteen])

theorem argument_leads (regs : Registers) (full : FullAddressing options top) {memory : Memory}
    {pc : Nat} {target : Fin 16} {offset : BitVec 16} {now : Registers} {rest : List Operation}
    (code : OperationsAt memory pc (argumentOps target offset ++ rest)) (low : pc + 8 ≤ top)
    (argument : target ∈ [1, 2, 3]) (high : (regs 14).toNat + offset.toNat + 4 ≤ top)
    (same : SameBut [1, 2, 3, 4, 9, 13] regs now) :
    ∃ after, Leads options pc now memory (pc + 8) after memory ∧
      after target = read32 memory ((regs 14).toNat + offset.toNat) ∧
      SameBut [9, target] now after ∧ SameBut [1, 2, 3, 4, 9, 13] regs after := by
  have listed : ∀ target : Fin 16, target ∈ [1, 2, 3] →
      target ≠ 0 ∧ target ∈ [1, 2, 3, 4, 9, 13] := by decide
  obtain ⟨nonzero, listed⟩ := listed target argument
  have sp : now 14 = regs 14 := same 14 (by decide)
  have run := leads_loadAt now full le_rfl (by decide) code low (fun _ _ => rfl) (by rw [sp]; exact high)
  rw [sp] at run
  refine ⟨_, run, Registers.set_same _ _ nonzero, fun index others => ?_, fun index others => ?_⟩
  · simp only [List.mem_cons, List.not_mem_nil, or_false, not_or] at others
    rw [Registers.set_other _ _ others.2, Registers.set_other _ _ others.1]
  · have first : index ≠ target := fun same => others (same ▸ listed)
    have second : index ≠ 9 := fun same => others (by rw [same]; decide)
    rw [Registers.set_other _ _ first, Registers.set_other _ _ second, same index others]

theorem gate_operations {memory : Memory}
    (assembled : AssembledAt memory gate ["    jmp r13".toList]) :
    OperationsAt memory gate [.jump (.reg 13)] := by
  obtain ⟨each, does, joined⟩ : linesDo ["    jmp r13".toList] [.jump (.reg 13)] :=
    linesDo_of_read (by decide +kernel)
  rw [← joined]
  exact assembled_operations does assembled

theorem blockOps_length (counter : Fin 16) (word : List Operation) (loop tail done gate : Nat) :
    4 * (blockOps counter word loop tail done gate).length = 92 + 36 * word.length := by
  simp only [blockOps, branchOps, jumpOps, retOps, List.replicate, List.flatten_cons, List.flatten_nil,
    List.length_append, List.length_cons, List.length_nil]
  omega

/-- Nothing that is set lies in the code. -/
theorem BlockCalled.block {size arguments start count loop : Nat} {printed : List (List Char)}
    {before : Machine} {other : Memory} {counter : Fin 16} {pointers : List (Fin 16 × Nat)}
    {word : List Operation}
    (called : BlockCalled top entry gate size printed arguments start count before)
    (full : FullAddressing options top) (gateBound : gate < 2 ^ 16)
    (code : OperationsAt before.memory loop (blockOps counter word loop
      (loop + 40 + 32 * word.length) (loop + 80 + 36 * word.length) gate))
    (inside : entry ≤ loop ∧ loop + 92 + 36 * word.length = entry + size) (fits : count < 2 ^ 32)
    (register : counter = 2 ∨ counter = 3)
    (others : ∀ pointer ∈ pointers, pointer.1 ≠ 13 ∧ pointer.1 ≠ counter)
    (moves : ∀ {pc done left : Nat} {now : Registers}, done + 4 ≤ count →
      pc + 4 * word.length ≤ top → OperationsAt (filled before.memory other start done) pc word →
      OperationsAt (filled before.memory other start (done + 4)) pc word →
      Progress before.regs counter pointers done left now →
      ∃ after, Leads options pc now (filled before.memory other start done) (pc + 4 * word.length) after
        (filled before.memory other start (done + 4)) ∧
        Progress before.regs counter pointers (done + 4) left after) :
    BlockRun options top before.memory other start count counter pointers word loop gate
      before.regs := by
  have codeHigh := called.codeHigh
  have gateApart := called.gateApart
  refine ⟨full, fun done within => blockParts (code.filled fun query low high => ?_),
    fun done within => (gate_operations called.gateCode).filled (called.gateKept.shorter within),
    by omega, called.gateHigh, gateBound, by omega, fits, register, others, moves⟩
  rw [blockOps_length] at high
  exact called.codeKept.shorter within query (by omega) (by omega)

theorem loaded_argument (before : Machine) (index : Nat) :
    read32 before.memory ((before.regs 14).toNat + 4 * index) =
      BitVec.ofNat 32 (argument before index) := by
  rw [argument, BitVec.ofNat_toNat, BitVec.setWidth_eq]

theorem copy_done (full : FullAddressing options top) (gateBound : gate < 2 ^ 16) {before : Machine}
    (call : CopyCalled top entry gate before) :
    ∃ final, Reaches options before final ∧
      BlockDone before final (argument before 1) (argument before 3)
        fun i => before.memory (argument before 2 + i) := by
  obtain ⟨called, readable, apart⟩ := call
  have small := full.small
  have codeHigh := called.codeHigh
  have stack := called.stack
  obtain ⟨each, does, joined⟩ := copy_does (show entry + 260 ≤ 2 ^ 32 by omega) gateBound
  have code : OperationsAt before.memory entry (copyOperations entry gate) := by
    rw [← joined]
    exact assembled_operations does called.code
  have second : OperationsAt before.memory (entry + 8) _ := code.right
  have third : OperationsAt before.memory (entry + 16) _ := second.right
  have loop : OperationsAt before.memory (entry + 24) _ := third.right
  obtain ⟨first, run, one, -, all⟩ := argument_leads before.regs full code (by omega) (by decide)
    (show _ + 4 + 4 ≤ top by omega) fun _ _ => rfl
  obtain ⟨next, run', two, same, all⟩ := argument_leads before.regs full second (by omega) (by decide)
    (show _ + 8 + 4 ≤ top by omega) all
  obtain ⟨now, run'', three, same', all⟩ := argument_leads before.regs full third (by omega)
    (by decide) (show _ + 12 + 4 ≤ top by omega) all
  have progress : Progress before.regs 3 [(1, argument before 1), (2, argument before 2)] 0
      (argument before 3) now := by
    refine ⟨fun pointer member => ?_, three.trans (loaded_argument before 3), all⟩
    rcases List.mem_cons.mp member with rfl | member
    · change now 1 = BitVec.ofNat 32 (argument before 1)
      rw [same' 1 (by decide), same 1 (by decide), one]
      exact loaded_argument before 1
    · obtain rfl := List.mem_singleton.mp member
      change now 2 = BitVec.ofNat 32 (argument before 2)
      rw [same' 2 (by decide), two]
      exact loaded_argument before 2
  have block : BlockRun options top before.memory
      (shifted before.memory (argument before 1) (argument before 2)) (argument before 1)
      (argument before 3) 3 [(1, argument before 1), (2, argument before 2)] copyWordOps (entry + 24)
      gate before.regs :=
    called.block full gateBound loop ⟨by omega, rfl⟩ (BitVec.isLt _) (.inr rfl) (by simp)
      fun fits low before after progress =>
        copy_moves full called.inside readable apart fits low before after progress
  obtain ⟨final, reaches, done⟩ := block.finishes called.words progress
    ((run.trans run').trans run'') called.pc (by omega) called.returnKept
  refine ⟨final, reaches, { done with set := fun i bound => ?_ }⟩
  rw [done.set i bound, shifted, Nat.add_sub_cancel_left, Nat.add_comm]

theorem zero_done (full : FullAddressing options top) (gateBound : gate < 2 ^ 16) {before : Machine}
    (called : ZeroCalled top entry gate before) :
    ∃ final, Reaches options before final ∧
      BlockDone before final (argument before 1) (argument before 2) fun _ => 0 := by
  have small := full.small
  have codeHigh := called.codeHigh
  have stack := called.stack
  obtain ⟨each, does, joined⟩ := zero_does (show entry + 180 ≤ 2 ^ 32 by omega) gateBound
  have code : OperationsAt before.memory entry (zeroOperations entry gate) := by
    rw [← joined]
    exact assembled_operations does called.code
  have second : OperationsAt before.memory (entry + 8) _ := code.right
  have loop : OperationsAt before.memory (entry + 16) _ := second.right
  obtain ⟨first, run, one, -, all⟩ := argument_leads before.regs full code (by omega) (by decide)
    (show _ + 4 + 4 ≤ top by omega) fun _ _ => rfl
  obtain ⟨now, run', two, same, all⟩ := argument_leads before.regs full second (by omega) (by decide)
    (show _ + 8 + 4 ≤ top by omega) all
  have progress : Progress before.regs 2 [(1, argument before 1)] 0 (argument before 2) now := by
    refine ⟨fun pointer member => ?_, two.trans (loaded_argument before 2), all⟩
    obtain rfl := List.mem_singleton.mp member
    change now 1 = BitVec.ofNat 32 (argument before 1)
    rw [same 1 (by decide), one]
    exact loaded_argument before 1
  have block : BlockRun options top before.memory (fun _ => 0) (argument before 1)
      (argument before 2) 2 [(1, argument before 1)] zeroWordOps (entry + 16) gate before.regs :=
    called.block full gateBound loop ⟨by omega, rfl⟩ (BitVec.isLt _) (.inl rfl) (by simp)
      fun fits low before after progress =>
        zero_moves full called.inside fits low before after progress
  exact block.finishes called.words progress (run.trans run') called.pc (by omega) called.returnKept

end Routines

/-- Block copy and zero are exact. -/
theorem blocks_exact {options : EmuOptions} {top : Nat} (full : FullAddressing options top)
    {entry gate : Nat} (gateBound : gate < 2 ^ 16) :
    (∀ before, CopyCalled top entry gate before → ∃ final, Reaches options before final ∧
      BlockDone before final (argument before 1) (argument before 3)
        fun i => before.memory (argument before 2 + i)) ∧
    (∀ before, ZeroCalled top entry gate before → ∃ final, Reaches options before final ∧
      BlockDone before final (argument before 1) (argument before 2) fun _ => 0) := by
  constructor
  · intro before call
    exact copy_done full gateBound call
  · intro before call
    exact zero_done full gateBound call

/-! An instance: ten words from 0x800 to 0x400. -/

theorem copyCalled_exists : ∃ before, CopyCalled 0x10000 0x1000 0x100 before ∧
    argument before 1 = 0x400 ∧ argument before 2 = 0x800 ∧ argument before 3 = 40 ∧
    read32 before.memory (before.regs 14).toNat = 0x3000 := by
  obtain ⟨code, codeAt⟩ := assembledAt_exists copy_accepted 0x1000
  obtain ⟨jump, jumpAt⟩ := assembledAt_exists gate_accepted 0x100
  obtain ⟨each, does, joined⟩ : linesDo ["    jmp r13".toList] [.jump (.reg 13)] :=
    linesDo_of_read (by decide +kernel)
  let memory := write32 (write32 (write32 (write32 (fun query =>
    if query < 0x200 then jump query else code query) 0x200 0x3000) 0x204 0x400) 0x208 0x800) 0x20c 40
  have outside (query : Nat) (apart : query < 0x200 ∨ 0x210 ≤ query) :
      memory query = if query < 0x200 then jump query else code query := by
    simp only [memory]
    rw [write32_outside _ _ _ _ (by omega), write32_outside _ _ _ _ (by omega),
      write32_outside _ _ _ _ (by omega), write32_outside _ _ _ _ (by omega)]
  let before : Machine :=
    { regs := Registers.clear.set 14 0x200, lastA := 0, lastB := 0, pc := 0x1000, memory := memory
      disk := fun _ => 0, settings := fun _ => 0, timeHigh := 0, keyIndex := 0, keyCalls := 0
      printed := [], instruction := 0 }
  have sp : (before.regs 14).toNat = 0x200 := by
    change ((Registers.clear.set 14 0x200) 14).toNat = 0x200
    rw [Registers.set_same _ _ (by decide)]
    rfl
  have returns : read32 memory 0x200 = 0x3000 := by
    simp only [memory]
    rw [read32_write32_disjoint _ _ _ _ (by omega), read32_write32_disjoint _ _ _ _ (by omega),
      read32_write32_disjoint _ _ _ _ (by omega), read32_write32_same]
  have one : argument before 1 = 0x400 := by
    rw [argument, sp]
    change (read32 memory 0x204).toNat = 0x400
    simp only [memory]
    rw [read32_write32_disjoint _ _ _ _ (by omega), read32_write32_disjoint _ _ _ _ (by omega),
      read32_write32_same]
    rfl
  have two : argument before 2 = 0x800 := by
    rw [argument, sp]
    change (read32 memory 0x208).toNat = 0x800
    simp only [memory]
    rw [read32_write32_disjoint _ _ _ _ (by omega), read32_write32_same]
    rfl
  have three : argument before 3 = 40 := by
    rw [argument, sp]
    change (read32 memory 0x20c).toNat = 40
    simp only [memory]
    rw [read32_write32_same]
    rfl
  have placed : AssembledAt memory 0x1000 (printedCopy 0x1000 0x100) :=
    codeAt.above fun query high => by rw [outside query (by omega), if_neg (by omega)]
  have gated : AssembledAt memory 0x100 ["    jmp r13".toList] :=
    AssembledAt.congr does jumpAt fun query _ high => by
      rw [joined] at high
      change query < 0x104 at high
      rw [outside query (by omega), if_pos (by omega)]
  refine ⟨before, ⟨⟨rfl, placed, gated, by decide, by decide, by decide, ?_, ?_, ?_, ?_, ?_, ?_⟩, ?_, ?_⟩,
    one, two, three, by rw [sp]; exact returns⟩
  · rw [sp]
    decide
  all_goals simp only [one, two, three, sp, RangesApart]
  all_goals omega

theorem blocks_exact_ten_words : ∃ (options : EmuOptions) (before final : Machine),
    Reaches options before final ∧ final.pc = 0x3000 ∧
      ∀ i < 40, final.memory (0x400 + i) = before.memory (0x800 + i) := by
  have full : FullAddressing { ramSize := 0x10000, diskSize := 0 } 0x10000 := ⟨rfl, le_rfl, by decide⟩
  obtain ⟨before, called, one, two, three, returns⟩ := copyCalled_exists
  obtain ⟨final, reaches, done⟩ := (blocks_exact full (show 0x100 < 2 ^ 16 by decide)).1 before called
  refine ⟨_, before, final, reaches, ?_, fun i bound => ?_⟩
  · rw [done.pc, returns]
    rfl
  · have set := done.set i (by rw [three]; exact bound)
    rwa [one, two] at set

end SymphonyPlus
