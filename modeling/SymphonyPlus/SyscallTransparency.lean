import SymphonyPlus.SyscallRuns

/-!
A system call hands the caller's registers to `sp_dispatch` in a context record, and a resume takes
them from one.
-/

namespace SymphonyPlus

open ByteMemory

/-! `SpContext`: sixteen register words and the program counter. -/

def contextReg (memory : Memory) (record : Nat) (index : Fin 16) : BitVec 32 :=
  read32 memory (record + 4 * index.val)

def contextPc (memory : Memory) (record : Nat) : BitVec 32 := read32 memory (record + 64)

/-- The memory at `entry` is what the linker makes of `platform.sym` there. -/
def PlatformAt (memory : Memory) (entry dispatch : Nat) : Prop :=
  AssembledAt memory entry (platformLines.flatMap (printedLine fun name =>
    if name = "sp_dispatch".toList then dispatch else entry + 460))

theorem restore_offset : ((platformLines.takeWhile (· ≠ "sp_restore:".toList)).filterMap
    (lineSize false)).sum = 460 := by
  have spelled : platformLines = _ := Spelled.map_eq (by
    repeat' apply Spelled.cons
    apply Spelled.nil)
  rw [spelled]
  decide +kernel

/-- The words of code are kept with the memory they lie in. -/
theorem AssembledAt.congr {lines : List (List Char)} {operations : List (List Operation)}
    (does : List.Forall₂ (fun line does => ∀ labels, LineDoes labels line does) lines operations)
    {first second : Memory} {address : Nat} (assembled : AssembledAt first address lines)
    (agree : ∀ query, address ≤ query → query < address + 4 * operations.flatten.length →
      second query = first query) : AssembledAt second address lines := by
  induction does generalizing address with
  | nil => exact .done address
  | cons lineDoes _ ih =>
      cases assembled with
      | line accepted bytes rest =>
          obtain ⟨words, written, implemented⟩ := line_words accepted (lineDoes _)
          have size := flatMap_wordBytes_length words
          rw [← written, implemented.length_eq] at size
          simp only [List.flatten_cons, List.length_append] at agree
          refine .line accepted (fun i bound => ?_) (ih rest fun query low high => ?_)
          · rw [agree _ (Nat.le_add_right _ _) (by omega), bytes i bound]
          · exact agree query (by omega) (by omega)

theorem PlatformAt.congr {first second : Memory} {entry dispatch : Nat}
    (assembled : PlatformAt first entry dispatch) (dispatchBound : dispatch < 2 ^ 32)
    (entryBound : entry + 460 < 2 ^ 32)
    (agree : ∀ query, entry ≤ query → query < entry + 604 → second query = first query) :
    PlatformAt second entry dispatch := by
  obtain ⟨each, does, joined⟩ := platform_does dispatchBound entryBound
  refine AssembledAt.congr does assembled fun query low high => agree query low ?_
  rw [joined] at high
  exact high

theorem PlatformAt.operations {memory : Memory} {entry dispatch : Nat}
    (assembled : PlatformAt memory entry dispatch) (dispatchBound : dispatch < 2 ^ 32)
    (entryBound : entry + 460 < 2 ^ 32) :
    OperationsAt memory entry (platformOps dispatch (entry + 460)) := by
  obtain ⟨each, does, joined⟩ := platform_does dispatchBound entryBound
  rw [← joined]
  exact assembled_operations does assembled

section Save

variable {options : EmuOptions} {memory : Memory} {pc : Nat} {rest : List Operation}

theorem savedWord (memory : Memory) {sp : Nat} {regs : Registers} (room : 56 ≤ sp) (index : Fin 16)
    (nonzero : index ≠ 0) (other : index ≠ 14) :
    ∃ place ∈ copiedPlaces, place.2.toNat = 4 * index.val ∧
      read32 (pushWords memory sp (savedRegisters.map regs)) (sp - 56 + place.1.toNat) =
        regs index := by
  have listed : ∀ index : Fin 16, index ≠ 0 → index ≠ 14 → ∃ k, ∃ bound : k < savedRegisters.length,
      savedRegisters[k] = index ∧ ∃ place ∈ copiedPlaces, place.2.toNat = 4 * index.val ∧
        place.1.toNat = 52 - 4 * k := by
    decide
  obtain ⟨k, bound, saved, place, member, target, source⟩ := listed index nonzero other
  refine ⟨place, member, target, ?_⟩
  have count : savedRegisters.length = 14 := rfl
  have word := read32_pushWords memory sp (savedRegisters.map regs)
    (by rw [List.length_map]; omega) (show k < _ by rw [List.length_map]; exact bound)
  rw [show sp - 56 + place.1.toNat = sp - 4 * (k + 1) by omega, word, List.getElem_map, saved]

theorem copiedPlaces_bounds : ∀ place ∈ copiedPlaces, place.1.toNat ≤ 52 ∧ place.2.toNat ≤ 60 ∧
    place.2.toNat ≠ 56 ∧ place.2.toNat % 4 = 0 := by
  simp [copiedPlaces]

theorem copiedPlaces_apart : copiedPlaces.Pairwise fun first second =>
    first.2.toNat + 4 ≤ second.2.toNat ∨ second.2.toNat + 4 ≤ first.2.toNat := by
  decide

/-- The memory after a caller is saved: its registers on its stack, then the context record and its
address on the kernel stack. -/
def savedMemory (memory : Memory) (regs : Registers) : Memory :=
  let sp := (regs 14).toNat
  let copied := copyWords (pushWords memory sp (savedRegisters.map regs)) (sp - 56) SP_CONTEXT_ADDR
    copiedPlaces
  let placed := write32 copied (SP_CONTEXT_ADDR + 56) (regs 14 + 4)
  let returned := write32 placed (SP_CONTEXT_ADDR + 64) (read32 placed sp)
  write32 returned (SP_KERNEL_STACK - 4) (BitVec.ofNat 32 SP_CONTEXT_ADDR)

theorem savedMemory_outside {regs : Registers} {query : Nat} (room : 56 ≤ (regs 14).toNat)
    (stack : query < (regs 14).toNat - 56 ∨ (regs 14).toNat ≤ query)
    (context : query < SP_CONTEXT_ADDR ∨ SP_CONTEXT_ADDR + 68 ≤ query)
    (kernel : query < SP_KERNEL_STACK - 4 ∨ SP_KERNEL_STACK ≤ query) :
    savedMemory memory regs query = memory query := by
  have record : SP_CONTEXT_ADDR = 0x180000 := rfl
  have top : SP_KERNEL_STACK = 0x200000 := rfl
  rw [savedMemory, write32_outside _ _ _ _ (by omega), write32_outside _ _ _ _ (by omega),
    write32_outside _ _ _ _ (by omega),
    copyWords_outside 64 (fun place member => by
      have := copiedPlaces_bounds place member
      omega) (by omega),
    pushWords_outside (by simpa [savedRegisters] using room) (by simpa [savedRegisters] using stack)]

theorem savedMemory_context (memory : Memory) (regs : Registers) (inside : 0x200000 ≤ (regs 14).toNat)
    (high : (regs 14).toNat + 4 ≤ 0x400000) :
    (∀ index : Fin 16, index ≠ 0 → index ≠ 14 →
      contextReg (savedMemory memory regs) SP_CONTEXT_ADDR index = regs index) ∧
    contextReg (savedMemory memory regs) SP_CONTEXT_ADDR 14 = regs 14 + 4 ∧
    contextPc (savedMemory memory regs) SP_CONTEXT_ADDR = read32 memory (regs 14).toNat ∧
    read32 (savedMemory memory regs) (SP_KERNEL_STACK - 4) = BitVec.ofNat 32 SP_CONTEXT_ADDR := by
  have record : SP_CONTEXT_ADDR = 0x180000 := rfl
  have top : SP_KERNEL_STACK = 0x200000 := rfl
  have sized : ∀ place ∈ copiedPlaces, place.2.toNat + 4 ≤ 64 := fun place member => by
    have := copiedPlaces_bounds place member
    omega
  refine ⟨fun index nonzero other => ?_, ?_, ?_, ?_⟩
  · obtain ⟨place, member, target, word⟩ :=
      savedWord memory (show 56 ≤ (regs 14).toNat by omega) index nonzero other
    have bounds := copiedPlaces_bounds place member
    rw [contextReg, ← target, savedMemory, read32_write32_disjoint _ _ _ _ (by omega),
      read32_write32_disjoint _ _ _ _ (by omega), read32_write32_disjoint _ _ _ _ (by omega),
      read32_copyWords 64 56 sized (fun place member => by
        have := copiedPlaces_bounds place member
        omega) (by omega) copiedPlaces_apart member, word]
  · rw [contextReg, savedMemory, read32_write32_disjoint _ _ _ _ (by omega),
      read32_write32_disjoint _ _ _ _ (by omega)]
    exact read32_write32_same _ _ _
  · rw [contextPc, savedMemory, read32_write32_disjoint _ _ _ _ (by omega), read32_write32_same,
      read32_write32_disjoint _ _ _ _ (by omega)]
    refine read32_congr fun query inside => ?_
    rw [copyWords_outside 64 sized (by omega),
      pushWords_outside (by simp [savedRegisters]; omega) (by omega)]
  · exact read32_write32_same _ _ _

theorem save_leads (regs : Registers) (full : FullAddressing options 0x400000)
    (code : OperationsAt memory pc (saveOps ++ rest)) (low : pc + 400 ≤ SP_CONTEXT_ADDR)
    (inside : 0x200000 ≤ (regs 14).toNat) (high : (regs 14).toNat + 4 ≤ 0x400000) :
    ∃ after, Leads options pc regs memory (pc + 400) after (savedMemory memory regs) ∧
      after 14 = BitVec.ofNat 32 (SP_KERNEL_STACK - 4) ∧
      CodeKept SP_CONTEXT_ADDR memory (savedMemory memory regs) := by
  have record : SP_CONTEXT_ADDR = 0x180000 := rfl
  have within : SP_CONTEXT_ADDR ≤ 0x400000 := by decide
  have kept : CodeKept SP_CONTEXT_ADDR memory memory := fun _ _ => rfl
  simp only [saveOps, List.append_assoc] at code
  obtain ⟨pushed, kept⟩ := leads_pushes regs full within (by decide) code
    (by change pc + 112 ≤ _; omega) kept (by change _ + 56 ≤ _; omega) (by omega)
  generalize stackEq : pushWords memory (regs 14).toNat (savedRegisters.map regs) = stack
    at pushed kept
  have lowered : (regs 14 - BitVec.ofNat 32 56).toNat = (regs 14).toNat - 56 :=
    toNat_sub_small (by omega)
  have placing : OperationsAt memory (pc + 112) _ := code.right
  have copying : OperationsAt memory (pc + 128) _ := placing.right
  have pointing : OperationsAt memory (pc + 352) _ := copying.right
  have returning : OperationsAt memory (pc + 364) _ := pointing.right
  have leaving : OperationsAt memory (pc + 380) _ := returning.right
  have passing : OperationsAt memory (pc + 392) _ := leaving.right
  generalize firstEq : regs.set 14 (regs 14 - BitVec.ofNat 32 (4 * savedRegisters.length)) = first
    at pushed
  have first14 : first 14 = regs 14 - BitVec.ofNat 32 56 := by
    rw [← firstEq, Registers.set_same _ _ (by decide)]
    rfl
  have moved : Leads options (pc + 112) first stack (pc + 116) (first.set 1 (first 14)) stack :=
    leads_move first full within placing (by omega) kept
  have placed := leads_constant (first.set 1 (first 14)) full within (by decide) placing.tail
    (by omega) kept
  generalize secondEq : (first.set 1 (first 14)).set 2 ((24 : BitVec 16).zeroExtend 32 <<< 16 |||
    (0 : BitVec 16).zeroExtend 32) = second at placed
  have second1 : (second 1).toNat = (regs 14).toNat - 56 := by
    rw [← secondEq, Registers.set_other _ _ (by decide), Registers.set_same _ _ (by decide), first14,
      lowered]
  have second2 : second 2 = BitVec.ofNat 32 SP_CONTEXT_ADDR := by
    rw [← secondEq, Registers.set_same _ _ (by decide)]
    decide
  have address2 : (second 2).toNat = SP_CONTEXT_ADDR := by
    rw [second2]
    rfl
  obtain ⟨third, copied, same, kept⟩ := leads_copies second full within copiedPlaces copying
    (by change _ + 224 ≤ _; omega) kept (fun place member => by
      have := copiedPlaces_bounds place member
      omega) (fun place member => by
      have := copiedPlaces_bounds place member
      omega)
  rw [second1, address2] at copied kept
  generalize copyEq : copyWords stack ((regs 14).toNat - 56) SP_CONTEXT_ADDR copiedPlaces = context
    at copied kept
  have third1 : (third 1).toNat = (regs 14).toNat - 56 := by rw [same 1 (by decide), second1]
  have third2 : (third 2).toNat = SP_CONTEXT_ADDR := by rw [same 2 (by decide), address2]
  have raised : Leads options (pc + 352) third context (pc + 356)
      (third.set 4 (third 1 + (60 : BitVec 16).zeroExtend 32)) context :=
    leads_alu third full within pointing (by omega) kept
  have original : third 1 + (60 : BitVec 16).zeroExtend 32 = regs 14 + 4 := by
    refine BitVec.eq_of_toNat_eq ?_
    have small : (60 : BitVec 16).toNat = 60 := rfl
    rw [toNat_add_imm (by omega), third1, small,
      show (4 : BitVec 32) = BitVec.ofNat 32 4 from rfl, toNat_add_small (by omega)]
    omega
  rw [original] at raised
  have base : (third.set 4 (regs 14 + 4)) 2 = third 2 := Registers.set_other _ _ (by decide)
  obtain ⟨pointed, kept⟩ := leads_storeAt (third.set 4 (regs 14 + 4)) full within (by decide)
    (by decide) pointing.tail (by omega) kept (by rw [base, third2]; omega)
    (by rw [base, third2]; decide)
  rw [base, third2, Registers.set_same _ _ (by decide)] at pointed kept
  generalize fourthEq : (third.set 4 (regs 14 + 4)).set 3 (third 2 + (56 : BitVec 16).zeroExtend 32) =
    fourth at pointed
  have fourth1 : fourth 1 = third 1 := by
    rw [← fourthEq, Registers.set_other _ _ (by decide), Registers.set_other _ _ (by decide)]
  have fourth2 : fourth 2 = third 2 := by
    rw [← fourthEq, Registers.set_other _ _ (by decide), Registers.set_other _ _ (by decide)]
  obtain ⟨fifth, returned, same', kept⟩ := leads_copies fourth full within [(56, 64)]
    returning (by change _ + 16 ≤ _; omega) kept
    (by simp only [List.mem_singleton, forall_eq, fourth1, third1]; change _ + 56 + 4 ≤ _; omega)
    (by simp only [List.mem_singleton, forall_eq, fourth2, third2]; decide)
  rw [fourth1, fourth2, third1, third2] at returned kept
  have switched := leads_constant fifth full within (by decide) leaving (by omega) kept
  have top : (32 : BitVec 16).zeroExtend 32 <<< 16 ||| (0 : BitVec 16).zeroExtend 32 =
      BitVec.ofNat 32 SP_KERNEL_STACK := by decide
  rw [top] at switched
  have kernel : (fifth.set 14 (BitVec.ofNat 32 SP_KERNEL_STACK)) 14 = BitVec.ofNat 32 SP_KERNEL_STACK :=
    Registers.set_same _ _ (by decide)
  have argument : (fifth.set 14 (BitVec.ofNat 32 SP_KERNEL_STACK)) 2 =
      BitVec.ofNat 32 SP_CONTEXT_ADDR := by
    rw [Registers.set_other _ _ (by decide), same' 2 (by decide), fourth2, same 2 (by decide), second2]
  obtain ⟨passed, kept⟩ := leads_push (fifth.set 14 (BitVec.ofNat 32 SP_KERNEL_STACK)) full within
    (by decide) passing (by omega) kept (by rw [kernel]; decide) (by rw [kernel]; decide)
  rw [kernel, argument] at passed kept
  have memory_eq : write32 (copyWords
      (write32 context (SP_CONTEXT_ADDR + (56 : BitVec 16).toNat) (regs 14 + 4))
      ((regs 14).toNat - 56) SP_CONTEXT_ADDR [(56, 64)]) (SP_KERNEL_STACK - 4)
        (BitVec.ofNat 32 SP_CONTEXT_ADDR) = savedMemory memory regs := by
    have source : (regs 14).toNat - 56 + (56 : BitVec 16).toNat = (regs 14).toNat := by
      change _ - 56 + 56 = _
      omega
    simp only [copyWords, source, savedMemory, stackEq, copyEq]
    rfl
  have run := (((((((pushed.trans moved).trans placed).trans copied).trans raised).trans
    pointed).trans returned).trans switched).trans passed
  change Leads _ _ _ _ _ _ (write32 _ (SP_KERNEL_STACK - 4) _) at run
  change CodeKept _ _ (write32 _ (SP_KERNEL_STACK - 4) _) at kept
  rw [memory_eq] at run kept
  refine ⟨_, run, ?_, kept⟩
  rw [Registers.set_same _ _ (by decide)]
  decide

end Save

section Restore

variable {options : EmuOptions} {memory : Memory} {pc bound : Nat} {rest : List Operation}

theorem reloadedPlaces_bounds : ∀ place ∈ reloadedPlaces,
    place.1 ≠ 0 ∧ place.1 ≠ 13 ∧ place.1 ≠ 15 ∧ place.2.toNat = 4 * place.1.val := by
  simp only [reloadedPlaces, List.forall_mem_cons]
  exact ⟨by decide, by decide, by decide, by decide, by decide, by decide, by decide, by decide,
    by decide, by decide, by decide, by decide, nofun⟩

theorem reloaded (index : Fin 16) (nonzero : index ≠ 0) (low : index < 13) :
    ∃ place ∈ reloadedPlaces, place.1 = index := by
  revert index
  decide

theorem restore_arrives (regs : Registers) (full : FullAddressing options 0x400000)
    (within : bound ≤ 0x400000) (code : OperationsAt memory pc (restoreOps ++ rest))
    (low : pc + 144 ≤ bound) {record : Nat} (pointer : (regs 1).toNat = record)
    (inside : record + 68 ≤ 0x400000) {sp : BitVec 32} (stack : contextReg memory record 14 = sp)
    (room : bound + 4 ≤ sp.toNat) (high : sp.toNat ≤ 0x400000)
    (apart : record + 72 ≤ sp.toNat ∨ sp.toNat ≤ record) :
    ∃ after, Arrives options pc regs memory (contextPc memory record).toNat after
        (write32 memory (sp.toNat - 4) (contextPc memory record)) ∧
      ∀ index : Fin 16, index ≠ 0 → index ≠ 15 → after index = contextReg memory record index := by
  have kept : CodeKept bound memory memory := fun _ _ => rfl
  simp only [restoreOps, List.append_assoc] at code
  have finding : OperationsAt memory (pc + 12) _ := code.right
  have pushing : OperationsAt memory (pc + 20) _ := finding.right
  have loading : OperationsAt memory (pc + 28) _ := pushing.right
  have ending : OperationsAt memory (pc + 124) _ := loading.right
  have leaving : OperationsAt memory (pc + 132) _ := ending.right
  have first : Leads options pc regs memory (pc + 4) (regs.set 15 (regs 1)) memory :=
    leads_move regs full within code (by omega) kept
  have base : (regs.set 15 (regs 1)) 15 = regs 1 := Registers.set_same _ _ (by decide)
  have second := leads_loadAt (regs.set 15 (regs 1)) full within (by decide) code.tail (by omega) kept
    (by rw [base, pointer]; change _ + 56 + 4 ≤ _; omega)
  rw [base, pointer] at second
  change Leads _ _ _ _ _ (Registers.set _ 14 (contextReg memory record 14)) _ at second
  rw [stack] at second
  generalize secondEq : ((regs.set 15 (regs 1)).set 13 (regs 1 + (56 : BitVec 16).zeroExtend 32)).set 14
    sp = found at second
  have found15 : found 15 = regs 1 := by
    rw [← secondEq, Registers.set_other _ _ (by decide), Registers.set_other _ _ (by decide), base]
  have third := leads_loadAt found full within (by decide) finding (by omega) kept
    (by rw [found15, pointer]; change _ + 64 + 4 ≤ _; omega)
  rw [found15, pointer] at third
  change Leads _ _ _ _ _ (Registers.set _ 13 (contextPc memory record)) _ at third
  generalize thirdEq : (found.set 13 (regs 1 + (64 : BitVec 16).zeroExtend 32)).set 13
    (contextPc memory record) = counted at third
  have counted13 : counted 13 = contextPc memory record := by
    rw [← thirdEq, Registers.set_same _ _ (by decide)]
  have counted14 : counted 14 = sp := by
    rw [← thirdEq, Registers.set_other _ _ (by decide), Registers.set_other _ _ (by decide),
      ← secondEq, Registers.set_same _ _ (by decide)]
  have counted15 : counted 15 = regs 1 := by
    rw [← thirdEq, Registers.set_other _ _ (by decide), Registers.set_other _ _ (by decide), found15]
  obtain ⟨pushed, kept⟩ := leads_push counted full within (by decide) pushing (by omega) kept
    (by rw [counted14]; exact room) (by rw [counted14]; exact high)
  rw [counted14, counted13] at pushed kept
  have slot : (sp - BitVec.ofNat 32 4).toNat = sp.toNat - 4 := toNat_sub_small (by omega)
  have record_kept : ∀ offset, offset + 4 ≤ 68 →
      read32 (write32 memory (sp.toNat - 4) (contextPc memory record)) (record + offset) =
        read32 memory (record + offset) := fun offset fits =>
    read32_write32_disjoint _ _ _ _ (by omega)
  generalize fourthEq : counted.set 14 (sp - BitVec.ofNat 32 4) = ready at pushed
  have ready14 : ready 14 = sp - BitVec.ofNat 32 4 := by
    rw [← fourthEq, Registers.set_same _ _ (by decide)]
  have ready15 : (ready 15).toNat = record := by
    rw [← fourthEq, Registers.set_other _ _ (by decide), counted15, pointer]
  obtain ⟨general, loaded, same, values⟩ := leads_reloads ready full within loading
    (by change _ + 96 ≤ _; omega) kept (fun place member => by
      have := reloadedPlaces_bounds place member
      have := place.1.isLt
      omega) (fun place member => by
      have := reloadedPlaces_bounds place member
      exact ⟨this.1, this.2.1, this.2.2.1⟩) (by decide)
  have general14 : general 14 = sp - BitVec.ofNat 32 4 := by rw [same 14 (by decide), ready14]
  have general15 : (general 15).toNat = record := by rw [same 15 (by decide), ready15]
  have fifth := leads_loadAt general full within (by decide) ending (by omega) kept
    (by rw [general15]; change _ + 52 + 4 ≤ _; omega)
  rw [general15, record_kept _ (by decide)] at fifth
  change Leads _ _ _ _ _ (Registers.set _ 13 (contextReg memory record 13)) _ at fifth
  rw [Registers.set_set] at fifth
  have top : (general.set 13 (contextReg memory record 13)) 14 = sp - BitVec.ofNat 32 4 := by
    rw [Registers.set_other _ _ (by decide), general14]
  have sixth := leads_load (general.set 13 (contextReg memory record 13)) full within leaving (by omega)
    kept (by rw [top, slot]; omega)
  rw [top, slot, read32_write32_same] at sixth
  generalize lastEq : (general.set 13 (contextReg memory record 13)).set 15 (contextPc memory record) =
    last at sixth
  have last14 : last 14 = sp - BitVec.ofNat 32 4 := by
    rw [← lastEq, Registers.set_other _ _ (by decide), top]
  have raised : Leads options (pc + 136) last
      (write32 memory (sp.toNat - 4) (contextPc memory record)) (pc + 140) (last.set 14 sp)
      (write32 memory (sp.toNat - 4) (contextPc memory record)) := by
    have step := leads_alu last full within leaving.tail (by omega) kept
    have original : AluOp.add.apply (last 14) ((Source.imm 4).read last) = sp := by
      rw [last14]
      exact BitVec.sub_add_cancel sp 4
    rwa [original] at step
  have counter : (last.set 14 sp) 15 = contextPc memory record := by
    rw [Registers.set_other _ _ (by decide), ← lastEq, Registers.set_same _ _ (by decide)]
  have jumped := arrives_jump (last.set 14 sp) full within leaving.tail.tail (by omega) kept
  rw [counter] at jumped
  have run := ((((((first.trans second).trans third).trans pushed).trans loaded).trans fifth).trans
    sixth).trans raised
  refine ⟨_, run.arrives jumped, fun index nonzero other => ?_⟩
  by_cases pointed : index = 14
  · rw [pointed, Registers.set_same _ _ (by decide), stack]
  · rw [Registers.set_other _ _ pointed, ← lastEq, Registers.set_other _ _ other]
    by_cases scratch : index = 13
    · rw [scratch, Registers.set_same _ _ (by decide)]
    · rw [Registers.set_other _ _ scratch]
      have low : index < 13 := by omega
      obtain ⟨place, member, rfl⟩ := reloaded index nonzero low
      rw [values place member, ready15, (reloadedPlaces_bounds place member).2.2.2,
        record_kept _ (by omega)]
      rfl

end Restore

/-! The whole of it, for machines. -/

/-- A run whose last jump may be to itself, where the emulator stops. -/
def Reaches (options : EmuOptions) (machine final : Machine) : Prop :=
  ∃ last, MachineRuns options machine last ∧
    (step options last = .running final ∨ step options last = .halted final)

def UserStack (sp : BitVec 32) : Prop :=
  SP_USER_BASE.toNat ≤ sp.toNat ∧ sp.toNat + 4 ≤ SP_USER_BASE.toNat + SP_USER_SIZE.toNat

structure CallerSaved (entry dispatch : Nat) (before called : Machine) : Prop where
  pc : called.pc = dispatch
  sp : called.regs 14 = BitVec.ofNat 32 (SP_KERNEL_STACK - 8)
  returns : read32 called.memory (SP_KERNEL_STACK - 8) = BitVec.ofNat 32 (entry + 432)
  argument : read32 called.memory (SP_KERNEL_STACK - 4) = BitVec.ofNat 32 SP_CONTEXT_ADDR
  general : ∀ index : Fin 16, index ≠ 0 → index ≠ 14 →
    contextReg called.memory SP_CONTEXT_ADDR index = before.regs index
  stack : contextReg called.memory SP_CONTEXT_ADDR 14 = before.regs 14 + 4
  next : contextPc called.memory SP_CONTEXT_ADDR = read32 before.memory (before.regs 14).toNat
  user : ∀ query, (before.regs 14).toNat ≤ query → called.memory query = before.memory query
  code : PlatformAt called.memory entry dispatch

/-- A return of `sp_dispatch` with a record of the caller's context, but for the result. -/
structure DispatchReturned (entry dispatch : Nat) (called returned : Machine) (result : BitVec 32) :
    Prop where
  pc : returned.pc = (read32 called.memory (called.regs 14).toNat).toNat
  sp : returned.regs 14 = called.regs 14 + 4
  code : PlatformAt returned.memory entry dispatch
  kernel : (returned.regs 1).toNat + 68 ≤ SP_USER_BASE.toNat
  result : contextReg returned.memory (returned.regs 1).toNat 1 = result
  general : ∀ index : Fin 16, index ≠ 0 → index ≠ 1 →
    contextReg returned.memory (returned.regs 1).toNat index =
      contextReg called.memory SP_CONTEXT_ADDR index
  next : contextPc returned.memory (returned.regs 1).toNat = contextPc called.memory SP_CONTEXT_ADDR

/-- The word below the stack pointer of a record lies apart from the code and the record. -/
structure Resumable (memory : Memory) (entry record : Nat) : Prop where
  inside : record + 68 ≤ 0x400000
  room : entry + 608 ≤ (contextReg memory record 14).toNat
  high : (contextReg memory record 14).toNat ≤ 0x400000
  apart : record + 72 ≤ (contextReg memory record 14).toNat ∨
    (contextReg memory record 14).toNat ≤ record

structure Resumed (memory : Memory) (record : Nat) (final : Machine) : Prop where
  pc : final.pc = (contextPc memory record).toNat
  general : ∀ index : Fin 16, index ≠ 0 → index ≠ 15 → final.regs index = contextReg memory record index
  memory : final.memory = write32 memory ((contextReg memory record 14).toNat - 4)
    (contextPc memory record)

section Whole

variable {options : EmuOptions} {entry dispatch : Nat}

theorem caller_saved (full : FullAddressing options 0x400000) (low : entry + 604 ≤ SP_CONTEXT_ADDR)
    (dispatchBound : dispatch < 2 ^ 32) (other : dispatch < entry ∨ entry + 604 ≤ dispatch)
    {before : Machine} (start : before.pc = entry) (code : PlatformAt before.memory entry dispatch)
    (user : UserStack (before.regs 14)) :
    ∃ called, MachineRuns options before called ∧ CallerSaved entry dispatch before called := by
  have record : SP_CONTEXT_ADDR = 0x180000 := rfl
  have top : SP_KERNEL_STACK = 0x200000 := rfl
  have base : SP_USER_BASE.toNat = 0x200000 := rfl
  have size : SP_USER_SIZE.toNat = 0x200000 := rfl
  obtain ⟨inside, high⟩ := user
  have ops := code.operations dispatchBound (by omega)
  obtain ⟨middle, saved, stack, kept⟩ := save_leads before.regs full ops (by omega) (by omega)
    (by omega)
  have calling : OperationsAt before.memory (entry + 400) _ := ops.right
  have slot : (middle 14).toNat = SP_KERNEL_STACK - 4 := by
    rw [stack]
    decide
  obtain ⟨jumped, kept'⟩ := leads_call middle full (by decide) dispatchBound calling (by omega) kept
    (by omega) (by omega) (by omega)
  rw [slot] at jumped kept'
  obtain ⟨called, run, here⟩ := (saved.trans jumped) before ⟨start, rfl, rfl⟩
  obtain ⟨general, sp, next, argument⟩ := savedMemory_context before.memory before.regs
    (by omega) (by omega)
  have context : ∀ offset, offset + 4 ≤ 68 →
      read32 called.memory (SP_CONTEXT_ADDR + offset) =
        read32 (savedMemory before.memory before.regs) (SP_CONTEXT_ADDR + offset) := by
    intro offset fits
    rw [here.memory, read32_write32_disjoint _ _ _ _ (by omega)]
  refine ⟨called, run, here.pc, ?_, ?_, ?_, fun index nonzero stack => ?_, ?_, ?_, fun query above => ?_,
    ?_⟩
  · rw [here.regs, Registers.set_other _ _ (by decide), Registers.set_same _ _ (by decide), stack]
    decide
  · rw [here.memory]
    exact read32_write32_same _ _ _
  · rw [here.memory, read32_write32_disjoint _ _ _ _ (by omega), argument]
  · exact (context _ (by omega)).trans (general index nonzero stack)
  · exact (context _ (by decide)).trans sp
  · exact (context _ (by decide)).trans next
  · rw [here.memory, write32_outside _ _ _ _ (by omega),
      savedMemory_outside (by omega) (by omega) (by omega) (by omega)]
  · refine code.congr dispatchBound (by omega) fun query _ high => ?_
    rw [here.memory]
    exact (kept' query (by omega)).symm

theorem restore_reaches (full : FullAddressing options 0x400000) (low : entry + 604 ≤ SP_CONTEXT_ADDR)
    (dispatchBound : dispatch < 2 ^ 32) (machine : Machine) (record : Nat)
    (code : PlatformAt machine.memory entry dispatch) (start : machine.pc = entry + 460)
    (pointer : (machine.regs 1).toNat = record) (resumable : Resumable machine.memory entry record) :
    ∃ final, Reaches options machine final ∧ Resumed machine.memory record final := by
  have context : SP_CONTEXT_ADDR = 0x180000 := rfl
  have ops := code.operations dispatchBound (by omega)
  obtain ⟨inside, room, high, apart⟩ := resumable
  have within : entry + 604 ≤ 0x400000 := by omega
  have code : OperationsAt machine.memory (entry + 460) (restoreOps ++ []) := by
    rw [List.append_nil]
    exact ops.right.right.right.right.right
  obtain ⟨after, arrives, values⟩ := restore_arrives machine.regs full within code (by omega) pointer
    inside rfl (by omega) high apart
  obtain ⟨last, final, run, ended, here⟩ := arrives machine ⟨start, rfl, rfl⟩
  refine ⟨final, ⟨last, run, ended⟩, here.pc, fun index nonzero other => ?_, here.memory⟩
  rw [here.regs]
  exact values index nonzero other

theorem MachineRuns.reaches {machine middle final : Machine} (run : MachineRuns options machine middle)
    (reaches : Reaches options middle final) : Reaches options machine final := by
  obtain ⟨last, later, ended⟩ := reaches
  exact ⟨last, run.trans later, ended⟩

/-- `sp_resume` takes the record from its caller's stack. -/
theorem resume_reaches (full : FullAddressing options 0x400000) (low : entry + 604 ≤ SP_CONTEXT_ADDR)
    (dispatchBound : dispatch < 2 ^ 32) {machine : Machine} {record : Nat}
    (code : PlatformAt machine.memory entry dispatch) (start : machine.pc = entry + 452)
    (stack : (machine.regs 14).toNat + 8 ≤ 0x400000)
    (argument : (read32 machine.memory ((machine.regs 14).toNat + 4)).toNat = record)
    (resumable : Resumable machine.memory entry record) :
    ∃ final, Reaches options machine final ∧ Resumed machine.memory record final := by
  have context : SP_CONTEXT_ADDR = 0x180000 := rfl
  have ops := code.operations dispatchBound (by omega)
  have resuming : OperationsAt machine.memory (entry + 452) _ := ops.right.right.right.right
  have within : entry + 604 ≤ 0x400000 := by omega
  have loaded := leads_loadAt machine.regs full within (by decide) resuming (by omega)
    (fun _ _ => rfl) (by change _ + 4 + 4 ≤ _; omega)
  obtain ⟨middle, run, here⟩ := loaded machine ⟨start, rfl, rfl⟩
  obtain ⟨final, reaches, resumed⟩ := restore_reaches full low dispatchBound middle record
    (by rw [here.memory]; exact code) here.pc
    (by rw [here.regs, Registers.set_same _ _ (by decide)]; exact argument)
    (by rw [here.memory]; exact resumable)
  rw [here.memory] at resumed
  exact ⟨final, run.reaches reaches, resumed⟩

/-- After `sp_dispatch` the argument is dropped and the record it returned is restored. -/
theorem return_reaches (full : FullAddressing options 0x400000) (low : entry + 604 ≤ SP_CONTEXT_ADDR)
    (dispatchBound : dispatch < 2 ^ 32) {machine : Machine} {record : Nat}
    (code : PlatformAt machine.memory entry dispatch) (start : machine.pc = entry + 432)
    (pointer : (machine.regs 1).toNat = record) (resumable : Resumable machine.memory entry record) :
    ∃ final, Reaches options machine final ∧ Resumed machine.memory record final := by
  have context : SP_CONTEXT_ADDR = 0x180000 := rfl
  have ops := code.operations dispatchBound (by omega)
  have dropping : OperationsAt machine.memory (entry + 432) _ := ops.right.right
  have jumping : OperationsAt machine.memory (entry + 436) _ := dropping.right
  have within : entry + 604 ≤ 0x400000 := by omega
  have kept : CodeKept (entry + 604) machine.memory machine.memory := fun _ _ => rfl
  have dropped := leads_alu machine.regs full within dropping (by omega) kept
  have jumped := leads_jumpTo (machine.regs.set 14 (machine.regs 14 + (4 : BitVec 16).zeroExtend 32))
    full within (by omega) jumping (by omega) kept (by omega)
  obtain ⟨middle, run, here⟩ := (dropped.trans jumped) machine ⟨start, rfl, rfl⟩
  obtain ⟨final, reaches, resumed⟩ := restore_reaches full low dispatchBound middle record
    (by rw [here.memory]; exact code) here.pc
    (by
      rw [here.regs, Registers.set_other _ _ (by decide), Registers.set_other _ _ (by decide)]
      exact pointer)
    (by rw [here.memory]; exact resumable)
  rw [here.memory] at resumed
  exact ⟨final, run.reaches reaches, resumed⟩

structure CallerContinues (before called returned : Machine) (result : BitVec 32) (final : Machine) :
    Prop where
  pc : final.pc = (read32 before.memory (before.regs 14).toNat).toNat
  result : final.regs 1 = result
  general : ∀ index : Fin 16, 2 ≤ index → index ≤ 13 → final.regs index = before.regs index
  sp : final.regs 14 = before.regs 14 + 4
  memory : ∀ query, (before.regs 14).toNat ≤ query → returned.memory query = called.memory query →
    final.memory query = before.memory query

theorem caller_continues (full : FullAddressing options 0x400000)
    (low : entry + 604 ≤ SP_CONTEXT_ADDR) (dispatchBound : dispatch < 2 ^ 32)
    {before called returned : Machine} {result : BitVec 32} (user : UserStack (before.regs 14))
    (saved : CallerSaved entry dispatch before called)
    (back : DispatchReturned entry dispatch called returned result) :
    ∃ final, Reaches options returned final ∧
      CallerContinues before called returned result final := by
  have context : SP_CONTEXT_ADDR = 0x180000 := rfl
  have base : SP_USER_BASE.toNat = 0x200000 := rfl
  have size : SP_USER_SIZE.toNat = 0x200000 := rfl
  obtain ⟨inside, high⟩ := user
  have kernel := back.kernel
  have stack : contextReg returned.memory (returned.regs 1).toNat 14 = before.regs 14 + 4 := by
    rw [back.general 14 (by decide) (by decide), saved.stack]
  have raised : (before.regs 14 + 4).toNat = (before.regs 14).toNat + 4 :=
    toNat_add_small (n := 4) (by omega)
  have start : returned.pc = entry + 432 := by
    have kernelStack : (called.regs 14).toNat = SP_KERNEL_STACK - 8 := by
      rw [saved.sp]
      decide
    rw [back.pc, kernelStack, saved.returns, BitVec.toNat_ofNat, Nat.mod_eq_of_lt (by omega)]
  have next : contextPc returned.memory (returned.regs 1).toNat =
      read32 before.memory (before.regs 14).toNat := by rw [back.next, saved.next]
  obtain ⟨final, reaches, resumed⟩ := return_reaches full low dispatchBound back.code start rfl
    ⟨by omega, by rw [stack, raised]; omega, by rw [stack, raised]; omega,
      .inl (by rw [stack, raised]; omega)⟩
  refine ⟨final, reaches, ?_, ?_, fun index first last => ?_, ?_, fun query above kept => ?_⟩
  · rw [resumed.pc, next]
  · rw [resumed.general 1 (by decide) (by decide), back.result]
  · have nonzero : index ≠ 0 := by omega
    have one : index ≠ 1 := by omega
    have other : index ≠ 14 := by omega
    have flags : index ≠ 15 := by omega
    rw [resumed.general index nonzero flags, back.general index nonzero one,
      saved.general index nonzero other]
  · rw [resumed.general 14 (by decide) (by decide), stack]
  · rw [resumed.memory, stack, raised, next, Nat.add_sub_cancel]
    by_cases slot : (before.regs 14).toNat + 4 ≤ query
    · rw [write32_outside _ _ _ _ (.inr slot), kept, saved.user query above]
    · exact write32_read32 _ _ _ _ ⟨above, by omega⟩

end Whole

/-- System-call entry and resume are transparent. -/
theorem syscall_transparent {options : EmuOptions} (full : FullAddressing options 0x400000)
    {entry dispatch : Nat} (low : entry + 604 ≤ SP_CONTEXT_ADDR) (dispatchBound : dispatch < 2 ^ 32)
    (other : dispatch < entry ∨ entry + 604 ≤ dispatch) :
    (∀ before, before.pc = entry → PlatformAt before.memory entry dispatch →
      UserStack (before.regs 14) →
      ∃ called, MachineRuns options before called ∧ CallerSaved entry dispatch before called ∧
        ∀ returned result, DispatchReturned entry dispatch called returned result →
          ∃ final, Reaches options returned final ∧
            CallerContinues before called returned result final) ∧
    (∀ machine record, machine.pc = entry + 452 → PlatformAt machine.memory entry dispatch →
      (machine.regs 14).toNat + 8 ≤ 0x400000 →
      (read32 machine.memory ((machine.regs 14).toNat + 4)).toNat = record →
      Resumable machine.memory entry record →
      ∃ final, Reaches options machine final ∧ Resumed machine.memory record final) ∧
    (∀ machine record, machine.pc = entry + 460 → PlatformAt machine.memory entry dispatch →
      (machine.regs 1).toNat = record → Resumable machine.memory entry record →
      ∃ final, Reaches options machine final ∧ Resumed machine.memory record final) := by
  refine ⟨fun before start code user => ?_, fun machine record start code stack argument resumable => ?_,
    fun machine record start code pointer resumable => ?_⟩
  · obtain ⟨called, run, saved⟩ := caller_saved full low dispatchBound other start code user
    exact ⟨called, run, saved, fun returned result back =>
      caller_continues full low dispatchBound user saved back⟩
  · exact resume_reaches full low dispatchBound code start stack argument resumable
  · exact restore_reaches full low dispatchBound machine record code start pointer resumable

/-! An instance: a call that returns 7. -/

theorem AssembledAt.above {first second : Memory} {address : Nat} {lines : List (List Char)}
    (assembled : AssembledAt first address lines)
    (agree : ∀ query, address ≤ query → second query = first query) :
    AssembledAt second address lines := by
  induction assembled with
  | done address => exact .done address
  | line accepted bytes _ ih =>
      refine .line accepted (fun i bound => ?_) (ih fun query high => agree query (by omega))
      rw [agree _ (Nat.le_add_right _ _), bytes i bound]

theorem assembledAt_exists {lines : List (List Char)}
    (accepted : ∀ line ∈ lines, (processLine line true [] 0 16 0).toOption.isSome) (address : Nat) :
    ∃ memory, AssembledAt memory address lines := by
  induction lines generalizing address with
  | nil => exact ⟨fun _ => 0, .done address⟩
  | cons line rest ih =>
      obtain ⟨⟨emitted, after⟩, ok⟩ := Option.isSome_iff_exists.mp (accepted line List.mem_cons_self)
      have ok : processLine line true [] 0 16 0 = .ok (emitted, after) := by
        generalize processLine line true [] 0 16 0 = result at ok
        cases result with
        | error failure => cases ok
        | ok value =>
            cases ok
            rfl
      obtain ⟨memory, assembled⟩ := ih (fun line member => accepted line
        (List.mem_cons_of_mem _ member)) (address + emitted.bytes.length)
      refine ⟨writeBytes memory address emitted.bytes, .line ok (fun i bound =>
        writeBytes_inside memory address i _ bound) (assembled.above fun query high =>
          writeBytes_outside _ _ _ _ (.inr high))⟩

theorem platform_accepted : ∀ line ∈ platformLines.flatMap (printedLine fun name =>
    if name = "sp_dispatch".toList then 0x100000 else 0x1000 + 460),
    (processLine line true [] 0 16 0).toOption.isSome := by
  have spelled : platformLines = _ := Spelled.map_eq (by
    repeat' apply Spelled.cons
    apply Spelled.nil)
  rw [spelled]
  decide +kernel

/-- A caller at the entry with a return address of 0x200100. -/
theorem syscall_transparent_returns : ∃ (options : EmuOptions)
    (before called returned final : Machine), MachineRuns options before called ∧
      DispatchReturned 0x1000 0x100000 called returned 7 ∧ Reaches options returned final ∧
      final.pc = 0x200100 ∧ final.regs 1 = 7 := by
  obtain ⟨code, assembled⟩ := assembledAt_exists platform_accepted 0x1000
  have full : FullAddressing { ramSize := 0x400000, diskSize := 0 } 0x400000 := ⟨rfl, le_rfl, by decide⟩
  obtain ⟨entry, -⟩ := syscall_transparent full (show 0x1000 + 604 ≤ SP_CONTEXT_ADDR by decide)
    (show 0x100000 < 2 ^ 32 by decide) (.inr (by decide))
  have placed : PlatformAt (write32 code 0x300000 0x200100) 0x1000 0x100000 :=
    PlatformAt.congr assembled (by decide) (by decide) fun query _ high =>
      write32_outside _ _ _ _ (.inl (by omega))
  have user : UserStack ((Registers.clear.set 14 0x300000) 14) := by
    rw [Registers.set_same _ _ (by decide)]
    exact ⟨by decide, by decide⟩
  obtain ⟨called, run, saved, continues⟩ := entry
    { regs := Registers.clear.set 14 0x300000, lastA := 0, lastB := 0, pc := 0x1000,
      memory := write32 code 0x300000 0x200100, disk := fun _ => 0, settings := fun _ => 0,
      timeHigh := 0, keyIndex := 0, keyCalls := 0, printed := [], instruction := 0 }
    rfl placed user
  have back : DispatchReturned 0x1000 0x100000 called
      { called with
        pc := 0x1000 + 432
        regs := (called.regs.set 14 (called.regs 14 + 4)).set 1 (BitVec.ofNat 32 SP_CONTEXT_ADDR)
        memory := write32 called.memory (SP_CONTEXT_ADDR + 4) 7 } 7 := by
    have pointer : ((called.regs.set 14 (called.regs 14 + 4)).set 1
        (BitVec.ofNat 32 SP_CONTEXT_ADDR)) 1 = BitVec.ofNat 32 SP_CONTEXT_ADDR :=
      Registers.set_same _ _ (by decide)
    have record : (BitVec.ofNat 32 SP_CONTEXT_ADDR).toNat = SP_CONTEXT_ADDR := rfl
    refine ⟨?_, ?_, ?_, ?_, ?_, fun index _ one => ?_, ?_⟩
    · have kernel : (called.regs 14).toNat = SP_KERNEL_STACK - 8 := by
        rw [saved.sp]
        decide
      rw [kernel, saved.returns]
      rfl
    · rw [Registers.set_other _ _ (by decide), Registers.set_same _ _ (by decide)]
    · refine saved.code.congr (by decide) (by decide) fun query _ high => ?_
      exact write32_outside _ _ _ _ (.inl (Nat.lt_of_lt_of_le high (by decide)))
    · rw [pointer]
      decide
    · rw [pointer, record]
      exact read32_write32_same _ _ _
    · have different : index.val ≠ 1 := fun same => one (Fin.ext same)
      rw [pointer, record]
      exact read32_write32_disjoint _ _ _ _ (by omega)
    · rw [pointer, record]
      exact read32_write32_disjoint _ _ _ _ (by omega)
  obtain ⟨final, reaches, final_eq⟩ := continues _ 7 back
  refine ⟨_, _, called, _, final, run, back, reaches, ?_, final_eq.result⟩
  rw [final_eq.pc]
  change (read32 (write32 code 0x300000 0x200100) 0x300000).toNat = 0x200100
  rw [read32_write32_same]
  rfl

end SymphonyPlus
