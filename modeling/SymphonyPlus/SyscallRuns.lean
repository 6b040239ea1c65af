import SymphonyPlus.SyscallEntry

/-!
What a system call saves and what a resume restores, as runs of the machine.
-/

namespace SymphonyPlus

open ByteMemory

/-! Stacks and records as words of memory. -/

def pushWords (memory : Memory) (sp : Nat) : List (BitVec 32) → Memory
  | [] => memory
  | word :: words => pushWords (write32 memory (sp - 4) word) (sp - 4) words

theorem pushWords_outside {memory : Memory} {sp : Nat} {words : List (BitVec 32)} {query : Nat}
    (room : 4 * words.length ≤ sp) (outside : query < sp - 4 * words.length ∨ sp ≤ query) :
    pushWords memory sp words query = memory query := by
  induction words generalizing memory sp with
  | nil => rfl
  | cons word words ih =>
      simp only [List.length_cons] at room outside
      rw [pushWords, ih (by omega) (by omega), write32_outside _ _ _ _ (by omega)]

theorem read32_pushWords (memory : Memory) (sp : Nat) (words : List (BitVec 32))
    (room : 4 * words.length ≤ sp) {i : Nat} (bound : i < words.length) :
    read32 (pushWords memory sp words) (sp - 4 * (i + 1)) = words[i] := by
  induction words generalizing memory sp i with
  | nil => cases bound
  | cons word words ih =>
      simp only [List.length_cons] at room bound
      rw [pushWords]
      cases i with
      | zero =>
          have kept : read32 (pushWords (write32 memory (sp - 4) word) (sp - 4) words) (sp - 4) =
              read32 (write32 memory (sp - 4) word) (sp - 4) :=
            read32_congr fun query inside => pushWords_outside (by omega) (by omega)
          simpa using kept
      | succ i =>
          rw [show sp - 4 * (i + 1 + 1) = sp - 4 - 4 * (i + 1) by omega,
            ih _ _ (by omega) (by omega), List.getElem_cons_succ]

def copyWords (memory : Memory) (source target : Nat) : List (BitVec 16 × BitVec 16) → Memory
  | [] => memory
  | place :: places => copyWords (write32 memory (target + place.2.toNat)
      (read32 memory (source + place.1.toNat))) source target places

theorem copyWords_outside {memory : Memory} {source target : Nat} (size : Nat)
    {places : List (BitVec 16 × BitVec 16)} (inside : ∀ place ∈ places, place.2.toNat + 4 ≤ size)
    {query : Nat} (outside : query < target ∨ target + size ≤ query) :
    copyWords memory source target places query = memory query := by
  induction places generalizing memory with
  | nil => rfl
  | cons place places ih =>
      have first := inside place List.mem_cons_self
      rw [copyWords, ih fun place member => inside place (List.mem_cons_of_mem _ member),
        write32_outside _ _ _ _ (by omega)]

theorem read32_copyWords_apart {memory : Memory} {source target : Nat} {place : BitVec 16}
    {places : List (BitVec 16 × BitVec 16)}
    (apart : ∀ other ∈ places,
      place.toNat + 4 ≤ other.2.toNat ∨ other.2.toNat + 4 ≤ place.toNat) :
    read32 (copyWords memory source target places) (target + place.toNat) =
      read32 memory (target + place.toNat) := by
  induction places generalizing memory with
  | nil => rfl
  | cons other places ih =>
      have first := apart other List.mem_cons_self
      rw [copyWords, ih fun other member => apart other (List.mem_cons_of_mem _ member),
        read32_write32_disjoint _ _ _ _ (by omega)]

/-- Records that do not overlap: every place gets its word. -/
theorem read32_copyWords {memory : Memory} {source target : Nat} (size reach : Nat)
    {places : List (BitVec 16 × BitVec 16)} (inside : ∀ place ∈ places, place.2.toNat + 4 ≤ size)
    (within : ∀ place ∈ places, place.1.toNat + 4 ≤ reach)
    (apart : source + reach ≤ target ∨ target + size ≤ source)
    (distinct : places.Pairwise fun first second =>
      first.2.toNat + 4 ≤ second.2.toNat ∨ second.2.toNat + 4 ≤ first.2.toNat)
    {place : BitVec 16 × BitVec 16} (member : place ∈ places) :
    read32 (copyWords memory source target places) (target + place.2.toNat) =
      read32 memory (source + place.1.toNat) := by
  induction places generalizing memory with
  | nil => cases member
  | cons first places ih =>
      obtain ⟨firstApart, distinct⟩ := List.pairwise_cons.mp distinct
      have firstInside := inside first List.mem_cons_self
      have inside' := fun place member => inside place (List.mem_cons_of_mem _ member)
      rw [copyWords]
      rcases List.mem_cons.mp member with rfl | later
      · rw [read32_copyWords_apart firstApart, read32_write32_same]
      · have placeWithin := within place member
        rw [ih inside' (fun place member => within place (List.mem_cons_of_mem _ member)) distinct
          later, read32_write32_disjoint _ _ _ _ (by omega)]

/-! The pieces of the code. -/

section Pieces

variable {options : EmuOptions} {image memory : Memory} {pc bound : Nat}

theorem leads_push (regs : Registers) (full : FullAddressing options 0x400000)
    (within : bound ≤ 0x400000) {source : Fin 16} (other : source ≠ 14) {rest : List Operation}
    (code : OperationsAt image pc (pushOps source ++ rest)) (low : pc + 8 ≤ bound)
    (kept : CodeKept bound image memory) (room : bound + 4 ≤ (regs 14).toNat)
    (high : (regs 14).toNat ≤ 0x400000) :
    Leads options pc regs memory (pc + 8) (regs.set 14 (regs 14 - BitVec.ofNat 32 4))
      (write32 memory ((regs 14).toNat - 4) (regs source)) ∧
    CodeKept bound image (write32 memory ((regs 14).toNat - 4) (regs source)) := by
  have place : (regs 14 - BitVec.ofNat 32 4).toNat = (regs 14).toNat - 4 := toNat_sub_small (by omega)
  have first : Leads options pc regs memory (pc + 4)
      (regs.set 14 (regs 14 - BitVec.ofNat 32 4)) memory :=
    leads_alu regs full within code (by omega) kept
  have second := leads_store (regs.set 14 (regs 14 - BitVec.ofNat 32 4)) full within code.tail
    (by omega) kept (by
      rw [Registers.set_same _ _ (by decide), place]
      omega)
  rw [Registers.set_same _ _ (by decide), place, Registers.set_other _ _ other] at second
  exact ⟨first.trans second, kept.write32 (by omega)⟩

theorem leads_pushes (regs : Registers) (full : FullAddressing options 0x400000)
    (within : bound ≤ 0x400000) {sources : List (Fin 16)} (others : 14 ∉ sources) {rest : List Operation}
    (code : OperationsAt image pc (sources.flatMap pushOps ++ rest))
    (low : pc + 8 * sources.length ≤ bound) (kept : CodeKept bound image memory)
    (room : bound + 4 * sources.length ≤ (regs 14).toNat) (high : (regs 14).toNat ≤ 0x400000) :
    Leads options pc regs memory (pc + 8 * sources.length)
      (regs.set 14 (regs 14 - BitVec.ofNat 32 (4 * sources.length)))
      (pushWords memory (regs 14).toNat (sources.map regs)) ∧
    CodeKept bound image (pushWords memory (regs 14).toNat (sources.map regs)) := by
  induction sources generalizing pc memory regs with
  | nil =>
      have same : regs.set 14 (regs 14 - BitVec.ofNat 32 (4 * 0)) = regs := by
        rw [BitVec.sub_zero, Registers.set_self]
      rw [List.length_nil, same]
      exact ⟨.refl _ _ _ _, kept⟩
  | cons source sources ih =>
      have different : source ≠ 14 := fun same => others (same ▸ List.mem_cons_self)
      have others := fun member => others (List.mem_cons_of_mem source member)
      simp only [List.length_cons] at low room
      rw [List.flatMap_cons, List.append_assoc] at code
      obtain ⟨first, kept⟩ := leads_push regs full within different code (by omega) kept
        (by omega) high
      have place : (regs 14 - BitVec.ofNat 32 4).toNat = (regs 14).toNat - 4 :=
        toNat_sub_small (by omega)
      have lowered : (regs.set 14 (regs 14 - BitVec.ofNat 32 4)) 14 = regs 14 - BitVec.ofNat 32 4 :=
        Registers.set_same _ _ (by decide)
      have others' : sources.map (regs.set 14 (regs 14 - BitVec.ofNat 32 4)) = sources.map regs :=
        List.map_congr_left fun source member => Registers.set_other _ _ fun same =>
          others (same ▸ member)
      have code : OperationsAt image (pc + 8) (sources.flatMap pushOps ++ rest) := code.right
      obtain ⟨later, kept⟩ := ih (regs.set 14 (regs 14 - BitVec.ofNat 32 4)) others code
        (by omega) kept (by rw [lowered, place]; omega) (by rw [lowered, place]; omega)
      have total : regs 14 - BitVec.ofNat 32 4 - BitVec.ofNat 32 (4 * sources.length) =
          regs 14 - BitVec.ofNat 32 (4 * (sources.length + 1)) := by
        refine BitVec.eq_of_toNat_eq ?_
        rw [toNat_sub_small (by rw [place]; omega), place, toNat_sub_small (by omega)]
        omega
      rw [lowered, others', place, Registers.set_set, total] at later
      rw [others', lowered, place] at kept
      rw [show pc + 8 + 8 * sources.length = pc + 8 * (sources.length + 1) by omega] at later
      exact ⟨first.trans later, kept⟩

theorem toNat_add_imm {address : BitVec 32} {offset : BitVec 16}
    (room : address.toNat + offset.toNat < 2 ^ 32) :
    (address + offset.zeroExtend 32).toNat = address.toNat + offset.toNat := by
  have small := offset.isLt
  rw [BitVec.toNat_add, BitVec.toNat_setWidth, Nat.mod_eq_of_lt (show offset.toNat < 2 ^ 32 by omega)]
  exact Nat.mod_eq_of_lt room

/-- A word at an offset from a register, by way of a scratch register. -/
theorem leads_loadAt (regs : Registers) {top : Nat} (full : FullAddressing options top)
    (within : bound ≤ top) {scratch base target : Fin 16} (nonzero : scratch ≠ 0)
    {offset : BitVec 16} {rest : List Operation}
    (code : OperationsAt image pc
      (.alu .add scratch base (.imm offset) :: .load .word target (.reg scratch) :: rest))
    (low : pc + 8 ≤ bound) (kept : CodeKept bound image memory)
    (high : (regs base).toNat + offset.toNat + 4 ≤ top) :
    Leads options pc regs memory (pc + 8)
      ((regs.set scratch (regs base + offset.zeroExtend 32)).set target
        (read32 memory ((regs base).toNat + offset.toNat))) memory := by
  have small := full.small
  have place : (regs base + offset.zeroExtend 32).toNat = (regs base).toNat + offset.toNat :=
    toNat_add_imm (by omega)
  have first : Leads options pc regs memory (pc + 4)
      (regs.set scratch (regs base + offset.zeroExtend 32)) memory :=
    leads_alu regs full within code (by omega) kept
  have second := leads_load (regs.set scratch (regs base + offset.zeroExtend 32)) full within
    code.tail (by omega) kept (by rw [Registers.set_same _ _ nonzero, place]; omega)
  rw [Registers.set_same _ _ nonzero, place] at second
  exact first.trans second

theorem leads_storeAt (regs : Registers) (full : FullAddressing options 0x400000)
    (within : bound ≤ 0x400000) {scratch base source : Fin 16} (nonzero : scratch ≠ 0)
    (other : source ≠ scratch) {offset : BitVec 16} {rest : List Operation}
    (code : OperationsAt image pc
      (.alu .add scratch base (.imm offset) :: .store .word (.reg scratch) source :: rest))
    (low : pc + 8 ≤ bound) (kept : CodeKept bound image memory)
    (above : bound ≤ (regs base).toNat + offset.toNat)
    (high : (regs base).toNat + offset.toNat + 4 ≤ 0x400000) :
    Leads options pc regs memory (pc + 8) (regs.set scratch (regs base + offset.zeroExtend 32))
      (write32 memory ((regs base).toNat + offset.toNat) (regs source)) ∧
    CodeKept bound image (write32 memory ((regs base).toNat + offset.toNat) (regs source)) := by
  have place : (regs base + offset.zeroExtend 32).toNat = (regs base).toNat + offset.toNat :=
    toNat_add_imm (by omega)
  have first : Leads options pc regs memory (pc + 4)
      (regs.set scratch (regs base + offset.zeroExtend 32)) memory :=
    leads_alu regs full within code (by omega) kept
  have second := leads_store (regs.set scratch (regs base + offset.zeroExtend 32)) full within
    code.tail (by omega) kept (by rw [Registers.set_same _ _ nonzero, place]; omega)
  rw [Registers.set_same _ _ nonzero, place, Registers.set_other _ _ other] at second
  exact ⟨first.trans second, kept.write32 above⟩

def SameBut (changed : List (Fin 16)) (first second : Registers) : Prop :=
  ∀ index, index ∉ changed → second index = first index

theorem leads_copies (regs : Registers) (full : FullAddressing options 0x400000)
    (within : bound ≤ 0x400000) (places : List (BitVec 16 × BitVec 16)) {rest : List Operation}
    (code : OperationsAt image pc (places.flatMap copyOps ++ rest))
    (low : pc + 16 * places.length ≤ bound) (kept : CodeKept bound image memory)
    (source : ∀ place ∈ places, (regs 1).toNat + place.1.toNat + 4 ≤ 0x400000)
    (target : ∀ place ∈ places, bound ≤ (regs 2).toNat + place.2.toNat ∧
      (regs 2).toNat + place.2.toNat + 4 ≤ 0x400000) :
    ∃ after, Leads options pc regs memory (pc + 16 * places.length) after
        (copyWords memory (regs 1).toNat (regs 2).toNat places) ∧
      SameBut [3, 4] regs after ∧
      CodeKept bound image (copyWords memory (regs 1).toNat (regs 2).toNat places) := by
  induction places generalizing pc memory regs with
  | nil => exact ⟨regs, .refl _ _ _ _, fun _ _ => rfl, kept⟩
  | cons place places ih =>
      simp only [List.length_cons] at low
      rw [List.flatMap_cons, List.append_assoc] at code
      have read := source place List.mem_cons_self
      obtain ⟨above, written⟩ := target place List.mem_cons_self
      have first := leads_loadAt regs full within (by decide) code (by omega) kept read
      generalize loaded : (regs.set 3 (regs 1 + place.1.zeroExtend 32)).set 4
        (read32 memory ((regs 1).toNat + place.1.toNat)) = middle at first
      have two : middle 2 = regs 2 := by
        rw [← loaded, Registers.set_other _ _ (by decide), Registers.set_other _ _ (by decide)]
      have four : middle 4 = read32 memory ((regs 1).toNat + place.1.toNat) := by
        rw [← loaded, Registers.set_same _ _ (by decide)]
      obtain ⟨second, kept⟩ := leads_storeAt middle full within (by decide) (by decide) code.tail.tail
        (by omega) kept (by rw [two]; exact above) (by rw [two]; exact written)
      rw [two, four] at second kept
      generalize stored : middle.set 3 (regs 2 + place.2.zeroExtend 32) = next at second
      have same : SameBut [3, 4] regs next := by
        intro index other
        simp only [List.mem_cons, List.not_mem_nil, or_false, not_or] at other
        rw [← stored, ← loaded, Registers.set_other _ _ other.1, Registers.set_other _ _ other.2,
          Registers.set_other _ _ other.1]
      have code : OperationsAt image (pc + 16) (places.flatMap copyOps ++ rest) := code.right
      have one' : next 1 = regs 1 := same 1 (by decide)
      have two' : next 2 = regs 2 := same 2 (by decide)
      obtain ⟨after, later, same', kept⟩ := ih next code (by omega) kept
        (fun place member => by rw [one']; exact source place (List.mem_cons_of_mem _ member))
        (fun place member => by rw [two']; exact target place (List.mem_cons_of_mem _ member))
      rw [one', two'] at later kept
      rw [show pc + 16 + 16 * places.length = pc + 16 * (places.length + 1) by omega] at later
      exact ⟨after, (first.trans second).trans later, fun index other =>
        (same' index other).trans (same index other), kept⟩

/-- The words of a record are loaded into registers other than the two that find it. -/
theorem leads_reloads (regs : Registers) (full : FullAddressing options 0x400000)
    (within : bound ≤ 0x400000) {places : List (Fin 16 × BitVec 16)} {rest : List Operation}
    (code : OperationsAt image pc (places.flatMap reloadOps ++ rest))
    (low : pc + 8 * places.length ≤ bound) (kept : CodeKept bound image memory)
    (source : ∀ place ∈ places, (regs 15).toNat + place.2.toNat + 4 ≤ 0x400000)
    (fresh : ∀ place ∈ places, place.1 ≠ 0 ∧ place.1 ≠ 13 ∧ place.1 ≠ 15)
    (distinct : (places.map Prod.fst).Nodup) :
    ∃ after, Leads options pc regs memory (pc + 8 * places.length) after memory ∧
      SameBut (13 :: places.map Prod.fst) regs after ∧
      ∀ place ∈ places, after place.1 = read32 memory ((regs 15).toNat + place.2.toNat) := by
  induction places generalizing pc regs with
  | nil => exact ⟨regs, .refl _ _ _ _, fun _ _ => rfl, nofun⟩
  | cons place places ih =>
      simp only [List.length_cons] at low
      rw [List.flatMap_cons, List.append_assoc] at code
      obtain ⟨nonzero, not13, not15⟩ := fresh place List.mem_cons_self
      obtain ⟨unused, distinct⟩ := List.nodup_cons.mp distinct
      have first := leads_loadAt regs full within (by decide) code (by omega) kept
        (source place List.mem_cons_self)
      generalize loaded : (regs.set 13 (regs 15 + place.2.zeroExtend 32)).set place.1
        (read32 memory ((regs 15).toNat + place.2.toNat)) = middle at first
      have base : middle 15 = regs 15 := by
        rw [← loaded, Registers.set_other _ _ (Ne.symm not15), Registers.set_other _ _ (by decide)]
      have value : middle place.1 = read32 memory ((regs 15).toNat + place.2.toNat) := by
        rw [← loaded, Registers.set_same _ _ nonzero]
      have code : OperationsAt image (pc + 8) (places.flatMap reloadOps ++ rest) := code.right
      obtain ⟨after, later, same, values⟩ := ih middle code (by omega)
        (fun place member => by rw [base]; exact source place (List.mem_cons_of_mem _ member))
        (fun place member => fresh place (List.mem_cons_of_mem _ member)) distinct
      rw [base] at values
      rw [show pc + 8 + 8 * places.length = pc + 8 * (places.length + 1) by omega] at later
      refine ⟨after, first.trans later, fun index other => ?_, fun found member => ?_⟩
      · simp only [List.map_cons, List.mem_cons, not_or] at other
        rw [same index (by simp only [List.mem_cons, not_or]; exact ⟨other.1, other.2.2⟩), ← loaded,
          Registers.set_other _ _ other.2.1, Registers.set_other _ _ other.1]
      · rcases List.mem_cons.mp member with rfl | member
        · rw [same _ (by simp only [List.mem_cons, not_or]; exact ⟨not13, unused⟩), value]
        · exact values found member

theorem toNat_zeroExtend_half {half : Nat} (small : half < 2 ^ 16) :
    ((BitVec.ofNat 16 half).zeroExtend 32).toNat = half := by
  rw [BitVec.toNat_setWidth, BitVec.toNat_ofNat]
  omega

theorem joined_halves {addr : Nat} (small : addr < 2 ^ 32) :
    ((BitVec.ofNat 16 (addr / 2 ^ 16)).zeroExtend 32 <<< 16) |||
      (BitVec.ofNat 16 (addr % 2 ^ 16)).zeroExtend 32 = BitVec.ofNat 32 addr := by
  refine BitVec.eq_of_toNat_eq ?_
  have shifted : ((BitVec.ofNat 16 (addr / 2 ^ 16)).zeroExtend 32 <<< 16).toNat =
      addr / 2 ^ 16 * 2 ^ 16 := by
    rw [BitVec.toNat_shiftLeft, toNat_zeroExtend_half (by omega), Nat.shiftLeft_eq]
    omega
  rw [BitVec.toNat_or, shifted, toNat_zeroExtend_half (Nat.mod_lt _ (by decide)), BitVec.toNat_ofNat,
    ← Nat.shiftLeft_eq, ← Nat.shiftLeft_add_eq_or_of_lt (Nat.mod_lt _ (by decide)), Nat.shiftLeft_eq]
  omega

theorem apply_lsl_imm (regs : Registers) (value : BitVec 32) :
    AluOp.lsl.apply value ((Source.imm 16).read regs) = value <<< 16 := by
  rw [AluOp.apply, Source.read, show (16 : BitVec 16).zeroExtend 32 &&& 31 = 16#32 by decide]
  rfl

/-- The two halves of a constant, as `mov`, `lsl` and `or` put them into a register. -/
theorem leads_constant (regs : Registers) {top : Nat} (full : FullAddressing options top)
    (within : bound ≤ top) {target : Fin 16} (nonzero : target ≠ 0) {high low : BitVec 16}
    {rest : List Operation}
    (code : OperationsAt image pc (.move target (.imm high) :: .alu .lsl target target (.imm 16) ::
      .alu .or target target (.imm low) :: rest))
    (below : pc + 12 ≤ bound) (kept : CodeKept bound image memory) :
    Leads options pc regs memory (pc + 12)
      (regs.set target (high.zeroExtend 32 <<< 16 ||| low.zeroExtend 32)) memory := by
  have first : Leads options pc regs memory (pc + 4) (regs.set target (high.zeroExtend 32)) memory :=
    leads_move regs full within code (by omega) kept
  have second : Leads options (pc + 4) (regs.set target (high.zeroExtend 32)) memory (pc + 8)
      (regs.set target (high.zeroExtend 32 <<< 16)) memory := by
    have step := leads_alu (regs.set target (high.zeroExtend 32)) full within code.tail (by omega)
      kept
    rwa [Registers.set_set, Registers.set_same _ _ nonzero, apply_lsl_imm] at step
  have third := leads_alu (regs.set target (high.zeroExtend 32 <<< 16)) full within code.tail.tail
    (by omega) kept
  rw [Registers.set_set, Registers.set_same _ _ nonzero] at third
  exact (first.trans second).trans third

/-- The jump through `r13` goes to its target. -/
theorem leads_jumpTo (regs : Registers) {top : Nat} (full : FullAddressing options top)
    (within : bound ≤ top) {addr : Nat} (small : addr < 2 ^ 32) {rest : List Operation}
    (code : OperationsAt image pc (jumpOps addr ++ rest)) (low : pc + 16 ≤ bound)
    (kept : CodeKept bound image memory) (other : addr ≠ pc + 12) :
    Leads options pc regs memory addr (regs.set 13 (BitVec.ofNat 32 addr)) memory := by
  have joined := leads_constant regs full within (by decide) code (by omega) kept
  rw [joined_halves small] at joined
  have place : ((regs.set 13 (BitVec.ofNat 32 addr)) 13).toNat = addr := by
    rw [Registers.set_same _ _ (by decide), BitVec.toNat_ofNat]
    exact Nat.mod_eq_of_lt small
  have last := leads_jump (regs.set 13 (BitVec.ofNat 32 addr)) full within
    code.tail.tail.tail (by omega) kept (by rw [place]; omega)
  rw [place] at last
  exact joined.trans last

/-- A call pushes the address after it. -/
theorem leads_call (regs : Registers) (full : FullAddressing options 0x400000)
    (within : bound ≤ 0x400000) {addr : Nat} (small : addr < 2 ^ 32) {rest : List Operation}
    (code : OperationsAt image pc (callOps addr ++ rest)) (low : pc + 32 ≤ bound)
    (kept : CodeKept bound image memory) (other : addr ≠ pc + 28)
    (room : bound + 4 ≤ (regs 14).toNat) (high : (regs 14).toNat ≤ 0x400000) :
    Leads options pc regs memory addr
      (((regs.set 15 (BitVec.ofNat 32 (pc + 32))).set 14 (regs 14 - BitVec.ofNat 32 4)).set 13
        (BitVec.ofNat 32 addr))
      (write32 memory ((regs 14).toNat - 4) (BitVec.ofNat 32 (pc + 32))) ∧
    CodeKept bound image (write32 memory ((regs 14).toNat - 4) (BitVec.ofNat 32 (pc + 32))) := by
  have here := leads_counter regs full within code (by omega) kept
  have counted : Leads options (pc + 4) (regs.set 15 (BitVec.ofNat 32 pc)) memory (pc + 8)
      (regs.set 15 (BitVec.ofNat 32 (pc + 32))) memory := by
    have step := leads_alu (regs.set 15 (BitVec.ofNat 32 pc)) full within code.tail (by omega) kept
    rw [Registers.set_set, Registers.set_same _ _ (by decide)] at step
    rwa [BitVec.ofNat_add]
  have stack : (regs.set 15 (BitVec.ofNat 32 (pc + 32))) 14 = regs 14 :=
    Registers.set_other _ _ (by decide)
  have pushCode : OperationsAt image (pc + 8) (pushOps 15 ++ (jumpOps addr ++ rest)) :=
    code.tail.tail
  obtain ⟨pushed, kept⟩ := leads_push (regs.set 15 (BitVec.ofNat 32 (pc + 32))) full within
    (by decide) pushCode (by omega) kept (by rw [stack]; exact room) (by rw [stack]; exact high)
  rw [stack, Registers.set_same _ _ (by decide)] at pushed kept
  have jumpCode : OperationsAt image (pc + 16) (jumpOps addr ++ rest) := pushCode.right
  have last := leads_jumpTo ((regs.set 15 (BitVec.ofNat 32 (pc + 32))).set 14
    (regs 14 - BitVec.ofNat 32 4)) full within small jumpCode (by omega) kept (by omega)
  exact ⟨((here.trans counted).trans pushed).trans last, kept⟩

end Pieces

end SymphonyPlus
