import SymphonyPlus.StraightCode
import SymphonyPlus.BitRanges
import SymphonyPlus.Tokenize

/-!
Bit-fields: `gen_num_reg`, `gen_load_bitfield` and `gen_store_bitfield` of `symcc/src/codegen.c`, and
the packing of `init_bytes` in `symcc/src/parse.c`.
-/

namespace SymphonyPlus

open ByteMemory BitRanges

/-- `none` is the error `err_imm`. -/
def genNumReg (build : Build) (reg : Fin 16) (val : Int) : Option (List Operation) :=
  if build = .host ∧ (val > 0xFFFFFFFF ∨ val < 0) then none
  else
    let hi := BitVec.ofInt 16 (val >>> (16 : Nat))
    let lo := BitVec.ofInt 16 val
    if hi ≠ 0 then
      some ([.move reg (.imm hi), .alu .lsl reg reg (.imm 16)] ++
        if lo ≠ 0 then [.alu .or reg reg (.imm lo)] else [])
    else some [.move reg (.imm lo)]

/-- Position and signedness of a bit-field in its unit, as the nodes carry them. -/
structure BitField where
  offset : Nat
  width : Nat
  isUnsigned : Bool
  fits : offset + width ≤ 32

def BitField.shift (field : BitField) : Nat := 32 - field.offset - field.width

def fieldMask (build : Build) (width : Nat) : Int :=
  if width ≥ 32 then build.toCcInt 0xFFFFFFFF else build.toCcInt (build.toCcInt (2 ^ width) - 1)

def emitIf (condition : Bool) (code : Option (List Operation)) : Option (List Operation) :=
  if condition then code else some []

def genLoadBitfield (build : Build) (field : BitField) : Option (List Operation) := do
  let mask := fieldMask build field.width
  let shifted ← emitIf (field.shift > 0)
    ((genNumReg build 2 field.shift).map (· ++ [.alu .lsr 1 1 (.reg 2)]))
  let masked ← emitIf (mask ≠ build.toCcInt 0xFFFFFFFF)
    ((genNumReg build 2 mask).map (· ++ [.alu .and 1 1 (.reg 2)]))
  let extended ← emitIf (!field.isUnsigned && field.width < 32)
    (some [.alu .lsl 1 1 (.imm (BitVec.ofNat 16 (32 - field.width))),
      .alu .asr 1 1 (.imm (BitVec.ofNat 16 (32 - field.width)))])
  return [.load .word 1 (.reg 9)] ++ shifted ++ masked ++ extended

def genStoreBitfield (build : Build) (field : BitField) : Option (List Operation) := do
  let mask ← genNumReg build 3 (fieldMask build field.width)
  let up := BitVec.ofNat 16 field.shift
  let value ← emitIf (field.shift > 0) (some [.alu .lsl 1 1 (.imm up)])
  let place ← emitIf (field.shift > 0) (some [.alu .lsl 3 3 (.imm up)])
  let ones ← genNumReg build 4 (build.toCcInt 0xFFFFFFFF)
  return [.load .word 2 (.reg 9)] ++ mask ++ [.alu .and 1 1 (.reg 3)] ++ value ++ place ++ ones ++
    [.alu .xor 3 3 (.reg 4), .alu .and 2 2 (.reg 3), .alu .or 2 2 (.reg 1), .store .word (.reg 9) 2]

def BitField.stored (field : BitField) (unit : BitVec 32) : BitVec field.width :=
  unit.extractLsb' field.shift field.width

def BitField.extend (field : BitField) (value : BitVec field.width) : BitVec 32 :=
  if field.isUnsigned then value.setWidth 32 else value.signExtend 32

theorem BitField.shift_add_width (field : BitField) :
    field.shift + field.width = 32 - field.offset := by
  have fits := field.fits
  simp only [BitField.shift]
  omega

theorem Build.ofInt_toCcInt (build : Build) (value : Int) :
    BitVec.ofInt 32 (build.toCcInt value) = BitVec.ofInt 32 value := by
  apply BitVec.eq_of_toInt_eq
  cases build with
  | host =>
      rw [Build.toCcInt, BitVec.toInt_ofInt, BitVec.toInt_ofInt]
      exact Int.bmod_bmod_of_dvd (Nat.pow_dvd_pow 2 (by decide))
  | native =>
      rw [Build.toCcInt, BitVec.toInt_ofInt, BitVec.toInt_ofInt]
      exact Int.bmod_bmod

theorem fieldMask_bits (build : Build) (width : Nat) :
    BitVec.ofInt 32 (fieldMask build width) = BitRanges.mask 32 width := by
  rw [fieldMask]
  split
  · rename_i full
    rw [Build.ofInt_toCcInt, mask_full full]
    decide
  · have cast : (2 ^ width : Int) + -1 = ((2 ^ width - 1 : Nat) : Int) := by
      rw [Int.natCast_sub (Nat.two_pow_pos width)]
      simp [Int.sub_eq_add_neg]
    rw [Build.ofInt_toCcInt, Int.sub_eq_add_neg, BitVec.ofInt_add, Build.ofInt_toCcInt,
      ← BitVec.ofInt_add, cast, BitVec.ofInt_natCast, BitRanges.mask]

/-- The number that the host's check lets pass. -/
def Build.Fits (build : Build) (val : Int) : Prop := build = .host → 0 ≤ val ∧ val ≤ 0xFFFFFFFF

theorem fieldMask_fits (build : Build) (width : Nat) : build.Fits (fieldMask build width) := by
  rintro rfl
  rw [fieldMask]
  split
  · decide
  · rename_i narrow
    have small : (2 : Int) ^ width ≤ 2 ^ 31 := by
      exact_mod_cast Nat.pow_le_pow_right (by decide : 0 < 2) (by omega : width ≤ 31)
    have positive : (0 : Int) < 2 ^ width := Int.pow_pos (by decide)
    have powered : Build.host.toCcInt (2 ^ width) = 2 ^ width := by
      rw [Build.toCcInt, Build.bits, Int.bmod_def]
      omega
    rw [powered, Build.toCcInt, Build.bits, Int.bmod_def]
    omega

theorem ofInt_low (val : Int) : BitVec.ofInt 16 val = (BitVec.ofInt 32 val).truncate 16 := by
  apply BitVec.eq_of_toNat_eq
  simp only [BitVec.toNat_ofInt, BitVec.toNat_setWidth]
  omega

theorem ofInt_high (val : Int) :
    BitVec.ofInt 16 (val >>> (16 : Nat)) = (BitVec.ofInt 32 val).extractLsb' 16 16 := by
  apply BitVec.eq_of_toNat_eq
  rw [Int.shiftRight_eq_div_pow]
  simp only [BitVec.toNat_ofInt, BitVec.extractLsb'_toNat, Nat.shiftRight_eq_div_pow]
  omega

/-- The code leaves `value` in `r1` and uses no other register than `r2`. -/
structure Yields (work after : Work) (value : BitVec 32) : Prop where
  result : after.regs 1 = value
  others : ∀ reg, reg ≠ 1 → reg ≠ 2 → after.regs reg = work.regs reg
  memory : after.memory = work.memory

theorem Yields.trans {work middle after : Work} {first second : BitVec 32}
    (left : Yields work middle first) (right : Yields middle after second) :
    Yields work after second where
  result := right.result
  others reg not1 not2 := (right.others reg not1 not2).trans (left.others reg not1 not2)
  memory := right.memory.trans left.memory

theorem emitIf_some {condition : Bool} {code : Option (List Operation)} {Good : List Operation → Prop}
    (taken : condition = true → ∃ operations, code = some operations ∧ Good operations)
    (skipped : condition = false → Good []) :
    ∃ operations, emitIf condition code = some operations ∧ Good operations := by
  cases condition with
  | true => exact taken rfl
  | false => exact ⟨[], rfl, skipped rfl⟩

theorem genNumReg_run (ram : Ram) {build : Build} {reg : Fin 16} {val : Int} (nonzero : reg ≠ 0)
    (fits : build.Fits val) :
    ∃ code, genNumReg build reg val = some code ∧
      ∀ work, runCode ram code work = some (work.set reg (BitVec.ofInt 32 val)) := by
  have allowed : ¬(build = .host ∧ (val > 0xFFFFFFFF ∨ val < 0)) := by
    rintro ⟨host, outside⟩
    have inside := fits host
    omega
  have joined := halves_join (BitVec.ofInt 32 val)
  rw [← ofInt_high, ← ofInt_low] at joined
  have shift : (16 : BitVec 16).zeroExtend 32 &&& 31 = 16#32 := by decide
  rw [genNumReg, if_neg allowed]
  simp only
  generalize BitVec.ofInt 16 (val >>> (16 : Nat)) = hi at joined ⊢
  generalize BitVec.ofInt 16 val = lo at joined ⊢
  rw [← joined]
  split
  · split
    · refine ⟨_, rfl, fun work => ?_⟩
      simp only [List.cons_append, List.nil_append, runCode_cons, runCode_nil, Operation.work,
        Option.bind_some, Source.read, AluOp.apply, Work.set_same _ _ nonzero, Work.set_set, shift]
      rfl
    · rename_i none
      refine ⟨_, rfl, fun work => ?_⟩
      rw [not_not] at none
      simp [runCode_cons, runCode_nil, Operation.work, Source.read, AluOp.apply,
        Work.set_same _ _ nonzero, Work.set_set, none]
  · rename_i none
    refine ⟨_, rfl, fun work => ?_⟩
    rw [not_not] at none
    simp [runCode_cons, runCode_nil, Operation.work, Source.read, none]

theorem genNumReg_runs (ram : Ram) {build : Build} {reg : Fin 16} {val : Int} (nonzero : reg ≠ 0)
    {code : List Operation} (emitted : genNumReg build reg val = some code) (work : Work) :
    runCode ram code work = some (work.set reg (BitVec.ofInt 32 val)) := by
  have fits : build.Fits val := by
    intro host
    by_contra outside
    rw [genNumReg, if_pos ⟨host, by omega⟩] at emitted
    cases emitted
  obtain ⟨code', emitted', runs⟩ := genNumReg_run ram nonzero fits
  cases Option.some.inj (emitted.symm.trans emitted')
  exact runs work

/-- A value that the code finds in `r1` is taken to `next` of it. -/
def Turns (ram : Ram) (next : BitVec 32 → BitVec 32) (code : List Operation) : Prop :=
  ∀ work, ∃ after, runCode ram code work = some after ∧ Yields work after (next (work.regs 1))

theorem turns_nil (ram : Ram) : Turns ram id [] :=
  fun work => ⟨work, rfl, rfl, fun _ _ _ => rfl, rfl⟩

theorem Turns.congr {ram : Ram} {next next₂ : BitVec 32 → BitVec 32} {code : List Operation}
    (turns : Turns ram next code) (same : ∀ word, next word = next₂ word) : Turns ram next₂ code := by
  rw [show next₂ = next from funext fun word => (same word).symm]
  exact turns

theorem Turns.append {ram : Ram} {next next₂ : BitVec 32 → BitVec 32} {code code₂ : List Operation}
    (left : Turns ram next code) (right : Turns ram next₂ code₂) :
    Turns ram (next₂ ∘ next) (code ++ code₂) := by
  intro work
  obtain ⟨middle, first, yields⟩ := left work
  obtain ⟨after, second, yields₂⟩ := right middle
  refine ⟨after, ?_, ?_⟩
  · rw [runCode_append, first, Option.bind_some, second]
  · rw [yields.result] at yields₂
    exact yields.trans yields₂

theorem turns_alu (ram : Ram) (op : AluOp) (value : BitVec 16) :
    Turns ram (fun word => op.apply word (value.zeroExtend 32)) [.alu op 1 1 (.imm value)] := by
  intro work
  refine ⟨_, rfl, ?_, fun reg not1 _ => ?_, rfl⟩
  · exact Work.set_same _ _ (by decide)
  · exact Registers.set_other _ _ not1

theorem turns_number (ram : Ram) (op : AluOp) {build : Build} {val : Int} (fits : build.Fits val) :
    ∃ code, (genNumReg build 2 val).map (· ++ [.alu op 1 1 (.reg 2)]) = some code ∧
      Turns ram (fun word => op.apply word (BitVec.ofInt 32 val)) code := by
  obtain ⟨number, emitted, runs⟩ := @genNumReg_run ram build 2 _ (by decide) fits
  refine ⟨_, by rw [emitted, Option.map_some], fun work => ⟨((work.set 2 (BitVec.ofInt 32 val)).set 1
    (op.apply (work.regs 1) (BitVec.ofInt 32 val))), ?_, ?_, fun reg not1 not2 => ?_, rfl⟩⟩
  · rw [runCode_append, runs, Option.bind_some, runCode_cons, Operation.work, Source.read,
      Work.set_same _ _ (by decide)]
    simp [Work.set_regs, runCode_nil]
  · exact Work.set_same _ _ (by decide)
  · simp [Work.set_regs, not1, not2]

theorem shift_amount {amount : Nat} (small : amount < 32) :
    (BitVec.ofNat 32 amount &&& 31).toNat = amount := by
  rw [BitVec.toNat_and, BitVec.toNat_ofNat, Nat.mod_eq_of_lt (by omega)]
  exact (Nat.and_two_pow_sub_one_eq_mod amount 5).trans (Nat.mod_eq_of_lt small)

theorem BitVec.zeroExtend_ofNat {amount : Nat} (small : amount < 2 ^ 16) :
    (BitVec.ofNat 16 amount).zeroExtend 32 = BitVec.ofNat 32 amount := by
  apply BitVec.eq_of_toNat_eq
  rw [BitVec.toNat_setWidth, BitVec.toNat_ofNat, BitVec.toNat_ofNat]
  omega

/-- `lsr` by the field's shift and `and` with its mask read the field. -/
theorem read_field (field : BitField) (unit : BitVec 32) :
    AluOp.lsr.apply unit (BitVec.ofInt 32 field.shift) &&& BitRanges.mask 32 field.width =
      (field.stored unit).setWidth 32 := by
  rw [BitField.stored, ← shift_and_mask, AluOp.apply, BitVec.ofInt_natCast]
  by_cases small : field.shift < 32
  · rw [BitVec.ushiftRight_eq', shift_amount small]
  · have fits := field.shift_add_width
    have empty : BitRanges.mask 32 field.width = 0#32 := by
      rw [show field.width = 0 by omega]
      decide
    rw [empty, BitVec.and_zero, BitVec.and_zero]

theorem extend_field (field : BitField) (value : BitVec field.width) (signed : field.isUnsigned = false) :
    AluOp.asr.apply (AluOp.lsl.apply (value.setWidth 32) (BitVec.ofNat 32 (32 - field.width)))
      (BitVec.ofNat 32 (32 - field.width)) = field.extend value := by
  have fits := field.fits
  rw [BitField.extend, signed, AluOp.apply, AluOp.apply]
  by_cases empty : field.width = 0
  · have zero : value.setWidth 32 = 0#32 ∧ value.signExtend 32 = 0#32 := by
      generalize field.width = width at empty value
      subst empty
      exact ⟨by rw [BitVec.of_length_zero (x := value)]; rfl,
        by rw [BitVec.of_length_zero (x := value)]; rfl⟩
    rw [zero.1]
    simp [zero.2]
  · rw [BitVec.shiftLeft_eq', shift_amount (by omega), shifts_signExtend _ (by omega)]
    rfl

theorem genLoadBitfield_run (ram : Ram) (build : Build) (field : BitField) :
    ∃ code, genLoadBitfield build field = some code ∧
      ∀ work, (work.regs 9).toNat + 4 ≤ ram.top → ∃ after, runCode ram code work = some after ∧
        Yields work after
          (field.extend (field.stored (read32 work.memory (work.regs 9).toNat))) := by
  have fits := field.shift_add_width
  obtain ⟨shifted, isShifted, turnsShifted⟩ : ∃ code, emitIf (field.shift > 0)
      ((genNumReg build 2 field.shift).map (· ++ [.alu .lsr 1 1 (.reg 2)])) = some code ∧
      Turns ram (AluOp.lsr.apply · (BitVec.ofInt 32 field.shift)) code := by
    refine emitIf_some (fun _ => turns_number ram .lsr fun _ => ?_) fun none => ?_
    · omega
    · have zero : field.shift = 0 := by simpa using none
      refine (turns_nil ram).congr fun word => ?_
      simp [zero, AluOp.apply]
  obtain ⟨masked, isMasked, turnsMasked⟩ : ∃ code,
      emitIf (fieldMask build field.width ≠ build.toCcInt 0xFFFFFFFF)
        ((genNumReg build 2 (fieldMask build field.width)).map (· ++ [.alu .and 1 1 (.reg 2)])) =
          some code ∧ Turns ram (· &&& BitRanges.mask 32 field.width) code := by
    rw [← fieldMask_bits build]
    refine emitIf_some (fun _ => turns_number ram .and (fieldMask_fits build _)) fun none => ?_
    have ones : fieldMask build field.width = build.toCcInt 0xFFFFFFFF := by simpa using none
    refine (turns_nil ram).congr fun word => ?_
    rw [ones, Build.ofInt_toCcInt, show BitVec.ofInt 32 0xFFFFFFFF = BitVec.allOnes 32 by decide,
      BitVec.and_allOnes, id]
  obtain ⟨extended, isExtended, turnsExtended⟩ : ∃ code,
      emitIf (!field.isUnsigned && field.width < 32)
        (some [.alu .lsl 1 1 (.imm (BitVec.ofNat 16 (32 - field.width))),
          .alu .asr 1 1 (.imm (BitVec.ofNat 16 (32 - field.width)))]) = some code ∧
        ∃ next, Turns ram next code ∧
          ∀ value : BitVec field.width, next (value.setWidth 32) = field.extend value := by
    refine emitIf_some (fun taken => ⟨_, rfl, _, (turns_alu ram .lsl _).append (turns_alu ram .asr _),
      fun value => ?_⟩) fun none => ⟨_, turns_nil ram, fun value => ?_⟩
    · simp only [Bool.and_eq_true, Bool.not_eq_true', decide_eq_true_eq] at taken
      rw [Function.comp, BitVec.zeroExtend_ofNat (by omega), extend_field _ _ taken.1]
    · simp only [Bool.and_eq_false_iff, Bool.not_eq_false', decide_eq_false_iff_not] at none
      rw [BitField.extend]
      split
      · rfl
      · rename_i signed
        have full : field.width = 32 := by
          have bound := field.fits
          rcases none with isUnsigned | wide
          · exact absurd isUnsigned signed
          · omega
        generalize field.width = width at full value
        subst full
        simp
  obtain ⟨next, turnsNext, extending⟩ := turnsExtended
  refine ⟨_, by simp only [genLoadBitfield, isShifted, isMasked, isExtended]; rfl, fun work inside => ?_⟩
  obtain ⟨after, runs, yields⟩ := ((turnsShifted.append turnsMasked).append turnsNext)
    (work.set 1 (read32 work.memory (work.regs 9).toNat))
  refine ⟨after, ?_, ?_, fun reg not1 not2 => ?_, ?_⟩
  · rw [List.append_assoc, List.append_assoc, List.singleton_append, runCode_cons,
      @work_load _ .word 1 _ _ inside, Option.bind_some, ← List.append_assoc]
    exact runs
  · rw [yields.result, Work.set_same _ _ (by decide), Function.comp, Function.comp, read_field,
      extending]
  · rw [yields.others reg not1 not2, Work.set_regs, if_neg (fun both => not1 both.1)]
  · exact yields.memory

theorem emitIf_shift (ram : Ram) (field : BitField) (reg : Fin 16) :
    ∃ code, emitIf (field.shift > 0)
        (some [.alu .lsl reg reg (.imm (BitVec.ofNat 16 field.shift))]) = some code ∧
      ∀ work, runCode ram code work =
        some (work.set reg (AluOp.lsl.apply (work.regs reg) (BitVec.ofNat 32 field.shift))) := by
  have fits := field.shift_add_width
  refine emitIf_some (fun _ => ⟨_, rfl, fun work => ?_⟩) fun none work => ?_
  · rw [← BitVec.zeroExtend_ofNat (by omega)]
    rfl
  · have zero : field.shift = 0 := by simpa using none
    have same : AluOp.lsl.apply (work.regs reg) (BitVec.ofNat 32 0) = work.regs reg := by
      simp [AluOp.apply]
    rw [zero, same, Work.set_self, runCode_nil]

/-- `lsl` moves what the mask leaves to the field's place. -/
theorem place_field (field : BitField) (word : BitVec 32) :
    AluOp.lsl.apply (word &&& BitRanges.mask 32 field.width) (BitVec.ofNat 32 field.shift) =
      (word &&& BitRanges.mask 32 field.width) <<< field.shift := by
  rw [AluOp.apply]
  by_cases small : field.shift < 32
  · rw [BitVec.shiftLeft_eq', shift_amount small]
  · have fits := field.shift_add_width
    have empty : BitRanges.mask 32 field.width = 0#32 := by
      rw [show field.width = 0 by omega]
      decide
    simp [empty]

theorem written_unit (field : BitField) (unit value : BitVec 32) :
    AluOp.or.apply (AluOp.and.apply unit (AluOp.xor.apply
        (AluOp.lsl.apply (BitRanges.mask 32 field.width) (BitVec.ofNat 32 field.shift))
        (BitVec.allOnes 32)))
      (AluOp.lsl.apply (AluOp.and.apply value (BitRanges.mask 32 field.width))
        (BitVec.ofNat 32 field.shift)) =
      replace unit field.shift field.width value := by
  have place := place_field field (BitVec.allOnes 32)
  rw [BitVec.allOnes_and] at place
  rw [replace, place, AluOp.apply, AluOp.apply, AluOp.apply, AluOp.apply, place_field,
    BitVec.xor_allOnes]

theorem genStoreBitfield_run (ram : Ram) (build : Build) (field : BitField) :
    ∃ code, genStoreBitfield build field = some code ∧
      ∀ work, ram.low ≤ (work.regs 9).toNat ∧ (work.regs 9).toNat + 4 ≤ ram.top →
        ∃ after, runCode ram code work = some after ∧
          after.memory = write32 work.memory (work.regs 9).toNat
            (replace (read32 work.memory (work.regs 9).toNat) field.shift field.width
              (work.regs 1)) ∧
          after.regs 1 = (work.regs 1 &&& BitRanges.mask 32 field.width) <<< field.shift ∧
          ∀ reg, reg ∉ [1, 2, 3, 4] → after.regs reg = work.regs reg := by
  obtain ⟨mask, isMask, runsMask⟩ := @genNumReg_run ram build 3 _ (by decide)
    (fieldMask_fits build field.width)
  obtain ⟨value, isValue, runsValue⟩ := emitIf_shift ram field 1
  obtain ⟨place, isPlace, runsPlace⟩ := emitIf_shift ram field 3
  obtain ⟨ones, isOnes, runsOnes⟩ := @genNumReg_run ram build 4 (build.toCcInt 0xFFFFFFFF)
    (by decide) (by rintro rfl; decide)
  refine ⟨_, by simp only [genStoreBitfield, isMask, isValue, isPlace, isOnes]; rfl,
    fun work inside => ?_⟩
  rw [fieldMask_bits] at runsMask
  rw [Build.ofInt_toCcInt, show BitVec.ofInt 32 0xFFFFFFFF = BitVec.allOnes 32 by decide] at runsOnes
  have load := @work_load _ .word 2 _ _ inside.2
  simp only [runCode_append, runCode_cons, load, Option.bind_some, runCode_nil, runsMask, runsValue,
    runsPlace, runsOnes, work_alu]
  rw [@work_store _ .word _ 2 _ (by simpa [Work.set_regs, Width.bytes] using inside)]
  refine ⟨_, rfl, ?_, ?_, fun reg other => ?_⟩
  · simp only [← written_unit, Work.set_memory]
    simp [Work.set_regs, Source.read, Width.store, Width.load]
  · simp only [Work.set_regs, Source.read]
    exact place_field field (work.regs 1)
  · simp only [List.mem_cons, List.not_mem_nil, or_false, not_or] at other
    simp [Work.set_regs, other]

def initBitfield (buf : Memory) (u : Nat) (field : BitField) (v : Int) : Memory :=
  let unit := ((buf u).zeroExtend 32 <<< 24) ||| ((buf (u + 1)).zeroExtend 32 <<< 16) |||
    ((buf (u + 2)).zeroExtend 32 <<< 8) ||| (buf (u + 3)).zeroExtend 32
  let mask : BitVec 32 := if field.width ≥ 32 then 0xFFFFFFFF else (1#32 <<< field.width) - 1#32
  let unit := (unit &&& ~~~(mask <<< field.shift)) |||
    ((BitVec.ofInt 32 v &&& mask) <<< field.shift)
  write8 (write8 (write8 (write8 buf u ((unit >>> 24).truncate 8))
    (u + 1) ((unit >>> 16).truncate 8)) (u + 2) ((unit >>> 8).truncate 8)) (u + 3) (unit.truncate 8)

structure FieldValue where
  unit : Nat
  field : BitField
  value : Int

def initBitfields (buf : Memory) (values : List FieldValue) : Memory :=
  values.foldl (fun buf entry => initBitfield buf entry.unit entry.field entry.value) buf

def storeBitfields (ram : Ram) (build : Build) (base : Nat) (values : List FieldValue) (work : Work) :
    Option Work :=
  values.foldlM (fun work entry => (genStoreBitfield build entry.field).bind fun code =>
    runCode ram code ((work.set 9 (BitVec.ofNat 32 (base + entry.unit))).set 1
      (BitVec.ofInt 32 entry.value))) work

theorem joined_bytes (first second third fourth : BitVec 8) :
    (first.zeroExtend 32 <<< 24) ||| (second.zeroExtend 32 <<< 16) |||
      (third.zeroExtend 32 <<< 8) ||| fourth.zeroExtend 32 =
        (first ++ second ++ third ++ fourth : BitVec 32) := by
  apply BitVec.eq_of_getLsbD_eq
  intro i bound
  simp only [BitVec.getLsbD_or, BitVec.getLsbD_shiftLeft, BitVec.getLsbD_setWidth,
    BitVec.getLsbD_append]
  grind

theorem initBitfield_eq (buf : Memory) (u : Nat) (field : BitField) (v : Int) :
    initBitfield buf u field v = write32 buf u
      (replace (read32 buf u) field.shift field.width (BitVec.ofInt 32 v)) := by
  have masked : (if field.width ≥ 32 then 0xFFFFFFFF else (1#32 <<< field.width) - 1#32) =
      BitRanges.mask 32 field.width := by
    split
    · rename_i full
      rw [mask_full full]
      decide
    · rename_i narrow
      have small : 2 ^ field.width ≤ 2 ^ 31 := Nat.pow_le_pow_right (by decide) (by omega)
      have positive : 0 < 2 ^ field.width := Nat.two_pow_pos _
      apply BitVec.eq_of_toNat_eq
      rw [BitVec.toNat_sub, BitVec.toNat_shiftLeft, BitRanges.mask, BitVec.toNat_ofNat,
        BitVec.toNat_ofNat, Nat.shiftLeft_eq, Nat.mod_eq_of_lt (by decide : 1 < 2 ^ 32), Nat.one_mul]
      omega
  have byte (unit : BitVec 32) (start : Nat) :
      (unit >>> start).truncate 8 = unit.extractLsb' start 8 := by
    apply BitVec.eq_of_getLsbD_eq
    intro i bound
    simp [bound]
  have lowest (unit : BitVec 32) : unit.truncate 8 = unit.extractLsb' 0 8 :=
    BitVec.setWidth_eq_extractLsb' (by decide)
  simp only [initBitfield, masked, joined_bytes, byte, lowest]
  rfl

def BitField.Disjoint (first second : BitField) : Prop :=
  first.offset + first.width ≤ second.offset ∨ second.offset + second.width ≤ first.offset

def BitField.Covers (field : BitField) (bit : Nat) : Prop :=
  field.shift ≤ bit ∧ bit < field.shift + field.width

theorem BitField.stored_replace (field : BitField) (unit value : BitVec 32) :
    field.stored (replace unit field.shift field.width value) = value.truncate field.width := by
  have fits := field.shift_add_width
  exact extract_replace unit value (by omega)

theorem BitField.stored_replace_disjoint {field other : BitField} (disjoint : field.Disjoint other)
    (unit value : BitVec 32) :
    other.stored (replace unit field.shift field.width value) = other.stored unit := by
  have fits := field.shift_add_width
  have otherFits := other.shift_add_width
  have bound := field.fits
  have otherBound := other.fits
  refine extract_replace_disjoint unit value ?_ (by omega)
  rcases disjoint with first | second
  · right
    omega
  · left
    omega

theorem replace_uncovered (field : BitField) (unit value : BitVec 32) {bit : Nat} (bound : bit < 32)
    (outside : ¬field.Covers bit) :
    (replace unit field.shift field.width value).getLsbD bit = unit.getLsbD bit :=
  (getLsbD_replace _ _ _ _ bound).trans (if_neg outside)

/-- Memories that agree over a window, which begins at `base` in the one and at zero in the other. -/
def SameWindow (base size : Nat) (memory buf : Memory) : Prop :=
  ∀ i < size, memory (base + i) = buf i

theorem SameWindow.read32 {base size : Nat} {memory buf : Memory}
    (same : SameWindow base size memory buf) {u : Nat} (inside : u + 4 ≤ size) :
    read32 memory (base + u) = read32 buf u := by
  simp only [ByteMemory.read32, Nat.add_assoc]
  rw [same u (by omega), same (u + 1) (by omega), same (u + 2) (by omega), same (u + 3) (by omega)]

theorem SameWindow.write32 {base size : Nat} {memory buf : Memory}
    (same : SameWindow base size memory buf) (u : Nat) (value : BitVec 32) :
    SameWindow base size (write32 memory (base + u) value) (write32 buf u value) := by
  intro i bound
  simp only [ByteMemory.write32, write8, Nat.add_assoc, Nat.add_right_inj]
  rw [same i bound]

theorem storeBitfields_packs {ram : Ram} (build : Build) {base size : Nat}
    (object : ram.low ≤ base ∧ base + size ≤ ram.top) (small : ram.top ≤ 2 ^ 32)
    {values : List FieldValue} (units : ∀ entry ∈ values, entry.unit + 4 ≤ size) {work : Work}
    {buf : Memory} (same : SameWindow base size work.memory buf) :
    ∃ after, storeBitfields ram build base values work = some after ∧
      SameWindow base size after.memory (initBitfields buf values) := by
  induction values generalizing work buf with
  | nil => exact ⟨work, rfl, same⟩
  | cons entry values ih =>
      have inside := units entry List.mem_cons_self
      obtain ⟨code, emitted, runs⟩ := genStoreBitfield_run ram build entry.field
      have address : (BitVec.ofNat 32 (base + entry.unit)).toNat = base + entry.unit := by
        rw [BitVec.toNat_ofNat]
        omega
      generalize startEq : (work.set 9 (BitVec.ofNat 32 (base + entry.unit))).set 1
        (BitVec.ofInt 32 entry.value) = start
      have pointer : (start.regs 9).toNat = base + entry.unit := by
        rw [← startEq]
        exact address
      have value : start.regs 1 = BitVec.ofInt 32 entry.value := by
        rw [← startEq]
        rfl
      have memory : start.memory = work.memory := by
        rw [← startEq]
        rfl
      obtain ⟨after, run, stored, -⟩ := runs start (by omega)
      rw [pointer, value, memory, same.read32 inside] at stored
      have next : SameWindow base size after.memory
          (initBitfield buf entry.unit entry.field entry.value) := by
        rw [stored, initBitfield_eq]
        exact same.write32 _ _
      obtain ⟨final, rest, packed⟩ :=
        ih (fun entry member => units entry (List.mem_cons_of_mem _ member)) next
      refine ⟨final, ?_, packed⟩
      rw [storeBitfields, List.foldlM_cons, emitted, Option.bind_some, startEq, run]
      exact rest

/-- What the stores, the loads and the packing of bit-fields do. -/
theorem bitField_laws (ram : Ram) (build : Build) :
    (∀ (field : BitField) (work : Work),
      ram.low ≤ (work.regs 9).toNat ∧ (work.regs 9).toNat + 4 ≤ ram.top →
      ∃ store load stored loaded, genStoreBitfield build field = some store ∧
        genLoadBitfield build field = some load ∧ runCode ram store work = some stored ∧
        runCode ram load stored = some loaded ∧
        loaded.regs 1 = field.extend ((work.regs 1).truncate field.width) ∧
        (∀ bit < 32, ¬field.Covers bit →
          (read32 stored.memory (work.regs 9).toNat).getLsbD bit =
            (read32 work.memory (work.regs 9).toNat).getLsbD bit) ∧
        ∀ other : BitField, field.Disjoint other → ∃ code before after,
          genLoadBitfield build other = some code ∧ runCode ram code work = some before ∧
          runCode ram code stored = some after ∧ after.regs 1 = before.regs 1) ∧
    ∀ (base size : Nat) (values : List FieldValue) (work : Work),
      ram.low ≤ base ∧ base + size ≤ ram.top → ram.top ≤ 2 ^ 32 →
      (∀ entry ∈ values, entry.unit + 4 ≤ size) → (∀ i < size, work.memory (base + i) = 0) →
      ∃ stored, storeBitfields ram build base values work = some stored ∧
        ∀ i < size, stored.memory (base + i) = initBitfields (fun _ => 0) values i := by
  refine ⟨fun field work inside => ?_, fun base size values work object small units zero => ?_⟩
  · obtain ⟨store, isStore, runsStore⟩ := genStoreBitfield_run ram build field
    obtain ⟨load, isLoad, runsLoad⟩ := genLoadBitfield_run ram build field
    obtain ⟨stored, runStore, memory, -, others⟩ := runsStore work inside
    have pointer : stored.regs 9 = work.regs 9 := others 9 (by decide)
    have unit : read32 stored.memory (work.regs 9).toNat =
        replace (read32 work.memory (work.regs 9).toNat) field.shift field.width (work.regs 1) := by
      rw [memory, read32_write32_same]
    obtain ⟨loaded, runLoad, yields⟩ := runsLoad stored (by rw [pointer]; exact inside.2)
    refine ⟨store, load, stored, loaded, isStore, isLoad, runStore, runLoad, ?_, ?_, ?_⟩
    · rw [yields.result, pointer, unit, field.stored_replace]
    · intro bit bound outside
      rw [unit, replace_uncovered field _ _ bound outside]
    · intro other disjoint
      obtain ⟨code, isCode, runs⟩ := genLoadBitfield_run ram build other
      obtain ⟨before, runBefore, yieldsBefore⟩ := runs work inside.2
      obtain ⟨after, runAfter, yieldsAfter⟩ := runs stored (by rw [pointer]; exact inside.2)
      refine ⟨code, before, after, isCode, runBefore, runAfter, ?_⟩
      rw [yieldsBefore.result, yieldsAfter.result, pointer, unit,
        BitField.stored_replace_disjoint disjoint]
  · exact storeBitfields_packs build object small units zero

/-- A signed field of four bits behind another one keeps `-3`. -/
theorem bitField_laws_signed :
    ∃ store load stored loaded,
      genStoreBitfield .native ⟨4, 4, false, by decide⟩ = some store ∧
      genLoadBitfield .native ⟨4, 4, false, by decide⟩ = some load ∧
      runCode ⟨16, 64⟩ store ⟨(Registers.clear.set 9 16).set 1 (-3), fun _ => 0xFF⟩ = some stored ∧
      runCode ⟨16, 64⟩ load stored = some loaded ∧ loaded.regs 1 = -3 := by
  obtain ⟨store, load, stored, loaded, isStore, isLoad, runStore, runLoad, value, -⟩ :=
    (bitField_laws ⟨16, 64⟩ .native).1 ⟨4, 4, false, by decide⟩
      ⟨(Registers.clear.set 9 16).set 1 (-3), fun _ => 0xFF⟩ (by decide)
  refine ⟨store, load, stored, loaded, isStore, isLoad, runStore, runLoad, value.trans ?_⟩
  decide

end SymphonyPlus
