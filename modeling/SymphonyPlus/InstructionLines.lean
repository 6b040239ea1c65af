import SymphonyPlus.Asm
import SymphonyPlus.IsaConformance

/-!
Instruction lines from text to operation: the operands a line spells, the values
the operand parser passes to the encoder, and what the emulator does with the
bytes.
-/

namespace SymphonyPlus

/-- The number an immediate operand stands for, before any conversion. -/
def immediateValue (labels : List Label) (text : List Char) : Option Nat :=
  match charLiteral text with
  | some c => some (c.toNat % 256)
  | none =>
      match parseNum text with
      | some value => some value
      | none => (labels.find? (fun label => label.name = text)).map Label.off

/-- A register name is a register; another operand is an immediate of sixteen bits. -/
def operandSource (labels : List Label) (text : List Char) : Option Source :=
  match isaRegIndex text with
  | some index => some (.reg (Fin.ofNat 16 index))
  | none =>
      match immediateValue labels text with
      | some value => if value < 2 ^ 16 then some (.imm (BitVec.ofNat 16 value)) else none
      | none => none

inductive OperandsDenote (labels : List Label) : List Char → List Source → Prop
  | done {tok : List Char} (blank : trim tok = []) : OperandsDenote labels tok []
  | next {tok : List Char} {source : Source} {sources : List Source}
      (present : operandText tok ≠ [])
      (denoted : operandSource labels (stripBrackets (operandText tok)) = some source)
      (others : OperandsDenote labels (operandRest tok) sources) :
      OperandsDenote labels tok (source :: sources)

def instructionParts (line : List Char) : Option (List Char × List Char) :=
  match (splitLabel (trim line)).2 with
  | [] => none
  | first :: rest =>
      if first.isAlpha && (dataLine (first :: rest)).isNone then
        some (((first :: rest).takeWhile isIdentRest).take 63,
          trim ((first :: rest).dropWhile isIdentRest))
      else none

theorem processLine_second (line : List Char) (labels : List Label) (off cap lineno : Nat) :
    processLine line true labels off cap lineno =
      (emitContent (splitLabel (trim line)).2 true labels off cap lineno).map (·, labels) := by
  have unchanged : recordLabel (splitLabel (trim line)).1 true labels off lineno = .ok labels := by
    cases (splitLabel (trim line)).1 <;> rfl
  simp only [processLine, unchanged]
  rfl

theorem emitContent_instruction {first : Char} {rest : List Char} {resolve : Bool}
    {labels : List Label} {off cap lineno : Nat}
    (instruction : (first.isAlpha && (dataLine (first :: rest)).isNone) = true) :
    emitContent (first :: rest) resolve labels off cap lineno =
      emitInsn (((first :: rest).takeWhile isIdentRest).take 63)
        (trim ((first :: rest).dropWhile isIdentRest)) resolve labels off cap lineno := by
  rw [Bool.and_eq_true, Option.isNone_iff_eq_none] at instruction
  have notAt : first ≠ '@' := fun same => by simp [same] at instruction
  have notQuote : first ≠ '"' := fun same => by simp [same] at instruction
  simp only [emitContent, notAt, notQuote, ↓reduceIte, instruction.1, emitData, instruction.2]

theorem processLine_instruction {line mnem ops : List Char} {labels after : List Label}
    {off cap lineno : Nat} {emitted : Emitted}
    (accepted : processLine line true labels off cap lineno = .ok (emitted, after))
    (instruction : instructionParts line = some (mnem, ops)) :
    emitInsn mnem ops true labels off cap lineno = .ok emitted := by
  rw [processLine_second] at accepted
  unfold instructionParts at instruction
  cases parts : (splitLabel (trim line)).2 with
  | nil => simp [parts] at instruction
  | cons first rest =>
      simp only [parts] at instruction accepted
      split at instruction
      · rename_i plain
        obtain ⟨rfl, rfl⟩ := Prod.mk.inj (Option.some.inj instruction)
        rw [emitContent_instruction plain] at accepted
        cases content : emitInsn (((first :: rest).takeWhile isIdentRest).take 63)
            (trim ((first :: rest).dropWhile isIdentRest)) true labels off cap lineno with
        | error err => rw [content] at accepted; cases accepted
        | ok result =>
            rw [content] at accepted
            cases accepted
            rfl
      · cases instruction

theorem parseImm_denotes {labels : List Label} {text : List Char} {lineno value : Nat}
    {word : BitVec 32} (plain : isaRegIndex text = none)
    (denoted : immediateValue labels text = some value)
    (parsed : parseImm text true labels lineno = .ok (some word)) :
    word = BitVec.ofNat 32 value := by
  unfold parseImm at parsed
  unfold immediateValue at denoted
  cases literal : charLiteral text with
  | some c =>
      simp only [literal, Except.ok.injEq, Option.some.injEq] at parsed denoted
      rw [← parsed, ← denoted]
  | none =>
      simp only [literal, plain, Option.isSome_none, Bool.false_eq_true, if_false] at parsed denoted
      cases number : parseNum text with
      | some v =>
          simp only [number, Except.ok.injEq, Option.some.injEq] at parsed denoted
          rw [← parsed, ← denoted]
      | none =>
          simp only [number, Option.map_eq_some_iff] at parsed denoted
          obtain ⟨label, found, rfl⟩ := denoted
          simp only [labelOff, found] at parsed
          split at parsed
          · cases parsed
          · split at parsed
            · contradiction
            · split at parsed
              · cases parsed
              · exact (Option.some.inj (Except.ok.inj parsed)).symm

theorem trim_eq_nil_iff (text : List Char) : trim text = [] ↔ ∀ c ∈ text, isBlank c = true := by
  unfold trim skipWs
  rw [List.rdropWhile_eq_nil_iff]
  constructor
  · intro remaining c inside
    rw [← List.takeWhile_append_dropWhile (p := isBlank) (l := text), List.mem_append] at inside
    rcases inside with leading | later
    · exact List.mem_takeWhile_imp leading
    · exact remaining c later
  · intro blanks c inside
    exact blanks c (List.dropWhile_subset _ inside)

theorem operandText_blank {tok : List Char} (blank : trim tok = []) : operandText tok = [] := by
  rw [trim_eq_nil_iff] at blank
  rw [operandText, trim_eq_nil_iff]
  exact fun c inside => blank c (List.takeWhile_subset _ inside)

theorem parseImm_register {text : List Char} {index : Nat} (found : isaRegIndex text = some index)
    (resolve : Bool) (labels : List Label) (lineno : Nat) :
    parseImm text resolve labels lineno = .ok none := by
  have literal : charLiteral text = none := by
    obtain ⟨bound, same, -⟩ := List.findIdx?_eq_some_iff_getElem.mp found
    have named : ∀ name ∈ regNames, charLiteral name.toList = none := by decide
    rw [← of_decide_eq_true same]
    exact named _ (List.getElem_mem bound)
  simp [parseImm, literal, found]

theorem parseOperand_denotes {labels : List Label} {text : List Char} {kind : OperandKind}
    {lineno : Nat} {word : BitVec 32} {source : Source}
    (denoted : operandSource labels text = some source)
    (parsed : parseOperand kind text true labels lineno = .ok (some word)) :
    word = source.word ∧ source.kind = kind := by
  unfold operandSource at denoted
  cases kind with
  | reg =>
      simp only [parseOperand, Except.ok.injEq, Option.map_eq_some_iff] at parsed
      obtain ⟨index, found, rfl⟩ := parsed
      simp only [found, Option.some.injEq] at denoted
      subst denoted
      have bound := isaRegIndex_lt found
      refine ⟨?_, rfl⟩
      simp only [Source.word, regWord, Fin.ofNat, Nat.mod_eq_of_lt bound]
  | imm =>
      simp only [parseOperand] at parsed
      cases found : isaRegIndex text with
      | some index =>
          simp [parseImm_register found] at parsed
      | none =>
          simp only [found] at denoted
          split at denoted
          · rename_i value meant
            split at denoted
            · rename_i small
              cases denoted
              split at parsed
              · cases parsed
              · cases parsed
              · rename_i number imm
                split at parsed
                · cases parsed
                · cases parsed
                  refine ⟨?_, rfl⟩
                  rw [parseImm_denotes found meant imm]
                  apply BitVec.eq_of_toNat_eq
                  simp only [Source.word, immWord_toNat, BitVec.toNat_ofNat]
                  omega
            · cases denoted
          · cases denoted

theorem parseOperands_nil {resolve : Bool} {labels : List Label} {lineno : Nat} {tok : List Char}
    {values : List (BitVec 32)}
    (parsed : parseOperands resolve labels lineno [] tok = .ok (some values)) :
    operandText tok = [] ∧ values = [] := by
  simp only [parseOperands, Except.ok.injEq] at parsed
  split at parsed
  · rename_i blank
    exact ⟨operandText_blank blank, (Option.some.inj parsed).symm⟩
  · cases parsed

theorem parseOperands_cons {resolve : Bool} {labels : List Label} {lineno : Nat}
    {field : OpField} {fields : List OpField} {tok : List Char} {values : List (BitVec 32)}
    (parsed : parseOperands resolve labels lineno (field :: fields) tok = .ok (some values)) :
    operandText tok ≠ [] ∧ ∃ value others,
      parseOperand field.kind (stripBrackets (operandText tok)) resolve labels lineno =
        .ok (some value) ∧
      parseOperands resolve labels lineno fields (operandRest tok) = .ok (some others) ∧
      values = value :: others := by
  unfold parseOperands at parsed
  by_cases blank : operandText tok = []
  · simp [blank] at parsed
  · refine ⟨blank, ?_⟩
    simp only [blank, if_false] at parsed
    split at parsed
    · cases parsed
    · cases parsed
    · rename_i value operand
      split at parsed
      · cases parsed
      · rename_i later rest
        simp only [Except.ok.injEq, Option.map_eq_some_iff] at parsed
        obtain ⟨others, rfl, rfl⟩ := parsed
        exact ⟨value, others, operand, rest, rfl⟩

/-- Operands that denote sources leave exactly their words to the encoder. -/
theorem parseOperands_denote {labels : List Label} {lineno : Nat} {fields : List OpField}
    {tok : List Char} {sources : List Source} {values : List (BitVec 32)}
    (denoted : OperandsDenote labels tok sources)
    (parsed : parseOperands true labels lineno fields tok = .ok (some values)) :
    values = sources.map Source.word ∧ sources.map Source.kind = fields.map OpField.kind := by
  induction fields generalizing tok sources values with
  | nil =>
      obtain ⟨blank, rfl⟩ := parseOperands_nil parsed
      cases denoted with
      | done _ => exact ⟨rfl, rfl⟩
      | next present _ _ => exact absurd blank present
  | cons field fields ih =>
      obtain ⟨present, value, later, operand, rest, rfl⟩ := parseOperands_cons parsed
      cases denoted with
      | done blank => exact absurd (operandText_blank blank) present
      | next _ meant others =>
          obtain ⟨word, kind⟩ := parseOperand_denotes meant operand
          obtain ⟨words, kinds⟩ := ih others rest
          simp only [List.map_cons, word, kind, words, kinds, and_self]

/-- A row for the mnemonic and operands, with what the row makes of them. -/
def EncodedBy (mnem ops : List Char) (labels : List Label) (lineno : Nat) (table : List Insn)
    (emitted : Emitted) : Prop :=
  ∃ insn ∈ table, insn.name.toList = mnem ∧ ∃ values,
    parseOperands true labels lineno insn.fields ops = .ok (some values) ∧
      emitted = { size := insn.nwords * 4, bytes := isaEncode insn values }

/-- An accepted instruction is a row of the table with its operands packed. -/
theorem emitInsnFrom_row {mnem ops : List Char} {labels : List Label} {off cap lineno : Nat}
    {table : List Insn} {emitted : Emitted}
    (accepted : emitInsnFrom mnem ops true labels off cap lineno table = .ok emitted) :
    EncodedBy mnem ops labels lineno table emitted := by
  induction table with
  | nil => cases accepted
  | cons insn table ih =>
      unfold emitInsnFrom at accepted
      have later (passed : emitInsnFrom mnem ops true labels off cap lineno table = .ok emitted) :
          EncodedBy mnem ops labels lineno (insn :: table) emitted := by
        obtain ⟨found, inside, rest⟩ := ih passed
        exact ⟨found, List.mem_cons_of_mem _ inside, rest⟩
      split at accepted
      · exact later accepted
      · rename_i named
        split at accepted
        · cases accepted
        · exact later accepted
        · rename_i values parsed
          simp only [Bool.not_true, Bool.false_eq_true, if_false] at accepted
          split at accepted
          · cases accepted
          · cases accepted
            exact ⟨insn, List.mem_cons_self, not_not.mp named, values, parsed, rfl⟩

/-- The bytes of a line are words that do, one after the other, what `SymphonyPlus.isa` says the
mnemonic does with these operands, and none of them is an unknown opcode. -/
def InstructionMeans (name : List Char) (sources : List Source) (bytes : List (BitVec 8)) :
    Prop :=
  ∃ words operations, bytes = words.flatMap ByteMemory.wordBytes ∧
    isaMeaning (String.ofList name) sources = some operations ∧
    List.Forall₂ Implements words operations ∧
    ∀ word ∈ words, ∀ options machine after, execute options machine word ≠ .fault 3 after

theorem implements_known {word : BitVec 32} {operation : Operation}
    (implemented : Implements word operation) (options : EmuOptions) (machine after : Machine) :
    execute options machine word ≠ .fault 3 after := by
  intro unknown
  have realised := implemented options machine
  rw [unknown] at realised
  cases effect : operation.effect options machine with
  | advance next => rw [effect] at realised; cases realised
  | jump next target =>
      rw [effect] at realised
      rcases realised with running | ⟨-, halted⟩
      · cases running
      · cases halted
  | outOfRange next => rw [effect] at realised; cases realised

theorem forall_implements_known {words : List (BitVec 32)} {operations : List Operation}
    (implemented : List.Forall₂ Implements words operations) :
    ∀ word ∈ words, ∀ options machine after, execute options machine word ≠ .fault 3 after := by
  induction implemented with
  | nil => simp
  | cons first _ ih =>
      rintro word (_ | ⟨_, inside⟩)
      · exact implements_known first
      · exact ih word inside

theorem wordBytes_injective {first second : BitVec 32} {left right : List (BitVec 8)}
    (same : ByteMemory.wordBytes first ++ left = ByteMemory.wordBytes second ++ right) :
    first = second ∧ left = right := by
  obtain ⟨bytes, rest⟩ := List.append_inj same rfl
  refine ⟨?_, rest⟩
  simp only [ByteMemory.wordBytes, List.cons.injEq, and_true] at bytes
  rw [← ByteMemory.wordBytes_join first, ← ByteMemory.wordBytes_join second,
    bytes.1, bytes.2.1, bytes.2.2.1, bytes.2.2.2]

/-- The encoding of `out` of an immediate has an opcode outside the emulator's switch. -/
theorem outImmediate_unknown (imm : BitVec 16) (options : EmuOptions) (machine : Machine) :
    execute options machine (immForm 0x12000000 0 0 imm) = .fault 3 machine := by
  unfold execute
  rw [immForm_opcode]
  exact rfl

theorem outImmediate_row : ∀ insn ∈ isaTable, outImmediate insn = true →
    insn = single "out" 0x12000000 0xFFFF0000 [IMM 0] := by
  decide

theorem outImmediate_means (name : List Char) (imm : BitVec 16) (sources : List Source) :
    ¬InstructionMeans name sources (isaEncode (single "out" 0x12000000 0xFFFF0000 [IMM 0])
      [immWord imm]) := by
  rintro ⟨words, operations, bytes, -, -, known⟩
  have word : 0x12000000#32 ||| immWord imm <<< 0 = immForm 0x12000000 0 0 imm := by
    simp only [immForm, regWord_zero, BitVec.or_zero, BitVec.shiftLeft_zero]
    rfl
  have encoded : isaEncode (single "out" 0x12000000 0xFFFF0000 [IMM 0]) [immWord imm] =
      ByteMemory.wordBytes (0x12000000#32 ||| immWord imm <<< 0) ++ [] := rfl
  rw [word] at encoded
  cases words with
  | nil => rw [encoded] at bytes; cases bytes
  | cons word words =>
      rw [encoded, List.flatMap_cons] at bytes
      obtain ⟨rfl, -⟩ := wordBytes_injective bytes
      exact known _ List.mem_cons_self
        { ramSize := 0, diskSize := 0 }
        { regs := .clear, lastA := 0, lastB := 0, pc := 0, memory := fun _ => 0,
          disk := fun _ => 0, settings := fun _ => 0, timeHigh := 0, keyIndex := 0,
          keyCalls := 0, printed := [], instruction := 0 }
        _ (outImmediate_unknown imm _ _)

theorem conforms_means {insn : Insn} {sources : List Source} (conforms : Conforms insn sources) :
    InstructionMeans insn.name.toList sources (isaEncode insn (sources.map Source.word)) := by
  obtain ⟨operations, meaning, implemented⟩ := conforms
  refine ⟨_, operations, rfl, ?_, implemented, forall_implements_known implemented⟩
  rw [String.ofList_toList, meaning]

/-- Every accepted line with operands in range means what `SymphonyPlus.isa` says, except `out`
of an immediate. -/
theorem instruction_line_means_iff {line mnem ops : List Char} {labels after : List Label}
    {off cap lineno : Nat} {emitted : Emitted} {sources : List Source}
    (accepted : processLine line true labels off cap lineno = .ok (emitted, after))
    (instruction : instructionParts line = some (mnem, ops))
    (operands : OperandsDenote labels ops sources) :
    InstructionMeans mnem sources emitted.bytes ↔
      ¬(mnem = "out".toList ∧ ∃ imm, sources = [.imm imm]) := by
  obtain ⟨insn, inside, rfl, values, parsed, rfl⟩ :=
    emitInsnFrom_row (processLine_instruction accepted instruction)
  obtain ⟨rfl, kinds⟩ := parseOperands_denote operands parsed
  have immediateRow : outImmediate insn = true ↔
      insn.name.toList = "out".toList ∧ ∃ imm, sources = [.imm imm] := by
    simp only [outImmediate, Bool.and_eq_true, decide_eq_true_eq, String.toList_inj]
    refine and_congr_right fun _ => ?_
    rw [show insn.kinds = sources.map Source.kind from kinds.symm]
    constructor
    · intro single
      obtain ⟨_, rfl, first⟩ := kinds_one single
      obtain ⟨imm, rfl⟩ := kind_imm first
      exact ⟨imm, rfl⟩
    · rintro ⟨imm, rfl⟩
      rfl
  rw [← immediateRow, Bool.not_eq_true]
  constructor
  · intro means
    by_contra unknown
    rw [Bool.not_eq_false] at unknown
    obtain ⟨-, imm, rfl⟩ := immediateRow.mp unknown
    rw [outImmediate_row insn inside unknown] at means
    exact outImmediate_means _ imm _ means
  · intro ordinary
    exact conforms_means (isaTable_conforms insn inside ordinary sources kinds)

theorem store_line_means : InstructionMeans "store_32".toList [.reg 14, .reg 1]
    (isaEncode (single "store_32" 0x66000000 0xFF0FF0FF [REG 8, REG 16]) [14, 1]) := by
  have accepted : processLine "main: store_32 [sp], r1".toList true [] 8 4096 1 =
      .ok ({ size := 4, bytes := isaEncode (single "store_32" 0x66000000 0xFF0FF0FF
        [REG 8, REG 16]) [14, 1] }, []) := by
    decide
  have instruction : instructionParts "main: store_32 [sp], r1".toList =
      some ("store_32".toList, "[sp], r1".toList) := by
    decide
  have operands : OperandsDenote [] "[sp], r1".toList [.reg 14, .reg 1] :=
    .next (by decide) (by decide) (.next (by decide) (by decide) (.done (by decide)))
  exact (instruction_line_means_iff accepted instruction operands).mpr
    fun immediate => absurd immediate.1 (by decide)

/-- `out 5` is assembled to a word that the emulator rejects as an unknown opcode. -/
theorem out_immediate_line_unknown : ∃ emitted,
    processLine "out 5".toList true [] 0 4096 1 = .ok (emitted, []) ∧
      instructionParts "out 5".toList = some ("out".toList, "5".toList) ∧
      OperandsDenote [] "5".toList [.imm 5] ∧
      ¬InstructionMeans "out".toList [.imm 5] emitted.bytes := by
  refine ⟨{
    size := 4
    bytes := isaEncode (single "out" 0x12000000 0xFFFF0000 [IMM 0]) [immWord 5] },
    by decide, by decide, ?_, outImmediate_means _ 5 _⟩
  exact .next (by decide) (by decide) (.done (by decide))

end SymphonyPlus
