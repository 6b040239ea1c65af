import SymphonyPlus.InstructionLines
import SymphonyPlus.LinkImage

/-!
Lines the image linker prints, as operations: a line whose text is known is read by computation, a
line that ends in a hexadecimal number by the lemmas on numbers.
-/

namespace SymphonyPlus

open ByteMemory

def operandSources (labels : List Label) : Nat → List Char → Option (List Source)
  | 0, _ => none
  | fuel + 1, tok =>
      if trim tok = [] then some []
      else if operandText tok = [] then none
      else
        match operandSource labels (stripBrackets (operandText tok)) with
        | some source => (operandSources labels fuel (operandRest tok)).map (source :: ·)
        | none => none

/-- What a line that holds an instruction does. `out` is left out: with a constant it has no opcode. -/
def lineOperations (labels : List Label) (line : List Char) : Option (List Operation) :=
  match instructionParts line with
  | some (mnem, ops) =>
      if mnem = "out".toList then none
      else (operandSources labels 4 ops).bind (isaMeaning (String.ofList mnem))
  | none => none

theorem operandSource_labels {text : List Char} {source : Source} (labels : List Label)
    (found : operandSource [] text = some source) : operandSource labels text = some source := by
  rw [operandSource] at found ⊢
  cases register : isaRegIndex text with
  | some index => simpa only [register] using found
  | none =>
      simp only [register] at found ⊢
      have value : immediateValue labels text = immediateValue [] text := by
        rw [immediateValue, immediateValue]
        cases literal : charLiteral text with
        | some c => rfl
        | none =>
            cases number : parseNum text with
            | some value => rfl
            | none => simp [immediateValue, literal, number] at found
      rwa [value]

theorem operandSources_denote {labels : List Label} {fuel : Nat} {tok : List Char}
    {sources : List Source} (found : operandSources [] fuel tok = some sources) :
    OperandsDenote labels tok sources := by
  induction fuel generalizing tok sources with
  | zero => cases found
  | succ fuel ih =>
      rw [operandSources] at found
      split at found
      · rename_i blank
        cases found
        exact .done blank
      · split at found
        · cases found
        · rename_i present
          cases denoted : operandSource [] (stripBrackets (operandText tok)) with
          | none => simp [denoted] at found
          | some source =>
              simp only [denoted, Option.map_eq_some_iff] at found
              obtain ⟨others, rest, rfl⟩ := found
              exact .next present (operandSource_labels labels denoted) (ih rest)

def LineDoes (labels : List Label) (line : List Char) (operations : List Operation) : Prop :=
  ∃ mnem ops sources, instructionParts line = some (mnem, ops) ∧
    OperandsDenote labels ops sources ∧ isaMeaning (String.ofList mnem) sources = some operations ∧
    mnem ≠ "out".toList

theorem lineDoes_of_read {line : List Char} {operations : List Operation}
    (read : lineOperations [] line = some operations) (labels : List Label) :
    LineDoes labels line operations := by
  rw [lineOperations] at read
  cases instruction : instructionParts line with
  | none => simp [instruction] at read
  | some both =>
      obtain ⟨mnem, ops⟩ := both
      simp only [instruction] at read
      split at read
      · cases read
      · rename_i ordinary
        obtain ⟨sources, found, meaning⟩ := Option.bind_eq_some_iff.mp read
        exact ⟨mnem, ops, sources, instruction, operandSources_denote found, meaning, ordinary⟩

/-- The words of an accepted line do what the line says. -/
theorem line_words {line : List Char} {labels after : List Label} {off cap lineno : Nat}
    {emitted : Emitted} {operations : List Operation}
    (accepted : processLine line true labels off cap lineno = .ok (emitted, after))
    (does : LineDoes labels line operations) :
    ∃ words, emitted.bytes = words.flatMap wordBytes ∧
      List.Forall₂ Implements words operations := by
  obtain ⟨mnem, ops, sources, instruction, operands, meaning, ordinary⟩ := does
  obtain ⟨words, operations', bytes, meaning', implemented, -⟩ :=
    (instruction_line_means_iff accepted instruction operands).mpr fun out => ordinary out.1
  rw [meaning] at meaning'
  cases meaning'
  exact ⟨words, bytes, implemented⟩

/-! Hexadecimal numbers. -/

theorem digitValue_hexChar : ∀ d < 16, digitValue (Nat.digitChar d) = d := by
  decide

theorem digitChar_plain : ∀ d < 16, isBlank (Nat.digitChar d) = false ∧
    Nat.digitChar d ≠ ':' ∧ Nat.digitChar d ≠ ',' ∧ Nat.digitChar d ≠ ']' ∧
    isSpace (Nat.digitChar d) = false ∧ Nat.digitChar d ≠ '\'' ∧ isLineEnd (Nat.digitChar d) = false ∧
    isIdentRest (Nat.digitChar d) = true ∧ Nat.digitChar d ≠ ';' ∧ Nat.digitChar d ≠ '/' ∧
    Nat.digitChar d ≠ '"' := by
  decide

theorem mem_hexDigits {n : Nat} {c : Char} (member : c ∈ Nat.toDigits 16 n) :
    ∃ d < 16, c = Nat.digitChar d := by
  induction n using Nat.strongRecOn with
  | _ n ih =>
      by_cases small : n < 16
      · rw [Nat.toDigits_of_lt_base small, List.mem_singleton] at member
        exact ⟨n, small, member⟩
      · rw [Nat.toDigits_of_base_le (by decide) (by omega), List.mem_append] at member
        rcases member with high | low
        · exact ih (n / 16) (by omega) high
        · rw [List.mem_singleton] at low
          exact ⟨n % 16, by omega, low⟩

theorem digitsValue_toDigits (n : Nat) : digitsValue 16 (Nat.toDigits 16 n) = some n := by
  have small : (Nat.toDigits 16 n).all (fun c => digitValue c < 16) = true := by
    rw [List.all_eq_true]
    intro c member
    obtain ⟨d, bound, rfl⟩ := mem_hexDigits member
    rw [digitValue_hexChar d bound]
    exact decide_eq_true bound
  have value : (Nat.toDigits 16 n).foldl (fun total c => total * 16 + digitValue c) 0 = n := by
    clear small
    induction n using Nat.strongRecOn with
    | _ n ih =>
        by_cases small : n < 16
        · rw [Nat.toDigits_of_lt_base small]
          simp [digitValue_hexChar n small]
        · rw [Nat.toDigits_of_base_le (by decide) (by omega), List.foldl_append, ih (n / 16) (by omega)]
          simp only [List.foldl_cons, List.foldl_nil, digitValue_hexChar (n % 16) (by omega)]
          omega
  rw [digitsValue, if_pos ⟨Nat.toDigits_ne_nil, small⟩, value]

/-- A number is read back from its text. -/
theorem parseNum_hexText {n : Nat} (bound : n < 2 ^ 64) : parseNum (hexText n) = some n := by
  obtain ⟨c, rest, digits⟩ := List.exists_cons_of_ne_nil (Nat.toDigits_ne_nil (n := n) (b := 16))
  have member : c ∈ Nat.toDigits 16 n := by
    rw [digits]
    exact List.mem_cons_self
  obtain ⟨d, small, rfl⟩ := mem_hexDigits member
  have text : hexText n = '0' :: 'x' :: Nat.digitChar d :: rest := by
    rw [hexText, digits]
    rfl
  have based : splitBase ('0' :: 'x' :: Nat.digitChar d :: rest) = (16, Nat.toDigits 16 n) := by
    simp only [splitBase, digitValue_hexChar d small, small, and_true, true_or, if_true]
    rw [digits]
  have signed : splitSign (('0' :: 'x' :: Nat.digitChar d :: rest).dropWhile isSpace) =
      (false, '0' :: 'x' :: Nat.digitChar d :: rest) := rfl
  have positive : ('0' :: 'x' :: Nat.digitChar d :: rest).head? ≠ some '-' := by
    rw [List.head?_cons]
    decide
  rw [text, parseNum, if_neg positive]
  simp only [signed, based, digitsValue_toDigits, Bool.false_eq_true, if_false]
  rw [if_neg (Nat.not_le.mpr bound)]

theorem hexText_plain {n : Nat} {c : Char} (member : c ∈ hexText n) : isBlank c = false ∧
    c ≠ ':' ∧ c ≠ ',' ∧ isIdentRest c = true ∧ isLineEnd c = false ∧ c ≠ ';' ∧ c ≠ '/' ∧ c ≠ '"' := by
  rw [hexText, List.mem_append] at member
  rcases member with sign | digit
  · have either : c = '0' ∨ c = 'x' := by simpa using sign
    rcases either with rfl | rfl <;> decide
  · obtain ⟨d, bound, rfl⟩ := mem_hexDigits digit
    have plain := digitChar_plain d bound
    exact ⟨plain.1, plain.2.1, plain.2.2.1, plain.2.2.2.2.2.2.2.1, plain.2.2.2.2.2.2.1,
      plain.2.2.2.2.2.2.2.2.1, plain.2.2.2.2.2.2.2.2.2.1, plain.2.2.2.2.2.2.2.2.2.2⟩

theorem operandSource_hexText {n : Nat} (bound : n < 2 ^ 16) (labels : List Label) :
    operandSource labels (hexText n) = some (.imm (BitVec.ofNat 16 n)) := by
  have unnamed : isaRegIndex (hexText n) = none := by
    rw [isaRegIndex, List.findIdx?_eq_none_iff]
    intro known member
    refine decide_eq_false fun same => ?_
    have first : ∀ known ∈ regNames, known.toList.head? ≠ some '0' := by decide
    exact first known member (by rw [same]; rfl)
  have literal : charLiteral (hexText n) = none := by
    change charLiteral ('0' :: 'x' :: Nat.toDigits 16 n) = none
    rcases Nat.toDigits 16 n with _ | ⟨c, _ | ⟨d, rest⟩⟩ <;> rfl
  simp only [operandSource, unnamed, immediateValue, literal,
    parseNum_hexText (show n < 2 ^ 64 by omega), if_pos bound]

/-! Printed lines. -/

theorem skipWs_of_head {text : List Char} (front : ∀ c ∈ text.head?, isBlank c = false) :
    skipWs text = text := by
  cases text with
  | nil => rfl
  | cons c rest => exact List.dropWhile_cons_of_neg (by simp [front c rfl])

theorem trim_of_ends {text : List Char} (front : ∀ c ∈ text.head?, isBlank c = false)
    (back : ∀ c ∈ text.getLast?, isBlank c = false) : trim text = text := by
  rw [trim, skipWs_of_head front, List.rdropWhile_eq_self_iff]
  intro nonempty blank
  rw [back _ (List.getLast?_eq_getLast_of_ne_nil nonempty)] at blank
  cases blank

theorem isIdentRest_plain {c : Char} (word : isIdentRest c = true) : isBlank c = false ∧ c ≠ ':' := by
  refine ⟨?_, ?_⟩
  · by_contra blank
    rw [Bool.not_eq_false, isBlank, Bool.or_eq_true, decide_eq_true_eq, decide_eq_true_eq] at blank
    rcases blank with rfl | rfl <;> exact absurd word (by decide)
  · rintro rfl
    exact absurd word (by decide)

structure Printed (mnem ops : List Char) : Prop where
  word : ∀ c ∈ mnem, isIdentRest c = true
  start : ∃ c rest, mnem = c :: rest ∧ c.isAlpha = true ∧ c ≠ 'U'
  short : mnem.length ≤ 63
  noColon : ':' ∉ ops
  front : ∀ c ∈ ops.head?, isBlank c = false
  back : ∀ c ∈ ops.getLast?, isBlank c = false
  present : ops ≠ []

theorem instructionParts_printed {mnem ops : List Char} (printed : Printed mnem ops) :
    instructionParts ("    ".toList ++ (mnem ++ ' ' :: ops)) = some (mnem, ops) := by
  obtain ⟨word, ⟨c, rest, rfl, alpha, other⟩, short, noColon, front, back, present⟩ := printed
  have trimmed : trim ("    ".toList ++ (c :: rest ++ ' ' :: ops)) = c :: rest ++ ' ' :: ops := by
    have skipped : trim ("    ".toList ++ (c :: rest ++ ' ' :: ops)) =
        trim (c :: rest ++ ' ' :: ops) := rfl
    rw [skipped]
    refine trim_of_ends (fun d first => ?_) fun d last => back d ?_
    · cases first
      exact (isIdentRest_plain (word c List.mem_cons_self)).1
    · rw [List.getLast?_append] at last
      rw [List.getLast?_cons, List.getLast?_eq_getLast_of_ne_nil present] at last
      rw [List.getLast?_eq_getLast_of_ne_nil present]
      simpa using last
  have unlabelled : ':' ∉ c :: rest ++ ' ' :: ops := by
    intro colon
    rcases List.mem_append.mp colon with inside | later
    · exact (isIdentRest_plain (word _ inside)).2 rfl
    · rcases List.mem_cons.mp later with blank | inside
      · cases blank
      · exact noColon inside
  have content : splitLabel (c :: rest ++ ' ' :: ops) = (none, c :: rest ++ ' ' :: ops) := by
    rw [splitLabel, if_pos unlabelled]
  have code : dataLine (c :: rest ++ ' ' :: ops) = none := by
    simp [dataLine, dataWidths, Ne.symm other]
  have name : (c :: rest ++ ' ' :: ops).takeWhile isIdentRest = c :: rest := by
    rw [List.takeWhile_append_of_pos word]
    simp [show isIdentRest ' ' = false by decide]
  have operands : (c :: rest ++ ' ' :: ops).dropWhile isIdentRest = ' ' :: ops := by
    rw [List.dropWhile_append_of_pos word]
    simp [show isIdentRest ' ' = false by decide]
  rw [instructionParts, trimmed, content]
  simp only [List.cons_append] at code name operands ⊢
  simp only [alpha, code, name, operands, Option.isNone_none, Bool.and_self, if_true,
    List.take_of_length_le short]
  have blank : trim (' ' :: ops) = trim ops := rfl
  rw [blank, trim_of_ends front back]

structure PlainOperand (text : List Char) : Prop where
  noComma : ',' ∉ text
  front : ∀ c ∈ text.head?, isBlank c = false
  back : ∀ c ∈ text.getLast?, isBlank c = false
  present : text ≠ []
  plain : stripBrackets text = text

theorem PlainOperand.hexText (n : Nat) : PlainOperand (hexText n) := by
  refine ⟨fun comma => (hexText_plain comma).2.2.1 rfl, fun c first => ?_, fun c last => ?_, ?_, ?_⟩
  · exact (hexText_plain (List.mem_of_mem_head? first)).1
  · exact (hexText_plain (List.mem_of_getLast? last)).1
  · exact List.cons_ne_nil _ _
  · have first : (SymphonyPlus.hexText n).head? = some '0' := rfl
    rw [stripBrackets, if_neg]
    rw [first]
    simp

theorem OperandsDenote.space {labels : List Label} {tok : List Char} {sources : List Source}
    (denote : OperandsDenote labels tok sources) : OperandsDenote labels (' ' :: tok) sources := by
  have text : operandText (' ' :: tok) = operandText tok := by
    rw [operandText, operandText]
    rfl
  cases denote with
  | done blank => exact .done blank
  | next present denoted others =>
      rw [← text] at present denoted
      exact .next present denoted others

theorem OperandsDenote.last {labels : List Label} {text : List Char} {source : Source}
    (plain : PlainOperand text) (denoted : operandSource labels text = some source) :
    OperandsDenote labels text [source] := by
  have unbroken : ∀ c ∈ text, decide (c ≠ ',') = true := fun c member =>
    decide_eq_true fun same => plain.noComma (same ▸ member)
  have read : operandText text = text := by
    rw [operandText, List.takeWhile_eq_self_iff.mpr unbroken, trim_of_ends plain.front plain.back]
  refine .next ?_ ?_ ?_
  · rw [read]
    exact plain.present
  · rw [read, plain.plain]
    exact denoted
  · rw [operandRest, List.dropWhile_eq_nil_iff.mpr unbroken]
    exact .done rfl

theorem OperandsDenote.first {labels : List Label} {text rest : List Char} {source : Source}
    {sources : List Source} (plain : PlainOperand text)
    (denoted : operandSource labels text = some source)
    (others : OperandsDenote labels rest sources) :
    OperandsDenote labels (text ++ ',' :: ' ' :: rest) (source :: sources) := by
  have unbroken : ∀ c ∈ text, decide (c ≠ ',') = true := fun c member =>
    decide_eq_true fun same => plain.noComma (same ▸ member)
  have read : operandText (text ++ ',' :: ' ' :: rest) = text := by
    rw [operandText, List.takeWhile_append_of_pos unbroken]
    simp only [ne_eq, not_true_eq_false, decide_false, Bool.false_eq_true, not_false_eq_true,
      List.takeWhile_cons_of_neg, List.append_nil]
    exact trim_of_ends plain.front plain.back
  have after : operandRest (text ++ ',' :: ' ' :: rest) = ' ' :: rest := by
    rw [operandRest, List.dropWhile_append_of_pos unbroken]
    simp
  refine .next ?_ ?_ ?_
  · rw [read]
    exact plain.present
  · rw [read, plain.plain]
    exact denoted
  · rw [after]
    exact others.space

/-! The lines with addresses. -/

theorem printed_hexText {mnem before : List Char} {n : Nat}
    (word : mnem.all isIdentRest = true)
    (start : ∃ c rest, mnem = c :: rest ∧ c.isAlpha = true ∧ c ≠ 'U') (short : mnem.length ≤ 63)
    (noColon : ':' ∉ before) (front : before.head?.all (!isBlank ·) = true) :
    Printed mnem (before ++ hexText n) := by
  refine ⟨List.all_eq_true.mp word, start, short, fun colon => ?_, fun c first => ?_, fun c last => ?_, ?_⟩
  · rcases List.mem_append.mp colon with inside | number
    · exact noColon inside
    · exact (hexText_plain number).2.1 rfl
  · rw [List.head?_append] at first
    cases known : before.head? with
    | some d =>
        rw [known] at first
        cases first
        rw [known] at front
        simpa using front
    | none =>
        rw [known] at first
        exact (hexText_plain (n := n) (List.mem_of_mem_head? first)).1
  · have nonempty : hexText n ≠ [] := List.cons_ne_nil _ _
    rw [List.getLast?_append, List.getLast?_eq_getLast_of_ne_nil nonempty] at last
    cases last
    exact (hexText_plain (List.getLast_mem nonempty)).1
  · exact List.append_ne_nil_of_right_ne_nil _ (List.cons_ne_nil _ _)

theorem plainOperand_register {name : List Char} {index : Nat}
    (register : isaRegIndex name = some index) : PlainOperand name := by
  have known : ∀ known ∈ regNames, PlainOperand known.toList := by
    intro known member
    have all : ∀ known ∈ regNames, ',' ∉ known.toList ∧ known.toList.head?.all (!isBlank ·) ∧
        known.toList.getLast?.all (!isBlank ·) ∧ known.toList ≠ [] ∧
        stripBrackets known.toList = known.toList := by decide
    obtain ⟨noComma, front, back, present, plain⟩ := all known member
    refine ⟨noComma, fun c first => ?_, fun c last => ?_, present, plain⟩
    · rw [first] at front
      simpa using front
    · rw [last] at back
      simpa using back
  obtain ⟨bound, found, -⟩ := List.findIdx?_eq_some_iff_getElem.mp register
  have same : regNames[index].toList = name := by simpa using found
  exact same ▸ known _ (List.getElem_mem bound)

theorem operandSource_register {name : List Char} {index : Nat} (labels : List Label)
    (register : isaRegIndex name = some index) :
    operandSource labels name = some (.reg (Fin.ofNat 16 index)) := by
  rw [operandSource, register]

theorem targetHigh_does {n : Nat} (bound : n < 2 ^ 16) (labels : List Label) :
    LineDoes labels ("    mov r13, ".toList ++ hexText n)
      [.move 13 (.imm (BitVec.ofNat 16 n))] := by
  have register : isaRegIndex "r13".toList = some 13 := by decide
  have printed : Printed "mov".toList ("r13, ".toList ++ hexText n) :=
    printed_hexText (by decide) ⟨'m', ['o', 'v'], rfl, by decide, by decide⟩ (by decide) (by decide)
      (by decide)
  exact ⟨_, _, [.reg 13, .imm (BitVec.ofNat 16 n)], instructionParts_printed printed,
    .first (plainOperand_register register) (operandSource_register labels register)
      (.last (.hexText n) (operandSource_hexText bound labels)), rfl, by decide⟩

theorem targetLow_does {n : Nat} (bound : n < 2 ^ 16) (labels : List Label) :
    LineDoes labels ("    or r13, r13, ".toList ++ hexText n)
      [.alu .or 13 13 (.imm (BitVec.ofNat 16 n))] := by
  have register : isaRegIndex "r13".toList = some 13 := by decide
  have printed : Printed "or".toList ("r13, r13, ".toList ++ hexText n) :=
    printed_hexText (by decide) ⟨'o', ['r'], rfl, by decide, by decide⟩ (by decide) (by decide)
      (by decide)
  exact ⟨_, _, [.reg 13, .reg 13, .imm (BitVec.ofNat 16 n)], instructionParts_printed printed,
    .first (plainOperand_register register) (operandSource_register labels register)
      (.first (plainOperand_register register) (operandSource_register labels register)
        (.last (.hexText n) (operandSource_hexText bound labels))), rfl, by decide⟩

end SymphonyPlus
