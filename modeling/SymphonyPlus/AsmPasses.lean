import SymphonyPlus.InstructionLines

/-!
The two passes of the assembler against the text alone: where each line's content
lies when sizes are added without reduction, which labels it uses, and when the
assembled bytes agree with that.
-/

namespace SymphonyPlus

/-! Positions from the text. -/

def labelOf (line : List Char) : Option (List Char) := (splitLabel (trim line)).1

def contentOf (line : List Char) : List Char := (splitLabel (trim line)).2

def mnemonicWords (mnem : List Char) : Nat :=
  if mnem = "push".toList ∨ mnem = "pop".toList then 2
  else if mnem = "call".toList then 5
  else if mnem = "ret".toList then 3
  else 1

def contentLength (p : List Char) (position : Nat) : Nat :=
  match p with
  | [] => 0
  | first :: rest =>
      if first = '@' then (parseNum rest).getD 0 - position
      else if first = '"' then (rest.takeWhile (· ≠ '"')).length
      else
        match dataLine (first :: rest) with
        | some (width, _) => width
        | none => mnemonicWords (((first :: rest).takeWhile isIdentRest).take 63) * 4

def lineLength (line : List Char) (position : Nat) : Nat :=
  contentLength (contentOf line) position

def linePositions : List (List Char) → Nat → List Nat
  | [], _ => []
  | line :: lines, position =>
      position :: linePositions lines (position + lineLength line position)

def textEnd : List (List Char) → Nat → Nat
  | [], position => position
  | line :: lines, position => textEnd lines (position + lineLength line position)

theorem textEnd_ge (lines : List (List Char)) (position : Nat) :
    position ≤ textEnd lines position := by
  induction lines generalizing position with
  | nil => exact Nat.le_refl position
  | cons line lines ih => exact Nat.le_trans (Nat.le_add_right _ _) (ih _)

/-! Operands and label uses from the text. -/

inductive OperandAt : List Char → Nat → List Char → Prop
  | here {tok : List Char} (present : operandText tok ≠ []) :
      OperandAt tok 0 (stripBrackets (operandText tok))
  | later {tok : List Char} {k : Nat} {text : List Char} (present : operandText tok ≠ [])
      (next : OperandAt (operandRest tok) k text) : OperandAt tok (k + 1) text

def LineOperand (line : List Char) (text : List Char) : Prop :=
  ∃ mnem ops k, instructionParts line = some (mnem, ops) ∧ OperandAt ops k text

/-- An operand that is an identifier but no register is the use of a label. -/
def LabelUse (line : List Char) (name : List Char) : Prop :=
  LineOperand line name ∧ isIdent name = true ∧ isaRegIndex name = none

def definitions (lines : List (List Char)) (name : List Char) : List Nat :=
  (List.range lines.length).filter fun j => (lines[j]?).bind labelOf = some name

/-- The first line whose label the table stores under this name. -/
def firstStored (lines : List (List Char)) (name : List Char) : Option Nat :=
  lines.findIdx? fun line => (labelOf line).map (List.take 63) = some name

/-! Positions in the passes. -/

def firstPositions (cap : Nat) :
    List (List Char) → Nat → Nat → List Label → List Nat
  | [], _, _, _ => []
  | line :: lines, lineno, off, labels =>
      off :: match processLine line false labels off cap lineno with
        | .error _ => []
        | .ok (emitted, labels) =>
            firstPositions cap lines (lineno + 1) ((off + emitted.size) % 2 ^ 32) labels

def secondPositions (cap : Nat) (labels : List Label) :
    List (List Char) → Nat → Nat → List Nat
  | [], _, _ => []
  | line :: lines, lineno, off =>
      off :: match processLine line true labels off cap lineno with
        | .error _ => []
        | .ok (emitted, _) =>
            secondPositions cap labels lines (lineno + 1) ((off + emitted.size) % 2 ^ 32)

/-- The two passes agree with each other and with the text. -/
structure Consistent (text : List Char) (cap : Nat) : Prop where
  positions : ∀ off labels, firstPass cap (textLines text) 1 0 [] = .ok (off, labels) →
    secondPositions cap labels (textLines text) 1 0 <+: firstPositions cap (textLines text) 1 0 []
  uses : 0 ≤ (asmAssemble text cap).ret → ∀ (i j : Nat) line name, (textLines text)[i]? = some line →
    LabelUse line name → definitions (textLines text) name = [j] →
    ∃ (write : Write) (target : Nat), (asmAssemble text cap).writes[i]? = some write ∧
      (linePositions (textLines text) 0)[j]? = some target ∧ target < 2 ^ 16 ∧
      write.bytes.drop (write.bytes.length - 2) = bigEndian 2 target
  size : 0 ≤ (asmAssemble text cap).ret →
    (asmAssemble text cap).ret = textEnd (textLines text) 0 ∧
      (asmAssemble text cap).ret ≤ cap
  inside : 0 ≤ (asmAssemble text cap).ret →
    ∀ write ∈ (asmAssemble text cap).writes, write.off + write.bytes.length ≤ cap
  fits : (asmAssemble text cap).ret ≠ -1 → textEnd (textLines text) 0 ≤ cap
  defined : (asmAssemble text cap).ret ≠ -1 → ∀ line ∈ textLines text, ∀ name,
    LabelUse line name → definitions (textLines text) name ≠ []
  small : (asmAssemble text cap).ret ≠ -1 → ∀ line ∈ textLines text, ∀ operand value,
    LineOperand line operand → parseNum operand = some value → value < 2 ^ 16

/-! Both passes take a line the same way. -/

theorem parseImm_passes {op : List Char} {labels : List Label} {lineno : Nat}
    {result : Option (BitVec 32)} (parsed : parseImm op true labels lineno = .ok result)
    (others : List Label) :
    ∃ first, parseImm op false others lineno = .ok first ∧ first.isSome = result.isSome := by
  unfold parseImm at parsed ⊢
  cases literal : charLiteral op with
  | some c =>
      simp only [literal] at parsed ⊢
      exact ⟨result, parsed, rfl⟩
  | none =>
      cases register : isaRegIndex op with
      | some index =>
          simp only [literal, register, Option.isSome_some, if_true] at parsed ⊢
          exact ⟨result, parsed, rfl⟩
      | none =>
          cases number : parseNum op with
          | some value =>
              simp only [literal, register, number] at parsed ⊢
              exact ⟨result, parsed, rfl⟩
          | none =>
              cases ident : isIdent op with
              | false =>
                  simp only [literal, register, number, ident, Bool.not_false, if_true] at parsed ⊢
                  exact ⟨result, parsed, rfl⟩
              | true =>
                  refine ⟨some 0, by simp, ?_⟩
                  simp only [literal, register, number, ident, Option.isSome_none,
                    Bool.false_eq_true, if_false, Bool.not_true] at parsed
                  split at parsed
                  · cases parsed
                  · cases parsed
                    rfl

theorem parseOperand_passes {kind : OperandKind} {text : List Char} {labels : List Label}
    {lineno : Nat} {result : Option (BitVec 32)}
    (parsed : parseOperand kind text true labels lineno = .ok result) (others : List Label) :
    ∃ first, parseOperand kind text false others lineno = .ok first ∧
      first.isSome = result.isSome := by
  cases kind with
  | reg => exact ⟨_, rfl, by cases parsed; rfl⟩
  | imm =>
      unfold parseOperand at parsed ⊢
      cases imm : parseImm text true labels lineno with
      | error err => simp [imm] at parsed
      | ok value =>
          obtain ⟨first, same, both⟩ := parseImm_passes imm others
          simp only [imm, same] at parsed ⊢
          cases value with
          | none =>
              cases parsed
              cases first with
              | none => exact ⟨none, rfl, rfl⟩
              | some number => cases both
          | some word =>
              cases first with
              | none => cases both
              | some number =>
                  refine ⟨some number, by simp, ?_⟩
                  simp only [true_and] at parsed
                  split at parsed
                  · cases parsed
                  · cases parsed
                    rfl

theorem parseOperands_passes {fields : List OpField} {tok : List Char} {labels : List Label}
    {lineno : Nat} {result : Option (List (BitVec 32))}
    (parsed : parseOperands true labels lineno fields tok = .ok result) (others : List Label) :
    ∃ first, parseOperands false others lineno fields tok = .ok first ∧
      first.isSome = result.isSome := by
  induction fields generalizing tok result with
  | nil => exact ⟨_, rfl, by cases parsed; rfl⟩
  | cons field fields ih =>
      unfold parseOperands at parsed ⊢
      by_cases blank : operandText tok = []
      · simp only [blank, if_true, Except.ok.injEq] at parsed ⊢
        exact ⟨none, rfl, by rw [← parsed]⟩
      · simp only [blank, if_false] at parsed ⊢
        cases operand : parseOperand field.kind (stripBrackets (operandText tok)) true labels
            lineno with
        | error err => simp [operand] at parsed
        | ok value =>
            obtain ⟨number, same, both⟩ := parseOperand_passes operand others
            simp only [operand, same] at parsed ⊢
            cases value with
            | none =>
                cases parsed
                cases number with
                | none => exact ⟨none, rfl, rfl⟩
                | some _ => cases both
            | some word =>
                cases number with
                | none => cases both
                | some first =>
                    cases rest : parseOperands true labels lineno fields (operandRest tok) with
                    | error err => simp [rest] at parsed
                    | ok words =>
                        obtain ⟨firstWords, sameRest, bothRest⟩ := ih rest
                        simp only [rest, Except.ok.injEq] at parsed
                        refine ⟨firstWords.map (first :: ·), by simp [sameRest], ?_⟩
                        rw [← parsed, Option.isSome_map, Option.isSome_map, bothRest]

theorem emitInsnFrom_passes {mnem ops : List Char} {labels : List Label} {off cap lineno : Nat}
    {table : List Insn} {emitted : Emitted}
    (accepted : emitInsnFrom mnem ops true labels off cap lineno table = .ok emitted)
    (others : List Label) :
    emitInsnFrom mnem ops false others off cap lineno table =
      .ok { size := emitted.size, bytes := [] } := by
  induction table with
  | nil => cases accepted
  | cons insn table ih =>
      unfold emitInsnFrom at accepted ⊢
      by_cases named : insn.name.toList = mnem
      · simp only [named, ne_eq, not_true, if_false] at accepted ⊢
        cases parsed : parseOperands true labels lineno insn.fields ops with
        | error err => simp [parsed] at accepted
        | ok values =>
            obtain ⟨first, same, both⟩ := parseOperands_passes parsed others
            simp only [parsed, same] at accepted ⊢
            cases values with
            | none =>
                cases first with
                | none => exact ih accepted
                | some _ => cases both
            | some words =>
                cases first with
                | none => cases both
                | some firstWords =>
                    simp only [Bool.not_true, Bool.false_eq_true, if_false, Bool.not_false,
                      if_true] at accepted ⊢
                    split at accepted
                    · cases accepted
                    · cases accepted
                      rfl
      · simp only [named, ne_eq, not_false_eq_true, if_true] at accepted ⊢
        exact ih accepted

/-- What the passes share at one line: the size, which is the number of written bytes reduced to
the counters' range. -/
structure Passes (first second : Except AsmError Emitted) (length : Nat) : Prop where
  sizes : ∀ emitted, second = .ok emitted →
    first = .ok { size := emitted.size, bytes := [] }
  written : ∀ emitted, second = .ok emitted →
    emitted.bytes.length = length ∧ emitted.size = length % 2 ^ 32

theorem passes_plain {lineno length n : Nat} {bytes : List (BitVec 8)} {fits : Prop}
    [Decidable fits] (small : n < 2 ^ 32) (same : bytes.length = n) (expected : n = length) :
    Passes (.ok { size := n, bytes := [] })
      (if fits then .error (outputTooLarge lineno) else .ok { size := n, bytes }) length := by
  subst expected
  constructor
  · intro emitted accepted
    split at accepted
    · cases accepted
    · cases accepted
      rfl
  · intro emitted accepted
    split at accepted
    · cases accepted
    · cases accepted
      exact ⟨same, (Nat.mod_eq_of_lt small).symm⟩

theorem passes_error {first : Except AsmError Emitted} {err : AsmError} (length : Nat) :
    Passes first (.error err) length :=
  ⟨fun _ accepted => (nomatch accepted), fun _ accepted => (nomatch accepted)⟩

theorem bigEndian_length (width value : Nat) : (bigEndian width value).length = width := by
  simp [bigEndian]

theorem emitPad_passes (rest : List Char) (first : Char) (off cap lineno : Nat) :
    Passes (emitPad (first :: rest) false off cap lineno)
      (emitPad (first :: rest) true off cap lineno) ((parseNum rest).getD 0 - off) := by
  unfold emitPad
  simp only [List.drop_succ_cons, List.drop_zero]
  cases parseNum rest with
  | none => exact passes_error _
  | some target =>
      simp only [Option.getD_some]
      split
      · exact passes_error _
      · split
        · exact passes_error _
        · split
          · exact passes_error _
          · constructor
            · intro emitted accepted
              cases accepted
              rfl
            · intro emitted accepted
              cases accepted
              exact ⟨by simp, rfl⟩

theorem emitString_passes (rest : List Char) (first : Char) (off cap lineno : Nat)
    (short : rest.length < 2 ^ 32) :
    Passes (emitString (first :: rest) false off cap lineno)
      (emitString (first :: rest) true off cap lineno) (rest.takeWhile (· ≠ '"')).length := by
  unfold emitString
  simp only [List.drop_succ_cons, List.drop_zero]
  split
  · exact passes_error _
  · refine passes_plain ?_ (by simp) rfl
    exact Nat.lt_of_le_of_lt (List.takeWhile_prefix _).length_le short

theorem dataLine_width {rest number : List Char} {width : Nat}
    (found : dataLine rest = some (width, number)) : width ≤ 8 := by
  unfold dataLine at found
  obtain ⟨entry, inside, chosen⟩ := List.exists_of_findSome?_eq_some found
  have bounded : ∀ entry ∈ dataWidths, entry.2 ≤ 8 := by decide
  dsimp only at chosen
  split at chosen
  · cases chosen
    exact bounded entry inside
  · cases chosen

theorem emitData_passes {rest number : List Char} {width : Nat} (off cap lineno : Nat)
    (found : dataLine rest = some (width, number)) :
    ∃ first second, emitData rest false off cap lineno = some first ∧
      emitData rest true off cap lineno = some second ∧ Passes first second width := by
  have small := dataLine_width found
  unfold emitData
  simp only [found]
  refine ⟨_, _, rfl, rfl, ?_⟩
  cases parseNum number with
  | none => exact passes_error _
  | some value =>
      dsimp only
      split
      · exact passes_error _
      · exact passes_plain (by omega) (bigEndian_length width value) rfl

theorem isaTable_words : ∀ insn ∈ isaTable, insn.nwords = mnemonicWords insn.name.toList := by
  decide

theorem mnemonicWords_le (mnem : List Char) : mnemonicWords mnem ≤ 5 := by
  unfold mnemonicWords
  split <;> [omega; (split <;> [omega; (split <;> omega)])]

theorem emitInsn_passes (mnem ops : List Char) (labels others : List Label)
    (off cap lineno : Nat) :
    Passes (emitInsn mnem ops false others off cap lineno)
      (emitInsn mnem ops true labels off cap lineno) (mnemonicWords mnem * 4) where
  sizes := fun _ accepted => emitInsnFrom_passes accepted others
  written := by
    intro emitted accepted
    obtain ⟨insn, inside, rfl, values, -, rfl⟩ := emitInsnFrom_row accepted
    have few := mnemonicWords_le insn.name.toList
    rw [isaEncode_length, isaTable_words insn inside]
    have small : mnemonicWords insn.name.toList * 4 < 2 ^ 32 := by omega
    exact ⟨rfl, (Nat.mod_eq_of_lt small).symm⟩

theorem emitContent_passes (p : List Char) (labels others : List Label) (off cap lineno : Nat)
    (short : p.length < 2 ^ 32) :
    Passes (emitContent p false others off cap lineno) (emitContent p true labels off cap lineno)
      (contentLength p off) := by
  cases p with
  | nil =>
      constructor
      · intro emitted accepted
        cases accepted
        rfl
      · intro emitted accepted
        cases accepted
        exact ⟨rfl, rfl⟩
  | cons first rest =>
      simp only [emitContent, contentLength]
      split
      · exact emitPad_passes rest first off cap lineno
      · split
        · exact emitString_passes rest first off cap lineno (by simp at short; omega)
        · split
          · cases found : dataLine (first :: rest) with
            | none =>
                simp only [emitData, found]
                exact emitInsn_passes _ _ labels others off cap lineno
            | some data =>
                obtain ⟨firstPass, secondPass, first, second, passes⟩ :=
                  emitData_passes off cap lineno found
                simp only [first, second]
                exact passes
          · exact passes_error _

/-! Lines of a text. -/

theorem trim_length (text : List Char) : (trim text).length ≤ text.length :=
  Nat.le_trans (List.rdropWhile_prefix _ _).length_le (List.dropWhile_suffix _).length_le

theorem contentOf_length (line : List Char) : (contentOf line).length ≤ line.length := by
  refine Nat.le_trans ?_ (trim_length line)
  unfold contentOf
  generalize trim line = p
  unfold splitLabel
  have cut : (trim (p.takeWhile (· ≠ ':'))).length ≤ p.length :=
    Nat.le_trans (trim_length _) (List.takeWhile_prefix _).length_le
  have rest : (trim ((p.dropWhile (· ≠ ':')).drop 1)).length ≤ p.length :=
    Nat.le_trans (trim_length _) (Nat.le_trans (List.drop_suffix _ _).length_le
      (List.dropWhile_suffix _).length_le)
  split
  · exact Nat.le_refl _
  · dsimp only
    split
    · exact rest
    · split
      · exact cut
      · exact Nat.le_refl _

theorem linesFrom_length {fuel : Nat} {text line : List Char}
    (inside : line ∈ linesFrom fuel text) : line.length < maxLine := by
  induction fuel generalizing text with
  | zero => cases inside
  | succ fuel ih =>
      unfold linesFrom at inside
      cases text with
      | nil => cases inside
      | cons c rest =>
          simp only [nextLine, List.mem_cons] at inside
          rcases inside with rfl | later
          · exact Nat.lt_of_le_of_lt (List.length_take_le _ _) (by decide)
          · exact ih later

theorem processLine_first (line : List Char) (labels : List Label) (off cap lineno : Nat) :
    processLine line false labels off cap lineno =
      match recordLabel (labelOf line) false labels off lineno with
      | .error err => .error err
      | .ok after => (emitContent (contentOf line) false after off cap lineno).map (·, after) := by
  unfold processLine labelOf contentOf
  dsimp only
  cases recordLabel (splitLabel (trim line)).1 false labels off lineno <;> rfl

theorem processLine_written {line : List Char} {labels after : List Label} {off cap lineno : Nat}
    {emitted : Emitted} (short : line.length < maxLine)
    (accepted : processLine line true labels off cap lineno = .ok (emitted, after)) :
    emitted.bytes.length = lineLength line off ∧ emitted.size = lineLength line off % 2 ^ 32 := by
  rw [processLine_second] at accepted
  cases content : emitContent (splitLabel (trim line)).2 true labels off cap lineno with
  | error err => rw [content] at accepted; cases accepted
  | ok result =>
      rw [content] at accepted
      cases accepted
      have bound := contentOf_length line
      exact (emitContent_passes _ labels labels off cap lineno
        (by unfold contentOf maxLine at *; omega)).written emitted content

/-- A line that the second pass accepts takes the first pass just as far. -/
theorem processLine_sizes {line : List Char} {labels table after recorded : List Label}
    {off cap lineno : Nat} {emitted firstEmitted : Emitted} (short : line.length < maxLine)
    (second : processLine line true labels off cap lineno = .ok (emitted, after))
    (first : processLine line false table off cap lineno = .ok (firstEmitted, recorded)) :
    firstEmitted.size = emitted.size ∧
      recordLabel (labelOf line) false table off lineno = .ok recorded := by
  rw [processLine_second] at second
  rw [processLine_first] at first
  cases content : emitContent (splitLabel (trim line)).2 true labels off cap lineno with
  | error err => rw [content] at second; cases second
  | ok result =>
      rw [content] at second
      cases second
      cases record : recordLabel (labelOf line) false table off lineno with
      | error err => rw [record] at first; cases first
      | ok stored =>
          have bound := contentOf_length line
          have same := (emitContent_passes _ labels stored off cap lineno
            (by unfold contentOf maxLine at *; omega)).sizes emitted content
          simp only [record, contentOf, same] at first
          cases first
          exact ⟨rfl, rfl⟩

/-! Runs of the passes. -/

def ShortLines (lines : List (List Char)) : Prop := ∀ line ∈ lines, line.length < maxLine

theorem ShortLines.head {line : List Char} {lines : List (List Char)}
    (short : ShortLines (line :: lines)) : line.length < maxLine :=
  short line List.mem_cons_self

theorem ShortLines.tail {line : List Char} {lines : List (List Char)}
    (short : ShortLines (line :: lines)) : ShortLines lines :=
  fun other inside => short other (List.mem_cons_of_mem _ inside)

theorem textLines_short (text : List Char) : ShortLines (textLines text) :=
  fun _ inside => linesFrom_length inside

theorem firstPass_cons {cap lineno off final : Nat} {line : List Char} {lines : List (List Char)}
    {table labels : List Label}
    (passed : firstPass cap (line :: lines) lineno off table = .ok (final, labels)) :
    ∃ emitted after, processLine line false table off cap lineno = .ok (emitted, after) ∧
      firstPass cap lines (lineno + 1) ((off + emitted.size) % 2 ^ 32) after =
        .ok (final, labels) := by
  unfold firstPass at passed
  cases processed : processLine line false table off cap lineno with
  | error err => rw [processed] at passed; cases passed
  | ok result =>
      rw [processed] at passed
      exact ⟨result.1, result.2, rfl, passed⟩

theorem secondPass_cons {cap lineno off final : Nat} {line : List Char}
    {lines : List (List Char)} {labels : List Label} {writes : List Write}
    (passed : secondPass cap labels (line :: lines) lineno off = (writes, .ok final)) :
    ∃ emitted after rest, processLine line true labels off cap lineno = .ok (emitted, after) ∧
      writes = { off, bytes := emitted.bytes } :: rest ∧
      secondPass cap labels lines (lineno + 1) ((off + emitted.size) % 2 ^ 32) =
        (rest, .ok final) := by
  unfold secondPass at passed
  cases processed : processLine line true labels off cap lineno with
  | error err => rw [processed] at passed; cases passed
  | ok result =>
      obtain ⟨emitted, after⟩ := result
      simp only [processed, Prod.mk.injEq] at passed
      exact ⟨emitted, after, _, rfl, passed.1.symm, Prod.ext rfl passed.2⟩

theorem secondPositions_prefix {cap : Nat} {labels : List Label} {lines : List (List Char)}
    (short : ShortLines lines) {lineno off final : Nat} {table recorded : List Label}
    (first : firstPass cap lines lineno off table = .ok (final, recorded)) :
    secondPositions cap labels lines lineno off <+: firstPositions cap lines lineno off table := by
  induction lines generalizing lineno off table with
  | nil => exact List.prefix_refl []
  | cons line lines ih =>
      obtain ⟨firstEmitted, after, processed, rest⟩ := firstPass_cons first
      unfold secondPositions firstPositions
      simp only [processed]
      refine List.cons_prefix_cons.mpr ⟨rfl, ?_⟩
      cases second : processLine line true labels off cap lineno with
      | error err => exact List.nil_prefix
      | ok result =>
          obtain ⟨sizes, -⟩ := processLine_sizes short.head second processed
          dsimp only
          rw [← sizes]
          exact ih short.tail rest

theorem firstPass_final {cap : Nat} {labels : List Label} {lines : List (List Char)}
    (short : ShortLines lines) {lineno off final last : Nat} {table recorded : List Label}
    {writes : List Write} (first : firstPass cap lines lineno off table = .ok (final, recorded))
    (second : secondPass cap labels lines lineno off = (writes, .ok last)) : final = last := by
  induction lines generalizing lineno off table writes with
  | nil =>
      cases first
      cases second
      rfl
  | cons line lines ih =>
      obtain ⟨firstEmitted, after, processed, rest⟩ := firstPass_cons first
      obtain ⟨emitted, kept, later, written, rfl, others⟩ := secondPass_cons second
      obtain ⟨sizes, -⟩ := processLine_sizes short.head written processed
      rw [sizes] at rest
      exact ih short.tail rest others

/-- Below the counters' range the second pass lies where the text says. -/
theorem secondPass_layout {cap : Nat} {labels : List Label} {lines : List (List Char)}
    (short : ShortLines lines) {lineno off final : Nat} {writes : List Write}
    (second : secondPass cap labels lines lineno off = (writes, .ok final))
    (extent : textEnd lines off < 2 ^ 32) :
    writes.map Write.off = linePositions lines off ∧ final = textEnd lines off ∧
      ∀ write ∈ writes, write.off + write.bytes.length ≤ textEnd lines off := by
  induction lines generalizing lineno off writes with
  | nil =>
      cases second
      exact ⟨rfl, rfl, fun _ inside => nomatch inside⟩
  | cons line lines ih =>
      obtain ⟨emitted, kept, later, written, rfl, others⟩ := secondPass_cons second
      obtain ⟨length, size⟩ := processLine_written short.head written
      have within := textEnd_ge lines (off + lineLength line off)
      have next : (off + emitted.size) % 2 ^ 32 = off + lineLength line off := by
        unfold textEnd at extent
        omega
      rw [next] at others
      obtain ⟨offs, last, bounded⟩ := ih short.tail others extent
      refine ⟨by simp only [List.map_cons, linePositions, offs], last, ?_⟩
      rintro write (_ | ⟨_, inside⟩)
      · dsimp only
        rw [length]
        exact within
      · exact bounded write inside

theorem firstPositions_layout {cap : Nat} {labels : List Label} {lines : List (List Char)}
    (short : ShortLines lines) {lineno off final last : Nat} {table recorded : List Label}
    {writes : List Write} (first : firstPass cap lines lineno off table = .ok (final, recorded))
    (second : secondPass cap labels lines lineno off = (writes, .ok last))
    (extent : textEnd lines off < 2 ^ 32) :
    firstPositions cap lines lineno off table = linePositions lines off := by
  induction lines generalizing lineno off table writes with
  | nil => rfl
  | cons line lines ih =>
      obtain ⟨firstEmitted, after, processed, rest⟩ := firstPass_cons first
      obtain ⟨emitted, kept, later, written, rfl, others⟩ := secondPass_cons second
      obtain ⟨length, size⟩ := processLine_written short.head written
      obtain ⟨sizes, -⟩ := processLine_sizes short.head written processed
      have within := textEnd_ge lines (off + lineLength line off)
      have next : (off + emitted.size) % 2 ^ 32 = off + lineLength line off := by
        unfold textEnd at extent
        omega
      unfold firstPositions linePositions
      simp only [processed]
      rw [sizes, next] at rest
      rw [next] at others
      rw [sizes, next, ih short.tail rest others extent]

/-! The label table. -/

def lookup (labels : List Label) (name : List Char) : Option Nat :=
  (labels.find? fun label => label.name = name).map Label.off

theorem lookup_append (table : List Label) (label : Label) (name : List Char) :
    lookup (table ++ [label]) name =
      (lookup table name).or (if label.name = name then some label.off else none) := by
  unfold lookup
  rw [List.find?_append, Option.map_or]
  by_cases same : label.name = name <;> simp [same]

theorem recordLabel_lookup {line : List Char} {table after : List Label} {off lineno : Nat}
    (recorded : recordLabel (labelOf line) false table off lineno = .ok after)
    (name : List Char) :
    lookup after name = (lookup table name).or
      (if (labelOf line).map (List.take 63) = some name then some off else none) := by
  cases label : labelOf line with
  | none =>
      rw [label] at recorded
      cases recorded
      simp
  | some defined =>
      simp only [label, recordLabel, Bool.false_eq_true, if_false] at recorded
      simp only [Option.map_some, Option.some.injEq]
      unfold addLabel at recorded
      split at recorded
      · cases recorded
      · split at recorded
        · cases recorded
        · split at recorded
          · rename_i known
            cases recorded
            by_cases same : defined.take 63 = name
            · obtain ⟨old, inside, equal⟩ := List.any_eq_true.mp known
              rw [decide_eq_true_eq] at equal
              rw [List.take_of_length_le (equal ▸ old.short)] at same
              have found : lookup table name ≠ none := by
                unfold lookup
                rw [ne_eq, Option.map_eq_none_iff, List.find?_eq_none]
                exact fun missing => missing old inside (decide_eq_true (equal.trans same))
              obtain ⟨offset, offsetEq⟩ := Option.ne_none_iff_exists'.mp found
              rw [offsetEq]
              rfl
            · simp [same]
          · split at recorded
            · cases recorded
            · cases recorded
              rw [lookup_append]
              rfl

theorem processLine_recorded {line : List Char} {table after : List Label}
    {off cap lineno : Nat} {emitted : Emitted}
    (processed : processLine line false table off cap lineno = .ok (emitted, after)) :
    recordLabel (labelOf line) false table off lineno = .ok after := by
  rw [processLine_first] at processed
  cases record : recordLabel (labelOf line) false table off lineno with
  | error err => rw [record] at processed; cases processed
  | ok stored =>
      simp only [record] at processed
      cases content : emitContent (contentOf line) false stored off cap lineno with
      | error err => rw [content] at processed; cases processed
      | ok result =>
          rw [content] at processed
          cases processed
          rfl

theorem firstStored_cons (line : List Char) (lines : List (List Char)) (name : List Char) :
    firstStored (line :: lines) name =
      if (labelOf line).map (List.take 63) = some name then some 0
      else (firstStored lines name).map (· + 1) := by
  simp [firstStored, List.findIdx?_cons]

/-- A name is looked up at the first line whose label is stored under it. -/
theorem firstPass_lookup {cap : Nat} {lines : List (List Char)} {lineno off final : Nat}
    {table recorded : List Label}
    (first : firstPass cap lines lineno off table = .ok (final, recorded)) (name : List Char) :
    lookup recorded name = (lookup table name).or
      ((firstStored lines name).bind fun j =>
        (firstPositions cap lines lineno off table)[j]?) := by
  induction lines generalizing lineno off table with
  | nil =>
      cases first
      simp [firstStored]
  | cons line lines ih =>
      obtain ⟨emitted, after, processed, rest⟩ := firstPass_cons first
      have positions : firstPositions cap (line :: lines) lineno off table =
          off :: firstPositions cap lines (lineno + 1) ((off + emitted.size) % 2 ^ 32) after := by
        rw [firstPositions]
        simp only [processed]
      rw [ih rest, recordLabel_lookup (processLine_recorded processed), Option.or_assoc,
        positions, firstStored_cons]
      by_cases same : (labelOf line).map (List.take 63) = some name
      · simp [same]
      · simp only [same, if_false, Option.none_or, Option.bind_map]
        rfl

/-! What an accepted operand is. -/

theorem parseOperand_imm {labels : List Label} {lineno : Nat} {kind : OperandKind}
    {text : List Char} {value : BitVec 32} (plain : isaRegIndex text = none)
    (parsed : parseOperand kind text true labels lineno = .ok (some value)) :
    kind = .imm ∧ parseImm text true labels lineno = .ok (some value) ∧
      value.toNat < 2 ^ 16 := by
  cases kind with
  | reg => simp [parseOperand, plain] at parsed
  | imm =>
      simp only [parseOperand] at parsed
      split at parsed
      · cases parsed
      · cases parsed
      · rename_i number imm
        simp only [true_and] at parsed
        split at parsed
        · cases parsed
        · rename_i small
          cases parsed
          exact ⟨rfl, imm, by omega⟩

theorem parseOperands_operandAt {labels : List Label} {lineno k : Nat} {fields : List OpField}
    {tok text : List Char} {values : List (BitVec 32)} (placed : OperandAt tok k text)
    (plain : isaRegIndex text = none)
    (parsed : parseOperands true labels lineno fields tok = .ok (some values)) :
    ∃ value, values[k]? = some value ∧ (fields.map OpField.kind)[k]? = some .imm ∧
      parseImm text true labels lineno = .ok (some value) ∧ value.toNat < 2 ^ 16 := by
  induction placed generalizing fields values with
  | @here tok present =>
      cases fields with
      | nil => exact absurd (parseOperands_nil parsed).1 present
      | cons field fields =>
          obtain ⟨-, value, others, operand, -, rfl⟩ := parseOperands_cons parsed
          obtain ⟨kind, imm, small⟩ := parseOperand_imm plain operand
          exact ⟨value, rfl, by simp [kind], imm, small⟩
  | @later tok k text present next ih =>
      cases fields with
      | nil => exact absurd (parseOperands_nil parsed).1 present
      | cons field fields =>
          obtain ⟨-, value, others, -, rest, rfl⟩ := parseOperands_cons parsed
          exact ih plain rest

/-! The last two bytes of an instruction with an immediate. -/

/-- A slot that leaves the low half of its word alone, or is exactly that half. -/
def OpField.LowHalf (field : OpField) : Prop :=
  field.pos2 = none ∧ (field.kind = .imm → field.pos = 0) ∧ (field.kind = .reg → 16 ≤ field.pos)

instance (field : OpField) : Decidable field.LowHalf :=
  inferInstanceAs (Decidable (_ ∧ _ ∧ _))

/-- The only immediate of the instruction is the low half of its last word. -/
def Insn.ImmediateLast (insn : Insn) : Prop :=
  ∃ last ∈ insn.words.getLast?, last.bits &&& 0xFFFF = 0 ∧ (∀ field ∈ last.ops, field.LowHalf) ∧
    (last.ops.filter fun field => field.kind = .imm).length = 1 ∧
    ∀ word ∈ insn.words.dropLast, word.ops = []

instance (insn : Insn) : Decidable insn.ImmediateLast :=
  inferInstanceAs (Decidable (∃ last ∈ insn.words.getLast?, _))

theorem isaTable_immediateLast :
    ∀ insn ∈ isaTable, .imm ∈ insn.kinds → insn.ImmediateLast := by
  decide

theorem immediateOf_toNat (word : BitVec 32) :
    (immediateOf word).toNat = word.toNat % 2 ^ 16 :=
  Nat.and_two_pow_sub_one_eq_mod word.toNat 16

theorem immediateOf_small {value : BitVec 32} (small : value.toNat < 2 ^ 16) :
    immediateOf value = value :=
  BitVec.eq_of_toNat_eq ((immediateOf_toNat value).trans (Nat.mod_eq_of_lt small))

theorem immediateOf_shift (value : BitVec 32) {amount : Nat} (large : 16 ≤ amount) :
    immediateOf (value <<< amount) = 0 := by
  apply BitVec.eq_of_toNat_eq
  rw [immediateOf_toNat, BitVec.toNat_shiftLeft, Nat.shiftLeft_eq,
    Nat.mod_mod_of_dvd _ (by decide : 2 ^ 16 ∣ 2 ^ 32)]
  exact Nat.mod_eq_zero_of_dvd (Nat.dvd_mul_left_of_dvd (Nat.pow_dvd_pow 2 large) _)

theorem insertFields_registers {fields : List OpField} (halves : ∀ field ∈ fields, field.LowHalf)
    (registers : (fields.filter fun field => field.kind = .imm).length = 0) (word : BitVec 32)
    (values : List (BitVec 32)) :
    immediateOf (insertFields fields word values).1 = immediateOf word := by
  induction fields generalizing word values with
  | nil => rfl
  | cons field fields ih =>
      obtain ⟨once, -, register⟩ := halves field List.mem_cons_self
      cases kind : field.kind with
      | imm => simp [kind] at registers
      | reg =>
          rw [insertFields, ih (fun other inside => halves other (List.mem_cons_of_mem _ inside))
            (by simpa [kind] using registers)]
          simp only [OpField.insert, once, immediateOf_or, immediateOf_shift _ (register kind)]
          exact BitVec.or_zero

theorem insertFields_immediate {fields : List OpField} (halves : ∀ field ∈ fields, field.LowHalf)
    (single : (fields.filter fun field => field.kind = .imm).length = 1) {k : Nat}
    (slot : (fields.map OpField.kind)[k]? = some .imm) {values : List (BitVec 32)}
    {value : BitVec 32} (given : values[k]? = some value) (word : BitVec 32) :
    immediateOf (insertFields fields word values).1 = immediateOf word ||| immediateOf value := by
  induction fields generalizing word values k with
  | nil => cases single
  | cons field fields ih =>
      obtain ⟨once, low, register⟩ := halves field List.mem_cons_self
      have others : ∀ other ∈ fields, other.LowHalf :=
        fun other inside => halves other (List.mem_cons_of_mem _ inside)
      cases values with
      | nil => cases given
      | cons first values =>
          rw [insertFields]
          simp only [List.headD_cons, List.tail_cons]
          cases kind : field.kind with
          | imm =>
              have rest : (fields.filter fun field => field.kind = .imm).length = 0 := by
                simpa [kind] using single
              rw [insertFields_registers others rest]
              simp only [OpField.insert, once, immediateOf_or, low kind, BitVec.shiftLeft_zero]
              cases k with
              | zero =>
                  cases given
                  rfl
              | succ k =>
                  have later : (fields.map OpField.kind)[k]? = some .imm := slot
                  obtain ⟨other, inside, imm⟩ := List.mem_map.mp (List.mem_of_getElem? later)
                  rw [List.length_eq_zero_iff, List.filter_eq_nil_iff] at rest
                  exact absurd (decide_eq_true imm) (rest other inside)
          | reg =>
              cases k with
              | zero => simp [kind] at slot
              | succ k =>
                  rw [ih others (by simpa [kind] using single) slot given]
                  simp only [OpField.insert, once, immediateOf_or,
                    immediateOf_shift _ (register kind)]
                  rw [show immediateOf word ||| 0 = immediateOf word from BitVec.or_zero]

theorem encodeWords_constant {words : List InsnWord} (constant : ∀ word ∈ words, word.ops = [])
    (last : InsnWord) (values : List (BitVec 32)) :
    encodeWords (words ++ [last]) values =
      words.map InsnWord.bits ++ [(insertFields last.ops last.bits values).1] := by
  induction words with
  | nil => rfl
  | cons word words ih =>
      simp only [List.cons_append, encodeWords, constant word List.mem_cons_self, insertFields,
        List.map_cons]
      rw [ih fun other inside => constant other (List.mem_cons_of_mem _ inside)]

theorem wordBytes_low (word : BitVec 32) :
    (ByteMemory.wordBytes word).drop 2 = bigEndian 2 (immediateOf word).toNat := by
  rw [immediateOf_toNat]
  simp only [ByteMemory.wordBytes, List.drop_succ_cons, List.drop_zero, bigEndian]
  have range : List.range 2 = [0, 1] := rfl
  rw [range]
  simp only [List.map_cons, List.map_nil, List.cons.injEq, and_true]
  constructor
  · apply BitVec.eq_of_toNat_eq
    simp only [BitVec.extractLsb'_toNat, BitVec.toNat_ofNat, Nat.shiftRight_eq_div_pow]
    omega
  · apply BitVec.eq_of_toNat_eq
    simp only [BitVec.extractLsb'_toNat, BitVec.toNat_ofNat, Nat.shiftRight_eq_div_pow]
    omega

theorem isaEncode_immediate {insn : Insn} (shape : insn.ImmediateLast) {k : Nat}
    (slot : insn.kinds[k]? = some .imm) {values : List (BitVec 32)} {value : BitVec 32}
    (given : values[k]? = some value) (small : value.toNat < 2 ^ 16) :
    (isaEncode insn values).drop ((isaEncode insn values).length - 2) =
      bigEndian 2 value.toNat := by
  obtain ⟨last, isLast, bits, halves, single, constant⟩ := shape
  have split : insn.words = insn.words.dropLast ++ [last] :=
    (List.dropLast_append_getLast? last isLast).symm
  have fields : insn.fields = last.ops := by
    unfold Insn.fields
    rw [split, List.flatMap_append, List.flatMap_eq_nil_iff.mpr constant]
    simp
  have low : immediateOf (insertFields last.ops last.bits values).1 = value := by
    have slot' : (last.ops.map OpField.kind)[k]? = some .imm := by
      rw [← fields]
      exact slot
    rw [insertFields_immediate halves single slot' given,
      show immediateOf last.bits = 0#32 from bits, BitVec.zero_or, immediateOf_small small]
  have encoded : isaEncode insn values =
      (insn.words.dropLast.map InsnWord.bits).flatMap ByteMemory.wordBytes ++
        ByteMemory.wordBytes (insertFields last.ops last.bits values).1 := by
    unfold isaEncode isaWords
    rw [split, encodeWords_constant constant, List.flatMap_append, ← split]
    simp
  rw [encoded, List.length_append, ByteMemory.wordBytes_length,
    show ∀ n, n + 4 - 2 = n + 2 by omega, List.drop_append, List.drop_of_length_le (by omega),
    List.nil_append, Nat.add_sub_cancel_left, wordBytes_low, low]

/-! Identifiers are neither numbers nor characters. -/

theorem isIdentStart_range {c : Char} (start : isIdentStart c = true) :
    c.toNat = 95 ∨ (65 ≤ c.toNat ∧ c.toNat ≤ 90) ∨ (97 ≤ c.toNat ∧ c.toNat ≤ 122) := by
  unfold isIdentStart Char.isAlpha Char.isUpper Char.isLower at start
  simp only [Bool.or_eq_true, Bool.and_eq_true, decide_eq_true_eq] at start
  rcases start with rfl | upper | lower
  · exact Or.inl rfl
  · exact Or.inr (Or.inl ⟨upper.1, upper.2⟩)
  · exact Or.inr (Or.inr ⟨lower.1, lower.2⟩)

theorem parseNum_other {c : Char} (rest : List Char) (space : isSpace c = false)
    (minus : c ≠ '-') (plus : c ≠ '+') (digit : 10 ≤ digitValue c) :
    parseNum (c :: rest) = none := by
  have zero : c ≠ '0' := by
    rintro rfl
    exact absurd digit (by decide)
  have sign : splitSign (c :: rest) = (false, c :: rest) := by
    unfold splitSign
    split
    · rename_i same; cases same; exact absurd rfl minus
    · rename_i same; cases same; exact absurd rfl plus
    · rfl
  have base : splitBase (c :: rest) = (10, c :: rest) := by
    unfold splitBase
    split
    · rename_i same; cases same; exact absurd rfl zero
    · rename_i same; cases same; exact absurd rfl zero
    · rfl
  have none : digitsValue 10 (c :: rest) = none := by
    simp [digitsValue, Nat.not_lt.mpr digit]
  simp [parseNum, minus, space, sign, base, none]

theorem isIdentStart_other {c : Char} (start : isIdentStart c = true) :
    isSpace c = false ∧ c ≠ '-' ∧ c ≠ '+' ∧ c ≠ '\'' ∧ 10 ≤ digitValue c := by
  have range := isIdentStart_range start
  have toNat_ne {other : Char} (different : c.toNat ≠ other.toNat) : c ≠ other :=
    fun same => different (congrArg Char.toNat same)
  refine ⟨?_, toNat_ne ?_, toNat_ne ?_, toNat_ne ?_, ?_⟩
  · have blank : c ≠ ' ' := toNat_ne (by change c.toNat ≠ 32; omega)
    simp only [isSpace, blank, decide_false, Bool.false_or, Bool.and_eq_false_iff,
      decide_eq_false_iff_not]
    omega
  · change c.toNat ≠ 45
    omega
  · change c.toNat ≠ 43
    omega
  · change c.toNat ≠ 39
    omega
  · have below : ¬('0' ≤ c ∧ c ≤ '9') := by
      change ¬(48 ≤ c.toNat ∧ c.toNat ≤ 57)
      omega
    unfold digitValue
    rw [if_neg below]
    split
    · omega
    · split <;> omega

theorem isIdent_parseNum {name : List Char} (ident : isIdent name = true) :
    parseNum name = none := by
  cases name with
  | nil => cases ident
  | cons c rest =>
      rw [isIdent, Bool.and_eq_true] at ident
      obtain ⟨space, minus, plus, -, digit⟩ := isIdentStart_other ident.1
      exact parseNum_other rest space minus plus digit

theorem charLiteral_some {text : List Char} {c : Char} (literal : charLiteral text = some c) :
    text = ['\'', c, '\''] := by
  unfold charLiteral at literal
  split at literal
  · split at literal
    · rename_i both
      obtain ⟨rfl, rfl⟩ := both
      cases literal
      rfl
    · cases literal
  · cases literal

theorem isIdent_charLiteral {name : List Char} (ident : isIdent name = true) :
    charLiteral name = none := by
  cases literal : charLiteral name with
  | none => rfl
  | some c =>
      rw [charLiteral_some literal, isIdent, Bool.and_eq_true] at ident
      exact absurd rfl (isIdentStart_other ident.1).2.2.2.1

theorem parseNum_charLiteral {text : List Char} {number : Nat}
    (isNumber : parseNum text = some number) : charLiteral text = none := by
  cases literal : charLiteral text with
  | none => rfl
  | some c =>
      rw [charLiteral_some literal,
        parseNum_other _ (by decide) (by decide) (by decide) (by decide)] at isNumber
      cases isNumber

theorem parseImm_label {labels : List Label} {lineno : Nat} {name : List Char}
    {value : BitVec 32} (ident : isIdent name = true) (plain : isaRegIndex name = none)
    (parsed : parseImm name true labels lineno = .ok (some value)) :
    ∃ off, lookup labels name = some off ∧ value = BitVec.ofNat 32 off := by
  simp only [parseImm, isIdent_charLiteral ident, plain, isIdent_parseNum ident, ident,
    Option.isSome_none, Bool.false_eq_true, if_false, Bool.not_true, labelOff] at parsed
  unfold lookup
  cases found : labels.find? (fun label => label.name = name) with
  | none => simp [found] at parsed
  | some label =>
      refine ⟨label.off, rfl, ?_⟩
      simp only [found] at parsed
      split at parsed
      · cases parsed
      · cases parsed
        rfl

theorem parseImm_number {labels : List Label} {lineno number : Nat} {text : List Char}
    {value : BitVec 32} (plain : isaRegIndex text = none) (isNumber : parseNum text = some number)
    (parsed : parseImm text true labels lineno = .ok (some value)) :
    value = BitVec.ofNat 32 number := by
  simp only [parseImm, parseNum_charLiteral isNumber, plain, isNumber, Option.isSome_none,
    Bool.false_eq_true, if_false, Except.ok.injEq, Option.some.injEq] at parsed
  exact parsed.symm

theorem secondPass_line {cap : Nat} {labels : List Label} {lines : List (List Char)}
    {lineno off final i : Nat} {writes : List Write} {line : List Char}
    (second : secondPass cap labels lines lineno off = (writes, .ok final))
    (inside : lines[i]? = some line) :
    ∃ write number size after, writes[i]? = some write ∧
      processLine line true labels write.off cap number =
        .ok ({ size, bytes := write.bytes }, after) := by
  induction lines generalizing lineno off writes i with
  | nil => cases inside
  | cons first lines ih =>
      obtain ⟨emitted, kept, later, written, rfl, others⟩ := secondPass_cons second
      cases i with
      | zero =>
          cases inside
          exact ⟨_, _, _, _, rfl, written⟩
      | succ i =>
          have next : lines[i]? = some line := inside
          obtain ⟨write, number, size, after, found, processed⟩ := ih others next
          exact ⟨write, number, size, after, found, processed⟩

/-- An operand of an accepted line that is no register is the immediate at its end. -/
theorem accepted_operand {line text : List Char} {labels after : List Label}
    {off cap lineno : Nat} {emitted : Emitted}
    (accepted : processLine line true labels off cap lineno = .ok (emitted, after))
    (operand : LineOperand line text) (plain : isaRegIndex text = none) :
    ∃ value, parseImm text true labels lineno = .ok (some value) ∧ value.toNat < 2 ^ 16 ∧
      emitted.bytes.drop (emitted.bytes.length - 2) = bigEndian 2 value.toNat := by
  obtain ⟨mnem, ops, k, instruction, placed⟩ := operand
  obtain ⟨insn, inside, rfl, values, parsed, rfl⟩ :=
    emitInsnFrom_row (processLine_instruction accepted instruction)
  obtain ⟨value, given, slot, imm, small⟩ := parseOperands_operandAt placed plain parsed
  have shape := isaTable_immediateLast insn inside (List.mem_of_getElem? slot)
  exact ⟨value, imm, small, isaEncode_immediate shape slot given small⟩

theorem parseNum_register {text : List Char} {number : Nat}
    (isNumber : parseNum text = some number) : isaRegIndex text = none := by
  cases found : isaRegIndex text with
  | none => rfl
  | some index =>
      obtain ⟨bound, same, -⟩ := List.findIdx?_eq_some_iff_getElem.mp found
      have named : ∀ name ∈ regNames, parseNum name.toList = none := by decide
      rw [← of_decide_eq_true same, named _ (List.getElem_mem bound)] at isNumber
      cases isNumber

/-! Assembled texts. -/

theorem asmAssemble_accepted {text : List Char} {cap : Nat}
    (succeeded : (asmAssemble text cap).ret ≠ -1) :
    ∃ final labels writes, firstPass cap (textLines text) 1 0 [] = .ok (final, labels) ∧
      final ≤ cap ∧ secondPass cap labels (textLines text) 1 0 = (writes, .ok final) ∧
      asmAssemble text cap =
        { ret := (BitVec.ofNat 32 final).toInt, writes, err := noError } := by
  unfold asmAssemble at succeeded ⊢
  cases first : firstPass cap (textLines text) 1 0 [] with
  | error err => simp [first] at succeeded
  | ok result =>
      obtain ⟨final, labels⟩ := result
      simp only [first] at succeeded ⊢
      by_cases tooLarge : cap < final
      · simp [tooLarge] at succeeded
      · simp only [tooLarge, if_false] at succeeded ⊢
        cases second : secondPass cap labels (textLines text) 1 0 with
        | mk writes outcome =>
            cases outcome with
            | error err => simp [second] at succeeded
            | ok last =>
                obtain rfl := firstPass_final (textLines_short text) first second
                exact ⟨final, labels, writes, rfl, Nat.le_of_not_lt tooLarge, second, rfl⟩

theorem linePositions_le {lines : List (List Char)} {position j target : Nat}
    (found : (linePositions lines position)[j]? = some target) :
    target ≤ textEnd lines position := by
  induction lines generalizing position j with
  | nil => cases found
  | cons line lines ih =>
      cases j with
      | zero =>
          cases found
          exact textEnd_ge (line :: lines) _
      | succ j =>
          have later : (linePositions lines (position + lineLength line position))[j]? =
              some target := found
          exact ih later

/-- In an assembled text that fits the counters, a name means the position of the first line
stored under it. -/
theorem lookup_position {text name : List Char} {cap final : Nat} {labels : List Label}
    {writes : List Write} (first : firstPass cap (textLines text) 1 0 [] = .ok (final, labels))
    (second : secondPass cap labels (textLines text) 1 0 = (writes, .ok final))
    (extent : textEnd (textLines text) 0 < 2 ^ 32) :
    lookup labels name = (firstStored (textLines text) name).bind
      fun j => (linePositions (textLines text) 0)[j]? := by
  rw [firstPass_lookup first name,
    firstPositions_layout (textLines_short text) first second extent]
  rfl

theorem label_use_encoded {text line name : List Char} {cap final i : Nat} {labels : List Label}
    {writes : List Write} (second : secondPass cap labels (textLines text) 1 0 = (writes, .ok final))
    (inside : (textLines text)[i]? = some line) (use : LabelUse line name) :
    ∃ write off, writes[i]? = some write ∧ lookup labels name = some off ∧ off % 2 ^ 32 < 2 ^ 16 ∧
      write.bytes.drop (write.bytes.length - 2) = bigEndian 2 (off % 2 ^ 32) := by
  obtain ⟨write, number, size, after, found, processed⟩ := secondPass_line second inside
  obtain ⟨operand, ident, plain⟩ := use
  obtain ⟨value, imm, small, bytes⟩ := accepted_operand processed operand plain
  obtain ⟨off, looked, rfl⟩ := parseImm_label ident plain imm
  rw [BitVec.toNat_ofNat] at small bytes
  exact ⟨write, off, found, looked, small, bytes⟩

theorem label_use_stored {text line name : List Char} {cap final : Nat} {labels : List Label}
    {writes : List Write} (first : firstPass cap (textLines text) 1 0 [] = .ok (final, labels))
    (second : secondPass cap labels (textLines text) 1 0 = (writes, .ok final))
    (inside : line ∈ textLines text) (use : LabelUse line name) :
    ∃ stored, firstStored (textLines text) name = some stored := by
  obtain ⟨i, place⟩ := List.mem_iff_getElem?.mp inside
  obtain ⟨write, off, -, looked, -⟩ := label_use_encoded second place use
  rw [firstPass_lookup first name] at looked
  obtain ⟨stored, found, -⟩ := Option.bind_eq_some_iff.mp looked
  exact ⟨stored, found⟩

theorem bigEndian_two_injective {first second : Nat} (firstSmall : first < 2 ^ 16)
    (secondSmall : second < 2 ^ 16) (same : bigEndian 2 first = bigEndian 2 second) :
    first = second := by
  have range : List.range 2 = [0, 1] := rfl
  simp only [bigEndian, range, List.map_cons, List.map_nil, List.cons.injEq, and_true] at same
  have high := congrArg BitVec.toNat same.1
  have low := congrArg BitVec.toNat same.2
  simp only [BitVec.toNat_ofNat] at high low
  omega

theorem label_use_position {text line name : List Char} {cap final i : Nat}
    {labels : List Label} {writes : List Write}
    (first : firstPass cap (textLines text) 1 0 [] = .ok (final, labels))
    (second : secondPass cap labels (textLines text) 1 0 = (writes, .ok final))
    (extent : textEnd (textLines text) 0 < 2 ^ 32)
    (inside : (textLines text)[i]? = some line) (use : LabelUse line name) :
    ∃ write stored off, writes[i]? = some write ∧
      firstStored (textLines text) name = some stored ∧
      (linePositions (textLines text) 0)[stored]? = some off ∧ off < 2 ^ 16 ∧
      write.bytes.drop (write.bytes.length - 2) = bigEndian 2 off := by
  obtain ⟨write, off, found, looked, small, bytes⟩ := label_use_encoded second inside use
  rw [lookup_position first second extent, Option.bind_eq_some_iff] at looked
  obtain ⟨stored, isStored, position⟩ := looked
  have bound := linePositions_le position
  rw [Nat.mod_eq_of_lt (by omega)] at small bytes
  exact ⟨write, stored, off, found, isStored, position, small, bytes⟩

end SymphonyPlus
