import SymphonyPlus.AsmPasses

/-!
Which texts the assembler takes, said of the text alone, and from it exactly when what it
makes of a text is consistent.
-/

namespace SymphonyPlus

/-! Operands. -/

/-- A text that an operand slot takes. Only the low half of 32 bits of a number or of the place of
a label must be 16 bits. -/
inductive OperandFits (place : List Char → Option Nat) : OperandKind → List Char → Prop
  | register {text : List Char} {index : Nat} (found : isaRegIndex text = some index) :
      OperandFits place .reg text
  | character {text : List Char} {c : Char} (literal : charLiteral text = some c) :
      OperandFits place .imm text
  | number {text : List Char} {value : Nat} (isNumber : parseNum text = some value)
      (small : value % 2 ^ 32 < 2 ^ 16) : OperandFits place .imm text
  | label {text : List Char} {off : Nat} (ident : isIdent text = true)
      (plain : isaRegIndex text = none) (placed : place text = some off)
      (small : off % 2 ^ 32 < 2 ^ 16) : OperandFits place .imm text

inductive OperandsFit (place : List Char → Option Nat) : List OperandKind → List Char → Prop
  | done {tok : List Char} (blank : trim tok = []) : OperandsFit place [] tok
  | next {kind : OperandKind} {kinds : List OperandKind} {tok : List Char}
      (present : operandText tok ≠ [])
      (fits : OperandFits place kind (stripBrackets (operandText tok)))
      (others : OperandsFit place kinds (operandRest tok)) : OperandsFit place (kind :: kinds) tok

theorem labelOff_lookup {labels : List Label} {name : List Char} {off : Nat}
    (found : lookup labels name = some off) : labelOff labels name = off := by
  obtain ⟨label, same, rfl⟩ := Option.map_eq_some_iff.mp found
  rw [labelOff, same]

section
variable {labels : List Label} {lineno : Nat}

theorem parseImm_fits (lineno : Nat) {text : List Char} (fits : OperandFits (lookup labels) .imm text) :
    ∃ value, parseImm text true labels lineno = .ok (some value) ∧ value.toNat < 2 ^ 16 := by
  cases fits with
  | character literal =>
      rename_i c
      refine ⟨BitVec.ofNat 32 (c.toNat % 256), by simp only [parseImm, literal], ?_⟩
      rw [BitVec.toNat_ofNat]
      omega
  | number isNumber small =>
      rename_i value
      refine ⟨BitVec.ofNat 32 value, by simp only [parseImm, parseNum_charLiteral isNumber, parseNum_register isNumber,
        isNumber, Option.isSome_none, Bool.false_eq_true, if_false], ?_⟩
      rw [BitVec.toNat_ofNat]
      exact small
  | label ident plain placed small =>
      rename_i off
      have defined : ¬off = 2 ^ 32 - 1 := by
        rintro rfl
        exact absurd small (by decide)
      refine ⟨BitVec.ofNat 32 off, by simp only [parseImm, isIdent_charLiteral ident, plain,
        isIdent_parseNum ident, ident, labelOff_lookup placed, defined, Option.isSome_none,
        Bool.false_eq_true, if_false, Bool.not_true], ?_⟩
      rw [BitVec.toNat_ofNat]
      exact small

theorem fits_parseImm {text : List Char} {value : BitVec 32}
    (parsed : parseImm text true labels lineno = .ok (some value)) (small : value.toNat < 2 ^ 16) :
    OperandFits (lookup labels) .imm text := by
  cases literal : charLiteral text with
  | some c => exact .character literal
  | none =>
      cases register : isaRegIndex text with
      | some index =>
          rw [parseImm_register register] at parsed
          cases parsed
      | none =>
          cases number : parseNum text with
          | some written =>
              rw [parseImm_number register number parsed, BitVec.toNat_ofNat] at small
              exact .number number small
          | none =>
              cases ident : isIdent text with
              | false =>
                  simp [parseImm, literal, register, number, ident] at parsed
              | true =>
                  obtain ⟨off, placed, rfl⟩ := parseImm_label ident register parsed
                  rw [BitVec.toNat_ofNat] at small
                  exact .label ident register placed small

theorem parseOperand_fits_iff (lineno : Nat) {kind : OperandKind} {text : List Char} :
    (∃ value, parseOperand kind text true labels lineno = .ok (some value)) ↔
      OperandFits (lookup labels) kind text := by
  constructor
  · rintro ⟨value, parsed⟩
    cases kind with
    | reg =>
        simp only [parseOperand, Except.ok.injEq, Option.map_eq_some_iff] at parsed
        obtain ⟨index, found, -⟩ := parsed
        exact .register found
    | imm =>
        cases register : isaRegIndex text with
        | some index => simp [parseOperand, parseImm_register register] at parsed
        | none =>
            obtain ⟨-, imm, small⟩ := parseOperand_imm register parsed
            exact fits_parseImm imm small
  · intro fits
    cases kind with
    | reg =>
        cases fits with
        | register found => exact ⟨_, by rw [parseOperand, found]; rfl⟩
    | imm =>
        obtain ⟨value, imm, small⟩ := parseImm_fits lineno fits
        have below : ¬0xFFFF < value.toNat := by omega
        exact ⟨value, by simp only [parseOperand, imm, true_and, below, if_false]⟩

theorem parseOperands_fit_iff (lineno : Nat) {fields : List OpField} {tok : List Char} :
    (∃ values, parseOperands true labels lineno fields tok = .ok (some values)) ↔
      OperandsFit (lookup labels) (fields.map OpField.kind) tok := by
  induction fields generalizing tok with
  | nil =>
      constructor
      · rintro ⟨values, parsed⟩
        simp only [parseOperands, Except.ok.injEq] at parsed
        split at parsed
        · exact .done ‹_›
        · cases parsed
      · rintro (blank | _)
        exact ⟨[], by rw [parseOperands, if_pos blank]⟩
  | cons field fields ih =>
      constructor
      · rintro ⟨values, parsed⟩
        obtain ⟨present, value, others, operand, rest, -⟩ := parseOperands_cons parsed
        exact .next present ((parseOperand_fits_iff lineno).mp ⟨value, operand⟩) (ih.mp ⟨others, rest⟩)
      · rintro (_ | ⟨present, fits, others⟩)
        obtain ⟨value, operand⟩ := (parseOperand_fits_iff lineno).mpr fits
        obtain ⟨values, rest⟩ := ih.mpr others
        refine ⟨value :: values, ?_⟩
        simp only [parseOperands, present, if_false, operand, rest, Option.map_some]

/-- A text that one slot takes is an error in none. -/
theorem parseOperand_harmless (other : OperandKind) {kind : OperandKind} {text : List Char} {value : BitVec 32}
    (parsed : parseOperand kind text true labels lineno = .ok (some value)) :
    ∃ result, parseOperand other text true labels lineno = .ok result := by
  cases other with
  | reg => exact ⟨_, rfl⟩
  | imm =>
      cases kind with
      | imm => exact ⟨_, parsed⟩
      | reg =>
          simp only [parseOperand, Except.ok.injEq, Option.map_eq_some_iff] at parsed
          obtain ⟨index, found, -⟩ := parsed
          exact ⟨none, by rw [parseOperand, parseImm_register found]⟩

theorem parseOperands_harmless (others : List OpField) {fields : List OpField} {tok : List Char}
    {values : List (BitVec 32)}
    (parsed : parseOperands true labels lineno fields tok = .ok (some values)) :
    ∃ result, parseOperands true labels lineno others tok = .ok result := by
  induction others generalizing fields tok values with
  | nil => exact ⟨_, rfl⟩
  | cons other others ih =>
      cases fields with
      | nil =>
          have blank := (parseOperands_nil parsed).1
          exact ⟨none, by simp only [parseOperands, blank, if_true]⟩
      | cons field fields =>
          obtain ⟨present, value, rest, operand, later, -⟩ := parseOperands_cons parsed
          obtain ⟨first, accepted⟩ := parseOperand_harmless other.kind operand
          obtain ⟨result, remaining⟩ := ih later
          simp only [parseOperands, present, if_false, accepted, remaining]
          cases first with
          | none => exact ⟨none, rfl⟩
          | some first => exact ⟨result.map (first :: ·), rfl⟩

/-- Rows before the one that fits do not stop the search. -/
theorem emitInsnFrom_fits {mnem ops : List Char} {off cap : Nat} {table : List Insn} {insn : Insn}
    (inside : insn ∈ table) (named : insn.name.toList = mnem)
    (fits : OperandsFit (lookup labels) insn.kinds ops)
    (room : ∀ other ∈ table, other.name.toList = mnem → (off + other.nwords * 4) % 2 ^ 32 ≤ cap) :
    ∃ emitted, emitInsnFrom mnem ops true labels off cap lineno table = .ok emitted := by
  obtain ⟨values, parsed⟩ := (parseOperands_fit_iff lineno).mpr fits
  induction table with
  | nil => cases inside
  | cons first table ih =>
      have later : insn ∈ table →
          ∃ emitted, emitInsnFrom mnem ops true labels off cap lineno table = .ok emitted :=
        fun inside => ih inside fun other member => room other (List.mem_cons_of_mem _ member)
      rw [emitInsnFrom]
      by_cases same : first.name.toList = mnem
      · obtain ⟨result, found⟩ := parseOperands_harmless first.fields parsed
        have fitting := Nat.not_lt.mpr (room first List.mem_cons_self same)
        simp only [same, ne_eq, not_true, if_false, found]
        cases result with
        | some values =>
            simp only [Bool.not_true, Bool.false_eq_true, if_false, fitting]
            exact ⟨_, rfl⟩
        | none =>
            refine later ?_
            rcases List.mem_cons.mp inside with rfl | inside
            · rw [parsed] at found
              cases found
            · exact inside
      · rw [if_pos same]
        refine later ?_
        rcases List.mem_cons.mp inside with rfl | inside
        · exact absurd named same
        · exact inside

theorem emitInsn_room {mnem ops : List Char} {off cap : Nat} {table : List Insn} {emitted : Emitted}
    (accepted : emitInsnFrom mnem ops true labels off cap lineno table = .ok emitted) :
    (off + emitted.size) % 2 ^ 32 ≤ cap := by
  induction table with
  | nil => cases accepted
  | cons insn table ih =>
      rw [emitInsnFrom] at accepted
      split at accepted
      · exact ih accepted
      · split at accepted
        · cases accepted
        · exact ih accepted
        · simp only [Bool.not_true, Bool.false_eq_true, if_false] at accepted
          split at accepted
          · cases accepted
          · cases accepted
            exact Nat.not_lt.mp ‹_›

/-! Contents of lines. -/

end

/-- A content that both passes take at a counter value. The end of a padding is not compared with
the room that there is, only its length. -/
inductive ContentFits (place : List Char → Option Nat) (cap off : Nat) : List Char → Prop
  | nothing : ContentFits place cap off []
  | pad {rest : List Char} {target : Nat} (number : parseNum rest = some target)
      (ahead : off ≤ target) (room : target - off ≤ cap)
      (positive : (target - off) % 2 ^ 32 < 2 ^ 31) : ContentFits place cap off ('@' :: rest)
  | text {rest : List Char} (closed : '"' ∈ rest)
      (room : (off + (rest.takeWhile (· ≠ '"')).length) % 2 ^ 32 ≤ cap) :
      ContentFits place cap off ('"' :: rest)
  | data {first : Char} {rest number : List Char} {width value : Nat} (letter : first.isAlpha = true)
      (found : dataLine (first :: rest) = some (width, number))
      (isNumber : parseNum number = some value) (small : width < 8 → value < 2 ^ (width * 8))
      (room : (off + width) % 2 ^ 32 ≤ cap) : ContentFits place cap off (first :: rest)
  | instruction {first : Char} {rest : List Char} {insn : Insn} (letter : first.isAlpha = true)
      (plain : dataLine (first :: rest) = none) (inside : insn ∈ isaTable)
      (named : insn.name.toList = ((first :: rest).takeWhile isIdentRest).take 63)
      (fits : OperandsFit place insn.kinds (trim ((first :: rest).dropWhile isIdentRest)))
      (room : (off + insn.nwords * 4) % 2 ^ 32 ≤ cap) : ContentFits place cap off (first :: rest)

section
variable {labels : List Label} {off cap : Nat}

theorem emitContent_fits {p : List Char} (fits : ContentFits (lookup labels) cap off p)
    (lineno : Nat) : ∃ emitted, emitContent p true labels off cap lineno = .ok emitted := by
  have letter_plain {first : Char} (letter : first.isAlpha = true) : first ≠ '@' ∧ first ≠ '"' := by
    constructor
    · rintro rfl
      exact absurd letter (by decide)
    · rintro rfl
      exact absurd letter (by decide)
  cases fits with
  | nothing => exact ⟨_, rfl⟩
  | pad number ahead room positive =>
      rename_i rest target
      simp only [emitContent, if_true, emitPad, List.drop_succ_cons, List.drop_zero, number,
        Nat.not_lt.mpr ahead, Nat.not_lt.mpr room, Nat.not_le.mpr positive, if_false]
      exact ⟨_, rfl⟩
  | text closed room =>
      rename_i rest
      have quote : '"' ≠ '@' := by decide
      simp only [emitContent, quote, if_false, if_true, emitString, List.drop_succ_cons,
        List.drop_zero, closed, not_true, Bool.not_true, Bool.false_eq_true, Nat.not_lt.mpr room]
      exact ⟨_, rfl⟩
  | data letter found isNumber small room =>
      obtain ⟨pad, quote⟩ := letter_plain letter
      have narrow : ∀ width value : Nat, (width < 8 → value < 2 ^ (width * 8)) →
          ¬(width < 8 ∧ 2 ^ (width * 8) ≤ value) :=
        fun _ _ small both => absurd (small both.1) (Nat.not_lt.mpr both.2)
      simp only [emitContent, pad, quote, if_false, letter, if_true, emitData, found, isNumber,
        narrow _ _ small, Bool.not_true, Bool.false_eq_true, Nat.not_lt.mpr room]
      exact ⟨_, rfl⟩
  | instruction letter plain inside named fits room =>
      obtain ⟨pad, quote⟩ := letter_plain letter
      simp only [emitContent, pad, quote, if_false, letter, if_true, emitData, plain, emitInsn]
      refine emitInsnFrom_fits inside named fits fun other member same => ?_
      rwa [isaTable_words other member, same, ← named, ← isaTable_words _ inside]

theorem fits_emitContent {p : List Char} {lineno : Nat} {emitted : Emitted}
    (accepted : emitContent p true labels off cap lineno = .ok emitted) :
    ContentFits (lookup labels) cap off p := by
  cases p with
  | nil => exact .nothing
  | cons first rest =>
      rw [emitContent] at accepted
      split at accepted
      · rename_i pad
        subst pad
        simp only [emitPad, List.drop_succ_cons, List.drop_zero] at accepted
        split at accepted
        · cases accepted
        · rename_i target number
          split at accepted
          · cases accepted
          · split at accepted
            · cases accepted
            · split at accepted
              · cases accepted
              · exact .pad number (Nat.not_lt.mp ‹_›) (Nat.not_lt.mp ‹_›) (Nat.not_le.mp ‹_›)
      split at accepted
      · rename_i quote
        subst quote
        simp only [emitString, List.drop_succ_cons, List.drop_zero, Bool.not_true,
          Bool.false_eq_true, if_false] at accepted
        split at accepted
        · cases accepted
        · rename_i closed
          split at accepted
          · cases accepted
          · exact .text (not_not.mp closed) (Nat.not_lt.mp ‹_›)
      split at accepted
      · rename_i letter
        cases found : dataLine (first :: rest) with
        | none =>
            simp only [emitData, found, emitInsn] at accepted
            obtain ⟨insn, inside, named, values, parsed, rfl⟩ := emitInsnFrom_row accepted
            exact .instruction letter found inside named
              ((parseOperands_fit_iff lineno).mp ⟨values, parsed⟩) (emitInsn_room accepted)
        | some data =>
            obtain ⟨width, number⟩ := data
            simp only [emitData, found, Bool.not_true, Bool.false_eq_true, if_false] at accepted
            split at accepted
            · cases accepted
            · rename_i value isNumber
              split at accepted
              · cases accepted
              · rename_i small
                split at accepted
                · cases accepted
                · refine .data letter found isNumber (fun narrow => ?_) (Nat.not_lt.mp ‹_›)
                  exact Nat.not_le.mp fun large => small ⟨narrow, large⟩
      · cases accepted

end

/-! Lines of a text. -/

def counterEnd : List (List Char) → Nat → Nat
  | [], off => off
  | line :: lines, off => counterEnd lines ((off + lineLength line off) % 2 ^ 32)

/-- A label is kept unless the table has its name. -/
def storeLabel (labels : List Label) (name : Option (List Char)) (off : Nat) : List Label :=
  match name with
  | none => labels
  | some name =>
      if labels.any (fun label => label.name = name) then labels
      else labels ++ [.cut name off]

def labelTable : List (List Char) → Nat → List Label → List Label
  | [], _, labels => labels
  | line :: lines, off, labels =>
      labelTable lines ((off + lineLength line off) % 2 ^ 32) (storeLabel labels (labelOf line) off)

def LinesFit (place : List Char → Option Nat) (cap : Nat) : List (List Char) → Nat → Prop
  | [], _ => True
  | line :: lines, off => ContentFits place cap off (contentOf line) ∧
      LinesFit place cap lines ((off + lineLength line off) % 2 ^ 32)

def PlainLabels (lines : List (List Char)) : Prop :=
  ∀ line ∈ lines, ∀ name, labelOf line = some name → isaRegIndex name = none

/-- A text that the assembler takes: every line of it, the number of labels and the size. -/
structure Assembles (text : List Char) (cap : Nat) : Prop where
  plain : PlainLabels (textLines text)
  few : (labelTable (textLines text) 0 []).length ≤ maxLabels
  lines : LinesFit (lookup (labelTable (textLines text) 0 [])) cap (textLines text) 0
  room : counterEnd (textLines text) 0 ≤ cap
  sound : counterEnd (textLines text) 0 ≠ 2 ^ 32 - 1

theorem storeLabel_length (labels : List Label) (name : Option (List Char)) (off : Nat) :
    labels.length ≤ (storeLabel labels name off).length := by
  cases name with
  | none => exact le_refl _
  | some name =>
      rw [storeLabel]
      split
      · exact le_refl _
      · rw [List.length_append]
        exact Nat.le_add_right _ _

theorem labelTable_length (lines : List (List Char)) (off : Nat) (labels : List Label) :
    labels.length ≤ (labelTable lines off labels).length := by
  induction lines generalizing off labels with
  | nil => exact le_refl _
  | cons line lines ih => exact (storeLabel_length labels _ off).trans (ih _ _)

theorem labelOf_ident {line name : List Char} (label : labelOf line = some name) :
    isIdent name = true := by
  rw [labelOf, splitLabel] at label
  split at label
  · cases label
  · dsimp only at label
    split at label
    · cases label
      assumption
    · split at label
      · cases label
      · cases label

theorem recordLabel_stored {line : List Char} {table after : List Label} {off lineno : Nat}
    (few : table.length ≤ maxLabels)
    (recorded : recordLabel (labelOf line) false table off lineno = .ok after) :
    after = storeLabel table (labelOf line) off ∧ after.length ≤ maxLabels ∧
      ∀ name, labelOf line = some name → isaRegIndex name = none := by
  cases label : labelOf line with
  | none =>
      rw [label] at recorded
      cases recorded
      exact ⟨rfl, few, fun name defined => nomatch defined⟩
  | some defined =>
      simp only [label, recordLabel, Bool.false_eq_true, if_false, addLabel, labelOf_ident label,
        Bool.not_true] at recorded
      split at recorded
      · cases recorded
      · rename_i plain
        have register : ∀ name, some defined = some name → isaRegIndex name = none := by
          rintro name ⟨⟩
          rwa [Option.not_isSome_iff_eq_none] at plain
        split at recorded
        · rename_i known
          cases recorded
          exact ⟨by rw [storeLabel, if_pos known], few, register⟩
        · rename_i new
          split at recorded
          · cases recorded
          · rename_i room
            cases recorded
            refine ⟨by rw [storeLabel, if_neg new], ?_, register⟩
            rw [List.length_append, List.length_singleton]
            omega

theorem recordLabel_fits {line : List Char} {table : List Label} {off : Nat} (lineno : Nat)
    (plain : ∀ name, labelOf line = some name → isaRegIndex name = none)
    (few : (storeLabel table (labelOf line) off).length ≤ maxLabels) :
    recordLabel (labelOf line) false table off lineno =
      .ok (storeLabel table (labelOf line) off) := by
  cases label : labelOf line with
  | none => rfl
  | some defined =>
      rw [label] at few
      simp only [recordLabel, Bool.false_eq_true, if_false, addLabel, labelOf_ident label,
        plain defined label, Option.isSome_none, Bool.not_true]
      rw [storeLabel] at few ⊢
      split
      · rfl
      · rename_i new
        rw [if_neg new, List.length_append, List.length_singleton] at few
        exact if_neg (by omega)

theorem contentOf_short {line : List Char} (short : line.length < maxLine) :
    (contentOf line).length < 2 ^ 32 := by
  have bound := contentOf_length line
  rw [maxLine] at short
  omega

/-- Lines that fit go through the first pass. -/
theorem firstPass_fits {labels : List Label} {cap : Nat} {lines : List (List Char)}
    (short : ShortLines lines) (plain : PlainLabels lines) {off : Nat} {table : List Label}
    (few : (labelTable lines off table).length ≤ maxLabels)
    (fit : LinesFit (lookup labels) cap lines off) (lineno : Nat) :
    firstPass cap lines lineno off table = .ok (counterEnd lines off, labelTable lines off table) := by
  induction lines generalizing lineno off table with
  | nil => rfl
  | cons line lines ih =>
      obtain ⟨content, rest⟩ := fit
      obtain ⟨emitted, accepted⟩ := emitContent_fits content lineno
      have recorded := recordLabel_fits lineno (plain line List.mem_cons_self)
        ((labelTable_length lines _ _).trans few)
      have passes := emitContent_passes (contentOf line) labels (storeLabel table (labelOf line) off)
        off cap lineno (contentOf_short short.head)
      have processed : processLine line false table off cap lineno =
          .ok ({ size := emitted.size, bytes := [] }, storeLabel table (labelOf line) off) := by
        rw [processLine_first, recorded]
        simp only [passes.sizes emitted accepted]
        rfl
      have size : emitted.size = lineLength line off % 2 ^ 32 := (passes.written emitted accepted).2
      have later := ih short.tail (fun other inside => plain other (List.mem_cons_of_mem _ inside))
        few rest (lineno + 1)
      rw [firstPass, processed]
      change firstPass cap lines (lineno + 1) ((off + emitted.size) % 2 ^ 32) _ = _
      rw [size, Nat.add_mod_mod]
      exact later

theorem secondPass_fits {labels : List Label} {cap : Nat} {lines : List (List Char)}
    (short : ShortLines lines) {off : Nat} (fit : LinesFit (lookup labels) cap lines off)
    (lineno : Nat) :
    ∃ writes, secondPass cap labels lines lineno off = (writes, .ok (counterEnd lines off)) := by
  induction lines generalizing lineno off with
  | nil => exact ⟨[], rfl⟩
  | cons line lines ih =>
      obtain ⟨content, rest⟩ := fit
      obtain ⟨emitted, accepted⟩ := emitContent_fits content lineno
      have processed : processLine line true labels off cap lineno = .ok (emitted, labels) := by
        rw [processLine_second]
        change (emitContent (contentOf line) true labels off cap lineno).map _ = _
        rw [accepted]
        rfl
      have size := (processLine_written short.head processed).2
      obtain ⟨writes, later⟩ := ih short.tail rest (lineno + 1)
      refine ⟨{ off, bytes := emitted.bytes } :: writes, ?_⟩
      simp only [secondPass, processed, size, Nat.add_mod_mod, later, counterEnd]

/-- Lines that go through both passes fit. -/
theorem passes_fit {labels : List Label} {cap : Nat} {lines : List (List Char)}
    (short : ShortLines lines) {lineno off final last : Nat} {table recorded : List Label}
    {writes : List Write} (few : table.length ≤ maxLabels)
    (first : firstPass cap lines lineno off table = .ok (final, recorded))
    (second : secondPass cap labels lines lineno off = (writes, .ok last)) :
    LinesFit (lookup labels) cap lines off ∧ PlainLabels lines ∧ final = counterEnd lines off ∧
      recorded = labelTable lines off table ∧ recorded.length ≤ maxLabels := by
  induction lines generalizing lineno off table writes with
  | nil =>
      cases first
      exact ⟨trivial, (fun line inside => nomatch inside), rfl, rfl, few⟩
  | cons line lines ih =>
      obtain ⟨firstEmitted, after, processed, rest⟩ := firstPass_cons first
      obtain ⟨emitted, kept, later, written, rfl, others⟩ := secondPass_cons second
      obtain ⟨sizes, stored⟩ := processLine_sizes short.head written processed
      obtain ⟨rfl, room, register⟩ := recordLabel_stored few stored
      have size := (processLine_written short.head written).2
      rw [sizes, size, Nat.add_mod_mod] at rest
      rw [size, Nat.add_mod_mod] at others
      obtain ⟨fit, plain, ends, tables, bounded⟩ := ih short.tail room rest others
      refine ⟨⟨?_, fit⟩, ?_, ends, tables, bounded⟩
      · rw [processLine_second] at written
        cases content : emitContent (contentOf line) true labels off cap lineno with
        | error err =>
            rw [show (splitLabel (trim line)).2 = contentOf line from rfl, content] at written
            cases written
        | ok result => exact fits_emitContent content
      · rintro other (_ | ⟨_, inside⟩)
        · exact register
        · exact plain other inside

theorem counterEnd_lt (lines : List (List Char)) {off : Nat} (small : off < 2 ^ 32) :
    counterEnd lines off < 2 ^ 32 := by
  induction lines generalizing off with
  | nil => exact small
  | cons line lines ih => exact ih (Nat.mod_lt _ (by decide))

theorem toInt_ne_iff {final : Nat} (small : final < 2 ^ 32) :
    (BitVec.ofNat 32 final).toInt ≠ -1 ↔ final ≠ 2 ^ 32 - 1 := by
  rw [BitVec.toInt_eq_toNat_cond, BitVec.toNat_ofNat, Nat.mod_eq_of_lt small]
  split
  · omega
  · omega

/-- The assembler takes a text exactly if all of it fits. -/
theorem assembles_iff (text : List Char) (cap : Nat) :
    (asmAssemble text cap).ret ≠ -1 ↔ Assembles text cap := by
  have short := textLines_short text
  have small := counterEnd_lt (textLines text) (show 0 < 2 ^ 32 by decide)
  constructor
  · intro succeeded
    obtain ⟨final, labels, writes, first, room, second, result⟩ := asmAssemble_accepted succeeded
    obtain ⟨fit, plain, rfl, rfl, few⟩ := passes_fit short (Nat.zero_le _) first second
    rw [result] at succeeded
    exact ⟨plain, few, fit, room, (toInt_ne_iff small).mp succeeded⟩
  · intro assembles
    have first := firstPass_fits short assembles.plain assembles.few assembles.lines 1
    obtain ⟨writes, second⟩ := secondPass_fits short assembles.lines 1
    have room := Nat.not_lt.mpr assembles.room
    have result : (asmAssemble text cap).ret =
        (BitVec.ofNat 32 (counterEnd (textLines text) 0)).toInt := by
      simp only [asmAssemble, first, room, if_false, second]
    rw [result]
    exact (toInt_ne_iff small).mpr assembles.sound

/-! When the passes are consistent. -/

/-- Numbers fit the 32 bits they are stored in, sizes add up below the counters' range, and no
label is hidden by a longer one that is cut to its name. Where the counter ends from 2^31 on, the
result is negative: then the sizes only have to fit, and the labels to be defined. -/
structure Unambiguous (text : List Char) (cap : Nat) : Prop where
  numbers : ∀ line ∈ textLines text, ∀ operand value,
    LineOperand line operand → parseNum operand = some value → value < 2 ^ 32
  extent : textEnd (textLines text) 0 < 2 ^ 32 ∨
    (2 ^ 31 ≤ counterEnd (textLines text) 0 ∧ textEnd (textLines text) 0 ≤ cap)
  names : ∀ line ∈ textLines text, ∀ name, LabelUse line name →
    ∀ stored, firstStored (textLines text) name = some stored →
      definitions (textLines text) name ≠ [] ∧
      (counterEnd (textLines text) 0 < 2 ^ 31 → ∀ j, definitions (textLines text) name = [j] →
        (linePositions (textLines text) 0)[stored]? = (linePositions (textLines text) 0)[j]?)

/-- What both passes make of a text that assembles. -/
theorem asmAssemble_counter {text : List Char} {cap : Nat}
    (succeeded : (asmAssemble text cap).ret ≠ -1) :
    ∃ final labels writes, firstPass cap (textLines text) 1 0 [] = .ok (final, labels) ∧
      final ≤ cap ∧ secondPass cap labels (textLines text) 1 0 = (writes, .ok final) ∧
      asmAssemble text cap = { ret := (BitVec.ofNat 32 final).toInt, writes, err := noError } ∧
      final = counterEnd (textLines text) 0 ∧ final < 2 ^ 32 := by
  obtain ⟨final, labels, writes, first, room, second, result⟩ := asmAssemble_accepted succeeded
  obtain ⟨-, -, ends, -⟩ := passes_fit (textLines_short text) (Nat.zero_le _) first second
  have small := counterEnd_lt (textLines text) (show 0 < 2 ^ 32 by decide)
  exact ⟨final, labels, writes, first, room, second, result, ends, ends ▸ small⟩

theorem toInt_nonneg_iff {final : Nat} (small : final < 2 ^ 32) :
    0 ≤ (BitVec.ofNat 32 final).toInt ↔ final < 2 ^ 31 := by
  rw [BitVec.toInt_eq_toNat_cond, BitVec.toNat_ofNat, Nat.mod_eq_of_lt small]
  split
  · omega
  · omega

theorem toInt_small {final : Nat} (small : final < 2 ^ 31) :
    (BitVec.ofNat 32 final).toInt = final := by
  rw [BitVec.toInt_eq_toNat_cond, BitVec.toNat_ofNat, Nat.mod_eq_of_lt (by omega)]
  exact if_pos (by omega)

theorem consistent_of_unambiguous {text : List Char} {cap : Nat}
    (clear : Assembles text cap → Unambiguous text cap) : Consistent text cap := by
  have short := textLines_short text
  have clearly (succeeded : (asmAssemble text cap).ret ≠ -1) : Unambiguous text cap :=
    clear ((assembles_iff text cap).mp succeeded)
  have extent (nonneg : 0 ≤ (asmAssemble text cap).ret) : textEnd (textLines text) 0 < 2 ^ 32 := by
    have succeeded : (asmAssemble text cap).ret ≠ -1 := by omega
    obtain ⟨final, labels, writes, -, -, -, result, ends, small⟩ := asmAssemble_counter succeeded
    rw [result, toInt_nonneg_iff small, ends] at nonneg
    exact (clearly succeeded).extent.resolve_right fun far => Nat.not_lt.mpr far.1 nonneg
  refine ⟨fun _ _ first => secondPositions_prefix short first, ?_, ?_, ?_, ?_, ?_, ?_⟩
  · intro nonneg i j line name inside use defined
    have succeeded : (asmAssemble text cap).ret ≠ -1 := by omega
    have extent := extent nonneg
    obtain ⟨final, labels, writes, first, room, second, result, ends, small⟩ :=
      asmAssemble_counter succeeded
    rw [result, toInt_nonneg_iff small, ends] at nonneg
    obtain ⟨write, stored, off, found, isStored, position, narrow, bytes⟩ :=
      label_use_position first second extent inside use
    have names := (clearly succeeded).names line (List.mem_of_getElem? inside) name use stored isStored
    rw [result]
    exact ⟨write, off, found, names.2 nonneg j defined ▸ position, narrow, bytes⟩
  · intro nonneg
    have succeeded : (asmAssemble text cap).ret ≠ -1 := by omega
    obtain ⟨final, labels, writes, first, room, second, result, ends, small⟩ :=
      asmAssemble_counter succeeded
    obtain ⟨-, last, -⟩ := secondPass_layout short second (extent nonneg)
    rw [result] at nonneg ⊢
    dsimp only at nonneg ⊢
    rw [toInt_small ((toInt_nonneg_iff small).mp nonneg)]
    omega
  · intro nonneg write inside
    have succeeded : (asmAssemble text cap).ret ≠ -1 := by omega
    obtain ⟨final, labels, writes, first, room, second, result, -⟩ := asmAssemble_counter succeeded
    obtain ⟨-, last, bounded⟩ := secondPass_layout short second (extent nonneg)
    rw [result] at inside
    have within := bounded write inside
    omega
  · intro succeeded
    obtain ⟨final, labels, writes, first, room, second, result, -⟩ := asmAssemble_counter succeeded
    rcases (clearly succeeded).extent with near | far
    · obtain ⟨-, last, -⟩ := secondPass_layout short second near
      omega
    · exact far.2
  · intro succeeded line inside name use
    obtain ⟨final, labels, writes, first, room, second, result, -⟩ := asmAssemble_counter succeeded
    obtain ⟨stored, isStored⟩ := label_use_stored first second inside use
    exact ((clearly succeeded).names line inside name use stored isStored).1
  · intro succeeded line inside operand value used isNumber
    obtain ⟨final, labels, writes, first, room, second, result, -⟩ := asmAssemble_counter succeeded
    obtain ⟨i, place⟩ := List.mem_iff_getElem?.mp inside
    obtain ⟨write, number, size, after, found, processed⟩ := secondPass_line second place
    have plain := parseNum_register isNumber
    obtain ⟨word, imm, small, -⟩ := accepted_operand processed used plain
    rw [parseImm_number plain isNumber imm, BitVec.toNat_ofNat,
      Nat.mod_eq_of_lt ((clearly succeeded).numbers line inside operand value used isNumber)] at small
    exact small

theorem unambiguous_of_consistent {text : List Char} {cap : Nat} (consistent : Consistent text cap)
    (assembles : Assembles text cap) : Unambiguous text cap := by
  have succeeded := (assembles_iff text cap).mpr assembles
  obtain ⟨final, labels, writes, first, room, second, result, ends, small⟩ :=
    asmAssemble_counter succeeded
  have nonneg (near : counterEnd (textLines text) 0 < 2 ^ 31) : 0 ≤ (asmAssemble text cap).ret := by
    rw [result]
    exact (toInt_nonneg_iff small).mpr (ends ▸ near)
  have extent (near : counterEnd (textLines text) 0 < 2 ^ 31) :
      textEnd (textLines text) 0 < 2 ^ 32 := by
    have size := (consistent.size (nonneg near)).1
    rw [result, toInt_small (ends ▸ near)] at size
    dsimp only at size
    omega
  refine ⟨?_, ?_, ?_⟩
  · intro line inside operand value used isNumber
    have small := consistent.small succeeded line inside operand value used isNumber
    omega
  · rcases Nat.lt_or_ge (counterEnd (textLines text) 0) (2 ^ 31) with near | far
    · exact .inl (extent near)
    · exact .inr ⟨far, consistent.fits succeeded⟩
  · intro line inside name use stored isStored
    refine ⟨consistent.defined succeeded line inside name use, fun near j defined => ?_⟩
    obtain ⟨i, place⟩ := List.mem_iff_getElem?.mp inside
    obtain ⟨write, target, found, position, narrow, bytes⟩ :=
      consistent.uses (nonneg near) i j line name place use defined
    obtain ⟨write', stored', off, found', isStored', position', narrow', bytes'⟩ :=
      label_use_position first second (extent near) place use
    rw [result] at found
    obtain rfl := Option.some.inj (found.symm.trans found')
    obtain rfl := Option.some.inj (isStored.symm.trans isStored')
    obtain rfl := bigEndian_two_injective narrow narrow' (bytes.symm.trans bytes')
    rw [position, position']

/-- The two passes are consistent on a text exactly if it does not assemble or is unambiguous. -/
theorem asmAssemble_consistent_iff (text : List Char) (cap : Nat) :
    Consistent text cap ↔ (Assembles text cap → Unambiguous text cap) :=
  ⟨unambiguous_of_consistent, consistent_of_unambiguous⟩

/-- A number of 33 bits is cut to its low bits and assembled. -/
theorem wide_number_inconsistent : ¬Consistent "mov r1, 0x100000005".toList 64 := by
  intro consistent
  have last : OperandAt " 0x100000005".toList 0 "0x100000005".toList := .here (by decide)
  have operand : LineOperand "mov r1, 0x100000005".toList "0x100000005".toList :=
    ⟨"mov".toList, "r1, 0x100000005".toList, 1, by decide, .later (by decide) last⟩
  have small := consistent.small (by decide) _ (by decide) _ 0x100000005 operand (by decide)
  exact absurd small (by decide)

end SymphonyPlus
