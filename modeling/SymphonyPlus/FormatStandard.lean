import SymphonyPlus.FormatNumbers

/-! Every conversion of the standard, as `vsnprintf` reads and prints it. -/

namespace SymphonyPlus.Format

inductive Value
  | integer (c : BitVec 8) (v : BitVec 32)
  | character (v : BitVec 32)
  | text (s : List (BitVec 8))

/-- A width or a precision as the format gives it; a star takes the argument it carries. -/
inductive Amount
  | absent
  | literal (digits : List (BitVec 8))
  | star (value : BitVec 32)

structure Conversion where
  flags : List (BitVec 8)
  width : Amount
  precision : Amount
  value : Value

def Amount.render : Amount → List (BitVec 8)
  | .absent => []
  | .literal digits => digits
  | .star _ => [42#8]

def Amount.args : Amount → List Argument
  | .star value => [.word value]
  | _ => []

def Value.letter : Value → BitVec 8
  | .integer c _ => c
  | .character _ => 99#8
  | .text _ => 115#8

def Value.arg : Value → Argument
  | .integer _ v => .word v
  | .character v => .word v
  | .text s => .text (some s)

def Amount.pointed : Amount → List (BitVec 8)
  | .absent => []
  | .literal digits => 46#8 :: digits
  | .star _ => [46#8, 42#8]

def Conversion.render (conv : Conversion) : List (BitVec 8) :=
  37#8 :: (conv.flags ++ (conv.width.render ++ (conv.precision.pointed ++ [conv.value.letter])))

def Conversion.args (conv : Conversion) : List Argument :=
  conv.width.args ++ (conv.precision.args ++ [conv.value.arg])

def decimalDigits (digits : List (BitVec 8)) : Prop := ∀ c ∈ digits, Convert.isdigit c.toInt

/-- The conversions of the standard; a width that starts with a zero would be a flag. -/
structure Conversion.Valid (conv : Conversion) : Prop where
  flags : ∀ c ∈ conv.flags, c ∈ [45#8, 48#8, 43#8, 32#8, 35#8]
  width : ∀ digits, conv.width = .literal digits →
    digits ≠ [] ∧ digits.head? ≠ some 48#8 ∧ decimalDigits digits
  precision : ∀ digits, conv.precision = .literal digits → decimalDigits digits
  letter : ∀ c v, conv.value = .integer c v →
    c ∈ [100#8, 105#8, 117#8, 120#8, 88#8, 111#8, 112#8]

def Field.text (f : Field) : Value → List (BitVec 8)
  | .integer c v => integerC89 f c v
  | .character v => padded f.flags.left f.width [v.setWidth 8]
  | .text s =>
      let s := s.takeWhile (· ≠ 0)
      padded f.flags.left f.width (f.precision.elim s s.take)

def flagsOf (flags : List (BitVec 8)) (left : Bool) : Flags where
  left := left || flags.contains 45#8
  zero := flags.contains 48#8
  plus := flags.contains 43#8
  space := flags.contains 32#8
  alternate := flags.contains 35#8

def Amount.negative : Amount → Bool
  | .star value => value.toInt < 0
  | _ => false

/-- The flags, the width and the precision that the standard reads in a conversion. -/
def Conversion.fieldC89 (conv : Conversion) : Field where
  flags := flagsOf conv.flags conv.width.negative
  width := match conv.width with
    | .absent => 0
    | .literal digits => Convert.numeral 10 digits
    | .star value => value.toInt.natAbs
  precision := match conv.precision with
    | .absent => none
    | .literal digits => some (Convert.numeral 10 digits)
    | .star value => if value.toInt < 0 then none else some value.toInt.toNat

/-- A number of the format, which takes no more digits once it has reached a million. -/
def cappedFrom (value : Nat) : List (BitVec 8) → Nat
  | [] => value
  | c :: digits =>
      cappedFrom (if value < 1000000 then value * 10 + (c.toNat - 48) else value) digits

/-- What the code reads instead: numbers are capped, and the least `int` is no width. -/
def Conversion.field (conv : Conversion) : Field where
  flags := flagsOf conv.flags conv.width.negative
  width := match conv.width with
    | .absent => 0
    | .literal digits => cappedFrom 0 digits
    | .star value => if value.toInt = -2147483648 then 0 else value.toInt.natAbs
  precision := match conv.precision with
    | .absent => none
    | .literal digits => some (cappedFrom 0 digits)
    | .star value => if value.toInt < 0 then none else some value.toInt.toNat

inductive Item
  | plain (c : BitVec 8)
  | percent
  | conversion (conv : Conversion)

def Item.render : Item → List (BitVec 8)
  | .plain c => [c]
  | .percent => [37#8, 37#8]
  | .conversion conv => conv.render

def Item.args : Item → List Argument
  | .conversion conv => conv.args
  | _ => []

def Item.text (read : Conversion → Field) : Item → List (BitVec 8)
  | .plain c => [c]
  | .percent => [37#8]
  | .conversion conv => (read conv).text conv.value

def Item.Valid : Item → Prop
  | .plain c => c ≠ 37#8
  | .percent => True
  | .conversion conv => conv.Valid

/-! Reading a conversion back. -/

theorem readFlags_run {fmt : List (BitVec 8)} (flags : List (BitVec 8))
    (set : ∀ c ∈ flags, c ∈ [45#8, 48#8, 43#8, 32#8, 35#8])
    (ends : ∀ c, fmt.head? = some c → c ∉ [45#8, 48#8, 43#8, 32#8, 35#8]) : ∀ read : Flags,
    readFlags read (flags ++ fmt) =
      (⟨read.left || flags.contains 45#8, read.zero || flags.contains 48#8,
        read.plus || flags.contains 43#8, read.space || flags.contains 32#8,
        read.alternate || flags.contains 35#8⟩, fmt) := by
  induction flags with
  | nil =>
      intro read
      cases fmt with
      | nil => simp [readFlags]
      | cons c fmt =>
          have other := ends c rfl
          simp only [List.mem_cons, List.not_mem_nil, or_false, not_or] at other
          obtain ⟨minus, zero, plus, space, hash⟩ := other
          simp [readFlags, minus, zero, plus, space, hash]
  | cons c flags ih =>
      intro read
      have later := ih fun d inside => set d (List.mem_cons_of_mem c inside)
      have known := set c List.mem_cons_self
      simp only [List.mem_cons, List.not_mem_nil, or_false] at known
      rcases known with rfl | rfl | rfl | rfl | rfl <;> simp [readFlags, later]

theorem digit_value {c : BitVec 8} (digit : Convert.isdigit c.toInt) :
    48 ≤ c.toNat ∧ c.toNat ≤ 57 ∧ c.toInt = c.toNat := by
  have size := c.isLt
  have signed := BitVec.toInt_eq_toNat_cond c
  simp only [Convert.isdigit, Bool.and_eq_true, decide_eq_true_eq] at digit
  split_ifs at signed <;> omega

theorem readNumber_run {fmt : List (BitVec 8)} (digits : List (BitVec 8))
    (set : decimalDigits digits)
    (ends : ∀ c, fmt.head? = some c → Convert.isdigit c.toInt = false) : ∀ value : Nat,
    readNumber value (digits ++ fmt) =
      ((cappedFrom value digits : Int), fmt) := by
  induction digits with
  | nil =>
      intro value
      cases fmt with
      | nil => simp [readNumber, cappedFrom]
      | cons c fmt => simp [readNumber, cappedFrom, ends c rfl]
  | cons c digits ih =>
      intro value
      have later := ih fun d inside => set d (List.mem_cons_of_mem c inside)
      have digit := set c List.mem_cons_self
      obtain ⟨low, high, signed⟩ := digit_value digit
      have taken : (if (value : Int) < 1000000 then value * 10 + c.toInt - 48 else value : Int) =
          (if value < 1000000 then value * 10 + (c.toNat - 48) else value : Nat) := by
        split_ifs <;> omega
      rw [List.cons_append, readNumber, if_pos digit, cappedFrom, taken, later]

/-- The letters of the conversions. -/
theorem letter_known {conv : Conversion} (valid : conv.Valid) : conv.value.letter ∈
    [100#8, 105#8, 117#8, 120#8, 88#8, 111#8, 112#8, 99#8, 115#8] := by
  cases same : conv.value with
  | integer c v =>
      have known := valid.letter c v same
      simp only [List.mem_cons, List.not_mem_nil, or_false] at known
      rcases known with rfl | rfl | rfl | rfl | rfl | rfl | rfl <;> simp [Value.letter]
  | character v => simp [Value.letter]
  | text s => simp [Value.letter]

def Amount.width : Amount → Int
  | .absent => 0
  | .literal digits => cappedFrom 0 digits
  | .star value => if value.toInt = -2147483648 then 0 else value.toInt.natAbs

theorem readWidth_run {fmt : List (BitVec 8)} {args : List Argument} {width : Amount} {flags : Flags}
    (set : ∀ digits, width = .literal digits →
      digits ≠ [] ∧ digits.head? ≠ some 48#8 ∧ decimalDigits digits)
    (ends : ∀ c, fmt.head? = some c → Convert.isdigit c.toInt = false)
    (star : fmt.head? ≠ some 42#8) :
    readWidth flags ⟨width.render ++ fmt, width.args ++ args⟩ =
      some ({ flags with left := flags.left || width.negative }, width.width, ⟨fmt, args⟩) := by
  cases width with
  | absent =>
      have none_ := readNumber_run [] (by simp [decimalDigits]) ends 0
      rw [List.nil_append] at none_
      change readNumber 0 fmt = _ at none_
      simp [readWidth, Amount.render, Amount.args, Amount.negative, Amount.width, star, none_, cappedFrom]
  | literal digits =>
      obtain ⟨some_, -, decimal⟩ := set digits rfl
      have read := readNumber_run digits decimal ends 0
      change readNumber 0 _ = _ at read
      have first : (digits ++ fmt).head? ≠ some 42#8 := by
        cases digits with
        | nil => exact absurd rfl some_
        | cons c digits =>
            rintro same
            simp only [List.cons_append, List.head?_cons, Option.some.injEq] at same
            have digit := decimal c List.mem_cons_self
            rw [same] at digit
            exact absurd digit (by decide)
      simp only [readWidth, Amount.render, Amount.args, Amount.negative, Amount.width, if_neg first, read,
        Bool.or_false, List.nil_append]
  | star value =>
      simp only [readWidth, Amount.render, Amount.args, Amount.negative, Amount.width, vaWord,
        List.singleton_append, List.head?_cons, List.tail_cons, Option.map_some, if_true]
      split_ifs with negative least
      · simp [least]
      · have size : (value.toInt.natAbs : Int) = -value.toInt := by omega
        simp [negative, size]
      · omega
      · have size : (value.toInt.natAbs : Int) = value.toInt := by omega
        have positive : decide (value.toInt < 0) = false := by simpa using negative
        simp [positive, size]

def Amount.precision : Amount → Int
  | .absent => -1
  | .literal digits => cappedFrom 0 digits
  | .star value => value.toInt

theorem readPrecision_run {fmt : List (BitVec 8)} {args : List Argument} {precision : Amount}
    (set : ∀ digits, precision = .literal digits → decimalDigits digits)
    (ends : ∀ c, fmt.head? = some c → Convert.isdigit c.toInt = false)
    (period : fmt.head? ≠ some 46#8) (star : fmt.head? ≠ some 42#8) :
    readPrecision ⟨precision.pointed ++ fmt, precision.args ++ args⟩ =
      some (precision.precision, ⟨fmt, args⟩) := by
  cases precision with
  | absent => simp [readPrecision, Amount.pointed, Amount.args, Amount.precision, period]
  | literal digits =>
      have decimal := set digits rfl
      have read := readNumber_run digits decimal ends 0
      change readNumber 0 _ = _ at read
      have first : (digits ++ fmt).head? ≠ some 42#8 := by
        cases digits with
        | nil => exact star
        | cons c digits =>
            intro same
            simp only [List.cons_append, List.head?_cons, Option.some.injEq] at same
            have digit := decimal c List.mem_cons_self
            rw [same] at digit
            exact absurd digit (by decide)
      simp only [readPrecision, Amount.pointed, Amount.args, Amount.precision, List.cons_append,
        List.head?_cons, if_true, List.tail_cons, if_neg first, read, List.nil_append]
  | star value => simp [readPrecision, Amount.pointed, Amount.args, Amount.precision, vaWord]

theorem field_width (conv : Conversion) : (conv.field.width : Int) = conv.width.width := by
  simp only [Conversion.field, Amount.width]
  cases conv.width with
  | absent => rfl
  | literal digits => rfl
  | star value =>
      simp only
      split_ifs <;> rfl

theorem field_precision (conv : Conversion) : conv.field.precision =
    if conv.precision.precision < 0 then none else some conv.precision.precision.toNat := by
  simp only [Conversion.field, Amount.precision]
  cases conv.precision with
  | absent => rfl
  | literal digits =>
      have positive : ¬((cappedFrom 0 digits : Int) < 0) := by omega
      exact (if_neg positive).symm
  | star value => rfl

theorem cappedFrom_small (digits : List (BitVec 8)) (set : decimalDigits digits) : ∀ value,
    value < 10000000 → cappedFrom value digits < 10000000 := by
  induction digits with
  | nil => exact fun value small => small
  | cons c digits ih =>
      intro value small
      have digit := digit_value (set c List.mem_cons_self)
      rw [cappedFrom]
      apply ih fun d inside => set d (List.mem_cons_of_mem c inside)
      split <;> omega

theorem width_bound {conv : Conversion} (valid : conv.Valid) : conv.field.width ≤ 2147483647 := by
  simp only [Conversion.field]
  cases same : conv.width with
  | absent => simp
  | literal digits =>
      have small := cappedFrom_small digits (valid.width digits same).2.2 0 (by omega)
      simp only
      omega
  | star value =>
      have low := BitVec.le_toInt value
      have high := BitVec.toInt_lt (x := value)
      simp only
      split_ifs <;> omega

theorem precision_bound {conv : Conversion} (valid : conv.Valid) :
    conv.precision.precision ≤ 2147483647 := by
  simp only [Amount.precision]
  cases same : conv.precision with
  | absent => simp
  | literal digits =>
      have small := cappedFrom_small digits (valid.precision digits same) 0 (by omega)
      simp only
      omega
  | star value =>
      have high := BitVec.toInt_lt (x := value)
      simp only
      omega

theorem fieldText_same (flags : Flags) (width : Nat) (text : List (BitVec 8)) :
    fieldText flags width text = padded flags.left width text := by
  have room : (if (width : Int) > text.length then (width : Int) - text.length else 0).toNat =
      width - text.length := by
    split_ifs <;> omega
  simp only [fieldText, padded, room]

theorem counted_text (s : List (BitVec 8)) (precision : Int) :
    s.take (countText precision s) =
      (if precision < 0 then none else some precision.toNat : Option Nat).elim (s.takeWhile (· ≠ 0))
        (s.takeWhile (· ≠ 0)).take := by
  have whole := List.prefix_iff_eq_take.mp (List.takeWhile_prefix (l := s) (· ≠ 0))
  simp only [countText]
  split_ifs with negative
  · exact whole.symm
  · simp only [Option.elim_some]
    rw [Nat.min_comm, ← List.take_take, ← whole]

/-- Apart from `#` on a hexadecimal zero, and from a mark in front of the longest precision. -/
def Conversion.Covered (conv : Conversion) : Prop :=
  ∀ c v, conv.value = .integer c v →
    ¬(conv.field.flags.alternate ∧ (c = 120#8 ∨ c = 88#8) ∧ v = 0 ∧ conv.field.precision ≠ some 0) ∧
    ¬(markC89 conv.field.flags c v ≠ [] ∧ conv.field.width = 0 ∧
      conv.field.precision = some 2147483647)

theorem conversion_reads {conv : Conversion} (valid : conv.Valid) (fmt : List (BitVec 8))
    (args : List Argument) :
    readFlags ⟨false, false, false, false, false⟩ (conv.flags ++ (conv.width.render ++
        (conv.precision.pointed ++ conv.value.letter :: fmt))) =
      (flagsOf conv.flags false, conv.width.render ++
        (conv.precision.pointed ++ conv.value.letter :: fmt)) ∧
    readWidth (flagsOf conv.flags false) ⟨conv.width.render ++
        (conv.precision.pointed ++ conv.value.letter :: fmt),
        conv.width.args ++ (conv.precision.args ++ args)⟩ =
      some (conv.field.flags, conv.width.width,
        ⟨conv.precision.pointed ++ conv.value.letter :: fmt, conv.precision.args ++ args⟩) ∧
    readPrecision ⟨conv.precision.pointed ++ conv.value.letter :: fmt, conv.precision.args ++ args⟩ =
      some (conv.precision.precision, ⟨conv.value.letter :: fmt, args⟩) ∧
    skipModifiers (conv.value.letter :: fmt) = conv.value.letter :: fmt := by
  have letter := letter_known valid
  generalize conv.value.letter = c at letter
  have plain : c ∉ [45#8, 48#8, 43#8, 32#8, 35#8] ∧ Convert.isdigit c.toInt = false ∧ c ≠ 46#8 ∧
      c ≠ 42#8 ∧ (c = 108#8 || c = 104#8 || c = 122#8 || c = 116#8) = false := by
    simp only [List.mem_cons, List.not_mem_nil, or_false] at letter
    rcases letter with rfl | rfl | rfl | rfl | rfl | rfl | rfl | rfl | rfl <;> decide
  obtain ⟨noFlag, noDigit, noPeriod, noStar, noModifier⟩ := plain
  have afterPrecision : ∀ d, (conv.precision.pointed ++ c :: fmt).head? = some d → d = 46#8 ∨ d = c := by
    intro d
    cases conv.precision with
    | absent => exact fun same => .inr (Option.some.inj same).symm
    | literal digits => exact fun same => .inl (Option.some.inj same).symm
    | star value => exact fun same => .inl (Option.some.inj same).symm
  refine ⟨?_, ?_, ?_, ?_⟩
  · rw [readFlags_run conv.flags valid.flags]
    · simp [flagsOf]
    · intro d first
      cases same : conv.width with
      | absent =>
          rw [same] at first
          rcases afterPrecision d first with rfl | rfl
          · decide
          · exact noFlag
      | literal digits =>
          obtain ⟨some_, noZero, decimal⟩ := valid.width digits same
          rw [same] at first
          cases digits with
          | nil => exact absurd rfl some_
          | cons e digits =>
              obtain rfl : e = d := Option.some.inj first
              have digit := decimal e List.mem_cons_self
              intro flag
              simp only [List.mem_cons, List.not_mem_nil, or_false] at flag
              rcases flag with rfl | rfl | rfl | rfl | rfl
              · exact absurd digit (by decide)
              · exact noZero rfl
              · exact absurd digit (by decide)
              · exact absurd digit (by decide)
              · exact absurd digit (by decide)
      | star value =>
          rw [same] at first
          obtain rfl : 42#8 = d := Option.some.inj first
          decide
  · have read := @readWidth_run (conv.precision.pointed ++ c :: fmt) (conv.precision.args ++ args)
      conv.width (flagsOf conv.flags false) valid.width
      (fun d first => by
        rcases afterPrecision d first with rfl | rfl
        · decide
        · exact noDigit)
      (fun first => by
        rcases afterPrecision _ first with same | same
        · exact absurd same (by decide)
        · exact noStar same.symm)
    rw [read]
    simp [Conversion.field, flagsOf, Bool.or_comm]
  · apply readPrecision_run valid.precision
    · rintro d first
      obtain rfl : c = d := Option.some.inj first
      exact noDigit
    · exact fun same => noPeriod (Option.some.inj same)
    · exact fun same => noStar (Option.some.inj same)
  · rw [skipModifiers, List.dropWhile_cons_of_neg]
    simpa using noModifier

theorem percent_absent {conv : Conversion} (valid : conv.Valid) : 37#8 ∉ conv.flags ++
    (conv.width.render ++ (conv.precision.pointed ++ [conv.value.letter])) := by
  have letter := letter_known valid
  simp only [List.mem_append, List.mem_singleton, not_or]
  refine ⟨?_, ?_, ?_, ?_⟩
  · intro inside
    exact absurd (valid.flags _ inside) (by decide)
  · cases same : conv.width with
    | absent => simp [Amount.render]
    | literal digits =>
        intro inside
        exact absurd ((valid.width digits same).2.2 _ inside) (by decide)
    | star value => simp [Amount.render]
  · cases same : conv.precision with
    | absent => simp [Amount.pointed]
    | literal digits =>
        intro inside
        simp only [Amount.pointed, List.mem_cons] at inside
        rcases inside with period | inside
        · exact absurd period (by decide)
        · exact absurd (valid.precision digits same _ inside) (by decide)
    | star value => simp [Amount.pointed]
  · intro same
    rw [← same] at letter
    exact absurd letter (by decide)

theorem conversion_emits {conv : Conversion} (valid : conv.Valid) (covered : conv.Covered)
    (fmt : List (BitVec 8)) (args : List Argument) :
    stepText ⟨conv.render ++ fmt, conv.args ++ args⟩ =
      some ⟨.more, conv.field.text conv.value, ⟨fmt, args⟩, none⟩ := by
  obtain ⟨flags, width, precision, letter⟩ := conversion_reads valid fmt (conv.value.arg :: args)
  have second : (conv.flags ++ (conv.width.render ++
      (conv.precision.pointed ++ conv.value.letter :: fmt))).head? ≠ some 37#8 := by
    have absent := percent_absent valid
    intro first
    have inside : 37#8 ∈ (conv.flags ++ (conv.width.render ++
        (conv.precision.pointed ++ [conv.value.letter]))).head? := by
      rw [← @List.head?_append_of_ne_nil _ _ fmt (by simp)]
      simpa using first
    exact absent (List.mem_of_mem_head? inside)
  simp only [stepText, Conversion.render, Conversion.args, List.cons_append, List.append_assoc,
    List.nil_append, if_neg second, ne_eq, not_true_eq_false, if_false, directiveText, flags, width,
    precision, letter, Option.bind_eq_bind, Option.bind_some]
  cases same : conv.value with
  | integer c v =>
      have known := valid.letter c v same
      obtain ⟨plain, room⟩ := covered c v same
      have integer : integerText conv.field.flags conv.width.width conv.precision.precision c v =
          conv.field.text (.integer c v) := by
        rw [← field_width, integerText_same _ (width_bound valid) (precision_bound valid),
          ← field_precision]
        · rfl
        · rintro ⟨alternate, hexadecimal, zero, precise⟩
          refine plain ⟨alternate, hexadecimal, zero, ?_⟩
          rw [field_precision]
          split_ifs
          · simp
          · intro none_
            have zero := Option.some.inj none_
            omega
        · rintro ⟨marked, narrow, longest⟩
          refine room ⟨marked, narrow, ?_⟩
          rw [field_precision, longest]
          rfl
      have other : c ≠ 99#8 ∧ c ≠ 115#8 ∧ c ≠ 110#8 := by
        simp only [List.mem_cons, List.not_mem_nil, or_false] at known
        rcases known with rfl | rfl | rfl | rfl | rfl | rfl | rfl <;> decide
      simp only [List.mem_cons, List.not_mem_nil, or_false] at known
      simp [Value.letter, Value.arg, other, known, vaWord, integer]
  | character v => simp [Value.letter, Value.arg, vaWord, Field.text, ← field_width, fieldText_same]
  | text s =>
      simp [Value.letter, Value.arg, Field.text, ← field_width, fieldText_same, counted_text,
        field_precision]

/-! Whole formats. -/

theorem items_write (items : List Item) (valid : ∀ item ∈ items, item.Valid)
    (covered : ∀ conv, Item.conversion conv ∈ items → conv.Covered) :
    Writes ⟨items.flatMap Item.render, items.flatMap Item.args⟩ true
      (items.flatMap (Item.text Conversion.field)) := by
  induction items with
  | nil => exact writes_end []
  | cons item items ih =>
      have later := ih (fun other inside => valid other (List.mem_cons_of_mem _ inside))
        (fun conv inside => covered conv (List.mem_cons_of_mem _ inside))
      have known := valid item List.mem_cons_self
      have first : stepText ⟨item.render ++ items.flatMap Item.render,
          item.args ++ items.flatMap Item.args⟩ = some ⟨.more, item.text Conversion.field,
          ⟨items.flatMap Item.render, items.flatMap Item.args⟩, none⟩ := by
        cases item with
        | plain c => simp [stepText, Item.render, Item.args, Item.text, show c ≠ 37#8 from known]
        | percent => simp [stepText, Item.render, Item.args, Item.text]
        | conversion conv => exact conversion_emits known (covered conv List.mem_cons_self) _ _
      simp only [List.flatMap_cons]
      exact writes_more first later

theorem cappedFrom_numeral (digits : List (BitVec 8)) (set : decimalDigits digits) : ∀ value,
    value * 10 ^ digits.length + Convert.numeral 10 digits < 10000000 →
    cappedFrom value digits = value * 10 ^ digits.length + Convert.numeral 10 digits := by
  induction digits with
  | nil => exact fun value _ => by simp [cappedFrom, Convert.numeral]
  | cons c digits ih =>
      intro value small
      obtain ⟨low, high, -⟩ := digit_value (set c List.mem_cons_self)
      have letter : (Convert.letterValue c).getD 0 = c.toNat - 48 := by
        rw [Convert.letterValue, if_pos ⟨low, high⟩, Option.getD_some]
      have value_ : value * 10 ^ (c :: digits).length + Convert.numeral 10 (c :: digits) =
          (value * 10 + (c.toNat - 48)) * 10 ^ digits.length + Convert.numeral 10 digits := by
        rw [← Convert.numeral_foldl, ← Convert.numeral_foldl, List.foldl_cons, letter]
      rw [value_] at small ⊢
      have below : value < 1000000 := by
        have scale := Nat.le_mul_of_pos_right (value * 10 + (c.toNat - 48)) (Nat.pow_pos (n := digits.length) (by omega : 0 < 10))
        omega
      rw [cappedFrom, if_pos below]
      exact ih (fun d inside => set d (List.mem_cons_of_mem c inside)) _ small

/-- Literal numbers of up to seven digits, and a width that can be negated. -/
structure Conversion.InRange (conv : Conversion) : Prop where
  width : ∀ digits, conv.width = .literal digits → Convert.numeral 10 digits < 10000000
  precision : ∀ digits, conv.precision = .literal digits → Convert.numeral 10 digits < 10000000
  star : ∀ value, conv.width = .star value → value.toInt ≠ -2147483648

theorem field_standard {conv : Conversion} (valid : conv.Valid) (range : conv.InRange) :
    conv.field = conv.fieldC89 := by
  have wide : conv.field.width = conv.fieldC89.width := by
    simp only [Conversion.field, Conversion.fieldC89]
    cases same : conv.width with
    | absent => rfl
    | literal digits =>
        have read := cappedFrom_numeral digits (valid.width digits same).2.2 0
          (by simpa using range.width digits same)
        simpa using read
    | star value => exact if_neg (range.star value same)
  have precise : conv.field.precision = conv.fieldC89.precision := by
    simp only [Conversion.field, Conversion.fieldC89]
    cases same : conv.precision with
    | absent => rfl
    | literal digits =>
        have read := cappedFrom_numeral digits (valid.precision digits same) 0
          (by simpa using range.precision digits same)
        simpa using read
    | star value => rfl
  have flags : conv.field.flags = conv.fieldC89.flags := rfl
  calc conv.field = ⟨conv.field.flags, conv.field.width, conv.field.precision⟩ := rfl
    _ = conv.fieldC89 := by rw [flags, wide, precise]

theorem conversions_standard (items : List Item) (valid : ∀ item ∈ items, item.Valid)
    (covered : ∀ conv, Item.conversion conv ∈ items → conv.Covered) :
    Writes ⟨items.flatMap Item.render, items.flatMap Item.args⟩ true
      (items.flatMap (Item.text Conversion.field)) ∧
    ((∀ conv, Item.conversion conv ∈ items → conv.InRange) →
      Writes ⟨items.flatMap Item.render, items.flatMap Item.args⟩ true
        (items.flatMap (Item.text Conversion.fieldC89)) ∧
      ((items.flatMap (Item.text Conversion.fieldC89)).length < 2147483647 → ∀ data cap,
        ∃ printed, vsnprintf data cap (items.flatMap Item.render) (items.flatMap Item.args) =
            some printed ∧
          printed.ret = (items.flatMap (Item.text Conversion.fieldC89)).length ∧
          Truncates data cap.toNat (items.flatMap (Item.text Conversion.fieldC89))
            printed.data)) := by
  have writes := items_write items valid covered
  refine ⟨writes, fun range => ?_⟩
  have same : items.flatMap (Item.text Conversion.field) =
      items.flatMap (Item.text Conversion.fieldC89) := by
    apply List.flatMap_congr
    intro item inside
    cases item with
    | plain c => rfl
    | percent => rfl
    | conversion conv =>
        exact congrArg (Field.text · conv.value) (field_standard (valid _ inside) (range conv inside))
  rw [same] at writes
  refine ⟨writes, fun short data cap => ?_⟩
  obtain ⟨printed, ran, -, -, both⟩ := vsnprintf_writes writes data cap
  exact ⟨printed, ran, both rfl short⟩

/-- `%+05d%%` -/
theorem padded_forty_two : Writes ⟨[37#8, 43#8, 48#8, 53#8, 100#8, 37#8, 37#8], [.word 42]⟩ true
    [43#8, 48#8, 48#8, 52#8, 50#8, 37#8] := by
  let conv : Conversion := ⟨[43#8, 48#8], .literal [53#8], .absent, .integer 100#8 42⟩
  have valid : ∀ item ∈ [Item.conversion conv, .percent], item.Valid := by
    simp only [List.forall_mem_cons, List.not_mem_nil, false_imp_iff, implies_true, and_true]
    exact ⟨⟨by simp [conv], by simp [conv, decimalDigits]; decide, by simp [conv], by simp [conv]⟩, trivial⟩
  have covered : ∀ other, Item.conversion other ∈ [Item.conversion conv, .percent] → other.Covered := by
    intro other inside
    obtain rfl : other = conv := by simpa using inside
    intro c v value
    cases value
    simp [conv, Conversion.field, flagsOf, markC89]
  have writes := (conversions_standard [.conversion conv, .percent] valid covered).1
  simpa [conv, Item.render, Item.args, Item.text, Conversion.render, Conversion.args, Amount.render,
    Amount.args, Amount.pointed, Value.letter, Value.arg, Conversion.field, Field.text, integerC89,
    signC89, markC89, preciseC89, padded, flagsOf, printedValue, baseC89, cappedFrom, alphabet,
    Amount.negative] using writes

/-! A literal width of ten million is read as one million. -/

theorem writes_length {rest : Rest} {first second : List (BitVec 8)} {supported other : Bool}
    (writes : Writes rest supported first) (again : Writes rest other second)
    (short : first.length ≤ 2147483647) (short' : second.length ≤ 2147483647) :
    first.length = second.length := by
  obtain ⟨last, ran, left_⟩ := writes.writes ⟨fun _ => 0, 0, 0⟩ []
  obtain ⟨last', ran', left'⟩ := again.writes ⟨fun _ => 0, 0, 0⟩ []
  have same : last = last' := by
    rw [ran] at ran'
    exact congrArg Prod.snd (Option.some.inj ran')
  have counted := outs_count first ⟨fun _ => 0, 0, 0⟩ (by simpa using short)
  have counted' := outs_count second ⟨fun _ => 0, 0, 0⟩ (by simpa using short')
  rw [← left_, same, left', counted'] at counted
  omega

theorem padded_length (left : Bool) (width : Nat) (text : List (BitVec 8)) :
    (padded left width text).length = max width text.length := by
  simp only [padded]
  split <;> simp only [List.length_append, List.length_replicate] <;> omega

theorem zero_length (width : Nat) :
    (Field.text ⟨flagsOf [] false, width, none⟩ (.integer 100#8 0)).length = max width 1 := by
  simp [Field.text, integerC89, signC89, markC89, preciseC89, padded_length, flagsOf, printedValue]

/-- `%10000000d` -/
theorem ten_million_capped : ¬∀ items : List Item, (∀ item ∈ items, item.Valid) →
    Writes ⟨items.flatMap Item.render, items.flatMap Item.args⟩ true
      (items.flatMap (Item.text Conversion.fieldC89)) := by
  intro standard
  let digits : List (BitVec 8) := [49#8, 48#8, 48#8, 48#8, 48#8, 48#8, 48#8, 48#8]
  let conv : Conversion := ⟨[], .literal digits, .absent, .integer 100#8 0⟩
  have valid : ∀ item ∈ [Item.conversion conv], item.Valid := by
    simp only [List.mem_singleton, forall_eq]
    exact ⟨by simp [conv], by simp [conv, digits, decimalDigits]; decide, by simp [conv], by simp [conv]⟩
  have covered : ∀ other, Item.conversion other ∈ [Item.conversion conv] → other.Covered := by
    intro other inside
    obtain rfl : other = conv := Item.conversion.inj (List.mem_singleton.mp inside)
    intro c v value
    cases value
    simp [conv, Conversion.field, flagsOf, markC89]
  have actual := items_write [.conversion conv] valid covered
  have same := writes_length actual (standard _ valid)
  have width : Convert.numeral 10 digits = 10000000 := by
    simp [digits, Convert.numeral, Convert.letterValue, Nat.ofDigits]
  have read : cappedFrom 0 digits = 1000000 := by
    simp [digits, cappedFrom]
  have million : (Item.text Conversion.field (.conversion conv)).length = 1000000 := by
    have field : conv.field = ⟨flagsOf [] false, cappedFrom 0 digits, none⟩ := rfl
    rw [Item.text, field, read, zero_length]
    simp
  have tenMillion : (Item.text Conversion.fieldC89 (.conversion conv)).length = 10000000 := by
    have field : conv.fieldC89 = ⟨flagsOf [] false, Convert.numeral 10 digits, none⟩ := rfl
    rw [Item.text, field, width, zero_length]
    simp
  simp only [List.flatMap_singleton, million, tenMillion] at same
  omega

end SymphonyPlus.Format
