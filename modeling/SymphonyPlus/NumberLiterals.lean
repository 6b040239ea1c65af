import SymphonyPlus.Unparse

/-!
The numbers that `symcc/src/tokenize.c` reads from the digits of a source text. The digits of a
malformed octal literal are read twice, and the second reading goes on where the first stopped.
-/

namespace SymphonyPlus

def numeralFrom (base start : Nat) (digits : List Char) : Nat :=
  digits.foldl (fun value c => value * base + digitValue c) start

def numeral (base : Nat) (digits : List Char) : Nat := numeralFrom base 0 digits

/-- A digit string as C spells it, or an octal one that goes on with decimal digits. -/
def IsLiteral : List Char → Prop
  | '0' :: x :: rest =>
      if x = 'x' ∨ x = 'X' then rest ≠ [] ∧ ∀ c ∈ rest, isHexDigit c = true
      else ∀ c ∈ x :: rest, c.isDigit = true
  | digits => digits ≠ [] ∧ ∀ c ∈ digits, c.isDigit = true

/-- The base of a literal and the digits that count in it. A malformed octal one is decimal. -/
def literalBase : List Char → Nat × List Char
  | '0' :: x :: rest =>
      if x = 'x' ∨ x = 'X' then (16, rest)
      else if (x :: rest).all isOctalDigit then (8, x :: rest)
      else (10, '0' :: x :: rest)
  | digits => (10, digits)

def literalValue (spelling : List Char) : Nat :=
  numeral (literalBase spelling).1 (literalBase spelling).2

def unsignedSuffixes : List (List Char) := ["u", "U"].map String.toList

def longSuffixes : List (List Char) := ["l", "L", "ll", "LL"].map String.toList

def suffixes : List (List Char) :=
  [] :: (unsignedSuffixes ++ longSuffixes ++
    unsignedSuffixes.flatMap (fun u => longSuffixes.map (u ++ ·)) ++
    longSuffixes.flatMap (fun l => unsignedSuffixes.map (l ++ ·)))

/-- The number that the bits of a token's value stand for. -/
def tokenNumber (build : Build) (t : Token) : Int :=
  if build = .native && t.isUnsigned then t.val % 2 ^ 32 else t.val

/-- Behind every suffix and in front of every text the digits have their number, or the message
says that it is too large. -/
def LiteralMeans (build : Build) (spelling : List Char) : Prop :=
  ∀ suffix ∈ suffixes, ∀ rest : List Char, rest.head?.any isIdentRest = false →
    if literalValue spelling ≤ build.literalMax then
      ∃ t, lexToken build (spelling ++ (suffix ++ rest)) = .ok (t, rest) ∧
        t.text = spelling ++ suffix ∧ tokenNumber build t = literalValue spelling
    else
      lexToken build (spelling ++ (suffix ++ rest)) = exitWith "integer literal out of range\n"

/-- The digits before the first 8 or 9 of a malformed octal literal and the ones from there on. -/
def octalPart (spelling : List Char) : List Char := spelling.takeWhile isOctalDigit

def decimalPart (spelling : List Char) : List Char := spelling.dropWhile isOctalDigit

def Malformed (spelling : List Char) : Prop :=
  spelling.head? = some '0' ∧ (∀ c ∈ spelling, c.isDigit = true) ∧ decimalPart spelling ≠ []

/-- A malformed octal literal loses nothing where its octal part is zero or a part is too large. -/
def RereadWhole (build : Build) (spelling : List Char) : Prop :=
  Malformed spelling → (∀ c ∈ octalPart spelling, c = '0') ∨
    build.literalMax < numeral 8 (octalPart spelling) ∨
    build.literalMax < numeral 10 (decimalPart spelling)

/-! Accumulation. -/

theorem numeralFrom_ge {base start : Nat} {digits : List Char} (positive : 0 < base) :
    start ≤ numeralFrom base start digits := by
  induction digits generalizing start with
  | nil => exact Nat.le_refl start
  | cons c rest ih =>
      have step : start ≤ start * base + digitValue c :=
        Nat.le_add_right_of_le (Nat.le_mul_of_pos_right start positive)
      exact Nat.le_trans step ih

theorem numeralFrom_append (base start : Nat) (first second : List Char) :
    numeralFrom base start (first ++ second) =
      numeralFrom base (numeralFrom base start first) second := by
  simp only [numeralFrom, List.foldl_append]

theorem numeralFrom_start (base start : Nat) (digits : List Char) :
    numeralFrom base start digits = start * base ^ digits.length + numeral base digits := by
  induction digits generalizing start with
  | nil => simp [numeralFrom, numeral]
  | cons c rest ih =>
      have split (first : Nat) : numeralFrom base first (c :: rest) =
          numeralFrom base (first * base + digitValue c) rest := rfl
      rw [numeral, split, split, ih, ih (0 * base + digitValue c), List.length_cons, Nat.pow_succ,
        Nat.zero_mul, Nat.zero_add, Nat.add_mul, Nat.mul_assoc, Nat.mul_comm base, Nat.add_assoc]

theorem readDigits_numeral {build : Build} {base start : Nat} {digits : List Char}
    (small : base ≤ 16) (digit : ∀ c ∈ digits, digitValue c < base)
    (fits : start ≤ build.literalMax) :
    readDigits build base start digits =
      if numeralFrom base start digits ≤ build.literalMax then
        .ok (numeralFrom base start digits)
      else exitWith "integer literal out of range\n" := by
  induction digits generalizing start with
  | nil => simp [readDigits, numeralFrom, fits, pure, Except.pure]
  | cons c rest ih =>
      have first := digit c List.mem_cons_self
      have below : digitValue c ≤ build.literalMax := by
        cases build <;> simp only [Build.literalMax] <;> omega
      have guard : (build.literalMax - digitValue c) / base < start ↔
          build.literalMax < start * base + digitValue c := by
        rw [Nat.div_lt_iff_lt_mul (by omega)]
        omega
      have unfolded : readDigits build base start (c :: rest) =
          (ccAccumulate build base start (digitValue c)).bind fun value =>
            readDigits build base value rest := rfl
      rw [unfolded, ccAccumulate]
      by_cases tooLarge : build.literalMax < start * base + digitValue c
      · rw [if_pos (guard.mpr tooLarge), if_neg]
        · rfl
        · have grown : start * base + digitValue c ≤ numeralFrom base start (c :: rest) :=
            numeralFrom_ge (by omega)
          omega
      · rw [if_neg (fun less => tooLarge (guard.mp less))]
        exact ih (fun d member => digit d (List.mem_cons_of_mem c member)) (by omega)

theorem octal_isDigit {c : Char} (octal : isOctalDigit c = true) : c.isDigit = true := by
  simp only [isOctalDigit, Bool.and_eq_true, decide_eq_true_eq] at octal
  have upper : c ≤ '9' := Char.le_trans octal.2 (by decide)
  simp only [Char.isDigit, Bool.and_eq_true, decide_eq_true_eq]
  exact ⟨octal.1, upper⟩

theorem hex_identRest {c : Char} (hex : isHexDigit c = true) : isIdentRest c = true := by
  have small : digitValue c < 16 := of_decide_eq_true hex
  rw [digitValue] at small
  unfold isIdentRest Char.isAlphanum Char.isAlpha Char.isUpper Char.isLower
  simp only [Char.isDigit, Bool.or_eq_true, Bool.and_eq_true, decide_eq_true_eq]
  split at small
  · rename_i digit
    exact Or.inr (Or.inr digit)
  · split at small
    · rename_i lower
      exact Or.inr (Or.inl (Or.inr lower))
    · split at small
      · rename_i upper
        exact Or.inr (Or.inl (Or.inl upper))
      · omega

/-! Suffixes. -/

theorem numberSuffix_stops {rest : List Char} (stops : rest.head?.any isIdentRest = false)
    (unsuf longsuf : Bool) : numberSuffix unsuf longsuf rest = (unsuf, rest) := by
  cases rest with
  | nil => rfl
  | cons c rest =>
      have other (d : Char) (ident : isIdentRest d = true) : c ≠ d := by
        rintro rfl
        simp [ident] at stops
      rw [numberSuffix.eq_def]
      simp [other 'u' (by decide), other 'U' (by decide), other 'l' (by decide),
        other 'L' (by decide)]

theorem numberSuffix_unsigned {u : List Char} (member : u ∈ unsignedSuffixes) (longsuf : Bool)
    (rest : List Char) : numberSuffix false longsuf (u ++ rest) = numberSuffix true longsuf rest := by
  simp only [unsignedSuffixes, List.map_cons, List.map_nil, List.mem_cons, List.not_mem_nil,
    or_false] at member
  rcases member with rfl | rfl <;> simp [numberSuffix.eq_def false longsuf]

theorem numberSuffix_long {l : List Char} (member : l ∈ longSuffixes) (unsuf : Bool)
    {rest : List Char} (lower : rest.head? ≠ some 'l') (upper : rest.head? ≠ some 'L') :
    numberSuffix unsuf false (l ++ rest) = numberSuffix unsuf true rest := by
  have stuck (unsuf : Bool) : numberSuffix unsuf true [] = (unsuf, []) := by
    rw [numberSuffix]
  simp only [longSuffixes, List.map_cons, List.map_nil, List.mem_cons, List.not_mem_nil,
    or_false] at member
  rcases member with rfl | rfl | rfl | rfl
  · cases rest with
    | nil => simp [numberSuffix.eq_def unsuf false, stuck]
    | cons d rest =>
        have other : d ≠ 'l' := fun same => lower (congrArg some same)
        simp [numberSuffix.eq_def unsuf false, other]
  · cases rest with
    | nil => simp [numberSuffix.eq_def unsuf false, stuck]
    | cons d rest =>
        have other : d ≠ 'L' := fun same => upper (congrArg some same)
        simp [numberSuffix.eq_def unsuf false, other]
  · simp [numberSuffix.eq_def unsuf false]
  · simp [numberSuffix.eq_def unsuf false]

theorem numberSuffix_suffix {suffix rest : List Char} (member : suffix ∈ suffixes)
    (stops : rest.head?.any isIdentRest = false) :
    ∃ unsigned, numberSuffix false false (suffix ++ rest) = (unsigned, rest) := by
  have stop := numberSuffix_stops stops
  have other (c : Char) (ident : isIdentRest c = true) : rest.head? ≠ some c := by
    intro same
    simp [same, ident] at stops
  have headOf {u : List Char} (member : u ∈ unsignedSuffixes) (c : Char) (plain : c = 'l' ∨ c = 'L') :
      (u ++ rest).head? ≠ some c := by
    simp only [unsignedSuffixes, List.map_cons, List.map_nil, List.mem_cons, List.not_mem_nil,
      or_false] at member
    rcases member with rfl | rfl <;> rcases plain with rfl | rfl <;> simp
  simp only [suffixes, List.mem_cons, List.mem_append, List.mem_flatMap, List.mem_map] at member
  rcases member with rfl | ((unsigned | long) | ⟨u, unsigned, l, long, rfl⟩) |
    ⟨l, long, u, unsigned, rfl⟩
  · exact ⟨false, stop false false⟩
  · exact ⟨true, (numberSuffix_unsigned unsigned false rest).trans (stop true false)⟩
  · exact ⟨false, (numberSuffix_long long false (other 'l' (by decide))
      (other 'L' (by decide))).trans (stop false true)⟩
  · refine ⟨true, ?_⟩
    rw [List.append_assoc, numberSuffix_unsigned unsigned,
      numberSuffix_long long true (other 'l' (by decide)) (other 'L' (by decide))]
    exact stop true true
  · refine ⟨true, ?_⟩
    rw [List.append_assoc, numberSuffix_long long false (headOf unsigned 'l' (Or.inl rfl))
      (headOf unsigned 'L' (Or.inr rfl)), numberSuffix_unsigned unsigned]
    exact stop true true

/-! Digits. -/

def EndsDigits (tail : List Char) : Prop :=
  ∀ c ∈ tail.head?, isHexDigit c = false ∧ c ≠ 'x' ∧ c ≠ 'X'

theorem suffix_endsDigits {suffix rest : List Char} (member : suffix ∈ suffixes)
    (stops : rest.head?.any isIdentRest = false) : EndsDigits (suffix ++ rest) := by
  intro c found
  have heads : suffixes.all (fun s =>
      s.head?.all fun d => !isHexDigit d && d ≠ 'x' && d ≠ 'X') = true := by
    decide
  cases suffix with
  | nil =>
      have ends : isIdentRest c = false := by
        simpa [show rest.head? = some c from found] using stops
      refine ⟨?_, ?_, ?_⟩
      · by_contra hex
        rw [hex_identRest (by simpa using hex)] at ends
        cases ends
      · rintro rfl
        exact absurd ends (by decide)
      · rintro rfl
        exact absurd ends (by decide)
  | cons d more =>
      cases found
      have head := List.all_eq_true.mp heads _ member
      simpa [and_assoc] using head

theorem decimal_isHexDigit {c : Char} (decimal : c.isDigit = true) : isHexDigit c = true :=
  decide_eq_true (Nat.lt_trans (digitValue_digit decimal) (by decide))

theorem EndsDigits.decimal {tail : List Char} (ends : EndsDigits tail) :
    ∀ c ∈ tail.head?, c.isDigit = false := by
  intro c found
  have hex := (ends c found).1
  by_contra decimal
  rw [decimal_isHexDigit (by simpa using decimal)] at hex
  cases hex

theorem EndsDigits.octal {tail : List Char} (ends : EndsDigits tail) :
    ∀ c ∈ tail.head?, isOctalDigit c = false := by
  intro c found
  have decimal := ends.decimal c found
  by_contra octal
  rw [octal_isDigit (by simpa using octal)] at decimal
  cases decimal

def readLiteral (build : Build) : List Char → Except Failure Nat
  | '0' :: x :: rest =>
      if x = 'x' ∨ x = 'X' then readDigits build 16 0 rest
      else if isOctalDigit x then
        (readDigits build 8 0 (octalPart (x :: rest))).bind fun value =>
          if decimalPart (x :: rest) = [] then .ok value
          else readDigits build 10 0 (decimalPart (x :: rest))
      else readDigits build 10 0 ('0' :: x :: rest)
  | digits => readDigits build 10 0 digits

theorem takeWhile_parts {digits tail : List Char} (decimal : ∀ c ∈ digits, c.isDigit = true)
    (ends : EndsDigits tail) :
    (digits ++ tail).takeWhile isOctalDigit = octalPart digits ∧
      (digits ++ tail).drop (octalPart digits).length = decimalPart digits ++ tail ∧
      (decimalPart digits ++ tail).takeWhile Char.isDigit = decimalPart digits := by
  have parts : octalPart digits ++ decimalPart digits = digits := List.takeWhile_append_dropWhile
  have inside : ∀ c ∈ octalPart digits, isOctalDigit c = true := fun c member =>
    List.mem_takeWhile_imp member
  have stops : ∀ c ∈ (decimalPart digits ++ tail).head?, isOctalDigit c = false := by
    intro c found
    cases same : decimalPart digits with
    | nil =>
        rw [same] at found
        exact ends.octal c found
    | cons d more =>
        rw [same] at found
        cases found
        have first : (digits.dropWhile isOctalDigit).head? = some c := by
          rw [← decimalPart, same]
          rfl
        have not := List.head?_dropWhile_not isOctalDigit digits
        simpa [first] using not
  refine ⟨?_, ?_, ?_⟩
  · rw [← parts, List.append_assoc, takeWhile_delimited inside stops, parts]
  · rw [← parts, List.append_assoc, parts, List.drop_left]
  · refine takeWhile_delimited (fun c member => decimal c ?_) ends.decimal
    rw [← parts]
    exact List.mem_append_right _ member

theorem numberDigits_decimal {build : Build} {digits tail : List Char}
    (decimal : ∀ c ∈ digits, c.isDigit = true) (ends : EndsDigits tail) :
    ((readDigits build 10 0 ((digits ++ tail).takeWhile Char.isDigit)).map fun value =>
      (value, (digits ++ tail).drop ((digits ++ tail).takeWhile Char.isDigit).length)) =
    (readDigits build 10 0 digits).map (·, tail) := by
  rw [takeWhile_delimited decimal ends.decimal, List.drop_left]

theorem numberDigits_literal {build : Build} {spelling tail : List Char}
    (literal : IsLiteral spelling) (ends : EndsDigits tail) :
    numberDigits build (spelling ++ tail) = (readLiteral build spelling).map (·, tail) := by
  unfold IsLiteral at literal
  split at literal
  · rename_i x rest
    simp only [List.cons_append, numberDigits, readLiteral, Bool.or_eq_true, decide_eq_true_eq]
    by_cases hex : x = 'x' ∨ x = 'X'
    · rw [if_pos hex] at literal
      rw [if_pos hex, if_pos hex, takeWhile_delimited literal.2 fun c found => (ends c found).1,
        if_neg literal.1, List.drop_left]
    · rw [if_neg hex] at literal
      rw [if_neg hex, if_neg hex]
      have whole : ∀ c ∈ '0' :: x :: rest, c.isDigit = true := by
        intro c member
        rcases List.mem_cons.mp member with rfl | member
        · decide
        · exact literal c member
      by_cases octal : isOctalDigit x = true
      · obtain ⟨first, after, second⟩ := takeWhile_parts literal ends
        simp only [List.cons_append] at first after
        rw [if_pos octal, if_pos octal, first, after, second, List.drop_left]
        cases readDigits build 8 0 (octalPart (x :: rest)) with
        | error failure => rfl
        | ok value =>
            simp only [Except.bind]
            split
            · rename_i none
              rw [none]
              rfl
            · rfl
      · rw [if_neg octal, if_neg octal]
        exact numberDigits_decimal whole ends
  · rename_i other
    have plain : readLiteral build spelling = readDigits build 10 0 spelling := by
      unfold readLiteral
      split
      · exact absurd rfl (other _ _)
      · rfl
    rw [plain, ← numberDigits_decimal literal.2 ends]
    unfold numberDigits
    split
    · rename_i x rest same
      obtain ⟨d, digits, rfl⟩ := List.exists_cons_of_ne_nil literal.1
      cases digits with
      | cons e more =>
          cases same
          exact absurd rfl (other _ _)
      | nil =>
          cases same
          have head := ends x rfl
          rw [if_neg (by simp [head.2]), if_neg (by simp [ends.octal x rfl])]
    · rfl

/-! The value that is read. -/

def inRange (build : Build) (value : Nat) : Except Failure Nat :=
  if value ≤ build.literalMax then .ok value else exitWith "integer literal out of range\n"

theorem readDigits_inRange {build : Build} {base : Nat} {digits : List Char} (small : base ≤ 16)
    (digit : ∀ c ∈ digits, digitValue c < base) :
    readDigits build base 0 digits = inRange build (numeral base digits) :=
  readDigits_numeral small digit (Nat.zero_le _)

theorem numeral_zero (base : Nat) (digits : List Char) :
    numeral base ('0' :: digits) = numeral base digits := by
  simp [numeral, numeralFrom, digitValue]

theorem numeral_parts (base : Nat) (spelling : List Char) :
    numeral base spelling =
      numeral base (octalPart spelling) * base ^ (decimalPart spelling).length +
        numeral base (decimalPart spelling) := by
  have parts : octalPart spelling ++ decimalPart spelling = spelling :=
    List.takeWhile_append_dropWhile
  rw [← numeralFrom_start, numeral, numeral, ← numeralFrom_append, parts]

theorem numeralFrom_base {small large start begun : Nat} (le : small ≤ large) (less : start ≤ begun)
    (digits : List Char) : numeralFrom small start digits ≤ numeralFrom large begun digits := by
  induction digits generalizing start begun with
  | nil => exact less
  | cons c rest ih => exact ih (Nat.add_le_add_right (Nat.mul_le_mul less le) _)

theorem numeral_zeros {base : Nat} {digits : List Char} (zeros : ∀ c ∈ digits, c = '0') :
    numeral base digits = 0 := by
  induction digits with
  | nil => rfl
  | cons c rest ih =>
      have first : c = '0' := zeros c List.mem_cons_self
      rw [first, numeral_zero]
      exact ih fun d member => zeros d (List.mem_cons_of_mem c member)

theorem digitValue_pos {c : Char} (octal : isOctalDigit c = true) (other : c ≠ '0') :
    0 < digitValue c := by
  simp only [isOctalDigit, Bool.and_eq_true, decide_eq_true_eq] at octal
  have upper : c ≤ '9' := Char.le_trans octal.2 (by decide)
  rw [digitValue, if_pos ⟨octal.1, upper⟩]
  have low : '0'.toNat ≤ c.toNat := octal.1
  have unlike : c.toNat ≠ '0'.toNat := fun same => other (Char.toNat_inj.mp same)
  omega

theorem numeral_pos {base : Nat} {digits : List Char} (positive : 0 < base)
    (octal : ∀ c ∈ digits, isOctalDigit c = true) (nonzero : ¬ ∀ c ∈ digits, c = '0') :
    0 < numeral base digits := by
  induction digits with
  | nil => exact absurd (by simp) nonzero
  | cons c rest ih =>
      have first := octal c List.mem_cons_self
      by_cases zero : c = '0'
      · rw [zero, numeral_zero]
        refine ih (fun d member => octal d (List.mem_cons_of_mem c member)) fun zeros => nonzero ?_
        intro d member
        rcases List.mem_cons.mp member with rfl | member
        · exact zero
        · exact zeros d member
      · have grown : digitValue c ≤ numeral base (c :: rest) := by
          have begun := @numeralFrom_ge base (digitValue c) rest positive
          simpa [numeral, numeralFrom] using begun
        exact Nat.lt_of_lt_of_le (digitValue_pos first zero) grown

theorem literalValue_malformed {spelling : List Char} (malformed : Malformed spelling) :
    literalValue spelling = numeral 10 spelling := by
  obtain ⟨zero, decimal, some⟩ := malformed
  unfold literalValue literalBase
  split
  · rename_i x rest
    have digit := decimal x (by simp)
    have notHex : ¬ (x = 'x' ∨ x = 'X') := by
      rintro (rfl | rfl)
      · exact absurd digit (by decide)
      · exact absurd digit (by decide)
    have notOctal : ¬ (x :: rest).all isOctalDigit = true := by
      intro all
      refine some (List.dropWhile_eq_nil_iff.mpr fun c member => ?_)
      rcases List.mem_cons.mp member with rfl | member
      · decide
      · exact List.all_eq_true.mp all c member
    rw [if_neg notHex, if_neg notOctal]
  · rfl

theorem octalPart_digits {digits : List Char} (all : ∀ c ∈ digits, c.isDigit = true) :
    (∀ c ∈ octalPart digits, digitValue c < 8) ∧ ∀ c ∈ decimalPart digits, digitValue c < 10 := by
  have parts : octalPart digits ++ decimalPart digits = digits := List.takeWhile_append_dropWhile
  refine ⟨fun c member => digitValue_octal (List.mem_takeWhile_imp member), fun c member => ?_⟩
  refine digitValue_digit (all c ?_)
  rw [← parts]
  exact List.mem_append_right _ member

theorem readLiteral_malformed {build : Build} {spelling : List Char}
    (malformed : Malformed spelling) :
    readLiteral build spelling = (inRange build (numeral 8 (octalPart spelling))).bind fun _ =>
      inRange build (numeral 10 (decimalPart spelling)) := by
  obtain ⟨zero, decimal, some⟩ := malformed
  cases spelling with
  | nil => cases zero
  | cons c digits =>
      obtain rfl : c = '0' := Option.some.inj zero
      cases digits with
      | nil => exact absurd rfl some
      | cons x rest =>
          have digit := decimal x (by simp)
          have inner : ∀ c ∈ x :: rest, c.isDigit = true := fun c member =>
            decimal c (List.mem_cons_of_mem '0' member)
          have notHex : ¬ (x = 'x' ∨ x = 'X') := by
            rintro (rfl | rfl)
            · exact absurd digit (by decide)
            · exact absurd digit (by decide)
          have first : octalPart ('0' :: x :: rest) = '0' :: octalPart (x :: rest) := rfl
          have second : decimalPart ('0' :: x :: rest) = decimalPart (x :: rest) := rfl
          rw [second] at some
          rw [first, second, numeral_zero]
          simp only [readLiteral, if_neg notHex, if_neg some]
          by_cases octal : isOctalDigit x = true
          · rw [if_pos octal, readDigits_inRange (by decide) (octalPart_digits inner).1,
              readDigits_inRange (by decide) (octalPart_digits inner).2]
          · have none : octalPart (x :: rest) = [] := List.takeWhile_cons_of_neg octal
            have all : decimalPart (x :: rest) = x :: rest := List.dropWhile_cons_of_neg octal
            rw [if_neg octal, none, all,
              readDigits_inRange (by decide) fun c member => digitValue_digit (decimal c member),
              numeral_zero]
            have small : inRange build (numeral 8 []) = .ok 0 := if_pos (Nat.zero_le _)
            rw [small]
            rfl

theorem readLiteral_plain {build : Build} {spelling : List Char} (literal : IsLiteral spelling)
    (plain : ¬ Malformed spelling) :
    readLiteral build spelling = inRange build (literalValue spelling) := by
  unfold IsLiteral at literal
  split at literal
  · rename_i x rest
    simp only [readLiteral, literalValue, literalBase]
    by_cases hex : x = 'x' ∨ x = 'X'
    · rw [if_pos hex] at literal
      rw [if_pos hex, if_pos hex]
      exact readDigits_inRange (by decide) fun c member => of_decide_eq_true (literal.2 c member)
    · rw [if_neg hex] at literal
      have none : decimalPart (x :: rest) = [] := by
        by_contra some
        refine plain ⟨rfl, fun c member => ?_, some⟩
        rcases List.mem_cons.mp member with rfl | member
        · decide
        · exact literal c member
      have octal := List.dropWhile_eq_nil_iff.mp none
      have whole : octalPart (x :: rest) = x :: rest := List.takeWhile_eq_self_iff.mpr octal
      rw [if_neg hex, if_neg hex, if_pos (octal x List.mem_cons_self),
        if_pos (List.all_eq_true.mpr octal), whole, none,
        readDigits_inRange (by decide) fun c member => digitValue_octal (octal c member)]
      cases inRange build (numeral 8 (x :: rest)) with
      | error failure => rfl
      | ok value => rfl
  · rename_i other
    have read : readLiteral build spelling = readDigits build 10 0 spelling := by
      unfold readLiteral
      split
      · exact absurd rfl (other _ _)
      · rfl
    have base : literalBase spelling = (10, spelling) := by
      unfold literalBase
      split
      · exact absurd rfl (other _ _)
      · rfl
    rw [read, literalValue, base]
    exact readDigits_inRange (by decide) fun c member => digitValue_digit (literal.2 c member)

/-! The token. -/

theorem tokenNumber_read {build : Build} {value : Nat} (fits : value ≤ build.literalMax)
    {t : Token} (val : t.val = build.toCcInt value)
    (high : build = .native → 0x7fffffff < value → t.isUnsigned = true) :
    tokenNumber build t = value := by
  unfold tokenNumber
  rw [val, Build.toCcInt]
  cases build with
  | host =>
      have fits : value ≤ 2 ^ 63 - 1 := fits
      have bits : Build.host.bits = 64 := rfl
      rw [if_neg (by simp), bits, Int.bmod_eq_of_le (by omega) (by omega)]
  | native =>
      have fits : value ≤ 2 ^ 32 - 1 := fits
      have bits : Build.native.bits = 32 := rfl
      rw [bits]
      by_cases unsigned : t.isUnsigned = true
      · have wrapped : (value : Int).bmod (2 ^ 32) % ((2 ^ 32 : Nat) : Int) = value % _ :=
          Int.bmod_emod
        rw [if_pos (by simp [unsigned])]
        omega
      · have low : ¬ 0x7fffffff < value := fun large => unsigned (high rfl large)
        rw [if_neg (by simp [unsigned]), Int.bmod_eq_of_le (by omega) (by omega)]

theorem lexToken_literal {build : Build} {spelling suffix rest : List Char}
    (literal : IsLiteral spelling) (member : suffix ∈ suffixes)
    (stops : rest.head?.any isIdentRest = false) :
    (∀ failure, readLiteral build spelling = .error failure →
      lexToken build (spelling ++ (suffix ++ rest)) = .error failure) ∧
    ∀ value, readLiteral build spelling = .ok value → value ≤ build.literalMax →
      ∃ t, lexToken build (spelling ++ (suffix ++ rest)) = .ok (t, rest) ∧
        t.text = spelling ++ suffix ∧ tokenNumber build t = value := by
  obtain ⟨unsigned, read⟩ := numberSuffix_suffix member stops
  have digits := @numberDigits_literal build _ _ literal (suffix_endsDigits member stops)
  have number : lexToken build (spelling ++ (suffix ++ rest)) =
      lexNumber build (spelling ++ (suffix ++ rest)) := by
    cases spelling with
    | nil => exact absurd rfl literal.1
    | cons c more =>
        have digit : c.isDigit = true := by
          unfold IsLiteral at literal
          split at literal
          · rename_i same
            cases same
            decide
          · exact literal.2 c List.mem_cons_self
        simp [lexToken, digit]
  rw [number, lexNumber, digits]
  constructor
  · intro failure failed
    rw [failed]
    rfl
  · intro value done fits
    rw [done]
    simp only [Except.map, Except.bind, read, stops]
    refine ⟨_, rfl, ?_, tokenNumber_read fits rfl ?_⟩
    · have length : (spelling ++ (suffix ++ rest)).length - rest.length =
          (spelling ++ suffix).length := by
        simp only [List.length_append]
        omega
      simp only [Token.text, newToken]
      rw [length, ← List.append_assoc, List.take_left]
    · rintro rfl large
      simp [large]

theorem literalMeans_iff_read {build : Build} {spelling : List Char}
    (literal : IsLiteral spelling)
    (within : ∀ value, readLiteral build spelling = .ok value → value ≤ build.literalMax) :
    LiteralMeans build spelling ↔
      readLiteral build spelling = inRange build (literalValue spelling) := by
  constructor
  · intro means
    have bare := means [] (by decide) [] rfl
    have lexed := @lexToken_literal build _ _ [] literal (by decide : [] ∈ suffixes) rfl
    cases read : readLiteral build spelling with
    | error failure =>
        have failed := lexed.1 failure read
        unfold inRange
        split
        · rename_i fits
          rw [if_pos fits] at bare
          obtain ⟨t, done, _⟩ := bare
          rw [failed] at done
          cases done
        · rename_i large
          rw [if_neg large, failed] at bare
          exact congrArg _ (Except.error.inj bare)
    | ok value =>
        obtain ⟨t, done, _, number⟩ := lexed.2 value read (within value read)
        unfold inRange
        split
        · rename_i fits
          rw [if_pos fits] at bare
          obtain ⟨u, again, _, meant⟩ := bare
          rw [done] at again
          cases again
          rw [number] at meant
          exact congrArg _ (by exact_mod_cast meant)
        · rename_i large
          rw [if_neg large, done] at bare
          cases bare
  · intro read suffix member rest stops
    have lexed := @lexToken_literal build _ _ _ literal member stops
    unfold inRange at read
    split
    · rename_i fits
      rw [if_pos fits] at read
      exact lexed.2 _ read fits
    · rename_i large
      rw [if_neg large] at read
      exact lexed.1 _ read

theorem inRange_ok {build : Build} {value read : Nat} (same : inRange build value = .ok read) :
    read = value ∧ value ≤ build.literalMax := by
  unfold inRange at same
  split at same
  · rename_i fits
    cases same
    exact ⟨rfl, fits⟩
  · cases same

theorem inRange_large {build : Build} {value : Nat} (large : build.literalMax < value) :
    inRange build value = exitWith "integer literal out of range\n" := if_neg (by omega)

theorem reread_iff {build : Build} {spelling : List Char} (malformed : Malformed spelling) :
    readLiteral build spelling = inRange build (literalValue spelling) ↔
      (∀ c ∈ octalPart spelling, c = '0') ∨ build.literalMax < numeral 8 (octalPart spelling) ∨
        build.literalMax < numeral 10 (decimalPart spelling) := by
  have parts := numeral_parts 10 spelling
  have widen : numeral 10 (octalPart spelling) ≤
      numeral 10 (octalPart spelling) * 10 ^ (decimalPart spelling).length :=
    Nat.le_mul_of_pos_right _ (Nat.pow_pos (by decide))
  have bases : numeral 8 (octalPart spelling) ≤ numeral 10 (octalPart spelling) :=
    numeralFrom_base (by decide) (Nat.le_refl 0) _
  rw [readLiteral_malformed malformed, literalValue_malformed malformed]
  by_cases large : build.literalMax < numeral 8 (octalPart spelling)
  · have whole : build.literalMax < numeral 10 spelling := by omega
    rw [inRange_large large, inRange_large whole]
    exact iff_of_true rfl (Or.inr (Or.inl large))
  · have octal : inRange build (numeral 8 (octalPart spelling)) =
        .ok (numeral 8 (octalPart spelling)) := if_pos (by omega)
    rw [octal]
    simp only [Except.bind]
    by_cases later : build.literalMax < numeral 10 (decimalPart spelling)
    · have whole : build.literalMax < numeral 10 spelling := by omega
      rw [inRange_large later, inRange_large whole]
      exact iff_of_true rfl (Or.inr (Or.inr later))
    · constructor
      · intro same
        rw [inRange, if_pos (by omega)] at same
        have equal := (inRange_ok same.symm).1
        by_contra none
        have positive : 0 < numeral 10 (octalPart spelling) :=
          numeral_pos (by decide) (fun c member => List.mem_takeWhile_imp member)
            fun zeros => none (Or.inl zeros)
        omega
      · rintro (zeros | before | after)
        · rw [parts, numeral_zeros zeros]
          simp
        · exact absurd before large
        · exact absurd after later

theorem literal_value_iff (build : Build) (spelling : List Char) (literal : IsLiteral spelling) :
    LiteralMeans build spelling ↔ RereadWhole build spelling := by
  by_cases malformed : Malformed spelling
  · rw [literalMeans_iff_read literal, reread_iff malformed]
    · exact ⟨fun whole _ => whole, fun whole => whole malformed⟩
    · intro value read
      rw [readLiteral_malformed malformed] at read
      obtain ⟨first, _, second⟩ := Except.of_bind_ok read
      obtain ⟨rfl, fits⟩ := inRange_ok second
      exact fits
  · rw [literalMeans_iff_read literal]
    · exact iff_of_true (readLiteral_plain literal malformed) fun other => absurd other malformed
    · intro value read
      rw [readLiteral_plain literal malformed] at read
      obtain ⟨rfl, fits⟩ := inRange_ok read
      exact fits

theorem hexLiteral_means : LiteralMeans .native "0xFFFFFFFF".toList :=
  (literal_value_iff .native "0xFFFFFFFF".toList
    ⟨List.cons_ne_nil _ _, List.all_eq_true.mp (by decide)⟩).mpr
    fun malformed => absurd (malformed.2.1 'x' (by decide)) (by decide)

theorem malformedOctal_wrong : ¬ LiteralMeans .host "0189".toList := by
  intro means
  have bare := means [] (by decide) [] rfl
  rw [if_pos (by decide)] at bare
  obtain ⟨t, read, _, number⟩ := bare
  have lexed : (lexToken .host ("0189".toList ++ ([] ++ []))).map (fun read =>
      tokenNumber .host read.1) = .ok 89 := by decide +kernel
  rw [read] at lexed
  have value : (literalValue "0189".toList : Int) = 189 := by decide +kernel
  have other : tokenNumber .host t = 89 := Except.ok.inj lexed
  omega

end SymphonyPlus
