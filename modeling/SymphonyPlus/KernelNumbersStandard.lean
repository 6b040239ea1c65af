import SymphonyPlus.KernelNumbers

/-! When the kernel prints a number as the standard says. -/

namespace SymphonyPlus.Vsprintf

open Format (alphabet wrap Field integerC89 signC89 markC89 preciseC89 printedValue baseC89)

def Call.letter (call : Call) : BitVec 8 :=
  if call.base = 8 then 111#8
  else if call.base = 10 then if call.kind.sign then 100#8 else 117#8
  else if call.kind.small then 120#8 else 88#8

def Call.field (call : Call) : Field where
  flags := ⟨call.kind.left, call.kind.zeropad, call.kind.plus, call.kind.space, call.kind.special⟩
  width := call.size.toNat
  precision := if call.precision < 0 then none else some call.precision.toNat

def Call.text (call : Call) : List (BitVec 8) := integerC89 call.field call.letter call.num

structure Call.Correct (call : Call) : Prop where
  text : call.run = .written call.text
  room : ∀ rounds, (dividends call.base rounds call.start).length ≤ 36
  divides : ∀ rounds, ∀ n ∈ dividends call.base rounds call.start,
    spDoDiv n call.base = (n % call.base, n / call.base)

def Call.digits (call : Call) : Nat := max 1 (Nat.digits call.base.toNat call.start.toNat).length

def Call.signWidth (call : Call) : Int :=
  if call.negative ∨ call.kind.plus ∨ call.kind.space then 1 else 0

def Call.markWidth (call : Call) : Int :=
  if call.kind.special then if call.base = 8 then 1 else if call.base = 16 then 2 else 0 else 0

def Call.rest (call : Call) : Int :=
  call.size - call.signWidth - call.markWidth - max (call.digits : Int) call.precision

structure Call.Meets (call : Call) : Prop where
  value : call.start.toNat < 2 ^ 31
  some_ : call.num ≠ 0 ∨ call.precision ≠ 0
  hexadecimal : ¬(call.kind.special ∧ call.base = 16 ∧ call.num = 0)
  plus : call.kind.plus → call.kind.sign
  octal : call.kind.special → call.base = 8 → (call.num ≠ 0 ∧ call.precision ≤ call.digits) ∨
    (call.num = 0 ∧ call.precision < 0 ∧ call.kind.zeropad ∧ call.kind.left = false ∧ 0 ≤ call.rest ∧
      call.kind.space = false)
  fits : -2147483648 + call.kind.steps ≤ call.rest ∨ call.rest ≤ -4294967296
  zeropad : call.kind.zeropad → call.kind.left = false → 0 ≤ call.precision → call.rest ≤ 0
  space : call.kind.space → call.kind.sign = false →
    call.kind.left = false ∧ 0 ≤ call.rest ∧ (call.kind.zeropad → 0 ≤ call.precision)

theorem text_arranged (call : Call) :
    let front := signC89 call.field.flags call.letter call.num ++
      markC89 call.field.flags call.letter call.num
    let precise := preciseC89 call.field call.letter call.num
    call.text = arrange call.kind.left (call.kind.zeropad && decide (call.precision < 0))
      (call.size.toNat - (front ++ precise).length) front precise := by
  have absent : call.field.precision = none ↔ call.precision < 0 := by
    simp only [Call.field]
    split <;> simp [*]
  have left : call.field.flags.left = call.kind.left := rfl
  have zero : call.field.flags.zero = call.kind.zeropad := rfl
  have width : call.field.width = call.size.toNat := rfl
  simp only [Call.text, integerC89, Format.padded, absent, arrange, left, zero, width]
  generalize signC89 _ _ _ ++ markC89 _ _ _ = front
  generalize preciseC89 _ _ _ = precise
  cases call.kind.left <;> by_cases zeros : call.kind.zeropad ∧ call.precision < 0 <;> simp [zeros]

theorem letter_signed (call : Call) : (call.letter = 100#8 ∨ call.letter = 105#8) ↔ call.kind.sign := by
  have decimal := call.sign_decimal
  simp only [Call.letter]
  rcases call.base_known with base | base | base
  · cases sign : call.kind.sign with
    | false => simp [base]
    | true =>
        rw [decimal sign] at base
        exact absurd base (by decide)
  · cases call.kind.sign <;> simp [base]
  · cases sign : call.kind.sign with
    | false => cases call.kind.small <;> simp [base]
    | true =>
        rw [decimal sign] at base
        exact absurd base (by decide)

theorem letter_octal (call : Call) : call.letter = 111#8 ↔ call.base = 8 := by
  simp only [Call.letter]
  rcases call.base_known with base | base | base
  · simp [base]
  · cases call.kind.sign <;> simp [base]
  · cases call.kind.small <;> simp [base]

theorem letter_hexadecimal (call : Call) :
    (call.letter = 120#8 ∨ call.letter = 88#8) ↔ call.base = 16 := by
  simp only [Call.letter]
  rcases call.base_known with base | base | base
  · simp [base]
  · cases call.kind.sign <;> simp [base]
  · cases call.kind.small <;> simp [base]

theorem letter_pointer (call : Call) : call.letter ≠ 112#8 := by
  simp only [Call.letter]
  split_ifs <;> decide

theorem letter_base (call : Call) : baseC89 call.letter = call.base.toNat := by
  simp only [Call.letter]
  rcases call.base_known with base | base | base
  · simp [base, baseC89]
  · cases call.kind.sign <;> simp [base, baseC89]
  · cases call.kind.small <;> simp [base, baseC89]

theorem printed_negative (call : Call) : call.negative = decide (printedValue call.letter call.num < 0) := by
  have signed := letter_signed call
  rw [← Format.printedValue_negative]
  simp only [Call.negative, signed]

theorem printed_start (call : Call) :
    (printedValue call.letter call.num).natAbs = call.start.toNat := by
  have signed := letter_signed call
  rw [← Format.printedValue_word]
  simp only [Call.start, Call.negative, signed, decide_eq_true_eq]

theorem sign_width (call : Call) : (call.sign.length : Int) = call.signWidth := by
  simp only [Call.sign, Call.signWidth]
  cases call.negative <;> cases call.kind.plus <;> cases call.kind.space <;> rfl

theorem mark_width (call : Call) : (call.special.length : Int) = call.markWidth := by
  simp only [Call.special, Call.markWidth]
  split_ifs <;> rfl

theorem written_length (call : Call) : call.written.length = call.digits := by
  obtain ⟨two, sixteen, signed⟩ := base_bounds call
  have fits : call.start.toNat < call.base.toNat ^ 33 :=
    lt_of_lt_of_le call.start.isLt ((Nat.pow_le_pow_right (by omega) (by omega : 32 ≤ 33)).trans
      (Nat.pow_le_pow_left two _))
  rw [Call.written, Call.digits]
  rcases Nat.eq_zero_or_pos call.start.toNat with zero | some_
  · simp [zero, Format.digitLoop]
  · have nonempty : Nat.digits call.base.toNat call.start.toNat ≠ [] :=
      Nat.digits_ne_nil_iff_ne_zero.mpr (by omega)
    have long := List.length_pos_iff.mpr nonempty
    rw [Format.digitLoop_digits _ two 33 _ some_ fits, List.length_map]
    omega

theorem precise_length (call : Call) :
    (call.precise.length : Int) = max (call.digits : Int) call.precision := by
  simp only [Call.precise, List.length_append, List.length_replicate, List.length_reverse, written_length]
  omega

theorem sign_extra (call : Call) (plus : call.kind.plus → call.kind.sign) :
    call.sign = (if call.kind.space && !call.kind.sign then [32#8] else []) ++
      signC89 call.field.flags call.letter call.num := by
  have sign : call.negative → call.kind.sign := fun negative => (of_decide_eq_true negative).1
  simp only [Call.sign, signC89, letter_signed]
  rw [printed_negative] at sign ⊢
  simp only [decide_eq_true_eq] at sign ⊢
  simp only [Call.field]
  by_cases negative : printedValue call.letter call.num < 0
  · simp [negative, sign negative]
  · cases signed : call.kind.sign with
    | true => simp [negative]
    | false =>
        have none_ : call.kind.plus = false := by
          rw [signed] at plus
          simpa using plus
        simp [negative, none_]

theorem printed_zero (call : Call) : printedValue call.letter call.num = 0 ↔ call.num = 0 := by
  rw [← start_zero, ← Int.natAbs_eq_zero, printed_start, BitVec.toNat_eq]
  simp

theorem mark_special (call : Call) : markC89 call.field.flags call.letter call.num =
    if call.kind.special ∧ call.base = 16 ∧ call.num ≠ 0 then [48#8, alphabet (!call.kind.small) 33] else [] := by
  have pointer := letter_pointer call
  have hexadecimal := letter_hexadecimal call
  have alternate : call.field.flags.alternate = call.kind.special := rfl
  simp only [markC89, pointer, false_or, hexadecimal, ne_eq, printed_zero, alternate]
  by_cases marked : call.kind.special = true ∧ call.base = 16 ∧ ¬call.num = 0
  · have large : (if call.letter = 88#8 then 88#8 else 120#8) = alphabet (!call.kind.small) 33 := by
      cases small : call.kind.small <;> simp [Call.letter, marked, small, alphabet]
    rw [if_pos marked, if_pos marked, large]
  · rw [if_neg marked, if_neg marked]

/-- The digits that the standard asks for, but for the zero of an octal mark. -/
def Call.asked (call : Call) : List (BitVec 8) :=
  if call.num = 0 ∧ call.precision = 0 then [] else call.precise

theorem alphabet_upper (call : Call) {value : Nat} (digit : value < call.base.toNat) :
    alphabet (decide (call.letter = 88#8)) value = alphabet (!call.kind.small) value := by
  rcases call.base_known with base | base | base
  · rw [base] at digit
    have decimal : value < 10 := by
      simp at digit
      omega
    exact alphabet_decimal _ _ decimal
  · rw [base] at digit
    have decimal : value < 10 := by simpa using digit
    exact alphabet_decimal _ _ decimal
  · cases small : call.kind.small <;> simp [Call.letter, base, small]

theorem asked_digits (call : Call) :
    let digits := (Nat.digits call.base.toNat call.start.toNat).reverse.map
      (alphabet (decide (call.letter = 88#8)))
    List.replicate (call.field.precision.getD 1 - digits.length) 48#8 ++ digits = call.asked := by
  obtain ⟨two, sixteen, signed⟩ := base_bounds call
  have fits : call.start.toNat < call.base.toNat ^ 33 :=
    lt_of_lt_of_le call.start.isLt ((Nat.pow_le_pow_right (by omega) (by omega : 32 ≤ 33)).trans
      (Nat.pow_le_pow_left two _))
  have same := Format.precise_same (!call.kind.small) call.precision two fits
  have upper : (Nat.digits call.base.toNat call.start.toNat).reverse.map
      (alphabet (decide (call.letter = 88#8))) =
      (Nat.digits call.base.toNat call.start.toNat).reverse.map (alphabet (!call.kind.small)) := by
    apply List.map_congr_left
    intro value inside
    exact alphabet_upper call (Nat.digits_lt_base two (List.mem_reverse.mp inside))
  have wanted : call.field.precision.getD 1 =
      if call.precision < 0 then 1 else call.precision.toNat := by
    simp only [Call.field]
    split <;> rfl
  have zero : call.start.toNat = 0 ↔ call.num = 0 := by
    rw [← start_zero, BitVec.toNat_eq]
    simp
  simp only [upper, wanted]
  rw [← same, Call.asked]
  by_cases none_ : call.num = 0 ∧ call.precision = 0
  · simp [zero.mpr none_.1, none_]
  · have some_ : call.start.toNat ≠ 0 ∨ call.precision ≠ 0 := by
      rw [ne_eq, zero]
      exact not_and_or.mp none_
    rw [if_pos some_, if_neg none_, Call.precise, Call.written]

theorem precise_asked (call : Call) : preciseC89 call.field call.letter call.num =
    if call.kind.special ∧ call.base = 8 ∧ call.asked.head? ≠ some 48#8 then 48#8 :: call.asked
    else call.asked := by
  have asked := asked_digits call
  simp only [preciseC89, letter_base, printed_start, letter_octal, asked]
  rfl

theorem written_digit (call : Call) : ∀ c ∈ call.written, ∃ value < 16, c = alphabet (!call.kind.small) value := by
  obtain ⟨two, sixteen, signed⟩ := base_bounds call
  have each (places : Nat) : ∀ v, ∀ c ∈ Format.digitLoop (!call.kind.small) call.base.toNat places v,
      ∃ value < 16, c = alphabet (!call.kind.small) value := by
    induction places with
    | zero => simp [Format.digitLoop]
    | succ places ih =>
        intro v c inside
        rw [Format.digitLoop, List.mem_cons] at inside
        rcases inside with first | later
        · have less := Nat.mod_lt v (by omega : 0 < call.base.toNat)
          exact ⟨_, by omega, first⟩
        · split at later
          · simp at later
          · exact ih _ c later
  exact each 33 call.start.toNat

theorem alphabet_plain (upper : Bool) {value : Nat} (digit : value < 16) :
    alphabet upper value ∉ [32#8, 43#8, 88#8, 120#8] := by
  have all : ∀ upper : Bool, ∀ value < 16, alphabet upper value ∉ [32#8, 43#8, 88#8, 120#8] := by decide
  exact all upper value digit

theorem precise_plain (call : Call) {x : BitVec 8} (other : x ∈ [32#8, 43#8, 88#8, 120#8]) :
    call.precise.count x = 0 := by
  rw [List.count_eq_zero]
  intro inside
  rw [Call.precise, List.mem_append, List.mem_reverse] at inside
  rcases inside with zero | digit
  · rw [List.eq_of_mem_replicate zero] at other
    exact absurd other (by decide)
  · obtain ⟨value, small, same⟩ := written_digit call x digit
    exact alphabet_plain _ small (same ▸ other)

theorem arrange_count (x : BitVec 8) (left zeros : Bool) (pad : Nat) (front digits : List (BitVec 8)) :
    (arrange left zeros pad front digits).count x = front.count x + digits.count x +
      if x = (if !left && zeros then 48#8 else 32#8) then pad else 0 := by
  have flip (c : BitVec 8) : (if (c == x) = true then pad else 0) = if x = c then pad else 0 := by
    by_cases same : c = x
    · simp [same]
    · have other : x ≠ c := fun equal => same equal.symm
      simp [same, other]
  cases left <;> cases zeros <;>
    simp only [arrange, List.count_append, List.count_replicate, flip, Bool.not_false, Bool.not_true,
      Bool.and_true, Bool.and_false, Bool.false_eq_true, if_true, if_false] <;> omega

theorem arrange_length (left zeros : Bool) (pad : Nat) (front digits : List (BitVec 8)) :
    (arrange left zeros pad front digits).length = front.length + digits.length + pad := by
  cases left <;> cases zeros <;> simp [arrange] <;> omega

theorem alphabet_some (upper : Bool) {value : Nat} (digit : value < 16) (some_ : value ≠ 0) :
    alphabet upper value ≠ 48#8 := by
  have all : ∀ upper : Bool, ∀ value < 16, value ≠ 0 → alphabet upper value ≠ 48#8 := by decide
  exact all upper value digit some_

/-- Only the digits of zero, and digits that the precision leads with zeros, start with one. -/
theorem precise_head (call : Call) :
    call.precise.head? = some 48#8 ↔ call.num = 0 ∨ call.digits < call.precision := by
  obtain ⟨two, sixteen, signed⟩ := base_bounds call
  have fits : call.start.toNat < call.base.toNat ^ 33 :=
    lt_of_lt_of_le call.start.isLt ((Nat.pow_le_pow_right (by omega) (by omega : 32 ≤ 33)).trans
      (Nat.pow_le_pow_left two _))
  have zero : call.start.toNat = 0 ↔ call.num = 0 := by
    rw [← start_zero, BitVec.toNat_eq]
    simp
  rw [Call.precise, written_length]
  rcases Int.lt_or_le call.digits call.precision with more | few
  · obtain ⟨zeros, same⟩ : ∃ zeros, (call.precision - call.digits).toNat = zeros + 1 :=
      ⟨(call.precision - call.digits).toNat - 1, by omega⟩
    simp [same, List.replicate_succ, more]
  · have none_ : (call.precision - call.digits).toNat = 0 := by omega
    have notMore : ¬(call.digits : Int) < call.precision := by omega
    rw [none_, List.replicate_zero, List.nil_append, List.head?_reverse]
    simp only [notMore, or_false]
    rcases Nat.eq_zero_or_pos call.start.toNat with same | some_
    · simp [Call.written, same, Format.digitLoop, alphabet, zero.mp same]
    · have number : call.num ≠ 0 := fun none => by
        have gone := zero.mpr none
        omega
      have nonempty : Nat.digits call.base.toNat call.start.toNat ≠ [] :=
        Nat.digits_ne_nil_iff_ne_zero.mpr (by omega)
      have leading := Nat.getLast_digit_ne_zero call.base.toNat (by omega : call.start.toNat ≠ 0)
      have less := Nat.digits_lt_base two (List.getLast_mem nonempty)
      rw [Call.written, Format.digitLoop_digits _ two 33 _ some_ fits, List.getLast?_map,
        List.getLast?_eq_getLast_of_ne_nil nonempty]
      simp only [Option.map_some, number, iff_false, Option.some.injEq]
      exact alphabet_some _ (by omega) leading

/-! The whole text. -/

theorem rest_eq (call : Call) :
    call.size - call.sign.length - call.special.length - call.precise.length = call.rest := by
  rw [sign_width, mark_width, precise_length]
  rfl

theorem rest_bounds (call : Call) : -4294967298 ≤ call.rest ∧ call.rest ≤ 2147483646 := by
  have size := call.size_int
  have precision := call.precision_int
  have digits : call.digits ≤ 33 := by
    rw [← written_length]
    exact Format.digitLoop_length _ _ _ _
  have one : 1 ≤ call.digits := Nat.le_max_left _ _
  have sign : 0 ≤ call.signWidth ∧ call.signWidth ≤ 1 := by
    simp only [Call.signWidth]
    split_ifs <;> omega
  have mark : 0 ≤ call.markWidth ∧ call.markWidth ≤ 2 := by
    simp only [Call.markWidth]
    split_ifs <;> omega
  simp only [Call.rest]
  omega

def Call.Fits (call : Call) : Prop :=
  -2147483648 + call.kind.steps ≤ call.rest ∨ call.rest ≤ -4294967296

theorem steps_bounds (kind : Kind) : 0 ≤ kind.steps ∧ kind.steps ≤ 2 := by
  simp only [Kind.steps]
  split_ifs <;> omega

theorem run_fits (call : Call) (below : call.start.toNat < 2 ^ 31) (fits : call.Fits) :
    call.run = .written (arrange call.kind.left call.kind.zeropad call.rest.toNat
      (call.sign ++ call.special) call.precise) := by
  have bounds := rest_bounds call
  have steps := steps_bounds call.kind
  rw [number_written call below, rest_eq]
  rcases fits with fits | far
  · rw [Format.wrap_same (by omega) (by omega)]
    exact congrArg Outcome.written (gaps_fit call.kind fits (by omega) _ _)
  · have wrapped := wrap_lowest (by omega) far
    have low : -2147483648 + call.kind.steps ≤ wrap call.rest := by omega
    have padding := gaps_fit call.kind low (by omega) (call.sign ++ call.special) call.precise
    have none_ : (wrap call.rest).toNat = call.rest.toNat := by omega
    rw [none_] at padding
    exact congrArg Outcome.written padding

theorem run_overflow (call : Call) (below : call.start.toNat < 2 ^ 31) (overflow : ¬call.Fits) :
    ∃ text, call.run = .written text ∧
      (call.sign ++ call.special).length + call.precise.length < text.length := by
  have bounds := rest_bounds call
  have steps := steps_bounds call.kind
  obtain ⟨low, far⟩ := not_or.mp overflow
  refine ⟨_, number_written call below, ?_⟩
  rw [rest_eq]
  by_cases below : call.rest < -2147483648
  · have wrapped := wrap_low (by omega) below
    have padding := gaps_fit call.kind (by omega : -2147483648 + call.kind.steps ≤ wrap call.rest)
      (by omega) (call.sign ++ call.special) call.precise
    simp only at padding ⊢
    rw [padding, arrange_length]
    omega
  · rw [Format.wrap_same (by omega) (by omega)]
    have long := gaps_overflow call.kind (by omega : -2147483648 ≤ call.rest) (by omega)
    simp only [List.length_append] at long ⊢
    omega

def Call.zero (call : Call) : List (BitVec 8) := if call.kind.special ∧ call.base = 8 then [48#8] else []

theorem special_zero (call : Call) (mark : ¬(call.kind.special ∧ call.base = 16 ∧ call.num = 0)) :
    call.special = call.zero ++ markC89 call.field.flags call.letter call.num := by
  rw [mark_special]
  simp only [Call.special, Call.zero]
  rcases call.base_known with base | base | base
  · cases call.kind.special <;> simp [base]
  · cases call.kind.special <;> simp [base]
  · cases special : call.kind.special with
    | false => simp
    | true =>
        have some_ : ¬call.num = 0#32 := fun none => mark ⟨special, base, none⟩
        simp [base, some_]

theorem unsigned_sign (call : Call) (unsigned : call.kind.sign = false) :
    signC89 call.field.flags call.letter call.num = [] := by
  have positive : call.negative = false := by simp [Call.negative, unsigned]
  rw [printed_negative] at positive
  simp only [decide_eq_false_iff_not] at positive
  simp [signC89, positive, letter_signed, unsigned]

theorem other_unsigned (call : Call) (base : call.base ≠ 10) : call.kind.sign = false := by
  cases sign : call.kind.sign with
  | false => rfl
  | true => exact absurd (call.sign_decimal sign) base

/-- Zeros at the end of the front can as well be the first digits. -/
theorem arrange_zero (left zeros : Bool) (pad leading : Nat) (front digits : List (BitVec 8)) :
    arrange left zeros pad (front ++ List.replicate leading 48#8) digits =
      arrange left zeros pad front (List.replicate leading 48#8 ++ digits) := by
  have swap : List.replicate leading 48#8 ++ List.replicate pad 48#8 =
      List.replicate pad 48#8 ++ List.replicate leading 48#8 := by
    rw [List.replicate_append_replicate, List.replicate_append_replicate, Nat.add_comm]
  cases left <;> cases zeros <;>
    simp only [arrange, List.append_assoc, Bool.false_eq_true, if_true, if_false]
  rw [← List.append_assoc (List.replicate leading _), swap, List.append_assoc]

/-- A sign of one space does no harm where it takes the place of padding. -/
theorem arrange_iff {left zeropad free extra : Bool} {size rest : Int} {front digits : List (BitVec 8)}
    (room : rest = size - (if extra then 1 else 0) - (front ++ digits).length)
    (some_ : front ++ digits ≠ []) (head : extra → (front ++ digits).head? ≠ some 32#8) :
    arrange left zeropad rest.toNat ((if extra then [32#8] else []) ++ front) digits =
        arrange left (zeropad && free) (size.toNat - (front ++ digits).length) front digits ↔
      (zeropad → left = false → free = false → rest ≤ 0) ∧
      (extra → left = false ∧ 0 ≤ rest ∧ (zeropad → free = false)) := by
  have spaces (first second : List (BitVec 8)) (same : first = second) :
      first.count 32#8 = second.count 32#8 := congrArg _ same
  rw [List.length_append] at room ⊢
  cases extra with
  | false =>
      simp only [Bool.false_eq_true, if_false, List.nil_append, false_implies, and_true] at room ⊢
      have pad : size.toNat - (front.length + digits.length) = rest.toNat := by omega
      rw [pad]
      constructor
      · rintro same rfl rfl rfl
        have counted := spaces _ _ same
        simp only [arrange_count] at counted
        simp at counted
        omega
      · intro none_
        cases left with
        | true => rfl
        | false =>
            cases zeropad with
            | false => rfl
            | true =>
                cases free with
                | true => rfl
                | false =>
                    have gone : rest.toNat = 0 := by
                      have few := none_ rfl rfl rfl
                      omega
                    simp [gone, arrange]
  | true =>
      simp only [if_true, true_implies] at room ⊢
      constructor
      · intro same
        cases left with
        | true =>
            have first := congrArg List.head? same
            simp only [arrange, if_true] at first
            rw [List.head?_append_of_ne_nil _ some_] at first
            exact absurd first.symm (by simpa using head rfl)
        | false =>
            have counted := spaces _ _ same
            have lengths := congrArg List.length same
            simp only [arrange_count, arrange_length] at counted lengths
            cases zeropad with
            | false =>
                simp at lengths
                refine ⟨fun none_ => absurd none_ Bool.false_ne_true, rfl, by omega,
                  fun none_ => absurd none_ Bool.false_ne_true⟩
            | true =>
                cases free with
                | true =>
                    simp at counted
                | false =>
                    simp at counted
                    refine ⟨fun _ _ _ => by omega, rfl, by omega, fun _ => rfl⟩
      · rintro ⟨none_, rfl, enough, hidden⟩
        have pad : size.toNat - (front.length + digits.length) = rest.toNat + 1 := by omega
        rw [pad]
        cases zeropad with
        | false => simp [arrange, List.replicate_succ']
        | true =>
            obtain rfl := hidden rfl
            have gone : rest.toNat = 0 := by
              have few := none_ rfl rfl rfl
              omega
            simp [gone, arrange]

theorem zero_mark (call : Call) :
    call.zero ++ markC89 call.field.flags call.letter call.num =
      markC89 call.field.flags call.letter call.num ++ call.zero := by
  rw [mark_special, Call.zero]
  rcases call.base_known with base | base | base <;> simp [base]

theorem zero_replicate (call : Call) : ∃ leading, call.zero = List.replicate leading 48#8 := by
  rw [Call.zero]
  split
  · exact ⟨1, rfl⟩
  · exact ⟨0, rfl⟩

theorem precise_some (call : Call) : call.precise ≠ [] := by
  have long := precise_length call
  have one : 1 ≤ call.digits := Nat.le_max_left _ _
  intro none
  rw [none, List.length_nil] at long
  omega

theorem mark_plain (call : Call) {x : BitVec 8} (other : x = 32#8 ∨ x = 43#8) :
    (markC89 call.field.flags call.letter call.num).count x = 0 := by
  rw [mark_special]
  split
  · cases call.kind.small <;> rcases other with rfl | rfl <;> decide
  · rfl

/-- The exceptions of the octal mark aside, only the padding can differ. -/
theorem plain_iff (call : Call) (below : call.start.toNat < 2 ^ 31) (fits : call.Fits)
    (some_ : call.num ≠ 0 ∨ call.precision ≠ 0) (plus : call.kind.plus → call.kind.sign)
    (hexadecimal : ¬(call.kind.special ∧ call.base = 16 ∧ call.num = 0))
    (octal : call.kind.special → call.base = 8 → call.num ≠ 0 ∧ call.precision ≤ call.digits) :
    call.run = .written call.text ↔
      (call.kind.zeropad → call.kind.left = false → 0 ≤ call.precision → call.rest ≤ 0) ∧
      (call.kind.space → call.kind.sign = false →
        call.kind.left = false ∧ 0 ≤ call.rest ∧ (call.kind.zeropad → 0 ≤ call.precision)) := by
  have asked : call.asked = call.precise := if_neg (not_and_or.mpr some_)
  have precise : preciseC89 call.field call.letter call.num = call.zero ++ call.precise := by
    have head := precise_head call
    rw [precise_asked, asked, Call.zero]
    by_cases marked : call.kind.special ∧ call.base = 8
    · obtain ⟨number, few⟩ := octal marked.1 marked.2
      have other : call.precise.head? ≠ some 48#8 := by
        rw [ne_eq, head]
        rintro (none | more)
        · exact number none
        · omega
      rw [if_pos ⟨marked.1, marked.2, other⟩, if_pos marked, List.singleton_append]
    · rw [if_neg fun all => marked ⟨all.1, all.2.1⟩, if_neg marked, List.nil_append]
  obtain ⟨leading, zeros⟩ := zero_replicate call
  have rest := rest_eq call
  rw [run_fits call below fits, text_arranged, precise, special_zero call hexadecimal,
    sign_extra call plus, zero_mark]
  simp only [Outcome.written.injEq]
  generalize front_ : signC89 call.field.flags call.letter call.num ++
    markC89 call.field.flags call.letter call.num = front
  have moved : ((if call.kind.space && !call.kind.sign then [32#8] else []) ++
      signC89 call.field.flags call.letter call.num) ++
      (markC89 call.field.flags call.letter call.num ++ call.zero) =
      ((if call.kind.space && !call.kind.sign then [32#8] else []) ++ front) ++ call.zero := by
    simp only [← front_, List.append_assoc]
  have room : call.rest = call.size - (if call.kind.space && !call.kind.sign then 1 else 0) -
      (front ++ (call.zero ++ call.precise)).length := by
    rw [← rest, special_zero call hexadecimal, sign_extra call plus, ← front_]
    simp only [List.length_append]
    split <;> simp only [List.length_singleton, List.length_nil] <;> omega
  have head : call.kind.space && !call.kind.sign → (front ++ (call.zero ++ call.precise)).head? ≠ some 32#8 := by
    intro extra first
    simp only [Bool.and_eq_true, Bool.not_eq_true'] at extra
    have spaces : (front ++ (call.zero ++ call.precise)).count 32#8 = 0 := by
      rw [← front_, unsigned_sign call extra.2, zeros]
      simp [mark_plain call (.inl rfl), precise_plain call, List.count_replicate]
    exact List.count_eq_zero.mp spaces (List.mem_of_mem_head? first)
  have nonempty : front ++ (call.zero ++ call.precise) ≠ [] := by
    simp [precise_some call]
  have same := @arrange_iff call.kind.left call.kind.zeropad (decide (call.precision < 0)) _ _ _ _ _
    room nonempty head
  rw [moved, zeros, arrange_zero, ← zeros, same]
  simp

/-- One zero too many can only hide among padding zeros. -/
theorem octal_iff (call : Call) (below : call.start.toNat < 2 ^ 31) (fits : call.Fits)
    (some_ : call.num ≠ 0 ∨ call.precision ≠ 0) (plus : call.kind.plus → call.kind.sign)
    (special : call.kind.special) (base : call.base = 8)
    (leads : call.num = 0 ∨ call.digits < call.precision) :
    call.run = .written call.text ↔ call.num = 0 ∧ call.precision < 0 ∧ call.kind.zeropad ∧
      call.kind.left = false ∧ 0 ≤ call.rest ∧ call.kind.space = false := by
  have asked : call.asked = call.precise := if_neg (not_and_or.mpr some_)
  have precise : preciseC89 call.field call.letter call.num = call.precise := by
    rw [precise_asked, asked, if_neg fun all => all.2.2 ((precise_head call).mpr leads)]
  have unsigned := other_unsigned call (by rw [base]; decide)
  have mark : markC89 call.field.flags call.letter call.num = [] := by
    rw [mark_special, if_neg]
    rw [base]
    rintro ⟨-, sixteen, -⟩
    exact absurd sixteen (by decide)
  have zero : call.special = [48#8] := by
    simp [Call.special, special, base]
  have sign := sign_extra call plus
  rw [unsigned_sign call unsigned, unsigned, Bool.not_false, Bool.and_true, List.append_nil] at sign
  have rest := rest_eq call
  have long : call.precise ≠ [] := precise_some call
  rw [zero, sign] at rest
  rw [run_fits call below fits, text_arranged, precise, mark, unsigned_sign call unsigned, zero, sign]
  simp only [Outcome.written.injEq, List.nil_append]
  constructor
  · intro same
    have zeros := congrArg (List.count 48#8) same
    have spaces := congrArg (List.count 32#8) same
    simp only [arrange_count, precise_plain call (by simp : 32#8 ∈ [32#8, 43#8, 88#8, 120#8])] at zeros spaces
    have hidden : call.kind.left = false ∧ call.kind.zeropad ∧ call.precision < 0 := by
      simp at zeros
      by_contra visible
      rw [if_neg visible] at zeros
      omega
    obtain ⟨left, zeropad, free⟩ := hidden
    have space : call.kind.space = false := by
      cases space : call.kind.space with
      | false => rfl
      | true => simp [left, zeropad, free, space] at spaces
    have number := leads.resolve_right (by omega)
    refine ⟨number, free, zeropad, left, ?_, space⟩
    simp [left, zeropad, free, space] at zeros
    simp [space] at rest
    omega
  · rintro ⟨-, free, zeropad, left, enough, space⟩
    rw [space] at rest
    have pad : call.size.toNat - call.precise.length = call.rest.toNat + 1 := by
      simp at rest
      omega
    simp [zeropad, left, space, free, pad, arrange, List.replicate_succ]

/-! The other direction. -/

theorem standard_plain (call : Call) {x : BitVec 8} (other : x ∈ [32#8, 43#8, 88#8, 120#8]) :
    (preciseC89 call.field call.letter call.num).count x = 0 := by
  have asked : call.asked.count x = 0 := by
    rw [Call.asked]
    split
    · rfl
    · exact precise_plain call other
  rw [precise_asked]
  split
  · have zero : x ≠ 48#8 := by
      rintro rfl
      exact absurd other (by decide)
    rw [List.count_cons_of_ne (Ne.symm zero), asked]
  · exact asked

theorem sign_plain (call : Call) {x : BitVec 8} (other : x ∈ [48#8, 88#8, 120#8]) :
    (signC89 call.field.flags call.letter call.num).count x = 0 := by
  simp only [List.mem_cons, List.not_mem_nil, or_false] at other
  rw [signC89]
  split_ifs <;> rcases other with rfl | rfl | rfl <;> decide

theorem standard_short (call : Call) :
    (signC89 call.field.flags call.letter call.num).length +
      (markC89 call.field.flags call.letter call.num).length +
      (preciseC89 call.field call.letter call.num).length ≤
    (call.sign ++ call.special).length + call.precise.length := by
  have asked : call.asked.length ≤ call.precise.length := by
    rw [Call.asked]
    split
    · exact Nat.zero_le _
    · exact Nat.le_refl _
  have sign : (signC89 call.field.flags call.letter call.num).length ≤ call.sign.length := by
    have plus : call.field.flags.plus = call.kind.plus := rfl
    have space : call.field.flags.space = call.kind.space := rfl
    simp only [signC89, Call.sign, printed_negative, decide_eq_true_eq, plus, space]
    split_ifs <;> simp_all
  have rest : (markC89 call.field.flags call.letter call.num).length +
      (preciseC89 call.field call.letter call.num).length ≤ call.special.length + call.precise.length := by
    rw [mark_special, precise_asked, Call.special]
    rcases call.base_known with base | base | base
    · cases call.kind.special with
      | false => simpa [base] using asked
      | true =>
          simp [base]
          split
          · omega
          · rw [List.length_cons]
            omega
    · simp [base]
      omega
    · cases call.kind.special with
      | false => simpa [base] using asked
      | true =>
          simp [base]
          split <;> simp only [List.length_cons, List.length_nil] <;> omega
  rw [List.length_append]
  omega

theorem text_count (call : Call) (x : BitVec 8) : call.text.count x =
    (signC89 call.field.flags call.letter call.num).count x +
      (markC89 call.field.flags call.letter call.num).count x +
      (preciseC89 call.field call.letter call.num).count x +
      if x = (if !call.kind.left && (call.kind.zeropad && decide (call.precision < 0)) then 48#8 else 32#8)
        then call.size.toNat - (signC89 call.field.flags call.letter call.num ++
          markC89 call.field.flags call.letter call.num ++ preciseC89 call.field call.letter call.num).length
        else 0 := by
  rw [text_arranged, arrange_count, List.count_append]

section Same

variable {call : Call} (same : call.run = .written call.text)
include same

theorem same_below : call.start.toNat < 2 ^ 31 := by
  by_contra above
  rw [number_outside call (Nat.not_lt.mp above)] at same
  cases same

theorem same_fits : call.Fits := by
  by_contra overflow
  obtain ⟨text, run, long⟩ := run_overflow call (same_below same) overflow
  rw [run] at same
  obtain rfl := Outcome.written.inj same
  have short := standard_short call
  have rest := rest_eq call
  have steps := steps_bounds call.kind
  have low := not_or.mp overflow
  rw [text_arranged, arrange_length] at long
  simp only [List.length_append] at long short rest
  omega

theorem same_text : arrange call.kind.left call.kind.zeropad call.rest.toNat
    (call.sign ++ call.special) call.precise = call.text := by
  rw [run_fits call (same_below same) (same_fits same)] at same
  exact Outcome.written.inj same

theorem same_some : call.num ≠ 0 ∨ call.precision ≠ 0 := by
  by_contra none_
  obtain ⟨number, precision⟩ := not_or.mp none_
  rw [not_not] at number precision
  have zeros := congrArg (List.count 48#8) (same_text same)
  have first : 0 < call.precise.count 48#8 :=
    List.count_pos_iff.mpr (List.mem_of_mem_head? ((precise_head call).mpr (.inl number)))
  have mark : markC89 call.field.flags call.letter call.num = [] := by
    rw [mark_special, if_neg fun all => all.2.2 number]
  have asked : call.asked = [] := if_pos ⟨number, precision⟩
  have given : ¬call.precision < 0 := by omega
  rw [text_count, sign_plain call (by simp : 48#8 ∈ [48#8, 88#8, 120#8]), mark, precise_asked, asked,
    arrange_count] at zeros
  have bare : (!call.kind.left && (call.kind.zeropad && decide (call.precision < 0))) = false := by
    simp [given]
  have special : (if call.kind.special ∧ call.base = 8 then 1 else 0) ≤ call.special.count 48#8 := by
    rw [Call.special]
    cases call.kind.special <;> rcases call.base_known with base | base | base <;> simp [base]
  rw [bare, if_neg (by decide : ¬48#8 = (if false = true then 48#8 else 32#8)), List.count_append] at zeros
  have wanted : (if call.kind.special = true ∧ call.base = 8 ∧ ([] : List (BitVec 8)).head? ≠ some 48#8
      then [48#8] else []).count 48#8 = if call.kind.special ∧ call.base = 8 then 1 else 0 := by
    by_cases marked : call.kind.special ∧ call.base = 8
    · rw [if_pos ⟨marked.1, marked.2, by simp⟩, if_pos marked]
      rfl
    · rw [if_neg fun all => marked ⟨all.1, all.2.1⟩, if_neg marked]
      rfl
  rw [wanted, List.count_nil] at zeros
  omega

theorem same_hexadecimal : ¬(call.kind.special ∧ call.base = 16 ∧ call.num = 0) := by
  rintro ⟨special, base, number⟩
  have marks := congrArg (List.count (alphabet (!call.kind.small) 33)) (same_text same)
  have mark : markC89 call.field.flags call.letter call.num = [] := by
    rw [mark_special, if_neg fun all => all.2.2 number]
  have known : alphabet (!call.kind.small) 33 = 88#8 ∨ alphabet (!call.kind.small) 33 = 120#8 := by
    cases call.kind.small
    · exact .inl (by decide)
    · exact .inr (by decide)
  have zero : call.special = [48#8, alphabet (!call.kind.small) 33] := by
    simp [Call.special, special, base]
  rw [text_count, mark, arrange_count, zero] at marks
  generalize alphabet (!call.kind.small) 33 = x at known marks
  have standard := standard_plain call (x := x) (by rcases known with rfl | rfl <;> simp)
  have sign := sign_plain call (x := x) (by rcases known with rfl | rfl <;> simp)
  have pads (zeros : Bool) : x ≠ (if zeros then 48#8 else 32#8) := by
    cases zeros <;> rcases known with rfl | rfl <;> decide
  rw [if_neg (pads _), if_neg (pads _)] at marks
  simp [standard, sign] at marks
  exact List.count_eq_zero.mp marks.1.2 (by simp)

theorem same_plus : call.kind.plus → call.kind.sign := by
  intro plus
  by_contra unsigned
  rw [Bool.not_eq_true] at unsigned
  have pluses := congrArg (List.count 43#8) (same_text same)
  have negative : call.negative = false := by simp [Call.negative, unsigned]
  have sign : call.sign = [43#8] := by simp [Call.sign, negative, plus]
  rw [text_count, unsigned_sign call unsigned, mark_plain call (.inr rfl),
    standard_plain call (by simp : 43#8 ∈ [32#8, 43#8, 88#8, 120#8]), arrange_count, sign] at pluses
  have pads (zeros : Bool) : 43#8 ≠ (if zeros then 48#8 else 32#8) := by cases zeros <;> decide
  rw [if_neg (pads _), if_neg (pads _)] at pluses
  simp at pluses

end Same

theorem Call.Meets.correct {call : Call} (meets : call.Meets) : call.Correct := by
  obtain ⟨below, some_, hexadecimal, plus, octal, fits, zeropad, space⟩ := meets
  constructor
  · by_cases leads : call.kind.special ∧ call.base = 8 ∧ (call.num = 0 ∨ call.digits < call.precision)
    · obtain ⟨special, base, leads⟩ := leads
      apply (octal_iff call below fits some_ plus special base leads).mpr
      refine (octal special base).resolve_left ?_
      rintro ⟨number, few⟩
      rcases leads with none_ | more
      · exact number none_
      · omega
    · apply (plain_iff call below fits some_ plus hexadecimal ?_).mpr ⟨zeropad, space⟩
      intro special base
      have both := not_or.mp fun either => leads ⟨special, base, either⟩
      exact ⟨both.1, Int.not_lt.mp both.2⟩
  · intro rounds
    have size := call.start.isLt
    refine (dividends_length call rounds 32 call.start ?_).trans (by omega)
    rw [BitVec.toInt_eq_toNat_of_lt (by omega)]
    omega
  · intro rounds n inside
    obtain ⟨two, sixteen, signed⟩ := base_bounds call
    exact spDoDiv_unsigned (dividends_small call rounds _ below n inside) (by omega)

theorem number_standard (call : Call) : call.Correct ↔ call.Meets := by
  constructor
  · rintro ⟨same, -, -⟩
    have below := same_below same
    have fits := same_fits same
    have some_ := same_some same
    have plus := same_plus same
    have hexadecimal := same_hexadecimal same
    by_cases leads : call.kind.special ∧ call.base = 8 ∧ (call.num = 0 ∨ call.digits < call.precision)
    · obtain ⟨special, base, leads⟩ := leads
      have hidden := (octal_iff call below fits some_ plus special base leads).mp same
      obtain ⟨number, free, zeropad, left, enough, space⟩ := hidden
      refine ⟨below, some_, hexadecimal, plus, fun _ _ => .inr ?_, fits, ?_, ?_⟩
      · exact ⟨number, free, zeropad, left, enough, space⟩
      · intro _ _ given
        omega
      · intro spaced
        rw [space] at spaced
        exact absurd spaced (by decide)
    · have octal : call.kind.special → call.base = 8 → call.num ≠ 0 ∧ call.precision ≤ call.digits := by
        intro special base
        have both := not_or.mp fun either => leads ⟨special, base, either⟩
        exact ⟨both.1, Int.not_lt.mp both.2⟩
      have padding := (plain_iff call below fits some_ plus hexadecimal octal).mp same
      exact ⟨below, some_, hexadecimal, plus, fun special base => .inl (octal special base), fits,
        padding.1, padding.2⟩
  · exact Call.Meets.correct

/-- `%u` of 4294967295 -/
theorem unsigned_outside : ¬∀ call : Call, call.Correct := by
  intro all
  have call := all ⟨4294967295, 10, -1, -1, ⟨false, false, false, false, false, false, false⟩,
    .inr (.inl rfl), nofun, nofun, by omega, by omega⟩
  have below := same_below call.text
  exact absurd below (by decide)

end SymphonyPlus.Vsprintf
