import SymphonyPlus.FormatSink
import Mathlib.Data.Nat.Digits.Lemmas

/-! What the standard prints in a field, and what `vsnprintf` prints there. -/

namespace SymphonyPlus.Format

structure Field where
  flags : Flags
  width : Nat
  precision : Option Nat

def padded (left : Bool) (width : Nat) (text : List (BitVec 8)) : List (BitVec 8) :=
  let padding := List.replicate (width - text.length) 32#8
  if left then text ++ padding else padding ++ text

def printedValue (c : BitVec 8) (v : BitVec 32) : Int :=
  if c = 100#8 ∨ c = 105#8 then v.toInt else v.toNat

def signC89 (flags : Flags) (c : BitVec 8) (v : BitVec 32) : List (BitVec 8) :=
  if printedValue c v < 0 then [45#8]
  else if (c = 100#8 ∨ c = 105#8) ∧ flags.plus then [43#8]
  else if (c = 100#8 ∨ c = 105#8) ∧ flags.space then [32#8]
  else []

/-- The mark of a base; what `%p` prints is the implementation's choice. -/
def markC89 (flags : Flags) (c : BitVec 8) (v : BitVec 32) : List (BitVec 8) :=
  if c = 112#8 ∨ (flags.alternate ∧ (c = 120#8 ∨ c = 88#8) ∧ printedValue c v ≠ 0) then
    [48#8, if c = 88#8 then 88#8 else 120#8] else []

def baseC89 (c : BitVec 8) : Nat :=
  if c = 120#8 ∨ c = 88#8 ∨ c = 112#8 then 16 else if c = 111#8 then 8 else 10

/-- The digits, as many as the precision asks for. -/
def preciseC89 (f : Field) (c : BitVec 8) (v : BitVec 32) : List (BitVec 8) :=
  let digits := (Nat.digits (baseC89 c) (printedValue c v).natAbs).reverse.map (alphabet (c = 88#8))
  let precise := List.replicate (f.precision.getD 1 - digits.length) 48#8 ++ digits
  if f.flags.alternate ∧ c = 111#8 ∧ precise.head? ≠ some 48#8 then 48#8 :: precise else precise

def integerC89 (f : Field) (c : BitVec 8) (v : BitVec 32) : List (BitVec 8) :=
  let front := signC89 f.flags c v ++ markC89 f.flags c v
  let precise := preciseC89 f c v
  if f.flags.zero ∧ f.flags.left = false ∧ f.precision = none then
    front ++ List.replicate (f.width - (front ++ precise).length) 48#8 ++ precise
  else padded f.flags.left f.width (front ++ precise)

/-! Digits. -/

theorem digitLoop_digits {base : Nat} (upper : Bool) (two : 2 ≤ base) (places : Nat) : ∀ v, 0 < v →
    v < base ^ places → digitLoop upper base places v = (Nat.digits base v).map (alphabet upper) := by
  induction places with
  | zero =>
      intro v some_ small
      rw [Nat.pow_zero] at small
      omega
  | succ places ih =>
      intro v some_ small
      rw [digitLoop, Nat.digits_def' (by omega) some_, List.map_cons]
      congr 1
      split
      · rename_i last
        rw [last, Nat.digits_zero, List.map_nil]
      · rename_i more
        refine ih _ (Nat.pos_of_ne_zero more) ?_
        rw [Nat.div_lt_iff_lt_mul (by omega)]
        rwa [Nat.pow_succ] at small

/-- The zero that `#` asks of an octal number. -/
theorem octal_zero (octal : Bool) (zeros : Nat) (written : List (BitVec 8)) :
    let leading := if octal ∧ (written.length = 0 ∨ written.getLast? ≠ some 48#8) ∧ zeros = 0
      then 1 else zeros
    let precise := List.replicate zeros 48#8 ++ written.reverse
    List.replicate leading 48#8 ++ written.reverse =
      if octal ∧ precise.head? ≠ some 48#8 then 48#8 :: precise else precise := by
  cases octal with
  | false => simp
  | true =>
      cases zeros with
      | zero =>
          by_cases lead : written.getLast? = some 48#8
          · have some_ : written ≠ [] := by
              rintro rfl
              simp at lead
            simp [lead, some_]
          · simp [lead]
      | succ zeros => simp [List.replicate_succ]

/-- A zero is written as one digit, where the standard makes it from the precision. -/
theorem precise_same {base v : Nat} (upper : Bool) (precision : Int) (two : 2 ≤ base)
    (fits : v < base ^ 33) :
    let written := if v ≠ 0 ∨ precision ≠ 0 then digitLoop upper base 33 v else []
    let digits := (Nat.digits base v).reverse.map (alphabet upper)
    let wanted := if precision < 0 then 1 else precision.toNat
    List.replicate (precision - written.length).toNat 48#8 ++ written.reverse =
      List.replicate (wanted - digits.length) 48#8 ++ digits := by
  rcases Nat.eq_zero_or_pos v with rfl | some_
  · have single : digitLoop upper base 33 0 = [48#8] := by
      simp [digitLoop, alphabet]
    simp only [single, ne_eq, not_true_eq_false, false_or, Nat.digits_zero, List.reverse_nil,
      List.map_nil, List.length_nil, Nat.sub_zero, List.append_nil]
    by_cases zero : precision = 0
    · simp [zero]
    · rw [if_pos zero, List.reverse_singleton, List.length_singleton]
      have shared : List.replicate (precision - (1 : Nat)).toNat 48#8 ++ [48#8] =
          List.replicate ((precision - (1 : Nat)).toNat + 1) 48#8 := (List.replicate_succ').symm
      rw [shared]
      congr 1
      split <;> omega
  · have digits := digitLoop_digits upper two 33 v some_ fits
    have nonempty : Nat.digits base v ≠ [] := Nat.digits_ne_nil_iff_ne_zero.mpr (by omega)
    have long := List.length_pos_iff.mpr nonempty
    rw [if_pos (.inl (by omega)), digits, List.map_reverse]
    simp only [List.length_map, List.length_reverse]
    congr 2
    split <;> omega

/-! The parts of a number. -/

section Parts

variable {flags : Flags} {width precision : Int} {c : BitVec 8} {v : BitVec 32}

theorem printedValue_negative :
    decide ((c = 100#8 ∨ c = 105#8) ∧ v.toInt < 0) = decide (printedValue c v < 0) := by
  simp only [printedValue]
  split_ifs with signed
  · simp [signed]
  · simp [signed]

/-- The word whose digits are printed, after the negation. -/
theorem printedValue_word :
    (if decide ((c = 100#8 ∨ c = 105#8) ∧ v.toInt < 0) then 0 - v else v).toNat =
      (printedValue c v).natAbs := by
  have size := v.isLt
  have signed := BitVec.toInt_eq_toNat_cond v
  have zero : (0 : BitVec 32).toNat = 0 := by simp
  by_cases letter : c = 100#8 ∨ c = 105#8
  · simp only [printedValue, letter, true_and, if_true, decide_eq_true_eq]
    split_ifs at signed with low
    · rw [signed, if_neg (by omega), Int.natAbs_natCast]
    · rw [signed, if_pos (by omega), BitVec.toNat_sub, zero]
      omega
  · simp only [printedValue, letter, false_and, decide_false, Bool.false_eq_true, if_false,
      Int.natAbs_natCast]

theorem number_sign : (numberParts flags width precision c v).sign = signC89 flags c v := by
  simp only [numberParts, signC89, printedValue_negative, decide_eq_true_eq]
  split_ifs <;> simp_all

theorem baseC89_bounds (c : BitVec 8) : 2 ≤ baseC89 c ∧ baseC89 c ≤ 16 := by
  simp only [baseC89]
  split_ifs <;> omega

theorem baseC89_eight (c : BitVec 8) : baseC89 c = 8 ↔ c = 111#8 := by
  simp only [baseC89]
  split_ifs with sixteen eight
  · rcases sixteen with rfl | rfl | rfl <;> simp
  · simp [eight]
  · simp [eight]

theorem number_precise (width' : Nat) :
    let number := numberParts flags width precision c v
    0 ≤ number.zeros ∧ List.replicate number.zeros.toNat 48#8 ++ number.digits.reverse =
      preciseC89 ⟨flags, width', if precision < 0 then none else some precision.toNat⟩ c v := by
  obtain ⟨two, sixteen⟩ := baseC89_bounds c
  have word := @printedValue_word c v
  have asked : (if precision < 0 then none else some precision.toNat : Option Nat).getD 1 =
      if precision < 0 then 1 else precision.toNat := by split <;> rfl
  have base : (if c = 120#8 ∨ c = 88#8 ∨ c = 112#8 then 16 else if c = 111#8 then 8 else 10) =
      baseC89 c := rfl
  simp only [numberParts, preciseC89, asked, base, baseC89_eight]
  generalize (if decide ((c = 100#8 ∨ c = 105#8) ∧ v.toInt < 0) then 0 - v else v) = printed at word ⊢
  have some_ : printed ≠ 0 ↔ printed.toNat ≠ 0 := by
    rw [ne_eq, BitVec.toNat_eq]
    simp
  have fits : printed.toNat < baseC89 c ^ 33 :=
    lt_of_lt_of_le printed.isLt ((Nat.pow_le_pow_right (by omega) (by omega : 32 ≤ 33)).trans
      (Nat.pow_le_pow_left two 33))
  have same := precise_same (decide (c = 88#8)) precision two fits
  simp only [some_, word] at same ⊢
  generalize (if (printedValue c v).natAbs ≠ 0 ∨ precision ≠ 0 then
    digitLoop (decide (c = 88#8)) (baseC89 c) 33 (printedValue c v).natAbs else []) = written at same ⊢
  have counted : (if precision > written.length then precision - written.length else 0 : Int) =
      ((precision - written.length).toNat : Int) := by split <;> omega
  rw [← same, counted]
  generalize (precision - written.length).toNat = zeros
  have leading := octal_zero (decide (flags.alternate ∧ c = 111#8)) zeros written
  simp only [decide_eq_true_eq, and_assoc] at leading
  rw [← leading]
  simp only [Int.natCast_eq_zero]
  split_ifs
  · exact ⟨by omega, rfl⟩
  · exact ⟨by omega, rfl⟩

theorem baseC89_sixteen (c : BitVec 8) : baseC89 c = 16 ↔ c = 120#8 ∨ c = 88#8 ∨ c = 112#8 := by
  simp only [baseC89]
  split_ifs with sixteen <;> simp [sixteen]

theorem written_length {upper : Bool} {base : Nat} {printed : BitVec 32} {precision : Int} :
    (if printed ≠ 0 ∨ precision ≠ 0 then digitLoop upper base 33 printed.toNat else []).length ≠ 0 ↔
      printed ≠ 0 ∨ precision ≠ 0 := by
  split_ifs with some_
  · simpa [digitLoop] using some_
  · simpa using some_

theorem printedValue_zero (hexadecimal : c = 120#8 ∨ c = 88#8) (zero : printedValue c v = 0) :
    v = 0 := by
  have unsigned : ¬(c = 100#8 ∨ c = 105#8) := by
    rcases hexadecimal with rfl | rfl <;> simp
  rw [printedValue, if_neg unsigned] at zero
  apply BitVec.eq_of_toNat_eq
  simpa using zero

theorem number_mark (plain : ¬(flags.alternate ∧ (c = 120#8 ∨ c = 88#8) ∧ v = 0 ∧ precision ≠ 0)) :
    (if (numberParts flags width precision c v).twofold then
      [48#8, if c = 88#8 then 88#8 else 120#8] else []) = markC89 flags c v := by
  have same : (numberParts flags width precision c v).twofold = true ↔
      c = 112#8 ∨ (flags.alternate ∧ (c = 120#8 ∨ c = 88#8) ∧ printedValue c v ≠ 0) := by
    have base : (if c = 120#8 ∨ c = 88#8 ∨ c = 112#8 then 16 else if c = 111#8 then 8 else 10) =
        baseC89 c := rfl
    have word := @printedValue_word c v
    simp only [numberParts, decide_eq_true_eq, base, written_length, baseC89_sixteen]
    simp only [decide_eq_true_eq] at word
    generalize (if (c = 100#8 ∨ c = 105#8) ∧ v.toInt < 0 then 0 - v else v) = printed at word ⊢
    have zero : printed ≠ 0 ↔ printedValue c v ≠ 0 := by
      rw [ne_eq, BitVec.toNat_eq, word]
      simp
    constructor
    · rintro (pointer | ⟨alternate, some_, hexadecimal⟩)
      · exact .inl pointer
      · rw [← or_assoc] at hexadecimal
        refine hexadecimal.symm.imp_right fun hexadecimal => ⟨alternate, hexadecimal, ?_⟩
        intro value
        have precise := some_.resolve_left fun printed => zero.mp printed value
        exact plain ⟨alternate, hexadecimal, printedValue_zero hexadecimal value, precise⟩
    · rintro (pointer | ⟨alternate, hexadecimal, some_⟩)
      · exact .inl pointer
      · exact .inr ⟨alternate, .inl (zero.mpr some_), by rw [← or_assoc]; exact .inl hexadecimal⟩
  simp only [same, markC89]

theorem digitLoop_length (upper : Bool) (base places : Nat) : ∀ v,
    (digitLoop upper base places v).length ≤ places := by
  induction places with
  | zero => simp [digitLoop]
  | succ places ih =>
      intro v
      rw [digitLoop, List.length_cons]
      split
      · simp
      · exact Nat.succ_le_succ (ih _)

theorem written_short {upper : Bool} {base : Nat} {printed : BitVec 32} {precision : Int} :
    (if printed ≠ 0 ∨ precision ≠ 0 then digitLoop upper base 33 printed.toNat else []).length ≤ 33 := by
  split
  · exact digitLoop_length _ _ _ _
  · simp

theorem negative_dropped (pad : Int) : (if pad < 0 then 0 else pad) = max 0 pad := by
  split <;> omega

theorem number_pad_eq (width precision : Int) :
    (numberParts flags width precision c v).pad =
      max 0 (wrap (width - (numberParts flags width precision c v).digits.length -
        (numberParts flags width precision c v).zeros -
        (if (numberParts flags width precision c v).sign = [] then 0 else 1) -
        (if (numberParts flags width precision c v).twofold then 2 else 0))) := by
  simp only [numberParts, decide_eq_true_eq]
  exact negative_dropped _

/-- The zeros and digits fill the precision, or are few. -/
theorem number_length :
    let number := numberParts flags width precision c v
    number.zeros + number.digits.length = precision ∨ number.zeros + number.digits.length ≤ 34 := by
  have few : (numberParts flags width precision c v).digits.length ≤ 33 := written_short
  have zeros : (numberParts flags width precision c v).zeros ≤ 1 ∨
      (numberParts flags width precision c v).zeros =
        precision - (numberParts flags width precision c v).digits.length := by
    simp only [numberParts]
    split_ifs <;> simp
  simp only
  omega

theorem sign_length : ((if signC89 flags c v = [] then 0 else 1 : Int)) = (signC89 flags c v).length := by
  simp only [signC89]
  split_ifs <;> simp_all

theorem wrap_same {value : Int} (low : -2147483648 ≤ value) (high : value ≤ 2147483647) :
    wrap value = value := by
  simp only [wrap, Int.bmod]
  omega

theorem sign_or_mark : signC89 flags c v = [] ∨ markC89 flags c v = [] := by
  by_cases signed : c = 100#8 ∨ c = 105#8
  · right
    rcases signed with rfl | rfl <;> simp [markC89]
  · left
    have positive : ¬printedValue c v < 0 := by
      rw [printedValue, if_neg signed]
      omega
    simp [signC89, positive, signed]

theorem signC89_short : (signC89 flags c v).length ≤ 1 := by
  simp only [signC89]
  split_ifs <;> simp

theorem markC89_length : (markC89 flags c v).length = 0 ∨ (markC89 flags c v).length = 2 := by
  simp only [markC89]
  split_ifs <;> simp

theorem number_pad (width' : Nat) (wide : width' ≤ 2147483647) (far : precision ≤ 2147483647)
    (plain : ¬(flags.alternate ∧ (c = 120#8 ∨ c = 88#8) ∧ v = 0 ∧ precision ≠ 0))
    (room : ¬(markC89 flags c v ≠ [] ∧ width' = 0 ∧ precision = 2147483647)) :
    (numberParts flags width' precision c v).pad.toNat = width' -
      (signC89 flags c v ++ markC89 flags c v ++
        preciseC89 ⟨flags, width', if precision < 0 then none else some precision.toNat⟩ c v).length := by
  have mark := @number_mark flags width' precision c v plain
  obtain ⟨positive, precise⟩ := @number_precise flags width' precision c v width'
  have length := @number_length flags width' precision c v
  have marked : (if (numberParts flags width' precision c v).twofold then 2 else 0 : Int) =
      (markC89 flags c v).length := by
    rw [← mark]
    split <;> simp
  rw [number_pad_eq, number_sign, sign_length, marked, ← precise]
  simp only [List.length_append, List.length_replicate, List.length_reverse] at length ⊢
  have sign : (signC89 flags c v).length ≤ 1 := signC89_short
  have twofold : (markC89 flags c v).length = 0 ∨ (markC89 flags c v).length = 2 := markC89_length
  have either : (signC89 flags c v).length = 0 ∨ (markC89 flags c v).length = 0 := by
    rcases @sign_or_mark flags c v with none_ | none_
    · exact .inl (by rw [none_, List.length_nil])
    · exact .inr (by rw [none_, List.length_nil])
  rw [ne_eq, ← List.length_eq_zero_iff] at room
  rw [wrap_same] <;> omega

theorem integerText_same (width' : Nat) (wide : width' ≤ 2147483647) (far : precision ≤ 2147483647)
    (plain : ¬(flags.alternate ∧ (c = 120#8 ∨ c = 88#8) ∧ v = 0 ∧ precision ≠ 0))
    (room : ¬(markC89 flags c v ≠ [] ∧ width' = 0 ∧ precision = 2147483647)) :
    integerText flags width' precision c v =
      integerC89 ⟨flags, width', if precision < 0 then none else some precision.toNat⟩ c v := by
  have pad := number_pad width' wide far plain room
  have mark := @number_mark flags width' precision c v plain
  obtain ⟨-, precise⟩ := @number_precise flags width' precision c v width'
  have none_ : (if precision < 0 then none else some precision.toNat : Option Nat) = none ↔
      precision < 0 := by split <;> simp [*]
  simp only [integerText, integerC89, pad, mark, number_sign, none_, padded]
  rw [List.append_assoc _ _ (List.reverse _), precise]
  generalize preciseC89 _ c v = digits
  cases flags.left <;> by_cases zeroPadded : flags.zero ∧ precision < 0 <;>
    simp [zeroPadded, List.append_assoc]

end Parts

end SymphonyPlus.Format
