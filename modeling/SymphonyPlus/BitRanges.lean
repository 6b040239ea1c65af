import Mathlib.Data.BitVec
import Mathlib.Data.List.Basic

/-!
A range of bits in a word: reading it by a shift and a mask, replacing it, and extending what was
read by a pair of shifts.
-/

namespace BitRanges

variable {w : Nat}

def mask (w length : Nat) : BitVec w := BitVec.ofNat w (2 ^ length - 1)

def replace (word : BitVec w) (start length : Nat) (value : BitVec w) : BitVec w :=
  (word &&& ~~~(mask w length <<< start)) ||| ((value &&& mask w length) <<< start)

@[simp] theorem getLsbD_mask (length i : Nat) :
    (mask w length).getLsbD i = (decide (i < w) && decide (i < length)) := by
  rw [mask, BitVec.getLsbD_ofNat, Nat.testBit_two_pow_sub_one]

@[simp] theorem getElem_mask (length : Nat) {i : Nat} (bound : i < w) :
    (mask w length)[i] = decide (i < length) := by
  rw [← BitVec.getLsbD_eq_getElem, getLsbD_mask]
  simp [bound]

theorem mask_full {length : Nat} (full : w ≤ length) : mask w length = BitVec.allOnes w := by
  apply BitVec.eq_of_getLsbD_eq
  intro i bound
  simp [bound, Nat.lt_of_lt_of_le bound full]

/-- What a shift and a mask read is the range. -/
theorem shift_and_mask (word : BitVec w) (start length : Nat) :
    (word >>> start) &&& mask w length = (word.extractLsb' start length).setWidth w := by
  apply BitVec.eq_of_getLsbD_eq
  intro i bound
  simp [bound, Bool.and_comm]

theorem and_mask (word : BitVec w) (length : Nat) :
    word &&& mask w length = (word.truncate length).setWidth w := by
  apply BitVec.eq_of_getLsbD_eq
  intro i bound
  simp [bound, Bool.and_comm]

/-- Shifting up and back down by the arithmetic shift extends by the sign. -/
theorem shifts_signExtend {length : Nat} (value : BitVec length) (fits : length ≤ w) :
    (value.setWidth w <<< (w - length)).sshiftRight (w - length) = value.signExtend w := by
  apply BitVec.eq_of_getLsbD_eq
  intro i bound
  have top : (value.setWidth w <<< (w - length)).msb = value.msb := by
    rw [BitVec.msb_eq_getLsbD_last, BitVec.msb_eq_getLsbD_last, BitVec.getLsbD_shiftLeft,
      BitVec.getLsbD_setWidth]
    by_cases empty : length = 0
    · subst empty
      simp
    · rw [show w - 1 - (w - length) = length - 1 by omega]
      have last : w - 1 < w := by omega
      have above : ¬w - 1 < w - length := by omega
      simp [last, above]
      omega
  rw [BitVec.getLsbD_sshiftRight, BitVec.getLsbD_signExtend, top, BitVec.getLsbD_shiftLeft,
    BitVec.getLsbD_setWidth]
  by_cases inside : i < length
  · rw [if_pos (by omega), if_pos inside, show w - length + i - (w - length) = i by omega]
    have above : ¬w - length + i < w - length := by omega
    have below : w - length + i < w := by omega
    simp [bound, above, below]
  · rw [if_neg (by omega), if_neg inside]
    simp [bound]

theorem truncate_shift (word : BitVec w) {length : Nat} (fits : length ≤ w) :
    (word.truncate length).setWidth w <<< (w - length) = word <<< (w - length) := by
  apply BitVec.eq_of_getLsbD_eq
  intro i bound
  rw [BitVec.getLsbD_shiftLeft, BitVec.getLsbD_shiftLeft, BitVec.getLsbD_setWidth,
    BitVec.getLsbD_setWidth]
  by_cases below : i < w - length
  · simp [below]
  · have inside : i - (w - length) < w := by omega
    have low : i - (w - length) < length := by omega
    simp [inside, low]

theorem signExtend_low (word : BitVec w) {length : Nat} (fits : length ≤ w) :
    (word <<< (w - length)).sshiftRight (w - length) = (word.truncate length).signExtend w := by
  rw [← truncate_shift word fits, shifts_signExtend _ fits]

theorem shifts_zeroExtend {length : Nat} (value : BitVec length) (fits : length ≤ w) :
    (value.setWidth w <<< (w - length)) >>> (w - length) = value.setWidth w := by
  apply BitVec.eq_of_getLsbD_eq
  intro i bound
  rw [BitVec.getLsbD_ushiftRight, BitVec.getLsbD_shiftLeft,
    show w - length + i - (w - length) = i by omega]
  by_cases inside : i < length
  · have below : w - length + i < w := by omega
    simp [below]
  · have outside : value.getLsbD i = false := BitVec.getLsbD_of_ge _ _ (by omega)
    simp [outside]

theorem zeroExtend_low (word : BitVec w) {length : Nat} (fits : length ≤ w) :
    (word <<< (w - length)) >>> (w - length) = (word.truncate length).setWidth w := by
  rw [← truncate_shift word fits, shifts_zeroExtend _ fits]

/-- A value that its own shift does not change in the low bits is zero. -/
theorem eq_zero_of_shift {length start : Nat} {value : BitVec length} {extended : BitVec w}
    (moved : 0 < start)
    (low : ∀ i < length, extended.getLsbD i = value.getLsbD i)
    (same : value.setWidth w <<< start = extended) : value = 0 := by
  apply BitVec.eq_of_getLsbD_eq
  intro i bound
  induction i using Nat.strongRecOn with
  | ind i ih =>
      rw [← low i bound, ← same, BitVec.getLsbD_shiftLeft, BitVec.getLsbD_setWidth]
      by_cases below : i < start
      · simp [below]
      · rw [ih (i - start) (by omega) (by omega)]
        simp

/-- Sign and zero extension agree for values without the sign bit. -/
theorem setWidth_eq_signExtend_iff {length : Nat} (value : BitVec length) (fits : length ≤ w) :
    value.setWidth w = value.signExtend w ↔ length = w ∨ value.msb = false := by
  constructor
  · intro same
    by_cases full : length = w
    · exact .inl full
    · right
      have bit := congrArg (fun word => word.getLsbD length) same
      have inside : length < w := by omega
      simpa [BitVec.getElem_signExtend, inside] using bit.symm
  · rintro (full | clear)
    · subst full
      simp
    · exact (BitVec.signExtend_eq_setWidth_of_msb_false clear).symm

theorem getLsbD_replace (word : BitVec w) (start length : Nat) (value : BitVec w) {i : Nat}
    (bound : i < w) :
    (replace word start length value).getLsbD i =
      if start ≤ i ∧ i < start + length then value.getLsbD (i - start) else word.getLsbD i := by
  rw [replace]
  by_cases above : start ≤ i
  · have low : i - start < length ↔ i < start + length := by omega
    have back : i - start < w := by omega
    by_cases inside : i < start + length
    · simp [bound, back, inside, low, Nat.not_lt.mpr above]
    · simp [bound, above, inside, low]
  · simp [bound, above, Nat.lt_of_not_le above]

/-- The replaced range holds the value's low bits. -/
theorem extract_replace (word : BitVec w) {start length : Nat} (value : BitVec w)
    (fits : start + length ≤ w) :
    (replace word start length value).extractLsb' start length = value.truncate length := by
  apply BitVec.eq_of_getLsbD_eq
  intro i bound
  rw [BitVec.getLsbD_extractLsb', getLsbD_replace _ _ _ _ (by omega),
    if_pos ⟨by omega, by omega⟩]
  simp [bound]

theorem extract_replace_disjoint (word : BitVec w) {start length start₂ length₂ : Nat}
    (value : BitVec w) (disjoint : start + length ≤ start₂ ∨ start₂ + length₂ ≤ start)
    (fits : start₂ + length₂ ≤ w) :
    (replace word start length value).extractLsb' start₂ length₂ =
      word.extractLsb' start₂ length₂ := by
  apply BitVec.eq_of_getLsbD_eq
  intro i bound
  rw [BitVec.getLsbD_extractLsb', BitVec.getLsbD_extractLsb',
    getLsbD_replace _ _ _ _ (by omega), if_neg (by omega)]

/-- A word is its upper half shifted up, and its lower half. -/
theorem halves_join (word : BitVec 32) :
    ((word.extractLsb' 16 16).setWidth 32 <<< 16) ||| (word.truncate 16).setWidth 32 = word := by
  apply BitVec.eq_of_getLsbD_eq
  intro i bound
  by_cases low : i < 16
  · simp [bound, low]
  · have back : 16 + (i - 16) = i := by omega
    have inside : i - 16 < 16 := by omega
    simp [bound, low, back, inside]

end BitRanges
