import Mathlib.Logic.Function.Basic

/-! Bitmaps kept in bytes, bit `n` being bit `n % 8` of byte `n / 8`. -/

namespace ByteBits

open Function

abbrev Bytes := Nat → BitVec 8

def mask (n : Nat) : BitVec 8 := (1 : BitVec 8) <<< (n % 8)

def test (bytes : Bytes) (n : Nat) : Bool := bytes (n / 8) &&& mask n ≠ 0

def set (bytes : Bytes) (n : Nat) : Bytes := update bytes (n / 8) (bytes (n / 8) ||| mask n)

def clear (bytes : Bytes) (n : Nat) : Bytes := update bytes (n / 8) (bytes (n / 8) &&& ~~~mask n)

theorem one_shift_bit {w n : Nat} (bound : n < w) (i : Nat) :
    ((1 : BitVec w) <<< n).getLsbD i = decide (i = n) := by
  have bit := BitVec.getLsbD_twoPow (w := w) n i
  rw [BitVec.twoPow] at bit
  exact bit.trans (by simp [bound, eq_comm])

theorem mask_getLsbD (n i : Nat) : (mask n).getLsbD i = decide (i = n % 8) :=
  one_shift_bit (Nat.mod_lt n (by decide)) i

/-- A bit is set when the word and the bit alone have something in common. -/
theorem and_bit_ne_zero {w n : Nat} (word : BitVec w) (bound : n < w) :
    word &&& ((1 : BitVec w) <<< n) ≠ 0 ↔ word.getLsbD n = true := by
  constructor
  · intro nonzero
    by_contra clear
    refine nonzero (BitVec.eq_of_getLsbD_eq fun i _ => ?_)
    rw [BitVec.getLsbD_and, one_shift_bit bound]
    by_cases same : i = n
    · rw [same, Bool.not_eq_true] at *
      simp [clear]
    · simp [same]
  · intro bit zero
    have masked : (word &&& ((1 : BitVec w) <<< n)).getLsbD n = false := by rw [zero]; simp
    rw [BitVec.getLsbD_and, one_shift_bit bound, bit] at masked
    simp at masked

theorem test_eq (bytes : Bytes) (n : Nat) : test bytes n = (bytes (n / 8)).getLsbD (n % 8) := by
  rw [test, Bool.eq_iff_iff, decide_eq_true_eq]
  exact and_bit_ne_zero _ (Nat.mod_lt n (by decide))

theorem same_place {n m : Nat} (byte : m / 8 = n / 8) (bit : m % 8 = n % 8) : m = n := by
  omega

@[simp] theorem test_set (bytes : Bytes) (n m : Nat) :
    test (set bytes n) m = (decide (m = n) || test bytes m) := by
  rw [test_eq, test_eq, set]
  by_cases byte : m / 8 = n / 8
  · rw [byte, update_self, BitVec.getLsbD_or, mask_getLsbD, Bool.or_comm]
    by_cases bit : m % 8 = n % 8
    · simp [same_place byte bit]
    · have different : m ≠ n := fun same => bit (by rw [same])
      simp [bit, different]
  · have different : m ≠ n := fun same => byte (by rw [same])
    rw [update_of_ne byte]
    simp [different]

@[simp] theorem test_clear (bytes : Bytes) (n m : Nat) :
    test (clear bytes n) m = (decide (m ≠ n) && test bytes m) := by
  rw [test_eq, test_eq, clear]
  by_cases byte : m / 8 = n / 8
  · rw [byte, update_self, BitVec.getLsbD_and, BitVec.getLsbD_not, mask_getLsbD]
    have bound : m % 8 < 8 := Nat.mod_lt m (by decide)
    by_cases bit : m % 8 = n % 8
    · simp [same_place byte bit]
    · have different : m ≠ n := fun same => bit (by rw [same])
      simp [bit, bound, different]
  · have different : m ≠ n := fun same => byte (by rw [same])
    rw [update_of_ne byte]
    simp [different]

end ByteBits
