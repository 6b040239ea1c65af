import Mathlib.Data.BitVec
import Mathlib.Data.Int.Basic

/-!
The signed division of `runtime/divsi3.c`, by the unsigned one of the machine.
-/

namespace SymphonyPlus

/-- The machine's `div`, which gives zero for a zero divisor. -/
def machineDiv (left right : BitVec 32) : BitVec 32 := if right = 0 then 0 else left / right

def machineMod (left right : BitVec 32) : BitVec 32 := if right = 0 then 0 else left % right

def magnitude (a : BitVec 32) : BitVec 32 := if a.slt 0 then 0 - a else a

def divsi3 (a b : BitVec 32) : BitVec 32 :=
  let q := machineDiv (magnitude a) (magnitude b)
  if a.slt 0 != b.slt 0 then 0 - q else q

def modsi3 (a b : BitVec 32) : BitVec 32 :=
  let r := machineMod (magnitude a) (magnitude b)
  if a.slt 0 then 0 - r else r

theorem slt_zero (a : BitVec 32) : a.slt 0 = decide (a.toInt < 0) := by
  simp [BitVec.slt]

theorem toNat_magnitude (a : BitVec 32) : (magnitude a).toNat = a.toInt.natAbs := by
  have bound := a.isLt
  rw [magnitude, slt_zero, BitVec.toInt_eq_toNat_cond]
  by_cases low : 2 * a.toNat < 2 ^ 32
  · have sign : ¬(a.toNat : Int) < 0 := by omega
    rw [if_pos low, decide_eq_false sign, Int.natAbs_natCast]
    rfl
  · have sign : (a.toNat - (2 ^ 32 : Nat) : Int) < 0 := by omega
    rw [if_neg low, decide_eq_true sign, if_pos rfl, BitVec.toNat_sub,
      show (0 : BitVec 32).toNat = 0 from rfl]
    omega

theorem machineDiv_eq (left right : BitVec 32) :
    machineDiv left right = BitVec.ofInt 32 (left.toNat / right.toNat : Nat) := by
  apply BitVec.eq_of_toNat_eq
  have small : left.toNat / right.toNat < 2 ^ 32 :=
    Nat.lt_of_le_of_lt (Nat.div_le_self _ _) left.isLt
  rw [machineDiv, BitVec.ofInt_natCast, BitVec.toNat_ofNat, Nat.mod_eq_of_lt small]
  split
  · rename_i zero
    simp [zero]
  · rw [BitVec.toNat_udiv]

theorem zero_sub_ofInt (value : Int) : 0 - BitVec.ofInt 32 value = BitVec.ofInt 32 (-value) := by
  exact (BitVec.zero_sub _).trans BitVec.ofInt_neg.symm

theorem tdiv_eq_signed (x y : Int) :
    x.tdiv y = if decide (x < 0) != decide (y < 0) then -((x.natAbs : Int) / y.natAbs)
      else (x.natAbs : Int) / y.natAbs := by
  have natural (n m : Nat) : (n : Int).tdiv m = (n : Int) / m :=
    Int.tdiv_eq_ediv_of_nonneg (Int.natCast_nonneg n)
  by_cases negative : x < 0 <;> by_cases negative₂ : y < 0
  · have quotient := natural x.natAbs y.natAbs
    rw [show (x.natAbs : Int) = -x by omega, show (y.natAbs : Int) = -y by omega, Int.neg_tdiv,
      Int.tdiv_neg, Int.neg_neg] at quotient
    rw [quotient, show (x.natAbs : Int) = -x by omega, show (y.natAbs : Int) = -y by omega]
    simp [negative, negative₂]
  · have quotient := natural x.natAbs y.natAbs
    rw [show (x.natAbs : Int) = -x by omega, show (y.natAbs : Int) = y by omega, Int.neg_tdiv]
      at quotient
    simp only [negative, negative₂]
    rw [show (x.natAbs : Int) = -x by omega, show (y.natAbs : Int) = y by omega, ← quotient]
    simp
  · have quotient := natural x.natAbs y.natAbs
    rw [show (x.natAbs : Int) = x by omega, show (y.natAbs : Int) = -y by omega, Int.tdiv_neg]
      at quotient
    simp only [negative, negative₂]
    rw [show (x.natAbs : Int) = x by omega, show (y.natAbs : Int) = -y by omega, ← quotient]
    simp
  · have quotient := natural x.natAbs y.natAbs
    rw [show (x.natAbs : Int) = x by omega, show (y.natAbs : Int) = y by omega] at quotient
    simp only [negative, negative₂]
    rw [show (x.natAbs : Int) = x by omega, show (y.natAbs : Int) = y by omega, ← quotient]
    simp

/-- The quotient is the one that is truncated towards zero. -/
theorem divsi3_eq (a b : BitVec 32) : divsi3 a b = BitVec.ofInt 32 (a.toInt.tdiv b.toInt) := by
  rw [divsi3, machineDiv_eq, toNat_magnitude, toNat_magnitude, slt_zero, slt_zero, zero_sub_ofInt,
    Int.natCast_ediv, tdiv_eq_signed]
  split <;> rfl

theorem machineMod_eq (left : BitVec 32) {right : BitVec 32} (nonzero : right ≠ 0) :
    machineMod left right = BitVec.ofInt 32 (left.toNat % right.toNat : Nat) := by
  apply BitVec.eq_of_toNat_eq
  have small : left.toNat % right.toNat < 2 ^ 32 :=
    Nat.lt_of_le_of_lt (Nat.mod_le _ _) left.isLt
  rw [machineMod, if_neg nonzero, BitVec.ofInt_natCast, BitVec.toNat_ofNat,
    Nat.mod_eq_of_lt small, BitVec.toNat_umod]

theorem magnitude_nonzero {b : BitVec 32} (nonzero : b ≠ 0) : magnitude b ≠ 0 := by
  intro zero
  have none := toNat_magnitude b
  rw [zero] at none
  exact nonzero (BitVec.toInt_inj.mp (Int.natAbs_eq_zero.mp none.symm))

theorem tmod_eq_signed (x y : Int) :
    x.tmod y = if decide (x < 0) then -((x.natAbs : Int) % y.natAbs)
      else (x.natAbs : Int) % y.natAbs := by
  have size : (x.tmod y).natAbs = x.natAbs % y.natAbs := Int.natAbs_tmod x y
  rw [← Int.natCast_emod, ← size]
  by_cases negative : x < 0
  · have below : x.tmod y ≤ 0 := by
      have opposite := Int.tmod_nonneg y (a := -x) (by omega)
      rw [Int.neg_tmod] at opposite
      omega
    rw [decide_eq_true negative, if_pos rfl]
    omega
  · have above : 0 ≤ x.tmod y := Int.tmod_nonneg y (by omega)
    rw [decide_eq_false negative]
    simp only [Bool.false_eq_true, if_false]
    omega

/-- The remainder has the sign of the dividend. -/
theorem modsi3_eq (a : BitVec 32) {b : BitVec 32} (nonzero : b ≠ 0) :
    modsi3 a b = BitVec.ofInt 32 (a.toInt.tmod b.toInt) := by
  rw [modsi3, machineMod_eq _ (magnitude_nonzero nonzero), toNat_magnitude, toNat_magnitude,
    slt_zero, zero_sub_ofInt, Int.natCast_emod, tmod_eq_signed]
  split <;> rfl

theorem toInt_word {value : Int} (low : -2 ^ 31 ≤ value) (high : value < 2 ^ 31) :
    (BitVec.ofInt 32 value).toInt = value := by
  rw [BitVec.toInt_ofInt]
  exact Int.bmod_eq_of_le (by omega) (by omega)

/-- Only the quotient of the least integer by minus one is not an `int`. -/
theorem tdiv_fits {x y : Int} (low : -2 ^ 31 ≤ x) (high : x < 2 ^ 31) (nonzero : y ≠ 0)
    (other : ¬(x = -2 ^ 31 ∧ y = -1)) : -2 ^ 31 ≤ x.tdiv y ∧ x.tdiv y < 2 ^ 31 := by
  have size : (x.tdiv y).natAbs = x.natAbs / y.natAbs := Int.natAbs_tdiv x y
  by_cases one : y = 1
  · rw [one, Int.tdiv_one]
    exact ⟨low, high⟩
  by_cases minus : y = -1
  · rw [minus, Int.tdiv_neg, Int.tdiv_one]
    constructor
    · omega
    · have : x ≠ -2 ^ 31 := fun least => other ⟨least, minus⟩
      omega
  · have half : x.natAbs / y.natAbs ≤ x.natAbs / 2 :=
      Nat.div_le_div_left (by omega) (by omega)
    omega

theorem tmod_fits {x y : Int} (low : -2 ^ 31 ≤ y) (high : y < 2 ^ 31) (nonzero : y ≠ 0) :
    (x.tmod y).natAbs < y.natAbs ∧ -2 ^ 31 ≤ x.tmod y ∧ x.tmod y < 2 ^ 31 := by
  have size : (x.tmod y).natAbs = x.natAbs % y.natAbs := Int.natAbs_tmod x y
  have small : x.natAbs % y.natAbs < y.natAbs := Nat.mod_lt _ (by omega)
  omega

/-- Signed division and remainder are those of C, the least integer included. -/
theorem division_helpers (a b : BitVec 32) (nonzero : b ≠ 0) :
    divsi3 a b = BitVec.ofInt 32 (a.toInt.tdiv b.toInt) ∧
      (¬(a = BitVec.intMin 32 ∧ b = -1) → (divsi3 a b).toInt = a.toInt.tdiv b.toInt) ∧
      (modsi3 a b).toInt = a.toInt.tmod b.toInt ∧
      a = divsi3 a b * b + modsi3 a b ∧
      (modsi3 a b).toInt.natAbs < b.toInt.natAbs ∧
      (0 ≤ a.toInt → 0 ≤ (modsi3 a b).toInt) ∧ (a.toInt ≤ 0 → (modsi3 a b).toInt ≤ 0) := by
  have divisor : b.toInt ≠ 0 := fun zero => nonzero (BitVec.toInt_inj.mp zero)
  have lowA : -2 ^ 31 ≤ a.toInt := BitVec.le_toInt a
  have highA : a.toInt < 2 ^ 31 := BitVec.toInt_lt
  have lowB : -2 ^ 31 ≤ b.toInt := BitVec.le_toInt b
  have highB : b.toInt < 2 ^ 31 := BitVec.toInt_lt
  obtain ⟨small, low, high⟩ := tmod_fits (x := a.toInt) lowB highB divisor
  have remainder : (modsi3 a b).toInt = a.toInt.tmod b.toInt := by
    rw [modsi3_eq a nonzero, toInt_word low high]
  refine ⟨divsi3_eq a b, ?_, remainder, ?_, ?_, ?_, ?_⟩
  · intro other
    have apart : ¬(a.toInt = -2 ^ 31 ∧ b.toInt = -1) := by
      rintro ⟨least, minus⟩
      exact other ⟨BitVec.toInt_inj.mp least, BitVec.toInt_inj.mp minus⟩
    obtain ⟨low, high⟩ := tdiv_fits lowA highA divisor apart
    rw [divsi3_eq, toInt_word low high]
  · calc a = BitVec.ofInt 32 a.toInt := BitVec.ofInt_toInt.symm
      _ = BitVec.ofInt 32 (a.toInt.tdiv b.toInt * b.toInt + a.toInt.tmod b.toInt) := by
          rw [Int.mul_comm, Int.mul_tdiv_add_tmod]
      _ = divsi3 a b * b + modsi3 a b := by
          rw [BitVec.ofInt_add, BitVec.ofInt_mul, BitVec.ofInt_toInt, divsi3_eq,
            modsi3_eq a nonzero]
  · rw [remainder]
    exact small
  · intro positive
    rw [remainder]
    exact Int.tmod_nonneg _ positive
  · intro negative
    rw [remainder]
    have opposite := Int.tmod_nonneg b.toInt (a := -a.toInt) (by omega)
    rw [Int.neg_tmod] at opposite
    omega

theorem division_helpers_least :
    divsi3 (BitVec.intMin 32) (-1) = BitVec.intMin 32 ∧
      (modsi3 (BitVec.intMin 32) (-1)).toInt.natAbs < (-1 : BitVec 32).toInt.natAbs := by
  obtain ⟨quotient, -, -, -, small, -⟩ := division_helpers (BitVec.intMin 32) (-1) (by decide)
  exact ⟨quotient.trans (by decide), small⟩

end SymphonyPlus
