import Mathlib.Tactic.Ring
import SymphonyPlus.Kernel

/-! The tick clock: nanoseconds counted in words become ticks, and none is lost. -/

namespace SymphonyPlus

/-! One bit of the long division, and all of them. -/

theorem tickLength_toNat : tickLength.toNat = 10000000 := by
  simp [tickLength]

theorem wordBit_toNat (word : BitVec 32) (bit : Nat) :
    ((word >>> bit) &&& 1).toNat = word.toNat / 2 ^ bit % 2 := by
  simp [Nat.shiftRight_eq_div_pow]

theorem shifted_toNat (ticks : BitVec 32) : (ticks <<< 1).toNat = ticks.toNat * 2 % 2 ^ 32 := by
  simp [Nat.shiftLeft_eq]

theorem shifted_or_one_toNat (ticks : BitVec 32) :
    (ticks <<< 1 ||| 1).toNat = (ticks.toNat * 2 + 1) % 2 ^ 32 := by
  have half : ticks.toNat * 2 % 2 ^ 32 = 2 ^ 1 * (ticks.toNat % 2 ^ 31) := by omega
  have low : (1 : BitVec 32).toNat = 1 := by simp
  rw [BitVec.toNat_or, shifted_toNat, low, half, ← Nat.two_pow_add_eq_or_of_lt (by omega)]
  omega

theorem doubled_toNat (word : BitVec 32) (remainder : BitVec 32) (bit : Nat)
    (below : remainder.toNat < 10000000) :
    (remainder * 2 + ((word >>> bit) &&& 1)).toNat =
      remainder.toNat * 2 + word.toNat / 2 ^ bit % 2 := by
  have two : (2 : BitVec 32).toNat = 2 := by simp
  rw [BitVec.toNat_add, BitVec.toNat_mul, wordBit_toNat, two]
  omega

theorem divideStep_spec (word : BitVec 32) (state : BitVec 32 × BitVec 32) (bit : Nat)
    (below : state.2.toNat < 10000000) :
    let taken := state.2.toNat * 2 + word.toNat / 2 ^ bit % 2
    (divideStep word state bit).1.toNat = (state.1.toNat * 2 + taken / 10000000) % 2 ^ 32 ∧
      (divideStep word state bit).2.toNat = taken % 10000000 := by
  intro taken
  have low : taken < 20000000 := by omega
  have exact_ := doubled_toNat word state.2 bit below
  change _ = taken at exact_
  simp only [divideStep, BitVec.ule_eq_decide, exact_, tickLength_toNat, decide_eq_true_eq]
  split
  · constructor
    · rw [shifted_or_one_toNat]
      omega
    · rw [BitVec.toNat_sub, exact_, tickLength_toNat]
      omega
  · constructor
    · rw [shifted_toNat]
      omega
    · rw [exact_]
      omega

/-- One more digit before the others, in a division of words. -/
theorem divide_digit (quotient taken rest count : Nat) :
    ((quotient * 2 + taken / 10000000) % 2 ^ 32 * 2 ^ count +
        (taken % 10000000 * 2 ^ count + rest) / 10000000) % 2 ^ 32 =
      (quotient * 2 ^ (count + 1) + (taken * 2 ^ count + rest) / 10000000) % 2 ^ 32 ∧
    (taken % 10000000 * 2 ^ count + rest) % 10000000 = (taken * 2 ^ count + rest) % 10000000 := by
  have whole : taken * 2 ^ count + rest =
      10000000 * (taken / 10000000 * 2 ^ count) + (taken % 10000000 * 2 ^ count + rest) := by
    conv_lhs => rw [← Nat.div_add_mod taken 10000000]
    ring
  constructor
  · rw [whole, Nat.mul_add_div (by omega), ← Nat.add_assoc, Nat.add_mod, Nat.mod_mul_mod,
      ← Nat.add_mod]
    congr 2
    ring
  · rw [whole, Nat.mul_add_mod]

/-- The loop over the low bits of a word, after some higher digits. -/
theorem divide_loop (word : BitVec 32) (count : Nat) : ∀ state : BitVec 32 × BitVec 32,
    state.2.toNat < 10000000 →
    let taken := state.2.toNat * 2 ^ count + word.toNat % 2 ^ count
    let divided := (List.range count).reverse.foldl (divideStep word) state
    divided.1.toNat = (state.1.toNat * 2 ^ count + taken / 10000000) % 2 ^ 32 ∧
      divided.2.toNat = taken % 10000000 := by
  induction count with
  | zero =>
      intro state below
      have fits := state.1.isLt
      simp only [List.range_zero, List.reverse_nil, List.foldl_nil, Nat.pow_zero, Nat.mod_one]
      omega
  | succ count ih =>
      intro state below taken divided
      obtain ⟨quotient, remainder⟩ := divideStep_spec word state count below
      have later := ih (divideStep word state count) (by omega)
      have unrolled : divided =
          (List.range count).reverse.foldl (divideStep word) (divideStep word state count) := by
        simp [divided, List.range_succ]
      have bits : word.toNat % 2 ^ (count + 1) =
          word.toNat % 2 ^ count + 2 ^ count * (word.toNat / 2 ^ count % 2) := by
        rw [Nat.pow_succ, Nat.mod_mul]
      have regrouped : taken = (state.2.toNat * 2 + word.toNat / 2 ^ count % 2) * 2 ^ count +
          word.toNat % 2 ^ count := by
        simp only [taken, bits]
        ring
      rw [← unrolled, quotient, remainder] at later
      obtain ⟨quotients, remainders⟩ := later
      obtain ⟨carried, left⟩ := divide_digit state.1.toNat
        (state.2.toNat * 2 + word.toNat / 2 ^ count % 2) (word.toNat % 2 ^ count) count
      constructor
      · rw [quotients, carried, regrouped]
      · rw [remainders, left, regrouped]

/-! The clock is read as two words, the low one first. -/

abbrev Reading := BitVec 32 × BitVec 32

def Reading.time (r : Reading) : Nat := r.2.toNat * 2 ^ 32 + r.1.toNat

/-- The nanoseconds from one reading to the next, over which the clock may have wrapped. -/
def elapsed (old new : Reading) : Nat := (new.time + 2 ^ 64 - old.time) % 2 ^ 64

theorem elapsed_words (old new : Reading) :
    elapsed old new = (new.2 - old.2 - (if new.1.ult old.1 then 1 else 0)).toNat * 2 ^ 32 +
      (new.1 - old.1).toNat := by
  have lowOld := old.1.isLt
  have highOld := old.2.isLt
  have lowNew := new.1.isLt
  have highNew := new.2.isLt
  simp only [elapsed, Reading.time, BitVec.ult, decide_eq_true_eq, BitVec.toNat_sub]
  split <;> simp <;> omega

/-- The loop over a whole word, from no ticks. -/
theorem divide_word (word remainder : BitVec 32) (below : remainder.toNat < 10000000) :
    let taken := remainder.toNat * 2 ^ 32 + word.toNat
    let divided := (List.range 32).reverse.foldl (divideStep word) (0, remainder)
    divided.1.toNat = taken / 10000000 % 2 ^ 32 ∧ divided.2.toNat = taken % 10000000 := by
  intro taken divided
  have looped := divide_loop word 32 (0, remainder) below
  have zero : (0 : BitVec 32).toNat = 0 := by simp
  simpa only [zero, Nat.zero_mul, Nat.zero_add, Nat.mod_eq_of_lt word.isLt] using looped

/-- What both ways to divide leave: the quotient and the remainder of the two words. -/
theorem divided_exact (hi lo : BitVec 32) (near : (hi.toNat * 2 ^ 32 + lo.toNat) / 10000000 < 2 ^ 32 - 1) :
    let divided := if hi = 0 then (lo / tickLength, lo % tickLength) else
      (List.range 32).reverse.foldl (divideStep lo)
        (0, ((List.range 32).reverse.foldl (divideStep hi) (0, 0)).2)
    divided.1.toNat = (hi.toNat * 2 ^ 32 + lo.toNat) / 10000000 ∧
      divided.2.toNat = (hi.toNat * 2 ^ 32 + lo.toNat) % 10000000 := by
  intro divided
  by_cases whole : hi = 0
  · have quotient : divided = (lo / tickLength, lo % tickLength) := if_pos whole
    simp [quotient, whole, BitVec.toNat_udiv, BitVec.toNat_umod, tickLength_toNat]
  · have zero : (0 : BitVec 32).toNat = 0 := by simp
    have upper := (divide_word hi 0 (by omega)).2
    have small : hi.toNat < 10000000 := by omega
    rw [zero, Nat.zero_mul, Nat.zero_add, Nat.mod_eq_of_lt small] at upper
    have looped : divided = (List.range 32).reverse.foldl (divideStep lo)
        (0, ((List.range 32).reverse.foldl (divideStep hi) (0, 0)).2) := if_neg whole
    obtain ⟨ticks, left⟩ := divide_word lo ((List.range 32).reverse.foldl (divideStep hi) (0, 0)).2
      (by omega)
    rw [← looped, upper] at ticks left
    constructor
    · rw [ticks]
      omega
    · exact left

/-- The end of a poll: what the last one saved may make one more tick. -/
theorem carry_exact (ticks left saved : BitVec 32) (few : ticks.toNat < 2 ^ 32 - 1)
    (small : left.toNat < 10000000) (below : saved.toNat < 10000000) :
    let carried := if tickLength.ule (left + saved) then (ticks + 1, left + saved - tickLength)
      else (ticks, left + saved)
    carried.1.toNat * 10000000 + carried.2.toNat =
        ticks.toNat * 10000000 + left.toNat + saved.toNat ∧
      carried.2.toNat < 10000000 := by
  intro carried
  have sum : (left + saved).toNat = left.toNat + saved.toNat := by
    rw [BitVec.toNat_add]
    omega
  have one : (1 : BitVec 32).toNat = 1 := by simp
  by_cases enough : tickLength.ule (left + saved) = true
  · have taken : carried = (ticks + 1, left + saved - tickLength) := if_pos enough
    rw [BitVec.ule_eq_decide, sum, tickLength_toNat, decide_eq_true_eq] at enough
    rw [taken, BitVec.toNat_sub, BitVec.toNat_add, sum, one, tickLength_toNat]
    omega
  · have kept : carried = (ticks, left + saved) := if_neg enough
    rw [BitVec.ule_eq_decide, sum, tickLength_toNat, decide_eq_true_eq] at enough
    simp only [kept, sum]
    omega

theorem tickElapsed_exact (old new : Reading) (saved : BitVec 32) (below : saved.toNat < 10000000)
    (near : elapsed old new / 10000000 < 2 ^ 32 - 1) :
    let polled := tickElapsed old.1 old.2 new.1 new.2 saved
    polled.1.toNat * 10000000 + polled.2.toNat = saved.toNat + elapsed old new ∧
      polled.2.toNat < 10000000 := by
  intro polled
  rw [elapsed_words] at near ⊢
  obtain ⟨ticks, left⟩ := divided_exact _ _ near
  obtain ⟨total, small⟩ := carry_exact _ _ saved (by rw [ticks]; exact near) (by rw [left]; omega) below
  rw [ticks, left] at total
  have shape : polled = if tickLength.ule _ then _ else _ := rfl
  rw [← shape] at total small
  constructor
  · omega
  · exact small

/-! Runs of polls. -/

/-- The ticks each poll returns, and the remainder the last one saves. -/
def tickRun : Reading → BitVec 32 → List Reading → List (BitVec 32) × BitVec 32
  | _, saved, [] => ([], saved)
  | old, saved, new :: later =>
      let polled := tickElapsed old.1 old.2 new.1 new.2 saved
      let rest := tickRun new polled.2 later
      (polled.1 :: rest.1, rest.2)

def totalElapsed : Reading → List Reading → Nat
  | _, [] => 0
  | old, new :: later => elapsed old new + totalElapsed new later

/-- Each poll comes before the ticks since the last one fill a word. -/
def SteadyPolls : Reading → List Reading → Prop
  | _, [] => True
  | old, new :: later => elapsed old new / 10000000 < 2 ^ 32 - 1 ∧ SteadyPolls new later

def ticks (start : Reading) (saved : BitVec 32) (polls : List Reading) : Nat :=
  ((tickRun start saved polls).1.map BitVec.toNat).sum

theorem tickRun_exact (polls : List Reading) : ∀ (start : Reading) (saved : BitVec 32),
    saved.toNat < 10000000 → SteadyPolls start polls →
    ticks start saved polls * 10000000 + (tickRun start saved polls).2.toNat =
        saved.toNat + totalElapsed start polls ∧
      (tickRun start saved polls).2.toNat < 10000000 := by
  induction polls with
  | nil =>
      intro start saved below _
      simp only [ticks, tickRun, totalElapsed, List.map_nil, List.sum_nil]
      omega
  | cons new later ih =>
      intro start saved below steady
      obtain ⟨total, small⟩ := tickElapsed_exact start new saved below steady.1
      obtain ⟨rest, left⟩ := ih new _ small steady.2
      refine ⟨?_, left⟩
      simp only [ticks, tickRun, totalElapsed, List.map_cons, List.sum_cons] at rest total ⊢
      rw [Nat.add_mul, Nat.add_assoc, rest, ← Nat.add_assoc, total, Nat.add_assoc]

theorem elapsed_self (start : Reading) : elapsed start start = 0 := by
  simp [elapsed]

theorem elapsed_trans (first second third : Reading) :
    (elapsed first second + elapsed second third) % 2 ^ 64 = elapsed first third := by
  have one := first.1.isLt
  have two := first.2.isLt
  have three := second.1.isLt
  have four := second.2.isLt
  simp only [elapsed, Reading.time]
  omega

/-- Modulo the size of the clock the polls add up to the time between the first and the last. -/
theorem totalElapsed_mod (polls : List Reading) : ∀ start : Reading,
    totalElapsed start polls % 2 ^ 64 = elapsed start (polls.getLastD start) := by
  induction polls with
  | nil =>
      intro start
      simp [totalElapsed, elapsed_self]
  | cons new later ih =>
      intro start
      rw [totalElapsed, ← Nat.add_mod_mod, ih, List.getLastD_cons, elapsed_trans]

theorem ticks_exact (start : Reading) (saved : BitVec 32) (polls : List Reading)
    (below : saved.toNat < 10000000) (steady : SteadyPolls start polls) :
    ticks start saved polls * 10000000 + (tickRun start saved polls).2.toNat =
        saved.toNat + totalElapsed start polls ∧
      (tickRun start saved polls).2.toNat < 10000000 ∧
      (totalElapsed start polls < 2 ^ 64 →
        totalElapsed start polls = elapsed start (polls.getLastD start)) ∧
      ∀ others, SteadyPolls start others → totalElapsed start others = totalElapsed start polls →
        ticks start saved others = ticks start saved polls ∧
          (tickRun start saved others).2 = (tickRun start saved polls).2 := by
  obtain ⟨total, small⟩ := tickRun_exact polls start saved below steady
  refine ⟨total, small, ?_, ?_⟩
  · intro short
    rw [← totalElapsed_mod, Nat.mod_eq_of_lt short]
  · intro others steadyOthers same
    obtain ⟨totalOthers, smallOthers⟩ := tickRun_exact others start saved below steadyOthers
    constructor
    · omega
    · apply BitVec.eq_of_toNat_eq
      omega

/-- Two polls around the wrap of the low word. -/
theorem ticks_around_wrap :
    ticks (0xfffffff0, 7) 9999999 [(0x20, 8), (0x20, 10)] * 10000000 +
        (tickRun (0xfffffff0, 7) 9999999 [(0x20, 8), (0x20, 10)]).2.toNat =
      9999999 + totalElapsed (0xfffffff0, 7) [(0x20, 8), (0x20, 10)] :=
  (ticks_exact (0xfffffff0, 7) 9999999 [(0x20, 8), (0x20, 10)] (by simp)
    (by simp [SteadyPolls, elapsed, Reading.time])).1

/-- The kernel's own clock adds the ticks of its polls to `jiffies`. -/
theorem poll_ticks (polls : List Reading) : ∀ clock : Clock, clock.ready = true →
    let last := polls.foldl (fun clock new => clock.poll new.1 new.2) clock
    last.jiffies = clock.jiffies + (tickRun (clock.lastLow, clock.lastHigh) clock.remainder polls).1.sum ∧
      last.remainder = (tickRun (clock.lastLow, clock.lastHigh) clock.remainder polls).2 := by
  induction polls with
  | nil =>
      intro clock _
      simp [tickRun]
  | cons new later ih =>
      intro clock ready
      obtain ⟨counted, left⟩ := ih (clock.poll new.1 new.2) rfl
      simp only [Clock.poll, ready, if_true] at counted left
      simp only [List.foldl_cons, tickRun, List.sum_cons, Clock.poll, ready, if_true]
      refine ⟨?_, left⟩
      rw [counted, BitVec.add_assoc]

end SymphonyPlus
