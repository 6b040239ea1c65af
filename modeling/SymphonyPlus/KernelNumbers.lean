import SymphonyPlus.FormatNumbers

/-! The kernel's number printing: `kernel/vsprintf.c`. -/

namespace SymphonyPlus.Vsprintf

open Format (alphabet wrap Flags Field integerC89)

def spDoDiv (n base : BitVec 32) : BitVec 32 × BitVec 32 := (n.srem base, n.sdiv base)

structure Kind where
  zeropad : Bool
  sign : Bool
  plus : Bool
  space : Bool
  left : Bool
  special : Bool
  small : Bool

def digit (small : Bool) (index : Int) : Option (BitVec 8) :=
  if 0 ≤ index ∧ index < 36 then some (alphabet (!small) index.toNat) else none

def digitLoop (small : Bool) (base : BitVec 32) : Nat → BitVec 32 → Option (List (BitVec 8))
  | 0, num => if num = 0 then some [] else none
  | places + 1, num =>
      if num = 0 then some []
      else do
        let divided := spDoDiv num base
        let c ← digit small divided.1.toInt
        let rest ← digitLoop small base places divided.2
        return c :: rest

def fill (size : Int) (c : BitVec 8) : List (BitVec 8) × Int :=
  if 0 < size then (List.replicate size.toNat c, -1) else ([], wrap (size - 1))

/-- What the three padding loops write, when both flags are as `number` leaves them. -/
def gaps (zeropad left : Bool) (size : Int) : List (BitVec 8) × List (BitVec 8) × List (BitVec 8) :=
  let front := if zeropad || left then ([], size) else fill size 32#8
  let middle := if left then ([], front.2) else fill front.2 (if zeropad then 48#8 else 32#8)
  (front.1, middle.1, (fill middle.2 32#8).1)

inductive Outcome
  | outside
  | null
  | written (text : List (BitVec 8))

def number (num base : BitVec 32) (size precision : Int) (kind : Kind) : Outcome :=
  let zeropad := kind.zeropad && !kind.left
  if base.toInt < 2 ∨ 36 < base.toInt then .null
  else
    let negative : Bool := kind.sign ∧ num.toInt < 0
    let sign : List (BitVec 8) :=
      if negative then [45#8] else if kind.plus then [43#8] else if kind.space then [32#8] else []
    let num := if negative then 0 - num else num
    let special : List (BitVec 8) :=
      if kind.special then
        if base = 8 then [48#8] else if base = 16 then [48#8, alphabet (!kind.small) 33] else []
      else []
    match if num = 0 then some [48#8] else digitLoop kind.small base 36 num with
    | none => .outside
    | some tmp =>
        let precision := if tmp.length > precision then (tmp.length : Int) else precision
        let padding := gaps zeropad kind.left (wrap (size - sign.length - special.length - precision))
        .written (padding.1 ++ sign ++ special ++ padding.2.1 ++
          List.replicate (precision - tmp.length).toNat 48#8 ++ tmp.reverse ++ padding.2.2)

structure Call where
  num : BitVec 32
  base : BitVec 32
  size : Int
  precision : Int
  kind : Kind
  base_known : base = 8 ∨ base = 10 ∨ base = 16
  sign_decimal : kind.sign → base = 10
  small_hexadecimal : kind.small → base = 16
  size_int : -2147483648 ≤ size ∧ size ≤ 2147483647
  precision_int : -1 ≤ precision ∧ precision ≤ 2147483647

/-- The cases of `vsprintf` that print a number; a precision is absent or at least zero. -/
def vsprintfCall (c : BitVec 8) (flags : Flags) (fieldWidth : BitVec 32)
    (precision : Option (BitVec 32)) (v : BitVec 32) : Option Call :=
  let given : { p : Int // -1 ≤ p ∧ p ≤ 2147483647 } :=
    ⟨precision.elim (-1) fun p => max 0 p.toInt, by
      cases precision with
      | none => simp
      | some p =>
          have high := BitVec.toInt_lt (x := p)
          simp only [Option.elim_some]
          omega⟩
  have width : -2147483648 ≤ fieldWidth.toInt ∧ fieldWidth.toInt ≤ 2147483647 := by
    have low := BitVec.le_toInt fieldWidth
    have high := BitVec.toInt_lt (x := fieldWidth)
    omega
  let make (base : BitVec 32) (known : base = 8 ∨ base = 10 ∨ base = 16) (zeropad : Bool)
      (size : { s : Int // -2147483648 ≤ s ∧ s ≤ 2147483647 })
      (sign : { s : Bool // s → base = 10 }) (small : { s : Bool // s → base = 16 }) : Call :=
    ⟨v, base, size, given, ⟨zeropad, sign, flags.plus, flags.space, flags.left, flags.alternate, small⟩,
      known, sign.2, small.2, size.2, given.2⟩
  if c = 111#8 then some (make 8 (.inl rfl) flags.zero ⟨_, width⟩ ⟨false, nofun⟩ ⟨false, nofun⟩)
  else if c = 112#8 then
    if fieldWidth.toInt = -1 then
      some (make 16 (.inr (.inr rfl)) true ⟨8, by omega⟩ ⟨false, nofun⟩ ⟨false, nofun⟩)
    else some (make 16 (.inr (.inr rfl)) flags.zero ⟨_, width⟩ ⟨false, nofun⟩ ⟨false, nofun⟩)
  else if c = 120#8 then
    some (make 16 (.inr (.inr rfl)) flags.zero ⟨_, width⟩ ⟨false, nofun⟩ ⟨true, fun _ => rfl⟩)
  else if c = 88#8 then
    some (make 16 (.inr (.inr rfl)) flags.zero ⟨_, width⟩ ⟨false, nofun⟩ ⟨false, nofun⟩)
  else if c = 100#8 ∨ c = 105#8 then
    some (make 10 (.inr (.inl rfl)) flags.zero ⟨_, width⟩ ⟨true, fun _ => rfl⟩ ⟨false, nofun⟩)
  else if c = 117#8 then
    some (make 10 (.inr (.inl rfl)) flags.zero ⟨_, width⟩ ⟨false, nofun⟩ ⟨false, nofun⟩)
  else none

def Call.run (call : Call) : Outcome :=
  number call.num call.base call.size call.precision call.kind

def Call.negative (call : Call) : Bool := call.kind.sign ∧ call.num.toInt < 0

def Call.start (call : Call) : BitVec 32 := if call.negative then 0 - call.num else call.num

def dividends (base : BitVec 32) : Nat → BitVec 32 → List (BitVec 32)
  | 0, _ => []
  | rounds + 1, num => if num = 0 then [] else num :: dividends base rounds (spDoDiv num base).2

/-! The division. -/

theorem base_bounds (call : Call) : 2 ≤ call.base.toNat ∧ call.base.toNat ≤ 16 ∧
    call.base.toInt = call.base.toNat := by
  rcases call.base_known with same | same | same <;> rw [same] <;> decide

theorem spDoDiv_unsigned {n base : BitVec 32} (small : n.toNat < 2 ^ 31) (small' : base.toNat < 2 ^ 31) :
    spDoDiv n base = (n % base, n / base) := by
  have positive : n.msb = false := BitVec.msb_eq_false_iff_two_mul_lt.mpr (by omega)
  have positive' : base.msb = false := BitVec.msb_eq_false_iff_two_mul_lt.mpr (by omega)
  simp [spDoDiv, BitVec.srem_eq, BitVec.sdiv_eq, positive, positive']

theorem spDoDiv_toInt (n : BitVec 32) (call : Call) :
    (spDoDiv n call.base).1.toInt = n.toInt.tmod call.base.toNat ∧
    (spDoDiv n call.base).2.toInt = n.toInt.tdiv call.base.toNat := by
  obtain ⟨two, sixteen, signed⟩ := base_bounds call
  refine ⟨?_, ?_⟩
  · rw [spDoDiv, BitVec.toInt_srem, signed]
  · rw [spDoDiv, BitVec.toInt_sdiv_of_ne_or_ne, signed]
    right
    intro same
    rw [same] at signed sixteen
    exact absurd sixteen (by decide)

/-- A negative value never becomes zero, and its last remainder before that is negative. -/
theorem digitLoop_negative (call : Call) (small : Bool) (places : Nat) : ∀ num : BitVec 32,
    num.toInt < 0 → digitLoop small call.base places num = none := by
  have bounds := base_bounds call
  induction places with
  | zero =>
      intro num negative
      rw [digitLoop, if_neg]
      rintro rfl
      simp at negative
  | succ places ih =>
      intro num negative
      have some_ : num ≠ 0 := by
        rintro rfl
        simp at negative
      obtain ⟨remainder, quotient⟩ := spDoDiv_toInt num call
      have whole := Int.tmod_add_mul_tdiv num.toInt call.base.toNat
      have sign : num.toInt.tmod call.base.toNat ≤ 0 := by
        have positive := Int.tmod_nonneg (call.base.toNat : Int) (by omega : 0 ≤ -num.toInt)
        rw [Int.neg_tmod] at positive
        omega
      simp only [digitLoop, if_neg some_]
      by_cases last : num.toInt.tmod call.base.toNat < 0
      · have gone : digit small (spDoDiv num call.base).1.toInt = none := by
          rw [remainder, digit, if_neg (by omega)]
        simp [gone]
      · have smaller : (spDoDiv num call.base).2.toInt < 0 := by
          rw [quotient]
          have exact_ : (call.base.toNat : Int) * num.toInt.tdiv call.base.toNat < 0 := by omega
          exact neg_of_mul_neg_right exact_ (by omega)
        simp [ih _ smaller]

theorem digitLoop_small (call : Call) (small : Bool) (places : Nat) : ∀ num : BitVec 32, num ≠ 0 →
    num.toNat < 2 ^ 31 → num.toNat < call.base.toNat ^ places →
    digitLoop small call.base places num =
      some (Format.digitLoop (!small) call.base.toNat places num.toNat) := by
  obtain ⟨two, sixteen, signed⟩ := base_bounds call
  induction places with
  | zero =>
      intro num some_ _ fits
      rw [Nat.pow_zero] at fits
      exact absurd (BitVec.eq_of_toNat_eq (by simpa using fits)) some_
  | succ places ih =>
      intro num some_ below fits
      have divided := @spDoDiv_unsigned num call.base below (by omega)
      have remainder : (num % call.base).toInt = (num.toNat % call.base.toNat : Nat) := by
        have less := Nat.mod_lt num.toNat (by omega : 0 < call.base.toNat)
        rw [BitVec.toInt_eq_toNat_of_lt, BitVec.toNat_umod]
        rw [BitVec.toNat_umod]
        omega
      have quotient : (num / call.base).toNat = num.toNat / call.base.toNat := BitVec.toNat_udiv
      have less := Nat.mod_lt num.toNat (by omega : 0 < call.base.toNat)
      have taken : digit small (num % call.base).toInt =
          some (alphabet (!small) (num.toNat % call.base.toNat)) := by
        rw [remainder, digit, if_pos (by omega), Int.toNat_natCast]
      simp only [digitLoop, if_neg some_, divided, taken, Option.bind_eq_bind, Option.bind_some,
        Format.digitLoop]
      by_cases last : num / call.base = 0
      · have none_ : num.toNat / call.base.toNat = 0 := by
          rw [← quotient, last]
          simp
        rw [if_pos none_, last]
        cases places <;> simp [digitLoop]
      · have more : num.toNat / call.base.toNat ≠ 0 := by
          rw [← quotient]
          intro zero
          exact last (BitVec.eq_of_toNat_eq (by simpa using zero))
        have shrinks : num.toNat / call.base.toNat < call.base.toNat ^ places := by
          rw [Nat.div_lt_iff_lt_mul (by omega)]
          rwa [Nat.pow_succ] at fits
        have smaller : num.toNat / call.base.toNat ≤ num.toNat := Nat.div_le_self _ _
        rw [ih _ last (by omega) (by omega), if_neg more, quotient]
        rfl

/-- Every round at least halves the number. -/
theorem dividends_length (call : Call) (rounds : Nat) : ∀ (bits : Nat) (num : BitVec 32),
    num.toInt.natAbs < 2 ^ bits → (dividends call.base rounds num).length ≤ bits := by
  obtain ⟨two, sixteen, signed⟩ := base_bounds call
  induction rounds with
  | zero => simp [dividends]
  | succ rounds ih =>
      intro bits num fits
      rw [dividends]
      split
      · simp
      · rename_i some_
        cases bits with
        | zero =>
            have zero : num.toInt = 0 := by omega
            exact absurd (BitVec.eq_of_toInt_eq (by simpa using zero)) some_
        | succ bits =>
            rw [List.length_cons]
            apply Nat.succ_le_succ
            apply ih
            rw [(spDoDiv_toInt num call).2, Int.natAbs_tdiv, Int.natAbs_natCast]
            apply (Nat.div_lt_iff_lt_mul (by omega)).mpr
            rw [Nat.pow_succ] at fits
            exact lt_of_lt_of_le fits (Nat.mul_le_mul_left _ two)

theorem dividends_small (call : Call) (rounds : Nat) : ∀ num : BitVec 32, num.toNat < 2 ^ 31 →
    ∀ n ∈ dividends call.base rounds num, n.toNat < 2 ^ 31 := by
  obtain ⟨two, sixteen, signed⟩ := base_bounds call
  induction rounds with
  | zero => simp [dividends]
  | succ rounds ih =>
      intro num below n inside
      rw [dividends] at inside
      split at inside
      · simp at inside
      · have smaller : (spDoDiv num call.base).2.toNat < 2 ^ 31 := by
          have less : num.toNat / call.base.toNat ≤ num.toNat := Nat.div_le_self _ _
          rw [spDoDiv_unsigned below (by omega), BitVec.toNat_udiv]
          omega
        rcases List.mem_cons.mp inside with rfl | later
        · exact below
        · exact ih _ smaller n later

/-! The padding loops. -/

/-- How often the padding loops can step below the size without a wrap. -/
def Kind.steps (kind : Kind) : Int := if kind.left then 0 else if kind.zeropad then 1 else 2

/-- What a field looks like when nothing wraps. -/
def arrange (left zeros : Bool) (pad : Nat) (front digits : List (BitVec 8)) : List (BitVec 8) :=
  if left then front ++ digits ++ List.replicate pad 32#8
  else if zeros then front ++ List.replicate pad 48#8 ++ digits
  else List.replicate pad 32#8 ++ front ++ digits

theorem wrap_low {value : Int} (low : -4294967296 < value) (high : value < -2147483648) :
    wrap value = value + 4294967296 := by
  simp only [wrap, Int.bmod]
  omega

theorem wrap_lowest {value : Int} (low : -6442450944 ≤ value) (high : value ≤ -4294967296) :
    wrap value = value + 4294967296 := by
  simp only [wrap, Int.bmod]
  omega

theorem fill_written (size : Int) (c : BitVec 8) : (fill size c).1 = List.replicate size.toNat c := by
  simp only [fill]
  split
  · rfl
  · rw [Int.toNat_of_nonpos (by omega), List.replicate_zero]

theorem fill_left {size : Int} (c : BitVec 8) (low : -2147483648 < size) (high : size ≤ 2147483647) :
    (fill size c).2 = min (size - 1) (-1) := by
  simp only [fill]
  split
  · simp only
    omega
  · rw [Format.wrap_same (by omega) (by omega)]
    omega

theorem fill_wraps (c : BitVec 8) : (fill (-2147483648) c).2 = 2147483647 := by
  have lowest : wrap (-2147483648 - 1) = -2147483648 - 1 + 4294967296 :=
    wrap_low (by omega) (by omega)
  rw [fill, if_neg (by omega), lowest]
  omega

theorem fill_long {size : Int} (c : BitVec 8) (some_ : 0 < size) : 0 < (fill size c).1.length := by
  rw [fill_written, List.length_replicate]
  omega

/-- As long as no loop steps below the least `int`, one of them writes all the padding. -/
theorem gaps_fit (kind : Kind) {size : Int} (low : -2147483648 + kind.steps ≤ size)
    (high : size ≤ 2147483647) (front digits : List (BitVec 8)) :
    let padding := gaps (kind.zeropad && !kind.left) kind.left size
    padding.1 ++ front ++ padding.2.1 ++ digits ++ padding.2.2 =
      arrange kind.left kind.zeropad size.toNat front digits := by
  have nothing {rest : Int} (c : BitVec 8) (none_ : rest ≤ -1) : List.replicate rest.toNat c = [] := by
    rw [Int.toNat_of_nonpos (by omega), List.replicate_zero]
  simp only [Kind.steps] at low
  cases left : kind.left with
  | true => simp [gaps, arrange, fill_written]
  | false =>
      rw [left] at low
      cases zero : kind.zeropad with
      | true =>
          rw [zero] at low
          simp only [Bool.false_eq_true, if_false, if_true] at low
          have after := fill_left 48#8 (by omega : -2147483648 < size) high
          have none_ : (fill size 48#8).2 ≤ -1 := by omega
          simp [gaps, arrange, fill_written, nothing _ none_]
      | false =>
          rw [zero] at low
          simp only [Bool.false_eq_true, if_false] at low
          have after := fill_left 32#8 (by omega : -2147483648 < size) high
          have again := fill_left 32#8 (by omega : -2147483648 < (fill size 32#8).2) (by omega)
          have none_ : (fill size 32#8).2 ≤ -1 := by omega
          have none' : (fill (fill size 32#8).2 32#8).2 ≤ -1 := by omega
          simp [gaps, arrange, fill_written, nothing _ none_, nothing _ none']

/-- Otherwise the last loop writes nearly as many characters as there are. -/
theorem gaps_overflow (kind : Kind) {size : Int} (int : -2147483648 ≤ size)
    (low : size < -2147483648 + kind.steps) :
    let padding := gaps (kind.zeropad && !kind.left) kind.left size
    0 < padding.1.length + padding.2.1.length + padding.2.2.length := by
  have wraps (c : BitVec 8) : 0 < (fill (-2147483648) c).2 := by
    rw [fill_wraps]
    omega
  simp only [Kind.steps] at low
  cases left : kind.left with
  | true =>
      rw [left] at low
      simp only [if_true] at low
      omega
  | false =>
      rw [left] at low
      cases zero : kind.zeropad with
      | true =>
          rw [zero] at low
          simp only [Bool.false_eq_true, if_false, if_true] at low
          obtain rfl : size = -2147483648 := by omega
          have long := fill_long 32#8 (wraps 48#8)
          simp only [gaps, Bool.not_false, Bool.and_true, Bool.or_false, if_true, Bool.false_eq_true,
            if_false]
          omega
      | false =>
          rw [zero] at low
          simp only [Bool.false_eq_true, if_false] at low
          simp only [gaps, Bool.not_false, Bool.and_true, Bool.or_false, Bool.false_eq_true, if_false]
          rcases Int.lt_or_le (-2147483648) size with above | below
          · have after := fill_left 32#8 above (by omega)
            have lowest : (fill size 32#8).2 = -2147483648 := by omega
            have long := fill_long 32#8 (wraps 32#8)
            rw [lowest]
            omega
          · obtain rfl : size = -2147483648 := by omega
            have long := fill_long 32#8 (wraps 32#8)
            omega

/-! The pieces of a number. -/

def Call.sign (call : Call) : List (BitVec 8) :=
  if call.negative then [45#8]
  else if call.kind.plus then [43#8] else if call.kind.space then [32#8] else []

def Call.special (call : Call) : List (BitVec 8) :=
  if call.kind.special then
    if call.base = 8 then [48#8]
    else if call.base = 16 then [48#8, alphabet (!call.kind.small) 33] else []
  else []

def Call.written (call : Call) : List (BitVec 8) :=
  Format.digitLoop (!call.kind.small) call.base.toNat 33 call.start.toNat

def Call.precise (call : Call) : List (BitVec 8) :=
  List.replicate (call.precision - call.written.length).toNat 48#8 ++ call.written.reverse

theorem start_zero (call : Call) : call.start = 0 ↔ call.num = 0 := by
  simp only [Call.start]
  split
  · simp
  · exact Iff.rfl

theorem alphabet_decimal {value : Nat} (upper other : Bool) (decimal : value < 10) :
    alphabet upper value = alphabet other value := by
  simp [alphabet, decimal]

theorem digitLoop_places {base : Nat} (upper : Bool) (two : 2 ≤ base) (v : BitVec 32) :
    Format.digitLoop upper base 36 v.toNat = Format.digitLoop upper base 33 v.toNat := by
  have fits {places : Nat} (many : 32 ≤ places) : v.toNat < base ^ places :=
    lt_of_lt_of_le v.isLt ((Nat.pow_le_pow_right (by omega) many).trans (Nat.pow_le_pow_left two _))
  rcases Nat.eq_zero_or_pos v.toNat with zero | some_
  · simp [zero, Format.digitLoop]
  · rw [Format.digitLoop_digits upper two 36 _ some_ (fits (by omega)),
      Format.digitLoop_digits upper two 33 _ some_ (fits (by omega))]

theorem tmp_written (call : Call) (below : call.start.toNat < 2 ^ 31) :
    (if call.start = 0 then some [48#8] else digitLoop call.kind.small call.base 36 call.start) =
      some call.written := by
  obtain ⟨two, sixteen, signed⟩ := base_bounds call
  rw [Call.written]
  split
  · rename_i zero
    simp [zero, Format.digitLoop, alphabet]
  · rename_i some_
    have fits : call.start.toNat < call.base.toNat ^ 36 :=
      lt_of_lt_of_le below ((Nat.pow_le_pow_right (by omega) (by omega : 31 ≤ 36)).trans
        (Nat.pow_le_pow_left two _))
    rw [digitLoop_small call _ 36 _ some_ below fits, digitLoop_places _ two]

theorem number_written (call : Call) (below : call.start.toNat < 2 ^ 31) :
    call.run = .written (
      let size := wrap (call.size - call.sign.length - call.special.length - call.precise.length)
      let padding := gaps (call.kind.zeropad && !call.kind.left) call.kind.left size
      padding.1 ++ (call.sign ++ call.special) ++ padding.2.1 ++ call.precise ++ padding.2.2) := by
  obtain ⟨two, sixteen, signed⟩ := base_bounds call
  have tmp := tmp_written call below
  have long : (call.precise.length : Int) =
      if call.written.length > call.precision then (call.written.length : Int) else call.precision := by
    simp only [Call.precise, List.length_append, List.length_replicate, List.length_reverse]
    split <;> omega
  have zeros : (if call.written.length > call.precision then (call.written.length : Int)
      else call.precision) - call.written.length = (call.precision - call.written.length).toNat := by
    split <;> omega
  rw [Call.run, number, if_neg (by omega)]
  change (match if call.start = 0 then some [48#8]
    else digitLoop call.kind.small call.base 36 call.start with | none => _ | some tmp => _) = _
  rw [tmp]
  simp only [zeros, Int.toNat_natCast]
  simp only [← long, Call.precise, List.append_assoc]
  rfl

theorem number_outside (call : Call) (above : 2 ^ 31 ≤ call.start.toNat) : call.run = .outside := by
  have negative : call.start.toInt < 0 := by
    have size := call.start.isLt
    rw [BitVec.toInt_eq_toNat_cond, if_neg (by omega)]
    omega
  have some_ : call.start ≠ 0 := by
    intro zero
    rw [zero] at above
    simp at above
  have stuck := digitLoop_negative call call.kind.small 36 call.start negative
  obtain ⟨two, sixteen, signed⟩ := base_bounds call
  rw [Call.run, number, if_neg (by omega)]
  change (match if call.start = 0 then some [48#8]
    else digitLoop call.kind.small call.base 36 call.start with | none => _ | some tmp => _) = _
  rw [if_neg some_, stuck]

end SymphonyPlus.Vsprintf
