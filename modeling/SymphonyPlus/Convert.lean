import Mathlib.Data.BitVec
import Mathlib.Data.Nat.Digits.Defs
import Mathlib.Tactic.Ring

/-! Numbers read from text: `number` of `user/native/convert.c`. -/

namespace SymphonyPlus.Convert

/-! The character classes of `user/native/string.c`. -/

def isspace (c : Int) : Bool := c == 32 || (9 ≤ c && c ≤ 13)

def isdigit (c : Int) : Bool := 48 ≤ c && c ≤ 57

def isalpha (c : Int) : Bool := (97 ≤ c && c ≤ 122) || (65 ≤ c && c ≤ 90)

def isxdigit (c : Int) : Bool := isdigit c || (97 ≤ c && c ≤ 102) || (65 ≤ c && c ≤ 70)

def tolower (c : Int) : Int := if 65 ≤ c && c ≤ 90 then c + 32 else c

/-- What `number` takes a character for; 99 ends every number. -/
def digit (c : BitVec 8) : Int :=
  if isdigit c.toInt then c.toInt - 48
  else if isalpha c.toInt then tolower c.toInt - 97 + 10 else 99

inductive Errno
  | einval
  | erange
  deriving DecidableEq, Repr

structure Accumulated where
  value : BitVec 32
  any : Bool
  overflow : Bool

def takeDigit (base : Int) (limit : BitVec 32) (read : Accumulated) (digit : Int) : Accumulated :=
  if read.value > (limit - BitVec.ofInt 32 digit) / BitVec.ofInt 32 base then
    { read with any := true, overflow := true }
  else if read.overflow then { read with any := true }
  else { read with
    any := true, value := read.value * BitVec.ofInt 32 base + BitVec.ofInt 32 digit }

def accumulate (base : Int) (limit : BitVec 32) :
    List (BitVec 8) → Accumulated → Accumulated × List (BitVec 8)
  | [], read => (read, [])
  | c :: rest, read =>
      if digit c ≥ base then (read, c :: rest)
      else accumulate base limit rest (takeDigit base limit read (digit c))

/-- The end is the number of characters before `*end`; no error leaves `errno` alone. -/
structure Conversion where
  value : BitVec 32
  «end» : Nat
  errno : Option Errno

/-- The base that the text chooses, and the text after its `0x`. -/
def chooseBase (base : Int) (s : List (BitVec 8)) : Int × List (BitVec 8) :=
  if (base == 0 || base == 16) && s.getD 0 0 == 48#8 && (s.getD 1 0 == 120#8 || s.getD 1 0 == 88#8) &&
      isxdigit (s.getD 2 0).toInt then (16, s.drop 2)
  else if base = 0 then (if s.getD 0 0 = 48#8 then 8 else 10, s)
  else (base, s)

def number (text : List (BitVec 8)) (base : Int) (sign : Bool) : Conversion :=
  let s := text.dropWhile fun c => isspace c.toNat
  let neg := s.getD 0 0 == 45#8
  let s := if s.getD 0 0 == 45#8 || s.getD 0 0 == 43#8 then s.drop 1 else s
  if base ≠ 0 ∧ (base < 2 ∨ base > 36) then ⟨0, 0, some .einval⟩
  else
    let chosen := chooseBase base s
    let limit : BitVec 32 := if sign then (if neg then 0x80000000 else 0x7fffffff) else 0xffffffff
    let read := accumulate chosen.1 limit chosen.2 ⟨0, false, false⟩
    let stop := if read.1.any then text.length - read.2.length else 0
    if read.1.overflow then ⟨limit, stop, some .erange⟩
    else ⟨if neg then 0 - read.1.value else read.1.value, stop, none⟩

def strtoul (text : List (BitVec 8)) (base : Int) : Conversion := number text base false

def strtol (text : List (BitVec 8)) (base : Int) : Int × Conversion :=
  let read := number text base true
  (read.value.toInt, read)

/-! What the standard says: the subject sequence is the longest initial one of the expected form. -/

def letterValue (c : BitVec 8) : Option Nat :=
  if 48 ≤ c.toNat ∧ c.toNat ≤ 57 then some (c.toNat - 48)
  else if 97 ≤ c.toNat ∧ c.toNat ≤ 122 then some (c.toNat - 87)
  else if 65 ≤ c.toNat ∧ c.toNat ≤ 90 then some (c.toNat - 55)
  else none

def permitted (radix : Nat) (c : BitVec 8) : Bool := (letterValue c).any (· < radix)

def numeral (radix : Nat) (run : List (BitVec 8)) : Nat :=
  Nat.ofDigits radix (run.reverse.map fun c => (letterValue c).getD 0)

/-- The expected form without its sign, for a base that may be 0, and its value. -/
inductive Body (base : Nat) : List (BitVec 8) → Nat → Prop
  | digits {run : List (BitVec 8)} : base ≠ 0 → run ≠ [] → run.all (permitted base) →
      Body base run (numeral base run)
  | hexadecimal {x : BitVec 8} {run : List (BitVec 8)} : base = 0 ∨ base = 16 → x = 120#8 ∨ x = 88#8 →
      run ≠ [] → run.all (permitted 16) → Body base (48#8 :: x :: run) (numeral 16 run)
  | octal {run : List (BitVec 8)} : base = 0 → run.all (permitted 8) →
      Body base (48#8 :: run) (numeral 8 (48#8 :: run))
  | decimal {c : BitVec 8} {run : List (BitVec 8)} : base = 0 → c ≠ 48#8 → permitted 10 c →
      run.all (permitted 10) → Body base (c :: run) (numeral 10 (c :: run))

inductive Expected (base : Nat) : List (BitVec 8) → Bool → Nat → Prop
  | plain {body : List (BitVec 8)} {value : Nat} : Body base body value →
      Expected base body false value
  | plus {body : List (BitVec 8)} {value : Nat} : Body base body value →
      Expected base (43#8 :: body) false value
  | minus {body : List (BitVec 8)} {value : Nat} : Body base body value →
      Expected base (45#8 :: body) true value

def white (c : BitVec 8) : Bool := [9, 10, 11, 12, 13, 32].contains c.toNat

structure Subject (base : Nat) (text seq : List (BitVec 8)) (neg : Bool) (value : Nat) : Prop where
  form : Expected base seq neg value
  starts : seq <+: text.dropWhile white
  longest : ∀ other neg' value', Expected base other neg' value' → other <+: text.dropWhile white →
    other.length ≤ seq.length

/-! Both definitions of a digit. -/

theorem digit_letter (c : BitVec 8) : digit c = ((letterValue c).getD 99 : Nat) := by
  have size := c.isLt
  have signed := BitVec.toInt_eq_toNat_cond c
  simp only [digit, isdigit, isalpha, tolower, letterValue, Bool.and_eq_true, Bool.or_eq_true,
    decide_eq_true_eq]
  split at signed <;> split_ifs <;> simp only [Option.getD_some, Option.getD_none] <;> omega

theorem white_isspace (c : BitVec 8) : isspace c.toNat = white c := by
  rw [Bool.eq_iff_iff]
  simp only [isspace, white, Bool.or_eq_true, Bool.and_eq_true, decide_eq_true_eq, beq_iff_eq,
    List.contains_cons, List.contains_nil, Bool.or_false]
  omega

theorem digit_permitted (radix : Nat) (small : radix ≤ 36) (c : BitVec 8) :
    digit c < radix ↔ permitted radix c := by
  rw [digit_letter, permitted]
  cases letterValue c with
  | none =>
      simp
      omega
  | some d => simp

theorem permitted_small {radix : Nat} {c : BitVec 8} (allowed : permitted radix c) :
    ∃ d, letterValue c = some d ∧ d < radix := by
  simpa [permitted, Option.any_eq_true] using allowed

/-! The loop keeps the value of the digits read, or knows that it is above the limit. -/

def Tracks (limit : BitVec 32) (value : Nat) (read : Accumulated) : Prop :=
  if read.overflow then limit.toNat < value else read.value.toNat = value ∧ value ≤ limit.toNat

theorem guard_exact {base d limit : Nat} (value : Nat) (some : 0 < base) (small : d ≤ limit) :
    (limit - d) / base < value ↔ limit < value * base + d := by
  rw [Nat.div_lt_iff_lt_mul some]
  omega

theorem takeDigit_tracks {base : Nat} {limit : BitVec 32} {value d : Nat} {read : Accumulated}
    (low : 2 ≤ base) (high : base ≤ 36) (small : d < base) (wide : 36 ≤ limit.toNat)
    (tracks : Tracks limit value read) :
    Tracks limit (value * base + d) (takeDigit base limit read d) := by
  have room := limit.isLt
  have digitWord : (BitVec.ofInt 32 d).toNat = d := by
    simp
    omega
  have baseWord : (BitVec.ofInt 32 base).toNat = base := by
    simp
    omega
  have left : (limit - BitVec.ofInt 32 d).toNat = limit.toNat - d := by
    rw [BitVec.toNat_sub, digitWord]
    omega
  have grows : value ≤ value * base := Nat.le_mul_of_pos_right _ (by omega)
  have exact_ := guard_exact read.value.toNat (by omega : 0 < base) (by omega : d ≤ limit.toNat)
  simp only [takeDigit, Tracks, gt_iff_lt, BitVec.lt_def, BitVec.toNat_udiv, left, baseWord] at tracks ⊢
  cases over_ : read.overflow with
  | true =>
      rw [over_, if_pos rfl] at tracks
      split <;> simp <;> omega
  | false =>
      rw [over_, if_neg Bool.false_ne_true] at tracks
      obtain ⟨same, below⟩ := tracks
      rw [same] at exact_ ⊢
      split
      · rename_i above
        simpa using exact_.mp above
      · rename_i within
        have fits : value * base + d ≤ limit.toNat := by
          have := mt exact_.mpr within
          omega
        simp only [Bool.false_eq_true, if_false, BitVec.toNat_add, BitVec.toNat_mul, same,
          baseWord, digitWord]
        refine ⟨?_, fits⟩
        rw [Nat.mod_add_mod, Nat.mod_eq_of_lt (by omega)]

theorem takeDigit_any (base : Int) (limit : BitVec 32) (read : Accumulated) (d : Int) :
    (takeDigit base limit read d).any = true := by
  simp only [takeDigit]
  split
  · rfl
  · split <;> rfl

theorem accumulate_spec {base : Nat} {limit : BitVec 32} (low : 2 ≤ base) (high : base ≤ 36)
    (wide : 36 ≤ limit.toNat) (text : List (BitVec 8)) : ∀ (value : Nat) (read : Accumulated),
    Tracks limit value read →
    let run := text.takeWhile (permitted base)
    let done := accumulate base limit text read
    Tracks limit (run.foldl (fun v c => v * base + (letterValue c).getD 0) value) done.1 ∧
      done.1.any = (read.any || !run.isEmpty) ∧ done.2 = text.dropWhile (permitted base) := by
  induction text with
  | nil =>
      intro value read tracks
      simpa [accumulate] using tracks
  | cons c rest ih =>
      intro value read tracks run done
      by_cases allowed : permitted base c = true
      · obtain ⟨d, letter, small⟩ := permitted_small allowed
        have digitIs : digit c = d := by rw [digit_letter, letter, Option.getD_some]
        have taken : run = c :: rest.takeWhile (permitted base) := List.takeWhile_cons_of_pos allowed
        have stepped := takeDigit_tracks low high small wide tracks
        obtain ⟨tracked, some_, left⟩ := ih _ _ stepped
        have unrolled : done = accumulate base limit rest (takeDigit base limit read d) := by
          simp only [done, accumulate, digitIs, ge_iff_le, Nat.cast_le, Nat.not_le.mpr small, if_false]
        rw [unrolled, taken]
        refine ⟨?_, ?_, ?_⟩
        · simpa only [List.foldl_cons, letter, Option.getD_some] using tracked
        · rw [some_, takeDigit_any]
          simp
        · rw [left, List.dropWhile_cons_of_pos allowed]
      · have past : ¬digit c < base := fun below => allowed ((digit_permitted base high c).mp below)
        have stopped : done = (read, c :: rest) := by
          simp only [done, accumulate, ge_iff_le, not_lt.mp past, if_true]
        have none : run = [] := List.takeWhile_cons_of_neg allowed
        rw [stopped, none]
        refine ⟨tracks, by simp, ?_⟩
        rw [List.dropWhile_cons_of_neg allowed]

theorem numeral_foldl (radix : Nat) (run : List (BitVec 8)) : ∀ value,
    run.foldl (fun v c => v * radix + (letterValue c).getD 0) value =
      value * radix ^ run.length + numeral radix run := by
  induction run with
  | nil => simp [numeral]
  | cons c rest ih =>
      intro value
      rw [List.foldl_cons, ih]
      simp [numeral, Nat.ofDigits_append]
      ring

/-! The base that is chosen is the one in which the longest body is read. -/

theorem xdigit_permitted (c : BitVec 8) : isxdigit c.toInt = permitted 16 c := by
  have size := c.isLt
  have signed := BitVec.toInt_eq_toNat_cond c
  rw [Bool.eq_iff_iff]
  simp only [isxdigit, isdigit, permitted, letterValue, Bool.or_eq_true, Bool.and_eq_true,
    decide_eq_true_eq]
  split at signed <;> split_ifs <;> simp <;> omega

theorem run_longest {radix : Nat} {s other : List (BitVec 8)} (all : other.all (permitted radix))
    (starts : other <+: s) : other.length ≤ (s.takeWhile (permitted radix)).length := by
  obtain ⟨rest, rfl⟩ := starts
  rw [List.takeWhile_append_of_pos (List.all_eq_true.mp all), List.length_append]
  omega

theorem run_all (radix : Nat) (s : List (BitVec 8)) :
    (s.takeWhile (permitted radix)).all (permitted radix) :=
  List.all_takeWhile

structure Chosen (base : Nat) (s : List (BitVec 8)) (radix : Nat) (front rest : List (BitVec 8)) :
    Prop where
  low : 2 ≤ radix
  high : radix ≤ 36
  text : s = front ++ rest
  chosen : chooseBase base s = ((radix : Int), rest)
  body : rest.takeWhile (permitted radix) ≠ [] →
    Body base (front ++ rest.takeWhile (permitted radix))
      (numeral radix (rest.takeWhile (permitted radix)))
  longest : ∀ other value, Body base other value → other <+: s →
    rest.takeWhile (permitted radix) ≠ [] ∧
      other.length ≤ (front ++ rest.takeWhile (permitted radix)).length

theorem not_permitted {radix : Nat} {c : BitVec 8} (small : radix ≤ 33)
    (mark : c = 120#8 ∨ c = 88#8) : permitted radix c = false := by
  rcases mark with rfl | rfl
  · simp [permitted, letterValue]
    omega
  · simp [permitted, letterValue]
    omega

theorem chosen_hexadecimal {base : Nat} (asked : base = 0 ∨ base = 16) {x c : BitVec 8}
    (mark : x = 120#8 ∨ x = 88#8) (first : permitted 16 c) (tail : List (BitVec 8)) :
    Chosen base (48#8 :: x :: c :: tail) 16 [48#8, x] (c :: tail) where
  low := by omega
  high := by omega
  text := rfl
  chosen := by
    have same : ((base : Int) == 0 || (base : Int) == 16) = true := by
      rcases asked with rfl | rfl <;> rfl
    rcases mark with rfl | rfl <;> simp [chooseBase, same, xdigit_permitted, first]
  body := fun some_ => .hexadecimal asked mark some_ (run_all _ _)
  longest := by
    have some_ : (c :: tail).takeWhile (permitted 16) ≠ [] := by
      simp [first]
    have zeroX : ∀ radix ≤ 33, ∀ other : List (BitVec 8), other.all (permitted radix) →
        other <+: 48#8 :: x :: c :: tail → other.length ≤ 1 := by
      intro radix small other all starts
      rcases other with _ | ⟨one, _ | ⟨two, others⟩⟩
      · simp
      · simp
      · obtain ⟨-, starts⟩ := List.cons_prefix_cons.mp starts
        obtain ⟨rfl, -⟩ := List.cons_prefix_cons.mp starts
        simp [not_permitted small mark] at all
    intro other value form starts
    refine ⟨some_, ?_⟩
    cases form with
    | digits whole _ all =>
        have := zeroX base (by omega) other all starts
        simp only [List.length_append, List.length_cons]
        omega
    | hexadecimal _ _ _ all =>
        obtain ⟨-, starts⟩ := List.cons_prefix_cons.mp starts
        obtain ⟨-, starts⟩ := List.cons_prefix_cons.mp starts
        have := run_longest all starts
        simp only [List.length_append, List.length_cons, List.length_nil]
        omega
    | octal _ all =>
        have := zeroX 8 (by omega) _ (by simp [all]; decide) starts
        simp only [List.length_append, List.length_cons] at this ⊢
        omega
    | decimal _ nonzero _ _ =>
        exact absurd (List.cons_prefix_cons.mp starts).1 nonzero

def Marked (s : List (BitVec 8)) : Prop :=
  ∃ x c tail, s = 48#8 :: x :: c :: tail ∧ (x = 120#8 ∨ x = 88#8) ∧ permitted 16 c

theorem chooseBase_plain {base : Nat} {s : List (BitVec 8)}
    (plain : base = 0 ∨ base = 16 → ¬Marked s) :
    chooseBase base s =
      if (base : Int) = 0 then (if s.getD 0 0 = 48#8 then 8 else 10, s) else ((base : Int), s) := by
  rw [chooseBase, if_neg]
  intro both
  simp only [Bool.and_eq_true, Bool.or_eq_true, beq_iff_eq, xdigit_permitted] at both
  obtain ⟨⟨⟨asked, zero⟩, mark⟩, first⟩ := both
  apply plain (by omega)
  rcases s with _ | ⟨one, _ | ⟨two, _ | ⟨three, tail⟩⟩⟩
  · simp at zero
  · simp at mark
  · simp [permitted, letterValue] at first
  · exact ⟨two, three, tail, by simpa using zero, by simpa using mark, by simpa using first⟩

theorem not_hexadecimal {s other : List (BitVec 8)} {x : BitVec 8} (plain : ¬Marked s)
    (mark : x = 120#8 ∨ x = 88#8) (some_ : other ≠ []) (all : other.all (permitted 16)) :
    ¬(48#8 :: x :: other) <+: s := by
  rintro ⟨rest, rfl⟩
  obtain ⟨c, tail, rfl⟩ := List.exists_cons_of_ne_nil some_
  refine plain ⟨x, c, tail ++ rest, rfl, mark, ?_⟩
  simp only [List.all_cons, Bool.and_eq_true] at all
  exact all.1

theorem run_ne_nil {radix : Nat} {s other : List (BitVec 8)} (some_ : other ≠ [])
    (all : other.all (permitted radix)) (starts : other <+: s) :
    s.takeWhile (permitted radix) ≠ [] := by
  have longer := run_longest all starts
  have first := List.length_pos_iff.mpr some_
  exact List.ne_nil_of_length_pos (by omega)

theorem chosen_octal {s : List (BitVec 8)} (plain : ¬Marked (48#8 :: s)) :
    Chosen 0 (48#8 :: s) 8 [] (48#8 :: s) where
  low := by omega
  high := by omega
  text := rfl
  chosen := by
    rw [chooseBase_plain fun _ => plain, if_pos (by rfl)]
    rfl
  body := by
    intro _
    have zero : permitted 8 48#8 = true := by decide
    rw [List.takeWhile_cons_of_pos zero]
    exact .octal rfl (run_all 8 s)
  longest := by
    intro other value form starts
    have zero : permitted 8 48#8 = true := by decide
    refine ⟨by simp [zero], ?_⟩
    cases form with
    | digits whole _ _ => exact absurd rfl whole
    | hexadecimal _ mark some_ all => exact absurd starts (not_hexadecimal plain mark some_ all)
    | octal _ all => exact run_longest (by simpa [zero] using all) starts
    | decimal _ nonzero _ _ => exact absurd (List.cons_prefix_cons.mp starts).1 nonzero

theorem chosen_decimal {s : List (BitVec 8)} (other : s.getD 0 0 ≠ 48#8) : Chosen 0 s 10 [] s where
  low := by omega
  high := by omega
  text := rfl
  chosen := by
    have plain : ¬Marked s := by
      rintro ⟨x, c, tail, rfl, -⟩
      exact other rfl
    rw [chooseBase_plain fun _ => plain, if_pos (by rfl), if_neg other]
    rfl
  body := by
    intro some_
    rcases s with _ | ⟨c, rest⟩
    · exact absurd rfl some_
    · by_cases first : permitted 10 c = true
      · rw [List.takeWhile_cons_of_pos first]
        exact .decimal rfl (by simpa using other) first (run_all 10 rest)
      · rw [List.takeWhile_cons_of_neg first] at some_
        exact absurd rfl some_
  longest := by
    intro seq value form starts
    cases form with
    | digits whole _ _ => exact absurd rfl whole
    | hexadecimal _ _ _ _ =>
        obtain ⟨rest, rfl⟩ := starts
        exact absurd rfl other
    | octal _ _ =>
        obtain ⟨rest, rfl⟩ := starts
        exact absurd rfl other
    | @decimal c run _ _ first all =>
        have every : (c :: run).all (permitted 10) := by
          rw [List.all_cons, first, all, Bool.and_true]
        exact ⟨run_ne_nil (List.cons_ne_nil _ _) every starts, run_longest every starts⟩

theorem chosen_given {base : Nat} {s : List (BitVec 8)} (low : 2 ≤ base) (high : base ≤ 36)
    (plain : base = 16 → ¬Marked s) : Chosen base s base [] s where
  low := low
  high := high
  text := rfl
  chosen := by
    rw [chooseBase_plain fun asked => plain (by omega), if_neg (by omega)]
  body := fun some_ => .digits (by omega) some_ (run_all base s)
  longest := by
    intro other value form starts
    cases form with
    | digits _ some_ all => exact ⟨run_ne_nil some_ all starts, run_longest all starts⟩
    | hexadecimal asked mark some_ all =>
        exact absurd starts (not_hexadecimal (plain (by omega)) mark some_ all)
    | octal zero _ => omega
    | decimal zero _ _ _ => omega

theorem chosen_exists {base : Nat} (allowed : base = 0 ∨ 2 ≤ base ∧ base ≤ 36) (s : List (BitVec 8)) :
    ∃ radix front rest, Chosen base s radix front rest := by
  by_cases marked : (base = 0 ∨ base = 16) ∧ Marked s
  · obtain ⟨asked, x, c, tail, rfl, mark, first⟩ := marked
    exact ⟨16, _, _, chosen_hexadecimal asked mark first tail⟩
  · rcases allowed with rfl | ⟨low, high⟩
    · by_cases zero : s.getD 0 0 = 48#8
      · rcases s with _ | ⟨c, rest⟩
        · simp at zero
        · obtain rfl : c = 48#8 := by simpa using zero
          exact ⟨8, _, _, chosen_octal fun mark => marked ⟨.inl rfl, mark⟩⟩
      · exact ⟨10, _, _, chosen_decimal zero⟩
    · exact ⟨base, _, _, chosen_given low high fun same mark => marked ⟨.inr same, mark⟩⟩

/-! A text has one subject sequence at most. -/

theorem mark_refused {radix : Nat} {x : BitVec 8} {run : List (BitVec 8)} (small : radix ≤ 33)
    (mark : x = 120#8 ∨ x = 88#8) (all : run.all (permitted radix) = true) : x ∉ run := by
  intro member
  have allowed := List.all_eq_true.mp all x member
  simp [not_permitted small mark] at allowed

theorem Body.value_unique {base : Nat} {body : List (BitVec 8)} {first second : Nat}
    (one : Body base body first) (two : Body base body second) : first = second := by
  cases one with
  | digits whole _ all =>
      cases two with
      | digits _ _ _ => rfl
      | hexadecimal asked mark _ _ =>
          exact absurd (by simp) (mark_refused (by omega) mark all)
      | octal zero _ => exact absurd zero whole
      | decimal zero _ _ _ => exact absurd zero whole
  | hexadecimal asked mark _ all =>
      cases two with
      | digits whole _ all =>
          exact absurd (by simp) (mark_refused (by omega) mark all)
      | hexadecimal _ _ _ _ => rfl
      | octal _ all =>
          exact absurd (by simp) (mark_refused (by omega) mark all)
      | decimal _ nonzero _ _ => exact absurd rfl nonzero
  | octal zero all =>
      cases two with
      | digits whole _ _ => exact absurd zero whole
      | hexadecimal _ mark _ _ =>
          exact absurd (by simp) (mark_refused (by omega) mark all)
      | octal _ _ => rfl
      | decimal _ nonzero _ _ => exact absurd rfl nonzero
  | decimal zero nonzero _ _ =>
      cases two with
      | digits whole _ _ => exact absurd zero whole
      | hexadecimal _ _ _ _ => exact absurd rfl nonzero
      | octal _ _ => exact absurd rfl nonzero
      | decimal _ _ _ _ => rfl

theorem Body.unsigned {base : Nat} {c : BitVec 8} {rest : List (BitVec 8)} {value : Nat}
    (form : Body base (c :: rest) value) : c ≠ 43#8 ∧ c ≠ 45#8 := by
  have digit_ : ∀ radix, permitted radix c = true → c ≠ 43#8 ∧ c ≠ 45#8 := by
    intro radix allowed
    constructor <;> rintro rfl <;> simp [permitted, letterValue] at allowed
  cases form with
  | digits _ _ all =>
      simp only [List.all_cons, Bool.and_eq_true] at all
      exact digit_ _ all.1
  | hexadecimal _ _ _ _ => simp
  | octal _ _ => simp
  | decimal _ _ first _ => exact digit_ _ first

theorem Body.ne_nil {base : Nat} {value : Nat} : ¬Body base [] value := by
  intro form
  cases form with
  | digits _ some_ _ => exact some_ rfl

theorem Expected.unique {base : Nat} {seq : List (BitVec 8)} {neg neg' : Bool} {first second : Nat}
    (one : Expected base seq neg first) (two : Expected base seq neg' second) :
    neg = neg' ∧ first = second := by
  cases one with
  | plain body =>
      cases two with
      | plain other => exact ⟨rfl, body.value_unique other⟩
      | plus _ => exact absurd rfl body.unsigned.1
      | minus _ => exact absurd rfl body.unsigned.2
  | plus body =>
      cases two with
      | plain other => exact absurd rfl other.unsigned.1
      | plus other => exact ⟨rfl, body.value_unique other⟩
  | minus body =>
      cases two with
      | plain other => exact absurd rfl other.unsigned.2
      | minus other => exact ⟨rfl, body.value_unique other⟩

theorem Subject.unique {base : Nat} {text first second : List (BitVec 8)} {neg neg' : Bool}
    {value value' : Nat} (one : Subject base text first neg value)
    (two : Subject base text second neg' value') : first = second ∧ neg = neg' ∧ value = value' := by
  have less := one.longest _ _ _ two.form two.starts
  have more := two.longest _ _ _ one.form one.starts
  obtain rfl : first = second :=
    (List.prefix_of_prefix_length_le one.starts two.starts more).eq_of_length (by omega)
  obtain ⟨sign, same⟩ := one.form.unique two.form
  exact ⟨rfl, sign, same⟩

/-! The whole conversion. -/

/-- The text after the sign, and the sign, as `number` sees them. -/
def signOf (s : List (BitVec 8)) : List (BitVec 8) :=
  if s.getD 0 0 == 45#8 || s.getD 0 0 == 43#8 then s.take 1 else []

theorem expected_starts {base : Nat} {t seq : List (BitVec 8)} {neg : Bool} {value : Nat}
    (form : Expected base seq neg value) (starts : seq <+: t) :
    ∃ body, seq = signOf t ++ body ∧ Body base body value ∧ (t.getD 0 0 == 45#8) = neg := by
  obtain ⟨rest, rfl⟩ := starts
  cases form with
  | plain form =>
      rcases seq with _ | ⟨c, body⟩
      · exact absurd form Body.ne_nil
      · obtain ⟨plus, minus⟩ := form.unsigned
        exact ⟨c :: body, by simp [signOf, plus, minus], form, by simp [minus]⟩
  | plus form => exact ⟨_, rfl, form, rfl⟩
  | minus form => exact ⟨_, rfl, form, rfl⟩

theorem expected_signed {base : Nat} {body : List (BitVec 8)} {value : Nat} (t : List (BitVec 8))
    (form : Body base body value) :
    Expected base (signOf t ++ body) (t.getD 0 0 == 45#8) value := by
  rcases t with _ | ⟨c, rest⟩
  · exact .plain form
  · by_cases minus : c = 45#8
    · subst minus
      exact .minus form
    · by_cases plus : c = 43#8
      · subst plus
        exact .plus form
      · have none : signOf (c :: rest) = [] := by simp [signOf, minus, plus]
        have positive : ((c :: rest).getD 0 0 == 45#8) = false := by simp [minus]
        rw [none, positive]
        exact .plain form

def unsignedText (text : List (BitVec 8)) : List (BitVec 8) :=
  (text.dropWhile white).drop (signOf (text.dropWhile white)).length

theorem signOf_append (t : List (BitVec 8)) : signOf t ++ t.drop (signOf t).length = t := by
  rw [signOf]
  split
  · rcases t with _ | ⟨c, rest⟩ <;> simp
  · simp

theorem after_sign {t body : List (BitVec 8)} :
    signOf t ++ body <+: t ↔ body <+: t.drop (signOf t).length := by
  have both : signOf t ++ body <+: signOf t ++ t.drop (signOf t).length ↔
      body <+: t.drop (signOf t).length := List.prefix_append_right_inj _
  rwa [signOf_append] at both

theorem subject_found {base radix : Nat} {text front rest : List (BitVec 8)}
    (chosen : Chosen base (unsignedText text) radix front rest)
    (some_ : rest.takeWhile (permitted radix) ≠ []) :
    Subject base text
      (signOf (text.dropWhile white) ++ (front ++ rest.takeWhile (permitted radix)))
      ((text.dropWhile white).getD 0 0 == 45#8) (numeral radix (rest.takeWhile (permitted radix))) where
  form := expected_signed _ (chosen.body some_)
  starts := by
    apply after_sign.mpr
    change _ <+: unsignedText text
    rw [chosen.text]
    apply (List.prefix_append_right_inj _).mpr
    exact List.takeWhile_prefix _
  longest := by
    intro other neg value form starts
    obtain ⟨body, rfl, form, -⟩ := expected_starts form starts
    have shorter := (chosen.longest body value form (after_sign.mp starts)).2
    simp only [List.length_append] at shorter ⊢
    omega

theorem subject_absent {base radix : Nat} {text front rest : List (BitVec 8)}
    (chosen : Chosen base (unsignedText text) radix front rest)
    (none : rest.takeWhile (permitted radix) = []) (seq : List (BitVec 8)) (neg : Bool)
    (value : Nat) : ¬Subject base text seq neg value := by
  intro subject
  obtain ⟨body, rfl, form, -⟩ := expected_starts subject.form subject.starts
  exact (chosen.longest body value form (after_sign.mp subject.starts)).1 none

def limitOf (sign neg : Bool) : BitVec 32 :=
  if sign then (if neg then 0x80000000 else 0x7fffffff) else 0xffffffff

theorem limitOf_wide (sign neg : Bool) : 36 ≤ (limitOf sign neg).toNat := by
  cases sign <;> cases neg <;> simp [limitOf]

theorem number_eq {base : Nat} (allowed : base = 0 ∨ 2 ≤ base ∧ base ≤ 36) (text : List (BitVec 8))
    (sign : Bool) :
    number text base sign =
      let neg := (text.dropWhile white).getD 0 0 == 45#8
      let chosen := chooseBase base (unsignedText text)
      let read := accumulate chosen.1 (limitOf sign neg) chosen.2 ⟨0, false, false⟩
      let stop := if read.1.any then text.length - read.2.length else 0
      if read.1.overflow then ⟨limitOf sign neg, stop, some .erange⟩
      else ⟨if neg then 0 - read.1.value else read.1.value, stop, none⟩ := by
  have spaces : (fun c : BitVec 8 => isspace c.toNat) = white := funext white_isspace
  have valid : ¬((base : Int) ≠ 0 ∧ ((base : Int) < 2 ∨ (base : Int) > 36)) := by omega
  have rest : (if (text.dropWhile white).getD 0 0 == 45#8 || (text.dropWhile white).getD 0 0 == 43#8
      then (text.dropWhile white).drop 1 else text.dropWhile white) = unsignedText text := by
    rw [unsignedText, signOf]
    split
    · rcases text.dropWhile white with _ | ⟨c, later⟩ <;> simp
    · simp
  simp only [number, spaces, rest, if_neg valid]
  rfl

/-- What is returned, once the digits are found. -/
theorem number_chosen {base radix : Nat} {text front rest : List (BitVec 8)} (sign : Bool)
    (allowed : base = 0 ∨ 2 ≤ base ∧ base ≤ 36)
    (chosen : Chosen base (unsignedText text) radix front rest) :
    let run := rest.takeWhile (permitted radix)
    let neg := (text.dropWhile white).getD 0 0 == 45#8
    let stop := if run = [] then 0 else (text.takeWhile white).length +
      (signOf (text.dropWhile white) ++ (front ++ run)).length
    number text base sign =
      if (limitOf sign neg).toNat < numeral radix run then ⟨limitOf sign neg, stop, some .erange⟩
      else ⟨if neg then 0 - BitVec.ofNat 32 (numeral radix run) else BitVec.ofNat 32 (numeral radix run),
        stop, none⟩ := by
  intro run neg stop
  rw [number_eq allowed]
  simp only [chosen.chosen]
  obtain ⟨tracks, some_, left⟩ := accumulate_spec chosen.low chosen.high
    (limitOf_wide sign neg) rest 0 ⟨0, false, false⟩ (by simp [Tracks])
  rw [numeral_foldl, Nat.zero_mul, Nat.zero_add] at tracks
  simp only [Bool.false_or] at some_
  have lengths : text.length = (text.takeWhile white).length +
      (signOf (text.dropWhile white) ++ (front ++ run)).length +
      (rest.dropWhile (permitted radix)).length := by
    have whole := congrArg List.length (signOf_append (text.dropWhile white))
    have outer := congrArg List.length (text.takeWhile_append_dropWhile (p := white))
    have inner := congrArg List.length (rest.takeWhile_append_dropWhile (p := permitted radix))
    have middle := congrArg List.length chosen.text
    simp only [unsignedText, List.length_append, run] at whole outer inner middle ⊢
    omega
  have ended : (if (accumulate radix (limitOf sign neg) rest ⟨0, false, false⟩).1.any then
      text.length - (accumulate radix (limitOf sign neg) rest ⟨0, false, false⟩).2.length else 0) =
      stop := by
    rw [some_, left]
    by_cases none : run = []
    · simp [stop, none, run]
    · have found : (rest.takeWhile (permitted radix)).isEmpty = false := by
        cases same : rest.takeWhile (permitted radix) with
        | nil => exact absurd same none
        | cons => rfl
      simp only [stop, found, if_neg none, Bool.not_false, if_true]
      omega
  change (if _ then Conversion.mk _ _ _ else _) = _
  rw [ended]
  simp only [Tracks] at tracks
  split at tracks
  · rename_i above
    rw [if_pos above, if_pos tracks]
  · rename_i within
    obtain ⟨same, below⟩ := tracks
    have word : (accumulate radix (limitOf sign neg) rest ⟨0, false, false⟩).1.value =
        BitVec.ofNat 32 (numeral radix run) := by
      apply BitVec.eq_of_toNat_eq
      rw [same, BitVec.toNat_ofNat, Nat.mod_eq_of_lt (lt_of_le_of_lt below (limitOf sign neg).isLt)]
    rw [if_neg within, if_neg (not_lt.mpr below), word]

/-! The results of the standard, where a `long` has 32 bits. -/

def longResult (neg : Bool) (value : Nat) : Int × Option Errno :=
  let exact_ : Int := if neg then -value else value
  if exact_ > 2147483647 then (2147483647, some .erange)
  else if exact_ < -2147483648 then (-2147483648, some .erange)
  else (exact_, none)

def unsignedResult (neg : Bool) (value : Nat) : Nat × Option Errno :=
  if value > 4294967295 then (4294967295, some .erange)
  else ((if neg then 4294967296 - value else value) % 4294967296, none)

theorem long_word (neg : Bool) (value stop : Nat) :
    let read : Conversion := if (limitOf true neg).toNat < value then ⟨limitOf true neg, stop, some .erange⟩
      else ⟨if neg then 0 - BitVec.ofNat 32 value else BitVec.ofNat 32 value, stop, none⟩
    (read.value.toInt, read.errno) = longResult neg value ∧ read.end = stop := by
  cases neg with
  | false =>
      have limit : (limitOf true false).toNat = 2147483647 := by simp [limitOf]
      simp only [limit, longResult, Bool.false_eq_true, if_false]
      split
      · rename_i above
        rw [if_pos (by omega)]
        exact ⟨by simp [limitOf], rfl⟩
      · rename_i within
        rw [if_neg (by omega), if_neg (by omega), BitVec.toInt_eq_toNat_cond, BitVec.toNat_ofNat]
        refine ⟨?_, rfl⟩
        rw [Nat.mod_eq_of_lt (by omega), if_pos (by omega)]
  | true =>
      have limit : (limitOf true true).toNat = 2147483648 := by simp [limitOf]
      simp only [limit, longResult, if_true]
      split
      · rename_i above
        rw [if_neg (by omega), if_pos (by omega)]
        exact ⟨by simp [limitOf], rfl⟩
      · rename_i within
        have zero : (0 : BitVec 32).toNat = 0 := by simp
        rw [if_neg (by omega), if_neg (by omega), BitVec.toInt_eq_toNat_cond, BitVec.toNat_sub,
          BitVec.toNat_ofNat, zero]
        refine ⟨?_, rfl⟩
        simp only [Prod.mk.injEq, and_true]
        split <;> omega

theorem unsigned_word (neg : Bool) (value stop : Nat) :
    let read : Conversion := if (limitOf false neg).toNat < value then ⟨limitOf false neg, stop, some .erange⟩
      else ⟨if neg then 0 - BitVec.ofNat 32 value else BitVec.ofNat 32 value, stop, none⟩
    (read.value.toNat, read.errno) = unsignedResult neg value ∧ read.end = stop := by
  have limit : (limitOf false neg).toNat = 4294967295 := by simp [limitOf]
  simp only [limit, unsignedResult, gt_iff_lt]
  split
  · exact ⟨by simp [limit], rfl⟩
  · rename_i within
    refine ⟨?_, rfl⟩
    cases neg with
    | false => simp
    | true =>
        have zero : (0 : BitVec 32).toNat = 0 := by simp
        simp only [if_true, BitVec.toNat_sub, BitVec.toNat_ofNat, zero, Prod.mk.injEq, and_true]
        omega

theorem conversions_c89 (text : List (BitVec 8)) (base : Nat)
    (allowed : base = 0 ∨ 2 ≤ base ∧ base ≤ 36) :
    let long := strtol text base
    let unsigned := strtoul text base
    (∀ seq neg value, Subject base text seq neg value →
      (long.1, long.2.errno) = longResult neg value ∧
      (unsigned.value.toNat, unsigned.errno) = unsignedResult neg value ∧
      long.2.end = (text.takeWhile white).length + seq.length ∧ unsigned.end = long.2.end) ∧
    ((∀ seq neg value, ¬Subject base text seq neg value) →
      (long.1, long.2.errno, long.2.end) = (0, none, 0) ∧
      (unsigned.value.toNat, unsigned.errno, unsigned.end) = (0, none, 0)) := by
  obtain ⟨radix, front, rest, chosen⟩ := chosen_exists allowed (unsignedText text)
  have signed := number_chosen true allowed chosen
  have plain := number_chosen false allowed chosen
  intro long unsigned
  constructor
  · intro seq neg value subject
    have some_ : rest.takeWhile (permitted radix) ≠ [] :=
      fun none => subject_absent chosen none seq neg value subject
    obtain ⟨rfl, rfl, rfl⟩ := subject.unique (subject_found chosen some_)
    simp only [if_neg some_] at signed plain
    obtain ⟨longValue, longEnd⟩ := long_word ((text.dropWhile white).getD 0 0 == 45#8)
      (numeral radix (rest.takeWhile (permitted radix))) _
    obtain ⟨wordValue, wordEnd⟩ := unsigned_word ((text.dropWhile white).getD 0 0 == 45#8)
      (numeral radix (rest.takeWhile (permitted radix))) _
    rw [← signed] at longValue longEnd
    rw [← plain] at wordValue wordEnd
    exact ⟨longValue, wordValue, longEnd, wordEnd.trans longEnd.symm⟩
  · intro absent
    have none : rest.takeWhile (permitted radix) = [] := by
      by_contra some_
      exact absent _ _ _ (subject_found chosen some_)
    simp only [none, numeral, if_true] at signed plain
    have result : ∀ sign, number text base sign = ⟨0, 0, .none⟩ := by
      intro sign
      cases sign with
      | false => simpa using plain
      | true => simpa using signed
    simp [long, unsigned, strtol, strtoul, result]

/-- Of a lone `0x` only the zero is read. -/
theorem lone_prefix_read :
    ((strtol [48#8, 120#8] 16).1, (strtol [48#8, 120#8] 16).2.errno) = (0, none) ∧
      (strtol [48#8, 120#8] 16).2.end = 1 := by
  have plain : ¬Marked [48#8, 120#8] := by simp [Marked]
  have chosen : Chosen 16 [48#8, 120#8] 16 [] [48#8, 120#8] :=
    chosen_given (by omega) (by omega) fun _ => plain
  have digits : [48#8, 120#8].takeWhile (permitted 16) = [48#8] := by decide
  have read := (conversions_c89 [48#8, 120#8] 16 (by omega)).1 _ _ _
    (subject_found chosen (by simp [digits]))
  rw [digits] at read
  exact ⟨read.1, read.2.2.1⟩

end SymphonyPlus.Convert
