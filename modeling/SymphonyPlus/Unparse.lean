import SymphonyPlus.Tokenize

/-!
The text that `unparse` of `symcc/src/preprocess.c` prints for a chain. Read again, it gives the
tokens of the chain.
-/

namespace SymphonyPlus

def needsSpace (a b : Token) : Bool := !(tokIs a "(" || tokIs b ")")

def decimalText (value : Int) : List Char :=
  if value < 0 then '-' :: Nat.toDigits 10 value.natAbs else Nat.toDigits 10 value.toNat

def numberText (build : Build) (t : Token) : List Char :=
  decimalText (if build = .native && t.isUnsigned then t.val % 2 ^ 32 else t.val) ++
    if t.isUnsigned then ['u'] else []

def octalDigit (n : Nat) : Char := Char.ofNat (48 + n % 8)

def byteText (byte : BitVec 8) : List Char :=
  if byte = 34 ∨ byte = 92 then ['\\', Char.ofNat byte.toNat]
  else if byte.toNat < 32 ∨ 127 ≤ byte.toNat then
    ['\\', octalDigit (byte.toNat / 64), octalDigit (byte.toNat / 8), octalDigit byte.toNat]
  else [Char.ofNat byte.toNat]

def tokenText (build : Build) (t : Token) : List Char :=
  match t.kind with
  | .num => numberText build t
  | .str => '"' :: (t.str.flatMap byteText ++ ['"'])
  | _ => t.text

def unparseFrom (build : Build) : Option Token → List Token → List Char
  | _, [] => []
  | prev, t :: rest =>
      if t.kind = .eof then []
      else (if prev.any fun before => needsSpace before t then [' '] else []) ++
        (tokenText build t ++ unparseFrom build (some t) rest)

def unparse (build : Build) (tokens : List Token) : List Char := unparseFrom build none tokens

def punctuators : List (List Char) := punctuators3 ++ punctuators2 ++ punctuators1

/-- A token as the lexer makes them. -/
def Proper (build : Build) (t : Token) : Prop :=
  match t.kind with
  | .eof => True
  | .num => t.str = [] ∧ ∃ n ≤ build.literalMax, t.val = build.toCcInt n ∧
      (build = .native → 0x7fffffff < n → t.isUnsigned = true)
  | .str => t.val = 0 ∧ t.isUnsigned = false
  | .ident => isIdent t.text ∧ t.text ∉ keywords ∧ t.val = 0 ∧ t.isUnsigned = false ∧ t.str = []
  | .keyword => t.text ∈ keywords ∧ t.val = 0 ∧ t.isUnsigned = false ∧ t.str = []
  | .punct => t.text ∈ punctuators ∧ t.val = 0 ∧ t.isUnsigned = false ∧ t.str = []

/-- Two tokens that say the same: the spelling counts for words and punctuators. -/
structure SameToken (t u : Token) : Prop where
  kind : t.kind = u.kind
  val : t.val = u.val
  isUnsigned : t.isUnsigned = u.isUnsigned
  str : t.str = u.str
  text : t.kind = .ident ∨ t.kind = .keyword ∨ t.kind = .punct → t.text = u.text

/-- What follows a printed token. -/
def Delimits (rest : List Char) : Prop := ∀ c ∈ rest.head?, c = ' ' ∨ c = ')'

/-! Numbers. -/

theorem digitValue_digitChar {d : Nat} (small : d < 10) : digitValue d.digitChar = d := by
  have digits : ∀ d < 10, digitValue d.digitChar = d := by decide
  exact digits d small

theorem ccAccumulate_digit {build : Build} {value digit : Nat}
    (fits : value * 10 + digit ≤ build.literalMax) :
    ccAccumulate build 10 value digit = .ok (value * 10 + digit) := by
  rw [ccAccumulate, if_neg]
  rw [Nat.not_lt, Nat.le_div_iff_mul_le (by decide)]
  omega

theorem readDigits_toDigits {build : Build} {n : Nat} (fits : n ≤ build.literalMax) :
    readDigits build 10 0 (Nat.toDigits 10 n) = .ok n := by
  induction n using Nat.strongRecOn with
  | ind n ih =>
      by_cases small : n < 10
      · rw [Nat.toDigits_of_lt_base small]
        simp only [readDigits, List.foldlM_cons, List.foldlM_nil, digitValue_digitChar small]
        rw [ccAccumulate_digit (by omega)]
        simp [bind, Except.bind, pure, Except.pure]
      · have smaller := ih (n / 10) (by omega) (by omega)
        have last : n / 10 * 10 + n % 10 = n := by omega
        rw [Nat.toDigits_of_base_le (by decide) (by omega), readDigits, List.foldlM_append]
        rw [readDigits] at smaller
        rw [smaller]
        simp only [bind, Except.bind, List.foldlM_cons, List.foldlM_nil,
          digitValue_digitChar (Nat.mod_lt n (by decide : 10 > 0)), pure, Except.pure]
        rw [ccAccumulate_digit (by omega), last]

theorem toDigits_head {n : Nat} (positive : 0 < n) :
    ∃ c rest, Nat.toDigits 10 n = c :: rest ∧ c ≠ '0' := by
  induction n using Nat.strongRecOn with
  | ind n ih =>
      by_cases small : n < 10
      · refine ⟨n.digitChar, [], Nat.toDigits_of_lt_base small, ?_⟩
        have digits : ∀ n < 10, 0 < n → n.digitChar ≠ '0' := by decide
        exact digits n small positive
      · obtain ⟨c, rest, same, other⟩ := ih (n / 10) (by omega) (by omega)
        rw [Nat.toDigits_of_base_le (by decide) (by omega), same]
        exact ⟨c, _, rfl, other⟩

theorem takeWhile_digits {n : Nat} {rest : List Char}
    (stops : ∀ c ∈ rest.head?, c.isDigit = false) :
    (Nat.toDigits 10 n ++ rest).takeWhile Char.isDigit = Nat.toDigits 10 n := by
  have digits : ∀ c ∈ Nat.toDigits 10 n, c.isDigit = true := fun c member =>
    Nat.isDigit_of_mem_toDigits (by decide) (by decide) member
  rw [List.takeWhile_append_of_pos digits]
  cases rest with
  | nil => simp
  | cons c rest => simp [stops c rfl]

theorem numberDigits_toDigits {build : Build} {n : Nat} {rest : List Char}
    (fits : n ≤ build.literalMax) (stops : ∀ c ∈ rest.head?, c = 'u' ∨ c = ' ' ∨ c = ')') :
    numberDigits build (Nat.toDigits 10 n ++ rest) = .ok (n, rest) := by
  have plain : ∀ c ∈ rest.head?, c.isDigit = false := by
    intro c found
    rcases stops c found with rfl | rfl | rfl <;> rfl
  have decimal : ((readDigits build 10 0
      ((Nat.toDigits 10 n ++ rest).takeWhile Char.isDigit)).map fun value =>
        (value, (Nat.toDigits 10 n ++ rest).drop
          ((Nat.toDigits 10 n ++ rest).takeWhile Char.isDigit).length)) = .ok (n, rest) := by
    rw [takeWhile_digits plain, readDigits_toDigits fits, List.drop_left]
    rfl
  unfold numberDigits
  split
  · rename_i x more same
    rcases Nat.eq_zero_or_pos n with rfl | positive
    · rw [Nat.toDigits_zero] at same
      have found := stops x (by cases same; rfl)
      rw [if_neg, if_neg]
      · exact decimal
      · rcases found with rfl | rfl | rfl <;> decide
      · rcases found with rfl | rfl | rfl <;> decide
    · obtain ⟨c, digits, first, other⟩ := toDigits_head positive
      rw [first, List.cons_append] at same
      exact absurd (List.cons.inj same).1 other
  · exact decimal

theorem Delimits.head {rest : List Char} (delimits : Delimits rest) {p : Char → Bool}
    (space : p ' ' = false) (close : p ')' = false) : ∀ c ∈ rest.head?, p c = false := by
  intro c found
  rcases delimits c found with rfl | rfl
  · exact space
  · exact close

theorem any_head {rest : List Char} {p : Char → Bool} (none : ∀ c ∈ rest.head?, p c = false) :
    rest.head?.any p = false := by
  cases rest with
  | nil => rfl
  | cons c rest => exact none c rfl

theorem numberSuffix_delimited {rest : List Char} (delimits : Delimits rest)
    (unsigned : Bool) (long : Bool) : numberSuffix unsigned long rest = (unsigned, rest) := by
  cases rest with
  | nil => rfl
  | cons c rest =>
      unfold numberSuffix
      rcases delimits c rfl with rfl | rfl <;> simp

theorem lexNumber_printed {build : Build} {n : Nat} {unsigned : Bool} {rest : List Char}
    (fits : n ≤ build.literalMax) (delimits : Delimits rest) :
    ∃ t, lexNumber build
        (Nat.toDigits 10 n ++ ((if unsigned then ['u'] else []) ++ rest)) = .ok (t, rest) ∧
      t.kind = .num ∧ t.val = build.toCcInt n ∧ t.str = [] ∧
      t.isUnsigned = (unsigned || (build = .native && 0x7fffffff < n)) := by
  have stops : ∀ c ∈ ((if unsigned then ['u'] else []) ++ rest).head?,
      c = 'u' ∨ c = ' ' ∨ c = ')' := by
    intro c found
    cases unsigned with
    | true =>
        cases found
        exact Or.inl rfl
    | false => exact Or.inr (delimits c found)
  have suffix : numberSuffix false false ((if unsigned then ['u'] else []) ++ rest) =
      (unsigned, rest) := by
    cases unsigned with
    | true =>
        have next : numberSuffix false false ('u' :: rest) = numberSuffix true false rest := by
          simp [numberSuffix.eq_def false false ('u' :: rest)]
        exact next.trans (numberSuffix_delimited delimits true false)
    | false => exact numberSuffix_delimited delimits false false
  have ends : rest.head?.any isIdentRest = false :=
    any_head (delimits.head (by decide) (by decide))
  unfold lexNumber
  rw [numberDigits_toDigits fits stops]
  simp only [Except.bind, suffix, ends, Bool.false_eq_true, if_false]
  exact ⟨_, rfl, rfl, rfl, rfl, rfl⟩

/-! Words and punctuators. -/

theorem takeWhile_delimited {word rest : List Char} {p : Char → Bool}
    (inside : ∀ c ∈ word, p c = true) (stops : ∀ c ∈ rest.head?, p c = false) :
    (word ++ rest).takeWhile p = word := by
  rw [List.takeWhile_append_of_pos inside]
  cases rest with
  | nil => simp
  | cons c rest => simp [stops c rfl]

theorem isIdent_rest {word : List Char} (ident : isIdent word = true) :
    ∀ c ∈ word, isIdentRest c = true := by
  cases word with
  | nil => simp
  | cons d rest =>
      simp only [isIdent, Bool.and_eq_true, List.all_eq_true] at ident
      intro c member
      rcases List.mem_cons.mp member with rfl | member
      · have start := ident.1
        simp only [isIdentStart, isIdentRest, Char.isAlphanum, Bool.or_eq_true] at start ⊢
        tauto
      · exact ident.2 c member

theorem lexWord_printed {word rest : List Char} (ident : isIdent word = true)
    (delimits : Delimits rest) :
    lexWord (word ++ rest) =
      (newToken (if word ∈ keywords then .keyword else .ident) (word ++ rest) word.length,
        rest) := by
  have whole : (word ++ rest).takeWhile isIdentRest = word :=
    takeWhile_delimited (isIdent_rest ident) (delimits.head (by decide) (by decide))
  simp only [lexWord, whole, List.drop_left]

theorem keywords_ident : ∀ word ∈ keywords, isIdent word = true := by decide

theorem punctuators3_facts : ∀ s ∈ punctuators3, s.length = 3 ∧ s.head? ≠ some '(' ∧
    ∀ c ∈ s, c ≠ ' ' ∧ c ≠ ')' := by
  simp [punctuators3]

theorem punctuators2_facts : ∀ s ∈ punctuators2, s.length = 2 ∧ s.head? ≠ some '(' ∧
    ∀ c ∈ s, c ≠ ' ' ∧ c ≠ ')' := by
  simp [punctuators2]

theorem punctuators1_facts : ∀ s ∈ punctuators1, s.length = 1 := by decide

/-- A punctuator is not read past its end. -/
theorem take_not_longer {word rest : List Char} {size : Nat} {longer : List (List Char)}
    (facts : ∀ s ∈ longer, s.length = size ∧ s.head? ≠ some '(' ∧
      ∀ c ∈ s, c ≠ ' ' ∧ c ≠ ')')
    (short : word.length < size) (some : word ≠ [])
    (delimits : word = ['('] ∨ Delimits rest) : (word ++ rest).take size ∉ longer := by
  intro member
  obtain ⟨length, head, inside⟩ := facts _ member
  rcases delimits with rfl | delimits
  · cases size with
    | zero => exact absurd short (by simp)
    | succ size => exact head rfl
  · cases rest with
    | nil =>
        rw [List.append_nil, List.length_take] at length
        omega
    | cons c rest =>
        have found : c ∈ (word ++ c :: rest).take size := by
          rw [List.take_append, List.mem_append]
          right
          obtain ⟨extra, positive⟩ : ∃ extra, size - word.length = extra + 1 :=
            ⟨size - word.length - 1, by omega⟩
          rw [positive, List.take_succ_cons]
          exact List.mem_cons_self
        rcases delimits c rfl with rfl | rfl
        · exact (inside _ found).1 rfl
        · exact (inside _ found).2 rfl

theorem lexPunct_printed {word rest : List Char} (punctuator : word ∈ punctuators)
    (delimits : word = ['('] ∨ Delimits rest) : lexPunct (word ++ rest) = some word.length := by
  simp only [punctuators, List.mem_append] at punctuator
  unfold lexPunct
  rcases punctuator with (three | two) | one
  · have length := (punctuators3_facts word three).1
    rw [if_pos (by rwa [← length, List.take_left]), length]
  · have length := (punctuators2_facts word two).1
    have some : word ≠ [] := by
      rintro rfl
      cases length
    rw [if_neg (take_not_longer punctuators3_facts (by omega) some delimits),
      if_pos (by rwa [← length, List.take_left]), length]
  · have length := punctuators1_facts word one
    have some : word ≠ [] := by
      rintro rfl
      cases length
    rw [if_neg (take_not_longer punctuators3_facts (by omega) some delimits),
      if_neg (take_not_longer punctuators2_facts (by omega) some delimits),
      if_pos (by rwa [← length, List.take_left]), length]

/-! Strings. -/

theorem escape_accumulate {build : Build} {value digit : Nat} (small : value < 64)
    (octal : digit < 8) :
    (ccAccumulate build 8 ((value : Int) % 2 ^ build.bits).toNat digit).map
      (fun next => (next : Int).bmod (2 ^ 32)) = .ok ((value * 8 + digit : Nat) : Int) := by
  have kept : ((value : Int) % 2 ^ build.bits).toNat = value := by
    cases build with
    | host => simp only [Build.bits]; omega
    | native => simp only [Build.bits]; omega
  have fits : ¬(build.literalMax - digit) / 8 < value := by
    cases build with
    | host => simp only [Build.literalMax]; omega
    | native => simp only [Build.literalMax]; omega
  rw [kept, ccAccumulate, if_neg fits]
  exact congrArg Except.ok (Int.bmod_eq_of_le (by omega) (by omega))

theorem digitValue_octalDigit (n : Nat) : digitValue (octalDigit n) = n % 8 := by
  have digits : ∀ d < 8, digitValue (octalDigit d) = d := by decide
  have same : octalDigit n = octalDigit (n % 8) := by simp [octalDigit]
  rw [same]
  exact digits _ (Nat.mod_lt n (by omega))

theorem octalDigits_byte (build : Build) {n : Nat} (byte : n < 256) :
    (readEscapeDigits build 8 [octalDigit (n / 64), octalDigit (n / 8), octalDigit n]).map
      (BitVec.ofInt 8) = .ok (BitVec.ofNat 8 n) := by
  have first := @escape_accumulate build 0 (n / 64 % 8) (by omega) (by omega)
  have second := @escape_accumulate build (n / 64 % 8) (n / 8 % 8) (by omega) (by omega)
  have third := @escape_accumulate build (n / 64 % 8 * 8 + n / 8 % 8) (n % 8) (by omega) (by omega)
  have whole : (n / 64 % 8 * 8 + n / 8 % 8) * 8 + n % 8 = n := by omega
  rw [Nat.zero_mul, Nat.zero_add, show ((0 : Nat) : Int) = 0 from rfl] at first
  rw [whole] at third
  simp only [readEscapeDigits, List.foldlM_cons, List.foldlM_nil, digitValue_octalDigit]
  have goesOn (value : Int) (f : Int → Except Failure Int) : (.ok value >>= f) = f value := rfl
  rw [first, goesOn, second, goesOn, third, goesOn]
  simp only [pure, Except.pure, Except.map, BitVec.ofInt_natCast]

theorem octalDigit_octal (n : Nat) : isOctalDigit (octalDigit n) = true ∧
    plainEscapes.find? (fun entry => entry.1 = octalDigit n) = none := by
  have digits : ∀ d < 8, isOctalDigit (octalDigit d) = true ∧
      plainEscapes.find? (fun entry => entry.1 = octalDigit d) = none := by decide
  have same : octalDigit n = octalDigit (n % 8) := by simp [octalDigit]
  rw [same]
  exact digits _ (Nat.mod_lt n (by decide))

theorem getEscape_octal (build : Build) (byte : BitVec 8) (rest : List Char) :
    getEscape build (octalDigit (byte.toNat / 64) :: octalDigit (byte.toNat / 8) ::
      octalDigit byte.toNat :: rest) = .ok (byte, rest) := by
  have value := octalDigits_byte build byte.isLt
  unfold getEscape
  simp only [(octalDigit_octal _).2, (octalDigit_octal _).1, if_true, List.take_succ_cons,
    List.take_zero, List.takeWhile_cons, List.takeWhile_nil, List.length_cons, List.length_nil,
    Nat.reduceAdd, List.drop_succ_cons, List.drop_zero]
  obtain ⟨read, done, same⟩ := Except.of_map_ok value
  rw [done]
  simp only [Except.map, same, BitVec.ofNat_toNat, BitVec.setWidth_eq]

theorem byteText_cases (byte : BitVec 8) :
    (∃ c, byteText byte = ['\\', c] ∧ ∀ build rest, getEscape build (c :: rest) =
      .ok (byte, rest)) ∨
    (∃ a b c, byteText byte = ['\\', a, b, c] ∧ ∀ build rest,
      getEscape build (a :: b :: c :: rest) = .ok (byte, rest)) ∨
    (∃ c, byteText byte = [c] ∧ c ≠ '"' ∧ c ≠ '\\' ∧ charByte c = byte) := by
  unfold byteText
  split
  · rename_i quote
    left
    refine ⟨_, rfl, ?_⟩
    intro build rest
    rcases quote with rfl | rfl <;> rfl
  · rename_i quote
    split
    · right
      left
      exact ⟨_, _, _, rfl, fun build rest => getEscape_octal build byte rest⟩
    · rename_i plain
      right
      right
      have code : (Char.ofNat byte.toNat).toNat = byte.toNat := by
        have valid : byte.toNat.isValidChar := Or.inl (by have := byte.isLt; omega)
        rw [Char.ofNat, dif_pos valid]
        rfl
      refine ⟨_, rfl, ?_, ?_, ?_⟩
      · intro same
        rw [same] at code
        exact quote (Or.inl (BitVec.eq_of_toNat_eq code.symm))
      · intro same
        rw [same] at code
        exact quote (Or.inr (BitVec.eq_of_toNat_eq code.symm))
      · rw [charByte, code, BitVec.ofNat_toNat, BitVec.setWidth_eq]

theorem byteText_length (byte : BitVec 8) : 1 ≤ (byteText byte).length := by
  rcases byteText_cases byte with ⟨c, same, _⟩ | ⟨a, b, c, same, _⟩ | ⟨c, same, _⟩ <;>
    simp [same]

theorem stringBody_byte {build : Build} {fuel : Nat} {byte : BitVec 8} {text rest : List Char}
    {bytes : List (BitVec 8)} (later : stringBody build fuel text = .ok (some (bytes, rest))) :
    stringBody build (fuel + 1) (byteText byte ++ text) = .ok (some (byte :: bytes, rest)) := by
  rcases byteText_cases byte with ⟨c, same, escape⟩ | ⟨a, b, c, same, escape⟩ |
    ⟨c, same, quote, slash, value⟩
  · rw [same]
    simp [stringBody, escape, later, bind, Except.bind, pure, Except.pure]
  · rw [same]
    simp [stringBody, escape, later, bind, Except.bind, pure, Except.pure]
  · rw [same]
    simp [stringBody, quote, slash, value, later, bind, Except.bind, pure, Except.pure]

theorem stringBody_printed {build : Build} {fuel : Nat} {bytes : List (BitVec 8)}
    {rest : List Char} (enough : bytes.length < fuel) :
    stringBody build fuel (bytes.flatMap byteText ++ '"' :: rest) = .ok (some (bytes, rest)) := by
  induction bytes generalizing fuel with
  | nil =>
      obtain ⟨fuel, rfl⟩ : ∃ less, fuel = less + 1 := ⟨fuel - 1, by simp at enough; omega⟩
      simp [stringBody]
  | cons byte bytes ih =>
      obtain ⟨fuel, rfl⟩ : ∃ less, fuel = less + 1 := ⟨fuel - 1, by simp at enough; omega⟩
      rw [List.flatMap_cons, List.append_assoc]
      exact stringBody_byte (ih (by simpa using enough))

theorem flatMap_byteText_length (bytes : List (BitVec 8)) :
    bytes.length ≤ (bytes.flatMap byteText).length := by
  induction bytes with
  | nil => simp
  | cons byte bytes ih =>
      have one := byteText_length byte
      simp only [List.flatMap_cons, List.length_cons, List.length_append]
      omega

theorem lexString_printed (build : Build) (bytes : List (BitVec 8)) (rest : List Char) :
    ∃ t, lexString build ('"' :: (bytes.flatMap byteText ++ '"' :: rest)) = .ok (t, rest) ∧
      t.kind = .str ∧ t.val = 0 ∧ t.isUnsigned = false ∧ t.str = bytes := by
  have length := flatMap_byteText_length bytes
  have body : stringBody build ('"' :: (bytes.flatMap byteText ++ '"' :: rest)).length
      (bytes.flatMap byteText ++ '"' :: rest) = .ok (some (bytes, rest)) :=
    stringBody_printed (by simp only [List.length_cons, List.length_append]; omega)
  unfold lexString
  simp only [List.drop_succ_cons, List.drop_zero, body, bind, Except.bind, pure, Except.pure]
  exact ⟨_, rfl, rfl, rfl, rfl, rfl⟩

/-! Tokens. -/

theorem toCcInt_small {build : Build} {n : Nat} (fits : n ≤ build.literalMax)
    (signed : build = .native → n ≤ 0x7fffffff) : build.toCcInt n = n := by
  cases build with
  | host =>
      simp only [Build.literalMax] at fits
      simp only [Build.toCcInt, Build.bits]
      rw [Int.bmod_eq_of_le] <;> omega
  | native =>
      have small := signed rfl
      simp only [Build.toCcInt, Build.bits]
      rw [Int.bmod_eq_of_le] <;> omega

theorem decimalText_nat (n : Nat) : decimalText n = Nat.toDigits 10 n := by
  rw [decimalText, if_neg (by omega), Int.toNat_natCast]

theorem numberText_proper {build : Build} {t : Token} {n : Nat} (fits : n ≤ build.literalMax)
    (value : t.val = build.toCcInt n)
    (unsigned : build = .native → 0x7fffffff < n → t.isUnsigned = true) :
    numberText build t = Nat.toDigits 10 n ++ (if t.isUnsigned then ['u'] else []) := by
  unfold numberText
  have printed : (if build = .native && t.isUnsigned then t.val % 2 ^ 32 else t.val) = n := by
    split
    · rename_i wrapped
      simp only [Bool.and_eq_true, decide_eq_true_eq] at wrapped
      rw [value, wrapped.1]
      rw [wrapped.1] at fits
      simp only [Build.literalMax] at fits
      simp only [Build.toCcInt, Build.bits]
      rw [Int.bmod_def]
      split <;> omega
    · rename_i plain
      rw [value]
      apply toCcInt_small fits
      rintro rfl
      by_contra large
      exact plain (by simpa using unsigned rfl (by omega))
  rw [printed, decimalText_nat]

theorem lexToken_number {build : Build} {n : Nat} (rest : List Char) :
    lexToken build (Nat.toDigits 10 n ++ rest) = lexNumber build (Nat.toDigits 10 n ++ rest) := by
  obtain ⟨c, more, same⟩ : ∃ c more, Nat.toDigits 10 n = c :: more :=
    List.exists_cons_of_ne_nil Nat.toDigits_ne_nil
  have member : c ∈ Nat.toDigits 10 n := by
    rw [same]
    exact List.mem_cons_self
  have digit : c.isDigit = true := Nat.isDigit_of_mem_toDigits (by decide) (by decide) member
  rw [same, List.cons_append, lexToken, if_pos digit]

theorem identStart_not_digit {c : Char} (start : isIdentStart c = true) : c.isDigit = false := by
  unfold isIdentStart Char.isAlpha Char.isUpper Char.isLower at start
  simp only [Char.isDigit, Bool.or_eq_true, Bool.and_eq_true, decide_eq_true_eq,
    Bool.and_eq_false_iff, decide_eq_false_iff_not] at start ⊢
  rcases start with rfl | (⟨low, high⟩ | ⟨low, high⟩)
  · right
    decide
  · right
    intro digit
    exact absurd (UInt32.le_trans low digit) (by decide)
  · right
    intro digit
    exact absurd (UInt32.le_trans low digit) (by decide)

theorem lexToken_word {build : Build} {word : List Char} (ident : isIdent word = true)
    (rest : List Char) : lexToken build (word ++ rest) = .ok (lexWord (word ++ rest)) := by
  cases word with
  | nil => cases ident
  | cons c more =>
      simp only [isIdent, Bool.and_eq_true] at ident
      rw [List.cons_append, lexToken, if_neg (by simp [identStart_not_digit ident.1]),
        if_pos ident.1]

theorem punctuators_start : ∀ s ∈ punctuators, s.head?.all fun c =>
    !c.isDigit && !isIdentStart c && !isSpace c && c ≠ '"' := by decide

theorem punctuators_some : ∀ s ∈ punctuators, s ≠ [] := by decide

theorem lexToken_punct {build : Build} {word rest : List Char} (punctuator : word ∈ punctuators)
    (delimits : word = ['('] ∨ Delimits rest) :
    lexToken build (word ++ rest) = .ok (newToken .punct (word ++ rest) word.length, rest) := by
  have found := lexPunct_printed punctuator delimits
  have start := punctuators_start word punctuator
  cases word with
  | nil => exact absurd rfl (punctuators_some [] punctuator)
  | cons c more =>
      simp only [List.head?_cons, Option.all_some, Bool.and_eq_true, Bool.not_eq_true'] at start
      rw [List.cons_append] at found ⊢
      rw [lexToken, if_neg (by simp [start.1.1.1]), if_neg (by simp [start.1.1.2]), found]
      dsimp only
      rw [← List.cons_append, List.drop_left]

theorem lexToken_string {build : Build} (text : List Char) :
    lexToken build ('"' :: text) = lexString build ('"' :: text) := rfl

/-- What follows the text of a token: anything after an opening parenthesis. -/
def Follows (t : Token) (rest : List Char) : Prop := tokIs t "(" = true ∨ Delimits rest

theorem sameToken_plain {t : Token} (val : t.val = 0) (sign : t.isUnsigned = false)
    (str : t.str = []) (rest : List Char) :
    SameToken t (newToken t.kind (t.text ++ rest) t.text.length) :=
  ⟨rfl, val, sign, str, fun _ => (List.take_left).symm⟩

/-- The text of a token is read as the same token, with nothing of what follows it. -/
theorem lexToken_printed {build : Build} {t : Token} {rest : List Char} (proper : Proper build t)
    (some : t.kind ≠ .eof) (follows : Follows t rest) :
    ∃ u, lexToken build (tokenText build t ++ rest) = .ok (u, rest) ∧ SameToken t u := by
  have other (kind : t.kind ≠ .punct) (word : isIdent t.text = true ∨ t.kind = .num ∨
      t.kind = .str) : Delimits rest := by
    rcases follows with opening | delimits
    · simp only [tokIs, Bool.and_eq_true, Bool.or_eq_true, decide_eq_true_eq] at opening
      obtain ⟨⟨keyword, _⟩, text⟩ := opening
      rcases word with ident | other | other
      · rw [text] at ident
        exact absurd ident (by decide)
      · rw [other] at keyword
        simp at keyword
      · rw [other] at keyword
        simp at keyword
    · exact delimits
  unfold Proper at proper
  cases kind : t.kind with
  | eof => exact absurd kind some
  | num =>
      rw [kind] at proper
      obtain ⟨plain, n, fits, value, unsigned⟩ := proper
      obtain ⟨u, read, same, val, str, sign⟩ := @lexNumber_printed build n t.isUnsigned rest fits
        (other (by simp [kind]) (Or.inr (Or.inl kind)))
      refine ⟨u, ?_, ⟨by rw [same, kind], by rw [val, value], ?_, by rw [str, plain], ?_⟩⟩
      · simp only [tokenText, kind]
        rw [numberText_proper fits value unsigned, List.append_assoc, lexToken_number, read]
      · rw [sign]
        cases signed : t.isUnsigned with
        | true => rfl
        | false =>
            symm
            simp only [Bool.false_or, Bool.and_eq_false_iff, decide_eq_false_iff_not]
            by_contra native
            push Not at native
            have raised := unsigned native.1 native.2
            rw [signed] at raised
            cases raised
      · simp [kind]
  | str =>
      rw [kind] at proper
      obtain ⟨u, read, same, val, sign, str⟩ := lexString_printed build t.str rest
      refine ⟨u, ?_, ⟨by rw [same, kind], by rw [val, proper.1], by rw [sign, proper.2],
        by rw [str], by simp [kind]⟩⟩
      simp only [tokenText, kind, List.cons_append, List.append_assoc, List.nil_append]
      exact read
  | ident =>
      rw [kind] at proper
      obtain ⟨ident, plain, val, sign, str⟩ := proper
      have delimits := other (by simp [kind]) (Or.inl ident)
      refine ⟨newToken t.kind (t.text ++ rest) t.text.length, ?_, sameToken_plain val sign str rest⟩
      simp only [tokenText, kind]
      rw [lexToken_word ident, lexWord_printed ident delimits, if_neg plain]
  | keyword =>
      rw [kind] at proper
      obtain ⟨word, val, sign, str⟩ := proper
      have ident := keywords_ident t.text word
      have delimits := other (by simp [kind]) (Or.inl ident)
      refine ⟨newToken t.kind (t.text ++ rest) t.text.length, ?_, sameToken_plain val sign str rest⟩
      simp only [tokenText, kind]
      rw [lexToken_word ident, lexWord_printed ident delimits, if_pos word]
  | punct =>
      rw [kind] at proper
      obtain ⟨punctuator, val, sign, str⟩ := proper
      refine ⟨newToken t.kind (t.text ++ rest) t.text.length, ?_, sameToken_plain val sign str rest⟩
      simp only [tokenText, kind]
      refine lexToken_punct punctuator ?_
      rcases follows with opening | delimits
      · simp only [tokIs, Bool.and_eq_true, decide_eq_true_eq] at opening
        exact Or.inl opening.2
      · exact Or.inr delimits

/-- The text goes on with a token, not with a blank or a comment. -/
def StartsToken (text : List Char) : Prop :=
  ∃ c more, text = c :: more ∧ isSpace c = false ∧
    (c = '/' → more.head? ≠ some '/' ∧ more.head? ≠ some '*')

theorem startsToken_digit {c : Char} (digit : c.isDigit = true) (more : List Char) :
    StartsToken (c :: more) := by
  simp only [Char.isDigit, Bool.and_eq_true, decide_eq_true_eq, UInt32.le_iff_toNat_le] at digit
  refine ⟨c, more, rfl, ?_, ?_⟩
  · have low : 48 ≤ c.toNat := digit.1
    simp only [isSpace, Bool.or_eq_false_iff, decide_eq_false_iff_not, Bool.and_eq_false_iff]
    refine ⟨?_, by omega⟩
    rintro rfl
    exact absurd low (by decide)
  · rintro rfl
    exact absurd digit.1 (by decide)

theorem startsToken_ident {word : List Char} (ident : isIdent word = true) (rest : List Char) :
    StartsToken (word ++ rest) := by
  cases word with
  | nil => cases ident
  | cons c more =>
      simp only [isIdent, Bool.and_eq_true] at ident
      refine ⟨c, more ++ rest, rfl, ?_, ?_⟩
      · by_contra space
        have space : isSpace c = true := by simpa using space
        have start := ident.1
        simp only [isSpace, Bool.or_eq_true, Bool.and_eq_true, decide_eq_true_eq] at space
        unfold isIdentStart Char.isAlpha Char.isUpper Char.isLower at start
        simp only [Bool.or_eq_true, Bool.and_eq_true, decide_eq_true_eq,
          UInt32.le_iff_toNat_le] at start
        rcases space with rfl | small
        · exact absurd start (by decide)
        · rcases start with rfl | (upper | lower)
          · exact absurd small (by decide)
          · have low : 65 ≤ c.toNat := upper.1
            omega
          · have low : 97 ≤ c.toNat := lower.1
            omega
      · rintro rfl
        exact absurd ident.1 (by decide)

theorem punctuators_slash : ∀ s ∈ punctuators, s.head? = some '/' →
    s = ['/'] ∨ s = ['/', '='] := by decide

theorem startsToken_punct {word rest : List Char} (punctuator : word ∈ punctuators)
    (delimits : word = ['('] ∨ Delimits rest) : StartsToken (word ++ rest) := by
  have start := punctuators_start word punctuator
  have slash := punctuators_slash word punctuator
  cases word with
  | nil => exact absurd rfl (punctuators_some [] punctuator)
  | cons c more =>
      simp only [List.head?_cons, Option.all_some, Bool.and_eq_true, Bool.not_eq_true'] at start
      refine ⟨c, more ++ rest, rfl, start.1.2, ?_⟩
      rintro rfl
      rcases slash rfl with same | same
      · cases same
        rcases delimits with other | delimits
        · cases other
        · constructor
          · intro found
            exact absurd (delimits _ found) (by decide)
          · intro found
            exact absurd (delimits _ found) (by decide)
      · cases same
        exact ⟨by simp, by simp⟩

theorem startsToken_printed {build : Build} {t : Token} {rest : List Char}
    (proper : Proper build t) (some : t.kind ≠ .eof) (follows : Follows t rest) :
    StartsToken (tokenText build t ++ rest) := by
  unfold Proper at proper
  unfold tokenText
  cases kind : t.kind with
  | eof => exact absurd kind some
  | num =>
      rw [kind] at proper
      obtain ⟨_, n, fits, value, unsigned⟩ := proper
      obtain ⟨c, more, same⟩ : ∃ c more, Nat.toDigits 10 n = c :: more :=
        List.exists_cons_of_ne_nil Nat.toDigits_ne_nil
      have member : c ∈ Nat.toDigits 10 n := by
        rw [same]
        exact List.mem_cons_self
      dsimp only
      rw [numberText_proper fits value unsigned, same]
      exact startsToken_digit (Nat.isDigit_of_mem_toDigits (by decide) (by decide) member) _
  | str => exact ⟨'"', _, rfl, rfl, fun slash => absurd slash (by decide)⟩
  | ident =>
      rw [kind] at proper
      exact startsToken_ident proper.1 rest
  | keyword =>
      rw [kind] at proper
      exact startsToken_ident (keywords_ident _ proper.1) rest
  | punct =>
      rw [kind] at proper
      refine startsToken_punct proper.1 ?_
      rcases follows with opening | delimits
      · simp only [tokIs, Bool.and_eq_true, decide_eq_true_eq] at opening
        exact Or.inl opening.2
      · exact Or.inr delimits

/-! Chains. -/

theorem tokenizeFrom_token {build : Build} {fuel : Nat} {bol : Bool} {text rest : List Char}
    {t : Token} {later : List Token} (starts : StartsToken text)
    (first : lexToken build text = .ok (t, rest))
    (next : tokenizeFrom build fuel false rest = .ok later) :
    tokenizeFrom build (fuel + 1) bol text = .ok ({ t with atBol := bol } :: later) := by
  obtain ⟨c, more, rfl, space, slash⟩ := starts
  rw [tokenizeFrom, if_neg (by simp [space]), if_neg (fun both => (slash both.1).1 both.2),
    if_neg (fun both => (slash both.1).2 both.2)]
  simp only [first, next, bind, Except.bind, pure, Except.pure]

theorem unparseFrom_follows {build : Build} {t : Token} {rest : List Token}
    (proper : ∀ u ∈ rest, Proper build u) :
    Follows t (unparseFrom build (some t) rest) := by
  unfold Follows
  cases rest with
  | nil => exact Or.inr (by simp [Delimits, unparseFrom])
  | cons u more =>
      unfold unparseFrom
      split
      · exact Or.inr (by simp [Delimits])
      · by_cases opening : tokIs t "(" = true
        · exact Or.inl opening
        · right
          by_cases closing : tokIs u ")" = true
          · have plain : needsSpace t u = false := by simp [needsSpace, closing]
            simp only [Option.any_some, plain, Bool.false_eq_true, if_false, List.nil_append]
            have first := proper u List.mem_cons_self
            simp only [tokIs, Bool.and_eq_true, Bool.or_eq_true, decide_eq_true_eq] at closing
            obtain ⟨⟨kind, _⟩, text⟩ := closing
            have printed : tokenText build u = u.text := by
              unfold tokenText
              rcases kind with kind | kind <;> rw [kind]
            rw [printed, text]
            intro c found
            cases found
            exact Or.inr rfl
          · have blank : needsSpace t u = true := by simp [needsSpace, opening, closing]
            simp only [Option.any_some, blank, if_true]
            intro c found
            cases found
            exact Or.inl rfl

theorem SameToken.atBol {t u : Token} (same : SameToken t u) (bol : Bool) :
    SameToken t { u with atBol := bol } :=
  ⟨same.kind, same.val, same.isUnsigned, same.str, same.text⟩

theorem tokenizeFrom_blank {build : Build} {fuel : Nat} {bol : Bool} {text : List Char} :
    tokenizeFrom build (fuel + 1) bol (' ' :: text) = tokenizeFrom build fuel bol text := by
  rw [tokenizeFrom, if_pos (by decide)]
  simp

/-- The text of a chain is read as the tokens before its end. -/
theorem tokenizeFrom_unparse {build : Build} {fuel : Nat} {bol : Bool} {prev : Option Token}
    {tokens : List Token} (proper : ∀ t ∈ tokens, Proper build t)
    (enough : (unparseFrom build prev tokens).length < fuel) :
    ∃ read, tokenizeFrom build fuel bol (unparseFrom build prev tokens) =
        .ok (read ++ [newToken .eof [] 0]) ∧
      List.Forall₂ SameToken (tokens.takeWhile fun t => t.kind ≠ .eof) read := by
  induction tokens generalizing fuel bol prev with
  | nil =>
      obtain ⟨fuel, rfl⟩ : ∃ less, fuel = less + 1 := ⟨fuel - 1, by omega⟩
      exact ⟨[], rfl, by simp⟩
  | cons t rest ih =>
      have proper' : ∀ u ∈ rest, Proper build u := fun u member =>
        proper u (List.mem_cons_of_mem t member)
      by_cases last : t.kind = .eof
      · obtain ⟨fuel, rfl⟩ : ∃ less, fuel = less + 1 := ⟨fuel - 1, by omega⟩
        rw [unparseFrom, if_pos last]
        exact ⟨[], rfl, by simp [last]⟩
      · have after : Follows t (unparseFrom build (some t) rest) := unparseFrom_follows proper'
        have starts := startsToken_printed (proper t List.mem_cons_self) last after
        obtain ⟨u, first, same⟩ := lexToken_printed (proper t List.mem_cons_self) last after
        have positive : 0 < (tokenText build t).length := by
          obtain ⟨c, more, text, _⟩ := startsToken_printed (proper t List.mem_cons_self) last
            (Or.inr (by simp [Delimits] : Delimits []))
          rw [List.append_nil] at text
          simp [text]
        have body (fuel : Nat) (bol : Bool)
            (enough : (tokenText build t ++ unparseFrom build (some t) rest).length < fuel) :
            ∃ read, tokenizeFrom build fuel bol
                (tokenText build t ++ unparseFrom build (some t) rest) =
                .ok (read ++ [newToken .eof [] 0]) ∧
              List.Forall₂ SameToken ((t :: rest).takeWhile fun t => t.kind ≠ .eof) read := by
          obtain ⟨fuel, rfl⟩ : ∃ less, fuel = less + 1 := ⟨fuel - 1, by omega⟩
          rw [List.length_append] at enough
          obtain ⟨read, later, pairs⟩ := @ih fuel false (some t) proper' (by omega)
          refine ⟨{ u with atBol := bol } :: read, tokenizeFrom_token starts first later, ?_⟩
          simp only [List.takeWhile_cons, last, ne_eq, not_false_eq_true, decide_true, if_true]
          exact List.Forall₂.cons (same.atBol bol) pairs
        rw [unparseFrom, if_neg last] at enough ⊢
        split
        · rename_i blank
          rw [if_pos blank] at enough
          obtain ⟨fuel, rfl⟩ : ∃ less, fuel = less + 1 := ⟨fuel - 1, by omega⟩
          rw [List.cons_append, List.nil_append, tokenizeFrom_blank]
          exact body fuel bol (by simpa using enough)
        · rename_i joined
          rw [if_neg joined] at enough
          exact body fuel bol enough

theorem tokenize_unparse {build : Build} {tokens : List Token}
    (proper : ∀ t ∈ tokens, Proper build t) :
    ∃ read, tokenize build (unparse build tokens) = .ok (read ++ [newToken .eof [] 0]) ∧
      List.Forall₂ SameToken (tokens.takeWhile fun t => t.kind ≠ .eof) read :=
  tokenizeFrom_unparse proper (Nat.lt_succ_self _)

/-! The lexer makes proper tokens. -/

theorem readDigits_bound {build : Build} {base start n : Nat} {digits : List Char}
    (positive : 0 < base) (below : start ≤ build.literalMax)
    (small : ∀ c ∈ digits, digitValue c < base ∧ digitValue c ≤ build.literalMax)
    (read : readDigits build base start digits = .ok n) : n ≤ build.literalMax := by
  induction digits generalizing start with
  | nil =>
      cases read
      exact below
  | cons c rest ih =>
      simp only [readDigits, List.foldlM_cons] at read
      obtain ⟨value, first, later⟩ := Except.of_bind_ok read
      refine ih ?_ (fun d member => small d (List.mem_cons_of_mem c member)) later
      unfold ccAccumulate at first
      split at first
      · cases first
      · rename_i fits
        cases first
        have digit := (small c List.mem_cons_self).2
        rw [Nat.not_lt, Nat.le_div_iff_mul_le positive] at fits
        omega

theorem literalMax_large (build : Build) : 36 ≤ build.literalMax := by
  cases build <;> decide

theorem digitValue_digit {c : Char} (digit : c.isDigit = true) : digitValue c < 10 := by
  simp only [Char.isDigit, Bool.and_eq_true, decide_eq_true_eq, UInt32.le_iff_toNat_le] at digit
  have high : c.toNat ≤ 57 := digit.2
  have range : '0' ≤ c ∧ c ≤ '9' := ⟨UInt32.le_iff_toNat_le.mpr digit.1,
    UInt32.le_iff_toNat_le.mpr digit.2⟩
  rw [digitValue, if_pos range]
  have zero : '0'.toNat = 48 := rfl
  omega

theorem digitValue_octal {c : Char} (octal : isOctalDigit c = true) : digitValue c < 8 := by
  simp only [isOctalDigit, Bool.and_eq_true, decide_eq_true_eq] at octal
  have high : c.toNat ≤ 55 := UInt32.le_iff_toNat_le.mp octal.2
  have range : '0' ≤ c ∧ c ≤ '9' := ⟨octal.1, UInt32.le_trans octal.2 (by decide)⟩
  rw [digitValue, if_pos range]
  have zero : '0'.toNat = 48 := rfl
  omega

theorem readDigits_run {build : Build} {base n : Nat} {p : Char → Bool} {text : List Char}
    (positive : 0 < base) (small : base ≤ 36) (digits : ∀ c, p c = true → digitValue c < base)
    (read : readDigits build base 0 (text.takeWhile p) = .ok n) : n ≤ build.literalMax := by
  refine readDigits_bound positive (Nat.zero_le _) ?_ read
  intro c member
  have below := digits c (List.mem_takeWhile_imp member)
  have large := literalMax_large build
  omega

theorem numberDigits_bound {build : Build} {start rest : List Char} {n : Nat}
    (read : numberDigits build start = .ok (n, rest)) : n ≤ build.literalMax := by
  have decimal {text : List Char} {value : Nat}
      (done : readDigits build 10 0 (text.takeWhile Char.isDigit) = .ok value) :
      value ≤ build.literalMax :=
    readDigits_run (by decide) (by decide) (fun c => digitValue_digit) done
  unfold numberDigits at read
  split at read
  · dsimp only at read
    split at read
    · split at read
      · cases read
      · obtain ⟨value, done, same⟩ := Except.of_map_ok read
        cases same
        refine readDigits_run (by decide) (by decide) (fun c hex => ?_) done
        simpa [isHexDigit] using hex
    · split at read
      · obtain ⟨value, done, later⟩ := Except.of_bind_ok read
        split at later
        · cases later
          exact readDigits_run (by decide) (by decide) (fun c => digitValue_octal) done
        · obtain ⟨last, done, same⟩ := Except.of_map_ok later
          cases same
          exact decimal done
      · obtain ⟨value, done, same⟩ := Except.of_map_ok read
        cases same
        exact decimal done
  · obtain ⟨value, done, same⟩ := Except.of_map_ok read
    cases same
    exact decimal done

theorem lexNumber_proper {build : Build} {start rest : List Char} {t : Token}
    (lexed : lexNumber build start = .ok (t, rest)) : Proper build t := by
  obtain ⟨digits, read, later⟩ := Except.of_bind_ok lexed
  dsimp only at later
  split at later
  · cases later
  · cases later
    refine ⟨rfl, digits.1, numberDigits_bound read, rfl, ?_⟩
    rintro rfl large
    simp [large]

theorem lexString_proper {build : Build} {start rest : List Char} {t : Token}
    (lexed : lexString build start = .ok (t, rest)) : Proper build t := by
  obtain ⟨body, read, later⟩ := Except.of_bind_ok lexed
  cases body with
  | none => cases later
  | some body =>
      cases later
      exact ⟨rfl, rfl⟩

theorem lexChar_proper {build : Build} {start rest : List Char} {t : Token}
    (lexed : lexChar build start = .ok (t, rest)) : Proper build t := by
  obtain ⟨value, read, later⟩ := Except.of_bind_ok lexed
  dsimp only at later
  split at later
  · cases later
    have small := value.1.isLt
    have fits : value.1.toNat ≤ build.literalMax := by
      cases build <;> simp only [Build.literalMax] <;> omega
    refine ⟨rfl, value.1.toNat, fits, ?_, ?_⟩
    · exact (toCcInt_small fits (by omega)).symm
    · omega
  · cases later

theorem lexWord_proper {build : Build} {c : Char} {rest : List Char}
    (start : isIdentStart c = true) : Proper build (lexWord (c :: rest)).1 := by
  have first : isIdentRest c = true := by
    simp only [isIdentStart, isIdentRest, Char.isAlphanum, Bool.or_eq_true] at start ⊢
    tauto
  have word : (c :: rest).takeWhile isIdentRest = c :: rest.takeWhile isIdentRest := by
    simp [first]
  have ident : isIdent ((c :: rest).takeWhile isIdentRest) = true := by
    rw [word]
    simp only [isIdent, start, Bool.true_and, List.all_eq_true]
    exact fun d member => List.mem_takeWhile_imp member
  have text : (lexWord (c :: rest)).1.text = (c :: rest).takeWhile isIdentRest :=
    (List.prefix_iff_eq_take.mp (List.takeWhile_prefix _)).symm
  by_cases keyword : (c :: rest).takeWhile isIdentRest ∈ keywords
  · have kind : (lexWord (c :: rest)).1.kind = .keyword := by
      simp only [lexWord, newToken, if_pos keyword]
    unfold Proper
    rw [kind, text]
    exact ⟨keyword, rfl, rfl, rfl⟩
  · have kind : (lexWord (c :: rest)).1.kind = .ident := by
      simp only [lexWord, newToken, if_neg keyword]
    unfold Proper
    rw [kind, text]
    exact ⟨ident, keyword, rfl, rfl, rfl⟩

theorem lexPunct_proper {build : Build} {start : List Char} {n : Nat}
    (found : lexPunct start = some n) : Proper build (newToken .punct start n) := by
  refine ⟨?_, rfl, rfl, rfl⟩
  change start.take n ∈ punctuators
  simp only [punctuators, List.mem_append]
  unfold lexPunct at found
  split at found
  · rename_i three
    cases found
    exact Or.inl (Or.inl three)
  · split at found
    · rename_i two
      cases found
      exact Or.inl (Or.inr two)
    · split at found
      · rename_i one
        cases found
        exact Or.inr one
      · cases found

theorem lexToken_proper {build : Build} {start rest : List Char} {t : Token}
    (lexed : lexToken build start = .ok (t, rest)) : Proper build t := by
  unfold lexToken at lexed
  split at lexed
  · cases lexed
  · split at lexed
    · exact lexNumber_proper lexed
    · split at lexed
      · rename_i start
        cases lexed
        exact lexWord_proper start
      · split at lexed
        · rename_i found
          cases lexed
          exact lexPunct_proper found
        · split at lexed
          · exact lexString_proper lexed
          · split at lexed
            · exact lexChar_proper lexed
            · cases lexed

theorem Lexed.proper {build : Build} {t : Token} (lexed : Lexed build t) : Proper build t := by
  obtain ⟨start, rest, u, bol, read, rfl⟩ := lexed
  have proper := lexToken_proper read
  exact proper

theorem tokenize_proper {build : Build} {text : List Char} {tokens : List Token}
    (read : tokenize build text = .ok tokens) : ∀ t ∈ tokens, Proper build t := by
  obtain ⟨before, rfl, made⟩ := tokenizeFrom_lexed read
  intro t member
  rcases List.mem_append.mp member with member | member
  · exact (made t member).proper
  · rw [List.mem_singleton.mp member]
    trivial

end SymphonyPlus
