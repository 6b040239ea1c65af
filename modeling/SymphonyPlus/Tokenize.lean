import SymphonyPlus.Asm
import SymphonyPlus.Results

/-!
The lexer of `symcc/src/tokenize.c`, in the host build and in the native one, whose integers
have 32 bits. A pointer into a text is the rest of the text from there on.
-/

namespace SymphonyPlus

inductive Build
  | host | native
  deriving DecidableEq, Repr

def Build.bits : Build → Nat
  | .host => 64
  | .native => 32

def Build.literalMax : Build → Nat
  | .host => 2 ^ 63 - 1
  | .native => 2 ^ 32 - 1

def Build.toCcInt (build : Build) (value : Int) : Int := value.bmod (2 ^ build.bits)

/-- How a run of the compiler ends early: with a message and status 1, or with an access outside
an object. -/
inductive Failure
  | exit (message : List Char)
  | fault
  deriving DecidableEq, Repr

def exitWith {α : Type} (message : String) : Except Failure α := .error (.exit message.toList)

def exitAt {α : Type} (message : String) (text : List Char) : Except Failure α :=
  .error (.exit (quoted message text "\n"))

inductive TokenKind
  | eof | num | ident | keyword | punct | str
  deriving DecidableEq, Repr

structure Token where
  kind : TokenKind
  val : Int
  loc : List Char
  len : Nat
  str : List (BitVec 8)
  isUnsigned : Bool
  atBol : Bool
  deriving DecidableEq, Repr

def newToken (kind : TokenKind) (start : List Char) (len : Nat) : Token :=
  { kind, val := 0, loc := start, len, str := [], isUnsigned := false, atBol := false }

def Token.text (t : Token) : List Char := t.loc.take t.len

def tokIs (t : Token) (s : String) : Bool :=
  (t.kind = .punct || t.kind = .keyword) && t.len = s.toList.length && t.text = s.toList

def tokAtBol (t : Token) : Bool := t.kind ≠ .eof && t.atBol

def punctuators3 : List (List Char) := ["<<=", ">>=", "..."].map String.toList

def punctuators2 : List (List Char) :=
  ["==", "!=", "<=", ">=", "&&", "||", "##", "<<", ">>", "+=", "-=", "*=", "/=", "%=",
   "&=", "|=", "^=", "++", "--", "->"].map String.toList

def punctuators1 : List (List Char) :=
  ["+", "-", "*", "/", "%", "(", ")", "\x7b", "\x7d", "=", ";", ",", "[", "]", "<", ">", "!",
   "&", "#", "?", ":", "^", "~", "|", "."].map String.toList

def keywords : List (List Char) :=
  ["return", "int", "char", "long", "short", "signed", "unsigned", "void", "if", "else",
   "while", "for", "typedef", "enum", "struct", "union", "static", "extern", "const",
   "volatile", "register", "inline", "sizeof", "break", "continue", "do", "switch", "case",
   "default", "goto"].map String.toList

def isHexDigit (c : Char) : Bool := digitValue c < 16

def isOctalDigit (c : Char) : Bool := '0' ≤ c && c ≤ '7'

def charByte (c : Char) : BitVec 8 := BitVec.ofNat 8 c.toNat

def ccAccumulate (build : Build) (base value digit : Nat) : Except Failure Nat :=
  if (build.literalMax - digit) / base < value then exitWith "integer literal out of range\n"
  else .ok (value * base + digit)

def readDigits (build : Build) (base start : Nat) (digits : List Char) : Except Failure Nat :=
  digits.foldlM (fun value c => ccAccumulate build base value (digitValue c)) start

/-- The digits of an escape are gathered in an `int`. -/
def readEscapeDigits (build : Build) (base : Nat) (digits : List Char) : Except Failure Int :=
  digits.foldlM (fun value c =>
    (ccAccumulate build base (value % 2 ^ build.bits).toNat (digitValue c)).map fun next =>
      (next : Int).bmod (2 ^ 32)) 0

def plainEscapes : List (Char × Nat) :=
  [('n', 10), ('t', 9), ('r', 13), ('v', 11), ('f', 12), ('a', 7), ('b', 8), ('\\', 92),
   ('"', 34), ('\'', 39), ('?', 63)]

/-- `get_escape`: the byte and the text after it. An unknown escape stands for its backslash. -/
def getEscape (build : Build) : List Char → Except Failure (BitVec 8 × List Char)
  | [] => .error .fault
  | c :: rest =>
      match plainEscapes.find? (fun entry => entry.1 = c) with
      | some entry => .ok (BitVec.ofNat 8 entry.2, rest)
      | none =>
          if isOctalDigit c then
            let digits := ((c :: rest).take 3).takeWhile isOctalDigit
            (readEscapeDigits build 8 digits).map fun value =>
              (BitVec.ofInt 8 value, (c :: rest).drop digits.length)
          else if c = 'x' then
            let digits := rest.takeWhile isHexDigit
            if digits = [] then .ok (charByte 'x', rest)
            else (readEscapeDigits build 16 digits).map fun value =>
              (BitVec.ofInt 8 value, rest.drop digits.length)
          else .ok (charByte '\\', rest)

def numberSuffix (unsuf longsuf : Bool) : List Char → Bool × List Char
  | [] => (unsuf, [])
  | c :: rest =>
      if !unsuf && (c = 'u' || c = 'U') then numberSuffix true longsuf rest
      else if !longsuf && (c = 'l' || c = 'L') then
        match rest with
        | [] => (unsuf, [])
        | d :: more =>
            if d = c then numberSuffix unsuf true more else numberSuffix unsuf true (d :: more)
      else (unsuf, c :: rest)

/-- The digits of a number: the value and the text after them. An octal number goes on with
decimal digits as a new number. -/
def numberDigits (build : Build) (start : List Char) : Except Failure (Nat × List Char) :=
  match start with
  | '0' :: x :: rest =>
      if x = 'x' || x = 'X' then
        let digits := rest.takeWhile isHexDigit
        if digits = [] then exitAt "bad hex literal: " start
        else (readDigits build 16 0 digits).map fun value => (value, rest.drop digits.length)
      else if isOctalDigit x then
        let digits := (x :: rest).takeWhile isOctalDigit
        let after := (x :: rest).drop digits.length
        let decimal := after.takeWhile Char.isDigit
        (readDigits build 8 0 digits).bind fun value =>
          if decimal = [] then .ok (value, after)
          else (readDigits build 10 0 decimal).map fun value =>
            (value, after.drop decimal.length)
      else
        let digits := start.takeWhile Char.isDigit
        (readDigits build 10 0 digits).map fun value => (value, start.drop digits.length)
  | _ =>
      let digits := start.takeWhile Char.isDigit
      (readDigits build 10 0 digits).map fun value => (value, start.drop digits.length)

def lexNumber (build : Build) (start : List Char) : Except Failure (Token × List Char) :=
  (numberDigits build start).bind fun digits =>
    let suffix := numberSuffix false false digits.2
    if suffix.2.head?.any isIdentRest then exitAt "invalid number: " start
    else .ok ({ newToken .num start (start.length - suffix.2.length) with
      val := build.toCcInt digits.1
      isUnsigned := suffix.1 || (build = .native && 0x7fffffff < digits.1) }, suffix.2)

def lexWord (start : List Char) : Token × List Char :=
  let word := start.takeWhile isIdentRest
  (newToken (if word ∈ keywords then .keyword else .ident) start word.length,
    start.drop word.length)

def stringBody (build : Build) : Nat → List Char →
    Except Failure (Option (List (BitVec 8) × List Char))
  | 0, _ => .ok none
  | _ + 1, [] => .ok none
  | fuel + 1, c :: rest =>
      if c = '"' then .ok (some ([], rest))
      else if c = '\\' then do
        let escape ← getEscape build rest
        let body ← stringBody build fuel escape.2
        return body.map fun body => (escape.1 :: body.1, body.2)
      else do
        let body ← stringBody build fuel rest
        return body.map fun body => (charByte c :: body.1, body.2)

def lexString (build : Build) (start : List Char) : Except Failure (Token × List Char) := do
  match ← stringBody build start.length (start.drop 1) with
  | none => exitAt "unterminated string literal: " start
  | some (bytes, rest) =>
      return ({ newToken .str start (start.length - rest.length) with str := bytes }, rest)

def charValue (build : Build) : List Char → Except Failure (BitVec 8 × List Char)
  | [] => .error .fault
  | c :: rest => if c = '\\' then getEscape build rest else .ok (charByte c, rest)

def lexChar (build : Build) (start : List Char) : Except Failure (Token × List Char) :=
  (charValue build (start.drop 1)).bind fun value =>
    match value.2 with
    | '\'' :: rest =>
        .ok ({ newToken .num start (start.length - rest.length) with val := value.1.toNat }, rest)
    | _ => exitAt "unterminated character literal: " start

def lexPunct (start : List Char) : Option Nat :=
  if start.take 3 ∈ punctuators3 then some 3
  else if start.take 2 ∈ punctuators2 then some 2
  else if start.take 1 ∈ punctuators1 then some 1
  else none

def hexByte (c : Char) : String :=
  String.ofList ((Nat.toDigits 16 (c.toNat / 16 % 16)) ++ Nat.toDigits 16 (c.toNat % 16))

/-- The token at the start of a text, which is neither blank nor a comment. -/
def lexToken (build : Build) (start : List Char) : Except Failure (Token × List Char) :=
  match start with
  | [] => .error .fault
  | c :: _ =>
      if c.isDigit then lexNumber build start
      else if isIdentStart c then .ok (lexWord start)
      else
        match lexPunct start with
        | some n => .ok (newToken .punct start n, start.drop n)
        | none =>
            if c = '"' then lexString build start
            else if c = '\'' then lexChar build start
            else .error (.exit (quoted "unexpected character: '" [c]
              ("' (0x" ++ hexByte c ++ ")\n")))

def afterComment : List Char → Option (List Char)
  | [] => none
  | c :: rest =>
      if c = '*' ∧ rest.head? = some '/' then some (rest.drop 1) else afterComment rest

/-- The loop of `tokenize`. Every round consumes a character. -/
def tokenizeFrom (build : Build) : Nat → Bool → List Char → Except Failure (List Token)
  | 0, _, _ => .ok [newToken .eof [] 0]
  | _ + 1, _, [] => .ok [newToken .eof [] 0]
  | fuel + 1, bol, c :: rest =>
      if isSpace c then tokenizeFrom build fuel (c = '\n' || bol) rest
      else if c = '/' ∧ rest.head? = some '/' then
        tokenizeFrom build fuel bol (rest.dropWhile (· ≠ '\n'))
      else if c = '/' ∧ rest.head? = some '*' then
        match afterComment (rest.drop 1) with
        | none => exitAt "unterminated block comment: " (c :: rest)
        | some after => tokenizeFrom build fuel bol after
      else do
        let lexed ← lexToken build (c :: rest)
        let tokens ← tokenizeFrom build fuel false lexed.2
        return { lexed.1 with atBol := bol } :: tokens

def tokenize (build : Build) (text : List Char) : Except Failure (List Token) :=
  tokenizeFrom build (text.length + 1) true text

/-! The chain of a text ends with its one token of the kind `eof`. -/

theorem lexNumber_kind {build : Build} {start rest : List Char} {t : Token}
    (lexed : lexNumber build start = .ok (t, rest)) : t.kind = .num := by
  unfold lexNumber at lexed
  cases digits : numberDigits build start with
  | error failure =>
      rw [digits] at lexed
      cases lexed
  | ok value =>
      simp only [digits, Except.bind] at lexed
      split at lexed
      · cases lexed
      · cases lexed
        rfl

theorem lexString_kind {build : Build} {start rest : List Char} {t : Token}
    (lexed : lexString build start = .ok (t, rest)) : t.kind = .str := by
  unfold lexString at lexed
  cases body : stringBody build start.length (start.drop 1) with
  | error failure =>
      rw [body] at lexed
      cases lexed
  | ok value =>
      cases value with
      | none =>
          rw [body] at lexed
          cases lexed
      | some value =>
          rw [body] at lexed
          cases lexed
          rfl

theorem lexChar_kind {build : Build} {start rest : List Char} {t : Token}
    (lexed : lexChar build start = .ok (t, rest)) : t.kind = .num := by
  obtain ⟨value, _, closed⟩ := Except.of_bind_ok lexed
  dsimp only at closed
  split at closed
  · cases closed
    rfl
  · cases closed

theorem lexToken_kind {build : Build} {start rest : List Char} {t : Token}
    (lexed : lexToken build start = .ok (t, rest)) : t.kind ≠ .eof := by
  unfold lexToken at lexed
  split at lexed
  · cases lexed
  · split at lexed
    · rw [lexNumber_kind lexed]
      decide
    · split at lexed
      · cases lexed
        simp only [newToken]
        split <;> decide
      · split at lexed
        · cases lexed
          simp [newToken]
        · split at lexed
          · rw [lexString_kind lexed]
            decide
          · split at lexed
            · rw [lexChar_kind lexed]
              decide
            · cases lexed

def Lexed (build : Build) (t : Token) : Prop :=
  ∃ start rest u bol, lexToken build start = .ok (u, rest) ∧ t = { u with atBol := bol }

theorem tokenizeFrom_lexed {build : Build} {fuel : Nat} {bol : Bool} {text : List Char}
    {tokens : List Token} (read : tokenizeFrom build fuel bol text = .ok tokens) :
    ∃ before, tokens = before ++ [newToken .eof [] 0] ∧ ∀ t ∈ before, Lexed build t := by
  induction fuel generalizing bol text tokens with
  | zero =>
      cases read
      exact ⟨[], rfl, by simp⟩
  | succ fuel ih =>
      cases text with
      | nil =>
          cases read
          exact ⟨[], rfl, by simp⟩
      | cons c rest =>
          unfold tokenizeFrom at read
          split at read
          · exact ih read
          · split at read
            · exact ih read
            · split at read
              · split at read
                · cases read
                · exact ih read
              · obtain ⟨lexeme, first, read⟩ := Except.of_bind_ok read
                obtain ⟨more, later, read⟩ := Except.of_bind_ok read
                obtain ⟨before, rfl, inner⟩ := ih later
                cases read
                refine ⟨_ :: before, rfl, ?_⟩
                intro t member
                rcases List.mem_cons.mp member with rfl | member
                · exact ⟨c :: rest, lexeme.2, lexeme.1, bol, first, rfl⟩
                · exact inner t member

theorem Lexed.kind {build : Build} {t : Token} (lexed : Lexed build t) : t.kind ≠ .eof := by
  obtain ⟨start, rest, u, bol, read, rfl⟩ := lexed
  have kind := lexToken_kind read
  exact kind

theorem tokenize_end {build : Build} {text : List Char} {tokens : List Token}
    (lexed : tokenize build text = .ok tokens) :
    ∃ before, tokens = before ++ [newToken .eof [] 0] ∧ ∀ t ∈ before, t.kind ≠ .eof := by
  obtain ⟨before, same, made⟩ := tokenizeFrom_lexed lexed
  exact ⟨before, same, fun t member => (made t member).kind⟩

example : (tokenize .host "a <<= 010 + 'A';".toList).map (fun tokens =>
    tokens.map fun t => (String.ofList t.text, t.val)) =
    .ok [("a", 0), ("<<=", 0), ("010", 8), ("+", 0), ("'A'", 65), (";", 0), ("", 0)] := by
  decide +kernel

end SymphonyPlus
