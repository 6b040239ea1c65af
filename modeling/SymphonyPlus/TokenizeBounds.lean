import SymphonyPlus.Unparse

/-!
Where the lexer of `symcc/src/tokenize.c` reads and writes. It passes the end of its text only
in a literal that the text leaves open at a place where one more character is due.
-/

namespace SymphonyPlus

/-- Blanks and comments, and the text that follows them. -/
inductive Gap : List Char → List Char → Prop
  | none (rest : List Char) : Gap [] rest
  | blank {c : Char} {gap rest : List Char} (space : isSpace c = true) (more : Gap gap rest) :
      Gap (c :: gap) rest
  | line {body gap rest : List Char} (inside : ∀ c ∈ body, c ≠ '\n')
      (ends : ∀ c ∈ (gap ++ rest).head?, c = '\n') (more : Gap gap rest) :
      Gap ('/' :: '/' :: (body ++ gap)) rest
  | block {body gap rest : List Char}
      (first : ∀ before after, body ++ ['*', '/'] = before ++ '*' :: '/' :: after → after = [])
      (more : Gap gap rest) : Gap ('/' :: '*' :: (body ++ '*' :: '/' :: gap)) rest

inductive Laid : List Char → List Token → Prop
  | finish {text : List Char} (gap : Gap text []) : Laid text [newToken .eof [] 0]
  | token {gap rest : List Char} {t : Token} {tokens : List Token} (before : Gap gap t.loc)
      (inside : 0 < t.len ∧ t.len ≤ t.loc.length) (after : rest = t.loc.drop t.len)
      (more : Laid rest tokens) : Laid (gap ++ t.loc) (t :: tokens)

def tokenStart (text : List Char) (t : Token) : Nat := text.length - t.loc.length

structure Covers (text : List Char) (tokens : List Token) : Prop where
  laid : Laid text tokens
  ordered : tokens.Pairwise fun t u => tokenStart text t + t.len ≤ tokenStart text u

/-- The steps of the loop that sizes the buffer of a string, from behind its opening quote. -/
def literalSpan : List Char → Nat
  | [] => 0
  | c :: rest =>
      if c = '"' then 0
      else if c = '\\' then
        match rest with
        | [] => 1
        | _ :: more => literalSpan more + 2
      else literalSpan rest + 1

def literalCap (body : List Char) : Nat := literalSpan body + 2

def literalWrites (build : Build) : Nat → List Char → Nat
  | 0, _ => 0
  | _ + 1, [] => 0
  | fuel + 1, c :: rest =>
      if c = '"' then 0
      else if c = '\\' then
        match getEscape build rest with
        | .ok (_, after) => literalWrites build fuel after + 1
        | .error _ => 0
      else literalWrites build fuel rest + 1

def Solid (c : Char) (rest : List Char) : Prop :=
  isSpace c = false ∧ (c = '/' → rest.head? ≠ some '/' ∧ rest.head? ≠ some '*')

section Positions

variable (build : Build)

inductive LexesTo : List Char → List Char → Prop
  | here (text : List Char) : LexesTo text text
  | blank {c : Char} {rest tail : List Char} (space : isSpace c = true)
      (more : LexesTo rest tail) : LexesTo (c :: rest) tail
  | line {rest tail : List Char} (more : LexesTo (rest.dropWhile (· ≠ '\n')) tail) :
      LexesTo ('/' :: '/' :: rest) tail
  | block {rest after tail : List Char} (closed : afterComment rest = some after)
      (more : LexesTo after tail) : LexesTo ('/' :: '*' :: rest) tail
  | token {c : Char} {rest after tail : List Char} {t : Token} (solid : Solid c rest)
      (lexed : lexToken build (c :: rest) = .ok (t, after)) (more : LexesTo after tail) :
      LexesTo (c :: rest) tail

inductive Decodes : List Char → List Char → Prop
  | here (body : List Char) : Decodes body body
  | plain {c : Char} {rest last : List Char} (open_ : c ≠ '"') (plain : c ≠ '\\')
      (more : Decodes rest last) : Decodes (c :: rest) last
  | escape {byte : BitVec 8} {rest after last : List Char}
      (read : getEscape build rest = .ok (byte, after)) (more : Decodes after last) :
      Decodes ('\\' :: rest) last

/-- The text ends behind the opening quote of a character or behind a backslash of a literal. -/
def OpenLiteral : List Char → Prop
  | '\'' :: body => body = [] ∨ body = ['\\']
  | '"' :: body => Decodes build body ['\\']
  | _ => False

structure TokenizesSafely (text : List Char) : Prop where
  inside : tokenize build text ≠ .error .fault
  terminates : ∀ more, tokenizeFrom build (text.length + 1 + more) true text = tokenize build text
  fits : ∀ body, LexesTo build text ('"' :: body) →
    literalWrites build (body.length + 1) body ≤ literalCap body ∧
    ∀ bytes rest, stringBody build (body.length + 1) body = .ok (some (bytes, rest)) →
      bytes.length = literalWrites build (body.length + 1) body
  covers : ∀ tokens, tokenize build text = .ok tokens → Covers text tokens

end Positions

variable {build : Build}

/-! Escapes. -/

theorem ccAccumulate_exits {base value digit : Nat} {failure : Failure}
    (failed : ccAccumulate build base value digit = .error failure) : failure ≠ .fault := by
  unfold ccAccumulate exitWith at failed
  split at failed
  · cases failed
    nofun
  · cases failed

theorem readEscapeDigits_exits {base : Nat} {digits : List Char} {failure : Failure}
    (failed : readEscapeDigits build base digits = .error failure) :
    failure ≠ .fault := by
  rw [readEscapeDigits] at failed
  generalize (0 : Int) = start at failed
  induction digits generalizing start with
  | nil => cases failed
  | cons c rest ih =>
      rw [List.foldlM_cons] at failed
      cases read : ccAccumulate build base (start % 2 ^ build.bits).toNat (digitValue c) with
      | error stop =>
          rw [read] at failed
          cases failed
          exact ccAccumulate_exits read
      | ok value =>
          rw [read] at failed
          exact ih _ failed

theorem drop_takeWhile_take (p : Char → Bool) (n : Nat) (text : List Char) :
    text = (text.take n).takeWhile p ++ text.drop ((text.take n).takeWhile p).length := by
  have within : (text.take n).takeWhile p <+: text :=
    List.IsPrefix.trans (List.takeWhile_prefix p) (List.take_prefix n text)
  rw [List.prefix_iff_eq_take.mp within, List.length_take, Nat.min_eq_left within.length_le,
    List.take_append_drop]

/-- An escape ends behind its first character and the digits after it. -/
theorem getEscape_splits {c : Char} {rest after : List Char} {byte : BitVec 8}
    (read : getEscape build (c :: rest) = .ok (byte, after)) :
    ∃ digits, rest = digits ++ after ∧ ∀ d ∈ digits, isHexDigit d = true := by
  unfold getEscape at read
  simp only at read
  split at read
  · cases read
    exact ⟨[], rfl, nofun⟩
  · split at read
    · rename_i octal
      obtain ⟨value, _, same⟩ := Except.of_map_ok read
      have first : ((c :: rest).take 3).takeWhile isOctalDigit =
          c :: (rest.take 2).takeWhile isOctalDigit := by
        simp [octal]
      rw [first] at same
      cases same
      refine ⟨(rest.take 2).takeWhile isOctalDigit, drop_takeWhile_take isOctalDigit 2 rest, ?_⟩
      intro d member
      have octal := List.mem_takeWhile_imp member
      exact decide_eq_true (Nat.lt_trans (digitValue_octal octal) (by decide))
    · split at read
      · split at read
        · cases read
          exact ⟨[], rfl, nofun⟩
        · obtain ⟨value, _, same⟩ := Except.of_map_ok read
          cases same
          refine ⟨rest.takeWhile isHexDigit, ?_, fun d member => List.mem_takeWhile_imp member⟩
          exact (List.prefix_iff_eq_append.mp (List.takeWhile_prefix isHexDigit)).symm
      · cases read
        exact ⟨[], rfl, nofun⟩

theorem getEscape_shorter {rest after : List Char} {byte : BitVec 8}
    (read : getEscape build rest = .ok (byte, after)) :
    ∃ used, rest = used ++ after ∧ 0 < used.length := by
  cases rest with
  | nil => cases read
  | cons c rest =>
      obtain ⟨digits, rfl, _⟩ := getEscape_splits read
      exact ⟨c :: digits, rfl, Nat.succ_pos _⟩

theorem getEscape_fault {rest : List Char} :
    getEscape build rest = .error .fault ↔ rest = [] := by
  constructor
  · intro failed
    cases rest with
    | nil => rfl
    | cons c rest =>
        unfold getEscape at failed
        simp only at failed
        split at failed
        · cases failed
        · split at failed
          · exact absurd rfl (readEscapeDigits_exits (Except.of_map_error failed))
          · split at failed
            · split at failed
              · cases failed
              · exact absurd rfl (readEscapeDigits_exits (Except.of_map_error failed))
            · cases failed
  · rintro rfl
    rfl

/-! Strings. -/

theorem stringBody_quote (fuel : Nat) (rest : List Char) :
    stringBody build (fuel + 1) ('"' :: rest) = .ok (some ([], rest)) := by
  rw [stringBody, if_pos rfl]

theorem stringBody_escape (fuel : Nat) (rest : List Char) :
    stringBody build (fuel + 1) ('\\' :: rest) = (getEscape build rest).bind fun escape =>
      (stringBody build fuel escape.2).map fun body =>
        body.map fun body => (escape.1 :: body.1, body.2) := by
  rw [stringBody, if_neg (by decide), if_pos rfl]
  rfl

theorem stringBody_plain {c : Char} (open_ : c ≠ '"') (plain : c ≠ '\\') (fuel : Nat)
    (rest : List Char) :
    stringBody build (fuel + 1) (c :: rest) = (stringBody build fuel rest).map fun body =>
      body.map fun body => (charByte c :: body.1, body.2) := by
  rw [stringBody, if_neg open_, if_neg plain]
  rfl

theorem stringBody_fault {fuel : Nat} {body : List Char} (enough : body.length ≤ fuel) :
    stringBody build fuel body = .error .fault ↔ Decodes build body ['\\'] := by
  induction fuel generalizing body with
  | zero =>
      have empty : body = [] := List.length_eq_zero_iff.mp (by omega)
      subst empty
      exact iff_of_false nofun nofun
  | succ fuel ih =>
      cases body with
      | nil => exact iff_of_false nofun nofun
      | cons c rest =>
          simp only [List.length_cons] at enough
          by_cases quote : c = '"'
          · subst quote
            rw [stringBody_quote]
            refine iff_of_false nofun fun decodes => ?_
            cases decodes with
            | plain open_ => exact open_ rfl
          · by_cases slash : c = '\\'
            · subst slash
              rw [stringBody_escape]
              constructor
              · intro failed
                rcases Except.of_bind_error failed with first | ⟨⟨byte, after⟩, read, later⟩
                · rw [getEscape_fault.mp first]
                  exact Decodes.here _
                · obtain ⟨used, rfl, positive⟩ := getEscape_shorter read
                  simp only [List.length_append] at enough
                  exact Decodes.escape read
                    ((ih (by omega)).mp (Except.of_map_error later))
              · intro decodes
                cases decodes with
                | here => rfl
                | plain _ plain => exact absurd rfl plain
                | escape read more =>
                    obtain ⟨used, rfl, positive⟩ := getEscape_shorter read
                    simp only [List.length_append] at enough
                    rw [read]
                    simp only [Except.bind]
                    rw [(ih (by omega)).mpr more]
                    rfl
            · rw [stringBody_plain quote slash]
              constructor
              · intro failed
                exact Decodes.plain quote slash
                  ((ih (by omega)).mp (Except.of_map_error failed))
              · intro decodes
                cases decodes with
                | here => exact absurd rfl slash
                | plain _ _ more =>
                    rw [(ih (by omega)).mpr more]
                    rfl
                | escape => exact absurd rfl slash

theorem stringBody_suffix {fuel : Nat} {body rest : List Char} {bytes : List (BitVec 8)}
    (read : stringBody build fuel body = .ok (some (bytes, rest))) :
    ∃ used, body = used ++ '"' :: rest := by
  induction fuel generalizing body bytes with
  | zero => cases read
  | succ fuel ih =>
      cases body with
      | nil => cases read
      | cons c more =>
          by_cases quote : c = '"'
          · subst quote
            rw [stringBody_quote] at read
            cases read
            exact ⟨[], rfl⟩
          · by_cases slash : c = '\\'
            · subst slash
              rw [stringBody_escape] at read
              obtain ⟨⟨byte, after⟩, escape, later⟩ := Except.of_bind_ok read
              obtain ⟨decoded, inner, same⟩ := Except.of_map_ok later
              obtain ⟨used, rfl, _⟩ := getEscape_shorter escape
              cases decoded with
              | none => cases same
              | some decoded =>
                  cases same
                  obtain ⟨before, rfl⟩ := ih inner
                  exact ⟨'\\' :: (used ++ before), by simp⟩
            · rw [stringBody_plain quote slash] at read
              obtain ⟨decoded, inner, same⟩ := Except.of_map_ok read
              cases decoded with
              | none => cases same
              | some decoded =>
                  cases same
                  obtain ⟨before, rfl⟩ := ih inner
                  exact ⟨c :: before, rfl⟩

theorem stringBody_writes {fuel : Nat} {body rest : List Char} {bytes : List (BitVec 8)}
    (read : stringBody build fuel body = .ok (some (bytes, rest))) :
    bytes.length = literalWrites build fuel body := by
  induction fuel generalizing body bytes with
  | zero => cases read
  | succ fuel ih =>
      cases body with
      | nil => cases read
      | cons c more =>
          by_cases quote : c = '"'
          · subst quote
            rw [stringBody_quote] at read
            cases read
            rfl
          · by_cases slash : c = '\\'
            · subst slash
              rw [stringBody_escape] at read
              obtain ⟨⟨byte, after⟩, escape, later⟩ := Except.of_bind_ok read
              obtain ⟨decoded, inner, same⟩ := Except.of_map_ok later
              cases decoded with
              | none => cases same
              | some decoded =>
                  cases same
                  simp only [literalWrites, escape, if_neg quote, ← ih inner, if_true,
                    List.length_cons]
            · rw [stringBody_plain quote slash] at read
              obtain ⟨decoded, inner, same⟩ := Except.of_map_ok read
              cases decoded with
              | none => cases same
              | some decoded =>
                  cases same
                  simp only [literalWrites, if_neg quote, if_neg slash, ← ih inner,
                    List.length_cons]

theorem literalSpan_digits {digits : List Char} (hex : ∀ d ∈ digits, isHexDigit d = true)
    (rest : List Char) : literalSpan rest ≤ literalSpan (digits ++ rest) := by
  induction digits with
  | nil => exact Nat.le_refl _
  | cons d more ih =>
      have digit := hex d List.mem_cons_self
      have quote : d ≠ '"' := by
        rintro rfl
        exact absurd digit (by decide)
      have slash : d ≠ '\\' := by
        rintro rfl
        exact absurd digit (by decide)
      rw [List.cons_append, literalSpan.eq_def (d :: (more ++ rest))]
      simp only [if_neg quote, if_neg slash]
      exact Nat.le_succ_of_le (ih fun e member => hex e (List.mem_cons_of_mem d member))

theorem literalWrites_span (fuel : Nat) (body : List Char) :
    literalWrites build fuel body ≤ literalSpan body := by
  induction fuel generalizing body with
  | zero => exact Nat.zero_le _
  | succ fuel ih =>
      cases body with
      | nil => exact Nat.zero_le _
      | cons c rest =>
          unfold literalWrites literalSpan
          split
          · exact Nat.le_refl 0
          · split
            · cases rest with
              | nil => exact Nat.zero_le _
              | cons d more =>
                  cases read : getEscape build (d :: more) with
                  | error failure => exact Nat.zero_le _
                  | ok result =>
                      obtain ⟨byte, after⟩ := result
                      obtain ⟨digits, rfl, hex⟩ := getEscape_splits read
                      have writes := ih after
                      have spans := literalSpan_digits hex after
                      simp only
                      omega
            · exact Nat.succ_le_succ (ih rest)

/-! Tokens. -/

theorem readDigits_exits {base start : Nat} {digits : List Char} {failure : Failure}
    (failed : readDigits build base start digits = .error failure) : failure ≠ .fault := by
  induction digits generalizing start with
  | nil => cases failed
  | cons c rest ih =>
      rcases Except.of_bind_error failed with first | ⟨value, _, later⟩
      · exact ccAccumulate_exits first
      · exact ih later

theorem numberDigits_exits {start : List Char} {failure : Failure}
    (failed : numberDigits build start = .error failure) : failure ≠ .fault := by
  have plain {f : Nat → Nat × List Char} {base : Nat} {digits : List Char}
      (failed : (readDigits build base 0 digits).map f = .error failure) : failure ≠ .fault :=
    readDigits_exits (Except.of_map_error failed)
  unfold numberDigits at failed
  split at failed
  · split at failed
    · dsimp only at failed
      split at failed
      · cases failed
        nofun
      · exact plain failed
    · split at failed
      · rcases Except.of_bind_error failed with first | ⟨value, _, later⟩
        · exact readDigits_exits first
        · split at later
          · cases later
          · exact plain later
      · exact plain failed
  · exact plain failed

theorem lexNumber_exits {start : List Char} : lexNumber build start ≠ .error .fault := by
  intro failed
  rcases Except.of_bind_error failed with first | ⟨digits, _, later⟩
  · exact numberDigits_exits first rfl
  · dsimp only at later
    split at later
    · cases later
    · cases later

theorem lexToken_char (body : List Char) :
    lexToken build ('\'' :: body) = lexChar build ('\'' :: body) := by
  have none : lexPunct ('\'' :: body) = none := by
    simp [lexPunct, punctuators3, punctuators2, punctuators1]
  simp [lexToken, none, isIdentStart]

theorem lexString_fault (body : List Char) :
    lexString build ('"' :: body) = .error .fault ↔ Decodes build body ['\\'] := by
  rw [← stringBody_fault (Nat.le_succ body.length)]
  constructor
  · intro failed
    rcases Except.of_bind_error failed with first | ⟨decoded, _, later⟩
    · exact first
    · cases decoded with
      | none => cases later
      | some decoded => cases later
  · intro failed
    simp only [lexString, List.length_cons, List.drop_succ_cons, List.drop_zero]
    rw [failed]
    rfl

theorem lexChar_fault (body : List Char) :
    lexChar build ('\'' :: body) = .error .fault ↔ body = [] ∨ body = ['\\'] := by
  constructor
  · intro failed
    rcases Except.of_bind_error failed with first | ⟨value, _, later⟩
    · cases body with
      | nil => exact Or.inl rfl
      | cons c rest =>
          simp only [List.drop_succ_cons, List.drop_zero, charValue] at first
          split at first
          · rename_i slash
            exact Or.inr (by rw [slash, getEscape_fault.mp first])
          · cases first
    · split at later
      · cases later
      · cases later
  · rintro (rfl | rfl)
    · rfl
    · rfl

theorem lexToken_fault {c : Char} {rest : List Char} :
    lexToken build (c :: rest) = .error .fault ↔ OpenLiteral build (c :: rest) := by
  by_cases quote : c = '"'
  · subst quote
    rw [lexToken_string]
    exact lexString_fault rest
  · by_cases apostrophe : c = '\''
    · subst apostrophe
      rw [lexToken_char]
      exact lexChar_fault rest
    · have closed : ¬ OpenLiteral build (c :: rest) := by
        unfold OpenLiteral
        split
        · rename_i same
          cases same
          exact absurd rfl apostrophe
        · rename_i same
          cases same
          exact absurd rfl quote
        · exact id
      refine iff_of_false (fun failed => ?_) closed
      unfold lexToken at failed
      simp only [if_neg quote, if_neg apostrophe] at failed
      split at failed
      · exact lexNumber_exits failed
      · split at failed
        · cases failed
        · split at failed
          · cases failed
          · cases failed

def Lexeme (start : List Char) (t : Token) (rest : List Char) : Prop :=
  t.loc = start ∧ (0 < t.len ∧ t.len ≤ start.length) ∧ rest = start.drop t.len

theorem Lexeme.of_used {used rest : List Char} {t : Token} (some : 0 < used.length)
    (loc : t.loc = used ++ rest) (len : t.len = (used ++ rest).length - rest.length) :
    Lexeme (used ++ rest) t rest := by
  simp only [List.length_append, Nat.add_sub_cancel] at len
  refine ⟨loc, ?_, ?_⟩
  · simp only [List.length_append]
    omega
  · rw [len, List.drop_left]

theorem drop_splits (digits text : List Char) (n : Nat) :
    ∃ used, digits ++ text = used ++ text.drop n ∧ digits.length ≤ used.length :=
  ⟨digits ++ text.take n, by simp, by simp⟩

theorem numberDigits_splits {c : Char} {rest after : List Char} {n : Nat}
    (digit : c.isDigit = true) (read : numberDigits build (c :: rest) = .ok (n, after)) :
    ∃ used, c :: rest = used ++ after ∧ 0 < used.length := by
  have decimal (first : List Char) {text : List Char}
      (read : (readDigits build 10 0 (text.takeWhile Char.isDigit)).map (fun value =>
        (value, text.drop (text.takeWhile Char.isDigit).length)) = .ok (n, after)) :
      ∃ used, first ++ text = used ++ after ∧ first.length ≤ used.length := by
    obtain ⟨value, _, same⟩ := Except.of_map_ok read
    cases same
    exact drop_splits first text _
  have plain (read : (readDigits build 10 0 ((c :: rest).takeWhile Char.isDigit)).map
      (fun value => (value, (c :: rest).drop ((c :: rest).takeWhile Char.isDigit).length)) =
      .ok (n, after)) : ∃ used, c :: rest = used ++ after ∧ 0 < used.length := by
    obtain ⟨value, _, same⟩ := Except.of_map_ok read
    have first : (c :: rest).takeWhile Char.isDigit = c :: rest.takeWhile Char.isDigit := by
      simp [digit]
    rw [first] at same
    cases same
    obtain ⟨used, same, longer⟩ := drop_splits [c] rest (rest.takeWhile Char.isDigit).length
    exact ⟨used, same, longer⟩
  unfold numberDigits at read
  split at read
  · rename_i x more same
    cases same
    split at read
    · dsimp only at read
      split at read
      · cases read
      · obtain ⟨value, _, same⟩ := Except.of_map_ok read
        cases same
        obtain ⟨used, same, longer⟩ := drop_splits ['0', x] more (more.takeWhile isHexDigit).length
        exact ⟨used, same, Nat.lt_of_lt_of_le (Nat.succ_pos 1) longer⟩
    · split at read
      · obtain ⟨value, _, later⟩ := Except.of_bind_ok read
        obtain ⟨first, same, longer⟩ :=
          drop_splits ['0'] (x :: more) ((x :: more).takeWhile isOctalDigit).length
        split at later
        · cases later
          exact ⟨first, same, longer⟩
        · obtain ⟨used, again, longest⟩ := decimal first later
          exact ⟨used, same.trans again, Nat.lt_of_lt_of_le longer longest⟩
      · exact plain read
  · exact plain read

theorem numberSuffix_splits (unsuf longsuf : Bool) (text : List Char) :
    ∃ used, text = used ++ (numberSuffix unsuf longsuf text).2 := by
  fun_induction numberSuffix unsuf longsuf text with
  | case1 => exact ⟨[], rfl⟩
  | case2 _ _ c rest _ ih =>
      obtain ⟨used, same⟩ := ih
      exact ⟨c :: used, congrArg (c :: ·) same⟩
  | case3 _ _ c => exact ⟨[c], rfl⟩
  | case4 _ _ c _ _ rest ih =>
      obtain ⟨used, same⟩ := ih
      exact ⟨c :: c :: used, congrArg (fun text => c :: c :: text) same⟩
  | case5 _ _ c _ _ d rest _ ih =>
      obtain ⟨used, same⟩ := ih
      exact ⟨c :: used, congrArg (c :: ·) same⟩
  | case6 => exact ⟨[], rfl⟩

theorem lexNumber_lexeme {c : Char} {rest after : List Char} {t : Token}
    (digit : c.isDigit = true) (lexed : lexNumber build (c :: rest) = .ok (t, after)) :
    Lexeme (c :: rest) t after := by
  obtain ⟨⟨n, text⟩, read, later⟩ := Except.of_bind_ok lexed
  obtain ⟨digits, same, some⟩ := numberDigits_splits digit read
  obtain ⟨suffix, again⟩ := numberSuffix_splits false false text
  dsimp only at later
  generalize numberSuffix false false text = ends at later again
  subst again
  split at later
  · cases later
  · rw [same, ← List.append_assoc] at later ⊢
    cases later
    refine Lexeme.of_used ?_ rfl rfl
    rw [List.length_append]
    omega

theorem lexWord_lexeme {c : Char} {rest : List Char} (start : isIdentStart c = true) :
    Lexeme (c :: rest) (lexWord (c :: rest)).1 (lexWord (c :: rest)).2 := by
  have first : isIdentRest c = true := by
    simp only [isIdentStart, isIdentRest, Char.isAlphanum, Bool.or_eq_true] at start ⊢
    tauto
  refine ⟨rfl, ⟨?_, ?_⟩, rfl⟩
  · simp [lexWord, newToken, first]
  · exact (List.takeWhile_prefix isIdentRest).length_le

theorem lexPunct_lexeme {start : List Char} {n : Nat} (found : lexPunct start = some n) :
    Lexeme start (newToken .punct start n) (start.drop n) := by
  have lengths : (∀ s ∈ punctuators3, s.length = 3) ∧ (∀ s ∈ punctuators2, s.length = 2) ∧
      ∀ s ∈ punctuators1, s.length = 1 := by decide
  refine ⟨rfl, ?_, rfl⟩
  simp only [newToken]
  unfold lexPunct at found
  split at found
  · rename_i three
    cases found
    have length := lengths.1 _ three
    rw [List.length_take] at length
    omega
  · split at found
    · rename_i two
      cases found
      have length := lengths.2.1 _ two
      rw [List.length_take] at length
      omega
    · split at found
      · rename_i one
        cases found
        have length := lengths.2.2 _ one
        rw [List.length_take] at length
        omega
      · cases found

theorem lexString_lexeme {body after : List Char} {t : Token}
    (lexed : lexString build ('"' :: body) = .ok (t, after)) : Lexeme ('"' :: body) t after := by
  obtain ⟨decoded, read, later⟩ := Except.of_bind_ok lexed
  cases decoded with
  | none => cases later
  | some decoded =>
      obtain ⟨bytes, rest⟩ := decoded
      obtain ⟨used, same⟩ := stringBody_suffix read
      simp only [List.drop_succ_cons, List.drop_zero] at same
      have whole : '"' :: body = ('"' :: (used ++ ['"'])) ++ rest := by simp [same]
      rw [whole] at later ⊢
      cases later
      exact Lexeme.of_used (Nat.succ_pos _) rfl rfl

theorem lexChar_lexeme {body after : List Char} {t : Token}
    (lexed : lexChar build ('\'' :: body) = .ok (t, after)) : Lexeme ('\'' :: body) t after := by
  obtain ⟨⟨byte, rest⟩, read, later⟩ := Except.of_bind_ok lexed
  have splits : ∃ used, body = used ++ rest := by
    cases body with
    | nil => cases read
    | cons c more =>
        simp only [List.drop_succ_cons, List.drop_zero, charValue] at read
        split at read
        · obtain ⟨used, rfl, _⟩ := getEscape_shorter read
          exact ⟨c :: used, rfl⟩
        · cases read
          exact ⟨[c], rfl⟩
  obtain ⟨used, rfl⟩ := splits
  dsimp only at later
  split at later
  · rename_i rest
    have whole : '\'' :: (used ++ '\'' :: rest) = ('\'' :: (used ++ ['\''])) ++ rest := by simp
    rw [whole] at later ⊢
    cases later
    exact Lexeme.of_used (Nat.succ_pos _) rfl rfl
  · cases later

theorem lexToken_lexeme {c : Char} {rest after : List Char} {t : Token}
    (lexed : lexToken build (c :: rest) = .ok (t, after)) : Lexeme (c :: rest) t after := by
  unfold lexToken at lexed
  dsimp only at lexed
  split at lexed
  · rename_i digit
    exact lexNumber_lexeme digit lexed
  · split at lexed
    · rename_i start
      cases lexed
      exact lexWord_lexeme start
    · split at lexed
      · rename_i found
        cases lexed
        exact lexPunct_lexeme found
      · split at lexed
        · rename_i quote
          rw [quote] at lexed ⊢
          exact lexString_lexeme lexed
        · split at lexed
          · rename_i apostrophe
            rw [apostrophe] at lexed ⊢
            exact lexChar_lexeme lexed
          · cases lexed

theorem Lexeme.shorter {start rest : List Char} {t : Token} (lexeme : Lexeme start t rest) :
    rest.length < start.length := by
  obtain ⟨_, ⟨some, fits⟩, rfl⟩ := lexeme
  rw [List.length_drop]
  omega

/-! Gaps. -/

theorem Laid.blank {c : Char} {text : List Char} {tokens : List Token} (space : isSpace c = true)
    (laid : Laid text tokens) : Laid (c :: text) tokens := by
  cases laid with
  | finish gap => exact Laid.finish (Gap.blank space gap)
  | token before inside after more =>
      exact Laid.token (Gap.blank space before) inside after more

theorem Laid.line {body text : List Char} {tokens : List Token} (inside : ∀ c ∈ body, c ≠ '\n')
    (ends : ∀ c ∈ text.head?, c = '\n') (laid : Laid text tokens) :
    Laid ('/' :: '/' :: (body ++ text)) tokens := by
  cases laid with
  | finish gap =>
      exact Laid.finish (Gap.line inside (by simpa using ends) gap)
  | @token gap rest t tokens before solid after more =>
      have whole : '/' :: '/' :: (body ++ (gap ++ t.loc)) =
          '/' :: '/' :: (body ++ gap) ++ t.loc := by simp
      rw [whole]
      exact Laid.token (Gap.line inside ends before) solid after more

theorem Laid.block {body text : List Char} {tokens : List Token}
    (first : ∀ before after, body ++ ['*', '/'] = before ++ '*' :: '/' :: after → after = [])
    (laid : Laid text tokens) : Laid ('/' :: '*' :: (body ++ '*' :: '/' :: text)) tokens := by
  cases laid with
  | finish gap => exact Laid.finish (Gap.block first gap)
  | @token gap rest t tokens before solid after more =>
      have whole : '/' :: '*' :: (body ++ '*' :: '/' :: (gap ++ t.loc)) =
          '/' :: '*' :: (body ++ '*' :: '/' :: gap) ++ t.loc := by simp
      rw [whole]
      exact Laid.token (Gap.block first before) solid after more

theorem afterComment_splits {text after : List Char} (closed : afterComment text = some after) :
    ∃ body, text = body ++ '*' :: '/' :: after ∧
      ∀ before rest, body ++ ['*', '/'] = before ++ '*' :: '/' :: rest → rest = [] := by
  induction text with
  | nil => cases closed
  | cons c rest ih =>
      rw [afterComment] at closed
      split at closed
      · rename_i ends
        obtain ⟨rfl, next⟩ := ends
        cases closed
        cases rest with
        | nil => cases next
        | cons d more =>
            cases next
            refine ⟨[], rfl, fun before rest same => ?_⟩
            cases before with
            | nil =>
                cases same
                rfl
            | cons e before =>
                cases before with
                | nil => cases same
                | cons f before =>
                    have lengths := congrArg List.length same
                    simp at lengths
      · rename_i open_
        obtain ⟨body, rfl, first⟩ := ih closed
        refine ⟨c :: body, rfl, fun before more same => ?_⟩
        cases before with
        | nil =>
            cases body with
            | nil => cases same
            | cons d body =>
                obtain ⟨star, next⟩ := List.cons.inj same
                exact absurd ⟨star, congrArg some (List.cons.inj next).1⟩ open_
        | cons e before => exact first before more (List.cons.inj same).2

/-! The loop. -/

theorem tokenizeFrom_space {c : Char} (space : isSpace c = true) (fuel : Nat) (bol : Bool)
    (rest : List Char) :
    tokenizeFrom build (fuel + 1) bol (c :: rest) = tokenizeFrom build fuel (c = '\n' || bol) rest := by
  rw [tokenizeFrom, if_pos space]

theorem tokenizeFrom_line (fuel : Nat) (bol : Bool) (rest : List Char) :
    tokenizeFrom build (fuel + 1) bol ('/' :: '/' :: rest) =
      tokenizeFrom build fuel bol (rest.dropWhile (· ≠ '\n')) := by
  rw [tokenizeFrom, if_neg (by decide), if_pos ⟨rfl, rfl⟩]
  rfl

theorem tokenizeFrom_block (fuel : Nat) (bol : Bool) (rest : List Char) :
    tokenizeFrom build (fuel + 1) bol ('/' :: '*' :: rest) =
      match afterComment rest with
      | none => exitAt "unterminated block comment: " ('/' :: '*' :: rest)
      | some after => tokenizeFrom build fuel bol after := by
  rw [tokenizeFrom, if_neg (by decide), if_neg (by simp), if_pos ⟨rfl, rfl⟩]
  rfl

theorem tokenizeFrom_solid {c : Char} {rest : List Char} (solid : Solid c rest) (fuel : Nat)
    (bol : Bool) :
    tokenizeFrom build (fuel + 1) bol (c :: rest) =
      (lexToken build (c :: rest)).bind fun lexed =>
        (tokenizeFrom build fuel false lexed.2).map fun tokens =>
          { lexed.1 with atBol := bol } :: tokens := by
  rw [tokenizeFrom, if_neg (by simp [solid.1]), if_neg fun comment => (solid.2 comment.1).1 comment.2,
    if_neg fun comment => (solid.2 comment.1).2 comment.2]
  rfl

@[elab_as_elim]
theorem tokenize_induction (build : Build) {motive : List Char → Prop} (text : List Char)
    (empty : motive [])
    (blank : ∀ c rest, isSpace c = true → motive rest → motive (c :: rest))
    (line : ∀ rest, motive (rest.dropWhile (· ≠ '\n')) → motive ('/' :: '/' :: rest))
    (unclosed : ∀ rest, afterComment rest = none → motive ('/' :: '*' :: rest))
    (block : ∀ rest after, afterComment rest = some after → motive after →
      motive ('/' :: '*' :: rest))
    (failed : ∀ c rest failure, Solid c rest → lexToken build (c :: rest) = .error failure →
      motive (c :: rest))
    (token : ∀ c rest t after, Solid c rest → lexToken build (c :: rest) = .ok (t, after) →
      motive after → motive (c :: rest)) : motive text := by
  induction length : text.length using Nat.strongRecOn generalizing text with
  | ind n ih =>
      cases text with
      | nil => exact empty
      | cons c rest =>
          simp only [List.length_cons] at length
          by_cases space : isSpace c = true
          · exact blank c rest space (ih rest.length (by omega) rest rfl)
          · by_cases slashes : c = '/' ∧ rest.head? = some '/'
            · obtain ⟨rfl, next⟩ := slashes
              obtain ⟨rest, rfl⟩ := List.head?_eq_some_iff.mp next
              have shorter := (List.dropWhile_suffix (l := rest) (· ≠ '\n')).length_le
              simp only [List.length_cons] at length
              exact line rest (ih _ (by omega) _ rfl)
            · by_cases comment : c = '/' ∧ rest.head? = some '*'
              · obtain ⟨rfl, next⟩ := comment
                obtain ⟨rest, rfl⟩ := List.head?_eq_some_iff.mp next
                cases closed : afterComment rest with
                | none => exact unclosed rest closed
                | some after =>
                    obtain ⟨body, rfl, _⟩ := afterComment_splits closed
                    simp only [List.length_cons, List.length_append] at length
                    exact block _ after closed (ih _ (by omega) after rfl)
              · have solid : Solid c rest :=
                  ⟨by simpa using space, fun slash => ⟨fun next => slashes ⟨slash, next⟩,
                    fun next => comment ⟨slash, next⟩⟩⟩
                cases lexed : lexToken build (c :: rest) with
                | error failure => exact failed c rest failure solid lexed
                | ok result =>
                    obtain ⟨t, after⟩ := result
                    have shorter := (lexToken_lexeme lexed).shorter
                    simp only [List.length_cons] at shorter
                    exact token c rest t after solid lexed (ih _ (by omega) after rfl)

theorem dropWhile_shorter (rest : List Char) :
    (rest.dropWhile (· ≠ '\n')).length ≤ rest.length :=
  (List.dropWhile_suffix _).length_le

theorem tokenizeFrom_more {fuel : Nat} {text : List Char} (bol : Bool) (enough : text.length < fuel)
    (more : Nat) :
    tokenizeFrom build (fuel + more) bol text = tokenizeFrom build fuel bol text := by
  induction text using tokenize_induction build generalizing fuel bol with
  | empty =>
      cases fuel with
      | zero => omega
      | succ fuel =>
          rw [Nat.add_right_comm]
          rfl
  | blank c rest space ih =>
      cases fuel with
      | zero => omega
      | succ fuel =>
          rw [Nat.add_right_comm, tokenizeFrom_space space, tokenizeFrom_space space]
          exact ih _ (Nat.lt_of_succ_lt_succ enough)
  | line rest ih =>
      cases fuel with
      | zero => omega
      | succ fuel =>
          have shorter := dropWhile_shorter rest
          simp only [List.length_cons] at enough
          rw [Nat.add_right_comm, tokenizeFrom_line, tokenizeFrom_line]
          exact ih _ (by omega)
  | unclosed rest open_ =>
      cases fuel with
      | zero => omega
      | succ fuel => rw [Nat.add_right_comm, tokenizeFrom_block, tokenizeFrom_block, open_]
  | block rest after closed ih =>
      cases fuel with
      | zero => omega
      | succ fuel =>
          rw [Nat.add_right_comm, tokenizeFrom_block, tokenizeFrom_block, closed]
          obtain ⟨body, rfl, _⟩ := afterComment_splits closed
          simp only [List.length_cons, List.length_append] at enough
          exact ih _ (by omega)
  | failed c rest failure solid lexed =>
      cases fuel with
      | zero => omega
      | succ fuel =>
          rw [Nat.add_right_comm, tokenizeFrom_solid solid, tokenizeFrom_solid solid, lexed]
          rfl
  | token c rest t after solid lexed ih =>
      cases fuel with
      | zero => omega
      | succ fuel =>
          have shorter := (lexToken_lexeme lexed).shorter
          rw [Nat.add_right_comm, tokenizeFrom_solid solid, tokenizeFrom_solid solid, lexed]
          simp only [Except.bind]
          rw [ih false (by omega)]

theorem Solid.open {c : Char} {rest : List Char} (opens : OpenLiteral build (c :: rest)) :
    Solid c rest := by
  unfold OpenLiteral at opens
  split at opens
  · rename_i same
    cases same
    exact ⟨rfl, nofun⟩
  · rename_i same
    cases same
    exact ⟨rfl, nofun⟩
  · exact opens.elim

def Opens (build : Build) (text : List Char) : Prop :=
  ∃ tail, LexesTo build text tail ∧ OpenLiteral build tail

theorem opens_nil : ¬ Opens build [] := by
  rintro ⟨tail, reaches, opens⟩
  cases reaches
  exact opens

theorem opens_space {c : Char} {rest : List Char} (space : isSpace c = true) :
    Opens build (c :: rest) ↔ Opens build rest := by
  constructor
  · rintro ⟨tail, reaches, opens⟩
    cases reaches with
    | here => exact absurd space (by simp [(Solid.open opens).1])
    | blank _ more => exact ⟨tail, more, opens⟩
    | line => exact absurd space (by decide)
    | block => exact absurd space (by decide)
    | token solid => exact absurd space (by simp [solid.1])
  · rintro ⟨tail, reaches, opens⟩
    exact ⟨tail, LexesTo.blank space reaches, opens⟩

theorem opens_line (rest : List Char) :
    Opens build ('/' :: '/' :: rest) ↔ Opens build (rest.dropWhile (· ≠ '\n')) := by
  constructor
  · rintro ⟨tail, reaches, opens⟩
    cases reaches with
    | here => exact opens.elim
    | blank space => exact absurd space (by decide)
    | line more => exact ⟨tail, more, opens⟩
    | token solid => exact absurd rfl (solid.2 rfl).1
  · rintro ⟨tail, reaches, opens⟩
    exact ⟨tail, LexesTo.line reaches, opens⟩

theorem opens_block (rest : List Char) :
    Opens build ('/' :: '*' :: rest) ↔ ∃ after, afterComment rest = some after ∧ Opens build after := by
  constructor
  · rintro ⟨tail, reaches, opens⟩
    cases reaches with
    | here => exact opens.elim
    | blank space => exact absurd space (by decide)
    | block closed more => exact ⟨_, closed, tail, more, opens⟩
    | token solid => exact absurd rfl (solid.2 rfl).2
  · rintro ⟨after, closed, tail, reaches, opens⟩
    exact ⟨tail, LexesTo.block closed reaches, opens⟩

theorem opens_solid {c : Char} {rest : List Char} (solid : Solid c rest) :
    Opens build (c :: rest) ↔ OpenLiteral build (c :: rest) ∨
      ∃ t after, lexToken build (c :: rest) = .ok (t, after) ∧ Opens build after := by
  constructor
  · rintro ⟨tail, reaches, opens⟩
    cases reaches with
    | here => exact Or.inl opens
    | blank space => exact absurd space (by simp [solid.1])
    | line => exact absurd rfl (solid.2 rfl).1
    | block => exact absurd rfl (solid.2 rfl).2
    | token _ lexed more => exact Or.inr ⟨_, _, lexed, tail, more, opens⟩
  · rintro (opens | ⟨t, after, lexed, tail, reaches, opens⟩)
    · exact ⟨_, LexesTo.here _, opens⟩
    · exact ⟨tail, LexesTo.token solid lexed reaches, opens⟩

theorem tokenizeFrom_fault {fuel : Nat} {text : List Char} (bol : Bool)
    (enough : text.length < fuel) :
    tokenizeFrom build fuel bol text = .error .fault ↔ Opens build text := by
  induction text using tokenize_induction build generalizing fuel bol with
  | empty =>
      cases fuel with
      | zero => omega
      | succ fuel => exact iff_of_false nofun opens_nil
  | blank c rest space ih =>
      cases fuel with
      | zero => omega
      | succ fuel =>
          rw [tokenizeFrom_space space, opens_space space]
          exact ih _ (Nat.lt_of_succ_lt_succ enough)
  | line rest ih =>
      cases fuel with
      | zero => omega
      | succ fuel =>
          have shorter := dropWhile_shorter rest
          simp only [List.length_cons] at enough
          rw [tokenizeFrom_line, opens_line]
          exact ih _ (by omega)
  | unclosed rest open_ =>
      cases fuel with
      | zero => omega
      | succ fuel =>
          rw [tokenizeFrom_block, opens_block, open_]
          exact iff_of_false nofun nofun
  | block rest after closed ih =>
      cases fuel with
      | zero => omega
      | succ fuel =>
          rw [tokenizeFrom_block, opens_block, closed]
          obtain ⟨body, rfl, _⟩ := afterComment_splits closed
          simp only [List.length_cons, List.length_append] at enough
          simpa using ih _ (by omega)
  | failed c rest failure solid lexed =>
      cases fuel with
      | zero => omega
      | succ fuel =>
          rw [tokenizeFrom_solid solid, opens_solid solid, ← lexToken_fault, lexed]
          simp [Except.bind]
  | token c rest t after solid lexed ih =>
      cases fuel with
      | zero => omega
      | succ fuel =>
          have shorter := (lexToken_lexeme lexed).shorter
          rw [tokenizeFrom_solid solid, opens_solid solid, ← lexToken_fault, lexed]
          constructor
          · intro failed
            exact Or.inr ⟨t, after, rfl,
              (ih false (by omega)).mp (Except.of_map_error failed)⟩
          · rintro (none | ⟨u, later, same, opens⟩)
            · cases none
            · cases same
              simp only [Except.bind]
              rw [(ih false (by omega)).mpr opens]
              rfl

theorem tokenizeFrom_laid {fuel : Nat} {bol : Bool} {text : List Char} {tokens : List Token}
    (enough : text.length < fuel) (read : tokenizeFrom build fuel bol text = .ok tokens) :
    Laid text tokens := by
  induction text using tokenize_induction build generalizing fuel bol tokens with
  | empty =>
      cases fuel with
      | zero => omega
      | succ fuel =>
          cases read
          exact Laid.finish (Gap.none [])
  | blank c rest space ih =>
      cases fuel with
      | zero => omega
      | succ fuel =>
          rw [tokenizeFrom_space space] at read
          exact Laid.blank space (ih (Nat.lt_of_succ_lt_succ enough) read)
  | line rest ih =>
      cases fuel with
      | zero => omega
      | succ fuel =>
          have shorter := dropWhile_shorter rest
          simp only [List.length_cons] at enough
          rw [tokenizeFrom_line] at read
          have laid := ih (by omega) read
          have parts : rest.takeWhile (· ≠ '\n') ++ rest.dropWhile (· ≠ '\n') = rest :=
            List.takeWhile_append_dropWhile
          rw [← parts]
          refine Laid.line (fun c member => ?_) (fun c found => ?_) laid
          · simpa using List.mem_takeWhile_imp member
          · have stops := List.head?_dropWhile_not (fun c => decide (c ≠ '\n')) rest
            rw [show (rest.dropWhile (· ≠ '\n')).head? = some c from found] at stops
            simpa using stops
  | unclosed rest open_ =>
      cases fuel with
      | zero => omega
      | succ fuel =>
          rw [tokenizeFrom_block, open_] at read
          cases read
  | block rest after closed ih =>
      cases fuel with
      | zero => omega
      | succ fuel =>
          rw [tokenizeFrom_block, closed] at read
          obtain ⟨body, rfl, first⟩ := afterComment_splits closed
          simp only [List.length_cons, List.length_append] at enough
          exact Laid.block first (ih (by omega) read)
  | failed c rest failure solid lexed =>
      cases fuel with
      | zero => omega
      | succ fuel =>
          rw [tokenizeFrom_solid solid, lexed] at read
          cases read
  | token c rest t after solid lexed ih =>
      cases fuel with
      | zero => omega
      | succ fuel =>
          have lexeme := lexToken_lexeme lexed
          have shorter := lexeme.shorter
          rw [tokenizeFrom_solid solid, lexed] at read
          obtain ⟨more, inner, rfl⟩ := Except.of_map_ok read
          obtain ⟨loc, inside, rfl⟩ := lexeme
          have laid := ih (by omega) inner
          rw [← loc] at inside laid ⊢
          exact @Laid.token [] _ { t with atBol := bol } more (Gap.none _) inside rfl laid

theorem Laid.shorter {text : List Char} {tokens : List Token} (laid : Laid text tokens) :
    ∀ t ∈ tokens, t.loc.length ≤ text.length := by
  induction laid with
  | finish gap =>
      intro t member
      rw [List.mem_singleton.mp member]
      exact Nat.zero_le _
  | token before inside after more ih =>
      intro u member
      rw [List.length_append]
      rcases List.mem_cons.mp member with rfl | member
      · omega
      · have less := ih u member
        rw [after, List.length_drop] at less
        omega

theorem Laid.ordered {text : List Char} {tokens : List Token} (laid : Laid text tokens) :
    tokens.Pairwise fun t u => u.loc.length + t.len ≤ t.loc.length := by
  induction laid with
  | finish gap => exact List.pairwise_singleton _ _
  | token before inside after more ih =>
      refine List.pairwise_cons.mpr ⟨fun u member => ?_, ih⟩
      have less := more.shorter u member
      rw [after, List.length_drop] at less
      omega

theorem Laid.covers {text : List Char} {tokens : List Token} (laid : Laid text tokens) :
    Covers text tokens := by
  refine ⟨laid, laid.ordered.imp_of_mem fun {t u} first second before => ?_⟩
  have inside := laid.shorter t first
  unfold tokenStart
  omega

/-! A text that is left open at its very end is the only one that is read past it. -/

theorem tokenizes_safely_iff (build : Build) (text : List Char) :
    TokenizesSafely build text ↔
      ∀ tail, LexesTo build text tail → ¬ OpenLiteral build tail := by
  have fault := @tokenizeFrom_fault build (text.length + 1) text true (Nat.lt_succ_self _)
  constructor
  · intro safe tail reaches opens
    exact safe.inside (fault.mpr ⟨tail, reaches, opens⟩)
  · intro closed
    constructor
    · intro failed
      obtain ⟨tail, reaches, opens⟩ := fault.mp failed
      exact closed tail reaches opens
    · exact tokenizeFrom_more true (Nat.lt_succ_self _)
    · intro body _
      have writes := @literalWrites_span build (body.length + 1) body
      exact ⟨Nat.le_add_right_of_le writes, fun bytes rest read => stringBody_writes read⟩
    · intro tokens read
      exact (tokenizeFrom_laid (Nat.lt_succ_self _) read).covers

theorem openString_reads_past : ¬ TokenizesSafely .host "\"a\\".toList := by
  intro safe
  exact safe.inside (by decide +kernel)

end SymphonyPlus
