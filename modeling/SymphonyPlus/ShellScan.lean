import Mathlib.Data.BitVec
import Mathlib.Data.List.TakeWhile
import SymphonyPlus.ShellLists

/-! The words and operators of a command line: the first half of `sh_parse`. -/

namespace SymphonyPlus.ShellParse

abbrev Byte := BitVec 8

def isBlank (c : Byte) : Bool := c = 32 || c = 9 || c = 10 || c = 13

def isOperator (c : Byte) : Bool := c = 60 || c = 62 || c = 38 || c = 124 || c = 59

def isQuote (c : Byte) : Bool := c = 39 || c = 34

def endsWord (c : Byte) : Bool := isBlank c || isOperator c

/-- The storage: the bytes written so far, and those behind them. -/
structure Buffer where
  written : List Byte
  free : List Byte

def Buffer.bytes (b : Buffer) : List Byte := b.written ++ b.free

def Buffer.used (b : Buffer) : Nat := b.written.length

def Buffer.store (b : Buffer) (c : Byte) : Option Buffer :=
  match b.free with
  | [] => none
  | _ :: free => some ⟨b.written ++ [c], free⟩

/-- The storage and what was read; `none` in the pair is a jump to `fail`. A step that writes
outside an array has no result at all. -/
abbrev Result (α : Type) := Option (Buffer × Option α)

def Result.andThen {α β : Type} (r : Result α) (next : Buffer → α → Result β) : Result β :=
  match r with
  | none => none
  | some (b, none) => some (b, none)
  | some (b, some a) => next b a

def put (capacity : Int) (c : Byte) (b : Buffer) : Result Unit :=
  if (b.used : Int) + 1 ≥ capacity then some (b, none)
  else (b.store c).map fun b => (b, some ())

/-- Where a word is: behind a backslash, in quotes, or in neither. -/
inductive Mode
  | plain
  | escaped
  | quoted (quote : Byte)

def word (capacity : Int) : Mode → List Byte → Buffer → Result (List Byte)
  | .plain, [], b => some (b, some [])
  | .plain, c :: rest, b =>
      if endsWord c then some (b, some (c :: rest))
      else if isQuote c then word capacity (.quoted c) rest b
      else if c = 92 then word capacity .escaped rest b
      else (put capacity c b).andThen fun b _ => word capacity .plain rest b
  | .escaped, [], b => some (b, none)
  | .escaped, c :: rest, b =>
      if c = 10 then some (b, none)
      else (put capacity c b).andThen fun b _ => word capacity .plain rest b
  | .quoted _, [], b => some (b, none)
  | .quoted quote, c :: rest, b =>
      if c = quote then word capacity .plain rest b
      else (put capacity c b).andThen fun b _ => word capacity (.quoted quote) rest b

structure Token where
  word : Nat
  kind : Nat

def token (capacity : Int) (c : Byte) (rest : List Byte) (b : Buffer) : Result (Nat × List Byte) :=
  if c = 60 || c = 62 then
    let kind := if c = 60 then 1 else 3
    if rest.head? = some c then some (b, some (kind + 1, rest.tail)) else some (b, some (kind, rest))
  else if c = 38 || c = 124 then
    if rest.head? = some c then some (b, some (if c = 38 then 5 else 6, rest.tail))
    else some (b, none)
  else if c = 59 then some (b, some (7, rest))
  else (word capacity .plain (c :: rest) b).andThen fun b rest => some (b, some (0, rest))

def pushToken (tokens : List Token) (t : Token) : Option (List Token) :=
  if tokens.length < 64 then some (tokens ++ [t]) else none

/-- The loop over the line; the first argument bounds the tokens it may still read. -/
def scan (capacity : Int) : Nat → List Byte → Buffer → List Token → Result (List Token)
  | 0, _, _, _ => none
  | left + 1, line, b, tokens =>
      match line.dropWhile isBlank with
      | [] => some (b, some tokens)
      | c :: rest =>
          if tokens.length = 64 ∨ (b.used : Int) ≥ capacity then some (b, none)
          else (token capacity c rest b).andThen fun ended r =>
            match ended.store 0, pushToken tokens ⟨b.used, r.1⟩ with
            | some ended, some tokens => scan capacity left r.2 ended tokens
            | _, _ => none

/-! Every line is read without a write outside the storage. -/

structure Room (capacity : Int) (b : Buffer) : Prop where
  size : b.bytes.length = capacity.toNat
  below : (b.used : Int) < capacity

/-- A result in a storage of this size; where the code goes on there is room for a zero. -/
def Sound {α : Type} (capacity : Int) (good : α → Prop) (r : Result α) : Prop :=
  ∃ b a, r = some (b, a) ∧ b.bytes.length = capacity.toNat ∧ ∀ x ∈ a, Room capacity b ∧ good x

section

variable {α β : Type} {capacity : Int} {b : Buffer}

theorem Sound.fail (good : α → Prop) (room : Room capacity b) :
    Sound capacity good (some (b, none)) := by
  refine ⟨b, none, rfl, room.size, ?_⟩
  intro x none
  cases none

theorem Sound.done {good : α → Prop} {a : α} (room : Room capacity b) (fine : good a) :
    Sound capacity good (some (b, some a)) := by
  refine ⟨b, some a, rfl, room.size, ?_⟩
  intro x made
  cases made
  exact ⟨room, fine⟩

theorem Sound.andThen {good : α → Prop} {fine : β → Prop} {r : Result α}
    {next : Buffer → α → Result β} (sound : Sound capacity good r)
    (later : ∀ b a, Room capacity b → good a → Sound capacity fine (next b a)) :
    Sound capacity fine (r.andThen next) := by
  obtain ⟨b, a, rfl, size, inside⟩ := sound
  cases a with
  | none =>
      refine ⟨b, none, rfl, size, ?_⟩
      intro x none
      cases none
  | some a => exact later b a (inside a rfl).1 (inside a rfl).2

theorem Sound.mono {good fine : α → Prop} {r : Result α} (sound : Sound capacity good r)
    (weaker : ∀ a, good a → fine a) : Sound capacity fine r := by
  obtain ⟨b, a, made, size, inside⟩ := sound
  exact ⟨b, a, made, size, fun x member => ⟨(inside x member).1, weaker x (inside x member).2⟩⟩

/-- A byte can be stored where there is room. -/
theorem store_room (room : Room capacity b) (c : Byte) :
    ∃ stored, b.store c = some stored ∧ stored.bytes.length = capacity.toNat ∧
      stored.used = b.used + 1 := by
  obtain ⟨size, below⟩ := room
  cases b with
  | mk written free =>
      simp only [Buffer.bytes, Buffer.used, List.length_append] at size below
      cases free with
      | nil =>
          rw [List.length_nil] at size
          omega
      | cons first free =>
          refine ⟨_, rfl, ?_, ?_⟩
          · simp only [Buffer.bytes, List.length_append, List.length_cons, List.length_nil] at size ⊢
            omega
          · simp only [Buffer.used, List.length_append, List.length_cons, List.length_nil]

theorem put_sound (room : Room capacity b) (c : Byte) :
    Sound capacity (fun _ => True) (put capacity c b) := by
  rw [put]
  split
  · exact Sound.fail _ room
  · rename_i fits
    obtain ⟨stored, made, size, used⟩ := store_room room c
    rw [made]
    refine Sound.done ⟨size, ?_⟩ trivial
    omega

theorem word_sound (mode : Mode) (line : List Byte) (room : Room capacity b) :
    Sound capacity (fun rest => rest.length ≤ line.length) (word capacity mode line b) := by
  induction mode, line, b using word.induct with
  | case1 b => exact Sound.done room (Nat.le_refl _)
  | case2 c rest b ends =>
      rw [word, if_pos ends]
      exact Sound.done room (Nat.le_refl _)
  | case3 c rest b inside quote ih =>
      rw [word, if_neg inside, if_pos quote]
      exact (ih room).mono fun _ shorter => Nat.le_succ_of_le shorter
  | case4 rest b inside quote ih =>
      rw [word, if_neg inside, if_neg quote, if_pos rfl]
      exact (ih room).mono fun _ shorter => Nat.le_succ_of_le shorter
  | case5 c rest b inside quote other ih =>
      rw [word, if_neg inside, if_neg quote, if_neg other]
      exact (put_sound room c).andThen fun b _ room _ =>
        (ih b room).mono fun _ shorter => Nat.le_succ_of_le shorter
  | case6 b => exact Sound.fail _ room
  | case7 rest b => exact Sound.fail _ room
  | case8 c rest b other ih =>
      rw [word, if_neg other]
      exact (put_sound room c).andThen fun b _ room _ =>
        (ih b room).mono fun _ shorter => Nat.le_succ_of_le shorter
  | case9 quote b => exact Sound.fail _ room
  | case10 quote rest b ih =>
      rw [word, if_pos rfl]
      exact (ih room).mono fun _ shorter => Nat.le_succ_of_le shorter
  | case11 quote c rest b other ih =>
      rw [word, if_neg other]
      exact (put_sound room c).andThen fun b _ room _ =>
        (ih b room).mono fun _ shorter => Nat.le_succ_of_le shorter

/-- A word that does not end at once takes a character of the line. -/
theorem word_shorter {c : Byte} (rest : List Byte) (inside : ¬endsWord c = true)
    (room : Room capacity b) :
    Sound capacity (fun later => later.length ≤ rest.length) (word capacity .plain (c :: rest) b) := by
  rw [word, if_neg inside]
  split
  · exact word_sound (.quoted c) rest room
  · split
    · exact word_sound .escaped rest room
    · exact (put_sound room c).andThen fun b _ room _ => word_sound .plain rest room

theorem token_sound {c : Byte} (rest : List Byte) (visible : ¬isBlank c = true)
    (room : Room capacity b) :
    Sound capacity (fun r => r.2.length ≤ rest.length) (token capacity c rest b) := by
  have tail : rest.tail.length ≤ rest.length := by
    rw [List.length_tail]
    exact Nat.sub_le _ _
  rw [token]
  split
  · simp only
    split
    · exact Sound.done room tail
    · exact Sound.done room (Nat.le_refl _)
  · rename_i redirection
    split
    · split
      · exact Sound.done room tail
      · exact Sound.fail _ room
    · rename_i connector
      split
      · exact Sound.done room (Nat.le_refl _)
      · rename_i semicolon
        have inside : ¬endsWord c = true := by
          simp only [endsWord, isOperator, Bool.or_eq_true, decide_eq_true_eq] at *
          tauto
        exact (word_shorter rest inside room).andThen fun b rest room shorter =>
          Sound.done room shorter

theorem scan_sound (left : Nat) (line : List Byte) (tokens : List Token)
    (enough : line.length < left) (size : b.bytes.length = capacity.toNat)
    (few : tokens.length ≤ 64) :
    ∃ ended a, scan capacity left line b tokens = some (ended, a) ∧
      ended.bytes.length = capacity.toNat := by
  induction left generalizing line b tokens with
  | zero => exact absurd enough (Nat.not_lt_zero _)
  | succ left ih =>
      have shorter := (List.dropWhile_sublist (l := line) isBlank).length_le
      rw [scan]
      cases visible : line.dropWhile isBlank with
      | nil => exact ⟨b, _, rfl, size⟩
      | cons c rest =>
          have hidden : ¬isBlank c = true := by
            have first := List.head?_dropWhile_not isBlank line
            rw [visible] at first
            exact Bool.eq_false_iff.mp first
          simp only
          split
          · exact ⟨b, none, rfl, size⟩
          · rename_i fits
            obtain ⟨notFull, below⟩ := not_or.mp fits
            have room : Room capacity b := ⟨size, Int.not_le.mp below⟩
            obtain ⟨ended, read, made, size, inside⟩ := token_sound rest hidden room
            rw [made]
            cases read with
            | none => exact ⟨ended, none, rfl, size⟩
            | some r =>
                obtain ⟨roomEnded, small⟩ := inside r rfl
                obtain ⟨stored, written, size, -⟩ := store_room roomEnded 0
                have pushed : pushToken tokens ⟨b.used, r.1⟩ = some (tokens ++ [⟨b.used, r.1⟩]) :=
                  if_pos (Nat.lt_of_le_of_ne few notFull)
                simp only [Result.andThen, written, pushed]
                apply ih _ _ _ size
                · rw [List.length_append, List.length_singleton]
                  omega
                · rw [visible, List.length_cons] at shorter
                  omega

end

/-! Words and operators as they may be written. -/

inductive Piece
  | plain (c : Byte) (visible : ¬endsWord c = true) (bare : ¬isQuote c = true) (other : c ≠ 92)
      (nonzero : c ≠ 0)
  | escaped (c : Byte) (visible : c ≠ 10) (nonzero : c ≠ 0)
  | quoted (quote : Byte) (s : List Byte) (isQuote : isQuote quote = true) (clear : quote ∉ s)
      (nonzero : 0 ∉ s)

def Piece.bytes : Piece → List Byte
  | .plain c _ _ _ _ => [c]
  | .escaped c _ _ => [c]
  | .quoted _ s _ _ _ => s

def Piece.text : Piece → List Byte
  | .plain c _ _ _ _ => [c]
  | .escaped c _ _ => [92, c]
  | .quoted quote s _ _ _ => quote :: (s ++ [quote])

structure Spelling where
  pieces : List Piece
  nonempty : pieces ≠ []

def Spelling.word (s : Spelling) : List Byte := s.pieces.flatMap Piece.bytes

inductive Operator
  | input
  | here
  | output
  | append
  | and
  | or
  | always

def Operator.text : Operator → List Byte
  | .input => [60]
  | .here => [60, 60]
  | .output => [62]
  | .append => [62, 62]
  | .and => [38, 38]
  | .or => [124, 124]
  | .always => [59]

def Operator.kind : Operator → Nat
  | .input => 1
  | .here => 2
  | .output => 3
  | .append => 4
  | .and => 5
  | .or => 6
  | .always => 7

inductive Lexeme
  | word (s : Spelling)
  | operator (o : Operator)

def Lexeme.text : Lexeme → List Byte
  | .word s => s.pieces.flatMap Piece.text
  | .operator o => o.text

def Lexeme.bytes : Lexeme → List Byte
  | .word s => s.word
  | .operator _ => []

/-- A word ends at a blank, at an operator or with the line, and `<` and `>` do not go on. -/
def Lexeme.endsBefore (l : Lexeme) (rest : List Byte) : Prop :=
  match l with
  | .word _ => ∀ c ∈ rest.head?, endsWord c = true
  | .operator .input => rest.head? ≠ some 60
  | .operator .output => rest.head? ≠ some 62
  | .operator _ => True

/-- The lines in which these words and operators are written, with any blanks between them. -/
inductive Written : List Lexeme → List Byte → Prop
  | nil {gap : List Byte} (blank : ∀ c ∈ gap, isBlank c = true) : Written [] gap
  | cons {gap rest : List Byte} {l : Lexeme} {lexemes : List Lexeme}
      (blank : ∀ c ∈ gap, isBlank c = true) (ends : l.endsBefore rest)
      (later : Written lexemes rest) : Written (l :: lexemes) (gap ++ (l.text ++ rest))

def storageOf (lexemes : List Lexeme) : Nat := (lexemes.map fun l => l.bytes.length + 1).sum

def StringAt (bytes : List Byte) (start : Nat) (s : List Byte) : Prop :=
  0 ∉ s ∧ ∃ rest, bytes.drop start = s ++ 0 :: rest

def Reads (bytes : List Byte) (t : Token) : Lexeme → Prop
  | .word s => t.kind = 0 ∧ StringAt bytes t.word s.word
  | .operator o => t.kind = o.kind

/-! The words come back. -/

def Buffer.append (b : Buffer) (s : List Byte) : Buffer :=
  ⟨b.written ++ s, b.free.drop s.length⟩

section

variable {capacity : Int} {b : Buffer}

theorem Buffer.append_append (b : Buffer) (s t : List Byte) :
    (b.append s).append t = b.append (s ++ t) := by
  simp only [Buffer.append, List.append_assoc, List.drop_drop, List.length_append]

theorem Buffer.append_nil (b : Buffer) : b.append [] = b := by
  simp only [Buffer.append, List.append_nil, List.length_nil, List.drop_zero]

theorem append_used (b : Buffer) (s : List Byte) : (b.append s).used = b.used + s.length :=
  List.length_append

/-- The free part of the storage ends at its capacity. -/
def Fits (capacity : Int) (b : Buffer) : Prop := (b.used : Int) + b.free.length = capacity

theorem Fits.append {s : List Byte} (fits : Fits capacity b) (room : s.length ≤ b.free.length) :
    Fits capacity (b.append s) := by
  rw [Fits] at *
  rw [append_used]
  simp only [Buffer.append, List.length_drop]
  omega

theorem store_free (room : 0 < b.free.length) (c : Byte) : b.store c = some (b.append [c]) := by
  cases b with
  | mk written free =>
      cases free with
      | nil => exact absurd room (Nat.lt_irrefl _)
      | cons first free => rfl

theorem put_free (fits : Fits capacity b) (room : 1 < b.free.length) (c : Byte) :
    put capacity c b = some (b.append [c], some ()) := by
  rw [Fits] at fits
  rw [put, if_neg (by omega), store_free (by omega)]
  rfl

theorem word_quoted {quote : Byte} {s : List Byte} (clear : quote ∉ s) (rest : List Byte)
    (fits : Fits capacity b) (room : s.length < b.free.length) :
    word capacity (.quoted quote) (s ++ quote :: rest) b =
      word capacity .plain rest (b.append s) := by
  induction s generalizing b with
  | nil => rw [List.nil_append, word, if_pos rfl, Buffer.append_nil]
  | cons c s ih =>
      obtain ⟨other, clear⟩ := not_or.mp (mt List.mem_cons.mpr clear)
      rw [List.length_cons] at room
      have left : s.length < (b.append [c]).free.length := by
        simp only [Buffer.append, List.length_drop, List.length_singleton]
        omega
      rw [List.cons_append, word, if_neg (Ne.symm other), put_free fits (by omega)]
      have later := ih clear (fits.append (s := [c]) (by simp only [List.length_singleton]; omega))
        left
      rw [Buffer.append_append] at later
      exact later

theorem word_piece (p : Piece) (rest : List Byte) (fits : Fits capacity b)
    (room : p.bytes.length < b.free.length) :
    word capacity .plain (p.text ++ rest) b = word capacity .plain rest (b.append p.bytes) := by
  cases p with
  | plain c visible bare other nonzero =>
      have stored := put_free fits room c
      rw [Piece.text, List.singleton_append, word, if_neg visible, if_neg bare, if_neg other, stored]
      rfl
  | escaped c visible nonzero =>
      have stored := put_free fits room c
      have opened : word capacity .plain (92 :: c :: rest) b =
          word capacity .escaped (c :: rest) b := rfl
      rw [Piece.text, List.cons_append, List.singleton_append, opened, word, if_neg visible, stored]
      rfl
  | quoted quote s isQuote clear nonzero =>
      have inside : ¬endsWord quote = true := by
        simp only [ShellParse.isQuote, Bool.or_eq_true, decide_eq_true_eq] at isQuote
        rcases isQuote with rfl | rfl <;> decide
      rw [Piece.text, List.cons_append, List.append_assoc, List.singleton_append, word,
        if_neg inside, if_pos isQuote]
      exact word_quoted clear rest fits room

theorem word_pieces {pieces : List Piece} (rest : List Byte) (fits : Fits capacity b)
    (room : (pieces.flatMap Piece.bytes).length < b.free.length) :
    word capacity .plain (pieces.flatMap Piece.text ++ rest) b =
      word capacity .plain rest (b.append (pieces.flatMap Piece.bytes)) := by
  induction pieces generalizing b with
  | nil =>
      rw [List.flatMap_nil, List.flatMap_nil, Buffer.append_nil]
      rfl
  | cons p pieces ih =>
      rw [List.flatMap_cons, List.length_append] at room
      have left : (pieces.flatMap Piece.bytes).length < (b.append p.bytes).free.length := by
        simp only [Buffer.append, List.length_drop]
        omega
      rw [List.flatMap_cons, List.append_assoc, word_piece p _ fits (by omega),
        ih (fits.append (by omega)) left, Buffer.append_append, List.flatMap_cons]

theorem word_end {rest : List Byte} (ends : ∀ c ∈ rest.head?, endsWord c = true) :
    word capacity .plain rest b = some (b, some rest) := by
  cases rest with
  | nil => rfl
  | cons c rest => exact if_pos (ends c rfl)

theorem piece_first (p : Piece) : ∃ c rest, p.text = c :: rest ∧ ¬endsWord c = true := by
  cases p with
  | plain c visible bare other nonzero => exact ⟨c, [], rfl, visible⟩
  | escaped c visible nonzero => exact ⟨92, [c], rfl, by decide⟩
  | quoted quote s isQuote clear nonzero =>
      refine ⟨quote, s ++ [quote], rfl, ?_⟩
      simp only [ShellParse.isQuote, Bool.or_eq_true, decide_eq_true_eq] at isQuote
      rcases isQuote with rfl | rfl <;> decide

theorem spelling_first (s : Spelling) :
    ∃ c rest, s.pieces.flatMap Piece.text = c :: rest ∧ ¬endsWord c = true := by
  cases split : s.pieces with
  | nil => exact absurd split s.nonempty
  | cons p pieces =>
      obtain ⟨c, rest, text, visible⟩ := piece_first p
      refine ⟨c, rest ++ pieces.flatMap Piece.text, ?_, visible⟩
      rw [List.flatMap_cons, text, List.cons_append]

def Lexeme.kind : Lexeme → Nat
  | .word _ => 0
  | .operator o => o.kind

/-- A word or an operator is read back. -/
theorem token_lexeme (l : Lexeme) {rest : List Byte} (ends : l.endsBefore rest)
    (fits : Fits capacity b) (room : l.bytes.length < b.free.length) :
    ∃ c tail, l.text = c :: tail ∧ ¬isBlank c = true ∧
      token capacity c (tail ++ rest) b = some (b.append l.bytes, some (l.kind, rest)) := by
  cases l with
  | word s =>
      obtain ⟨c, tail, text, inside⟩ := spelling_first s
      refine ⟨c, tail, text, ?_, ?_⟩
      · intro blank
        exact inside (by rw [endsWord, blank, Bool.true_or])
      · have read := (word_pieces rest fits room).trans (word_end ends)
        rw [text, List.cons_append] at read
        simp only [endsWord, isOperator, Bool.or_eq_true, decide_eq_true_eq, not_or] at inside
        obtain ⟨-, ⟨⟨redirection, ampersand⟩, bar⟩, semicolon⟩ := inside
        have notRedirection : ¬(decide (c = 60) || decide (c = 62)) = true := by
          simpa only [Bool.or_eq_true, decide_eq_true_eq, not_or] using redirection
        have notConnector : ¬(decide (c = 38) || decide (c = 124)) = true := by
          simpa only [Bool.or_eq_true, decide_eq_true_eq, not_or] using And.intro ampersand bar
        rw [token, if_neg notRedirection, if_neg notConnector, if_neg semicolon, read]
        rfl
  | operator o =>
      rw [Lexeme.bytes, Buffer.append_nil]
      cases o with
      | input =>
          refine ⟨60, [], rfl, by decide, ?_⟩
          rw [List.nil_append]
          exact if_neg ends
      | output =>
          refine ⟨62, [], rfl, by decide, ?_⟩
          rw [List.nil_append]
          exact if_neg ends
      | _ => exact ⟨_, _, rfl, by decide, rfl⟩

theorem dropWhile_blank {gap : List Byte} (blank : ∀ c ∈ gap, isBlank c = true) {c : Byte}
    (visible : ¬isBlank c = true) (rest : List Byte) :
    (gap ++ c :: rest).dropWhile isBlank = c :: rest := by
  rw [List.dropWhile_append_of_pos blank, List.dropWhile_cons_of_neg visible]

theorem spelling_nonzero (s : Spelling) : 0 ∉ s.word := by
  intro zero
  obtain ⟨p, -, inside⟩ := List.mem_flatMap.mp zero
  cases p with
  | plain c visible bare other nonzero => exact nonzero (List.mem_singleton.mp inside).symm
  | escaped c visible nonzero => exact nonzero (List.mem_singleton.mp inside).symm
  | quoted quote s isQuote clear nonzero => exact nonzero inside

theorem stringAt_append (b : Buffer) {s : List Byte} (nonzero : 0 ∉ s) (t : List Byte) :
    StringAt (b.append (s ++ 0 :: t)).bytes b.used s := by
  refine ⟨nonzero, t ++ b.free.drop (s ++ 0 :: t).length, ?_⟩
  simp only [Buffer.append, Buffer.bytes, Buffer.used, List.append_assoc, List.drop_left,
    List.cons_append]

/-- A line is read as the words and operators that were written in it. -/
theorem scan_written {lexemes : List Lexeme} {line : List Byte} (written : Written lexemes line)
    {left : Nat} (enough : lexemes.length < left) (tokens : List Token)
    (few : tokens.length + lexemes.length ≤ 64) (fits : Fits capacity b)
    (room : storageOf lexemes ≤ b.free.length) :
    ∃ s read, scan capacity left line b tokens = some (b.append s, some (tokens ++ read)) ∧
      List.Forall₂ (Reads (b.append s).bytes) read lexemes := by
  induction written generalizing left b tokens with
  | @nil gap blank =>
      cases left with
      | zero => exact absurd enough (Nat.not_lt_zero _)
      | succ left =>
          have empty : gap.dropWhile isBlank = [] := List.dropWhile_eq_nil_iff.mpr blank
          refine ⟨[], [], ?_, List.Forall₂.nil⟩
          rw [scan, empty, Buffer.append_nil, List.append_nil]
  | @cons gap rest l lexemes blank ends later ih =>
      cases left with
      | zero => exact absurd enough (Nat.not_lt_zero _)
      | succ left =>
          have total : storageOf (l :: lexemes) = l.bytes.length + 1 + storageOf lexemes := rfl
          rw [total] at room
          simp only [List.length_cons] at few enough
          obtain ⟨c, tail, text, visible, read⟩ := token_lexeme l ends fits (by omega)
          have below : (b.used : Int) < capacity := by
            rw [Fits] at fits
            omega
          have fitsWord := fits.append (s := l.bytes) (by omega)
          have roomZero : 0 < (b.append l.bytes).free.length := by
            simp only [Buffer.append, List.length_drop]
            omega
          have stored := store_free roomZero 0
          have fitsZero := fitsWord.append (s := [0]) roomZero
          rw [Buffer.append_append] at stored fitsZero
          have pushed : pushToken tokens ⟨b.used, l.kind⟩ = some (tokens ++ [⟨b.used, l.kind⟩]) :=
            if_pos (by omega)
          have roomLater : storageOf lexemes ≤ (b.append (l.bytes ++ [0])).free.length := by
            simp only [Buffer.append, List.length_drop, List.length_append, List.length_singleton]
            omega
          obtain ⟨s, more, scanned, reads⟩ := ih
            (show lexemes.length < left by omega) (tokens ++ [⟨b.used, l.kind⟩])
            (by rw [List.length_append, List.length_singleton]; omega) fitsZero roomLater
          rw [Buffer.append_append, List.append_assoc, List.append_assoc] at scanned
          rw [Buffer.append_append, List.append_assoc] at reads
          refine ⟨l.bytes ++ ([0] ++ s), ⟨b.used, l.kind⟩ :: more, ?_, List.Forall₂.cons ?_ reads⟩
          · rw [scan, text, List.cons_append, dropWhile_blank blank visible]
            simp only [read, Result.andThen, stored, pushed]
            rw [if_neg]
            · exact scanned
            · intro full
              rcases full with full | full
              · omega
              · omega
          · cases l with
            | word spelling => exact ⟨rfl, stringAt_append b (spelling_nonzero spelling) s⟩
            | operator o => rfl

end

end SymphonyPlus.ShellParse
