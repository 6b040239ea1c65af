import SymphonyPlus.Convert
import Mathlib.Logic.Function.Basic

/-! Formatted output: `user/native/format.c`. -/

namespace SymphonyPlus.Format

/-! The sink that every character goes through. -/

structure Output where
  data : Nat → BitVec 8
  cap : BitVec 32
  count : BitVec 32

def out (o : Output) (c : BitVec 8) : Output :=
  let o := if o.cap ≠ 0 ∧ o.count < o.cap - 1 then
    { o with data := Function.update o.data o.count.toNat c } else o
  if o.count < 0x7fffffff then { o with count := o.count + 1 } else o

def outs (o : Output) (text : List (BitVec 8)) : Output := text.foldl out o

def outPad (o : Output) (pad : Int) (c : BitVec 8) : Output := outs o (List.replicate pad.toNat c)

/-! Reading a conversion. -/

/-- What `va_arg` can find: a word, a pointer to a string that may be null, or a pointer to an `int`. -/
inductive Argument
  | word (value : BitVec 32)
  | text (s : Option (List (BitVec 8)))
  | place (address : Nat)

/-- Taking an argument of another kind is undefined, as is taking one that is not there. -/
def vaWord : List Argument → Option (BitVec 32 × List Argument)
  | .word value :: rest => some (value, rest)
  | _ => none

structure Flags where
  left : Bool
  zero : Bool
  plus : Bool
  space : Bool
  alternate : Bool

def readFlags (flags : Flags) : List (BitVec 8) → Flags × List (BitVec 8)
  | [] => (flags, [])
  | c :: rest =>
      if c = 45#8 then readFlags { flags with left := true } rest
      else if c = 48#8 then readFlags { flags with zero := true } rest
      else if c = 43#8 then readFlags { flags with plus := true } rest
      else if c = 32#8 then readFlags { flags with space := true } rest
      else if c = 35#8 then readFlags { flags with alternate := true } rest
      else (flags, c :: rest)

def readNumber (value : Int) : List (BitVec 8) → Int × List (BitVec 8)
  | [] => (value, [])
  | c :: rest =>
      if Convert.isdigit c.toInt then
        readNumber (if value < 1000000 then value * 10 + c.toInt - 48 else value) rest
      else (value, c :: rest)

structure Rest where
  fmt : List (BitVec 8)
  args : List Argument

def readWidth (flags : Flags) (rest : Rest) : Option (Flags × Int × Rest) :=
  if rest.fmt.head? = some 42#8 then
    (vaWord rest.args).map fun (value, args) =>
      if value.toInt < 0 then
        ({ flags with left := true }, if value.toInt = -2147483648 then 0 else -value.toInt,
          ⟨rest.fmt.tail, args⟩)
      else (flags, value.toInt, ⟨rest.fmt.tail, args⟩)
  else
    let read := readNumber 0 rest.fmt
    some (flags, read.1, { rest with fmt := read.2 })

def readPrecision (rest : Rest) : Option (Int × Rest) :=
  if rest.fmt.head? = some 46#8 then
    if rest.fmt.tail.head? = some 42#8 then
      (vaWord rest.args).map fun (value, args) => (value.toInt, ⟨rest.fmt.tail.tail, args⟩)
    else
      let read := readNumber 0 rest.fmt.tail
      some (read.1, { rest with fmt := read.2 })
  else some (-1, rest)

/-- The length modifiers, which say nothing where every integer is a word. -/
def skipModifiers (fmt : List (BitVec 8)) : List (BitVec 8) :=
  fmt.dropWhile fun c => c = 108#8 || c = 104#8 || c = 122#8 || c = 116#8

/-! Writing a conversion. -/

def countText (precision : Int) (s : List (BitVec 8)) : Nat :=
  let length := (s.takeWhile (· ≠ 0)).length
  if precision < 0 then length else min length precision.toNat

def printText (o : Output) (flags : Flags) (width : Int) (text : List (BitVec 8)) : Output :=
  let n := text.length
  let pad : Int := if width > n then width - n else 0
  let o := if flags.left then o else outPad o pad 32#8
  let o := outs o text
  if flags.left then outPad o pad 32#8 else o

def nullText : List (BitVec 8) := [40#8, 110#8, 117#8, 108#8, 108#8, 41#8]

def alphabet (upper : Bool) (value : Nat) : BitVec 8 :=
  if value < 10 then BitVec.ofNat 8 (48 + value)
  else BitVec.ofNat 8 ((if upper then 55 else 87) + value)

/-- `do{digits[n++]=alphabet[v%base];v/=base;}while(v);`, for the 33 places of `digits`. -/
def digitLoop (upper : Bool) (base : Nat) : Nat → Nat → List (BitVec 8)
  | 0, _ => []
  | places + 1, v =>
      alphabet upper (v % base) ::
        if v / base = 0 then [] else digitLoop upper base places (v / base)

def wrap (value : Int) : Int := value.bmod (2 ^ 32)

/-- What is known of a number before it is written; the last digit comes first. -/
structure Parts where
  sign : List (BitVec 8)
  twofold : Bool
  zeros : Int
  digits : List (BitVec 8)
  pad : Int

def numberParts (flags : Flags) (width precision : Int) (c : BitVec 8) (v : BitVec 32) : Parts :=
  let signed := c = 100#8 ∨ c = 105#8
  let negative : Bool := signed ∧ v.toInt < 0
  let sign : List (BitVec 8) :=
    if negative then [45#8]
    else if signed then (if flags.plus then [43#8] else if flags.space then [32#8] else [])
    else []
  let v := if negative then 0 - v else v
  let base := if c = 120#8 ∨ c = 88#8 ∨ c = 112#8 then 16 else if c = 111#8 then 8 else 10
  let digits := if v ≠ 0 ∨ precision ≠ 0 then digitLoop (c = 88#8) base 33 v.toNat else []
  let n := digits.length
  let twofold := c = 112#8 ∨ (flags.alternate ∧ n ≠ 0 ∧ base = 16)
  let zeros : Int := if precision > n then precision - n else 0
  let zeros := if flags.alternate ∧ base = 8 ∧ (n = 0 ∨ digits.getLast? ≠ some 48#8) ∧ zeros = 0
    then 1 else zeros
  let pad := wrap (width - n - zeros - (if sign = [] then 0 else 1) - (if twofold then 2 else 0))
  ⟨sign, twofold, zeros, digits, if pad < 0 then 0 else pad⟩

def printInteger (o : Output) (flags : Flags) (width precision : Int) (c : BitVec 8)
    (v : BitVec 32) : Output :=
  let number := numberParts flags width precision c v
  let o := if !flags.left && !(flags.zero && decide (precision < 0)) then outPad o number.pad 32#8 else o
  let o := outs o number.sign
  let o := if number.twofold then outs o [48#8, if c = 88#8 then 88#8 else 120#8] else o
  let o := if !flags.left && flags.zero && decide (precision < 0) then outPad o number.pad 48#8 else o
  let o := outPad o number.zeros 48#8
  let o := outs o number.digits.reverse
  if flags.left then outPad o number.pad 32#8 else o

/-! The loop over the format. -/

structure State extends Rest where
  o : Output
  stores : List (Nat × BitVec 32)

inductive Step
  | more (s : State)
  | stop (s : State)
  | refuse (s : State)

/-- What follows a `%` that no other one follows. -/
def directive (s : State) : Option Step := do
  let (flags, fmt) := readFlags ⟨false, false, false, false, false⟩ s.fmt
  let (flags, width, rest) ← readWidth flags ⟨fmt, s.args⟩
  let (precision, rest) ← readPrecision rest
  match skipModifiers rest.fmt with
  | [] => return .stop { s with fmt := [], args := rest.args }
  | c :: fmt =>
      if c = 99#8 then
        let (value, args) ← vaWord rest.args
        return .more { s with fmt, args, o := printText s.o flags width [value.setWidth 8] }
      else if c = 115#8 then
        match rest.args with
        | .text text :: args =>
            let text := text.getD nullText
            return .more { s with
              fmt, args, o := printText s.o flags width (text.take (countText precision text)) }
        | _ => none
      else if c = 110#8 then
        match rest.args with
        | .place address :: args =>
            return .more { s with fmt, args, stores := s.stores ++ [(address, s.o.count)] }
        | _ => none
      else if c = 100#8 ∨ c = 105#8 ∨ c = 117#8 ∨ c = 120#8 ∨ c = 88#8 ∨ c = 111#8 ∨ c = 112#8 then
        let (value, args) ← vaWord rest.args
        return .more { s with fmt, args, o := printInteger s.o flags width precision c value }
      else return .refuse { s with fmt, args := rest.args }

def step (s : State) : Option Step :=
  match s.fmt with
  | [] => some (.stop s)
  | c :: fmt =>
      if c ≠ 37#8 then some (.more { s with fmt, o := out s.o c })
      else if fmt.head? = some 37#8 then some (.more { s with fmt := fmt.tail, o := out s.o 37#8 })
      else directive { s with fmt }

theorem readFlags_shorter (flags : Flags) (fmt : List (BitVec 8)) :
    (readFlags flags fmt).2.length ≤ fmt.length := by
  induction fmt generalizing flags with
  | nil => simp [readFlags]
  | cons c rest ih =>
      simp only [readFlags, List.length_cons]
      split_ifs
      all_goals first | exact (ih _).trans (Nat.le_succ _) | simp

theorem readNumber_shorter (value : Int) (fmt : List (BitVec 8)) :
    (readNumber value fmt).2.length ≤ fmt.length := by
  induction fmt generalizing value with
  | nil => simp [readNumber]
  | cons c rest ih =>
      simp only [readNumber, List.length_cons]
      split
      · exact (ih _).trans (Nat.le_succ _)
      · simp

theorem readWidth_shorter {flags flags' : Flags} {rest rest' : Rest} {width : Int}
    (read : readWidth flags rest = some (flags', width, rest')) :
    rest'.fmt.length ≤ rest.fmt.length := by
  simp only [readWidth] at read
  split at read
  · simp only [Option.map_eq_some_iff] at read
    obtain ⟨⟨value, args⟩, -, same⟩ := read
    split at same <;> cases same <;> simp
  · cases read
    exact readNumber_shorter _ _

theorem readPrecision_shorter {rest rest' : Rest} {precision : Int}
    (read : readPrecision rest = some (precision, rest')) :
    rest'.fmt.length ≤ rest.fmt.length := by
  simp only [readPrecision] at read
  split at read
  · split at read
    · simp only [Option.map_eq_some_iff] at read
      obtain ⟨⟨value, args⟩, -, same⟩ := read
      cases same
      simp only [List.length_tail]
      omega
    · cases read
      refine (readNumber_shorter _ _).trans ?_
      simp
  · cases read
    exact Nat.le_refl _

/-! What one round of the loop writes does not depend on the sink. -/

inductive Outcome
  | more
  | stop
  | refuse
  deriving DecidableEq

structure Emission where
  outcome : Outcome
  text : List (BitVec 8)
  rest : Rest
  place : Option Nat

def Emission.apply (e : Emission) (s : State) : Step :=
  let next : State :=
    { e.rest with o := outs s.o e.text, stores := s.stores ++ (e.place.map fun p => (p, s.o.count)).toList }
  match e.outcome with
  | .more => .more next
  | .stop => .stop next
  | .refuse => .refuse next

def fieldText (flags : Flags) (width : Int) (text : List (BitVec 8)) : List (BitVec 8) :=
  let n := text.length
  let pad : Int := if width > n then width - n else 0
  let padding := List.replicate pad.toNat 32#8
  if flags.left then text ++ padding else padding ++ text

theorem outs_append (o : Output) (first second : List (BitVec 8)) :
    outs (outs o first) second = outs o (first ++ second) := by
  simp [outs]

theorem printText_emits (o : Output) (flags : Flags) (width : Int) (text : List (BitVec 8)) :
    printText o flags width text = outs o (fieldText flags width text) := by
  simp only [printText, fieldText, outPad]
  split <;> simp [outs_append]

def integerText (flags : Flags) (width precision : Int) (c : BitVec 8) (v : BitVec 32) :
    List (BitVec 8) :=
  let number := numberParts flags width precision c v
  let padding := List.replicate number.pad.toNat
  let zeroPadded := flags.zero && decide (precision < 0)
  (if !flags.left && !zeroPadded then padding 32#8 else []) ++ number.sign ++
    (if number.twofold then [48#8, if c = 88#8 then 88#8 else 120#8] else []) ++
    (if !flags.left && zeroPadded then padding 48#8 else []) ++
    List.replicate number.zeros.toNat 48#8 ++ number.digits.reverse ++
    (if flags.left then padding 32#8 else [])

theorem printInteger_emits (o : Output) (flags : Flags) (width precision : Int) (c : BitVec 8)
    (v : BitVec 32) :
    printInteger o flags width precision c v = outs o (integerText flags width precision c v) := by
  simp only [printInteger, integerText, outPad, Bool.and_assoc]
  generalize numberParts flags width precision c v = number
  generalize (flags.zero && decide (precision < 0)) = zeroPadded
  cases flags.left <;> cases zeroPadded <;> cases number.twofold <;> simp [outs_append]

def directiveText (rest : Rest) : Option Emission := do
  let (flags, fmt) := readFlags ⟨false, false, false, false, false⟩ rest.fmt
  let (flags, width, rest) ← readWidth flags { rest with fmt }
  let (precision, rest) ← readPrecision rest
  match skipModifiers rest.fmt with
  | [] => return ⟨.stop, [], ⟨[], rest.args⟩, none⟩
  | c :: fmt =>
      if c = 99#8 then
        let (value, args) ← vaWord rest.args
        return ⟨.more, fieldText flags width [value.setWidth 8], ⟨fmt, args⟩, none⟩
      else if c = 115#8 then
        match rest.args with
        | .text text :: args =>
            let text := text.getD nullText
            return ⟨.more, fieldText flags width (text.take (countText precision text)), ⟨fmt, args⟩, none⟩
        | _ => none
      else if c = 110#8 then
        match rest.args with
        | .place address :: args => return ⟨.more, [], ⟨fmt, args⟩, some address⟩
        | _ => none
      else if c = 100#8 ∨ c = 105#8 ∨ c = 117#8 ∨ c = 120#8 ∨ c = 88#8 ∨ c = 111#8 ∨ c = 112#8 then
        let (value, args) ← vaWord rest.args
        return ⟨.more, integerText flags width precision c value, ⟨fmt, args⟩, none⟩
      else return ⟨.refuse, [], ⟨fmt, rest.args⟩, none⟩

theorem directive_emits (s : State) :
    directive s = (directiveText s.toRest).map fun e => e.apply s := by
  obtain ⟨⟨fmt, args⟩, o, stores⟩ := s
  simp only [directive, directiveText]
  generalize readFlags ⟨false, false, false, false, false⟩ fmt = read
  obtain ⟨flags, fmt⟩ := read
  cases readWidth flags ⟨fmt, args⟩ with
  | none => rfl
  | some read =>
      obtain ⟨flags, width, rest⟩ := read
      simp only [Option.bind_eq_bind, Option.bind_some]
      cases readPrecision rest with
      | none => rfl
      | some read =>
          obtain ⟨precision, fmt, args⟩ := read
          simp only [Option.bind_some]
          cases skipModifiers fmt with
          | nil => simp [Emission.apply, outs]
          | cons c fmt =>
              simp only
              split_ifs
              · cases vaWord args with
                | none => rfl
                | some read => simp [Emission.apply, printText_emits]
              · rcases args with _ | ⟨_ | _ | _, args⟩ <;> simp [Emission.apply, printText_emits]
              · rcases args with _ | ⟨_ | _ | _, args⟩ <;> simp [Emission.apply, outs]
              · cases vaWord args with
                | none => rfl
                | some read => simp [Emission.apply, printInteger_emits]
              · simp [Emission.apply, outs]

theorem skipModifiers_shorter (fmt : List (BitVec 8)) : (skipModifiers fmt).length ≤ fmt.length :=
  (List.dropWhile_suffix _).length_le

theorem directiveText_shorter {rest : Rest} {e : Emission} (read : directiveText rest = some e) :
    e.rest.fmt.length ≤ rest.fmt.length := by
  simp only [directiveText, Option.bind_eq_bind, Option.bind_eq_some_iff] at read
  obtain ⟨⟨flags, width, afterWidth⟩, widthRead, ⟨precision, left⟩, precisionRead, read⟩ := read
  have first := readFlags_shorter ⟨false, false, false, false, false⟩ rest.fmt
  have second := readWidth_shorter widthRead
  have third : left.fmt.length ≤ afterWidth.fmt.length := readPrecision_shorter precisionRead
  have fourth := skipModifiers_shorter left.fmt
  simp only at second
  split at read
  · cases read
    simp
  · rename_i c fmt skipped
    rw [skipped, List.length_cons] at fourth
    have shorter : fmt.length ≤ rest.fmt.length := by omega
    split_ifs at read
    · obtain ⟨_, -, same⟩ := Option.bind_eq_some_iff.mp read
      cases same
      exact shorter
    · split at read <;> cases read
      exact shorter
    · split at read <;> cases read
      exact shorter
    · obtain ⟨_, -, same⟩ := Option.bind_eq_some_iff.mp read
      cases same
      exact shorter
    · cases read
      exact shorter

/-- One round of the loop, without the sink. -/
def stepText (rest : Rest) : Option Emission :=
  match rest.fmt with
  | [] => some ⟨.stop, [], rest, none⟩
  | c :: fmt =>
      if c ≠ 37#8 then some ⟨.more, [c], { rest with fmt }, none⟩
      else if fmt.head? = some 37#8 then some ⟨.more, [37#8], { rest with fmt := fmt.tail }, none⟩
      else directiveText { rest with fmt }

theorem step_emits (s : State) : step s = (stepText s.toRest).map fun e => e.apply s := by
  obtain ⟨⟨fmt, args⟩, o, stores⟩ := s
  simp only [step, stepText]
  cases fmt with
  | nil => simp [Emission.apply, outs]
  | cons c fmt =>
      simp only
      split_ifs
      · simp [Emission.apply, outs]
      · simp [Emission.apply, outs]
      · rw [directive_emits]
        rfl

theorem stepText_shorter {rest : Rest} {e : Emission} (read : stepText rest = some e)
    (more : e.outcome = .more) : e.rest.fmt.length < rest.fmt.length := by
  simp only [stepText] at read
  split at read
  · cases read
    cases more
  · rename_i c fmt same
    rw [same, List.length_cons]
    split_ifs at read
    · cases read
      exact Nat.lt_succ_self _
    · cases read
      simp only [List.length_tail]
      omega
    · exact Nat.lt_succ_of_le (directiveText_shorter read)

theorem step_shorter {s s' : State} (stepped : step s = some (.more s')) :
    s'.fmt.length < s.fmt.length := by
  rw [step_emits, Option.map_eq_some_iff] at stepped
  obtain ⟨e, read, same⟩ := stepped
  obtain ⟨outcome, text, rest, place⟩ := e
  cases outcome with
  | more =>
      cases same
      exact stepText_shorter read rfl
  | stop => cases same
  | refuse => cases same

def run (s : State) : Option (Bool × State) :=
  match _stepped : step s with
  | none => none
  | some (.more next) => run next
  | some (.stop last) => some (true, last)
  | some (.refuse last) => some (false, last)
termination_by s.fmt.length
decreasing_by exact step_shorter _stepped

structure Printed where
  ret : Int
  data : Nat → BitVec 8
  stores : List (Nat × BitVec 32)

def vsnprintf (data : Nat → BitVec 8) (cap : BitVec 32) (fmt : List (BitVec 8))
    (args : List Argument) : Option Printed :=
  (run ⟨⟨fmt, args⟩, ⟨data, cap, 0⟩, []⟩).map fun (supported, last) =>
    if supported then
      let o := last.o
      let data := if o.cap ≠ 0 then
        Function.update o.data (if o.count < o.cap then o.count else o.cap - 1).toNat 0 else o.data
      ⟨o.count.toInt, data, last.stores⟩
    else ⟨-1, last.o.data, last.stores⟩

structure FilePrint where
  ret : Int
  error : Bool
  written : Option (List (BitVec 8))

/-- `small` and `heap` are the two buffers as they come, `malloc` tells whether there is room, and
`fwrite` how much of the text is taken. -/
def vfprintf (malloc : BitVec 32 → Bool) (fwrite : List (BitVec 8) → Nat) (small heap : Nat → BitVec 8)
    (fmt : List (BitVec 8)) (args : List Argument) : Option FilePrint := do
  let first ← vsnprintf small 256 fmt args
  let n := first.ret
  if n < 0 then return ⟨-1, true, none⟩
  if n ≥ 256 then
    if malloc (BitVec.ofInt 32 (n + 1)) then
      let second ← vsnprintf heap (BitVec.ofInt 32 (n + 1)) fmt args
      let text := (List.range n.toNat).map second.data
      return ⟨if fwrite text = n.toNat then n else -1, false, some text⟩
    else return ⟨-1, true, none⟩
  else
    let text := (List.range n.toNat).map first.data
    return ⟨if fwrite text = n.toNat then n else -1, false, some text⟩

end SymphonyPlus.Format
