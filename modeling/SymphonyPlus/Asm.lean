import SymphonyPlus.IsaTable
import Mathlib.Data.List.DropRight

/-!
The two-pass assembler of `emu/asm.c`, host build. A C string is the list of its
characters before the terminator; offsets are 32-bit counters, so every sum is
reduced. Both passes run the same line code: the first collects labels, the
second resolves them and writes.
-/

namespace SymphonyPlus

def maxLabels : Nat := 4096
def maxLine : Nat := 4096

/-- `Label`: a name has room for 63 characters. -/
structure Label where
  name : List Char
  off : Nat
  short : name.length ≤ 63
  deriving DecidableEq, Repr

/-- `AsmError`: line 0 is no error. -/
structure AsmError where
  line : Nat
  msg : List Char
  deriving DecidableEq, Repr

/-- `set_err`: the message buffer holds 127 characters. -/
def setErr (line : Nat) (msg : List Char) : AsmError := { line, msg := msg.take 127 }

def quoted (before : String) (text : List Char) (after : String) : List Char :=
  before.toList ++ text ++ after.toList

def isBlank (c : Char) : Bool := c = ' ' || c = '\t'

def skipWs (text : List Char) : List Char := text.dropWhile isBlank

def trim (text : List Char) : List Char := (skipWs text).rdropWhile isBlank

def skipComment (text : List Char) : List Char := (text.dropWhile (· ≠ '\n')).drop 1

def scanLine (inStr : Bool) : List Char → List Char × List Char
  | [] => ([], [])
  | c :: rest =>
      if c = '\n' then ([], rest)
      else if c = '\r' then scanLine inStr rest
      else
        let inStr := if c = '"' then !inStr else inStr
        if !inStr && (c = ';' || (c = '/' && rest.head? = some '/')) then ([], skipComment rest)
        else
          let scanned := scanLine inStr rest
          (c :: scanned.1, scanned.2)

/-- `next_line`: nothing is left exactly at the end of the text. -/
def nextLine (text : List Char) : Option (List Char × List Char) :=
  match text with
  | [] => none
  | c :: rest =>
      let scanned := scanLine false (c :: rest)
      some (scanned.1.take (maxLine - 1), scanned.2)

def linesFrom : Nat → List Char → List (List Char)
  | 0, _ => []
  | fuel + 1, text =>
      match nextLine text with
      | none => []
      | some (line, rest) => line :: linesFrom fuel rest

/-- The lines both passes read. Every line consumes a character of the text. -/
def textLines (text : List Char) : List (List Char) := linesFrom text.length text

def isSpace (c : Char) : Bool :=
  c = ' ' || (9 ≤ c.toNat && c.toNat ≤ 13)

def digitValue (c : Char) : Nat :=
  if '0' ≤ c ∧ c ≤ '9' then c.toNat - '0'.toNat
  else if 'a' ≤ c ∧ c ≤ 'z' then c.toNat - 'a'.toNat + 10
  else if 'A' ≤ c ∧ c ≤ 'Z' then c.toNat - 'A'.toNat + 10
  else 36

def digitsValue (base : Nat) (digits : List Char) : Option Nat :=
  if digits ≠ [] ∧ digits.all (fun c => digitValue c < base) then
    some (digits.foldl (fun total c => total * base + digitValue c) 0)
  else none

def splitSign : List Char → Bool × List Char
  | '-' :: rest => (true, rest)
  | '+' :: rest => (false, rest)
  | text => (false, text)

/-- The automatic base of `strtoull`: `0x` counts only before a hexadecimal digit. -/
def splitBase (text : List Char) : Nat × List Char :=
  match text with
  | '0' :: x :: digit :: rest =>
      if (x = 'x' ∨ x = 'X') ∧ digitValue digit < 16 then (16, digit :: rest) else (8, text)
  | '0' :: _ => (8, text)
  | _ => (10, text)

/-- `parse_num`, which accepts a text only if `strtoull` reads all of it without overflow. -/
def parseNum (text : List Char) : Option Nat :=
  if text.head? = some '-' then none
  else
    let signed := splitSign (text.dropWhile isSpace)
    let based := splitBase signed.2
    match digitsValue based.1 based.2 with
    | none => none
    | some value =>
        if 2 ^ 64 ≤ value then none
        else if signed.1 then some ((2 ^ 64 - value) % 2 ^ 64)
        else some value

def isIdentStart (c : Char) : Bool := c = '_' || c.isAlpha

def isIdentRest (c : Char) : Bool := c = '_' || c.isAlphanum

def isIdent : List Char → Bool
  | [] => false
  | c :: rest => isIdentStart c && rest.all isIdentRest

def Label.cut (name : List Char) (off : Nat) : Label :=
  { name := name.take 63, off, short := List.length_take_le 63 name }

def addLabel (labels : List Label) (name : List Char) (off lineno : Nat) :
    Except AsmError (List Label) :=
  if !isIdent name then .error (setErr lineno (quoted "bad label name '" name "'"))
  else if (isaRegIndex name).isSome then
    .error (setErr lineno (quoted "label '" name "' shadows a register name"))
  else if labels.any (fun label => label.name = name) then .ok labels
  else if maxLabels ≤ labels.length then
    .error (setErr lineno (quoted "too many labels (max " (toString maxLabels).toList ")"))
  else .ok (labels ++ [.cut name off])

/-- `label_off`; the offset of all ones stands for a missing label. -/
def labelOff (labels : List Label) (name : List Char) : Nat :=
  match labels.find? (fun label => label.name = name) with
  | some label => label.off
  | none => 2 ^ 32 - 1

def charLiteral (op : List Char) : Option Char :=
  match op with
  | [first, c, last] => if first = '\'' ∧ last = '\'' then some c else none
  | _ => none

/-- `parse_imm`: `none` is a variant that does not match, an error is a hard one. Without
`resolve` a label has no value yet. -/
def parseImm (op : List Char) (resolve : Bool) (labels : List Label) (lineno : Nat) :
    Except AsmError (Option (BitVec 32)) :=
  match charLiteral op with
  | some c => .ok (some (BitVec.ofNat 32 (c.toNat % 256)))
  | none =>
      if (isaRegIndex op).isSome then .ok none
      else
        match parseNum op with
        | some value => .ok (some (BitVec.ofNat 32 value))
        | none =>
            if !isIdent op then .ok none
            else if !resolve then .ok (some 0)
            else
              let off := labelOff labels op
              if off = 2 ^ 32 - 1 then
                .error (setErr lineno (quoted "undefined label '" op "'"))
              else .ok (some (BitVec.ofNat 32 off))

def stripBrackets (text : List Char) : List Char :=
  if 2 ≤ text.length ∧ text.head? = some '[' ∧ text.getLast? = some ']' then
    (text.drop 1).dropLast
  else text

def operandText (tok : List Char) : List Char := trim (tok.takeWhile (· ≠ ','))

def operandRest (tok : List Char) : List Char := (tok.dropWhile (· ≠ ',')).drop 1

def parseOperand (kind : OperandKind) (text : List Char) (resolve : Bool) (labels : List Label)
    (lineno : Nat) : Except AsmError (Option (BitVec 32)) :=
  match kind with
  | .reg => .ok ((isaRegIndex text).map (BitVec.ofNat 32))
  | .imm =>
      match parseImm text resolve labels lineno with
      | .error err => .error err
      | .ok none => .ok none
      | .ok (some value) =>
          if resolve ∧ 0xFFFF < value.toNat then
            .error (setErr lineno (quoted "immediate/label too large: 0x"
              (Nat.toDigits 16 value.toNat) " (>0xFFFF)"))
          else .ok (some value)

def parseOperands (resolve : Bool) (labels : List Label) (lineno : Nat) :
    List OpField → List Char → Except AsmError (Option (List (BitVec 32)))
  | [], tok => .ok (if trim tok = [] then some [] else none)
  | field :: fields, tok =>
      let text := operandText tok
      if text = [] then .ok none
      else
        match parseOperand field.kind (stripBrackets text) resolve labels lineno with
        | .error err => .error err
        | .ok none => .ok none
        | .ok (some value) =>
            match parseOperands resolve labels lineno fields (operandRest tok) with
            | .error err => .error err
            | .ok values => .ok (values.map (value :: ·))

/-- What one emitter returns: the size of the line, and in the second pass its bytes. -/
structure Emitted where
  size : Nat
  bytes : List (BitVec 8)
  deriving DecidableEq

def outputTooLarge (lineno : Nat) : AsmError := setErr lineno "output too large".toList

/-- `emit_insn`: the first variant of the mnemonic whose operands match is the one encoded. -/
def emitInsnFrom (mnem ops : List Char) (resolve : Bool) (labels : List Label)
    (off cap lineno : Nat) : List Insn → Except AsmError Emitted
  | [] => .error (setErr lineno (quoted "unknown instruction '" mnem "' or bad operands"))
  | insn :: rest =>
      if insn.name.toList ≠ mnem then emitInsnFrom mnem ops resolve labels off cap lineno rest
      else
        match parseOperands resolve labels lineno insn.fields ops with
        | .error err => .error err
        | .ok none => emitInsnFrom mnem ops resolve labels off cap lineno rest
        | .ok (some values) =>
            let n := insn.nwords * 4
            if !resolve then .ok { size := n, bytes := [] }
            else if cap < (off + n) % 2 ^ 32 then .error (outputTooLarge lineno)
            else .ok { size := n, bytes := isaEncode insn values }

def emitInsn (mnem ops : List Char) (resolve : Bool) (labels : List Label)
    (off cap lineno : Nat) : Except AsmError Emitted :=
  emitInsnFrom mnem ops resolve labels off cap lineno isaTable

def dataWidths : List (String × Nat) := [("U8", 1), ("U16", 2), ("U32", 4), ("U64", 8)]

/-- The width that a data line names, and the text of its number. -/
def dataLine (rest : List Char) : Option (Nat × List Char) :=
  dataWidths.findSome? fun entry =>
    let name := entry.1.toList
    if name.isPrefixOf rest ∧ ((rest.drop name.length).head?.any isBlank) then
      some (entry.2, skipWs (rest.drop name.length))
    else none

def bigEndian (width value : Nat) : List (BitVec 8) :=
  (List.range width).map fun i => BitVec.ofNat 8 (value / 2 ^ (8 * (width - 1 - i)))

/-- `emit_data`: `none` is a line that is not data. -/
def emitData (rest : List Char) (resolve : Bool) (off cap lineno : Nat) :
    Option (Except AsmError Emitted) :=
  match dataLine rest with
  | none => none
  | some (width, number) => some <|
      match parseNum number with
      | none => .error (setErr lineno (quoted "bad number in '" rest "'"))
      | some value =>
          if width < 8 ∧ 2 ^ (width * 8) ≤ value then
            .error (setErr lineno (quoted "value too large for U" (toString width).toList ""))
          else if !resolve then .ok { size := width, bytes := [] }
          else if cap < (off + width) % 2 ^ 32 then .error (outputTooLarge lineno)
          else .ok { size := width, bytes := bigEndian width value }

def emitString (rest : List Char) (resolve : Bool) (off cap lineno : Nat) :
    Except AsmError Emitted :=
  let body := (rest.drop 1).takeWhile (· ≠ '"')
  if '"' ∉ rest.drop 1 then .error (setErr lineno "unterminated string".toList)
  else if !resolve then .ok { size := body.length, bytes := [] }
  else if cap < (off + body.length) % 2 ^ 32 then .error (outputTooLarge lineno)
  else .ok { size := body.length, bytes := body.map fun c => BitVec.ofNat 8 c.toNat }

/-- `emit_pad`. The size is returned as an `int`: a negative one fails without a message. -/
def emitPad (rest : List Char) (resolve : Bool) (off cap lineno : Nat) :
    Except AsmError Emitted :=
  match parseNum (rest.drop 1) with
  | none => .error (setErr lineno (quoted "bad pad address '" rest "'"))
  | some target =>
      if target < off then
        .error (setErr lineno (quoted "pad target 0x" (Nat.toDigits 16 target)
          " before current offset"))
      else if cap < target - off then .error (outputTooLarge lineno)
      else
        let size := (target - off) % 2 ^ 32
        if 2 ^ 31 ≤ size then .error { line := 0, msg := [] }
        else .ok { size, bytes := if resolve then List.replicate (target - off) 0 else [] }

/-- The label prefix of a trimmed line and the text the line goes on with. Trimming the text
before the colon cuts a line without a label at the blanks there. -/
def splitLabel (p : List Char) : Option (List Char) × List Char :=
  if ':' ∉ p then (none, p)
  else
    let before := p.takeWhile (· ≠ ':')
    let name := trim before
    if isIdent name then (some name, trim ((p.dropWhile (· ≠ ':')).drop 1))
    else if name.length < before.length then (none, name)
    else (none, p)

def emitContent (p : List Char) (resolve : Bool) (labels : List Label) (off cap lineno : Nat) :
    Except AsmError Emitted :=
  match p with
  | [] => .ok { size := 0, bytes := [] }
  | first :: _ =>
      if first = '@' then emitPad p resolve off cap lineno
      else if first = '"' then emitString p resolve off cap lineno
      else if first.isAlpha then
        match emitData p resolve off cap lineno with
        | some emitted => emitted
        | none =>
            emitInsn ((p.takeWhile isIdentRest).take 63) (trim (p.dropWhile isIdentRest))
              resolve labels off cap lineno
      else .error (setErr lineno (quoted "bad line '" p "'"))

def recordLabel (name : Option (List Char)) (resolve : Bool) (labels : List Label)
    (off lineno : Nat) : Except AsmError (List Label) :=
  match name with
  | some name => if resolve then .ok labels else addLabel labels name off lineno
  | none => .ok labels

def processLine (line : List Char) (resolve : Bool) (labels : List Label)
    (off cap lineno : Nat) : Except AsmError (Emitted × List Label) := do
  let parts := splitLabel (trim line)
  let labels ← recordLabel parts.1 resolve labels off lineno
  let emitted ← emitContent parts.2 resolve labels off cap lineno
  return (emitted, labels)

def firstPass (cap : Nat) :
    List (List Char) → Nat → Nat → List Label → Except AsmError (Nat × List Label)
  | [], _, off, labels => .ok (off, labels)
  | line :: lines, lineno, off, labels => do
      let processed ← processLine line false labels off cap lineno
      firstPass cap lines (lineno + 1) ((off + processed.1.size) % 2 ^ 32) processed.2

structure Write where
  off : Nat
  bytes : List (BitVec 8)
  deriving DecidableEq

def secondPass (cap : Nat) (labels : List Label) :
    List (List Char) → Nat → Nat → List Write × Except AsmError Nat
  | [], _, off => ([], .ok off)
  | line :: lines, lineno, off =>
      match processLine line true labels off cap lineno with
      | .error err => ([], .error err)
      | .ok (emitted, _) =>
          let later := secondPass cap labels lines (lineno + 1) ((off + emitted.size) % 2 ^ 32)
          ({ off, bytes := emitted.bytes } :: later.1, later.2)

structure Assembly where
  ret : Int
  writes : List Write
  err : AsmError
  deriving DecidableEq

def noError : AsmError := { line := 0, msg := [] }

def asmAssemble (text : List Char) (cap : Nat) : Assembly :=
  let lines := textLines text
  match firstPass cap lines 1 0 [] with
  | .error err => { ret := -1, writes := [], err }
  | .ok (off, labels) =>
      if cap < off then
        { ret := -1, writes := [],
          err := setErr 0 (quoted "output too large (" (toString off).toList
            (" bytes > " ++ toString (cap % 2 ^ 32) ++ ")")) }
      else
        match secondPass cap labels lines 1 0 with
        | (writes, .error err) => { ret := -1, writes, err }
        | (writes, .ok final) => { ret := (BitVec.ofNat 32 final).toInt, writes, err := noError }

end SymphonyPlus
