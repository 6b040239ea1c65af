import SymphonyPlus.Machine

/-!
The instruction encoding table of `emu/isa.c` and its encoder. Operand slots
that the table marks `NONE` are left out; the fields keep their order.
-/

namespace SymphonyPlus

inductive OperandKind
  | reg | imm
  deriving DecidableEq, Repr

/-- `OpField`: a second position repeats the operand, as in the register form of `not`. -/
structure OpField where
  kind : OperandKind
  pos : Nat
  pos2 : Option Nat := none
  deriving DecidableEq, Repr

structure InsnWord where
  bits : BitVec 32
  mask : BitVec 32
  ops : List OpField
  deriving DecidableEq, Repr

structure Insn where
  name : String
  words : List InsnWord
  deriving DecidableEq, Repr

def REG (pos : Nat) : OpField := { kind := .reg, pos := pos }
def IMM (pos : Nat) : OpField := { kind := .imm, pos := pos }

def Insn.nwords (insn : Insn) : Nat := insn.words.length

def Insn.fields (insn : Insn) : List OpField := insn.words.flatMap InsnWord.ops

def Insn.kinds (insn : Insn) : List OperandKind := insn.fields.map OpField.kind

def single (name : String) (bits mask : BitVec 32) (ops : List OpField) : Insn :=
  { name, words := [{ bits, mask, ops }] }

def regNames : List String :=
  ["zr", "r1", "r2", "r3", "r4", "r5", "r6", "r7",
   "r8", "r9", "r10", "r11", "r12", "r13", "sp", "flags"]

def isaTable : List Insn := [
  single "nop" 0x00000000 0xFFFFFFFF [],
  single "in" 0x01000000 0xFF00FFFF [REG 20],
  single "out" 0x02000000 0xFFFF00FF [REG 8],
  single "out" 0x12000000 0xFFFF0000 [IMM 0],
  single "keyboard" 0x03000000 0xFF00FFFF [REG 20],
  single "screen" 0x04000000 0xFFF0F0FF [REG 16, REG 8],
  single "screen" 0x14000000 0xFFF00000 [REG 16, IMM 0],
  single "time_0" 0x05000000 0xFF00FFFF [REG 20],
  single "time_1" 0x06000000 0xFF00FFFF [REG 20],
  single "counter" 0x07000000 0xFF00FFFF [REG 20],

  single "mov" 0x21000000 0xFFF0F0FF [REG 20, REG 8],
  single "mov" 0x31000000 0xFFF00000 [REG 20, IMM 0],
  single "neg" 0x25000000 0xFFF0F0FF [REG 20, REG 8],
  single "neg" 0x35000000 0xFFF00000 [REG 20, IMM 0],
  single "not" 0x23000000 0xFF00F0FF [REG 20, { kind := .reg, pos := 16, pos2 := some 8 }],
  single "not" 0x33000000 0xFFF00000 [REG 20, IMM 0],

  single "nand" 0x20000000 0xFF00F0FF [REG 20, REG 16, REG 8],
  single "or" 0x21000000 0xFF00F0FF [REG 20, REG 16, REG 8],
  single "and" 0x22000000 0xFF00F0FF [REG 20, REG 16, REG 8],
  single "nor" 0x23000000 0xFF00F0FF [REG 20, REG 16, REG 8],
  single "add" 0x24000000 0xFF00F0FF [REG 20, REG 16, REG 8],
  single "sub" 0x25000000 0xFF00F0FF [REG 20, REG 16, REG 8],
  single "xor" 0x26000000 0xFF00F0FF [REG 20, REG 16, REG 8],
  single "lsl" 0x27000000 0xFF00F0FF [REG 20, REG 16, REG 8],
  single "lsr" 0x28000000 0xFF00F0FF [REG 20, REG 16, REG 8],
  single "asr" 0x29000000 0xFF00F0FF [REG 20, REG 16, REG 8],
  single "mul" 0x2B000000 0xFF00F0FF [REG 20, REG 16, REG 8],
  single "div" 0x2C000000 0xFF00F0FF [REG 20, REG 16, REG 8],
  single "mod" 0x2D000000 0xFF00F0FF [REG 20, REG 16, REG 8],
  single "cmp" 0x2AF00000 0xFFF0F0FF [REG 16, REG 8],

  single "nand" 0x30000000 0xFF000000 [REG 20, REG 16, IMM 0],
  single "or" 0x31000000 0xFF000000 [REG 20, REG 16, IMM 0],
  single "and" 0x32000000 0xFF000000 [REG 20, REG 16, IMM 0],
  single "nor" 0x33000000 0xFF000000 [REG 20, REG 16, IMM 0],
  single "add" 0x34000000 0xFF000000 [REG 20, REG 16, IMM 0],
  single "sub" 0x35000000 0xFF000000 [REG 20, REG 16, IMM 0],
  single "xor" 0x36000000 0xFF000000 [REG 20, REG 16, IMM 0],
  single "lsl" 0x37000000 0xFF000000 [REG 20, REG 16, IMM 0],
  single "lsr" 0x38000000 0xFF000000 [REG 20, REG 16, IMM 0],
  single "asr" 0x39000000 0xFF000000 [REG 20, REG 16, IMM 0],
  single "mul" 0x3B000000 0xFF000000 [REG 20, REG 16, IMM 0],
  single "div" 0x3C000000 0xFF000000 [REG 20, REG 16, IMM 0],
  single "mod" 0x3D000000 0xFF000000 [REG 20, REG 16, IMM 0],
  single "cmp" 0x3AF00000 0xFFF00000 [REG 16, IMM 0],

  single "jmp" 0x480F0000 0xFFFF0FFF [REG 8],
  single "jmp" 0x580F0000 0xFFFF0000 [IMM 0],
  single "je" 0x510F0000 0xFFFF0000 [IMM 0],
  single "jne" 0x590F0000 0xFFFF0000 [IMM 0],
  single "jb" 0x520F0000 0xFFFF0000 [IMM 0],
  single "jae" 0x5A0F0000 0xFFFF0000 [IMM 0],
  single "jbe" 0x530F0000 0xFFFF0000 [IMM 0],
  single "ja" 0x5B0F0000 0xFFFF0000 [IMM 0],
  single "jl" 0x540F0000 0xFFFF0000 [IMM 0],
  single "jge" 0x5C0F0000 0xFFFF0000 [IMM 0],
  single "jle" 0x550F0000 0xFFFF0000 [IMM 0],
  single "jg" 0x5D0F0000 0xFFFF0000 [IMM 0],

  single "load_8" 0x60000000 0xFFF0F0FF [REG 20, REG 8],
  single "load_16" 0x61000000 0xFFF0F0FF [REG 20, REG 8],
  single "load_32" 0x62000000 0xFFF0F0FF [REG 20, REG 8],
  single "pload" 0x63000000 0xFFF0F0FF [REG 20, REG 8],
  single "store_8" 0x64000000 0xFF0FF0FF [REG 8, REG 16],
  single "store_16" 0x65000000 0xFF0FF0FF [REG 8, REG 16],
  single "store_32" 0x66000000 0xFF0FF0FF [REG 8, REG 16],
  single "pstore" 0x67000000 0xFF0FF0FF [REG 8, REG 16],
  single "load_8" 0x70000000 0xFFF00000 [REG 20, IMM 0],
  single "load_16" 0x71000000 0xFFF00000 [REG 20, IMM 0],
  single "load_32" 0x72000000 0xFFF00000 [REG 20, IMM 0],
  single "pload" 0x73000000 0xFFF00000 [REG 20, IMM 0],
  single "store_8" 0x74000000 0xFF0F0000 [IMM 0, REG 16],
  single "store_16" 0x75000000 0xFF0F0000 [IMM 0, REG 16],
  single "store_32" 0x76000000 0xFF0F0000 [IMM 0, REG 16],
  single "pstore" 0x77000000 0xFF0F0000 [IMM 0, REG 16],

  { name := "push", words := [
      { bits := 0x35EE0004, mask := 0xFFFFFFFF, ops := [] },
      { bits := 0x66000E00, mask := 0xFFF0FFFF, ops := [REG 16] }] },
  { name := "pop", words := [
      { bits := 0x62000E00, mask := 0xFFF0FFFF, ops := [REG 20] },
      { bits := 0x34EE0004, mask := 0xFFFFFFFF, ops := [] }] },
  { name := "call", words := [
      { bits := 0x07F00000, mask := 0xFFFFFFFF, ops := [] },
      { bits := 0x34FF0014, mask := 0xFFFFFFFF, ops := [] },
      { bits := 0x35EE0004, mask := 0xFFFFFFFF, ops := [] },
      { bits := 0x660F0E00, mask := 0xFFFFFFFF, ops := [] },
      { bits := 0x580F0000, mask := 0xFFFF0000, ops := [IMM 0] }] },
  { name := "ret", words := [
      { bits := 0x62F00E00, mask := 0xFFFFFFFF, ops := [] },
      { bits := 0x34EE0004, mask := 0xFFFFFFFF, ops := [] },
      { bits := 0x480F0F00, mask := 0xFFFFFFFF, ops := [] }] }]

def isaRegIndex (name : List Char) : Option Nat :=
  regNames.findIdx? (fun known => known.toList = name)

def OpField.insert (field : OpField) (word value : BitVec 32) : BitVec 32 :=
  let first := word ||| (value <<< field.pos)
  match field.pos2 with
  | none => first
  | some second => first ||| (value <<< second)

/-- The operands of one word, and those left for the words after it. -/
def insertFields : List OpField → BitVec 32 → List (BitVec 32) → BitVec 32 × List (BitVec 32)
  | [], word, values => (word, values)
  | field :: fields, word, values =>
      insertFields fields (field.insert word (values.headD 0)) values.tail

def encodeWords : List InsnWord → List (BitVec 32) → List (BitVec 32)
  | [], _ => []
  | word :: words, values =>
      let filled := insertFields word.ops word.bits values
      filled.1 :: encodeWords words filled.2

def isaWords (insn : Insn) (values : List (BitVec 32)) : List (BitVec 32) :=
  encodeWords insn.words values

/-- `isa_encode`: the big-endian bytes of every word. -/
def isaEncode (insn : Insn) (values : List (BitVec 32)) : List (BitVec 8) :=
  (isaWords insn values).flatMap ByteMemory.wordBytes

theorem encodeWords_length (words : List InsnWord) (values : List (BitVec 32)) :
    (encodeWords words values).length = words.length := by
  induction words generalizing values with
  | nil => rfl
  | cons word words ih => simp [encodeWords, ih]

theorem isaWords_length (insn : Insn) (values : List (BitVec 32)) :
    (isaWords insn values).length = insn.nwords :=
  encodeWords_length insn.words values

theorem isaEncode_length (insn : Insn) (values : List (BitVec 32)) :
    (isaEncode insn values).length = insn.nwords * 4 := by
  rw [isaEncode, ByteMemory.flatMap_wordBytes_length, isaWords_length]

theorem isaRegIndex_lt {name : List Char} {index : Nat} (found : isaRegIndex name = some index) :
    index < 16 :=
  (List.findIdx?_eq_some_iff_getElem.mp found).1

end SymphonyPlus
