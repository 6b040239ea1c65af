import SymphonyPlus.Asm

/-!
Relocatable objects of `symcc/src/obj.c`: what the linkers take from a line. A line is a C string
without its terminator; lists run in the order of the C lists, so the newest bss entry comes first.
-/

namespace SymphonyPlus

structure ObjSymbol where
  name : List Char
  isData : Bool
  segment : Nat
  offset : Int
  size : Int
  deriving DecidableEq, Repr

structure ObjBss where
  name : List Char
  size : Int
  deriving DecidableEq, Repr

structure Obj where
  textLines : List (List Char)
  dataLines : List (List Char)
  bss : List ObjBss
  syms : List ObjSymbol
  deriving DecidableEq, Repr

def objNew : Obj := { textLines := [], dataLines := [], bss := [], syms := [] }

def Obj.addText (o : Obj) (line : List Char) : Obj := { o with textLines := o.textLines ++ [line] }

def Obj.addData (o : Obj) (line : List Char) : Obj := { o with dataLines := o.dataLines ++ [line] }

def Obj.addSymbol (o : Obj) (symbol : ObjSymbol) : Obj := { o with syms := symbol :: o.syms }

def Obj.addBss (o : Obj) (entry : ObjBss) : Obj := { o with bss := entry :: o.bss }

def isLineEnd (c : Char) : Bool := c = '\n' || c = '\r'

def objLabelNameLen (line : List Char) : Nat :=
  let s := (line.rdropWhile isLineEnd).dropWhile isLineEnd
  if s.length < 2 ∨ s.getLast? ≠ some ':' then 0
  else if s.head? = some ' ' ∨ s.head? = some ';' ∨ s.head? = some '"' then 0
  else if s.dropLast.all isIdentRest then s.length - 1
  else 0

/-- `obj_line_size`; `none` is the exit on a string without its closing quote. -/
def objLineSize (line : List Char) : Option Nat :=
  match line.dropWhile (· = ' ') with
  | [] => some 0
  | c :: rest =>
      let s := c :: rest
      if c = ';' ∨ c = '\n' then some 0
      else if objLabelNameLen line ≠ 0 then some 0
      else if c = '"' then
        if '"' ∈ rest then some (rest.takeWhile (· ≠ '"')).length else none
      else if "U8 ".toList.isPrefixOf s then some 1
      else if "U16 ".toList.isPrefixOf s then some 2
      else if "U32 ".toList.isPrefixOf s then some 4
      else if "push ".toList.isPrefixOf s then some 8
      else if "pop ".toList.isPrefixOf s then some 8
      else if "call ".toList.isPrefixOf s then some 20
      else if "ret".toList.isPrefixOf s then some 12
      else some 4

end SymphonyPlus
