import Mathlib.Data.List.Basic
import Mathlib.Logic.Function.Basic
import SymphonyPlus.ByteMemory

/-! The allocator of `user/native/heap.c`. Pointers and sizes are the numbers of the machine's
words; the headers of the blocks lie in the memory that the clients write to. -/

namespace SymphonyPlus.NativeHeap

open ByteMemory Function

inductive Field
  | size
  | available
  | next
  | prev
  | freeNext
  | freePrev
  deriving DecidableEq

def Field.offset : Field → Nat
  | .size => 0
  | .available => 4
  | .next => 8
  | .prev => 12
  | .freeNext => 16
  | .freePrev => 20

def headerSize : Nat := 24

/-- `tail` and `bins`, with the break of the process and what `heap_break` notes of it. -/
structure Heap where
  memory : Memory
  tail : Nat
  bins : Nat → Nat
  brk : Nat
  origin : Nat
  peak : Nat

def word : Nat := 2 ^ 32

def sub (a b : Nat) : Nat := (a + word - b) % word

namespace Heap

def get (h : Heap) (f : Field) (b : Nat) : Nat := (read32 h.memory (b + f.offset)).toNat

def put (h : Heap) (f : Field) (b value : Nat) : Heap :=
  { h with memory := write32 h.memory (b + f.offset) (BitVec.ofNat 32 value) }

def setBin (h : Heap) (index b : Nat) : Heap := { h with bins := update h.bins index b }

def setTail (h : Heap) (b : Nat) : Heap := { h with tail := b }

def setMemory (h : Heap) (memory : Memory) : Heap := { h with memory }

end Heap

def payload (b : Nat) : Nat := (b + headerSize) % word

def behind (b size : Nat) : Nat := (b + headerSize + size) % word

/-- The shifts that leave 1 of a size. -/
def shifts : Nat → Nat → Nat
  | 0, _ => 0
  | fuel + 1, size => if 1 < size then shifts fuel (size / 2) + 1 else 0

def binIndex (size : Nat) : Nat := shifts 32 size

/-- `heap_break` over `sp_brk`, which may refuse. A null pointer says so. -/
def heapBreak (allows : Nat → Bool) (h : Heap) (n : Nat) (grow : Bool) : Nat × Heap :=
  let old := h.brk
  let h := if h.origin = 0 then { h with origin := old } else h
  if !grow then (old, h)
  else if word - 1 - old < n || !allows (old + n) then (0, h)
  else
    (old, { h with
      brk := old + n
      peak := if h.peak < sub (old + n) h.origin then sub (old + n) h.origin else h.peak })

namespace Heap

def insertFree (h : Heap) (b : Nat) : Heap :=
  let index := binIndex (h.get .size b)
  let h := h.put .available b 1
  let h := h.put .freePrev b 0
  let h := h.put .freeNext b (h.bins index)
  let h := if h.get .freeNext b ≠ 0 then h.put .freePrev (h.get .freeNext b) b else h
  h.setBin index b

def removeFree (h : Heap) (b : Nat) : Heap :=
  let h :=
    if h.get .freePrev b ≠ 0 then h.put .freeNext (h.get .freePrev b) (h.get .freeNext b)
    else h.setBin (binIndex (h.get .size b)) (h.get .freeNext b)
  let h :=
    if h.get .freeNext b ≠ 0 then h.put .freePrev (h.get .freeNext b) (h.get .freePrev b) else h
  let h := h.put .freeNext b 0
  let h := h.put .freePrev b 0
  h.put .available b 0

def joinNext (h : Heap) (b : Nat) : Heap :=
  let n := h.get .next b
  let h := h.put .size b (h.get .size b + (headerSize + h.get .size n))
  let h := h.put .next b (h.get .next n)
  if h.get .next b ≠ 0 then h.put .prev (h.get .next b) b else h.setTail b

def cutBlock (h : Heap) (b n size : Nat) : Heap :=
  let h := h.put .size n (sub (sub (h.get .size b) size) headerSize)
  let h := h.put .prev n b
  let h := h.put .next n (h.get .next b)
  let h := if h.get .next n ≠ 0 then h.put .prev (h.get .next n) n else h.setTail n
  let h := h.put .next b n
  h.put .size b size

def splitBlock (h : Heap) (b size : Nat) : Heap :=
  if sub (h.get .size b) size < headerSize + 8 then h
  else (h.cutBlock b (behind b size) size).insertFree (behind b size)

def appendHeader (h : Heap) (b size : Nat) : Heap :=
  let h := h.put .size b size
  let h := h.put .available b 0
  let h := h.put .next b 0
  let h := h.put .prev b h.tail
  let h := h.put .freeNext b 0
  let h := h.put .freePrev b 0
  let h := if h.tail ≠ 0 then h.put .next h.tail b else h
  h.setTail b

end Heap

/-- The search of one bin. A list that goes on for longer than the heap has no end. -/
def searchBin (h : Heap) (size : Nat) : Nat → Nat → Option (Option Nat)
  | 0, _ => none
  | fuel + 1, b =>
      if b = 0 then some none
      else if size ≤ h.get .size b then some (some b)
      else searchBin h size fuel (h.get .freeNext b)

def searchBins (h : Heap) (size : Nat) : List Nat → Option (Option Nat)
  | [] => some none
  | index :: rest =>
      match searchBin h size (h.brk + 1) (h.bins index) with
      | none => none
      | some (some b) => some (some b)
      | some none => searchBins h size rest

def rounded (size : Nat) : Nat := (size + 7) / 8 * 8

def appendBlock (allows : Nat → Bool) (h : Heap) (size : Nat) : Nat × Heap :=
  let (b, h) := heapBreak allows h (headerSize + size) true
  if b = 0 then (0, h) else (payload b, h.appendHeader b size)

/-- The pointer, or 0, and the heap after the call; a search that does not end has no result. -/
def malloc (allows : Nat → Bool) (h : Heap) (size : Nat) : Option (Nat × Heap) :=
  let size := if size = 0 then 1 else size
  if word - 1 - 7 - headerSize < size then some (0, h)
  else
    let size := rounded size
    (searchBins h size (List.range' (binIndex size) (32 - binIndex size))).map fun
      | some b => (payload b, (h.removeFree b).splitBlock b size)
      | none => appendBlock allows h size

def header (p : Nat) : Nat := sub p headerSize

/-- A block that is freed joins a free one that ends at it. -/
def mergePrev (h : Heap) (b : Nat) : Heap × Nat :=
  let prev := h.get .prev b
  if prev ≠ 0 ∧ h.get .available prev ≠ 0 ∧ behind prev (h.get .size prev) = b then
    ((h.removeFree prev).joinNext prev, prev)
  else (h, b)

/-- A block that is freed takes in a free one that begins behind it. -/
def mergeNext (h : Heap) (b : Nat) : Heap :=
  let next := h.get .next b
  if next ≠ 0 ∧ h.get .available next ≠ 0 ∧ behind b (h.get .size b) = next then
    (h.removeFree next).joinNext b
  else h

def free (h : Heap) (p : Nat) : Heap :=
  if p = 0 then h
  else
    let (h, b) := mergePrev h (header p)
    (mergeNext h b).insertFree b

def clear (m : Memory) (p : Nat) : Nat → Memory
  | 0 => m
  | n + 1 => write8 (clear m p n) (p + n) 0

def copy (m : Memory) (out p : Nat) : Nat → Memory
  | 0 => m
  | n + 1 =>
      let m := copy m out p n
      write8 m (out + n) (m (p + n))

def calloc (allows : Nat → Bool) (h : Heap) (count size : Nat) : Option (Nat × Heap) :=
  if size ≠ 0 ∧ (word - 1) / size < count then some (0, h)
  else
    let n := count * size
    (malloc allows h n).map fun (p, h) => (p, if p ≠ 0 then h.setMemory (clear h.memory p n) else h)

def growLast (allows : Nat → Bool) (h : Heap) (b aligned : Nat) : Nat × Heap :=
  if h.get .next b = 0 then
    let (here, h) := heapBreak allows h 0 false
    if here = behind b (h.get .size b) then
      heapBreak allows h (sub aligned (h.get .size b)) true
    else (0, h)
  else (0, h)

def realloc (allows : Nat → Bool) (h : Heap) (p size : Nat) : Option (Nat × Heap) :=
  if p = 0 then malloc allows h size
  else if size = 0 then some (0, free h p)
  else
    let b := header p
    if size ≤ h.get .size b then some (p, h)
    else if word - 1 - 7 - headerSize < size then some (0, h)
    else
      let aligned := rounded size
      let next := h.get .next b
      if next ≠ 0 ∧ h.get .available next ≠ 0 ∧ behind b (h.get .size b) = next ∧
          aligned ≤ (h.get .size b + headerSize + h.get .size next) % word then
        some (p, ((h.removeFree next).joinNext b).splitBlock b aligned)
      else
        let (start, h) := growLast allows h b aligned
        if start ≠ 0 then some (p, h.put .size b aligned)
        else
          (malloc allows h size).map fun (out, h) =>
            if out = 0 then (0, h)
            else
              let h := h.setMemory (copy h.memory out p (h.get .size b))
              (out, free h p)

end SymphonyPlus.NativeHeap
