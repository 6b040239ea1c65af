import Mathlib.Data.BitVec
import Mathlib.Data.List.Basic

/-! The streams of `native/stdio.c` over a seekable file, and what the same calls mean on the bytes of
the file. -/

namespace SymphonyPlus.Stdio

/-- An open file. The lists say what the next calls do: fail, or move at most so many bytes. A
call beyond its list moves all it can. -/
@[ext] structure Descriptor where
  content : List (BitVec 8)
  offset : Nat
  append : Bool
  reads : List (Option Nat)
  writes : List (Option Nat)

/-- How many of `count` bytes a call moves; nothing when it fails. -/
def quota (count : Nat) : Option (Option Nat) → Option Nat
  | none => some count
  | some none => none
  | some (some most) => some (min count most)

/-- A read that does not fail delivers at least one byte before the end of the file. -/
def Descriptor.read (d : Descriptor) (count : Nat) : Option (List (BitVec 8)) × Descriptor :=
  let rest := { d with reads := d.reads.tail }
  match quota count d.reads.head? with
  | none => (none, rest)
  | some most =>
      let chunk := (d.content.drop d.offset).take (max 1 most)
      (some chunk, { rest with offset := d.offset + chunk.length })

/-- The file after a write; a gap before it is filled with zeros. -/
def overwrite (content : List (BitVec 8)) (place : Nat) (data : List (BitVec 8)) :
    List (BitVec 8) :=
  if data = [] then content
  else content.take place ++ List.replicate (place - content.length) 0 ++ data ++
    content.drop (place + data.length)

/-- A write ends at the largest offset at the latest. In append mode the offset stays. -/
def Descriptor.write (d : Descriptor) (data : List (BitVec 8)) : Option Nat × Descriptor :=
  let rest := { d with writes := d.writes.tail }
  match quota data.length d.writes.head? with
  | none => (none, rest)
  | some most =>
      let place := if d.append then d.content.length else d.offset
      let count := min most (2 ^ 31 - 1 - place)
      (some count,
        { rest with
          content := overwrite d.content place (data.take count)
          offset := if d.append then d.offset else place + count })

def seekBase (d : Descriptor) (origin : Int) : Option Nat :=
  if origin = 0 then some 0
  else if origin = 1 then some d.offset
  else if origin = 2 then some d.content.length
  else none

def Descriptor.lseek (d : Descriptor) (offset : BitVec 32) (origin : Int) :
    Option (BitVec 32) × Descriptor :=
  match seekBase d origin with
  | none => (none, d)
  | some base =>
      let target := BitVec.ofNat 32 base + offset
      if target.slt 0 then (none, d) else (some target, { d with offset := target.toNat })

structure FILE where
  fd : Descriptor
  flags : BitVec 32
  error : Bool
  eof : Bool
  pos : Nat
  len : Nat
  buf : List (BitVec 8)

def writeLoop (d : Descriptor) (data : List (BitVec 8)) : Nat × Bool × Descriptor :=
  if data = [] then (0, false, d)
  else
    match d.write data with
    | (some (n + 1), d) =>
        let rest := writeLoop d (data.drop (n + 1))
        (n + 1 + rest.1, rest.2)
    | (_, d) => (0, true, d)
termination_by data.length
decreasing_by
  have : 0 < data.length := List.length_pos_iff.mpr ‹_›
  simp only [List.length_drop]
  omega

def fgetc (f : FILE) : Option (BitVec 8) × FILE :=
  if f.flags &&& 1 = 0 then (none, { f with error := true })
  else if f.pos = f.len then
    match f.fd.read 512 with
    | (none, fd) => (none, { f with fd := fd, pos := 0, len := 0, error := true })
    | (some [], fd) => (none, { f with fd := fd, pos := 0, len := 0, eof := true })
    | (some (c :: rest), fd) =>
        let chunk := c :: rest
        let buf := chunk ++ f.buf.drop chunk.length
        (some c, { f with fd := fd, pos := 1, len := chunk.length, buf := buf })
  else (f.buf[f.pos]?, { f with pos := f.pos + 1 })

def readLoop : Nat → FILE → List (BitVec 8) × FILE
  | 0, f => ([], f)
  | total + 1, f =>
      match fgetc f with
      | (none, f) => ([], f)
      | (some c, f) =>
          let rest := readLoop total f
          (c :: rest.1, rest.2)

def lineLoop : Nat → FILE → List (BitVec 8) × FILE
  | 0, f => ([], f)
  | room + 1, f =>
      match fgetc f with
      | (none, f) => ([], f)
      | (some c, f) =>
          if c = 10 then ([c], f)
          else
            let rest := lineLoop room f
            (c :: rest.1, rest.2)

def fseek (f : FILE) (offset : BitVec 32) (origin : Int) : Bool × FILE :=
  let offset := if origin = 1 then offset - BitVec.ofNat 32 (f.len - f.pos) else offset
  match f.fd.lseek offset origin with
  | (none, fd) => (false, { f with fd := fd, error := true })
  | (some _, fd) => (true, { f with fd := fd, len := 0, pos := 0, eof := false })

def ftell (f : FILE) : BitVec 32 × FILE :=
  match f.fd.lseek 0 1 with
  | (none, fd) => (-1, { f with fd := fd })
  | (some n, fd) => (n - BitVec.ofNat 32 (f.len - f.pos), { f with fd := fd })

/-- The bytes put into the buffer and the number of whole items. -/
def fread (size count : BitVec 32) (f : FILE) : (List (BitVec 8) × Nat) × FILE :=
  if size = 0 ∨ count = 0 then (([], 0), f)
  else if (2 ^ 32 - 1) / size.toNat < count.toNat then (([], 0), { f with error := true })
  else
    let read := readLoop (size.toNat * count.toNat) f
    ((read.1, read.1.length / size.toNat), read.2)

def fwrite (data : List (BitVec 8)) (size count : BitVec 32) (f : FILE) : Nat × FILE :=
  if size = 0 ∨ count = 0 then (0, f)
  else if f.flags &&& 2 = 0 ∨ 0x7fffffff / size.toNat < count.toNat then
    (0, { f with error := true })
  else
    let synced := if f.len ≠ f.pos then fseek f 0 1 else (true, f)
    if synced.1 then
      let wrote := writeLoop synced.2.fd (data.take (size.toNat * count.toNat))
      (wrote.1 / size.toNat,
        { synced.2 with fd := wrote.2.2, error := synced.2.error || wrote.2.1 })
    else (0, synced.2)

def fgets (cap : BitVec 32) (f : FILE) : Option (List (BitVec 8)) × FILE :=
  if cap.toInt ≤ 0 then (none, f)
  else
    let line := lineLoop (cap.toNat - 1) f
    (if line.1 = [] then none else some line.1, line.2)

def fputc (c : BitVec 32) (f : FILE) : Option (BitVec 8) × FILE :=
  let wrote := fwrite [c.truncate 8] 1 1 f
  (if wrote.1 = 1 then some (c.truncate 8) else none, wrote.2)

def fputs (s : List (BitVec 8)) (f : FILE) : Bool × FILE :=
  let wrote := fwrite s 1 (BitVec.ofNat 32 s.length) f
  (wrote.1 = s.length, wrote.2)

def opened (fd : Descriptor) : FILE where
  fd := fd
  flags := 3
  error := false
  eof := false
  pos := 0
  len := 0
  buf := List.replicate 512 0

inductive Call
  | fgetc
  | fread (size count : BitVec 32)
  | fgets (cap : BitVec 32)
  | fwrite (data : List (BitVec 8)) (size count : BitVec 32)
  | fputc (c : BitVec 32)
  | fputs (s : List (BitVec 8))
  | fseek (offset : BitVec 32) (origin : Int)
  | ftell

inductive Result
  | char (c : Option (BitVec 8))
  | items (bytes : List (BitVec 8)) (count : Nat)
  | line (s : Option (List (BitVec 8)))
  | count (n : Nat)
  | status (success : Bool)
  | position (place : BitVec 32)

def Call.buffered : Call → FILE → Result × FILE
  | .fgetc, f => (Result.char (Stdio.fgetc f).1, (Stdio.fgetc f).2)
  | .fread size count, f =>
      let read := Stdio.fread size count f
      (.items read.1.1 read.1.2, read.2)
  | .fgets cap, f => (.line (Stdio.fgets cap f).1, (Stdio.fgets cap f).2)
  | .fwrite data size count, f =>
      (.count (Stdio.fwrite data size count f).1, (Stdio.fwrite data size count f).2)
  | .fputc c, f => (.char (Stdio.fputc c f).1, (Stdio.fputc c f).2)
  | .fputs s, f => (.status (Stdio.fputs s f).1, (Stdio.fputs s f).2)
  | .fseek offset origin, f =>
      (.status (Stdio.fseek f offset origin).1, (Stdio.fseek f offset origin).2)
  | .ftell, f => (.position (Stdio.ftell f).1, (Stdio.ftell f).2)

/-! The same calls on the file itself: a position in its bytes, without a buffer and without a loop. -/

/-- A file and a position in it. The last two fields say whether the call came to the end of the file
before it had what it wanted, and whether something failed. -/
@[ext] structure Direct where
  content : List (BitVec 8)
  offset : Nat
  append : Bool
  writes : List (Option Nat)
  ended : Bool
  failed : Bool

/-- How many of `want` bytes are taken when `room` bytes fit, and the outcomes that are left: a short
write is followed by another one, a failing one and one that takes nothing are the last. -/
def granted : List (Option Nat) → Nat → Nat → Nat × List (Option Nat)
  | [], want, room => (min want room, [])
  | outcome :: rest, want, room =>
      if want = 0 then (0, outcome :: rest)
      else
        let most := min (outcome.getD 0) (min want room)
        if most = 0 then (0, rest)
        else
          let later := granted rest (want - most) (room - most)
          (most + later.1, later.2)

def firstLine (room : Nat) (bytes : List (BitVec 8)) : List (BitVec 8) :=
  let near := bytes.take room
  near.take ((near.takeWhile (· ≠ 10)).length + 1)

namespace Direct

def rest (d : Direct) : List (BitVec 8) := d.content.drop d.offset

/-- Bytes at the position are delivered, all that is wanted or all up to the end of the file. With a
fault the file fails after so many bytes, if more are wanted then. -/
def deliver (d : Direct) (bytes : List (BitVec 8)) (all : Bool) (fault : Option Nat) :
    List (BitVec 8) × Direct :=
  match fault with
  | some k =>
      if k < bytes.length ∨ all = false then
        (bytes.take k, { d with offset := d.offset + (bytes.take k).length, failed := true })
      else (bytes, { d with offset := d.offset + bytes.length })
  | none => (bytes, { d with offset := d.offset + bytes.length, ended := d.ended || !all })

def fetch (want : Nat) (fault : Option Nat) (d : Direct) : List (BitVec 8) × Direct :=
  d.deliver (d.rest.take want) (want ≤ d.rest.length) fault

def read (size count : BitVec 32) (fault : Option Nat) (d : Direct) :
    (List (BitVec 8) × Nat) × Direct :=
  if size = 0 ∨ count = 0 then (([], 0), d)
  else if (2 ^ 32 - 1) / size.toNat < count.toNat then (([], 0), { d with failed := true })
  else
    let read := d.fetch (size.toNat * count.toNat) fault
    ((read.1, read.1.length / size.toNat), read.2)

def line (cap : BitVec 32) (fault : Option Nat) (d : Direct) : Option (List (BitVec 8)) × Direct :=
  if cap.toInt ≤ 0 then (none, d)
  else
    let room := cap.toNat - 1
    let bytes := firstLine room d.rest
    let line := d.deliver bytes (bytes.length = room ∨ bytes.any (· = 10)) fault
    (if line.1 = [] then none else some line.1, line.2)

/-- The bytes go to the position, or to the end of the file, whose length stays below 2^31. -/
def put (data : List (BitVec 8)) (d : Direct) : Nat × Direct :=
  let place := if d.append then d.content.length else d.offset
  let taken := granted d.writes data.length (2 ^ 31 - 1 - place)
  (taken.1, { d with
    content := overwrite d.content place (data.take taken.1)
    offset := if d.append then d.offset else place + taken.1
    writes := taken.2
    failed := d.failed || taken.1 < data.length })

def write (data : List (BitVec 8)) (size count : BitVec 32) (d : Direct) : Nat × Direct :=
  if size = 0 ∨ count = 0 then (0, d)
  else if 0x7fffffff / size.toNat < count.toNat then (0, { d with failed := true })
  else
    let wrote := d.put (data.take (size.toNat * count.toNat))
    (wrote.1 / size.toNat, wrote.2)

def target (d : Direct) (offset : BitVec 32) (origin : Int) : Option Int :=
  let base : Option Nat :=
    if origin = 0 then some 0
    else if origin = 1 then some d.offset
    else if origin = 2 then some d.content.length
    else none
  (base.map fun (base : Nat) => (base : Int) + offset.toInt).filter
    fun target => 0 ≤ target ∧ target < 2 ^ 31

def seek (offset : BitVec 32) (origin : Int) (d : Direct) : Bool × Direct :=
  match d.target offset origin with
  | none => (false, { d with failed := true })
  | some target => (true, { d with offset := target.toNat })

end Direct

def Call.direct (fault : Option Nat) : Call → Direct → Result × Direct
  | .fgetc, d =>
      let read := d.fetch 1 fault
      (.char read.1.head?, read.2)
  | .fread size count, d =>
      let read := Direct.read size count fault d
      (.items read.1.1 read.1.2, read.2)
  | .fgets cap, d => (.line (Direct.line cap fault d).1, (Direct.line cap fault d).2)
  | .fwrite data size count, d =>
      (.count (Direct.write data size count d).1, (Direct.write data size count d).2)
  | .fputc c, d =>
      let wrote := Direct.write [c.truncate 8] 1 1 d
      (.char (if wrote.1 = 1 then some (c.truncate 8) else none), wrote.2)
  | .fputs s, d =>
      let wrote := Direct.write s 1 (BitVec.ofNat 32 s.length) d
      (.status (wrote.1 = s.length), wrote.2)
  | .fseek offset origin, d => (.status (d.seek offset origin).1, (d.seek offset origin).2)
  | .ftell, d => (.position (BitVec.ofNat 32 d.offset), d)

end SymphonyPlus.Stdio
