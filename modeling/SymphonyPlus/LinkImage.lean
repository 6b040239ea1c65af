import SymphonyPlus.Obj
import SymphonyPlus.ByteMemory

/-!
The image linker of `symcc/src/link_image.c`. `Image` is its state. Layout and emission are two
passes over the same lines; the first gives every label its address, the second prints assembler
text with numbers for names.
-/

namespace SymphonyPlus

open ByteMemory

def POLL_BYTES : Nat := 60
def SP_EXEC_MAGIC : Nat := 0x53505831

/-- What ends a link: an error message, or the exit of `obj_line_size`. -/
inductive LinkFailure
  | message (text : List Char)
  | exit
  deriving DecidableEq, Repr

inductive ImageKind
  | kernel | user
  deriving DecidableEq, Repr

structure LinkOptions where
  base : Nat
  limit : Nat
  branchGate : Nat
  syscallGate : Nat
  imageKind : ImageKind
  deriving DecidableEq, Repr

/-- The linker's own symbols have no owner. -/
structure ImageSym where
  name : List Char
  addr : Nat
  owner : Option Nat
  exported : Bool
  deriving DecidableEq, Repr

structure Image where
  syms : List ImageSym
  out : List Char
  failed : Option LinkFailure
  poll : Bool
  deriving DecidableEq, Repr

/-- A later message replaces an earlier one; its buffer holds 255 characters. -/
def Image.fail (im : Image) (text : List Char) : Image :=
  if im.failed = some .exit then im
  else { im with failed := some (.message (text.take 255)) }

def Image.exit (im : Image) : Image := { im with failed := some .exit }

/-- The position after `bytes` more bytes, which must not pass the limit. -/
def Image.advance (im : Image) (pos : Nat) (bytes : Int) (limit : Nat) : Image × Nat :=
  if bytes < 0 ∨ limit < pos ∨ (limit : Int) - pos < bytes then
    (im.fail "image size exceeds address window".toList, pos)
  else (im, pos + bytes.toNat)

def padding (pos : Nat) : Nat := (4 - pos % 4) % 4

def Image.alignImage (im : Image) (pos limit : Nat) : Image × Nat :=
  im.advance pos (padding pos) limit

def Image.emit (im : Image) (text : List Char) : Image :=
  if 4096 ≤ text.length then im.fail "image line too long".toList
  else { im with out := im.out ++ text }

def Image.add (im : Image) (name : List Char) (addr : Nat) (owner : Option Nat)
    (exported : Bool) : Image :=
  if im.syms.any fun s => s.name = name && (s.owner = owner || (exported && s.exported)) then
    im.fail ("duplicate image symbol: ".toList ++ name)
  else { im with syms := im.syms ++ [{ name, addr, owner, exported }] }

/-- `strtoul` with automatic base: the value, and the text after the number. -/
def strtoul (text : List Char) : Nat × List Char :=
  let signed := splitSign (text.dropWhile isSpace)
  let based := splitBase signed.2
  let digits := based.2.takeWhile fun c => digitValue c < based.1
  if digits = [] then (0, text)
  else
    let value := digits.foldl (fun total c => total * based.1 + digitValue c) 0
    let rest := based.2.dropWhile fun c => digitValue c < based.1
    if 2 ^ 64 ≤ value then (2 ^ 64 - 1, rest)
    else if signed.1 then ((2 ^ 64 - value) % 2 ^ 64, rest)
    else (value, rest)

/-- The definition of a name that a reference in object `owner` means: its own one first. -/
def Image.definition (im : Image) (name : List Char) (owner : Nat) : Option ImageSym :=
  match im.syms.find? fun s => s.owner = some owner && s.name = name with
  | some s => some s
  | none => im.syms.find? fun s => s.exported && s.name = name

def Image.resolve (im : Image) (name : List Char) (owner : Nat) : Image × Nat :=
  let number := strtoul name
  if name ≠ [] ∧ number.2 = [] then (im, number.1 % 2 ^ 32)
  else
    match im.definition name owner with
    | some s => (im, s.addr)
    | none => (im.fail ("undefined image symbol: ".toList ++ name), 0)

def condNames : List String := ["je", "jne", "jb", "jae", "jbe", "ja", "jl", "jge", "jle", "jg"]

def isCond (op : List Char) : Bool := condNames.any fun name => name.toList = op

def isReg (s : List Char) : Bool := (isaRegIndex s).isSome

def isArgEnd (c : Char) : Bool := c = ' ' || c = ';' || c = '\t' || c = '\r' || c = '\n'

def parts (s : List Char) : List Char × List Char :=
  let body := s.dropWhile isSpace
  let op := (body.takeWhile fun c => !isSpace c).take 31
  let rest := (body.drop op.length).dropWhile isSpace
  (op, (rest.takeWhile fun c => !isArgEnd c).take 511)

def pollPrefix : List Char := "__sp_poll_L".toList

def lineSize (polling : Bool) (s : List Char) : Option Nat :=
  let op := (parts s).1
  let arg := (parts s).2
  if pollPrefix.isPrefixOf op then some (if polling then POLL_BYTES else 0)
  else if isCond op then some 16
  else if op = "call".toList then some 32
  else if op = "jmp".toList ∧ !isReg arg then some 16
  else objLineSize s

def hexText (value : Nat) : List Char := "0x".toList ++ Nat.toDigits 16 value

def Image.padWords (im : Image) : Nat → Image
  | 0 => im
  | count + 1 => (im.emit "    U32 0\n".toList).padWords count

def Image.padBytes (im : Image) : Nat → Image
  | 0 => im
  | count + 1 => (im.emit "    U8 0\n".toList).padBytes count

def Image.pad (im : Image) (first last : Nat) : Image :=
  if last < first then im.fail "invalid image overlap".toList
  else (im.padWords ((last - first) / 4)).padBytes ((last - first) % 4)

def exported (o : Obj) (name : List Char) : Bool := o.syms.any fun s => s.name = name

def Image.labels (im : Image) (o : Obj) (owner : Nat) (text : Bool) :
    List (List Char) → Nat → Image
  | [], _ => im
  | line :: lines, base =>
      let n := objLabelNameLen line
      if n ≠ 0 then
        if 512 ≤ n then im.fail "label too long".toList
        else
          let name := line.take n
          (im.add name base (some owner) (exported o name)).labels o owner text lines
            (if text && im.poll && pollPrefix.isPrefixOf name then base + POLL_BYTES else base)
      else
        match if text then lineSize im.poll line else objLineSize line with
        | some size => im.labels o owner text lines (base + size)
        | none => im.exit

def targetText (addr : Nat) : List Char :=
  "    mov r13, ".toList ++ hexText (addr / 2 ^ 16) ++ "\n    lsl r13, r13, 16\n".toList ++
    "    or r13, r13, ".toList ++ hexText (addr % 2 ^ 16) ++ "\n".toList

def Image.target (im : Image) (addr : Nat) : Image := im.emit (targetText addr)

inductive ReferenceMode
  | plain | hi | lo | full
  deriving DecidableEq, Repr

def referenceMode (s : List Char) : ReferenceMode × List Char :=
  if "hi:".toList.isPrefixOf s then (.hi, s.drop 3)
  else if "lo:".toList.isPrefixOf s then (.lo, s.drop 3)
  else if "32:".toList.isPrefixOf s then (.full, s.drop 3)
  else (.plain, s)

def addend (s : List Char) : Nat × List Char :=
  match s.dropWhile (· = ' ') with
  | '+' :: rest =>
      let number := strtoul rest
      if number.2 = rest then (0, s) else (number.1, number.2)
  | _ => (0, s)

/-- One reference after its `@`: the text that stands for it, and the text after it. No text is
a reference that does not fit. -/
def Image.reference (im : Image) (owner : Nat) (s : List Char) :
    Image × Option (List Char) × List Char :=
  let mode := referenceMode s
  let name := (mode.2.takeWhile isIdentRest).take 511
  let resolved := im.resolve name owner
  let added := addend (mode.2.drop name.length)
  let value := (resolved.2 + added.1) % 2 ^ 32
  match mode.1 with
  | .hi => (resolved.1, some (hexText (value / 2 ^ 16)), added.2)
  | .lo => (resolved.1, some (hexText (value % 2 ^ 16)), added.2)
  | .full => (resolved.1, some (hexText value), added.2)
  | .plain =>
      if 65535 < value then
        (resolved.1.fail ("D16 image reference ".toList ++ name ++ " needs --d32".toList), none,
          added.2)
      else (resolved.1, some (hexText value), added.2)

/-- The copy loop of `line`, which ends at a comment and when its buffer is nearly full. -/
def Image.copyLine (im : Image) (owner : Nat) : Nat → List Char → List Char →
    Image × Option (List Char)
  | 0, _, out => (im, some out)
  | fuel + 1, s, out =>
      match s with
      | [] => (im, some out)
      | c :: rest =>
          if 4096 ≤ out.length + 64 ∨ c = ';' then (im, some out)
          else if c ≠ '@' then im.copyLine owner fuel rest (out ++ [c])
          else
            let replaced := im.reference owner rest
            match replaced.2.1 with
            | some text => replaced.1.copyLine owner fuel replaced.2.2 (out ++ text)
            | none => (replaced.1, none)

def callText : List Char :=
  "    counter flags\n    add flags, flags, 32\n    sub sp, sp, 4\n    store_32 [sp], flags\n".toList

def pollText : List Char :=
  "    add r12, r12, 1\n    and r12, r12, 4095\n    cmp r12, 0\n".toList

def Image.farJump (im : Image) (arg : List Char) (owner : Nat) : Image :=
  let resolved := im.resolve arg owner
  (resolved.1.target resolved.2).emit "    jmp r13\n".toList

def Image.call (im : Image) (arg : List Char) (owner : Nat) : Image :=
  (im.emit callText).farJump arg owner

/-- A safe point: a counter in `r12`, and every 4096th time a call of `__sp_poll`. -/
def Image.pollSite (im : Image) (op : List Char) (owner : Nat) (opt : LinkOptions) : Image :=
  let resolved := im.resolve op.dropLast owner
  let checked := (resolved.1.emit pollText).target ((resolved.2 + POLL_BYTES) % 2 ^ 32)
  (checked.emit ("    jne ".toList ++ hexText opt.branchGate ++ "\n".toList)).call
    "__sp_poll".toList owner

def Image.line (im : Image) (s : List Char) (owner : Nat) (opt : LinkOptions) : Image :=
  let op := (parts s).1
  let arg := (parts s).2
  if objLabelNameLen s ≠ 0 then
    if im.poll && pollPrefix.isPrefixOf op then im.pollSite op owner opt
    else if op = "main:".toList then im.emit "main:\n".toList
    else im
  else if isCond op then
    let resolved := im.resolve arg owner
    (resolved.1.target resolved.2).emit
      ("    ".toList ++ op ++ " ".toList ++ hexText opt.branchGate ++ "\n".toList)
  else if op = "call".toList then im.call arg owner
  else if op = "jmp".toList ∧ !isReg arg then im.farJump arg owner
  else
    let data := skipWs s
    if data = [] ∨ data.head? = some ';' ∨ data.head? = some '"' then im.emit (s ++ ['\n'])
    else
      let copied := im.copyLine owner s.length s []
      match copied.2 with
      | some text => copied.1.emit (text ++ ['\n'])
      | none => copied.1

/-! The link. -/

/-- One `fgets` into a buffer of 1024 characters. -/
def fgets (text : List Char) : List Char × List Char :=
  let line := (text.take 1023).takeWhile (· ≠ '\n')
  let rest := text.drop line.length
  if line.length < 1023 ∧ rest.head? = some '\n' then (line ++ ['\n'], rest.drop 1)
  else (line, rest)

def findText (needle : List Char) : List Char → Option (List Char × List Char)
  | [] => if needle = [] then some ([], []) else none
  | c :: rest =>
      if needle.isPrefixOf (c :: rest) then some ([], (c :: rest).drop needle.length)
      else (findText needle rest).map fun found => (c :: found.1, found.2)

def crt0Line (s : List Char) : List Char :=
  match findText "FRAMEBUF_BASE".toList s with
  | some (before, after) => (before ++ "0x2000".toList ++ after).take 1023
  | none => s

def crt0From : Nat → List Char → List (List Char)
  | 0, _ => []
  | fuel + 1, text =>
      if text = [] then []
      else
        let got := fgets text
        let s := got.1.takeWhile fun c => !isLineEnd c
        let rest := crt0From fuel got.2
        if s.head? = some '.' then rest else crt0Line s :: rest

def crt0Lines (text : List Char) : List (List Char) := crt0From text.length text

def Image.checked (im : Image) : Except LinkFailure Image :=
  match im.failed with
  | some failure => .error failure
  | none => .ok im

def Image.advanceLines (im : Image) (size : List Char → Option Nat) (limit : Nat) :
    List (List Char) → Nat → Image × Nat
  | [], pos => (im, pos)
  | line :: lines, pos =>
      match size line with
      | some bytes =>
          let advanced := im.advance pos bytes limit
          advanced.1.advanceLines size limit lines advanced.2
      | none => (im.exit, pos)

def Image.layoutText (im : Image) (limit : Nat) :
    List Obj → Nat → Nat → Except LinkFailure (Image × Nat)
  | [], _, pos => .ok (im, pos)
  | o :: objs, owner, pos => do
      let sized := im.advanceLines (lineSize im.poll) limit o.textLines pos
      let im ← sized.1.checked
      (im.labels o owner true o.textLines pos).layoutText limit objs (owner + 1) sized.2

def Image.layoutData (im : Image) (limit : Nat) :
    List Obj → Nat → Nat → Except LinkFailure (Image × Nat)
  | [], _, pos => .ok (im, pos)
  | o :: objs, owner, pos => do
      let sized := im.advanceLines objLineSize limit o.dataLines pos
      let im ← sized.1.checked
      (im.labels o owner false o.dataLines pos).layoutData limit objs (owner + 1) sized.2

def Image.layoutEntries (im : Image) (limit : Nat) (o : Obj) (owner : Nat) :
    List ObjBss → Nat → Except LinkFailure (Image × Nat)
  | [], pos => .ok (im, pos)
  | b :: rest, pos => do
      let sized := im.advance pos b.size limit
      let aligned := sized.1.alignImage sized.2 limit
      let im ← aligned.1.checked
      (im.add b.name pos (some owner) (exported o b.name)).layoutEntries limit o owner rest aligned.2

def Image.layoutBss (im : Image) (limit : Nat) :
    List Obj → Nat → Nat → Except LinkFailure (Image × Nat)
  | [], _, pos => .ok (im, pos)
  | o :: objs, owner, pos => do
      let entries ← im.layoutEntries limit o owner o.bss pos
      entries.1.layoutBss limit objs (owner + 1) entries.2

def Image.lines (im : Image) (owner : Nat) (opt : LinkOptions) : List (List Char) → Image
  | [] => im
  | s :: rest => (im.line s owner opt).lines owner opt rest

def Image.textLines (im : Image) (opt : LinkOptions) : List Obj → Nat → Image
  | [], _ => im
  | o :: objs, owner => (im.lines owner opt o.textLines).textLines opt objs (owner + 1)

def Image.dataLines (im : Image) (opt : LinkOptions) : List Obj → Nat → Image
  | [], _ => im
  | o :: objs, owner => (im.lines owner opt o.dataLines).dataLines opt objs (owner + 1)

/-- The low memory of a kernel image: start, gates and stop. -/
def Image.lowMemory (im : Image) (opt : LinkOptions) (base : Nat) : Image :=
  let im := (im.emit "    jmp 0x3000\n".toList).pad 4 opt.branchGate
  let im := im.emit "    jmp r13\n".toList
  let entries := im.syms.filter fun s => s.exported && s.name = "sp_syscall_entry".toList
  let entry := (entries.getLast?.map ImageSym.addr).getD 0x140
  let im := ((im.target entry).emit "    jmp r13\n".toList).pad
    ((opt.syscallGate + 16) % 2 ^ 32) 0x140
  (im.emit "halt:\n    jmp 0x140\n".toList).pad 0x144 base

structure ImageLayout where
  base : Nat
  loaded : Nat
  bss : Nat
  bssEnd : Nat
  textEnd : Nat
  deriving DecidableEq, Repr

def imageBase (opt : LinkOptions) : Nat := if opt.imageKind = .user then opt.base else 0x3000

def linkObjects (objs : List Obj) (crt0 : Option (List Char)) : List Obj :=
  { objNew with textLines := (crt0.map crt0Lines).getD [] } :: objs

def imagePoll (objs : List Obj) (opt : LinkOptions) : Bool :=
  opt.imageKind = .user && objs.any fun o => exported o "__sp_poll".toList

def layoutImage (objs : List Obj) (opt : LinkOptions) :
    Except LinkFailure (Image × ImageLayout) := do
  let im : Image := { syms := [], out := [], failed := none, poll := imagePoll objs opt }
  let base := imageBase opt
  let text ← im.layoutText opt.limit objs 0 base
  let aligned := text.1.alignImage text.2 opt.limit
  let data ← aligned.1.layoutData opt.limit objs 0 aligned.2
  let bss := data.1.alignImage data.2 opt.limit
  let stop ← bss.1.layoutBss opt.limit objs 0 bss.2
  let im := stop.1.add "__bss_start".toList bss.2 none true
  let im := im.add "__bss_end".toList stop.2 none true
  let im := im.add "end".toList stop.2 none true
  let im := im.add "__syscall_gate".toList opt.syscallGate none true
  if opt.limit < stop.2 ∨ opt.limit ≤ base then
    .error (.message "image exceeds address window".toList)
  else
    .ok (im, { base, loaded := data.2, bss := bss.2, bssEnd := stop.2, textEnd := text.2 })

def emitImage (im : Image) (objs : List Obj) (opt : LinkOptions) (layout : ImageLayout) : Image :=
  let im := if opt.imageKind = .kernel then im.lowMemory opt layout.base else im
  let im := (im.textLines opt objs 0).pad layout.textEnd (layout.textEnd + padding layout.textEnd)
  let im := im.dataLines opt objs 0
  if opt.imageKind = .kernel then im.pad layout.loaded layout.bssEnd else im

def assembledBytes (writes : List Write) (len : Nat) : List (BitVec 8) :=
  (List.range len).map
    (writes.foldl (fun buffer write => writeBytes buffer write.off write.bytes) fun _ => 0)

def be32 (value : Nat) : List (BitVec 8) := wordBytes (BitVec.ofNat 32 value)

structure LinkResult where
  failed : Option LinkFailure
  text : List Char
  bin : List (BitVec 8)
  deriving DecidableEq

def LinkResult.ofFailure (failure : LinkFailure) : LinkResult :=
  { failed := some failure, text := [], bin := [] }

def asmFailure (err : AsmError) : List Char :=
  "image asm line ".toList ++ (toString err.line).toList ++ ": ".toList ++ err.msg

/-- The assembler's result. `im.out` is a null pointer where nothing was printed, and
`asm_assemble` reads through it. -/
def Image.assemble (im : Image) (cap : Nat) : Option Assembly :=
  if im.out = [] then none else some (asmAssemble im.out cap)

def imageFile (im : Image) (opt : LinkOptions) (layout : ImageLayout) : Option LinkResult :=
  let cap := if opt.imageKind = .kernel then layout.bssEnd else layout.loaded - layout.base
  (im.assemble cap).map fun assembly =>
    if assembly.ret < 0 then
      { failed := (im.fail (asmFailure assembly.err)).failed, text := im.out, bin := [] }
    else
      let bytes := assembledBytes assembly.writes assembly.ret.toNat
      if opt.imageKind = .user then
        let start := im.resolve "_start".toList 0
        { failed := start.1.failed, text := im.out,
          bin := be32 SP_EXEC_MAGIC ++ be32 1 ++
            be32 ((start.2 + 2 ^ 32 - layout.base) % 2 ^ 32) ++ be32 (layout.loaded - layout.base) ++
            be32 (layout.bssEnd - layout.loaded) ++ be32 65536 ++ be32 0 ++ bytes }
      else { failed := none, text := im.out, bin := bytes }

/-- `symld_link_ex` for the kernel and user kinds, with a file for the image. No result is a call
that does not return. -/
def symldLinkEx (given : List Obj) (crt0 : Option (List Char)) (opt : LinkOptions) :
    Option LinkResult :=
  if opt.limit ≤ imageBase opt then
    some (.ofFailure (.message "invalid address window".toList))
  else
    let objs := linkObjects given crt0
    match layoutImage objs opt with
    | .error failure => some (.ofFailure failure)
    | .ok (laidOut, layout) =>
        let im := emitImage laidOut objs opt layout
        match im.failed with
        | some failure => some (.ofFailure failure)
        | none => imageFile im opt layout

end SymphonyPlus
