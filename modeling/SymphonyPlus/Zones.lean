import SymphonyPlus.ByteBits
import SymphonyPlus.TableTree

/-! The zones of a mounted MINIX file system: `fs/bitmap.c`, `_bmap` of `fs/inode.c` and
`fs/truncate.c`. Blocks are what the buffer cache holds of them, seen as 16-bit words. -/

namespace SymphonyPlus.Minix

open Function

structure SuperBlock where
  nzones : Nat
  firstDataZone : Nat
  zmapBlocks : Nat
  zmap : Nat → Option ByteBits.Bytes

structure Inode where
  mode : BitVec 16
  size : Nat
  mtime : Nat
  ctime : Nat
  dirt : Bool
  zone : Nat → Nat

structure Volume where
  super : SuperBlock
  inodes : Nat → Inode
  blocks : TableTree.Tables Nat

def Volume.setInode (d : Volume) (n : Nat) (inode : Inode) : Volume :=
  { d with inodes := update d.inodes n inode }

def Volume.setMap (d : Volume) (index : Nat) (map : ByteBits.Bytes) : Volume :=
  { d with super := { d.super with zmap := update d.super.zmap index (some map) } }

def SuperBlock.bit (s : SuperBlock) (zone : Nat) : Nat := zone - s.firstDataZone + 1

def SuperBlock.mapOf (s : SuperBlock) (bit : Nat) : Option ByteBits.Bytes :=
  if s.zmapBlocks ≤ bit >>> 13 then none else s.zmap (bit >>> 13)

def newBlockFrom (buffer : Nat → Bool) (d : Volume) : Nat → Nat → Nat × Volume
  | 0, _ => (0, d)
  | fuel + 1, zone =>
      let bit := d.super.bit zone
      match d.super.mapOf bit with
      | none => (0, d)
      | some map =>
          if ByteBits.test map (bit % 8192) then newBlockFrom buffer d fuel (zone + 1)
          else if !buffer zone then (0, d)
          else
            (zone, { d.setMap (bit >>> 13) (ByteBits.set map (bit % 8192)) with
              blocks := update d.blocks zone fun _ => 0 })

def newBlock (buffer : Nat → Bool) (d : Volume) : Nat × Volume :=
  newBlockFrom buffer d (d.super.nzones - d.super.firstDataZone) d.super.firstDataZone

def freeBlock (d : Volume) (zone : Nat) : Volume :=
  if zone < d.super.firstDataZone ∨ d.super.nzones ≤ zone then d
  else
    let bit := d.super.bit zone
    match d.super.mapOf bit with
    | none => d
    | some map => d.setMap (bit >>> 13) (ByteBits.clear map (bit % 8192))

/-! A zone number is stored as an unsigned short. -/

def unsignedShort (zone : Nat) : Nat := zone % 65536

def validZone (d : Volume) (zone : Nat) : Bool :=
  zone = 0 || (d.super.firstDataZone ≤ zone && zone < d.super.nzones)

def bmapResult (d : Volume) (zone : Nat) : Int := if validZone d zone then zone else -1

def slotZone (now : Nat) (buffer : Nat → Bool) (d : Volume) (n slot : Nat) (create : Bool) :
    Nat × Volume :=
  let inode := d.inodes n
  if create ∧ inode.zone slot = 0 then
    let (zone, d) := newBlock buffer d
    if zone = 0 then (0, d)
    else
      (unsignedShort zone, d.setInode n { inode with
        zone := update inode.zone slot (unsignedShort zone), ctime := now, dirt := true })
  else (inode.zone slot, d)

/-- An entry of a zone table, filled with a new zone if wanted. -/
def tableZone (buffer : Nat → Bool) (d : Volume) (table index : Nat) (create : Bool) :
    Nat × Volume :=
  let i := d.blocks table index
  if create ∧ i = 0 then
    let (zone, d) := newBlock buffer d
    if zone = 0 then (0, d)
    else (zone, { d with blocks := TableTree.write d.blocks table index (unsignedShort zone) })
  else (i, d)

/-- `_bmap`. It panics on a block number that no inode can have. -/
def bmap (now : Nat) (buffer : Nat → Bool) (d : Volume) (n : Nat) (block : Int) (create : Bool) :
    Option (Int × Volume) :=
  if block < 0 ∨ 7 + 512 + 512 * 512 ≤ block then none
  else
    let block := block.toNat
    if block < 7 then
      let (zone, d) := slotZone now buffer d n block create
      some (bmapResult d zone, d)
    else if block - 7 < 512 then
      let (table, d) := slotZone now buffer d n 7 create
      if table = 0 then some (0, d)
      else if !validZone d table then some (-1, d)
      else
        let (zone, d) := tableZone buffer d table (block - 7) create
        some (bmapResult d zone, d)
    else
      let block := block - 7 - 512
      let (outer, d) := slotZone now buffer d n 8 create
      if outer = 0 then some (0, d)
      else if !validZone d outer then some (-1, d)
      else
        let (table, d) := tableZone buffer d outer (block >>> 9) create
        if table = 0 then some (0, d)
        else if !validZone d table then some (-1, d)
        else
          let (zone, d) := tableZone buffer d table (block &&& 511) create
          some (bmapResult d zone, d)

def validIndirect (d : Volume) (block : Nat) : Bool :=
  d.super.firstDataZone ≤ block && block < d.super.nzones

def freeTable (free : Volume → Nat → Volume) (d : Volume) (block : Nat) : Volume :=
  if !validIndirect d block then d
  else
    let entries := (List.range 512).map (d.blocks block)
    freeBlock (entries.foldl (fun d entry => if entry = 0 then d else free d entry) d) block

def freeInd : Volume → Nat → Volume := freeTable freeBlock

def freeDind : Volume → Nat → Volume := freeTable freeInd

def isRegularOrDirectory (mode : BitVec 16) : Bool :=
  mode &&& 0o170000 = 0o100000 || mode &&& 0o170000 = 0o040000

def freeSlots (d : Volume) (n : Nat) (slots : List Nat) : Volume :=
  slots.foldl
    (fun d i =>
      let inode := d.inodes n
      if inode.zone i = 0 then d
      else (freeBlock d (inode.zone i)).setInode n { inode with zone := update inode.zone i 0 })
    d

def truncate (now : Nat) (d : Volume) (n : Nat) : Volume :=
  if !isRegularOrDirectory (d.inodes n).mode then d
  else
    let d := freeSlots d n (List.range 7)
    let d := freeInd d ((d.inodes n).zone 7)
    let d := freeDind d ((d.inodes n).zone 8)
    let inode := d.inodes n
    d.setInode n { inode with
      zone := update (update inode.zone 7 0) 8 0
      size := 0, dirt := true, mtime := now, ctime := now }

end SymphonyPlus.Minix
