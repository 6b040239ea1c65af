import SymphonyPlus.ByteMemory
import Mathlib.Logic.Function.Basic

/-!
The block requests of `kernel/blk_drv/ll_rw_blk.c` and the driver of `kernel/blk_drv/symdisk.c`.
Requests, buffer heads and tasks are indices of the kernel's tables; the `next` pointers of the
requests are a table of their own.
-/

namespace SymphonyPlus

open ByteMemory

def NR_REQUEST : Nat := 32
def SP_DISK_BYTES : BitVec 32 := 0x2000000
def READ : BitVec 32 := 0
def WRITE : BitVec 32 := 1

def minor (dev : BitVec 32) : BitVec 32 := dev &&& 0xff

structure DiskRequest where
  dev : BitVec 32
  cmd : BitVec 32
  sector : BitVec 32
  nrSectors : BitVec 32
  buffer : Nat
  waiting : Option Nat
  bh : Option Nat
  deriving DecidableEq, Repr

structure BufferHead where
  uptodate : Bool
  dirt : Bool
  lock : Bool
  wait : Option Nat

/-- `current` is `current_request`. No function reads `added`, the requests that were queued. -/
structure BlockState where
  requests : Nat → DiskRequest
  next : Nat → Option Nat
  current : Option Nat
  heads : Nat → BufferHead
  taskState : Nat → BitVec 32
  waitForRequest : Option Nat
  disk : Memory
  memory : Memory
  added : List DiskRequest

/-- `wake_up`, which also clears the pointer. -/
def wakeUp (taskState : Nat → BitVec 32) : Option Nat → Nat → BitVec 32
  | none => taskState
  | some task => Function.update taskState task 0

/-! The queue. -/

def inOrder (first second : DiskRequest) : Bool :=
  first.cmd.slt second.cmd || (first.cmd = second.cmd &&
    (first.dev.slt second.dev || (first.dev = second.dev && first.sector.ult second.sector)))

def insertAfter (state : BlockState) (request : DiskRequest) : Nat → Nat → Nat
  | 0, tmp => tmp
  | fuel + 1, tmp =>
      match state.next tmp with
      | none => tmp
      | some following =>
          if (inOrder (state.requests tmp) request ||
              !inOrder (state.requests tmp) (state.requests following)) &&
              inOrder request (state.requests following) then tmp
          else insertAfter state request fuel following

def fillSlot (slot : Nat) (request : DiskRequest) (state : BlockState) : BlockState :=
  { state with
    requests := Function.update state.requests slot request
    next := Function.update state.next slot none
    heads := match request.bh with
      | none => state.heads
      | some h => Function.update state.heads h { state.heads h with dirt := false }
    added := request :: state.added }

def linkAfter (tmp slot : Nat) (state : BlockState) : BlockState :=
  { state with
    next := Function.update (Function.update state.next slot (state.next tmp)) tmp (some slot) }

/-- `add_request`. With an empty queue the caller goes on with `diskRequest`. -/
def addRequest (slot : Nat) (request : DiskRequest) (state : BlockState) : BlockState :=
  let filled := fillSlot slot request state
  match state.current with
  | none => { filled with current := some slot }
  | some first => linkAfter (insertAfter filled request NR_REQUEST first) slot filled

/-- The search of `make_request`: the last third of the slots is for reads. -/
def freeRequest (state : BlockState) (cmd : BitVec 32) : Option Nat :=
  (List.range (if cmd = READ then NR_REQUEST else NR_REQUEST * 2 / 3)).reverse.find? fun slot =>
    (state.requests slot).dev.slt 0

/-- A request that finds no free slot has to wait. -/
def makeRequest (state : BlockState) (request : DiskRequest) : BlockState :=
  match freeRequest state request.cmd with
  | none => state
  | some slot => addRequest slot request state

/-! The driver. -/

def accepts (request : DiskRequest) : Bool :=
  minor request.dev = 0 && request.sector.ult (SP_DISK_BYTES / 512) &&
    request.nrSectors.ule (SP_DISK_BYTES / 512 - request.sector) &&
    (request.cmd = READ || request.cmd = WRITE)

def storeWord (memory : Memory) (place : Nat) (value : BitVec 32) : Memory :=
  write8 (write8 (write8 (write8 memory place ((value >>> 24).setWidth 8))
    (place + 1) ((value >>> 16).setWidth 8))
    (place + 2) ((value >>> 8).setWidth 8))
    (place + 3) (value.setWidth 8)

def loadWord (memory : Memory) (place : Nat) : BitVec 32 :=
  (memory place).setWidth 32 <<< 24 ||| (memory (place + 1)).setWidth 32 <<< 16 |||
    (memory (place + 2)).setWidth 32 <<< 8 ||| (memory (place + 3)).setWidth 32

def transferWord (cmd address : BitVec 32) (place : Nat) (state : BlockState) : BlockState :=
  if cmd = READ then
    { state with memory := storeWord state.memory place (read32 state.disk address.toNat) }
  else { state with disk := write32 state.disk address.toNat (loadWord state.memory place) }

def transferFrom (request : DiskRequest) (address bytes : BitVec 32) :
    Nat → BitVec 32 → BlockState → BlockState
  | 0, _, state => state
  | fuel + 1, i, state =>
      if i.ult bytes then
        transferFrom request address bytes fuel (i + 4)
          (transferWord request.cmd (address + i) (request.buffer + i.toNat) state)
      else state

def transfer (request : DiskRequest) (state : BlockState) : BlockState :=
  if accepts request then
    let bytes := request.nrSectors * 512
    transferFrom request (request.sector * 512) bytes bytes.toNat 0 state
  else state

def tellHead (request : DiskRequest) (ok : Bool) (state : BlockState) : BlockState :=
  match request.bh with
  | none => state
  | some h => { state with
      heads := Function.update state.heads h
        { state.heads h with uptodate := ok, lock := false, wait := none }
      taskState := wakeUp state.taskState (state.heads h).wait }

def complete (slot : Nat) (ok : Bool) (state : BlockState) : BlockState :=
  let request := state.requests slot
  let told := tellHead request ok state
  { told with
    taskState := wakeUp (wakeUp told.taskState request.waiting) told.waitForRequest
    waitForRequest := none
    requests := Function.update told.requests slot { request with waiting := none, dev := -1 }
    current := told.next slot }

def serve (slot : Nat) (adds : List DiskRequest) (state : BlockState) : BlockState :=
  let request := state.requests slot
  complete slot (accepts request) (adds.foldl makeRequest (transfer request state))

structure DiskRound where
  slot : Nat
  before : BlockState
  after : BlockState

def DiskRound.request (round : DiskRound) : DiskRequest := round.before.requests round.slot

/-- `disk_request`: the rounds and the state at the end. `adds` has the requests that come in
during each round. -/
def diskRequest : Nat → List (List DiskRequest) → BlockState → List DiskRound × BlockState
  | 0, _, state => ([], state)
  | fuel + 1, adds, state =>
      match state.current with
      | none => ([], state)
      | some slot =>
          let after := serve slot (adds.headD []) state
          let rest := diskRequest fuel adds.tail after
          ({ slot, before := state, after } :: rest.1, rest.2)

end SymphonyPlus
