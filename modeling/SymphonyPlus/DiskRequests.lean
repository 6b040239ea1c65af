import SymphonyPlus.DiskDriver

/-!
`disk_request` serves every queued request once, in any queue and whatever comes in meanwhile.
A request succeeds exactly if it lies on the disk, and moves its own bytes only.
-/

namespace SymphonyPlus

open ByteMemory

def diskSectors : Nat := 0x10000

def DiskRequest.start (request : DiskRequest) : Nat := request.sector.toNat * 512

def DiskRequest.bytes (request : DiskRequest) : Nat := request.nrSectors.toNat * 512

structure OnDisk (request : DiskRequest) : Prop where
  device : minor request.dev = 0
  direction : request.cmd = READ ∨ request.cmd = WRITE
  first : request.sector.toNat < diskSectors
  last : request.sector.toNat + request.nrSectors.toNat ≤ diskSectors

structure Transferred (request : DiskRequest) (before after : BlockState) : Prop where
  read : OnDisk request → request.cmd = READ → after.disk = before.disk ∧
    (∀ i < request.bytes, after.memory (request.buffer + i) = before.disk (request.start + i)) ∧
    ∀ address, address < request.buffer ∨ request.buffer + request.bytes ≤ address →
      after.memory address = before.memory address
  write : OnDisk request → request.cmd = WRITE → after.memory = before.memory ∧
    (∀ i < request.bytes, after.disk (request.start + i) = before.memory (request.buffer + i)) ∧
    ∀ address, address < request.start ∨ request.start + request.bytes ≤ address →
      after.disk address = before.disk address
  rejected : ¬ OnDisk request → after.disk = before.disk ∧ after.memory = before.memory

def Woken (after : BlockState) (waiting : Option Nat) : Prop :=
  ∀ task, waiting = some task → after.taskState task = 0

structure Finished (slot : Nat) (before after : BlockState) : Prop where
  moved : Transferred (before.requests slot) before after
  head : ∀ h, (before.requests slot).bh = some h →
    ((after.heads h).uptodate = true ↔ OnDisk (before.requests slot))
  unlocked : ∀ h, (before.requests slot).bh = some h →
    (after.heads h).lock = false ∧ Woken after (before.heads h).wait
  free : (after.requests slot).dev = -1
  woken : Woken after (before.requests slot).waiting ∧ Woken after before.waitForRequest ∧
    after.waitForRequest = none

def Live (request : DiskRequest) : Prop := request.dev.slt 0 = false

def Chain (state : BlockState) : Option Nat → List Nat → Prop
  | current, [] => current = none
  | current, slot :: rest => current = some slot ∧ Chain state (state.next slot) rest

structure Queue (state : BlockState) (slots : List Nat) : Prop where
  chain : Chain state state.current slots
  once : slots.Nodup
  inTable : ∀ slot ∈ slots, slot < NR_REQUEST
  live : ∀ slot ∈ slots, Live (state.requests slot)

/-! Acceptance. -/

theorem accepts_iff (request : DiskRequest) : accepts request = true ↔ OnDisk request := by
  have sectors : (SP_DISK_BYTES / 512).toNat = diskSectors := by decide
  simp only [accepts, Bool.and_eq_true, Bool.or_eq_true, decide_eq_true_eq, BitVec.ult, BitVec.ule,
    sectors]
  constructor
  · rintro ⟨⟨⟨device, first⟩, last⟩, direction⟩
    rw [BitVec.toNat_sub_of_le (BitVec.le_def.mpr (by omega)), sectors] at last
    exact ⟨device, direction, first, by omega⟩
  · rintro ⟨device, direction, first, last⟩
    refine ⟨⟨⟨device, first⟩, ?_⟩, direction⟩
    rw [BitVec.toNat_sub_of_le (BitVec.le_def.mpr (by omega)), sectors]
    omega

/-! The transfer. -/

theorem storeWord_write32 (memory : Memory) (place : Nat) (value : BitVec 32) :
    storeWord memory place value = write32 memory place value := by
  have low : value.setWidth 8 = value.extractLsb' 0 8 := by
    rw [← shifted_byte, BitVec.ushiftRight_zero]
  rw [storeWord, shifted_byte, shifted_byte, shifted_byte, low, write32]

theorem loadWord_read32 (memory : Memory) (place : Nat) :
    loadWord memory place = read32 memory place := by
  rw [loadWord, shifted_joined, read32]

structure Moved (request : DiskRequest) (from_ : Nat) (before after : BlockState) : Prop where
  read : request.cmd = READ → after.disk = before.disk ∧
    (∀ i, from_ ≤ i → i < request.bytes →
      after.memory (request.buffer + i) = before.disk (request.start + i)) ∧
    ∀ address, address < request.buffer + from_ ∨ request.buffer + request.bytes ≤ address →
      after.memory address = before.memory address
  write : request.cmd = WRITE → after.memory = before.memory ∧
    (∀ i, from_ ≤ i → i < request.bytes →
      after.disk (request.start + i) = before.memory (request.buffer + i)) ∧
    ∀ address, address < request.start + from_ ∨ request.start + request.bytes ≤ address →
      after.disk address = before.disk address

theorem transferWord_read {address : BitVec 32} {place : Nat} (state : BlockState) :
    transferWord READ address place state =
      { state with memory := write32 state.memory place (read32 state.disk address.toNat) } := by
  rw [transferWord, if_pos rfl, storeWord_write32]

theorem transferWord_write {address : BitVec 32} {place : Nat} (state : BlockState) :
    transferWord WRITE address place state =
      { state with disk := write32 state.disk address.toNat (read32 state.memory place) } := by
  rw [transferWord, if_neg (by decide), loadWord_read32]

theorem word_copied (source target : Memory) (first second : Nat) {i : Nat} (small : i < 4) :
    write32 target second (read32 source first) (second + i) = source (first + i) := by
  have cases : i = 0 ∨ i = 1 ∨ i = 2 ∨ i = 3 := by omega
  obtain ⟨one, two, three, four⟩ := extractLsb_joined (source first) (source (first + 1))
    (source (first + 2)) (source (first + 3))
  rcases cases with rfl | rfl | rfl | rfl <;>
    simp [write32, write8, read32, one, two, three, four]

theorem Moved.none (request : DiskRequest) {from_ : Nat} (all : request.bytes ≤ from_)
    (state : BlockState) : Moved request from_ state state :=
  ⟨fun _ => ⟨rfl, fun i _ _ => by omega, fun _ _ => rfl⟩,
    fun _ => ⟨rfl, fun i _ _ => by omega, fun _ _ => rfl⟩⟩

theorem Moved.word {request : DiskRequest} {i : Nat} {word : BitVec 32} {before after : BlockState}
    (place : word.toNat = request.start + i) (inside : i + 4 ≤ request.bytes)
    (rest : Moved request (i + 4)
      (transferWord request.cmd word (request.buffer + i) before) after) :
    Moved request i before after := by
  constructor
  · intro isRead
    obtain ⟨disk, bytes, others⟩ := rest.read isRead
    rw [isRead, transferWord_read, place] at disk bytes others
    refine ⟨disk, fun j low high => ?_, fun address outside => ?_⟩
    · by_cases near : j < i + 4
      · obtain ⟨k, rfl⟩ := Nat.exists_eq_add_of_le low
        rw [others _ (by omega)]
        have copied := word_copied before.disk before.memory (request.start + i)
          (request.buffer + i) (show k < 4 by omega)
        rwa [Nat.add_assoc, Nat.add_assoc] at copied
      · exact bytes j (by omega) high
    · rw [others address (by omega)]
      exact write32_outside _ _ _ _ (by omega)
  · intro isWrite
    obtain ⟨memory, bytes, others⟩ := rest.write isWrite
    rw [isWrite, transferWord_write, place] at memory bytes others
    refine ⟨memory, fun j low high => ?_, fun address outside => ?_⟩
    · by_cases near : j < i + 4
      · obtain ⟨k, rfl⟩ := Nat.exists_eq_add_of_le low
        rw [others _ (by omega)]
        have copied := word_copied before.memory before.disk (request.buffer + i)
          (request.start + i) (show k < 4 by omega)
        rwa [Nat.add_assoc, Nat.add_assoc] at copied
      · exact bytes j (by omega) high
    · rw [others address (by omega)]
      exact write32_outside _ _ _ _ (by omega)

theorem transferFrom_moved {request : DiskRequest} (onDisk : OnDisk request) {fuel : Nat}
    {i : BitVec 32} (state : BlockState) (aligned : i.toNat % 4 = 0)
    (inside : i.toNat ≤ request.bytes) (enough : request.bytes - i.toNat ≤ fuel) :
    Moved request i.toNat state
      (transferFrom request (request.sector * 512) (request.nrSectors * 512) fuel i state) := by
  have first := onDisk.first
  have last := onDisk.last
  simp only [diskSectors] at first last
  have begins : (request.sector * 512).toNat = request.start := by
    rw [DiskRequest.start, BitVec.toNat_mul]
    exact Nat.mod_eq_of_lt (by simp; omega)
  have length : (request.nrSectors * 512).toNat = request.bytes := by
    rw [DiskRequest.bytes, BitVec.toNat_mul]
    exact Nat.mod_eq_of_lt (by simp; omega)
  have small : request.start + request.bytes ≤ 0x2000000 := by
    simp only [DiskRequest.start, DiskRequest.bytes]
    omega
  have whole : request.bytes % 4 = 0 := by
    simp only [DiskRequest.bytes]
    omega
  induction fuel generalizing i state with
  | zero => exact Moved.none request (by omega) state
  | succ fuel ih =>
      unfold transferFrom
      split
      · rename_i less
        simp only [BitVec.ult, decide_eq_true_eq, length] at less
        have advance : (i + 4).toNat = i.toNat + 4 := toNat_add_small (n := 4) (by omega)
        have place : (request.sector * 512 + i).toNat = request.start + i.toNat := by
          rw [BitVec.toNat_add, begins]
          exact Nat.mod_eq_of_lt (by omega)
        have rest := ih (i := i + 4)
          (transferWord request.cmd (request.sector * 512 + i) (request.buffer + i.toNat) state)
          (by omega) (by omega) (by omega)
        rw [advance] at rest
        exact Moved.word place (by omega) rest
      · rename_i notLess
        simp only [BitVec.ult, decide_eq_true_eq, length] at notLess
        exact Moved.none request (by omega) state

theorem transfer_transferred (request : DiskRequest) (state : BlockState) :
    Transferred request state (transfer request state) := by
  by_cases onDisk : OnDisk request
  · have length : (request.nrSectors * 512).toNat = request.bytes := by
      have last := onDisk.last
      simp only [diskSectors] at last
      rw [DiskRequest.bytes, BitVec.toNat_mul]
      exact Nat.mod_eq_of_lt (by simp; omega)
    have moved := @transferFrom_moved request onDisk (request.nrSectors * 512).toNat 0 state
      (by simp) (by simp) (by rw [length]; simp)
    rw [transfer, if_pos ((accepts_iff request).mpr onDisk)]
    refine ⟨fun _ isRead => ?_, fun _ isWrite => ?_, fun off => absurd onDisk off⟩
    · obtain ⟨disk, bytes, others⟩ := moved.read isRead
      exact ⟨disk, fun i high => bytes i (by simp) high, fun address outside =>
        others address (by simpa using outside)⟩
    · obtain ⟨memory, bytes, others⟩ := moved.write isWrite
      exact ⟨memory, fun i high => bytes i (by simp) high, fun address outside =>
        others address (by simpa using outside)⟩
  · rw [transfer, if_neg (fun yes => onDisk ((accepts_iff request).mp yes))]
    exact ⟨fun on => absurd on onDisk, fun on => absurd on onDisk, fun _ => ⟨rfl, rfl⟩⟩

theorem transfer_keeps (request : DiskRequest) (state : BlockState) :
    ∃ disk memory, transfer request state = { state with disk, memory } := by
  have loop (address bytes : BitVec 32) (fuel : Nat) (i : BitVec 32) : ∃ disk memory,
      transferFrom request address bytes fuel i state = { state with disk, memory } := by
    induction fuel generalizing i state with
    | zero => exact ⟨_, _, rfl⟩
    | succ fuel ih =>
        unfold transferFrom
        split
        · obtain ⟨disk, memory, same⟩ := ih
            (transferWord request.cmd (address + i) (request.buffer + i.toNat) state) (i + 4)
          rw [same]
          unfold transferWord
          split
          · exact ⟨disk, memory, rfl⟩
          · exact ⟨disk, memory, rfl⟩
        · exact ⟨_, _, rfl⟩
  unfold transfer
  split
  · exact loop _ _ _ _
  · exact ⟨_, _, rfl⟩

/-! The queue. -/

theorem Chain.congr {first second : BlockState} {current : Option Nat} {slots : List Nat}
    (chain : Chain first current slots) (same : ∀ slot ∈ slots, second.next slot = first.next slot) :
    Chain second current slots := by
  induction slots generalizing current with
  | nil => exact chain
  | cons slot rest ih =>
      refine ⟨chain.1, ?_⟩
      rw [same slot List.mem_cons_self]
      exact ih chain.2 fun other member => same other (List.mem_cons_of_mem slot member)

theorem Chain.following {state : BlockState} {current : Option Nat} {slots : List Nat}
    (chain : Chain state current slots) {slot following : Nat} (member : slot ∈ slots)
    (next : state.next slot = some following) : following ∈ slots := by
  induction slots generalizing current with
  | nil => cases member
  | cons first rest ih =>
      refine List.mem_cons_of_mem first ?_
      rcases List.mem_cons.mp member with rfl | member
      · cases rest with
        | nil =>
            rw [show state.next slot = none from chain.2] at next
            cases next
        | cons second more =>
            rw [chain.2.1] at next
            cases next
            exact List.mem_cons_self
      · exact ih chain.2 member

theorem insertAfter_mem {state : BlockState} {current : Option Nat} {slots : List Nat}
    (chain : Chain state current slots) (request : DiskRequest) (fuel : Nat) {tmp : Nat}
    (member : tmp ∈ slots) : insertAfter state request fuel tmp ∈ slots := by
  induction fuel generalizing tmp with
  | zero => exact member
  | succ fuel ih =>
      unfold insertAfter
      split
      · exact member
      · rename_i following next
        split
        · exact member
        · exact ih (chain.following member next)

theorem Chain.insert {state linked : BlockState} {current : Option Nat} {slots : List Nat}
    {slot tmp : Nat} (chain : Chain state current slots) (once : slots.Nodup)
    (fresh : slot ∉ slots) (member : tmp ∈ slots)
    (next : linked.next = Function.update (Function.update state.next slot (state.next tmp)) tmp
      (some slot)) :
    ∃ longer, Chain linked current longer ∧ longer.Perm (slot :: slots) ∧
      longer.head? = slots.head? := by
  induction slots generalizing current with
  | nil => cases member
  | cons first rest ih =>
      obtain ⟨absent, once⟩ := List.nodup_cons.mp once
      have other : first ≠ slot := fun same => fresh (same ▸ List.mem_cons_self)
      have outside : slot ∉ rest := fun inside => fresh (List.mem_cons_of_mem first inside)
      by_cases here : first = tmp
      · subst here
        have after : linked.next first = some slot := by rw [next, Function.update_self]
        have later : linked.next slot = state.next first := by
          rw [next, Function.update_of_ne other.symm, Function.update_self]
        have kept : ∀ s ∈ rest, linked.next s = state.next s := by
          intro s inside
          have notFirst : s ≠ first := ne_of_mem_of_not_mem inside absent
          have notSlot : s ≠ slot := ne_of_mem_of_not_mem inside outside
          rw [next, Function.update_of_ne notFirst, Function.update_of_ne notSlot]
        refine ⟨first :: slot :: rest, ⟨chain.1, after, ?_⟩, List.Perm.swap slot first rest, rfl⟩
        rw [later]
        exact chain.2.congr kept
      · have inside : tmp ∈ rest := (List.mem_cons.mp member).resolve_left fun same =>
          here same.symm
        obtain ⟨longer, chained, perm, _⟩ := ih chain.2 once outside inside
        have kept : linked.next first = state.next first := by
          rw [next, Function.update_of_ne here, Function.update_of_ne other]
        refine ⟨first :: longer, ⟨chain.1, kept ▸ chained⟩, ?_, rfl⟩
        exact (perm.cons first).trans (List.Perm.swap slot first rest)

structure Joined (slot : Nat) (slots : List Nat) (before after : BlockState) (more : List Nat) :
    Prop where
  queue : Queue after (slot :: more)
  current : after.current = some slot
  same : after.requests slot = before.requests slot
  disk : after.disk = before.disk
  memory : after.memory = before.memory
  waiting : after.waitForRequest = before.waitForRequest
  heads : ∀ h, (after.heads h).wait = (before.heads h).wait
  perm : ((slot :: more).map after.requests ++ before.added).Perm
    ((slot :: slots).map before.requests ++ after.added)

theorem freeRequest_free {state : BlockState} {cmd : BitVec 32} {slot : Nat}
    (found : freeRequest state cmd = some slot) :
    slot < NR_REQUEST ∧ (state.requests slot).dev.slt 0 = true := by
  unfold freeRequest at found
  have member := List.mem_of_find?_eq_some found
  rw [List.mem_reverse, List.mem_range] at member
  refine ⟨?_, by simpa using List.find?_some found⟩
  split at member
  · exact member
  · exact Nat.lt_of_lt_of_le member (by decide)

theorem fillSlot_wait (slot : Nat) (request : DiskRequest) (state : BlockState) (h : Nat) :
    ((fillSlot slot request state).heads h).wait = (state.heads h).wait := by
  unfold fillSlot
  split
  · rfl
  · rename_i other _
    by_cases same : h = other
    · subst same
      simp
    · simp [same]

theorem addRequest_joined {state : BlockState} {slot free : Nat} {slots : List Nat}
    (queue : Queue state (slot :: slots)) {request : DiskRequest} (live : Live request)
    (fresh : free ∉ slot :: slots) (inTable : free < NR_REQUEST) :
    ∃ more, Joined slot slots state (addRequest free request state) more ∧
      more.length ≤ slots.length + 1 := by
  have current := queue.chain.1
  have kept : ∀ s ∈ slot :: slots, (fillSlot free request state).requests s = state.requests s :=
    fun s member => Function.update_of_ne (ne_of_mem_of_not_mem member fresh) _ _
  have placed : (fillSlot free request state).requests free = request :=
    Function.update_self _ _ _
  have chain : Chain (fillSlot free request state) state.current (slot :: slots) :=
    queue.chain.congr fun s member =>
      Function.update_of_ne (ne_of_mem_of_not_mem member fresh) _ _
  have wait := fillSlot_wait free request state
  have place := insertAfter_mem chain request NR_REQUEST (List.mem_cons_self (a := slot))
  obtain ⟨longer, chained, perm, head⟩ := @Chain.insert _ (linkAfter _ free _) _ _ _ _ chain
    queue.once fresh place rfl
  unfold addRequest
  rw [current]
  dsimp only
  generalize insertAfter (fillSlot free request state) request NR_REQUEST slot = tmp at chained
  cases longer with
  | nil => cases head
  | cons first more =>
      obtain rfl : first = slot := Option.some.inj head
      have members : ∀ s ∈ first :: more, s = free ∨ s ∈ first :: slots := fun s member =>
        List.mem_cons.mp (perm.mem_iff.mp member)
      have requests := perm.map (fillSlot free request state).requests
      have filled : (free :: first :: slots).map (fillSlot free request state).requests =
          request :: (first :: slots).map state.requests := by
        rw [List.map_cons, placed, List.map_congr_left kept]
      rw [filled] at requests
      have lengths := perm.length_eq
      simp only [List.length_cons] at lengths
      refine ⟨more, ⟨⟨?_, ?_, ?_, ?_⟩, current, ?_, rfl, rfl, rfl, wait, ?_⟩, by omega⟩
      · rw [current] at chained
        exact current ▸ chained
      · exact perm.nodup_iff.mpr (List.nodup_cons.mpr ⟨fresh, queue.once⟩)
      · intro s member
        rcases members s member with rfl | old
        · exact inTable
        · exact queue.inTable s old
      · intro s member
        rcases members s member with rfl | old
        · exact placed.symm ▸ live
        · have alive := queue.live s old
          rwa [← kept s old] at alive
      · exact kept first List.mem_cons_self
      · exact (requests.append_right state.added).trans List.perm_middle.symm

theorem makeRequest_joined {state : BlockState} {slot : Nat} {slots : List Nat}
    (queue : Queue state (slot :: slots)) {request : DiskRequest} (live : Live request) :
    ∃ more, Joined slot slots state (makeRequest state request) more ∧
      more.length ≤ slots.length + 1 := by
  unfold makeRequest
  split
  · exact ⟨slots, ⟨queue, queue.chain.1, rfl, rfl, rfl, rfl, fun _ => rfl, List.Perm.refl _⟩,
      by omega⟩
  · rename_i free found
    obtain ⟨inTable, dead⟩ := freeRequest_free found
    refine addRequest_joined queue live (fun inside => ?_) inTable
    have alive := queue.live free inside
    rw [Live, dead] at alive
    cases alive

theorem makeRequests_joined {state : BlockState} {slot : Nat} {slots : List Nat}
    (queue : Queue state (slot :: slots)) {adds : List DiskRequest}
    (live : ∀ request ∈ adds, Live request) :
    ∃ more, Joined slot slots state (adds.foldl makeRequest state) more ∧
      more.length ≤ slots.length + adds.length := by
  induction adds generalizing state slots with
  | nil =>
      exact ⟨slots, ⟨queue, queue.chain.1, rfl, rfl, rfl, rfl, fun _ => rfl, List.Perm.refl _⟩,
        Nat.le_refl _⟩
  | cons request rest ih =>
      obtain ⟨middle, first, short⟩ := makeRequest_joined queue (live request List.mem_cons_self)
      obtain ⟨more, second, shorter⟩ := ih first.queue fun other member =>
        live other (List.mem_cons_of_mem request member)
      refine ⟨more, ⟨second.queue, second.current, second.same.trans first.same,
        second.disk.trans first.disk, second.memory.trans first.memory,
        second.waiting.trans first.waiting, fun h => (second.heads h).trans (first.heads h), ?_⟩, ?_⟩
      · have one := List.perm_iff_count.mp first.perm
        have two := List.perm_iff_count.mp second.perm
        refine List.perm_iff_count.mpr fun a => ?_
        have counts := one a
        have later := two a
        simp only [List.foldl_cons, List.count_append] at counts later ⊢
        omega
      · simp only [List.length_cons]
        omega

/-! One round. -/

theorem wakeUp_running {taskState : Nat → BitVec 32} {task : Nat} (running : taskState task = 0)
    (waiting : Option Nat) : wakeUp taskState waiting task = 0 := by
  cases waiting with
  | none => exact running
  | some other =>
      by_cases same : task = other
      · subst same
        exact Function.update_self _ _ _
      · exact (Function.update_of_ne same _ _).trans running

theorem wakeUp_self (taskState : Nat → BitVec 32) {waiting : Option Nat} {task : Nat}
    (waits : waiting = some task) : wakeUp taskState waiting task = 0 := by
  subst waits
  exact Function.update_self _ _ _

theorem tellHead_keeps (request : DiskRequest) (ok : Bool) (state : BlockState) :
    ∃ heads taskState, tellHead request ok state = { state with heads, taskState } := by
  unfold tellHead
  split
  · exact ⟨_, _, rfl⟩
  · exact ⟨_, _, rfl⟩

theorem complete_keeps (slot : Nat) (ok : Bool) (state : BlockState) :
    (complete slot ok state).disk = state.disk ∧ (complete slot ok state).memory = state.memory ∧
      (complete slot ok state).added = state.added ∧
      (complete slot ok state).next = state.next ∧
      (complete slot ok state).current = state.next slot ∧
      (complete slot ok state).waitForRequest = none ∧
      (complete slot ok state).requests = Function.update state.requests slot
        { state.requests slot with waiting := none, dev := -1 } := by
  obtain ⟨heads, taskState, told⟩ := tellHead_keeps (state.requests slot) ok state
  simp only [complete, told, and_self]

theorem complete_queue {state : BlockState} {slot : Nat} {more : List Nat} (ok : Bool)
    (queue : Queue state (slot :: more)) :
    Queue (complete slot ok state) more ∧
      more.map (complete slot ok state).requests = more.map state.requests := by
  obtain ⟨_, _, _, next, current, _, requests⟩ := complete_keeps slot ok state
  obtain ⟨absent, once⟩ := List.nodup_cons.mp queue.once
  have kept : ∀ s ∈ more, (complete slot ok state).requests s = state.requests s := by
    intro s member
    rw [requests, Function.update_of_ne (ne_of_mem_of_not_mem member absent)]
  refine ⟨⟨?_, once, fun s member => queue.inTable s (List.mem_cons_of_mem slot member), ?_⟩,
    List.map_congr_left kept⟩
  · rw [current]
    exact queue.chain.2.congr fun s _ => congrFun next s
  · intro s member
    rw [kept s member]
    exact queue.live s (List.mem_cons_of_mem slot member)

theorem complete_wakes (slot : Nat) (ok : Bool) (state : BlockState) :
    Woken (complete slot ok state) (state.requests slot).waiting ∧
      Woken (complete slot ok state) state.waitForRequest ∧
      ∀ h, (state.requests slot).bh = some h →
        ((complete slot ok state).heads h).uptodate = ok ∧
        ((complete slot ok state).heads h).lock = false ∧
        Woken (complete slot ok state) (state.heads h).wait := by
  obtain ⟨heads, taskState, told⟩ := tellHead_keeps (state.requests slot) ok state
  refine ⟨fun task waits => ?_, fun task waits => ?_, fun h isHead => ?_⟩
  · exact wakeUp_running (wakeUp_self _ waits) _
  · refine wakeUp_self _ ?_
    rw [told]
    exact waits
  · have same : tellHead (state.requests slot) ok state = { state with
        heads := Function.update state.heads h
          { state.heads h with uptodate := ok, lock := false, wait := none }
        taskState := wakeUp state.taskState (state.heads h).wait } := by
      unfold tellHead
      rw [isHead]
    have after : (complete slot ok state).heads h =
        { state.heads h with uptodate := ok, lock := false, wait := none } := by
      simp [complete, same]
    refine ⟨by rw [after], by rw [after], fun task waits => ?_⟩
    refine wakeUp_running (wakeUp_running ?_ _) _
    rw [same]
    exact wakeUp_self _ waits

theorem Transferred.of_same {request : DiskRequest} {before middle after : BlockState}
    (moved : Transferred request before middle) (disk : after.disk = middle.disk)
    (memory : after.memory = middle.memory) : Transferred request before after := by
  constructor
  · rw [disk, memory]
    exact moved.read
  · rw [disk, memory]
    exact moved.write
  · rw [disk, memory]
    exact moved.rejected

theorem Queue.transfer {state : BlockState} {slots : List Nat} (queue : Queue state slots)
    (request : DiskRequest) : Queue (transfer request state) slots := by
  obtain ⟨disk, memory, same⟩ := transfer_keeps request state
  rw [same]
  exact ⟨queue.chain.congr fun _ _ => rfl, queue.once, queue.inTable, queue.live⟩

/-- A round serves the head of the queue and leaves the others and those that came in. -/
theorem serve_head {state : BlockState} {slot : Nat} {slots : List Nat}
    (queue : Queue state (slot :: slots)) {adds : List DiskRequest}
    (live : ∀ request ∈ adds, Live request) :
    Finished slot state (serve slot adds state) ∧
      ∃ more, Queue (serve slot adds state) more ∧ more.length ≤ slots.length + adds.length ∧
        (state.requests slot :: more.map (serve slot adds state).requests ++ state.added).Perm
          ((slot :: slots).map state.requests ++ (serve slot adds state).added) := by
  have moved := transfer_transferred (state.requests slot) state
  obtain ⟨disk, memory, same⟩ := transfer_keeps (state.requests slot) state
  obtain ⟨more, joined, short⟩ := makeRequests_joined (queue.transfer (state.requests slot)) live
  generalize isJoined : adds.foldl makeRequest (transfer (state.requests slot) state) = middle
    at joined
  have served : serve slot adds state =
      complete slot (accepts (state.requests slot)) middle := by
    rw [serve, isJoined]
  have request : middle.requests slot = state.requests slot := by
    rw [joined.same, same]
  generalize isOk : accepts (state.requests slot) = ok at served
  obtain ⟨disk', memory', added, _, _, waitFor, requests⟩ := complete_keeps slot ok middle
  obtain ⟨wakes, wakesFor, heads⟩ := complete_wakes slot ok middle
  obtain ⟨left, kept⟩ := complete_queue ok joined.queue
  rw [request] at wakes heads
  rw [served]
  refine ⟨⟨?_, ?_, ?_, ?_, wakes, ?_, waitFor⟩, more, left, short, ?_⟩
  · exact moved.of_same (disk'.trans joined.disk) (memory'.trans joined.memory)
  · intro h isHead
    rw [(heads h isHead).1, ← isOk]
    exact accepts_iff _
  · intro h isHead
    obtain ⟨_, unlocked, woken⟩ := heads h isHead
    rw [joined.heads h, same] at woken
    exact ⟨unlocked, woken⟩
  · rw [requests, Function.update_self]
  · rw [joined.waiting, same] at wakesFor
    exact wakesFor
  · have perm := joined.perm
    rw [List.map_cons, request] at perm
    rw [kept, added]
    simpa [same] using perm

/-! Runs. -/

def Linked : BlockState → List DiskRound → Prop
  | _, [] => True
  | state, round :: rest => round.before = state ∧ Linked round.after rest

def SectorsApart (first second : DiskRequest) : Prop :=
  first.start + first.bytes ≤ second.start ∨ second.start + second.bytes ≤ first.start

/-- What was written is read back, unless another write came between. -/
def SectorsReadBack (rounds : List DiskRound) : Prop :=
  ∀ (early middle late : List DiskRound) (written read : DiskRound),
    rounds = early ++ written :: (middle ++ read :: late) →
    OnDisk written.request → written.request.cmd = WRITE →
    OnDisk read.request → read.request.cmd = READ →
    read.request.sector = written.request.sector →
    read.request.nrSectors = written.request.nrSectors →
    (∀ other ∈ middle, other.request.cmd = WRITE → SectorsApart other.request written.request) →
    ∀ i < written.request.bytes, read.after.memory (read.request.buffer + i) =
      written.before.memory (written.request.buffer + i)

theorem diskRequest_linked (fuel : Nat) (adds : List (List DiskRequest)) (state : BlockState) :
    Linked state (diskRequest fuel adds state).1 := by
  induction fuel generalizing adds state with
  | zero => trivial
  | succ fuel ih =>
      unfold diskRequest
      split
      · trivial
      · exact ⟨rfl, ih _ _⟩

theorem Linked.append {state : BlockState} {first second : List DiskRound}
    (linked : Linked state (first ++ second)) : ∃ middle, Linked middle second := by
  induction first generalizing state with
  | nil => exact ⟨state, linked⟩
  | cons round rest ih => exact ih linked.2

theorem Transferred.disk_outside {request : DiskRequest} {before after : BlockState}
    (moved : Transferred request before after) {address : Nat}
    (outside : request.cmd = WRITE → address < request.start ∨
      request.start + request.bytes ≤ address) :
    after.disk address = before.disk address := by
  by_cases onDisk : OnDisk request
  · rcases onDisk.direction with isRead | isWrite
    · rw [(moved.read onDisk isRead).1]
    · exact (moved.write onDisk isWrite).2.2 address (outside isWrite)
  · rw [(moved.rejected onDisk).1]

/-- The disk keeps an address that no write of the rounds covers. -/
theorem Linked.disk_kept {state : BlockState} {rounds later : List DiskRound} {last : DiskRound}
    (linked : Linked state (rounds ++ last :: later))
    (moved : ∀ round ∈ rounds, Transferred round.request round.before round.after)
    {address : Nat} (outside : ∀ round ∈ rounds, round.request.cmd = WRITE →
      address < round.request.start ∨ round.request.start + round.request.bytes ≤ address) :
    last.before.disk address = state.disk address := by
  induction rounds generalizing state with
  | nil => rw [linked.1]
  | cons round rest ih =>
      have first := (moved round List.mem_cons_self).disk_outside
        (outside round List.mem_cons_self)
      rw [ih linked.2 (fun other member => moved other (List.mem_cons_of_mem round member))
        fun other member => outside other (List.mem_cons_of_mem round member), first, linked.1]

theorem sectorsReadBack_of_moved {state : BlockState} {rounds : List DiskRound}
    (linked : Linked state rounds)
    (moved : ∀ round ∈ rounds, Transferred round.request round.before round.after) :
    SectorsReadBack rounds := by
  rintro early middle late written read rfl onDisk isWrite onDisk' isRead sector count apart i inside
  have wrote := (moved written (by simp)).write onDisk isWrite
  have reads := (moved read (by simp)).read onDisk' isRead
  have start : read.request.start = written.request.start := by
    rw [DiskRequest.start, DiskRequest.start, sector]
  have bytes : read.request.bytes = written.request.bytes := by
    rw [DiskRequest.bytes, DiskRequest.bytes, count]
  obtain ⟨begun, again⟩ := linked.append
  have kept := again.2.disk_kept (fun round member => moved round (by simp [member]))
    fun round member isWrite => show written.request.start + i < round.request.start ∨ _ by
      have free := apart round member isWrite
      unfold SectorsApart at free
      omega
  rw [reads.2.1 i (by omega), start, kept, wrote.2.1 i inside]

theorem diskRequest_run {fuel : Nat} {state : BlockState} {slots : List Nat}
    (queue : Queue state slots) {adds : List (List DiskRequest)}
    (live : ∀ batch ∈ adds, ∀ request ∈ batch, Live request)
    (enough : slots.length + adds.flatten.length ≤ fuel) :
    (diskRequest fuel adds state).2.current = none ∧
      ((diskRequest fuel adds state).1.map DiskRound.request ++ state.added).Perm
        (slots.map state.requests ++ (diskRequest fuel adds state).2.added) ∧
      ∀ round ∈ (diskRequest fuel adds state).1, Finished round.slot round.before round.after := by
  induction fuel generalizing state slots adds with
  | zero =>
      have none : slots = [] := List.length_eq_zero_iff.mp (by omega)
      subst none
      exact ⟨queue.chain, List.Perm.refl _, nofun⟩
  | succ fuel ih =>
      cases slots with
      | nil =>
          have current : state.current = none := queue.chain
          unfold diskRequest
          rw [current]
          exact ⟨current, List.Perm.refl _, nofun⟩
      | cons slot slots =>
          have current : state.current = some slot := queue.chain.1
          have batch : ∀ request ∈ adds.headD [], Live request := by
            cases adds with
            | nil => nofun
            | cons batch rest => exact live batch List.mem_cons_self
          have others : ∀ batch ∈ adds.tail, ∀ request ∈ batch, Live request :=
            fun batch member => live batch (List.mem_of_mem_tail member)
          have lengths : (adds.headD []).length + adds.tail.flatten.length =
              adds.flatten.length := by
            cases adds with
            | nil => rfl
            | cons batch rest => simp
          obtain ⟨finished, more, left, short, perm⟩ := serve_head queue batch
          simp only [List.length_cons] at enough
          obtain ⟨empty, rest, all⟩ := ih left others (by omega)
          unfold diskRequest
          rw [current]
          refine ⟨empty, ?_, fun round member => ?_⟩
          · have one := List.perm_iff_count.mp perm
            have two := List.perm_iff_count.mp rest
            refine List.perm_iff_count.mpr fun request => ?_
            have counts := one request
            have later := two request
            simp only [List.map_cons, List.cons_append, List.count_cons, List.count_append,
              DiskRound.request] at counts later ⊢
            omega
          · rcases List.mem_cons.mp member with rfl | member
            · exact finished
            · exact all round member

theorem disk_request_completes (state : BlockState) (slots : List Nat)
    (queue : Queue state slots) (adds : List (List DiskRequest))
    (live : ∀ batch ∈ adds, ∀ request ∈ batch, Live request) (fuel : Nat)
    (enough : slots.length + adds.flatten.length ≤ fuel) :
    let result := diskRequest fuel adds state
    result.2.current = none ∧
      (result.1.map DiskRound.request ++ state.added).Perm
        (slots.map state.requests ++ result.2.added) ∧
      (∀ round ∈ result.1, Finished round.slot round.before round.after) ∧
      SectorsReadBack result.1 := by
  obtain ⟨empty, perm, finished⟩ := diskRequest_run queue live enough
  exact ⟨empty, perm, finished, sectorsReadBack_of_moved (diskRequest_linked fuel adds state)
    fun round member => (finished round member).moved⟩

/-- A block is written and, by a request that comes in meanwhile, read into another buffer. -/
def writeBlock : DiskRequest :=
  { dev := 0x300, cmd := WRITE, sector := 2, nrSectors := 2, buffer := 0, waiting := none, bh := none }

def readBlock : DiskRequest := { writeBlock with cmd := READ, buffer := 4096 }

def writingState : BlockState where
  requests slot := { writeBlock with dev := if slot = 0 then 0x300 else -1 }
  next _ := none
  current := some 0
  heads _ := { uptodate := false, dirt := true, lock := true, wait := none }
  taskState _ := 0
  waitForRequest := none
  disk _ := 0
  memory address := BitVec.ofNat 8 address
  added := []

theorem writing_completes :
    let result := diskRequest 2 [[readBlock]] writingState
    result.2.current = none ∧
      (result.1.map DiskRound.request ++ writingState.added).Perm
        ([0].map writingState.requests ++ result.2.added) ∧
      (∀ round ∈ result.1, Finished round.slot round.before round.after) ∧
      SectorsReadBack result.1 :=
  disk_request_completes writingState [0]
    ⟨⟨rfl, rfl⟩, by simp, by simp [NR_REQUEST], by simp [Live, writingState, writeBlock]⟩
    [[readBlock]] (by simp [Live, readBlock, writeBlock]) 2 (by simp)

end SymphonyPlus
