import Mathlib.Data.List.GetD
import SymphonyPlus.EmulatorRun

/-! No access of `emu_run_ex` leaves its array: one pass of its loop does what the step of the
abstract machine does, and the sizes of the arrays are an invariant of the run. -/

namespace SymphonyPlus.EmuRun

open ByteMemory

/-! The arrays as the registers and memories of the machine. -/

def memoryOf (bytes : List (BitVec 8)) : Memory := fun i => bytes.getD i 0

def registersOf (regs : List (BitVec 32)) : Registers where
  value := fun i => if i = 0 then 0 else regs.getD i 0
  zero := if_pos rfl

def settingsOf (settings : List (BitVec 32)) : Fin 8 → BitVec 32 := fun i => settings.getD i 0

def EmuState.machine (state : EmuState) (n : Nat) : Machine where
  regs := registersOf state.regs
  lastA := state.lastA
  lastB := state.lastB
  pc := state.pc
  memory := memoryOf state.mem
  disk := memoryOf state.disk
  settings := settingsOf state.settings
  timeHigh := state.timeHigh
  keyIndex := state.keyIndex
  keyCalls := state.keyCalls
  printed := state.printed
  instruction := n

/-- The invariant of a run: the arrays keep their sizes, register zero stays zero, and the
counter is an address of the memory or the target of a jump. -/
structure EmuState.Sound (options : EmuOptions) (state : EmuState) : Prop where
  regs : state.regs.length = 16
  zero : state.regs[0]? = some 0
  settings : state.settings.length = 8
  mem : state.mem.length = options.ramSize
  disk : state.disk.length = options.diskSize
  pc : options.ramMask = BitVec.allOnes 32 → state.pc ≤ max options.ramSize (2 ^ 32)

structure EmuState.Ready (options : EmuOptions) (state : EmuState) : Prop extends
    state.Sound options where
  room : options.ramMask = BitVec.allOnes 32 → state.pc + 4 ≤ options.ramSize

/-- A checked action does what the machine does, and stops without a change. -/
inductive Simulates (options : EmuOptions) (n : Nat) (state : EmuState) :
    Option Passed → StepResult → Prop
  | running {after : EmuState} (sound : after.Sound options) :
      Simulates options n state (some (.running after)) (.running (after.machine n))
  | halted : Simulates options n state (some (.halted state)) (.halted (state.machine n))
  | fault {code : Nat} (known : code = 2 ∨ code = 3) :
      Simulates options n state (some (.fault code state)) (.fault code (state.machine n))

section arrays
variable {bytes : List (BitVec 8)} {p : Nat}

theorem get_byte (bound : p < bytes.length) : bytes[p]? = some (memoryOf bytes p) := by
  rw [memoryOf, List.getElem?_eq_getElem bound, List.getD_eq_getElem _ _ bound]

theorem store_byte (v : BitVec 8) (bound : p < bytes.length) :
    ∃ after, store bytes p v = some after ∧ after.length = bytes.length ∧
      memoryOf after = write8 (memoryOf bytes) p v := by
  refine ⟨bytes.set p v, if_pos bound, List.length_set, ?_⟩
  funext query
  by_cases same : query = p
  · rw [same, write8_same, memoryOf, List.getD_eq_getElem?_getD, List.getElem?_set_self bound]
    rfl
  · rw [write8_other _ _ _ _ same, memoryOf, memoryOf, List.getD_eq_getElem?_getD,
      List.getElem?_set_ne (Ne.symm same), List.getD_eq_getElem?_getD]

theorem rd8_some (bound : p + 1 ≤ bytes.length) :
    rd8 bytes p = some ((memoryOf bytes p).zeroExtend 32) := by
  rw [rd8, get_byte bound]
  rfl

theorem rd16_some (bound : p + 2 ≤ bytes.length) :
    rd16 bytes p = some (read16 (memoryOf bytes) p) := by
  simp only [rd16, get_byte (show p < bytes.length by omega),
    get_byte (show p + 1 < bytes.length by omega)]
  rfl

theorem rd32_some (bound : p + 4 ≤ bytes.length) :
    rd32 bytes p = some (read32 (memoryOf bytes) p) := by
  simp only [rd32, get_byte (show p < bytes.length by omega),
    get_byte (show p + 1 < bytes.length by omega), get_byte (show p + 2 < bytes.length by omega),
    get_byte (show p + 3 < bytes.length by omega)]
  rfl

theorem wr16_some (v : BitVec 16) (bound : p + 2 ≤ bytes.length) :
    ∃ after, wr16 bytes p v = some after ∧ after.length = bytes.length ∧
      memoryOf after = write16 (memoryOf bytes) p v := by
  obtain ⟨one, done, size, same⟩ := store_byte (v.extractLsb' 8 8) (show p < bytes.length by omega)
  obtain ⟨two, done₂, size₂, same₂⟩ :=
    store_byte (v.extractLsb' 0 8) (show p + 1 < one.length by omega)
  refine ⟨two, ?_, size₂.trans size, ?_⟩
  · simp only [wr16, done, bind, Option.bind_some, done₂]
  · rw [same₂, same, write16]

theorem wr32_some (v : BitVec 32) (bound : p + 4 ≤ bytes.length) :
    ∃ after, wr32 bytes p v = some after ∧ after.length = bytes.length ∧
      memoryOf after = write32 (memoryOf bytes) p v := by
  obtain ⟨one, done, size, same⟩ := store_byte (v.extractLsb' 24 8) (show p < bytes.length by omega)
  obtain ⟨two, done₂, size₂, same₂⟩ :=
    store_byte (v.extractLsb' 16 8) (show p + 1 < one.length by omega)
  obtain ⟨three, done₃, size₃, same₃⟩ :=
    store_byte (v.extractLsb' 8 8) (show p + 2 < two.length by omega)
  obtain ⟨four, done₄, size₄, same₄⟩ :=
    store_byte (v.extractLsb' 0 8) (show p + 3 < three.length by omega)
  refine ⟨four, ?_, by omega, ?_⟩
  · simp only [wr32, done, bind, Option.bind_some, done₂, done₃, done₄]
  · rw [same₄, same₃, same₂, same, write32]

end arrays

section
variable {options : EmuOptions} {state base : EmuState} {n : Nat}

@[simp] theorem machine_pc : (state.machine n).pc = state.pc := rfl

@[simp] theorem machine_keyIndex : (state.machine n).keyIndex = state.keyIndex := rfl

@[simp] theorem machine_instruction : (state.machine n).instruction = n := rfl

theorem EmuState.Sound.reg (sound : state.Sound options) (i : Fin 16) :
    reg state i = some ((state.machine n).regs i) := by
  have bound : i.val < state.regs.length := by rw [sound.regs]; exact i.isLt
  by_cases first : i = 0
  · subst first
    exact sound.zero
  · have value : (state.machine n).regs i = state.regs.getD i 0 := if_neg first
    rw [value, EmuRun.reg, List.getElem?_eq_getElem bound, List.getD_eq_getElem _ _ bound]

theorem setReg_some (ready : state.Ready options) (i : Fin 16) (v : BitVec 32) :
    ∃ after, setReg state i v = some after ∧ after.Ready options ∧
      after.machine n = (state.machine n).setReg i v := by
  by_cases first : i = 0
  · subst first
    refine ⟨state, if_neg (Nat.lt_irrefl 0), ready, ?_⟩
    have same : (state.machine n).regs.set 0 v = (state.machine n).regs :=
      Registers.ext_value fun index => if_neg fun both => both.2 rfl
    rw [Machine.setReg, same]
  · have positive : 0 < i.val := Nat.pos_of_ne_zero fun zero => first (Fin.ext zero)
    have bound : i.val < state.regs.length := by rw [ready.regs]; exact i.isLt
    refine ⟨{ state with regs := state.regs.set i v }, ?_, ?_, ?_⟩
    · rw [setReg, if_pos positive, store, if_pos bound]
      rfl
    · refine ⟨⟨List.length_set.trans ready.regs, ?_, ready.settings, ready.mem, ready.disk,
        ready.pc⟩, ready.room⟩
      exact (List.getElem?_set_ne (Nat.ne_of_gt positive)).trans ready.zero
    · rw [Machine.setReg]
      unfold EmuState.machine
      congr 1
      refine Registers.ext_value fun index => ?_
      by_cases same : index = i
      · subst same
        rw [Registers.set_same _ _ first]
        refine (if_neg first).trans ?_
        rw [List.getD_eq_getElem?_getD, List.getElem?_set_self bound]
        rfl
      · rw [Registers.set_other _ _ same]
        have apart : i.val ≠ index.val := fun eq => same (Fin.ext eq.symm)
        simp only [registersOf, List.getD_eq_getElem?_getD, List.getElem?_set_ne apart]

theorem simulates_advance (ready : state.Ready options) :
    Simulates options n base (some (advance state)) (.running (state.machine n).next) := by
  have sound : EmuState.Sound options { state with pc := (state.pc + 4) % 2 ^ 64 } := by
    refine ⟨ready.regs, ready.zero, ready.settings, ready.mem, ready.disk, fun full => ?_⟩
    have room := ready.room full
    have small := Nat.mod_le (state.pc + 4) (2 ^ 64)
    show (state.pc + 4) % 2 ^ 64 ≤ _
    omega
  exact .running sound

theorem simulates_put (ready : state.Ready options) (i : Fin 16) (v : BitVec 32) :
    Simulates options n base (put state i v) (continueWith (state.machine n) i v) := by
  obtain ⟨after, done, ready, same⟩ := setReg_some (n := n) ready i v
  rw [put, done, Option.map_some, continueWith, ← same]
  exact simulates_advance ready

theorem simulates_alu (ready : state.Ready options) (a b c : Fin 16)
    (f : BitVec 32 → BitVec 32 → BitVec 32) :
    Simulates options n base (alu state a b c f)
      (continueWith (state.machine n) a
        (f ((state.machine n).regs b) ((state.machine n).regs c))) := by
  simp only [alu, ready.reg (n := n), bind, Option.bind_some]
  exact simulates_put ready a _

theorem simulates_aluImm (ready : state.Ready options) (a b : Fin 16) (imm : BitVec 32)
    (f : BitVec 32 → BitVec 32 → BitVec 32) :
    Simulates options n base (aluImm state a b imm f)
      (continueWith (state.machine n) a (f ((state.machine n).regs b) imm)) := by
  simp only [aluImm, ready.reg (n := n), bind, Option.bind_some]
  exact simulates_put ready a _

theorem simulates_out (ready : state.Ready options) (v : BitVec 32) :
    Simulates options n base (out state (some v))
      (.running ({ state.machine n with
        printed := (state.machine n).printed ++ [v] } : Machine).next) := by
  have ready' : EmuState.Ready options { state with printed := state.printed ++ [v] } :=
    ⟨⟨ready.regs, ready.zero, ready.settings, ready.mem, ready.disk, ready.pc⟩, ready.room⟩
  exact simulates_advance ready'

theorem simulates_compare (ready : state.Ready options) (b : Fin 16) (v : BitVec 32) :
    Simulates options n base (compare state b (some v))
      (.running ({ state.machine n with
        lastA := (state.machine n).regs b, lastB := v } : Machine).next) := by
  simp only [compare, ready.reg (n := n), bind, Option.bind_some]
  have ready' : EmuState.Ready options
      { state with lastA := (state.machine n).regs b, lastB := v } :=
    ⟨⟨ready.regs, ready.zero, ready.settings, ready.mem, ready.disk, ready.pc⟩, ready.room⟩
  exact simulates_advance ready'

theorem jumped_sound (ready : state.Ready options) (target : BitVec 32) :
    EmuState.Sound options { state with pc := target.toNat } :=
  ⟨ready.regs, ready.zero, ready.settings, ready.mem, ready.disk,
    fun _ => Nat.le_trans (Nat.le_of_lt target.isLt) (Nat.le_max_right _ _)⟩

theorem simulates_jump (ready : state.Ready options) (target : BitVec 32) :
    Simulates options n state (jump state (some target))
      (jumpRegister (state.machine n) target) := by
  rw [jump, Option.map_some, jumpRegister, machine_pc]
  by_cases here : target = BitVec.ofNat 32 state.pc
  · rw [if_pos here, if_pos here]
    exact .halted
  · rw [if_neg here, if_neg here]
    exact .running (jumped_sound ready target)

theorem simulates_jumpIf (ready : state.Ready options) (taken : Bool) (target : BitVec 32) :
    Simulates options n state (jumpIf state taken target)
      (jumpWhen (state.machine n) taken target) := by
  cases taken with
  | false => exact simulates_advance ready
  | true =>
      rw [jumpIf, if_pos rfl, jumpWhen, if_pos rfl, machine_pc]
      by_cases here : target.toNat = state.pc
      · rw [if_pos here, if_pos here]
        exact .halted
      · rw [if_neg here, if_neg here]
        exact .running (jumped_sound ready target)

theorem simulates_screen (ready : state.Ready options) (b : Fin 16) (v : BitVec 32) :
    Simulates options n state (screen state b (some v))
      (setOption (state.machine n) ((state.machine n).regs b) v) := by
  simp only [screen, ready.reg (n := n), bind, Option.bind_some]
  generalize (state.machine n).regs b = option
  by_cases inside : option.toNat < 8
  · have bound : option.toNat < state.settings.length := by rw [ready.settings]; exact inside
    rw [if_neg (by omega), setOption, dif_pos inside, store, if_pos bound]
    have same : settingsOf (state.settings.set option.toNat v) =
        fun query => if query = (⟨option.toNat, inside⟩ : Fin 8) then v
          else settingsOf state.settings query := by
      funext query
      by_cases eq : query = ⟨option.toNat, inside⟩
      · rw [if_pos eq, eq]
        simp only [settingsOf, List.getD_eq_getElem?_getD, List.getElem?_set_self bound,
          Option.getD_some]
      · have apart : option.toNat ≠ query.val := fun same => eq (Fin.ext same.symm)
        rw [if_neg eq]
        simp only [settingsOf, List.getD_eq_getElem?_getD, List.getElem?_set_ne apart]
    have ready' : EmuState.Ready options
        { state with settings := state.settings.set option.toNat v } :=
      ⟨⟨ready.regs, ready.zero, List.length_set.trans ready.settings, ready.mem, ready.disk,
        ready.pc⟩, ready.room⟩
    have simulated : Simulates options n state _ _ := simulates_advance ready'
    simp only [EmuState.machine, same] at simulated
    exact simulated
  · rw [if_pos (by omega), setOption, dif_neg inside]
    exact .fault (.inl rfl)

theorem nextKey_some (ready : state.Ready options) :
    ∃ key after, nextKey options n state = some (key, after) ∧ after.Ready options ∧
      Device.keyboard.read options (state.machine n) = (key, after.machine n) := by
  by_cases inside : state.keyIndex < options.events.length
  · obtain ⟨event, found⟩ : ∃ event, options.events[state.keyIndex]? = some event :=
      ⟨_, List.getElem?_eq_getElem inside⟩
    simp only [nextKey, if_pos inside, found, Option.map_some, bind, Option.bind_some,
      Device.read, machine_keyIndex, machine_instruction]
    by_cases due : event.1 ≤ n
    · simp only [due, ↓reduceIte]
      exact ⟨_, _, rfl, ⟨⟨ready.regs, ready.zero, ready.settings, ready.mem, ready.disk,
        ready.pc⟩, ready.room⟩, rfl⟩
    · simp only [due, ↓reduceIte]
      cases script : options.events with
      | nil =>
          rw [script] at inside
          exact absurd inside (Nat.not_lt_zero _)
      | cons event rest => exact ⟨_, _, rfl, ready, rfl⟩
  · have none := List.getElem?_eq_none (Nat.le_of_not_lt inside)
    simp only [nextKey, if_neg inside, none, bind, Option.bind_some, Device.read,
      machine_keyIndex, machine_instruction]
    cases options.events with
    | cons event rest => exact ⟨_, _, rfl, ready, rfl⟩
    | nil =>
        cases options.keyboard with
        | none => exact ⟨_, _, rfl, ready, rfl⟩
        | some live => exact ⟨_, _, rfl, ⟨⟨ready.regs, ready.zero, ready.settings, ready.mem,
            ready.disk, ready.pc⟩, ready.room⟩, rfl⟩

theorem simulates_keyboard (ready : state.Ready options) (a : Fin 16) :
    Simulates options n base (keyboard options n state a)
      (continueWith (Device.keyboard.read options (state.machine n)).2 a
        (Device.keyboard.read options (state.machine n)).1) := by
  obtain ⟨key, after, next, ready, same⟩ := nextKey_some (n := n) ready
  simp only [keyboard, next, bind, Option.bind_some, same]
  exact simulates_put ready a key

theorem simulates_timeLow (ready : state.Ready options) (a : Fin 16) :
    Simulates options n base (timeLow options n state a)
      (continueWith (Device.timeLow.read options (state.machine n)).2 a
        (Device.timeLow.read options (state.machine n)).1) := by
  have ready' : EmuState.Ready options { state with
      timeHigh := (BitVec.ofNat 64 n * options.nsPerInstruction).extractLsb' 32 32 } :=
    ⟨⟨ready.regs, ready.zero, ready.settings, ready.mem, ready.disk, ready.pc⟩, ready.room⟩
  exact simulates_put ready' a _

theorem simulates_load (ready : state.Ready options) {size limit address : Nat} (a : Fin 16)
    {value : Option (BitVec 32)} {v : BitVec 32} (read : address + size ≤ limit → value = some v) :
    Simulates options n state (load state size limit address a value)
      (loadInto (state.machine n) size limit address a v) := by
  by_cases inside : address + size ≤ limit
  · rw [load, if_neg (by omega), loadInto, if_pos inside, read inside, Option.bind_some]
    exact simulates_put ready a v
  · rw [load, if_pos (by omega), loadInto, if_neg inside]
    exact .fault (.inl rfl)

theorem simulates_storeMem (ready : state.Ready options) {size limit address : Nat} (b : Fin 16)
    {write : BitVec 32 → Option (List (BitVec 8))} {memory : Memory}
    (written : address + size ≤ limit → ∃ mem, write ((state.machine n).regs b) = some mem ∧
      mem.length = state.mem.length ∧ memoryOf mem = memory) :
    Simulates options n state (storeMem state size limit address b write)
      (storeMemory (state.machine n) size limit address memory) := by
  by_cases inside : address + size ≤ limit
  · obtain ⟨mem, done, size, rfl⟩ := written inside
    rw [storeMem, if_neg (by omega), storeMemory, if_pos inside, ready.reg (n := n),
      Option.bind_some, done, Option.map_some]
    have ready' : EmuState.Ready options { state with mem := mem } :=
      ⟨⟨ready.regs, ready.zero, ready.settings, size.trans ready.mem, ready.disk, ready.pc⟩,
        ready.room⟩
    exact simulates_advance ready'
  · rw [storeMem, if_pos (by omega), storeMemory, if_neg inside]
    exact .fault (.inl rfl)

theorem simulates_storeDisk (ready : state.Ready options) {limit address : Nat} (b : Fin 16)
    {write : BitVec 32 → Option (List (BitVec 8))} {memory : Memory}
    (written : address + 4 ≤ limit → ∃ disk, write ((state.machine n).regs b) = some disk ∧
      disk.length = state.disk.length ∧ memoryOf disk = memory) :
    Simulates options n state (EmuRun.storeDisk state limit address b write)
      (SymphonyPlus.storeDisk (state.machine n) limit address memory) := by
  by_cases inside : address + 4 ≤ limit
  · obtain ⟨disk, done, size, rfl⟩ := written inside
    rw [EmuRun.storeDisk, if_neg (by omega), SymphonyPlus.storeDisk, if_pos inside,
      ready.reg (n := n), Option.bind_some, done, Option.map_some]
    have ready' : EmuState.Ready options { state with disk := disk } :=
      ⟨⟨ready.regs, ready.zero, ready.settings, ready.mem, size.trans ready.disk, ready.pc⟩,
        ready.room⟩
    exact simulates_advance ready'
  · rw [EmuRun.storeDisk, if_pos (by omega), SymphonyPlus.storeDisk, if_neg inside]
    exact .fault (.inl rfl)

theorem nibble_eq (word : BitVec 32) (position : Nat) :
    nibble word position = (fieldOf word position).val := by
  rw [nibble, fieldOf, BitVec.toNat_and, Fin.val_ofNat]
  exact Nat.and_two_pow_sub_one_eq_mod _ 4

theorem opcodeOf_lt (word : BitVec 32) : opcodeOf word < 256 := by
  have bound := word.isLt
  rw [opcodeOf, BitVec.toNat_ushiftRight, Nat.shiftRight_eq_div_pow]
  omega

theorem group_eq : ∀ opcode < 256, (opcode &&& 0xf8 = 0x60 ↔ opcode / 8 = 12) ∧
    (opcode &&& 0xf8 = 0x70 ↔ opcode / 8 = 14) ∧ (opcode &&& 3 = 3 ↔ opcode % 4 = 3) := by
  decide +kernel

theorem effective_some (ready : state.Ready options) (word : BitVec 32) :
    effective options state word = some (accessAddress options (state.machine n) word) := by
  obtain ⟨register, immediate, device⟩ := group_eq _ (opcodeOf_lt word)
  simp only [effective, accessAddress, register, immediate, device, nibble_eq,
    ready.reg (n := n), Option.map_some]
  split
  · rfl
  · split
    · rfl
    · rfl

theorem dispatch_simulates (ready : state.Ready options) (word : BitVec 32) :
    Simulates options n state
      (dispatch options n state word (accessAddress options (state.machine n) word))
      (execute options (state.machine n) word) := by
  unfold dispatch execute
  simp only [nibble_eq, ready.reg (n := n)]
  generalize accessAddress options (state.machine n) word = address
  generalize opcodeOf word = opcode
  split
  · exact simulates_advance ready
  · exact simulates_put ready _ _
  · exact simulates_out ready _
  · exact simulates_keyboard ready _
  · exact simulates_screen ready _ _
  · exact simulates_timeLow ready _
  · exact simulates_put ready _ _
  · exact simulates_put ready _ _
  · exact simulates_out ready _
  · exact simulates_screen ready _ _
  iterate 10 exact simulates_alu ready _ _ _ _
  · exact simulates_compare ready _ _
  iterate 3 exact simulates_alu ready _ _ _ _
  iterate 10 exact simulates_aluImm ready _ _ _ _
  · exact simulates_compare ready _ _
  iterate 3 exact simulates_aluImm ready _ _ _ _
  · exact simulates_jump ready _
  · exact simulates_jump ready _
  iterate 10 exact simulates_jumpIf ready _ _
  iterate 2
    · exact simulates_load ready _ fun inside => rd8_some (ready.mem ▸ inside)
    · exact simulates_load ready _ fun inside => by rw [rd16_some (ready.mem ▸ inside)]; rfl
    · exact simulates_load ready _ fun inside => rd32_some (ready.mem ▸ inside)
    · exact simulates_load ready _ fun inside => rd32_some (ready.disk ▸ inside)
    · exact simulates_storeMem ready _ fun inside => store_byte _ (ready.mem ▸ inside)
    · exact simulates_storeMem ready _ fun inside => wr16_some _ (ready.mem ▸ inside)
    · exact simulates_storeMem ready _ fun inside => wr32_some _ (ready.mem ▸ inside)
    · exact simulates_storeDisk ready _ fun inside => wr32_some _ (ready.disk ▸ inside)
  · have failed : Simulates options n state (some (.fault 3 state)) (.fault 3 (state.machine n)) :=
      .fault (.inr rfl)
    grind only

theorem fetchAddress_eq (state : EmuState) : fetchAddress options state =
    if options.ramMask = BitVec.allOnes 32 then state.pc
    else state.pc % 2 ^ 32 &&& options.ramMask.toNat := by
  have small : (state.pc &&& options.ramMask.toNat) < 2 ^ 32 :=
    Nat.lt_of_le_of_lt Nat.and_le_right options.ramMask.isLt
  have masked := Nat.and_mod_two_pow (a := state.pc) (b := options.ramMask.toNat) (n := 32)
  rw [Nat.mod_eq_of_lt small, Nat.mod_eq_of_lt options.ramMask.isLt] at masked
  rw [fetchAddress, masked]

/-- The bound of the fetch does not wrap. -/
theorem fetch_exact (sound : state.Sound options) (fits : options.ramSize < 2 ^ 63) :
    (fetchAddress options state + 4) % 2 ^ 64 = fetchAddress options state + 4 := by
  apply Nat.mod_eq_of_lt
  rw [fetchAddress]
  split
  · rename_i full
    have := sound.pc full
    omega
  · have : (state.pc &&& options.ramMask.toNat) < 2 ^ 32 :=
      Nat.lt_of_le_of_lt Nat.and_le_right options.ramMask.isLt
    omega

/-- What one pass of the loop can do; every case is the one of the machine. -/
inductive PassDoes (options : EmuOptions) (n : Nat) (state : EmuState) : Prop
  | running (after : EmuState) (passed : pass options n state = some (.running after))
      (sound : after.Sound options)
      (stepped : step options (state.machine n) = .running (after.machine (n + 1)))
  | halted (passed : pass options n state = some (.halted state))
      (stepped : step options (state.machine n) = .halted (state.machine n))
  | cut (passed : pass options n state = some (.cut state))
      (stepped : step options (state.machine n) = .fault 2 (state.machine n))
  | fault (code : Nat) (known : code = 2 ∨ code = 3)
      (passed : pass options n state = some (.fault code state))
      (stepped : step options (state.machine n) = .fault code (state.machine n))

theorem does_simulated {result : StepResult}
    (stepped : step options (state.machine n) = match result with
      | .running after => .running { after with instruction := n + 1 }
      | stopped => stopped)
    (simulated : Simulates options n state (pass options n state) result) :
    PassDoes options n state := by
  generalize passed : pass options n state = action at simulated
  cases simulated with
  | running sound => exact .running _ passed sound stepped
  | halted => exact .halted passed stepped
  | fault known => exact .fault _ known passed stepped

theorem pass_does (sound : state.Sound options) (fits : options.ramSize < 2 ^ 63) (n : Nat) :
    PassDoes options n state := by
  have exact := fetch_exact sound fits
  by_cases inside : fetchAddress options state + 4 ≤ options.ramSize
  · have ready : state.Ready options := by
      refine ⟨sound, fun full => ?_⟩
      rw [fetchAddress, if_pos full] at inside
      exact inside
    have simulated := dispatch_simulates (n := n) ready
      (read32 (memoryOf state.mem) (fetchAddress options state))
    have passed : pass options n state = dispatch options n state
        (read32 (memoryOf state.mem) (fetchAddress options state))
        (accessAddress options (state.machine n)
          (read32 (memoryOf state.mem) (fetchAddress options state))) := by
      rw [pass, exact, if_neg (by omega), rd32_some (sound.mem ▸ inside)]
      simp only [bind, Option.bind_some, effective_some (n := n) ready]
    rw [← passed] at simulated
    refine does_simulated ?_ simulated
    rw [fetchAddress_eq] at inside ⊢
    rw [step]
    simp only [machine_pc, inside, ↓reduceIte]
    rfl
  · refine .cut ?_ ?_
    · rw [pass, exact, if_pos (by omega)]
    · rw [fetchAddress_eq] at inside
      exact if_neg inside

/-- The access the instruction asks for is not inside its array. -/
def Beyond (state : EmuState) (word : BitVec 32) (address : Nat) : Prop :=
  match opcodeOf word with
  | 0x04 | 0x14 => ∃ option, reg state (nibble word 16) = some option ∧
      state.settings.length ≤ option.toNat
  | 0x60 | 0x64 | 0x70 | 0x74 => state.mem.length < address + 1
  | 0x61 | 0x65 | 0x71 | 0x75 => state.mem.length < address + 2
  | 0x62 | 0x66 | 0x72 | 0x76 => state.mem.length < address + 4
  | 0x63 | 0x67 | 0x73 | 0x77 => state.disk.length < address + 4
  | _ => False

def EmuState.Outside (options : EmuOptions) (state : EmuState) : Prop :=
  state.mem.length < fetchAddress options state + 4 ∨
    ∃ word address, rd32 state.mem (fetchAddress options state) = some word ∧
      effective options state word = some address ∧ Beyond state word address

theorem screen_beyond {b : Nat} {value : Option (BitVec 32)} (sound : state.Sound options)
    (beyond : ∃ option, reg state b = some option ∧ state.settings.length ≤ option.toNat) :
    screen state b value = some (.fault 2 state) := by
  obtain ⟨option, found, large⟩ := beyond
  rw [sound.settings] at large
  simp only [screen, found, bind, Option.bind_some, if_pos large]
  rfl

theorem dispatch_beyond (sound : state.Sound options) {word : BitVec 32} {address : Nat}
    (beyond : Beyond state word address) :
    dispatch options n state word address = some (.fault 2 state) := by
  unfold Beyond at beyond
  rw [sound.mem, sound.disk] at beyond
  unfold dispatch
  generalize opcodeOf word = opcode at beyond ⊢
  split at beyond
  iterate 2 exact screen_beyond sound beyond
  iterate 16 exact if_pos beyond
  exact beyond.elim

theorem pass_outside (sound : state.Sound options) (fits : options.ramSize < 2 ^ 63)
    (outside : state.Outside options) :
    pass options n state = some (.fault 2 state) ∨ pass options n state = some (.cut state) := by
  have exact := fetch_exact sound fits
  by_cases inside : fetchAddress options state + 4 ≤ options.ramSize
  · left
    rcases outside with fetch | ⟨word, address, fetched, found, beyond⟩
    · have size := sound.mem
      omega
    · rw [pass, exact, if_neg (by omega), fetched]
      simp only [bind, Option.bind_some, found]
      exact dispatch_beyond sound beyond
  · right
    rw [pass, exact, if_pos (by omega)]

end

end SymphonyPlus.EmuRun
