import Mathlib.Data.List.Forall2
import SymphonyPlus.ByteBits
import SymphonyPlus.DispatchRuns
import SymphonyPlus.Results

/-! `sp_execve` is a transaction: it leaves the process as it was, or makes the image of the file with
the caller's strings on its stack. -/

namespace SymphonyPlus

open ByteMemory Function

def inWindow (address : Nat) : Prop :=
  SP_USER_BASE.toNat ≤ address ∧ address < SP_USER_BASE.toNat + SP_USER_SIZE.toNat

structure StringAt (window : Memory) (address : BitVec 32) (s : List (BitVec 8)) : Prop where
  plain : ∀ c ∈ s, c ≠ 0
  inside : ∀ index < s.length + 1, inWindow (address.toNat + index)
  bytes : ∀ index (bound : index < s.length), window (address.toNat + index) = s[index]
  terminated : window (address.toNat + s.length) = 0

structure VectorAt (window : Memory) (address : BitVec 32) (strings : List (List (BitVec 8))) :
    Prop where
  inside : ∀ index < 4 * (strings.length + 1), inWindow (address.toNat + index)
  present : ∀ index < strings.length, read32 window (address.toNat + 4 * index) ≠ 0
  pointed : ∀ index (bound : index < strings.length),
    StringAt window (read32 window (address.toNat + 4 * index)) strings[index]
  terminated : read32 window (address.toNat + 4 * strings.length) = 0

/-- The strings the caller gives; a null pointer stands for none. -/
def CallerVector (window : Memory) (address : BitVec 32) (strings : List (List (BitVec 8))) : Prop :=
  address = 0 ∧ strings = [] ∨ VectorAt window address strings

/-! Gathering the caller's strings. -/

theorem userRange_iff (address length : BitVec 32) :
    userRange address length = true ↔ SP_USER_BASE.toNat ≤ address.toNat ∧
      address.toNat + length.toNat ≤ SP_USER_BASE.toNat + SP_USER_SIZE.toNat := by
  have base : SP_USER_BASE.toNat = 0x200000 := rfl
  have size : SP_USER_SIZE.toNat = 0x200000 := rfl
  have top : (SP_USER_BASE + SP_USER_SIZE).toNat = 0x400000 := rfl
  have addressBound := address.isLt
  have lengthBound := length.isLt
  rw [userRange, Bool.and_eq_true, Bool.and_eq_true, BitVec.ule, BitVec.ule, BitVec.ule,
    decide_eq_true_eq, decide_eq_true_eq, decide_eq_true_eq, BitVec.toNat_sub, top, base, size]
  omega

theorem copyString_spec {window : Memory} (fuel : Nat) {address : BitVec 32} {bytes : List (BitVec 8)}
    (copied : copyString window fuel address = .ok bytes) :
    ∃ s, bytes = s ++ [0] ∧ StringAt window address s ∧ bytes.length ≤ fuel := by
  induction fuel generalizing address bytes with
  | zero => cases copied
  | succ fuel ih =>
      rw [copyString] at copied
      split at copied
      · cases copied
      · rename_i range
        have range : userRange address 1 = true := by simpa using range
        obtain ⟨low, high⟩ := (userRange_iff address 1).mp range
        have one : (1 : BitVec 32).toNat = 1 := rfl
        have top : SP_USER_BASE.toNat + SP_USER_SIZE.toNat = 0x400000 := rfl
        split at copied
        · rename_i ended
          obtain rfl := Except.ok.inj copied
          refine ⟨[], rfl, ⟨nofun, fun index bound => ⟨?_, ?_⟩, nofun, ended⟩, Nat.succ_pos fuel⟩
          · omega
          · simp only [List.length_nil] at bound
            omega
        · rename_i nonzero
          obtain ⟨rest, below, joined⟩ := Except.of_bind_ok copied
          obtain ⟨s, rfl, at', short⟩ := ih below
          obtain rfl := Except.ok.inj joined
          have next : (address + 1).toNat = address.toNat + 1 :=
            toNat_add_small (n := 1) (by omega)
          refine ⟨window address.toNat :: s, rfl, ⟨?_, ?_, ?_, ?_⟩, ?_⟩
          · intro c member
            rcases List.mem_cons.mp member with rfl | later
            · exact nonzero
            · exact at'.plain c later
          · intro index bound
            cases index with
            | zero => exact ⟨low, by omega⟩
            | succ index =>
                have inside := at'.inside index (Nat.lt_of_succ_lt_succ bound)
                rwa [next, Nat.add_right_comm] at inside
          · intro index bound
            cases index with
            | zero => rfl
            | succ index =>
                have byte := at'.bytes index (Nat.lt_of_succ_lt_succ bound)
                rwa [next, Nat.add_right_comm] at byte
          · have ended := at'.terminated
            rwa [next, Nat.add_right_comm] at ended
          · simpa using short

/-- Each string lies in the staged bytes at its offset, with its terminator. -/
def Packed (all : List (BitVec 8)) : List Nat → List (List (BitVec 8)) → Prop :=
  List.Forall₂ fun offset s => (∀ c ∈ s, c ≠ 0) ∧
    ∃ before after, all = before ++ (s ++ [0]) ++ after ∧ offset = before.length

theorem Packed.append {all : List (BitVec 8)} {offsets : List Nat} {strings : List (List (BitVec 8))}
    (packed : Packed all offsets strings) (more : List (BitVec 8)) :
    Packed (all ++ more) offsets strings :=
  packed.imp fun _ _ ⟨plain, before, after, whole, place⟩ =>
    ⟨plain, before, after ++ more, by rw [whole, List.append_assoc], place⟩

structure EntriesAt (window : Memory) (list : BitVec 32) (remaining : Nat)
    (strings : List (List (BitVec 8))) : Prop where
  inside : ∀ index < 4 * (strings.length + 1), inWindow (list.toNat + 4 * (32 - remaining) + index)
  present : ∀ index < strings.length,
    read32 window (list.toNat + 4 * (32 - remaining + index)) ≠ 0
  pointed : ∀ index (bound : index < strings.length),
    StringAt window (read32 window (list.toNat + 4 * (32 - remaining + index))) strings[index]
  terminated : read32 window (list.toNat + 4 * (32 - remaining + strings.length)) = 0

theorem EntriesAt.cons {window : Memory} {list : BitVec 32} {remaining : Nat} (few : remaining < 32)
    {s : List (BitVec 8)} {rest : List (List (BitVec 8))}
    (inside : ∀ index < 4, inWindow (list.toNat + 4 * (31 - remaining) + index))
    (present : read32 window (list.toNat + 4 * (31 - remaining)) ≠ 0)
    (here : StringAt window (read32 window (list.toNat + 4 * (31 - remaining))) s)
    (later : EntriesAt window list remaining rest) :
    EntriesAt window list (remaining + 1) (s :: rest) := by
  have first : 32 - (remaining + 1) = 31 - remaining := by omega
  have next : ∀ index, 32 - (remaining + 1) + (index + 1) = 32 - remaining + index := by omega
  refine ⟨fun index bound => ?_, fun index bound => ?_, fun index bound => ?_, ?_⟩
  · by_cases early : index < 4
    · rw [first]
      exact inside index early
    · have below := later.inside (index - 4) (by simp only [List.length_cons] at bound; omega)
      rwa [show list.toNat + 4 * (32 - remaining) + (index - 4) =
        list.toNat + 4 * (32 - (remaining + 1)) + index by omega] at below
  · cases index with
    | zero => rwa [first, Nat.add_zero]
    | succ index =>
        rw [next]
        exact later.present index (Nat.lt_of_succ_lt_succ bound)
  · cases index with
    | zero => rwa [first, Nat.add_zero]
    | succ index =>
        simp only [next]
        exact later.pointed index (Nat.lt_of_succ_lt_succ bound)
  · rw [List.length_cons, next]
    exact later.terminated

theorem entry_place {list : BitVec 32} {remaining : Nat} (few : remaining ≤ 32)
    (start : remaining < 32 → list.toNat < 0x400000)
    (range : userRange (list + BitVec.ofNat 32 (4 * (32 - remaining))) 4 = true) :
    (list + BitVec.ofNat 32 (4 * (32 - remaining))).toNat = list.toNat + 4 * (32 - remaining) ∧
      list.toNat < 0x400000 ∧
      ∀ index < 4, inWindow (list.toNat + 4 * (32 - remaining) + index) := by
  have top : SP_USER_BASE.toNat + SP_USER_SIZE.toNat = 0x400000 := rfl
  have four : (4 : BitVec 32).toNat = 4 := rfl
  obtain ⟨low, high⟩ := (userRange_iff _ _).mp range
  have place : (list + BitVec.ofNat 32 (4 * (32 - remaining))).toNat =
      list.toNat + 4 * (32 - remaining) := by
    by_cases whole : remaining = 32
    · rw [whole]
      exact toNat_add_small (by have := list.isLt; omega)
    · exact toNat_add_small (by have := start (by omega); omega)
  rw [place] at low high
  exact ⟨place, by omega, fun index bound => ⟨by omega, by omega⟩⟩

theorem copyEntries_spec {window : Memory} {list : BitVec 32} (remaining : Nat) (few : remaining ≤ 32)
    (start : remaining < 32 → list.toNat < 0x400000)
    {strings all : List (BitVec 8)} {offsets : List Nat} (small : strings.length ≤ 8192)
    (copied : copyEntries window list remaining strings = .ok (offsets, all)) :
    ∃ given, EntriesAt window list remaining given ∧ given.length ≤ remaining ∧
      Packed all offsets given ∧ (∃ more, all = strings ++ more) ∧ all.length ≤ 8192 := by
  induction remaining generalizing strings offsets with
  | zero =>
      simp only [copyEntries] at copied
      split at copied
      · cases copied
      · rename_i range
        obtain ⟨place, low, inside⟩ := entry_place few start (by simpa using range)
        rw [place] at copied
        split at copied
        · rename_i ended
          obtain ⟨rfl, rfl⟩ := Prod.mk.inj (Except.ok.inj copied)
          exact ⟨[], ⟨inside, nofun, nofun, ended⟩, Nat.le_refl _, .nil,
            ⟨[], (List.append_nil _).symm⟩, small⟩
        · cases copied
  | succ remaining ih =>
      rw [copyEntries] at copied
      simp only at copied
      split at copied
      · cases copied
      · rename_i range
        obtain ⟨place, low, inside⟩ := entry_place few start (by simpa using range)
        rw [place] at copied
        split at copied
        · rename_i ended
          obtain ⟨rfl, rfl⟩ := Prod.mk.inj (Except.ok.inj copied)
          exact ⟨[], ⟨inside, nofun, nofun, ended⟩, Nat.zero_le _, .nil,
            ⟨[], (List.append_nil _).symm⟩, small⟩
        · rename_i present
          obtain ⟨bytes, string, copied⟩ := Except.of_bind_ok copied
          obtain ⟨⟨offsets', all'⟩, rest, joined⟩ := Except.of_bind_ok copied
          obtain ⟨rfl, rfl⟩ := Prod.mk.inj (Except.ok.inj joined)
          obtain ⟨s, rfl, here, short⟩ := copyString_spec _ string
          obtain ⟨given, later, few', packed, ⟨more, rfl⟩, bound⟩ :=
            ih (by omega) (fun _ => low) (by simp at short ⊢; omega) rest
          have first : 32 - (remaining + 1) = 31 - remaining := by omega
          rw [first] at inside present here
          refine ⟨s :: given, .cons (by omega) inside present here later, Nat.succ_le_succ few',
            .cons ⟨here.plain, strings, more, by simp, rfl⟩ packed, ⟨s ++ [0] ++ more, by simp⟩, bound⟩

theorem copyVector_spec {window : Memory} {list : BitVec 32} {strings all : List (BitVec 8)}
    {offsets : List Nat} (small : strings.length ≤ 8192)
    (copied : copyVector window list strings = .ok (offsets, all)) :
    ∃ given, CallerVector window list given ∧ given.length ≤ 32 ∧ Packed all offsets given ∧
      (∃ more, all = strings ++ more) ∧ all.length ≤ 8192 := by
  rw [copyVector] at copied
  split at copied
  · rename_i null
    obtain ⟨rfl, rfl⟩ := Prod.mk.inj (Except.ok.inj copied)
    exact ⟨[], .inl ⟨null, rfl⟩, Nat.zero_le _, .nil, ⟨[], (List.append_nil _).symm⟩, small⟩
  · obtain ⟨given, entries, few, packed, more, bound⟩ :=
      copyEntries_spec 32 (Nat.le_refl _) (fun less => absurd less (Nat.lt_irrefl _)) small copied
    refine ⟨given, .inr ⟨?_, ?_, ?_, ?_⟩, few, packed, more, bound⟩
    · simpa using entries.inside
    · simpa using entries.present
    · simpa using entries.pointed
    · simpa using entries.terminated

/-! The new image. -/

theorem toNat_aligned (x : BitVec 32) : (x &&& (~~~3 : BitVec 32)).toNat = x.toNat / 4 * 4 := by
  have mask : ∀ i : Fin 32, (~~~3 : BitVec 32)[i.val] = decide (2 ≤ i.val) := by decide
  have shifted : x &&& (~~~3 : BitVec 32) = x >>> 2 <<< 2 := by
    ext i bound
    have bit := mask ⟨i, bound⟩
    rw [BitVec.getElem_and, bit]
    by_cases low : i < 2
    · simp [low]
    · simp [low, show 2 ≤ i by omega, show 2 + (i - 2) = i by omega, BitVec.getLsbD_eq_getElem bound]
  have bound := x.isLt
  rw [shifted, BitVec.toNat_shiftLeft, BitVec.toNat_ushiftRight, Nat.shiftRight_eq_div_pow,
    Nat.shiftLeft_eq]
  omega

/-- Pointers to packed strings, ended by a null pointer, make a vector. -/
theorem vectorAt_of_packed {window : Memory} {n address : BitVec 32} {all : List (BitVec 8)}
    {offsets : List Nat} {strings : List (List (BitVec 8))} (packed : Packed all offsets strings)
    (low : SP_USER_BASE.toNat ≤ n.toNat) (high : n.toNat + all.length ≤ 0x400000)
    (bytes : ∀ i (bound : i < all.length), window (n.toNat + i) = all[i])
    (tableLow : SP_USER_BASE.toNat ≤ address.toNat)
    (tableHigh : address.toNat + 4 * (offsets.length + 1) ≤ 0x400000)
    (table : ∀ i (bound : i < (offsets.map (n + BitVec.ofNat 32 ·) ++ [0]).length),
      read32 window (address.toNat + 4 * i) = (offsets.map (n + BitVec.ofNat 32 ·) ++ [0])[i]) :
    VectorAt window address strings := by
  have top : SP_USER_BASE.toNat + SP_USER_SIZE.toNat = 0x400000 := rfl
  have base : SP_USER_BASE.toNat = 0x200000 := rfl
  have count : offsets.length = strings.length := packed.length_eq
  have string : ∀ i (bound : i < strings.length),
      (read32 window (address.toNat + 4 * i)).toNat ≠ 0 ∧
      StringAt window (read32 window (address.toNat + 4 * i)) strings[i] := by
    intro i bound
    obtain ⟨plain, before, after, whole, place⟩ :=
      (List.forall₂_iff_get.mp packed).2 i (count ▸ bound) bound
    simp only [List.get_eq_getElem] at plain whole place
    have length : all.length = before.length + (strings[i].length + 1 + after.length) := by
      rw [whole]
      simp only [List.length_append, List.length_cons, List.length_nil]
      omega
    have pointer : read32 window (address.toNat + 4 * i) = n + BitVec.ofNat 32 before.length := by
      rw [table i (by simp; omega), List.getElem_append_left (by simpa [count] using bound),
        List.getElem_map, place]
    have address' : (n + BitVec.ofNat 32 before.length).toNat = n.toNat + before.length :=
      toNat_add_small (by omega)
    have byte : ∀ j (inside : j < (strings[i] ++ [0]).length),
        window (n.toNat + before.length + j) = (strings[i] ++ [0])[j] := by
      intro j inside
      rw [Nat.add_assoc, bytes _ (by simp at inside; omega)]
      simp only [whole]
      rw [List.getElem_append_left (by simp at inside ⊢; omega),
        List.getElem_append_right (by omega)]
      simp
    rw [pointer]
    refine ⟨by rw [address']; omega, plain, fun j inside => ?_, fun j inside => ?_, ?_⟩
    · rw [address']
      exact ⟨by omega, by omega⟩
    · rw [address', byte j (by simp; omega), List.getElem_append_left inside]
    · rw [address', byte _ (by simp)]
      simp
  refine ⟨fun i bound => ⟨by omega, by omega⟩, fun i bound absent => (string i bound).1 ?_,
    fun i bound => (string i bound).2, ?_⟩
  · rw [absent]
    rfl
  · rw [← count, table offsets.length (by simp), List.getElem_append_right (by simp)]
    simp

def zeroWindow (memory : Memory) : Memory := fun address =>
  if SP_USER_BASE.toNat ≤ address ∧ address < SP_USER_BASE.toNat + SP_USER_SIZE.toNat then 0
  else memory address

/-- What the commit does to the whole memory; `buildWindow` is its part in the window. -/
def commitWindow (memory stage : Memory) (loaded : BitVec 32) (argv envp : List Nat)
    (strings : List (BitVec 8)) : Memory × BitVec 32 :=
  let window := writeBytes (zeroWindow memory) SP_USER_BASE.toNat (windowBytes stage 0 loaded)
  let n := SP_USER_BASE + SP_USER_SIZE - BitVec.ofNat 32 strings.length
  let window := writeBytes window n.toNat strings
  let envpAddr := (n &&& ~~~3) - BitVec.ofNat 32 (4 * (envp.length + 1))
  let window := writeVector window envpAddr n envp
  let argvAddr := envpAddr - BitVec.ofNat 32 (4 * (argv.length + 1))
  let window := writeVector window argvAddr n argv
  let sp := argvAddr - 12
  (writeBytes window sp.toNat
    ([BitVec.ofNat 32 argv.length, argvAddr, envpAddr].flatMap wordBytes), sp)

theorem buildWindow_eq (stage : Memory) (loaded : BitVec 32) (argv envp : List Nat)
    (strings : List (BitVec 8)) :
    buildWindow stage loaded argv envp strings =
      commitWindow (fun _ => 0) stage loaded argv envp strings := by
  have blank : zeroWindow (fun _ => 0) = fun _ => 0 := by
    funext address
    simp [zeroWindow]
  rw [commitWindow, blank]
  rfl

structure Committed (memory stage : Memory) (loaded : Nat) (argv envp : List (List (BitVec 8)))
    (window : Memory) (sp : BitVec 32) : Prop where
  payload : ∀ i < loaded, window (SP_USER_BASE.toNat + i) = stage i
  cleared : ∀ address, SP_USER_BASE.toNat + loaded ≤ address → address < sp.toNat → window address = 0
  argc : read32 window sp.toNat = BitVec.ofNat 32 argv.length
  argv : VectorAt window (read32 window (sp.toNat + 4)) argv
  envp : VectorAt window (read32 window (sp.toNat + 8)) envp
  aligned : sp.toNat % 4 = 0
  high : 0x400000 - 8471 ≤ sp.toNat ∧ sp.toNat + 12 ≤ 0x400000
  outside : ∀ address, ¬ inWindow address → window address = memory address

theorem commitWindow_spec (memory stage : Memory) {loaded : BitVec 32}
    (room : loaded.toNat + 16384 ≤ SP_USER_SIZE.toNat) {all : List (BitVec 8)}
    {argvOffsets envpOffsets : List Nat} {argv envp : List (List (BitVec 8))}
    (small : all.length ≤ 8192) (argvFew : argv.length ≤ 32) (envpFew : envp.length ≤ 32)
    (argvPacked : Packed all argvOffsets argv) (envpPacked : Packed all envpOffsets envp) :
    Committed memory stage loaded.toNat argv envp
      (commitWindow memory stage loaded argvOffsets envpOffsets all).1
      (commitWindow memory stage loaded argvOffsets envpOffsets all).2 := by
  have size : SP_USER_SIZE.toNat = 0x200000 := rfl
  have base : SP_USER_BASE.toNat = 0x200000 := rfl
  have argvCount : argvOffsets.length = argv.length := argvPacked.length_eq
  have envpCount : envpOffsets.length = envp.length := envpPacked.length_eq
  simp only [commitWindow, writeVector]
  generalize nEq : SP_USER_BASE + SP_USER_SIZE - BitVec.ofNat 32 all.length = n
  have nPlace : n.toNat = 0x400000 - all.length := by
    have top : (SP_USER_BASE + SP_USER_SIZE).toNat = 0x400000 := rfl
    rw [← nEq, toNat_sub_small (by omega), top]
  generalize eEq : (n &&& ~~~3) - BitVec.ofNat 32 (4 * (envpOffsets.length + 1)) = e
  have ePlace : e.toNat = n.toNat / 4 * 4 - 4 * (envp.length + 1) := by
    rw [← eEq, toNat_sub_small (by rw [toNat_aligned]; omega), toNat_aligned, envpCount]
  generalize gEq : e - BitVec.ofNat 32 (4 * (argvOffsets.length + 1)) = g
  have gPlace : g.toNat = e.toNat - 4 * (argv.length + 1) := by
    rw [← gEq, toNat_sub_small (by omega), argvCount]
  generalize spEq : g - 12 = sp
  have spPlace : sp.toNat = g.toNat - 12 := by
    rw [← spEq]
    exact toNat_sub_small (n := 12) (by omega)
  generalize imageEq : windowBytes stage 0 loaded = image
  have imageLength : image.length = loaded.toNat := by simp [← imageEq, windowBytes]
  generalize envpEq : envpOffsets.map (fun offset => n + BitVec.ofNat 32 offset) ++ [0] = envpWords
  have envpLength : envpWords.length = envp.length + 1 := by simp [← envpEq, envpCount]
  generalize argvEq : argvOffsets.map (fun offset => n + BitVec.ofNat 32 offset) ++ [0] = argvWords
  have argvLength : argvWords.length = argv.length + 1 := by simp [← argvEq, argvCount]
  generalize topEq : [BitVec.ofNat 32 argvOffsets.length, g, e] = topWords
  have topLength : topWords.length = 3 := by simp [← topEq]
  have topBytes := flatMap_wordBytes_length topWords
  have argvBytes := flatMap_wordBytes_length argvWords
  have envpBytes := flatMap_wordBytes_length envpWords
  generalize windowEq : writeBytes (writeBytes (writeBytes (writeBytes (writeBytes
    (zeroWindow memory) SP_USER_BASE.toNat image) n.toNat all) e.toNat (envpWords.flatMap wordBytes))
    g.toNat (argvWords.flatMap wordBytes)) sp.toNat (topWords.flatMap wordBytes) = window
  have stacked : ∀ i (bound : i < topWords.length),
      read32 window (sp.toNat + 4 * i) = topWords[i] := by
    intro i bound
    rw [← windowEq, read32_writeWords _ _ _ _ bound]
  have argvTable : ∀ i (bound : i < argvWords.length),
      read32 window (g.toNat + 4 * i) = argvWords[i] := by
    intro i bound
    rw [← windowEq, read32_writeBytes_outside _ _ _ _ (by omega), read32_writeWords _ _ _ _ bound]
  have envpTable : ∀ i (bound : i < envpWords.length),
      read32 window (e.toNat + 4 * i) = envpWords[i] := by
    intro i bound
    rw [← windowEq, read32_writeBytes_outside _ _ _ _ (by omega),
      read32_writeBytes_outside _ _ _ _ (by omega), read32_writeWords _ _ _ _ bound]
  have bytes : ∀ i (bound : i < all.length), window (n.toNat + i) = all[i] := by
    intro i bound
    rw [← windowEq, writeBytes_outside _ _ _ _ (by omega), writeBytes_outside _ _ _ _ (by omega),
      writeBytes_outside _ _ _ _ (by omega), writeBytes_inside _ _ _ _ bound]
  have under : ∀ address, address < sp.toNat →
      window address = writeBytes (zeroWindow memory) SP_USER_BASE.toNat image address := by
    intro address below
    rw [← windowEq, writeBytes_outside _ _ _ _ (by omega), writeBytes_outside _ _ _ _ (by omega),
      writeBytes_outside _ _ _ _ (by omega), writeBytes_outside _ _ _ _ (by omega)]
  have g' : read32 window (sp.toNat + 4) = g := by
    have word := stacked 1 (by omega)
    simpa [← topEq] using word
  have count : read32 window sp.toNat = BitVec.ofNat 32 argv.length := by
    have word := stacked 0 (by omega)
    rw [Nat.mul_zero, Nat.add_zero] at word
    rw [word, ← argvCount]
    simp only [← topEq, List.getElem_cons_zero]
  have e' : read32 window (sp.toNat + 8) = e := by
    have word := stacked 2 (by omega)
    simpa [← topEq] using word
  refine ⟨fun i bound => ?_, fun address low below => ?_, count, ?_, ?_, by omega, by omega,
    fun address outside => ?_⟩
  · rw [under _ (by omega), writeBytes_inside _ _ _ _ (by omega)]
    simp [← imageEq, windowBytes]
  · rw [under _ below, writeBytes_outside _ _ _ _ (by omega), zeroWindow, if_pos (by omega)]
  · rw [g']
    refine vectorAt_of_packed argvPacked (by omega) (by omega) bytes (by omega) (by omega) ?_
    rw [argvEq]
    exact argvTable
  · rw [e']
    refine vectorAt_of_packed envpPacked (by omega) (by omega) bytes (by omega) (by omega) ?_
    rw [envpEq]
    exact envpTable
  · simp only [inWindow] at outside
    rw [← windowEq, writeBytes_outside _ _ _ _ (by omega), writeBytes_outside _ _ _ _ (by omega),
      writeBytes_outside _ _ _ _ (by omega), writeBytes_outside _ _ _ _ (by omega),
      writeBytes_outside _ _ _ _ (by omega), zeroWindow, if_neg (by omega)]

/-! Files and descriptors. -/

/-- Only open descriptors are marked to be closed; `sys_open` and `sys_close` clear the mark. -/
def FlagsOpen (files : Files) : Prop :=
  ∀ fd < NR_OPEN, files.filp fd = none → files.closeOnExec.getLsbD fd = false

def clearFlag (files : Files) (fd : Nat) : Files :=
  { files with closeOnExec := files.closeOnExec &&& ~~~((1 : BitVec 32) <<< fd) }

/-- `sys_open` and `sys_read` with regular files, whose unread bytes are `unread`. A read may be short
or fail at any time; only at the end of the file it returns nothing. -/
structure FileLaws {S : Type} (fileSystem : FileSystem S) (unread : S → Nat → List (BitVec 8)) :
    Prop where
  opened : ∀ fs files path flags mode,
    (fileSystem.sysOpen fs files path flags mode).result.slt 0 = false →
    ∃ file, (fileSystem.sysOpen fs files path flags mode).result.toNat < NR_OPEN ∧
      files.filp (fileSystem.sysOpen fs files path flags mode).result.toNat = none ∧
      (fileSystem.sysOpen fs files path flags mode).files =
        { clearFlag files (fileSystem.sysOpen fs files path flags mode).result.toNat with
          filp := update files.filp (fileSystem.sysOpen fs files path flags mode).result.toNat
            (some file) }
  refused : ∀ fs files path flags mode,
    (fileSystem.sysOpen fs files path flags mode).result.slt 0 = true →
    (fileSystem.sysOpen fs files path flags mode).files = files ∨
      ∃ fd < NR_OPEN, files.filp fd = none ∧
        (fileSystem.sysOpen fs files path flags mode).files = clearFlag files fd
  kept : ∀ fs files fd count, (fileSystem.read fs files fd count).files = files
  read : ∀ fs files fd count file, fd.toNat < NR_OPEN → files.filp fd.toNat = some file →
    isRegular (fileSystem.mode fs file) = true →
    isRegular (fileSystem.mode (fileSystem.read fs files fd count).fs file) = true ∧
    ((fileSystem.read fs files fd count).result.slt 0 = false →
      (fileSystem.read fs files fd count).data.length =
        (fileSystem.read fs files fd count).result.toNat ∧
      unread fs file = (fileSystem.read fs files fd count).data ++
        unread (fileSystem.read fs files fd count).fs file ∧
      ((fileSystem.read fs files fd count).result = 0 → 0 < count → unread fs file = []))

theorem clearFlag_bit (files : Files) {fd : Nat} (bound : fd < NR_OPEN) (i : Nat) :
    (clearFlag files fd).closeOnExec.getLsbD i =
      (decide (i ≠ fd) && files.closeOnExec.getLsbD i) := by
  rw [clearFlag, BitVec.getLsbD_and, BitVec.getLsbD_not,
    ByteBits.one_shift_bit (Nat.lt_trans bound (by decide))]
  by_cases small : i < 32
  · simp [small, Bool.and_comm]
  · simp [BitVec.getLsbD_of_ge _ i (Nat.le_of_not_lt small)]

theorem clearFlag_eq {files : Files} (flags : FlagsOpen files) {fd : Nat} (bound : fd < NR_OPEN)
    (closed : files.filp fd = none) : clearFlag files fd = files := by
  have same : (clearFlag files fd).closeOnExec = files.closeOnExec := by
    refine BitVec.eq_of_getLsbD_eq fun i _ => ?_
    rw [clearFlag_bit files bound]
    by_cases here : i = fd
    · simp [here, flags fd bound closed]
    · simp [here]
  change { files with closeOnExec := (clearFlag files fd).closeOnExec } = files
  rw [same]

theorem sysClose_files {S : Type} (fileSystem : FileSystem S) (fs : S) (files : Files)
    {fd : BitVec 32} (bound : fd.toNat < NR_OPEN) : (sysClose fileSystem fs files fd).files =
      { clearFlag files fd.toNat with filp := update files.filp fd.toNat none } := by
  rw [sysClose, if_neg (Nat.not_le.mpr bound)]
  cases closed : files.filp fd.toNat with
  | none =>
      have same : update files.filp fd.toNat none = files.filp := by rw [← closed, update_eq_self]
      simp only [same, clearFlag]
  | some file => rfl

/-- Closing the descriptor that was opened gives back the file fields. -/
theorem sysClose_opened {S : Type} (fileSystem : FileSystem S) (fs : S) {files : Files}
    (flags : FlagsOpen files) {fd : BitVec 32} (bound : fd.toNat < NR_OPEN)
    (closed : files.filp fd.toNat = none) (file : Nat) :
    (sysClose fileSystem fs { files with filp := update files.filp fd.toNat (some file) } fd).files =
      files := by
  have same := clearFlag_eq flags bound closed
  have filp : update files.filp fd.toNat none = files.filp := by rw [← closed, update_eq_self]
  rw [sysClose_files fileSystem fs _ bound]
  simp only [update_idem, filp]
  exact same

/-- The rest of an image from `n` on, as the read loop leaves it: if it is complete, it is what was
unread of the file. -/
structure Loads {S : Type} (fileSystem : FileSystem S) (unread : S → Nat → List (BitVec 8))
    (file : Nat) (n loaded : Nat) (before : S) (files : Files) (stage : Memory)
    (result : Bool × S × Files × Memory) : Prop where
  files : result.2.2.1 = files
  regular : result.1 = true → isRegular (fileSystem.mode result.2.1 file) = true
  kept : result.1 = true → ∀ address < n, result.2.2.2 address = stage address
  payload : result.1 = true → ∃ payload, n + payload.length = loaded ∧
    unread before file = payload ++ unread result.2.1 file ∧
    ∀ i (inside : i < payload.length), result.2.2.2 (n + i) = payload[i]

section
variable {S : Type} {fileSystem : FileSystem S} {unread : S → Nat → List (BitVec 8)}

theorem Loads.done {fs : S} {file n : Nat} {files : Files} (stage : Memory)
    (regular : isRegular (fileSystem.mode fs file) = true) :
    Loads fileSystem unread file n n fs files stage (true, fs, files, stage) :=
  ⟨rfl, fun _ => regular, fun _ _ _ => rfl, fun _ => ⟨[], rfl, rfl, nofun⟩⟩

theorem loadImage_spec (laws : FileLaws fileSystem unread) {fd loaded : BitVec 32} {files : Files}
    {file : Nat} (bound : fd.toNat < NR_OPEN) (isOpen : files.filp fd.toNat = some file)
    (fuel : Nat) {n : BitVec 32} {fs : S} (stage : Memory) (enough : loaded.toNat ≤ n.toNat + fuel)
    (order : n.toNat ≤ loaded.toNat) (regular : isRegular (fileSystem.mode fs file) = true) :
    Loads fileSystem unread file n.toNat loaded.toNat fs files stage
      (loadImage fileSystem fd loaded fuel n fs files stage) := by
  induction fuel generalizing n fs stage with
  | zero =>
      rw [show loaded.toNat = n.toNat by omega]
      exact .done stage regular
  | succ fuel ih =>
      rw [loadImage]
      by_cases more : n.ult loaded = true
      · simp only [if_pos more]
        rw [BitVec.ult, decide_eq_true_eq] at more
        have count : (loaded - n).toNat = loaded.toNat - n.toNat :=
          BitVec.toNat_sub_of_le (BitVec.le_def.mpr order)
        have kept := laws.kept fs files fd (loaded - n).toNat
        obtain ⟨regular', reads⟩ :=
          laws.read fs files fd (loaded - n).toNat file bound isOpen regular
        have few := (fileSystem.read fs files fd (loaded - n).toNat).bounded
        generalize fileSystem.read fs files fd (loaded - n).toNat = got at *
        by_cases failed : got.result.sle 0 = true
        · rw [if_pos failed]
          exact ⟨kept, nofun, nofun, nofun⟩
        · rw [if_neg failed, kept]
          have zero : (0 : BitVec 32).toInt = 0 := rfl
          rw [BitVec.sle_eq_decide, decide_eq_true_eq, zero] at failed
          have nonnegative : got.result.slt 0 = false := by
            rw [BitVec.slt_eq_decide, decide_eq_false_iff_not, zero]
            omega
          obtain ⟨length, split, -⟩ := reads nonnegative
          have some : 0 < got.result.toNat := by
            refine Nat.pos_of_ne_zero fun none => failed (Int.le_of_eq ?_)
            rw [BitVec.eq_of_toNat_eq (y := 0) none, zero]
          have next : (n + got.result).toNat = n.toNat + got.result.toNat := by
            rw [BitVec.toNat_add]
            exact Nat.mod_eq_of_lt (by have := loaded.isLt; omega)
          have rest := ih (n := n + got.result) (writeBytes stage n.toNat got.data)
            (by omega) (by omega) regular'
          rw [next] at rest
          refine ⟨rest.files, rest.regular, fun done address below => ?_, fun done => ?_⟩
          · rw [rest.kept done address (by omega), writeBytes_outside _ _ _ _ (.inl below)]
          · obtain ⟨payload, total, tail, bytes⟩ := rest.payload done
            refine ⟨got.data ++ payload, by rw [List.length_append]; omega, ?_, fun i inside => ?_⟩
            · rw [split, tail, List.append_assoc]
            · by_cases early : i < got.data.length
              · rw [rest.kept done _ (by omega), writeBytes_inside _ _ _ _ early,
                  List.getElem_append_left early]
              · rw [List.length_append] at inside
                have byte := bytes (i - got.data.length) (by omega)
                rw [show n.toNat + got.result.toNat + (i - got.data.length) = n.toNat + i by omega]
                  at byte
                rw [byte, List.getElem_append_right (by omega)]
      · rw [if_neg more]
        rw [BitVec.ult, decide_eq_true_eq] at more
        rw [show loaded.toNat = n.toNat by omega]
        exact .done stage regular

/-! The header. -/

def fileWord (content : List (BitVec 8)) (offset : Nat) : BitVec 32 :=
  read32 (fun address => content.getD address 0) offset

theorem get32_header {content data : List (BitVec 8)} (header : ∃ rest, content = data ++ rest)
    (length : data.length = 28) {offset : Nat} (bound : offset + 4 ≤ 28) :
    get32 (writeBytes (fun _ => 0) 0 data) offset = fileWord content offset := by
  obtain ⟨rest, rfl⟩ := header
  refine read32_congr fun address inside => ?_
  have early : address < data.length := by omega
  have byte := writeBytes_inside (fun _ => 0) 0 address data early
  rw [Nat.zero_add] at byte
  rw [byte]
  simp [List.getElem?_append_left early, early]

structure GoodHeader (content : List (BitVec 8)) : Prop where
  magic : fileWord content 0 = 0x53505831
  version : fileWord content 4 = 1
  reserved : fileWord content 24 = 0
  entry : (fileWord content 8).toNat < (fileWord content 12).toNat
  aligned : (fileWord content 8).toNat % 4 = 0
  stack : 16384 ≤ (fileWord content 20).toNat
  sizes : (fileWord content 12).toNat + (fileWord content 16).toNat + (fileWord content 20).toNat ≤
    SP_USER_SIZE.toNat
  rounded : ((fileWord content 12).toNat + (fileWord content 16).toNat + 3) / 4 * 4 +
    (fileWord content 20).toNat ≤ SP_USER_SIZE.toNat
  roundUp : (roundUp (fileWord content 12 + fileWord content 16)).toNat =
    ((fileWord content 12).toNat + (fileWord content 16).toNat + 3) / 4 * 4

theorem roundUp_toNat {x : BitVec 32} (small : x.toNat + 3 < 2 ^ 32) :
    (roundUp x).toNat = (x.toNat + 3) / 4 * 4 := by
  rw [roundUp, toNat_aligned]
  congr 2
  exact toNat_add_small (n := 3) small

theorem GoodHeader.of_valid {content data : List (BitVec 8)}
    (header : ∃ rest, content = data ++ rest) (length : data.length = 28)
    (valid : validHeader (writeBytes (fun _ => 0) 0 data) = true) : GoodHeader content := by
  have word : ∀ offset, offset + 4 ≤ 28 →
      get32 (writeBytes (fun _ => 0) 0 data) offset = fileWord content offset :=
    fun offset bound => get32_header header length bound
  rw [validHeader, word 0 (by omega), word 4 (by omega), word 8 (by omega), word 12 (by omega),
    word 16 (by omega), word 20 (by omega), word 24 (by omega)] at valid
  have size : SP_USER_SIZE.toNat = 0x200000 := rfl
  simp only [Bool.and_eq_true, decide_eq_true_eq, BitVec.ult, BitVec.ule, Bool.not_eq_true',
    decide_eq_false_iff_not] at valid
  obtain ⟨⟨⟨⟨⟨⟨⟨⟨⟨⟨magic, version⟩, reserved⟩, -⟩, entry⟩, aligned⟩, stack⟩, low⟩, room⟩, bss⟩,
    rounded⟩ := valid
  have stack' : 16384 ≤ (fileWord content 20).toNat := Nat.le_of_not_lt stack
  have left : (SP_USER_SIZE - fileWord content 20).toNat =
      SP_USER_SIZE.toNat - (fileWord content 20).toNat :=
    BitVec.toNat_sub_of_le (BitVec.le_def.mpr low)
  have left' : (SP_USER_SIZE - fileWord content 20 - fileWord content 12).toNat =
      SP_USER_SIZE.toNat - (fileWord content 20).toNat - (fileWord content 12).toNat := by
    rw [BitVec.toNat_sub_of_le (BitVec.le_def.mpr room), left]
  have sum : (fileWord content 12 + fileWord content 16).toNat =
      (fileWord content 12).toNat + (fileWord content 16).toNat := by
    rw [BitVec.toNat_add]
    exact Nat.mod_eq_of_lt (by omega)
  have up := roundUp_toNat (x := fileWord content 12 + fileWord content 16) (by omega)
  rw [sum] at up
  refine ⟨magic, version, reserved, entry, ?_, stack', by omega, by omega, up⟩
  have bits := congrArg BitVec.toNat aligned
  rw [BitVec.toNat_and] at bits
  have mask : (fileWord content 8).toNat &&& 3 = (fileWord content 8).toNat % 4 :=
    Nat.and_two_pow_sub_one_eq_mod _ 2
  rw [← mask]
  exact bits

/-! The marked descriptors are closed. -/

def closeMarked (fileSystem : FileSystem S) (state : S × Files) (i : Nat) : S × Files :=
  if state.2.closeOnExec &&& ((1 : BitVec 32) <<< i) ≠ 0 then
    let closed := sysClose fileSystem state.1 state.2 (BitVec.ofNat 32 i)
    (closed.fs, closed.files)
  else state

theorem closeMarked_spec (fileSystem : FileSystem S) (fs : S) (files : Files) (count : Nat) (bound : count ≤ NR_OPEN) :
    (∀ fd, ((List.range count).foldl (closeMarked fileSystem) (fs, files)).2.filp fd =
      if fd < count ∧ files.closeOnExec.getLsbD fd = true then none else files.filp fd) ∧
    (∀ fd, count ≤ fd → ((List.range count).foldl (closeMarked fileSystem)
      (fs, files)).2.closeOnExec.getLsbD fd = files.closeOnExec.getLsbD fd) ∧
    ((List.range count).foldl (closeMarked fileSystem) (fs, files)).2.pwd = files.pwd ∧
    ((List.range count).foldl (closeMarked fileSystem) (fs, files)).2.root = files.root ∧
    ((List.range count).foldl (closeMarked fileSystem) (fs, files)).2.executable =
      files.executable := by
  induction count with
  | zero => exact ⟨fun fd => by simp, fun fd _ => rfl, rfl, rfl, rfl⟩
  | succ count ih =>
      obtain ⟨filp, flags, pwd, root, executable⟩ := ih (Nat.le_of_succ_le bound)
      have small : count < 32 := Nat.lt_of_lt_of_le (Nat.lt_of_succ_le bound) (by decide)
      have index : (BitVec.ofNat 32 count).toNat = count := by
        rw [BitVec.toNat_ofNat]
        exact Nat.mod_eq_of_lt (by omega)
      rw [List.range_succ, List.foldl_append, List.foldl_cons, List.foldl_nil]
      generalize (List.range count).foldl (closeMarked fileSystem) (fs, files) = state at *
      rw [closeMarked]
      by_cases marked : state.2.closeOnExec &&& ((1 : BitVec 32) <<< count) ≠ 0
      · have flag := (ByteBits.and_bit_ne_zero _ small).mp marked
        rw [flags count (Nat.le_refl _)] at flag
        simp only [if_pos marked]
        rw [sysClose_files fileSystem _ _ (by rw [index]; exact bound), index]
        refine ⟨fun fd => ?_, fun fd later => ?_, pwd, root, executable⟩
        · by_cases here : fd = count
          · simp [here, flag]
          · have order : fd < count + 1 ↔ fd < count := by omega
            simp [here, filp, order]
        · have different : fd ≠ count := by omega
          rw [show ∀ f : Files, ({ clearFlag f count with filp := update f.filp count none } :
            Files).closeOnExec = (clearFlag f count).closeOnExec from fun _ => rfl,
            clearFlag_bit _ (Nat.lt_of_succ_le bound), flags fd (by omega)]
          simp [different]
      · have flag := mt (ByteBits.and_bit_ne_zero _ small).mpr marked
        rw [flags count (Nat.le_refl _), Bool.not_eq_true] at flag
        rw [if_neg marked]
        refine ⟨fun fd => ?_, fun fd later => flags fd (by omega), pwd, root, executable⟩
        by_cases here : fd = count
        · simp [here, flag, filp]
        · have order : fd < count + 1 ↔ fd < count := by omega
          simp [filp, order]

/-! What a successful call makes of the process. -/

structure ExecImage (content : List (BitVec 8)) (argv envp : List (List (BitVec 8)))
    (window : Memory) (context : Context) (endData startStack : BitVec 32) : Prop where
  header : GoodHeader content
  length : content.length = 28 + (fileWord content 12).toNat
  payload : ∀ i (bound : 28 + i < content.length),
    window (SP_USER_BASE.toNat + i) = content[28 + i]
  cleared : ∀ address, SP_USER_BASE.toNat + (fileWord content 12).toNat ≤ address →
    address < (context.regs 14).toNat → window address = 0
  argc : read32 window (context.regs 14).toNat = BitVec.ofNat 32 argv.length
  argvAt : VectorAt window (read32 window ((context.regs 14).toNat + 4)) argv
  envpAt : VectorAt window (read32 window ((context.regs 14).toNat + 8)) envp
  registers : ∀ index, index ≠ 14 → context.regs index = 0
  pc : context.pc.toNat = SP_USER_BASE.toNat + (fileWord content 8).toNat
  heapStart : endData.toNat = SP_USER_BASE.toNat +
    ((fileWord content 12).toNat + (fileWord content 16).toNat + 3) / 4 * 4
  stackStart : startStack.toNat =
    SP_USER_BASE.toNat + SP_USER_SIZE.toNat - (fileWord content 20).toNat
  heap : endData.toNat ≤ startStack.toNat
  stack : startStack.toNat ≤ (context.regs 14).toNat
  aligned : (context.regs 14).toNat % 4 = 0
  top : (context.regs 14).toNat + 12 ≤ SP_USER_BASE.toNat + SP_USER_SIZE.toNat

/-- The window is made by writes that leave all memory outside it alone. -/
def MadeInside (window : Memory) : Prop :=
  ∃ stage loaded argv envp strings,
    window = (commitWindow (fun _ => 0) stage loaded argv envp strings).1 ∧
    ∀ memory address, ¬ inWindow address →
      (commitWindow memory stage loaded argv envp strings).1 address = memory address

structure ClosedMarked (files after : Files) : Prop where
  filp : ∀ fd, after.filp fd =
    if fd < NR_OPEN ∧ files.closeOnExec.getLsbD fd = true then none else files.filp fd
  flags : after.closeOnExec = 0
  pwd : after.pwd = files.pwd
  root : after.root = files.root
  executable : after.executable = files.executable

/-- What the path gave was closed last. -/
def ClosesImage (fileSystem : FileSystem S) (fs : S) (files : Files) (path : List (BitVec 8))
    (after : S) : Prop :=
  ∀ file, (fileSystem.sysOpen fs files path 0 0).result.slt 0 = false →
    (fileSystem.sysOpen fs files path 0 0).files.filp
      (fileSystem.sysOpen fs files path 0 0).result.toNat = some file →
    ∃ before, after = fileSystem.closeFile before file

def Transacted (fileSystem : FileSystem S) (unread : S → Nat → List (BitVec 8)) (fs : S)
    (files : Files) (path : List (BitVec 8)) (argv envp : List (List (BitVec 8))) :
    ExecOutcome S → Prop
  | .failed result final after =>
      result.slt 0 = true ∧ after = files ∧ ClosesImage fileSystem fs files path final
  | .loaded final after window context endData startStack =>
      ClosedMarked files after ∧ MadeInside window ∧
      ∃ file before, (fileSystem.sysOpen fs files path 0 0).files.filp
          (fileSystem.sysOpen fs files path 0 0).result.toNat = some file ∧
        final = (closeOnExecFiles fileSystem (fileSystem.closeFile before file) files).1 ∧
        ExecImage (unread (fileSystem.sysOpen fs files path 0 0).fs file) argv envp window context
          endData startStack

theorem closeOnExecFiles_closed (fs : S) (files : Files) :
    ClosedMarked files { (closeOnExecFiles fileSystem fs files).2 with closeOnExec := 0 } := by
  obtain ⟨filp, -, pwd, root, executable⟩ :=
    closeMarked_spec fileSystem fs files NR_OPEN (Nat.le_refl _)
  exact ⟨filp, rfl, pwd, root, executable⟩

/-- The image that is built from a good file. -/
theorem execImage_built {content data payload : List (BitVec 8)} (split : content = data ++ payload)
    (header : data.length = 28) (good : GoodHeader content)
    (whole : payload.length = (fileWord content 12).toNat) {stage : Memory}
    (staged : ∀ i (bound : i < payload.length), stage i = payload[i]) {all : List (BitVec 8)}
    {argvOffsets envpOffsets : List Nat} {argv envp : List (List (BitVec 8))}
    (small : all.length ≤ 8192) (argvFew : argv.length ≤ 32) (envpFew : envp.length ≤ 32)
    (argvPacked : Packed all argvOffsets argv) (envpPacked : Packed all envpOffsets envp) :
    ExecImage content argv envp
      (buildWindow stage (fileWord content 12) argvOffsets envpOffsets all).1
      { regs := fun index => if index = 14 then
          (buildWindow stage (fileWord content 12) argvOffsets envpOffsets all).2 else 0
        pc := SP_USER_BASE + fileWord content 8 }
      (SP_USER_BASE + roundUp (fileWord content 12 + fileWord content 16))
      (SP_USER_BASE + SP_USER_SIZE - fileWord content 20) ∧
    MadeInside (buildWindow stage (fileWord content 12) argvOffsets envpOffsets all).1 := by
  have size : SP_USER_SIZE.toNat = 0x200000 := rfl
  have base : SP_USER_BASE.toNat = 0x200000 := rfl
  have top : (SP_USER_BASE + SP_USER_SIZE).toNat = 0x400000 := rfl
  have sizes := good.sizes
  have rounded := good.rounded
  have reserve := good.stack
  have entry := good.entry
  have room : (fileWord content 12).toNat + 16384 ≤ SP_USER_SIZE.toNat := by omega
  have committed := fun memory => commitWindow_spec memory stage room small argvFew envpFew
    argvPacked envpPacked
  have built := committed fun _ => 0
  rw [buildWindow_eq]
  refine ⟨?_, stage, _, _, _, _, rfl, fun memory => ?_⟩
  · obtain ⟨payloadAt, cleared, argc, argvAt, envpAt, aligned, high, -⟩ := built
    have start : (SP_USER_BASE + SP_USER_SIZE - fileWord content 20).toNat =
        0x400000 - (fileWord content 20).toNat := by
      rw [BitVec.toNat_sub_of_le (BitVec.le_def.mpr (by omega)), top]
    have break' : (SP_USER_BASE + roundUp (fileWord content 12 + fileWord content 16)).toNat =
        SP_USER_BASE.toNat +
          ((fileWord content 12).toNat + (fileWord content 16).toNat + 3) / 4 * 4 := by
      rw [BitVec.toNat_add, good.roundUp]
      exact Nat.mod_eq_of_lt (by omega)
    have pc : (SP_USER_BASE + fileWord content 8).toNat =
        SP_USER_BASE.toNat + (fileWord content 8).toNat := by
      rw [BitVec.toNat_add]
      exact Nat.mod_eq_of_lt (by omega)
    refine ⟨good, ?_, fun i bound => ?_, cleared, argc, argvAt, envpAt, fun index other => ?_, pc,
      break', ?_, ?_, ?_, aligned, ?_⟩
    · rw [split, List.length_append]
      rw [split] at whole
      omega
    · have length : content.length = 28 + payload.length := by
        rw [split, List.length_append, header]
      rw [payloadAt i (by omega), staged i (by omega)]
      simp only [split]
      rw [List.getElem_append_right (by omega)]
      simp [header]
    · exact if_neg other
    · omega
    · omega
    · simp only [if_pos]
      omega
    · simp only [if_pos]
      omega
  · exact (committed memory).outside

theorem execFile_spec (laws : FileLaws fileSystem unread) {fs : S} {files : Files}
    (flags : FlagsOpen files) (path : List (BitVec 8)) {all : List (BitVec 8)}
    {argvOffsets envpOffsets : List Nat} {argv envp : List (List (BitVec 8))}
    (small : all.length ≤ 8192) (argvFew : argv.length ≤ 32) (envpFew : envp.length ≤ 32)
    (argvPacked : Packed all argvOffsets argv) (envpPacked : Packed all envpOffsets envp) :
    Transacted fileSystem unread fs files path argv envp
      (execFile fileSystem path argvOffsets envpOffsets all fs files) := by
  rw [execFile]
  by_cases refused : (fileSystem.sysOpen fs files path 0 0).result.slt 0 = true
  · simp only [if_pos refused]
    refine ⟨refused, ?_, fun file opened => absurd (refused.symm.trans opened) (by decide)⟩
    rcases laws.refused fs files path 0 0 refused with same | ⟨fd, bound, closed, cleared⟩
    · exact same
    · rw [cleared, clearFlag_eq flags bound closed]
  · simp only [if_neg refused]
    obtain ⟨file, bound, closed, after⟩ :=
      laws.opened fs files path 0 0 (Bool.eq_false_iff.mpr refused)
    rw [clearFlag_eq flags bound closed] at after
    rcases openedEq : fileSystem.sysOpen fs files path 0 0 with ⟨fd, fs', held⟩
    rw [openedEq] at bound closed after
    simp only at bound closed after
    have isOpen : held.filp fd.toNat = some file := by
      rw [after]
      exact update_self ..
    have back : ∀ fs, (sysClose fileSystem fs held fd).files = files := by
      intro fs
      rw [after]
      exact sysClose_opened fileSystem fs flags bound closed file
    have shut : ∀ fs, (sysClose fileSystem fs held fd).fs = fileSystem.closeFile fs file := by
      intro fs
      rw [sysClose, if_neg (Nat.not_le.mpr bound), isOpen]
    have closes : ∀ before, ClosesImage fileSystem fs files path
        (sysClose fileSystem before held fd).fs := by
      intro before other _ given
      rw [openedEq] at given
      cases isOpen.symm.trans given
      exact ⟨before, shut before⟩
    have kept := fun fs => laws.kept fs held fd
    split
    · exact ⟨rfl, back _, closes _⟩
    · rename_i mode
      simp only [fileMode, isOpen, Bool.or_eq_true, Bool.not_eq_true', not_or,
        Bool.not_eq_false] at mode
      obtain ⟨regular', reads⟩ := laws.read fs' held fd 28 file bound isOpen mode.1
      simp only
      rw [kept]
      split
      · exact ⟨rfl, back _, closes _⟩
      · rename_i valid
        simp only [Bool.or_eq_true, decide_eq_true_eq, Bool.not_eq_true', not_or,
          Bool.not_eq_false, ne_eq, Decidable.not_not] at valid
        obtain ⟨length, split, -⟩ := reads (by rw [valid.1]; rfl)
        rw [valid.1] at length
        have length : (fileSystem.read fs' held fd 28).data.length = 28 := length
        have prefix' : ∃ rest, unread fs' file = (fileSystem.read fs' held fd 28).data ++ rest :=
          ⟨_, split⟩
        have good := GoodHeader.of_valid prefix' length valid.2
        simp only [get32_header prefix' length (show 12 + 4 ≤ 28 by omega),
          get32_header prefix' length (show 16 + 4 ≤ 28 by omega),
          get32_header prefix' length (show 20 + 4 ≤ 28 by omega),
          get32_header prefix' length (show 8 + 4 ≤ 28 by omega)]
        have zero : (0 : BitVec 32).toNat = 0 := rfl
        have loads := loadImage_spec laws bound isOpen (fileWord (unread fs' file) 12).toNat (n := 0)
          (writeBytes (fun _ => 0) 0 (fileSystem.read fs' held fd 28).data) (Nat.le_add_left _ _)
          (Nat.zero_le _) regular'
        generalize loadImage fileSystem fd _ _ 0 _ held _ = image at *
        obtain ⟨complete, fs₂, files₂, image⟩ := image
        obtain ⟨same, regular₂, -, payload⟩ := loads
        simp only at same regular₂ payload ⊢
        subst files₂
        rw [kept]
        split
        · exact ⟨rfl, back _, closes _⟩
        · rename_i complete
          simp only [Bool.not_eq_true', Bool.not_eq_false] at complete
          split
          · exact ⟨rfl, back _, closes _⟩
          · rename_i ended
            simp only [ne_eq, Decidable.not_not] at ended
            obtain ⟨payload, total, tail, staged⟩ := payload complete
            obtain ⟨-, last⟩ := laws.read fs₂ held fd 1 file bound isOpen (regular₂ complete)
            have none := (last (by rw [ended]; rfl)).2.2 ended Nat.one_pos
            rw [none, List.append_nil] at tail
            rw [tail] at split
            rw [zero, Nat.zero_add] at total
            simp only [zero, Nat.zero_add] at staged
            obtain ⟨made, inside⟩ := execImage_built split length good total staged small argvFew
              envpFew argvPacked envpPacked
            refine ⟨?_, inside, file, (fileSystem.read fs₂ held fd 1).fs,
              by rw [openedEq]; exact isOpen, by rw [shut, back], ?_⟩
            · rw [back]
              exact closeOnExecFiles_closed _ _
            · rw [openedEq]
              exact made

/-! The whole call. -/

theorem copyString_error {window : Memory} (fuel : Nat) {address code : BitVec 32}
    (failed : copyString window fuel address = .error code) : code.slt 0 = true := by
  induction fuel generalizing address with
  | zero =>
      cases failed
      rfl
  | succ fuel ih =>
      rw [copyString] at failed
      split at failed
      · cases failed
        rfl
      · split at failed
        · cases failed
        · rcases below : copyString window fuel (address + 1) with reason | rest
          · rw [below] at failed
            cases failed
            exact ih below
          · rw [below] at failed
            cases failed

theorem copyEntries_error {window : Memory} {list : BitVec 32} (remaining : Nat)
    {strings : List (BitVec 8)} {code : BitVec 32}
    (failed : copyEntries window list remaining strings = .error code) : code.slt 0 = true := by
  induction remaining generalizing strings with
  | zero =>
      simp only [copyEntries] at failed
      split at failed
      · cases failed
        rfl
      · split at failed
        · cases failed
        · cases failed
          rfl
  | succ remaining ih =>
      rw [copyEntries] at failed
      simp only at failed
      split at failed
      · cases failed
        rfl
      · split at failed
        · cases failed
        · rcases string : copyString window (8192 - strings.length)
            (read32 window (list + BitVec.ofNat 32 (4 * (32 - (remaining + 1)))).toNat)
            with reason | copied
          · rw [string] at failed
            cases failed
            exact copyString_error _ string
          · rw [string] at failed
            rcases rest : copyEntries window list remaining (strings ++ copied) with reason | more
            · simp only [bind, Except.bind, rest] at failed
              cases failed
              exact ih rest
            · simp only [bind, Except.bind, rest] at failed
              cases failed

theorem copyVector_error {window : Memory} {list : BitVec 32} {strings : List (BitVec 8)}
    {code : BitVec 32} (failed : copyVector window list strings = .error code) :
    code.slt 0 = true := by
  rw [copyVector] at failed
  split at failed
  · cases failed
  · exact copyEntries_error 32 failed

theorem spExecve_spec (laws : FileLaws fileSystem unread) (fs : S) {files : Files}
    (flags : FlagsOpen files) (path : List (BitVec 8)) (argv envp : BitVec 32) (window : Memory) :
    (∃ result, spExecve fileSystem path argv envp window fs files =
      .failed result fs files ∧ result.slt 0 = true) ∨
    ∃ argvStrings envpStrings, CallerVector window argv argvStrings ∧
      CallerVector window envp envpStrings ∧
      Transacted fileSystem unread fs files path argvStrings envpStrings
        (spExecve fileSystem path argv envp window fs files) := by
  rw [spExecve]
  split
  · exact .inl ⟨_, rfl, rfl⟩
  · rcases first : copyVector window argv [] with code | ⟨argvOffsets, argvAll⟩
    · exact .inl ⟨_, rfl, copyVector_error first⟩
    · simp only
      obtain ⟨argvStrings, argvAt, argvFew, argvPacked, -, bound⟩ :=
        copyVector_spec (Nat.zero_le _) first
      rcases second : copyVector window envp argvAll with code | ⟨envpOffsets, all⟩
      · exact .inl ⟨_, rfl, copyVector_error second⟩
      · simp only
        obtain ⟨envpStrings, envpAt, envpFew, envpPacked, ⟨more, rfl⟩, small⟩ :=
          copyVector_spec bound second
        exact .inr ⟨argvStrings, envpStrings, argvAt, envpAt,
          execFile_spec laws flags path small argvFew envpFew (argvPacked.append more) envpPacked⟩

/-- The kernel after a successful call. -/
def Executed (fileSystem : FileSystem S) (unread : S → Nat → List (BitVec 8)) (k : Kernel S)
    (a b c : BitVec 32) (after : Kernel S) : Prop :=
  ∃ path argv envp file before fs files window context endData startStack,
    userString k.window a = some path ∧ CallerVector k.window b argv ∧
    CallerVector k.window c envp ∧
    after = { k.setCurrent { k.currentTask with
        files := files, endData := endData, brk := endData, startStack := startStack } with
      fs := fs
      window := window
      contexts := update k.contexts k.active context } ∧
    ClosedMarked k.currentTask.files files ∧ MadeInside window ∧
    (fileSystem.sysOpen k.fs k.currentTask.files path 0 0).files.filp
      (fileSystem.sysOpen k.fs k.currentTask.files path 0 0).result.toNat = some file ∧
    fs = (closeOnExecFiles fileSystem (fileSystem.closeFile before file) k.currentTask.files).1 ∧
    ExecImage (unread (fileSystem.sysOpen k.fs k.currentTask.files path 0 0).fs file) argv envp
      window context endData startStack

/-- A call that fails does nothing but that it may have opened the image and closed it again. -/
def Unexecuted (fileSystem : FileSystem S) (k : Kernel S) (a : BitVec 32) (after : Kernel S) : Prop :=
  ∃ fs, after = { k with fs := fs } ∧ (fs = k.fs ∨ ∃ path, userString k.window a = some path ∧
    ClosesImage fileSystem k.fs k.currentTask.files path fs)

theorem setFiles_same (k : Kernel S) (fs : S) :
    k.setFiles fs k.currentTask.files = { k with fs := fs } := by
  have same : { k.currentTask with files := k.currentTask.files } = k.process k.current := rfl
  simp only [Kernel.setFiles, Kernel.setCurrent, same, update_eq_self]

theorem exec_is_transaction (laws : FileLaws fileSystem unread) (k : Kernel S) (a b c : BitVec 32)
    (flags : FlagsOpen k.currentTask.files) :
    (performExec fileSystem k a b c).1 ≠ execSentinel ∧
      Unexecuted fileSystem k a (performExec fileSystem k a b c).2 ∨
    (performExec fileSystem k a b c).1 = execSentinel ∧
      Executed fileSystem unread k a b c (performExec fileSystem k a b c).2 := by
  have negative : ∀ result : BitVec 32, result.slt 0 = true → result ≠ execSentinel := by
    rintro _ sign rfl
    cases sign
  rw [performExec]
  rcases given : userString k.window a with _ | path
  · exact .inl ⟨negative _ rfl, k.fs, rfl, .inl rfl⟩
  · simp only
    rcases spExecve_spec laws k.fs flags path b c k.window with
      ⟨result, failed, sign⟩ | ⟨argv, envp, argvAt, envpAt, transacted⟩
    · rw [failed]
      exact .inl ⟨negative result sign, k.fs, setFiles_same k k.fs, .inl rfl⟩
    · generalize spExecve fileSystem path b c k.window k.fs k.currentTask.files = outcome at *
      rcases outcome with ⟨result, after, files⟩ | ⟨after, files, window, context, endData, startStack⟩
      · obtain ⟨sign, rfl, closes⟩ := transacted
        exact .inl ⟨negative result sign, after, setFiles_same k after, .inr ⟨path, given, closes⟩⟩
      · obtain ⟨closed, inside, file, before, opened, shut, image⟩ := transacted
        refine .inr ⟨rfl, path, argv, envp, file, before, after, files, window, context, endData,
          startStack, given, argvAt, envpAt, ?_, closed, inside, opened, shut, image⟩
        simp [Kernel.setFiles, Kernel.setCurrent, Kernel.currentTask]

end

/-! The disk of `initOnly`, with the descriptor checks of `sys_open` and `sys_read`. -/

def initDisk : FileSystem Nat :=
  { initOnly with
    sysOpen := fun fs files _ _ _ =>
      if files.filp 0 = none then
        { result := 0, fs := 0,
          files := { clearFlag files 0 with filp := update files.filp 0 (some 0) } }
      else { result := -EINVAL, fs, files } }

theorem initDisk_laws : FileLaws initDisk fun position _ => initImage.drop position := by
  refine ⟨fun fs files path flags mode opened => ?_, fun fs files path flags mode refused => ?_,
    fun _ _ _ _ => rfl, fun fs files fd count file _ _ regular => ⟨regular, fun _ => ?_⟩⟩
  · simp only [initDisk] at opened ⊢
    split at opened
    · rename_i closed
      simp only [if_pos closed]
      exact ⟨0, by decide, closed, rfl⟩
    · cases opened
  · simp only [initDisk] at refused ⊢
    split at refused
    · cases refused
    · rename_i taken
      exact .inl (by rw [if_neg taken])
  · have short : ((initImage.drop fs).take count).length < 2 ^ 32 := by
      rw [List.length_take, List.length_drop]
      have length : initImage.length = 32 := rfl
      omega
    have rest : ∀ bytes : List (BitVec 8),
        bytes.drop (bytes.take count).length = bytes.drop count := by
      intro bytes
      rcases Nat.le_total count bytes.length with fits | long
      · rw [List.length_take_of_le fits]
      · rw [List.take_of_length_le long, List.drop_length, List.drop_of_length_le long]
    refine ⟨?_, ?_, fun nothing some => ?_⟩
    · exact (Nat.mod_eq_of_lt short).symm
    · change initImage.drop fs = (initImage.drop fs).take count ++
        initImage.drop (fs + ((initImage.drop fs).take count).length)
      rw [← List.drop_drop, rest, List.take_append_drop]
    · have none := congrArg BitVec.toNat nothing
      change (BitVec.ofNat 32 _).toNat = 0 at none
      rw [BitVec.toNat_ofNat, Nat.mod_eq_of_lt short, List.length_take] at none
      exact List.eq_nil_of_length_eq_zero (by omega)

theorem exec_of_init : ∃ first, bootInit = some first ∧
    (performExec initDisk first 0x200000 0 0).1 = execSentinel ∧
      Executed initDisk (fun position _ => initImage.drop position) first 0x200000 0 0
        (performExec initDisk first 0x200000 0 0).2 := by
  have booted : bootInit.map (fun k =>
      (k.currentTask.files.closeOnExec, (performExec initDisk k 0x200000 0 0).1)) =
      some (0, execSentinel) := by
    decide +kernel
  obtain ⟨first, found, same⟩ := Option.map_eq_some_iff.mp booted
  obtain ⟨unmarked, succeeds⟩ := Prod.mk.inj same
  rcases exec_is_transaction initDisk_laws first 0x200000 0 0
    fun fd _ _ => by rw [unmarked]; exact BitVec.getLsbD_zero with failed | done
  · exact absurd succeeds failed.1
  · exact ⟨first, found, done⟩

end SymphonyPlus
