import Mathlib.Data.BitVec
import Mathlib.Data.List.Basic

/-!
Byte-addressed memory with big-endian words. The library knows nothing about a
particular machine: a memory is a total map from addresses to bytes, and bounds
are the business of the code that uses it.
-/

namespace ByteMemory

abbrev Memory := Nat → BitVec 8

def read16 (memory : Memory) (address : Nat) : BitVec 16 :=
  memory address ++ memory (address + 1)

def read32 (memory : Memory) (address : Nat) : BitVec 32 :=
  memory address ++ memory (address + 1) ++ memory (address + 2) ++ memory (address + 3)

def write8 (memory : Memory) (address : Nat) (value : BitVec 8) : Memory :=
  fun query => if query = address then value else memory query

def write16 (memory : Memory) (address : Nat) (value : BitVec 16) : Memory :=
  write8 (write8 memory address (value.extractLsb' 8 8)) (address + 1) (value.extractLsb' 0 8)

def write32 (memory : Memory) (address : Nat) (value : BitVec 32) : Memory :=
  write8 (write8 (write8 (write8 memory address (value.extractLsb' 24 8))
    (address + 1) (value.extractLsb' 16 8))
    (address + 2) (value.extractLsb' 8 8))
    (address + 3) (value.extractLsb' 0 8)

def wordBytes (value : BitVec 32) : List (BitVec 8) :=
  [value.extractLsb' 24 8, value.extractLsb' 16 8, value.extractLsb' 8 8, value.extractLsb' 0 8]

def writeBytes (memory : Memory) (address : Nat) (bytes : List (BitVec 8)) : Memory :=
  fun query =>
    if address ≤ query then (bytes[query - address]?).getD (memory query) else memory query

def AgreeOn (region : Nat → Prop) (first second : Memory) : Prop :=
  ∀ address, region address → first address = second address

theorem AgreeOn.refl (region : Nat → Prop) (memory : Memory) : AgreeOn region memory memory :=
  fun _ _ => rfl

theorem AgreeOn.symm {region : Nat → Prop} {first second : Memory}
    (agree : AgreeOn region first second) : AgreeOn region second first :=
  fun address inside => (agree address inside).symm

theorem AgreeOn.trans {region : Nat → Prop} {first second third : Memory}
    (left : AgreeOn region first second) (right : AgreeOn region second third) :
    AgreeOn region first third :=
  fun address inside => (left address inside).trans (right address inside)

theorem AgreeOn.mono {small large : Nat → Prop} {first second : Memory}
    (agree : AgreeOn large first second) (subset : ∀ address, small address → large address) :
    AgreeOn small first second :=
  fun address inside => agree address (subset address inside)

@[simp] theorem write8_same (memory : Memory) (address : Nat) (value : BitVec 8) :
    write8 memory address value address = value := by
  simp [write8]

theorem write8_other (memory : Memory) (address query : Nat) (value : BitVec 8)
    (different : query ≠ address) : write8 memory address value query = memory query := by
  simp [write8, different]

theorem write16_outside (memory : Memory) (address query : Nat) (value : BitVec 16)
    (outside : query < address ∨ address + 2 ≤ query) :
    write16 memory address value query = memory query := by
  unfold write16
  rw [write8_other _ _ _ _ (by omega), write8_other _ _ _ _ (by omega)]

theorem write32_outside (memory : Memory) (address query : Nat) (value : BitVec 32)
    (outside : query < address ∨ address + 4 ≤ query) :
    write32 memory address value query = memory query := by
  unfold write32
  rw [write8_other _ _ _ _ (by omega), write8_other _ _ _ _ (by omega),
    write8_other _ _ _ _ (by omega), write8_other _ _ _ _ (by omega)]

theorem wordBytes_join (value : BitVec 32) :
    (value.extractLsb' 24 8 ++ value.extractLsb' 16 8 ++ value.extractLsb' 8 8 ++
      value.extractLsb' 0 8 : BitVec 32) = value := by
  ext index bound
  simp only [BitVec.getElem_append, BitVec.getElem_extractLsb']
  split
  · simp [BitVec.getLsbD_eq_getElem bound]
  · split
    · have shift : 8 + (index - 8) = index := by omega
      simp [shift, BitVec.getLsbD_eq_getElem bound]
    · split
      · have shift : 16 + (index - 8 - 8) = index := by omega
        simp [shift, BitVec.getLsbD_eq_getElem bound]
      · have shift : 24 + (index - 8 - 8 - 8) = index := by omega
        simp [shift, BitVec.getLsbD_eq_getElem bound]

@[simp] theorem read32_write32_same (memory : Memory) (address : Nat) (value : BitVec 32) :
    read32 (write32 memory address value) address = value := by
  have bytes : read32 (write32 memory address value) address =
      value.extractLsb' 24 8 ++ value.extractLsb' 16 8 ++ value.extractLsb' 8 8 ++
        value.extractLsb' 0 8 := by
    simp [read32, write32, write8]
  rw [bytes]
  exact wordBytes_join value

theorem extractLsb_joined (first second third fourth : BitVec 8) :
    (first ++ second ++ third ++ fourth : BitVec 32).extractLsb' 24 8 = first ∧
    (first ++ second ++ third ++ fourth : BitVec 32).extractLsb' 16 8 = second ∧
    (first ++ second ++ third ++ fourth : BitVec 32).extractLsb' 8 8 = third ∧
    (first ++ second ++ third ++ fourth : BitVec 32).extractLsb' 0 8 = fourth := by
  refine ⟨?_, ?_, ?_, ?_⟩ <;> ext index bound <;>
    simp only [BitVec.getElem_extractLsb', BitVec.getLsbD_append] <;> grind

/-- A word that is written back leaves the bytes it was read from. -/
theorem write32_read32 (memory other : Memory) (address query : Nat)
    (inside : address ≤ query ∧ query < address + 4) :
    write32 other address (read32 memory address) query = memory query := by
  obtain ⟨first, second, third, fourth⟩ := extractLsb_joined (memory address) (memory (address + 1))
    (memory (address + 2)) (memory (address + 3))
  have place : query = address ∨ query = address + 1 ∨ query = address + 2 ∨ query = address + 3 := by
    omega
  rcases place with rfl | rfl | rfl | rfl <;>
    simp [write32, write8, read32, first, second, third, fourth]

theorem read32_congr {first second : Memory} {address : Nat}
    (agree : AgreeOn (fun query => address ≤ query ∧ query < address + 4) first second) :
    read32 first address = read32 second address := by
  unfold read32
  rw [agree address (by omega), agree (address + 1) (by omega), agree (address + 2) (by omega),
    agree (address + 3) (by omega)]

theorem read32_write32_disjoint (memory : Memory) (address query : Nat) (value : BitVec 32)
    (disjoint : query + 4 ≤ address ∨ address + 4 ≤ query) :
    read32 (write32 memory address value) query = read32 memory query := by
  apply read32_congr
  intro byte inside
  exact write32_outside memory address byte value (by omega)

theorem writeBytes_outside (memory : Memory) (address query : Nat) (bytes : List (BitVec 8))
    (outside : query < address ∨ address + bytes.length ≤ query) :
    writeBytes memory address bytes query = memory query := by
  unfold writeBytes
  split
  · rw [List.getElem?_eq_none (by omega), Option.getD_none]
  · rfl

theorem writeBytes_inside (memory : Memory) (address index : Nat) (bytes : List (BitVec 8))
    (bound : index < bytes.length) :
    writeBytes memory address bytes (address + index) = bytes[index] := by
  simp [writeBytes, bound]

theorem read32_writeBytes_outside (memory : Memory) (address query : Nat) (bytes : List (BitVec 8))
    (outside : query + 4 ≤ address ∨ address + bytes.length ≤ query) :
    read32 (writeBytes memory address bytes) query = read32 memory query :=
  read32_congr fun _ _ => writeBytes_outside _ _ _ _ (by omega)

@[simp] theorem writeBytes_nil (memory : Memory) (address : Nat) :
    writeBytes memory address [] = memory := by
  funext query
  simp [writeBytes]

@[simp] theorem wordBytes_length (value : BitVec 32) : (wordBytes value).length = 4 := rfl

theorem write32_eq_writeBytes (memory : Memory) (address : Nat) (value : BitVec 32) :
    write32 memory address value = writeBytes memory address (wordBytes value) := by
  funext query
  by_cases outside : query < address ∨ address + 4 ≤ query
  · rw [write32_outside memory address query value outside,
      writeBytes_outside memory address query _ (by simpa using outside)]
  · obtain ⟨index, rfl⟩ : ∃ index, query = address + index := ⟨query - address, by omega⟩
    rw [writeBytes_inside memory address index _ (by simp only [wordBytes_length]; omega)]
    have cases : index = 0 ∨ index = 1 ∨ index = 2 ∨ index = 3 := by omega
    rcases cases with rfl | rfl | rfl | rfl <;> simp [write32, write8, wordBytes]

theorem writeBytes_append (memory : Memory) (address : Nat) (first second : List (BitVec 8)) :
    writeBytes memory address (first ++ second) =
      writeBytes (writeBytes memory address first) (address + first.length) second := by
  funext query
  by_cases before : query < address
  · rw [writeBytes_outside _ _ _ _ (.inl before), writeBytes_outside _ _ _ _ (.inl (by omega)),
      writeBytes_outside _ _ _ _ (.inl before)]
  · obtain ⟨index, rfl⟩ := Nat.exists_eq_add_of_le (Nat.le_of_not_lt before)
    by_cases early : index < first.length
    · rw [writeBytes_inside _ _ _ _ (by rw [List.length_append]; omega),
        writeBytes_outside _ _ _ _ (.inl (by omega)), writeBytes_inside _ _ _ _ early,
        List.getElem_append_left early]
    · obtain ⟨rest, rfl⟩ := Nat.exists_eq_add_of_le (Nat.le_of_not_lt early)
      by_cases inside : rest < second.length
      · rw [writeBytes_inside _ _ _ _ (by rw [List.length_append]; omega), ← Nat.add_assoc,
          writeBytes_inside _ _ _ _ inside, List.getElem_append_right (by omega)]
        simp
      · rw [writeBytes_outside _ _ _ _ (.inr (by rw [List.length_append]; omega)),
          writeBytes_outside _ _ _ _ (.inr (by omega)), writeBytes_outside _ _ _ _ (.inr (by omega))]

theorem flatMap_wordBytes_length (words : List (BitVec 32)) :
    (words.flatMap wordBytes).length = words.length * 4 := by
  induction words with
  | nil => rfl
  | cons word rest ih =>
      rw [List.flatMap_cons, List.length_append, ih, wordBytes_length, List.length_cons]
      omega

theorem read32_writeWords (memory : Memory) (address index : Nat) (words : List (BitVec 32))
    (bound : index < words.length) :
    read32 (writeBytes memory address (words.flatMap wordBytes)) (address + 4 * index) =
      words[index] := by
  induction words generalizing memory address index with
  | nil => cases bound
  | cons word rest ih =>
      rw [List.flatMap_cons, writeBytes_append, wordBytes_length]
      cases index with
      | zero =>
          have apart : AgreeOn (fun query => address ≤ query ∧ query < address + 4)
              (writeBytes (writeBytes memory address (wordBytes word)) (address + 4)
                (rest.flatMap wordBytes)) (writeBytes memory address (wordBytes word)) :=
            fun query inside => writeBytes_outside _ _ _ _ (.inl inside.2)
          change read32 _ address = word
          rw [read32_congr apart, ← write32_eq_writeBytes,
            read32_write32_same]
      | succ index =>
          rw [show address + 4 * (index + 1) = address + 4 + 4 * index by omega,
            ih _ _ _ (Nat.lt_of_succ_lt_succ bound), List.getElem_cons_succ]

/-! Words in shifts. -/

theorem shifted_joined (first second third fourth : BitVec 8) :
    first.setWidth 32 <<< 24 ||| second.setWidth 32 <<< 16 ||| third.setWidth 32 <<< 8 |||
      fourth.setWidth 32 = first ++ second ++ third ++ fourth := by
  ext index bound
  simp only [BitVec.getElem_or, BitVec.getElem_shiftLeft, BitVec.getElem_setWidth]
  grind

theorem shifted_byte (value : BitVec 32) (n : Nat) :
    (value >>> n).setWidth 8 = value.extractLsb' n 8 := by
  ext index bound
  simp

/-! Addresses. -/

theorem toNat_add_small {address : BitVec 32} {n : Nat} (bound : address.toNat + n < 2 ^ 32) :
    (address + BitVec.ofNat 32 n).toNat = address.toNat + n := by
  rw [BitVec.toNat_add, BitVec.toNat_ofNat, Nat.add_mod_mod]
  exact Nat.mod_eq_of_lt bound

theorem toNat_sub_small {address : BitVec 32} {n : Nat} (bound : n ≤ address.toNat) :
    (address - BitVec.ofNat 32 n).toNat = address.toNat - n := by
  have high := address.isLt
  have short : n % 2 ^ 32 = n := Nat.mod_eq_of_lt (by omega)
  rw [BitVec.toNat_sub, BitVec.toNat_ofNat, short]
  omega

end ByteMemory
