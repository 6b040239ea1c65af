import SymphonyPlus.Heap
import SymphonyPlus.LinkedSegments

/-! The blocks of the heap as a list: in the order of their addresses, apart from each other, with
their headers in memory, and each free one in the bin of its size. -/

namespace SymphonyPlus.NativeHeap

open ByteMemory Function LinkedSegments

structure Block where
  place : Nat
  size : Nat
  free : Bool
  deriving DecidableEq

def Block.stop (b : Block) : Nat := b.place + headerSize + b.size

abbrev places (blocks : List Block) : List Nat := blocks.map Block.place

/-! Headers in memory. -/

def Apart (P : List Nat) : Prop :=
  ∀ b ∈ P, ∀ c ∈ P, c = b ∨ c + headerSize ≤ b ∨ b + headerSize ≤ c

section

variable {h : Heap} {P : List Nat} {b c value : Nat} {f f' : Field}

theorem get_small : h.get f b < word := BitVec.isLt _

theorem get_put (apart : Apart P) (hb : b ∈ P) (hc : c ∈ P) (small : value < word) :
    (h.put f b value).get f' c = if f' = f ∧ c = b then value else h.get f' c := by
  rw [Heap.get, Heap.put]
  split
  · rename_i same
    obtain ⟨rfl, rfl⟩ := same
    rw [read32_write32_same, BitVec.toNat_ofNat]
    exact Nat.mod_eq_of_lt small
  · rename_i other
    have away := apart b hb c hc
    rw [read32_write32_disjoint]
    · rfl
    · by_cases same : c = b
      · subst same
        have fields : f' ≠ f := fun equal => other ⟨equal, rfl⟩
        cases f <;> cases f' <;> simp_all [Field.offset]
      · have first : f.offset + 4 ≤ headerSize := by cases f <;> simp [Field.offset, headerSize]
        have second : f'.offset + 4 ≤ headerSize := by cases f' <;> simp [Field.offset, headerSize]
        omega

theorem put_outside {q : Nat} (outside : q < b ∨ b + headerSize ≤ q) :
    (h.put f b value).memory q = h.memory q := by
  have within : f.offset + 4 ≤ headerSize := by cases f <;> simp [Field.offset, headerSize]
  exact write32_outside _ _ _ _ (by omega)

@[simp] theorem put_bins : (h.put f b value).bins = h.bins := rfl
@[simp] theorem put_tail : (h.put f b value).tail = h.tail := rfl
@[simp] theorem put_brk : (h.put f b value).brk = h.brk := rfl
@[simp] theorem get_setBin (i : Nat) : (h.setBin i b).get f c = h.get f c := rfl
@[simp] theorem get_setTail : (h.setTail b).get f c = h.get f c := rfl
@[simp] theorem setTail_bins : (h.setTail b).bins = h.bins := rfl
@[simp] theorem setTail_tail : (h.setTail b).tail = b := rfl
@[simp] theorem setTail_brk : (h.setTail b).brk = h.brk := rfl
@[simp] theorem setBin_bins (i : Nat) : (h.setBin i b).bins = update h.bins i b := rfl
@[simp] theorem setBin_tail (i : Nat) : (h.setBin i b).tail = h.tail := rfl
@[simp] theorem setBin_brk (i : Nat) : (h.setBin i b).brk = h.brk := rfl
@[simp] theorem setBin_memory (i : Nat) : (h.setBin i b).memory = h.memory := rfl
@[simp] theorem setTail_memory : (h.setTail b).memory = h.memory := rfl

/-- What the header fields of `remove_free` are. -/
theorem removeFree_fields (apart : Apart P) (zero : 0 ∉ P) (hb : b ∈ P)
    (back : h.get .freePrev b = 0 ∨ h.get .freePrev b ∈ P)
    (forth : h.get .freeNext b = 0 ∨ h.get .freeNext b ∈ P) :
    (∀ c ∈ P, (h.removeFree b).get .size c = h.get .size c ∧
      (h.removeFree b).get .next c = h.get .next c ∧
      (h.removeFree b).get .prev c = h.get .prev c ∧
      (h.removeFree b).get .available c = (if c = b then 0 else h.get .available c) ∧
      (h.removeFree b).get .freeNext c = (if c = b then 0
        else if c = h.get .freePrev b then h.get .freeNext b else h.get .freeNext c) ∧
      (h.removeFree b).get .freePrev c = (if c = b then 0
        else if c = h.get .freeNext b then h.get .freePrev b else h.get .freePrev c)) := by
  have small : 0 < word := by decide
  intro c hc
  have nonzero : c ≠ 0 := fun none => zero (none ▸ hc)
  have proper : ∀ x, x ∈ P → x ≠ 0 := fun x inside none => zero (none ▸ inside)
  generalize before : h.get .freePrev b = a at back
  generalize after : h.get .freeNext b = n at forth
  have smallA : a < word := before ▸ get_small
  have smallN : n < word := after ▸ get_small
  rcases back with rfl | back <;> rcases forth with rfl | forth
  · simp [Heap.removeFree, before, after, get_put apart hb hc, small, nonzero]
  · simp [Heap.removeFree, before, after, get_put apart hb hc, get_put apart forth hc, small, nonzero,
      proper n forth]
  · simp [Heap.removeFree, before, after, get_put apart hb hc, get_put apart back hc,
      get_put apart back hb, small, nonzero, proper a back]
  · simp [Heap.removeFree, before, after, get_put apart hb hc, get_put apart back hc,
      get_put apart back hb, get_put apart forth hc, smallA, smallN, small, proper a back,
      proper n forth]

theorem removeFree_bins : (h.removeFree b).bins = if h.get .freePrev b = 0 then
    update h.bins (binIndex (h.get .size b)) (h.get .freeNext b) else h.bins := by
  rw [Heap.removeFree]
  by_cases back : h.get .freePrev b = 0
  · simp only [back, ne_eq, not_true_eq_false, if_false, if_true]
    split <;> rfl
  · simp only [back, ne_eq, not_false_eq_true, if_true, if_false]
    split <;> rfl

theorem removeFree_rest : (h.removeFree b).tail = h.tail ∧ (h.removeFree b).brk = h.brk := by
  rw [Heap.removeFree]
  simp only [put_tail, put_brk]
  split <;> split <;> exact ⟨rfl, rfl⟩

def Quiet (h after : Heap) (P : List Nat) : Prop :=
  ∀ q, (∀ c ∈ P, q < c ∨ c + headerSize ≤ q) → after.memory q = h.memory q

theorem Quiet.refl : Quiet h h P := fun _ _ => rfl

theorem Quiet.trans {middle after : Heap} (first : Quiet h middle P) (second : Quiet middle after P) :
    Quiet h after P := fun q outside => (second q outside).trans (first q outside)

theorem Quiet.mono {after : Heap} {Q : List Nat} (quiet : Quiet h after P) (more : ∀ c ∈ P, c ∈ Q) :
    Quiet h after Q := fun q outside => quiet q fun c inside => outside c (more c inside)

theorem quiet_put (inside : b ∈ P) : Quiet h (h.put f b value) P :=
  fun _ outside => put_outside (outside b inside)

theorem removeFree_quiet (apart : Apart P) (hb : b ∈ P)
    (back : h.get .freePrev b = 0 ∨ h.get .freePrev b ∈ P)
    (forth : h.get .freeNext b = 0 ∨ h.get .freeNext b ∈ P) : Quiet h (h.removeFree b) P := by
  have third : ∀ k : Heap, Quiet k (((k.put .freeNext b 0).put .freePrev b 0).put .available b 0) P :=
    fun k => ((quiet_put hb).trans (quiet_put hb)).trans (quiet_put hb)
  have second : ∀ (k : Heap) v, k.get .freeNext b = h.get .freeNext b →
      Quiet k (if k.get .freeNext b ≠ 0 then k.put .freePrev (k.get .freeNext b) v else k) P := by
    intro k v same
    rw [same]
    split
    · rename_i some
      exact quiet_put (forth.resolve_left some)
    · exact .refl
  rw [Heap.removeFree]
  refine Quiet.trans ?_ (third _)
  split
  · rename_i some
    have inside := back.resolve_left some
    refine (quiet_put inside).trans (second _ _ ?_)
    rw [get_put apart inside hb get_small]
    split <;> rfl
  · exact second _ _ rfl

theorem insertFree_fields (apart : Apart P) (zero : 0 ∉ P) (hb : b ∈ P) (index : Nat)
    (place : binIndex (h.get .size b) = index) (smallB : b < word) (less : h.bins index < word)
    (forth : h.bins index = 0 ∨ h.bins index ∈ P) :
    ∀ c ∈ P, (h.insertFree b).get .size c = h.get .size c ∧
      (h.insertFree b).get .next c = h.get .next c ∧
      (h.insertFree b).get .prev c = h.get .prev c ∧
      (h.insertFree b).get .available c = (if c = b then 1 else h.get .available c) ∧
      (h.insertFree b).get .freeNext c = (if c = b then h.bins index else h.get .freeNext c) ∧
      (h.insertFree b).get .freePrev c =
        (if c = h.bins index then b else if c = b then 0 else h.get .freePrev c) := by
  have small : 0 < word := by decide
  intro c hc
  have nonzero : c ≠ 0 := fun none => zero (none ▸ hc)
  have one : 1 < word := by decide
  generalize after : h.bins index = n at forth less
  rcases forth with rfl | forth
  · simp [Heap.insertFree, place, after, get_put apart hb hc, get_put apart hb hb, small, one,
      nonzero]
  · have some : n ≠ 0 := fun none => zero (none ▸ forth)
    simp [Heap.insertFree, place, after, get_put apart hb hc, get_put apart hb hb,
      get_put apart forth hc, small, one, less, smallB, some]

theorem insertFree_rest (index : Nat) (place : binIndex (h.get .size b) = index) :
    (h.insertFree b).bins = update h.bins index b ∧ (h.insertFree b).tail = h.tail ∧
      (h.insertFree b).brk = h.brk := by
  rw [Heap.insertFree]
  simp only [place, put_bins]
  split <;> exact ⟨rfl, rfl, rfl⟩

theorem insertFree_quiet (apart : Apart P) (hb : b ∈ P) (index : Nat)
    (place : binIndex (h.get .size b) = index) (less : h.bins index < word)
    (forth : h.bins index = 0 ∨ h.bins index ∈ P) : Quiet h (h.insertFree b) P := by
  rw [Heap.insertFree]
  simp only [place, put_bins]
  have written : ∀ k : Heap, (k.put .freeNext b (h.bins index)).get .freeNext b = h.bins index := by
    intro k
    rw [get_put apart hb hb less, if_pos ⟨rfl, rfl⟩]
  have begun : Quiet h (((h.put .available b 1).put .freePrev b 0).put .freeNext b (h.bins index)) P :=
    ((quiet_put hb).trans (quiet_put hb)).trans (quiet_put hb)
  rw [written]
  split
  · rename_i some
    exact begun.trans (quiet_put (forth.resolve_left some))
  · exact begun

theorem write32_again (m : Memory) (a : Nat) (v w : BitVec 32) :
    write32 (write32 m a v) a w = write32 m a w := by
  funext q
  by_cases inside : a ≤ q ∧ q < a + 4
  · have place : q = a ∨ q = a + 1 ∨ q = a + 2 ∨ q = a + 3 := by omega
    rcases place with rfl | rfl | rfl | rfl <;> simp [write32, write8]
  · rw [write32_outside _ _ _ _ (by omega), write32_outside _ _ _ _ (by omega),
      write32_outside _ _ _ _ (by omega)]

/-- The flag of a block that `insert_free` sets does not matter before. -/
theorem insertFree_flag (apart : Apart P) (hb : b ∈ P) :
    (h.put .available b 0).insertFree b = h.insertFree b := by
  have size : (h.put .available b 0).get .size b = h.get .size b := by
    rw [get_put apart hb hb (by decide), if_neg (fun both => nomatch both.1)]
  have twice : (h.put .available b 0).put .available b 1 = h.put .available b 1 :=
    congrArg h.setMemory (write32_again _ _ _ _)
  rw [Heap.insertFree, Heap.insertFree, size, twice]

theorem joinNext_fields (apart : Apart P) (zero : 0 ∉ P) (hb : b ∈ P) (n : Nat)
    (follows : h.get .next b = n) (hn : n ∈ P) (away : n ≠ b)
    (forth : h.get .next n = 0 ∨ h.get .next n ∈ P) (smallB : b < word)
    (small : h.get .size b + (headerSize + h.get .size n) < word) :
    ∀ c ∈ P, (h.joinNext b).get .available c = h.get .available c ∧
      (h.joinNext b).get .freeNext c = h.get .freeNext c ∧
      (h.joinNext b).get .freePrev c = h.get .freePrev c ∧
      (h.joinNext b).get .size c =
        (if c = b then h.get .size b + (headerSize + h.get .size n) else h.get .size c) ∧
      (h.joinNext b).get .next c = (if c = b then h.get .next n else h.get .next c) ∧
      (h.joinNext b).get .prev c = (if c = h.get .next n then b else h.get .prev c) := by
  intro c hc
  have nonzero : c ≠ 0 := fun none => zero (none ▸ hc)
  generalize after : h.get .next n = m at forth
  have smallM : m < word := after ▸ get_small
  rcases forth with rfl | forth
  · simp [Heap.joinNext, follows, after, get_put apart hb hc, get_put apart hb hb,
      get_put apart hb hn, small, smallM, nonzero, away]
  · have some : m ≠ 0 := fun none => zero (none ▸ forth)
    simp [Heap.joinNext, follows, after, get_put apart hb hc, get_put apart hb hb,
      get_put apart hb hn, get_put apart forth hc, small, smallM, smallB, some, away]

theorem joinNext_rest : (h.joinNext b).bins = h.bins ∧ (h.joinNext b).brk = h.brk := by
  rw [Heap.joinNext]
  split <;> exact ⟨rfl, rfl⟩

theorem joinNext_tail (apart : Apart P) (hb : b ∈ P) (n : Nat) (follows : h.get .next b = n)
    (hn : n ∈ P) (away : n ≠ b) (small : h.get .size b + (headerSize + h.get .size n) < word) :
    (h.joinNext b).tail = if h.get .next n = 0 then b else h.tail := by
  have written : ((h.put .size b (h.get .size b + (headerSize + h.get .size n))).put .next b
      ((h.put .size b (h.get .size b + (headerSize + h.get .size n))).get .next n)).get .next b =
        h.get .next n := by
    rw [get_put apart hb hb get_small, if_pos ⟨rfl, rfl⟩, get_put apart hb hn small,
      if_neg (fun both => away both.2)]
  rw [Heap.joinNext]
  simp only [follows, written]
  by_cases none : h.get .next n = 0
  · rw [if_neg (not_not.mpr none), if_pos none]
    rfl
  · rw [if_pos none, if_neg none]
    rfl

theorem joinNext_quiet (apart : Apart P) (hb : b ∈ P) (n : Nat) (follows : h.get .next b = n)
    (hn : n ∈ P) (away : n ≠ b)
    (small : h.get .size b + (headerSize + h.get .size n) < word) {Q : List Nat} (hq : b ∈ Q)
    (later : h.get .next n = 0 ∨ h.get .next n ∈ Q) : Quiet h (h.joinNext b) Q := by
  have written : ((h.put .size b (h.get .size b + (headerSize + h.get .size n))).put .next b
      ((h.put .size b (h.get .size b + (headerSize + h.get .size n))).get .next n)).get .next b =
        h.get .next n := by
    rw [get_put apart hb hb get_small, if_pos ⟨rfl, rfl⟩, get_put apart hb hn small,
      if_neg (fun both => away both.2)]
  rw [Heap.joinNext]
  simp only [follows, written]
  split
  · rename_i some
    exact ((quiet_put hq).trans (quiet_put hq)).trans (quiet_put (later.resolve_left some))
  · exact (quiet_put hq).trans (quiet_put hq)

theorem cutBlock_fields (apart : Apart P) (zero : 0 ∉ P) (hb : b ∈ P) (n size rest : Nat) (hn : n ∈ P)
    (left : sub (sub (h.get .size b) size) headerSize = rest)
    (forth : h.get .next b = 0 ∨ h.get .next b ∈ P) (other : h.get .next b ≠ n)
    (smallB : b < word) (smallN : n < word) (small : size < word) (smallR : rest < word) :
    ∀ c ∈ P, (h.cutBlock b n size).get .available c = h.get .available c ∧
      (h.cutBlock b n size).get .freeNext c = h.get .freeNext c ∧
      (h.cutBlock b n size).get .freePrev c = h.get .freePrev c ∧
      (h.cutBlock b n size).get .size c =
        (if c = b then size else if c = n then rest else h.get .size c) ∧
      (h.cutBlock b n size).get .next c =
        (if c = b then n else if c = n then h.get .next b else h.get .next c) ∧
      (h.cutBlock b n size).get .prev c =
        (if c = n then b else if c = h.get .next b then n else h.get .prev c) := by
  intro c hc
  have nonzero : c ≠ 0 := fun none => zero (none ▸ hc)
  generalize after : h.get .next b = m at forth other
  have smallM : m < word := after ▸ get_small
  rcases forth with rfl | forth
  · simp [Heap.cutBlock, left, after, get_put apart hb hc, get_put apart hn hc, get_put apart hn hb,
      get_put apart hn hn, small, smallB, smallN, smallR, smallM, nonzero]
  · have some : m ≠ 0 := fun none => zero (none ▸ forth)
    simp [Heap.cutBlock, left, after, get_put apart hb hc, get_put apart hn hc, get_put apart hn hb,
      get_put apart hn hn, get_put apart forth hc, small, smallB, smallN, smallR, smallM, some]
    grind

theorem cutBlock_next (apart : Apart P) (hb : b ∈ P) (n rest : Nat) (hn : n ∈ P) (away : n ≠ b)
    (smallB : b < word) (smallR : rest < word) :
    (((h.put .size n rest).put .prev n b).put .next n
      (((h.put .size n rest).put .prev n b).get .next b)).get .next n = h.get .next b := by
  rw [get_put apart hn hn get_small, if_pos ⟨rfl, rfl⟩, get_put apart hn hb smallB,
    if_neg (fun both => away both.2.symm), get_put apart hn hb smallR,
    if_neg (fun both => away both.2.symm)]

theorem cutBlock_rest (n size : Nat) :
    (h.cutBlock b n size).bins = h.bins ∧ (h.cutBlock b n size).brk = h.brk := by
  rw [Heap.cutBlock]
  simp only [put_bins, put_brk]
  split <;> exact ⟨rfl, rfl⟩

theorem cutBlock_tail (apart : Apart P) (hb : b ∈ P) (n size rest : Nat) (hn : n ∈ P)
    (away : n ≠ b) (left : sub (sub (h.get .size b) size) headerSize = rest)
    (smallB : b < word) (smallR : rest < word) :
    (h.cutBlock b n size).tail = if h.get .next b = 0 then n else h.tail := by
  rw [Heap.cutBlock]
  simp only [left, cutBlock_next apart hb n rest hn away smallB smallR, put_tail]
  by_cases none : h.get .next b = 0
  · rw [if_neg (not_not.mpr none), if_pos none]
    rfl
  · rw [if_pos none, if_neg none]
    rfl

theorem cutBlock_quiet (apart : Apart P) (hb : b ∈ P) (n size rest : Nat) (hn : n ∈ P)
    (away : n ≠ b) (left : sub (sub (h.get .size b) size) headerSize = rest)
    (forth : h.get .next b = 0 ∨ h.get .next b ∈ P) (smallB : b < word) (smallR : rest < word) :
    Quiet h (h.cutBlock b n size) P := by
  have last : ∀ k : Heap, Quiet k ((k.put .next b n).put .size b size) P := fun k =>
    (quiet_put hb).trans (quiet_put hb)
  have begun : ∀ v, Quiet h (((h.put .size n rest).put .prev n b).put .next n v) P := fun v =>
    ((quiet_put hn).trans (quiet_put hn)).trans (quiet_put hn)
  rw [Heap.cutBlock]
  simp only [left, cutBlock_next apart hb n rest hn away smallB smallR]
  refine Quiet.trans ?_ (last _)
  split
  · rename_i some
    exact (begun _).trans (quiet_put (forth.resolve_left some))
  · exact begun _

theorem appendHeader_fields (apart : Apart P) (zero : 0 ∉ P) (hb : b ∈ P) (size : Nat)
    (back : h.tail = 0 ∨ h.tail ∈ P) (other : h.tail ≠ b) (smallB : b < word)
    (smallT : h.tail < word) (small : size < word) :
    ∀ c ∈ P, (h.appendHeader b size).get .available c = (if c = b then 0 else h.get .available c) ∧
      (h.appendHeader b size).get .size c = (if c = b then size else h.get .size c) ∧
      (h.appendHeader b size).get .freeNext c = (if c = b then 0 else h.get .freeNext c) ∧
      (h.appendHeader b size).get .freePrev c = (if c = b then 0 else h.get .freePrev c) ∧
      (h.appendHeader b size).get .next c =
        (if c = h.tail then b else if c = b then 0 else h.get .next c) ∧
      (h.appendHeader b size).get .prev c = (if c = b then h.tail else h.get .prev c) := by
  intro c hc
  have nonzero : c ≠ 0 := fun none => zero (none ▸ hc)
  have none : 0 < word := by decide
  generalize last : h.tail = t at back other smallT
  rcases back with rfl | back
  · simp [Heap.appendHeader, last, get_put apart hb hc, small, none, nonzero]
  · have some : t ≠ 0 := fun none => zero (none ▸ back)
    simp [Heap.appendHeader, last, get_put apart hb hc, get_put apart back hc, small, none, smallB,
      smallT, some]

theorem appendHeader_rest (size : Nat) : (h.appendHeader b size).bins = h.bins ∧
    (h.appendHeader b size).tail = b ∧ (h.appendHeader b size).brk = h.brk := by
  rw [Heap.appendHeader]
  by_cases none : h.tail = 0 <;> simp [none]

theorem appendHeader_quiet (hb : b ∈ P) (size : Nat) (back : h.tail = 0 ∨ h.tail ∈ P) :
    Quiet h (h.appendHeader b size) P := by
  have begun : Quiet h ((((((h.put .size b size).put .available b 0).put .next b 0).put .prev b
      h.tail).put .freeNext b 0).put .freePrev b 0) P :=
    (((((quiet_put hb).trans (quiet_put hb)).trans (quiet_put hb)).trans (quiet_put hb)).trans
      (quiet_put hb)).trans (quiet_put hb)
  rw [Heap.appendHeader]
  split
  · rename_i some
    exact begun.trans (quiet_put (back.resolve_left some))
  · exact begun

end

/-! Blocks. -/

structure Rep (h : Heap) (blocks : List Block) (lists : Nat → List Nat) : Prop where
  started : 0 < h.brk
  small : h.brk < word
  ordered : blocks.Pairwise fun b c => b.stop ≤ c.place
  inside : ∀ b ∈ blocks, 0 < b.place ∧ b.stop ≤ h.brk
  sizes : ∀ b ∈ blocks, b.size % 8 = 0 ∧ 0 < b.size
  size : ∀ b ∈ blocks, h.get .size b.place = b.size
  available : ∀ b ∈ blocks, h.get .available b.place = if b.free then 1 else 0
  chain : ∃ head, Whole (h.get .next) (h.get .prev) 0 head (places blocks)
  tail : h.tail = (places blocks).getLastD 0
  bins : ∀ i, i < 32 → Whole (h.get .freeNext) (h.get .freePrev) 0 (h.bins i) (lists i)
  filed : ∀ i, i < 32 → ∀ p, p ∈ lists i ↔ ∃ size, ⟨p, size, true⟩ ∈ blocks ∧ binIndex size = i

/-- No free block ends where another begins. -/
def Merged (blocks : List Block) : Prop :=
  blocks.IsChain fun b c => b.free = true → c.free = true → b.stop ≠ c.place

namespace Rep

variable {h : Heap} {blocks l r : List Block} {lists : Nat → List Nat} {b c : Block} {p s : Nat}

theorem ordered_apart {blocks : List Block} (ordered : blocks.Pairwise fun b c => b.stop ≤ c.place) :
    ∀ b ∈ blocks, ∀ c ∈ blocks, b = c ∨ b.stop ≤ c.place ∨ c.stop ≤ b.place := by
  induction ordered with
  | nil => exact fun b none => absurd none List.not_mem_nil
  | cons first rest ih =>
      intro b inB c inC
      rcases List.mem_cons.mp inB with sameB | laterB
      · rcases List.mem_cons.mp inC with sameC | laterC
        · exact .inl (sameB.trans sameC.symm)
        · exact .inr (.inl (sameB ▸ first c laterC))
      · rcases List.mem_cons.mp inC with sameC | laterC
        · exact .inr (.inr (sameC ▸ first b laterB))
        · exact ih b laterB c laterC

theorem places_apart {blocks : List Block} (ordered : blocks.Pairwise fun b c => b.stop ≤ c.place) :
    Apart (places blocks) := by
  intro p inP q inQ
  obtain ⟨b, inB, rfl⟩ := List.mem_map.mp inP
  obtain ⟨c, inC, rfl⟩ := List.mem_map.mp inQ
  have either := ordered_apart ordered b inB c inC
  simp only [Block.stop] at either
  rcases either with rfl | before | after
  · exact .inl rfl
  · omega
  · omega

theorem apart (rep : Rep h blocks lists) : Apart (places blocks) := places_apart rep.ordered

theorem zero (rep : Rep h blocks lists) : 0 ∉ places blocks := by
  intro none
  obtain ⟨b, inside, same⟩ := List.mem_map.mp none
  have place := (rep.inside b inside).1
  omega

theorem place_small (rep : Rep h blocks lists) (inside : p ∈ places blocks) : p < word := by
  obtain ⟨b, member, rfl⟩ := List.mem_map.mp inside
  have stop := (rep.inside b member).2
  have small := rep.small
  simp only [Block.stop] at stop
  omega

/-- Blocks with one place are one block. -/
theorem same (rep : Rep h blocks lists) (inB : b ∈ blocks) (inC : c ∈ blocks)
    (equal : b.place = c.place) : b = c := by
  have first := (rep.sizes b inB).2
  have second := (rep.sizes c inC).2
  have either := ordered_apart rep.ordered b inB c inC
  simp only [Block.stop] at either
  rcases either with same | before | after
  · exact same
  · omega
  · omega

theorem listed (rep : Rep h blocks lists) {i : Nat} (less : i < 32) (inside : p ∈ lists i) :
    p ∈ places blocks := by
  obtain ⟨size, member, _⟩ := (rep.filed i less p).mp inside
  exact List.mem_map_of_mem (f := Block.place) member

theorem shifts_less {fuel size k : Nat} (less : size < 2 ^ (k + 1)) : shifts fuel size ≤ k := by
  induction fuel generalizing size k with
  | zero => exact Nat.zero_le k
  | succ fuel ih =>
      rw [shifts]
      split
      · rename_i more
        cases k with
        | zero => omega
        | succ k =>
            have half : size / 2 < 2 ^ (k + 1) := by
              rw [Nat.pow_succ] at less
              omega
            have later := ih half
            omega
      · exact Nat.zero_le k

theorem binIndex_less {size : Nat} (small : size < word) : binIndex size < 32 := by
  have most : shifts 32 size ≤ 31 := shifts_less (k := 31) small
  rw [binIndex]
  omega

theorem size_small (rep : Rep h blocks lists) (inside : b ∈ blocks) : b.size < word := by
  have stop := (rep.inside b inside).2
  have small := rep.small
  simp only [Block.stop] at stop
  omega

/-- A list holds a free block only in the bin of its size. -/
theorem one_list (rep : Rep h blocks lists) {i j : Nat} (first : i < 32) (second : j < 32)
    (inI : p ∈ lists i) (inJ : p ∈ lists j) : i = j := by
  obtain ⟨size, member, place⟩ := (rep.filed i first p).mp inI
  obtain ⟨size', member', place'⟩ := (rep.filed j second p).mp inJ
  have equal := rep.same member member' rfl
  rw [Block.mk.injEq] at equal
  rw [← place, ← place', equal.2.1]

theorem mem_middle {x : Block} : c ∈ l ++ x :: r ↔ c = x ∨ c ∈ l ++ r := by
  simp only [List.mem_append, List.mem_cons]
  tauto

theorem middle_apart (ordered : (l ++ b :: r).Pairwise fun b c => b.stop ≤ c.place)
    (inside : c ∈ l ++ r) : c.stop ≤ b.place ∨ b.stop ≤ c.place := by
  rw [List.pairwise_append, List.pairwise_cons] at ordered
  rcases List.mem_append.mp inside with before | after
  · exact .inl (ordered.2.2 c before b List.mem_cons_self)
  · exact .inr (ordered.2.1.1 c after)

theorem middle_place (ordered : (l ++ b :: r).Pairwise fun b c => b.stop ≤ c.place)
    (inside : c ∈ l ++ r) : c.place ≠ b.place := by
  have away := middle_apart ordered inside
  simp only [Block.stop, headerSize] at away
  omega

theorem removeFree (rep : Rep h (l ++ ⟨p, s, true⟩ :: r) lists) :
    Rep (h.removeFree p) (l ++ ⟨p, s, false⟩ :: r) (fun i => (lists i).erase p) ∧
      Quiet h (h.removeFree p) (places (l ++ ⟨p, s, true⟩ :: r)) := by
  have member : (⟨p, s, true⟩ : Block) ∈ l ++ ⟨p, s, true⟩ :: r :=
    List.mem_append_right l List.mem_cons_self
  have hp : p ∈ places (l ++ ⟨p, s, true⟩ :: r) := List.mem_map_of_mem (f := Block.place) member
  have less : binIndex s < 32 := binIndex_less (rep.size_small member)
  have inside : p ∈ lists (binIndex s) := (rep.filed _ less p).mpr ⟨s, member, rfl⟩
  obtain ⟨xs, ys, split⟩ := List.append_of_mem inside
  have whole := rep.bins _ less
  rw [split] at whole
  obtain ⟨back, forth⟩ := whole.neighbours
  have known : ∀ q, q ∈ xs ++ p :: ys → q ∈ places (l ++ ⟨p, s, true⟩ :: r) := fun q inQ =>
    rep.listed less (split ▸ inQ)
  have backIn := back.imp_right fun inX => known _ (List.mem_append_left (p :: ys) inX)
  have forthIn := forth.imp_right fun inY =>
    known _ (List.mem_append_right xs (List.mem_cons_of_mem p inY))
  refine ⟨?_, removeFree_quiet rep.apart hp backIn forthIn⟩
  have fields := removeFree_fields rep.apart rep.zero hp backIn forthIn
  have rest := removeFree_rest (h := h) (b := p)
  have bins := removeFree_bins (h := h) (b := p)
  have sameP : places (l ++ ⟨p, s, false⟩ :: r) = places (l ++ ⟨p, s, true⟩ :: r) := by
    simp [places]
  have others : ∀ c ∈ l ++ r, c ∈ l ++ ⟨p, s, true⟩ :: r ∧ c.place ∈ places (l ++ ⟨p, s, true⟩ :: r) ∧
      c.place ≠ p := fun c inC =>
    ⟨mem_middle.mpr (.inr inC), List.mem_map_of_mem (f := Block.place) (mem_middle.mpr (.inr inC)),
      middle_place rep.ordered inC⟩
  have index : h.get .size p = s := rep.size ⟨p, s, true⟩ member
  have unique := whole.unique
  rw [List.nodup_middle] at unique
  have away : ∀ y ∈ xs ++ ys, y ≠ p := fun y inY same =>
    (List.nodup_cons.mp unique).1 (same ▸ inY)
  refine
    { started := ?_
      small := ?_
      ordered := ?_
      inside := ?_
      sizes := ?_
      size := ?_
      available := ?_
      chain := ?_
      tail := ?_
      bins := ?_
      filed := ?_ }
  · rw [rest.2]
    exact rep.started
  · rw [rest.2]
    exact rep.small
  · simpa [List.pairwise_append, Block.stop] using rep.ordered
  · intro c inC
    rw [rest.2]
    rcases mem_middle.mp inC with rfl | inC
    · exact rep.inside ⟨p, s, true⟩ member
    · exact rep.inside c (others c inC).1
  · intro c inC
    rcases mem_middle.mp inC with rfl | inC
    · exact rep.sizes ⟨p, s, true⟩ member
    · exact rep.sizes c (others c inC).1
  · intro c inC
    rcases mem_middle.mp inC with rfl | inC
    · exact (fields p hp).1.trans index
    · exact (fields c.place (others c inC).2.1).1.trans (rep.size c (others c inC).1)
  · intro c inC
    rcases mem_middle.mp inC with rfl | inC
    · rw [(fields p hp).2.2.2.1, if_pos rfl]
      rfl
    · rw [(fields c.place (others c inC).2.1).2.2.2.1, if_neg (others c inC).2.2]
      exact rep.available c (others c inC).1
  · obtain ⟨head, chain⟩ := rep.chain
    rw [sameP]
    exact ⟨head, chain.congr (fun q inQ => (fields q inQ).2.1) fun q inQ => (fields q inQ).2.2.1⟩
  · rw [rest.1, sameP]
    exact rep.tail
  · intro i lessI
    rw [bins, index]
    by_cases same : i = binIndex s
    · subst same
      rw [split] at inside ⊢
      rw [show (xs ++ p :: ys).erase p = xs ++ ys by
        rw [List.erase_append_right _ fun inX => away p (List.mem_append_left ys inX) rfl,
          List.erase_cons_head]]
      have member' : ∀ y ∈ xs ++ ys, y ∈ xs ++ p :: ys := fun y inY => by
        simp only [List.mem_append, List.mem_cons] at inY ⊢
        tauto
      refine whole.removed (fun y inY => ?_) (fun y inY => ?_) ?_
      · rw [(fields y (known y (member' y inY))).2.2.2.2.1, if_neg (away y inY)]
      · rw [(fields y (known y (member' y inY))).2.2.2.2.2, if_neg (away y inY)]
      · split
        · exact update_self _ _ _
        · rfl
    · have whole' := rep.bins i lessI
      have other : ∀ y ∈ lists i, ∀ z ∈ xs ++ p :: ys, y ≠ z := by
        rintro y inY z inZ rfl
        exact same (rep.one_list lessI less inY (split ▸ inZ))
      have notP : p ∉ lists i := fun inP =>
        other p inP p (List.mem_append_right xs List.mem_cons_self) rfl
      have notBack : ∀ y ∈ lists i, y ≠ h.get .freePrev p := by
        rintro y inY rfl
        rcases back with none | inX
        · exact whole'.proper (none ▸ inY)
        · exact other _ inY _ (List.mem_append_left _ inX) rfl
      have notForth : ∀ y ∈ lists i, y ≠ h.get .freeNext p := by
        rintro y inY rfl
        rcases forth with none | inYs
        · exact whole'.proper (none ▸ inY)
        · exact other _ inY _ (List.mem_append_right xs (List.mem_cons_of_mem p inYs)) rfl
      have start : (if h.get .freePrev p = 0 then update h.bins (binIndex s) (h.get .freeNext p)
          else h.bins) i = h.bins i := by
        split
        · exact update_of_ne same _ _
        · rfl
      rw [start, List.erase_of_not_mem notP]
      refine whole'.congr (fun y inY => ?_) fun y inY => ?_
      · rw [(fields y (rep.listed lessI inY)).2.2.2.2.1, if_neg fun (equal : y = p) => notP (equal ▸ inY),
          if_neg (notBack y inY)]
      · rw [(fields y (rep.listed lessI inY)).2.2.2.2.2, if_neg fun (equal : y = p) => notP (equal ▸ inY),
          if_neg (notForth y inY)]
  · intro i lessI q
    rw [(rep.bins i lessI).unique.mem_erase_iff, rep.filed i lessI]
    constructor
    · rintro ⟨apart, size, there, place⟩
      refine ⟨size, mem_middle.mpr ((mem_middle.mp there).imp_left fun equal => ?_), place⟩
      exact absurd (congrArg Block.place equal) apart
    · rintro ⟨size, there, place⟩
      rcases mem_middle.mp there with equal | there
      · cases equal
      · exact ⟨(others _ there).2.2, size, (others _ there).1, place⟩

theorem insertFree (rep : Rep h (l ++ ⟨p, s, false⟩ :: r) lists) :
    Rep (h.insertFree p) (l ++ ⟨p, s, true⟩ :: r)
        (fun i => if i = binIndex s then p :: lists i else lists i) ∧
      Quiet h (h.insertFree p) (places (l ++ ⟨p, s, false⟩ :: r)) := by
  have member : (⟨p, s, false⟩ : Block) ∈ l ++ ⟨p, s, false⟩ :: r :=
    List.mem_append_right l List.mem_cons_self
  have hp : p ∈ places (l ++ ⟨p, s, false⟩ :: r) := List.mem_map_of_mem (f := Block.place) member
  have less : binIndex s < 32 := binIndex_less (rep.size_small member)
  have index : h.get .size p = s := rep.size ⟨p, s, false⟩ member
  have place : binIndex (h.get .size p) = binIndex s := congrArg binIndex index
  have whole := rep.bins _ less
  have head := whole.head_mem
  have forthIn := head.imp_right (rep.listed less)
  have smallHead : h.bins (binIndex s) < word := by
    rcases forthIn with none | some
    · rw [none]
      decide
    · exact rep.place_small some
  refine ⟨?_, insertFree_quiet rep.apart hp (binIndex s) place smallHead forthIn⟩
  have fields := insertFree_fields rep.apart rep.zero hp (binIndex s) place (rep.place_small hp)
    smallHead forthIn
  obtain ⟨bins, tail, brk⟩ := insertFree_rest (h := h) (b := p) (binIndex s) place
  have sameP : places (l ++ ⟨p, s, true⟩ :: r) = places (l ++ ⟨p, s, false⟩ :: r) := by
    simp [places]
  have others : ∀ c ∈ l ++ r, c ∈ l ++ ⟨p, s, false⟩ :: r ∧
      c.place ∈ places (l ++ ⟨p, s, false⟩ :: r) ∧ c.place ≠ p := fun c inC =>
    ⟨mem_middle.mpr (.inr inC), List.mem_map_of_mem (f := Block.place) (mem_middle.mpr (.inr inC)),
      middle_place (b := ⟨p, s, false⟩) rep.ordered inC⟩
  have notListed : ∀ i, i < 32 → p ∉ lists i := by
    intro i lessI inP
    obtain ⟨size, there, _⟩ := (rep.filed i lessI p).mp inP
    have equal := rep.same there member rfl
    cases equal
  refine
    { started := ?_
      small := ?_
      ordered := ?_
      inside := ?_
      sizes := ?_
      size := ?_
      available := ?_
      chain := ?_
      tail := ?_
      bins := ?_
      filed := ?_ }
  · rw [brk]
    exact rep.started
  · rw [brk]
    exact rep.small
  · simpa [List.pairwise_append, Block.stop] using rep.ordered
  · intro c inC
    rw [brk]
    rcases mem_middle.mp inC with rfl | inC
    · exact rep.inside ⟨p, s, false⟩ member
    · exact rep.inside c (others c inC).1
  · intro c inC
    rcases mem_middle.mp inC with rfl | inC
    · exact rep.sizes ⟨p, s, false⟩ member
    · exact rep.sizes c (others c inC).1
  · intro c inC
    rcases mem_middle.mp inC with rfl | inC
    · exact (fields p hp).1.trans index
    · exact (fields c.place (others c inC).2.1).1.trans (rep.size c (others c inC).1)
  · intro c inC
    rcases mem_middle.mp inC with rfl | inC
    · rw [(fields p hp).2.2.2.1, if_pos rfl]
      rfl
    · rw [(fields c.place (others c inC).2.1).2.2.2.1, if_neg (others c inC).2.2]
      exact rep.available c (others c inC).1
  · obtain ⟨head, chain⟩ := rep.chain
    rw [sameP]
    exact ⟨head, chain.congr (fun q inQ => (fields q inQ).2.1) fun q inQ => (fields q inQ).2.2.1⟩
  · rw [tail, sameP]
    exact rep.tail
  · intro i lessI
    rw [bins]
    by_cases same : i = binIndex s
    · subst same
      rw [update_self, if_pos rfl]
      refine whole.pushed (notListed _ less) (fun none => rep.zero (none ▸ hp)) ?_ ?_
        (fun y inY => ?_) fun y inY => ?_
      · rw [(fields p hp).2.2.2.2.1, if_pos rfl]
      · have apart : p ≠ h.bins (binIndex s) := by
          intro equal
          rw [← equal] at head
          exact head.elim (fun none => rep.zero (none ▸ hp)) (notListed _ less)
        rw [(fields p hp).2.2.2.2.2, if_neg apart, if_pos rfl]
      · have away : y ≠ p := fun equal => notListed _ less (equal ▸ inY)
        rw [(fields y (rep.listed less inY)).2.2.2.2.1, if_neg away]
      · have away : y ≠ p := fun equal => notListed _ less (equal ▸ inY)
        rw [(fields y (rep.listed less inY)).2.2.2.2.2, if_neg away]
    · rw [update_of_ne same, if_neg same]
      have whole' := rep.bins i lessI
      refine whole'.congr (fun y inY => ?_) fun y inY => ?_
      · have away : y ≠ p := fun equal => notListed i lessI (equal ▸ inY)
        rw [(fields y (rep.listed lessI inY)).2.2.2.2.1, if_neg away]
      · have away : y ≠ p := fun equal => notListed i lessI (equal ▸ inY)
        have notHead : y ≠ h.bins (binIndex s) := by
          rintro rfl
          rcases head with none | inHead
          · exact whole'.proper (none ▸ inY)
          · exact same (rep.one_list lessI less inY inHead)
        rw [(fields y (rep.listed lessI inY)).2.2.2.2.2, if_neg notHead, if_neg away]
  · intro i lessI q
    have before := rep.filed i lessI q
    have there : (∃ size, (⟨q, size, true⟩ : Block) ∈ l ++ ⟨p, s, true⟩ :: r ∧ binIndex size = i) ↔
        (q = p ∧ i = binIndex s) ∨ q ∈ lists i := by
      rw [before]
      constructor
      · rintro ⟨size, there, place⟩
        rcases mem_middle.mp there with equal | there
        · cases equal
          exact .inl ⟨rfl, place.symm⟩
        · exact .inr ⟨size, (others _ there).1, place⟩
      · rintro (⟨rfl, rfl⟩ | ⟨size, there, place⟩)
        · exact ⟨s, mem_middle.mpr (.inl rfl), rfl⟩
        · rcases mem_middle.mp there with equal | there
          · cases equal
          · exact ⟨size, mem_middle.mpr (.inr there), place⟩
    rw [there]
    split
    · rename_i same
      simp only [List.mem_cons, same, and_true]
    · rename_i other
      simp only [other, and_false, false_or]

theorem last_middle (xs ys : List Nat) (y : Nat) : (xs ++ y :: ys).getLastD 0 = ys.getLastD y := by
  rw [List.getLastD_eq_getLast?, List.getLast?_append, List.getLast?_cons, List.getLastD_eq_getLast?]
  rfl

theorem joinNext {q t : Nat} (rep : Rep h (l ++ ⟨p, s, false⟩ :: ⟨q, t, false⟩ :: r) lists)
    (touch : p + headerSize + s = q) :
    Rep (h.joinNext p) (l ++ ⟨p, s + (headerSize + t), false⟩ :: r) lists ∧
      Quiet h (h.joinNext p) (places (l ++ ⟨p, s + (headerSize + t), false⟩ :: r)) := by
  have inP : (⟨p, s, false⟩ : Block) ∈ l ++ ⟨p, s, false⟩ :: ⟨q, t, false⟩ :: r := by simp
  have inQ : (⟨q, t, false⟩ : Block) ∈ l ++ ⟨p, s, false⟩ :: ⟨q, t, false⟩ :: r := by simp
  have hp := List.mem_map_of_mem (f := Block.place) inP
  have hq := List.mem_map_of_mem (f := Block.place) inQ
  simp only at hp hq
  obtain ⟨head, chain⟩ := rep.chain
  have split : places (l ++ ⟨p, s, false⟩ :: ⟨q, t, false⟩ :: r) =
      (places l ++ [p]) ++ q :: places r := by simp [places]
  have split' : places (l ++ ⟨p, s, false⟩ :: ⟨q, t, false⟩ :: r) =
      places l ++ p :: q :: places r := by simp [places]
  have next : h.get .next p = q := by
    rw [split'] at chain
    exact chain.links.2
  rw [split] at chain
  have prev : h.get .prev q = p := by
    rw [chain.links.1, last_middle]
    rfl
  have forth := chain.neighbours.2
  have sizeP : h.get .size p = s := rep.size ⟨p, s, false⟩ inP
  have sizeQ : h.get .size q = t := rep.size ⟨q, t, false⟩ inQ
  have away : q ≠ p := by
    simp only [headerSize] at touch
    omega
  have stop := (rep.inside _ inQ).2
  have small := rep.small
  simp only [Block.stop] at stop
  have total : h.get .size p + (headerSize + h.get .size q) < word := by
    rw [sizeP, sizeQ]
    omega
  have sameP : places (l ++ ⟨p, s + (headerSize + t), false⟩ :: r) = places l ++ [p] ++ places r := by
    simp [places]
  have known : ∀ y ∈ places l ++ [p] ++ places r,
      y ∈ places (l ++ ⟨p, s, false⟩ :: ⟨q, t, false⟩ :: r) := by
    intro y inY
    rw [split]
    simp only [List.mem_append, List.mem_cons] at inY ⊢
    tauto
  have fields := joinNext_fields rep.apart rep.zero hp q next hq away
    (forth.imp_right fun inR => known _ (List.mem_append_right _ inR)) (rep.place_small hp) total
  have others : ∀ c ∈ l ++ r, c ∈ l ++ ⟨p, s, false⟩ :: ⟨q, t, false⟩ :: r ∧ c.place ≠ p := by
    intro c inC
    have there : c ∈ l ++ ⟨q, t, false⟩ :: r := mem_middle.mpr (.inr inC)
    refine ⟨?_, middle_place (b := ⟨p, s, false⟩) rep.ordered there⟩
    simp only [List.mem_append, List.mem_cons] at inC ⊢
    tauto
  have placed : ∀ c ∈ l ++ r, c.place ∈ places (l ++ ⟨p, s, false⟩ :: ⟨q, t, false⟩ :: r) :=
    fun c inC => List.mem_map_of_mem (f := Block.place) (others c inC).1
  obtain ⟨bins, brk⟩ := joinNext_rest (h := h) (b := p)
  refine ⟨?_, ?_⟩
  · refine
      { started := ?_
        small := ?_
        ordered := ?_
        inside := ?_
        sizes := ?_
        size := ?_
        available := ?_
        chain := ?_
        tail := ?_
        bins := ?_
        filed := ?_ }
    · rw [brk]
      exact rep.started
    · rw [brk]
      exact rep.small
    · have ordered := rep.ordered
      simp only [List.pairwise_append, List.pairwise_cons, List.mem_cons, Block.stop] at ordered ⊢
      refine ⟨ordered.1, ⟨fun c inC => ?_, ordered.2.1.2.2⟩, fun c inC x inX => ?_⟩
      · have later := ordered.2.1.2.1 c inC
        omega
      · rcases inX with rfl | inX
        · have before := ordered.2.2 c inC ⟨p, s, false⟩ (.inl rfl)
          exact before
        · exact ordered.2.2 c inC x (.inr (.inr inX))
    · intro c inC
      rw [brk]
      rcases mem_middle.mp inC with rfl | inC
      · refine ⟨(rep.inside _ inP).1, ?_⟩
        simp only [Block.stop]
        omega
      · exact rep.inside c (others c inC).1
    · intro c inC
      rcases mem_middle.mp inC with rfl | inC
      · have first := rep.sizes _ inP
        have second := rep.sizes _ inQ
        simp only [headerSize] at first second ⊢
        omega
      · exact rep.sizes c (others c inC).1
    · intro c inC
      rcases mem_middle.mp inC with rfl | inC
      · rw [(fields p hp).2.2.2.1, if_pos rfl, sizeP, sizeQ]
      · rw [(fields c.place (placed c inC)).2.2.2.1, if_neg (others c inC).2]
        exact rep.size c (others c inC).1
    · intro c inC
      rcases mem_middle.mp inC with rfl | inC
      · exact (fields p hp).1.trans (rep.available ⟨p, s, false⟩ inP)
      · exact (fields c.place (placed c inC)).1.trans (rep.available c (others c inC).1)
    · rw [sameP]
      refine ⟨head, chain.removed (fun y inY => ?_) (fun y inY => ?_) ?_⟩
      · rw [(fields y (known y inY)).2.2.2.2.1, prev]
      · rw [(fields y (known y inY)).2.2.2.2.2, prev]
      · rw [prev, if_neg (fun (none : p = 0) => rep.zero (none ▸ hp))]
    · have tail := rep.tail
      rw [split, last_middle] at tail
      rw [joinNext_tail rep.apart hp q next hq away total, tail, sameP, chain.links.2]
      cases later : places r with
      | nil => simp
      | cons y ys =>
          have some : y ≠ 0 := by
            rintro rfl
            refine rep.zero ?_
            rw [split, later]
            simp
          rw [List.headD_cons, if_neg some, List.getLastD_cons]
          exact (last_middle (places l ++ [p]) ys y).symm
    · intro i less
      rw [bins]
      exact (rep.bins i less).congr (fun y inY => (fields y (rep.listed less inY)).2.1)
        fun y inY => (fields y (rep.listed less inY)).2.2.1
    · intro i less y
      rw [rep.filed i less y]
      simp
  · refine joinNext_quiet rep.apart hp q next hq away total ?_ (forth.imp_right fun inR => ?_)
    · simp
    · rw [sameP]
      exact List.mem_append_right _ inR

theorem cut {size rest : Nat} (rep : Rep h (l ++ ⟨p, s, false⟩ :: r) lists)
    (total : size + headerSize + rest = s) (aligned : size % 8 = 0 ∧ 0 < size)
    (aligned' : rest % 8 = 0 ∧ 0 < rest) :
    Rep ((h.cutBlock p (p + headerSize + size) size).put .available (p + headerSize + size) 0)
        (l ++ ⟨p, size, false⟩ :: ⟨p + headerSize + size, rest, false⟩ :: r) lists ∧
      Quiet h ((h.cutBlock p (p + headerSize + size) size).put .available (p + headerSize + size) 0)
        (places (l ++ ⟨p, size, false⟩ :: ⟨p + headerSize + size, rest, false⟩ :: r)) := by
  generalize cutAt : p + headerSize + size = n
  have member : (⟨p, s, false⟩ : Block) ∈ l ++ ⟨p, s, false⟩ :: r :=
    List.mem_append_right l List.mem_cons_self
  have stop := (rep.inside _ member).2
  have small := rep.small
  simp only [Block.stop] at stop
  have ordered : (l ++ ⟨p, size, false⟩ :: ⟨n, rest, false⟩ :: r).Pairwise
      fun b c => b.stop ≤ c.place := by
    have ordered := rep.ordered
    simp only [List.pairwise_append, List.pairwise_cons, List.mem_cons, Block.stop] at ordered ⊢
    refine ⟨ordered.1, ⟨?_, ?_, ordered.2.1.2⟩, fun c inC x inX => ?_⟩
    · rintro x (rfl | inX)
      · exact Nat.le_of_eq cutAt
      · have later := ordered.2.1.1 x inX
        omega
    · intro x inX
      have later := ordered.2.1.1 x inX
      omega
    · have before := ordered.2.2 c inC ⟨p, s, false⟩ (.inl rfl)
      rcases inX with rfl | rfl | inX
      · exact before
      · simp only at before ⊢
        omega
      · exact ordered.2.2 c inC x (.inr inX)
  have apart := places_apart ordered
  have hp : p ∈ places (l ++ ⟨p, size, false⟩ :: ⟨n, rest, false⟩ :: r) := by simp
  have hn : n ∈ places (l ++ ⟨p, size, false⟩ :: ⟨n, rest, false⟩ :: r) := by simp
  have known : ∀ y ∈ places (l ++ ⟨p, s, false⟩ :: r),
      y ∈ places (l ++ ⟨p, size, false⟩ :: ⟨n, rest, false⟩ :: r) := by
    intro y inY
    simp only [List.map_append, List.map_cons, List.mem_append, List.mem_cons] at inY ⊢
    tauto
  have positive : 0 < p := (rep.inside _ member).1
  have away : n ≠ p := by
    simp only [headerSize] at cutAt
    omega
  have new : n ∉ places (l ++ ⟨p, s, false⟩ :: r) := by
    intro inN
    obtain ⟨c, inC, place⟩ := List.mem_map.mp inN
    rcases mem_middle.mp inC with rfl | inC
    · exact away place.symm
    · have apartC := middle_apart rep.ordered inC
      simp only [Block.stop, headerSize] at apartC cutAt total
      omega
  have zero : 0 ∉ places (l ++ ⟨p, size, false⟩ :: ⟨n, rest, false⟩ :: r) := by
    have old := rep.zero
    simp only [List.map_append, List.map_cons, List.mem_append, List.mem_cons, not_or] at old ⊢
    refine ⟨old.1, old.2.1, ?_, old.2.2⟩
    simp only [headerSize] at cutAt
    omega
  obtain ⟨head, chain⟩ := rep.chain
  have split : places (l ++ ⟨p, s, false⟩ :: r) = places l ++ p :: places r := by simp
  rw [split] at chain
  have forth := chain.neighbours.2
  have forthIn : h.get .next p = 0 ∨ h.get .next p ∈ places (l ++ ⟨p, s, false⟩ :: r) :=
    forth.imp_right fun inR => split ▸ List.mem_append_right _ (List.mem_cons_of_mem p inR)
  have other : h.get .next p ≠ n := by
    rintro same
    rcases forthIn with none | inNext
    · rw [none] at same
      simp only [headerSize] at cutAt
      omega
    · exact new (same ▸ inNext)
  have sizeP : h.get .size p = s := rep.size ⟨p, s, false⟩ member
  have left : sub (sub (h.get .size p) size) headerSize = rest := by
    rw [sizeP, sub, sub]
    simp only [word, headerSize] at small total stop ⊢
    omega
  have smallN : n < word := by omega
  have smallP : p < word := by omega
  have smallSize : size < word := by omega
  have smallRest : rest < word := by omega
  have cutFields := cutBlock_fields apart zero hp n size rest hn left (forthIn.imp_right (known _))
    other smallP smallN smallSize smallRest
  have fields : ∀ (f : Field), ∀ c ∈ places (l ++ ⟨p, size, false⟩ :: ⟨n, rest, false⟩ :: r),
      ((h.cutBlock p n size).put .available n 0).get f c =
        if f = .available ∧ c = n then 0 else (h.cutBlock p n size).get f c :=
    fun f c inC => get_put apart hn inC (by decide)
  have others : ∀ c ∈ l ++ r, c ∈ l ++ ⟨p, s, false⟩ :: r ∧
      c.place ∈ places (l ++ ⟨p, size, false⟩ :: ⟨n, rest, false⟩ :: r) ∧ c.place ≠ p ∧ c.place ≠ n := by
    intro c inC
    have there : c ∈ l ++ ⟨p, s, false⟩ :: r := mem_middle.mpr (.inr inC)
    have placed := List.mem_map_of_mem (f := Block.place) there
    refine ⟨there, known _ placed, middle_place (b := ⟨p, s, false⟩) rep.ordered inC, ?_⟩
    exact fun same => new (same ▸ placed)
  obtain ⟨bins, brk⟩ := cutBlock_rest (h := h) (b := p) n size
  have tail := cutBlock_tail apart hp n size rest hn away left smallP smallRest
  have quiet := cutBlock_quiet apart hp n size rest hn away left (forthIn.imp_right (known _)) smallP
    smallRest
  refine ⟨?_, quiet.trans (quiet_put hn)⟩
  have members : ∀ c, c ∈ l ++ ⟨p, size, false⟩ :: ⟨n, rest, false⟩ :: r ↔
      c = ⟨p, size, false⟩ ∨ c = ⟨n, rest, false⟩ ∨ c ∈ l ++ r := by
    intro c
    simp only [List.mem_append, List.mem_cons]
    grind
  refine
    { started := ?_
      small := ?_
      ordered := ordered
      inside := ?_
      sizes := ?_
      size := ?_
      available := ?_
      chain := ?_
      tail := ?_
      bins := ?_
      filed := ?_ }
  · rw [put_brk, brk]
    exact rep.started
  · rw [put_brk, brk]
    exact rep.small
  · intro c inC
    rw [put_brk, brk]
    rcases (members c).mp inC with rfl | rfl | inC
    · refine ⟨positive, ?_⟩
      simp only [Block.stop]
      omega
    · simp only [Block.stop]
      omega
    · exact rep.inside c (others c inC).1
  · intro c inC
    rcases (members c).mp inC with rfl | rfl | inC
    · exact aligned
    · exact aligned'
    · exact rep.sizes c (others c inC).1
  · intro c inC
    rcases (members c).mp inC with rfl | rfl | inC
    · rw [fields .size p hp, if_neg (fun both => nomatch both.1), (cutFields p hp).2.2.2.1,
        if_pos rfl]
    · rw [fields .size n hn, if_neg (fun both => nomatch both.1), (cutFields n hn).2.2.2.1,
        if_neg away, if_pos rfl]
    · obtain ⟨there, placed, notP, notN⟩ := others c inC
      rw [fields .size c.place placed, if_neg (fun both => nomatch both.1),
        (cutFields c.place placed).2.2.2.1, if_neg notP, if_neg notN]
      exact rep.size c there
  · intro c inC
    rcases (members c).mp inC with rfl | rfl | inC
    · rw [fields .available p hp, if_neg (fun both => away both.2.symm), (cutFields p hp).1]
      exact rep.available ⟨p, s, false⟩ member
    · rw [fields .available n hn, if_pos ⟨rfl, rfl⟩]
      rfl
    · obtain ⟨there, placed, notP, notN⟩ := others c inC
      rw [fields .available c.place placed, if_neg (fun both => notN both.2),
        (cutFields c.place placed).1]
      exact rep.available c there
  · refine ⟨head, ?_⟩
    have split' : places (l ++ ⟨p, size, false⟩ :: ⟨n, rest, false⟩ :: r) =
        places l ++ p :: n :: places r := by simp
    have kept : ∀ y ∈ places l ++ p :: places r,
        y ∈ places (l ++ ⟨p, size, false⟩ :: ⟨n, rest, false⟩ :: r) ∧ y ≠ n := by
      intro y inY
      rw [← split] at inY
      exact ⟨known y inY, fun same => new (same ▸ inY)⟩
    have unique := chain.unique
    rw [List.nodup_middle] at unique
    have notP : ∀ y ∈ places l ++ places r, y ≠ p := fun y inY same =>
      (List.nodup_cons.mp unique).1 (same ▸ inY)
    have within : ∀ y ∈ places l ++ places r, y ∈ places l ++ p :: places r := fun y inY => by
      simp only [List.mem_append, List.mem_cons] at inY ⊢
      grind
    rw [split']
    refine chain.inserted (split ▸ new) (fun none => zero (none ▸ hn)) ?_ ?_ ?_ (fun y inY => ?_)
      fun y inY => ?_
    · rw [fields .next n hn, if_neg (fun both => nomatch both.1), (cutFields n hn).2.2.2.2.1,
        if_neg away, if_pos rfl]
    · rw [fields .prev n hn, if_neg (fun both => nomatch both.1), (cutFields n hn).2.2.2.2.2,
        if_pos rfl]
    · rw [fields .next p hp, if_neg (fun both => nomatch both.1), (cutFields p hp).2.2.2.2.1,
        if_pos rfl]
    · obtain ⟨placed, notN⟩ := kept y (within y inY)
      rw [fields .next y placed, if_neg (fun both => nomatch both.1), (cutFields y placed).2.2.2.2.1,
        if_neg (notP y inY), if_neg notN]
    · obtain ⟨placed, notN⟩ := kept y inY
      rw [fields .prev y placed, if_neg (fun both => nomatch both.1), (cutFields y placed).2.2.2.2.2,
        if_neg notN]
  · have old := rep.tail
    rw [split, last_middle] at old
    rw [put_tail, tail, old, chain.links.2]
    have split' : places (l ++ ⟨p, size, false⟩ :: ⟨n, rest, false⟩ :: r) =
        places l ++ p :: n :: places r := by simp
    rw [split', last_middle, List.getLastD_cons]
    cases later : places r with
    | nil => simp
    | cons y ys =>
        have some : y ≠ 0 := by
          rintro rfl
          refine rep.zero ?_
          rw [split, later]
          simp
        rw [List.headD_cons, if_neg some, List.getLastD_cons, List.getLastD_cons]
  · intro i less
    rw [put_bins, bins]
    have apartN : ∀ y ∈ lists i, y ≠ n := fun y inY same => new (same ▸ rep.listed less inY)
    refine (rep.bins i less).congr (fun y inY => ?_) fun y inY => ?_
    · have placed := known y (rep.listed less inY)
      rw [fields .freeNext y placed, if_neg (fun both => nomatch both.1), (cutFields y placed).2.1]
    · have placed := known y (rep.listed less inY)
      rw [fields .freePrev y placed, if_neg (fun both => nomatch both.1), (cutFields y placed).2.2.1]
  · intro i less y
    rw [rep.filed i less y]
    simp

theorem appendHeader {size : Nat} (rep : Rep h blocks lists) (positive : 0 < p)
    (behindAll : ∀ b ∈ blocks, b.stop ≤ p) (room : p + headerSize + size ≤ h.brk)
    (aligned : size % 8 = 0 ∧ 0 < size) :
    Rep (h.appendHeader p size) (blocks ++ [⟨p, size, false⟩]) lists ∧
      Quiet h (h.appendHeader p size) (places (blocks ++ [⟨p, size, false⟩])) := by
  have small := rep.small
  have ordered : (blocks ++ [(⟨p, size, false⟩ : Block)]).Pairwise
      fun b c => b.stop ≤ c.place := by
    simp only [List.pairwise_append, List.pairwise_cons, List.mem_cons, List.not_mem_nil, or_false]
    refine ⟨rep.ordered, ⟨fun x none => none.elim, .nil⟩, fun b inB x same => ?_⟩
    rw [same]
    exact behindAll b inB
  have apart := places_apart ordered
  have hp : p ∈ places (blocks ++ [⟨p, size, false⟩]) := by simp
  have new : p ∉ places blocks := by
    intro inP
    obtain ⟨b, inB, place⟩ := List.mem_map.mp inP
    have before := behindAll b inB
    simp only [Block.stop, headerSize] at before
    omega
  have split : places (blocks ++ [⟨p, size, false⟩]) = places blocks ++ [p] := by simp
  have zero : 0 ∉ places (blocks ++ [⟨p, size, false⟩]) := by
    rw [split]
    simp only [List.mem_append, List.mem_singleton, not_or]
    exact ⟨rep.zero, by omega⟩
  have known : ∀ y ∈ places blocks, y ∈ places (blocks ++ [⟨p, size, false⟩]) := fun y inY =>
    split ▸ List.mem_append_left [p] inY
  have last : h.tail = 0 ∨ h.tail ∈ places blocks := by
    rw [rep.tail]
    by_cases none : (places blocks).getLastD 0 = 0
    · exact .inl none
    · exact .inr (Whole.mem_last none)
  have other : h.tail ≠ p := by
    rcases last with none | inside
    · omega
    · exact fun same => new (same ▸ inside)
  have smallT : h.tail < word := by
    rcases last with none | inside
    · omega
    · exact rep.place_small inside
  have fields := appendHeader_fields apart zero hp size (last.imp_right (known _)) other (by omega)
    smallT (by omega)
  have away : ∀ y ∈ places blocks, y ≠ p := fun y inY same => new (same ▸ inY)
  obtain ⟨bins, tail, brk⟩ := appendHeader_rest (h := h) (b := p) size
  have members : ∀ c, c ∈ blocks ++ [⟨p, size, false⟩] → c ∈ blocks ∨ c = ⟨p, size, false⟩ := by
    intro c inC
    simpa using inC
  have placed : ∀ c ∈ blocks, c.place ∈ places blocks := fun c inC =>
    List.mem_map_of_mem (f := Block.place) inC
  refine ⟨?_, appendHeader_quiet hp size (last.imp_right (known _))⟩
  refine
    { started := ?_
      small := ?_
      ordered := ordered
      inside := ?_
      sizes := ?_
      size := ?_
      available := ?_
      chain := ?_
      tail := ?_
      bins := ?_
      filed := ?_ }
  · rw [brk]
    exact rep.started
  · rw [brk]
    exact rep.small
  · intro c inC
    rw [brk]
    rcases members c inC with inC | rfl
    · exact rep.inside c inC
    · exact ⟨positive, room⟩
  · intro c inC
    rcases members c inC with inC | rfl
    · exact rep.sizes c inC
    · exact aligned
  · intro c inC
    rcases members c inC with inC | rfl
    · rw [(fields c.place (known _ (placed c inC))).2.1, if_neg (away _ (placed c inC))]
      exact rep.size c inC
    · rw [(fields p hp).2.1, if_pos rfl]
  · intro c inC
    rcases members c inC with inC | rfl
    · rw [(fields c.place (known _ (placed c inC))).1, if_neg (away _ (placed c inC))]
      exact rep.available c inC
    · rw [(fields p hp).1, if_pos rfl]
      rfl
  · obtain ⟨head, chain⟩ := rep.chain
    rw [split]
    refine ⟨_, chain.appended new (fun (none : p = 0) => zero (none ▸ hp)) ?_ ?_ (fun y inY => ?_)
      (fun y inY => ?_) rfl⟩
    · rw [(fields p hp).2.2.2.2.1, if_neg (Ne.symm other), if_pos rfl]
    · rw [(fields p hp).2.2.2.2.2, if_pos rfl, rep.tail]
    · rw [(fields y (known y inY)).2.2.2.2.1, if_neg (away y inY), rep.tail]
    · rw [(fields y (known y inY)).2.2.2.2.2, if_neg (away y inY)]
  · rw [tail, split, List.getLastD_concat]
  · intro i less
    rw [bins]
    refine (rep.bins i less).congr (fun y inY => ?_) fun y inY => ?_
    · have inside := rep.listed less inY
      rw [(fields y (known y inside)).2.2.1, if_neg (away y inside)]
    · have inside := rep.listed less inY
      rw [(fields y (known y inside)).2.2.2.1, if_neg (away y inside)]
  · intro i less y
    rw [rep.filed i less y]
    simp

end Rep

end SymphonyPlus.NativeHeap
