import Mathlib.Data.List.Chain
import Mathlib.Data.List.Perm.Subperm
import SymphonyPlus.HeapBlocks

/-! What the calls of the allocator do to the blocks. -/

namespace SymphonyPlus.NativeHeap

open ByteMemory Function LinkedSegments

def Covered (blocks : List Block) (q : Nat) : Prop := ∃ b ∈ blocks, b.place ≤ q ∧ q < b.stop

/-- The heap is well formed, with these blocks. -/
def Good (h : Heap) (blocks : List Block) : Prop := (∃ lists, Rep h blocks lists) ∧ Merged blocks

/-- From one heap to a later one only headers are written, and blocks cover what they did and what
the break has left behind. -/
structure Change (h after : Heap) (blocks later : List Block) : Prop where
  quiet : Quiet h after (places blocks ++ places later)
  grown : h.brk ≤ after.brk
  cover : ∀ q, Covered later q ↔ Covered blocks q ∨ (h.brk ≤ q ∧ q < after.brk)

section

variable {h : Heap} {blocks l r : List Block} {lists : Nat → List Nat} {b c : Block} {p s : Nat}

theorem merged_middle {x : Block} : Merged (l ++ x :: r) ↔ Merged l ∧ Merged r ∧
    (x.free = true → (∀ b ∈ l.getLast?, b.free = true → b.stop ≠ x.place) ∧
      ∀ c ∈ r.head?, c.free = true → x.stop ≠ c.place) := by
  simp only [Merged, List.isChain_append, List.isChain_cons, List.head?_cons, Option.mem_some_iff]
  constructor
  · rintro ⟨left, ⟨right, rest⟩, back⟩
    exact ⟨left, rest, fun free =>
      ⟨fun b last freeB => back b last x rfl freeB free, fun c first => right c first free⟩⟩
  · rintro ⟨left, rest, sides⟩
    refine ⟨left, ⟨fun c first free => (sides free).2 c first, rest⟩, ?_⟩
    rintro b last _ rfl freeB free
    exact (sides free).1 b last freeB

theorem covered_middle {x : Block} {q : Nat} :
    Covered (l ++ x :: r) q ↔ Covered (l ++ r) q ∨ (x.place ≤ q ∧ q < x.stop) := by
  simp only [Covered, List.mem_append, List.mem_cons]
  constructor
  · rintro ⟨b, inL | rfl | inR, inside⟩
    · exact .inl ⟨b, .inl inL, inside⟩
    · exact .inr inside
    · exact .inl ⟨b, .inr inR, inside⟩
  · rintro (⟨b, inL | inR, inside⟩ | inside)
    · exact ⟨b, .inl inL, inside⟩
    · exact ⟨b, .inr (.inr inR), inside⟩
    · exact ⟨x, .inr (.inl rfl), inside⟩

namespace Rep

/-- What a heap is depends on its headers, its tail, its bins and its break. -/
theorem congr {after : Heap} (rep : Rep h blocks lists)
    (headers : ∀ f, ∀ c ∈ places blocks, after.get f c = h.get f c) (tail : after.tail = h.tail)
    (bins : after.bins = h.bins) (grown : h.brk ≤ after.brk) (small : after.brk < word) :
    Rep after blocks lists := by
  obtain ⟨head, chain⟩ := rep.chain
  refine
    { started := Nat.lt_of_lt_of_le rep.started grown
      small := small
      ordered := rep.ordered
      inside := fun b inB => ?_
      sizes := rep.sizes
      size := fun b inB => ?_
      available := fun b inB => ?_
      chain := ⟨head, chain.congr (headers .next) (headers .prev)⟩
      tail := tail.trans rep.tail
      bins := fun i less => ?_
      filed := rep.filed }
  · exact ⟨(rep.inside b inB).1, Nat.le_trans (rep.inside b inB).2 grown⟩
  · exact (headers .size _ (List.mem_map_of_mem (f := Block.place) inB)).trans (rep.size b inB)
  · exact (headers .available _ (List.mem_map_of_mem (f := Block.place) inB)).trans
      (rep.available b inB)
  · rw [bins]
    exact (rep.bins i less).congr (fun y inY => headers .freeNext y (rep.listed less inY))
      fun y inY => headers .freePrev y (rep.listed less inY)

/-- The header of a block after a split is in front of what was left of it. -/
theorem splitBlock {size : Nat} (rep : Rep h (l ++ ⟨p, s, false⟩ :: r) lists)
    (fits : size ≤ s) (aligned : size % 8 = 0 ∧ 0 < size) :
    ∃ s' new lists', Rep (h.splitBlock p size) (l ++ ⟨p, s', false⟩ :: (new ++ r)) lists' ∧
      size ≤ s' ∧ Quiet h (h.splitBlock p size) (places (l ++ ⟨p, s', false⟩ :: (new ++ r))) ∧
      (h.splitBlock p size).brk = h.brk ∧
      ((new = [] ∧ s' = s) ∨ ∃ t, new = [⟨p + headerSize + s', t, true⟩] ∧
        s' + headerSize + t = s) := by
  have member : (⟨p, s, false⟩ : Block) ∈ l ++ ⟨p, s, false⟩ :: r :=
    List.mem_append_right l List.mem_cons_self
  have stop := (rep.inside _ member).2
  have small := rep.small
  have sizes := rep.sizes _ member
  simp only [Block.stop] at stop sizes
  have sizeP : h.get .size p = s := rep.size ⟨p, s, false⟩ member
  have left : sub (h.get .size p) size = s - size := by
    rw [sizeP, sub]
    simp only [word, headerSize] at small stop ⊢
    omega
  have place : behind p size = p + headerSize + size := Nat.mod_eq_of_lt (by omega)
  rw [Heap.splitBlock, left, place]
  split
  · exact ⟨s, [], lists, rep, fits, .refl, rfl, .inl ⟨rfl, rfl⟩⟩
  · rename_i enough
    have split : size + headerSize + (s - size - headerSize) = s := by omega
    have aligned' : (s - size - headerSize) % 8 = 0 ∧ 0 < s - size - headerSize := by
      simp only [headerSize] at enough ⊢
      omega
    obtain ⟨cut, quietCut⟩ := rep.cut split aligned aligned'
    have hn : p + headerSize + size ∈ places (l ++ ⟨p, size, false⟩ ::
        ⟨p + headerSize + size, s - size - headerSize, false⟩ :: r) := by simp
    have regroup : l ++ ⟨p, size, false⟩ ::
        ⟨p + headerSize + size, s - size - headerSize, false⟩ :: r =
        (l ++ [⟨p, size, false⟩]) ++ ⟨p + headerSize + size, s - size - headerSize, false⟩ :: r := by
      simp
    rw [regroup] at cut quietCut hn
    obtain ⟨inserted, quiet⟩ := cut.insertFree
    rw [insertFree_flag (regroup ▸ cut.apart) hn] at inserted quiet
    have whole := quietCut.trans quiet
    simp only [places, List.map_append, List.map_cons, List.append_assoc,
      List.cons_append, List.nil_append] at inserted whole
    refine ⟨size, [⟨p + headerSize + size, s - size - headerSize, true⟩], _, inserted,
      Nat.le_refl size, ?_, ?_, .inr ⟨_, rfl, split⟩⟩
    · simpa [places] using whole
    · rw [(insertFree_rest _ rfl).2.2, (cutBlock_rest _ _).2]

end Rep

/-! The search. -/

theorem searchBin_find {prev : Nat → Nat} {before head : Nat} {xs : List Nat} {size fuel : Nat}
    (seg : Segment (h.get .freeNext) prev before head xs 0) (proper : 0 ∉ xs)
    (enough : xs.length < fuel) :
    searchBin h size fuel head = some (xs.find? fun x => decide (size ≤ h.get .size x)) := by
  induction xs generalizing before head fuel with
  | nil =>
      cases seg
      cases fuel with
      | zero => omega
      | succ fuel => rfl
  | cons x xs ih =>
      obtain ⟨notX, notXs⟩ := not_or.mp (mt List.mem_cons.mpr proper)
      cases seg with
      | cons back rest =>
          cases fuel with
          | zero => omega
          | succ fuel =>
              rw [searchBin, if_neg (Ne.symm notX), List.find?_cons]
              by_cases fits : size ≤ h.get .size x
              · rw [if_pos fits, decide_eq_true fits]
              · rw [if_neg fits, decide_eq_false fits]
                exact ih rest notXs (Nat.lt_of_succ_lt_succ enough)

theorem Rep.list_length (rep : Rep h blocks lists) {i : Nat} (less : i < 32) :
    (lists i).length ≤ h.brk := by
  have within : lists i ⊆ List.range h.brk := by
    intro q inside
    obtain ⟨size, member, _⟩ := (rep.filed i less q).mp inside
    have stop := (rep.inside _ member).2
    have some := (rep.sizes _ member).2
    simp only [Block.stop] at stop some
    exact List.mem_range.mpr (by omega)
  have length := (List.subperm_of_subset (rep.bins i less).unique within).length_le
  rwa [List.length_range] at length

/-- The search ends, and it finds a free block where one fits. -/
theorem Rep.searchBins (rep : Rep h blocks lists) (size : Nat) (indices : List Nat)
    (less : ∀ i ∈ indices, i < 32) : ∃ found, searchBins h size indices = some found ∧
      (∀ p, found = some p → ∃ s, ⟨p, s, true⟩ ∈ blocks ∧ size ≤ s) ∧
      (found = none → ∀ b ∈ blocks, b.free = true → binIndex b.size ∈ indices → b.size < size) := by
  induction indices with
  | nil =>
      refine ⟨none, rfl, ?_, ?_⟩
      · intro p some
        cases some
      · intro _ b _ _ inside
        exact absurd inside List.not_mem_nil
  | cons i indices ih =>
      obtain ⟨found, eq, fitting, missed⟩ := ih fun j inside => less j (List.mem_cons_of_mem i inside)
      have lessI := less i List.mem_cons_self
      have whole := rep.bins i lessI
      have search : searchBin h size (h.brk + 1) (h.bins i) = _ :=
        searchBin_find whole.segment whole.proper (Nat.lt_succ_of_le (rep.list_length lessI))
      have sizes : ∀ {p t : Nat}, ⟨p, t, true⟩ ∈ blocks → h.get .size p = t := fun {p t} member =>
        rep.size ⟨p, t, true⟩ member
      rw [NativeHeap.searchBins, search]
      cases first : (lists i).find? fun x => decide (size ≤ h.get .size x) with
      | some p =>
          refine ⟨some p, rfl, ?_, fun none => by cases none⟩
          intro q same
          cases same
          obtain ⟨s, member, _⟩ := (rep.filed i lessI p).mp (List.mem_of_find?_eq_some first)
          have fits := List.find?_some first
          rw [decide_eq_true_eq, sizes member] at fits
          exact ⟨s, member, fits⟩
      | none =>
          refine ⟨found, eq, fitting, fun missing b inB free index => ?_⟩
          rcases List.mem_cons.mp index with here | there
          · obtain ⟨place, t, _⟩ := b
            cases free
            have listed := (rep.filed i lessI place).mpr ⟨t, inB, here⟩
            have short := List.find?_eq_none.mp first place listed
            rw [decide_eq_true_eq, sizes inB] at short
            exact Nat.lt_of_not_le short
          · exact missed missing b inB free there

/-- No block that fits is missed by starting at the bin of the size. -/
theorem shifts_mono {fuel a b : Nat} (le : a ≤ b) : shifts fuel a ≤ shifts fuel b := by
  induction fuel generalizing a b with
  | zero => exact Nat.le_refl 0
  | succ fuel ih =>
      rw [shifts, shifts]
      split
      · rw [if_pos (by omega)]
        exact Nat.succ_le_succ (ih (by omega))
      · exact Nat.zero_le _

/-! The break. -/

theorem heapBreak_kept (allows : Nat → Bool) (n : Nat) (grow : Bool) :
    (heapBreak allows h n grow).2.memory = h.memory ∧ (heapBreak allows h n grow).2.tail = h.tail ∧
      (heapBreak allows h n grow).2.bins = h.bins := by
  simp only [heapBreak]
  generalize noted : (if h.origin = 0 then { h with origin := h.brk } else h) = k
  have kept : k.memory = h.memory ∧ k.tail = h.tail ∧ k.bins = h.bins := by
    rw [← noted]
    split <;> exact ⟨rfl, rfl, rfl⟩
  split
  · exact kept
  · split <;> exact kept

theorem heapBreak_grow (allows : Nat → Bool) (n : Nat) :
    (word - 1 - h.brk < n ∨ allows (h.brk + n) = false) ∧ (heapBreak allows h n true).1 = 0 ∧
        (heapBreak allows h n true).2.brk = h.brk ∨
      (n ≤ word - 1 - h.brk ∧ allows (h.brk + n) = true) ∧ (heapBreak allows h n true).1 = h.brk ∧
        (heapBreak allows h n true).2.brk = h.brk + n := by
  simp only [heapBreak, Bool.not_true, Bool.false_eq_true, if_false]
  generalize noted : (if h.origin = 0 then { h with origin := h.brk } else h) = k
  have kept : k.brk = h.brk := by
    rw [← noted]
    split <;> rfl
  by_cases less : word - 1 - h.brk < n
  · simp [less, kept]
  · cases allowed : allows (h.brk + n) with
    | false => simp [kept]
    | true => simp [less, Nat.le_of_not_lt less]

theorem heapBreak_here (allows : Nat → Bool) (n : Nat) :
    (heapBreak allows h n false).1 = h.brk ∧ (heapBreak allows h n false).2.brk = h.brk := by
  simp only [heapBreak, Bool.not_false, if_true, true_and]
  split <;> rfl

theorem get_memory {after : Heap} (same : after.memory = h.memory) (f : Field) (b : Nat) :
    after.get f b = h.get f b := by
  rw [Heap.get, Heap.get, same]

/-! Allocation. -/

theorem Change.trans {middle after : Heap} {later last : List Block} (first : Change h middle blocks later)
    (second : Change middle after later last)
    (within : ∀ c ∈ places later, c ∈ places blocks ∨ c ∈ places last) : Change h after blocks last := by
  refine ⟨?_, Nat.le_trans first.grown second.grown, fun q => ?_⟩
  · refine (first.quiet.mono fun c inside => ?_).trans (second.quiet.mono fun c inside => ?_)
    · rcases List.mem_append.mp inside with before | after
      · exact List.mem_append_left _ before
      · exact List.mem_append.mpr (within c after)
    · rcases List.mem_append.mp inside with before | after
      · exact List.mem_append.mpr (within c before)
      · exact List.mem_append_right _ after
  · have grown := first.grown
    have grown' := second.grown
    rw [second.cover, first.cover, or_assoc]
    refine or_congr_right ?_
    omega

def Parts (p s s' : Nat) (new : List Block) : Prop :=
  (new = [] ∧ s' = s) ∨ ∃ t, new = [⟨p + headerSize + s', t, true⟩] ∧ s' + headerSize + t = s

theorem Parts.covered {s' : Nat} {new : List Block} (parts : Parts p s s' new) (free : Bool) (q : Nat) :
    Covered (l ++ ⟨p, s', false⟩ :: (new ++ r)) q ↔ Covered (l ++ ⟨p, s, free⟩ :: r) q := by
  rcases parts with ⟨rfl, rfl⟩ | ⟨t, rfl, total⟩
  · simp only [covered_middle, List.nil_append, Block.stop]
  · rw [List.singleton_append, covered_middle, covered_middle, covered_middle]
    simp only [Block.stop]
    constructor
    · rintro ((inside | inside) | inside)
      · exact .inl inside
      · exact .inr (by omega)
      · exact .inr (by omega)
    · rintro (inside | inside)
      · exact .inl (.inl inside)
      · by_cases before : q < p + headerSize + s'
        · exact .inr ⟨inside.1, before⟩
        · exact .inl (.inr (by omega))

theorem Parts.merged {s' : Nat} {new : List Block} (parts : Parts p s s' new) (left : Merged l)
    (right : Merged r) (clear : ∀ c ∈ r.head?, c.free = true → p + headerSize + s ≠ c.place) :
    Merged (l ++ ⟨p, s', false⟩ :: (new ++ r)) := by
  refine merged_middle.mpr ⟨left, ?_, fun free => nomatch free⟩
  rcases parts with ⟨rfl, rfl⟩ | ⟨t, rfl, total⟩
  · exact right
  · have none : Merged [] := .nil
    refine (merged_middle (l := [])).mpr ⟨none, right, fun _ => ⟨?_, ?_⟩⟩
    · intro b missing
      cases missing
    intro c first free
    have away := clear c first free
    simp only [Block.stop]
    omega

theorem Parts.members {s' : Nat} {new : List Block} (parts : Parts p s s' new) (taken : b.free = false) :
    b ∈ l ++ ⟨p, s', false⟩ :: (new ++ r) ↔ b = ⟨p, s', false⟩ ∨ b ∈ l ++ r := by
  rcases parts with ⟨rfl, rfl⟩ | ⟨t, rfl, total⟩
  · exact Rep.mem_middle
  · have other : b ≠ ⟨p + headerSize + s', t, true⟩ := by
      rintro rfl
      cases taken
    simp only [List.mem_append, List.mem_cons, List.singleton_append, other, false_or]
    grind

/-- One block is new among the allocated ones. -/
def Allocates (blocks later : List Block) (p s : Nat) : Prop :=
  (∀ t, ⟨p, t, false⟩ ∉ blocks) ∧
    ∀ b : Block, b.free = false → (b ∈ later ↔ b = ⟨p, s, false⟩ ∨ b ∈ blocks)

def NoneFits (blocks : List Block) (size : Nat) : Prop :=
  ∀ b ∈ blocks, b.free = true → b.size < rounded (max size 1)

/-- `malloc` has no room for a request: it is too large for the arithmetic, or no free block is as
large and the break cannot go on. -/
def NoRoom (allows : Nat → Bool) (h : Heap) (blocks : List Block) (size : Nat) : Prop :=
  word - 1 - 7 - headerSize < size ∨
    NoneFits blocks size ∧
      (word - 1 - h.brk < headerSize + rounded (max size 1) ∨
        allows (h.brk + (headerSize + rounded (max size 1))) = false)

theorem Change.refl : Change h h blocks blocks :=
  ⟨.refl, Nat.le_refl _, fun q => ⟨.inl, fun either => either.elim id fun both => by omega⟩⟩

theorem rounded_aligned {size : Nat} (some : 0 < size) :
    size ≤ rounded size ∧ rounded size ≤ size + 7 ∧ rounded size % 8 = 0 ∧ 0 < rounded size := by
  rw [rounded]
  omega

theorem Rep.payload (rep : Rep h blocks lists) (inside : b ∈ blocks) :
    payload b.place = b.place + headerSize := by
  have stop := (rep.inside b inside).2
  have small := rep.small
  simp only [Block.stop] at stop
  exact Nat.mod_eq_of_lt (by omega)

theorem take_spec {size : Nat} (good : Good h blocks) (member : ⟨p, s, true⟩ ∈ blocks)
    (fits : size ≤ s) (aligned : size % 8 = 0 ∧ 0 < size) :
    ∃ later s', Good ((h.removeFree p).splitBlock p size) later ∧
      Change h ((h.removeFree p).splitBlock p size) blocks later ∧
      ((h.removeFree p).splitBlock p size).brk = h.brk ∧ size ≤ s' ∧ Allocates blocks later p s' := by
  obtain ⟨⟨lists, rep⟩, merged⟩ := good
  obtain ⟨l, r, rfl⟩ := List.append_of_mem member
  obtain ⟨removed, quiet⟩ := rep.removeFree
  obtain ⟨s', new, lists', split, more, quiet', brk, parts⟩ := removed.splitBlock fits aligned
  have brk' := brk.trans removeFree_rest.2
  obtain ⟨left, right, sides⟩ := merged_middle.mp merged
  have taken : ∀ t, ⟨p, t, false⟩ ∉ l ++ (⟨p, s, true⟩ : Block) :: r := by
    intro t inside
    have same := rep.same inside member rfl
    cases same
  refine ⟨l ++ ⟨p, s', false⟩ :: (new ++ r), s', ⟨⟨lists', split⟩,
    Parts.merged parts left right (sides rfl).2⟩, ⟨?_, Nat.le_of_eq brk'.symm, fun q => ?_⟩, brk', more,
    taken, fun b free => ?_⟩
  · exact (quiet.mono fun c inside => List.mem_append_left _ inside).trans
      (quiet'.mono fun c inside => List.mem_append_right _ inside)
  · rw [Parts.covered parts true q, brk']
    exact ⟨.inl, fun either => either.elim id fun both => by omega⟩
  · rw [Parts.members parts free, Rep.mem_middle]
    have other : b ≠ ⟨p, s, true⟩ := by
      rintro rfl
      cases free
    simp only [other, false_or]

theorem append_spec {size : Nat} (allows : Nat → Bool) (good : Good h blocks)
    (aligned : size % 8 = 0 ∧ 0 < size) :
    ∃ out after later, appendBlock allows h size = (out, after) ∧ Good after later ∧
      Change h after blocks later ∧
      ((out = 0 ∧ later = blocks ∧ after.brk = h.brk ∧ (word - 1 - h.brk < headerSize + size ∨
          allows (h.brk + (headerSize + size)) = false)) ∨
        (out = h.brk + headerSize ∧ Allocates blocks later h.brk size)) := by
  obtain ⟨⟨lists, rep⟩, merged⟩ := good
  have kept := heapBreak_kept (h := h) allows (headerSize + size) true
  have grow := heapBreak_grow (h := h) allows (headerSize + size)
  rw [appendBlock]
  generalize heapBreak allows h (headerSize + size) true = result at kept grow ⊢
  obtain ⟨start, k⟩ := result
  obtain ⟨memory, tail, bins⟩ := kept
  rcases grow with ⟨refused, none, brk⟩ | ⟨allowed, place, brk⟩
  · refine ⟨0, k, blocks, if_pos none, ⟨⟨lists, ?_⟩, merged⟩, ⟨fun q _ => ?_, ?_, fun q => ?_⟩,
      .inl ⟨rfl, rfl, brk, refused⟩⟩
    · refine rep.congr (fun f c _ => get_memory memory f c) tail bins (Nat.le_of_eq brk.symm) ?_
      rw [brk]
      exact rep.small
    · exact congrFun memory q
    · exact Nat.le_of_eq brk.symm
    · rw [brk]
      exact ⟨.inl, fun either => either.elim id fun both => by omega⟩
  · have started := rep.started
    have small := rep.small
    simp only at memory tail bins place brk
    have grown : Rep k blocks lists := by
      refine rep.congr (fun f c _ => get_memory memory f c) tail bins ?_ ?_
      · rw [brk]
        exact Nat.le_add_right _ _
      · rw [brk]
        omega
    have stops : ∀ b ∈ blocks, b.stop ≤ h.brk := fun b inB => (rep.inside b inB).2
    obtain ⟨appended, quiet⟩ := grown.appendHeader started stops
      (by rw [brk, Nat.add_assoc]) aligned
    have brk' := ((appendHeader_rest (h := k) (b := h.brk) size).2.2).trans brk
    refine ⟨payload h.brk, k.appendHeader h.brk size, blocks ++ [⟨h.brk, size, false⟩], ?_,
      ⟨⟨lists, appended⟩, ?_⟩, ⟨fun q outside => ?_, ?_, fun q => ?_⟩,
      .inr ⟨?_, fun t inside => ?_, fun b _ => ?_⟩⟩
    · rw [place]
      exact if_neg (Nat.pos_iff_ne_zero.mp started)
    · exact merged_middle.mpr ⟨merged, .nil, fun free => nomatch free⟩
    · rw [quiet q fun c inC => outside c (List.mem_append_right _ inC), memory]
    · rw [brk']
      exact Nat.le_add_right _ _
    · rw [covered_middle, List.append_nil, brk']
      simp only [Block.stop, Nat.add_assoc]
    · exact Rep.payload (b := ⟨h.brk, size, false⟩) appended (by simp)
    · have stop := stops _ inside
      simp only [Block.stop, headerSize] at stop
      omega
    · simp only [List.mem_append, List.mem_singleton]
      exact or_comm

/-- `malloc` always returns: a block of its own that is large enough, or 0 and the blocks as they
were, and 0 only where there is no room. The break moves on only where nothing fits. -/
theorem malloc_spec (allows : Nat → Bool) (size : Nat) (good : Good h blocks) :
    ∃ out after later, malloc allows h size = some (out, after) ∧ Good after later ∧
      Change h after blocks later ∧
      ((out = 0 ∧ later = blocks ∧ after.brk = h.brk ∧ NoRoom allows h blocks size) ∨
        ∃ p s, out = p + headerSize ∧ size ≤ s ∧ Allocates blocks later p s ∧
          (after.brk = h.brk ∨ NoneFits blocks size)) := by
  have asked : (if size = 0 then 1 else size) = max size 1 := by
    split <;> omega
  have enormous : word - 1 - 7 - headerSize < max size 1 ↔ word - 1 - 7 - headerSize < size := by
    simp only [word, headerSize]
    omega
  rw [malloc]
  simp only [asked, enormous]
  by_cases large : word - 1 - 7 - headerSize < size
  · rw [if_pos large]
    exact ⟨0, h, blocks, rfl, good, .refl, .inl ⟨rfl, rfl, rfl, .inl large⟩⟩
  · obtain ⟨more, most, aligned⟩ := rounded_aligned (by omega : 0 < max size 1)
    have small : rounded (max size 1) < word := by
      simp only [word, headerSize] at large ⊢
      omega
    rw [if_neg large]
    obtain ⟨⟨lists, rep⟩, merged⟩ := good
    obtain ⟨found, eq, fits, missed⟩ := rep.searchBins (rounded (max size 1))
      (List.range' (binIndex (rounded (max size 1))) (32 - binIndex (rounded (max size 1)))) (fun i inside => by
          rw [List.mem_range'_1] at inside
          omega)
    rw [eq]
    cases found with
    | some p =>
        obtain ⟨s, member, enough⟩ := fits p rfl
        obtain ⟨later, s', good, change, brk, more', allocates⟩ :=
          take_spec ⟨⟨lists, rep⟩, merged⟩ member enough aligned
        exact ⟨_, _, later, rfl, good, change,
          .inr ⟨p, s', rep.payload member, by omega, allocates, .inl brk⟩⟩
    | none =>
        obtain ⟨out, after, later, eq, good, change, result⟩ :=
          append_spec allows ⟨⟨lists, rep⟩, merged⟩ aligned
        have none : NoneFits blocks size := by
          intro b inB free
          by_contra short
          have le : binIndex (rounded (max size 1)) ≤ binIndex b.size :=
            shifts_mono (Nat.le_of_not_lt short)
          have less := Rep.binIndex_less (rep.size_small inB)
          refine short (missed rfl b inB free ?_)
          rw [List.mem_range'_1]
          omega
        refine ⟨out, after, later, congrArg some eq, good, change, ?_⟩
        rcases result with ⟨null, same, brk, refused⟩ | ⟨new, allocates⟩
        · exact .inl ⟨null, same, brk, .inr ⟨none, refused⟩⟩
        · exact .inr ⟨h.brk, rounded (max size 1), new, by omega, allocates, .inr none⟩

/-! Merging. -/

/-- A block has taken in the one behind it, or not. -/
def JoinsNext (p s : Nat) (r : List Block) (s' : Nat) (r' : List Block) : Prop :=
  (r' = r ∧ s' = s) ∨ ∃ t, r = ⟨p + headerSize + s, t, true⟩ :: r' ∧ s' = s + (headerSize + t)

/-- A block has joined the one in front of it, or not. -/
def JoinsPrev (l : List Block) (p s : Nat) (l' : List Block) (p' s' : Nat) : Prop :=
  (l' = l ∧ p' = p ∧ s' = s) ∨ ∃ t, l = l' ++ [⟨p', t, true⟩] ∧ p' + headerSize + t = p ∧
    s' = t + (headerSize + s)

theorem JoinsNext.covered {s' : Nat} {r' : List Block} (joins : JoinsNext p s r s' r')
    (free free' : Bool) (q : Nat) :
    Covered (l ++ ⟨p, s', free'⟩ :: r') q ↔ Covered (l ++ ⟨p, s, free⟩ :: r) q := by
  rcases joins with ⟨rfl, rfl⟩ | ⟨t, rfl, rfl⟩
  · simp only [covered_middle, Block.stop]
  · have regroup : l ++ (⟨p, s, free⟩ : Block) :: ⟨p + headerSize + s, t, true⟩ :: r' =
        (l ++ [⟨p, s, free⟩]) ++ ⟨p + headerSize + s, t, true⟩ :: r' := by simp
    rw [regroup, covered_middle, covered_middle, List.append_assoc, List.singleton_append,
      covered_middle, or_assoc]
    refine or_congr_right ?_
    simp only [Block.stop]
    omega

theorem JoinsNext.members {s' : Nat} {r' : List Block} (joins : JoinsNext p s r s' r')
    (taken : b.free = false) : b ∈ r' ↔ b ∈ r := by
  rcases joins with ⟨rfl, rfl⟩ | ⟨t, rfl, rfl⟩
  · rfl
  · have other : b ≠ ⟨p + headerSize + s, t, true⟩ := by
      rintro rfl
      cases taken
    simp only [List.mem_cons, other, false_or]

theorem JoinsPrev.covered {l' : List Block} {p' s' : Nat} (joins : JoinsPrev l p s l' p' s')
    (free free' : Bool) (q : Nat) :
    Covered (l' ++ ⟨p', s', free'⟩ :: r) q ↔ Covered (l ++ ⟨p, s, free⟩ :: r) q := by
  rcases joins with ⟨rfl, rfl, rfl⟩ | ⟨t, rfl, rfl, rfl⟩
  · simp only [covered_middle, Block.stop]
  · rw [covered_middle, covered_middle, List.append_assoc, List.singleton_append, covered_middle,
      or_assoc]
    refine or_congr_right ?_
    simp only [Block.stop]
    omega

theorem JoinsPrev.members {l' : List Block} {p' s' : Nat} (joins : JoinsPrev l p s l' p' s')
    (taken : b.free = false) : b ∈ l' ↔ b ∈ l := by
  rcases joins with ⟨rfl, rfl, rfl⟩ | ⟨t, rfl, rfl, rfl⟩
  · rfl
  · have other : b ≠ ⟨p', t, true⟩ := by
      rintro rfl
      cases taken
    simp only [List.mem_append, List.mem_singleton, other, or_false]

namespace Rep

/-- An allocated block takes in the free one behind it. -/
theorem takeIn {q t : Nat} (rep : Rep h (l ++ ⟨p, s, false⟩ :: ⟨q, t, true⟩ :: r) lists)
    (touch : p + headerSize + s = q) : ∃ lists',
    Rep ((h.removeFree q).joinNext p) (l ++ ⟨p, s + (headerSize + t), false⟩ :: r) lists' ∧
      Quiet h ((h.removeFree q).joinNext p) (places (l ++ ⟨p, s, false⟩ :: ⟨q, t, true⟩ :: r)) ∧
      ((h.removeFree q).joinNext p).brk = h.brk := by
  have regroup : l ++ (⟨p, s, false⟩ : Block) :: ⟨q, t, true⟩ :: r =
      (l ++ [⟨p, s, false⟩]) ++ ⟨q, t, true⟩ :: r := by simp
  rw [regroup] at rep
  obtain ⟨removed, quiet⟩ := rep.removeFree
  rw [← regroup] at quiet
  have regroup' : (l ++ [(⟨p, s, false⟩ : Block)]) ++ ⟨q, t, false⟩ :: r =
      l ++ ⟨p, s, false⟩ :: ⟨q, t, false⟩ :: r := by simp
  rw [regroup'] at removed
  obtain ⟨joined, quiet'⟩ := removed.joinNext touch
  refine ⟨_, joined, quiet.trans (quiet'.mono fun c inside => ?_), ?_⟩
  · simp only [places, List.map_append, List.map_cons, List.mem_append, List.mem_cons] at inside ⊢
    grind
  · rw [joinNext_rest.2, removeFree_rest.2]

theorem mergeNext (rep : Rep h (l ++ ⟨p, s, false⟩ :: r) lists) (right : Merged r) :
    ∃ r' s' lists', Rep (NativeHeap.mergeNext h p) (l ++ ⟨p, s', false⟩ :: r') lists' ∧
      Quiet h (NativeHeap.mergeNext h p) (places (l ++ ⟨p, s, false⟩ :: r)) ∧
      (NativeHeap.mergeNext h p).brk = h.brk ∧ Merged r' ∧
      (∀ c ∈ r'.head?, c.free = true → p + headerSize + s' ≠ c.place) ∧
      JoinsNext p s r s' r' := by
  have member : (⟨p, s, false⟩ : Block) ∈ l ++ ⟨p, s, false⟩ :: r :=
    List.mem_append_right l List.mem_cons_self
  have stop := (rep.inside _ member).2
  have small := rep.small
  simp only [Block.stop] at stop
  have sizeP : h.get .size p = s := rep.size ⟨p, s, false⟩ member
  have place : behind p s = p + headerSize + s := Nat.mod_eq_of_lt (by omega)
  obtain ⟨head, chain⟩ := rep.chain
  have split : places (l ++ ⟨p, s, false⟩ :: r) = places l ++ p :: places r := by simp
  rw [split] at chain
  have next := chain.links.2
  rw [NativeHeap.mergeNext]
  simp only [next, sizeP, place]
  cases r with
  | nil =>
      refine ⟨[], s, lists, rep, .refl, rfl, right, ?_, .inl ⟨rfl, rfl⟩⟩
      intro c none
      cases none
  | cons c r =>
      have inC : c ∈ l ++ (⟨p, s, false⟩ : Block) :: c :: r := by simp
      have some : c.place ≠ 0 := Nat.pos_iff_ne_zero.mp (rep.inside c inC).1
      have available := rep.available c inC
      rw [places, List.map_cons, List.headD_cons, available]
      obtain ⟨q, t, free⟩ := c
      cases free with
      | false =>
          rw [if_neg (fun all => all.2.1 rfl)]
          refine ⟨⟨q, t, false⟩ :: r, s, lists, rep, .refl, rfl, right, ?_, .inl ⟨rfl, rfl⟩⟩
          rintro c ⟨rfl⟩ free
          cases free
      | true =>
          by_cases touch : p + headerSize + s = q
          · subst touch
            obtain ⟨lists', joined, quiet, brk⟩ := rep.takeIn rfl
            have after : Merged r ∧ _ := ((merged_middle (l := [])).mp right).2
            rw [if_pos ⟨some, Nat.one_ne_zero, rfl⟩]
            refine ⟨r, s + (headerSize + t), lists', joined, quiet, brk, after.1, ?_,
              .inr ⟨t, rfl, rfl⟩⟩
            intro c first free
            have away := (after.2 rfl).2 c first free
            simp only [Block.stop] at away
            omega
          · rw [if_neg fun all => touch all.2.2]
            refine ⟨⟨q, t, true⟩ :: r, s, lists, rep, .refl, rfl, right, ?_, .inl ⟨rfl, rfl⟩⟩
            rintro c ⟨rfl⟩ _
            exact touch

theorem mergePrev (rep : Rep h (l ++ ⟨p, s, false⟩ :: r) lists) (left : Merged l) :
    ∃ l' p' s' lists', (NativeHeap.mergePrev h p).2 = p' ∧
      Rep (NativeHeap.mergePrev h p).1 (l' ++ ⟨p', s', false⟩ :: r) lists' ∧
      Quiet h (NativeHeap.mergePrev h p).1 (places (l ++ ⟨p, s, false⟩ :: r)) ∧
      (NativeHeap.mergePrev h p).1.brk = h.brk ∧ Merged l' ∧
      (∀ c ∈ l'.getLast?, c.free = true → c.stop ≠ p') ∧
      JoinsPrev l p s l' p' s' := by
  obtain ⟨head, chain⟩ := rep.chain
  have split : places (l ++ ⟨p, s, false⟩ :: r) = places l ++ p :: places r := by simp
  rw [split] at chain
  have prev := chain.links.1
  rw [NativeHeap.mergePrev]
  simp only [prev]
  rcases List.eq_nil_or_concat' l with rfl | ⟨l, c, rfl⟩
  · refine ⟨[], p, s, lists, rfl, rep, .refl, rfl, left, ?_, .inl ⟨rfl, rfl, rfl⟩⟩
    intro c none
    cases none
  · have inC : c ∈ (l ++ [c]) ++ (⟨p, s, false⟩ : Block) :: r := by simp
    have some : c.place ≠ 0 := Nat.pos_iff_ne_zero.mp (rep.inside c inC).1
    have available := rep.available c inC
    have size := rep.size c inC
    have stop := (rep.inside c inC).2
    have small := rep.small
    have place : behind c.place c.size = c.stop := Nat.mod_eq_of_lt (by
      simp only [Block.stop] at stop
      omega)
    have last : (places (l ++ [c])).getLastD 0 = c.place := by
      rw [places, List.map_append, List.map_singleton, List.getLastD_concat]
    rw [last, available, size, place]
    obtain ⟨q, t, free⟩ := c
    cases free with
    | false =>
        rw [if_neg (fun all => all.2.1 rfl)]
        refine ⟨l ++ [⟨q, t, false⟩], p, s, lists, rfl, rep, .refl, rfl, left, ?_,
          .inl ⟨rfl, rfl, rfl⟩⟩
        intro c first free
        rw [List.getLast?_concat] at first
        cases first
        cases free
    | true =>
        by_cases touch : q + headerSize + t = p
        · subst touch
          have regroup : (l ++ [(⟨q, t, true⟩ : Block)]) ++ ⟨q + headerSize + t, s, false⟩ :: r =
              l ++ ⟨q, t, true⟩ :: ⟨q + headerSize + t, s, false⟩ :: r := by simp
          rw [regroup] at rep
          obtain ⟨removed, quiet⟩ := rep.removeFree
          obtain ⟨joined, quiet'⟩ := removed.joinNext rfl
          have before : Merged l ∧ _ := merged_middle.mp left
          rw [if_pos ⟨some, Nat.one_ne_zero, rfl⟩, regroup]
          refine ⟨l, q, t + (headerSize + s), _, rfl, joined,
            quiet.trans (quiet'.mono fun c inside => ?_), ?_, before.1, (before.2.2 rfl).1,
            .inr ⟨t, rfl, rfl, rfl⟩⟩
          · simp only [places, List.map_append, List.map_cons, List.mem_append, List.mem_cons]
              at inside ⊢
            grind
          · rw [joinNext_rest.2, removeFree_rest.2]
        · rw [if_neg fun all => touch all.2.2]
          refine ⟨l ++ [⟨q, t, true⟩], p, s, lists, rfl, rep, .refl, rfl, left, ?_,
            .inl ⟨rfl, rfl, rfl⟩⟩
          intro c first _
          rw [List.getLast?_concat] at first
          cases first
          exact touch

end Rep

def Frees (blocks later : List Block) (p s : Nat) : Prop :=
  ∀ b : Block, b.free = false → (b ∈ later ↔ b ∈ blocks ∧ b ≠ ⟨p, s, false⟩)

theorem Rep.header (rep : Rep h blocks lists) (inside : b ∈ blocks) :
    header (b.place + headerSize) = b.place := by
  have small := rep.place_small (List.mem_map_of_mem (f := Block.place) inside)
  rw [NativeHeap.header, sub]
  simp only [word, headerSize] at small ⊢
  omega

/-- The block that is freed and the free blocks at its two ends become one. -/
theorem free_spec (good : Good h blocks) (member : ⟨p, s, false⟩ ∈ blocks) :
    ∃ later, Good (free h (p + headerSize)) later ∧ Change h (free h (p + headerSize)) blocks later ∧
      (free h (p + headerSize)).brk = h.brk ∧ Frees blocks later p s := by
  obtain ⟨⟨lists, rep⟩, merged⟩ := good
  have header := rep.header member
  obtain ⟨l, r, rfl⟩ := List.append_of_mem member
  obtain ⟨left, right, _⟩ := merged_middle.mp merged
  obtain ⟨l', p', s', lists', place, first, quiet, brk, left', clearL, shapeL⟩ := rep.mergePrev left
  obtain ⟨r', s'', lists'', second, quiet', brk', right', clearR, shapeR⟩ := first.mergeNext right
  obtain ⟨inserted, quiet''⟩ := second.insertFree
  have result : free h (p + headerSize) =
      (mergeNext (mergePrev h p).1 p').insertFree p' := by
    have some : p + headerSize ≠ 0 := Nat.succ_ne_zero _
    simp only at header
    rw [free, if_neg some, header, ← place]
  have brk'' : (free h (p + headerSize)).brk = h.brk := by
    rw [result, (insertFree_rest _ rfl).2.2, brk', brk]
  rw [← result] at inserted quiet''
  have places' : ∀ c ∈ places (l' ++ ⟨p', s', false⟩ :: r),
      c ∈ places (l ++ (⟨p, s, false⟩ : Block) :: r) := by
    intro c inside
    rcases shapeL with ⟨rfl, rfl, rfl⟩ | ⟨t, rfl, rfl, rfl⟩
    · exact inside
    · simp only [places, List.map_append, List.map_cons, List.mem_append, List.mem_cons] at inside ⊢
      grind
  have places'' : ∀ c ∈ places (l' ++ ⟨p', s'', false⟩ :: r'),
      c ∈ places (l ++ (⟨p, s, false⟩ : Block) :: r) := by
    intro c inside
    refine places' c ?_
    rcases shapeR with ⟨rfl, rfl⟩ | ⟨t, rfl, rfl⟩
    · simpa using inside
    · simp only [places, List.map_append, List.map_cons, List.mem_append, List.mem_cons] at inside ⊢
      grind
  have distinct : ∀ b ∈ l ++ r, b ≠ ⟨p, s, false⟩ := fun b inB same =>
    Rep.middle_place rep.ordered inB (congrArg Block.place same)
  refine ⟨l' ++ ⟨p', s'', true⟩ :: r', ⟨⟨_, inserted⟩, ?_⟩, ⟨?_, Nat.le_of_eq brk''.symm, fun q => ?_⟩,
    brk'', fun b taken => ?_⟩
  · exact merged_middle.mpr ⟨left', right', fun _ => ⟨clearL, clearR⟩⟩
  · refine (quiet.trans ((quiet'.mono places').trans (quiet''.mono places''))).mono fun c inside => ?_
    exact List.mem_append_left _ inside
  · rw [brk'']
    rw [shapeR.covered false true q, shapeL.covered false false q]
    exact ⟨.inl, fun either => either.elim id fun both => by omega⟩
  · have freed : b ≠ ⟨p', s'', true⟩ := by
      rintro rfl
      cases taken
    rw [Rep.mem_middle, Rep.mem_middle]
    simp only [freed, false_or, List.mem_append, shapeL.members taken, shapeR.members taken]
    constructor
    · intro inside
      exact ⟨.inr inside, distinct b (List.mem_append.mpr inside)⟩
    · rintro ⟨same | inside, other⟩
      · exact absurd same other
      · exact inside

/-! Growth in place. -/

namespace Rep

theorem resizeLast {size : Nat} (rep : Rep h (l ++ [⟨p, s, false⟩]) lists)
    (room : p + headerSize + size ≤ h.brk) (aligned : size % 8 = 0 ∧ 0 < size) :
    Rep (h.put .size p size) (l ++ [⟨p, size, false⟩]) lists ∧
      Quiet h (h.put .size p size) (places (l ++ [⟨p, s, false⟩])) := by
  have member : (⟨p, s, false⟩ : Block) ∈ l ++ [⟨p, s, false⟩] := by simp
  have hp : p ∈ places (l ++ [⟨p, s, false⟩]) := List.mem_map_of_mem (f := Block.place) member
  have small := rep.small
  have fields : ∀ f', ∀ c ∈ places (l ++ [(⟨p, s, false⟩ : Block)]), (h.put .size p size).get f' c =
      if f' = .size ∧ c = p then size else h.get f' c := fun f' c inC =>
    get_put rep.apart hp inC (by omega)
  have others : ∀ c ∈ l, c ∈ l ++ [(⟨p, s, false⟩ : Block)] ∧
      c.place ∈ places (l ++ [(⟨p, s, false⟩ : Block)]) ∧ c.place ≠ p := fun c inC =>
    ⟨List.mem_append_left _ inC, List.mem_map_of_mem (f := Block.place) (List.mem_append_left _ inC),
      middle_place (b := ⟨p, s, false⟩) rep.ordered (List.mem_append_left [] inC)⟩
  have members : ∀ c, c ∈ l ++ [⟨p, size, false⟩] → c ∈ l ∨ c = ⟨p, size, false⟩ := by
    intro c inC
    simpa using inC
  have sameP : places (l ++ [⟨p, size, false⟩]) = places (l ++ [⟨p, s, false⟩]) := by simp
  refine ⟨?_, quiet_put hp⟩
  refine
    { started := rep.started
      small := rep.small
      ordered := ?_
      inside := ?_
      sizes := ?_
      size := ?_
      available := ?_
      chain := ?_
      tail := ?_
      bins := ?_
      filed := ?_ }
  · have ordered := rep.ordered
    rw [List.pairwise_append] at ordered ⊢
    refine ⟨ordered.1, List.pairwise_singleton _ _, fun c inC x inX => ?_⟩
    have before := ordered.2.2 c inC ⟨p, s, false⟩ List.mem_cons_self
    rw [List.mem_singleton.mp inX]
    exact before
  · intro c inC
    rcases members c inC with inC | rfl
    · exact rep.inside c (others c inC).1
    · exact ⟨(rep.inside _ member).1, room⟩
  · intro c inC
    rcases members c inC with inC | rfl
    · exact rep.sizes c (others c inC).1
    · exact aligned
  · intro c inC
    rcases members c inC with inC | rfl
    · rw [fields .size c.place (others c inC).2.1, if_neg (fun both => (others c inC).2.2 both.2)]
      exact rep.size c (others c inC).1
    · rw [fields .size p hp, if_pos ⟨rfl, rfl⟩]
  · intro c inC
    rcases members c inC with inC | rfl
    · rw [fields .available c.place (others c inC).2.1, if_neg (fun both => nomatch both.1)]
      exact rep.available c (others c inC).1
    · rw [fields .available p hp, if_neg (fun both => nomatch both.1)]
      exact rep.available ⟨p, s, false⟩ member
  · obtain ⟨head, chain⟩ := rep.chain
    rw [sameP]
    refine ⟨head, chain.congr (fun c inC => ?_) fun c inC => ?_⟩
    · rw [fields .next c inC, if_neg (fun both => nomatch both.1)]
    · rw [fields .prev c inC, if_neg (fun both => nomatch both.1)]
  · rw [put_tail, sameP]
    exact rep.tail
  · intro i less
    refine (rep.bins i less).congr (fun c inC => ?_) fun c inC => ?_
    · rw [fields .freeNext c (rep.listed less inC), if_neg (fun both => nomatch both.1)]
    · rw [fields .freePrev c (rep.listed less inC), if_neg (fun both => nomatch both.1)]
  · intro i less c
    rw [rep.filed i less c]
    simp

/-- The memory between the headers does not matter. -/
theorem setMemory {memory : Memory} (rep : Rep h blocks lists)
    (headers : ∀ c ∈ places blocks, ∀ q, c ≤ q → q < c + headerSize → memory q = h.memory q) :
    Rep (h.setMemory memory) blocks lists := by
  refine rep.congr (fun f c inC => ?_) rfl rfl (Nat.le_refl _) rep.small
  have within : f.offset + 4 ≤ headerSize := by cases f <;> simp [Field.offset, headerSize]
  have same : read32 memory (c + f.offset) = read32 h.memory (c + f.offset) := by
    rw [read32, read32, headers c inC _ (by omega) (by omega),
      headers c inC _ (by omega) (by omega), headers c inC _ (by omega) (by omega),
      headers c inC _ (by omega) (by omega)]
  exact congrArg BitVec.toNat same

end Rep

def Resizes (blocks later : List Block) (p s s' : Nat) : Prop :=
  ∀ b : Block, b.free = false → (b ∈ later ↔ b = ⟨p, s', false⟩ ∨ (b ∈ blocks ∧ b ≠ ⟨p, s, false⟩))

structure Noted (h after : Heap) : Prop where
  memory : after.memory = h.memory
  tail : after.tail = h.tail
  bins : after.bins = h.bins
  brk : after.brk = h.brk

theorem Good.noted {after : Heap} (good : Good h blocks) (noted : Noted h after) :
    Good after blocks ∧ Change h after blocks blocks := by
  obtain ⟨⟨lists, rep⟩, merged⟩ := good
  refine ⟨⟨⟨lists, rep.congr (fun f c _ => get_memory noted.memory f c) noted.tail noted.bins
    (Nat.le_of_eq noted.brk.symm) (noted.brk ▸ rep.small)⟩, merged⟩,
    ⟨fun q _ => congrFun noted.memory q, Nat.le_of_eq noted.brk.symm, fun q => ?_⟩⟩
  rw [noted.brk]
  exact ⟨.inl, fun either => either.elim id fun both => by omega⟩

/-- The free block behind a block is taken in where both together are large enough. -/
theorem takeIn_spec {q t size : Nat} (good : Good h (l ++ ⟨p, s, false⟩ :: ⟨q, t, true⟩ :: r))
    (touch : p + headerSize + s = q) (fits : size ≤ s + (headerSize + t))
    (aligned : size % 8 = 0 ∧ 0 < size) :
    ∃ later s', Good (((h.removeFree q).joinNext p).splitBlock p size) later ∧
      Change h (((h.removeFree q).joinNext p).splitBlock p size)
        (l ++ ⟨p, s, false⟩ :: ⟨q, t, true⟩ :: r) later ∧ size ≤ s' ∧
      Resizes (l ++ ⟨p, s, false⟩ :: ⟨q, t, true⟩ :: r) later p s s' := by
  subst touch
  obtain ⟨⟨lists, rep⟩, merged⟩ := good
  obtain ⟨left, right, _⟩ := merged_middle.mp merged
  have after : Merged r ∧ _ := ((merged_middle (l := [])).mp right).2
  obtain ⟨lists', joined, quiet, brk⟩ := rep.takeIn rfl
  obtain ⟨s', new, lists'', split, more, quiet', brk', parts⟩ := joined.splitBlock fits aligned
  have joins : JoinsNext p s (⟨p + headerSize + s, t, true⟩ :: r) (s + (headerSize + t)) r :=
    .inr ⟨t, rfl, rfl⟩
  have brk'' := brk'.trans brk
  refine ⟨l ++ ⟨p, s', false⟩ :: (new ++ r), s', ⟨⟨lists'', split⟩, ?_⟩,
    ⟨?_, Nat.le_of_eq brk''.symm, fun q => ?_⟩, more, fun b taken => ?_⟩
  · refine Parts.merged parts left after.1 fun c first free => ?_
    have away := (after.2 rfl).2 c first free
    simp only [Block.stop] at away
    omega
  · exact (quiet.mono fun c inside => List.mem_append_left _ inside).trans
      (quiet'.mono fun c inside => List.mem_append_right _ inside)
  · rw [Parts.covered parts false q, joins.covered false false q, brk'']
    exact ⟨.inl, fun either => either.elim id fun both => by omega⟩
  · have others : ∀ b ∈ l ++ ⟨p + headerSize + s, t, true⟩ :: r, b ≠ ⟨p, s, false⟩ := fun b inB same =>
      Rep.middle_place rep.ordered inB (congrArg Block.place same)
    rw [Parts.members parts taken, Rep.mem_middle]
    have same : b ∈ l ++ ⟨p + headerSize + s, t, true⟩ :: r ↔ b ∈ l ++ r := by
      rw [List.mem_append, List.mem_append, joins.members taken]
    rw [same]
    refine or_congr_right ⟨fun inside => ⟨.inr inside, others b (same.mpr inside)⟩, ?_⟩
    rintro ⟨equal | inside, other⟩
    · exact absurd equal other
    · exact inside

theorem growLast_spec (allows : Nat → Bool) {size : Nat} (good : Good h blocks)
    (member : ⟨p, s, false⟩ ∈ blocks) (more : s < size) (aligned : size % 8 = 0 ∧ 0 < size)
    (small : size < word) :
    ((growLast allows h p size).1 = 0 ∧ Noted h (growLast allows h p size).2) ∨
      (growLast allows h p size).1 ≠ 0 ∧
        ∃ later, Good ((growLast allows h p size).2.put .size p size) later ∧
          Change h ((growLast allows h p size).2.put .size p size) blocks later ∧
          Resizes blocks later p s size := by
  obtain ⟨⟨lists, rep⟩, merged⟩ := good
  have sizeP : h.get .size p = s := rep.size ⟨p, s, false⟩ member
  have stop := (rep.inside _ member).2
  have smallBrk := rep.small
  simp only [Block.stop] at stop
  have place : behind p s = p + headerSize + s := Nat.mod_eq_of_lt (by omega)
  obtain ⟨kept, kept', kept''⟩ := heapBreak_kept (h := h) allows 0 false
  obtain ⟨here, brk⟩ := heapBreak_here (h := h) allows 0
  rw [growLast]
  by_cases next : h.get .next p = 0
  · rw [if_pos next]
    generalize heapBreak allows h 0 false = result at kept kept' kept'' here brk ⊢
    obtain ⟨start, k⟩ := result
    simp only at kept kept' kept'' here brk ⊢
    have sizeK : k.get .size p = s := (get_memory kept .size p).trans sizeP
    rw [sizeK, here, place]
    by_cases atBreak : h.brk = p + headerSize + s
    · rw [if_pos atBreak]
      have left : sub size s = size - s := by
        rw [sub]
        simp only [word, headerSize] at small smallBrk stop ⊢
        omega
      rw [left]
      have kept2 := heapBreak_kept (h := k) allows (size - s) true
      have grow := heapBreak_grow (h := k) allows (size - s)
      generalize heapBreak allows k (size - s) true = result at kept2 grow ⊢
      obtain ⟨start2, k2⟩ := result
      obtain ⟨memory, tail, bins⟩ := kept2
      simp only [brk] at memory tail bins grow ⊢
      rcases grow with ⟨refused, none, brk2⟩ | ⟨allowed, start2Eq, brk2⟩
      · exact .inl ⟨none, ⟨memory.trans kept, tail.trans kept', bins.trans kept'', brk2⟩⟩
      · have started := rep.started
        refine .inr ⟨by omega, ?_⟩
        obtain ⟨l, r, rfl⟩ := List.append_of_mem member
        obtain ⟨head, chain⟩ := rep.chain
        have split : places (l ++ ⟨p, s, false⟩ :: r) = places l ++ p :: places r := by simp
        rw [split] at chain
        have last : places r = [] := by
          have outside := chain.proper
          simp only [List.mem_append, List.mem_cons, not_or] at outside
          refine (Whole.head_none outside.2.2).mp ?_
          rw [← chain.links.2]
          exact next
        cases List.map_eq_nil_iff.mp last
        have grown : Rep k2 (l ++ [⟨p, s, false⟩]) lists := by
          refine rep.congr (fun f c _ => get_memory (memory.trans kept) f c) (tail.trans kept')
            (bins.trans kept'') ?_ ?_
          · rw [brk2]
            exact Nat.le_add_right _ _
          · rw [brk2]
            omega
        obtain ⟨resized, quiet⟩ := grown.resizeLast (by omega) aligned
        have others : ∀ b ∈ l, b ≠ ⟨p, s, false⟩ := fun b inB same =>
          Rep.middle_place rep.ordered (List.mem_append_left [] inB) (congrArg Block.place same)
        refine ⟨l ++ [⟨p, size, false⟩], ⟨⟨lists, resized⟩, ?_⟩, ⟨fun q outside => ?_, ?_, fun q => ?_⟩,
          fun b _ => ?_⟩
        · obtain ⟨left, right, _⟩ := merged_middle.mp merged
          exact merged_middle.mpr ⟨left, right, fun free => absurd free Bool.false_ne_true⟩
        · rw [quiet q fun c inside => outside c (List.mem_append_left _ inside), memory, kept]
        · rw [put_brk, brk2]
          exact Nat.le_add_right _ _
        · rw [covered_middle, covered_middle, put_brk, brk2, or_assoc]
          refine or_congr_right ?_
          simp only [Block.stop]
          omega
        · simp only [List.mem_append, List.mem_singleton]
          constructor
          · rintro (inside | same)
            · exact .inr ⟨.inl inside, others b inside⟩
            · exact .inl same
          · rintro (same | ⟨inside | same, other⟩)
            · exact .inr same
            · exact .inl inside
            · exact absurd same other
    · rw [if_neg atBreak]
      exact .inl ⟨rfl, ⟨kept, kept', kept'', brk⟩⟩
  · rw [if_neg next]
    exact .inl ⟨rfl, ⟨rfl, rfl, rfl, rfl⟩⟩

/-! Copies. -/

theorem copy_outside {m : Memory} {out n q : Nat} (outside : q < out ∨ out + n ≤ q) :
    copy m out p n q = m q := by
  induction n with
  | zero => rfl
  | succ n ih =>
      rw [copy, write8, if_neg (by omega)]
      exact ih (by omega)

theorem copy_inside {m : Memory} {out n i : Nat} (apart : p + n ≤ out ∨ out + n ≤ p) (less : i < n) :
    copy m out p n (out + i) = m (p + i) := by
  induction n with
  | zero => omega
  | succ n ih =>
      rw [copy, write8]
      by_cases last : i = n
      · rw [if_pos (by omega), copy_outside (by omega), last]
      · rw [if_neg (by omega)]
        exact ih (by omega) (by omega)

theorem clear_outside {m : Memory} {n q : Nat} (outside : q < p ∨ p + n ≤ q) : clear m p n q = m q := by
  induction n with
  | zero => rfl
  | succ n ih =>
      rw [clear, write8, if_neg (by omega)]
      exact ih (by omega)

theorem clear_inside {m : Memory} {n i : Nat} (less : i < n) : clear m p n (p + i) = 0 := by
  induction n with
  | zero => omega
  | succ n ih =>
      rw [clear, write8]
      by_cases last : i = n
      · rw [if_pos (by omega)]
      · rw [if_neg (by omega)]
        exact ih (by omega)

/-- What a client writes to its own block leaves the heap well formed. -/
theorem Good.setMemory {memory : Memory} (good : Good h blocks) (member : b ∈ blocks)
    (same : ∀ q, q < b.place + headerSize ∨ b.stop ≤ q → memory q = h.memory q) :
    Good (h.setMemory memory) blocks := by
  obtain ⟨⟨lists, rep⟩, merged⟩ := good
  refine ⟨⟨lists, rep.setMemory fun c inC q start less => same q ?_⟩, merged⟩
  obtain ⟨x, inX, rfl⟩ := List.mem_map.mp inC
  have either := Rep.ordered_apart rep.ordered x inX b member
  simp only [Block.stop] at either ⊢
  rcases either with rfl | before | after
  · exact .inl less
  · omega
  · omega

/-- `realloc` of a live block gives 0 and keeps the block, or enlarges it where it is, or moves what
it holds to a new block. -/
theorem realloc_spec (allows : Nat → Bool) {size : Nat} (asked : size ≠ 0) (good : Good h blocks)
    (member : ⟨p, s, false⟩ ∈ blocks) :
    ∃ out after later, realloc allows h (p + headerSize) size = some (out, after) ∧ Good after later ∧
      ((out = 0 ∧ later = blocks ∧ Change h after blocks later ∧ NoRoom allows h blocks size) ∨
        (out = p + headerSize ∧ Change h after blocks later ∧
          ∃ s', size ≤ s' ∧ Resizes blocks later p s s') ∨
        ∃ mid middle q t, out = q + headerSize ∧ Good mid middle ∧ Change h mid blocks middle ∧
          Allocates blocks middle q t ∧ s < size ∧ size ≤ t ∧
          Change (mid.setMemory (copy mid.memory out (p + headerSize) s)) after middle later ∧
          Frees middle later p s) := by
  obtain ⟨⟨lists, rep⟩, merged⟩ := good
  have header : NativeHeap.header (p + headerSize) = p :=
    rep.header (b := ⟨p, s, false⟩) member
  have sizeP : h.get .size p = s := rep.size ⟨p, s, false⟩ member
  have stop := (rep.inside _ member).2
  have smallBrk := rep.small
  simp only [Block.stop] at stop
  have place : behind p s = p + headerSize + s := Nat.mod_eq_of_lt (by omega)
  have pointer : p + headerSize ≠ 0 := Nat.succ_ne_zero _
  rw [realloc, if_neg pointer, if_neg asked]
  simp only [header, sizeP, place]
  by_cases enough : size ≤ s
  · rw [if_pos enough]
    refine ⟨p + headerSize, h, blocks, rfl, ⟨⟨lists, rep⟩, merged⟩,
      .inr (.inl ⟨rfl, .refl, s, enough, ?_⟩)⟩
    intro b _
    by_cases same : b = ⟨p, s, false⟩
    · simp [same, member]
    · simp [same]
  · rw [if_neg enough]
    by_cases large : word - 1 - 7 - headerSize < size
    · rw [if_pos large]
      exact ⟨0, h, blocks, rfl, ⟨⟨lists, rep⟩, merged⟩, .inl ⟨rfl, rfl, .refl, .inl large⟩⟩
    · obtain ⟨more, most, aligned⟩ := rounded_aligned (Nat.pos_of_ne_zero asked)
      have small : rounded size < word := by
        simp only [word, headerSize] at large ⊢
        omega
      rw [if_neg large]
      by_cases room : h.get .next p ≠ 0 ∧ h.get .available (h.get .next p) ≠ 0 ∧
          p + headerSize + s = h.get .next p ∧
          rounded size ≤ (s + headerSize + h.get .size (h.get .next p)) % word
      · rw [if_pos room]
        obtain ⟨l, r, rfl⟩ := List.append_of_mem member
        obtain ⟨head, chain⟩ := rep.chain
        have split : places (l ++ ⟨p, s, false⟩ :: r) = places l ++ p :: places r := by simp
        rw [split] at chain
        have next := chain.links.2
        cases r with
        | nil => exact absurd next room.1
        | cons c r =>
            obtain ⟨q, t, free⟩ := c
            have inC : (⟨q, t, free⟩ : Block) ∈ l ++ ⟨p, s, false⟩ :: ⟨q, t, free⟩ :: r := by simp
            have follows : h.get .next p = q := next
            have available : h.get .available q = if free then 1 else 0 :=
              rep.available ⟨q, t, free⟩ inC
            have sizeQ : h.get .size q = t := rep.size ⟨q, t, free⟩ inC
            have stopQ := (rep.inside ⟨q, t, free⟩ inC).2
            simp only [Block.stop] at stopQ
            rw [follows, available, sizeQ] at room
            rw [follows]
            cases free with
            | false => exact absurd rfl room.2.1
            | true =>
                have total : (s + headerSize + t) % word = s + headerSize + t :=
                  Nat.mod_eq_of_lt (by omega)
                obtain ⟨later, s', good, change, fits, resizes⟩ :=
                  takeIn_spec ⟨⟨lists, rep⟩, merged⟩ room.2.2.1 (by omega) aligned
                exact ⟨p + headerSize, _, later, rfl, good,
                  .inr (.inl ⟨rfl, change, s', by omega, resizes⟩)⟩
      · rw [if_neg room]
        have grow := growLast_spec allows ⟨⟨lists, rep⟩, merged⟩ member
          (by omega : s < rounded size) aligned small
        generalize growLast allows h p (rounded size) = result at grow ⊢
        obtain ⟨start, k⟩ := result
        simp only at grow ⊢
        rcases grow with ⟨none, noted⟩ | ⟨some, later, good, change, resizes⟩
        · rw [if_neg (not_not.mpr none)]
          obtain ⟨goodK, changeK⟩ := Good.noted ⟨⟨lists, rep⟩, merged⟩ noted
          obtain ⟨out, mid, middle, eq, goodMid, changeMid, result⟩ := malloc_spec allows size goodK
          rw [eq]
          rcases result with ⟨rfl, rfl, brk, noRoom⟩ | ⟨q, t, rfl, fits, allocates, _⟩
          · refine ⟨0, mid, middle, rfl, goodMid, .inl ⟨rfl, rfl, changeK.trans changeMid fun c => .inl, ?_⟩⟩
            rw [NoRoom, ← noted.brk]
            exact noRoom
          · have taken : (⟨q, t, false⟩ : Block) ∈ middle := (allocates.2 _ rfl).mpr (.inl rfl)
            have stays : (⟨p, s, false⟩ : Block) ∈ middle := (allocates.2 _ rfl).mpr (.inr member)
            have sizeMid : mid.get .size p = s := by
              obtain ⟨⟨lists, rep⟩, _⟩ := goodMid
              exact rep.size ⟨p, s, false⟩ stays
            have copied : Good (mid.setMemory (copy mid.memory (q + headerSize) (p + headerSize) s))
                middle := by
              refine goodMid.setMemory taken fun x outside => copy_outside ?_
              simp only [Block.stop] at outside
              omega
            obtain ⟨later, good, change, _, frees⟩ := free_spec copied stays
            refine ⟨q + headerSize, _, later, ?_, good, .inr (.inr ⟨mid, middle, q, t, rfl, goodMid,
              changeK.trans changeMid fun c => .inl, allocates, by omega, fits, change, frees⟩)⟩
            have some : q + headerSize ≠ 0 := Nat.succ_ne_zero _
            simp only [Option.map_some, if_neg some, sizeMid]
        · rw [if_pos some]
          exact ⟨p + headerSize, _, later, rfl, good, .inr (.inl ⟨rfl, change, _, more, resizes⟩)⟩

end

end SymphonyPlus.NativeHeap
