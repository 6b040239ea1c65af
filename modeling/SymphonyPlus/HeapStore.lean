import SymphonyPlus.HeapCalls

/-! What the allocator is for: a store of pieces of memory that do not touch each other. The sizes
that a program asked for stand beside the heap, and the bytes of a piece are read from the memory. -/

namespace SymphonyPlus.NativeHeap

open ByteMemory Function

structure Piece where
  ours : Bool
  bytes : List (BitVec 8)

abbrev Store := Nat → Option Piece

def bytes (m : Memory) (p n : Nat) : List (BitVec 8) := (List.range n).map fun i => m (p + i)

/-- A heap and what its program has of it: for each pointer whose it is and how many bytes. -/
structure Session where
  heap : Heap
  sizes : Nat → Option (Bool × Nat)

def Session.store (s : Session) : Store := fun p =>
  (s.sizes p).map fun (ours, n) => ⟨ours, bytes s.heap.memory p n⟩

/-- The blocks are the pieces that `malloc` gave; the rest of the memory that the break has passed
are the program's own pieces. -/
structure Holds (start : Nat) (s : Session) (blocks : List Block) : Prop where
  good : Good s.heap blocks
  begun : start ≤ s.heap.brk
  owned : ∀ p n, s.sizes p = some (true, n) →
    ∃ b ∈ blocks, b.free = false ∧ p = b.place + headerSize ∧ n ≤ b.size
  known : ∀ b ∈ blocks, b.free = false → ∃ n, s.sizes (b.place + headerSize) = some (true, n)
  gaps : ∀ p n, s.sizes p = some (false, n) → 0 < n ∧ p + n ≤ s.heap.brk ∧
    ∀ q, p ≤ q → q < p + n → ¬ Covered blocks q
  apart : ∀ p m q n, s.sizes p = some (false, m) → s.sizes q = some (false, n) → p ≠ q →
    p + m ≤ q ∨ q + n ≤ p
  cover : ∀ q, (Covered blocks q ∨ ∃ p n, s.sizes p = some (false, n) ∧ p ≤ q ∧ q < p + n) ↔
    start ≤ q ∧ q < s.heap.brk

section

variable {start n p q s s' : Nat} {h after : Heap} {sizes sizes' : Nat → Option (Bool × Nat)}
  {blocks later : List Block} {b c : Block} {m m' : Memory}

@[simp] theorem bytes_length : (bytes m p n).length = n := by simp [bytes]

theorem bytes_congr (same : ∀ i, i < n → m' (p + i) = m (p + i)) : bytes m' p n = bytes m p n :=
  List.map_congr_left fun i inside => same i (List.mem_range.mp inside)

theorem Good.ordered (good : Good h blocks) : blocks.Pairwise fun b c => b.stop ≤ c.place :=
  good.1.elim fun _ rep => rep.ordered

theorem Good.inside (good : Good h blocks) (member : b ∈ blocks) : 0 < b.place ∧ b.stop ≤ h.brk :=
  good.1.elim fun _ rep => rep.inside b member

/-- A byte of the payload of a block is in no header. -/
theorem outside_headers (ordered : blocks.Pairwise fun b c => b.stop ≤ c.place) (member : b ∈ blocks)
    (low : b.place + headerSize ≤ q) (high : q < b.stop) :
    ∀ c ∈ places blocks, q < c ∨ c + headerSize ≤ q := by
  intro c inside
  obtain ⟨x, inX, rfl⟩ := List.mem_map.mp inside
  have either := Rep.ordered_apart ordered x inX b member
  simp only [Block.stop] at either high
  rcases either with rfl | before | after
  · exact .inr low
  · omega
  · omega

theorem outside_uncovered (uncovered : ¬ Covered blocks q) :
    ∀ c ∈ places blocks, q < c ∨ c + headerSize ≤ q := by
  intro c inside
  obtain ⟨x, inX, rfl⟩ := List.mem_map.mp inside
  by_contra within
  refine uncovered ⟨x, inX, ?_⟩
  simp only [Block.stop]
  omega

/-- What stays allocated keeps its bytes. -/
theorem Change.payload (change : Change h after blocks later) (good : Good h blocks)
    (good' : Good after later) (member : b ∈ blocks) (member' : c ∈ later)
    (low : b.place + headerSize ≤ q) (high : q < b.stop) (low' : c.place + headerSize ≤ q)
    (high' : q < c.stop) : after.memory q = h.memory q := by
  refine change.quiet q fun x inside => ?_
  rcases List.mem_append.mp inside with before | then_
  · exact outside_headers good.ordered member low high x before
  · exact outside_headers good'.ordered member' low' high' x then_

/-- What the program took from the break itself keeps its bytes. -/
theorem Change.gap (change : Change h after blocks later) (uncovered : ¬ Covered blocks q)
    (passed : q < h.brk) : after.memory q = h.memory q := by
  have uncovered' : ¬ Covered later q := by
    rw [change.cover]
    rintro (covered | ⟨low, _⟩)
    · exact uncovered covered
    · omega
  refine change.quiet q fun x inside => ?_
  rcases List.mem_append.mp inside with before | then_
  · exact outside_uncovered uncovered x before
  · exact outside_uncovered uncovered' x then_

namespace Holds

variable {start : Nat}

/-- One pointer of a block. -/
theorem pointer (holds : Holds start ⟨h, sizes⟩ blocks) (owned : sizes (p + headerSize) = some (true, n)) :
    ∃ s, ⟨p, s, false⟩ ∈ blocks ∧ n ≤ s := by
  obtain ⟨⟨place, size, free⟩, member, taken, same, fits⟩ := holds.owned _ _ owned
  simp only [headerSize, Nat.add_right_cancel_iff] at same taken
  exact ⟨size, same ▸ taken ▸ member, fits⟩

/-- The new state is well formed where only what `malloc` gave has changed. -/
theorem next (holds : Holds start ⟨h, sizes⟩ blocks) (good : Good after later)
    (change : Change h after blocks later)
    (gaps : ∀ p n, sizes' p = some (false, n) ↔ sizes p = some (false, n))
    (owned : ∀ p n, sizes' p = some (true, n) →
      ∃ b ∈ later, b.free = false ∧ p = b.place + headerSize ∧ n ≤ b.size)
    (known : ∀ b ∈ later, b.free = false → ∃ n, sizes' (b.place + headerSize) = some (true, n)) :
    Holds start ⟨after, sizes'⟩ later := by
  refine
    { good := good
      begun := Nat.le_trans holds.begun change.grown
      owned := owned
      known := known
      gaps := fun p n gap => ?_
      apart := fun p m q n first second => ?_
      cover := fun q => ?_ }
  · obtain ⟨some, passed, uncovered⟩ := holds.gaps p n ((gaps p n).mp gap)
    refine ⟨some, Nat.le_trans passed change.grown, fun q low high => ?_⟩
    rw [change.cover]
    rintro (covered | ⟨low', _⟩)
    · exact uncovered q low high covered
    · simp only at passed
      omega
  · exact holds.apart p m q n ((gaps p m).mp first) ((gaps q n).mp second)
  · have begun := holds.begun
    have grown := change.grown
    have cover := holds.cover q
    simp only [change.cover, gaps] at begun cover ⊢
    rw [or_right_comm, cover]
    omega

/-- The bytes of a piece that stays. -/
theorem frame (holds : Holds start ⟨h, sizes⟩ blocks) (holds' : Holds start ⟨after, sizes'⟩ later)
    (change : Change h after blocks later) (same : sizes' p = sizes p) :
    Session.store ⟨after, sizes'⟩ p = Session.store ⟨h, sizes⟩ p := by
  simp only [Session.store, same]
  cases piece : sizes p with
  | none => rfl
  | some found =>
      obtain ⟨ours, n⟩ := found
      have bytes : bytes after.memory p n = bytes h.memory p n := by
        refine bytes_congr fun i less => ?_
        cases ours with
        | true =>
            obtain ⟨b, inB, _, place, fits⟩ := holds.owned p n piece
            obtain ⟨c, inC, _, place', fits'⟩ := holds'.owned p n (same.trans piece)
            refine change.payload holds.good holds'.good inB inC ?_ ?_ ?_ ?_
            · omega
            · simp only [Block.stop]
              omega
            · omega
            · simp only [Block.stop]
              omega
        | false =>
            obtain ⟨_, passed, uncovered⟩ := holds.gaps p n piece
            refine change.gap (uncovered _ (by omega) (by omega)) ?_
            simp only at passed
            omega
      simp only [Option.map_some, bytes]

theorem allocate (holds : Holds start ⟨h, sizes⟩ blocks) (good : Good after later)
    (change : Change h after blocks later) (allocates : Allocates blocks later p s) (fits : n ≤ s) :
    sizes (p + headerSize) = none ∧
      Holds start ⟨after, update sizes (p + headerSize) (some (true, n))⟩ later := by
  have member : (⟨p, s, false⟩ : Block) ∈ later := (allocates.2 ⟨p, s, false⟩ rfl).mpr (.inl rfl)
  have fresh : sizes (p + headerSize) = none := by
    cases found : sizes (p + headerSize) with
    | none => rfl
    | some piece =>
        exfalso
        obtain ⟨ours, m⟩ := piece
        cases ours with
        | true =>
            obtain ⟨t, taken, _⟩ := holds.pointer found
            exact allocates.1 t taken
        | false =>
            obtain ⟨positive, passed, uncovered⟩ := holds.gaps _ m found
            obtain ⟨⟨lists, rep⟩, _⟩ := good
            have size := (rep.sizes _ member).2
            have covered : Covered later (p + headerSize) :=
              ⟨⟨p, s, false⟩, member, Nat.le_add_right _ _, by
                simp only [Block.stop] at size ⊢
                omega⟩
            rcases (change.cover _).mp covered with before | beyond
            · exact uncovered _ (Nat.le_refl _) (by omega) before
            · simp only at passed
              omega
  refine ⟨fresh, holds.next good change (fun q m => ?_) (fun q m owned => ?_) fun b inB taken => ?_⟩
  · by_cases same : q = p + headerSize
    · rw [same, update_self, fresh]
      simp
    · rw [update_of_ne same]
  · by_cases same : q = p + headerSize
    · rw [same, update_self] at owned
      cases owned
      exact ⟨⟨p, s, false⟩, member, rfl, same, fits⟩
    · rw [update_of_ne same] at owned
      obtain ⟨b, inB, taken, place, fits⟩ := holds.owned q m owned
      exact ⟨b, (allocates.2 b taken).mpr (.inr inB), taken, place, fits⟩
  · rcases (allocates.2 b taken).mp inB with rfl | before
    · exact ⟨n, update_self _ _ _⟩
    · have other : b.place + headerSize ≠ p + headerSize := by
        intro same
        obtain ⟨place, t, free⟩ := b
        cases taken
        cases Nat.add_right_cancel same
        exact allocates.1 t before
      rw [update_of_ne other]
      exact holds.known b before taken

theorem release (holds : Holds start ⟨h, sizes⟩ blocks) (good : Good after later)
    (change : Change h after blocks later) (member : ⟨p, s, false⟩ ∈ blocks)
    (frees : Frees blocks later p s) :
    Holds start ⟨after, update sizes (p + headerSize) none⟩ later := by
  obtain ⟨k, known⟩ := holds.known _ member rfl
  simp only at known
  refine holds.next good change (fun q m => ?_) (fun q m owned => ?_) fun b inB taken => ?_
  · by_cases same : q = p + headerSize
    · rw [same, update_self, known]
      simp
    · rw [update_of_ne same]
  · by_cases same : q = p + headerSize
    · rw [same, update_self] at owned
      cases owned
    · rw [update_of_ne same] at owned
      obtain ⟨b, inB, taken, place, fits⟩ := holds.owned q m owned
      refine ⟨b, (frees b taken).mpr ⟨inB, ?_⟩, taken, place, fits⟩
      rintro rfl
      exact same place
  · obtain ⟨before, other⟩ := (frees b taken).mp inB
    have apart : b.place + headerSize ≠ p + headerSize := by
      intro same
      obtain ⟨⟨lists, rep⟩, _⟩ := holds.good
      exact other (rep.same before member (Nat.add_right_cancel same))
    rw [update_of_ne apart]
    exact holds.known b before taken

theorem resize (holds : Holds start ⟨h, sizes⟩ blocks) (good : Good after later)
    (change : Change h after blocks later) (member : ⟨p, s, false⟩ ∈ blocks)
    (resizes : Resizes blocks later p s s') (fits : n ≤ s') :
    Holds start ⟨after, update sizes (p + headerSize) (some (true, n))⟩ later := by
  have member' : (⟨p, s', false⟩ : Block) ∈ later := (resizes ⟨p, s', false⟩ rfl).mpr (.inl rfl)
  obtain ⟨k, known⟩ := holds.known _ member rfl
  simp only at known
  refine holds.next good change (fun q m => ?_) (fun q m owned => ?_) fun b inB taken => ?_
  · by_cases same : q = p + headerSize
    · rw [same, update_self, known]
      simp
    · rw [update_of_ne same]
  · by_cases same : q = p + headerSize
    · rw [same, update_self] at owned
      cases owned
      exact ⟨⟨p, s', false⟩, member', rfl, same, fits⟩
    · rw [update_of_ne same] at owned
      obtain ⟨b, inB, taken, place, fits⟩ := holds.owned q m owned
      refine ⟨b, (resizes b taken).mpr (.inr ⟨inB, ?_⟩), taken, place, fits⟩
      rintro rfl
      exact same place
  · rcases (resizes b taken).mp inB with rfl | ⟨before, other⟩
    · exact ⟨n, update_self _ _ _⟩
    · have apart : b.place + headerSize ≠ p + headerSize := by
        intro same
        obtain ⟨⟨lists, rep⟩, _⟩ := holds.good
        exact other (rep.same before member (Nat.add_right_cancel same))
      rw [update_of_ne apart]
      exact holds.known b before taken

theorem kept (holds : Holds start ⟨h, sizes⟩ blocks) (good : Good after blocks)
    (change : Change h after blocks blocks) : Holds start ⟨after, sizes⟩ blocks :=
  holds.next good change (fun _ _ => .rfl) holds.owned holds.known

/-- Pieces of a program have no byte in common. -/
theorem pieces_apart (holds : Holds start ⟨h, sizes⟩ blocks) {ours ours' : Bool}
    (first : sizes p = some (ours, n)) (second : sizes q = some (ours', s)) (other : p ≠ q) :
    p + n ≤ q ∨ q + s ≤ p := by
  have away : ∀ {p n q s}, sizes p = some (true, n) → sizes q = some (false, s) →
      p + n ≤ q ∨ q + s ≤ p := by
    intro p n q s first second
    obtain ⟨b, inB, _, place, fits⟩ := holds.owned p n first
    obtain ⟨some, _, uncovered⟩ := holds.gaps q s second
    have positive : 0 < b.size := holds.good.1.elim fun _ rep => (rep.sizes b inB).2
    by_contra meet
    by_cases low : q < p
    · exact uncovered p (by omega) (by omega) ⟨b, inB, by omega, by simp only [Block.stop]; omega⟩
    · exact uncovered q (by omega) (by omega) ⟨b, inB, by omega, by simp only [Block.stop]; omega⟩
  cases ours with
  | true =>
      cases ours' with
      | true =>
          obtain ⟨b, inB, _, place, fits⟩ := holds.owned p n first
          obtain ⟨c, inC, _, place', fits'⟩ := holds.owned q s second
          have either := Rep.ordered_apart holds.good.ordered b inB c inC
          simp only [Block.stop] at either
          rcases either with same | before | after
          · exact absurd (place.trans ((same ▸ place').symm)) other
          · omega
          · omega
      | false => exact away first second
  | false =>
      cases ours' with
      | true => exact (away second first).symm
      | false => exact holds.apart p n q s first second other

/-- A program writes to a piece of its own, as far as the piece goes. -/
theorem write (holds : Holds start ⟨h, sizes⟩ blocks) {memory : Memory} {ours : Bool}
    (piece : sizes p = some (ours, n))
    (same : ∀ q, q < p ∨ p + n ≤ q → memory q = h.memory q) :
    Holds start ⟨h.setMemory memory, sizes⟩ blocks ∧ ∀ q, q ≠ p →
      Session.store ⟨h.setMemory memory, sizes⟩ q = Session.store ⟨h, sizes⟩ q := by
  constructor
  · refine
      { good := ?_
        begun := holds.begun
        owned := holds.owned
        known := holds.known
        gaps := holds.gaps
        apart := holds.apart
        cover := holds.cover }
    cases ours with
    | true =>
        obtain ⟨b, inB, _, place, fits⟩ := holds.owned p n piece
        refine holds.good.setMemory inB fun q outside => same q ?_
        simp only [Block.stop] at outside
        omega
    | false =>
        obtain ⟨_, _, uncovered⟩ := holds.gaps p n piece
        obtain ⟨⟨lists, rep⟩, merged⟩ := holds.good
        refine ⟨⟨lists, rep.setMemory fun c inC q low high => same q ?_⟩, merged⟩
        by_contra within
        have header := outside_uncovered (uncovered q (by omega) (by omega)) c inC
        omega
  · intro q other
    simp only [Session.store, Heap.setMemory]
    cases found : sizes q with
    | none => rfl
    | some found' =>
        obtain ⟨ours', k⟩ := found'
        have apart := holds.pieces_apart found piece other
        have bytes : bytes memory q k = bytes h.memory q k :=
          bytes_congr fun i less => same _ (by omega)
        simp only [Option.map_some, bytes]

end Holds

end

end SymphonyPlus.NativeHeap
