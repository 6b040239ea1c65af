import SymphonyPlus.HeapStore

/-! Runs of a program over the allocator: every call returns, and the heap is a store of pieces. -/

namespace SymphonyPlus.NativeHeap

open ByteMemory Function

inductive Call
  | malloc (size : Nat)
  | calloc (count size : Nat)
  | realloc (p size : Nat)
  | free (p : Nat)
  | write (p i : Nat) (value : BitVec 8)
  | moveBreak (n : Nat)

def moveBreak (allows : Nat → Bool) (h : Heap) (n : Nat) : Nat × Heap :=
  if word - 1 - h.brk < n ∨ allows (h.brk + n) = false then (0, h)
  else (h.brk, { h with brk := h.brk + n })

def Call.run (allows : Nat → Bool) (h : Heap) : Call → Option (Nat × Heap)
  | malloc size => NativeHeap.malloc allows h size
  | calloc count size => NativeHeap.calloc allows h count size
  | realloc p size => NativeHeap.realloc allows h p size
  | free p => some (0, NativeHeap.free h p)
  | write p i value => some (0, h.setMemory (write8 h.memory (p + i) value))
  | moveBreak n => some (NativeHeap.moveBreak allows h n)

def Call.sizes (sizes : Nat → Option (Bool × Nat)) (out : Nat) : Call → Nat → Option (Bool × Nat)
  | malloc size => if out = 0 then sizes else update sizes out (some (true, size))
  | calloc count size => if out = 0 then sizes else update sizes out (some (true, count * size))
  | realloc p size =>
      if p = 0 then if out = 0 then sizes else update sizes out (some (true, size))
      else if size = 0 then update sizes p none
      else if out = 0 then sizes
      else update (update sizes p none) out (some (true, size))
  | free p => if p = 0 then sizes else update sizes p none
  | write _ _ _ => sizes
  | moveBreak n => if out = 0 then sizes else update sizes out (some (false, n))

/-- A program frees and enlarges only what it was given, and writes only to its pieces. -/
def Session.Legal (s : Session) : Call → Prop
  | .free p => p = 0 ∨ ∃ n, s.sizes p = some (true, n)
  | .realloc p _ => p = 0 ∨ ∃ n, s.sizes p = some (true, n)
  | .write p i _ => ∃ ours n, s.sizes p = some (ours, n) ∧ i < n
  | .moveBreak n => 0 < n
  | _ => True

def Session.call (allows : Nat → Bool) (s : Session) (c : Call) : Option (Nat × Session) :=
  (c.run allows s.heap).map fun (out, h) => (out, ⟨h, c.sizes s.sizes out⟩)

/-- The calls that may give 0 for want of memory. -/
def Call.Asks : Call → Prop
  | malloc _ => True
  | calloc _ _ => True
  | realloc p size => p = 0 ∨ size ≠ 0
  | moveBreak _ => True
  | _ => False

inductive Effect : Store → Call → Nat → Store → Prop
  | refused {store : Store} {c : Call} (asks : c.Asks) : Effect store c 0 store
  | malloc {store : Store} {size out : Nat} {bytes : List (BitVec 8)} (proper : out ≠ 0)
      (fresh : store out = none) (length : bytes.length = size) :
      Effect store (.malloc size) out (update store out (some ⟨true, bytes⟩))
  | calloc {store : Store} {count size out : Nat} (proper : out ≠ 0) (fresh : store out = none) :
      Effect store (.calloc count size) out
        (update store out (some ⟨true, List.replicate (count * size) 0⟩))
  | freeNone {store : Store} : Effect store (.free 0) 0 store
  | free {store : Store} {p : Nat} {old : List (BitVec 8)} (live : store p = some ⟨true, old⟩) :
      Effect store (.free p) 0 (update store p none)
  | reallocNone {store store' : Store} {size out : Nat} (given : Effect store (.malloc size) out store') :
      Effect store (.realloc 0 size) out store'
  | reallocFree {store : Store} {p : Nat} {old : List (BitVec 8)} (live : store p = some ⟨true, old⟩) :
      Effect store (.realloc p 0) 0 (update store p none)
  | realloc {store : Store} {p size out : Nat} {old bytes : List (BitVec 8)} (proper : out ≠ 0)
      (live : store p = some ⟨true, old⟩) (fresh : out = p ∨ store out = none)
      (length : bytes.length = size) (kept : bytes.take old.length = old.take size) :
      Effect store (.realloc p size) out (update (update store p none) out (some ⟨true, bytes⟩))
  | write {store : Store} {p i : Nat} {value : BitVec 8} {piece : Piece} (live : store p = some piece)
      (inside : i < piece.bytes.length) :
      Effect store (.write p i value) 0
        (update store p (some { piece with bytes := piece.bytes.set i value }))
  | moveBreak {store : Store} {n out : Nat} {bytes : List (BitVec 8)} (proper : out ≠ 0)
      (fresh : store out = none) (length : bytes.length = n) :
      Effect store (.moveBreak n) out (update store out (some ⟨false, bytes⟩))

section

variable {start n p q s size out : Nat} {h after : Heap} {sizes sizes' : Nat → Option (Bool × Nat)}
  {blocks later : List Block} {b c : Block} {m m' : Memory} {allows : Nat → Bool}

theorem store_update {store : Store} {piece : Option Piece}
    (others : ∀ q, q ≠ p → Session.store ⟨after, sizes'⟩ q = store q)
    (here : Session.store ⟨after, sizes'⟩ p = piece) :
    Session.store ⟨after, sizes'⟩ = update store p piece := by
  funext q
  by_cases same : q = p
  · rw [same, here, update_self]
  · rw [others q same, update_of_ne same]

theorem store_none (missing : sizes p = none) : Session.store ⟨h, sizes⟩ p = none := by
  simp only [Session.store, missing, Option.map_none]

theorem store_some {ours : Bool} (piece : sizes p = some (ours, n)) :
    Session.store ⟨h, sizes⟩ p = some ⟨ours, bytes h.memory p n⟩ := by
  simp only [Session.store, piece, Option.map_some]

theorem store_here {ours : Bool} : Session.store ⟨h, update sizes p (some (ours, n))⟩ p =
    some ⟨ours, bytes h.memory p n⟩ :=
  store_some (update_self _ _ _)

theorem store_gone : Session.store ⟨h, update sizes p none⟩ p = none :=
  store_none (update_self _ _ _)

theorem bytes_take {k : Nat} : (bytes m p n).take k = bytes m p (min k n) := by
  rw [bytes, ← List.map_take, List.take_range, bytes]

theorem bytes_kept {out : Nat} (same : ∀ i, i < n → i < size → m' (out + i) = m (p + i)) :
    (bytes m' out size).take (bytes m p n).length = (bytes m p n).take size := by
  rw [bytes_length, bytes_take, bytes_take, Nat.min_comm size n]
  refine List.map_congr_left fun i inside => ?_
  rw [List.mem_range] at inside
  exact same i (by omega) (by omega)

theorem bytes_write {i : Nat} {value : BitVec 8} :
    bytes (write8 m (p + i) value) p n = (bytes m p n).set i value := by
  refine List.ext_getElem (by simp) fun j first second => ?_
  simp only [bytes, List.getElem_map, List.getElem_range, List.getElem_set, write8]
  by_cases same : i = j
  · rw [if_pos same, if_pos (by omega)]
  · rw [if_neg same, if_neg (by omega)]

namespace Holds

theorem malloc (holds : Holds start ⟨h, sizes⟩ blocks) (allows : Nat → Bool) (size : Nat) :
    ∃ out after later, NativeHeap.malloc allows h size = some (out, after) ∧
      ((out = 0 ∧ Holds start ⟨after, sizes⟩ later ∧
          Session.store ⟨after, sizes⟩ = Session.store ⟨h, sizes⟩) ∨
        (out ≠ 0 ∧ sizes out = none ∧ Holds start ⟨after, update sizes out (some (true, size))⟩ later ∧
          ∀ q, q ≠ out → Session.store ⟨after, update sizes out (some (true, size))⟩ q =
            Session.store ⟨h, sizes⟩ q)) := by
  obtain ⟨out, after, later, eq, good, change, result⟩ := malloc_spec allows size holds.good
  refine ⟨out, after, later, eq, ?_⟩
  rcases result with ⟨none, rfl, _, _⟩ | ⟨p, s, rfl, fits, allocates, _⟩
  · have kept := holds.kept good change
    exact .inl ⟨none, kept, funext fun q => holds.frame kept change rfl⟩
  · obtain ⟨fresh, holds'⟩ := holds.allocate good change allocates fits
    exact .inr ⟨Nat.succ_ne_zero _, fresh, holds', fun q other =>
      holds.frame holds' change (update_of_ne other _ _)⟩

theorem calloc (holds : Holds start ⟨h, sizes⟩ blocks) (allows : Nat → Bool) (count size : Nat) :
    ∃ out after later, NativeHeap.calloc allows h count size = some (out, after) ∧
      ((out = 0 ∧ Holds start ⟨after, sizes⟩ later ∧
          Session.store ⟨after, sizes⟩ = Session.store ⟨h, sizes⟩) ∨
        (out ≠ 0 ∧ sizes out = none ∧
          Holds start ⟨after, update sizes out (some (true, count * size))⟩ later ∧
          bytes after.memory out (count * size) = List.replicate (count * size) 0 ∧
          ∀ q, q ≠ out → Session.store ⟨after, update sizes out (some (true, count * size))⟩ q =
            Session.store ⟨h, sizes⟩ q)) := by
  rw [NativeHeap.calloc]
  split
  · exact ⟨0, h, blocks, rfl, .inl ⟨rfl, holds, rfl⟩⟩
  · obtain ⟨out, after, later, eq, result⟩ := holds.malloc allows (count * size)
    simp only [eq]
    rcases result with ⟨rfl, kept, same⟩ | ⟨some, fresh, holds', others⟩
    · exact ⟨0, after, later, rfl, .inl ⟨rfl, kept, same⟩⟩
    · obtain ⟨written, same⟩ := holds'.write (update_self out _ sizes) fun q outside =>
        clear_outside (m := after.memory) outside
      refine ⟨out, after.setMemory (clear after.memory out (count * size)), later, ?_,
        .inr ⟨some, fresh, written, ?_, fun q other => (same q other).trans (others q other)⟩⟩
      · simp only [Option.map_some, ne_eq, some, not_false_eq_true, if_true]
      · refine List.eq_replicate_iff.mpr ⟨bytes_length, fun byte inside => ?_⟩
        obtain ⟨i, less, rfl⟩ := List.mem_map.mp inside
        exact clear_inside (List.mem_range.mp less)

theorem free (holds : Holds start ⟨h, sizes⟩ blocks) (live : sizes p = some (true, n)) :
    ∃ later, Holds start ⟨NativeHeap.free h p, update sizes p none⟩ later ∧
      ∀ q, q ≠ p → Session.store ⟨NativeHeap.free h p, update sizes p none⟩ q =
        Session.store ⟨h, sizes⟩ q := by
  obtain ⟨b, member, taken, rfl, _⟩ := holds.owned p n live
  obtain ⟨place, s, free⟩ := b
  cases taken
  obtain ⟨later, good, change, _, frees⟩ := free_spec holds.good member
  have holds' := holds.release good change member frees
  exact ⟨later, holds', fun q other => holds.frame holds' change (update_of_ne other _ _)⟩

theorem realloc (holds : Holds start ⟨h, sizes⟩ blocks) (allows : Nat → Bool) {size : Nat}
    (asked : size ≠ 0) (live : sizes p = some (true, n)) :
    ∃ out after later, NativeHeap.realloc allows h p size = some (out, after) ∧
      ((out = 0 ∧ Holds start ⟨after, sizes⟩ later ∧
          Session.store ⟨after, sizes⟩ = Session.store ⟨h, sizes⟩) ∨
        (out ≠ 0 ∧ (out = p ∨ sizes out = none) ∧
          Holds start ⟨after, update (update sizes p none) out (some (true, size))⟩ later ∧
          (∀ i, i < n → i < size → after.memory (out + i) = h.memory (p + i)) ∧
          ∀ q, q ≠ out → q ≠ p →
            Session.store ⟨after, update (update sizes p none) out (some (true, size))⟩ q =
              Session.store ⟨h, sizes⟩ q)) := by
  obtain ⟨b, member, taken, rfl, room⟩ := holds.owned p n live
  obtain ⟨place, s, free⟩ := b
  cases taken
  simp only at room live ⊢
  obtain ⟨out, after, later, eq, good, result⟩ := realloc_spec allows asked holds.good member
  refine ⟨out, after, later, eq, ?_⟩
  rcases result with ⟨none, rfl, change, _⟩ | ⟨rfl, change, s', fits, resizes⟩ |
    ⟨mid, middle, q, t, rfl, goodMid, change, allocates, more, fits, change', frees⟩
  · have kept := holds.kept good change
    exact .inl ⟨none, kept, funext fun q => holds.frame kept change rfl⟩
  · have holds' := holds.resize (n := size) good change member resizes fits
    have twice : update (update sizes (place + headerSize) none) (place + headerSize)
        (some (true, size)) = update sizes (place + headerSize) (some (true, size)) :=
      update_idem _ _ _
    rw [twice]
    refine .inr ⟨Nat.succ_ne_zero _, .inl rfl, holds', fun i old new => ?_, fun q other _ =>
      holds.frame holds' change (update_of_ne other _ _)⟩
    refine change.payload holds.good good member ((resizes ⟨place, s', false⟩ rfl).mpr (.inl rfl))
      ?_ ?_ ?_ ?_
    · exact Nat.le_add_right _ _
    · simp only [Block.stop]
      omega
    · exact Nat.le_add_right _ _
    · simp only [Block.stop]
      omega
  · have stays : (⟨place, s, false⟩ : Block) ∈ middle :=
      (allocates.2 ⟨place, s, false⟩ rfl).mpr (.inr member)
    have new : (⟨q, t, false⟩ : Block) ∈ middle := (allocates.2 ⟨q, t, false⟩ rfl).mpr (.inl rfl)
    obtain ⟨fresh, holds1⟩ := holds.allocate goodMid change allocates fits
    have other : place + headerSize ≠ q + headerSize := by
      intro same
      rw [same, fresh] at live
      cases live
    have apart : place + headerSize + s ≤ q + headerSize ∨ q + headerSize + s ≤ place + headerSize := by
      have either := Rep.ordered_apart goodMid.ordered ⟨place, s, false⟩ stays ⟨q, t, false⟩ new
      simp only [Block.mk.injEq, Block.stop] at either
      omega
    have outside : ∀ x, x < q + headerSize ∨ q + headerSize + size ≤ x →
        copy mid.memory (q + headerSize) (place + headerSize) s x = mid.memory x := fun x outside =>
      copy_outside (by omega)
    obtain ⟨holds2, written⟩ := holds1.write (update_self (q + headerSize) _ sizes) outside
    have new' : (⟨q, t, false⟩ : Block) ∈ later := by
      refine (frees ⟨q, t, false⟩ rfl).mpr ⟨new, fun same => other ?_⟩
      exact congrArg (Block.place · + headerSize) same.symm
    have holds3 := holds2.release good change' stays frees
    have swap : update (update sizes (q + headerSize) (some (true, size))) (place + headerSize) none =
        update (update sizes (place + headerSize) none) (q + headerSize) (some (true, size)) :=
      update_comm (Ne.symm other) _ _ _
    rw [swap] at holds3
    refine .inr ⟨Nat.succ_ne_zero _, .inr fresh, holds3, fun i old less => ?_, fun x otherOut otherP => ?_⟩
    · calc
        after.memory (q + headerSize + i)
            = copy mid.memory (q + headerSize) (place + headerSize) s (q + headerSize + i) := by
              refine change'.payload holds2.good good new new' ?_ ?_ ?_ ?_
              · exact Nat.le_add_right _ _
              · simp only [Block.stop]
                omega
              · exact Nat.le_add_right _ _
              · simp only [Block.stop]
                omega
          _ = mid.memory (place + headerSize + i) := copy_inside apart (by omega)
          _ = h.memory (place + headerSize + i) := by
              refine change.payload holds.good goodMid member stays ?_ ?_ ?_ ?_
              · exact Nat.le_add_right _ _
              · simp only [Block.stop]
                omega
              · exact Nat.le_add_right _ _
              · simp only [Block.stop]
                omega
    · rw [holds2.frame holds3 change' (by rw [← swap, update_of_ne otherP]), written x otherOut]
      exact holds.frame holds1 change (update_of_ne otherOut _ _)

theorem moveBreak (holds : Holds start ⟨h, sizes⟩ blocks) (allows : Nat → Bool) (positive : 0 < n) :
    ∃ out after, NativeHeap.moveBreak allows h n = (out, after) ∧
      ((out = 0 ∧ after = h) ∨
        (out ≠ 0 ∧ sizes out = none ∧ Holds start ⟨after, update sizes out (some (false, n))⟩ blocks ∧
          ∀ q, q ≠ out → Session.store ⟨after, update sizes out (some (false, n))⟩ q =
            Session.store ⟨h, sizes⟩ q)) := by
  rw [NativeHeap.moveBreak]
  split
  · exact ⟨0, h, rfl, .inl ⟨rfl, rfl⟩⟩
  · rename_i allowed
    obtain ⟨⟨lists, rep⟩, merged⟩ := holds.good
    have started := rep.started
    have small := rep.small
    simp only at started small rep
    have fresh : sizes h.brk = none := by
      cases found : sizes h.brk with
      | none => rfl
      | some piece =>
          exfalso
          obtain ⟨ours, m⟩ := piece
          cases ours with
          | true =>
              obtain ⟨b, inB, _, place, _⟩ := holds.owned _ m found
              have stop := (rep.inside b inB).2
              have size := (rep.sizes b inB).2
              simp only [Block.stop] at stop
              omega
          | false =>
              obtain ⟨some, passed, _⟩ := holds.gaps _ m found
              simp only at passed
              omega
    refine ⟨h.brk, { h with brk := h.brk + n }, rfl, .inr ⟨by omega, fresh, ?_, fun q other => ?_⟩⟩
    · have gap : ∀ p m, update sizes h.brk (some (false, n)) p = some (false, m) ↔
          sizes p = some (false, m) ∨ (p = h.brk ∧ m = n) := by
        intro p m
        by_cases same : p = h.brk
        · rw [same, update_self, fresh]
          simp [eq_comm]
        · rw [update_of_ne same]
          simp [same]
      have owned : ∀ p m, update sizes h.brk (some (false, n)) p = some (true, m) ↔
          sizes p = some (true, m) := by
        intro p m
        by_cases same : p = h.brk
        · rw [same, update_self, fresh]
          simp
        · rw [update_of_ne same]
      have begun := holds.begun
      simp only at begun
      refine
        { good := ⟨⟨lists, ?_⟩, merged⟩
          begun := Nat.le_trans begun (Nat.le_add_right _ _)
          owned := fun p m piece => holds.owned p m ((owned p m).mp piece)
          known := fun b inB taken => ?_
          gaps := fun p m piece => ?_
          apart := fun p m q k first second other => ?_
          cover := fun q => ?_ }
      · exact rep.congr (fun _ _ _ => rfl) rfl rfl (Nat.le_add_right _ _) (by simp only; omega)
      · obtain ⟨m, piece⟩ := holds.known b inB taken
        exact ⟨m, (owned _ m).mpr piece⟩
      · rcases (gap p m).mp piece with old | ⟨rfl, rfl⟩
        · obtain ⟨some, passed, uncovered⟩ := holds.gaps p m old
          exact ⟨some, Nat.le_trans passed (Nat.le_add_right _ _), uncovered⟩
        · refine ⟨positive, Nat.le_refl _, ?_⟩
          rintro q low _ ⟨b, inB, _, high⟩
          have stop := (rep.inside b inB).2
          omega
      · rcases (gap p m).mp first with old | ⟨rfl, rfl⟩ <;>
          rcases (gap q k).mp second with old' | ⟨rfl, rfl⟩
        · exact holds.apart p m q k old old' other
        · exact .inl (holds.gaps p m old).2.1
        · exact .inr (holds.gaps q k old').2.1
        · exact absurd rfl other
      · have cover := holds.cover q
        simp only at cover
        constructor
        · rintro (covered | ⟨p, m, piece, low, high⟩)
          · have old := cover.mp (.inl covered)
            simp only
            omega
          · rcases (gap p m).mp piece with old | ⟨rfl, rfl⟩
            · have old := cover.mp (.inr ⟨p, m, old, low, high⟩)
              simp only
              omega
            · simp only
              omega
        · rintro ⟨low, high⟩
          simp only at high
          by_cases old : q < h.brk
          · refine (cover.mpr ⟨low, old⟩).imp_right fun covered => ?_
            obtain ⟨p, m, piece, inside⟩ := covered
            exact ⟨p, m, (gap p m).mpr (.inl piece), inside⟩
          · exact .inr ⟨h.brk, n, (gap _ n).mpr (.inr ⟨rfl, rfl⟩), by omega, high⟩
    · simp only [Session.store, update_of_ne other]

/-- One call: it returns, the heap stays well formed, and the store changes as the call says. -/
theorem call {s : Session} {c : Call} (holds : Holds start s blocks) (allows : Nat → Bool)
    (legal : s.Legal c) : ∃ out next later, s.call allows c = some (out, next) ∧
      Holds start next later ∧ Effect s.store c out next.store := by
  obtain ⟨h, sizes⟩ := s
  have allocated : ∀ size, ∃ out after later, NativeHeap.malloc allows h size = some (out, after) ∧
      Holds start ⟨after, if out = 0 then sizes else update sizes out (some (true, size))⟩ later ∧
      Effect (Session.store ⟨h, sizes⟩) (.malloc size) out (Session.store
        ⟨after, if out = 0 then sizes else update sizes out (some (true, size))⟩) := by
    intro size
    obtain ⟨out, after, later, eq, result⟩ := holds.malloc allows size
    refine ⟨out, after, later, eq, ?_⟩
    rcases result with ⟨rfl, kept, same⟩ | ⟨some, fresh, holds', others⟩
    · rw [if_pos rfl, same]
      exact ⟨kept, .refused trivial⟩
    · rw [if_neg some, store_update others (store_here)]
      exact ⟨holds', .malloc some (store_none fresh) bytes_length⟩
  cases c with
  | malloc size =>
      obtain ⟨out, after, later, eq, holds', effect⟩ := allocated size
      exact ⟨out, _, later, congrArg (Option.map _) eq, holds', effect⟩
  | calloc count size =>
      obtain ⟨out, after, later, eq, result⟩ := holds.calloc allows count size
      refine ⟨out, _, later, congrArg (Option.map _) eq, ?_⟩
      rcases result with ⟨rfl, kept, same⟩ | ⟨some, fresh, holds', zeros, others⟩
      · simp only [Call.sizes, if_true, same]
        exact ⟨kept, .refused trivial⟩
      · simp only [Call.sizes, if_neg some]
        rw [store_update others (store_here), zeros]
        exact ⟨holds', .calloc some (store_none fresh)⟩
  | realloc p size =>
      by_cases null : p = 0
      · subst null
        obtain ⟨out, after, later, eq, holds', effect⟩ := allocated size
        have same : NativeHeap.realloc allows h 0 size = NativeHeap.malloc allows h size := by
          rw [NativeHeap.realloc, if_pos rfl]
        refine ⟨out, _, later, congrArg (Option.map _) (same.trans eq), ?_⟩
        simp only [Call.sizes, if_true]
        exact ⟨holds', .reallocNone effect⟩
      · obtain ⟨n, live⟩ := legal.resolve_left null
        simp only at live
        by_cases freed : size = 0
        · subst freed
          obtain ⟨later, holds', others⟩ := holds.free live
          have same : NativeHeap.realloc allows h p 0 = some (0, NativeHeap.free h p) := by
            rw [NativeHeap.realloc, if_neg null, if_pos rfl]
          refine ⟨0, _, later, congrArg (Option.map _) same, ?_⟩
          simp only [Call.sizes, if_neg null, if_true]
          rw [store_update others (store_gone)]
          exact ⟨holds', .reallocFree (store_some live)⟩
        · obtain ⟨out, after, later, eq, result⟩ := holds.realloc allows freed live
          refine ⟨out, _, later, congrArg (Option.map _) eq, ?_⟩
          simp only [Call.sizes, if_neg null, if_neg freed]
          rcases result with ⟨rfl, kept, same⟩ | ⟨some, fresh, holds', bytes', others⟩
          · rw [if_pos rfl, same]
            exact ⟨kept, .refused (.inr freed)⟩
          · rw [if_neg some]
            refine ⟨holds', ?_⟩
            have shape : Session.store ⟨after, update (update sizes p none) out (Option.some (true, size))⟩ =
                update (update (Session.store ⟨h, sizes⟩) p none) out
                  (Option.some ⟨true, bytes after.memory out size⟩) := by
              refine store_update (fun q other => ?_) ?_
              · by_cases same : q = p
                · subst same
                  simp only [Session.store, update_of_ne other, update_self, Option.map_none]
                · rw [others q other same, update_of_ne same]
              · simp only [Session.store, update_self, Option.map_some]
            rw [shape]
            refine .realloc some (store_some live) (fresh.imp_right store_none) bytes_length ?_
            exact bytes_kept bytes'
  | free p =>
      by_cases null : p = 0
      · subst null
        refine ⟨0, ⟨h, sizes⟩, blocks, rfl, holds, .freeNone⟩
      · obtain ⟨n, live⟩ := legal.resolve_left null
        simp only at live
        obtain ⟨later, holds', others⟩ := holds.free live
        refine ⟨0, _, later, rfl, ?_⟩
        simp only [Call.sizes, if_neg null]
        rw [store_update others (store_gone)]
        exact ⟨holds', .free (store_some live)⟩
  | write p i value =>
      obtain ⟨ours, n, live, less⟩ := legal
      simp only at live
      have outside : ∀ q, q < p ∨ p + n ≤ q → write8 h.memory (p + i) value q = h.memory q :=
        fun q outside => if_neg (by omega)
      obtain ⟨holds', others⟩ := holds.write live outside
      refine ⟨0, _, blocks, rfl, holds', ?_⟩
      have written : Session.store ⟨h.setMemory (write8 h.memory (p + i) value), sizes⟩ p =
          some ⟨ours, (bytes h.memory p n).set i value⟩ := by
        rw [store_some live, ← bytes_write]
        rfl
      simp only [Call.sizes]
      rw [store_update others written]
      exact .write (store_some live) (by simpa using less)
  | moveBreak n =>
      obtain ⟨out, after, eq, result⟩ := holds.moveBreak allows legal
      refine ⟨out, _, blocks, congrArg (fun pair => (some pair).map _) eq, ?_⟩
      rcases result with ⟨rfl, rfl⟩ | ⟨some, fresh, holds', others⟩
      · simp only [Call.sizes, if_true]
        exact ⟨holds, .refused trivial⟩
      · simp only [Call.sizes, if_neg some]
        rw [store_update others (store_here)]
        exact ⟨holds', .moveBreak some (store_none fresh) bytes_length⟩

end Holds

end

/-! Runs. -/

/-- The results of a run, each call with what the system allows of the break at that time. -/
def Session.run : Session → List ((Nat → Bool) × Call) → Option (List Nat × Session)
  | s, [] => some ([], s)
  | s, (allows, c) :: rest =>
      (s.call allows c).bind fun (out, next) =>
        (next.run rest).map fun (outs, last) => (out :: outs, last)

/-- Every call is legal where the program comes to it. -/
def Session.LegalRun : Session → List ((Nat → Bool) × Call) → Prop
  | _, [] => True
  | s, (allows, c) :: rest => s.Legal c ∧ ∀ out next, s.call allows c = some (out, next) →
      next.LegalRun rest

inductive Effects : Store → List Call → List Nat → Store → Prop
  | nil (store : Store) : Effects store [] [] store
  | cons {store middle last : Store} {c : Call} {out : Nat} {calls : List Call} {outs : List Nat}
      (first : Effect store c out middle) (rest : Effects middle calls outs last) :
      Effects store (c :: calls) (out :: outs) last

theorem Holds.run {start : Nat} {s : Session} {blocks : List Block} (holds : Holds start s blocks)
    (calls : List ((Nat → Bool) × Call)) (legal : s.LegalRun calls) :
    ∃ outs last later, s.run calls = some (outs, last) ∧ Holds start last later ∧
      Effects s.store (calls.map Prod.snd) outs last.store := by
  induction calls generalizing s blocks with
  | nil => exact ⟨[], s, blocks, rfl, holds, .nil _⟩
  | cons pair calls ih =>
      obtain ⟨allows, c⟩ := pair
      obtain ⟨out, next, later, eq, holds', effect⟩ := holds.call allows legal.1
      obtain ⟨outs, last, later', eq', holds'', effects⟩ := ih holds' (legal.2 out next eq)
      refine ⟨out :: outs, last, later', ?_, holds'', .cons effect effects⟩
      rw [Session.run, eq]
      simp only [Option.bind_some, eq', Option.map_some]

def Session.initial (memory : Memory) (brk : Nat) : Session :=
  ⟨⟨memory, 0, fun _ => 0, brk, 0, 0⟩, fun _ => none⟩

theorem initial_holds (memory : Memory) {brk : Nat} (started : 0 < brk) (small : brk < word) :
    Holds brk (Session.initial memory brk) [] := by
  refine
    { good := ⟨⟨fun _ => [], ?_⟩, .nil⟩
      begun := Nat.le_refl _
      owned := fun p n none => nomatch none
      known := fun b none => absurd none List.not_mem_nil
      gaps := fun p n none => nomatch none
      apart := fun p m q n none => nomatch none
      cover := fun q => ?_ }
  · refine
      { started := started
        small := small
        ordered := .nil
        inside := fun b none => absurd none List.not_mem_nil
        sizes := fun b none => absurd none List.not_mem_nil
        size := fun b none => absurd none List.not_mem_nil
        available := fun b none => absurd none List.not_mem_nil
        chain := ⟨0, .empty _ _ 0⟩
        tail := rfl
        bins := fun i _ => .empty _ _ 0
        filed := fun i _ p => ?_ }
    simp
  · simp only [Covered, Session.initial, List.not_mem_nil]
    constructor
    · rintro (⟨b, none, _⟩ | ⟨p, n, none, _⟩)
      · exact none.elim
      · cases none
    · omega

/-- Whatever a program does with what the allocator gives it, every call returns, the heap does what
the calls mean for a store of pieces, and no two pieces have a byte in common. -/
theorem runs_store (memory : Memory) (brk : Nat) (calls : List ((Nat → Bool) × Call))
    (started : 0 < brk) (small : brk < word) (legal : (Session.initial memory brk).LegalRun calls) :
    ∃ outs last, (Session.initial memory brk).run calls = some (outs, last) ∧
      Effects (fun _ => none) (calls.map Prod.snd) outs last.store ∧
      ∀ p q piece piece', last.store p = some piece → last.store q = some piece' → p ≠ q →
        p + piece.bytes.length ≤ q ∨ q + piece'.bytes.length ≤ p := by
  obtain ⟨outs, last, blocks, eq, holds, effects⟩ := (initial_holds memory started small).run calls legal
  refine ⟨outs, last, eq, effects, fun p q piece piece' first second other => ?_⟩
  obtain ⟨h, sizes⟩ := last
  simp only [Session.store, Option.map_eq_some_iff] at first second
  obtain ⟨⟨ours, n⟩, found, rfl⟩ := first
  obtain ⟨⟨ours', k⟩, found', rfl⟩ := second
  simpa using holds.pieces_apart found found' other

theorem runs_store_first : ∃ outs last, (Session.initial (fun _ => 0) 4096).run
      [(fun _ => true, .malloc 5), (fun _ => true, .write 4120 2 7), (fun _ => true, .realloc 4120 90),
        (fun _ => false, .malloc 30)] = some (outs, last) ∧
    Effects (fun _ => none) [.malloc 5, .write 4120 2 7, .realloc 4120 90, .malloc 30] outs
      last.store ∧
    ∀ p q piece piece', last.store p = some piece → last.store q = some piece' → p ≠ q →
      p + piece.bytes.length ≤ q ∨ q + piece'.bytes.length ≤ p := by
  refine runs_store (fun _ => 0) 4096 _ (by decide) (by decide) ⟨trivial, fun out next eq => ?_⟩
  have sizes : next.sizes 4120 = some (true, 5) := by
    cases eq
    rfl
  refine ⟨⟨true, 5, sizes, by decide⟩, fun out' next' eq' => ⟨.inr ⟨5, ?_⟩, fun _ _ _ =>
    ⟨trivial, fun _ _ _ => trivial⟩⟩⟩
  cases eq'
  exact sizes

/-- Free blocks that leave no gap are one block. -/
theorem one_block {start stop : Nat} {blocks : List Block} (less : start < stop)
    (ordered : blocks.Pairwise fun b c => b.stop ≤ c.place) (merged : Merged blocks)
    (free : ∀ b ∈ blocks, b.free = true) (cover : ∀ q, Covered blocks q ↔ start ≤ q ∧ q < stop) :
    ∃ b, blocks = [b] ∧ b.place = start ∧ b.stop = stop := by
  have ends : ∀ b ∈ blocks, start ≤ b.place ∧ b.place < b.stop ∧ b.stop ≤ stop := by
    intro b inB
    have grows : b.place < b.stop := by
      simp only [Block.stop, headerSize]
      omega
    have first := (cover b.place).mp ⟨b, inB, Nat.le_refl _, grows⟩
    have last := (cover (b.stop - 1)).mp ⟨b, inB, by omega, by omega⟩
    omega
  cases blocks with
  | nil =>
      obtain ⟨b, none, _⟩ := (cover start).mpr ⟨Nat.le_refl _, less⟩
      exact absurd none List.not_mem_nil
  | cons b rest =>
      have own := ends b List.mem_cons_self
      obtain ⟨before, orderedRest⟩ := List.pairwise_cons.mp ordered
      cases rest with
      | nil =>
          refine ⟨b, rfl, ?_, ?_⟩
          · obtain ⟨x, inX, low, _⟩ := (cover start).mpr ⟨Nat.le_refl _, less⟩
            cases List.mem_singleton.mp inX
            omega
          · obtain ⟨x, inX, _, high⟩ := (cover (stop - 1)).mpr ⟨by omega, by omega⟩
            cases List.mem_singleton.mp inX
            omega
      | cons c rest =>
          have touch : b.stop ≠ c.place := by
            have sides := ((merged_middle (l := [])).mp merged).2.2 (free b List.mem_cons_self)
            exact sides.2 c rfl (free c (List.mem_cons_of_mem b List.mem_cons_self))
          have le := before c List.mem_cons_self
          have next := ends c (List.mem_cons_of_mem b List.mem_cons_self)
          obtain ⟨x, inX, low, high⟩ := (cover b.stop).mpr ⟨by omega, by omega⟩
          exfalso
          rcases List.mem_cons.mp inX with rfl | later
          · omega
          · rcases List.mem_cons.mp later with rfl | later
            · omega
            · have after := (List.pairwise_cons.mp orderedRest).1 x later
              omega

/-- Where a program has given everything back, all memory it ever got can be had again in one piece
and the break stays where it is. -/
theorem runs_reclaim (memory : Memory) (brk size : Nat) (calls : List ((Nat → Bool) × Call))
    (outs : List Nat) (last : Session) (started : 0 < brk) (small : brk < word)
    (legal : (Session.initial memory brk).LegalRun calls)
    (ran : (Session.initial memory brk).run calls = some (outs, last))
    (freed : ∀ p, last.store p = none)
    (fits : brk + headerSize + rounded (max size 1) ≤ last.heap.brk) :
    ∃ p after, malloc (fun _ => false) last.heap size = some (p, after) ∧ p ≠ 0 ∧
      after.brk = last.heap.brk := by
  obtain ⟨outs', last', blocks, eq, holds, _⟩ := (initial_holds memory started small).run calls legal
  cases ran.symm.trans eq
  have none : ∀ p, last.sizes p = none := fun p => Option.map_eq_none_iff.mp (freed p)
  have free : ∀ b ∈ blocks, b.free = true := by
    intro b inB
    by_contra taken
    obtain ⟨n, known⟩ := holds.known b inB (Bool.eq_false_iff.mpr taken)
    rw [none] at known
    cases known
  have cover : ∀ q, Covered blocks q ↔ brk ≤ q ∧ q < last.heap.brk := by
    intro q
    have whole := holds.cover q
    simp only [none] at whole
    simpa using whole
  have header : 0 < headerSize := by decide
  obtain ⟨b, rfl, place, stop⟩ := one_block (by omega) holds.good.ordered holds.good.2 free cover
  have room : ¬ NoneFits [b] size := by
    intro short
    have less := short b List.mem_cons_self (free b List.mem_cons_self)
    simp only [Block.stop] at stop
    omega
  obtain ⟨p, after, later, eq, _, _, result⟩ := malloc_spec (fun _ => false) size holds.good
  refine ⟨p, after, eq, ?_⟩
  rcases result with ⟨_, _, _, large | ⟨short, _⟩⟩ | ⟨q, s, rfl, _, _, same | short⟩
  · exfalso
    obtain ⟨⟨lists, rep⟩, _⟩ := holds.good
    have smallBrk := rep.small
    obtain ⟨more, _, aligned, _⟩ := rounded_aligned (by omega : 0 < max size 1)
    simp only [word, headerSize] at large smallBrk fits
    omega
  · exact absurd short room
  · exact ⟨Nat.succ_ne_zero _, same⟩
  · exact absurd short room

/-- Two blocks that are given back one after the other serve a request that fits into neither. -/
theorem runs_reclaim_merged : ∃ outs last, (Session.initial (fun _ => 0) 4096).run
      [(fun _ => true, .malloc 100), (fun _ => true, .malloc 100), (fun _ => true, .free 4120),
        (fun _ => true, .free 4248)] = some (outs, last) ∧
    ∃ p after, malloc (fun _ => false) last.heap 200 = some (p, after) ∧ p ≠ 0 ∧
      after.brk = last.heap.brk := by
  have legal : (Session.initial (fun _ => 0) 4096).LegalRun
      [(fun _ => true, .malloc 100), (fun _ => true, .malloc 100), (fun _ => true, .free 4120),
        (fun _ => true, .free 4248)] := by
    refine ⟨trivial, fun out next eq => ⟨trivial, fun out' next' eq' => ⟨.inr ⟨100, ?_⟩,
      fun out'' next'' eq'' => ⟨.inr ⟨100, ?_⟩, fun _ _ _ => trivial⟩⟩⟩⟩
    · cases eq
      cases eq'
      rfl
    · cases eq
      cases eq'
      cases eq''
      rfl
  obtain ⟨outs, last, ran, _⟩ := runs_store (fun _ => 0) 4096 _ (by decide) (by decide) legal
  refine ⟨outs, last, ran, runs_reclaim _ _ 200 _ outs last (by decide) (by decide) legal ran ?_ ?_⟩
  · have sizes : last.sizes = update (update (update (update
        (fun _ : Nat => (none : Option (Bool × Nat))) 4120 (some (true, 100))) 4248
        (some (true, 100))) 4120 none) 4248 none := by
      cases ran
      rfl
    intro p
    rw [Session.store, sizes, Option.map_eq_none_iff]
    by_cases second : p = 4248
    · rw [second, update_self]
    · by_cases first : p = 4120
      · rw [first, update_of_ne (by decide), update_self]
      · rw [update_of_ne second, update_of_ne first, update_of_ne second, update_of_ne first]
  · cases ran
    decide

end SymphonyPlus.NativeHeap
