import SymphonyPlus.CTypes
import SymphonyPlus.Tokenize

/-!
Struct members: `struct_members` of `symcc/src/parse.c` on member declarations whose types and widths
are parsed.
-/

namespace SymphonyPlus

open Except

namespace Layout

/-- The type of a member, as the declaration finds it and as it is in the end. -/
structure MemberType where
  now : CType
  whole : CType
  completes : now.Completes whole
  deriving DecidableEq

def MemberType.funcToPtr (ty : MemberType) : MemberType :=
  ⟨ty.now.funcToPtr, ty.whole.funcToPtr, ty.completes.funcToPtr⟩

def MemberType.plain (ty : CType) : MemberType := ⟨ty, ty, .same ty⟩

structure Declarator where
  name : Option (List Char)
  ty : MemberType
  width : Option Int
  deriving DecidableEq

inductive Declaration
  | unnamed (width : Int)
  | members (declarators : List Declarator)
  deriving DecidableEq

structure Member where
  name : List Char
  ty : MemberType
  offset : Nat
  /-- The bit in the unit, from the highest on, and the width. -/
  bits : Option (Nat × Nat)
  deriving DecidableEq

/-- `checked_layout`, for an alignment that is a power of two. -/
def checkedLayout (pos bytes align : Nat) : Except Failure Nat :=
  if 0x7fffffff - (align - 1) < pos then exitWith "aggregate/frame size out of range\n"
  else
    let start := (pos + align - 1) / align * align
    if 0x7fffffff - start < bytes then exitWith "aggregate/frame size out of range\n"
    else .ok (start + bytes)

structure State where
  members : List Member
  off : Nat
  inBf : Bool
  bitpos : Nat
  deriving DecidableEq

def State.leave (st : State) : Except Failure Nat :=
  if st.inBf then checkedLayout st.off 4 1 else .ok st.off

def State.reserve (st : State) (width : Nat) : Except Failure State :=
  if !st.inBf || st.bitpos + width > 32 then do
    let off ← st.leave
    let off ← checkedLayout off 0 4
    return { st with off, bitpos := 0, inBf := true }
  else .ok st

def State.close (st : State) : State := { st with inBf := false, bitpos := 32 }

def State.unnamed (st : State) (width : Int) : Except Failure State :=
  if width < 0 ∨ 32 < width then exitWith "bit-field width out of range"
  else if width = 0 then .ok st.close
  else do
    let st ← st.reserve width.toNat
    return { st with bitpos := st.bitpos + width.toNat }

def State.plain (st : State) (name : List Char) (ty : MemberType) : Except Failure State := do
  let off ← st.leave
  let offset ← checkedLayout off 0 ty.now.align
  let off ← checkedLayout offset ty.now.size 1
  return { st with
    members := st.members ++ [{ name, ty, offset, bits := none }], off, inBf := false }

def State.field (st : State) (name : List Char) (ty : MemberType) (width : Nat) :
    Except Failure State := do
  let st ← st.reserve width
  return { st with
    members := st.members ++ [{ name, ty, offset := st.off, bits := some (st.bitpos, width) }]
    bitpos := st.bitpos + width }

def State.declarator (st : State) (declared : Declarator) : Except Failure State :=
  let ty := declared.ty.funcToPtr
  if declared.width.any fun width => width < 0 ∨ 32 < width then
    exitWith "bit-field width out of range"
  else
    match declared.name with
    | none => exitWith "member name missing"
    | some name =>
        if ty.now = .void then exitWith "member of type void"
        else
          match declared.width with
          | none => st.plain name ty
          | some width => if width = 0 then .ok st.close else st.field name ty width.toNat

def State.declaration (st : State) : Declaration → Except Failure State
  | .unnamed width => st.unnamed width
  | .members declarators => declarators.foldlM State.declarator st

def structMembers (declarations : List Declaration) : Except Failure (List Member × Nat) := do
  let st ← declarations.foldlM State.declaration
    { members := [], off := 0, inBf := false, bitpos := 0 }
  let off ← st.leave
  let size ← checkedLayout off 0 4
  if size = 0 then exitWith "empty struct/union not supported"
  else return (st.members, size)

/-! Where members lie. -/

def Member.start (m : Member) : Nat := 8 * m.offset + (m.bits.map Prod.fst).getD 0

def Member.stop (m : Member) : Nat := m.start + (m.bits.map Prod.snd).getD (8 * m.ty.whole.size)

structure Sound (members : List Member) (size : Nat) : Prop where
  ordered : members.Pairwise fun first second => first.stop ≤ second.start
  plain : ∀ m ∈ members, m.bits = none → m.offset % m.ty.whole.align = 0
  field : ∀ m ∈ members, ∀ bit width, m.bits = some (bit, width) →
    m.offset % 4 = 0 ∧ bit + width ≤ 32
  inside : ∀ m ∈ members, m.stop ≤ 8 * size
  whole : size % 4 = 0

/-! When the layout is sound. -/

inductive Item
  | field (named : Bool) (width : Nat)
  | plain (align now whole : Nat)
  deriving DecidableEq, Repr

def Declarator.item (declared : Declarator) : Item :=
  let ty := declared.ty.funcToPtr
  match declared.width with
  | none => .plain ty.now.align ty.now.size ty.whole.size
  | some width => .field true width.toNat

def Declaration.items : Declaration → List Item
  | .unnamed width => [.field false width.toNat]
  | .members declarators => declarators.map Declarator.item

/-- What is known at an offset: its place in a word, the bits that are used of an open unit, and the
bits from the offset on that members before it reach. -/
structure Place where
  pos : Nat
  used : Option Nat
  held : Nat
  deriving DecidableEq, Repr

def Place.skip (place : Place) (bytes : Nat) : Place :=
  { place with pos := (place.pos + bytes) % 4, held := place.held - 8 * bytes }

def Place.leave (place : Place) : Place :=
  if place.used.isSome then { place.skip 4 with used := none } else place

def Place.align (place : Place) (align : Nat) : Place :=
  place.skip ((align - place.pos % align) % align)

/-- The unit that takes a bit-field: the open one if it has the room, or the next one. -/
def Place.unit (place : Place) (width : Nat) : Place :=
  match place.used with
  | some n => if n + width ≤ 32 then place else { place.leave.align 4 with used := some 0 }
  | none => { place.align 4 with used := some 0 }

/-- A named member does not lie over bits that are held. -/
def Item.free (place : Place) : Item → Prop
  | .plain align _ _ => (place.leave.align align).held = 0
  | .field named width => named = true → 0 < width →
      (place.unit width).held ≤ (place.unit width).used.getD 0

/-- The place behind an item: a bit-field of width 0 forgets the unit and what is held in it, and a
member that is larger in the end than when it is laid out holds what comes next. -/
def Item.next (place : Place) : Item → Place
  | .plain align now whole =>
      { pos := ((place.leave.align align).pos + now) % 4, used := none, held := 8 * (whole - now) }
  | .field _ 0 => { place with used := none }
  | .field named (width + 1) =>
      let unit := place.unit (width + 1)
      let stop := unit.used.getD 0 + (width + 1)
      { unit with used := some stop, held := if named then stop else unit.held }

/-- Every named member and the end of the struct leave the held bits alone. -/
def KeepsUnits : List Item → Place → Prop
  | [], place => (place.leave.align 4).held = 0
  | item :: rest, place => item.free place ∧ KeepsUnits rest (item.next place)

def firstPlace : Place := { pos := 0, used := none, held := 0 }

structure Reach (members : List Member) (off held : Nat) : Prop where
  below : ∀ m ∈ members, m.stop ≤ 8 * off + held
  reached : 0 < held → ∃ m ∈ members, m.stop = 8 * off + held

theorem Reach.skip {members : List Member} {off held : Nat} (reach : Reach members off held)
    (bytes : Nat) : Reach members (off + bytes) (held - 8 * bytes) := by
  constructor
  · intro m member
    have below := reach.below m member
    omega
  · intro positive
    obtain ⟨m, member, stop⟩ := reach.reached (by omega)
    exact ⟨m, member, by omega⟩

def Ordered (members : List Member) : Prop :=
  members.Pairwise fun first second => first.stop ≤ second.start

theorem not_ordered_append {members : List Member} {m last : Member} (member : m ∈ members)
    (overlap : last.start < m.stop) : ¬Ordered (members ++ [last]) := fun ordered =>
  absurd ((List.pairwise_append.mp ordered).2.2 m member last List.mem_cons_self) (by omega)

/-- A further member is in order exactly if it begins behind what is held. -/
theorem Reach.ordered_append {members : List Member} {off held start : Nat} {last : Member}
    (reach : Reach members off held) (ordered : Ordered members)
    (place : last.start = 8 * off + start) :
    Ordered (members ++ [last]) ↔ held ≤ start := by
  constructor
  · intro ordered
    by_contra beyond
    obtain ⟨m, member, stop⟩ := reach.reached (by omega)
    exact not_ordered_append member (by omega) ordered
  · intro free
    refine List.pairwise_append.mpr ⟨ordered, List.pairwise_singleton _ _, fun first early m final => ?_⟩
    have below := reach.below first early
    rw [List.mem_singleton.mp final]
    omega

structure Tracks (st : State) (place : Place) : Prop where
  open_ : st.inBf = place.used.isSome
  bitpos : ∀ n ∈ place.used, st.bitpos = n ∧ n ≤ 32 ∧ st.off % 4 = 0
  pos : place.pos = st.off % 4
  reach : Reach st.members st.off place.held
  ordered : Ordered st.members
  plain : ∀ m ∈ st.members, m.bits = none → m.offset % m.ty.whole.align = 0
  field : ∀ m ∈ st.members, ∀ bit width, m.bits = some (bit, width) →
    m.offset % 4 = 0 ∧ bit + width ≤ 32

theorem checkedLayout_spec {pos bytes align n : Nat} (laid : checkedLayout pos bytes align = .ok n)
    (power : align = 1 ∨ align = 2 ∨ align = 4) :
    n = pos + (align - pos % 4 % align) % align + bytes := by
  rw [checkedLayout] at laid
  split at laid
  · cases laid
  · dsimp only at laid
    split at laid
    · cases laid
    · cases laid
      rcases power with rfl | rfl | rfl <;> omega

structure At (members : List Member) (off : Nat) (place : Place) : Prop where
  pos : place.pos = off % 4
  reach : Reach members off place.held

theorem At.align {members : List Member} {off offset align : Nat} {place : Place}
    (here : At members off place) (power : align = 1 ∨ align = 2 ∨ align = 4)
    (laid : checkedLayout off 0 align = .ok offset) :
    At members offset (place.align align) ∧ offset % align = 0 := by
  have same := checkedLayout_spec laid power
  rw [← here.pos, Nat.add_zero] at same
  have known := here.pos
  refine ⟨⟨?_, ?_⟩, ?_⟩
  · rw [Place.align, Place.skip, same]
    rcases power with rfl | rfl | rfl <;> dsimp only <;> omega
  · rw [same]
    exact here.reach.skip _
  · rcases power with rfl | rfl | rfl <;> omega

theorem leave_spec {st : State} {place : Place} {off : Nat} (tracks : Tracks st place)
    (left : st.leave = .ok off) : At st.members off place.leave ∧ place.leave.used = none := by
  rw [State.leave, tracks.open_] at left
  unfold Place.leave
  have known := tracks.pos
  split at left
  · rename_i inside
    rw [if_pos inside]
    have same := checkedLayout_spec left (.inl rfl)
    obtain rfl : off = st.off + 4 := by omega
    refine ⟨⟨?_, tracks.reach.skip 4⟩, rfl⟩
    simp only [Place.skip]
    omega
  · rename_i outside
    cases left
    rw [if_neg outside]
    exact ⟨⟨known, tracks.reach⟩, Option.not_isSome_iff_eq_none.mp outside⟩

theorem reserve_members {st st' : State} {width : Nat} (reserved : st.reserve width = .ok st') :
    st'.members = st.members := by
  rw [State.reserve] at reserved
  split at reserved
  · obtain ⟨_, _, reserved⟩ := of_bind_ok reserved
    obtain ⟨_, _, reserved⟩ := of_bind_ok reserved
    cases reserved
    rfl
  · cases reserved
    rfl

structure Reserved (st : State) (unit : Place) (width : Nat) : Prop where
  open_ : st.inBf = true
  used : unit.used = some st.bitpos
  fits : st.bitpos + width ≤ 32
  aligned : st.off % 4 = 0
  here : At st.members st.off unit

theorem reserve_spec {st st' : State} {place : Place} {width : Nat} (tracks : Tracks st place)
    (small : width ≤ 32) (reserved : st.reserve width = .ok st') :
    Reserved st' (place.unit width) width := by
  have other {off : Nat} (unit : Place) (left : At st.members off unit)
      (reserved : (checkedLayout off 0 4).bind (fun off =>
        .ok { st with off, bitpos := 0, inBf := true }) = .ok st') :
      Reserved st' { unit.align 4 with used := some 0 } width := by
    obtain ⟨next, laid, same⟩ := of_bind_ok reserved
    cases same
    obtain ⟨here, aligned⟩ := left.align (.inr (.inr rfl)) laid
    exact ⟨rfl, rfl, by simpa using small, aligned, here.pos, here.reach⟩
  rw [State.reserve, tracks.open_] at reserved
  unfold Place.unit
  cases used : place.used with
  | none =>
      simp only [used, Option.isSome_none, Bool.not_false, Bool.true_or, if_true] at reserved
      obtain ⟨off, left, reserved⟩ := of_bind_ok reserved
      obtain ⟨here, -⟩ := leave_spec tracks left
      rw [Place.leave, used] at here
      exact other place here reserved
  | some n =>
      obtain ⟨bitpos, _, aligned⟩ := tracks.bitpos n used
      dsimp only
      by_cases fits : n + width ≤ 32
      · have room : ¬32 < st.bitpos + width := by omega
        simp only [used, Option.isSome_some, Bool.not_true, Bool.false_or, decide_eq_true_eq,
          gt_iff_lt, if_neg room] at reserved
        cases reserved
        rw [if_pos fits]
        exact ⟨by rw [tracks.open_, used]; rfl, by rw [used, bitpos], by omega, aligned,
          tracks.pos, tracks.reach⟩
      · have full : 32 < st.bitpos + width := by omega
        simp only [used, Option.isSome_some, Bool.not_true, Bool.false_or, decide_eq_true_eq,
          gt_iff_lt, if_pos full] at reserved
        rw [if_neg fits]
        obtain ⟨off, left, reserved⟩ := of_bind_ok reserved
        obtain ⟨here, -⟩ := leave_spec tracks left
        exact other place.leave here reserved

/-! One item at a time. -/

def AllFree : List Item → Place → Prop
  | [], _ => True
  | item :: rest, place => item.free place ∧ AllFree rest (item.next place)

def advance (items : List Item) (place : Place) : Place := items.foldl Item.next place

theorem keepsUnits_append (items rest : List Item) (place : Place) :
    KeepsUnits (items ++ rest) place ↔ AllFree items place ∧ KeepsUnits rest (advance items place) := by
  induction items generalizing place with
  | nil => simp [AllFree, advance]
  | cons item items ih =>
      rw [List.cons_append, KeepsUnits, ih, AllFree, and_assoc]
      rfl

theorem allFree_append (items rest : List Item) (place : Place) :
    AllFree (items ++ rest) place ↔ AllFree items place ∧ AllFree rest (advance items place) := by
  induction items generalizing place with
  | nil => simp [AllFree, advance]
  | cons item items ih =>
      rw [List.cons_append, AllFree, ih, AllFree, and_assoc]
      rfl

theorem Ordered.initial {first second : List Member} (ordered : Ordered second)
    (kept : first <+: second) : Ordered first :=
  ordered.sublist kept.sublist

structure Goes (st : State) (items : List Item) (st' : State) : Prop where
  kept : st.members <+: st'.members
  tracks : ∀ {place}, Tracks st place → AllFree items place → Tracks st' (advance items place)
  overlaps : ∀ {place}, Tracks st place → ¬AllFree items place → ¬Ordered st'.members

theorem Goes.refl (st : State) : Goes st [] st :=
  ⟨List.prefix_refl _, fun tracks _ => tracks, fun _ refused => absurd trivial refused⟩

theorem Goes.trans {st st' st'' : State} {items rest : List Item} (first : Goes st items st')
    (second : Goes st' rest st'') : Goes st (items ++ rest) st'' := by
  refine ⟨first.kept.trans second.kept, fun tracks free => ?_, fun tracks refused ordered => ?_⟩
  · obtain ⟨early, late⟩ := (allFree_append _ _ _).mp free
    rw [advance, List.foldl_append]
    exact second.tracks (first.tracks tracks early) late
  · rw [allFree_append, not_and] at refused
    by_cases early : AllFree items ‹_›
    · exact second.overlaps (first.tracks tracks early) (refused early) ordered
    · exact first.overlaps tracks early (ordered.initial second.kept)

theorem goes_foldlM {α : Type} {act : State → α → Except Failure State} (items : α → List Item)
    (each : ∀ st x st', act st x = .ok st' → Goes st (items x) st') {xs : List α} {st st' : State}
    (done : xs.foldlM act st = .ok st') : Goes st (xs.flatMap items) st' := by
  induction xs generalizing st with
  | nil =>
      cases done
      exact .refl _
  | cons x xs ih =>
      rw [List.foldlM_cons] at done
      obtain ⟨next, first, rest⟩ := of_bind_ok done
      exact (each st x next first).trans (ih rest)

theorem goes_single {st st' : State} {item : Item} (kept : st.members <+: st'.members)
    (tracks : ∀ {place}, Tracks st place → item.free place → Tracks st' (item.next place))
    (overlaps : ∀ {place}, Tracks st place → ¬item.free place → ¬Ordered st'.members) :
    Goes st [item] st' :=
  ⟨kept, fun known free => tracks known free.1,
    fun known refused => overlaps known fun free => refused ⟨free, trivial⟩⟩

theorem goes_close (st : State) (named : Bool) : Goes st [.field named 0] st.close := by
  refine goes_single (List.prefix_refl _) (fun tracks _ => ?_) fun _ refused => ?_
  · exact ⟨rfl, nofun, tracks.pos, tracks.reach, tracks.ordered, tracks.plain, tracks.field⟩
  · exact absurd (fun _ positive => absurd positive (Nat.lt_irrefl 0)) refused

theorem goes_unnamed {st st' : State} {width : Nat} (positive : 0 < width) (small : width ≤ 32)
    (reserved : st.reserve width = .ok st') :
    Goes st [.field false width] { st' with bitpos := st'.bitpos + width } := by
  have members := reserve_members reserved
  refine goes_single (members ▸ List.prefix_refl _) (fun tracks _ => ?_) fun _ refused =>
    absurd nofun refused
  obtain ⟨width, rfl⟩ := Nat.exists_eq_succ_of_ne_zero (Nat.ne_of_gt positive)
  obtain ⟨open_, used, fits, aligned, here⟩ := reserve_spec tracks small reserved
  refine ⟨open_, fun n same => ?_, here.pos, here.reach, ?_, ?_, ?_⟩
  · simp only [Item.next, used, Option.getD_some] at same
    cases same
    exact ⟨rfl, fits, aligned⟩
  all_goals simp only [members]
  · exact tracks.ordered
  · exact tracks.plain
  · exact tracks.field

theorem forall_append_singleton {P : Member → Prop} {members : List Member} {last : Member}
    (before : ∀ m ∈ members, P m) (final : P last) : ∀ m ∈ members ++ [last], P m := by
  intro m member
  rcases List.mem_append.mp member with early | late
  · exact before m early
  · rw [List.mem_singleton.mp late]
    exact final

/-- Behind a member that begins behind everything, only what it has left is held. -/
theorem Reach.append {members : List Member} {off held start off' held' : Nat} {last : Member}
    (reach : Reach members off held) (free : held ≤ start) (place : last.start = 8 * off + start)
    (after : last.stop ≤ 8 * off' + held') (passed : 8 * off + start ≤ 8 * off' + held')
    (left_ : 0 < held' → last.stop = 8 * off' + held') : Reach (members ++ [last]) off' held' := by
  constructor
  · refine forall_append_singleton (fun m member => ?_) after
    have below := reach.below m member
    omega
  · intro positive
    exact ⟨last, List.mem_append_right _ List.mem_cons_self, left_ positive⟩

theorem goes_field {st st' : State} {name : List Char} {ty : MemberType} {width : Nat}
    (positive : 0 < width) (small : width ≤ 32) (placed : st.field name ty width = .ok st') :
    Goes st [.field true width] st' := by
  obtain ⟨next, reserved, same⟩ := of_bind_ok placed
  cases same
  have members := reserve_members reserved
  refine goes_single ⟨_, by rw [members]⟩ (fun tracks free => ?_) fun tracks refused ordered => ?_
  · obtain ⟨open_, used, fits, aligned, here⟩ := reserve_spec tracks small reserved
    have ordered : Ordered next.members := by rw [members]; exact tracks.ordered
    have free := free rfl positive
    rw [used, Option.getD_some] at free
    obtain ⟨width, rfl⟩ := Nat.exists_eq_succ_of_ne_zero (Nat.ne_of_gt positive)
    have start : Member.start ⟨name, ty, next.off, some (next.bitpos, width + 1)⟩ =
        8 * next.off + next.bitpos := rfl
    have stop : Member.stop ⟨name, ty, next.off, some (next.bitpos, width + 1)⟩ =
        8 * next.off + (next.bitpos + (width + 1)) := Nat.add_assoc _ _ _
    refine ⟨open_, fun n same => ?_, here.pos, ?_, ?_, ?_, ?_⟩
    · simp only [Item.next, used, Option.getD_some] at same
      cases same
      exact ⟨rfl, fits, aligned⟩
    · simp only [Item.next, used, Option.getD_some, if_true]
      exact here.reach.append free start (le_of_eq stop) (by omega) fun _ => stop
    · exact (here.reach.ordered_append ordered start).mpr free
    · refine forall_append_singleton ?_ nofun
      rw [members]
      exact tracks.plain
    · refine forall_append_singleton ?_ ?_
      · rw [members]
        exact tracks.field
      · rintro bit width' ⟨⟩
        exact ⟨aligned, fits⟩
  · obtain ⟨open_, used, fits, aligned, here⟩ := reserve_spec tracks small reserved
    have before : Ordered next.members := by rw [members]; exact tracks.ordered
    refine refused fun _ _ => ?_
    rw [used, Option.getD_some]
    exact (here.reach.ordered_append before rfl).mp ordered

theorem goes_plain {st st' : State} {name : List Char} {ty : MemberType}
    (placed : st.plain name ty = .ok st') :
    Goes st [.plain ty.now.align ty.now.size ty.whole.size] st' := by
  obtain ⟨off, left, placed⟩ := of_bind_ok placed
  obtain ⟨offset, laid, placed⟩ := of_bind_ok placed
  obtain ⟨after, passed, same⟩ := of_bind_ok placed
  cases same
  have size := checkedLayout_spec passed (.inl rfl)
  obtain rfl : after = offset + ty.now.size := by omega
  refine goes_single ⟨_, rfl⟩ (fun tracks free => ?_) fun tracks refused ordered => ?_
  · obtain ⟨leaving, -⟩ := leave_spec tracks left
    obtain ⟨here, aligned⟩ := leaving.align ty.now.align_cases laid
    have free : (_ : Place).held = 0 := free
    have known := here.pos
    have stop : Member.stop ⟨name, ty, offset, none⟩ = 8 * offset + 8 * ty.whole.size := rfl
    refine ⟨rfl, nofun, ?_, ?_, ?_, ?_, ?_⟩
    · simp only [Item.next]
      omega
    · refine here.reach.append (Nat.le_of_eq free) rfl ?_ ?_ fun positive => ?_
      all_goals simp only [Item.next] at *; omega
    · exact (here.reach.ordered_append tracks.ordered rfl).mpr (Nat.le_of_eq free)
    · refine forall_append_singleton tracks.plain fun _ => ?_
      rw [ty.completes.align]
      exact aligned
    · exact forall_append_singleton tracks.field nofun
  · obtain ⟨leaving, -⟩ := leave_spec tracks left
    obtain ⟨here, -⟩ := leaving.align ty.now.align_cases laid
    exact refused (Nat.le_zero.mp ((here.reach.ordered_append tracks.ordered rfl).mp ordered))

theorem goes_declarator {st st' : State} (declared : Declarator)
    (done : st.declarator declared = .ok st') : Goes st [declared.item] st' := by
  rw [State.declarator] at done
  split at done
  · cases done
  · rename_i width
    split at done
    · cases done
    · split at done
      · cases done
      · rw [Declarator.item]
        split at done
        · exact goes_plain done
        · rename_i w bits
          rw [bits] at width
          simp only [Option.any_some, decide_eq_true_eq, not_or, Int.not_lt] at width
          split at done
          · rename_i zero
            cases done
            rw [zero]
            exact goes_close st true
          · exact goes_field (by omega) (by omega) done

theorem goes_declaration {st st' : State} (declaration : Declaration)
    (done : st.declaration declaration = .ok st') : Goes st declaration.items st' := by
  cases declaration with
  | unnamed width =>
      rw [State.declaration, State.unnamed] at done
      split at done
      · cases done
      · rename_i range
        rw [not_or, Int.not_lt, Int.not_lt] at range
        split at done
        · rename_i zero
          cases done
          rw [Declaration.items, zero]
          exact goes_close st false
        · obtain ⟨next, reserved, same⟩ := of_bind_ok done
          cases same
          exact goes_unnamed (by omega) (by omega) reserved
  | members declarators =>
      have run := goes_foldlM (fun declared => [Declarator.item declared])
        (fun _ declared _ => goes_declarator declared) done
      rwa [← List.map_eq_flatMap] at run

/-- The layout of a struct is sound exactly if neither a bit-field of width 0 nor a type that was
incomplete leaves bits behind on which the next named member is laid or which the end does not
count. -/
theorem structMembers_sound_iff {declarations : List Declaration} {members : List Member} {size : Nat}
    (accepted : structMembers declarations = .ok (members, size)) :
    Sound members size ↔ KeepsUnits (declarations.flatMap Declaration.items) firstPlace := by
  obtain ⟨st, run, accepted⟩ := of_bind_ok accepted
  obtain ⟨off, left, accepted⟩ := of_bind_ok accepted
  obtain ⟨size', aligned, accepted⟩ := of_bind_ok accepted
  split at accepted
  · cases accepted
  · cases accepted
    have start : Tracks { members := [], off := 0, inBf := false, bitpos := 0 } firstPlace :=
      ⟨rfl, nofun, rfl, ⟨nofun, nofun⟩, .nil, nofun, nofun⟩
    have goes := goes_foldlM Declaration.items
      (fun _ declaration _ => goes_declaration declaration) run
    have keeps := keepsUnits_append (declarations.flatMap Declaration.items) [] firstPlace
    rw [List.append_nil] at keeps
    rw [keeps]
    by_cases free : AllFree (declarations.flatMap Declaration.items) firstPlace
    · have tracks := goes.tracks start free
      obtain ⟨leaving, -⟩ := leave_spec tracks left
      obtain ⟨here, whole⟩ := leaving.align (.inr (.inr rfl)) aligned
      constructor
      · intro sound
        refine ⟨free, ?_⟩
        by_contra lost
        obtain ⟨m, member, stop⟩ := here.reach.reached (Nat.pos_of_ne_zero lost)
        have inside := sound.inside m member
        exact lost (by rw [KeepsUnits] at *; omega)
      · rintro ⟨_, counted⟩
        refine ⟨tracks.ordered, tracks.plain, tracks.field, fun m member => ?_, whole⟩
        have below := here.reach.below m member
        rw [KeepsUnits] at counted
        omega
    · constructor
      · exact fun sound => absurd sound.ordered (goes.overlaps start free)
      · exact fun keeps => absurd keeps.1 free

/-- `struct { int a : 3; char c; short s; }`. -/
def mixedMembers : List Declaration :=
  [.members [⟨some ['a'], .plain (.int false), some 3⟩],
    .members [⟨some ['c'], .plain (.char false), none⟩],
    .members [⟨some ['s'], .plain (.short false), none⟩]]

theorem mixedMembers_sound : ∃ members, structMembers mixedMembers = .ok (members, 8) ∧
    Sound members 8 := by
  have accepted : structMembers mixedMembers = .ok ([⟨['a'], .plain (.int false), 0, some (0, 3)⟩,
    ⟨['c'], .plain (.char false), 4, none⟩, ⟨['s'], .plain (.short false), 6, none⟩], 8) := rfl
  refine ⟨_, accepted, (structMembers_sound_iff accepted).mpr ?_⟩
  simp [mixedMembers, Declaration.items, Declarator.item, KeepsUnits, Item.free, Item.next]
  decide

/-- `struct { int a : 3; int : 0; int b; }` has both members in its first word. -/
theorem zeroWidth_unsound : ∃ declarations members size,
    structMembers declarations = .ok (members, size) ∧ ¬Sound members size := by
  refine ⟨[.members [⟨some ['a'], .plain (.int false), some 3⟩], .unnamed 0,
    .members [⟨some ['b'], .plain (.int false), none⟩]], _, 4, rfl, fun sound => ?_⟩
  have ordered := sound.ordered
  revert ordered
  decide

/-- `struct S { struct S x; int y; }` has both members at offset 0. -/
example : (structMembers [.members [⟨some ['x'], ⟨.struct 0, .struct 4, .struct 0 4⟩, none⟩],
    .members [⟨some ['y'], .plain (.int false), none⟩]]).map
      (fun laid => (laid.1.map Member.offset, laid.2)) = .ok ([0, 0], 4) := rfl

end Layout

end SymphonyPlus
