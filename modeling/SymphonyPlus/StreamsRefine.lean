import SymphonyPlus.Streams

/-! A stream follows a file whose position is as far behind as the buffer has unread bytes. -/

namespace SymphonyPlus.Stdio

def Clean (reads : List (Option Nat)) : Prop := ∀ outcome ∈ reads, outcome ≠ none

theorem Clean.tail {reads : List (Option Nat)} (clean : Clean reads) : Clean reads.tail :=
  fun outcome inside => clean outcome (List.mem_of_mem_tail inside)

/-- The unread bytes of the buffer are those of the file at the position. -/
structure Follows (f : FILE) (d : Direct) : Prop where
  flags : f.flags = 3
  content : f.fd.content = d.content
  append : f.fd.append = d.append
  writes : f.fd.writes = d.writes
  pos : f.pos ≤ f.len
  place : d.offset + (f.len - f.pos) = f.fd.offset
  ahead : ∀ i < f.len - f.pos, ∃ c, f.buf[f.pos + i]? = some c ∧ d.content[d.offset + i]? = some c
  offset : f.fd.offset < 2 ^ 31
  length : f.fd.content.length < 2 ^ 31

structure Marks (before f : FILE) (d : Direct) : Prop where
  ended : d.ended = true → f.eof = true
  eof : f.eof = true → before.eof = true ∨ d.ended = true
  error : f.error = (before.error || d.failed)

structure Mirrors {α : Type} (before : FILE) (clean : Prop) (done : α × FILE) (direct : α × Direct) :
    Prop where
  result : done.1 = direct.1
  follows : Follows done.2 direct.2
  marks : Marks before done.2 direct.2
  clean : clean → Clean done.2.fd.reads

theorem Mirrors.map {α β : Type} {before : FILE} {clean : Prop} {done : α × FILE}
    {direct : α × Direct} (mirrors : Mirrors before clean done direct) (g : α → β) :
    Mirrors before clean (g done.1, done.2) (g direct.1, direct.2) :=
  ⟨congrArg g mirrors.result, mirrors.follows, mirrors.marks, mirrors.clean⟩

section
variable {f before : FILE} {d : Direct}

theorem Mirrors.same {α : Type} (a : α) (follows : Follows f d) (marks : Marks before f d) :
    Mirrors before (Clean f.fd.reads) (a, f) (a, d) := ⟨rfl, follows, marks, id⟩

inductive ReadDoes (d : Descriptor) (count : Nat) : Prop
  | failed (dirty : ¬Clean d.reads) (done : d.read count = (none, { d with reads := d.reads.tail }))
  | ended (past : d.content.length ≤ d.offset)
      (done : d.read count = (some [], { d with reads := d.reads.tail }))
  | delivered (c : BitVec 8) (rest : List (BitVec 8))
      (same : ∀ i < rest.length + 1, d.content[d.offset + i]? = (c :: rest)[i]?)
      (done : d.read count = (some (c :: rest),
        { d with reads := d.reads.tail, offset := d.offset + (rest.length + 1) }))

theorem read_chunk {d : Descriptor} {count most : Nat} {chunk : List (BitVec 8)}
    (allowed : quota count d.reads.head? = some most)
    (taken : (d.content.drop d.offset).take (max 1 most) = chunk) :
    d.read count = (some chunk,
      { d with reads := d.reads.tail, offset := d.offset + chunk.length }) := by
  simp only [Descriptor.read, allowed, taken]

theorem read_does (d : Descriptor) (count : Nat) : ReadDoes d count := by
  cases allowed : quota count d.reads.head? with
  | none =>
      refine .failed ?_ ?_
      · intro clean
        cases reads : d.reads with
        | nil =>
            rw [reads] at allowed
            cases allowed
        | cons outcome rest =>
            rw [reads] at allowed
            cases outcome with
            | none => exact clean none (reads ▸ List.mem_cons_self) rfl
            | some most => cases allowed
      · simp only [Descriptor.read, allowed]
  | some most =>
      cases taken : (d.content.drop d.offset).take (max 1 most) with
      | nil =>
          refine .ended ?_ (read_chunk allowed taken)
          rcases List.take_eq_nil_iff.mp taken with none | none
          · omega
          · exact List.drop_eq_nil_iff.mp none
      | cons c rest =>
          refine .delivered c rest ?_ (read_chunk allowed taken)
          intro i inside
          have size := congrArg List.length taken
          rw [List.length_take, List.length_cons] at size
          rw [← taken, List.getElem?_take_of_lt (by omega), List.getElem?_drop]

theorem readable (follows : Follows f d) : ¬f.flags &&& 1 = 0 := by
  rw [follows.flags]
  decide

/-- A stream whose buffer is spent is at the position itself. -/
theorem follows_spent {after : FILE} {d : Direct} (flags : after.flags = 3)
    (content : after.fd.content = d.content) (append : after.fd.append = d.append)
    (writes : after.fd.writes = d.writes) (spent : after.pos = after.len)
    (place : d.offset = after.fd.offset) (offset : after.fd.offset < 2 ^ 31)
    (length : after.fd.content.length < 2 ^ 31) : Follows after d :=
  ⟨flags, content, append, writes, by omega, by omega, fun i inside => by omega, offset, length⟩

def Direct.next (d : Direct) : Direct := { d with offset := d.offset + 1 }

inductive FgetcDoes (f : FILE) (d : Direct) : Prop
  | got (c : BitVec 8) (after : FILE) (done : fgetc f = (some c, after))
      (here : d.content[d.offset]? = some c) (follows : Follows after d.next)
      (eof : after.eof = f.eof) (error : after.error = f.error)
      (clean : Clean f.fd.reads → Clean after.fd.reads)
  | ended (after : FILE) (done : fgetc f = (none, after)) (past : d.content.length ≤ d.offset)
      (follows : Follows after d) (eof : after.eof = true) (error : after.error = f.error)
      (clean : Clean f.fd.reads → Clean after.fd.reads)
  | failed (after : FILE) (done : fgetc f = (none, after)) (dirty : ¬Clean f.fd.reads)
      (follows : Follows after d) (eof : after.eof = f.eof) (error : after.error = true)

theorem fgetc_unread (follows : Follows f d) (unread : f.pos ≠ f.len) : FgetcDoes f d := by
  have place := follows.place
  have order := follows.pos
  obtain ⟨c, buffered, here⟩ := follows.ahead 0 (by omega)
  have got : fgetc f = (some c, { f with pos := f.pos + 1 }) := by
    rw [fgetc, if_neg (readable follows), if_neg unread, ← buffered]
    rfl
  refine .got c _ got here ?_ rfl rfl id
  refine ⟨follows.flags, follows.content, follows.append, follows.writes, ?_, ?_, ?_,
    follows.offset, follows.length⟩
  · show f.pos + 1 ≤ f.len
    omega
  · show d.offset + 1 + (f.len - (f.pos + 1)) = f.fd.offset
    omega
  · intro i inside
    have inside : i < f.len - (f.pos + 1) := inside
    obtain ⟨c, one, two⟩ := follows.ahead (i + 1) (by omega)
    rw [← Nat.add_assoc, Nat.add_right_comm] at one two
    exact ⟨c, one, two⟩

theorem fgetc_delivered (follows : Follows f d) (spent : f.pos = f.len) {c : BitVec 8}
    {rest : List (BitVec 8)}
    (same : ∀ i < rest.length + 1, f.fd.content[f.fd.offset + i]? = (c :: rest)[i]?)
    (done : f.fd.read 512 = (some (c :: rest),
      { f.fd with reads := f.fd.reads.tail, offset := f.fd.offset + (rest.length + 1) })) :
    FgetcDoes f d := by
  have place := follows.place
  have together : d.offset = f.fd.offset := by omega
  have here : d.content[d.offset]? = some c := by
    rw [← follows.content, together]
    exact same 0 (Nat.succ_pos _)
  have ends : f.fd.offset + (rest.length + 1) ≤ f.fd.content.length := by
    have last := same rest.length (Nat.lt_succ_self _)
    rw [List.getElem?_eq_getElem (l := c :: rest) (by simp)] at last
    have := (List.getElem?_eq_some_iff.mp last).1
    omega
  let buf := c :: rest ++ f.buf.drop (rest.length + 1)
  have got : fgetc f = (some c, { f with
      fd := { f.fd with reads := f.fd.reads.tail, offset := f.fd.offset + (rest.length + 1) }
      pos := 1
      len := rest.length + 1
      buf := buf }) := by
    simp only [fgetc, if_neg (readable follows), if_pos spent, done]
    rfl
  refine .got c _ got here ?_ rfl rfl Clean.tail
  have length := follows.length
  refine ⟨follows.flags, follows.content, follows.append, follows.writes, ?_, ?_, ?_, ?_, length⟩
  · show 1 ≤ rest.length + 1
    omega
  · show d.offset + 1 + (rest.length + 1 - 1) = f.fd.offset + (rest.length + 1)
    omega
  · intro i inside
    have inside : 1 + i < rest.length + 1 := by
      have : i < rest.length + 1 - 1 := inside
      omega
    have found := same (1 + i) inside
    rw [List.getElem?_eq_getElem (l := c :: rest) inside] at found
    refine ⟨(c :: rest)[1 + i], ?_, ?_⟩
    · exact (List.getElem?_append_left inside).trans (List.getElem?_eq_getElem inside)
    · show d.content[d.offset + 1 + i]? = _
      rw [← follows.content, together, Nat.add_assoc]
      exact found
  · show f.fd.offset + (rest.length + 1) < 2 ^ 31
    omega

theorem fgetc_does (follows : Follows f d) : FgetcDoes f d := by
  by_cases spent : f.pos = f.len
  · have together : d.offset = f.fd.offset := by
      have := follows.place
      omega
    cases read_does f.fd 512 with
    | failed dirty done =>
        have got : fgetc f = (none, { f with
            fd := { f.fd with reads := f.fd.reads.tail }, pos := 0, len := 0, error := true }) := by
          simp only [fgetc, if_neg (readable follows), if_pos spent, done]
        exact .failed _ got dirty (follows_spent follows.flags follows.content follows.append
          follows.writes rfl together follows.offset follows.length) rfl rfl
    | ended past done =>
        have got : fgetc f = (none, { f with
            fd := { f.fd with reads := f.fd.reads.tail }, pos := 0, len := 0, eof := true }) := by
          simp only [fgetc, if_neg (readable follows), if_pos spent, done]
        refine .ended _ got ?_ (follows_spent follows.flags follows.content follows.append
          follows.writes rfl together follows.offset follows.length) rfl rfl Clean.tail
        rw [← follows.content, together]
        exact past
    | delivered c rest same done => exact fgetc_delivered follows spent same done
  · exact fgetc_unread follows spent

/-! The two loops over characters are one loop with a last character. -/

def charLoop (stop : BitVec 8 → Bool) : Nat → FILE → List (BitVec 8) × FILE
  | 0, f => ([], f)
  | room + 1, f =>
      match fgetc f with
      | (none, f) => ([], f)
      | (some c, f) =>
          if stop c then ([c], f)
          else
            let rest := charLoop stop room f
            (c :: rest.1, rest.2)

theorem readLoop_eq (total : Nat) (f : FILE) : readLoop total f = charLoop (fun _ => false) total f := by
  induction total generalizing f with
  | zero => rfl
  | succ total ih =>
      rw [readLoop, charLoop]
      rcases fgetc f with ⟨_ | c, after⟩
      · rfl
      · simp only [ih, Bool.false_eq_true, if_false]

theorem lineLoop_eq (room : Nat) (f : FILE) : lineLoop room f = charLoop (· = 10) room f := by
  induction room generalizing f with
  | zero => rfl
  | succ room ih =>
      rw [lineLoop, charLoop]
      rcases fgetc f with ⟨_ | c, after⟩
      · rfl
      · simp only [ih, decide_eq_true_eq]

/-- The bytes of a list that such a loop takes, and whether it takes all it wants. -/
def upTo (stop : BitVec 8 → Bool) : Nat → List (BitVec 8) → List (BitVec 8) × Bool
  | 0, _ => ([], true)
  | _ + 1, [] => ([], false)
  | room + 1, c :: rest =>
      if stop c then ([c], true) else (c :: (upTo stop room rest).1, (upTo stop room rest).2)

theorem upTo_all (total : Nat) (bytes : List (BitVec 8)) :
    upTo (fun _ => false) total bytes = (bytes.take total, decide (total ≤ bytes.length)) := by
  induction total generalizing bytes with
  | zero => simp [upTo]
  | succ total ih =>
      cases bytes with
      | nil => simp [upTo]
      | cons c rest => simp [upTo, ih]

theorem upTo_line (room : Nat) (bytes : List (BitVec 8)) :
    upTo (· = 10) room bytes = (firstLine room bytes,
      decide ((firstLine room bytes).length = room ∨ (firstLine room bytes).any (· = 10))) := by
  induction room generalizing bytes with
  | zero => simp [upTo, firstLine]
  | succ room ih =>
      cases bytes with
      | nil => simp [upTo, firstLine]
      | cons c rest =>
          by_cases newline : c = 10
          · subst newline
            have line : firstLine (room + 1) (10 :: rest) = [10] := by
              simp only [firstLine, List.take_succ_cons, List.takeWhile_cons, ne_eq, not_true,
                decide_false, Bool.false_eq_true, if_false, List.length_nil, List.take_zero]
            simp only [line, upTo, decide_true, if_true, List.any_cons, Bool.true_or, or_true]
          · have line : firstLine (room + 1) (c :: rest) = c :: firstLine room rest := by
              simp only [firstLine, List.take_succ_cons, List.takeWhile_cons, newline, ne_eq,
                not_false_eq_true, decide_true, if_true, List.length_cons]
            simp only [line, upTo, ih, decide_eq_false newline, Bool.false_eq_true, if_false,
              List.length_cons, Nat.add_right_cancel_iff, List.any_cons, Bool.false_or]

theorem upTo_wants {stop : BitVec 8 → Bool} {room : Nat} {bytes : List (BitVec 8)} :
    0 < (upTo stop (room + 1) bytes).1.length ∨ (upTo stop (room + 1) bytes).2 = false := by
  cases bytes with
  | nil => exact .inr rfl
  | cons c rest =>
      left
      rw [upTo]
      split <;> simp

theorem deliver_cons (d : Direct) (c : BitVec 8) (bytes : List (BitVec 8)) (all : Bool)
    (fault : Option Nat) :
    d.deliver (c :: bytes) all (fault.map (· + 1)) =
      (c :: (d.next.deliver bytes all fault).1, (d.next.deliver bytes all fault).2) := by
  cases fault with
  | none => simp [Direct.deliver, Direct.next, Nat.add_assoc, Nat.add_comm 1]
  | some k =>
      simp only [Direct.deliver, Option.map_some, List.length_cons, Nat.add_lt_add_iff_right]
      split
      · simp [Direct.next, Nat.add_assoc, Nat.add_comm 1]
      · simp [Direct.next, Nat.add_assoc, Nat.add_comm 1]

theorem rest_cons {c : BitVec 8} (here : d.content[d.offset]? = some c) :
    d.rest = c :: d.next.rest := by
  obtain ⟨bound, same⟩ := List.getElem?_eq_some_iff.mp here
  rw [Direct.rest, List.drop_eq_getElem_cons bound, same]
  rfl

/-- A loop over characters delivers the bytes at the position. The induction is on the room that is
left: each character moves the position by one. -/
theorem charLoop_mirrors (stop : BitVec 8 → Bool) (room : Nat) (follows : Follows f d)
    (marks : Marks before f d) :
    ∃ fault, (Clean f.fd.reads → fault = none) ∧ Mirrors before (Clean f.fd.reads)
      (charLoop stop room f) (d.deliver (upTo stop room d.rest).1 (upTo stop room d.rest).2 fault) := by
  induction room generalizing f d with
  | zero =>
      refine ⟨none, fun _ => rfl, ?_⟩
      have still : d.deliver [] true none = ([], d) := by simp [Direct.deliver]
      change Mirrors before _ ([], f) (d.deliver [] true none)
      rw [still]
      exact .same [] follows marks
  | succ room ih =>
      rw [charLoop]
      cases fgetc_does follows with
      | got c after done here follows' eof error clean =>
          have marks' : Marks before after d.next :=
            ⟨fun ended => eof.trans (marks.ended ended), fun set => marks.eof (eof ▸ set),
              error.trans marks.error⟩
          simp only [done, rest_cons here, upTo]
          cases last : stop c with
          | true =>
              simp only [if_true]
              have whole := deliver_cons d c [] true none
              have still : d.next.deliver [] true none = ([], d.next) := by simp [Direct.deliver]
              rw [still, Option.map_none] at whole
              refine ⟨none, fun _ => rfl, ?_⟩
              rw [whole]
              exact ⟨rfl, follows', marks', clean⟩
          | false =>
              simp only [Bool.false_eq_true, if_false]
              obtain ⟨fault, faultless, mirrors⟩ := ih follows' marks'
              refine ⟨fault.map (· + 1), fun start => by rw [faultless (clean start)]; rfl, ?_⟩
              rw [deliver_cons]
              exact ⟨congrArg (c :: ·) mirrors.result, mirrors.follows, mirrors.marks,
                fun start => mirrors.clean (clean start)⟩
      | ended after done past follows' eof error clean =>
          have none_ : d.rest = [] := List.drop_eq_nil_of_le past
          simp only [done, none_, upTo]
          have whole : d.deliver [] false none = ([], { d with ended := true }) := by
            simp [Direct.deliver]
          refine ⟨none, fun _ => rfl, ?_⟩
          rw [whole]
          refine ⟨rfl, ?_, ⟨fun _ => eof, fun _ => .inr rfl, error.trans marks.error⟩, clean⟩
          exact ⟨follows'.flags, follows'.content, follows'.append, follows'.writes, follows'.pos,
            follows'.place, follows'.ahead, follows'.offset, follows'.length⟩
      | failed after done dirty follows' eof error =>
          simp only [done]
          have whole : d.deliver (upTo stop (room + 1) d.rest).1 (upTo stop (room + 1) d.rest).2
              (some 0) = ([], { d with failed := true }) := by
            simp [Direct.deliver, upTo_wants]
          refine ⟨some 0, fun clean => absurd clean dirty, ?_⟩
          rw [whole]
          refine ⟨rfl, ?_, ⟨fun ended => eof.trans (marks.ended ended),
            fun set => marks.eof (eof ▸ set), error.trans (Bool.or_true _).symm⟩,
            fun clean => absurd clean dirty⟩
          exact ⟨follows'.flags, follows'.content, follows'.append, follows'.writes, follows'.pos,
            follows'.place, follows'.ahead, follows'.offset, follows'.length⟩

theorem readLoop_mirrors (total : Nat) (follows : Follows f d) (marks : Marks before f d) :
    ∃ fault, (Clean f.fd.reads → fault = none) ∧ Mirrors before (Clean f.fd.reads)
      (readLoop total f) (d.fetch total fault) := by
  have mirrors := charLoop_mirrors (fun _ => false) total follows marks
  rwa [← readLoop_eq, upTo_all] at mirrors

/-- A call that stops before it reads or writes leaves an error. -/
theorem Mirrors.refused {α : Type} (a : α) (follows : Follows f d) (marks : Marks before f d) :
    Mirrors before (Clean f.fd.reads) (a, { f with error := true }) (a, { d with failed := true }) :=
  ⟨rfl, ⟨follows.flags, follows.content, follows.append, follows.writes, follows.pos,
    follows.place, follows.ahead, follows.offset, follows.length⟩,
    ⟨marks.ended, marks.eof, (Bool.or_true _).symm⟩, id⟩

theorem fgetc_mirrors (follows : Follows f d) (marks : Marks before f d) :
    ∃ fault, (Clean f.fd.reads → fault = none) ∧ Mirrors before (Clean f.fd.reads)
      (fgetc f) ((d.fetch 1 fault).1.head?, (d.fetch 1 fault).2) := by
  obtain ⟨fault, faultless, mirrors⟩ := readLoop_mirrors 1 follows marks
  refine ⟨fault, faultless, ?_⟩
  have same : fgetc f = ((readLoop 1 f).1.head?, (readLoop 1 f).2) := by
    rw [readLoop]
    rcases fgetc f with ⟨_ | c, after⟩
    · rfl
    · rfl
  rw [same]
  exact mirrors.map List.head?

theorem fread_mirrors (size count : BitVec 32) (follows : Follows f d) (marks : Marks before f d) :
    ∃ fault, (Clean f.fd.reads → fault = none) ∧ Mirrors before (Clean f.fd.reads)
      (fread size count f) (Direct.read size count fault d) := by
  unfold fread Direct.read
  by_cases empty : size = 0 ∨ count = 0
  · simp only [if_pos empty]
    exact ⟨none, fun _ => rfl, .same _ follows marks⟩
  simp only [if_neg empty]
  by_cases large : (2 ^ 32 - 1) / size.toNat < count.toNat
  · simp only [if_pos large]
    exact ⟨none, fun _ => rfl, .refused _ follows marks⟩
  simp only [if_neg large]
  obtain ⟨fault, faultless, mirrors⟩ := readLoop_mirrors (size.toNat * count.toNat) follows marks
  exact ⟨fault, faultless, mirrors.map fun read => (read, read.length / size.toNat)⟩

theorem fgets_mirrors (cap : BitVec 32) (follows : Follows f d) (marks : Marks before f d) :
    ∃ fault, (Clean f.fd.reads → fault = none) ∧ Mirrors before (Clean f.fd.reads)
      (fgets cap f) (Direct.line cap fault d) := by
  unfold fgets Direct.line
  by_cases empty : cap.toInt ≤ 0
  · simp only [if_pos empty]
    exact ⟨none, fun _ => rfl, .same _ follows marks⟩
  simp only [if_neg empty]
  obtain ⟨fault, faultless, mirrors⟩ := charLoop_mirrors (· = 10) (cap.toNat - 1) follows marks
  rw [← lineLoop_eq, upTo_line] at mirrors
  exact ⟨fault, faultless, mirrors.map fun line => if line = [] then none else some line⟩

/-! Seeking. The unread bytes are taken off in the arithmetic of the machine. -/

/-- An offset is added to a position as it is in the integers, or the machine sees a negative place. -/
theorem landing {base : Nat} (small : base < 2 ^ 31) (offset : BitVec 32) :
    (BitVec.ofNat 32 base + offset).slt 0 = true ↔
      ¬(0 ≤ (base : Int) + offset.toInt ∧ (base : Int) + offset.toInt < 2 ^ 31) := by
  have low := BitVec.le_toInt offset
  have high := BitVec.toInt_lt (x := offset)
  have value : (BitVec.ofNat 32 base).toInt = base := by
    rw [BitVec.toInt_eq_toNat_cond, BitVec.toNat_ofNat]
    omega
  have zero : (0 : BitVec 32).toInt = 0 := rfl
  rw [BitVec.slt, decide_eq_true_eq, BitVec.toInt_add, value, zero, Int.bmod]
  omega

theorem landed {base : Nat} {offset : BitVec 32} (from_zero : 0 ≤ (base : Int) + offset.toInt)
    (below : (base : Int) + offset.toInt < 2 ^ 31) :
    (BitVec.ofNat 32 base + offset).toNat = ((base : Int) + offset.toInt).toNat := by
  have signed : offset.toInt = offset.toNat ∨ offset.toInt = (offset.toNat : Int) - 2 ^ 32 := by
    rw [BitVec.toInt_eq_toNat_cond]
    omega
  rw [BitVec.toNat_add, BitVec.toNat_ofNat]
  omega

theorem lseek_target {fd : Descriptor} {offset move : BitVec 32} {origin : Int} {base : Nat}
    (found : seekBase fd origin = some base) {at_ : Nat} (small : at_ < 2 ^ 31)
    (same : BitVec.ofNat 32 base + move = BitVec.ofNat 32 at_ + offset) :
    fd.lseek move origin =
      if 0 ≤ (at_ : Int) + offset.toInt ∧ (at_ : Int) + offset.toInt < 2 ^ 31 then
        (some (BitVec.ofNat 32 at_ + offset),
          { fd with offset := ((at_ : Int) + offset.toInt).toNat })
      else (none, fd) := by
  simp only [Descriptor.lseek, found, same]
  by_cases inside : 0 ≤ (at_ : Int) + offset.toInt ∧ (at_ : Int) + offset.toInt < 2 ^ 31
  · have positive : ¬(BitVec.ofNat 32 at_ + offset).slt 0 = true :=
      fun negative => (landing small offset).mp negative inside
    rw [if_neg positive, if_pos inside, landed inside.1 inside.2]
  · rw [if_pos ((landing small offset).mpr inside), if_neg inside]

theorem Follows.small (follows : Follows f d) : d.offset < 2 ^ 31 := by
  have place := follows.place
  have offset := follows.offset
  omega

theorem unread_taken (follows : Follows f d) (offset : BitVec 32) :
    BitVec.ofNat 32 f.fd.offset + (offset - BitVec.ofNat 32 (f.len - f.pos)) =
      BitVec.ofNat 32 d.offset + offset := by
  rw [← follows.place, BitVec.ofNat_add, BitVec.add_assoc, BitVec.add_comm (BitVec.ofNat 32 _) (_ - _),
    BitVec.sub_add_cancel]

/-- The seek of the stream leads where the seek of the file does, or both are refused. -/
theorem lseek_follows (follows : Follows f d) (offset : BitVec 32) (origin : Int) :
    let move := if origin = 1 then offset - BitVec.ofNat 32 (f.len - f.pos) else offset
    (d.target offset origin = none ∧ f.fd.lseek move origin = (none, f.fd)) ∨
      ∃ place answer, d.target offset origin = some place ∧ place.toNat < 2 ^ 31 ∧
        f.fd.lseek move origin = (some answer, { f.fd with offset := place.toNat }) := by
  intro move
  have cases (base at_ : Nat) (found : seekBase f.fd origin = some base)
      (target : d.target offset origin = (some ((at_ : Int) + offset.toInt)).filter
        fun target => 0 ≤ target ∧ target < 2 ^ 31) (small : at_ < 2 ^ 31)
      (same : BitVec.ofNat 32 base + move = BitVec.ofNat 32 at_ + offset) :
      (d.target offset origin = none ∧ f.fd.lseek move origin = (none, f.fd)) ∨
        ∃ place answer, d.target offset origin = some place ∧ place.toNat < 2 ^ 31 ∧
          f.fd.lseek move origin = (some answer, { f.fd with offset := place.toNat }) := by
    rw [target, lseek_target found small same]
    by_cases inside : 0 ≤ (at_ : Int) + offset.toInt ∧ (at_ : Int) + offset.toInt < 2 ^ 31
    · right
      refine ⟨_, _, Option.filter_some_pos (decide_eq_true inside), by omega, if_pos inside⟩
    · left
      exact ⟨Option.filter_some_neg (by simpa using inside), if_neg inside⟩
  by_cases start : origin = 0
  · subst start
    exact cases 0 0 rfl rfl (by decide) rfl
  by_cases current : origin = 1
  · subst current
    exact cases f.fd.offset d.offset rfl rfl follows.small (unread_taken follows offset)
  have still : move = offset := if_neg current
  by_cases last : origin = 2
  · subst last
    refine cases f.fd.content.length d.content.length rfl rfl ?_ ?_
    · rw [← follows.content]
      exact follows.length
    · rw [still, follows.content]
  · left
    constructor
    · simp only [Direct.target, if_neg start, if_neg current, if_neg last, Option.map_none,
        Option.filter_none]
    · simp only [Descriptor.lseek, seekBase, if_neg start, if_neg current, if_neg last]

theorem fseek_mirrors (offset : BitVec 32) (origin : Int) (follows : Follows f d)
    (marks : Marks before f d) (fresh : d.ended = false) :
    Mirrors before (Clean f.fd.reads) (fseek f offset origin) (d.seek offset origin) := by
  obtain ⟨refused, stays⟩ | ⟨place, answer, found, small, moved⟩ :=
    lseek_follows follows offset origin
  · simp only [fseek, stays, Direct.seek, refused]
    exact .refused false follows marks
  · simp only [fseek, moved, Direct.seek, found]
    refine ⟨rfl, ?_, ⟨fun ended => ?_, fun eof => absurd eof Bool.false_ne_true, marks.error⟩, id⟩
    · exact follows_spent follows.flags follows.content follows.append follows.writes rfl rfl small
        follows.length
    · exact absurd (fresh.symm.trans ended) Bool.false_ne_true

/-- A seek to where the stream is takes the descriptor there. -/
theorem seek_here (follows : Follows f d) :
    fseek f 0 1 = (true, { f with
      fd := { f.fd with offset := d.offset }, len := 0, pos := 0, eof := false }) := by
  have zero : ((0 : BitVec 32)).toInt = 0 := rfl
  have small := follows.small
  have here : seekBase f.fd 1 = some f.fd.offset := rfl
  have moved := lseek_target here small (unread_taken follows 0)
  rw [zero, Int.add_zero, if_pos (by omega)] at moved
  simp only [fseek, if_true, moved, Int.toNat_natCast]

theorem ftell_eq (follows : Follows f d) : ftell f = (BitVec.ofNat 32 d.offset, f) := by
  have zero : ((0 : BitVec 32)).toInt = 0 := rfl
  have small := follows.offset
  have here : seekBase f.fd 1 = some f.fd.offset := rfl
  have stays : f.fd.lseek 0 1 = _ := lseek_target here small rfl
  rw [zero, Int.add_zero, if_pos (by omega), Int.toNat_natCast] at stays
  have position : BitVec.ofNat 32 f.fd.offset + 0#32 - BitVec.ofNat 32 (f.len - f.pos) =
      BitVec.ofNat 32 d.offset := by
    rw [← follows.place, BitVec.add_zero, BitVec.ofNat_add, BitVec.add_sub_cancel]
  rw [ftell, stays]
  exact congrArg (·, f) position

/-! Writing. The stream first puts the descriptor where the stream is. -/

theorem overwrite_nil (content : List (BitVec 8)) (place : Nat) : overwrite content place [] = content :=
  if_pos rfl

theorem overwrite_length (content data : List (BitVec 8)) (place : Nat) (some_ : data ≠ []) :
    (overwrite content place data).length = max content.length (place + data.length) := by
  rw [overwrite, if_neg some_]
  simp only [List.length_append, List.length_take, List.length_replicate, List.length_drop]
  omega

/-- Bytes that are written in two pieces are written. -/
theorem overwrite_overwrite (content first second : List (BitVec 8)) (place : Nat) :
    overwrite (overwrite content place first) (place + first.length) second =
      overwrite content place (first ++ second) := by
  by_cases one : first = []
  · subst one
    rw [overwrite_nil, List.nil_append]
    rfl
  by_cases two : second = []
  · subst two
    rw [overwrite_nil, List.append_nil]
  have both : first ++ second ≠ [] := fun none => one (List.append_eq_nil_iff.mp none).1
  have length := overwrite_length content first place one
  have gap : place + first.length - (overwrite content place first).length = 0 := by omega
  have before : (content.take place ++ List.replicate (place - content.length) 0 ++ first).length =
      place + first.length := by
    simp only [List.length_append, List.length_take, List.length_replicate]
    omega
  rw [overwrite, if_neg two, gap, List.replicate_zero, List.append_nil]
  rw [overwrite, if_neg one, List.take_left' before, overwrite, if_neg both, List.drop_append,
    before, List.drop_eq_nil_of_le (by omega), List.nil_append, List.drop_drop]
  simp only [List.append_assoc, List.length_append]
  congr 5
  omega

def Descriptor.place (d : Descriptor) : Nat := if d.append then d.content.length else d.offset

def Descriptor.wrote (d : Descriptor) (data : List (BitVec 8)) (count : Nat)
    (writes : List (Option Nat)) : Descriptor :=
  { d with
    content := overwrite d.content d.place (data.take count)
    offset := if d.append then d.offset else d.place + count
    writes := writes }

theorem wrote_nothing (d : Descriptor) (data : List (BitVec 8)) (writes : List (Option Nat)) :
    d.wrote data 0 writes = { d with writes := writes } := by
  have still : (if d.append then d.offset else d.place + 0) = d.offset := by
    rw [Descriptor.place]
    split
    · rfl
    · rfl
  simp only [Descriptor.wrote, List.take_zero, overwrite_nil, still]

theorem wrote_place (d : Descriptor) {data : List (BitVec 8)} {count : Nat}
    (some_ : data.take count ≠ []) (inside : count ≤ data.length) (writes : List (Option Nat)) :
    (d.wrote data count writes).place = d.place + count := by
  cases mode : d.append with
  | false => simp [Descriptor.place, Descriptor.wrote, mode]
  | true =>
      simp only [Descriptor.place, Descriptor.wrote, mode, if_true]
      rw [overwrite_length _ _ _ some_, List.length_take]
      omega

/-- Two writes in a row are one. -/
theorem wrote_wrote {d : Descriptor} {data : List (BitVec 8)} {count : Nat}
    (some_ : data.take count ≠ []) (inside : count ≤ data.length) (later : Nat)
    (between writes : List (Option Nat)) :
    (d.wrote data count between).wrote (data.drop count) later writes =
      d.wrote data (count + later) writes := by
  have place := wrote_place d some_ inside between
  have size : (data.take count).length = count := by
    rw [List.length_take]
    omega
  have content := overwrite_overwrite d.content (data.take count) ((data.drop count).take later) d.place
  rw [size, ← List.take_add] at content
  apply Descriptor.ext
  · exact (congrArg (overwrite _ · _) place).trans content
  · cases mode : d.append with
    | false =>
        have append : (d.wrote data count between).append = false := mode
        show (if (d.wrote data count between).append then _ else
          (d.wrote data count between).place + later) = if d.append then _ else d.place + (count + later)
        rw [append, mode, place, Nat.add_assoc]
        rfl
    | true => simp only [Descriptor.wrote, mode, if_true]
  · rfl
  · rfl
  · rfl

theorem write_moves {d : Descriptor} {data : List (BitVec 8)} {most : Nat}
    (allowed : quota data.length d.writes.head? = some most) :
    d.write data = (some (min most (2 ^ 31 - 1 - d.place)),
      d.wrote data (min most (2 ^ 31 - 1 - d.place)) d.writes.tail) := by
  simp only [Descriptor.write, allowed]
  rfl

inductive WriteDoes (d : Descriptor) (data : List (BitVec 8)) (room : Nat) : Prop
  | moved (n : Nat) (done : d.write data = (some (n + 1), d.wrote data (n + 1) d.writes.tail))
      (inside : n + 1 ≤ data.length)
      (grants : granted d.writes data.length room =
        (n + 1 + (granted d.writes.tail (data.length - (n + 1)) (room - (n + 1))).1,
          (granted d.writes.tail (data.length - (n + 1)) (room - (n + 1))).2))
  | stopped (nothing : ∀ n, (d.write data).1 ≠ some (n + 1))
      (done : (d.write data).2 = d.wrote data 0 d.writes.tail)
      (grants : granted d.writes data.length room = (0, d.writes.tail))

theorem write_does (d : Descriptor) {data : List (BitVec 8)} (more : data ≠ []) :
    WriteDoes d data (2 ^ 31 - 1 - d.place) := by
  have size : data.length ≠ 0 := fun none => more (List.length_eq_zero_iff.mp none)
  generalize room_eq : 2 ^ 31 - 1 - d.place = room
  cases writes : d.writes with
  | nil =>
      have allowed : quota data.length d.writes.head? = some data.length := by rw [writes]; rfl
      have done := write_moves allowed
      rw [room_eq] at done
      cases count : min data.length room with
      | zero =>
          rw [count] at done
          refine .stopped (fun n => by simp [done]) (by rw [done]) ?_
          rw [writes, granted, count]
          rfl
      | succ n =>
          rw [count] at done
          refine .moved n done (by omega) ?_
          have rest : min (data.length - (n + 1)) (room - (n + 1)) = 0 := by omega
          rw [writes, granted, count, List.tail_nil, granted, rest]
          rfl
  | cons outcome rest =>
      cases outcome with
      | none =>
          have fails : d.write data = (none, { d with writes := d.writes.tail }) := by
            simp only [Descriptor.write, writes, List.head?_cons, quota]
          refine .stopped (fun n => by simp [fails]) ?_ ?_
          · rw [fails, wrote_nothing]
          · rw [writes, granted, if_neg size]
            simp
      | some k =>
          have allowed : quota data.length d.writes.head? = some (min data.length k) := by
            rw [writes]; rfl
          have done := write_moves allowed
          rw [room_eq] at done
          have same : min (min data.length k) room = min k (min data.length room) := by omega
          rw [same] at done
          cases count : min k (min data.length room) with
          | zero =>
              rw [count] at done
              refine .stopped (fun n => by simp [done]) (by rw [done]) ?_
              simp only [writes, granted, if_neg size, Option.getD_some, count, if_true,
                List.tail_cons]
          | succ n =>
              rw [count] at done
              refine .moved n done (by omega) ?_
              simp only [writes, granted, if_neg size, Option.getD_some, count,
                Nat.add_one_ne_zero, if_false, List.tail_cons]

theorem granted_none (outcomes : List (Option Nat)) (room : Nat) :
    granted outcomes 0 room = (0, outcomes) := by
  cases outcomes with
  | nil => rw [granted, Nat.zero_min]
  | cons outcome rest => rw [granted, if_pos rfl]

/-- The loop of `fwrite` writes what is granted. -/
theorem writeLoop_grants (d : Descriptor) (data : List (BitVec 8)) {taken : Nat × List (Option Nat)}
    (grants : granted d.writes data.length (2 ^ 31 - 1 - d.place) = taken) :
    writeLoop d data = (taken.1, decide (taken.1 < data.length), d.wrote data taken.1 taken.2) := by
  induction size : data.length using Nat.strong_induction_on generalizing d data taken with
  | _ length ih =>
      subst size
      rw [writeLoop]
      by_cases empty : data = []
      · subst empty
        rw [if_pos rfl, ← grants, List.length_nil, granted_none, wrote_nothing]
        rfl
      rw [if_neg empty]
      cases write_does d empty with
      | moved n done inside split =>
          have some_ : data.take (n + 1) ≠ [] := by
            intro none
            have := congrArg List.length none
            rw [List.length_take, List.length_nil] at this
            omega
          have place := wrote_place d some_ inside d.writes.tail
          have rest := ih _ (by rw [List.length_drop]; omega) (d.wrote data (n + 1) d.writes.tail)
            (data.drop (n + 1)) rfl rfl
          rw [place, List.length_drop, Nat.sub_add_eq (2 ^ 31 - 1)] at rest
          have writes : (d.wrote data (n + 1) d.writes.tail).writes = d.writes.tail := rfl
          rw [← grants, done, split]
          have lower (more : Nat) : more < data.length - (n + 1) ↔ n + 1 + more < data.length := by omega
          simp only [rest, writes, wrote_wrote some_ inside, lower]
      | stopped nothing done none =>
          have some_ : 0 < data.length := List.length_pos_iff.mpr empty
          rw [← grants, none]
          simp only [← done, decide_eq_true some_]

theorem granted_le (outcomes : List (Option Nat)) (want room : Nat) :
    (granted outcomes want room).1 ≤ min want room := by
  induction outcomes generalizing want room with
  | nil => exact le_refl _
  | cons outcome rest ih =>
      rw [granted]
      split
      · exact Nat.zero_le _
      · dsimp only
        split
        · exact Nat.zero_le _
        · have := ih (want - min (outcome.getD 0) (min want room))
            (room - min (outcome.getD 0) (min want room))
          dsimp only
          omega

/-- The positions of a descriptor are not negative as integers. -/
structure Fits (d : Descriptor) : Prop where
  offset : d.offset < 2 ^ 31
  length : d.content.length < 2 ^ 31

theorem wrote_fits {d : Descriptor} (fits : Fits d) (data : List (BitVec 8)) {count : Nat}
    (inside : count ≤ 2 ^ 31 - 1 - d.place) (writes : List (Option Nat)) :
    Fits (d.wrote data count writes) := by
  have offset := fits.offset
  have length := fits.length
  have starts : d.place < 2 ^ 31 := by
    rw [Descriptor.place]
    split
    · exact length
    · exact offset
  constructor
  · show (if d.append then d.offset else d.place + count) < 2 ^ 31
    split
    · exact offset
    · omega
  · show (overwrite d.content d.place (data.take count)).length < 2 ^ 31
    by_cases none : data.take count = []
    · rw [none, overwrite_nil]
      exact length
    · rw [overwrite_length _ _ _ none, List.length_take]
      omega

/-- A stream without unread bytes writes to the position. -/
theorem spent_writes (data : List (BitVec 8)) (size : Nat) (follows : Follows f d)
    (marks : Marks before f d) (spent : f.pos = f.len) :
    Mirrors before (Clean f.fd.reads)
      ((writeLoop f.fd data).1 / size, { f with
        fd := (writeLoop f.fd data).2.2, error := f.error || (writeLoop f.fd data).2.1 })
      ((d.put data).1 / size, (d.put data).2) := by
  have together : f.fd.offset = d.offset := by
    have := follows.place
    omega
  have place : f.fd.place = if d.append then d.content.length else d.offset := by
    rw [Descriptor.place, follows.append, follows.content, together]
  have inside := granted_le f.fd.writes data.length (2 ^ 31 - 1 - f.fd.place)
  have fits := wrote_fits ⟨follows.offset, follows.length⟩ data (inside.trans (Nat.min_le_right _ _))
    (granted f.fd.writes data.length (2 ^ 31 - 1 - f.fd.place)).2
  rw [writeLoop_grants f.fd data rfl, Direct.put, ← place, ← follows.writes]
  refine ⟨rfl, ?_, ⟨marks.ended, marks.eof, ?_⟩, id⟩
  · refine follows_spent follows.flags ?_ follows.append rfl spent ?_ fits.offset fits.length
    · show overwrite f.fd.content _ _ = overwrite d.content _ _
      rw [follows.content]
    · show (if d.append then d.offset else _) = if f.fd.append then f.fd.offset else _
      rw [follows.append, together]
  · show (f.error || _) = _
    rw [marks.error, Bool.or_assoc]

theorem fwrite_mirrors (data : List (BitVec 8)) (size count : BitVec 32) (follows : Follows f d)
    (marks : Marks before f d) (fresh : d.ended = false) :
    Mirrors before (Clean f.fd.reads) (fwrite data size count f) (Direct.write data size count d) := by
  have writable : ¬f.flags &&& 2 = 0 := by
    rw [follows.flags]
    decide
  unfold fwrite Direct.write
  by_cases empty : size = 0 ∨ count = 0
  · simp only [if_pos empty]
    exact .same _ follows marks
  simp only [if_neg empty]
  by_cases large : 0x7fffffff / size.toNat < count.toNat
  · simp only [if_pos large, if_pos (Or.inr large)]
    exact .refused _ follows marks
  simp only [if_neg large, if_neg (not_or.mpr ⟨writable, large⟩)]
  by_cases spent : f.len = f.pos
  · have still : ¬f.len ≠ f.pos := fun moved => moved spent
    simp only [if_neg still, if_true]
    exact spent_writes _ _ follows marks spent.symm
  · have follows' : Follows { f with
        fd := { f.fd with offset := d.offset }, len := 0, pos := 0, eof := false } d :=
      follows_spent follows.flags follows.content follows.append follows.writes rfl rfl follows.small
        follows.length
    simp only [if_pos spent, seek_here follows, if_true]
    refine spent_writes _ _ follows' ⟨fun ended => ?_, fun eof => absurd eof Bool.false_ne_true,
      marks.error⟩ rfl
    exact absurd (fresh.symm.trans ended) Bool.false_ne_true

def Direct.unmarked (d : Direct) : Direct := { d with ended := false, failed := false }

/-- Every call on a stream is one on its file. -/
theorem call_mirrors (call : Call) (follows : Follows f d) :
    ∃ fault, (Clean f.fd.reads → fault = none) ∧
      Mirrors f (Clean f.fd.reads) (call.buffered f) (call.direct fault d.unmarked) := by
  have start : Follows f d.unmarked := ⟨follows.flags, follows.content, follows.append,
    follows.writes, follows.pos, follows.place, follows.ahead, follows.offset, follows.length⟩
  have marks : Marks f f d.unmarked :=
    ⟨fun ended => absurd ended Bool.false_ne_true, .inl, (Bool.or_false _).symm⟩
  cases call with
  | fgetc =>
      obtain ⟨fault, faultless, mirrors⟩ := fgetc_mirrors start marks
      exact ⟨fault, faultless, mirrors.map Result.char⟩
  | fread size count =>
      obtain ⟨fault, faultless, mirrors⟩ := fread_mirrors size count start marks
      exact ⟨fault, faultless, mirrors.map fun read => Result.items read.1 read.2⟩
  | fgets cap =>
      obtain ⟨fault, faultless, mirrors⟩ := fgets_mirrors cap start marks
      exact ⟨fault, faultless, mirrors.map Result.line⟩
  | fwrite data size count =>
      exact ⟨none, fun _ => rfl, (fwrite_mirrors data size count start marks rfl).map Result.count⟩
  | fputc c =>
      exact ⟨none, fun _ => rfl, (fwrite_mirrors [c.truncate 8] 1 1 start marks rfl).map
        fun wrote => Result.char (if wrote = 1 then some (c.truncate 8) else none)⟩
  | fputs s =>
      exact ⟨none, fun _ => rfl, (fwrite_mirrors s 1 (BitVec.ofNat 32 s.length) start marks rfl).map
        fun wrote => Result.status (wrote = s.length)⟩
  | fseek offset origin =>
      exact ⟨none, fun _ => rfl, (fseek_mirrors offset origin start marks rfl).map Result.status⟩
  | ftell =>
      refine ⟨none, fun _ => rfl, ?_⟩
      have told : Call.ftell.buffered f = (.position (BitVec.ofNat 32 d.offset), f) := by
        rw [Call.buffered, ftell_eq follows]
      rw [told]
      exact .same _ start marks

end

/-- The calls one after the other: same results, file and position at each, and the flags tell
what each call met. A read of the file fails only where a read of the stream does. -/
def Agree : List Call → FILE → Direct → Prop
  | [], _, _ => True
  | call :: later, f, d => ∃ fault, (Clean f.fd.reads → fault = none) ∧
      let done := call.buffered f
      let direct := call.direct fault d.unmarked
      done.1 = direct.1 ∧ done.2.fd.content = direct.2.content ∧
        (ftell done.2).1 = BitVec.ofNat 32 direct.2.offset ∧ Marks f done.2 direct.2 ∧
        Agree later done.2 direct.2

theorem follows_agree (calls : List Call) {f : FILE} {d : Direct} (follows : Follows f d) :
    Agree calls f d := by
  induction calls generalizing f d with
  | nil => trivial
  | cons call later ih =>
      obtain ⟨fault, faultless, mirrors⟩ := call_mirrors call follows
      refine ⟨fault, faultless, mirrors.result, mirrors.follows.content, ?_, mirrors.marks,
        ih mirrors.follows⟩
      rw [ftell_eq mirrors.follows]

def Descriptor.direct (fd : Descriptor) : Direct :=
  ⟨fd.content, fd.offset, fd.append, fd.writes, false, false⟩

/-- A stream over a file that is opened for reading and writing refines the file. -/
theorem streams_refine (fd : Descriptor) (offset : fd.offset < 2 ^ 31)
    (length : fd.content.length < 2 ^ 31) (calls : List Call) :
    Agree calls (opened fd) fd.direct :=
  follows_agree calls (follows_spent rfl rfl rfl rfl rfl rfl offset length)

theorem streams_refine_reread : Agree [.fputs [104, 105], .fseek (-1) 1, .fgetc, .fgetc]
    (opened ⟨[], 0, false, [some 1], [some 1]⟩) ⟨[], 0, false, [some 1], false, false⟩ :=
  streams_refine ⟨[], 0, false, [some 1], [some 1]⟩ (by decide) (by decide) _

end SymphonyPlus.Stdio
