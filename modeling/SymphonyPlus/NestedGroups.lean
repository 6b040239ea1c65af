import Mathlib.Data.BitVec
import SymphonyPlus.Results

/-!
Lines in nested groups, of which one arm each is run. A group is opened by a line with a test,
goes on with arms that have tests of their own, and is closed by a line. The library has the tree
of the groups, what running a tree means, and a machine that reads the lines one by one with a
stack of flags; on the lines of a tree the machine does what the tree means.
-/

namespace NestedGroups

inductive Mark
  | plain | opener | arm | closer | broken
  deriving DecidableEq, Repr

/-- The flags of an open group: its current arm is skipped, an arm has been taken. -/
structure Frame where
  skip : Bool
  taken : Bool
  deriving DecidableEq, Repr

section Trees

variable {α : Type} (mark : α → Mark)

mutual

inductive Items
  | nil
  | line (line : α) (plain : mark line = .plain) (rest : Items)
  | group (opener : α) (opens : mark opener = .opener) (body : Items) (arms : Arms) (rest : Items)

inductive Arms
  | close (line : α) (closes : mark line = .closer)
  | arm (line : α) (begins : mark line = .arm) (body : Items) (arms : Arms)

end

variable {mark}

mutual

def Items.lines : Items mark → List α
  | .nil => []
  | .line line _ rest => line :: rest.lines
  | .group opener _ body arms rest => opener :: (body.lines ++ (arms.lines ++ rest.lines))

def Arms.lines : Arms mark → List α
  | .close line _ => [line]
  | .arm line _ body arms => line :: (body.lines ++ arms.lines)

end

mutual

def Items.depth : Items mark → Nat
  | .nil => 0
  | .line _ _ rest => rest.depth
  | .group _ _ body arms rest => max (max (body.depth + 1) (arms.depth + 1)) rest.depth

def Arms.depth : Arms mark → Nat
  | .close _ _ => 0
  | .arm _ _ body arms => max body.depth arms.depth

end

/-- The lines from some point on: those up to the end of the innermost group that is open there,
and for each open group its other arms with what follows it. -/
structure Parsed (mark : α → Mark) where
  items : Items mark
  pending : List (Arms mark × Items mark)

def Parsed.lines (parsed : Parsed mark) : List α :=
  parsed.items.lines ++ parsed.pending.flatMap fun open_ => open_.1.lines ++ open_.2.lines

variable (mark)

def parseLine (line : α) (after : Parsed mark) : Option (Parsed mark) :=
  match found : mark line with
  | .plain => some { after with items := .line line found after.items }
  | .opener =>
      match after.pending with
      | [] => none
      | (arms, rest) :: pending =>
          some { items := .group line found after.items arms rest, pending }
  | .arm =>
      match after.pending with
      | [] => none
      | (arms, rest) :: pending =>
          some { items := .nil, pending := (.arm line found after.items arms, rest) :: pending }
  | .closer => some { items := .nil, pending := (.close line found, after.items) :: after.pending }
  | .broken => none

def parseLines : List α → Option (Parsed mark)
  | [] => some { items := .nil, pending := [] }
  | line :: rest => (parseLines rest).bind (parseLine mark line)

/-- The tree of a list of lines, if every group is closed and every arm belongs to one. -/
def wellNested (lines : List α) : Option (Items mark) :=
  match parseLines mark lines with
  | some { items, pending := [] } => some items
  | _ => none

variable {mark}

theorem parseLine_lines {line : α} {after parsed : Parsed mark}
    (read : parseLine mark line after = some parsed) : parsed.lines = line :: after.lines := by
  unfold parseLine at read
  split at read
  · cases read
    rfl
  · split at read
    · cases read
    · rename_i arms rest pending found
      cases read
      simp [Parsed.lines, Items.lines, found]
  · split at read
    · cases read
    · rename_i arms rest pending found
      cases read
      simp [Parsed.lines, Items.lines, Arms.lines, found]
  · cases read
    simp [Parsed.lines, Items.lines, Arms.lines]
  · cases read

theorem parseLines_lines {lines : List α} {parsed : Parsed mark}
    (read : parseLines mark lines = some parsed) : parsed.lines = lines := by
  induction lines generalizing parsed with
  | nil =>
      cases read
      rfl
  | cons line lines ih =>
      obtain ⟨after, earlier, last⟩ := Option.bind_eq_some_iff.mp read
      rw [parseLine_lines last, ih earlier]

theorem wellNested_lines {lines : List α} {items : Items mark}
    (nested : wellNested mark lines = some items) : items.lines = lines := by
  unfold wellNested at nested
  split at nested
  · rename_i read
    cases nested
    have same := parseLines_lines read
    simpa [Parsed.lines] using same
  · cases nested

end Trees

/-- What the lines do: `run` for a plain line, `test` for one that opens a group or begins an arm. A
line that stands where it cannot stand fails with `stray`, and one that opens more than `limit`
groups with `deep`. -/
structure Language (α σ ω ε : Type) where
  mark : α → Mark
  run : σ → α → Except ε (List ω × σ)
  test : σ → α → Except ε Bool
  stray : α → ε
  deep : ε
  limit : Nat

section Meaning

variable {α σ ω ε : Type} (language : Language α σ ω ε)

def andThen {τ : Type} (first : Except ε (List ω × τ)) (second : τ → Except ε (List ω × τ)) :
    Except ε (List ω × τ) :=
  first.bind fun r => (second r.2).map fun s => (r.1 ++ s.1, s.2)

mutual

/-- Of each group the first arm whose test holds is run. -/
def select (state : σ) : Items language.mark → Except ε (List ω × σ)
  | .nil => .ok ([], state)
  | .line line _ rest => andThen (language.run state line) fun state => select state rest
  | .group opener _ body arms rest =>
      andThen
        ((language.test state opener).bind fun taken =>
          if taken then select state body else selectArm state arms)
        fun state => select state rest

def selectArm (state : σ) : Arms language.mark → Except ε (List ω × σ)
  | .close _ _ => .ok ([], state)
  | .arm line _ body arms =>
      (language.test state line).bind fun taken =>
        if taken then select state body else selectArm state arms

end

def skipping (frames : List Frame) : Bool := frames.any Frame.skip

def push (state : σ) (frames : List Frame) (skip taken : Bool) :
    Except ε (List ω × (σ × List Frame)) :=
  if language.limit ≤ frames.length then .error language.deep
  else .ok ([], state, { skip, taken } :: frames)

def step (machine : σ × List Frame) (line : α) : Except ε (List ω × (σ × List Frame)) :=
  match language.mark line with
  | .plain =>
      if skipping machine.2 then .ok ([], machine)
      else (language.run machine.1 line).map fun r => (r.1, r.2, machine.2)
  | .opener =>
      if skipping machine.2 then push language machine.1 machine.2 true true
      else (language.test machine.1 line).bind fun value =>
        push language machine.1 machine.2 (!value) value
  | .arm =>
      match machine.2 with
      | [] => .error (language.stray line)
      | top :: below =>
          if top.taken then .ok ([], machine.1, { top with skip := true } :: below)
          else (language.test machine.1 line).map fun value =>
            ([], machine.1, { skip := !value, taken := value } :: below)
  | .closer =>
      match machine.2 with
      | [] => .error (language.stray line)
      | _ :: below => .ok ([], machine.1, below)
  | .broken => .error (language.stray line)

def runLines (machine : σ × List Frame) : List α → Except ε (List ω × (σ × List Frame))
  | [] => .ok ([], machine)
  | line :: rest => andThen (step language machine line) fun machine => runLines machine rest

def visits (good : σ × List Frame → α → Bool) (machine : σ × List Frame) : List α → Bool
  | [] => true
  | line :: rest =>
      (language.mark line ≠ .plain || skipping machine.2 || good machine line) &&
        match step language machine line with
        | .ok r => visits good r.2 rest
        | .error _ => true

variable {language}

theorem andThen_ok {τ : Type} {first : Except ε (List ω × τ)}
    {second : τ → Except ε (List ω × τ)} {result : List ω × τ}
    (done : andThen first second = .ok result) :
    ∃ r s, first = .ok r ∧ second r.2 = .ok s ∧ result = (r.1 ++ s.1, s.2) := by
  unfold andThen at done
  cases first with
  | error failure => cases done
  | ok r =>
      cases later : second r.2 with
      | error failure =>
          rw [Except.bind, later] at done
          cases done
      | ok s =>
          rw [Except.bind, later] at done
          cases done
          exact ⟨r, s, rfl, later, rfl⟩

theorem andThen_assoc {τ : Type} (first : Except ε (List ω × τ))
    (second third : τ → Except ε (List ω × τ)) :
    andThen (andThen first second) third =
      andThen first fun state => andThen (second state) third := by
  unfold andThen
  cases first with
  | error failure => rfl
  | ok r =>
      simp only [Except.bind]
      cases second r.2 with
      | error failure => rfl
      | ok s =>
          simp only [Except.map]
          cases third s.2 with
          | error failure => rfl
          | ok t => simp

theorem nil_andThen {τ : Type} (state : τ) (second : τ → Except ε (List ω × τ)) :
    andThen (.ok ([], state)) second = second state := by
  simp only [andThen, Except.bind]
  cases second state <;> rfl

theorem runLines_append (machine : σ × List Frame) (lines more : List α) :
    runLines language machine (lines ++ more) =
      andThen (runLines language machine lines) fun machine => runLines language machine more := by
  induction lines generalizing machine with
  | nil => simp only [List.nil_append, runLines, nil_andThen]
  | cons line lines ih =>
      simp only [List.cons_append, runLines, andThen_assoc, ih]

theorem push_length {state : σ} {frames : List Frame} {skip taken : Bool}
    {result : List ω × (σ × List Frame)}
    (pushed : push language state frames skip taken = .ok result) :
    result.2.2.length = frames.length + 1 := by
  unfold push at pushed
  split at pushed
  · cases pushed
  · cases pushed
    rfl

theorem step_frames {machine next : σ × List Frame} {line : α} {out : List ω}
    (read : step language machine line = .ok (out, next)) :
    match language.mark line with
    | .plain => next.2.length = machine.2.length
    | .opener => next.2.length = machine.2.length + 1
    | .arm => next.2.length = machine.2.length ∧ machine.2 ≠ []
    | .closer => next.2.length + 1 = machine.2.length
    | .broken => False := by
  unfold step at read
  split at read
  · split at read
    · cases read
      rfl
    · obtain ⟨r, _, same⟩ := Except.of_map_ok read
      cases same
      rfl
  · split at read
    · exact push_length read
    · obtain ⟨value, _, pushed⟩ := Except.of_bind_ok read
      exact push_length pushed
  · split at read
    · cases read
    · rename_i top below found
      rw [found]
      split at read
      · cases read
        exact ⟨rfl, by simp⟩
      · obtain ⟨value, _, same⟩ := Except.of_map_ok read
        cases same
        exact ⟨rfl, by simp⟩
  · split at read
    · cases read
    · rename_i top below found
      rw [found]
      cases read
      rfl
  · cases read

/-- A machine that can read a line leaves as many open groups as the lines after it close. -/
theorem step_parseLine {machine next : σ × List Frame} {line : α} {out : List ω}
    (read : step language machine line = .ok (out, next)) {after : Parsed language.mark}
    (open_ : after.pending.length = next.2.length) :
    ∃ parsed, parseLine language.mark line after = some parsed ∧
      parsed.pending.length = machine.2.length := by
  have frames := step_frames read
  unfold parseLine
  split
  · rename_i plain
    rw [plain] at frames
    exact ⟨_, rfl, open_.trans frames⟩
  · rename_i opens
    rw [opens] at frames
    dsimp only at frames
    split
    · rename_i none
      simp [none] at open_
      omega
    · rename_i arms rest pending found
      rw [found, List.length_cons] at open_
      exact ⟨_, rfl, by dsimp only; omega⟩
  · rename_i begins
    rw [begins] at frames
    obtain ⟨same, some⟩ := frames
    split
    · rename_i none
      rw [none] at open_
      exact absurd (List.eq_nil_of_length_eq_zero (same.symm.trans open_.symm)) some
    · rename_i arms rest pending found
      rw [found] at open_
      exact ⟨_, rfl, open_.trans same⟩
  · rename_i closes
    rw [closes] at frames
    exact ⟨_, rfl, (congrArg (· + 1) open_).trans frames⟩
  · rename_i broken
    rw [broken] at frames
    exact frames.elim

theorem runLines_parse {machine last : σ × List Frame} {lines : List α} {out : List ω}
    (read : runLines language machine lines = .ok (out, last)) (closed : last.2 = []) :
    ∃ parsed, parseLines language.mark lines = some parsed ∧
      parsed.pending.length = machine.2.length := by
  induction lines generalizing machine out with
  | nil =>
      cases read
      exact ⟨_, rfl, by simp [closed]⟩
  | cons line lines ih =>
      obtain ⟨first, rest, one, others, same⟩ := andThen_ok read
      cases same
      obtain ⟨after, earlier, count⟩ := ih others
      obtain ⟨parsed, last, total⟩ := step_parseLine one count
      exact ⟨parsed, by rw [parseLines, earlier]; exact last, total⟩

/-- A machine that reads all lines and leaves no group open has read nested groups. -/
theorem runLines_wellNested {state : σ} {last : σ × List Frame} {lines : List α} {out : List ω}
    (read : runLines language (state, []) lines = .ok (out, last)) (closed : last.2 = []) :
    ∃ items, wellNested language.mark lines = some items := by
  obtain ⟨⟨items, pending⟩, parsed, none⟩ := runLines_parse read closed
  have empty : pending = [] := List.eq_nil_of_length_eq_zero none
  subst empty
  exact ⟨items, by rw [wellNested, parsed]⟩

variable (language) in
inductive Fails (lines : List α) : ε → Prop
  | stray {line : α} (inside : line ∈ lines) : Fails lines (language.stray line)
  | deep : Fails lines language.deep
  | run {line : α} {state : σ} {failure : ε} (inside : line ∈ lines)
      (ran : language.run state line = .error failure) : Fails lines failure
  | test {line : α} {state : σ} {failure : ε} (inside : line ∈ lines)
      (tested : language.test state line = .error failure) : Fails lines failure

theorem Fails.later {line : α} {lines : List α} {failure : ε} (fails : Fails language lines failure) :
    Fails language (line :: lines) failure := by
  cases fails with
  | stray inside => exact .stray (List.mem_cons_of_mem line inside)
  | deep => exact .deep
  | run inside ran => exact .run (List.mem_cons_of_mem line inside) ran
  | test inside tested => exact .test (List.mem_cons_of_mem line inside) tested

theorem push_fails {state : σ} {frames : List Frame} {skip taken : Bool} {failure : ε}
    {lines : List α} (failed : push language state frames skip taken = .error failure) :
    Fails language lines failure := by
  unfold push at failed
  split at failed
  · cases failed
    exact .deep
  · cases failed

theorem step_fails {machine : σ × List Frame} {line : α} {failure : ε} (rest : List α)
    (failed : step language machine line = .error failure) :
    Fails language (line :: rest) failure := by
  have inside : line ∈ line :: rest := List.mem_cons_self
  have tests (skip : Bool → List ω × (σ × List Frame))
      (failed : (language.test machine.1 line).map skip = .error failure) :
      Fails language (line :: rest) failure := by
    cases tested : language.test machine.1 line with
    | error failure =>
        rw [tested] at failed
        cases failed
        exact .test inside tested
    | ok value =>
        rw [tested] at failed
        cases failed
  unfold step at failed
  split at failed
  · split at failed
    · cases failed
    · cases ran : language.run machine.1 line with
      | error failure =>
          rw [ran] at failed
          cases failed
          exact .run inside ran
      | ok r =>
          rw [ran] at failed
          cases failed
  · split at failed
    · exact push_fails failed
    · cases tested : language.test machine.1 line with
      | error failure =>
          rw [tested] at failed
          cases failed
          exact .test inside tested
      | ok value =>
          rw [tested] at failed
          exact push_fails failed
  · split at failed
    · cases failed
      exact .stray inside
    · split at failed
      · cases failed
      · exact tests _ failed
  · split at failed
    · cases failed
      exact .stray inside
    · cases failed
  · cases failed
    exact .stray inside

theorem runLines_fails {machine : σ × List Frame} {lines : List α} {failure : ε}
    (failed : runLines language machine lines = .error failure) : Fails language lines failure := by
  induction lines generalizing machine with
  | nil => cases failed
  | cons line lines ih =>
      rw [runLines, andThen] at failed
      cases read : step language machine line with
      | error failure =>
          rw [read] at failed
          cases failed
          exact step_fails lines read
      | ok r =>
          rw [read] at failed
          cases later : runLines language r.2 lines with
          | error failure =>
              simp only [Except.bind, later] at failed
              cases failed
              exact (ih later).later
          | ok s =>
              simp only [Except.bind, later] at failed
              cases failed

section Steps

variable {state : σ} {line : α} {frames : List Frame}

theorem step_skipped (plain : language.mark line = .plain) (dead : skipping frames = true) :
    step language (state, frames) line = .ok ([], state, frames) := by
  simp [step, plain, dead]

theorem step_live (plain : language.mark line = .plain) (live : skipping frames = false) :
    step language (state, frames) line =
      (language.run state line).map fun r => (r.1, r.2, frames) := by
  simp [step, plain, live]

theorem step_opener_skipped (opens : language.mark line = .opener) (dead : skipping frames = true)
    (room : frames.length < language.limit) : step language (state, frames) line =
      .ok ([], state, { skip := true, taken := true } :: frames) := by
  simp [step, opens, dead, push, Nat.not_le.mpr room]

theorem step_opener_live (opens : language.mark line = .opener) (live : skipping frames = false)
    (room : frames.length < language.limit) : step language (state, frames) line =
      (language.test state line).map fun value =>
        ([], state, { skip := !value, taken := value } :: frames) := by
  simp only [step, opens, live, push, Nat.not_le.mpr room]
  cases language.test state line <;> rfl

theorem step_arm_passed (begins : language.mark line = .arm) (skip : Bool) :
    step language (state, { skip, taken := true } :: frames) line =
      .ok ([], state, { skip := true, taken := true } :: frames) := by
  simp [step, begins]

theorem step_arm_open (begins : language.mark line = .arm) (skip : Bool) :
    step language (state, { skip, taken := false } :: frames) line =
      (language.test state line).map fun value =>
        ([], state, { skip := !value, taken := value } :: frames) := by
  simp [step, begins]

theorem step_close (closes : language.mark line = .closer) (top : Frame) :
    step language (state, top :: frames) line = .ok ([], state, frames) := by
  simp [step, closes]

end Steps

mutual

/-- In a skipped arm nothing happens. -/
theorem runLines_skipped (items : Items language.mark) (state : σ) {frames : List Frame}
    (dead : skipping frames = true) (room : frames.length + items.depth ≤ language.limit) :
    runLines language (state, frames) items.lines = .ok ([], state, frames) := by
  cases items with
  | nil => rfl
  | line line plain rest =>
      simp only [Items.lines, runLines, step_skipped plain dead, nil_andThen]
      exact runLines_skipped rest state dead room
  | group opener opens body arms rest =>
      simp only [Items.depth] at room
      have inner : skipping ({ skip := true, taken := true } :: frames) = true := by
        simp [skipping]
      simp only [Items.lines, runLines, runLines_append,
        step_opener_skipped opens dead (by omega), nil_andThen]
      rw [runLines_skipped body state inner (by simp only [List.length_cons]; omega), nil_andThen,
        runLines_passed arms state true (by omega), nil_andThen]
      exact runLines_skipped rest state dead (by omega)

/-- After an arm that was taken the others are skipped. -/
theorem runLines_passed (arms : Arms language.mark) (state : σ) (skip : Bool)
    {frames : List Frame} (room : frames.length + 1 + arms.depth ≤ language.limit) :
    runLines language (state, { skip, taken := true } :: frames) arms.lines =
      .ok ([], state, frames) := by
  cases arms with
  | close line closes => simp only [Arms.lines, runLines, step_close closes, nil_andThen]
  | arm line begins body arms =>
      simp only [Arms.depth] at room
      have inner : skipping ({ skip := true, taken := true } :: frames) = true := by
        simp [skipping]
      simp only [Arms.lines, runLines, runLines_append, step_arm_passed begins, nil_andThen]
      rw [runLines_skipped body state inner (by simp only [List.length_cons]; omega), nil_andThen]
      exact runLines_passed arms state true (by omega)

end

/-- The machine after a part of the lines that leaves the open groups as they were. -/
def beside (frames : List Frame) (result : Except ε (List ω × σ)) :
    Except ε (List ω × (σ × List Frame)) :=
  result.map fun r => (r.1, r.2, frames)

theorem beside_andThen {frames : List Frame} {first : Except ε (List ω × σ)}
    {machine : σ × List Frame → Except ε (List ω × (σ × List Frame))}
    {second : σ → Except ε (List ω × σ)}
    (same : ∀ state, machine (state, frames) = beside frames (second state)) :
    andThen (beside frames first) machine = beside frames (andThen first second) := by
  unfold andThen beside
  cases first with
  | error failure => rfl
  | ok r =>
      simp only [Except.map, Except.bind, same]
      unfold beside
      cases second r.2 <;> rfl

/-- The part of a group after a test, when the machine does what its parts mean. -/
theorem runLines_group {body : Items language.mark} {arms : Arms language.mark} {state : σ}
    {frames : List Frame} (live : skipping frames = false)
    (room : frames.length + 1 + body.depth ≤ language.limit)
    (later : frames.length + 1 + arms.depth ≤ language.limit)
    (taken : ∀ inner : List Frame, skipping inner = false → inner.length = frames.length + 1 →
      runLines language (state, inner) body.lines = beside inner (select language state body))
    (other : runLines language (state, { skip := true, taken := false } :: frames) arms.lines =
      beside frames (selectArm language state arms)) (value : Bool) :
    andThen (.ok ([], state, { skip := !value, taken := value } :: frames)) (fun machine =>
        andThen (runLines language machine body.lines) fun machine =>
          runLines language machine arms.lines) =
      beside frames (if value then select language state body
        else selectArm language state arms) := by
  rw [nil_andThen]
  cases value with
  | true =>
      have inner : skipping ({ skip := false, taken := true } :: frames) = false := by
        simpa [skipping] using live
      rw [Bool.not_true, taken _ inner rfl, if_pos rfl]
      unfold andThen beside
      cases select language state body with
      | error failure => rfl
      | ok r =>
          simp only [Except.map, Except.bind, runLines_passed arms r.2 false later,
            List.append_nil]
  | false =>
      have inner : skipping ({ skip := true, taken := false } :: frames) = true := by
        simp [skipping]
      rw [Bool.not_false, runLines_skipped body state inner (by simp only [List.length_cons]; omega),
        nil_andThen]
      exact other

mutual

/-- The machine does what the tree means. -/
theorem runLines_select (items : Items language.mark) (state : σ) {frames : List Frame}
    (live : skipping frames = false) (room : frames.length + items.depth ≤ language.limit) :
    runLines language (state, frames) items.lines =
      beside frames (select language state items) := by
  cases items with
  | nil => rfl
  | line line plain rest =>
      simp only [Items.lines, runLines, step_live plain live, select]
      exact beside_andThen fun state => runLines_select rest state live room
  | group opener opens body arms rest =>
      simp only [Items.depth] at room
      have group : runLines language (state, frames) (opener :: (body.lines ++ arms.lines)) =
          beside frames ((language.test state opener).bind fun taken =>
            if taken then select language state body else selectArm language state arms) := by
        simp only [runLines, runLines_append, step_opener_live opens live (by omega)]
        cases tested : language.test state opener with
        | error failure => rfl
        | ok value =>
            exact runLines_group live (by omega) (by omega)
              (fun inner alive size => runLines_select body state alive (by omega))
              (runLines_selectArm arms state true live (by omega)) value
      have split : (Items.group opener opens body arms rest).lines =
          (opener :: (body.lines ++ arms.lines)) ++ rest.lines := by
        simp [Items.lines]
      rw [split, runLines_append, group, select]
      exact beside_andThen fun state => runLines_select rest state live (by omega)

theorem runLines_selectArm (arms : Arms language.mark) (state : σ) (skip : Bool)
    {frames : List Frame} (live : skipping frames = false)
    (room : frames.length + 1 + arms.depth ≤ language.limit) :
    runLines language (state, { skip, taken := false } :: frames) arms.lines =
      beside frames (selectArm language state arms) := by
  cases arms with
  | close line closes =>
      simp only [Arms.lines, runLines, step_close closes, nil_andThen]
      rfl
  | arm line begins body arms =>
      simp only [Arms.depth] at room
      simp only [Arms.lines, runLines, runLines_append, step_arm_open begins, selectArm]
      cases tested : language.test state line with
      | error failure => rfl
      | ok value =>
          exact runLines_group live (by omega) (by omega)
            (fun inner alive size => runLines_select body state alive (by omega))
            (runLines_selectArm arms state true live (by omega)) value

end

end Meaning

end NestedGroups
