import SymphonyPlus.Format

/-! However small the buffer, `vsnprintf` counts the whole text and keeps the start of it. -/

namespace SymphonyPlus.Format

@[simp] theorem out_cap (o : Output) (c : BitVec 8) : (out o c).cap = o.cap := by
  simp only [out]
  split_ifs <;> rfl

@[simp] theorem outs_cap (o : Output) (text : List (BitVec 8)) : (outs o text).cap = o.cap := by
  induction text generalizing o with
  | nil => rfl
  | cons c rest ih => exact (ih _).trans (out_cap o c)

theorem out_count {o : Output} (c : BitVec 8) (room : o.count.toNat < 2147483647) :
    (out o c).count.toNat = o.count.toNat + 1 := by
  have below : o.count < 0x7fffffff := by
    rw [BitVec.lt_def]
    exact room
  have one : (1 : BitVec 32).toNat = 1 := by simp
  have counted : (out o c).count = o.count + 1 := by
    simp only [out]
    split_ifs
    · rfl
    · rfl
  rw [counted, BitVec.toNat_add, one]
  omega

/-- Only a character with room for the NUL behind it is stored. -/
theorem out_data (o : Output) (c : BitVec 8) (index : Nat) :
    (out o c).data index =
      if index = o.count.toNat ∧ index + 1 < o.cap.toNat then c else o.data index := by
  have guard : (o.cap ≠ 0 ∧ o.count < o.cap - 1) ↔ o.count.toNat + 1 < o.cap.toNat := by
    have one : (1 : BitVec 32).toNat = 1 := by simp
    have size := o.cap.isLt
    have zero : o.cap = 0 ↔ o.cap.toNat = 0 := by
      rw [BitVec.toNat_eq]
      simp
    rw [ne_eq, zero, BitVec.lt_def, BitVec.toNat_sub, one]
    omega
  have stored : (out o c).data = if o.cap ≠ 0 ∧ o.count < o.cap - 1 then
      Function.update o.data o.count.toNat c else o.data := by
    simp only [out]
    split_ifs <;> rfl
  rw [stored]
  simp only [guard]
  split_ifs with room both here
  · rw [both.1, Function.update_self]
  · rw [Function.update_of_ne]
    intro same
    exact both ⟨same, same ▸ room⟩
  · exact absurd (here.1 ▸ here.2) room
  · rfl

theorem outs_count (text : List (BitVec 8)) : ∀ o : Output,
    o.count.toNat + text.length ≤ 2147483647 →
    (outs o text).count.toNat = o.count.toNat + text.length := by
  induction text with
  | nil => exact fun o _ => rfl
  | cons c rest ih =>
      intro o room
      rw [List.length_cons] at room ⊢
      have first := out_count (o := o) c (by omega)
      have later := ih (out o c) (by omega)
      change (outs (out o c) rest).count.toNat = _
      omega

theorem outs_data (text : List (BitVec 8)) : ∀ o : Output,
    o.count.toNat + text.length ≤ 2147483647 → ∀ index,
    (outs o text).data index =
      if o.count.toNat ≤ index ∧ index < o.count.toNat + text.length ∧ index + 1 < o.cap.toNat then
        text.getD (index - o.count.toNat) 0
      else o.data index := by
  induction text with
  | nil =>
      intro o _ index
      rw [if_neg]
      · rfl
      · simp
        omega
  | cons c rest ih =>
      intro o room index
      rw [List.length_cons] at room ⊢
      have first := out_count (o := o) c (by omega)
      have later := ih (out o c) (by omega) index
      rw [first, out_cap, out_data] at later
      change (outs (out o c) rest).data index = _
      rw [later]
      by_cases here : index = o.count.toNat
      · subst here
        rw [if_neg (by omega), Nat.sub_self]
        simp only [true_and, List.getD_cons_zero]
        split_ifs <;> first | rfl | omega
      · simp only [here, false_and, if_false]
        split_ifs
        · rw [show index - o.count.toNat = (index - (o.count.toNat + 1)) + 1 by omega,
            List.getD_cons_succ]
        · omega
        · omega
        · rfl

theorem outs_outside (text : List (BitVec 8)) : ∀ (o : Output) (index : Nat),
    o.cap.toNat ≤ index → (outs o text).data index = o.data index := by
  induction text with
  | nil => exact fun _ _ _ => rfl
  | cons c rest ih =>
      intro o index outside
      have first := out_data o c index
      rw [if_neg (by omega)] at first
      exact (ih (out o c) index (by rwa [out_cap])).trans first

theorem run_eq (s : State) :
    run s = match step s with
      | none => none
      | some (.more next) => run next
      | some (.stop last) => some (true, last)
      | some (.refuse last) => some (false, last) := by
  rw [run]
  split <;> rename_i stepped <;> rw [stepped]

/-- The characters a run hands to the sink, the same for every sink. -/
structure Writes (rest : Rest) (supported : Bool) (text : List (BitVec 8)) : Prop where
  writes : ∀ o stores, ∃ last, run { rest with o, stores } = some (supported, last) ∧
    last.o = outs o text

theorem writes_end (args : List Argument) : Writes ⟨[], args⟩ true [] := by
  constructor
  intro o stores
  rw [run_eq]
  exact ⟨_, rfl, rfl⟩

theorem writes_more {rest left_ : Rest} {text later : List (BitVec 8)} {place : Option Nat}
    {supported : Bool} (read : stepText rest = some ⟨.more, text, left_, place⟩)
    (writes : Writes left_ supported later) : Writes rest supported (text ++ later) := by
  constructor
  intro o stores
  obtain ⟨last, ran, same⟩ := writes.writes (outs o text)
    (stores ++ (place.map fun p => (p, o.count)).toList)
  rw [run_eq, step_emits, read]
  exact ⟨last, ran, by rw [same, outs_append]⟩

theorem writes_stop {rest left_ : Rest} {text : List (BitVec 8)} {place : Option Nat}
    (read : stepText rest = some ⟨.stop, text, left_, place⟩) : Writes rest true text := by
  constructor
  intro o stores
  rw [run_eq, step_emits, read]
  exact ⟨_, rfl, rfl⟩

/-! The arguments that a format of supported conversions takes. -/

inductive ArgumentKind
  | word
  | text
  | place
  deriving DecidableEq

def Argument.kind : Argument → ArgumentKind
  | .word _ => .word
  | .text _ => .text
  | .place _ => .place

def letterKind (c : BitVec 8) : Option ArgumentKind :=
  if c = 115#8 then some .text
  else if c = 110#8 then some .place
  else if c ∈ [99#8, 100#8, 105#8, 117#8, 120#8, 88#8, 111#8, 112#8] then some .word
  else none

/-- What a width takes, or a precision behind its point, and the format after it. -/
def amountKinds (fmt : List (BitVec 8)) : List ArgumentKind × List (BitVec 8) :=
  if fmt.head? = some 42#8 then ([.word], fmt.tail) else ([], (readNumber 0 fmt).2)

def precisionKinds (fmt : List (BitVec 8)) : List ArgumentKind × List (BitVec 8) :=
  if fmt.head? = some 46#8 then amountKinds fmt.tail else ([], fmt)

/-- A conversion behind its `%`. The format may end within it. -/
def conversionKinds (fmt : List (BitVec 8)) : Option (List ArgumentKind × List (BitVec 8)) :=
  let width := amountKinds (readFlags ⟨false, false, false, false, false⟩ fmt).2
  let precision := precisionKinds width.2
  match skipModifiers precision.2 with
  | [] => some (width.1 ++ precision.1, [])
  | c :: fmt => (letterKind c).map fun kind => (width.1 ++ precision.1 ++ [kind], fmt)

def stepKinds : List (BitVec 8) → Option (List ArgumentKind × List (BitVec 8))
  | [] => some ([], [])
  | c :: fmt =>
      if c ≠ 37#8 then some ([], fmt)
      else if fmt.head? = some 37#8 then some ([], fmt.tail)
      else conversionKinds fmt

def kindsFrom : Nat → List (BitVec 8) → Option (List ArgumentKind)
  | 0, _ => some []
  | fuel + 1, fmt => do
      let first ← stepKinds fmt
      let later ← kindsFrom fuel first.2
      return first.1 ++ later

def formatKinds (fmt : List (BitVec 8)) : Option (List ArgumentKind) := kindsFrom fmt.length fmt

/-- The arguments begin with ones of these kinds. -/
def Supply (kinds : List ArgumentKind) (args rest : List Argument) : Prop :=
  ∃ taken, args = taken ++ rest ∧ taken.map Argument.kind = kinds

/-- Every conversion of the format is supported and finds the arguments it takes. -/
def Supplied (fmt : List (BitVec 8)) (args : List Argument) : Prop :=
  ∃ kinds rest, formatKinds fmt = some kinds ∧ Supply kinds args rest

section Supplies

variable {args rest : List Argument}

theorem Supply.none (supply : Supply [] args rest) : args = rest := by
  obtain ⟨taken, rfl, kinds⟩ := supply
  rw [List.map_eq_nil_iff.mp kinds]
  rfl

theorem Supply.split {first second : List ArgumentKind} (supply : Supply (first ++ second) args rest) :
    ∃ between, Supply first args between ∧ Supply second between rest := by
  obtain ⟨taken, rfl, kinds⟩ := supply
  obtain ⟨early, late, rfl, isFirst, isSecond⟩ := List.map_eq_append_iff.mp kinds
  exact ⟨late ++ rest, ⟨early, List.append_assoc .., isFirst⟩, late, rfl, isSecond⟩

theorem Supply.one {kind : ArgumentKind} (supply : Supply [kind] args rest) :
    ∃ arg, args = arg :: rest ∧ arg.kind = kind := by
  obtain ⟨taken, rfl, kinds⟩ := supply
  obtain ⟨arg, none, rfl, same, isNone⟩ := List.map_eq_cons_iff.mp kinds
  rw [List.map_eq_nil_iff.mp isNone]
  exact ⟨arg, rfl, same⟩

theorem Supply.word (supply : Supply [.word] args rest) :
    ∃ value, vaWord args = some (value, rest) := by
  obtain ⟨arg, rfl, kind⟩ := supply.one
  cases arg with
  | word value => exact ⟨value, rfl⟩
  | text s => cases kind
  | place address => cases kind

theorem readWidth_supplied (flags : Flags) {fmt : List (BitVec 8)}
    (supply : Supply (amountKinds fmt).1 args rest) :
    ∃ flags' width, readWidth flags ⟨fmt, args⟩ = some (flags', width, ⟨(amountKinds fmt).2, rest⟩) := by
  unfold readWidth amountKinds at *
  split_ifs at supply ⊢
  · obtain ⟨value, found⟩ := supply.word
    rw [found, Option.map_some]
    dsimp only
    split
    · exact ⟨_, _, rfl⟩
    · exact ⟨_, _, rfl⟩
  · cases supply.none
    exact ⟨_, _, rfl⟩

theorem readPrecision_supplied {fmt : List (BitVec 8)}
    (supply : Supply (precisionKinds fmt).1 args rest) :
    ∃ precision, readPrecision ⟨fmt, args⟩ = some (precision, ⟨(precisionKinds fmt).2, rest⟩) := by
  unfold readPrecision precisionKinds amountKinds at *
  split_ifs at supply ⊢
  · obtain ⟨value, found⟩ := supply.word
    rw [found]
    exact ⟨_, rfl⟩
  · cases supply.none
    exact ⟨_, rfl⟩
  · cases supply.none
    exact ⟨_, rfl⟩

theorem more_not_refuse : Outcome.more ≠ .refuse := by decide

theorem stop_not_refuse : Outcome.stop ≠ .refuse := by decide

theorem stop_not_more : Outcome.stop ≠ .more := by decide

theorem directiveText_supplied {fmt left_ : List (BitVec 8)} {kinds : List ArgumentKind}
    (read : conversionKinds fmt = some (kinds, left_)) (supply : Supply kinds args rest) :
    ∃ e, directiveText ⟨fmt, args⟩ = some e ∧ e.outcome ≠ .refuse ∧
      (e.outcome = .more → e.rest = ⟨left_, rest⟩) := by
  unfold conversionKinds at read
  unfold directiveText
  generalize readFlags ⟨false, false, false, false, false⟩ fmt = start at read ⊢
  dsimp only at read ⊢
  split at read
  · rename_i ends
    cases read
    obtain ⟨between, first, second⟩ := supply.split
    obtain ⟨flags, width, isWidth⟩ := readWidth_supplied start.1 first
    obtain ⟨precision, isPrecision⟩ := readPrecision_supplied second
    simp only [isWidth, isPrecision, ends, Option.bind_eq_bind, Option.bind_some]
    exact ⟨_, rfl, stop_not_refuse, fun more => absurd more stop_not_more⟩
  · rename_i c after found
    obtain ⟨kind, letter, same⟩ := Option.map_eq_some_iff.mp read
    cases same
    obtain ⟨between, first, last⟩ := supply.split
    obtain ⟨middle, first, second⟩ := first.split
    obtain ⟨flags, width, isWidth⟩ := readWidth_supplied start.1 first
    obtain ⟨precision, isPrecision⟩ := readPrecision_supplied second
    simp only [isWidth, isPrecision, found, Option.bind_eq_bind, Option.bind_some]
    unfold letterKind at letter
    split at letter
    · rename_i text
      cases letter
      obtain ⟨arg, rfl, kind⟩ := last.one
      cases arg with
      | word value => cases kind
      | text s =>
          subst text
          exact ⟨_, rfl, more_not_refuse, fun _ => rfl⟩
      | place address => cases kind
    · split at letter
      · rename_i stored
        cases letter
        obtain ⟨arg, rfl, kind⟩ := last.one
        cases arg with
        | word value => cases kind
        | text s => cases kind
        | place address =>
            subst stored
            exact ⟨_, rfl, more_not_refuse, fun _ => rfl⟩
      · rename_i noText noPlace
        split at letter
        · rename_i known
          cases letter
          obtain ⟨value, taken⟩ := last.word
          simp only [List.mem_cons, List.not_mem_nil, or_false] at known
          rw [if_neg noText, if_neg noPlace, taken]
          by_cases character : c = 99#8
          · rw [if_pos character]
            exact ⟨_, rfl, more_not_refuse, fun _ => rfl⟩
          · rw [if_neg character, if_pos (known.resolve_left character)]
            exact ⟨_, rfl, more_not_refuse, fun _ => rfl⟩
        · cases letter

theorem stepText_supplied {fmt left_ : List (BitVec 8)} {kinds : List ArgumentKind}
    (read : stepKinds fmt = some (kinds, left_)) (supply : Supply kinds args rest) :
    ∃ e, stepText ⟨fmt, args⟩ = some e ∧ e.outcome ≠ .refuse ∧
      (e.outcome = .more → e.rest = ⟨left_, rest⟩) := by
  cases fmt with
  | nil => exact ⟨_, rfl, stop_not_refuse, fun more => absurd more stop_not_more⟩
  | cons c fmt =>
      simp only [stepKinds] at read
      simp only [stepText]
      split_ifs at read ⊢
      · cases read
        exact ⟨_, rfl, more_not_refuse, fun _ => by rw [supply.none]⟩
      · cases read
        exact ⟨_, rfl, more_not_refuse, fun _ => by rw [supply.none]⟩
      · exact directiveText_supplied read supply

/-- A run over a format whose conversions find their arguments writes a text. -/
theorem supplied_writes {fuel : Nat} {fmt : List (BitVec 8)} {kinds : List ArgumentKind}
    (read : kindsFrom fuel fmt = some kinds) (enough : fmt.length ≤ fuel)
    (supply : Supply kinds args rest) : ∃ text, Writes ⟨fmt, args⟩ true text := by
  induction fuel generalizing fmt args kinds with
  | zero =>
      obtain rfl : fmt = [] := List.eq_nil_of_length_eq_zero (Nat.le_zero.mp enough)
      exact ⟨[], writes_end args⟩
  | succ fuel ih =>
      obtain ⟨⟨first, left_⟩, isFirst, read⟩ := Option.bind_eq_some_iff.mp read
      obtain ⟨later, isLater, same⟩ := Option.bind_eq_some_iff.mp read
      cases same
      obtain ⟨between, taken, supply⟩ := supply.split
      obtain ⟨⟨outcome, text, after, place⟩, stepped, supported, goes⟩ :=
        stepText_supplied isFirst taken
      cases outcome with
      | stop => exact ⟨text, writes_stop stepped⟩
      | refuse => exact absurd rfl supported
      | more =>
          cases goes rfl
          have shorter : left_.length < fmt.length := stepText_shorter stepped rfl
          obtain ⟨more, writes⟩ := ih isLater (Nat.le_of_lt_succ (shorter.trans_le enough)) supply
          exact ⟨text ++ more, writes_more stepped writes⟩

end Supplies

/-- What a call leaves in its buffer: the start of the text and a NUL, as far as there is room. -/
def Truncates (data : Nat → BitVec 8) (cap : Nat) (text : List (BitVec 8)) (left : Nat → BitVec 8) :
    Prop :=
  ∀ index, left index =
    if index < min text.length (cap - 1) then text.getD index 0
    else if index = min text.length (cap - 1) ∧ 0 < cap then 0
    else data index

theorem vsnprintf_writes {fmt : List (BitVec 8)} {args : List Argument} {supported : Bool}
    {text : List (BitVec 8)} (writes : Writes ⟨fmt, args⟩ supported text) (data : Nat → BitVec 8)
    (cap : BitVec 32) :
    ∃ printed, vsnprintf data cap fmt args = some printed ∧
      (∀ index, cap.toNat ≤ index → printed.data index = data index) ∧
      (supported = false → printed.ret = -1) ∧
      (supported = true → text.length < 2147483647 →
        printed.ret = text.length ∧ Truncates data cap.toNat text printed.data) := by
  obtain ⟨⟨⟨fmt', args'⟩, o, stores⟩, ran, same⟩ := writes.writes ⟨data, cap, 0⟩ []
  have zero : (0 : BitVec 32).toNat = 0 := by simp
  have one : (1 : BitVec 32).toNat = 1 := by simp
  have size := cap.isLt
  change o = _ at same
  subst same
  have capSame : (outs ⟨data, cap, 0⟩ text).cap = cap := outs_cap _ _
  have outside := outs_outside text ⟨data, cap, 0⟩
  simp only [vsnprintf, ran, Option.map_some]
  refine ⟨_, rfl, ?_, ?_, ?_⟩
  · intro index beyond
    cases supported with
    | false => exact outside index beyond
    | true =>
        simp only [if_true, capSame]
        split_ifs with some_ inside
        · rw [Function.update_of_ne]
          · exact outside index beyond
          · rw [BitVec.lt_def] at inside
            omega
        · rw [Function.update_of_ne]
          · exact outside index beyond
          · have positive : cap.toNat ≠ 0 := fun none => some_ (BitVec.eq_of_toNat_eq (by simpa using none))
            rw [BitVec.toNat_sub, one]
            omega
        · exact outside index beyond
  · rintro rfl
    rfl
  · rintro rfl short
    have counted := outs_count text ⟨data, cap, 0⟩ (by rw [zero]; omega)
    have stored := outs_data text ⟨data, cap, 0⟩ (by rw [zero]; omega)
    rw [zero, Nat.zero_add] at counted
    simp only [zero, Nat.zero_add, Nat.zero_le, true_and, Nat.sub_zero] at stored
    simp only [if_true, capSame]
    constructor
    · rw [BitVec.toInt_eq_toNat_cond, counted, if_pos (by omega)]
    · intro index
      by_cases some_ : cap = 0
      · rw [if_neg (not_not.mpr some_), outside index (by simp [some_])]
        simp [some_]
      · have positive : cap.toNat ≠ 0 := fun none => some_ (BitVec.eq_of_toNat_eq (by simpa using none))
        have place : (if (outs ⟨data, cap, 0⟩ text).count < cap then (outs ⟨data, cap, 0⟩ text).count
            else cap - 1).toNat = min text.length (cap.toNat - 1) := by
          split_ifs with inside
          · rw [BitVec.lt_def, counted] at inside
            rw [counted]
            omega
          · rw [BitVec.lt_def, counted] at inside
            rw [BitVec.toNat_sub, one]
            omega
        rw [if_pos some_, Function.update_apply, place, stored]
        by_cases last : index = min text.length (cap.toNat - 1)
        · rw [if_pos last, if_neg (by omega), if_pos ⟨last, by omega⟩]
        · rw [if_neg last]
          by_cases inside : index < min text.length (cap.toNat - 1)
          · rw [if_pos inside, if_pos (by omega)]
          · rw [if_neg inside, if_neg (by omega), if_neg fun both => last both.1]

/-! Two passes over the same arguments print the whole text. -/

theorem whole_text {text : List (BitVec 8)} {data left : Nat → BitVec 8} {cap : Nat}
    (truncates : Truncates data cap text left) (room : text.length < cap) :
    (List.range text.length).map left = text := by
  apply List.ext_getElem
  · simp
  · intro index bound inside
    rw [List.getElem_map, List.getElem_range, truncates index, if_pos (by simp at bound; omega)]
    simp [inside]

theorem vfprintf_writes {fmt : List (BitVec 8)} {args : List Argument} {text : List (BitVec 8)}
    (writes : Writes ⟨fmt, args⟩ true text) (short : text.length < 2147483647)
    (malloc : BitVec 32 → Bool) (fwrite : List (BitVec 8) → Nat) (small heap : Nat → BitVec 8)
    (room : 256 ≤ text.length → malloc (BitVec.ofNat 32 (text.length + 1)) = true) :
    vfprintf malloc fwrite small heap fmt args =
      some ⟨if fwrite text = text.length then text.length else -1, false, some text⟩ := by
  obtain ⟨first, ran, -, -, both⟩ := vsnprintf_writes writes small 256
  obtain ⟨ret, kept⟩ := both rfl short
  have positive : ¬(text.length : Int) < 0 := by omega
  simp only [vfprintf, ran, Option.bind_eq_bind, Option.bind_some, ret, if_neg positive,
    Int.toNat_natCast]
  by_cases long : (text.length : Int) ≥ 256
  · have asked : BitVec.ofInt 32 (text.length + 1) = BitVec.ofNat 32 (text.length + 1) := rfl
    have granted := room (by omega)
    obtain ⟨second, again, -, -, both⟩ :=
      vsnprintf_writes writes heap (BitVec.ofNat 32 (text.length + 1))
    obtain ⟨-, whole⟩ := both rfl short
    rw [BitVec.toNat_ofNat, Nat.mod_eq_of_lt (by omega)] at whole
    simp only [if_pos long, asked, granted, if_true, again, Option.bind_some,
      whole_text whole (by omega)]
    rfl
  · have buffer : (256 : BitVec 32).toNat = 256 := by simp
    rw [buffer] at kept
    simp only [if_neg long, whole_text kept (by omega)]
    rfl

/-- One text for every buffer, and for the two passes that print it. -/
theorem vsnprintf_truncates (fmt : List (BitVec 8)) (args : List Argument)
    (supplied : Supplied fmt args) :
    ∃ text, Writes ⟨fmt, args⟩ true text ∧ (text.length < 2147483647 →
      (∀ data cap, ∃ printed, vsnprintf data cap fmt args = some printed ∧
        printed.ret = text.length ∧ Truncates data cap.toNat text printed.data ∧
        ∀ index, cap.toNat ≤ index → printed.data index = data index) ∧
      ∀ malloc fwrite small heap,
        (256 ≤ text.length → malloc (BitVec.ofNat 32 (text.length + 1)) = true) →
        vfprintf malloc fwrite small heap fmt args =
          some ⟨if fwrite text = text.length then text.length else -1, false, some text⟩) := by
  obtain ⟨kinds, rest, read, supply⟩ := supplied
  obtain ⟨text, writes⟩ := supplied_writes read (Nat.le_refl _) supply
  refine ⟨text, writes, fun short => ⟨fun data cap => ?_, fun malloc fwrite small heap room => ?_⟩⟩
  · obtain ⟨printed, ran, outside, -, both⟩ := vsnprintf_writes writes data cap
    obtain ⟨ret, kept⟩ := both rfl short
    exact ⟨printed, ran, ret, kept, outside⟩
  · exact vfprintf_writes writes short malloc fwrite small heap room

/-- `%-*s|%.2d%n` -/
theorem vsnprintf_truncates_row :
    let fmt := [37#8, 45#8, 42#8, 115#8, 124#8, 37#8, 46#8, 50#8, 100#8, 37#8, 110#8]
    let args := [.word 5, .text (some [111#8, 107#8]), .word 7, .place 64]
    Supplied fmt args ∧ ∃ text, Writes ⟨fmt, args⟩ true text := by
  intro fmt args
  have supplied : Supplied fmt args :=
    ⟨[.word, .text, .word, .place], [], by decide, args, (List.append_nil _).symm, rfl⟩
  obtain ⟨text, writes, _⟩ := vsnprintf_truncates fmt args supplied
  exact ⟨supplied, text, writes⟩

end SymphonyPlus.Format
