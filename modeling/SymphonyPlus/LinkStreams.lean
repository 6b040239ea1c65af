import SymphonyPlus.LinkImage
import SymphonyPlus.Results

/-!
What `symld_link_ex` writes to its two streams. Failures stick to the image from the place where
they occur to the one check before the first write; what can fail after that check is the
assembler and the search for `_start`.
-/

namespace SymphonyPlus

inductive StartUp
  | none
  | unreadable (path : List Char)
  | text (content : List Char)
  deriving DecidableEq, Repr

def StartUp.content : StartUp → Option (List Char)
  | .text content => some content
  | _ => Option.none

/-- `symld_link_ex` up to its first write: the printed image. -/
def printImage (given : List Obj) (crt0 : StartUp) (opt : LinkOptions) :
    Except LinkFailure (Image × ImageLayout) :=
  if opt.limit ≤ imageBase opt then .error (.message "invalid address window".toList)
  else
    match crt0 with
    | .unreadable path => .error (.message (("cannot open crt0: ".toList ++ path).take 255))
    | start => do
        let objs := linkObjects given start.content
        let laidOut ← layoutImage objs opt
        let im ← (emitImage laidOut.1 objs opt laidOut.2).checked
        return (im, laidOut.2)

/-- `symld_link_ex` for the kernel and user kinds, with or without each of its streams. -/
def symldLinkStreams (given : List Obj) (crt0 : StartUp) (opt : LinkOptions)
    (out bin : Bool) : Option LinkResult :=
  match printImage given crt0 opt with
  | .error failure => some (.ofFailure failure)
  | .ok (im, layout) =>
      let text := if out then im.out else []
      if bin then (imageFile im opt layout).map fun result => { result with text }
      else some { failed := none, text, bin := [] }

theorem imageFile_text {im : Image} {opt : LinkOptions} {layout : ImageLayout}
    {result : LinkResult} (filed : imageFile im opt layout = some result) :
    result.text = im.out := by
  obtain ⟨assembly, _, rfl⟩ := Option.map_eq_some_iff.mp filed
  simp only [apply_ite LinkResult.text, ite_self]

theorem printImage_start (given : List Obj) (crt0 : Option (List Char)) (opt : LinkOptions) :
    printImage given ((crt0.map StartUp.text).getD .none) opt =
      if opt.limit ≤ imageBase opt then .error (.message "invalid address window".toList)
      else do
        let laidOut ← layoutImage (linkObjects given crt0) opt
        let im ← (emitImage laidOut.1 (linkObjects given crt0) opt laidOut.2).checked
        return (im, laidOut.2) := by
  cases crt0 with
  | none => rfl
  | some text => rfl

/-- With both streams and a readable start-up text this is the whole link. -/
theorem symldLinkStreams_both (given : List Obj) (crt0 : Option (List Char)) (opt : LinkOptions) :
    symldLinkStreams given ((crt0.map StartUp.text).getD .none) opt true true =
      symldLinkEx given crt0 opt := by
  unfold symldLinkStreams symldLinkEx
  rw [printImage_start]
  by_cases window : opt.limit ≤ imageBase opt
  · rw [if_pos window, if_pos window]
  · rw [if_neg window, if_neg window]
    dsimp only
    cases layoutImage (linkObjects given crt0) opt with
    | error failure => rfl
    | ok laidOut =>
        obtain ⟨laidOut, layout⟩ := laidOut
        simp only [bind, Except.bind, Image.checked]
        cases (emitImage laidOut (linkObjects given crt0) opt layout).failed with
        | some failure => rfl
        | none =>
            simp only [pure, Except.pure, if_true]
            cases filed : imageFile (emitImage laidOut (linkObjects given crt0) opt layout) opt
                layout with
            | none => rfl
            | some result =>
                rw [Option.map_some, ← imageFile_text filed]

/-! Failures stick, and symbols stay. -/

namespace Image

/-- A later image has the failure and the symbols of an earlier one, and no other new symbols than
those that are allowed. -/
structure Extends (allowed : ImageSym → Prop) (first second : Image) : Prop where
  failed : first.failed ≠ none → second.failed ≠ none
  kept : ∀ s ∈ first.syms, s ∈ second.syms
  new : ∀ s ∈ second.syms, s ∈ first.syms ∨ allowed s

def Holds (im : Image) (P : ImageSym → Prop) : Prop := im.failed ≠ none ∨ ∃ s ∈ im.syms, P s

variable {allowed wider : ImageSym → Prop} {first second third : Image}

theorem Extends.refl (im : Image) : Extends allowed im im := ⟨id, fun _ => id, fun _ => Or.inl⟩

theorem Extends.trans (left : Extends allowed first second) (right : Extends allowed second third) :
    Extends allowed first third :=
  ⟨fun failed => right.failed (left.failed failed), fun s member => right.kept s (left.kept s member),
    fun s member => (right.new s member).elim (left.new s) Or.inr⟩

theorem Extends.mono (extends_ : Extends allowed first second) (wide : ∀ s, allowed s → wider s) :
    Extends wider first second :=
  ⟨extends_.failed, extends_.kept, fun s member => (extends_.new s member).imp_right (wide s)⟩

theorem Holds.later {P : ImageSym → Prop} (holds : first.Holds P)
    (extends_ : Extends allowed first second) : second.Holds P :=
  holds.imp extends_.failed fun ⟨s, member, fits⟩ => ⟨s, extends_.kept s member, fits⟩

theorem extends_of_syms (syms : second.syms = first.syms)
    (failed : first.failed ≠ none → second.failed ≠ none) : Extends allowed first second :=
  ⟨failed, fun _ member => syms ▸ member, fun _ member => Or.inl (syms ▸ member)⟩

theorem fail_failed (im : Image) (text : List Char) : (im.fail text).failed ≠ none := by
  unfold fail
  split
  · rename_i exits
    rw [exits]
    nofun
  · nofun

theorem fail_syms (im : Image) (text : List Char) : (im.fail text).syms = im.syms := by
  unfold fail
  split
  · rfl
  · rfl

theorem fail_extends (im : Image) (text : List Char) : Extends allowed im (im.fail text) :=
  extends_of_syms (fail_syms im text) fun _ => fail_failed im text

theorem exit_extends (im : Image) : Extends allowed im im.exit := extends_of_syms rfl nofun

theorem emit_extends (im : Image) (text : List Char) : Extends allowed im (im.emit text) := by
  unfold emit
  split
  · exact fail_extends im _
  · exact extends_of_syms rfl id

theorem advance_extends (im : Image) (pos : Nat) (bytes : Int) (limit : Nat) :
    Extends allowed im (im.advance pos bytes limit).1 := by
  unfold advance
  split
  · exact fail_extends im _
  · exact .refl im

theorem padWords_extends (im : Image) (count : Nat) : Extends allowed im (im.padWords count) := by
  induction count generalizing im with
  | zero => exact .refl im
  | succ count ih => exact (emit_extends im _).trans (ih _)

theorem padBytes_extends (im : Image) (count : Nat) : Extends allowed im (im.padBytes count) := by
  induction count generalizing im with
  | zero => exact .refl im
  | succ count ih => exact (emit_extends im _).trans (ih _)

theorem pad_extends (im : Image) (start stop : Nat) : Extends allowed im (im.pad start stop) := by
  unfold pad
  split
  · exact fail_extends im _
  · exact (padWords_extends im _).trans (padBytes_extends _ _)

theorem resolve_extends (im : Image) (name : List Char) (owner : Nat) :
    Extends allowed im (im.resolve name owner).1 := by
  unfold resolve
  dsimp only
  split
  · exact .refl im
  · split
    · exact .refl im
    · exact fail_extends im _

theorem farJump_extends (im : Image) (arg : List Char) (owner : Nat) :
    Extends allowed im (im.farJump arg owner) :=
  ((resolve_extends im arg owner).trans (emit_extends _ _)).trans (emit_extends _ _)

theorem call_extends (im : Image) (arg : List Char) (owner : Nat) :
    Extends allowed im (im.call arg owner) :=
  (emit_extends im _).trans (farJump_extends _ arg owner)

theorem pollSite_extends (im : Image) (op : List Char) (owner : Nat) (opt : LinkOptions) :
    Extends allowed im (im.pollSite op owner opt) :=
  ((((resolve_extends im _ owner).trans (emit_extends _ _)).trans (emit_extends _ _)).trans
    (emit_extends _ _)).trans (call_extends _ _ owner)

theorem reference_extends (im : Image) (owner : Nat) (s : List Char) :
    Extends allowed im (im.reference owner s).1 := by
  unfold reference
  dsimp only
  split
  · exact resolve_extends im _ owner
  · exact resolve_extends im _ owner
  · exact resolve_extends im _ owner
  · split
    · exact (resolve_extends im _ owner).trans (fail_extends _ _)
    · exact resolve_extends im _ owner

theorem copyLine_extends (im : Image) (owner fuel : Nat) (s out : List Char) :
    Extends allowed im (im.copyLine owner fuel s out).1 := by
  induction fuel generalizing im s out with
  | zero => exact .refl im
  | succ fuel ih =>
      cases s with
      | nil => exact .refl im
      | cons c rest =>
          simp only [copyLine]
          split
          · exact .refl im
          · split
            · exact ih im rest _
            · split
              · exact (reference_extends im owner rest).trans (ih _ _ _)
              · exact reference_extends im owner rest

theorem line_extends (im : Image) (s : List Char) (owner : Nat) (opt : LinkOptions) :
    Extends allowed im (im.line s owner opt) := by
  unfold line
  dsimp only
  split
  · split
    · exact pollSite_extends im _ owner opt
    · split
      · exact emit_extends im _
      · exact .refl im
  · split
    · exact ((resolve_extends im _ owner).trans (emit_extends _ _)).trans (emit_extends _ _)
    · split
      · exact call_extends im _ owner
      · split
        · exact farJump_extends im _ owner
        · split
          · exact emit_extends im _
          · split
            · exact (copyLine_extends im owner _ s []).trans (emit_extends _ _)
            · exact copyLine_extends im owner _ s []

theorem lines_extends (im : Image) (owner : Nat) (opt : LinkOptions) (lines : List (List Char)) :
    Extends allowed im (im.lines owner opt lines) := by
  induction lines generalizing im with
  | nil => exact .refl im
  | cons s rest ih => exact (line_extends im s owner opt).trans (ih _)

theorem textLines_extends (im : Image) (opt : LinkOptions) (objs : List Obj) (owner : Nat) :
    Extends allowed im (im.textLines opt objs owner) := by
  induction objs generalizing im owner with
  | nil => exact .refl im
  | cons o rest ih => exact (lines_extends im owner opt _).trans (ih _ _)

theorem dataLines_extends (im : Image) (opt : LinkOptions) (objs : List Obj) (owner : Nat) :
    Extends allowed im (im.dataLines opt objs owner) := by
  induction objs generalizing im owner with
  | nil => exact .refl im
  | cons o rest ih => exact (lines_extends im owner opt _).trans (ih _ _)

theorem lowMemory_extends (im : Image) (opt : LinkOptions) (base : Nat) :
    Extends allowed im (im.lowMemory opt base) := by
  unfold lowMemory
  exact ((((((emit_extends im _).trans (pad_extends _ _ _)).trans (emit_extends _ _)).trans
    (emit_extends _ _)).trans (emit_extends _ _)).trans (pad_extends _ _ _)).trans
    ((emit_extends _ _).trans (pad_extends _ _ _))

theorem emitImage_extends (im : Image) (objs : List Obj) (opt : LinkOptions)
    (layout : ImageLayout) : Extends allowed im (emitImage im objs opt layout) := by
  have body (im : Image) : Extends allowed im (((im.textLines opt objs 0).pad layout.textEnd
      (layout.textEnd + padding layout.textEnd)).dataLines opt objs 0) :=
    ((textLines_extends im opt objs 0).trans (pad_extends _ _ _)).trans
      (dataLines_extends _ opt objs 0)
  unfold emitImage
  dsimp only
  split
  · exact ((lowMemory_extends im opt _).trans (body _)).trans (pad_extends _ _ _)
  · exact body im

/-! The layout pass. -/

theorem add_extends (im : Image) (name : List Char) (addr : Nat) (owner : Option Nat)
    (exported : Bool) (fits : allowed { name, addr, owner, exported }) :
    Extends allowed im (im.add name addr owner exported) := by
  unfold add
  split
  · exact fail_extends im _
  · refine ⟨id, fun s member => List.mem_append_left _ member, fun s member => ?_⟩
    rcases List.mem_append.mp member with old | new
    · exact Or.inl old
    · rw [List.mem_singleton.mp new]
      exact Or.inr fits

theorem add_holds (im : Image) (name : List Char) (addr : Nat) (owner : Option Nat)
    (exported : Bool) :
    (im.add name addr owner exported).Holds fun s =>
      s.name = name ∧ s.owner = owner ∧ s.exported = exported := by
  unfold add
  split
  · exact Or.inl (fail_failed im _)
  · exact Or.inr ⟨_, List.mem_append_right _ (List.mem_singleton.mpr rfl), rfl, rfl, rfl⟩

end Image

def Labels (line name : List Char) : Prop :=
  objLabelNameLen line ≠ 0 ∧ line.take (objLabelNameLen line) = name

def Obj.Defines (o : Obj) (name : List Char) : Prop :=
  (∃ line ∈ o.textLines ++ o.dataLines, Labels line name) ∨ ∃ b ∈ o.bss, b.name = name

/-- A symbol is the one that an object's definition of a name leads to. -/
def SymbolOf (o : Obj) (owner : Nat) (name : List Char) (s : ImageSym) : Prop :=
  s.name = name ∧ s.owner = some owner ∧ s.exported = exported o name

namespace Image

variable {allowed wider : ImageSym → Prop} {first second third : Image}

theorem labels_extends (im : Image) (o : Obj) (owner : Nat) (text : Bool)
    (lines : List (List Char)) (base : Nat) :
    Extends (fun s => ∃ line ∈ lines, Labels line s.name ∧ SymbolOf o owner s.name s) im
      (im.labels o owner text lines base) := by
  induction lines generalizing im base with
  | nil => exact .refl im
  | cons line rest ih =>
      have later (im : Image) (base : Nat) :
          Extends (fun s => ∃ l ∈ line :: rest, Labels l s.name ∧ SymbolOf o owner s.name s) im
            (im.labels o owner text rest base) :=
        (ih im base).mono fun s ⟨l, member, fits⟩ => ⟨l, List.mem_cons_of_mem line member, fits⟩
      unfold labels
      dsimp only
      split
      · rename_i label
        split
        · exact fail_extends im _
        · exact (add_extends im _ _ _ _ ⟨line, List.mem_cons_self, ⟨label, rfl⟩, rfl, rfl, rfl⟩).trans
            (later _ _)
      · split
        · exact later im _
        · exact exit_extends im

theorem labels_holds (im : Image) (o : Obj) (owner : Nat) (text : Bool)
    {lines : List (List Char)} (base : Nat) {line name : List Char} (member : line ∈ lines)
    (label : Labels line name) :
    (im.labels o owner text lines base).Holds (SymbolOf o owner name) := by
  induction lines generalizing im base with
  | nil => cases member
  | cons first rest ih =>
      unfold labels
      dsimp only
      split
      · split
        · exact Or.inl (fail_failed im _)
        · rcases List.mem_cons.mp member with rfl | member
          · have holds := add_holds im (line.take (objLabelNameLen line)) base (some owner)
              (exported o (line.take (objLabelNameLen line)))
            rw [label.2] at holds ⊢
            exact holds.later (labels_extends _ o owner text rest _)
          · exact ih _ _ member
      · rename_i other
        rcases List.mem_cons.mp member with rfl | member
        · exact absurd label.1 other
        · split
          · exact ih im _ member
          · exact Or.inl nofun

theorem checked_ok {im im' : Image} (ok : im.checked = .ok im') : im' = im ∧ im.failed = none := by
  unfold checked at ok
  split at ok
  · cases ok
  · rename_i none
    cases ok
    exact ⟨rfl, none⟩

theorem advanceLines_extends (im : Image) (size : List Char → Option Nat) (limit : Nat)
    (lines : List (List Char)) (pos : Nat) :
    Extends allowed im (im.advanceLines size limit lines pos).1 := by
  induction lines generalizing im pos with
  | nil => exact .refl im
  | cons line rest ih =>
      unfold advanceLines
      split
      · exact (advance_extends im _ _ limit).trans (ih _ _)
      · exact exit_extends im

/-- The symbols of the objects from one on, whose numbers begin at `owner`. -/
def FromObjects (objs : List Obj) (owner : Nat) (s : ImageSym) : Prop :=
  ∃ i o, objs[i]? = some o ∧ o.Defines s.name ∧ SymbolOf o (owner + i) s.name s

theorem FromObjects.head {o : Obj} {rest : List Obj} {owner : Nat} {s : ImageSym}
    (defines : o.Defines s.name) (fits : SymbolOf o owner s.name s) :
    FromObjects (o :: rest) owner s := ⟨0, o, rfl, defines, fits⟩

theorem FromObjects.tail {o : Obj} {rest : List Obj} {owner : Nat} {s : ImageSym}
    (later : FromObjects rest (owner + 1) s) : FromObjects (o :: rest) owner s := by
  obtain ⟨i, other, found, defines, fits⟩ := later
  exact ⟨i + 1, other, found, defines, by rwa [Nat.add_assoc, Nat.add_comm 1 i] at fits⟩

/-- A pass over the objects keeps to their symbols and does not miss a label of its own lines. -/
structure Places (objs : List Obj) (owner : Nat) (lines : Obj → List (List Char))
    (im im' : Image) : Prop where
  extends_ : Extends (FromObjects objs owner) im im'
  placed : ∀ i o, objs[i]? = some o → ∀ line ∈ lines o, ∀ name, Labels line name →
    im'.Holds (SymbolOf o (owner + i) name)

theorem layoutText_places {im im' : Image} {limit owner pos pos' : Nat} {objs : List Obj}
    (ok : im.layoutText limit objs owner pos = .ok (im', pos')) :
    Places objs owner Obj.textLines im im' := by
  induction objs generalizing im owner pos with
  | nil =>
      cases ok
      exact ⟨.refl _, nofun⟩
  | cons o rest ih =>
      obtain ⟨sized, isSized, later⟩ := Except.of_bind_ok ok
      obtain ⟨rfl, _⟩ := checked_ok isSized
      have places := ih later
      refine ⟨?_, ?_⟩
      · refine ((advanceLines_extends im _ limit o.textLines pos).trans
          ((labels_extends _ o owner true o.textLines pos).mono ?_)).trans
          (places.extends_.mono fun s => FromObjects.tail)
        rintro s ⟨line, member, label, fits⟩
        exact FromObjects.head (Or.inl ⟨line, List.mem_append_left _ member, label⟩) fits
      · intro i other found line member name label
        cases i with
        | zero =>
            cases found
            exact (labels_holds _ o owner true pos member label).later places.extends_
        | succ i =>
            have holds := places.placed i other found line member name label
            rwa [Nat.add_assoc, Nat.add_comm 1 i] at holds

theorem layoutData_places {im im' : Image} {limit owner pos pos' : Nat} {objs : List Obj}
    (ok : im.layoutData limit objs owner pos = .ok (im', pos')) :
    Places objs owner Obj.dataLines im im' := by
  induction objs generalizing im owner pos with
  | nil =>
      cases ok
      exact ⟨.refl _, nofun⟩
  | cons o rest ih =>
      obtain ⟨sized, isSized, later⟩ := Except.of_bind_ok ok
      obtain ⟨rfl, _⟩ := checked_ok isSized
      have places := ih later
      refine ⟨?_, ?_⟩
      · refine ((advanceLines_extends im _ limit o.dataLines pos).trans
          ((labels_extends _ o owner false o.dataLines pos).mono ?_)).trans
          (places.extends_.mono fun s => FromObjects.tail)
        rintro s ⟨line, member, label, fits⟩
        exact FromObjects.head (Or.inl ⟨line, List.mem_append_right _ member, label⟩) fits
      · intro i other found line member name label
        cases i with
        | zero =>
            cases found
            exact (labels_holds _ o owner false pos member label).later places.extends_
        | succ i =>
            have holds := places.placed i other found line member name label
            rwa [Nat.add_assoc, Nat.add_comm 1 i] at holds

theorem layoutEntries_places {im im' : Image} {limit owner pos pos' : Nat} {o : Obj}
    {entries : List ObjBss} (ok : im.layoutEntries limit o owner entries pos = .ok (im', pos')) :
    Extends (fun s => (∃ b ∈ entries, b.name = s.name) ∧ SymbolOf o owner s.name s) im im' ∧
      ∀ b ∈ entries, im'.Holds (SymbolOf o owner b.name) := by
  induction entries generalizing im pos with
  | nil =>
      cases ok
      exact ⟨.refl _, nofun⟩
  | cons b rest ih =>
      obtain ⟨sized, isSized, later⟩ := Except.of_bind_ok ok
      obtain ⟨rfl, _⟩ := checked_ok isSized
      obtain ⟨extends_, holds⟩ := ih later
      refine ⟨?_, fun other member => ?_⟩
      · refine (((advance_extends im _ _ limit).trans (advance_extends _ _ _ limit)).trans
          (add_extends _ _ _ _ _ ⟨⟨b, List.mem_cons_self, rfl⟩, rfl, rfl, rfl⟩)).trans
          (extends_.mono ?_)
        rintro s ⟨⟨c, member, same⟩, fits⟩
        exact ⟨⟨c, List.mem_cons_of_mem b member, same⟩, fits⟩
      · rcases List.mem_cons.mp member with rfl | member
        · exact (add_holds _ _ _ _ _).later extends_
        · exact holds other member

theorem layoutBss_places {im im' : Image} {limit owner pos pos' : Nat} {objs : List Obj}
    (ok : im.layoutBss limit objs owner pos = .ok (im', pos')) :
    Extends (FromObjects objs owner) im im' ∧ ∀ i o, objs[i]? = some o →
      ∀ b ∈ o.bss, im'.Holds (SymbolOf o (owner + i) b.name) := by
  induction objs generalizing im owner pos with
  | nil =>
      cases ok
      exact ⟨.refl _, nofun⟩
  | cons o rest ih =>
      obtain ⟨entries, isEntries, later⟩ := Except.of_bind_ok ok
      obtain ⟨extends_, holds⟩ := ih later
      obtain ⟨first, here⟩ := layoutEntries_places isEntries
      refine ⟨?_, fun i other found b member => ?_⟩
      · refine (first.mono ?_).trans (extends_.mono fun s => FromObjects.tail)
        rintro s ⟨entry, fits⟩
        exact FromObjects.head (Or.inr entry) fits
      · cases i with
        | zero =>
            cases found
            exact (here b member).later extends_
        | succ i =>
            have found := holds i other found b member
            rwa [Nat.add_assoc, Nat.add_comm 1 i] at found

def linkerNames : List (List Char) :=
  ["__bss_start", "__bss_end", "end", "__syscall_gate"].map String.toList

theorem layoutImage_places {objs : List Obj} {opt : LinkOptions} {im : Image}
    {layout : ImageLayout} (ok : layoutImage objs opt = .ok (im, layout)) :
    (∀ s ∈ im.syms, FromObjects objs 0 s ∨ s.name ∈ linkerNames) ∧
      ∀ i o, objs[i]? = some o → ∀ name, o.Defines name → im.Holds (SymbolOf o i name) := by
  obtain ⟨text, isText, ok⟩ := Except.of_bind_ok ok
  obtain ⟨data, isData, ok⟩ := Except.of_bind_ok ok
  obtain ⟨stop, isStop, ok⟩ := Except.of_bind_ok ok
  dsimp only at ok
  split at ok
  · cases ok
  · cases ok
    have texts := layoutText_places isText
    have datas := layoutData_places isData
    obtain ⟨entries, bss⟩ := layoutBss_places isStop
    have named {name : List Char} (member : name ∈ linkerNames) (im : Image) (addr : Nat)
        (owner : Option Nat) :
        Extends (fun s => s.name ∈ linkerNames) im (im.add name addr owner true) :=
      add_extends im _ _ _ _ member
    have last := (((named (by decide : "__bss_start".toList ∈ linkerNames) stop.1
      (data.1.alignImage data.2 opt.limit).2 none).trans
      (named (by decide : "__bss_end".toList ∈ linkerNames) _ stop.2 none)).trans
      (named (by decide : "end".toList ∈ linkerNames) _ stop.2 none)).trans
      (named (by decide : "__syscall_gate".toList ∈ linkerNames) _ opt.syscallGate none)
    have fromData := (((advance_extends _ _ _ opt.limit).trans datas.extends_).trans
      (advance_extends _ _ _ opt.limit)).trans entries
    refine ⟨fun s member => ?_, fun i o found name defines => ?_⟩
    · rcases last.new s member with old | own
      · rcases (texts.extends_.trans fromData).new s old with none | placed
        · cases none
        · exact Or.inl placed
      · exact Or.inr own
    · refine Holds.later ?_ last
      rw [← Nat.zero_add i]
      rcases defines with ⟨line, member, label⟩ | ⟨b, member, rfl⟩
      · rcases List.mem_append.mp member with inText | inData
        · exact (texts.placed i o found line inText name label).later fromData
        · exact (datas.placed i o found line inData name label).later
            ((advance_extends _ _ _ opt.limit).trans entries)
      · exact bss i o found b member

theorem definition_isSome (im : Image) (name : List Char) (owner : Nat) :
    (im.definition name owner).isSome ↔
      ∃ s ∈ im.syms, s.name = name ∧ (s.owner = some owner ∨ s.exported = true) := by
  unfold definition
  split
  · rename_i s found
    have member := List.mem_of_find?_eq_some found
    have fits := List.find?_some found
    simp only [Bool.and_eq_true, decide_eq_true_eq] at fits
    exact iff_of_true rfl ⟨s, member, fits.2, Or.inl fits.1⟩
  · rename_i none
    rw [List.find?_eq_none] at none
    simp only [Bool.and_eq_true, decide_eq_true_eq] at none
    constructor
    · intro found
      obtain ⟨s, found⟩ := Option.isSome_iff_exists.mp found
      have fits := List.find?_some found
      simp only [Bool.and_eq_true, decide_eq_true_eq] at fits
      exact ⟨s, List.mem_of_find?_eq_some found, fits.2, Or.inr fits.1⟩
    · rintro ⟨s, member, named, own | exports⟩
      · exact absurd ⟨own, named⟩ (none s member)
      · rw [List.find?_isSome]
        exact ⟨s, member, by simp [exports, named]⟩

end Image

/-! The streams. -/

def startName : List Char := "_start".toList

/-- The start-up text has the label `_start`, or an object defines and exports the name. -/
def DefinesStart (objs : List Obj) : Prop :=
  (∃ o, objs[0]? = some o ∧ o.Defines startName) ∨
    ∃ o ∈ objs, exported o startName = true ∧ o.Defines startName

theorem definesStart_iff {objs : List Obj} {opt : LinkOptions} {laidOut im : Image}
    {layout : ImageLayout} (ok : layoutImage objs opt = .ok (laidOut, layout))
    (extends_ : Image.Extends (fun _ => False) laidOut im) (clean : im.failed = none) :
    (im.definition startName 0).isSome ↔ DefinesStart objs := by
  obtain ⟨known, placed⟩ := Image.layoutImage_places ok
  rw [Image.definition_isSome]
  constructor
  · rintro ⟨s, member, named, reason⟩
    rcases extends_.new s member with old | new
    · rcases known s old with ⟨i, o, found, defines, same, owner, exports⟩ | own
      · rw [named] at defines exports
        rcases reason with first | exported_
        · rw [owner, Nat.zero_add] at first
          cases first
          exact Or.inl ⟨o, found, defines⟩
        · rw [exported_] at exports
          exact Or.inr ⟨o, List.mem_of_getElem? found, exports.symm, defines⟩
      · rw [named] at own
        exact absurd own (by decide)
    · exact new.elim
  · have present {i : Nat} {o : Obj} (found : objs[i]? = some o) (defines : o.Defines startName) :
        ∃ s ∈ im.syms, SymbolOf o i startName s := by
      rcases (placed i o found startName defines).later extends_ with failed | some
      · exact absurd clean failed
      · exact some
    rintro (⟨o, found, defines⟩ | ⟨o, member, exports, defines⟩)
    · obtain ⟨s, member, named, owner, _⟩ := present found defines
      exact ⟨s, member, named, Or.inl owner⟩
    · obtain ⟨i, found⟩ := List.mem_iff_getElem?.mp member
      obtain ⟨s, member, named, _, same⟩ := present found defines
      exact ⟨s, member, named, Or.inr (same.trans exports)⟩

def imageCap (opt : LinkOptions) (layout : ImageLayout) : Nat :=
  if opt.imageKind = .kernel then layout.bssEnd else layout.loaded - layout.base

def userHeader (layout : ImageLayout) (start : Nat) : List (BitVec 8) :=
  be32 SP_EXEC_MAGIC ++ be32 1 ++ be32 ((start + 2 ^ 32 - layout.base) % 2 ^ 32) ++
    be32 (layout.loaded - layout.base) ++ be32 (layout.bssEnd - layout.loaded) ++ be32 65536 ++
    be32 0

/-- The bytes of the whole assembled text, behind the header of a user image. -/
def CompleteImage (im : Image) (opt : LinkOptions) (layout : ImageLayout)
    (bin : List (BitVec 8)) : Prop :=
  ∃ len : Nat, (asmAssemble im.out (imageCap opt layout)).ret = len ∧
    let bytes := assembledBytes (asmAssemble im.out (imageCap opt layout)).writes len
    match opt.imageKind with
    | .kernel => bin = bytes
    | .user => ∃ start, im.definition startName 0 = some start ∧
        bin = userHeader layout start.addr ++ bytes

/-- A link returns. One that fails writes nothing, and one that succeeds writes all of the
image. -/
def AllOrNothing (given : List Obj) (crt0 : StartUp) (opt : LinkOptions) (out bin : Bool) : Prop :=
  ∃ result, symldLinkStreams given crt0 opt out bin = some result ∧
    (result.failed ≠ none → result.text = [] ∧ result.bin = []) ∧
    (result.failed = none → ∃ im layout, printImage given crt0 opt = .ok (im, layout) ∧
      (out = true → result.text = im.out) ∧
      (bin = true → CompleteImage im opt layout result.bin))

/-- An image that is to be assembled is not empty and is not printed as well unless the assembler
accepts it, and has a `_start` if it is a user image. -/
def LinksCleanly (given : List Obj) (crt0 : StartUp) (opt : LinkOptions) (out bin : Bool) : Prop :=
  bin = true → ∀ im layout, printImage given crt0 opt = .ok (im, layout) →
    im.out ≠ [] ∧
      if (asmAssemble im.out (imageCap opt layout)).ret < 0 then out = false
      else opt.imageKind = .user → DefinesStart (linkObjects given crt0.content)

theorem printImage_ok {given : List Obj} {crt0 : StartUp} {opt : LinkOptions} {im : Image}
    {layout : ImageLayout} (ok : printImage given crt0 opt = .ok (im, layout)) :
    im.failed = none ∧ ((im.definition startName 0).isSome ↔
      DefinesStart (linkObjects given crt0.content)) := by
  unfold printImage at ok
  split at ok
  · cases ok
  · split at ok
    · cases ok
    · obtain ⟨laidOut, isLaidOut, ok⟩ := Except.of_bind_ok ok
      obtain ⟨printed, isPrinted, ok⟩ := Except.of_bind_ok ok
      obtain ⟨rfl, clean⟩ := Image.checked_ok isPrinted
      cases ok
      exact ⟨clean, definesStart_iff isLaidOut (Image.emitImage_extends _ _ _ _) clean⟩

theorem resolve_start (im : Image) :
    (∀ s, im.definition startName 0 = some s → im.resolve startName 0 = (im, s.addr)) ∧
      (im.definition startName 0 = none → (im.resolve startName 0).1.failed ≠ none) := by
  have notNumber : ¬ (startName ≠ [] ∧ (strtoul startName).2 = []) := by decide
  unfold Image.resolve
  dsimp only
  rw [if_neg notNumber]
  refine ⟨fun s found => by rw [found], fun missing => ?_⟩
  rw [missing]
  exact Image.fail_failed im _

theorem assemble_some {im : Image} (text : im.out ≠ []) (cap : Nat) :
    im.assemble cap = some (asmAssemble im.out cap) := if_neg text

theorem allOrNothing_empty {given : List Obj} {crt0 : StartUp} {opt : LinkOptions} {out : Bool}
    {im : Image} {layout : ImageLayout} (printed : printImage given crt0 opt = .ok (im, layout))
    (empty : im.out = []) : ¬AllOrNothing given crt0 opt out true := by
  rintro ⟨result, returns, _⟩
  simp [symldLinkStreams, printed, imageFile, Image.assemble, empty] at returns

theorem allOrNothing_rejected {given : List Obj} {crt0 : StartUp} {opt : LinkOptions} {out : Bool}
    {im : Image} {layout : ImageLayout} (printed : printImage given crt0 opt = .ok (im, layout))
    (text : im.out ≠ []) (rejected : (asmAssemble im.out (imageCap opt layout)).ret < 0) :
    AllOrNothing given crt0 opt out true ↔ out = false := by
  have file : imageFile im opt layout = some { failed := (im.fail (asmFailure
      (asmAssemble im.out (imageCap opt layout)).err)).failed, text := im.out, bin := [] } := by
    unfold imageFile
    dsimp only
    rw [← imageCap, assemble_some text, Option.map_some, if_pos rejected]
  have failed := Image.fail_failed im (asmFailure
    (asmAssemble im.out (imageCap opt layout)).err)
  unfold AllOrNothing symldLinkStreams
  rw [printed]
  simp only [if_true, file, Option.map_some, Option.some.injEq, exists_eq_left']
  cases out with
  | false =>
      refine iff_of_true ⟨fun _ => ?_, fun none => absurd none failed⟩ rfl
      simp
  | true => exact iff_of_false (fun both => text (both.1 failed).1) nofun

theorem allOrNothing_assembled {given : List Obj} {crt0 : StartUp} {opt : LinkOptions} {out : Bool}
    {im : Image} {layout : ImageLayout} (printed : printImage given crt0 opt = .ok (im, layout))
    (text : im.out ≠ []) (assembled : ¬ (asmAssemble im.out (imageCap opt layout)).ret < 0) :
    AllOrNothing given crt0 opt out true ↔
      (opt.imageKind = .user → DefinesStart (linkObjects given crt0.content)) := by
  obtain ⟨clean, starts⟩ := printImage_ok printed
  obtain ⟨found, missing⟩ := resolve_start im
  obtain ⟨len, length⟩ := Int.eq_ofNat_of_zero_le (Int.not_lt.mp assembled)
  unfold AllOrNothing symldLinkStreams imageFile
  rw [printed, ← starts]
  dsimp only
  rw [← imageCap, if_pos rfl, assemble_some text, Option.map_some, Option.map_some,
    if_neg assembled, length]
  simp only [Option.some.injEq, exists_eq_left']
  cases kind : opt.imageKind with
  | kernel =>
      simp only [reduceCtorEq, if_false, ne_eq, not_true, false_imp_iff, true_and]
      refine iff_of_true (fun _ => ⟨im, layout, rfl, ?_, fun _ => ⟨len, length, ?_⟩⟩) trivial
      · intro asked
        rw [if_pos asked]
      · rw [kind]
        rfl
  | user =>
      simp only [if_true, forall_const]
      cases start : im.definition startName 0 with
      | none =>
          have failed := missing start
          refine iff_of_false (fun both => ?_) nofun
          exact absurd (both.1 failed).2 (by simp [be32, ByteMemory.wordBytes])
      | some s =>
          rw [show "_start".toList = startName from rfl, found s start]
          refine iff_of_true ⟨fun failed => absurd clean failed, fun _ =>
            ⟨im, layout, rfl, ?_, ⟨len, length, ?_⟩⟩⟩ rfl
          · intro asked
            rw [if_pos asked]
          · rw [kind]
            exact ⟨s, start, rfl⟩

theorem link_all_or_nothing_iff (given : List Obj) (crt0 : StartUp) (opt : LinkOptions)
    (out bin : Bool) :
    AllOrNothing given crt0 opt out bin ↔ LinksCleanly given crt0 opt out bin := by
  cases printed : printImage given crt0 opt with
  | error failure =>
      refine iff_of_true ⟨.ofFailure failure, ?_, fun _ => ⟨rfl, rfl⟩, nofun⟩
        fun _ im layout other => ?_
      · unfold symldLinkStreams
        rw [printed]
      · rw [printed] at other
        cases other
  | ok image =>
      obtain ⟨im, layout⟩ := image
      cases bin with
      | false =>
          refine iff_of_true ?_ fun none => absurd none Bool.false_ne_true
          unfold AllOrNothing symldLinkStreams
          rw [printed]
          refine ⟨_, rfl, nofun, fun _ =>
            ⟨im, layout, rfl, ?_, fun none => absurd none Bool.false_ne_true⟩⟩
          rintro rfl
          rfl
      | true =>
          have only : LinksCleanly given crt0 opt out true ↔ im.out ≠ [] ∧
              if (asmAssemble im.out (imageCap opt layout)).ret < 0 then out = false
              else opt.imageKind = .user → DefinesStart (linkObjects given crt0.content) := by
            constructor
            · exact fun cleanly => cleanly rfl im layout printed
            · intro here _ im' layout' other
              rw [printed] at other
              cases other
              exact here
          rw [only]
          by_cases empty : im.out = []
          · exact iff_of_false (allOrNothing_empty printed empty) fun both => both.1 empty
          · rw [and_iff_right empty]
            split
            · rename_i rejected
              exact allOrNothing_rejected printed empty rejected
            · rename_i assembled
              exact allOrNothing_assembled printed empty assembled

def startlessObj : Obj :=
  ((objNew.addText "main:".toList).addText "    mov r1, 42".toList).addText
    "    jmp main".toList

def startlessLink : LinkOptions :=
  { base := 0x200000, limit := 0x280000, branchGate := 0x100, syscallGate := 0x104,
    imageKind := .user }

theorem startless_link_writes : ¬AllOrNothing [startlessObj] .none startlessLink false true := by
  rintro ⟨result, returns, nothing, _⟩
  have some : (symldLinkStreams [startlessObj] .none startlessLink false true).all fun result =>
      result.failed.isSome && !result.bin.isEmpty := by decide +kernel
  rw [returns, Option.all_some, Bool.and_eq_true, Bool.not_eq_true', List.isEmpty_eq_false_iff]
    at some
  exact some.2 (nothing (Option.isSome_iff_ne_none.mp some.1)).2

end SymphonyPlus
