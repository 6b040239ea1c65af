import Mathlib.Data.List.Forall2
import SymphonyPlus.ShellScan

/-! The commands of a command line: `sh_parse`, and what a line of quoted words is parsed to. -/

namespace SymphonyPlus.ShellParse

open Shell (Connector)

/-- A command; a pointer is a place in the storage. -/
structure ShCommand where
  argv : Nat → Option Nat
  argc : Nat
  connector : Connector
  append : Bool
  hereFd : Int
  input : Option Nat
  output : Option Nat
  delimiter : Option Nat

def ShCommand.setArg (c : ShCommand) (i : Nat) (p : Option Nat) : Option ShCommand :=
  if i < 33 then some { c with argv := Function.update c.argv i p } else none

/-- `empty`, with what the entries of `argv` hold before. -/
def empty (stale : Nat → Option Nat) (connector : Connector) : ShCommand where
  argv := Function.update stale 0 none
  argc := 0
  connector := connector
  append := false
  hereFd := -1
  input := none
  output := none
  delimiter := none

def isCat (bytes : List Byte) (p : Nat) : Bool :=
  bytes[p]? = some 99 && bytes[p + 1]? = some 97 && bytes[p + 2]? = some 116 &&
    bytes[p + 3]? = some 0

def finish (bytes : List Byte) (c : ShCommand) : Option ShCommand := do
  let c ← c.setArg c.argc none
  if c.delimiter.isSome && c.output.isNone && c.argc = 2 && (c.argv 0).any (isCat bytes) then
    ({ c with output := c.argv 1, argc := 1 } : ShCommand).setArg 1 none
  else some c

def start (stale : Nat → Nat → Option Nat) (before : List ShCommand) (connector : Connector) :
    Option ShCommand :=
  if before.length < 16 then some (empty (stale before.length) connector) else none

/-- The loop over the tokens: the command that is read, the here-documents so far and the commands
before. The result is the code and the commands of the list. -/
def commands (bytes : List Byte) (stale : Nat → Nat → Option Nat) :
    List Token → ShCommand → Nat → List ShCommand → Option (Int × List ShCommand)
  | [], c, _, before =>
      if c.argc = 0 then some (-1, [])
      else (finish bytes c).map fun c => (0, before ++ [c])
  | t :: rest, c, here, before =>
      if t.kind = 0 then
        if c.argc = 32 then some (-1, [])
        else (c.setArg c.argc (some t.word)).bind fun c =>
          commands bytes stale rest { c with argc := c.argc + 1 } here before
      else if t.kind ≤ 4 then
        match rest with
        | [] => some (-1, [])
        | w :: rest =>
            if w.kind ≠ 0 then some (-1, [])
            else if t.kind ≤ 2 then
              if c.input.isSome || c.delimiter.isSome then some (-1, [])
              else if t.kind = 1 then
                commands bytes stale rest { c with input := some w.word } here before
              else if here + 1 > 8 then some (-1, [])
              else commands bytes stale rest { c with delimiter := some w.word } (here + 1) before
            else if c.output.isSome then some (-1, [])
            else commands bytes stale rest
              { c with output := some w.word, append := t.kind = 4 } here before
      else if c.argc = 0 then some (-1, [])
      else (finish bytes c).bind fun c =>
        if rest.isEmpty then if t.kind ≠ 7 then some (-1, []) else some (0, before ++ [c])
        else if before.length + 1 = 16 then some (-1, [])
        else (start stale (before ++ [c])
            (if t.kind = 5 then .and else if t.kind = 6 then .or else .always)).bind fun next =>
          commands bytes stale rest next here (before ++ [c])

structure Parsed where
  code : Int
  bytes : List Byte
  list : List ShCommand

def shParse (line storage : List Byte) (capacity : Int) (stale : Nat → Nat → Option Nat) :
    Option Parsed :=
  match scan capacity (line.length + 1) line ⟨[], storage⟩ [] with
  | none => none
  | some (b, none) => some ⟨-1, b.bytes, []⟩
  | some (b, some []) => some ⟨0, b.bytes, []⟩
  | some (b, some (t :: tokens)) => do
      let first ← start stale [] .always
      let (code, list) ← commands b.bytes stale (t :: tokens) first 0 []
      return ⟨code, b.bytes, list⟩

/-! Every list of tokens is parsed within the arrays. -/

def hereDocuments (list : List ShCommand) : Nat := list.countP fun c => c.delimiter.isSome

structure Bounded (c : ShCommand) : Prop where
  some : 0 < c.argc
  few : c.argc ≤ 32
  ended : c.argv c.argc = none

/-- The list after a call: within its limits, or empty. -/
def Within (r : Int × List ShCommand) : Prop :=
  r.1 = 0 ∧ r.2.length ≤ 16 ∧ (∀ c ∈ r.2, Bounded c) ∧ hereDocuments r.2 ≤ 8 ∨ r.1 = -1 ∧ r.2 = []

section

variable {bytes : List Byte} {stale : Nat → Nat → Option Nat}

theorem hereDocuments_append (before : List ShCommand) (c : ShCommand) :
    hereDocuments (before ++ [c]) = hereDocuments before + if c.delimiter.isSome then 1 else 0 := by
  rw [hereDocuments, List.countP_append, List.countP_singleton]
  rfl

theorem finish_bounded (bytes : List Byte) {c : ShCommand} (positive : 0 < c.argc)
    (few : c.argc ≤ 32) :
    ∃ d, finish bytes c = some d ∧ Bounded d ∧ d.delimiter = c.delimiter := by
  have stored : c.setArg c.argc none =
      some { c with argv := Function.update c.argv c.argc none } := if_pos (by omega)
  simp only [finish, stored, bind, Option.bind_some]
  split
  · have cleared : Function.update (Function.update c.argv c.argc none) 1 none 1 = none :=
      Function.update_self ..
    exact ⟨_, rfl, ⟨Nat.one_pos, show 1 ≤ 32 by decide, cleared⟩, rfl⟩
  · exact ⟨_, rfl, ⟨positive, few, Function.update_self ..⟩, rfl⟩

theorem commands_nil (c : ShCommand) (here : Nat) (before : List ShCommand) :
    commands bytes stale [] c here before =
      if c.argc = 0 then some (-1, [])
      else (finish bytes c).map fun c => (0, before ++ [c]) := by
  rw [commands]

theorem commands_arg {t : Token} (kind : t.kind = 0) (rest : List Token) (c : ShCommand)
    (here : Nat) (before : List ShCommand) :
    commands bytes stale (t :: rest) c here before =
      if c.argc = 32 then some (-1, [])
      else (c.setArg c.argc (some t.word)).bind fun c =>
        commands bytes stale rest { c with argc := c.argc + 1 } here before := by
  rw [commands.eq_def]
  exact if_pos kind

theorem commands_redirection {t : Token} (operator : ¬t.kind = 0) (redirection : t.kind ≤ 4)
    (w : Token) (rest : List Token) (c : ShCommand) (here : Nat) (before : List ShCommand) :
    commands bytes stale (t :: w :: rest) c here before =
      if w.kind ≠ 0 then some (-1, [])
      else if t.kind ≤ 2 then
        if c.input.isSome || c.delimiter.isSome then some (-1, [])
        else if t.kind = 1 then
          commands bytes stale rest { c with input := some w.word } here before
        else if here + 1 > 8 then some (-1, [])
        else commands bytes stale rest { c with delimiter := some w.word } (here + 1) before
      else if c.output.isSome then some (-1, [])
      else commands bytes stale rest
        { c with output := some w.word, append := t.kind = 4 } here before := by
  rw [commands.eq_def]
  simp only [if_neg operator, if_pos redirection]

theorem commands_connector {t : Token} (connector : ¬t.kind ≤ 4) (rest : List Token)
    (c : ShCommand) (here : Nat) (before : List ShCommand) :
    commands bytes stale (t :: rest) c here before =
      if c.argc = 0 then some (-1, [])
      else (finish bytes c).bind fun c =>
        if rest.isEmpty then if t.kind ≠ 7 then some (-1, []) else some (0, before ++ [c])
        else if before.length + 1 = 16 then some (-1, [])
        else (start stale (before ++ [c])
            (if t.kind = 5 then .and else if t.kind = 6 then .or else .always)).bind fun next =>
          commands bytes stale rest next here (before ++ [c]) := by
  have operator : ¬t.kind = 0 := by omega
  rw [commands.eq_def]
  simp only [if_neg operator, if_neg connector]

structure Inside (c : ShCommand) (here : Nat) (before : List ShCommand) : Prop where
  few : c.argc ≤ 32
  short : before.length < 16
  bounded : ∀ d ∈ before, Bounded d
  counted : here = hereDocuments before + if c.delimiter.isSome then 1 else 0
  small : here ≤ 8

theorem Inside.finish {c d : ShCommand} {here : Nat} {before : List ShCommand}
    (inside : Inside c here before) (bounded : Bounded d) (same : d.delimiter = c.delimiter) :
    (∀ e ∈ before ++ [d], Bounded e) ∧ hereDocuments (before ++ [d]) = here := by
  constructor
  · intro e member
    rcases List.mem_append.mp member with earlier | last
    · exact inside.bounded e earlier
    · rw [List.mem_singleton.mp last]
      exact bounded
  · rw [hereDocuments_append, same, inside.counted]

theorem Within.fail : Within (-1, []) := Or.inr ⟨rfl, rfl⟩

theorem commands_within (bytes : List Byte) (stale : Nat → Nat → Option Nat)
    (tokens : List Token) {c : ShCommand} {here : Nat}
    {before : List ShCommand} (inside : Inside c here before) :
    ∃ r, commands bytes stale tokens c here before = some r ∧ Within r := by
  induction size : tokens.length using Nat.strong_induction_on generalizing tokens c here before with
  | _ size' ih =>
  subst size
  have done : ∀ d, Bounded d → d.delimiter = c.delimiter → Within (0, before ++ [d]) := by
    intro d bounded same
    obtain ⟨all, count⟩ := inside.finish bounded same
    refine Or.inl ⟨rfl, ?_, all, ?_⟩
    · rw [List.length_append, List.length_singleton]
      exact inside.short
    · rw [count]
      exact inside.small
  cases tokens with
  | nil =>
      rw [commands_nil]
      split
      · exact ⟨_, rfl, Within.fail⟩
      · rename_i positive
        obtain ⟨d, made, bounded, same⟩ := finish_bounded bytes
          (Nat.pos_of_ne_zero positive) inside.few
        rw [made]
        exact ⟨_, rfl, done d bounded same⟩
  | cons t rest =>
      by_cases argument : t.kind = 0
      · rw [commands_arg argument]
        split
        · exact ⟨_, rfl, Within.fail⟩
        · rename_i notFull
          have few := inside.few
          have stored : c.setArg c.argc (some t.word) =
              some { c with argv := Function.update c.argv c.argc (some t.word) } :=
            if_pos (by omega)
          rw [stored]
          apply ih rest.length (Nat.lt_succ_self _) rest _ rfl
          exact { inside with few := show c.argc + 1 ≤ 32 by omega }
      · by_cases redirection : t.kind ≤ 4
        · cases rest with
          | nil =>
              rw [commands.eq_def]
              simp only [if_neg argument, if_pos redirection]
              exact ⟨_, rfl, Within.fail⟩
          | cons w rest =>
              have shorter : rest.length < (t :: w :: rest).length := by
                simp only [List.length_cons]
                omega
              rw [commands_redirection argument redirection]
              split
              · exact ⟨_, rfl, Within.fail⟩
              · split
                · split
                  · exact ⟨_, rfl, Within.fail⟩
                  · rename_i fresh
                    simp only [Bool.or_eq_true, not_or, Bool.not_eq_true] at fresh
                    split
                    · exact ih rest.length shorter rest { inside with } rfl
                    · split
                      · exact ⟨_, rfl, Within.fail⟩
                      · rename_i room
                        apply ih rest.length shorter rest _ rfl
                        have counted := inside.counted
                        rw [fresh.2] at counted
                        exact { inside with
                          counted := congrArg (· + 1) counted
                          small := Nat.le_of_not_lt room }
                · split
                  · exact ⟨_, rfl, Within.fail⟩
                  · exact ih rest.length shorter rest { inside with } rfl
        · rw [commands_connector redirection]
          split
          · exact ⟨_, rfl, Within.fail⟩
          · rename_i positive
            obtain ⟨d, made, bounded, same⟩ := finish_bounded bytes
              (Nat.pos_of_ne_zero positive) inside.few
            rw [made, Option.bind_some]
            split
            · split
              · exact ⟨_, rfl, Within.fail⟩
              · exact ⟨_, rfl, done d bounded same⟩
            · split
              · exact ⟨_, rfl, Within.fail⟩
              · rename_i room
                have short : (before ++ [d]).length < 16 := by
                  have short := inside.short
                  rw [List.length_append, List.length_singleton]
                  omega
                obtain ⟨all, count⟩ := inside.finish bounded same
                rw [start, if_pos short, Option.bind_some]
                apply ih rest.length (Nat.lt_succ_self _) rest _ rfl
                exact {
                  few := Nat.zero_le _
                  short := short
                  bounded := all
                  counted := count.symm
                  small := inside.small }

end

/-! What a line says. -/

structure Command where
  args : List (List Byte)
  input : Option (List Byte)
  delimiter : Option (List Byte)
  output : Option (List Byte)
  append : Bool

inductive Spells : Command → List Lexeme → Prop
  | nothing : Spells ⟨[], none, none, none, false⟩ []
  | arg {c : Command} {lexemes : List Lexeme} (s : Spelling) (before : Spells c lexemes) :
      Spells { c with args := c.args ++ [s.word] } (lexemes ++ [.word s])
  | input {c : Command} {lexemes : List Lexeme} (s : Spelling) (before : Spells c lexemes)
      (noInput : c.input = none) (noDelimiter : c.delimiter = none) :
      Spells { c with input := some s.word } (lexemes ++ [.operator .input, .word s])
  | here {c : Command} {lexemes : List Lexeme} (s : Spelling) (before : Spells c lexemes)
      (noInput : c.input = none) (noDelimiter : c.delimiter = none) :
      Spells { c with delimiter := some s.word } (lexemes ++ [.operator .here, .word s])
  | output {c : Command} {lexemes : List Lexeme} (s : Spelling) (before : Spells c lexemes)
      (noOutput : c.output = none) :
      Spells { c with output := some s.word, append := false }
        (lexemes ++ [.operator .output, .word s])
  | append {c : Command} {lexemes : List Lexeme} (s : Spelling) (before : Spells c lexemes)
      (noOutput : c.output = none) :
      Spells { c with output := some s.word, append := true }
        (lexemes ++ [.operator .append, .word s])

def joining : Connector → Operator
  | .always => .always
  | .and => .and
  | .or => .or

inductive Joined : Connector → List (Connector × Command) → List Lexeme → Prop
  | last (connector : Connector) {c : Command} {lexemes : List Lexeme} (spelled : Spells c lexemes) :
      Joined connector [(connector, c)] lexemes
  | more (connector next : Connector) {c : Command} {lexemes later : List Lexeme}
      {list : List (Connector × Command)} (spelled : Spells c lexemes)
      (joined : Joined next list later) :
      Joined connector ((connector, c) :: list) (lexemes ++ .operator (joining next) :: later)

/-- `cat file <<EOF` writes the file. -/
def documented (c : Command) : Command :=
  match c.delimiter, c.output, c.args with
  | some _, none, [name, file] =>
      if name = [99, 97, 116] then { c with args := [name], output := some file } else c
  | _, _, _ => c

structure Holds (bytes : List Byte) (c : ShCommand) (connector : Connector) (said : Command) :
    Prop where
  argc : c.argc = said.args.length
  argv : ∀ i w, said.args[i]? = some w → ∃ p, c.argv i = some p ∧ StringAt bytes p w
  input : Option.Rel (StringAt bytes) c.input said.input
  delimiter : Option.Rel (StringAt bytes) c.delimiter said.delimiter
  output : Option.Rel (StringAt bytes) c.output said.output
  append : c.append = said.append
  connector : c.connector = connector
  hereFd : c.hereFd = -1

/-- The string that starts at a place of the storage. -/
def stringFrom (bytes : List Byte) (p : Nat) : List Byte := (bytes.drop p).takeWhile (· ≠ 0)

/-- A parsed command as the loop over the list sees it: the strings behind its pointers. -/
def ShCommand.read (bytes : List Byte) (c : ShCommand) : Shell.ShCommand where
  argv := (List.range c.argc).map fun i => (c.argv i).elim [] (stringFrom bytes)
  connector := c.connector
  append := c.append
  hereFd := c.hereFd
  input := c.input.map (stringFrom bytes)
  output := c.output.map (stringFrom bytes)
  delimiter := c.delimiter.map (stringFrom bytes)

/-- What a line says, for the loop over the list. -/
def Command.told (c : Command) (connector : Connector) : Shell.ShCommand :=
  ⟨c.args, connector, c.append, -1, c.input, c.output, c.delimiter⟩

def hereCount (c : Command) : Nat := if c.delimiter.isSome then 1 else 0

section

variable {bytes : List Byte} {stale : Nat → Nat → Option Nat}

theorem forall₂_split {α β : Type} {R : α → β → Prop} {us : List α} {xs ys : List β}
    (related : List.Forall₂ R us (xs ++ ys)) :
    ∃ vs ws, us = vs ++ ws ∧ List.Forall₂ R vs xs ∧ List.Forall₂ R ws ys :=
  ⟨us.take xs.length, us.drop xs.length, (List.take_append_drop ..).symm,
    List.forall₂_take_append _ _ _ related, List.forall₂_drop_append _ _ _ related⟩

theorem rel_isSome {R : Nat → List Byte → Prop} {p : Option Nat} {w : Option (List Byte)}
    (related : Option.Rel R p w) : p.isSome = w.isSome := by
  cases related with
  | some _ => rfl
  | none => rfl

theorem StringAt.read {p : Nat} {w : List Byte} (string : StringAt bytes p w) :
    stringFrom bytes p = w := by
  obtain ⟨nonzero, rest, place⟩ := string
  rw [stringFrom, place, List.takeWhile_append_of_pos, List.takeWhile_cons_of_neg (by decide),
    List.append_nil]
  intro c member
  exact decide_eq_true fun zero => nonzero (zero ▸ member)

theorem rel_read {p : Option Nat} {w : Option (List Byte)}
    (related : Option.Rel (StringAt bytes) p w) : p.map (stringFrom bytes) = w := by
  cases related with
  | some string => exact congrArg some string.read
  | none => rfl

/-- A command that holds what was said is run as it was said. -/
theorem Holds.read_told {c : ShCommand} {connector : Connector} {said : Command}
    (holds : Holds bytes c connector said) : c.read bytes = said.told connector := by
  have argv : (List.range c.argc).map (fun i => (c.argv i).elim [] (stringFrom bytes)) = said.args := by
    apply List.ext_getElem
    · rw [List.length_map, List.length_range, holds.argc]
    · intro i _ inside
      obtain ⟨p, entry, string⟩ := holds.argv i said.args[i] (List.getElem?_eq_getElem inside)
      rw [List.getElem_map, List.getElem_range, entry]
      exact string.read
  rw [ShCommand.read, argv, holds.connector, holds.append, holds.hereFd, rel_read holds.input,
    rel_read holds.output, rel_read holds.delimiter]
  rfl

theorem empty_holds (connector : Connector) (old : Nat → Option Nat) :
    Holds bytes (empty old connector) connector ⟨[], none, none, none, false⟩ where
  argc := rfl
  argv := by
    intro i w none
    cases none
  input := Option.Rel.none
  delimiter := Option.Rel.none
  output := Option.Rel.none
  append := rfl
  connector := rfl
  hereFd := rfl

theorem Holds.arg {c : ShCommand} {connector : Connector} {said : Command} {p : Nat} {w : List Byte}
    (holds : Holds bytes c connector said) (string : StringAt bytes p w) :
    Holds bytes { c with argv := Function.update c.argv c.argc (some p), argc := c.argc + 1 }
      connector { said with args := said.args ++ [w] } where
  argc := by
    rw [List.length_append, List.length_singleton]
    exact congrArg (· + 1) holds.argc
  argv := by
    intro i v found
    by_cases last : i = c.argc
    · subst last
      rw [holds.argc, List.getElem?_concat_length] at found
      cases found
      exact ⟨p, Function.update_self .., string⟩
    · have before : i < said.args.length := by
        have bound := (List.getElem?_eq_some_iff.mp found).1
        rw [List.length_append, List.length_singleton, ← holds.argc] at bound
        rw [← holds.argc]
        omega
      rw [List.getElem?_append_left before] at found
      obtain ⟨q, entry, string⟩ := holds.argv i v found
      exact ⟨q, (Function.update_of_ne last ..).trans entry, string⟩
  input := holds.input
  delimiter := holds.delimiter
  output := holds.output
  append := holds.append
  connector := holds.connector
  hereFd := holds.hereFd

theorem redirection_reads {tokens : List Token} {o : Operator} {s : Spelling}
    (reads : List.Forall₂ (Reads bytes) tokens [.operator o, .word s]) :
    ∃ t w, tokens = [t, w] ∧ t.kind = o.kind ∧ ¬w.kind ≠ 0 ∧ StringAt bytes w.word s.word := by
  obtain ⟨t, _, kind, readsWord, rfl⟩ := List.forall₂_cons_right_iff.mp reads
  obtain ⟨w, _, read, none, rfl⟩ := List.forall₂_cons_right_iff.mp readsWord
  cases none
  exact ⟨t, w, rfl, kind, not_not.mpr read.1, read.2⟩

/-- The tokens of a command are read into it. -/
theorem spells_reads {said : Command} {lexemes : List Lexeme} (spelled : Spells said lexemes)
    {tokens : List Token} (reads : List.Forall₂ (Reads bytes) tokens lexemes)
    (stale : Nat → Nat → Option Nat) (old : Nat → Option Nat) (connector : Connector) (here : Nat)
    (before : List ShCommand) (few : said.args.length ≤ 32) (small : here + hereCount said ≤ 8) :
    ∃ c, Holds bytes c connector said ∧ ∀ rest,
      commands bytes stale (tokens ++ rest) (empty old connector) here before =
        commands bytes stale rest c (here + hereCount said) before := by
  induction spelled generalizing tokens with
  | nothing =>
      cases reads
      exact ⟨_, empty_holds connector old, fun rest => rfl⟩
  | @arg said lexemes s spelled ih =>
      obtain ⟨first, last, rfl, readsFirst, readsLast⟩ := forall₂_split reads
      obtain ⟨t, _, read, none, rfl⟩ := List.forall₂_cons_right_iff.mp readsLast
      cases none
      rw [List.length_append, List.length_singleton] at few
      obtain ⟨c, holds, made⟩ := ih readsFirst (Nat.le_of_succ_le few) small
      have argc := holds.argc
      have stored : c.setArg c.argc (some t.word) =
          some { c with argv := Function.update c.argv c.argc (some t.word) } := if_pos (by omega)
      refine ⟨_, holds.arg read.2, fun rest => ?_⟩
      rw [List.append_assoc, made, List.singleton_append, commands_arg read.1, if_neg (by omega),
        stored]
      rfl
  | @input said lexemes s spelled noInput noDelimiter ih =>
      obtain ⟨first, last, rfl, readsFirst, readsLast⟩ := forall₂_split reads
      obtain ⟨t, w, rfl, kind, word, string⟩ := redirection_reads readsLast
      obtain ⟨c, holds, made⟩ := ih readsFirst few small
      have fresh : ¬(c.input.isSome || c.delimiter.isSome) = true := by
        rw [rel_isSome holds.input, rel_isSome holds.delimiter, noInput, noDelimiter]
        decide
      refine ⟨{ c with input := some w.word }, { holds with input := Option.Rel.some string },
        fun rest => ?_⟩
      rw [List.append_assoc, made, List.cons_append, List.singleton_append,
        commands_redirection (by rw [kind]; decide) (by rw [kind]; decide), if_neg word,
        if_pos (by rw [kind]; decide), if_neg fresh, if_pos (show t.kind = 1 from kind)]
      rfl
  | @here said lexemes s spelled noInput noDelimiter ih =>
      obtain ⟨first, last, rfl, readsFirst, readsLast⟩ := forall₂_split reads
      obtain ⟨t, w, rfl, kind, word, string⟩ := redirection_reads readsLast
      have none : hereCount said = 0 := by
        rw [hereCount, noDelimiter]
        rfl
      have after : hereCount { said with delimiter := some s.word } = 1 := rfl
      rw [after] at small ⊢
      obtain ⟨c, holds, made⟩ := ih readsFirst few (by omega)
      have fresh : ¬(c.input.isSome || c.delimiter.isSome) = true := by
        rw [rel_isSome holds.input, rel_isSome holds.delimiter, noInput, noDelimiter]
        decide
      refine ⟨{ c with delimiter := some w.word }, { holds with delimiter := Option.Rel.some string },
        fun rest => ?_⟩
      rw [List.append_assoc, made, List.cons_append, List.singleton_append, none,
        commands_redirection (by rw [kind]; decide) (by rw [kind]; decide), if_neg word,
        if_pos (by rw [kind]; decide), if_neg fresh, if_neg (by rw [kind]; decide),
        if_neg (by omega)]
  | @output said lexemes s spelled noOutput ih =>
      obtain ⟨first, last, rfl, readsFirst, readsLast⟩ := forall₂_split reads
      obtain ⟨t, w, rfl, kind, word, string⟩ := redirection_reads readsLast
      obtain ⟨c, holds, made⟩ := ih readsFirst few small
      have fresh : ¬c.output.isSome = true := by
        rw [rel_isSome holds.output, noOutput]
        decide
      refine ⟨{ c with output := some w.word, append := false },
        { holds with output := Option.Rel.some string, append := rfl }, fun rest => ?_⟩
      rw [List.append_assoc, made, List.cons_append, List.singleton_append,
        commands_redirection (by rw [kind]; decide) (by rw [kind]; decide), if_neg word,
        if_neg (by rw [kind]; decide), if_neg fresh, kind]
      rfl
  | @append said lexemes s spelled noOutput ih =>
      obtain ⟨first, last, rfl, readsFirst, readsLast⟩ := forall₂_split reads
      obtain ⟨t, w, rfl, kind, word, string⟩ := redirection_reads readsLast
      obtain ⟨c, holds, made⟩ := ih readsFirst few small
      have fresh : ¬c.output.isSome = true := by
        rw [rel_isSome holds.output, noOutput]
        decide
      refine ⟨{ c with output := some w.word, append := true },
        { holds with output := Option.Rel.some string, append := rfl }, fun rest => ?_⟩
      rw [List.append_assoc, made, List.cons_append, List.singleton_append,
        commands_redirection (by rw [kind]; decide) (by rw [kind]; decide), if_neg word,
        if_neg (by rw [kind]; decide), if_neg fresh, kind]
      rfl

theorem isCat_iff {p : Nat} {w : List Byte} (string : StringAt bytes p w) :
    isCat bytes p = true ↔ w = [99, 97, 116] := by
  obtain ⟨nonzero, rest, place⟩ := string
  have entry (i : Nat) : bytes[p + i]? = (w ++ 0 :: rest)[i]? := by
    rw [← place, List.getElem?_drop]
  have first : bytes[p]? = (w ++ 0 :: rest)[0]? := entry 0
  simp only [isCat, first, entry, Bool.and_eq_true, decide_eq_true_eq]
  match w with
  | [] => simp
  | [a] => simp
  | [a, b] => simp
  | [a, b, c] => simp [and_assoc]
  | a :: b :: c :: d :: w =>
      have other : d ≠ 0 := by
        rintro rfl
        exact nonzero (by simp)
      simp [show d ≠ 0#8 from other]

/-- The commands that `finish` rewrites. -/
def WritesFile (c : Command) : Prop :=
  c.delimiter.isSome = true ∧ c.output = none ∧ ∃ file, c.args = [[99, 97, 116], file]

theorem documented_file {c : Command} {file : List Byte} (delimiter : c.delimiter.isSome = true)
    (output : c.output = none) (args : c.args = [[99, 97, 116], file]) :
    documented c = { c with args := [[99, 97, 116]], output := some file } := by
  obtain ⟨text, found⟩ := Option.isSome_iff_exists.mp delimiter
  simp only [documented, found, output, args, ↓reduceIte]

theorem documented_other {c : Command} (other : ¬WritesFile c) : documented c = c := by
  rw [documented]
  split
  · rename_i text name file delimiter output args
    split
    · rename_i cat
      subst cat
      exact absurd ⟨by rw [delimiter]; rfl, output, file, args⟩ other
    · rfl
  · rfl

theorem Holds.writesFile {c : ShCommand} {connector : Connector} {said : Command}
    (holds : Holds bytes c connector said) :
    (c.delimiter.isSome && c.output.isNone && c.argc = 2 && (c.argv 0).any (isCat bytes)) = true ↔
      WritesFile said := by
  have output : c.output.isNone = true ↔ said.output = none := by
    rw [← Option.not_isSome_iff_eq_none, ← rel_isSome holds.output, ← Option.not_isSome,
      Bool.not_eq_true']
    exact Bool.eq_false_iff
  simp only [Bool.and_eq_true, decide_eq_true_eq, output, rel_isSome holds.delimiter, holds.argc]
  constructor
  · rintro ⟨⟨⟨delimiter, output⟩, two⟩, cat⟩
    refine ⟨delimiter, output, ?_⟩
    obtain ⟨name, file, args⟩ := List.length_eq_two.mp two
    obtain ⟨p, entry, string⟩ := holds.argv 0 name (by rw [args]; rfl)
    rw [entry, Option.any_some, isCat_iff string] at cat
    exact ⟨file, by rw [args, cat]⟩
  · rintro ⟨delimiter, output, file, args⟩
    obtain ⟨p, entry, string⟩ := holds.argv 0 [99, 97, 116] (by rw [args]; rfl)
    refine ⟨⟨⟨delimiter, output⟩, by rw [args]; rfl⟩, ?_⟩
    rw [entry, Option.any_some, isCat_iff string]

/-- The entry behind the arguments is free. -/
theorem Holds.ended {c : ShCommand} {connector : Connector} {said : Command}
    (holds : Holds bytes c connector said) :
    Holds bytes { c with argv := Function.update c.argv c.argc none } connector said :=
  { holds with
    argv := by
      intro i w found
      have other : i ≠ c.argc := by
        rw [holds.argc]
        exact Nat.ne_of_lt (List.getElem?_eq_some_iff.mp found).1
      obtain ⟨p, entry, string⟩ := holds.argv i w found
      exact ⟨p, (Function.update_of_ne other ..).trans entry, string⟩ }

/-- A finished command holds what the line says, up to the documented `cat`. -/
theorem finish_holds {c : ShCommand} {connector : Connector} {said : Command}
    (holds : Holds bytes c connector said) (few : said.args.length ≤ 32) :
    ∃ d, finish bytes c = some d ∧ Holds bytes d connector (documented said) ∧
      d.argv d.argc = none := by
  have argc := holds.argc
  have stored : c.setArg c.argc none =
      some { c with argv := Function.update c.argv c.argc none } := if_pos (by omega)
  have held := holds.ended
  have free : Function.update c.argv c.argc none c.argc = none := Function.update_self ..
  simp only [finish, stored, bind, Option.bind_some]
  generalize Function.update c.argv c.argc none = argv at held free ⊢
  have rewrites := held.writesFile
  by_cases writes : WritesFile said
  · rw [if_pos (rewrites.mpr writes)]
    obtain ⟨delimiter, output, file, args⟩ := writes
    rw [documented_file delimiter output args]
    have cleared : Function.update argv 1 none 1 = none := Function.update_self ..
    refine ⟨_, rfl, { held with argc := rfl, argv := ?_, output := ?_ }, cleared⟩
    · intro i w found
      cases i with
      | zero =>
          obtain ⟨p, entry, string⟩ := held.argv 0 w (by rw [args]; exact found)
          exact ⟨p, entry, string⟩
      | succ i => cases found
    · obtain ⟨p, entry, string⟩ := held.argv 1 file (by rw [args]; rfl)
      have related : Option.Rel (StringAt bytes) (argv 1) (some file) := by
        rw [show argv 1 = some p from entry]
        exact Option.Rel.some string
      exact related
  · rw [if_neg (mt rewrites.mp writes), documented_other writes]
    exact ⟨_, rfl, held, free⟩

theorem spells_nonempty {said : Command} {lexemes : List Lexeme} (spelled : Spells said lexemes)
    (positive : 0 < said.args.length) : lexemes ≠ [] := by
  cases spelled with
  | nothing => exact absurd positive (Nat.lt_irrefl _)
  | _ => exact List.append_ne_nil_of_right_ne_nil _ (List.cons_ne_nil _ _)

theorem joined_nonempty {connector : Connector} {list : List (Connector × Command)}
    {lexemes : List Lexeme} (joined : Joined connector list lexemes)
    (args : ∀ said ∈ list, 0 < said.2.args.length) : lexemes ≠ [] := by
  cases joined with
  | last _ spelled => exact spells_nonempty spelled (args _ List.mem_cons_self)
  | more _ next spelled joined => exact List.append_ne_nil_of_right_ne_nil _ (List.cons_ne_nil _ _)

/-- The tokens of a line are parsed to its commands. -/
theorem joined_reads {connector : Connector} {list : List (Connector × Command)}
    {lexemes : List Lexeme} (joined : Joined connector list lexemes) {tokens : List Token}
    (reads : List.Forall₂ (Reads bytes) tokens lexemes) (stale : Nat → Nat → Option Nat)
    (old : Nat → Option Nat) (here : Nat) (before : List ShCommand)
    (args : ∀ said ∈ list, 0 < said.2.args.length ∧ said.2.args.length ≤ 32)
    (short : before.length + list.length ≤ 16)
    (small : here + (list.map fun said => hereCount said.2).sum ≤ 8) :
    ∃ parsed, commands bytes stale tokens (empty old connector) here before =
        some (0, before ++ parsed) ∧
      List.Forall₂ (fun d said => Holds bytes d said.1 (documented said.2) ∧ d.argv d.argc = none)
        parsed list := by
  induction joined generalizing tokens old here before with
  | @last connector said lexemes spelled =>
      have sizes : 0 < said.args.length ∧ said.args.length ≤ 32 := args _ List.mem_cons_self
      have fewHere : here + hereCount said ≤ 8 := small
      obtain ⟨c, holds, made⟩ := spells_reads spelled reads stale old connector here
        before sizes.2 fewHere
      obtain ⟨d, finished, holdsD, ended⟩ := finish_holds holds sizes.2
      have whole := made []
      have argc := holds.argc
      rw [List.append_nil, commands_nil, if_neg (by omega), finished] at whole
      exact ⟨[d], whole, List.Forall₂.cons ⟨holdsD, ended⟩ List.Forall₂.nil⟩
  | @more connector next said lexemes later list spelled joined ih =>
      have sizes : 0 < said.args.length ∧ said.args.length ≤ 32 := args _ List.mem_cons_self
      have fewHere : here + (hereCount said + (list.map fun said => hereCount said.2).sum) ≤ 8 :=
        small
      rw [List.length_cons] at short
      obtain ⟨first, last, rfl, readsFirst, readsLast⟩ := forall₂_split reads
      obtain ⟨t, rest, kind, readsLater, rfl⟩ := List.forall₂_cons_right_iff.mp readsLast
      obtain ⟨c, holds, made⟩ := spells_reads spelled readsFirst stale old connector here
        before sizes.2 (by omega)
      obtain ⟨d, finished, holdsD, ended⟩ := finish_holds holds sizes.2
      have argc := holds.argc
      have argsLater : ∀ said ∈ list, 0 < said.2.args.length ∧ said.2.args.length ≤ 32 :=
        fun said member => args said (List.mem_cons_of_mem _ member)
      have restNonempty : rest.isEmpty = false := by
        have nonempty := joined_nonempty joined fun said member => (argsLater said member).1
        cases readsLater with
        | nil => exact absurd rfl nonempty
        | cons _ _ => rfl
      have positive : 0 < list.length := by
        cases joined with
        | last _ _ => exact Nat.one_pos
        | more _ _ _ _ => exact Nat.succ_pos _
      have length : (before ++ [d]).length = before.length + 1 := by
        rw [List.length_append, List.length_singleton]
      have started : start stale (before ++ [d])
          (if t.kind = 5 then .and else if t.kind = 6 then .or else .always) =
            some (empty (stale (before ++ [d]).length) next) := by
        rw [start, if_pos (by omega), kind]
        cases next <;> rfl
      have connects : ¬t.kind ≤ 4 := by
        rw [kind]
        cases next <;> decide
      obtain ⟨parsed, rest', held⟩ := ih readsLater (stale (before ++ [d]).length)
        (here + hereCount said) (before ++ [d]) argsLater (by omega) (by omega)
      refine ⟨d :: parsed, ?_, List.Forall₂.cons ⟨holdsD, ended⟩ held⟩
      rw [made, commands_connector connects, if_neg (by omega), finished, Option.bind_some,
        restNonempty, if_neg Bool.false_ne_true, if_neg (by omega), started, Option.bind_some, rest',
        List.append_assoc, List.singleton_append]

end

theorem written_length {lexemes : List Lexeme} {line : List Byte} (written : Written lexemes line) :
    lexemes.length ≤ line.length := by
  induction written with
  | nil blank => exact Nat.zero_le _
  | @cons gap rest l lexemes blank ends later ih =>
      have some : 0 < l.text.length := by
        cases l with
        | word s =>
            obtain ⟨c, tail, text, -⟩ := spelling_first s
            rw [Lexeme.text, text]
            exact Nat.succ_pos _
        | operator o => cases o <;> decide
      simp only [List.length_cons, List.length_append]
      omega

/-- A command line that was written within the limits comes back. -/
theorem written_parsed {storage : List Byte} {capacity : Int}
    (size : storage.length = capacity.toNat) (stale : Nat → Nat → Option Nat)
    {list : List (Connector × Command)} {lexemes : List Lexeme} {line : List Byte}
    (joined : Joined .always list lexemes) (written : Written lexemes line)
    (short : list.length ≤ 16)
    (args : ∀ said ∈ list, 0 < said.2.args.length ∧ said.2.args.length ≤ 32)
    (few : (list.map fun said => hereCount said.2).sum ≤ 8) (tokens : lexemes.length ≤ 64)
    (room : (storageOf lexemes : Int) ≤ capacity) :
    ∃ parsed, shParse line storage capacity stale = some parsed ∧ parsed.code = 0 ∧
      List.Forall₂ (fun c said => Holds parsed.bytes c said.1 (documented said.2) ∧
        c.argv c.argc = none) parsed.list list := by
  have fits : Fits capacity ⟨[], storage⟩ := by
    show ((0 : Nat) : Int) + storage.length = capacity
    omega
  obtain ⟨s, read, scanned, reads⟩ := scan_written written
    (Nat.lt_succ_of_le (written_length written)) []
    (by rw [List.length_nil, Nat.zero_add]; exact tokens) fits
    (show storageOf lexemes ≤ storage.length by omega)
  have nonempty := joined_nonempty joined fun said member => (args said member).1
  rw [List.nil_append] at scanned
  cases read with
  | nil =>
      cases reads
      exact absurd rfl nonempty
  | cons t tokens =>
      obtain ⟨parsed, made, held⟩ := joined_reads joined reads stale (stale 0) 0 [] args
        (by rw [List.length_nil, Nat.zero_add]; exact short) (by rw [Nat.zero_add]; exact few)
      have started : start stale [] .always = some (empty (stale 0) .always) := rfl
      refine ⟨⟨0, _, parsed⟩, ?_, rfl, held⟩
      rw [shParse, scanned]
      simp only [started, bind, Option.bind_some, made, List.nil_append]
      rfl

theorem held_read {bytes : List Byte} {parsed : List ShCommand} {list : List (Connector × Command)}
    (held : List.Forall₂ (fun c said => Holds bytes c said.1 (documented said.2) ∧
      c.argv c.argc = none) parsed list) :
    parsed.map (ShCommand.read bytes) = list.map fun said => (documented said.2).told said.1 := by
  induction held with
  | nil => rfl
  | cons holds _ ih => rw [List.map_cons, List.map_cons, holds.1.read_told, ih]

/-- The shell runs a written line as the list of commands that it says. -/
theorem written_line_runs {σ : Type} (host : Shell.Host σ) (last : Int) (s : σ)
    {storage : List Byte} {capacity : Int} (size : storage.length = capacity.toNat)
    (stale : Nat → Nat → Option Nat) {list : List (Connector × Command)} {lexemes : List Lexeme}
    {line : List Byte} (joined : Joined .always list lexemes) (written : Written lexemes line)
    (short : list.length ≤ 16)
    (args : ∀ said ∈ list, 0 < said.2.args.length ∧ said.2.args.length ≤ 32)
    (few : (list.map fun said => hereCount said.2).sum ≤ 8) (tokens : lexemes.length ≤ 64)
    (room : (storageOf lexemes : Int) ≤ capacity) :
    ∃ parsed, shParse line storage capacity stale = some parsed ∧
      Shell.runLine host (parsed.list.map (ShCommand.read parsed.bytes)) last s =
        Shell.runLine host (list.map fun said => (documented said.2).told said.1) last s := by
  obtain ⟨parsed, made, -, held⟩ := written_parsed size stale joined written short args few tokens room
  exact ⟨parsed, made, congrArg (fun list => Shell.runLine host list last s) (held_read held)⟩

/-- A command line as it was written comes back, and every line is parsed within the arrays. -/
theorem sh_parse_inverts (storage : List Byte) (capacity : Int)
    (size : storage.length = capacity.toNat) (stale : Nat → Nat → Option Nat) :
    (∀ list lexemes line, Joined .always list lexemes → Written lexemes line →
      list.length ≤ 16 → (∀ said ∈ list, 0 < said.2.args.length ∧ said.2.args.length ≤ 32) →
      (list.map fun said => hereCount said.2).sum ≤ 8 → lexemes.length ≤ 64 →
      (storageOf lexemes : Int) ≤ capacity →
      ∃ parsed, shParse line storage capacity stale = some parsed ∧ parsed.code = 0 ∧
        List.Forall₂ (fun c said => Holds parsed.bytes c said.1 (documented said.2) ∧
          c.argv c.argc = none) parsed.list list) ∧
    ∀ line, ∃ parsed, shParse line storage capacity stale = some parsed ∧
      parsed.bytes.length = storage.length ∧ Within (parsed.code, parsed.list) := by
  constructor
  · intro list lexemes line joined written short args few tokens room
    exact written_parsed size stale joined written short args few tokens room
  · intro line
    obtain ⟨b, read, scanned, kept⟩ := scan_sound (b := ⟨[], storage⟩) (line.length + 1) line
      [] (Nat.lt_succ_self _) size (Nat.zero_le _)
    have same : b.bytes.length = storage.length := kept.trans size.symm
    rw [shParse, scanned]
    cases read with
    | none => exact ⟨_, rfl, same, Within.fail⟩
    | some tokens =>
        cases tokens with
        | nil => exact ⟨_, rfl, same, Or.inl ⟨rfl, Nat.zero_le _, by simp, Nat.zero_le _⟩⟩
        | cons t tokens =>
            have started : start stale [] .always = some (empty (stale 0) .always) := rfl
            have inside : Inside (empty (stale 0) .always) 0 [] := {
              few := Nat.zero_le _
              short := by decide
              bounded := by simp
              counted := rfl
              small := Nat.zero_le _ }
            obtain ⟨r, made, within⟩ := commands_within b.bytes stale
              (t :: tokens) inside
            refine ⟨⟨r.1, b.bytes, r.2⟩, ?_, same, within⟩
            simp only [started, bind, Option.bind_some, made]
            rfl

def plainSpelling (c : Byte) (visible : ¬endsWord c = true) (bare : ¬isQuote c = true)
    (other : c ≠ 92) (nonzero : c ≠ 0) : Spelling :=
  ⟨[.plain c visible bare other nonzero], List.cons_ne_nil _ _⟩

/-- The line `e 'a b'>f;c`. -/
theorem sh_parse_inverts_redirection :
    ∃ parsed, shParse [101, 32, 39, 97, 32, 98, 39, 62, 102, 59, 99] (List.replicate 16 0) 16
      (fun _ _ => none) = some parsed ∧ parsed.code = 0 ∧ parsed.list.length = 2 := by
  let e := plainSpelling 101 (by decide) (by decide) (by decide) (by decide)
  let f := plainSpelling 102 (by decide) (by decide) (by decide) (by decide)
  let c := plainSpelling 99 (by decide) (by decide) (by decide) (by decide)
  let ab : Spelling := ⟨[.quoted 39 [97, 32, 98] rfl (by decide) (by decide)], List.cons_ne_nil _ _⟩
  have spelled := Spells.output f (.arg ab (.arg e .nothing)) rfl
  have joined := Joined.more .always .always spelled (.last .always (.arg c .nothing))
  have none : ∀ c ∈ ([] : List Byte), isBlank c = true := by decide
  have blank : ∀ c ∈ ([32] : List Byte), isBlank c = true := by decide
  have ends (c : Byte) (rest : List Byte) (stops : endsWord c = true) :
      ∀ d ∈ (c :: rest).head?, endsWord d = true := by
    intro d found
    cases found
    exact stops
  have single : (Lexeme.operator .output).endsBefore [102, 59, 99] := by
    show some (102 : Byte) ≠ some 62
    decide
  have written : Written [.word e, .word ab, .operator .output, .word f, .operator .always, .word c]
      [101, 32, 39, 97, 32, 98, 39, 62, 102, 59, 99] :=
    .cons none (ends 32 _ rfl) (.cons blank (ends 62 _ rfl) (.cons none single
      (.cons none (ends 59 _ rfl) (.cons none trivial (.cons none nofun (.nil none))))))
  obtain ⟨parsed, made, code, held⟩ := (sh_parse_inverts (List.replicate 16 0) 16 rfl
    (fun _ _ => Option.none)).1 _ _ _ joined written (by decide) (by decide) (by decide) (by decide)
    (by decide)
  exact ⟨parsed, made, code, held.length_eq⟩

end SymphonyPlus.ShellParse
