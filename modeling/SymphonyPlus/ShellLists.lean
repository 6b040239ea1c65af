import Mathlib.Data.List.Basic

/-! Command lists of the shell: `user/bin/sh.c`. -/

namespace SymphonyPlus.Shell

inductive Connector
  | always
  | and
  | or
  deriving DecidableEq

structure ShCommand where
  argv : List (List (BitVec 8))
  connector : Connector
  append : Bool
  hereFd : Int
  input : Option (List (BitVec 8))
  output : Option (List (BitVec 8))
  delimiter : Option (List (BitVec 8))

/-- What the shell asks of the kernel, of its screen and of its other functions, with any answers. -/
structure Host (σ : Type) where
  dup : Int → σ → Int × σ
  dup2 : Int → Int → σ → Int × σ
  close : Int → σ → σ
  openInput : List (BitVec 8) → σ → Int × σ
  openOutput : List (BitVec 8) → Bool → σ → Int × σ
  fork : List (BitVec 8) → List (List (BitVec 8)) → σ → Int × σ
  foreground : Int → σ → σ
  waitpid : Int → σ → Int × Int × σ
  cancelled : σ → Int × σ
  chdir : List (BitVec 8) → σ → Int × σ
  cdPath : List (BitVec 8) → σ → Int × σ
  readCwd : σ → Int × σ
  heredoc : List (BitVec 8) → σ → Int × σ
  error : String → σ → σ
  puts : String → σ → σ
  pwd : σ → σ

/-- The list that is being run, and every here-document that was closed, with its command. -/
structure Running (σ : Type) where
  list : List ShCommand
  host : σ
  closed : List (Nat × Int)

variable {σ : Type} (host : Host σ)

def closeHere (i : Nat) (r : Running σ) : Running σ :=
  match r.list[i]? with
  | none => r
  | some c =>
      if 0 ≤ c.hereFd then
        ⟨r.list.set i { c with hereFd := -1 }, host.close c.hereFd r.host, r.closed ++ [(i, c.hereFd)]⟩
      else r

def cleanup (r : Running σ) : Running σ :=
  (List.range r.list.length).foldl (fun r i => closeHere host i r) r

def restore (input output : Int) (s : σ) : σ :=
  let s := if 0 ≤ input then host.close input (host.dup2 input 0 s).2 else s
  if 0 ≤ output then host.close output (host.dup2 output 1 s).2 else s

def redirect (input output : Option (List (BitVec 8))) (append : Bool) (spool : Int) (s : σ) : Int × σ :=
  let fromInput : Int × σ :=
    if input.isSome || decide (0 ≤ spool) then
      let opened := if 0 ≤ spool then (spool, s) else host.openInput (input.getD []) s
      if opened.1 < 0 then (-1, host.error "sh: cannot open input\n" opened.2)
      else
        let moved := host.dup2 opened.1 0 opened.2
        let s := if spool < 0 then host.close opened.1 moved.2 else moved.2
        (if moved.1 < 0 then -1 else 0, s)
    else (0, s)
  if fromInput.1 < 0 then fromInput
  else
    match output with
    | none => (0, fromInput.2)
    | some output =>
        let opened := host.openOutput output append fromInput.2
        if opened.1 < 0 then (-1, host.error "sh: cannot open output\n" opened.2)
        else
          let moved := host.dup2 opened.1 1 opened.2
          (if moved.1 < 0 then -1 else 0, host.close opened.1 moved.2)

/-- The argument of `exit`: nothing but digits, of a value up to 255. -/
def exitValue (value : Int) : List (BitVec 8) → Option Int
  | [] => some value
  | c :: rest =>
      if c.toInt < 48 ∨ 57 < c.toInt ∨ (255 - (c.toInt - 48)) / 10 < value then none
      else exitValue (value * 10 + c.toInt - 48) rest

structure Result (σ : Type) where
  status : Int
  leaving : Bool
  host : σ

def exitCommand (argv : List (List (BitVec 8))) (last : Int) (s : σ) : Result σ :=
  match argv with
  | [] => ⟨last, true, s⟩
  | [_] => ⟨last, true, s⟩
  | [_, text] =>
      match if text = [] then none else exitValue 0 text with
      | none => ⟨2, false, host.error "exit: expected status 0..255\n" s⟩
      | some value => ⟨value, true, s⟩
  | _ => ⟨2, false, host.error "exit: too many arguments\n" s⟩

def cdCommand (argv : List (List (BitVec 8))) (s : σ) : Result σ :=
  if 2 < argv.length then ⟨2, false, host.error "cd: too many arguments\n" s⟩
  else
    let path := argv.getD 1 [47#8]
    let checked := host.cdPath path s
    if checked.1 < 0 then ⟨1, false, host.error "cd: invalid or too long path\n" checked.2⟩
    else
      let moved := host.chdir path checked.2
      if moved.1 < 0 then ⟨1, false, host.error "cd: no such directory\n" moved.2⟩
      else
        let resolved := host.readCwd moved.2
        if resolved.1 < 0 then
          ⟨1, false, host.error "cd: cannot resolve current directory\n" resolved.2⟩
        else ⟨0, false, resolved.2⟩

def programPath (name : List (BitVec 8)) : List (BitVec 8) :=
  if name.head? = some 47#8 ∨ name.head? = some 46#8 then name
  else [47#8, 98#8, 105#8, 110#8, 47#8] ++ name

def exitStatus (status : Int) : Int :=
  if status % 128 ≠ 0 then 128 + status % 128 else status / 256 % 256

/-- The parent's side of a program that is started. -/
def programCommand (argv : List (List (BitVec 8))) (s : σ) : Result σ :=
  let child := host.fork (programPath (argv.getD 0 [])) argv s
  if child.1 < 0 then ⟨1, false, host.error "fork failed\n" child.2⟩
  else
    let waited := host.waitpid child.1 (host.foreground child.1 child.2)
    if waited.1 < 0 then ⟨1, false, host.foreground 0 (host.error "wait failed\n" waited.2.2)⟩
    else ⟨exitStatus waited.2.1, false, host.foreground 0 waited.2.2⟩

def exitName : List (BitVec 8) := [101#8, 120#8, 105#8, 116#8]
def cdName : List (BitVec 8) := [99#8, 100#8]
def pwdName : List (BitVec 8) := [112#8, 119#8, 100#8]
def resetName : List (BitVec 8) := [114#8, 101#8, 115#8, 101#8, 116#8]
def helpName : List (BitVec 8) := [104#8, 101#8, 108#8, 112#8]

def perform (argv : List (List (BitVec 8))) (last : Int) (s : σ) : Result σ :=
  let name := argv.getD 0 []
  if name = exitName then exitCommand host argv last s
  else if name = cdName then cdCommand host argv s
  else if name = pwdName then
    if argv.length ≠ 1 then ⟨2, false, host.error "pwd: too many arguments\n" s⟩
    else ⟨0, false, host.puts "\n" (host.pwd s)⟩
  else if name = resetName then
    if argv.length ≠ 1 then ⟨2, false, host.error "reset: takes no arguments\n" s⟩
    else ⟨0, false, host.puts "\x1b[2J\x1b[H" s⟩
  else if name = helpName then
    ⟨0, false, host.puts "Ctrl+C: cancel input or foreground command\n"
      (host.puts "Operators: && || ; < > >> <<EOF; cat file <<EOF writes file\n"
        (host.puts "help cd pwd reset exit [N] | ls cat echo mkdir rm [-r] ps sync\n" s))⟩
  else programCommand host argv s

structure Redirected (σ : Type) where
  savedIn : Int
  savedOut : Int
  result : Int
  host : σ

def redirectCommand (c : ShCommand) (s : σ) : Redirected σ :=
  if c.input.isSome || c.output.isSome || decide (0 ≤ c.hereFd) then
    let savedIn := host.dup 0 s
    let savedOut := host.dup 1 savedIn.2
    if savedIn.1 < 0 ∨ savedOut.1 < 0 then ⟨savedIn.1, savedOut.1, -1, savedOut.2⟩
    else
      let redirected := redirect host c.input c.output c.append c.hereFd savedOut.2
      ⟨savedIn.1, savedOut.1, redirected.1, redirected.2⟩
  else ⟨-1, -1, 0, s⟩

/-- The status of a command, whether the shell is to leave, and the list after it. -/
def execute (i : Nat) (c : ShCommand) (last : Int) (r : Running σ) : Int × Bool × Running σ :=
  let redirected := redirectCommand host c r.host
  if redirected.result < 0 then
    let s := restore host redirected.savedIn redirected.savedOut redirected.host
    (1, false, { r with host := host.error "sh: redirection failed\n" s })
  else
    let r := closeHere host i { r with host := redirected.host }
    let result := perform host c.argv last r.host
    (result.status, result.leaving,
      { r with host := restore host redirected.savedIn redirected.savedOut result.host })

/-! The loop over the commands of a list. -/

def admits : Connector → Int → Bool
  | .always, _ => true
  | .and, last => last = 0
  | .or, last => last ≠ 0

structure Event where
  index : Nat
  status : Int
  left : Bool
  cancelled : Bool
  deriving DecidableEq

structure Progress (σ : Type) extends Running σ where
  last : Int
  events : List Event

def runCommand (i : Nat) (c : ShCommand) (p : Progress σ) : Bool × Progress σ :=
  let ended := execute host i c p.last p.toRunning
  let reported := host.cancelled ended.2.2.host
  let cancelled : Bool := 0 < reported.1
  let status := if cancelled then 130 else ended.1
  let leaving := ended.2.1 && !cancelled
  (leaving, { ended.2.2 with
    host := reported.2, last := status, events := p.events ++ [⟨i, status, leaving, cancelled⟩] })

def runFrom : Nat → Nat → Progress σ → Progress σ
  | 0, _, p => p
  | count + 1, i, p =>
      match p.list[i]? with
      | none => p
      | some c =>
          let run := admits c.connector p.last
          let ran := if run then runCommand host i c p else (false, p)
          let p := { ran.2 with toRunning := closeHere host i ran.2.toRunning }
          if ran.1 then p
          else if run ∧ p.last = 130 then p
          else runFrom count (i + 1) p

/-- Either way out of the loop, to the prompt or out of the shell, goes through `cleanup`. -/
def runCommands (list : List ShCommand) (last : Int) (s : σ) : Progress σ :=
  let p := runFrom host list.length 0 ⟨⟨list, s, []⟩, last, []⟩
  { p with toRunning := cleanup host p.toRunning }

def readHeres : List ShCommand → σ → List ShCommand × Int × σ
  | [], s => ([], 0, s)
  | c :: rest, s =>
      match c.delimiter with
      | none =>
          let later := readHeres rest s
          (c :: later.1, later.2)
      | some delimiter =>
          let read := host.heredoc delimiter s
          let c := { c with hereFd := read.1 }
          if read.1 = -2 then (c :: rest, 130, read.2)
          else
            let later := readHeres rest read.2
            (c :: later.1, if read.1 < 0 ∧ later.2.1 = 0 then 1 else later.2.1, later.2.2)

def runLine (list : List ShCommand) (last : Int) (s : σ) : Progress σ :=
  let read := readHeres host list s
  if read.2.1 ≠ 0 then
    { cleanup host ⟨read.1, read.2.2, []⟩ with last := if read.2.1 = 130 then 130 else 1, events := [] }
  else runCommands host read.1 last read.2.2

/-! Every here-document is closed once. -/

def held (list : List ShCommand) (j : Nat) : List (Nat × Int) :=
  match list[j]? with
  | none => []
  | some c => if 0 ≤ c.hereFd then [(j, c.hereFd)] else []

/-- What was closed for a command, and what is still to be closed. -/
def account (r : Running σ) (j : Nat) : List (Nat × Int) :=
  r.closed.filter (fun entry => entry.1 = j) ++ held r.list j

theorem held_set_other {list : List ShCommand} {i j : Nat} (c : ShCommand) (other : i ≠ j) :
    held (list.set i c) j = held list j := by
  simp only [held, List.getElem?_set_ne other]

theorem closeHere_account (i j : Nat) (r : Running σ) :
    account (closeHere host i r) j = account r j := by
  rw [closeHere]
  split
  · rfl
  · rename_i c found
    split
    · rename_i some_
      obtain ⟨inside, -⟩ := List.getElem?_eq_some_iff.mp found
      simp only [account, List.filter_append]
      by_cases same : i = j
      · subst same
        simp only [held, found, if_pos some_]
        simp [inside]
      · simp [held_set_other _ same, same]
    · rfl

theorem closeHere_length (i : Nat) (r : Running σ) :
    (closeHere host i r).list.length = r.list.length := by
  rw [closeHere]
  split
  · rfl
  · split
    · exact List.length_set
    · rfl

/-- Whatever of a command is not its here-document stays. -/
theorem closeHere_map {β : Type} (part : ShCommand → β)
    (apart : ∀ (c : ShCommand) (hereFd : Int), part { c with hereFd } = part c) (i : Nat)
    (r : Running σ) : (closeHere host i r).list.map part = r.list.map part := by
  rw [closeHere]
  split
  · rfl
  · rename_i c found
    split
    · obtain ⟨inside, same⟩ := List.getElem?_eq_some_iff.mp found
      rw [List.map_set, apart, ← same, ← List.getElem_map part]
      · exact List.set_getElem_self _
      · simpa using inside
    · rfl

theorem closeHere_connectors (i : Nat) (r : Running σ) :
    (closeHere host i r).list.map ShCommand.connector = r.list.map ShCommand.connector :=
  closeHere_map host ShCommand.connector (fun _ _ => rfl) i r

theorem closeHere_argv (i : Nat) (r : Running σ) :
    (closeHere host i r).list.map ShCommand.argv = r.list.map ShCommand.argv :=
  closeHere_map host ShCommand.argv (fun _ _ => rfl) i r

theorem closeHere_closes (i : Nat) (r : Running σ) : held (closeHere host i r).list i = [] := by
  rw [closeHere]
  split
  · rename_i missing
    simp [held, missing]
  · rename_i c found
    split
    · obtain ⟨inside, -⟩ := List.getElem?_eq_some_iff.mp found
      simp [held, inside]
    · rename_i none_
      simp [held, found, none_]

theorem closeHere_stays (i j : Nat) (r : Running σ) (none_ : held r.list j = []) :
    held (closeHere host i r).list j = [] := by
  by_cases same : i = j
  · subst same
    exact closeHere_closes host i r
  · rw [closeHere]
    split
    · exact none_
    · split
      · rw [held_set_other _ same]
        exact none_
      · exact none_

theorem closeAll_account (indices : List Nat) (j : Nat) : ∀ r : Running σ,
    account (indices.foldl (fun r i => closeHere host i r) r) j = account r j := by
  induction indices with
  | nil => exact fun _ => rfl
  | cons i rest ih =>
      intro r
      rw [List.foldl_cons, ih, closeHere_account]

theorem closeAll_stays (indices : List Nat) (j : Nat) : ∀ r : Running σ, held r.list j = [] →
    held (indices.foldl (fun r i => closeHere host i r) r).list j = [] := by
  induction indices with
  | nil => exact fun _ none_ => none_
  | cons i rest ih =>
      intro r none_
      exact ih _ (closeHere_stays host i j r none_)

theorem closeAll_closes (indices : List Nat) (j : Nat) : ∀ r : Running σ, j ∈ indices →
    held (indices.foldl (fun r i => closeHere host i r) r).list j = [] := by
  induction indices with
  | nil => simp
  | cons i rest ih =>
      intro r inside
      rw [List.foldl_cons]
      rcases List.mem_cons.mp inside with rfl | later
      · exact closeAll_stays host rest j _ (closeHere_closes host j r)
      · exact ih _ later

theorem cleanup_closed (r : Running σ) (j : Nat) :
    (cleanup host r).closed.filter (fun entry => entry.1 = j) = account r j := by
  have total := closeAll_account host (List.range r.list.length) j r
  have none_ : held (cleanup host r).list j = [] := by
    by_cases inside : j < r.list.length
    · exact closeAll_closes host _ j r (List.mem_range.mpr inside)
    · apply closeAll_stays
      simp [held, List.getElem?_eq_none (Nat.not_lt.mp inside)]
  rw [account, show held ((List.range r.list.length).foldl (fun r i => closeHere host i r) r).list j = []
    from none_, List.append_nil] at total
  exact total

/-- Executing a command changes nothing of the list but its own here-document. -/
theorem execute_keeps (i : Nat) (c : ShCommand) (last : Int) (r : Running σ) :
    (∀ j, account (execute host i c last r).2.2 j = account r j) ∧
    (execute host i c last r).2.2.list.length = r.list.length ∧
    (execute host i c last r).2.2.list.map ShCommand.connector = r.list.map ShCommand.connector := by
  rw [execute]
  split
  · exact ⟨fun _ => rfl, rfl, rfl⟩
  · refine ⟨fun j => ?_, ?_, ?_⟩
    · exact closeHere_account host i j _
    · exact closeHere_length host i _
    · exact closeHere_connectors host i _

theorem runCommand_keeps (i : Nat) (c : ShCommand) (p : Progress σ) :
    (∀ j, account (runCommand host i c p).2.toRunning j = account p.toRunning j) ∧
    (runCommand host i c p).2.list.length = p.list.length ∧
    (runCommand host i c p).2.list.map ShCommand.connector = p.list.map ShCommand.connector :=
  execute_keeps host i c p.last p.toRunning

theorem runCommand_argv (i : Nat) (c : ShCommand) (p : Progress σ) :
    (runCommand host i c p).2.list.map ShCommand.argv = p.list.map ShCommand.argv := by
  change (execute host i c p.last p.toRunning).2.2.list.map ShCommand.argv = _
  rw [execute]
  split
  · rfl
  · exact closeHere_argv host i _

theorem runCommand_event (i : Nat) (c : ShCommand) (p : Progress σ) :
    ∃ event, (runCommand host i c p).2.events = p.events ++ [event] ∧ event.index = i ∧
      (runCommand host i c p).2.last = event.status ∧ event.left = (runCommand host i c p).1 ∧
      (event.cancelled = true → event.status = 130) := by
  refine ⟨_, rfl, rfl, rfl, rfl, ?_⟩
  intro cancelled
  exact if_pos cancelled

theorem runFrom_account (count : Nat) (j : Nat) : ∀ (i : Nat) (p : Progress σ),
    account (runFrom host count i p).toRunning j = account p.toRunning j := by
  induction count with
  | zero => exact fun _ _ => rfl
  | succ count ih =>
      intro i p
      rw [runFrom]
      split
      · rfl
      · rename_i c found
        have kept : account (if admits c.connector p.last then runCommand host i c p
            else (false, p)).2.toRunning j = account p.toRunning j := by
          split
          · exact (runCommand_keeps host i c p).1 j
          · rfl
        simp only
        generalize (if admits c.connector p.last then runCommand host i c p else (false, p)) = ran at kept ⊢
        have closed := closeHere_account host i j ran.2.toRunning
        split_ifs
        · exact closed.trans kept
        · exact closed.trans kept
        · exact (ih _ _).trans (closed.trans kept)

/-! The commands that are executed. -/

/-- What a list does, left to right, where some events end it early. -/
inductive Follows (ends : Event → Prop) : Nat → List Connector → Int → List Event → Int → Prop
  | done (i : Nat) (last : Int) : Follows ends i [] last [] last
  | skip {i : Nat} {connector : Connector} {rest : List Connector} {last final : Int}
      {events : List Event} : admits connector last = false →
      Follows ends (i + 1) rest last events final →
      Follows ends i (connector :: rest) last events final
  | run {i : Nat} {connector : Connector} {rest : List Connector} {last final : Int}
      {event : Event} {events : List Event} : admits connector last = true → event.index = i →
      ¬ends event → Follows ends (i + 1) rest event.status events final →
      Follows ends i (connector :: rest) last (event :: events) final
  | stop {i : Nat} {connector : Connector} {rest : List Connector} {last : Int} {event : Event} :
      admits connector last = true → event.index = i → ends event →
      Follows ends i (connector :: rest) last [event] event.status

/-- An `exit` that succeeded, a cancellation, or the status that stands for one. -/
def Event.Ends (event : Event) : Prop :=
  event.left = true ∨ event.cancelled = true ∨ event.status = 130

theorem runFrom_follows (count : Nat) : ∀ (i : Nat) (p : Progress σ), p.list.length = i + count →
    ∃ events, (runFrom host count i p).events = p.events ++ events ∧
      Follows Event.Ends i ((p.list.map ShCommand.connector).drop i) p.last events
        (runFrom host count i p).last := by
  induction count with
  | zero =>
      intro i p length
      refine ⟨[], (List.append_nil _).symm, ?_⟩
      rw [List.drop_of_length_le (by simp [length])]
      exact .done i p.last
  | succ count ih =>
      intro i p length
      have inside : i < p.list.length := by omega
      have found : p.list[i]? = some p.list[i] := List.getElem?_eq_getElem inside
      have suffix : (p.list.map ShCommand.connector).drop i =
          p.list[i].connector :: (p.list.map ShCommand.connector).drop (i + 1) := by
        rw [List.drop_eq_getElem_cons (by simpa using inside), List.getElem_map]
      rw [suffix]
      simp only [runFrom, found]
      generalize p.list[i] = c
      cases admitted : admits c.connector p.last with
      | false =>
          simp only [Bool.false_eq_true, if_false, false_and]
          obtain ⟨events, same, follows⟩ := ih (i + 1)
            { p with toRunning := closeHere host i p.toRunning } (by rw [closeHere_length]; omega)
          rw [closeHere_connectors] at follows
          exact ⟨events, same, .skip admitted follows⟩
      | true =>
          simp only [if_true, true_and]
          have kept := runCommand_keeps host i c p
          obtain ⟨event, same, index, status, left, cancelled⟩ := runCommand_event host i c p
          generalize runCommand host i c p = ran at kept same status left ⊢
          obtain ⟨-, length', connectors⟩ := kept
          by_cases leaving : ran.1 = true
          · rw [if_pos leaving, status]
            exact ⟨[event], same, .stop admitted index (.inl (left.trans leaving))⟩
          · rw [if_neg leaving]
            by_cases interrupted : ran.2.last = 130
            · rw [if_pos interrupted, status]
              exact ⟨[event], same, .stop admitted index (.inr (.inr (status ▸ interrupted)))⟩
            · rw [if_neg interrupted]
              obtain ⟨events, later, follows⟩ := ih (i + 1)
                { ran.2 with toRunning := closeHere host i ran.2.toRunning }
                (by rw [closeHere_length, length']; omega)
              rw [closeHere_connectors, connectors] at follows
              refine ⟨event :: events, ?_, .run admitted index ?_ (status ▸ follows)⟩
              · rw [later]
                simp [same]
              · rintro (exited | reported | ended)
                · exact leaving (left ▸ exited)
                · exact interrupted (status.trans (cancelled reported))
                · exact interrupted (status.trans ended)

theorem readHeres_map {β : Type} (part : ShCommand → β)
    (apart : ∀ (c : ShCommand) (hereFd : Int), part { c with hereFd } = part c)
    (list : List ShCommand) : ∀ s : σ, (readHeres host list s).1.map part = list.map part := by
  induction list with
  | nil => exact fun _ => rfl
  | cons c rest ih =>
      intro s
      rw [readHeres]
      split
      · simp only [List.map_cons, ih]
      · simp only
        split
        · simp only [List.map_cons, apart]
        · simp only [List.map_cons, ih, apart]

/-! The commands that leave the shell. -/

/-- `exit` alone, or with a status that it accepts. -/
def Exits (argv : List (List (BitVec 8))) (status : Int) : Prop :=
  argv = [exitName] ∨ ∃ text, text ≠ [] ∧ argv = [exitName, text] ∧ exitValue 0 text = some status

theorem exitCommand_exits {argv : List (List (BitVec 8))} {last : Int} {s : σ}
    (named : argv.getD 0 [] = exitName) (leaving : (exitCommand host argv last s).leaving = true) :
    Exits argv (exitCommand host argv last s).status := by
  match argv with
  | [] => exact absurd named (by decide)
  | [name] => exact .inl (congrArg ([·]) named)
  | [name, text] =>
      simp only [exitCommand] at leaving ⊢
      split at leaving
      · exact absurd leaving Bool.false_ne_true
      · rename_i value accepted
        have written : text ≠ [] := by
          rintro rfl
          rw [if_pos rfl] at accepted
          exact absurd accepted (Option.some_ne_none value).symm
        rw [if_neg written] at accepted
        exact .inr ⟨text, written, congrArg (fun name => [name, text]) named, accepted⟩
  | _ :: _ :: _ :: _ => exact absurd leaving Bool.false_ne_true

theorem perform_exits {argv : List (List (BitVec 8))} {last : Int} {s : σ}
    (leaving : (perform host argv last s).leaving = true) :
    Exits argv (perform host argv last s).status := by
  by_cases named : argv.getD 0 [] = exitName
  · have same : perform host argv last s = exitCommand host argv last s := if_pos named
    rw [same] at leaving ⊢
    exact exitCommand_exits host named leaving
  · have stays : (perform host argv last s).leaving = false := by
      rw [perform, if_neg named]
      simp only [cdCommand, programCommand]
      split_ifs <;> rfl
    exact absurd leaving (by rw [stays]; exact Bool.false_ne_true)

theorem execute_exits {i : Nat} {c : ShCommand} {last : Int} {r : Running σ}
    (leaving : (execute host i c last r).2.1 = true) :
    Exits c.argv (execute host i c last r).1 := by
  rw [execute] at leaving ⊢
  split at leaving
  · exact absurd leaving Bool.false_ne_true
  · rename_i made
    rw [if_neg made]
    exact perform_exits host leaving

/-- An event that left the shell is a command that exits, with the status of its argument. -/
def Event.Left (argvs : List (List (List (BitVec 8)))) (event : Event) : Prop :=
  event.left = true →
    event.cancelled = false ∧ ∃ argv, argvs[event.index]? = some argv ∧ Exits argv event.status

theorem runCommand_left {i : Nat} {c : ShCommand} {p : Progress σ}
    {argvs : List (List (List (BitVec 8)))} (found : argvs[i]? = some c.argv)
    (before : ∀ event ∈ p.events, event.Left argvs) :
    ∀ event ∈ (runCommand host i c p).2.events, event.Left argvs := by
  intro event member
  rcases List.mem_append.mp member with old | new
  · exact before event old
  · obtain rfl := List.mem_singleton.mp new
    intro left
    obtain ⟨leaving, uncancelled⟩ := Bool.and_eq_true_iff.mp left
    have kept : decide (0 < (host.cancelled (execute host i c p.last p.toRunning).2.2.host).1) = false := by
      simpa using uncancelled
    refine ⟨kept, c.argv, found, ?_⟩
    simp only [kept]
    exact execute_exits host leaving

theorem runFrom_left {argvs : List (List (List (BitVec 8)))} (count : Nat) :
    ∀ (i : Nat) (p : Progress σ), p.list.map ShCommand.argv = argvs →
      (∀ event ∈ p.events, event.Left argvs) →
      ∀ event ∈ (runFrom host count i p).events, event.Left argvs := by
  induction count with
  | zero => exact fun _ _ _ before => before
  | succ count ih =>
      intro i p same before
      rw [runFrom]
      split
      · exact before
      · rename_i c found
        have argv : argvs[i]? = some c.argv := by
          rw [← same, List.getElem?_map, found, Option.map_some]
        have ran : (∀ event ∈ (if admits c.connector p.last then runCommand host i c p
              else (false, p)).2.events, event.Left argvs) ∧
            (if admits c.connector p.last then runCommand host i c p
              else (false, p)).2.list.map ShCommand.argv = argvs := by
          split
          · exact ⟨runCommand_left host argv before, (runCommand_argv host i c p).trans same⟩
          · exact ⟨before, same⟩
        simp only
        generalize (if admits c.connector p.last then runCommand host i c p else (false, p)) = ran
          at ran ⊢
        split_ifs
        · exact ran.1
        · exact ran.1
        · exact ih _ _ ((closeHere_argv host i _).trans ran.2) ran.1

/-- Each command runs when its connector admits it, and every here-document is closed once. -/
theorem list_left_to_right {σ : Type} (host : Host σ) (list : List ShCommand) (last : Int) (s : σ) :
    let read := readHeres host list s
    let ran := runLine host list last s
    (read.2.1 = 0 → Follows Event.Ends 0 (list.map ShCommand.connector) last ran.events ran.last) ∧
    (∀ event ∈ ran.events, event.Left (list.map ShCommand.argv)) ∧
    (read.2.1 ≠ 0 → ran.events = [] ∧ ran.last = if read.2.1 = 130 then 130 else 1) ∧
    ∀ j, ran.closed.filter (fun entry => entry.1 = j) = held read.1 j := by
  have connectors := readHeres_map host ShCommand.connector (fun _ _ => rfl) list s
  have argvs := readHeres_map host ShCommand.argv (fun _ _ => rfl) list s
  simp only [runLine]
  generalize readHeres host list s = read at connectors argvs ⊢
  split
  · rename_i bad
    refine ⟨fun good => absurd good bad, fun _ none_ => absurd none_ (List.not_mem_nil),
      fun _ => ⟨rfl, rfl⟩, fun j => ?_⟩
    exact cleanup_closed host _ j
  · rename_i good
    refine ⟨fun _ => ?_, ?_, fun bad => absurd bad good, fun j => ?_⟩
    · obtain ⟨events, same, follows⟩ := runFrom_follows host read.1.length 0
        ⟨⟨read.1, read.2.2, []⟩, last, []⟩ (Nat.zero_add _).symm
      rw [List.nil_append] at same
      rw [List.drop_zero, connectors] at follows
      rw [runCommands]
      exact same ▸ follows
    · exact runFrom_left host read.1.length 0 _ argvs (fun _ none_ => absurd none_ List.not_mem_nil)
    · rw [runCommands]
      refine (cleanup_closed host _ j).trans ((runFrom_account host _ j 0 _).trans ?_)
      rfl

/-- A kernel where every program exits with status 130 and nothing is ever cancelled. -/
def exits130 : Host Unit where
  dup := fun _ s => (10, s)
  dup2 := fun _ _ s => (0, s)
  close := fun _ s => s
  openInput := fun _ s => (10, s)
  openOutput := fun _ _ s => (10, s)
  fork := fun _ _ s => (7, s)
  foreground := fun _ s => s
  waitpid := fun pid s => (pid, 33280, s)
  cancelled := fun s => (0, s)
  chdir := fun _ s => (0, s)
  cdPath := fun _ s => (0, s)
  readCwd := fun s => (0, s)
  heredoc := fun _ s => (10, s)
  error := fun _ s => s
  puts := fun _ s => s
  pwd := fun s => s

/-- `a;b`, where `a` exits with 130: `b` is not executed. -/
theorem uncancelled_stops : ¬∀ (host : Host Unit) (list : List ShCommand) (last : Int) (s : Unit),
    (readHeres host list s).2.1 = 0 →
    Follows (fun event => event.left = true ∨ event.cancelled = true) 0 (list.map ShCommand.connector)
      last (runLine host list last s).events (runLine host list last s).last := by
  intro claimed
  have follows := claimed exits130 [⟨[[97#8]], .always, false, -1, none, none, none⟩,
    ⟨[[98#8]], .always, false, -1, none, none, none⟩] 0 () rfl
  have events : (runLine exits130 [⟨[[97#8]], .always, false, -1, none, none, none⟩,
      ⟨[[98#8]], .always, false, -1, none, none, none⟩] 0 ()).events = [⟨0, 130, false, false⟩] := by
    decide
  rw [events] at follows
  cases follows with
  | skip refused _ => exact absurd refused (by decide)
  | run _ _ _ later =>
      cases later with
      | skip refused _ => exact absurd refused (by decide)
  | stop _ _ ended => simp at ended

end SymphonyPlus.Shell
