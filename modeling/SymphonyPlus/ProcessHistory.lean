import Mathlib.Data.List.Basic

/-!
Histories of processes: what forks, exits and waits leave in the slots of a process
table, and the laws of such histories. A history has its newest event first.
-/

namespace ProcessHistory

inductive Event (Pid Slot Cause Word Note : Type)
  | forked (parent child : Pid) (slot : Slot)
  | exited (pid : Pid) (slot : Slot) (cause : Cause)
  | reaped (pid : Pid) (slot : Slot) (word : Word) (father : Pid)
  | noted (note : Note)

variable {Pid Slot Cause Word Note : Type} [DecidableEq Pid] [DecidableEq Slot]

/-- The process in a slot; at first `init` is in its home slot. -/
def occupant (init : Pid) (home : Slot) :
    List (Event Pid Slot Cause Word Note) → Slot → Option Pid
  | [], slot => if slot = home then some init else none
  | .forked _ child used :: older, slot =>
      if slot = used then some child else occupant init home older slot
  | .exited _ _ _ :: older, slot => occupant init home older slot
  | .reaped _ used _ _ :: older, slot =>
      if slot = used then none else occupant init home older slot
  | .noted _ :: older, slot => occupant init home older slot

def causeOf : List (Event Pid Slot Cause Word Note) → Pid → Option Cause
  | [], _ => none
  | .forked _ _ _ :: older, pid => causeOf older pid
  | .exited dead _ cause :: older, pid => if pid = dead then some cause else causeOf older pid
  | .reaped _ _ _ _ :: older, pid => causeOf older pid
  | .noted _ :: older, pid => causeOf older pid

/-- The father of a process: the one that forked it, and `init` once that one has exited. -/
def fatherOf (init : Pid) : List (Event Pid Slot Cause Word Note) → Pid → Option Pid
  | [], _ => none
  | .forked parent child _ :: older, pid =>
      if pid = child then some parent else fatherOf init older pid
  | .exited dead _ _ :: older, pid =>
      if fatherOf init older pid = some dead then some init else fatherOf init older pid
  | .reaped _ _ _ _ :: older, pid => fatherOf init older pid
  | .noted _ :: older, pid => fatherOf init older pid

def Unused (init : Pid) (history : List (Event Pid Slot Cause Word Note)) (pid : Pid) : Prop :=
  pid ≠ init ∧ ∀ parent slot, .forked parent pid slot ∉ history

/-- Pids are fresh, slots of new processes vacant, and a process is reaped by its father with the
word of its exit. -/
def Lawful (init : Pid) (home : Slot) (word : Cause → Word) :
    List (Event Pid Slot Cause Word Note) → Prop
  | [] => True
  | event :: older => Lawful init home word older ∧
      match event with
      | .forked parent child slot =>
          Unused init older child ∧ occupant init home older slot = none ∧
            causeOf older parent = none
      | .exited pid slot _ => occupant init home older slot = some pid ∧ causeOf older pid = none
      | .reaped pid slot value father =>
          occupant init home older slot = some pid ∧
            (causeOf older pid).map word = some value ∧ fatherOf init older pid = some father
      | .noted _ => True

def PutIn (init : Pid) (home : Slot) (history : List (Event Pid Slot Cause Word Note))
    (pid : Pid) (slot : Slot) : Prop :=
  (pid = init ∧ slot = home) ∨ ∃ parent, .forked parent pid slot ∈ history

section Laws

attribute [local simp] occupant causeOf fatherOf Lawful

variable {init : Pid} {home : Slot} {word : Cause → Word}
variable {history : List (Event Pid Slot Cause Word Note)}

omit [DecidableEq Pid] [DecidableEq Slot] in
theorem Unused.tail {event : Event Pid Slot Cause Word Note} {pid : Pid}
    (unused : Unused init (event :: history) pid) : Unused init history pid :=
  ⟨unused.1, fun parent slot inside => unused.2 parent slot (List.mem_cons_of_mem _ inside)⟩

theorem Lawful.older {newer : List (Event Pid Slot Cause Word Note)}
    (lawful : Lawful init home word (newer ++ history)) : Lawful init home word history := by
  induction newer with
  | nil => exact lawful
  | cons event newer ih => exact ih lawful.1

omit [DecidableEq Pid] in
theorem occupant_used {slot : Slot} {pid : Pid}
    (inside : occupant init home history slot = some pid) : ¬Unused init history pid := by
  induction history with
  | nil =>
      intro unused
      unfold occupant at inside
      split at inside
      · exact unused.1 (Option.some.inj inside).symm
      · cases inside
  | cons event older ih =>
      cases event with
      | forked parent child used =>
          intro unused
          unfold occupant at inside
          split at inside
          · rw [Option.some.inj inside] at unused
            exact unused.2 parent used List.mem_cons_self
          · exact ih inside unused.tail
      | exited dead used cause => exact fun unused => ih inside unused.tail
      | reaped dead used value father =>
          intro unused
          unfold occupant at inside
          split at inside
          · cases inside
          · exact ih inside unused.tail
      | noted note => exact fun unused => ih inside unused.tail

theorem occupant_injective (lawful : Lawful init home word history) {i j : Slot} {pid : Pid}
    (first : occupant init home history i = some pid)
    (second : occupant init home history j = some pid) : i = j := by
  induction history with
  | nil =>
      unfold occupant at first second
      split at first
      · split at second
        · rename_i same other
          rw [same, other]
        · cases second
      · cases first
  | cons event older ih =>
      obtain ⟨before, now⟩ := lawful
      cases event with
      | forked parent child used =>
          unfold occupant at first second
          split at first
          · rename_i here
            split at second
            · rename_i there
              rw [here, there]
            · rw [← Option.some.inj first] at second
              exact absurd now.1 (occupant_used second)
          · split at second
            · rw [← Option.some.inj second] at first
              exact absurd now.1 (occupant_used first)
            · exact ih before first second
      | exited dead used cause => exact ih before first second
      | reaped dead used value father =>
          unfold occupant at first second
          split at first
          · cases first
          · split at second
            · cases second
            · exact ih before first second
      | noted note => exact ih before first second

theorem reaped_used (lawful : Lawful init home word history) {pid father : Pid} {slot : Slot}
    {value : Word} (reaped : .reaped pid slot value father ∈ history) :
    ¬Unused init history pid := by
  induction history with
  | nil => cases reaped
  | cons event older ih =>
      intro unused
      obtain ⟨before, now⟩ := lawful
      rcases List.mem_cons.mp reaped with same | earlier
      · subst same
        exact occupant_used now.1 unused.tail
      · exact ih before earlier unused.tail

/-- A reaped process is in no slot. -/
theorem reaped_absent (lawful : Lawful init home word history) {pid father : Pid} {slot : Slot}
    {value : Word} (reaped : .reaped pid slot value father ∈ history) (other : Slot) :
    occupant init home history other ≠ some pid := by
  induction history with
  | nil => cases reaped
  | cons event older ih =>
      intro inside
      obtain ⟨before, now⟩ := lawful
      rcases List.mem_cons.mp reaped with same | earlier
      · subst same
        unfold occupant at inside
        split at inside
        · cases inside
        · rename_i different
          exact different (occupant_injective before inside now.1)
      · cases event with
        | forked parent child used =>
            unfold occupant at inside
            split at inside
            · rw [Option.some.inj inside] at now
              exact reaped_used before earlier now.1
            · exact ih before earlier inside
        | exited dead used cause => exact ih before earlier inside
        | reaped dead used value father =>
            unfold occupant at inside
            split at inside
            · cases inside
            · exact ih before earlier inside
        | noted note => exact ih before earlier inside

/-- A process that has exited is in its slot until it is reaped, with the word of its exit. -/
theorem exited_stays (lawful : Lawful init home word history) {pid : Pid} {slot : Slot}
    {cause : Cause} (exited : .exited pid slot cause ∈ history) :
    causeOf history pid = some cause ∧ (occupant init home history slot = some pid ∨
      ∃ father, .reaped pid slot (word cause) father ∈ history) := by
  induction history with
  | nil => cases exited
  | cons event older ih =>
      obtain ⟨before, now⟩ := lawful
      rcases List.mem_cons.mp exited with same | earlier
      · subst same
        exact ⟨if_pos rfl, Or.inl now.1⟩
      · obtain ⟨known, stays⟩ := ih before earlier
        cases event with
        | forked parent child used =>
            refine ⟨known, stays.imp (fun inside => ?_) fun ⟨father, reaped⟩ =>
              ⟨father, List.mem_cons_of_mem _ reaped⟩⟩
            unfold occupant
            rw [if_neg]
            · exact inside
            · rintro rfl
              rw [now.2.1] at inside
              cases inside
        | exited dead used other =>
            refine ⟨?_, stays.imp id fun ⟨father, reaped⟩ =>
              ⟨father, List.mem_cons_of_mem _ reaped⟩⟩
            unfold causeOf
            rw [if_neg]
            · exact known
            · rintro rfl
              rw [now.2] at known
              cases known
        | reaped dead used value father =>
            refine ⟨known, ?_⟩
            rcases stays with inside | ⟨other, reaped⟩
            · by_cases here : slot = used
              · subst here
                obtain ⟨here, same, _⟩ := now
                rw [here] at inside
                cases inside
                rw [known] at same
                cases same
                exact Or.inr ⟨father, List.mem_cons_self⟩
              · refine Or.inl ?_
                unfold occupant
                rw [if_neg here]
                exact inside
            · exact Or.inr ⟨other, List.mem_cons_of_mem _ reaped⟩
        | noted note =>
            exact ⟨known, stays.imp id fun ⟨father, reaped⟩ =>
              ⟨father, List.mem_cons_of_mem _ reaped⟩⟩

omit [DecidableEq Slot] in
theorem causeOf_exited {pid : Pid} {cause : Cause} (known : causeOf history pid = some cause) :
    ∃ slot, .exited pid slot cause ∈ history := by
  induction history with
  | nil => cases known
  | cons event older ih =>
      have earlier (kept : causeOf older pid = some cause) :
          ∃ slot, .exited pid slot cause ∈ event :: older := by
        obtain ⟨slot, inside⟩ := ih kept
        exact ⟨slot, List.mem_cons_of_mem _ inside⟩
      cases event with
      | forked parent child used => exact earlier known
      | exited dead used other =>
          unfold causeOf at known
          split at known
          · rename_i same
            cases known
            exact ⟨used, same ▸ List.mem_cons_self⟩
          · exact earlier known
      | reaped dead used value father => exact earlier known
      | noted note => exact earlier known

/-- A process put in a slot is there or was reaped from there. -/
theorem putIn_stays (lawful : Lawful init home word history) {pid : Pid} {slot : Slot}
    (put : PutIn init home history pid slot) : occupant init home history slot = some pid ∨
      ∃ value father, .reaped pid slot value father ∈ history := by
  induction history with
  | nil =>
      rcases put with ⟨rfl, rfl⟩ | ⟨parent, inside⟩
      · exact Or.inl (if_pos rfl)
      · cases inside
  | cons event older ih =>
      obtain ⟨before, now⟩ := lawful
      have earlier (put : PutIn init home older pid slot)
          (keeps : occupant init home older slot = some pid →
            occupant init home (event :: older) slot = some pid ∨
              ∃ value father, .reaped pid slot value father ∈ event :: older) :
          occupant init home (event :: older) slot = some pid ∨
            ∃ value father, .reaped pid slot value father ∈ event :: older := by
        rcases ih before put with inside | ⟨value, father, reaped⟩
        · exact keeps inside
        · exact Or.inr ⟨value, father, List.mem_cons_of_mem _ reaped⟩
      cases event with
      | forked parent child used =>
          by_cases mine : PutIn init home older pid slot
          · refine earlier mine fun inside => Or.inl ?_
            unfold occupant
            rw [if_neg]
            · exact inside
            · rintro rfl
              rw [now.2.1] at inside
              cases inside
          · rcases put with start | ⟨other, inside⟩
            · exact absurd (Or.inl start) mine
            · rcases List.mem_cons.mp inside with same | inside
              · cases same
                exact Or.inl (if_pos rfl)
              · exact absurd (Or.inr ⟨other, inside⟩) mine
      | exited dead used cause =>
          exact earlier (put.imp id fun ⟨parent, inside⟩ => ⟨parent, by simpa using inside⟩) Or.inl
      | reaped dead used value father =>
          refine earlier (put.imp id fun ⟨parent, inside⟩ => ⟨parent, by simpa using inside⟩) ?_
          intro inside
          by_cases here : slot = used
          · subst here
            rw [now.1] at inside
            cases inside
            exact Or.inr ⟨value, father, List.mem_cons_self⟩
          · refine Or.inl ?_
            unfold occupant
            rw [if_neg here]
            exact inside
      | noted note =>
          exact earlier (put.imp id fun ⟨parent, inside⟩ => ⟨parent, by simpa using inside⟩) Or.inl

/-- A pid that was never given to a process has not exited. -/
theorem causeOf_unused (lawful : Lawful init home word history) {pid : Pid}
    (unused : Unused init history pid) : causeOf history pid = none := by
  induction history with
  | nil => rfl
  | cons event older ih =>
      obtain ⟨before, now⟩ := lawful
      cases event with
      | forked parent child used => exact ih before unused.tail
      | exited dead used cause =>
          unfold causeOf
          rw [if_neg]
          · exact ih before unused.tail
          · rintro rfl
            exact occupant_used now.1 unused.tail
      | reaped dead used value father => exact ih before unused.tail
      | noted note => exact ih before unused.tail

/-- No process has a father that has exited, `init` apart. -/
theorem fatherOf_alive (lawful : Lawful init home word history) {dead pid : Pid} {slot : Slot}
    {cause : Cause} (exited : .exited dead slot cause ∈ history) (other : dead ≠ init) :
    fatherOf init history pid ≠ some dead := by
  induction history with
  | nil => cases exited
  | cons event older ih =>
      obtain ⟨before, now⟩ := lawful
      cases event with
      | forked parent child used =>
          have earlier : .exited dead slot cause ∈ older := by simpa using exited
          unfold fatherOf
          split
          · intro same
            obtain ⟨_, _, alive⟩ := now
            rw [Option.some.inj same, (exited_stays before earlier).1] at alive
            cases alive
          · exact ih before earlier
      | exited gone used cause' =>
          unfold fatherOf
          split
          · intro same
            exact other (Option.some.inj same).symm
          · rename_i different
            rcases List.mem_cons.mp exited with same | earlier
            · cases same
              exact different
            · exact ih before earlier
      | reaped gone used value father => exact ih before (by simpa using exited)
      | noted note => exact ih before (by simpa using exited)

/-- A process is reaped after it has exited, from the slot it exited in, by its father. -/
theorem reaped_exited {newer older : List (Event Pid Slot Cause Word Note)} {pid father : Pid}
    {slot : Slot} {value : Word}
    (lawful : Lawful init home word (newer ++ .reaped pid slot value father :: older)) :
    ∃ cause, .exited pid slot cause ∈ older ∧ value = word cause ∧
      fatherOf init older pid = some father := by
  obtain ⟨before, inside, known, child⟩ := lawful.older
  obtain ⟨cause, exited, rfl⟩ := Option.map_eq_some_iff.mp known
  obtain ⟨used, recorded⟩ := causeOf_exited exited
  rcases (exited_stays before recorded).2 with same | ⟨other, reaped⟩
  · rw [occupant_injective before inside same]
    exact ⟨cause, recorded, rfl, child⟩
  · exact absurd inside (reaped_absent before reaped slot)

/-- Between two forks into one slot the first child was reaped. -/
theorem forked_vacant {newer older : List (Event Pid Slot Cause Word Note)}
    {parent child pid : Pid} {slot : Slot}
    (lawful : Lawful init home word (newer ++ .forked parent child slot :: older))
    (put : PutIn init home older pid slot) :
    ∃ value father, .reaped pid slot value father ∈ older := by
  obtain ⟨before, _, vacant, _⟩ := lawful.older
  rcases putIn_stays before put with inside | reaped
  · rw [vacant] at inside
    cases inside
  · exact reaped

def Event.reaps (pid : Pid) : Event Pid Slot Cause Word Note → Bool
  | .reaped dead _ _ _ => dead = pid
  | _ => false

def Event.exits (pid : Pid) : Event Pid Slot Cause Word Note → Bool
  | .exited dead _ _ => dead = pid
  | _ => false

theorem reaped_once (lawful : Lawful init home word history) (pid : Pid) :
    history.countP (Event.reaps pid) ≤ 1 := by
  induction history with
  | nil => exact Nat.zero_le 1
  | cons event older ih =>
      obtain ⟨before, now⟩ := lawful
      rw [List.countP_cons]
      split
      · rename_i reaps
        cases event with
        | reaped dead used value father =>
            rw [Event.reaps, decide_eq_true_eq] at reaps
            subst reaps
            have first : older.countP (Event.reaps dead) = 0 := by
              rw [List.countP_eq_zero]
              intro event inside again
              cases event with
              | reaped other slot value father =>
                  rw [Event.reaps, decide_eq_true_eq] at again
                  subst again
                  exact reaped_absent before inside used now.1
              | _ => cases again
            omega
        | _ => cases reaps
      · exact ih before

theorem exited_once (lawful : Lawful init home word history) (pid : Pid) :
    history.countP (Event.exits pid) ≤ 1 := by
  induction history with
  | nil => exact Nat.zero_le 1
  | cons event older ih =>
      obtain ⟨before, now⟩ := lawful
      rw [List.countP_cons]
      split
      · rename_i exits
        cases event with
        | exited dead used cause =>
            rw [Event.exits, decide_eq_true_eq] at exits
            subst exits
            have first : older.countP (Event.exits dead) = 0 := by
              rw [List.countP_eq_zero]
              intro event inside again
              cases event with
              | exited other slot cause =>
                  rw [Event.exits, decide_eq_true_eq] at again
                  subst again
                  obtain ⟨_, alive⟩ := now
                  rw [(exited_stays before inside).1] at alive
                  cases alive
              | _ => cases again
            omega
        | _ => cases exits
      · exact ih before

end Laws

end ProcessHistory
