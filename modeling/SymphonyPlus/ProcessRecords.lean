import SymphonyPlus.DispatchRuns

/-!
The process table agrees with the history of its processes in every reachable state.
-/

namespace SymphonyPlus

open ByteMemory Function Relation ProcessHistory

section ProcessRecords

variable {S : Type} {fileSystem : FileSystem S}

structure Recorded (k : Kernel S) : Prop where
  lawful : Lawful 1 1 exitStatus k.history
  occupants : ∀ slot ∈ slots, occupant 1 1 k.history slot =
    if k.occupied slot then some (k.process slot).pid else none
  exits : ∀ slot ∈ slots, k.occupied slot = true →
    (causeOf k.history (k.process slot).pid).map exitStatus =
      if (k.process slot).state = .zombie then some (k.process slot).exitCode else none
  fathers : ∀ slot ∈ slots, k.occupied slot = true →
    (k.process slot).father = (fatherOf 1 k.history (k.process slot).pid).getD 0
  known : ∀ pid, ¬Unused 1 k.history pid →
    ∃ number, 1 ≤ number ∧ number ≤ 1 + forks k ∧ pid = BitVec.ofNat 32 number
  places : ∀ pid slot code, .exited pid slot code ∈ k.history → slot ∈ slots

structure SameProcesses (before after : Kernel S) : Prop where
  occupied : after.occupied = before.occupied
  pid : ∀ slot, (after.process slot).pid = (before.process slot).pid
  father : ∀ slot, (after.process slot).father = (before.process slot).father
  exitCode : ∀ slot, (after.process slot).exitCode = (before.process slot).exitCode
  zombie : ∀ slot, (after.process slot).state = .zombie ↔ (before.process slot).state = .zombie

theorem SameTable.sameProcesses {before after : Kernel S} (same : SameTable before after) :
    SameProcesses before after where
  occupied := same.occupied
  pid := fun slot => (same.process slot).1
  father := fun slot => (same.process slot).2.1
  exitCode := fun slot => (same.process slot).2.2.2
  zombie := fun slot => by rw [(same.process slot).2.2.1]

theorem Rescheduled.sameProcesses {before after : Kernel S} {state : TaskState}
    {call : BitVec 32} (rescheduled : Rescheduled before after state call)
    (alive : (before.process before.active).state ≠ .zombie) (stays : state ≠ .zombie) :
    SameProcesses before after := by
  have process (slot : Nat) : after.process slot =
      if slot = before.active then { before.process before.active with state := state }
      else before.process slot := by
    split
    · rename_i here
      rw [here, rescheduled.own]
    · rename_i other
      exact rescheduled.others slot other
  constructor
  case occupied => exact rescheduled.occupied
  all_goals
    intro slot
    rw [process slot]
    split
  any_goals rfl
  · rename_i here
    rw [here]
  · rename_i here
    rw [here]
  · rename_i here
    rw [here]
  · rename_i here
    rw [here]
    exact iff_of_false stays alive

theorem Recorded.congr {before after : Kernel S} (recorded : Recorded before)
    (same : SameProcesses before after) (history : after.history = before.history) :
    Recorded after := by
  have count : forks after = forks before := by rw [forks, forks, history]
  constructor
  · rw [history]
    exact recorded.lawful
  · intro slot inside
    rw [history, same.occupied, same.pid slot]
    exact recorded.occupants slot inside
  · intro slot inside occupied
    rw [same.occupied] at occupied
    rw [history, same.pid slot, same.exitCode slot]
    simp only [same.zombie slot]
    exact recorded.exits slot inside occupied
  · intro slot inside occupied
    rw [same.occupied] at occupied
    rw [history, same.pid slot, same.father slot]
    exact recorded.fathers slot inside occupied
  · rw [history, count]
    exact recorded.known
  · rw [history]
    exact recorded.places

theorem Recorded.entered {k : Kernel S} (recorded : Recorded k) (window : Memory)
    (saved : Context) (poll : Poll) : Recorded (entered k window saved poll) := by
  have count := entered_forks k window saved poll
  obtain ⟨terminal, interrupted, cancelRead, clock, same, _⟩ :=
    entered_changes k window saved poll
  rw [same] at count ⊢
  constructor
  · exact ⟨recorded.lawful, trivial⟩
  · exact recorded.occupants
  · exact recorded.exits
  · exact recorded.fathers
  · intro pid used
    rw [count]
    refine recorded.known pid fun unused => used ⟨unused.1, fun parent slot inside => ?_⟩
    rcases List.mem_cons.mp inside with fork | inside
    · cases fork
    · exact unused.2 parent slot inside
  · exact fun pid slot code exit => recorded.places pid slot code (by simpa [saveContext] using exit)

theorem Recorded.pid_nonzero {k : Kernel S} (table : TableInvariant k) (few : forks k < 2 ^ 31)
    {slot : Nat} (inside : slot ∈ slots) (occupied : k.occupied slot = true) :
    (k.process slot).pid ≠ 0 := by
  obtain ⟨number, positive, bounded, pid⟩ := table.pids slot inside occupied
  rw [pid]
  exact (few_pid few positive bounded).1

theorem Recorded.alive {k : Kernel S} (recorded : Recorded k) {slot : Nat}
    (inside : slot ∈ slots) (occupied : k.occupied slot = true)
    (alive : (k.process slot).state ≠ .zombie) : causeOf k.history (k.process slot).pid = none := by
  have exits := recorded.exits slot inside occupied
  rw [if_neg alive] at exits
  exact Option.map_eq_none_iff.mp exits

/-- The father a history gives, for a father that is a process. -/
theorem Recorded.father_iff {k : Kernel S} (recorded : Recorded k) {slot : Nat}
    (inside : slot ∈ slots) (occupied : k.occupied slot = true) {pid : BitVec 32}
    (nonzero : pid ≠ 0) :
    (k.process slot).father = pid ↔ fatherOf 1 k.history (k.process slot).pid = some pid := by
  rw [recorded.fathers slot inside occupied]
  cases fatherOf 1 k.history (k.process slot).pid with
  | none => exact iff_of_false (fun zero => nonzero zero.symm) (by simp)
  | some father => simp

theorem recorded_exited {before after : Kernel S} {code : Option (BitVec 32)}
    (recorded : Recorded before) (table : TableInvariant before) (few : forks before < 2 ^ 31)
    (alive : (before.process before.active).state ≠ .zombie)
    (exited : Exited before after code) : Recorded after := by
  have count : forks after = forks before := by
    rw [forks, forks, exited.history]
    rfl
  have nonzero := Recorded.pid_nonzero table few table.activeSlot table.activeOccupied
  have living := recorded.alive table.activeSlot table.activeOccupied alive
  have others {slot : Nat} (inside : slot ∈ slots) (occupied : before.occupied slot = true)
      (other : slot ≠ before.active) :
      (before.process slot).pid ≠ (before.process before.active).pid := fun same =>
    other (table.distinct slot inside _ table.activeSlot occupied table.activeOccupied same)
  have exitCode {slot : Nat} (other : slot ≠ before.active) :
      (after.process slot).exitCode = (before.process slot).exitCode ∧
        (after.process slot).state = (before.process slot).state := by
    rw [exited.others slot other]
    split <;> exact ⟨rfl, rfl⟩
  constructor
  · rw [exited.history]
    refine ⟨recorded.lawful, ?_, living⟩
    rw [recorded.occupants _ table.activeSlot, if_pos table.activeOccupied]
  · intro slot inside
    rw [exited.history, exited.occupied, exited.identity slot]
    exact recorded.occupants slot inside
  · intro slot inside occupied
    rw [exited.occupied] at occupied
    rw [exited.history, exited.identity slot]
    unfold causeOf
    by_cases here : slot = before.active
    · rw [here, exited.state, exited.exitCode, if_pos rfl]
      rfl
    · rw [if_neg (others inside occupied here), (exitCode here).1, (exitCode here).2]
      exact recorded.exits slot inside occupied
  · intro slot inside occupied
    rw [exited.occupied] at occupied
    rw [exited.history, exited.identity slot]
    unfold fatherOf
    have father := recorded.father_iff inside occupied nonzero
    by_cases here : slot = before.active
    · rw [here] at father ⊢
      rw [exited.father, if_neg (fun own => table.ownFather (father.mpr own))]
      exact recorded.fathers _ table.activeSlot table.activeOccupied
    · rw [exited.others slot here]
      by_cases child : (before.process slot).father = (before.process before.active).pid
      · rw [if_pos ⟨inside, occupied, child⟩, if_pos (father.mp child)]
        rfl
      · rw [if_neg (fun adopted => child adopted.2.2), if_neg (fun own => child (father.mpr own))]
        exact recorded.fathers slot inside occupied
  · intro pid used
    rw [count]
    refine recorded.known pid fun unused => used ⟨unused.1, fun parent slot inside => ?_⟩
    rw [exited.history] at inside
    rcases List.mem_cons.mp inside with fork | inside
    · cases fork
    · exact unused.2 parent slot inside
  · intro pid slot code exit
    rw [exited.history] at exit
    rcases List.mem_cons.mp exit with now | earlier
    · cases now
      exact table.activeSlot
    · exact recorded.places pid slot code earlier

theorem recorded_fork {k : Kernel S} (recorded : Recorded k) (table : TableInvariant k)
    {slot : Nat} (free : freeSlot k = some slot)
    (few : forks (forkInto fileSystem k slot) < 2 ^ 31)
    (alive : (k.process k.active).state ≠ .zombie) : Recorded (forkInto fileSystem k slot) := by
  obtain ⟨insideSlot, vacant⟩ := freeSlot_some free
  have count : forks (forkInto fileSystem k slot) = forks k + 1 :=
    List.countP_cons_of_pos (by rfl)
  rw [count] at few
  have newPid := table.newPid
  have newValue : (BitVec.ofNat 32 (1 + (forks k + 1))).toNat = 1 + (forks k + 1) :=
    (few_pid few (by omega) (by omega)).2
  have unused : Unused 1 k.history (k.nextPid + 1) := by
    by_contra used
    obtain ⟨number, positive, bounded, pid⟩ := recorded.known _ used
    have value := (few_pid (by omega : forks k < 2 ^ 31) positive bounded).2
    rw [newPid] at pid
    have same := congrArg BitVec.toNat pid
    omega
  have others {other : Nat} (different : other ≠ slot)
      (occupied : (forkInto fileSystem k slot).occupied other = true) :
      k.occupied other = true := by
    rw [← occupied]
    exact (update_of_ne different _ _).symm
  have process {other : Nat} (different : other ≠ slot) :
      (forkInto fileSystem k slot).process other = k.process other :=
    update_of_ne different _ _
  have child : (forkInto fileSystem k slot).process slot =
      { k.currentTask with
        pid := k.nextPid + 1, father := k.currentTask.pid, state := .running, exitCode := 0 } :=
    update_self _ _ _
  constructor
  · refine ⟨recorded.lawful, unused, ?_, ?_⟩
    · rw [recorded.occupants slot insideSlot, vacant]
      rfl
    · rw [table.currentTask]
      exact recorded.alive table.activeSlot table.activeOccupied alive
  · intro other inside
    change (if other = slot then some (k.nextPid + 1) else occupant 1 1 k.history other) = _
    by_cases here : other = slot
    · rw [here, if_pos rfl, child]
      simp [forkInto]
    · rw [if_neg here, process here]
      simp only [forkInto, update_of_ne here]
      exact recorded.occupants other inside
  · intro other inside occupied
    change (causeOf k.history _).map exitStatus = _
    by_cases here : other = slot
    · rw [here, child, if_neg (by simp), causeOf_unused recorded.lawful unused]
      rfl
    · rw [process here]
      exact recorded.exits other inside (others here occupied)
  · intro other inside occupied
    change _ = (if _ = k.nextPid + 1 then some k.currentTask.pid else
      fatherOf 1 k.history _ : Option (BitVec 32)).getD 0
    by_cases here : other = slot
    · rw [here, child, if_pos rfl]
      rfl
    · rw [process here, if_neg (table.fresh few inside (others here occupied))]
      exact recorded.fathers other inside (others here occupied)
  · intro pid used
    rw [count]
    by_cases new : pid = k.nextPid + 1
    · exact ⟨1 + (forks k + 1), by omega, Nat.le_refl _, new.trans newPid⟩
    · have earlier : ¬Unused 1 k.history pid := by
        refine fun unused => used ⟨unused.1, fun parent other inside => ?_⟩
        rcases List.mem_cons.mp inside with fork | inside
        · cases fork
          exact new rfl
        · exact unused.2 parent other inside
      obtain ⟨number, positive, bounded, same⟩ := recorded.known pid earlier
      exact ⟨number, positive, by omega, same⟩
  · exact fun pid slot code exit => recorded.places pid slot code (by simpa [forkInto] using exit)

theorem waitMatches_iff {k : Kernel S} (table : TableInvariant k) {pid : BitVec 32} {i : Nat}
    (inside : i ∈ slots) : waitMatches k pid i = true ↔
      k.occupied i = true ∧ (k.process i).father = (k.process k.active).pid ∧
        (pid = -1 ∨ pid = (k.process i).pid) := by
  simp only [waitMatches, Bool.and_eq_true, Bool.or_eq_true, decide_eq_true_eq,
    table.taskOf inside, table.currentTask, table.current]
  constructor
  · rintro ⟨⟨⟨occupied, _⟩, father⟩, chosen⟩
    exact ⟨occupied, father, chosen⟩
  · rintro ⟨occupied, father, chosen⟩
    refine ⟨⟨⟨occupied, ?_⟩, father⟩, chosen⟩
    rw [table.pointers i inside, if_pos occupied]
    rintro rfl
    exact table.ownFather father

theorem recorded_reap {k : Kernel S} (recorded : Recorded k) (table : TableInvariant k)
    (few : forks k < 2 ^ 31) {i : Nat} {pid : BitVec 32} (b : BitVec 32) (insideI : i ∈ slots)
    (child : waitMatches k pid i = true) (zombie : (k.taskOf i).state = .zombie) :
    Recorded (reapSlot k i b) := by
  obtain ⟨occupiedI, father, _⟩ := (waitMatches_iff table insideI).mp child
  have nonzero := Recorded.pid_nonzero table few table.activeSlot table.activeOccupied
  rw [table.taskOf insideI] at zombie
  have others {other : Nat} (occupied : (reapSlot k i b).occupied other = true) :
      k.occupied other = true := by
    by_cases here : other = i
    · rw [here]
      exact occupiedI
    · rw [← occupied]
      exact (update_of_ne here _ _).symm
  constructor
  · refine ⟨recorded.lawful, ?_, ?_, ?_⟩
    · rw [table.taskOf insideI, recorded.occupants i insideI, if_pos occupiedI]
    · have exits := recorded.exits i insideI occupiedI
      rw [if_pos zombie] at exits
      rw [table.taskOf insideI]
      exact exits
    · rw [table.taskOf insideI, table.currentTask]
      exact (recorded.father_iff insideI occupiedI nonzero).mp father
  · intro other inside
    change (if other = i then none else occupant 1 1 k.history other) = _
    by_cases here : other = i
    · rw [here, if_pos rfl]
      simp [reapSlot]
    · rw [if_neg here]
      simp only [reapSlot, update_of_ne here]
      exact recorded.occupants other inside
  · exact fun other inside occupied => recorded.exits other inside (others occupied)
  · exact fun other inside occupied => recorded.fathers other inside (others occupied)
  · intro pid used
    refine recorded.known pid fun unused => used ⟨unused.1, fun parent slot inside => ?_⟩
    rcases List.mem_cons.mp inside with fork | inside
    · cases fork
    · exact unused.2 parent slot inside
  · exact fun pid slot code exit => recorded.places pid slot code (by simpa [reapSlot] using exit)

theorem recorded_effect {k after : Kernel S} {nr b c : BitVec 32} (recorded : Recorded k)
    (table : TableInvariant k) (few : forks after < 2 ^ 31)
    (alive : (k.process k.active).state ≠ .zombie)
    (unblocked : nr.toNat = 1 → k.pending k.active = 0)
    (effect : TableEffect fileSystem k nr b c after) : Recorded after := by
  cases effect with
  | same same window => exact recorded.congr same.sameProcesses same.history
  | exit call code =>
      exact recorded_exited recorded table few alive
        (recordExit_exited fileSystem table code (unblocked call))
  | fork call free => exact recorded_fork recorded table free few alive
  | reap call inside child zombie => exact recorded_reap recorded table few b inside child zombie
  | exec call contexts same =>
      have kept := same.sameProcesses
      exact recorded.congr { kept with } same.history

theorem Recorded.setResult {k : Kernel S} (recorded : Recorded k) (slot : Nat)
    (result : BitVec 32) : Recorded (setResult k slot result) :=
  recorded.congr { (SameTable.refl k).sameProcesses with } rfl

theorem Recorded.finishCall {performed : BitVec 32 × Kernel S}
    (recorded : Recorded performed.2) : Recorded (finishCall performed) := by
  unfold SymphonyPlus.finishCall
  split
  · exact recorded.setResult _ _
  · exact recorded

theorem Recorded.activate {k : Kernel S} (recorded : Recorded k) (slot : Nat) :
    Recorded (activate k slot) := by
  obtain ⟨process, _, occupied, _, _, _, _, _, history⟩ := activate_table k slot
  refine recorded.congr ?_ history
  constructor
  · exact occupied
  all_goals
    intro slot
    rw [process]

theorem recorded_perform {k : Kernel S} (recorded : Recorded k) (table : TableInvariant k)
    (running : runnable k k.active = true) {nr a b c : BitVec 32}
    (few : forks (perform fileSystem k nr a b c).2 < 2 ^ 31) :
    Recorded (perform fileSystem k nr a b c).2 :=
  recorded_effect recorded table few (table.runningAlive running)
    (fun _ => table.runningUnblocked running) (perform_effect fileSystem k nr a b c)

theorem recorded_performPending {k : Kernel S} (recorded : Recorded k) (table : TableInvariant k)
    (pending : k.pending k.active ≠ 0)
    (few : forks (performPending fileSystem k k.active).2 < 2 ^ 31) :
    Recorded (performPending fileSystem k k.active).2 :=
  recorded_effect recorded table few (table.pendingAlive pending)
    (fun exit => absurd exit (table.pendingNotExit pending)) (perform_effect fileSystem k _ _ _ _)

/-- Every step keeps the table in agreement with the history. -/
theorem step_recorded {k after : Kernel S} (table : TableInvariant k) (few : forks after < 2 ^ 31)
    (recorded : Recorded k) (step : Step fileSystem k after) : Recorded after := by
  cases step with
  | @call window saved poll running done =>
      have ready := (entered_runnable k window saved poll).trans running
      rw [finishCall_forks] at few
      exact (recorded_perform (recorded.entered window saved poll)
        (tableInvariant_entered table window saved poll) ready few).finishCall
  | @block window saved poll running again call =>
      have ready := (entered_runnable k window saved poll).trans running
      have kept := tableInvariant_entered table window saved poll
      have before : forks (entered k window saved poll) < 2 ^ 31 := by
        rw [entered_forks]
        exact Nat.lt_of_le_of_lt (step_forks fileSystem (.block running again call)) few
      have same := (perform_again fileSystem kept before call again).1
      have performed := tableInvariant_perform kept ready few
      have rescheduled := blockActive_rescheduled performed.current (saved.regs 1) (saved.regs 2)
        (saved.regs 3) (saved.regs 4)
      refine (recorded_perform (recorded.entered window saved poll) kept ready few).congr
        (rescheduled.sameProcesses ?_ (by decide)) rescheduled.history
      rw [same.active, (same.process _).2.2.1]
      exact kept.runningAlive ready
  | @cancel window saved poll running marked =>
      have ready := (entered_runnable k window saved poll).trans running
      have kept := tableInvariant_entered table window saved poll
      refine Recorded.setResult (recorded_exited (recorded.entered window saved poll) kept ?_
        (kept.runningAlive ready) (exitInterrupted_dead kept ready)) _ 0
      exact few
  | poll poll =>
      have same := sameTable_pollIo k poll
      exact recorded.congr same.sameProcesses same.history
  | interrupt alive marked =>
      rw [table.taskOf table.activeSlot] at alive
      exact recorded_exited recorded table few alive (exitInterrupted_exited fileSystem table)
  | resume pending done =>
      have performed := tableInvariant_performPending fileSystem table few pending
      have rescheduled := resumeCurrent_rescheduled performed.current
        (performPending fileSystem k k.active).1
      rw [performPending_active] at rescheduled
      refine (recorded_performPending recorded table pending few).congr
        (rescheduled.sameProcesses ?_ (by decide)) rescheduled.history
      rw [performPending_active, (performPending_process fileSystem table pending).2]
      exact table.pendingAlive pending
  | remain pending again => exact recorded_performPending recorded table pending few
  | activate inside occupied => exact recorded.activate _

end ProcessRecords

end SymphonyPlus
