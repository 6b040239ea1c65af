import SymphonyPlus.ProcessTable
import Mathlib.Logic.Relation

/-!
The steps one entry of the dispatcher is made of, the runs made of entries, and the
invariant of the process table over all runs.
-/

namespace SymphonyPlus

open ByteMemory Function Relation

section DispatchRuns

variable {S : Type} (fileSystem : FileSystem S)

/-- The result of a completed call; `exec` has set up the context itself. -/
def finishCall (performed : BitVec 32 × Kernel S) : Kernel S :=
  if performed.1 ≠ execSentinel then setResult performed.2 performed.2.active performed.1
  else performed.2

def performPending (k : Kernel S) (slot : Nat) : BitVec 32 × Kernel S :=
  perform fileSystem k (k.pending slot) (k.arg1 slot) (k.arg2 slot) (k.arg3 slot)

def entered (k : Kernel S) (window : Memory) (saved : Context) (poll : Poll) : Kernel S :=
  pollIo (saveContext { k with window := window } saved) poll

def enter (k : Kernel S) (window : Memory) (saved : Context) (poll : Poll) : Kernel S :=
  callActive fileSystem (entered k window saved poll)
    (saved.regs 1) (saved.regs 2) (saved.regs 3) (saved.regs 4)

def ownCall (k : Kernel S) (saved : Context) : BitVec 32 × Kernel S :=
  perform fileSystem k (saved.regs 1) (saved.regs 2) (saved.regs 3) (saved.regs 4)

/-- The steps of a run. In the first three the active process has run in its window and enters. -/
inductive Step : Kernel S → Kernel S → Prop
  | call {k : Kernel S} {window : Memory} {saved : Context} {poll : Poll}
      (running : runnable k k.active = true)
      (done : ¬((ownCall fileSystem (entered k window saved poll) saved).1 = -EAGAIN ∧
        (saved.regs 1 = 3 ∨ saved.regs 1 = 7))) :
      Step k (finishCall (ownCall fileSystem (entered k window saved poll) saved))
  | block {k : Kernel S} {window : Memory} {saved : Context} {poll : Poll}
      (running : runnable k k.active = true)
      (again : (ownCall fileSystem (entered k window saved poll) saved).1 = -EAGAIN)
      (call : saved.regs 1 = 3 ∨ saved.regs 1 = 7) :
      Step k (blockActive (ownCall fileSystem (entered k window saved poll) saved).2
        (saved.regs 1) (saved.regs 2) (saved.regs 3) (saved.regs 4))
  | cancel {k : Kernel S} {window : Memory} {saved : Context} {poll : Poll}
      (running : runnable k k.active = true)
      (marked : (entered k window saved poll).interrupted
        (entered k window saved poll).active = true) :
      Step k (setResult (exitInterrupted fileSystem (entered k window saved poll))
        (entered k window saved poll).active 0)
  | poll (k : Kernel S) (poll : Poll) : Step k (pollIo k poll)
  | interrupt {k : Kernel S} (alive : (k.taskOf k.active).state ≠ .zombie)
      (marked : k.interrupted k.active = true) :
      Step k (exitInterrupted fileSystem { k with pending := update k.pending k.active 0 })
  | resume {k : Kernel S} (pending : k.pending k.active ≠ 0)
      (done : (performPending fileSystem k k.active).1 ≠ -EAGAIN) :
      Step k (resumeCurrent (performPending fileSystem k k.active).2 k.active
        (performPending fileSystem k k.active).1)
  | remain {k : Kernel S} (pending : k.pending k.active ≠ 0)
      (again : (performPending fileSystem k k.active).1 = -EAGAIN) :
      Step k (performPending fileSystem k k.active).2
  | activate {k : Kernel S} {slot : Nat} (inside : slot ∈ slots)
      (occupied : k.occupied slot = true) : Step k (activate k slot)

abbrev Steps : Kernel S → Kernel S → Prop := ReflTransGen (Step fileSystem)

theorem finishCall_forks (performed : BitVec 32 × Kernel S) :
    forks (finishCall performed) = forks performed.2 := by
  unfold finishCall
  split <;> rfl

theorem entered_changes (k : Kernel S) (window : Memory) (saved : Context) (poll : Poll) :
    ∃ terminal interrupted cancelRead clock,
      entered k window saved poll = { saveContext { k with window := window } saved with
        terminal := terminal, interrupted := interrupted, cancelRead := cancelRead,
        clock := clock } ∧
      ∀ slot, slot ∉ slots →
        interrupted slot = k.interrupted slot ∧ cancelRead slot = k.cancelRead slot :=
  pollIo_changes _ poll

theorem entered_forks (k : Kernel S) (window : Memory) (saved : Context) (poll : Poll) :
    forks (entered k window saved poll) = forks k := by
  obtain ⟨terminal, interrupted, cancelRead, clock, same, _⟩ :=
    entered_changes k window saved poll
  rw [same]
  exact List.countP_cons_of_neg (fun fork => by cases fork)

theorem tableInvariant_entered {k : Kernel S} (table : TableInvariant k) (window : Memory)
    (saved : Context) (poll : Poll) : TableInvariant (entered k window saved poll) := by
  have count := entered_forks k window saved poll
  obtain ⟨terminal, interrupted, cancelRead, clock, same, _⟩ :=
    entered_changes k window saved poll
  rw [same] at count ⊢
  exact { table with
    nextPid := by
      rw [count]
      exact table.nextPid
    pids := by
      rw [count]
      exact table.pids }

theorem entered_runnable (k : Kernel S) (window : Memory) (saved : Context) (poll : Poll) :
    runnable (entered k window saved poll) (entered k window saved poll).active =
      runnable k k.active := by
  obtain ⟨terminal, interrupted, cancelRead, clock, same, _⟩ :=
    entered_changes k window saved poll
  rw [same]
  rfl

theorem ownCall_effect (k : Kernel S) (saved : Context) :
    TableEffect fileSystem k (saved.regs 1) (saved.regs 3) (saved.regs 4)
      (ownCall fileSystem k saved).2 :=
  perform_effect fileSystem k _ _ _ _

theorem ownCall_active (k : Kernel S) (saved : Context) :
    (ownCall fileSystem k saved).2.active = k.active :=
  effect_active fileSystem (ownCall_effect fileSystem k saved)

theorem performPending_active (k : Kernel S) (slot : Nat) :
    (performPending fileSystem k slot).2.active = k.active :=
  effect_active fileSystem (perform_effect fileSystem k _ _ _ _)

theorem step_forks {k after : Kernel S} (step : Step fileSystem k after) :
    forks k ≤ forks after := by
  have performed (k : Kernel S) (nr a b c : BitVec 32) :
      forks k ≤ forks (perform fileSystem k nr a b c).2 :=
    effect_forks fileSystem (perform_effect fileSystem k nr a b c)
  cases step with
  | call running done =>
      rw [finishCall_forks, ← entered_forks]
      exact performed _ _ _ _ _
  | block running again call =>
      rw [← entered_forks]
      exact performed _ _ _ _ _
  | cancel running marked =>
      rw [← entered_forks]
      exact Nat.le_refl _
  | poll poll => exact Nat.le_of_eq (sameTable_pollIo k poll).forks.symm
  | interrupt alive marked => exact Nat.le_refl _
  | resume pending done => exact performed _ _ _ _ _
  | remain pending again => exact performed _ _ _ _ _
  | activate inside occupied =>
      unfold SymphonyPlus.activate
      split <;> exact Nat.le_refl _

variable {fileSystem}

theorem steps_forks {k after : Kernel S} (steps : Steps fileSystem k after) :
    forks k ≤ forks after := by
  induction steps with
  | refl => exact Nat.le_refl _
  | tail _ step ih => exact Nat.le_trans ih (step_forks fileSystem step)

theorem TableInvariant.running {k : Kernel S} (table : TableInvariant k)
    (running : runnable k k.active = true) : (k.process k.active).state = .running := by
  simp only [runnable, Bool.and_eq_true, decide_eq_true_eq] at running
  rw [← table.taskOf table.activeSlot]
  exact running.2

theorem TableInvariant.runningAlive {k : Kernel S} (table : TableInvariant k)
    (running : runnable k k.active = true) : (k.process k.active).state ≠ .zombie := by
  rw [table.running running]
  decide

theorem TableInvariant.runningUnblocked {k : Kernel S} (table : TableInvariant k)
    (running : runnable k k.active = true) : k.pending k.active = 0 := by
  by_contra blocked
  have state := ((table.blocked k.active table.activeSlot).mp blocked).2
  rw [table.running running] at state
  cases state

theorem TableInvariant.pendingAlive {k : Kernel S} (table : TableInvariant k)
    (pending : k.pending k.active ≠ 0) : (k.process k.active).state ≠ .zombie := by
  rw [((table.blocked k.active table.activeSlot).mp pending).2]
  decide

theorem TableInvariant.pendingNotExit {k : Kernel S} (table : TableInvariant k)
    (pending : k.pending k.active ≠ 0) : (k.pending k.active).toNat ≠ 1 := by
  rcases (table.calls k.active table.activeSlot).resolve_left pending with three | seven
  · rw [three]
    decide
  · rw [seven]
    decide

theorem TableInvariant.finishCall {performed : BitVec 32 × Kernel S}
    (table : TableInvariant performed.2) : TableInvariant (finishCall performed) := by
  unfold SymphonyPlus.finishCall
  split
  · exact { table with }
  · exact table

theorem tableInvariant_perform {k : Kernel S} (table : TableInvariant k)
    (running : runnable k k.active = true) {nr a b c : BitVec 32}
    (few : forks (perform fileSystem k nr a b c).2 < 2 ^ 31) :
    TableInvariant (perform fileSystem k nr a b c).2 :=
  tableInvariant_effect fileSystem table few (table.runningAlive running)
    (fun _ => table.runningUnblocked running) (perform_effect fileSystem k _ _ _ _)

variable (fileSystem) in
theorem tableInvariant_performPending {k : Kernel S} (table : TableInvariant k)
    (few : forks (performPending fileSystem k k.active).2 < 2 ^ 31)
    (pending : k.pending k.active ≠ 0) :
    TableInvariant (performPending fileSystem k k.active).2 :=
  tableInvariant_effect fileSystem table few (table.pendingAlive pending)
    (fun exit => absurd exit (table.pendingNotExit pending)) (perform_effect fileSystem k _ _ _ _)

variable (fileSystem) in
theorem performPending_process {k : Kernel S} (table : TableInvariant k)
    (pending : k.pending k.active ≠ 0) :
    ((performPending fileSystem k k.active).2.process k.active).pid = (k.process k.active).pid ∧
      ((performPending fileSystem k k.active).2.process k.active).state =
        (k.process k.active).state := by
  have kept := effect_process fileSystem table
    (fun exit => absurd exit (table.pendingNotExit pending))
    (perform_effect fileSystem k (k.pending k.active) (k.arg1 k.active) (k.arg2 k.active)
      (k.arg3 k.active))
  exact ⟨kept.1, kept.2 (table.pendingNotExit pending)⟩

/-- An interrupted process that runs has no call pending, so clearing it does nothing. -/
theorem exitInterrupted_running {k : Kernel S} (table : TableInvariant k)
    (running : runnable k k.active = true) :
    exitInterrupted fileSystem { k with pending := update k.pending k.active 0 } =
      exitInterrupted fileSystem k := by
  rw [← table.runningUnblocked running, update_eq_self]

/-- Every step keeps the invariant of the table. -/
theorem step_table {k after : Kernel S} (table : TableInvariant k) (few : forks after < 2 ^ 31)
    (step : Step fileSystem k after) : TableInvariant after := by
  cases step with
  | @call window saved poll running done =>
      have ready := (entered_runnable k window saved poll).trans running
      rw [finishCall_forks] at few
      exact (tableInvariant_perform (tableInvariant_entered table window saved poll) ready
        few).finishCall
  | @block window saved poll running again call =>
      have ready := (entered_runnable k window saved poll).trans running
      have before : forks (entered k window saved poll) < 2 ^ 31 := by
        rw [entered_forks]
        exact Nat.lt_of_le_of_lt (step_forks fileSystem (.block running again call)) few
      have kept := tableInvariant_entered table window saved poll
      exact tableInvariant_block (tableInvariant_perform kept ready few) call
        (perform_again fileSystem kept before call again).2
  | @cancel window saved poll running marked =>
      have ready := (entered_runnable k window saved poll).trans running
      have kept := tableInvariant_entered table window saved poll
      rw [← exitInterrupted_running kept ready] at few ⊢
      have exit := tableInvariant_exited kept few (exitInterrupted_exited fileSystem kept)
      exact { exit with }
  | poll poll => exact tableInvariant_poll table poll
  | interrupt alive marked => exact tableInvariant_exited table few (exitInterrupted_exited fileSystem table)
  | resume pending done =>
      have kept := tableInvariant_performPending fileSystem table few pending
      have resumed := tableInvariant_resume kept (performPending fileSystem k k.active).1
      rw [performPending_active] at resumed
      exact resumed
  | remain pending again => exact tableInvariant_performPending fileSystem table few pending
  | activate inside occupied => exact tableInvariant_activate table inside occupied

/-- The rule for invariants of runs that build on the invariant of the table. -/
theorem steps_invariant {first k : Kernel S} (invariant : Kernel S → Prop)
    (table : TableInvariant first) (start : invariant first)
    (keeps : ∀ before after, TableInvariant before → TableInvariant after → forks after < 2 ^ 31 →
      invariant before → Step fileSystem before after → invariant after)
    (steps : Steps fileSystem first k) (few : forks k < 2 ^ 31) :
    TableInvariant k ∧ invariant k := by
  induction steps with
  | refl => exact ⟨table, start⟩
  | tail _ step ih =>
      obtain ⟨before, held⟩ := ih (Nat.lt_of_le_of_lt (step_forks fileSystem step) few)
      have after := step_table before few step
      exact ⟨after, keeps _ _ before after few held step⟩

theorem steps_table {first k : Kernel S} (table : TableInvariant first)
    (steps : Steps fileSystem first k) (few : forks k < 2 ^ 31) : TableInvariant k :=
  (steps_invariant (fun _ => True) table trivial (fun _ _ _ _ _ _ _ => trivial) steps few).1

/-! The dispatcher takes such steps only. -/

theorem mem_slots {slot : Nat} : slot ∈ slots ↔ 1 ≤ slot ∧ slot ≤ 8 := by
  simp only [slots, List.mem_cons, List.not_mem_nil, or_false]
  omega

@[simp] theorem activate_active (k : Kernel S) (slot : Nat) : (activate k slot).active = slot := by
  unfold activate
  split
  · rename_i same
    exact same.symm
  · rfl

/-- Only the window, the snapshots and the choice of the current task change. -/
theorem activate_table (k : Kernel S) (slot : Nat) :
    (activate k slot).process = k.process ∧ (activate k slot).task = k.task ∧
      (activate k slot).occupied = k.occupied ∧ (activate k slot).pending = k.pending ∧
      (activate k slot).arg1 = k.arg1 ∧ (activate k slot).arg2 = k.arg2 ∧
      (activate k slot).arg3 = k.arg3 ∧ (activate k slot).contexts = k.contexts ∧
      (activate k slot).history = k.history := by
  unfold activate
  split <;> refine ⟨rfl, rfl, rfl, rfl, rfl, rfl, rfl, rfl, rfl⟩

theorem activate_interrupted (k : Kernel S) (slot : Nat) :
    (activate k slot).interrupted = k.interrupted := by
  unfold activate
  split <;> rfl

theorem activate_taskOf (k : Kernel S) (slot other : Nat) :
    (activate k slot).taskOf other = k.taskOf other := by
  rw [Kernel.taskOf, (activate_table k slot).1, (activate_table k slot).2.1]
  rfl

theorem activate_runnable (k : Kernel S) (slot other : Nat) :
    runnable (activate k slot) other = runnable k other := by
  rw [runnable, activate_taskOf, (activate_table k slot).2.2.1]
  rfl

theorem callActive_forks (k : Kernel S) (nr a b c : BitVec 32) :
    forks k ≤ forks (callActive fileSystem k nr a b c) := by
  have performed : forks k ≤ forks (if k.interrupted k.active ∧ !k.deferred k.active then
      (0, exitInterrupted fileSystem k) else perform fileSystem k nr a b c).2 := by
    split
    · exact Nat.le_refl _
    · exact effect_forks fileSystem (perform_effect fileSystem k nr a b c)
  unfold callActive
  generalize (if k.interrupted k.active = true ∧ (!k.deferred k.active) = true then
    ((0 : BitVec 32), exitInterrupted fileSystem k) else perform fileSystem k nr a b c) = outcome
    at performed ⊢
  dsimp only
  split
  · exact performed
  · split
    · exact performed
    · exact performed

theorem exitInterrupted_dead {k : Kernel S} (table : TableInvariant k)
    (running : runnable k k.active = true) : Exited k (exitInterrupted fileSystem k) none := by
  rw [← exitInterrupted_running table running]
  exact exitInterrupted_exited fileSystem table

/-- An entry, up to its loop, is one step. -/
theorem enter_step {k : Kernel S} (running : runnable k k.active = true) (window : Memory)
    (saved : Context) (poll : Poll) :
    Step fileSystem k (enter fileSystem k window saved poll) := by
  unfold enter callActive
  by_cases interrupted : (entered k window saved poll).interrupted
      (entered k window saved poll).active = true ∧
      (!(entered k window saved poll).deferred (entered k window saved poll).active) = true
  · rw [if_pos interrupted]
    exact .cancel running interrupted.1
  · rw [if_neg interrupted]
    dsimp only
    split
    · rename_i blocked
      exact .block running blocked.1 blocked.2
    · rename_i done
      exact .call running done

variable (fileSystem) in
theorem cleanupSlot_steps (k : Kernel S) {slot : Nat} (inside : slot ∈ slots) :
    Steps fileSystem k (cleanupSlot fileSystem k slot) := by
  unfold cleanupSlot
  split
  · rename_i chosen
    have alive : ((activate k slot).taskOf (activate k slot).active).state ≠ .zombie := by
      rw [activate_active, activate_taskOf]
      exact chosen.2.2.2
    have cleared : update (activate k slot).pending slot 0 =
        update (activate k slot).pending (activate k slot).active 0 := by rw [activate_active]
    dsimp only
    rw [cleared]
    refine (ReflTransGen.single (.activate inside chosen.1)).tail (.interrupt alive ?_)
    rw [activate_active, activate_interrupted]
    exact chosen.2.1
  · exact .refl

variable (fileSystem) in
theorem retrySlot_steps (k : Kernel S) {slot : Nat} (inside : slot ∈ slots) :
    Steps fileSystem k (retrySlot fileSystem k slot) := by
  unfold retrySlot
  split
  · rename_i ready
    simp only [retryReady, Bool.and_eq_true, decide_eq_true_eq] at ready
    have pending : (activate k slot).pending (activate k slot).active ≠ 0 := by
      rw [activate_active, (activate_table k slot).2.2.2.1]
      exact ready.1.1.2
    refine (ReflTransGen.single (.activate inside ready.1.1.1)).tail ?_
    have same : perform fileSystem (activate k slot) ((activate k slot).pending slot)
        ((activate k slot).arg1 slot) ((activate k slot).arg2 slot) ((activate k slot).arg3 slot) =
        performPending fileSystem (activate k slot) (activate k slot).active := by
      rw [activate_active]
      rfl
    dsimp only
    rw [same]
    split
    · rename_i done
      have resumed := Step.resume pending done
      rw [activate_active] at resumed ⊢
      exact resumed
    · rename_i again
      exact .remain pending (not_not.mp again)
  · exact .refl

theorem foldl_steps {serve : Kernel S → Nat → Kernel S}
    (each : ∀ k slot, slot ∈ slots → Steps fileSystem k (serve k slot)) (indices : List Nat)
    (inside : ∀ slot ∈ indices, slot ∈ slots) (k : Kernel S) :
    Steps fileSystem k (indices.foldl serve k) := by
  induction indices generalizing k with
  | nil => exact .refl
  | cons slot indices ih =>
      exact (each k slot (inside slot List.mem_cons_self)).trans
        (ih (fun other rest => inside other (List.mem_cons_of_mem _ rest)) (serve k slot))

theorem servePass_steps (k : Kernel S) : Steps fileSystem k (servePass fileSystem k) :=
  (foldl_steps (fun k _ => cleanupSlot_steps fileSystem k) slots (fun _ inside => inside) k).trans
    (foldl_steps (fun k _ => retrySlot_steps fileSystem k) slots (fun _ inside => inside) _)

theorem chooseSlot_some {k : Kernel S} {nr : BitVec 32} {slot : Nat}
    (chosen : chooseSlot k nr = some slot) :
    runnable k slot = true ∧ (slot = k.active ∨ slot ∈ slots) := by
  unfold chooseSlot at chosen
  split at chosen
  · rename_i stays
    cases chosen
    exact ⟨stays.2, Or.inl rfl⟩
  · refine ⟨List.find?_some chosen, Or.inr ?_⟩
    obtain ⟨index, inside, rfl⟩ := List.mem_map.mp (List.mem_of_find?_eq_some chosen)
    rw [mem_slots]
    omega

theorem dispatchLoop_some {nr : BitVec 32} {polls : List Poll} {k after : Kernel S} {chosen : Nat}
    (returned : dispatchLoop fileSystem nr polls k = some (chosen, after)) :
    ∃ start, Steps fileSystem k start ∧
      chooseSlot (servePass fileSystem start) nr = some chosen ∧
      after = activate (servePass fileSystem start) chosen := by
  induction polls generalizing k with
  | nil =>
      unfold dispatchLoop at returned
      dsimp only at returned
      split at returned
      · rename_i slot found
        cases returned
        exact ⟨k, .refl, found, rfl⟩
      · cases returned
  | cons poll polls ih =>
      unfold dispatchLoop at returned
      dsimp only at returned
      split at returned
      · rename_i slot found
        cases returned
        exact ⟨k, .refl, found, rfl⟩
      · obtain ⟨start, steps, found, same⟩ := ih returned
        exact ⟨start, ((servePass_steps k).tail (.poll _ poll)).trans steps, found, same⟩

/-! Runs. -/

variable (fileSystem)

/-- The states in which the dispatcher returns, with the context it returns, from `first` on.
Between two returns the process that runs may change all of its window and registers. -/
inductive Run (first : Kernel S) : Nat → Kernel S → Prop
  | boot : Run first 1 first
  | entry {slot chosen : Nat} {k after : Kernel S} (window : Memory) (saved : Context)
      (poll : Poll) (polls : List Poll) (run : Run first slot k)
      (returned : dispatch fileSystem { k with window := window } saved poll polls =
        some (chosen, after)) : Run first chosen after

variable {fileSystem}

theorem enter_forks (k : Kernel S) (window : Memory) (saved : Context) (poll : Poll) :
    forks k ≤ forks (enter fileSystem k window saved poll) := by
  rw [← entered_forks k window saved poll]
  exact callActive_forks _ _ _ _ _

/-- A returned state is the first, or the last pass of an entry led to it. -/
theorem run_steps {first : Kernel S} (table : TableInvariant first)
    (start : runnable first first.active = true) (active : first.active = 1) {slot : Nat}
    {k : Kernel S} (run : Run fileSystem first slot k) (few : forks k < 2 ^ 31) :
    Steps fileSystem first k ∧ slot = k.active ∧ runnable k k.active = true ∧
      (k = first ∨ ∃ before, Steps fileSystem first before ∧
        k = activate (servePass fileSystem before) slot) := by
  induction run with
  | boot => exact ⟨.refl, active.symm, start, Or.inl rfl⟩
  | @entry slot chosen k after window saved poll polls run returned ih =>
      obtain ⟨before, steps, found, rfl⟩ := dispatchLoop_some returned
      have activated : forks (activate (servePass fileSystem before) chosen) =
          forks (servePass fileSystem before) := by
        rw [forks, (activate_table _ chosen).2.2.2.2.2.2.2.2]
        rfl
      have earlier : forks k ≤ forks (servePass fileSystem before) :=
        Nat.le_trans (enter_forks k window saved poll)
          (Nat.le_trans (steps_forks steps) (steps_forks (servePass_steps before)))
      rw [activated] at few
      obtain ⟨reached, same, running, _⟩ := ih (Nat.lt_of_le_of_lt earlier few)
      have passed : Steps fileSystem first before :=
        (reached.tail (enter_step running window saved poll)).trans steps
      have throughout := passed.trans (servePass_steps before)
      obtain ⟨runs, inside⟩ := chooseSlot_some found
      have placed : chosen ∈ slots := by
        rcases inside with stays | inside
        · rw [stays]
          exact (steps_table table throughout few).activeSlot
        · exact inside
      have occupied : (servePass fileSystem before).occupied chosen = true := by
        simp only [runnable, Bool.and_eq_true] at runs
        exact runs.1
      refine ⟨throughout.tail (.activate placed occupied), (activate_active _ chosen).symm, ?_,
        Or.inr ⟨before, passed, rfl⟩⟩
      rw [activate_active, activate_runnable]
      exact runs

/-! Slots outside the table. -/

structure SameSlot (before after : Kernel S) (slot : Nat) : Prop where
  process : after.process slot = before.process slot
  task : after.task slot = before.task slot
  contexts : after.contexts slot = before.contexts slot
  occupied : after.occupied slot = before.occupied slot
  pending : after.pending slot = before.pending slot
  arg1 : after.arg1 slot = before.arg1 slot
  arg2 : after.arg2 slot = before.arg2 slot
  arg3 : after.arg3 slot = before.arg3 slot
  interrupted : after.interrupted slot = before.interrupted slot
  deferred : after.deferred slot = before.deferred slot
  cancelRead : after.cancelRead slot = before.cancelRead slot
  snapshots : after.snapshots slot = before.snapshots slot

theorem SameSlot.refl (k : Kernel S) (slot : Nat) : SameSlot k k slot := by
  constructor <;> rfl

theorem SameSlot.trans {first second third : Kernel S} {slot : Nat}
    (left : SameSlot first second slot) (right : SameSlot second third slot) :
    SameSlot first third slot where
  process := right.process.trans left.process
  task := right.task.trans left.task
  contexts := right.contexts.trans left.contexts
  occupied := right.occupied.trans left.occupied
  pending := right.pending.trans left.pending
  arg1 := right.arg1.trans left.arg1
  arg2 := right.arg2.trans left.arg2
  arg3 := right.arg3.trans left.arg3
  interrupted := right.interrupted.trans left.interrupted
  deferred := right.deferred.trans left.deferred
  cancelRead := right.cancelRead.trans left.cancelRead
  snapshots := right.snapshots.trans left.snapshots

section Outside

variable {k : Kernel S} {slot : Nat}

theorem TableInvariant.outside (table : TableInvariant k) (outside : slot ∉ slots) :
    slot ≠ k.active :=
  fun same => outside (same ▸ table.activeSlot)

theorem SameTable.outside {after : Kernel S} (same : SameTable k after)
    (table : TableInvariant k) (outside : slot ∉ slots) : SameSlot k after slot := by
  have other := table.outside outside
  obtain ⟨interrupted, deferred, cancelRead⟩ := same.marks slot outside other
  constructor
  case process => exact same.others slot (table.current ▸ other)
  case task => rw [same.task]
  case contexts => rw [same.contexts]
  case occupied => rw [same.occupied]
  case pending => rw [same.pending]
  case arg1 => rw [same.arg1]
  case arg2 => rw [same.arg2]
  case arg3 => rw [same.arg3]
  case interrupted => exact interrupted
  case deferred => exact deferred
  case cancelRead => exact cancelRead
  case snapshots => rw [same.snapshots]

theorem Exited.outside {after : Kernel S} {code : Option (BitVec 32)}
    (exited : Exited k after code) (table : TableInvariant k) (outside : slot ∉ slots) :
    SameSlot k after slot := by
  have other := table.outside outside
  constructor
  case process =>
    rw [exited.others slot other]
    exact if_neg fun adopted => outside adopted.1
  case task => rw [exited.task]
  case contexts => rw [exited.contexts]
  case occupied => rw [exited.occupied]
  case pending => rw [exited.pending, update_of_ne other]
  case arg1 => rw [exited.arg1]
  case arg2 => rw [exited.arg2]
  case arg3 => rw [exited.arg3]
  case interrupted => rw [exited.interrupted]
  case deferred => rw [exited.deferred]
  case cancelRead => rw [exited.cancelRead]
  case snapshots => rw [exited.snapshots]

theorem effect_outside {nr b c : BitVec 32} {after : Kernel S} (table : TableInvariant k)
    (unblocked : nr.toNat = 1 → k.pending k.active = 0)
    (effect : TableEffect fileSystem k nr b c after) (outside : slot ∉ slots) :
    SameSlot k after slot := by
  cases effect with
  | same same window => exact same.outside table outside
  | exit call code =>
      exact (recordExit_exited fileSystem table code (unblocked call)).outside table outside
  | fork call free =>
      have other : slot ≠ _ := fun same => outside (same ▸ (freeSlot_some free).1)
      constructor <;> simp only [forkInto, update_of_ne other]
  | reap call inside child zombie =>
      have other : slot ≠ _ := fun same => outside (same ▸ inside)
      constructor <;> simp only [reapSlot, update_of_ne other]
  | exec call contexts same =>
      exact { same.outside table outside with contexts := contexts slot (table.outside outside) }

theorem blockActive_outside (table : TableInvariant k) (outside : slot ∉ slots)
    (nr a b c : BitVec 32) : SameSlot k (blockActive k nr a b c) slot := by
  have other := table.outside outside
  have process := table.current ▸ other
  constructor <;> simp only [blockActive, Kernel.setCurrent, update_of_ne other,
    update_of_ne process]

theorem resumeCurrent_outside (table : TableInvariant k) (outside : slot ∉ slots)
    (result : BitVec 32) : SameSlot k (resumeCurrent k k.active result) slot := by
  have other := table.outside outside
  have process := table.current ▸ other
  constructor <;> simp only [resumeCurrent, setResult, Kernel.setCurrent, update_of_ne other,
    update_of_ne process]

theorem setResult_outside {i : Nat} (outside : slot ≠ i) (result : BitVec 32) :
    SameSlot k (setResult k i result) slot :=
  { SameSlot.refl k slot with contexts := update_of_ne outside _ _ }

theorem activate_outside (table : TableInvariant k) (outside : slot ∉ slots) (chosen : Nat) :
    SameSlot k (activate k chosen) slot := by
  unfold SymphonyPlus.activate
  split
  · exact { SameSlot.refl k slot with }
  · refine { SameSlot.refl k slot with snapshots := ?_ }
    dsimp only
    split
    · exact update_of_ne (table.outside outside) _ _
    · rfl

theorem entered_outside (table : TableInvariant k) (outside : slot ∉ slots) (window : Memory)
    (saved : Context) (poll : Poll) : SameSlot k (entered k window saved poll) slot := by
  obtain ⟨terminal, interrupted, cancelRead, clock, same, kept⟩ :=
    entered_changes k window saved poll
  rw [same]
  exact { SameSlot.refl k slot with
    contexts := update_of_ne (table.outside outside) _ _
    interrupted := (kept slot outside).1
    cancelRead := (kept slot outside).2 }

theorem perform_outside (table : TableInvariant k) (running : runnable k k.active = true)
    (outside : slot ∉ slots) (nr a b c : BitVec 32) :
    SameSlot k (perform fileSystem k nr a b c).2 slot :=
  effect_outside table (fun _ => table.runningUnblocked running)
    (perform_effect fileSystem k nr a b c) outside

/-- No step writes a slot outside the table. -/
theorem step_outside {after : Kernel S} (table : TableInvariant k) (few : forks after < 2 ^ 31)
    (outside : slot ∉ slots) (step : Step fileSystem k after) : SameSlot k after slot := by
  cases step with
  | @call window saved poll running done =>
      have kept := tableInvariant_entered table window saved poll
      have ready := (entered_runnable k window saved poll).trans running
      have performed : SameSlot k (ownCall fileSystem (entered k window saved poll) saved).2 slot :=
        (entered_outside table outside window saved poll).trans
          (perform_outside kept ready outside _ _ _ _)
      unfold SymphonyPlus.finishCall
      split
      · refine performed.trans (setResult_outside ?_ _)
        rw [ownCall_active]
        exact kept.outside outside
      · exact performed
  | @block window saved poll running again call =>
      have kept := tableInvariant_entered table window saved poll
      have ready := (entered_runnable k window saved poll).trans running
      exact ((entered_outside table outside window saved poll).trans
        (perform_outside kept ready outside _ _ _ _)).trans
        (blockActive_outside (tableInvariant_perform kept ready few) outside _ _ _ _)
  | @cancel window saved poll running marked =>
      have kept := tableInvariant_entered table window saved poll
      have ready := (entered_runnable k window saved poll).trans running
      exact ((entered_outside table outside window saved poll).trans
        ((exitInterrupted_dead kept ready).outside kept outside)).trans
        (setResult_outside (kept.outside outside) 0)
  | poll poll => exact (sameTable_pollIo k poll).outside table outside
  | interrupt alive marked => exact (exitInterrupted_exited fileSystem table).outside table outside
  | resume pending done =>
      have performed : SameSlot k (performPending fileSystem k k.active).2 slot :=
        effect_outside table (fun exit => absurd exit (table.pendingNotExit pending))
          (perform_effect fileSystem k _ _ _ _) outside
      have resumed := resumeCurrent_outside
        (tableInvariant_performPending fileSystem table few pending) outside
        (performPending fileSystem k k.active).1
      rw [performPending_active] at resumed
      exact performed.trans resumed
  | remain pending again =>
      exact effect_outside table (fun exit => absurd exit (table.pendingNotExit pending))
        (perform_effect fileSystem k _ _ _ _) outside
  | activate inside occupied => exact activate_outside table outside _

end Outside

theorem spBoot_table {fs : S} {files : Files} {window : Memory} {snapshots : Nat → Memory}
    {first : Kernel S} (boot : spBoot fileSystem fs files window snapshots = some first) :
    TableInvariant first ∧ runnable first first.active = true ∧ first.active = 1 := by
  unfold spBoot at boot
  dsimp only at boot
  split at boot
  · cases boot
  · cases boot
    refine ⟨?_, rfl, rfl⟩
    constructor
    case pointers =>
      intro slot inside
      by_cases one : slot = 1
      · rw [one]
        rfl
      · simp [one]
    case activeSlot =>
      change 1 ∈ slots
      decide
    case pids =>
      intro slot inside occupied
      rw [decide_eq_true_eq] at occupied
      rw [occupied]
      exact ⟨1, Nat.le_refl 1, Nat.le_refl 1, rfl⟩
    case distinct =>
      intro i insideI j insideJ occupiedI occupiedJ equal
      rw [decide_eq_true_eq] at occupiedI occupiedJ
      rw [occupiedI, occupiedJ]
    case fathers =>
      intro slot inside occupied
      rw [decide_eq_true_eq] at occupied
      rw [occupied]
      refine ⟨?_, fun _ => rfl⟩
      change (0 : BitVec 32) ≠ 1
      decide
    case blocked =>
      intro slot inside
      refine iff_of_false (fun pending => pending rfl) ?_
      rintro ⟨occupied, state⟩
      rw [decide_eq_true_eq] at occupied
      rw [occupied] at state
      cases state
    case calls => exact fun slot inside => Or.inl rfl
    case waits =>
      intro slot inside waiting
      cases waiting
    case zombies =>
      intro slot inside occupied zombie
      rw [decide_eq_true_eq] at occupied
      rw [occupied] at zombie
      cases zombie
    all_goals rfl

/-- In every returned state: the eight slots are consistent, the returned context is that of the
running active process, and nothing outside the slots has been written since boot. -/
theorem process_table_invariant {fs : S} {files : Files} {window : Memory}
    {snapshots : Nat → Memory} {first k : Kernel S} {chosen : Nat}
    (boot : spBoot fileSystem fs files window snapshots = some first)
    (run : Run fileSystem first chosen k) (few : forks k < 2 ^ 31) :
    (∀ slot ∈ slots, k.occupied slot = true ↔ k.task slot ≠ none) ∧
    (∀ i ∈ slots, ∀ j ∈ slots, k.occupied i = true → k.occupied j = true → i ≠ j →
      (k.taskOf i).pid ≠ (k.taskOf j).pid) ∧
    (∀ slot ∈ slots, k.pending slot ≠ 0 ↔
      k.occupied slot = true ∧ (k.taskOf slot).state = .interruptible) ∧
    (∀ slot ∈ slots, k.pending slot ≠ 0 → k.pending slot = 3 ∨ k.pending slot = 7) ∧
    (∀ slot ∈ slots, k.occupied slot = true → (k.taskOf slot).state = .zombie →
      k.pending slot = 0 ∧ NoFiles (k.taskOf slot).files) ∧
    (chosen = k.active ∧ k.active ∈ slots ∧ k.occupied k.active = true ∧
      (k.taskOf k.active).state = .running ∧ k.task k.active = some k.current) ∧
    ∀ slot, 8 < slot → SameSlot first k slot := by
  obtain ⟨table, start, active⟩ := spBoot_table boot
  obtain ⟨steps, same, running, _⟩ := run_steps table start active run few
  obtain ⟨kept, outside⟩ := steps_invariant
    (fun state => ∀ slot, slot ∉ slots → SameSlot first state slot) table
    (fun slot _ => SameSlot.refl first slot)
    (fun before after table kept few held step slot outside =>
      (held slot outside).trans (step_outside table few outside step)) steps few
  refine ⟨?_, ?_, ?_, ?_, ?_, ⟨same, kept.activeSlot, kept.activeOccupied, ?_, ?_⟩, ?_⟩
  · intro slot inside
    rw [kept.pointers slot inside]
    split <;> simp_all
  · intro i insideI j insideJ occupiedI occupiedJ different equal
    rw [kept.taskOf insideI, kept.taskOf insideJ] at equal
    exact different (kept.distinct i insideI j insideJ occupiedI occupiedJ equal)
  · intro slot inside
    rw [kept.taskOf inside]
    exact kept.blocked slot inside
  · exact fun slot inside pending => (kept.calls slot inside).resolve_left pending
  · intro slot inside occupied zombie
    rw [kept.taskOf inside] at zombie ⊢
    refine ⟨?_, kept.zombies slot inside occupied zombie⟩
    by_contra pending
    have blocked := ((kept.blocked slot inside).mp pending).2
    rw [zombie] at blocked
    cases blocked
  · rw [kept.taskOf kept.activeSlot]
    exact kept.running running
  · rw [kept.pointers k.active kept.activeSlot, if_pos kept.activeOccupied, kept.current]
  · intro slot above
    refine outside slot fun inside => ?_
    have bounds := mem_slots.mp inside
    omega

end DispatchRuns

/-! A file system that holds `/bin/init` only; its state is the position in that file. -/

def initImage : List (BitVec 8) :=
  [0x53505831, 1, 0, 4, 0, 16384, 0, 0].flatMap wordBytes

def initFile (position count : Nat) (files : Files) : FillResult Nat count where
  result := BitVec.ofNat 32 ((initImage.drop position).take count).length
  fs := position + ((initImage.drop position).take count).length
  files := files
  data := (initImage.drop position).take count
  bounded := List.length_take_le _ _

def initOnly : FileSystem Nat where
  mode := fun _ _ => 0o100755
  shareFile := fun fs _ => fs
  shareInode := fun fs _ => fs
  closeFile := fun fs _ => fs
  iput := fun fs _ => fs
  mountRoot := fun fs files => (fs, { files with pwd := some 0, root := some 0 })
  sysOpen := fun _ files _ _ _ =>
    { result := 0, fs := 0, files := { files with filp := update files.filp 0 (some 0) } }
  path := fun _ fs files _ _ => { result := -EINVAL, fs, files }
  rename := fun fs files _ _ => { result := -EINVAL, fs, files }
  descriptor := fun _ fs files _ _ _ => { result := -EINVAL, fs, files }
  write := fun fs files _ _ => { result := -EINVAL, fs, files }
  read := fun fs files _ count => initFile fs count files
  stat := fun fs files _ =>
    { result := -EINVAL, fs, files, data := [], bounded := Nat.zero_le _ }
  fstat := fun fs files _ =>
    { result := -EINVAL, fs, files, data := [], bounded := Nat.zero_le _ }

def noEvent : Poll := { event := 0, low := 0, high := 0 }

def callContext (nr a b c : BitVec 32) : Context :=
  { regs := fun index => if index = 1 then nr else if index = 2 then a else
      if index = 3 then b else if index = 4 then c else 0
    pc := 0x200100 }

def bootInit : Option (Kernel Nat) :=
  spBoot initOnly 0 emptyTask.files (fun _ => 0) fun _ _ => 0

def forkOnce : Option (Kernel Nat × Nat × Kernel Nat) :=
  bootInit.bind fun first =>
    (dispatch initOnly first (callContext 2 0 0 0) noEvent []).map fun returned =>
      (first, returned)

theorem forkOnce_some : ∃ first chosen k, bootInit = some first ∧
    Run initOnly first chosen k ∧ forks k = 1 ∧ k.occupied 1 = true ∧ k.occupied 2 = true := by
  have evaluated : forkOnce.map (fun run =>
      (forks run.2.2, run.2.2.occupied 1, run.2.2.occupied 2)) = some (1, true, true) := by
    decide +kernel
  obtain ⟨⟨first, chosen, k⟩, found, counts⟩ := Option.map_eq_some_iff.mp evaluated
  obtain ⟨boot, booted, returned⟩ := Option.bind_eq_some_iff.mp found
  obtain ⟨result, dispatched, same⟩ := Option.map_eq_some_iff.mp returned
  cases same
  refine ⟨first, chosen, k, booted, .entry first.window _ _ _ .boot dispatched, ?_⟩
  simpa using counts

theorem process_table_after_fork : ∃ first chosen k, bootInit = some first ∧
    Run initOnly first chosen k ∧ (k.taskOf 1).pid ≠ (k.taskOf 2).pid := by
  obtain ⟨first, chosen, k, boot, run, one, parent, child⟩ := forkOnce_some
  have table := process_table_invariant boot run (by omega)
  exact ⟨first, chosen, k, boot, run,
    table.2.1 1 (by decide) 2 (by decide) parent child (by decide)⟩

end SymphonyPlus
