import SymphonyPlus.Waits

/-!
Every exit is reaped once, by the father the process has then, and no wake-up is
lost. The pids must stay below the value that stands for a successful `exec`.
-/

namespace SymphonyPlus

open ByteMemory Function Relation ProcessHistory

section Reaping

variable {S : Type} {fileSystem : FileSystem S}

structure ReapsOnce (k : Kernel S) : Prop where
  stays : ∀ pid slot code, .exited pid slot code ∈ k.history →
    (k.occupied slot = true ∧ (k.taskOf slot).pid = pid ∧ (k.taskOf slot).state = .zombie ∧
      (k.taskOf slot).exitCode = exitStatus code ∧
      k.history.countP (Event.reaps pid) = 0) ∨
    (k.history.countP (Event.reaps pid) = 1 ∧
      ∃ father, .reaped pid slot (exitStatus code) father ∈ k.history)
  zombies : ∀ slot ∈ slots, k.occupied slot = true → (k.taskOf slot).state = .zombie →
    ∃ code, .exited (k.taskOf slot).pid slot code ∈ k.history
  once : ∀ pid, k.history.countP (Event.reaps pid) ≤ 1 ∧ k.history.countP (Event.exits pid) ≤ 1
  byFather : ∀ newer older pid slot status father,
    k.history = newer ++ .reaped pid slot status father :: older →
      ∃ code, .exited pid slot code ∈ older ∧ status = exitStatus code ∧
        fatherOf 1 older pid = some father
  fathers : ∀ slot ∈ slots, k.occupied slot = true →
    (k.taskOf slot).father = (fatherOf 1 k.history (k.taskOf slot).pid).getD 0
  orphans : ∀ dead place code, .exited dead place code ∈ k.history → dead ≠ 1 →
    ∀ slot ∈ slots, k.occupied slot = true → (k.taskOf slot).father ≠ dead
  reuse : ∀ newer older parent child slot,
    k.history = newer ++ .forked parent child slot :: older →
      ∀ pid, PutIn 1 1 older pid slot → ∃ status father, .reaped pid slot status father ∈ older
  waits : ∀ pid status options,
    ((waitCurrent k pid status options).2 = k ∧
      (waitCurrent k pid status options).1 ∈ [0, -EINVAL, -EAGAIN, -ECHILD]) ∨
    ∃ slot ∈ slots, k.occupied slot = true ∧ (k.process slot).state = .zombie ∧
      (k.process slot).father = (k.process k.active).pid ∧
      (pid = -1 ∨ pid = (k.process slot).pid) ∧
      waitCurrent k pid status options = ((k.process slot).pid, reapSlot k slot status)
  ready : ∀ slot ∈ slots, k.pending slot = 7 → (waitReady k slot = true ↔
    (waitCurrent (activate k slot) (k.arg1 slot) (k.arg2 slot) (k.arg3 slot)).1 ≠ -EAGAIN)

theorem reaps_positive {history : List Event} {pid father status : BitVec 32} {slot : Nat}
    (reaped : .reaped pid slot status father ∈ history) :
    0 < history.countP (Event.reaps pid) :=
  List.countP_pos_iff.mpr ⟨_, reaped, decide_eq_true rfl⟩

theorem reaps_none {history : List Event} (lawful : Lawful 1 1 exitStatus history)
    {pid : BitVec 32} {slot : Nat} (present : occupant 1 1 history slot = some pid) :
    history.countP (Event.reaps pid) = 0 := by
  rw [List.countP_eq_zero]
  intro event inside reaps
  cases event with
  | reaped other place status father =>
      rw [Event.reaps, decide_eq_true_eq] at reaps
      subst reaps
      exact reaped_absent lawful inside slot present
  | _ => cases reaps

theorem Recorded.reapsOnce {k : Kernel S} (recorded : Recorded k) (table : TableInvariant k)
    (few : forks k < 2 ^ 31) : ReapsOnce k where
  stays := by
    intro pid slot code exited
    have inside := recorded.places pid slot code exited
    obtain ⟨known, here | ⟨father, reaped⟩⟩ := exited_stays recorded.lawful exited
    · have occupants := recorded.occupants slot inside
      rw [here] at occupants
      split at occupants
      · rename_i occupied
        have same := Option.some.inj occupants
        have exits := recorded.exits slot inside occupied
        rw [← same, known] at exits
        refine Or.inl ⟨occupied, ?_⟩
        rw [table.taskOf inside]
        split at exits
        · rename_i zombie
          exact ⟨same.symm, zombie, (Option.some.inj exits).symm, reaps_none recorded.lawful here⟩
        · cases exits
      · cases occupants
    · exact Or.inr ⟨Nat.le_antisymm (reaped_once recorded.lawful pid) (reaps_positive reaped),
        father, reaped⟩
  zombies := by
    intro slot inside occupied zombie
    rw [table.taskOf inside] at zombie ⊢
    have exits := recorded.exits slot inside occupied
    rw [if_pos zombie] at exits
    obtain ⟨code, known, _⟩ := Option.map_eq_some_iff.mp exits
    obtain ⟨place, exited⟩ := causeOf_exited known
    have here := recorded.occupants slot inside
    rw [if_pos occupied] at here
    rcases (exited_stays recorded.lawful exited).2 with same | ⟨father, reaped⟩
    · rw [occupant_injective recorded.lawful here same]
      exact ⟨code, occupant_injective recorded.lawful here same ▸ exited⟩
    · exact absurd here (reaped_absent recorded.lawful reaped slot)
  once := fun pid => ⟨reaped_once recorded.lawful pid, exited_once recorded.lawful pid⟩
  byFather := fun newer older pid slot status father split =>
    reaped_exited (split ▸ recorded.lawful)
  fathers := by
    intro slot inside occupied
    rw [table.taskOf inside]
    exact recorded.fathers slot inside occupied
  orphans := by
    intro dead place code exited other slot inside occupied own
    rw [table.taskOf inside] at own
    have nonzero : dead ≠ 0 := by
      have used : ¬Unused 1 k.history dead := by
        intro unused
        have none := causeOf_unused recorded.lawful unused
        rw [(exited_stays recorded.lawful exited).1] at none
        cases none
      obtain ⟨number, positive, bounded, rfl⟩ := recorded.known dead used
      exact (few_pid few positive bounded).1
    exact fatherOf_alive recorded.lawful exited other
      ((recorded.father_iff inside occupied nonzero).mp own)
  reuse := fun newer older parent child slot split pid put =>
    forked_vacant (split ▸ recorded.lawful) put
  waits := waitCurrent_result table
  ready := fun slot inside waiting => waitReady_wait table few inside waiting

theorem spBoot_recorded {fs : S} {files : Files} {window : Memory} {snapshots : Nat → Memory}
    {first : Kernel S} (boot : spBoot fileSystem fs files window snapshots = some first) :
    Recorded first ∧ ∀ slot, first.pending slot = 0 := by
  unfold spBoot at boot
  dsimp only at boot
  split at boot
  · cases boot
  · cases boot
    refine ⟨?_, fun _ => rfl⟩
    constructor
    case lawful => trivial
    case occupants =>
      intro slot inside
      by_cases one : slot = 1
      · rw [one]
        rfl
      · simp [occupant, one]
    case exits =>
      intro slot inside occupied
      rw [decide_eq_true_eq] at occupied
      rw [occupied]
      rfl
    case fathers =>
      intro slot inside occupied
      rw [decide_eq_true_eq] at occupied
      rw [occupied]
      rfl
    case known =>
      intro pid used
      refine ⟨1, Nat.le_refl 1, Nat.le_refl 1, ?_⟩
      by_contra other
      exact used ⟨other, fun parent slot inside => by cases inside⟩
    case places =>
      intro pid slot code exited
      cases exited

/-- In every run whose pids stay below the value that stands for a successful `exec`: the exits,
waits and slots of every reachable state are those of `ReapsOnce`; every event is explained by
the state after its step; every pass resumes the waits that would return; and no wait that would
return is pending when the dispatcher returns. -/
theorem exited_children_reaped_once {fs : S} {files : Files} {window : Memory}
    {snapshots : Nat → Memory} {first : Kernel S}
    (boot : spBoot fileSystem fs files window snapshots = some first) :
    (∀ k, Steps fileSystem first k → forks k < pidLimit → ReapsOnce k) ∧
    (∀ k after, Steps fileSystem first k → Step fileSystem k after → forks after < pidLimit →
      ∃ newer, after.history = newer ++ k.history ∧ ∀ event ∈ newer, Explained after event) ∧
    (∀ k, Steps fileSystem first k → forks (servePass fileSystem k) < pidLimit →
      let cleaned := slots.foldl (cleanupSlot fileSystem) k
      ∀ slot ∈ slots, cleaned.pending slot = 7 →
        (waitCurrent (activate cleaned slot) (cleaned.arg1 slot) (cleaned.arg2 slot)
          (cleaned.arg3 slot)).1 ≠ -EAGAIN →
        (servePass fileSystem k).pending slot = 0 ∧
          ((servePass fileSystem k).taskOf slot).state = .running) ∧
    ∀ chosen k, Run fileSystem first chosen k → forks k < pidLimit →
      Steps fileSystem first k ∧ ∀ slot ∈ slots, k.pending slot = 7 →
        (waitCurrent (activate k slot) (k.arg1 slot) (k.arg2 slot) (k.arg3 slot)).1 = -EAGAIN := by
  obtain ⟨table, start, active⟩ := spBoot_table boot
  obtain ⟨recorded, idle⟩ := spBoot_recorded boot
  have call : CallSaved first := fun slot _ blocked => absurd (idle slot) blocked
  have below {count : Nat} (few : count < pidLimit) : count < 2 ^ 31 :=
    Nat.lt_trans few (by decide)
  have reached {k : Kernel S} (steps : Steps fileSystem first k) (few : forks k < pidLimit) :
      TableInvariant k ∧ Recorded k ∧ CallSaved k :=
    steps_invariant (fun k => Recorded k ∧ CallSaved k) table ⟨recorded, call⟩
      (fun _ _ before _ few held step =>
        ⟨step_recorded before few held.1 step, step_saved before few held.2 step⟩)
      steps (below few)
  refine ⟨?_, ?_, ?_, ?_⟩
  · intro k steps few
    obtain ⟨table, recorded, _⟩ := reached steps few
    exact recorded.reapsOnce table (below few)
  · intro k after steps step few
    obtain ⟨table, _, call⟩ := reached steps
      (Nat.lt_of_le_of_lt (step_forks fileSystem step) few)
    exact step_events table call few step
  · intro k steps few cleaned slot inside
    have earlier := Nat.lt_of_le_of_lt (steps_forks (servePass_steps k)) few
    exact (servePass_waits (reached steps earlier).1 (below few) inside).1
  · intro chosen k run few
    obtain ⟨steps, _, _, last⟩ := run_steps table start active run (below few)
    refine ⟨steps, fun slot inside waiting => ?_⟩
    have kept := (reached steps few).1
    have asleep : waitReady k slot = false := by
      rcases last with rfl | ⟨before, passed, same⟩
      · rw [idle slot] at waiting
        cases waiting
      · have through := activate_undisturbed (servePass fileSystem before) chosen slot
        rw [← same] at through
        have count : forks (servePass fileSystem before) < pidLimit := by
          rw [same, forks, (activate_table _ chosen).2.2.2.2.2.2.2.2] at few
          exact few
        have earlier := Nat.lt_of_le_of_lt (steps_forks (servePass_steps before)) count
        rw [through.ready]
        exact (servePass_waits (reached passed earlier).1 (below count) inside).2
          (through.pending.symm.trans waiting)
    by_contra goes
    rw [(waitReady_wait kept (below few) inside waiting).mpr goes] at asleep
    cases asleep

def reapOnce : Option (Kernel Nat × Nat × Kernel Nat) :=
  bootInit.bind fun first =>
    (dispatch initOnly first (callContext 2 0 0 0) noEvent []).bind fun forked =>
      (dispatch initOnly forked.2 (callContext 101 0 0 0) noEvent []).bind fun yielded =>
        (dispatch initOnly yielded.2 (callContext 1 0 0 0) noEvent []).bind fun dead =>
          (dispatch initOnly dead.2 (callContext 7 (-1) 0 0) noEvent []).map fun waited =>
            (first, waited)

theorem reapOnce_some : ∃ first chosen k, bootInit = some first ∧ Run initOnly first chosen k ∧
    forks k = 1 ∧ k.history.countP (Event.exits 2) = 1 ∧ k.history.countP (Event.reaps 2) = 1 ∧
    (k.contexts 1).regs 1 = 2 := by
  have evaluated : reapOnce.map (fun run =>
      (forks run.2.2, run.2.2.history.countP (Event.exits 2),
        run.2.2.history.countP (Event.reaps 2), (run.2.2.contexts 1).regs 1)) =
      some (1, 1, 1, 2) := by
    decide +kernel
  obtain ⟨⟨first, chosen, k⟩, found, counts⟩ := Option.map_eq_some_iff.mp evaluated
  obtain ⟨boot, booted, found⟩ := Option.bind_eq_some_iff.mp found
  obtain ⟨forked, one, found⟩ := Option.bind_eq_some_iff.mp found
  obtain ⟨yielded, two, found⟩ := Option.bind_eq_some_iff.mp found
  obtain ⟨dead, three, found⟩ := Option.bind_eq_some_iff.mp found
  obtain ⟨waited, four, same⟩ := Option.map_eq_some_iff.mp found
  cases same
  have run : Run initOnly first chosen k :=
    .entry _ _ _ _ (.entry _ _ _ _ (.entry _ _ _ _ (.entry _ _ _ _ .boot one) two) three) four
  exact ⟨first, chosen, k, booted, run, by simpa using counts⟩

theorem one_child_reapsOnce : ∃ first chosen k, bootInit = some first ∧
    Run initOnly first chosen k ∧ k.history.countP (Event.exits 2) = 1 ∧
    k.history.countP (Event.reaps 2) = 1 ∧ (k.contexts 1).regs 1 = 2 ∧ ReapsOnce k := by
  obtain ⟨first, chosen, k, boot, run, one, exits, reaps, result⟩ := reapOnce_some
  have few : forks k < pidLimit := by
    rw [one]
    decide
  obtain ⟨states, _, _, runs⟩ := exited_children_reaped_once boot
  exact ⟨first, chosen, k, boot, run, exits, reaps, result, states k (runs chosen k run few).1 few⟩

/-! A run in which process 1 forks, yields to its child, which exits, and waits, any number of
times. -/

structure Alone (k : Kernel S) (slot : Nat) (child : Option TaskState) : Prop where
  active : k.active = slot
  current : k.current = slot
  occupied : ∀ slot ∈ slots, k.occupied slot = (slot = 1 || (slot = 2 && child.isSome) : Bool)
  own : k.task 1 = some 1 ∧ (k.process 1).pid = 1 ∧ (k.process 1).state = .running
  other : ∀ state, child = some state →
    k.task 2 = some 2 ∧ (k.process 2).father = 1 ∧ (k.process 2).state = state
  unmarked : ∀ slot ∈ slots, k.interrupted slot = false
  idle : ∀ slot ∈ slots, k.pending slot = 0

theorem pollIo_noEvent (k : Kernel S) :
    pollIo k noEvent = { k with clock := k.clock.poll 0 0 } := by
  simp [pollIo, keyEvent, noEvent]

theorem Alone.entered {k : Kernel S} {active : Nat} {child : Option TaskState}
    (alone : Alone k active child) (saved : Context) :
    Alone (entered k k.window saved noEvent) active child := by
  unfold SymphonyPlus.entered
  rw [pollIo_noEvent]
  exact { alone with }

theorem servePass_idle {k : Kernel S} {active : Nat} {child : Option TaskState}
    (alone : Alone k active child) : servePass fileSystem k = k := by
  have fixed {serve : Kernel S → Nat → Kernel S} (same : ∀ slot ∈ slots, serve k slot = k) :
      slots.foldl serve k = k := by
    have run (indices : List Nat) (inside : ∀ slot ∈ indices, slot ∈ slots) :
        indices.foldl serve k = k := by
      induction indices with
      | nil => rfl
      | cons slot indices ih =>
          rw [List.foldl_cons, same slot (inside slot List.mem_cons_self)]
          exact ih fun other rest => inside other (List.mem_cons_of_mem _ rest)
    exact run slots fun _ inside => inside
  unfold servePass
  rw [fixed fun slot inside => ?_, fixed fun slot inside => ?_]
  · unfold retrySlot retryReady
    simp [alone.idle slot inside]
  · unfold cleanupSlot
    simp [alone.unmarked slot inside]

/-- An entry whose call leaves such a state returns after one pass. -/
theorem dispatch_alone {k after : Kernel S} {active chosen : Nat} {child : Option TaskState}
    {saved : Context} (called : enter fileSystem k k.window saved noEvent = after)
    (alone : Alone after active child)
    (found : chooseSlot after (saved.regs 1) = some chosen) :
    dispatch fileSystem k saved noEvent [] = some (chosen, activate after chosen) := by
  have same : dispatch fileSystem k saved noEvent [] =
      dispatchLoop fileSystem (saved.regs 1) [] (enter fileSystem k k.window saved noEvent) := rfl
  rw [same, called]
  unfold dispatchLoop
  rw [servePass_idle alone]
  dsimp only
  rw [found]

theorem Alone.activate {k : Kernel S} {active chosen : Nat} {child : Option TaskState}
    (alone : Alone k active child) (pointer : k.task chosen = some chosen) :
    Alone (activate k chosen) chosen child := by
  have current : (k.task chosen).getD chosen = chosen := by rw [pointer]; rfl
  unfold SymphonyPlus.activate
  split
  · rename_i same
    exact { alone with active := same.symm, current := current }
  · exact { alone with active := rfl, current := current }

theorem Alone.runnable_one {k : Kernel S} {active : Nat} {child : Option TaskState}
    (alone : Alone k active child) : runnable k 1 = true := by
  have occupied := alone.occupied 1 (by decide)
  simp [runnable, occupied, Kernel.taskOf, alone.own]

variable (fileSystem) in
theorem enter_unmarked {k : Kernel S} {active : Nat} {child : Option TaskState}
    (alone : Alone k active child) (inside : active ∈ slots) (nr a b c : BitVec 32)
    (done : nr ≠ 3 ∧ ¬(nr = 7 ∧ (perform fileSystem (entered k k.window
      (callContext nr a b c) noEvent) nr a b c).1 = -EAGAIN)) :
    enter fileSystem k k.window (callContext nr a b c) noEvent = finishCall (perform fileSystem
      (entered k k.window (callContext nr a b c) noEvent) nr a b c) := by
  have ready := alone.entered (callContext nr a b c)
  have unmarked := ready.unmarked active inside
  rw [← ready.active] at unmarked
  unfold enter callActive
  simp only [unmarked, Bool.false_eq_true, false_and, if_false]
  refine if_neg ?_
  rintro ⟨again, three | seven⟩
  · exact done.1 three
  · exact done.2 ⟨seven, again⟩

theorem Alone.finishCall {performed : BitVec 32 × Kernel S} {slot : Nat}
    {child : Option TaskState} (alone : Alone performed.2 slot child) :
    Alone (finishCall performed) slot child := by
  unfold SymphonyPlus.finishCall
  split
  · exact { alone with }
  · exact alone

variable (fileSystem) in
theorem Alone.fork {k : Kernel S} (alone : Alone k 1 none) :
    perform fileSystem k 2 0 0 0 = (k.nextPid + 1, forkInto fileSystem k 2) ∧
      Alone (forkInto fileSystem k 2) 1 (some .running) := by
  have free : freeSlot k = some 2 := by
    simp [freeSlot, slots, alone.occupied 1 (by decide), alone.occupied 2 (by decide)]
  have unmarked : k.interrupted k.active = false := by
    rw [alone.active]
    exact alone.unmarked 1 (by decide)
  refine ⟨?_, ?_⟩
  · change forkCurrent fileSystem k = _
    simp [forkCurrent, unmarked, free]
  · have task : k.currentTask = k.process 1 := by rw [Kernel.currentTask, alone.current]
    constructor
    case active => exact alone.active
    case current => exact alone.current
    case occupied =>
      intro slot inside
      by_cases two : slot = 2
      · subst two
        simp [forkInto]
      · simp [forkInto, two, alone.occupied slot inside]
    case own => simpa [forkInto] using alone.own
    case other =>
      rintro state ⟨⟩
      simp [forkInto, task, alone.own]
    case unmarked =>
      intro slot inside
      by_cases two : slot = 2
      · simp [forkInto, two]
      · simp [forkInto, two, alone.unmarked slot inside]
    case idle =>
      intro slot inside
      by_cases two : slot = 2
      · simp [forkInto, two]
      · simp [forkInto, two, alone.idle slot inside]

theorem adopt_apart (k : Kernel S) (pid : BitVec 32) (index : Nat) :
    (adopt k pid index).pid = (k.process index).pid ∧
      (adopt k pid index).state = (k.process index).state ∧
      ((k.process index).father = 1 → (adopt k pid index).father = 1) := by
  unfold adopt
  split
  · exact ⟨rfl, rfl, fun _ => rfl⟩
  · exact ⟨rfl, rfl, id⟩

theorem recordExit_pid (k : Kernel S) (code : BitVec 32) (cause : Option (BitVec 32))
    (index : Nat) : ((recordExit (exitCurrent fileSystem k code) cause).process index).pid =
      (k.process index).pid := by
  refine (adopt_apart _ _ index).1.trans ?_
  by_cases here : index = k.current
  · subst here
    simp [Kernel.setCurrent, Kernel.setFiles, Kernel.currentTask]
  · simp [Kernel.setCurrent, Kernel.setFiles, update_of_ne here]

theorem recordExit_nextPid (k : Kernel S) (code : BitVec 32) (cause : Option (BitVec 32)) :
    (recordExit (exitCurrent fileSystem k code) cause).nextPid = k.nextPid := rfl

variable (fileSystem) in
theorem Alone.exit {k : Kernel S} (alone : Alone k 2 (some .running)) :
    Alone (recordExit (exitCurrent fileSystem k 0) (some 0)) 2 (some .zombie) := by
  obtain ⟨pointer, father, _⟩ := alone.other .running rfl
  constructor
  case active => exact alone.active
  case current => exact alone.current
  case occupied => exact alone.occupied
  case own =>
    refine ⟨alone.own.1, ?_, ?_⟩
    · refine (adopt_apart _ _ 1).1.trans ?_
      simpa [Kernel.setCurrent, Kernel.setFiles, alone.current] using alone.own.2.1
    · refine (adopt_apart _ _ 1).2.1.trans ?_
      simpa [Kernel.setCurrent, Kernel.setFiles, alone.current] using alone.own.2.2
  case other =>
    rintro state ⟨⟩
    refine ⟨pointer, (adopt_apart _ _ 2).2.2 ?_, (adopt_apart _ _ 2).2.1.trans ?_⟩
    · simpa [Kernel.setCurrent, Kernel.setFiles, Kernel.currentTask, alone.current] using father
    · simp [Kernel.setCurrent, alone.current, Kernel.setFiles]
  case unmarked => exact alone.unmarked
  case idle => exact alone.idle

variable (fileSystem) in
theorem Alone.wait {k : Kernel S} (alone : Alone k 1 (some .zombie)) :
    perform fileSystem k 7 (-1) 0 0 = ((k.process 2).pid, reapSlot k 2 0) ∧
      Alone (reapSlot k 2 0) 1 none := by
  obtain ⟨pointer, father, state⟩ := alone.other .zombie rfl
  have task : k.taskOf 2 = k.process 2 := by
    rw [Kernel.taskOf, pointer]
    rfl
  have own : k.currentTask = k.process 1 := by rw [Kernel.currentTask, alone.current]
  refine ⟨?_, ?_⟩
  · have found : (slots.find? fun i =>
        waitMatches k (-1) i && (k.taskOf i).state = .zombie) = some 2 := by
      simp [slots, waitMatches, alone.occupied 1 (by decide), alone.occupied 2 (by decide),
        alone.own, pointer, alone.current, task, father, state, own]
    change waitCurrent k (-1) 0 0 = _
    unfold waitCurrent
    rw [if_neg (by simp), if_neg (by simp), found]
    dsimp only
    rw [task]
  · constructor
    case active => exact alone.active
    case current => exact alone.current
    case occupied =>
      intro slot inside
      by_cases two : slot = 2
      · subst two
        simp [reapSlot]
      · simp [reapSlot, two, alone.occupied slot inside]
    case own => simpa [reapSlot] using alone.own
    case other =>
      intro state none
      cases none
    case unmarked => exact alone.unmarked
    case idle =>
      intro slot inside
      by_cases two : slot = 2
      · simp [reapSlot, two]
      · simp [reapSlot, two, alone.idle slot inside]

theorem entered_same (k : Kernel S) (saved : Context) :
    (entered k k.window saved noEvent).process = k.process ∧
      (entered k k.window saved noEvent).nextPid = k.nextPid := by
  obtain ⟨terminal, interrupted, cancelRead, clock, same, _⟩ :=
    entered_changes k k.window saved noEvent
  rw [same]
  exact ⟨rfl, rfl⟩

theorem returned_same (performed : BitVec 32 × Kernel S) (slot : Nat) :
    (activate (finishCall performed) slot).process = performed.2.process ∧
      (activate (finishCall performed) slot).nextPid = performed.2.nextPid := by
  unfold activate finishCall
  split <;> split <;> exact ⟨rfl, rfl⟩

/-- One entry of such a run. -/
theorem run_alone {first k : Kernel S} {slot chosen : Nat} {child child' : Option TaskState}
    {nr a b c : BitVec 32} {performed : BitVec 32 × Kernel S}
    (run : Run fileSystem first slot k) (alone : Alone k slot child) (inside : slot ∈ slots)
    (call : perform fileSystem (entered k k.window (callContext nr a b c) noEvent) nr a b c =
      performed)
    (done : nr ≠ 3 ∧ ¬(nr = 7 ∧ performed.1 = -EAGAIN))
    (result : Alone performed.2 slot child')
    (found : chooseSlot (finishCall performed) nr = some chosen)
    (pointer : performed.2.task chosen = some chosen) :
    dispatch fileSystem k (callContext nr a b c) noEvent [] =
        some (chosen, activate (finishCall performed) chosen) ∧
      Run fileSystem first chosen (activate (finishCall performed) chosen) ∧
      Alone (activate (finishCall performed) chosen) chosen child' := by
  have called := enter_unmarked fileSystem alone inside nr a b c
    (by rw [call]; exact done)
  rw [call] at called
  have returned := dispatch_alone called result.finishCall found
  refine ⟨returned, .entry k.window _ _ _ run returned, result.finishCall.activate ?_⟩
  unfold SymphonyPlus.finishCall
  split <;> exact pointer

theorem Alone.chooses_own {k : Kernel S} {child : Option TaskState} (alone : Alone k 1 child)
    {nr : BitVec 32} (stays : nr ≠ 101) : chooseSlot k nr = some 1 := by
  unfold chooseSlot
  rw [alone.active, if_pos ⟨stays, alone.runnable_one⟩]

theorem Alone.chooses_child {k : Kernel S} (alone : Alone k 1 (some .running)) :
    chooseSlot k 101 = some 2 := by
  obtain ⟨pointer, _, state⟩ := alone.other .running rfl
  have ready : runnable k 2 = true := by
    simp [runnable, alone.occupied 2 (by decide), Kernel.taskOf, pointer, state]
  simp [chooseSlot, alone.active, slots, ready]

theorem Alone.chooses_parent {k : Kernel S} (alone : Alone k 2 (some .zombie)) (nr : BitVec 32) :
    chooseSlot k nr = some 1 := by
  obtain ⟨pointer, _, state⟩ := alone.other .zombie rfl
  have dead : runnable k 2 = false := by
    simp [runnable, Kernel.taskOf, pointer, state]
  have empty {slot : Nat} (inside : slot ∈ slots) (above : 2 < slot) :
      runnable k slot = false := by
    have one : slot ≠ 1 := by omega
    have two : slot ≠ 2 := by omega
    simp [runnable, alone.occupied slot inside, one, two]
  have three := empty (by decide : 3 ∈ slots) (by decide)
  have four := empty (by decide : 4 ∈ slots) (by decide)
  have five := empty (by decide : 5 ∈ slots) (by decide)
  have six := empty (by decide : 6 ∈ slots) (by decide)
  have seven := empty (by decide : 7 ∈ slots) (by decide)
  have eight := empty (by decide : 8 ∈ slots) (by decide)
  simp [chooseSlot, alone.active, slots, dead, alone.runnable_one, three, four, five, six, seven,
    eight]

/-- Process 1 forks and yields; its child exits. -/
theorem run_child {first k : Kernel S} (run : Run fileSystem first 1 k) (alone : Alone k 1 none) :
    ∃ dead, Run fileSystem first 1 dead ∧ Alone dead 1 (some .zombie) ∧
      (dead.process 2).pid = k.nextPid + 1 ∧ dead.nextPid = k.nextPid + 1 := by
  have yield (k : Kernel S) : perform fileSystem k 101 0 0 0 = (0, k) := rfl
  have exit (k : Kernel S) : perform fileSystem k 1 0 0 0 =
      (0, recordExit (exitCurrent fileSystem k 0) (some 0)) := rfl
  obtain ⟨forks, forked⟩ := (alone.entered (callContext 2 0 0 0)).fork fileSystem
  obtain ⟨_, parentRun, parent⟩ := run_alone run alone (by decide) forks
    ⟨by decide, fun seven => absurd seven.1 (by decide)⟩ forked
    (forked.finishCall.chooses_own (by decide)) forked.own.1
  have yields := parent.entered (callContext 101 0 0 0)
  obtain ⟨_, childRun, child⟩ := run_alone parentRun parent (by decide) (yield _)
    ⟨by decide, fun seven => absurd seven.1 (by decide)⟩ yields
    (Alone.finishCall yields).chooses_child (yields.other .running rfl).1
  have exits := (child.entered (callContext 1 0 0 0)).exit fileSystem
  obtain ⟨_, deadRun, dead⟩ := run_alone childRun child (by decide) (exit _)
    ⟨by decide, fun seven => absurd seven.1 (by decide)⟩ exits
    ((Alone.finishCall exits).chooses_parent 1) exits.own.1
  refine ⟨_, deadRun, dead, ?_, ?_⟩
  · rw [(returned_same _ 1).1, recordExit_pid, (entered_same _ _).1, (returned_same _ 2).1, (entered_same _ _).1, (returned_same _ 1).1,
      ← (entered_same k (callContext 2 0 0 0)).2]
    simp [forkInto]
  · rw [(returned_same _ 1).2, recordExit_nextPid, (entered_same _ _).2, (returned_same _ 2).2, (entered_same _ _).2, (returned_same _ 1).2,
      ← (entered_same k (callContext 2 0 0 0)).2]
    rfl

/-- The child that exited is reaped. -/
theorem run_reaped {first k : Kernel S} (run : Run fileSystem first 1 k)
    (alone : Alone k 1 (some .zombie)) :
    let performed := ((k.process 2).pid,
      reapSlot (entered k k.window (callContext 7 (-1) 0 0) noEvent) 2 0)
    (k.process 2).pid ≠ -EAGAIN →
    dispatch fileSystem k (callContext 7 (-1) 0 0) noEvent [] =
        some (1, activate (finishCall performed) 1) ∧
      Run fileSystem first 1 (activate (finishCall performed) 1) ∧
      Alone (activate (finishCall performed) 1) 1 none := by
  intro performed positive
  obtain ⟨call, reaped⟩ :=
    (alone.entered (callContext 7 (-1) 0 0)).wait fileSystem
  rw [(entered_same k _).1] at call
  exact run_alone run alone (by decide) call ⟨by decide, fun again => positive again.2⟩ reaped
    (reaped.finishCall.chooses_own (by decide)) reaped.own.1

variable (fileSystem) in
/-- Process 1 can fork any number of children and reap them. -/
theorem run_cycles {first : Kernel S} (alone : Alone first 1 none)
    (start : first.nextPid = 1) (count : Nat) (small : count < 2 ^ 31) :
    ∃ k, Run fileSystem first 1 k ∧ Alone k 1 none ∧ k.nextPid = BitVec.ofNat 32 (1 + count) := by
  induction count with
  | zero => exact ⟨first, .boot, alone, start⟩
  | succ count ih =>
      obtain ⟨k, run, alone, nextPid⟩ := ih (by omega)
      obtain ⟨dead, deadRun, zombie, pid, next⟩ := run_child run alone
      have number : k.nextPid + 1 = BitVec.ofNat 32 (1 + (count + 1)) := by
        rw [nextPid]
        exact (BitVec.ofNat_add (1 + count) 1).symm
      rw [number] at pid next
      obtain ⟨_, again, reaped⟩ := run_reaped deadRun zombie
        (by rw [pid]; exact few_pid_result small (Nat.le_refl _))
      refine ⟨_, again, reaped, ?_⟩
      rw [(returned_same _ 1).2, ← next]
      exact (entered_same dead (callContext 7 (-1) 0 0)).2

theorem spBoot_alone {fs : S} {files : Files} {window : Memory} {snapshots : Nat → Memory}
    {first : Kernel S} (boot : spBoot fileSystem fs files window snapshots = some first) :
    Alone first 1 none ∧ first.nextPid = 1 := by
  unfold spBoot at boot
  dsimp only at boot
  split at boot
  · cases boot
  · cases boot
    refine ⟨?_, rfl⟩
    constructor
    case occupied =>
      intro slot inside
      simp
    case own => exact ⟨rfl, rfl, rfl⟩
    case other =>
      intro state none
      cases none
    case unmarked => exact fun _ _ => rfl
    case idle => exact fun _ _ => rfl
    all_goals rfl

end Reaping

/-- The child with the pid that stands for a successful `exec` is reaped, but the wait that reaps
it leaves its own number in the register of the result. -/
theorem exec_pid_not_returned : ∃ first k after, bootInit = some first ∧
    Run initOnly first 1 k ∧
    dispatch initOnly k (callContext 7 (-1) 0 0) noEvent [] = some (1, after) ∧
    (∃ status entry, after.history =
      .reaped execSentinel 2 status 1 :: .noted entry :: k.history) ∧
    (after.contexts 1).regs 1 = 7 := by
  obtain ⟨first, _, _, booted, _, _⟩ := forkOnce_some
  obtain ⟨alone, start⟩ := spBoot_alone booted
  obtain ⟨k, run, single, nextPid⟩ := run_cycles initOnly alone start
    0x6ffffffe (by decide)
  obtain ⟨dead, deadRun, zombie, pid, _⟩ := run_child run single
  have sentinel : (dead.process 2).pid = execSentinel := by
    rw [pid, nextPid]
    rfl
  obtain ⟨returned, _, _⟩ := run_reaped deadRun zombie (by rw [sentinel]; decide)
  rw [sentinel] at returned
  have waiting := zombie.entered (callContext 7 (-1) 0 0)
  obtain ⟨history, process, _⟩ := entered_note dead dead.window (callContext 7 (-1) 0 0) noEvent
  have saved := entered_contexts dead dead.window (callContext 7 (-1) 0 0) noEvent
  have pointer := (waiting.other .zombie rfl).1
  generalize entered dead dead.window (callContext 7 (-1) 0 0) noEvent = k at *
  have child : (k.taskOf 2).pid = execSentinel := by
    rw [Kernel.taskOf, pointer, process]
    exact sentinel
  have father : k.currentTask.pid = 1 := by
    rw [Kernel.currentTask, waiting.current]
    exact waiting.own.2.1
  refine ⟨first, dead, _, booted, deadRun, returned, ?_, ?_⟩
  · obtain ⟨_, _, _, _, _, _, _, _, kept⟩ :=
      activate_table (finishCall (execSentinel, reapSlot k 2 0)) 1
    rw [kept, (finishCall_same _).2.2.2, reapSlot, child, father, history]
    exact ⟨_, _, rfl⟩
  · obtain ⟨_, _, _, _, _, _, _, kept, _⟩ :=
      activate_table (finishCall (execSentinel, reapSlot k 2 0)) 1
    rw [waiting.active] at saved
    have unset : finishCall (execSentinel, reapSlot k 2 0) = reapSlot k 2 0 :=
      if_neg (not_not.mpr rfl)
    have contexts : (reapSlot k 2 0).contexts 1 = callContext 7 (-1) 0 0 := saved
    rw [kept, unset, contexts]
    rfl

end SymphonyPlus
