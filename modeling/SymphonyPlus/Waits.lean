import SymphonyPlus.ProcessRecords

/-!
Waits: when one would block, what one returns, which are resumed by a pass of the
dispatcher, and what the events of a step say about the state after it.
-/

namespace SymphonyPlus

open ByteMemory Function Relation ProcessHistory

section Waits

variable {S : Type} {fileSystem : FileSystem S}

def WaitsFor (k : Kernel S) (slot i : Nat) : Prop :=
  k.occupied i = true ∧ (k.taskOf i).father = (k.taskOf slot).pid ∧
    (k.arg1 slot = -1 ∨ k.arg1 slot = (k.taskOf i).pid)

theorem waitReady_iff (k : Kernel S) (slot : Nat) : waitReady k slot = true ↔
    (∃ i ∈ slots, WaitsFor k slot i ∧ (k.taskOf i).state = .zombie) ∨
      ∀ i ∈ slots, ¬WaitsFor k slot i := by
  simp only [waitReady, WaitsFor, Bool.or_eq_true, Bool.not_eq_true', List.any_eq_true,
    List.any_eq_false, Bool.and_eq_true, decide_eq_true_eq, and_assoc]

theorem waitReady_congr {before after : Kernel S} {slot : Nat}
    (matching : ∀ i ∈ slots, WaitsFor after slot i ↔ WaitsFor before slot i)
    (zombie : ∀ i ∈ slots, WaitsFor before slot i →
      ((after.taskOf i).state = .zombie ↔ (before.taskOf i).state = .zombie)) :
    waitReady after slot = waitReady before slot := by
  rw [Bool.eq_iff_iff, waitReady_iff, waitReady_iff]
  constructor
  · rintro (⟨i, inside, waits, dead⟩ | none)
    · have before := (matching i inside).mp waits
      exact Or.inl ⟨i, inside, before, (zombie i inside before).mp dead⟩
    · exact Or.inr fun i inside waits => none i inside ((matching i inside).mpr waits)
  · rintro (⟨i, inside, waits, dead⟩ | none)
    · exact Or.inl ⟨i, inside, (matching i inside).mpr waits, (zombie i inside waits).mpr dead⟩
    · exact Or.inr fun i inside waits => none i inside ((matching i inside).mp waits)

theorem waitCurrent_again_iff {k : Kernel S} (table : TableInvariant k) (few : forks k < 2 ^ 31)
    {pid status options : BitVec 32} (arguments : WaitArguments pid status options) :
    (waitCurrent k pid status options).1 = -EAGAIN ↔
      (∃ i ∈ slots, waitMatches k pid i = true) ∧
        ∀ i ∈ slots, waitMatches k pid i = true → (k.taskOf i).state ≠ .zombie := by
  obtain ⟨valid, _, rfl⟩ := arguments
  have positive : ¬(pid ≠ -1 ∧ pid.sle 0 = true) := by
    rintro ⟨other, negative⟩
    rcases valid with any | positive
    · exact other any
    · rw [positive] at negative
      cases negative
  unfold waitCurrent
  rw [if_neg positive, if_neg (by simp)]
  split
  · rename_i i found
    have inside := List.mem_of_find?_eq_some found
    have chosen := List.find?_some found
    rw [Bool.and_eq_true, decide_eq_true_eq] at chosen
    refine iff_of_false ?_ fun both => both.2 i inside chosen.1 chosen.2
    obtain ⟨occupied, _, _⟩ := (waitMatches_iff table inside).mp chosen.1
    obtain ⟨number, least, bounded, known⟩ := table.pids i inside occupied
    dsimp only
    rw [table.taskOf inside, known]
    exact few_pid_result few bounded
  · rename_i missing
    rw [List.find?_eq_none] at missing
    have alive (i : Nat) (inside : i ∈ slots) (waits : waitMatches k pid i = true) :
        (k.taskOf i).state ≠ .zombie := by
      intro zombie
      refine missing i inside ?_
      rw [waits, zombie]
      rfl
    split
    · rename_i matching
      rw [List.any_eq_true] at matching
      exact iff_of_true rfl ⟨matching, alive⟩
    · rename_i none
      rw [List.any_eq_true] at none
      refine iff_of_false ?_ fun both => none both.1
      dsimp only
      decide

/-- A pending wait is ready when the wait made again would not block. -/
theorem waitReady_wait {k : Kernel S} (table : TableInvariant k) (few : forks k < 2 ^ 31)
    {slot : Nat} (inside : slot ∈ slots) (waiting : k.pending slot = 7) :
    waitReady k slot = true ↔
      (waitCurrent (activate k slot) (k.arg1 slot) (k.arg2 slot) (k.arg3 slot)).1 ≠ -EAGAIN := by
  have occupied := ((table.blocked slot inside).mp (by rw [waiting]; decide)).1
  have active := tableInvariant_activate table inside occupied
  obtain ⟨process, _, occupancy, _, _, _, _, _, history⟩ := activate_table k slot
  have count : forks (activate k slot) < 2 ^ 31 := by
    rw [forks, history]
    exact few
  have matching (i : Nat) (insideI : i ∈ slots) :
      waitMatches (activate k slot) (k.arg1 slot) i = true ↔ WaitsFor k slot i := by
    rw [waitMatches_iff active insideI, occupancy, process, activate_active, WaitsFor,
      table.taskOf insideI, table.taskOf inside]
  rw [waitReady_iff, ne_eq, waitCurrent_again_iff active count (table.waits slot inside waiting)]
  constructor
  · rintro (⟨i, insideI, waits, zombie⟩ | none)
    · intro both
      refine both.2 i insideI ((matching i insideI).mpr waits) ?_
      rw [activate_taskOf]
      exact zombie
    · rintro ⟨⟨i, insideI, waits⟩, _⟩
      exact none i insideI ((matching i insideI).mp waits)
  · intro blocks
    by_contra neither
    push Not at neither
    refine blocks ⟨?_, ?_⟩
    · obtain ⟨i, insideI, waits⟩ := neither.2
      exact ⟨i, insideI, (matching i insideI).mpr waits⟩
    · intro i insideI waits
      rw [activate_taskOf]
      exact neither.1 i insideI ((matching i insideI).mp waits)

/-- All that a wait can return: the state is as before, or a zombie child is reaped. -/
theorem waitCurrent_result {k : Kernel S} (table : TableInvariant k)
    (pid status options : BitVec 32) :
    ((waitCurrent k pid status options).2 = k ∧
      (waitCurrent k pid status options).1 ∈ [0, -EINVAL, -EAGAIN, -ECHILD]) ∨
    ∃ slot ∈ slots, k.occupied slot = true ∧ (k.process slot).state = .zombie ∧
      (k.process slot).father = (k.process k.active).pid ∧
      (pid = -1 ∨ pid = (k.process slot).pid) ∧
      waitCurrent k pid status options = ((k.process slot).pid, reapSlot k slot status) := by
  unfold waitCurrent
  split
  · exact Or.inl ⟨rfl, by simp⟩
  · split
    · exact Or.inl ⟨rfl, by simp⟩
    · split
      · rename_i slot found
        have inside := List.mem_of_find?_eq_some found
        have chosen := List.find?_some found
        rw [Bool.and_eq_true, decide_eq_true_eq, table.taskOf inside] at chosen
        obtain ⟨occupied, father, asked⟩ := (waitMatches_iff table inside).mp chosen.1
        rw [table.taskOf inside]
        exact Or.inr ⟨slot, inside, occupied, chosen.2, father, asked, rfl⟩
      · split
        · refine Or.inl ⟨rfl, ?_⟩
          split <;> simp
        · exact Or.inl ⟨rfl, by simp⟩

/-! One pass resumes every wait that could go on. -/

structure Undisturbed (slot : Nat) (before after : Kernel S) : Prop where
  occupied : after.occupied slot = before.occupied slot
  pending : after.pending slot = before.pending slot
  state : (after.taskOf slot).state = (before.taskOf slot).state
  ready : waitReady after slot = waitReady before slot

theorem Undisturbed.trans {slot : Nat} {first second third : Kernel S}
    (left : Undisturbed slot first second) (right : Undisturbed slot second third) :
    Undisturbed slot first third where
  occupied := right.occupied.trans left.occupied
  pending := right.pending.trans left.pending
  state := right.state.trans left.state
  ready := right.ready.trans left.ready

theorem activate_undisturbed (k : Kernel S) (chosen slot : Nat) :
    Undisturbed slot k (activate k chosen) := by
  obtain ⟨_, _, occupied, pending, arg1, _, _, _, _⟩ := activate_table k chosen
  refine ⟨by rw [occupied], by rw [pending], by rw [activate_taskOf], waitReady_congr (fun i _ => ?_) fun i _ _ => ?_⟩
  · rw [WaitsFor, WaitsFor, activate_taskOf, activate_taskOf, occupied, arg1]
  · rw [activate_taskOf]

theorem effect_undisturbed {k after : Kernel S} {nr b c : BitVec 32} (table : TableInvariant k)
    (call : nr = 3 ∨ nr = 7) (effect : TableEffect fileSystem k nr b c after) {slot : Nat}
    (inside : slot ∈ slots) (occupied : k.occupied slot = true) (other : slot ≠ k.active)
    (alive : (k.process slot).state ≠ .zombie) : Undisturbed slot k after := by
  cases effect with
  | same same window =>
      have taskOf (i : Nat) : after.taskOf i = after.process ((k.task i).getD i) := by
        rw [Kernel.taskOf, same.task]
      refine ⟨by rw [same.occupied], by rw [same.pending], ?_, waitReady_congr (fun i _ => ?_) fun i _ _ => ?_⟩
      · rw [taskOf, (same.process _).2.2.1]
        rfl
      · rw [WaitsFor, WaitsFor, same.occupied, same.arg1, taskOf, taskOf, (same.process _).2.1,
          (same.process _).1, (same.process _).1]
        rfl
      · rw [taskOf, (same.process _).2.2.1]
        rfl
  | exit exits code => rcases call with rfl | rfl <;> cases exits
  | fork forks free => rcases call with rfl | rfl <;> cases forks
  | @reap call i pid insideI child zombie =>
      obtain ⟨_, father, _⟩ := (waitMatches_iff table insideI).mp child
      rw [table.taskOf insideI] at zombie
      have different : slot ≠ i := by
        rintro rfl
        exact alive zombie
      have others {query : Nat} (unlike : query ≠ i) :
          (reapSlot k i b).taskOf query = k.taskOf query := by
        simp only [Kernel.taskOf, reapSlot, update_of_ne unlike]
      refine ⟨update_of_ne different _ _, update_of_ne different _ _, by rw [others different],
        waitReady_congr ?_ ?_⟩
      · intro query insideQ
        by_cases here : query = i
        · subst here
          refine iff_of_false (fun waits => ?_) fun waits => ?_
          · have vacant := waits.1
            simp [reapSlot] at vacant
          · have mine := waits.2.1
            rw [table.taskOf insideI, table.taskOf inside, father] at mine
            exact other (table.distinct k.active table.activeSlot slot inside
              table.activeOccupied occupied mine).symm
        · have occupancy : (reapSlot k i b).occupied query = k.occupied query :=
            update_of_ne here _ _
          rw [WaitsFor, WaitsFor, others here, others different, occupancy]
          rfl
      · intro query insideQ waits
        by_cases here : query = i
        · subst here
          have mine := waits.2.1
          rw [table.taskOf insideI, table.taskOf inside, father] at mine
          exact absurd (table.distinct k.active table.activeSlot slot inside
            table.activeOccupied occupied mine).symm other
        · rw [others here]
  | exec execs contexts same => rcases call with rfl | rfl <;> cases execs

theorem resumeCurrent_undisturbed {k : Kernel S} (table : TableInvariant k) (result : BitVec 32)
    {slot : Nat} (inside : slot ∈ slots) (other : slot ≠ k.active)
    (alive : (k.process k.active).state ≠ .zombie) :
    Undisturbed slot k (resumeCurrent k k.active result) := by
  have rescheduled := resumeCurrent_rescheduled table.current result
  have same := rescheduled.sameProcesses alive (by decide)
  have taskOf (i : Nat) (insideI : i ∈ slots) :
      (resumeCurrent k k.active result).taskOf i =
        (resumeCurrent k k.active result).process i := by
    rw [Kernel.taskOf, rescheduled.task, table.pointers i insideI]
    split <;> rfl
  refine ⟨by rw [same.occupied], ?_, ?_,
    waitReady_congr (fun i insideI => ?_) fun i insideI _ => ?_⟩
  · rw [rescheduled.pending, update_of_ne other]
  · rw [taskOf slot inside, table.taskOf inside, rescheduled.others slot other]
  · rw [WaitsFor, WaitsFor, taskOf i insideI, taskOf slot inside, table.taskOf insideI,
      table.taskOf inside, same.pid, same.pid, same.father, same.occupied,
      (rescheduled.arguments slot other).1]
  · rw [taskOf i insideI, table.taskOf insideI, same.zombie]

variable (fileSystem) in
theorem retrySlot_cases (k : Kernel S) (slot : Nat) :
    (retryReady k slot = false ∧ retrySlot fileSystem k slot = k) ∨
    (retryReady k slot = true ∧
      ((performPending fileSystem (activate k slot) slot).1 ≠ -EAGAIN ∧
        retrySlot fileSystem k slot =
          resumeCurrent (performPending fileSystem (activate k slot) slot).2 slot
            (performPending fileSystem (activate k slot) slot).1 ∨
      (performPending fileSystem (activate k slot) slot).1 = -EAGAIN ∧
        retrySlot fileSystem k slot = (performPending fileSystem (activate k slot) slot).2)) := by
  unfold retrySlot
  by_cases ready : retryReady k slot = true
  · rw [if_pos ready]
    by_cases again : (performPending fileSystem (activate k slot) slot).1 = -EAGAIN
    · exact Or.inr ⟨ready, Or.inr ⟨again, if_neg (not_not.mpr again)⟩⟩
    · exact Or.inr ⟨ready, Or.inl ⟨again, if_pos again⟩⟩
  · rw [if_neg ready]
    exact Or.inl ⟨by simpa using ready, rfl⟩

theorem retryReady_pending {k : Kernel S} {slot : Nat} (ready : retryReady k slot = true) :
    k.occupied slot = true ∧ k.pending slot ≠ 0 ∧
      (k.pending slot = 7 → waitReady k slot = true) := by
  simp only [retryReady, Bool.and_eq_true, decide_eq_true_eq, Bool.not_eq_true',
    Bool.and_eq_false_iff, decide_eq_false_iff_not] at ready
  obtain ⟨⟨⟨occupied, pending⟩, _⟩, waiting⟩ := ready
  refine ⟨occupied, pending, fun seven => ?_⟩
  rcases waiting with other | asleep
  · exact absurd seven other
  · simpa using asleep

theorem retry_other {k : Kernel S} (table : TableInvariant k) {t slot : Nat}
    (few : forks (retrySlot fileSystem k t) < 2 ^ 31) (insideT : t ∈ slots)
    (inside : slot ∈ slots) (occupied : k.occupied slot = true) (other : slot ≠ t)
    (alive : (k.process slot).state ≠ .zombie) :
    Undisturbed slot k (retrySlot fileSystem k t) := by
  rcases retrySlot_cases fileSystem k t with ⟨_, same⟩ | ⟨ready, outcome⟩
  · rw [same]
    exact ⟨rfl, rfl, rfl, rfl⟩
  · obtain ⟨occupiedT, pending, _⟩ := retryReady_pending ready
    have active := tableInvariant_activate table insideT occupiedT
    obtain ⟨process, _, occupancy, pendings, _, _, _, _, _⟩ := activate_table k t
    have call := (active.calls t insideT).resolve_left (by rw [pendings]; exact pending)
    have performed : Undisturbed slot k (performPending fileSystem (activate k t) t).2 :=
      (activate_undisturbed k t slot).trans (effect_undisturbed active call
        (perform_effect fileSystem (activate k t) _ _ _ _) inside (by rw [occupancy]; exact occupied)
        (by rw [activate_active]; exact other) (by rw [process]; exact alive))
    rcases outcome with ⟨_, resumed⟩ | ⟨_, remained⟩
    · have pendingT : (activate k t).pending (activate k t).active ≠ 0 := by
        rw [activate_active, pendings]
        exact pending
      have kept := tableInvariant_performPending fileSystem active
        (by rw [resumed] at few; rw [activate_active]; exact few) pendingT
      have process := performPending_process fileSystem active pendingT
      have place := performPending_active fileSystem (activate k t) t
      rw [activate_active] at kept process place
      have resume := resumeCurrent_undisturbed kept
        (performPending fileSystem (activate k t) t).1 inside (by rw [place]; exact other)
        (by rw [place, process.2]; have alive := active.pendingAlive pendingT; rwa [activate_active] at alive)
      rw [place] at resume
      rw [resumed]
      exact performed.trans resume
    · rw [remained]
      exact performed

/-- The retry of a pending wait resumes it when it is ready, and does nothing otherwise. -/
theorem retry_own {k : Kernel S} (table : TableInvariant k) {slot : Nat}
    (few : forks (retrySlot fileSystem k slot) < 2 ^ 31) (inside : slot ∈ slots)
    (waiting : k.pending slot = 7) :
    (waitReady k slot = true → (retrySlot fileSystem k slot).occupied slot = true ∧
      (retrySlot fileSystem k slot).pending slot = 0 ∧
      ((retrySlot fileSystem k slot).taskOf slot).state = .running) ∧
    (waitReady k slot = false → retrySlot fileSystem k slot = k) := by
  have occupied := ((table.blocked slot inside).mp (by rw [waiting]; decide)).1
  have before := Nat.lt_of_le_of_lt (steps_forks (retrySlot_steps fileSystem k
    inside)) few
  rcases retrySlot_cases fileSystem k slot with ⟨asleep, same⟩ | ⟨ready, outcome⟩
  · refine ⟨fun ready => ?_, fun _ => same⟩
    simp only [retryReady, occupied, waiting, ready] at asleep
    cases asleep
  · refine ⟨fun awake => ?_, fun asleep => ?_⟩
    · have active := tableInvariant_activate table inside occupied
      obtain ⟨_, _, _, pendings, arg1, arg2, arg3, _, _⟩ := activate_table k slot
      have goes := (waitReady_wait table before inside waiting).mp awake
      have done : (performPending fileSystem (activate k slot) slot).1 ≠ -EAGAIN := by
        rw [performPending, pendings, arg1, arg2, arg3, waiting]
        change (if k.arg2 slot ≠ 0 ∧ !userRange (k.arg2 slot) 4 then
          (-EFAULT, activate k slot) else waitCurrent (activate k slot) (k.arg1 slot)
            (k.arg2 slot) (k.arg3 slot)).1 ≠ -EAGAIN
        split
        · dsimp only
          decide
        · exact goes
      rcases outcome with ⟨_, resumed⟩ | ⟨again, _⟩
      · have pending : (activate k slot).pending (activate k slot).active ≠ 0 := by
          rw [activate_active, pendings, waiting]
          decide
        have kept := tableInvariant_performPending fileSystem active
          (by rw [resumed] at few; rw [activate_active]; exact few) pending
        have place := performPending_active fileSystem (activate k slot) slot
        rw [activate_active] at kept place
        have rescheduled := resumeCurrent_rescheduled kept.current
          (performPending fileSystem (activate k slot) slot).1
        have result := tableInvariant_resume kept
          (performPending fileSystem (activate k slot) slot).1
        rw [place] at rescheduled result
        rw [resumed]
        refine ⟨?_, ?_, ?_⟩
        · have present := result.activeOccupied
          rw [rescheduled.active, place] at present
          exact present
        · rw [rescheduled.pending, place, update_self]
        · rw [result.taskOf inside]
          have own := rescheduled.own
          rw [place] at own
          rw [own]
      · exact absurd again done
    · have awake := (retryReady_pending ready).2.2 waiting
      rw [asleep] at awake
      cases awake

theorem retries_other (indices : List Nat) (small : ∀ t ∈ indices, t ∈ slots) {k : Kernel S}
    (table : TableInvariant k) (few : forks (indices.foldl (retrySlot fileSystem) k) < 2 ^ 31)
    {slot : Nat} (inside : slot ∈ slots) (occupied : k.occupied slot = true)
    (alive : (k.process slot).state ≠ .zombie) (other : slot ∉ indices) :
    Undisturbed slot k (indices.foldl (retrySlot fileSystem) k) := by
  induction indices generalizing k with
  | nil => exact ⟨rfl, rfl, rfl, rfl⟩
  | cons t indices ih =>
      rw [List.mem_cons, not_or] at other
      have insideT := small t List.mem_cons_self
      have later : ∀ t ∈ indices, t ∈ slots := fun t rest => small t (List.mem_cons_of_mem _ rest)
      have count : forks (retrySlot fileSystem k t) < 2 ^ 31 := Nat.lt_of_le_of_lt
        (steps_forks (foldl_steps (fun k _ => retrySlot_steps fileSystem k) indices later _)) few
      have next := steps_table table (retrySlot_steps fileSystem k insideT) count
      have first := retry_other table count insideT inside occupied other.1 alive
      refine first.trans (ih later next few (first.occupied.trans occupied) ?_ other.2)
      rw [← next.taskOf inside, first.state, table.taskOf inside]
      exact alive

variable (fileSystem) in
/-- The retries of a list of slots, seen from one slot with a pending wait. -/
theorem retries_wait (indices : List Nat) (distinct : indices.Nodup)
    (small : ∀ t ∈ indices, t ∈ slots) {k : Kernel S} (table : TableInvariant k)
    (few : forks (indices.foldl (retrySlot fileSystem) k) < 2 ^ 31) {slot : Nat}
    (listed : slot ∈ indices) (waiting : k.pending slot = 7) :
    (waitReady k slot = true →
      (indices.foldl (retrySlot fileSystem) k).pending slot = 0 ∧
        ((indices.foldl (retrySlot fileSystem) k).taskOf slot).state = .running) ∧
    (waitReady k slot = false →
      Undisturbed slot k (indices.foldl (retrySlot fileSystem) k)) := by
  induction indices generalizing k with
  | nil => cases listed
  | cons t indices ih =>
      have inside := small slot listed
      have insideT := small t List.mem_cons_self
      have later : ∀ t ∈ indices, t ∈ slots := fun t rest => small t (List.mem_cons_of_mem _ rest)
      rw [List.nodup_cons] at distinct
      have count : forks (retrySlot fileSystem k t) < 2 ^ 31 := Nat.lt_of_le_of_lt
        (steps_forks (foldl_steps (fun k _ => retrySlot_steps fileSystem k) indices later _)) few
      have next := steps_table table (retrySlot_steps fileSystem k insideT) count
      obtain ⟨occupied, blocked⟩ := (table.blocked slot inside).mp (by rw [waiting]; decide)
      have alive : (k.process slot).state ≠ .zombie := by
        rw [blocked]
        decide
      by_cases same : slot = t
      · subst same
        obtain ⟨resumes, stays⟩ := retry_own table count inside waiting
        refine ⟨fun ready => ?_, fun asleep => ?_⟩
        · obtain ⟨present, pending, state⟩ := resumes ready
          have runs : ((retrySlot fileSystem k slot).process slot).state = .running := by
            rw [← next.taskOf inside]
            exact state
          have rest := retries_other indices later next few inside present
            (by rw [runs]; decide) distinct.1
          exact ⟨rest.pending.trans pending, rest.state.trans state⟩
        · rw [List.foldl_cons, stays asleep] at few ⊢
          exact retries_other indices later table few inside occupied alive distinct.1
      · have first := retry_other table count insideT inside occupied same alive
        obtain ⟨resumes, stays⟩ := ih distinct.2 later next few
          ((List.mem_cons.mp listed).resolve_left same) (first.pending.trans waiting)
        exact ⟨fun ready => resumes (first.ready.trans ready),
          fun asleep => first.trans (stays (first.ready.trans asleep))⟩

variable (fileSystem) in
theorem retrySlot_pending (k : Kernel S) (t slot : Nat) :
    (retrySlot fileSystem k t).pending slot = k.pending slot ∨
      (retrySlot fileSystem k t).pending slot = 0 := by
  have effect : (performPending fileSystem (activate k t) t).2.pending slot =
      (activate k t).pending slot ∨ (performPending fileSystem (activate k t) t).2.pending slot = 0 :=
    effect_pending fileSystem (perform_effect fileSystem (activate k t) _ _ _ _) slot
  rw [(activate_table k t).2.2.2.1] at effect
  rcases retrySlot_cases fileSystem k t with ⟨_, same⟩ | ⟨_, ⟨_, same⟩ | ⟨_, same⟩⟩
  · exact Or.inl (by rw [same])
  · rw [same]
    by_cases here : slot = t
    · rw [here]
      exact Or.inr (update_self _ _ _)
    · have kept : (resumeCurrent (performPending fileSystem (activate k t) t).2 t
          (performPending fileSystem (activate k t) t).1).pending slot =
          (performPending fileSystem (activate k t) t).2.pending slot := update_of_ne here _ _
      rw [kept]
      exact effect
  · rw [same]
    exact effect

theorem retries_pending (indices : List Nat) {k : Kernel S} {slot : Nat}
    (waiting : (indices.foldl (retrySlot fileSystem) k).pending slot = 7) :
    k.pending slot = 7 := by
  induction indices generalizing k with
  | nil => exact waiting
  | cons t indices ih =>
      rcases retrySlot_pending fileSystem k t slot with same | none
      · exact same.symm.trans (ih waiting)
      · have still := ih waiting
        rw [none] at still
        cases still

/-- After a pass no wait is pending that would return, and a wait that would have returned after
the cleanup is resumed. -/
theorem servePass_waits {k : Kernel S} (table : TableInvariant k)
    (few : forks (servePass fileSystem k) < 2 ^ 31) {slot : Nat} (inside : slot ∈ slots) :
    ((slots.foldl (cleanupSlot fileSystem) k).pending slot = 7 →
      (waitCurrent (activate (slots.foldl (cleanupSlot fileSystem) k) slot)
        ((slots.foldl (cleanupSlot fileSystem) k).arg1 slot)
        ((slots.foldl (cleanupSlot fileSystem) k).arg2 slot)
        ((slots.foldl (cleanupSlot fileSystem) k).arg3 slot)).1 ≠ -EAGAIN →
      (servePass fileSystem k).pending slot = 0 ∧
        ((servePass fileSystem k).taskOf slot).state = .running) ∧
    ((servePass fileSystem k).pending slot = 7 →
      waitReady (servePass fileSystem k) slot = false) := by
  have cleaned := foldl_steps (fun k _ => cleanupSlot_steps fileSystem k) slots
    (fun _ inside => inside) k
  have retried := foldl_steps (fun k _ => retrySlot_steps fileSystem k) slots
    (fun _ inside => inside) (slots.foldl (cleanupSlot fileSystem) k)
  have count := Nat.lt_of_le_of_lt (steps_forks retried) few
  have clean := steps_table table cleaned count
  have waits := fun waiting => retries_wait fileSystem slots (by decide)
    (fun _ inside => inside) clean few inside waiting
  refine ⟨fun waiting goes => ?_, fun waiting => ?_⟩
  · exact (waits waiting).1 ((waitReady_wait clean count inside waiting).mpr goes)
  · have before := retries_pending slots waiting
    by_cases ready : waitReady (slots.foldl (cleanupSlot fileSystem) k) slot = true
    · have resumed := ((waits before).1 ready).1
      unfold servePass at waiting
      rw [resumed] at waiting
      cases waiting
    · rw [Bool.not_eq_true] at ready
      exact ((waits before).2 ready).ready.trans ready

/-! The registers of a blocked process hold its call. -/

def CallSaved (k : Kernel S) : Prop :=
  ∀ slot ∈ slots, k.pending slot ≠ 0 →
    (k.contexts slot).regs 1 = k.pending slot ∧ (k.contexts slot).regs 2 = k.arg1 slot ∧
      (k.contexts slot).regs 3 = k.arg2 slot ∧ (k.contexts slot).regs 4 = k.arg3 slot

def KeepsCalls (before after : Kernel S) : Prop :=
  ∀ slot, after.pending slot ≠ 0 →
    after.pending slot = before.pending slot ∧ after.contexts slot = before.contexts slot ∧
      after.arg1 slot = before.arg1 slot ∧ after.arg2 slot = before.arg2 slot ∧
      after.arg3 slot = before.arg3 slot

theorem KeepsCalls.trans {first second third : Kernel S} (left : KeepsCalls first second)
    (right : KeepsCalls second third) : KeepsCalls first third := by
  intro slot blocked
  obtain ⟨pending, contexts, arg1, arg2, arg3⟩ := right slot blocked
  rw [pending] at blocked
  obtain ⟨pending', contexts', arg1', arg2', arg3'⟩ := left slot blocked
  exact ⟨pending.trans pending', contexts.trans contexts', arg1.trans arg1', arg2.trans arg2',
    arg3.trans arg3'⟩

theorem KeepsCalls.saved {before after : Kernel S} (keeps : KeepsCalls before after)
    (saved : CallSaved before) : CallSaved after := by
  intro slot inside blocked
  obtain ⟨pending, contexts, arg1, arg2, arg3⟩ := keeps slot blocked
  rw [pending, contexts, arg1, arg2, arg3]
  exact saved slot inside (pending ▸ blocked)

theorem effect_keepsCalls {k after : Kernel S} {nr b c : BitVec 32}
    (unblocked : nr.toNat = 11 → k.pending k.active = 0)
    (effect : TableEffect fileSystem k nr b c after) : KeepsCalls k after := by
  intro slot blocked
  cases effect with
  | same same window =>
      rw [same.pending, same.contexts, same.arg1, same.arg2, same.arg3]
      exact ⟨rfl, rfl, rfl, rfl, rfl⟩
  | exit call code => exact ⟨rfl, rfl, rfl, rfl, rfl⟩
  | @fork call used free =>
      have other : slot ≠ used := by
        rintro rfl
        exact blocked (update_self _ _ _)
      exact ⟨update_of_ne other _ _, update_of_ne other _ _, rfl, rfl, rfl⟩
  | @reap call i pid inside child zombie =>
      have other : slot ≠ i := by
        rintro rfl
        exact blocked (update_self _ _ _)
      exact ⟨update_of_ne other _ _, rfl, rfl, rfl, rfl⟩
  | exec call contexts same =>
      have pending : after.pending = k.pending := same.pending
      have other : slot ≠ k.active := by
        rintro rfl
        rw [pending] at blocked
        exact blocked (unblocked call)
      exact ⟨congrFun pending slot, contexts slot other, congrFun same.arg1 slot,
        congrFun same.arg2 slot, congrFun same.arg3 slot⟩

theorem setResult_keepsCalls {k : Kernel S} {slot : Nat} (unblocked : k.pending slot = 0)
    (result : BitVec 32) : KeepsCalls k (setResult k slot result) := by
  intro other blocked
  have different : other ≠ slot := by
    rintro rfl
    exact blocked unblocked
  exact ⟨rfl, update_of_ne different _ _, rfl, rfl, rfl⟩

theorem entered_keepsCalls {k : Kernel S} (unblocked : k.pending k.active = 0) (window : Memory)
    (saved : Context) (poll : Poll) : KeepsCalls k (entered k window saved poll) := by
  obtain ⟨terminal, interrupted, cancelRead, clock, same, _⟩ :=
    entered_changes k window saved poll
  rw [same]
  intro other blocked
  have different : other ≠ k.active := by
    rintro rfl
    exact blocked unblocked
  exact ⟨rfl, update_of_ne different _ _, rfl, rfl, rfl⟩

theorem Exited.keepsCalls {before after : Kernel S} {code : Option (BitVec 32)}
    (exited : Exited before after code) : KeepsCalls before after := by
  intro slot blocked
  rw [exited.pending] at blocked ⊢
  have other : slot ≠ before.active := by
    rintro rfl
    exact blocked (update_self _ _ _)
  rw [exited.contexts, exited.arg1, exited.arg2, exited.arg3, update_of_ne other]
  exact ⟨rfl, rfl, rfl, rfl, rfl⟩

variable (fileSystem) in
theorem ownCall_keepsCalls {k : Kernel S} (table : TableInvariant k)
    (running : runnable k k.active = true) (saved : Context) :
    KeepsCalls k (ownCall fileSystem k saved).2 ∧
      (ownCall fileSystem k saved).2.pending k.active = 0 := by
  have effect := ownCall_effect fileSystem k saved
  refine ⟨effect_keepsCalls (fun _ => table.runningUnblocked running) effect, ?_⟩
  rcases effect_pending fileSystem effect k.active with same | none
  · exact same.trans (table.runningUnblocked running)
  · exact none

theorem pendingNotExec {k : Kernel S} (table : TableInvariant k)
    (pending : k.pending k.active ≠ 0) : (k.pending k.active).toNat ≠ 11 := by
  rcases (table.calls k.active table.activeSlot).resolve_left pending with three | seven
  · rw [three]
    decide
  · rw [seven]
    decide

variable (fileSystem) in
theorem performPending_keepsCalls {k : Kernel S} (table : TableInvariant k)
    (pending : k.pending k.active ≠ 0) :
    KeepsCalls k (performPending fileSystem k k.active).2 :=
  effect_keepsCalls (fun exec => absurd exec (pendingNotExec table pending))
    (perform_effect fileSystem k _ _ _ _)

theorem entered_contexts (k : Kernel S) (window : Memory) (saved : Context) (poll : Poll) :
    (entered k window saved poll).contexts (entered k window saved poll).active = saved := by
  obtain ⟨terminal, interrupted, cancelRead, clock, same, _⟩ :=
    entered_changes k window saved poll
  rw [same]
  exact update_self _ _ _

theorem step_saved {k after : Kernel S} (table : TableInvariant k) (few : forks after < 2 ^ 31)
    (saved : CallSaved k) (step : Step fileSystem k after) : CallSaved after := by
  cases step with
  | @call window context poll running done =>
      have ready := (entered_runnable k window context poll).trans running
      have kept := tableInvariant_entered table window context poll
      obtain ⟨keeps, none⟩ := ownCall_keepsCalls fileSystem kept ready context
      have performed := (entered_keepsCalls (table.runningUnblocked running) window context
        poll).trans keeps
      unfold SymphonyPlus.finishCall
      split
      · refine (performed.trans (setResult_keepsCalls ?_ _)).saved saved
        rw [ownCall_active]
        exact none
      · exact performed.saved saved
  | @block window context poll running again call =>
      have ready := (entered_runnable k window context poll).trans running
      have kept := tableInvariant_entered table window context poll
      have before : forks (entered k window context poll) < 2 ^ 31 := by
        rw [entered_forks]
        exact Nat.lt_of_le_of_lt (step_forks fileSystem (.block running again call)) few
      have same := (perform_again fileSystem kept before call again).1
      have performed := ((entered_keepsCalls (table.runningUnblocked running) window context
        poll).trans (ownCall_keepsCalls fileSystem kept ready context).1).saved
        saved
      intro slot inside blocked
      by_cases here : slot = (ownCall fileSystem (entered k window context poll) context).2.active
      · subst here
        have own : (ownCall fileSystem (entered k window context poll) context).2.contexts
            (ownCall fileSystem (entered k window context poll) context).2.active = context := by
          rw [ownCall_active]
          unfold ownCall
          rw [same.contexts]
          exact entered_contexts k window context poll
        simp only [blockActive, Kernel.setCurrent, update_self, own, and_self]
      · simp only [blockActive, Kernel.setCurrent, update_of_ne here] at blocked ⊢
        exact performed slot inside blocked
  | @cancel window context poll running marked =>
      have ready := (entered_runnable k window context poll).trans running
      have kept := tableInvariant_entered table window context poll
      have exit : Exited _ (exitInterrupted fileSystem _) none := exitInterrupted_dead kept ready
      refine (((entered_keepsCalls (table.runningUnblocked running) window context poll).trans
        exit.keepsCalls).trans (setResult_keepsCalls ?_ 0)).saved saved
      rw [exit.pending, update_self]
  | poll poll =>
      obtain ⟨terminal, interrupted, cancelRead, clock, same, _⟩ := pollIo_changes k poll
      rw [same]
      exact saved
  | interrupt alive marked => exact (exitInterrupted_exited fileSystem table).keepsCalls.saved saved
  | resume pending done =>
      have performed := (performPending_keepsCalls fileSystem table pending).saved
        saved
      intro slot inside blocked
      have other : slot ≠ k.active := by
        rintro rfl
        exact blocked (update_self _ _ _)
      simp only [resumeCurrent, setResult, Kernel.setCurrent, update_of_ne other] at blocked ⊢
      exact performed slot inside blocked
  | remain pending again => exact (performPending_keepsCalls fileSystem table pending).saved saved
  | activate inside occupied =>
      obtain ⟨_, _, _, pending, arg1, arg2, arg3, contexts, _⟩ := activate_table k _
      intro slot inside blocked
      rw [pending] at blocked
      rw [pending, contexts, arg1, arg2, arg3]
      exact saved slot inside blocked

/-! What the events of a step say about the state after it. -/

/-- The event a call adds to the history. -/
def Performed (k : Kernel S) (nr a b : BitVec 32) (performed : BitVec 32 × Kernel S) :
    Event → Prop
  | .forked parent _ _ => nr = 2 ∧ parent = (k.process k.active).pid
  | .exited pid slot code =>
      nr = 1 ∧ pid = (k.process k.active).pid ∧ slot = k.active ∧ code = some a
  | .reaped pid _ status father =>
      nr = 7 ∧ pid = performed.1 ∧ father = (k.process k.active).pid ∧ (a = -1 ∨ a = pid) ∧
        (b = 0 ∨ read32 performed.2.window b.toNat = status) ∧
        ∃ number, 1 ≤ number ∧ number ≤ 1 + forks k ∧ pid = BitVec.ofNat 32 number
  | .noted _ => False

variable (fileSystem) in
theorem perform_events {k : Kernel S} (table : TableInvariant k) (nr a b c : BitVec 32) :
    (perform fileSystem k nr a b c).2.history = k.history ∨
    ∃ event, (perform fileSystem k nr a b c).2.history = event :: k.history ∧
      Performed k nr a b (perform fileSystem k nr a b c) event := by
  by_cases wait : nr = 7
  · subst wait
    have waits : perform fileSystem k 7 a b c =
        if b ≠ 0 ∧ !userRange b 4 then (-EFAULT, k) else waitCurrent k a b c := rfl
    rw [waits]
    split
    · exact Or.inl rfl
    · rcases waitCurrent_result table a b c with ⟨same, _⟩ |
        ⟨slot, inside, occupied, zombie, father, asked, reaped⟩
      · exact Or.inl (by rw [same])
      · rw [reaped]
        refine Or.inr ⟨_, rfl, rfl, ?_, ?_, ?_, ?_, ?_⟩
        · rw [table.taskOf inside]
        · rw [table.currentTask]
        · rw [table.taskOf inside]
          exact asked
        · by_cases zero : b = 0
          · exact Or.inl zero
          · refine Or.inr ?_
            simp only [reapSlot, ne_eq, zero, not_false_eq_true, if_true, read32_write32_same]
        · rw [table.taskOf inside]
          exact table.pids slot inside occupied
  · by_cases exit : nr = 1
    · subst exit
      have exits : perform fileSystem k 1 a b c =
          (0, recordExit (exitCurrent fileSystem k a) (some a)) := rfl
      rw [exits]
      obtain ⟨self, _⟩ :=
        exitCurrent_process fileSystem table.pointers table.current table.ownFather a
      have recorded : (exitCurrent fileSystem k a).currentTask = _ :=
        (congrArg (exitCurrent fileSystem k a).process table.current).trans self
      refine Or.inr ⟨_, rfl, rfl, ?_, rfl, rfl⟩
      rw [recorded]
    · have number {value : Nat} (small : value < 2 ^ 32) (call : nr.toNat = value) :
          nr = BitVec.ofNat 32 value := by
        rw [← call, BitVec.ofNat_toNat, BitVec.setWidth_eq]
      have effect := perform_effect fileSystem k nr a b c
      generalize perform fileSystem k nr a b c = performed at effect
      obtain ⟨result, after⟩ := performed
      cases effect with
      | same same window => exact Or.inl same.history
      | exit call code => exact absurd (number (by decide) call) exit
      | fork call free =>
          refine Or.inr ⟨_, rfl, number (by decide) call, ?_⟩
          rw [table.currentTask]
      | reap call inside child zombie => exact absurd (number (by decide) call) wait
      | exec call contexts same => exact Or.inl same.history

/-- What an event says about the state right after its step: an exit is a call with that code or
an interruption; a reaping returns the pid to the father and stores the status for it. -/
def Explained (after : Kernel S) : Event → Prop
  | .forked parent _ _ => parent = (after.process after.active).pid
  | .exited pid slot code =>
      pid = (after.process after.active).pid ∧ slot = after.active ∧
        match code with
        | some code => (after.contexts after.active).regs 2 = code
        | none => after.interrupted after.active = true
  | .reaped pid _ status father =>
      father = (after.process after.active).pid ∧
        (after.contexts after.active).regs 1 = pid ∧
        ((after.contexts after.active).regs 2 = -1 ∨
          (after.contexts after.active).regs 2 = pid) ∧
        ((after.contexts after.active).regs 3 = 0 ∨
          read32 after.window ((after.contexts after.active).regs 3).toNat = status)
  | .noted entry => entry.pid = (after.process after.active).pid

def pidLimit : Nat := 0x6fffffff

theorem below_pidLimit {number count : Nat} (few : count < pidLimit) (bounded : number ≤ 1 + count) :
    BitVec.ofNat 32 number ≠ execSentinel := by
  unfold pidLimit at few
  intro same
  have value := congrArg BitVec.toNat same
  rw [BitVec.toNat_ofNat] at value
  change number % 2 ^ 32 = 0x70000000 at value
  omega

theorem setReg_other (context : Context) {index : Fin 16} (other : index ≠ 1)
    (value : BitVec 32) : (context.setReg 1 value).regs index = context.regs index :=
  update_of_ne other _ _

theorem setReg_result (context : Context) (value : BitVec 32) :
    (context.setReg 1 value).regs 1 = value := by
  simp [Context.setReg]

theorem finishCall_same (performed : BitVec 32 × Kernel S) :
    (finishCall performed).active = performed.2.active ∧
      (finishCall performed).process = performed.2.process ∧
      (finishCall performed).window = performed.2.window ∧
      (finishCall performed).history = performed.2.history := by
  unfold finishCall
  split <;> exact ⟨rfl, rfl, rfl, rfl⟩

variable (fileSystem) in
theorem ownCall_pid {k : Kernel S} (table : TableInvariant k)
    (running : runnable k k.active = true) (saved : Context) :
    ((ownCall fileSystem k saved).2.process k.active).pid = (k.process k.active).pid :=
  (effect_process fileSystem table (fun _ => table.runningUnblocked running)
    (ownCall_effect fileSystem k saved)).1

variable (fileSystem) in
theorem call_events {k : Kernel S} (table : TableInvariant k)
    (running : runnable k k.active = true) (saved : Context)
    (entry : k.contexts k.active = saved) (few : forks k < pidLimit) :
    ∃ newer, (finishCall (ownCall fileSystem k saved)).history = newer ++ k.history ∧
      ∀ event ∈ newer, Explained (finishCall (ownCall fileSystem k saved)) event := by
  have effect := ownCall_effect fileSystem k saved
  obtain ⟨place, process, window, history⟩ := finishCall_same (ownCall fileSystem k saved)
  have active := place.trans (ownCall_active fileSystem k saved)
  have pid := ownCall_pid fileSystem table running saved
  have registers (notExec : (saved.regs 1).toNat ≠ 11) {index : Fin 16} (other : index ≠ 1) :
      ((finishCall (ownCall fileSystem k saved)).contexts k.active).regs index =
        saved.regs index := by
    have context : (ownCall fileSystem k saved).2.contexts k.active = saved :=
      (effect_context fileSystem table notExec effect).trans entry
    unfold finishCall
    split
    · rw [ownCall_active, setResult]
      simp only [update_self, setReg_other _ other, context]
    · rw [context]
  rcases perform_events fileSystem table (saved.regs 1) (saved.regs 2) (saved.regs 3)
    (saved.regs 4) with same | ⟨event, same, performed⟩
  · refine ⟨[], history.trans same, fun event inside => by cases inside⟩
  · refine ⟨[event], history.trans same, fun other inside => ?_⟩
    rw [List.mem_singleton.mp inside]
    cases event with
    | forked parent child slot =>
        obtain ⟨_, rfl⟩ := performed
        rw [Explained, active, process, pid]
    | exited dead slot code =>
        obtain ⟨call, rfl, rfl, rfl⟩ := performed
        refine ⟨?_, active.symm, ?_⟩
        · rw [active, process, pid]
        · rw [active]
          exact registers (by rw [call]; decide) (by decide)
    | reaped dead slot status father =>
        obtain ⟨call, result, rfl, asked, stored, number, least, bounded, known⟩ := performed
        have notExec : (saved.regs 1).toNat ≠ 11 := by
          rw [call]
          decide
        have kept : dead ≠ execSentinel := by
          rw [known]
          exact below_pidLimit few bounded
        refine ⟨?_, ?_, ?_, ?_⟩
        · rw [active, process, pid]
        · rw [active]
          unfold finishCall
          rw [if_pos (by rw [ownCall, ← result]; exact kept), ownCall_active, setResult]
          simp only [update_self, setReg_result]
          exact result.symm
        · rw [active, registers notExec (by decide)]
          exact asked
        · rw [active, registers notExec (by decide), window]
          exact stored
    | noted entry => exact performed.elim

theorem entered_note (k : Kernel S) (window : Memory) (saved : Context) (poll : Poll) :
    (entered k window saved poll).history =
        .noted { pid := k.currentTask.pid, window, saved } :: k.history ∧
      (entered k window saved poll).process = k.process ∧
      (entered k window saved poll).active = k.active := by
  obtain ⟨terminal, interrupted, cancelRead, clock, same, _⟩ :=
    entered_changes k window saved poll
  rw [same]
  exact ⟨rfl, rfl, rfl⟩

variable (fileSystem) in
theorem resume_events {k : Kernel S} (table : TableInvariant k) (call : CallSaved k)
    (few : forks (resumeCurrent (performPending fileSystem k k.active).2 k.active
      (performPending fileSystem k k.active).1) < pidLimit)
    (pending : k.pending k.active ≠ 0) :
    ∃ newer, (resumeCurrent (performPending fileSystem k k.active).2 k.active
        (performPending fileSystem k k.active).1).history = newer ++ k.history ∧
      ∀ event ∈ newer, Explained (resumeCurrent (performPending fileSystem k k.active).2 k.active
        (performPending fileSystem k k.active).1) event := by
  have kept := tableInvariant_performPending fileSystem table
    (Nat.lt_trans few (by decide)) pending
  have place := performPending_active fileSystem k k.active
  have rescheduled := resumeCurrent_rescheduled kept.current
    (performPending fileSystem k k.active).1
  rw [place] at rescheduled
  obtain ⟨number, first, second, _⟩ := call k.active table.activeSlot pending
  have context : (performPending fileSystem k k.active).2.contexts k.active =
      k.contexts k.active :=
    effect_context fileSystem table (pendingNotExec table pending)
      (perform_effect fileSystem k _ _ _ _)
  have own : ((resumeCurrent (performPending fileSystem k k.active).2 k.active
      (performPending fileSystem k k.active).1).process k.active).pid =
      (k.process k.active).pid := by
    have own := rescheduled.own
    rw [place] at own
    rw [own]
    exact (performPending_process fileSystem table pending).1
  have active := rescheduled.active.trans place
  have resumed : (resumeCurrent (performPending fileSystem k k.active).2 k.active
      (performPending fileSystem k k.active).1).contexts k.active =
      (k.contexts k.active).setReg 1 (performPending fileSystem k k.active).1 := by
    rw [← context]
    exact update_self _ _ _
  rcases perform_events fileSystem table (k.pending k.active) (k.arg1 k.active) (k.arg2 k.active)
    (k.arg3 k.active) with same | ⟨event, same, performed⟩
  · exact ⟨[], rescheduled.history.trans same, fun event inside => by cases inside⟩
  · refine ⟨[event], rescheduled.history.trans same, fun other inside => ?_⟩
    rw [List.mem_singleton.mp inside]
    have calls := (table.calls k.active table.activeSlot).resolve_left pending
    cases event with
    | forked parent child slot =>
        exfalso
        rcases calls with three | seven
        · exact absurd (three.symm.trans performed.1) (by decide)
        · exact absurd (seven.symm.trans performed.1) (by decide)
    | exited dead slot code =>
        exfalso
        rcases calls with three | seven
        · exact absurd (three.symm.trans performed.1) (by decide)
        · exact absurd (seven.symm.trans performed.1) (by decide)
    | reaped dead slot status father =>
        obtain ⟨_, result, rfl, asked, stored, _⟩ := performed
        refine ⟨?_, ?_, ?_, ?_⟩
        · rw [active, own]
        · rw [active, resumed, setReg_result]
          exact result.symm
        · rw [active, resumed, setReg_other _ (by decide), first]
          exact asked
        · rw [active, resumed, setReg_other _ (by decide), second]
          exact stored
    | noted entry => exact performed.elim

/-- The events of a step, with what they say about the state after it. -/
theorem step_events {k after : Kernel S} (table : TableInvariant k) (call : CallSaved k)
    (few : forks after < pidLimit) (step : Step fileSystem k after) :
    ∃ newer, after.history = newer ++ k.history ∧ ∀ event ∈ newer, Explained after event := by
  have below : forks after < 2 ^ 31 := Nat.lt_trans few (by decide)
  have start := Nat.lt_of_le_of_lt (step_forks fileSystem step) few
  have noted {after : Kernel S} (newer : List Event) {window : Memory} {saved : Context}
      {poll : Poll}
      (history : after.history = newer ++ (entered k window saved poll).history)
      (explained : ∀ event ∈ newer, Explained after event)
      (own : (after.process after.active).pid = (k.process k.active).pid) :
      ∃ newer, after.history = newer ++ k.history ∧ ∀ event ∈ newer, Explained after event := by
    refine ⟨newer ++ [.noted { pid := k.currentTask.pid, window, saved }], ?_, ?_⟩
    · rw [history, (entered_note k window saved poll).1]
      simp
    · intro event inside
      rcases List.mem_append.mp inside with inside | inside
      · exact explained event inside
      · rw [List.mem_singleton.mp inside, Explained, own, table.currentTask]
  cases step with
  | @call window saved poll running done =>
      have ready := (entered_runnable k window saved poll).trans running
      have kept := tableInvariant_entered table window saved poll
      obtain ⟨_, process, active⟩ := entered_note k window saved poll
      obtain ⟨newer, history, explained⟩ := call_events fileSystem kept ready saved
        (entered_contexts k window saved poll) (by rw [entered_forks]; exact start)
      refine noted newer history explained ?_
      obtain ⟨place, processes, _, _⟩ :=
        finishCall_same (ownCall fileSystem (entered k window saved poll) saved)
      rw [place, processes, ownCall_active, ownCall_pid fileSystem kept ready, process, active]
  | @block window saved poll running again call =>
      have ready := (entered_runnable k window saved poll).trans running
      have kept := tableInvariant_entered table window saved poll
      obtain ⟨_, process, active⟩ := entered_note k window saved poll
      have before : forks (entered k window saved poll) < 2 ^ 31 := by
        rw [entered_forks]
        exact Nat.lt_trans start (by decide)
      have same := (perform_again fileSystem kept before call again).1
      have performed := tableInvariant_perform kept ready below
      have rescheduled := blockActive_rescheduled performed.current (saved.regs 1) (saved.regs 2)
        (saved.regs 3) (saved.regs 4)
      refine noted [] (rescheduled.history.trans same.history)
        (fun event inside => by cases inside) ?_
      have own := rescheduled.own
      rw [same.active] at own
      have place := rescheduled.active.trans same.active
      rw [ownCall]
      rw [place, own, (same.process _).1, process, active]
  | @cancel window saved poll running marked =>
      have ready := (entered_runnable k window saved poll).trans running
      have kept := tableInvariant_entered table window saved poll
      obtain ⟨_, process, active⟩ := entered_note k window saved poll
      have exit : Exited (entered k window saved poll)
        (exitInterrupted fileSystem (entered k window saved poll)) none :=
        exitInterrupted_dead kept ready
      refine noted [_] exit.history (fun event inside => ?_) ?_
      · rw [List.mem_singleton.mp inside]
        exact ⟨exit.pid.symm, rfl, marked⟩
      · exact exit.pid.trans (by rw [process, active])
  | poll poll =>
      have same := sameTable_pollIo k poll
      exact ⟨[], same.history, fun event inside => by cases inside⟩
  | interrupt alive marked =>
      have exit := exitInterrupted_exited fileSystem table
      refine ⟨[_], exit.history, fun event inside => ?_⟩
      rw [List.mem_singleton.mp inside]
      exact ⟨exit.pid.symm, rfl, marked⟩
  | resume pending done => exact resume_events fileSystem table call few pending
  | remain pending again =>
      have calls := (table.calls k.active table.activeSlot).resolve_left pending
      have same := (perform_again fileSystem table (Nat.lt_trans start (by decide)) calls again).1
      exact ⟨[], same.history, fun event inside => by cases inside⟩
  | activate inside occupied =>
      exact ⟨[], (activate_table k _).2.2.2.2.2.2.2.2, fun event inside => by cases inside⟩

end Waits

end SymphonyPlus
