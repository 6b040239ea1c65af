import SymphonyPlus.Process

/-!
What a system call can do to the process table, and the invariant that every step
of the dispatcher keeps.
-/

namespace SymphonyPlus

open ByteMemory Function

section ProcessTable

variable {S : Type}

/-- The table is the same, except for data of the current task that identifies nothing. -/
structure SameTable (before after : Kernel S) : Prop where
  others : ∀ index, index ≠ before.current → after.process index = before.process index
  pid : after.currentTask.pid = before.currentTask.pid
  father : after.currentTask.father = before.currentTask.father
  state : after.currentTask.state = before.currentTask.state
  exitCode : after.currentTask.exitCode = before.currentTask.exitCode
  task : after.task = before.task
  current : after.current = before.current
  occupied : after.occupied = before.occupied
  pending : after.pending = before.pending
  arg1 : after.arg1 = before.arg1
  arg2 : after.arg2 = before.arg2
  arg3 : after.arg3 = before.arg3
  active : after.active = before.active
  nextPid : after.nextPid = before.nextPid
  history : after.history = before.history
  contexts : after.contexts = before.contexts
  snapshots : after.snapshots = before.snapshots
  marks : ∀ slot, slot ∉ slots → slot ≠ before.active →
    after.interrupted slot = before.interrupted slot ∧
      after.deferred slot = before.deferred slot ∧
      after.cancelRead slot = before.cancelRead slot

theorem SameTable.refl (k : Kernel S) : SameTable k k := by
  constructor <;> intros <;> first | rfl | exact ⟨rfl, rfl, rfl⟩

theorem SameTable.trans {first second third : Kernel S} (left : SameTable first second)
    (right : SameTable second third) : SameTable first third where
  others := fun index different =>
    (right.others index (left.current ▸ different)).trans (left.others index different)
  pid := right.pid.trans left.pid
  father := right.father.trans left.father
  state := right.state.trans left.state
  exitCode := right.exitCode.trans left.exitCode
  task := right.task.trans left.task
  current := right.current.trans left.current
  occupied := right.occupied.trans left.occupied
  pending := right.pending.trans left.pending
  arg1 := right.arg1.trans left.arg1
  arg2 := right.arg2.trans left.arg2
  arg3 := right.arg3.trans left.arg3
  active := right.active.trans left.active
  nextPid := right.nextPid.trans left.nextPid
  history := right.history.trans left.history
  contexts := right.contexts.trans left.contexts
  snapshots := right.snapshots.trans left.snapshots
  marks := fun slot outside other => by
    obtain ⟨interrupted, deferred, cancelRead⟩ := left.marks slot outside other
    obtain ⟨rightInterrupted, rightDeferred, rightCancelRead⟩ :=
      right.marks slot outside (left.active ▸ other)
    exact ⟨rightInterrupted.trans interrupted, rightDeferred.trans deferred,
      rightCancelRead.trans cancelRead⟩

/-- Two states that differ only in data of the current task and outside the table. -/
theorem sameTable_setCurrent (k : Kernel S) (task : Task) (pid : task.pid = k.currentTask.pid)
    (father : task.father = k.currentTask.father) (state : task.state = k.currentTask.state)
    (exitCode : task.exitCode = k.currentTask.exitCode) : SameTable k (k.setCurrent task) := by
  have written : (k.setCurrent task).currentTask = task := update_self _ _ _
  constructor
  · intro index different
    exact update_of_ne different _ _
  · rw [written, pid]
  · rw [written, father]
  · rw [written, state]
  · rw [written, exitCode]
  all_goals intros; first | rfl | exact ⟨rfl, rfl, rfl⟩

theorem sameTable_setFiles (k : Kernel S) (fs : S) (files : Files) :
    SameTable k (k.setFiles fs files) :=
  { sameTable_setCurrent k { k.currentTask with files := files } rfl rfl rfl rfl with }

theorem sameTable_fsCall (k : Kernel S) (call : CallResult S) :
    SameTable k (fsCall k call).2 :=
  sameTable_setFiles k call.fs call.files

theorem sameTable_fillCall (k : Kernel S) (address : BitVec 32) {count : Nat}
    (call : FillResult S count) : SameTable k (fillCall k address call).2 :=
  { sameTable_setFiles k call.fs call.files with }

theorem sameTable_ttyReadUser (k : Kernel S) (buf count : BitVec 32) :
    SameTable k (ttyReadUser k buf count).2 := by
  unfold ttyReadUser
  split
  · exact { SameTable.refl k with
      marks := fun _ _ other => ⟨rfl, rfl, update_of_ne other _ _⟩ }
  · split
    · exact SameTable.refl k
    · split
      · exact SameTable.refl k
      · exact { SameTable.refl k with }

variable (fileSystem : FileSystem S)

theorem sameTable_performRead (k : Kernel S) (a b c : BitVec 32) :
    SameTable k (performRead fileSystem k a b c).2 := by
  unfold performRead
  split
  · exact SameTable.refl k
  · split
    · exact SameTable.refl k
    · split
      · exact sameTable_ttyReadUser k b c
      · exact sameTable_fillCall k b _

theorem sameTable_performBreak (k : Kernel S) (a : BitVec 32) :
    SameTable k (performBreak k a).2 := by
  unfold performBreak
  dsimp only
  split
  · exact sameTable_setCurrent k _ rfl rfl rfl rfl
  · exact SameTable.refl k

theorem sameTable_performForeground (k : Kernel S) (a : BitVec 32) :
    SameTable k (performForeground k a).2 := by
  unfold performForeground
  split
  · exact SameTable.refl k
  · dsimp only
    split
    · exact { SameTable.refl k with
        marks := fun _ outside other =>
          ⟨if_neg fun marked => outside marked.1, rfl, update_of_ne other _ _⟩ }
    · exact { SameTable.refl k with }

/-- The bytes of the window that a call may write, an image that replaces it apart. -/
def ownBuffer (nr b c : BitVec 32) (address : Nat) : Prop :=
  b.toNat ≤ address ∧
    ((nr.toNat = 3 ∧ address < b.toNat + c.toNat) ∨
      (nr.toNat = 7 ∧ b ≠ 0 ∧ address < b.toNat + 4) ∨
      ((nr.toNat = 18 ∨ nr.toNat = 28) ∧ address < b.toNat + statSize.toNat))

def Untouched (nr b c : BitVec 32) (before after : Memory) : Prop :=
  AgreeOn (fun address => ¬ownBuffer nr b c address) before after

theorem untouched_refl (nr b c : BitVec 32) (window : Memory) : Untouched nr b c window window :=
  AgreeOn.refl _ _

theorem untouched_writeBytes {nr b c : BitVec 32} {size : Nat} (window : Memory)
    {data : List (BitVec 8)} (bounded : data.length ≤ size)
    (inside : ∀ address, b.toNat ≤ address → address < b.toNat + size →
      ownBuffer nr b c address) : Untouched nr b c window (writeBytes window b.toNat data) := by
  intro address outside
  refine (writeBytes_outside window b.toNat address data ?_).symm
  by_contra within
  exact outside (inside address (by omega) (by omega))

inductive TableEffect (k : Kernel S) (nr b c : BitVec 32) : Kernel S → Prop
  | same {after : Kernel S} (same : SameTable k after)
      (window : Untouched nr b c k.window after.window) : TableEffect k nr b c after
  | exit (call : nr.toNat = 1) (code : BitVec 32) :
      TableEffect k nr b c (recordExit (exitCurrent fileSystem k code) (some code))
  | fork (call : nr.toNat = 2) {slot : Nat} (free : freeSlot k = some slot) :
      TableEffect k nr b c (forkInto fileSystem k slot)
  | reap (call : nr.toNat = 7) {i : Nat} {pid : BitVec 32} (inside : i ∈ slots)
      (child : waitMatches k pid i = true) (zombie : (k.taskOf i).state = .zombie) :
      TableEffect k nr b c (reapSlot k i b)
  | exec (call : nr.toNat = 11) {after : Kernel S}
      (contexts : ∀ slot, slot ≠ k.active → after.contexts slot = k.contexts slot)
      (same : SameTable k { after with contexts := k.contexts }) : TableEffect k nr b c after

theorem TableEffect.refl (k : Kernel S) (nr b c : BitVec 32) :
    TableEffect fileSystem k nr b c k :=
  .same (SameTable.refl k) (untouched_refl nr b c k.window)

theorem fsCall_effect (k : Kernel S) (nr b c : BitVec 32) (call : CallResult S) :
    TableEffect fileSystem k nr b c (fsCall k call).2 :=
  .same (sameTable_fsCall k call) (untouched_refl nr b c k.window)

theorem pathCall_effect (k : Kernel S) (nr a b c : BitVec 32)
    (call : List (BitVec 8) → CallResult S) :
    TableEffect fileSystem k nr b c (pathCall k a call).2 := by
  unfold pathCall
  split
  · exact .refl fileSystem k nr b c
  · exact fsCall_effect fileSystem k nr b c _

theorem fillCall_effect (k : Kernel S) {nr b c : BitVec 32} {count : Nat}
    (call : FillResult S count) (inside : ∀ address, b.toNat ≤ address →
      address < b.toNat + count → ownBuffer nr b c address) :
    TableEffect fileSystem k nr b c (fillCall k b call).2 :=
  .same (sameTable_fillCall k b call) (untouched_writeBytes k.window call.bounded inside)

theorem performRead_effect (k : Kernel S) {nr : BitVec 32} (call : nr.toNat = 3)
    (a b c : BitVec 32) :
    TableEffect fileSystem k nr b c (performRead fileSystem k a b c).2 := by
  have buffer (address : Nat) (low : b.toNat ≤ address) (high : address < b.toNat + c.toNat) :
      ownBuffer nr b c address := ⟨low, Or.inl ⟨call, high⟩⟩
  unfold performRead
  split
  · exact .refl fileSystem k nr b c
  · split
    · exact .refl fileSystem k nr b c
    · split
      · refine .same (sameTable_ttyReadUser k b c) ?_
        unfold ttyReadUser
        split
        · exact untouched_refl nr b c k.window
        · split
          · exact untouched_refl nr b c k.window
          · split
            · exact untouched_refl nr b c k.window
            · exact untouched_writeBytes k.window (takeInput_length k.terminal _ _) buffer
      · exact fillCall_effect fileSystem k _ buffer

theorem performExec_effect (k : Kernel S) {nr : BitVec 32} (call : nr.toNat = 11)
    (a b c : BitVec 32) :
    TableEffect fileSystem k nr b c (performExec fileSystem k a b c).2 := by
  unfold performExec
  split
  · exact .refl fileSystem k nr b c
  · split
    · exact .same (sameTable_setFiles k _ _) (untouched_refl nr b c k.window)
    · rename_i fs files window context endData startStack _
      have breaks := sameTable_setCurrent (k.setFiles fs files)
        { (k.setFiles fs files).currentTask with
          endData := endData, brk := endData, startStack := startStack } rfl rfl rfl rfl
      exact .exec call (fun slot other => update_of_ne other _ _)
        { (sameTable_setFiles k fs files).trans breaks with contexts := rfl }

theorem waitCurrent_effect (k : Kernel S) {nr : BitVec 32} (call : nr.toNat = 7)
    (pid b options c : BitVec 32) :
    TableEffect fileSystem k nr b c (waitCurrent k pid b options).2 := by
  unfold waitCurrent
  split
  · exact .refl fileSystem k nr b c
  · split
    · exact .refl fileSystem k nr b c
    · split
      · rename_i i found
        have chosen := List.find?_some found
        rw [Bool.and_eq_true, decide_eq_true_eq] at chosen
        exact .reap call (List.mem_of_find?_eq_some found) chosen.1 chosen.2
      · split
        · exact .refl fileSystem k nr b c
        · exact .refl fileSystem k nr b c

theorem forkCurrent_effect (k : Kernel S) {nr : BitVec 32} (call : nr.toNat = 2)
    (b c : BitVec 32) : TableEffect fileSystem k nr b c (forkCurrent fileSystem k).2 := by
  unfold forkCurrent
  split
  · exact .refl fileSystem k nr b c
  · split
    · exact .refl fileSystem k nr b c
    · rename_i slot free
      exact .fork call free

theorem perform_effect (k : Kernel S) (nr a b c : BitVec 32) :
    TableEffect fileSystem k nr b c (perform fileSystem k nr a b c).2 := by
  have statBuffer (call : nr.toNat = 18 ∨ nr.toNat = 28) (address : Nat)
      (low : b.toNat ≤ address) (high : address < b.toNat + statSize.toNat) :
      ownBuffer nr b c address := ⟨low, Or.inr (Or.inr ⟨call, high⟩)⟩
  unfold perform
  dsimp only
  split
  · rename_i call
    exact .exit call a
  · rename_i call
    exact forkCurrent_effect fileSystem k call b c
  · rename_i call
    exact performRead_effect fileSystem k call a b c
  · split
    · exact .refl fileSystem k nr b c
    · exact fsCall_effect fileSystem k nr b c _
  · exact pathCall_effect fileSystem k nr a b c _
  · exact fsCall_effect fileSystem k nr b c _
  · rename_i call
    split
    · exact .refl fileSystem k nr b c
    · exact waitCurrent_effect fileSystem k call a b c c
  · exact pathCall_effect fileSystem k nr a b c _
  · rename_i call
    exact performExec_effect fileSystem k call a b c
  · exact pathCall_effect fileSystem k nr a b c _
  · exact pathCall_effect fileSystem k nr a b c _
  · rename_i call
    split
    · exact .refl fileSystem k nr b c
    · split
      · exact .refl fileSystem k nr b c
      · exact fillCall_effect fileSystem k _ (statBuffer (Or.inl call))
  · exact fsCall_effect fileSystem k nr b c _
  · exact .refl fileSystem k nr b c
  · rename_i call
    split
    · exact .refl fileSystem k nr b c
    · exact fillCall_effect fileSystem k _ (statBuffer (Or.inr call))
  · exact fsCall_effect fileSystem k nr b c _
  · split
    · exact .refl fileSystem k nr b c
    · split
      · exact fsCall_effect fileSystem k nr b c _
      · exact .refl fileSystem k nr b c
  · exact pathCall_effect fileSystem k nr a b c _
  · exact pathCall_effect fileSystem k nr a b c _
  · exact fsCall_effect fileSystem k nr b c _
  · refine .same (sameTable_performBreak k a) ?_
    unfold performBreak
    dsimp only
    split <;> exact untouched_refl nr b c k.window
  · exact fsCall_effect fileSystem k nr b c _
  · exact .refl fileSystem k nr b c
  · exact .refl fileSystem k nr b c
  · exact .refl fileSystem k nr b c
  · exact .refl fileSystem k nr b c
  · refine .same (sameTable_performForeground k a) ?_
    unfold performForeground
    split
    · exact untouched_refl nr b c k.window
    · dsimp only
      split <;> exact untouched_refl nr b c k.window
  · dsimp only
    split
    · refine .same { SameTable.refl k with
        marks := fun _ _ other => ⟨rfl, update_of_ne other _ _, rfl⟩ } ?_
      exact untouched_refl nr b c k.window
    · exact .refl fileSystem k nr b c
  · refine .same { SameTable.refl k with
      marks := fun _ _ other => ⟨rfl, rfl, update_of_ne other _ _⟩ } ?_
    exact untouched_refl nr b c k.window
  · exact .refl fileSystem k nr b c

/-! The invariant. -/

def isFork : Event → Bool
  | .forked _ _ _ => true
  | _ => false

def forks (k : Kernel S) : Nat := k.history.countP isFork

def NoFiles (files : Files) : Prop :=
  (∀ fd, fd < NR_OPEN → files.filp fd = none) ∧ files.pwd = none ∧ files.root = none ∧
    files.executable = none

/-- The arguments of a wait that is pending were accepted once. -/
def WaitArguments (pid status options : BitVec 32) : Prop :=
  (pid = -1 ∨ pid.sle 0 = false) ∧ (status = 0 ∨ userRange status 4 = true) ∧ options = 0

structure TableInvariant (k : Kernel S) : Prop where
  pointers : ∀ slot ∈ slots, k.task slot = if k.occupied slot then some slot else none
  activeSlot : k.active ∈ slots
  activeOccupied : k.occupied k.active = true
  current : k.current = k.active
  nextPid : k.nextPid = BitVec.ofNat 32 (1 + forks k)
  pids : ∀ slot ∈ slots, k.occupied slot = true →
    ∃ number, 1 ≤ number ∧ number ≤ 1 + forks k ∧
      (k.process slot).pid = BitVec.ofNat 32 number
  distinct : ∀ i ∈ slots, ∀ j ∈ slots, k.occupied i = true → k.occupied j = true →
    (k.process i).pid = (k.process j).pid → i = j
  fathers : ∀ slot ∈ slots, k.occupied slot = true →
    (k.process slot).father ≠ (k.process slot).pid ∧
      ((k.process slot).pid = 1 → (k.process slot).father = 0)
  blocked : ∀ slot ∈ slots, k.pending slot ≠ 0 ↔
    k.occupied slot = true ∧ (k.process slot).state = .interruptible
  calls : ∀ slot ∈ slots, k.pending slot = 0 ∨ k.pending slot = 3 ∨ k.pending slot = 7
  waits : ∀ slot ∈ slots, k.pending slot = 7 →
    WaitArguments (k.arg1 slot) (k.arg2 slot) (k.arg3 slot)
  zombies : ∀ slot ∈ slots, k.occupied slot = true → (k.process slot).state = .zombie →
    NoFiles (k.process slot).files

theorem TableInvariant.taskOf {k : Kernel S} (table : TableInvariant k) {slot : Nat}
    (inside : slot ∈ slots) : k.taskOf slot = k.process slot := by
  unfold Kernel.taskOf
  rw [table.pointers slot inside]
  split <;> rfl

theorem TableInvariant.currentTask {k : Kernel S} (table : TableInvariant k) :
    k.currentTask = k.process k.active := by
  rw [Kernel.currentTask, table.current]

theorem SameTable.process {before after : Kernel S} (same : SameTable before after) (index : Nat) :
    (after.process index).pid = (before.process index).pid ∧
      (after.process index).father = (before.process index).father ∧
      (after.process index).state = (before.process index).state ∧
      (after.process index).exitCode = (before.process index).exitCode := by
  by_cases here : index = before.current
  · have pid := same.pid
    have father := same.father
    have state := same.state
    have exitCode := same.exitCode
    unfold Kernel.currentTask at pid father state exitCode
    rw [same.current] at pid father state exitCode
    subst here
    exact ⟨pid, father, state, exitCode⟩
  · rw [same.others index here]
    exact ⟨rfl, rfl, rfl, rfl⟩

theorem tableInvariant_same {before after : Kernel S} (table : TableInvariant before)
    (same : SameTable before after) (alive : before.currentTask.state = .zombie →
      after.currentTask.files = before.currentTask.files) : TableInvariant after := by
  have count : forks after = forks before := by rw [forks, forks, same.history]
  constructor
  · rw [same.task, same.occupied]
    exact table.pointers
  · rw [same.active]
    exact table.activeSlot
  · rw [same.active, same.occupied]
    exact table.activeOccupied
  · rw [same.current, same.active]
    exact table.current
  · rw [same.nextPid, count]
    exact table.nextPid
  · intro slot inside occupied
    rw [same.occupied] at occupied
    rw [count, (same.process slot).1]
    exact table.pids slot inside occupied
  · intro i insideI j insideJ occupiedI occupiedJ equal
    rw [same.occupied] at occupiedI occupiedJ
    rw [(same.process i).1, (same.process j).1] at equal
    exact table.distinct i insideI j insideJ occupiedI occupiedJ equal
  · intro slot inside occupied
    rw [same.occupied] at occupied
    rw [(same.process slot).1, (same.process slot).2.1]
    exact table.fathers slot inside occupied
  · intro slot inside
    rw [same.pending, same.occupied, (same.process slot).2.2.1]
    exact table.blocked slot inside
  · rw [same.pending]
    exact table.calls
  · rw [same.pending, same.arg1, same.arg2, same.arg3]
    exact table.waits
  · intro slot inside occupied zombie
    rw [same.occupied] at occupied
    rw [(same.process slot).2.2.1] at zombie
    by_cases here : slot = before.current
    · subst here
      have kept := alive zombie
      unfold Kernel.currentTask at kept
      rw [same.current] at kept
      rw [kept]
      exact table.zombies _ inside occupied zombie
    · rw [same.others slot here]
      exact table.zombies slot inside occupied zombie

theorem few_pid {number count : Nat} (few : count < 2 ^ 31) (positive : 1 ≤ number)
    (bounded : number ≤ 1 + count) : BitVec.ofNat 32 number ≠ 0 ∧
      (BitVec.ofNat 32 number).toNat = number := by
  have value : (BitVec.ofNat 32 number).toNat = number := by
    rw [BitVec.toNat_ofNat]
    omega
  refine ⟨fun zero => ?_, value⟩
  rw [zero] at value
  simp at value
  omega

/-! Exits. -/

theorem closeOpen_filp (state : S × Files) {i : Nat} (small : i < NR_OPEN) :
    (closeOpen fileSystem state i).2.filp = update state.2.filp i none := by
  have value : (BitVec.ofNat 32 i).toNat = i := by
    rw [BitVec.toNat_ofNat]
    unfold NR_OPEN at small
    omega
  unfold closeOpen
  cases found : state.2.filp i with
  | none =>
      simp only [Option.isSome_none, Bool.false_eq_true, if_false]
      exact (update_eq_self_iff.mpr found.symm).symm
  | some file =>
      have inRange : ¬NR_OPEN ≤ i := Nat.not_le.mpr small
      simp only [Option.isSome_some, if_true, sysClose, value, inRange, if_false, found]

theorem closeAll_filp (fs : S) (files : Files) :
    ∀ fd, fd < NR_OPEN → (closeAll fileSystem fs files).2.filp fd = none := by
  have run (indices : List Nat) (small : ∀ i ∈ indices, i < NR_OPEN) (state : S × Files)
      (fd : Nat) (closed : fd ∈ indices ∨ state.2.filp fd = none) :
      (indices.foldl (closeOpen fileSystem) state).2.filp fd = none := by
    induction indices generalizing state with
    | nil => exact closed.resolve_left (List.not_mem_nil)
    | cons i indices ih =>
        refine ih (fun other inside => small other (List.mem_cons_of_mem _ inside)) _ ?_
        rw [closeOpen_filp fileSystem state (small i List.mem_cons_self)]
        by_cases here : fd = i
        · exact Or.inr (here ▸ update_self _ _ _)
        · rw [update_of_ne here]
          exact closed.imp (fun inside => (List.mem_cons.mp inside).resolve_left here) id
  intro fd small
  exact run _ (fun i inside => List.mem_range.mp inside) _ fd (Or.inl (List.mem_range.mpr small))

theorem releaseFiles_noFiles (fs : S) (files : Files) :
    NoFiles (releaseFiles fileSystem fs files).2 :=
  ⟨closeAll_filp fileSystem fs files, rfl, rfl, rfl⟩

def exitStatus : Option (BitVec 32) → BitVec 32
  | some code => (code &&& 255) <<< 8
  | none => 2

structure Exited (before after : Kernel S) (code : Option (BitVec 32)) : Prop where
  pid : (after.process before.active).pid = (before.process before.active).pid
  father : (after.process before.active).father = (before.process before.active).father
  state : (after.process before.active).state = .zombie
  exitCode : (after.process before.active).exitCode = exitStatus code
  files : NoFiles (after.process before.active).files
  others : ∀ index, index ≠ before.active → after.process index =
    if index ∈ slots ∧ before.occupied index = true ∧
        (before.process index).father = (before.process before.active).pid then
      { before.process index with father := 1 }
    else before.process index
  task : after.task = before.task
  current : after.current = before.current
  occupied : after.occupied = before.occupied
  pending : after.pending = update before.pending before.active 0
  arg1 : after.arg1 = before.arg1
  arg2 : after.arg2 = before.arg2
  arg3 : after.arg3 = before.arg3
  active : after.active = before.active
  nextPid : after.nextPid = before.nextPid
  history : after.history =
    .exited (before.process before.active).pid before.active code :: before.history
  contexts : after.contexts = before.contexts
  snapshots : after.snapshots = before.snapshots
  window : after.window = before.window
  interrupted : after.interrupted = before.interrupted
  deferred : after.deferred = before.deferred
  cancelRead : after.cancelRead = before.cancelRead

theorem adopt_apply {k : Kernel S} (pointers : ∀ slot ∈ slots,
    k.task slot = if k.occupied slot then some slot else none) (pid : BitVec 32) (index : Nat) :
    adopt k pid index = if index ∈ slots ∧ k.occupied index = true ∧
        (k.process index).father = pid then
      { k.process index with father := 1 }
    else k.process index := by
  have own : (slots.any fun i => k.occupied i && (k.task i).getD i = index) = true ↔
      index ∈ slots ∧ k.occupied index = true := by
    rw [List.any_eq_true]
    constructor
    · rintro ⟨i, inside, both⟩
      rw [Bool.and_eq_true, decide_eq_true_eq, pointers i inside] at both
      rw [if_pos both.1] at both
      rw [← both.2]
      exact ⟨inside, both.1⟩
    · rintro ⟨inside, occupied⟩
      refine ⟨index, inside, ?_⟩
      rw [Bool.and_eq_true, decide_eq_true_eq, pointers index inside, if_pos occupied]
      exact ⟨occupied, rfl⟩
  unfold adopt
  simp only [own, and_assoc]

theorem exitCurrent_process {k : Kernel S}
    (pointers : ∀ slot ∈ slots, k.task slot = if k.occupied slot then some slot else none)
    (current : k.current = k.active)
    (different : (k.process k.active).father ≠ (k.process k.active).pid) (code : BitVec 32) :
    (exitCurrent fileSystem k code).process k.active =
      { k.process k.active with
        files := (releaseFiles fileSystem k.fs (k.process k.active).files).2
        exitCode := (code &&& 255) <<< 8
        state := .zombie } ∧
    ∀ index, index ≠ k.active → (exitCurrent fileSystem k code).process index =
      if index ∈ slots ∧ k.occupied index = true ∧
          (k.process index).father = (k.process k.active).pid then
        { k.process index with father := 1 }
      else k.process index := by
  unfold exitCurrent
  dsimp only
  constructor
  · refine (adopt_apply (by exact pointers) _ _).trans ?_
    simp only [Kernel.setCurrent, Kernel.setFiles, Kernel.currentTask, current, update_self,
      different, and_false, if_false]
  · intro index other
    refine (adopt_apply (by exact pointers) _ _).trans ?_
    simp only [Kernel.setCurrent, Kernel.setFiles, Kernel.currentTask, current, update_self,
      update_of_ne other]

theorem TableInvariant.ownFather {k : Kernel S} (table : TableInvariant k) :
    (k.process k.active).father ≠ (k.process k.active).pid :=
  (table.fathers k.active table.activeSlot table.activeOccupied).1

theorem recordExit_exited {k : Kernel S} (table : TableInvariant k) (code : BitVec 32)
    (unblocked : k.pending k.active = 0) :
    Exited k (recordExit (exitCurrent fileSystem k code) (some code)) (some code) := by
  obtain ⟨self, others⟩ :=
    exitCurrent_process fileSystem table.pointers table.current table.ownFather code
  have own : (recordExit (exitCurrent fileSystem k code) (some code)).process k.active = _ := self
  have recorded : (exitCurrent fileSystem k code).currentTask = _ :=
    (congrArg (exitCurrent fileSystem k code).process table.current).trans self
  constructor
  case files => rw [own]; exact releaseFiles_noFiles fileSystem _ _
  case others => exact others
  case pending => rw [← unblocked, update_eq_self]; rfl
  case history => simp only [recordExit, recorded]; rfl
  case pid => rw [own]
  case father => rw [own]
  case state => rw [own]
  case exitCode => rw [own]; rfl
  all_goals rfl

theorem exitInterrupted_exited {k : Kernel S} (table : TableInvariant k) :
    Exited k (exitInterrupted fileSystem { k with pending := update k.pending k.active 0 })
      none := by
  obtain ⟨self, others⟩ := exitCurrent_process fileSystem
    (k := { k with pending := update k.pending k.active 0 }) table.pointers table.current
    table.ownFather 0
  generalize exited : exitCurrent fileSystem { k with pending := update k.pending k.active 0 } 0 =
    after at self others
  have current : after.current = k.active := by
    rw [← exited, ← table.current]
    rfl
  have recorded : after.currentTask = after.process k.active := by
    rw [Kernel.currentTask, current]
  have own : (exitInterrupted fileSystem
      { k with pending := update k.pending k.active 0 }).process k.active =
        { after.process k.active with exitCode := 2 } := by
    unfold exitInterrupted
    rw [exited]
    simp only [recordExit, Kernel.setCurrent, current, update_self, recorded]
  constructor
  case files => rw [own, self]; exact releaseFiles_noFiles fileSystem _ _
  case others =>
    intro index other
    rw [← others index other]
    unfold exitInterrupted
    rw [exited]
    simp only [recordExit, Kernel.setCurrent, current, update_of_ne other]
  case history =>
    unfold exitInterrupted
    rw [exited]
    simp only [recordExit, Kernel.setCurrent, Kernel.currentTask, current, update_self, self]
    rw [← exited]
    rfl
  case pid => rw [own, self]
  case father => rw [own, self]
  case state => rw [own, self]
  case exitCode => rw [own]; rfl
  all_goals rfl

theorem Exited.identity {before after : Kernel S} {code : Option (BitVec 32)}
    (exited : Exited before after code) (index : Nat) :
    (after.process index).pid = (before.process index).pid := by
  by_cases here : index = before.active
  · rw [here, exited.pid]
  · rw [exited.others index here]
    split <;> rfl

theorem tableInvariant_exited {before after : Kernel S} {code : Option (BitVec 32)}
    (table : TableInvariant before) (few : forks before < 2 ^ 31)
    (exited : Exited before after code) : TableInvariant after := by
  have count : forks after = forks before := by
    rw [forks, forks, exited.history]
    rfl
  constructor
  · rw [exited.task, exited.occupied]
    exact table.pointers
  · rw [exited.active]
    exact table.activeSlot
  · rw [exited.active, exited.occupied]
    exact table.activeOccupied
  · rw [exited.current, exited.active]
    exact table.current
  · rw [exited.nextPid, count]
    exact table.nextPid
  · intro slot inside occupied
    rw [exited.occupied] at occupied
    rw [count, exited.identity slot]
    exact table.pids slot inside occupied
  · intro i insideI j insideJ occupiedI occupiedJ equal
    rw [exited.occupied] at occupiedI occupiedJ
    rw [exited.identity i, exited.identity j] at equal
    exact table.distinct i insideI j insideJ occupiedI occupiedJ equal
  · intro slot inside occupied
    rw [exited.occupied] at occupied
    rw [exited.identity slot]
    have fathers := table.fathers slot inside occupied
    by_cases here : slot = before.active
    · rw [here, exited.father]
      rw [here] at fathers
      exact fathers
    · rw [exited.others slot here]
      split
      · rename_i adopted
        obtain ⟨number, positive, bounded, pid⟩ :=
          table.pids before.active table.activeSlot table.activeOccupied
        have nonzero := (few_pid few positive bounded).1
        have notInit : (before.process slot).pid ≠ 1 := by
          intro one
          rw [fathers.2 one, pid] at adopted
          exact nonzero adopted.2.2.symm
        exact ⟨fun own => notInit own.symm, fun one => absurd one notInit⟩
      · exact fathers
  · intro slot inside
    rw [exited.pending, exited.occupied]
    by_cases here : slot = before.active
    · rw [here, update_self, exited.state]
      simp
    · rw [update_of_ne here, exited.others slot here]
      have blocked := table.blocked slot inside
      split
      · exact blocked
      · exact blocked
  · intro slot inside
    rw [exited.pending]
    by_cases here : slot = before.active
    · rw [here, update_self]
      exact Or.inl rfl
    · rw [update_of_ne here]
      exact table.calls slot inside
  · intro slot inside waiting
    rw [exited.pending] at waiting
    rw [exited.arg1, exited.arg2, exited.arg3]
    by_cases here : slot = before.active
    · rw [here, update_self] at waiting
      cases waiting
    · rw [update_of_ne here] at waiting
      exact table.waits slot inside waiting
  · intro slot inside occupied zombie
    rw [exited.occupied] at occupied
    by_cases here : slot = before.active
    · rw [here]
      exact exited.files
    · rw [exited.others slot here] at zombie ⊢
      have clean := table.zombies slot inside occupied
      split at zombie
      · rename_i adopted
        rw [if_pos adopted]
        exact clean zombie
      · rename_i kept
        rw [if_neg kept]
        exact clean zombie

theorem freeSlot_some {k : Kernel S} {slot : Nat} (free : freeSlot k = some slot) :
    slot ∈ slots ∧ k.occupied slot = false := by
  refine ⟨List.mem_of_find?_eq_some free, ?_⟩
  have chosen := List.find?_some free
  simpa using chosen

theorem TableInvariant.newPid {k : Kernel S} (table : TableInvariant k) :
    k.nextPid + 1 = BitVec.ofNat 32 (1 + (forks k + 1)) := by
  rw [table.nextPid]
  exact (BitVec.ofNat_add (1 + forks k) 1).symm

/-- The next pid is not in the table. -/
theorem TableInvariant.fresh {k : Kernel S} (table : TableInvariant k)
    (few : forks k + 1 < 2 ^ 31) {slot : Nat} (inside : slot ∈ slots)
    (occupied : k.occupied slot = true) : (k.process slot).pid ≠ k.nextPid + 1 := by
  intro equal
  obtain ⟨number, positive, bounded, pid⟩ := table.pids slot inside occupied
  have value := (few_pid (by omega : forks k < 2 ^ 31) positive bounded).2
  have newValue : (BitVec.ofNat 32 (1 + (forks k + 1))).toNat = 1 + (forks k + 1) :=
    (few_pid few (by omega) (by omega)).2
  rw [pid, table.newPid] at equal
  have same := congrArg BitVec.toNat equal
  omega

theorem tableInvariant_fork {k : Kernel S} (table : TableInvariant k) {slot : Nat}
    (free : freeSlot k = some slot) (few : forks (forkInto fileSystem k slot) < 2 ^ 31) :
    TableInvariant (forkInto fileSystem k slot) := by
  obtain ⟨insideSlot, vacant⟩ := freeSlot_some free
  have count : forks (forkInto fileSystem k slot) = forks k + 1 :=
    List.countP_cons_of_pos (by rfl)
  rw [count] at few
  have newPid := table.newPid
  have newValue : (BitVec.ofNat 32 (1 + (forks k + 1))).toNat = 1 + (forks k + 1) :=
    (few_pid few (by omega) (by omega)).2
  have fresh : ∀ other ∈ slots, k.occupied other = true →
      (k.process other).pid ≠ k.nextPid + 1 :=
    fun other inside occupied => table.fresh few inside occupied
  have notActive : k.active ≠ slot := by
    intro same
    have occupied := table.activeOccupied
    rw [same, vacant] at occupied
    cases occupied
  have others {other : Nat} (different : other ≠ slot)
      (occupied : (forkInto fileSystem k slot).occupied other = true) :
      k.occupied other = true := by
    rw [← occupied]
    exact (update_of_ne different _ _).symm
  have process {other : Nat} (different : other ≠ slot) :
      (forkInto fileSystem k slot).process other = k.process other :=
    update_of_ne different _ _
  have child : (forkInto fileSystem k slot).process slot =
      { k.currentTask with
        pid := k.nextPid + 1, father := k.currentTask.pid, state := .running, exitCode := 0 } :=
    update_self _ _ _
  constructor
  · intro other inside
    by_cases here : other = slot
    · subst here
      simp [forkInto]
    · simp only [forkInto, update_of_ne here]
      exact table.pointers other inside
  · exact table.activeSlot
  · exact (update_of_ne notActive _ _).trans table.activeOccupied
  · exact table.current
  · rw [count]
    exact newPid
  · intro other inside occupied
    rw [count]
    by_cases here : other = slot
    · rw [here, child]
      exact ⟨1 + (forks k + 1), by omega, Nat.le_refl _, newPid⟩
    · rw [process here]
      obtain ⟨number, positive, bounded, pid⟩ := table.pids other inside (others here occupied)
      exact ⟨number, positive, by omega, pid⟩
  · intro i insideI j insideJ occupiedI occupiedJ equal
    by_cases hereI : i = slot
    · by_cases hereJ : j = slot
      · rw [hereI, hereJ]
      · rw [hereI, child, process hereJ] at equal
        exact absurd equal.symm (fresh j insideJ (others hereJ occupiedJ))
    · by_cases hereJ : j = slot
      · rw [hereJ, child, process hereI] at equal
        exact absurd equal (fresh i insideI (others hereI occupiedI))
      · rw [process hereI, process hereJ] at equal
        exact table.distinct i insideI j insideJ (others hereI occupiedI)
          (others hereJ occupiedJ) equal
  · intro other inside occupied
    by_cases here : other = slot
    · rw [here, child]
      refine ⟨?_, fun one => ?_⟩
      · rw [table.currentTask]
        exact fresh k.active table.activeSlot table.activeOccupied
      · exfalso
        have value := congrArg BitVec.toNat (newPid.symm.trans one)
        rw [newValue] at value
        change 1 + (forks k + 1) = 1 at value
        omega
    · rw [process here]
      exact table.fathers other inside (others here occupied)
  · intro other inside
    by_cases here : other = slot
    · rw [here, child]
      simp [forkInto]
    · rw [process here]
      simp only [forkInto, update_of_ne here]
      exact table.blocked other inside
  · intro other inside
    by_cases here : other = slot
    · rw [here]
      exact Or.inl (update_self _ _ _)
    · simp only [forkInto, update_of_ne here]
      exact table.calls other inside
  · intro other inside waiting
    by_cases here : other = slot
    · rw [here] at waiting
      simp [forkInto] at waiting
    · simp only [forkInto, update_of_ne here] at waiting ⊢
      exact table.waits other inside waiting
  · intro other inside occupied zombie
    by_cases here : other = slot
    · rw [here, child] at zombie
      cases zombie
    · rw [process here] at zombie ⊢
      exact table.zombies other inside (others here occupied) zombie

theorem tableInvariant_reap {k : Kernel S} (table : TableInvariant k) {i : Nat}
    {pid : BitVec 32} (status : BitVec 32) (insideI : i ∈ slots)
    (child : waitMatches k pid i = true) : TableInvariant (reapSlot k i status) := by
  have count : forks (reapSlot k i status) = forks k := rfl
  have notActive : k.active ≠ i := by
    simp only [waitMatches, Bool.and_eq_true, decide_eq_true_eq] at child
    have occupied := child.1.1.1
    have pointer := child.1.1.2
    rw [table.pointers i insideI, if_pos occupied, table.current] at pointer
    exact fun same => pointer same.symm
  have others {other : Nat} (occupied : (reapSlot k i status).occupied other = true) :
      other ≠ i ∧ k.occupied other = true := by
    have different : other ≠ i := by
      intro same
      rw [same] at occupied
      simp [reapSlot] at occupied
    exact ⟨different, by rw [← occupied]; exact (update_of_ne different _ _).symm⟩
  constructor
  · intro other inside
    by_cases here : other = i
    · subst here
      simp [reapSlot]
    · simp only [reapSlot, update_of_ne here]
      exact table.pointers other inside
  · exact table.activeSlot
  · exact (update_of_ne notActive _ _).trans table.activeOccupied
  · exact table.current
  · exact table.nextPid
  · exact fun other inside occupied => table.pids other inside (others occupied).2
  · exact fun i insideI j insideJ occupiedI occupiedJ =>
      table.distinct i insideI j insideJ (others occupiedI).2 (others occupiedJ).2
  · exact fun other inside occupied => table.fathers other inside (others occupied).2
  · intro other inside
    by_cases here : other = i
    · rw [here]
      simp [reapSlot]
    · simp only [reapSlot, update_of_ne here]
      exact table.blocked other inside
  · intro other inside
    by_cases here : other = i
    · rw [here]
      exact Or.inl (update_self _ _ _)
    · simp only [reapSlot, update_of_ne here]
      exact table.calls other inside
  · intro other inside waiting
    by_cases here : other = i
    · rw [here] at waiting
      simp [reapSlot] at waiting
    · simp only [reapSlot, update_of_ne here] at waiting ⊢
      exact table.waits other inside waiting
  · exact fun other inside occupied zombie => table.zombies other inside (others occupied).2 zombie

theorem tableInvariant_activate {k : Kernel S} (table : TableInvariant k) {slot : Nat}
    (inside : slot ∈ slots) (occupied : k.occupied slot = true) :
    TableInvariant (activate k slot) := by
  have pointer : (k.task slot).getD slot = slot := by
    rw [table.pointers slot inside, if_pos occupied]
    rfl
  unfold activate
  split
  · rename_i same
    exact { table with current := pointer.trans same }
  · exact { table with activeSlot := inside, activeOccupied := occupied, current := pointer }

theorem keyEvent_changes (k : Kernel S) (event : BitVec 32) :
    ∃ terminal interrupted cancelRead,
      keyEvent k event =
        { k with terminal := terminal, interrupted := interrupted, cancelRead := cancelRead } ∧
      ∀ slot, slot ∉ slots →
        interrupted slot = k.interrupted slot ∧ cancelRead slot = k.cancelRead slot := by
  unfold keyEvent
  dsimp only
  split
  · exact ⟨_, _, _, rfl, fun _ _ => ⟨rfl, rfl⟩⟩
  · split
    · exact ⟨_, _, _, rfl, fun _ _ => ⟨rfl, rfl⟩⟩
    · split
      · exact ⟨_, _, _, rfl, fun _ outside =>
          ⟨if_neg fun marked => outside marked.1, if_neg fun marked => outside marked.1⟩⟩
      · split
        · exact ⟨_, _, _, rfl, fun _ _ => ⟨rfl, rfl⟩⟩
        · exact ⟨_, _, _, rfl, fun _ _ => ⟨rfl, rfl⟩⟩

/-- A poll changes the terminal, the clock and two kinds of marks only. -/
theorem pollIo_changes (k : Kernel S) (poll : Poll) :
    ∃ terminal interrupted cancelRead clock,
      pollIo k poll = { k with
        terminal := terminal, interrupted := interrupted, cancelRead := cancelRead,
        clock := clock } ∧
      ∀ slot, slot ∉ slots →
        interrupted slot = k.interrupted slot ∧ cancelRead slot = k.cancelRead slot := by
  obtain ⟨terminal, interrupted, cancelRead, same, kept⟩ := keyEvent_changes k poll.event
  refine ⟨terminal, interrupted, cancelRead, k.clock.poll poll.low poll.high, ?_, kept⟩
  unfold pollIo
  rw [same]

theorem sameTable_pollIo (k : Kernel S) (poll : Poll) : SameTable k (pollIo k poll) := by
  obtain ⟨terminal, interrupted, cancelRead, clock, same, kept⟩ := pollIo_changes k poll
  rw [same]
  exact { SameTable.refl k with
    marks := fun slot outside _ => ⟨(kept slot outside).1, rfl, (kept slot outside).2⟩ }

theorem tableInvariant_poll {k : Kernel S} (table : TableInvariant k) (poll : Poll) :
    TableInvariant (pollIo k poll) := by
  obtain ⟨terminal, interrupted, cancelRead, clock, same, _⟩ := pollIo_changes k poll
  rw [same]
  exact { table with }

structure Rescheduled (before after : Kernel S) (state : TaskState) (call : BitVec 32) :
    Prop where
  own : after.process before.active = { before.process before.active with state := state }
  others : ∀ index, index ≠ before.active → after.process index = before.process index
  task : after.task = before.task
  current : after.current = before.current
  occupied : after.occupied = before.occupied
  pending : after.pending = update before.pending before.active call
  arguments : ∀ index, index ≠ before.active → after.arg1 index = before.arg1 index ∧
    after.arg2 index = before.arg2 index ∧ after.arg3 index = before.arg3 index
  active : after.active = before.active
  nextPid : after.nextPid = before.nextPid
  history : after.history = before.history

theorem tableInvariant_rescheduled {before after : Kernel S} {state : TaskState}
    {call : BitVec 32} (table : TableInvariant before)
    (rescheduled : Rescheduled before after state call) (alive : state ≠ .zombie)
    (matching : call ≠ 0 ↔ state = .interruptible) (calls : call = 0 ∨ call = 3 ∨ call = 7)
    (arguments : call = 7 → WaitArguments (after.arg1 before.active) (after.arg2 before.active)
      (after.arg3 before.active)) : TableInvariant after := by
  have count : forks after = forks before := by rw [forks, forks, rescheduled.history]
  have identity (index : Nat) : (after.process index).pid = (before.process index).pid ∧
      (after.process index).father = (before.process index).father := by
    by_cases here : index = before.active
    · rw [here, rescheduled.own]
      exact ⟨rfl, rfl⟩
    · rw [rescheduled.others index here]
      exact ⟨rfl, rfl⟩
  constructor
  · rw [rescheduled.task, rescheduled.occupied]
    exact table.pointers
  · rw [rescheduled.active]
    exact table.activeSlot
  · rw [rescheduled.active, rescheduled.occupied]
    exact table.activeOccupied
  · rw [rescheduled.current, rescheduled.active]
    exact table.current
  · rw [rescheduled.nextPid, count]
    exact table.nextPid
  · intro slot inside occupied
    rw [rescheduled.occupied] at occupied
    rw [count, (identity slot).1]
    exact table.pids slot inside occupied
  · intro i insideI j insideJ occupiedI occupiedJ equal
    rw [rescheduled.occupied] at occupiedI occupiedJ
    rw [(identity i).1, (identity j).1] at equal
    exact table.distinct i insideI j insideJ occupiedI occupiedJ equal
  · intro slot inside occupied
    rw [rescheduled.occupied] at occupied
    rw [(identity slot).1, (identity slot).2]
    exact table.fathers slot inside occupied
  · intro slot inside
    rw [rescheduled.pending, rescheduled.occupied]
    by_cases here : slot = before.active
    · rw [here, update_self, rescheduled.own, matching]
      exact ⟨fun same => ⟨table.activeOccupied, same⟩, fun both => both.2⟩
    · rw [update_of_ne here, rescheduled.others slot here]
      exact table.blocked slot inside
  · intro slot inside
    rw [rescheduled.pending]
    by_cases here : slot = before.active
    · rw [here, update_self]
      exact calls
    · rw [update_of_ne here]
      exact table.calls slot inside
  · intro slot inside waiting
    rw [rescheduled.pending] at waiting
    by_cases here : slot = before.active
    · rw [here, update_self] at waiting
      rw [here]
      exact arguments waiting
    · rw [update_of_ne here] at waiting
      obtain ⟨first, second, third⟩ := rescheduled.arguments slot here
      rw [first, second, third]
      exact table.waits slot inside waiting
  · intro slot inside occupied zombie
    rw [rescheduled.occupied] at occupied
    by_cases here : slot = before.active
    · rw [here, rescheduled.own] at zombie
      exact absurd zombie alive
    · rw [rescheduled.others slot here] at zombie ⊢
      exact table.zombies slot inside occupied zombie

theorem blockActive_rescheduled {k : Kernel S} (current : k.current = k.active)
    (nr a b c : BitVec 32) : Rescheduled k (blockActive k nr a b c) .interruptible nr := by
  constructor
  case own => simp only [blockActive, Kernel.setCurrent, Kernel.currentTask, current, update_self]
  case others =>
    intro index different
    simp only [blockActive, Kernel.setCurrent, current, update_of_ne different]
  case arguments =>
    intro index different
    simp only [blockActive, Kernel.setCurrent, update_of_ne different, and_self]
  all_goals rfl

theorem resumeCurrent_rescheduled {k : Kernel S} (current : k.current = k.active)
    (result : BitVec 32) : Rescheduled k (resumeCurrent k k.active result) .running 0 := by
  constructor
  case own =>
    simp only [resumeCurrent, setResult, Kernel.setCurrent, Kernel.currentTask, current,
      update_self]
  case others =>
    intro index different
    simp only [resumeCurrent, setResult, Kernel.setCurrent, current, update_of_ne different]
  case arguments => exact fun index different => ⟨rfl, rfl, rfl⟩
  all_goals rfl

theorem tableInvariant_block {k : Kernel S} (table : TableInvariant k) {nr a b c : BitVec 32}
    (call : nr = 3 ∨ nr = 7) (arguments : nr = 7 → WaitArguments a b c) :
    TableInvariant (blockActive k nr a b c) := by
  have nonzero : nr ≠ 0 := by
    rintro rfl
    rcases call with three | seven <;> contradiction
  refine tableInvariant_rescheduled table (blockActive_rescheduled table.current nr a b c)
    (by decide) (iff_of_true nonzero rfl) (Or.inr call) ?_
  simp only [blockActive, Kernel.setCurrent, update_self]
  exact arguments

theorem tableInvariant_resume {k : Kernel S} (table : TableInvariant k) (result : BitVec 32) :
    TableInvariant (resumeCurrent k k.active result) :=
  tableInvariant_rescheduled table (resumeCurrent_rescheduled table.current result) (by decide)
    (by decide) (Or.inl rfl) fun waiting => by cases waiting

/-! Calls keep the invariant. -/

theorem tableInvariant_effect {k after : Kernel S} {nr b c : BitVec 32} (table : TableInvariant k)
    (few : forks after < 2 ^ 31) (alive : (k.process k.active).state ≠ .zombie)
    (unblocked : nr.toNat = 1 → k.pending k.active = 0)
    (effect : TableEffect fileSystem k nr b c after) : TableInvariant after := by
  have living {files : Files} (zombie : k.currentTask.state = .zombie) :
      files = k.currentTask.files := by
    rw [table.currentTask] at zombie
    exact absurd zombie alive
  cases effect with
  | same same window => exact tableInvariant_same table same living
  | exit call code =>
      exact tableInvariant_exited table few (recordExit_exited fileSystem table code (unblocked call))
  | fork call free => exact tableInvariant_fork fileSystem table free few
  | reap call inside child zombie => exact tableInvariant_reap table b inside child
  | exec call contexts same => exact { tableInvariant_same table same living with }

theorem SameTable.forks {before after : Kernel S} (same : SameTable before after) :
    forks after = forks before := by
  unfold SymphonyPlus.forks
  rw [same.history]

theorem effect_forks {k after : Kernel S} {nr b c : BitVec 32}
    (effect : TableEffect fileSystem k nr b c after) : forks k ≤ forks after := by
  cases effect with
  | same same window => exact Nat.le_of_eq same.forks.symm
  | exit call code => exact Nat.le_refl (forks k)
  | fork call free => exact (List.sublist_cons_self _ _).countP_le
  | reap call inside child zombie => exact Nat.le_refl (forks k)
  | exec call contexts same => exact Nat.le_of_eq same.forks.symm

theorem effect_active {k after : Kernel S} {nr b c : BitVec 32}
    (effect : TableEffect fileSystem k nr b c after) : after.active = k.active := by
  cases effect with
  | same same window => exact same.active
  | exit call code => rfl
  | fork call free => rfl
  | reap call inside child zombie => rfl
  | exec call contexts same => exact same.active

/-- No call makes a call pending. -/
theorem effect_pending {k after : Kernel S} {nr b c : BitVec 32}
    (effect : TableEffect fileSystem k nr b c after) (slot : Nat) :
    after.pending slot = k.pending slot ∨ after.pending slot = 0 := by
  cases effect with
  | same same window => exact Or.inl (by rw [same.pending])
  | exit call code => exact Or.inl rfl
  | @fork call used free =>
      by_cases here : slot = used
      · exact Or.inr (by rw [here]; exact update_self _ _ _)
      · exact Or.inl (update_of_ne here _ _)
  | @reap call i pid inside child zombie =>
      by_cases here : slot = i
      · exact Or.inr (by rw [here]; exact update_self _ _ _)
      · exact Or.inl (update_of_ne here _ _)
  | exec call contexts same => exact Or.inl (congrFun same.pending slot)

theorem TableInvariant.forkOther {k : Kernel S} (table : TableInvariant k) {slot : Nat}
    (free : freeSlot k = some slot) : k.active ≠ slot := by
  intro same
  have occupied := table.activeOccupied
  rw [same, (freeSlot_some free).2] at occupied
  cases occupied

/-- A call leaves its caller's identity, and its state unless it exits. -/
theorem effect_process {k after : Kernel S} {nr b c : BitVec 32} (table : TableInvariant k)
    (unblocked : nr.toNat = 1 → k.pending k.active = 0)
    (effect : TableEffect fileSystem k nr b c after) :
    (after.process k.active).pid = (k.process k.active).pid ∧
      (nr.toNat ≠ 1 → (after.process k.active).state = (k.process k.active).state) := by
  cases effect with
  | same same window => exact ⟨(same.process k.active).1, fun _ => (same.process k.active).2.2.1⟩
  | exit call code =>
      exact ⟨(recordExit_exited fileSystem table code (unblocked call)).pid,
        fun notExit => absurd call notExit⟩
  | @fork call slot free =>
      have kept : (forkInto fileSystem k slot).process k.active = k.process k.active :=
        update_of_ne (table.forkOther free) _ _
      rw [kept]
      exact ⟨rfl, fun _ => rfl⟩
  | reap call inside child zombie => exact ⟨rfl, fun _ => rfl⟩
  | exec call contexts same =>
      exact ⟨(same.process k.active).1, fun _ => (same.process k.active).2.2.1⟩

theorem effect_context {k after : Kernel S} {nr b c : BitVec 32} (table : TableInvariant k)
    (notExec : nr.toNat ≠ 11) (effect : TableEffect fileSystem k nr b c after) :
    after.contexts k.active = k.contexts k.active := by
  cases effect with
  | same same window => rw [same.contexts]
  | exit call code => rfl
  | fork call free => exact update_of_ne (table.forkOther free) _ _
  | reap call inside child zombie => rfl
  | exec call contexts same => exact absurd call notExec

/-- A call other than `exec` writes its own buffer only. -/
theorem effect_untouched {k after : Kernel S} {nr b c : BitVec 32} (notExec : nr.toNat ≠ 11)
    (effect : TableEffect fileSystem k nr b c after) : Untouched nr b c k.window after.window := by
  cases effect with
  | same same window => exact window
  | exit call code => exact untouched_refl nr b c k.window
  | fork call free => exact untouched_refl nr b c k.window
  | reap call inside child zombie =>
      unfold reapSlot
      dsimp only
      split
      · rename_i stored
        intro address outside
        refine (write32_outside k.window b.toNat address _ ?_).symm
        by_contra within
        exact outside ⟨by omega, Or.inr (Or.inl ⟨call, stored, by omega⟩)⟩
      · exact untouched_refl nr b c k.window
  | exec call contexts same => exact absurd call notExec

theorem few_pid_result {number count : Nat} (few : count < 2 ^ 31) (bounded : number ≤ 1 + count) :
    BitVec.ofNat 32 number ≠ -EAGAIN := by
  intro same
  have value := congrArg BitVec.toNat same
  rw [BitVec.toNat_ofNat] at value
  change number % 2 ^ 32 = 4294967285 at value
  omega

/-- A wait that would block has changed nothing and has valid arguments. -/
theorem wait_again {k : Kernel S} (table : TableInvariant k) (few : forks k < 2 ^ 31)
    {pid status options : BitVec 32} (again : (waitCurrent k pid status options).1 = -EAGAIN) :
    (waitCurrent k pid status options).2 = k ∧ (pid = -1 ∨ pid.sle 0 = false) ∧ options = 0 := by
  unfold waitCurrent at again ⊢
  by_cases negative : pid ≠ -1 ∧ pid.sle 0 = true
  · simp only [if_pos negative] at again
    exact absurd again (by decide)
  · rw [if_neg negative] at again ⊢
    by_cases unknown : options &&& ~~~1 ≠ 0
    · simp only [if_pos unknown] at again
      exact absurd again (by decide)
    · rw [if_neg unknown] at again ⊢
      split at again
      · rename_i i found
        have inside := List.mem_of_find?_eq_some found
        have chosen := List.find?_some found
        rw [Bool.and_eq_true, waitMatches] at chosen
        simp only [Bool.and_eq_true] at chosen
        obtain ⟨number, positive, bounded, known⟩ := table.pids i inside chosen.1.1.1.1
        dsimp only at again
        rw [table.taskOf inside, known] at again
        exact absurd again (few_pid_result few bounded)
      · split at again
        · rename_i matching
          simp only [matching, if_true, true_and]
          refine ⟨?_, ?_⟩
          · by_contra neither
            push Not at neither
            exact negative ⟨neither.1, by simpa using neither.2⟩
          · by_cases hang : options &&& 1 ≠ 0
            · simp only [if_pos hang] at again
              exact absurd again (by decide)
            · push Not at unknown hang
              have halves : options = (options &&& ~~~1) ||| (options &&& 1) := by
                rw [← BitVec.and_or_distrib_left, show (~~~1 ||| 1 : BitVec 32) = BitVec.allOnes 32
                  from rfl, BitVec.and_allOnes]
              rw [halves, unknown, hang]
              rfl
        · dsimp only at again
          exact absurd again (by decide)

theorem perform_again {k : Kernel S} (table : TableInvariant k) (few : forks k < 2 ^ 31)
    {nr a b c : BitVec 32} (call : nr = 3 ∨ nr = 7)
    (again : (perform fileSystem k nr a b c).1 = -EAGAIN) :
    SameTable k (perform fileSystem k nr a b c).2 ∧ (nr = 7 → WaitArguments a b c) := by
  rcases call with rfl | rfl
  · refine ⟨?_, fun wait => by cases wait⟩
    exact sameTable_performRead fileSystem k a b c
  · have waits : perform fileSystem k 7 a b c =
        if b ≠ 0 ∧ !userRange b 4 then (-EFAULT, k) else waitCurrent k a b c := rfl
    rw [waits] at again ⊢
    by_cases outside : b ≠ 0 ∧ (!userRange b 4) = true
    · simp only [if_pos outside] at again
      exact absurd again (by decide)
    · rw [if_neg outside] at again ⊢
      obtain ⟨unchanged, pid, options⟩ := wait_again table few again
      rw [unchanged]
      refine ⟨SameTable.refl k, fun _ => ⟨pid, ?_, options⟩⟩
      by_cases zero : b = 0
      · exact Or.inl zero
      · refine Or.inr ?_
        by_contra invalid
        exact outside ⟨zero, by simpa using invalid⟩

end ProcessTable

end SymphonyPlus
