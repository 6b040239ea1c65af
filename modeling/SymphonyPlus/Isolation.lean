import SymphonyPlus.Reaping

/-!
Each process finds its window and its registers as it left them, but for the effects
of its own system call. The window of a process that does not run is its snapshot.
-/

namespace SymphonyPlus

open ByteMemory Function Relation

section Isolation

variable {S : Type} (fileSystem : FileSystem S)

inductive Origin
  | boot
  | born (window : Memory) (registers : Context)
  | entered (window : Memory) (saved : Context)

/-- A child has the window of its parent, and its registers but for the result. -/
def Origin.child : Origin → Origin
  | .boot => .boot
  | .born window registers => .born window (registers.setReg 1 0)
  | .entered window saved => .born window (saved.setReg 1 0)

def origin : List Event → BitVec 32 → Origin
  | [], _ => .boot
  | .forked parent child _ :: older, pid =>
      if pid = child then (origin older parent).child else origin older pid
  | .exited _ _ _ :: older, pid => origin older pid
  | .reaped _ _ _ _ :: older, pid => origin older pid
  | .noted entry :: older, pid =>
      if pid = entry.pid then .entered entry.window entry.saved else origin older pid

/-- The window of a process, whether it is active or not. -/
def view (k : Kernel S) (slot : Nat) : Memory :=
  if slot = k.active then k.window else k.snapshots slot

/-- The states in which a call is made: when a process enters, and for a pending call. -/
inductive Serving (first : Kernel S) : Kernel S → Prop
  | entering {k : Kernel S} (window : Memory) (saved : Context) (poll : Poll)
      (steps : Steps fileSystem first k) (running : runnable k k.active = true) :
      Serving first (entered k window saved poll)
  | pending {k : Kernel S} (steps : Steps fileSystem first k)
      (pending : k.pending k.active ≠ 0) : Serving first k

def UntouchedBy (saved : Context) (before after : Memory) : Prop :=
  Untouched (saved.regs 1) (saved.regs 3) (saved.regs 4) before after

/-- The call of a process is done: its window is the one the call left, which differs from the
one it entered with in the buffer of the call only, and its registers differ in the result only.
After a successful `exec` both are those of the new image. -/
def Completed (first : Kernel S) (pid : BitVec 32) (window : Memory) (saved : Context)
    (now : Memory) (registers : Context) : Prop :=
  ∃ k, Serving fileSystem first k ∧ k.currentTask.pid = pid ∧
    UntouchedBy saved window k.window ∧
    now = (ownCall fileSystem k saved).2.window ∧
    ((saved.regs 1 = 11 ∧ (ownCall fileSystem k saved).1 = execSentinel ∧
        registers = (ownCall fileSystem k saved).2.contexts k.active) ∨
      (saved.regs 1 ≠ 11 ∨ (ownCall fileSystem k saved).1 ≠ execSentinel) ∧
        UntouchedBy saved window now ∧
        ((ownCall fileSystem k saved).1 ≠ execSentinel →
          registers = saved.setReg 1 (ownCall fileSystem k saved).1))

def Preserved (first : Kernel S) (pid pending : BitVec 32) (now : Memory)
    (registers : Context) : Origin → Prop
  | .boot => pending = 0 ∧ now = first.window ∧ registers = first.contexts 1
  | .born window started => pending = 0 ∧ now = window ∧ registers = started
  | .entered window saved =>
      (pending ≠ 0 ∧ registers = saved ∧ UntouchedBy saved window now) ∨
        (pending = 0 ∧ Completed fileSystem first pid window saved now registers)

def Isolated (first k : Kernel S) : Prop :=
  ∀ slot ∈ slots, k.occupied slot = true → (k.process slot).state ≠ .zombie →
    Preserved fileSystem first (k.process slot).pid (k.pending slot) (view k slot)
      (k.contexts slot) (origin k.history (k.process slot).pid)

variable {fileSystem}

structure Apart (slot : Nat) (before after : Kernel S) : Prop where
  occupied : before.occupied slot = true
  pid : (after.process slot).pid = (before.process slot).pid
  alive : (after.process slot).state ≠ .zombie → (before.process slot).state ≠ .zombie
  pending : after.pending slot = before.pending slot
  contexts : after.contexts slot = before.contexts slot
  seen : view after slot = view before slot
  source : origin after.history (before.process slot).pid =
    origin before.history (before.process slot).pid

theorem Apart.trans {slot : Nat} {first second third : Kernel S} (left : Apart slot first second)
    (right : Apart slot second third) : Apart slot first third where
  occupied := left.occupied
  pid := right.pid.trans left.pid
  alive := fun alive => left.alive (right.alive alive)
  pending := right.pending.trans left.pending
  contexts := right.contexts.trans left.contexts
  seen := right.seen.trans left.seen
  source := by
    have now := right.source
    rw [left.pid] at now
    exact now.trans left.source

theorem Apart.transfer {slot : Nat} {first before after : Kernel S} (apart : Apart slot before after)
    (held : Preserved fileSystem first (before.process slot).pid (before.pending slot)
      (view before slot) (before.contexts slot)
      (origin before.history (before.process slot).pid)) :
    Preserved fileSystem first (after.process slot).pid (after.pending slot) (view after slot)
      (after.contexts slot) (origin after.history (after.process slot).pid) := by
  rw [apart.pid, apart.pending, apart.seen, apart.contexts, apart.source]
  exact held

theorem Apart.preserved {slot : Nat} {first before after : Kernel S} (apart : Apart slot before after)
    (isolated : Isolated fileSystem first before) (inside : slot ∈ slots)
    (alive : (after.process slot).state ≠ .zombie) :
    Preserved fileSystem first (after.process slot).pid (after.pending slot) (view after slot)
      (after.contexts slot) (origin after.history (after.process slot).pid) :=
  apart.transfer (isolated slot inside apart.occupied (apart.alive alive))

theorem view_other {before after : Kernel S} {slot : Nat} (active : after.active = before.active)
    (other : slot ≠ before.active) (snapshots : after.snapshots slot = before.snapshots slot) :
    view after slot = view before slot := by
  unfold view
  rw [if_neg other, if_neg (active ▸ other), snapshots]

theorem SameTable.apart {k after : Kernel S} (same : SameTable k after) {slot : Nat}
    (other : slot ≠ k.active) (occupied : k.occupied slot = true) : Apart slot k after where
  occupied := occupied
  pid := (same.process slot).1
  alive := fun alive => by rwa [(same.process slot).2.2.1] at alive
  pending := by rw [same.pending]
  contexts := by rw [same.contexts]
  seen := view_other same.active other (by rw [same.snapshots])
  source := by rw [same.history]

theorem Exited.apart {k after : Kernel S} {code : Option (BitVec 32)}
    (exited : Exited k after code) {slot : Nat} (other : slot ≠ k.active)
    (occupied : k.occupied slot = true) : Apart slot k after where
  occupied := occupied
  pid := exited.identity slot
  alive := by
    rw [exited.others slot other]
    split <;> exact id
  pending := by rw [exited.pending, update_of_ne other]
  contexts := by rw [exited.contexts]
  seen := view_other exited.active other (by rw [exited.snapshots])
  source := by
    rw [exited.history]
    rfl

/-- A call of the active process leaves every other slot, but for a slot it forks into. -/
theorem effect_apart {k after : Kernel S} {nr b c : BitVec 32} (table : TableInvariant k)
    (unblocked : nr.toNat = 1 → k.pending k.active = 0) (few : forks after < 2 ^ 31)
    (effect : TableEffect fileSystem k nr b c after) {slot : Nat} (inside : slot ∈ slots)
    (other : slot ≠ k.active) (occupied : after.occupied slot = true) :
    Apart slot k after ∨
      nr.toNat = 2 ∧ freeSlot k = some slot ∧ after = forkInto fileSystem k slot := by
  cases effect with
  | same same window =>
      rw [same.occupied] at occupied
      exact Or.inl (same.apart other occupied)
  | exit call code =>
      exact Or.inl ((recordExit_exited fileSystem table code (unblocked call)).apart other occupied)
  | @fork call free found =>
      by_cases here : slot = free
      · subst here
        exact Or.inr ⟨call, found, rfl⟩
      · have present : k.occupied slot = true := by
          rw [← occupied]
          exact (update_of_ne here _ _).symm
        have process : (forkInto fileSystem k free).process slot = k.process slot :=
          update_of_ne here _ _
        refine Or.inl ⟨present, by rw [process], by rw [process]; exact id, update_of_ne here _ _,
          update_of_ne here _ _, view_other rfl other (update_of_ne here _ _), ?_⟩
        have count : forks (forkInto fileSystem k free) = forks k + 1 :=
          List.countP_cons_of_pos (by rfl)
        rw [count] at few
        exact if_neg (table.fresh few inside present)
  | @reap call i pid insideI child zombie =>
      have different : slot ≠ i := by
        rintro rfl
        simp [reapSlot] at occupied
      have present : k.occupied slot = true := by
        rw [← occupied]
        exact (update_of_ne different _ _).symm
      exact Or.inl ⟨present, rfl, id, update_of_ne different _ _, rfl, view_other rfl other rfl, rfl⟩
  | exec call contexts same =>
      have present : k.occupied slot = true := by
        rw [← occupied]
        exact (congrFun same.occupied slot).symm
      have apart := same.apart other present
      exact Or.inl ⟨present, apart.pid, apart.alive, apart.pending, contexts slot other,
        apart.seen, apart.source⟩

theorem entered_apart (k : Kernel S) (window : Memory) (saved : Context) (poll : Poll)
    {slot : Nat} (other : slot ≠ k.active) (occupied : k.occupied slot = true)
    (different : (k.process slot).pid ≠ k.currentTask.pid) :
    Apart slot k (entered k window saved poll) := by
  obtain ⟨terminal, interrupted, cancelRead, clock, same, _⟩ :=
    entered_changes k window saved poll
  rw [same]
  exact ⟨occupied, rfl, id, rfl, update_of_ne other _ _, view_other rfl other rfl, if_neg different⟩

theorem setResult_apart (k : Kernel S) {slot i : Nat} (other : slot ≠ i)
    (occupied : k.occupied slot = true) (result : BitVec 32) :
    Apart slot k (setResult k i result) :=
  ⟨occupied, rfl, id, rfl, update_of_ne other _ _, rfl, rfl⟩

theorem finishCall_apart (performed : BitVec 32 × Kernel S) {slot : Nat}
    (other : slot ≠ performed.2.active) (occupied : performed.2.occupied slot = true) :
    Apart slot performed.2 (finishCall performed) := by
  unfold finishCall
  split
  · exact setResult_apart performed.2 other occupied performed.1
  · exact ⟨occupied, rfl, id, rfl, rfl, rfl, rfl⟩

theorem Rescheduled.apart {before after : Kernel S} {state : TaskState} {call : BitVec 32}
    (rescheduled : Rescheduled before after state call) {slot : Nat}
    (other : slot ≠ before.active) (occupied : before.occupied slot = true)
    (contexts : after.contexts slot = before.contexts slot)
    (snapshots : after.snapshots = before.snapshots) : Apart slot before after where
  occupied := occupied
  pid := by rw [rescheduled.others slot other]
  alive := by
    rw [rescheduled.others slot other]
    exact id
  pending := by rw [rescheduled.pending, update_of_ne other]
  contexts := contexts
  seen := view_other rescheduled.active other (by rw [snapshots])
  source := by rw [rescheduled.history]

/-- The activation of a slot is seen by no live process. -/
theorem view_activate {k : Kernel S} (table : TableInvariant k) {slot : Nat} (chosen : Nat)
    (inside : slot ∈ slots) (occupied : k.occupied slot = true)
    (alive : (k.process slot).state ≠ .zombie) : view (activate k chosen) slot = view k slot := by
  unfold view activate
  split
  · rfl
  · rename_i different
    dsimp only
    have saved : (if 0 < k.active ∧ k.occupied k.active = true ∧
        (k.taskOf k.active).state ≠ .zombie then update k.snapshots k.active k.window
          else k.snapshots) slot = if slot = k.active then k.window else k.snapshots slot := by
      by_cases own : slot = k.active
      · subst own
        rw [← table.taskOf inside] at alive
        rw [if_pos ⟨(mem_slots.mp inside).1, occupied, alive⟩, if_pos rfl, update_self]
      · rw [if_neg own]
        split
        · exact update_of_ne own _ _
        · rfl
    by_cases here : slot = chosen
    · subst here
      rw [if_pos rfl]
      exact saved
    · rw [if_neg here]
      exact saved

theorem performExec_failed (k : Kernel S) (a b c : BitVec 32)
    (failed : (performExec fileSystem k a b c).1 ≠ execSentinel) :
    (performExec fileSystem k a b c).2.contexts = k.contexts ∧
      (performExec fileSystem k a b c).2.window = k.window := by
  unfold performExec at failed ⊢
  split
  · exact ⟨rfl, rfl⟩
  · rename_i path found
    rw [found] at failed
    dsimp only at failed
    split
    · exact ⟨rfl, rfl⟩
    · rename_i loaded
      rw [loaded] at failed
      exact absurd rfl failed

variable (fileSystem) in
/-- A call that is not a successful `exec` leaves the registers and writes its own buffer only. -/
theorem ownCall_kept {k : Kernel S} (table : TableInvariant k) (saved : Context)
    (other : saved.regs 1 ≠ 11 ∨ (ownCall fileSystem k saved).1 ≠ execSentinel) :
    UntouchedBy saved k.window (ownCall fileSystem k saved).2.window ∧
      (ownCall fileSystem k saved).2.contexts k.active = k.contexts k.active := by
  have effect := ownCall_effect fileSystem k saved
  by_cases exec : saved.regs 1 = 11
  · have failed := other.resolve_left (not_not.mpr exec)
    have call : ownCall fileSystem k saved =
        performExec fileSystem k (saved.regs 2) (saved.regs 3) (saved.regs 4) := by
      unfold ownCall
      rw [exec]
      rfl
    rw [call] at failed ⊢
    obtain ⟨contexts, window⟩ := performExec_failed k _ _ _ failed
    rw [contexts, window]
    exact ⟨untouched_refl _ _ _ _, rfl⟩
  · have notExec : (saved.regs 1).toNat ≠ 11 := fun number =>
      exec (BitVec.eq_of_toNat_eq number)
    exact ⟨effect_untouched fileSystem notExec effect, effect_context fileSystem table notExec effect⟩

/-- The events of a call say nothing about where its caller's window comes from. -/
theorem effect_origin {k after : Kernel S} {nr b c : BitVec 32} (table : TableInvariant k)
    (few : forks after < 2 ^ 31) (effect : TableEffect fileSystem k nr b c after) :
    origin after.history (k.process k.active).pid = origin k.history (k.process k.active).pid := by
  cases effect with
  | same same window => rw [same.history]
  | exit call code => rfl
  | @fork call free found =>
      have count : forks (forkInto fileSystem k free) = forks k + 1 :=
        List.countP_cons_of_pos (by rfl)
      rw [count] at few
      exact if_neg (table.fresh few table.activeSlot table.activeOccupied)
  | reap call inside child zombie => rfl
  | exec call contexts same => exact congrArg (origin · _) same.history

/-- The state in which a process makes its call: nothing has happened to it yet. -/
theorem entered_entry {k : Kernel S} (table : TableInvariant k) (window : Memory)
    (saved : Context) (poll : Poll) :
    (entered k window saved poll).window = window ∧
      (entered k window saved poll).currentTask.pid = (k.process k.active).pid ∧
      origin (entered k window saved poll).history (k.process k.active).pid =
        .entered window saved := by
  obtain ⟨terminal, interrupted, cancelRead, clock, same, _⟩ :=
    entered_changes k window saved poll
  rw [← table.currentTask, same]
  exact ⟨rfl, rfl, if_pos rfl⟩

/-- The caller after its call is done. -/
theorem call_preserved {first k : Kernel S} (table : TableInvariant k)
    (steps : Steps fileSystem first k) (running : runnable k k.active = true) (window : Memory)
    (saved : Context) (poll : Poll)
    (few : forks (ownCall fileSystem (entered k window saved poll) saved).2 < 2 ^ 31) :
    Preserved fileSystem first (k.process k.active).pid
      ((finishCall (ownCall fileSystem (entered k window saved poll) saved)).pending k.active)
      (view (finishCall (ownCall fileSystem (entered k window saved poll) saved)) k.active)
      ((finishCall (ownCall fileSystem (entered k window saved poll) saved)).contexts k.active)
      (origin (finishCall (ownCall fileSystem (entered k window saved poll) saved)).history
        (k.process k.active).pid) := by
  have kept := tableInvariant_entered table window saved poll
  have ready := (entered_runnable k window saved poll).trans running
  have serving : Serving fileSystem first (entered k window saved poll) :=
    .entering window saved poll steps running
  have context := entered_contexts k window saved poll
  obtain ⟨_, process, active⟩ := entered_note k window saved poll
  obtain ⟨start, own, entry⟩ := entered_entry table window saved poll
  generalize entered k window saved poll = e at *
  obtain ⟨place, _, windows, history⟩ := finishCall_same (ownCall fileSystem e saved)
  have source := effect_origin kept few (ownCall_effect fileSystem e saved)
  rw [process, active, entry] at source
  have pending : (finishCall (ownCall fileSystem e saved)).pending k.active = 0 := by
    rw [← active, ← (ownCall_keepsCalls fileSystem kept ready saved).2]
    unfold finishCall
    split <;> rfl
  have seen : view (finishCall (ownCall fileSystem e saved)) k.active =
      (ownCall fileSystem e saved).2.window := by
    rw [← windows]
    exact if_pos (by rw [place, ownCall_active, active])
  rw [history, source, pending, seen]
  refine Or.inr ⟨rfl, e, serving, own, ?_, rfl, ?_⟩
  · rw [start]
    exact untouched_refl _ _ _ window
  · by_cases exec : saved.regs 1 = 11 ∧ (ownCall fileSystem e saved).1 = execSentinel
    · refine Or.inl ⟨exec.1, exec.2, ?_⟩
      have unset : finishCall (ownCall fileSystem e saved) = (ownCall fileSystem e saved).2 :=
        if_neg (not_not.mpr exec.2)
      rw [← active, ← unset]
    · have other := not_and_or.mp exec
      obtain ⟨untouched, registers⟩ := ownCall_kept fileSystem kept saved other
      rw [start] at untouched
      refine Or.inr ⟨other, untouched, fun plain => ?_⟩
      have set : finishCall (ownCall fileSystem e saved) = setResult (ownCall fileSystem e saved).2
          (ownCall fileSystem e saved).2.active (ownCall fileSystem e saved).1 := if_pos plain
      have before := registers.trans context
      rw [set, ownCall_active, ← active, setResult]
      dsimp only
      rw [update_self, before]

/-- A child just forked has the window and the registers its parent entered with. -/
theorem fork_preserved {first k : Kernel S} (table : TableInvariant k) (window : Memory)
    (saved : Context) (poll : Poll) {slot : Nat}
    (free : freeSlot (entered k window saved poll) = some slot) :
    Preserved fileSystem first
      ((forkInto fileSystem (entered k window saved poll) slot).process slot).pid
      ((forkInto fileSystem (entered k window saved poll) slot).pending slot)
      (view (forkInto fileSystem (entered k window saved poll) slot) slot)
      ((forkInto fileSystem (entered k window saved poll) slot).contexts slot)
      (origin (forkInto fileSystem (entered k window saved poll) slot).history
        ((forkInto fileSystem (entered k window saved poll) slot).process slot).pid) := by
  have kept := tableInvariant_entered table window saved poll
  have context := entered_contexts k window saved poll
  obtain ⟨start, own, entry⟩ := entered_entry table window saved poll
  rw [← own] at entry
  generalize entered k window saved poll = e at *
  have other := kept.forkOther free
  have process : (forkInto fileSystem e slot).process slot =
      { e.currentTask with
        pid := e.nextPid + 1, father := e.currentTask.pid, state := .running, exitCode := 0 } :=
    update_self _ _ _
  have pending : (forkInto fileSystem e slot).pending slot = 0 := update_self _ _ _
  have registers : (forkInto fileSystem e slot).contexts slot = saved.setReg 1 0 := by
    rw [← context]
    exact update_self _ _ _
  have seen : view (forkInto fileSystem e slot) slot = window := by
    rw [← start]
    exact (if_neg (Ne.symm other)).trans (update_self _ _ _)
  have source : origin (forkInto fileSystem e slot).history (e.nextPid + 1) =
      .born window (saved.setReg 1 0) := by
    refine (if_pos rfl).trans ?_
    rw [entry]
    rfl
  rw [process, pending, seen, registers, source]
  exact ⟨rfl, rfl, rfl⟩

theorem preserved_pending {first : Kernel S} {pid pending : BitVec 32} {now : Memory}
    {registers : Context} {source : Origin}
    (held : Preserved fileSystem first pid pending now registers source) (blocked : pending ≠ 0) :
    ∃ window, source = .entered window registers ∧ UntouchedBy registers window now := by
  cases source with
  | boot => exact absurd held.1 blocked
  | born window started => exact absurd held.1 blocked
  | entered window saved =>
      rcases held with ⟨_, rfl, untouched⟩ | ⟨idle, _⟩
      · exact ⟨window, rfl, untouched⟩
      · exact absurd idle blocked

variable (fileSystem) in
theorem performPending_own {k : Kernel S} (table : TableInvariant k) (call : CallSaved k)
    (pending : k.pending k.active ≠ 0) :
    performPending fileSystem k k.active = ownCall fileSystem k (k.contexts k.active) := by
  obtain ⟨number, first, second, third⟩ := call k.active table.activeSlot pending
  rw [ownCall, number, first, second, third]
  rfl

theorem resumeCurrent_kept (k : Kernel S) (result : BitVec 32) :
    (resumeCurrent k k.active result).window = k.window ∧
      (resumeCurrent k k.active result).contexts =
        update k.contexts k.active ((k.contexts k.active).setReg 1 result) :=
  ⟨rfl, rfl⟩

/-- The caller of a pending call that is done. -/
theorem resume_preserved {first k : Kernel S} (table : TableInvariant k) (call : CallSaved k)
    (steps : Steps fileSystem first k) (isolated : Isolated fileSystem first k)
    (pending : k.pending k.active ≠ 0)
    (few : forks (performPending fileSystem k k.active).2 < 2 ^ 31) :
    Preserved fileSystem first (k.process k.active).pid 0
      (performPending fileSystem k k.active).2.window
      ((k.contexts k.active).setReg 1 (performPending fileSystem k k.active).1)
      (origin (performPending fileSystem k k.active).2.history (k.process k.active).pid) := by
  obtain ⟨window, source, untouched⟩ := preserved_pending (isolated k.active table.activeSlot
    table.activeOccupied (table.pendingAlive pending)) pending
  have same := performPending_own fileSystem table call pending
  have notExec : (k.contexts k.active).regs 1 ≠ 11 := by
    rw [(call k.active table.activeSlot pending).1]
    exact fun exec => pendingNotExec table pending (congrArg BitVec.toNat exec)
  have kept := (ownCall_kept fileSystem table (k.contexts k.active)
    (Or.inl notExec)).1
  rw [same] at few ⊢
  rw [effect_origin table few (ownCall_effect fileSystem k _), source]
  have seen : view k k.active = k.window := if_pos rfl
  rw [seen] at untouched
  exact Or.inr ⟨rfl, k, .pending steps pending, congrArg Task.pid table.currentTask, untouched,
    rfl, Or.inr ⟨Or.inl notExec, untouched.trans kept, fun _ => rfl⟩⟩

theorem blockActive_kept (k : Kernel S) (nr a b c : BitVec 32) :
    (blockActive k nr a b c).contexts = k.contexts ∧
      (blockActive k nr a b c).window = k.window ∧
      (blockActive k nr a b c).snapshots = k.snapshots :=
  ⟨rfl, rfl, rfl⟩

/-- A caller that has to wait has its registers as it entered. -/
theorem block_preserved {first k after : Kernel S} (table : TableInvariant k)
    (running : runnable k k.active = true) (window : Memory) (saved : Context) (poll : Poll)
    (again : (ownCall fileSystem (entered k window saved poll) saved).1 = -EAGAIN)
    (call : saved.regs 1 = 3 ∨ saved.regs 1 = 7)
    (few : forks (ownCall fileSystem (entered k window saved poll) saved).2 < 2 ^ 31)
    (blocked : after = blockActive (ownCall fileSystem (entered k window saved poll) saved).2
      (saved.regs 1) (saved.regs 2) (saved.regs 3) (saved.regs 4)) :
    Preserved fileSystem first (after.process k.active).pid (after.pending k.active)
      (view after k.active) (after.contexts k.active)
      (origin after.history (after.process k.active).pid) := by
  have kept := tableInvariant_entered table window saved poll
  have ready := (entered_runnable k window saved poll).trans running
  have context := entered_contexts k window saved poll
  obtain ⟨_, process, active⟩ := entered_note k window saved poll
  obtain ⟨start, _, entry⟩ := entered_entry table window saved poll
  have before : forks (entered k window saved poll) < 2 ^ 31 :=
    Nat.lt_of_le_of_lt (effect_forks fileSystem (ownCall_effect fileSystem _ saved)) few
  generalize entered k window saved poll = e at *
  have same : SameTable e (ownCall fileSystem e saved).2 :=
    (perform_again fileSystem kept before call again).1
  have rescheduled := blockActive_rescheduled (k := (ownCall fileSystem e saved).2)
    (tableInvariant_perform kept ready few).current
    (saved.regs 1) (saved.regs 2) (saved.regs 3) (saved.regs 4)
  obtain ⟨contexts, windows, _⟩ := blockActive_kept (ownCall fileSystem e saved).2
    (saved.regs 1) (saved.regs 2) (saved.regs 3) (saved.regs 4)
  have nonzero : saved.regs 1 ≠ 0 ∧ saved.regs 1 ≠ 11 := by
    rcases call with three | seven
    · rw [three]
      decide
    · rw [seven]
      decide
  obtain ⟨untouched, _⟩ := ownCall_kept fileSystem kept saved (Or.inl nonzero.2)
  rw [← blocked] at rescheduled contexts windows
  have place := same.active.trans active
  have pid : (after.process k.active).pid = (k.process k.active).pid := by
    have own := rescheduled.own
    rw [place] at own
    rw [own]
    exact (same.process k.active).1.trans (by rw [process])
  have seen : view after k.active = (ownCall fileSystem e saved).2.window := by
    rw [← windows]
    exact if_pos (by rw [rescheduled.active, place])
  rw [pid, seen, rescheduled.pending, place, update_self, contexts, same.contexts, ← active,
    context, rescheduled.history, same.history, active, entry]
  rw [start] at untouched
  exact Or.inl ⟨nonzero.1, rfl, untouched⟩

/-- No step of another process changes what a live process finds, and its own call changes what
it may change only. -/
theorem step_isolated {first k after : Kernel S} (table : TableInvariant k) (call : CallSaved k)
    (steps : Steps fileSystem first k) (few : forks after < 2 ^ 31)
    (isolated : Isolated fileSystem first k) (step : Step fileSystem k after) :
    Isolated fileSystem first after := by
  intro slot inside occupied alive
  have enters {window : Memory} {saved : Context} {poll : Poll} (other : slot ≠ k.active)
      (present : (entered k window saved poll).occupied slot = true) :
      Apart slot k (entered k window saved poll) := by
    have held : k.occupied slot = true := by
      obtain ⟨terminal, interrupted, cancelRead, clock, same, _⟩ :=
        entered_changes k window saved poll
      rw [same] at present
      exact present
    refine entered_apart k window saved poll other held fun same => ?_
    rw [table.currentTask] at same
    exact other (table.distinct slot inside _ table.activeSlot held table.activeOccupied same)
  cases step with
  | @call window saved poll running done =>
      have kept := tableInvariant_entered table window saved poll
      have ready := (entered_runnable k window saved poll).trans running
      obtain ⟨_, process, active⟩ := entered_note k window saved poll
      rw [finishCall_forks] at few
      by_cases own : slot = k.active
      · subst own
        have pid : ((finishCall (ownCall fileSystem (entered k window saved poll)
            saved)).process k.active).pid = (k.process k.active).pid := by
          rw [(finishCall_same _).2.1, ← active, ownCall_pid fileSystem kept ready, process]
        rw [pid]
        exact call_preserved table steps running window saved poll few
      · have other : slot ≠ (entered k window saved poll).active := active ▸ own
        have finish : Apart slot (ownCall fileSystem (entered k window saved poll) saved).2
            (finishCall (ownCall fileSystem (entered k window saved poll) saved)) := by
          refine finishCall_apart _ (by rw [ownCall_active]; exact other) ?_
          rw [← occupied]
          unfold finishCall
          split <;> rfl
        rcases effect_apart kept (fun _ => kept.runningUnblocked ready) few
          (ownCall_effect fileSystem _ saved) inside other finish.occupied with
          apart | ⟨_, free, forked⟩
        · exact (((enters own apart.occupied).trans apart).trans finish).preserved isolated inside
            alive
        · refine finish.transfer ?_
          rw [forked]
          exact fork_preserved table window saved poll free
  | @block window saved poll running again blocks =>
      have kept := tableInvariant_entered table window saved poll
      have ready := (entered_runnable k window saved poll).trans running
      by_cases own : slot = k.active
      · rw [own]
        exact block_preserved table running window saved poll again blocks few rfl
      · have before : forks (entered k window saved poll) < 2 ^ 31 :=
          Nat.lt_of_le_of_lt (effect_forks fileSystem (ownCall_effect fileSystem _ saved)) few
        have same : SameTable (entered k window saved poll)
            (ownCall fileSystem (entered k window saved poll) saved).2 :=
          (perform_again fileSystem kept before blocks again).1
        have other : slot ≠ (entered k window saved poll).active := by
          rw [(entered_note k window saved poll).2.2]
          exact own
        have present : (entered k window saved poll).occupied slot = true := by
          rw [← same.occupied]
          exact occupied
        have performed := (enters own present).trans (same.apart other present)
        refine (performed.trans (Rescheduled.apart (blockActive_rescheduled
          (tableInvariant_perform kept ready few).current _ _ _ _) ?_ ?_ rfl rfl)).preserved
          isolated inside alive
        · exact fun here => other (here.trans same.active)
        · exact occupied
  | @cancel window saved poll running marked =>
      have kept := tableInvariant_entered table window saved poll
      have ready := (entered_runnable k window saved poll).trans running
      have exit : Exited (entered k window saved poll)
        (exitInterrupted fileSystem (entered k window saved poll)) none :=
        exitInterrupted_dead kept ready
      have active := (entered_note k window saved poll).2.2
      by_cases own : slot = k.active
      · refine absurd ?_ alive
        rw [own, ← active]
        exact exit.state
      · have other : slot ≠ (entered k window saved poll).active := active ▸ own
        have present : (entered k window saved poll).occupied slot = true := by
          rw [← exit.occupied]
          exact occupied
        exact (((enters own present).trans (exit.apart other present)).trans
          (setResult_apart (exitInterrupted fileSystem (entered k window saved poll)) other occupied
            0)).preserved isolated inside alive
  | poll poll =>
      obtain ⟨terminal, interrupted, cancelRead, clock, same, _⟩ := pollIo_changes k poll
      rw [same] at occupied alive ⊢
      exact isolated slot inside occupied alive
  | interrupt living marked =>
      have exit := exitInterrupted_exited fileSystem table
      by_cases own : slot = k.active
      · refine absurd ?_ alive
        rw [own]
        exact exit.state
      · have present : k.occupied slot = true := by
          rw [← exit.occupied]
          exact occupied
        exact (exit.apart own present).preserved isolated inside alive
  | resume pending done =>
      have kept := tableInvariant_performPending fileSystem table few pending
      have place := performPending_active fileSystem k k.active
      have effect : TableEffect fileSystem k (k.pending k.active) (k.arg2 k.active)
          (k.arg3 k.active) (performPending fileSystem k k.active).2 :=
        perform_effect fileSystem k _ _ _ _
      have rescheduled := resumeCurrent_rescheduled kept.current
        (performPending fileSystem k k.active).1
      by_cases own : slot = k.active
      · subst own
        have held := resume_preserved table call steps isolated pending few
        have context := effect_context fileSystem table (pendingNotExec table pending) effect
        have pid := (performPending_process fileSystem table pending).1
        generalize performPending fileSystem k k.active = performed at *
        rw [← place] at held context pid ⊢
        obtain ⟨windows, contexts⟩ := resumeCurrent_kept performed.2 performed.1
        have seen : view (resumeCurrent performed.2 performed.2.active performed.1)
            performed.2.active = performed.2.window := by
          rw [← windows]
          exact if_pos rescheduled.active.symm
        have identity : ((resumeCurrent performed.2 performed.2.active performed.1).process
            performed.2.active).pid = (k.process performed.2.active).pid := by
          rw [rescheduled.own]
          exact pid
        rw [identity, seen, rescheduled.pending, update_self, contexts, update_self, context,
          rescheduled.history]
        exact held
      · have before : forks (performPending fileSystem k k.active).2 < 2 ^ 31 := few
        have present : (performPending fileSystem k k.active).2.occupied slot = true := occupied
        rcases effect_apart table (fun exit => absurd exit (table.pendingNotExit pending)) before
          effect inside own present with apart | ⟨fork, _⟩
        · rw [place] at rescheduled
          refine (apart.trans (rescheduled.apart (fun here => own (here.trans place)) occupied
            ?_ rfl)).preserved isolated inside alive
          exact update_of_ne own _ _
        · exfalso
          rcases (table.calls k.active table.activeSlot).resolve_left pending with three | seven
          · rw [three] at fork
            cases fork
          · rw [seven] at fork
            cases fork
  | remain pending again =>
      have calls := (table.calls k.active table.activeSlot).resolve_left pending
      have before : forks k < 2 ^ 31 :=
        Nat.lt_of_le_of_lt (step_forks fileSystem (.remain pending again)) few
      have same : SameTable k (performPending fileSystem k k.active).2 :=
        (perform_again fileSystem table before calls again).1
      have present : k.occupied slot = true := by
        rw [← same.occupied]
        exact occupied
      by_cases own : slot = k.active
      · subst own
        obtain ⟨window, source, untouched⟩ := preserved_pending (isolated k.active inside present
          (table.pendingAlive pending)) pending
        have notExec : (k.contexts k.active).regs 1 ≠ 11 := by
          rw [(call k.active inside pending).1]
          exact fun exec => pendingNotExec table pending (congrArg BitVec.toNat exec)
        have kept := (ownCall_kept fileSystem table (k.contexts k.active)
          (Or.inl notExec)).1
        rw [← performPending_own fileSystem table call pending] at kept
        have seen : view k k.active = k.window := if_pos rfl
        have later : view (performPending fileSystem k k.active).2 k.active =
            (performPending fileSystem k k.active).2.window := if_pos same.active.symm
        rw [seen] at untouched
        rw [(same.process k.active).1, same.pending, same.contexts, same.history, source, later]
        exact Or.inl ⟨pending, rfl, untouched.trans kept⟩
      · exact (same.apart own present).preserved isolated inside alive
  | @activate chosen placed present =>
      obtain ⟨process, _, occupants, pendings, _, _, _, contexts, history⟩ :=
        activate_table k chosen
      rw [process] at alive
      rw [occupants] at occupied
      rw [process, pendings, contexts, history, view_activate table chosen inside occupied alive]
      exact isolated slot inside occupied alive

theorem spBoot_isolated {fs : S} {files : Files} {window : Memory} {snapshots : Nat → Memory}
    {first : Kernel S} (boot : spBoot fileSystem fs files window snapshots = some first) :
    Isolated fileSystem first first := by
  unfold spBoot at boot
  dsimp only at boot
  split at boot
  · cases boot
  · cases boot
    intro slot inside occupied alive
    rw [decide_eq_true_eq] at occupied
    subst occupied
    exact ⟨rfl, rfl, rfl⟩

/-- In every returned state each live process has its window and its registers as its last entry,
its birth or the boot left them, but for its own call; the one that is returned has no call
pending, and its window is the one in memory. -/
theorem process_windows_isolated {fs : S} {files : Files} {window : Memory}
    {snapshots : Nat → Memory} {first k : Kernel S} {chosen : Nat}
    (boot : spBoot fileSystem fs files window snapshots = some first)
    (run : Run fileSystem first chosen k) (few : forks k < 2 ^ 31) :
    Isolated fileSystem first k ∧
      Preserved fileSystem first (k.process chosen).pid 0 k.window (k.contexts chosen)
        (origin k.history (k.process chosen).pid) := by
  obtain ⟨table, start, active⟩ := spBoot_table boot
  obtain ⟨_, idle⟩ := spBoot_recorded boot
  obtain ⟨steps, same, running, _⟩ := run_steps table start active run few
  obtain ⟨kept, _, _, isolated⟩ := steps_invariant
    (fun state => Steps fileSystem first state ∧ CallSaved state ∧
      Isolated fileSystem first state) table
    ⟨.refl, fun slot _ blocked => absurd (idle slot) blocked, spBoot_isolated boot⟩
    (fun before after table _ few held step =>
      ⟨held.1.tail step, step_saved table few held.2.1 step,
        step_isolated table held.2.1 held.1 few held.2.2 step⟩) steps few
  have own := isolated k.active kept.activeSlot kept.activeOccupied (kept.runningAlive running)
  have seen : view k k.active = k.window := if_pos rfl
  rw [kept.runningUnblocked running, seen, ← same] at own
  exact ⟨isolated, own⟩

end Isolation

theorem forkOnce_isolated : ∃ first chosen k, bootInit = some first ∧
    Run initOnly first chosen k ∧ Isolated initOnly first k := by
  obtain ⟨first, chosen, k, boot, run, one, _⟩ := forkOnce_some
  exact ⟨first, chosen, k, boot, run, (process_windows_isolated boot run (by omega)).1⟩

def initPathAt (address : Nat) : Memory :=
  writeBytes (fun _ => 0) address ("/bin/init".toList.map fun c => BitVec.ofNat 8 c.toNat)

def execContext : Context :=
  { callContext 11 0x200100 0 0 with regs := update (callContext 11 0x200100 0 0).regs 5 7 }

/-- After a successful `exec` the registers are those of the new image. -/
theorem exec_registers_not_kept : ∃ first k, bootInit = some first ∧
    dispatch initOnly { first with window := initPathAt 0x200100 } execContext noEvent [] =
      some (1, k) ∧ execContext.regs 5 = 7 ∧ (k.contexts 1).regs 5 = 0 := by
  have evaluated : (bootInit.bind fun first =>
      (dispatch initOnly { first with window := initPathAt 0x200100 } execContext noEvent []).map
        fun returned => (returned.1, (returned.2.contexts 1).regs 5)) = some (1, 0) := by
    decide +kernel
  obtain ⟨first, booted, found⟩ := Option.bind_eq_some_iff.mp evaluated
  obtain ⟨⟨chosen, k⟩, returned, counts⟩ := Option.map_eq_some_iff.mp found
  simp only [Prod.mk.injEq] at counts
  obtain ⟨rfl, cleared⟩ := counts
  exact ⟨first, k, booted, returned, rfl, cleared⟩

end SymphonyPlus
