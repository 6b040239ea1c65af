import SymphonyPlus.EmulatorSafe

/-! The runs of `emu_run_ex`: which states the loop passes through and why it is left. -/

namespace SymphonyPlus.EmuRun

inductive Reached (options : EmuOptions) (observe : Option (EmuState → Nat → Bool))
    (maxInstr : Nat) (start : EmuState) : Nat → EmuState → Prop
  | start : Reached options observe maxInstr start 0 start
  | next {n : Nat} {state after : EmuState} (reached : Reached options observe maxInstr start n state)
      (below : n < maxInstr) (unobserved : observed observe n state = false)
      (passed : pass options n state = some (.running after)) :
      Reached options observe maxInstr start (n + 1) after

inductive Outcome
  | halt | limit | fault | unknown | observer
  deriving DecidableEq

/-- Why the loop is left; the instruction that leaves it changes nothing. -/
inductive Leaves (options : EmuOptions) (observe : Option (EmuState → Nat → Bool))
    (maxInstr n : Nat) (state : EmuState) : Outcome → Prop
  | limit (reached : n = maxInstr) : Leaves options observe maxInstr n state .limit
  | observer (below : n < maxInstr) (stopped : observed observe n state = true) :
      Leaves options observe maxInstr n state .observer
  | halt (below : n < maxInstr) (unobserved : observed observe n state = false)
      (passed : pass options n state = some (.halted state)) :
      Leaves options observe maxInstr n state .halt
  | fault (below : n < maxInstr) (unobserved : observed observe n state = false)
      (passed : pass options n state = some (.fault 2 state) ∨
        pass options n state = some (.cut state)) :
      Leaves options observe maxInstr n state .fault
  | unknown (below : n < maxInstr) (unobserved : observed observe n state = false)
      (passed : pass options n state = some (.fault 3 state)) :
      Leaves options observe maxInstr n state .unknown

def EmuResult.outcome (result : EmuResult) : Option Outcome :=
  match result.error, result.stopReason with
  | 0, 0 => some .halt
  | 0, 1 => some .observer
  | 1, 2 => some .limit
  | 2, 3 => some .fault
  | 3, 3 => some .unknown
  | _, _ => none

/-- What a record says of a run that was left: the limit `2 ^ 64 - 1` cannot be told from a
halt, since the count of the loop wraps. -/
def told (maxInstr : Nat) (why : Outcome) : Outcome :=
  if why = .limit ∧ maxInstr = 2 ^ 64 - 1 then .halt else why

structure Records (options : EmuOptions) (maxInstr : Nat) (state : EmuState) (why : Outcome)
    (result : EmuResult) : Prop where
  outcome : result.outcome = some (told maxInstr why)
  regs : result.regs = state.regs
  settings : result.settings = state.settings
  mem : result.mem = some state.mem
  disk : result.disk = some state.disk
  memSize : result.memSize = options.ramSize
  diskSize : result.diskSize = options.diskSize
  instructions : result.instructions ≤ maxInstr

section
variable {options : EmuOptions} {observe : Option (EmuState → Nat → Bool)} {maxInstr n : Nat}
  {start state : EmuState}

theorem Reached.sound (fits : options.ramSize < 2 ^ 63) (initial : start.Sound options)
    (reached : Reached options observe maxInstr start n state) : state.Sound options := by
  induction reached with
  | start => exact initial
  | @next n before after reached below unobserved passed ih =>
      cases pass_does ih fits n with
      | running other passed' sound stepped =>
          rw [passed] at passed'
          cases passed'
          exact sound
      | halted passed' | cut passed' | fault code known passed' =>
          rw [passed] at passed'
          cases passed'

theorem Reached.le (reached : Reached options observe maxInstr start n state) : n ≤ maxInstr := by
  cases reached with
  | start => exact Nat.zero_le _
  | next reached below => exact below

theorem loop_running {after : EmuState} (below : n < maxInstr)
    (unobserved : observed observe n state = false)
    (passed : pass options n state = some (.running after)) :
    loop options observe maxInstr n state = loop options observe maxInstr (n + 1) after := by
  rw [loop, if_pos below, unobserved, passed]
  rfl

theorem Reached.loop (reached : Reached options observe maxInstr start n state) :
    loop options observe maxInstr 0 start = loop options observe maxInstr n state := by
  induction reached with
  | start => rfl
  | next reached below unobserved passed ih =>
      exact ih.trans (loop_running below unobserved passed)

theorem halt_records (sound : state.Sound options) {error : Nat} (below : n ≤ maxInstr)
    {why : Outcome} (said : (finish options state error 0 n 0).outcome = some (told maxInstr why)) :
    ∃ result, halt options state error n = some result ∧
      Records options maxInstr state why result := by
  have one : 1 < state.regs.length := by rw [sound.regs]; omega
  refine ⟨finish options state error 0 n state.regs[1], ?_, ⟨said, rfl, rfl, rfl, rfl, rfl, rfl,
    below⟩⟩
  rw [halt, reg, List.getElem?_eq_getElem one]
  rfl

theorem Leaves.records (sound : state.Sound options) {why : Outcome} (large : maxInstr < 2 ^ 64)
    (leaves : Leaves options observe maxInstr n state why) :
    ∃ result, EmuRun.loop options observe maxInstr n state = some result ∧
      Records options maxInstr state why result := by
  cases leaves with
  | limit reached =>
      rw [EmuRun.loop, if_neg (by omega)]
      refine halt_records sound (by omega) ?_
      by_cases largest : maxInstr = 2 ^ 64 - 1
      · rw [if_neg (by omega), told, if_pos ⟨rfl, largest⟩]
        rfl
      · rw [if_pos (by omega), told, if_neg fun both => largest both.2]
        rfl
  | observer below stopped =>
      rw [EmuRun.loop, if_pos below, stopped]
      exact ⟨_, rfl, ⟨rfl, rfl, rfl, rfl, rfl, rfl, rfl, Nat.le_of_lt below⟩⟩
  | halt below unobserved passed =>
      rw [EmuRun.loop, if_pos below, unobserved, passed]
      exact halt_records sound (Nat.le_of_lt below) rfl
  | fault below unobserved passed =>
      rw [EmuRun.loop, if_pos below, unobserved]
      rcases passed with passed | passed
      · rw [passed]
        exact ⟨_, rfl, ⟨rfl, rfl, rfl, rfl, rfl, rfl, rfl, Nat.le_of_lt below⟩⟩
      · rw [passed]
        exact halt_records sound (Nat.le_of_lt below) rfl
  | unknown below unobserved passed =>
      rw [EmuRun.loop, if_pos below, unobserved, passed]
      exact ⟨_, rfl, ⟨rfl, rfl, rfl, rfl, rfl, rfl, rfl, Nat.le_of_lt below⟩⟩

/-- The loop is left after at most `maxInstr` passes. -/
theorem loop_leaves (fits : options.ramSize < 2 ^ 63) (initial : start.Sound options) {left : Nat}
    (distance : maxInstr - n = left) (reached : Reached options observe maxInstr start n state) :
    ∃ m last why, Reached options observe maxInstr start m last ∧
      Leaves options observe maxInstr m last why := by
  induction left generalizing n state with
  | zero =>
      have := reached.le
      exact ⟨n, state, .limit, reached, .limit (by omega)⟩
  | succ left ih =>
      have below : n < maxInstr := by omega
      cases unobserved : observed observe n state with
      | true => exact ⟨n, state, .observer, reached, .observer below unobserved⟩
      | false =>
          cases pass_does (reached.sound fits initial) fits n with
          | running after passed sound =>
              exact ih (by omega) (reached.next below unobserved passed)
          | halted passed => exact ⟨n, state, .halt, reached, .halt below unobserved passed⟩
          | cut passed => exact ⟨n, state, .fault, reached, .fault below unobserved (.inr passed)⟩
          | fault code known passed =>
              rcases known with rfl | rfl
              · exact ⟨n, state, .fault, reached, .fault below unobserved (.inl passed)⟩
              · exact ⟨n, state, .unknown, reached, .unknown below unobserved passed⟩

end

/-! What the part before the loop leaves. -/

theorem memcpy_some {α : Type} (target source : List α) (fits : source.length ≤ target.length) :
    ∃ after, memcpy target source = some after ∧ after.length = target.length := by
  refine ⟨_, if_pos fits, ?_⟩
  rw [List.length_append, List.length_drop]
  omega

def Refuses (run : Run) (result : EmuResult) : Prop :=
  run.setup = some (.refused result) ∧ result.outcome = some .fault ∧
    result.regs = List.replicate 16 0 ∧ result.instructions = 0

theorem Run.blank_sound (run : Run) : run.blank.Sound run.options where
  regs := rfl
  zero := rfl
  settings := rfl
  mem := List.length_replicate
  disk := List.length_replicate
  pc := fun _ => Nat.zero_le _

theorem image_fits {run : Run} {opt : RunOptions} (given : run.opt = some opt)
    {image : List (BitVec 8)} (present : opt.disk = some image)
    (small : ¬spDiskBytes < opt.diskLen) : image.length ≤ run.options.diskSize := by
  rw [opt.sized image present, Run.options, given]
  show opt.diskLen ≤ if defaultDiskBytes < opt.diskLen then spDiskBytes else defaultDiskBytes
  split <;> omega

theorem setup_cases (run : Run) : (∃ result, Refuses run result) ∨
    ∃ state, run.setup = some (.ready state) ∧ state.Sound run.options ∧
      run.memAllocated = true := by
  have blank := run.blank_sound
  by_cases failed : (!run.memAllocated || !run.diskAllocated) = true
  · exact .inl ⟨_, if_pos failed, rfl, rfl, rfl⟩
  have allocated : run.memAllocated = true := by
    simp only [Bool.or_eq_true, Bool.not_eq_true', not_or, Bool.not_eq_false] at failed
    exact failed.1
  by_cases large : run.options.ramSize < run.binary.length
  · exact .inl ⟨_, by rw [Run.setup, if_neg failed, if_pos large, Run.refuse], rfl, rfl, rfl⟩
  obtain ⟨mem, copied, size⟩ := memcpy_some run.blank.mem run.binary
    (by rw [blank.mem]; omega)
  have loaded : EmuState.Sound run.options { run.blank with mem := mem } :=
    ⟨blank.regs, blank.zero, blank.settings, size.trans blank.mem, blank.disk, blank.pc⟩
  simp only [Refuses, Run.setup, if_neg failed, if_neg large, copied, bind, Option.bind_some]
  cases given : run.opt with
  | none => exact .inr ⟨_, rfl, loaded, allocated⟩
  | some opt =>
      by_cases empty : opt.diskLen = 0
      · simp only [empty, ↓reduceIte]
        exact .inr ⟨_, rfl, loaded, allocated⟩
      simp only [empty, ↓reduceIte]
      cases present : opt.disk with
      | none => exact .inl ⟨_, rfl, rfl, rfl, rfl⟩
      | some image =>
          by_cases long : spDiskBytes < opt.diskLen
          · simp only [long, ↓reduceIte]
            exact .inl ⟨_, rfl, rfl, rfl, rfl⟩
          obtain ⟨disk, copied, size⟩ := memcpy_some run.blank.disk image
            (by rw [blank.disk]; exact image_fits given present long)
          simp only [long, ↓reduceIte, copied, Option.bind_some]
          exact .inr ⟨_, rfl, ⟨loaded.regs, loaded.zero, loaded.settings, loaded.mem,
            size.trans blank.disk, loaded.pc⟩, allocated⟩

def Run.observe (run : Run) : Option (EmuState → Nat → Bool) := run.opt.bind (·.observe)

def Run.Reached (run : Run) (n : Nat) (state : EmuState) : Prop :=
  ∃ start, run.setup = some (.ready start) ∧
    EmuRun.Reached run.options run.observe run.maxInstr.toNat start n state

def Run.Leaves (run : Run) (n : Nat) (state : EmuState) (why : Outcome) : Prop :=
  EmuRun.Leaves run.options run.observe run.maxInstr.toNat n state why

def Run.Records (run : Run) (state : EmuState) (why : Outcome) (result : EmuResult) : Prop :=
  EmuRun.Records run.options run.maxInstr.toNat state why result

theorem setup_ready {run : Run} {start : EmuState} (ready : run.setup = some (.ready start)) :
    start.Sound run.options ∧ run.memAllocated = true := by
  rcases setup_cases run with ⟨result, refused, -⟩ | ⟨state, made, sound, allocated⟩
  · rw [ready] at refused
    cases refused
  · rw [ready] at made
    cases made
    exact ⟨sound, allocated⟩

theorem ramSize_fits {run : Run} (fits : run.ramSize < 2 ^ 63) : run.options.ramSize < 2 ^ 63 := by
  rw [Run.options]
  show (if run.ramSize < 1 then 1 else run.ramSize) < 2 ^ 63
  split <;> omega

theorem emuRunEx_ready {run : Run} {start : EmuState} (ready : run.setup = some (.ready start)) :
    run.emuRunEx = loop run.options run.observe run.maxInstr.toNat 0 start := by
  simp only [Run.emuRunEx, ready, bind, Option.bind_some]
  rfl

/-- The result of a run that is left in a state it reaches. -/
theorem Run.Leaves.result {run : Run} {n : Nat} {state : EmuState} {why : Outcome}
    (fits : run.memAllocated = true → run.ramSize < 2 ^ 63) (reached : run.Reached n state)
    (leaves : run.Leaves n state why) :
    ∃ result, run.emuRunEx = some result ∧ run.Records state why result := by
  obtain ⟨start, ready, reached⟩ := reached
  obtain ⟨initial, allocated⟩ := setup_ready ready
  have sound := reached.sound (ramSize_fits (fits allocated)) initial
  rw [emuRunEx_ready ready, reached.loop]
  exact EmuRun.Leaves.records sound run.maxInstr.isLt leaves

theorem outcome_fault {result : EmuResult} (fault : result.outcome = some .fault) :
    result.error = 2 := by
  unfold EmuResult.outcome at fault
  split at fault
  case h_4 error _ => exact error
  all_goals cases fault

/-- The emulator is memory safe: a run has a result, no state it passes through has an array of
another size or another register zero, and an access outside leaves the loop with error 2. -/
theorem emulator_safe (run : Run) (fits : run.memAllocated = true → run.ramSize < 2 ^ 63) :
    ∃ result outcome, run.emuRunEx = some result ∧ result.outcome = some outcome ∧
      result.regs[0]? = some 0 ∧ result.instructions ≤ run.maxInstr.toNat ∧
      (Refuses run result ∨ ∃ n last why, run.Reached n last ∧ run.Leaves n last why ∧
        run.Records last why result) ∧
      ∀ n state, run.Reached n state → n ≤ run.maxInstr.toNat ∧ state.Sound run.options ∧
        (n < run.maxInstr.toNat → observed run.observe n state = false →
          state.Outside run.options → result.error = 2 ∧ run.Records state .fault result) := by
  have reachable : ∀ n state, run.Reached n state →
      n ≤ run.maxInstr.toNat ∧ state.Sound run.options := by
    rintro n state ⟨start, ready, reached⟩
    obtain ⟨initial, allocated⟩ := setup_ready ready
    exact ⟨reached.le, reached.sound (ramSize_fits (fits allocated)) initial⟩
  have faults : ∀ result, run.emuRunEx = some result → ∀ n state, run.Reached n state →
      n < run.maxInstr.toNat → observed run.observe n state = false →
      state.Outside run.options → result.error = 2 ∧ run.Records state .fault result := by
    intro result done n state reached below unobserved outside
    obtain ⟨start, ready, -⟩ := id reached
    have small := ramSize_fits (fits (setup_ready ready).2)
    have passed := pass_outside (n := n) (reachable n state reached).2 small outside
    obtain ⟨other, done', records⟩ := Run.Leaves.result fits reached (.fault below unobserved passed)
    rw [done] at done'
    cases done'
    exact ⟨outcome_fault records.outcome, records⟩
  rcases setup_cases run with ⟨result, refuses⟩ | ⟨start, ready, initial, allocated⟩
  · have done : run.emuRunEx = some result := by
      simp only [Run.emuRunEx, refuses.1, bind, Option.bind_some]
      rfl
    refine ⟨result, .fault, done, refuses.2.1, ?_, ?_, .inl refuses, fun n state reached =>
      ⟨(reachable n state reached).1, (reachable n state reached).2, faults result done n state reached⟩⟩
    · rw [refuses.2.2.1]
      rfl
    · rw [refuses.2.2.2]
      exact Nat.zero_le _
  · obtain ⟨n, last, why, reached, leaves⟩ :=
      loop_leaves (ramSize_fits (fits allocated)) initial rfl
        (.start : EmuRun.Reached _ run.observe run.maxInstr.toNat start 0 start)
    have reached' : run.Reached n last := ⟨start, ready, reached⟩
    obtain ⟨result, done, records⟩ := Run.Leaves.result fits reached' leaves
    refine ⟨result, told run.maxInstr.toNat why, done, records.outcome, ?_, records.instructions,
      .inr ⟨n, last, why, reached', leaves, records⟩, fun n state reached =>
      ⟨(reachable n state reached).1, (reachable n state reached).2, faults result done n state reached⟩⟩
    rw [records.regs]
    exact (reachable n last reached').2.zero

def accesses : Run where
  binary := [0x31, 0x10, 0, 0x2a, 0x76, 0x01, 0, 0x10, 0x72, 0x20, 0, 0x10, 0x76, 0x02, 0, 0x1e]
  ramSize := 32
  maxInstr := 9#64
  opt := none
  memAllocated := true
  diskAllocated := true

theorem emulator_safe_accesses : ∃ result outcome, accesses.emuRunEx = some result ∧
    result.outcome = some outcome ∧ result.error = 2 ∧ result.regs[2]? = some 42 ∧
    result.regs[0]? = some 0 ∧ result.instructions ≤ 9 := by
  have evaluated : accesses.emuRunEx.map (fun result => (result.error, result.regs[2]?)) =
      some (2, some 42) := by
    decide +kernel
  obtain ⟨result, outcome, done, told, zero, bound, -⟩ := emulator_safe accesses fun _ => by decide
  rw [done] at evaluated
  obtain ⟨error, loaded⟩ := Prod.mk.inj (Option.some.inj evaluated)
  exact ⟨result, outcome, done, told, error, loaded, zero, bound⟩

end SymphonyPlus.EmuRun
