import SymphonyPlus.ExpressionMachine

/-!
Steps of the code of expressions: how the temporaries come and go, and what the last lines of each
construct do to `r1`.
-/

namespace SymphonyPlus

open ByteMemory BitRanges

/-- The bytes that an expression may mention. -/
def Stack.Visible (frame : Stack) (address : Nat) : Prop :=
  address < frame.limit ∨ frame.sp ≤ address

structure Stack.Sound (frame : Stack) : Prop where
  low : frame.ram.low ≤ frame.limit
  top : frame.sp ≤ frame.ram.top
  small : frame.ram.top ≤ 2 ^ 32

def Core.sp (core : Core) : Nat := (core.work.regs 14).toNat

structure Ready (frame : Stack) (memory : Memory) (bytes : Nat) (core : Core) : Prop where
  room : frame.limit + bytes ≤ core.sp
  below : core.sp ≤ frame.sp
  base : core.work.regs 10 = frame.base
  visible : AgreeOn frame.Visible memory core.work.memory

structure Steady (frame : Stack) (first : Core) (memory : Memory) (second : Core) : Prop where
  sp : second.work.regs 14 = first.work.regs 14
  base : second.work.regs 10 = first.work.regs 10
  visible : AgreeOn frame.Visible memory second.work.memory
  kept : AgreeOn (fun address => first.sp ≤ address ∧ address < frame.sp) first.work.memory
    second.work.memory

variable {α : Type} {host : Host α} {frame : Stack}

theorem Ready.mono {memory : Memory} {bytes less : Nat} {core : Core}
    (ready : Ready frame memory bytes core) (fewer : less ≤ bytes) : Ready frame memory less core where
  room := by
    have room := ready.room
    omega
  below := ready.below
  base := ready.base
  visible := ready.visible

theorem Steady.ready {memory memory' : Memory} {bytes : Nat} {first second : Core}
    (ready : Ready frame memory bytes first) (steady : Steady frame first memory' second) :
    Ready frame memory' bytes second where
  room := by
    rw [Core.sp, steady.sp]
    exact ready.room
  below := by
    rw [Core.sp, steady.sp]
    exact ready.below
  base := steady.base.trans ready.base
  visible := steady.visible

theorem Ready.steady {memory : Memory} {bytes : Nat} {core : Core}
    (ready : Ready frame memory bytes core) : Steady frame core memory core where
  sp := rfl
  base := rfl
  visible := ready.visible
  kept := .refl _ _

theorem Steady.trans {memory memory' : Memory} {first second third : Core}
    (left : Steady frame first memory second) (right : Steady frame second memory' third) :
    Steady frame first memory' third where
  sp := right.sp.trans left.sp
  base := right.base.trans left.base
  visible := right.visible
  kept := by
    refine left.kept.trans (right.kept.mono fun address inside => ?_)
    rw [Core.sp, left.sp]
    exact inside

structure Work.Local (first second : Work) : Prop where
  sp : second.regs 14 = first.regs 14
  base : second.regs 10 = first.regs 10
  memory : second.memory = first.memory

theorem Steady.local {memory : Memory} {first second : Core}
    (steady : Steady frame first memory second) {work : Work} (same : second.work.Local work)
    (lastA lastB : BitVec 32) : Steady frame first memory ⟨work, lastA, lastB⟩ where
  sp := same.sp.trans steady.sp
  base := same.base.trans steady.base
  visible := by
    rw [same.memory]
    exact steady.visible
  kept := by
    rw [same.memory]
    exact steady.kept

theorem Work.local_set (work : Work) {reg : Fin 16} (value : BitVec 32) (not14 : reg ≠ 14)
    (not10 : reg ≠ 10) : work.Local (work.set reg value) where
  sp := Registers.set_other _ _ (Ne.symm not14)
  base := Registers.set_other _ _ (Ne.symm not10)
  memory := rfl

theorem Work.Local.trans {first second third : Work} (left : first.Local second)
    (right : second.Local third) : first.Local third where
  sp := right.sp.trans left.sp
  base := right.base.trans left.base
  memory := right.memory.trans left.memory

theorem Yields.local {work after : Work} {value : BitVec 32} (yields : Yields work after value) :
    work.Local after where
  sp := yields.others 14 (by decide) (by decide)
  base := yields.others 10 (by decide) (by decide)
  memory := yields.memory

structure Pushed (frame : Stack) (first second : Core) (value : BitVec 32) : Prop where
  sp : second.work.regs 14 = first.work.regs 14 - 4
  room : frame.limit + 4 ≤ first.sp ∧ first.sp ≤ frame.sp
  base : second.work.regs 10 = first.work.regs 10
  others : ∀ reg, reg ≠ 14 → second.work.regs reg = first.work.regs reg
  memory : second.work.memory = write32 first.work.memory (first.sp - 4) value

theorem Pushed.place {first second : Core} {value : BitVec 32}
    (pushed : Pushed frame first second value) : second.sp + 4 = first.sp := by
  have room := pushed.room.1
  rw [Core.sp, pushed.sp, BitVec.toNat_sub]
  have bound := (first.work.regs 14).isLt
  simp only [Core.sp] at room ⊢
  have four : (4 : BitVec 32).toNat = 4 := rfl
  omega

theorem does_push (sound : frame.Sound) (ram : host.ram = frame.ram) {memory : Memory} {bytes : Nat}
    {core : Core} (ready : Ready frame memory (4 + bytes) core) (reg : Fin 16) (not14 : reg ≠ 14) :
    ∃ after, Does host (emitPush reg) core after ∧ Ready frame memory bytes after ∧
      Pushed frame core after (core.work.regs reg) := by
  have room := ready.room
  have below := ready.below
  have low := sound.low
  have top := sound.top
  have bound := (core.work.regs 14).isLt
  have four : (4 : BitVec 16).zeroExtend 32 = (4 : BitVec 32) := rfl
  simp only [Core.sp] at room below
  have place : (core.work.regs 14 - 4).toNat = core.sp - 4 := by
    have value : (4 : BitVec 32).toNat = 4 := rfl
    rw [BitVec.toNat_sub, Core.sp]
    omega
  have pointer : (core.work.set 14 (core.work.regs 14 - 4)).regs 14 = core.work.regs 14 - 4 :=
    Work.set_same _ _ (by decide)
  have same : (core.work.set 14 (core.work.regs 14 - 4)).regs reg = core.work.regs reg :=
    Registers.set_other _ _ not14
  have store := @work_store host.ram .word 14 reg
    (core.work.set 14 (core.work.regs 14 - 4)) (by
      rw [pointer, place, ram, Core.sp, Width.bytes]
      omega)
  rw [pointer, same, place] at store
  have run : runCode host.ram [.alu .sub 14 14 (.imm 4), .store .word (.reg 14) reg] core.work =
      some ⟨(core.work.set 14 (core.work.regs 14 - 4)).regs,
        write32 core.work.memory (core.sp - 4) (core.work.regs reg)⟩ := by
    rw [runCode_cons, work_alu, Option.bind_some, runCode_cons, Source.read, four, AluOp.apply, store,
      Option.bind_some, runCode_nil]
    rfl
  refine ⟨_, does_lines run, ⟨?_, ?_, ?_, ?_⟩, ⟨pointer, ?_, ?_, ?_, rfl⟩⟩
  · change frame.limit + bytes ≤ ((core.work.set 14 (core.work.regs 14 - 4)).regs 14).toNat
    rw [pointer, place, Core.sp]
    omega
  · change ((core.work.set 14 (core.work.regs 14 - 4)).regs 14).toNat ≤ frame.sp
    rw [pointer, place, Core.sp]
    omega
  · exact (Registers.set_other _ _ (by decide)).trans ready.base
  · intro address visible
    refine (ready.visible address visible).trans (write32_outside _ _ _ _ ?_).symm
    rcases visible with under | above
    · rw [Core.sp]
      omega
    · rw [Core.sp]
      omega
  · rw [Core.sp]
    omega
  · exact Registers.set_other _ _ (by decide)
  · exact fun other not14 => Registers.set_other _ _ not14

theorem Pushed.word {first second : Core} {value : BitVec 32}
    (pushed : Pushed frame first second value) : read32 second.work.memory second.sp = value := by
  have place := pushed.place
  rw [pushed.memory, show second.sp = first.sp - 4 by omega, read32_write32_same]

/-- A push writes nothing but its word, which no expression may mention. -/
theorem Pushed.same {first second : Core} {value : BitVec 32}
    (pushed : Pushed frame first second value) {address : Nat}
    (outside : address < frame.limit ∨ first.sp ≤ address) :
    second.work.memory address = first.work.memory address := by
  have place := pushed.place
  have room := pushed.room
  rw [pushed.memory]
  exact write32_outside _ _ _ _ (by omega)

theorem does_pop (sound : frame.Sound) (ram : host.ram = frame.ram) {memory : Memory}
    {first second third : Core} {value : BitVec 32}
    (pushed : Pushed frame first second value) (steady : Steady frame second memory third)
    (target : Fin 16) (nonzero : target ≠ 0) (not14 : target ≠ 14) (not10 : target ≠ 10) :
    ∃ after, Does host (emitPop target) third after ∧ Steady frame first memory after ∧
      after.work.regs target = value ∧
      ∀ reg, reg ≠ target → reg ≠ 14 → after.work.regs reg = third.work.regs reg := by
  have place := pushed.place
  have room := pushed.room
  have top := sound.top
  have pointer : (third.work.regs 14).toNat = second.sp := by rw [steady.sp, Core.sp]
  have word : read32 third.work.memory second.sp = value := by
    rw [← pushed.word]
    refine (read32_congr (steady.kept.mono fun address inside => ?_)).symm
    omega
  have load := @work_load host.ram .word target 14 third.work
    (by rw [pointer, ram, Width.bytes]; omega)
  rw [pointer, Width.load, word] at load
  have four : (4 : BitVec 16).zeroExtend 32 = (4 : BitVec 32) := rfl
  have stack : (third.work.set target value).regs 14 = third.work.regs 14 :=
    Registers.set_other _ _ (Ne.symm not14)
  have run : runCode host.ram [.load .word target (.reg 14), .alu .add 14 14 (.imm 4)] third.work =
      some ((third.work.set target value).set 14 (third.work.regs 14 + 4)) := by
    rw [runCode_cons, load, Option.bind_some, runCode_cons, work_alu, stack, Source.read, four]
    rfl
  refine ⟨_, does_lines run, ⟨?_, ?_, steady.visible, ?_⟩, ?_, fun reg other not14 => ?_⟩
  · change ((third.work.set target value).set 14 (third.work.regs 14 + 4)).regs 14 = _
    rw [Work.set_same _ _ (by decide), steady.sp, pushed.sp, BitVec.sub_add_cancel]
  · change ((third.work.set target value).set 14 (third.work.regs 14 + 4)).regs 10 = _
    rw [Work.set_regs, if_neg (by decide), Work.set_regs, if_neg (fun both => not10 both.1.symm),
      steady.base, pushed.base]
  · intro address inside
    rw [← pushed.same (.inr inside.1)]
    exact steady.kept address (by omega)
  · change ((third.work.set target value).set 14 (third.work.regs 14 + 4)).regs target = _
    rw [Work.set_regs, if_neg (fun both => not14 both.1), Work.set_same _ _ nonzero]
  · change ((third.work.set target value).set 14 (third.work.regs 14 + 4)).regs reg = _
    rw [Work.set_regs, if_neg (fun both => not14 both.1), Work.set_regs,
      if_neg (fun both => other both.1)]

def Computes (host : Host α) (frame : Stack) (code : Emit α) (reg : Fin 16) (bytes : Nat)
    (meaning : Meaning) : Prop :=
  ∀ memory core value memory', meaning memory = some (value, memory') →
    Ready frame memory bytes core →
    ∃ after, Does host code core after ∧ Steady frame core memory' after ∧
      after.work.regs reg = value

def Continues (host : Host α) (frame : Stack) (code : Emit α) (source target : Fin 16) (bytes : Nat)
    (next : BitVec 32 → Meaning) : Prop :=
  ∀ memory core value value' memory', next value memory = some (value', memory') →
    Ready frame memory bytes core → core.work.regs source = value →
    ∃ after, Does host code core after ∧ Steady frame core memory' after ∧
      after.work.regs target = value'

def Combines (host : Host α) (frame : Stack) (code : Emit α) (other : Fin 16) (bytes : Nat)
    (next : BitVec 32 → BitVec 32 → Meaning) : Prop :=
  ∀ memory core first second value memory', next first second memory = some (value, memory') →
    Ready frame memory bytes core → core.work.regs other = first → core.work.regs 1 = second →
    ∃ after, Does host code core after ∧ Steady frame core memory' after ∧
      after.work.regs 1 = value

theorem Computes.mono {code : Emit α} {reg : Fin 16} {bytes more : Nat} {meaning : Meaning}
    (computes : Computes host frame code reg bytes meaning) (enough : bytes ≤ more) :
    Computes host frame code reg more meaning :=
  fun memory core value memory' means ready =>
    computes memory core value memory' means (ready.mono enough)

theorem Computes.bind {first second : Emit α} {source target : Fin 16} {bytes : Nat}
    {meaning : Meaning} {next : BitVec 32 → Meaning}
    (computes : Computes host frame first source bytes meaning)
    (continues : Continues host frame second source target bytes next) :
    Computes host frame (first ++ second) target bytes (meaning.bind next) := by
  intro memory core value memory' means ready
  obtain ⟨middle, memory₂, one, two⟩ := Evaluation.bind_eq_some.mp means
  obtain ⟨between, does, steady, held⟩ := computes _ _ _ _ one ready
  obtain ⟨after, does₂, steady₂, result⟩ := continues _ _ _ _ _ two (steady.ready ready) held
  exact ⟨after, does.append does₂, steady.trans steady₂, result⟩

/-- One value waits on the stack while the other is computed. -/
theorem Computes.combine (sound : frame.Sound) (ram : host.ram = frame.ram)
    {first second last : Emit α} {source target : Fin 16} {bytes bytes₂ bytes₃ : Nat}
    {meaning meaning₂ : Meaning} {next : BitVec 32 → BitVec 32 → Meaning}
    (notStack : source ≠ 14) (nonzero : target ≠ 0) (not14 : target ≠ 14) (not10 : target ≠ 10)
    (not1 : target ≠ 1) (left : Computes host frame first source bytes meaning)
    (right : Computes host frame second 1 bytes₂ meaning₂)
    (combines : Combines host frame last target bytes₃ next) :
    Computes host frame (first ++ emitPush source ++ second ++ emitPop target ++ last) 1
      (max bytes (max (4 + bytes₂) bytes₃))
      (meaning.bind fun x => meaning₂.bind fun y => next x y) := by
  intro memory core value memory' means ready
  obtain ⟨x, memory₂, one, rest⟩ := Evaluation.bind_eq_some.mp means
  obtain ⟨y, memory₃, two, three⟩ := Evaluation.bind_eq_some.mp rest
  obtain ⟨held, does, steady, isX⟩ := left _ _ _ _ one (ready.mono (by omega))
  have again := steady.ready ready
  obtain ⟨pushed, does₂, readyPushed, isPushed⟩ :=
    does_push sound ram (again.mono (show 4 + bytes₂ ≤ _ by omega)) _ notStack
  obtain ⟨computed, does₃, steady₃, isY⟩ := right _ _ _ _ two readyPushed
  obtain ⟨popped, does₄, steady₄, isFirst, others⟩ :=
    does_pop sound ram isPushed steady₃ _ nonzero not14 not10
  obtain ⟨after, does₅, steady₅, result⟩ := combines _ _ _ _ _ _ three
    (steady₄.ready again |>.mono (by omega)) (isFirst.trans isX)
    ((others 1 (Ne.symm not1) (by decide)).trans isY)
  exact ⟨after, (((does.append does₂).append does₃).append does₄).append does₅,
    steady.trans (steady₄.trans steady₅), result⟩

/-- Lines that work on registers alone. -/
theorem continues_ops {operations : Option (List Operation)} {source target : Fin 16} (bytes : Nat)
    {next : BitVec 32 → BitVec 32} (nonzero : target ≠ 0) (not14 : target ≠ 14) (not10 : target ≠ 10)
    (run : ∀ code, operations = some code → ∀ work : Work, ∃ after,
      runCode host.ram code work = some after ∧ work.Local after ∧
        after.regs target = next (work.regs source)) :
    Continues host frame (emitOps operations) source target bytes (fun value => .pure (next value)) := by
  rintro memory core value value' memory' ⟨⟩ ready rfl
  cases operations with
  | none =>
      refine ⟨⟨core.work.set target (next (core.work.regs source)), core.lastA, core.lastB⟩, ?_,
        ready.steady.local (core.work.local_set _ not14 not10) _ _, Work.set_same _ _ nonzero⟩
      rintro _ _ _ ⟨⟩
  | some code =>
      obtain ⟨after, runs, same, result⟩ := run code rfl core.work
      exact ⟨_, does_ops (by rintro code ⟨⟩; exact runs), ready.steady.local same _ _, result⟩

theorem continues_op {operation : Operation} {source target : Fin 16} (bytes : Nat)
    {next : BitVec 32 → BitVec 32} (nonzero : target ≠ 0) (not14 : target ≠ 14) (not10 : target ≠ 10)
    (run : ∀ work : Work, operation.work host.ram work =
      some (work.set target (next (work.regs source)))) :
    Continues host frame (emitOp operation) source target bytes (fun value => .pure (next value)) := by
  rintro memory core value value' memory' ⟨⟩ ready rfl
  exact ⟨_, does_op (run core.work), ready.steady.local (core.work.local_set _ not14 not10) _ _,
    Work.set_same _ _ nonzero⟩

theorem continues_nothing (reg : Fin 16) (bytes : Nat) :
    Continues host frame (emit []) reg reg bytes .pure := by
  rintro memory core value value' memory' ⟨⟩ ready rfl
  exact ⟨core, does_nothing core, ready.steady, rfl⟩

theorem combines_op {operation : Operation} (bytes : Nat) {next : BitVec 32 → BitVec 32 → BitVec 32}
    (run : ∀ work : Work, operation.work host.ram work =
      some (work.set 1 (next (work.regs 1) (work.regs 2)))) :
    Combines host frame (emitOp operation) 2 bytes (fun right left => .pure (next left right)) := by
  rintro memory core right left value memory' ⟨⟩ ready rfl rfl
  exact ⟨_, does_op (run core.work), ready.steady.local (core.work.local_set _ (by decide) (by decide))
    _ _, Work.set_same _ _ (by decide)⟩

theorem Combines.bind {first second : Emit α} {other : Fin 16} {bytes bytes₂ : Nat}
    {meaning : BitVec 32 → BitVec 32 → Meaning} {next : BitVec 32 → Meaning}
    (combines : Combines host frame first other bytes meaning)
    (continues : Continues host frame second 1 1 bytes₂ next) :
    Combines host frame (first ++ second) other (max bytes bytes₂)
      (fun x y => (meaning x y).bind next) := by
  intro memory core x y value memory' means ready isX isY
  obtain ⟨middle, memory₂, one, two⟩ := Evaluation.bind_eq_some.mp means
  obtain ⟨between, does, steady, held⟩ := combines _ _ _ _ _ _ one (ready.mono (by omega)) isX isY
  obtain ⟨after, does₂, steady₂, result⟩ := continues _ _ _ _ _ two
    ((steady.ready ready).mono (by omega)) held
  exact ⟨after, does.append does₂, steady.trans steady₂, result⟩

/-- What a condition jump decides. -/
theorem does_compare (unique : (codeLabels host.program).Nodup) (condition : Condition) (core : Core) :
    Does host (genCompare condition) core
      ⟨core.work.set 1 (truth (condition.holds (core.work.regs 1) (core.work.regs 2))),
        core.work.regs 1, core.work.regs 2⟩ := by
  rintro next lines next' ⟨⟩ before after place
  have atTrue := host.finds unique next (before ++ [.compare 1 2, .jumpIf condition next,
      .op (.move 1 (.imm 0)), .jump (next + 1)]) (.op (.move 1 (.imm 1)) :: .label (next + 1) ::
      after) (by rw [place]; simp)
  have atDone := host.finds unique (next + 1) (before ++ [.compare 1 2,
      .jumpIf condition next, .op (.move 1 (.imm 0)), .jump (next + 1), .label next,
      .op (.move 1 (.imm 1))]) after (by rw [place]; simp)
  have one : (Operation.move 1 (.imm 1)).work host.ram core.work = some (core.work.set 1 1) := rfl
  have zero : (Operation.move 1 (.imm 0)).work host.ram core.work = some (core.work.set 1 0) := rfl
  refine reaches_compare ?_
  cases decided : condition.holds (core.work.regs 1) (core.work.regs 2) with
  | true => exact reaches_taken decided atTrue (reaches_op one (reaches_label .refl))
  | false => exact reaches_passed decided (reaches_op zero (reaches_jump atDone .refl))

def Runtime.apply : Runtime → BitVec 32 → BitVec 32 → BitVec 32
  | .divsi3, left, right => SymphonyPlus.divsi3 left right
  | .modsi3, left, right => SymphonyPlus.modsi3 left right

structure Costs (α : Type) where
  call : α → Nat
  runtime : Nat

/-- The calls do what the setting says, and the runtime functions divide. -/
structure Faithful (host : Host α) (setting : Setting α) (costs : Costs α) : Prop where
  ram : host.ram = setting.frame.ram
  unique : (codeLabels host.program).Nodup
  runtime : ∀ which (work : Work), setting.frame.limit + costs.runtime ≤ (work.regs 14).toNat →
    ∃ after, host.outside.runtime which work = some after ∧
      after.regs 1 = which.apply (read32 work.memory (work.regs 14).toNat)
        (read32 work.memory ((work.regs 14).toNat + 4)) ∧
      after.regs 14 = work.regs 14 ∧ after.regs 10 = work.regs 10 ∧
      ∀ address, address < setting.frame.limit ∨ (work.regs 14).toNat ≤ address →
        after.memory address = work.memory address
  call : ∀ which memory core value memory', setting.calls which memory = some (value, memory') →
    Ready setting.frame memory (costs.call which) core →
    ∃ after, host.outside.call which core.work = some after ∧
      Steady setting.frame core memory' { core with work := after } ∧ after.regs 1 = value

variable {setting : Setting α} {costs : Costs α}

theorem combines_runtime (sound : setting.frame.Sound) (faithful : Faithful host setting costs)
    (which : Runtime) :
    Combines host setting.frame (genRuntime which) 2 (8 + costs.runtime)
      (fun right left => .pure (which.apply left right)) := by
  rintro memory core right left value memory' ⟨⟩ ready rfl rfl
  obtain ⟨one, does₁, ready₁, pushed₁⟩ := does_push sound faithful.ram
    (ready.mono (show 4 + (4 + costs.runtime) ≤ _ by omega)) 2 (by decide)
  obtain ⟨two, does₂, ready₂, pushed₂⟩ := does_push sound faithful.ram ready₁ 1 (by decide)
  have place₁ := pushed₁.place
  have place₂ := pushed₂.place
  obtain ⟨work, runs, result, stack, base, kept⟩ := faithful.runtime which two.work ready₂.room
  have first : read32 two.work.memory two.sp = core.work.regs 1 := by
    rw [pushed₂.word, pushed₁.others 1 (by decide)]
  have second : read32 two.work.memory (two.sp + 4) = core.work.regs 2 := by
    rw [place₂, ← pushed₁.word]
    exact read32_congr fun address inside => pushed₂.same (.inr inside.1)
  have eight : (8 : BitVec 16).zeroExtend 32 = (4 + 4 : BitVec 32) := rfl
  have last : (Operation.alu .add 14 14 (.imm 8)).work host.ram work =
      some (work.set 14 (core.work.regs 14)) := by
    rw [work_alu, Source.read, eight, AluOp.apply, stack, pushed₂.sp, pushed₁.sp, ← BitVec.add_assoc,
      BitVec.sub_add_cancel, BitVec.sub_add_cancel]
  have untouched : ∀ address, address < setting.frame.limit ∨ core.sp ≤ address →
      work.memory address = core.work.memory address := by
    intro address outside
    rw [kept address (by rcases outside with under | above
                         · exact .inl under
                         · right
                           change two.sp ≤ address
                           omega),
      pushed₂.same (by omega), pushed₁.same outside]
  refine ⟨⟨work.set 14 (core.work.regs 14), two.lastA, two.lastB⟩, (does₁.append does₂).append ?_,
    ⟨?_, ?_, ?_, ?_⟩, ?_⟩
  · rintro next lines next' ⟨⟩ before after -
    exact reaches_runtime runs (reaches_op last .refl)
  · exact Work.set_same _ _ (by decide)
  · change (work.set 14 _).regs 10 = _
    rw [Work.set_regs, if_neg (by decide), base, pushed₂.base, pushed₁.base]
  · intro address visible
    have below := ready.below
    refine (ready.visible address visible).trans (untouched address ?_).symm
    rcases visible with under | above
    · exact .inl under
    · right
      omega
  · exact fun address inside => (untouched address (.inr inside.1)).symm
  · change (work.set 14 _).regs 1 = _
    rw [Work.set_regs, if_neg (by decide), result]
    change which.apply (read32 two.work.memory two.sp) (read32 two.work.memory (two.sp + 4)) = _
    rw [first, second]

theorem continues_pointerQuotient (sound : setting.frame.Sound)
    (faithful : Faithful host setting costs) (build : Build) (val : Nat) :
    Continues host setting.frame (genPointerQuotient build val) 1 1 (8 + costs.runtime)
      (fun difference => .pure (pointerQuotient val difference)) := by
  have shift (amount : BitVec 16) : Continues host setting.frame
      (emitOp (.alu .asr 1 1 (.imm amount))) 1 1 (8 + costs.runtime) (fun difference =>
        .pure (difference.sshiftRight (amount.zeroExtend 32 &&& 31).toNat)) :=
    continues_op _ (by decide) (by decide) (by decide) fun work => rfl
  simp only [genPointerQuotient, pointerQuotient]
  split
  · exact continues_nothing 1 _
  · split
    · exact shift 1
    · split
      · exact shift 2
      · split
        · exact shift 3
        · rintro memory core difference value memory' ⟨⟩ ready rfl
          obtain ⟨one, does₁, ready₁, pushed₁⟩ := does_push sound faithful.ram
            (ready.mono (show 4 + 4 ≤ _ by omega)) 1 (by decide)
          have number : Does host (emitOps (genNumReg build 1 val)) one
              { one with work := one.work.set 1 (BitVec.ofInt 32 val) } :=
            does_ops fun code emitted => genNumReg_runs _ (by decide) emitted _
          have steady₁ := ready₁.steady.local
            (one.work.local_set (BitVec.ofInt 32 val) (show (1 : Fin 16) ≠ 14 by decide) (by decide)) one.lastA
            one.lastB
          obtain ⟨two, does₂, ready₂, pushed₂⟩ := does_push sound faithful.ram
            ((steady₁.ready ready₁).mono (show 4 + 0 ≤ _ by omega)) 1 (by decide)
          obtain ⟨three, does₃, steady₃, isVal, -⟩ := does_pop sound faithful.ram pushed₂
            ready₂.steady 2 (by decide) (by decide) (by decide)
          obtain ⟨four, does₄, steady₄, isDifference, others⟩ := does_pop sound faithful.ram pushed₁
            (steady₁.trans steady₃) 1 (by decide) (by decide) (by decide)
          obtain ⟨after, does₅, steady₅, result⟩ := combines_runtime sound faithful .divsi3 memory four
            (BitVec.ofNat 32 val) (core.work.regs 1) _ memory rfl (steady₄.ready ready)
            (by rw [others 2 (by decide) (by decide), isVal, Work.set_same _ _ (by decide),
              BitVec.ofInt_natCast]) isDifference
          exact ⟨after, ((((does₁.append number).append does₂).append does₃).append does₄).append does₅,
            steady₄.trans steady₅, result⟩

theorem Combines.mono {code : Emit α} {other : Fin 16} {bytes more : Nat}
    {next : BitVec 32 → BitVec 32 → Meaning} (combines : Combines host frame code other bytes next)
    (enough : bytes ≤ more) : Combines host frame code other more next :=
  fun memory core first second value memory' means ready =>
    combines memory core first second value memory' means (ready.mono enough)

theorem combines_compare (unique : (codeLabels host.program).Nodup) (condition : Condition)
    (bytes : Nat) : Combines host frame (genCompare condition) 2 bytes
      (fun right left => .pure (truth (condition.holds left right))) := by
  rintro memory core right left value memory' ⟨⟩ ready rfl rfl
  exact ⟨_, does_compare unique condition core,
    ready.steady.local (core.work.local_set _ (by decide) (by decide)) _ _,
    Work.set_same _ _ (by decide)⟩

/-- The operations that work on two values, all but the two that jump over their right operand. -/
theorem combines_operation (sound : setting.frame.Sound) (faithful : Faithful host setting costs)
    (build : Build) {kind : BinaryKind} (ty : CType) (val : Nat)
    (plain : kind ≠ .logand ∧ kind ≠ .logor) :
    Combines host setting.frame (genOperation build kind ty val) 2 (8 + costs.runtime)
      (fun right left => .pure (kind.apply ty val left right)) := by
  have alu (op : AluOp) : Combines host setting.frame (emitOp (.alu op 1 1 (.reg 2))) 2
      (8 + costs.runtime) (fun right left => .pure (op.apply left right)) :=
    combines_op _ fun _ => rfl
  have compare (condition : Condition) := @combines_compare _ _ setting.frame
    faithful.unique condition (8 + costs.runtime)
  cases kind with
  | mul => exact alu .mul
  | div =>
      simp only [genOperation, BinaryKind.apply]
      split
      · exact alu .div
      · exact combines_runtime sound faithful .divsi3
  | mod =>
      simp only [genOperation, BinaryKind.apply]
      split
      · exact alu .mod
      · exact combines_runtime sound faithful .modsi3
  | add => exact alu .add
  | sub =>
      exact ((alu .sub).bind (continues_pointerQuotient sound faithful build val)).mono (by omega)
  | eq => exact compare .je
  | ne => exact compare .jne
  | lt =>
      simp only [genOperation, BinaryKind.apply]
      split
      · exact compare .jb
      · exact compare .jl
  | le =>
      simp only [genOperation, BinaryKind.apply]
      split
      · exact compare .jbe
      · exact compare .jle
  | gt =>
      simp only [genOperation, BinaryKind.apply]
      split
      · exact compare .ja
      · exact compare .jg
  | ge =>
      simp only [genOperation, BinaryKind.apply]
      split
      · exact compare .jae
      · exact compare .jge
  | bitand => exact alu .and
  | bitor => exact alu .or
  | bitxor => exact alu .xor
  | lsl => exact alu .lsl
  | lsr =>
      simp only [genOperation, BinaryKind.apply]
      split
      · exact alu .lsr
      · exact alu .asr
  | logand => exact absurd rfl plain.1
  | logor => exact absurd rfl plain.2

end SymphonyPlus
