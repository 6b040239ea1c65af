import SymphonyPlus.CallCode
import SymphonyPlus.ExpressionRuns

/-!
Where `__builtin_va_start` points, and where the caller has put the variable arguments.
-/

namespace SymphonyPlus

open ByteMemory BitRanges

variable {α : Type} {host : Host α}

theorem does_vaStart {setting : Setting α} {costs : Costs α} (sound : setting.frame.Sound)
    (faithful : Faithful host setting costs) (build : Build) (params : List CType) (ret : CType)
    {ap : Node α} {memory memory' : Memory} {slot : BitVec 32} {core : Core}
    (ready : Ready setting.frame memory (max (ap.bytes costs) 4) core)
    (means : evalAddress setting ap memory = some (slot, memory'))
    (writes : setting.frame.writes slot 4) :
    ∃ after, Does host (genVaStart build setting.naming params ret ap) core after ∧
      Steady setting.frame core (write32 memory' slot.toNat (core.work.regs 10 +
        BitVec.ofNat 32 (8 + 4 * params.length + retbufBytes ret))) after := by
  obtain ⟨low, reads⟩ := Stack.writes_visible writes
  obtain ⟨inside, -⟩ := Stack.reads_visible reads
  obtain ⟨one, does₁, steady₁, isSlot⟩ := (node_computes sound faithful build ap).address _ _ _ _ means
    (ready.mono (Nat.le_max_left _ _))
  have ready₁ := (steady₁.ready ready).mono (Nat.le_max_right _ _)
  obtain ⟨two, does₂, ready₂, pushed⟩ :=
    does_push sound faithful.ram (ready₁.mono (show 4 + 0 ≤ 4 by omega)) 9 (by decide)
  have does₃ : Does host (emitOp (.move 9 (.reg 10))) two
      ⟨two.work.set 9 (two.work.regs 10), two.lastA, two.lastB⟩ := does_op rfl
  have does₄ := @does_imm _ host (.alu .add 9 9) (8 + 4 * params.length + retbufBytes ret)
    ⟨two.work.set 9 (two.work.regs 10), two.lastA, two.lastB⟩ 9
    (two.work.regs 10 + BitVec.ofNat 32 (8 + 4 * params.length + retbufBytes ret))
    (fun constant reads => by
      rw [work_alu, reads, AluOp.apply, Work.set_same _ _ (show (9 : Fin 16) ≠ 0 by decide)])
  rw [Work.set_set] at does₄
  have steady₂ := ready₂.steady.local (two.work.local_set (two.work.regs 10 +
    BitVec.ofNat 32 (8 + 4 * params.length + retbufBytes ret)) (show (9 : Fin 16) ≠ 14 by decide)
    (by decide)) two.lastA two.lastB
  obtain ⟨five, does₅, steady₃, isSlot₂, others⟩ := does_pop sound faithful.ram pushed steady₂ 2
    (by decide) (by decide) (by decide)
  have isPointer : five.work.regs 9 = core.work.regs 10 +
      BitVec.ofNat 32 (8 + 4 * params.length + retbufBytes ret) := by
    rw [others 9 (by decide) (by decide), Work.set_same _ _ (by decide), pushed.base, steady₁.base]
  rw [isSlot] at isSlot₂
  have store := @work_store host.ram .word 2 9 five.work (by
    rw [isSlot₂, faithful.ram, Width.bytes]
    exact ⟨low, inside⟩)
  rw [isSlot₂, isPointer] at store
  have does₆ := @does_op _ host _ five _ store
  refine ⟨_, ((((does₁.append does₂).append does₃).append does₄).append does₅).append does₆, ?_⟩
  refine steady₁.trans (steady₃.trans ⟨rfl, rfl, ?_, ?_⟩)
  · exact store_visible steady₃.visible .word _ _
  · have room := ready₁.room
    have same : five.sp = one.sp := congrArg BitVec.toNat steady₃.sp
    exact @store_kept_stack _ _ .word _ _ reads (by omega) _

/-- A type that a parameter or a result may have: arrays and functions have become pointers, and
`struct_members` rounds the sizes of aggregates. -/
structure CType.Passable (ty : CType) : Prop where
  positive : 0 < ty.size
  scalar : ty.isAgg = false → ty.size ≤ 4
  aggregate : ty.isAgg → ty.size % 4 = 0

theorem CType.Passable.padded {ty : CType} (passable : ty.Passable) :
    SymphonyPlus.padded ty.size = ty.pushed := by
  obtain ⟨positive, scalar, aggregate⟩ := passable
  rw [SymphonyPlus.padded, CType.pushed]
  cases kind : ty.isAgg with
  | false =>
      have small := scalar kind
      rw [if_neg Bool.false_ne_true]
      omega
  | true =>
      have whole := aggregate kind
      rw [if_pos rfl]
      omega

theorem retbufBytes_eq {ret : CType} (passable : ret.Passable) : retbufBytes ret = retBytes ret := by
  rw [retbufBytes, retBytes]
  split
  · rename_i aggregate
    rw [passable.padded, CType.pushed, if_pos aggregate]
  · rfl

def pushedParams (params : List CType) : Nat := (params.map CType.pushed).sum

theorem slotBytes_eq {params : List CType} (passable : ∀ ty ∈ params, ty.Passable) :
    slotBytes params = pushedParams params := by
  induction params with
  | nil => rfl
  | cons ty rest ih =>
      rw [slotBytes_cons, (passable ty List.mem_cons_self).padded,
        ih fun other member => passable other (List.mem_cons_of_mem _ member)]
      rfl

/-- The parameters take a word each exactly when no aggregate is longer. -/
theorem pushedParams_words {params : List CType} (passable : ∀ ty ∈ params, ty.Passable) :
    4 * params.length ≤ pushedParams params ∧
      (pushedParams params = 4 * params.length ↔ ∀ ty ∈ params, ty.isAgg → ty.size = 4) := by
  induction params with
  | nil => exact ⟨Nat.le_refl _, by simp [pushedParams]⟩
  | cons ty rest ih =>
      obtain ⟨enough, words⟩ := ih fun other member => passable other (List.mem_cons_of_mem _ member)
      obtain ⟨positive, -, aggregate⟩ := passable ty List.mem_cons_self
      have sum : pushedParams (ty :: rest) = ty.pushed + pushedParams rest := rfl
      have word : 4 ≤ ty.pushed ∧ (ty.pushed = 4 ↔ (ty.isAgg → ty.size = 4)) := by
        rw [CType.pushed]
        cases kind : ty.isAgg with
        | false => simp
        | true =>
            have whole := aggregate kind
            simp only [↓reduceIte, true_implies, iff_self, and_true]
            omega
      rw [sum, List.length_cons, List.forall_mem_cons, ← word.2, ← words]
      omega

/-- A call of a function with these parameters and further arguments, and the room that it needs. -/
structure VariadicCall (host : Host α) (params : List CType) (ret : CType) (frameSize : Nat) where
  setting : Setting α
  costs : Costs α
  sound : setting.frame.Sound
  faithful : Faithful host setting costs
  build : Build
  fixed : List (Node α)
  further : List (Node α)
  /-- The arguments have the types of the parameters, up to conversions that keep the words. -/
  same : pushedBytes fixed = pushedParams params
  scalar : ∀ arg ∈ further, arg.ty.isAgg = false
  core : Core
  memory : Memory
  middle : Memory
  final : Memory
  values : List (BitVec 32)
  fixedValues : List (BitVec 32)
  evaluated : evalArgs setting further memory = some (values, middle)
  evaluatedFixed : evalArgs setting fixed middle = some (fixedValues, final)
  ready : Ready setting.frame memory (max (argBytes costs further) (pushedBytes further +
    max (argBytes costs fixed) (pushedBytes fixed + (retBytes ret + (8 + frameSize))))) core
  /-- Both sides are compiled, unless the arguments are too many for the compiler. -/
  caller : (fixed ++ further).length ≤ 64 →
    Nonempty (Placed host (genCallArgs build setting.naming (fixed ++ further) ret))
  callee : Placed host (genPrologue params ret frameSize)

/-- A state of the body of a function that was entered at `entered`: `ap` is about to be set. The
arguments from `first` on are as they were, and `ap` lies elsewhere. -/
structure VaStarts (host : Host α) (build : Build) (params : List CType) (ret : CType)
    (entered : Core) (first : Nat) (values : List (BitVec 32)) where
  setting : Setting α
  costs : Costs α
  sound : setting.frame.Sound
  faithful : Faithful host setting costs
  base : setting.frame.base = entered.work.regs 10
  top : setting.frame.sp = entered.sp
  ap : Node α
  code : Placed host (genVaStart build setting.naming params ret ap)
  core : Core
  memory : Memory
  final : Memory
  slot : BitVec 32
  ready : Ready setting.frame memory (max (ap.bytes costs) 4) core
  located : evalAddress setting ap memory = some (slot, final)
  writes : setting.frame.writes slot 4
  kept : ∀ address, first ≤ address → address < first + 4 * values.length →
    final address = entered.work.memory address
  apart : slot.toNat + 4 ≤ first ∨ first + 4 * values.length ≤ slot.toNat

variable {params : List CType} {ret : CType} {frameSize : Nat}

/-- Behind the result buffer and the fixed arguments. -/
def firstArgument (params : List CType) (ret : CType) (pushed : Core) : Nat :=
  pushed.sp + (retBytes ret + pushedParams params)

/-- The caller's side: where the variable arguments are when all arguments have been pushed. -/
structure VariadicCall.Passes (call : VariadicCall host params ret frameSize) (pushed : Core) :
    Prop where
  does : Does host (genArgs call.build call.setting.naming (call.fixed ++ call.further) ++
    genRetbuf ret) call.core pushed
  room : call.setting.frame.limit + (8 + frameSize) ≤ pushed.sp
  under : firstArgument params ret pushed ≤ call.core.sp
  top : firstArgument params ret pushed + 4 * call.values.length ≤ call.setting.frame.sp
  words : WordsAt pushed.work.memory (firstArgument params ret pushed) call.values

theorem VariadicCall.passes (call : VariadicCall host params ret frameSize) :
    ∃ pushed, call.Passes pushed := by
  have ready := call.ready
  obtain ⟨below, does₁, lowered₁, words⟩ := does_args call.sound call.faithful call.build
    (ready.mono (Nat.le_max_left _ _)) call.evaluated
  have ready₁ := lowered₁.ready (ready.mono (Nat.le_max_right _ _))
  obtain ⟨middle, does₂, lowered₂, -⟩ := does_args call.sound call.faithful call.build
    (ready₁.mono (Nat.le_max_left _ _)) call.evaluatedFixed
  have ready₂ := lowered₂.ready (ready₁.mono (Nat.le_max_right _ _))
  obtain ⟨pushed, does₃, lowered₃⟩ := @does_retbuf _ host _ _ _ ret
    (ready₂.mono (Nat.le_add_right _ _))
  have ready₃ := lowered₃.ready ready₂
  have lowered := lowered₂.trans lowered₃
  have length := evalArgs_length call.evaluated
  have scalar := pushedBytes_scalar call.scalar
  have sp₁ := lowered₁.sp
  have below₁ := ready.below
  have space : below.sp + 4 * call.values.length ≤ call.setting.frame.sp := by omega
  have first : firstArgument params ret pushed = below.sp := by
    have sp := lowered.sp
    rw [call.same] at sp
    rw [firstArgument]
    omega
  refine ⟨pushed, ?_, ready₃.room, by omega, by rwa [first], ?_⟩
  · rw [genArgs_append]
    exact (does₁.append does₂).append does₃
  · rw [first]
    exact (words call.scalar).congr fun query above under => lowered.kept query (by omega)

/-- The callee's side: the frame base lies two words under the arguments. -/
theorem VariadicCall.enters (call : VariadicCall host params ret frameSize)
    (passable : ∀ ty ∈ params, ty.Passable) (result : ret.Passable)
    (slots : slotBytes params ≤ frameSize) {pushed : Core} (passes : call.Passes pushed)
    (back : BitVec 32) :
    ∃ entered, Does host (genPrologue params ret frameSize) (pushed.enter back) entered ∧
      (entered.work.regs 10).toNat + 8 = pushed.sp ∧ entered.sp + (8 + frameSize) = pushed.sp ∧
      ∀ address, pushed.sp ≤ address → entered.work.memory address = pushed.work.memory address := by
  have room := passes.room
  have top := passes.top
  rw [firstArgument] at top
  have inside := call.sound.top
  have low := call.sound.low
  have stack := Core.enter_sp (show 4 ≤ pushed.sp by omega) back
  have ram := call.faithful.ram
  have bytes := slotBytes_eq passable
  have buffer := retbufBytes_eq result
  obtain ⟨entered, does, enters⟩ := @does_prologue _ host (by rw [ram]; exact call.sound.small) params ret
    frameSize (pushed.enter back) (fun ty member => (passable ty member).positive) slots
    (by rw [ram]; omega) (by rw [ram]; omega)
  have base := enters.base
  have lower := enters.sp
  refine ⟨entered, does, by omega, by omega, fun address above => ?_⟩
  rw [enters.memory address (by omega)]
  exact Core.enter_memory (by omega) back above

/-- What `va_start` leaves in its variable, and the arguments behind it. -/
theorem VaStarts.sets {build : Build} {entered : Core} {first : Nat} {values : List (BitVec 32)}
    (start : VaStarts host build params ret entered first values) (above : entered.sp ≤ first)
    (words : WordsAt entered.work.memory first values) :
    ∃ final, start.code.Runs start.core final ∧
      read32 final.work.memory start.slot.toNat = entered.work.regs 10 +
        BitVec.ofNat 32 (8 + 4 * params.length + retbufBytes ret) ∧
      WordsAt final.work.memory first values := by
  obtain ⟨final, does, steady⟩ := does_vaStart start.sound start.faithful build params ret start.ready
    start.located start.writes
  obtain ⟨-, reads⟩ := Stack.writes_visible start.writes
  have visible := (Stack.reads_visible reads).2
  have kept := start.kept
  have apart := start.apart
  have top := start.top
  refine ⟨final, does.runs start.code, ?_, ?_⟩
  · rw [← start.base, ← start.ready.base]
    refine (read32_congr fun query inside => (steady.visible query ?_).symm).trans
      (read32_write32_same _ _ _)
    have here := visible (query - start.slot.toNat) (by omega)
    rwa [show start.slot.toNat + (query - start.slot.toNat) = query by omega] at here
  · refine words.congr fun query from_ until_ => ?_
    rw [← kept query from_ until_, ← steady.visible query (.inr (by omega))]
    exact (write32_outside _ _ _ _ (by omega)).symm

/-- The pointer is right, and the arguments are there. -/
def FindsArguments (values : List (BitVec 32)) (first : Nat) (slot : BitVec 32) (final : Core) : Prop :=
  read32 final.work.memory slot.toNat = BitVec.ofNat 32 first ∧ WordsAt final.work.memory first values

theorem VariadicCall.finds (call : VariadicCall host params ret frameSize) (result : ret.Passable)
    {pushed entered final : Core} (passes : call.Passes pushed) {slot : BitVec 32}
    (base : (entered.work.regs 10).toNat + 8 = pushed.sp)
    (points : read32 final.work.memory slot.toNat = entered.work.regs 10 +
      BitVec.ofNat 32 (8 + 4 * params.length + retbufBytes ret))
    (enough : 4 * params.length ≤ pushedParams params)
    (words : WordsAt final.work.memory (firstArgument params ret pushed) call.values) :
    FindsArguments call.values (firstArgument params ret pushed) slot final ↔
      pushedParams params = 4 * params.length := by
  have under := passes.under
  have bound : call.core.sp < 2 ^ 32 := (call.core.work.regs 14).isLt
  rw [firstArgument] at under words ⊢
  have isPointer : (entered.work.regs 10 +
      BitVec.ofNat 32 (8 + 4 * params.length + retbufBytes ret)).toNat =
      pushed.sp + (retBytes ret + 4 * params.length) := by
    rw [retbufBytes_eq result, BitVec.toNat_add, BitVec.toNat_ofNat]
    omega
  have isTarget : (BitVec.ofNat 32 (pushed.sp + (retBytes ret + pushedParams params))).toNat =
      pushed.sp + (retBytes ret + pushedParams params) := by
    rw [BitVec.toNat_ofNat, Nat.mod_eq_of_lt (by omega)]
  rw [FindsArguments, points, and_iff_left words, ← BitVec.toNat_inj, isPointer, isTarget]
  omega

theorem genCallArgs_fits {build : Build} {naming : Naming} {args : List (Node α)} {ret : CType}
    (placed : Placed host (genCallArgs build naming args ret)) : args.length ≤ 64 := by
  by_contra many
  have fails : genCallArgs build naming args ret = emitFailure := if_pos (Nat.lt_of_not_le many)
  exact absurd (placed.emitted.symm.trans (congrFun fails _)) nofun

/-- The arguments of the call are compiled exactly where they fit the compiler's array. `va_start`
finds the variable ones exactly in the functions whose fixed parameters of struct or union type are
one word long. -/
theorem vaStart_finds_iff (passable : ∀ ty ∈ params, ty.Passable) (result : ret.Passable)
    (slots : slotBytes params ≤ frameSize) (call : VariadicCall host params ret frameSize) :
    (Nonempty (Placed host (genCallArgs call.build call.setting.naming (call.fixed ++ call.further)
        ret)) ↔ (call.fixed ++ call.further).length ≤ 64) ∧
    ∀ caller : Placed host (genCallArgs call.build call.setting.naming (call.fixed ++ call.further)
        ret), ∃ pushed, caller.Runs call.core pushed ∧
      ∀ back, ∃ entered, call.callee.Runs (pushed.enter back) entered ∧
        call.setting.frame.limit ≤ entered.sp ∧ entered.sp ≤ firstArgument params ret pushed ∧
        firstArgument params ret pushed ≤ call.core.sp ∧
        ∀ start : VaStarts host call.build params ret entered (firstArgument params ret pushed)
            call.values, ∃ final, start.code.Runs start.core final ∧
          (FindsArguments call.values (firstArgument params ret pushed) start.slot final ↔
            ∀ ty ∈ params, ty.isAgg → ty.size = 4) := by
  refine ⟨⟨fun ⟨placed⟩ => genCallArgs_fits placed, call.caller⟩, fun caller => ?_⟩
  obtain ⟨pushed, passes⟩ := call.passes
  have does := passes.does
  have whole : genCallArgs call.build call.setting.naming (call.fixed ++ call.further) ret =
      genArgs call.build call.setting.naming (call.fixed ++ call.further) ++ genRetbuf ret :=
    if_neg (Nat.not_lt_of_le (genCallArgs_fits caller))
  rw [← whole] at does
  refine ⟨pushed, does.runs caller, fun back => ?_⟩
  obtain ⟨entered, enters, base, lower, same⟩ := call.enters passable result slots passes back
  obtain ⟨enough, words⟩ := pushedParams_words passable
  have above : pushed.sp ≤ firstArgument params ret pushed := Nat.le_add_right _ _
  have room := passes.room
  refine ⟨entered, enters.runs call.callee, by omega, by omega, passes.under, fun start => ?_⟩
  obtain ⟨final, sets, points, arguments⟩ := start.sets (by omega)
    (passes.words.congr fun query under _ => (same query (by omega)).symm)
  exact ⟨final, sets, (call.finds result passes base points enough arguments).trans words⟩

section Examples

theorem int_passable : tyInt.Passable := ⟨by decide, fun _ => by decide, nofun⟩

theorem wideStruct_passable : (CType.struct 8).Passable := ⟨by decide, nofun, fun _ => by decide⟩

def callSetting : Setting Empty where
  frame := ⟨⟨16, 1024⟩, 64, 512, 600⟩
  naming := ⟨fun _ => 100, fun _ => true⟩
  calls := Empty.elim

def callCore : Core := ⟨⟨(Registers.clear.set 14 512).set 10 600, fun _ => 0⟩, 0, 0⟩

def apNode : Node Empty := .gvar "ap" (.ptr (.char false))

def apNaming : Naming := ⟨fun _ => 24, fun _ => true⟩

def linesOf (code : Emit Empty) : List (CodeLine Empty) := ((code 0).map Prod.fst).getD []

def callCode (arg : Node Empty) : Emit Empty :=
  genCallArgs .host callSetting.naming [arg, newNumNode 7] tyInt

def enterCode (arg : Node Empty) : Emit Empty := genPrologue [arg.ty] tyInt 8

def startCode (arg : Node Empty) : Emit Empty := genVaStart .host apNaming [arg.ty] tyInt apNode

def callProgram (arg : Node Empty) : List (CodeLine Empty) :=
  linesOf (callCode arg) ++ (linesOf (enterCode arg) ++ linesOf (startCode arg))

def callHost (arg : Node Empty) : Host Empty := { instantRuntime (callProgram arg) with ram := ⟨16, 1024⟩ }

theorem callHost_faithful {arg : Node Empty} (unique : (codeLabels (callProgram arg)).Nodup)
    (setting : Setting Empty) (ram : setting.frame.ram = ⟨16, 1024⟩) :
    Faithful (callHost arg) setting ⟨fun which => which.elim, 0⟩ where
  ram := ram.symm
  unique := unique
  runtime which work _ :=
    ⟨_, rfl, Work.set_same _ _ (by decide), Registers.set_other _ _ (by decide),
      Registers.set_other _ _ (by decide), fun _ _ => rfl⟩
  call which := which.elim

def placedAt {host : Host Empty} (code : Emit Empty) (emitted : (code 0).isSome)
    (before after : List (CodeLine Empty)) (place : host.program = before ++ (linesOf code ++ after)) :
    Placed host code where
  next := 0
  next' := ((code 0).get emitted).2
  before := before
  lines := linesOf code
  after := after
  emitted := by
    obtain ⟨both, isSome⟩ := Option.isSome_iff_exists.mp emitted
    simp only [linesOf, isSome, Option.map_some, Option.getD_some, Option.get_some]
  place := place

theorem callHost_caller {arg : Node Empty} (emitted : (callCode arg 0).isSome) :
    Nonempty (Placed (callHost arg) (callCode arg)) :=
  ⟨placedAt _ emitted [] (linesOf (enterCode arg) ++ linesOf (startCode arg)) rfl⟩

def callHost_callee {arg : Node Empty} (emitted : (enterCode arg 0).isSome) :
    Placed (callHost arg) (enterCode arg) :=
  placedAt _ emitted (linesOf (callCode arg)) (linesOf (startCode arg)) rfl

/-- `va_start(ap, arg)` at the beginning of the body, with `ap` at 24. -/
theorem callHost_starts {arg : Node Empty} (unique : (codeLabels (callProgram arg)).Nodup)
    (emitted : (startCode arg 0).isSome) (entered : Core) (room : 64 ≤ entered.sp)
    (top : entered.sp ≤ 1024) (first : Nat) (above : entered.sp ≤ first) :
    Nonempty (VaStarts (callHost arg) .host [arg.ty] tyInt entered first [7]) := by
  constructor
  exact {
    setting := ⟨⟨⟨16, 1024⟩, 32, entered.sp, entered.work.regs 10⟩, apNaming, Empty.elim⟩
    costs := ⟨fun which => which.elim, 0⟩
    sound := ⟨show 16 ≤ 32 by decide, top, show 1024 ≤ 2 ^ 32 by decide⟩
    faithful := callHost_faithful unique _ rfl
    base := rfl
    top := rfl
    ap := apNode
    code := placedAt (startCode arg) emitted (linesOf (callCode arg) ++ linesOf (enterCode arg)) [] (by
      rw [List.append_nil, List.append_assoc]
      rfl)
    core := entered
    memory := entered.work.memory
    final := entered.work.memory
    slot := 24
    ready := ⟨show 32 + 4 ≤ entered.sp by omega, Nat.le_refl _, rfl, .refl _ _⟩
    located := rfl
    writes := by simp [Stack.writes, Stack.reads]
    kept := fun _ _ _ => rfl
    apart := .inl (show 24 + 4 ≤ first by omega) }

def scalarCall : VariadicCall (callHost (newNumNode 1)) [tyInt] tyInt 8 where
  setting := callSetting
  costs := ⟨fun which => which.elim, 0⟩
  sound := ⟨by decide, by decide, by decide⟩
  faithful := callHost_faithful (by decide) _ rfl
  build := .host
  fixed := [newNumNode 1]
  further := [newNumNode 7]
  same := rfl
  scalar arg member := by
    cases List.mem_singleton.mp member
    rfl
  core := callCore
  memory := fun _ => 0
  middle := fun _ => 0
  final := fun _ => 0
  values := [7]
  fixedValues := [1]
  evaluated := rfl
  evaluatedFixed := rfl
  ready := ⟨by decide, by decide, rfl, .refl _ _⟩
  caller _ := callHost_caller (by decide)
  callee := callHost_callee (by decide)

theorem scalarCall_finds :
    ∃ pushed entered final, ∃ caller : Placed (callHost (newNumNode 1)) (callCode (newNumNode 1)),
      ∃ start : VaStarts (callHost (newNumNode 1)) .host [tyInt] tyInt entered
          (firstArgument [tyInt] tyInt pushed) [7],
        caller.Runs callCore pushed ∧ scalarCall.callee.Runs (pushed.enter 0) entered ∧
          start.code.Runs start.core final ∧
          FindsArguments [7] (firstArgument [tyInt] tyInt pushed) start.slot final := by
  obtain ⟨compiled, runs⟩ := vaStart_finds_iff (List.forall_mem_singleton.mpr int_passable)
    int_passable (by decide) scalarCall
  obtain ⟨caller⟩ := compiled.mpr (by decide)
  obtain ⟨pushed, passes, enters⟩ := runs caller
  obtain ⟨entered, isEntered, room, above, under, sets⟩ := enters 0
  have low : 64 ≤ entered.sp := room
  have top : firstArgument [tyInt] tyInt pushed ≤ 512 := under
  obtain ⟨start⟩ := @callHost_starts (newNumNode 1) (by decide) (by decide) entered low (by omega)
    (firstArgument [tyInt] tyInt pushed) above
  obtain ⟨final, isFinal, finds⟩ := sets start
  exact ⟨pushed, entered, final, caller, start, passes, isEntered, isFinal, finds.mpr (by decide)⟩

def structS : Node Empty := .gvar "s" (.struct 8)

def structCall : VariadicCall (callHost structS) [.struct 8] tyInt 8 where
  setting := callSetting
  costs := ⟨fun which => which.elim, 0⟩
  sound := ⟨by decide, by decide, by decide⟩
  faithful := callHost_faithful (by decide) _ rfl
  build := .host
  fixed := [structS]
  further := [newNumNode 7]
  same := rfl
  scalar arg member := by
    cases List.mem_singleton.mp member
    rfl
  core := callCore
  memory := fun _ => 0
  middle := fun _ => 0
  final := fun _ => 0
  values := [7]
  fixedValues := [100]
  evaluated := rfl
  evaluatedFixed := rfl
  ready := ⟨by decide, by decide, rfl, .refl _ _⟩
  caller _ := callHost_caller (by decide)
  callee := callHost_callee (by decide)

/-- The pointer is one word short, on the second word of `s`. -/
theorem structCall_misses :
    ∃ pushed entered final, ∃ caller : Placed (callHost structS) (callCode structS),
      ∃ start : VaStarts (callHost structS) .host [.struct 8] tyInt entered
          (firstArgument [.struct 8] tyInt pushed) [7],
        caller.Runs callCore pushed ∧ structCall.callee.Runs (pushed.enter 0) entered ∧
          start.code.Runs start.core final ∧
          ¬FindsArguments [7] (firstArgument [.struct 8] tyInt pushed) start.slot final := by
  have passable := List.forall_mem_singleton.mpr wideStruct_passable
  obtain ⟨caller⟩ := @callHost_caller structS (by decide)
  obtain ⟨pushed, passes⟩ := structCall.passes
  obtain ⟨entered, does, base, lower, same⟩ :=
    structCall.enters passable int_passable (by decide) passes 0
  have room : 64 + (8 + 8) ≤ pushed.sp := passes.room
  have top : firstArgument [.struct 8] tyInt pushed + 4 * 1 ≤ 512 := passes.top
  have above : pushed.sp ≤ firstArgument [.struct 8] tyInt pushed := Nat.le_add_right _ _
  obtain ⟨start⟩ := @callHost_starts structS (by decide) (by decide) entered (by omega) (by omega)
    (firstArgument [.struct 8] tyInt pushed) (by omega)
  obtain ⟨final, sets, points, arguments⟩ := start.sets (by omega)
    (passes.words.congr fun query under _ => (same query (by omega)).symm)
  refine ⟨pushed, entered, final, caller, start, ?_, does.runs _, sets, ?_⟩
  · exact passes.does.runs caller
  · exact fun finds => absurd ((structCall.finds int_passable passes base points (by decide)
      arguments).mp finds) (by decide)

end Examples

end SymphonyPlus
