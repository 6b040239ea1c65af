import SymphonyPlus.ExpressionCorrect

/-!
The two sides of a call: the arguments that `ND_CALL` pushes and the beginning of `gen_func`, in
`symcc/src/codegen.c`.
-/

namespace SymphonyPlus

open ByteMemory BitRanges

variable {α : Type}

def CType.pushed (ty : CType) : Nat := if ty.isAgg then ty.size else 4

def genPushArg (ty : CType) : Emit α :=
  if ty.isAgg then
    emitImm (.alu .sub 14 14) ty.size ++ emitOp (.move 9 (.reg 14)) ++ emitOps (genBlockCopy ty.size)
  else emitPush 1

/-- The arguments are evaluated from the right to the left. -/
def genArgs (build : Build) (naming : Naming) : List (Node α) → Emit α
  | [] => emit []
  | arg :: rest => genArgs build naming rest ++ genExpr build naming arg ++ genPushArg arg.ty

def genRetbuf (ret : CType) : Emit α :=
  if ret.isAgg then emitImm (.alu .sub 14 14) ret.size else emit []

/-- `ND_CALL` up to the call itself. -/
def genCallArgs (build : Build) (naming : Naming) (args : List (Node α)) (ret : CType) : Emit α :=
  -- the nodes are collected in `Node *args[64]`, and nothing keeps a further one out
  if 64 < args.length then emitFailure
  else genArgs build naming args ++ genRetbuf ret

def padded (size : Nat) : Nat := (size + 3) / 4 * 4

def genParam (ty : CType) (argOff slotOff : Nat) : Emit α :=
  if ty.isAgg then
    emitImm (.alu .add 1 10) argOff ++ emitImm (.alu .sub 9 10) slotOff ++ emitOps (genBlockCopy ty.size)
  else
    emitImm (.alu .add 9 10) argOff ++ emitOp (.load .word 1 (.reg 9)) ++
      emitImm (.alu .sub 9 10) slotOff ++ emitOps (some (genStore ty))

def genParams : List CType → Nat → Nat → Emit α
  | [], _, _ => emit []
  | ty :: rest, argOff, slotOff =>
      genParam ty argOff (slotOff + padded ty.size) ++
        genParams rest (argOff + padded ty.size) (slotOff + padded ty.size)

def retbufBytes (ret : CType) : Nat := if ret.isAgg then padded ret.size else 0

/-- `gen_func`, before the body. -/
def genPrologue (params : List CType) (ret : CType) (frameSize : Nat) : Emit α :=
  emitPush 10 ++ emitOp (.move 10 (.reg 14)) ++
    (if frameSize = 0 then emit [] else emitImm (.alu .sub 14 14) frameSize) ++
    genParams params (8 + retbufBytes ret) 0

/-- `__builtin_va_start` in a function with these parameters. -/
def genVaStart (build : Build) (naming : Naming) (params : List CType) (ret : CType) (ap : Node α) :
    Emit α :=
  genLaddr build naming ap ++ emitPush 9 ++ emitOp (.move 9 (.reg 10)) ++
    emitImm (.alu .add 9 9) (8 + 4 * params.length + retbufBytes ret : Nat) ++ emitPop 2 ++
    emitOp (.store .word (.reg 2) 9)

/-- A call instruction leaves its return address on the stack. -/
def Core.enter (core : Core) (back : BitVec 32) : Core :=
  { core with work :=
      ⟨core.work.regs.set 14 (core.work.regs 14 - 4), write32 core.work.memory (core.sp - 4) back⟩ }

section Blocks

variable {host : Host α} {frame : Stack}

theorem imm16_toNat {value : Nat} {source : Source} (fits : imm16 value = some source)
    (regs : Registers) : (source.read regs).toNat = value ∧ value < 2 ^ 16 := by
  have read := imm16_read fits regs
  rw [imm16] at fits
  split at fits
  · rename_i bounds
    rw [read, BitVec.ofInt_natCast, BitVec.toNat_ofNat]
    omega
  · cases fits

structure Copied (size : Nat) (first second : Work) : Prop where
  others : ∀ reg, reg ≠ 2 → reg ≠ 3 → second.regs reg = first.regs reg
  outside : ∀ address, address < (first.regs 9).toNat ∨ (first.regs 9).toNat + size ≤ address →
    second.memory address = first.memory address

theorem Copied.refl (size : Nat) (work : Work) : Copied size work work :=
  ⟨fun _ _ _ => rfl, fun _ _ => rfl⟩

theorem Copied.trans {size : Nat} {first second third : Work} (left : Copied size first second)
    (right : Copied size second third) : Copied size first third where
  others reg not2 not3 := (right.others reg not2 not3).trans (left.others reg not2 not3)
  outside address apart := by
    refine (right.outside address ?_).trans (left.outside address apart)
    rwa [left.others 9 (by decide) (by decide)]

structure Copyable (ram : Ram) (size : Nat) (work : Work) : Prop where
  source : (work.regs 1).toNat + size ≤ ram.top
  low : ram.low ≤ (work.regs 9).toNat
  target : (work.regs 9).toNat + size ≤ ram.top
  small : ram.top ≤ 2 ^ 32

theorem Copied.copyable {ram : Ram} {size : Nat} {first second : Work}
    (copied : Copied size first second) (copyable : Copyable ram size first) :
    Copyable ram size second := by
  obtain ⟨source, low, target, small⟩ := copyable
  constructor
  · rwa [copied.others 1 (by decide) (by decide)]
  · rwa [copied.others 9 (by decide) (by decide)]
  · rwa [copied.others 9 (by decide) (by decide)]
  · exact small

theorem genBlock_run {ram : Ram} {size block : Nat} {work : Work} (copyable : Copyable ram size work)
    (inside : 4 * block + 4 ≤ size) {code : List Operation} (emitted : genBlock block = some code) :
    ∃ after, runCode ram code work = some after ∧ Copied size work after := by
  obtain ⟨source, low, target, small⟩ := copyable
  obtain ⟨off, fits, rfl⟩ := Option.map_eq_some_iff.mp emitted
  rw [show (4 * block : Int) = (4 * block : Nat) by omega] at fits
  have offset (regs : Registers) := (imm16_toNat fits regs).1
  have from_ : (work.regs 1 + off.read work.regs).toNat = (work.regs 1).toNat + 4 * block := by
    rw [BitVec.toNat_add, offset]
    omega
  have to_ (regs : Registers) : (work.regs 9 + off.read regs).toNat =
      (work.regs 9).toNat + 4 * block := by
    rw [BitVec.toNat_add, offset]
    omega
  have load := @work_load ram .word 2 3 (work.set 3 (work.regs 1 + off.read work.regs)) (by
    rw [Work.set_same _ _ (by decide), from_, Width.bytes]
    omega)
  generalize Width.word.load _ _ = word at load
  have pointer : ((work.set 3 (work.regs 1 + off.read work.regs)).set 2 word).regs 9 = work.regs 9 := by
    rw [Work.set_regs, if_neg (by decide), Work.set_regs, if_neg (by decide)]
  generalize set : (work.set 3 (work.regs 1 + off.read work.regs)).set 2 word = loaded at load pointer
  have store := @work_store ram .word 3 2 (loaded.set 3 (loaded.regs 9 + off.read loaded.regs)) (by
    rw [Work.set_same _ _ (by decide), pointer, to_, Width.bytes]
    omega)
  refine ⟨_, by simp only [runCode_cons, runCode_nil, work_alu, AluOp.apply, load, store,
    Option.bind_some]; rfl, ⟨fun reg not2 not3 => ?_, fun address apart => ?_⟩⟩
  · change (loaded.set 3 _).regs reg = _
    rw [Work.set_regs, if_neg (fun both => not3 both.1), ← set, Work.set_regs,
      if_neg (fun both => not2 both.1), Work.set_regs, if_neg (fun both => not3 both.1)]
  · change write32 loaded.memory _ _ address = _
    rw [Work.set_same _ _ (by decide), pointer, to_, write32_outside _ _ _ _ (by omega), ← set]
    rfl

theorem genBlocks_run {ram : Ram} {size : Nat} {blocks : List Nat} {work : Work}
    (copyable : Copyable ram size work) (inside : ∀ block ∈ blocks, 4 * block + 4 ≤ size)
    {codes : List (List Operation)} (emitted : blocks.mapM genBlock = some codes) :
    ∃ after, runCode ram codes.flatten work = some after ∧ Copied size work after := by
  induction blocks generalizing work codes with
  | nil =>
      cases emitted
      exact ⟨work, rfl, .refl size work⟩
  | cons block blocks ih =>
      rw [List.mapM_cons] at emitted
      obtain ⟨code, isCode, rest, isRest, rfl⟩ : ∃ code, genBlock block = some code ∧ ∃ rest,
          blocks.mapM genBlock = some rest ∧ code :: rest = codes := by
        simpa [Option.bind_eq_some_iff] using emitted
      obtain ⟨middle, run, copied⟩ := genBlock_run copyable (inside block List.mem_cons_self) isCode
      obtain ⟨after, runs, copied₂⟩ := ih (copied.copyable copyable)
        (fun other member => inside other (List.mem_cons_of_mem _ member)) isRest
      refine ⟨after, ?_, copied.trans copied₂⟩
      rw [List.flatten_cons, runCode_append, run, Option.bind_some, runs]

/-- A block copy changes nothing but its target and two registers. -/
theorem does_blockCopy {size : Nat} {core : Core} (copyable : Copyable host.ram size core.work) :
    ∃ after, Does host (emitOps (genBlockCopy size)) core after ∧ Copied size core.work after.work := by
  cases emitted : genBlockCopy size with
  | none => exact ⟨core, nofun, .refl size core.work⟩
  | some code =>
      obtain ⟨codes, isCodes, rfl⟩ := Option.map_eq_some_iff.mp emitted
      obtain ⟨after, runs, copied⟩ := genBlocks_run copyable (fun block member => by
        rw [List.mem_range] at member
        omega) isCodes
      exact ⟨_, does_ops (by rintro code ⟨⟩; exact runs), copied⟩

theorem does_imm {operation : Source → Operation} {value : Nat} {core : Core} {target : Fin 16}
    {result : BitVec 32} (run : ∀ constant : Source,
      constant.read core.work.regs = BitVec.ofNat 32 value →
      (operation constant).work host.ram core.work = some (core.work.set target result)) :
    Does host (emitImm operation value) core ⟨core.work.set target result, core.lastA, core.lastB⟩ := by
  refine does_ops fun code emitted => ?_
  obtain ⟨constant, fits, rfl⟩ := Option.map_eq_some_iff.mp emitted
  rw [runCode_cons, run constant ((imm16_read fits _).trans (BitVec.ofInt_natCast _ _))]
  rfl

end Blocks

structure Lowered (frame : Stack) (memory : Memory) (amount : Nat) (first second : Core) : Prop where
  sp : second.sp + amount = first.sp
  base : second.work.regs 10 = first.work.regs 10
  visible : AgreeOn frame.Visible memory second.work.memory
  kept : AgreeOn (fun address => first.sp ≤ address ∧ address < frame.sp) first.work.memory
    second.work.memory

section Arguments

variable {host : Host α} {setting : Setting α} {frame : Stack}

theorem Steady.lowered {memory : Memory} {first second : Core}
    (steady : Steady frame first memory second) : Lowered frame memory 0 first second where
  sp := by rw [Core.sp, steady.sp, Core.sp, Nat.add_zero]
  base := steady.base
  visible := steady.visible
  kept := steady.kept

theorem Lowered.trans {memory memory' : Memory} {amount more : Nat} {first second third : Core}
    (left : Lowered frame memory amount first second)
    (right : Lowered frame memory' more second third) :
    Lowered frame memory' (amount + more) first third where
  sp := by
    have above := left.sp
    have below := right.sp
    omega
  base := right.base.trans left.base
  visible := right.visible
  kept := by
    refine left.kept.trans (right.kept.mono fun address inside => ?_)
    have above := left.sp
    omega

theorem Lowered.ready {memory memory' : Memory} {amount bytes : Nat} {first second : Core}
    (lowered : Lowered frame memory' amount first second)
    (ready : Ready frame memory (amount + bytes) first) : Ready frame memory' bytes second where
  room := by
    have room := ready.room
    have below := lowered.sp
    omega
  below := by
    have below := ready.below
    have lower := lowered.sp
    omega
  base := lowered.base.trans ready.base
  visible := lowered.visible

/-- Stack space and what is written into it. -/
theorem Ready.lowered {memory : Memory} {amount : Nat} {first second : Core}
    (ready : Ready frame memory amount first) (sp : second.sp + amount = first.sp)
    (base : second.work.regs 10 = first.work.regs 10)
    (outside : ∀ address, address < second.sp ∨ first.sp ≤ address →
      second.work.memory address = first.work.memory address) :
    Lowered frame memory amount first second where
  sp := sp
  base := base
  visible address visible := by
    have room := ready.room
    have below := ready.below
    refine (ready.visible address visible).trans (outside address ?_).symm
    rcases visible with under | above
    · exact .inl (by omega)
    · exact .inr (by omega)
  kept address inside := (outside address (.inr inside.1)).symm

theorem place_below {core : Core} {size : Nat} (room : size ≤ core.sp) :
    (core.work.regs 14 - BitVec.ofNat 32 size).toNat = core.sp - size := by
  have bound := (core.work.regs 14).isLt
  rw [Core.sp] at room ⊢
  rw [BitVec.toNat_sub, BitVec.toNat_ofNat]
  omega

/-- `sub sp, sp, size` -/
theorem does_lower {memory : Memory} {size : Nat} {core : Core}
    (ready : Ready frame memory size core) :
    ∃ after, Does host (emitImm (.alu .sub 14 14) size) core after ∧
      Lowered frame memory size core after ∧ after.work.memory = core.work.memory ∧
      ∀ reg, reg ≠ 14 → after.work.regs reg = core.work.regs reg := by
  have room := ready.room
  have others (reg : Fin 16) (not14 : reg ≠ 14) :
      (core.work.set 14 (core.work.regs 14 - BitVec.ofNat 32 size)).regs reg = core.work.regs reg :=
    Registers.set_other _ _ not14
  refine ⟨_, does_imm fun constant reads => ?_, ready.lowered ?_ (others 10 (by decide)) fun _ _ => rfl,
    rfl, others⟩
  · rw [work_alu, reads, AluOp.apply]
  · rw [Core.sp, Work.set_same _ _ (by decide), place_below (by omega)]
    omega

theorem does_pushArg (sound : frame.Sound) (ram : host.ram = frame.ram) {memory : Memory}
    {ty : CType} {core : Core} (ready : Ready frame memory ty.pushed core)
    (source : ty.isAgg → (core.work.regs 1).toNat + ty.size ≤ frame.ram.top) :
    ∃ after, Does host (genPushArg ty) core after ∧ Lowered frame memory ty.pushed core after ∧
      (ty.isAgg = false → read32 after.work.memory after.sp = core.work.regs 1) := by
  rw [genPushArg, CType.pushed] at *
  cases aggregate : ty.isAgg with
  | false =>
      simp only [aggregate, Bool.false_eq_true, ↓reduceIte] at ready ⊢
      obtain ⟨after, does, readyAfter, pushed⟩ :=
        does_push sound ram (ready.mono (show 4 + 0 ≤ 4 by omega)) 1 (by decide)
      refine ⟨after, does, ready.lowered pushed.place pushed.base fun address outside => ?_,
        fun _ => pushed.word⟩
      have place := pushed.place
      rw [pushed.memory]
      exact write32_outside _ _ _ _ (by omega)
  | true =>
      simp only [aggregate, ↓reduceIte] at ready ⊢
      have source := source aggregate
      have low := sound.low
      have top := sound.top
      have room := ready.room
      have below := ready.below
      obtain ⟨one, does₁, lowered, same, others⟩ := @does_lower _ host _ _ _ _ ready
      have place := lowered.sp
      have does₂ : Does host (emitOp (.move 9 (.reg 14))) one
          ⟨one.work.set 9 (one.work.regs 14), one.lastA, one.lastB⟩ := does_op rfl
      generalize isTwo : (⟨one.work.set 9 (one.work.regs 14), one.lastA, one.lastB⟩ : Core) = two at does₂
      have target : (two.work.regs 9).toNat = one.sp := by
        rw [← isTwo, Work.set_same _ _ (by decide), Core.sp]
      have kept (reg : Fin 16) (not9 : reg ≠ 9) : two.work.regs reg = one.work.regs reg := by
        rw [← isTwo]
        exact Registers.set_other _ _ not9
      have memory₂ : two.work.memory = core.work.memory := by rw [← isTwo, Work.set_memory, same]
      obtain ⟨after, does₃, copied⟩ := @does_blockCopy _ host ty.size two (by
        constructor
        · rw [kept 1 (by decide), others 1 (by decide), ram]
          exact source
        · rw [target, ram]
          omega
        · rw [target, ram]
          omega
        · rw [ram]
          exact sound.small)
      refine ⟨after, (does₁.append does₂).append does₃, ready.lowered ?_ ?_ fun address outside => ?_,
        fun scalar => absurd scalar.symm Bool.false_ne_true⟩
      · rw [Core.sp, copied.others 14 (by decide) (by decide), kept 14 (by decide), ← Core.sp, place]
      · rw [copied.others 10 (by decide) (by decide), kept 10 (by decide), others 10 (by decide)]
      · have stack : after.sp = one.sp := by
          rw [Core.sp, copied.others 14 (by decide) (by decide), kept 14 (by decide), ← Core.sp]
        rw [copied.outside address (by rw [target]; omega), memory₂]

end Arguments

/-- The values of arguments, or the addresses of aggregates; the last argument comes first. -/
def evalArgs (setting : Setting α) : List (Node α) → Memory → Option (List (BitVec 32) × Memory)
  | [], memory => some ([], memory)
  | arg :: rest, memory =>
      (evalArgs setting rest memory).bind fun later =>
        (eval setting arg later.2).bind fun result =>
          if arg.ty.isAgg ∧ setting.frame.ram.top < result.1.toNat + arg.ty.size then none
          else some (result.1 :: later.1, result.2)

def pushedBytes (args : List (Node α)) : Nat := (args.map fun arg => arg.ty.pushed).sum

def argBytes (costs : Costs α) : List (Node α) → Nat
  | [] => 0
  | arg :: rest =>
      max (argBytes costs rest) (pushedBytes rest + max (arg.bytes costs) arg.ty.pushed)

def WordsAt (memory : Memory) (address : Nat) (values : List (BitVec 32)) : Prop :=
  ∀ i value, values[i]? = some value → read32 memory (address + 4 * i) = value

theorem WordsAt.congr {memory memory' : Memory} {address : Nat} {values : List (BitVec 32)}
    (words : WordsAt memory address values)
    (same : ∀ query, address ≤ query → query < address + 4 * values.length →
      memory query = memory' query) : WordsAt memory' address values := by
  intro i value isValue
  obtain ⟨bound, -⟩ := List.getElem?_eq_some_iff.mp isValue
  rw [← words i value isValue]
  exact (read32_congr fun query inside => same query (by omega) (by omega)).symm

section Arguments

variable {host : Host α} {setting : Setting α} {costs : Costs α}

theorem evalArgs_length {args : List (Node α)} {memory memory' : Memory} {values : List (BitVec 32)}
    (means : evalArgs setting args memory = some (values, memory')) : values.length = args.length := by
  induction args generalizing values memory' with
  | nil =>
      cases means
      rfl
  | cons arg rest ih =>
      obtain ⟨later, isLater, means⟩ := Option.bind_eq_some_iff.mp means
      obtain ⟨result, -, means⟩ := Option.bind_eq_some_iff.mp means
      split at means
      · cases means
      · cases means
        rw [List.length_cons, List.length_cons, ih isLater]

theorem Emit.append_assoc (first second third : Emit α) :
    first ++ second ++ third = first ++ (second ++ third) := by
  funext next
  change ((first next).bind fun emitted => (second emitted.2).map _).bind _ = (first next).bind _
  cases first next with
  | none => rfl
  | some one =>
      change ((second one.2).map _).bind _ = ((second one.2).bind _).map _
      cases second one.2 with
      | none => rfl
      | some two =>
          change (third two.2).map _ = ((third two.2).map _).map _
          cases third two.2 with
          | none => rfl
          | some three => exact congrArg (fun lines => some (lines, three.2)) (List.append_assoc ..)

theorem Emit.append_nil (code : Emit α) : code ++ emit [] = code := by
  funext next
  change (code next).bind _ = code next
  cases code next with
  | none => rfl
  | some one => exact congrArg (fun lines => some (lines, one.2)) (List.append_nil _)

/-- What is pushed first stands last in the list. -/
theorem genArgs_append (build : Build) (naming : Naming) (first second : List (Node α)) :
    genArgs build naming (first ++ second) =
      genArgs build naming second ++ genArgs build naming first := by
  induction first with
  | nil => exact (Emit.append_nil _).symm
  | cons arg rest ih =>
      simp only [List.cons_append, genArgs, ih, Emit.append_assoc]

theorem pushedBytes_scalar {args : List (Node α)} (scalar : ∀ arg ∈ args, arg.ty.isAgg = false) :
    pushedBytes args = 4 * args.length := by
  induction args with
  | nil => rfl
  | cons arg rest ih =>
      have later := ih fun other member => scalar other (List.mem_cons_of_mem _ member)
      have first := scalar arg List.mem_cons_self
      simp only [pushedBytes, List.map_cons, List.sum_cons, List.length_cons] at later ⊢
      rw [later, CType.pushed, first, if_neg Bool.false_ne_true]
      omega

/-- Pushing the arguments lowers the stack by their bytes. Words that are pushed lie in the order of
the arguments. -/
theorem does_args (sound : setting.frame.Sound) (faithful : Faithful host setting costs)
    (build : Build) {args : List (Node α)} {memory memory' : Memory} {values : List (BitVec 32)}
    {core : Core} (ready : Ready setting.frame memory (argBytes costs args) core)
    (means : evalArgs setting args memory = some (values, memory')) :
    ∃ after, Does host (genArgs build setting.naming args) core after ∧
      Lowered setting.frame memory' (pushedBytes args) core after ∧
      ((∀ arg ∈ args, arg.ty.isAgg = false) → WordsAt after.work.memory after.sp values) := by
  induction args generalizing memory' values with
  | nil =>
      cases means
      exact ⟨core, does_nothing core, ready.steady.lowered, fun _ => nofun⟩
  | cons arg rest ih =>
      obtain ⟨⟨later, memory₂⟩, isLater, means⟩ := Option.bind_eq_some_iff.mp means
      obtain ⟨⟨value, memory₃⟩, isValue, means⟩ := Option.bind_eq_some_iff.mp means
      split at means
      · cases means
      · rename_i readable
        cases means
        obtain ⟨one, does₁, lowered₁, words⟩ := ih (ready.mono (Nat.le_max_left _ _)) isLater
        have ready₁ := lowered₁.ready (ready.mono (Nat.le_max_right _ _))
        obtain ⟨two, does₂, steady, held⟩ := (node_computes sound faithful build arg).value _ _ _ _ isValue
          (ready₁.mono (Nat.le_max_left _ _))
        have ready₂ := (steady.ready ready₁).mono (Nat.le_max_right _ _)
        obtain ⟨after, does₃, lowered₂, pushed⟩ := does_pushArg sound faithful.ram ready₂ (by
          intro aggregate
          rw [held]
          simpa [aggregate] using readable)
        have lowered := lowered₁.trans (steady.lowered.trans lowered₂)
        rw [Nat.zero_add, Nat.add_comm] at lowered
        refine ⟨after, (does₁.append does₂).append does₃, lowered, fun scalar => ?_⟩
        have scalar₂ : ∀ other ∈ rest, other.ty.isAgg = false :=
          fun other member => scalar other (List.mem_cons_of_mem _ member)
        have first := pushed (scalar arg List.mem_cons_self)
        have place := lowered₂.sp
        rw [CType.pushed, scalar arg List.mem_cons_self, if_neg Bool.false_ne_true] at place
        have same : two.sp = one.sp := by rw [Core.sp, steady.sp, Core.sp]
        have space : one.sp + 4 * later.length ≤ setting.frame.sp := by
          have below := ready.below
          have top := lowered₁.sp
          rw [pushedBytes_scalar scalar₂] at top
          rw [evalArgs_length isLater]
          omega
        have kept : WordsAt after.work.memory one.sp later := by
          refine (words scalar₂).congr fun query above under => ?_
          exact (steady.kept query (by omega)).trans (lowered₂.kept query (by omega))
        intro i result isResult
        cases i with
        | zero =>
            cases isResult
            exact first.trans held
        | succ i =>
            rw [show after.sp + 4 * (i + 1) = one.sp + 4 * i by omega]
            exact kept i result isResult

def retBytes (ret : CType) : Nat := if ret.isAgg then ret.size else 0

theorem does_retbuf {frame : Stack} {memory : Memory} {core : Core} (ret : CType)
    (ready : Ready frame memory (retBytes ret) core) :
    ∃ after, Does host (genRetbuf ret) core after ∧ Lowered frame memory (retBytes ret) core after := by
  rw [genRetbuf, retBytes] at *
  split
  · rename_i aggregate
    rw [if_pos aggregate] at ready
    obtain ⟨after, does, lowered, -⟩ := @does_lower _ host _ _ _ _ ready
    exact ⟨after, does, lowered⟩
  · exact ⟨core, does_nothing core, ready.steady.lowered⟩

end Arguments

section Entry

variable {host : Host α}

theorem padded_bounds (size : Nat) : size ≤ padded size ∧ padded size % 4 = 0 := by
  rw [padded]
  omega

/-- Code that keeps the frame and everything above it. -/
structure Above (first second : Core) : Prop where
  base : second.work.regs 10 = first.work.regs 10
  sp : second.work.regs 14 = first.work.regs 14
  memory : ∀ address, (first.work.regs 10).toNat ≤ address →
    second.work.memory address = first.work.memory address

theorem Above.trans {first second third : Core} (left : Above first second)
    (right : Above second third) : Above first third where
  base := right.base.trans left.base
  sp := right.sp.trans left.sp
  memory address above :=
    (right.memory address (by rwa [left.base])).trans (left.memory address above)

theorem Above.set (core : Core) {reg : Fin 16} (value : BitVec 32) (not10 : reg ≠ 10)
    (not14 : reg ≠ 14) : Above core ⟨core.work.set reg value, core.lastA, core.lastB⟩ where
  base := Registers.set_other _ _ (Ne.symm not10)
  sp := Registers.set_other _ _ (Ne.symm not14)
  memory _ _ := rfl

/-- `add reg, r10, offset` -/
theorem does_above {core : Core} {reg : Fin 16} (offset : Nat) :
    Does host (emitImm (.alu .add reg 10) offset) core
      ⟨core.work.set reg (core.work.regs 10 + BitVec.ofNat 32 offset), core.lastA, core.lastB⟩ :=
  does_imm fun constant reads => by rw [work_alu, reads, AluOp.apply]

/-- `sub reg, r10, offset` -/
theorem does_under {core : Core} {reg : Fin 16} (offset : Nat) :
    Does host (emitImm (.alu .sub reg 10) offset) core
      ⟨core.work.set reg (core.work.regs 10 - BitVec.ofNat 32 offset), core.lastA, core.lastB⟩ :=
  does_imm fun constant reads => by rw [work_alu, reads, AluOp.apply]

theorem CType.width_le_size {ty : CType} (positive : 0 < ty.size) :
    ty.width.bytes ≤ padded ty.size := by
  have four : ty.width.bytes ≤ 4 := by
    generalize ty.width = width
    cases width <;> decide
  rw [padded]
  omega

/-- Copying a parameter to its slot. -/
theorem does_param (small : host.ram.top ≤ 2 ^ 32) {ty : CType} {argOff slotOff : Nat} {core : Core}
    (positive : 0 < ty.size) (fits : padded ty.size ≤ slotOff)
    (source : (core.work.regs 10).toNat + argOff + padded ty.size ≤ host.ram.top)
    (low : host.ram.low + slotOff ≤ (core.work.regs 10).toNat) :
    ∃ after, Does host (genParam ty argOff slotOff) core after ∧ Above core after := by
  have enough := (padded_bounds ty.size).1
  have word : 4 ≤ padded ty.size := by
    rw [padded]
    omega
  have bound := (core.work.regs 10).isLt
  have up : (core.work.regs 10 + BitVec.ofNat 32 argOff).toNat = (core.work.regs 10).toNat + argOff := by
    rw [BitVec.toNat_add, BitVec.toNat_ofNat]
    omega
  have down : (core.work.regs 10 - BitVec.ofNat 32 slotOff).toNat =
      (core.work.regs 10).toNat - slotOff := by
    rw [BitVec.toNat_sub, BitVec.toNat_ofNat]
    omega
  rw [genParam]
  split
  · obtain ⟨after, does, copied⟩ := @does_blockCopy _ host ty.size
      ⟨(core.work.set 1 (core.work.regs 10 + BitVec.ofNat 32 argOff)).set 9
        (core.work.regs 10 - BitVec.ofNat 32 slotOff), core.lastA, core.lastB⟩ (by
        constructor
        · rw [Work.set_regs, if_neg (by decide), Work.set_same _ _ (by decide), up]
          omega
        · rw [Work.set_same _ _ (by decide), down]
          omega
        · rw [Work.set_same _ _ (by decide), down]
          omega
        · exact small)
    have above := (Above.set core (core.work.regs 10 + BitVec.ofNat 32 argOff)
      (show (1 : Fin 16) ≠ 10 by decide) (by decide)).trans (Above.set _
        (core.work.regs 10 - BitVec.ofNat 32 slotOff) (show (9 : Fin 16) ≠ 10 by decide) (by decide))
    refine ⟨after, ((does_above argOff).append (does_under slotOff)).append does, above.trans ⟨?_, ?_, ?_⟩⟩
    · exact copied.others 10 (by decide) (by decide)
    · exact copied.others 14 (by decide) (by decide)
    · intro address inside
      refine copied.outside address (.inr ?_)
      rw [Work.set_same _ _ (by decide), down]
      rw [above.base] at inside
      omega
  · have load := @work_load host.ram .word 1 9
      (core.work.set 9 (core.work.regs 10 + BitVec.ofNat 32 argOff)) (by
        rw [Work.set_same _ _ (by decide), up, Width.bytes]
        omega)
    generalize Width.word.load _ _ = value at load
    have loads := @does_op _ host _
      ⟨core.work.set 9 (core.work.regs 10 + BitVec.ofNat 32 argOff), core.lastA, core.lastB⟩ _ load
    have above := (Above.set core (core.work.regs 10 + BitVec.ofNat 32 argOff)
      (show (9 : Fin 16) ≠ 10 by decide) (by decide)).trans (Above.set _ value
        (show (1 : Fin 16) ≠ 10 by decide) (by decide))
    generalize isLoaded : (⟨(core.work.set 9 (core.work.regs 10 + BitVec.ofNat 32 argOff)).set 1 value,
      core.lastA, core.lastB⟩ : Core) = loaded at above
    have target := @does_under _ host loaded 9 slotOff
    rw [above.base] at target
    have above := above.trans (Above.set loaded (core.work.regs 10 - BitVec.ofNat 32 slotOff)
      (show (9 : Fin 16) ≠ 10 by decide) (by decide))
    have width := CType.width_le_size positive
    have place : ((loaded.work.set 9 (core.work.regs 10 - BitVec.ofNat 32 slotOff)).regs 9).toNat =
        (core.work.regs 10).toNat - slotOff := by rw [Work.set_same _ _ (by decide), down]
    have store := @work_store host.ram ty.width 9 1
      (loaded.work.set 9 (core.work.regs 10 - BitVec.ofNat 32 slotOff)) (by
        rw [place]
        omega)
    have run := (runCode_cons host.ram _ [] _).trans (congrArg (fun after => after.bind
      (runCode host.ram [])) store)
    have stores := @does_ops _ host (some (genStore ty))
      ⟨loaded.work.set 9 (core.work.regs 10 - BitVec.ofNat 32 slotOff), loaded.lastA, loaded.lastB⟩ _
      (by rintro code ⟨⟩; exact run)
    refine ⟨_, (((does_above argOff).append (isLoaded ▸ loads)).append target).append stores,
      above.trans ⟨rfl, rfl, fun address inside => ?_⟩⟩
    rw [above.base] at inside
    change ty.width.store _ _ _ address = _
    rw [place, show address = (core.work.regs 10).toNat - slotOff +
      (address - ((core.work.regs 10).toNat - slotOff)) by omega]
    exact (ty.width.store_apply _ _ _ _).trans (if_neg (by omega))

def slotBytes (params : List CType) : Nat := (params.map fun ty => padded ty.size).sum

theorem slotBytes_cons (ty : CType) (rest : List CType) :
    slotBytes (ty :: rest) = padded ty.size + slotBytes rest := rfl

theorem does_params (small : host.ram.top ≤ 2 ^ 32) {params : List CType} {argOff slotOff : Nat}
    {core : Core} (positive : ∀ ty ∈ params, 0 < ty.size)
    (source : (core.work.regs 10).toNat + argOff + slotBytes params ≤ host.ram.top)
    (low : host.ram.low + slotOff + slotBytes params ≤ (core.work.regs 10).toNat) :
    ∃ after, Does host (genParams params argOff slotOff) core after ∧ Above core after := by
  induction params generalizing argOff slotOff core with
  | nil => exact ⟨core, does_nothing core, ⟨rfl, rfl, fun _ _ => rfl⟩⟩
  | cons ty rest ih =>
      rw [slotBytes_cons] at source low
      obtain ⟨middle, does, above⟩ := @does_param _ host small ty argOff (slotOff + padded ty.size) core
        (positive ty List.mem_cons_self) (by omega) (by omega) (by omega)
      obtain ⟨after, does₂, above₂⟩ := @ih (argOff + padded ty.size) (slotOff + padded ty.size) middle
        (fun other member => positive other (List.mem_cons_of_mem _ member))
        (by rw [above.base]; omega) (by rw [above.base]; omega)
      exact ⟨after, does.append does₂, above.trans above₂⟩

structure Entered (first second : Core) (frameSize : Nat) : Prop where
  base : (second.work.regs 10).toNat + 4 = first.sp
  sp : second.sp + frameSize = (second.work.regs 10).toNat
  memory : ∀ address, first.sp ≤ address → second.work.memory address = first.work.memory address

theorem does_prologue (small : host.ram.top ≤ 2 ^ 32) {params : List CType} {ret : CType}
    {frameSize : Nat} {core : Core} (positive : ∀ ty ∈ params, 0 < ty.size)
    (slots : slotBytes params ≤ frameSize)
    (source : core.sp + 4 + retbufBytes ret + slotBytes params ≤ host.ram.top)
    (low : host.ram.low + frameSize + 4 ≤ core.sp) :
    ∃ after, Does host (genPrologue params ret frameSize) core after ∧ Entered core after frameSize := by
  have bound := (core.work.regs 14).isLt
  let frame : Stack := ⟨host.ram, host.ram.low, core.sp, core.work.regs 10⟩
  have sound : frame.Sound := ⟨Nat.le_refl _, by change core.sp ≤ host.ram.top; omega, small⟩
  have ready : Ready frame core.work.memory (4 + frameSize) core :=
    ⟨by change host.ram.low + (4 + frameSize) ≤ core.sp; omega, Nat.le_refl _, rfl, .refl _ _⟩
  obtain ⟨one, does₁, ready₁, pushed⟩ := does_push sound rfl ready 10 (by decide)
  have does₂ : Does host (emitOp (.move 10 (.reg 14))) one
      ⟨one.work.set 10 (one.work.regs 14), one.lastA, one.lastB⟩ := does_op rfl
  generalize isTwo : (⟨one.work.set 10 (one.work.regs 14), one.lastA, one.lastB⟩ : Core) = two at does₂
  have place := pushed.place
  have base₂ : two.work.regs 10 = one.work.regs 14 := by
    rw [← isTwo, Work.set_same _ _ (by decide)]
  have sp₂ : two.work.regs 14 = one.work.regs 14 := by
    rw [← isTwo]
    exact Registers.set_other _ _ (by decide)
  have memory₂ : two.work.memory = one.work.memory := by rw [← isTwo, Work.set_memory]
  have isSp : two.sp = one.sp := congrArg BitVec.toNat sp₂
  obtain ⟨three, does₃, base₃, sp₃, memory₃⟩ : ∃ three,
      Does host (if frameSize = 0 then emit [] else emitImm (.alu .sub 14 14) frameSize) two three ∧
        three.work.regs 10 = two.work.regs 10 ∧ three.sp + frameSize = two.sp ∧
        three.work.memory = two.work.memory := by
    split
    · rename_i empty
      exact ⟨two, does_nothing two, rfl, by omega, rfl⟩
    · obtain ⟨three, does, lowered, memory, others⟩ := @does_lower _ host
        ⟨host.ram, host.ram.low, core.sp, two.work.regs 10⟩ two.work.memory frameSize two
        ⟨by change host.ram.low + frameSize ≤ two.sp; omega, by change two.sp ≤ core.sp; omega, rfl,
          .refl _ _⟩
      exact ⟨three, does, others 10 (by decide), lowered.sp, memory⟩
  have isBase : (three.work.regs 10).toNat = one.sp := by rw [base₃, base₂, Core.sp]
  obtain ⟨after, does₄, above⟩ := @does_params _ host small params (8 + retbufBytes ret) 0 three positive
    (by omega) (by omega)
  refine ⟨after, ((does₁.append does₂).append does₃).append does₄, ⟨?_, ?_, fun address inside => ?_⟩⟩
  · rw [above.base, isBase, place]
  · rw [Core.sp, above.sp, ← Core.sp, sp₃, above.base, isBase, isSp]
  · rw [above.memory address (by omega), memory₃, memory₂]
    exact pushed.same (.inr inside)

theorem Core.enter_sp {core : Core} (room : 4 ≤ core.sp) (back : BitVec 32) :
    (core.enter back).sp + 4 = core.sp := by
  have place : (core.work.regs 14 - 4).toNat = core.sp - 4 := place_below room
  have stack : (core.enter back).sp = (core.work.regs 14 - 4).toNat :=
    congrArg BitVec.toNat (Registers.set_same _ _ (by decide))
  omega

theorem Core.enter_memory {core : Core} (room : 4 ≤ core.sp) (back : BitVec 32) {address : Nat}
    (above : core.sp ≤ address) : (core.enter back).work.memory address = core.work.memory address :=
  write32_outside _ _ _ _ (by omega)

end Entry

end SymphonyPlus
