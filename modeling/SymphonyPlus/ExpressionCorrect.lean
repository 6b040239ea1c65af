import SymphonyPlus.ExpressionSteps

/-!
The code of an expression computes what the expression means.
-/

namespace SymphonyPlus

open ByteMemory BitRanges

variable {α : Type} {host : Host α} {frame : Stack}

theorem Stack.reads_visible {address : BitVec 32} {size : Nat} (reads : frame.reads address size) :
    address.toNat + size ≤ frame.ram.top ∧ ∀ i < size, frame.Visible (address.toNat + i) := by
  simp only [Stack.reads, Bool.and_eq_true, Bool.or_eq_true, decide_eq_true_eq] at reads
  refine ⟨reads.1, fun i bound => ?_⟩
  rcases reads.2 with under | above
  · left
    omega
  · right
    omega

theorem Stack.writes_visible {address : BitVec 32} {size : Nat} (writes : frame.writes address size) :
    frame.ram.low ≤ address.toNat ∧ frame.reads address size := by
  simpa only [Stack.writes, Bool.and_eq_true, decide_eq_true_eq] using writes

theorem Width.load_visible {memory memory' : Memory} (visible : AgreeOn frame.Visible memory memory')
    {width : Width} {address : BitVec 32} (reads : frame.reads address width.bytes) :
    width.load memory address.toNat = width.load memory' address.toNat :=
  width.load_congr fun i bound => visible _ ((Stack.reads_visible reads).2 i bound)

theorem Stack.fetch_eq_some {lhs : Lvalue} {address value : BitVec 32} {memory memory' : Memory} :
    (frame.fetch lhs address memory).map (fun value => (value, memory)) = some (value, memory') ↔
      frame.fetch lhs address memory = some value ∧ memory' = memory := by
  cases frame.fetch lhs address memory <;> simp [eq_comm]

/-- The address in `r9` goes to the value of its object. -/
theorem continues_object (ram : host.ram = frame.ram) (ty : CType) (bytes : Nat) :
    Continues host frame (genObject ty) 9 1 bytes (fun address memory =>
      (frame.fetch (.object ty) address memory).map fun value => (value, memory)) := by
  intro memory core address value memory' means ready held
  obtain ⟨fetched, rfl⟩ := Stack.fetch_eq_some.mp means
  rw [Stack.fetch] at fetched
  rw [genObject]
  split at fetched
  · rename_i place
    cases fetched
    rw [if_pos place]
    refine ⟨_, does_op rfl, ready.steady.local (core.work.local_set _ (by decide) (by decide)) _ _, ?_⟩
    rw [Work.set_same _ _ (by decide), Source.read, held]
  · rename_i plain
    rw [if_neg plain]
    split at fetched
    · rename_i reads
      cases fetched
      obtain ⟨inside, -⟩ := Stack.reads_visible reads
      obtain ⟨after, runs, yields⟩ := genLoad_run host.ram ty core.work (by rw [held, ram]; exact inside)
      refine ⟨_, does_ops (by rintro code ⟨⟩; exact runs), ready.steady.local yields.local _ _, ?_⟩
      rw [yields.result, held, Width.load_visible ready.visible reads]
    · cases fetched

theorem continues_bits (ram : host.ram = frame.ram) (build : Build) (field : BitField) (bytes : Nat) :
    Continues host frame (emitOps (genLoadBitfield build field)) 9 1 bytes (fun address memory =>
      (frame.fetch (.bits field) address memory).map fun value => (value, memory)) := by
  intro memory core address value memory' means ready held
  obtain ⟨fetched, rfl⟩ := Stack.fetch_eq_some.mp means
  rw [Stack.fetch] at fetched
  split at fetched
  · rename_i reads
    cases fetched
    obtain ⟨inside, -⟩ := Stack.reads_visible reads
    obtain ⟨code, emitted, runs⟩ := genLoadBitfield_run host.ram build field
    obtain ⟨after, run, yields⟩ := runs core.work (by rw [held, ram]; exact inside)
    refine ⟨_, does_ops (by rw [emitted]; rintro code ⟨⟩; exact run),
      ready.steady.local yields.local _ _, ?_⟩
    have unit := @Width.load_visible _ _ _ ready.visible .word _ reads
    rw [Width.load, Width.load] at unit
    rw [yields.result, held, unit]
  · cases fetched

/-- Memories that agree where an expression looks still do after both got the same value. -/
theorem store_visible {memory memory' : Memory} (visible : AgreeOn frame.Visible memory memory')
    (width : Width) (address : Nat) (value : BitVec 32) :
    AgreeOn frame.Visible (width.store memory address value) (width.store memory' address value) := by
  intro query inside
  by_cases above : address ≤ query
  · rw [show query = address + (query - address) by omega, Width.store_apply, Width.store_apply,
      show address + (query - address) = query by omega, visible query inside]
  · rw [width.store_below _ (by omega), width.store_below _ (by omega), visible query inside]

/-- A store that an expression may do leaves the temporaries. -/
theorem store_kept_stack {core : Core} {width : Width} {address : BitVec 32} {value : BitVec 32}
    (reads : frame.reads address width.bytes) (room : frame.limit ≤ core.sp) (memory : Memory) :
    AgreeOn (fun query => core.sp ≤ query ∧ query < frame.sp) memory
      (width.store memory address.toNat value) := by
  intro query inside
  simp only [Stack.reads, Bool.and_eq_true, Bool.or_eq_true, decide_eq_true_eq] at reads
  by_cases above : address.toNat ≤ query
  · rw [show query = address.toNat + (query - address.toNat) by omega, Width.store_apply,
      if_neg (by omega)]
  · rw [width.store_below _ (by omega)]

theorem combines_put (ram : host.ram = frame.ram) (build : Build) (ty : CType) (lhs : Lvalue)
    (bytes : Nat) :
    Combines host frame (emitOps (genAssign build ty lhs)) 9 bytes (frame.put ty lhs) := by
  intro memory core address value result memory' means ready isAddress isValue
  have room := ready.room
  have scalar : ty.isAgg = false := by
    by_contra aggregate
    simp [Stack.put, aggregate] at means
  cases lhs with
  | object target =>
      simp only [genAssign, Stack.put, scalar, Bool.false_eq_true, ↓reduceIte] at means ⊢
      split at means
      · rename_i writes
        cases means
        obtain ⟨low, reads⟩ := Stack.writes_visible writes
        obtain ⟨inside, -⟩ := Stack.reads_visible reads
        have store := @work_store host.ram ty.width 9 1 core.work
          (by rw [isAddress, ram]; exact ⟨low, inside⟩)
        rw [isAddress, isValue] at store
        have run : runCode host.ram (genStore ty) core.work =
            some ⟨core.work.regs, ty.width.store core.work.memory address.toNat value⟩ := by
          rw [genStore, runCode_cons, store]
          rfl
        refine ⟨⟨⟨core.work.regs, ty.width.store core.work.memory address.toNat value⟩, core.lastA,
          core.lastB⟩, does_ops (by rintro code ⟨⟩; exact run), ⟨rfl, rfl, ?_, ?_⟩, isValue⟩
        · exact store_visible ready.visible _ _ _
        · exact store_kept_stack reads (show frame.limit ≤ core.sp by omega) _
      · cases means
  | bits field =>
      simp only [genAssign, Stack.put, scalar, Bool.false_eq_true, ↓reduceIte] at means ⊢
      split at means
      · rename_i writes
        cases means
        obtain ⟨low, reads⟩ := Stack.writes_visible writes
        obtain ⟨inside, -⟩ := Stack.reads_visible reads
        obtain ⟨code, emitted, runs⟩ := genStoreBitfield_run host.ram build field
        obtain ⟨after, run, stored, left, others⟩ := runs core.work (by
          rw [isAddress, ram]
          exact ⟨low, inside⟩)
        have unit := @Width.load_visible _ _ _ ready.visible .word _ reads
        rw [Width.load, Width.load] at unit
        rw [isAddress, isValue, ← unit] at stored
        rw [isValue] at left
        refine ⟨_, does_ops (by rw [emitted]; rintro code ⟨⟩; exact run),
          ⟨others 14 (by decide), others 10 (by decide), ?_, ?_⟩, left⟩
        · rw [stored]
          exact store_visible ready.visible .word _ _
        · rw [stored]
          exact @store_kept_stack _ _ .word _ _ reads (by omega) _
      · cases means

/-- A condition that is computed and tested: the code goes on behind the label or behind itself. -/
theorem branches {cond : Emit α} {bytes : Nat} {meaning : Meaning}
    (computes : Computes host frame cond 1 bytes meaning) {memory memory' : Memory} {core : Core}
    {value : BitVec 32} (means : meaning memory = some (value, memory'))
    (ready : Ready frame memory bytes core) (jumpIfZero : Bool) :
    ∃ after, Steady frame core memory' after ∧
      ∀ n next lines next', genBranchZero cond n jumpIfZero next = some (lines, next') →
        ∀ before rest, host.program = before ++ (lines ++ rest) →
        ∀ goal, (if decide (value = 0) = jumpIfZero then
            ∃ behind, behindLabel n host.program = some behind ∧ host.Reaches (behind, after) goal
          else host.Reaches (rest, after) goal) →
        host.Reaches (lines ++ rest, core) goal := by
  obtain ⟨computed, does, steady, held⟩ := computes _ _ _ _ means ready
  refine ⟨⟨computed.work.set 2 0, value, 0⟩,
    steady.local (computed.work.local_set _ (by decide) (by decide)) _ _, ?_⟩
  intro n next lines next' emitted before rest place goal reached
  obtain ⟨lines₁, middle, lines₂, isCond, isTest, rfl⟩ := Emit.append_some emitted
  cases isTest
  rw [List.append_assoc] at place ⊢
  refine Relation.ReflTransGen.trans (does _ _ _ isCond before _ place) ?_
  have zero : (Operation.move 2 (.imm 0)).work host.ram computed.work = some (computed.work.set 2 0) :=
    rfl
  have left : (computed.work.set 2 0).regs 1 = value := by
    rw [Work.set_regs, if_neg (by decide), held]
  have right : (computed.work.set 2 0).regs 2 = 0 := Work.set_same _ _ (by decide)
  refine reaches_op zero (reaches_compare ?_)
  simp only [left, right]
  have decides : (if jumpIfZero then Condition.je else .jne).holds value 0 =
      (decide (value = 0) == jumpIfZero) := by
    cases jumpIfZero with
    | true => simp [Condition.holds, BEq.beq]
    | false => simp [Condition.holds, bne, BEq.beq]
  by_cases taken : decide (value = 0) = jumpIfZero
  · rw [if_pos taken] at reached
    obtain ⟨behind, found, later⟩ := reached
    exact reaches_taken (by rw [decides, taken]; simp) found later
  · rw [if_neg taken] at reached
    exact reaches_passed (by rw [decides]; simpa using taken) reached

theorem computes_shortCircuit (unique : (codeLabels host.program).Nodup) {lhs rhs : Emit α}
    {bytes bytes₂ : Nat} {meaning meaning₂ : Meaning}
    (left : Computes host frame lhs 1 bytes meaning)
    (right : Computes host frame rhs 1 bytes₂ meaning₂) (jumpIfZero : Bool)
    (through jumped : BitVec 16) :
    Computes host frame (genShortCircuit jumpIfZero through jumped lhs rhs) 1 (max bytes bytes₂)
      (meaning.bind fun first => if decide (first = 0) = jumpIfZero then .pure (jumped.zeroExtend 32)
        else meaning₂.bind fun second =>
          .pure ((if decide (second = 0) = jumpIfZero then jumped else through).zeroExtend 32)) := by
  intro memory core value memory' means ready
  obtain ⟨first, memory₂, isFirst, rest⟩ := Evaluation.bind_eq_some.mp means
  obtain ⟨one, steady, branch⟩ := branches left isFirst (ready.mono (by omega)) jumpIfZero
  have move (work : Work) (value : BitVec 16) : (Operation.move 1 (.imm value)).work host.ram work =
      some (work.set 1 (value.zeroExtend 32)) := rfl
  split at rest
  · rename_i taken
    cases rest
    refine ⟨⟨one.work.set 1 (jumped.zeroExtend 32), one.lastA, one.lastB⟩, ?_,
      steady.local (one.work.local_set _ (by decide) (by decide)) _ _, Work.set_same _ _ (by decide)⟩
    intro next lines next' emitted before after place
    obtain ⟨lines₁, middle, lines₂, isCode, isTail, rfl⟩ := Emit.append_some emitted
    obtain ⟨lines₃, middle₂, lines₄, isLeft, isRight, rfl⟩ := Emit.append_some isCode
    cases isTail
    simp only [List.append_assoc] at place ⊢
    refine branch _ _ _ _ isLeft before _ place _ ?_
    rw [if_pos taken]
    refine ⟨_, host.finds unique _ (before ++ (lines₃ ++ (lines₄ ++ [.op (.move 1 (.imm through)),
      .jump (next + 1)]))) _ (by rw [place]; simp only [List.append_assoc]; rfl), ?_⟩
    exact reaches_op (move _ _) (reaches_label .refl)
  · rename_i passed
    obtain ⟨second, memory₃, isSecond, last⟩ := Evaluation.bind_eq_some.mp rest
    obtain ⟨two, steady₂, branch₂⟩ := branches right isSecond
      ((steady.ready ready).mono (by omega)) jumpIfZero
    cases last
    refine ⟨⟨two.work.set 1 ((if decide (second = 0) = jumpIfZero then jumped else through).zeroExtend 32),
      two.lastA, two.lastB⟩, ?_, (steady.trans steady₂).local
        (two.work.local_set _ (by decide) (by decide)) _ _, Work.set_same _ _ (by decide)⟩
    intro next lines next' emitted before after place
    obtain ⟨lines₁, middle, lines₂, isCode, isTail, rfl⟩ := Emit.append_some emitted
    obtain ⟨lines₃, middle₂, lines₄, isLeft, isRight, rfl⟩ := Emit.append_some isCode
    cases isTail
    simp only [List.append_assoc] at place ⊢
    refine branch _ _ _ _ isLeft before _ place _ ?_
    rw [if_neg passed]
    refine branch₂ _ _ _ _ isRight (before ++ lines₃) _ (by rw [place]; simp only [List.append_assoc]) _ ?_
    split
    · refine ⟨_, host.finds unique _ (before ++ (lines₃ ++ (lines₄ ++
        [.op (.move 1 (.imm through)), .jump (next + 1)]))) _ (by
          rw [place]; simp only [List.append_assoc]; rfl), ?_⟩
      exact reaches_op (move _ _) (reaches_label .refl)
    · have done := host.finds unique (next + 1) (before ++ (lines₃ ++ (lines₄ ++
        [.op (.move 1 (.imm through)), .jump (next + 1), .label next, .op (.move 1 (.imm jumped))])))
        after (by rw [place]; simp only [List.append_assoc]; rfl)
      exact reaches_op (move _ _) (reaches_jump done .refl)

theorem computes_cond (unique : (codeLabels host.program).Nodup) {cond then_ els : Emit α}
    {bytes bytes₂ bytes₃ : Nat} {meaning meaning₂ meaning₃ : Meaning}
    (test : Computes host frame cond 1 bytes meaning)
    (left : Computes host frame then_ 1 bytes₂ meaning₂)
    (right : Computes host frame els 1 bytes₃ meaning₃) :
    Computes host frame (genCond cond then_ els) 1 (max bytes (max bytes₂ bytes₃))
      (meaning.bind fun condition => if condition = 0 then meaning₃ else meaning₂) := by
  intro memory core value memory' means ready
  obtain ⟨condition, memory₂, isTest, rest⟩ := Evaluation.bind_eq_some.mp means
  obtain ⟨one, steady, branch⟩ := branches test isTest (ready.mono (by omega)) true
  have again := steady.ready ready
  by_cases zero : condition = 0
  · rw [if_pos zero] at rest
    obtain ⟨after, does, steady₂, result⟩ := right _ _ _ _ rest (again.mono (by omega))
    refine ⟨after, ?_, steady.trans steady₂, result⟩
    intro next lines next' emitted before behind place
    obtain ⟨code, middle, last, isCode, isLast, rfl⟩ := Emit.append_some emitted
    obtain ⟨code₂, middle₂, elseLines, isCode₂, isElse, rfl⟩ := Emit.append_some isCode
    obtain ⟨code₃, middle₃, jump, isCode₃, isJump, rfl⟩ := Emit.append_some isCode₂
    obtain ⟨testLines, middle₄, thenLines, isTestLines, isThen, rfl⟩ := Emit.append_some isCode₃
    cases isLast
    cases isJump
    simp only [List.append_assoc] at place ⊢
    refine branch _ _ _ _ isTestLines before _ place _ ?_
    rw [if_pos (by simp [zero])]
    refine ⟨_, host.finds unique _ (before ++ (testLines ++ (thenLines ++ [.jump (next + 1)])))
      _ (by rw [place]; simp only [List.append_assoc]; rfl), ?_⟩
    refine Relation.ReflTransGen.trans (does _ _ _ isElse (before ++ (testLines ++ (thenLines ++
      [.jump (next + 1), .label next]))) _ (by rw [place]; simp only [List.append_assoc])) ?_
    exact reaches_label .refl
  · rw [if_neg zero] at rest
    obtain ⟨after, does, steady₂, result⟩ := left _ _ _ _ rest (again.mono (by omega))
    refine ⟨after, ?_, steady.trans steady₂, result⟩
    intro next lines next' emitted before behind place
    obtain ⟨code, middle, last, isCode, isLast, rfl⟩ := Emit.append_some emitted
    obtain ⟨code₂, middle₂, elseLines, isCode₂, isElse, rfl⟩ := Emit.append_some isCode
    obtain ⟨code₃, middle₃, jump, isCode₃, isJump, rfl⟩ := Emit.append_some isCode₂
    obtain ⟨testLines, middle₄, thenLines, isTestLines, isThen, rfl⟩ := Emit.append_some isCode₃
    cases isLast
    cases isJump
    simp only [List.append_assoc] at place ⊢
    refine branch _ _ _ _ isTestLines before _ place _ ?_
    rw [if_neg (by simpa using zero)]
    refine Relation.ReflTransGen.trans (does _ _ _ isThen (before ++ testLines) _
      (by rw [place]; simp only [List.append_assoc])) ?_
    refine reaches_jump (host.finds unique _ (before ++ (testLines ++ (thenLines ++
      ([.jump (next + 1), .label next] ++ elseLines)))) _ (by
        rw [place]; simp only [List.append_assoc]; rfl)) ?_
    exact .refl

theorem imm16_read {value : Int} {source : Source} (fits : imm16 value = some source)
    (regs : Registers) : source.read regs = BitVec.ofInt 32 value := by
  rw [imm16] at fits
  split at fits
  · rename_i bounds
    cases fits
    apply BitVec.eq_of_toNat_eq
    rw [Source.read, BitVec.toNat_setWidth, BitVec.toNat_ofInt, BitVec.toNat_ofInt]
    omega
  · cases fits

/-- One line with a constant, which sets a register. -/
theorem continues_imm {operation : Source → Operation} {value : Int} {source target : Fin 16}
    (bytes : Nat) {next : BitVec 32 → BitVec 32} (nonzero : target ≠ 0) (not14 : target ≠ 14)
    (not10 : target ≠ 10) (run : ∀ (constant : Source) (work : Work),
      constant.read work.regs = BitVec.ofInt 32 value →
      (operation constant).work host.ram work = some (work.set target (next (work.regs source)))) :
    Continues host frame (emitImm operation value) source target bytes
      (fun value => .pure (next value)) := by
  refine continues_ops bytes nonzero not14 not10 fun code emitted work => ?_
  obtain ⟨constant, fits, rfl⟩ := Option.map_eq_some_iff.mp emitted
  refine ⟨_, by rw [runCode_cons, run constant work (imm16_read fits _)]; rfl,
    work.local_set _ not14 not10, Work.set_same _ _ nonzero⟩

theorem computes_of_continues {code : Emit α} {source target : Fin 16} {bytes : Nat}
    {value : BitVec 32} {next : BitVec 32 → Meaning}
    (continues : Continues host frame code source target bytes next)
    (held : ∀ memory core, Ready frame memory bytes core → core.work.regs source = value) :
    Computes host frame code target bytes (next value) :=
  fun memory core value' memory' means ready =>
    continues memory core value value' memory' means ready (held memory core ready)

theorem computes_const {code : Emit α} (source : Fin 16) {target : Fin 16} {bytes : Nat}
    {meaning : Meaning} (continues : Continues host frame code source target bytes fun _ => meaning) :
    Computes host frame code target bytes meaning :=
  fun memory core value memory' means ready =>
    continues memory core _ value memory' means ready rfl

theorem computes_failure (reg : Fin 16) (bytes : Nat) :
    Computes host frame emitFailure reg bytes .none := by
  rintro memory core value memory' ⟨⟩

theorem computes_addr32 (address : BitVec 32) (bytes : Nat) :
    Computes host frame (emitAddr32 address) 9 bytes (.pure address) := by
  rintro memory core value memory' ⟨⟩ ready
  have run : runCode host.ram [.move 9 (.imm (address.extractLsb' 16 16)), .alu .lsl 9 9 (.imm 16),
      .alu .or 9 9 (.imm (address.truncate 16))] core.work = some (core.work.set 9 address) := by
    have shift : (16 : BitVec 16).zeroExtend 32 &&& 31 = 16#32 := rfl
    have joined := halves_join address
    simp only [runCode_cons, runCode_nil, Operation.work, Option.bind_some, Source.read, AluOp.apply,
      Work.set_same _ _ (show (9 : Fin 16) ≠ 0 by decide), Work.set_set, shift]
    exact congrArg (fun word => some (core.work.set 9 word)) joined
  exact ⟨_, does_lines run, ready.steady.local (core.work.local_set _ (by decide) (by decide)) _ _,
    Work.set_same _ _ (by decide)⟩

structure NodeComputes (host : Host α) (frame : Stack) (code : NodeCode α) (meaning : NodeMeaning Memory)
    (bytes : Nat) : Prop where
  value : Computes host frame code.value 1 bytes meaning.value
  address : Computes host frame code.address 9 bytes meaning.address
  object : ∀ val, Computes host frame (genMemberAddr code val) 9 bytes
    (meaning.object.bind fun object => .pure (object + BitVec.ofNat 32 val))

def Node.bytes (costs : Costs α) : Node α → Nat
  | .num _ _ | .var _ _ | .gvar _ _ | .func _ _ | .str _ => 0
  | .call which _ => costs.call which
  | .addr lhs _ | .deref lhs _ | .member lhs _ _ _ | .cast lhs _ | .unary _ lhs => lhs.bytes costs
  | .binary .logand lhs rhs _ _ | .binary .logor lhs rhs _ _ =>
      max (lhs.bytes costs) (rhs.bytes costs)
  | .binary _ lhs rhs _ _ =>
      max (rhs.bytes costs) (max (4 + lhs.bytes costs) (8 + costs.runtime))
  | .assign lhs rhs _ => max (lhs.bytes costs) (max (4 + rhs.bytes costs) 0)
  | .comma lhs rhs _ => max (lhs.bytes costs) (rhs.bytes costs)
  | .cond lhs rhs els _ => max (lhs.bytes costs) (max (rhs.bytes costs) (els.bytes costs))

theorem memberAddr_none {code : Emit α} {bytes : Nat} {meaning : Meaning} {value : Emit α}
    (computes : Computes host frame code 9 bytes meaning) (val : Nat) :
    Computes host frame (genMemberAddr ⟨value, code, none⟩ val) 9 bytes
      (meaning.bind fun object => .pure (object + BitVec.ofNat 32 val)) := by
  refine computes.bind ?_
  split
  · rename_i zero
    have same : (fun object => .pure (object + BitVec.ofNat 32 val) : BitVec 32 → Meaning) = .pure := by
      funext object
      simp [zero]
    rw [same]
    exact continues_nothing 9 bytes
  · refine continues_imm bytes (by decide) (by decide) (by decide) fun constant work reads => ?_
    rw [work_alu, reads, AluOp.apply, BitVec.ofInt_natCast]

theorem memberAddr_some {code address value : Emit α} {bytes : Nat} {meaning : Meaning}
    (computes : Computes host frame code 1 bytes meaning) (val : Nat) :
    Computes host frame (genMemberAddr ⟨value, address, some code⟩ val) 9 bytes
      (meaning.bind fun object => .pure (object + BitVec.ofNat 32 val)) := by
  refine computes.bind ?_
  split
  · rename_i zero
    have same : (fun object => .pure (object + BitVec.ofNat 32 val) : BitVec 32 → Meaning) =
        fun object => .pure object := by
      funext object
      simp [zero]
    rw [same]
    exact continues_op bytes (by decide) (by decide) (by decide) fun work => rfl
  · refine continues_imm bytes (by decide) (by decide) (by decide) fun constant work reads => ?_
    rw [work_alu, reads, AluOp.apply, BitVec.ofInt_natCast]

theorem plain_binary {kind : BinaryKind} (plain : kind ≠ .logand ∧ kind ≠ .logor) (build : Build)
    (setting : Setting α) (costs : Costs α) (lhs rhs : Node α) (ty : CType) (val : Nat) :
    genNode build setting.naming (.binary kind lhs rhs ty val) =
      ⟨(genNode build setting.naming rhs).value ++ emitPush 1 ++
        (genNode build setting.naming lhs).value ++ emitPop 2 ++ genOperation build kind ty val,
        emitFailure, none⟩ ∧
    nodeMeaning setting.world (.binary kind lhs rhs ty val) =
      ⟨(nodeMeaning setting.world rhs).value.bind fun right =>
        (nodeMeaning setting.world lhs).value.bind fun left => .pure (kind.apply ty val left right),
        .none, .none⟩ ∧
    (Node.binary kind lhs rhs ty val).bytes costs =
      max (rhs.bytes costs) (max (4 + lhs.bytes costs) (8 + costs.runtime)) := by
  cases kind <;> first | exact ⟨rfl, rfl, rfl⟩ | simp at plain

variable {setting : Setting α} {costs : Costs α}

/-- A node without an address. -/
theorem nodeComputes_value {code : Emit α} {meaning : Meaning} {bytes : Nat}
    (computes : Computes host frame code 1 bytes meaning) :
    NodeComputes host frame ⟨code, emitFailure, none⟩ ⟨meaning, .none, .none⟩ bytes where
  value := computes
  address := computes_failure 9 bytes
  object := memberAddr_none (computes_failure 9 bytes)

/-- A node whose address is computed in `r9`. -/
theorem nodeComputes_object (ram : host.ram = setting.frame.ram) {address : Emit α}
    {meaning : Meaning} {bytes : Nat} (computes : Computes host setting.frame address 9 bytes meaning)
    (ty : CType) :
    NodeComputes host setting.frame ⟨address ++ genObject ty, address, none⟩
      ⟨meaning.bind (setting.world.fetch (.object ty)), meaning, meaning⟩ bytes where
  value := computes.bind (continues_object ram ty bytes)
  address := computes
  object := memberAddr_none computes

theorem addr_other (build : Build) (setting : Setting α) {lhs : Node α}
    (other : ∀ val, lhs ≠ .str val) (ty : CType) :
    genNode build setting.naming (.addr lhs ty) =
      ⟨(genNode build setting.naming lhs).address ++ emitOp (.move 1 (.reg 9)), emitFailure, none⟩ ∧
    nodeMeaning setting.world (.addr lhs ty) = ⟨(nodeMeaning setting.world lhs).address, .none, .none⟩ := by
  cases lhs <;> first | exact ⟨rfl, rfl⟩ | exact absurd rfl (other _)

theorem continues_turns {code : List Operation} (bytes : Nat) {next : BitVec 32 → BitVec 32}
    (turns : Turns host.ram next code) :
    Continues host frame (emitOps (some code)) 1 1 bytes (fun value => .pure (next value)) := by
  refine continues_ops bytes (by decide) (by decide) (by decide) ?_
  rintro code ⟨⟩ work
  obtain ⟨after, runs, yields⟩ := turns work
  exact ⟨after, runs, yields.local, yields.result⟩

theorem continues_cast (ty : CType) (bytes : Nat) :
    Continues host frame (genCast ty) 1 1 bytes (fun value => .pure (castValue ty value)) := by
  cases ty with
  | char unsigned =>
      exact continues_turns bytes (genExtend_run host.ram (.char unsigned) rfl (Nat.succ_pos 7))
  | short unsigned =>
      exact continues_turns bytes (genExtend_run host.ram (.short unsigned) rfl (Nat.succ_pos 15))
  | _ => exact continues_nothing 1 bytes

theorem Continues.bind {first second : Emit α} {source middle target : Fin 16} {bytes : Nat}
    {next next₂ : BitVec 32 → Meaning}
    (left : Continues host frame first source middle bytes next)
    (right : Continues host frame second middle target bytes next₂) :
    Continues host frame (first ++ second) source target bytes
      (fun value => (next value).bind next₂) := by
  intro memory core value value' memory' means ready held
  obtain ⟨result, memory₂, one, two⟩ := Evaluation.bind_eq_some.mp means
  obtain ⟨between, does, steady, isResult⟩ := left _ _ _ _ _ one ready held
  obtain ⟨after, does₂, steady₂, isLast⟩ := right _ _ _ _ _ two (steady.ready ready) isResult
  exact ⟨after, does.append does₂, steady.trans steady₂, isLast⟩

/-- A number in `r2` beside the value in `r1`. -/
theorem continues_second {first last : Emit α} {second : BitVec 32} {bytes : Nat}
    {next : BitVec 32 → BitVec 32 → Meaning}
    (sets : ∀ core : Core, Does host first core ⟨core.work.set 2 second, core.lastA, core.lastB⟩)
    (combines : Combines host frame last 2 bytes next) :
    Continues host frame (first ++ last) 1 1 bytes (next second) := by
  intro memory core value value' memory' means ready held
  have steady := ready.steady.local (core.work.local_set second (show (2 : Fin 16) ≠ 14 by decide) (by decide))
    core.lastA core.lastB
  obtain ⟨after, does, steady₂, result⟩ := combines _ _ _ _ _ _ means (steady.ready ready)
    (Work.set_same _ _ (by decide)) ((Registers.set_other _ _ (by decide)).trans held)
  exact ⟨after, (sets core).append does, steady.trans steady₂, result⟩

theorem continues_unary (unique : (codeLabels host.program).Nodup) (build : Build) (kind : UnaryKind)
    (bytes : Nat) :
    Continues host frame (genUnary build kind) 1 1 bytes (fun value => .pure (kind.apply value)) := by
  cases kind with
  | neg => exact continues_op bytes (by decide) (by decide) (by decide) fun _ => rfl
  | not => exact continues_second (fun core => does_op rfl) (combines_compare unique .je bytes)
  | bitnot =>
      have combines : Combines host frame (emitOp (.alu .xor 1 1 (.reg 2))) 2 bytes
          (fun right left => .pure (left ^^^ right)) := combines_op bytes fun _ => rfl
      have continues := continues_second
        (show ∀ core, Does host (emitOps (genNumReg build 2 (build.toCcInt 0xFFFFFFFF))) core
          ⟨core.work.set 2 (BitVec.allOnes 32), core.lastA, core.lastB⟩ from fun core =>
          does_ops fun code emitted => by
            have ones : BitVec.ofInt 32 0xFFFFFFFF = BitVec.allOnes 32 := by decide
            rw [genNumReg_runs _ (by decide) emitted, Build.ofInt_toCcInt, ones]) combines
      simp only [BitVec.xor_allOnes] at continues
      exact continues

theorem fetch_place (setting : Setting α) {ty : CType} (place : ty.isPlace) (meaning : Meaning) :
    meaning.bind (setting.world.fetch (.object ty)) = meaning := by
  refine Eq.trans (congrArg _ ?_) meaning.bind_pure
  funext address memory
  simp only [Setting.world, Stack.fetch, if_pos place]
  rfl

theorem truth_nonzero (value : BitVec 32) :
    truth (value != 0) = if value = 0 then 0 else 1 := by
  by_cases zero : value = 0#32 <;> simp [truth, zero]

theorem computes_logand (unique : (codeLabels host.program).Nodup) {lhs rhs : Emit α}
    {bytes bytes₂ : Nat} {meaning meaning₂ : Meaning}
    (left : Computes host frame lhs 1 bytes meaning)
    (right : Computes host frame rhs 1 bytes₂ meaning₂) :
    Computes host frame (genLogand lhs rhs) 1 (max bytes bytes₂)
      (meaning.bind fun first => if first = 0 then .pure 0
        else meaning₂.bind fun second => .pure (truth (second != 0))) := by
  intro memory core value memory' means ready
  refine computes_shortCircuit unique left right true 1 0 memory core value memory' ?_ ready
  refine Eq.trans ?_ means
  congr 2
  funext first
  by_cases zero : first = 0
  · rw [if_pos (decide_eq_true zero), if_pos zero]
    rfl
  · rw [if_neg (by simpa using zero), if_neg zero]
    congr 1
    funext second
    rw [truth_nonzero]
    by_cases zero : second = 0
    · rw [if_pos (decide_eq_true zero), if_pos zero]
      rfl
    · rw [if_neg (by simpa using zero), if_neg zero]
      rfl

theorem computes_logor (unique : (codeLabels host.program).Nodup) {lhs rhs : Emit α}
    {bytes bytes₂ : Nat} {meaning meaning₂ : Meaning}
    (left : Computes host frame lhs 1 bytes meaning)
    (right : Computes host frame rhs 1 bytes₂ meaning₂) :
    Computes host frame (genLogor lhs rhs) 1 (max bytes bytes₂)
      (meaning.bind fun first => if first = 0 then
          meaning₂.bind fun second => .pure (truth (second != 0))
        else .pure 1) := by
  intro memory core value memory' means ready
  refine computes_shortCircuit unique left right false 0 1 memory core value memory' ?_ ready
  refine Eq.trans ?_ means
  congr 2
  funext first
  by_cases zero : first = 0
  · rw [if_neg (by simp [zero]), if_pos zero]
    congr 1
    funext second
    rw [truth_nonzero]
    by_cases zero : second = 0
    · rw [if_neg (by simp [zero]), if_pos zero]
      rfl
    · rw [if_pos (by simpa using zero), if_neg zero]
      rfl
  · rw [if_pos (by simpa using zero), if_neg zero]
    rfl

theorem node_computes (sound : setting.frame.Sound) (faithful : Faithful host setting costs)
    (build : Build) (n : Node α) :
    NodeComputes host setting.frame (genNode build setting.naming n) (nodeMeaning setting.world n)
      (n.bytes costs) := by
  have toR1 (bytes : Nat) : Continues host setting.frame (emitOp (.move 1 (.reg 9))) 9 1 bytes .pure :=
    @continues_op _ _ _ _ _ _ bytes id (by decide) (by decide) (by decide) fun _ => rfl
  have toR9 (bytes : Nat) : Continues host setting.frame (emitOp (.move 9 (.reg 1))) 1 9 bytes .pure :=
    @continues_op _ _ _ _ _ _ bytes id (by decide) (by decide) (by decide) fun _ => rfl
  have symbol (address : BitVec 32) : Computes host setting.frame
      (emitAddr32 address ++ emitOp (.move 1 (.reg 9))) 1 0 (.pure address) :=
    (computes_addr32 address 0).bind (toR1 0)
  induction n with
  | num val ty =>
      refine nodeComputes_value (computes_const 1 (continues_ops 0 (by decide) (by decide) (by decide)
        fun code emitted work => ⟨_, genNumReg_runs _ (by decide) emitted work,
          work.local_set _ (by decide) (by decide), Work.set_same _ _ (by decide)⟩))
  | var offset ty =>
      have address : Computes host setting.frame (emitImm (.alu .sub 9 10) (-offset)) 9 0
          (.pure (setting.frame.base + BitVec.ofInt 32 offset)) := by
        refine @computes_of_continues _ _ _ _ _ _ _ _ (fun base => .pure (base + BitVec.ofInt 32 offset))
          (continues_imm 0 (by decide) (by decide) (by decide) fun constant work reads => ?_)
          fun memory core ready => ready.base
        rw [work_alu, reads, AluOp.apply, BitVec.ofInt_neg, BitVec.sub_eq_add_neg, BitVec.neg_neg]
      exact nodeComputes_object faithful.ram address ty
  | gvar name ty =>
      refine nodeComputes_object faithful.ram ?_ ty
      split
      · exact computes_addr32 _ 0
      · refine computes_const 9 (@continues_imm _ _ _ _ _ _ _ 0 (fun _ => setting.naming.address name)
          (by decide) (by decide) (by decide) fun constant work reads => ?_)
        rw [Operation.work, reads, BitVec.ofInt_natCast, BitVec.ofNat_toNat]
        simp
  | func name ty => exact nodeComputes_value (symbol _)
  | str val => exact nodeComputes_value (symbol _)
  | call which ty =>
      have calls : Computes host setting.frame (emit [.call which]) 1 (costs.call which)
          (setting.calls which) := by
        intro memory core value memory' means ready
        obtain ⟨after, runs, steady, result⟩ := faithful.call which _ _ _ _ means ready
        refine ⟨_, ?_, steady, result⟩
        rintro next lines next' ⟨⟩ before rest -
        exact host.reaches_step (by rw [List.cons_append, Host.step, runs]; rfl) .refl
      exact ⟨calls, computes_failure 9 _, memberAddr_some calls⟩
  | addr lhs ty ih =>
      by_cases isString : ∃ val, lhs = .str val
      · obtain ⟨val, rfl⟩ := isString
        exact nodeComputes_value (symbol _)
      · obtain ⟨code, meaning⟩ := @addr_other _ build setting lhs
          (fun val same => isString ⟨val, same⟩) ty
        rw [code, meaning]
        have computes := ih.address.bind (toR1 _)
        rw [Evaluation.bind_pure] at computes
        exact nodeComputes_value computes
  | deref lhs ty ih =>
      have address := ih.value.bind (toR9 _)
      rw [Evaluation.bind_pure] at address
      refine ⟨?_, address, memberAddr_some ih.value⟩
      have object := continues_object faithful.ram ty (lhs.bytes costs)
      simp only [genNode, genObject] at object ⊢
      split at object
      · rename_i place
        rw [if_pos place]
        simp only [nodeMeaning, fetch_place setting place]
        exact ih.value
      · rename_i plain
        rw [if_neg plain]
        exact address.bind object
  | member lhs val field ty ih =>
      have address := ih.object val
      cases field with
      | none => exact nodeComputes_object faithful.ram address ty
      | some field =>
          exact ⟨address.bind (continues_bits faithful.ram build field _), address,
            memberAddr_none address⟩
  | cast lhs ty ih => exact nodeComputes_value (ih.value.bind (continues_cast ty _))
  | unary kind lhs ih =>
      exact nodeComputes_value (ih.value.bind (continues_unary faithful.unique build kind _))
  | binary kind lhs rhs ty val left right =>
      by_cases plain : kind ≠ .logand ∧ kind ≠ .logor
      · obtain ⟨code, meaning, bytes⟩ := plain_binary plain build setting costs lhs rhs ty val
        rw [code, meaning, bytes]
        exact nodeComputes_value (right.value.combine sound faithful.ram (by decide) (by decide)
          (by decide) (by decide) (by decide) left.value
          (combines_operation sound faithful build ty val plain))
      · obtain rfl | rfl : kind = .logand ∨ kind = .logor := by
          by_contra neither
          exact plain (not_or.mp neither)
        · exact nodeComputes_value (computes_logand faithful.unique left.value right.value)
        · exact nodeComputes_value (computes_logor faithful.unique left.value right.value)
  | assign lhs rhs ty left right =>
      exact nodeComputes_value (left.address.combine sound faithful.ram (by decide) (by decide)
        (by decide) (by decide) (by decide) right.value (combines_put faithful.ram build ty _ 0))
  | comma lhs rhs ty left right =>
      refine nodeComputes_value ((left.value.mono (Nat.le_max_left _ _)).bind ?_)
      exact fun memory core _ value memory' means ready _ =>
        right.value.mono (Nat.le_max_right _ _) memory core value memory' means ready
  | cond lhs rhs els ty test left right =>
      exact nodeComputes_value (computes_cond faithful.unique test.value left.value right.value)

/-- The emitted code of an expression runs to its end, with the value in `r1`, the stack as before
and the memory that the expression makes, but for the temporaries. -/
theorem genExpr_correct (sound : setting.frame.Sound) (faithful : Faithful host setting costs)
    (build : Build) (n : Node α) {next next' : Nat} {lines before after : List (CodeLine α)}
    (emitted : genExpr build setting.naming n next = some (lines, next'))
    (place : host.program = before ++ (lines ++ after)) {memory memory' : Memory} {core : Core}
    (ready : Ready setting.frame memory (n.bytes costs) core) {value : BitVec 32}
    (means : eval setting n memory = some (value, memory')) :
    ∃ final, host.Reaches (lines ++ after, core) (after, final) ∧ final.work.regs 1 = value ∧
      Steady setting.frame core memory' final := by
  obtain ⟨final, does, steady, result⟩ :=
    (node_computes sound faithful build n).value memory core value memory' means ready
  exact ⟨final, does next lines next' emitted before after place, result, steady⟩

end SymphonyPlus
