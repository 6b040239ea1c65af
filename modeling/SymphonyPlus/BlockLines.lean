import SymphonyPlus.SyscallRuns

/-!
`sp_copy` and `sp_zero` of `runtime/platform.sym`: the source lines, what the image linker prints for
them, and the operations of the assembled words.
-/

namespace SymphonyPlus

open ByteMemory

def copyWord : List String :=
  ["    load_32 r4, [r2]", "    store_32 [r1], r4", "    add r1, r1, 4", "    add r2, r2, 4"]

def zeroWord : List String := ["    store_32 [r1], zr", "    add r1, r1, 4"]

def spCopy : List String :=
  ["sp_copy:", "    add r9, sp, 4", "    load_32 r1, [r9]", "    add r9, sp, 8", "    load_32 r2, [r9]",
    "    add r9, sp, 12", "    load_32 r3, [r9]", "sp_copy_loop:", "    cmp r3, 32",
    "    jb sp_copy_tail"] ++ (List.replicate 8 copyWord).flatten ++
  ["    sub r3, r3, 32", "    jmp sp_copy_loop", "sp_copy_tail:", "    cmp r3, 0",
    "    je sp_copy_done"] ++ copyWord ++
  ["    sub r3, r3, 4", "    jmp sp_copy_tail", "sp_copy_done:", "    ret"]

def spZero : List String :=
  ["sp_zero:", "    add r9, sp, 4", "    load_32 r1, [r9]", "    add r9, sp, 8", "    load_32 r2, [r9]",
    "sp_zero_loop:", "    cmp r2, 32", "    jb sp_zero_tail"] ++ (List.replicate 8 zeroWord).flatten ++
  ["    sub r2, r2, 32", "    jmp sp_zero_loop", "sp_zero_tail:", "    cmp r2, 0",
    "    je sp_zero_done"] ++ zeroWord ++
  ["    sub r2, r2, 4", "    jmp sp_zero_tail", "sp_zero_done:", "    ret"]

/-- A conditional jump goes to the gate, which jumps through `r13`. -/
def conditionalLines (op : List Char) (addr gate : Nat) : List (List Char) :=
  ["    mov r13, ".toList ++ hexText (addr / 2 ^ 16), "    lsl r13, r13, 16".toList,
    "    or r13, r13, ".toList ++ hexText (addr % 2 ^ 16),
    "    ".toList ++ op ++ " ".toList ++ hexText gate]

def printedBlockLine (address : List Char → Nat) (gate : Nat) (line : List Char) : List (List Char) :=
  if objLabelNameLen line = 0 ∧ isCond (parts line).1 then
    conditionalLines (parts line).1 (address (parts line).2) gate
  else printedLine address line

theorem target_printed {im : Image} {addr : Nat} (bound : addr < 2 ^ 32) :
    im.target addr = { im with out := im.out ++ targetText addr } := by
  have high := hexText_length (Nat.lt_of_le_of_lt (Nat.div_le_self addr (2 ^ 16)) bound)
  have low := hexText_length (Nat.lt_of_le_of_lt (Nat.mod_le addr (2 ^ 16)) bound)
  have size : (targetText addr).length < 4096 := by
    have first : "    mov r13, ".toList.length = 13 := by decide
    have second : "\n    lsl r13, r13, 16\n".toList.length = 22 := by decide
    have third : "    or r13, r13, ".toList.length = 17 := by decide
    have fourth : "\n".toList.length = 1 := by decide
    rw [targetText_eq]
    simp only [List.length_append]
    omega
  rw [Image.target, emit_short size]

/-- A line of an image without safe points whose name is known. -/
theorem blockLine_printed {im : Image} {owner gate : Nat} {address : List Char → Nat} {line : List Char}
    (noPoll : im.poll = false) {opt : LinkOptions} (branchGate : opt.branchGate = gate)
    (gateBound : gate < 2 ^ 16)
    (printable : Printable im owner address line ∨ objLabelNameLen line = 0 ∧ isCond (parts line).1 ∧
      im.address (parts line).2 owner = some (address (parts line).2) ∧
      address (parts line).2 < 2 ^ 32) (out : List Char) :
    ({ im with out := out } : Image).line line owner opt =
      { im with out := out ++ unlines (printedBlockLine address gate line) } := by
  by_cases conditional : objLabelNameLen line = 0 ∧ isCond (parts line).1
  · have known : im.address (parts line).2 owner = some (address (parts line).2) ∧
        address (parts line).2 < 2 ^ 32 := by
      rcases printable with printable | ⟨-, -, known⟩
      · cases printable with
        | label name _ => exact absurd conditional.1 name
        | jump _ op known bound => exact ⟨known, bound⟩
        | plain plain =>
            rw [plain.2.1] at conditional
            exact absurd conditional.2 (by decide)
      · exact known
    have short : (parts line).1.length ≤ 31 := by
      rw [parts]
      exact List.length_take_le _ _
    have number := hexText_length (show gate < 2 ^ 32 by omega)
    have size : ("    ".toList ++ (parts line).1 ++ " ".toList ++ hexText gate ++ "\n".toList).length < 4096 := by
      have first : "    ".toList.length = 4 := by decide
      have second : " ".toList.length = 1 := by decide
      have third : "\n".toList.length = 1 := by decide
      simp only [List.length_append]
      omega
    rw [Image.line]
    simp only [if_neg (not_not.mpr conditional.1), if_pos conditional.2, resolve_of_address known.1,
      target_printed known.2, branchGate, emit_short size]
    rw [printedBlockLine, if_pos conditional, targetText_eq]
    simp only [unlines, conditionalLines, List.flatMap_cons, List.flatMap_nil, List.append_assoc,
      List.append_nil]
    rfl
  · have other : Printable im owner address line := by
      refine printable.resolve_right ?_
      rintro ⟨code, cond, -⟩
      exact conditional ⟨code, cond⟩
    rw [printedBlockLine, if_neg conditional]
    exact line_printed noPoll other opt out

theorem blockLines_printed {im : Image} {owner gate : Nat} {address : List Char → Nat}
    {lines : List (List Char)} (noPoll : im.poll = false) {opt : LinkOptions}
    (branchGate : opt.branchGate = gate) (gateBound : gate < 2 ^ 16)
    (printable : ∀ line ∈ lines, Printable im owner address line ∨ objLabelNameLen line = 0 ∧
      isCond (parts line).1 ∧ im.address (parts line).2 owner = some (address (parts line).2) ∧
      address (parts line).2 < 2 ^ 32) (out : List Char) :
    ({ im with out := out } : Image).lines owner opt lines =
      { im with out := out ++ unlines (lines.flatMap (printedBlockLine address gate)) } := by
  induction lines generalizing out with
  | nil => simp [Image.lines, unlines]
  | cons line rest ih =>
      rw [Image.lines, blockLine_printed noPoll branchGate gateBound (printable line List.mem_cons_self),
        ih fun line member => printable line (List.mem_cons_of_mem _ member)]
      simp only [unlines, List.flatMap_cons, List.flatMap_append, List.append_assoc]

/-! What the printed lines do. -/

def branchOps (condition : Condition) (addr gate : Nat) : List Operation :=
  [.move 13 (.imm (BitVec.ofNat 16 (addr / 2 ^ 16))), .alu .lsl 13 13 (.imm 16),
    .alu .or 13 13 (.imm (BitVec.ofNat 16 (addr % 2 ^ 16))),
    .jumpIf condition (BitVec.ofNat 16 gate)]

def copyWordOps : List Operation :=
  [.load .word 4 (.reg 2), .store .word (.reg 1) 4, .alu .add 1 1 (.imm 4), .alu .add 2 2 (.imm 4)]

def zeroWordOps : List Operation := [.store .word (.reg 1) 0, .alu .add 1 1 (.imm 4)]

def argumentOps (target : Fin 16) (offset : BitVec 16) : List Operation :=
  [.alu .add 9 14 (.imm offset), .load .word target (.reg 9)]

def retOps : List Operation :=
  [.load .word 15 (.reg 14), .alu .add 14 14 (.imm 4), .jump (.reg 15)]

/-- Eight words a turn while thirty-two bytes are left, then a word a turn. -/
def blockOps (counter : Fin 16) (word : List Operation) (loop tail done gate : Nat) :
    List Operation :=
  [.compare counter (.imm 32)] ++ (branchOps .jb tail gate ++ ((List.replicate 8 word).flatten ++
  ([.alu .sub counter counter (.imm 32)] ++ (jumpOps loop ++ ([.compare counter (.imm 0)] ++
  (branchOps .je done gate ++ (word ++ ([.alu .sub counter counter (.imm 4)] ++ (jumpOps tail ++
  retOps)))))))))

def copyOperations (entry gate : Nat) : List Operation :=
  argumentOps 1 4 ++ (argumentOps 2 8 ++ (argumentOps 3 12 ++
  blockOps 3 copyWordOps (entry + 24) (entry + 192) (entry + 248) gate))

def zeroOperations (entry gate : Nat) : List Operation :=
  argumentOps 1 4 ++ (argumentOps 2 8 ++
  blockOps 2 zeroWordOps (entry + 16) (entry + 120) (entry + 168) gate)

theorem conditional_does {op : List Char} {condition : Condition} {gate : Nat}
    (known : op = "jb".toList ∧ condition = .jb ∨ op = "je".toList ∧ condition = .je)
    (gateBound : gate < 2 ^ 16) (labels : List Label) :
    LineDoes labels ("    ".toList ++ op ++ " ".toList ++ hexText gate)
      [.jumpIf condition (BitVec.ofNat 16 gate)] := by
  have text : "    ".toList ++ op ++ " ".toList ++ hexText gate =
      "    ".toList ++ (op ++ ' ' :: hexText gate) := by
    simp only [List.append_assoc]
    rfl
  have start : ∃ c rest, op = c :: rest ∧ c.isAlpha = true ∧ c ≠ 'U' := by
    rcases known with ⟨rfl, -⟩ | ⟨rfl, -⟩
    · exact ⟨'j', ['b'], rfl, by decide, by decide⟩
    · exact ⟨'j', ['e'], rfl, by decide, by decide⟩
  have word : op.all isIdentRest = true := by
    rcases known with ⟨rfl, -⟩ | ⟨rfl, -⟩ <;> decide
  have short : op.length ≤ 63 := by
    rcases known with ⟨rfl, -⟩ | ⟨rfl, -⟩ <;> decide
  have printed : Printed op ([] ++ hexText gate) :=
    printed_hexText word start short List.not_mem_nil rfl
  have denoted := OperandsDenote.last (.hexText gate) (operandSource_hexText gateBound labels)
  rw [text]
  refine ⟨op, hexText gate, [.imm (BitVec.ofNat 16 gate)], instructionParts_printed printed, denoted,
    ?_, ?_⟩
  · rcases known with ⟨rfl, rfl⟩ | ⟨rfl, rfl⟩ <;> rfl
  · rcases known with ⟨rfl, -⟩ | ⟨rfl, -⟩ <;> decide

theorem conditionalLines_do {op : List Char} {condition : Condition} {addr gate : Nat}
    (known : op = "jb".toList ∧ condition = .jb ∨ op = "je".toList ∧ condition = .je)
    (bound : addr < 2 ^ 32) (gateBound : gate < 2 ^ 16) :
    linesDo (conditionalLines op addr gate) (branchOps condition addr gate) := by
  refine ⟨(branchOps condition addr gate).map ([·]), .cons (targetHigh_does (by omega)) (.cons ?_
    (.cons (targetLow_does (by omega)) (.cons (conditional_does known gateBound) .nil))), rfl⟩
  exact lineDoes_of_read (by decide +kernel)

theorem linesDo.replicate {printed : List Char → List (List Char)} {lines : List (List Char)}
    {operations : List Operation} (does : linesDo (lines.flatMap printed) operations) (n : Nat) :
    linesDo ((List.replicate n lines).flatten.flatMap printed)
      (List.replicate n operations).flatten := by
  induction n with
  | zero => exact ⟨[], .nil, rfl⟩
  | succ n ih =>
      simp only [List.replicate_succ, List.flatten_cons, List.flatMap_append]
      exact does.append ih

/-- Lines without a jump that are read as operations. -/
def PieceDoes (piece : List String) (operations : List Operation) : Prop :=
  (∀ line ∈ piece.map String.toList, PlainText line ∨ objLabelNameLen line ≠ 0) ∧
    (((piece.map String.toList).filter (objLabelNameLen · = 0)).mapM (lineOperations [])).map
      List.flatten = some operations

instance (piece : List String) (operations : List Operation) : Decidable (PieceDoes piece operations) :=
  inferInstanceAs (Decidable (_ ∧ _))

section Parts

variable {address : List Char → Nat} {gate : Nat}

theorem PieceDoes.printed {piece : List String} {operations : List Operation}
    (does : PieceDoes piece operations) :
    linesDo ((piece.map String.toList).flatMap (printedBlockLine address gate)) operations := by
  obtain ⟨plain, read⟩ := does
  have same : (piece.map String.toList).flatMap (printedBlockLine address gate) =
      (piece.map String.toList).flatMap (printedLine address) := by
    refine List.flatMap_congr fun line member => if_neg ?_
    rintro ⟨code, conditional⟩
    rcases plain line member with ⟨-, other, -⟩ | label
    · rw [other] at conditional
      cases conditional
    · exact label code
  rw [same, plain_printed plain]
  exact linesDo_of_read read

theorem jumpBlock_does {line : List Char} {addr : Nat} (code : objLabelNameLen line = 0)
    (jump : (parts line).1 = "jmp".toList) (name : isReg (parts line).2 = false)
    (target : address (parts line).2 = addr) (bound : addr < 2 ^ 32) :
    linesDo ([line].flatMap (printedBlockLine address gate)) (jumpOps addr) := by
  have printed : printedBlockLine address gate line = jumpLines addr := by
    have other : isCond (parts line).1 = false := by
      rw [jump]
      decide
    have call : (parts line).1 ≠ "call".toList := by
      rw [jump]
      decide
    have plain : ¬(objLabelNameLen line = 0 ∧ isCond (parts line).1 = true) := by
      simp [other]
    rw [printedBlockLine, if_neg plain, printedLine, if_neg (not_not.mpr code), if_neg call,
      if_pos ⟨jump, by rw [name]; rfl⟩, target]
  rw [List.flatMap_singleton, printed]
  exact jumpLines_do bound

theorem conditionalBlock_does {line : List Char} {condition : Condition} {addr : Nat}
    (code : objLabelNameLen line = 0)
    (known : (parts line).1 = "jb".toList ∧ condition = .jb ∨
      (parts line).1 = "je".toList ∧ condition = .je)
    (target : address (parts line).2 = addr) (bound : addr < 2 ^ 32) (gateBound : gate < 2 ^ 16) :
    linesDo ([line].flatMap (printedBlockLine address gate)) (branchOps condition addr gate) := by
  have conditional : isCond (parts line).1 = true := by
    rcases known with ⟨op, -⟩ | ⟨op, -⟩
    · rw [op]
      decide
    · rw [op]
      decide
  rw [List.flatMap_singleton, printedBlockLine, if_pos ⟨code, conditional⟩, target]
  exact conditionalLines_do known bound gateBound

end Parts

/-! The two routines. -/

def copyLabels (entry : Nat) (name : List Char) : Nat :=
  if name = "sp_copy_loop".toList then entry + 24
  else if name = "sp_copy_tail".toList then entry + 192
  else entry + 248

def zeroLabels (entry : Nat) (name : List Char) : Nat :=
  if name = "sp_zero_loop".toList then entry + 16
  else if name = "sp_zero_tail".toList then entry + 120
  else entry + 168

def labelOffset (lines : List String) (label : String) : Nat :=
  (((lines.takeWhile (· ≠ label)).map String.toList).filterMap (lineSize false)).sum

example : labelOffset spCopy "sp_copy_loop:" = 24 ∧
    labelOffset spCopy "sp_copy_tail:" = 192 ∧ labelOffset spCopy "sp_copy_done:" = 248 := by
  decide +kernel

example : labelOffset spZero "sp_zero_loop:" = 16 ∧
    labelOffset spZero "sp_zero_tail:" = 120 ∧ labelOffset spZero "sp_zero_done:" = 168 := by
  decide +kernel

def printedCopy (entry gate : Nat) : List (List Char) :=
  (spCopy.map String.toList).flatMap (printedBlockLine (copyLabels entry) gate)

def printedZero (entry gate : Nat) : List (List Char) :=
  (spZero.map String.toList).flatMap (printedBlockLine (zeroLabels entry) gate)

theorem copy_pieces :
    PieceDoes (spCopy.take 9)
      (argumentOps 1 4 ++ argumentOps 2 8 ++ argumentOps 3 12 ++ [.compare 3 (.imm 32)]) ∧
    PieceDoes copyWord copyWordOps ∧
    PieceDoes ["    sub r3, r3, 32"] [.alu .sub 3 3 (.imm 32)] ∧
    PieceDoes ["sp_copy_tail:", "    cmp r3, 0"] [.compare 3 (.imm 0)] ∧
    PieceDoes ["    sub r3, r3, 4"] [.alu .sub 3 3 (.imm 4)] ∧
    PieceDoes ["sp_copy_done:", "    ret"] retOps := by
  decide +kernel

theorem zero_pieces :
    PieceDoes (spZero.take 7) (argumentOps 1 4 ++ argumentOps 2 8 ++ [.compare 2 (.imm 32)]) ∧
    PieceDoes zeroWord zeroWordOps ∧
    PieceDoes ["    sub r2, r2, 32"] [.alu .sub 2 2 (.imm 32)] ∧
    PieceDoes ["sp_zero_tail:", "    cmp r2, 0"] [.compare 2 (.imm 0)] ∧
    PieceDoes ["    sub r2, r2, 4"] [.alu .sub 2 2 (.imm 4)] ∧
    PieceDoes ["sp_zero_done:", "    ret"] retOps := by
  decide +kernel

theorem copy_does {entry gate : Nat} (entryBound : entry + 260 ≤ 2 ^ 32) (gateBound : gate < 2 ^ 16) :
    linesDo (printedCopy entry gate) (copyOperations entry gate) := by
  have split : spCopy = spCopy.take 9 ++ (["    jb sp_copy_tail"] ++
      ((List.replicate 8 copyWord).flatten ++ (["    sub r3, r3, 32"] ++ (["    jmp sp_copy_loop"] ++
      (["sp_copy_tail:", "    cmp r3, 0"] ++ (["    je sp_copy_done"] ++
      (copyWord ++ (["    sub r3, r3, 4"] ++ (["    jmp sp_copy_tail"] ++
      ["sp_copy_done:", "    ret"]))))))))) := rfl
  have grouped : copyOperations entry gate =
      (argumentOps 1 4 ++ argumentOps 2 8 ++ argumentOps 3 12 ++ [.compare 3 (.imm 32)]) ++
      (branchOps .jb (entry + 192) gate ++
      ((List.replicate 8 copyWordOps).flatten ++ ([.alu .sub 3 3 (.imm 32)] ++
      (jumpOps (entry + 24) ++ ([.compare 3 (.imm 0)] ++ (branchOps .je (entry + 248) gate ++
      (copyWordOps ++ ([.alu .sub 3 3 (.imm 4)] ++ (jumpOps (entry + 192) ++ retOps))))))))) := by
    simp only [copyOperations, blockOps, List.append_assoc]
  obtain ⟨front, word, many, tail, one, back⟩ := copy_pieces
  rw [printedCopy, split, grouped]
  simp only [List.map_append, List.flatMap_append, List.map_flatten, List.map_replicate]
  refine .append front.printed
    (.append (conditionalBlock_does (by decide) (by decide) rfl (by omega) gateBound)
    (.append (word.printed.replicate 8) (.append many.printed
    (.append (jumpBlock_does (by decide) (by decide) (by decide) rfl (by omega))
    (.append tail.printed
    (.append (conditionalBlock_does (by decide) (by decide) rfl (by omega) gateBound)
    (.append word.printed (.append one.printed
    (.append (jumpBlock_does (by decide) (by decide) (by decide) rfl (by omega))
      back.printed)))))))))

theorem zero_does {entry gate : Nat} (entryBound : entry + 180 ≤ 2 ^ 32) (gateBound : gate < 2 ^ 16) :
    linesDo (printedZero entry gate) (zeroOperations entry gate) := by
  have split : spZero = spZero.take 7 ++ (["    jb sp_zero_tail"] ++
      ((List.replicate 8 zeroWord).flatten ++ (["    sub r2, r2, 32"] ++ (["    jmp sp_zero_loop"] ++
      (["sp_zero_tail:", "    cmp r2, 0"] ++ (["    je sp_zero_done"] ++
      (zeroWord ++ (["    sub r2, r2, 4"] ++ (["    jmp sp_zero_tail"] ++
      ["sp_zero_done:", "    ret"]))))))))) := rfl
  have grouped : zeroOperations entry gate =
      (argumentOps 1 4 ++ argumentOps 2 8 ++ [.compare 2 (.imm 32)]) ++
      (branchOps .jb (entry + 120) gate ++
      ((List.replicate 8 zeroWordOps).flatten ++ ([.alu .sub 2 2 (.imm 32)] ++
      (jumpOps (entry + 16) ++ ([.compare 2 (.imm 0)] ++ (branchOps .je (entry + 168) gate ++
      (zeroWordOps ++ ([.alu .sub 2 2 (.imm 4)] ++ (jumpOps (entry + 120) ++ retOps))))))))) := by
    simp only [zeroOperations, blockOps, List.append_assoc]
  obtain ⟨front, word, many, tail, one, back⟩ := zero_pieces
  rw [printedZero, split, grouped]
  simp only [List.map_append, List.flatMap_append, List.map_flatten, List.map_replicate]
  refine .append front.printed
    (.append (conditionalBlock_does (by decide) (by decide) rfl (by omega) gateBound)
    (.append (word.printed.replicate 8) (.append many.printed
    (.append (jumpBlock_does (by decide) (by decide) (by decide) rfl (by omega))
    (.append tail.printed
    (.append (conditionalBlock_does (by decide) (by decide) rfl (by omega) gateBound)
    (.append word.printed (.append one.printed
    (.append (jumpBlock_does (by decide) (by decide) (by decide) rfl (by omega))
      back.printed)))))))))

/-- Lines that are repeated are looked at once. -/
theorem lines_parts {p : List Char → Prop} {front word between after : List String} {n : Nat}
    (once : ∀ line ∈ (front ++ word ++ between ++ after).map String.toList, p line) :
    ∀ line ∈ (front ++ (List.replicate n word).flatten ++ between ++ word ++ after).map String.toList,
      p line := by
  intro line member
  refine once line ?_
  simp only [List.map_append, List.map_flatten, List.map_replicate, List.mem_append,
    List.mem_flatten, List.mem_replicate] at member ⊢
  rcases member with (((first | ⟨_, ⟨-, rfl⟩, inside⟩) | middle) | inside) | last
  · exact .inl (.inl (.inl first))
  · exact .inl (.inl (.inr inside))
  · exact .inl (.inr middle)
  · exact .inl (.inl (.inr inside))
  · exact .inr last

theorem copy_accepted : ∀ line ∈ printedCopy 0x1000 0x100,
    (processLine line true [] 0 16 0).toOption.isSome := by
  have each : ∀ line ∈ spCopy.map String.toList,
      ∀ printed ∈ printedBlockLine (copyLabels 0x1000) 0x100 line,
        (processLine printed true [] 0 16 0).toOption.isSome := by
    refine lines_parts ?_
    rw [Spelled.map_eq (by
      repeat' apply Spelled.cons
      apply Spelled.nil)]
    decide +kernel
  intro line member
  obtain ⟨source, listed, inside⟩ := List.mem_flatMap.mp member
  exact each source listed line inside

theorem gate_accepted : ∀ line ∈ ["    jmp r13".toList],
    (processLine line true [] 0 16 0).toOption.isSome := by
  decide +kernel

def JumpsTo (names : List String) (line : List Char) : Prop :=
  PlainText line ∨ objLabelNameLen line ≠ 0 ∧ (parts line).1 ≠ "main:".toList ∨
    objLabelNameLen line = 0 ∧ (isCond (parts line).1 ∨
      (parts line).1 = "jmp".toList ∧ !isReg (parts line).2) ∧
      ∃ name ∈ names, (parts line).2 = name.toList

instance (names : List String) (line : List Char) : Decidable (JumpsTo names line) :=
  inferInstanceAs (Decidable (_ ∨ _))

section Printing

variable {im : Image} {owner entry gate : Nat} {opt : LinkOptions}

theorem block_printed {names : List String} {lines : List (List Char)} {address : List Char → Nat}
    (noPoll : im.poll = false) (branchGate : opt.branchGate = gate) (gateBound : gate < 2 ^ 16)
    (jumps : ∀ line ∈ lines, JumpsTo names line) (bounds : ∀ name, address name < 2 ^ 32)
    (known : ∀ name ∈ names, im.address name.toList owner = some (address name.toList)) :
    im.lines owner opt lines =
      { im with out := im.out ++ unlines (lines.flatMap (printedBlockLine address gate)) } := by
  refine blockLines_printed noPoll branchGate gateBound (fun line member => ?_) im.out
  rcases jumps line member with plain | ⟨label, other⟩ | ⟨code, op, name, listed, arg⟩
  · exact .inl (.plain plain)
  · exact .inl (.label label other)
  · have found := known name listed
    rw [← arg] at found
    rcases op with conditional | jump
    · exact .inr ⟨code, conditional, found, bounds _⟩
    · exact .inl (.jump code (.inr jump) found (bounds _))

/-- `sp_copy` as the linker prints it, where the names have the addresses of an image. -/
theorem copy_printed (noPoll : im.poll = false) (branchGate : opt.branchGate = gate)
    (gateBound : gate < 2 ^ 16) (entryBound : entry + 260 ≤ 2 ^ 32)
    (known : ∀ name ∈ ["sp_copy_loop", "sp_copy_tail", "sp_copy_done"],
      im.address name.toList owner = some (copyLabels entry name.toList)) :
    im.lines owner opt (spCopy.map String.toList) =
      { im with out := im.out ++ unlines (printedCopy entry gate) } := by
  refine block_printed noPoll branchGate gateBound (lines_parts ?_) (fun name => ?_) known
  · rw [Spelled.map_eq (by
      repeat' apply Spelled.cons
      apply Spelled.nil)]
    decide +kernel
  · unfold copyLabels
    split
    · omega
    · split <;> omega

theorem zero_printed (noPoll : im.poll = false) (branchGate : opt.branchGate = gate)
    (gateBound : gate < 2 ^ 16) (entryBound : entry + 180 ≤ 2 ^ 32)
    (known : ∀ name ∈ ["sp_zero_loop", "sp_zero_tail", "sp_zero_done"],
      im.address name.toList owner = some (zeroLabels entry name.toList)) :
    im.lines owner opt (spZero.map String.toList) =
      { im with out := im.out ++ unlines (printedZero entry gate) } := by
  refine block_printed noPoll branchGate gateBound (lines_parts ?_) (fun name => ?_) known
  · rw [Spelled.map_eq (by
      repeat' apply Spelled.cons
      apply Spelled.nil)]
    decide +kernel
  · unfold zeroLabels
    split
    · omega
    · split <;> omega

end Printing

end SymphonyPlus
