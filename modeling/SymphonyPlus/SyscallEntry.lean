import Mathlib.Data.List.Forall2
import SymphonyPlus.CodeRuns
import SymphonyPlus.Kernel
import SymphonyPlus.LineOperations

/-!
System-call entry and resume of `runtime/platform.sym`: the source lines, what the image linker prints
for them, and the runs of the machine over the assembled words.
-/

namespace SymphonyPlus

open ByteMemory

def SP_CONTEXT_ADDR : Nat := 0x180000
def SP_KERNEL_STACK : Nat := 0x200000

def spSyscallEntry : List String := [
  "sp_syscall_entry:", "    push flags", "    push r1", "    push r2", "    push r3",
  "    push r4", "    push r5", "    push r6", "    push r7", "    push r8", "    push r9",
  "    push r10", "    push r11", "    push r12", "    push r13", "    mov r1, sp",
  "    mov r2, 24", "    lsl r2, r2, 16", "    or r2, r2, 0", "    add r3, r1, 48",
  "    load_32 r4, [r3]", "    add r3, r2, 4", "    store_32 [r3], r4", "    add r3, r1, 44",
  "    load_32 r4, [r3]", "    add r3, r2, 8", "    store_32 [r3], r4", "    add r3, r1, 40",
  "    load_32 r4, [r3]", "    add r3, r2, 12", "    store_32 [r3], r4", "    add r3, r1, 36",
  "    load_32 r4, [r3]", "    add r3, r2, 16", "    store_32 [r3], r4", "    add r3, r1, 32",
  "    load_32 r4, [r3]", "    add r3, r2, 20", "    store_32 [r3], r4", "    add r3, r1, 28",
  "    load_32 r4, [r3]", "    add r3, r2, 24", "    store_32 [r3], r4", "    add r3, r1, 24",
  "    load_32 r4, [r3]", "    add r3, r2, 28", "    store_32 [r3], r4", "    add r3, r1, 20",
  "    load_32 r4, [r3]", "    add r3, r2, 32", "    store_32 [r3], r4", "    add r3, r1, 16",
  "    load_32 r4, [r3]", "    add r3, r2, 36", "    store_32 [r3], r4", "    add r3, r1, 12",
  "    load_32 r4, [r3]", "    add r3, r2, 40", "    store_32 [r3], r4", "    add r3, r1, 8",
  "    load_32 r4, [r3]", "    add r3, r2, 44", "    store_32 [r3], r4", "    add r3, r1, 4",
  "    load_32 r4, [r3]", "    add r3, r2, 48", "    store_32 [r3], r4", "    add r3, r1, 0",
  "    load_32 r4, [r3]", "    add r3, r2, 52", "    store_32 [r3], r4", "    add r3, r1, 52",
  "    load_32 r4, [r3]", "    add r3, r2, 60", "    store_32 [r3], r4", "    add r4, r1, 60",
  "    add r3, r2, 56", "    store_32 [r3], r4", "    add r3, r1, 56", "    load_32 r4, [r3]",
  "    add r3, r2, 64", "    store_32 [r3], r4", "    mov sp, 32", "    lsl sp, sp, 16",
  "    or sp, sp, 0", "    push r2", "    call sp_dispatch", "    add sp, sp, 4",
  "    jmp sp_restore"]

/-- `sp_resume` and `sp_restore`. -/
def spResume : List String := [
  "sp_resume:", "    add r1, sp, 4", "    load_32 r1, [r1]", "sp_restore:", "    mov flags, r1",
  "    add r13, flags, 56", "    load_32 sp, [r13]", "    add r13, flags, 64",
  "    load_32 r13, [r13]", "    push r13", "    add r13, flags, 4", "    load_32 r1, [r13]",
  "    add r13, flags, 8", "    load_32 r2, [r13]", "    add r13, flags, 12",
  "    load_32 r3, [r13]", "    add r13, flags, 16", "    load_32 r4, [r13]",
  "    add r13, flags, 20", "    load_32 r5, [r13]", "    add r13, flags, 24",
  "    load_32 r6, [r13]", "    add r13, flags, 28", "    load_32 r7, [r13]",
  "    add r13, flags, 32", "    load_32 r8, [r13]", "    add r13, flags, 36",
  "    load_32 r9, [r13]", "    add r13, flags, 40", "    load_32 r10, [r13]",
  "    add r13, flags, 44", "    load_32 r11, [r13]", "    add r13, flags, 48",
  "    load_32 r12, [r13]", "    add r13, flags, 52", "    load_32 r13, [r13]", "    ret"]

def platformLines : List (List Char) := (spSyscallEntry ++ spResume).map String.toList

inductive Spelled : List String → List (List Char) → Prop
  | nil : Spelled [] []
  | cons {chars : List Char} {strings : List String} {rest : List (List Char)}
      (later : Spelled strings rest) : Spelled (String.ofList chars :: strings) (chars :: rest)

theorem Spelled.map_eq {strings : List String} {lines : List (List Char)}
    (spelled : Spelled strings lines) : strings.map String.toList = lines := by
  induction spelled with
  | nil => rfl
  | cons _ ih => rw [List.map_cons, String.toList_ofList, ih]

/-! What the linker prints for them. -/

def jumpLines (addr : Nat) : List (List Char) :=
  ["    mov r13, ".toList ++ hexText (addr / 2 ^ 16), "    lsl r13, r13, 16".toList,
    "    or r13, r13, ".toList ++ hexText (addr % 2 ^ 16), "    jmp r13".toList]

def unlines (lines : List (List Char)) : List Char := lines.flatMap (· ++ ['\n'])

/-- The printed lines of a text line without a condition, by the addresses of the names. -/
def printedLine (address : List Char → Nat) (line : List Char) : List (List Char) :=
  let arg := (parts line).2
  if objLabelNameLen line ≠ 0 then []
  else if (parts line).1 = "call".toList then
    ["    counter flags", "    add flags, flags, 32", "    sub sp, sp, 4",
      "    store_32 [sp], flags"].map String.toList ++ jumpLines (address arg)
  else if (parts line).1 = "jmp".toList ∧ !isReg arg then jumpLines (address arg)
  else [line]

def PlainText (line : List Char) : Prop :=
  objLabelNameLen line = 0 ∧ isCond (parts line).1 = false ∧ (parts line).1 ≠ "call".toList ∧
    ¬((parts line).1 = "jmp".toList ∧ !isReg (parts line).2) ∧ '@' ∉ line ∧ ';' ∉ line ∧
    line.length < 4032 ∧ skipWs line ≠ [] ∧ (skipWs line).head? ≠ some ';' ∧
    (skipWs line).head? ≠ some '"'

instance (line : List Char) : Decidable (PlainText line) :=
  inferInstanceAs (Decidable (_ ∧ _))

theorem emit_short {im : Image} {text : List Char} (short : text.length < 4096) :
    im.emit text = { im with out := im.out ++ text } := by
  rw [Image.emit, if_neg (Nat.not_le.mpr short)]

theorem copyLine_plain (im : Image) (owner : Nat) {s : List Char} (fuel : Nat) (out : List Char)
    (enough : s.length ≤ fuel) (noReference : '@' ∉ s) (noComment : ';' ∉ s)
    (short : out.length + s.length < 4032) : im.copyLine owner fuel s out = (im, some (out ++ s)) := by
  induction fuel generalizing s out with
  | zero =>
      obtain rfl := List.eq_nil_of_length_eq_zero (Nat.le_zero.mp enough)
      rw [Image.copyLine, List.append_nil]
  | succ fuel ih =>
      cases s with
      | nil => rw [Image.copyLine, List.append_nil]
      | cons c rest =>
          have other : c ≠ '@' := fun same => noReference (same ▸ List.mem_cons_self)
          have code : c ≠ ';' := fun same => noComment (same ▸ List.mem_cons_self)
          simp only [List.length_cons] at enough short
          have room : ¬(4096 ≤ out.length + 64 ∨ c = ';') := by
            rintro (full | same)
            · omega
            · exact code same
          rw [Image.copyLine]
          simp only [if_neg room, if_pos other]
          rw [ih (out ++ [c]) (by omega) (fun inside => noReference (List.mem_cons_of_mem _ inside))
            (fun inside => noComment (List.mem_cons_of_mem _ inside))
            (by simp only [List.length_append, List.length_cons, List.length_nil]; omega),
            List.append_assoc]
          rfl

theorem line_plain (im : Image) {line : List Char} (plain : PlainText line) (owner : Nat)
    (opt : LinkOptions) : im.line line owner opt = { im with out := im.out ++ (line ++ ['\n']) } := by
  obtain ⟨label, cond, call, jump, reference, comment, short, present, noComment, noString⟩ := plain
  have code : ¬(skipWs line = [] ∨ (skipWs line).head? = some ';' ∨
      (skipWs line).head? = some '"') := by
    rintro (same | same | same)
    · exact present same
    · exact noComment same
    · exact noString same
  rw [Image.line]
  simp only [if_neg (not_not.mpr label), cond, Bool.false_eq_true, if_neg call, if_neg jump, if_neg code,
    if_false, copyLine_plain im owner line.length [] le_rfl reference comment (by simpa using short),
    List.nil_append]
  exact emit_short (by simp only [List.length_append, List.length_cons, List.length_nil]; omega)

def Image.address (im : Image) (name : List Char) (owner : Nat) : Option Nat :=
  if name ≠ [] ∧ (strtoul name).2 = [] then some ((strtoul name).1 % 2 ^ 32)
  else (im.definition name owner).map ImageSym.addr

theorem resolve_of_address {im : Image} {name : List Char} {owner addr : Nat}
    (known : im.address name owner = some addr) (out : List Char) :
    ({ im with out := out } : Image).resolve name owner = ({ im with out := out }, addr) := by
  rw [Image.address] at known
  rw [Image.resolve]
  split at known
  · rename_i number
    cases known
    simp only [if_pos number]
  · rename_i number
    obtain ⟨s, found, rfl⟩ := Option.map_eq_some_iff.mp known
    have found : ({ im with out := out } : Image).definition name owner = some s := found
    simp only [if_neg number, found]

theorem hexText_length {n : Nat} (bound : n < 2 ^ 32) : (hexText n).length ≤ 10 := by
  have digits : (Nat.toDigits 16 n).length ≤ 8 := by
    rw [Nat.length_toDigits_le_iff (by decide) (by decide)]
    omega
  simp only [hexText, List.length_append]
  have two : "0x".toList.length = 2 := by decide
  omega

theorem targetText_eq (addr : Nat) : targetText addr =
    "    mov r13, ".toList ++ hexText (addr / 2 ^ 16) ++ "\n    lsl r13, r13, 16\n".toList ++
      "    or r13, r13, ".toList ++ hexText (addr % 2 ^ 16) ++ "\n".toList := rfl

theorem farJump_printed {im : Image} {name : List Char} {owner addr : Nat}
    (known : im.address name owner = some addr) (bound : addr < 2 ^ 32) (out : List Char) :
    ({ im with out := out } : Image).farJump name owner =
      { im with out := out ++ unlines (jumpLines addr) } := by
  have high := hexText_length (Nat.lt_of_le_of_lt (Nat.div_le_self addr (2 ^ 16)) bound)
  have low := hexText_length (Nat.lt_of_le_of_lt (Nat.mod_le addr (2 ^ 16)) bound)
  have size : (targetText addr).length < 4096 := by
    have first : "    mov r13, ".toList.length = 13 := by decide
    have second : "\n    lsl r13, r13, 16\n".toList.length = 22 := by decide
    have third : "    or r13, r13, ".toList.length = 17 := by decide
    have fourth : "\n".toList.length = 1 := by decide
    rw [targetText_eq]
    simp only [List.length_append]
    omega
  rw [Image.farJump, resolve_of_address known]
  simp only
  rw [Image.target, emit_short size, emit_short (by decide)]
  rw [targetText_eq]
  simp only [unlines, jumpLines, List.flatMap_cons, List.flatMap_nil, List.append_assoc,
    List.append_nil]
  rfl

/-- A text line of an image without safe points, other than a conditional jump. -/
inductive Printable (im : Image) (owner : Nat) (address : List Char → Nat) : List Char → Prop
  | label {line : List Char} (name : objLabelNameLen line ≠ 0)
      (other : (parts line).1 ≠ "main:".toList) : Printable im owner address line
  | jump {line : List Char} (code : objLabelNameLen line = 0)
      (op : (parts line).1 = "call".toList ∨ (parts line).1 = "jmp".toList ∧ !isReg (parts line).2)
      (known : im.address (parts line).2 owner = some (address (parts line).2))
      (bound : address (parts line).2 < 2 ^ 32) : Printable im owner address line
  | plain {line : List Char} (plain : PlainText line) : Printable im owner address line

theorem line_printed {im : Image} {owner : Nat} {address : List Char → Nat} {line : List Char}
    (noPoll : im.poll = false) (printable : Printable im owner address line) (opt : LinkOptions)
    (out : List Char) : ({ im with out := out } : Image).line line owner opt =
      { im with out := out ++ unlines (printedLine address line) } := by
  cases printable with
  | label name other =>
      rw [Image.line]
      simp only [if_pos name, noPoll, Bool.false_and, Bool.false_eq_true, if_false, if_neg other,
        printedLine, unlines, List.flatMap_nil, List.append_nil]
  | jump code op known bound =>
      have cond : isCond (parts line).1 = false := by
        rcases op with call | ⟨jump, -⟩
        · rw [call]
          decide
        · rw [jump]
          decide
      rw [Image.line]
      simp only [if_neg (not_not.mpr code), cond, Bool.false_eq_true, if_false, printedLine]
      by_cases call : (parts line).1 = "call".toList
      · rw [if_pos call, if_pos call, Image.call, emit_short (by decide),
          farJump_printed known bound]
        simp only [unlines, List.flatMap_append, ← List.append_assoc]
        rfl
      · have jump := op.resolve_left call
        rw [if_neg call, if_neg call, if_pos jump, if_pos jump, farJump_printed known bound]
  | plain plain =>
      rw [line_plain _ plain]
      obtain ⟨label, -, call, jump, -⟩ := plain
      simp only [printedLine, if_neg (not_not.mpr label), if_neg call, if_neg jump, unlines,
        List.flatMap_cons, List.flatMap_nil, List.append_nil]

theorem lines_printed {im : Image} {owner : Nat} {address : List Char → Nat}
    {lines : List (List Char)} (noPoll : im.poll = false)
    (printable : ∀ line ∈ lines, Printable im owner address line) (opt : LinkOptions)
    (out : List Char) : ({ im with out := out } : Image).lines owner opt lines =
      { im with out := out ++ unlines (lines.flatMap (printedLine address)) } := by
  induction lines generalizing out with
  | nil => simp [Image.lines, unlines]
  | cons line rest ih =>
      rw [Image.lines, line_printed noPoll (printable line List.mem_cons_self),
        ih fun line member => printable line (List.mem_cons_of_mem _ member)]
      simp only [unlines, List.flatMap_cons, List.flatMap_append, List.append_assoc]

def saveLines : List (List Char) := (spSyscallEntry.take 86).map String.toList

theorem platform_parts : platformLines = saveLines ++ (["    call sp_dispatch".toList] ++
    (["    add sp, sp, 4".toList] ++ (["    jmp sp_restore".toList] ++
      spResume.map String.toList))) := by
  have entry : spSyscallEntry = spSyscallEntry.take 86 ++
      ["    call sp_dispatch", "    add sp, sp, 4", "    jmp sp_restore"] := rfl
  rw [platformLines, entry]
  simp only [List.map_append, List.append_assoc]
  rfl

theorem saveLines_plain : ∀ line ∈ saveLines, PlainText line ∨
    objLabelNameLen line ≠ 0 ∧ (parts line).1 ≠ "main:".toList := by
  have spelled : saveLines = _ := Spelled.map_eq (by
    repeat' apply Spelled.cons
    apply Spelled.nil)
  rw [spelled]
  decide +kernel

theorem spResume_plain : ∀ line ∈ spResume.map String.toList, PlainText line ∨
    objLabelNameLen line ≠ 0 ∧ (parts line).1 ≠ "main:".toList := by
  have spelled : spResume.map String.toList = _ := Spelled.map_eq (by
    repeat' apply Spelled.cons
    apply Spelled.nil)
  rw [spelled]
  decide +kernel

/-- `platform.sym` as the linker prints it. -/
theorem platform_printed {im : Image} {owner dispatch restore : Nat} (noPoll : im.poll = false)
    (dispatchKnown : im.address "sp_dispatch".toList owner = some dispatch)
    (restoreKnown : im.address "sp_restore".toList owner = some restore)
    (dispatchBound : dispatch < 2 ^ 32) (restoreBound : restore < 2 ^ 32) (opt : LinkOptions) :
    im.lines owner opt platformLines =
      { im with out := im.out ++ unlines (platformLines.flatMap (printedLine fun name =>
        if name = "sp_dispatch".toList then dispatch else restore)) } := by
  refine lines_printed noPoll (fun line member => ?_) opt im.out
  have different : "sp_restore".toList ≠ "sp_dispatch".toList := by decide
  have plainLine : ∀ line, PlainText line ∨
      objLabelNameLen line ≠ 0 ∧ (parts line).1 ≠ "main:".toList →
      Printable im owner (fun name => if name = "sp_dispatch".toList then dispatch else restore)
        line := by
    rintro line (plain | ⟨name, other⟩)
    · exact .plain plain
    · exact .label name other
  rw [platform_parts] at member
  simp only [List.mem_append, List.mem_singleton] at member
  rcases member with saved | rfl | rfl | rfl | resumed
  · exact plainLine _ (saveLines_plain _ saved)
  · have target : (parts "    call sp_dispatch".toList).2 = "sp_dispatch".toList := by decide
    exact .jump (by decide) (by decide) (by rw [target, if_pos rfl]; exact dispatchKnown)
      (by rw [target, if_pos rfl]; exact dispatchBound)
  · exact .plain (by decide +kernel)
  · have target : (parts "    jmp sp_restore".toList).2 = "sp_restore".toList := by decide
    exact .jump (by decide) (by decide) (by rw [target, if_neg different]; exact restoreKnown)
      (by rw [target, if_neg different]; exact restoreBound)
  · exact plainLine _ (spResume_plain _ resumed)

/-! What the printed lines do. -/

inductive AssembledAt (memory : Memory) : Nat → List (List Char) → Prop
  | done (address : Nat) : AssembledAt memory address []
  | line {address : Nat} {line : List Char} {lines : List (List Char)} {labels after : List Label}
      {off cap lineno : Nat} {emitted : Emitted}
      (accepted : processLine line true labels off cap lineno = .ok (emitted, after))
      (bytes : ∀ i (bound : i < emitted.bytes.length), memory (address + i) = emitted.bytes[i])
      (rest : AssembledAt memory (address + emitted.bytes.length) lines) :
      AssembledAt memory address (line :: lines)

theorem operationsAt_words {memory : Memory} {address : Nat} {words : List (BitVec 32)}
    {operations : List Operation}
    (bytes : ∀ i (bound : i < (words.flatMap wordBytes).length),
      memory (address + i) = (words.flatMap wordBytes)[i])
    (implemented : List.Forall₂ Implements words operations) :
    OperationsAt memory address operations := by
  intro i bound
  have count := implemented.length_eq
  have word := (List.forall₂_iff_get.mp implemented).2 i (by omega) bound
  have stored : read32 memory (address + 4 * i) = words[i] := by
    rw [← read32_writeWords memory address i words (by omega)]
    refine read32_congr fun query inside => ?_
    have length := flatMap_wordBytes_length words
    have here := bytes (query - address) (by omega)
    rw [show address + (query - address) = query by omega] at here
    have written := writeBytes_inside memory address (query - address) _
      (show query - address < (words.flatMap wordBytes).length by omega)
    rw [show address + (query - address) = query by omega] at written
    rw [here, written]
  rw [stored]
  exact word

theorem OperationsAt.append {memory : Memory} {address : Nat} {first second : List Operation}
    (left : OperationsAt memory address first)
    (right : OperationsAt memory (address + 4 * first.length) second) :
    OperationsAt memory address (first ++ second) := by
  intro i bound
  by_cases early : i < first.length
  · rw [List.getElem_append_left early]
    exact left i early
  · rw [List.length_append] at bound
    have here := right (i - first.length) (by omega)
    rw [List.getElem_append_right (by omega)]
    rwa [show address + 4 * first.length + 4 * (i - first.length) = address + 4 * i by omega] at here

theorem assembled_operations {memory : Memory} {address : Nat} {lines : List (List Char)}
    {operations : List (List Operation)}
    (does : List.Forall₂ (fun line does => ∀ labels, LineDoes labels line does) lines operations)
    (assembled : AssembledAt memory address lines) :
    OperationsAt memory address operations.flatten := by
  induction does generalizing address with
  | nil => exact fun i bound => absurd bound (Nat.not_lt_zero i)
  | cons first _ ih =>
      cases assembled with
      | line accepted bytes rest =>
          obtain ⟨words, written, implemented⟩ := line_words accepted (first _)
          rw [written] at bytes rest
          rw [flatMap_wordBytes_length, implemented.length_eq, Nat.mul_comm] at rest
          rw [List.flatten_cons]
          exact (operationsAt_words bytes implemented).append (ih rest)

def pushOps (source : Fin 16) : List Operation :=
  [.alu .sub 14 14 (.imm 4), .store .word (.reg 14) source]

def copyOps (place : BitVec 16 × BitVec 16) : List Operation :=
  [.alu .add 3 1 (.imm place.1), .load .word 4 (.reg 3), .alu .add 3 2 (.imm place.2),
    .store .word (.reg 3) 4]

def reloadOps (place : Fin 16 × BitVec 16) : List Operation :=
  [.alu .add 13 15 (.imm place.2), .load .word place.1 (.reg 13)]

def jumpOps (addr : Nat) : List Operation :=
  [.move 13 (.imm (BitVec.ofNat 16 (addr / 2 ^ 16))), .alu .lsl 13 13 (.imm 16),
    .alu .or 13 13 (.imm (BitVec.ofNat 16 (addr % 2 ^ 16))), .jump (.reg 13)]

def callOps (addr : Nat) : List Operation :=
  [.counter 15, .alu .add 15 15 (.imm 32), .alu .sub 14 14 (.imm 4), .store .word (.reg 14) 15] ++
    jumpOps addr

def savedRegisters : List (Fin 16) := [15, 1, 2, 3, 4, 5, 6, 7, 8, 9, 10, 11, 12, 13]

def copiedPlaces : List (BitVec 16 × BitVec 16) :=
  [(48, 4), (44, 8), (40, 12), (36, 16), (32, 20), (28, 24), (24, 28), (20, 32), (16, 36), (12, 40),
    (8, 44), (4, 48), (0, 52), (52, 60)]

def reloadedPlaces : List (Fin 16 × BitVec 16) :=
  [(1, 4), (2, 8), (3, 12), (4, 16), (5, 20), (6, 24), (7, 28), (8, 32), (9, 36), (10, 40), (11, 44),
    (12, 48)]

def saveOps : List Operation :=
  savedRegisters.flatMap pushOps ++
  ([.move 1 (.reg 14), .move 2 (.imm 24), .alu .lsl 2 2 (.imm 16), .alu .or 2 2 (.imm 0)] ++
  (copiedPlaces.flatMap copyOps ++
  ([.alu .add 4 1 (.imm 60), .alu .add 3 2 (.imm 56), .store .word (.reg 3) 4] ++
  (copyOps (56, 64) ++
  ([.move 14 (.imm 32), .alu .lsl 14 14 (.imm 16), .alu .or 14 14 (.imm 0)] ++ pushOps 2)))))

def returnOps : List Operation := [.alu .add 14 14 (.imm 4)]

def resumeOps : List Operation := [.alu .add 1 14 (.imm 4), .load .word 1 (.reg 1)]

def restoreOps : List Operation :=
  [.move 15 (.reg 1), .alu .add 13 15 (.imm 56), .load .word 14 (.reg 13)] ++
  (reloadOps (13, 64) ++ (pushOps 13 ++ (reloadedPlaces.flatMap reloadOps ++
  (reloadOps (13, 52) ++
  [.load .word 15 (.reg 14), .alu .add 14 14 (.imm 4), .jump (.reg 15)]))))

def platformOps (dispatch restore : Nat) : List Operation :=
  saveOps ++ (callOps dispatch ++ (returnOps ++ (jumpOps restore ++ (resumeOps ++ restoreOps))))

/-- Labels and lines that are printed as they are: nothing depends on an address. -/
theorem plain_printed {address : List Char → Nat} {lines : List (List Char)}
    (plain : ∀ line ∈ lines, PlainText line ∨ objLabelNameLen line ≠ 0) :
    lines.flatMap (printedLine address) = lines.filter (objLabelNameLen · = 0) := by
  induction lines with
  | nil => rfl
  | cons line rest ih =>
      rw [List.flatMap_cons, ih fun line member => plain line (List.mem_cons_of_mem _ member),
        List.filter_cons]
      rcases plain line List.mem_cons_self with ⟨label, -, call, jump, -⟩ | name
      · rw [printedLine, if_neg (not_not.mpr label), if_neg call, if_neg jump]
        simp [label]
      · simp only [printedLine, if_pos name, name, decide_false, Bool.false_eq_true, if_false,
          List.nil_append]

def linesDo (lines : List (List Char)) (operations : List Operation) : Prop :=
  ∃ each, List.Forall₂ (fun line does => ∀ labels, LineDoes labels line does) lines each ∧
    each.flatten = operations

theorem linesDo.append {first second : List (List Char)} {left right : List Operation}
    (firstDo : linesDo first left) (secondDo : linesDo second right) :
    linesDo (first ++ second) (left ++ right) := by
  obtain ⟨each, does, rfl⟩ := firstDo
  obtain ⟨each', does', rfl⟩ := secondDo
  exact ⟨each ++ each', List.rel_append does does', List.flatten_append⟩

theorem linesDo_of_read {lines : List (List Char)} {operations : List Operation}
    (read : (lines.mapM (lineOperations [])).map List.flatten = some operations) :
    linesDo lines operations := by
  obtain ⟨each, found, rfl⟩ := Option.map_eq_some_iff.mp read
  refine ⟨each, ?_, rfl⟩
  clear read
  induction lines generalizing each with
  | nil =>
      cases found
      exact .nil
  | cons line rest ih =>
      rw [List.mapM_cons] at found
      obtain ⟨first, here, found⟩ := Option.bind_eq_some_iff.mp found
      obtain ⟨others, later, joined⟩ := Option.bind_eq_some_iff.mp found
      cases joined
      exact .cons (lineDoes_of_read here) (ih others later)

theorem saveLines_do : linesDo (saveLines.filter (objLabelNameLen · = 0)) saveOps := by
  have spelled : saveLines = _ := Spelled.map_eq (by
    repeat' apply Spelled.cons
    apply Spelled.nil)
  rw [spelled]
  exact linesDo_of_read (by decide +kernel)

theorem spResume_do : linesDo ((spResume.map String.toList).filter (objLabelNameLen · = 0))
    (resumeOps ++ restoreOps) := by
  have spelled : spResume.map String.toList = _ := Spelled.map_eq (by
    repeat' apply Spelled.cons
    apply Spelled.nil)
  rw [spelled]
  exact linesDo_of_read (by decide +kernel)

theorem jumpLines_do {addr : Nat} (bound : addr < 2 ^ 32) : linesDo (jumpLines addr) (jumpOps addr) := by
  refine ⟨(jumpOps addr).map ([·]), .cons (targetHigh_does (by omega)) (.cons ?_
    (.cons (targetLow_does (by omega)) (.cons ?_ .nil))), rfl⟩
  · exact lineDoes_of_read (by decide +kernel)
  · exact lineDoes_of_read (by decide +kernel)

theorem platform_does {dispatch restore : Nat} (dispatchBound : dispatch < 2 ^ 32)
    (restoreBound : restore < 2 ^ 32) :
    linesDo (platformLines.flatMap (printedLine fun name =>
      if name = "sp_dispatch".toList then dispatch else restore)) (platformOps dispatch restore) := by
  generalize addresses : (fun name => if name = "sp_dispatch".toList then dispatch else restore) =
    address
  have dispatch_eq : address "sp_dispatch".toList = dispatch := by
    rw [← addresses]
    exact if_pos rfl
  have restore_eq : address "sp_restore".toList = restore := by
    rw [← addresses]
    exact if_neg (by decide)
  have saved : saveLines.flatMap (printedLine address) =
      saveLines.filter (objLabelNameLen · = 0) :=
    plain_printed fun line member => (saveLines_plain line member).imp_right And.left
  have returned : ["    add sp, sp, 4".toList].flatMap (printedLine address) =
      ["    add sp, sp, 4".toList] := by
    rw [plain_printed (by decide +kernel)]
    decide
  have resumed : (spResume.map String.toList).flatMap (printedLine address) =
      (spResume.map String.toList).filter (objLabelNameLen · = 0) :=
    plain_printed fun line member => (spResume_plain line member).imp_right And.left
  have called : ["    call sp_dispatch".toList].flatMap (printedLine address) =
      ["    counter flags", "    add flags, flags, 32", "    sub sp, sp, 4",
        "    store_32 [sp], flags"].map String.toList ++ jumpLines dispatch := by
    have target : (parts "    call sp_dispatch".toList).2 = "sp_dispatch".toList := by decide
    rw [List.flatMap_singleton, printedLine, if_neg (by decide), if_pos (by decide), target,
      dispatch_eq]
  have jumped : ["    jmp sp_restore".toList].flatMap (printedLine address) = jumpLines restore := by
    have target : (parts "    jmp sp_restore".toList).2 = "sp_restore".toList := by decide
    rw [List.flatMap_singleton, printedLine, if_neg (by decide), if_neg (by decide),
      if_pos (by decide), target, restore_eq]
  rw [platform_parts]
  simp only [List.flatMap_append]
  rw [saved, called, returned, jumped, resumed]
  refine .append saveLines_do (.append (.append (linesDo_of_read (by decide +kernel))
    (jumpLines_do dispatchBound)) (.append (linesDo_of_read (by decide +kernel))
    (.append (jumpLines_do restoreBound) spResume_do)))

end SymphonyPlus
