import SymphonyPlus.LineEditing
import SymphonyPlus.DispatchRuns

/-!
The input queue of the terminal as an edited line queue: the ring and its two running indices
against the text that waits, over all key events and reads.
-/

namespace SymphonyPlus

open ByteMemory Function LineEditing

/-- The ring from a position on, up to its head, holds a text. -/
structure RingHolds (t : Terminal) (position : BitVec 32) (text : List (BitVec 8)) : Prop where
  length : t.head.toNat = position.toNat + text.length
  cells : ∀ i (h : i < text.length), t.input ((position.toNat + i) % 1024) = text[i]

theorem ringIndex_eq (position : BitVec 32) : ringIndex position = position.toNat % 1024 :=
  Nat.and_two_pow_sub_one_eq_mod position.toNat 10

theorem toNat_add_one {position : BitVec 32} (low : position.toNat + 1 < 2 ^ 32) :
    (position + 1).toNat = position.toNat + 1 := by
  rw [BitVec.toNat_add]
  exact Nat.mod_eq_of_lt low

namespace RingHolds

variable {t : Terminal} {position : BitVec 32} {text : List (BitVec 8)} {c : BitVec 8}

theorem nil (t : Terminal) : RingHolds t t.head [] := ⟨rfl, nofun⟩

theorem ult_head (holds : RingHolds t position text) :
    position.ult t.head = !text.isEmpty := by
  have length := holds.length
  rw [BitVec.ult_eq_decide, length]
  cases text with
  | nil => simp
  | cons c rest => simp

theorem tail (holds : RingHolds t position (c :: text)) : RingHolds t (position + 1) text := by
  have length := holds.length
  rw [List.length_cons] at length
  have next : (position + 1).toNat = position.toNat + 1 :=
    toNat_add_one (by have := t.head.isLt; omega)
  refine ⟨by omega, fun i h => ?_⟩
  rw [next, Nat.add_assoc, Nat.add_comm 1 i]
  exact holds.cells (i + 1) (Nat.succ_lt_succ h)

theorem first (holds : RingHolds t position (c :: text)) :
    t.input (ringIndex position) = c := by
  rw [ringIndex_eq]
  exact holds.cells 0 (Nat.succ_pos _)

theorem drop (holds : RingHolds t position text) (count : Nat) (few : count ≤ text.length) :
    RingHolds t (position + BitVec.ofNat 32 count) (text.drop count) := by
  induction count with
  | zero => simpa using holds
  | succ count ih =>
      have rest := ih (Nat.le_of_succ_le few)
      rw [List.drop_eq_getElem_cons few] at rest
      have same : position + BitVec.ofNat 32 (count + 1) =
          position + BitVec.ofNat 32 count + 1 := by
        rw [BitVec.ofNat_add, BitVec.add_assoc]
        rfl
      rw [same]
      exact rest.tail

theorem last (holds : RingHolds t position (text ++ [c])) :
    t.input (ringIndex (t.head - 1)) = c ∧ RingHolds { t with head := t.head - 1 } position text := by
  have length := holds.length
  rw [List.length_append, List.length_singleton] at length
  have before : (t.head - 1).toNat = position.toNat + text.length := by
    rw [BitVec.toNat_sub_of_le (by simp [BitVec.le_def]; omega)]
    simp [length]
  constructor
  · rw [ringIndex_eq, before]
    have cell := holds.cells text.length (by simp)
    rwa [List.getElem_concat_length rfl] at cell
  · refine ⟨before, fun i h => ?_⟩
    have cell := holds.cells i (by simp only [List.length_append]; omega)
    rwa [List.getElem_append_left h] at cell

theorem push (holds : RingHolds t position text) (few : text.length < 1024)
    (low : t.head.toNat + 1 < 2 ^ 32) (c : BitVec 8) :
    RingHolds { t with input := update t.input (ringIndex t.head) c, head := t.head + 1 } position
      (text ++ [c]) := by
  have length := holds.length
  refine ⟨?_, fun i h => ?_⟩
  · rw [toNat_add_one low, length, List.length_append, List.length_singleton, Nat.add_assoc]
  · dsimp only
    rw [ringIndex_eq]
    rw [List.length_append, List.length_singleton] at h
    by_cases old : i < text.length
    · have apart : (position.toNat + i) % 1024 ≠ t.head.toNat % 1024 := by omega
      rw [update_of_ne apart, List.getElem_append_left old]
      exact holds.cells i old
    · have new : i = text.length := by omega
      subst new
      rw [← length, update_self, List.getElem_concat_length rfl]

theorem congr {other : Terminal} (holds : RingHolds t position text) (head : other.head = t.head)
    (input : other.input = t.input) : RingHolds other position text :=
  ⟨head ▸ holds.length, input ▸ holds.cells⟩

theorem count (holds : RingHolds t t.tail text) : (t.head - t.tail).toNat = text.length := by
  have length := holds.length
  rw [BitVec.toNat_sub_of_le (by rw [BitVec.le_def]; omega)]
  omega

/-- The loop of `line_ready` looks for a newline. -/
theorem lineFrom_iff (holds : RingHolds t position text) (fuel : Nat) (enough : text.length ≤ fuel) :
    lineFrom t fuel position = true ↔ 10 ∈ text := by
  induction text generalizing position fuel with
  | nil =>
      cases fuel with
      | zero => simp [lineFrom]
      | succ fuel => simp [lineFrom, holds.ult_head]
  | cons c rest ih =>
      obtain ⟨fuel, rfl⟩ : ∃ n, fuel = n + 1 := ⟨fuel - 1, by simp at enough; omega⟩
      have later := ih holds.tail fuel (Nat.le_of_succ_le_succ enough)
      simp only [lineFrom, holds.ult_head, holds.first, List.isEmpty_cons, Bool.not_false, if_true,
        Bool.or_eq_true, decide_eq_true_eq, List.mem_cons, later]
      rw [eq_comm]

theorem lineReady_iff (holds : RingHolds t t.tail text) : lineReady t = true ↔ 10 ∈ text :=
  holds.lineFrom_iff _ (Nat.le_of_eq holds.count.symm)

/-- The loop of `tty_read_user` takes one line. -/
theorem takeInput_eq (holds : RingHolds t position text) (count : Nat) :
    takeInput t count position = (takeLine 10 count text,
      position + BitVec.ofNat 32 (takeLine 10 count text).length) := by
  induction count generalizing position text with
  | zero => simp [takeInput, takeLine]
  | succ count ih =>
      cases text with
      | nil => simp [takeInput, takeLine, holds.ult_head]
      | cons c rest =>
          simp only [takeInput, holds.ult_head, holds.first, List.isEmpty_cons, Bool.not_false,
            if_true, takeLine]
          split
          · rfl
          · rw [ih holds.tail, List.length_cons, Nat.add_comm, BitVec.ofNat_add, BitVec.add_assoc]
            rfl

end RingHolds

def keyAct (t : Terminal) (event : BitVec 32) : Option (Act (BitVec 8)) :=
  let key := event &&& 255
  let pressed : Bool := event &&& 256 ≠ 0
  if key = 17 ∨ key = 21 then none
  else if key = 16 ∨ key = 20 then none
  else if pressed ∧ (key = 3 ∨ (t.control ≠ 0 ∧ (key = 67 ∨ key = 99))) then some .interrupt
  else if pressed ∧ t.control = 0 then
    let c := keyChar t.shift (key.truncate 8)
    if c = 8 ∨ c = 127 then some .erase
    else if c = 10 ∨ (32 ≤ c.toNat ∧ c.toNat < 127) then some (.typed c)
    else none
  else none

inductive KeyEffect (t : Terminal) : Option (Act (BitVec 8)) → Terminal → Prop
  | none {after : Terminal} (head : after.head = t.head) (tail : after.tail = t.tail)
      (input : after.input = t.input) : KeyEffect t none after
  | interrupt : KeyEffect t (some .interrupt) { t with tail := t.head }
  | erase {c : BitVec 8} (erases : c = 8 ∨ c = 127) : KeyEffect t (some .erase) (t.type c)
  | typed {c : BitVec 8} (text : c = 10 ∨ (32 ≤ c.toNat ∧ c.toNat < 127)) :
      KeyEffect t (some (.typed c)) (t.type c)

theorem keyEvent_effect {S : Type} (k : Kernel S) (event : BitVec 32) :
    KeyEffect k.terminal (keyAct k.terminal event) (keyEvent k event).terminal := by
  unfold keyEvent keyAct
  dsimp only
  split
  · exact .none rfl rfl rfl
  · split
    · exact .none rfl rfl rfl
    · split
      · exact .interrupt
      · split
        · split
          · rename_i erases
            exact .erase erases
          · rename_i keeps
            split
            · rename_i text
              exact .typed text
            · rename_i other
              unfold Terminal.type
              rw [if_neg keeps, if_neg other]
              exact .none rfl rfl rfl
        · exact .none rfl rfl rfl

/-! What waits in the terminal, and the steps. -/

section TerminalRuns

variable {S : Type}

def Terminal.waiting (t : Terminal) : List (BitVec 8) :=
  (List.range (t.head - t.tail).toNat).map fun i => t.input (ringIndex (t.tail + BitVec.ofNat 32 i))

def readBytes (buf : BitVec 32) (outcome : BitVec 32 × Kernel S) : List (BitVec 8) :=
  if outcome.1.slt 0 then [] else windowBytes outcome.2.window buf outcome.1

/-- Key events and reads by whatever process is active, and between them anything that leaves the
terminal alone. -/
inductive TerminalRun (first : Kernel S) : List (Act (BitVec 8)) → Kernel S → Prop
  | start : TerminalRun first [] first
  | poll {acts : List (Act (BitVec 8))} {k : Kernel S} (run : TerminalRun first acts k)
      (poll : Poll) :
      TerminalRun first (acts ++ (keyAct k.terminal poll.event).toList) (pollIo k poll)
  | read {acts : List (Act (BitVec 8))} {k : Kernel S} (run : TerminalRun first acts k)
      (buf count : BitVec 32) :
      TerminalRun first (acts ++ [.delivered (readBytes buf (ttyReadUser k buf count))])
        (ttyReadUser k buf count).2
  | other {acts : List (Act (BitVec 8))} {k after : Kernel S} (run : TerminalRun first acts k)
      (same : after.terminal = k.terminal) : TerminalRun first acts after

/-- The queue of the terminal is that of the account of the acts, and its running index is no
further than the characters typed. -/
structure QueueKept (t : Terminal) (acts : List (Act (BitVec 8))) : Prop where
  kept : (account 10 1023 acts).Kept 10 1023
  holds : RingHolds t t.tail (account 10 1023 acts).queue
  low : t.head.toNat ≤ typedCount acts

namespace QueueKept

variable {t : Terminal} {acts : List (Act (BitVec 8))}

theorem start (head : t.head = 0) (tail : t.tail = 0) : QueueKept t [] :=
  ⟨Account.kept_empty, ⟨by rw [head, tail]; rfl, nofun⟩, by rw [head]; exact Nat.zero_le _⟩

theorem congr {other : Terminal} (kept : QueueKept t acts) (head : other.head = t.head)
    (tail : other.tail = t.tail) (input : other.input = t.input) : QueueKept other acts :=
  ⟨kept.kept, tail ▸ kept.holds.congr head input, head ▸ kept.low⟩

theorem account_snoc (acts : List (Act (BitVec 8))) (act : Act (BitVec 8)) :
    account 10 1023 (acts ++ [act]) = (account 10 1023 acts).step 10 1023 act :=
  account_append acts [act]

theorem interrupt (kept : QueueKept t acts) :
    QueueKept { t with tail := t.head } (acts ++ [.interrupt]) := by
  have nothing : (account 10 1023 (acts ++ [.interrupt])).queue = [] := by
    rw [account_snoc]
    simp [Account.step, Account.queue, Account.unread]
  refine ⟨?_, ?_, ?_⟩
  · rw [account_snoc]
    exact kept.kept.step trivial
  · rw [nothing]
    exact (RingHolds.nil t).congr rfl rfl
  · simpa [typedCount] using kept.low

theorem erase (kept : QueueKept t acts) {c : BitVec 8} (erases : c = 8 ∨ c = 127) :
    QueueKept (t.type c) (acts ++ [.erase]) := by
  have after : (account 10 1023 (acts ++ [.erase])).queue =
      (account 10 1023 acts).unread ++ (account 10 1023 acts).line.dropLast := by
    rw [account_snoc]
    rfl
  have holds := kept.holds
  have typed : typedCount (acts ++ [.erase]) = typedCount acts := by simp [typedCount]
  refine ⟨?_, ?_, ?_⟩
  · rw [account_snoc]
    exact kept.kept.step trivial
  · rw [after]
    unfold Terminal.type
    rw [if_pos erases]
    rcases List.eq_nil_or_concat (account 10 1023 acts).line with none | ⟨front, last, line⟩
    · rw [none, List.dropLast_nil]
      rw [Account.queue, none] at holds
      rw [if_neg]
      · exact holds
      · rintro ⟨some, other⟩
        rw [holds.ult_head] at some
        rw [List.append_nil] at some holds
        have ended := kept.kept.ended
        rcases List.eq_nil_or_concat (account 10 1023 acts).unread with none | ⟨front, last, unread⟩
        · rw [none] at some
          exact absurd some (by simp)
        · rw [List.concat_eq_append] at unread
          rw [unread] at holds ended
          rw [(holds.last).1] at other
          exact other (ended last List.getLast?_concat)
    · rw [List.concat_eq_append] at line
      rw [Account.queue, line, ← List.append_assoc] at holds
      rw [line, List.dropLast_concat, if_pos]
      · exact (holds.last.2).congr rfl rfl
      · refine ⟨?_, ?_⟩
        · rw [holds.ult_head]
          simp
        · rw [holds.last.1]
          intro newline
          apply kept.kept.plain
          rw [line, newline]
          simp
  · rw [typed]
    unfold Terminal.type
    rw [if_pos erases]
    split
    · rename_i some
      have less := some.1
      rw [BitVec.ult_eq_decide, decide_eq_true_eq] at less
      refine Nat.le_trans ?_ kept.low
      rw [BitVec.toNat_sub_of_le (by rw [BitVec.le_def]; simp; omega)]
      omega
    · exact kept.low

theorem typed (kept : QueueKept t acts) {c : BitVec 8}
    (text : c = 10 ∨ (32 ≤ c.toNat ∧ c.toNat < 127)) (few : typedCount acts + 1 < 2 ^ 32) :
    QueueKept (t.type c) (acts ++ [.typed c]) := by
  have holds := kept.holds
  have more : typedCount (acts ++ [.typed c]) = typedCount acts + 1 := by simp [typedCount]
  have notErase : ¬(c = 8 ∨ c = 127) := by
    rintro (rfl | rfl)
    · simp at text
    · simp at text
  have kept' : (account 10 1023 (acts ++ [.typed c])).Kept 10 1023 := by
    rw [account_snoc]
    exact kept.kept.step trivial
  have low := kept.low
  have queue := (congrArg Account.queue (account_snoc acts (.typed c))).trans
    (Account.queue_typed kept.kept.given c)
  have fits : (t.head - t.tail).ult 1022 ∨ (c = 10 ∧ (t.head - t.tail).ult 1023) ↔
      (account 10 1023 acts).queue.length + 1 < 1023 ∨
        (c = 10 ∧ (account 10 1023 acts).queue.length < 1023) := by
    simp only [BitVec.ult_eq_decide, decide_eq_true_eq, holds.count, Nat.add_lt_iff_lt_sub_right]
    exact Iff.rfl
  unfold Terminal.type
  rw [if_neg notErase, if_pos text]
  split
  · rename_i stored
    refine ⟨kept', ?_, ?_⟩
    · rw [queue, if_pos (fits.mp stored)]
      exact holds.push (Nat.lt_succ_of_le kept.kept.fits) (by omega) c
    · rw [toNat_add_one (by omega), more]
      exact Nat.succ_le_succ low
  · rename_i dropped
    refine ⟨kept', ?_, by omega⟩
    rw [queue, if_neg (mt fits.mpr dropped)]
    exact holds

theorem deliver (kept : QueueKept t acts) {taken : List (BitVec 8)}
    (fair : taken <+: (account 10 1023 acts).unread) {tail : BitVec 32}
    (next : tail = t.tail + BitVec.ofNat 32 taken.length) :
    QueueKept { t with tail := tail } (acts ++ [.delivered taken]) := by
  obtain ⟨later, unread⟩ := fair
  obtain ⟨_, split⟩ := kept.kept.given
  have left : (account 10 1023 (acts ++ [.delivered taken])).queue =
      (account 10 1023 acts).queue.drop taken.length := by
    rw [account_snoc, Account.queue, Account.queue, ← unread]
    simp only [Account.step, Account.unread, List.length_append, List.append_assoc, List.drop_left]
    rw [← List.drop_drop, ← Account.unread, ← unread, List.drop_left]
  have short : taken.length ≤ (account 10 1023 acts).queue.length := by
    rw [Account.queue, ← unread]
    simp only [List.length_append]
    omega
  refine ⟨?_, ?_, ?_⟩
  · rw [account_snoc]
    exact kept.kept.step ⟨later, unread⟩
  · rw [left, next]
    exact (kept.holds.drop _ short).congr rfl rfl
  · simpa [typedCount] using kept.low

theorem lineReady_iff (kept : QueueKept t acts) :
    lineReady t = true ↔ (account 10 1023 acts).unread ≠ [] := by
  rw [kept.holds.lineReady_iff, Account.queue, List.mem_append]
  constructor
  · rintro (unread | line)
    · exact List.ne_nil_of_mem unread
    · exact absurd line kept.kept.plain
  · exact fun some => Or.inl (kept.kept.ended.mem some)

theorem takeInput_eq (kept : QueueKept t acts) (some : (account 10 1023 acts).unread ≠ [])
    (count : Nat) :
    takeInput t count t.tail = (takeLine 10 count (account 10 1023 acts).unread,
      t.tail + BitVec.ofNat 32 (takeLine 10 count (account 10 1023 acts).unread).length) := by
  rw [kept.holds.takeInput_eq, Account.queue, takeLine_append kept.kept.ended some]

theorem unread_short (kept : QueueKept t acts) : (account 10 1023 acts).unread.length ≤ 1023 := by
  have fits := kept.kept.fits
  rw [Account.queue, List.length_append] at fits
  omega

end QueueKept

theorem windowBytes_writeBytes (window : Memory) (address : BitVec 32) (bytes : List (BitVec 8))
    (short : bytes.length < 2 ^ 32) :
    windowBytes (writeBytes window address.toNat bytes) address (BitVec.ofNat 32 bytes.length) =
      bytes := by
  rw [windowBytes, BitVec.toNat_ofNat, Nat.mod_eq_of_lt short]
  apply List.ext_getElem
  · simp
  · intro i h _
    simp only [List.length_map, List.length_range] at h
    simp [writeBytes_inside, h]

/-- What a read gives its reader: nothing while it is cancelled, asks for nothing or no line is
complete, and otherwise the start of the first line. -/
theorem readBytes_eq {k : Kernel S} {acts : List (Act (BitVec 8))}
    (kept : QueueKept k.terminal acts) (buf count : BitVec 32) :
    readBytes buf (ttyReadUser k buf count) =
      if k.cancelRead k.active then []
      else takeLine 10 count.toNat (account 10 1023 acts).unread := by
  unfold ttyReadUser
  split
  · rfl
  · split
    · rename_i none
      rw [none]
      rfl
    · split
      · rename_i notReady
        rw [Bool.not_eq_true', ← Bool.not_eq_true, kept.lineReady_iff, not_not] at notReady
        rw [notReady]
        cases count.toNat <;> rfl
      · rename_i ready
        rw [Bool.not_eq_true', Bool.not_eq_false, kept.lineReady_iff] at ready
        have short := (takeLine_starts 10 count.toNat (account 10 1023 acts).unread).length_le.trans
          kept.unread_short
        rw [kept.takeInput_eq ready]
        unfold readBytes
        dsimp only
        rw [if_neg, windowBytes_writeBytes _ _ _ (by omega)]
        intro negative
        have sign := BitVec.slt_zero_iff_msb_cond.mp negative
        rw [BitVec.msb_eq_decide, decide_eq_true_eq, BitVec.toNat_ofNat] at sign
        omega

theorem read_kept {k : Kernel S} {acts : List (Act (BitVec 8))}
    (kept : QueueKept k.terminal acts) (buf count : BitVec 32) :
    QueueKept (ttyReadUser k buf count).2.terminal
      (acts ++ [.delivered (readBytes buf (ttyReadUser k buf count))]) := by
  have nothing : QueueKept k.terminal (acts ++ [.delivered []]) :=
    (kept.deliver List.nil_prefix (by simp)).congr rfl rfl rfl
  rw [readBytes_eq kept]
  unfold ttyReadUser
  split
  · exact nothing
  · split
    · rename_i none
      rw [none]
      exact nothing
    · split
      · rename_i notReady
        rw [Bool.not_eq_true', ← Bool.not_eq_true, kept.lineReady_iff, not_not] at notReady
        rw [notReady]
        cases count.toNat <;> exact nothing
      · rename_i ready
        rw [Bool.not_eq_true', Bool.not_eq_false, kept.lineReady_iff] at ready
        rw [kept.takeInput_eq ready]
        exact kept.deliver (takeLine_starts _ _ _) rfl

theorem QueueKept.key {t after : Terminal} {acts : List (Act (BitVec 8))} (kept : QueueKept t acts)
    {act : Option (Act (BitVec 8))} (effect : KeyEffect t act after)
    (few : typedCount (acts ++ act.toList) < 2 ^ 32) : QueueKept after (acts ++ act.toList) := by
  cases effect with
  | none head tail input =>
      rw [Option.toList_none, List.append_nil]
      exact kept.congr head tail input
  | interrupt => exact kept.interrupt
  | erase erases => exact kept.erase erases
  | typed text => exact kept.typed text (by simpa [typedCount] using few)

theorem terminalRun_kept {first k : Kernel S} {acts : List (Act (BitVec 8))}
    (head : first.terminal.head = 0) (tail : first.terminal.tail = 0)
    (run : TerminalRun first acts k) (few : typedCount acts < 2 ^ 32) :
    QueueKept k.terminal acts := by
  induction run with
  | start => exact .start head tail
  | poll run poll ih =>
      have less := few
      rw [typedCount, List.countP_append] at less
      exact (ih (by rw [typedCount]; omega)).key (keyEvent_effect _ poll.event) few
  | read run buf count ih =>
      rw [typedCount, List.countP_append] at few
      exact read_kept (ih (by rw [typedCount]; omega)) buf count
  | other run same ih =>
      rw [same]
      exact ih few

structure EditedLines (k : Kernel S) (acts : List (Act (BitVec 8))) : Prop where
  delivered : deliveries acts <+: (account 10 1023 acts).completed
  waiting : k.terminal.waiting =
    (account 10 1023 acts).completed.drop (deliveries acts).length ++ (account 10 1023 acts).line
  bounded : k.terminal.waiting.length ≤ 1023
  room : (account 10 1023 acts).line ≠ [] → k.terminal.waiting.length < 1023
  reads : ∀ buf count, readBytes buf (ttyReadUser k buf count) =
    if k.cancelRead k.active then []
    else takeLine 10 count.toNat
      ((account 10 1023 acts).completed.drop (deliveries acts).length)

theorem QueueKept.waiting_eq {t : Terminal} {acts : List (Act (BitVec 8))}
    (kept : QueueKept t acts) : t.waiting = (account 10 1023 acts).queue := by
  unfold Terminal.waiting
  rw [kept.holds.count]
  apply List.ext_getElem
  · simp
  · intro i h short
    have length := kept.holds.length
    have position : (t.tail + BitVec.ofNat 32 i).toNat = t.tail.toNat + i := by
      have := t.head.isLt
      rw [BitVec.toNat_add, BitVec.toNat_ofNat]
      omega
    simp only [List.getElem_map, List.getElem_range, ringIndex_eq, position]
    exact kept.holds.cells i short

theorem terminal_lines {first k : Kernel S} {acts : List (Act (BitVec 8))}
    (head : first.terminal.head = 0) (tail : first.terminal.tail = 0)
    (run : TerminalRun first acts k) (few : typedCount acts < 2 ^ 32) : EditedLines k acts := by
  have kept := terminalRun_kept head tail run few
  have queue := kept.waiting_eq
  refine ⟨?_, ?_, ?_, fun some => ?_, fun buf count => ?_⟩
  · rw [← account_delivered 10 1023]
    exact kept.kept.given
  · rw [queue, ← account_delivered 10 1023]
    rfl
  · rw [queue]
    exact kept.kept.fits
  · rw [queue]
    exact kept.kept.room some
  · rw [← account_delivered 10 1023]
    exact readBytes_eq kept buf count

theorem spBoot_terminal {fileSystem : FileSystem S} {fs : S} {files : Files} {window : Memory}
    {snapshots : Nat → Memory} {first : Kernel S}
    (boot : spBoot fileSystem fs files window snapshots = some first) :
    first.terminal = { input := fun _ => 0, head := 0, tail := 0, shift := 0, control := 0 } := by
  unfold spBoot at boot
  dsimp only at boot
  split at boot
  · cases boot
  · cases boot
    rfl

def enterKey : Poll := { event := 266, low := 0, high := 0 }

theorem enterKey_act (k : Kernel S) (shift : k.terminal.shift = 0) (control : k.terminal.control = 0) :
    keyAct k.terminal enterKey.event = some (.typed 10) ∧
      (pollIo k enterKey).terminal.shift = 0 ∧ (pollIo k enterKey).terminal.control = 0 := by
  have typed : (pollIo k enterKey).terminal = k.terminal.type 10 := by
    simp [pollIo, keyEvent, enterKey, keyChar, shift, control]
  refine ⟨by simp [keyAct, enterKey, keyChar, shift, control], ?_, ?_⟩
  · rw [typed]
    unfold Terminal.type
    simp only [apply_ite Terminal.shift, shift, ite_self]
  · rw [typed]
    unfold Terminal.type
    simp only [apply_ite Terminal.control, control, ite_self]

theorem enters_run (first : Kernel S) (shift : first.terminal.shift = 0)
    (control : first.terminal.control = 0) (count : Nat) :
    ∃ k, TerminalRun first (List.replicate count (.typed 10)) k ∧ k.terminal.shift = 0 ∧
      k.terminal.control = 0 := by
  induction count with
  | zero => exact ⟨first, .start, shift, control⟩
  | succ count ih =>
      obtain ⟨k, run, shift, control⟩ := ih
      obtain ⟨act, shift, control⟩ := enterKey_act k shift control
      refine ⟨pollIo k enterKey, ?_, shift, control⟩
      have next := TerminalRun.poll run enterKey
      rw [act] at next
      rw [List.replicate_succ']
      exact next

theorem enters_queue (count : Nat) (fits : count ≤ 1023) :
    (account 10 1023 (List.replicate count (.typed (10 : BitVec 8)))).Kept 10 1023 ∧
      (account 10 1023 (List.replicate count (.typed (10 : BitVec 8)))).queue =
        List.replicate count 10 := by
  induction count with
  | zero => exact ⟨Account.kept_empty, rfl⟩
  | succ count ih =>
      obtain ⟨kept, queue⟩ := ih (Nat.le_of_succ_le fits)
      rw [List.replicate_succ', List.replicate_succ', QueueKept.account_snoc]
      refine ⟨kept.step trivial, ?_⟩
      refine (Account.queue_typed kept.given 10).trans ?_
      rw [queue, if_pos]
      exact Or.inr ⟨rfl, by rw [List.length_replicate]; omega⟩

theorem enters_typed (count : Nat) :
    typedCount (List.replicate count (Act.typed (10 : BitVec 8))) = count := by
  simp [typedCount, List.countP_replicate]

/-- A queue full of completed lines has no room for the newline of the line that comes next. -/
theorem completed_lines_fill_queue : ¬∀ (first k : Kernel Nat) (acts : List (Act (BitVec 8))),
    bootInit = some first → TerminalRun first acts k → typedCount acts < 2 ^ 32 →
      k.terminal.waiting.length < 1023 := by
  intro keeps
  obtain ⟨first, _, _, boot, _⟩ := forkOnce_some
  have terminal := spBoot_terminal boot
  obtain ⟨k, run, _⟩ := enters_run first (by rw [terminal]) (by rw [terminal]) 1023
  have few : typedCount (List.replicate 1023 (Act.typed (10 : BitVec 8))) < 2 ^ 32 := by
    rw [enters_typed]
    omega
  have kept := terminalRun_kept (by rw [terminal]) (by rw [terminal]) run few
  have full := keeps first k _ boot run few
  rw [kept.waiting_eq, (enters_queue 1023 (Nat.le_refl _)).2, List.length_replicate] at full
  omega

def pressed (key : BitVec 32) : Poll := { event := key ||| 256, low := 0, high := 0 }

/-- The keys a, b, backspace and Enter, and then a read of one character. -/
def editedLine (first : Kernel Nat) : List (Act (BitVec 8)) × Kernel Nat :=
  let typed := ([97, 98, 13, 10].map pressed).foldl (fun run poll =>
    (run.1 ++ (keyAct run.2.terminal poll.event).toList, pollIo run.2 poll)) ([], first)
  let read := ttyReadUser typed.2 0x300000 1
  (typed.1 ++ [.delivered (readBytes 0x300000 read)], read.2)

theorem editedLine_run (first : Kernel Nat) :
    TerminalRun first (editedLine first).1 (editedLine first).2 :=
  .read (.poll (.poll (.poll (.poll .start _) _) _) _) _ _

theorem editedLine_some : ∃ first, bootInit = some first ∧
    (editedLine first).1 = [.typed 97, .typed 98, .erase, .typed 10, .delivered [97]] ∧
    (editedLine first).2.terminal.waiting = [10] := by
  have evaluated : bootInit.map (fun first =>
      ((editedLine first).1, (editedLine first).2.terminal.waiting)) =
      some ([.typed 97, .typed 98, .erase, .typed 10, .delivered [97]], [10]) := by
    decide +kernel
  obtain ⟨first, boot, same⟩ := Option.map_eq_some_iff.mp evaluated
  exact ⟨first, boot, Prod.mk.inj same⟩

theorem edited_line_read : ∃ first k : Kernel Nat, bootInit = some first ∧
    k.terminal.waiting = [10] ∧
    EditedLines k [.typed 97, .typed 98, .erase, .typed 10, .delivered [97]] := by
  obtain ⟨first, boot, acts, waiting⟩ := editedLine_some
  have terminal := spBoot_terminal boot
  have run := editedLine_run first
  rw [acts] at run
  exact ⟨first, _, boot, waiting,
    terminal_lines (by rw [terminal]) (by rw [terminal]) run (by decide)⟩

/-! The dispatcher touches the terminal in polls and reads only. -/

section Dispatcher

variable (fileSystem : FileSystem S)

theorem pathCall_terminal (k : Kernel S) (a : BitVec 32)
    (call : List (BitVec 8) → CallResult S) : (pathCall k a call).2.terminal = k.terminal := by
  unfold pathCall
  split
  · rfl
  · rfl

theorem waitCurrent_terminal (k : Kernel S) (a b c : BitVec 32) :
    (waitCurrent k a b c).2.terminal = k.terminal := by
  unfold waitCurrent
  split
  · rfl
  · split
    · rfl
    · split
      · rfl
      · split
        · rfl
        · rfl

theorem forkCurrent_terminal (k : Kernel S) :
    (forkCurrent fileSystem k).2.terminal = k.terminal := by
  unfold forkCurrent
  split
  · rfl
  · split
    · rfl
    · rfl

theorem performExec_terminal (k : Kernel S) (a b c : BitVec 32) :
    (performExec fileSystem k a b c).2.terminal = k.terminal := by
  unfold performExec
  split
  · rfl
  · split
    · rfl
    · rfl

theorem performBreak_terminal (k : Kernel S) (a : BitVec 32) :
    (performBreak k a).2.terminal = k.terminal := by
  unfold performBreak
  dsimp only
  split
  · rfl
  · rfl

theorem performForeground_terminal (k : Kernel S) (a : BitVec 32) :
    (performForeground k a).2.terminal = k.terminal := by
  unfold performForeground
  split
  · rfl
  · dsimp only
    split
    · rfl
    · rfl

theorem performRead_terminal (k : Kernel S) (a b c : BitVec 32) :
    (performRead fileSystem k a b c).2.terminal = k.terminal ∨
      performRead fileSystem k a b c = ttyReadUser k b c := by
  unfold performRead
  split
  · exact Or.inl rfl
  · split
    · exact Or.inl rfl
    · split
      · exact Or.inr rfl
      · exact Or.inl rfl

theorem perform_terminal (k : Kernel S) (nr a b c : BitVec 32) :
    (perform fileSystem k nr a b c).2.terminal = k.terminal ∨
      perform fileSystem k nr a b c = ttyReadUser k b c := by
  unfold perform
  dsimp only
  split
  · exact Or.inl rfl
  · exact Or.inl (forkCurrent_terminal fileSystem k)
  · exact performRead_terminal fileSystem k a b c
  · split
    · exact Or.inl rfl
    · exact Or.inl rfl
  · exact Or.inl (pathCall_terminal k a _)
  · exact Or.inl rfl
  · split
    · exact Or.inl rfl
    · exact Or.inl (waitCurrent_terminal k a b c)
  · exact Or.inl (pathCall_terminal k a _)
  · exact Or.inl (performExec_terminal fileSystem k a b c)
  · exact Or.inl (pathCall_terminal k a _)
  · exact Or.inl (pathCall_terminal k a _)
  · split
    · exact Or.inl rfl
    · split
      · exact Or.inl rfl
      · exact Or.inl rfl
  · exact Or.inl rfl
  · exact Or.inl rfl
  · split
    · exact Or.inl rfl
    · exact Or.inl rfl
  · exact Or.inl rfl
  · split
    · exact Or.inl rfl
    · split
      · exact Or.inl rfl
      · exact Or.inl rfl
  · exact Or.inl (pathCall_terminal k a _)
  · exact Or.inl (pathCall_terminal k a _)
  · exact Or.inl rfl
  · exact Or.inl (performBreak_terminal k a)
  · exact Or.inl rfl
  · exact Or.inl rfl
  · exact Or.inl rfl
  · exact Or.inl rfl
  · exact Or.inl rfl
  · exact Or.inl (performForeground_terminal k a)
  · split
    · exact Or.inl rfl
    · exact Or.inl rfl
  · exact Or.inl rfl
  · exact Or.inl rfl

theorem finishCall_terminal (performed : BitVec 32 × Kernel S) :
    (finishCall performed).terminal = performed.2.terminal := by
  unfold finishCall
  split
  · rfl
  · rfl

theorem activate_terminal (k : Kernel S) (slot : Nat) :
    (activate k slot).terminal = k.terminal := by
  unfold activate
  split
  · rfl
  · rfl

variable {first k after : Kernel S} {acts : List (Act (BitVec 8))}

theorem TerminalRun.perform (run : TerminalRun first acts k) (nr a b c : BitVec 32) :
    ∃ more, TerminalRun first (acts ++ more) (perform fileSystem k nr a b c).2 := by
  rcases perform_terminal fileSystem k nr a b c with same | read
  · exact ⟨[], by rw [List.append_nil]; exact .other run same⟩
  · rw [read]
    exact ⟨_, .read run b c⟩

theorem TerminalRun.entered (run : TerminalRun first acts k) (window : Memory) (saved : Context)
    (poll : Poll) : ∃ more, TerminalRun first (acts ++ more) (entered k window saved poll) := by
  have ran : TerminalRun first acts (saveContext { k with window := window } saved) :=
    .other run rfl
  exact ⟨_, ran.poll poll⟩

/-- Every step of the system is made of key events and reads. -/
theorem TerminalRun.step (run : TerminalRun first acts k) (step : Step fileSystem k after) :
    ∃ more, TerminalRun first (acts ++ more) after := by
  have own (window : Memory) (saved : Context) (poll : Poll) (nr a b c : BitVec 32) :
      ∃ more, TerminalRun first (acts ++ more)
        (SymphonyPlus.perform fileSystem (SymphonyPlus.entered k window saved poll) nr a b c).2 := by
    obtain ⟨events, polled⟩ := run.entered window saved poll
    obtain ⟨reads, performed⟩ := polled.perform fileSystem nr a b c
    exact ⟨events ++ reads, by rwa [← List.append_assoc]⟩
  cases step with
  | @call window saved poll running done =>
      obtain ⟨more, performed⟩ := own window saved poll (saved.regs 1) (saved.regs 2)
        (saved.regs 3) (saved.regs 4)
      exact ⟨more, .other performed (finishCall_terminal _)⟩
  | @block window saved poll running again call =>
      obtain ⟨more, performed⟩ := own window saved poll (saved.regs 1) (saved.regs 2)
        (saved.regs 3) (saved.regs 4)
      exact ⟨more, .other performed rfl⟩
  | @cancel window saved poll running marked =>
      obtain ⟨more, polled⟩ := run.entered window saved poll
      exact ⟨more, .other polled rfl⟩
  | poll poll => exact ⟨_, .poll run poll⟩
  | interrupt alive marked => exact ⟨[], by rw [List.append_nil]; exact .other run rfl⟩
  | resume pending done =>
      obtain ⟨more, performed⟩ := run.perform fileSystem (k.pending k.active) (k.arg1 k.active)
        (k.arg2 k.active) (k.arg3 k.active)
      exact ⟨more, .other performed rfl⟩
  | remain pending again => exact run.perform fileSystem _ _ _ _
  | activate inside occupied =>
      exact ⟨[], by rw [List.append_nil]; exact .other run (activate_terminal k _)⟩

theorem steps_terminalRun (steps : Steps fileSystem first k) :
    ∃ acts, TerminalRun first acts k := by
  induction steps with
  | refl => exact ⟨[], .start⟩
  | tail _ step ih =>
      obtain ⟨acts, run⟩ := ih
      obtain ⟨more, run⟩ := run.step fileSystem step
      exact ⟨acts ++ more, run⟩

end Dispatcher

end TerminalRuns

end SymphonyPlus
