import Mathlib.Data.BitVec
import Mathlib.Data.List.Basic
import Mathlib.Data.List.Infix

/-!
An edited line queue: characters are typed into a current line, a newline completes it, and
readers take completed text one line at a time. One place of the queue is kept for a newline.
-/

namespace LineEditing

/-- What happens to the queue. `delivered` is what one reader was given. -/
inductive Act (α : Type)
  | typed (c : α)
  | erase
  | interrupt
  | delivered (taken : List α)
  deriving DecidableEq

/-- The text of the completed lines, less what interrupts have discarded; what readers were given;
and the line that is being typed. -/
structure Account (α : Type) where
  completed : List α
  delivered : List α
  line : List α

variable {α : Type}

def Account.empty : Account α := { completed := [], delivered := [], line := [] }

def Account.unread (a : Account α) : List α := a.completed.drop a.delivered.length

def Account.queue (a : Account α) : List α := a.unread ++ a.line

def typedCount (acts : List (Act α)) : Nat :=
  acts.countP fun
    | .typed _ => true
    | _ => false

def deliveries (acts : List (Act α)) : List α :=
  acts.flatMap fun
    | .delivered taken => taken
    | _ => []

/-- No line has begun after the text: it is empty or ends with a newline. -/
def Ended (newline : α) (text : List α) : Prop := ∀ c, text.getLast? = some c → c = newline

theorem Ended.tail {newline c : α} {rest : List α} (ended : Ended newline (c :: rest))
    (other : c ≠ newline) : rest ≠ [] ∧ Ended newline rest := by
  cases rest with
  | nil => exact absurd (ended c rfl) other
  | cons d rest => exact ⟨nofun, fun last found => ended last (by simpa using found)⟩

theorem Ended.drop {newline : α} {text : List α} (ended : Ended newline text) (count : Nat) :
    Ended newline (text.drop count) := by
  intro c found
  rw [List.getLast?_drop] at found
  split at found
  · cases found
  · exact ended c found

theorem Ended.mem {newline : α} {text : List α} (ended : Ended newline text) (some : text ≠ []) :
    newline ∈ text := by
  rw [← ended _ (List.getLast?_eq_getLast_of_ne_nil some)]
  exact List.getLast_mem some

theorem Account.unread_append {a : Account α} (given : a.delivered <+: a.completed) (more : List α) :
    (a.completed ++ more).drop a.delivered.length = a.unread ++ more :=
  List.drop_append_of_le_length given.length_le

/-- Readers were given completed text only, the current line has no newline, and there is room for
the one that ends it. -/
structure Account.Kept (newline : α) (capacity : Nat) (a : Account α) : Prop where
  given : a.delivered <+: a.completed
  ended : Ended newline a.unread
  plain : newline ∉ a.line
  fits : a.queue.length ≤ capacity
  room : a.line ≠ [] → a.queue.length < capacity

/-- A step that gives a reader nothing but unread text. -/
def Account.Fair (a : Account α) : Act α → Prop
  | .delivered taken => taken <+: a.unread
  | _ => True

theorem Account.kept_empty {newline : α} {capacity : Nat} :
    (empty : Account α).Kept newline capacity where
  given := List.nil_prefix
  ended := nofun
  plain := nofun
  fits := Nat.zero_le _
  room some := absurd rfl some

variable [DecidableEq α] (newline : α) (capacity : Nat)

def Account.typed (a : Account α) (c : α) : Account α :=
  if c = newline then
    if a.queue.length < capacity then
      { a with completed := a.completed ++ (a.line ++ [newline]), line := [] }
    else a
  else if a.queue.length + 1 < capacity then { a with line := a.line ++ [c] }
  else a

def Account.step (a : Account α) : Act α → Account α
  | .typed c => a.typed newline capacity c
  | .erase => { a with line := a.line.dropLast }
  | .interrupt => { a with completed := a.delivered, line := [] }
  | .delivered taken => { a with delivered := a.delivered ++ taken }

def account (acts : List (Act α)) : Account α :=
  acts.foldl (Account.step newline capacity) .empty

def takeLine : Nat → List α → List α
  | 0, _ => []
  | _ + 1, [] => []
  | count + 1, c :: rest => if c = newline then [c] else c :: takeLine count rest

theorem takeLine_starts (count : Nat) (text : List α) : takeLine newline count text <+: text := by
  induction count generalizing text with
  | zero => exact List.nil_prefix
  | succ count ih =>
      cases text with
      | nil => exact List.nil_prefix
      | cons c rest =>
          simp only [takeLine]
          split
          · exact List.prefix_append [c] rest
          · exact (List.prefix_cons_inj c).mpr (ih rest)

variable {newline capacity}

theorem takeLine_append {text : List α} (ended : Ended newline text) (some : text ≠ [])
    (count : Nat) (later : List α) :
    takeLine newline count (text ++ later) = takeLine newline count text := by
  induction count generalizing text with
  | zero => rfl
  | succ count ih =>
      cases text with
      | nil => exact absurd rfl some
      | cons c rest =>
          simp only [List.cons_append, takeLine]
          split
          · rfl
          · rename_i other
            obtain ⟨restSome, restEnded⟩ := ended.tail other
            rw [ih restEnded restSome]

namespace Account

variable {a : Account α}

theorem queue_typed (given : a.delivered <+: a.completed) (c : α) :
    (a.typed newline capacity c).queue =
      if a.queue.length + 1 < capacity ∨ (c = newline ∧ a.queue.length < capacity) then
        a.queue ++ [c]
      else a.queue := by
  unfold Account.typed
  by_cases same : c = newline
  · subst same
    rw [if_pos rfl]
    split
    · rename_i fits
      rw [if_pos (Or.inr ⟨rfl, fits⟩), queue, queue, List.append_assoc, List.append_nil]
      exact unread_append given _
    · rename_i full
      rw [if_neg (by rintro (less | ⟨_, less⟩) <;> omega)]
  · rw [if_neg same]
    split
    · rename_i fits
      rw [if_pos (Or.inl fits), queue, queue, List.append_assoc]
      rfl
    · rename_i full
      rw [if_neg (by rintro (less | ⟨other, _⟩); exacts [full less, same other])]

theorem Kept.typed (kept : a.Kept newline capacity) (c : α) :
    (a.typed newline capacity c).Kept newline capacity := by
  unfold Account.typed
  split
  · split
    · rename_i fits
      have unread : ({ a with completed := a.completed ++ (a.line ++ [newline]), line := [] } :
          Account α).unread = a.unread ++ (a.line ++ [newline]) := unread_append kept.given _
      refine ⟨kept.given.trans (List.prefix_append _ _), ?_, nofun, ?_, fun some => absurd rfl some⟩
      · intro last found
        rw [unread, ← List.append_assoc, List.getLast?_concat] at found
        exact (Option.some.inj found).symm
      · simp only [queue, unread, List.length_append, List.length_singleton,
          List.length_nil] at fits ⊢
        omega
    · exact kept
  · rename_i text
    split
    · rename_i fits
      refine ⟨kept.given, kept.ended, ?_, ?_, fun _ => ?_⟩
      · intro member
        rcases List.mem_append.mp member with old | new
        · exact kept.plain old
        · exact text (List.mem_singleton.mp new).symm
      all_goals
        simp only [queue, unread, List.length_append, List.length_singleton] at fits ⊢
        omega
    · exact kept

theorem Kept.step (kept : a.Kept newline capacity) {act : Act α} (fair : a.Fair act) :
    (a.step newline capacity act).Kept newline capacity := by
  cases act with
  | typed c => exact kept.typed c
  | erase =>
      have shorter : (a.unread ++ a.line.dropLast).length ≤ a.queue.length := by
        simp only [queue, List.length_append, List.length_dropLast]
        omega
      refine ⟨kept.given, kept.ended, ?_, shorter.trans kept.fits, fun some => ?_⟩
      · exact fun member => kept.plain (List.mem_of_mem_dropLast member)
      · refine shorter.trans_lt (kept.room fun none => some ?_)
        simp only [Account.step, none, List.dropLast_nil]
  | interrupt =>
      have nothing : ({ a with completed := a.delivered, line := [] } : Account α).unread = [] :=
        List.drop_length
      refine ⟨List.prefix_rfl, ?_, nofun, ?_, fun some => absurd rfl some⟩
      · rw [Account.step, nothing]
        nofun
      · simp only [Account.step, queue, nothing, List.append_nil, List.length_nil]
        omega
  | delivered taken =>
      obtain ⟨rest, split⟩ := kept.given
      have unread : a.unread = rest := by
        rw [Account.unread, ← split, List.drop_left]
      have fair : taken <+: rest := unread ▸ fair
      obtain ⟨later, rfl⟩ := fair
      have left : ({ a with delivered := a.delivered ++ taken } : Account α).unread = later := by
        rw [Account.unread]
        dsimp only
        rw [← split, ← List.append_assoc, List.drop_left]
      have shorter : ({ a with delivered := a.delivered ++ taken } : Account α).queue.length ≤
          a.queue.length := by
        simp only [queue, left, unread, List.length_append]
        omega
      refine ⟨⟨later, ?_⟩, ?_, kept.plain, shorter.trans kept.fits, fun some =>
        shorter.trans_lt (kept.room some)⟩
      · exact (List.append_assoc _ _ _).trans split
      · rw [Account.step, left]
        have ended := kept.ended.drop taken.length
        rwa [unread, List.drop_left] at ended

theorem step_delivered (act : Act α) :
    (a.step newline capacity act).delivered = a.delivered ++ deliveries [act] := by
  cases act with
  | typed c =>
      simp only [Account.step, Account.typed, deliveries, List.flatMap_singleton, List.append_nil]
      split
      · split
        · rfl
        · rfl
      · split
        · rfl
        · rfl
  | erase => exact (List.append_nil _).symm
  | interrupt => exact (List.append_nil _).symm
  | delivered taken => simp only [Account.step, deliveries, List.flatMap_singleton]

end Account

theorem account_append (acts more : List (Act α)) :
    account newline capacity (acts ++ more) =
      more.foldl (Account.step newline capacity) (account newline capacity acts) :=
  List.foldl_append

theorem account_delivered (newline : α) (capacity : Nat) (acts : List (Act α)) :
    (account newline capacity acts).delivered = deliveries acts := by
  induction acts using List.reverseRecOn with
  | nil => rfl
  | append_singleton acts act ih =>
      rw [account_append, List.foldl_cons, List.foldl_nil, Account.step_delivered, ih]
      exact List.flatMap_append.symm

end LineEditing
