import SymphonyPlus.RoundTrip

/-! What `stringize` makes of an argument. -/

namespace SymphonyPlus.Stringize

/-- The spelling of an argument in the source, with one space for the blanks between two tokens. -/
def sourceSpelling : List Token → List Char
  | [] => []
  | [t] => tokSpell t
  | t :: u :: rest =>
      tokSpell t ++ ((if t.loc.drop t.len = u.loc then [] else [' ']) ++ sourceSpelling (u :: rest))

def Spaced (tokens : List Token) : Prop := tokens.IsChain fun t u => t.loc.drop t.len ≠ u.loc

def Unescaped (tokens : List Token) : Prop :=
  ∀ t ∈ tokens, ∀ c ∈ tokSpell t, ¬(c = '"' ∨ c = '\\')

instance (tokens : List Token) : Decidable (Unescaped tokens) :=
  decidable_of_iff ((tokens.all fun t => (tokSpell t).all fun c => c ≠ '"' && c ≠ '\\') = true)
    (by simp [Unescaped])

instance (tokens : List Token) : Decidable (Spaced tokens) :=
  inferInstanceAs (Decidable (tokens.IsChain fun t u => t.loc.drop t.len ≠ u.loc))

def joined (tokens : List Token) : List Char := List.intercalate [' '] (tokens.map tokSpell)

theorem joined_cons (t u : Token) (rest : List Token) :
    joined (t :: u :: rest) = tokSpell t ++ ([' '] ++ joined (u :: rest)) := by
  simp only [joined, List.map_cons, List.intercalate_cons_cons, List.append_assoc]

theorem sourceSpelling_spaced {tokens : List Token} (spaced : Spaced tokens) :
    sourceSpelling tokens = joined tokens := by
  induction tokens with
  | nil => rfl
  | cons t rest ih =>
      cases rest with
      | nil =>
          rw [sourceSpelling, joined, List.map_singleton, List.intercalate_singleton]
      | cons u rest =>
          obtain ⟨apart, later⟩ := List.isChain_cons_cons.mp spaced
          rw [sourceSpelling, if_neg apart, ih later, joined_cons]

theorem stringizeChar_plain {text : List Char} (plain : ∀ c ∈ text, ¬(c = '"' ∨ c = '\\')) :
    text.flatMap stringizeChar = text.map charByte := by
  induction text with
  | nil => rfl
  | cons c text ih =>
      have first := plain c List.mem_cons_self
      rw [List.flatMap_cons, stringizeChar, if_neg first,
        ih fun d member => plain d (List.mem_cons_of_mem _ member)]
      rfl

theorem stringize_plain {arg : Arg} (plain : Unescaped arg.tokens) :
    (stringize arg).str = (joined arg.tokens).map charByte := by
  have bytes : (stringize arg).str = List.intercalate [charByte ' ']
      (arg.tokens.map fun t => (tokSpell t).flatMap stringizeChar) := rfl
  rw [bytes]
  generalize arg.tokens = tokens at plain
  induction tokens with
  | nil => rfl
  | cons t rest ih =>
      have first := stringizeChar_plain (plain t List.mem_cons_self)
      have later := ih fun u member => plain u (List.mem_cons_of_mem _ member)
      cases rest with
      | nil =>
          rw [joined, List.map_singleton, List.map_singleton, List.intercalate_singleton,
            List.intercalate_singleton, first]
      | cons u rest =>
          rw [List.map_cons] at later
          rw [joined_cons, List.map_cons, List.map_cons, List.intercalate_cons_cons, first, later,
            List.map_append, List.map_append, List.append_assoc]
          rfl

/-- A string among other tokens is read back with its bytes. -/
theorem string_reads {build : Build} {before after : List Token} {s : Token}
    (proper : ∀ t ∈ before ++ s :: after, Proper build t) (kind : s.kind = .str)
    (inside : ∀ t ∈ before, t.kind ≠ .eof) :
    ∃ read t later, tokenize build (unparse build (before ++ s :: after)) =
        .ok (read ++ t :: later) ∧
      read.length = before.length ∧ t.kind = .str ∧ t.str = s.str := by
  obtain ⟨whole, lexed, pairs⟩ := tokenize_unparse proper
  have cut : (before ++ s :: after).takeWhile (fun t => decide (t.kind ≠ .eof)) =
      before ++ s :: after.takeWhile fun t => decide (t.kind ≠ .eof) := by
    rw [List.takeWhile_append_of_pos (by simpa using inside), List.takeWhile_cons_of_pos]
    rw [kind]
    rfl
  rw [cut] at pairs
  obtain ⟨first, last, split, pairsFirst, pairsLast⟩ :
      ∃ first last, whole = first ++ last ∧ List.Forall₂ SameToken before first ∧
        List.Forall₂ SameToken (s :: after.takeWhile fun t => decide (t.kind ≠ .eof)) last := by
    have flipped := pairs.flip
    refine ⟨whole.take before.length, whole.drop before.length,
      (List.take_append_drop ..).symm, ?_, ?_⟩
    · exact (List.forall₂_take_append _ _ _ flipped).flip
    · exact (List.forall₂_drop_append _ _ _ flipped).flip
  obtain ⟨t, later, same, -, rfl⟩ := List.forall₂_cons_left_iff.mp pairsLast
  refine ⟨first, t, later ++ [newToken .eof [] 0], ?_, pairsFirst.length_eq.symm, ?_, same.str.symm⟩
  · rw [lexed, split, List.append_assoc, List.cons_append]
  · rw [← same.kind, kind]

def argumentOf (text : String) : Arg :=
  match tokenize .host text.toList with
  | .ok tokens => { chain := tokens, count := tokens.length - 1 }
  | .error _ => .empty

end SymphonyPlus.Stringize
