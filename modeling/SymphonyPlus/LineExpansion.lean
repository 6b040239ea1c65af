import SymphonyPlus.Preprocess

/-!
What the expansion of a line reads. An expansion stays inside its line unless the line ends in
the name of a function macro and the next one begins with a parenthesis.
-/

namespace SymphonyPlus

def insideLine (t : Token) : Bool := t.kind ≠ .eof && !tokAtBol t

def parens : Nat → List Token → Option Nat
  | depth, [] => some depth
  | depth, t :: rest =>
      if tokIs t "(" then parens (depth + 1) rest
      else if tokIs t ")" then if depth = 0 then none else parens (depth - 1) rest
      else parens depth rest

/-- Every parenthesis that is opened is closed, and maybe more. -/
def Closed (s : List Token) : Prop := ∃ depth, parens depth s = some 0

def Arg.onto (tail : List Token) (arg : Arg) : Arg :=
  if arg.count = 0 then arg else { arg with chain := arg.chain ++ tail }

theorem Arg.onto_empty (tail : List Token) : Arg.empty.onto tail = Arg.empty := rfl

theorem Arg.onto_count (tail : List Token) (arg : Arg) : (arg.onto tail).count = arg.count := by
  unfold Arg.onto
  split <;> rfl

theorem Arg.extend_onto (tail : List Token) (arg : Arg) (chain : List Token) :
    (arg.extend chain).onto tail = (arg.onto tail).extend (chain ++ tail) := by
  by_cases first : arg.count = 0 <;> simp [Arg.extend, Arg.onto, first]

theorem collectFrom_append {depth : Nat} {args done : List Arg} {arg : Arg} {s rest : List Token}
    (tail : List Token) (collected : collectFrom depth args arg s = .ok (done, rest)) :
    collectFrom depth (args.map (Arg.onto tail)) (arg.onto tail) (s ++ tail) =
      .ok (done.map (Arg.onto tail), rest ++ tail) := by
  induction s generalizing depth args arg with
  | nil => cases collected
  | cons t s ih =>
      rw [List.cons_append]
      unfold collectFrom at collected ⊢
      have extended := Arg.extend_onto tail arg (t :: s)
      rw [List.cons_append] at extended
      split at collected
      · cases collected
      · rename_i inside
        rw [if_neg inside]
        split at collected
        · rename_i opening
          rw [if_pos opening, ← extended]
          exact ih collected
        · rename_i notOpening
          rw [if_neg notOpening]
          split at collected
          · rename_i closing
            rw [if_pos closing]
            split at collected
            · rename_i outer
              rw [if_pos outer]
              simp only [Except.ok.injEq, Prod.mk.injEq] at collected ⊢
              obtain ⟨rfl, rfl⟩ := collected
              refine ⟨?_, rfl⟩
              simp only [List.map_eq_nil_iff, Arg.onto_count]
              split <;> simp
            · rename_i nested
              rw [if_neg nested, ← extended]
              exact ih collected
          · rename_i notClosing
            rw [if_neg notClosing]
            split at collected
            · rename_i comma
              rw [if_pos comma]
              have next := ih collected
              rw [List.map_append] at next
              exact next
            · rename_i other
              rw [if_neg other, ← extended]
              exact ih collected

theorem collectFrom_stops {depth : Nat} {args : List Arg} {arg : Arg} {s tail : List Token}
    {failure : Failure} (plain : ∀ t ∈ s, insideLine t = true)
    (stops : ∃ t rest, tail = t :: rest ∧ insideLine t = false)
    (failed : collectFrom depth args arg s = .error failure) (before : List Arg) (current : Arg) :
    collectFrom depth before current (s ++ tail) =
      exitWith "unterminated macro argument list\n" := by
  induction s generalizing depth args arg before current with
  | nil =>
      obtain ⟨t, rest, rfl, outside⟩ := stops
      have ends : (t.kind = .eof || tokAtBol t) = true := by
        unfold insideLine at outside
        by_cases last : t.kind = .eof <;> simp_all
      exact if_pos ends
  | cons t s ih =>
      have inner : ∀ u ∈ s, insideLine u = true := fun u inside =>
        plain u (List.mem_cons_of_mem _ inside)
      have inside : ¬(t.kind = .eof || tokAtBol t) = true := by
        have held := plain t List.mem_cons_self
        unfold insideLine at held
        simp_all
      rw [List.cons_append]
      unfold collectFrom at failed ⊢
      rw [if_neg inside] at failed ⊢
      split at failed
      · rename_i opening
        rw [if_pos opening]
        exact ih inner failed _ _
      · rename_i notOpening
        rw [if_neg notOpening]
        split at failed
        · rename_i closing
          rw [if_pos closing]
          split at failed
          · cases failed
          · rename_i nested
            rw [if_neg nested]
            exact ih inner failed _ _
        · rename_i notClosing
          rw [if_neg notClosing]
          split at failed
          · rename_i comma
            rw [if_pos comma]
            exact ih inner failed _ _
          · rename_i other
            rw [if_neg other]
            exact ih inner failed _ _

theorem parens_append (depth : Nat) (s tail : List Token) :
    parens depth (s ++ tail) = (parens depth s).bind fun inner => parens inner tail := by
  induction s generalizing depth with
  | nil => rfl
  | cons t s ih =>
      simp only [List.cons_append, parens]
      split
      · exact ih _
      · split
        · split
          · rfl
          · exact ih _
        · exact ih _

/-- The arguments of a call whose parenthesis is closed. -/
theorem collectFrom_closed {outer depth : Nat} {args : List Arg} {arg : Arg} {s : List Token}
    (plain : ∀ t ∈ s, insideLine t = true) (closed : parens (outer + 1 + depth) s = some 0) :
    ∃ done rest, collectFrom depth args arg s = .ok (done, rest) ∧ parens outer rest = some 0 := by
  induction s generalizing depth args arg with
  | nil =>
      simp only [parens, Option.some.injEq] at closed
      omega
  | cons t s ih =>
      have inner : ∀ u ∈ s, insideLine u = true := fun u inside =>
        plain u (List.mem_cons_of_mem _ inside)
      have inside : ¬(t.kind = .eof || tokAtBol t) = true := by
        have held := plain t List.mem_cons_self
        unfold insideLine at held
        simp_all
      unfold collectFrom
      unfold parens at closed
      rw [if_neg inside]
      split at closed
      · rename_i opening
        rw [if_pos opening]
        exact ih inner closed
      · rename_i notOpening
        rw [if_neg notOpening]
        split at closed
        · rename_i closing
          rw [if_pos closing]
          rw [if_neg (by omega)] at closed
          by_cases last : depth = 0
          · subst last
            exact ⟨_, s, if_pos rfl, closed⟩
          · rw [if_neg last]
            have shift : outer + 1 + depth - 1 = outer + 1 + (depth - 1) := by omega
            rw [shift] at closed
            exact ih inner closed
        · rename_i notClosing
          rw [if_neg notClosing]
          split <;> exact ih inner closed

/-- An argument is balanced, and what follows it is not a parenthesis that opens. -/
def Arg.Sound (arg : Arg) : Prop :=
  arg.count = 0 ∨ ∃ a delimiter more, arg.chain = a ++ delimiter :: more ∧ a.length = arg.count ∧
    parens 0 a = some 0 ∧ (∀ t ∈ a, insideLine t = true) ∧ tokIs delimiter "(" = false

/-- The argument that is being collected, `depth` parentheses deep, before the chain `s`. -/
def Arg.Growing (arg : Arg) (depth : Nat) (s : List Token) : Prop :=
  (arg.count = 0 ∧ depth = 0) ∨ ∃ a, arg.chain = a ++ s ∧ a.length = arg.count ∧ a ≠ [] ∧
    parens 0 a = some depth ∧ ∀ t ∈ a, insideLine t = true

theorem Arg.Growing.extend {arg : Arg} {depth after : Nat} {t : Token} {s : List Token}
    (growing : arg.Growing depth (t :: s)) (inside : insideLine t = true)
    (next : parens depth [t] = some after) : (arg.extend (t :: s)).Growing after s := by
  rcases growing with ⟨none, rfl⟩ | ⟨a, chain, count, some, open_, plain⟩
  · refine Or.inr ⟨[t], ?_, ?_, by simp, next, by simpa using inside⟩
    · simp [Arg.extend, none]
    · simp [Arg.extend, none]
  · have started : arg.count ≠ 0 := by
      rw [← count]
      simpa using some
    refine Or.inr ⟨a ++ [t], ?_, ?_, by simp, ?_, ?_⟩
    · simp [Arg.extend, started, chain]
    · simp [Arg.extend, started, count]
    · rw [parens_append, open_]
      exact next
    · intro u member
      rcases List.mem_append.mp member with early | last
      · exact plain u early
      · rw [List.mem_singleton.mp last]
        exact inside

theorem Arg.Growing.sound {arg : Arg} {t : Token} {s : List Token}
    (growing : arg.Growing 0 (t :: s)) (delimiter : tokIs t "(" = false) : arg.Sound := by
  rcases growing with ⟨none, _⟩ | ⟨a, chain, count, _, balanced, plain⟩
  · exact Or.inl none
  · exact Or.inr ⟨a, t, s, chain, count, balanced, plain, delimiter⟩

theorem collectFrom_sound {depth : Nat} {args done : List Arg} {arg : Arg} {s rest : List Token}
    (sound : ∀ a ∈ args, a.Sound) (growing : arg.Growing depth s)
    (collected : collectFrom depth args arg s = .ok (done, rest)) :
    (∀ a ∈ done, a.Sound) ∧ ∃ used close, s = used ++ close :: rest ∧
      (∀ t ∈ used, insideLine t = true) ∧ insideLine close = true := by
  induction s generalizing depth args arg with
  | nil => cases collected
  | cons t s ih =>
      unfold collectFrom at collected
      split at collected
      · cases collected
      · rename_i ends
        have inside : insideLine t = true := by
          unfold insideLine
          simp_all
        have further {depth : Nat} {args : List Arg} {arg : Arg}
            (sound : ∀ a ∈ args, a.Sound) (growing : arg.Growing depth s)
            (collected : collectFrom depth args arg s = .ok (done, rest)) :
            (∀ a ∈ done, a.Sound) ∧ ∃ used close, t :: s = used ++ close :: rest ∧
              (∀ t ∈ used, insideLine t = true) ∧ insideLine close = true := by
          obtain ⟨sounds, used, close, split, plain, last⟩ := ih sound growing collected
          refine ⟨sounds, t :: used, close, by rw [split]; rfl, ?_, last⟩
          intro u member
          rcases List.mem_cons.mp member with rfl | member
          · exact inside
          · exact plain u member
        split at collected
        · rename_i opening
          refine further sound (growing.extend inside ?_) collected
          simp [parens, opening]
        · rename_i notOpening
          rw [Bool.not_eq_true] at notOpening
          split at collected
          · rename_i closing
            split at collected
            · rename_i outer
              subst outer
              cases collected
              refine ⟨?_, [], t, rfl, by simp, inside⟩
              split
              · simp
              · intro a member
                rcases List.mem_append.mp member with early | last
                · exact sound a early
                · rw [List.mem_singleton.mp last]
                  exact growing.sound notOpening
            · rename_i nested
              refine further sound (growing.extend inside ?_) collected
              simp [parens, notOpening, closing, nested]
          · rename_i notClosing
            rw [Bool.not_eq_true] at notClosing
            split at collected
            · rename_i comma
              simp only [Bool.and_eq_true, decide_eq_true_eq] at comma
              obtain ⟨_, rfl⟩ := comma
              refine further ?_ (Or.inl ⟨rfl, rfl⟩) collected
              intro a member
              rcases List.mem_append.mp member with early | last
              · exact sound a early
              · rw [List.mem_singleton.mp last]
                exact growing.sound notOpening
            · refine further sound (growing.extend inside ?_) collected
              simp [parens, notOpening, notClosing]

theorem Arg.Sound.tokens_onto {arg : Arg} (sound : arg.Sound) (tail : List Token) :
    (arg.onto tail).tokens = arg.tokens := by
  rcases sound with none | ⟨a, delimiter, more, chain, count, _⟩
  · rw [Arg.onto, if_pos none]
  · unfold Arg.onto
    split
    · rfl
    · rw [Arg.tokens, Arg.tokens, chain, ← count]
      simp

theorem paramArg_map (m : Macro) (args : List Arg) (t : Token) {f : Arg → Arg}
    (empty : f .empty = .empty) : paramArg m (args.map f) t = (paramArg m args t).map f := by
  unfold paramArg
  split
  · cases paramIndex m t with
    | none => rfl
    | some i =>
        simp only [Option.map_some, List.getD_eq_getElem?_getD, List.getElem?_map]
        cases args[i]? with
        | none => simp [empty]
        | some arg => rfl
  · rfl

section Locality

variable (build : Build)

theorem paramArg_sound {m : Macro} {args : List Arg} {t : Token} {arg : Arg}
    (sound : ∀ a ∈ args, a.Sound) (found : paramArg m args t = some arg) :
    arg.Sound ∧ (arg ∈ args ∨ arg.count = 0) := by
  unfold paramArg at found
  split at found
  · obtain ⟨i, _, rfl⟩ := Option.map_eq_some_iff.mp found
    rw [List.getD_eq_getElem?_getD]
    cases place : args[i]? with
    | none => exact ⟨Or.inl rfl, Or.inr rfl⟩
    | some a =>
        have member := List.mem_of_getElem? place
        exact ⟨sound a member, Or.inl member⟩
  · cases found

theorem paste_onto {m : Macro} {args : List Arg} (sound : ∀ a ∈ args, a.Sound) (built : Built)
    (next : Token) (tail : List Token) :
    paste build m (args.map (Arg.onto tail)) built next = paste build m args built next := by
  unfold paste
  rw [paramArg_map m args next (Arg.onto_empty tail)]
  cases found : paramArg m args next with
  | none => rfl
  | some arg => simp only [Option.map_some, (paramArg_sound sound found).1.tokens_onto]

/-- The substitution depends on the tokens of the arguments and on their expansions. -/
theorem substituteFrom_onto {m : Macro} {args : List Arg} (sound : ∀ a ∈ args, a.Sound)
    {first second : Arg → Except Failure (List Token)} {tail : List Token}
    (same : ∀ a ∈ args, a.count ≠ 0 → first (a.onto tail) = second a) (body : List Token)
    (built : Built) :
    substituteFrom build first m (args.map (Arg.onto tail)) built body =
      substituteFrom build second m args built body := by
  induction size : body.length using Nat.strong_induction_on generalizing body built with
  | h n ih =>
      have shorter (built : Built) {more : List Token} (less : more.length < n) :
          substituteFrom build first m (args.map (Arg.onto tail)) built more =
            substituteFrom build second m args built more := ih _ less more built rfl
      cases body with
      | nil => rfl
      | cons t rest =>
          rw [List.length_cons] at size
          have params (u : Token) : paramArg m (args.map (Arg.onto tail)) u =
              (paramArg m args u).map (Arg.onto tail) :=
            paramArg_map m args u (Arg.onto_empty tail)
          unfold substituteFrom
          simp only [params, Option.isSome_map]
          split
          · cases rest with
            | nil => rfl
            | cons next more =>
                rw [List.length_cons] at size
                simp only [paste_onto build sound]
                exact bind_congr fun built => shorter built (by omega)
          · split
            · cases rest with
              | nil => rfl
              | cons param more =>
                  rw [List.length_cons] at size
                  dsimp only
                  rw [shorter _ (show more.length < n by omega)]
                  cases found : paramArg m args param with
                  | none => rfl
                  | some arg =>
                      simp only [Option.map_some, Option.getD_some, stringize,
                        (paramArg_sound sound found).1.tokens_onto]
            · cases found : paramArg m args t with
              | none => exact shorter _ (by omega)
              | some arg =>
                  obtain ⟨held, member⟩ := paramArg_sound sound found
                  simp only [Option.map_some, held.tokens_onto, Arg.onto_count]
                  split
                  · exact shorter _ (by omega)
                  · split
                    · exact shorter _ (by omega)
                    · rename_i some
                      rw [same arg (member.resolve_right some) some]
                      exact bind_congr fun value => shorter _ (by omega)

/-- The chain goes on with a token that ends the line. -/
def Stops (tail : List Token) : Prop := ∃ t rest, tail = t :: rest ∧ insideLine t = false

def opensCall (macros : MacroTable) (t : Token) : Bool :=
  (calledMacro macros t).any fun m => m.params.isSome

/-- The last token does not call a macro whose arguments are what follows. -/
def Separate (macros : MacroTable) (s tail : List Token) : Prop :=
  ∀ last, s.getLast? = some last → opensCall macros last = true →
    ∀ p, tail.head? = some p → tokIs p "(" = false

theorem Closed.tail {t : Token} {s : List Token} (closed : Closed (t :: s)) : Closed s := by
  obtain ⟨depth, balanced⟩ := closed
  unfold parens at balanced
  split at balanced
  · exact ⟨_, balanced⟩
  · split at balanced
    · split at balanced
      · cases balanced
      · exact ⟨_, balanced⟩
    · exact ⟨_, balanced⟩

theorem Separate.suffix {macros : MacroTable} {early late tail : List Token}
    (separate : Separate macros (early ++ late) tail) (some : late ≠ []) :
    Separate macros late tail := by
  intro last found
  refine separate last ?_
  rw [List.getLast?_append_of_ne_nil _ some]
  exact found

theorem expandFrom_stop (macros : MacroTable)
    (call : Macro → List Arg → Except Failure (List Token)) (fuel : Nat) (tail : List Token) :
    expandFrom macros call tail.length fuel tail = .ok [] := by
  cases fuel with
  | zero => rfl
  | succ fuel =>
      cases tail with
      | nil => rfl
      | cons t next =>
          unfold expandFrom
          rw [if_pos (List.length_cons).symm]
          rfl

/-- The last token of a range is copied when no call follows it. -/
theorem expandFrom_last {macros : MacroTable} {t : Token} {tail : List Token}
    (separate : Separate macros [t] tail) (call : Macro → List Arg → Except Failure (List Token))
    (opens : opensCall macros t = true) (fuel : Nat) :
    expandFrom macros call tail.length (fuel + 1) (t :: tail) = .ok [t] := by
  obtain ⟨m, called, some⟩ := (Option.any_eq_true _ _).mp opens
  obtain ⟨params, shape⟩ := Option.isSome_iff_exists.mp some
  unfold expandFrom
  rw [if_neg (by simp)]
  simp only [called, shape]
  cases tail with
  | nil => rfl
  | cons p inside =>
      have other : tokIs p "(" = false := by
        refine separate t rfl ?_ p rfl
        simp [opensCall, called, shape]
      simp only [other, Bool.false_eq_true, if_false, expandFrom_stop]
      rfl

/-- The range `s` of a chain is expanded the same way whatever follows it. -/
theorem expandFrom_local {macros : MacroTable}
    {first second : Macro → List Arg → Except Failure (List Token)} {tail other : List Token}
    (calls : ∀ (m : Macro) (args : List Arg), (∀ a ∈ args, a.Sound) →
      first m (args.map (Arg.onto tail)) = second m (args.map (Arg.onto other)))
    {s : List Token} (plain : ∀ t ∈ s.tail, insideLine t = true)
    (enclosed : Closed s ∨ (Stops tail ∧ Stops other))
    (separate : Separate macros s tail) (apart : Separate macros s other) {fuel more : Nat}
    (enough : (s ++ tail).length ≤ fuel) (plenty : (s ++ other).length ≤ more) :
    expandFrom macros first tail.length fuel (s ++ tail) =
      expandFrom macros second other.length more (s ++ other) := by
  induction size : s.length using Nat.strong_induction_on generalizing s fuel more with
  | h n ih =>
      cases s with
      | nil => rw [List.nil_append, List.nil_append, expandFrom_stop, expandFrom_stop]
      | cons t s =>
          obtain _ | fuel := fuel
          · simp at enough
          obtain _ | more := more
          · simp at plenty
          rw [List.length_cons] at size
          rw [List.cons_append, List.length_cons] at enough plenty
          have further (early : List Token) {late : List Token} (parts : s = early ++ late)
              (closed : Closed s → Closed late) {fuel more : Nat}
              (enough : (late ++ tail).length ≤ fuel) (plenty : (late ++ other).length ≤ more) :
              expandFrom macros first tail.length fuel (late ++ tail) =
                expandFrom macros second other.length more (late ++ other) := by
            cases late with
            | nil => rw [List.nil_append, List.nil_append, expandFrom_stop, expandFrom_stop]
            | cons u late =>
                have reaches : t :: s = (t :: early) ++ u :: late := by rw [parts]; rfl
                rw [reaches] at separate apart
                refine ih _ ?_ ?_ ?_ (separate.suffix (by simp)) (apart.suffix (by simp)) enough
                  plenty rfl
                · rw [← size, parts, List.length_append, List.length_cons]
                  omega
                · intro v member
                  refine plain v ?_
                  rw [List.tail_cons, parts]
                  exact List.mem_append_right _ (List.mem_cons_of_mem _ member)
                · exact enclosed.imp (fun whole => closed whole.tail) id
          have onward : expandFrom macros first tail.length fuel (s ++ tail) =
              expandFrom macros second other.length more (s ++ other) :=
            further [] rfl id (by omega) (by omega)
          rw [List.cons_append, List.cons_append]
          by_cases alone : s = [] ∧ opensCall macros t = true
          · obtain ⟨rfl, opens⟩ := alone
            exact (expandFrom_last separate first opens fuel).trans
              (expandFrom_last apart second opens more).symm
          have before (tail : List Token) : ¬(s ++ tail).length + 1 = tail.length := by
            rw [List.length_append]
            omega
          unfold expandFrom
          rw [if_neg (before tail), if_neg (before other)]
          cases called : calledMacro macros t with
          | none => exact congrArg (fun r => r.bind fun more => .ok (t :: more)) onward
          | some m =>
              cases shape : m.params with
              | none =>
                  have same := calls m [] (by simp)
                  simp only [List.map_nil] at same
                  simp only [shape, same, onward]
              | some params =>
                  cases s with
                  | nil =>
                      refine absurd ⟨rfl, ?_⟩ alone
                      simp [opensCall, called, shape]
                  | cons p inside =>
                      simp only [shape, List.cons_append]
                      split
                      · rename_i opening
                        have inner : ∀ u ∈ inside, insideLine u = true := fun u member =>
                          plain u (List.mem_cons_of_mem _ member)
                        rw [List.cons_append, List.length_cons] at enough plenty
                        unfold collectArgs
                        cases result : collectFrom 0 [] .empty inside with
                        | error failure =>
                            obtain ⟨stops, ends⟩ : Stops tail ∧ Stops other := by
                              refine enclosed.resolve_left fun whole => ?_
                              obtain ⟨depth, balanced⟩ := whole.tail
                              unfold parens at balanced
                              rw [if_pos opening] at balanced
                              obtain ⟨done, rest, finished, _⟩ :=
                                @collectFrom_closed depth 0 [] .empty inside inner balanced
                              rw [finished] at result
                              cases result
                            rw [collectFrom_stops inner stops result,
                              collectFrom_stops inner ends result]
                            rfl
                        | ok collected =>
                            obtain ⟨done, rest⟩ := collected
                            obtain ⟨sound, used, close, parts, _, _⟩ :=
                              collectFrom_sound (by simp) (Or.inl ⟨rfl, rfl⟩) result
                            have left := collectFrom_append tail result
                            have right := collectFrom_append other result
                            rw [List.map_nil, Arg.onto_empty] at left right
                            have longer := congrArg List.length parts
                            simp only [List.length_append, List.length_cons] at longer enough plenty
                            have after : expandFrom macros first tail.length fuel (rest ++ tail) =
                                expandFrom macros second other.length more (rest ++ other) := by
                              refine further (p :: (used ++ [close])) ?_ ?_ ?_ ?_
                              · rw [parts]
                                simp
                              · rintro ⟨depth, balanced⟩
                                unfold parens at balanced
                                rw [if_pos opening] at balanced
                                obtain ⟨_, _, finished, level⟩ :=
                                  @collectFrom_closed depth 0 [] .empty inside inner balanced
                                rw [finished] at result
                                cases result
                                exact ⟨depth, level⟩
                              · rw [List.length_append]
                                omega
                              · rw [List.length_append]
                                omega
                            have same := calls m done sound
                            rw [left, right]
                            simp only [bind, Except.bind, List.length_map, same, after]
                      · exact congrArg (fun r => r.bind fun more => .ok (t :: more)) onward

theorem expandRange_local (level : Nat) {macros : MacroTable} {s tail other : List Token}
    (plain : ∀ t ∈ s.tail, insideLine t = true)
    (enclosed : Closed s ∨ (Stops tail ∧ Stops other))
    (separate : Separate macros s tail) (apart : Separate macros s other) :
    expandRange build level macros tail.length (s ++ tail) =
      expandRange build level macros other.length (s ++ other) := by
  induction level generalizing macros s tail other with
  | zero =>
      exact expandFrom_local (by exact fun _ _ _ => rfl) plain enclosed separate apart
        (Nat.le_refl _) (Nat.le_refl _)
  | succ level ih =>
      refine expandFrom_local (fun m args sound => ?_) plain enclosed separate apart
        (Nat.le_refl _) (Nat.le_refl _)
      have expanded : ∀ a ∈ args, a.count ≠ 0 →
          expandRange build level (setExpanding macros m.name)
            ((a.onto tail).chain.length - (a.onto tail).count) (a.onto tail).chain =
          expandRange build level (setExpanding macros m.name)
            ((a.onto other).chain.length - (a.onto other).count) (a.onto other).chain := by
        intro a member some
        obtain ⟨part, delimiter, more, chain, count, balanced, plain, closing⟩ :=
          (sound a member).resolve_left some
        have onto (tail : List Token) :
            (a.onto tail).chain = part ++ (delimiter :: more ++ tail) ∧
              (a.onto tail).chain.length - (a.onto tail).count =
                (delimiter :: more ++ tail).length := by
          rw [Arg.onto, if_neg some]
          refine ⟨by simp [chain], ?_⟩
          simp only [chain, List.append_assoc, List.length_append, ← count]
          omega
        rw [(onto tail).2, (onto tail).1, (onto other).2, (onto other).1]
        have delimited (tail : List Token) : Separate (setExpanding macros m.name) part
            (delimiter :: more ++ tail) := by
          intro last _ _ p found
          cases found
          exact closing
        exact ih (fun t member => plain t (List.mem_of_mem_tail member))
          (Or.inl ⟨0, balanced⟩) (delimited tail) (delimited other)
      have substituted : substitute build
            (fun arg => expandRange build level (setExpanding macros m.name)
              (arg.chain.length - arg.count) arg.chain) m (args.map (Arg.onto tail)) =
          substitute build
            (fun arg => expandRange build level (setExpanding macros m.name)
              (arg.chain.length - arg.count) arg.chain) m (args.map (Arg.onto other)) := by
        exact (substituteFrom_onto build sound expanded _ _).trans
          (substituteFrom_onto build sound (by exact fun _ _ _ => rfl) _ _).symm
      simp only [substituted]

/-- The line ends in the name of a function macro and the next line begins with a parenthesis. -/
def overruns (macros : MacroTable) (chain : List Token) : Bool :=
  (lineTokens chain).getLast?.any (opensCall macros) &&
    (lineRest chain).head?.any fun p => tokIs p "("

theorem lineTokens_append (chain : List Token) : lineTokens chain ++ lineRest chain = chain := by
  cases chain with
  | nil => rfl
  | cons t rest => exact congrArg (t :: ·) List.takeWhile_append_dropWhile

/-- Otherwise the line is expanded as if it were the last one of its file. -/
theorem expand_line {macros : MacroTable} {chain : List Token} (stops : Stops (lineRest chain))
    (stays : overruns macros chain = false) :
    expand build macros (lineRest chain).length chain =
      expand build macros 1 (lineTokens chain ++ [endOfFile]) := by
  have plain : ∀ t ∈ (lineTokens chain).tail, insideLine t = true := by
    cases chain with
    | nil => simp [lineTokens]
    | cons t rest => exact fun u member => List.mem_takeWhile_imp member
  have separate : Separate macros (lineTokens chain) (lineRest chain) := by
    intro last found opens p next
    simpa [overruns, found, opens, next] using stays
  have apart : Separate macros (lineTokens chain) [endOfFile] := by
    intro last _ _ p next
    cases next
    rfl
  have expanded := expandRange_local build macros.length plain
    (Or.inr ⟨stops, endOfFile, [], rfl, rfl⟩) separate apart
  rw [lineTokens_append] at expanded
  exact expanded

end Locality

end SymphonyPlus
