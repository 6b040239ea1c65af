import SymphonyPlus.ConditionalGroups
import SymphonyPlus.Unparse
import Mathlib.Data.List.Forall2

/-!
What the preprocessor prints is read again as the same tokens, unless a line of the file it is
given is read past its end or its lines end in adjacent strings.
-/

namespace SymphonyPlus

def Bodies (P : Token → Prop) (macros : MacroTable) : Prop := ∀ m ∈ macros, ∀ t ∈ m.body, P t

def isPaste (t : Token) : Bool := tokIs t "##"

section Expansions

variable {build : Build} {P : Token → Prop} {macros : MacroTable}

theorem Bodies.setExpanding (bodies : Bodies P macros) (name : List Char) :
    Bodies P (setExpanding macros name) := by
  intro m member
  obtain ⟨n, found, rfl⟩ := List.mem_map.mp member
  split
  · exact bodies n found
  · exact bodies n found

theorem calledMacro_mem {t : Token} {m : Macro} (called : calledMacro macros t = some m) :
    m ∈ macros := by
  unfold calledMacro at called
  split at called
  · exact List.mem_of_find?_eq_some (Option.filter_eq_some_iff.mp called).1
  · cases called

/-- The chains of the arguments are parts of the chain they are collected from. -/
theorem collectFrom_chains {depth : Nat} {args done : List Arg} {arg : Arg}
    {chain rest : List Token} (good : ∀ t ∈ chain, P t)
    (before : ∀ a ∈ args, ∀ t ∈ a.chain, P t) (current : ∀ t ∈ arg.chain, P t)
    (collected : collectFrom depth args arg chain = .ok (done, rest)) :
    (∀ a ∈ done, ∀ t ∈ a.chain, P t) ∧ ∀ t ∈ rest, P t := by
  induction chain generalizing depth args arg with
  | nil => cases collected
  | cons t chain ih =>
      have inner : ∀ u ∈ chain, P u := fun u member => good u (List.mem_cons_of_mem t member)
      have extended : ∀ u ∈ (arg.extend (t :: chain)).chain, P u := by
        unfold Arg.extend
        split
        · exact good
        · exact current
      have appended : ∀ a ∈ args ++ [arg], ∀ u ∈ a.chain, P u := by
        intro a member
        rcases List.mem_append.mp member with early | last
        · exact before a early
        · rw [List.mem_singleton.mp last]
          exact current
      unfold collectFrom at collected
      split at collected
      · cases collected
      · split at collected
        · exact ih inner before extended collected
        · split at collected
          · split at collected
            · cases collected
              refine ⟨?_, inner⟩
              split
              · simp
              · exact appended
            · exact ih inner before extended collected
          · split at collected
            · exact ih inner appended (by simp [Arg.empty]) collected
            · exact ih inner before extended collected

theorem paramArg_chain {m : Macro} {args : List Arg} {t : Token} {arg : Arg}
    (chains : ∀ a ∈ args, ∀ u ∈ a.chain, P u) (found : paramArg m args t = some arg) :
    ∀ u ∈ arg.chain, P u := by
  unfold paramArg at found
  split at found
  · obtain ⟨i, _, rfl⟩ := Option.map_eq_some_iff.mp found
    rw [List.getD_eq_getElem?_getD]
    cases place : args[i]? with
    | none => simp [Arg.empty]
    | some a => exact chains a (List.mem_of_getElem? place)
  · cases found

structure Made (build : Build) (P : Token → Prop) (macros : MacroTable) : Prop where
  strings : ∀ arg, P (stringize arg)
  pastes : (∀ m ∈ macros, ∀ t ∈ m.body, isPaste t = false) ∨
    ∀ text tokens, tokenize build text = .ok tokens → ∀ t ∈ tokens, P t

theorem Made.setExpanding (made : Made build P macros) (name : List Char) :
    Made build P (setExpanding macros name) :=
  ⟨made.strings, made.pastes.imp (fun none => Bodies.setExpanding none name) id⟩

theorem Built.append_all {built : Built} {tokens : List Token} (before : ∀ t ∈ built.chain, P t)
    (more : ∀ t ∈ tokens, P t) : ∀ t ∈ (built.append tokens).chain, P t := by
  unfold Built.append
  split
  · exact before
  · intro t member
    rcases List.mem_append.mp member with early | last
    · exact before t early
    · exact more t last

theorem paste_all {m : Macro} {args : List Arg} {built next : Built} {t : Token}
    (tokens : ∀ text tokens, tokenize build text = .ok tokens → ∀ t ∈ tokens, P t)
    (before : ∀ t ∈ built.chain, P t) (pasted : paste build m args built t = .ok next) :
    ∀ t ∈ next.chain, P t := by
  unfold paste at pasted
  split at pasted
  · cases pasted
  · obtain ⟨merged, read, same⟩ := Except.of_bind_ok pasted
    cases same
    refine Built.append_all ?_ ?_
    · intro u member
      dsimp only at member
      split at member
      · exact before u (List.dropLast_subset _ member)
      · exact before u member
    · split
      · simp
      · exact tokens _ merged read

theorem substituteFrom_all {m : Macro} {args : List Arg}
    {expandArg : Arg → Except Failure (List Token)} (strings : ∀ arg, P (stringize arg))
    (chains : ∀ a ∈ args, ∀ t ∈ a.chain, P t)
    (expanded : ∀ a out, (∀ t ∈ a.chain, P t) → expandArg a = .ok out → ∀ t ∈ out, P t)
    {body out : List Token} {built : Built} (template : ∀ t ∈ body, P t)
    (pastes : (∀ t ∈ body, isPaste t = false) ∨
      ∀ text tokens, tokenize build text = .ok tokens → ∀ t ∈ tokens, P t)
    (before : ∀ t ∈ built.chain, P t)
    (done : substituteFrom build expandArg m args built body = .ok out) : ∀ t ∈ out, P t := by
  induction size : body.length using Nat.strong_induction_on generalizing body built with
  | h n ih =>
      cases body with
      | nil =>
          cases done
          exact before
      | cons t rest =>
          rw [List.length_cons] at size
          have further (early : List Token) {more : List Token} {built : Built}
              (parts : t :: rest = early ++ more)
              (less : more.length < n) (before : ∀ t ∈ built.chain, P t)
              (done : substituteFrom build expandArg m args built more = .ok out) :
              ∀ t ∈ out, P t := by
            have within : ∀ u ∈ more, u ∈ t :: rest := fun u member => by
              rw [parts]
              exact List.mem_append_right early member
            exact ih _ less (fun u member => template u (within u member))
              (pastes.imp (fun none u member => none u (within u member)) id) before done rfl
          unfold substituteFrom at done
          split at done
          · rename_i operator
            cases rest with
            | nil =>
                dsimp only at done
                split at done <;> cases done
            | cons next more =>
                obtain ⟨joined, pasted, done⟩ := Except.of_bind_ok done
                rw [List.length_cons] at size
                refine further [t, next] rfl (by omega) ?_ done
                refine paste_all (pastes.resolve_left fun none => ?_) before pasted
                have plain := none t List.mem_cons_self
                rw [isPaste, operator] at plain
                cases plain
          · split at done
            · cases rest with
              | nil => cases done
              | cons param more =>
                  rw [List.length_cons] at size
                  refine further [t, param] rfl (by omega) ?_ done
                  exact Built.append_all before (by simpa using strings _)
            · split at done
              · rename_i arg found
                have chain := paramArg_chain chains found
                have value {tokens : List Token} (good : ∀ u ∈ tokens, P u)
                    (done : substituteFrom build expandArg m args (built.append tokens) rest =
                      .ok out) : ∀ u ∈ out, P u :=
                  further [t] rfl (by omega) (Built.append_all before good) done
                dsimp only at done
                split at done
                · exact value (fun u member => chain u (List.mem_of_mem_take member)) done
                · split at done
                  · exact value (by simp) done
                  · obtain ⟨tokens, read, done⟩ := Except.of_bind_ok done
                    exact value (expanded arg tokens chain read) done
              · refine further [t] rfl (by omega) ?_ done
                exact Built.append_all before (by simpa using template t List.mem_cons_self)

theorem expandFrom_all {call : Macro → List Arg → Except Failure (List Token)}
    (calls : ∀ m ∈ macros, ∀ args out, (∀ a ∈ args, ∀ t ∈ a.chain, P t) →
      call m args = .ok out → ∀ t ∈ out, P t) {stop fuel : Nat} {chain out : List Token}
    (good : ∀ t ∈ chain, P t) (done : expandFrom macros call stop fuel chain = .ok out) :
    ∀ t ∈ out, P t := by
  induction fuel generalizing chain out with
  | zero =>
      cases done
      simp
  | succ fuel ih =>
      cases chain with
      | nil =>
          cases done
          simp
      | cons t next =>
          have first := good t List.mem_cons_self
          have inner : ∀ u ∈ next, P u := fun u member => good u (List.mem_cons_of_mem t member)
          have copied {more : List Token} (later : expandFrom macros call stop fuel next =
              .ok more) : ∀ u ∈ t :: more, P u := by
            intro u member
            rcases List.mem_cons.mp member with rfl | member
            · exact first
            · exact ih inner later u member
          have replaced {chain expansion more : List Token} (good : ∀ u ∈ chain, P u)
              (made : ∀ u ∈ expansion, P u)
              (later : expandFrom macros call stop fuel chain = .ok more) :
              ∀ u ∈ expansion ++ more, P u := by
            intro u member
            rcases List.mem_append.mp member with early | last
            · exact made u early
            · exact ih good later u last
          unfold expandFrom at done
          split at done
          · cases done
            simp
          · split at done
            · obtain ⟨more, later, same⟩ := Except.of_bind_ok done
              cases same
              exact copied later
            · rename_i m called
              have member := calledMacro_mem called
              split at done
              · obtain ⟨expansion, made, done⟩ := Except.of_bind_ok done
                obtain ⟨more, later, same⟩ := Except.of_bind_ok done
                cases same
                exact replaced inner (calls m member [] expansion (by simp) made) later
              · split at done
                · cases done
                  simpa using first
                · rename_i opening inside
                  split at done
                  · obtain ⟨collected, found, done⟩ := Except.of_bind_ok done
                    have chains := collectFrom_chains
                      (fun u member => inner u (List.mem_cons_of_mem _ member)) (by simp)
                      (by simp [Arg.empty]) found
                    split at done
                    · cases done
                    · obtain ⟨expansion, made, done⟩ := Except.of_bind_ok done
                      obtain ⟨more, later, same⟩ := Except.of_bind_ok done
                      cases same
                      exact replaced chains.2
                        (calls m member collected.1 expansion chains.1 made) later
                  · obtain ⟨more, later, same⟩ := Except.of_bind_ok done
                    cases same
                    exact copied later

/-- The tokens of an expansion come from its chain and from the bodies of the macros. -/
theorem expandRange_all (made : Made build P macros) (bodies : Bodies P macros)
    {level stop : Nat} {chain out : List Token} (good : ∀ t ∈ chain, P t)
    (done : expandRange build level macros stop chain = .ok out) : ∀ t ∈ out, P t := by
  induction level generalizing macros stop chain out with
  | zero =>
      refine expandFrom_all ?_ good done
      intro m member args out chains called
      cases called
      simp
  | succ level ih =>
      refine expandFrom_all ?_ good done
      intro m member args out chains called
      obtain ⟨body, replaced, later⟩ := Except.of_bind_ok called
      refine ih (made.setExpanding m.name) (bodies.setExpanding m.name) ?_ later
      refine substituteFrom_all made.strings chains ?_ (bodies m member)
        (made.pastes.imp (fun none => none m member) id) (by simp) replaced
      intro a out good read
      exact ih (made.setExpanding m.name) (bodies.setExpanding m.name) good read

/-! The end of the file in the expansion of a line. -/

theorem collectFrom_closes {depth : Nat} {args done : List Arg} {arg : Arg} {s rest : List Token}
    (collected : collectFrom depth args arg s = .ok (done, rest)) :
    ∃ used close, s = used ++ close :: rest ∧ tokIs close ")" = true := by
  induction s generalizing depth args arg with
  | nil => cases collected
  | cons t s ih =>
      have further {depth : Nat} {args : List Arg} {arg : Arg}
          (collected : collectFrom depth args arg s = .ok (done, rest)) :
          ∃ used close, t :: s = used ++ close :: rest ∧ tokIs close ")" = true := by
        obtain ⟨used, close, parts, closing⟩ := ih collected
        exact ⟨t :: used, close, by rw [parts]; rfl, closing⟩
      unfold collectFrom at collected
      split at collected
      · cases collected
      · split at collected
        · exact further collected
        · split at collected
          · rename_i closing
            split at collected
            · cases collected
              exact ⟨[], t, rfl, closing⟩
            · exact further collected
          · split at collected <;> exact further collected

theorem EndsFile.tail {t u : Token} {rest : List Token} (ends : EndsFile (t :: u :: rest)) :
    EndsFile (u :: rest) := by
  obtain ⟨before, same⟩ := ends
  cases before with
  | nil => cases same
  | cons v before =>
      rw [List.cons_append, List.cons.injEq] at same
      exact ⟨before, same.2⟩

theorem EndsFile.suffix {used rest : List Token} {close : Token}
    (ends : EndsFile (used ++ close :: rest)) (inside : close.kind ≠ .eof) : EndsFile rest := by
  induction used with
  | nil =>
      cases rest with
      | nil =>
          obtain ⟨before, same⟩ := ends
          cases before with
          | nil =>
              cases same
              exact absurd rfl inside
          | cons v before => simp at same
      | cons u rest => exact ends.tail
  | cons v used ih =>
      refine ih ?_
      cases parts : used ++ close :: rest with
      | nil => simp at parts
      | cons u more =>
          rw [List.cons_append, parts] at ends
          exact ends.tail

theorem EndsFile.single {t : Token} (ends : EndsFile [t]) : t = endOfFile := by
  obtain ⟨before, same⟩ := ends
  cases before with
  | nil =>
      cases same
      rfl
  | cons v before => simp at same

/-- An expansion that has passed its stop goes on to the end of the file. -/
theorem expandFrom_past {call : Macro → List Arg → Except Failure (List Token)}
    {stop fuel : Nat} {chain out : List Token} (ends : EndsFile chain)
    (past : chain.length < stop) (enough : chain.length ≤ fuel)
    (done : expandFrom macros call stop fuel chain = .ok out) : endOfFile ∈ out := by
  induction fuel generalizing chain out with
  | zero =>
      obtain ⟨before, rfl⟩ := ends
      simp at enough
  | succ fuel ih =>
      cases chain with
      | nil => exact absurd ends (by simp [EndsFile])
      | cons t next =>
          rw [List.length_cons] at past enough
          unfold expandFrom at done
          rw [if_neg (by omega)] at done
          cases next with
          | nil =>
              obtain rfl := ends.single
              have plain : calledMacro macros endOfFile = none := rfl
              rw [plain] at done
              obtain ⟨more, later, same⟩ := Except.of_bind_ok done
              cases same
              exact List.mem_cons_self
          | cons u rest =>
              rw [List.length_cons] at past enough
              have onward {more : List Token}
                  (later : expandFrom macros call stop fuel (u :: rest) = .ok more) :
                  endOfFile ∈ more :=
                ih ends.tail (by rw [List.length_cons]; omega) (by rw [List.length_cons]; omega)
                  later
              split at done
              · obtain ⟨more, later, same⟩ := Except.of_bind_ok done
                cases same
                exact List.mem_cons_of_mem t (onward later)
              · split at done
                · obtain ⟨expansion, made, done⟩ := Except.of_bind_ok done
                  obtain ⟨more, later, same⟩ := Except.of_bind_ok done
                  cases same
                  exact List.mem_append_right expansion (onward later)
                · dsimp only at done
                  split at done
                  · obtain ⟨collected, found, done⟩ := Except.of_bind_ok done
                    obtain ⟨_, used, close, parts, _, inside⟩ :=
                      collectFrom_sound (by simp) (Or.inl ⟨rfl, rfl⟩) found
                    split at done
                    · cases done
                    · obtain ⟨expansion, made, done⟩ := Except.of_bind_ok done
                      obtain ⟨more, later, same⟩ := Except.of_bind_ok done
                      cases same
                      refine List.mem_append_right expansion (ih ?_ ?_ ?_ later)
                      · have whole := ends.tail
                        rw [parts, ← List.cons_append] at whole
                        exact whole.suffix (by simp [insideLine] at inside; exact inside.1)
                      · have longer := congrArg List.length parts
                        simp only [List.length_append, List.length_cons] at longer
                        omega
                      · have longer := congrArg List.length parts
                        simp only [List.length_append, List.length_cons] at longer
                        omega
                  · obtain ⟨more, later, same⟩ := Except.of_bind_ok done
                    cases same
                    exact List.mem_cons_of_mem t (onward later)

/-- A line whose last token calls a macro with the next line is expanded past its end. -/
theorem expandFrom_overruns {call : Macro → List Arg → Except Failure (List Token)}
    {s tail out : List Token} (plain : ∀ t ∈ s.tail, insideLine t = true) (stops : Stops tail)
    (ends : EndsFile tail) {last : Token} (final : s.getLast? = some last)
    (opens : opensCall macros last = true) (word : tokIs last ")" = false)
    (opening : ∀ p ∈ tail.head?, tokIs p "(" = true) {fuel : Nat}
    (enough : (s ++ tail).length ≤ fuel)
    (done : expandFrom macros call tail.length fuel (s ++ tail) = .ok out) : endOfFile ∈ out := by
  induction size : s.length using Nat.strong_induction_on generalizing s fuel out with
  | h n ih =>
      cases s with
      | nil => cases final
      | cons t s =>
          obtain _ | fuel := fuel
          · simp at enough
          rw [List.length_cons] at size
          rw [List.cons_append, List.length_cons] at enough
          have further (early : List Token) {late more : List Token} (parts : s = early ++ late)
              (some : late ≠ [])
              (later : expandFrom macros call tail.length fuel (late ++ tail) = .ok more) :
              endOfFile ∈ more := by
            have whole : t :: s = (t :: early) ++ late := by rw [parts]; rfl
            rw [whole, List.getLast?_append_of_ne_nil _ some] at final
            have longer := congrArg List.length parts
            rw [List.length_append] at longer
            refine ih late.length (by omega) ?_ final ?_ later rfl
            · intro u member
              exact plain u (by
                rw [List.tail_cons, parts]
                exact List.mem_append_right early (List.mem_of_mem_tail member))
            · rw [List.length_append] at enough ⊢
              omega
          rw [List.cons_append] at done
          unfold expandFrom at done
          rw [if_neg (by rw [List.length_append]; omega)] at done
          cases s with
          | nil =>
              obtain rfl : t = last := by simpa using final
              obtain ⟨m, called, function⟩ := (Option.any_eq_true _ _).mp opens
              obtain ⟨params, shape⟩ := Option.isSome_iff_exists.mp function
              obtain ⟨p, inside, rfl, _⟩ := stops
              rw [List.nil_append, called] at done
              simp only [shape, opening p rfl, if_true] at done
              obtain ⟨collected, found, done⟩ := Except.of_bind_ok done
              obtain ⟨_, used, close, parts, _, inner⟩ :=
                collectFrom_sound (by simp) (Or.inl ⟨rfl, rfl⟩) found
              have longer := congrArg List.length parts
              simp only [List.length_append, List.length_cons] at longer
              split at done
              · cases done
              · obtain ⟨expansion, made, done⟩ := Except.of_bind_ok done
                obtain ⟨more, later, same⟩ := Except.of_bind_ok done
                cases same
                rw [List.nil_append, List.length_cons] at enough
                refine List.mem_append_right expansion (expandFrom_past ?_ ?_ ?_ later)
                · rw [parts, ← List.cons_append] at ends
                  exact ends.suffix (by simp [insideLine] at inner; exact inner.1)
                · rw [List.length_cons]
                  omega
                · omega
          | cons u rest =>
              have onward {more : List Token}
                  (later : expandFrom macros call tail.length fuel (u :: (rest ++ tail)) =
                    .ok more) : endOfFile ∈ more :=
                further [] rfl (by simp) later
              split at done
              · obtain ⟨more, later, same⟩ := Except.of_bind_ok done
                cases same
                exact List.mem_cons_of_mem t (onward later)
              · split at done
                · obtain ⟨expansion, made, done⟩ := Except.of_bind_ok done
                  obtain ⟨more, later, same⟩ := Except.of_bind_ok done
                  cases same
                  exact List.mem_append_right expansion (onward later)
                · dsimp only [List.cons_append] at done
                  split at done
                  · obtain ⟨collected, found, done⟩ := Except.of_bind_ok done
                    unfold collectArgs at found
                    have inner : ∀ v ∈ rest, insideLine v = true := fun v member =>
                      plain v (List.mem_cons_of_mem u member)
                    cases result : collectFrom 0 [] .empty rest with
                    | error failure =>
                        rw [collectFrom_stops inner stops result] at found
                        cases found
                    | ok within =>
                        have extended := collectFrom_append tail result
                        rw [List.map_nil, Arg.onto_empty, found] at extended
                        obtain ⟨used, close, parts, closing⟩ := collectFrom_closes result
                        have some : within.2 ≠ [] := by
                          intro none
                          rw [none] at parts
                          have same : t :: u :: rest = (t :: u :: used) ++ [close] := by
                            rw [parts]
                            rfl
                          rw [same, List.getLast?_concat, Option.some.injEq] at final
                          rw [final, word] at closing
                          cases closing
                        split at done
                        · cases done
                        · obtain ⟨expansion, made, done⟩ := Except.of_bind_ok done
                          obtain ⟨more, later, same⟩ := Except.of_bind_ok done
                          cases same
                          cases extended
                          refine List.mem_append_right expansion
                            (further (u :: used ++ [close]) ?_ some later)
                          rw [parts]
                          simp
                  · obtain ⟨more, later, same⟩ := Except.of_bind_ok done
                    cases same
                    exact List.mem_cons_of_mem t (onward later)

end Expansions

section Lines

variable {build : Build} {macros : MacroTable} {chain out : List Token}

structure Plain (build : Build) (t : Token) : Prop where
  proper : Proper build t
  kind : t.kind ≠ .eof
  paste : isPaste t = false

theorem stringize_proper (build : Build) (arg : Arg) : Proper build (stringize arg) := ⟨rfl, rfl⟩

theorem Bodies.made_proper (bodies : Bodies (Plain build) macros) :
    Made build (Proper build) macros :=
  ⟨stringize_proper build, Or.inl fun m member t found => (bodies m member t found).paste⟩

theorem Bodies.made_inside (bodies : Bodies (Plain build) macros) :
    Made build (fun t => t.kind ≠ .eof) macros :=
  ⟨fun arg => by simp [stringize, newToken],
    Or.inl fun m member t found => (bodies m member t found).paste⟩

def lineStart : Token := { newToken .punct [] 0 with atBol := true }

theorem lineTokens_plain (chain : List Token) :
    ∀ t ∈ (lineTokens chain).tail, insideLine t = true := by
  cases chain with
  | nil => simp [lineTokens]
  | cons t rest => exact fun u member => List.mem_takeWhile_imp member

theorem lineTokens_mem {t : Token} (member : t ∈ lineTokens chain) : t ∈ chain := by
  rw [← lineTokens_append chain]
  exact List.mem_append_left _ member

theorem lineTokens_kind (starts : ∀ t ∈ chain.head?, t.kind ≠ .eof) :
    ∀ t ∈ lineTokens chain, t.kind ≠ .eof := by
  cases chain with
  | nil => simp [lineTokens]
  | cons t rest =>
      intro u member
      rcases List.mem_cons.mp member with rfl | member
      · exact starts _ rfl
      · have inside := List.mem_takeWhile_imp member
        simp only [Bool.and_eq_true, decide_eq_true_eq] at inside
        exact inside.1

theorem expand_proper (bodies : Bodies (Plain build) macros) {stop : Nat}
    (good : ∀ t ∈ chain, Proper build t) (done : expand build macros stop chain = .ok out) :
    ∀ t ∈ out, Proper build t :=
  expandRange_all bodies.made_proper (fun m member t found => (bodies m member t found).proper)
    good done

theorem expand_inside (bodies : Bodies (Plain build) macros)
    (starts : ∀ t ∈ chain.head?, t.kind ≠ .eof) (stops : Stops (lineRest chain))
    (stays : overruns macros chain = false)
    (done : expand build macros (lineRest chain).length chain = .ok out) :
    ∀ t ∈ out, t.kind ≠ .eof := by
  have separate : Separate macros (lineTokens chain) (lineRest chain) := by
    intro last found opens p next
    simpa [overruns, found, opens, next] using stays
  have apart : Separate macros (lineTokens chain) [lineStart] := by
    intro last _ _ p next
    cases next
    rfl
  have expanded := expandRange_local build macros.length (lineTokens_plain chain)
    (Or.inr ⟨stops, lineStart, [], rfl, rfl⟩) separate apart
  rw [lineTokens_append] at expanded
  unfold expand at done
  rw [expanded] at done
  refine expandRange_all bodies.made_inside
    (fun m member t found => (bodies m member t found).kind) ?_ done
  intro t member
  rcases List.mem_append.mp member with member | member
  · exact lineTokens_kind starts t member
  · rw [List.mem_singleton.mp member]
    decide

theorem expand_overruns (good : ∀ t ∈ chain, Proper build t) (stops : Stops (lineRest chain))
    (ends : EndsFile (lineRest chain)) (past : overruns macros chain = true)
    (done : expand build macros (lineRest chain).length chain = .ok out) : endOfFile ∈ out := by
  simp only [overruns, Bool.and_eq_true] at past
  obtain ⟨last, final, opens⟩ := (Option.any_eq_true _ _).mp past.1
  obtain ⟨p, next, opening⟩ := (Option.any_eq_true _ _).mp past.2
  have word : tokIs last ")" = false := by
    have proper := good last (lineTokens_mem (List.mem_of_getLast? final))
    obtain ⟨m, called, _⟩ := (Option.any_eq_true _ _).mp opens
    by_contra closing
    simp only [tokIs, Bool.not_eq_false, Bool.and_eq_true, Bool.or_eq_true,
      decide_eq_true_eq] at closing
    unfold calledMacro at called
    split at called
    · rename_i ident
      simp only [tokIdent, Bool.or_eq_true, decide_eq_true_eq] at ident
      rcases ident with kind | kind
      · simp [kind] at closing
      · unfold Proper at proper
        rw [kind, closing.2] at proper
        exact absurd proper.1 (by decide)
    · cases called
  have range : expandRange build macros.length macros (lineRest chain).length
      (lineTokens chain ++ lineRest chain) = .ok out := by
    rw [lineTokens_append]
    exact done
  have opening : ∀ p ∈ (lineRest chain).head?, tokIs p "(" = true := by
    intro q found
    rw [next] at found
    cases found
    exact opening
  cases level : macros.length with
  | zero =>
      rw [level] at range
      exact expandFrom_overruns (lineTokens_plain chain) stops ends final opens word opening
        (Nat.le_refl _) range
  | succ level' =>
      rw [level] at range
      exact expandFrom_overruns (lineTokens_plain chain) stops ends final opens word opening
        (Nat.le_refl _) range

end Lines

section Definitions

variable {build : Build} {macros result : MacroTable} {chain : List Token} {P : Token → Prop}

theorem macroParams_mem {found : List (List Char) × List Token}
    (read : macroParams chain = .ok found) : ∀ t ∈ found.2, t ∈ chain := by
  induction size : chain.length using Nat.strong_induction_on generalizing chain found with
  | h n ih =>
      cases chain with
      | nil => cases read
      | cons t rest =>
          unfold macroParams at read
          split at read
          · cases read
          · cases rest with
            | nil => cases read
            | cons u more =>
                dsimp only at read
                split at read
                · obtain ⟨later, done, same⟩ := Except.of_map_ok read
                  cases same
                  intro v member
                  have inner := ih more.length (by simp at size; omega) done rfl v member
                  exact List.mem_cons_of_mem t (List.mem_cons_of_mem u inner)
                · split at read
                  · cases read
                    exact fun v member => List.mem_cons_of_mem t (List.mem_cons_of_mem u member)
                  · cases read

theorem macroHead_mem {name : Token} {found : Option (List (List Char)) × List Token}
    (read : macroHead name chain = .ok found) : ∀ t ∈ found.2, t ∈ chain := by
  unfold macroHead at read
  split at read
  · cases read
    simp
  · rename_i p inside
    split at read
    · split at read
      · cases read
      · rename_i t rest
        split at read
        · cases read
          exact fun u member => List.mem_cons_of_mem p (List.mem_cons_of_mem t member)
        · obtain ⟨later, done, same⟩ := Except.of_map_ok read
          cases same
          exact fun u member => List.mem_cons_of_mem p (macroParams_mem done u member)
    · cases read
      exact fun u member => member

theorem Bodies.delMacro (bodies : Bodies P macros) (name : List Char) :
    Bodies P (delMacro macros name) :=
  fun m member => bodies m (List.mem_of_mem_eraseP member)

theorem Bodies.addMacro (bodies : Bodies P macros) {m : Macro} (body : ∀ t ∈ m.body, P t) :
    Bodies P (addMacro macros m) := by
  intro n member
  rcases List.mem_cons.mp member with rfl | member
  · exact body
  · exact bodies.delMacro m.name n member

theorem doDefine_bodies (bodies : Bodies (Plain build) macros)
    (good : ∀ t ∈ chain, Proper build t ∧ isPaste t = false)
    (defined : doDefine macros chain = .ok result) : Bodies (Plain build) result := by
  unfold doDefine at defined
  split at defined
  · cases defined
  · rename_i name after
    split at defined
    · cases defined
    · obtain ⟨head, read, same⟩ := Except.of_bind_ok defined
      cases same
      refine bodies.addMacro ?_
      dsimp only
      split
      · simp
      · rename_i starts
        intro t member
        have within := macroHead_mem read t (lineTokens_mem member)
        obtain ⟨proper, paste⟩ := good t (List.mem_cons_of_mem name within)
        refine ⟨proper, lineTokens_kind ?_ t member, paste⟩
        intro u found
        rw [found] at starts
        simp only [Option.any_some, Bool.or_eq_true, decide_eq_true_eq, not_or] at starts
        exact starts.1

theorem doUndef_bodies (bodies : Bodies P macros) (removed : doUndef macros chain = .ok result) :
    Bodies P result := by
  unfold doUndef at removed
  split at removed
  · cases removed
  · split at removed
    · cases removed
    · cases removed
      exact bodies.delMacro _

def pasteFree (build : Build) (text : List Char) : Bool :=
  match tokenize build text with
  | .ok tokens => tokens.all fun t => !isPaste t
  | .error _ => true

theorem pasteFree_tokens {text : List Char} {tokens : List Token}
    (free : pasteFree build text = true) (lexed : tokenize build text = .ok tokens) :
    ∀ t ∈ tokens, isPaste t = false := by
  unfold pasteFree at free
  rw [lexed] at free
  simpa using free

def defineValue (argument : List Char) : List Char := (argument.dropWhile (· ≠ '=')).drop 1

theorem defineArgument_plain {argument : List Char} {m : Macro}
    (free : pasteFree build (defineValue argument) = true)
    (defined : defineArgument build argument = .ok m) : ∀ t ∈ m.body, Plain build t := by
  unfold defineArgument at defined
  dsimp only at defined
  split at defined
  · cases defined
  · split at defined
    · cases defined
      simp
    · obtain ⟨body, read, same⟩ := Except.of_bind_ok defined
      cases same
      intro t member
      have kind := List.mem_takeWhile_imp member
      have within := List.takeWhile_subset _ member
      exact ⟨tokenize_proper read t within, by simpa using kind,
        pasteFree_tokens free read t within⟩

theorem applyDefines_bodies {defines : List (List Char)}
    (free : ∀ argument ∈ defines, pasteFree build (defineValue argument) = true)
    (applied : applyDefines build defines = .ok result) : Bodies (Plain build) result := by
  have fold (defines : List (List Char)) (macros : MacroTable)
      (bodies : Bodies (Plain build) macros)
      (free : ∀ argument ∈ defines, pasteFree build (defineValue argument) = true)
      (applied : defines.foldlM (fun macros argument =>
        (defineArgument build argument).map (addMacro macros)) macros = .ok result) :
      Bodies (Plain build) result := by
    induction defines generalizing macros with
    | nil =>
        cases applied
        exact bodies
    | cons argument defines ih =>
        rw [List.foldlM_cons] at applied
        obtain ⟨next, first, later⟩ := Except.of_bind_ok applied
        obtain ⟨m, defined, same⟩ := Except.of_map_ok first
        cases same
        refine ih _ (bodies.addMacro ?_) (fun d member => free d (List.mem_cons_of_mem _ member))
          later
        exact defineArgument_plain (free argument List.mem_cons_self) defined
  exact fold defines [] (by simp [Bodies]) free applied

end Definitions

section Files

variable {env : PpEnv} {srcName : Option (List Char)} {nested : Option Nested}

/-- A selected text line that is read past its end. -/
def overrunsLine (state : PpState) (chain : List Token) : Bool :=
  match lineHead chain with
  | .text => !skipping state && overruns state.macros chain
  | _ => false

/-- A line of the file that `ppLoop` reads is read past its end. -/
def overrunsFile (env : PpEnv) (srcName : Option (List Char)) (nested : Option Nested) :
    Nat → PpState → List Token → Bool
  | 0, _, _ => false
  | _ + 1, _, [] => false
  | fuel + 1, state, t :: rest =>
      if t.kind = .eof then false
      else overrunsLine state (t :: rest) ||
        match ppLine env srcName nested state (t :: rest) with
        | .ok line => overrunsFile env srcName nested fuel line.2 (lineRest (t :: rest))
        | .error _ => false

structure Output (build : Build) (past : Bool) (read : List Token × PpState) : Prop where
  proper : ∀ t ∈ read.1, Proper build t
  inside : past = false → ∀ t ∈ read.1, t.kind ≠ .eof
  outside : past = true → endOfFile ∈ read.1
  bodies : Bodies (Plain build) read.2.macros

theorem Output.none {build : Build} {state : PpState} (bodies : Bodies (Plain build) state.macros) :
    Output build false ([], state) :=
  ⟨by simp, by simp, by simp, bodies⟩

theorem condPush_macros {state next : PpState} {skip taken : Bool}
    (pushed : condPush state skip taken = .ok next) : next.macros = state.macros := by
  unfold condPush at pushed
  split at pushed
  · cases pushed
  · cases pushed
    rfl

theorem doCondIf_macros {build : Build} {state next : PpState} {kind : CondKind}
    {chain : List Token} (read : doCondIf build state kind chain = .ok next) :
    next.macros = state.macros := by
  unfold doCondIf at read
  split at read
  · exact condPush_macros read
  · obtain ⟨value, _, pushed⟩ := Except.of_bind_ok read
    exact condPush_macros pushed

theorem doElif_macros {build : Build} {state next : PpState} {chain : List Token}
    (read : doElif build state chain = .ok next) : next.macros = state.macros := by
  unfold doElif at read
  split at read
  · cases read
  · split at read
    · cases read
      rfl
    · split at read
      · cases read
        rfl
      · obtain ⟨value, _, same⟩ := Except.of_map_ok read
        cases same
        rfl

theorem doElse_macros {state next : PpState} (read : doElse state = .ok next) :
    next.macros = state.macros := by
  unfold doElse at read
  split at read
  · cases read
  · split at read <;> cases read <;> rfl

theorem doEndif_macros {state next : PpState} (read : doEndif state = .ok next) :
    next.macros = state.macros := by
  unfold doEndif at read
  split at read <;> cases read
  rfl

/-- The texts of the files hold no `##`. -/
def FilesPlain (env : PpEnv) : Prop :=
  ∀ path content text, env.sources path = some content → phase12 content = .ok text →
    pasteFree env.build text = true

/-- What an included file gives to the file that includes it. -/
def NestedGood (env : PpEnv) (nested : Option Nested) : Prop :=
  ∀ call, nested = some call → ∀ path tokens state result,
    (∀ t ∈ tokens, Proper env.build t ∧ isPaste t = false) → EndsFile tokens →
    Bodies (Plain env.build) state.macros → call path tokens state = .ok result →
    (∀ t ∈ result.1, Proper env.build t) ∧ Bodies (Plain env.build) result.2.macros

theorem doInclude_output (files : FilesPlain env) (good : NestedGood env nested)
    {state : PpState} {chain : List Token} {read : List Token × PpState}
    (bodies : Bodies (Plain env.build) state.macros)
    (included : doInclude env srcName nested state chain = .ok read) :
    Output env.build false read := by
  obtain ⟨name, _, included⟩ := Except.of_bind_ok included
  split at included
  · cases included
  · rename_i path found
    split at included
    · cases included
    · rename_i call whole
      obtain ⟨text, spliced, included⟩ := Except.of_bind_ok included
      obtain ⟨tokens, lexed, included⟩ := Except.of_bind_ok included
      obtain ⟨result, called, same⟩ := Except.of_bind_ok included
      cases same
      have plain : ∀ t ∈ tokens, isPaste t = false := by
        cases content : env.sources path with
        | none =>
            rw [content] at spliced
            cases spliced
            cases lexed
            intro t member
            rw [List.mem_singleton.mp member]
            rfl
        | some content' =>
            rw [content] at spliced
            exact pasteFree_tokens (files path content' text content spliced) lexed
      obtain ⟨before, same, _⟩ := tokenize_end lexed
      obtain ⟨proper, after⟩ := good call rfl path tokens state result
        (fun t member => ⟨tokenize_proper lexed t member, plain t member⟩) ⟨before, same⟩ bodies
        called
      refine ⟨fun t member => proper t (List.takeWhile_subset _ member), ?_, by simp, after⟩
      intro _ t member
      simpa using List.mem_takeWhile_imp member

theorem runDirective_output (files : FilesPlain env) (good : NestedGood env nested)
    {state : PpState} {directive : DirectiveName} {name : Token} {after : List Token}
    {read : List Token × PpState} (bodies : Bodies (Plain env.build) state.macros)
    (plain : ∀ t ∈ after, Proper env.build t ∧ isPaste t = false)
    (run : runDirective env srcName nested state directive name after = .ok read) :
    Output env.build false read := by
  cases directive with
  | define =>
      obtain ⟨macros, defined, same⟩ := Except.of_map_ok run
      cases same
      exact .none (doDefine_bodies bodies plain defined)
  | undef =>
      obtain ⟨macros, removed, same⟩ := Except.of_map_ok run
      cases same
      exact .none (doUndef_bodies bodies removed)
  | «include» => exact doInclude_output files good bodies run
  | error => cases run
  | unknown => cases run
  | cond kind => cases run; exact .none bodies
  | elif => cases run; exact .none bodies
  | else_ => cases run; exact .none bodies
  | endif => cases run; exact .none bodies
  | pragma => cases run; exact .none bodies

theorem lineHead_directive {chain after : List Token} {name : Token}
    (head : lineHead chain = .directive name after) : ∃ hash, chain = hash :: name :: after := by
  unfold lineHead at head
  split at head
  · cases head
  · rename_i hash rest
    split at head
    · split at head
      · cases head
      · split at head
        · cases head
        · split at head
          · cases head
          · cases head
            exact ⟨hash, rfl⟩
    · cases head

theorem ppLine_output (files : FilesPlain env) (good : NestedGood env nested)
    {state : PpState} {t : Token} {rest : List Token} {read : List Token × PpState}
    (bodies : Bodies (Plain env.build) state.macros)
    (plain : ∀ u ∈ t :: rest, Proper env.build u ∧ isPaste u = false) (kind : t.kind ≠ .eof)
    (stops : Stops (lineRest (t :: rest))) (ends : EndsFile (lineRest (t :: rest)))
    (done : ppLine env srcName nested state (t :: rest) = .ok read) :
    Output env.build (overrunsLine state (t :: rest)) read := by
  unfold ppLine at done
  unfold overrunsLine
  cases head : lineHead (t :: rest) with
  | dangling =>
      rw [head] at done
      cases done
  | empty =>
      rw [head] at done
      dsimp only at done ⊢
      unfold runLine at done
      rw [head] at done
      split at done <;> cases done <;> exact .none bodies
  | text =>
      rw [head] at done
      dsimp only at done ⊢
      cases skipped : skipping state with
      | true =>
          rw [skipped] at done
          cases done
          exact .none bodies
      | false =>
          rw [skipped] at done
          simp only [Bool.false_eq_true, if_false, runLine, head] at done
          obtain ⟨out, expanded, same⟩ := Except.of_map_ok done
          cases same
          have proper := fun u member => (plain u member).1
          refine ⟨expand_proper bodies proper expanded, ?_, ?_, bodies⟩
          · intro stays
            exact expand_inside bodies (by simpa using kind) stops (by simpa using stays) expanded
          · intro past
            exact expand_overruns proper stops ends (by simpa using past) expanded
  | directive name after =>
      rw [head] at done
      dsimp only at done ⊢
      have conditional {result : Except Failure PpState} {read : List Token × PpState}
          (same : ∀ next, result = .ok next → next.macros = state.macros)
          (done : result.map (fun state => (([] : List Token), state)) = .ok read) :
          Output env.build false read := by
        obtain ⟨next, found, equal⟩ := Except.of_map_ok done
        cases equal
        exact .none (by rw [same next found]; exact bodies)
      have other (done : (if skipping state then .ok ([], state)
          else runLine env srcName nested state (t :: rest)) = .ok read) :
          Output env.build false read := by
        split at done
        · cases done
          exact .none bodies
        · unfold runLine at done
          rw [head] at done
          obtain ⟨hash, same⟩ := lineHead_directive head
          refine runDirective_output files good bodies (fun u member => plain u ?_) done
          rw [same]
          exact List.mem_cons_of_mem hash (List.mem_cons_of_mem name member)
      split at done
      · exact conditional (fun next => doCondIf_macros) done
      · exact conditional (fun next => doElif_macros) done
      · exact conditional (fun next => doElse_macros) done
      · exact conditional (fun next => doEndif_macros) done
      · exact other done

theorem ppLoop_output (files : FilesPlain env) (good : NestedGood env nested) {fuel : Nat}
    {state : PpState} {chain : List Token} {read : List Token × PpState}
    (bodies : Bodies (Plain env.build) state.macros)
    (plain : ∀ t ∈ chain, Proper env.build t ∧ isPaste t = false) (ends : EndsFile chain)
    (done : ppLoop env srcName nested fuel state chain = .ok read) :
    Output env.build (overrunsFile env srcName nested fuel state chain) read := by
  induction fuel generalizing state chain read with
  | zero =>
      cases done
      exact .none bodies
  | succ fuel ih =>
      cases chain with
      | nil => cases done
      | cons t rest =>
          unfold ppLoop at done
          unfold overrunsFile
          split at done
          · rename_i last
            cases done
            rw [if_pos last]
            exact .none bodies
          · rename_i kind
            obtain ⟨line, first, done⟩ := Except.of_bind_ok done
            obtain ⟨later, others, same⟩ := Except.of_bind_ok done
            cases same
            obtain ⟨stops, ending⟩ := ends.rest kind
            have one := ppLine_output files good bodies plain kind stops ending first
            have within : ∀ u ∈ lineRest (t :: rest), u ∈ t :: rest := fun u member => by
              rw [← lineTokens_append (t :: rest)]
              exact List.mem_append_right _ member
            have more := ih one.bodies (fun u member => plain u (within u member)) ending others
            rw [if_neg kind, first]
            dsimp only
            refine ⟨?_, ?_, ?_, more.bodies⟩
            · intro u member
              exact (List.mem_append.mp member).elim (one.proper u) (more.proper u)
            · intro stays u member
              rw [Bool.or_eq_false_iff] at stays
              exact (List.mem_append.mp member).elim (one.inside stays.1 u) (more.inside stays.2 u)
            · intro past
              rw [Bool.or_eq_true] at past
              rcases past with past | past
              · exact List.mem_append_left _ (one.outside past)
              · exact List.mem_append_right _ (more.outside past)

end Files

section Merging

variable {build : Build} {chain : List Token}

theorem mergeInto_all {P : Token → Prop} (joined : ∀ t str len, t.kind = .str → P t →
    P { t with str := str, len := len }) {t : Token} (first : P t) (good : ∀ u ∈ chain, P u) :
    ∀ u ∈ mergeInto t chain, P u := by
  unfold mergeInto
  split
  · simpa using first
  · rename_i s rest
    split
    · rename_i strings
      intro u member
      rcases List.mem_cons.mp member with rfl | member
      · exact joined t _ _ strings.1 first
      · exact good u (List.mem_cons_of_mem s member)
    · intro u member
      rcases List.mem_cons.mp member with rfl | member
      · exact first
      · exact good u member

theorem mergeAdjacentStrings_all {P : Token → Prop} (joined : ∀ t str len, t.kind = .str → P t →
    P { t with str := str, len := len }) (good : ∀ t ∈ chain, P t) :
    ∀ t ∈ mergeAdjacentStrings chain, P t := by
  induction chain with
  | nil => simp [mergeAdjacentStrings]
  | cons t rest ih =>
      exact mergeInto_all joined (good t List.mem_cons_self)
        (ih fun u member => good u (List.mem_cons_of_mem t member))

theorem mergeAdjacentStrings_proper (good : ∀ t ∈ chain, Proper build t) :
    ∀ t ∈ mergeAdjacentStrings chain, Proper build t := by
  refine mergeAdjacentStrings_all ?_ good
  intro t str len kind proper
  unfold Proper at proper ⊢
  rw [kind] at proper
  dsimp only
  rw [kind]
  exact proper

theorem endOfFile_merged (member : endOfFile ∈ chain) :
    endOfFile ∈ mergeAdjacentStrings chain := by
  have stays (t : Token) (rest : List Token) (found : endOfFile ∈ t :: rest) :
      endOfFile ∈ mergeInto t rest := by
    unfold mergeInto
    split
    · exact found
    · rename_i s more
      split
      · rename_i strings
        rcases List.mem_cons.mp found with rfl | found
        · cases strings.1
        · rcases List.mem_cons.mp found with rfl | found
          · cases strings.2
          · exact List.mem_cons_of_mem _ found
      · exact found
  induction chain with
  | nil => cases member
  | cons t rest ih =>
      refine stays t _ ?_
      rcases List.mem_cons.mp member with rfl | member
      · exact List.mem_cons_self
      · exact List.mem_cons_of_mem t (ih member)

theorem mergeInto_last (t : Token) (chain : List Token) :
    (mergeInto t chain).getLast?.map Token.kind = (t :: chain).getLast?.map Token.kind := by
  unfold mergeInto
  split
  · rfl
  · rename_i s rest
    split
    · rename_i strings
      cases rest with
      | nil => simp [strings.1, strings.2]
      | cons u more => simp [List.getLast?_cons_cons]
    · rfl

/-- The last token of a chain keeps its kind. -/
theorem mergeAdjacentStrings_last (chain : List Token) :
    (mergeAdjacentStrings chain).getLast?.map Token.kind = chain.getLast?.map Token.kind := by
  induction chain with
  | nil => rfl
  | cons t rest ih =>
      change (mergeInto t (mergeAdjacentStrings rest)).getLast?.map Token.kind = _
      rw [mergeInto_last, List.getLast?_cons, List.getLast?_cons, Option.map_some, Option.map_some]
      cases inner : rest.getLast? with
      | none =>
          rw [inner, Option.map_none, Option.map_eq_none_iff] at ih
          rw [ih]
      | some last =>
          rw [inner, Option.map_some] at ih
          obtain ⟨u, found, same⟩ := Option.map_eq_some_iff.mp ih
          rw [found]
          exact congrArg some same

theorem endsInStrings_last (ends : endsInStrings chain = true) :
    ∃ t, chain.getLast? = some t ∧ t.kind = .str := by
  unfold endsInStrings at ends
  split at ends
  · rename_i t s rest parts
    refine ⟨t, ?_, by simpa using (Bool.and_eq_true_iff.mp ends).1⟩
    rw [← List.head?_reverse, parts]
    rfl
  · cases ends

theorem closeChain_last (ends : endsInStrings chain = true) :
    ∃ t, (closeChain chain).getLast? = some t ∧ t.kind = .str := by
  obtain ⟨t, last, kind⟩ := endsInStrings_last ends
  have same := mergeAdjacentStrings_last chain
  rw [last] at same
  obtain ⟨u, found, equal⟩ := Option.map_eq_some_iff.mp same
  refine ⟨u, ?_, equal.trans kind⟩
  unfold closeChain
  rw [if_pos ends]
  exact found

theorem closeChain_proper (good : ∀ t ∈ chain, Proper build t) :
    ∀ t ∈ closeChain chain, Proper build t := by
  have merged := mergeAdjacentStrings_proper good
  unfold closeChain
  split
  · exact merged
  · intro t member
    rcases List.mem_append.mp member with member | member
    · exact merged t member
    · rw [List.mem_singleton.mp member]
      trivial

end Merging

theorem nestedGood_none (env : PpEnv) : NestedGood env none := nofun

theorem ppIncluded_good {env : PpEnv} (files : FilesPlain env) (depth : Nat) :
    NestedGood env (some (ppIncluded env depth)) := by
  have level {path : List Char} {nested : Option Nested} {tokens : List Token} {state : PpState}
      {result : List Token × PpState} (good : NestedGood env nested)
      (plain : ∀ t ∈ tokens, Proper env.build t ∧ isPaste t = false) (ends : EndsFile tokens)
      (bodies : Bodies (Plain env.build) state.macros)
      (called : (ppLoop env (some path) nested (tokens.length + 1) state tokens).map
        (fun read => (closeChain read.1, read.2)) = .ok result) :
      (∀ t ∈ result.1, Proper env.build t) ∧ Bodies (Plain env.build) result.2.macros := by
    obtain ⟨read, done, same⟩ := Except.of_map_ok called
    cases same
    have output := ppLoop_output files good bodies plain ends done
    exact ⟨closeChain_proper output.proper, output.bodies⟩
  induction depth with
  | zero =>
      rintro _ ⟨⟩ path tokens state result plain ends bodies called
      exact level (nestedGood_none env) plain ends bodies called
  | succ depth ih =>
      rintro _ ⟨⟩ path tokens state result plain ends bodies called
      exact level ih plain ends bodies called

/-- Printed and read again, the chain has the same tokens. -/
def RoundTrip (build : Build) (tokens : List Token) : Prop :=
  ∃ read, tokenize build (unparse build tokens) = .ok read ∧ List.Forall₂ SameToken tokens read

theorem SameToken.refl (t : Token) : SameToken t t := ⟨rfl, rfl, rfl, rfl, fun _ => rfl⟩

theorem roundTrip_iff {build : Build} {tokens : List Token}
    (proper : ∀ t ∈ tokens, Proper build t) :
    RoundTrip build (tokens ++ [endOfFile]) ↔ ∀ t ∈ tokens, t.kind ≠ .eof := by
  have proper' : ∀ t ∈ tokens ++ [endOfFile], Proper build t := by
    intro t member
    rcases List.mem_append.mp member with member | member
    · exact proper t member
    · rw [List.mem_singleton.mp member]
      trivial
  obtain ⟨read, lexed, pairs⟩ := tokenize_unparse proper'
  constructor
  · rintro ⟨read', lexed', pairs'⟩
    rw [lexed, Except.ok.injEq] at lexed'
    subst lexed'
    have length := pairs.length_eq
    have length' := pairs'.length_eq
    rw [List.length_append, List.length_append, List.length_singleton, List.length_singleton]
      at length'
    have cut := List.prefix_iff_eq_take.mp
      (List.takeWhile_prefix (fun t : Token => decide (t.kind ≠ .eof)) (l := tokens ++ [endOfFile]))
    rw [length, show read.length = tokens.length by omega, List.take_left] at cut
    intro t member
    rw [← cut] at member
    simpa using List.mem_takeWhile_imp member
  · intro inside
    refine ⟨_, lexed, ?_⟩
    have whole : (tokens ++ [endOfFile]).takeWhile (fun t => decide (t.kind ≠ .eof)) = tokens := by
      rw [List.takeWhile_append_of_pos (by simpa using inside)]
      simp [endOfFile, newToken]
    rw [whole] at pairs
    exact List.rel_append pairs (List.Forall₂.cons (SameToken.refl _) .nil)

/-- A chain read from a text ends with the end of the file, which is no string. -/
theorem RoundTrip.last {build : Build} {tokens : List Token} {t : Token}
    (whole : RoundTrip build tokens) (last : tokens.getLast? = some t) : t.kind = .eof := by
  obtain ⟨read, lexed, pairs⟩ := whole
  obtain ⟨before, rfl, _⟩ := tokenize_end lexed
  have backward := List.rel_reverse pairs
  rw [List.reverse_append, List.reverse_singleton, List.singleton_append] at backward
  rw [← List.head?_reverse] at last
  cases parts : tokens.reverse with
  | nil => simp [parts] at last
  | cons u more =>
      rw [parts] at backward last
      cases last
      cases backward with
      | cons same _ => exact same.kind

/-- Nothing that is read has the operator `##`, after splices and comments. -/
structure WithoutPaste (env : PpEnv) (defines : List (List Char)) (src : List Char) : Prop where
  text : ∀ text, phase12 src = .ok text → pasteFree env.build text = true
  files : FilesPlain env
  defines : ∀ argument ∈ defines, pasteFree env.build (defineValue argument) = true

/-- A selected line of the text ends in the name of a function macro, and the next line begins
with a parenthesis. -/
def overrunsSource (env : PpEnv) (srcName : Option (List Char)) (defines : List (List Char))
    (src : List Char) : Bool :=
  match (phase12 src).bind (tokenize env.build), applyDefines env.build defines with
  | .ok tokens, .ok macros =>
      overrunsFile env srcName (some (ppIncluded env (maxIncludes - 1))) (tokens.length + 1)
        { macros, conds := [] } tokens
  | _, _ => false

/-- The last two tokens that the selected lines of the text are expanded to are strings. -/
def stringsEndSource (env : PpEnv) (srcName : Option (List Char)) (defines : List (List Char))
    (src : List Char) : Bool :=
  match (phase12 src).bind (tokenize env.build), applyDefines env.build defines with
  | .ok tokens, .ok macros =>
      match ppLoop env srcName (some (ppIncluded env (maxIncludes - 1))) (tokens.length + 1)
          { macros, conds := [] } tokens with
      | .ok read => endsInStrings read.1
      | .error _ => false
  | _, _ => false

/-- What the lines of an accepted text are expanded to has another end of the file where a line is
read past its end. -/
theorem preprocessSourceText_output {env : PpEnv} {srcName : Option (List Char)}
    {defines : List (List Char)} {src : List Char} {tokens : List Token}
    (plain : WithoutPaste env defines src)
    (accepted : preprocessSourceText env srcName defines src = .ok tokens) :
    ∃ out, tokens = closeChain out ∧ stringsEndSource env srcName defines src = endsInStrings out ∧
      (∀ t ∈ out, Proper env.build t) ∧
      (overrunsSource env srcName defines src = false → ∀ t ∈ out, t.kind ≠ .eof) ∧
      (overrunsSource env srcName defines src = true → endOfFile ∈ out) := by
  obtain ⟨text, spliced, accepted⟩ := Except.of_bind_ok accepted
  obtain ⟨chain, lexed, accepted⟩ := Except.of_bind_ok accepted
  obtain ⟨macros, applied, accepted⟩ := Except.of_bind_ok accepted
  obtain ⟨read, done, accepted⟩ := Except.of_bind_ok accepted
  have free := pasteFree_tokens (plain.text text spliced) lexed
  obtain ⟨start, same, _⟩ := tokenize_end lexed
  have output := ppLoop_output plain.files (ppIncluded_good plain.files (maxIncludes - 1))
    (applyDefines_bodies plain.defines applied)
    (fun t member => ⟨tokenize_proper lexed t member, free t member⟩) ⟨start, same⟩ done
  have past : overrunsSource env srcName defines src =
      overrunsFile env srcName (some (ppIncluded env (maxIncludes - 1))) (chain.length + 1)
        { macros, conds := [] } chain := by
    simp only [overrunsSource, spliced, Except.bind, lexed, applied]
  refine ⟨read.1, ?_, ?_, output.proper, ?_, ?_⟩
  · dsimp only at accepted
    split at accepted
    · cases accepted
    · cases accepted
      rfl
  · simp only [stringsEndSource, spliced, Except.bind, lexed, applied, done]
  · rw [past]
    exact output.inside
  · rw [past]
    exact output.outside

theorem closeChain_roundTrip {build : Build} {out : List Token}
    (proper : ∀ t ∈ out, Proper build t) :
    RoundTrip build (closeChain out) ↔
      endsInStrings out = false ∧ ∀ t ∈ mergeAdjacentStrings out, t.kind ≠ .eof := by
  cases ends : endsInStrings out with
  | true =>
      obtain ⟨t, last, kind⟩ := closeChain_last ends
      constructor
      · intro whole
        have other := whole.last last
        rw [kind] at other
        cases other
      · exact fun apart => absurd apart.1 Bool.noConfusion
  | false =>
      have closed : closeChain out = mergeAdjacentStrings out ++ [endOfFile] := by
        simp [closeChain, ends]
      rw [closed, roundTrip_iff (mergeAdjacentStrings_proper proper)]
      exact ⟨fun inside => ⟨rfl, inside⟩, And.right⟩

theorem unparse_round_trip_iff (env : PpEnv) (srcName : Option (List Char))
    (defines : List (List Char)) (src : List Char) (tokens : List Token)
    (plain : WithoutPaste env defines src)
    (accepted : preprocessSourceText env srcName defines src = .ok tokens) :
    RoundTrip env.build tokens ↔ overrunsSource env srcName defines src = false ∧
      stringsEndSource env srcName defines src = false := by
  obtain ⟨out, rfl, strings, proper, inside, past⟩ := preprocessSourceText_output plain accepted
  rw [closeChain_roundTrip proper, strings]
  constructor
  · rintro ⟨apart, plain⟩
    refine ⟨?_, apart⟩
    rw [← Bool.not_eq_true]
    exact fun overrun => plain _ (endOfFile_merged (past overrun)) rfl
  · rintro ⟨stays, apart⟩
    exact ⟨apart, mergeAdjacentStrings_all (fun t str len kind other => other) (inside stays)⟩

def spelledText : List Char :=
  "#define s(x) #x \"1\" x\n#define e(x) -x\ns(a\"\\n\"b) 'q' 0x10u e(-1) <<=\n".toList

theorem withoutPaste_host {src : List Char}
    (free : ((phase12 src).toOption.all fun text => pasteFree .host text) = true) :
    WithoutPaste hostEnv [] src := by
  refine ⟨?_, nofun, by simp⟩
  intro text spliced
  rw [spliced] at free
  exact free

theorem spelledText_round_trip : ∃ tokens,
    preprocessSourceText hostEnv none [] spelledText = .ok tokens ∧ RoundTrip .host tokens := by
  have accepted : (preprocessSourceText hostEnv none [] spelledText).toOption.isSome = true := by
    decide +kernel
  obtain ⟨tokens, done⟩ := Option.isSome_iff_exists.mp accepted
  exact ⟨tokens, Except.of_toOption done,
    (unparse_round_trip_iff hostEnv none [] spelledText tokens
      (withoutPaste_host (by decide +kernel)) (Except.of_toOption done)).mpr
      ⟨by decide +kernel, by decide +kernel⟩⟩

/-- The tokens of the text end in its midst. -/
theorem overrunText_no_round_trip : WithoutPaste hostEnv [] overrunText ∧ ∃ tokens,
    preprocessSourceText hostEnv none [] overrunText = .ok tokens ∧ ¬RoundTrip .host tokens := by
  have plain : WithoutPaste hostEnv [] overrunText := withoutPaste_host (by decide +kernel)
  have accepted : (preprocessSourceText hostEnv none [] overrunText).toOption.isSome = true := by
    decide +kernel
  obtain ⟨tokens, done⟩ := Option.isSome_iff_exists.mp accepted
  refine ⟨plain, tokens, Except.of_toOption done, ?_⟩
  obtain ⟨out, rfl, _, proper, _, past⟩ :=
    preprocessSourceText_output plain (Except.of_toOption done)
  intro whole
  exact ((closeChain_roundTrip proper).mp whole).2 _
    (endOfFile_merged (past (by decide +kernel))) rfl

/-- The second string takes the end of the file with it. -/
example : (preprocessSourceText hostEnv none [] "\"a\" \"b\"\n".toList).toOption.map
    (List.map Token.kind) = some [.str] := by decide +kernel

end SymphonyPlus
