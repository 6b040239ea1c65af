import SymphonyPlus.StatementBuild

/-! The numbers the parser gives to labels and cases: none is given twice, and every label of an
allowed body is defined in the end. -/

namespace SymphonyPlus.Statements

def Parser.nums (p : Parser) : List (String × Nat) := p.lbls.map fun e => (e.name, e.num)

def Parser.definedNames (p : Parser) : List String := (p.lbls.filter (·.defined)).map LblEnt.name

structure Parser.Ok (p : Parser) : Prop where
  names : (p.nums.map Prod.fst).Nodup
  values : (p.nums.map Prod.snd).Nodup
  below : ∀ x ∈ p.nums, x.2 < p.lblNum

structure Extends (p p' : Parser) : Prop where
  nums : p.nums ⊆ p'.nums
  new : ∀ x ∈ p'.nums, x ∈ p.nums ∨ p.lblNum ≤ x.2
  lblNum : p.lblNum ≤ p'.lblNum
  bytes : p.localsBytes ≤ p'.localsBytes
  defined : p.definedNames ⊆ p'.definedNames
  ok : p.Ok → p'.Ok

theorem Extends.refl (p : Parser) : Extends p p :=
  ⟨fun _ h => h, fun _ h => .inl h, Nat.le_refl _, Nat.le_refl _, fun _ h => h, id⟩

theorem Extends.trans {p p₁ p₂ : Parser} (one : Extends p p₁) (two : Extends p₁ p₂) :
    Extends p p₂ where
  nums := fun _ member => two.nums (one.nums member)
  new := by
    intro x member
    rcases two.new x member with old | later
    · exact one.new x old
    · exact .inr (one.lblNum.trans later)
  lblNum := one.lblNum.trans two.lblNum
  bytes := one.bytes.trans two.bytes
  defined := fun _ member => two.defined (one.defined member)
  ok := fun ok => two.ok (one.ok ok)

theorem Extends.of_same {p p' : Parser} (lbls : p'.lbls = p.lbls) (lblNum : p.lblNum ≤ p'.lblNum)
    (bytes : p.localsBytes ≤ p'.localsBytes) : Extends p p' := by
  have nums : p'.nums = p.nums := by rw [Parser.nums, lbls, Parser.nums]
  refine ⟨nums ▸ fun _ h => h, fun x h => .inl (nums ▸ h), lblNum, bytes, ?_, fun ok => ?_⟩
  · rw [Parser.definedNames, Parser.definedNames, lbls]
    exact fun _ h => h
  · exact ⟨nums ▸ ok.names, nums ▸ ok.values, fun x h => (ok.below x (nums ▸ h)).trans_le lblNum⟩

theorem extends_addCase (p : Parser) (value : Option Nat) : Extends p (p.addCase value) :=
  .of_same rfl (Nat.le_succ _) (Nat.le_refl _)

theorem define_nums (p : Parser) (num : Nat) : (p.define num).nums = p.nums := by
  simp only [Parser.nums, Parser.define, List.map_map]
  apply List.map_congr_left
  intro e _
  simp only [Function.comp_apply]
  split <;> rfl

theorem extends_define (p : Parser) (num : Nat) : Extends p (p.define num) where
  nums := by rw [define_nums]; exact fun _ h => h
  new := by rw [define_nums]; exact fun _ h => .inl h
  lblNum := Nat.le_refl _
  bytes := Nat.le_refl _
  defined := by
    intro name member
    obtain ⟨e, kept, rfl⟩ := List.mem_map.mp member
    obtain ⟨old, defined⟩ := List.mem_filter.mp kept
    refine List.mem_map.mpr ⟨if e.num = num then { e with defined := true } else e,
      List.mem_filter.mpr ⟨List.mem_map_of_mem old, ?_⟩, ?_⟩
    · split <;> simp_all
    · split <;> rfl
  ok := fun ok => ⟨define_nums p num ▸ ok.names, define_nums p num ▸ ok.values,
    fun x h => ok.below x (define_nums p num ▸ h)⟩

theorem labelOf_mem (p : Parser) (name : String) :
    (name, (p.labelOf name).1) ∈ (p.labelOf name).2.nums := by
  unfold Parser.labelOf
  split
  · rename_i e found
    have same : e.name = name := by simpa using List.find?_some found
    exact List.mem_map.mpr ⟨e, List.mem_of_find?_eq_some found, by rw [same]⟩
  · exact List.mem_cons_self

theorem extends_labelOf (p : Parser) (name : String) : Extends p (p.labelOf name).2 := by
  unfold Parser.labelOf
  split
  · exact .refl p
  · rename_i absent
    have unused : name ∉ p.nums.map Prod.fst := by
      intro member
      obtain ⟨x, inNums, rfl⟩ := List.mem_map.mp member
      obtain ⟨e, inLbls, rfl⟩ := List.mem_map.mp inNums
      exact absurd (List.find?_eq_none.mp absent e inLbls) (by simp)
    refine ⟨fun _ h => List.mem_cons_of_mem _ h, ?_, Nat.le_succ _, Nat.le_refl _, fun _ h => h, ?_⟩
    · intro x member
      rcases List.mem_cons.mp member with rfl | old
      · exact .inr (Nat.le_refl _)
      · exact .inl old
    · intro ok
      have later : p.lblNum ∉ p.nums.map Prod.snd := by
        intro member
        obtain ⟨x, inNums, same⟩ := List.mem_map.mp member
        have := ok.below x inNums
        omega
      refine ⟨List.nodup_cons.mpr ⟨unused, ok.names⟩, List.nodup_cons.mpr ⟨later, ok.values⟩, ?_⟩
      intro x member
      rcases List.mem_cons.mp member with rfl | old
      · exact Nat.lt_succ_self _
      · exact (ok.below x old).trans (Nat.lt_succ_self _)

theorem build_extends (ss : List Stmt) : ∀ p : Parser, Extends p (build ss p).2 := by
  induction ss using stmts_induction with
  | nil => exact .refl
  | empty rest ih => exact ih
  | expr e rest ih => exact ih
  | block items rest ihItems ihRest => exact fun p => (ihItems p).trans (ihRest _)
  | ifThen cond s rest ihBody ihRest =>
      exact fun p => (build_single s p ▸ ihBody p).trans (ihRest _)
  | ifElse cond s o rest ihBody ihOther ihRest =>
      intro p
      have body := build_single s p ▸ ihBody p
      have other := build_single o _ ▸ ihOther (s.build p).2
      exact (body.trans other).trans (ihRest _)
  | whileLoop cond s rest ihBody ihRest =>
      exact fun p => (build_single s p ▸ ihBody p).trans (ihRest _)
  | forLoop init test inc s rest ihBody ihRest =>
      exact fun p => (build_single s p ▸ ihBody p).trans (ihRest _)
  | doWhile s cond rest ihBody ihRest =>
      exact fun p => (build_single s p ▸ ihBody p).trans (ihRest _)
  | «switch» cond s rest ihBody _ _ ihRest =>
      intro p
      have enter : Extends p p.enterSwitch := .of_same rfl (Nat.le_refl _) (Nat.le_refl _)
      have body := build_single s _ ▸ ihBody p.enterSwitch
      have leave : Extends (s.build p.enterSwitch).2 (s.build p.enterSwitch).2.leaveSwitch :=
        .of_same rfl (Nat.le_refl _) (Nat.le_add_right _ _)
      exact ((enter.trans body).trans leave).trans (ihRest _)
  | case value s rest _ ih => exact fun p => (extends_addCase p (some value)).trans (ih _)
  | default s rest _ ih => exact fun p => (extends_addCase p none).trans (ih _)
  | label name s rest ihBody ihRest _ =>
      intro p
      have named := (extends_labelOf p name).trans (extends_define _ (p.labelOf name).1)
      have body := build_single s _ ▸ ihBody ((p.labelOf name).2.define (p.labelOf name).1)
      exact (named.trans body).trans (ihRest _)
  | breakOut rest ih => exact ih
  | continueLoop rest ih => exact ih
  | goto name rest ih => exact fun p => (extends_labelOf p name).trans (ih _)
  | returnValue e rest ih => exact ih

/-! Which names are in the table, and which of them are defined. -/

theorem define_defined (p : Parser) (name : String) :
    name ∈ ((p.labelOf name).2.define (p.labelOf name).1).definedNames := by
  obtain ⟨e, member, same⟩ := List.mem_map.mp (labelOf_mem p name)
  simp only [Prod.mk.injEq] at same
  refine List.mem_map.mpr ⟨{ e with defined := true }, List.mem_filter.mpr ⟨?_, rfl⟩, same.1⟩
  exact List.mem_map.mpr ⟨e, member, by rw [if_pos same.2]⟩

theorem labelOf_names {p : Parser} {name x : String}
    (member : x ∈ (p.labelOf name).2.nums.map Prod.fst) :
    x ∈ p.nums.map Prod.fst ∨ x = name := by
  unfold Parser.labelOf at member
  split at member
  · exact .inl member
  · exact (List.mem_cons.mp member).symm

/-- Parsing defines the labels of the statements and mentions no other names. -/
def Names (ss : List Stmt) (p p' : Parser) : Prop :=
  labels ss ⊆ p'.definedNames ∧
    ∀ x ∈ p'.nums.map Prod.fst, x ∈ p.nums.map Prod.fst ∨ x ∈ labels ss ∨ x ∈ gotos ss

theorem Names.append {first second : List Stmt} {p q r : Parser} (one : Names first p q)
    (two : Names second q r) (later : Extends q r) (whole : List Stmt)
    (labelsEq : labels whole = labels first ++ labels second)
    (gotosEq : gotos whole = gotos first ++ gotos second) : Names whole p r := by
  refine ⟨?_, fun x member => ?_⟩
  · rw [labelsEq]
    exact List.append_subset.mpr ⟨fun _ h => later.defined (one.1 h), two.1⟩
  · rw [labelsEq, gotosEq, List.mem_append, List.mem_append]
    rcases two.2 x member with old | inLabels | inGotos
    · rcases one.2 x old with older | inLabels | inGotos
      · exact .inl older
      · exact .inr (.inl (.inl inLabels))
      · exact .inr (.inr (.inl inGotos))
    · exact .inr (.inl (.inr inLabels))
    · exact .inr (.inr (.inr inGotos))

theorem Names.of_same {p p' : Parser} (same : p'.lbls = p.lbls) : Names [] p p' := by
  refine ⟨by simp [labels], fun x member => .inl ?_⟩
  rwa [Parser.nums, same] at member

theorem build_names (ss : List Stmt) : ∀ p : Parser, Names ss p (build ss p).2 := by
  induction ss using stmts_induction with
  | nil => exact fun p => .of_same rfl
  | empty rest ih => exact ih
  | expr e rest ih => exact ih
  | block items rest ihItems ihRest =>
      exact fun p => (ihItems p).append (ihRest _) (build_extends rest _) _ rfl rfl
  | ifThen cond s rest ihBody ihRest =>
      intro p
      exact (build_single s p ▸ ihBody p).append (ihRest _) (build_extends rest _) _
        (by simp [labels, Stmt.labels]) (by simp [gotos, Stmt.gotos])
  | ifElse cond s o rest ihBody ihOther ihRest =>
      intro p
      have other := build_single o _ ▸ ihOther (s.build p).2
      have both : Names [s, o] p (o.build (s.build p).2).2 :=
        (build_single s p ▸ ihBody p).append other (build_single o _ ▸ build_extends [o] _) _
          (by simp [labels]) (by simp [gotos])
      exact both.append (ihRest _) (build_extends rest _) _ (by simp [labels, Stmt.labels])
        (by simp [gotos, Stmt.gotos])
  | whileLoop cond s rest ihBody ihRest =>
      intro p
      exact (build_single s p ▸ ihBody p).append (ihRest _) (build_extends rest _) _
        (by simp [labels, Stmt.labels]) (by simp [gotos, Stmt.gotos])
  | forLoop init test inc s rest ihBody ihRest =>
      intro p
      exact (build_single s p ▸ ihBody p).append (ihRest _) (build_extends rest _) _
        (by simp [labels, Stmt.labels]) (by simp [gotos, Stmt.gotos])
  | doWhile s cond rest ihBody ihRest =>
      intro p
      exact (build_single s p ▸ ihBody p).append (ihRest _) (build_extends rest _) _
        (by simp [labels, Stmt.labels]) (by simp [gotos, Stmt.gotos])
  | «switch» cond s rest ihBody _ _ ihRest =>
      intro p
      have body := build_single s _ ▸ ihBody p.enterSwitch
      exact Names.append (q := ((Stmt.switch cond s).build p).2) body (ihRest _)
        (build_extends rest _) _ (by simp [labels, Stmt.labels]) (by simp [gotos, Stmt.gotos])
  | case value s rest _ ih =>
      intro p
      have here : Names [] p (p.addCase (some value)) := .of_same rfl
      exact here.append (ih _) (build_extends (s :: rest) _) _ rfl rfl
  | default s rest _ ih =>
      intro p
      have here : Names [] p (p.addCase none) := .of_same rfl
      exact here.append (ih _) (build_extends (s :: rest) _) _ rfl rfl
  | label name s rest ihBody ihRest _ =>
      intro p
      have here : Names [.label name .empty] p ((p.labelOf name).2.define (p.labelOf name).1) := by
        refine ⟨by simpa [labels, Stmt.labels] using define_defined p name, fun x member => ?_⟩
        rw [define_nums] at member
        exact (labelOf_names member).imp id fun same => .inl (by simp [labels, Stmt.labels, same])
      have body := build_single s _ ▸ ihBody ((p.labelOf name).2.define (p.labelOf name).1)
      have both := here.append body (build_single s _ ▸ build_extends [s] _) (.label name s :: [])
        (by simp [labels, Stmt.labels]) (by simp [gotos, Stmt.gotos])
      exact both.append (ihRest _) (build_extends rest _) _ (by simp [labels, Stmt.labels])
        (by simp [gotos, Stmt.gotos])
  | breakOut rest ih => exact ih
  | continueLoop rest ih => exact ih
  | goto name rest ih =>
      intro p
      have here : Names [.goto name] p (p.labelOf name).2 := by
        refine ⟨by simp [labels, Stmt.labels], fun x member => ?_⟩
        exact (labelOf_names member).imp id fun same => .inr (by simp [gotos, Stmt.gotos, same])
      exact here.append (ih _) (build_extends rest _) _ (by simp [labels, Stmt.labels])
        (by simp [gotos, Stmt.gotos])
  | returnValue e rest ih => exact ih

/-! The numbers of the labels the code of some nodes has. -/

mutual

def Node.nums : Node → List Nat
  | .ndIf _ rhs els => nodeNums rhs ++ nodeNums els
  | .ndWhile _ rhs => nodeNums rhs
  | .ndFor _ _ _ body => nodeNums body
  | .ndDoWhile lhs _ => nodeNums lhs
  | .ndSwitch _ _ els _ => nodeNums els
  | .ndCase _ num => [num]
  | .ndDefault num => [num]
  | .ndLabel num rhs => num :: nodeNums rhs
  | _ => []

def nodeNums : List Node → List Nat
  | [] => []
  | n :: rest => n.nums ++ nodeNums rest

end

@[simp] theorem nodeNums_append (first second : List Node) :
    nodeNums (first ++ second) = nodeNums first ++ nodeNums second := by
  induction first with
  | nil => rfl
  | cons n first ih => simp [nodeNums, ih]

/-- The table at the end, seen from a point before. -/
structure Settled (final : List (String × Nat)) (p : Parser) : Prop where
  nums : p.nums ⊆ final
  old : ∀ x ∈ final, x.2 < p.lblNum → x ∈ p.nums

theorem Settled.back {final : List (String × Nat)} {p p' : Parser} (settled : Settled final p')
    (extends_ : Extends p p') : Settled final p where
  nums := fun _ member => settled.nums (extends_.nums member)
  old := by
    intro x member below
    rcases extends_.new x (settled.old x member (below.trans_le extends_.lblNum)) with old | later
    · exact old
    · omega

def Owns (final : List (String × Nat)) (names : List String) (p p' : Parser) (ns : List Nat) : Prop :=
  ns.Nodup ∧ ∀ n ∈ ns, (∃ name ∈ names, (name, n) ∈ final) ∨
    (p.lblNum ≤ n ∧ n < p'.lblNum ∧ ∀ name, (name, n) ∉ final)

theorem Owns.none {final : List (String × Nat)} {names : List String} {p p' : Parser} :
    Owns final names p p' [] := ⟨.nil, nofun⟩

theorem Owns.append {final : List (String × Nat)} {first second : List String} {p p₁ p₂ : Parser}
    {ns ms : List Nat} (one : Owns final first p p₁ ns) (two : Owns final second p₁ p₂ ms)
    (single : ∀ a b n, (a, n) ∈ final → (b, n) ∈ final → a = b) (start : p.lblNum ≤ p₁.lblNum)
    (stop : p₁.lblNum ≤ p₂.lblNum) (distinct : (first ++ second).Nodup) :
    Owns final (first ++ second) p p₂ (ns ++ ms) := by
  refine ⟨List.nodup_append.mpr ⟨one.1, two.1, fun n inFirst m inSecond same => ?_⟩, fun n member => ?_⟩
  · subst same
    rcases one.2 n inFirst with ⟨a, aIn, aFinal⟩ | ⟨low, high, notFinal⟩
    · rcases two.2 n inSecond with ⟨b, bIn, bFinal⟩ | ⟨-, -, notFinal⟩
      · exact (List.nodup_append.mp distinct).2.2 a aIn b bIn (single a b n aFinal bFinal)
      · exact notFinal a aFinal
    · rcases two.2 n inSecond with ⟨b, -, bFinal⟩ | ⟨low', -, -⟩
      · exact notFinal b bFinal
      · omega
  · rcases List.mem_append.mp member with inFirst | inSecond
    · rcases one.2 n inFirst with ⟨a, aIn, aFinal⟩ | ⟨low, high, notFinal⟩
      · exact .inl ⟨a, List.mem_append_left _ aIn, aFinal⟩
      · exact .inr ⟨low, by omega, notFinal⟩
    · rcases two.2 n inSecond with ⟨b, bIn, bFinal⟩ | ⟨low, high, notFinal⟩
      · exact .inl ⟨b, List.mem_append_right _ bIn, bFinal⟩
      · exact .inr ⟨by omega, high, notFinal⟩

theorem owns_case {final : List (String × Nat)} {p : Parser} {value : Option Nat} (ok : p.Ok)
    (settled : Settled final (p.addCase value)) : Owns final [] p (p.addCase value) [p.lblNum] := by
  refine ⟨List.nodup_singleton _, fun n member => .inr ?_⟩
  obtain rfl := List.mem_singleton.mp member
  refine ⟨Nat.le_refl _, Nat.lt_succ_self _, fun name inFinal => ?_⟩
  have old := settled.old _ inFinal (Nat.lt_succ_self _)
  exact Nat.lt_irrefl _ (ok.below _ old)

def OwnsAll (final : List (String × Nat)) (ss : List Stmt) : Prop :=
  ∀ p : Parser, p.Ok → Settled final (build ss p).2 → (labels ss).Nodup →
    Owns final (labels ss) p (build ss p).2 (nodeNums (build ss p).1)

theorem OwnsAll.single {final : List (String × Nat)} {s : Stmt} (all : OwnsAll final [s]) {p : Parser}
    (ok : p.Ok) (settled : Settled final (s.build p).2) (distinct : s.labels.Nodup) :
    Owns final s.labels p (s.build p).2 (nodeNums (s.build p).1) := by
  have here := all p ok
  simp only [build_single, labels, List.append_nil] at here
  exact here settled distinct

theorem owns_cons {final : List (String × Nat)}
    (unique : ∀ a b n, (a, n) ∈ final → (b, n) ∈ final → a = b) {s : Stmt} {rest : List Stmt}
    (here : ∀ p : Parser, p.Ok → Settled final (s.build p).2 → s.labels.Nodup →
      Owns final s.labels p (s.build p).2 (nodeNums (s.build p).1))
    (later : OwnsAll final rest) : OwnsAll final (s :: rest) := by
  intro p ok settled distinct
  have parts := List.nodup_append.mp distinct
  have tail := build_extends rest (s.build p).2
  have head := build_single s p ▸ build_extends [s] p
  have first := here p ok (settled.back tail) parts.1
  have second := later (s.build p).2 (head.ok ok) settled parts.2.1
  rw [build, nodeNums_append]
  exact first.append second unique head.lblNum tail.lblNum distinct

theorem build_owns {final : List (String × Nat)}
    (unique : ∀ a b n, (a, n) ∈ final → (b, n) ∈ final → a = b) (ss : List Stmt) :
    OwnsAll final ss := by
  induction ss using stmts_induction with
  | nil => exact fun p _ _ _ => .none
  | empty rest ih => exact ih
  | expr e rest ih => exact owns_cons unique (fun _ _ _ _ => .none) ih
  | block items rest ihItems ihRest => exact owns_cons unique ihItems ihRest
  | ifThen cond s rest ihBody ihRest =>
      refine owns_cons unique (fun p ok settled distinct => ?_) ihRest
      have body := ihBody.single ok settled distinct
      simpa [Stmt.build, nodeNums, Node.nums, Stmt.labels] using body
  | ifElse cond s o rest ihBody ihOther ihRest =>
      refine owns_cons unique (fun p ok settled distinct => ?_) ihRest
      have bodyGrows := build_single s p ▸ build_extends [s] p
      have otherGrows := build_single o _ ▸ build_extends [o] (s.build p).2
      have parts := List.nodup_append.mp distinct
      have body := ihBody.single ok (settled.back otherGrows) parts.1
      have other := ihOther.single (bodyGrows.ok ok) settled parts.2.1
      have both := body.append other unique bodyGrows.lblNum otherGrows.lblNum distinct
      simpa [Stmt.build, nodeNums, Node.nums, Stmt.labels] using both
  | whileLoop cond s rest ihBody ihRest =>
      refine owns_cons unique (fun p ok settled distinct => ?_) ihRest
      have body := ihBody.single ok settled distinct
      simpa [Stmt.build, nodeNums, Node.nums, Stmt.labels] using body
  | forLoop init test inc s rest ihBody ihRest =>
      refine owns_cons unique (fun p ok settled distinct => ?_) ihRest
      have body := ihBody.single ok settled distinct
      simpa [Stmt.build, nodeNums, Node.nums, Stmt.labels] using body
  | doWhile s cond rest ihBody ihRest =>
      refine owns_cons unique (fun p ok settled distinct => ?_) ihRest
      have body := ihBody.single ok settled distinct
      simpa [Stmt.build, nodeNums, Node.nums, Stmt.labels] using body
  | «switch» cond s rest ihBody _ _ ihRest =>
      refine owns_cons unique (fun p ok settled distinct => ?_) ihRest
      have enter : Extends p p.enterSwitch := .of_same rfl (Nat.le_refl _) (Nat.le_refl _)
      have body := ihBody.single (enter.ok ok) ⟨settled.nums, settled.old⟩ distinct
      rw [Stmt.build, nodeNums, Node.nums, nodeNums, List.append_nil]
      exact body
  | case value s rest _ ih =>
      intro p ok settled distinct
      have grows := extends_addCase p (some value)
      have later := build_extends (s :: rest) (p.addCase (some value))
      have here := owns_case ok (settled.back later)
      exact here.append (ih _ (grows.ok ok) settled distinct) unique grows.lblNum later.lblNum distinct
  | default s rest _ ih =>
      intro p ok settled distinct
      have grows := extends_addCase p none
      have later := build_extends (s :: rest) (p.addCase none)
      have here := owns_case ok (settled.back later)
      exact here.append (ih _ (grows.ok ok) settled distinct) unique grows.lblNum later.lblNum distinct
  | label name s rest ihBody ihRest _ =>
      refine owns_cons unique (fun p ok settled distinct => ?_) ihRest
      have named := (extends_labelOf p name).trans (extends_define _ (p.labelOf name).1)
      have inner := build_single s _ ▸ build_extends [s]
        ((p.labelOf name).2.define (p.labelOf name).1)
      have body := ihBody.single (named.ok ok) settled (List.nodup_cons.mp distinct).2
      have inFinal : (name, (p.labelOf name).1) ∈ final := by
        apply settled.nums
        apply inner.nums
        rw [define_nums]
        exact labelOf_mem p name
      have here : Owns final [name] p ((p.labelOf name).2.define (p.labelOf name).1)
          [(p.labelOf name).1] := by
        refine ⟨List.nodup_singleton _, fun n member => .inl ⟨name, List.mem_singleton_self _, ?_⟩⟩
        rwa [List.mem_singleton.mp member]
      have both := here.append body unique named.lblNum inner.lblNum distinct
      simpa [Stmt.build, nodeNums, Node.nums, Stmt.labels] using both
  | breakOut rest ih => exact owns_cons unique (fun _ _ _ _ => .none) ih
  | continueLoop rest ih => exact owns_cons unique (fun _ _ _ _ => .none) ih
  | goto name rest ih => exact owns_cons unique (fun _ _ _ _ => .none) ih
  | returnValue e rest ih => exact owns_cons unique (fun _ _ _ _ => .none) ih

end SymphonyPlus.Statements
