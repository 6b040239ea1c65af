import Mathlib.Data.BitVec
import Mathlib.Data.List.Basic
import Mathlib.Data.List.Nodup

/-! Doubly linked lists whose links are functions on the nodes. A segment begins behind one node and
ends before another; a whole list begins and ends at a node that is none. -/

namespace LinkedSegments

variable {α : Type} {next prev next' prev' : α → α} {before here after : α} {xs ys : List α}

inductive Segment (next prev : α → α) : α → α → List α → α → Prop
  | nil (before after : α) : Segment next prev before after [] after
  | cons {before here after : α} {xs : List α} (back : prev here = before)
      (rest : Segment next prev here (next here) xs after) :
      Segment next prev before here (here :: xs) after

namespace Segment

/-- Links of other nodes do not matter. -/
theorem congr (seg : Segment next prev before here xs after) (nexts : ∀ x ∈ xs, next' x = next x)
    (prevs : ∀ x ∈ xs, prev' x = prev x) : Segment next' prev' before here xs after := by
  induction seg with
  | nil before after => exact .nil before after
  | @cons before here after xs back rest ih =>
      refine .cons ((prevs here List.mem_cons_self).trans back) ?_
      rw [nexts here List.mem_cons_self]
      exact ih (fun x inside => nexts x (List.mem_cons_of_mem here inside))
        fun x inside => prevs x (List.mem_cons_of_mem here inside)

theorem append {middle : α} (first : Segment next prev before here xs middle)
    (second : Segment next prev (xs.getLastD before) middle ys after) :
    Segment next prev before here (xs ++ ys) after := by
  induction first with
  | nil before middle => exact second
  | @cons before here middle xs back rest ih =>
      refine .cons back (ih ?_)
      rwa [List.getLastD_cons] at second

theorem split (seg : Segment next prev before here (xs ++ ys) after) :
    ∃ middle, Segment next prev before here xs middle ∧
      Segment next prev (xs.getLastD before) middle ys after := by
  induction xs generalizing before here with
  | nil => exact ⟨here, .nil before here, seg⟩
  | cons x xs ih =>
      cases seg with
      | cons back rest =>
          obtain ⟨middle, first, second⟩ := ih rest
          refine ⟨middle, .cons back first, ?_⟩
          rwa [List.getLastD_cons]

theorem head (seg : Segment next prev before here xs after) : here = xs.headD after := by
  cases seg with
  | nil => rfl
  | cons => rfl

/-- The last link of a segment leads elsewhere. -/
theorem ended [DecidableEq α] {other : α} (seg : Segment next prev before here xs after) (apart : xs.Nodup)
    (nexts : ∀ x ∈ xs, next' x = if x = xs.getLastD before then other else next x)
    (prevs : ∀ x ∈ xs, prev' x = prev x) :
    Segment next' prev' before (if xs = [] then other else here) xs other := by
  induction seg with
  | nil before after => exact .nil before other
  | @cons before here after xs back rest ih =>
      obtain ⟨away, apart⟩ := List.nodup_cons.mp apart
      rw [if_neg (List.cons_ne_nil here xs)]
      refine .cons ((prevs here List.mem_cons_self).trans back) ?_
      rw [List.getLastD_cons] at nexts
      have later := ih apart (fun x inside => nexts x (List.mem_cons_of_mem here inside))
        fun x inside => prevs x (List.mem_cons_of_mem here inside)
      rw [nexts here List.mem_cons_self]
      by_cases empty : xs = []
      · subst empty
        rw [if_pos (show here = ([] : List α).getLastD here from rfl)]
        exact .nil here other
      · have last : here ≠ xs.getLastD here := by
          intro same
          rw [List.getLastD_eq_getLast?, List.getLast?_eq_some_getLast empty] at same
          exact away (same ▸ List.getLast_mem empty)
        rw [if_neg last]
        rwa [if_neg empty] at later

/-- The first link back of a segment leads elsewhere. -/
theorem begun [DecidableEq α] {other : α} (seg : Segment next prev before here xs after) (apart : xs.Nodup)
    (nexts : ∀ x ∈ xs, next' x = next x)
    (prevs : ∀ x ∈ xs, prev' x = if x = here then other else prev x) :
    Segment next' prev' other here xs after := by
  cases seg with
  | nil => exact .nil other here
  | @cons _ _ _ xs back rest =>
      obtain ⟨away, apart⟩ := List.nodup_cons.mp apart
      refine .cons ((prevs here List.mem_cons_self).trans (if_pos rfl)) ?_
      rw [nexts here List.mem_cons_self]
      refine rest.congr (fun x inside => nexts x (List.mem_cons_of_mem here inside)) fun x inside => ?_
      have other : x ≠ here := by
        rintro rfl
        exact away inside
      rw [prevs x (List.mem_cons_of_mem here inside), if_neg other]

end Segment

/-- All nodes of a list, from its head on; `none_` is no node. -/
structure Whole (next prev : α → α) (none_ head : α) (xs : List α) : Prop where
  segment : Segment next prev none_ head xs none_
  unique : xs.Nodup
  proper : none_ ∉ xs

namespace Whole

variable {none_ head x n : α}

theorem congr (whole : Whole next prev none_ head xs) (nexts : ∀ x ∈ xs, next' x = next x)
    (prevs : ∀ x ∈ xs, prev' x = prev x) : Whole next' prev' none_ head xs :=
  ⟨whole.segment.congr nexts prevs, whole.unique, whole.proper⟩

theorem empty (next prev : α → α) (none_ : α) : Whole next prev none_ none_ [] :=
  ⟨.nil none_ none_, List.nodup_nil, List.not_mem_nil⟩

theorem head_eq (whole : Whole next prev none_ head xs) : head = xs.headD none_ :=
  whole.segment.head

theorem mem_last {xs : List α} (inside : xs.getLastD none_ ≠ none_) :
    xs.getLastD none_ ∈ xs := by
  rcases List.eq_nil_or_concat xs with rfl | ⟨zs, z, rfl⟩
  · exact absurd rfl inside
  · simp

theorem last_none (proper : none_ ∉ xs) : xs.getLastD none_ = none_ ↔ xs = [] := by
  constructor
  · intro same
    by_contra some
    rw [List.getLastD_eq_getLast?, List.getLast?_eq_some_getLast some] at same
    exact proper (same ▸ List.getLast_mem some)
  · rintro rfl
    rfl

theorem head_none (proper : none_ ∉ xs) : xs.headD none_ = none_ ↔ xs = [] := by
  cases xs with
  | nil => exact iff_of_true rfl rfl
  | cons x xs =>
      refine iff_of_false (fun same => ?_) (List.cons_ne_nil x xs)
      exact proper (same ▸ List.mem_cons_self)

/-- A node has its neighbours in its links. -/
theorem links (whole : Whole next prev none_ head (xs ++ x :: ys)) :
    prev x = xs.getLastD none_ ∧ next x = ys.headD none_ := by
  obtain ⟨middle, _, second⟩ := whole.segment.split
  cases second with
  | cons back rest => exact ⟨back, rest.head⟩

theorem head_mem (whole : Whole next prev none_ head xs) : head = none_ ∨ head ∈ xs := by
  rw [whole.head_eq]
  cases xs with
  | nil => exact .inl rfl
  | cons x xs => exact .inr List.mem_cons_self

theorem neighbours (whole : Whole next prev none_ head (xs ++ x :: ys)) :
    (prev x = none_ ∨ prev x ∈ xs) ∧ (next x = none_ ∨ next x ∈ ys) := by
  obtain ⟨back, forth⟩ := whole.links
  rw [back, forth]
  constructor
  · by_cases none : xs.getLastD none_ = none_
    · exact .inl none
    · exact .inr (mem_last none)
  · cases ys with
    | nil => exact .inl rfl
    | cons y ys => exact .inr List.mem_cons_self

theorem removed [DecidableEq α] (whole : Whole next prev none_ head (xs ++ x :: ys))
    (nexts : ∀ y ∈ xs ++ ys, next' y = if y = prev x then next x else next y)
    (prevs : ∀ y ∈ xs ++ ys, prev' y = if y = next x then prev x else prev y) {head' : α}
    (start : head' = if prev x = none_ then next x else head) :
    Whole next' prev' none_ head' (xs ++ ys) := by
  subst start
  obtain ⟨back, forth⟩ := whole.links
  obtain ⟨middle, first, second⟩ := whole.segment.split
  obtain ⟨apartX, apartY, apart⟩ := List.nodup_append.mp whole.unique
  have outside := whole.proper
  simp only [List.mem_append, List.mem_cons, not_or] at outside
  obtain ⟨notX, _, notY⟩ := outside
  refine ⟨?_, ?_, by simp [notX, notY]⟩
  · cases second with
    | cons _ rest =>
        have notFirst : ∀ y ∈ xs, y ≠ next x := by
          rintro y inside same
          rw [same, forth] at inside
          cases ys with
          | nil => exact notX inside
          | cons z ys => exact apart _ inside _ (List.mem_cons_of_mem x List.mem_cons_self) rfl
        have notLast : ∀ y ∈ ys, y ≠ prev x := by
          rintro y inside same
          rw [same, back] at inside
          by_cases none : xs.getLastD none_ = none_
          · exact notY (none ▸ inside)
          · exact apart _ (mem_last none) _ (List.mem_cons_of_mem x inside) rfl
        have left : Segment next' prev' none_ (if xs = [] then next x else head) xs (next x) := by
          refine first.ended apartX (fun y inside => ?_) fun y inside => ?_
          · rw [nexts y (List.mem_append_left ys inside), back]
          · rw [prevs y (List.mem_append_left ys inside), if_neg (notFirst y inside)]
        have right : Segment next' prev' (prev x) (next x) ys none_ := by
          refine rest.begun (List.nodup_cons.mp apartY).2 (fun y inside => ?_) fun y inside => ?_
          · rw [nexts y (List.mem_append_right xs inside), if_neg (notLast y inside)]
          · exact prevs y (List.mem_append_right xs inside)
        rw [back] at right ⊢
        rw [if_congr (last_none notX) rfl rfl]
        exact left.append right
  · refine List.nodup_append.mpr ⟨apartX, (List.nodup_cons.mp apartY).2, fun a inX b inY => ?_⟩
    exact apart a inX b (List.mem_cons_of_mem x inY)

theorem pushed [DecidableEq α] (whole : Whole next prev none_ head xs) (new : n ∉ xs)
    (node : n ≠ none_) (forth : next' n = head) (back : prev' n = none_)
    (nexts : ∀ y ∈ xs, next' y = next y)
    (prevs : ∀ y ∈ xs, prev' y = if y = head then n else prev y) :
    Whole next' prev' none_ n (n :: xs) := by
  refine ⟨.cons back ?_, List.nodup_cons.mpr ⟨new, whole.unique⟩, ?_⟩
  · rw [forth]
    exact whole.segment.begun whole.unique nexts prevs
  · simp [whole.proper, Ne.symm node]

theorem inserted [DecidableEq α] (whole : Whole next prev none_ head (xs ++ x :: ys))
    (new : n ∉ xs ++ x :: ys) (node : n ≠ none_) (forth : next' n = next x) (back : prev' n = x)
    (link : next' x = n) (nexts : ∀ y ∈ xs ++ ys, next' y = next y)
    (prevs : ∀ y ∈ xs ++ x :: ys, prev' y = if y = next x then n else prev y) :
    Whole next' prev' none_ head (xs ++ x :: n :: ys) := by
  obtain ⟨_, forthX⟩ := whole.links
  obtain ⟨middle, first, second⟩ := whole.segment.split
  obtain ⟨apartX, apartY, apart⟩ := List.nodup_append.mp whole.unique
  have outside := whole.proper
  simp only [List.mem_append, List.mem_cons, not_or] at outside new
  obtain ⟨notX, notx, notY⟩ := outside
  have notFirst : ∀ y ∈ xs ++ [x], y ≠ next x := by
    rintro y inside same
    rw [same, forthX] at inside
    cases ys with
    | nil => simp_all
    | cons z ys =>
        rcases List.mem_append.mp inside with inside | inside
        · exact apart _ inside _ (List.mem_cons_of_mem x List.mem_cons_self) rfl
        · exact (List.nodup_cons.mp apartY).1 (List.mem_singleton.mp inside ▸ List.mem_cons_self)
  refine ⟨?_, ?_, ?_⟩
  · cases second with
    | cons backX rest =>
        have left : Segment next' prev' none_ head xs x := by
          refine first.congr (fun y inside => nexts y (List.mem_append_left ys inside)) ?_
          intro y inside
          rw [prevs y (List.mem_append_left _ inside),
            if_neg (notFirst y (List.mem_append_left _ inside))]
        have right : Segment next' prev' n (next x) ys none_ :=
          rest.begun (List.nodup_cons.mp apartY).2
            (fun y inside => nexts y (List.mem_append_right xs inside))
            fun y inside => prevs y (List.mem_append_right xs (List.mem_cons_of_mem x inside))
        refine left.append (.cons ?_ ?_)
        · rw [prevs x (List.mem_append_right xs List.mem_cons_self),
            if_neg (notFirst x (List.mem_append_right xs List.mem_cons_self)), backX]
        · rw [link]
          refine .cons back ?_
          rwa [forth]
  · have unique := whole.unique
    simp only [List.nodup_append, List.nodup_cons, List.mem_cons] at unique ⊢
    grind
  · simp [notX, notx, notY, Ne.symm node]

theorem appended [DecidableEq α] (whole : Whole next prev none_ head xs) (new : n ∉ xs)
    (node : n ≠ none_) (forth : next' n = none_) (back : prev' n = xs.getLastD none_)
    (nexts : ∀ y ∈ xs, next' y = if y = xs.getLastD none_ then n else next y)
    (prevs : ∀ y ∈ xs, prev' y = prev y) {head' : α} (start : head' = if xs = [] then n else head) :
    Whole next' prev' none_ head' (xs ++ [n]) := by
  subst start
  refine ⟨?_, ?_, ?_⟩
  · refine (whole.segment.ended whole.unique nexts prevs).append (.cons back ?_)
    rw [forth]
    exact .nil n none_
  · refine List.nodup_append.mpr ⟨whole.unique, List.nodup_singleton n, fun a inside b same => ?_⟩
    rw [List.mem_singleton.mp same]
    rintro rfl
    exact new inside
  · simp [whole.proper, Ne.symm node]

end Whole

end LinkedSegments
