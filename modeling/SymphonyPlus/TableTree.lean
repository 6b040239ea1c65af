import Mathlib.Data.List.Nodup
import Mathlib.Data.List.Pairwise
import Mathlib.Data.List.Perm.Basic
import Mathlib.Logic.Function.Basic

/-! Trees of tables. An address is a leaf at level zero and a table of addresses one level down at a
higher level; the null address stands for an empty tree. -/

namespace TableTree

open Function

/-- One member of a list gives more than before, the others the same. -/
theorem flatMap_grow {ι α : Type} {l : List ι} (nodup : l.Nodup) {k : ι} (member : k ∈ l)
    {f g : ι → List α} {e : List α} (same : ∀ j ∈ l, j ≠ k → g j = f j)
    (grown : (g k).Perm (e ++ f k)) : (l.flatMap g).Perm (e ++ l.flatMap f) := by
  induction l with
  | nil => cases member
  | cons j rest ih =>
      obtain ⟨fresh, nodup⟩ := List.nodup_cons.mp nodup
      rw [List.flatMap_cons, List.flatMap_cons]
      rcases List.mem_cons.mp member with rfl | later
      · have rest_same : rest.flatMap g = rest.flatMap f :=
          List.flatMap_congr fun j inside =>
            same j (List.mem_cons_of_mem _ inside) fun eq => fresh (eq ▸ inside)
        rw [rest_same, ← List.append_assoc]
        exact grown.append_right _
      · have here : g j = f j := same j List.mem_cons_self fun eq => fresh (eq ▸ later)
        have below := ih nodup later fun i inside => same i (List.mem_cons_of_mem _ inside)
        rw [here]
        exact (below.append_left (f j)).trans (List.perm_append_comm_assoc _ _ _)

theorem mem_one {ι α : Type} {l : List ι} {f : ι → List α} (nodup : (l.flatMap f).Nodup)
    {i j : ι} (hi : i ∈ l) (hj : j ∈ l) {x : α} (inside : x ∈ f i) (other : x ∈ f j) : i = j := by
  by_contra different
  have disjoint := (List.nodup_flatMap.mp nodup).2
  have symmetric : Std.Symm (List.Disjoint on f) := ⟨fun _ _ apart _ one two => apart two one⟩
  exact disjoint.forall hi hj different inside other

section
variable {α : Type} [DecidableEq α] (null : α) (width : Nat)

abbrev Tables (α : Type) := α → Nat → α

def write (tables : Tables α) (table : α) (index : Nat) (address : α) : Tables α :=
  update tables table (update (tables table) index address)

def reach (tables : Tables α) : Nat → α → List α
  | 0, z => if z = null then [] else [z]
  | level + 1, z =>
      if z = null then []
      else z :: (List.range width).flatMap fun i => reach tables level (tables z i)

def IsTable (tables : Tables α) : Nat → α → α → Prop
  | 0, _, _ => False
  | level + 1, z, table => z ≠ null ∧
      (table = z ∨ ∃ i < width, IsTable tables level (tables z i) table)

variable {null width} {tables tables' : Tables α}

@[simp] theorem reach_null (level : Nat) : reach null width tables level null = [] := by
  cases level with
  | zero => exact if_pos rfl
  | succ level => exact if_pos rfl

theorem reach_leaf {z : α} (present : z ≠ null) : reach null width tables 0 z = [z] :=
  if_neg present

theorem reach_table {z : α} (level : Nat) (present : z ≠ null) :
    reach null width tables (level + 1) z =
      z :: (List.range width).flatMap fun i => reach null width tables level (tables z i) :=
  if_neg present

theorem root_mem {level : Nat} {z : α} (present : z ≠ null) :
    z ∈ reach null width tables level z := by
  cases level with
  | zero => simp only [reach_leaf present, List.mem_singleton]
  | succ level => simp only [reach_table level present, List.mem_cons, true_or]

theorem IsTable.mem {level : Nat} {z table : α} (isTable : IsTable null width tables level z table) :
    table ∈ reach null width tables level z := by
  induction level generalizing z with
  | zero => exact isTable.elim
  | succ level ih =>
      obtain ⟨present, rfl | ⟨i, bound, below⟩⟩ := isTable
      · exact root_mem present
      · rw [reach_table level present]
        exact List.mem_cons_of_mem _ (List.mem_flatMap.mpr ⟨i, List.mem_range.mpr bound, ih below⟩)

/-- A tree only depends on the tables in it. -/
theorem reach_congr (level : Nat) (z : α)
    (same : ∀ t ∈ reach null width tables level z, ∀ i < width, tables' t i = tables t i) :
    reach null width tables' level z = reach null width tables level z := by
  induction level generalizing z with
  | zero => rfl
  | succ level ih =>
      by_cases absent : z = null
      · rw [absent, reach_null, reach_null]
      · rw [reach_table level absent] at same
        rw [reach_table level absent, reach_table level absent]
        congr 1
        refine List.flatMap_congr fun i bound => ?_
        rw [same z List.mem_cons_self i (List.mem_range.mp bound)]
        exact ih _ fun t inside => same t
          (List.mem_cons_of_mem _ (List.mem_flatMap.mpr ⟨i, bound, inside⟩))

theorem isTable_congr {level : Nat} {z table : α} (isTable : IsTable null width tables level z table)
    (same : ∀ t ∈ reach null width tables level z, ∀ i < width, tables' t i = tables t i) :
    IsTable null width tables' level z table := by
  induction level generalizing z with
  | zero => exact isTable
  | succ level ih =>
      obtain ⟨present, place⟩ := isTable
      rw [reach_table level present] at same
      refine ⟨present, place.imp_right fun ⟨i, bound, below⟩ => ⟨i, bound, ?_⟩⟩
      rw [same z List.mem_cons_self i bound]
      exact ih below fun t inside => same t
        (List.mem_cons_of_mem _ (List.mem_flatMap.mpr ⟨i, List.mem_range.mpr bound, inside⟩))

theorem IsTable.entry_mem {level index : Nat} {z table : α}
    (isTable : IsTable null width tables level z table) (bound : index < width)
    (present : tables table index ≠ null) :
    tables table index ∈ reach null width tables level z := by
  induction level generalizing z with
  | zero => exact isTable.elim
  | succ level ih =>
      obtain ⟨rootPresent, place⟩ := isTable
      rw [reach_table level rootPresent]
      refine List.mem_cons_of_mem _ (List.mem_flatMap.mpr ?_)
      rcases place with rfl | ⟨i, inside, below⟩
      · exact ⟨index, List.mem_range.mpr bound, root_mem present⟩
      · exact ⟨i, List.mem_range.mpr inside, ih below⟩

theorem reach_outside {level : Nat} {z table : α} {entries : Nat → α}
    (outside : table ∉ reach null width tables level z) :
    reach null width (update tables table entries) level z = reach null width tables level z := by
  refine reach_congr level z fun t inside i _ => ?_
  rw [update_of_ne fun (same : t = table) => outside (same ▸ inside)]

theorem reach_blank {z : α} (level : Nat) (present : z ≠ null)
    (blank : ∀ i < width, tables z i = null) : reach null width tables level z = [z] := by
  cases level with
  | zero => exact reach_leaf present
  | succ level =>
      rw [reach_table level present]
      have none : ∀ i ∈ List.range width, reach null width tables level (tables z i) = [] :=
        fun i bound => by rw [blank i (List.mem_range.mp bound), reach_null]
      rw [List.flatMap_eq_nil_iff.mpr none]

/-- The way to a table does not lead through it. -/
theorem IsTable.update {level : Nat} {z table : α} {entries : Nat → α}
    (isTable : IsTable null width tables level z table)
    (nodup : (reach null width tables level z).Nodup) :
    IsTable null width (update tables table entries) level z table := by
  induction level generalizing z with
  | zero => exact isTable
  | succ level ih =>
      obtain ⟨present, place⟩ := isTable
      rw [reach_table level present] at nodup
      obtain ⟨rootFresh, below⟩ := List.nodup_cons.mp nodup
      refine ⟨present, place.imp_right fun ⟨i, bound, child⟩ => ⟨i, bound, ?_⟩⟩
      have inside := List.mem_range.mpr bound
      have apart : z ≠ table := fun same =>
        rootFresh (List.mem_flatMap.mpr ⟨i, inside, same ▸ child.mem⟩)
      rw [update_of_ne apart]
      exact ih child ((List.nodup_flatMap.mp below).1 i inside)

/-- A fresh blank address in an empty entry of one of its tables is all a tree gains. -/
theorem reach_write {level index : Nat} {r table z : α}
    (isTable : IsTable null width tables level r table) (bound : index < width)
    (free : tables table index = null) (nodup : (reach null width tables level r).Nodup)
    (fresh : z ∉ reach null width tables level r) (present : z ≠ null)
    (blank : ∀ i < width, tables z i = null) :
    (reach null width (write tables table index z) level r).Perm
      (z :: reach null width tables level r) := by
  induction level generalizing r with
  | zero => exact isTable.elim
  | succ level ih =>
      obtain ⟨rootPresent, place⟩ := isTable
      rw [reach_table level rootPresent] at nodup fresh
      rw [reach_table level rootPresent, reach_table level rootPresent]
      obtain ⟨rootFresh, below⟩ := List.nodup_cons.mp nodup
      obtain ⟨differs, outside⟩ := not_or.mp (mt List.mem_cons.mpr fresh)
      refine List.Perm.trans (List.Perm.cons r ?_) (List.Perm.swap z r _)
      rcases place with rfl | ⟨k, kBound, child⟩
      · refine flatMap_grow List.nodup_range (List.mem_range.mpr bound) (e := [z]) ?_ ?_
        · intro j inside other
          rw [write, update_self, update_of_ne other]
          exact reach_outside fun found => rootFresh (List.mem_flatMap.mpr ⟨j, inside, found⟩)
        · rw [free, reach_null, write, update_self, update_self, reach_blank level present]
          · exact List.Perm.refl _
          · exact fun i iBound => by rw [update_of_ne differs, blank i iBound]
      · have apart : r ≠ table := fun same =>
          rootFresh (List.mem_flatMap.mpr ⟨k, List.mem_range.mpr kBound, same ▸ child.mem⟩)
        refine flatMap_grow List.nodup_range (List.mem_range.mpr kBound) (e := [z]) ?_ ?_
        · intro j inside other
          rw [write, update_of_ne apart]
          exact reach_outside fun found =>
            other (mem_one below inside (List.mem_range.mpr kBound) found child.mem)
        · rw [show write tables table index z r = tables r by rw [write, update_of_ne apart]]
          exact ih child ((List.nodup_flatMap.mp below).1 k (List.mem_range.mpr kBound))
            fun found => outside (List.mem_flatMap.mpr ⟨k, List.mem_range.mpr kBound, found⟩)

end

end TableTree
