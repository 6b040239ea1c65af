import Mathlib.Algebra.Order.BigOperators.Group.Finset
import Mathlib.Data.List.Nodup
import Mathlib.Logic.Function.Basic

/-! Families of tables of slots: what a change of one slot does to a table and to a count over all
tables. -/

namespace SymphonyPlus.SlotTables

open Function

section

variable {α β : Type}

/-- A table falls apart at each of its slots. -/
theorem apart_at {slots : List α} {i : Nat} (bound : i < slots.length) :
    ∃ before after, slots = before ++ slots[i] :: after ∧
      ∀ a, slots.set i a = before ++ a :: after := by
  refine ⟨slots.take i, slots.drop (i + 1), ?_, fun a =>
    List.set_eq_take_append_cons_drop.trans (if_pos bound)⟩
  rw [List.getElem_cons_drop bound, List.take_append_drop]

theorem countP_set_add (p : α → Bool) {slots : List α} {i : Nat} (bound : i < slots.length)
    (a : α) : (slots.set i a).countP p + (if p slots[i] then 1 else 0) =
      slots.countP p + if p a then 1 else 0 := by
  obtain ⟨before, after, whole, changed⟩ := apart_at bound
  generalize slots[i] = old at whole ⊢
  rw [changed, whole]
  simp only [List.countP_append, List.countP_cons]
  omega

theorem mem_set_or {slots : List α} {i : Nat} {a b : α} (inside : b ∈ slots.set i a) :
    b ∈ slots ∨ b = a := by
  by_cases bound : i < slots.length
  · obtain ⟨before, after, whole, changed⟩ := apart_at bound
    rw [changed] at inside
    rw [whole]
    simp only [List.mem_append, List.mem_cons] at inside ⊢
    tauto
  · rw [List.set_eq_of_length_le (by omega)] at inside
    exact .inl inside

def valuesOf (used : α → Bool) (value : α → β) (slots : List α) : List β :=
  (slots.filter used).map value

variable {used : α → Bool} {value : α → β}

theorem valuesOf_append (first second : List α) :
    valuesOf used value (first ++ second) =
      valuesOf used value first ++ valuesOf used value second := by
  rw [valuesOf, List.filter_append, List.map_append]
  rfl

theorem valuesOf_free {a : α} (free : used a = false) (slots : List α) :
    valuesOf used value (a :: slots) = valuesOf used value slots := by
  rw [valuesOf, List.filter_cons_of_neg (by simp [free])]
  rfl

theorem valuesOf_used {a : α} (busy : used a = true) (slots : List α) :
    valuesOf used value (a :: slots) = value a :: valuesOf used value slots := by
  rw [valuesOf, List.filter_cons_of_pos busy]
  rfl

/-- A free slot that comes into use adds its value. -/
theorem valuesOf_set_used (value : α → β) {slots : List α} {i : Nat} (bound : i < slots.length) {a : α}
    (free : used slots[i] = false) (busy : used a = true) :
    (valuesOf used value (slots.set i a)).Perm (value a :: valuesOf used value slots) := by
  obtain ⟨before, after, whole, changed⟩ := apart_at bound
  generalize slots[i] = old at whole free
  rw [changed, whole, valuesOf_append, valuesOf_append, valuesOf_free free, valuesOf_used busy]
  exact List.perm_middle

/-- A slot that is freed leaves the values of the others. -/
theorem valuesOf_set_free (value : α → β) {slots : List α} {i : Nat} (bound : i < slots.length) {a : α}
    (busy : used slots[i] = true) (free : used a = false) :
    (valuesOf used value slots).Perm (value slots[i] :: valuesOf used value (slots.set i a)) := by
  obtain ⟨before, after, whole, changed⟩ := apart_at bound
  generalize slots[i] = old at whole busy ⊢
  rw [changed, whole, valuesOf_append, valuesOf_append, valuesOf_free free, valuesOf_used busy]
  exact List.perm_middle

/-- A slot that keeps its value keeps the values of the table. -/
theorem valuesOf_set_same (value : α → β) {slots : List α} {i : Nat} (bound : i < slots.length) {a : α}
    (busy : used slots[i] = true) (still : used a = true) (same : value a = value slots[i]) :
    valuesOf used value (slots.set i a) = valuesOf used value slots := by
  obtain ⟨before, after, whole, changed⟩ := apart_at bound
  generalize slots[i] = old at whole busy same
  rw [changed, whole, valuesOf_append, valuesOf_append, valuesOf_used busy, valuesOf_used still,
    same]

end

section

variable {ι α : Type} [Fintype ι]

def total (tables : ι → List α) (p : α → Bool) : Nat :=
  Finset.univ.sum fun i => (tables i).countP p

theorem total_update [DecidableEq ι] (tables : ι → List α) (i : ι) (slots : List α) (p : α → Bool) :
    total (update tables i slots) p + (tables i).countP p = total tables p + slots.countP p := by
  have split : ∀ f : ι → List α, total f p =
      (f i).countP p + (Finset.univ.erase i).sum fun j => (f j).countP p := fun f =>
    (Finset.add_sum_erase _ (fun j => (f j).countP p) (Finset.mem_univ i)).symm
  have others : ((Finset.univ.erase i).sum fun j => (update tables i slots j).countP p) =
      (Finset.univ.erase i).sum fun j => (tables j).countP p := by
    refine Finset.sum_congr rfl fun j inside => ?_
    rw [update_of_ne (Finset.ne_of_mem_erase inside)]
  rw [split, split tables, others, update_self]
  omega

theorem total_zero {tables : ι → List α} {p : α → Bool} (none : total tables p = 0) (i : ι) :
    ∀ a ∈ tables i, p a = false := by
  have zero := (Finset.sum_eq_zero_iff.mp none) i (Finset.mem_univ i)
  intro a inside
  exact Bool.eq_false_iff.mpr fun holds => List.countP_eq_zero.mp zero a inside holds

theorem total_eq_zero {tables : ι → List α} {p : α → Bool}
    (none : ∀ i, ∀ a ∈ tables i, p a = false) : total tables p = 0 :=
  Finset.sum_eq_zero fun i _ => List.countP_eq_zero.mpr fun a inside => by
    rw [none i a inside]
    exact Bool.false_ne_true

theorem le_total (tables : ι → List α) (p : α → Bool) (i : ι) :
    (tables i).countP p ≤ total tables p :=
  Finset.single_le_sum (f := fun i => (tables i).countP p) (fun _ _ => Nat.zero_le _)
    (Finset.mem_univ i)

theorem add_le_total [DecidableEq ι] (tables : ι → List α) (p : α → Bool) {i j : ι} (apart : i ≠ j) :
    (tables i).countP p + (tables j).countP p ≤ total tables p := by
  have both := Finset.sum_pair (f := fun i => (tables i).countP p) apart
  have within : ({i, j} : Finset ι) ⊆ Finset.univ := Finset.subset_univ _
  rw [← both]
  exact Finset.sum_le_sum_of_subset within

end

end SymphonyPlus.SlotTables
