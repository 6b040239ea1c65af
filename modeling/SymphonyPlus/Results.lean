import Mathlib.Data.List.Basic

/-!
Computations that may fail, one after another.
-/

namespace Except

variable {ε α β : Type}

theorem of_bind_ok {first : Except ε α} {second : α → Except ε β} {result : β}
    (done : first.bind second = .ok result) : ∃ r, first = .ok r ∧ second r = .ok result := by
  cases first with
  | error failure => cases done
  | ok r => exact ⟨r, rfl, done⟩

theorem of_map_ok {first : Except ε α} {f : α → β} {result : β}
    (done : first.map f = .ok result) : ∃ r, first = .ok r ∧ f r = result := by
  cases first with
  | error failure => cases done
  | ok r =>
      cases done
      exact ⟨r, rfl, rfl⟩

theorem of_map_error {first : Except ε α} {f : α → β} {failure : ε}
    (failed : first.map f = .error failure) : first = .error failure := by
  cases first with
  | error other =>
      cases failed
      rfl
  | ok r => cases failed

theorem of_bind_error {first : Except ε α} {second : α → Except ε β} {failure : ε}
    (failed : first.bind second = .error failure) :
    first = .error failure ∨ ∃ r, first = .ok r ∧ second r = .error failure := by
  cases first with
  | error other =>
      cases failed
      exact Or.inl rfl
  | ok r => exact Or.inr ⟨r, rfl, failed⟩

theorem of_toOption {result : Except ε α} {a : α} (some : result.toOption = some a) :
    result = .ok a := by
  cases result with
  | error failure => cases some
  | ok r =>
      cases some
      rfl

end Except
