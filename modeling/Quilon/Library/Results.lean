import Mathlib.Init

/-!
# Chains of fallible steps
-/

namespace Quilon

/-- A chain that succeeds, taken apart at its first step. -/
theorem bind_ok {ε α β : Type} {x : Except ε α} {f : α → Except ε β} {r : β}
    (h : x >>= f = .ok r) : ∃ a, x = .ok a ∧ f a = .ok r := by
  cases x with
  | error e => cases h
  | ok a => exact ⟨a, rfl, h⟩

end Quilon
