import Mathlib

/-!
# Computations that succeed

What it takes for a computation in `Except` to succeed, step by step.
-/

namespace Lib

variable {ε α β : Type*} {x : Except ε α} {b : β}

theorem except_map_eq_ok {f : α → β} : x.map f = .ok b ↔ ∃ a, x = .ok a ∧ f a = b := by
  rcases x with e | a
  all_goals simp [Except.map]

theorem except_bind_eq_ok {f : α → Except ε β} :
    x.bind f = .ok b ↔ ∃ a, x = .ok a ∧ f a = .ok b := by
  rcases x with e | a
  all_goals simp [Except.bind]

theorem except_ok_bind {α β : Type} (a : α) (f : α → Except ε β) : (Except.ok a >>= f) = f a := rfl

theorem except_error_bind {α β : Type} (e : ε) (f : α → Except ε β) :
    (Except.error e >>= f) = .error e := rfl

end Lib
