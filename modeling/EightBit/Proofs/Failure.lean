import Mathlib

/-!
# Operations that may fail

What is known of the parts of an operation, once it is known to have succeeded or failed.

* `exists_of_bind_eq_ok`, `exists_of_map_eq_ok`: where a result comes from.
* `bind_eq_error`, `eq_error_of_map`: where an error comes from.
-/

namespace EightBit

variable {ε α β : Type}

/-- What follows something that may fail is reached only if that succeeds. -/
theorem exists_of_bind_eq_ok {x : Except ε α} {f : α → Except ε β} {v : β} (h : x >>= f = .ok v) :
    ∃ a, x = .ok a ∧ f a = .ok v := by
  cases x with
  | ok a => exact ⟨a, rfl, h⟩
  | error e => cases h

/-- The first part that fails is the error of both. -/
theorem bind_eq_error {x : Except ε α} {f : α → Except ε β} {e : ε} (h : x >>= f = .error e) :
    x = .error e ∨ ∃ a, x = .ok a ∧ f a = .error e := by
  cases x with
  | ok a => exact .inr ⟨a, rfl, h⟩
  | error e' =>
    cases h
    exact .inl rfl

theorem exists_of_map_eq_ok {x : Except ε α} {f : α → β} {v : β} (h : x.map f = .ok v) :
    ∃ a, x = .ok a ∧ f a = v := by
  cases x with
  | ok a => exact ⟨a, rfl, Except.ok.inj h⟩
  | error e => cases h

theorem eq_error_of_map {x : Except ε α} {f : α → β} {e : ε} (h : x.map f = .error e) : x = .error e := by
  cases x with
  | ok a => cases h
  | error e' =>
    cases h
    rfl

end EightBit
