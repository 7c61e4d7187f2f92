import Mathlib

/-! Inversion of fallible computations: what a successful chain of steps says about each step. -/

namespace TinyCortex.Fallible

universe u v

variable {ε : Type v} {α β : Type u}

theorem bind_ok_iff {x : Except ε α} {f : α → Except ε β} {b : β} :
    (x >>= f) = .ok b ↔ ∃ a, x = .ok a ∧ f a = .ok b := by
  cases x with
  | error e =>
      constructor
      · intro h
        cases h
      · rintro ⟨a, h, -⟩
        cases h
  | ok a =>
      constructor
      · exact fun h => ⟨a, rfl, h⟩
      · rintro ⟨a', h, hf⟩
        cases h
        exact hf

theorem map_ok_iff {x : Except ε α} {f : α → β} {b : β} :
    x.map f = .ok b ↔ ∃ a, x = .ok a ∧ f a = b := by
  cases x with
  | error e =>
      constructor
      · intro h
        cases h
      · rintro ⟨a, h, -⟩
        cases h
  | ok a =>
      constructor
      · exact fun h => ⟨a, rfl, Except.ok.inj h⟩
      · rintro ⟨a', h, hf⟩
        cases h
        rw [← hf]
        rfl

theorem map_error_iff {x : Except ε α} {f : α → β} {e : ε} :
    x.map f = .error e ↔ x = .error e := by
  cases x with
  | error e' => exact ⟨fun h => congrArg _ (Except.error.inj h), fun h => h ▸ rfl⟩
  | ok a =>
      constructor
      · intro h
        cases h
      · intro h
        cases h

/-- A check that fails with a message. -/
def ensure (condition : Prop) [Decidable condition] (message : String) : Except String Unit :=
  if condition then .ok () else .error message

theorem ensure_eq_ok {condition : Prop} [Decidable condition] {message : String} {done : Unit} :
    ensure condition message = .ok done ↔ condition := by
  rw [ensure]
  split_ifs with h
  · exact iff_of_true rfl h
  · exact iff_of_false nofun h

end TinyCortex.Fallible
