import Mathlib

/-!
# Inverting runs of partial programs

A program that can stop early is a value of `Except`. These are the rules that
take a sequence of calls apart at its result, and the ones that execute a call
whose result is known. A call that can fail in some ways only is specified by
these errors and by what holds of a result.
-/

namespace Outcome
set_option autoImplicit false

universe u v w
variable {ε : Type u} {α β : Type v}

theorem bind_eq_ok_iff {x : Except ε α} {f : α → Except ε β} {b : β} :
    (x >>= f) = .ok b ↔ ∃ a, x = .ok a ∧ f a = .ok b := by
  cases x with
  | error e =>
    constructor
    · intro h
      cases h
    · rintro ⟨a, h, -⟩
      cases h
  | ok a =>
    constructor
    · intro h
      exact ⟨a, rfl, h⟩
    · rintro ⟨a', h, hf⟩
      cases h
      exact hf

theorem map_eq_ok_iff {f : α → β} {x : Except ε α} {b : β} :
    f <$> x = .ok b ↔ ∃ a, x = .ok a ∧ f a = b := by
  cases x with
  | error e =>
    constructor
    · intro h
      cases h
    · rintro ⟨a, h, -⟩
      cases h
  | ok a =>
    constructor
    · intro h
      exact ⟨a, rfl, Except.ok.inj h⟩
    · rintro ⟨_, h, rfl⟩
      cases h
      rfl

theorem bind_of_ok {x : Except ε α} {a : α} (h : x = .ok a) (f : α → Except ε β) :
    (x >>= f) = f a := by
  rw [h]
  rfl

theorem bind_of_error {x : Except ε α} {e : ε} (h : x = .error e) (f : α → Except ε β) :
    (x >>= f) = .error e := by
  rw [h]
  rfl

/-! ## Calls that fail in known ways -/

/-- The result is in `P`, unless the call stops with an error in `E`. -/
def Barring (E : Set ε) (x : Except ε α) (P : α → Prop) : Prop :=
  (∃ e ∈ E, x = .error e) ∨ ∃ a, x = .ok a ∧ P a

namespace Barring
variable {E F : Set ε} {x : Except ε α} {f : α → Except ε β} {P : α → Prop} {Q : β → Prop}

theorem pure {a : α} (h : P a) : Barring E (.ok a) P := .inr ⟨a, rfl, h⟩

theorem error {e : ε} (h : e ∈ E) : Barring E (.error e) P := .inl ⟨e, h, rfl⟩

theorem of_eq {a : α} (hx : x = .ok a) (h : P a) : Barring E x P := .inr ⟨a, hx, h⟩

theorem bind (h : Barring E x P) (hf : ∀ a, P a → Barring E (f a) Q) : Barring E (x >>= f) Q := by
  rcases h with ⟨e, he, rfl⟩ | ⟨a, rfl, ha⟩
  · exact .inl ⟨e, he, rfl⟩
  · exact hf a ha

theorem mono {R : α → Prop} (h : Barring E x P) (hR : ∀ a, P a → R a) : Barring E x R := by
  rcases h with hError | ⟨a, rfl, ha⟩
  · exact .inl hError
  · exact .inr ⟨a, rfl, hR a ha⟩

theorem weaken (h : Barring E x P) (hE : E ⊆ F) : Barring F x P := by
  rcases h with ⟨e, he, rfl⟩ | hOk
  · exact .inl ⟨e, hE he, rfl⟩
  · exact .inr hOk

theorem of_ok {a : α} (h : Barring E x P) (hx : x = .ok a) : P a := by
  rcases h with ⟨e, -, rfl⟩ | ⟨b, rfl, hb⟩
  · cases hx
  · cases hx
    exact hb

end Barring

end Outcome
