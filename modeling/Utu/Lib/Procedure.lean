import Utu.Lib.Outcome

/-!
# Procedures on a state

A procedure changes a state and returns a value, or stops the program. Reading
a run backwards from its result is done with the relation `Returns`: one rule
for each way of building a procedure, each of them an equivalence, so that the
same rules take a run apart and put one together.
-/

namespace Procedure
set_option autoImplicit false

universe u
variable {σ ε α β : Type u}

abbrev Proc (σ ε α : Type u) := StateT σ (Except ε) α

/-- Started in `s`, the procedure returns `a` and leaves `s'` behind. -/
def Returns (m : Proc σ ε α) (s : σ) (a : α) (s' : σ) : Prop := m s = .ok (a, s')

theorem Returns.unique {m : Proc σ ε α} {s s₁ s₂ : σ} {a₁ a₂ : α} (h₁ : Returns m s a₁ s₁)
    (h₂ : Returns m s a₂ s₂) : a₁ = a₂ ∧ s₁ = s₂ := by
  have hSame := h₁.symm.trans h₂
  simpa using hSame

/-- A run is known from the value it computes. -/
theorem exists_returns {m : Proc σ ε α} {s : σ} {a : α} (h : (m s).map Prod.fst = .ok a) :
    ∃ s', Returns m s a s' := by
  cases hr : m s with
  | error e =>
    rw [hr] at h
    cases h
  | ok p =>
    rw [hr] at h
    cases h
    exact ⟨p.2, hr⟩

theorem returns_pure {a b : α} {s s' : σ} :
    Returns (pure a : Proc σ ε α) s b s' ↔ b = a ∧ s' = s := by
  change Except.ok (a, s) = .ok (b, s') ↔ _
  rw [Except.ok.injEq, Prod.mk.injEq, eq_comm (a := a), eq_comm (a := s)]

theorem returns_bind {m : Proc σ ε α} {f : α → Proc σ ε β} {s s' : σ} {b : β} :
    Returns (m >>= f) s b s' ↔ ∃ a t, Returns m s a t ∧ Returns (f a) t b s' := by
  change ((m s : Except ε (α × σ)) >>= fun p => f p.1 p.2) = .ok (b, s') ↔ _
  rw [Outcome.bind_eq_ok_iff, Prod.exists]
  rfl

/-- A first step whose result is known. -/
theorem Returns.bind_apply {m : Proc σ ε α} {s t : σ} {a : α} (h : Returns m s a t) (f : α → Proc σ ε β) :
    (m >>= f) s = f a t :=
  Outcome.bind_of_ok h fun p => f p.1 p.2

theorem returns_ite {c : Prop} [Decidable c] {m n : Proc σ ε α} {s s' : σ} {a : α} :
    Returns (if c then m else n) s a s' ↔ (c ∧ Returns m s a s') ∨ (¬ c ∧ Returns n s a s') := by
  split
  · rename_i h
    simp [h]
  · rename_i h
    simp [h]

theorem returns_throw {e : ε} {a : α} {s s' : σ} :
    Returns (throw e : Proc σ ε α) s a s' ↔ False := by
  change Except.error e = .ok (a, s') ↔ _
  simp

theorem returns_lift {r : Except ε α} {a : α} {s s' : σ} :
    Returns (liftM r : Proc σ ε α) s a s' ↔ r = .ok a ∧ s' = s := by
  cases r with
  | error e =>
    change Except.error e = .ok (a, s') ↔ _
    simp
  | ok b =>
    change Except.ok (b, s) = .ok (a, s') ↔ _
    rw [Except.ok.injEq, Prod.mk.injEq, Except.ok.injEq, eq_comm (a := s)]

theorem returns_get {s s' t : σ} : Returns (get : Proc σ ε σ) s t s' ↔ t = s ∧ s' = s :=
  returns_pure

theorem returns_set {s s' t : σ} {a : PUnit} :
    Returns (set t : Proc σ ε PUnit) s a s' ↔ s' = t := by
  change Except.ok (PUnit.unit, t) = .ok (a, s') ↔ _
  rw [Except.ok.injEq, Prod.mk.injEq, eq_comm (a := t)]
  simp

theorem returns_modify {f : σ → σ} {s s' : σ} {a : PUnit} :
    Returns (modify f : Proc σ ε PUnit) s a s' ↔ s' = f s := by
  change Except.ok (PUnit.unit, f s) = .ok (a, s') ↔ _
  rw [Except.ok.injEq, Prod.mk.injEq, eq_comm (a := f s)]
  simp

/-! ## Runs that are there -/

/-- The procedure returns, with a result and a state in `P`. -/
def Yields (m : Proc σ ε α) (s : σ) (P : α → σ → Prop) : Prop := ∃ a s', Returns m s a s' ∧ P a s'

section Yields
variable {m n : Proc σ ε α} {s t : σ} {a : α} {P Q : α → σ → Prop} {R : β → σ → Prop}

theorem Returns.yields (h : Returns m s a t) (hP : P a t) : Yields m s P := ⟨a, t, h, hP⟩

theorem yields_pure (h : P a s) : Yields (pure a : Proc σ ε α) s P :=
  Returns.yields (returns_pure.mpr ⟨rfl, rfl⟩) h

theorem Yields.mono (h : Yields m s P) (hPQ : ∀ a s, P a s → Q a s) : Yields m s Q := by
  obtain ⟨a, s', hm, hP⟩ := h
  exact ⟨a, s', hm, hPQ a s' hP⟩

theorem Yields.bind {f : α → Proc σ ε β} (h : Yields m s P) (hf : ∀ a t, P a t → Yields (f a) t R) :
    Yields (m >>= f) s R := by
  obtain ⟨a, t, hm, hP⟩ := h
  obtain ⟨b, s', hfa, hR⟩ := hf a t hP
  exact ⟨b, s', returns_bind.mpr ⟨a, t, hm, hfa⟩, hR⟩

theorem Returns.then {f : α → Proc σ ε β} (h : Returns m s a t) (hf : Yields (f a) t R) :
    Yields (m >>= f) s R := by
  obtain ⟨b, s', hfa, hR⟩ := hf
  exact ⟨b, s', returns_bind.mpr ⟨a, t, h, hfa⟩, hR⟩

/-- Behind a first step whose result is known. -/
theorem Returns.then_iff {f : α → Proc σ ε β} (h : Returns m s a t) : Yields (m >>= f) s R ↔ Yields (f a) t R := by
  constructor
  · rintro ⟨b, s', hBind, hR⟩
    obtain ⟨a', t', hm, hf⟩ := returns_bind.mp hBind
    obtain ⟨rfl, rfl⟩ := h.unique hm
    exact ⟨b, s', hf, hR⟩
  · exact h.then

theorem yields_pure_iff : Yields (pure a : Proc σ ε α) s P ↔ P a s := by
  constructor
  · rintro ⟨b, s', hPure, hP⟩
    obtain ⟨rfl, rfl⟩ := returns_pure.mp hPure
    exact hP
  · exact yields_pure

theorem yields_throw_iff {e : ε} : Yields (throw e : Proc σ ε α) s P ↔ False := by
  constructor
  · rintro ⟨b, s', hThrow, -⟩
    exact returns_throw.mp hThrow
  · exact False.elim

theorem yields_bind_iff {f : α → Proc σ ε β} : Yields (m >>= f) s R ↔ Yields m s fun a t => Yields (f a) t R := by
  constructor
  · rintro ⟨b, s', hBind, hR⟩
    obtain ⟨a, t, hm, hf⟩ := returns_bind.mp hBind
    exact ⟨a, t, hm, b, s', hf, hR⟩
  · intro h
    exact h.bind fun a t hf => hf

theorem yields_ite {c : Prop} [Decidable c] (hm : c → Yields m s P) (hn : ¬c → Yields n s P) :
    Yields (if c then m else n) s P := by
  split
  · rename_i hc
    exact hm hc
  · rename_i hc
    exact hn hc

/-- What a run that is there returns. -/
theorem Yields.of_returns (h : Yields m s P) (hm : Returns m s a t) : P a t := by
  obtain ⟨b, s', hm', hP⟩ := h
  obtain ⟨rfl, rfl⟩ := hm.unique hm'
  exact hP

/-- A run that is there decides what holds of the result. -/
theorem yields_iff {c : Prop} (h : Yields m s Q) (hQ : ∀ a t, Q a t → (P a t ↔ c)) : Yields m s P ↔ c := by
  obtain ⟨a, t, hm, ha⟩ := h
  rw [← hQ a t ha]
  exact ⟨fun hP => hP.of_returns hm, hm.yields⟩

end Yields

/-! ## What every run keeps -/

/-- Whatever the procedure returns, the state it leaves is related to the one it found. -/
def Keeps (R : σ → σ → Prop) (m : Proc σ ε α) : Prop := ∀ ⦃s a s'⦄, Returns m s a s' → R s s'

section Keeps
variable {R : σ → σ → Prop}

theorem keeps_ite {c : Prop} [Decidable c] {m n : Proc σ ε α} (hm : Keeps R m) (hn : Keeps R n) :
    Keeps R (if c then m else n) := by
  intro s a s' h
  rcases returns_ite.mp h with ⟨-, h⟩ | ⟨-, h⟩
  · exact hm h
  · exact hn h

theorem keeps_throw (e : ε) : Keeps R (throw e : Proc σ ε α) := by
  intro s a s' h
  exact (returns_throw.mp h).elim

theorem keeps_modify {f : σ → σ} (hf : ∀ s, R s (f s)) : Keeps R (modify f : Proc σ ε PUnit) := by
  intro s a s' h
  obtain rfl := returns_modify.mp h
  exact hf s

/-- A procedure that looks at the state first may set it to something that depends on it. -/
theorem keeps_getThen {f : σ → Proc σ ε α}
    (hf : ∀ s a s', Returns (f s) s a s' → R s s') : Keeps R (get >>= f) := by
  intro s a s' h
  obtain ⟨t, u, hGet, h⟩ := returns_bind.mp h
  obtain ⟨rfl, rfl⟩ := returns_get.mp hGet
  exact hf u a s' h

variable [IsPreorder σ R]

theorem keeps_pure (a : α) : Keeps R (pure a : Proc σ ε α) := by
  intro s b s' h
  obtain ⟨-, rfl⟩ := returns_pure.mp h
  exact refl_of R s'

theorem keeps_bind {m : Proc σ ε α} {f : α → Proc σ ε β} (hm : Keeps R m)
    (hf : ∀ a, Keeps R (f a)) : Keeps R (m >>= f) := by
  intro s b s' h
  obtain ⟨a, t, h₁, h₂⟩ := returns_bind.mp h
  exact trans_of R (hm h₁) (hf a h₂)

theorem keeps_lift (r : Except ε α) : Keeps R (liftM r : Proc σ ε α) := by
  intro s a s' h
  obtain ⟨-, rfl⟩ := returns_lift.mp h
  exact refl_of R s'

theorem keeps_get : Keeps R (get : Proc σ ε σ) := by
  intro s a s' h
  obtain ⟨-, rfl⟩ := returns_get.mp h
  exact refl_of R s'

end Keeps

end Procedure
