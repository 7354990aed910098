import Utu.Lib.Procedure

/-!
# Procedures with fuel

A procedure that is cut off when its fuel runs out is a family of procedures.
It settles when from some amount of fuel on all of them return the same; that
is what the program does, which has no fuel.
-/

namespace Procedure
set_option autoImplicit false

universe u
variable {σ ε α β : Type u}

/-- With enough fuel the procedure returns `a` and leaves `s'` behind. -/
def Settles (m : Nat → Proc σ ε α) (s : σ) (a : α) (s' : σ) : Prop :=
  ∃ n, ∀ fuel, n ≤ fuel → Returns (m fuel) s a s'

section Settles
variable {m : Nat → Proc σ ε α} {f : Nat → α → Proc σ ε β} {s t s' : σ} {a : α} {b : β}

theorem settles_of_returns (h : ∀ fuel, Returns (m fuel) s a s') : Settles m s a s' := ⟨0, fun fuel _ => h fuel⟩

theorem Settles.bind (hm : Settles m s a t) (hf : Settles (fun fuel => f fuel a) t b s') :
    Settles (fun fuel => m fuel >>= f fuel) s b s' := by
  obtain ⟨n, hm⟩ := hm
  obtain ⟨k, hf⟩ := hf
  refine ⟨max n k, fun fuel hLe => returns_bind.mpr ⟨a, t, ?_, ?_⟩⟩
  · exact hm fuel (Nat.le_trans (Nat.le_max_left n k) hLe)
  · exact hf fuel (Nat.le_trans (Nat.le_max_right n k) hLe)

/-- A first step without fuel. -/
theorem Returns.settles {p : Proc σ ε α} (hp : Returns p s a t) (hf : Settles (fun fuel => f fuel a) t b s') :
    Settles (fun fuel => p >>= f fuel) s b s' :=
  (settles_of_returns fun _ => hp).bind hf

theorem settles_pure : Settles (fun _ => (pure a : Proc σ ε α)) s a s :=
  settles_of_returns fun _ => returns_pure.mpr ⟨rfl, rfl⟩

theorem Settles.unique {a' : α} {t' : σ} (h : Settles m s a t) (h' : Settles m s a' t') : a = a' ∧ t = t' := by
  obtain ⟨n, h⟩ := h
  obtain ⟨k, h'⟩ := h'
  exact (h (max n k) (Nat.le_max_left n k)).unique (h' (max n k) (Nat.le_max_right n k))

/-- More fuel does not change what is returned. -/
def Steady (m : Nat → Proc σ ε α) : Prop :=
  ∀ ⦃fuel s a s'⦄, Returns (m fuel) s a s' → Returns (m (fuel + 1)) s a s'

theorem steady_const (p : Proc σ ε α) : Steady fun _ => p := fun _ _ _ _ h => h

theorem Steady.bind (hm : Steady m) (hf : ∀ a, Steady fun fuel => f fuel a) : Steady fun fuel => m fuel >>= f fuel := by
  intro fuel s b s' h
  obtain ⟨a, t, hFirst, hRest⟩ := returns_bind.mp h
  exact returns_bind.mpr ⟨a, t, hm hFirst, hf a hRest⟩

theorem steady_ite {c : Prop} [Decidable c] {n : Nat → Proc σ ε α} (hm : Steady m) (hn : Steady n) :
    Steady fun fuel => if c then m fuel else n fuel := by
  intro fuel s a s' h
  rcases returns_ite.mp h with ⟨hc, h⟩ | ⟨hc, h⟩
  · exact returns_ite.mpr (.inl ⟨hc, hm h⟩)
  · exact returns_ite.mpr (.inr ⟨hc, hn h⟩)

/-- What is returned once is what the procedure settles to. -/
theorem Steady.settles (hm : Steady m) {n : Nat} (h : Returns (m n) s a s') : Settles m s a s' := by
  refine ⟨n, fun fuel hLe => ?_⟩
  induction fuel, hLe using Nat.le_induction with
  | base => exact h
  | succ k _ ih => exact hm ih

end Settles

end Procedure
