import Mathlib.Data.List.Sort
import Mathlib.Logic.Function.Basic

/-!
# Channels under counters

Two sides send to each other over one first-in first-out channel each way. What
is sent is made under the sender's counter and read under the receiver's, and
both counters move on by one. The sides are in step when what is on its way was
made under the counters from the receiver's to the sender's, in this order.

On a wire that is not trusted the items may be lost, held back, repeated or
made up. If only what was sent under the reader's counter passes, then what
passes is what was sent, in its order, with gaps.
-/

namespace Channel
set_option autoImplicit false

universe u
variable {N P : Type u}

/-- The items on their way to a receiver at the first counter from a sender at the second. -/
inductive InStep (next : N → N) (made : N → P → Prop) : N → List P → N → Prop
  | nil (n : N) : InStep next made n [] n
  | cons {n n' : N} {p : P} {rest : List P} : made n p → InStep next made (next n) rest n' →
      InStep next made n (p :: rest) n'

section InStep
variable {next : N → N} {made : N → P → Prop} {n n' : N} {p : P} {items : List P}

theorem InStep.snoc (h : InStep next made n items n') (hp : made n' p) :
    InStep next made n (items ++ [p]) (next n') := by
  induction h with
  | nil n => exact .cons hp (.nil _)
  | cons hFirst _ ih => exact .cons hFirst (ih hp)

theorem inStep_cons : InStep next made n (p :: items) n' ↔ made n p ∧ InStep next made (next n) items n' := by
  constructor
  · intro h
    cases h with
    | cons hp hRest => exact ⟨hp, hRest⟩
  · rintro ⟨hp, hRest⟩
    exact .cons hp hRest

end InStep

/-! ## Both ways -/

inductive Side where
  | left
  | right
deriving DecidableEq, Repr

def Side.other : Side → Side
  | .left => .right
  | .right => .left

@[simp] theorem Side.other_other (s : Side) : s.other.other = s := by cases s <;> rfl

/-- The counters that each side reads and writes under, and what is on its way to it. -/
structure Duplex (N P : Type u) where
  reading : Side → N
  writing : Side → N
  inbox : Side → List P

/-- One side sends an item or takes the first of its inbox. What makes an item good for a side is up to
the side. -/
inductive Duplex.Step (next : N → N) (made : Side → N → P → Prop) : Duplex N P → Duplex N P → Prop
  | send {d : Duplex N P} (s : Side) {p : P} : made s.other (d.writing s) p →
      Step next made d ⟨d.reading, Function.update d.writing s (next (d.writing s)),
        Function.update d.inbox s.other (d.inbox s.other ++ [p])⟩
  | receive {d : Duplex N P} (s : Side) {p : P} {rest : List P} : d.inbox s = p :: rest →
      Step next made d ⟨Function.update d.reading s (next (d.reading s)), d.writing,
        Function.update d.inbox s rest⟩

def Duplex.InSync (next : N → N) (made : Side → N → P → Prop) (d : Duplex N P) : Prop :=
  ∀ s, InStep next (made s) (d.reading s) (d.inbox s) (d.writing s.other)

namespace Duplex
variable {next : N → N} {made : Side → N → P → Prop} {d d' : Duplex N P}

theorem inSync_empty (hInbox : ∀ s, d.inbox s = []) (hCounters : ∀ s, d.reading s = d.writing s.other) :
    d.InSync next made := by
  intro s
  rw [hInbox, hCounters]
  exact .nil _

/-- The first item of an inbox was made under the counter it is read under. -/
theorem InSync.first (h : d.InSync next made) {s : Side} {p : P} {rest : List P} (hp : d.inbox s = p :: rest) :
    made s (d.reading s) p := by
  have hs := h s
  rw [hp] at hs
  exact (inStep_cons.mp hs).1

theorem Step.inSync (hStep : Step next made d d') (h : d.InSync next made) : d'.InSync next made := by
  intro t
  have ht := h t
  cases hStep with
  | send s hp =>
    by_cases hTo : t = s.other
    · subst hTo
      simpa using ht.snoc (by simpa using hp)
    · have hFrom : t.other ≠ s := by
        rintro rfl
        exact hTo t.other_other.symm
      simpa [hTo, hFrom] using ht
  | receive s hInbox =>
    by_cases hAt : t = s
    · subst hAt
      rw [hInbox] at ht
      simpa using (inStep_cons.mp ht).2
    · simpa [hAt] using ht

end Duplex

/-! ## An untrusted wire -/

section Stamps
variable {stamp : P → N} {count : Nat → N} {n n' : Nat} {x y p : P} {l l' : List P}

/-- The stamps are two of the first `n` counters, in this order. -/
def Earlier (stamp : P → N) (count : Nat → N) (n : Nat) (x y : P) : Prop :=
  ∃ j k, j < k ∧ k < n ∧ stamp x = count j ∧ stamp y = count k

/-- The items are stamped with counters that go up and have not reached the `n`-th. -/
structure Rising (stamp : P → N) (count : Nat → N) (l : List P) (n : Nat) : Prop where
  sorted : l.Pairwise (Earlier stamp count n)
  below : ∀ x ∈ l, ∃ k < n, stamp x = count k

theorem rising_nil : Rising stamp count [] n := ⟨List.Pairwise.nil, by simp⟩

theorem Rising.mono (h : Rising stamp count l n) (hLe : n ≤ n') : Rising stamp count l n' := by
  constructor
  · apply h.sorted.imp
    rintro x y ⟨j, k, hjk, hk, hStamps⟩
    exact ⟨j, k, hjk, hk.trans_le hLe, hStamps⟩
  · intro x hx
    obtain ⟨k, hk, hStamp⟩ := h.below x hx
    exact ⟨k, hk.trans_le hLe, hStamp⟩

theorem Rising.snoc (h : Rising stamp count l n) (hp : stamp p = count n) :
    Rising stamp count (l ++ [p]) (n + 1) := by
  constructor
  · apply List.pairwise_append.mpr
    refine ⟨(h.mono (Nat.le_succ n)).sorted, List.pairwise_singleton _ _, ?_⟩
    intro x hx y hy
    obtain ⟨k, hk, hStamp⟩ := h.below x hx
    rw [List.mem_singleton.mp hy]
    exact ⟨k, n, hk, Nat.lt_succ_self n, hStamp, hp⟩
  · intro x hx
    rcases List.mem_append.mp hx with hx | hx
    · exact (h.mono (Nat.le_succ n)).below x hx
    · rw [List.mem_singleton.mp hx]
      exact ⟨n, Nat.lt_succ_self n, hp⟩

variable (hCount : ∀ j k, j < n → k < n → count j = count k → j = k)
include hCount

theorem Earlier.ne (h : Earlier stamp count n x y) : stamp x ≠ stamp y := by
  obtain ⟨j, k, hjk, hk, hx, hy⟩ := h
  intro hSame
  have hEq := hCount j k (hjk.trans hk) hk (hx.symm.trans (hSame.trans hy))
  exact Nat.ne_of_lt hjk hEq

/-- As long as no counter comes round, what passes is what was sent, in its order, with gaps. -/
theorem Rising.sublist (h : Rising stamp count l n) (h' : Rising stamp count l' n) (hSub : l ⊆ l') :
    l.Sublist l' := by
  have hNodup : l.Nodup := by
    apply h.sorted.imp
    rintro x y hxy rfl
    exact hxy.ne hCount rfl
  have hAntisymm : Std.Antisymm (Earlier stamp count n) := by
    constructor
    rintro x y ⟨j, k, hjk, hk, hx, hy⟩ ⟨j', k', hjk', hk', hy', hx'⟩
    have hFirst := hCount j k' (hjk.trans hk) hk' (hx.symm.trans hx')
    have hSecond := hCount k j' hk (hjk'.trans hk') (hy.symm.trans hy')
    omega
  exact List.sublist_of_subperm_of_pairwise (List.subperm_of_subset hNodup hSub) h.sorted h'.sorted

end Stamps

end Channel
