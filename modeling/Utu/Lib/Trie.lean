import Mathlib

/-!
# Tries in an arena

Nodes are numbered in the order in which they come, and an edge leads from a
node by a label to a later one. A trie is deterministic by construction, and no
two edges lead to the same node, so that a node has one path. Entering a path
adds what is missing of it at its end.
-/

namespace Trie
set_option autoImplicit false

universe u
variable {L : Type u}

abbrev Edges (L : Type u) := Nat → L → Option Nat

def walk (e : Edges L) : Nat → List L → Option Nat
  | i, [] => some i
  | i, l :: p => (e i l).bind fun j => walk e j p

@[simp] theorem walk_nil (e : Edges L) (i : Nat) : walk e i [] = some i := rfl

theorem walk_cons (e : Edges L) (i : Nat) (l : L) (p : List L) :
    walk e i (l :: p) = (e i l).bind fun j => walk e j p := rfl

theorem walk_append (e : Edges L) (i : Nat) (p q : List L) :
    walk e i (p ++ q) = (walk e i p).bind fun j => walk e j q := by
  induction p generalizing i with
  | nil => rfl
  | cons l p ih =>
    rw [List.cons_append, walk_cons, walk_cons]
    cases e i l with
    | none => rfl
    | some j => exact ih j

/-- `n` nodes, edges lead forward and never two to one node. -/
structure IsTrie (e : Edges L) (n : Nat) : Prop where
  forward : ∀ {i l j}, e i l = some j → i < j ∧ j < n
  unique : ∀ {i l i' l' j}, e i l = some j → e i' l' = some j → i = i' ∧ l = l'

section Walks
variable {e : Edges L} {n : Nat}

theorem IsTrie.walk_le (h : IsTrie e n) {i j : Nat} {p : List L} (hWalk : walk e i p = some j) : i ≤ j := by
  induction p generalizing i with
  | nil =>
    cases hWalk
    exact Nat.le_refl _
  | cons l p ih =>
    obtain ⟨k, hEdge, hRest⟩ := Option.bind_eq_some_iff.mp hWalk
    have hForward := h.forward hEdge
    have hLe := ih hRest
    omega

/-- The last edge of a path that is not empty. -/
theorem walk_concat {i j : Nat} {p : List L} {l : L} (hWalk : walk e i (p ++ [l]) = some j) :
    ∃ k, walk e i p = some k ∧ e k l = some j := by
  rw [walk_append] at hWalk
  obtain ⟨k, hFirst, hLast⟩ := Option.bind_eq_some_iff.mp hWalk
  obtain ⟨j', hEdge, hEnd⟩ := Option.bind_eq_some_iff.mp hLast
  cases hEnd
  exact ⟨k, hFirst, hEdge⟩

/-- A node has one path. -/
theorem IsTrie.walk_injective (h : IsTrie e n) {i j : Nat} {p q : List L} (hp : walk e i p = some j)
    (hq : walk e i q = some j) : p = q := by
  induction p using List.reverseRecOn generalizing q j with
  | nil =>
    cases hp
    induction q using List.reverseRecOn with
    | nil => rfl
    | append_singleton q l _ =>
      obtain ⟨k, hWalk, hEdge⟩ := walk_concat hq
      have hLe := h.walk_le hWalk
      have hLt := (h.forward hEdge).1
      omega
  | append_singleton p l ih =>
    obtain ⟨k, hWalk, hEdge⟩ := walk_concat hp
    induction q using List.reverseRecOn with
    | nil =>
      cases hq
      have hLe := h.walk_le hWalk
      have hLt := (h.forward hEdge).1
      omega
    | append_singleton q l' _ =>
      obtain ⟨k', hWalk', hEdge'⟩ := walk_concat hq
      obtain ⟨rfl, rfl⟩ := h.unique hEdge hEdge'
      rw [ih hWalk hWalk']

theorem IsTrie.walk_lt (h : IsTrie e n) {i j : Nat} (hi : i < n) {p : List L} (hWalk : walk e i p = some j) :
    j < n := by
  induction p using List.reverseRecOn generalizing j with
  | nil =>
    cases hWalk
    exact hi
  | append_singleton p l _ =>
    obtain ⟨k, -, hEdge⟩ := walk_concat hWalk
    exact (h.forward hEdge).2

theorem walk_keeps {e' : Edges L} (hKeeps : ∀ {j m k}, e j m = some k → e' j m = some k) {j k : Nat}
    {p : List L} (h : walk e j p = some k) : walk e' j p = some k := by
  induction p generalizing j with
  | nil => exact h
  | cons m p ih =>
    obtain ⟨k', hEdge, hRest⟩ := Option.bind_eq_some_iff.mp h
    rw [walk_cons, hKeeps hEdge]
    exact ih hRest

end Walks

/-! ## One more edge -/

variable [DecidableEq L]

/-- A new edge to the node `n`. -/
def link (e : Edges L) (i : Nat) (l : L) (n : Nat) : Edges L :=
  fun j m => if j = i ∧ m = l then some n else e j m

section Link
variable {e : Edges L} {n i : Nat} {l : L}

theorem link_self : link e i l n i l = some n := if_pos ⟨rfl, rfl⟩

theorem link_cases {j k : Nat} {m : L} (h : link e i l n j m = some k) :
    (j = i ∧ m = l ∧ k = n) ∨ e j m = some k := by
  rw [link] at h
  split at h
  · rename_i hSame
    cases h
    exact .inl ⟨hSame.1, hSame.2, rfl⟩
  · exact .inr h

theorem link_keeps (hNew : e i l = none) {j k : Nat} {m : L} (h : e j m = some k) :
    link e i l n j m = some k := by
  rw [link, if_neg]
  · exact h
  · rintro ⟨rfl, rfl⟩
    rw [hNew] at h
    cases h

theorem IsTrie.link (h : IsTrie e n) (hi : i < n) : IsTrie (link e i l n) (n + 1) where
  forward := by
    intro j m k hEdge
    rcases link_cases hEdge with ⟨rfl, rfl, rfl⟩ | hOld
    · omega
    · have hForward := h.forward hOld
      omega
  unique := by
    intro j m j' m' k hEdge hEdge'
    rcases link_cases hEdge with ⟨rfl, rfl, rfl⟩ | hOld <;>
      rcases link_cases hEdge' with ⟨rfl, rfl, hk⟩ | hOld'
    · exact ⟨rfl, rfl⟩
    · have hForward := h.forward hOld'
      omega
    · have hForward := h.forward hOld
      omega
    · exact h.unique hOld hOld'

/-- A path over the new edge ends there. -/
theorem IsTrie.walk_link (h : IsTrie e n) {j k : Nat} (hj : j < n) {p : List L}
    (hWalk : walk (Trie.link e i l n) j p = some k) :
    walk e j p = some k ∨ (k = n ∧ ∃ q, p = q ++ [l] ∧ walk e j q = some i) := by
  induction p using List.reverseRecOn generalizing k with
  | nil => exact .inl hWalk
  | append_singleton p m ih =>
    obtain ⟨k', hFirst, hEdge⟩ := walk_concat hWalk
    have hNone : ∀ m, e n m = none := by
      intro m
      cases hOut : e n m with
      | none => rfl
      | some k =>
        have hForward := h.forward hOut
        omega
    rcases ih hFirst with hOld | ⟨rfl, q, rfl, hq⟩
    · rcases link_cases hEdge with ⟨rfl, rfl, rfl⟩ | hStep
      · exact .inr ⟨rfl, p, rfl, hOld⟩
      · left
        rw [walk_append, hOld]
        simp [walk, hStep]
    · rcases link_cases hEdge with ⟨rfl, rfl, rfl⟩ | hStep
      · -- the edge would start at its own end
        have hLt := h.walk_lt hj hq
        omega
      · rw [hNone] at hStep
        cases hStep

end Link

/-! ## Entering a path -/

/-- The edges and their number of nodes after the path from `i` is entered. -/
def enter : Edges L → Nat → Nat → List L → Edges L × Nat
  | e, n, _, [] => (e, n)
  | e, n, i, l :: p =>
    match e i l with
    | some j => enter e n j p
    | none => enter (link e i l n) (n + 1) n p

section Enter
variable {e : Edges L} {n i : Nat} {p : List L}

theorem IsTrie.enter (h : IsTrie e n) (hi : i < n) : IsTrie (enter e n i p).1 (Trie.enter e n i p).2 := by
  induction p generalizing e n i with
  | nil => exact h
  | cons l p ih =>
    rw [Trie.enter]
    cases hEdge : e i l with
    | some j => exact ih h (h.forward hEdge).2
    | none => exact ih (h.link hi) (Nat.lt_succ_self n)

theorem enter_keeps {j k : Nat} {m : L} (hEdge : e j m = some k) : (enter e n i p).1 j m = some k := by
  induction p generalizing e n i with
  | nil => exact hEdge
  | cons l p ih =>
    rw [enter]
    cases hNew : e i l with
    | some j => exact ih hEdge
    | none => exact ih (link_keeps hNew hEdge)

/-- Only beginnings of the path are new, and they lead to new nodes. -/
theorem IsTrie.walk_of_enter (h : IsTrie e n) {r : List L} {j : Nat} (hj : j < n)
    (hr : walk e j r = some i) {q : List L} {k : Nat} (hWalk : walk (Trie.enter e n i p).1 j q = some k) :
    walk e j q = some k ∨ (n ≤ k ∧ q <+: r ++ p) := by
  induction p generalizing e n i r with
  | nil => exact .inl hWalk
  | cons l p ih =>
    rw [Trie.enter] at hWalk
    have hSnoc : r ++ l :: p = r ++ [l] ++ p := by simp
    cases hEdge : e i l with
    | some i' =>
      rw [hEdge] at hWalk
      rw [hSnoc]
      apply ih h hj _ hWalk
      rw [walk_append, hr]
      simp [walk, hEdge]
    | none =>
      rw [hEdge] at hWalk
      have hi := h.walk_lt hj hr
      have hr' : walk (Trie.link e i l n) j (r ++ [l]) = some n := by
        rw [walk_append, walk_keeps (link_keeps hEdge) hr]
        simp [walk, link_self]
      rcases ih (h.link hi) (Nat.lt_succ_of_lt hj) hr' hWalk with hLink | ⟨hNew, hBegin⟩
      · rcases h.walk_link hj hLink with hOld | ⟨rfl, q', rfl, hq'⟩
        · exact .inl hOld
        · obtain rfl := h.walk_injective hr hq'
          right
          rw [hSnoc]
          exact ⟨Nat.le_refl k, List.prefix_append _ p⟩
      · right
        rw [hSnoc]
        exact ⟨by omega, hBegin⟩

end Enter

end Trie
