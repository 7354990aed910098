import Utu.Lib.Fuel
import Utu.Protocol.World
import Utu.Stackish.Message

/-!
# Messages in the world

What the node functions do to a message: build it, take it apart, print it and
read it back. Every rule says what is in memory afterwards and that nothing in
it was touched.
-/

namespace Utu.Protocol
open Stackish LinkedForest Procedure
set_option autoImplicit false

variable {D K S U : Type} {env : Env D K S} {w : World D K S U}

/-- The node is the root of this tree. -/
def World.Holds (w : World D K S U) (node : Nat) (t : Stackish.Tree D) : Prop := Represents w.heap none (some node) t

/-- The same world with more in memory. -/
def World.grown (w : World D K S U) (heap : Heap D) : World D K S U := { w with heap }

section Checks
variable {α : Type} {m n : Nat → Call D K S U α} {a : α} {w' : World D K S U} {c : Bool}

theorem settles_checkPass (hc : c = true) (hErrno : w.errno = 0) (hn : Settles n w a w') :
    Settles (fun fuel => check c >>= fun b => if (!b) = true then m fuel else n fuel) w a w' :=
  (returns_check_true hc hErrno).settles hn

theorem settles_checkFail (hc : (c && w.errno == 0) = false) (hm : Settles m w.clear a w') :
    Settles (fun fuel => check c >>= fun b => if (!b) = true then m fuel else n fuel) w a w' :=
  (returns_check.mpr ⟨hc.symm, rfl⟩).settles hm

end Checks

theorem returns_cons_message (hErrno : w.errno = 0) (e : Elems) (word : Option Bytes)
    (hNew : ∀ p ∈ (e.format : List (Piece D)), p.makesNew = true) :
    ∃ root heap, Returns (cons (.start :: (e.format ++ [rootPiece word]))) w (some root) (w.grown heap) ∧
      (w.grown heap).Holds root (e.tree word) ∧ Extends w.heap heap := by
  obtain ⟨root, heap, hCons, hTree, hExt⟩ := nodeCons_message w.heap e word hNew
  refine ⟨root, heap, returns_cons.mpr ⟨heap, ?_, rfl⟩, hTree, hExt⟩
  rw [hErrno]
  exact hCons

theorem returns_decons_message (env : Env D K S) (hErrno : w.errno = 0) {root : Nat} (copy : Bool) {e : Elems}
    (hNonempty : e ≠ .nil)
    (hFull : e.Full) {word : Option Bytes} (hTree : w.Holds root (e.tree word)) :
    ∃ bound, Returns (decons env root copy (.start :: (e.rev ++ [rootExpect word]))) w (true, bound) w ∧
      List.Forall₂ (Stores w.heap) bound e.values := by
  obtain ⟨bound, hDecons, hBound⟩ := nodeDecons_message env.lib copy hNonempty hFull hTree
  refine ⟨bound, returns_decons.mpr ⟨?_, (World.clear_of_errno hErrno).symm⟩, hBound⟩
  rw [hErrno]
  exact hDecons

theorem returns_bstr_document {t : Document D} (hFits : Fits t.tree) {root : Nat} (hTree : w.Holds root t.tree) :
    Returns (bstr env (some root)) w t.encode w :=
  returns_bstr.mpr ⟨nodeBstr_document hFits hTree, rfl⟩

theorem settles_parse_document (env : Env D K S) (hErrno : w.errno = 0) {t : Document D} (hFits : Fits t.tree) :
    ∃ root heap, Settles (fun fuel => parse { env with fuel } t.encode) w (some root) (w.grown heap) ∧
      (w.grown heap).Holds root t.tree ∧ Extends w.heap heap := by
  obtain ⟨n, root, next, heap, hParse, hExt, hTree⟩ := nodeParseSeq_document env.lib hFits w.heap
  refine ⟨root, heap, ⟨n, fun fuel hLe => ?_⟩, hTree, hExt⟩
  refine returns_parse.mpr ⟨next, returns_parseSeq.mpr ⟨⟨some root, next, heap, 0⟩, ?_, rfl, ?_⟩⟩
  · rw [hErrno]
    exact hParse fuel hLe
  · rw [World.grown, ← hErrno]

/-! ## Outputs -/

section Bound
variable {h : Heap D} {bound : List (Bound D)} {vs : List Leaf} {i : Nat}

theorem stores_at (hBound : List.Forall₂ (Stores h) bound vs) {v : Leaf} (hv : vs[i]? = some v) :
    ∃ b, bound[i]? = some b ∧ Stores h b v := by
  induction hBound generalizing i with
  | nil => cases hv
  | cons hHead _ ih =>
    cases i with
    | zero =>
      cases hv
      exact ⟨_, rfl, hHead⟩
    | succ i => exact ih hv

theorem boundNumber_stores (hBound : List.Forall₂ (Stores h) bound vs) {n : UInt64}
    (hn : vs[i]? = some (.number n)) (old : UInt64) : boundNumber bound i old = n := by
  obtain ⟨b, hb, hStores⟩ := stores_at hBound hn
  rw [boundNumber, hb]
  cases b with
  | number m => exact hStores
  | float | copied | shared | group => exact hStores.elim

theorem boundString_stores (hBound : List.Forall₂ (Stores h) bound vs) {s : Bytes}
    (hs : vs[i]? = some (.string s) ∨ vs[i]? = some (.blob s)) (old : Option Bytes) :
    boundString h bound i old = some s := by
  have hAll : ∀ b v, Stores h b v → v = .string s ∨ v = .blob s → bound[i]? = some b →
      boundString h bound i old = some s := by
    intro b v hStores hv hb
    rw [boundString, hb]
    rcases hv with rfl | rfl
    all_goals
      cases b with
      | copied t => exact hStores
      | shared a =>
        obtain ⟨cell, hCell, hValue⟩ := hStores
        simp only [nodeString, hCell, hValue]
      | number | float | group => exact hStores.elim
  rcases hs with hs | hs
  · obtain ⟨b, hb, hStores⟩ := stores_at hBound hs
    exact hAll b _ hStores (.inl rfl) hb
  · obtain ⟨b, hb, hStores⟩ := stores_at hBound hs
    exact hAll b _ hStores (.inr rfl) hb

end Bound

end Utu.Protocol
