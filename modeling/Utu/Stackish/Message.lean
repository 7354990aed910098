import Utu.Stackish.Inverse
import Utu.Stackish.Canonical

/-!
# Messages

A message is a group that `Node_cons` builds from a format and `Node_decons`
takes apart again. Here it is a tree: the one that a format builds, that the
reversed format reads wherever it is stored, and that comes back from its text.
-/

namespace Utu.Stackish
open LinkedForest Outcome
set_option autoImplicit false

variable {D : Type}

namespace Elems

/-- The children of a group with these elements, in front of `k`. -/
def kids : Elems → Tree D → Tree D
  | .nil, k => k
  | .leaf value attr rest, k => rest.kids (.node ⟨attr, value.value⟩ .nil k)
  | .group inner close rest, k => rest.kids (.node ⟨close.name, .group⟩ (inner.kids .nil) k)

/-- The message with these elements. -/
def tree (e : Elems) (word : Option Bytes) : Tree D := .node ⟨word, .group⟩ (e.kids .nil) .nil

theorem Built.erase {e : Elems} {k k' : Located (NodeData D)} (h : e.Built k k') : k'.erase = e.kids k.erase := by
  induction e generalizing k k' with
  | nil =>
    cases h
    rfl
  | leaf value attr rest ih =>
    obtain ⟨a, hRest⟩ := h
    exact ih hRest
  | group inner close rest ihInner ihRest =>
    obtain ⟨a, inside, hInner, hRest⟩ := h
    rw [ihRest hRest, kids, Forest.erase_node, ihInner hInner]
    rfl

theorem erase_eq_node {f : Located (NodeData D)} {d : NodeData D} {c s : Tree D} (h : f.erase = .node d c s) :
    ∃ a c' s', f = .node (a, d) c' s' ∧ c'.erase = c ∧ s'.erase = s := by
  cases f with
  | nil => cases h
  | node a c' s' =>
    cases h
    exact ⟨a.1, c', s', rfl, rfl, rfl⟩

/-- Children with the right data are built from the elements. -/
theorem built_of_erase {e : Elems} {k : Tree D} {k' : Located (NodeData D)} (h : k'.erase = e.kids k) :
    ∃ f, f.erase = k ∧ e.Built f k' := by
  induction e generalizing k k' with
  | nil => exact ⟨k', h, rfl⟩
  | leaf value attr rest ih =>
    obtain ⟨f, hf, hBuilt⟩ := ih h
    obtain ⟨a, c', s', rfl, hc, hs⟩ := erase_eq_node hf
    cases c' with
    | nil => exact ⟨s', hs, a, hBuilt⟩
    | node => cases hc
  | group inner close rest ihInner ihRest =>
    obtain ⟨f, hf, hBuilt⟩ := ihRest h
    obtain ⟨a, c', s', rfl, hc, hs⟩ := erase_eq_node hf
    obtain ⟨g, hg, hInner⟩ := ihInner hc
    cases g with
    | nil => exact ⟨s', hs, a, c', hInner, hBuilt⟩
    | node => cases hg

/-- Words for names, attributes where the grammar has them, and strings that can be quoted. -/
def Sound : Elems → Prop
  | .nil => True
  | .leaf value attr rest =>
    leafName attr ∧ (∀ s, value = .string s → 34 ∉ s ∧ ∀ b ∈ s, b ≠ 0) ∧ rest.Sound
  | .group inner close rest => groupName close.name ∧ inner.Sound ∧ rest.Sound

theorem Sound.kids {e : Elems} (h : e.Sound) (k : Tree D) (hk : Shaped k ∧ FloatFree k ∧ Plain k) :
    Shaped (e.kids k) ∧ FloatFree (e.kids k) ∧ Plain (e.kids k) := by
  induction e generalizing k with
  | nil => exact hk
  | leaf value attr rest ih =>
    obtain ⟨hName, hString, hRest⟩ := h
    apply ih hRest _
    obtain ⟨hShaped, hFloat, hPlain⟩ := hk
    cases value with
    | number n => exact ⟨⟨hName, fun _ => rfl, trivial, hShaped⟩, ⟨rfl, trivial, hFloat⟩, rfl, trivial, hPlain⟩
    | blob b => exact ⟨⟨hName, fun _ => rfl, trivial, hShaped⟩, ⟨rfl, trivial, hFloat⟩, rfl, trivial, hPlain⟩
    | string s =>
      obtain ⟨hQuote, hNul⟩ := hString s rfl
      refine ⟨⟨⟨hName, s, rfl, hQuote⟩, fun _ => rfl, trivial, hShaped⟩, ⟨rfl, trivial, hFloat⟩, ?_, trivial, hPlain⟩
      simpa [Leaf.value, plainValue] using hNul
  | group inner close rest ihInner ihRest =>
    obtain ⟨hName, hInner, hRest⟩ := h
    apply ihRest hRest _
    obtain ⟨hShaped, hFloat, hPlain⟩ := hk
    obtain ⟨hInShaped, hInFloat, hInPlain⟩ := ihInner hInner .nil ⟨trivial, trivial, trivial⟩
    exact ⟨⟨hName, fun hLeaf => absurd rfl hLeaf, hInShaped, hShaped⟩, ⟨rfl, hInFloat, hFloat⟩,
      rfl, hInPlain, hPlain⟩

/-- A sound message is a document. -/
def document (e : Elems) (word : Option Bytes) (hWord : rootName word) (hSound : e.Sound) : Document D where
  name := word
  kids := e.kids .nil
  rootName := hWord
  shaped := (hSound.kids .nil ⟨trivial, trivial, trivial⟩).1
  floatFree := (hSound.kids .nil ⟨trivial, trivial, trivial⟩).2.1
  plain := (hSound.kids .nil ⟨trivial, trivial, trivial⟩).2.2

@[simp] theorem document_tree (e : Elems) (word : Option Bytes) (hWord : rootName word) (hSound : e.Sound) :
    (e.document word hWord hSound : Document D).tree = e.tree word := rfl

end Elems

/-! ## In memory -/

/-- `Node_cons` builds the message on top of the memory. -/
theorem nodeCons_message (heap : Heap D) (e : Elems) (word : Option Bytes)
    (hNew : ∀ p ∈ (e.format : List (Piece D)), p.makesNew = true) :
    ∃ root heap', nodeCons heap 0 (.start :: (e.format ++ [rootPiece word])) = .ok (some root, heap') ∧
      Represents heap' none (some root) (e.tree word) ∧ Extends heap heap' := by
  obtain ⟨root, kids, heap', hCons, hStored, hNodup, hBuilt⟩ := nodeCons_built heap e word
  refine ⟨root, heap', hCons, ⟨_, ?_, rfl, hStored, hNodup⟩, nodeCons_extends ?_ hCons⟩
  · rw [Forest.erase_node, hBuilt.erase]
    rfl
  · intro p hp
    simp only [List.mem_cons, List.mem_append, List.not_mem_nil, or_false] at hp
    rcases hp with rfl | hp | rfl
    · rfl
    · exact hNew p hp
    · cases word <;> rfl

/-- The piece with an empty argument for a missing one. -/
def Piece.filled : Piece D → Piece D
  | .blob b => .blob (some (b.getD []))
  | .string s => .string (some (s.getD []))
  | p => p

theorem consPiece_filled {c : Cons D} {p : Piece D} (h : consPiece 0 c p ≠ .ok none) : p.filled = p := by
  cases p with
  | blob b =>
    cases b with
    | none => exact absurd rfl h
    | some b => rfl
  | string s =>
    cases s with
    | none => exact absurd rfl h
    | some s => rfl
  | start | number | float | close | attr | word | group => rfl

/-- A missing argument only makes `Node_cons` give up earlier. -/
theorem consLoop_missing {format : List (Piece D)} {c : Cons D} {r : Option Nat × Heap D}
    (h : consLoop 0 (format.map Piece.filled) c = .ok r) : ∃ r', consLoop 0 format c = .ok r' := by
  induction format generalizing c with
  | nil => exact ⟨r, h⟩
  | cons p rest ih =>
    rw [consLoop]
    by_cases hNone : consPiece 0 c p = .ok none
    · rw [bind_of_ok hNone]
      exact ⟨_, rfl⟩
    rw [List.map_cons, consPiece_filled hNone, consLoop] at h
    obtain ⟨step, hStep, hRest⟩ := bind_eq_ok_iff.mp h
    rw [bind_of_ok hStep]
    cases step with
    | none => exact ⟨_, rfl⟩
    | some c' => exact ih hRest

/-- `Node_decons` reads the message wherever it is stored. -/
theorem nodeDecons_message (lib : DoubleLib D) {heap : Heap D} {root : Nat} (copy : Bool) {e : Elems}
    (hNonempty : e ≠ .nil) (hFull : e.Full) {word : Option Bytes}
    (hTree : Represents heap none (some root) (e.tree word)) :
    ∃ bound, nodeDecons lib heap 0 copy root (.start :: (e.rev ++ [rootExpect word])) = .ok (true, bound) ∧
      List.Forall₂ (Stores heap) bound e.values := by
  obtain ⟨f, hErase, hPtr, hStored, -⟩ := hTree
  obtain ⟨a, c, s, rfl, hKids, hNone⟩ := Elems.erase_eq_node hErase
  obtain rfl : a = root := Option.some.inj hPtr
  obtain ⟨g, hg, hBuilt⟩ := Elems.built_of_erase hKids
  cases g with
  | node => cases hg
  | nil =>
    cases s with
    | node => cases hNone
    | nil => exact nodeDecons_built lib copy hNonempty hFull hStored hBuilt

/-! ## As text -/

/-- What `Node_bstr(t, 1)` returns for a document that fits. -/
def Document.encode (t : Document D) : Bytes := text (tokens t.tree) ++ [10]

variable {lib : DoubleLib D}

theorem Document.floatFree_all (t : Document D) : FloatFree t.tree := ⟨rfl, t.floatFree, trivial⟩

theorem Document.tree_ne_nil (t : Document D) : t.tree ≠ .nil := by simp [Document.tree]

theorem nodeBstr_document {t : Document D} (hFits : Fits t.tree) {heap : Heap D} {root : Option Nat}
    (hTree : Represents heap none root t.tree) : nodeBstr lib heap root true = .ok t.encode := by
  rw [nodeBstr_ok_iff t.floatFree_all t.tree_ne_nil hTree, Writable, written_of_fits hFits.1]
  exact ⟨⟨fun tok hTok => .inr (hFits.1 tok hTok), hFits.2⟩, rfl⟩

theorem Fits.length_encode {t : Document D} (hFits : Fits t.tree) : t.encode.length < 2 ^ 31 := by
  have hTotal := hFits.2
  simp only [intMax] at hTotal
  simp only [Document.encode, List.length_append, List.length_singleton]
  omega

/-- The text of a document is read to its end, which closes the document. -/
theorem readsTo_encode (lib : DoubleLib D) {t : Document D} (hFits : Fits t.tree) :
    ∃ stop, ReadsTo lib t.encode 0 [printedTree t.kids] (.closed t.tree stop) := by
  obtain ⟨stop, hRead⟩ := readsTo_text lib t.rootName t.shaped t.floatFree hFits.length_encode
  have hPrinted : printedTree t.tree = t.tree :=
    (printedTree_eq_iff (shaped_root t.rootName t.shaped)).mpr ⟨rfl, t.plain, trivial⟩
  rw [Document.tree] at hPrinted
  rw [hPrinted] at hRead
  exact ⟨stop, hRead⟩

/-- With enough fuel the text of a document is parsed to the document. -/
theorem nodeParseSeq_document (lib : DoubleLib D) {t : Document D} (hFits : Fits t.tree) (heap : Heap D) :
    ∃ n root next heap', (∀ fuel, n ≤ fuel →
        nodeParseSeq lib fuel heap 0 t.encode 0 = .ok ⟨some root, next, heap', 0⟩) ∧
      Extends heap heap' ∧ Represents heap' none (some root) t.tree := by
  obtain ⟨stop, hRead⟩ := readsTo_encode lib hFits
  obtain ⟨r, ⟨root, heap', hOk, hExtends, hTree⟩, hFuel, n, rfl⟩ :=
    hRead.finishes hFits.length_encode (endsInSpace_newline _) heap (Nat.zero_le _)
  cases root with
  | none => cases (represents_ne_nil hTree).mp rfl
  | some root =>
    refine ⟨n, root, nextDocument t.encode stop, heap', fun fuel hLe => ?_, hExtends, hTree⟩
    obtain ⟨k, rfl⟩ := Nat.exists_eq_add_of_le hLe
    exact ((nodeParseSeq_stable lib heap 0 _ 0).add hFuel k).trans hOk

end Utu.Stackish
