import Utu.Stackish.RoundTrip

/-!
# The canonical format

Decoding undoes encoding on the trees of the grammar, and every tree the
parser hands out is one of these. So what is lost by parsing a text, printing
it and parsing it again can be read off the first tree.
-/

namespace Utu.Stackish
open LinkedForest
set_option autoImplicit false

variable {D : Type} {lib : DoubleLib D}

/-! ## Decode undoes encode -/

/-- A float-free document: its root is a group with no name or a word for one, its inner groups
may also be named by an attribute, its leaves are named by attributes if at all, and its strings
hold no quote and no NUL. -/
structure Document (D : Type) where
  name : Option Bytes
  kids : Tree D
  rootName : rootName name
  shaped : Shaped kids
  floatFree : FloatFree kids
  plain : Plain kids

def Document.tree (t : Document D) : Tree D := .node ⟨t.name, .group⟩ t.kids .nil

/-- A document is a bracket, its children and what closes it. -/
theorem tokens_document (t : Document D) : ∃ last : Token D, Printable last ∧
    (last = .group ∨ ∃ w, last = .word w) ∧ tokens t.tree = .start :: tokens t.kids ++ [last] := by
  cases hName : t.name with
  | none =>
    refine ⟨.group, trivial, .inl rfl, ?_⟩
    simp [Document.tree, hName, tokens, startTokens, valueTokens, nameTokens]
  | some n =>
    have hw := t.rootName n hName
    refine ⟨.word n, hw, .inr ⟨n, rfl⟩, ?_⟩
    simp [Document.tree, hName, tokens, startTokens, valueTokens, bchar_word hw, nameTokens_word hw]

theorem decode_encode_iff (t : Document D) {heap : Heap D} {root : Option Nat}
    (hTree : Represents heap none root t.tree) : RoundTrips lib heap root t.tree ↔ Fits t.tree := by
  have hPlain : Plain t.tree := ⟨rfl, t.plain, trivial⟩
  rw [Document.tree, roundTrips_iff t.rootName t.shaped t.floatFree hTree]
  exact and_iff_right hPlain

/-- `[ 7 "a" @b env`, the string on top of the number. -/
def sampleDocument : Document Unit where
  name := some [101, 110, 118]
  kids := .node ⟨some [64, 98], .string (some [97])⟩ .nil (.node ⟨none, .number 7⟩ .nil .nil)
  rootName := by rintro n ⟨⟩; decide
  shaped := by
    refine ⟨⟨?_, [97], rfl, by decide⟩, fun _ => rfl, trivial, nofun, fun _ => rfl, trivial, trivial⟩
    rintro n ⟨⟩
    exact ⟨[98], by decide, rfl⟩
  floatFree := ⟨rfl, trivial, rfl, trivial, trivial⟩
  plain := ⟨rfl, trivial, rfl, trivial, trivial⟩

def sampleHeap : Heap Unit :=
  [⟨⟨some [101, 110, 118], .group⟩, none, none, some 1⟩,
    ⟨⟨some [64, 98], .string (some [97])⟩, some 0, some 2, none⟩,
    ⟨⟨none, .number 7⟩, some 0, none, none⟩]

theorem sampleHeap_represents : Represents sampleHeap none (some 0) sampleDocument.tree :=
  ⟨.node (0, ⟨some [101, 110, 118], .group⟩)
    (.node (1, ⟨some [64, 98], .string (some [97])⟩) .nil (.node (2, ⟨none, .number 7⟩) .nil .nil))
    .nil, rfl, rfl, ⟨rfl, ⟨rfl, trivial, rfl, trivial, trivial⟩, trivial⟩, by decide⟩

theorem decode_encode_sample :
    Represents sampleHeap none (some 0) sampleDocument.tree ∧
      RoundTrips noDoubles sampleHeap (some 0) sampleDocument.tree :=
  ⟨sampleHeap_represents,
    (decode_encode_iff sampleDocument sampleHeap_represents).mpr ⟨by decide, by decide⟩⟩

/-- A group around one string. -/
def stringDocument (s : Bytes) (hQuote : 34 ∉ s) (hNul : ∀ b ∈ s, b ≠ 0) : Document Unit where
  name := none
  kids := .node ⟨none, .string (some s)⟩ .nil .nil
  rootName := nofun
  shaped := ⟨⟨nofun, s, rfl, hQuote⟩, fun _ => rfl, trivial, trivial⟩
  floatFree := ⟨rfl, trivial, trivial⟩
  plain := ⟨by simpa [plainValue] using hNul, trivial, trivial⟩

def stringHeap (s : Bytes) : Heap Unit :=
  [⟨⟨none, .group⟩, none, none, some 1⟩, ⟨⟨none, .string (some s)⟩, some 0, none, none⟩]

def stringTree (s : Bytes) : Tree Unit :=
  .node ⟨none, .group⟩ (.node ⟨none, .string (some s)⟩ .nil .nil) .nil

theorem stringHeap_represents (s : Bytes) : Represents (stringHeap s) none (some 0) (stringTree s) :=
  ⟨.node (0, ⟨none, .group⟩) (.node (1, ⟨none, .string (some s)⟩) .nil .nil) .nil, rfl, rfl,
    ⟨rfl, ⟨rfl, trivial, trivial⟩, trivial⟩, by simp [Forest.addrs]⟩

section LongString
variable {s : Bytes} (hQuote : 34 ∉ s) (hNul : ∀ b ∈ s, b ≠ 0)

theorem tokens_stringDocument :
    tokens (stringDocument s hQuote hNul).tree = [.start, .string s, .group] := by
  simp [stringDocument, Document.tree, tokens, startTokens, valueTokens, nameTokens,
    cstr_of_no_nul hNul]

theorem not_fits_stringDocument (hLong : intMax < 2 * (s.length + 3) + 2) :
    ¬ Fits (stringDocument s hQuote hNul).tree := by
  intro h
  have hString := h.1 (.string s) (by simp [tokens_stringDocument])
  simp only [tokenFits, decide_eq_true_eq] at hString
  omega

/-- `bformata` finds no room for the string, and nobody looks at what it returns. -/
theorem not_roundTrips_stringDocument (hLong : intMax < 2 * (s.length + 3) + 2) :
    ¬ RoundTrips noDoubles (stringHeap s) (some 0) (stringDocument s hQuote hNul).tree := by
  intro h
  apply not_fits_stringDocument hQuote hNul hLong
  exact ((roundTrips_iff (stringDocument s hQuote hNul).rootName (stringDocument s hQuote hNul).shaped
    (stringDocument s hQuote hNul).floatFree (stringHeap_represents s)).mp h).2

end LongString

def letters (n : Nat) : Bytes := List.replicate n 97

theorem letters_quote (n : Nat) : 34 ∉ letters n := fun h => by
  cases List.eq_of_mem_replicate h

theorem letters_nul (n : Nat) : ∀ b ∈ letters n, b ≠ 0 := fun b hb => by
  rw [List.eq_of_mem_replicate hb]
  decide

theorem length_letters (n : Nat) : (letters n).length = n := List.length_replicate

def lettersDocument (n : Nat) : Document Unit :=
  stringDocument (letters n) (letters_quote n) (letters_nul n)

theorem length_lettersDocument (n : Nat) : (text (tokens (lettersDocument n).tree)).length = n + 7 := by
  rw [lettersDocument, tokens_stringDocument]
  simp [text, tokenText, length_letters]

/-- A string of `2 ^ 30` letters is lost, though the encoding stays below `2 ^ 31` bytes. -/
theorem not_decode_encode_letters :
    (text (tokens (lettersDocument (2 ^ 30)).tree)).length + 1 < 2 ^ 31 ∧
      Represents (stringHeap (letters (2 ^ 30))) none (some 0) (lettersDocument (2 ^ 30)).tree ∧
      ¬ RoundTrips noDoubles (stringHeap (letters (2 ^ 30))) (some 0)
        (lettersDocument (2 ^ 30)).tree := by
  refine ⟨?_, stringHeap_represents _, not_roundTrips_stringDocument _ _ ?_⟩
  · rw [length_lettersDocument]
    decide
  · rw [length_letters]
    decide

/-! ## The trees the parser hands out -/

section Image

theorem leafName_none : leafName none := nofun

theorem rootName_none : rootName none := nofun

theorem nodeShape_rename {d : NodeData D} (hd : NodeShape d) {name : Bytes} (hName : attribName name) :
    NodeShape ⟨some name, d.value⟩ := by
  have hLeaf : leafName (some name) := by rintro n ⟨⟩; exact hName
  obtain ⟨old, v⟩ := d
  cases v with
  | group => exact fun n hn => .inr (hLeaf n hn)
  | string s => exact ⟨hLeaf, hd.2⟩
  | number | blob | float => exact hLeaf

/-- A token of the scanner's shape keeps the open groups in shape. -/
theorem shaped_next {t : Token D} (hShape : t.Shape) {d e : Doc D} (hd : ∀ k ∈ d, Shaped k)
    (h : applyToken t d = .next e) : ∀ k ∈ e, Shaped k := by
  have hPush : ∀ v : Value D, NodeShape ⟨none, v⟩ → pushLeaf v d = .next e → ∀ k ∈ e, Shaped k := by
    intro v hv h
    cases d with
    | nil => cases h
    | cons k d =>
      cases h
      obtain ⟨hk, hd⟩ := List.forall_mem_cons.mp hd
      exact List.forall_mem_cons.mpr ⟨⟨hv, fun _ => rfl, trivial, hk⟩, hd⟩
  have hClose : ∀ name, rootName name → closeGroup name d = .next e → ∀ k ∈ e, Shaped k := by
    intro name hName h
    match d, h with
    | kids :: siblings :: outer, h =>
      cases h
      obtain ⟨hKids, hRest⟩ := List.forall_mem_cons.mp hd
      obtain ⟨hSiblings, hOuter⟩ := List.forall_mem_cons.mp hRest
      refine List.forall_mem_cons.mpr ⟨⟨?_, ?_, hKids, hSiblings⟩, hOuter⟩
      · exact fun n hn => .inl (hName n hn)
      · exact fun hLeaf => absurd rfl hLeaf
  cases t with
  | number n =>
    cases n with
    | none => cases h
    | some n => exact hPush (.number n) leafName_none h
  | float x =>
    cases x with
    | none => cases h
    | some x => exact hPush (.float x) leafName_none h
  | string s => exact hPush (.string (some s)) ⟨leafName_none, s, rfl, hShape⟩ h
  | blob s => exact hPush (.blob s) leafName_none h
  | start =>
    cases h
    exact List.forall_mem_cons.mpr ⟨trivial, hd⟩
  | word w => exact hClose _ (by rintro n ⟨⟩; exact hShape) h
  | group => exact hClose none rootName_none h
  | attrib a =>
    match d, h with
    | .node d c s :: outer, h =>
      cases h
      obtain ⟨⟨hNode, hLeaf, hc, hs⟩, hOuter⟩ := List.forall_mem_cons.mp hd
      exact List.forall_mem_cons.mpr ⟨⟨nodeShape_rename hNode hShape, hLeaf, hc, hs⟩, hOuter⟩

theorem Reads.shaped {buf : Bytes} {p q : Nat} {d e : Doc D} {ts : List (Token D)}
    (h : Reads lib buf p d ts q e) (hd : ∀ k ∈ d, Shaped k) : ∀ k ∈ e, Shaped k := by
  induction h with
  | nil => exact hd
  | cons head _ ih =>
    obtain ⟨hShape, hNext⟩ := step_go _ _ head
    exact ih (shaped_next hShape hd hNext)

/-- Open groups are anonymous, so that a document left open is in shape as well. -/
theorem shaped_foldl {d : Doc D} (hd : ∀ k ∈ d, Shaped k) {kids : Tree D} (hKids : Shaped kids) :
    Shaped (d.foldl (fun inner kids => .node ⟨none, .group⟩ inner kids) kids) := by
  induction d generalizing kids with
  | nil => exact hKids
  | cons k d ih =>
    obtain ⟨hk, hd⟩ := List.forall_mem_cons.mp hd
    exact ih hd ⟨nofun, fun h => absurd rfl h, hKids, hk⟩

theorem Denotes.shaped {buf : Bytes} {t : Tree D} (h : Denotes lib buf t) :
    ∃ name kids, t = .node ⟨name, .group⟩ kids .nil ∧ rootName name ∧ Shaped kids := by
  have hStart : ∀ k ∈ ([] : Doc D), Shaped k := nofun
  rcases h with ⟨d, stop, hRead⟩ | ⟨d, x, ⟨ts, p, hReads, -⟩, -, hd, rfl⟩
  · obtain ⟨name, kids, hName, rfl, rfl⟩ := hRead.closed_tree
    obtain ⟨ts, p, hReads, -⟩ := hRead
    exact ⟨name, kids, rfl, hName, hReads.shaped hStart kids List.mem_cons_self⟩
  · cases d with
    | nil => exact absurd rfl hd
    | cons kids outer =>
      obtain ⟨hKids, hOuter⟩ := List.forall_mem_cons.mp (hReads.shaped hStart)
      exact ⟨none, _, rfl, nofun, shaped_foldl hOuter hKids⟩

end Image

/-! ## Canonicalisation -/

/-- Printing an accepted text and parsing it again keeps its float-free tree exactly when no
string holds a NUL, no blob is NULL and everything fits. -/
theorem canonical_iff {buf : Bytes} (hLen : buf.length < 2 ^ 31) {heap : Heap D} {errno : Nat}
    {r : Parsed D} (hr : Finishes (nodeParse lib · heap errno buf) (.ok r)) (hNode : r.root ≠ none)
    {t : Tree D} (hTree : Represents r.heap none r.root t) (hFloat : FloatFree t) :
    RoundTrips lib r.heap r.root t ↔ Plain t ∧ Fits t := by
  obtain ⟨-, t', hDenotes, hTree'⟩ := denotes_of_finishes hLen hr hNode
  obtain rfl := hTree.unique hTree'
  obtain ⟨name, kids, rfl, hName, hShape⟩ := hDenotes.shaped
  exact roundTrips_iff hName hShape hFloat.2.1 hTree

/-- `[ "a" ] ` -/
def letterBuffer : Bytes := [91, 32, 34, 97, 34, 32, 93, 32]

theorem canonical_letterBuffer :
    Finishes (nodeParse noDoubles · [] 0 letterBuffer) (.ok ⟨some 0, 7, stringHeap [97], 0⟩) ∧
      RoundTrips noDoubles (stringHeap [97]) (some 0) (stringTree [97]) := by
  have hr : Finishes (nodeParse noDoubles · [] 0 letterBuffer) (.ok ⟨some 0, 7, stringHeap [97], 0⟩) :=
    ⟨nofun, 20, rfl⟩
  have hFloat : FloatFree (stringTree [97]) := ⟨rfl, ⟨rfl, trivial, trivial⟩, trivial⟩
  have hPlain : Plain (stringTree [97]) := ⟨rfl, ⟨rfl, trivial, trivial⟩, trivial⟩
  exact ⟨hr, (canonical_iff (by decide) hr nofun (stringHeap_represents [97]) hFloat).mpr
    ⟨hPlain, by decide, by decide⟩⟩

/-- The same with a NUL and one more letter in the string. -/
def nulBuffer : Bytes := [91, 32, 34, 97, 0, 98, 34, 32, 93, 32]

theorem not_canonical_nulBuffer :
    nulBuffer.length < 2 ^ 31 ∧
      Finishes (nodeParse noDoubles · [] 0 nulBuffer) (.ok ⟨some 0, 9, stringHeap [97, 0, 98], 0⟩) ∧
      Represents (stringHeap [97, 0, 98]) none (some 0) (stringTree [97, 0, 98]) ∧
      FloatFree (stringTree [97, 0, 98]) ∧
      ¬ RoundTrips noDoubles (stringHeap [97, 0, 98]) (some 0) (stringTree [97, 0, 98]) := by
  have hTree := stringHeap_represents [97, 0, 98]
  have hFloat : FloatFree (stringTree [97, 0, 98]) := ⟨rfl, ⟨rfl, trivial, trivial⟩, trivial⟩
  have hShape : Shaped (.node ⟨none, .string (some [97, 0, 98])⟩ .nil .nil : Tree Unit) :=
    ⟨⟨leafName_none, _, rfl, by decide⟩, fun _ => rfl, trivial, trivial⟩
  refine ⟨by decide, ⟨nofun, 20, rfl⟩, hTree, hFloat, fun h => ?_⟩
  obtain ⟨⟨-, ⟨hString, -⟩, -⟩, -⟩ := (roundTrips_iff rootName_none hShape hFloat.2.1 hTree).mp h
  cases hString

end Utu.Stackish
