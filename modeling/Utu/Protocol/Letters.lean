import Utu.Protocol.Session
import Utu.Stackish.Release

/-!
# The letters of the handshake

Both sides introduce themselves by a letter: a name, a session key and one or
two nonces. The text that is encrypted is the text of the letter, unless the
name is too long for `bformata`: then it is the text of the letter without it.
-/

namespace Utu.Protocol
open Stackish LinkedForest Procedure
set_option autoImplicit false

variable {D K S U : Type}

/-- A name that can be quoted: no quote and no NUL. -/
structure PeerName where
  text : Bytes
  unquoted : 34 ∉ text
  noNul : ∀ b ∈ text, b ≠ 0

/-- `bformata` has room for the name. -/
def PeerName.Fits (name : PeerName) : Prop := 2 * (name.text.length + 3) + 2 ≤ intMax

instance (name : PeerName) : Decidable name.Fits := inferInstanceAs (Decidable (_ ≤ _))

/-- The name as it gets into a letter. -/
def PeerName.sent (name : PeerName) : Option PeerName := if name.Fits then some name else none

def nonceElems : List Nonce → Elems
  | [] => .nil
  | n :: rest => .leaf (.number n.right) none (.leaf (.number n.left) none (nonceElems rest))

def letterElems (name : Option PeerName) (session : Bytes) (nonces : List Nonce) : Elems :=
  match name with
  | none => .leaf (.blob session) none (nonceElems nonces)
  | some name => .leaf (.string name.text) none (.leaf (.blob session) none (nonceElems nonces))

theorem nonceElems_sound (nonces : List Nonce) : (nonceElems nonces).Sound := by
  induction nonces with
  | nil => trivial
  | cons n rest ih => exact ⟨leafName_none, by simp, leafName_none, by simp, ih⟩

theorem letterElems_sound (name : Option PeerName) (session : Bytes) (nonces : List Nonce) :
    (letterElems name session nonces).Sound := by
  have hRest : (Elems.leaf (.blob session) none (nonceElems nonces)).Sound :=
    ⟨leafName_none, by simp, nonceElems_sound nonces⟩
  cases name with
  | none => exact hRest
  | some name =>
    refine ⟨leafName_none, ?_, hRest⟩
    rintro s ⟨⟩
    exact ⟨name.unquoted, name.noNul⟩

theorem nonceElems_makesNew (nonces : List Nonce) :
    ∀ p ∈ ((nonceElems nonces).format : List (Piece D)), p.makesNew = true := by
  induction nonces with
  | nil => simp [nonceElems, Elems.format]
  | cons n rest ih => simpa [nonceElems, Elems.format, Leaf.piece, Piece.makesNew] using ih

theorem letterElems_makesNew (name : Option PeerName) (session : Bytes) (nonces : List Nonce) :
    ∀ p ∈ ((letterElems name session nonces).format : List (Piece D)), p.makesNew = true := by
  have hNonces := nonceElems_makesNew (D := D) nonces
  cases name with
  | none => simpa [letterElems, Elems.format, Leaf.piece, Piece.makesNew] using hNonces
  | some name => simpa [letterElems, Elems.format, Leaf.piece, Piece.makesNew] using hNonces

theorem nonceElems_full (nonces : List Nonce) : (nonceElems nonces).Full := by
  induction nonces with
  | nil => trivial
  | cons n rest ih => exact ih

theorem letterElems_full (name : Option PeerName) (session : Bytes) (nonces : List Nonce) :
    (letterElems name session nonces).Full := by
  cases name with
  | none => exact nonceElems_full nonces
  | some name => exact nonceElems_full nonces

theorem rootName_word {word : Bytes} (hWord : isWord word = true) : rootName (some word) := by
  rintro n ⟨⟩
  exact hWord

def letterDocument (name : Option PeerName) (session : Bytes) (nonces : List Nonce) {word : Bytes}
    (hWord : isWord word = true) : Document D :=
  (letterElems name session nonces).document (some word) (rootName_word hWord) (letterElems_sound name session nonces)

/-! ## The text of a letter -/

def nonceTokens (nonces : List Nonce) : List (Token D) :=
  nonces.flatMap fun n => [.number (some n.right), .number (some n.left)]

def letterTokens (name : Option PeerName) (session : Bytes) (nonces : List Nonce) (word : Bytes) : List (Token D) :=
  .start :: (name.toList.map (fun n => .string n.text) ++ .blob (some session) :: (nonceTokens nonces ++ [.word word]))

theorem tokens_nonceElems (nonces : List Nonce) (k : Stackish.Tree D) :
    tokens ((nonceElems nonces).kids k) = tokens k ++ nonceTokens nonces := by
  induction nonces generalizing k with
  | nil => simp [nonceElems, Elems.kids, nonceTokens]
  | cons n rest ih =>
    simp [nonceElems, Elems.kids, ih, nonceTokens, tokens, startTokens, valueTokens, nameTokens, Leaf.value]

theorem tokens_letter (name : Option PeerName) (session : Bytes) (nonces : List Nonce) {word : Bytes}
    (hWord : isWord word = true) :
    tokens ((letterElems name session nonces).tree (some word) : Stackish.Tree D) =
      letterTokens name session nonces word := by
  have hStart : bchar word 0 ≠ 64 := bchar_word hWord
  have hText := cstr_word hWord
  cases name with
  | none =>
    simp [letterElems, Elems.tree, Elems.kids, tokens, tokens_nonceElems, startTokens, valueTokens, nameTokens,
      Leaf.value, hStart, hText, letterTokens]
  | some name =>
    simp [letterElems, Elems.tree, Elems.kids, tokens, tokens_nonceElems, startTokens, valueTokens, nameTokens,
      Leaf.value, hStart, hText, letterTokens, cstr_of_no_nul name.noNul]

theorem length_nonceTokens (nonces : List Nonce) :
    (text (nonceTokens nonces : List (Token D))).length ≤ 42 * nonces.length := by
  induction nonces with
  | nil => simp [nonceTokens]
  | cons n rest ih =>
    have hRight : (Decimal.print n.right.toNat).length ≤ 20 := print_length_small n.right.toNat_lt
    have hLeft : (Decimal.print n.left.toNat).length ≤ 20 := print_length_small n.left.toNat_lt
    simp only [nonceTokens, List.flatMap_cons, text_append, text_cons, text_nil, tokenText, Option.getD_some,
      List.length_append, List.length_cons, List.length_nil] at ih ⊢
    omega

theorem nonceTokens_number {nonces : List Nonce} {tok : Token D} (h : tok ∈ nonceTokens nonces) :
    ∃ n, tok = .number n := by
  obtain ⟨n, -, hTok⟩ := List.mem_flatMap.mp h
  simp only [List.mem_cons, List.not_mem_nil, or_false] at hTok
  rcases hTok with rfl | rfl
  · exact ⟨_, rfl⟩
  · exact ⟨_, rfl⟩

/-- A session key, at most two nonces and a short word. -/
structure ShortLetter (session : Bytes) (nonces : List Nonce) (word : Bytes) : Prop where
  session : session.length = keyLength
  nonces : nonces.length ≤ 2
  isWord : isWord word = true
  word : word.length ≤ 6

section Text
variable {session : Bytes} {nonces : List Nonce} {word : Bytes}

theorem tokenFits_letter (hWord : word.length ≤ 6) {name : Option PeerName} (hName : ∀ n ∈ name, n.Fits) :
    ∀ tok ∈ (letterTokens name session nonces word : List (Token D)), tokenFits tok = true := by
  intro tok hTok
  simp only [letterTokens, List.mem_cons, List.mem_append, List.mem_map, Option.mem_toList, List.not_mem_nil,
    or_false] at hTok
  rcases hTok with rfl | ⟨n, hn, rfl⟩ | rfl | hTok | rfl
  · rfl
  · exact decide_eq_true (hName n hn)
  · rfl
  · obtain ⟨n, rfl⟩ := nonceTokens_number hTok
    rfl
  · have hRoom : 2 * (word.length + 1) + 2 ≤ intMax := by
      simp only [intMax]
      omega
    exact decide_eq_true hRoom

theorem length_letter (hShort : ShortLetter session nonces word) {name : Option PeerName} (hName : ∀ n ∈ name, n.Fits) :
    (text (letterTokens name session nonces word : List (Token D))).length + 2 ≤ intMax := by
  have hString : (text (name.toList.map fun n => (.string n.text : Token D))).length ≤ 2 ^ 30 := by
    cases name with
    | none => simp
    | some name =>
      have hFits := hName name rfl
      simp only [PeerName.Fits, intMax] at hFits
      simp only [Option.toList_some, List.map_cons, List.map_nil, text_cons, text_nil, tokenText, List.length_append,
        List.length_cons, List.length_nil]
      omega
  have hNonces := length_nonceTokens (D := D) nonces
  have hCount := hShort.nonces
  have hSession : session.length = 32 := hShort.session
  have hWord := hShort.word
  have hBlob : (Decimal.print session.length).length ≤ 20 := print_length_small (by omega)
  simp only [letterTokens, text_append, text_cons, text_nil, tokenText, blobText, blength, Option.getD_some,
    List.length_append, List.length_cons, List.length_nil, intMax]
  omega

/-- A letter whose name is short enough is printed in full. -/
theorem fits_letter (hShort : ShortLetter session nonces word) {name : Option PeerName} (hName : ∀ n ∈ name, n.Fits) :
    Fits (letterDocument name session nonces hShort.isWord : Document D).tree := by
  have hTokens : tokens (letterDocument name session nonces hShort.isWord : Document D).tree =
      letterTokens name session nonces word := tokens_letter name session nonces hShort.isWord
  rw [Fits, hTokens]
  exact ⟨tokenFits_letter hShort.word hName, length_letter hShort hName⟩

theorem PeerName.sent_fits (name : PeerName) : ∀ n ∈ name.sent, n.Fits := by
  intro n hn
  rw [PeerName.sent] at hn
  split at hn
  · rename_i hFits
    cases hn
    exact hFits
  · cases hn

/-- A name that is too long is left out. -/
theorem written_letter (name : PeerName) :
    written (letterTokens (some name) session nonces word : List (Token D)) =
      letterTokens name.sent session nonces word := by
  have hRest : written (.blob (some session) :: (nonceTokens nonces ++ [.word word]) : List (Token D)) =
      .blob (some session) :: (nonceTokens nonces ++ [.word word]) := by
    refine written_keeps fun tok hTok => ?_
    simp only [List.mem_cons, List.mem_append, List.not_mem_nil, or_false] at hTok
    rcases hTok with rfl | hTok | rfl
    · rfl
    · obtain ⟨n, rfl⟩ := nonceTokens_number hTok
      rfl
    · rfl
  have hName : written [(.string name.text : Token D)] = name.sent.toList.map fun n => .string n.text := by
    rw [PeerName.sent]
    by_cases hFits : name.Fits
    · have hPass : tokenFits (.string name.text : Token D) = true := decide_eq_true hFits
      simp [written, hPass, hFits]
    · have hFail : tokenFits (.string name.text : Token D) = false := decide_eq_false hFits
      simp [written, Token.isString, hFail, hFits]
  have hSplit : (letterTokens (some name) session nonces word : List (Token D)) =
      [.start] ++ [.string name.text] ++ (.blob (some session) :: (nonceTokens nonces ++ [.word word])) := rfl
  have hStart : written [(.start : Token D)] = [.start] := rfl
  rw [hSplit, written_append, written_append, hName, hRest, hStart]
  rfl

/-- What is printed of a letter. -/
theorem nodeBstr_letter (lib : DoubleLib D) (hShort : ShortLetter session nonces word) {name : PeerName} {heap : Heap D}
    {root : Option Nat}
    (hTree : Represents heap none root ((letterElems (some name) session nonces).tree (some word))) :
    nodeBstr lib heap root true = .ok (letterDocument name.sent session nonces hShort.isWord : Document D).encode := by
  have hTokens := tokens_letter (D := D) (some name) session nonces hShort.isWord
  let doc : Document D := letterDocument (some name) session nonces hShort.isWord
  have hText : text (written (tokens doc.tree)) ++ [10] =
      (letterDocument name.sent session nonces hShort.isWord : Document D).encode := by
    rw [show tokens doc.tree = _ from hTokens, written_letter, Document.encode]
    rw [show tokens (letterDocument name.sent session nonces hShort.isWord : Document D).tree = _ from
      tokens_letter name.sent session nonces hShort.isWord]
  refine (nodeBstr_ok_iff doc.floatFree_all doc.tree_ne_nil hTree).mpr ⟨⟨?_, ?_⟩, hText⟩
  · rw [show tokens doc.tree = _ from hTokens]
    intro tok hTok
    cases hString : tok.isString with
    | true => exact .inl rfl
    | false =>
      have hKept : tok ∈ written (letterTokens (some name) session nonces word) :=
        List.mem_filter.mpr ⟨hTok, by simp [hString]⟩
      rw [written_letter] at hKept
      exact .inr (tokenFits_letter hShort.word name.sent_fits tok hKept)
  · rw [show tokens doc.tree = _ from hTokens, written_letter]
    exact length_letter hShort name.sent_fits

theorem shortLetter_init (hSession : session.length = keyLength) (n : Nonce) : ShortLetter session [n] initName :=
  ⟨hSession, by simp, by decide, by decide⟩

theorem shortLetter_recv (hSession : session.length = keyLength) (n m : Nonce) : ShortLetter session [n, m] recvName :=
  ⟨hSession, by simp, by decide, by decide⟩

end Text

/-! ## The messages -/

/-- I, Kir, Ni -/
def identityDocument (name : Option PeerName) (session : Bytes) (n : Nonce) : Document D :=
  letterDocument name session [n] (by decide : isWord initName = true)

/-- R, Kri, Ni, Nr -/
def responseDocument (name : Option PeerName) (session : Bytes) (theirs mine : Nonce) : Document D :=
  letterDocument name session [theirs, mine] (by decide : isWord recvName = true)

/-- `[ Nr Nl 'PubR' header` -/
def helloElems (n : Nonce) (pub : Bytes) : Elems :=
  .leaf (.number n.right) none (.leaf (.number n.left) none (.leaf (.blob pub) none .nil))

/-- `[ 'PubI' header` -/
def headerElems (pub : Bytes) : Elems := .leaf (.blob pub) none .nil

def headerDocument (pub : Bytes) : Document D :=
  (headerElems pub).document (some headerName) (rootName_word (by decide)) ⟨leafName_none, by simp, trivial⟩

/-- `[ Nr Nl init` -/
def finalDocument (n : Nonce) : Document D :=
  (nonceElems [n]).document (some initName) (rootName_word (by decide)) (nonceElems_sound [n])

/-- `ECC_BUF_SIZE`, the size of the buffer a key is exported to. The value is libtomcrypt's. -/
def eccBufSize : Nat := 256

theorem fits_header {pub : Bytes} (hPub : pub.length ≤ eccBufSize) : Fits (headerDocument pub : Document D).tree := by
  have hTokens : tokens (headerDocument pub : Document D).tree = [.start, .blob (some pub), .word headerName] := by
    simp [headerDocument, headerElems, Elems.tree, Elems.kids, tokens, startTokens, valueTokens, nameTokens, Leaf.value,
      headerName, bchar, cstr]
  have hShort : pub.length ≤ 256 := hPub
  have hBlob : (Decimal.print pub.length).length ≤ 20 := print_length_small (by omega)
  rw [Fits, hTokens]
  refine ⟨by simp [tokenFits, headerName, intMax], ?_⟩
  simp only [text_cons, text_nil, tokenText, blobText, blength, headerName, Option.getD_some, List.length_append,
    List.length_cons, List.length_nil, intMax]
  omega

theorem fits_final (n : Nonce) : Fits (finalDocument n : Document D).tree := by
  have hTokens : tokens (finalDocument n : Document D).tree =
      [.start, .number (some n.right), .number (some n.left), .word initName] := by
    simp [finalDocument, nonceElems, Elems.tree, Elems.kids, tokens, startTokens, valueTokens, nameTokens, Leaf.value,
      initName, bchar, cstr]
  have hRight : (Decimal.print n.right.toNat).length ≤ 20 := print_length_small n.right.toNat_lt
  have hLeft : (Decimal.print n.left.toNat).length ≤ 20 := print_length_small n.left.toNat_lt
  rw [Fits, hTokens]
  refine ⟨by simp [tokenFits, initName, intMax], ?_⟩
  simp only [text_cons, text_nil, tokenText, initName, Option.getD_some, List.length_append, List.length_cons,
    List.length_nil, intMax]
  omega

end Utu.Protocol
