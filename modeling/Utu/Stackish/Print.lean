import Utu.Stackish.Token
import Utu.Lib.Outcome

/-!
# The text of a tree

`Node_catbstr` writes a tree as a sequence of tokens, each followed by a blank:
siblings before a node, and its children between the bracket that opens it and
its value or name. What is lost on the way is lost in single tokens: a string
ends at its first NUL, and one that `bformata` has no room for is left out.
-/

namespace Utu.Stackish
open LinkedForest
set_option autoImplicit false

variable {D : Type}

section Tokens

def startTokens (d : NodeData D) : List (Token D) :=
  match d.value with
  | .group => [.start]
  | _ => []

/-- A group is closed by a bracket unless a word closes it. -/
def valueTokens (d : NodeData D) : List (Token D) :=
  match d.value with
  | .number n => [.number (some n)]
  | .string s => [.string (cstr s)]
  | .blob s => [.blob (some (s.getD []))]
  | .float _ => []
  | .group =>
    match d.name with
    | none => [.group]
    | some name => if bchar name 0 = 64 then [.group] else []

def nameTokens (d : NodeData D) : List (Token D) :=
  match d.name with
  | none => []
  | some name => if bchar name 0 = 64 then [.attrib (cstr (some name))] else [.word (cstr (some name))]

/-- The tokens of a tree without floats, in the order they are written. -/
def tokens : Tree D → List (Token D)
  | .nil => []
  | .node d c s => tokens s ++ startTokens d ++ tokens c ++ valueTokens d ++ nameTokens d

def blobText (s : Option Bytes) : Bytes := 39 :: Decimal.print (blength s) ++ [58] ++ s.getD [] ++ [39]

def tokenText : Token D → Bytes
  | .number n => Decimal.print (n.getD 0).toNat
  | .float _ => []
  | .string s => 34 :: s ++ [34]
  | .blob s => blobText s
  | .start => [91]
  | .word w => w
  | .group => [93]
  | .attrib a => a

def text (ts : List (Token D)) : Bytes := ts.flatMap fun t => tokenText t ++ [32]

@[simp] theorem text_nil : text ([] : List (Token D)) = [] := rfl

@[simp] theorem text_cons (t : Token D) (ts : List (Token D)) :
    text (t :: ts) = tokenText t ++ [32] ++ text ts := rfl

@[simp] theorem text_append (ts us : List (Token D)) : text (ts ++ us) = text ts ++ text us := by
  simp [text]

/-- `bformata` has room for the token. The other tokens are short or are not printed by it. -/
def tokenFits : Token D → Bool
  | .string s => 2 * (s.length + 3) + 2 ≤ intMax
  | .word w => 2 * (w.length + 1) + 2 ≤ intMax
  | .attrib a => 2 * (a.length + 1) + 2 ≤ intMax
  | _ => true

def Token.isString : Token D → Bool
  | .string _ => true
  | _ => false

end Tokens

section Append
variable {b s out : Bytes} {rc : Bool}

theorem bconcat_fits (h : b.length + s.length + 1 ≤ intMax) : bconcat b (some s) = .ok (true, b ++ s) := by
  simp only [bconcat, h, if_true]
  rfl

theorem bconcat_ok (h : bconcat b (some s) = .ok (rc, out)) :
    out = b ++ s ∧ rc = true ∧ b.length + s.length + 1 ≤ intMax := by
  simp only [bconcat] at h
  split at h
  · cases h
    exact ⟨rfl, rfl, by assumption⟩
  · cases h

theorem bformata_fits (hText : 2 * s.length + 2 ≤ intMax) (h : b.length + s.length + 1 ≤ intMax) :
    bformata b s = .ok (true, b ++ s) := by
  simp only [bformata, (bformataLoop_iff s.length).mpr hText, if_true]
  exact bconcat_fits h

theorem bformata_long (hText : ¬ 2 * s.length + 2 ≤ intMax) : bformata b s = .ok (false, b) := by
  simp only [bformata, if_neg fun hLoop => hText ((bformataLoop_iff s.length).mp hLoop)]
  rfl

theorem bformata_ok (h : bformata b s = .ok (rc, out)) :
    (2 * s.length + 2 ≤ intMax ∧ out = b ++ s ∧ rc = true ∧ out.length + 1 ≤ intMax) ∨
      (¬ 2 * s.length + 2 ≤ intMax ∧ out = b ∧ rc = false) := by
  simp only [bformata] at h
  split at h
  · rename_i hLoop
    obtain ⟨rfl, hrc, hLen⟩ := bconcat_ok h
    exact .inl ⟨(bformataLoop_iff _).mp hLoop, rfl, hrc, by simpa using hLen⟩
  · rename_i hLoop
    cases h
    exact .inr ⟨fun hText => hLoop ((bformataLoop_iff _).mpr hText), rfl, rfl⟩

theorem bformataAssert_fits (hText : 2 * s.length + 2 ≤ intMax) (h : b.length + s.length + 1 ≤ intMax) :
    bformataAssert b s = .ok (b ++ s) := by
  simp only [bformataAssert]
  rw [Outcome.bind_of_ok (bformata_fits hText h)]
  rfl

theorem bformataAssert_ok (h : bformataAssert b s = .ok out) :
    out = b ++ s ∧ 2 * s.length + 2 ≤ intMax := by
  obtain ⟨⟨rc, str⟩, hRun, hRest⟩ := Outcome.bind_eq_ok_iff.mp h
  rcases bformata_ok hRun with ⟨hText, rfl, rfl, -⟩ | ⟨-, rfl, rfl⟩
  · cases hRest
    exact ⟨rfl, hText⟩
  · cases hRest

end Append

section Cat
variable (lib : DoubleLib D)

/-- `Node_catbstr` on the tree itself. -/
def catTree : Tree D → Bytes → Run Bytes
  | .nil, str => pure str
  | .node d c s, str => do
    let str ← catTree s str
    let str ← catStart str 32 d
    let str ← catTree c str
    let str ← catValue lib str 32 d
    catName str 32 d

variable {lib}

theorem nodeCatbstr_stored {h : Heap D} {par : Option Nat} {f : Located (NodeData D)}
    (hf : Stored h par f) {fuel : Nat} (hFuel : f.height < fuel) (str : Bytes) :
    nodeCatbstr lib h fuel str f.ptr 32 true = catTree lib f.erase str := by
  induction f generalizing par fuel str with
  | nil =>
    obtain ⟨fuel, rfl⟩ : ∃ k, fuel = k + 1 := ⟨fuel - 1, by omega⟩
    rfl
  | node a c s ihc ihs =>
    obtain ⟨hCell, hc, hs⟩ := hf
    obtain ⟨fuel, rfl⟩ : ∃ k, fuel = k + 1 := ⟨fuel - 1, by omega⟩
    simp only [Forest.height] at hFuel
    have hLink : ∀ g : Located (NodeData D),
        (∀ str, nodeCatbstr lib h fuel str g.ptr 32 true = catTree lib g.erase str) → ∀ str,
        (if g.ptr.isSome then nodeCatbstr lib h fuel str g.ptr 32 true else pure str) =
          catTree lib g.erase str := by
      intro g hg str
      cases g with
      | nil => rfl
      | node => exact hg str
    have hSib := hLink s fun str => ihs hs (by omega) str
    have hKid := hLink c fun str => ihc hc (by omega) str
    change nodeCatbstr lib h (fuel + 1) str (some a.1) 32 true = _
    rw [nodeCatbstr, hCell]
    simp only [Bool.and_true, hSib, hKid, Forest.erase_node, catTree]

theorem nodeCatbstr_represents {h : Heap D} {par root : Option Nat} {t : Tree D} (ht : Represents h par root t)
    (str : Bytes) : nodeCatbstr lib h (h.length + 1) str root 32 true = catTree lib t str := by
  obtain ⟨f, rfl, rfl, hf, hNodup⟩ := ht
  have hFuel : f.height < h.length + 1 := by
    have hSize := hf.size_le hNodup
    have hHeight := f.height_le_size
    omega
  exact nodeCatbstr_stored hf hFuel str

theorem nodeBstr_represents (lib : DoubleLib D) {h : Heap D} {par root : Option Nat} {t : Tree D}
    (ht : Represents h par root t) (hNil : t ≠ .nil) :
    nodeBstr lib h root true = (catTree lib t [] >>= fun str =>
      if (bconchar str 10).1 then pure (bconchar str 10).2
      else throw (.assertFailed "failed to append separator char")) := by
  have hSome : root.isNone = false := by
    obtain ⟨f, rfl, rfl, -, -⟩ := ht
    cases f with
    | nil => exact absurd rfl hNil
    | node => rfl
  simp only [nodeBstr, hSome, nodeCatbstr_represents ht]
  rfl

variable (lib)

/-- `Node_bstr` on the tree itself, its siblings included -/
def bstrTree (t : Tree D) : Run Bytes :=
  match t with
  | .nil => throw (.assertFailed "d cannot be NULL")
  | t => catTree lib t [] >>= fun str =>
    if (bconchar str 10).1 then pure (bconchar str 10).2
    else throw (.assertFailed "failed to append separator char")

theorem nodeBstr_eq_bstrTree {h : Heap D} {par root : Option Nat} {t : Tree D} (ht : Represents h par root t) :
    nodeBstr lib h root true = bstrTree lib t := by
  cases t with
  | nil =>
    obtain ⟨f, hErase, rfl, -⟩ := ht
    cases f with
    | nil => rfl
    | node a c s => cases hErase
  | node d c s => exact nodeBstr_represents lib ht (by intro hNil; cases hNil)

end Cat

/-! ## What is written -/

def isFloat : Value D → Bool
  | .float _ => true
  | _ => false

def FloatFree (t : Tree D) : Prop := t.All fun d => isFloat d.value = false

/-- The tokens that `Node_catbstr` really writes. -/
def written (ts : List (Token D)) : List (Token D) := ts.filter fun t => !t.isString || tokenFits t

section Written
variable {lib : DoubleLib D} {str out : Bytes} {d : NodeData D}

@[simp] theorem written_append (ts us : List (Token D)) :
    written (ts ++ us) = written ts ++ written us := by
  simp [written]

theorem written_of_fits {ts : List (Token D)} (h : ∀ t ∈ ts, tokenFits t = true) : written ts = ts := by
  rw [written, List.filter_eq_self]
  intro t ht
  simp [h t ht]

theorem written_keeps {ts : List (Token D)} (h : ∀ t ∈ ts, t.isString = false) : written ts = ts := by
  rw [written, List.filter_eq_self]
  intro t ht
  simp [h t ht]

theorem print_length_small {n : Nat} (h : n < 2 ^ 64) : (Decimal.print n).length ≤ 20 :=
  Decimal.length_print_le (by decide) (Nat.lt_trans h (by decide))

theorem catStart_fits (str : Bytes) (d : NodeData D)
    (hTotal : str.length + (text (startTokens d)).length + 1 ≤ intMax) :
    catStart str 32 d = .ok (str ++ text (startTokens d)) := by
  obtain ⟨name, value⟩ := d
  cases value with
  | group => exact bformataAssert_fits (by decide) hTotal
  | number | string | blob | float => simp only [catStart, startTokens, text_nil, List.append_nil]; rfl

theorem catStart_ok (h : catStart str 32 d = .ok out) : out = str ++ text (startTokens d) := by
  obtain ⟨name, value⟩ := d
  cases value with
  | group => exact (bformataAssert_ok h).1
  | number | string | blob | float =>
    cases h
    simp [startTokens]

theorem catName_fits (str : Bytes) (d : NodeData D) (hFits : ∀ t ∈ nameTokens d, tokenFits t = true)
    (hTotal : str.length + (text (nameTokens d)).length + 1 ≤ intMax) :
    catName str 32 d = .ok (str ++ text (nameTokens d)) := by
  obtain ⟨name, value⟩ := d
  cases name with
  | none =>
    simp only [catName, nameTokens, text_nil, List.append_nil]
    rfl
  | some name =>
    have hLength : (cstr (some name) ++ [32]).length = (cstr (some name)).length + 1 := by simp
    simp only [catName, nameTokens] at *
    split at hFits
    all_goals
      rename_i hAt
      have hFit := hFits _ (List.mem_singleton_self _)
      simp only [tokenFits, decide_eq_true_eq] at hFit
      simp only [hAt, if_true, if_false, text_cons, tokenText, text_nil, List.append_nil] at hTotal ⊢
      exact bformataAssert_fits (by omega) hTotal

theorem catName_ok (h : catName str 32 d = .ok out) :
    out = str ++ text (nameTokens d) ∧ ∀ t ∈ nameTokens d, tokenFits t = true := by
  obtain ⟨name, value⟩ := d
  cases name with
  | none =>
    cases h
    simp [nameTokens]
  | some name =>
    obtain ⟨rfl, hText⟩ := bformataAssert_ok h
    simp only [List.length_append, List.length_singleton] at hText
    simp only [nameTokens]
    split
    all_goals
      refine ⟨by simp [tokenText], ?_⟩
      intro t ht
      rw [List.mem_singleton] at ht
      subst ht
      simpa [tokenFits] using hText

theorem bconcat_getD_fits (str : Bytes) {s : Option Bytes} (h : str.length + blength s + 1 ≤ intMax) :
    ∃ rc, bconcat str s = .ok (rc, str ++ s.getD []) := by
  cases s with
  | none => exact ⟨false, by simp only [bconcat, Option.getD_none, List.append_nil]; rfl⟩
  | some b => exact ⟨true, bconcat_fits h⟩

theorem bconcat_getD_ok {s : Option Bytes} {rc : Bool} (h : bconcat str s = .ok (rc, out)) :
    out = str ++ s.getD [] ∧ blength s ≤ intMax := by
  cases s with
  | none =>
    cases h
    simp [blength]
  | some b =>
    obtain ⟨rfl, -, hLen⟩ := bconcat_ok h
    exact ⟨rfl, by simp only [blength, Option.getD_some]; omega⟩

/-- The length of a blob that can be written at all has few digits. -/
theorem blobHead_fits {s : Option Bytes} (h : blength s ≤ intMax) :
    2 * (39 :: Decimal.print (blength s) ++ [58]).length + 2 ≤ intMax := by
  have hShort := print_length_small (Nat.lt_of_le_of_lt h (by decide : intMax < 2 ^ 64))
  simp only [List.length_append, List.length_cons, List.length_nil, intMax]
  omega

theorem catBlob_fits {name : Option Bytes} {s : Option Bytes}
    (hTotal : str.length + (blobText s ++ [32]).length + 1 ≤ intMax) :
    catValue lib str 32 ⟨name, .blob s⟩ = .ok (str ++ (blobText s ++ [32])) := by
  simp only [blobText, List.length_append, List.length_cons, List.length_nil] at hTotal
  have hLength : blength s = (s.getD []).length := rfl
  have hHead := bformata_fits (b := str) (blobHead_fits (s := s) (by omega))
    (by simp only [List.length_append, List.length_cons, List.length_nil]; omega)
  obtain ⟨rc, hBody⟩ := bconcat_getD_fits (s := s) (str ++ (39 :: Decimal.print (blength s) ++ [58]))
    (by simp only [List.length_append, List.length_cons, List.length_nil]; omega)
  have hTail := bformata_fits (s := [39, 32])
    (b := str ++ (39 :: Decimal.print (blength s) ++ [58]) ++ s.getD []) (by decide)
    (by simp only [List.length_append, List.length_cons, List.length_nil]; omega)
  simp only [catValue]
  rw [Outcome.bind_of_ok hHead, Outcome.bind_of_ok hBody, Outcome.bind_of_ok hTail]
  simp only [blobText, List.append_assoc]
  rfl

theorem catBlob_ok {name : Option Bytes} {s : Option Bytes}
    (h : catValue lib str 32 ⟨name, .blob s⟩ = .ok out) : out = str ++ (blobText s ++ [32]) := by
  simp only [catValue] at h
  obtain ⟨⟨rc, str₁⟩, hHead, h⟩ := Outcome.bind_eq_ok_iff.mp h
  obtain ⟨⟨rc', str₂⟩, hBody, h⟩ := Outcome.bind_eq_ok_iff.mp h
  obtain ⟨⟨rc'', str₃⟩, hTail, h⟩ := Outcome.bind_eq_ok_iff.mp h
  cases h
  obtain ⟨rfl, hLength⟩ := bconcat_getD_ok hBody
  rcases bformata_ok hHead with ⟨-, rfl, -⟩ | ⟨hLong, -⟩
  · rcases bformata_ok hTail with ⟨-, rfl, -⟩ | ⟨hLong, -⟩
    · simp [blobText]
    · exact absurd (by decide) hLong
  · exact absurd (blobHead_fits hLength) hLong

theorem catValue_fits (lib : DoubleLib D) (str : Bytes) (d : NodeData D)
    (hFloat : isFloat d.value = false)
    (hFits : ∀ t ∈ valueTokens d, tokenFits t = true)
    (hTotal : str.length + (text (valueTokens d)).length + 1 ≤ intMax) :
    catValue lib str 32 d = .ok (str ++ text (valueTokens d)) := by
  obtain ⟨name, value⟩ := d
  cases value with
  | number n =>
    have hShort := print_length_small n.toNat_lt
    simp only [valueTokens, text_cons, tokenText, Option.getD_some, text_nil, List.append_nil] at hTotal ⊢
    have hRun := bformata_fits (b := str) (s := Decimal.print n.toNat ++ [32])
      (by simp only [List.length_append, List.length_singleton, intMax]; omega) hTotal
    simp only [catValue]
    rw [Outcome.bind_of_ok hRun]
    rfl
  | string s =>
    have hFit := hFits _ (List.mem_singleton_self _)
    simp only [tokenFits, decide_eq_true_eq] at hFit
    have hText : text [(Token.string (cstr s) : Token D)] = 34 :: cstr s ++ [34, 32] := by
      simp [tokenText]
    simp only [valueTokens, hText] at hTotal ⊢
    have hRun := bformata_fits (b := str) (s := 34 :: cstr s ++ [34, 32]) (by simp; omega) hTotal
    simp only [catValue]
    rw [Outcome.bind_of_ok hRun]
    rfl
  | blob s =>
    have hText : text [(Token.blob (some (s.getD [])) : Token D)] = blobText s ++ [32] := by
      cases s <;> simp [tokenText, blobText, blength]
    simp only [valueTokens, hText] at hTotal ⊢
    exact catBlob_fits hTotal
  | float x => cases hFloat
  | group =>
    cases name with
    | none => exact bformataAssert_fits (by decide) hTotal
    | some name =>
      simp only [catValue, valueTokens] at *
      split
      · rename_i hAt
        rw [if_pos hAt] at hTotal
        exact bformataAssert_fits (by decide) hTotal
      · simp only [text_nil, List.append_nil]
        rfl

theorem catValue_ok (hFloat : isFloat d.value = false) (h : catValue lib str 32 d = .ok out) :
    out = str ++ text (written (valueTokens d)) ∧
      ∀ t ∈ valueTokens d, t.isString = true ∨ tokenFits t = true := by
  obtain ⟨name, value⟩ := d
  cases value with
  | number n =>
    have hShort := print_length_small n.toNat_lt
    simp only [catValue] at h
    obtain ⟨⟨rc, str₁⟩, hRun, h⟩ := Outcome.bind_eq_ok_iff.mp h
    cases h
    refine ⟨?_, by simp [valueTokens, tokenFits]⟩
    rcases bformata_ok hRun with ⟨-, rfl, -⟩ | ⟨hLong, -⟩
    · simp [valueTokens, written, Token.isString, tokenText]
    · refine absurd ?_ hLong
      simp only [List.length_append, List.length_singleton, intMax]
      omega
  | string s =>
    simp only [catValue] at h
    obtain ⟨⟨rc, str₁⟩, hRun, h⟩ := Outcome.bind_eq_ok_iff.mp h
    cases h
    refine ⟨?_, by simp [valueTokens, Token.isString]⟩
    rcases bformata_ok hRun with ⟨hFit, rfl, -⟩ | ⟨hLong, rfl, -⟩
    · have hKeep : tokenFits (.string (cstr s) : Token D) = true := by simpa [tokenFits] using hFit
      simp [valueTokens, written, hKeep, tokenText]
    · have hDrop : tokenFits (.string (cstr s) : Token D) = false := by
        simpa [tokenFits] using hLong
      simp [valueTokens, written, hDrop, Token.isString]
  | blob s =>
    refine ⟨?_, by simp [valueTokens, tokenFits]⟩
    rw [catBlob_ok h]
    cases s <;> simp [valueTokens, written, Token.isString, tokenText, blobText, blength]
  | float x => cases hFloat
  | group =>
    cases name with
    | none =>
      rw [(bformataAssert_ok h).1]
      simp [valueTokens, written, Token.isString, tokenText, tokenFits]
    | some name =>
      simp only [catValue, valueTokens] at *
      split at h
      · rename_i hAt
        rw [(bformataAssert_ok h).1]
        simp [hAt, written, Token.isString, tokenText, tokenFits]
      · rename_i hAt
        cases h
        simp [hAt, written]

theorem startTokens_not_string : ∀ t ∈ startTokens d, t.isString = false := by
  obtain ⟨name, value⟩ := d
  cases value <;> simp [startTokens, Token.isString]

theorem startTokens_fit : ∀ t ∈ startTokens d, tokenFits t = true := by
  obtain ⟨name, value⟩ := d
  cases value <;> simp [startTokens, tokenFits]

theorem nameTokens_not_string : ∀ t ∈ nameTokens d, t.isString = false := by
  obtain ⟨name, value⟩ := d
  cases name with
  | none => simp [nameTokens]
  | some name => simp only [nameTokens]; split <;> simp [Token.isString]

/-- A string that `bformata` has no room for is left out; the other values always fit. -/
theorem catValue_written (lib : DoubleLib D) (str : Bytes) (d : NodeData D)
    (hFloat : isFloat d.value = false)
    (hTotal : str.length + (text (written (valueTokens d))).length + 1 ≤ intMax) :
    catValue lib str 32 d = .ok (str ++ text (written (valueTokens d))) := by
  by_cases hFits : ∀ t ∈ valueTokens d, tokenFits t = true
  · rw [written_of_fits hFits] at hTotal ⊢
    exact catValue_fits lib str d hFloat hFits hTotal
  · obtain ⟨name, value⟩ := d
    cases value with
    | string s =>
      have hLong : tokenFits (.string (cstr s) : Token D) = false := by
        simpa [valueTokens] using hFits
      have hDrop : written (valueTokens (⟨name, .string s⟩ : NodeData D)) = [] := by
        simp [valueTokens, written, hLong, Token.isString]
      have hRun : bformata str (34 :: cstr s ++ [34, 32]) = .ok (false, str) := by
        refine bformata_long fun hText => ?_
        simp only [tokenFits, decide_eq_false_iff_not] at hLong
        refine hLong ?_
        simpa using hText
      rw [hDrop, text_nil, List.append_nil]
      simp only [catValue]
      rw [Outcome.bind_of_ok hRun]
      rfl
    | number | blob | float => exact absurd (by simp [valueTokens, tokenFits]) hFits
    | group =>
      refine absurd ?_ hFits
      cases name with
      | none => simp [valueTokens, tokenFits]
      | some name =>
        simp only [valueTokens]
        split <;> simp [tokenFits]

/-- With room for the names and for the whole text, all but the long strings is written. -/
theorem catTree_written (lib : DoubleLib D) (str : Bytes) {t : Tree D} (hFloat : FloatFree t)
    (hOther : ∀ tok ∈ tokens t, tok.isString = true ∨ tokenFits tok = true)
    (hTotal : str.length + (text (written (tokens t))).length + 1 ≤ intMax) :
    catTree lib t str = .ok (str ++ text (written (tokens t))) := by
  induction t generalizing str with
  | nil =>
    simp only [catTree, tokens, written, List.filter_nil, text_nil, List.append_nil]
    rfl
  | node d c s ihc ihs =>
    obtain ⟨hd, hc, hs⟩ := hFloat
    have hNames : ∀ tok ∈ nameTokens d, tokenFits tok = true := fun tok hTok =>
      (hOther tok (by simp [tokens, hTok])).resolve_left (by simp [nameTokens_not_string tok hTok])
    simp only [tokens, written_append, written_keeps startTokens_not_string,
      written_keeps nameTokens_not_string, text_append, List.length_append] at hTotal ⊢
    have hSib := ihs str hs (fun tok h => hOther tok (by simp [tokens, h])) (by omega)
    have hStart := catStart_fits (str ++ text (written (tokens s))) d
      (by simp only [List.length_append]; omega)
    have hKid := ihc (str ++ text (written (tokens s)) ++ text (startTokens d)) hc
      (fun tok h => hOther tok (by simp [tokens, h])) (by simp only [List.length_append]; omega)
    have hValue := catValue_written lib
      (str ++ text (written (tokens s)) ++ text (startTokens d) ++ text (written (tokens c))) d hd
      (by simp only [List.length_append]; omega)
    have hName := catName_fits (str ++ text (written (tokens s)) ++ text (startTokens d) ++
      text (written (tokens c)) ++ text (written (valueTokens d))) d hNames
      (by simp only [List.length_append]; omega)
    simp only [catTree]
    rw [Outcome.bind_of_ok hSib, Outcome.bind_of_ok hStart, Outcome.bind_of_ok hKid,
      Outcome.bind_of_ok hValue, hName]
    simp only [List.append_assoc]

/-- With room for every token the whole text is written. -/
theorem catTree_fits (lib : DoubleLib D) (str : Bytes) {t : Tree D} (hFloat : FloatFree t)
    (hFits : ∀ tok ∈ tokens t, tokenFits tok = true)
    (hTotal : str.length + (text (tokens t)).length + 1 ≤ intMax) :
    catTree lib t str = .ok (str ++ text (tokens t)) := by
  have hWritten := catTree_written lib str hFloat (fun tok hTok => .inr (hFits tok hTok))
  rw [written_of_fits hFits] at hWritten
  exact hWritten hTotal

/-- Whatever is written is the text of the tokens without the strings that do not fit. -/
theorem catTree_ok {t : Tree D} (hFloat : FloatFree t) (h : catTree lib t str = .ok out) :
    out = str ++ text (written (tokens t)) ∧
      ∀ tok ∈ tokens t, tok.isString = true ∨ tokenFits tok = true := by
  induction t generalizing str out with
  | nil =>
    cases h
    simp [tokens, written]
  | node d c s ihc ihs =>
    obtain ⟨hd, hc, hs⟩ := hFloat
    obtain ⟨str₁, hSib, h⟩ := Outcome.bind_eq_ok_iff.mp h
    obtain ⟨str₂, hStart, h⟩ := Outcome.bind_eq_ok_iff.mp h
    obtain ⟨str₃, hKid, h⟩ := Outcome.bind_eq_ok_iff.mp h
    obtain ⟨str₄, hValue, hName⟩ := Outcome.bind_eq_ok_iff.mp h
    obtain ⟨rfl, hSibFits⟩ := ihs hs hSib
    have hStartText := catStart_ok hStart
    subst hStartText
    obtain ⟨rfl, hKidFits⟩ := ihc hc hKid
    obtain ⟨rfl, hValueFits⟩ := catValue_ok hd hValue
    obtain ⟨rfl, hNameFits⟩ := catName_ok hName
    constructor
    · simp [tokens, written_keeps startTokens_not_string, written_keeps nameTokens_not_string]
    · intro tok hTok
      simp only [tokens, List.mem_append] at hTok
      rcases hTok with (((hTok | hTok) | hTok) | hTok) | hTok
      · exact hSibFits tok hTok
      · exact .inr (startTokens_fit tok hTok)
      · exact hKidFits tok hTok
      · exact hValueFits tok hTok
      · exact .inr (hNameFits tok hTok)

/-- `Node_bstr` has room for the names and for the whole text. -/
def Writable (t : Tree D) : Prop :=
  (∀ tok ∈ tokens t, tok.isString = true ∨ tokenFits tok = true) ∧
    (text (written (tokens t))).length + 2 ≤ intMax

theorem nodeBstr_ok_iff {heap : Heap D} {root : Option Nat} {t : Tree D} (hFloat : FloatFree t)
    (hNil : t ≠ .nil) (hTree : Represents heap none root t) {out : Bytes} :
    nodeBstr lib heap root true = .ok out ↔ Writable t ∧ text (written (tokens t)) ++ [10] = out := by
  rw [nodeBstr_represents lib hTree hNil]
  constructor
  · intro h
    obtain ⟨str, hCat, hEnd⟩ := Outcome.bind_eq_ok_iff.mp h
    obtain ⟨rfl, hOther⟩ := catTree_ok hFloat hCat
    simp only [bconchar, List.nil_append] at hEnd
    split at hEnd
    · rename_i hRoom
      cases hEnd
      exact ⟨⟨hOther, by simpa using hRoom⟩, rfl⟩
    · cases hEnd
  · rintro ⟨⟨hOther, hRoom⟩, rfl⟩
    have hCat := catTree_written lib [] hFloat hOther (by simp only [List.length_nil]; omega)
    rw [Outcome.bind_of_ok hCat]
    simp [bconchar, hRoom]
    rfl

end Written

end Utu.Stackish
