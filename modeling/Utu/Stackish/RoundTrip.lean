import Utu.Stackish.Relex
import Utu.Stackish.Safety

/-!
# Printing and parsing again

A tree of the shapes the grammar can build is printed as tokens that build it
again, so parsing what was printed gives the tree back. Three things can get
lost: the bytes of a string behind a NUL, the difference between a NULL and an
empty blob, and a string for which `bformata` finds no room.
-/

namespace Utu.Stackish
open LinkedForest
set_option autoImplicit false

variable {D : Type}

/-! ## Shapes -/

def leafName (name : Option Bytes) : Prop := ∀ n, name = some n → attribName n

def groupName (name : Option Bytes) : Prop := ∀ n, name = some n → isWord n = true ∨ attribName n

/-- What a node of the grammar looks like. -/
def NodeShape (d : NodeData D) : Prop :=
  match d.value with
  | .group => groupName d.name
  | .string s => leafName d.name ∧ ∃ b, s = some b ∧ 34 ∉ b
  | _ => leafName d.name

/-- Only groups have children. -/
def Shaped : Tree D → Prop
  | .nil => True
  | .node d c s => NodeShape d ∧ (d.value ≠ .group → c = .nil) ∧ Shaped c ∧ Shaped s

/-- No string is cut at a NUL and no blob is NULL. -/
def plainValue : Value D → Bool
  | .string (some s) => s.all (· ≠ 0)
  | .string none => false
  | .blob none => false
  | _ => true

def Plain (t : Tree D) : Prop := t.All fun d => plainValue d.value = true

/-- There is room for every token, and for the newline behind the last one. -/
def Fits (t : Tree D) : Prop :=
  (∀ tok ∈ tokens t, tokenFits tok = true) ∧ (text (tokens t)).length + 2 ≤ intMax

/-- A value as it comes back from its text. -/
def printedValue : Value D → Value D
  | .string s => .string (some (cstr s))
  | .blob s => .blob (some (s.getD []))
  | v => v

def printedData (d : NodeData D) : NodeData D := ⟨d.name, printedValue d.value⟩

def printedTree (t : Tree D) : Tree D := t.map printedData

section Names

theorem isWord_cons {w : Bytes} (h : isWord w = true) :
    ∃ c rest, w = c :: rest ∧ isAlpha c = true ∧ ∀ b ∈ rest, isWordChar b = true := by
  cases w with
  | nil => cases h
  | cons c rest =>
    simp only [isWord, Bool.and_eq_true, List.all_eq_true] at h
    exact ⟨c, rest, rfl, h.1, h.2⟩

theorem isWord_no_nul {w : Bytes} (h : isWord w = true) : ∀ b ∈ w, b ≠ 0 := by
  obtain ⟨c, rest, rfl, hc, hRest⟩ := isWord_cons h
  intro b hb
  rcases List.mem_cons.mp hb with rfl | hb
  · rintro rfl
    exact absurd hc (by decide)
  · rintro rfl
    exact absurd (hRest 0 hb) (by decide)

theorem cstr_of_no_nul {s : Bytes} (h : ∀ b ∈ s, b ≠ 0) : cstr (some s) = s := by
  rw [cstr, List.takeWhile_eq_self_iff]
  simpa using h

theorem cstr_word {w : Bytes} (h : isWord w = true) : cstr (some w) = w :=
  cstr_of_no_nul (isWord_no_nul h)

theorem cstr_attrib {w : Bytes} (h : isWord w = true) : cstr (some (64 :: w)) = 64 :: w :=
  cstr_of_no_nul fun b hb => by
    rcases List.mem_cons.mp hb with rfl | hb
    · decide
    · exact isWord_no_nul h b hb

theorem bchar_word {w : Bytes} (h : isWord w = true) : bchar w 0 ≠ 64 := by
  obtain ⟨c, rest, rfl, hc, -⟩ := isWord_cons h
  rintro rfl
  exact absurd hc (by decide)

theorem nameTokens_word {w : Bytes} (h : isWord w = true) (v : Value D) :
    nameTokens ⟨some w, v⟩ = [.word w] := by
  simp [nameTokens, bchar_word h, cstr_word h]

theorem nameTokens_attrib {w : Bytes} (h : isWord w = true) (v : Value D) :
    nameTokens ⟨some (64 :: w), v⟩ = [.attrib (64 :: w)] := by
  simp [nameTokens, bchar, cstr_attrib h]

end Names

/-! ## The tokens of a tree build it -/

section Build

/-- The nodes of `f` in front of `k`. -/
def graft : Tree D → Tree D → Tree D
  | .nil, k => k
  | .node d c s, k => .node d c (graft s k)

theorem graft_nil (f : Tree D) : graft f .nil = f := by
  induction f with
  | nil => rfl
  | node d c s _ ihs => rw [graft, ihs]

/-- Naming the newest child by the tokens of its name. -/
theorem applyAll_name {name : Option Bytes} (hName : leafName name) (v : Value D) (c k : Tree D)
    (outer : Doc D) :
    applyAll (nameTokens ⟨name, v⟩) (.node ⟨none, printedValue v⟩ c k :: outer) =
      some (.node (printedData ⟨name, v⟩) c k :: outer) := by
  cases name with
  | none => rfl
  | some n =>
    obtain ⟨w, hw, rfl⟩ := hName n rfl
    rw [nameTokens_attrib hw]
    rfl

theorem applyAll_leaf {d : NodeData D} (hShape : NodeShape d) (hFloat : isFloat d.value = false)
    (hLeaf : d.value ≠ .group) (k : Tree D) (outer : Doc D) :
    applyAll (startTokens d ++ valueTokens d ++ nameTokens d) (k :: outer) =
      some (.node (printedData d) .nil k :: outer) := by
  obtain ⟨name, v⟩ := d
  have hName : leafName name := by
    cases v with
    | string s => exact hShape.1
    | group => exact absurd rfl hLeaf
    | number | blob | float => exact hShape
  have hValue : applyAll (startTokens ⟨name, v⟩ ++ valueTokens ⟨name, v⟩) (k :: outer) =
      some (.node ⟨none, printedValue v⟩ .nil k :: outer) := by
    cases v with
    | group => exact absurd rfl hLeaf
    | float x => cases hFloat
    | number | string | blob => rfl
  exact applyAll_append hValue (applyAll_name hName v .nil k outer)

theorem applyAll_group {name : Option Bytes} (hName : groupName name) (kids k : Tree D)
    (outer : Doc D) :
    applyAll (valueTokens ⟨name, (.group : Value D)⟩ ++ nameTokens ⟨name, .group⟩) (kids :: k :: outer) =
      some (.node ⟨name, .group⟩ kids k :: outer) := by
  cases name with
  | none => rfl
  | some n =>
    rcases hName n rfl with hw | ⟨w, hw, rfl⟩
    · simp only [valueTokens, bchar_word hw, if_false, nameTokens_word hw]
      rfl
    · simp only [valueTokens, nameTokens_attrib hw]
      rfl

/-- Inside an open group the tokens of a forest put it in front of the children there. -/
theorem applyAll_tokens {f : Tree D} (hShape : Shaped f) (hFloat : FloatFree f) (k : Tree D)
    (outer : Doc D) :
    applyAll (tokens f) (k :: outer) = some (graft (printedTree f) k :: outer) := by
  induction f generalizing k outer with
  | nil => rfl
  | node d c s ihc ihs =>
    obtain ⟨hd, hLeaf, hc, hs⟩ := hShape
    obtain ⟨hdf, hcf, hsf⟩ := hFloat
    have hSib := ihs hs hsf k outer
    by_cases hGroup : d.value = .group
    · obtain ⟨name, v⟩ := d
      cases hGroup
      have hKid := ihc hc hcf .nil (graft (printedTree s) k :: outer)
      rw [graft_nil] at hKid
      have hClose := applyAll_group hd (printedTree c) (graft (printedTree s) k) outer
      simp only [tokens, startTokens, List.append_assoc]
      refine applyAll_append hSib ?_
      change applyAll (tokens c ++ _) (.nil :: graft (printedTree s) k :: outer) = _
      exact applyAll_append hKid hClose
    · obtain rfl := hLeaf hGroup
      simp only [tokens, List.append_nil, List.append_assoc]
      refine applyAll_append hSib ?_
      rw [← List.append_assoc]
      exact applyAll_leaf hd hdf hGroup _ outer

/-- The tokens of a whole document: the last one closes the root. -/
theorem tokens_root {name : Option Bytes} (hName : rootName name) {kids : Tree D}
    (hShape : Shaped kids) (hFloat : FloatFree kids) :
    ∃ init last, tokens (.node ⟨name, .group⟩ kids .nil) = init ++ [last] ∧
      applyAll init [] = some [printedTree kids] ∧
      applyToken last [printedTree kids] = .closed (printedTree (.node ⟨name, .group⟩ kids .nil)) := by
  have hKids : applyAll ([.start] ++ tokens kids) [] = some [printedTree kids] := by
    have h := applyAll_tokens hShape hFloat .nil []
    rw [graft_nil] at h
    exact h
  cases name with
  | none =>
    refine ⟨[.start] ++ tokens kids, .group, ?_, hKids, rfl⟩
    simp [tokens, startTokens, valueTokens, nameTokens]
  | some n =>
    have hw := hName n rfl
    refine ⟨[.start] ++ tokens kids, .word n, ?_, hKids, rfl⟩
    simp [tokens, startTokens, valueTokens, bchar_word hw, nameTokens_word hw]

theorem tokens_printable {t : Tree D} (hShape : Shaped t) (hFloat : FloatFree t) :
    ∀ tok ∈ tokens t, Printable tok := by
  induction t with
  | nil => simp [tokens]
  | node d c s ihc ihs =>
    obtain ⟨hd, -, hc, hs⟩ := hShape
    obtain ⟨hdf, hcf, hsf⟩ := hFloat
    obtain ⟨name, v⟩ := d
    intro tok hTok
    simp only [tokens, List.mem_append] at hTok
    rcases hTok with (((hTok | hTok) | hTok) | hTok) | hTok
    · exact ihs hs hsf tok hTok
    · cases v <;> simp [startTokens] at hTok
      subst hTok
      trivial
    · exact ihc hc hcf tok hTok
    · cases v with
      | float x => cases hdf
      | number n =>
        rw [valueTokens, List.mem_singleton] at hTok
        subst hTok
        exact Option.some_ne_none n
      | blob s =>
        rw [valueTokens, List.mem_singleton] at hTok
        subst hTok
        exact Option.some_ne_none _
      | string s =>
        rw [valueTokens, List.mem_singleton] at hTok
        subst hTok
        obtain ⟨-, b, rfl, hb⟩ := hd
        exact fun hMem => hb ((List.takeWhile_subset _) hMem)
      | group =>
        have hOnly : tok = .group := by
          simp only [valueTokens] at hTok
          split at hTok
          · simpa using hTok
          split at hTok
          · simpa using hTok
          · cases hTok
        subst hOnly
        trivial
    · cases name with
      | none => cases hTok
      | some n =>
        have hn : isWord n = true ∨ attribName n := by
          cases v with
          | group => exact hd n rfl
          | string s => exact .inr (hd.1 n rfl)
          | number | blob | float => exact .inr (hd n rfl)
        rcases hn with hw | ⟨w, hw, rfl⟩
        · rw [nameTokens_word hw, List.mem_singleton] at hTok
          subst hTok
          exact hw
        · rw [nameTokens_attrib hw, List.mem_singleton] at hTok
          subst hTok
          exact ⟨w, hw, rfl⟩

end Build

/-! ## Counting strings -/

section Count

def isStringValue : Value D → Bool
  | .string _ => true
  | _ => false

def stringCount : Tree D → Nat
  | .nil => 0
  | .node d c s => (if isStringValue d.value then 1 else 0) + stringCount c + stringCount s

def docStrings (d : Doc D) : Nat := (d.map stringCount).sum

theorem docStrings_cons (k : Tree D) (d : Doc D) : docStrings (k :: d) = stringCount k + docStrings d := by
  simp [docStrings]

theorem stringCount_root (d : Doc D) : stringCount d.root = docStrings d := by
  cases d with
  | nil => rfl
  | cons kids outer =>
    have hFold : ∀ (outer : Doc D) (kids : Tree D),
        stringCount (outer.foldl (fun inner kids => .node ⟨none, .group⟩ inner kids) kids) =
          stringCount kids + docStrings outer := by
      intro outer
      induction outer with
      | nil => intro kids; simp [docStrings]
      | cons k outer ih =>
        intro kids
        rw [List.foldl_cons, ih, docStrings_cons]
        simp [stringCount, isStringValue]
        omega
    simp [Doc.root, stringCount, isStringValue, hFold, docStrings_cons]

/-- Only a string token adds a string. -/
theorem docStrings_next {t : Token D} {d e : Doc D} (h : applyToken t d = .next e) :
    docStrings e = docStrings d + if t.isString then 1 else 0 := by
  have hPush : ∀ v : Value D, pushLeaf v d = .next e →
      docStrings e = docStrings d + if isStringValue v then 1 else 0 := by
    intro v h
    cases d with
    | nil => cases h
    | cons k d =>
      cases h
      simp only [docStrings_cons, stringCount]
      omega
  have hClose : ∀ name, closeGroup name d = .next e → docStrings e = docStrings d + 0 := by
    intro name h
    cases d with
    | nil => cases h
    | cons kids rest =>
      cases rest with
      | nil => cases h
      | cons siblings outer =>
        cases h
        simp only [docStrings_cons, stringCount, isStringValue]
        simp
        omega
  cases t with
  | number n =>
    cases n with
    | none => cases h
    | some n => exact hPush _ h
  | float x =>
    cases x with
    | none => cases h
    | some x => exact hPush _ h
  | string s => exact hPush _ h
  | blob s => exact hPush _ h
  | start =>
    cases h
    simp [docStrings_cons, stringCount, Token.isString]
  | word w => exact hClose _ h
  | group => exact hClose _ h
  | attrib a =>
    cases d with
    | nil => cases h
    | cons kids outer =>
      cases kids with
      | nil => cases h
      | node d c s =>
        cases h
        simp [docStrings_cons, stringCount, Token.isString]

theorem Reads.docStrings_eq {lib : DoubleLib D} {buf : Bytes} {p q : Nat} {d e : Doc D}
    {ts : List (Token D)} (h : Reads lib buf p d ts q e) :
    docStrings e = docStrings d + (ts.filter Token.isString).length := by
  induction h with
  | nil => simp
  | cons head _ ih =>
    rw [ih, docStrings_next (step_go _ _ head).2, List.filter_cons]
    split <;> simp
    omega

/-- A tree has as many strings as string tokens. -/
theorem stringCount_tokens (t : Tree D) :
    ((tokens t).filter Token.isString).length = stringCount t := by
  induction t with
  | nil => rfl
  | node d c s ihc ihs =>
    have hStart : (startTokens d).filter Token.isString = [] :=
      List.filter_eq_nil_iff.mpr fun t ht => by simp [startTokens_not_string t ht]
    have hName : (nameTokens d).filter Token.isString = [] :=
      List.filter_eq_nil_iff.mpr fun t ht => by simp [nameTokens_not_string t ht]
    have hValue : ((valueTokens d).filter Token.isString).length =
        if isStringValue d.value then 1 else 0 := by
      obtain ⟨name, v⟩ := d
      cases v with
      | group =>
        cases name with
        | none => rfl
        | some n =>
          simp only [valueTokens]
          split <;> rfl
      | number | string | blob | float => rfl
    simp only [tokens, List.filter_append, List.length_append, hStart, hName, hValue, ihc, ihs,
      stringCount, List.length_nil]
    omega

/-- When every string is written, every token is. -/
theorem fits_of_count {ts : List (Token D)}
    (hOther : ∀ t ∈ ts, t.isString = true ∨ tokenFits t = true)
    (hCount : (ts.filter Token.isString).length ≤ ((written ts).filter Token.isString).length) :
    ∀ t ∈ ts, tokenFits t = true := by
  induction ts with
  | nil => simp
  | cons t ts ih =>
    have hLe : ((written ts).filter Token.isString).length ≤ (ts.filter Token.isString).length :=
      (List.filter_sublist.filter _).length_le
    have hRest : ∀ u ∈ ts, u.isString = true ∨ tokenFits u = true :=
      fun u hu => hOther u (List.mem_cons_of_mem t hu)
    have hHead : tokenFits t = true := by
      by_contra hFit
      have hString := (hOther t List.mem_cons_self).resolve_right hFit
      have hDrop : written (t :: ts) = written ts := by simp [written, hString, hFit]
      rw [hDrop, List.filter_cons_of_pos hString, List.length_cons] at hCount
      omega
    have hKeep : written (t :: ts) = t :: written ts := by simp [written, hHead]
    intro u hu
    rcases List.mem_cons.mp hu with rfl | hu
    · exact hHead
    · refine ih hRest ?_ u hu
      rw [hKeep, List.filter_cons, List.filter_cons] at hCount
      split at hCount
      · simpa using hCount
      · exact hCount

end Count

/-! ## The round trip -/

section RoundTrip
variable {lib : DoubleLib D}

/-- Printing a tree and parsing the text gives the tree again, parent links included. -/
def RoundTrips (lib : DoubleLib D) (heap : Heap D) (root : Option Nat) (t : Tree D) : Prop :=
  ∃ out, nodeBstr lib heap root true = .ok out ∧
    ∃ r, Finishes (nodeParse lib · heap 0 out) (.ok r) ∧ Represents r.heap none r.root t

theorem endsInSpace_newline (s : Bytes) : endsInSpace (s ++ [10]) = true := by
  simp [endsInSpace]

/-- The text of a document is read to its end, which closes the printed tree. -/
theorem readsTo_text (lib : DoubleLib D) {name : Option Bytes} (hName : rootName name)
    {kids : Tree D} (hShape : Shaped kids) (hFloat : FloatFree kids) {tail : Bytes}
    (hLen : (text (tokens (.node ⟨name, .group⟩ kids .nil)) ++ tail).length < 2 ^ 31) :
    ∃ stop, ReadsTo lib (text (tokens (.node ⟨name, .group⟩ kids .nil)) ++ tail) 0
      [printedTree kids] (.closed (printedTree (.node ⟨name, .group⟩ kids .nil)) stop) := by
  obtain ⟨init, last, hTokens, hInit, hLast⟩ := tokens_root hName hShape hFloat
  have hRootShape : Shaped (.node ⟨name, .group⟩ kids .nil : Tree D) :=
    ⟨fun n hn => .inl (hName n hn), fun h => absurd rfl h, hShape, trivial⟩
  have hRootFloat : FloatFree (.node ⟨name, .group⟩ kids .nil : Tree D) := ⟨rfl, hFloat, trivial⟩
  have hPrintable := tokens_printable hRootShape hRootFloat
  rw [hTokens] at hLen hPrintable ⊢
  have hText : text (init ++ [last]) ++ tail =
      [] ++ (text init ++ ([] ++ (tokenText last ++ 32 :: tail))) := by simp
  have hAt : At (text (init ++ [last]) ++ tail) 0
      ([] ++ (text init ++ ([] ++ (tokenText last ++ 32 :: tail)))) := by
    rw [← hText]
    exact ⟨rfl, Nat.zero_add _⟩
  obtain ⟨q, blanks, hReads, hBlanks, hAtLast⟩ := reads_text lib hLen
    (fun t ht => hPrintable t (List.mem_append_left _ ht)) (by simp) hAt hInit
  obtain ⟨-, stop, hStep⟩ := step_printed lib hLen hBlanks
    (hPrintable last (List.mem_append_right _ (List.mem_singleton_self _))) hAtLast
  refine ⟨stop, init, q, hReads, ?_⟩
  rw [hStep, stepToken, hLast]

/-- What a parsed text says about the tree that comes out: its reading denotes that tree. -/
def Denotes (lib : DoubleLib D) (buf : Bytes) (t : Tree D) : Prop :=
  (∃ d stop, ReadsTo lib buf 0 d (.closed t stop)) ∨
    ∃ d x, ReadsTo lib buf 0 d x ∧ (x = .ended ∨ ∃ stop, x = .refused stop) ∧ d ≠ [] ∧ t = d.root

theorem denotes_of_finishes {buf : Bytes} (hLen : buf.length < 2 ^ 31) {heap : Heap D} {errno : Nat}
    {r : Parsed D} (hr : Finishes (nodeParse lib · heap errno buf) (.ok r)) (hNode : r.root ≠ none) :
    endsInSpace buf = true ∧ ∃ t, Denotes lib buf t ∧ Represents r.heap none r.root t := by
  have hCheck : endsInSpace buf = true ∧ errno = 0 := by
    by_contra hCheck
    have hSame := hr.unique (nodeParseSeq_stable lib heap errno buf 0) (finishes_refused hCheck heap 0)
    cases hSame
    exact hNode rfl
  obtain ⟨hEnds, rfl⟩ := hCheck
  refine ⟨hEnds, ?_⟩
  obtain ⟨d, x, hRead⟩ := exists_readsTo hLen hEnds heap (Nat.zero_le _) hr
  have hEnding := hRead.ends hLen hEnds heap (Nat.zero_le _) hr
  have hOpen : Represents r.heap none r.root d.root → d ≠ [] := fun hTree hd =>
    hNode ((represents_ne_nil hTree).mpr (Doc.root_eq_nil.mpr hd))
  cases x with
  | closed t stop =>
    obtain ⟨root, heap', hOk, -, hTree⟩ := hEnding
    cases hOk
    exact ⟨t, .inl ⟨d, stop, hRead⟩, hTree⟩
  | ended =>
    obtain ⟨root, heap', hOk, -, hTree⟩ := hEnding
    cases hOk
    exact ⟨d.root, .inr ⟨d, _, hRead, .inl rfl, hOpen hTree, rfl⟩, hTree⟩
  | refused stop =>
    obtain ⟨root, heap', hOk, -, hTree⟩ := hEnding
    cases hOk
    exact ⟨d.root, .inr ⟨d, _, hRead, .inr ⟨stop, rfl⟩, hOpen hTree, rfl⟩, hTree⟩
  | lexError =>
    simp only [Ends] at hEnding
    split at hEnding
    · obtain ⟨next, heap', hOk, -⟩ := hEnding
      cases hOk
      exact absurd rfl hNode
    · cases hEnding
  | crashed | overrun => cases hEnding

/-- A text denotes one tree. -/
theorem Denotes.unique {buf : Bytes} {t t' : Tree D} (h : Denotes lib buf t) (h' : Denotes lib buf t') :
    t = t' := by
  rcases h with ⟨d, stop, hRead⟩ | ⟨d, x, hRead, hx, -, rfl⟩
  · rcases h' with ⟨d', stop', hRead'⟩ | ⟨d', x', hRead', hx', -, -⟩
    · cases (hRead.unique hRead').2
      rfl
    · rcases hx' with rfl | ⟨_, rfl⟩ <;> cases (hRead.unique hRead').2
  · rcases h' with ⟨d', stop', hRead'⟩ | ⟨d', x', hRead', -, -, rfl⟩
    · rcases hx with rfl | ⟨_, rfl⟩ <;> cases (hRead.unique hRead').2
    · rw [(hRead.unique hRead').1]

/-- The strings of a tree are among the string tokens of a text that denotes it. -/
theorem Denotes.count_le {ts : List (Token D)} (hts : ∀ t ∈ ts, Printable t)
    (hLen : (text ts ++ [10]).length < 2 ^ 31) {t : Tree D} (h : Denotes lib (text ts ++ [10]) t) :
    stringCount t ≤ (ts.filter Token.isString).length := by
  have hPrefix : ∀ d us p, Reads lib (text ts ++ [10]) 0 [] us p d →
      docStrings d ≤ (ts.filter Token.isString).length := by
    intro d us p hReads
    have hAt : At (text ts ++ [10]) 0 ([] ++ (text ts ++ [10])) := ⟨rfl, Nat.zero_add _⟩
    have hSub := reads_text_prefix hLen hts (by simp) (by simp [isSpace]) hAt hReads
    have hCount := hReads.docStrings_eq
    have hLe := (hSub.sublist.filter Token.isString).length_le
    simp only [docStrings, List.map_nil, List.sum_nil, Nat.zero_add] at hCount
    rw [docStrings]
    omega
  rcases h with ⟨d, stop, us, p, hReads, hStop⟩ | ⟨d, x, ⟨us, p, hReads, -⟩, -, -, rfl⟩
  · obtain ⟨name, kids, -, rfl, rfl⟩ := ReadsTo.closed_tree ⟨us, p, hReads, hStop⟩
    have hLe := hPrefix _ us p hReads
    simpa [docStrings, stringCount, isStringValue] using hLe
  · rw [stringCount_root]
    exact hPrefix d us p hReads

theorem printedTree_eq_iff {t : Tree D} (hShape : Shaped t) : printedTree t = t ↔ Plain t := by
  induction t with
  | nil => simp [printedTree, Forest.map, Plain, Forest.All]
  | node d c s ihc ihs =>
    obtain ⟨hd, -, hc, hs⟩ := hShape
    have hData : printedData d = d ↔ plainValue d.value = true := by
      obtain ⟨name, v⟩ := d
      cases v with
      | string s =>
        obtain ⟨-, b, rfl, -⟩ := hd
        simp only [printedData, printedValue, plainValue, NodeData.mk.injEq, true_and,
          Value.string.injEq, Option.some.injEq, cstr, List.takeWhile_eq_self_iff, List.all_eq_true]
      | blob s => cases s <;> simp [printedData, printedValue, plainValue]
      | number | float | group => simp [printedData, printedValue, plainValue]
    simp only [printedTree] at ihc ihs
    simp only [printedTree, Forest.map, Forest.node.injEq, Plain, Forest.All, hData, ihc hc, ihs hs]

theorem shaped_root {name : Option Bytes} (hName : rootName name) {kids : Tree D} (hShape : Shaped kids) :
    Shaped (.node ⟨name, .group⟩ kids .nil) :=
  ⟨fun n hn => .inl (hName n hn), fun h => absurd rfl h, hShape, trivial⟩

/-- A document that comes back from its text, in whatever memory, is plain and fits. -/
theorem fits_of_parsed {name : Option Bytes} (hName : rootName name) {kids : Tree D} (hShape : Shaped kids)
    (hFloat : FloatFree kids) {heap : Heap D} {root : Option Nat}
    (hTree : Represents heap none root (.node ⟨name, .group⟩ kids .nil)) {out : Bytes}
    (hOut : nodeBstr lib heap root true = .ok out) {heap' : Heap D} {errno : Nat} {r : Parsed D}
    (hr : Finishes (nodeParse lib · heap' errno out) (.ok r))
    (hBack : Represents r.heap none r.root (.node ⟨name, .group⟩ kids .nil)) :
    Plain (.node ⟨name, .group⟩ kids .nil) ∧ Fits (.node ⟨name, .group⟩ kids .nil) := by
  have hRootShape := shaped_root hName hShape
  have hRootFloat : FloatFree (.node ⟨name, .group⟩ kids .nil : Tree D) := ⟨rfl, hFloat, trivial⟩
  have hNil : (.node ⟨name, .group⟩ kids .nil : Tree D) ≠ .nil := by simp
  have hNode : r.root ≠ none := fun h => hNil ((represents_ne_nil hBack).mp h)
  generalize hRoot : (.node ⟨name, .group⟩ kids .nil : Tree D) = t at *
  obtain ⟨⟨hOther, hRoom⟩, rfl⟩ := (nodeBstr_ok_iff hRootFloat hNil hTree).mp hOut
  have hLen : (text (written (tokens t)) ++ [10]).length < 2 ^ 31 := by
    simp only [intMax] at hRoom
    simp only [List.length_append, List.length_singleton]
    omega
  obtain ⟨-, t', hDenotes, hTree'⟩ := denotes_of_finishes hLen hr hNode
  obtain rfl := hBack.unique hTree'
  have hPrintable := tokens_printable hRootShape hRootFloat
  have hCount := hDenotes.count_le
    (fun tok hTok => hPrintable tok (List.mem_of_mem_filter hTok)) hLen
  rw [← stringCount_tokens] at hCount
  have hFits := fits_of_count hOther hCount
  rw [written_of_fits hFits] at hDenotes hLen hRoom
  subst hRoot
  obtain ⟨stop, hRead⟩ := readsTo_text lib hName hShape hFloat hLen
  have hSame := hDenotes.unique (.inl ⟨_, stop, hRead⟩)
  exact ⟨(printedTree_eq_iff hRootShape).mp hSame.symm, hFits, hRoom⟩

/-- A document whose root has no siblings round trips exactly when it is plain and fits. -/
theorem roundTrips_iff {name : Option Bytes} (hName : rootName name) {kids : Tree D}
    (hShape : Shaped kids) (hFloat : FloatFree kids) {heap : Heap D} {root : Option Nat}
    (hTree : Represents heap none root (.node ⟨name, .group⟩ kids .nil)) :
    RoundTrips lib heap root (.node ⟨name, .group⟩ kids .nil) ↔
      Plain (.node ⟨name, .group⟩ kids .nil) ∧ Fits (.node ⟨name, .group⟩ kids .nil) := by
  have hRootFloat : FloatFree (.node ⟨name, .group⟩ kids .nil : Tree D) := ⟨rfl, hFloat, trivial⟩
  constructor
  · rintro ⟨out, hOut, r, hr, hBack⟩
    exact fits_of_parsed hName hShape hFloat hTree hOut hr hBack
  · rintro ⟨hPlain, hFits, hTotal⟩
    have hLen : (text (tokens (.node ⟨name, .group⟩ kids .nil)) ++ [10]).length < 2 ^ 31 := by
      simp only [intMax] at hTotal
      simp only [List.length_append, List.length_singleton]
      omega
    refine ⟨text (tokens (.node ⟨name, .group⟩ kids .nil)) ++ [10], ?_, ?_⟩
    · rw [nodeBstr_ok_iff hRootFloat (by simp) hTree, Writable, written_of_fits hFits]
      exact ⟨⟨fun tok hTok => .inr (hFits tok hTok), hTotal⟩, rfl⟩
    · obtain ⟨stop, hRead⟩ := readsTo_text lib hName hShape hFloat hLen
      obtain ⟨r, hEnding, hr⟩ := hRead.finishes hLen (endsInSpace_newline _) heap (Nat.zero_le _)
      obtain ⟨root', heap', rfl, -, hTree'⟩ := hEnding
      rw [(printedTree_eq_iff (shaped_root hName hShape)).mpr hPlain] at hTree'
      exact ⟨_, hr, hTree'⟩

end RoundTrip

end Utu.Stackish
