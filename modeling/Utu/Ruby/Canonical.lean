import Utu.Ruby.Spelling
import Utu.Stackish.Canonical

/-!
# The canonical form in both languages

The C side prints a document, the Ruby side parses the text and emits it again.
The tokens of a document keep one group open to the last one, so Ruby ends with
one structure, and the bytes are the same unless a name went astray on the way.
-/

namespace Utu.Ruby
open Stackish LinkedForest
set_option autoImplicit false

variable {D : Type} {floats : Floats D}

/-! ## Open groups -/

section Nesting

/-- The open groups after a token of an open group that stays open. -/
def depthAfter : Token D → Nat → Option Nat
  | .start, n => some (n + 1)
  | .word _, n | .group, n => if 2 ≤ n then some (n - 1) else none
  | _, n => some n

def depths : List (Token D) → Nat → Option Nat
  | [], n => some n
  | t :: ts, n => (depthAfter t n).bind (depths ts)

theorem depthAfter_next {t : Token D} {d e : Doc D} (h : applyToken t d = .next e) :
    depthAfter t d.length = some e.length := by
  have hPush : ∀ v : Value D, pushLeaf v d = .next e → some d.length = some e.length := by
    intro v h
    cases d with
    | nil => cases h
    | cons k d =>
      cases h
      rfl
  have hClose : ∀ name, closeGroup name d = .next e →
      (if 2 ≤ d.length then some (d.length - 1) else none) = some e.length := by
    intro name h
    cases d with
    | nil => cases h
    | cons kids rest =>
      cases rest with
      | nil => cases h
      | cons siblings outer =>
        cases h
        simp
  cases t with
  | number n =>
    cases n with
    | none => cases h
    | some n => exact hPush _ h
  | float x =>
    cases x with
    | none => cases h
    | some x => exact hPush _ h
  | string s => exact hPush _ h
  | blob s => exact hPush _ h
  | start =>
    cases h
    rfl
  | word w => exact hClose _ h
  | group => exact hClose _ h
  | attrib a =>
    cases d with
    | nil => cases h
    | cons kids outer =>
      cases kids with
      | nil => cases h
      | node d c s =>
        cases h
        rfl

theorem depths_applyAll {ts : List (Token D)} {d e : Doc D} (h : applyAll ts d = some e) :
    depths ts d.length = some e.length := by
  induction ts generalizing d with
  | nil =>
    cases h
    rfl
  | cons t ts ih =>
    simp only [applyAll] at h
    split at h
    · rename_i f hf
      rw [depths, depthAfter_next hf]
      exact ih h
    · cases h

/-- Leaving strings out opens and closes the same groups. -/
theorem depths_written {ts : List (Token D)} {n : Nat} : depths (written ts) n = depths ts n := by
  induction ts generalizing n with
  | nil => rfl
  | cons t ts ih =>
    have hWritten : written (t :: ts) =
        if (!t.isString || tokenFits t) = true then t :: written ts else written ts := List.filter_cons
    rw [hWritten]
    split
    · rw [depths, depths]
      exact Option.bind_congr fun _ _ => ih
    · rename_i hLost
      rw [ih]
      cases t with
      | string b => rfl
      | number | float | blob | start | word | group | attrib => exact absurd rfl hLost

/-- The outermost mark is the bottom of the parse stack, below `n - 1` more. -/
def Stacks.Nested (n : Nat) (s : Stacks D) : Prop :=
  ∃ inner, s.markStack = inner ++ [0] ∧ inner.length + 1 = n

theorem Stacks.Nested.apply {n m : Nat} {s : Stacks D} {t : Token D} (h : s.Nested n) (ht : Printable t)
    (hDepth : depthAfter t n = some m) : ∃ s', s.apply t = some s' ∧ s'.Nested m := by
  obtain ⟨inner, hMarks, hLength⟩ := h
  have hClose : (if 2 ≤ n then some (n - 1) else none) = some m → ∃ x s₁, s.collapse = some (x, s₁) ∧
      ∃ inner', s₁.markStack = inner' ++ [0] ∧ inner'.length + 1 = m := by
    intro hDepth
    split at hDepth
    · cases inner with
      | nil =>
        rw [List.length_nil] at hLength
        omega
      | cons mark inner =>
        cases hDepth
        rw [List.length_cons] at hLength
        simp only [Stacks.collapse, hMarks, List.cons_append]
        exact ⟨_, _, rfl, inner, rfl, by omega⟩
    · cases hDepth
  cases t with
  | float x => exact ht.elim
  | number | string | blob | attrib =>
    cases hDepth
    exact ⟨_, rfl, inner, hMarks, hLength⟩
  | start =>
    cases hDepth
    refine ⟨_, rfl, s.parseStack.length :: inner, ?_, by simp [hLength]⟩
    simp [Stacks.mark, hMarks]
  | group | word =>
    obtain ⟨x, s₁, hCollapse, hNested⟩ := hClose hDepth
    exact ⟨_, Option.map_eq_some_iff.mpr ⟨_, hCollapse, rfl⟩, hNested⟩

end Nesting

section Run
variable {s s' : Stacks D} {t : Token D} {ts read : List (Token D)}

/-- An attribute does not come right behind a bracket that opens a group. -/
def Follows (x y : Token D) : Prop := x = .start → isAttrib y = false

/-- No attribute goes astray. -/
def Chained (s : Stacks D) (ts : List (Token D)) : Prop :=
  (s.opened → ∀ t ∈ ts.head?, isAttrib t = false) ∧ ts.IsChain Follows

theorem chained_cons (hNot : ¬ (s.opened ∧ isAttrib t = true)) (hOpen : s'.opened ↔ t = .start) :
    Chained s (t :: ts) ↔ Chained s' ts := by
  have hHead : s.opened → ∀ u ∈ (t :: ts).head?, isAttrib u = false := by
    rintro hOpened u ⟨⟩
    exact Bool.eq_false_iff.mpr fun hAttrib => hNot ⟨hOpened, hAttrib⟩
  rw [Chained, and_iff_right hHead, List.isChain_cons, Chained, hOpen]
  refine and_congr_left' ?_
  exact ⟨fun h ht u hu => h u hu ht, fun h u hu ht => h ht u hu⟩

/-- The tokens inside a document: what is spelled after them, depending on whether a name
goes astray. -/
theorem Stacks.Marked.run {n m : Nat} (h : s.Marked) (hNested : s.Nested n)
    (hts : ∀ t ∈ ts, Printable t) (hDepth : depths ts n = some m) (hKept : Kept floats read s) :
    ∃ s', s.applyAll ts = some s' ∧ s'.Marked ∧ s'.Nested m ∧ Kept floats (read ++ ts) s' ∧
      (Astray floats read s ∨ ¬ Chained s ts → Astray floats (read ++ ts) s') ∧
      (Chained s ts → s.spelled floats = .ok read → s'.spelled floats = .ok (read ++ ts)) := by
  induction ts generalizing s read n with
  | nil =>
    cases hDepth
    rw [List.append_nil]
    refine ⟨s, rfl, h, hNested, hKept, ?_, fun _ hSpelled => hSpelled⟩
    rintro (hAstray | hNot)
    · exact hAstray
    · exact absurd ⟨by simp, .nil⟩ hNot
  | cons t ts ih =>
    obtain ⟨k, hHead, hTail⟩ := Option.bind_eq_some_iff.mp hDepth
    have ht := hts t List.mem_cons_self
    obtain ⟨s₁, hApply, hNested₁⟩ := hNested.apply ht hHead
    have hMarks : s.markStack ≠ [] := by
      obtain ⟨inner, hMarks, -⟩ := hNested
      simp [hMarks]
    obtain ⟨h₁, hKept₁, hAstray₁, hSpelled₁⟩ := h.step ht hApply hKept
    obtain ⟨s', hRun, hMarked, hNested', hKept', hAstray', hSpelled'⟩ :=
      ih h₁ hNested₁ (fun u hu => hts u (List.mem_cons_of_mem t hu)) hTail hKept₁
    rw [List.append_assoc, List.singleton_append] at hKept' hAstray' hSpelled'
    refine ⟨s', ?_, hMarked, hNested', hKept', fun hBad => hAstray' ?_, fun hChain hSpelled => ?_⟩
    · rw [Stacks.applyAll, hApply]
      exact hRun
    · by_cases hNot : s.opened ∧ isAttrib t = true
      · exact .inl (hAstray₁ (.inr hNot))
      · rcases hBad with hAstray | hChain
        · exact .inl (hAstray₁ (.inl hAstray))
        · rw [chained_cons hNot (hSpelled₁ hMarks hNot).2] at hChain
          exact .inr hChain
    · have hNot : ¬ (s.opened ∧ isAttrib t = true) := by
        rintro ⟨hOpen, hAttrib⟩
        rw [hChain.1 hOpen t rfl] at hAttrib
        cases hAttrib
      obtain ⟨hStep, hOpen⟩ := hSpelled₁ hMarks hNot
      refine hSpelled' ((chained_cons hNot hOpen).mp hChain) ?_
      rw [hStep, hSpelled]
      rfl

end Run

/-! ## A whole document -/

section Document
variable {lib : DoubleLib D}

theorem apply_last {s : Stacks D} (hMarks : s.markStack = [0]) {last : Token D}
    (hLast : last = .group ∨ ∃ w, last = .word w) : ∃ v, s.apply last = some ⟨[v], []⟩ := by
  have hCollapse : s.collapse = some (.array s.parseStack, ⟨[], []⟩) := by
    simp [Stacks.collapse, hMarks]
  rcases hLast with rfl | ⟨w, rfl⟩
  · exact ⟨_, Option.map_eq_some_iff.mpr ⟨_, hCollapse, rfl⟩⟩
  · exact ⟨_, Option.map_eq_some_iff.mpr ⟨_, hCollapse, rfl⟩⟩

theorem applyAll_append_one {s s₁ s₂ : Stacks D} {ts : List (Token D)} {t : Token D}
    (h : s.applyAll ts = some s₁) (ht : s₁.apply t = some s₂) : s.applyAll (ts ++ [t]) = some s₂ := by
  induction ts generalizing s with
  | nil =>
    cases h
    rw [List.nil_append, Stacks.applyAll, ht]
    rfl
  | cons u ts ih =>
    obtain ⟨s', hHead, hTail⟩ := Option.bind_eq_some_iff.mp h
    rw [List.cons_append, Stacks.applyAll, hHead]
    exact ih hTail

/-- What closes a document never goes astray. -/
theorem isChain_document (ts : List (Token D)) {last : Token D} (hLast : isAttrib last = false) :
    ([Token.start] ++ ts ++ [last]).IsChain Follows ↔ Chained (Stacks.mk [] [0]) ts := by
  have hOpen : (Stacks.mk [] [0] : Stacks D).opened := rfl
  have hEnd : ∀ x ∈ ([Token.start] ++ ts).getLast?, ∀ y ∈ [last].head?, Follows x y := by
    rintro x - y ⟨⟩ -
    exact hLast
  rw [List.isChain_append, and_iff_left ⟨.singleton last, hEnd⟩, List.singleton_append,
    List.isChain_cons, Chained]
  refine and_congr_left' ?_
  exact ⟨fun h _ u hu => h u hu rfl, fun h u hu _ => h hOpen u hu⟩

/-- The written tokens of a document make one structure, which spells them unless a name
goes astray. -/
theorem document_stacks (floats : Floats D) (t : Document D) :
    ∃ v, (Stacks.mk [] []).applyAll (written (tokens t.tree)) = some ⟨[v], []⟩ ∧
      Kept floats (written (tokens t.tree)) ⟨[v], []⟩ ∧
      (¬ (written (tokens t.tree)).IsChain Follows →
        Astray floats (written (tokens t.tree)) ⟨[v], []⟩) ∧
      ((written (tokens t.tree)).IsChain Follows →
        (Stacks.mk [v] []).spelled floats = .ok (written (tokens t.tree))) := by
  obtain ⟨last, hPrintable, hLast, hTokens⟩ := tokens_document t
  have hPlain : isAttrib last = false := by
    rcases hLast with rfl | ⟨w, rfl⟩ <;> rfl
  have hKeepLast : written [last] = [last] := by
    rcases hLast with rfl | ⟨w, rfl⟩ <;> rfl
  have hWritten : written (tokens t.tree) = [.start] ++ written (tokens t.kids) ++ [last] := by
    rw [hTokens, ← List.singleton_append, written_append, written_append, hKeepLast]
    rfl
  generalize hInner : written (tokens t.kids) = ts at hWritten
  have hts : ∀ u ∈ ts, Printable u := fun u hu =>
    tokens_printable t.shaped t.floatFree u (List.mem_of_mem_filter (hInner ▸ hu))
  have hDepth : depths ts 1 = some 1 := by
    rw [← hInner, depths_written]
    exact depths_applyAll (applyAll_tokens t.shaped t.floatFree .nil [])
  have hSpelled₁ : (Stacks.mk [] [0] : Stacks D).spelled floats = .ok [.start] := rfl
  have hKept₁ : Kept floats [.start] (Stacks.mk [] [0] : Stacks D) := by
    intro us hus
    cases hSpelled₁.symm.trans hus
    exact ⟨rfl, fun _ h => h, Nat.le_refl _⟩
  have hMarked₁ : (Stacks.mk [] [0] : Stacks D).Marked := ⟨by simp, by simp⟩
  obtain ⟨s₂, hRun, hMarked₂, ⟨inner, hMarks, hLength⟩, hKept₂, hAstray₂, hSpelled₂⟩ :=
    hMarked₁.run ⟨[], rfl, rfl⟩ hts hDepth hKept₁
  obtain rfl : inner = [] := List.length_eq_zero_iff.mp (by omega)
  have hStart : (Stacks.mk [] []).applyAll (.start :: ts) = some s₂ := hRun
  obtain ⟨v, hClose⟩ := apply_last hMarks hLast
  obtain ⟨-, hKept₃, hAstray₃, hSpelled₃⟩ := hMarked₂.step hPrintable hClose hKept₂
  have hNot : ¬ (s₂.opened ∧ isAttrib last = true) := by simp [hPlain]
  have hChain := isChain_document ts hPlain
  refine ⟨v, ?_, ?_, ?_, ?_⟩
  · rw [hWritten]
    exact applyAll_append_one (s := ⟨[], []⟩) (t := last) hStart hClose
  · rw [hWritten]
    exact hKept₃
  · rw [hWritten, hChain]
    exact fun hBad => hAstray₃ (.inl (hAstray₂ (.inr hBad)))
  · rw [hWritten, hChain]
    intro hGood
    rw [(hSpelled₃ (by simp [hMarks]) hNot).1, hSpelled₂ hGood hSpelled₁]
    rfl

/-- Joined by blanks, with a blank and a newline at the end, the tokens are their text. -/
theorem intercalate_text {ts : List (Token D)} (h : ts ≠ []) :
    [32].intercalate (ts.map tokenText) ++ [32, 10] = text ts ++ [10] := by
  induction ts with
  | nil => exact absurd rfl h
  | cons t ts ih =>
    cases ts with
    | nil => simp [List.intercalate]
    | cons u ts =>
      have hRest := ih (by simp)
      simp only [List.map_cons, List.intercalate_cons_cons, text_cons, List.append_assoc] at hRest ⊢
      rw [hRest]

theorem emit_iff {v : Element D} {read : List (Token D)} (hKept : Kept floats read ⟨[v], []⟩)
    (hRead : read.countP isStart ≠ 0) {out : Bytes} : emit floats [v] = .ok out ↔
      ∃ ts, (Stacks.mk [v] []).spelled floats = .ok ts ∧ text ts ++ [10] = out := by
  have hSpelled : (Stacks.mk [v] []).spelled floats = spellAll floats [v] := rfl
  have hEmit : emit floats [v] =
      (fun ts => [32].intercalate (ts.map tokenText) ++ [32, 10]) <$> spellAll floats [v] := by
    rw [emit, convertAll_eq_spellAll]
    simp only [map_eq_pure_bind, bind_assoc, pure_bind]
  rw [hEmit, Outcome.map_eq_ok_iff, hSpelled]
  refine exists_congr fun ts => and_congr_right fun hts => ?_
  have hNe : ts ≠ [] := by
    rintro rfl
    exact hRead (hKept [] hts).1.symm
  rw [intercalate_text hNe]

variable (lib floats)

/-- The Ruby side takes the C text of a tree for one structure and emits the same bytes. -/
def AgreesWithRuby (heap : Heap D) (root : Option Nat) : Prop :=
  ∃ out, nodeBstr lib heap root true = .ok out ∧
    ∃ v, Parser.process floats out = .ok [v] ∧ emit floats [v] = .ok out

variable {lib floats}

theorem process_ok {s : Stacks D} {text : Bytes} {pos : Nat}
    (h : (⟨0, text, ⟨[], []⟩⟩ : Parser D).run floats = .ok ⟨pos, [], s⟩) (hMarks : s.markStack = []) :
    Parser.process floats text = .ok s.parseStack := by
  refine (Outcome.bind_of_ok h _).trans ?_
  simp [hMarks]
  rfl

theorem process_error {text : Bytes} {e : Failure}
    (h : (⟨0, text, ⟨[], []⟩⟩ : Parser D).run floats = .error e) :
    Parser.process floats text = .error e :=
  Outcome.bind_of_error h _

/-- The two implementations agree on a document exactly when C has room for its text, every string
in the text is on one line, and no attribute is written right behind the bracket of a group: it names
a string that was left out, and Ruby takes it for the name of an element outside of the group. -/
theorem agreesWithRuby_iff (t : Document D) {heap : Heap D} {root : Option Nat}
    (hTree : Represents heap none root t.tree) :
    AgreesWithRuby floats lib heap root ↔ Writable t.tree ∧
      (∀ s, .string s ∈ written (tokens t.tree) → 10 ∉ s) ∧
      (written (tokens t.tree)).IsChain Follows := by
  have hShape : Shaped t.tree := ⟨fun n hn => .inl (t.rootName n hn), fun h => absurd rfl h, t.shaped, trivial⟩
  have hFloat : FloatFree t.tree := ⟨rfl, t.floatFree, trivial⟩
  have hPrintable : ∀ tok ∈ written (tokens t.tree), Printable tok := fun tok hTok =>
    tokens_printable hShape hFloat tok (List.mem_of_mem_filter hTok)
  obtain ⟨v, hApply, hKept, hAstray, hSpelled⟩ := document_stacks floats t
  have hStart : (written (tokens t.tree)).countP isStart ≠ 0 := by
    obtain ⟨last, -, -, hTokens⟩ := tokens_document t
    rw [hTokens, List.cons_append]
    simp [written, Token.isString, isStart]
  have hEmit : ∀ out, emit floats [v] = .ok out ↔ _ := fun out => emit_iff hKept hStart
  have hProcess : (∀ s, .string s ∈ written (tokens t.tree) → 10 ∉ s) →
      Parser.process floats (text (written (tokens t.tree)) ++ [10]) = .ok [v] := by
    intro hLines
    have hOneLine : ∀ tok ∈ written (tokens t.tree), OneLine tok := by
      intro tok hTok
      cases tok with
      | string s => exact hLines s hTok
      | number | float | blob | start | word | group | attrib => trivial
    obtain ⟨pos, hRun⟩ := run_text floats hPrintable hOneLine hApply 0
    exact process_ok hRun rfl
  constructor
  · rintro ⟨out, hOut, x, hParsed, hEmitted⟩
    obtain ⟨hWritable, rfl⟩ := (nodeBstr_ok_iff hFloat (by simp [Document.tree]) hTree).mp hOut
    have hLines : ∀ s, .string s ∈ written (tokens t.tree) → 10 ∉ s := by
      intro s hMem hLine
      obtain ⟨pos, hRun⟩ := run_newline floats hPrintable hMem hLine hApply 0
      cases hParsed.symm.trans (process_error hRun)
    refine ⟨hWritable, hLines, ?_⟩
    obtain rfl : x = v := by
      cases hParsed.symm.trans (hProcess hLines)
      rfl
    obtain ⟨ts, hts, hText⟩ := (hEmit _).mp hEmitted
    by_contra hChain
    have hLess := hAstray hChain ts hts
    have hSame : ts = written (tokens t.tree) := by
      have hLen : (text ts).length < 2 ^ 31 := by
        have hRoom := hWritable.2
        rw [List.append_cancel_right hText]
        simp only [intMax] at hRoom
        omega
      exact text_injective lib (fun u hu => hPrintable u ((hKept ts hts).2.1 u hu)) hPrintable hLen
        (List.append_cancel_right hText)
    rw [hSame] at hLess
    exact Nat.lt_irrefl _ hLess
  · rintro ⟨hWritable, hLines, hChain⟩
    refine ⟨_, (nodeBstr_ok_iff hFloat (by simp [Document.tree]) hTree).mpr ⟨hWritable, rfl⟩, v,
      hProcess hLines, ?_⟩
    exact (hEmit _).mpr ⟨_, hSpelled hChain, rfl⟩

def noFloats : Floats Unit := ⟨fun _ => (), fun _ => []⟩

theorem agreesWithRuby_sample :
    Represents sampleHeap none (some 0) sampleDocument.tree ∧
      AgreesWithRuby noFloats noDoubles sampleHeap (some 0) := by
  have hWritten : written (tokens sampleDocument.tree) =
      [.start, .number (some 7), .string [97], .attrib [64, 98], .word [101, 110, 118]] := by decide
  refine ⟨sampleHeap_represents, (agreesWithRuby_iff sampleDocument sampleHeap_represents).mpr
    ⟨⟨by decide, by decide⟩, ?_, ?_⟩⟩
  · rw [hWritten]
    simp
  · rw [hWritten]
    simp [Follows, isAttrib]

/-- `[ "a` with a newline and `b" ]`: the C text is fine, the Ruby parser stops at the quote. -/
theorem not_agreesWithRuby_newline :
    Represents (stringHeap [97, 10, 98]) none (some 0)
        (stringDocument [97, 10, 98] (by simp) (by simp)).tree ∧
      nodeBstr noDoubles (stringHeap [97, 10, 98]) (some 0) true =
        .ok [91, 32, 34, 97, 10, 98, 34, 32, 93, 32, 10] ∧
      Parser.process noFloats [91, 32, 34, 97, 10, 98, 34, 32, 93, 32, 10] = .error (.invalid 2) ∧
      ¬ AgreesWithRuby noFloats noDoubles (stringHeap [97, 10, 98]) (some 0) := by
  have hText : nodeBstr noDoubles (stringHeap [97, 10, 98]) (some 0) true =
      .ok [91, 32, 34, 97, 10, 98, 34, 32, 93, 32, 10] := by decide +kernel
  have hRuby : Parser.process noFloats [91, 32, 34, 97, 10, 98, 34, 32, 93, 32, 10] =
      .error (.invalid 2) := rfl
  refine ⟨stringHeap_represents _, hText, hRuby, ?_⟩
  rintro ⟨out, hOut, v, hParsed, -⟩
  cases hText.symm.trans hOut
  cases hRuby.symm.trans hParsed

end Document

end Utu.Ruby
