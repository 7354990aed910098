import Utu.Stackish.Relex
import Utu.Stackish.Safety

/-!
# Structures one behind the other

A structure ends with the token that closes its root. `Node_parse_seq` hands back
the offset behind the byte at which that token took effect: the `]` itself, but
behind a word one byte more. So a sequence is split where the structures end
unless the byte behind a closing word belongs to the next structure.
-/

namespace Utu.Stackish
open LinkedForest
set_option autoImplicit false

variable {D : Type} {lib : DoubleLib D} {buf : Bytes}

/-- How far the closing token of a tree reaches behind the byte where it took effect: a `]` is part
of the structure, a word ends before the byte that shows its end. -/
def closer : Tree D → Nat
  | .node ⟨none, _⟩ _ _ => 1
  | _ => 0

/-- A structure with the tree `t` is read at `p`, and its closing token ends at `e`. -/
def StructureAt (lib : DoubleLib D) (buf : Bytes) (p : Nat) (t : Tree D) (e : Nat) : Prop :=
  ∃ d stop, ReadsTo lib buf p d (.closed t stop) ∧ e = stop + closer t

/-- From `p` to `q` there are only blanks. -/
def Blank (buf : Bytes) (p q : Nat) : Prop :=
  p ≤ q ∧ q ≤ buf.length ∧ ∀ c ∈ (buf.drop p).take (q - p), isSpace c = true

instance (p q : Nat) : Decidable (Blank buf p q) :=
  inferInstanceAs (Decidable (p ≤ q ∧ q ≤ buf.length ∧ ∀ c ∈ (buf.drop p).take (q - p), isSpace c = true))

/-- The buffer holds these structures from `p` on, each with the offset where it ends, and blanks behind
the last one. -/
inductive Written (lib : DoubleLib D) (buf : Bytes) : Nat → List (Tree D × Nat) → Prop
  | nil {p : Nat} (hBlank : Blank buf p buf.length) : Written lib buf p []
  | cons {p e : Nat} {t : Tree D} {rest : List (Tree D × Nat)} (hHead : StructureAt lib buf p t e)
      (hRest : Written lib buf e rest) : Written lib buf p ((t, e) :: rest)

/-- A call at `start` returns a node or NULL, and hands back `next`. -/
def Gives (lib : DoubleLib D) (buf : Bytes) (start : Nat) (t : Tree D) (next : Nat) : Prop :=
  ∀ heap : Heap D, ∃ r, Finishes (nodeParseSeq lib · heap 0 buf start) (.ok r) ∧
    Represents r.heap none r.root t ∧ r.next = next

/-- The calls, each at the offset of the one before, return the structures in order, pass over nothing but
blanks behind each, and the one after the last reads on to the end of the buffer and returns NULL. -/
def SplitsInto (lib : DoubleLib D) (buf : Bytes) : Nat → List (Tree D × Nat) → Prop
  | start, [] => Gives lib buf start .nil (buf.length + 1)
  | start, (t, e) :: rest => ∃ next, Gives lib buf start t next ∧ Blank buf e next ∧ SplitsInto lib buf next rest

/-! ## Blanks before a structure -/

theorem Blank.refl {p : Nat} (hp : p ≤ buf.length) : Blank buf p p :=
  ⟨Nat.le_refl p, hp, by simp⟩

theorem Blank.split {p q : Nat} (h : Blank buf p q) :
    ∃ blanks, (∀ c ∈ blanks, isSpace c = true) ∧ blanks.length = q - p ∧ buf.drop p = blanks ++ buf.drop q := by
  obtain ⟨hpq, hq, hBlanks⟩ := h
  refine ⟨(buf.drop p).take (q - p), hBlanks, ?_, ?_⟩
  · rw [List.length_take, List.length_drop]
    omega
  · have hDrop : buf.drop q = (buf.drop p).drop (q - p) := by
      rw [List.drop_drop]
      congr 1
      omega
    rw [hDrop, List.take_append_drop]

theorem Blank.suffix {p q r : Nat} (h : Blank buf p r) (hpq : p ≤ q) (hqr : q ≤ r) : Blank buf q r := by
  obtain ⟨-, hr, hBlanks⟩ := h
  refine ⟨hqr, hr, fun c hc => hBlanks c ?_⟩
  have hSame : (buf.drop q).take (r - q) = ((buf.drop p).take (r - p)).drop (q - p) := by
    rw [List.drop_take, List.drop_drop, Nat.add_sub_cancel' hpq, Nat.sub_sub, Nat.add_sub_cancel' hpq]
  rw [hSame] at hc
  exact List.mem_of_mem_drop hc

theorem Blank.of_split {p q : Nat} (hpq : p ≤ q) (hq : q ≤ buf.length) (blanks : Bytes)
    (hBlanks : ∀ c ∈ blanks, isSpace c = true) (hLength : blanks.length = q - p)
    (hDrop : buf.drop p = blanks ++ buf.drop q) : Blank buf p q := by
  refine ⟨hpq, hq, ?_⟩
  rw [hDrop, ← hLength, List.take_left]
  exact hBlanks

theorem step_blank {p q : Nat} (h : Blank buf p q) (d : Doc D) : step lib buf p d = step lib buf q d := by
  obtain ⟨blanks, hBlanks, hLength, hDrop⟩ := h.split
  have hpq := h.1
  have hLex : lex lib (buf.drop p) = (lex lib (buf.drop q)).shift (q - p) := by
    rw [hDrop, lex_blanks lib hBlanks, hLength]
  have hAdd : ∀ n, p + (q - p + n) = q + n := by
    intro n
    omega
  simp only [step, hLex]
  cases lex lib (buf.drop q) with
  | done | bad => rfl
  | token t len stop => simp only [Lexed.shift, hAdd]
  | blobHead n len => simp only [Lexed.shift, hAdd]

/-- Reading does not depend on the blanks it starts with. -/
theorem readsTo_blank {p q : Nat} (h : Blank buf p q) {d : Doc D} {x : Ending D} :
    ReadsTo lib buf p d x ↔ ReadsTo lib buf q d x := by
  constructor
  · rintro ⟨ts, r, hReads, hStop⟩
    cases hReads with
    | nil => exact ⟨[], q, .nil q [], (step_blank h []).symm.trans hStop⟩
    | cons head tail => exact ⟨_, r, .cons ((step_blank h []).symm.trans head) tail, hStop⟩
  · rintro ⟨ts, r, hReads, hStop⟩
    cases hReads with
    | nil => exact ⟨[], p, .nil p [], (step_blank h []).trans hStop⟩
    | cons head tail => exact ⟨_, r, .cons ((step_blank h []).trans head) tail, hStop⟩

theorem step_end (d : Doc D) : step lib buf buf.length d = .stop .ended := by
  simp only [step, List.drop_length]
  rfl

theorem readsTo_ended {p : Nat} (h : Blank buf p buf.length) : ReadsTo lib buf p [] .ended :=
  (readsTo_blank h).mpr ⟨[], _, .nil _ [], step_end []⟩

theorem Blank.cons {p q : Nat} {c : UInt8} (hc : buf[p]? = some c) (hSpace : isSpace c = true)
    (h : Blank buf (p + 1) q) : Blank buf p q := by
  obtain ⟨blanks, hBlanks, hLength, hDrop⟩ := h.split
  obtain ⟨hpq, hq, -⟩ := h
  obtain ⟨hp, rfl⟩ := List.getElem?_eq_some_iff.mp hc
  refine Blank.of_split (by omega) hq (buf[p] :: blanks) ?_ ?_ ?_
  · intro b hb
    rcases List.mem_cons.mp hb with rfl | hb
    · exact hSpace
    · exact hBlanks b hb
  · rw [List.length_cons]
    omega
  · rw [List.drop_eq_getElem_cons hp, hDrop, List.cons_append]

theorem Blank.head {p q : Nat} (h : Blank buf p q) (hpq : p < q) :
    ∃ c, buf[p]? = some c ∧ isSpace c = true := by
  obtain ⟨-, hq, hBlanks⟩ := h
  have hp : p < buf.length := by omega
  refine ⟨buf[p], List.getElem?_eq_getElem hp, hBlanks _ ?_⟩
  obtain ⟨n, hn⟩ := Nat.exists_eq_add_of_lt hpq
  rw [List.drop_eq_getElem_cons hp, hn, show p + n + 1 - p = n + 1 by omega, List.take_succ_cons]
  exact List.mem_cons_self

/-- Newlines are passed over. -/
theorem blank_nextDocument {stop : Nat} (h : stop < buf.length) :
    Blank buf (stop + 1) (nextDocument buf stop) := by
  obtain ⟨run, tail, hRest, hTake, hDrop, hAll, -⟩ :=
    exists_run (fun c : UInt8 => decide (c = 10)) (buf.drop (stop + 1))
  have hNext : nextDocument buf stop = stop + 1 + run.length := by
    simp only [nextDocument, skipNewlines, hTake]
  refine Blank.of_split (by omega) (nextDocument_le h) run ?_ (by omega) ?_
  · intro c hc
    obtain rfl : c = 10 := by simpa using hAll c hc
    rfl
  · have hTail : buf.drop (stop + 1 + run.length) = tail := by rw [← hDrop, List.drop_drop]
    rw [hNext, hTail]
    exact hRest

/-! ## What a structure begins with -/

theorem lexEnd_token {t u : Token D} {len len' stop : Nat} {rest : Bytes}
    (h : lexEnd t len rest = .token u len' stop) : u = t := by
  cases rest with
  | nil => cases h
  | cons c rest =>
    simp only [lexEnd] at h
    split at h <;> cases h
    rfl

theorem lexMissing_token {u : Token D} {len stop : Nat} {rest : Bytes} : lexMissing rest ≠ .token u len stop := by
  intro h
  cases rest <;> cases h

theorem lexFraction_token {u : Token D} {text frac : Bytes} {n len stop : Nat}
    (h : lexFraction lib text n frac = .token u len stop) : ∃ x, u = .float x := by
  simp only [lexFraction] at h
  split at h
  · exact absurd h lexMissing_token
  · exact ⟨_, lexEnd_token h⟩

theorem lex_start {c : UInt8} {rest : Bytes} {len stop : Nat}
    (h : lex lib (c :: rest) = .token .start len stop) : isSpace c = true ∨ c = 91 := by
  have hFloat : ∀ {text frac n}, lexFraction lib text n frac ≠ .token .start len stop := by
    intro text frac n h
    obtain ⟨x, hx⟩ := lexFraction_token h
    cases hx
  rw [lex] at h
  split at h
  · rename_i hSpace
    exact .inl hSpace
  split at h
  · simp only [lexString] at h
    split at h <;> cases h
  split at h
  · simp only [lexBlob] at h
    split at h
    · exact absurd h lexMissing_token
    split at h
    · cases h
    · exact absurd h lexMissing_token
  split at h
  · simp only [lexSigned] at h
    split at h
    · exact absurd h lexMissing_token
    split at h
    · exact absurd h hFloat
    · exact absurd h lexMissing_token
  split at h
  · simp only [lexAttrib] at h
    split at h
    · cases h
    split at h
    · cases lexEnd_token h
    · cases h
  split at h
  · rename_i hStart
    exact .inr hStart
  split at h
  · cases h
  split at h
  · simp only [lexNumber] at h
    split at h
    · exact absurd h hFloat
    · cases lexEnd_token h
  split at h
  · cases lexEnd_token h
  · cases h

/-- Only a `[` can be read while no group is open. -/
theorem applyToken_nil {t : Token D} {e : Doc D} (h : applyToken t [] = .next e) : t = .start := by
  cases t with
  | start => rfl
  | number n => cases n <;> cases h
  | float x => cases x <;> cases h
  | string | blob | word | group | attrib => cases h

theorem step_go_nil {p q : Nat} {t : Token D} {e : Doc D} (h : step lib buf p [] = .go t q e) :
    ∃ c, buf[p]? = some c ∧ (isSpace c = true ∨ c = 91) := by
  obtain rfl := applyToken_nil (step_go lib buf h).2
  have hToken : ∃ len stop, lex lib (buf.drop p) = .token .start len stop := by
    simp only [step] at h
    cases hLex : lex lib (buf.drop p) with
    | done | bad => rw [hLex] at h; cases h
    | token t len stop =>
      rw [hLex] at h
      dsimp only [stepToken] at h
      cases hApply : applyToken t [] <;> rw [hApply] at h <;> cases h
      exact ⟨len, stop, rfl⟩
    | blobHead n len =>
      rw [hLex] at h
      simp only [stepBlob] at h
      split at h
      · cases h
      split at h
      · cases h
      split at h <;> cases h
  obtain ⟨len, stop, hLex⟩ := hToken
  cases hDrop : buf.drop p with
  | nil => rw [hDrop] at hLex; cases hLex
  | cons c rest =>
    rw [hDrop] at hLex
    refine ⟨c, ?_, lex_start hLex⟩
    have hHead := congrArg List.head? hDrop
    rwa [List.head?_drop, List.head?_cons] at hHead

theorem ReadsTo.head {p stop : Nat} {d : Doc D} {t : Tree D} (h : ReadsTo lib buf p d (.closed t stop)) :
    ∃ c, buf[p]? = some c ∧ (isSpace c = true ∨ c = 91) := by
  obtain ⟨ts, r, hReads, hStop⟩ := h
  cases hReads with
  | nil =>
    obtain ⟨name, kids, -, hd, -⟩ := ReadsTo.closed_tree ⟨[], p, .nil p [], hStop⟩
    cases hd
  | cons head tail => exact step_go_nil head

/-! ## Splitting a sequence -/

section Splits
variable (hLen : buf.length < 2 ^ 31) (hEnds : endsInSpace buf = true)
include hLen hEnds

theorem gives_closed {start stop : Nat} (hStart : start ≤ buf.length) {d : Doc D} {t : Tree D}
    (h : ReadsTo lib buf start d (.closed t stop)) : Gives lib buf start t (nextDocument buf stop) := by
  intro heap
  obtain ⟨r, hEnding, hr⟩ := h.finishes hLen hEnds heap hStart
  obtain ⟨root, heap', rfl, -, hTree⟩ := hEnding
  exact ⟨_, hr, hTree, rfl⟩

theorem gives_ended {start : Nat} (h : Blank buf start buf.length) :
    Gives lib buf start (.nil : Tree D) (buf.length + 1) := by
  intro heap
  obtain ⟨r, hEnding, hr⟩ := (readsTo_ended h).finishes hLen hEnds heap h.1
  obtain ⟨root, heap', rfl, -, hTree⟩ := hEnding
  exact ⟨_, hr, hTree, rfl⟩

omit hLen hEnds in
theorem Gives.next_unique {start n n' : Nat} {t t' : Tree D} (h : Gives lib buf start t n)
    (h' : Gives lib buf start t' n') : n = n' := by
  obtain ⟨r, hr, -, rfl⟩ := h []
  obtain ⟨r', hr', -, rfl⟩ := h' []
  have hSame := hr.unique (nodeParseSeq_stable lib [] 0 buf start) hr'
  cases hSame
  rfl

omit hLen hEnds in
/-- Behind a structure comes a blank, the `[` of the next one, or nothing. -/
theorem Written.head {p : Nat} {docs : List (Tree D × Nat)} (h : Written lib buf p docs) (hp : p < buf.length) :
    ∃ c, buf[p]? = some c ∧ (isSpace c = true ∨ c = 91) := by
  cases h with
  | nil hBlank =>
    obtain ⟨c, hc, hSpace⟩ := hBlank.head hp
    exact ⟨c, hc, .inl hSpace⟩
  | cons hHead hRest =>
    obtain ⟨d, stop, hRead, -⟩ := hHead
    exact hRead.head

omit hLen hEnds in
theorem closer_cases (t : Tree D) : closer t = 0 ∨ closer t = 1 := by
  cases t with
  | nil => exact .inl rfl
  | node d c s =>
    obtain ⟨name, value⟩ := d
    cases name with
    | none => exact .inr rfl
    | some name => exact .inl rfl

theorem splitsInto_iff_of_blank {p start : Nat} {docs : List (Tree D × Nat)} (hWritten : Written lib buf p docs)
    (hBlank : Blank buf p start) :
    SplitsInto lib buf start docs ↔ ∀ x ∈ docs, closer x.1 = 0 → buf[x.2]? ≠ some 91 := by
  induction hWritten generalizing start with
  | @nil p hEnd =>
    simp only [SplitsInto, List.not_mem_nil, false_implies, implies_true, iff_true]
    exact gives_ended hLen hEnds (hEnd.suffix hBlank.1 hBlank.2.1)
  | @cons p e t rest hHead hRest ih =>
    obtain ⟨d, stop, hRead, rfl⟩ := hHead
    have hStop : stop < buf.length := hRead.stop_lt (.inr ⟨t, rfl⟩)
    have hGives := gives_closed hLen hEnds hBlank.2.1 ((readsTo_blank hBlank).mp hRead)
    have hSkip := blank_nextDocument hStop
    simp only [SplitsInto, List.forall_mem_cons]
    constructor
    · rintro ⟨next, hGives', hBlank', hSplits⟩
      obtain rfl := hGives.next_unique hGives'
      refine ⟨?_, (ih hBlank').mp hSplits⟩
      intro hWord hOpen
      rw [hWord] at hBlank' hOpen
      obtain ⟨c, hc, hSpace⟩ := hBlank'.head hSkip.1
      rw [Nat.add_zero] at hc hOpen
      rw [hc] at hOpen
      cases hOpen
      cases hSpace
    · rintro ⟨hWord, hOthers⟩
      have hBlank' : Blank buf (stop + closer t) (nextDocument buf stop) := by
        rcases closer_cases t with hc | hc
        · rw [hc] at hWord hRest ⊢
          obtain ⟨c, hc, hByte⟩ := hRest.head hStop
          refine Blank.cons hc (hByte.resolve_right ?_) hSkip
          rintro rfl
          exact hWord rfl hc
        · rw [hc]
          exact hSkip
      exact ⟨_, hGives, hBlank', (ih hBlank').mpr hOthers⟩

/-- A buffer that holds a sequence of structures is split into them exactly when no word that closes one of
them touches the `[` of the next. -/
theorem splitsInto_iff {docs : List (Tree D × Nat)} (hWritten : Written lib buf 0 docs) :
    SplitsInto lib buf 0 docs ↔ ∀ x ∈ docs, closer x.1 = 0 → buf[x.2]? ≠ some 91 :=
  splitsInto_iff_of_blank hLen hEnds hWritten (Blank.refl (Nat.zero_le _))

end Splits

def namedGroup (name : Bytes) : Tree Unit := .node ⟨some name, .group⟩ .nil .nil

/-- `[a` and `[ b`, on two lines. -/
theorem splitsInto_twoLines : SplitsInto noDoubles [91, 97, 10, 91, 32, 98, 10] 0
    [(namedGroup [97], 2), (namedGroup [98], 6)] := by
  have hFirst : StructureAt noDoubles [91, 97, 10, 91, 32, 98, 10] 0 (namedGroup [97]) 2 :=
    ⟨[.nil], 2, ⟨[.start], 1, .cons rfl (.nil 1 _), rfl⟩, rfl⟩
  have hSecond : StructureAt noDoubles [91, 97, 10, 91, 32, 98, 10] 2 (namedGroup [98]) 6 :=
    ⟨[.nil], 6, ⟨[.start], 4, .cons rfl (.nil 4 _), rfl⟩, rfl⟩
  have hEnd : Blank [91, 97, 10, 91, 32, 98, 10] 6 7 := by decide +kernel
  refine (splitsInto_iff (by decide) (by decide) (.cons hFirst (.cons hSecond (.nil hEnd)))).mpr ?_
  decide

/-- `[ a[ b `: the `[` behind the word is lost, and the second call returns NULL. -/
theorem not_splitsInto_adjacent :
    Written noDoubles [91, 32, 97, 91, 32, 98, 32] 0 [(namedGroup [97], 3), (namedGroup [98], 6)] ∧
      Gives noDoubles [91, 32, 97, 91, 32, 98, 32] 0 (namedGroup [97]) 4 ∧
      Gives noDoubles [91, 32, 97, 91, 32, 98, 32] 4 (.nil : Tree Unit) 7 ∧
      ¬SplitsInto noDoubles [91, 32, 97, 91, 32, 98, 32] 0 [(namedGroup [97], 3), (namedGroup [98], 6)] := by
  have hFirst : ReadsTo noDoubles [91, 32, 97, 91, 32, 98, 32] 0 [.nil] (.closed (namedGroup [97]) 3) :=
    ⟨[.start], 1, .cons rfl (.nil 1 _), rfl⟩
  have hSecond : ReadsTo noDoubles [91, 32, 97, 91, 32, 98, 32] 3 [.nil] (.closed (namedGroup [98]) 6) :=
    ⟨[.start], 4, .cons rfl (.nil 4 _), rfl⟩
  have hWord : ReadsTo noDoubles [91, 32, 97, 91, 32, 98, 32] 4 [] (.refused 6) := ⟨[], 4, .nil 4 [], rfl⟩
  have hEnd : Blank [91, 32, 97, 91, 32, 98, 32] 6 7 := by decide +kernel
  refine ⟨.cons ⟨_, _, hFirst, rfl⟩ (.cons ⟨_, _, hSecond, rfl⟩ (.nil hEnd)), ?_, ?_, ?_⟩
  · exact gives_closed (by decide) (by decide) (by decide) hFirst
  · intro heap
    obtain ⟨r, hEnding, hr⟩ := hWord.finishes (by decide) (by decide) heap (by decide)
    obtain ⟨root, heap', rfl, -, hTree⟩ := hEnding
    exact ⟨_, hr, hTree, rfl⟩
  · rintro ⟨next, hGives, hBlank, -⟩
    obtain rfl := hGives.next_unique (gives_closed (by decide) (by decide) (by decide) hFirst)
    revert hBlank
    decide

end Utu.Stackish
