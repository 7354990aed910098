import Utu.Ruby.Reading

/-!
# What the Ruby stacks spell

An element stands for the tokens that the emitter writes for it, and the two
stacks of the parser for the tokens of all elements with a bracket at every
mark. A token puts itself at the end of that list. An attribute right behind a
bracket is the exception: it names the element before the bracket, so it is
spelled too early, and nothing that follows can make up for it.
-/

namespace Utu.Ruby
open Stackish
set_option autoImplicit false

variable {D : Type} {floats : Floats D}

/-! ## What the stacks spell -/

mutual

/-- The tokens of an element, as the emitter writes them. Text that no other token stands for is
spelled as a word. -/
def spell (floats : Floats D) : Element D → Bool → Except Failure (List (Token D))
  | .hash name value, _ => do
    let ts ← spell floats value (name.head? != some 64)
    return ts ++ [if name.head? = some 64 then .attrib name else .word name]
  | .array elements, named => do
    let ts ← spellAll floats elements
    return .start :: ts ++ (if named then [] else [.group])
  | .string s true, _ => return [.blob (some s)]
  | .string s false, _ => return [.string s]
  | .integer n, _ =>
    return [if n < 2 ^ 64 then .number (some (UInt64.ofNat n)) else .word (Decimal.print n)]
  | .float x, _ => return [.word (floats.toS x)]
  | .nil, _ => throw .unknownType

def spellAll (floats : Floats D) : List (Element D) → Except Failure (List (Token D))
  | [] => return []
  | x :: xs => do
    let ts ← spell floats x false
    let us ← spellAll floats xs
    return ts ++ us

end

section Spell

mutual

theorem convert_eq_spell (x : Element D) (named : Bool) :
    convert floats x named = List.map tokenText <$> spell floats x named := by
  cases x with
  | hash name value =>
    simp only [convert, spell, convert_eq_spell value, map_eq_pure_bind, bind_assoc, pure_bind,
      List.map_append, List.map_cons, List.map_nil]
    split <;> rfl
  | array elements =>
    simp only [convert, spell, convertAll_eq_spellAll elements, map_eq_pure_bind, bind_assoc, pure_bind,
      List.map_append, List.map_cons]
    split <;> rfl
  | string s isBlob =>
    cases isBlob with
    | true => rfl
    | false => rfl
  | integer n =>
    simp only [convert, spell]
    split
    · rename_i hn
      change _ = Except.ok [Decimal.print (UInt64.ofNat n).toNat]
      rw [UInt64.toNat_ofNat_of_lt' hn]
    · rfl
  | float x => rfl
  | nil => rfl

theorem convertAll_eq_spellAll (xs : List (Element D)) :
    convertAll floats xs = List.map tokenText <$> spellAll floats xs := by
  cases xs with
  | nil => rfl
  | cons x xs =>
    simp only [convertAll, spellAll, convert_eq_spell x, convertAll_eq_spellAll xs, map_eq_pure_bind,
      bind_assoc, pure_bind, List.map_append]

end

theorem spellAll_append (xs ys : List (Element D)) :
    spellAll floats (xs ++ ys) = do
      let ts ← spellAll floats xs
      let us ← spellAll floats ys
      return ts ++ us := by
  induction xs with
  | nil => simp [spellAll]
  | cons x xs ih =>
    simp only [List.cons_append, spellAll, ih, bind_assoc, pure_bind, List.append_assoc]

end Spell

/-- The elements with a bracket at every mark. -/
def spellMarked (floats : Floats D) : List Nat → List (Element D) → Except Failure (List (Token D))
  | [], elements => spellAll floats elements
  | mark :: marks, elements => do
    let outer ← spellMarked floats marks (elements.take mark)
    let inner ← spellAll floats (elements.drop mark)
    return outer ++ .start :: inner

def Stacks.spelled (floats : Floats D) (s : Stacks D) : Except Failure (List (Token D)) :=
  spellMarked floats s.markStack s.parseStack

/-- The marks descend and lie inside the parse stack. -/
structure Stacks.Marked (s : Stacks D) : Prop where
  sorted : s.markStack.Pairwise (· ≥ ·)
  bounded : ∀ mark ∈ s.markStack, mark ≤ s.parseStack.length

section Marked
variable {s s' : Stacks D} {t : Token D}

theorem spellMarked_push {marks : List Nat} {elements : List (Element D)}
    (hMarks : ∀ mark, marks.head? = some mark → mark ≤ elements.length) (x : Element D) :
    spellMarked floats marks (elements ++ [x]) = do
      let ts ← spellMarked floats marks elements
      let us ← spell floats x false
      return ts ++ us := by
  have hOne : spellAll floats [x] = spell floats x false := by
    simp [spellAll]
  cases marks with
  | nil => simp only [spellMarked, spellAll_append, hOne]
  | cons mark marks =>
    have hMark := hMarks mark rfl
    simp only [spellMarked, List.take_append_of_le_length hMark, List.drop_append_of_le_length hMark,
      spellAll_append, hOne, bind_assoc, pure_bind, List.append_assoc, List.cons_append]

theorem spellMarked_mark (floats : Floats D) (marks : List Nat) (elements : List (Element D)) :
    spellMarked floats (elements.length :: marks) elements =
      (· ++ [.start]) <$> spellMarked floats marks elements := by
  simp [spellMarked, spellAll]

/-- A collapsed group is spelled as its marked part and what closes it. -/
theorem spellMarked_close {mark : Nat} {marks : List Nat} {elements : List (Element D)}
    (hMark : mark ≤ elements.length) (hMarks : ∀ m, marks.head? = some m → m ≤ mark) {x : Element D}
    (closer : Token D) (hClose : spell floats x false = do
      let ts ← spellAll floats (elements.drop mark)
      return .start :: ts ++ [closer]) :
    spellMarked floats marks (elements.take mark ++ [x]) =
      (· ++ [closer]) <$> spellMarked floats (mark :: marks) elements := by
  have hLength : (elements.take mark).length = mark := List.length_take_of_le hMark
  rw [spellMarked_push (by rwa [hLength]), hClose]
  simp only [spellMarked, map_eq_pure_bind, bind_assoc, pure_bind, List.append_assoc, List.cons_append]

/-- Naming the last element of the open group puts the name behind it. -/
theorem spellMarked_name {a : Bytes} (ha : a.head? = some 64) (x : Element D)
    {elements : List (Element D)} {marks : List Nat}
    (hMarks : ∀ mark, marks.head? = some mark → mark ≤ elements.length) :
    spellMarked floats marks (elements ++ [.hash a x]) =
      (· ++ [.attrib a]) <$> spellMarked floats marks (elements ++ [x]) := by
  have hName : spell floats (.hash a x) false = (· ++ [.attrib a]) <$> spell floats x false := by
    simp [spell, ha]
  rw [spellMarked_push hMarks, spellMarked_push hMarks, hName]
  simp only [map_eq_pure_bind, bind_assoc, pure_bind, List.append_assoc]

/-- When groups were opened since the last element, its name goes before their brackets. -/
theorem spellMarked_attrib (floats : Floats D) {a : Bytes} (ha : a.head? = some 64) (x : Element D)
    (elements : List (Element D)) (marks : List Nat)
    (hMarks : ∀ mark ∈ marks, mark ≤ elements.length + 1) :
    ∃ (outer : Except Failure (List (Token D))) (k : Nat),
      (k = 0 ↔ marks.head? ≠ some (elements.length + 1)) ∧
      spellMarked floats marks (elements ++ [x]) = (· ++ List.replicate k .start) <$> outer ∧
      spellMarked floats marks (elements ++ [.hash a x]) =
        (· ++ .attrib a :: List.replicate k .start) <$> outer := by
  induction marks with
  | nil =>
    refine ⟨spellMarked floats [] (elements ++ [x]), 0, by simp, by simp, ?_⟩
    exact spellMarked_name ha x (by simp)
  | cons mark marks ih =>
    by_cases hLast : mark = elements.length + 1
    · obtain ⟨outer, k, -, hBefore, hAfter⟩ := ih fun m hm => hMarks m (List.mem_cons_of_mem mark hm)
      have hOpen : ∀ y : Element D, spellMarked floats (mark :: marks) (elements ++ [y]) =
          (· ++ [.start]) <$> spellMarked floats marks (elements ++ [y]) := by
        intro y
        have hMark := spellMarked_mark floats marks (elements ++ [y])
        rwa [List.length_append, List.length_singleton, ← hLast] at hMark
      refine ⟨outer, k + 1, by simp [hLast], ?_, ?_⟩
      · rw [hOpen, hBefore, Functor.map_map]
        simp only [List.append_assoc, List.replicate_succ']
      · rw [hOpen, hAfter, Functor.map_map]
        simp only [List.append_assoc, List.replicate_succ', List.cons_append]
    · have hMark := hMarks mark List.mem_cons_self
      refine ⟨spellMarked floats (mark :: marks) (elements ++ [x]), 0, by simp [hLast], by simp, ?_⟩
      refine spellMarked_name ha x fun m hm => ?_
      cases hm
      omega

/-- A group was opened by the last token. -/
def Stacks.opened (s : Stacks D) : Prop := s.markStack.head? = some s.parseStack.length

theorem Stacks.Marked.head (h : s.Marked) : ∀ mark, s.markStack.head? = some mark →
    mark ≤ s.parseStack.length :=
  fun mark hMark => h.bounded mark (List.mem_of_mem_head? hMark)

/-- A leaf goes on top. -/
theorem Stacks.Marked.push (h : s.Marked) (x : Element D) (hx : spell floats x false = .ok [t]) :
    (s.push x).spelled floats = (· ++ [t]) <$> s.spelled floats ∧ (s.push x).Marked ∧
      ¬ (s.push x).opened := by
  refine ⟨?_, ⟨h.sorted, fun mark hMark => ?_⟩, fun hOpen => ?_⟩
  · refine (spellMarked_push h.head x).trans ?_
    rw [hx]
    simp only [map_eq_pure_bind]
    rfl
  · have hBound := h.bounded mark hMark
    simp only [Stacks.push, List.length_append, List.length_singleton]
    omega
  · have hBound := h.head _ hOpen
    simp only [Stacks.push, List.length_append, List.length_singleton] at hBound
    omega

/-- A closed group is one element more below its mark. -/
theorem Stacks.Marked.close (floats : Floats D) (h : s.Marked) {x : Element D} {s₁ : Stacks D}
    (hCollapse : s.collapse = some (x, s₁)) {y : Element D} (hClose : ∀ elements,
      x = .array elements → spell floats y false = do
        let ts ← spellAll floats elements
        return .start :: ts ++ [t]) :
    (s₁.push y).spelled floats = (· ++ [t]) <$> s.spelled floats ∧ (s₁.push y).Marked ∧
      ¬ (s₁.push y).opened := by
  obtain ⟨elements, marks⟩ := s
  cases marks with
  | nil => cases hCollapse
  | cons mark marks =>
    have hMark : mark ≤ elements.length := h.bounded mark List.mem_cons_self
    have hBelow : ∀ m ∈ marks, m ≤ mark := (List.pairwise_cons.mp h.sorted).1
    have hLength : (elements.take mark).length = mark := List.length_take_of_le hMark
    simp only [Stacks.collapse, if_pos hMark, Option.some.injEq, Prod.mk.injEq] at hCollapse
    obtain ⟨rfl, rfl⟩ := hCollapse
    have hHead : ∀ m, marks.head? = some m → m ≤ mark := fun m hm => hBelow m (List.mem_of_mem_head? hm)
    refine ⟨spellMarked_close hMark hHead t (hClose _ rfl),
      ⟨(List.pairwise_cons.mp h.sorted).2, fun m hm => ?_⟩, fun hOpen => ?_⟩
    · have hLe := hBelow m hm
      simp only [Stacks.push, List.length_append, List.length_singleton, hLength]
      omega
    · have hLe := hHead _ hOpen
      simp only [Stacks.push, List.length_append, List.length_singleton, hLength] at hLe
      omega

def isAttrib : Token D → Bool
  | .attrib _ => true
  | _ => false

/-- A token that is no attribute is spelled behind what was there. -/
theorem Stacks.Marked.apply (floats : Floats D) (h : s.Marked) (ht : Printable t) (hKind : isAttrib t = false)
    (hApply : s.apply t = some s') :
    s'.spelled floats = (· ++ [t]) <$> s.spelled floats ∧ s'.Marked ∧ (s'.opened ↔ t = .start) := by
  have hLeaf : ∀ x : Element D, spell floats x false = .ok [t] → t ≠ .start →
      (s.push x).spelled floats = (· ++ [t]) <$> s.spelled floats ∧ (s.push x).Marked ∧
        ((s.push x).opened ↔ t = .start) := by
    intro x hx hNe
    obtain ⟨hSpelled, hMarked, hOpen⟩ := h.push x hx
    exact ⟨hSpelled, hMarked, iff_of_false hOpen hNe⟩
  cases t with
  | float x => exact ht.elim
  | attrib a => cases hKind
  | number n =>
    obtain ⟨n, rfl⟩ := Option.ne_none_iff_exists'.mp ht
    cases hApply
    refine hLeaf _ ?_ (by simp)
    simp only [spell, Option.getD_some, if_pos n.toNat_lt, UInt64.ofNat_toNat]
    rfl
  | string b =>
    cases hApply
    exact hLeaf _ rfl (by simp)
  | blob b =>
    obtain ⟨b, rfl⟩ := Option.ne_none_iff_exists'.mp ht
    cases hApply
    exact hLeaf _ rfl (by simp)
  | start =>
    cases hApply
    refine ⟨spellMarked_mark floats s.markStack s.parseStack, ⟨?_, ?_⟩, iff_of_true rfl rfl⟩
    · exact List.pairwise_cons.mpr ⟨h.bounded, h.sorted⟩
    · intro mark hMark
      rcases List.mem_cons.mp hMark with rfl | hMark
      · exact Nat.le_refl _
      · exact h.bounded mark hMark
  | group =>
    obtain ⟨⟨x, s₁⟩, hCollapse, rfl⟩ := Option.map_eq_some_iff.mp hApply
    obtain ⟨hSpelled, hMarked, hOpen⟩ := h.close floats (t := .group) (y := x) hCollapse (by
      rintro elements rfl
      rfl)
    exact ⟨hSpelled, hMarked, iff_of_false hOpen (by simp)⟩
  | word w =>
    obtain ⟨⟨x, s₁⟩, hCollapse, rfl⟩ := Option.map_eq_some_iff.mp hApply
    have hHead : w.head? ≠ some 64 := by
      obtain ⟨c, tail, rfl, hc, -⟩ := isWord_cons ht
      rintro hHead
      cases hHead
      exact absurd hc (by decide)
    obtain ⟨hSpelled, hMarked, hOpen⟩ := h.close floats (t := .word w) (y := .hash w x)
      hCollapse (by
        rintro elements rfl
        have hNamed : (w.head? != some 64) = true := by simpa using hHead
        simp only [spell, hNamed, if_neg hHead, if_true, bind_assoc, pure_bind, List.append_nil])
    exact ⟨hSpelled, hMarked, iff_of_false hOpen (by simp)⟩

end Marked

/-! ## Names that go astray -/

section Weight

def isStart : Token D → Bool
  | .start => true
  | _ => false

/-- For every attribute, the brackets opened before it. -/
def weight (opens : Nat) : List (Token D) → Nat
  | [] => 0
  | .start :: ts => weight (opens + 1) ts
  | .attrib _ :: ts => opens + weight opens ts
  | _ :: ts => weight opens ts

theorem weight_append (opens : Nat) (ts us : List (Token D)) :
    weight opens (ts ++ us) = weight opens ts + weight (opens + ts.countP isStart) us := by
  induction ts generalizing opens with
  | nil => simp [weight]
  | cons t ts ih =>
    cases t <;> simp [weight, ih, isStart, List.countP_cons, Nat.add_assoc, Nat.add_comm 1]

theorem weight_replicate (opens k : Nat) :
    weight opens (List.replicate k (.start : Token D)) = 0 := by
  induction k generalizing opens with
  | zero => rfl
  | succ k ih => rw [List.replicate_succ, weight, ih]

theorem countP_replicate_start (k : Nat) : (List.replicate k (.start : Token D)).countP isStart = k := by
  simp [List.countP_replicate, isStart]

/-- A name put before `k` brackets instead of behind them adds `k` less. -/
theorem weight_before {ts read : List (Token D)} {k : Nat} (a : Bytes)
    (hCount : (ts ++ List.replicate k Token.start).countP isStart = read.countP isStart) :
    weight 0 (ts ++ .attrib a :: List.replicate k .start) + k + weight 0 read =
      weight 0 (ts ++ List.replicate k .start) + weight 0 (read ++ [.attrib a]) := by
  rw [List.countP_append, countP_replicate_start] at hCount
  simp only [weight_append, weight, weight_replicate]
  omega

/-- The tokens that were read are spelled, and no name stands behind more brackets than where
it was read. -/
def Kept (floats : Floats D) (read : List (Token D)) (s : Stacks D) : Prop :=
  ∀ ts, s.spelled floats = .ok ts → ts.countP isStart = read.countP isStart ∧
    (∀ t ∈ ts, t ∈ read) ∧ weight 0 ts ≤ weight 0 read

/-- Some name stands before a bracket behind which it was read. -/
def Astray (floats : Floats D) (read : List (Token D)) (s : Stacks D) : Prop :=
  ∀ ts, s.spelled floats = .ok ts → weight 0 ts < weight 0 read

variable {s s' : Stacks D} {t : Token D} {read : List (Token D)}

/-- A token spelled at the end keeps both. -/
theorem kept_append (h : s'.spelled floats = (· ++ [t]) <$> s.spelled floats)
    (hKept : Kept floats read s) :
    Kept floats (read ++ [t]) s' ∧ (Astray floats read s → Astray floats (read ++ [t]) s') := by
  constructor
  · intro ts hts
    rw [h] at hts
    obtain ⟨us, hus, rfl⟩ := Outcome.map_eq_ok_iff.mp hts
    obtain ⟨hCount, hMem, hWeight⟩ := hKept us hus
    refine ⟨by simp [List.countP_append, hCount], fun u hu => ?_, ?_⟩
    · rcases List.mem_append.mp hu with hu | hu
      · exact List.mem_append_left _ (hMem u hu)
      · exact List.mem_append_right _ hu
    · rw [weight_append, weight_append, hCount]
      omega
  · intro hAstray ts hts
    rw [h] at hts
    obtain ⟨us, hus, rfl⟩ := Outcome.map_eq_ok_iff.mp hts
    have hWeight := hAstray us hus
    rw [weight_append, weight_append, (hKept us hus).1]
    omega

/-- An attribute right behind a bracket names an element outside of the group, or none. -/
theorem Stacks.Marked.attrib (h : s.Marked) {a : Bytes} (ha : a.head? = some 64)
    (hApply : s.apply (.attrib a) = some s') (hKept : Kept floats read s) :
    s'.Marked ∧ Kept floats (read ++ [.attrib a]) s' ∧
      (Astray floats read s ∨ s.opened → Astray floats (read ++ [.attrib a]) s') ∧
      (¬ s.opened → s.markStack ≠ [] →
        s'.spelled floats = (· ++ [.attrib a]) <$> s.spelled floats ∧ ¬ s'.opened) := by
  obtain ⟨elements, marks⟩ := s
  obtain rfl := Option.some.inj hApply
  rcases List.eq_nil_or_concat elements with rfl | ⟨init, x, rfl⟩
  · have hNone : ∀ ts, ((Stacks.mk [] marks).pop.2.push
        (.hash a (Stacks.mk [] marks).pop.1)).spelled floats ≠ .ok ts := by
      intro ts hts
      obtain ⟨us, -, hts⟩ := Outcome.bind_eq_ok_iff.mp ((spellMarked_push h.head _).symm.trans hts)
      cases hts
    refine ⟨⟨h.sorted, fun mark hMark => ?_⟩, fun ts hts => absurd hts (hNone ts),
      fun _ ts hts => absurd hts (hNone ts), fun hOpen hMarks => ?_⟩
    · exact Nat.le_succ_of_le (h.bounded mark hMark)
    · obtain ⟨mark, marks, rfl⟩ := List.exists_cons_of_ne_nil hMarks
      have hMark : mark ≤ 0 := h.bounded mark List.mem_cons_self
      obtain rfl := Nat.le_zero.mp hMark
      exact absurd rfl hOpen
  · rw [List.concat_eq_append] at *
    have hNamed : (Stacks.mk (init ++ [x]) marks).pop.2.push (.hash a (Stacks.mk (init ++ [x]) marks).pop.1) =
        ⟨init ++ [.hash a x], marks⟩ := by
      simp [Stacks.pop, Stacks.push]
    have hBounded : ∀ mark ∈ marks, mark ≤ init.length + 1 := by
      intro mark hMark
      have hBound := h.bounded mark hMark
      rwa [List.length_append, List.length_singleton] at hBound
    obtain ⟨outer, k, hk, hBefore, hAfter⟩ := spellMarked_attrib floats ha x init marks hBounded
    have hOpened : (Stacks.mk (init ++ [x]) marks).opened ↔ k ≠ 0 := by
      rw [Ne, hk, not_not, Stacks.opened, List.length_append, List.length_singleton]
    rw [hNamed]
    refine ⟨⟨h.sorted, ?_⟩, ?_, ?_, ?_⟩
    · intro mark hMark
      have hBound := hBounded mark hMark
      simpa using hBound
    · intro ts hts
      obtain ⟨us, rfl, rfl⟩ := Outcome.map_eq_ok_iff.mp (hAfter.symm.trans hts)
      obtain ⟨hCount, hMem, hWeight⟩ := hKept (us ++ List.replicate k Token.start) hBefore
      have hLess := weight_before a hCount
      refine ⟨?_, fun u hu => ?_, by omega⟩
      · rw [List.countP_append, countP_replicate_start] at hCount
        simp [List.countP_append, countP_replicate_start, isStart, ← hCount]
      · simp only [List.mem_append, List.mem_cons] at hMem hu ⊢
        rcases hu with hu | rfl | hu
        · exact .inl (hMem u (.inl hu))
        · exact .inr (.inl rfl)
        · exact .inl (hMem u (.inr hu))
    · intro hAstray ts hts
      obtain ⟨us, rfl, rfl⟩ := Outcome.map_eq_ok_iff.mp (hAfter.symm.trans hts)
      obtain ⟨hCount, -, hWeight⟩ := hKept (us ++ List.replicate k Token.start) hBefore
      have hLess := weight_before a hCount
      rcases hAstray with hAstray | hOpen
      · have hBehind := hAstray (us ++ List.replicate k Token.start) hBefore
        omega
      · have hSome := hOpened.mp hOpen
        omega
    · intro hOpen _
      have hZero : k = 0 := by
        by_contra hSome
        exact hOpen (hOpened.mpr hSome)
      refine ⟨?_, ?_⟩
      · refine spellMarked_name ha x fun mark hMark => ?_
        have hBound := hBounded mark (List.mem_of_mem_head? hMark)
        have hNot := hk.mp hZero
        rw [hMark] at hNot
        have hNe : mark ≠ init.length + 1 := fun h => hNot (congrArg some h)
        omega
      · intro hOpen'
        refine hk.mp hZero ?_
        simpa [Stacks.opened] using hOpen'

/-- One token, whether it is spelled where it was read or not. -/
theorem Stacks.Marked.step (h : s.Marked) (ht : Printable t) (hApply : s.apply t = some s')
    (hKept : Kept floats read s) :
    s'.Marked ∧ Kept floats (read ++ [t]) s' ∧
      (Astray floats read s ∨ s.opened ∧ isAttrib t = true → Astray floats (read ++ [t]) s') ∧
      (s.markStack ≠ [] → ¬ (s.opened ∧ isAttrib t = true) →
        s'.spelled floats = (· ++ [t]) <$> s.spelled floats ∧ (s'.opened ↔ t = .start)) := by
  by_cases hKind : isAttrib t = true
  · cases t with
    | attrib a =>
      have ha : a.head? = some 64 := by
        obtain ⟨w, -, rfl⟩ := ht
        rfl
      obtain ⟨hMarked, hKept', hAstray, hSpelled⟩ := h.attrib ha hApply hKept
      refine ⟨hMarked, hKept', ?_, fun hMarks hNot => ?_⟩
      · rintro (hBefore | ⟨hOpen, -⟩)
        · exact hAstray (.inl hBefore)
        · exact hAstray (.inr hOpen)
      · obtain ⟨hSpelled, hOpen⟩ := hSpelled (fun hOpen => hNot ⟨hOpen, hKind⟩) hMarks
        exact ⟨hSpelled, iff_of_false hOpen (by simp)⟩
    | number | float | string | blob | start | word | group => cases hKind
  · obtain ⟨hSpelled, hMarked, hOpen⟩ := h.apply floats ht (by simpa using hKind) hApply
    obtain ⟨hKept', hAstray⟩ := kept_append hSpelled hKept
    refine ⟨hMarked, hKept', ?_, fun _ _ => ⟨hSpelled, hOpen⟩⟩
    rintro (hBefore | ⟨-, hAttrib⟩)
    · exact hAstray hBefore
    · exact absurd hAttrib hKind

end Weight

end Utu.Ruby
