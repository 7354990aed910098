import Utu.Stackish.Cursor
import Utu.Stackish.Print

/-!
# Formats that do not fit

`Node_decons` writes the node at which a format fails to the log. The text for
it is made by `Node_bstr`, which can stop the process; so a tree that is turned
away has to be printable at that place. Where the place is depends on the tree
alone, not on the addresses of its nodes.
-/

namespace Utu.Stackish
open LinkedForest Outcome
set_option autoImplicit false

variable {D : Type}

namespace Cursor

/-- What `Node_dump` gets when the checks of a character fail. -/
def blamed (k : Cursor D) : Expect → Option (Located (NodeData D))
  | .word _ => k.outer.head?
  | .attr _ => some k.here
  | .group _ => none
  | _ =>
    match k.here with
    | .nil => none
    | .node a child _ => some (.node a child .nil)

/-- What is dumped before a format is given up. -/
def dumped (copy : Bool) : List Expect → Cursor D → Option (Located (NodeData D))
  | [], _ => none
  | c :: rest, k =>
    match k.here with
    | .nil => none
    | .node _ _ _ =>
      match k.reads copy c with
      | none => k.blamed c
      | some _ => dumped copy rest (k.slide c)

/-- No path at the cursor or around it is longer than `n`. -/
def Low (n : Nat) (k : Cursor D) : Prop := k.here.height ≤ n ∧ ∀ p ∈ k.outer, p.height ≤ n

theorem height_stay (f : Located (NodeData D)) : (stay f).height ≤ f.height := by
  cases f with
  | nil => exact Nat.le_refl _
  | node a c s =>
    cases s with
    | nil => exact Nat.le_refl _
    | node b c' s' =>
      simp only [stay, Forest.height]
      omega

theorem Low.up {n : Nat} {k : Cursor D} (hk : k.Low n) : (k.up stay).Low n := by
  obtain ⟨here, outer⟩ := k
  cases outer with
  | nil => exact ⟨Nat.zero_le _, by simp [Cursor.up]⟩
  | cons p outer =>
    exact ⟨Nat.le_trans (height_stay p) (hk.2 p (by simp)), fun q hq => hk.2 q (List.mem_cons_of_mem p hq)⟩

theorem Low.slide {n : Nat} {k : Cursor D} (hk : k.Low n) (c : Expect) : (k.slide c).Low n := by
  cases c with
  | start =>
    obtain ⟨here, outer⟩ := k
    cases here with
    | nil => exact hk
    | node a child sibling =>
      obtain ⟨hHere, hOuter⟩ := hk
      refine ⟨?_, ?_⟩
      · simp only [Forest.height] at hHere
        simp only [Cursor.slide]
        omega
      · rintro p (_ | ⟨_, hp⟩)
        · exact hHere
        · exact hOuter p hp
  | close | word => exact hk.up
  | attr => exact hk
  | number | float | string | blob | group | skip => exact ⟨Nat.le_trans (height_stay _) hk.1, hk.2⟩

end Cursor

/-! ## When the call returns -/

section Returns
variable {lib : DoubleLib D} {h : Heap D}

theorem nodeBstr_stored {par : Option Nat} {f : Located (NodeData D)} (hf : Stored h par f)
    (hLow : f.height ≤ h.length) : nodeBstr lib h f.ptr true = bstrTree lib f.erase := by
  cases f with
  | nil => rfl
  | node a c s =>
    have hCat : nodeCatbstr lib h (h.length + 1) [] (some a.1) 32 true = catTree lib (Forest.node a c s).erase [] :=
      nodeCatbstr_stored hf (Nat.lt_succ_of_le hLow) []
    simp only [Forest.ptr]
    simp only [nodeBstr, hCat]
    rfl

/-- Without its siblings a node is printed like a tree of its own. -/
theorem nodeBstr_alone {par : Option Nat} {a : Nat × NodeData D} {c s : Located (NodeData D)}
    (hf : Stored h par (.node a c s)) (hLow : (Forest.node a c s).height ≤ h.length) :
    nodeBstr lib h (some a.1) false = bstrTree lib (Forest.node a c .nil).erase := by
  obtain ⟨hCell, hc, -⟩ := hf
  simp only [Forest.height] at hLow
  have hKid : ∀ str, (if c.ptr.isSome then nodeCatbstr lib h h.length str c.ptr 32 true else pure str) =
      catTree lib c.erase str := by
    intro str
    cases c with
    | nil => rfl
    | node b c' s' => exact nodeCatbstr_stored hc (by omega) str
  have hCat : nodeCatbstr lib h (h.length + 1) [] (some a.1) 32 false =
      catTree lib (Forest.node a c .nil).erase [] := by
    rw [nodeCatbstr, hCell]
    simp only [Bool.and_false, Bool.false_eq_true, if_false, hKid]
    rfl
  simp only [nodeBstr, hCat]
  rfl

theorem nodeDump_bind_iff {α : Type} {d : Option Nat} {follow : Bool} {out : α} :
    (∃ r, (nodeDump lib h d follow >>= fun _ => pure out : Run α) = .ok r) ↔
      ∃ text, nodeBstr lib h d follow = .ok text := by
  constructor
  · rintro ⟨r, hr⟩
    obtain ⟨u, hDump, -⟩ := bind_eq_ok_iff.mp hr
    obtain ⟨text, hText, -⟩ := bind_eq_ok_iff.mp hDump
    exact ⟨text, hText⟩
  · rintro ⟨text, hText⟩
    refine ⟨out, ?_⟩
    rw [nodeDump, bind_of_ok hText]
    rfl

/-- A check that fails leaves the loop once its node is dumped. -/
theorem deconsChar_blamed (lib : DoubleLib D) {copy : Bool} {a : Nat × NodeData D} {c s : Located (NodeData D)}
    {outer : List (Located (NodeData D))} (hk : Placed h (.node a c s) outer)
    (hLow : Cursor.Low h.length ⟨.node a c s, outer⟩) (bound : List (Bound D)) {ch : Expect}
    (hReads : Cursor.reads copy ⟨.node a c s, outer⟩ ch = none) :
    (∃ r, deconsChar lib h 0 copy a.1 ⟨a.2, parentPtr outer, s.ptr, c.ptr⟩ bound ch = .ok r) ↔
      ∀ f, Cursor.blamed ⟨.node a c s, outer⟩ ch = some f → ∃ out, bstrTree lib f.erase = .ok out := by
  have hAlone : (∃ r, deconsValue lib h 0 a.1 ⟨a.2, parentPtr outer, s.ptr, c.ptr⟩ bound none = .ok r) ↔
      ∀ f, some (Forest.node a c .nil) = some f → ∃ out, bstrTree lib f.erase = .ok out := by
    simp only [deconsValue, ne_eq, not_true_eq_false, if_false, nodeDump_bind_iff, nodeBstr_alone hk.stored hLow.1,
      Option.some.injEq, forall_eq']
  cases ch with
  | start | close | skip => cases hReads
  | number | string | blob | float =>
    obtain ⟨addr, name, value⟩ := a
    cases value <;> first | (cases hReads; done) | exact hAlone
  | attr name =>
    have hName : ¬(a.2.name == some name) = true := by
      intro hName
      exact absurd ((if_pos hName).symm.trans hReads) (by simp)
    have hText : nodeBstr lib h (some a.1) true = _ := nodeBstr_stored hk.stored hLow.1
    simp only [deconsChar, ne_eq, not_true_eq_false, if_false, hasName_eq, if_neg hName, nodeDump_bind_iff, hText,
      Cursor.blamed, Option.some.injEq, forall_eq']
  | word name =>
    cases outer with
    | nil => cases hReads
    | cons p outer =>
      cases p with
      | nil => exact absurd rfl hk.2.1
      | node a' c' s' =>
        have hName : ¬(a'.2.name == some name) = true := by
          intro hName
          exact absurd ((if_pos hName).symm.trans hReads) (by simp)
        have hUp := hk.2.2.stored
        have hText : nodeBstr lib h (some a'.1) true = _ := nodeBstr_stored hUp (hLow.2 _ (by simp))
        rw [deconsChar]
        dsimp only [parentPtr, Forest.ptr]
        rw [bind_of_ok (deref_head hUp)]
        simp only [ne_eq, not_true_eq_false, if_false, hasName_eq, if_neg hName, nodeDump_bind_iff, hText,
          Cursor.blamed, List.head?_cons, Option.some.injEq, forall_eq']
  | group null =>
    cases null with
    | false => simp [deconsChar, Cursor.blamed, pure, Except.pure]
    | true => cases hReads

/-- `Node_decons` returns exactly when what it dumps can be printed. -/
theorem deconsLoop_returns_iff (lib : DoubleLib D) (copy : Bool) (format : List Expect) {k : Cursor D}
    (hk : Placed h k.here k.outer) (hLow : k.Low h.length) (bound : List (Bound D)) :
    (∃ r, deconsLoop lib h 0 copy format k.here.ptr bound = .ok r) ↔
      ∀ f, k.dumped copy format = some f → ∃ out, bstrTree lib f.erase = .ok out := by
  induction format generalizing k bound with
  | nil => simp [deconsLoop, Cursor.dumped, pure, Except.pure]
  | cons c rest ih =>
    obtain ⟨here, outer⟩ := k
    cases here with
    | nil => simp [deconsLoop, Cursor.dumped, Forest.ptr, pure, Except.pure]
    | node a child sibling =>
      simp only [Forest.ptr, deconsLoop, Cursor.dumped]
      rw [bind_of_ok (deref_head hk.stored)]
      cases hReads : Cursor.reads copy ⟨.node a child sibling, outer⟩ c with
      | none =>
        dsimp only
        rw [← deconsChar_blamed lib hk hLow bound hReads]
        constructor
        · rintro ⟨r, hRun⟩
          obtain ⟨step, hStep, -⟩ := bind_eq_ok_iff.mp hRun
          exact ⟨step, hStep⟩
        · rintro ⟨step, hStep⟩
          cases step with
          | next cur bound₁ => exact absurd hStep (deconsChar_of_not_reads hk bound hReads cur bound₁)
          | failed bound₁ => exact ⟨(false, bound₁), by rw [bind_of_ok hStep]; rfl⟩
      | some b =>
        dsimp only
        rw [bind_of_ok (deconsChar_of_reads hk bound hReads)]
        exact ih (hk.slide c) (hLow.slide c) (bound ++ b)

theorem deconsChar_stale (lib : DoubleLib D) (copy : Bool) {errno : Nat} (hErrno : errno ≠ 0) {a : Nat × NodeData D}
    {c s : Located (NodeData D)} {outer : List (Located (NodeData D))} (hk : Placed h (.node a c s) outer)
    (bound : List (Bound D)) (ch : Expect) :
    ∃ b, deconsChar lib h errno copy a.1 ⟨a.2, parentPtr outer, s.ptr, c.ptr⟩ bound ch = .ok (.failed b) ∨
      deconsChar lib h errno copy a.1 ⟨a.2, parentPtr outer, s.ptr, c.ptr⟩ bound ch =
        .ok (.next (Cursor.slide ⟨.node a c s, outer⟩ ch).here.ptr b) := by
  have hMoves : ∀ ch b, Cursor.reads copy ⟨.node a c s, outer⟩ ch = some b →
      deconsChar lib h 0 copy a.1 ⟨a.2, parentPtr outer, s.ptr, c.ptr⟩ bound ch =
        .ok (.next (Cursor.slide ⟨.node a c s, outer⟩ ch).here.ptr (bound ++ b)) :=
    fun _ _ hReads => deconsChar_of_reads hk bound hReads
  cases ch with
  | start => exact ⟨_, .inr (hMoves .start [] rfl)⟩
  | close => exact ⟨_, .inr (hMoves .close [] rfl)⟩
  | skip => exact ⟨_, .inr (hMoves .skip [] rfl)⟩
  | number | string | blob =>
    refine ⟨bound, .inl ?_⟩
    simp only [deconsChar, deconsValue, if_pos hErrno]
    rfl
  | float =>
    obtain ⟨addr, name, value⟩ := a
    cases value with
    | float x =>
      refine ⟨bound ++ [.float x], .inl ?_⟩
      simp only [deconsChar, if_neg hErrno]
      rfl
    | number | string | blob | group =>
      refine ⟨bound, .inl ?_⟩
      simp only [deconsChar, deconsValue, if_pos hErrno]
      rfl
  | attr name =>
    refine ⟨bound, .inl ?_⟩
    simp only [deconsChar, if_pos hErrno]
    rfl
  | word name =>
    cases outer with
    | nil => exact ⟨_, .inr (hMoves (.word name) [] rfl)⟩
    | cons p outer =>
      cases p with
      | nil => exact absurd rfl hk.2.1
      | node a' c' s' =>
        refine ⟨bound, .inl ?_⟩
        rw [deconsChar]
        dsimp only [parentPtr, Forest.ptr]
        rw [bind_of_ok (deref_head hk.2.2.stored)]
        simp only [if_pos hErrno]
        rfl
  | group null =>
    refine ⟨bound, .inl ?_⟩
    simp only [deconsChar, beq_eq_false_iff_ne.mpr hErrno, Bool.and_false, Bool.false_eq_true, if_false]
    rfl

/-- Under a stale `errno` the format is given up, and nothing is dumped. -/
theorem deconsLoop_stale (lib : DoubleLib D) (copy : Bool) {errno : Nat} (hErrno : errno ≠ 0) (format : List Expect)
    {k : Cursor D} (hk : Placed h k.here k.outer) (bound : List (Bound D)) :
    ∃ b, deconsLoop lib h errno copy format k.here.ptr bound = .ok (false, b) := by
  induction format generalizing k bound with
  | nil => exact ⟨bound, by simp [deconsLoop, hErrno, pure, Except.pure]⟩
  | cons c rest ih =>
    obtain ⟨here, outer⟩ := k
    cases here with
    | nil => exact ⟨bound, rfl⟩
    | node a child sibling =>
      simp only [Forest.ptr, deconsLoop]
      rw [bind_of_ok (deref_head hk.stored)]
      obtain ⟨b, hFailed | hNext⟩ := deconsChar_stale lib copy hErrno hk bound c
      · refine ⟨b, ?_⟩
        dsimp only
        rw [bind_of_ok hFailed]
        rfl
      · obtain ⟨b', hRest⟩ := ih (hk.slide c) b
        refine ⟨b', ?_⟩
        dsimp only
        rw [bind_of_ok hNext]
        exact hRest

end Returns

/-! ## The tree alone decides -/

section Erased

/-- Two cursors at the same place of the same tree. -/
def Cursor.Same (k k' : Cursor D) : Prop :=
  k.here.erase = k'.here.erase ∧ k.outer.map Forest.erase = k'.outer.map Forest.erase

variable {k k' : Cursor D} {copy copy' : Bool}

theorem erase_stay {f f' : Located (NodeData D)} (hf : f.erase = f'.erase) : (stay f).erase = (stay f').erase := by
  cases f with
  | nil =>
    cases f' with
    | nil => rfl
    | node => cases hf
  | node a c s =>
    cases f' with
    | nil => cases hf
    | node a' c' s' =>
      simp only [Forest.erase_node, Forest.node.injEq] at hf
      obtain ⟨ha, hc, hs⟩ := hf
      cases s with
      | nil =>
        cases s' with
        | nil => simp [stay, ha, hc]
        | node => cases hs
      | node =>
        cases s' with
        | nil => cases hs
        | node => exact hs

theorem Cursor.Same.up (h : k.Same k') : (k.up stay).Same (k'.up stay) := by
  obtain ⟨here, outer⟩ := k
  obtain ⟨here', outer'⟩ := k'
  obtain ⟨-, hOuter⟩ := h
  cases outer with
  | nil =>
    cases outer' with
    | nil => exact ⟨rfl, rfl⟩
    | cons => cases hOuter
  | cons p outer =>
    cases outer' with
    | nil => cases hOuter
    | cons p' outer' =>
      obtain ⟨hHead, hTail⟩ := List.cons.inj hOuter
      exact ⟨erase_stay hHead, hTail⟩

theorem Cursor.Same.slide (h : k.Same k') (c : Expect) : (k.slide c).Same (k'.slide c) := by
  cases c with
  | start =>
    obtain ⟨here, outer⟩ := k
    obtain ⟨here', outer'⟩ := k'
    obtain ⟨hHere, hOuter⟩ := h
    cases here with
    | nil =>
      cases here' with
      | nil => exact ⟨rfl, hOuter⟩
      | node => cases hHere
    | node a c s =>
      cases here' with
      | nil => cases hHere
      | node a' c' s' =>
        simp only [Forest.erase_node, Forest.node.injEq] at hHere
        obtain ⟨ha, hc, hs⟩ := hHere
        exact ⟨hc, by simpa [Cursor.slide, ha, hc, hs] using hOuter⟩
  | close | word => exact h.up
  | attr => exact h
  | number | float | string | blob | group | skip => exact ⟨erase_stay h.1, h.2⟩

/-- One value, inside its node or copied out of it. -/
def Shows (h : Heap D) : Bound D → Bound D → Prop
  | .shared a, .copied s => ∃ cell, h[a]? = some cell ∧ (cell.data.value = .string s ∨ cell.data.value = .blob s)
  | .number n, .number m => n = m
  | .float x, .float y => x = y
  | .copied s, .copied s' => s = s'
  | .group _, .group _ => True
  | _, _ => False

/-- Two readings that both fail, or both find the same values. -/
def Agree (h : Heap D) : Option (List (Bound D)) → Option (List (Bound D)) → Prop
  | none, none => True
  | some out, some out' => List.Forall₂ (Shows h) out out'
  | _, _ => False

section Reading
variable {h : Heap D}

theorem headNamed_erase {f f' : Located (NodeData D)} (hf : f.erase = f'.erase) (name : Bytes) :
    headNamed name f = headNamed name f' := by
  cases f with
  | nil =>
    cases f' with
    | nil => rfl
    | node => cases hf
  | node a c s =>
    cases f' with
    | nil => cases hf
    | node a' c' s' =>
      simp only [Forest.erase_node, Forest.node.injEq] at hf
      simp only [headNamed, hf.1]

theorem agree_nothing (h : Heap D) (b : Bool) :
    Agree h (if b then some [] else none) (if b then some [] else none) := by
  cases b with
  | false => trivial
  | true => exact .nil

theorem agree_take {par : Option Nat} {a a' : Nat × NodeData D} {c s : Located (NodeData D)}
    (hf : Stored h par (.node a c s)) (ha : a.2 = a'.2) (ch : Expect) :
    Agree h (ch.take copy a) (ch.take true a') := by
  obtain ⟨addr, data⟩ := a
  obtain ⟨addr', data'⟩ := a'
  cases ha
  obtain ⟨name, value⟩ := data
  have hCell := hf.1
  have hString : ∀ s, value = .string s ∨ value = .blob s →
      Agree h (some [bindString copy addr s]) (some [bindString true addr' s]) := by
    intro s hs
    refine .cons ?_ .nil
    cases copy with
    | true => rfl
    | false => exact ⟨_, hCell, hs⟩
  cases ch with
  | start | close | attr | word => trivial
  | skip => exact .nil
  | group null =>
    cases null with
    | false => trivial
    | true => exact .cons trivial .nil
  | number | float =>
    cases value <;> first | trivial | exact .cons rfl .nil
  | string =>
    cases value with
    | string s => exact hString s (.inl rfl)
    | number | float | blob | group => trivial
  | blob =>
    cases value with
    | blob s => exact hString s (.inr rfl)
    | number | float | string | group => trivial

theorem Cursor.Same.reads (hSame : k.Same k') (hk : Placed h k.here k.outer) (c : Expect) :
    Agree h (k.reads copy c) (k'.reads true c) := by
  obtain ⟨here, outer⟩ := k
  obtain ⟨here', outer'⟩ := k'
  obtain ⟨hHere, hOuter⟩ := hSame
  cases c with
  | start | close => exact .nil
  | attr name =>
    simp only [Cursor.reads, headNamed_erase hHere name]
    exact agree_nothing h _
  | word name =>
    cases outer with
    | nil =>
      cases outer' with
      | nil => exact .nil
      | cons => cases hOuter
    | cons p outer =>
      cases outer' with
      | nil => cases hOuter
      | cons p' outer' =>
        obtain ⟨hHead, -⟩ := List.cons.inj hOuter
        simp only [Cursor.reads, headNamed_erase hHead name]
        exact agree_nothing h _
  | number | float | string | blob | group | skip =>
    cases here with
    | nil =>
      cases here' with
      | nil => trivial
      | node => cases hHere
    | node a c s =>
      cases here' with
      | nil => cases hHere
      | node a' c' s' =>
        simp only [Forest.erase_node, Forest.node.injEq] at hHere
        simp only [Cursor.reads]
        exact agree_take hk.stored hHere.1 _

theorem agree_bind {a a' b b' : Option (List (Bound D))} (ha : Agree h a a') (hb : Agree h b b') :
    Agree h (a.bind fun x => b.bind fun y => some (x ++ y)) (a'.bind fun x => b'.bind fun y => some (x ++ y)) := by
  cases a with
  | none =>
    cases a' with
    | none => trivial
    | some => exact ha.elim
  | some x =>
    cases a' with
    | none => exact ha.elim
    | some x' =>
      cases b with
      | none =>
        cases b' with
        | none => trivial
        | some => exact hb.elim
      | some y =>
        cases b' with
        | none => exact hb.elim
        | some y' => exact List.rel_append ha hb

theorem Cursor.Same.accepts (hSame : k.Same k') (hk : Placed h k.here k.outer) (format : List Expect) :
    Agree h (k.accepts copy format) (k'.accepts true format) := by
  induction format generalizing k k' with
  | nil => exact .nil
  | cons c rest ih =>
    have hReads : Agree h (k.reads copy c) (k'.reads true c) := hSame.reads hk c
    have hRest := agree_bind hReads (ih (hSame.slide c) (hk.slide c))
    obtain ⟨here, outer⟩ := k
    obtain ⟨here', outer'⟩ := k'
    cases here with
    | nil =>
      cases here' with
      | nil => trivial
      | node => cases hSame.1
    | node a c s =>
      cases here' with
      | nil => cases hSame.1
      | node a' c' s' => exact hRest

theorem erase_alone {a a' : Nat × NodeData D} {c c' s s' : Located (NodeData D)}
    (hf : (Forest.node a c s).erase = (Forest.node a' c' s').erase) :
    (Forest.node a c .nil).erase = (Forest.node a' c' .nil).erase := by
  simp only [Forest.erase_node, Forest.node.injEq] at hf
  simp only [Forest.erase_node, hf.1, hf.2.1]

theorem Cursor.Same.blamed (hSame : k.Same k') (c : Expect) :
    (k.blamed c).map Forest.erase = (k'.blamed c).map Forest.erase := by
  obtain ⟨here, outer⟩ := k
  obtain ⟨here', outer'⟩ := k'
  obtain ⟨hHere, hOuter⟩ := hSame
  cases c with
  | word => simpa [Cursor.blamed, List.head?_map] using congrArg List.head? hOuter
  | attr => exact congrArg some hHere
  | group => rfl
  | start | close | number | float | string | blob | skip =>
    cases here with
    | nil =>
      cases here' with
      | nil => rfl
      | node => cases hHere
    | node a c s =>
      cases here' with
      | nil => cases hHere
      | node a' c' s' => exact congrArg some (erase_alone hHere)

theorem Cursor.Same.dumped (hSame : k.Same k') (hk : Placed h k.here k.outer) (format : List Expect) :
    (k.dumped copy format).map Forest.erase = (k'.dumped true format).map Forest.erase := by
  induction format generalizing k k' with
  | nil => rfl
  | cons c rest ih =>
    have hReads : Agree h (k.reads copy c) (k'.reads true c) := hSame.reads hk c
    have hRest := ih (hSame.slide c) (hk.slide c)
    have hBlamed := hSame.blamed c
    obtain ⟨here, outer⟩ := k
    obtain ⟨here', outer'⟩ := k'
    cases here with
    | nil =>
      cases here' with
      | nil => rfl
      | node => cases hSame.1
    | node a ch s =>
      cases here' with
      | nil => cases hSame.1
      | node a' ch' s' =>
        simp only [Cursor.dumped]
        cases hFirst : Cursor.reads copy ⟨.node a ch s, outer⟩ c with
        | none =>
          cases hSecond : Cursor.reads true ⟨.node a' ch' s', outer'⟩ c with
          | none => exact hBlamed
          | some =>
            rw [hFirst, hSecond] at hReads
            exact hReads.elim
        | some =>
          cases hSecond : Cursor.reads true ⟨.node a' ch' s', outer'⟩ c with
          | none =>
            rw [hFirst, hSecond] at hReads
            exact hReads.elim
          | some => exact hRest

end Reading

/-- The tree at some place; which one does not matter. -/
def planted (t : Tree D) : Located (NodeData D) := t.map fun d => (0, d)

theorem erase_planted (t : Tree D) : (planted t).erase = t := by
  induction t with
  | nil => rfl
  | node d c s ihc ihs =>
    simp only [planted, Forest.erase, Forest.map] at ihc ihs ⊢
    rw [ihc, ihs]

/-- The values a format finds in the tree, if `Node_decons` accepts it. -/
def fieldsOf (format : List Expect) (t : Tree D) : Option (List (Bound D)) := Cursor.accepts true format ⟨planted t, []⟩

/-- The tree that is dumped when it does not. -/
def blames (format : List Expect) (t : Tree D) : Option (Tree D) :=
  (Cursor.dumped true format ⟨planted t, []⟩).map Forest.erase

section Represented
variable {h : Heap D} {root : Nat} {t : Tree D}

theorem exists_cursor (hTree : Represents h none (some root) t) :
    ∃ a c s, a.1 = root ∧ Stored h none (.node a c s) ∧ Cursor.Low h.length ⟨.node a c s, []⟩ ∧
      Cursor.Same ⟨.node a c s, []⟩ ⟨planted t, []⟩ := by
  obtain ⟨f, rfl, hPtr, hStored, hNodup⟩ := hTree
  have hLow : f.height ≤ h.length := Nat.le_trans f.height_le_size (hStored.size_le hNodup)
  cases f with
  | nil => cases hPtr
  | node a c s =>
    exact ⟨a, c, s, Option.some.inj hPtr, hStored, ⟨hLow, by simp⟩, (erase_planted _).symm, rfl⟩

/-- `Node_decons` returns exactly when the tree it dumps, if any, can be printed. -/
theorem nodeDecons_returns_iff (lib : DoubleLib D) (hTree : Represents h none (some root) t) (copy : Bool)
    (format : List Expect) :
    (∃ r, nodeDecons lib h 0 copy root format = .ok r) ↔
      ∀ u, blames format t = some u → ∃ out, bstrTree lib u = .ok out := by
  obtain ⟨a, c, s, rfl, hStored, hLow, hSame⟩ := exists_cursor hTree
  have hPlaced : Placed h (Cursor.mk (Forest.node a c s) []).here [] := hStored
  have hDumped : (Cursor.dumped copy format ⟨.node a c s, []⟩).map Forest.erase = blames format t :=
    hSame.dumped hPlaced format
  rw [← hDumped]
  have hLoop := deconsLoop_returns_iff lib copy format hPlaced hLow []
  rw [show (∃ r, nodeDecons lib h 0 copy a.1 format = .ok r) ↔ _ from hLoop]
  simp only [Option.map_eq_some_iff, forall_exists_index, and_imp, forall_apply_eq_imp_iff₂]

/-- What it binds is what the format finds in the tree. -/
theorem nodeDecons_fields (lib : DoubleLib D) (hTree : Represents h none (some root) t) (copy : Bool)
    (format : List Expect) (errno : Nat) :
    (∀ bound, nodeDecons lib h errno copy root format = .ok (true, bound) →
      errno = 0 ∧ ∃ fields, fieldsOf format t = some fields ∧ List.Forall₂ (Shows h) bound fields) ∧
    (errno = 0 → ∀ fields, fieldsOf format t = some fields →
      ∃ bound, nodeDecons lib h errno copy root format = .ok (true, bound) ∧ List.Forall₂ (Shows h) bound fields) := by
  obtain ⟨a, c, s, rfl, hStored, hLow, hSame⟩ := exists_cursor hTree
  have hPlaced : Placed h (Cursor.mk (Forest.node a c s) []).here [] := hStored
  have hAgree : Agree h (Cursor.accepts copy format ⟨.node a c s, []⟩) (fieldsOf format t) :=
    hSame.accepts hPlaced format
  constructor
  · intro bound hBound
    obtain ⟨hErrno, hAccepts⟩ := (nodeDecons_true_iff lib copy hStored errno format bound).mp hBound
    rw [hAccepts] at hAgree
    cases hFields : fieldsOf format t with
    | none =>
      rw [hFields] at hAgree
      exact hAgree.elim
    | some fields =>
      rw [hFields] at hAgree
      exact ⟨hErrno, fields, rfl, hAgree⟩
  · intro hErrno fields hFields
    rw [hFields] at hAgree
    cases hAccepts : Cursor.accepts copy format ⟨.node a c s, []⟩ with
    | none =>
      rw [hAccepts] at hAgree
      exact hAgree.elim
    | some bound =>
      rw [hAccepts] at hAgree
      exact ⟨bound, (nodeDecons_true_iff lib copy hStored errno format bound).mpr ⟨hErrno, hAccepts⟩, hAgree⟩

theorem nodeDecons_stale (lib : DoubleLib D) (hTree : Represents h none (some root) t) (copy : Bool)
    {errno : Nat} (hErrno : errno ≠ 0) (format : List Expect) :
    ∃ bound, nodeDecons lib h errno copy root format = .ok (false, bound) := by
  obtain ⟨a, c, s, rfl, hStored, -, -⟩ := exists_cursor hTree
  have hPlaced : Placed h (Cursor.mk (Forest.node a c s) []).here [] := hStored
  exact deconsLoop_stale lib copy hErrno format hPlaced []

end Represented

end Erased

end Utu.Stackish
