import Utu.Stackish.Print

/-!
# Room for a text

Printing is a sequence of appends to one string, each of which works while the
string stays below `INT_MAX`. So a tree can be printed exactly when its whole
text has room and no name is too long for `bformata`, which asserts that it
could print names. Strings and floats that are too long for it are left out.
-/

namespace Utu.Stackish
open LinkedForest Outcome
set_option autoImplicit false

variable {D : Type}

/-- `bformata` can print the text. -/
def Formats (text : Bytes) : Prop := 2 * text.length + 2 ≤ intMax

instance (text : Bytes) : Decidable (Formats text) := inferInstanceAs (Decidable (_ ≤ _))

/-- What `bformata` appends -/
def formatted (text : Bytes) : Bytes := if Formats text then text else []

/-- A live string of so many bytes -/
def Room (b : Bytes) : Prop := b.length + 1 ≤ intMax

instance (b : Bytes) : Decidable (Room b) := inferInstanceAs (Decidable (_ ≤ _))

theorem Room.left {b text : Bytes} (h : Room (b ++ text)) : Room b := by
  rw [Room, List.length_append] at h
  rw [Room]
  omega

def printFaults : Set Fault := {.heapOverflow, .assertFailed "rc == BSTR_OK"}

/-- The call has appended the text to `b`, or there is no room for it or not `p`. -/
def Appended (b text : Bytes) (p : Prop) (x : Run Bytes) : Prop :=
  (p ∧ Room (b ++ text) ∧ x = .ok (b ++ text)) ∨ (¬(p ∧ Room (b ++ text)) ∧ ∃ e ∈ printFaults, x = .error e)

section Appended
variable {b text next : Bytes} {p q : Prop} {x : Run Bytes}

theorem Appended.pure (hb : Room b) : Appended b [] True (.ok b) := by
  rw [Appended, List.append_nil]
  exact .inl ⟨trivial, hb, rfl⟩

theorem Appended.bind {f : Bytes → Run Bytes} (h : Appended b text p x)
    (hf : Room (b ++ text) → Appended (b ++ text) next q (f (b ++ text))) :
    Appended b (text ++ next) (p ∧ q) (x >>= f) := by
  rw [Appended, ← List.append_assoc]
  rcases h with ⟨hp, hRoom, rfl⟩ | ⟨hNot, e, he, rfl⟩
  · rcases hf hRoom with ⟨hq, hRoom', hNext⟩ | ⟨hNot, e, he, hNext⟩
    · exact .inl ⟨⟨hp, hq⟩, hRoom', hNext⟩
    · exact .inr ⟨fun ⟨⟨_, hq⟩, hRoom'⟩ => hNot ⟨hq, hRoom'⟩, e, he, hNext⟩
  · exact .inr ⟨fun ⟨⟨hp, _⟩, hRoom⟩ => hNot ⟨hp, hRoom.left⟩, e, he, rfl⟩

theorem Appended.congr (h : Appended b text p x) (hp : p ↔ q) : Appended b text q x := by
  rwa [← propext hp]

theorem bconcat_room (b : Bytes) (s : Option Bytes) (hb : Room b) :
    (Room (b ++ s.getD []) ∧ ∃ rc, bconcat b s = .ok (rc, b ++ s.getD [])) ∨
      (¬Room (b ++ s.getD []) ∧ bconcat b s = .error .heapOverflow) := by
  cases s with
  | none =>
    exact .inl ⟨by rwa [Option.getD_none, List.append_nil], false, by rw [Option.getD_none, List.append_nil]; rfl⟩
  | some s =>
    have hIff : Room (b ++ s) ↔ b.length + s.length + 1 ≤ intMax := by rw [Room, List.length_append]
    by_cases hRoom : b.length + s.length + 1 ≤ intMax
    · exact .inl ⟨hIff.mpr hRoom, true, bconcat_fits hRoom⟩
    · refine .inr ⟨hIff.not.mpr hRoom, ?_⟩
      rw [bconcat, if_neg hRoom]
      rfl

theorem bformata_room (b text : Bytes) (hb : Room b) :
    (Room (b ++ formatted text) ∧ bformata b text = .ok (decide (Formats text), b ++ formatted text)) ∨
      (¬Room (b ++ formatted text) ∧ bformata b text = .error .heapOverflow) := by
  by_cases hFormats : Formats text
  · rw [formatted, if_pos hFormats, decide_eq_true hFormats, bformata, if_pos ((bformataLoop_iff _).mpr hFormats)]
    have hIff : Room (b ++ text) ↔ b.length + text.length + 1 ≤ intMax := by rw [Room, List.length_append]
    by_cases hRoom : b.length + text.length + 1 ≤ intMax
    · exact .inl ⟨hIff.mpr hRoom, bconcat_fits hRoom⟩
    · refine .inr ⟨hIff.not.mpr hRoom, ?_⟩
      rw [bconcat, if_neg hRoom]
      rfl
  · rw [formatted, if_neg hFormats, List.append_nil, decide_eq_false hFormats, bformata,
      if_neg ((bformataLoop_iff _).not.mpr hFormats)]
    exact .inl ⟨hb, rfl⟩

theorem Appended.bformata_bind {f : Bool × Bytes → Run Bytes} (hb : Room b)
    (hf : ∀ rc, Room (b ++ formatted text) → Appended (b ++ formatted text) next q (f (rc, b ++ formatted text))) :
    Appended b (formatted text ++ next) q (bformata b text >>= f) := by
  rw [Appended, ← List.append_assoc]
  rcases bformata_room b text hb with ⟨hRoom, hRun⟩ | ⟨hRoom, hRun⟩
  · rw [bind_of_ok hRun]
    exact hf _ hRoom
  · exact .inr ⟨fun h => hRoom h.2.left, _, .inl rfl, bind_of_error hRun f⟩

theorem Appended.bconcat_bind {f : Bool × Bytes → Run Bytes} {s : Option Bytes} (hb : Room b)
    (hf : ∀ rc, Room (b ++ s.getD []) → Appended (b ++ s.getD []) next q (f (rc, b ++ s.getD []))) :
    Appended b (s.getD [] ++ next) q (bconcat b s >>= f) := by
  rw [Appended, ← List.append_assoc]
  rcases bconcat_room b s hb with ⟨hRoom, rc, hRun⟩ | ⟨hRoom, hRun⟩
  · rw [bind_of_ok hRun]
    exact hf rc hRoom
  · exact .inr ⟨fun h => hRoom h.2.left, _, .inl rfl, bind_of_error hRun f⟩

theorem appended_bformata (text : Bytes) (hb : Room b) :
    Appended b (formatted text) True (bformata b text >>= fun r => pure r.2) := by
  have h : Appended b (formatted text ++ []) True (bformata b text >>= fun r => pure r.2) :=
    .bformata_bind hb fun _ hRoom => .pure hRoom
  rwa [List.append_nil] at h

theorem appended_bformataAssert (text : Bytes) (hb : Room b) :
    Appended b text (Formats text) (bformataAssert b text) := by
  by_cases hFormats : Formats text
  · have hText : formatted text = text := if_pos hFormats
    rcases bformata_room b text hb with ⟨hRoom, hRun⟩ | ⟨hRoom, hRun⟩
    · rw [hText] at hRoom hRun
      rw [decide_eq_true hFormats] at hRun
      refine .inl ⟨hFormats, hRoom, ?_⟩
      rw [bformataAssert, bind_of_ok hRun]
      rfl
    · rw [hText] at hRoom
      exact .inr ⟨fun h => hRoom h.2, _, .inl rfl, bind_of_error hRun _⟩
  · refine .inr ⟨fun h => hFormats h.1, ?_⟩
    rcases bformata_room b text hb with ⟨-, hRun⟩ | ⟨-, hRun⟩
    · rw [decide_eq_false hFormats] at hRun
      refine ⟨_, .inr rfl, ?_⟩
      rw [bformataAssert, bind_of_ok hRun]
      rfl
    · exact ⟨_, .inl rfl, bind_of_error hRun _⟩

end Appended

/-! ## Trees -/

section Trees
variable (lib : DoubleLib D)

def startText (d : NodeData D) : Bytes :=
  match d.value with
  | .group => [91, 32]
  | _ => []

/-- A group is closed by a bracket unless a word closes it. -/
def valueText (d : NodeData D) : Bytes :=
  match d.value with
  | .blob s => blobText s ++ [32]
  | .string s => formatted (34 :: cstr s ++ [34, 32])
  | .number n => Decimal.print n.toNat ++ [32]
  | .float x => formatted (lib.format x ++ [32])
  | .group => if d.name.all fun name => bchar name 0 = 64 then [93, 32] else []

def nameText (d : NodeData D) : Bytes :=
  match d.name with
  | none => []
  | some name => cstr (some name) ++ [32]

/-- The text of a tree, the siblings of a node before it -/
def treeText : Tree D → Bytes
  | .nil => []
  | .node d c s => treeText s ++ (startText d ++ (treeText c ++ (valueText lib d ++ nameText d)))

/-- The name can be printed. -/
def NameFits (d : NodeData D) : Prop := ∀ name, d.name = some name → Formats (cstr (some name) ++ [32])

/-- All of the tree can be printed, with a newline behind it. -/
def Prints (t : Tree D) : Prop := t.All NameFits ∧ (treeText lib t).length + 2 ≤ intMax

variable {lib} {b : Bytes}

theorem appended_catStart (d : NodeData D) (hb : Room b) :
    Appended b (startText d) True (catStart b 32 d) := by
  obtain ⟨name, value⟩ := d
  cases value with
  | group => exact (appended_bformataAssert [91, 32] hb).congr (iff_true_intro (by decide))
  | number | string | blob | float => exact .pure hb

theorem appended_catBlob {name : Option Bytes} {s : Option Bytes} (hb : Room b) :
    Appended b (blobText s ++ [32]) True (catValue lib b 32 ⟨name, .blob s⟩) := by
  have hTail : formatted [39, 32] = [39, 32] := if_pos (by decide)
  -- the head is short unless the blob has no room anyway
  have hBody :
      Appended b (formatted (39 :: Decimal.print (blength s) ++ [58]) ++ (s.getD [] ++ (formatted [39, 32] ++ [])))
      True (catValue lib b 32 ⟨name, .blob s⟩) := by
    apply Appended.bformata_bind hb
    intro _ hHead
    apply Appended.bconcat_bind hHead
    intro _ hRoom
    apply Appended.bformata_bind hRoom
    intro _ hRoom
    exact .pure hRoom
  by_cases hSize : blength s ≤ intMax
  · have hHead : formatted (39 :: Decimal.print (blength s) ++ [58]) = 39 :: Decimal.print (blength s) ++ [58] :=
      if_pos (blobHead_fits hSize)
    rw [hTail, hHead, List.append_nil] at hBody
    have hText : blobText s ++ [32] = 39 :: Decimal.print (blength s) ++ [58] ++ (s.getD [] ++ [39, 32]) := by
      simp [blobText]
    rw [hText]
    exact hBody
  · have hLong : ∀ before after : Bytes, ¬Room (b ++ (before ++ (s.getD [] ++ after))) := by
      intro before after hRoom
      simp only [Room, List.length_append] at hRoom
      have hLength : blength s = (s.getD []).length := rfl
      omega
    rcases hBody with ⟨-, hRoom, -⟩ | ⟨-, hFault⟩
    · exact absurd hRoom (hLong _ _)
    · refine .inr ⟨?_, hFault⟩
      rintro ⟨-, hRoom⟩
      refine hLong (39 :: Decimal.print (blength s) ++ [58]) [39, 32] ?_
      simpa [blobText] using hRoom

theorem appended_catValue (d : NodeData D) (hb : Room b) :
    Appended b (valueText lib d) True (catValue lib b 32 d) := by
  obtain ⟨name, value⟩ := d
  cases value with
  | number n =>
    have hText : formatted (Decimal.print n.toNat ++ [32]) = Decimal.print n.toNat ++ [32] := by
      have hShort := print_length_small n.toNat_lt
      apply if_pos
      simp only [Formats, List.length_append, List.length_singleton, intMax]
      omega
    have h := appended_bformata (Decimal.print n.toNat ++ [32]) hb
    rw [hText] at h
    exact h
  | string s => exact appended_bformata (34 :: cstr s ++ [34, 32]) hb
  | blob s => exact appended_catBlob hb
  | float x => exact appended_bformata (lib.format x ++ [32]) hb
  | group =>
    have hBracket : Appended b [93, 32] True (bformataAssert b [93, 32]) :=
      (appended_bformataAssert [93, 32] hb).congr (iff_true_intro (by decide))
    cases name with
    | none => exact hBracket
    | some name =>
      by_cases hAt : bchar name 0 = 64
      · simp only [valueText, catValue, Option.all_some, hAt, decide_true, if_true]
        exact hBracket
      · simp only [valueText, catValue, Option.all_some, hAt, decide_false, if_false, Bool.false_eq_true]
        exact .pure hb

theorem appended_catName (d : NodeData D) (hb : Room b) :
    Appended b (nameText d) (NameFits d) (catName b 32 d) := by
  obtain ⟨name, value⟩ := d
  cases name with
  | none => exact (Appended.pure hb).congr (iff_of_true trivial nofun)
  | some name =>
    apply (appended_bformataAssert (cstr (some name) ++ [32]) hb).congr
    constructor
    · rintro hFormats n ⟨⟩
      exact hFormats
    · intro hFits
      exact hFits name rfl

theorem appended_catTree (t : Tree D) (hb : Room b) :
    Appended b (treeText lib t) (t.All NameFits) (catTree lib t b) := by
  induction t generalizing b with
  | nil => exact .pure hb
  | node d c s ihc ihs =>
    have h : Appended b (treeText lib (.node d c s))
        (s.All NameFits ∧ True ∧ c.All NameFits ∧ True ∧ NameFits d) (catTree lib (.node d c s) b) := by
      apply (ihs hb).bind
      intro hb
      apply (appended_catStart d hb).bind
      intro hb
      apply (ihc hb).bind
      intro hb
      apply (appended_catValue d hb).bind
      intro hb
      exact appended_catName d hb
    apply h.congr
    simp only [Forest.All, true_and]
    tauto

/-- `Node_bstr` prints the tree, or there is no room for it. -/
theorem bstrTree_room (lib : DoubleLib D) {t : Tree D} (ht : t ≠ .nil) :
    (Prints lib t ∧ bstrTree lib t = .ok (treeText lib t ++ [10])) ∨
      (¬Prints lib t ∧ ∃ e, (e ∈ printFaults ∨ e = .assertFailed "failed to append separator char") ∧
        bstrTree lib t = .error e) := by
  rw [bstrTree.eq_2 lib t ht]
  have hTree : Appended [] (treeText lib t) (t.All NameFits) (catTree lib t []) := appended_catTree t (by decide)
  rcases hTree with ⟨hNames, hRoom, hRun⟩ | ⟨hNot, e, he, hRun⟩
  · rw [bind_of_ok hRun, List.nil_append]
    by_cases hLast : (treeText lib t).length + 2 ≤ intMax
    · refine .inl ⟨⟨hNames, hLast⟩, ?_⟩
      rw [bconchar, if_pos hLast]
      rfl
    · refine .inr ⟨fun h => hLast h.2, _, .inr rfl, ?_⟩
      rw [bconchar, if_neg hLast]
      rfl
  · refine .inr ⟨?_, e, .inl he, bind_of_error hRun _⟩
    rintro ⟨hNames, hLast⟩
    refine hNot ⟨hNames, ?_⟩
    rw [Room, List.nil_append]
    omega

end Trees

end Utu.Stackish
