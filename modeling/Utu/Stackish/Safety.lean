import Utu.Stackish.Reading

/-!
# What a call can come to

A sequence of documents is read by following the offsets `Node_parse_seq` hands
back. The first part says when none of these calls stops the process. The second
says when the tree of an accepted buffer is one that the buffer closes.
-/

namespace Utu.Stackish
open LinkedForest
set_option autoImplicit false

variable {D : Type}

section Calls
variable {lib : DoubleLib D} {buf : Bytes}

/-- The offset behind the byte where a document ended, and behind the newlines there. -/
def nextDocument (buf : Bytes) (stop : Nat) : Nat := skipNewlines (buf.drop (stop + 1)) (stop + 1)

theorem nextDocument_le {stop : Nat} (h : stop < buf.length) : nextDocument buf stop ≤ buf.length := by
  have hRun := (List.takeWhile_prefix (fun c : UInt8 => decide (c = 10)) (l := buf.drop (stop + 1))).length_le
  rw [List.length_drop] at hRun
  simp only [nextDocument, skipNewlines]
  omega

/-- A call that its first `check` refuses returns NULL. -/
theorem nodeParseSeq_refused {errno : Nat} (h : ¬ (endsInSpace buf = true ∧ errno = 0)) (fuel : Nat) (heap : Heap D)
    (start : Nat) :
    nodeParseSeq lib fuel heap errno buf start = .ok ⟨none, start + 1, heap, 0⟩ := by
  have hFalse : (endsInSpace buf && errno == 0) = false := by simpa using h
  simp only [nodeParseSeq, hFalse, Bool.false_eq_true, if_false]
  rfl

theorem finishes_refused {errno : Nat} (h : ¬ (endsInSpace buf = true ∧ errno = 0)) (heap : Heap D)
    (start : Nat) :
    Finishes (nodeParseSeq lib · heap errno buf start) (.ok ⟨none, start + 1, heap, 0⟩) :=
  ⟨nofun, 0, nodeParseSeq_refused h 0 heap start⟩

/-- Reading from `start` comes to the ending `x`, with the document `d`. -/
def ReadsTo (lib : DoubleLib D) (buf : Bytes) (start : Nat) (d : Doc D) (x : Ending D) : Prop :=
  ∃ ts p, Reads lib buf start [] ts p d ∧ step lib buf p d = .stop x

theorem ReadsTo.unique {start : Nat} {d d' : Doc D} {x x' : Ending D}
    (h : ReadsTo lib buf start d x) (h' : ReadsTo lib buf start d' x') : d = d' ∧ x = x' := by
  obtain ⟨ts, p, hReads, hStop⟩ := h
  obtain ⟨us, q, hReads', hStop'⟩ := h'
  obtain ⟨-, hDoc, hEnding⟩ := hReads.stop_unique hStop hReads' hStop'
  exact ⟨hDoc, hEnding⟩

/-- Every call that is not refused comes to the ending of its reading. -/
theorem ReadsTo.ends (hLen : buf.length < 2 ^ 31) (hEnds : endsInSpace buf = true) (heap : Heap D)
    {start : Nat} (hStart : start ≤ buf.length) {d : Doc D} {x : Ending D}
    (h : ReadsTo lib buf start d x) {r : Run (Parsed D)}
    (hr : Finishes (nodeParseSeq lib · heap 0 buf start) r) : Ends buf heap d r x := by
  obtain ⟨ts, p, hReads, hStop⟩ := h
  obtain ⟨r', hEnding, hr'⟩ := nodeParseSeq_stops hLen hEnds heap hStart hReads hStop
  rw [hr.unique (nodeParseSeq_stable lib heap 0 buf start) hr']
  exact hEnding

theorem ReadsTo.finishes (hLen : buf.length < 2 ^ 31) (hEnds : endsInSpace buf = true)
    (heap : Heap D) {start : Nat} (hStart : start ≤ buf.length) {d : Doc D} {x : Ending D}
    (h : ReadsTo lib buf start d x) :
    ∃ r, Ends buf heap d r x ∧ Finishes (nodeParseSeq lib · heap 0 buf start) r := by
  obtain ⟨ts, p, hReads, hStop⟩ := h
  exact nodeParseSeq_stops hLen hEnds heap hStart hReads hStop

/-- A call that comes to anything has a reading that stops. -/
theorem exists_readsTo (hLen : buf.length < 2 ^ 31) (hEnds : endsInSpace buf = true) (heap : Heap D)
    {start : Nat} (hStart : start ≤ buf.length) {r : Run (Parsed D)}
    (hr : Finishes (nodeParseSeq lib · heap 0 buf start) r) : ∃ d x, ReadsTo lib buf start d x := by
  by_contra hNone
  obtain ⟨hFuel, fuel, rfl⟩ := hr
  apply hFuel
  simp only [nodeParseSeq_eq hEnds]
  refine parseFrom_endless hLen hEnds (ready_init heap) hStart (fun ts q d hReads => ?_) fuel
  cases hStep : step lib buf q d with
  | go t r f => exact ⟨t, r, f, rfl⟩
  | stop x => exact absurd ⟨d, x, ts, q, hReads, hStep⟩ hNone

/-- A call that returns has added to the memory, and left `errno` clear. -/
theorem nodeParseSeq_ok (hLen : buf.length < 2 ^ 31) {start : Nat} (hStart : start ≤ buf.length)
    {fuel errno : Nat} {heap : Heap D} {r : Parsed D}
    (hr : nodeParseSeq lib fuel heap errno buf start = .ok r) :
    Extends heap r.heap ∧ r.errno = 0 ∧ (r.root ≠ none → ∃ t, Represents r.heap none r.root t) := by
  have hFinishes : Finishes (nodeParseSeq lib · heap errno buf start) (.ok r) := ⟨nofun, fuel, hr⟩
  by_cases hCheck : endsInSpace buf = true ∧ errno = 0
  · obtain ⟨hEnds, rfl⟩ := hCheck
    obtain ⟨d, x, hRead⟩ := exists_readsTo hLen hEnds heap hStart hFinishes
    have hEnding := hRead.ends hLen hEnds heap hStart hFinishes
    cases x with
    | ended | refused | closed =>
      obtain ⟨root, heap', hOk, hExt, hTree⟩ := hEnding
      cases hOk
      exact ⟨hExt, rfl, fun _ => ⟨_, hTree⟩⟩
    | lexError =>
      simp only [Ends] at hEnding
      split at hEnding
      · obtain ⟨next, heap', hOk, hExt⟩ := hEnding
        cases hOk
        exact ⟨hExt, rfl, fun h => absurd rfl h⟩
      · cases hEnding
    | crashed | overrun => cases hEnding
  · have hSame := hFinishes.unique (nodeParseSeq_stable lib heap errno buf start)
      (finishes_refused hCheck heap start)
    cases hSame
    exact ⟨Extends.refl heap, rfl, fun h => absurd rfl h⟩

theorem represents_ne_nil {heap : Heap D} {root : Option Nat} {t : Tree D}
    (h : Represents heap none root t) : root = none ↔ t = .nil := by
  obtain ⟨f, rfl, rfl, -, -⟩ := h
  cases f <;> simp [Forest.ptr]

theorem Doc.root_eq_nil {d : Doc D} : d.root = .nil ↔ d = [] := by
  cases d <;> simp [Doc.root]

/-- Reading stops for the text, or at a token that takes effect inside the buffer. -/
theorem step_stop_cases {p : Nat} {d : Doc D} {x : Ending D}
    (hStep : step lib buf p d = .stop x) :
    (x = .ended ∨ x = .lexError ∨ x = .overrun) ∨ ∃ t stop, t.Shape ∧ stop < buf.length ∧
      ((applyToken t d = .refused ∧ x = .refused stop) ∨
        (∃ tree, applyToken t d = .closed tree ∧ x = .closed tree stop) ∨
        (applyToken t d = .crashed ∧ x = .crashed)) := by
  rcases step_cases lib buf p d with ⟨y, hy, h⟩ | ⟨t, next, stop, hShape, hStop, h⟩
  · rw [hStep] at h
    cases h
    exact .inl hy
  · refine .inr ⟨t, stop, hShape, hStop, ?_⟩
    rw [hStep, stepToken] at h
    cases hApply : applyToken t d <;> rw [hApply] at h <;> cases h
    · exact .inl ⟨rfl, rfl⟩
    · exact .inr (.inl ⟨_, rfl, rfl⟩)
    · exact .inr (.inr ⟨rfl, rfl⟩)

theorem applyToken_closed {t : Token D} (hShape : t.Shape) {d : Doc D} {tree : Tree D}
    (h : applyToken t d = .closed tree) :
    ∃ name kids, rootName name ∧ d = [kids] ∧ tree = .node ⟨name, .group⟩ kids .nil := by
  have hClose : ∀ name, rootName name → closeGroup name d = .closed tree →
      ∃ name kids, rootName name ∧ d = [kids] ∧ tree = .node ⟨name, .group⟩ kids .nil := by
    intro name hName h
    match d, h with
    | [kids], h => cases h; exact ⟨name, kids, hName, rfl, rfl⟩
  have hPush : ∀ value : Value D, pushLeaf value d ≠ .closed tree := by
    intro value h
    cases d <;> cases h
  cases t with
  | number n =>
    cases n with
    | none => cases h
    | some n => exact absurd h (hPush _)
  | float x =>
    cases x with
    | none => cases h
    | some x => exact absurd h (hPush _)
  | string s => exact absurd h (hPush _)
  | blob s => exact absurd h (hPush _)
  | start => cases h
  | word w => exact hClose _ (by rintro n ⟨⟩; exact hShape) h
  | group => exact hClose none (by rintro n ⟨⟩) h
  | attrib a =>
    match d, h with
    | [], h => cases h
    | .nil :: _, h => cases h
    | .node _ _ _ :: _, h => cases h

theorem ReadsTo.stop_lt {start stop : Nat} {d : Doc D} {x : Ending D}
    (h : ReadsTo lib buf start d x) (hx : x = .refused stop ∨ ∃ t, x = .closed t stop) :
    stop < buf.length := by
  obtain ⟨ts, p, -, hStop⟩ := h
  rcases step_stop_cases hStop with
    (rfl | rfl | rfl) | ⟨t, at', -, hAt, ⟨-, rfl⟩ | ⟨tree, -, rfl⟩ | ⟨-, rfl⟩⟩
  all_goals rcases hx with hx | ⟨t, hx⟩ <;> cases hx
  all_goals exact hAt

/-- A closed root is a group of its own. -/
theorem ReadsTo.closed_tree {start stop : Nat} {d : Doc D} {tree : Tree D}
    (h : ReadsTo lib buf start d (.closed tree stop)) :
    ∃ name kids, rootName name ∧ d = [kids] ∧ tree = .node ⟨name, .group⟩ kids .nil := by
  obtain ⟨ts, p, -, hStop⟩ := h
  rcases step_stop_cases hStop with
    (h | h | h) | ⟨t, at', hShape, -, ⟨-, h⟩ | ⟨tree, hApply, h⟩ | ⟨-, h⟩⟩
  all_goals cases h
  exact applyToken_closed hShape hApply

end Calls

/-! ## Crash freedom -/

section Crash
variable (lib : DoubleLib D) (buf : Bytes)

/-- The offsets of a caller that starts at `0` and goes on while it gets a node. What it does
with the nodes and with `errno` in between is left open. -/
inductive Offset : Nat → Prop where
  | start : Offset 0
  | next {off errno : Nat} {heap : Heap D} {r : Parsed D} (prev : Offset off)
      (call : Finishes (nodeParseSeq lib · heap errno buf off) (.ok r)) (node : r.root ≠ none) :
      Offset r.next

/-- Every one of these calls returns. -/
def CrashFree : Prop :=
  ∀ off, Offset lib buf off → ∀ heap errno, ∃ r : Parsed D,
    Finishes (nodeParseSeq lib · heap errno buf off) (.ok r)

/-- The places where a document begins: behind one that was closed, or given up inside. -/
inductive DocStart : Nat → Prop where
  | first : DocStart 0
  | closed {p stop : Nat} {d : Doc D} {t : Tree D} (prev : DocStart p)
      (read : ReadsTo lib buf p d (.closed t stop)) : DocStart (nextDocument buf stop)
  | refused {p stop : Nat} {d : Doc D} (prev : DocStart p)
      (read : ReadsTo lib buf p d (.refused stop)) (opened : d ≠ []) :
      DocStart (nextDocument buf stop)

/-- An ending that neither stops the process nor hands back an offset outside the buffer. -/
def Harmless (d : Doc D) : Ending D → Prop
  | .ended => d = []
  | .lexError => d.root.height < maxTreeDeep
  | .refused _ => True
  | .closed _ _ => True
  | .crashed => False
  | .overrun => False

/-- Every document of the buffer is read to a harmless ending. -/
def SafeBuffer : Prop :=
  ∀ p, DocStart lib buf p → ∃ d x, ReadsTo lib buf p d x ∧ Harmless d x

end Crash

section Crash
variable {lib : DoubleLib D} {buf : Bytes}

theorem DocStart.le {p : Nat} (h : DocStart lib buf p) : p ≤ buf.length := by
  cases h with
  | first => exact Nat.zero_le _
  | closed _ read => exact nextDocument_le (read.stop_lt (.inr ⟨_, rfl⟩))
  | refused _ read _ => exact nextDocument_le (read.stop_lt (.inl rfl))

/-- The caller's offsets are places where a document begins, as long as the buffer is safe. -/
theorem Offset.docStart (hLen : buf.length < 2 ^ 31) (hEnds : endsInSpace buf = true)
    (hSafe : SafeBuffer lib buf) {off : Nat} (h : Offset lib buf off) : DocStart lib buf off := by
  induction h with
  | start => exact .first
  | @next off errno heap r _ call node ih =>
    by_cases hErrno : errno = 0
    · subst hErrno
      obtain ⟨d, x, hRead, hHarmless⟩ := hSafe off ih
      have hEnding := hRead.ends hLen hEnds heap ih.le call
      cases x with
      | ended =>
        obtain ⟨root, heap', hr, -, hTree⟩ := hEnding
        cases hr
        exact absurd ((represents_ne_nil hTree).mpr (Doc.root_eq_nil.mpr hHarmless)) node
      | lexError =>
        simp only [Harmless] at hHarmless
        rw [Ends, if_pos hHarmless] at hEnding
        obtain ⟨next, heap', hr, -⟩ := hEnding
        cases hr
        exact absurd rfl node
      | refused stop =>
        obtain ⟨root, heap', hr, -, hTree⟩ := hEnding
        cases hr
        refine .refused ih hRead fun hd => node ?_
        exact (represents_ne_nil hTree).mpr (Doc.root_eq_nil.mpr hd)
      | closed t stop =>
        obtain ⟨root, heap', hr, -, hTree⟩ := hEnding
        cases hr
        exact .closed ih hRead
      | crashed | overrun => exact hHarmless.elim
    · have hNull := call.unique (nodeParseSeq_stable lib heap errno buf off)
        (finishes_refused (fun h => hErrno h.2) heap off)
      cases hNull
      exact absurd rfl node

theorem DocStart.offset (hLen : buf.length < 2 ^ 31) (hEnds : endsInSpace buf = true) {p : Nat}
    (h : DocStart lib buf p) : Offset lib buf p := by
  induction h with
  | first => exact .start
  | closed prev read ih =>
    obtain ⟨r, hEnding, hr⟩ := read.finishes hLen hEnds [] prev.le
    obtain ⟨root, heap, rfl, -, hTree⟩ := hEnding
    obtain ⟨name, kids, -, -, rfl⟩ := read.closed_tree
    refine .next ih hr fun hNull => ?_
    cases (represents_ne_nil hTree).mp hNull
  | refused prev read opened ih =>
    obtain ⟨r, hEnding, hr⟩ := read.finishes hLen hEnds [] prev.le
    obtain ⟨root, heap, rfl, -, hTree⟩ := hEnding
    refine .next ih hr fun hNull => opened ?_
    exact Doc.root_eq_nil.mp ((represents_ne_nil hTree).mp hNull)

theorem nodeParseSeq_past_end (hEnds : endsInSpace buf = true) {start : Nat}
    (h : buf.length < start) (heap : Heap D) (fuel : Nat) :
    nodeParseSeq lib fuel heap 0 buf start = .error (.assertFailed "offset past end of buffer") := by
  simp only [nodeParseSeq_eq hEnds, parseFrom, stackishParserExecute, h, if_true]
  rfl

/-- The calls on a buffer are crash free exactly when every document in it is read to a harmless
ending: no attribute comes before a group, no blob leaves the buffer or leads back for ever, the
last document is not left open, and no text that is refused follows a tree too deep to destroy. -/
theorem crashFree_iff (lib : DoubleLib D) (buf : Bytes) (hLen : buf.length < 2 ^ 31) :
    CrashFree lib buf ↔ (endsInSpace buf = true → SafeBuffer lib buf) := by
  constructor
  · intro hFree hEnds p hp
    have hLe := hp.le
    have hOffset := hp.offset hLen hEnds
    obtain ⟨r, hr⟩ := hFree p hOffset [] 0
    obtain ⟨d, x, hRead⟩ := exists_readsTo hLen hEnds [] hLe hr
    refine ⟨d, x, hRead, ?_⟩
    have hEnding := hRead.ends hLen hEnds [] hLe hr
    cases x with
    | ended =>
      obtain ⟨root, heap, hOk, -, hTree⟩ := hEnding
      cases hOk
      by_contra hOpen
      have hNode : root ≠ none := fun hNull =>
        hOpen (Doc.root_eq_nil.mp ((represents_ne_nil hTree).mp hNull))
      obtain ⟨r', -, fuel, hr'⟩ := hFree _ (.next hOffset hr hNode) [] 0
      simp only [nodeParseSeq_past_end hEnds (Nat.lt_succ_self _)] at hr'
      cases hr'
    | lexError =>
      by_contra hDeep
      simp only [Harmless] at hDeep
      rw [Ends, if_neg hDeep] at hEnding
      cases hEnding
    | refused stop => trivial
    | closed t stop => trivial
    | crashed => cases hEnding
    | overrun => cases hEnding
  · intro hSafe off hOff heap errno
    by_cases hCheck : endsInSpace buf = true ∧ errno = 0
    · obtain ⟨hEnds, rfl⟩ := hCheck
      have hStart := hOff.docStart hLen hEnds (hSafe hEnds)
      obtain ⟨d, x, hRead, hHarmless⟩ := hSafe hEnds off hStart
      obtain ⟨r, hEnding, hr⟩ := hRead.finishes hLen hEnds heap hStart.le
      cases x with
      | ended | refused | closed =>
        obtain ⟨root, heap', rfl, -⟩ := hEnding
        exact ⟨_, hr⟩
      | lexError =>
        simp only [Harmless] at hHarmless
        rw [Ends, if_pos hHarmless] at hEnding
        obtain ⟨next, heap', rfl, -⟩ := hEnding
        exact ⟨_, hr⟩
      | crashed | overrun => exact hHarmless.elim
    · exact ⟨_, finishes_refused hCheck heap off⟩

theorem not_crashFree (fuel : Nat) {off : Nat} {fault : Fault} (hOff : Offset lib buf off)
    (hRun : nodeParseSeq lib fuel [] 0 buf off = .error fault) (hFault : fault ≠ .outOfFuel) :
    ¬ CrashFree lib buf := by
  intro hFree
  obtain ⟨r, hr⟩ := hFree off hOff [] 0
  have hFinish : Finishes (nodeParseSeq lib · [] 0 buf off) (.error fault) :=
    ⟨by simpa using hFault, fuel, hRun⟩
  cases hr.unique (nodeParseSeq_stable lib [] 0 buf off) hFinish

end Crash

-- [ ]
def emptyGroup : Bytes := [91, 32, 93, 32]

theorem crashFree_emptyGroup : CrashFree noDoubles emptyGroup := by
  refine (crashFree_iff noDoubles emptyGroup (by decide)).mpr fun _ p hp => ?_
  have hRoot : ReadsTo noDoubles emptyGroup 0 [.nil] (.closed (.node ⟨none, .group⟩ .nil .nil) 2) :=
    ⟨_, _, .cons rfl (.nil _ _), rfl⟩
  have hBlank : ReadsTo noDoubles emptyGroup 3 [] .ended := ⟨_, _, .nil _ _, rfl⟩
  have hPlace : p = 0 ∨ p = 3 := by
    induction hp with
    | first => exact .inl rfl
    | closed _ read ih =>
      rcases ih with rfl | rfl
      · cases (hRoot.unique read).2
        exact .inr rfl
      · cases (hBlank.unique read).2
    | refused _ read _ ih =>
      rcases ih with rfl | rfl
      · cases (hRoot.unique read).2
      · cases (hBlank.unique read).2
  rcases hPlace with rfl | rfl
  · exact ⟨_, _, hRoot, trivial⟩
  · exact ⟨_, _, hBlank, rfl⟩

/-- An attribute before any group, a blob longer than the buffer, and a group left open. -/
theorem not_crashFree_samples :
    (¬ CrashFree noDoubles [64, 97, 32, 10]) ∧
      (¬ CrashFree noDoubles [91, 32, 39, 57, 58, 39, 32, 10]) ∧
      ¬ CrashFree noDoubles [91, 32, 10] := by
  refine ⟨?_, ?_, ?_⟩
  · exact not_crashFree 1 .start rfl (by decide)
  · exact not_crashFree 1 .start rfl (by decide)
  · have hOpen : Finishes (nodeParseSeq noDoubles · [] 0 [91, 32, 10] 0)
        (.ok ⟨some 0, 4, [⟨⟨none, .group⟩, none, none, none⟩], 0⟩) := ⟨nofun, 1, rfl⟩
    exact not_crashFree 1 (.next .start hOpen nofun) rfl (by decide)

/-! ## Accepted buffers -/

section Accept

/-- While a group is open, the buffer does not end and no token is refused. -/
def Balanced (lib : DoubleLib D) (buf : Bytes) : Prop :=
  ∀ d x, ReadsTo lib buf 0 d x → d ≠ [] → x ≠ .ended ∧ ∀ stop, x ≠ .refused stop

end Accept

end Utu.Stackish
