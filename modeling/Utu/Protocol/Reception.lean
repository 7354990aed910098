import Utu.Protocol.Handshake
import Utu.Stackish.Sequence
import Utu.Stackish.Termination

/-!
# What `FrameSource_recv` lets through

All exits of `FrameSource_recv` share one return, and nothing is taken back on
the way there. So a frame that fails after its header was parsed still hands out
the header, and one that fails behind its body hands out the body as well. The
frames on which the call does what its documentation says are characterised by
how their bytes are read.
-/

namespace Utu.Protocol
open Stackish LinkedForest Procedure
set_option autoImplicit false

section Checked
variable {D K S : Type} (env : Env D K S)

/-- `splitFrame`, which also says whether every `check` passed. -/
def splitFrameChecked (data : Bytes) : Call D K S Wire (Bool × Option Nat × Option Bytes × Option Nat) := do
  let (header, start) ← parseSeq env data 0
  if !(← check header.isSome) then return (false, none, none, header)
  let hbuf := bmidstr data 0 start
  if start < data.length then
    let (msg, stop) ← parseSeq env data start
    if !(← check msg.isSome) then return (false, msg, some hbuf, header)
    let passed ← check (stop = data.length)
    return (passed, msg, some hbuf, header)
  else
    let passed ← check (start = data.length)
    return (passed, none, some hbuf, header)

/-- `frameSourceRecv`, which also says whether every `check` passed. A closed connection fails none. -/
def frameSourceRecvChecked : Call D K S Wire (Bool × Option Nat × Option Bytes × Option Nat) := do
  let f ← nextIncoming
  if !(← io f.ready) then return (true, none, none, none)
  let rc ← io f.lengthRead
  if !(← check rc) then return (false, none, none, none)
  if !(← check (0 < f.length)) then return (false, none, none, none)
  let rc ← io f.filled
  if !(← check rc) then return (false, none, none, none)
  match f.data with
  | none =>
    let _ ← check false
    return (false, none, none, none)
  | some data =>
    if !(← check (data.length = f.length.toNat)) then return (false, none, none, none)
    splitFrameChecked env data

theorem splitFrame_eq (data : Bytes) : splitFrame env data = Prod.snd <$> splitFrameChecked env data := by
  simp only [splitFrame, splitFrameChecked, map_bind, apply_ite (Prod.snd <$> ·), map_pure]

theorem frameSourceRecv_eq : frameSourceRecv env = Prod.snd <$> frameSourceRecvChecked env := by
  simp only [frameSourceRecv, frameSourceRecvChecked, map_bind, apply_ite (Prod.snd <$> ·), map_pure, splitFrame_eq]
  congr 1
  funext f
  cases f.data <;> simp only [map_bind, apply_ite (Prod.snd <$> ·), map_pure]

end Checked

/-! ## The bytes of a frame -/

section Frame
variable {D K S : Type}

def nextFrame (w : World D K S Wire) : Incoming := w.data.incoming.headD .closed

/-- The world when the bytes of the next frame are there. -/
def arrived (w : World D K S Wire) : World D K S Wire :=
  { w with errno := 0, data := { w.data with incoming := w.data.incoming.tail } }

/-- The buffer delivers a length and as many bytes. -/
structure Delivers (f : Incoming) (data : Bytes) : Prop where
  ready : f.ready.rc = true
  lengthRead : f.lengthRead = ⟨true, 0⟩
  positive : 0 < f.length
  filled : f.filled = ⟨true, 0⟩
  bytes : f.data = some data
  length : data.length = f.length.toNat

variable {env : Env D K S} {w : World D K S Wire}

theorem returns_nextIncoming : Returns (nextIncoming (D := D) (K := K) (S := S)) w (nextFrame w)
    { w with data := { w.data with incoming := w.data.incoming.tail } } := rfl

theorem frameSourceRecvChecked_delivers {data : Bytes} (h : Delivers (nextFrame w) data) :
    frameSourceRecvChecked env w = splitFrameChecked env data (arrived w) := by
  obtain ⟨hReady, hRead, hPositive, hFilled, hData, hLength⟩ := h
  have hCheck : ∀ {c : Bool}, c = true → Returns (check c) (arrived w) true (arrived w) :=
    fun hc => returns_check_true hc rfl
  have hIo : ∀ {v : World D K S Wire} {answer : Io} {rc : Bool}, answer = ⟨rc, 0⟩ →
      Returns (io answer) v rc { v with errno := 0 } := by
    rintro v answer rc rfl
    exact returns_io.mpr ⟨rfl, rfl⟩
  rw [frameSourceRecvChecked, returns_nextIncoming.bind_apply, (returns_io.mpr ⟨rfl, rfl⟩).bind_apply, hReady]
  rw [if_neg (by decide), (hIo hRead).bind_apply]
  change (check true >>= _) (arrived w) = _
  rw [(hCheck rfl).bind_apply, if_neg (by decide), (hCheck (decide_eq_true hPositive)).bind_apply, if_neg (by decide)]
  rw [(hIo hFilled).bind_apply]
  change (check true >>= _) (arrived w) = _
  rw [(hCheck rfl).bind_apply, if_neg (by decide), hData]
  change (check (decide (data.length = (nextFrame w).length.toNat)) >>= _) (arrived w) = _
  rw [(hCheck (decide_eq_true hLength)).bind_apply, if_neg (by decide)]

theorem Io.eq_ok {answer : Io} (h : (answer.rc && answer.errno == 0) = true) : answer = ⟨true, 0⟩ := by
  obtain ⟨rc, errno⟩ := answer
  simp only [Bool.and_eq_true, beq_iff_eq] at h
  obtain ⟨rfl, rfl⟩ := h
  rfl

/-- Without the bytes of a frame nothing is handed out. -/
theorem frameSourceRecvChecked_undelivered (env : Env D K S) (h : ∀ data, ¬Delivers (nextFrame w) data) :
    Yields (frameSourceRecvChecked env) w fun r _ => r.2 = (none, none, none) := by
  refine returns_nextIncoming.then ((returns_io.mpr ⟨rfl, rfl⟩).then (yields_ite (fun _ => yields_pure rfl) ?_))
  intro hReady
  refine (returns_io.mpr ⟨rfl, rfl⟩).then (yields_checkElse (fun _ => yields_pure rfl) ?_)
  intro hRead
  refine yields_checkElse (fun _ => yields_pure rfl) ?_
  intro hPositive
  refine (returns_io.mpr ⟨rfl, rfl⟩).then (yields_checkElse (fun _ => yields_pure rfl) ?_)
  intro hFilled
  cases hData : (nextFrame w).data with
  | none => exact (returns_check.mpr ⟨rfl, rfl⟩).then (yields_pure rfl)
  | some data =>
    refine yields_checkElse (fun _ => yields_pure rfl) ?_
    intro hLength
    simp only [World.clear_errno, BEq.rfl, Bool.and_true, decide_eq_true_eq] at hPositive hLength
    refine absurd ⟨by simpa using hReady, Io.eq_ok hRead, hPositive, Io.eq_ok hFilled, hData, hLength⟩ (h data)

/-- What is handed out when the header was parsed to `p`. -/
inductive Split (env : Env D K S) (data : Bytes) (p : Parsed D) : Bool × Option Nat × Option Bytes × Option Nat → Prop
  | noHeader (hRoot : p.root = none) : Split env data p (false, none, none, none)
  | noBody {node : Nat} (hRoot : p.root = some node) (hNext : data.length ≤ p.next) :
      Split env data p (decide (p.next = data.length), none, some (data.take p.next), some node)
  | body {node : Nat} {q : Parsed D} (hRoot : p.root = some node) (hNext : p.next < data.length)
      (hBody : nodeParseSeq env.lib env.fuel p.heap 0 data p.next = .ok q) :
      Split env data p (q.root.isSome && decide (q.next = data.length), q.root, some (data.take p.next), some node)

theorem splitFrameChecked_split {data : Bytes} (hLen : data.length < 2 ^ 31) (hErrno : w.errno = 0)
    {r : Bool × Option Nat × Option Bytes × Option Nat} {w' : World D K S Wire}
    (h : Returns (splitFrameChecked env data) w r w') :
    ∃ p, nodeParseSeq env.lib env.fuel w.heap 0 data 0 = .ok p ∧ Split env data p r := by
  obtain ⟨⟨header, start⟩, w₁, hHeader, h⟩ := returns_bind.mp h
  obtain ⟨p, hParse, hr, rfl⟩ := returns_parseSeq.mp hHeader
  cases hr
  rw [hErrno] at hParse
  refine ⟨p, hParse, ?_⟩
  have hClear := (nodeParseSeq_ok hLen (Nat.zero_le _) hParse).2.1
  rcases returns_checkElse.mp h with ⟨hSome, h⟩ | ⟨hSome, h⟩
  · obtain ⟨rfl, -⟩ := returns_pure.mp h
    have hRoot : p.root = none := by simpa [hClear] using hSome
    rw [hRoot]
    exact .noHeader hRoot
  · have hRoot : ∃ node, p.root = some node := by simpa [hClear, Option.isSome_iff_exists] using hSome
    obtain ⟨node, hRoot⟩ := hRoot
    rcases returns_ite.mp h with ⟨hNext, h⟩ | ⟨hNext, h⟩
    · obtain ⟨⟨msg, stop⟩, w₂, hMsg, h⟩ := returns_bind.mp h
      obtain ⟨q, hBody, hr, rfl⟩ := returns_parseSeq.mp hMsg
      cases hr
      have hClear' := (nodeParseSeq_ok hLen (Nat.le_of_lt hNext) hBody).2.1
      have hSplit := Split.body hRoot hNext hBody
      rcases returns_checkElse.mp h with ⟨hMsg, h⟩ | ⟨hMsg, h⟩
      · obtain ⟨rfl, -⟩ := returns_pure.mp h
        have hNone : q.root = none := by simpa [hClear'] using hMsg
        rw [hNone] at hSplit ⊢
        rw [hRoot]
        exact hSplit
      · simp only [returns_bind, returns_check, returns_pure] at h
        obtain ⟨b, t, ⟨rfl, -⟩, rfl, -⟩ := h
        have hSome : q.root.isSome = true := by simpa [hClear'] using hMsg
        rw [hSome] at hSplit
        simpa [hRoot, bmidstr] using hSplit
    · simp only [returns_bind, returns_check, returns_pure] at h
      obtain ⟨b, t, ⟨rfl, -⟩, rfl, -⟩ := h
      simpa [hRoot, bmidstr] using Split.noBody hRoot (Nat.not_lt.mp hNext)

theorem splitFrameChecked_yields {data : Bytes} (hLen : data.length < 2 ^ 31) (hErrno : w.errno = 0) {p : Parsed D}
    (hParse : nodeParseSeq env.lib env.fuel w.heap 0 data 0 = .ok p)
    {r : Bool × Option Nat × Option Bytes × Option Nat} (h : Split env data p r) :
    Yields (splitFrameChecked env data) w fun r' _ => r' = r := by
  have hClear := (nodeParseSeq_ok hLen (Nat.zero_le _) hParse).2.1
  refine (returns_parseSeq.mpr ⟨p, by rw [hErrno]; exact hParse, rfl, rfl⟩).then ?_
  cases h with
  | noHeader hRoot =>
    refine yields_checkElse (fun _ => yields_pure ?_) (fun hSome => ?_)
    · rw [hRoot]
    · rw [hRoot] at hSome
      cases hSome
  | noBody hRoot hNext =>
    refine yields_checkElse (fun hSome => ?_) (fun _ => yields_ite (fun hLess => absurd hLess (by omega)) fun _ => ?_)
    · simp [hRoot, hClear] at hSome
    · refine (returns_check.mpr ⟨rfl, rfl⟩).then (yields_pure ?_)
      simp [hRoot, bmidstr]
  | @body node q hRoot hNext hBody =>
    have hClear' := (nodeParseSeq_ok hLen (Nat.le_of_lt hNext) hBody).2.1
    refine yields_checkElse (fun hSome => ?_) (fun _ => yields_ite (fun _ => ?_) fun hNot => absurd hNext hNot)
    · simp [hRoot, hClear] at hSome
    refine (returns_parseSeq.mpr ⟨_, hBody, rfl, rfl⟩).then (yields_checkElse (fun hMsg => ?_) fun hMsg => ?_)
    · have hNone : q.root = none := by simpa [hClear'] using hMsg
      refine yields_pure ?_
      simp [hRoot, hNone, bmidstr]
    · have hSome : q.root.isSome = true := by simpa [hClear'] using hMsg
      refine (returns_check.mpr ⟨rfl, rfl⟩).then (yields_pure ?_)
      simp [hRoot, hSome, bmidstr]

end Frame

/-! ## Strict reception -/

section Strict
variable {D K S : Type}

/-- One structure stands between `a` and `b`: its blobs lie inside, and behind it there are only blanks. -/
def OneStructure (lib : DoubleLib D) (data : Bytes) (a b : Nat) : Prop :=
  NoWrap lib data a ∧ ∃ t e, StructureAt lib data a t e ∧ Blank data e b

/-- The call returns. It gives a body only for a frame of two structures, the first of them the raw header,
and after a failed `check` it gives nothing. -/
def StrictReception (env : Env D K S) (w : World D K S Wire) : Prop :=
  ∃ passed msg hbuf header w',
    Finishes (fun fuel => frameSourceRecvChecked { env with fuel } w) (.ok ((passed, msg, hbuf, header), w')) ∧
    (msg ≠ none → ∃ data s, (nextFrame w).data = some data ∧ hbuf = some (data.take s) ∧
      OneStructure env.lib data 0 s ∧ OneStructure env.lib data s data.length) ∧
    (passed = false → msg = none ∧ hbuf = none ∧ header = none)

/-- Reading gives no node: not before the end, not before a token is refused, or not at all. -/
def NoNode (d : Doc D) : Ending D → Prop
  | .ended => d = []
  | .refused _ => d = []
  | .lexError => d.root.height < maxTreeDeep
  | _ => False

/-- One structure stands at `p`, and the byte that ends it with the newlines behind lead to `q`. -/
def FramedAt (lib : DoubleLib D) (data : Bytes) (p q : Nat) : Prop :=
  NoWrap lib data p ∧ ∃ d t stop, ReadsTo lib data p d (.closed t stop) ∧ nextDocument data stop = q ∧
    Blank data (stop + closer t) q

/-- The frames that are received as they should: there is no header to parse, the header is all there is, or
a header and a body fill the frame. -/
inductive StrictFrame (lib : DoubleLib D) (data : Bytes) : Prop
  | unterminated (hEnds : endsInSpace data = false)
  | noHeader {d : Doc D} {x : Ending D} (hRead : ReadsTo lib data 0 d x) (hNone : NoNode d x)
  | headerOnly {d : Doc D} {x : Ending D} {stop : Nat} (hRead : ReadsTo lib data 0 d x)
      (hStop : x = .refused stop ∨ ∃ t, x = .closed t stop) (hAll : nextDocument data stop = data.length)
  | both {s : Nat} (hHeader : FramedAt lib data 0 s) (hBody : FramedAt lib data s data.length)

theorem FramedAt.oneStructure {lib : DoubleLib D} {data : Bytes} {p q : Nat} (h : FramedAt lib data p q) :
    OneStructure lib data p q := by
  obtain ⟨hWrap, d, t, stop, hRead, -, hBlank⟩ := h
  exact ⟨hWrap, t, _, ⟨d, stop, hRead, rfl⟩, hBlank⟩

theorem OneStructure.le {lib : DoubleLib D} {data : Bytes} {p q : Nat} (h : OneStructure lib data p q) :
    q ≤ data.length := by
  obtain ⟨-, t, e, -, hBlank⟩ := h
  exact hBlank.2.1

theorem Delivers.length_lt {f : Incoming} {data : Bytes} (h : Delivers f data) : data.length < 2 ^ 31 := by
  rw [h.length]
  exact Nat.lt_trans f.length.toNat_lt (by decide)

theorem take_inj_of_le {data : Bytes} {s s' : Nat} (hs : s ≤ data.length) (hs' : s' ≤ data.length)
    (h : data.take s = data.take s') : s = s' := by
  have hLength := congrArg List.length h
  rw [List.length_take, List.length_take] at hLength
  omega

variable {env : Env D K S} {w : World D K S Wire} {data : Bytes}

/-- Two structures, and the two calls that went over them. -/
theorem framedAt_both (hLen : data.length < 2 ^ 31) (hEnds : endsInSpace data = true) {lib : DoubleLib D} {s stop : Nat}
    {d : Doc D} {x : Ending D} (hRead : ReadsTo lib data 0 d x) (hStop : x = .refused stop ∨ ∃ t, x = .closed t stop)
    (hNext : nextDocument data stop = s) {heap : Heap D} {q : Parsed D} (hs : s ≤ data.length)
    (hBody : Finishes (nodeParseSeq lib · heap 0 data s) (.ok q)) (hEnd : q.next = data.length)
    (hOne : OneStructure lib data 0 s) (hTwo : OneStructure lib data s data.length) :
    FramedAt lib data 0 s ∧ FramedAt lib data s data.length := by
  obtain ⟨hWrap₁, t₁, -, ⟨d₁, stop₁, hRead₁, rfl⟩, hBlank₁⟩ := hOne
  obtain ⟨hWrap₂, t₂, -, ⟨d₂, stop₂, hRead₂, rfl⟩, hBlank₂⟩ := hTwo
  constructor
  · refine ⟨hWrap₁, d₁, t₁, stop₁, hRead₁, ?_, hBlank₁⟩
    obtain ⟨-, rfl⟩ := hRead₁.unique hRead
    rcases hStop with hStop | ⟨t, hStop⟩ <;> cases hStop
    exact hNext
  · obtain ⟨root, heap', hOk, -, -⟩ := hRead₂.ends hLen hEnds heap hs hBody
    cases hOk
    exact ⟨hWrap₂, d₂, t₂, stop₂, hRead₂, hEnd, hBlank₂⟩

theorem strictFrame_of_strict (hDelivers : Delivers (nextFrame w) data) (h : StrictReception env w) :
    StrictFrame env.lib data := by
  have hLen := hDelivers.length_lt
  obtain ⟨passed, msg, hbuf, header, w', ⟨-, fuel, hRun⟩, hMsg, hFail⟩ := h
  have hReturns := (frameSourceRecvChecked_delivers hDelivers).symm.trans hRun
  obtain ⟨p, hParse, hSplit⟩ := splitFrameChecked_split hLen rfl hReturns
  by_cases hEnds : endsInSpace data = true
  case neg => exact .unterminated (by simpa using hEnds)
  have hFinishes : Finishes (nodeParseSeq env.lib · (arrived w).heap 0 data 0) (.ok p) := ⟨by simp, fuel, hParse⟩
  obtain ⟨d, x, hRead⟩ := exists_readsTo hLen hEnds _ (Nat.zero_le _) hFinishes
  have hEnding := hRead.ends hLen hEnds _ (Nat.zero_le _) hFinishes
  -- a parse that stopped inside the frame
  have hInside : ∀ stop, (x = .refused stop ∨ ∃ t, x = .closed t stop) → p.next = nextDocument data stop →
      (p.root = none → NoNode d x) → StrictFrame env.lib data := by
    intro stop hStop hNext hNone
    have hLe := nextDocument_le (hRead.stop_lt hStop)
    cases hSplit with
    | noHeader hRoot => exact .noHeader hRead (hNone hRoot)
    | noBody hRoot hLess => exact .headerOnly hRead hStop (by omega)
    | @body node q hRoot hLess hBody =>
      cases hPassed : q.root.isSome && decide (q.next = data.length) with
      | false =>
        obtain ⟨-, hNull, -⟩ := hFail hPassed
        cases hNull
      | true =>
        simp only [Bool.and_eq_true, decide_eq_true_eq] at hPassed
        obtain ⟨data', s, hData, hHbuf, hOne, hTwo⟩ := hMsg (Option.isSome_iff_ne_none.mp hPassed.1)
        rw [hDelivers.bytes] at hData
        cases hData
        obtain rfl : p.next = s := take_inj_of_le (by omega) hOne.le (Option.some.inj hHbuf)
        obtain ⟨hFirst, hSecond⟩ := framedAt_both hLen hEnds hRead hStop hNext.symm (by omega) ⟨by simp, fuel, hBody⟩
          hPassed.2 hOne hTwo
        exact .both hFirst hSecond
  cases x with
  | ended =>
    obtain ⟨root, heap, hOk, -, hTree⟩ := hEnding
    cases hOk
    cases hSplit with
    | noHeader hRoot =>
      refine .noHeader hRead (Doc.root_eq_nil.mp ((represents_ne_nil hTree).mp hRoot))
    | noBody hRoot hNext =>
      obtain ⟨-, hNull, -⟩ := hFail (decide_eq_false (by simp))
      cases hNull
    | body hRoot hLess => exact absurd hLess (by simp)
  | lexError =>
    simp only [Ends] at hEnding
    split at hEnding
    · rename_i hHeight
      exact .noHeader hRead hHeight
    · cases hEnding
  | refused stop =>
    obtain ⟨root, heap, hOk, -, hTree⟩ := hEnding
    cases hOk
    exact hInside stop (.inl rfl) rfl fun hRoot => Doc.root_eq_nil.mp ((represents_ne_nil hTree).mp hRoot)
  | closed t stop =>
    obtain ⟨root, heap, hOk, -, hTree⟩ := hEnding
    cases hOk
    refine hInside stop (.inr ⟨t, rfl⟩) rfl fun hRoot => ?_
    obtain ⟨name, kids, -, -, rfl⟩ := hRead.closed_tree
    cases (represents_ne_nil hTree).mp hRoot
  | crashed | overrun => cases hEnding

theorem strict_of_split (hDelivers : Delivers (nextFrame w) data) {fuel : Nat} {p : Parsed D}
    (hParse : nodeParseSeq env.lib fuel w.heap 0 data 0 = .ok p) {passed : Bool} {msg header : Option Nat}
    {hbuf : Option Bytes} (hSplit : Split { env with fuel } data p (passed, msg, hbuf, header))
    (hMsg : msg ≠ none → ∃ s, hbuf = some (data.take s) ∧ OneStructure env.lib data 0 s ∧
      OneStructure env.lib data s data.length)
    (hFail : passed = false → msg = none ∧ hbuf = none ∧ header = none) : StrictReception env w := by
  obtain ⟨r, w', hReturns, rfl⟩ := splitFrameChecked_yields (w := arrived w) hDelivers.length_lt rfl hParse hSplit
  refine ⟨passed, msg, hbuf, header, w', ⟨by simp, fuel, ?_⟩, fun hSome => ?_, hFail⟩
  · exact (frameSourceRecvChecked_delivers hDelivers).trans hReturns
  · obtain ⟨s, hs⟩ := hMsg hSome
    exact ⟨data, s, hDelivers.bytes, hs⟩

theorem strict_of_noHeader (hDelivers : Delivers (nextFrame w) data) {fuel : Nat} {p : Parsed D}
    (hParse : nodeParseSeq env.lib fuel w.heap 0 data 0 = .ok p) (hRoot : p.root = none) : StrictReception env w :=
  strict_of_split hDelivers hParse (.noHeader hRoot) (fun h => absurd rfl h) fun _ => ⟨rfl, rfl, rfl⟩

theorem strict_of_unterminated (hDelivers : Delivers (nextFrame w) data) (hEnds : endsInSpace data = false) :
    StrictReception env w := by
  have hRefused : ¬(endsInSpace data = true ∧ 0 = 0) := by simp [hEnds]
  exact strict_of_noHeader hDelivers (nodeParseSeq_refused hRefused 0 w.heap 0) rfl

/-- A header that ends the frame is handed out alone. -/
theorem strict_of_headerOnly (hDelivers : Delivers (nextFrame w) data) {fuel : Nat} {p : Parsed D}
    (hParse : nodeParseSeq env.lib fuel w.heap 0 data 0 = .ok p) (hNext : p.next = data.length) :
    StrictReception env w := by
  cases hRoot : p.root with
  | none => exact strict_of_noHeader hDelivers hParse hRoot
  | some node =>
    refine strict_of_split hDelivers hParse (.noBody hRoot (Nat.le_of_eq hNext.symm)) (fun h => absurd rfl h) ?_
    intro hFail
    exact absurd hNext (of_decide_eq_false hFail)

theorem strict_of_strictFrame (hDelivers : Delivers (nextFrame w) data) (h : StrictFrame env.lib data) :
    StrictReception env w := by
  have hLen := hDelivers.length_lt
  by_cases hEnds : endsInSpace data = true
  case neg => exact strict_of_unterminated hDelivers (by simpa using hEnds)
  cases h with
  | unterminated hNot => exact strict_of_unterminated hDelivers hNot
  | @noHeader d x hRead hNone =>
    obtain ⟨r, hEnding, -, fuel, rfl⟩ := hRead.finishes hLen hEnds w.heap (Nat.zero_le _)
    cases x with
    | ended | refused =>
      obtain ⟨root, heap, hOk, -, hTree⟩ := hEnding
      exact strict_of_noHeader hDelivers hOk ((represents_ne_nil hTree).mpr (Doc.root_eq_nil.mpr hNone))
    | lexError =>
      have hHeight : d.root.height < maxTreeDeep := hNone
      simp only [Ends, if_pos hHeight] at hEnding
      obtain ⟨next, heap, hOk, -⟩ := hEnding
      exact strict_of_noHeader hDelivers hOk rfl
    | closed | crashed | overrun => cases hNone
  | headerOnly hRead hStop hAll =>
    obtain ⟨r, hEnding, -, fuel, rfl⟩ := hRead.finishes hLen hEnds w.heap (Nat.zero_le _)
    rcases hStop with rfl | ⟨t, rfl⟩
    all_goals
      obtain ⟨root, heap, hOk, -, -⟩ := hEnding
      exact strict_of_headerOnly hDelivers hOk hAll
  | @both s hHeader hBody =>
    have hOne := hHeader.oneStructure
    have hTwo := hBody.oneStructure
    obtain ⟨-, d₁, t₁, stop₁, hRead₁, rfl, -⟩ := hHeader
    obtain ⟨-, d₂, t₂, stop₂, hRead₂, hEnd, -⟩ := hBody
    have hLess : nextDocument data stop₁ < data.length := by
      obtain ⟨c, hc, -⟩ := hRead₂.head
      exact (List.getElem?_eq_some_iff.mp hc).1
    obtain ⟨r₁, ⟨root₁, heap₁, hOk₁, -, hTree₁⟩, hFuel₁, fuel₁, rfl⟩ :=
      hRead₁.finishes hLen hEnds w.heap (Nat.zero_le _)
    obtain ⟨r₂, ⟨root₂, heap₂, hOk₂, -, hTree₂⟩, hFuel₂, fuel₂, rfl⟩ :=
      hRead₂.finishes hLen hEnds heap₁ (Nat.le_of_lt hLess)
    have hParse₁ := ((nodeParseSeq_stable env.lib w.heap 0 data 0).add hFuel₁ fuel₂).trans hOk₁
    have hParse₂ := ((nodeParseSeq_stable env.lib heap₁ 0 data _).add hFuel₂ fuel₁).trans hOk₂
    rw [Nat.add_comm] at hParse₂
    obtain ⟨name₁, kids₁, -, -, rfl⟩ := hRead₁.closed_tree
    obtain ⟨name₂, kids₂, -, -, rfl⟩ := hRead₂.closed_tree
    cases root₁ with
    | none => cases (represents_ne_nil hTree₁).mp rfl
    | some header =>
      cases root₂ with
      | none => cases (represents_ne_nil hTree₂).mp rfl
      | some msg =>
        refine strict_of_split hDelivers hParse₁ (.body rfl hLess hParse₂) (fun _ => ⟨_, rfl, hOne, hTwo⟩) ?_
        intro hFail
        exact absurd hEnd (by simpa [nextDocument] using hFail)

/-- A frame is received strictly exactly when its bytes, if they are delivered, hold no header at all, a header
that fills the frame, or a header and a body that fill it. -/
theorem strictReception_iff (env : Env D K S) (w : World D K S Wire) :
    StrictReception env w ↔ ∀ data, Delivers (nextFrame w) data → StrictFrame env.lib data := by
  constructor
  · intro h data hDelivers
    exact strictFrame_of_strict hDelivers h
  · intro h
    by_cases hDelivered : ∃ data, Delivers (nextFrame w) data
    · obtain ⟨data, hDelivers⟩ := hDelivered
      exact strict_of_strictFrame hDelivers (h data hDelivers)
    · obtain ⟨⟨passed, msg, hbuf, header⟩, w', hReturns, hNull⟩ :=
        frameSourceRecvChecked_undelivered { env with fuel := 0 } (not_exists.mp hDelivered)
      cases hNull
      exact ⟨passed, none, none, none, w', ⟨by simp, 0, hReturns⟩, fun h => absurd rfl h, fun _ => ⟨rfl, rfl, rfl⟩⟩

end Strict

/-- `[ a [ b ` and one more blank. -/
def trailingFrame : Bytes := [91, 32, 97, 32, 91, 32, 98, 32, 32]

def trailingWire : Wire := ⟨[⟨⟨true, 0⟩, ⟨true, 0⟩, 9, ⟨true, 0⟩, some trailingFrame⟩], []⟩

/-- The `check` for trailing data fails, and body, raw header and header are handed out all the same. -/
theorem not_strictReception_trailing :
    (∃ w', Returns (frameSourceRecvChecked sampleEnv) (sampleWorld [] trailingWire)
      (false, some 1, some [91, 32, 97, 32], some 0) w') ∧
      ¬StrictReception sampleEnv (sampleWorld [] trailingWire) := by
  constructor
  · apply exists_returns
    decide +kernel
  intro hStrict
  have hDelivers : Delivers (nextFrame (sampleWorld [] trailingWire)) trailingFrame :=
    ⟨rfl, rfl, by decide, rfl, rfl, rfl⟩
  have hHeader : ReadsTo noDoubles trailingFrame 0 [.nil] (.closed (namedGroup [97]) 3) :=
    ⟨[.start], 1, .cons rfl (.nil 1 _), rfl⟩
  have hBody : ReadsTo noDoubles trailingFrame 4 [.nil] (.closed (namedGroup [98]) 7) :=
    ⟨[.start], 5, .cons rfl (.nil 5 _), rfl⟩
  cases strictFrame_of_strict hDelivers hStrict with
  | unterminated hEnds => cases hEnds
  | noHeader hRead hNone =>
    obtain ⟨-, rfl⟩ := hRead.unique hHeader
    cases hNone
  | headerOnly hRead hStop hAll =>
    obtain ⟨-, rfl⟩ := hRead.unique hHeader
    rcases hStop with hStop | ⟨t, hStop⟩ <;> cases hStop
    revert hAll
    decide
  | both hFirst hSecond =>
    obtain ⟨-, d, t, stop, hRead, rfl, -⟩ := hFirst
    obtain ⟨-, hSame⟩ := hRead.unique hHeader
    cases hSame
    obtain ⟨-, d, t, stop, hRead, hAll, -⟩ := hSecond
    obtain ⟨-, hSame⟩ := hRead.unique hBody
    cases hSame
    revert hAll
    decide

end Utu.Protocol
