import Utu.Client.Proxy
import Utu.Protocol.Sending
import Utu.Stackish.Canonical

/-!
# Frames between hub and client

The hub writes a frame with `FrameSource_send`, the client with
`write_header_node`, and the body ends in a newline only in the first of the
two. Either frame is read by `FrameSource_recv` and by `readnodes`, which cut it
in different ways: one takes the bytes up to the next structure for the header,
the other prints the parsed header again.
-/

namespace Utu.Client
open Stackish Protocol LinkedForest Procedure
set_option autoImplicit false

/-! ## The text of a named document -/

section Text
variable {D : Type} {lib : DoubleLib D}

/-- What `Node_bstr(t, 1)` returns. -/
def encoding (t : Document D) : Bytes := text (tokens t.tree) ++ [10]

theorem tokenText_length_le {ts : List (Token D)} {t : Token D} (h : t ∈ ts) :
    (tokenText t).length ≤ (text ts).length := by
  obtain ⟨before, behind, rfl⟩ := List.append_of_mem h
  simp only [text_append, text_cons, List.length_append]
  omega

/-- A short text has room for all its tokens. -/
theorem fits_of_short {t : Document D} (h : (text (tokens t.tree)).length ≤ 65535) : Fits t.tree := by
  refine ⟨fun tok hTok => ?_, by simp only [intMax]; omega⟩
  have hLength := tokenText_length_le hTok
  cases tok with
  | string s =>
    simp only [tokenText, List.length_append, List.length_cons, List.length_nil] at hLength
    refine decide_eq_true ?_
    simp only [intMax]
    omega
  | word w | attrib w =>
    simp only [tokenText] at hLength
    refine decide_eq_true ?_
    simp only [intMax]
    omega
  | number | float | blob | start | group => rfl

theorem Document.floatFree_tree (t : Document D) : FloatFree t.tree := ⟨rfl, t.floatFree, trivial⟩

theorem nodeBstr_encoding {t : Document D} (hShort : (text (tokens t.tree)).length ≤ 65535) {heap : Heap D}
    {root : Option Nat} (hTree : Represents heap none root t.tree) :
    nodeBstr lib heap root true = .ok (encoding t) := by
  obtain ⟨hFits, hTotal⟩ := fits_of_short hShort
  rw [nodeBstr_ok_iff (Document.floatFree_tree t) (by simp [Document.tree]) hTree, Writable,
    written_of_fits hFits]
  exact ⟨⟨fun tok hTok => .inr (hFits tok hTok), hTotal⟩, rfl⟩

theorem nodeCatbstr_text {t : Document D} (hShort : (text (tokens t.tree)).length ≤ 65535) {heap : Heap D}
    {root : Option Nat} (hTree : Represents heap none root t.tree) {str : Bytes} (hStr : str.length ≤ 65535) :
    nodeCatbstr lib heap (heap.length + 1) str root 32 true = .ok (str ++ text (tokens t.tree)) := by
  rw [nodeCatbstr_represents hTree]
  refine catTree_fits lib str (Document.floatFree_tree t) (fits_of_short hShort).1 ?_
  simp only [intMax]
  omega

/-- A word is read up to the blank behind it. -/
theorem step_word (lib : DoubleLib D) {buf : Bytes} {p : Nat} {blanks w rest : Bytes}
    (hBlanks : ∀ c ∈ blanks, isSpace c = true) (hw : isWord w = true)
    (hAt : At buf p (blanks ++ (w ++ 32 :: rest))) (d : Doc D) :
    step lib buf p d = stepToken (.word w) (p + (blanks.length + w.length)) (p + (blanks.length + w.length)) d := by
  simp only [step, hAt.drop, lex_blanks lib hBlanks, lex_word hw, Lexed.shift]

/-- A document with a word for its name is read to the blank behind that word. -/
theorem readsTo_named (lib : DoubleLib D) (t : Document D) (hName : t.name ≠ none) {front tail : Bytes}
    (hLen : (front ++ (text (tokens t.tree) ++ tail)).length < 2 ^ 31) :
    ∃ stop d, stop + 1 = front.length + (text (tokens t.tree)).length ∧
      ReadsTo lib (front ++ (text (tokens t.tree) ++ tail)) front.length d (.closed t.tree stop) := by
  obtain ⟨w, hName⟩ := Option.ne_none_iff_exists'.mp hName
  have hw := t.rootName w hName
  have hTokens : tokens t.tree = (.start :: tokens t.kids) ++ [.word w] := by
    simp [Document.tree, hName, tokens, startTokens, valueTokens, bchar_word hw, nameTokens_word hw]
  have hPlain : printedTree t.kids = t.kids := (printedTree_eq_iff t.shaped).mpr t.plain
  have hInit : applyAll (.start :: tokens t.kids) [] = some [t.kids] := by
    have hKids := applyAll_tokens t.shaped t.floatFree .nil []
    rw [graft_nil, hPlain] at hKids
    exact hKids
  have hPrintable : ∀ tok ∈ Token.start :: tokens t.kids, Printable tok := by
    intro tok hTok
    rcases List.mem_cons.mp hTok with rfl | hTok
    · trivial
    · exact tokens_printable t.shaped t.floatFree tok hTok
  generalize hBuf : front ++ (text (tokens t.tree) ++ tail) = buf at hLen
  have hSplit : text (tokens t.tree) ++ tail =
      [] ++ (text (.start :: tokens t.kids) ++ ([] ++ (w ++ 32 :: tail))) := by
    rw [hTokens]
    simp [tokenText]
  have hAt : At buf front.length ([] ++ (text (.start :: tokens t.kids) ++ ([] ++ (w ++ 32 :: tail)))) := by
    rw [← hSplit, ← hBuf]
    exact ⟨List.drop_left, (List.length_append).symm⟩
  obtain ⟨q, blanks, hReads, hBlanks, hAtLast⟩ := reads_text lib hLen hPrintable (by simp) hAt hInit
  have hStep := step_word lib hBlanks hw hAtLast [t.kids]
  have hEnd := (hAtLast.append blanks).append w
  refine ⟨q + blanks.length + w.length, [t.kids], ?_, .start :: tokens t.kids, q, hReads, ?_⟩
  · have hLength := hEnd.length
    rw [← hBuf] at hLength
    simp only [List.length_append, List.length_cons] at hLength
    omega
  · rw [hStep, Document.tree, hName, Nat.add_assoc]
    rfl

/-- What stands behind the body of a frame: a newline on the hub, nothing on the client. -/
def bodyEnd (fromHub : Bool) : Bytes := if fromHub then [10] else []

def frameData (header body : Document D) (fromHub : Bool) : Bytes :=
  encoding header ++ (text (tokens body.tree) ++ bodyEnd fromHub)

section Frame
variable {header body : Document D} {fromHub : Bool}

theorem text_document (t : Document D) : ∃ rest, text (tokens t.tree) = 91 :: rest ++ [32] := by
  obtain ⟨last, -, -, hTokens⟩ := tokens_document t
  refine ⟨32 :: text (tokens t.kids) ++ tokenText last, ?_⟩
  simp [hTokens, tokenText]

theorem endsInSpace_frameData : endsInSpace (frameData header body fromHub) = true := by
  obtain ⟨rest, hText⟩ := text_document body
  cases fromHub with
  | true =>
    rw [frameData, bodyEnd, if_pos rfl, ← List.append_assoc]
    exact endsInSpace_newline _
  | false =>
    rw [frameData, bodyEnd, if_neg (by decide), List.append_nil, hText, ← List.append_assoc, endsInSpace,
      List.getLast?_append]
    rfl

theorem nextDocument_header (body : Document D) (fromHub : Bool) {stop : Nat}
    (hStop : stop + 1 = (text (tokens header.tree)).length) :
    nextDocument (frameData header body fromHub) stop = (encoding header).length := by
  obtain ⟨rest, hText⟩ := text_document body
  have hDrop : (frameData header body fromHub).drop (stop + 1) =
      10 :: (91 :: rest ++ [32] ++ bodyEnd fromHub) := by
    rw [hStop, frameData, encoding, hText, List.append_assoc, List.drop_left]
    rfl
  rw [nextDocument, hDrop, skipNewlines, hStop, encoding]
  simp

theorem nextDocument_body (fromHub : Bool) {stop : Nat}
    (hStop : stop + 1 = (encoding header).length + (text (tokens body.tree)).length) :
    nextDocument (frameData header body fromHub) stop = (frameData header body fromHub).length := by
  have hDrop : (frameData header body fromHub).drop (stop + 1) = bodyEnd fromHub := by
    rw [hStop, frameData, ← List.append_assoc, ← List.length_append, List.drop_left]
  rw [nextDocument, hDrop, skipNewlines, hStop, frameData, List.length_append, List.length_append]
  cases fromHub with
  | true =>
    simp [bodyEnd]
    omega
  | false => simp [bodyEnd]

/-- Both calls of `Node_parse_seq` on a frame: the first ends where the header's text does, and
the second at the end of the frame. -/
theorem frameData_parses (lib : DoubleLib D) (hHeader : header.name ≠ none) (hBody : body.name ≠ none)
    (hLen : (frameData header body fromHub).length < 2 ^ 31) (heap : Heap D) :
    ∃ fuel h m heap₁ heap₂,
      nodeParseSeq lib fuel heap 0 (frameData header body fromHub) 0 =
        .ok ⟨some h, (encoding header).length, heap₁, 0⟩ ∧
      nodeParseSeq lib fuel heap₁ 0 (frameData header body fromHub) (encoding header).length =
        .ok ⟨some m, (frameData header body fromHub).length, heap₂, 0⟩ ∧
      Represents heap₂ none (some h) header.tree ∧ Represents heap₂ none (some m) body.tree := by
  have hSpace : endsInSpace (frameData header body fromHub) = true := endsInSpace_frameData
  have hFront : frameData header body fromHub =
      [] ++ (text (tokens header.tree) ++ ([10] ++ (text (tokens body.tree) ++ bodyEnd fromHub))) := by
    simp [frameData, encoding]
  obtain ⟨stop₁, d₁, hStop₁, hRead₁⟩ := readsTo_named lib header hHeader (hFront ▸ hLen)
  obtain ⟨stop₂, d₂, hStop₂, hRead₂⟩ := readsTo_named lib body hBody hLen
  rw [← hFront] at hRead₁
  rw [List.length_nil, Nat.zero_add] at hStop₁
  have hInside : (encoding header).length ≤ (frameData header body fromHub).length := by
    rw [frameData, List.length_append]
    omega
  obtain ⟨r₁, ⟨root₁, heap₁, hOk₁, -, hTree₁⟩, hFuel₁, fuel₁, rfl⟩ :=
    hRead₁.finishes hLen hSpace heap (Nat.zero_le _)
  obtain ⟨r₂, ⟨root₂, heap₂, hOk₂, hExtends, hTree₂⟩, hFuel₂, fuel₂, rfl⟩ :=
    hRead₂.finishes hLen hSpace heap₁ hInside
  have hNext₁ := nextDocument_header body fromHub hStop₁
  have hNext₂ := nextDocument_body fromHub hStop₂
  have hParse₁ := ((nodeParseSeq_stable lib heap 0 _ 0).add hFuel₁ fuel₂).trans hOk₁
  have hParse₂ := ((nodeParseSeq_stable lib heap₁ 0 _ _).add hFuel₂ fuel₁).trans hOk₂
  rw [Nat.add_comm] at hParse₂
  rw [nextDocument] at hNext₁ hNext₂
  rw [hNext₁] at hParse₁
  rw [hNext₂] at hParse₂
  cases root₁ with
  | none => cases (represents_ne_nil hTree₁).mp rfl
  | some h =>
    cases root₂ with
    | none => cases (represents_ne_nil hTree₂).mp rfl
    | some m => exact ⟨_, h, m, heap₁, heap₂, hParse₁, hParse₂, hTree₁.extend hExtends, hTree₂⟩

end Frame

end Text

/-! ## The readers -/

section Read
variable {D K S : Type} {env : Env D K S}

/-- `FrameSource_recv` on a frame of two structures. -/
theorem returns_splitFrameChecked (env : Env D K S) {data : Bytes} {h m s : Nat} {heap₁ heap₂ : Heap D}
    {w : World D K S Wire} (hErrno : w.errno = 0) (hLess : s < data.length)
    (hFirst : nodeParseSeq env.lib env.fuel w.heap 0 data 0 = .ok ⟨some h, s, heap₁, 0⟩)
    (hSecond : nodeParseSeq env.lib env.fuel heap₁ 0 data s = .ok ⟨some m, data.length, heap₂, 0⟩) :
    Returns (splitFrameChecked env data) w (true, some m, some (data.take s), some h)
      { w with heap := heap₂, errno := 0 } := by
  refine returns_bind.mpr ⟨_, _, returns_parseSeq.mpr ⟨_, by rw [hErrno]; exact hFirst, rfl, rfl⟩, ?_⟩
  refine returns_bind.mpr ⟨_, _, returns_check_true rfl rfl, ?_⟩
  refine returns_ite.mpr (.inr ⟨by decide, returns_ite.mpr (.inl ⟨hLess, ?_⟩)⟩)
  refine returns_bind.mpr ⟨_, _, returns_parseSeq.mpr ⟨_, hSecond, rfl, rfl⟩, ?_⟩
  refine returns_bind.mpr ⟨_, _, returns_check_true rfl rfl, ?_⟩
  refine returns_ite.mpr (.inr ⟨by decide, ?_⟩)
  refine returns_bind.mpr ⟨_, _, returns_check_true (by simp) rfl, ?_⟩
  exact returns_pure.mpr ⟨by simp [bmidstr], rfl⟩

theorem returns_readn {fd : Int} (hFd : 0 ≤ fd) {data : Bytes} (hSome : data ≠ []) {rest : List Reading}
    (w : World D K S Link) (hReads : w.data.net.reads = ⟨data, 0⟩ :: rest) :
    Returns (readn fd data.length) w (some data)
      { w with errno := 0, data := { w.data with net := { w.data.net with reads := rest } } } := by
  have hAssert : ∀ {c : Bool} {what : String} {v : World D K S Link}, c = true →
      Returns (assertThat c what) v () v := by
    rintro c what v rfl
    exact returns_pure.mpr ⟨rfl, rfl⟩
  refine returns_bind.mpr ⟨_, _, hAssert (decide_eq_true hFd), ?_⟩
  refine returns_bind.mpr ⟨_, _, hAssert (decide_eq_true (List.length_pos_iff.mpr hSome)), ?_⟩
  refine returns_bind.mpr ⟨⟨data, 0⟩, { w with data := { w.data with net := { w.data.net with reads := rest } } },
    ?_, ?_⟩
  · refine returns_bind.mpr ⟨w, w, returns_get.mpr ⟨rfl, rfl⟩, ?_⟩
    refine returns_bind.mpr ⟨(), _, returns_set.mpr rfl, returns_pure.mpr ⟨?_, ?_⟩⟩
    · rw [hReads]
      rfl
    · rw [hReads]
      rfl
  · refine returns_bind.mpr ⟨(), _, returns_modify.mpr rfl, returns_ite.mpr (.inl ⟨rfl, ?_⟩)⟩
    refine returns_bind.mpr ⟨_, _, hAssert rfl, returns_pure.mpr ⟨rfl, rfl⟩⟩

theorem reclen_networkBytes (n : UInt16) : reclen (networkBytes n) = n.toNat := by
  rw [← networkBytes_value n]
  simp [reclen, networkBytes]

/-- The world when the two reads of a frame are behind. -/
def afterReads (w : World D K S Link) (heap : Heap D) (rest : List Reading) : World D K S Link :=
  { w with heap, errno := 0, data := { w.data with net := { w.data.net with reads := rest } } }

theorem returns_readframe {fd : Int} (hFd : 0 ≤ fd) {n : UInt16} {data : Bytes} (hSome : data ≠ [])
    (hLength : data.length = n.toNat) {rest : List Reading} {w : World D K S Link}
    (hReads : w.data.net.reads = ⟨networkBytes n, 0⟩ :: ⟨data, 0⟩ :: rest) :
    Returns (readframe fd) w (some data) (afterReads w w.heap rest) := by
  have hHead := returns_readn hFd (List.cons_ne_nil _ _) w hReads
  have hData := returns_readn hFd hSome (afterReads w w.heap (⟨data, 0⟩ :: rest)) rfl
  rw [hLength, ← reclen_networkBytes] at hData
  refine returns_bind.mpr ⟨_, _, hHead, returns_bind.mpr ⟨_, _, returns_check_true rfl rfl, ?_⟩⟩
  refine returns_ite.mpr (.inr ⟨by decide, returns_bind.mpr ⟨_, _, hData, ?_⟩⟩)
  refine returns_bind.mpr ⟨_, _, returns_check_true rfl rfl, returns_ite.mpr (.inr ⟨by decide, ?_⟩)⟩
  exact returns_pure.mpr ⟨rfl, rfl⟩

theorem returns_readnodes (env : Env D K S) {fd : Int} (hFd : 0 ≤ fd) {n : UInt16} {data : Bytes} {h m s : Nat}
    {heap₁ heap₂ : Heap D} {rest : List Reading} {w : World D K S Link} (hLength : data.length = n.toNat)
    (hReads : w.data.net.reads = ⟨networkBytes n, 0⟩ :: ⟨data, 0⟩ :: rest) (hLess : s < data.length)
    (hFirst : nodeParseSeq env.lib env.fuel w.heap 0 data 0 = .ok ⟨some h, s, heap₁, 0⟩)
    (hSecond : nodeParseSeq env.lib env.fuel heap₁ 0 data s = .ok ⟨some m, data.length, heap₂, 0⟩) :
    Returns (readnodes env fd) w (some m, some h) (afterReads w heap₂ rest) := by
  have hSome : data ≠ [] := List.ne_nil_of_length_pos (Nat.zero_lt_of_lt hLess)
  refine returns_bind.mpr ⟨_, _, returns_readframe hFd hSome hLength hReads, ?_⟩
  refine returns_bind.mpr ⟨_, _, returns_check_true rfl rfl, returns_ite.mpr (.inr ⟨by decide, ?_⟩)⟩
  refine returns_bind.mpr ⟨_, _, returns_parseSeq.mpr ⟨_, hFirst, rfl, rfl⟩, ?_⟩
  refine returns_bind.mpr ⟨_, _, returns_check_true rfl rfl, returns_ite.mpr (.inr ⟨by decide, ?_⟩)⟩
  refine returns_bind.mpr ⟨_, _, returns_parseSeq.mpr ⟨_, hSecond, rfl, rfl⟩, ?_⟩
  exact returns_pure.mpr ⟨rfl, rfl⟩

variable (env)

/-- The hub reads a frame that its buffer delivers: every `check` passes, the one for trailing data included,
and header and body are the given ones, with `hbuf` for the text of the header. -/
def HubReads (frame hbuf : Bytes) (header body : Document D) : Prop :=
  ∀ (w : World D K S Wire) (data : Bytes), Delivers (nextFrame w) data →
    frame = networkBytes (nextFrame w).length ++ data →
    ∃ m h w', Finishes (fun fuel => frameSourceRecvChecked { env with fuel } w)
        (.ok ((true, some m, some hbuf, some h), w')) ∧
      Represents w'.heap none (some h) header.tree ∧ Represents w'.heap none (some m) body.tree

/-- The client reads a frame that its socket delivers: header and body are the given ones, and the header is
printed as `hbuf` again. -/
def ClientReads (frame hbuf : Bytes) (header body : Document D) : Prop :=
  ∀ (fd : Int) (w : World D K S Link) (rest : List Reading), 0 ≤ fd →
    w.data.net.reads = ⟨frame.take 2, 0⟩ :: ⟨frame.drop 2, 0⟩ :: rest →
    ∃ m h w', Finishes (fun fuel => readnodes { env with fuel } fd w) (.ok ((some m, some h), w')) ∧
      Represents w'.heap none (some h) header.tree ∧ Represents w'.heap none (some m) body.tree ∧
      nodeBstr env.lib w'.heap (some h) true = .ok hbuf

variable {header body : Document D} {fromHub : Bool}

theorem encoding_lt_frameData (header body : Document D) (fromHub : Bool) :
    (encoding header).length < (frameData header body fromHub).length := by
  obtain ⟨rest, hText⟩ := text_document body
  rw [frameData, hText]
  simp

theorem hubReads_frameData (hHeader : header.name ≠ none) (hBody : body.name ≠ none)
    (hLen : (frameData header body fromHub).length ≤ 65535) :
    HubReads env (networkBytes (UInt16.ofNat (frameData header body fromHub).length) ++
      frameData header body fromHub) (encoding header) header body := by
  intro w data hDelivers hFrame
  obtain rfl : frameData header body fromHub = data := by
    simpa [networkBytes] using congrArg (List.drop 2) hFrame
  obtain ⟨fuel, h, m, heap₁, heap₂, hFirst, hSecond, hTree₁, hTree₂⟩ :=
    frameData_parses env.lib hHeader hBody (Nat.lt_of_le_of_lt hLen (by decide)) w.heap
  have hRun := returns_splitFrameChecked { env with fuel } (w := arrived w) rfl
    (encoding_lt_frameData header body fromHub) hFirst hSecond
  have hTake : (frameData header body fromHub).take (encoding header).length = encoding header := by
    rw [frameData, List.take_left]
  rw [hTake] at hRun
  refine ⟨m, h, { arrived w with heap := heap₂, errno := 0 }, ⟨by simp, fuel, ?_⟩, hTree₁, hTree₂⟩
  exact (frameSourceRecvChecked_delivers hDelivers).trans hRun

theorem clientReads_frameData (hHeader : header.name ≠ none) (hBody : body.name ≠ none)
    (hLen : (frameData header body fromHub).length ≤ 65535) :
    ClientReads env (networkBytes (UInt16.ofNat (frameData header body fromHub).length) ++
      frameData header body fromHub) (encoding header) header body := by
  intro fd w rest hFd hReads
  have hLength : (frameData header body fromHub).length =
      (UInt16.ofNat (frameData header body fromHub).length).toNat :=
    (UInt16.toNat_ofNat_of_lt' (Nat.lt_succ_of_le hLen)).symm
  have hShort : (text (tokens header.tree)).length ≤ 65535 := by
    have hLess := encoding_lt_frameData header body fromHub
    rw [encoding, List.length_append] at hLess
    omega
  obtain ⟨fuel, h, m, heap₁, heap₂, hFirst, hSecond, hTree₁, hTree₂⟩ :=
    frameData_parses env.lib hHeader hBody (Nat.lt_of_le_of_lt hLen (by decide)) w.heap
  have hRun := returns_readnodes { env with fuel } hFd hLength hReads
    (encoding_lt_frameData header body fromHub) hFirst hSecond
  exact ⟨m, h, _, ⟨by simp, fuel, hRun⟩, hTree₁, hTree₂, nodeBstr_encoding hShort hTree₁⟩

end Read

/-! ## The writers -/

section Write
variable {D K S : Type} (env : Env D K S)

/-- The two pieces that `write_header_node` hands to `writev`. -/
def headerNodeFrame (header : Bytes) (body : Option Nat) : Step D K S Bytes := do
  let data ← catbstr env header body
  return networkBytes (UInt16.ofNat data.length) ++ data

/-- `writeHeaderNode` makes the frame and sends it. -/
theorem writeHeaderNode_eq (fd : Int) (header : Bytes) (body : Option Nat) :
    writeHeaderNode env fd (some header) body = (do
      assertThat (0 ≤ fd) "file descriptor invalid"
      let _ ← headerNodeFrame env header body
      let r ← nextWrite
      modify fun w => { w with errno := r.errno }
      let _ ← check (0 < r.rc)
      return r.rc) := by
  simp only [writeHeaderNode, orAssert, headerNodeFrame, pure_bind, bind_assoc]

/-- The frame fits in the free part of the buffer, or does when a first flush has made room. -/
def RoomFor (n : Nat) (o : Outlet) : Prop :=
  n + 2 ≤ o.out.spaceAvail ∨ o.out.spaceAvail < n ∧ o.nextFlush.rc = true ∧ o.nextFlush.errno = 0 ∧
    n + 2 ≤ o.flush.out.spaceAvail

variable {env}

theorem wrote_frame {msgLen : UInt16} {header data : Bytes} {flush : Bool} {o o' : Outlet} {r : Bool × Bool}
    (hWrote : Wrote msgLen header data flush o r o') (hRoom : header.length + data.length + 2 ≤ o.out.spaceAvail) :
    (flush = false → r.1 = true) ∧ o'.stream = o.stream ++ (networkBytes msgLen ++ (header ++ data)) := by
  rw [Wrote, if_neg (by omega), if_neg (by omega)] at hWrote
  obtain ⟨rfl, hStream⟩ := hWrote
  refine ⟨?_, by rw [hStream, List.append_assoc (networkBytes msgLen)]⟩
  rintro rfl
  rfl

theorem frameSourceSendTo_frame {w : World D K S Outlet} (hErrno : w.errno = 0) {header data : Bytes} {msg : Nat}
    (hData : nodeBstr env.lib w.heap (some msg) true = .ok data) (hLen : header.length + data.length ≤ 65535)
    (hRoom : RoomFor (header.length + data.length) w.data) (flush : Bool) :
    Yields (frameSourceSendTo env (some header) (some msg) flush) w fun r w' =>
      (flush = false → r.1 = true) ∧ w'.data.stream = w.data.stream ++
        (networkBytes (UInt16.ofNat (header.length + data.length)) ++ (header ++ data)) := by
  have hLength : (UInt16.ofNat (header.length + data.length)).toNat = header.length + data.length :=
    UInt16.toNat_ofNat_of_lt' (Nat.lt_succ_of_le hLen)
  refine sendTo_yields hData hErrno ((returns_get.mpr ⟨rfl, rfl⟩).then ?_)
  rw [hLength]
  rcases hRoom with hRoom | ⟨hFull, hFlush, hClear, hRoom⟩
  · refine yields_ite (fun hLess => absurd hLess (by omega)) fun _ => yields_pure ⟨hErrno, ?_⟩
    intro r o' hWrote w'' hw
    rw [hw]
    exact wrote_frame hWrote hRoom
  · refine yields_ite (fun _ => ?_) fun hNot => absurd hFull hNot
    refine returns_ioFlushSbuf.then (yields_checkPass hFlush hClear ((returns_get.mpr ⟨rfl, rfl⟩).then ?_))
    refine yields_checkPass (decide_eq_true (by dsimp only; omega)) hClear (yields_pure ⟨hClear, ?_⟩)
    intro r o' hWrote w'' hw
    rw [hw, ← w.data.stream_flush]
    exact wrote_frame hWrote hRoom

theorem headerNodeFrame_frame {w : World D K S Link} {body : Document D} {b : Nat}
    (hTree : Represents w.heap none (some b) body.tree) {header : Bytes}
    (hLen : header.length + (text (tokens body.tree)).length ≤ 65535) :
    Returns (headerNodeFrame env header (some b)) w
      (networkBytes (UInt16.ofNat (header ++ text (tokens body.tree)).length) ++
        (header ++ text (tokens body.tree))) w := by
  refine returns_bind.mpr ⟨header ++ text (tokens body.tree), w, ?_, returns_pure.mpr ⟨rfl, rfl⟩⟩
  refine returns_bind.mpr ⟨w, w, returns_get.mpr ⟨rfl, rfl⟩, returns_lift.mpr ⟨?_, rfl⟩⟩
  exact nodeCatbstr_text (by omega) hTree (by omega)

variable (env)

/-- Both sides read the frame, with the text of the header that went into it. -/
def Carries (frame : Bytes) (header body : Document D) : Prop :=
  HubReads env frame (encoding header) header body ∧ ClientReads env frame (encoding header) header body

/-- Whoever writes a frame of two documents with words for names, and whoever reads it, header and body are what
was sent, and the header is authenticated as the bytes it was encrypted with. -/
theorem frames_carried (header body : Document D) (hHeader : header.name ≠ none) (hBody : body.name ≠ none) :
    (∀ (w : World D K S Outlet) (h b : Nat) (flush : Bool), w.errno = 0 →
      Represents w.heap none (some h) header.tree → Represents w.heap none (some b) body.tree →
      (encoding header).length + (encoding body).length ≤ 65535 →
      RoomFor ((encoding header).length + (encoding body).length) w.data →
      nodeBstr env.lib w.heap (some h) true = .ok (encoding header) ∧
      Yields (frameSourceSendTo env (some (encoding header)) (some b) flush) w fun r w' =>
        ∃ frame, (flush = false → r.1 = true) ∧ w'.data.stream = w.data.stream ++ frame ∧
          Carries env frame header body) ∧
    (∀ (w : World D K S Link) (h b : Nat),
      Represents w.heap none (some h) header.tree → Represents w.heap none (some b) body.tree →
      (encoding header).length + (text (tokens body.tree)).length ≤ 65535 →
      nodeBstr env.lib w.heap (some h) true = .ok (encoding header) ∧
      Yields (headerNodeFrame env (encoding header) (some b)) w fun frame _ => Carries env frame header body) := by
  have hCarries : ∀ fromHub, (frameData header body fromHub).length ≤ 65535 →
      Carries env (networkBytes (UInt16.ofNat (frameData header body fromHub).length) ++
        frameData header body fromHub) header body := fun fromHub hLen =>
    ⟨hubReads_frameData env hHeader hBody hLen, clientReads_frameData env hHeader hBody hLen⟩
  have hShort : ∀ t : Document D, (encoding t).length = (text (tokens t.tree)).length + 1 := by
    intro t
    simp [encoding]
  constructor
  · intro w h b flush hErrno hTree₁ hTree₂ hLen hRoom
    have hData : frameData header body true = encoding header ++ encoding body := by
      simp [frameData, bodyEnd, encoding]
    have hSum : (frameData header body true).length = (encoding header).length + (encoding body).length := by
      rw [hData, List.length_append]
    have h₁ := hShort header
    have h₂ := hShort body
    refine ⟨nodeBstr_encoding (by omega) hTree₁, ?_⟩
    refine (frameSourceSendTo_frame hErrno (nodeBstr_encoding (by omega) hTree₂) hLen hRoom flush).mono ?_
    rintro r w' ⟨hOk, hStream⟩
    refine ⟨_, hOk, hStream, ?_⟩
    have hAll := hCarries true (by omega)
    rwa [hSum, hData] at hAll
  · intro w h b hTree₁ hTree₂ hLen
    have hData : frameData header body false = encoding header ++ text (tokens body.tree) := by
      simp [frameData, bodyEnd]
    have h₁ := hShort header
    refine ⟨nodeBstr_encoding (by omega) hTree₁, (headerNodeFrame_frame hTree₂ hLen).yields ?_⟩
    have hAll := hCarries false (by rw [hData, List.length_append]; exact hLen)
    rwa [hData] at hAll

end Write

/-- An empty group named by a letter. -/
def letterDocument (c : UInt8) (hc : isAlpha c = true) : Document Unit where
  name := some [c]
  kids := .nil
  rootName := by
    rintro n ⟨⟩
    simp [isWord, hc]
  shaped := trivial
  floatFree := trivial
  plain := trivial

/-- The header `[ h` and the body `[ b`. -/
def lettersHeap : Heap Unit :=
  [⟨⟨some [104], .group⟩, none, none, none⟩, ⟨⟨some [98], .group⟩, none, none, none⟩]

def idleLink : Link := ⟨⟨⟨none, none, 0⟩, ⟨none, none, none, .null, 0⟩, .null⟩, ⟨0, 0, [], []⟩⟩

theorem frames_carried_letters :
    (Yields (frameSourceSendTo sampleEnv (some [91, 32, 104, 32, 10]) (some 1) false)
      (sampleWorld lettersHeap (emptyOutlet 12)) fun r w' => r.1 = true ∧
        Carries sampleEnv w'.data.stream (letterDocument 104 rfl) (letterDocument 98 rfl)) ∧
    Yields (headerNodeFrame sampleEnv [91, 32, 104, 32, 10] (some 1)) (sampleWorld lettersHeap idleLink)
      fun frame _ => Carries sampleEnv frame (letterDocument 104 rfl) (letterDocument 98 rfl) := by
  have hHeader : Represents lettersHeap none (some 0) (letterDocument 104 rfl).tree :=
    ⟨.node (0, ⟨some [104], .group⟩) .nil .nil, rfl, rfl, ⟨rfl, trivial, trivial⟩, by decide⟩
  have hBody : Represents lettersHeap none (some 1) (letterDocument 98 rfl).tree :=
    ⟨.node (1, ⟨some [98], .group⟩) .nil .nil, rfl, rfl, ⟨rfl, trivial, trivial⟩, by decide⟩
  obtain ⟨hHub, hClient⟩ := frames_carried (S := Unit) sampleEnv (letterDocument 104 rfl) (letterDocument 98 rfl)
    (by simp [letterDocument]) (by simp [letterDocument])
  obtain ⟨-, hHub⟩ := hHub (sampleWorld lettersHeap (emptyOutlet 12)) 0 1 false rfl hHeader hBody (by decide)
    (.inl (by decide))
  obtain ⟨-, hClient⟩ := hClient (sampleWorld lettersHeap idleLink) 0 1 hHeader hBody (by decide)
  refine ⟨hHub.mono ?_, hClient⟩
  rintro r w' ⟨frame, hOk, hStream, hCarries⟩
  have hFrame : w'.data.stream = frame := hStream
  rw [hFrame]
  exact ⟨hOk rfl, hCarries⟩

end Utu.Client
