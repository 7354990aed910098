import Utu.Protocol.Reception

/-!
# What `FrameSource_send` leaves in the buffer

The same function as before, over a buffer of fixed size whose writes take all
the bytes or none. The bytes that went to the socket and those still in the
buffer are one stream, which a flush does not change. A frame is lost or half
written when the free space was compared with the length as sixteen bits, and
without the two bytes of the length itself.
-/

namespace Utu.Protocol
open Stackish LinkedForest Procedure
set_option autoImplicit false

structure Sbuf where
  size : Nat
  data : Bytes
  fits : data.length ≤ size

namespace Sbuf

/-- `sbuf_space_avail` -/
def spaceAvail (b : Sbuf) : Nat := b.size - b.data.length

/-- A write takes all the bytes, or fails with no effect. -/
def append (b : Sbuf) (bytes : Bytes) : Option Sbuf :=
  if h : bytes.length ≤ b.spaceAvail then
    some ⟨b.size, b.data ++ bytes, by
      have hFits := b.fits
      rw [spaceAvail] at h
      rw [List.length_append]
      omega⟩
  else none

/-- The first `k` bytes have left the buffer. -/
def drain (b : Sbuf) (k : Nat) : Sbuf :=
  ⟨b.size, b.data.drop k, Nat.le_trans (by rw [List.length_drop]; exact Nat.sub_le _ _) b.fits⟩

theorem append_cases (b : Sbuf) (bytes : Bytes) :
    (b.spaceAvail < bytes.length ∧ b.append bytes = none) ∨
      ∃ b', b.append bytes = some b' ∧ b'.data = b.data ++ bytes ∧ b.spaceAvail = bytes.length + b'.spaceAvail := by
  by_cases h : bytes.length ≤ b.spaceAvail
  · refine .inr ⟨_, dif_pos h, rfl, ?_⟩
    simp only [spaceAvail, List.length_append] at h ⊢
    omega
  · exact .inl ⟨Nat.not_le.mp h, dif_neg h⟩

end Sbuf

/-- What one `io_flush_sbuf` answers, and how many bytes it got rid of. -/
structure Flush where
  rc : Bool
  errno : Nat
  sent : Nat
deriving DecidableEq, Repr

/-- The buffer, what has gone to the socket so far, and the answers of the flushes to come. -/
structure Outlet where
  out : Sbuf
  sent : Bytes
  flushes : List Flush

namespace Outlet

def stream (o : Outlet) : Bytes := o.sent ++ o.out.data

def nextFlush (o : Outlet) : Flush := o.flushes.headD ⟨false, 0, 0⟩

def flush (o : Outlet) : Outlet :=
  ⟨o.out.drain o.nextFlush.sent, o.sent ++ o.out.data.take o.nextFlush.sent, o.flushes.tail⟩

theorem stream_flush (o : Outlet) : o.flush.stream = o.stream := by
  simp only [stream, flush, Sbuf.drain, List.append_assoc, List.take_append_drop]

end Outlet

section Send
variable {D K S : Type} (env : Env D K S)

/-- `io_flush_sbuf` -/
def ioFlushSbuf : Call D K S Outlet Bool := do
  let w ← get
  set { w with errno := w.data.nextFlush.errno, data := w.data.flush }
  return w.data.nextFlush.rc

def sbufAppend (bytes : Bytes) : Call D K S Outlet Bool := do
  let w ← get
  match w.data.out.append bytes with
  | none => return false
  | some out =>
    set { w with data := { w.data with out } }
    return true

/-- The bytes of `htons` -/
def networkBytes (n : UInt16) : Bytes := [(n >>> 8).toUInt8, n.toUInt8]

/-- `sbuf_put_htons` -/
def sbufPutHtons (n : UInt16) : Call D K S Outlet Bool := sbufAppend (networkBytes n)

/-- `sbuf_write_bstr` -/
def sbufWriteBstr (b : Bytes) : Call D K S Outlet Bool := sbufAppend b

/-- The room made before the writes; a result means that the call ends with it. -/
def makeRoomFor (msgLen : UInt16) : Call D K S Outlet (Option Bool) := do
  let w ← get
  if w.data.out.spaceAvail < msgLen.toNat then
    let rc ← ioFlushSbuf
    if !(← check rc) then return some rc
    let w ← get
    if !(← check (msgLen.toNat ≤ w.data.out.spaceAvail)) then return some false
  return none

/-- The length, the header and the body, and the flush; with the result comes whether that flush was made. -/
def writeFrameTo (msgLen : UInt16) (header data : Bytes) (flush : Bool) : Call D K S Outlet (Bool × Bool) := do
  let rc ← sbufPutHtons msgLen
  if !(← check rc) then return (rc, false)
  let rc ← sbufWriteBstr header
  if !(← check rc) then return (rc, false)
  let rc ← sbufWriteBstr data
  if !(← check rc) then return (rc, false)
  if flush then
    let rc ← ioFlushSbuf
    let _ ← check rc
    return (rc, true)
  return (rc, false)

/-- `FrameSource_send` on a buffer; the length of the frame is kept in sixteen bits. -/
def frameSourceSendTo (header : Option Bytes) (msg : Option Nat) (flush : Bool) : Call D K S Outlet (Bool × Bool) := do
  let data ← bstr env msg
  match header with
  | none => throw (.assertFailed "header cannot be NULL")
  | some header =>
    if !(← check true) then return (false, false)
    let msgLen := UInt16.ofNat (header.length + data.length)
    match ← makeRoomFor msgLen with
    | some rc => return (rc, false)
    | none => writeFrameTo msgLen header data flush

end Send

/-! ## The steps -/

section Steps
variable {D K S : Type} {w : World D K S Outlet}

theorem networkBytes_value (n : UInt16) : 256 * (n >>> 8).toUInt8.toNat + n.toUInt8.toNat = n.toNat := by
  have hLess := n.toNat_lt
  have hShift : (n >>> 8).toNat = n.toNat / 256 := by
    rw [UInt16.toNat_shiftRight, Nat.shiftRight_eq_div_pow]
    rfl
  rw [UInt16.toNat_toUInt8, UInt16.toNat_toUInt8, hShift]
  omega

theorem returns_ioFlushSbuf : Returns (ioFlushSbuf (D := D) (K := K) (S := S)) w w.data.nextFlush.rc
    { w with errno := w.data.nextFlush.errno, data := w.data.flush } := rfl

theorem sbufAppend_cases (w : World D K S Outlet) (bytes : Bytes) :
    (w.data.out.spaceAvail < bytes.length ∧ Returns (sbufAppend bytes) w false w) ∨
      ∃ out, Returns (sbufAppend bytes) w true { w with data := { w.data with out } } ∧
        out.data = w.data.out.data ++ bytes ∧ w.data.out.spaceAvail = bytes.length + out.spaceAvail := by
  rcases w.data.out.append_cases bytes with ⟨hSpace, hAppend⟩ | ⟨out, hAppend, hData, hSpace⟩
  · refine .inl ⟨hSpace, returns_bind.mpr ⟨w, w, returns_get.mpr ⟨rfl, rfl⟩, ?_⟩⟩
    rw [hAppend]
    exact returns_pure.mpr ⟨rfl, rfl⟩
  · refine .inr ⟨out, returns_bind.mpr ⟨w, w, returns_get.mpr ⟨rfl, rfl⟩, ?_⟩, hData, hSpace⟩
    rw [hAppend]
    exact returns_bind.mpr ⟨(), _, returns_set.mpr rfl, returns_pure.mpr ⟨rfl, rfl⟩⟩

/-- What the writes come to: nothing, a part of the frame and no success, or the frame. -/
def Wrote (msgLen : UInt16) (header data : Bytes) (flush : Bool) (o : Outlet) (r : Bool × Bool) (o' : Outlet) : Prop :=
  if o.out.spaceAvail < 2 then r = (false, false) ∧ o'.stream = o.stream
  else if o.out.spaceAvail < header.length + data.length + 2 then r = (false, false) ∧ o'.stream ≠ o.stream
  else r = (!flush || o.nextFlush.rc, flush) ∧ o'.stream = o.stream ++ (networkBytes msgLen ++ header ++ data)

theorem writeFrameTo_yields (hErrno : w.errno = 0) (msgLen : UInt16) (header data : Bytes) (flush : Bool) :
    Yields (writeFrameTo msgLen header data flush) w fun r w' => Wrote msgLen header data flush w.data r w'.data := by
  rcases sbufAppend_cases w (networkBytes msgLen) with ⟨hSpace, hPut⟩ | ⟨out₁, hPut, hData₁, hSpace₁⟩
  · refine hPut.then (yields_checkFail rfl (yields_pure ?_))
    have hSmall : w.data.out.spaceAvail < 2 := hSpace
    rw [Wrote, if_pos hSmall]
    exact ⟨rfl, rfl⟩
  have hTwo : w.data.out.spaceAvail = 2 + out₁.spaceAvail := hSpace₁
  have hLarge : ¬w.data.out.spaceAvail < 2 := by omega
  refine hPut.then (yields_checkPass rfl hErrno ?_)
  simp only [Wrote, if_neg hLarge]
  rcases sbufAppend_cases { w with data := { w.data with out := out₁ } } header with
    ⟨hSpace, hPut⟩ | ⟨out₂, hPut, hData₂, hSpace₂⟩
  · refine hPut.then (yields_checkFail rfl (yields_pure ?_))
    rw [if_pos (by dsimp only at hSpace; omega)]
    refine ⟨rfl, fun hSame => ?_⟩
    have hLength := congrArg List.length hSame
    simp [Outlet.stream, hData₁, networkBytes] at hLength
  refine hPut.then (yields_checkPass rfl hErrno ?_)
  dsimp only at hData₂ hSpace₂
  rcases sbufAppend_cases { w with data := { w.data with out := out₂ } } data with
    ⟨hSpace, hPut⟩ | ⟨out₃, hPut, hData₃, hSpace₃⟩
  · refine hPut.then (yields_checkFail rfl (yields_pure ?_))
    rw [if_pos (by dsimp only at hSpace; omega)]
    refine ⟨rfl, fun hSame => ?_⟩
    have hLength := congrArg List.length hSame
    simp [Outlet.stream, hData₂, hData₁, networkBytes] at hLength
  refine hPut.then (yields_checkPass rfl hErrno ?_)
  dsimp only at hData₃ hSpace₃
  have hStream : w.data.sent ++ out₃.data = w.data.stream ++ (networkBytes msgLen ++ header ++ data) := by
    simp only [Outlet.stream, hData₃, hData₂, hData₁, List.append_assoc]
  have hAll : ¬w.data.out.spaceAvail < header.length + data.length + 2 := by omega
  simp only [if_neg hAll]
  refine yields_ite (fun hFlush => ?_) fun hFlush => ?_
  · refine returns_ioFlushSbuf.then ((returns_check.mpr ⟨rfl, rfl⟩).then (yields_pure ⟨?_, ?_⟩))
    · rw [hFlush]
      rfl
    · exact (Outlet.stream_flush _).trans hStream
  · refine yields_pure ⟨?_, hStream⟩
    rw [Bool.not_eq_true] at hFlush
    rw [hFlush]
    rfl

end Steps

/-! ## The answers the buffer gives -/

section Answers
variable {D K S : Type} {w w' : World D K S Outlet}

/-- The same world before `FrameSource_send` is told what its I/O functions answer. -/
def World.facing (w : World D K S Outlet) (answers : List Outgoing) : World D K S Wire :=
  { w with data := ⟨[], answers⟩ }

theorem flush_facing {rc : Bool} (h : Returns ioFlushSbuf w rc w') :
    ∃ answer, ∀ l, Returns (io answer) (w.facing l) rc (w'.facing l) := by
  obtain ⟨rfl, rfl⟩ := returns_ioFlushSbuf.unique h
  exact ⟨⟨_, _⟩, fun l => returns_io.mpr ⟨rfl, rfl⟩⟩

theorem append_facing {bytes : Bytes} {rc : Bool} (h : Returns (sbufAppend bytes) w rc w') :
    ∃ answer, ∀ l, Returns (io answer) (w.facing l) rc (w'.facing l) := by
  rcases sbufAppend_cases w bytes with ⟨-, hAppend⟩ | ⟨out, hAppend, -, -⟩
  all_goals
    obtain ⟨rfl, rfl⟩ := hAppend.unique h
    exact ⟨⟨_, w.errno⟩, fun l => returns_io.mpr ⟨rfl, rfl⟩⟩

theorem makeRoomFor_facing {msgLen : UInt16} {r : Option Bool} (h : Returns (makeRoomFor msgLen) w r w') :
    ∃ full early room, ∀ putLength putHeader putBody flush l,
      Returns (makeRoom ⟨full, early, room, putLength, putHeader, putBody, flush⟩) (w.facing l) r (w'.facing l) := by
  obtain ⟨v, w₁, hGet, h⟩ := returns_bind.mp h
  obtain ⟨rfl, rfl⟩ := returns_get.mp hGet
  rcases returns_ite.mp h with ⟨-, h⟩ | ⟨-, h⟩
  case inr =>
    obtain ⟨rfl, rfl⟩ := returns_pure.mp h
    refine ⟨false, ⟨false, 0⟩, false, fun _ _ _ _ l => returns_ite.mpr (.inl ⟨rfl, ?_⟩)⟩
    exact returns_pure.mpr ⟨rfl, rfl⟩
  obtain ⟨rc, w₂, hFlush, h⟩ := returns_bind.mp h
  obtain ⟨early, hEarly⟩ := flush_facing hFlush
  rcases returns_checkElse.mp h with ⟨hFail, h⟩ | ⟨hPass, h⟩
  · obtain ⟨rfl, rfl⟩ := returns_pure.mp h
    refine ⟨true, early, false, fun _ _ _ _ l => returns_ite.mpr (.inr ⟨by simp, ?_⟩)⟩
    refine returns_bind.mpr ⟨rc, _, hEarly l, returns_checkElse.mpr (.inl ⟨hFail, ?_⟩)⟩
    exact returns_pure.mpr ⟨rfl, rfl⟩
  obtain ⟨v, w₃, hGet, h⟩ := returns_bind.mp h
  obtain ⟨rfl, rfl⟩ := returns_get.mp hGet
  refine ⟨true, early, decide (msgLen.toNat ≤ w₂.clear.data.out.spaceAvail), fun _ _ _ _ l =>
    returns_ite.mpr (.inr ⟨by simp, ?_⟩)⟩
  refine returns_bind.mpr ⟨rc, _, hEarly l, returns_checkElse.mpr (.inr ⟨hPass, ?_⟩)⟩
  rcases returns_checkElse.mp h with ⟨hFail, h⟩ | ⟨hRoom, h⟩
  · obtain ⟨rfl, rfl⟩ := returns_pure.mp h
    exact returns_checkElse.mpr (.inl ⟨hFail, returns_pure.mpr ⟨rfl, rfl⟩⟩)
  · obtain ⟨rfl, rfl⟩ := returns_pure.mp h
    exact returns_checkElse.mpr (.inr ⟨hRoom, returns_pure.mpr ⟨rfl, rfl⟩⟩)

theorem writeFrameTo_facing {msgLen : UInt16} {header data : Bytes} {r : Bool × Bool}
    (h : Returns (writeFrameTo msgLen header data true) w r w') :
    ∃ putLength putHeader putBody flush, ∀ full early room l,
      Returns (writeFrame ⟨full, early, room, putLength, putHeader, putBody, flush⟩) (w.facing l) r.1
        (w'.facing l) := by
  -- a write that ends the call leaves the later answers open
  have hOpen : Io := ⟨false, 0⟩
  obtain ⟨rc₁, w₁, hPut, h⟩ := returns_bind.mp h
  obtain ⟨putLength, hLength⟩ := append_facing hPut
  rcases returns_checkElse.mp h with ⟨hFail, h⟩ | ⟨hPass₁, h⟩
  · obtain ⟨rfl, rfl⟩ := returns_pure.mp h
    refine ⟨putLength, hOpen, hOpen, hOpen, fun _ _ _ l => returns_bind.mpr ⟨_, _, hLength l, ?_⟩⟩
    exact returns_checkElse.mpr (.inl ⟨hFail, returns_pure.mpr ⟨rfl, rfl⟩⟩)
  obtain ⟨rc₂, w₂, hPut, h⟩ := returns_bind.mp h
  obtain ⟨putHeader, hHeader⟩ := append_facing hPut
  rcases returns_checkElse.mp h with ⟨hFail, h⟩ | ⟨hPass₂, h⟩
  · obtain ⟨rfl, rfl⟩ := returns_pure.mp h
    refine ⟨putLength, putHeader, hOpen, hOpen, fun _ _ _ l => returns_bind.mpr ⟨_, _, hLength l, ?_⟩⟩
    refine returns_checkElse.mpr (.inr ⟨hPass₁, returns_bind.mpr ⟨_, _, hHeader l, ?_⟩⟩)
    exact returns_checkElse.mpr (.inl ⟨hFail, returns_pure.mpr ⟨rfl, rfl⟩⟩)
  obtain ⟨rc₃, w₃, hPut, h⟩ := returns_bind.mp h
  obtain ⟨putBody, hBody⟩ := append_facing hPut
  rcases returns_checkElse.mp h with ⟨hFail, h⟩ | ⟨hPass₃, h⟩
  · obtain ⟨rfl, rfl⟩ := returns_pure.mp h
    refine ⟨putLength, putHeader, putBody, hOpen, fun _ _ _ l => returns_bind.mpr ⟨_, _, hLength l, ?_⟩⟩
    refine returns_checkElse.mpr (.inr ⟨hPass₁, returns_bind.mpr ⟨_, _, hHeader l, ?_⟩⟩)
    refine returns_checkElse.mpr (.inr ⟨hPass₂, returns_bind.mpr ⟨_, _, hBody l, ?_⟩⟩)
    exact returns_checkElse.mpr (.inl ⟨hFail, returns_pure.mpr ⟨rfl, rfl⟩⟩)
  rcases returns_ite.mp h with ⟨-, h⟩ | ⟨hNot, -⟩
  case inr => exact absurd rfl hNot
  obtain ⟨rc₄, w₄, hPut, h⟩ := returns_bind.mp h
  obtain ⟨flush, hFlush⟩ := flush_facing hPut
  obtain ⟨b, w₅, hCheck, h⟩ := returns_bind.mp h
  obtain ⟨rfl, rfl⟩ := returns_check.mp hCheck
  obtain ⟨rfl, rfl⟩ := returns_pure.mp h
  refine ⟨putLength, putHeader, putBody, flush, fun _ _ _ l => returns_bind.mpr ⟨_, _, hLength l, ?_⟩⟩
  refine returns_checkElse.mpr (.inr ⟨hPass₁, returns_bind.mpr ⟨_, _, hHeader l, ?_⟩⟩)
  refine returns_checkElse.mpr (.inr ⟨hPass₂, returns_bind.mpr ⟨_, _, hBody l, ?_⟩⟩)
  refine returns_checkElse.mpr (.inr ⟨hPass₃, returns_bind.mpr ⟨_, _, hFlush l, ?_⟩⟩)
  exact returns_bind.mpr ⟨_, _, returns_check.mpr ⟨rfl, rfl⟩, returns_pure.mpr ⟨rfl, rfl⟩⟩

/-- Whatever the buffer does, it is one of the ways in which `frameSourceSend` can be answered. -/
theorem frameSourceSendTo_facing {env : Env D K S} {header : Option Bytes} {msg : Option Nat} {r : Bool × Bool}
    (h : Returns (frameSourceSendTo env header msg true) w r w') :
    ∃ answer l, Returns (frameSourceSend env header msg) (w.facing [answer]) r.1 (w'.facing l) := by
  obtain ⟨data, w₁, hPrint, hRest⟩ := returns_bind.mp h
  obtain ⟨hData, rfl⟩ := returns_bstr.mp hPrint
  have hBstr : ∀ l, Returns (bstr env msg) (w₁.facing l) data (w₁.facing l) :=
    fun l => returns_bstr.mpr ⟨hData, rfl⟩
  cases header with
  | none => exact (returns_throw.mp hRest).elim
  | some header =>
    rcases returns_checkElse.mp hRest with ⟨hFail, h⟩ | ⟨hPass, h⟩
    · obtain ⟨rfl, rfl⟩ := returns_pure.mp h
      refine ⟨.closed, [.closed], returns_bind.mpr ⟨_, _, hBstr _, ?_⟩⟩
      exact returns_checkElse.mpr (.inl ⟨hFail, returns_pure.mpr ⟨rfl, rfl⟩⟩)
    obtain ⟨full, w₂, hRoom, h⟩ := returns_bind.mp h
    obtain ⟨isFull, early, room, hMake⟩ := makeRoomFor_facing hRoom
    cases full with
    | some rc =>
      obtain ⟨rfl, rfl⟩ := returns_pure.mp h
      refine ⟨⟨isFull, early, room, early, early, early, early⟩, [], returns_bind.mpr ⟨_, _, hBstr _, ?_⟩⟩
      refine returns_checkElse.mpr (.inr ⟨hPass, returns_bind.mpr ⟨_, _, rfl, ?_⟩⟩)
      exact returns_bind.mpr ⟨_, _, hMake _ _ _ _ [], returns_pure.mpr ⟨rfl, rfl⟩⟩
    | none =>
      obtain ⟨putLength, putHeader, putBody, flush, hWrite⟩ := writeFrameTo_facing h
      refine ⟨⟨isFull, early, room, putLength, putHeader, putBody, flush⟩, [], returns_bind.mpr ⟨_, _, hBstr _, ?_⟩⟩
      refine returns_checkElse.mpr (.inr ⟨hPass, returns_bind.mpr ⟨_, _, rfl, ?_⟩⟩)
      exact returns_bind.mpr ⟨_, _, hMake _ _ _ _ [], hWrite _ _ _ []⟩

end Answers

/-! ## All or nothing -/

section Whole
variable {D K S : Type}

/-- A length, high byte first, and then as many bytes: the header and the body. -/
def FrameText (header data bytes : Bytes) : Prop :=
  ∃ hi lo : UInt8, bytes = hi :: lo :: (header ++ data) ∧ 256 * hi.toNat + lo.toNat = header.length + data.length

/-- A failure before the frame is flushed leaves the stream as it was, and a success has added the frame. -/
def Whole (header data : Bytes) (o : Outlet) (r : Bool × Bool) (o' : Outlet) : Prop :=
  (r = (false, false) → o'.stream = o.stream) ∧
    (r.1 = true → ∃ bytes, FrameText header data bytes ∧ o'.stream = o.stream ++ bytes)

def AllOrNothing (env : Env D K S) (w : World D K S Outlet) (header data : Bytes) (msg : Nat) (flush : Bool) : Prop :=
  Yields (frameSourceSendTo env (some header) (some msg) flush) w fun r w' => Whole header data w.data r w'.data

/-- The writes begin with `space` bytes free, for `n` bytes and their length: not even the length fits, or all
of it does and `n` fits the length, unless the flush then fails. -/
def WholeRoom (n space : Nat) (flush : Bool) (late : Flush) : Prop :=
  space < 2 ∨ n + 2 ≤ space ∧ (n < 65536 ∨ flush = true ∧ late.rc = false)

/-- When the writes are reached there is room for them; a flush that makes room does not succeed with `errno` set. -/
def Sendable (n : Nat) (o : Outlet) (flush : Bool) : Prop :=
  if o.out.spaceAvail < n % 65536 then
    o.nextFlush.rc = true → o.nextFlush.errno = 0 ∧
      (n % 65536 ≤ o.flush.out.spaceAvail → WholeRoom n o.flush.out.spaceAvail flush o.flush.nextFlush)
  else WholeRoom n o.out.spaceAvail flush o.nextFlush

variable {header data : Bytes} {o o' : Outlet} {r : Bool × Bool} {flush : Bool}

theorem whole_of_unchanged (hStream : o'.stream = o.stream) (hFail : r.1 = false) : Whole header data o r o' := by
  refine ⟨fun _ => hStream, fun hOk => ?_⟩
  rw [hFail] at hOk
  cases hOk

theorem not_whole_of_unchanged (hStream : o'.stream = o.stream) (hOk : r.1 = true) : ¬Whole header data o r o' := by
  intro h
  obtain ⟨bytes, ⟨hi, lo, rfl, -⟩, hAdded⟩ := h.2 hOk
  rw [hStream] at hAdded
  simp at hAdded

theorem whole_iff_of_wrote (hWrote : Wrote (UInt16.ofNat (header.length + data.length)) header data flush o r o') :
    Whole header data o r o' ↔ WholeRoom (header.length + data.length) o.out.spaceAvail flush o.nextFlush := by
  have hValue := networkBytes_value (UInt16.ofNat (header.length + data.length))
  have hLength : (UInt16.ofNat (header.length + data.length)).toNat = (header.length + data.length) % 65536 :=
    UInt16.toNat_ofNat' ..
  rw [hLength] at hValue
  simp only [Wrote] at hWrote
  split at hWrote
  · rename_i hSmall
    obtain ⟨rfl, hStream⟩ := hWrote
    exact iff_of_true (whole_of_unchanged hStream rfl) (.inl hSmall)
  split at hWrote
  · rename_i hTwo hPart
    obtain ⟨rfl, hStream⟩ := hWrote
    refine iff_of_false (fun h => hStream (h.1 rfl)) ?_
    rintro (hSmall | ⟨hAll, -⟩)
    · exact hTwo hSmall
    · omega
  rename_i hTwo hPart
  obtain ⟨rfl, hStream⟩ := hWrote
  constructor
  · intro h
    refine .inr ⟨Nat.not_lt.mp hPart, ?_⟩
    by_cases hLate : flush = true ∧ o.nextFlush.rc = false
    · exact .inr hLate
    · have hOk : (!flush || o.nextFlush.rc) = true := by
        cases flush <;> simp_all
      obtain ⟨bytes, ⟨hi, lo, rfl, hSum⟩, hAdded⟩ := h.2 hOk
      rw [hStream] at hAdded
      obtain ⟨rfl, rfl⟩ : (UInt16.ofNat (header.length + data.length) >>> 8).toUInt8 = hi ∧
          (UInt16.ofNat (header.length + data.length)).toUInt8 = lo := by
        simpa [networkBytes] using hAdded
      left
      omega
  · intro h
    have hFits : header.length + data.length < 65536 ∨ flush = true ∧ o.nextFlush.rc = false :=
      (h.resolve_left hTwo).2
    refine ⟨fun hFail => ?_, fun hOk => ?_⟩
    · cases flush <;> simp at hFail
    · rcases hFits with hFits | ⟨rfl, hLate⟩
      · refine ⟨_, ⟨_, _, rfl, ?_⟩, hStream⟩
        rw [hValue, Nat.mod_eq_of_lt hFits]
      · rw [hLate] at hOk
        cases hOk

/-- The whole call, once the body is printed and `errno` is clear. -/
theorem sendTo_yields {P : Bool × Bool → World D K S Outlet → Prop} {env : Env D K S} {w : World D K S Outlet}
    {msg : Nat} (hData : nodeBstr env.lib w.heap (some msg) true = .ok data) (hErrno : w.errno = 0)
    (h : Yields (makeRoomFor (UInt16.ofNat (header.length + data.length))) w fun full w' =>
      w'.errno = 0 ∧ match full with
        | some rc => P (rc, false) w'
        | none => ∀ r o', Wrote (UInt16.ofNat (header.length + data.length)) header data flush w'.data r o' →
            ∀ w'', w''.data = o' → P r w'') :
    Yields (frameSourceSendTo env (some header) (some msg) flush) w P := by
  refine (returns_bstr.mpr ⟨hData, rfl⟩).then (yields_checkPass rfl hErrno (h.bind ?_))
  intro full w' hFull
  cases full with
  | some rc => exact yields_pure hFull.2
  | none => exact (writeFrameTo_yields hFull.1 _ _ _ _).mono fun r w'' hWrote => hFull.2 r _ hWrote w'' rfl

/-- A frame is written as a whole or not at all exactly when the space it is written to was enough for the length
as well, and the length for the frame. -/
theorem allOrNothing_iff (env : Env D K S) (w : World D K S Outlet) (header : Bytes) {data : Bytes} {msg : Nat}
    (hData : nodeBstr env.lib w.heap (some msg) true = .ok data) (flush : Bool) :
    AllOrNothing env w header data msg flush ↔
      (w.errno = 0 → Sendable (header.length + data.length) w.data flush) := by
  have hLength : (UInt16.ofNat (header.length + data.length)).toNat = (header.length + data.length) % 65536 :=
    UInt16.toNat_ofNat' ..
  by_cases hErrno : w.errno = 0
  case neg =>
    refine iff_of_true ?_ fun h => absurd h hErrno
    refine (returns_bstr.mpr ⟨hData, rfl⟩).then (yields_checkElse (fun _ => yields_pure ?_) fun hPass => ?_)
    · exact whole_of_unchanged rfl rfl
    · simp [hErrno] at hPass
  simp only [hErrno, true_implies, Sendable]
  split
  · rename_i hFull
    rw [← hLength] at hFull
    refine yields_iff (sendTo_yields hData hErrno ?_) fun r w' h => h
    refine (returns_get.mpr ⟨rfl, rfl⟩).then (yields_ite (fun _ => ?_) fun hRoom => absurd hFull hRoom)
    have hStream := w.data.stream_flush
    refine returns_ioFlushSbuf.then (yields_checkElse (fun hFail => ?_) fun hPass => ?_)
    · refine yields_pure ⟨rfl, ?_⟩
      cases hRc : w.data.nextFlush.rc with
      | false => exact iff_of_true (whole_of_unchanged hStream rfl) (by simp)
      | true =>
        refine iff_of_false (not_whole_of_unchanged hStream rfl) fun h => ?_
        simp [hRc, (h rfl).1] at hFail
    simp only [Bool.and_eq_true, beq_iff_eq] at hPass
    simp only [hPass.1, hPass.2, true_implies, true_and]
    refine (returns_get.mpr ⟨rfl, rfl⟩).then (yields_checkElse (fun hFail => ?_) fun hRoom => ?_)
    · refine yields_pure ⟨rfl, iff_of_true (whole_of_unchanged hStream rfl) fun h => ?_⟩
      have hLess : w.data.flush.out.spaceAvail < (header.length + data.length) % 65536 := by
        simpa [World.clear] using hFail
      exact absurd h (Nat.not_le.mpr hLess)
    · have hSpace : (header.length + data.length) % 65536 ≤ w.data.flush.out.spaceAvail := by
        simpa [World.clear] using hRoom
      simp only [hSpace, true_implies]
      refine yields_pure ⟨rfl, ?_⟩
      intro r o' hWrote w'' hw
      have hWhole := whole_iff_of_wrote hWrote
      simp only [Whole, World.clear_data, hStream] at hWhole
      rw [hw]
      exact hWhole
  · rename_i hRoom
    refine yields_iff (sendTo_yields hData hErrno ?_) fun r w' h => h
    refine (returns_get.mpr ⟨rfl, rfl⟩).then (yields_ite (fun hFull => absurd (hLength ▸ hFull) hRoom) fun _ => ?_)
    refine yields_pure ⟨hErrno, ?_⟩
    intro r o' hWrote w'' hw
    rw [hw]
    exact whole_iff_of_wrote hWrote

end Whole

/-- An empty group named `b`. -/
def bodyHeap : Heap Unit := [⟨⟨some [98], .group⟩, none, none, none⟩]

def emptyOutlet (size : Nat) : Outlet := ⟨⟨size, [], Nat.zero_le size⟩, [], []⟩

/-- The header `[ h` and the body fill a buffer of eleven bytes. -/
theorem allOrNothing_eleven :
    AllOrNothing sampleEnv (sampleWorld bodyHeap (emptyOutlet 11)) [91, 32, 104, 10] [91, 32, 98, 32, 10] 0 false :=
  (allOrNothing_iff sampleEnv _ _ (by rfl) false).mpr fun _ => .inr ⟨Nat.le_refl 11, .inl (by decide)⟩

/-- One byte less passes the test on the space, and a length and a header are left behind. -/
theorem not_allOrNothing_ten :
    (∃ w', Returns (frameSourceSendTo sampleEnv (some [91, 32, 104, 10]) (some 0) false)
      (sampleWorld bodyHeap (emptyOutlet 10)) (false, false) w' ∧ w'.data.stream = [0, 9, 91, 32, 104, 10]) ∧
      ¬AllOrNothing sampleEnv (sampleWorld bodyHeap (emptyOutlet 10)) [91, 32, 104, 10]
        [91, 32, 98, 32, 10] 0 false := by
  have hRun : ∃ w', Returns (frameSourceSendTo sampleEnv (some [91, 32, 104, 10]) (some 0) false)
      (sampleWorld bodyHeap (emptyOutlet 10)) (false, false) w' ∧ w'.data.stream = [0, 9, 91, 32, 104, 10] :=
    ⟨_, rfl, rfl⟩
  refine ⟨hRun, fun h => ?_⟩
  obtain ⟨w', hReturns, hStream⟩ := hRun
  have hSame := (h.of_returns hReturns).1 rfl
  rw [hStream] at hSame
  cases hSame

end Utu.Protocol
