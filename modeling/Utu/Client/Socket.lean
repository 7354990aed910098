import Utu.Client.Transport

/-!
# Frames on a socket

The loop of `readn` over what a socket delivers: pieces of any size, calls that
are interrupted, the end of the stream and errors, in any order. `read` leaves
`errno` alone when it succeeds, so an interruption is remembered until the next
`check` or the assertion behind the loop. On the writing side one call of
`writev` takes the whole frame, a part of it, or nothing.
-/

namespace Utu.Client
open Stackish Protocol LinkedForest Procedure
set_option autoImplicit false

/-! ## Reading -/

def EINTR : Nat := 4

/-- What a socket has for the next `read`: at least one byte, the end, or a failure. -/
inductive Arrival where
  | bytes (first : UInt8) (more : Bytes)
  | eof
  | failed (errno : Nat)
deriving DecidableEq, Repr

/-- Behind the last arrival the stream has ended. -/
structure Socket where
  arrivals : List Arrival
  errno : Nat
deriving DecidableEq, Repr

/-- Where the loop of `readn` is left: `cnt` came to zero, `read` returned 0, or it failed. -/
inductive LoopExit where
  | full
  | short
  | error
deriving DecidableEq, Repr

structure Loop where
  ended : LoopExit
  bp : Bytes
  socket : Socket
deriving DecidableEq, Repr

/-- What a `read` of `cnt` bytes leaves of a longer piece. -/
def leftover (cnt : Nat) (piece : Bytes) (rest : List Arrival) : List Arrival :=
  match piece.drop cnt with
  | [] => rest
  | c :: cs => .bytes c cs :: rest

/-- `while ( cnt > 0 )`, with the bytes stored so far -/
def readnLoop (cnt : Nat) (bp : Bytes) (errno : Nat) (arrivals : List Arrival) : Loop :=
  if cnt = 0 then ⟨.full, bp, ⟨arrivals, errno⟩⟩
  else
    match arrivals with
    | [] => ⟨.short, bp, ⟨[], errno⟩⟩
    | .eof :: rest => ⟨.short, bp, ⟨rest, errno⟩⟩
    | .failed e :: rest => if e = EINTR then readnLoop cnt bp e rest else ⟨.error, bp, ⟨rest, e⟩⟩
    | .bytes c cs :: rest =>
      if cs.length + 1 ≤ cnt then readnLoop (cnt - (cs.length + 1)) (bp ++ c :: cs) errno rest
      -- a longer piece fills the buffer, which ends the loop
      else ⟨.full, bp ++ (c :: cs).take cnt, ⟨leftover cnt (c :: cs) rest, errno⟩⟩

namespace Socket

def assertThat (c : Bool) (what : String) : Proc Socket Fault Unit :=
  if c then pure () else throw (.assertFailed what)

/-- `check(T, M)`: whether the call goes on. -/
def check (c : Bool) : Proc Socket Fault Bool := do
  let s ← get
  if c && s.errno == 0 then return true
  set { s with errno := 0 }
  return false

/-- `readn`: its result, and what is in the buffer. -/
def readn (fd : Int) (len : Nat) : Proc Socket Fault (Int × Bytes) := do
  assertThat (0 ≤ fd) "invalid socket on readn"
  assertThat (0 < len) "attempt to read 0"
  let s ← get
  let loop := readnLoop len [] s.errno s.arrivals
  set loop.socket
  match loop.ended with
  | .error => return (-1, loop.bp)
  | .short => return (loop.bp.length, loop.bp)
  | .full =>
    assertThat (loop.socket.errno = 0) "damn errno leak"
    return (len, loop.bp)

/-- `rc = readn(fd, buf, len); check(rc == len, M)`: the bytes, if the check passes. -/
def readChecked (fd : Int) (len : Nat) : Proc Socket Fault (Option Bytes) := do
  let (rc, buf) ← readn fd len
  if !(← check (rc = len)) then return none
  return some buf

/-- `readframe` -/
def readframe (fd : Int) : Proc Socket Fault (Option Bytes) := do
  assertThat (0 ≤ fd) "invalid socket on readframe"
  match ← readChecked fd 2 with
  | none => return none
  | some head => readChecked fd (reclen head)

end Socket

/-! ### What the arrivals say -/

/-- The bytes that come before the end of the stream or an error. -/
def available : List Arrival → Bytes
  | [] => []
  | .bytes c cs :: rest => c :: cs ++ available rest
  | .eof :: _ => []
  | .failed e :: rest => if e = EINTR then available rest else []

/-- The bytes that come before the first call that is interrupted. -/
def uninterrupted : List Arrival → Bytes
  | .bytes c cs :: rest => c :: cs ++ uninterrupted rest
  | _ => []

/-- The first frame of a stream, if the stream has all of it. -/
def firstFrame : Bytes → Option Bytes
  | hi :: lo :: rest => if reclen [hi, lo] ≤ rest.length then some (rest.take (reclen [hi, lo])) else none
  | _ => none

theorem available_leftover (cnt : Nat) (piece : Bytes) (rest : List Arrival) :
    available (leftover cnt piece rest) = piece.drop cnt ++ available rest := by
  rw [leftover]
  split
  · rename_i hDrop
    rw [hDrop, List.nil_append]
  · rename_i hDrop
    rw [hDrop, available]

theorem uninterrupted_leftover (cnt : Nat) (piece : Bytes) (rest : List Arrival) :
    uninterrupted (leftover cnt piece rest) = piece.drop cnt ++ uninterrupted rest := by
  rw [leftover]
  split
  · rename_i hDrop
    rw [hDrop, List.nil_append]
  · rename_i hDrop
    rw [hDrop, uninterrupted]

/-- A loop that finds all its bytes: they are the next ones of the stream, and `errno` tells whether a call
was interrupted on the way. -/
structure Filled (cnt : Nat) (bp : Bytes) (errno : Nat) (arrivals : List Arrival) (loop : Loop) : Prop where
  ended : loop.ended = .full
  bp_eq : loop.bp = bp ++ (available arrivals).take cnt
  errno_eq : loop.socket.errno = if cnt ≤ (uninterrupted arrivals).length then errno else EINTR
  available_eq : available loop.socket.arrivals = (available arrivals).drop cnt
  uninterrupted_eq : cnt ≤ (uninterrupted arrivals).length →
    uninterrupted loop.socket.arrivals = (uninterrupted arrivals).drop cnt

theorem filled_zero (bp : Bytes) (errno : Nat) (arrivals : List Arrival) :
    Filled 0 bp errno arrivals (readnLoop 0 bp errno arrivals) := by
  rw [readnLoop.eq_def, if_pos rfl]
  exact ⟨rfl, by simp, by simp, rfl, fun _ => rfl⟩

theorem readnLoop_filled {cnt : Nat} (bp : Bytes) (errno : Nat) {arrivals : List Arrival}
    (hEnough : cnt ≤ (available arrivals).length) :
    Filled cnt bp errno arrivals (readnLoop cnt bp errno arrivals) := by
  -- the arrivals are taken one by one; the bytes still wanted and those stored change with them
  induction arrivals generalizing cnt bp errno with
  | nil =>
    obtain rfl : cnt = 0 := Nat.le_zero.mp hEnough
    exact filled_zero bp errno []
  | cons arrival rest ih =>
    by_cases hZero : cnt = 0
    · subst hZero
      exact filled_zero bp errno _
    rw [readnLoop.eq_def, if_neg hZero]
    cases arrival with
    | eof => exact absurd (Nat.le_zero.mp hEnough) hZero
    | failed e =>
      simp only [available] at hEnough
      dsimp only
      split at hEnough
      · rename_i hIntr
        subst hIntr
        rw [if_pos rfl]
        obtain ⟨hEnded, hBp, hErrno, hAvailable, -⟩ := ih bp EINTR hEnough
        have hNone : ¬ cnt ≤ (uninterrupted (.failed EINTR :: rest)).length := by
          simpa [uninterrupted] using hZero
        refine ⟨hEnded, by simpa [available] using hBp, ?_, by simpa [available] using hAvailable,
          fun hLe => absurd hLe hNone⟩
        rw [if_neg hNone, hErrno, ite_self]
      · exact absurd (Nat.le_zero.mp hEnough) hZero
    | bytes c cs =>
      simp only [available, List.length_append, List.length_cons] at hEnough
      dsimp only
      have hPiece : (c :: cs).length = cs.length + 1 := rfl
      split
      · rename_i hFits
        have hTake : (c :: cs).take cnt = c :: cs := List.take_of_length_le hFits
        have hDrop : (c :: cs).drop cnt = [] := List.drop_eq_nil_of_le hFits
        have hEnoughLeft : cnt - (cs.length + 1) ≤ (available rest).length := by omega
        obtain ⟨hEnded, hBp, hErrno, hAvailable, hUninterrupted⟩ := ih (bp ++ c :: cs) errno hEnoughLeft
        have hSame : cnt - (cs.length + 1) ≤ (uninterrupted rest).length ↔
            cnt ≤ (uninterrupted (.bytes c cs :: rest)).length := by
          simp only [uninterrupted, List.length_append, hPiece]
          omega
        refine ⟨hEnded, ?_, ?_, ?_, fun hLe => ?_⟩
        · rw [hBp, available, List.take_append, hTake, hPiece, List.append_assoc]
        · rw [hErrno]
          simp only [hSame]
        · rw [hAvailable, available, List.drop_append, hDrop, hPiece, List.nil_append]
        · rw [hUninterrupted (hSame.mpr hLe), uninterrupted, List.drop_append, hDrop, hPiece, List.nil_append]
      · rename_i hLong
        have hInside : cnt ≤ (c :: cs).length := by
          rw [hPiece]
          omega
        refine ⟨rfl, ?_, ?_, ?_, fun _ => ?_⟩
        · rw [available, List.take_append_of_le_length hInside]
        · refine (if_pos ?_).symm
          rw [uninterrupted, List.length_append]
          omega
        · rw [available_leftover, available, List.drop_append_of_le_length hInside]
        · rw [uninterrupted_leftover, uninterrupted, List.drop_append_of_le_length hInside]

/-- A loop that does not find its bytes ends in `read`, with fewer of them. -/
theorem readnLoop_unfilled {cnt : Nat} (bp : Bytes) (errno : Nat) {arrivals : List Arrival}
    (hMissing : (available arrivals).length < cnt) :
    (readnLoop cnt bp errno arrivals).ended ≠ .full ∧
      (readnLoop cnt bp errno arrivals).bp = bp ++ available arrivals := by
  have hPos : cnt ≠ 0 := Nat.ne_zero_of_lt hMissing
  induction arrivals generalizing cnt bp errno with
  | nil =>
    rw [readnLoop.eq_def, if_neg hPos]
    simp [available]
  | cons arrival rest ih =>
    rw [readnLoop.eq_def, if_neg hPos]
    cases arrival with
    | eof => simp [available]
    | failed e =>
      simp only [available] at hMissing ⊢
      split
      · rename_i hIntr
        rw [if_pos hIntr] at hMissing
        exact ih bp e hMissing hPos
      · simp
    | bytes c cs =>
      simp only [available, List.length_append, List.length_cons] at hMissing
      dsimp only
      rw [if_pos (by omega), available, ← List.append_assoc]
      exact ih (bp ++ c :: cs) errno (by omega) (by omega)

/-! ### One frame -/

namespace Socket
variable {s s' : Socket} {fd : Int}

theorem returns_assertThat {c : Bool} {what : String} {u : Unit} :
    Returns (assertThat c what) s u s' ↔ c = true ∧ s' = s := by
  rw [assertThat, returns_ite, returns_pure, returns_throw]
  simp

theorem returns_check {c b : Bool} :
    Returns (check c) s b s' ↔ b = (c && s.errno == 0) ∧ s' = { s with errno := 0 } := by
  have hSame : s.errno = 0 → s = { s with errno := 0 } := by
    intro hErrno
    rw [← hErrno]
  simp only [check, returns_bind, returns_get, returns_ite, returns_pure, returns_set]
  constructor
  · rintro ⟨v, t, ⟨rfl, rfl⟩, ⟨hc, rfl, rfl⟩ | ⟨hc, -, t, rfl, rfl, rfl⟩⟩
    · exact ⟨hc.symm, hSame (by simpa using (Bool.and_eq_true_iff.mp hc).2)⟩
    · exact ⟨by simpa using hc, rfl⟩
  · rintro ⟨rfl, rfl⟩
    refine ⟨s, s, ⟨rfl, rfl⟩, ?_⟩
    by_cases hc : (c && s.errno == 0) = true
    · exact .inl ⟨hc, hc, (hSame (by simpa using (Bool.and_eq_true_iff.mp hc).2)).symm⟩
    · exact .inr ⟨hc, (), _, rfl, by simpa using hc, rfl⟩

/-- The result of `readn` behind its loop. -/
def rc (len : Nat) (loop : Loop) : Int :=
  match loop.ended with
  | .error => -1
  | .short => loop.bp.length
  | .full => len

theorem returns_readn {len : Nat} {r : Int × Bytes} :
    Returns (readn fd len) s r s' ↔ 0 ≤ fd ∧ 0 < len ∧ ∃ loop, loop = readnLoop len [] s.errno s.arrivals ∧
      s' = loop.socket ∧ r = (rc len loop, loop.bp) ∧ (loop.ended = .full → loop.socket.errno = 0) := by
  simp only [readn, returns_bind, returns_assertThat, returns_get, returns_set, decide_eq_true_eq]
  constructor
  · rintro ⟨-, t, ⟨hFd, rfl⟩, -, t, ⟨hLen, rfl⟩, v, t, ⟨rfl, rfl⟩, -, t, rfl, hRest⟩
    refine ⟨hFd, hLen, _, rfl, ?_⟩
    generalize readnLoop len [] _ _ = loop at hRest ⊢
    cases hEnded : loop.ended with
    | full =>
      simp only [hEnded, returns_bind, returns_assertThat, returns_pure, decide_eq_true_eq] at hRest
      obtain ⟨-, t, ⟨hErrno, rfl⟩, rfl, rfl⟩ := hRest
      exact ⟨rfl, by rw [rc, hEnded], fun _ => hErrno⟩
    | short | error =>
      simp only [hEnded, returns_pure] at hRest
      obtain ⟨rfl, rfl⟩ := hRest
      refine ⟨rfl, by rw [rc, hEnded], fun hFull => ?_⟩
      cases hFull
  · rintro ⟨hFd, hLen, loop, hLoop, rfl, rfl, hErrno⟩
    refine ⟨(), s, ⟨hFd, rfl⟩, (), s, ⟨hLen, rfl⟩, s, s, ⟨rfl, rfl⟩, (), _, rfl, ?_⟩
    rw [← hLoop]
    cases hEnded : loop.ended with
    | full =>
      simp only [rc, hEnded, returns_bind, returns_assertThat, returns_pure, decide_eq_true_eq]
      exact ⟨(), _, ⟨hErrno hEnded, rfl⟩, trivial, rfl⟩
    | short | error =>
      simp only [rc, hEnded, returns_pure]
      exact ⟨trivial, trivial⟩

/-- The result is the length exactly if the loop was left at its head. -/
theorem rc_eq_iff {len : Nat} {errno : Nat} {arrivals : List Arrival} :
    rc len (readnLoop len [] errno arrivals) = len ↔ (readnLoop len [] errno arrivals).ended = .full := by
  constructor
  · intro hRc
    rw [rc] at hRc
    split at hRc
    · omega
    · rename_i hShort
      have hMissing : (available arrivals).length < len := by
        by_contra hNot
        cases hShort.symm.trans (readnLoop_filled [] errno (Nat.le_of_not_lt hNot)).ended
      rw [(readnLoop_unfilled [] errno hMissing).2, List.nil_append] at hRc
      omega
    · assumption
  · intro hFull
    rw [rc, hFull]

theorem returns_readChecked {len : Nat} {r : Option Bytes} :
    Returns (readChecked fd len) s r s' ↔ 0 ≤ fd ∧ 0 < len ∧ ∃ loop, loop = readnLoop len [] s.errno s.arrivals ∧
      (loop.ended = .full → loop.socket.errno = 0) ∧
      r = (if loop.ended = .full then some loop.bp else none) ∧ s' = ⟨loop.socket.arrivals, 0⟩ := by
  simp only [readChecked, returns_bind, returns_readn, returns_check, returns_ite, returns_pure]
  constructor
  · rintro ⟨⟨k, buf⟩, s₁, ⟨hFd, hLen, loop, rfl, rfl, hPair, hClear⟩, b, t, ⟨rfl, rfl⟩, hExit⟩
    obtain ⟨rfl, rfl⟩ := Prod.mk.inj hPair
    refine ⟨hFd, hLen, _, rfl, hClear, ?_⟩
    rcases hExit with ⟨hFail, rfl, rfl⟩ | ⟨hPass, rfl, rfl⟩
    · refine ⟨(if_neg fun hFull => ?_).symm, rfl⟩
      simp [rc_eq_iff.mpr hFull, hClear hFull] at hFail
    · refine ⟨(if_pos (rc_eq_iff.mp ?_)).symm, rfl⟩
      simp only [Bool.not_eq_true', Bool.not_eq_false, Bool.and_eq_true, decide_eq_true_eq] at hPass
      exact hPass.1
  · rintro ⟨hFd, hLen, loop, rfl, hClear, rfl, rfl⟩
    refine ⟨(rc len _, _), _, ⟨hFd, hLen, _, rfl, rfl, rfl, hClear⟩, _, _, ⟨rfl, rfl⟩, ?_⟩
    by_cases hFull : (readnLoop len [] s.errno s.arrivals).ended = .full
    · refine .inr ⟨?_, if_pos hFull, rfl⟩
      simp [rc_eq_iff.mpr hFull, hClear hFull]
    · refine .inl ⟨?_, if_neg hFull, rfl⟩
      simp [mt rc_eq_iff.mp hFull]

/-- A checked read that finds its bytes returns exactly if no `read` on the way was interrupted. -/
theorem returns_readChecked_enough (hFd : 0 ≤ fd) {len : Nat} (hLen : 0 < len) {arrivals : List Arrival}
    (hEnough : len ≤ (available arrivals).length) {r : Option Bytes} :
    Returns (readChecked fd len) ⟨arrivals, 0⟩ r s' ↔ len ≤ (uninterrupted arrivals).length ∧
      r = some ((available arrivals).take len) ∧ s' = ⟨(readnLoop len [] 0 arrivals).socket.arrivals, 0⟩ := by
  have hFilled := readnLoop_filled [] 0 hEnough
  have hErrno := hFilled.errno_eq
  have hData := hFilled.bp_eq
  rw [List.nil_append] at hData
  rw [returns_readChecked]
  constructor
  · rintro ⟨-, -, loop, rfl, hClear, rfl, rfl⟩
    refine ⟨?_, by rw [if_pos hFilled.ended, hData], rfl⟩
    by_contra hNot
    rw [hClear hFilled.ended, if_neg hNot] at hErrno
    cases hErrno
  · rintro ⟨hQuiet, rfl, rfl⟩
    rw [if_pos hQuiet] at hErrno
    exact ⟨hFd, hLen, _, rfl, fun _ => hErrno, by rw [if_pos hFilled.ended, hData], rfl⟩

theorem returns_readChecked_missing (hFd : 0 ≤ fd) {len : Nat} {arrivals : List Arrival}
    (hMissing : (available arrivals).length < len) :
    ∃ s', Returns (readChecked fd len) ⟨arrivals, 0⟩ none s' := by
  have hEnded := (readnLoop_unfilled [] 0 hMissing).1
  exact ⟨_, returns_readChecked.mpr ⟨hFd, Nat.zero_lt_of_lt hMissing, _, rfl, fun hFull => absurd hFull hEnded,
    (if_neg hEnded).symm, rfl⟩⟩

/-- What `readframe` does with the length. -/
def readRecord (fd : Int) : Option Bytes → Proc Socket Fault (Option Bytes)
  | none => pure none
  | some head => readChecked fd (reclen head)

theorem readframe_eq (hFd : 0 ≤ fd) : readframe fd = readChecked fd 2 >>= readRecord fd := by
  have hAssert : assertThat (0 ≤ fd) "invalid socket on readframe" = pure () := if_pos (decide_eq_true hFd)
  rw [readframe, hAssert, pure_bind]
  rfl

theorem readChecked_zero {r : Option Bytes} : ¬ Returns (readChecked fd 0) s r s' := by
  intro h
  exact Nat.lt_irrefl 0 (returns_readChecked.mp h).2.1

end Socket

/-- `readframe` returns the first frame of the stream, or NULL if the stream ends before the frame does. -/
def ReadsFirstFrame (fd : Int) (arrivals : List Arrival) : Prop :=
  ∃ s', Returns (Socket.readframe fd) ⟨arrivals, 0⟩ (firstFrame (available arrivals)) s'

/-- No frame is empty, no length is interrupted, and no frame that comes to its end. -/
def Uninterrupted (arrivals : List Arrival) : Prop :=
  ∀ hi lo rest, available arrivals = hi :: lo :: rest → 0 < reclen [hi, lo] ∧
    2 ≤ (uninterrupted arrivals).length ∧
    (reclen [hi, lo] ≤ rest.length → 2 + reclen [hi, lo] ≤ (uninterrupted arrivals).length)

theorem firstFrame_short {b : Bytes} (h : b.length < 2) : firstFrame b = none := by
  rcases b with _ | ⟨hi, _ | ⟨lo, rest⟩⟩
  · rfl
  · rfl
  · simp only [List.length_cons] at h
    omega

/-- A stream that has no length yet. -/
theorem readsFirstFrame_short {fd : Int} (hFd : 0 ≤ fd) {arrivals : List Arrival}
    (hShort : (available arrivals).length < 2) : ReadsFirstFrame fd arrivals := by
  obtain ⟨s', hRead⟩ := Socket.returns_readChecked_missing hFd hShort
  refine ⟨s', ?_⟩
  rw [firstFrame_short hShort, Socket.readframe_eq hFd]
  exact returns_bind.mpr ⟨none, s', hRead, returns_pure.mpr ⟨rfl, rfl⟩⟩

/-- With the length read, the record is read or found missing. -/
theorem readRecord_iff {fd : Int} (hFd : 0 ≤ fd) (hi lo : UInt8) (arrivals : List Arrival) :
    (∃ s', Returns (Socket.readRecord fd (some [hi, lo])) ⟨arrivals, 0⟩
        (firstFrame (hi :: lo :: available arrivals)) s') ↔
      0 < reclen [hi, lo] ∧
        (reclen [hi, lo] ≤ (available arrivals).length → reclen [hi, lo] ≤ (uninterrupted arrivals).length) := by
  rw [firstFrame, Socket.readRecord]
  by_cases hZero : reclen [hi, lo] = 0
  · simp only [hZero, Nat.lt_irrefl, false_and, iff_false, not_exists]
    exact fun s' => Socket.readChecked_zero
  · have hPos : 0 < reclen [hi, lo] := Nat.pos_of_ne_zero hZero
    by_cases hEnough : reclen [hi, lo] ≤ (available arrivals).length
    · rw [if_pos hEnough]
      simp only [Socket.returns_readChecked_enough hFd hPos hEnough, hPos, hEnough, true_and, forall_const]
      exact ⟨fun ⟨_, hQuiet, _⟩ => hQuiet, fun hQuiet => ⟨_, hQuiet, rfl⟩⟩
    · rw [if_neg hEnough]
      simp only [hPos, hEnough, true_and, false_imp_iff, iff_true]
      exact Socket.returns_readChecked_missing hFd (Nat.lt_of_not_le hEnough)

theorem readsFirstFrame_iff {fd : Int} (hFd : 0 ≤ fd) (arrivals : List Arrival) :
    ReadsFirstFrame fd arrivals ↔ Uninterrupted arrivals := by
  by_cases hShort : (available arrivals).length < 2
  · refine iff_of_true (readsFirstFrame_short hFd hShort) ?_
    intro hi lo rest hStream
    rw [hStream, List.length_cons, List.length_cons] at hShort
    omega
  · have hTwo : 2 ≤ (available arrivals).length := Nat.le_of_not_lt hShort
    obtain ⟨hi, tail, hStream⟩ := List.exists_cons_of_length_pos (Nat.lt_of_lt_of_le Nat.two_pos hTwo)
    have hMore : 0 < tail.length := by
      rw [hStream, List.length_cons] at hTwo
      omega
    obtain ⟨lo, rest, rfl⟩ := List.exists_cons_of_length_pos hMore
    have hFilled := readnLoop_filled [] 0 hTwo
    have hRest : available (readnLoop 2 [] 0 arrivals).socket.arrivals = rest := by
      rw [hFilled.available_eq, hStream]
      rfl
    have hHead : (available arrivals).take 2 = [hi, lo] := by
      rw [hStream]
      rfl
    have hRecord := readRecord_iff hFd hi lo (readnLoop 2 [] 0 arrivals).socket.arrivals
    rw [hRest] at hRecord
    rw [ReadsFirstFrame, Socket.readframe_eq hFd]
    simp only [returns_bind, Socket.returns_readChecked_enough hFd Nat.two_pos hTwo, hHead]
    constructor
    · rintro ⟨s', head, s₁, ⟨hQuiet, rfl, rfl⟩, hRead⟩ hi' lo' rest' hStream'
      obtain ⟨rfl, hTail⟩ := List.cons.inj (hStream.symm.trans hStream')
      obtain ⟨rfl, rfl⟩ := List.cons.inj hTail
      rw [hStream] at hRead
      obtain ⟨hPos, hWhole⟩ := hRecord.mp ⟨s', hRead⟩
      rw [hFilled.uninterrupted_eq hQuiet, List.length_drop] at hWhole
      refine ⟨hPos, hQuiet, fun hEnough => ?_⟩
      have := hWhole hEnough
      omega
    · intro hUninterrupted
      obtain ⟨hPos, hQuiet, hWhole⟩ := hUninterrupted hi lo rest hStream
      rw [hFilled.uninterrupted_eq hQuiet, List.length_drop] at hRecord
      obtain ⟨s', hRead⟩ := hRecord.mpr ⟨hPos, fun hEnough => by have := hWhole hEnough; omega⟩
      rw [← hStream] at hRead
      exact ⟨s', _, _, ⟨hQuiet, rfl, rfl⟩, hRead⟩

/-- A frame of three bytes that comes in three pieces, the last with a byte of the next frame. -/
theorem readsFirstFrame_pieces : (0 : Int) ≤ 3 ∧
    Uninterrupted [.bytes 0 [], .bytes 3 [97], .bytes 98 [99, 0], .failed EINTR] ∧
    ReadsFirstFrame 3 [.bytes 0 [], .bytes 3 [97], .bytes 98 [99, 0], .failed EINTR] := by
  have hUninterrupted : Uninterrupted [.bytes 0 [], .bytes 3 [97], .bytes 98 [99, 0], .failed EINTR] := by
    intro hi lo rest hStream
    have hBytes : ([0, 3, 97, 98, 99, 0] : Bytes) = hi :: lo :: rest := hStream
    obtain ⟨rfl, hTail⟩ := List.cons.inj hBytes
    obtain ⟨rfl, rfl⟩ := List.cons.inj hTail
    decide
  exact ⟨by decide, hUninterrupted, (readsFirstFrame_iff (by decide) _).mpr hUninterrupted⟩

/-- An empty frame, and a frame of one byte with an interruption before that byte: both end in an assertion. -/
theorem not_readsFirstFrame_empty :
    ¬ ReadsFirstFrame 3 [.bytes 0 [0]] ∧ ¬ ReadsFirstFrame 3 [.bytes 0 [1], .failed EINTR, .bytes 97 []] := by
  constructor
  · rintro ⟨s', h⟩
    have hRun : Socket.readframe 3 ⟨[.bytes 0 [0]], 0⟩ = .error (.assertFailed "attempt to read 0") := rfl
    cases hRun.symm.trans h
  · rintro ⟨s', h⟩
    have hRun : Socket.readframe 3 ⟨[.bytes 0 [1], .failed EINTR, .bytes 97 []], 0⟩ =
      .error (.assertFailed "damn errno leak") := rfl
    cases hRun.symm.trans h

/-! ### The two models of `readn` -/

section Refine
variable {D K S : Type} {w w' : World D K S Link} {fd : Int}

/-- One answer for the whole loop. -/
def Loop.reading (loop : Loop) : Reading := ⟨loop.bp, loop.socket.errno⟩

/-- The answers that `readframe` gets from a socket. -/
def Socket.readings (s : Socket) : List Reading :=
  let first := readnLoop 2 [] s.errno s.arrivals
  [first.reading, (readnLoop (reclen first.bp) [] 0 first.socket.arrivals).reading]

theorem length_eq_iff (len errno : Nat) (arrivals : List Arrival) :
    (readnLoop len [] errno arrivals).bp.length = len ↔ (readnLoop len [] errno arrivals).ended = .full := by
  by_cases hEnough : len ≤ (available arrivals).length
  · have hFilled := readnLoop_filled [] errno hEnough
    refine iff_of_true ?_ hFilled.ended
    rw [hFilled.bp_eq, List.nil_append, List.length_take, Nat.min_eq_left hEnough]
  · obtain ⟨hEnded, hBp⟩ := readnLoop_unfilled [] errno (Nat.lt_of_not_le hEnough)
    refine iff_of_false ?_ hEnded
    rw [hBp, List.nil_append]
    omega

theorem returns_assertThat {c : Bool} {what : String} {u : Unit} :
    Returns (assertThat c what) w u w' ↔ c = true ∧ w' = w := by
  rw [assertThat, returns_ite, returns_pure, returns_throw]
  simp

theorem returns_nextRead {r : Reading} {rest : List Reading} (hReads : w.data.net.reads = r :: rest) :
    Returns nextRead w r { w with data := { w.data with net := { w.data.net with reads := rest } } } := by
  refine returns_bind.mpr ⟨w, w, returns_get.mpr ⟨rfl, rfl⟩, ?_⟩
  refine returns_bind.mpr ⟨(), _, returns_set.mpr rfl, returns_pure.mpr ⟨?_, ?_⟩⟩
  · rw [hReads]
    rfl
  · rw [hReads]
    rfl

/-- `readn` on the answer that stands for a loop. -/
theorem returns_readn_reading (hFd : 0 ≤ fd) {len errno : Nat} {arrivals : List Arrival} {rest : List Reading}
    (hReads : w.data.net.reads = (readnLoop len [] errno arrivals).reading :: rest) {r : Option Bytes} :
    Returns (readn fd len) w r w' ↔ 0 < len ∧ ∃ loop, loop = readnLoop len [] errno arrivals ∧
      (loop.ended = .full → loop.socket.errno = 0) ∧
      r = (if loop.ended = .full then some loop.bp else none) ∧
      w' = { w with errno := loop.socket.errno, data := { w.data with net := { w.data.net with reads := rest } } } := by
  have hFull := length_eq_iff len errno arrivals
  have hNext := returns_nextRead hReads
  generalize readnLoop len [] errno arrivals = loop at hFull hNext
  simp only [readn, returns_bind, returns_assertThat, returns_modify, returns_ite, returns_pure, decide_eq_true_eq,
    Loop.reading] at hNext ⊢
  constructor
  · rintro ⟨-, t, ⟨-, rfl⟩, -, t, ⟨hLen, rfl⟩, reading, t, hRead, -, t, rfl, hExit⟩
    obtain ⟨rfl, rfl⟩ := hRead.unique hNext
    refine ⟨hLen, loop, rfl, ?_⟩
    rcases hExit with ⟨hSame, -, t, ⟨hErrno, rfl⟩, rfl, rfl⟩ | ⟨hOther, rfl, rfl⟩
    · exact ⟨fun _ => hErrno, (if_pos (hFull.mp hSame)).symm, rfl⟩
    · have hNot := mt hFull.mpr hOther
      exact ⟨fun h => absurd h hNot, (if_neg hNot).symm, rfl⟩
  · rintro ⟨hLen, loop, rfl, hClear, rfl, rfl⟩
    refine ⟨(), w, ⟨hFd, rfl⟩, (), w, ⟨hLen, rfl⟩, _, _, hNext, (), _, rfl, ?_⟩
    by_cases hEnded : loop.ended = .full
    · exact .inl ⟨hFull.mpr hEnded, (), _, ⟨hClear hEnded, rfl⟩, if_pos hEnded, rfl⟩
    · exact .inr ⟨mt hFull.mp hEnded, if_neg hEnded, rfl⟩

/-- The `check` behind a `readn`. -/
def checkRead : Option Bytes → Step D K S (Option Bytes)
  | none => do
    let _ ← check false
    return none
  | some data => do
    if !(← check true) then return none
    return some data

/-- What `readframe` does with the length. -/
def readRecord (fd : Int) : Option Bytes → Step D K S (Option Bytes)
  | none => pure none
  | some head => readn fd (reclen head) >>= checkRead

theorem readframe_split (fd : Int) :
    (readframe fd : Step D K S _) = readn fd 2 >>= checkRead >>= readRecord fd := by
  rw [readframe, bind_assoc]
  congr 1
  funext head
  cases head with
  | none => simp only [checkRead, readRecord, bind_assoc, pure_bind]
  | some head =>
    simp only [checkRead, bind_assoc]
    congr 1
    funext passed
    cases passed with
    | false => simp [readRecord]
    | true =>
      simp only [Bool.not_true, Bool.false_eq_true, if_false, pure_bind, readRecord]
      congr 1

theorem returns_readn_checkRead (hFd : 0 ≤ fd) {len errno : Nat} {arrivals : List Arrival} {rest : List Reading}
    (hReads : w.data.net.reads = (readnLoop len [] errno arrivals).reading :: rest) {r : Option Bytes} :
    Returns (readn fd len >>= checkRead) w r w' ↔ 0 < len ∧ ∃ loop, loop = readnLoop len [] errno arrivals ∧
      (loop.ended = .full → loop.socket.errno = 0) ∧
      r = (if loop.ended = .full then some loop.bp else none) ∧
      w' = { w with errno := 0, data := { w.data with net := { w.data.net with reads := rest } } } := by
  simp only [returns_bind, returns_readn_reading hFd hReads]
  constructor
  · rintro ⟨data, t, ⟨hLen, loop, rfl, hClear, rfl, rfl⟩, hCheck⟩
    refine ⟨hLen, _, rfl, hClear, ?_⟩
    split at hCheck
    · rename_i hFull
      simp only [checkRead, returns_bind, returns_check, returns_ite, returns_pure, hClear hFull] at hCheck
      obtain ⟨b, t, ⟨rfl, rfl⟩, ⟨hFail, -⟩ | ⟨-, rfl, rfl⟩⟩ := hCheck
      · cases hFail
      · exact ⟨(if_pos hFull).symm, rfl⟩
    · rename_i hNot
      simp only [checkRead, returns_bind, returns_check, returns_pure] at hCheck
      obtain ⟨b, t, ⟨rfl, rfl⟩, rfl, rfl⟩ := hCheck
      exact ⟨(if_neg hNot).symm, rfl⟩
  · rintro ⟨hLen, loop, rfl, hClear, rfl, rfl⟩
    refine ⟨_, _, ⟨hLen, _, rfl, hClear, rfl, rfl⟩, ?_⟩
    split
    · rename_i hFull
      rw [hClear hFull]
      exact returns_bind.mpr ⟨true, _, returns_check.mpr ⟨rfl, rfl⟩, returns_pure.mpr ⟨rfl, rfl⟩⟩
    · exact returns_bind.mpr ⟨false, _, returns_check.mpr ⟨rfl, rfl⟩, returns_pure.mpr ⟨rfl, rfl⟩⟩

theorem readRecord_refines (hFd : 0 ≤ fd) (arrivals : List Arrival) {rest : List Reading} (head : Option Bytes)
    (hReads : ∀ b, head = some b →
      w.data.net.reads = (readnLoop (reclen b) [] 0 arrivals).reading :: rest) (r : Option Bytes) :
    (∃ w', Returns (readRecord fd head) w r w') ↔ ∃ s', Returns (Socket.readRecord fd head) ⟨arrivals, 0⟩ r s' := by
  cases head with
  | none =>
    simp only [readRecord, Socket.readRecord, returns_pure]
    exact ⟨fun ⟨_, hr, _⟩ => ⟨_, hr, rfl⟩, fun ⟨_, hr, _⟩ => ⟨_, hr, rfl⟩⟩
  | some b =>
    simp only [readRecord, Socket.readRecord, returns_readn_checkRead hFd (hReads b rfl),
      Socket.returns_readChecked, hFd, true_and]
    constructor
    · rintro ⟨w', hLen, loop, hLoop, hClear, hr, -⟩
      exact ⟨_, hLen, loop, hLoop, hClear, hr, rfl⟩
    · rintro ⟨s', hLen, loop, hLoop, hClear, hr, -⟩
      exact ⟨_, hLen, loop, hLoop, hClear, hr, rfl⟩

/-- `readframe` returns from a socket exactly what it returns when each `readn` is one answer. -/
theorem readframe_refines (hFd : 0 ≤ fd) (s : Socket) {rest : List Reading}
    (hReads : w.data.net.reads = s.readings ++ rest) (r : Option Bytes) :
    (∃ w', Returns (readframe fd) w r w') ↔ ∃ s', Returns (Socket.readframe fd) s r s' := by
  let w₁ : World D K S Link :=
    { w with errno := 0, data := { w.data with net := { w.data.net with reads := s.readings.tail ++ rest } } }
  let first := readnLoop 2 [] s.errno s.arrivals
  have hHead : ∀ b, (if first.ended = .full then some first.bp else none) = some b →
      w₁.data.net.reads = (readnLoop (reclen b) [] 0 first.socket.arrivals).reading :: rest := by
    intro b hb
    split at hb
    · cases hb
      rfl
    · cases hb
  have hRecord := readRecord_refines hFd first.socket.arrivals _ hHead r
  rw [readframe_split, Socket.readframe_eq hFd]
  simp only [returns_bind, returns_readn_checkRead hFd hReads, Socket.returns_readChecked, hFd, true_and]
  constructor
  · rintro ⟨w', head, t, ⟨hTwo, loop, rfl, hClear, rfl, rfl⟩, hRest⟩
    obtain ⟨s', hRead⟩ := hRecord.mp ⟨w', hRest⟩
    exact ⟨s', _, _, ⟨hTwo, _, rfl, hClear, rfl, rfl⟩, hRead⟩
  · rintro ⟨s', head, t, ⟨hTwo, loop, rfl, hClear, rfl, rfl⟩, hRest⟩
    obtain ⟨w', hRead⟩ := hRecord.mpr ⟨s', hRest⟩
    exact ⟨w', _, _, ⟨hTwo, _, rfl, hClear, rfl, rfl⟩, hRead⟩

end Refine

/-! ## Writing -/

section Send
variable {D K S : Type} (env : Env D K S)

/-- A call of `write_header_node` or of `writenodes`. -/
inductive Sending where
  | headerNode (header : Bytes) (body : Option Nat)
  | nodes (header : Nat) (body : Option Nat)
deriving DecidableEq, Repr

def Sending.run (fd : Int) : Sending → Step D K S Int
  | .headerNode header body => writeHeaderNode env fd (some header) body
  | .nodes header body => writenodes env fd (some header) body

/-- The bytes behind the length: the header with the text of the body. -/
def Sending.contents (heap : Heap D) : Sending → Run Bytes
  | .headerNode header body => nodeCatbstr env.lib heap (heap.length + 1) header body 32 true
  | .nodes header body => do
    let data ← nodeCatbstr env.lib heap (heap.length + 1) [] (some header) 32 true
    nodeCatbstr env.lib heap (heap.length + 1) data body 32 true

/-- The two pieces that `writev` is given. -/
def record (data : Bytes) : Bytes := networkBytes (UInt16.ofNat data.length) ++ data

/-- The answer to the next `writev`. -/
def nextWriting (w : World D K S Link) : Writing := w.data.net.writes.headD ⟨-1, 0⟩

/-- The world behind the call. -/
def wrote (w : World D K S Link) : World D K S Link :=
  { w with errno := 0, data := { w.data with net := { w.data.net with writes := w.data.net.writes.tail } } }

variable {env} {w w' : World D K S Link} {fd : Int}

theorem returns_catbstr {str : Bytes} {node : Option Nat} {data : Bytes} :
    Returns (catbstr env str node) w data w' ↔
      nodeCatbstr env.lib w.heap (w.heap.length + 1) str node 32 true = .ok data ∧ w' = w := by
  simp only [catbstr, returns_bind, returns_get, returns_lift]
  constructor
  · rintro ⟨v, t, ⟨rfl, rfl⟩, h, rfl⟩
    exact ⟨h, rfl⟩
  · rintro ⟨h, rfl⟩
    exact ⟨w', w', ⟨rfl, rfl⟩, h, rfl⟩

theorem returns_nextWrite {r : Writing} : Returns nextWrite w r w' ↔ r = nextWriting w ∧
    w' = { w with data := { w.data with net := { w.data.net with writes := w.data.net.writes.tail } } } := by
  simp only [nextWrite, returns_bind, returns_get, returns_set, returns_pure]
  constructor
  · rintro ⟨v, t, ⟨rfl, rfl⟩, -, t, rfl, rfl, rfl⟩
    exact ⟨rfl, rfl⟩
  · rintro ⟨rfl, rfl⟩
    exact ⟨w, w, ⟨rfl, rfl⟩, (), _, rfl, rfl, rfl⟩

/-- Whatever `errno` says, the result is the one of `writev`. -/
theorem returns_writeHeaderNode (hFd : 0 ≤ fd) {header : Bytes} {body : Option Nat} {rc : Int} :
    Returns (writeHeaderNode env fd (some header) body) w rc w' ↔
      (∃ data, nodeCatbstr env.lib w.heap (w.heap.length + 1) header body 32 true = .ok data) ∧
        rc = (nextWriting w).rc ∧ w' = wrote w := by
  simp only [writeHeaderNode, orAssert, pure_bind, returns_bind, returns_assertThat, returns_catbstr,
    returns_nextWrite, returns_modify, returns_check, returns_pure, decide_eq_true_eq]
  constructor
  · rintro ⟨-, t, ⟨-, rfl⟩, data, t, ⟨hData, rfl⟩, r, t, ⟨rfl, rfl⟩, -, t, rfl, -, t, ⟨-, rfl⟩, rfl, rfl⟩
    exact ⟨⟨data, hData⟩, rfl, rfl⟩
  · rintro ⟨⟨data, hData⟩, rfl, rfl⟩
    exact ⟨(), w, ⟨hFd, rfl⟩, data, w, ⟨hData, rfl⟩, _, _, ⟨rfl, rfl⟩, (), _, rfl, _, _, ⟨rfl, rfl⟩, rfl, rfl⟩

theorem Sending.returns_run (hFd : 0 ≤ fd) (call : Sending) {rc : Int} :
    Returns (call.run env fd) w rc w' ↔
      (∃ data, call.contents env w.heap = .ok data) ∧ rc = (nextWriting w).rc ∧ w' = wrote w := by
  cases call with
  | headerNode header body => exact returns_writeHeaderNode hFd
  | nodes header body =>
    simp only [Sending.run, Sending.contents, writenodes, orAssert, pure_bind, returns_bind, returns_assertThat,
      returns_catbstr, returns_writeHeaderNode hFd, returns_check, returns_pure, decide_eq_true_eq,
      Outcome.bind_eq_ok_iff]
    constructor
    · rintro ⟨-, t, ⟨-, rfl⟩, text, t, ⟨hText, rfl⟩, rc, t, ⟨⟨data, hData⟩, rfl, rfl⟩, -, t, ⟨-, rfl⟩, rfl, rfl⟩
      exact ⟨⟨data, text, hText, hData⟩, rfl, rfl⟩
    · rintro ⟨⟨data, text, hText, hData⟩, rfl, rfl⟩
      exact ⟨(), w, ⟨hFd, rfl⟩, text, w, ⟨hText, rfl⟩, _, _, ⟨⟨data, hData⟩, rfl, rfl⟩, _, _, ⟨rfl, rfl⟩, rfl, rfl⟩

variable (env)

/-- The call returns, and a positive result says that all of a well-formed frame is on the wire. -/
def WritesFrame (fd : Int) (call : Sending) (w : World D K S Link) : Prop :=
  Yields (call.run env fd) w fun rc _ => 0 < rc → ∃ data, call.contents env w.heap = .ok data ∧
    (record data).take rc.toNat = record data ∧
    ∃ n : UInt16, record data = networkBytes n ++ data ∧ n.toNat = data.length

/-- There is room for the text, and `writev` takes nothing or, of a text that the length can count, all. -/
def TakenWhole (call : Sending) (w : World D K S Link) : Prop :=
  ∃ data, call.contents env w.heap = .ok data ∧
    (0 < (nextWriting w).rc → data.length ≤ 65535 ∧ data.length + 2 ≤ (nextWriting w).rc)

/-- What a call puts on the wire. -/
def wireBytes (call : Sending) (w : World D K S Link) : Bytes :=
  match call.contents env w.heap with
  | .ok data => (record data).take (nextWriting w).rc.toNat
  | .error _ => []

variable {env}

theorem record_length (data : Bytes) : (record data).length = data.length + 2 := by
  simp [record, networkBytes]

theorem record_wellFormed_iff {data : Bytes} :
    (∃ n : UInt16, record data = networkBytes n ++ data ∧ n.toNat = data.length) ↔ data.length ≤ 65535 := by
  constructor
  · rintro ⟨n, -, hLength⟩
    have hLess := n.toNat_lt
    omega
  · intro hShort
    exact ⟨_, rfl, UInt16.toNat_ofNat_of_lt' (Nat.lt_succ_of_le hShort)⟩

theorem sendsFrame_iff (hFd : 0 ≤ fd) (call : Sending) (w : World D K S Link) :
    WritesFrame env fd call w ↔ TakenWhole env call w := by
  constructor
  · rintro ⟨rc, w', hRun, hFrame⟩
    obtain ⟨⟨data, hData⟩, rfl, -⟩ := (Sending.returns_run hFd call).mp hRun
    refine ⟨data, hData, fun hPos => ?_⟩
    obtain ⟨data', hData', hWhole, hForm⟩ := hFrame hPos
    obtain rfl : data = data' := Except.ok.inj (hData.symm.trans hData')
    refine ⟨record_wellFormed_iff.mp hForm, ?_⟩
    have hLength := congrArg List.length hWhole
    rw [List.length_take, record_length] at hLength
    omega
  · rintro ⟨data, hData, hWhole⟩
    refine ⟨_, _, (Sending.returns_run hFd call).mpr ⟨⟨data, hData⟩, rfl, rfl⟩, fun hPos => ?_⟩
    obtain ⟨hShort, hAll⟩ := hWhole hPos
    refine ⟨data, hData, List.take_of_length_le ?_, record_wellFormed_iff.mpr hShort⟩
    rw [record_length]
    omega

/-- A call that is taken whole puts one frame on the wire, or none. -/
theorem wireBytes_takenWhole {call : Sending} (h : TakenWhole env call w) :
    ∃ records : List Bytes, (∀ d ∈ records, d.length ≤ 65535) ∧ wireBytes env call w = records.flatMap record := by
  obtain ⟨data, hData, hWhole⟩ := h
  simp only [wireBytes, hData]
  by_cases hPos : 0 < (nextWriting w).rc
  · obtain ⟨hShort, hAll⟩ := hWhole hPos
    refine ⟨[data], by simpa using hShort, ?_⟩
    rw [List.take_of_length_le (by rw [record_length]; omega)]
    simp
  · refine ⟨[], by simp, ?_⟩
    rw [Int.toNat_of_nonpos (by omega)]
    rfl

theorem wire_records {calls : List (Sending × World D K S Link)}
    (hAll : ∀ c ∈ calls, TakenWhole env c.1 c.2) :
    ∃ records : List Bytes, (∀ d ∈ records, d.length ≤ 65535) ∧
      (calls.flatMap fun c => wireBytes env c.1 c.2) = records.flatMap record := by
  induction calls with
  | nil => exact ⟨[], by simp, rfl⟩
  | cons c rest ih =>
    obtain ⟨first, hFirst, hBytes⟩ := wireBytes_takenWhole (hAll c List.mem_cons_self)
    obtain ⟨more, hMore, hRest⟩ := ih fun d hd => hAll d (List.mem_cons_of_mem c hd)
    refine ⟨first ++ more, fun d hd => ?_, ?_⟩
    · rcases List.mem_append.mp hd with hd | hd
      · exact hFirst d hd
      · exact hMore d hd
    · rw [List.flatMap_cons, hBytes, hRest, List.flatMap_append]

variable (env)

/-- A call reports success for a whole frame alone exactly if `writev` takes the frame whole; and calls that do
leave a sequence of frames on the wire. -/
theorem writesFrame_iff (hFd : 0 ≤ fd) :
    (∀ (call : Sending) (w : World D K S Link), WritesFrame env fd call w ↔ TakenWhole env call w) ∧
      ∀ calls : List (Sending × World D K S Link), (∀ c ∈ calls, TakenWhole env c.1 c.2) →
        ∃ records : List Bytes, (∀ d ∈ records, d.length ≤ 65535) ∧
          (calls.flatMap fun c => wireBytes env c.1 c.2) = records.flatMap record :=
  ⟨sendsFrame_iff hFd, fun _ => wire_records⟩

end Send

/-- A socket on which the next `writev` returns `rc`. -/
def writeAnswers (rc : Int) : Link := { idleLink with net := ⟨0, 0, [], [⟨rc, 0⟩]⟩ }

theorem writesFrame_letter :
    (0 : Int) ≤ 3 ∧ TakenWhole sampleEnv (.nodes 0 none) (sampleWorld lettersHeap (writeAnswers 6)) ∧
      WritesFrame sampleEnv 3 (.nodes 0 none) (sampleWorld lettersHeap (writeAnswers 6)) := by
  have hWhole : TakenWhole sampleEnv (.nodes 0 none) (sampleWorld lettersHeap (writeAnswers 6)) :=
    ⟨[91, 32, 104, 32], rfl, fun _ => by decide⟩
  exact ⟨by decide, hWhole, ((writesFrame_iff sampleEnv (by decide)).1 _ _).mpr hWhole⟩

/-- One byte of a frame counts as success, and so does a text of 65536 bytes with the length 0. -/
theorem not_writesFrame_short :
    ¬ WritesFrame sampleEnv 3 (.headerNode [91, 32, 104, 32] none) (sampleWorld lettersHeap (writeAnswers 1)) ∧
    ¬ WritesFrame sampleEnv 3 (.headerNode (List.replicate 65536 32) none)
      (sampleWorld lettersHeap (writeAnswers 65538)) := by
  constructor
  · intro hWrites
    obtain ⟨data, hData, hWhole⟩ := (sendsFrame_iff (by decide) _ _).mp hWrites
    cases hData
    exact absurd (hWhole (by decide)).2 (by decide)
  · intro hWrites
    obtain ⟨data, hData, hWhole⟩ := (sendsFrame_iff (by decide) _ _).mp hWrites
    obtain rfl : List.replicate 65536 32 = data := Except.ok.inj hData
    have hShort := (hWhole (by decide)).1
    rw [List.length_replicate] at hShort
    omega

end Utu.Client
