import Utu.Stackish.Machine
import Utu.Stackish.Destroy

/-!
# The Stackish parser

The handlers, the generated scanner loop and `Node_parse_seq`, in the order of
the source. The scanner reads a buffer that ends in a NUL outside of it; offsets
are positions in the buffer, and the arithmetic on them is that of `size_t`.
Every `check` also fails on a stale `errno`, and clears it.
-/

namespace Utu.Stackish
open LinkedForest
set_option autoImplicit false

inductive NodeType where
  | number | string | blob | float | invalid | group
deriving DecidableEq, Repr

/-- The memory the handlers work on: the nodes, `errno`, and the two parser pointers. -/
structure Store (D : Type) where
  heap : Heap D
  errno : Nat
  root : Option Nat
  current : Option Nat
deriving DecidableEq, Repr

structure Parser (D : Type) where
  cs : Nat
  more : Nat
  nread : Nat
  mark : Nat
  store : Store D
deriving DecidableEq, Repr

section Handlers
variable {D : Type} (lib : DoubleLib D)

/-- The jump to `_check_fail`. -/
def Store.fail (st : Store D) : Store D := { st with errno := 0 }

def nodeFromStr (st : Store D) (parent : Nat) (type : NodeType) (start : Bytes) (length : Nat) :
    Bool × Store D :=
  let add (st : Store D) (value : Value D) : Bool × Store D :=
    (true, { st with heap := nodeCreate st.heap (some parent) value })
  match type with
  | .blob => add st (.blob (blk2bstr start (toInt length)))
  | .string => add st (.string (blk2bstr start (toInt length)))
  | .number =>
    let number := strtoul start
    let st := if number.range then { st with errno := ERANGE } else st
    if number.stop = length ∧ st.errno = 0 then add st (.number (UInt64.ofNat number.value))
    else (false, st.fail)
  | .float =>
    let (floating, stop, range) := lib.strtod start
    let st := if range then { st with errno := ERANGE } else st
    if stop = length ∧ st.errno = 0 then add st (.float floating) else (false, st.fail)
  | .invalid => (false, st.fail)
  | .group => (false, st.fail)

def handlePush (st : Store D) (type : NodeType) (start : Bytes) (length : Nat) :
    Run (Bool × Store D) :=
  match st.current with
  | none => pure (false, st.fail)
  | some current =>
    if st.errno ≠ 0 ∨ st.root = none then pure (false, st.fail)
    else
      match st.heap[current]? with
      | none => throw .badPointer
      | some node =>
        match node.data.value with
        | .group => pure (nodeFromStr lib st current type start length)
        | _ => pure (false, st.fail)

/-- The new name of a group; a NULL `start` is the anonymous close of `handle_group`. -/
def wordName (start : Option Bytes) (length : Nat) : Run (Option Bytes) :=
  match start with
  | none => pure none
  | some start =>
    match blk2bstr start (toInt length) with
    | none => throw (.assertFailed "name cannot be NULL")
    | some name => pure (some name)

/-- `1` when the root was closed, `0` when an inner group was, `-1` on failure. -/
def handleWord (st : Store D) (start : Option Bytes) (length : Nat) : Run (Int × Store D) :=
  match st.root, st.current with
  | some root, some current =>
    if st.errno ≠ 0 then pure (-1, st.fail)
    else
      match st.heap[current]? with
      | none => throw .badPointer
      | some node => do
        let name ← wordName start length
        let st := { st with heap := nodeName st.heap current name }
        if current = root then pure (1, st) else pure (0, { st with current := node.parent })
  | _, _ => pure (-1, st.fail)

def handleGroup (st : Store D) : Run (Int × Store D) := handleWord st none 0

/-- `parser->current` is followed before anything is checked. -/
def handleAttr (st : Store D) (start : Bytes) (length : Nat) : Run (Bool × Store D) :=
  match st.current with
  | none => throw .nullPointer
  | some current =>
    match st.heap[current]? with
    | none => throw .badPointer
    | some node =>
      match node.child with
      | none => pure (false, st.fail)
      | some child =>
        if st.errno ≠ 0 then pure (false, st.fail)
        else
          match blk2bstr start (toInt length) with
          | none => throw (.assertFailed "name cannot be NULL")
          | some name => pure (true, { st with heap := nodeName st.heap child (some name) })

def handleStart (st : Store D) : Store D :=
  { st with
    heap := nodeCreate st.heap st.current .group
    root := if st.root = none then some st.heap.length else st.root
    current := some st.heap.length }

end Handlers

section Scanner
variable {D : Type} (lib : DoubleLib D)

/-- `LEN(mark, p)`. -/
def lenFrom (mark p : Nat) : Nat := (p + sizeMod - mark) % sizeMod

def push (buf : Bytes) (p : Nat) (type : NodeType) (ps : Parser D) : Run (Bool × Parser D) := do
  let (ok, store) ← handlePush lib ps.store type (buf.drop ps.mark) (lenFrom ps.mark p)
  pure (ok, { ps with store := store })

/-- Run one action at position `p`; the flag says that the scanner leaves its loop. -/
def runAction (buf : Bytes) (p : Nat) (ps : Parser D) : Action → Run (Bool × Parser D)
  | .mark => pure (false, { ps with mark := p })
  | .number => do
    let (ok, ps) ← push lib buf p .number ps
    pure (!ok, ps)
  | .float => do
    let (ok, ps) ← push lib buf p .float ps
    pure (!ok, ps)
  | .string => do
    let (ok, ps) ← push lib buf p .string ps
    pure (!ok, ps)
  | .start => pure (false, { ps with store := handleStart ps.store })
  | .blob => do
    let (ok, ps) ← push lib buf p .blob ps
    pure (!ok, if ok then { ps with more := 0 } else ps)
  | .word => do
    let (rc, store) ← handleWord ps.store (some (buf.drop ps.mark)) (lenFrom ps.mark p)
    pure (rc != 0, { ps with store := store })
  | .group => do
    let (rc, store) ← handleGroup ps.store
    pure (rc != 0, { ps with store := store })
  | .more =>
    let length := strtoul (buf.drop ps.mark)
    let store := if length.range then { ps.store with errno := ERANGE } else ps.store
    if ps.mark + length.stop = p then
      pure (0 < length.value, { ps with more := length.value, mark := p + 1, store := store })
    else throw (.assertFailed "buffer overflow processing blob length")
  | .attrib => do
    let (ok, store) ← handleAttr ps.store (buf.drop ps.mark) (lenFrom ps.mark p)
    pure (!ok, { ps with store := store })

def runActions (buf : Bytes) (p : Nat) : List Action → Parser D → Run (Bool × Parser D)
  | [], ps => pure (false, ps)
  | act :: acts, ps => do
    let (out, ps) ← runAction lib buf p ps act
    if out then pure (true, ps) else runActions buf p acts ps

/-- The scanner from `_resume` on; the second argument is the rest of the buffer at `p`. -/
def scan (buf : Bytes) : Bytes → Nat → Parser D → Run (Nat × Parser D)
  | [], p, ps => pure (p, ps)
  | c :: rest, p, ps => do
    let (target, acts) := transition ps.cs c
    let (out, ps) ← runActions lib buf p acts { ps with cs := target }
    if out then pure (p, ps)
    else if target = errorState then pure (p, ps)
    else scan buf rest (p + 1) ps

def stackishParserExecute (ps : Parser D) (buf : Bytes) (off : Nat) : Run (Parser D) :=
  if buf.length < off then throw (.assertFailed "offset past end of buffer")
  else do
    let (p, ps) ←
      if ps.cs = errorState then pure (off, ps) else scan lib buf (buf.drop off) off ps
    if buf.length < p then throw (.assertFailed "buffer overflow after parsing execute")
    pure { ps with nread := p }

def hasError (ps : Parser D) : Bool := ps.cs == errorState

def isFinished (ps : Parser D) : Bool := ps.cs == firstFinal

def stackishParserInit (heap : Heap D) (errno : Nat) : Parser D :=
  ⟨start, 0, 0, 0, ⟨heap, errno, none, none⟩⟩

/-- What a call of `Node_parse_seq` leaves behind: its result, `*from` and the memory. -/
structure Parsed (D : Type) where
  root : Option Nat
  next : Nat
  heap : Heap D
  errno : Nat
deriving DecidableEq, Repr

/-- The failure exit: the half-built tree is destroyed and NULL returned. -/
def parseFailed (ps : Parser D) (nread : Nat) : Run (Parsed D) := do
  let _ ← nodeDestroy ps.store.heap ps.store.root
  pure ⟨none, nread + 1, ps.store.heap, 0⟩

/-- Skip the newlines after a document. -/
def skipNewlines (rest : Bytes) (next : Nat) : Nat := next + (rest.takeWhile (· = 10)).length

/-- The `check` after every call of the scanner fails. -/
def parseFails (ps : Parser D) : Bool := hasError ps || ps.store.errno != 0

/-- The loop condition: a blob length was read and its blob is still to come. -/
def needsMore (buf : Bytes) (ps : Parser D) : Bool :=
  ps.more != 0 && !isFinished ps && ps.nread < buf.length

/-- `nread+stackish_more(&parser)+1`. -/
def resumeOffset (ps : Parser D) : Nat := (ps.nread + ps.more + 1) % sizeMod

/-- The loop around blobs. The scanner stopped at `nread` behind a blob length and is entered
again behind the blob; the fuel bounds the number of blobs. -/
def parseLoop (buf : Bytes) : Nat → Parser D → Run (Parsed D)
  | 0, _ => throw .outOfFuel
  | fuel + 1, ps =>
    if parseFails ps then parseFailed ps ps.nread
    else if needsMore buf ps then
      if buf.length ≤ resumeOffset ps then throw (.assertFailed "buffer overflow")
      else do
        let ps ← stackishParserExecute lib ps buf (resumeOffset ps)
        parseLoop buf fuel ps
    else
      pure ⟨ps.store.root, skipNewlines (buf.drop (ps.nread + 1)) (ps.nread + 1),
        ps.store.heap, ps.store.errno⟩

/-- The test on the last byte of the buffer. -/
def endsInSpace (buf : Bytes) : Bool :=
  buf.getLast? == some 32 || buf.getLast? == some 10 || buf.getLast? == some 9

def nodeParseSeq (fuel : Nat) (heap : Heap D) (errno : Nat) (buf : Bytes) (start : Nat) :
    Run (Parsed D) :=
  let ps := stackishParserInit heap errno
  if endsInSpace buf && errno == 0 then do
    let ps ← stackishParserExecute lib ps buf start
    parseLoop lib buf fuel ps
  else parseFailed ps start

def nodeParse (fuel : Nat) (heap : Heap D) (errno : Nat) (buf : Bytes) : Run (Parsed D) :=
  nodeParseSeq lib fuel heap errno buf 0

end Scanner

end Utu.Stackish
