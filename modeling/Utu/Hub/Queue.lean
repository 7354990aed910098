import Utu.Lib.Ring
import Utu.Protocol.Crypto

/-!
# Messages and their queues

A message is known by the number of its allocation, so that two queues can
hold the same one. The queue of a member is a ring of `MEMBER_MSG_QUEUE_LENGTH`
slots and a mark that the member is gone.
-/

namespace Utu.Hub
open Ring
set_option autoImplicit false

variable {D : Type}

structure Message (D : Type) where
  ref : Nat
  msgid : UInt64
  body : Stackish.Tree D
deriving DecidableEq, Repr

/-- What `Peer_recv` hands over: the message and its header. -/
structure Packet (D : Type) where
  hdr : Option (Stackish.Tree D)
  body : Option (Stackish.Tree D)
deriving DecidableEq, Repr

/-- `Message_decons`: the `msgid`, if the body has a name and a first element, the header is a group
`header` that starts with a number, and no `errno` is left standing. -/
def messageDecons (errno : Nat) (hdr body : Stackish.Tree D) : Option UInt64 :=
  match hdr, body with
  | .node root (.node ⟨_, .number msgid⟩ _ _) _, .node ⟨some _, _⟩ (.node _ _ _) _ =>
    if errno = 0 ∧ root.name = some Protocol.headerName then some msgid else none
  | _, _ => none

/-- The `msgid` of a packet that can be taken apart. -/
def Packet.msgid (p : Packet D) : Option UInt64 :=
  match p.hdr, p.body with
  | some hdr, some body => messageDecons 0 hdr body
  | _, _ => none

/-! ## Queues -/

structure MsgQueue (D : Type) where
  ring : Buffer (Message D)
  dead : Bool
deriving DecidableEq, Repr

def memberMsgQueueLength : Nat := 30

namespace MsgQueue

def create (dim : Nat) : MsgQueue D := ⟨Buffer.create dim, false⟩

def isEmpty (q : MsgQueue D) : Bool := q.ring.isEmpty

def isFull (q : MsgQueue D) : Bool := q.ring.isFull

def first (q : MsgQueue D) : Option (Message D) := q.ring.first

/-- `MsgQueue_add`; the reference it takes is counted by the caller. -/
def add (q : MsgQueue D) (m : Message D) : Bool × MsgQueue D :=
  if q.isFull then (false, q) else (true, { q with ring := q.ring.push m })

/-- `MsgQueue_delete`: the message whose reference is given back. -/
def delete (q : MsgQueue D) : Option (Message D) × MsgQueue D :=
  if q.isEmpty then (none, q)
  else
    match q.first with
    | some m => (some m, { q with ring := q.ring.pop })
    | none => (none, q)

/-- The loop of `MsgQueue_destroy`: all messages are given back. -/
def drain : Nat → MsgQueue D → List (Message D)
  | 0, _ => []
  | fuel + 1, q =>
    match q.delete with
    | (some m, q) => m :: drain fuel q
    | (none, _) => []

/-- `MsgQueue_destroy` -/
def destroy (q : MsgQueue D) : List (Message D) := q.drain q.ring.dim

/-- The messages in the queue, the first one first. -/
def Holds (q : MsgQueue D) (l : List (Message D)) : Prop := q.ring.Holds l

variable {q : MsgQueue D} {l : List (Message D)}

theorem holds_create {dim : Nat} (hDim : 0 < dim) : (create dim : MsgQueue D).Holds [] :=
  Buffer.holds_create hDim

theorem Holds.isEmpty_iff (h : q.Holds l) : q.isEmpty = true ↔ l = [] := Buffer.Holds.isEmpty_iff h

theorem Holds.first_cons {m : Message D} (h : q.Holds (m :: l)) : q.first = some m :=
  Buffer.Holds.first_eq h (List.cons_ne_nil m l)

theorem Holds.add (h : q.Holds l) (hFull : q.isFull = false) (m : Message D) :
    ∃ q', q.add m = (true, q') ∧ q'.Holds (l ++ [m]) ∧ q'.dead = q.dead := by
  refine ⟨{ q with ring := q.ring.push m }, ?_, Buffer.Holds.push h hFull m, rfl⟩
  rw [MsgQueue.add, hFull]
  rfl

theorem add_full (hFull : q.isFull = true) (m : Message D) : q.add m = (false, q) := by
  rw [MsgQueue.add, if_pos hFull]

theorem Holds.delete_cons {m : Message D} (h : q.Holds (m :: l)) :
    ∃ q', q.delete = (some m, q') ∧ q'.Holds l ∧ q'.dead = q.dead := by
  have hNonempty : ¬ q.isEmpty = true := by
    rw [h.isEmpty_iff]
    exact List.cons_ne_nil m l
  refine ⟨{ q with ring := q.ring.pop }, ?_, Buffer.Holds.pop h, rfl⟩
  rw [MsgQueue.delete, if_neg hNonempty, h.first_cons]

theorem Holds.delete_nil (h : q.Holds []) : q.delete = (none, q) := by
  rw [MsgQueue.delete, if_pos (h.isEmpty_iff.mpr rfl)]

theorem Holds.drain {fuel : Nat} (h : q.Holds l) (hFuel : l.length ≤ fuel) : q.drain fuel = l := by
  induction fuel generalizing q l with
  | zero =>
    rw [List.length_eq_zero_iff.mp (Nat.le_zero.mp hFuel)]
    rfl
  | succ fuel ih =>
    cases l with
    | nil => rw [MsgQueue.drain, h.delete_nil]
    | cons m l =>
      obtain ⟨q', hDelete, hRest, -⟩ := h.delete_cons
      rw [MsgQueue.drain, hDelete]
      exact congrArg (m :: ·) (ih hRest (Nat.le_of_succ_le_succ hFuel))

/-- Destroying a queue gives every message in it back once. -/
theorem Holds.destroy (h : q.Holds l) : q.destroy = l := h.drain (Nat.le_of_lt h.fits)

end MsgQueue

end Utu.Hub
