import Utu.Lib.Procedure
import Utu.Stackish.Construct
import Utu.Stackish.Parser

/-!
# The world of the crypto functions

A call works on the nodes in memory, on `errno`, on one `CryptState`, and on
what the random number generator will give next. The functions of libtomcrypt
are parameters; of a cipher only the lengths are known. What the caller of the
crypto functions keeps for itself, its `void *data`, is left open.
-/

namespace Utu.Protocol
open Stackish LinkedForest Procedure
set_option autoImplicit false

structure Nonce where
  left : UInt64
  right : UInt64
deriving DecidableEq, Repr

/-- `CryptState_nonce_inc` -/
def Nonce.inc (n : Nonce) : Nonce := ⟨n.left + 1, n.right + 1⟩

def nonceLength : Nat := 16

def keyLength : Nat := 32

def leWord (raw : Bytes) : UInt64 := raw.foldr (fun b n => b.toUInt64 + 256 * n) 0

/-- The union read as its two numbers. -/
def Nonce.ofRaw (raw : Bytes) : Nonce := ⟨leWord (raw.take 8), leWord (raw.drop 8)⟩

structure CryptPeer (K S : Type) where
  name : Option Bytes
  nonce : Nonce
  key : K
  session : Option Bytes
  skey : S
deriving DecidableEq, Repr

structure CryptState (K S : Type) where
  me : CryptPeer K S
  them : CryptPeer K S
  shared : S
deriving DecidableEq, Repr

inductive CcmMode where
  | encrypt
  | decrypt
deriving DecidableEq, Repr

inductive KeyType where
  | pkPublic
  | pkPrivate
deriving DecidableEq, Repr

/-- The calls into libtomcrypt; `none` is every result but `CRYPT_OK`. A new key takes what it
needs from the random numbers. -/
structure Ltc (K S : Type) where
  ccmMemory : CcmMode → S → Nonce → Bytes → Bytes → Option (Bytes × Bytes)
  ccm_length : ∀ {mode key nonce header text out tag},
    ccmMemory mode key nonce header text = some (out, tag) → out.length = text.length
  rijndaelSetup : Option Bytes → Option S
  eccMakeKey : List Bytes → Option (K × List Bytes)
  eccImport : Bytes → Option K
  eccExport : KeyType → K → Option Bytes
  eccSharedSecret : K → K → Option Bytes
  hashMemory : Bytes → Option Bytes
  eccVerifyHash : Option Bytes → Option Bytes → K → Option Bool
  noKey : K
  noSkey : S

structure World (D K S U : Type) where
  heap : Heap D
  errno : Nat
  state : CryptState K S
  random : List Bytes
  data : U
deriving DecidableEq, Repr

/-- What does not change from call to call; the fuel bounds the parser. -/
structure Env (D K S : Type) where
  lib : DoubleLib D
  ltc : Ltc K S
  fuel : Nat

abbrev Call (D K S U α : Type) := Proc (World D K S U) Fault α

section Calls
variable {D K S U : Type}

/-- The world behind a `check`: whichever way it went, `errno` is clear. -/
def World.clear (w : World D K S U) : World D K S U := { w with errno := 0 }

theorem World.clear_of_errno {w : World D K S U} (h : w.errno = 0) : w.clear = w := by
  rw [World.clear, ← h]

/-- `check(T, M)`: whether the call goes on. -/
def check (c : Bool) : Call D K S U Bool := do
  let w ← get
  if c && w.errno == 0 then return true
  set w.clear
  return false

theorem returns_check {c b : Bool} {w w' : World D K S U} :
    Returns (check c) w b w' ↔ b = (c && w.errno == 0) ∧ w' = w.clear := by
  simp only [check, returns_bind, returns_get, returns_ite, returns_pure, returns_set]
  constructor
  · rintro ⟨v, t, ⟨rfl, rfl⟩, ⟨hc, rfl, rfl⟩ | ⟨hc, -, t, rfl, rfl, rfl⟩⟩
    · rw [hc, World.clear_of_errno]
      · exact ⟨rfl, rfl⟩
      · exact (by simpa using hc : c = true ∧ _ = 0).2
    · exact ⟨by simpa using hc, rfl⟩
  · rintro ⟨rfl, rfl⟩
    refine ⟨w, w, ⟨rfl, rfl⟩, ?_⟩
    by_cases hc : (c && w.errno == 0) = true
    · refine .inl ⟨hc, hc, World.clear_of_errno ?_⟩
      exact (by simpa using hc : c = true ∧ _ = 0).2
    · exact .inr ⟨hc, (), w.clear, rfl, by simpa using hc, rfl⟩

/-- A `check` with its exit: either way `errno` is clear from here on. -/
theorem returns_checkElse {α : Type} {c : Bool} {m n : Call D K S U α} {a : α}
    {w w' : World D K S U} :
    Returns (check c >>= fun b => if (!b) = true then m else n) w a w' ↔
      ((c && w.errno == 0) = false ∧ Returns m w.clear a w') ∨
        ((c && w.errno == 0) = true ∧ Returns n w.clear a w') := by
  simp only [returns_bind, returns_check, returns_ite]
  constructor
  · rintro ⟨b, t, ⟨rfl, rfl⟩, ⟨hb, h⟩ | ⟨hb, h⟩⟩
    · exact .inl ⟨by rwa [Bool.not_eq_true'] at hb, h⟩
    · exact .inr ⟨by rwa [Bool.not_eq_true', Bool.not_eq_false] at hb, h⟩
  · rintro (⟨hb, h⟩ | ⟨hb, h⟩)
    · exact ⟨false, _, ⟨hb.symm, rfl⟩, .inl ⟨rfl, h⟩⟩
    · exact ⟨true, _, ⟨hb.symm, rfl⟩, .inr ⟨by simp, h⟩⟩

theorem returns_check_true {w : World D K S U} {c : Bool} (hc : c = true) (hErrno : w.errno = 0) :
    Returns (check c) w true w := by
  refine returns_check.mpr ⟨?_, (World.clear_of_errno hErrno).symm⟩
  rw [hc, hErrno]
  rfl

theorem yields_checkElse {α : Type} {c : Bool} {m n : Call D K S U α} {w : World D K S U}
    {P : α → World D K S U → Prop} (hm : (c && w.errno == 0) = false → Yields m w.clear P)
    (hn : (c && w.errno == 0) = true → Yields n w.clear P) :
    Yields (check c >>= fun b => if (!b) = true then m else n) w P := by
  refine (returns_check.mpr ⟨rfl, rfl⟩).then (yields_ite ?_ ?_)
  · intro hc
    rw [Bool.not_eq_true'] at hc
    exact hm hc
  · intro hc
    rw [Bool.not_eq_true', Bool.not_eq_false] at hc
    exact hn hc

theorem yields_checkPass {α : Type} {w : World D K S U} {m n : Call D K S U α} {c : Bool}
    {P : α → World D K S U → Prop} (hc : c = true) (hErrno : w.errno = 0) (hn : Yields n w P) :
    Yields (check c >>= fun b => if (!b) = true then m else n) w P :=
  (returns_check_true hc hErrno).then hn

theorem yields_checkFail {α : Type} {w : World D K S U} {m n : Call D K S U α} {c : Bool}
    {P : α → World D K S U → Prop} (hc : c = false) (hm : Yields m w.clear P) :
    Yields (check c >>= fun b => if (!b) = true then m else n) w P := by
  refine yields_checkElse (fun _ => hm) fun hPass => ?_
  rw [hc] at hPass
  cases hPass

theorem yields_checkPass_iff {α : Type} {w : World D K S U} {m n : Call D K S U α} {c : Bool}
    {P : α → World D K S U → Prop} (hc : c = true) (hErrno : w.errno = 0) :
    Yields (check c >>= fun b => if (!b) = true then m else n) w P ↔ Yields n w P :=
  (returns_check_true hc hErrno).then_iff

theorem yields_checkFail_iff {α : Type} {w : World D K S U} {m n : Call D K S U α} {c : Bool}
    {P : α → World D K S U → Prop} (hc : c = false) :
    Yields (check c >>= fun b => if (!b) = true then m else n) w P ↔ Yields m w.clear P := by
  subst hc
  exact (returns_check.mpr ⟨rfl, rfl⟩).then_iff

@[simp] theorem World.clear_errno (w : World D K S U) : w.clear.errno = 0 := rfl
@[simp] theorem World.clear_heap (w : World D K S U) : w.clear.heap = w.heap := rfl
@[simp] theorem World.clear_state (w : World D K S U) : w.clear.state = w.state := rfl
@[simp] theorem World.clear_random (w : World D K S U) : w.clear.random = w.random := rfl
@[simp] theorem World.clear_data (w : World D K S U) : w.clear.data = w.data := rfl

def modifyState (f : CryptState K S → CryptState K S) : Call D K S U Unit :=
  modify fun w => { w with state := f w.state }

theorem returns_modifyState {f : CryptState K S → CryptState K S} {w w' : World D K S U} {u : Unit} :
    Returns (modifyState f) w u w' ↔ w' = { w with state := f w.state } := returns_modify

variable (env : Env D K S)

/-! ### The node functions on the world -/

/-- `Node_cons` -/
def cons (format : List (Piece D)) : Call D K S U (Option Nat) := do
  let w ← get
  let (root, heap) ← (nodeCons w.heap w.errno format : Run _)
  set { w with heap, errno := if root.isSome then w.errno else 0 }
  return root

/-- `Node_decons` -/
def decons (root : Nat) (copy : Bool) (format : List Expect) :
    Call D K S U (Bool × List (Bound D)) := do
  let w ← get
  let r ← (nodeDecons env.lib w.heap w.errno copy root format : Run _)
  set w.clear
  return r

/-- `Node_parse_seq`: the node and the offset behind it. -/
def parseSeq (buf : Bytes) (start : Nat) : Call D K S U (Option Nat × Nat) := do
  let w ← get
  let r ← (nodeParseSeq env.lib env.fuel w.heap w.errno buf start : Run _)
  set { w with heap := r.heap, errno := r.errno }
  return (r.root, r.next)

/-- `Node_parse` -/
def parse (buf : Bytes) : Call D K S U (Option Nat) := do
  let (node, _) ← parseSeq env buf 0
  return node

/-- `Node_bstr(node, 1)` -/
def bstr (node : Option Nat) : Call D K S U Bytes := do
  let w ← get
  (nodeBstr env.lib w.heap node true : Run _)

/-- `Node_destroy` -/
def destroy (node : Option Nat) : Call D K S U Unit := do
  let w ← get
  let _ ← (nodeDestroy w.heap node : Run _)
  return ()

variable {env} {w w' : World D K S U}

theorem returns_cons {format : List (Piece D)} {r : Option Nat} :
    Returns (cons format) w r w' ↔ ∃ heap, nodeCons w.heap w.errno format = .ok (r, heap) ∧
      w' = { w with heap, errno := if r.isSome then w.errno else 0 } := by
  simp only [cons, returns_bind, returns_get, returns_lift, returns_pure, returns_set]
  constructor
  · rintro ⟨v, t, ⟨rfl, rfl⟩, ⟨root, heap⟩, t, ⟨h, rfl⟩, -, t, rfl, rfl, rfl⟩
    exact ⟨heap, h, rfl⟩
  · rintro ⟨heap, h, rfl⟩
    exact ⟨w, w, ⟨rfl, rfl⟩, (r, heap), w, ⟨h, rfl⟩, (), _, rfl, rfl, rfl⟩

theorem returns_decons {root : Nat} {copy : Bool} {format : List Expect}
    {r : Bool × List (Bound D)} :
    Returns (decons env root copy format) w r w' ↔
      nodeDecons env.lib w.heap w.errno copy root format = .ok r ∧ w' = w.clear := by
  simp only [decons, returns_bind, returns_get, returns_lift, returns_pure, returns_set]
  constructor
  · rintro ⟨v, t, ⟨rfl, rfl⟩, r', t, ⟨h, rfl⟩, -, t, rfl, rfl, rfl⟩
    exact ⟨h, rfl⟩
  · rintro ⟨h, rfl⟩
    exact ⟨w, w, ⟨rfl, rfl⟩, r, w, ⟨h, rfl⟩, (), _, rfl, rfl, rfl⟩

theorem returns_parseSeq {buf : Bytes} {start : Nat} {r : Option Nat × Nat} :
    Returns (parseSeq env buf start) w r w' ↔ ∃ p : Parsed D,
      nodeParseSeq env.lib env.fuel w.heap w.errno buf start = .ok p ∧ r = (p.root, p.next) ∧
      w' = { w with heap := p.heap, errno := p.errno } := by
  simp only [parseSeq, returns_bind, returns_get, returns_lift, returns_pure, returns_set]
  constructor
  · rintro ⟨v, t, ⟨rfl, rfl⟩, p, t, ⟨h, rfl⟩, -, t, rfl, rfl, rfl⟩
    exact ⟨p, h, rfl, rfl⟩
  · rintro ⟨p, h, rfl, rfl⟩
    exact ⟨w, w, ⟨rfl, rfl⟩, p, w, ⟨h, rfl⟩, (), _, rfl, rfl, rfl⟩

theorem returns_parse {buf : Bytes} {node : Option Nat} :
    Returns (parse env buf) w node w' ↔ ∃ next, Returns (parseSeq env buf 0) w (node, next) w' := by
  simp only [parse, returns_bind, returns_pure]
  constructor
  · rintro ⟨⟨root, next⟩, t, h, rfl, rfl⟩
    exact ⟨next, h⟩
  · rintro ⟨next, h⟩
    exact ⟨(node, next), w', h, rfl, rfl⟩

theorem returns_bstr {node : Option Nat} {b : Bytes} :
    Returns (bstr env node) w b w' ↔ nodeBstr env.lib w.heap node true = .ok b ∧ w' = w := by
  simp only [bstr, returns_bind, returns_get, returns_lift]
  constructor
  · rintro ⟨v, t, ⟨rfl, rfl⟩, h, rfl⟩
    exact ⟨h, rfl⟩
  · rintro ⟨h, rfl⟩
    exact ⟨w', w', ⟨rfl, rfl⟩, h, rfl⟩

theorem returns_destroy {node : Option Nat} {u : Unit} :
    Returns (destroy node) w u w' ↔ (∃ freed, nodeDestroy w.heap node = .ok freed) ∧ w' = w := by
  simp only [destroy, returns_bind, returns_get, returns_lift, returns_pure]
  constructor
  · rintro ⟨v, t, ⟨rfl, rfl⟩, freed, t, ⟨h, rfl⟩, -, rfl⟩
    exact ⟨⟨freed, h⟩, rfl⟩
  · rintro ⟨⟨freed, h⟩, rfl⟩
    exact ⟨w', w', ⟨rfl, rfl⟩, freed, w', ⟨h, rfl⟩, trivial, rfl⟩

/-- The string inside a node. -/
def nodeString (h : Heap D) (a : Nat) : Option Bytes :=
  match h[a]? with
  | some node =>
    match node.data.value with
    | .string s => s
    | .blob s => s
    | _ => none
  | none => none

/-- The output variables of `Node_decons` after the call; what was not written keeps the value
it had before. -/
def boundNumber (bound : List (Bound D)) (i : Nat) (old : UInt64) : UInt64 :=
  match bound[i]? with
  | some (.number n) => n
  | _ => old

/-- The node a string or blob output points into. -/
def boundNode (bound : List (Bound D)) (i : Nat) : Option Nat :=
  match bound[i]? with
  | some (.shared a) => some a
  | _ => none

def boundString (h : Heap D) (bound : List (Bound D)) (i : Nat) (old : Option Bytes) : Option Bytes :=
  match bound[i]? with
  | some (.copied s) => s
  | some (.shared a) => nodeString h a
  | _ => old

end Calls

end Utu.Protocol
