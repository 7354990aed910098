import Utu.Lib.Channel
import Utu.Protocol.Packets

/-!
# Sessions

Behind the handshake both sides encrypt under `them.skey` and `them.nonce` and
decrypt under `me.skey` and `me.nonce`. A line is the two sides and the packets
between them. Its runs are the runs of a channel under counters in both
directions, the nonces being the counters.
-/

namespace Utu.Protocol
open Stackish LinkedForest Procedure Channel
set_option autoImplicit false

variable {D K S U : Type}

/-- A packet on its way: its header, the message as a tree, and the payload that was encrypted. -/
structure Packet (D : Type) where
  header : Bytes
  payload : Bytes
  tree : Stackish.Tree D

structure Line (D K S U : Type) where
  ends : Side → World D K S U
  inbox : Side → List (Packet D)

/-- One call on one side: `CryptState_encrypt_packet`, whose message goes to the other side unless it is NULL, or
`CryptState_decrypt_packet` on the first packet that came, wherever it is in memory. -/
inductive Line.Step (env : Env D K S) : Line D K S U → Line D K S U → Prop
  | send {l : Line D K S U} (s : Side) (header payload : Bytes) {node : Nat} {w : World D K S U} {t : Stackish.Tree D} :
      Returns (encryptPacket env (l.ends s).state.them.skey header payload) (l.ends s) (some node) w →
      w.Holds node t →
      Step env l ⟨Function.update l.ends s w,
        Function.update l.inbox s.other (l.inbox s.other ++ [⟨header, payload, t⟩])⟩
  | refuse {l : Line D K S U} (s : Side) (header payload : Bytes) {w : World D K S U} :
      Returns (encryptPacket env (l.ends s).state.them.skey header payload) (l.ends s) none w →
      Step env l ⟨Function.update l.ends s w, l.inbox⟩
  | receive {l : Line D K S U} (s : Side) {p : Packet D} {rest : List (Packet D)} {heap : Heap D} {node : Nat}
      {r : Option Bytes} {w : World D K S U} :
      l.inbox s = p :: rest → ((l.ends s).grown heap).Holds node p.tree →
      Returns (decryptPacket env (l.ends s).state.me.skey p.header node) ((l.ends s).grown heap) r w →
      Step env l ⟨Function.update l.ends s w, Function.update l.inbox s rest⟩

/-- Whatever a side has to send is encrypted, and the first packet it gets decrypts to what was sent. -/
structure Line.Delivers (env : Env D K S) (l : Line D K S U) : Prop where
  sends : ∀ s header payload, ∃ node w t,
    Returns (encryptPacket env (l.ends s).state.them.skey header payload) (l.ends s) (some node) w ∧ w.Holds node t
  receives : ∀ s p rest heap node, l.inbox s = p :: rest → ((l.ends s).grown heap).Holds node p.tree →
    ∃ w, Returns (decryptPacket env (l.ends s).state.me.skey p.header node) ((l.ends s).grown heap) (some p.payload) w

/-- Every packet of every run decrypts to what was sent. -/
def Line.Synchronous (env : Env D K S) (l : Line D K S U) : Prop :=
  ∀ l', Relation.ReflTransGen (Line.Step env) l l' → l'.Delivers env

/-- The nonces as counters. -/
def Line.duplex (l : Line D K S U) : Duplex Nonce (Packet D) :=
  ⟨fun s => (l.ends s).state.me.nonce, fun s => (l.ends s).state.them.nonce, l.inbox⟩

/-- A packet that a side with this key can decrypt. -/
def Packet.SealedUnder (ltc : Ltc K S) (key : S) (nonce : Nonce) (p : Packet D) : Prop :=
  Seals ltc key nonce p.header p.payload p.tree

/-- Each side encrypts with the key the other decrypts with, and no error is left over. -/
structure Line.Keyed (keys : Side → S) (l : Line D K S U) : Prop where
  mine : ∀ s, (l.ends s).state.me.skey = keys s
  theirs : ∀ s, (l.ends s).state.them.skey = keys s.other
  errno : ∀ s, (l.ends s).errno = 0

def Line.InSync (ltc : Ltc K S) (keys : Side → S) (l : Line D K S U) : Prop :=
  l.duplex.InSync Nonce.inc fun s => Packet.SealedUnder ltc (keys s)

section Run
variable {env : Env D K S} {keys : Side → S} {l l' : Line D K S U}

theorem Line.Keyed.update (h : l.Keyed keys) {s : Side} {w : World D K S U} (inbox : Side → List (Packet D))
    (hMine : w.state.me.skey = (l.ends s).state.me.skey) (hTheirs : w.state.them.skey = (l.ends s).state.them.skey)
    (hErrno : w.errno = 0) : Line.Keyed keys ⟨Function.update l.ends s w, inbox⟩ := by
  refine ⟨fun t => ?_, fun t => ?_, fun t => ?_⟩
  all_goals
    by_cases ht : t = s
    · subst ht
      simp [*, h.mine, h.theirs]
    · simp [ht, h.mine, h.theirs, h.errno]

theorem Line.duplex_update (l : Line D K S U) (s : Side) (w : World D K S U) (inbox : Side → List (Packet D)) :
    Line.duplex ⟨Function.update l.ends s w, inbox⟩ =
      ⟨Function.update l.duplex.reading s w.state.me.nonce, Function.update l.duplex.writing s w.state.them.nonce,
        inbox⟩ := by
  have hField : ∀ f : World D K S U → Nonce,
      (fun t => f (Function.update l.ends s w t)) = Function.update (fun t => f (l.ends t)) s (f w) := by
    intro f
    funext t
    exact Function.apply_update (fun _ => f) l.ends s w t
  simp only [Line.duplex, hField fun w => w.state.me.nonce, hField fun w => w.state.them.nonce]

/-- The first packet decrypts to what was sent. -/
theorem Line.InSync.opens (hCcm : SoundCcm env.ltc) (hKeyed : l.Keyed keys) (hSync : l.InSync env.ltc keys) {s : Side}
    {p : Packet D} {rest : List (Packet D)} (hInbox : l.inbox s = p :: rest) {heap : Heap D} {node : Nat}
    (hHolds : ((l.ends s).grown heap).Holds node p.tree) :
    ∃ heap', Returns (decryptPacket env (l.ends s).state.me.skey p.header node) ((l.ends s).grown heap)
      (some p.payload) { (l.ends s).grown heap' with state := (l.ends s).state.bump } := by
  have hFirst : Packet.SealedUnder env.ltc (keys s) (l.ends s).state.me.nonce p := hSync.first hInbox
  rw [← hKeyed.mine s] at hFirst
  exact returns_decryptPacket hCcm (w := (l.ends s).grown heap) (hKeyed.errno s) hHolds hFirst

/-- A step of the code is a step of the channel. -/
theorem Line.Step.simulates (hCcm : SoundCcm env.ltc) (hKeyed : l.Keyed keys) (hSync : l.InSync env.ltc keys)
    (hStep : Line.Step env l l') :
    Duplex.Step Nonce.inc (fun s => Packet.SealedUnder env.ltc (keys s)) l.duplex l'.duplex ∧ l'.Keyed keys := by
  cases hStep with
  | send s header payload hSent hHolds =>
    obtain ⟨node', heap, t', hSent', hTree, -, hSeals⟩ :=
      returns_encryptPacket hCcm (hKeyed.errno s) (l.ends s).state.them.skey header payload
    obtain ⟨hNode, rfl⟩ := hSent.unique hSent'
    cases hNode
    cases Represents.unique hHolds hTree
    rw [hKeyed.theirs s] at hSeals
    refine ⟨?_, hKeyed.update _ rfl rfl (hKeyed.errno s)⟩
    rw [Line.duplex_update]
    have hReading : Function.update l.duplex.reading s (l.ends s).state.me.nonce = l.duplex.reading :=
      Function.update_eq_self s _
    simp only [CryptState.advance, hReading]
    exact .send s hSeals
  | refuse s header payload hSent =>
    obtain ⟨node', heap, t', hSent', -⟩ :=
      returns_encryptPacket hCcm (hKeyed.errno s) (l.ends s).state.them.skey header payload
    cases (hSent.unique hSent').1
  | receive s hInbox hHolds hTaken =>
    obtain ⟨heap', hTaken'⟩ := hSync.opens hCcm hKeyed hInbox hHolds
    obtain ⟨-, rfl⟩ := hTaken.unique hTaken'
    refine ⟨?_, hKeyed.update _ rfl rfl (hKeyed.errno s)⟩
    rw [Line.duplex_update]
    have hWriting : Function.update l.duplex.writing s (l.ends s).state.them.nonce = l.duplex.writing :=
      Function.update_eq_self s _
    simp only [CryptState.bump, hWriting]
    exact .receive s hInbox

theorem Line.InSync.step (hCcm : SoundCcm env.ltc) (hKeyed : l.Keyed keys) (hSync : l.InSync env.ltc keys)
    (hStep : Line.Step env l l') : l'.Keyed keys ∧ l'.InSync env.ltc keys := by
  obtain ⟨hDuplex, hKeyed'⟩ := hStep.simulates hCcm hKeyed hSync
  exact ⟨hKeyed', hDuplex.inSync hSync⟩

theorem Line.InSync.run (hCcm : SoundCcm env.ltc) (hKeyed : l.Keyed keys) (hSync : l.InSync env.ltc keys)
    (hRun : Relation.ReflTransGen (Line.Step env) l l') : l'.Keyed keys ∧ l'.InSync env.ltc keys := by
  induction hRun with
  | refl => exact ⟨hKeyed, hSync⟩
  | tail _ hStep ih => exact ih.2.step hCcm ih.1 hStep

theorem Line.InSync.delivers (hCcm : SoundCcm env.ltc) (hKeyed : l.Keyed keys) (hSync : l.InSync env.ltc keys) :
    l.Delivers env := by
  constructor
  · intro s header payload
    obtain ⟨node, heap, t, hSent, hTree, -⟩ :=
      returns_encryptPacket hCcm (hKeyed.errno s) (l.ends s).state.them.skey header payload
    exact ⟨node, _, t, hSent, hTree⟩
  · intro s p rest heap node hInbox hHolds
    obtain ⟨heap', hTaken⟩ := hSync.opens hCcm hKeyed hInbox hHolds
    exact ⟨_, hTaken⟩

/-- Two sides that agree on their keys and nonces stay synchronous. -/
theorem Line.synchronous_of_agreed (hCcm : SoundCcm env.ltc) (hInbox : ∀ s, l.inbox s = [])
    (hErrno : ∀ s, (l.ends s).errno = 0)
    (hKeys : ∀ s, (l.ends s).state.me.skey = (l.ends s.other).state.them.skey)
    (hNonces : ∀ s, (l.ends s).state.me.nonce = (l.ends s.other).state.them.nonce) : l.Synchronous env := by
  have hKeyed : l.Keyed fun s => (l.ends s).state.me.skey := by
    refine ⟨fun s => rfl, fun s => ?_, hErrno⟩
    rw [hKeys, Side.other_other]
  have hSync : l.InSync env.ltc fun s => (l.ends s).state.me.skey := Duplex.inSync_empty hInbox hNonces
  intro l' hRun
  obtain ⟨hKeyed', hSync'⟩ := hSync.run hCcm hKeyed hRun
  exact hSync'.delivers hCcm hKeyed'

end Run

end Utu.Protocol
