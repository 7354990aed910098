import Utu.Protocol.Agreement

/-!
# Traffic on an untrusted wire

Behind the handshake an attacker may drop, delay, repeat and reorder the
packets and make up packets of its own; it cannot make a tag that passes under
a session key. What a side accepts of sound packets is what was sent to it,
in its order, with gaps: a packet with a wrong tag uses up a nonce of the
reader, and the packet that was sealed under that nonce is lost for good.
-/

namespace Utu.Protocol
open Stackish LinkedForest Procedure Channel
set_option autoImplicit false

variable {D K S U : Type}

/-! ## Nonces as numbers -/

theorem Nonce.iterate_inc (n : Nonce) (k : Nat) :
    Nonce.inc^[k] n = ⟨n.left + UInt64.ofNat k, n.right + UInt64.ofNat k⟩ := by
  induction k with
  | zero => simp
  | succ k ih =>
    rw [Function.iterate_succ_apply', ih]
    simp [Nonce.inc, UInt64.add_assoc]

/-- The nonces come round after `2 ^ 64` packets and not before. -/
theorem Nonce.iterate_inc_inj {n : Nonce} {j k calls : Nat} (hCalls : calls ≤ 2 ^ 64) (hj : j < calls)
    (hk : k < calls) (h : Nonce.inc^[j] n = Nonce.inc^[k] n) : j = k := by
  simp only [Nonce.iterate_inc, Nonce.mk.injEq, UInt64.add_right_inj] at h
  have hNat := congrArg UInt64.toNat h.1
  rwa [UInt64.toNat_ofNat_of_lt' (hj.trans_le hCalls), UInt64.toNat_ofNat_of_lt' (hk.trans_le hCalls)] at hNat

/-! ## What the calls do to the state -/

section Calls
variable {env : Env D K S} {w w' : World D K S U} {key : S} {header payload : Bytes}

theorem encryptPacket_state {r : Option Nat} (hr : Returns (encryptPacket env key header payload) w r w') :
    w'.state = w.state.advance ∨ r = none ∧ w'.state = w.state := by
  obtain ⟨v, t, hGet, hr⟩ := returns_bind.mp hr
  obtain ⟨rfl, rfl⟩ := returns_get.mp hGet
  rcases returns_checkElse.mp hr with ⟨-, hr⟩ | ⟨-, hr⟩
  · obtain ⟨rfl, rfl⟩ := returns_pure.mp hr
    exact .inr ⟨rfl, rfl⟩
  · split at hr
    · obtain ⟨rfl, rfl⟩ := returns_pure.mp hr
      exact .inr ⟨rfl, rfl⟩
    · obtain ⟨u, t, hState, hr⟩ := returns_bind.mp hr
      obtain rfl := returns_modifyState.mp hState
      obtain ⟨heap, -, rfl⟩ := returns_cons.mp hr
      exact .inl rfl

theorem openPayload_state {bound : List (Bound D)} {r : Option Bytes}
    (hr : Returns (openPayload env key header bound) w r w') : w'.state = w.state ∨ w'.state = w.state.bump := by
  rw [openPayload, returns_bind] at hr
  obtain ⟨v, t, hGet, hr⟩ := hr
  obtain ⟨rfl, rfl⟩ := returns_get.mp hGet
  dsimp only at hr
  split at hr
  · obtain ⟨b, t, hCheck, hr⟩ := returns_bind.mp hr
    obtain ⟨-, rfl⟩ := returns_check.mp hCheck
    obtain ⟨-, rfl⟩ := returns_pure.mp hr
    exact .inl rfl
  · obtain ⟨u, t, hHeap, hr⟩ := returns_bind.mp hr
    obtain rfl := returns_modify.mp hHeap
    rcases returns_checkElse.mp hr with ⟨-, hr⟩ | ⟨-, hr⟩
    · obtain ⟨-, rfl⟩ := returns_pure.mp hr
      exact .inl rfl
    · obtain ⟨u, t, hState, hr⟩ := returns_bind.mp hr
      obtain rfl := returns_modifyState.mp hState
      obtain ⟨v, t, hGet, hr⟩ := returns_bind.mp hr
      obtain ⟨rfl, rfl⟩ := returns_get.mp hGet
      -- The tag is compared behind the increment.
      rcases returns_checkElse.mp hr with ⟨-, hr⟩ | ⟨-, hr⟩
      all_goals
        obtain ⟨-, rfl⟩ := returns_pure.mp hr
        exact .inr rfl

theorem decryptPacket_state {packet : Nat} {r : Option Bytes}
    (hr : Returns (decryptPacket env key header packet) w r w') : w'.state = w.state ∨ w'.state = w.state.bump := by
  obtain ⟨⟨rc, bound⟩, t, hDecons, hr⟩ := returns_bind.mp hr
  obtain ⟨-, rfl⟩ := returns_decons.mp hDecons
  obtain ⟨v, t, hGet, hr⟩ := returns_bind.mp hr
  obtain ⟨rfl, rfl⟩ := returns_get.mp hGet
  rcases returns_checkElse.mp hr with ⟨-, hr⟩ | ⟨-, hr⟩
  · obtain ⟨-, rfl⟩ := returns_pure.mp hr
    exact .inl rfl
  · exact openPayload_state (w := w.clear.clear) hr

end Calls

/-! ## The two sides and the attacker -/

structure Sealing (S : Type) where
  key : S
  nonce : Nonce
  header : Bytes
  payload : Bytes
deriving DecidableEq, Repr

structure Net (D K S U : Type) where
  ends : Side → World D K S U
  sent : Side → List (Sealing S)
  accepted : Side → List (Sealing S)
  calls : Nat

def Net.Known (n : Net D K S U) (p : Sealing S) : Prop := ∃ s, p ∈ n.sent s

/-- A packet that opens under the key, the nonce and the header of a side was made by one of the two. -/
def Net.Unforged (env : Env D K S) (n : Net D K S U) (s : Side) (header : Bytes) (t : Stackish.Tree D) : Prop :=
  ∀ plain, Authentic env.ltc (n.ends s).state.me.skey (n.ends s).state.me.nonce header t plain →
    n.Known ⟨(n.ends s).state.me.skey, (n.ends s).state.me.nonce, header, plain⟩

/-- A side does something that leaves its `CryptState` alone, encrypts a packet, or decrypts what the
attacker gives it: any tree in its memory, with any header. What `CryptState_decrypt_packet` returns of a packet
that is not sound was not checked, and is not counted as accepted. -/
inductive Net.Step (env : Env D K S) : Net D K S U → Net D K S U → Prop
  | work {n : Net D K S U} (s : Side) {w : World D K S U} : w.state = (n.ends s).state →
      Step env n { n with ends := Function.update n.ends s w }
  | send {n : Net D K S U} (s : Side) (header payload : Bytes) {node : Nat} {w : World D K S U} :
      Returns (encryptPacket env (n.ends s).state.them.skey header payload) (n.ends s) (some node) w →
      Step env n { n with
        ends := Function.update n.ends s w
        sent := Function.update n.sent s (n.sent s ++
          [⟨(n.ends s).state.them.skey, (n.ends s).state.them.nonce, header, payload⟩])
        calls := n.calls + 1 }
  | fail {n : Net D K S U} (s : Side) (header payload : Bytes) {w : World D K S U} :
      Returns (encryptPacket env (n.ends s).state.them.skey header payload) (n.ends s) none w →
      Step env n { n with ends := Function.update n.ends s w, calls := n.calls + 1 }
  | accept {n : Net D K S U} (s : Side) {header plain : Bytes} {par : Option Nat} {node : Nat}
      {t : Stackish.Tree D} {w : World D K S U} :
      Represents (n.ends s).heap par (some node) t → n.Unforged env s header t →
      SoundPacket env (n.ends s) (n.ends s).state.me.skey header node t →
      Returns (decryptPacket env (n.ends s).state.me.skey header node) (n.ends s) (some plain) w →
      Step env n { n with
        ends := Function.update n.ends s w
        accepted := Function.update n.accepted s (n.accepted s ++
          [⟨(n.ends s).state.me.skey, (n.ends s).state.me.nonce, header, plain⟩])
        calls := n.calls + 1 }
  | reject {n : Net D K S U} (s : Side) {header : Bytes} {node : Nat} {w : World D K S U} :
      Returns (decryptPacket env (n.ends s).state.me.skey header node) (n.ends s) none w →
      Step env n { n with ends := Function.update n.ends s w, calls := n.calls + 1 }
  | slip {n : Net D K S U} (s : Side) {header plain : Bytes} {par : Option Nat} {node : Nat}
      {t : Stackish.Tree D} {w : World D K S U} :
      Represents (n.ends s).heap par (some node) t →
      ¬ SoundPacket env (n.ends s) (n.ends s).state.me.skey header node t →
      Returns (decryptPacket env (n.ends s).state.me.skey header node) (n.ends s) (some plain) w →
      Step env n { n with ends := Function.update n.ends s w, calls := n.calls + 1 }

def netBetween (r i : World D K S U) : Net D K S U where
  ends := (lineBetween r i).ends
  sent _ := []
  accepted _ := []
  calls := 0

/-! ## One direction -/

/-- The direction to a side: the keys and nonces at both of its ends, what was sent and what was accepted. -/
structure Flow (S : Type) where
  readKey : S
  writeKey : S
  reading : Nonce
  writing : Nonce
  sent : List (Sealing S)
  accepted : List (Sealing S)

def Net.flow (n : Net D K S U) (s : Side) : Flow S where
  readKey := (n.ends s).state.me.skey
  writeKey := (n.ends s.other).state.them.skey
  reading := (n.ends s).state.me.nonce
  writing := (n.ends s.other).state.them.nonce
  sent := n.sent s.other
  accepted := n.accepted s

/-- The nonces are counters below the number of calls, and what was accepted was sent. -/
structure Flow.Sound (key : S) (start : Nonce) (read written : Nat) (f : Flow S) : Prop where
  readKey : f.readKey = key
  writeKey : f.writeKey = key
  reading : f.reading = Nonce.inc^[read] start
  writing : f.writing = Nonce.inc^[written] start
  sent : Rising Sealing.nonce (Nonce.inc^[·] start) f.sent written
  accepted : Rising Sealing.nonce (Nonce.inc^[·] start) f.accepted read
  keys : ∀ p ∈ f.sent, p.key = key
  known : f.accepted ⊆ f.sent

def Flow.Within (key : S) (start : Nonce) (calls : Nat) (f : Flow S) : Prop :=
  ∃ read ≤ calls, ∃ written ≤ calls, f.Sound key start read written

namespace Flow.Within
variable {key : S} {start : Nonce} {calls : Nat} {f : Flow S}

theorem next (start : Nonce) (k : Nat) : (Nonce.inc^[k] start).inc = Nonce.inc^[k + 1] start :=
  (Function.iterate_succ_apply' Nonce.inc k start).symm

theorem idle (h : f.Within key start calls) : f.Within key start (calls + 1) := by
  obtain ⟨read, hRead, written, hWritten, hSound⟩ := h
  exact ⟨read, Nat.le_succ_of_le hRead, written, Nat.le_succ_of_le hWritten, hSound⟩

theorem send (h : f.Within key start calls) (header payload : Bytes) :
    Flow.Within key start (calls + 1) { f with
      writing := f.writing.inc, sent := f.sent ++ [⟨f.writeKey, f.writing, header, payload⟩] } := by
  obtain ⟨read, hRead, written, hWritten, h⟩ := h
  refine ⟨read, Nat.le_succ_of_le hRead, written + 1, Nat.succ_le_succ hWritten, { h with
    writing := by rw [h.writing, next]
    sent := h.sent.snoc h.writing
    keys := fun p hp => ?_
    known := fun p hp => List.mem_append_left _ (h.known hp) }⟩
  rcases List.mem_append.mp hp with hp | hp
  · exact h.keys p hp
  · rw [List.mem_singleton.mp hp]
    exact h.writeKey

theorem skip (h : f.Within key start calls) :
    Flow.Within key start (calls + 1) { f with writing := f.writing.inc } := by
  obtain ⟨read, hRead, written, hWritten, h⟩ := h
  exact ⟨read, Nat.le_succ_of_le hRead, written + 1, Nat.succ_le_succ hWritten, { h with
    writing := by rw [h.writing, next]
    sent := h.sent.mono (Nat.le_succ _) }⟩

theorem accept (h : f.Within key start calls) {header plain : Bytes}
    (hp : f.readKey = key → ⟨f.readKey, f.reading, header, plain⟩ ∈ f.sent) :
    Flow.Within key start (calls + 1) { f with
      reading := f.reading.inc, accepted := f.accepted ++ [⟨f.readKey, f.reading, header, plain⟩] } := by
  obtain ⟨read, hRead, written, hWritten, h⟩ := h
  refine ⟨read + 1, Nat.succ_le_succ hRead, written, Nat.le_succ_of_le hWritten, { h with
    reading := by rw [h.reading, next]
    accepted := h.accepted.snoc h.reading
    known := fun p hMem => ?_ }⟩
  rcases List.mem_append.mp hMem with hMem | hMem
  · exact h.known hMem
  · rw [List.mem_singleton.mp hMem]
    exact hp h.readKey

theorem refuse (h : f.Within key start calls) :
    Flow.Within key start (calls + 1) { f with reading := f.reading.inc } := by
  obtain ⟨read, hRead, written, hWritten, h⟩ := h
  exact ⟨read + 1, Nat.succ_le_succ hRead, written, Nat.le_succ_of_le hWritten, { h with
    reading := by rw [h.reading, next]
    accepted := h.accepted.mono (Nat.le_succ _) }⟩

end Flow.Within

section Flows
variable {env : Env D K S} {n n' : Net D K S U}

theorem Net.flow_ends (n : Net D K S U) {s : Side} {w : World D K S U} (calls : Nat)
    (hState : w.state = (n.ends s).state) (t : Side) :
    Net.flow { n with ends := Function.update n.ends s w, calls } t = n.flow t := by
  cases s <;> cases t <;> simp [Net.flow, Side.other, hState]

/-- A side that encrypts is seen by the direction to the other side only. -/
theorem Net.flow_writes (n : Net D K S U) {s : Side} {w : World D K S U} (sent : List (Sealing S)) (calls : Nat)
    (hState : w.state = (n.ends s).state.advance) (t : Side) :
    Net.flow { n with ends := Function.update n.ends s w, sent := Function.update n.sent s sent, calls } t =
      if t = s.other then { n.flow t with writing := (n.flow t).writing.inc, sent } else n.flow t := by
  cases s <;> cases t <;> simp [Net.flow, Side.other, hState, CryptState.advance]

theorem Net.flow_reads (n : Net D K S U) {s : Side} {w : World D K S U} (accepted : List (Sealing S))
    (calls : Nat) (hState : w.state = (n.ends s).state.bump) (t : Side) :
    Net.flow { n with
        ends := Function.update n.ends s w, accepted := Function.update n.accepted s accepted, calls } t =
      if t = s then { n.flow t with reading := (n.flow t).reading.inc, accepted } else n.flow t := by
  cases s <;> cases t <;> simp [Net.flow, Side.other, hState, CryptState.bump]

end Flows

/-! ## Whole runs -/

structure Net.Sound (keys : Side → S) (start : Side → Nonce) (n : Net D K S U) : Prop where
  apart : ∀ s, keys s ≠ keys s.other
  flow : ∀ s, (n.flow s).Within (keys s) (start s) n.calls

section Runs
variable {env : Env D K S} {keys : Side → S} {start : Side → Nonce} {n n' : Net D K S U} {r i : World D K S U}

theorem Net.Sound.known (h : n.Sound keys start) (s : Side) {p : Sealing S} (hp : n.Known p)
    (hKey : p.key = keys s) : p ∈ (n.flow s).sent := by
  obtain ⟨who, hMem⟩ := hp
  by_cases hWho : who = s.other
  · subst hWho
    exact hMem
  · have hSelf : who = s := by
      cases who <;> cases s <;> simp_all [Side.other]
    subst hSelf
    obtain ⟨read, -, written, -, hFlow⟩ := h.flow who.other
    have hSent : p ∈ (n.flow who.other).sent := by
      rw [Net.flow, Side.other_other]
      exact hMem
    exact absurd (hKey.symm.trans (hFlow.keys p hSent)) (h.apart who)

theorem Net.Sound.unread (h : n.Sound keys start) {s : Side} {header : Bytes} {node : Nat} {r : Option Bytes}
    {w : World D K S U} (hTaken : Returns (decryptPacket env (n.ends s).state.me.skey header node) (n.ends s) r w)
    (t : Side) : (Net.flow { n with ends := Function.update n.ends s w, calls := n.calls + 1 } t).Within (keys t)
      (start t) (n.calls + 1) := by
  rcases decryptPacket_state hTaken with hState | hState
  · rw [n.flow_ends _ hState]
    exact (h.flow t).idle
  · have hFlow := n.flow_reads (n.accepted s) (n.calls + 1) hState t
    rw [Function.update_eq_self] at hFlow
    rw [hFlow]
    split
    · rename_i ht
      subst ht
      exact (h.flow t).refuse
    · exact (h.flow t).idle

theorem Net.Sound.step (h : n.Sound keys start) (hStep : Net.Step env n n') : n'.Sound keys start := by
  refine ⟨h.apart, fun t => ?_⟩
  cases hStep with
  | work s hState =>
    rw [n.flow_ends n.calls hState]
    exact h.flow t
  | send s header payload hSent =>
    rcases encryptPacket_state hSent with hState | ⟨hNone, -⟩
    · rw [n.flow_writes _ _ hState]
      split
      · rename_i ht
        subst ht
        simpa [Net.flow] using (h.flow s.other).send header payload
      · exact (h.flow t).idle
    · cases hNone
  | fail s header payload hFailed =>
    rcases encryptPacket_state hFailed with hState | ⟨-, hState⟩
    · have hFlow := n.flow_writes (n.sent s) (n.calls + 1) hState t
      rw [Function.update_eq_self] at hFlow
      rw [hFlow]
      split
      · rename_i ht
        subst ht
        simpa [Net.flow] using (h.flow s.other).skip
      · exact (h.flow t).idle
    · rw [n.flow_ends _ hState]
      exact (h.flow t).idle
  | accept s hTree hUnforged hSound hTaken =>
    obtain ⟨hAuth, hState⟩ := hSound.authentic hTree hTaken
    rw [n.flow_reads _ _ hState]
    split
    · rename_i ht
      subst ht
      exact (h.flow t).accept fun hKey => h.known t (hUnforged _ hAuth) hKey
    · exact (h.flow t).idle
  | reject s hTaken => exact h.unread hTaken t
  | slip s hTree hNot hTaken => exact h.unread hTaken t

theorem Net.Sound.run (h : n.Sound keys start) (hRun : Relation.ReflTransGen (Net.Step env) n n') :
    n'.Sound keys start := by
  induction hRun with
  | refl => exact h
  | tail _ hStep ih => exact ih.step hStep

theorem Agreed.sound (hAgreed : Agreed r i) (hKeys : r.state.me.skey ≠ i.state.me.skey) :
    (netBetween r i).Sound (fun s => ((netBetween r i).flow s).readKey) fun s => ((netBetween r i).flow s).reading := by
  have hFresh : ∀ {readKey writeKey : S} {reading writing : Nonce}, readKey = writeKey → reading = writing →
      Flow.Sound readKey reading 0 0 ⟨readKey, writeKey, reading, writing, [], []⟩ :=
    fun hKey hNonce => ⟨rfl, hKey.symm, rfl, hNonce.symm, rising_nil, rising_nil, by simp, by simp⟩
  constructor
  · intro s
    cases s with
    | left => exact hKeys
    | right => exact hKeys.symm
  · intro s
    refine ⟨0, Nat.le_refl 0, 0, Nat.le_refl 0, ?_⟩
    cases s with
    | left => exact hFresh hAgreed.receiverKey hAgreed.receiverNonce
    | right => exact hFresh hAgreed.initiatorKey.symm hAgreed.initiatorNonce.symm

/-- What a side accepts is part of what the other side sent, in its order: nothing is forged, repeated or
reordered. -/
theorem accepted_sublist_sent (hAgreed : Agreed r i) (hKeys : r.state.me.skey ≠ i.state.me.skey)
    (hRun : Relation.ReflTransGen (Net.Step env) (netBetween r i) n) (hCalls : n.calls ≤ 2 ^ 64) (s : Side) :
    (n.accepted s).Sublist (n.sent s.other) := by
  obtain ⟨read, hRead, written, hWritten, hFlow⟩ := ((hAgreed.sound hKeys).run hRun).flow s
  exact (hFlow.accepted.mono hRead).sublist (fun j k => Nonce.iterate_inc_inj hCalls) (hFlow.sent.mono hWritten)
    hFlow.known

/-- No key is used twice with one nonce, on both sides together. -/
theorem nonces_used_once (hAgreed : Agreed r i) (hKeys : r.state.me.skey ≠ i.state.me.skey)
    (hRun : Relation.ReflTransGen (Net.Step env) (netBetween r i) n) (hCalls : n.calls ≤ 2 ^ 64) :
    (n.sent .left ++ n.sent .right).Pairwise fun p q => (p.key, p.nonce) ≠ (q.key, q.nonce) := by
  have hSound := (hAgreed.sound hKeys).run hRun
  have hOne : ∀ s, (n.flow s).sent.Pairwise fun p q => (p.key, p.nonce) ≠ (q.key, q.nonce) := by
    intro s
    obtain ⟨read, -, written, hWritten, hFlow⟩ := hSound.flow s
    apply (hFlow.sent.mono hWritten).sorted.imp
    intro p q hEarlier hSame
    exact hEarlier.ne (fun j k => Nonce.iterate_inc_inj hCalls) (Prod.mk.inj hSame).2
  refine List.pairwise_append.mpr ⟨hOne .right, hOne .left, ?_⟩
  intro p hp q hq hSame
  obtain ⟨_, _, _, _, hRight⟩ := hSound.flow .right
  obtain ⟨_, _, _, _, hLeft⟩ := hSound.flow .left
  have hKey : p.key = q.key := (Prod.mk.inj hSame).1
  exact hSound.apart .right ((hRight.keys p hp).symm.trans (hKey.trans (hLeft.keys q hq)))

/-- A packet that the wire leaves alone is accepted. -/
theorem Agreed.exists_accepted (env : Env D K S) (hCcm : SoundCcm env.ltc) (hAgreed : Agreed r i) (hR : r.errno = 0)
    (hI : i.errno = 0) (header payload : Bytes) :
    ∃ n, Relation.ReflTransGen (Net.Step env) (netBetween r i) n ∧ n.calls = 2 ∧
      n.accepted .right = [⟨i.state.me.skey, i.state.me.nonce, header, payload⟩] := by
  obtain ⟨node, heap, t, hSent, hTree, -, hSeals⟩ :=
    returns_encryptPacket hCcm hR r.state.them.skey header payload
  have hSend : Net.Step env (netBetween r i) _ := .send .left header payload hSent
  rw [hAgreed.initiatorKey, hAgreed.initiatorNonce] at hSeals
  obtain ⟨heap', hTaken⟩ := returns_decryptPacket hCcm (w := i.grown heap) hI hTree hSeals
  obtain ⟨out, tag, hSeal, hOpen⟩ := hCcm i.state.me.skey i.state.me.nonce header payload
  obtain ⟨out', tag', hSeal', rfl⟩ := hSeals
  obtain ⟨rfl, rfl⟩ : out = out' ∧ tag = tag' := by simpa using hSeal.symm.trans hSeal'
  have hSound : SoundPacket env (i.grown heap) i.state.me.skey header node
      ((envelopeElems out tag).tree (some envName)) := by
    intro tag' text hErrno hEnv
    cases hEnv
    constructor
    · intro hName
      cases hName
    intro _
    refine ⟨payload, tag, hOpen, Option.some_ne_none _, ?_⟩
    intro hOne
    cases hOne
  refine ⟨_, ((Relation.ReflTransGen.single hSend).tail (.work .right (w := i.grown heap) rfl)).tail
    (.accept .right hTree ?_ hSound hTaken), rfl, rfl⟩
  intro plain hAuth
  obtain ⟨-, tag', out', hEnv, hPlain⟩ := hAuth
  cases hEnv
  obtain rfl : payload = plain := (Prod.mk.inj (Option.some.inj (hOpen.symm.trans hPlain))).1
  refine ⟨.left, List.mem_singleton.mpr ?_⟩
  change Sealing.mk i.state.me.skey i.state.me.nonce header payload =
    ⟨r.state.them.skey, r.state.them.nonce, header, payload⟩
  rw [hAgreed.initiatorKey, hAgreed.initiatorNonce]

end Runs

/-! ## Two sides with different keys -/

/-- The cipher of the samples, with a key that shows in the tag. -/
def keyedLtc : Ltc Unit Bool where
  ccmMemory _ key _ _ text := some (text.map (· ^^^ 85), List.replicate 16 (if key then 1 else 2))
  ccm_length h := by
    cases h
    exact List.length_map _
  rijndaelSetup _ := some true
  eccMakeKey random := some ((), random)
  eccImport _ := some ()
  eccExport _ _ := some [7]
  eccSharedSecret _ _ := some [8]
  hashMemory text := some (text.take 32)
  eccVerifyHash _ _ _ := some true
  noKey := ()
  noSkey := false

theorem keyedLtc_sound : SoundCcm keyedLtc := by
  intro key nonce header text
  have hFlip : ((fun x : UInt8 => x ^^^ 85) ∘ fun x => x ^^^ 85) = id := by
    funext x
    simp
  refine ⟨_, _, rfl, ?_⟩
  simp [keyedLtc, hFlip]

def keyedEnv : Env Unit Unit Bool := ⟨noDoubles, keyedLtc, 100⟩

def keyedWorld (mine theirs : Bool) : World Unit Unit Bool Unit :=
  ⟨[], 0, ⟨⟨none, ⟨0, 0⟩, (), none, mine⟩, ⟨none, ⟨0, 0⟩, (), none, theirs⟩, false⟩, [], ()⟩

theorem keyedWorld_agreed : Agreed (keyedWorld true false) (keyedWorld false true) := ⟨rfl, rfl, rfl, rfl, rfl, rfl⟩

theorem accepted_sublist_keyed :
    ∃ n, Relation.ReflTransGen (Net.Step keyedEnv) (netBetween (keyedWorld true false) (keyedWorld false true)) n ∧
      n.accepted .right = [⟨false, ⟨0, 0⟩, [], [98]⟩] ∧ (n.accepted .right).Sublist (n.sent .left) := by
  obtain ⟨n, hRun, hCalls, hAccepted⟩ :=
    Agreed.exists_accepted keyedEnv keyedLtc_sound keyedWorld_agreed rfl rfl [] [98]
  exact ⟨n, hRun, hAccepted, accepted_sublist_sent keyedWorld_agreed (by decide) hRun (by omega) .right⟩

theorem nonces_used_once_keyed :
    ∃ n, Relation.ReflTransGen (Net.Step keyedEnv) (netBetween (keyedWorld true false) (keyedWorld false true)) n ∧
      n.accepted .right = [⟨false, ⟨0, 0⟩, [], [98]⟩] ∧
      (n.sent .left ++ n.sent .right).Pairwise fun p q => (p.key, p.nonce) ≠ (q.key, q.nonce) := by
  obtain ⟨n, hRun, hCalls, hAccepted⟩ :=
    Agreed.exists_accepted keyedEnv keyedLtc_sound keyedWorld_agreed rfl rfl [] [98]
  exact ⟨n, hRun, hAccepted, nonces_used_once keyedWorld_agreed (by decide) hRun (by omega)⟩

end Utu.Protocol
