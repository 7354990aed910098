import Utu.Hub.Phases
import Utu.Protocol.Receiver

/-!
# Who is served

No state in which a client is served is entered before its handshake has
succeeded and its member is logged in, and none is left in place by a close.
-/

namespace Utu.Hub.Connection
open Protocol Procedure
set_option autoImplicit false

variable {D : Type} {c c' : Connection D} {q : MsgQueue D} {l : List (Message D)} {e : Event D}

/-- All that has been seen of a connection is sound, and it was established whenever something was
read from its client or serviced for it. -/
structure Watched (c : Connection D) : Prop where
  views : ∀ v ∈ c.past.views, v.Sound
  recvs : ∀ v ∈ c.past.recvs, v.Established
  services : ∀ v ∈ c.past.services, v.Established

theorem sound_of_not_serving {v : View} (h : v.cs.serving = false) : v.Sound := by
  intro hServing
  rw [h] at hServing
  cases hServing

namespace Watched

theorem see (h : Watched c) {vs : List View} (hViews : ∀ v ∈ vs, v.Sound) :
    ∀ v ∈ c.past.views ++ vs, v.Sound :=
  List.forall_mem_append.mpr ⟨h.views, hViews⟩

/-- A half close and the state it leads to are not seen to serve anybody. -/
theorem suspend (h : Watched c) {cs : Cs} (hCs : cs = .closing ∨ cs = .error) (q : MsgQueue D) :
    Watched (c.suspend cs q) where
  views := by
    refine h.see ?_
    rcases hCs with rfl | rfl <;> simp [View.Sound, Cs.serving]
  recvs := h.recvs
  services := h.services

theorem logout (h : Watched c) (hCs : c.cs.serving = false) (q : MsgQueue D) : Watched (c.logout q) where
  views := h.see (by simpa using sound_of_not_serving (by exact hCs))
  recvs := h.recvs
  services := h.services

theorem retire (h : Watched c) (e : HubEvent) : Watched (c.retire e) := by
  rcases retire_cases c e with ⟨-, hEq⟩ | ⟨-, cs, hCs, hEq⟩
  · rwa [hEq]
  · rw [hEq]
    refine ⟨h.see ?_, h.recvs, h.services⟩
    rcases hCs with rfl | rfl <;> simp [View.Sound, Cs.serving]

theorem of_past (h : Watched c) (hPast : c'.past = c.past) : Watched c' := by
  constructor <;> rw [hPast]
  · exact h.views
  · exact h.recvs
  · exact h.services

theorem received (h : Watched c) {io : Io D} (hReceived : Received io c c') : Watched c' := by
  cases hReceived with
  | malformed vs hViews => exact { h with views := h.see hViews }
  | misnumbered m vs hViews => exact { h with views := h.see hViews }
  | unserviced m vs v hViews hView =>
    exact ⟨h.see hViews, h.recvs, List.forall_mem_append.mpr ⟨h.services, by simpa using hView⟩⟩
  | serviced m vs v hViews hView =>
    exact ⟨h.see hViews, h.recvs, List.forall_mem_append.mpr ⟨h.services, by simpa using hView⟩⟩

theorem holding (h : Watched c) {p : Packet D} (hHold : Holding c p c') : Watched c' := by
  cases hHold with
  | handed => exact h
  | free => exact { h with }

theorem taking (h : Watched c) {m : Message D} (hTake : Taking c m c') : Watched c' := by
  cases hTake with
  | handed => exact h
  | free => exact { h with }

theorem liveStep (h : Watched c) (hLive : Live c q l) (hStep : LiveStep c q l e c') : Watched c' := by
  cases hStep with
  | hangUp io hIn hBody =>
    have hCs : (if c.cs = .sending then Cs.error else .closing) = .closing ∨
        (if c.cs = .sending then Cs.error else .closing) = .error := by split <;> simp
    have hSuspend := suspend (c := { c with recvHdr := io.packet.hdr, recvBody := none }) { h with }
      hCs q
    exact { hSuspend with }
  | await io hIn hBody hLock => exact { h with }
  | received io hHold hCs hReceived =>
    have hWatched := (h.holding hHold).received hReceived
    exact { hWatched with }
  | tornDown io hHold hCs =>
    have hSuspend := (h.holding hHold).suspend (.inl rfl) q
    exact { hSuspend with }
  | reread io hIn =>
    exact { h with
      recvs := List.forall_mem_append.mpr ⟨h.recvs, by simpa using hLive.view_established⟩ }
  | sleep io hOut hEmpty => exact { h with }
  | starve io hOut hEmpty =>
    have hSuspend := h.suspend (.inl rfl) q
    exact { hSuspend with }
  | peek io hOut hFirst hLock => exact { h with }
  | send io hTake hFirst hCs vs hViews v hView => exact { h with views := h.see hViews }
  | quit io hTake hFirst hCs =>
    have hSuspend := (h.taking hTake).suspend (.inl rfl) q
    exact { hSuspend with }
  | sent io hOut hSent hFirst hAlive hHolds vs hViews => exact { h with views := h.see hViews }
  | failed io hOut hSent v hView =>
    have hFailed : Watched { c with cs := .aborting, sendMsg := none, past :=
        { c.past with views := c.past.views ++ [v] } } :=
      { h with views := h.see (by simpa using hView) }
    have hSuspend := hFailed.suspend (.inl rfl) q
    exact { hSuspend with }
  | delivered m hAdd hAlive hHolds => exact { h with }
  | full m hFull => exact h

theorem downStep (h : Watched c) (hDown : Down c) (hStep : DownStep c e c') : Watched c' := by
  have hCs : c.cs.serving = false := by
    rcases hDown.cs with hCs | hCs | hCs <;> rw [hCs] <;> rfl
  cases hStep with
  | unread io hIn => exact (h.retire .readClose).of_past rfl
  | hangUp io hIn hBody =>
    have hRead : Watched { c with recvHdr := io.packet.hdr, recvBody := none } := h.of_past rfl
    exact (hRead.retire .readClose).of_past rfl
  | await io hIn hBody hLock => exact { h with }
  | msgRecv io hHold => exact ((h.holding hHold).retire .msgRecv).of_past (readUnlock_past _)
  | @unestablished io q hIn hMember => exact ((h.logout hCs q).retire .readClose).of_past rfl
  | @tornDown io q hIn hMember =>
    have hLogout := h.logout hCs q
    split
    · exact (hLogout.retire .svcRecv).of_past (readUnlock_past _)
    · exact hLogout.of_past (readUnlock_past _)
  | @readClosed io q hIn hMember => exact (h.logout hCs q).of_past rfl
  | @refused io q hIn hMember => exact (h.logout hCs q).of_past rfl
  | ended io hOut hDone => exact h.of_past rfl
  | crashed io f hMember => exact h.of_past rfl
  | writeClose io hOut hMember =>
    have hNone : Watched { c with sendMsg := none } := h.of_past rfl
    exact (hNone.retire .writeClose).of_past rfl
  | msgQueued io hOut hLock => exact (h.retire .msgQueued).of_past (writeUnlock_past _)
  | sent io hOut => exact h.of_past (writeUnlock_past _)
  | @sendClosed io q hOut hMember hClosing v =>
    have hLogout := h.logout hCs q
    exact ⟨hLogout.views, h.recvs, h.services⟩
  | @sendDone io q hOut hMember hDone => exact (h.logout hCs q).of_past (writeUnlock_past _)
  | @writeClosed io q hOut hMember => exact (h.logout hCs q).of_past rfl
  | delivered m hMember hHolds hAdd hDead hHolds' => exact { h with }
  | undelivered m => exact h
  | finish hIn =>
    exact { h with views := h.see (by simpa using sound_of_not_serving (by exact hCs)) }

theorem openingStep (h : Watched c) (hStep : OpeningStep c e c') : Watched c' := by
  cases hStep with
  | confirmed io hCs vs hViews => exact { h with views := h.see hViews }
  | refused io hCs vs hViews => exact { h with views := h.see hViews }
  | failed io hMember established vs hViews => exact { h with views := h.see hViews }
  | unregistered io hMember vs hViews => exact { h with views := h.see hViews }
  | established io hCs vs hViews v hView =>
    exact { h with
      views := h.see hViews
      recvs := List.forall_mem_append.mpr ⟨h.recvs, by simpa using hView⟩ }
  | delivered m hMember hAdd hAlive hHolds => exact { h with }
  | undelivered m => exact h

theorem opened : Watched (opened : Connection D) := by
  constructor <;> simp [Connection.opened]

theorem firstStep (hStep : FirstStep e c') : Watched c' := by
  have hOpened := Watched.opened (D := D)
  cases hStep with
  | crashed io vs hViews => exact { hOpened with views := hViews }
  | failed io vs hViews => exact { hOpened with views := hViews }
  | tuning io vs hViews => exact { hOpened with views := hViews }
  | undelivered m => exact hOpened

end Watched

theorem Reachable.watched (h : Reachable c) : Watched c :=
  h.invariant .opened .firstStep (fun _ hStep hWatched => hWatched.openingStep hStep)
    (fun hLive hStep hWatched => hWatched.liveStep hLive hStep)
    fun hDown _ hStep hWatched => hWatched.downStep hDown hStep

theorem Phase.sound (h : Phase c) : c.view.Sound := by
  cases h with
  | opened h =>
    subst h
    exact sound_of_not_serving rfl
  | opening h =>
    cases h with
    | tuning _ hCs => exact sound_of_not_serving (by simp [view, hCs, Cs.serving])
    | registering _ hCs => exact sound_of_not_serving (by simp [view, hCs, Cs.serving])
    | refused _ hCs => exact sound_of_not_serving (by simp [view, hCs, Cs.serving])
  | live h => exact fun _ => h.view_established
  | down h =>
    rcases h.cs with hCs | hCs | hCs <;> exact sound_of_not_serving (by simp [view, hCs, Cs.serving])
  | crashed _ hCs => exact sound_of_not_serving (by simp [view, hCs, Cs.serving])

/-! ## The key confirmation -/

section Confirmation
variable {K S : Type} {env : Env D K S} {keyConfirm : KeyConfirm D K S Wire}

theorem createSharedKey_confirmed {header : Nat} {nonced : Bool} {w w' : World D K S Wire}
    (h : Returns (createSharedKey env header nonced keyConfirm) w true w') :
    ∃ v v', Returns keyConfirm.run v true v' := by
  obtain ⟨⟨rc, bound⟩, w₁, hDecons, h₁⟩ := returns_bind.mp h
  obtain ⟨u, w₂, hNonce, h₂⟩ := returns_bind.mp h₁
  rcases returns_checkElse.mp h₂ with ⟨-, hExit⟩ | ⟨-, h₃⟩
  · cases (returns_pure.mp hExit).1
  obtain ⟨v, t, hGet, h₄⟩ := returns_bind.mp h₃
  obtain ⟨b, w₃, hImport, h₅⟩ := returns_bind.mp h₄
  rcases returns_checkElse.mp h₅ with ⟨-, hExit⟩ | ⟨-, h₆⟩
  · cases (returns_pure.mp hExit).1
  obtain ⟨confirmed, w₄, hConfirm, h₇⟩ := returns_bind.mp h₆
  rcases returns_checkElse.mp h₇ with ⟨-, hExit⟩ | ⟨hRc, -⟩
  · cases (returns_pure.mp hExit).1
  · obtain rfl := (Bool.and_eq_true_iff.mp hRc).1
    exact ⟨_, _, hConfirm⟩

/-- `Peer_establish_receiver` returns 1 only behind a confirmation that returned 1, which is what a
run takes of it. -/
theorem peerEstablishReceiver_confirmed {w w' : World D K S Wire}
    (h : Returns (peerEstablishReceiver env keyConfirm) w true w') :
    ∃ v v', Returns keyConfirm.run v true v' := by
  obtain ⟨w₁, hIdentify, -⟩ := peerEstablishReceiver_true.mp h
  rcases identifyInitiator_cases hIdentify with hExit | ⟨-, hbuf, packet, v, ident, v', hIdentity, -⟩
  · cases hExit
  · cases hIdentity with
    | intro _ _ _ _ _ hKey => exact createSharedKey_confirmed hKey

end Confirmation

/-! ## The result -/

/-- A connection serves its client only after its handshake has returned 1, with the key confirmed
and the member logged in, and before its half close. The handshake itself returns 1 only behind a
confirmation. -/
theorem established_of_serving {c : Connection D} (h : Reachable c) :
    (∀ v ∈ c.view :: c.past.views, v.cs.serving = true → v.Established) ∧
      (∀ v ∈ c.past.services, v.Established) ∧ (∀ v ∈ c.past.recvs, v.Established) ∧
      ∀ {K S : Type} (env : Env D K S) (keyConfirm : KeyConfirm D K S Wire) {w w' : World D K S Wire},
        Returns (peerEstablishReceiver env keyConfirm) w true w' →
          ∃ v v', Returns keyConfirm.run v true v' := by
  refine ⟨?_, h.watched.services, h.watched.recvs,
    fun env keyConfirm => peerEstablishReceiver_confirmed⟩
  rintro v (_ | ⟨_, hMem⟩)
  · exact h.phase.sound
  · exact h.watched.views v hMem

theorem established_of_greeting :
    (greeting.foldl step opened).cs = .idle ∧ (greeting.foldl step opened).view.Established := by
  have hRun : Reachable (greeting.foldl step (opened : Connection Unit)) :=
    Reachable.foldl .refl (by decide +kernel)
  have hCs : (greeting.foldl step (opened : Connection Unit)).cs = .idle := by decide +kernel
  refine ⟨hCs, (established_of_serving hRun).1 _ List.mem_cons_self ?_⟩
  rw [view, hCs]
  rfl

end Utu.Hub.Connection
