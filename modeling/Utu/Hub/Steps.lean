import Utu.Hub.Connection

/-!
# What a step of a connection can do

A connection is opening, then live, then down, and never comes back. For each
of the three there is a list of everything a step does to it; the invariants of
a connection are read off these lists.
-/

namespace Utu.Hub
set_option autoImplicit false

/-- The states in which a client is served. -/
def Cs.serving : Cs → Bool
  | .idle | .hated | .awaiting | .validating | .sending | .delivering => true
  | _ => false

/-- The handshake has succeeded, with the key confirmed and the member logged in, and nothing of it
has been taken back. -/
structure View.Established (v : View) : Prop where
  established : v.established = true
  confirmed : v.confirmed = true
  loggedIn : v.loggedIn = true
  client : v.client = true
  peer : v.peer = true
  member : v.member = true

/-- A client is served only if it is established. -/
def View.Sound (v : View) : Prop := v.cs.serving = true → v.Established

theorem View.Established.sound {v : View} (h : v.Established) (cs : Cs) :
    View.Sound { v with cs } := fun _ => ⟨h.1, h.2, h.3, h.4, h.5, h.6⟩

/-- The writing task stands between the choice of a message and its removal. -/
def Outgoing.holding : Outgoing → Bool
  | .locking | .sending => true
  | _ => false

/-- The writing task is about to look for a message. -/
def Outgoing.looking : Outgoing → Bool
  | .created | .unlocked | .waiting true => true
  | _ => false

/-- The writing task runs, and has not begun to close. -/
def Outgoing.live : Outgoing → Bool
  | .absent | .closing _ _ | .ended => false
  | _ => true

/-- The tasks of a connection that is down stand where a close can find them. -/
def Incoming.down : Incoming → Bool
  | .start | .establishing _ _ => false
  | .closing call rest => (call = .secondPass || call = .msgRecv) && !rest || call = .readClose
  | _ => true

def Outgoing.down : Outgoing → Bool
  | .closing call rest => (call = .msgQueued || call = .writeClose) && !rest
  | _ => true

/-- The task waits in `Member_logout`. -/
def Incoming.closes : Incoming → Bool
  | .closing _ _ => true
  | _ => false

def Outgoing.closes : Outgoing → Bool
  | .closing _ _ => true
  | _ => false

namespace Connection
variable {D : Type} {c : Connection D} {q : MsgQueue D} {io : Io D}

/-! ## Calls of `ConnectionState_exec` -/

/-- A half close has come to the yield in `Member_logout`. -/
def suspend (c : Connection D) (cs : Cs) (q : MsgQueue D) : Connection D :=
  { c with
    cs
    client := false
    member := some { q with dead := true }
    outgoing := c.outgoing.wake
    effects := c.effects ++ [.unregisterAll]
    past := { c.past with
      views := c.past.views ++ [{ c.view with cs }, { c.view with cs, client := false }] } }

/-- The second close puts the state on the list of closed ones. -/
def shut (c : Connection D) (cs : Cs) : Connection D :=
  { c with
    cs
    effects := c.effects ++ [.push]
    past := { c.past with views := c.past.views ++ [{ c.view with cs }] } }

theorem exec_done (io : Io D) (e : HubEvent) (h : c.done = true) : c.exec io e = (c, .returned (-1)) := by
  rw [exec, if_pos h]

/-- A close of a connection with a member waits in `Member_logout`. -/
theorem exec_halfClose (io : Io D) (e : HubEvent) (hClient : c.client = true)
    (hMember : c.member = some q)
    (h : transition c.cs e = (.closing, [.halfClose]) ∨
      transition c.cs e = (.closing, [.aborted, .halfClose])) (hDone : c.done = false) :
    c.exec io e = (c.suspend .closing q, .waiting false) := by
  rcases h with h | h <;>
    simp [exec, hDone, h, runActions, act, halfClose, move, seen, emit, suspend, view, hClient, hMember]

/-- So does an event that the state does not expect, and the second close is to follow. -/
theorem exec_refuse (io : Io D) (e : HubEvent) (hClient : c.client = true)
    (hMember : c.member = some q)
    (h : transition c.cs e = refuse) (hDone : c.done = false) :
    c.exec io e = (c.suspend .error q, .waiting true) := by
  simp [exec, hDone, h, refuse, runActions, act, halfClose, move, seen, emit, suspend, view, hClient,
    hMember]

/-- Behind the half close every event is the second close. -/
theorem exec_closing (io : Io D) (e : HubEvent) (hClient : c.client = false)
    (hCs : c.cs = .closing) :
    c.exec io e =
      (c.shut (if e.closes then .final else .error), .returned (if e.closes then 1 else -1)) := by
  cases hCloses : e.closes <;>
    simp [exec, done, hCs, transition, hCloses, refuse, runActions, act, halfClose, restClose, hClient,
      move, seen, emit, shut, view, invariant]

/-! ## Opening connections -/

/-- The reading task is in the handshake, and nothing has been read or sent. -/
structure Young (c : Connection D) (confirm : Option Bool) : Prop where
  client : c.client = true
  peer : c.peer = true
  incoming : c.incoming = .establishing .firstPass confirm
  outgoing : c.outgoing = .absent
  lock : c.lock = none
  recvMsg : c.recvMsg = none
  sendMsg : c.sendMsg = none
  recvCount : c.recvCount = 1
  sendCount : c.sendCount = 1
  recvs : c.past.recvs = []
  packets : c.past.packets = []
  services : c.past.services = []
  serviced : c.past.serviced = []
  sendCalls : c.past.sendCalls = []
  sends : c.past.sends = []

/-- The key is not confirmed yet, or it is and the member is logged in, or could not be. -/
inductive Opening (c : Connection D) : Prop
  | tuning (h : c.Young none) (hCs : c.cs = .tuning) (hMember : c.member = none)
      (hAdded : c.past.added = [])
  | registering {q : MsgQueue D} (h : c.Young (some true)) (hCs : c.cs = .registering)
      (hMember : c.member = some q) (hAlive : q.dead = false) (hHolds : q.Holds c.past.added)
      (hConfirmed : c.confirmed = true) (hLoggedIn : c.loggedIn = true)
  | refused (h : c.Young (some true)) (hCs : c.cs = .aborting) (hMember : c.member = none)
      (hAdded : c.past.added = [])

/-- Everything the first step can do. -/
inductive FirstStep : Event D → Connection D → Prop
  | crashed (io : Io D) (vs : List View) (hViews : ∀ v ∈ vs, v.Sound) :
      FirstStep (.incoming io)
        { (opened : Connection D) with
          cs := .keyCheck, recvCount := 1, sendCount := 1, fault := some .nullPointer
          past := { (opened : Connection D).past with views := vs } }
  | failed (io : Io D) (vs : List View) (hViews : ∀ v ∈ vs, v.Sound) :
      FirstStep (.incoming io)
        { (opened : Connection D) with
          cs := .error, recvCount := 1, sendCount := 1, client := false, incoming := .finished
          effects := [.push, .hubClose]
          past := { (opened : Connection D).past with views := vs } }
  | tuning (io : Io D) (vs : List View) (hViews : ∀ v ∈ vs, v.Sound) :
      FirstStep (.incoming io)
        { (opened : Connection D) with
          cs := .tuning, recvCount := 1, sendCount := 1, peer := true
          incoming := .establishing .firstPass none
          past := { (opened : Connection D).past with views := vs } }
  | undelivered (m : Message D) : FirstStep (.deliver m) opened

/-- A view before the handshake. -/
def early (cs : Cs) (client peer : Bool) : View := ⟨cs, client, peer, false, false, false, false⟩

theorem opened_cases {e : Event D} (hReady : (opened : Connection D).Ready e) :
    FirstStep e ((opened : Connection D).step e) := by
  cases e with
  | incoming io =>
    cases hCrypt : io.crypt with
    | false =>
      have hStep := FirstStep.crashed io [early .accepting true false, early .keyCheck true false]
        (by simp [early, View.Sound, Cs.serving])
      simpa [step, runIncoming, opened, queueConn, exec, done, transition, orClose, runActions, act, move,
        seen, view, hCrypt, crash, early] using hStep
    | true =>
      cases hPeer : io.peer with
      | false =>
        have hStep := FirstStep.failed io [early .accepting true false, early .keyCheck true false,
          early .keyCheck true false, early .aborting true false, early .closing true false,
          early .closing false false, early .error false false]
          (by simp [early, View.Sound, Cs.serving])
        simpa [step, runIncoming, opened, queueConn, exec, done, transition, orClose, runActions, act,
          move, seen, view, hCrypt, hPeer, firstPass, invariant, halfClose, secondPass,
          HubEvent.closes, refuse, restClose, emit, readMsg, readClose, handled, early] using hStep
      | true =>
        have hStep := FirstStep.tuning io [early .accepting true false, early .keyCheck true false,
          early .keyCheck true true, early .tuning true true] (by simp [early, View.Sound, Cs.serving])
        simpa [step, runIncoming, opened, queueConn, exec, done, transition, orClose, runActions, act,
          move, seen, view, hCrypt, hPeer, firstPass, early] using hStep
  | outgoing io => cases hReady
  | deliver m => exact .undelivered m
  | finish => cases hReady

/-- Everything a step can do in the handshake. -/
inductive OpeningStep (c : Connection D) : Event D → Connection D → Prop
  | confirmed (io : Io D) (hCs : c.cs = .tuning) (vs : List View) (hViews : ∀ v ∈ vs, v.Sound) :
      OpeningStep c (.incoming io)
        { c with cs := .registering, confirmed := true, loggedIn := true
                 member := some (.create memberMsgQueueLength)
                 incoming := .establishing .firstPass (some true)
                 past := { c.past with views := c.past.views ++ vs } }
  | refused (io : Io D) (hCs : c.cs = .tuning) (vs : List View) (hViews : ∀ v ∈ vs, v.Sound) :
      OpeningStep c (.incoming io)
        { c with cs := .aborting, confirmed := true, member := none
                 incoming := .establishing .firstPass (some true)
                 past := { c.past with views := c.past.views ++ vs } }
  | failed (io : Io D) (hMember : c.member = none) (established : Bool) (vs : List View)
      (hViews : ∀ v ∈ vs, v.Sound) :
      OpeningStep c (.incoming io)
        { c with cs := .final, client := false, established, incoming := .finished
                 effects := c.effects ++ [.push, .hubClose]
                 past := { c.past with views := c.past.views ++ vs } }
  | unregistered (io : Io D) {q : MsgQueue D} (hMember : c.member = some q) (vs : List View)
      (hViews : ∀ v ∈ vs, v.Sound) :
      OpeningStep c (.incoming io)
        { c with cs := .closing, client := false, member := some { q with dead := true }
                 incoming := .closing .secondPass false, effects := c.effects ++ [.unregisterAll]
                 past := { c.past with views := c.past.views ++ vs } }
  | established (io : Io D) (hCs : c.cs = .registering) (vs : List View) (hViews : ∀ v ∈ vs, v.Sound)
      (v : View) (hView : v.Established) :
      OpeningStep c (.incoming io)
        { c with cs := .idle, established := true, incoming := .reading, outgoing := .created
                 past := { c.past with views := c.past.views ++ vs, recvs := c.past.recvs ++ [v] } }
  | delivered (m : Message D) {q q' : MsgQueue D} (hMember : c.member = some q)
      (hAdd : q.add m = (true, q')) (hAlive : q'.dead = false)
      (hHolds : q'.Holds (c.past.added ++ [m])) :
      OpeningStep c (.deliver m)
        { c with member := some q', past := { c.past with added := c.past.added ++ [m] } }
  | undelivered (m : Message D) : OpeningStep c (.deliver m) c

namespace Young
variable {confirm : Option Bool}

theorem confirm_cases (hCs : c.cs = .tuning) (hMember : c.member = none) :
    OpeningStep c (.incoming io) (c.confirmKey io .firstPass) := by
  cases hLogin : io.login with
  | true =>
    have hStep := OpeningStep.confirmed io hCs [{ c.view with confirmed := true },
      { c.view with cs := .registering, confirmed := true },
      { c.view with cs := .registering, confirmed := true, loggedIn := true, member := true }]
      (by simp [View.Sound, Cs.serving, view, hCs])
    simpa [confirmKey, seen, exec, done, hCs, transition, orClose, move, runActions, act, hLogin, view,
      invariant] using hStep
  | false =>
    have hStep := OpeningStep.refused io hCs [{ c.view with confirmed := true },
      { c.view with cs := .registering, confirmed := true },
      { c.view with cs := .registering, confirmed := true },
      { c.view with cs := .aborting, confirmed := true }]
      (by simp [View.Sound, Cs.serving, view, hCs])
    simpa [confirmKey, seen, exec, done, hCs, transition, orClose, move, runActions, act, hLogin, view,
      invariant, hMember] using hStep

/-- Without a member the connection is closed without a wait. -/
theorem secondPass_aborting (io : Io D) (hClient : c.client = true) (hCs : c.cs = .aborting)
    (hMember : c.member = none) : c.secondPass io =
      { c with cs := .final, client := false, incoming := .finished
               effects := c.effects ++ [.push, .hubClose]
               past := { c.past with views := c.past.views ++ [{ c.view with cs := .closing },
                 { c.view with cs := .closing, client := false },
                 { c.view with cs := .final, client := false }] } } := by
  simp [secondPass, exec, done, hCs, transition, move, seen, runActions, act, halfClose, hClient,
    hMember, view, readMsg, readClose, HubEvent.closes, restClose, emit, handled]

theorem failed_cases (h : c.Young confirm) (hMember : c.member = none)
    (hEst : io.established = true → c.cs = .aborting) :
    OpeningStep c (.incoming io) (c.afterEstablish io .firstPass) := by
  cases hOk : io.established with
  | true =>
    have hStep := OpeningStep.failed io hMember true [{ c.view with established := true },
      { c.view with cs := .closing, established := true },
      { c.view with cs := .closing, client := false, established := true },
      { c.view with cs := .final, client := false, established := true }]
      (by simp [View.Sound, Cs.serving, view, hEst hOk])
    have hEq := secondPass_aborting (c := seen { c with established := true }) io h.client (hEst hOk)
      hMember
    simp only [afterEstablish, hOk, if_true, afterRead, hEq]
    simpa [seen, view] using hStep
  | false =>
    have hStep := OpeningStep.failed io hMember c.established [{ c.view with cs := .aborting },
      { c.view with cs := .closing }, { c.view with cs := .closing, client := false },
      { c.view with cs := .final, client := false }] (by simp [View.Sound, Cs.serving])
    have hEq := secondPass_aborting (c := c.move .aborting) io h.client rfl hMember
    simp only [afterEstablish, hOk, Bool.false_eq_true, if_false, afterRead, hEq]
    simpa [move, seen, view] using hStep

theorem registering_cases (h : c.Young confirm) (hCs : c.cs = .registering)
    (hMember : c.member = some q) (hConfirmed : c.confirmed = true) (hLoggedIn : c.loggedIn = true) :
    OpeningStep c (.incoming io) (c.afterEstablish io .firstPass) := by
  cases hOk : io.established with
  | true =>
    have hView : View.Established { c.view with cs := .idle, established := true } := by
      constructor <;> simp [view, hConfirmed, hLoggedIn, h.client, h.peer, hMember]
    have hStep := OpeningStep.established io hCs [{ c.view with established := true },
      { c.view with cs := .idle, established := true }]
      (by simpa [View.Sound, view, hCs, Cs.serving] using hView) _ hView
    simpa [afterEstablish, hOk, afterRead, seen, secondPass, exec, done, hCs, transition, orClose, move,
      runActions, act, readMsg, h.client, hMember, view] using hStep
  | false =>
    have hStep := OpeningStep.unregistered io hMember [{ c.view with cs := .aborting },
      { c.view with cs := .closing }, { c.view with cs := .closing, client := false }]
      (by simp [View.Sound, Cs.serving])
    have hExec := exec_halfClose io .pass (c := c.move .aborting) h.client hMember (.inr rfl) rfl
    simp only [afterEstablish, hOk, Bool.false_eq_true, if_false, afterRead, secondPass, hExec]
    simpa [suspend, move, seen, view, h.outgoing, Outgoing.wake] using hStep

end Young

theorem Opening.incoming_cases (h : Opening c) (hReady : c.Ready (.incoming io)) :
    OpeningStep c (.incoming io) (c.runIncoming io) := by
  cases h with
  | tuning h hCs hMember hAdded =>
    simp only [Ready, h.incoming] at hReady
    simp only [runIncoming, h.incoming]
    cases hConfirm : io.confirm with
    | true => exact Young.confirm_cases hCs hMember
    | false =>
      simp only [hConfirm, Bool.false_eq_true, if_false] at hReady
      exact h.failed_cases hMember fun hOk => by cases hReady hOk
  | registering h hCs hMember hAlive hHolds hConfirmed hLoggedIn =>
    simp only [Ready, h.incoming] at hReady
    simp only [runIncoming, h.incoming]
    cases hConfirm : io.confirm with
    | true => simp [hConfirm] at hReady
    | false => exact h.registering_cases hCs hMember hConfirmed hLoggedIn
  | refused h hCs hMember hAdded =>
    simp only [Ready, h.incoming] at hReady
    simp only [runIncoming, h.incoming]
    cases hConfirm : io.confirm with
    | true => simp [hConfirm] at hReady
    | false => exact h.failed_cases hMember fun _ => hCs

theorem Opening.young (h : Opening c) : ∃ confirm, c.Young confirm := by
  cases h with
  | tuning h => exact ⟨_, h⟩
  | registering h => exact ⟨_, h⟩
  | refused h => exact ⟨_, h⟩

theorem Opening.deliver_cases (h : Opening c) (m : Message D) :
    OpeningStep c (.deliver m) (c.deliver m) := by
  rw [deliver]
  cases h with
  | tuning h hCs hMember =>
    rw [hMember]
    exact .undelivered m
  | refused h hCs hMember =>
    rw [hMember]
    exact .undelivered m
  | @registering q h hCs hMember hAlive hHolds =>
    rw [hMember]
    cases hFull : q.isFull with
    | true =>
      simp only [MsgQueue.add_full hFull]
      exact .undelivered m
    | false =>
      obtain ⟨q', hAdd, hHolds', hDead⟩ := hHolds.add hFull m
      have hStep := OpeningStep.delivered m hMember hAdd (hDead.trans hAlive) hHolds'
      simpa only [hAdd, h.outgoing, Outgoing.wake] using hStep

/-- Everything a step can do in the handshake is on the list. -/
theorem Opening.step_cases (h : Opening c) {e : Event D} (hReady : c.Ready e) :
    OpeningStep c e (c.step e) := by
  obtain ⟨confirm, hYoung⟩ := h.young
  cases e with
  | incoming io => exact h.incoming_cases hReady
  | outgoing io => simp [Ready, hYoung.outgoing] at hReady
  | deliver m => exact h.deliver_cases m
  | finish => simp [Ready, hYoung.incoming] at hReady

/-! ## Live connections -/

/-- The handshake is through and nothing has been closed, with the queue `q` of the member and the
messages `l` in it. -/
structure Live (c : Connection D) (q : MsgQueue D) (l : List (Message D)) : Prop where
  client : c.client = true
  peer : c.peer = true
  confirmed : c.confirmed = true
  loggedIn : c.loggedIn = true
  established : c.established = true
  member : c.member = some q
  alive : q.dead = false
  holds : q.Holds l
  cs : c.cs = .idle ∨ c.cs = .sending ∨ c.cs = .aborting
  incoming : c.incoming = .reading ∨ c.incoming = .locking ∨ c.incoming = .unlocked
  outgoing : c.outgoing.live = true
  sending : c.outgoing = .sending ↔ c.cs = .sending
  lockIncoming : c.lock = some .incoming → c.incoming = .locking
  lockOutgoing : c.lock = some .outgoing → c.outgoing.holding = true
  lockSending : c.outgoing = .sending → c.lock = some .outgoing
  recvMsg : c.cs ≠ .aborting → c.recvMsg = none
  sendMsg : c.sendMsg = if c.outgoing.holding then l.head? else none
  peeked : c.outgoing.holding = true → l ≠ []

/-- `Peer_recv` has returned a packet. -/
def packetIn (c : Connection D) (p : Packet D) : Connection D :=
  { c with recvHdr := p.hdr, recvBody := p.body,
           past := { c.past with packets := c.past.packets ++ [p.msgid] } }

/-- The reading task comes to hold the lock. -/
inductive Holding (c : Connection D) (p : Packet D) : Connection D → Prop
  | handed (hIn : c.incoming = .locking) (hLock : c.lock = some .incoming) : Holding c p c
  | free (hIn : c.incoming = .reading) (hLock : c.lock = none) (hBody : p.body.isSome = true) :
      Holding c p { c.packetIn p with lock := some .incoming }

/-- What becomes of a packet in state Idle. -/
inductive Received (io : Io D) (c : Connection D) : Connection D → Prop
  | malformed (vs : List View) (hViews : ∀ v ∈ vs, v.Sound) :
      Received io c
        { c with cs := .aborting, recvMsg := none,
                 past := { c.past with views := c.past.views ++ vs } }
  | misnumbered (m : Message D) (vs : List View) (hViews : ∀ v ∈ vs, v.Sound) (hRef : m.ref = io.ref)
      (hMsgid : Packet.msgid ⟨c.recvHdr, c.recvBody⟩ = some m.msgid) (hWrong : m.msgid ≠ c.recvCount) :
      Received io c
        { c with cs := .aborting, recvMsg := some m, effects := c.effects ++ [.alloc m, .retain m],
                 past := { c.past with views := c.past.views ++ vs } }
  | unserviced (m : Message D) (vs : List View) (v : View) (hViews : ∀ v ∈ vs, v.Sound)
      (hView : v.Established) (hRef : m.ref = io.ref)
      (hMsgid : Packet.msgid ⟨c.recvHdr, c.recvBody⟩ = some m.msgid) (hRight : m.msgid = c.recvCount)
      (hService : io.service = false) :
      Received io c
        { c with cs := .aborting, recvMsg := some m, recvCount := c.recvCount + 1,
                 effects := c.effects ++ [.alloc m, .service m, .retain m],
                 past := { c.past with views := c.past.views ++ vs, services := c.past.services ++ [v],
                                       serviced := c.past.serviced ++ [m.msgid] } }
  | serviced (m : Message D) (vs : List View) (v : View) (hViews : ∀ v ∈ vs, v.Sound)
      (hView : v.Established) (hRef : m.ref = io.ref)
      (hMsgid : Packet.msgid ⟨c.recvHdr, c.recvBody⟩ = some m.msgid) (hRight : m.msgid = c.recvCount)
      (hService : io.service = true) :
      Received io c
        { c with cs := .idle, recvMsg := none, recvHdr := none, recvBody := none,
                 recvCount := c.recvCount + 1, effects := c.effects ++ [.alloc m, .service m],
                 past := { c.past with views := c.past.views ++ vs, services := c.past.services ++ [v],
                                       serviced := c.past.serviced ++ [m.msgid] } }

/-- The writing task comes to hold the lock, with the message `m` to send. -/
inductive Taking (c : Connection D) (m : Message D) : Connection D → Prop
  | handed (hOut : c.outgoing = .locking) (hLock : c.lock = some .outgoing)
      (hMsg : c.sendMsg = some m) : Taking c m c
  | free (hOut : c.outgoing.looking = true) (hLock : c.lock = none) :
      Taking c m { c with sendMsg := some m, lock := some .outgoing }

/-- Everything a step can do to a live connection. -/
inductive LiveStep (c : Connection D) (q : MsgQueue D) (l : List (Message D)) :
    Event D → Connection D → Prop
  | hangUp (io : Io D) (hIn : c.incoming = .reading) (hBody : io.packet.body = none) :
      LiveStep c q l (.incoming io)
        { suspend { c with recvHdr := io.packet.hdr, recvBody := none }
            (if c.cs = .sending then .error else .closing) q with
          incoming := .closing .readClose (c.cs = .sending) }
  | await (io : Io D) (hIn : c.incoming = .reading) (hBody : io.packet.body.isSome = true)
      (hLock : c.lock ≠ none) :
      LiveStep c q l (.incoming io) { c.packetIn io.packet with incoming := .locking }
  | received (io : Io D) {c₁ c' : Connection D} (hHold : Holding c io.packet c₁) (hCs : c.cs = .idle)
      (h : Received io c₁ c') :
      LiveStep c q l (.incoming io)
        { c' with lock := if c.outgoing = .locking then some .outgoing else none
                  incoming := .unlocked }
  | tornDown (io : Io D) {c₁ : Connection D} (hHold : Holding c io.packet c₁) (hCs : c.cs = .aborting) :
      LiveStep c q l (.incoming io)
        { c₁.suspend .closing q with incoming := .closing .msgRecv false }
  | reread (io : Io D) (hIn : c.incoming = .unlocked) :
      LiveStep c q l (.incoming io)
        { c with incoming := .reading, past := { c.past with recvs := c.past.recvs ++ [c.view] } }
  | sleep (io : Io D) (hOut : c.outgoing = .created ∨ c.outgoing = .unlocked) (hEmpty : l = []) :
      LiveStep c q l (.outgoing io) { c with outgoing := .waiting false }
  | starve (io : Io D) (hOut : c.outgoing = .waiting true) (hEmpty : l = []) :
      LiveStep c q l (.outgoing io)
        { c.suspend .closing q with outgoing := .closing .writeClose false }
  | peek (io : Io D) {m : Message D} {l' : List (Message D)} (hOut : c.outgoing.looking = true)
      (hFirst : l = m :: l') (hLock : c.lock ≠ none) :
      LiveStep c q l (.outgoing io) { c with sendMsg := some m, outgoing := .locking }
  | send (io : Io D) {m : Message D} {l' : List (Message D)} {c₁ : Connection D}
      (hTake : Taking c m c₁) (hFirst : l = m :: l') (hCs : c.cs = .idle) (vs : List View)
      (hViews : ∀ v ∈ vs, v.Sound) (v : View) (hView : v.cs = .sending ∧ v.member = true) :
      LiveStep c q l (.outgoing io)
        { c₁ with cs := .sending, sendCount := c.sendCount + 1, outgoing := .sending,
                  past := { c.past with views := c.past.views ++ vs
                                        sendCalls := c.past.sendCalls ++ [v]
                                        sends := c.past.sends ++ [(c.sendCount, m)] } }
  | quit (io : Io D) {m : Message D} {l' : List (Message D)} {c₁ : Connection D}
      (hTake : Taking c m c₁) (hFirst : l = m :: l') (hCs : c.cs = .aborting) :
      LiveStep c q l (.outgoing io)
        { c₁.suspend .closing q with outgoing := .closing .msgQueued false }
  | sent (io : Io D) {m : Message D} {l' : List (Message D)} {q' : MsgQueue D}
      (hOut : c.outgoing = .sending) (hSent : io.sent = true) (hFirst : l = m :: l')
      (hAlive : q'.dead = false) (hHolds : q'.Holds l') (vs : List View)
      (hViews : ∀ v ∈ vs, v.Sound) :
      LiveStep c q l (.outgoing io)
        { c with cs := .idle, member := some q', effects := c.effects ++ [.release m]
                 sendMsg := none, lock := if c.incoming = .locking then some .incoming else none
                 outgoing := .unlocked, past := { c.past with views := c.past.views ++ vs } }
  | failed (io : Io D) (hOut : c.outgoing = .sending) (hSent : io.sent = false) (v : View)
      (hView : v.Sound) :
      LiveStep c q l (.outgoing io)
        { suspend { c with cs := .aborting, sendMsg := none
                           past := { c.past with views := c.past.views ++ [v] } } .closing q with
          outgoing := .closing .writeClose false }
  | delivered (m : Message D) {q' : MsgQueue D} (hAdd : q.add m = (true, q'))
      (hAlive : q'.dead = false) (hHolds : q'.Holds (l ++ [m])) :
      LiveStep c q l (.deliver m)
        { c with member := some q', outgoing := c.outgoing.wake
                 past := { c.past with added := c.past.added ++ [m] } }
  | full (m : Message D) (hFull : q.isFull = true) : LiveStep c q l (.deliver m) c

theorem messageDecons_errno {errno : Nat} {hdr body : Stackish.Tree D} {msgid : UInt64}
    (h : messageDecons errno hdr body = some msgid) : messageDecons 0 hdr body = some msgid := by
  unfold messageDecons at h ⊢
  split at h
  · simp only [Option.ite_none_right_eq_some] at h ⊢
    exact ⟨⟨trivial, h.1.2⟩, h.2⟩
  · cases h

theorem recv_eq (hHdr : c.recvHdr = none ∨ c.recvBody = none ∨
      ∃ hdr body, c.recvHdr = some hdr ∧ c.recvBody = some body ∧
        messageDecons io.errno hdr body = none) (hMsg : c.recvMsg = none) :
    c.recv io = (c, .abort) := by
  rcases hHdr with h | h | ⟨hdr, body, hHdr, hBody, hDecons⟩
  · simp [recv, h]
  · cases hHdr : c.recvHdr <;> simp [recv, h, hHdr]
  · simp only [recv, hHdr, hBody, hDecons, Prod.mk.injEq, and_true]
    rw [← hMsg, ← hHdr, ← hBody]

/-- In state Idle a packet is taken in and serviced without a yield. -/
theorem msgRecv_idle (io : Io D) (hCs : c.cs = .idle) (hView : c.view.Established) (hMsg : c.recvMsg = none)
    (hLock : c.lock = some .incoming) :
    ∃ c', Received io c c' ∧ c.msgRecv io =
      { c' with lock := if c.outgoing = .locking then some .outgoing else none
                incoming := .unlocked } := by
  by_cases hGood : ∃ hdr body msgid, c.recvHdr = some hdr ∧ c.recvBody = some body ∧
      messageDecons io.errno hdr body = some msgid
  · obtain ⟨hdr, body, msgid, hHdr, hBody, hDecons⟩ := hGood
    have hMsgid : Packet.msgid ⟨c.recvHdr, c.recvBody⟩ = some msgid := by
      simp only [Packet.msgid, hHdr, hBody]
      exact messageDecons_errno hDecons
    by_cases hRight : msgid = c.recvCount
    · cases hService : io.service with
      | false =>
        refine ⟨_, .unserviced ⟨io.ref, msgid, body⟩ [{ c.view with cs := .delivering },
          { c.view with cs := .idle }, { c.view with cs := .aborting }] { c.view with cs := .idle }
          ?_ (hView.sound .idle rfl) rfl hMsgid hRight hService, ?_⟩
        · simp [hView.sound]
        · simp [msgRecv, exec, done, hCs, transition, runActions, act, recv, move, seen, hHdr, hBody,
            hDecons, afterMsgRecv, readUnlock, unlock, hLock, view, emit, svcRecv, invariant,
            msgidCheck, hRight, service, hService]
      | true =>
        refine ⟨_, .serviced ⟨io.ref, msgid, body⟩ [{ c.view with cs := .delivering },
          { c.view with cs := .idle }] { c.view with cs := .idle }
          ?_ (hView.sound .idle rfl) rfl hMsgid hRight hService, ?_⟩
        · simp [hView.sound]
        · simp [msgRecv, exec, done, hCs, transition, runActions, act, recv, move, seen, hHdr, hBody,
            hDecons, afterMsgRecv, readUnlock, unlock, hLock, view, emit, svcRecv, invariant,
            msgidCheck, hRight, service, hService]
    · refine ⟨_, .misnumbered ⟨io.ref, msgid, body⟩ [{ c.view with cs := .delivering },
        { c.view with cs := .idle }, { c.view with cs := .aborting }] ?_ rfl hMsgid hRight, ?_⟩
      · simp [hView.sound]
      · simp [msgRecv, exec, done, hCs, transition, runActions, act, recv, move, seen, hHdr, hBody,
          hDecons, afterMsgRecv, readUnlock, unlock, hLock, view, emit, svcRecv, invariant,
          msgidCheck, hRight]
  · have hBad : c.recvHdr = none ∨ c.recvBody = none ∨ ∃ hdr body, c.recvHdr = some hdr ∧
        c.recvBody = some body ∧ messageDecons io.errno hdr body = none := by
      cases hHdr : c.recvHdr with
      | none => exact .inl rfl
      | some hdr =>
        cases hBody : c.recvBody with
        | none => exact .inr (.inl rfl)
        | some body =>
          refine .inr (.inr ⟨hdr, body, rfl, rfl, ?_⟩)
          by_contra hSome
          obtain ⟨msgid, hDecons⟩ := Option.ne_none_iff_exists'.mp hSome
          exact hGood ⟨hdr, body, msgid, hHdr, hBody, hDecons⟩
    refine ⟨_, .malformed [{ c.view with cs := .delivering }, { c.view with cs := .aborting }] ?_, ?_⟩
    · simp [hView.sound]
    · have hRecv : (c.move .delivering).recv io = (c.move .delivering, .abort) := recv_eq hBad hMsg
      have hExec : c.exec io .msgRecv = ((c.move .delivering).move .aborting, .returned 0) := by
        simp only [exec, done, hCs, transition, runActions, act, hRecv]
        rfl
      simp [msgRecv, hExec, move, seen, afterMsgRecv, hMsg, readUnlock, unlock, hLock, view]

namespace Live
variable {l : List (Message D)}

theorem view_established (h : Live c q l) : c.view.Established := by
  constructor <;> simp [view, h.established, h.confirmed, h.loggedIn, h.client, h.peer, h.member]

theorem notDone (h : Live c q l) : c.done = false := by
  rcases h.cs with hCs | hCs | hCs <;> simp [done, hCs]

/-- Whoever does not hold a message leaves the machine in Idle or Aborting. -/
theorem cs_of_not_sending (h : Live c q l) (hOut : c.outgoing ≠ .sending) :
    c.cs = .idle ∨ c.cs = .aborting := by
  rcases h.cs with hCs | hCs | hCs
  · exact .inl hCs
  · exact absurd (h.sending.mpr hCs) hOut
  · exact .inr hCs

/-- The machine is not in Sending while the reading task has the lock, or nobody. -/
theorem cs_of_lock (h : Live c q l) (hLock : c.lock ≠ some .outgoing) :
    c.cs = .idle ∨ c.cs = .aborting :=
  h.cs_of_not_sending fun hOut => hLock (h.lockSending hOut)

theorem msgRecv_cases (h : Live c q l) {c₁ : Connection D} (hHold : Holding c io.packet c₁) :
    LiveStep c q l (.incoming io) (c₁.msgRecv io) := by
  have hLock : c.lock ≠ some .outgoing := by
    cases hHold <;> simp [*]
  have hSame : c₁.view = c.view ∧ c₁.recvMsg = c.recvMsg ∧ c₁.outgoing = c.outgoing ∧
      c₁.lock = some .incoming ∧ c₁.cs = c.cs ∧ c₁.client = c.client ∧ c₁.member = c.member := by
    cases hHold with
    | handed _ hLock => exact ⟨rfl, rfl, rfl, hLock, rfl, rfl, rfl⟩
    | free => exact ⟨rfl, rfl, rfl, rfl, rfl, rfl, rfl⟩
  obtain ⟨hView, hMsg, hOut, hLock₁, hCs₁, hClient, hMember⟩ := hSame
  rcases h.cs_of_lock hLock with hCs | hCs
  · obtain ⟨c', hReceived, hEq⟩ := msgRecv_idle io (hCs₁.trans hCs)
      (hView ▸ h.view_established) (hMsg.trans (h.recvMsg (by simp [hCs]))) hLock₁
    rw [hEq, hOut]
    exact .received io hHold hCs hReceived
  · have hExec := exec_halfClose io .msgRecv (hClient.trans h.client)
      (hMember.trans h.member) (.inr (by rw [hCs₁, hCs]; rfl)) (by simp [done, hCs₁, hCs])
    rw [msgRecv, hExec]
    exact .tornDown io hHold hCs

theorem hangUp_cases (h : Live c q l) (hIn : c.incoming = .reading) (hBody : io.packet.body = none) :
    LiveStep c q l (.incoming io) (c.afterRecv io) := by
  have hStep := LiveStep.hangUp (l := l) (q := q) io hIn hBody
  simp only [afterRecv, hBody, Option.isNone_none, if_true, readClose]
  by_cases hCs : c.cs = .sending
  · rw [exec_refuse io .readClose (c := { c with recvBody := none, recvHdr := io.packet.hdr })
      h.client h.member (by simp [hCs, transition]) h.notDone]
    simpa [hCs] using hStep
  · have hClose : transition c.cs .readClose = (.closing, [.halfClose]) ∨
        transition c.cs .readClose = (.closing, [.aborted, .halfClose]) := by
      rcases h.cs with hIdle | hSending | hAborting
      · exact .inl (by rw [hIdle]; rfl)
      · exact absurd hSending hCs
      · exact .inr (by rw [hAborting]; rfl)
    rw [exec_halfClose io .readClose (c := { c with recvBody := none, recvHdr := io.packet.hdr })
      h.client h.member hClose h.notDone]
    simpa [hCs] using hStep

theorem incoming_cases (h : Live c q l) (hReady : c.Ready (.incoming io)) :
    LiveStep c q l (.incoming io) (c.runIncoming io) := by
  rcases h.incoming with hIn | hIn | hIn <;> simp only [runIncoming, hIn]
  · cases hBody : io.packet.body with
    | none => exact h.hangUp_cases hIn hBody
    | some body =>
      have hSome : io.packet.body.isSome = true := by rw [hBody]; rfl
      simp only [afterRecv, hBody, Option.isNone_some, Bool.false_eq_true, if_false, readLock]
      cases hLock : c.lock with
      | none =>
        have hHold : Holding c io.packet { c.packetIn io.packet with lock := some .incoming } :=
          .free hIn hLock hSome
        simpa [packetIn, hBody] using h.msgRecv_cases hHold
      | some side =>
        have hStep := LiveStep.await (l := l) (q := q) io hIn hSome (by simp [hLock])
        simpa [packetIn, hBody, hLock] using hStep
  · exact h.msgRecv_cases (.handed hIn (by simpa [Ready, hIn] using hReady))
  · have hStep := LiveStep.reread (c := c) (l := l) (q := q) io hIn
    simpa [readMsg, h.notDone, h.client, h.member] using hStep

theorem msgQueued_cases (h : Live c q l) {m : Message D} {l' : List (Message D)} (hFirst : l = m :: l')
    {c₁ : Connection D} (hTake : Taking c m c₁) :
    LiveStep c q l (.outgoing io) (c₁.msgQueued io) := by
  have hOut : c.outgoing ≠ .sending := by
    cases hTake with
    | handed hOut => simp [hOut]
    | free hOut _ =>
      intro hSending
      simp [hSending, Outgoing.looking] at hOut
  have hSame : c₁.sendMsg = some m ∧ c₁.cs = c.cs ∧ c₁.client = c.client ∧ c₁.member = c.member := by
    cases hTake with
    | handed _ _ hMsg => exact ⟨hMsg, rfl, rfl, rfl⟩
    | free => exact ⟨rfl, rfl, rfl, rfl⟩
  obtain ⟨hMsg, hCs₁, hClient, hMember⟩ := hSame
  rcases h.cs_of_not_sending hOut with hCs | hCs
  · have hStep := LiveStep.send (l := l) (q := q) io hTake hFirst hCs [{ c.view with cs := .sending }]
      (by simp [h.view_established.sound]) { c.view with cs := .sending }
      ⟨rfl, h.view_established.member⟩
    have hExec : c₁.exec io .msgQueued = (c₁.move .sending, .returned 0) := by
      simp [exec, done, hCs₁, hCs, transition, runActions, act, move, seen, invariant]
    rw [msgQueued, hExec]
    cases hTake <;>
      simpa [afterMsgQueued, sendMessage, move, seen, done, view, hMsg, h.member] using hStep
  · rw [msgQueued, exec_halfClose io .msgQueued (hClient.trans h.client) (hMember.trans h.member)
      (.inr (by rw [hCs₁, hCs]; rfl)) (by simp [done, hCs₁, hCs])]
    exact .quit io hTake hFirst hCs

/-- The writing task with a message at hand waits for the lock, or goes on. -/
theorem afterDequeue_cases (h : Live c q l) {m : Message D} {l' : List (Message D)}
    (hFirst : l = m :: l') (hOut : c.outgoing.looking = true) :
    LiveStep c q l (.outgoing io) (c.afterDequeue io (some m)) := by
  cases hLock : c.lock with
  | none => simpa [afterDequeue, hLock] using h.msgQueued_cases hFirst (.free hOut hLock)
  | some side =>
    have hStep := LiveStep.peek (q := q) io hOut hFirst (by simp [hLock])
    simpa [afterDequeue, hLock] using hStep

theorem first_eq (h : Live c q l) {m : Message D} {l' : List (Message D)} (hFirst : l = m :: l') :
    q.isEmpty = false ∧ q.first = some m := by
  have hHolds : q.Holds (m :: l') := hFirst ▸ h.holds
  rw [← Bool.not_eq_true, hHolds.isEmpty_iff]
  exact ⟨List.cons_ne_nil m l', hHolds.first_cons⟩

theorem dequeue_cases (h : Live c q l) (hOut : c.outgoing = .created ∨ c.outgoing = .unlocked) :
    LiveStep c q l (.outgoing io) (c.dequeue io) := by
  simp only [dequeue, h.notDone, Bool.false_eq_true, if_false, h.member, h.alive]
  cases hList : l with
  | nil =>
    rw [if_pos (h.holds.isEmpty_iff.mpr hList)]
    rw [← h.member]
    exact .sleep io hOut rfl
  | cons m l' =>
    have hLooking : c.outgoing.looking = true := by
      rcases hOut with hOut | hOut <;> rw [hOut] <;> rfl
    rw [(h.first_eq hList).1, if_neg Bool.false_ne_true, (h.first_eq hList).2, ← hList]
    exact h.afterDequeue_cases hList hLooking

theorem afterWait_cases (h : Live c q l) (hOut : c.outgoing = .waiting true) :
    LiveStep c q l (.outgoing io) (c.afterWait io) := by
  simp only [afterWait, h.member, h.alive, Bool.false_or]
  cases hList : l with
  | nil =>
    rw [if_pos (h.holds.isEmpty_iff.mpr hList)]
    have hMsg : c.sendMsg = none := by
      rw [h.sendMsg, hOut]
      rfl
    have hSame : { c with sendMsg := none } = c := by rw [← hMsg]
    have hClose : transition c.cs .writeClose = (.closing, [.halfClose]) ∨
        transition c.cs .writeClose = (.closing, [.aborted, .halfClose]) := by
      rcases h.cs_of_not_sending (by simp [hOut]) with hCs | hCs
      · exact .inl (by rw [hCs]; rfl)
      · exact .inr (by rw [hCs]; rfl)
    simp only [afterDequeue, hSame, Option.isNone_none, if_true, writeClose,
      exec_halfClose io .writeClose h.client h.member hClose h.notDone]
    exact .starve io hOut rfl
  | cons m l' =>
    rw [(h.first_eq hList).1, if_neg Bool.false_ne_true, (h.first_eq hList).2, ← hList]
    exact h.afterDequeue_cases hList (by rw [hOut]; rfl)

theorem sending_cases (h : Live c q l) (hOut : c.outgoing = .sending) :
    LiveStep c q l (.outgoing io) (if io.sent then c.sendWorked io else c.sendFailed io) := by
  have hCs := h.sending.mp hOut
  have hHolding : c.outgoing.holding = true := by rw [hOut]; rfl
  obtain ⟨m, l', hList⟩ := List.exists_cons_of_ne_nil (h.peeked hHolding)
  cases hSent : io.sent with
  | true =>
    obtain ⟨q', hDelete, hHolds, hDead⟩ := (hList ▸ h.holds).delete_cons
    have hStep := LiveStep.sent (c := c) (q := q) io hOut hSent hList (hDead.trans h.alive) hHolds
      [{ c.view with cs := .idle }] (by simp [h.view_established.sound])
    simpa [sendWorked, exec, done, hCs, transition, runActions, act, sent, move, seen, h.member, hDelete,
      emit, writeUnlock, unlock, h.lockSending hOut, view] using hStep
  | false =>
    have hStep := LiveStep.failed (c := c) (q := q) (l := l) io hOut hSent
      { c.view with cs := .aborting } (h.view_established.sound _)
    have hExec : c.exec io .fail =
        ({ c.move .aborting with sendMsg := none }, .returned 0) := by
      simp [exec, done, hCs, transition, runActions, act, move, seen, invariant]
    rw [if_neg Bool.false_ne_true, sendFailed, hExec]
    simp only [writeClose]
    rw [exec_halfClose io .writeClose (c := { c.move .aborting with sendMsg := none }) h.client h.member
      (.inr rfl) rfl]
    exact hStep

theorem outgoing_cases (h : Live c q l) (hReady : c.Ready (.outgoing io)) :
    LiveStep c q l (.outgoing io) (c.runOutgoing io) := by
  cases hOut : c.outgoing with
  | absent => simpa [hOut, Outgoing.live] using h.outgoing
  | created => simpa only [runOutgoing, hOut] using h.dequeue_cases (.inl hOut)
  | waiting woken =>
    simp only [Ready, hOut] at hReady
    simpa only [runOutgoing, hOut] using h.afterWait_cases (hReady ▸ hOut)
  | locking =>
    simp only [Ready, hOut] at hReady
    have hHolding : c.outgoing.holding = true := by rw [hOut]; rfl
    obtain ⟨m, l', hList⟩ := List.exists_cons_of_ne_nil (h.peeked hHolding)
    have hMsg : c.sendMsg = some m := by rw [h.sendMsg, if_pos hHolding, hList]; rfl
    simpa only [runOutgoing, hOut] using h.msgQueued_cases hList (.handed hOut hReady hMsg)
  | sending => simpa only [runOutgoing, hOut] using h.sending_cases hOut
  | closing call rest => simpa [hOut, Outgoing.live] using h.outgoing
  | unlocked => simpa only [runOutgoing, hOut] using h.dequeue_cases (.inr hOut)
  | ended => simpa [hOut, Outgoing.live] using h.outgoing

theorem deliver_cases (h : Live c q l) (m : Message D) : LiveStep c q l (.deliver m) (c.deliver m) := by
  simp only [deliver, h.member]
  cases hFull : q.isFull with
  | true =>
    rw [MsgQueue.add_full hFull]
    exact .full m hFull
  | false =>
    obtain ⟨q', hAdd, hHolds, hDead⟩ := h.holds.add hFull m
    rw [hAdd]
    exact .delivered m hAdd (hDead.trans h.alive) hHolds

/-- Everything a step can do to a live connection is on the list. -/
theorem step_cases (h : Live c q l) {e : Event D} (hReady : c.Ready e) : LiveStep c q l e (c.step e) := by
  cases e with
  | incoming io => exact h.incoming_cases hReady
  | outgoing io => exact h.outgoing_cases hReady
  | deliver m => exact h.deliver_cases m
  | finish =>
    have hFinished : c.incoming = .finished := hReady
    rcases h.incoming with hIn | hIn | hIn <;> simp [hIn] at hFinished

end Live

/-! ## Connections that are down -/

/-- The half close has run. The task that runs it may still wait for the other one, and then the
member is still there. -/
structure Down (c : Connection D) : Prop where
  client : c.client = false
  cs : c.cs = .closing ∨ c.cs = .error ∨ c.cs = .final
  incoming : c.incoming.down = true
  outgoing : c.outgoing.down = true
  rest : c.incoming = .closing .readClose true → c.cs = .error
  sending : c.outgoing = .sending → c.cs = .error
  one : ¬ (c.incoming.closes = true ∧ c.outgoing.closes = true)
  closer : c.fault = none → c.member.isSome = (c.incoming.closes || c.outgoing.closes)
  member : ∀ q, c.member = some q → q.dead = true ∧ ∃ l, q.Holds l

/-- What an event does to a connection that is down. -/
def retire (c : Connection D) (e : HubEvent) : Connection D :=
  if c.cs = .closing then c.shut (if e.closes then .final else .error) else c

/-- Everything a step can do to a connection that is down. -/
inductive DownStep (c : Connection D) : Event D → Connection D → Prop
  | unread (io : Io D) (hIn : c.incoming = .unlocked) :
      DownStep c (.incoming io) (c.retire .readClose).handled
  | hangUp (io : Io D) (hIn : c.incoming = .reading) (hBody : io.packet.body = none) :
      DownStep c (.incoming io)
        (retire { c with recvHdr := io.packet.hdr, recvBody := none } .readClose).handled
  | await (io : Io D) (hIn : c.incoming = .reading) (hBody : io.packet.body.isSome = true)
      (hLock : c.lock ≠ none) :
      DownStep c (.incoming io) { c.packetIn io.packet with incoming := .locking }
  | msgRecv (io : Io D) {c₁ : Connection D} (hHold : Holding c io.packet c₁) :
      DownStep c (.incoming io) (c₁.retire .msgRecv).readUnlock
  | unestablished (io : Io D) {q : MsgQueue D} (hIn : c.incoming = .closing .secondPass false)
      (hMember : c.member = some q) :
      DownStep c (.incoming io) ((c.logout q).retire .readClose).handled
  | tornDown (io : Io D) {q : MsgQueue D} (hIn : c.incoming = .closing .msgRecv false)
      (hMember : c.member = some q) :
      DownStep c (.incoming io)
        (if c.recvMsg.isSome then (c.logout q).retire .svcRecv else c.logout q).readUnlock
  | readClosed (io : Io D) {q : MsgQueue D} (hIn : c.incoming = .closing .readClose false)
      (hMember : c.member = some q) : DownStep c (.incoming io) (c.logout q).handled
  | refused (io : Io D) {q : MsgQueue D} (hIn : c.incoming = .closing .readClose true)
      (hMember : c.member = some q) : DownStep c (.incoming io) ((c.logout q).emit .push).handled
  | ended (io : Io D) (hOut : c.outgoing ≠ .absent ∧ c.outgoing.closes = false)
      (hDone : c.done = true) : DownStep c (.outgoing io) { c with outgoing := .ended }
  | crashed (io : Io D) (f : Fault) (hMember : c.member = none) :
      DownStep c (.outgoing io) (c.crash f)
  | writeClose (io : Io D) {q : MsgQueue D} (hOut : c.outgoing.looking = true)
      (hMember : c.member = some q) :
      DownStep c (.outgoing io)
        { retire { c with sendMsg := none } .writeClose with outgoing := .ended }
  | msgQueued (io : Io D) (hOut : c.outgoing = .locking) (hLock : c.lock = some .outgoing) :
      DownStep c (.outgoing io) (c.retire .msgQueued).writeUnlock
  | sent (io : Io D) (hOut : c.outgoing = .sending) : DownStep c (.outgoing io) c.writeUnlock
  | sendClosed (io : Io D) {q : MsgQueue D} (hOut : c.outgoing = .closing .msgQueued false)
      (hMember : c.member = some q) (hCs : c.cs = .closing) (v : View) :
      DownStep c (.outgoing io)
        (crash { c.logout q with
          past := { (c.logout q).past with sendCalls := c.past.sendCalls ++ [v] } } .nullPointer)
  | sendDone (io : Io D) {q : MsgQueue D} (hOut : c.outgoing = .closing .msgQueued false)
      (hMember : c.member = some q) (hDone : c.done = true) :
      DownStep c (.outgoing io) (c.logout q).writeUnlock
  | writeClosed (io : Io D) {q : MsgQueue D} (hOut : c.outgoing = .closing .writeClose false)
      (hMember : c.member = some q) :
      DownStep c (.outgoing io) { c.logout q with outgoing := .ended }
  | delivered (m : Message D) {q q' : MsgQueue D} {l : List (Message D)} (hMember : c.member = some q)
      (hHolds : q.Holds l) (hAdd : q.add m = (true, q')) (hDead : q'.dead = true)
      (hHolds' : q'.Holds (l ++ [m])) :
      DownStep c (.deliver m)
        { c with member := some q', outgoing := c.outgoing.wake
                 past := { c.past with added := c.past.added ++ [m] } }
  | undelivered (m : Message D) : DownStep c (.deliver m) c
  | finish (hIn : c.incoming = .finished) : DownStep c .finish c.finish

theorem exec_retire (io : Io D) (e : HubEvent) (hClient : c.client = false)
    (hCs : c.cs = .closing ∨ c.cs = .error ∨ c.cs = .final) :
    ∃ rc, rc ≠ 0 ∧ c.exec io e = (c.retire e, .returned rc) := by
  rcases hCs with hCs | hCs | hCs
  · refine ⟨if e.closes then 1 else -1, by split <;> decide, ?_⟩
    rw [exec_closing io e hClient hCs, retire, if_pos hCs]
  · refine ⟨-1, by decide, ?_⟩
    rw [exec_done io e (by simp [done, hCs]), retire, if_neg (by simp [hCs])]
  · refine ⟨-1, by decide, ?_⟩
    rw [exec_done io e (by simp [done, hCs]), retire, if_neg (by simp [hCs])]

section Retired
variable (io : Io D) (hClient : c.client = false) (hCs : c.cs = .closing ∨ c.cs = .error ∨ c.cs = .final)
include hClient hCs

theorem readClose_eq : c.readClose io = (c.retire .readClose).handled := by
  obtain ⟨rc, -, hExec⟩ := exec_retire io .readClose hClient hCs
  rw [readClose, hExec]

theorem readMsg_eq : c.readMsg io = (c.retire .readClose).handled := by
  rw [readMsg, hClient, Bool.not_false, Bool.or_true, if_pos rfl, readClose_eq io hClient hCs]

theorem msgRecv_eq : c.msgRecv io = (c.retire .msgRecv).readUnlock := by
  obtain ⟨rc, hRc, hExec⟩ := exec_retire io .msgRecv hClient hCs
  rw [msgRecv, hExec]
  simp only [afterMsgRecv, hRc, false_and, if_false]

theorem svcRecv_eq : c.svcRecv io = (c.retire .svcRecv).readUnlock := by
  obtain ⟨rc, -, hExec⟩ := exec_retire io .svcRecv hClient hCs
  rw [svcRecv, hExec]

/-- Behind a logout `UEv_SVC_RECV` follows on a message that is still there. -/
theorem afterMsgRecv_eq : c.afterMsgRecv io c.invariant =
    (if c.recvMsg.isSome then c.retire .svcRecv else c).readUnlock := by
  cases hMsg : c.recvMsg.isSome with
  | false => simp [afterMsgRecv, hMsg]
  | true =>
    rw [if_pos rfl, afterMsgRecv]
    split
    · exact svcRecv_eq io hClient hCs
    · rename_i hNot
      rw [retire, if_neg]
      intro hClosing
      exact hNot ⟨by simp [invariant, hClosing], hMsg⟩

theorem writeClose_eq : c.writeClose io = { c.retire .writeClose with outgoing := .ended } := by
  obtain ⟨rc, -, hExec⟩ := exec_retire io .writeClose hClient hCs
  rw [writeClose, hExec]

theorem msgQueued_eq : c.msgQueued io = (c.retire .msgQueued).writeUnlock := by
  obtain ⟨rc, hRc, hExec⟩ := exec_retire io .msgQueued hClient hCs
  rw [msgQueued, hExec]
  simp only [afterMsgQueued, hRc, if_false]

end Retired

theorem retire_done (e : HubEvent) (h : c.done = true) : c.retire e = c := by
  rw [retire, if_neg]
  intro hCs
  simp [done, hCs] at h

namespace Down

theorem reading_cases (h : Down c) (hIn : c.incoming = .reading) :
    DownStep c (.incoming io) (c.afterRecv io) := by
  cases hBody : io.packet.body with
  | none =>
    simp only [afterRecv, hBody, Option.isNone_none, if_true]
    rw [readClose_eq (c := { c with recvBody := none, recvHdr := io.packet.hdr }) io h.client h.cs]
    exact .hangUp io hIn hBody
  | some body =>
    have hSome : io.packet.body.isSome = true := by rw [hBody]; rfl
    simp only [afterRecv, hBody, Option.isNone_some, Bool.false_eq_true, if_false, readLock]
    cases hLock : c.lock with
    | none =>
      have hStep := DownStep.msgRecv io (.free hIn hLock hSome)
      rw [← msgRecv_eq (c := { c.packetIn io.packet with lock := some .incoming }) io h.client h.cs]
        at hStep
      simpa [packetIn, hBody] using hStep
    | some side =>
      have hStep := DownStep.await io hIn hSome (by simp [hLock])
      simpa [packetIn, hBody, hLock] using hStep

theorem afterLogout_eq (h : Down c) (hMember : c.member = some q) (rest : Bool) :
    c.afterLogout rest = (if rest then (c.logout q).emit .push else c.logout q, .next) := by
  cases rest <;> simp [afterLogout, hMember, restClose, logout, seen, h.client]

theorem incoming_closing_cases (h : Down c) (hFault : c.fault = none) {call : ReadCall} {rest : Bool}
    (hIn : c.incoming = .closing call rest) : DownStep c (.incoming io) (c.runIncoming io) := by
  have hMember : c.member.isSome = true := by
    rw [h.closer hFault, hIn]
    rfl
  obtain ⟨q, hMember⟩ := Option.isSome_iff_exists.mp hMember
  simp only [runIncoming, hIn, h.afterLogout_eq hMember]
  have hDown := h.incoming
  rw [hIn] at hDown
  cases call with
  | firstPass => cases hDown
  | svcRecv => cases hDown
  | secondPass =>
    cases rest with
    | true => cases hDown
    | false =>
      simp only [afterRead, Bool.false_eq_true, if_false]
      rw [readMsg_eq (c := c.logout q) io h.client h.cs]
      exact .unestablished io hIn hMember
  | msgRecv =>
    cases rest with
    | true => cases hDown
    | false =>
      simp only [afterRead, Bool.false_eq_true, if_false]
      rw [afterMsgRecv_eq (c := c.logout q) io h.client h.cs]
      exact .tornDown io hIn hMember
  | readClose =>
    cases rest with
    | true => exact .refused io hIn hMember
    | false => exact .readClosed io hIn hMember

theorem incoming_cases (h : Down c) (hFault : c.fault = none) (hReady : c.Ready (.incoming io)) :
    DownStep c (.incoming io) (c.runIncoming io) := by
  cases hIn : c.incoming with
  | start => simpa [hIn, Incoming.down] using h.incoming
  | establishing call confirm => simpa [hIn, Incoming.down] using h.incoming
  | closing call rest => exact h.incoming_closing_cases hFault hIn
  | reading => simpa only [runIncoming, hIn] using h.reading_cases hIn
  | locking =>
    have hLock : c.lock = some .incoming := by simpa [Ready, hIn] using hReady
    simp only [runIncoming, hIn]
    rw [msgRecv_eq io h.client h.cs]
    exact .msgRecv io (.handed hIn hLock)
  | unlocked =>
    simp only [runIncoming, hIn]
    rw [readMsg_eq io h.client h.cs]
    exact .unread io hIn
  | finished => simp [Ready, hIn] at hReady

theorem afterDequeue_cases (h : Down c) (hMember : c.member = some q)
    (hOut : c.outgoing.looking = true) : DownStep c (.outgoing io) (c.afterDequeue io none) := by
  simp only [afterDequeue, Option.isNone_none, if_true]
  rw [writeClose_eq (c := { c with sendMsg := none }) io h.client h.cs]
  exact .writeClose io hOut hMember

theorem ended_cases (h : Down c) (hOut : c.outgoing ≠ .absent ∧ c.outgoing.closes = false)
    (hDone : c.done = true) : DownStep c (.outgoing io) (c.writeClose io) := by
  rw [writeClose_eq io h.client h.cs, retire_done _ hDone]
  exact .ended io hOut hDone

theorem dequeue_cases (h : Down c) (hOut : c.outgoing = .created ∨ c.outgoing = .unlocked) :
    DownStep c (.outgoing io) (c.dequeue io) := by
  rw [dequeue]
  split
  · rename_i hDone
    exact h.ended_cases (by rcases hOut with hOut | hOut <;> simp [hOut, Outgoing.closes]) hDone
  · cases hMember : c.member with
    | none => exact .crashed io _ hMember
    | some q =>
      simp only [(h.member q hMember).1, if_true]
      exact h.afterDequeue_cases hMember (by rcases hOut with hOut | hOut <;> rw [hOut] <;> rfl)

theorem outgoing_closing_cases (h : Down c) (hFault : c.fault = none) {call : WriteCall} {rest : Bool}
    (hOut : c.outgoing = .closing call rest) : DownStep c (.outgoing io) (c.runOutgoing io) := by
  have hMember : c.member.isSome = true := by
    rw [h.closer hFault, hOut]
    exact Bool.or_true _
  obtain ⟨q, hMember⟩ := Option.isSome_iff_exists.mp hMember
  simp only [runOutgoing, hOut, h.afterLogout_eq hMember]
  have hDown := h.outgoing
  rw [hOut] at hDown
  cases rest with
  | true => cases call <;> cases hDown
  | false =>
    cases call with
    | msgSent => cases hDown
    | fail => cases hDown
    | writeClose => exact .writeClosed io hOut hMember
    | msgQueued =>
      simp only [afterWrite, afterMsgQueued, Bool.false_eq_true, if_false]
      rcases h.cs with hCs | hCs | hCs
      · have hStep := DownStep.sendClosed io hOut hMember hCs (c.logout q).view
        simpa [invariant, logout, seen, hCs, sendMessage, done, crash] using hStep
      · have hStep := DownStep.sendDone io hOut hMember (by simp [done, hCs])
        simpa [invariant, logout, seen, hCs] using hStep
      · have hStep := DownStep.sendDone io hOut hMember (by simp [done, hCs])
        simpa [invariant, logout, seen, hCs] using hStep

theorem sending_cases (h : Down c) (hOut : c.outgoing = .sending) :
    DownStep c (.outgoing io) (if io.sent then c.sendWorked io else c.sendFailed io) := by
  have hDone : c.done = true := by simp [done, h.sending hOut]
  split
  · rw [sendWorked, exec_done io .msgSent hDone]
    exact .sent io hOut
  · rw [sendFailed, exec_done io .fail hDone]
    exact h.ended_cases (by simp [hOut, Outgoing.closes]) hDone

theorem outgoing_cases (h : Down c) (hFault : c.fault = none) (hReady : c.Ready (.outgoing io)) :
    DownStep c (.outgoing io) (c.runOutgoing io) := by
  cases hOut : c.outgoing with
  | absent => simp [Ready, hOut] at hReady
  | created => simpa only [runOutgoing, hOut] using h.dequeue_cases (.inl hOut)
  | waiting woken =>
    simp only [Ready, hOut] at hReady
    simp only [runOutgoing, hOut, afterWait]
    cases hMember : c.member with
    | none => exact .crashed io _ hMember
    | some q =>
      simp only [(h.member q hMember).1, Bool.true_or, if_true]
      exact h.afterDequeue_cases hMember (by rw [hOut, hReady]; rfl)
  | locking =>
    simp only [Ready, hOut] at hReady
    simp only [runOutgoing, hOut]
    rw [msgQueued_eq io h.client h.cs]
    exact .msgQueued io hOut hReady
  | sending => simpa only [runOutgoing, hOut] using h.sending_cases hOut
  | closing call rest => exact h.outgoing_closing_cases hFault hOut
  | unlocked => simpa only [runOutgoing, hOut] using h.dequeue_cases (.inr hOut)
  | ended => simp [Ready, hOut] at hReady

theorem deliver_cases (h : Down c) (m : Message D) : DownStep c (.deliver m) (c.deliver m) := by
  rw [deliver]
  cases hMember : c.member with
  | none => exact .undelivered m
  | some q =>
    obtain ⟨hDead, l, hHolds⟩ := h.member q hMember
    cases hFull : q.isFull with
    | true =>
      simp only [MsgQueue.add_full hFull]
      exact .undelivered m
    | false =>
      obtain ⟨q', hAdd, hHolds', hDead'⟩ := hHolds.add hFull m
      simp only [hAdd]
      exact .delivered m hMember hHolds hAdd (hDead'.trans hDead) hHolds'

/-- Everything a step can do to a connection that is down is on the list. -/
theorem step_cases (h : Down c) (hFault : c.fault = none) {e : Event D} (hReady : c.Ready e) :
    DownStep c e (c.step e) := by
  cases e with
  | incoming io => exact h.incoming_cases hFault hReady
  | outgoing io => exact h.outgoing_cases hFault hReady
  | deliver m => exact h.deliver_cases m
  | finish => exact .finish hReady

end Down

end Connection
end Utu.Hub
