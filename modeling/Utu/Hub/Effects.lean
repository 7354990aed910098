import Utu.Hub.Phases

/-!
# What a step does outside of its connection

A task takes references to messages and gives them back, puts its connection on
the list of closed ones, and ends with the hub's own close. What it takes and
gives back is what its connection comes to hold and no longer holds.
-/

namespace Utu.Hub
set_option autoImplicit false

variable {D : Type}

/-- The messages in a queue, the first one first. -/
def MsgQueue.contents (q : MsgQueue D) : List (Message D) := q.destroy

namespace Connection
variable {c c' : Connection D} {q : MsgQueue D} {l : List (Message D)} {e : Event D}

/-- The messages that wait for the writing task. -/
def queued (c : Connection D) : List (Message D) :=
  match c.member with
  | none => []
  | some q => q.contents

/-- The references a connection holds to the message `ref`: the slots of its queue, and a packet
that it could not service. -/
def held (c : Connection D) (ref : Nat) : Nat :=
  (c.queued ++ c.recvMsg.toList).countP (·.ref = ref)

/-- The second close has been made. -/
def pushed (c : Connection D) : Bool :=
  (c.cs = .error || c.cs = .final) && c.incoming ≠ .closing .readClose true

/-- The references that effects take and give back. -/
def retains (fx : List (Effect D)) (ref : Nat) : Nat :=
  fx.countP fun
    | .retain m => m.ref = ref
    | _ => false

def releases (fx : List (Effect D)) (ref : Nat) : Nat :=
  fx.countP fun
    | .release m => m.ref = ref
    | _ => false

/-- What a step does to messages: the message it makes has the number `ref`, and its service `works`
or not. -/
inductive Body (ref : Option Nat) (works : Bool) : List (Effect D) → Prop
  | nothing : Body ref works []
  | unregister : Body ref works [.unregisterAll]
  | released (ms : List (Message D)) : Body ref works (ms.map .release)
  | kept (m : Message D) (hRef : ref = some m.ref) : Body ref works [.alloc m, .retain m]
  | serviced (m : Message D) (hRef : ref = some m.ref) (hWorks : works = true) :
      Body ref works [.alloc m, .service m]
  | unserviced (m : Message D) (hRef : ref = some m.ref) (hWorks : works = false) :
      Body ref works [.alloc m, .service m, .retain m]

/-- The number of the message that a step makes, if it makes one. -/
def Event.ref : Event D → Option Nat
  | .incoming io => some io.ref
  | _ => none

def Event.works : Event D → Bool
  | .incoming io => io.service
  | _ => false

/-- What a step reports: `body` about messages, then the second close if it is made, then the hub's
close if the reading task ends. -/
structure Report (c c' : Connection D) (e : Event D) (fx : List (Effect D)) (push close : Bool) :
    Prop where
  effects : c'.effects =
    c.effects ++ (fx ++ (if push then [.push] else []) ++ if close then [.hubClose] else [])
  body : Body e.ref e.works fx
  pushed : c'.pushed = (c.pushed || push)
  once : push = true → c.pushed = false
  ends : close = true ↔ c'.incoming = .finished ∧ c.incoming ≠ .finished
  kept : c.incoming = .finished → c'.incoming = .finished
  finishes : c'.past.finishes = c.past.finishes
  reader : close = true → ∃ io, e = .incoming io
  late : close = true → push = true ∨ c.pushed = true ∨ c.incoming = .closing .readClose false
  fault : (close = true ∨ ∃ m, .service m ∈ fx) → c'.fault = c.fault
  settled : c.incoming = .finished → c'.recvMsg = c.recvMsg
  gives : close = true → ∃ ms : List (Message D), fx = ms.map .release

/-- A connection gives back what it no longer holds, and takes what it comes to hold. -/
def Balanced (c c' : Connection D) (body : List (Effect D)) : Prop :=
  ∀ ref, c'.held ref + releases body ref = c.held ref + retains body ref

theorem queued_eq (hMember : c.member = some q) (hHolds : q.Holds l) : c.queued = l := by
  rw [queued, hMember]
  exact hHolds.destroy

theorem Balanced.of_same (hQueued : c'.queued = c.queued) (hMsg : c'.recvMsg = c.recvMsg)
    {body : List (Effect D)} (hNone : ∀ ref, releases body ref = 0 ∧ retains body ref = 0) :
    Balanced c c' body := by
  intro ref
  rw [held, held, hQueued, hMsg, (hNone ref).1, (hNone ref).2]

/-- The packet at hand is kept. -/
theorem Balanced.keep {m : Message D} (hQueued : c'.queued = c.queued) (hNone : c.recvMsg = none)
    (hSome : c'.recvMsg = some m) {body : List (Effect D)}
    (hBody : ∀ ref, releases body ref = 0 ∧ retains body ref = if m.ref = ref then 1 else 0) :
    Balanced c c' body := by
  intro ref
  rw [held, held, hQueued, hSome, hNone, List.countP_append, List.countP_append, (hBody ref).1,
    (hBody ref).2]
  simp [List.countP_cons]

theorem releases_map (ms : List (Message D)) (ref : Nat) :
    releases (ms.map .release) ref = ms.countP (·.ref = ref) := by
  rw [releases, List.countP_map]
  rfl

theorem retains_map (ms : List (Message D)) (ref : Nat) : retains (ms.map .release) ref = 0 := by
  rw [retains, List.countP_map, List.countP_eq_zero]
  exact fun _ _ => by simp

/-- The queue is given back. -/
theorem Balanced.logout (hQueued : c.queued = l) (hEmpty : c'.queued = []) (hMsg : c'.recvMsg = c.recvMsg) :
    Balanced c c' (l.map .release) := by
  intro ref
  rw [held, held, hQueued, hEmpty, hMsg, releases_map, retains_map, List.countP_append,
    List.countP_append, List.countP_nil]
  omega

namespace Live

theorem queued (h : Live c q l) : c.queued = l := queued_eq h.member h.holds

theorem not_pushed (h : Live c q l) : c.pushed = false := by
  rcases h.cs with hCs | hCs | hCs <;> simp [pushed, hCs]

theorem not_finished (h : Live c q l) : c.incoming ≠ .finished := by
  rcases h.incoming with hIn | hIn | hIn <;> simp [hIn]

/-- A step that leaves the connection open, or half closes it. -/
theorem report (h : Live c q l) {body : List (Effect D)}
    (hOpen : c'.pushed = false ∧ c'.incoming ≠ .finished) (hEffects : c'.effects = c.effects ++ body)
    (hBody : Body e.ref e.works body) (hFinishes : c'.past.finishes = c.past.finishes)
    (hFault : c'.fault = c.fault) : Report c c' e body false false where
  effects := by simpa using hEffects
  body := hBody
  pushed := by rw [hOpen.1, h.not_pushed]; rfl
  once := by simp
  ends := by simp [hOpen.2]
  kept := fun hFinished => absurd hFinished h.not_finished
  finishes := hFinishes
  reader := by simp
  late := by simp
  fault := fun _ => hFault
  settled := fun hFinished => absurd hFinished h.not_finished
  gives := by simp

end Live

theorem Received.report {io : Io D} (h : Received io c c') (hMsg : c.recvMsg = none) :
    ∃ body, c'.effects = c.effects ++ body ∧ Body (some io.ref) io.service body ∧ Balanced c c' body ∧
      c'.past.finishes = c.past.finishes ∧ c'.fault = c.fault := by
  cases h with
  | malformed =>
    refine ⟨[], (List.append_nil _).symm, .nothing, .of_same ?_ hMsg.symm fun _ => ⟨rfl, rfl⟩, rfl, rfl⟩
    rfl
  | misnumbered m vs hViews hRef =>
    refine ⟨_, rfl, .kept m (congrArg some hRef.symm), .keep (m := m) ?_ hMsg ?_ fun ref => ?_, rfl, rfl⟩
    · rfl
    · rfl
    · simp [releases, retains, List.countP_cons]
  | unserviced m vs v hViews hView hRef hMsgid hRight hService =>
    refine ⟨_, rfl, .unserviced m (congrArg some hRef.symm) hService, .keep (m := m) ?_ hMsg ?_ fun ref => ?_, rfl, rfl⟩
    · rfl
    · rfl
    · simp [releases, retains, List.countP_cons]
  | serviced m vs v hViews hView hRef hMsgid hRight hService =>
    refine ⟨_, rfl, .serviced m (congrArg some hRef.symm) hService, .of_same ?_ hMsg.symm fun ref => ?_, rfl, rfl⟩
    · rfl
    · simp [releases, retains]

theorem LiveStep.open (h : Live c q l) (hStep : LiveStep c q l e c') :
    c'.pushed = false ∧ c'.incoming ≠ .finished := by
  have hDown := h.incoming_down
  have hNot := h.not_finished
  rcases h.step hStep with ⟨q', l', hLive⟩ | hClosed
  · exact ⟨hLive.not_pushed, hLive.not_finished⟩
  · cases hStep with
    | hangUp => by_cases hCs : c.cs = .sending <;> simp [pushed, suspend, hCs]
    | tornDown => simp [pushed, suspend]
    | starve => simp [pushed, suspend, hNot]
    | quit io hTake =>
      rw [hTake.fields]
      simp [pushed, suspend, hNot]
    | failed => simp [pushed, suspend, hNot]
    | received io hHold hCs hReceived =>
      have hLive := h.received hHold hReceived
      exact ⟨hLive.not_pushed, hLive.not_finished⟩
    | send io hTake hFirst hCs =>
      have hClient := hClosed.client
      rw [hTake.fields] at hClient
      exact absurd h.client (by simpa using hClient)
    | _ => exact absurd h.client (by simpa [packetIn] using hClosed.client)

/-- Everything a task does outside of a live connection. -/
theorem LiveStep.report (h : Live c q l) (hStep : LiveStep c q l e c') (hTask : ∀ m, e ≠ .deliver m) :
    ∃ body, Report c c' e body false false ∧ Balanced c c' body := by
  have hOpen := hStep.open h
  have quiet : c'.effects = c.effects → c'.past.finishes = c.past.finishes → c'.queued = c.queued →
      c'.recvMsg = c.recvMsg → c'.fault = c.fault →
        ∃ body, Report c c' e body false false ∧ Balanced c c' body := by
    intro hEffects hFinishes hQueued hMsg hFault
    exact ⟨[], h.report hOpen (hEffects.trans (List.append_nil _).symm) .nothing hFinishes hFault,
      .of_same hQueued hMsg fun _ => ⟨rfl, rfl⟩⟩
  have closed : c'.effects = c.effects ++ [.unregisterAll] → c'.past.finishes = c.past.finishes →
      c'.queued = l → c'.recvMsg = c.recvMsg → c'.fault = c.fault →
        ∃ body, Report c c' e body false false ∧ Balanced c c' body := by
    intro hEffects hFinishes hQueued hMsg hFault
    exact ⟨_, h.report hOpen hEffects .unregister hFinishes hFault,
      .of_same (hQueued.trans h.queued.symm) hMsg fun _ => ⟨rfl, rfl⟩⟩
  cases hStep with
  | hangUp io hIn hBody => exact closed rfl rfl (queued_eq rfl h.holds) rfl rfl
  | await io hIn hBody hLock => exact quiet rfl rfl rfl rfl rfl
  | received io hHold hCs hReceived =>
    have hMsg := h.recvMsg (by simp [hCs])
    have hEq := hHold.fields
    obtain ⟨body, hEffects, hBody, hBalance, hFinishes, hFault⟩ :=
      hReceived.report (by rw [hEq]; exact hMsg)
    rw [hEq] at hEffects hFinishes hBalance hFault
    exact ⟨body, h.report hOpen hEffects hBody hFinishes hFault, hBalance⟩
  | tornDown io hHold hCs =>
    rw [hHold.fields] at closed ⊢
    exact closed rfl rfl (queued_eq rfl h.holds) rfl rfl
  | reread io hIn => exact quiet rfl rfl rfl rfl rfl
  | sleep io hOut hEmpty => exact quiet rfl rfl rfl rfl rfl
  | starve io hOut hEmpty => exact closed rfl rfl (queued_eq rfl h.holds) rfl rfl
  | peek io hOut hFirst hLock => exact quiet rfl rfl rfl rfl rfl
  | send io hTake hFirst hCs =>
    rw [hTake.fields] at quiet ⊢
    exact quiet rfl rfl rfl rfl rfl
  | quit io hTake hFirst hCs =>
    rw [hTake.fields] at closed ⊢
    exact closed rfl rfl (queued_eq rfl h.holds) rfl rfl
  | @sent io m l' q' hOut hSent hFirst hAlive hHolds =>
    refine ⟨[.release m], h.report hOpen rfl (.released [m]) rfl rfl, fun ref => ?_⟩
    rw [held, held, h.queued, hFirst, queued_eq rfl hHolds]
    simp [releases, retains, List.countP_cons]
  | failed io hOut hSent v hView => exact closed rfl rfl (queued_eq rfl h.holds) rfl rfl
  | delivered m hAdd hAlive hHolds => exact absurd rfl (hTask m)
  | full m hFull => exact absurd rfl (hTask m)

/-- What the first step does outside of its connection. -/
theorem FirstStep.report (hStep : FirstStep e c') (hTask : ∀ m, e ≠ .deliver m) :
    ∃ push close, Report (opened : Connection D) c' e [] push close ∧
      Balanced (opened : Connection D) c' [] := by
  have hBalanced : ∀ {c' : Connection D}, c'.queued = (opened : Connection D).queued →
      c'.recvMsg = none → Balanced (opened : Connection D) c' [] :=
    fun hQueued hMsg => .of_same hQueued hMsg fun _ => ⟨rfl, rfl⟩
  cases hStep with
  | crashed io vs hViews =>
    refine ⟨false, false, ?_, hBalanced rfl rfl⟩
    constructor <;> first | exact .nothing | simp [opened, pushed]
  | failed io vs hViews =>
    refine ⟨true, true, ?_, hBalanced rfl rfl⟩
    constructor <;> first | exact .nothing | simp [opened, pushed]
  | tuning io vs hViews =>
    refine ⟨false, false, ?_, hBalanced rfl rfl⟩
    constructor <;> first | exact .nothing | simp [opened, pushed]
  | undelivered m => exact absurd rfl (hTask m)

theorem Opening.not_pushed (h : Opening c) : c.pushed = false ∧ c.incoming ≠ .finished := by
  obtain ⟨confirm, hYoung⟩ := h.young
  rw [hYoung.incoming]
  cases h with
  | tuning _ hCs => simp [pushed, hCs]
  | registering _ hCs => simp [pushed, hCs]
  | refused _ hCs => simp [pushed, hCs]

theorem Opening.member_none (h : Opening c) (hCs : c.cs = .tuning) : c.member = none := by
  cases h with
  | tuning _ _ hMember => exact hMember
  | registering _ hCs' => rw [hCs'] at hCs; cases hCs
  | refused _ _ hMember => exact hMember

theorem Opening.holds (h : Opening c) (hMember : c.member = some q) : ∃ l, q.Holds l := by
  cases h with
  | tuning _ _ hNone => rw [hNone] at hMember; cases hMember
  | refused _ _ hNone => rw [hNone] at hMember; cases hMember
  | registering _ _ hSome _ hHolds =>
    rw [hSome] at hMember
    cases hMember
    exact ⟨_, hHolds⟩

/-- A step of the handshake that goes on. -/
theorem Opening.report (h : Opening c) {body : List (Effect D)}
    (hEffects : c'.effects = c.effects ++ body) (hBody : Body e.ref e.works body)
    (hOpen : c'.pushed = false ∧ c'.incoming ≠ .finished) (hFinishes : c'.past.finishes = c.past.finishes)
    (hFault : c'.fault = c.fault) : Report c c' e body false false where
  effects := by simpa using hEffects
  body := hBody
  pushed := by rw [hOpen.1, h.not_pushed.1]; rfl
  once := by simp
  ends := by simp [hOpen.2]
  kept := fun hFinished => absurd hFinished h.not_pushed.2
  finishes := hFinishes
  reader := by simp
  late := by simp
  fault := fun _ => hFault
  settled := fun hFinished => absurd hFinished h.not_pushed.2
  gives := by simp

/-- What a step of the handshake does outside of its connection. -/
theorem OpeningStep.report (h : Opening c) (hStep : OpeningStep c e c') (hTask : ∀ m, e ≠ .deliver m) :
    ∃ body push close, Report c c' e body push close ∧ Balanced c c' body := by
  obtain ⟨hPushed, hIn⟩ := h.not_pushed
  cases hStep with
  | confirmed io hCs vs hViews =>
    refine ⟨[], false, false, h.report (List.append_nil _).symm .nothing ⟨rfl, by simp⟩ rfl rfl,
      .of_same ?_ ?_ fun _ => ⟨rfl, rfl⟩⟩
    · rw [queued_eq rfl (MsgQueue.holds_create (by decide)), queued, h.member_none hCs]
    · rfl
  | refused io hCs vs hViews =>
    refine ⟨[], false, false, h.report (List.append_nil _).symm .nothing ⟨rfl, by simp⟩ rfl rfl,
      .of_same ?_ ?_ fun _ => ⟨rfl, rfl⟩⟩
    · simp only [queued, h.member_none hCs]
    · rfl
  | failed io hMember established vs hViews =>
    refine ⟨[], true, true, ?_, .of_same ?_ ?_ fun _ => ⟨rfl, rfl⟩⟩
    · exact {
        effects := rfl
        body := .nothing
        pushed := (Bool.or_true _).symm
        once := fun _ => hPushed
        ends := by simp [hIn]
        kept := fun _ => rfl
        finishes := rfl
        reader := fun _ => ⟨io, rfl⟩
        late := fun _ => .inl rfl
        fault := fun _ => rfl
        settled := fun _ => rfl
        gives := fun _ => ⟨[], rfl⟩ }
    · rfl
    · rfl
  | unregistered io hMember vs hViews =>
    obtain ⟨l, hHolds⟩ := h.holds hMember
    refine ⟨[.unregisterAll], false, false, h.report rfl .unregister ⟨rfl, by simp⟩ rfl rfl,
      .of_same ?_ ?_ fun _ => ⟨rfl, rfl⟩⟩
    · rw [queued_eq hMember hHolds]
      exact queued_eq rfl hHolds
    · rfl
  | established io hCs vs hViews v hView =>
    refine ⟨[], false, false, h.report (List.append_nil _).symm .nothing ⟨rfl, by simp⟩ rfl rfl,
      .of_same ?_ ?_ fun _ => ⟨rfl, rfl⟩⟩
    · rfl
    · rfl
  | delivered m => exact absurd rfl (hTask m)
  | undelivered m => exact absurd rfl (hTask m)

/-! ## Connections that are down -/

theorem retire_effects (c : Connection D) (e : HubEvent) :
    (c.retire e).effects = c.effects ++ if c.cs = .closing then [.push] else [] := by
  rcases retire_cases c e with ⟨hCs, hEq⟩ | ⟨hClosing, cs, -, hEq⟩ <;> rw [hEq]
  · rw [if_neg hCs, List.append_nil]
  · rw [if_pos hClosing]
    rfl

section Fields
variable (c : Connection D) (event : HubEvent) (side : Side)

@[simp] theorem retire_member : (c.retire event).member = c.member := by rw [retire_fields]

@[simp] theorem retire_recvMsg : (c.retire event).recvMsg = c.recvMsg := by rw [retire_fields]

@[simp] theorem retire_fault : (c.retire event).fault = c.fault := by rw [retire_fields]

@[simp] theorem retire_incoming : (c.retire event).incoming = c.incoming := by rw [retire_fields]

@[simp] theorem retire_finishes : (c.retire event).past.finishes = c.past.finishes := by
  rw [retire_fields]

@[simp] theorem unlock_cs : (c.unlock side).cs = c.cs := by rw [unlock_fields]

@[simp] theorem unlock_effects : (c.unlock side).effects = c.effects := by rw [unlock_fields]

@[simp] theorem unlock_member : (c.unlock side).member = c.member := by rw [unlock_fields]

@[simp] theorem unlock_recvMsg : (c.unlock side).recvMsg = c.recvMsg := by rw [unlock_fields]

@[simp] theorem unlock_incoming : (c.unlock side).incoming = c.incoming := by rw [unlock_fields]

@[simp] theorem unlock_past : (c.unlock side).past = c.past := by rw [unlock_fields]

end Fields

/-- What a step leaves for the close of a connection that is down: only the pc of a task moves, and
the lock. -/
structure Rests (c c' : Connection D) (close : Bool) : Prop where
  cs : c'.cs = c.cs
  effects : c'.effects = c.effects ++ if close then [.hubClose] else []
  member : c'.member = c.member
  recvMsg : c'.recvMsg = c.recvMsg
  finishes : c'.past.finishes = c.past.finishes
  fault : close = true → c'.fault = c.fault

theorem Rests.balanced {c₁ : Connection D} {fx : List (Effect D)} {close : Bool}
    (h : Rests c₁ c' close) (hBalanced : Balanced c c₁ fx) : Balanced c c' fx := by
  intro ref
  have hHeld : c'.held ref = c₁.held ref := by rw [held, held, queued, queued, h.member, h.recvMsg]
  rw [hHeld]
  exact hBalanced ref

theorem Rests.handled (c : Connection D) : Rests c c.handled true := ⟨rfl, rfl, rfl, rfl, rfl, fun _ => rfl⟩

theorem Rests.open (hCs : c'.cs = c.cs) (hEffects : c'.effects = c.effects)
    (hMember : c'.member = c.member) (hMsg : c'.recvMsg = c.recvMsg) (hPast : c'.past.finishes = c.past.finishes) :
    Rests c c' false :=
  ⟨hCs, hEffects.trans (List.append_nil _).symm, hMember, hMsg, hPast, by simp⟩

/-- How a step goes on: it keeps the close that the reading task runs, and ends that task or not. -/
structure GoesOn (c c' : Connection D) (e : Event D) (close : Bool) : Prop where
  rest : c'.incoming = .closing .readClose true ↔ c.incoming = .closing .readClose true
  ends : close = true ↔ c'.incoming = .finished ∧ c.incoming ≠ .finished
  kept : c.incoming = .finished → c'.incoming = .finished
  reader : close = true → ∃ io, e = .incoming io

theorem GoesOn.handled {io : Io D}
    (hIn : c.incoming ≠ .closing .readClose true ∧ c.incoming ≠ .finished) (c₁ : Connection D) :
    GoesOn c c₁.handled (.incoming io) true :=
  ⟨by simp [Connection.handled, hIn], by simp [Connection.handled, hIn],
    fun hFinished => absurd hFinished hIn.2, fun _ => ⟨io, rfl⟩⟩

theorem GoesOn.moved (hIn : c.incoming ≠ .closing .readClose true ∧ c.incoming ≠ .finished)
    (hIn' : c'.incoming ≠ .closing .readClose true ∧ c'.incoming ≠ .finished) : GoesOn c c' e false :=
  ⟨by simp [hIn, hIn'], by simp [hIn'], fun hFinished => absurd hFinished hIn.2, by simp⟩

theorem GoesOn.same (hIn : c'.incoming = c.incoming) : GoesOn c c' e false :=
  ⟨by rw [hIn], by simp [hIn], fun hFinished => hIn.trans hFinished, by simp⟩

/-- The messages of a connection that is down, as a step leaves them before it makes a close. -/
structure Emptied (c c₁ : Connection D) (fx : List (Effect D)) : Prop where
  cs : c₁.cs = c.cs
  effects : c₁.effects = c.effects ++ fx
  released : ∃ ms : List (Message D), fx = ms.map .release
  balanced : Balanced c c₁ fx
  recvMsg : c₁.recvMsg = c.recvMsg
  finishes : c₁.past.finishes = c.past.finishes
  fault : c₁.fault = c.fault

theorem Emptied.of_same {c₁ : Connection D} (hCs : c₁.cs = c.cs) (hEffects : c₁.effects = c.effects)
    (hQueued : c₁.queued = c.queued) (hMsg : c₁.recvMsg = c.recvMsg)
    (hFinishes : c₁.past.finishes = c.past.finishes) (hFault : c₁.fault = c.fault) : Emptied c c₁ [] :=
  ⟨hCs, hEffects.trans (List.append_nil _).symm, ⟨[], rfl⟩,
    .of_same hQueued hMsg fun _ => ⟨rfl, rfl⟩, hMsg, hFinishes, hFault⟩

theorem Emptied.logout (hMember : c.member = some q) :
    Emptied c (c.logout q) (q.destroy.map .release) := by
  refine ⟨rfl, rfl, ⟨_, rfl⟩, .logout ?_ rfl rfl, rfl, rfl, rfl⟩
  rw [queued, hMember]
  rfl

theorem Emptied.body {c₁ : Connection D} {fx : List (Effect D)} (h : Emptied c c₁ fx) :
    Body e.ref e.works fx := by
  obtain ⟨ms, rfl⟩ := h.released
  exact .released ms

theorem Emptied.quiet {c₁ : Connection D} {fx : List (Effect D)} (h : Emptied c c₁ fx) (m : Message D) :
    .service m ∉ fx := by
  obtain ⟨ms, rfl⟩ := h.released
  simp

namespace Down
variable {c₁ : Connection D} {event : HubEvent} {fx : List (Effect D)} {close : Bool}

/-- A step that leaves the state of the machine as it is makes no second close. -/
theorem quiet_report (hEmptied : Emptied c c₁ fx) (hRests : Rests c₁ c' close)
    (hOn : GoesOn c c' e close)
    (hLate : close = true → c.incoming = .closing .readClose false) : Report c c' e fx false close where
  effects := by simp [hRests.effects, hEmptied.effects]
  body := hEmptied.body
  pushed := by simp [pushed, hRests.cs, hEmptied.cs, hOn.rest]
  once := by simp
  ends := hOn.ends
  kept := hOn.kept
  finishes := hRests.finishes.trans hEmptied.finishes
  reader := hOn.reader
  late := fun hClose => .inr (.inr (hLate hClose))
  fault := by
    rintro (hClose | ⟨m, hMem⟩)
    · exact (hRests.fault hClose).trans hEmptied.fault
    · exact absurd hMem (hEmptied.quiet m)
  settled := fun _ => hRests.recvMsg.trans hEmptied.recvMsg
  gives := fun _ => hEmptied.released

/-- The second close has been made once the machine is in one of its last states. -/
theorem pushed_of_done (hDone : c.cs ≠ .closing) (h : Down c) (hIn : c.incoming ≠ .closing .readClose true) :
    c.pushed = true := by
  rcases h.cs with hCs | hCs | hCs
  · exact absurd hCs hDone
  · simp [pushed, hCs, hIn]
  · simp [pushed, hCs, hIn]

/-- An event that the task has for a connection that is down makes the second close, unless it has
been made. -/
theorem retire_report (h : Down c) (hEmptied : Emptied c c₁ fx)
    (hRests : Rests (c₁.retire event) c' close) (hOn : GoesOn c c' e close) :
    Report c c' e fx (c.cs = .closing) close where
  effects := by
    rw [hRests.effects, retire_effects, hEmptied.effects, hEmptied.cs]
    simp
  body := hEmptied.body
  pushed := by
    by_cases hClosing : c.cs = .closing
    · have hNot : c.incoming ≠ .closing .readClose true := by
        intro hIn
        rw [h.rest hIn] at hClosing
        cases hClosing
      have hDone : c'.cs = .error ∨ c'.cs = .final := by
        rcases retire_cases c₁ event with ⟨hOther, -⟩ | ⟨-, cs, hOver, hEq⟩
        · exact absurd (hEmptied.cs.trans hClosing) hOther
        · rw [hRests.cs, hEq]
          exact hOver
      rcases hDone with hDone | hDone <;> simp [pushed, hDone, hOn.rest, hNot, hClosing]
    · have hCs : c'.cs = c.cs := by
        rw [hRests.cs, retire, if_neg (hEmptied.cs ▸ hClosing), hEmptied.cs]
      simp [pushed, hCs, hOn.rest, hClosing]
  once := by
    intro hPush
    simp [pushed, of_decide_eq_true hPush]
  ends := hOn.ends
  kept := hOn.kept
  finishes := by rw [hRests.finishes, retire_finishes, hEmptied.finishes]
  reader := hOn.reader
  late := by
    intro hClose
    by_cases hClosing : c.cs = .closing
    · exact .inl (decide_eq_true hClosing)
    · refine .inr (.inl (h.pushed_of_done hClosing fun hIn => ?_))
      have hFinished := (hOn.ends.mp hClose).1
      rw [hOn.rest.mpr hIn] at hFinished
      cases hFinished
  fault := by
    rintro (hClose | ⟨m, hMem⟩)
    · rw [hRests.fault hClose, retire_fault, hEmptied.fault]
    · exact absurd hMem (hEmptied.quiet m)
  settled := fun _ => by rw [hRests.recvMsg, retire_recvMsg, hEmptied.recvMsg]
  gives := fun _ => hEmptied.released

theorem quiet (hEmptied : Emptied c c₁ fx) (hRests : Rests c₁ c' false) (hOn : GoesOn c c' e false) :
    ∃ body push close, Report c c' e body push close ∧ Balanced c c' body :=
  ⟨fx, false, false, quiet_report hEmptied hRests hOn (by simp), hRests.balanced hEmptied.balanced⟩

theorem retired (h : Down c) (event : HubEvent) (hEmptied : Emptied c c₁ fx)
    (hRests : Rests (c₁.retire event) c' close) (hOn : GoesOn c c' e close) :
    ∃ body push close, Report c c' e body push close ∧ Balanced c c' body := by
  refine ⟨fx, _, close, h.retire_report hEmptied hRests hOn, hRests.balanced fun ref => ?_⟩
  have hHeld : (c₁.retire event).held ref = c₁.held ref := by simp [held, queued]
  rw [hHeld]
  exact hEmptied.balanced ref

/-- The reading task makes a second close of its own. -/
theorem refuse_report (h : Down c) (q : MsgQueue D) (hIn : c.incoming = .closing .readClose true)
    (io : Io D) :
    Report c ((c.logout q).emit .push).handled (.incoming io) (q.destroy.map .release) true true where
  effects := by simp [handled, emit, logout, seen]
  body := .released _
  pushed := by simp [pushed, handled, emit, logout, seen, h.rest hIn]
  once := fun _ => by simp [pushed, hIn]
  ends := by simp [handled, hIn]
  kept := by simp [hIn]
  finishes := rfl
  reader := fun _ => ⟨io, rfl⟩
  late := fun _ => .inl rfl
  fault := fun _ => rfl
  settled := fun _ => rfl
  gives := fun _ => ⟨_, rfl⟩

end Down

/-- Everything a task does outside of a connection that is down. -/
theorem DownStep.report (h : Down c) (hStep : DownStep c e c') (hTask : ∀ m, e ≠ .deliver m)
    (hNot : e ≠ .finish) :
    ∃ body push close, Report c c' e body push close ∧ Balanced c c' body := by
  have hRefl : Emptied c c [] := by apply Emptied.of_same <;> rfl
  cases hStep with
  | unread io hIn => exact h.retired .readClose hRefl (.handled _) (.handled (by simp [hIn]) _)
  | hangUp io hIn hBody =>
    have hEmptied : Emptied c { c with recvHdr := io.packet.hdr, recvBody := none } [] := by
      apply Emptied.of_same <;> rfl
    exact h.retired .readClose hEmptied (.handled _) (.handled (by simp [hIn]) _)
  | await io hIn hBody hLock =>
    exact Down.quiet hRefl (.open rfl rfl rfl rfl rfl) (.moved (by simp [hIn]) (by simp))
  | @msgRecv io c₁ hHold =>
    have hEmptied : Emptied c c₁ [] := by
      rw [hHold.fields]
      apply Emptied.of_same <;> rfl
    refine h.retired .msgRecv hEmptied (Rests.open ?_ ?_ ?_ ?_ ?_) (.moved ?_ ?_)
    case refine_6 =>
      cases hHold with
      | handed hIn => simp [hIn]
      | free hIn => simp [hIn]
    all_goals simp [readUnlock]
  | unestablished io hIn hMember =>
    exact h.retired .readClose (.logout hMember) (.handled _) (.handled (by simp [hIn]) _)
  | @tornDown io q hIn hMember =>
    have hOn : ∀ {c₁ : Connection D}, GoesOn c c₁.readUnlock (.incoming io) false :=
      .moved (by simp [hIn]) (by simp [readUnlock])
    cases hMsg : c.recvMsg.isSome with
    | true =>
      refine h.retired .svcRecv (.logout hMember) (Rests.open ?_ ?_ ?_ ?_ ?_) hOn
      all_goals simp [readUnlock]
    | false =>
      refine Down.quiet (.logout hMember) (Rests.open ?_ ?_ ?_ ?_ ?_) hOn
      all_goals simp [readUnlock]
  | readClosed io hIn hMember =>
    have hEmptied := Emptied.logout hMember
    exact ⟨_, false, true, Down.quiet_report hEmptied (.handled _) (.handled (by simp [hIn]) _) fun _ => hIn,
      hEmptied.balanced⟩
  | refused io hIn hMember =>
    exact ⟨_, true, true, h.refuse_report _ hIn io, (Emptied.logout hMember).balanced⟩
  | ended io hOut hDone => exact Down.quiet hRefl (.open rfl rfl rfl rfl rfl) (.same rfl)
  | crashed io f hMember => exact Down.quiet hRefl (.open rfl rfl rfl rfl rfl) (.same rfl)
  | writeClose io hOut hMember =>
    have hEmptied : Emptied c { c with sendMsg := none } [] := by
      apply Emptied.of_same <;> rfl
    refine h.retired .writeClose hEmptied (Rests.open ?_ ?_ ?_ ?_ ?_) (.same (by simp))
    all_goals simp
  | msgQueued io hOut hLock =>
    refine h.retired .msgQueued hRefl (Rests.open ?_ ?_ ?_ ?_ ?_) (.same (by simp [writeUnlock]))
    all_goals simp [writeUnlock]
  | sent io hOut =>
    refine Down.quiet hRefl (Rests.open ?_ ?_ ?_ ?_ ?_) (.same (by simp [writeUnlock]))
    all_goals simp [writeUnlock]
  | sendClosed io hOut hMember hCs v =>
    exact Down.quiet (.logout hMember) (.open rfl rfl rfl rfl rfl) (.same rfl)
  | sendDone io hOut hMember hDone =>
    refine Down.quiet (.logout hMember) (Rests.open ?_ ?_ ?_ ?_ ?_)
      (.same (by simp [writeUnlock, logout, seen]))
    all_goals simp [writeUnlock]
  | writeClosed io hOut hMember =>
    exact Down.quiet (.logout hMember) (.open rfl rfl rfl rfl rfl) (.same rfl)
  | delivered m => exact absurd rfl (hTask m)
  | undelivered m => exact absurd rfl (hTask m)
  | finish => exact absurd rfl hNot

/-! ## All connections -/

/-- Everything a task does outside of its connection. -/
theorem Phase.report (h : Phase c) (hFault : c.fault = none) (hReady : c.Ready e)
    (hTask : ∀ m, e ≠ .deliver m) (hNot : e ≠ .finish) :
    ∃ body push close, Report c (c.step e) e body push close ∧ Balanced c (c.step e) body := by
  cases h with
  | opened h =>
    subst h
    obtain ⟨push, close, hReport⟩ := (opened_cases hReady).report hTask
    exact ⟨[], push, close, hReport⟩
  | opening h => exact (h.step_cases hReady).report h hTask
  | live h =>
    obtain ⟨body, hReport⟩ := (h.step_cases hReady).report h hTask
    exact ⟨body, false, false, hReport⟩
  | down h => exact (h.step_cases hFault hReady).report h hTask hNot
  | crashed h => simp [hFault] at h

theorem Phase.holds (h : Phase c) (hMember : c.member = some q) : ∃ l, q.Holds l := by
  cases h with
  | opened h =>
    subst h
    cases hMember
  | opening h => exact h.holds hMember
  | live h =>
    rw [h.member] at hMember
    cases hMember
    exact ⟨_, h.holds⟩
  | down h => exact (h.member q hMember).2
  | crashed h hCs hNone =>
    rw [hNone] at hMember
    cases hMember

section Deliver
variable (c) (m : Message D)

theorem deliver_fields :
    c.deliver m = { c with member := (c.deliver m).member, outgoing := (c.deliver m).outgoing
                           past := { c.past with added := (c.deliver m).past.added } } := by
  unfold deliver
  split
  · rfl
  · split <;> rfl

@[simp] theorem deliver_fault : (c.deliver m).fault = c.fault := by rw [deliver_fields]

@[simp] theorem deliver_incoming : (c.deliver m).incoming = c.incoming := by rw [deliver_fields]

@[simp] theorem deliver_recvMsg : (c.deliver m).recvMsg = c.recvMsg := by rw [deliver_fields]

@[simp] theorem deliver_finishes : (c.deliver m).past.finishes = c.past.finishes := by
  rw [deliver_fields]

@[simp] theorem deliver_pushed : (c.deliver m).pushed = c.pushed := by
  rw [deliver_fields]
  rfl

end Deliver

/-- A message that is queued is held once more. -/
theorem Phase.held_deliver (h : Phase c) (hMember : c.member = some q) (hFull : q.isFull = false)
    (m : Message D) (ref : Nat) :
    (c.deliver m).held ref = c.held ref + if m.ref = ref then 1 else 0 := by
  obtain ⟨l, hHolds⟩ := h.holds hMember
  obtain ⟨q', hAdd, hHolds', -⟩ := hHolds.add hFull m
  have hDeliver : (c.deliver m).queued = l ++ [m] := by
    apply queued_eq _ hHolds'
    simp only [deliver, hMember, hAdd]
  rw [held, held, hDeliver, queued_eq hMember hHolds, deliver_recvMsg]
  simp only [List.countP_append, List.countP_cons, List.countP_nil, decide_eq_true_eq]
  omega

end Connection
end Utu.Hub
