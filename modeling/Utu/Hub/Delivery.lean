import Utu.Hub.Tracking

/-!
# Delivery to the members of a route

`Route_deliver` goes through the members in the order of their heap and stops
at the first one that does not take the message. The members behind it get
nothing, whatever room they have.
-/

namespace Utu.Hub
open Connection
set_option autoImplicit false
set_option linter.dupNamespace false

variable {D : Type}

namespace Hub
variable {h h' : Hub D} {a : Nat} {m : Message D} {d : Delivery} {ds taken rest : List Delivery}

/-- The queue of the member at `a` -/
def queueAt (h : Hub D) (a : Nat) : Option (MsgQueue D) := h.conns[a]?.bind Connection.member

/-- The messages in the queue at `a` -/
def queueOf (h : Hub D) (a : Nat) : List (Message D) := ((h.queueAt a).map MsgQueue.contents).getD []

/-- The free slots of the queue at `a` -/
def roomAt (h : Hub D) (a : Nat) : Nat :=
  ((h.queueAt a).map fun q => q.ring.dim - 1 - q.contents.length).getD 0

/-- How often the member at `a` stands in the route -/
def registrations (ds : List Delivery) (a : Nat) : Nat := (ds.map Delivery.member).count a

theorem registrations_append (taken rest : List Delivery) (a : Nat) :
    registrations (taken ++ rest) a = registrations taken a + registrations rest a := by
  rw [registrations, List.map_append, List.count_append]
  rfl

theorem registrations_pos (hd : d ∈ ds) : 0 < registrations ds d.member :=
  List.count_pos_iff.mpr (List.mem_map_of_mem hd)

/-! ## Queues -/

theorem queueAt_eq {c : Connection D} {q : MsgQueue D} (hc : h.conns[a]? = some c) (hMember : c.member = some q) :
    h.queueAt a = some q := by
  rw [queueAt, hc]
  exact hMember

theorem WellFormed.holds (hFormed : h.WellFormed) {q : MsgQueue D} (hq : h.queueAt a = some q) :
    ∃ l, q.Holds l ∧ q.contents = l := by
  obtain ⟨c, hc, hMember⟩ := Option.bind_eq_some_iff.mp hq
  obtain ⟨l, hHolds⟩ := hFormed hc hMember
  exact ⟨l, hHolds, hHolds.destroy⟩

theorem WellFormed.roomAt_eq_zero (hFormed : h.WellFormed) {q : MsgQueue D} (hq : h.queueAt a = some q) :
    h.roomAt a = 0 ↔ q.isFull = true := by
  obtain ⟨l, hHolds, hContents⟩ := hFormed.holds hq
  have hFull : q.isFull = true ↔ l.length + 1 = q.ring.dim := Ring.Buffer.Holds.isFull_iff hHolds
  have hFits : l.length < q.ring.dim := hHolds.fits
  rw [roomAt, hq, hFull, Option.map_some, Option.getD_some, hContents]
  omega

/-- The members of `taken`, one after the other, have taken the message. -/
structure Taken (h : Hub D) (m : Message D) (taken : List Delivery) (h' : Hub D) : Prop where
  formed : h'.WellFormed
  errno : ∀ d ∈ taken, d.errno = 0
  queues : ∀ a, h'.queueOf a = h.queueOf a ++ List.replicate (registrations taken a) m
  room : ∀ a, h'.roomAt a + registrations taken a = h.roomAt a
  others : ∀ a, registrations taken a = 0 → h'.queueAt a = h.queueAt a

theorem Taken.nil (hFormed : h.WellFormed) (m : Message D) : Taken h m [] h where
  formed := hFormed
  errno := by
    intro d hd
    cases hd
  queues := fun a => (List.append_nil _).symm
  room := fun a => rfl
  others := fun a _ => rfl

theorem Taken.cons {t : Hub D} (h₁ : Taken h m [d] t) (h₂ : Taken t m taken h') : Taken h m (d :: taken) h' := by
  have hCount : ∀ a, registrations (d :: taken) a = registrations [d] a + registrations taken a :=
    fun a => registrations_append [d] taken a
  constructor
  · exact h₂.formed
  · exact List.forall_mem_cons.mpr ⟨h₁.errno d List.mem_cons_self, h₂.errno⟩
  · intro a
    rw [h₂.queues, h₁.queues, List.append_assoc, ← List.replicate_add, hCount]
  · intro a
    have hRoom₁ := h₁.room a
    have hRoom₂ := h₂.room a
    rw [hCount]
    omega
  · intro a hZero
    rw [hCount] at hZero
    rw [h₂.others a (by omega), h₁.others a (by omega)]

/-- One member takes the message. -/
theorem WellFormed.sendMsg_taken (hFormed : h.WellFormed) (hTakes : h.Takes d) (m : Message D) :
    ∃ t, h.sendMsg d.member m d.errno = (t, true) ∧ Taken h m [d] t := by
  obtain ⟨c, q, hc, hMember, hFull, hEq⟩ := Hub.sendMsg_taken hTakes m
  obtain ⟨-, hFormed', -⟩ := inQueue_taken hFormed hTakes m 0
  obtain ⟨l, hHolds⟩ := hFormed hc hMember
  obtain ⟨q', hAdd, hHolds', -⟩ := hHolds.add hFull m
  have hDim : q'.ring.dim = q.ring.dim := by
    have hQ : q.add m = (true, { q with ring := q.ring.push m }) := by
      rw [MsgQueue.add, hFull]
      rfl
    rw [hQ] at hAdd
    cases hAdd
    exact Ring.Buffer.dim_push m
  have hLt := (List.getElem?_eq_some_iff.mp hc).1
  have hNew : (c.deliver m).member = some q' := by
    rw [deliver, hMember]
    simp only [hAdd]
  rw [hEq] at hFormed' ⊢
  have hSelf : Hub.queueAt (retain { h with conns := h.conns.set d.member (c.deliver m) } m) d.member = some q' :=
    queueAt_eq (List.getElem?_set_self hLt) hNew
  have hOld : h.queueAt d.member = some q := queueAt_eq hc hMember
  have hOther : ∀ a, a ≠ d.member →
      Hub.queueAt (retain { h with conns := h.conns.set d.member (c.deliver m) } m) a = h.queueAt a := by
    intro a hNe
    exact congrArg (Option.bind · Connection.member) (List.getElem?_set_ne (Ne.symm hNe))
  have hOne : registrations [d] d.member = 1 := List.count_singleton_self
  have hNone : ∀ a, a ≠ d.member → registrations [d] a = 0 := by
    intro a hNe
    exact List.count_eq_zero_of_not_mem fun hMem => hNe (List.mem_singleton.mp hMem)
  refine ⟨_, rfl, hFormed', ?_, ?_, ?_, ?_⟩
  · intro e he
    rw [List.mem_singleton.mp he]
    exact hTakes.1
  · intro a
    by_cases hSame : a = d.member
    · subst hSame
      rw [queueOf, queueOf, hSelf, hOld, hOne]
      exact hHolds'.destroy.trans (congrArg (· ++ [m]) hHolds.destroy.symm)
    · rw [queueOf, queueOf, hOther a hSame, hNone a hSame, List.replicate_zero, List.append_nil]
  · intro a
    by_cases hSame : a = d.member
    · subst hSame
      have hRoom : l.length + 1 < q.ring.dim := by
        have hFits : (l ++ [m]).length < q'.ring.dim := hHolds'.fits
        rwa [hDim, List.length_append] at hFits
      have hBefore : q.contents = l := hHolds.destroy
      have hAfter : q'.contents = l ++ [m] := hHolds'.destroy
      rw [roomAt, roomAt, hSelf, hOld, hOne, Option.map_some, Option.map_some, Option.getD_some, Option.getD_some,
        hBefore, hAfter, hDim, List.length_append, List.length_singleton]
      omega
    · rw [roomAt, roomAt, hOther a hSame, hNone a hSame, Nat.add_zero]
  · intro a hZero
    apply hOther
    rintro rfl
    rw [hOne] at hZero
    cases hZero

/-- A delivery to a member is taken if `errno` is clear and there is room. -/
theorem WellFormed.takes_iff (hFormed : h.WellFormed) {q : MsgQueue D} (hq : h.queueAt d.member = some q) :
    h.Takes d ↔ d.errno = 0 ∧ h.roomAt d.member ≠ 0 := by
  rw [Ne, hFormed.roomAt_eq_zero hq, Bool.not_eq_true, Takes]
  obtain ⟨c, hc, hMember⟩ := Option.bind_eq_some_iff.mp hq
  refine and_congr_right fun _ => ⟨?_, fun hFull => ⟨c, hc, q, hMember, hFull⟩⟩
  rintro ⟨c', hc', q', hq', hFull⟩
  rw [Option.mem_def, hc] at hc'
  cases hc'
  rw [Option.mem_def, hMember] at hq'
  cases hq'
  exact hFull

/-! ## The loop -/

/-- The members up to the first that does not take the message get it, and no other. -/
theorem WellFormed.routeDeliver_taken (hFormed : h.WellFormed) (hLive : ∀ d ∈ ds, (h.queueAt d.member).isSome)
    (m : Message D) :
    ∃ taken rest t, ds = taken ++ rest ∧ Taken h m taken t ∧ (routeDeliver m ds h).conns = t.conns ∧
      ∀ d ∈ rest.head?, d.errno ≠ 0 ∨ t.roomAt d.member = 0 := by
  induction ds generalizing h with
  | nil =>
    refine ⟨[], [], h, rfl, .nil hFormed m, rfl, ?_⟩
    intro d hd
    cases hd
  | cons d ds ih =>
    obtain ⟨hd, hRest⟩ := List.forall_mem_cons.mp hLive
    obtain ⟨q, hq⟩ := Option.isSome_iff_exists.mp hd
    rw [routeDeliver]
    by_cases hTakes : h.Takes d
    · obtain ⟨t, hSend, hTaken⟩ := hFormed.sendMsg_taken hTakes m
      rw [hSend]
      have hLive' : ∀ e ∈ ds, (t.queueAt e.member).isSome := by
        intro e he
        by_cases hSame : e.member = d.member
        · rw [hSame]
          by_contra hNone
          have hZero : t.roomAt d.member = 0 ∧ t.queueOf d.member = [] := by
            rw [roomAt, queueOf, Option.not_isSome_iff_eq_none.mp hNone]
            exact ⟨rfl, rfl⟩
          have hQueue := hTaken.queues d.member
          rw [hZero.2, eq_comm, List.append_eq_nil_iff] at hQueue
          exact absurd hQueue.2 (by simp [registrations])
        · rw [hTaken.others e.member (by simp [registrations, Ne.symm hSame])]
          exact hRest e he
      obtain ⟨taken, rest, u, hSplit, hTaken', hConns, hStop⟩ := ih hTaken.formed hLive'
      exact ⟨d :: taken, rest, u, congrArg (d :: ·) hSplit, hTaken.cons hTaken', hConns, hStop⟩
    · obtain ⟨fault, hEq⟩ := sendMsg_refused hTakes m
      rw [hEq]
      refine ⟨[], d :: ds, h, rfl, .nil hFormed m, rfl, ?_⟩
      intro e he
      cases he
      rwa [hFormed.takes_iff hq, not_and_or, not_not] at hTakes

/-! ## Independence -/

/-- Every member whose queue has room gets the message once for each of its registrations, and a full
queue stays as it is. -/
def Independent (h : Hub D) (m : Message D) (ds : List Delivery) : Prop :=
  ∀ d ∈ ds, ∀ q, h.queueAt d.member = some q →
    (q.isFull = false → (routeDeliver m ds h).queueOf d.member =
      h.queueOf d.member ++ List.replicate (registrations ds d.member) m) ∧
    (q.isFull = true → (routeDeliver m ds h).queueAt d.member = some q)

/-- The members with a full queue come last, and each of the others has room for all its registrations
and finds `errno` clear. -/
def FullLast (h : Hub D) (ds : List Delivery) : Prop :=
  ∃ taken refused, ds = taken ++ refused ∧
    (∀ d ∈ taken, d.errno = 0 ∧ registrations ds d.member ≤ h.roomAt d.member) ∧
    ∀ d ∈ refused, h.roomAt d.member = 0

theorem Taken.roomAt_pos {t : Hub D} (hTaken : Taken h m taken t) (hd : d ∈ taken) : h.roomAt d.member ≠ 0 := by
  have hRoom := hTaken.room d.member
  have hPos := registrations_pos hd
  omega

/-- If the route is in order, the members in front are those that take the message. -/
theorem Taken.eq_of_fullLast {t : Hub D} {taken' refused : List Delivery} (hTaken : Taken h m taken t)
    (hStop : ∀ d ∈ rest.head?, d.errno ≠ 0 ∨ t.roomAt d.member = 0) (hSplit : taken ++ rest = taken' ++ refused)
    (hFront : ∀ d ∈ taken', d.errno = 0 ∧ registrations (taken' ++ refused) d.member ≤ h.roomAt d.member)
    (hFull : ∀ d ∈ refused, h.roomAt d.member = 0) : taken = taken' ∧ rest = refused := by
  rcases List.append_eq_append_iff.mp hSplit with ⟨more, rfl, rfl⟩ | ⟨more, rfl, rfl⟩
  · cases more with
    | nil => exact ⟨(List.append_nil taken).symm, rfl⟩
    | cons d more =>
      -- `d` would take the message: its room is not used up yet
      obtain ⟨hErrno, hRoom⟩ := hFront d (by simp)
      rcases hStop d (by simp) with hSet | hZero
      · exact absurd hErrno hSet
      · have hUsed := hTaken.room d.member
        have hPos := registrations_pos (List.mem_cons_self (a := d) (l := more))
        rw [registrations_append, registrations_append] at hRoom
        omega
  · cases more with
    | nil => exact ⟨List.append_nil taken', rfl⟩
    | cons d more =>
      have hMem : d ∈ taken' ++ d :: more := by simp
      exact absurd (hFull d (by simp)) (hTaken.roomAt_pos hMem)

theorem queueAt_congr (hConns : h'.conns = h.conns) (a : Nat) : h'.queueAt a = h.queueAt a := by
  rw [queueAt, queueAt, hConns]

theorem queueOf_congr (hConns : h'.conns = h.conns) (a : Nat) : h'.queueOf a = h.queueOf a := by
  rw [queueOf, queueOf, queueAt_congr hConns]

/-- What `Route_deliver` does to one member depends on the others, unless the route is in order. -/
theorem independent_iff_fullLast (hFormed : h.WellFormed) (hLive : ∀ d ∈ ds, (h.queueAt d.member).isSome)
    (m : Message D) : Independent h m ds ↔ FullLast h ds := by
  obtain ⟨taken, rest, t, rfl, hTaken, hConns, hStop⟩ := hFormed.routeDeliver_taken hLive m
  constructor
  · intro hIndependent
    -- a member with room got all its messages in front
    have hAll : ∀ d ∈ taken ++ rest, h.roomAt d.member ≠ 0 → registrations rest d.member = 0 := by
      intro d hd hRoom
      obtain ⟨q, hq⟩ := Option.isSome_iff_exists.mp (hLive d hd)
      rw [Ne, hFormed.roomAt_eq_zero hq, Bool.not_eq_true] at hRoom
      have hQueue := (hIndependent d hd q hq).1 hRoom
      rw [queueOf_congr hConns, hTaken.queues, List.append_cancel_left_eq, registrations_append] at hQueue
      have hLength := congrArg List.length hQueue
      rw [List.length_replicate, List.length_replicate] at hLength
      omega
    refine ⟨taken, rest, rfl, ?_, ?_⟩
    · intro d hd
      refine ⟨hTaken.errno d hd, ?_⟩
      rw [registrations_append, hAll d (List.mem_append_left rest hd) (hTaken.roomAt_pos hd)]
      have hRoom := hTaken.room d.member
      omega
    · intro d hd
      by_contra hRoom
      exact absurd (hAll d (List.mem_append_right taken hd) hRoom) (Nat.pos_iff_ne_zero.mp (registrations_pos hd))
  · rintro ⟨taken', refused, hSplit, hFront, hFull⟩
    rw [hSplit] at hFront
    obtain ⟨rfl, rfl⟩ := hTaken.eq_of_fullLast hStop hSplit hFront hFull
    intro d hd q hq
    constructor
    · intro hRoom
      have hNot : registrations rest d.member = 0 := by
        apply List.count_eq_zero_of_not_mem
        intro hMem
        obtain ⟨e, he, hSame⟩ := List.mem_map.mp hMem
        have hZero := hFull e he
        rw [hSame, hFormed.roomAt_eq_zero hq, hRoom] at hZero
        cases hZero
      rw [queueOf_congr hConns, hTaken.queues, registrations_append, hNot, Nat.add_zero]
    · intro hIsFull
      have hZero : registrations taken d.member = 0 := by
        have hRoom := hTaken.room d.member
        rw [(hFormed.roomAt_eq_zero hq).mpr hIsFull] at hRoom
        omega
      rw [queueAt_congr hConns, hTaken.others d.member hZero, hq]

/-! ## Two members -/

def notice : Message Unit := ⟨0, 1, .nil⟩

/-- A queue with room for nothing more. -/
def fullQueue : MsgQueue Unit := ⟨⟨List.replicate 29 (some notice) ++ [none], 0, 29⟩, false⟩

/-- Connections with these queues. -/
def withQueues (qs : List (MsgQueue Unit)) : Hub Unit :=
  { listening with conns := qs.map fun q => { Connection.opened with member := some q } }

theorem holds_fullQueue : fullQueue.Holds (List.replicate 29 notice) where
  fits := by decide
  start := by decide
  stop := by decide
  slot := by decide

theorem withQueues_wellFormed {qs : List (MsgQueue Unit)} (hqs : ∀ q ∈ qs, ∃ l, q.Holds l) :
    (withQueues qs).WellFormed := by
  intro a c q hc hMember
  obtain ⟨q', hq', rfl⟩ := List.mem_map.mp (List.mem_of_getElem? hc)
  cases hMember
  exact hqs q hq'

theorem twoQueues_holds : ∀ q ∈ [fullQueue, MsgQueue.create memberMsgQueueLength], ∃ l, q.Holds l := by
  intro q hq
  rcases List.mem_pair.mp hq with rfl | rfl
  · exact ⟨_, holds_fullQueue⟩
  · exact ⟨_, MsgQueue.holds_create (by decide)⟩

theorem independent_full_last :
    Independent (withQueues [fullQueue, .create memberMsgQueueLength]) notice [⟨1, 0⟩, ⟨0, 0⟩] := by
  apply (independent_iff_fullLast (withQueues_wellFormed twoQueues_holds) (by decide) notice).mpr
  exact ⟨[⟨1, 0⟩], [⟨0, 0⟩], rfl, by decide, by decide⟩

/-- The member with the full queue comes first, and the other one gets nothing. -/
theorem not_independent_full_first :
    (withQueues [fullQueue, .create memberMsgQueueLength]).WellFormed ∧
      (∀ d ∈ [(⟨0, 0⟩ : Delivery), ⟨1, 0⟩],
        ((withQueues [fullQueue, .create memberMsgQueueLength]).queueAt d.member).isSome) ∧
      ¬Independent (withQueues [fullQueue, .create memberMsgQueueLength]) notice [⟨0, 0⟩, ⟨1, 0⟩] := by
  refine ⟨withQueues_wellFormed twoQueues_holds, by decide, ?_⟩
  intro hIndependent
  have hQueue := (hIndependent ⟨1, 0⟩ (by simp) (.create memberMsgQueueLength) rfl).1 (by decide)
  exact absurd hQueue (by decide)

end Hub

end Utu.Hub
