import Utu.Hub.Closing

/-!
# Messages behind their service

The packet that a connection has taken in is dropped by `clear_recv` once the
hub has serviced it. It is not lost if a queue has taken it.
-/

namespace Utu.Hub
open Ledger Connection
set_option autoImplicit false
set_option linter.dupNamespace false

variable {D : Type}

namespace Hub
variable {h : Hub D} {a : Nat} {c : Connection D} {svc : Service D} {m : Message D} {io : Io D}

/-- Every queue holds a list. -/
def WellFormed (h : Hub D) : Prop := ∀ {a : Nat} {c : Connection D} {q : MsgQueue D},
  h.conns[a]? = some c → c.member = some q → ∃ l, q.Holds l

/-- A message is in some queue. -/
def InQueue (h : Hub D) (ref : Nat) : Prop := ∃ c ∈ h.conns, ∃ n ∈ c.queued, n.ref = ref

/-- A message is in some queue, or it has been destroyed. -/
def Tracked (h : Hub D) (ref : Nat) : Prop :=
  h.InQueue ref ∨ ∃ k, h.refs.counters[ref]? = some k ∧ k.freed = true

/-- A message that has just been made: it is there, and no queue has it. -/
structure Fresh (h : Hub D) (ref : Nat) : Prop where
  alive : h.refs.Alive ref
  outside : ¬ h.InQueue ref

/-- A delivery is taken: the member is there and its queue has room. -/
def Takes (h : Hub D) (d : Delivery) : Prop :=
  d.errno = 0 ∧ ∃ c ∈ h.conns[d.member]?, ∃ q ∈ c.member, q.isFull = false

/-- The message goes to a route whose first member takes it. -/
def Reaches (h : Hub D) : Service D → Prop
  | .routed (d :: _) => h.Takes d
  | _ => False

theorem Fresh.not_tracked {ref : Nat} (hFresh : h.Fresh ref) : ¬ h.Tracked ref := by
  rintro (hIn | ⟨k, hk, hFreed⟩)
  · exact hFresh.outside hIn
  · obtain ⟨k', hk', hAlive⟩ := hFresh.alive
    rw [hk] at hk'
    cases hk'
    rw [hFreed] at hAlive
    cases hAlive

theorem queued_deliver {q : MsgQueue D} {l : List (Message D)} (hMember : c.member = some q)
    (hHolds : q.Holds l) (hFull : q.isFull = false) (m : Message D) : (c.deliver m).queued = l ++ [m] := by
  obtain ⟨q', hAdd, hHolds', -⟩ := hHolds.add hFull m
  apply queued_eq _ hHolds'
  simp only [deliver, hMember, hAdd]

theorem sendMsg_taken {d : Delivery} (hTakes : h.Takes d) (m : Message D) :
    ∃ c q, h.conns[d.member]? = some c ∧ c.member = some q ∧ q.isFull = false ∧
      h.sendMsg d.member m d.errno = (retain { h with conns := h.conns.set d.member (c.deliver m) } m, true) := by
  obtain ⟨hErrno, c, hc, q, hMember, hFull⟩ := hTakes
  rw [Option.mem_def] at hc hMember
  refine ⟨c, q, hc, hMember, hFull, ?_⟩
  simp [sendMsg, hc, hMember, hFull, hErrno]

/-- A delivery that is not taken changes nothing, unless there is no such member. -/
theorem sendMsg_refused {d : Delivery} (hNot : ¬ h.Takes d) (m : Message D) :
    ∃ fault, h.sendMsg d.member m d.errno = ({ h with fault }, false) := by
  unfold sendMsg
  split
  · exact ⟨_, rfl⟩
  · rename_i c hc
    split
    · exact ⟨_, rfl⟩
    · rename_i q hMember
      split
      · exact ⟨_, rfl⟩
      · rename_i hFree
        rw [Bool.or_eq_true, not_or, Bool.not_eq_true, decide_eq_true_eq, not_not] at hFree
        exact absurd ⟨hFree.2, c, hc, q, hMember, hFree.1⟩ hNot

theorem WellFormed.set {c' : Connection D} (hFormed : h.WellFormed)
    (hHolds : ∀ q, c'.member = some q → ∃ l, q.Holds l) : WellFormed { h with conns := h.conns.set a c' } := by
  intro b d q hd hMember
  rcases getElem?_set_cases hd with ⟨-, rfl⟩ | ⟨-, hd⟩
  · exact hHolds q hMember
  · exact hFormed hd hMember

/-- A message that is taken is in a queue, and so are those that were. -/
theorem inQueue_taken {d : Delivery} (hFormed : h.WellFormed) (hTakes : h.Takes d) (m : Message D) (ref : Nat) :
    ((h.sendMsg d.member m d.errno).1.InQueue ref ↔ h.InQueue ref ∨ m.ref = ref) ∧
      (h.sendMsg d.member m d.errno).1.WellFormed ∧ (h.sendMsg d.member m d.errno).2 = true := by
  obtain ⟨c, q, hc, hMember, hFull, hEq⟩ := sendMsg_taken hTakes m
  obtain ⟨l, hHolds⟩ := hFormed hc hMember
  have hQueued := queued_deliver hMember hHolds hFull m
  have hLt := (List.getElem?_eq_some_iff.mp hc).1
  rw [hEq]
  refine ⟨⟨?_, ?_⟩, hFormed.set fun q' hq' => ?_, rfl⟩
  · rintro ⟨e, hMem, n, hn, hRef⟩
    obtain ⟨b, he⟩ := List.mem_iff_getElem?.mp hMem
    rcases getElem?_set_cases he with ⟨-, rfl⟩ | ⟨-, he⟩
    · rw [hQueued, List.mem_append, List.mem_singleton] at hn
      rcases hn with hn | rfl
      · exact .inl ⟨c, List.mem_of_getElem? hc, n, by rwa [queued_eq hMember hHolds], hRef⟩
      · exact .inr hRef
    · exact .inl ⟨e, List.mem_of_getElem? he, n, hn, hRef⟩
  · have hNew : c.deliver m ∈ h.conns.set d.member (c.deliver m) :=
      List.mem_of_getElem? (List.getElem?_set_self hLt)
    rintro (⟨e, hMem, n, hn, hRef⟩ | hRef)
    · obtain ⟨b, he⟩ := List.mem_iff_getElem?.mp hMem
      by_cases hb : d.member = b
      · subst hb
        rw [hc] at he
        cases he
        rw [queued_eq hMember hHolds] at hn
        exact ⟨c.deliver m, hNew, n, by rw [hQueued]; exact List.mem_append_left _ hn, hRef⟩
      · exact ⟨e, List.mem_of_getElem? ((List.getElem?_set_ne hb).trans he), n, hn, hRef⟩
    · exact ⟨c.deliver m, hNew, m, by rw [hQueued]; simp, hRef⟩
  · obtain ⟨q'', hAdd, hHolds'', -⟩ := hHolds.add hFull m
    simp only [deliver, hMember, hAdd] at hq'
    cases hq'
    exact ⟨_, hHolds''⟩

/-- What a route's members have been given stays in their queues. -/
theorem InQueue.routeDeliver {ref : Nat} (hFormed : h.WellFormed) (hIn : h.InQueue ref)
    (members : List Delivery) : (routeDeliver m members h).InQueue ref := by
  induction members generalizing h with
  | nil => exact hIn
  | cons d rest ih =>
    rw [Hub.routeDeliver]
    by_cases hTakes : h.Takes d
    · obtain ⟨hIff, hFormed', hTrue⟩ := inQueue_taken hFormed hTakes m ref
      generalize h.sendMsg d.member m d.errno = r at hIff hFormed' hTrue ⊢
      obtain ⟨h', sent⟩ := r
      subst hTrue
      exact ih hFormed' (hIff.mpr (.inl hIn))
    · obtain ⟨fault, hEq⟩ := sendMsg_refused hTakes m
      rw [hEq]
      exact hIn

theorem refs_sendMsg_alive {ref : Nat} (hAlive : h.refs.Alive ref) (b errno : Nat) :
    (h.sendMsg b m errno).1.refs.Alive ref := by
  unfold sendMsg
  split
  · exact hAlive
  · split
    · exact hAlive
    · split
      · exact hAlive
      · exact hAlive.retain

theorem Alive.lt {ref : Nat} (hAlive : h.refs.Alive ref) : ref < h.refs.next := by
  obtain ⟨k, hk, -⟩ := hAlive
  exact (List.getElem?_eq_some_iff.mp hk).1

/-- A response is another message. -/
theorem Fresh.sendResponse {ref : Nat} (hFresh : h.Fresh ref) (hFormed : h.WellFormed) (body : Stackish.Tree D)
    (errno : Nat) : (h.sendResponse a body errno).Fresh ref := by
  have hLt := Alive.lt hFresh.alive
  have hAlive : (h.refs.alloc).Alive ref := by
    obtain ⟨k, hk, hFreed⟩ := hFresh.alive
    exact ⟨k, (List.getElem?_append_left hLt).trans hk, hFreed⟩
  refine ⟨refs_sendMsg_alive hAlive _ _, ?_⟩
  unfold Hub.sendResponse
  by_cases hTakes : Takes { h with refs := h.refs.alloc } ⟨a, errno⟩
  · obtain ⟨hIff, -, -⟩ := inQueue_taken (h := { h with refs := h.refs.alloc }) hFormed hTakes
      ⟨h.refs.next, 0, body⟩ ref
    rw [hIff]
    rintro (hIn | hEq)
    · exact hFresh.outside hIn
    · exact Nat.ne_of_gt hLt hEq
  · obtain ⟨fault, hEq⟩ := sendMsg_refused hTakes ⟨h.refs.next, 0, body⟩
    rw [hEq]
    exact hFresh.outside

/-- `Hub_service_message` leaves a message in a queue exactly if it reaches the first member of a
route. -/
theorem tracked_serviceMessage (hFresh : h.Fresh m.ref) (hFormed : h.WellFormed) (a : Nat) (svc : Service D) :
    (h.serviceMessage a m svc).Tracked m.ref ↔ h.Reaches svc := by
  cases svc with
  | failed => exact iff_of_false hFresh.not_tracked id
  | callback response errno =>
    cases response with
    | none => exact iff_of_false hFresh.not_tracked id
    | some body => exact iff_of_false (hFresh.sendResponse hFormed body errno).not_tracked id
  | routed members =>
    cases members with
    | nil => exact iff_of_false hFresh.not_tracked id
    | cons d rest =>
      rw [serviceMessage, routeDeliver]
      by_cases hTakes : h.Takes d
      · refine iff_of_true ?_ hTakes
        obtain ⟨hIff, hFormed', hTrue⟩ := inQueue_taken hFormed hTakes m m.ref
        generalize h.sendMsg d.member m d.errno = r at hIff hFormed' hTrue ⊢
        obtain ⟨h', sent⟩ := r
        subst hTrue
        exact .inl (InQueue.routeDeliver hFormed' (hIff.mpr (.inr rfl)) rest)
      · refine iff_of_false ?_ hTakes
        obtain ⟨fault, hEq⟩ := sendMsg_refused hTakes m
        rw [hEq]
        exact Fresh.not_tracked ⟨hFresh.alive, hFresh.outside⟩

/-- The transition from Delivering to Idle, when the number is right and the service works. -/
theorem exec_svcRecv (io : Io D) (hCs : c.cs = .delivering) (hMsg : c.recvMsg = some m) (hMsgid : m.msgid = c.recvCount)
    (hService : io.service = true) :
    ∃ past, (c.exec io .svcRecv).1 =
      { c with cs := .idle, recvCount := c.recvCount + 1, recvMsg := none, recvHdr := none, recvBody := none
               effects := c.effects ++ [.service m], past } :=
  ⟨_, by simp [exec, done, hCs, transition, runActions, act, msgidCheck, move, seen, hMsg, hMsgid,
    service, hService, emit]; rfl⟩

/-- A connection moves on with its member. -/
theorem Fresh.moved {c' : Connection D} {ref : Nat} (hFresh : h.Fresh ref) (hc : h.conns[a]? = some c)
    (hMember : c'.member = c.member) : (h.moved a c').Fresh ref := by
  refine ⟨hFresh.alive, fun ⟨d, hMem, n, hn, hRef⟩ => hFresh.outside ?_⟩
  obtain ⟨b, hd⟩ := List.mem_iff_getElem?.mp hMem
  rcases getElem?_set_cases hd with ⟨-, rfl⟩ | ⟨-, hd⟩
  · rw [queued, hMember] at hn
    exact ⟨c, List.mem_of_getElem? hc, n, hn, hRef⟩
  · exact ⟨d, List.mem_of_getElem? hd, n, hn, hRef⟩

theorem takes_moved {c' : Connection D} (hc : h.conns[a]? = some c) (hMember : c'.member = c.member)
    (d : Delivery) : (h.moved a c').Takes d ↔ h.Takes d := by
  have hLt := (List.getElem?_eq_some_iff.mp hc).1
  unfold Takes moved
  by_cases hd : a = d.member
  · rw [← hd, List.getElem?_set_self hLt, hc]
    simp [hMember]
  · rw [List.getElem?_set_ne hd]

theorem reaches_moved {c' : Connection D} (hc : h.conns[a]? = some c) (hMember : c'.member = c.member)
    (svc : Service D) : (h.moved a c').Reaches svc ↔ h.Reaches svc := by
  cases svc with
  | routed members =>
    cases members with
    | nil => exact .rfl
    | cons d rest => exact takes_moved hc hMember d
  | _ => exact .rfl

/-- A message that has been serviced is in a queue or destroyed exactly if it went to a route whose
first member took it. -/
theorem serviced_tracked_iff (hRunning : h.running = true) (hc : h.conns[a]? = some c)
    (hCs : c.cs = .delivering) (hMsg : c.recvMsg = some m) (hMsgid : m.msgid = c.recvCount)
    (hWorks : svc.works = true) (hFresh : h.Fresh m.ref) (hFormed : h.WellFormed) :
    (h.run a c (c.exec (h.answers io svc) .svcRecv).1 svc).Tracked m.ref ↔ h.Reaches svc := by
  obtain ⟨past, hExec⟩ := exec_svcRecv (h.answers io svc) hCs hMsg hMsgid hWorks
  have hMember : (c.exec (h.answers io svc) .svcRecv).1.member = c.member := by rw [hExec]
  have hDrop : (c.exec (h.answers io svc) .svcRecv).1.effects.drop c.effects.length = [.service m] := by
    rw [hExec]
    exact List.drop_left
  rw [Hub.run, hDrop]
  generalize (c.exec (h.answers io svc) .svcRecv).1 = c' at hMember ⊢
  have hEffect : [Effect.service m].foldl (effect a svc) { h with conns := h.conns.set a c' } =
      (h.moved a c').serviceMessage a m svc := by
    have hMoved : Hub.running { h with conns := h.conns.set a c' } = true := hRunning
    simp only [List.foldl_cons, List.foldl_nil, effect, hMoved, if_true]
    rfl
  have hFail : ∀ {g : Hub D} {f : Option Fault}, (g.fail f).Tracked m.ref ↔ g.Tracked m.ref := by
    intro g f
    cases f <;> exact .rfl
  rw [hEffect, hFail, ← reaches_moved hc hMember svc]
  exact tracked_serviceMessage (hFresh.moved hc hMember)
    (hFormed.set fun q hq => hFormed hc (hMember ▸ hq)) a svc

/-- A client that listens to a route has sent a message to it. -/
def receiving : Hub Unit :=
  { (listening : Hub Unit) with
    conns := [{ (opened : Connection Unit) with
      cs := .delivering
      member := some (.create memberMsgQueueLength)
      recvCount := 1
      recvMsg := some (noteOf 0) }]
    refs := Counters.empty.alloc }

theorem serviced_tracked_receiving : ∃ c ∈ receiving.conns[0]?,
    (receiving.run 0 c (c.exec (receiving.answers quietIo (.routed [⟨0, 0⟩])) .svcRecv).1
      (.routed [⟨0, 0⟩])).Tracked 0 := by
  have hHolds : (MsgQueue.create memberMsgQueueLength : MsgQueue Unit).Holds [] :=
    MsgQueue.holds_create (by decide)
  refine ⟨_, rfl, (serviced_tracked_iff (m := noteOf 0) rfl rfl rfl rfl rfl rfl ⟨Counters.alive_alloc, ?_⟩ ?_).mpr
    ⟨rfl, _, rfl, _, rfl, by decide⟩⟩
  · rintro ⟨c, hMem, n, hn, -⟩
    rw [receiving, List.mem_singleton] at hMem
    subst hMem
    rw [queued_eq rfl hHolds] at hn
    cases hn
  · intro a c q hc hMember
    have hMem := List.mem_of_getElem? hc
    rw [receiving, List.mem_singleton] at hMem
    subst hMem
    cases hMember
    exact ⟨[], hHolds⟩

/-- A request to the hub itself is lost behind its service: nothing has it, and it is not destroyed. -/
theorem serviced_lost : ∃ h : Hub Unit, h.Reachable (fun _ _ => True) ∧
    (∃ c ∈ h.conns, c.past.serviced = [1]) ∧ h.refs.counters[0]? = some ⟨0, 0, 0, false⟩ ∧
    ∀ c ∈ h.conns, c.recvMsg = none ∧ c.sendMsg = none ∧ c.queued = [] :=
  ⟨(connect 0 ++ request 0 1 (.callback none 0)).foldl step listening, .foldl .refl (by decide +kernel),
    by decide +kernel⟩

end Hub
end Utu.Hub
