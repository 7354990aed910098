import Utu.Bstring

/-!
# The connection machine

The statechart of `connection.rl`, one line a state, and the tables that the
generator made of it. The theorem `tables_eq` says that the two agree, so that
nothing after it looks into a table.
-/

namespace Utu.Hub
set_option autoImplicit false

/-- The states, in the order of their numbers in the tables. -/
inductive Cs where
  | error | start | accepting | keyCheck | tuning | registering | idle
  | hated | awaiting | validating | sending | aborting | closing | delivering | final
deriving DecidableEq, Repr

/-- `HubEvent` -/
inductive HubEvent where
  | open | close | keyPresent | pass | fail | svcRecv | msgSent | msgQueued | msgRecv
  | hateApply | hateChallenge | hatePaid | hateValid | hateInvalid
  | listen | genKey | genKeyDone | keyFileLoad | done | readClose | writeClose
deriving DecidableEq, Repr

/-- The actions, in the order of their numbers in the tables. -/
inductive Action where
  | begin | open | keyPrep | tune | register | established | recv | clearRecv | clearSend | service
  | msgReady | msgidCheck | aborted | sent | hateApply | hateChallenge | hatePaid | hateValid
  | hateInvalid | error | halfClose | restClose
deriving DecidableEq, Repr

/-- The character of an event. -/
def HubEvent.char : HubEvent → Int
  | .open => 79
  | .close => 67
  | .keyPresent => 80
  | .pass => 49
  | .fail => 48
  | .svcRecv => 115
  | .msgSent => 101
  | .msgQueued => 81
  | .msgRecv => 82
  | .hateApply => 72
  | .hateChallenge => 104
  | .hatePaid => 98
  | .hateValid => 86
  | .hateInvalid => 118
  | .listen => 76
  | .genKey => 75
  | .genKeyDone => 107
  | .keyFileLoad => 70
  | .done => 68
  | .readClose => 114
  | .writeClose => 119

/-- `close` of the chart -/
def HubEvent.closes : HubEvent → Bool
  | .readClose | .writeClose => true
  | _ => false

/-- What stands behind the arrow of an event that a state does not expect. -/
def refuse : Cs × List Action := (.error, [.error])

/-- An event of the opening of a connection, or a close in its place. -/
def orClose (e expected : HubEvent) (next : Cs × List Action) : Cs × List Action :=
  if e = expected then next else if e.closes then (.closing, [.halfClose]) else refuse

/-- The chart: the state an event leads to, and the actions on the way. -/
def transition (cs : Cs) (e : HubEvent) : Cs × List Action :=
  match cs with
  | .start => if e = .open then (.accepting, [.begin, .open]) else refuse
  | .accepting => orClose e .keyPresent (.keyCheck, [.keyPrep])
  | .keyCheck => orClose e .pass (.tuning, [.tune])
  | .tuning => orClose e .pass (.registering, [.register])
  | .registering => orClose e .pass (.idle, [.established])
  | .idle =>
    match e with
    | .msgRecv => (.delivering, [.recv])
    | .msgQueued => (.sending, [.msgReady])
    | .hateApply => (.hated, [.hateApply])
    | .readClose | .writeClose => (.closing, [.halfClose])
    | _ => refuse
  | .hated => if e = .hateChallenge then (.awaiting, [.hateChallenge]) else refuse
  | .awaiting => if e = .hatePaid then (.validating, [.hatePaid]) else refuse
  | .validating =>
    match e with
    | .hateValid => (.idle, [.hateValid])
    | .hateInvalid => (.idle, [.hateInvalid])
    | _ => refuse
  | .closing => if e.closes then (.final, [.restClose]) else refuse
  | .aborting => (.closing, [.aborted, .halfClose])
  | .delivering =>
    if e = .svcRecv then (.idle, [.msgidCheck, .service, .clearRecv]) else refuse
  | .sending =>
    match e with
    | .msgSent => (.idle, [.sent, .clearSend])
    | .fail => (.aborting, [.clearSend])
    | _ => refuse
  | .error | .final => refuse

/-! ## The tables -/

namespace Tables

def actions : List Nat := [
  0, 1, 2, 1, 3, 1, 4, 1,
  5, 1, 6, 1, 8, 1, 10, 1,
  14, 1, 15, 1, 16, 1, 17, 1,
  18, 1, 19, 1, 20, 1, 21, 2,
  0, 1, 2, 12, 20, 2, 13, 8,
  3, 11, 9, 7]

def keyOffsets : List Nat := [
  0, 0, 1, 4, 7, 10, 13, 18,
  19, 20, 22, 24, 24, 26, 27]

def transKeys : List Int := [
  79, 80, 114, 119, 49, 114, 119, 49,
  114, 119, 49, 114, 119, 72, 81, 82,
  114, 119, 104, 98, 86, 118, 48, 101,
  114, 119, 115, 0]

def singleLengths : List Nat := [
  0, 1, 3, 3, 3, 3, 5, 1,
  1, 2, 2, 0, 2, 1, 0]

def indexOffsets : List Nat := [
  0, 0, 2, 6, 10, 14, 18, 24,
  26, 28, 31, 34, 35, 38, 40]

def indicies : List Nat := [
  1, 0, 2, 3, 3, 0, 4, 3,
  3, 0, 5, 3, 3, 0, 6, 3,
  3, 0, 7, 8, 9, 3, 3, 0,
  10, 0, 11, 0, 12, 13, 0, 14,
  15, 0, 16, 17, 17, 0, 18, 0,
  0, 0]

def transTargs : List Nat := [
  0, 2, 3, 12, 4, 5, 6, 7,
  10, 13, 8, 9, 6, 6, 11, 6,
  12, 14, 6]

def transActions : List Nat := [
  25, 31, 1, 27, 3, 5, 7, 15,
  13, 9, 17, 19, 21, 23, 11, 37,
  34, 29, 40]

end Tables

/-- Binary search over the keys from `keys`. Every probe drops a key, so `fuel` never runs out
when it starts at the number of keys. -/
def search (keys : Nat) (c : Int) : Nat → Int → Int → Option Nat
  | 0, _, _ => none
  | fuel + 1, lower, upper =>
    if upper < lower then none
    else
      let mid := lower + (upper - lower) / 2
      let key := Tables.transKeys.getD (keys + mid.toNat) 0
      if c < key then search keys c fuel lower (mid - 1)
      else if key < c then search keys c fuel (mid + 1) upper
      else some mid.toNat

/-- The number of the transition, `_trans` at `_match`; no state has a range of keys. -/
def transitionIndex (cs : Nat) (c : Int) : Nat :=
  let klen := Tables.singleLengths.getD cs 0
  let offset := (search (Tables.keyOffsets.getD cs 0) c klen 0 (klen - 1)).getD klen
  Tables.indicies.getD (Tables.indexOffsets.getD cs 0 + offset) 0

/-- The target of a transition and the numbers of its actions. -/
def tableTransition (cs : Nat) (c : Int) : Nat × List Nat :=
  let trans := transitionIndex cs c
  let acts := Tables.transActions.getD trans 0
  (Tables.transTargs.getD trans 0, (Tables.actions.drop (acts + 1)).take (Tables.actions.getD acts 0))

/-- The state by its number. -/
def Cs.number (cs : Cs) : Nat := cs.ctorIdx

def Action.number (a : Action) : Nat := a.ctorIdx

/-- The generated tables are the chart. `ConnectionState_exec` does not look into them in the error
state. -/
theorem tables_eq (cs : Cs) (e : HubEvent) (hCs : cs ≠ .error) :
    tableTransition cs.number e.char =
      ((transition cs e).1.number, (transition cs e).2.map Action.number) := by
  cases cs with
  | error => exact absurd rfl hCs
  | _ => cases e <;> rfl

end Utu.Hub
