import Utu.Stackish.Construct

/-!
# What a format describes

The cursor of `Node_decons` is a place in a tree: the elements from the current
one on, and the same for every group around it. Two ways of moving it are
compared. A format describes a tree when each of its characters finds an element
of its own; `Node_decons` stays at the last element of a group instead, and
leaves the tree at its root.
-/

namespace Utu.Stackish
open LinkedForest Outcome
set_option autoImplicit false

variable {D : Type}

structure Cursor (D : Type) where
  here : Located (NodeData D)
  outer : List (Located (NodeData D))

/-- What a character that stands for an element finds in it; `none` is a `check` that fails. -/
def Expect.take (copy : Bool) (a : Nat × NodeData D) : Expect → Option (List (Bound D))
  | .number =>
    match a.2.value with
    | .number n => some [.number n]
    | _ => none
  | .float =>
    match a.2.value with
    | .float x => some [.float x]
    | _ => none
  | .string =>
    match a.2.value with
    | .string s => some [bindString copy a.1 s]
    | _ => none
  | .blob =>
    match a.2.value with
    | .blob s => some [bindString copy a.1 s]
    | _ => none
  | .group null => if null then some [.group a.1] else none
  | .skip => some []
  | .start | .close | .attr _ | .word _ => none

/-- The first element has this name. -/
def headNamed (name : Bytes) : Located (NodeData D) → Bool
  | .nil => false
  | .node a _ _ => a.2.name == some name

/-- The later siblings. -/
def later : Located (NodeData D) → Located (NodeData D)
  | .nil => .nil
  | .node _ _ sibling => sibling

/-- `NEXT`: the later siblings, or the last element again. -/
def stay : Located (NodeData D) → Located (NodeData D)
  | .nil => .nil
  | .node a child .nil => .node a child .nil
  | .node _ _ (.node b c s) => .node b c s

namespace Cursor
variable (copy : Bool)

/-- Back at the group around, or out of the tree. -/
def up (f : Located (NodeData D) → Located (NodeData D)) (k : Cursor D) : Cursor D :=
  match k.outer with
  | [] => ⟨.nil, []⟩
  | p :: outer => ⟨f p, outer⟩

/-- The outputs of a character, if its checks succeed. -/
def reads (k : Cursor D) : Expect → Option (List (Bound D))
  | .start | .close => some []
  | .attr name => if headNamed name k.here then some [] else none
  | .word name =>
    match k.outer with
    | [] => some []
    | p :: _ => if headNamed name p then some [] else none
  | c =>
    match k.here with
    | .nil => none
    | .node a _ _ => c.take copy a

/-- Every element once: no character stands for an element behind the last, no word for a group
around the root. -/
def move (k : Cursor D) : Expect → Option (Cursor D)
  | .start =>
    match k.here with
    | .nil => none
    | .node a child sibling => some ⟨child, .node a child sibling :: k.outer⟩
  | .close => some (k.up later)
  | .word _ =>
    match k.outer with
    | [] => none
    | _ :: _ => some (k.up later)
  | .attr _ =>
    match k.here with
    | .nil => none
    | .node _ _ _ => some k
  | _ =>
    match k.here with
    | .nil => none
    | .node _ _ sibling => some ⟨sibling, k.outer⟩

/-- Where `cur_node` goes. -/
def slide (k : Cursor D) : Expect → Cursor D
  | .start =>
    match k.here with
    | .nil => k
    | .node a child sibling => ⟨child, .node a child sibling :: k.outer⟩
  | .close | .word _ => k.up stay
  | .attr _ => k
  | _ => ⟨stay k.here, k.outer⟩

/-- Every character finds an element, whatever its type and name. -/
def fits : List Expect → Cursor D → Bool
  | [], _ => true
  | c :: rest, k =>
    match k.move c with
    | none => false
    | some k => fits rest k

/-- The outputs of a format that `Node_decons` accepts. -/
def accepts : List Expect → Cursor D → Option (List (Bound D))
  | [], _ => some []
  | c :: rest, k =>
    match k.here with
    | .nil => none
    | .node _ _ _ => do
      let bound ← k.reads copy c
      let more ← accepts rest (k.slide c)
      pure (bound ++ more)

end Cursor

/-! ## The cursor in memory -/

section Memory
variable {lib : DoubleLib D} {h : Heap D} {copy : Bool}

/-- The links around the cursor are in place. -/
def Placed (h : Heap D) (here : Located (NodeData D)) : List (Located (NodeData D)) → Prop
  | [] => Stored h none here
  | p :: outer => Stored h p.ptr here ∧ p ≠ .nil ∧ Placed h p outer

def parentPtr : List (Located (NodeData D)) → Option Nat
  | [] => none
  | p :: _ => p.ptr

theorem Placed.stored {here : Located (NodeData D)} {outer : List (Located (NodeData D))}
    (hk : Placed h here outer) : Stored h (parentPtr outer) here := by
  cases outer with
  | nil => exact hk
  | cons p outer => exact hk.1

theorem stored_stay {par : Option Nat} {f : Located (NodeData D)} (hf : Stored h par f) :
    Stored h par (stay f) := by
  cases f with
  | nil => exact hf
  | node a c s =>
    cases s with
    | nil => exact hf
    | node b c' s' => exact hf.2.2

theorem Placed.stay {f : Located (NodeData D)} {outer : List (Located (NodeData D))}
    (hf : Placed h f outer) : Placed h (stay f) outer := by
  cases outer with
  | nil => exact stored_stay hf
  | cons p outer => exact ⟨stored_stay hf.1, hf.2⟩

theorem Placed.up {k : Cursor D} (hk : Placed h k.here k.outer) :
    Placed h (k.up Stackish.stay).here (k.up Stackish.stay).outer := by
  obtain ⟨here, outer⟩ := k
  cases outer with
  | nil => trivial
  | cons p outer => exact hk.2.2.stay

theorem Placed.slide {k : Cursor D} (hk : Placed h k.here k.outer) (c : Expect) :
    Placed h (k.slide c).here (k.slide c).outer := by
  cases c with
  | start =>
    obtain ⟨here, outer⟩ := k
    cases here with
    | nil => exact hk
    | node a child sibling => exact ⟨hk.stored.2.1, by simp, hk⟩
  | close | word => exact hk.up
  | attr => exact hk
  | number | float | string | blob | group | skip => exact hk.stay

theorem nextNode_stay (a : Nat × NodeData D) (par : Option Nat) (c s : Located (NodeData D)) :
    some (nextNode a.1 ⟨a.2, par, s.ptr, c.ptr⟩) = (stay (.node a c s)).ptr := by
  cases s <;> rfl

theorem hasName_eq (d : NodeData D) (par sibling child : Option Nat) (name : Bytes) :
    hasName ⟨d, par, sibling, child⟩ name = (d.name == some name) := by
  rw [hasName]
  cases d.name with
  | none => rfl
  | some n => rfl

theorem deref_head {par : Option Nat} {a : Nat × NodeData D} {c s : Located (NodeData D)}
    (hf : Stored h par (.node a c s)) : deref h (some a.1) = .ok (a.1, ⟨a.2, par, s.ptr, c.ptr⟩) := by
  rw [deref, hf.1]
  rfl

/-- A character whose checks succeed moves the cursor. -/
theorem deconsChar_of_reads {a : Nat × NodeData D} {c s : Located (NodeData D)}
    {outer : List (Located (NodeData D))} (hk : Placed h (.node a c s) outer) (bound : List (Bound D))
    {ch : Expect} {b : List (Bound D)} (hReads : Cursor.reads copy ⟨.node a c s, outer⟩ ch = some b) :
    deconsChar lib h 0 copy a.1 ⟨a.2, parentPtr outer, s.ptr, c.ptr⟩ bound ch =
      .ok (.next (Cursor.slide ⟨.node a c s, outer⟩ ch).here.ptr (bound ++ b)) := by
  have hNext := nextNode_stay a (parentPtr outer) c s
  cases ch with
  | start =>
    cases hReads
    rw [List.append_nil]
    rfl
  | close =>
    cases hReads
    rw [List.append_nil]
    cases outer with
    | nil => rfl
    | cons p outer =>
      cases p with
      | nil => exact absurd rfl hk.2.1
      | node a' c' s' =>
        have hUp := hk.2.2.stored
        rw [deconsChar]
        dsimp only [parentPtr, Forest.ptr]
        rw [bind_of_ok (deref_head hUp)]
        exact congrArg (fun cur => Except.ok (Decons.next cur bound)) (nextNode_stay a' _ c' s')
  | attr name =>
    obtain ⟨hHead, hb⟩ := Option.ite_none_right_eq_some.mp hReads
    have hName : (a.2.name == some name) = true := hHead
    cases hb
    rw [List.append_nil, deconsChar, if_neg (by simp), hasName_eq, if_pos hName]
    rfl
  | word name =>
    cases outer with
    | nil =>
      cases hReads
      rw [List.append_nil]
      rfl
    | cons p outer =>
      cases p with
      | nil => exact absurd rfl hk.2.1
      | node a' c' s' =>
        obtain ⟨hHead, hb⟩ := Option.ite_none_right_eq_some.mp hReads
        have hName : (a'.2.name == some name) = true := hHead
        cases hb
        have hUp := hk.2.2.stored
        rw [List.append_nil, deconsChar]
        dsimp only [parentPtr, Forest.ptr]
        rw [bind_of_ok (deref_head hUp)]
        dsimp only
        rw [if_neg (by simp), hasName_eq, if_pos hName]
        exact congrArg (fun cur => Except.ok (Decons.next cur bound)) (nextNode_stay a' _ c' s')
  | number | float | string | blob =>
    obtain ⟨addr, name, value⟩ := a
    cases value <;> cases hReads
    exact congrArg (fun cur => Except.ok (Decons.next cur _)) hNext
  | group null =>
    cases null with
    | false => cases hReads
    | true =>
      cases hReads
      exact congrArg (fun cur => Except.ok (Decons.next cur _)) hNext
  | skip =>
    cases hReads
    rw [List.append_nil]
    exact congrArg (fun cur => Except.ok (Decons.next cur _)) hNext

/-- A character whose checks fail does not move it. -/
theorem deconsChar_of_not_reads {a : Nat × NodeData D} {c s : Located (NodeData D)}
    {outer : List (Located (NodeData D))} (hk : Placed h (.node a c s) outer) (bound : List (Bound D))
    {ch : Expect} (hReads : Cursor.reads copy ⟨.node a c s, outer⟩ ch = none) (cur : Option Nat)
    (bound' : List (Bound D)) :
    deconsChar lib h 0 copy a.1 ⟨a.2, parentPtr outer, s.ptr, c.ptr⟩ bound ch ≠ .ok (.next cur bound') := by
  intro hNext
  cases ch with
  | start | close | skip => cases hReads
  | attr name =>
    have hName : ¬(a.2.name == some name) = true := by
      intro hName
      exact absurd ((if_pos hName).symm.trans hReads) (by simp)
    rw [deconsChar, if_neg (by simp), hasName_eq, if_neg hName] at hNext
    obtain ⟨-, -, hFail⟩ := bind_eq_ok_iff.mp hNext
    cases hFail
  | word name =>
    cases outer with
    | nil => cases hReads
    | cons p outer =>
      cases p with
      | nil => exact absurd rfl hk.2.1
      | node a' c' s' =>
        have hName : ¬(a'.2.name == some name) = true := by
          intro hName
          exact absurd ((if_pos hName).symm.trans hReads) (by simp)
        have hUp := hk.2.2.stored
        rw [deconsChar] at hNext
        dsimp only [parentPtr, Forest.ptr] at hNext
        rw [bind_of_ok (deref_head hUp)] at hNext
        dsimp only at hNext
        rw [if_neg (by simp), hasName_eq, if_neg hName] at hNext
        obtain ⟨-, -, hFail⟩ := bind_eq_ok_iff.mp hNext
        cases hFail
  | number | string | blob =>
    obtain ⟨x, hx, -⟩ := deconsValue_next hNext
    obtain ⟨addr, name, value⟩ := a
    cases value <;> first | (cases hx; done) | cases hReads
  | float =>
    obtain ⟨addr, name, value⟩ := a
    cases value with
    | float x => cases hReads
    | number | string | blob | group =>
      simp only [deconsChar] at hNext
      obtain ⟨x, hx, -⟩ := deconsValue_next hNext
      cases hx
  | group null =>
    cases null with
    | false => cases hNext
    | true => cases hReads

theorem deconsLoop_true_iff (lib : DoubleLib D) (copy : Bool) (format : List Expect) {k : Cursor D}
    (hk : Placed h k.here k.outer) (bound bound' : List (Bound D)) :
    deconsLoop lib h 0 copy format k.here.ptr bound = .ok (true, bound') ↔
      ∃ out, k.accepts copy format = some out ∧ bound' = bound ++ out := by
  induction format generalizing k bound with
  | nil => simp [deconsLoop, Cursor.accepts, pure, Except.pure, eq_comm]
  | cons c rest ih =>
    obtain ⟨here, outer⟩ := k
    cases here with
    | nil => simp [deconsLoop, Cursor.accepts, Forest.ptr, pure, Except.pure]
    | node a child sibling =>
      have hNext := hk.slide c
      simp only [Forest.ptr, deconsLoop, Cursor.accepts]
      rw [bind_of_ok (deref_head hk.stored)]
      cases hReads : Cursor.reads copy ⟨.node a child sibling, outer⟩ c with
      | none =>
        constructor
        · intro hRun
          obtain ⟨step, hStep, hRest⟩ := bind_eq_ok_iff.mp hRun
          cases step with
          | next cur bound₁ => exact absurd hStep (deconsChar_of_not_reads hk bound hReads cur bound₁)
          | failed bound₁ => cases hRest
        · rintro ⟨out, hOut, -⟩
          cases hOut
      | some b =>
        dsimp only
        rw [bind_of_ok (deconsChar_of_reads hk bound hReads)]
        dsimp only
        rw [ih hNext]
        constructor
        · rintro ⟨out, hOut, rfl⟩
          refine ⟨b ++ out, ?_, List.append_assoc _ _ _⟩
          rw [hOut]
          rfl
        · rintro ⟨out, hOut, rfl⟩
          obtain ⟨b', hb, hRest⟩ := Option.bind_eq_some_iff.mp hOut
          obtain ⟨more, hMore, hEq⟩ := Option.bind_eq_some_iff.mp hRest
          cases hb
          cases hEq
          exact ⟨more, hMore, (List.append_assoc _ _ _).symm⟩

/-- No call succeeds under a stale `errno`. -/
theorem deconsLoop_errno {errno : Nat} {format : List Expect} {cur : Option Nat} {bound bound' : List (Bound D)}
    (hr : deconsLoop lib h errno copy format cur bound = .ok (true, bound')) : errno = 0 := by
  induction format generalizing cur bound with
  | nil =>
    obtain ⟨hErrno, -⟩ := Prod.mk.inj (Except.ok.inj hr)
    simpa using hErrno
  | cons c rest ih =>
    cases cur with
    | none => cases hr
    | some a =>
      rw [deconsLoop] at hr
      obtain ⟨node, -, hr⟩ := bind_eq_ok_iff.mp hr
      obtain ⟨step, -, hr⟩ := bind_eq_ok_iff.mp hr
      cases step with
      | next cur bound₁ => exact ih hr
      | failed bound₁ => cases hr

/-- `Node_decons` succeeds where its cursor does. -/
theorem nodeDecons_true_iff (lib : DoubleLib D) (copy : Bool) {a : Nat × NodeData D} {c s : Located (NodeData D)}
    (hf : Stored h none (.node a c s)) (errno : Nat) (format : List Expect) (bound : List (Bound D)) :
    nodeDecons lib h errno copy a.1 format = .ok (true, bound) ↔
      errno = 0 ∧ Cursor.accepts copy format ⟨.node a c s, []⟩ = some bound := by
  have hPlaced : Placed h (Cursor.mk (Forest.node a c s) []).here [] := hf
  have hLoop := deconsLoop_true_iff lib copy format hPlaced [] bound
  constructor
  · intro hr
    obtain rfl := deconsLoop_errno hr
    obtain ⟨out, hOut, rfl⟩ := hLoop.mp hr
    exact ⟨rfl, hOut⟩
  · rintro ⟨rfl, hOut⟩
    exact hLoop.mpr ⟨bound, hOut, rfl⟩

end Memory

/-! ## Elements of their own -/

section Describe
variable {copy : Bool}

/-- The two cursors are at the same element, unless the strict one has come to the end of the group. -/
structure Alongside (k strict : Cursor D) : Prop where
  here : strict.here = .nil ∨ k.here = strict.here
  outer : k.outer = strict.outer

theorem alongside_stay (f : Located (NodeData D)) (outer : List (Located (NodeData D))) :
    Alongside ⟨stay f, outer⟩ ⟨later f, outer⟩ := by
  refine ⟨?_, rfl⟩
  cases f with
  | nil => exact .inl rfl
  | node a c s =>
    cases s with
    | nil => exact .inl rfl
    | node b c' s' => exact .inr rfl

theorem Alongside.up {k strict : Cursor D} (hk : Alongside k strict) :
    Alongside (k.up stay) (strict.up later) := by
  obtain ⟨here, outer⟩ := k
  obtain ⟨here', outer'⟩ := strict
  obtain rfl : outer = outer' := hk.outer
  cases outer with
  | nil => exact ⟨.inl rfl, rfl⟩
  | cons p outer => exact alongside_stay p outer

/-- Where a character finds an element of its own, both cursors read the same and move along. -/
theorem Alongside.move (copy : Bool) {k strict strict' : Cursor D} (hk : Alongside k strict) {c : Expect}
    (hMove : strict.move c = some strict') :
    k.reads copy c = strict.reads copy c ∧ Alongside (k.slide c) strict' := by
  obtain ⟨here, outer⟩ := k
  obtain ⟨here', outer'⟩ := strict
  obtain rfl : outer = outer' := hk.outer
  cases c with
  | close =>
    cases hMove
    exact ⟨rfl, hk.up⟩
  | word name =>
    cases outer with
    | nil => cases hMove
    | cons p outer =>
      cases hMove
      exact ⟨rfl, hk.up⟩
  | start | attr | number | float | string | blob | group | skip =>
    cases here' with
    | nil => cases hMove
    | node a child sibling =>
      obtain rfl : here = .node a child sibling := hk.here.resolve_left (by simp)
      cases hMove
      refine ⟨rfl, ?_⟩
      first
        | exact ⟨.inr rfl, rfl⟩
        | exact alongside_stay (.node a child sibling) outer

end Describe

end Utu.Stackish
