import Utu.Protocol.Crypto

/-!
# Opening an envelope

What `CryptState_decrypt_packet` returns depends on the root's name, on the
first two children, and on what CCM says about the second. The result variable
is written before any of these are checked.
-/

namespace Utu.Protocol
open Stackish LinkedForest Procedure
set_option autoImplicit false

variable {D K S U : Type}

/-! ## The envelope of a tree -/

/-- The tag and the payload as the format binds them: a single blob is both. -/
def envelope : Stackish.Tree D → Option (Option Bytes × Option Bytes)
  | .node _ (.node ⟨_, .blob tag⟩ _ .nil) _ => some (tag, tag)
  | .node _ (.node ⟨_, .blob tag⟩ _ (.node ⟨_, .blob payload⟩ _ _)) _ => some (tag, payload)
  | _ => none

def oneBlob : Stackish.Tree D → Bool
  | .node _ (.node _ _ .nil) _ => true
  | _ => false

def rootNamed (name : Bytes) : Stackish.Tree D → Bool
  | .node d _ _ => d.name == some name
  | .nil => false

section Format
variable {lib : DoubleLib D} {h : Heap D}

theorem deref_cell {a : Nat} {cell : Cell (NodeData D)} (hCell : h[a]? = some cell) :
    deref h (some a) = .ok (a, cell) := by
  rw [deref, hCell]
  rfl

/-- A blob in the format, at a blob. -/
theorem deconsLoop_blob {a : Nat} {cell : Cell (NodeData D)} (hCell : h[a]? = some cell)
    {s : Option Bytes} (hBlob : cell.data.value = .blob s) (rest : List Expect)
    (bound : List (Bound D)) :
    deconsLoop lib h 0 false (.blob :: rest) (some a) bound =
      deconsLoop lib h 0 false rest (some (nextNode a cell)) (bound ++ [.shared a]) := by
  rw [deconsLoop, Outcome.bind_of_ok (deref_cell hCell)]
  simp only [deconsChar, hBlob, deconsValue, bindString]
  rfl

/-- A blob in the format, at anything else: nothing is bound. -/
theorem deconsLoop_not_blob {errno : Nat} {a : Nat} {cell : Cell (NodeData D)}
    (hCell : h[a]? = some cell) (hNot : errno ≠ 0 ∨ ∀ s, cell.data.value ≠ .blob s)
    {rest : List Expect} {bound : List (Bound D)} {r : Bool × List (Bound D)}
    (hr : deconsLoop lib h errno false (.blob :: rest) (some a) bound = .ok r) : r = (false, bound) := by
  rw [deconsLoop, Outcome.bind_of_ok (deref_cell hCell)] at hr
  obtain ⟨d, hChar, hr⟩ := Outcome.bind_eq_ok_iff.mp hr
  have hFailed : d = .failed bound := by
    simp only [deconsChar, deconsValue] at hChar
    split at hChar
    · cases hChar
      rfl
    · rename_i hErrno
      have hValue := hNot.resolve_left hErrno
      split at hChar
      · rename_i b hb
        split at hb
        · rename_i s hs
          exact absurd hs (hValue s)
        · cases hb
      · obtain ⟨u, -, hChar⟩ := Outcome.bind_eq_ok_iff.mp hChar
        cases hChar
        rfl
  subst hFailed
  cases hr
  rfl

/-- The name at the end of the format, in a group with its parent link in place. -/
theorem deconsLoop_word {a p : Nat} {cell up : Cell (NodeData D)} (hCell : h[a]? = some cell)
    (hParent : cell.parent = some p) (hUp : h[p]? = some up) (name : Bytes)
    (bound : List (Bound D)) :
    deconsLoop lib h 0 false [.word name] (some a) bound =
      if up.data.name = some name then .ok (true, bound)
      else nodeDump lib h (some p) true >>= fun _ => .ok (false, bound) := by
  rw [deconsLoop, Outcome.bind_of_ok (deref_cell hCell)]
  simp only [deconsChar, hParent]
  rw [Outcome.bind_of_ok (deref_cell hUp)]
  have hName : hasName up name = true ↔ up.data.name = some name := by
    rw [hasName]
    split
    · rename_i hNone
      simp [hNone]
    · rename_i n hSome
      simp [hSome, biseqcstr]
  by_cases hNamed : up.data.name = some name
  · simp only [hName.mpr hNamed, hNamed]
    rfl
  · simp only [mt hName.mp hNamed, hNamed]
    cases nodeDump lib h (some p) true <;> rfl

/-- The nodes the two blobs of an envelope are read from. -/
structure EnvelopeNodes (h : Heap D) (t : Stackish.Tree D) (tag payload : Option Bytes) where
  tagNode : Nat
  payloadNode : Nat
  tagCell : Cell (NodeData D)
  payloadCell : Cell (NodeData D)
  tag_mem : h[tagNode]? = some tagCell
  payload_mem : h[payloadNode]? = some payloadCell
  tag_eq : tagCell.data.value = .blob tag
  payload_eq : payloadCell.data.value = .blob payload
  one_iff : tagNode = payloadNode ↔ oneBlob t = true

def EnvelopeNodes.bound {h : Heap D} {t : Stackish.Tree D} {tag payload : Option Bytes}
    (n : EnvelopeNodes h t tag payload) : List (Bound D) := [.shared n.tagNode, .shared n.payloadNode]

/-- `NEXT` stays among the children of one node. -/
theorem stored_next {par : Option Nat} {a : Nat} {d : NodeData D} {c s : Located (NodeData D)}
    (hStored : Stored h par (.node (a, d) c s)) :
    ∃ cell, h[nextNode a (⟨d, par, s.ptr, c.ptr⟩ : Cell (NodeData D))]? = some cell ∧
      cell.parent = par := by
  cases s with
  | nil => exact ⟨_, hStored.1, rfl⟩
  | node b sc ss => exact ⟨_, hStored.2.2.1, rfl⟩

theorem nodeDecons_start {root : Nat} {cell : Cell (NodeData D)} (hCell : h[root]? = some cell)
    (errno : Nat) (copy : Bool) (rest : List Expect) :
    nodeDecons lib h errno copy root (.start :: rest) =
      deconsLoop lib h errno copy rest cell.child [] := by
  rw [nodeDecons, deconsLoop, Outcome.bind_of_ok (deref_cell hCell)]
  rfl

variable (lib) in
/-- An envelope is bound completely before the root's name is looked at. -/
theorem nodeDecons_envelope {par : Option Nat} {packet : Nat} {t : Stackish.Tree D}
    (hTree : Represents h par (some packet) t) {tag payload : Option Bytes}
    (hEnv : envelope t = some (tag, payload)) :
    ∃ n : EnvelopeNodes h t tag payload, nodeDecons lib h 0 false packet envelopeFormat =
      if rootNamed envName t then .ok (true, n.bound)
      else nodeDump lib h (some packet) true >>= fun _ => .ok (false, n.bound) := by
  obtain ⟨f, rfl, hPtr, hStored, hNodup⟩ := hTree
  match f, hPtr, hStored, hEnv with
  | .node (x, d) (.node (y, ⟨yn, .blob _⟩) yc .nil) xs, rfl, ⟨hRoot, hKids, _⟩, rfl =>
    have hTag := hKids.1
    refine ⟨⟨y, y, _, _, hTag, hTag, rfl, rfl, by simp [oneBlob, Forest.erase, Forest.map]⟩, ?_⟩
    rw [envelopeFormat, nodeDecons_start hRoot]
    simp only [Forest.ptr]
    rw [deconsLoop_blob hTag rfl]
    simp only [nextNode, Forest.ptr, Option.getD_none]
    rw [deconsLoop_blob hTag rfl]
    simp only [nextNode, Forest.ptr, Option.getD_none]
    rw [deconsLoop_word hTag rfl hRoot]
    simp only [rootNamed, Forest.erase, Forest.map, beq_iff_eq]
    rfl
  | .node (x, d) (.node (y, ⟨yn, .blob _⟩) yc (.node (z, ⟨zn, .blob _⟩) zc zs)) xs, rfl,
      ⟨hRoot, hKids, _⟩, rfl =>
    have hTag := hKids.1
    have hPayload := hKids.2.2.1
    have hNe : y ≠ z := by
      rintro rfl
      simp [Forest.addrs] at hNodup
    obtain ⟨last, hLast, hParent⟩ := stored_next hKids.2.2
    refine ⟨⟨y, z, _, _, hTag, hPayload, rfl, rfl, by simp [oneBlob, Forest.erase, Forest.map, hNe]⟩,
      ?_⟩
    rw [envelopeFormat, nodeDecons_start hRoot]
    simp only [Forest.ptr]
    rw [deconsLoop_blob hTag rfl]
    simp only [nextNode, Forest.ptr, Option.getD_some]
    rw [deconsLoop_blob hPayload rfl, deconsLoop_word hLast hParent hRoot]
    simp only [rootNamed, Forest.erase, Forest.map, beq_iff_eq]
    rfl

/-- Without an envelope, or under a stale `errno`, no payload is bound. -/
theorem nodeDecons_no_envelope {par : Option Nat} {packet errno : Nat} {t : Stackish.Tree D}
    (hTree : Represents h par (some packet) t) (hNot : errno ≠ 0 ∨ envelope t = none)
    {rc : Bool} {bound : List (Bound D)}
    (hr : nodeDecons lib h errno false packet envelopeFormat = .ok (rc, bound)) :
    rc = false ∧ bound.length ≤ 1 := by
  obtain ⟨f, rfl, hPtr, hStored, -⟩ := hTree
  match f, hPtr, hStored with
  | .node (x, d) .nil xs, rfl, ⟨hRoot, _, _⟩ =>
    rw [envelopeFormat, nodeDecons_start hRoot] at hr
    cases hr
    exact ⟨rfl, Nat.zero_le _⟩
  | .node (x, d) (.node (y, ⟨yn, yv⟩) yc ys) xs, rfl, ⟨hRoot, hKids, _⟩ =>
    rw [envelopeFormat, nodeDecons_start hRoot] at hr
    simp only [Forest.ptr] at hr
    have hFirst := hKids.1
    by_cases hTag : errno = 0 ∧ ∃ s, yv = .blob s
    · obtain ⟨rfl, s, rfl⟩ := hTag
      have hEnv := hNot.resolve_left (fun h => h rfl)
      rw [deconsLoop_blob hFirst rfl] at hr
      cases ys with
      | nil => cases hEnv
      | node z zc zs =>
        have hSecond : ∀ s, z.2.value ≠ .blob s := by
          intro s hs
          obtain ⟨z, zn, zv⟩ := z
          cases hs
          cases hEnv
        cases deconsLoop_not_blob hKids.2.2.1 (.inr hSecond) hr
        exact ⟨rfl, Nat.le_refl 1⟩
    · have hValue : errno ≠ 0 ∨ ∀ s, yv ≠ .blob s := by
        by_cases hErrno : errno = 0
        · exact .inr fun s hs => hTag ⟨hErrno, s, hs⟩
        · exact .inl hErrno
      cases deconsLoop_not_blob hFirst hValue hr
      exact ⟨rfl, Nat.zero_le _⟩

end Format

/-! ## What is returned -/

section Packet
variable {env : Env D K S} {w w' : World D K S U} {key : S} {header : Bytes} {par : Option Nat}
  {packet : Nat} {t : Stackish.Tree D}

/-- The tag variable behind CCM: the payload is decrypted in place. -/
def tagSeen (t : Stackish.Tree D) (tag : Option Bytes) (plain : Bytes) : Option Bytes :=
  if oneBlob t then some plain else tag

/-- The result for an envelope with a payload and the right name. -/
def openEnvelope (ltc : Ltc K S) (key : S) (nonce : Nonce) (header : Bytes) (t : Stackish.Tree D)
    (tag : Option Bytes) (payload : Bytes) : Option Bytes :=
  match ltc.ccmMemory .decrypt key nonce header payload with
  | none => some payload
  | some (plain, mac) => if biseq (some mac) (tagSeen t tag plain) ≠ 0 then some plain else none

theorem boundString_of_length {h : Heap D} {bound : List (Bound D)} {i : Nat} (hi : bound.length ≤ i)
    (old : Option Bytes) : boundString h bound i old = old := by
  rw [boundString, List.getElem?_eq_none hi]

theorem nodeString_blob {h : Heap D} {a : Nat} {cell : Cell (NodeData D)} (hCell : h[a]? = some cell)
    {s : Option Bytes} (hBlob : cell.data.value = .blob s) : nodeString h a = s := by
  simp [nodeString, hCell, hBlob]

theorem nodeString_putString {h : Heap D} {a b : Nat} {cell cell' : Cell (NodeData D)}
    (hCell : h[a]? = some cell) (hOther : h[b]? = some cell') (s : Bytes) {old : Option Bytes}
    (hOld : cell'.data.value = .blob old) :
    nodeString (putString h (some a) s) b = if b = a then some s else old := by
  simp only [putString, hCell]
  split
  · rename_i hEq
    subst hEq
    simp [nodeString, setData_self hCell]
  · rename_i hNe
    rw [nodeString, setData_other hNe]
    simp [hOther, hOld]

/-- What a packet without a bound payload gives. -/
theorem decryptPacket_unbound (hTree : Represents w.heap par (some packet) t)
    (hNot : w.errno ≠ 0 ∨ ∀ tag payload, envelope t ≠ some (tag, some payload)) {r : Option Bytes}
    (hr : Returns (decryptPacket env key header packet) w r w') : r = none := by
  rw [decryptPacket, returns_bind] at hr
  obtain ⟨⟨rc, bound⟩, w₁, hRun, hr⟩ := hr
  obtain ⟨hDecons, rfl⟩ := returns_decons.mp hRun
  have hNull : boundString w.clear.heap bound 1 none = none := by
    by_cases hNone : w.errno ≠ 0 ∨ envelope t = none
    · exact boundString_of_length (nodeDecons_no_envelope hTree hNone hDecons).2 none
    · rw [not_or, not_not] at hNone
      obtain ⟨hErrno, hEnv⟩ := hNone
      obtain ⟨⟨tag, payload⟩, hEnv⟩ := Option.ne_none_iff_exists'.mp hEnv
      obtain ⟨n, hBound⟩ := nodeDecons_envelope env.lib hTree hEnv
      rw [← hErrno, hDecons] at hBound
      have hb : bound = n.bound := by
        split at hBound
        · cases hBound
          rfl
        · obtain ⟨-, -, hBound⟩ := Outcome.bind_eq_ok_iff.mp hBound.symm
          cases hBound
          rfl
      have hPayload : payload = none := by
        cases payload with
        | none => rfl
        | some c => exact absurd hEnv ((hNot.resolve_left (fun h => h hErrno)) tag c)
      subst hb hPayload
      exact nodeString_blob n.payload_mem n.payload_eq
  simp only [returns_bind, returns_get, returns_check] at hr
  obtain ⟨v, t₁, ⟨rfl, rfl⟩, b, t₂, ⟨rfl, rfl⟩, hr⟩ := hr
  simp only [hNull, returns_ite, returns_pure] at hr
  rcases hr with ⟨-, rfl, -⟩ | ⟨-, hr⟩
  · rfl
  · obtain ⟨v, t₁, hGet, hr⟩ := returns_bind.mp hr
    obtain ⟨rfl, rfl⟩ := returns_get.mp hGet
    simp only [World.clear_heap] at hNull
    simp only [World.clear_heap, hNull, Option.bind_none] at hr
    obtain ⟨-, -, -, hr⟩ := returns_bind.mp hr
    exact (returns_pure.mp hr).1

/-- A packet with another name gives its payload as it came. -/
theorem decryptPacket_unnamed (hTree : Represents w.heap par (some packet) t) (hErrno : w.errno = 0)
    {tag : Option Bytes} {payload : Bytes} (hEnv : envelope t = some (tag, some payload))
    (hName : rootNamed envName t = false) {u : Unit}
    (hDump : nodeDump env.lib w.heap (some packet) true = .ok u) :
    Returns (decryptPacket env key header packet) w (some payload) w := by
  obtain ⟨n, hBound⟩ := nodeDecons_envelope env.lib hTree hEnv
  rw [hName, hDump] at hBound
  have hDecons : Returns (decons (U := U) env packet false envelopeFormat) w (false, n.bound) w :=
    returns_decons.mpr ⟨by rw [hErrno, hBound]; rfl, (World.clear_of_errno hErrno).symm⟩
  refine returns_bind.mpr ⟨_, _, hDecons, ?_⟩
  refine returns_bind.mpr ⟨_, _, returns_get.mpr ⟨rfl, rfl⟩, ?_⟩
  refine returns_bind.mpr ⟨_, _, returns_check.mpr ⟨rfl, rfl⟩, ?_⟩
  rw [World.clear_of_errno hErrno]
  exact returns_pure.mpr ⟨(nodeString_blob n.payload_mem n.payload_eq).symm, rfl⟩

theorem decryptPacket_dumps (hTree : Represents w.heap par (some packet) t) (hErrno : w.errno = 0)
    {tag payload : Option Bytes} (hEnv : envelope t = some (tag, payload))
    (hName : rootNamed envName t = false) {r : Option Bytes}
    (hr : Returns (decryptPacket env key header packet) w r w') :
    ∃ u, nodeDump env.lib w.heap (some packet) true = .ok u := by
  rw [decryptPacket, returns_bind] at hr
  obtain ⟨res, w₁, hRun, -⟩ := hr
  obtain ⟨hDecons, -⟩ := returns_decons.mp hRun
  obtain ⟨n, hBound⟩ := nodeDecons_envelope env.lib hTree hEnv
  rw [← hErrno, hDecons, hName] at hBound
  obtain ⟨u, hDump, -⟩ := Outcome.bind_eq_ok_iff.mp hBound.symm
  exact ⟨u, hDump⟩

/-- `CryptState_nonce_inc(&state->me.nonce)` -/
def CryptState.bump (st : CryptState K S) : CryptState K S :=
  { st with me := { st.me with nonce := st.me.nonce.inc } }

variable (env key header) in
/-- A packet with the right name. The nonce is used up by CCM, whatever the tag says. -/
theorem decryptPacket_named (hTree : Represents w.heap par (some packet) t) (hErrno : w.errno = 0)
    {tag : Option Bytes} {payload : Bytes} (hEnv : envelope t = some (tag, some payload))
    (hName : rootNamed envName t = true) :
    ∃ w', Returns (decryptPacket env key header packet) w
        (openEnvelope env.ltc key w.state.me.nonce header t tag payload) w' ∧
      (env.ltc.ccmMemory .decrypt key w.state.me.nonce header payload ≠ none →
        w' = { w with heap := w'.heap, state := w.state.bump }) := by
  obtain ⟨n, hBound⟩ := nodeDecons_envelope env.lib hTree hEnv
  rw [hName, if_pos rfl] at hBound
  have hDecons : Returns (decons (U := U) env packet false envelopeFormat) w (true, n.bound) w :=
    returns_decons.mpr ⟨by rw [hErrno, hBound], (World.clear_of_errno hErrno).symm⟩
  have hPayload : boundString w.heap n.bound 1 none = some payload :=
    nodeString_blob n.payload_mem n.payload_eq
  have hOpen : ∀ {r w'}, Returns (openPayload env key header n.bound) w r w' →
      Returns (decryptPacket env key header packet) w r w' := by
    intro r w' h
    refine returns_bind.mpr ⟨_, _, hDecons, ?_⟩
    refine returns_bind.mpr ⟨_, _, returns_get.mpr ⟨rfl, rfl⟩, ?_⟩
    refine returns_bind.mpr ⟨_, _, returns_check.mpr ⟨rfl, rfl⟩, ?_⟩
    rw [World.clear_of_errno hErrno]
    simp only [hErrno]
    exact h
  cases hCcm : env.ltc.ccmMemory .decrypt key w.state.me.nonce header payload with
  | none =>
    refine ⟨w, hOpen ?_, fun h => absurd rfl h⟩
    refine returns_bind.mpr ⟨_, _, returns_get.mpr ⟨rfl, rfl⟩, ?_⟩
    simp only [hPayload, Option.bind_some, hCcm, openEnvelope]
    refine returns_bind.mpr ⟨_, _, returns_check.mpr ⟨rfl, rfl⟩, ?_⟩
    exact returns_pure.mpr ⟨rfl, (World.clear_of_errno hErrno).symm⟩
  | some out =>
    obtain ⟨plain, mac⟩ := out
    let w₁ : World D K S U := { w with heap := putString w.heap (some n.payloadNode) plain }
    let w₂ : World D K S U := { w₁ with state := w.state.bump }
    have hClear₁ : w₁.clear = w₁ := World.clear_of_errno (w := w₁) hErrno
    have hClear₂ : w₂.clear = w₂ := World.clear_of_errno (w := w₂) hErrno
    have hTag : boundString w₂.heap n.bound 0 none = tagSeen t tag plain := by
      refine (nodeString_putString n.payload_mem n.tag_mem plain n.tag_eq).trans ?_
      simp only [n.one_iff, tagSeen]
    have hPlain : boundString w₂.heap n.bound 1 none = some plain := by
      refine (nodeString_putString n.payload_mem n.payload_mem plain n.payload_eq).trans ?_
      rw [if_pos rfl]
    refine ⟨w₂, hOpen ?_, fun _ => rfl⟩
    refine returns_bind.mpr ⟨_, _, returns_get.mpr ⟨rfl, rfl⟩, ?_⟩
    simp only [hPayload, Option.bind_some, hCcm, openEnvelope]
    refine returns_bind.mpr ⟨(), w₁, returns_modify.mpr rfl, ?_⟩
    refine returns_bind.mpr ⟨true, w₁, returns_check.mpr ⟨by simp [w₁, hErrno], hClear₁.symm⟩, ?_⟩
    refine returns_bind.mpr ⟨(), w₂, returns_modifyState.mpr rfl, ?_⟩
    refine returns_bind.mpr ⟨_, _, returns_get.mpr ⟨rfl, rfl⟩, ?_⟩
    refine returns_bind.mpr ⟨_, w₂, returns_check.mpr ⟨rfl, hClear₂.symm⟩, ?_⟩
    rw [hTag, hPlain]
    by_cases hSame : biseq (some mac) (tagSeen t tag plain) = 0
    · simp [hSame, returns_pure]
    · simp [hSame, returns_pure, w₂, w₁, hErrno]

/-! ## Authenticity -/

/-- `plain` is what CCM made of the packet's payload, under the packet's own tag and name. -/
def Authentic (ltc : Ltc K S) (key : S) (nonce : Nonce) (header : Bytes) (t : Stackish.Tree D)
    (plain : Bytes) : Prop :=
  rootNamed envName t = true ∧ ∃ tag payload, envelope t = some (some tag, some payload) ∧
    ltc.ccmMemory .decrypt key nonce header payload = some (plain, tag)

/-- A packet from which a payload is bound is rightly named, unless the log line about its name
stops the process, CCM accepts the payload, the tag is there, and a payload that is its own tag
is not told apart from the plaintext. -/
def SoundPacket (env : Env D K S) (w : World D K S U) (key : S) (header : Bytes) (packet : Nat)
    (t : Stackish.Tree D) : Prop :=
  ∀ tag payload, w.errno = 0 → envelope t = some (tag, some payload) →
    (rootNamed envName t = false → ∀ u, nodeDump env.lib w.heap (some packet) true ≠ .ok u) ∧
    (rootNamed envName t = true → ∃ plain mac,
      env.ltc.ccmMemory .decrypt key w.state.me.nonce header payload = some (plain, mac) ∧
      tag ≠ none ∧ (oneBlob t = true → plain = mac → payload = mac))

theorem biseq_ne_zero {a : Bytes} {b : Option Bytes} :
    biseq (some a) b ≠ 0 ↔ b = none ∨ b = some a := by
  cases b with
  | none => simp [biseq]
  | some b => simp [biseq, eq_comm]

theorem envelope_oneBlob {tag payload : Option Bytes} (hEnv : envelope t = some (tag, payload))
    (hOne : oneBlob t = true) : tag = payload := by
  match t, hEnv with
  | .node _ (.node ⟨_, .blob _⟩ _ .nil) _, rfl => rfl

/-- What comes out of a sound packet is authentic. -/
theorem SoundPacket.authentic (hSound : SoundPacket env w key header packet t)
    (hTree : Represents w.heap par (some packet) t) {plain : Bytes}
    (hr : Returns (decryptPacket env key header packet) w (some plain) w') :
    Authentic env.ltc key w.state.me.nonce header t plain ∧ w'.state = w.state.bump := by
  by_cases hBound : w.errno ≠ 0 ∨ ∀ tag payload, envelope t ≠ some (tag, some payload)
  · cases decryptPacket_unbound hTree hBound hr
  · push Not at hBound
    obtain ⟨hErrno, tag, payload, hEnv⟩ := hBound
    obtain ⟨hUnnamed, hNamed⟩ := hSound tag payload hErrno hEnv
    cases hName : rootNamed envName t with
    | false =>
      obtain ⟨u, hDump⟩ := decryptPacket_dumps hTree hErrno hEnv hName hr
      exact absurd hDump (hUnnamed hName u)
    | true =>
      obtain ⟨plain', mac, hCcm, hTag, hOne⟩ := hNamed hName
      obtain ⟨w'', hResult, hState⟩ := decryptPacket_named env key header hTree hErrno hEnv hName
      obtain ⟨hPlain, rfl⟩ := hr.unique hResult
      refine ⟨⟨hName, ?_⟩, congrArg World.state (hState (by rw [hCcm]; exact Option.some_ne_none _))⟩
      simp only [openEnvelope, hCcm] at hPlain
      split at hPlain
      · rename_i hSame
        cases hPlain
        rcases biseq_ne_zero.mp hSame with hNull | hMac
        · simp only [tagSeen] at hNull
          split at hNull
          · cases hNull
          · exact absurd hNull hTag
        · simp only [tagSeen] at hMac
          split at hMac
          · rename_i hBlob
            have hEq := hOne hBlob (Option.some.inj hMac)
            have hSelf := envelope_oneBlob hEnv hBlob
            exact ⟨mac, payload, by rw [hEnv, hSelf, hEq], hCcm⟩
          · exact ⟨mac, payload, by rw [hEnv, hMac], hCcm⟩
      · cases hPlain

/-- `CryptState_decrypt_packet` and `CryptState_decrypt_node` give out nothing but authentic
plaintext, and the node that is its parse. -/
def DecryptsAuthentic (env : Env D K S) (w : World D K S U) (key : S) (header : Bytes) (packet : Nat)
    (t : Stackish.Tree D) : Prop :=
  (∀ plain w', Returns (decryptPacket env key header packet) w (some plain) w' →
    Authentic env.ltc key w.state.me.nonce header t plain) ∧
  ∀ node w', Returns (decryptNode env key header packet) w (some node) w' →
    ∃ plain, ∃ w₁ w₂ : World D K S U, Authentic env.ltc key w.state.me.nonce header t plain ∧
      Returns (parse env plain) w₁ (some node) w₂

/-- A node from `CryptState_decrypt_node` is the parse of what was decrypted. -/
theorem decryptNode_cases {node : Nat}
    (hr : Returns (decryptNode env key header packet) w (some node) w') :
    ∃ plain w₁ w₂, Returns (decryptPacket env key header packet) w (some plain) w₁ ∧
      Returns (parse env plain) w₁.clear (some node) w₂ ∧ w' = w₂.clear := by
  obtain ⟨out, w₁, hPacket, hr⟩ := returns_bind.mp hr
  cases out with
  | none =>
    obtain ⟨-, -, -, hr⟩ := returns_bind.mp hr
    cases (returns_pure.mp hr).1
  | some plain =>
    simp only [returns_bind, returns_check, returns_ite, returns_pure] at hr
    obtain ⟨b, t₁, ⟨-, rfl⟩, ⟨-, h, -⟩ | ⟨-, payload, w₂, hParse, b', t₂, ⟨-, rfl⟩, rfl, rfl⟩⟩ := hr
    · cases h
    · exact ⟨plain, w₁, w₂, hPacket, hParse, rfl⟩

theorem decryptsAuthentic_iff (env : Env D K S) (w : World D K S U) (key : S) (header : Bytes)
    (hTree : Represents w.heap par (some packet) t) :
    DecryptsAuthentic env w key header packet t ↔ SoundPacket env w key header packet t := by
  constructor
  · rintro ⟨hPacket, -⟩ tag payload hErrno hEnv
    refine ⟨fun hName u hDump => ?_, fun hName => ?_⟩
    · obtain ⟨hNamed, -⟩ := hPacket payload w (decryptPacket_unnamed hTree hErrno hEnv hName hDump)
      rw [hName] at hNamed
      cases hNamed
    · obtain ⟨w', hResult, -⟩ := decryptPacket_named env key header hTree hErrno hEnv hName
      cases hCcm : env.ltc.ccmMemory .decrypt key w.state.me.nonce header payload with
      | none =>
        simp only [openEnvelope, hCcm] at hResult
        obtain ⟨-, tag', payload', hEnv', hCcm'⟩ := hPacket _ _ hResult
        rw [hEnv] at hEnv'
        cases hEnv'
        rw [hCcm] at hCcm'
        cases hCcm'
      | some out =>
        obtain ⟨plain, mac⟩ := out
        have hAccepted : biseq (some mac) (tagSeen t tag plain) ≠ 0 → tag = some mac := by
          intro hSame
          simp only [openEnvelope, hCcm, if_pos hSame] at hResult
          obtain ⟨-, tag', payload', hEnv', hCcm'⟩ := hPacket _ _ hResult
          rw [hEnv] at hEnv'
          cases hEnv'
          rw [hCcm] at hCcm'
          cases hCcm'
          rfl
        refine ⟨plain, mac, rfl, ?_, fun hOne hPlain => ?_⟩
        · rintro rfl
          have hTwo : oneBlob t = false := by
            cases hOne : oneBlob t with
            | false => rfl
            | true => cases envelope_oneBlob hEnv hOne
          have hTag := hAccepted (by simp [tagSeen, hTwo, biseq])
          cases hTag
        · have hTag := hAccepted (by simp [tagSeen, hOne, hPlain, biseq])
          have hSelf := envelope_oneBlob hEnv hOne
          rw [hTag] at hSelf
          exact (Option.some.inj hSelf).symm
  · intro hSound
    refine ⟨fun plain w' hr => (hSound.authentic hTree hr).1, fun node w' hr => ?_⟩
    obtain ⟨plain, w₁, w₂, hPacket, hParse, -⟩ := decryptNode_cases hr
    exact ⟨plain, w₁.clear, w₂, (hSound.authentic hTree hPacket).1, hParse⟩

end Packet

/-! ## Samples -/

/-- A cipher that flips bits and gives every text the same tag of sixteen bytes. -/
def sampleLtc : Ltc Unit Unit where
  ccmMemory _ _ _ _ text := some (text.map (· ^^^ 85), List.replicate 16 170)
  ccm_length h := by
    cases h
    exact List.length_map _
  rijndaelSetup _ := some ()
  eccMakeKey random := some ((), random)
  eccImport _ := some ()
  eccExport _ _ := some [7]
  eccSharedSecret _ _ := some [8]
  hashMemory text := some (text.take 32)
  eccVerifyHash _ _ _ := some true
  noKey := ()
  noSkey := ()

def sampleEnv : Env Unit Unit Unit := ⟨noDoubles, sampleLtc, 100⟩

def samplePeer (name : Option Bytes) : CryptPeer Unit Unit := ⟨name, ⟨0, 0⟩, (), some [9], ()⟩

def sampleWorld {U : Type} (heap : Heap Unit) (data : U) : World Unit Unit Unit U :=
  ⟨heap, 0, ⟨samplePeer (some [109, 101]), samplePeer none, ()⟩, [], data⟩

/-- A packet of the given name with the text `b` as its payload and the sample tag. -/
def packetHeap (name : Bytes) : Heap Unit :=
  [⟨⟨some name, .group⟩, none, none, some 1⟩,
    ⟨⟨none, .blob (some (List.replicate 16 170))⟩, some 0, some 2, none⟩,
    ⟨⟨none, .blob (some [98])⟩, some 0, none, none⟩]

def packetTree (name : Bytes) : Stackish.Tree Unit :=
  .node ⟨some name, .group⟩
    (.node ⟨none, .blob (some (List.replicate 16 170))⟩ .nil
      (.node ⟨none, .blob (some [98])⟩ .nil .nil)) .nil

theorem packetHeap_represents (name : Bytes) :
    Represents (packetHeap name) none (some 0) (packetTree name) :=
  ⟨.node (0, ⟨some name, .group⟩) (.node (1, ⟨none, .blob (some (List.replicate 16 170))⟩) .nil
    (.node (2, ⟨none, .blob (some [98])⟩) .nil .nil)) .nil,
    rfl, rfl, ⟨rfl, ⟨rfl, trivial, rfl, trivial, trivial⟩, trivial⟩, by simp [Forest.addrs]⟩

theorem decryptsAuthentic_env :
    DecryptsAuthentic sampleEnv (sampleWorld (packetHeap envName) ()) () [] 0 (packetTree envName) := by
  refine (decryptsAuthentic_iff sampleEnv _ () [] (packetHeap_represents envName)).mpr ?_
  rintro tag payload - ⟨⟩
  exact ⟨nofun, fun _ => ⟨_, _, rfl, nofun, nofun⟩⟩

/-- A packet named `x` gives its payload out undecrypted. -/
theorem not_decryptsAuthentic_x :
    Represents (packetHeap [120]) none (some 0) (packetTree [120]) ∧
      ¬ DecryptsAuthentic sampleEnv (sampleWorld (packetHeap [120]) ()) () [] 0 (packetTree [120]) := by
  refine ⟨packetHeap_represents [120], fun h => ?_⟩
  have hReturns : Returns (decryptPacket sampleEnv () [] 0) (sampleWorld (packetHeap [120]) ())
      (some [98]) (sampleWorld (packetHeap [120]) ()) :=
    decryptPacket_unnamed (packetHeap_represents [120]) rfl rfl rfl (u := ()) rfl
  cases (h.1 _ _ hReturns).1

end Utu.Protocol
