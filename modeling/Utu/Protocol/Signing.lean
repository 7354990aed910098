import Utu.Protocol.Messages
import Utu.Protocol.Signature
import Utu.Stackish.Dump

/-!
# Signing

`CryptState_sign_node` prints a node, signs the hash of the text and packs text,
hash, signature, public key and name as blobs. `CryptState_verify_signature`
takes them out in another order and parses the text again.
-/

namespace Utu.Protocol
open Stackish LinkedForest Procedure
set_option autoImplicit false

variable {D K S U : Type}

/-- `ecc_sign_hash` with the random numbers it starts from and leaves; `none` is every result but
`CRYPT_OK`. -/
abbrev SignHash (K : Type) := List Bytes → Bytes → K → Option (Bytes × List Bytes)

/-- `message` -/
def messageName : Bytes := [109, 101, 115, 115, 97, 103, 101]

/-- `identity` -/
def identityName : Bytes := [105, 100, 101, 110, 116, 105, 116, 121]

/-- `signed` -/
def signedName : Bytes := [115, 105, 103, 110, 101, 100]

section Model
variable (env : Env D K S) (signHash : SignHash K)

/-- `CryptState_hash` -/
def cryptHash (data : Bytes) : Call D K S U (Option Bytes) := do
  let hash := env.ltc.hashMemory data
  if ← check hash.isSome then return hash
  return none

/-- The standard signature node: `[ [ 'payload' 'hash' 'signature' message [ 'pubkey' 'name' identity signed`. -/
def signedPieces (payload hash signature : Bytes) (publicKey name : Option Bytes) : List (Piece D) :=
  [.start, .start, .blob (some payload), .blob (some hash), .blob (some signature), .word messageName,
    .start, .blob publicKey, .blob name, .word identityName, .word signedName]

/-- `CryptState_sign_node` -/
def signNode (privateKey : K) (name : Option Bytes) (input : Option Nat) : Call D K S U (Option Nat) := do
  let payload ← bstr env input
  if !(← check true) then return none
  match ← cryptHash env payload with
  | none =>
    let _ ← check false
    return none
  | some hash =>
    if !(← check true) then return none
    let w ← get
    match signHash w.random hash privateKey with
    | none =>
      let _ ← check false
      return none
    | some (signature, random) =>
      set { w with random }
      if !(← check true) then return none
      let publicKey ← eccKeyBstr env privateKey .pkPublic
      let result ← cons (signedPieces payload hash signature publicKey name)
      if !(← check result.isSome) then return none
      return result

end Model

/-! ## The signed message -/

def signedElems (payload hash signature publicKey name : Bytes) : Elems :=
  .group (.leaf (.blob payload) none (.leaf (.blob hash) none (.leaf (.blob signature) none .nil))) (.word messageName)
    (.group (.leaf (.blob publicKey) none (.leaf (.blob name) none .nil)) (.word identityName) .nil)

theorem signedElems_sound (payload hash signature publicKey name : Bytes) :
    (signedElems payload hash signature publicKey name).Sound := by
  have hLeaf : leafName none := leafName_none
  refine ⟨?_, ⟨hLeaf, by simp, hLeaf, by simp, hLeaf, by simp, trivial⟩, ?_, ⟨hLeaf, by simp, hLeaf, by simp, trivial⟩,
    trivial⟩
  · rintro n ⟨⟩
    exact .inl (by decide)
  · rintro n ⟨⟩
    exact .inl (by decide)

theorem signedElems_makesNew (payload hash signature publicKey name : Bytes) :
    ∀ p ∈ ((signedElems payload hash signature publicKey name).format : List (Piece D)), p.makesNew = true := by
  simp [signedElems, Elems.format, Close.pieces, Leaf.piece, Piece.makesNew]

theorem rootName_signed : rootName (some signedName) := by
  rintro n ⟨⟩
  decide

/-- The message as a document. -/
def signedDocument (payload hash signature publicKey name : Bytes) : Document D :=
  (signedElems payload hash signature publicKey name).document (some signedName) rootName_signed
    (signedElems_sound payload hash signature publicKey name)

theorem tokens_signed (payload hash signature publicKey name : Bytes) :
    tokens ((signedElems payload hash signature publicKey name).tree (some signedName) : Stackish.Tree D) =
      [.start, .start, .blob (some payload), .blob (some hash), .blob (some signature), .word messageName,
        .start, .blob (some publicKey), .blob (some name), .word identityName, .word signedName] := by
  simp [signedElems, Elems.tree, Elems.kids, tokens, startTokens, valueTokens, nameTokens, Leaf.value, Close.name,
    messageName, identityName, signedName, bchar, cstr]

/-- Without strings nothing is left out of the text. -/
theorem fits_of_printed {lib : DoubleLib D} {payload hash signature publicKey name : Bytes} {heap : Heap D} {node : Nat}
    (hTree : Represents heap none (some node)
      ((signedElems payload hash signature publicKey name).tree (some signedName)))
    {out : Bytes} (h : nodeBstr lib heap (some node) true = .ok out) :
    Fits ((signedElems payload hash signature publicKey name).tree (some signedName) : Stackish.Tree D) := by
  let doc : Document D := signedDocument payload hash signature publicKey name
  obtain ⟨⟨hOther, hRoom⟩, -⟩ := (nodeBstr_ok_iff doc.floatFree_all doc.tree_ne_nil hTree).mp h
  have hNone : ∀ tok ∈ tokens doc.tree, tok.isString = false := by
    simp only [doc, signedDocument, Elems.document_tree, tokens_signed]
    simp [Token.isString]
  rw [written_keeps hNone] at hRoom
  refine ⟨fun tok hTok => (hOther tok hTok).resolve_left ?_, hRoom⟩
  simp [hNone tok hTok]

section Sign
variable {env : Env D K S} {signHash : SignHash K} {w w' : World D K S U}

theorem returns_cryptHash {data : Bytes} {hash : Option Bytes} :
    Returns (cryptHash env data) w hash w' ↔
      hash = (if w.errno = 0 then env.ltc.hashMemory data else none) ∧ w' = w.clear := by
  simp only [cryptHash, returns_bind, returns_check, returns_ite, returns_pure]
  cases hHash : env.ltc.hashMemory data <;> by_cases hErrno : w.errno = 0 <;> simp [hErrno]

/-- What `CryptState_sign_node` did when it returns a node. -/
structure Signs (env : Env D K S) (signHash : SignHash K) (key : K) (name : Option Bytes) (input : Option Nat)
    (w : World D K S U) (payload hash signature : Bytes) (node : Nat) (w' : World D K S U) : Prop where
  errno : w.errno = 0
  printed : nodeBstr env.lib w.heap input true = .ok payload
  hashed : env.ltc.hashMemory payload = some hash
  signed : signHash w.random hash key = some (signature, w'.random)
  built : nodeCons w.heap 0 (signedPieces payload hash signature (env.ltc.eccExport .pkPublic key) name) =
    .ok (some node, w'.heap)
  rest : w' = { w with heap := w'.heap, random := w'.random }

theorem returns_signNode {key : K} {name : Option Bytes} {input : Option Nat} {node : Nat} :
    Returns (signNode env signHash key name input) w (some node) w' ↔
      ∃ payload hash signature, Signs env signHash key name input w payload hash signature node w' := by
  constructor
  · intro h
    obtain ⟨payload, w₁, hPrint, h₁⟩ := returns_bind.mp h
    obtain ⟨hBstr, rfl⟩ := returns_bstr.mp hPrint
    rcases returns_checkElse.mp h₁ with ⟨-, h₂⟩ | ⟨hGo, h₂⟩
    · cases (returns_pure.mp h₂).1
    have hErrno : w₁.errno = 0 := by simpa using hGo
    rw [World.clear_of_errno hErrno] at h₂
    obtain ⟨hash, w₂, hRun, h₃⟩ := returns_bind.mp h₂
    obtain ⟨hHash, rfl⟩ := returns_cryptHash.mp hRun
    rw [if_pos hErrno] at hHash
    rw [World.clear_of_errno hErrno] at h₃
    cases hash with
    | none =>
      obtain ⟨b, t, hCheck, h₄⟩ := returns_bind.mp h₃
      cases (returns_pure.mp h₄).1
    | some hash =>
      rcases returns_checkElse.mp h₃ with ⟨-, h₄⟩ | ⟨-, h₄⟩
      · cases (returns_pure.mp h₄).1
      rw [World.clear_of_errno hErrno] at h₄
      obtain ⟨v, t, hGet, h₅⟩ := returns_bind.mp h₄
      obtain ⟨rfl, rfl⟩ := returns_get.mp hGet
      split at h₅
      · obtain ⟨b, t, hCheck, h₆⟩ := returns_bind.mp h₅
        cases (returns_pure.mp h₆).1
      · rename_i signature random hSign
        obtain ⟨u, t, hSet, h₆⟩ := returns_bind.mp h₅
        obtain rfl := returns_set.mp hSet
        rcases returns_checkElse.mp h₆ with ⟨-, h₇⟩ | ⟨-, h₇⟩
        · cases (returns_pure.mp h₇).1
        obtain ⟨blob, t, hKey, h₈⟩ := returns_bind.mp h₇
        obtain ⟨rfl, rfl⟩ := returns_exportKey.mp hKey
        obtain ⟨result, t, hCons, h₉⟩ := returns_bind.mp h₈
        obtain ⟨heap, hBuilt, rfl⟩ := returns_cons.mp hCons
        rcases returns_checkElse.mp h₉ with ⟨-, hExit⟩ | ⟨-, hEnd⟩
        · cases (returns_pure.mp hExit).1
        obtain ⟨rfl, rfl⟩ := returns_pure.mp hEnd
        exact ⟨payload, hash, signature, hErrno, hBstr, hHash.symm, hSign, hBuilt, by simp [World.clear, hErrno]⟩
  · rintro ⟨payload, hash, signature, h⟩
    obtain ⟨hErrno, hBstr, hHash, hSign, hBuilt, hRest⟩ := h
    have hClear : w.clear = w := World.clear_of_errno hErrno
    refine returns_bind.mpr ⟨_, _, returns_bstr.mpr ⟨hBstr, rfl⟩, ?_⟩
    refine returns_checkElse.mpr (.inr ⟨by simp [hErrno], ?_⟩)
    refine returns_bind.mpr ⟨some hash, w, returns_cryptHash.mpr ⟨by simp [hHash], by rw [hClear, hClear]⟩, ?_⟩
    refine returns_checkElse.mpr (.inr ⟨by simp [hErrno], ?_⟩)
    refine returns_bind.mpr ⟨_, _, returns_get.mpr ⟨rfl, rfl⟩, ?_⟩
    simp only [World.clear_random, hSign]
    refine returns_bind.mpr ⟨(), _, returns_set.mpr rfl, ?_⟩
    refine returns_checkElse.mpr (.inr ⟨by simp, ?_⟩)
    refine returns_bind.mpr ⟨_, _, returns_exportKey.mpr ⟨rfl, rfl⟩, ?_⟩
    refine returns_bind.mpr ⟨_, _, returns_cons.mpr ⟨_, hBuilt, rfl⟩, ?_⟩
    refine returns_checkElse.mpr (.inr ⟨by simp, ?_⟩)
    refine returns_pure.mpr ⟨rfl, ?_⟩
    rw [hRest, World.clear]
    simp [hErrno]

/-- A signed node holds the message. -/
theorem Signs.holds {key : K} {name pub : Bytes} {input : Option Nat} {payload hash signature : Bytes} {node : Nat}
    (h : Signs env signHash key (some name) input w payload hash signature node w')
    (hPub : env.ltc.eccExport .pkPublic key = some pub) :
    w'.Holds node ((signedElems payload hash signature pub name).tree (some signedName)) ∧
      Extends w.heap w'.heap := by
  have hBuilt := h.built
  rw [hPub] at hBuilt
  obtain ⟨root, heap, hCons, hTree, hExt⟩ := nodeCons_message w.heap
    (signedElems payload hash signature pub name) (some signedName) (signedElems_makesNew _ _ _ _ _)
  obtain ⟨rfl, hHeap⟩ : root = node ∧ heap = w'.heap := by simpa using hCons.symm.trans hBuilt
  rw [World.Holds, ← hHeap]
  exact ⟨hTree, hExt⟩

/-- The format of `CryptState_verify_signature` takes the message apart. -/
theorem signedAs_message {payload hash signature pub name : Bytes} {node : Nat} (hErrno : w.errno = 0)
    (hTree : w.Holds node ((signedElems payload hash signature pub name).tree (some signedName))) :
    SignedAs env w node ⟨some name, some pub, some signature, some hash, some payload⟩ := by
  obtain ⟨bound, hDecons, hBound⟩ := nodeDecons_message env.lib false (by simp [signedElems])
    (by simp [signedElems, Elems.Full]) hTree
  refine ⟨bound, ?_, ?_⟩
  · rw [hErrno]
    exact hDecons
  · rw [signedParts, boundString_stores hBound (.inr rfl), boundString_stores hBound (.inr rfl),
      boundString_stores hBound (.inr rfl), boundString_stores hBound (.inr rfl), boundString_stores hBound (.inr rfl)]

theorem SignedAs.unique {node : Nat} {parts parts' : SignedParts} (h : SignedAs env w node parts)
    (h' : SignedAs env w node parts') : parts = parts' := by
  obtain ⟨bound, hDecons, rfl⟩ := h
  obtain ⟨bound', hDecons', rfl⟩ := h'
  cases hDecons.symm.trans hDecons'
  rfl

/-- Under a stale `errno` every message is turned away. -/
theorem returns_verify_stale (env : Env D K S) {node : Nat} {t : Stackish.Tree D} (hErrno : w.errno ≠ 0)
    (hTree : w.Holds node t) (name : Option Bytes) (stat : Bool) :
    Returns (verifySignature env name node stat) w (none, stat, none) w.clear := by
  obtain ⟨bound, hDecons⟩ := nodeDecons_stale env.lib hTree false hErrno signedFormat
  refine returns_bind.mpr ⟨_, _, returns_decons.mpr ⟨hDecons, rfl⟩, ?_⟩
  refine returns_bind.mpr ⟨_, _, returns_get.mpr ⟨rfl, rfl⟩, ?_⟩
  refine returns_checkElse.mpr (.inl ⟨rfl, returns_pure.mpr ⟨rfl, ?_⟩⟩)
  exact (World.clear_of_errno rfl).symm

/-- A message with another name than the expected one is turned away. -/
theorem returns_verify_misnamed {node : Nat} {parts : SignedParts} {name : Option Bytes} (hErrno : w.errno = 0)
    (hSigned : SignedAs env w node parts) (hName : biseq parts.name name = 0) (stat : Bool) :
    Returns (verifySignature env name node stat) w (none, stat, none) w := by
  obtain ⟨bound, hDecons, rfl⟩ := hSigned
  have hClear : w.clear = w := World.clear_of_errno hErrno
  refine returns_bind.mpr ⟨_, _, returns_decons.mpr ⟨hDecons, hClear.symm⟩, ?_⟩
  refine returns_bind.mpr ⟨_, _, returns_get.mpr ⟨rfl, rfl⟩, ?_⟩
  refine returns_checkElse.mpr (.inr ⟨by simp [hErrno], ?_⟩)
  simp only [signedParts] at hName
  refine returns_checkElse.mpr (.inl ⟨by simp [hName], ?_⟩)
  exact returns_pure.mpr ⟨rfl, by rw [hClear, hClear]⟩

end Sign

/-! ## Signing and verifying -/

/-- The library signs with this key, and `pk` is the public part of it, exported as `pub`. -/
structure SoundSigning (ltc : Ltc K S) (signHash : SignHash K) (key pk : K) (pub : Bytes) : Prop where
  hashes : ∀ data, ∃ hash, ltc.hashMemory data = some hash
  signs : ∀ random hash, ∃ signature random', signHash random hash key = some (signature, random')
  exported : ltc.eccExport .pkPublic key = some pub
  imported : ltc.eccImport pub = some pk
  verifies : ∀ {random hash signature random'}, signHash random hash key = some (signature, random') →
    ltc.eccVerifyHash (some signature) (some hash) pk = some true

/-- The node is a signature of the tree: with the name of the signer it comes back, with the key; with
any other name nothing does. -/
def VerifiesTo (env : Env D K S) (w : World D K S U) (node : Nat) (name : Bytes) (pk : K)
    (t : Stackish.Tree D) : Prop :=
  ∀ stat : Bool,
    (∃ out w', Settles (fun fuel => verifySignature { env with fuel } (some name) node stat) w
      (some out, true, some pk) w' ∧ w'.Holds out t) ∧
    ∀ other, other ≠ name → ∃ w',
      Settles (fun fuel => verifySignature { env with fuel } (some other) node stat) w (none, stat, none) w'

/-- `CryptState_sign_node` gives a signature of the tree, and so does its text once it is parsed,
wherever that is. -/
def SignVerifies (env : Env D K S) (signHash : SignHash K) (key pk : K) (name : Bytes) (w : World D K S U) (input : Nat)
    (t : Stackish.Tree D) : Prop :=
  ∃ signed w₁ wire w₂, Returns (signNode env signHash key (some name) (some input)) w (some signed) w₁ ∧
    VerifiesTo env w₁ signed name pk t ∧
    Returns (bstr env (some signed)) w₁ wire w₂ ∧
    ∀ v : World D K S U, v.errno = 0 →
      ∃ again v', Settles (fun fuel => parse { env with fuel } wire) v (some again) v' ∧
      VerifiesTo env v' again name pk t

section SignVerify
variable {env : Env D K S} {signHash : SignHash K} {key pk : K} {pub : Bytes}

/-- A signed document that fits is verified and comes back. -/
theorem settles_verify_message (hSound : SoundSigning env.ltc signHash key pk pub) {random random' : List Bytes}
    {hash signature name : Bytes} (hSign : signHash random hash key = some (signature, random')) {t : Document D}
    (hFits : Fits t.tree) {v : World D K S U} (hErrno : v.errno = 0) {node : Nat}
    (hTree : v.Holds node ((signedElems t.encode hash signature pub name).tree (some signedName))) (stat : Bool) :
    ∃ out heap, Settles (fun fuel => verifySignature { env with fuel } (some name) node stat) v
        (some out, true, some pk) (v.grown heap) ∧ (v.grown heap).Holds out t.tree ∧ Extends v.heap heap := by
  obtain ⟨out, heap, ⟨n, hParse⟩, hOut, hExt⟩ := settles_parse_document env hErrno hFits
  refine ⟨out, heap, ⟨n, fun fuel hLe => ?_⟩, hOut, hExt⟩
  refine returns_verifySignature.mpr ⟨_, pk, t.encode, v.grown heap, signedAs_message hErrno hTree, ?_, rfl, ?_⟩
  · refine ⟨?_, ⟨pub, rfl, hSound.imported⟩, hSound.verifies hSign, rfl, ?_⟩
    · exact biseq_ne_zero.mpr (.inr rfl)
    · rw [World.clear_of_errno hErrno]
      exact hParse fuel hLe
  · exact (World.clear_of_errno (w := v.grown heap) hErrno).symm

theorem verifiesTo_message (hSound : SoundSigning env.ltc signHash key pk pub) {random random' : List Bytes}
    {hash signature name : Bytes} (hSign : signHash random hash key = some (signature, random')) {t : Document D}
    (hFits : Fits t.tree) {v : World D K S U} (hErrno : v.errno = 0) {node : Nat}
    (hTree : v.Holds node ((signedElems t.encode hash signature pub name).tree (some signedName))) :
    VerifiesTo env v node name pk t.tree := by
  intro stat
  constructor
  · obtain ⟨out, heap, hSettles, hOut, -⟩ := settles_verify_message hSound hSign hFits hErrno hTree stat
    exact ⟨out, v.grown heap, hSettles, hOut⟩
  · intro other hOther
    refine ⟨v, settles_of_returns fun fuel => ?_⟩
    refine returns_verify_misnamed hErrno (signedAs_message hErrno hTree) ?_ stat
    by_contra hName
    rcases biseq_ne_zero.mp hName with hNone | hSame
    · cases hNone
    · exact hOther (Option.some.inj hSame)

variable {name : Bytes} {w : World D K S U} {input : Nat} {t : Document D}

/-- A node that verifies holds the text of a document that fits. -/
theorem fits_of_verifiesTo {v : World D K S U} {signed : Nat} {payload hash signature : Bytes} (hErrno : v.errno = 0)
    (hTree : v.Holds signed ((signedElems payload hash signature pub name).tree (some signedName)))
    {heap : Heap D} (hInput : Represents heap none (some input) t.tree)
    (hPrint : nodeBstr env.lib heap (some input) true = .ok payload) (h : VerifiesTo env v signed name pk t.tree) :
    Fits t.tree := by
  obtain ⟨⟨out, w', ⟨n, hSettles⟩, hOut⟩, -⟩ := h false
  obtain ⟨parts, key, payload', w₁, hSigned, hPasses, -, rfl⟩ := returns_verifySignature.mp (hSettles n (Nat.le_refl n))
  have hParts := hSigned.unique (signedAs_message hErrno hTree)
  subst hParts
  obtain rfl : payload = payload' := Option.some.inj hPasses.payload_eq
  obtain ⟨next, hSeq⟩ := returns_parse.mp hPasses.parsed
  obtain ⟨p, hParse, hRoot, rfl⟩ := returns_parseSeq.mp hSeq
  obtain ⟨hNode, -⟩ := Prod.mk.inj hRoot
  refine (fits_of_parsed t.rootName t.shaped t.floatFree hInput hPrint ⟨by simp, n, hParse⟩ ?_).2
  rw [← hNode]
  exact hOut

theorem SignVerifies.fits (hSound : SoundSigning env.ltc signHash key pk pub) (hTree : w.Holds input t.tree)
    (h : SignVerifies env signHash key pk name w input t.tree) : w.errno = 0 ∧ Fits t.tree ∧
      ∀ hash signature random, env.ltc.hashMemory t.encode = some hash →
        signHash w.random hash key = some (signature, random) →
        Fits ((signedElems t.encode hash signature pub name).tree (some signedName) : Stackish.Tree D) := by
  obtain ⟨signed, w₁, wire, w₂, hSign, hVerifies, hWire, -⟩ := h
  obtain ⟨payload, hash, signature, hSigns⟩ := returns_signNode.mp hSign
  obtain ⟨hHolds, -⟩ := hSigns.holds hSound.exported
  have hErrno : w₁.errno = 0 := by
    rw [hSigns.rest]
    exact hSigns.errno
  have hFits := fits_of_verifiesTo hErrno hHolds hTree hSigns.printed hVerifies
  obtain rfl : payload = t.encode := by
    simpa [nodeBstr_document hFits hTree] using hSigns.printed.symm
  refine ⟨hSigns.errno, hFits, ?_⟩
  intro hash' signature' random hHash' hSign'
  obtain rfl : hash = hash' := Option.some.inj (hSigns.hashed.symm.trans hHash')
  obtain ⟨rfl, -⟩ : signature = signature' ∧ w₁.random = random := by simpa using hSigns.signed.symm.trans hSign'
  exact fits_of_printed hHolds (returns_bstr.mp hWire).1

/-- Signing succeeds whenever the payload can be printed. -/
theorem signNode_message (hSound : SoundSigning env.ltc signHash key pk pub) (name : Bytes) (hErrno : w.errno = 0)
    (hTree : w.Holds input t.tree) (hFits : Fits t.tree) :
    ∃ hash signature random node heap, env.ltc.hashMemory t.encode = some hash ∧
      signHash w.random hash key = some (signature, random) ∧
      Returns (signNode env signHash key (some name) (some input)) w (some node) { w with heap, random } ∧
      Represents heap none (some node) ((signedElems t.encode hash signature pub name).tree (some signedName)) ∧
      Extends w.heap heap := by
  obtain ⟨hash, hHash⟩ := hSound.hashes t.encode
  obtain ⟨signature, random, hSign⟩ := hSound.signs w.random hash
  obtain ⟨node, heap, hCons, hHolds, hExt⟩ := nodeCons_message w.heap (signedElems t.encode hash signature pub name)
    (some signedName) (signedElems_makesNew _ _ _ _ _)
  refine ⟨hash, signature, random, node, heap, hHash, hSign, returns_signNode.mpr ⟨t.encode, hash, signature, ?_⟩,
    hHolds, hExt⟩
  refine ⟨hErrno, nodeBstr_document hFits hTree, hHash, hSign, ?_, rfl⟩
  rw [hSound.exported]
  exact hCons

/-- A signed tree verifies, also behind the wire, exactly when it and its signed message fit. -/
theorem signVerifies_iff (hSound : SoundSigning env.ltc signHash key pk pub) (name : Bytes)
    (hTree : w.Holds input t.tree) :
    SignVerifies env signHash key pk name w input t.tree ↔ w.errno = 0 ∧ Fits t.tree ∧
      ∀ hash signature random, env.ltc.hashMemory t.encode = some hash →
        signHash w.random hash key = some (signature, random) →
        Fits ((signedElems t.encode hash signature pub name).tree (some signedName) : Stackish.Tree D) := by
  constructor
  · intro h
    exact h.fits hSound hTree
  · rintro ⟨hErrno, hFits, hSigned⟩
    obtain ⟨hash, signature, random, node, heap, hHash, hSign, hReturns, hHolds, -⟩ :=
      signNode_message hSound name hErrno hTree hFits
    have hZero : ({ w with heap, random } : World D K S U).errno = 0 := hErrno
    have hWhole := hSigned hash signature random hHash hSign
    refine ⟨node, _, _, _, hReturns, verifiesTo_message hSound hSign hFits hZero hHolds,
      returns_bstr_document (t := signedDocument t.encode hash signature pub name) hWhole hHolds, ?_⟩
    intro v hv
    obtain ⟨again, heap', hParse, hAgain, -⟩ := settles_parse_document env hv
      (t := signedDocument t.encode hash signature pub name) hWhole
    exact ⟨again, v.grown heap', hParse, verifiesTo_message (v := v.grown heap') hSound hSign hFits hv hAgain⟩

end SignVerify

/-- Every signature is the hash itself. -/
def exactSign : SignHash Unit := fun random hash _ => some (hash, random)

theorem exactSign_sound : SoundSigning exactEnv.ltc exactSign () () [7] where
  hashes _ := ⟨_, rfl⟩
  signs _ _ := ⟨_, _, rfl⟩
  exported := rfl
  imported := rfl
  verifies := by
    rintro random hash signature random' ⟨⟩
    simp [exactEnv]

theorem holds_letters (n : Nat) : (sampleWorld (stringHeap (letters n)) ()).Holds 0 (lettersDocument n).tree :=
  stringHeap_represents (letters n)

theorem signVerifies_letter :
    SignVerifies exactEnv exactSign () () [97] (sampleWorld (stringHeap (letters 1)) ()) 0
      (lettersDocument 1).tree := by
  refine (signVerifies_iff exactSign_sound [97] (holds_letters 1)).mpr ⟨rfl, ?_, ?_⟩
  · unfold Fits
    decide +kernel
  · rintro hash signature random ⟨⟩ ⟨⟩
    unfold Fits
    decide +kernel

/-- A tree with a string of `2 ^ 30` letters is signed without the string. -/
theorem not_signVerifies_letters :
    SoundSigning exactEnv.ltc exactSign () () [7] ∧
      (sampleWorld (stringHeap (letters (2 ^ 30))) ()).Holds 0 (lettersDocument (2 ^ 30)).tree ∧
      ¬ SignVerifies exactEnv exactSign () () [97] (sampleWorld (stringHeap (letters (2 ^ 30))) ()) 0
        (lettersDocument (2 ^ 30)).tree := by
  refine ⟨exactSign_sound, holds_letters _, fun h => ?_⟩
  obtain ⟨-, hFits, -⟩ := h.fits exactSign_sound (holds_letters _)
  apply not_fits_stringDocument _ _ _ hFits
  rw [length_letters]
  decide

end Utu.Protocol
