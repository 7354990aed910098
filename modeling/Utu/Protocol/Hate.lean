import Utu.Protocol.Signing

/-!
# Hate challenges

A challenge is the hash of a nonce with half of the nonce left out. Who draws
the missing half keeps it below `1 << (level + 1)`, in 32 bits; who looks for it
stops at `level << (level + 1)`, in 64 bits. The answer gives the halves back in
the other order.
-/

namespace Utu.Protocol
open Stackish LinkedForest Procedure
set_option autoImplicit false

variable {D K S U : Type}

def leBytes : Nat → Nat → Bytes
  | 0, _ => []
  | k + 1, n => UInt8.ofNat n :: leBytes k (n / 256)

/-- The union read as its bytes. -/
def Nonce.raw (n : Nonce) : Bytes := leBytes 8 n.left.toNat ++ leBytes 8 n.right.toNat

/-- `CRYPT_CHALLENGE_MSG`: `challenge` -/
def challengeName : Bytes := [99, 104, 97, 108, 108, 101, 110, 103, 101]

/-- `CRYPT_ANSWER_MSG`: `answer` -/
def answerName : Bytes := [97, 110, 115, 119, 101, 114]

def challengeFormat : List Expect := [.start, .blob, .number, .number, .number, .word challengeName]

def answerFormat : List Expect := [.start, .number, .number, .word answerName]

/-- `level_max <<= (level + 1)` -/
def levelMax (level : UInt32) : UInt32 := 1 <<< (level + 1)

/-- `level <<= level + 1` -/
def searchEnd (level : UInt64) : UInt64 := level <<< (level + 1)

/-- `bisstemeqblk` -/
def bisstemeqblk (b blk : Bytes) : Bool := b.take blk.length == blk

section Model
variable (env : Env D K S) (signHash : SignHash K)

/-- `CryptState_generate_hate_challenge`: the signed challenge and `*expecting`. -/
def generateHateChallenge (level : UInt32) (expecting : Nonce) : Call D K S U (Option Nat × Nonce) := do
  if !(← check (0 < levelMax level)) then return (none, expecting)
  match ← rand nonceLength with
  | none =>
    let _ ← check false
    return (none, expecting)
  | some raw =>
    let drawn := Nonce.ofRaw raw
    if !(← check true) then return (none, drawn)
    let expecting : Nonce := ⟨drawn.left, drawn.right % (levelMax level).toUInt64⟩
    let hash ← cryptHash env expecting.raw
    let msg ← cons [.start, .number level.toUInt64, .number 0, .number expecting.left, .blob hash,
      .word challengeName]
    if !(← check msg.isSome) then
      destroy msg
      return (none, expecting)
    let w ← get
    let sign ← signNode env signHash w.state.me.key w.state.me.name msg
    if !(← check sign.isSome) then
      destroy msg
      return (none, expecting)
    return (sign, expecting)

/-- What `CryptState_answer_hate_challenge` and `CryptState_validate_hate_challenge` begin with: only the
state of the signature is looked at before the node goes to `Node_decons`. -/
def openSigned {α : Type} (failed : α) (input : Nat) (rest : Nat → Call D K S U α) : Call D K S U α := do
  let w ← get
  let (inner, sigStat, _) ← verifySignature env w.state.them.name input false
  if !(← check sigStat) then return failed
  match inner with
  | none => throw (.assertFailed "root cannot be NULL")
  | some inner => rest inner

/-- The hash, the left half and the level of a challenge that is taken on. -/
def takeChallenge (inner : Nat) (maxAllowedLevel : UInt32) : Call D K S U (Option (Bytes × UInt64 × UInt64)) := do
  let (rc, bound) ← decons env inner true challengeFormat
  if !(← check rc) then return none
  let w ← get
  let right := boundNumber bound 2 0
  let level := boundNumber bound 3 0
  if !(← check (right == 0)) then return none
  if !(← check (level ≤ maxAllowedLevel.toUInt64)) then return none
  match boundString w.heap bound 0 none with
  | none =>
    let _ ← check false
    return none
  | some hash =>
    if !(← check true) then return none
    return some (hash, boundNumber bound 1 0, level)

/-- `CryptState_answer_hate_challenge` up to the shift -/
def readChallenge (challenge : Nat) (maxAllowedLevel : UInt32) :
    Call D K S U (Option (Bytes × UInt64 × UInt64)) :=
  openSigned env none challenge fun inner => takeChallenge env inner maxAllowedLevel

/-- The search for the right half: whether the loop came to its end, and what it found. -/
def findRight (ltc : Ltc K S) (hash : Bytes) (left stop : UInt64) : Nat → UInt64 → Call D K S U (Bool × Option UInt64)
  | 0, _ => throw .outOfFuel
  | fuel + 1, right => do
    if right < stop then
      match ltc.hashMemory (Nonce.raw ⟨left, right⟩) with
      | none =>
        let _ ← check false
        return (false, none)
      | some testHash =>
        if !(← check true) then return (false, none)
        if testHash.length = hash.length && bisstemeqblk hash testHash then return (true, some right)
        findRight ltc hash left stop fuel (right + 1)
    else return (true, none)

/-- `CryptState_answer_hate_challenge` from the answer on -/
def sendAnswer (left right : UInt64) : Call D K S U (Option Nat) := do
  let answer ← cons [.start, .number left, .number right, .word answerName]
  if !(← check answer.isSome) then
    destroy answer
    return none
  let w ← get
  let sign ← signNode env signHash w.state.me.key w.state.me.name answer
  if !(← check sign.isSome) then
    destroy answer
    return none
  return sign

/-- `CryptState_answer_hate_challenge` from the shift on -/
def solveChallenge (hash : Bytes) (left level : UInt64) : Call D K S U (Option Nat) := do
  let (rc, right) ← findRight env.ltc hash left (searchEnd level) env.fuel 0
  if !rc then return none
  match right with
  | none =>
    let _ ← check false
    return none
  | some right => sendAnswer env signHash left right

/-- `CryptState_answer_hate_challenge` -/
def answerHateChallenge (challenge : Nat) (maxAllowedLevel : UInt32) : Call D K S U (Option Nat) := do
  if maxAllowedLevel = 0 then throw (.assertFailed "must be > 0")
  match ← readChallenge env challenge maxAllowedLevel with
  | none => return none
  | some (hash, left, level) => solveChallenge env signHash hash left level

/-- The numbers of an answer, which come in the other order, against the ones expected. -/
def compareAnswer (inner : Nat) (expecting : Nonce) : Call D K S U Bool := do
  let (rc, bound) ← decons env inner false answerFormat
  if !(← check rc) then return false
  let given : Nonce := ⟨boundNumber bound 0 0, boundNumber bound 1 0⟩
  if !(← check (expecting.left == given.right && expecting.right == given.left)) then return false
  return true

/-- `CryptState_validate_hate_challenge` -/
def validateHateChallenge (answer : Nat) (expecting : Nonce) : Call D K S U Bool :=
  openSigned env false answer fun inner => compareAnswer env inner expecting

end Model

/-! ## The two messages -/

def challengeElems (level left : UInt64) (hash : Bytes) : Elems :=
  .leaf (.number level) none (.leaf (.number 0) none (.leaf (.number left) none (.leaf (.blob hash) none .nil)))

def answerElems (left right : UInt64) : Elems := .leaf (.number left) none (.leaf (.number right) none .nil)

theorem challengeElems_sound (level left : UInt64) (hash : Bytes) : (challengeElems level left hash).Sound := by
  have hLeaf : leafName none := leafName_none
  exact ⟨hLeaf, by simp, hLeaf, by simp, hLeaf, by simp, hLeaf, by simp, trivial⟩

theorem answerElems_sound (left right : UInt64) : (answerElems left right).Sound := by
  have hLeaf : leafName none := leafName_none
  exact ⟨hLeaf, by simp, hLeaf, by simp, trivial⟩

theorem rootName_challenge : rootName (some challengeName) := by
  rintro n ⟨⟩
  decide

theorem rootName_answer : rootName (some answerName) := by
  rintro n ⟨⟩
  decide

def challengeDocument (level left : UInt64) (hash : Bytes) : Document D :=
  (challengeElems level left hash).document (some challengeName) rootName_challenge
    (challengeElems_sound level left hash)

def answerDocument (left right : UInt64) : Document D :=
  (answerElems left right).document (some answerName) rootName_answer (answerElems_sound left right)

theorem length_print_word (n : UInt64) : (Decimal.print n.toNat).length ≤ 20 := print_length_small n.toNat_lt

theorem fits_challenge (level left : UInt64) {hash : Bytes} (hHash : hash.length ≤ 128) :
    Fits (challengeDocument level left hash : Document D).tree := by
  have hTokens : tokens (challengeDocument level left hash : Document D).tree =
      [.start, .number (some level), .number (some 0), .number (some left), .blob (some hash),
        .word challengeName] := by
    simp [challengeDocument, challengeElems, Elems.tree, Elems.kids, tokens, startTokens, valueTokens, nameTokens,
      Leaf.value, challengeName, bchar, cstr]
  have hLevel := length_print_word level
  have hZero := length_print_word 0
  have hLeft := length_print_word left
  have hBlob : (Decimal.print hash.length).length ≤ 20 := print_length_small (by omega)
  rw [Fits, hTokens]
  refine ⟨by simp [tokenFits, challengeName, intMax], ?_⟩
  simp only [text_cons, text_nil, tokenText, blobText, blength, challengeName, Option.getD_some, List.length_append,
    List.length_cons, List.length_nil, intMax]
  omega

theorem fits_answer (left right : UInt64) : Fits (answerDocument left right : Document D).tree := by
  have hTokens : tokens (answerDocument left right : Document D).tree =
      [.start, .number (some left), .number (some right), .word answerName] := by
    simp [answerDocument, answerElems, Elems.tree, Elems.kids, tokens, startTokens, valueTokens, nameTokens,
      Leaf.value, answerName, bchar, cstr]
  have hLeft := length_print_word left
  have hRight := length_print_word right
  rw [Fits, hTokens]
  refine ⟨by simp [tokenFits, answerName, intMax], ?_⟩
  simp only [text_cons, text_nil, tokenText, answerName, Option.getD_some, List.length_append,
    List.length_cons, List.length_nil, intMax]
  omega

/-! ## The search -/

section Search
variable {env : Env D K S} {hash : Bytes} {left stop : UInt64} {w : World D K S U}

theorem bisstemeqblk_iff {b blk : Bytes} (hLen : blk.length = b.length) : bisstemeqblk b blk = true ↔ blk = b := by
  rw [bisstemeqblk, hLen, List.take_length, beq_iff_eq]
  exact eq_comm

/-- The first number that fits is the one that was drawn. -/
theorem returns_findRight {right : UInt64} (hErrno : w.errno = 0)
    (hHashes : ∀ data, ∃ out, env.ltc.hashMemory data = some out)
    (hInj : ∀ r r', env.ltc.hashMemory (Nonce.raw ⟨left, r⟩) = env.ltc.hashMemory (Nonce.raw ⟨left, r'⟩) → r = r')
    (hHash : env.ltc.hashMemory (Nonce.raw ⟨left, right⟩) = some hash) (hStop : right < stop) {fuel : Nat}
    {start : UInt64} (hStart : start ≤ right) (hFuel : right.toNat < start.toNat + fuel) :
    Returns (findRight env.ltc hash left stop fuel start) w (true, some right) w := by
  induction fuel generalizing start with
  | zero => exact absurd (UInt64.le_iff_toNat_le.mp hStart) (by omega)
  | succ fuel ih =>
    rw [findRight]
    refine returns_ite.mpr (.inl ⟨UInt64.lt_of_le_of_lt hStart hStop, ?_⟩)
    obtain ⟨out, hOut⟩ := hHashes (Nonce.raw ⟨left, start⟩)
    simp only [hOut]
    refine returns_bind.mpr ⟨_, _, returns_check_true rfl hErrno, ?_⟩
    by_cases hSame : start = right
    · subst hSame
      rw [hHash] at hOut
      cases hOut
      refine returns_ite.mpr (.inr ⟨by simp, returns_ite.mpr (.inl ⟨?_, returns_pure.mpr ⟨rfl, rfl⟩⟩)⟩)
      simp [bisstemeqblk]
    · refine returns_ite.mpr (.inr ⟨by simp, returns_ite.mpr (.inr ⟨?_, ?_⟩)⟩)
      · intro hMatch
        simp only [Bool.and_eq_true, decide_eq_true_eq] at hMatch
        obtain rfl := (bisstemeqblk_iff hMatch.1).mp hMatch.2
        exact hSame (hInj start right (hOut.trans hHash.symm))
      · have hLt : start.toNat < right.toNat := by
          have hLe := UInt64.le_iff_toNat_le.mp hStart
          have hNe : start.toNat ≠ right.toNat := fun h => hSame (UInt64.toNat_inj.mp h)
          omega
        have hNext : (start + 1).toNat = start.toNat + 1 := by
          have hBound := right.toNat_lt
          rw [UInt64.toNat_add]
          exact Nat.mod_eq_of_lt (by simp; omega)
        refine ih (UInt64.le_iff_toNat_le.mpr (by omega)) (by omega)

end Search

/-! ## The two bounds -/

theorem toNat_levelMax {level : UInt32} (hLevel : level.toNat + 1 < 32) :
    (levelMax level).toNat = 2 ^ (level.toNat + 1) := by
  have hSum : (level + 1).toNat = level.toNat + 1 := by
    rw [UInt32.toNat_add]
    exact Nat.mod_eq_of_lt (by simp; omega)
  rw [levelMax, UInt32.toNat_shiftLeft, hSum, Nat.mod_eq_of_lt hLevel, Nat.shiftLeft_eq]
  have hPow : 2 ^ (level.toNat + 1) < 2 ^ 32 := Nat.pow_lt_pow_right (by decide) hLevel
  simpa using Nat.mod_eq_of_lt hPow

theorem toNat_searchEnd {level : UInt64} (hLevel : level.toNat + 1 < 32) :
    (searchEnd level).toNat = level.toNat * 2 ^ (level.toNat + 1) := by
  have hSum : (level + 1).toNat = level.toNat + 1 := by
    rw [UInt64.toNat_add]
    exact Nat.mod_eq_of_lt (by simp; omega)
  have hPow : 2 ^ (level.toNat + 1) ≤ 2 ^ 31 := Nat.pow_le_pow_right (by decide) (by omega)
  have hProd : level.toNat * 2 ^ (level.toNat + 1) ≤ 31 * 2 ^ 31 := Nat.mul_le_mul (by omega) hPow
  have hAmount : (level.toNat + 1) % 64 = level.toNat + 1 := Nat.mod_eq_of_lt (by omega)
  rw [searchEnd, UInt64.toNat_shiftLeft, hSum, hAmount, Nat.shiftLeft_eq]
  exact Nat.mod_eq_of_lt (by omega)

/-- The nonce a challenge is made of. -/
def drawnNonce (raw : Bytes) (level : UInt32) : Nonce :=
  ⟨(Nonce.ofRaw raw).left, (Nonce.ofRaw raw).right % (levelMax level).toUInt64⟩

theorem drawn_lt_searchEnd (raw : Bytes) {level : UInt32} (hLevel : level.toNat + 1 < 32) (hPos : 1 ≤ level.toNat) :
    (drawnNonce raw level).right < searchEnd level.toUInt64 := by
  have hMax := toNat_levelMax hLevel
  have hPow : 0 < 2 ^ (level.toNat + 1) := Nat.pow_pos (by decide)
  have hEnd : (searchEnd level.toUInt64).toNat = level.toNat * 2 ^ (level.toNat + 1) :=
    toNat_searchEnd (by simpa using hLevel)
  rw [UInt64.lt_iff_toNat_lt, hEnd, drawnNonce, UInt64.toNat_mod, UInt32.toNat_toUInt64, hMax]
  calc (Nonce.ofRaw raw).right.toNat % 2 ^ (level.toNat + 1) < 2 ^ (level.toNat + 1) := Nat.mod_lt _ hPow
    _ ≤ level.toNat * 2 ^ (level.toNat + 1) := Nat.le_mul_of_pos_left _ hPos

/-! ## The exchange -/

/-- What is assumed of the library and of the two parties: both can sign, and know each other's name. -/
structure Acquainted (env : Env D K S) (signHash : SignHash K) (w v : World D K S U) : Prop where
  challenger : ∃ pk pub, SoundSigning env.ltc signHash w.state.me.key pk pub
  answerer : ∃ pk pub, SoundSigning env.ltc signHash v.state.me.key pk pub
  challengerName : ∃ name, w.state.me.name = some name ∧ v.state.them.name = some name
  answererName : ∃ name, v.state.me.name = some name ∧ w.state.them.name = some name
  hashLength : ∀ {data hash}, env.ltc.hashMemory data = some hash → hash.length ≤ 128

/-- The node is one that the owner of the key signed under the name. -/
def SignedBy (env : Env D K S) (signHash : SignHash K) (key : K) (name : Bytes) (t : Document D) (heap : Heap D)
    (node : Nat) : Prop :=
  ∃ pub random random' hash signature, env.ltc.eccExport .pkPublic key = some pub ∧
    signHash random hash key = some (signature, random') ∧
    Represents heap none (some node) ((signedElems t.encode hash signature pub name).tree (some signedName))

section Exchange
variable {env : Env D K S} {signHash : SignHash K} {w v : World D K S U} {name : Bytes} {pk : K} {pub : Bytes}

theorem returns_sign {key : K} (hSound : SoundSigning env.ltc signHash key pk pub) (hErrno : w.errno = 0)
    {t : Document D}
    (hFits : Fits t.tree) {input : Nat} (hTree : w.Holds input t.tree) (name : Bytes) :
    ∃ node heap random, Returns (signNode env signHash key (some name) (some input)) w (some node)
        { w with heap, random } ∧ SignedBy env signHash key name t heap node := by
  obtain ⟨hash, signature, random, node, heap, -, hSign, hReturns, hHolds, -⟩ :=
    signNode_message hSound name hErrno hTree hFits
  exact ⟨node, heap, random, hReturns, pub, w.random, random, hash, signature, hSound.exported, hSign, hHolds⟩

theorem settles_verify {key : K} (hSound : SoundSigning env.ltc signHash key pk pub) (hErrno : v.errno = 0)
    {t : Document D} (hFits : Fits t.tree) {node : Nat} (hNode : SignedBy env signHash key name t v.heap node)
    (stat : Bool) :
    ∃ out heap, Settles (fun fuel => verifySignature { env with fuel } (some name) node stat) v
      (some out, true, some pk) (v.grown heap) ∧ (v.grown heap).Holds out t.tree := by
  obtain ⟨pub', random, random', hash, signature, hPub, hSign, hTree⟩ := hNode
  obtain rfl : pub = pub' := Option.some.inj (hSound.exported.symm.trans hPub)
  obtain ⟨out, heap, hSettles, hOut, -⟩ := settles_verify_message hSound hSign hFits hErrno hTree stat
  exact ⟨out, heap, hSettles, hOut⟩

theorem returns_generate {raw : Bytes} {rest : List Bytes}
    (hSound : SoundSigning env.ltc signHash w.state.me.key pk pub)
    (hName : w.state.me.name = some name) (hErrno : w.errno = 0)
    (hShort : ∀ {data hash}, env.ltc.hashMemory data = some hash → hash.length ≤ 128)
    (hRandom : w.random = raw :: rest) (hRaw : raw.length = nonceLength) {level : UInt32}
    (hLevel : level.toNat + 1 < 32) (given : Nonce) :
    ∃ hash challenge heap random, env.ltc.hashMemory (drawnNonce raw level).raw = some hash ∧
      Returns (generateHateChallenge env signHash level given) w (some challenge, drawnNonce raw level)
        { w with heap, random } ∧
      SignedBy env signHash w.state.me.key name
        (challengeDocument level.toUInt64 (drawnNonce raw level).left hash) heap challenge := by
  have hPositive : 0 < levelMax level := by
    rw [UInt32.lt_iff_toNat_lt, toNat_levelMax hLevel]
    exact Nat.pow_pos (by decide)
  obtain ⟨hash, hHash⟩ := hSound.hashes (drawnNonce raw level).raw
  obtain ⟨msg, heap, hCons, hMsg, -⟩ := returns_cons_message (w := { w with random := rest }) hErrno
    (challengeElems level.toUInt64 (drawnNonce raw level).left hash) (some challengeName)
    (by simp [challengeElems, Elems.format, Leaf.piece, Piece.makesNew])
  obtain ⟨challenge, heap', random, hSign, hSigned⟩ := returns_sign
    (w := ({ w with random := rest } : World D K S U).grown heap) hSound hErrno
    (fits_challenge level.toUInt64 (drawnNonce raw level).left (hShort hHash)) hMsg name
  refine ⟨hash, challenge, heap', random, hHash, ?_, hSigned⟩
  refine returns_bind.mpr ⟨_, _, returns_check_true (decide_eq_true hPositive) hErrno, ?_⟩
  refine returns_bind.mpr ⟨some raw, { w with random := rest }, ?_, ?_⟩
  · rw [← hRaw]
    exact returns_rand hRandom
  refine returns_bind.mpr ⟨_, _, returns_check_true rfl hErrno, ?_⟩
  have hClear : ({ w with random := rest } : World D K S U).clear = { w with random := rest } :=
    World.clear_of_errno hErrno
  refine returns_bind.mpr ⟨some hash, _, returns_cryptHash.mpr ⟨?_, hClear.symm⟩, ?_⟩
  · rw [if_pos hErrno]
    exact hHash.symm
  refine returns_bind.mpr ⟨some msg, _, hCons, ?_⟩
  refine returns_bind.mpr ⟨_, _, returns_check_true rfl hErrno, ?_⟩
  refine returns_bind.mpr ⟨_, _, returns_get.mpr ⟨rfl, rfl⟩, ?_⟩
  rw [← hName] at hSign
  refine returns_bind.mpr ⟨some challenge, _, hSign, ?_⟩
  refine returns_bind.mpr ⟨_, _, returns_check_true rfl hErrno, ?_⟩
  exact returns_pure.mpr ⟨rfl, rfl⟩

/-- Behind a signature that verifies comes the message. -/
theorem settles_openSigned {α : Type} {failed a : α} {node inner : Nat} {rest : Nat → Nat → Call D K S U α}
    {v₁ v₂ : World D K S U} {key : Option K}
    (hVerify : Settles (fun fuel => verifySignature { env with fuel } v.state.them.name node false) v
      (some inner, true, key) v₁) (hErrno : v₁.errno = 0)
    (hRest : Settles (fun fuel => rest fuel inner) v₁ a v₂) :
    Settles (fun fuel => openSigned { env with fuel } failed node (rest fuel)) v a v₂ := by
  refine (returns_get.mpr ⟨rfl, rfl⟩).settles ?_
  refine hVerify.bind ?_
  exact settles_checkPass rfl hErrno hRest

/-- A challenge the other side made is taken on when its level is allowed. -/
theorem settles_readChallenge {key : K} (hSound : SoundSigning env.ltc signHash key pk pub)
    (hName : v.state.them.name = some name) (hErrno : v.errno = 0) {level left : UInt64} {hash : Bytes}
    (hHash : hash.length ≤ 128) {node : Nat}
    (hNode : SignedBy env signHash key name (challengeDocument level left hash) v.heap node) {limit : UInt32}
    (hLevel : level ≤ limit.toUInt64) :
    ∃ heap, Settles (fun fuel => readChallenge { env with fuel } node limit) v (some (hash, left, level))
      (v.grown heap) := by
  obtain ⟨inner, heap, hVerify, hInner⟩ := settles_verify hSound hErrno (fits_challenge level left hHash) hNode false
  obtain ⟨bound, hDecons, hBound⟩ := returns_decons_message env (w := v.grown heap) hErrno true
    (by simp [challengeElems]) (by simp [challengeElems, Elems.Full]) hInner
  have hLeft : boundNumber bound 1 0 = left := boundNumber_stores hBound rfl 0
  have hRight : boundNumber bound 2 0 = 0 := boundNumber_stores hBound rfl 0
  have hLevelAt : boundNumber bound 3 0 = level := boundNumber_stores hBound rfl 0
  have hHashAt : boundString heap bound 0 none = some hash := boundString_stores hBound (.inr rfl) none
  rw [← hName] at hVerify
  refine ⟨heap, settles_openSigned hVerify hErrno ?_⟩
  refine Returns.settles hDecons ?_
  refine settles_checkPass rfl hErrno ?_
  refine (returns_get.mpr ⟨rfl, rfl⟩).settles ?_
  simp only [hLeft, hRight, hLevelAt]
  refine settles_checkPass rfl hErrno ?_
  refine settles_checkPass (decide_eq_true hLevel) hErrno ?_
  rw [show boundString (v.grown heap).heap bound 0 none = some hash from hHashAt]
  exact settles_checkPass rfl hErrno settles_pure

theorem returns_sendAnswer (hSound : SoundSigning env.ltc signHash v.state.me.key pk pub)
    (hName : v.state.me.name = some name) (hErrno : v.errno = 0) (left right : UInt64) :
    ∃ answer heap random, Returns (sendAnswer env signHash left right) v (some answer) { v with heap, random } ∧
      SignedBy env signHash v.state.me.key name (answerDocument left right) heap answer := by
  obtain ⟨msg, heap, hCons, hMsg, -⟩ := returns_cons_message hErrno (answerElems left right) (some answerName)
    (by simp [answerElems, Elems.format, Leaf.piece, Piece.makesNew])
  obtain ⟨answer, heap', random, hSign, hSigned⟩ := returns_sign (w := v.grown heap) hSound hErrno
    (fits_answer left right) hMsg name
  rw [← hName] at hSign
  refine ⟨answer, heap', random, ?_, hSigned⟩
  refine returns_bind.mpr ⟨some msg, _, hCons, ?_⟩
  refine returns_bind.mpr ⟨_, _, returns_check_true rfl hErrno, ?_⟩
  refine returns_bind.mpr ⟨_, _, returns_get.mpr ⟨rfl, rfl⟩, ?_⟩
  refine returns_bind.mpr ⟨some answer, _, hSign, ?_⟩
  refine returns_bind.mpr ⟨_, _, returns_check_true rfl hErrno, ?_⟩
  exact returns_pure.mpr ⟨rfl, rfl⟩

theorem settles_validate {key : K} (hSound : SoundSigning env.ltc signHash key pk pub)
    (hName : w.state.them.name = some name) (hErrno : w.errno = 0) {expecting : Nonce} {node : Nat}
    (hNode : SignedBy env signHash key name (answerDocument expecting.left expecting.right) w.heap node) :
    ∃ w', Settles (fun fuel => validateHateChallenge { env with fuel } node expecting) w true w' := by
  obtain ⟨inner, heap, hVerify, hInner⟩ := settles_verify hSound hErrno
    (fits_answer expecting.left expecting.right) hNode false
  obtain ⟨bound, hDecons, hBound⟩ := returns_decons_message env (w := w.grown heap) hErrno false
    (by simp [answerElems]) (by simp [answerElems, Elems.Full]) hInner
  have hRight : boundNumber bound 0 0 = expecting.right := boundNumber_stores hBound rfl 0
  have hLeft : boundNumber bound 1 0 = expecting.left := boundNumber_stores hBound rfl 0
  rw [← hName] at hVerify
  refine ⟨w.grown heap, settles_openSigned hVerify hErrno ?_⟩
  refine Returns.settles hDecons ?_
  refine settles_checkPass rfl hErrno ?_
  exact settles_checkPass (by simp [hLeft, hRight]) hErrno settles_pure

end Exchange

/-- The challenge that is generated can be answered by whoever receives it, and the answer is valid for
the challenger. -/
def HateAnswered (env : Env D K S) (signHash : SignHash K) (level limit : UInt32) (given : Nonce)
    (w v : World D K S U) : Prop :=
  ∃ challenge expecting w₁ sent,
    Returns (generateHateChallenge env signHash level given) w (some challenge, expecting) w₁ ∧
    w₁.Holds challenge sent ∧ ∀ heap node, (v.grown heap).Holds node sent →
      ∃ answer v₁ back,
        Settles (fun fuel => answerHateChallenge { env with fuel } signHash node limit) (v.grown heap)
          (some answer) v₁ ∧
        v₁.Holds answer back ∧ ∀ heap' node', (w₁.grown heap').Holds node' back →
          ∃ w₂, Settles (fun fuel => validateHateChallenge { env with fuel } node' expecting) (w₁.grown heap') true w₂

section Answered
variable {env : Env D K S} {signHash : SignHash K} {w v : World D K S U} {level limit : UInt32} {given : Nonce}
  {raw : Bytes} {rest : List Bytes}

theorem settles_taken {node : Nat} {hash : Bytes} {left n : UInt64} {v₁ v₂ : World D K S U} {r : Option Nat}
    (hLimit : limit ≠ 0)
    (hRead : Settles (fun fuel => readChallenge { env with fuel } node limit) v (some (hash, left, n)) v₁)
    (hSolve : Settles (fun fuel => solveChallenge { env with fuel } signHash hash left n) v₁ r v₂) :
    Settles (fun fuel => answerHateChallenge { env with fuel } signHash node limit) v r v₂ := by
  simp only [answerHateChallenge, if_neg hLimit]
  exact hRead.bind hSolve

/-- A search that finds nothing. -/
theorem settles_unsolved (env : Env D K S) (signHash : SignHash K) (hErrno : v.errno = 0) (hash : Bytes)
    (left : UInt64) :
    Settles (fun fuel => solveChallenge { env with fuel } signHash hash left 0) v none v := by
  refine ⟨1, fun fuel hFuel => ?_⟩
  obtain ⟨fuel, rfl⟩ : ∃ k, fuel = k + 1 := ⟨fuel - 1, by omega⟩
  have hNone : Returns (findRight env.ltc hash left (searchEnd 0) (fuel + 1) 0) v (true, none) v := by
    rw [findRight]
    exact returns_ite.mpr (.inr ⟨by decide, returns_pure.mpr ⟨rfl, rfl⟩⟩)
  refine returns_bind.mpr ⟨_, _, hNone, ?_⟩
  refine returns_bind.mpr ⟨_, _, returns_check.mpr ⟨rfl, rfl⟩, ?_⟩
  exact returns_pure.mpr ⟨rfl, (World.clear_of_errno hErrno).symm⟩

/-- A search that finds the half that was drawn. -/
theorem settles_solved {pk : K} {pub name : Bytes} (hSound : SoundSigning env.ltc signHash v.state.me.key pk pub)
    (hName : v.state.me.name = some name) (hErrno : v.errno = 0) {hash : Bytes} {left right n : UInt64}
    (hInj : ∀ r r', env.ltc.hashMemory (Nonce.raw ⟨left, r⟩) = env.ltc.hashMemory (Nonce.raw ⟨left, r'⟩) → r = r')
    (hHash : env.ltc.hashMemory (Nonce.raw ⟨left, right⟩) = some hash) (hStop : right < searchEnd n) :
    ∃ answer heap random,
      Settles (fun fuel => solveChallenge { env with fuel } signHash hash left n) v (some answer)
        { v with heap, random } ∧
      SignedBy env signHash v.state.me.key name (answerDocument left right) heap answer := by
  obtain ⟨answer, heap, random, hSend, hSigned⟩ := returns_sendAnswer hSound hName hErrno left right
  refine ⟨answer, heap, random, ⟨right.toNat + 1, fun fuel hFuel => ?_⟩, hSigned⟩
  refine returns_bind.mpr ⟨(true, some right), v, ?_, ?_⟩
  · refine returns_findRight hErrno hSound.hashes hInj hHash hStop (UInt64.zero_le) ?_
    simp only [UInt64.toNat_zero]
    omega
  · exact hSend

/-- Under a stale `errno` a challenge is turned away. -/
theorem settles_answer_stale (env : Env D K S) (signHash : SignHash K) (hErrno : v.errno ≠ 0)
    (hLimit : limit ≠ 0) {node : Nat} {t : Stackish.Tree D}
    (hTree : v.Holds node t) :
    Settles (fun fuel => answerHateChallenge { env with fuel } signHash node limit) v none v.clear := by
  have hRead : Settles (fun fuel => readChallenge { env with fuel } node limit) v none v.clear := by
    refine (returns_get.mpr ⟨rfl, rfl⟩).settles ?_
    refine (settles_of_returns fun fuel => returns_verify_stale { env with fuel } hErrno hTree _ false).bind ?_
    refine settles_checkFail rfl ?_
    rw [World.clear_of_errno (w := v.clear) rfl]
    exact settles_pure
  simp only [answerHateChallenge, if_neg hLimit]
  exact hRead.bind settles_pure

theorem HateAnswered.errno (h : HateAnswered env signHash level limit given w v) (hLimit : limit ≠ 0) :
    w.errno = 0 ∧ v.errno = 0 := by
  obtain ⟨challenge, expecting, w₁, sent, hGenerate, hSent, hAnswer⟩ := h
  constructor
  · by_contra hErrno
    have hNull : Returns (generateHateChallenge env signHash level given) w (none, given) w.clear :=
      returns_checkElse.mpr (.inl ⟨by simp [hErrno], returns_pure.mpr ⟨rfl, rfl⟩⟩)
    cases (hGenerate.unique hNull).1
  · by_contra hErrno
    obtain ⟨answer, v₁, back, hSettles, -⟩ := hAnswer w₁.heap challenge hSent
    have hNull := settles_answer_stale env signHash (v := v.grown w₁.heap) hErrno hLimit hSent
    cases (hSettles.unique hNull).1

/-- A challenge of level 0 cannot be answered: nothing is searched for it. -/
theorem not_hateAnswered_zero (hKnown : Acquainted env signHash w v) (hRandom : w.random = raw :: rest)
    (hRaw : raw.length = nonceLength) (hLimit : limit ≠ 0) (given : Nonce) :
    ¬HateAnswered env signHash 0 limit given w v := by
  intro h
  obtain ⟨hErrno, hErrno'⟩ := h.errno hLimit
  obtain ⟨⟨pk, pub, hSound⟩, -, ⟨name, hName, hThem⟩, -, hShort⟩ := hKnown
  obtain ⟨challenge, expecting, w₁, sent, hGenerate, hSent, hAnswer⟩ := h
  obtain ⟨hash, challenge', heap, random, hHash, hGenerate', hSigned⟩ :=
    returns_generate hSound hName hErrno hShort hRandom hRaw (by decide : (0 : UInt32).toNat + 1 < 32) given
  obtain ⟨hSame, rfl⟩ := hGenerate.unique hGenerate'
  cases hSame
  obtain ⟨answer, v₁, back, hSettles, -⟩ := hAnswer heap challenge hSent
  obtain ⟨heap', hRead⟩ := settles_readChallenge (v := v.grown heap) hSound hThem hErrno' (hShort hHash) hSigned
    (UInt64.zero_le : 0 ≤ limit.toUInt64)
  have hNull := settles_taken hLimit hRead
    (settles_unsolved env signHash (v := (v.grown heap).grown heap') hErrno' hash _)
  cases (hSettles.unique hNull).1

/-- A challenge can be answered exactly when its level is not 0. -/
theorem hateAnswered_iff (hKnown : Acquainted env signHash w v) (hRandom : w.random = raw :: rest)
    (hRaw : raw.length = nonceLength) (hLevel : level.toNat + 1 < 32) (hLimit : max level.toNat 1 ≤ limit.toNat)
    (hInj : ∀ r r', env.ltc.hashMemory (Nonce.raw ⟨(Nonce.ofRaw raw).left, r⟩) =
      env.ltc.hashMemory (Nonce.raw ⟨(Nonce.ofRaw raw).left, r'⟩) → r = r') (given : Nonce) :
    HateAnswered env signHash level limit given w v ↔ w.errno = 0 ∧ v.errno = 0 ∧ 1 ≤ level.toNat := by
  have hPositive : limit ≠ 0 := by
    rintro rfl
    simp at hLimit
  constructor
  · intro h
    obtain ⟨hErrno, hErrno'⟩ := h.errno hPositive
    refine ⟨hErrno, hErrno', ?_⟩
    by_contra hPos
    obtain rfl : level = 0 := UInt32.toNat_inj.mp (by simpa using hPos)
    exact not_hateAnswered_zero hKnown hRandom hRaw hPositive given h
  · rintro ⟨hErrno, hErrno', hPos⟩
    obtain ⟨⟨pk, pub, hSound⟩, ⟨pk', pub', hSound'⟩, ⟨name, hName, hThem⟩, ⟨name', hName', hThem'⟩, hShort⟩ := hKnown
    have hAllowed : level.toUInt64 ≤ limit.toUInt64 := by
      rw [UInt64.le_iff_toNat_le, UInt32.toNat_toUInt64, UInt32.toNat_toUInt64]
      omega
    obtain ⟨hash, challenge, heap, random, hHash, hGenerate, pubC, r, r', digest, signature, hPub, hSign, hTree⟩ :=
      returns_generate hSound hName hErrno hShort hRandom hRaw hLevel given
    refine ⟨challenge, _, _, _, hGenerate, hTree, fun heap₁ node hNode => ?_⟩
    obtain ⟨heap₂, hRead⟩ := settles_readChallenge (v := v.grown heap₁) hSound hThem hErrno' (hShort hHash)
      ⟨pubC, r, r', digest, signature, hPub, hSign, hNode⟩ hAllowed
    have hDrawn : ∀ r r', env.ltc.hashMemory (Nonce.raw ⟨(drawnNonce raw level).left, r⟩) =
        env.ltc.hashMemory (Nonce.raw ⟨(drawnNonce raw level).left, r'⟩) → r = r' := hInj
    have hHalves : env.ltc.hashMemory (Nonce.raw ⟨(drawnNonce raw level).left, (drawnNonce raw level).right⟩) =
        some hash := hHash
    obtain ⟨answer, heap₃, random', hSolve, pubA, q, q', digest', signature', hPub', hSign', hTree'⟩ :=
      settles_solved (v := (v.grown heap₁).grown heap₂) hSound' hName' hErrno' hDrawn hHalves
        (drawn_lt_searchEnd raw hLevel hPos)
    refine ⟨answer, _, _, settles_taken hPositive hRead hSolve, hTree', fun heap₄ node' hNode' => ?_⟩
    have hBack : SignedBy env signHash v.state.me.key name'
        (answerDocument (drawnNonce raw level).left (drawnNonce raw level).right) heap₄ node' :=
      ⟨pubA, q, q', digest', signature', hPub', hSign', hNode'⟩
    exact settles_validate (w := ({ w with heap, random } : World D K S U).grown heap₄) hSound' hThem' hErrno hBack

end Answered

/-- Two parties that call each other `a` and `b`. -/
def knownWorld (me them : Bytes) (random : List Bytes) : World Unit Unit Unit Unit :=
  ⟨[], 0, ⟨samplePeer (some me), samplePeer (some them), ()⟩, random, ()⟩

theorem knownWorld_acquainted (random random' : List Bytes) :
    Acquainted exactEnv exactSign (knownWorld [97] [98] random) (knownWorld [98] [97] random') where
  challenger := ⟨(), [7], exactSign_sound⟩
  answerer := ⟨(), [7], exactSign_sound⟩
  challengerName := ⟨[97], rfl, rfl⟩
  answererName := ⟨[98], rfl, rfl⟩
  hashLength := by
    rintro data hash ⟨⟩
    rw [List.length_take]
    omega

theorem length_leBytes (k n : Nat) : (leBytes k n).length = k := by
  induction k generalizing n with
  | zero => rfl
  | succ k ih => rw [leBytes, List.length_cons, ih]

theorem leBytes_inj {k n m : Nat} (hn : n < 256 ^ k) (hm : m < 256 ^ k) (h : leBytes k n = leBytes k m) : n = m := by
  induction k generalizing n m with
  | zero => omega
  | succ k ih =>
    obtain ⟨hByte, hRest⟩ := List.cons.inj h
    have hLow : n % 256 = m % 256 := by simpa using congrArg UInt8.toNat hByte
    have hHigh : n / 256 = m / 256 := by
      refine ih ?_ ?_ hRest
      · exact Nat.div_lt_of_lt_mul (by rwa [Nat.mul_comm, ← Nat.pow_succ])
      · exact Nat.div_lt_of_lt_mul (by rwa [Nat.mul_comm, ← Nat.pow_succ])
    omega

theorem exactHash_inj (left r r' : UInt64)
    (h : exactEnv.ltc.hashMemory (Nonce.raw ⟨left, r⟩) = exactEnv.ltc.hashMemory (Nonce.raw ⟨left, r'⟩)) : r = r' := by
  have hWhole : ∀ n, exactEnv.ltc.hashMemory (Nonce.raw n) = some (Nonce.raw n) := by
    intro n
    refine congrArg some (List.take_of_length_le ?_)
    simp [Nonce.raw, length_leBytes]
  rw [hWhole, hWhole, Option.some.injEq, Nonce.raw, Nonce.raw, List.append_cancel_left_eq] at h
  exact UInt64.toNat_inj.mp (leBytes_inj r.toNat_lt r'.toNat_lt h)

def nonceBytes : Bytes := List.replicate 16 1

theorem hateAnswered_one : HateAnswered exactEnv exactSign 1 1 ⟨0, 0⟩ (knownWorld [97] [98] [nonceBytes])
    (knownWorld [98] [97] []) :=
  (hateAnswered_iff (knownWorld_acquainted _ _) rfl rfl (by decide) (by decide) (exactHash_inj _) _).mpr
    ⟨rfl, rfl, by decide⟩

/-- Level 0 draws the right half from 0 and 1, and looks for it nowhere. -/
theorem not_hateAnswered_level_zero :
    Acquainted exactEnv exactSign (knownWorld [97] [98] [nonceBytes]) (knownWorld [98] [97] []) ∧
      nonceBytes.length = nonceLength ∧ (0 : UInt32).toNat + 1 < 32 ∧
      (∀ r r', exactEnv.ltc.hashMemory (Nonce.raw ⟨(Nonce.ofRaw nonceBytes).left, r⟩) =
        exactEnv.ltc.hashMemory (Nonce.raw ⟨(Nonce.ofRaw nonceBytes).left, r'⟩) → r = r') ∧
      ¬HateAnswered exactEnv exactSign 0 1 ⟨0, 0⟩ (knownWorld [97] [98] [nonceBytes]) (knownWorld [98] [97] []) :=
  ⟨knownWorld_acquainted _ _, rfl, by decide, exactHash_inj _,
    not_hateAnswered_zero (knownWorld_acquainted _ _) rfl rfl (by decide) _⟩

end Utu.Protocol
