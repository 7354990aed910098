import Utu.Protocol.Decrypt

/-!
# What a signature binds

A signed message carries its payload, a hash and a signature as three blobs of
the sender's choice. The signature is checked against the hash in the message;
the hash of the payload is never taken.
-/

namespace Utu.Protocol
open Stackish LinkedForest Procedure
set_option autoImplicit false

variable {D K S U : Type}

/-- The five blobs of a signed message, as the format binds them. -/
structure SignedParts where
  name : Option Bytes
  pubkey : Option Bytes
  signature : Option Bytes
  hash : Option Bytes
  payload : Option Bytes

def signedParts (h : Heap D) (bound : List (Bound D)) : SignedParts where
  name := boundString h bound 0 none
  pubkey := boundString h bound 1 none
  signature := boundString h bound 2 none
  hash := boundString h bound 3 none
  payload := boundString h bound 4 none

/-- The message is in the format and these are its blobs. -/
def SignedAs (env : Env D K S) (w : World D K S U) (input : Nat) (parts : SignedParts) : Prop :=
  ∃ bound, nodeDecons env.lib w.heap w.errno false input signedFormat = .ok (true, bound) ∧
    parts = signedParts w.heap bound

/-- What `CryptState_verify_signature` looks at before it returns a node. -/
structure Passes (env : Env D K S) (w : World D K S U) (name : Option Bytes) (parts : SignedParts)
    (stat : Bool) (key : K) (payload : Bytes) (node : Nat) (w' : World D K S U) : Prop where
  named : biseq parts.name name ≠ 0
  imported : ∃ blob, parts.pubkey = some blob ∧ env.ltc.eccImport blob = some key
  verified : env.ltc.eccVerifyHash parts.signature parts.hash key = some stat
  payload_eq : parts.payload = some payload
  parsed : Returns (parse env payload) w.clear (some node) w'

section Verify
variable {env : Env D K S} {w w' : World D K S U}

/-- A node comes back exactly from a message in the format that passes. -/
theorem returns_verifySignature {name : Option Bytes} {input node : Nat} {sigStat stat : Bool}
    {key : Option K} :
    Returns (verifySignature env name input sigStat) w (some node, stat, key) w' ↔
      ∃ parts pk payload w₁, SignedAs env w input parts ∧
        Passes env w name parts stat pk payload node w₁ ∧ key = some pk ∧ w' = w₁.clear := by
  have hClear : w.clear.clear = w.clear := World.clear_of_errno rfl
  constructor
  · intro h
    obtain ⟨⟨rc, bound⟩, w₁, hRun, hBody⟩ := returns_bind.mp h
    obtain ⟨hDecons, rfl⟩ := returns_decons.mp hRun
    obtain ⟨v, t, hGet, hRest⟩ := returns_bind.mp hBody
    obtain ⟨rfl, rfl⟩ := returns_get.mp hGet
    clear h hRun hBody hGet
    simp only [returns_bind, returns_check, returns_ite, returns_pure, hClear] at hRest
    obtain ⟨b, t, ⟨hb, rfl⟩, ⟨-, h, -⟩ | ⟨hGo, h⟩⟩ := hRest
    · cases h
    have hRc : rc = true := by simpa [hb] using hGo
    rw [hRc] at hDecons
    obtain ⟨b, t, ⟨hb, rfl⟩, ⟨-, h, -⟩ | ⟨hGo, h⟩⟩ := h
    · cases h
    have hName : biseq (boundString w.heap bound 0 none) name ≠ 0 :=
      fun hZero => hGo (by simp [hb, hZero])
    obtain ⟨out, t, hKey, h⟩ := h
    obtain ⟨blob, hBlob, hOut, rfl⟩ := returns_bstrEccKey.mp hKey
    simp only [World.clear_errno, if_true] at hOut
    cases out with
    | none =>
      obtain ⟨-, -, -, h⟩ := returns_bind.mp h
      cases (returns_pure.mp h).1
    | some pk =>
      simp only [returns_bind, returns_check, returns_ite, returns_pure, hClear] at h
      obtain ⟨b, t, ⟨-, rfl⟩, ⟨-, h, -⟩ | ⟨-, h⟩⟩ := h
      · cases h
      split at h
      · obtain ⟨-, -, -, h⟩ := returns_bind.mp h
        cases (returns_pure.mp h).1
      · rename_i stat' hStat
        simp only [returns_bind, returns_check, returns_ite, returns_pure, hClear] at h
        obtain ⟨b, t, ⟨-, rfl⟩, ⟨-, h, -⟩ | ⟨-, h⟩⟩ := h
        · cases h
        split at h
        · exact (returns_throw.mp h).elim
        · rename_i payload hPayload
          simp only [returns_bind, returns_check, returns_pure] at h
          obtain ⟨result, w₂, hParse, b, t, ⟨-, rfl⟩, hResult, rfl⟩ := h
          cases hResult
          exact ⟨signedParts w.heap bound, pk, payload, w₂, ⟨bound, hDecons, rfl⟩,
            ⟨hName, ⟨blob, hBlob, hOut.symm⟩, hStat, hPayload, hParse⟩, rfl, rfl⟩
  · rintro ⟨parts, pk, payload, w₁, ⟨bound, hDecons, rfl⟩, hPasses, rfl, rfl⟩
    obtain ⟨hName, ⟨blob, hBlob, hImport⟩, hStat, hPayload, hParse⟩ := hPasses
    refine returns_bind.mpr ⟨_, _, returns_decons.mpr ⟨hDecons, rfl⟩, ?_⟩
    refine returns_bind.mpr ⟨_, _, returns_get.mpr ⟨rfl, rfl⟩, ?_⟩
    refine returns_bind.mpr ⟨true, w.clear, returns_check.mpr ⟨rfl, hClear.symm⟩, ?_⟩
    refine returns_bind.mpr ⟨true, w.clear, returns_check.mpr ⟨?_, hClear.symm⟩, ?_⟩
    · simp only [signedParts] at hName
      simp [hName]
    refine returns_bind.mpr ⟨some pk, w.clear, returns_bstrEccKey.mpr ⟨blob, hBlob, ?_, hClear.symm⟩, ?_⟩
    · simp [hImport]
    refine returns_bind.mpr ⟨true, w.clear, returns_check.mpr ⟨rfl, hClear.symm⟩, ?_⟩
    simp only [signedParts] at hStat hPayload
    simp only [World.clear_heap, hStat, hPayload]
    refine returns_bind.mpr ⟨true, w.clear, returns_check.mpr ⟨rfl, hClear.symm⟩, ?_⟩
    refine returns_bind.mpr ⟨_, _, hParse, ?_⟩
    exact returns_bind.mpr ⟨_, _, returns_check.mpr ⟨rfl, rfl⟩, returns_pure.mpr ⟨rfl, rfl⟩⟩

end Verify

/-! ## A forged payload -/

/-- Signatures that are valid for one hash each: the one they are equal to. -/
def exactEnv : Env Unit Unit Unit :=
  { sampleEnv with ltc := { sampleLtc with eccVerifyHash := fun sig hash _ => some (sig == hash) } }

end Utu.Protocol
