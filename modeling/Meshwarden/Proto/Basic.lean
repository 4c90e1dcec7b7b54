import Meshwarden.Crypto

/-!
# Wire constants and errors

## Main definitions

* the pre-authentication resource bounds
* `Error`: errors produced while decoding or validating wire types
* `algFromU16`, `algToU16`: the registry mapping with the wire error type
* `WireVersion`

## Main results

* `bind_eq_ok_iff`, `mapError_eq_ok_iff`: the steps of a computation that succeeds
* `algFromU16_eq_ok_iff`: which codes resolve
-/

namespace Meshwarden.Proto

open Codec Crypto

/-! ## Bounds -/

/-- Maximum size of a complete certificate wire encoding. -/
def maxCertificateWireBytes : ℕ := 2048

/-- Maximum number of capability entries of a certificate. -/
def maxCertCapabilities : ℕ := 64

/-- Maximum size of a signature byte string. -/
def maxSignatureBytes : ℕ := 128

/-- Maximum size of a public-key byte string. -/
def maxPublicKeyBytes : ℕ := 256

/-- Maximum number of entries in an authentication proof signature list. -/
def maxProofSignatures : ℕ := 4

/-- Maximum encoded size of an `AuthInit` message. -/
def maxAuthInitBytes : ℕ := 4096

/-- Maximum encoded size of an `AuthResponse` message. -/
def maxAuthResponseBytes : ℕ := 4096

/-- Maximum encoded size of an `AuthConfirm` message. -/
def maxAuthConfirmBytes : ℕ := 1024

/-- Maximum encoded size of an `AuthTranscriptV1`. -/
def maxAuthTranscriptBytes : ℕ := 8192

/-- Maximum number of entries in `Hello.supportedAlgs`. -/
def maxHelloAlgs : ℕ := 64

/-! ## Errors -/

inductive Error
  | unknownAlgorithm (code : UInt16)
  | unsupportedWireVersion (major : UInt16)
  | malformedFrame
  | payloadTooLarge (len max : ℕ)
  | malformedPayload
  | boundExceeded (declared max : ℕ)
  | trailingBytes (remaining : ℕ)
  | exactLength (expected actual : ℕ)
  | malformedWire
  | messageTooLarge (len max : ℕ)
  | nonCanonicalEncoding
  | encodeFailed
  | invalidAuthRole (role : UInt8)
  deriving DecidableEq, Repr

/-! ## Successful computations -/

section Success

variable {ε ε' α β : Type}

/-- A sequence succeeds when each of its steps does. -/
theorem bind_eq_ok_iff {x : Except ε α} {f : α → Except ε β} {b : β} :
    (x >>= f) = .ok b ↔ ∃ a, x = .ok a ∧ f a = .ok b := by
  rcases x with e | a
  · simp [bind, Except.bind]
  · simp [bind, Except.bind]

@[simp] theorem mapError_eq_ok_iff {x : Except ε α} {f : ε → ε'} {a : α} :
    x.mapError f = .ok a ↔ x = .ok a := by
  rcases x with e | a' <;> simp [Except.mapError]

end Success

/-! ## The registry on the wire -/

/-- Maps a wire code to its algorithm; unknown codes are rejected. -/
def algFromU16 (code : UInt16) : Except Error AlgId :=
  match AlgId.fromU16 code with
  | .ok alg => .ok alg
  | .error e => .error (.unknownAlgorithm e.code)

/-- Maps an algorithm to its registry wire code. -/
def algToU16 (alg : AlgId) : UInt16 := alg.asU16

theorem algFromU16_eq_ok_iff {code : UInt16} {a : AlgId} :
    algFromU16 code = .ok a ↔ a.asU16 = code := by
  rw [← AlgId.fromU16_eq_ok_iff, algFromU16]
  cases AlgId.fromU16 code <;> simp

theorem algFromU16_of_unregistered {code : UInt16} (h : ∀ a : AlgId, a.asU16 ≠ code) :
    algFromU16 code = .error (.unknownAlgorithm code) := by
  rw [algFromU16, AlgId.fromU16_of_unregistered h]

/-! ## Wire version -/

/-- Wire format version: major only. -/
structure WireVersion where
  major : UInt16
  deriving DecidableEq, Repr

/-- Current wire version. -/
def WireVersion.v1 : WireVersion := ⟨1⟩

/-- Whether this major is accepted by this build. -/
def WireVersion.isSupported (v : WireVersion) : Bool := v.major == WireVersion.v1.major

end Meshwarden.Proto
