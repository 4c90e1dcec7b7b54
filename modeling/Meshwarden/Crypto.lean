import Meshwarden.Codec.Format

/-!
# The crypto boundary

The algorithm registry and the algorithm-tagged types through which every other crate uses
cryptography. The primitives themselves are third-party crates and enter as the parameter
`Primitives`; what is modelled is the code around them: the registry lookup, the length checks on
keys and signatures, and the check that a signature carries the verifier's own algorithm, made
before any of its bytes are looked at.

## Main definitions

* `AlgId`, `AlgId.asU16`, `AlgId.fromU16`: the registry
* `Signature`, `Digest`, `Error`
* `Primitives`: SHA-256 and Ed25519, as used
* `PublicKey`, `Keypair`, `verifyEd25519`

## Main results

* `AlgId.fromU16_eq_ok_iff`: the registry codes resolve, and no other code does
* `verifyEd25519_eq_ok_iff`: what an accepted signature is
-/

namespace Meshwarden.Crypto

open Codec

/-! ## The algorithm registry -/

/-- Wire-stable algorithm identifier. Reserved variants have a code and no implementation. -/
inductive AlgId
  | ed25519
  | x25519
  | sha256
  | sha384
  | mlKem768
  | mlDsa87
  | slhDsa128s
  deriving DecidableEq, Repr

/-- An unregistered wire code. -/
structure UnknownAlgorithmCode where
  code : UInt16
  deriving DecidableEq, Repr

namespace AlgId

/-- Every algorithm known to this build. -/
def all : List AlgId := [ed25519, x25519, sha256, sha384, mlKem768, mlDsa87, slhDsa128s]

/-- Registry wire code of an algorithm. -/
def asU16 : AlgId → UInt16
  | ed25519 => 0x0001
  | x25519 => 0x0002
  | sha256 => 0x0010
  | sha384 => 0x0011
  | mlKem768 => 0x0020
  | mlDsa87 => 0x0030
  | slhDsa128s => 0x0031

/-- Registry wire code to algorithm. -/
def fromU16 (code : UInt16) : Except UnknownAlgorithmCode AlgId :=
  match all.find? fun a => a.asU16 == code with
  | some a => .ok a
  | none => .error ⟨code⟩

theorem mem_all (a : AlgId) : a ∈ all := by cases a <;> decide

theorem asU16_injective : Function.Injective asU16 := by
  intro a b h
  cases a <;> cases b <;> first | rfl | exact absurd h (by decide)

/-- **A code resolves to the algorithm it is the registry code of.** -/
theorem fromU16_eq_ok_iff {code : UInt16} {a : AlgId} : fromU16 code = .ok a ↔ a.asU16 = code := by
  constructor
  · intro h
    unfold fromU16 at h
    split at h
    · rename_i a' hf
      obtain rfl := Except.ok.inj h
      simpa using List.find?_some hf
    · cases h
  · rintro rfl
    unfold fromU16
    split
    · rename_i a' hf
      have hcode : a'.asU16 = a.asU16 := by simpa using List.find?_some hf
      rw [asU16_injective hcode]
    · rename_i hf
      exact absurd (List.find?_eq_none.mp hf a (mem_all a)) (by simp)

theorem fromU16_of_unregistered {code : UInt16} (h : ∀ a : AlgId, a.asU16 ≠ code) :
    fromU16 code = .error ⟨code⟩ := by
  unfold fromU16
  split
  · rename_i a hf
    exact absurd (by simpa using List.find?_some hf) (h a)
  · rfl

@[simp] theorem fromU16_asU16 (a : AlgId) : fromU16 a.asU16 = .ok a := fromU16_eq_ok_iff.mpr rfl

/-- Resolving what resolves of a list leaves the codes that do, in order. -/
theorem map_asU16_filterMap {resolve : UInt16 → Option AlgId}
    (h : ∀ {code a}, resolve code = some a → a.asU16 = code) (codes : List UInt16) :
    (codes.filterMap resolve).map asU16 = codes.filter fun code => (resolve code).isSome := by
  induction codes with
  | nil => rfl
  | cons code codes ih =>
    rcases hr : resolve code with _ | a
    · rw [List.filterMap_cons_none hr, ih, List.filter_cons_of_neg (by rw [hr]; exact nofun)]
    · rw [List.filterMap_cons_some hr, List.map_cons, ih, h hr,
        List.filter_cons_of_pos (by rw [hr]; rfl)]

end AlgId

/-! ## Algorithm-tagged values -/

/-- Algorithm-tagged signature, of any length. -/
structure Signature where
  alg : AlgId
  bytes : Bytes
  deriving DecidableEq, Repr

/-- Algorithm-tagged digest. -/
structure Digest where
  alg : AlgId
  bytes : Bytes

inductive Error
  | unsupportedAlg (alg : AlgId)
  | algMismatch (expected actual : AlgId)
  | malformedSignature (alg : AlgId) (expectedLen actualLen : ℕ)
  | malformedKey (alg : AlgId)
  | verificationFailed
  deriving DecidableEq, Repr

/-- The `Signer` trait: an algorithm-tagged signature over a message. -/
abbrev Signer := Bytes → Except Error Signature

/-! ## Primitives -/

/-- An array of `n` bytes. -/
abbrev Octets (n : ℕ) := {l : Bytes // l.length = n}

/-- Length of an Ed25519 signature. -/
def signatureLen : ℕ := 64

/-- Length of an Ed25519 public key, and of a SHA-256 digest. -/
def publicKeyLen : ℕ := 32

/-- The primitive crates: SHA-256, and Ed25519 keys with their byte forms, signing and the
verification of a signature over a message. -/
structure Primitives where
  SigningKey : Type
  VerifyingKey : Type
  sha256 : Bytes → Octets 32
  verifyingKey : SigningKey → VerifyingKey
  sign : SigningKey → Bytes → Octets signatureLen
  fromBytes : Octets publicKeyLen → Option VerifyingKey
  toBytes : VerifyingKey → Octets publicKeyLen
  verify : VerifyingKey → Bytes → Octets signatureLen → Bool

variable (P : Primitives)

/-- One-shot SHA-256 digest. -/
def sha256 (data : Bytes) : Digest := ⟨.sha256, (P.sha256 data).1⟩

/-- Ed25519 public key with no secret material. -/
structure PublicKey where
  verifyingKey : P.VerifyingKey

/-- Ed25519 keypair. -/
structure Keypair where
  signingKey : P.SigningKey

variable {P}

/-- Shared verification path: the algorithm is compared before any byte is inspected. -/
def verifyEd25519 (verifyingKey : P.VerifyingKey) (msg : Bytes) (sig : Signature) :
    Except Error Unit :=
  if sig.alg ≠ .ed25519 then .error (.algMismatch .ed25519 sig.alg)
  else if h : sig.bytes.length = signatureLen then
    if P.verify verifyingKey msg ⟨sig.bytes, h⟩ then .ok () else .error .verificationFailed
  else .error (.malformedSignature .ed25519 signatureLen sig.bytes.length)

/-- An accepted signature is an Ed25519 signature that the primitive accepts. -/
theorem verifyEd25519_eq_ok_iff {k : P.VerifyingKey} {msg : Bytes} {sig : Signature} :
    verifyEd25519 k msg sig = .ok () ↔
      sig.alg = .ed25519 ∧ ∃ raw : Octets signatureLen, raw.1 = sig.bytes ∧
        P.verify k msg raw = true := by
  constructor
  · intro h
    unfold verifyEd25519 at h
    split_ifs at h with halg hlen hv
    exact ⟨not_not.mp halg, ⟨sig.bytes, hlen⟩, rfl, hv⟩
  · rintro ⟨halg, ⟨bytes, hlen⟩, rfl, hv⟩
    rw [verifyEd25519, if_neg (not_not.mpr halg), dif_pos hlen, if_pos hv]

namespace PublicKey

/-- A public key from its raw bytes: exactly 32 of them, and a point of the curve. -/
def fromBytes (bytes : Bytes) : Except Error (PublicKey P) :=
  if h : bytes.length = publicKeyLen then
    match P.fromBytes ⟨bytes, h⟩ with
    | some verifyingKey => .ok ⟨verifyingKey⟩
    | none => .error (.malformedKey .ed25519)
  else .error (.malformedKey .ed25519)

/-- Raw public key bytes. -/
def toBytes (k : PublicKey P) : Bytes := (P.toBytes k.verifyingKey).1

def verify (k : PublicKey P) (msg : Bytes) (sig : Signature) : Except Error Unit :=
  verifyEd25519 k.verifyingKey msg sig

end PublicKey

namespace Keypair

def publicKey (k : Keypair P) : PublicKey P := ⟨P.verifyingKey k.signingKey⟩

def publicKeyBytes (k : Keypair P) : Bytes := k.publicKey.toBytes

def sign (k : Keypair P) : Signer := fun msg => .ok ⟨.ed25519, (P.sign k.signingKey msg).1⟩

end Keypair

end Meshwarden.Crypto
