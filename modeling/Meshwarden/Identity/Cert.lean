import Meshwarden.Identity.NodeId
import Mathlib.Data.Set.Card
import Mathlib.Order.Interval.Finset.Nat

/-!
# Capability certificates

An identity-bound capability certificate: minting, verification, and the complete wire form. The
issuer signs the canonical form of the fields, which carries no bound and no algorithm; the wire
form carries both, and is decoded strictly and canonically.

## Main definitions

* `CertificateFields`, `NodeCertificate`, `canonicalBytes`
* `NodeCertificate.signInput`, `NodeCertificate.sign`, `NodeCertificate.verify`
* `CertificateWire`, `NodeCertificate.toWireBytes`, `NodeCertificate.fromWireBytes`

## Main results

* `NodeCertificate.wire_codec_bijective`: the wire codec is a bijection onto canonical octets
* `NodeCertificate.verify_eq`: a verdict is that of the checks that do not look at the time, then
  that of the window
* `NodeCertificate.verify_window`: when a certificate verifies, and for how long
-/

namespace Meshwarden.Identity

open Codec Crypto Proto

/-! ## Certificates -/

/-- Longest lifetime of a certificate: eight hours. -/
def maxCertLifetimeSecs : UInt64 := 8 * 60 * 60

/-- The signed fields of a certificate. -/
structure CertificateFields where
  subject : NodeId
  publicKey : Bytes
  capabilities : List UInt16
  validFrom : UInt64
  validUntil : UInt64
  issuer : NodeId
  deriving DecidableEq

/-- A certificate: the fields and the issuer's signature over them. -/
structure NodeCertificate extends CertificateFields where
  signature : Signature
  deriving DecidableEq

/-- An identity inside a signed or sent structure. -/
def writeNodeId (id : NodeId) : Bytes := writeBytes (utf8 id.display)

/-- The canonical form: the fields in order. A key and a capability list of any length are written;
the key is a sequence of bytes here. -/
def writeCanonicalForm (f : CertificateFields) : Bytes :=
  writeNodeId f.subject ++ writeSeq (fun x => [x]) f.publicKey ++
    writeSeq (fun c : UInt16 => Leb128.encode c.toNat) f.capabilities ++
    Leb128.encode f.validFrom.toNat ++ Leb128.encode f.validUntil.toNat ++ writeNodeId f.issuer

/-- The bytes an issuer signs. -/
def canonicalBytes (f : CertificateFields) : Except Error Bytes := .ok (writeCanonicalForm f)

/-! ## Checks -/

/-- `u64::checked_sub`. -/
def checkedSub (a b : UInt64) : Option UInt64 := if b ≤ a then some (a - b) else none

/-- The window must not be inverted, empty, or longer than the longest lifetime. -/
def checkLifetime (validFrom validUntil : UInt64) : Except Error Unit :=
  match checkedSub validUntil validFrom with
  | some lifetime =>
    if lifetime > 0 ∧ lifetime ≤ maxCertLifetimeSecs then .ok ()
    else .error (.lifetimeExceedsMaximum validFrom validUntil)
  | none => .error (.lifetimeExceedsMaximum validFrom validUntil)

def checkCapabilityCount (capabilities : List UInt16) : Except Error Unit :=
  let count := capabilities.length
  if count > maxCertCapabilities then .error (.tooManyCapabilities count maxCertCapabilities)
  else .ok ()

def checkWireFieldLen (field : CertificateWireField) (len max : ℕ) : Except Error Unit :=
  if len > max then .error (.fieldBoundExceeded field len max) else .ok ()

def checkSubjectPublicKey (P : Primitives) (publicKey : Bytes) : Except Error Unit := do
  let _ ← (PublicKey.fromBytes (P := P) publicKey).mapError .malformedSubjectPublicKey
  pure ()

/-- Errors that report the time of a verification. -/
def Error.Timed : Error → Prop
  | .notYetValid _ _ => True
  | .expired _ _ => True
  | _ => False

theorem checkedSub_eq_some_iff {a b d : UInt64} :
    checkedSub a b = some d ↔ b.toNat ≤ a.toNat ∧ d.toNat = a.toNat - b.toNat := by
  rw [checkedSub]
  split_ifs with h
  · rw [Option.some_inj, ← UInt64.toNat_inj, UInt64.toNat_sub_of_le a b h]
    exact ⟨fun he => ⟨h, he.symm⟩, fun he => he.2.symm⟩
  · constructor
    · intro he
      cases he
    · intro he
      exact absurd he.1 h

/-- The lifetime check in exact integers. -/
theorem checkLifetime_eq_ok_iff {validFrom validUntil : UInt64} :
    checkLifetime validFrom validUntil = .ok () ↔
      validFrom.toNat < validUntil.toNat ∧ validUntil.toNat ≤ validFrom.toNat + 28800 := by
  rw [checkLifetime]
  rcases hd : checkedSub validUntil validFrom with _ | d
  · -- an inverted window has no length
    have hlt : ¬ validFrom.toNat ≤ validUntil.toNat := by
      intro hle
      have hsome := checkedSub_eq_some_iff.mpr ⟨hle, UInt64.toNat_sub_of_le _ _ hle⟩
      rw [hd] at hsome
      cases hsome
    constructor
    · intro h
      cases h
    · intro h
      exact absurd (Nat.le_of_lt h.1) hlt
  · obtain ⟨hle, hval⟩ := checkedSub_eq_some_iff.mp hd
    have hmax : d > 0 ∧ d ≤ maxCertLifetimeSecs ↔ 0 < d.toNat ∧ d.toNat ≤ 28800 := Iff.rfl
    simp only [hmax]
    split_ifs with h
    · simp only [true_iff]
      omega
    · simp only [false_iff]
      omega

theorem checkCapabilityCount_eq_ok_iff {capabilities : List UInt16} :
    checkCapabilityCount capabilities = .ok () ↔ capabilities.length ≤ maxCertCapabilities := by
  simp only [checkCapabilityCount]
  split_ifs with h
  · constructor
    · intro he
      cases he
    · intro he
      exact absurd he (Nat.not_le.mpr h)
  · exact ⟨fun _ => Nat.le_of_not_lt h, fun _ => rfl⟩

theorem checkCapabilityCount_of_lt {capabilities : List UInt16}
    (h : maxCertCapabilities < capabilities.length) :
    checkCapabilityCount capabilities =
      .error (.tooManyCapabilities capabilities.length maxCertCapabilities) :=
  if_pos h

theorem checkWireFieldLen_of_le {field : CertificateWireField} {len max : ℕ} (h : len ≤ max) :
    checkWireFieldLen field len max = .ok () :=
  if_neg (Nat.not_lt.mpr h)

theorem checkWireFieldLen_of_lt {field : CertificateWireField} {len max : ℕ} (h : max < len) :
    checkWireFieldLen field len max = .error (.fieldBoundExceeded field len max) :=
  if_pos h

theorem checkSubjectPublicKey_eq_ok_iff {P : Primitives} {publicKey : Bytes} :
    checkSubjectPublicKey P publicKey = .ok () ↔
      ∃ key : PublicKey P, PublicKey.fromBytes publicKey = .ok key := by
  simp only [checkSubjectPublicKey, bind_eq_ok_iff, mapError_eq_ok_iff]
  constructor
  · rintro ⟨key, hkey, -⟩
    exact ⟨key, hkey⟩
  · rintro ⟨key, hkey⟩
    exact ⟨key, hkey, rfl⟩

/-- The checks of fields report no time. -/
theorem not_timed_of_check {P : Primitives} {c : CertificateFields} {e : Error}
    (h : checkCapabilityCount c.capabilities = .error e ∨
      checkSubjectPublicKey P c.publicKey = .error e ∨
      checkLifetime c.validFrom c.validUntil = .error e) : ¬ e.Timed := by
  rcases h with h | h | h
  · simp only [checkCapabilityCount] at h
    split_ifs at h
    rw [← Except.error.inj h]
    exact id
  · rw [checkSubjectPublicKey] at h
    rcases hk : (PublicKey.fromBytes c.publicKey : Except _ (PublicKey P)) with e' | key
    · rw [hk] at h
      rw [← Except.error.inj h]
      exact id
    · rw [hk] at h
      cases h
  · rw [checkLifetime] at h
    split at h
    · split_ifs at h
      rw [← Except.error.inj h]
      exact id
    · rw [← Except.error.inj h]
      exact id

/-! ## Minting and verification -/

namespace NodeCertificate

variable {P : Primitives}

/-- The message that minting a certificate hands to the signer: the fields are checked, then put
into their canonical form. -/
def signInput (P : Primitives) (fields : CertificateFields) : Except Error Bytes := do
  checkCapabilityCount fields.capabilities
  checkSubjectPublicKey P fields.publicKey
  if fields.subject ≠ NodeId.fromPublicKeyBytes P fields.publicKey then .error .subjectKeyMismatch
  else
    checkLifetime fields.validFrom fields.validUntil
    canonicalBytes fields

/-- Mints a certificate: the fields are checked, then signed. The issuer field is the caller's. -/
def sign (P : Primitives) (fields : CertificateFields) (issuer : Signer) :
    Except Error NodeCertificate := do
  let msg ← signInput P fields
  let signature ← (issuer msg).mapError .signing
  pure { fields with signature }

/-- Verifies a certificate under an issuer's key at a time. The time comes last. -/
def verify (c : NodeCertificate) (issuerPublicKey : PublicKey P) (now : UInt64) :
    Except Error Unit := do
  checkCapabilityCount c.capabilities
  checkSubjectPublicKey P c.publicKey
  if c.subject ≠ NodeId.fromPublicKeyBytes P c.publicKey then .error .subjectKeyMismatch
  else if c.issuer ≠ NodeId.fromPublicKeyBytes P issuerPublicKey.toBytes then
    .error .issuerKeyMismatch
  else
    let msg ← canonicalBytes c.toCertificateFields
    (issuerPublicKey.verify msg c.signature).mapError .badSignature
    checkLifetime c.validFrom c.validUntil
    if now < c.validFrom then .error (.notYetValid c.validFrom now)
    else if now ≥ c.validUntil then .error (.expired c.validUntil now)
    else pure ()

end NodeCertificate

/-! ## The wire form -/

/-- The complete certificate as it is encoded. -/
structure CertificateWire where
  subject : NodeId
  publicKey : BoundedBytes maxPublicKeyBytes
  capabilities : BoundedVec UInt16 maxCertCapabilities
  validFrom : UInt64
  validUntil : UInt64
  issuer : NodeId
  signatureAlgorithm : UInt16
  signature : BoundedBytes maxSignatureBytes
  deriving DecidableEq

namespace CertificateWire

def fields : CertificateWire ≃
    NodeId × BoundedBytes maxPublicKeyBytes × BoundedVec UInt16 maxCertCapabilities × UInt64 ×
      UInt64 × NodeId × UInt16 × BoundedBytes maxSignatureBytes × Unit where
  toFun d :=
    (d.subject, d.publicKey, d.capabilities, d.validFrom, d.validUntil, d.issuer,
      d.signatureAlgorithm, d.signature, ())
  invFun
    | (subject, publicKey, capabilities, validFrom, validUntil, issuer, signatureAlgorithm,
        signature, ()) =>
      { subject, publicKey, capabilities, validFrom, validUntil, issuer, signatureAlgorithm,
        signature }
  left_inv _ := rfl
  right_inv _ := rfl

def wire : WireType CertificateWire :=
  .struct fields <|
    .field (.text NodeId.textForm) <| .field (.boundedBytes maxPublicKeyBytes (by decide)) <|
    .field (.boundedVec maxCertCapabilities (by decide) .u16) <| .field .u64 <| .field .u64 <|
    .field (.text NodeId.textForm) <| .field .u16 <|
    .field (.boundedBytes maxSignatureBytes maxSignatureBytes_le_usizeMax) .nil

/-- The certificate of a decoded wire form. -/
def toCertificate (d : CertificateWire) (alg : AlgId) : NodeCertificate where
  subject := d.subject
  publicKey := d.publicKey.bytes
  capabilities := d.capabilities.items
  validFrom := d.validFrom
  validUntil := d.validUntil
  issuer := d.issuer
  signature := ⟨alg, d.signature.bytes⟩

theorem maxLength_le : wire.maxLength ≤ maxCertificateWireBytes := by decide

end CertificateWire

namespace NodeCertificate

/-- A bound violation of a constructor, under the name of the field it is about. -/
def boundError (f : ℕ → ℕ → Error) : Proto.Error → Error
  | .boundExceeded declared max => f declared max
  | other => .wire other

def wireDtoFromFields (c : NodeCertificate) : Except Error CertificateWire := do
  let publicKey ← (BoundedBytes.new c.publicKey).mapError
    (boundError (.fieldBoundExceeded .publicKey))
  let capabilities ← (BoundedVec.new c.capabilities).mapError (boundError .tooManyCapabilities)
  let signature ← (BoundedBytes.new c.signature.bytes).mapError
    (boundError (.fieldBoundExceeded .signature))
  pure
    { subject := c.subject, publicKey, capabilities, validFrom := c.validFrom,
      validUntil := c.validUntil, issuer := c.issuer,
      signatureAlgorithm := c.signature.alg.asU16, signature }

/-- The complete wire encoding: field bounds first, so that a failure names its field. -/
def toWireBytes (c : NodeCertificate) : Except Error Bytes := do
  checkCapabilityCount c.capabilities
  checkWireFieldLen .publicKey c.publicKey.length maxPublicKeyBytes
  checkWireFieldLen .signature c.signature.bytes.length maxSignatureBytes
  let dto ← wireDtoFromFields c
  let bytes ← CertificateWire.wire.toAllocvec dto
  if bytes.length > maxCertificateWireBytes then
    .error (.wireTooLarge bytes.length maxCertificateWireBytes)
  else pure bytes

/-- Decodes a complete certificate: total length, strict decoding, canonical re-encoding, and then
the algorithm. -/
def fromWireBytes (bytes : Bytes) (tl : ThreadLocals) :
    Except Error NodeCertificate × ThreadLocals :=
  if bytes.length > maxCertificateWireBytes then
    (.error (.wireTooLarge bytes.length maxCertificateWireBytes), tl)
  else
    let (decoded, tl) := decodeExact CertificateWire.wire.deserialize bytes tl
    (do
      let dto ← decoded.mapError .wire
      let reencoded ← CertificateWire.wire.toAllocvec dto
      if reencoded ≠ bytes then .error .nonCanonicalEncoding
      else
        let alg ← (AlgId.fromU16 dto.signatureAlgorithm).mapError .unknownAlgorithm
        pure (dto.toCertificate alg), tl)

/-! ## The wire codec -/

/-- The wire form of a certificate is the one it is read back from. -/
theorem wireDtoFromFields_eq_ok_iff {c : NodeCertificate} {d : CertificateWire} :
    c.wireDtoFromFields = .ok d ↔
      d.signatureAlgorithm = c.signature.alg.asU16 ∧ d.toCertificate c.signature.alg = c := by
  simp only [wireDtoFromFields, bind_eq_ok_iff, mapError_eq_ok_iff, BoundedBytes.new_eq_ok_iff,
    BoundedVec.new_eq_ok_iff]
  constructor
  · rintro ⟨publicKey, hkey, capabilities, hcaps, signature, hsig, hd⟩
    obtain rfl := Except.ok.inj hd
    refine ⟨rfl, ?_⟩
    simp only [CertificateWire.toCertificate, hkey, hcaps, hsig]
  · rintro ⟨halg, hc⟩
    rw [← hc]
    refine ⟨d.publicKey, rfl, d.capabilities, rfl, d.signature, rfl, ?_⟩
    -- the bounds are those of the wire form, which has no other field to choose
    have hd : d = { d with signatureAlgorithm := c.signature.alg.asU16 } := by rw [← halg]
    exact congrArg Except.ok hd.symm

theorem toWireBytes_eq_ok_iff {c : NodeCertificate} {b : Bytes} :
    c.toWireBytes = .ok b ↔
      ∃ d, c.wireDtoFromFields = .ok d ∧ b = CertificateWire.wire.serialize d := by
  constructor
  · intro h
    obtain ⟨-, -, h⟩ := bind_eq_ok_iff.mp h
    obtain ⟨-, -, h⟩ := bind_eq_ok_iff.mp h
    obtain ⟨-, -, h⟩ := bind_eq_ok_iff.mp h
    obtain ⟨d, hd, h⟩ := bind_eq_ok_iff.mp h
    obtain ⟨bytes, hbytes, h⟩ := bind_eq_ok_iff.mp h
    split_ifs at h
    obtain rfl := Except.ok.inj h
    exact ⟨d, hd, (Except.ok.inj hbytes).symm⟩
  · rintro ⟨d, hd, rfl⟩
    obtain ⟨-, hc⟩ := wireDtoFromFields_eq_ok_iff.mp hd
    have hlen := (CertificateWire.wire.length_serialize_le d).trans CertificateWire.maxLength_le
    -- the field checks ask for the bounds that the wire form carries in its types
    have hcaps : checkCapabilityCount c.capabilities = .ok () := by
      rw [← hc]
      exact checkCapabilityCount_eq_ok_iff.mpr d.capabilities.bounded
    have hkey : checkWireFieldLen .publicKey c.publicKey.length maxPublicKeyBytes = .ok () := by
      rw [← hc]
      exact checkWireFieldLen_of_le d.publicKey.bounded
    have hsig : checkWireFieldLen .signature c.signature.bytes.length maxSignatureBytes =
        .ok () := by
      rw [← hc]
      exact checkWireFieldLen_of_le d.signature.bounded
    rw [toWireBytes, hcaps, hkey, hsig, hd]
    simp only [WireType.toAllocvec, bind, Except.bind, if_neg (Nat.not_lt.mpr hlen)]
    rfl

theorem fromWireBytes_eq_ok_iff_dto {b : Bytes} {tl : ThreadLocals} {c : NodeCertificate} :
    (fromWireBytes b tl).1 = .ok c ↔
      ∃ d, b = CertificateWire.wire.serialize d ∧
        AlgId.fromU16 d.signatureAlgorithm = .ok c.signature.alg ∧
          d.toCertificate c.signature.alg = c := by
  constructor
  · intro h
    rw [fromWireBytes] at h
    split_ifs at h with hlen
    obtain ⟨d, -, h⟩ := bind_eq_ok_iff.mp h
    obtain ⟨reencoded, hbytes, h⟩ := bind_eq_ok_iff.mp h
    obtain rfl := Except.ok.inj hbytes
    split_ifs at h with hcanon
    -- decoded and canonical: the algorithm is left
    obtain ⟨alg, ha, h⟩ := bind_eq_ok_iff.mp h
    obtain rfl := Except.ok.inj h
    exact ⟨d, (not_not.mp hcanon).symm, mapError_eq_ok_iff.mp ha, rfl⟩
  · rintro ⟨d, rfl, ha, hc⟩
    have hlen := (CertificateWire.wire.length_serialize_le d).trans CertificateWire.maxLength_le
    rw [fromWireBytes, if_neg (Nat.not_lt.mpr hlen)]
    simp only [CertificateWire.wire.decodeExact_serialize d tl, Except.mapError,
      WireType.toAllocvec, bind, Except.bind, ha]
    rw [if_neg (not_not.mpr rfl), hc]
    rfl

/-- Decoding and encoding are inverse to each other, on any thread. -/
theorem fromWireBytes_eq_ok_iff {b : Bytes} {tl : ThreadLocals} {c : NodeCertificate} :
    (fromWireBytes b tl).1 = .ok c ↔ c.toWireBytes = .ok b := by
  rw [fromWireBytes_eq_ok_iff_dto, toWireBytes_eq_ok_iff]
  simp only [wireDtoFromFields_eq_ok_iff, AlgId.fromU16_eq_ok_iff]
  constructor
  · rintro ⟨d, hb, ha, hc⟩
    exact ⟨d, ⟨ha.symm, hc⟩, hb⟩
  · rintro ⟨d, ⟨ha, hc⟩, hb⟩
    exact ⟨d, hb, ha.symm, hc⟩

/-- **The wire codec is a bijection onto canonical octets.** A certificate that can be encoded is
read back, and what is decoded was encoded so, byte for byte; hence two byte strings never decode
to the same certificate. -/
theorem wire_codec_bijective :
    (∀ c b, c.toWireBytes = .ok b → ∀ tl, (fromWireBytes b tl).1 = .ok c) ∧
      (∀ b tl c, (fromWireBytes b tl).1 = .ok c → c.toWireBytes = .ok b) ∧
      ∀ b b' tl tl' c, (fromWireBytes b tl).1 = .ok c → (fromWireBytes b' tl').1 = .ok c →
        b = b' := by
  refine ⟨fun c b h tl => fromWireBytes_eq_ok_iff.mpr h,
    fun b tl c h => fromWireBytes_eq_ok_iff.mp h, ?_⟩
  intro b b' tl tl' c h h'
  have hb := fromWireBytes_eq_ok_iff.mp h
  rw [fromWireBytes_eq_ok_iff.mp h'] at hb
  exact (Except.ok.inj hb).symm

/-! ## Verdicts -/

section Verdicts

variable {P : Primitives} (c : NodeCertificate) (issuerPublicKey : PublicKey P)

/-- The checks of `verify` that do not look at the time, in its order. -/
def verifyUntimed : Except Error Unit := do
  checkCapabilityCount c.capabilities
  checkSubjectPublicKey P c.publicKey
  if c.subject ≠ NodeId.fromPublicKeyBytes P c.publicKey then .error .subjectKeyMismatch
  else if c.issuer ≠ NodeId.fromPublicKeyBytes P issuerPublicKey.toBytes then
    .error .issuerKeyMismatch
  else
    let msg ← canonicalBytes c.toCertificateFields
    (issuerPublicKey.verify msg c.signature).mapError .badSignature
    checkLifetime c.validFrom c.validUntil

/-- The checks of `verify` that look at the time. -/
def verifyWindow (now : UInt64) : Except Error Unit :=
  if now < c.validFrom then .error (.notYetValid c.validFrom now)
  else if now ≥ c.validUntil then .error (.expired c.validUntil now)
  else pure ()

/-- What the checks that do not look at the time ask for. -/
structure Sound : Prop where
  capabilities : c.capabilities.length ≤ maxCertCapabilities
  publicKey : ∃ key : PublicKey P, PublicKey.fromBytes c.publicKey = .ok key
  subject : c.subject = NodeId.fromPublicKeyBytes P c.publicKey
  issuer : c.issuer = NodeId.fromPublicKeyBytes P issuerPublicKey.toBytes
  signature : issuerPublicKey.verify (writeCanonicalForm c.toCertificateFields) c.signature = .ok ()
  lifetime : checkLifetime c.validFrom c.validUntil = .ok ()

/-- **A verdict is that of the untimed checks, then that of the window.** -/
theorem verify_eq (now : UInt64) :
    c.verify issuerPublicKey now =
      match c.verifyUntimed issuerPublicKey with
      | .error e => .error e
      | .ok () => c.verifyWindow now := by
  rw [verify, verifyUntimed]
  rcases checkCapabilityCount c.capabilities with e | ⟨⟩
  · rfl
  rcases checkSubjectPublicKey P c.publicKey with e | ⟨⟩
  · rfl
  by_cases hsubject : c.subject = NodeId.fromPublicKeyBytes P c.publicKey
  · by_cases hissuer : c.issuer = NodeId.fromPublicKeyBytes P issuerPublicKey.toBytes
    · simp only [hsubject, hissuer, ne_eq, not_true_eq_false, if_false, bind, Except.bind,
        canonicalBytes]
      -- both sides go on with the signature, then with the window
      rcases issuerPublicKey.verify (writeCanonicalForm c.toCertificateFields) c.signature with
        e | ⟨⟩
      · rfl
      · simp only [Except.mapError]
        rcases checkLifetime c.validFrom c.validUntil with e | ⟨⟩ <;> rfl
    · simp only [hsubject, hissuer, ne_eq, not_true_eq_false, not_false_eq_true, if_false, if_true,
        bind, Except.bind]
  · simp only [hsubject, ne_eq, not_false_eq_true, if_true, bind, Except.bind]

/-- The untimed checks pass on a sound certificate, and otherwise fail with an error that reports no
time. -/
theorem verifyUntimed_cases :
    c.verifyUntimed issuerPublicKey = .ok () ∧ c.Sound issuerPublicKey ∨
      ∃ e, c.verifyUntimed issuerPublicKey = .error e ∧ ¬ e.Timed ∧ ¬ c.Sound issuerPublicKey := by
  rw [verifyUntimed]
  -- check by check, in order: a check that fails is a condition that does not hold
  rcases hcaps : checkCapabilityCount c.capabilities with e | ⟨⟩
  · refine Or.inr ⟨e, rfl, not_timed_of_check (P := P) (Or.inl hcaps), fun hs => ?_⟩
    rw [checkCapabilityCount_eq_ok_iff.mpr hs.capabilities] at hcaps
    cases hcaps
  rcases hkey : checkSubjectPublicKey P c.publicKey with e | ⟨⟩
  · refine Or.inr ⟨e, rfl, not_timed_of_check (P := P) (Or.inr (Or.inl hkey)), fun hs => ?_⟩
    rw [checkSubjectPublicKey_eq_ok_iff.mpr hs.publicKey] at hkey
    cases hkey
  by_cases hsubject : c.subject = NodeId.fromPublicKeyBytes P c.publicKey
  · by_cases hissuer : c.issuer = NodeId.fromPublicKeyBytes P issuerPublicKey.toBytes
    · rw [if_neg (not_not.mpr hsubject), if_neg (not_not.mpr hissuer)]
      rcases hsig : issuerPublicKey.verify (writeCanonicalForm c.toCertificateFields)
          c.signature with e | ⟨⟩
      · refine Or.inr ⟨.badSignature e, ?_, id, fun hs => ?_⟩
        · simp only [canonicalBytes, bind, Except.bind, hsig, Except.mapError]
        · rw [hs.signature] at hsig
          cases hsig
      · simp only [canonicalBytes, bind, Except.bind, hsig, Except.mapError]
        rcases hlife : checkLifetime c.validFrom c.validUntil with e | ⟨⟩
        · refine Or.inr ⟨e, rfl, not_timed_of_check (P := P) (Or.inr (Or.inr hlife)),
            fun hs => ?_⟩
          rw [hs.lifetime] at hlife
          cases hlife
        · exact Or.inl ⟨rfl, checkCapabilityCount_eq_ok_iff.mp hcaps,
            checkSubjectPublicKey_eq_ok_iff.mp hkey, hsubject, hissuer, hsig, hlife⟩
    · rw [if_neg (not_not.mpr hsubject), if_pos hissuer]
      exact Or.inr ⟨.issuerKeyMismatch, rfl, id, fun hs => hissuer hs.issuer⟩
  · rw [if_pos hsubject]
    exact Or.inr ⟨.subjectKeyMismatch, rfl, id, fun hs => hsubject hs.subject⟩

variable {c issuerPublicKey}

theorem verify_of_sound (h : c.Sound issuerPublicKey) (now : UInt64) :
    c.verify issuerPublicKey now = c.verifyWindow now := by
  rw [verify_eq]
  rcases c.verifyUntimed_cases issuerPublicKey with ⟨hok, -⟩ | ⟨e, -, -, hs⟩
  · rw [hok]
  · exact absurd h hs

/-- A certificate that is not sound fails at every time, with one error. -/
theorem verify_of_not_sound (h : ¬ c.Sound issuerPublicKey) :
    ∃ e, ¬ e.Timed ∧ ∀ now, c.verify issuerPublicKey now = .error e := by
  rcases c.verifyUntimed_cases issuerPublicKey with ⟨-, hs⟩ | ⟨e, he, htimed, -⟩
  · exact absurd hs h
  · refine ⟨e, htimed, ?_⟩
    intro now
    rw [verify_eq, he]

theorem verifyWindow_eq_ok_iff {now : UInt64} :
    c.verifyWindow now = .ok () ↔ c.validFrom ≤ now ∧ now < c.validUntil := by
  rw [verifyWindow]
  split_ifs with hfrom huntil
  · constructor
    · intro h
      cases h
    · intro h
      exact absurd hfrom (UInt64.not_lt.mpr h.1)
  · constructor
    · intro h
      cases h
    · intro h
      exact absurd h.2 (UInt64.not_lt.mpr huntil)
  · exact ⟨fun _ => ⟨UInt64.not_lt.mp hfrom, UInt64.not_le.mp huntil⟩, fun _ => rfl⟩

theorem verify_eq_ok_iff {now : UInt64} :
    c.verify issuerPublicKey now = .ok () ↔
      c.Sound issuerPublicKey ∧ c.validFrom ≤ now ∧ now < c.validUntil := by
  by_cases hs : c.Sound issuerPublicKey
  · rw [verify_of_sound hs, verifyWindow_eq_ok_iff]
    exact ⟨fun h => ⟨hs, h⟩, fun h => h.2⟩
  · obtain ⟨e, -, he⟩ := verify_of_not_sound hs
    rw [he]
    constructor
    · intro h
      cases h
    · intro h
      exact absurd h.1 hs

/-- The number of times in a window. -/
theorem ncard_window (a b : UInt64) :
    {now : UInt64 | a ≤ now ∧ now < b}.ncard = b.toNat - a.toNat := by
  -- times are counted as natural numbers
  have himage : UInt64.toNat '' {now : UInt64 | a ≤ now ∧ now < b} =
      (Finset.Ico a.toNat b.toNat : Set ℕ) := by
    ext n
    rw [Finset.coe_Ico, Set.mem_Ico]
    constructor
    · rintro ⟨now, ⟨hfrom, huntil⟩, rfl⟩
      exact ⟨hfrom, huntil⟩
    · rintro ⟨hfrom, huntil⟩
      have hn : (UInt64.ofNat n).toNat = n :=
        UInt64.toNat_ofNat_of_lt' (huntil.trans b.toNat_lt)
      refine ⟨UInt64.ofNat n, ⟨?_, ?_⟩, hn⟩
      · rw [UInt64.le_iff_toNat_le, hn]
        exact hfrom
      · rw [UInt64.lt_iff_toNat_lt, hn]
        exact huntil
  rw [← Set.ncard_image_of_injective _ (fun _ _ h => UInt64.toNat_inj.mp h), himage,
    Set.ncard_coe_finset, Nat.card_Ico]

variable (c issuerPublicKey)

/-- **The lifetime cap as a law of verification.** The times at which a certificate verifies are
none, or exactly those of its window, of which there are at least one and at most 28800. What is
wrong with a certificate apart from the time is wrong at every time, and a verdict reports the time
only of a certificate with nothing else wrong. -/
theorem verify_window :
    ({now | c.verify issuerPublicKey now = .ok ()} = ∅ ∨
        {now | c.verify issuerPublicKey now = .ok ()} =
            {now | c.validFrom ≤ now ∧ now < c.validUntil} ∧
          1 ≤ {now | c.verify issuerPublicKey now = .ok ()}.ncard ∧
          {now | c.verify issuerPublicKey now = .ok ()}.ncard ≤ 28800) ∧
      (∀ now e, c.verify issuerPublicKey now = .error e → ¬ e.Timed →
        ∀ now', c.verify issuerPublicKey now' = .error e) ∧
      ∀ now e, c.verify issuerPublicKey now = .error e → e.Timed → c.Sound issuerPublicKey := by
  by_cases hs : c.Sound issuerPublicKey
  · have hset : {now | c.verify issuerPublicKey now = .ok ()} =
        {now | c.validFrom ≤ now ∧ now < c.validUntil} := by
      ext now
      exact verify_eq_ok_iff.trans ⟨fun h => h.2, fun h => ⟨hs, h⟩⟩
    obtain ⟨hlt, hle⟩ := checkLifetime_eq_ok_iff.mp hs.lifetime
    refine ⟨Or.inr ⟨hset, ?_, ?_⟩, ?_, fun _ _ _ _ => hs⟩
    · -- the window is not empty
      rw [hset, ncard_window]
      omega
    · -- nor longer than the longest lifetime
      rw [hset, ncard_window]
      omega
    · -- the window reports the time, whatever it reports
      intro now e he htimed
      refine absurd ?_ htimed
      rw [verify_of_sound hs, verifyWindow] at he
      split_ifs at he
      · rw [← Except.error.inj he]
        trivial
      · rw [← Except.error.inj he]
        trivial
      · cases he
  · obtain ⟨e, htimed, hall⟩ := verify_of_not_sound hs
    refine ⟨Or.inl ?_, ?_, ?_⟩
    · -- it fails at every time
      ext now
      simp only [Set.mem_ofPred_eq, hall, Set.mem_empty_iff_false, reduceCtorEq]
    · intro now e' he' _ now'
      rw [hall, ← he', hall]
    · -- and its one error is not about the time
      intro now e' he' htimed'
      rw [hall] at he'
      rw [Except.error.inj he'] at htimed
      exact absurd htimed' htimed

end Verdicts

end NodeCertificate

end Meshwarden.Identity
