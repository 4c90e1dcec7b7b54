import Meshwarden.Proto.WireType

/-!
# Handshake and authentication messages

The wire structs of the handshake and of the authentication, their encoders and decoders, and the
transcript that both endpoints sign. A decoder of an authentication message checks the total
length, decodes strictly, compares the input with the re-encoding of what it decoded, and resolves
the algorithm codes of the message. Certificates are opaque byte strings here.

## Main definitions

* `Hello`, `AuthInit`, `AuthResponse`, `AuthConfirm` with `toBytes` and `fromBytes`
* `AuthTranscriptV1` with `new` and `toSigningBytes`; it has no decoder
* `fromBytesWith`, `toBytesWith`: what the authentication messages share
* `AcceptsExactly`: a decoder that accepts the encodings of the valid values and nothing else
* `AuthTranscriptV1.Valid`, `AuthTranscriptV1.FromNew`: what the constructor checks of the fields,
  and what it returns

## Main results

* `fromBytesWith_eq_ok_iff`: what a strict decoder accepts
* `fromBytes_acceptsExactly`: each authentication decoder accepts exactly the canonical encodings
* `AuthTranscriptV1.toSigningBytes_eq`: a transcript always has its signing bytes
* `AuthTranscriptV1.toSigningBytes_valid_iff`: the transcripts that sign only when valid are those
  of the constructor
-/

namespace Meshwarden.Proto

open Codec Crypto

variable {α : Type}

/-! ## Handshake -/

/-- Handshake capability advertisement: the algorithm codes a peer supports. -/
structure Hello where
  supportedAlgs : BoundedVec UInt16 maxHelloAlgs
  deriving DecidableEq

namespace Hello

def fields : Hello ≃ BoundedVec UInt16 maxHelloAlgs × Unit where
  toFun m := (m.supportedAlgs, ())
  invFun p := ⟨p.1⟩
  left_inv _ := rfl
  right_inv _ := rfl

def wire : WireType Hello :=
  .struct fields (.field (.boundedVec maxHelloAlgs (by decide) .u16) .nil)

/-- A `Hello` from raw wire codes. -/
def new (codes : List UInt16) : Except Error Hello := do
  let supportedAlgs ← BoundedVec.new codes
  pure ⟨supportedAlgs⟩

/-- A `Hello` from the algorithms this build supports. -/
def fromAlgorithms (algs : List AlgId) : Except Error Hello := new (algs.map algToU16)

/-- The advertised algorithms this build recognizes; unknown codes are skipped. -/
def knownAlgorithms (m : Hello) : List AlgId :=
  m.supportedAlgs.items.filterMap fun code => (algFromU16 code).toOption

theorem toOption_algFromU16_eq_some {code : UInt16} {alg : AlgId}
    (h : (algFromU16 code).toOption = some alg) : alg.asU16 = code := by
  rcases hr : algFromU16 code with e | alg'
  · rw [hr] at h
    cases h
  · rw [hr] at h
    rw [← Option.some.inj h]
    exact algFromU16_eq_ok_iff.mp hr

/-- The recognized algorithms are the advertised codes that resolve, in order. -/
theorem map_knownAlgorithms (m : Hello) :
    m.knownAlgorithms.map algToU16 =
      m.supportedAlgs.items.filter fun code => (algFromU16 code).toOption.isSome :=
  AlgId.map_asU16_filterMap toOption_algFromU16_eq_some m.supportedAlgs.items

/-- Every algorithm that is advertised by this build is recognized by it. -/
theorem knownAlgorithms_fromAlgorithms {algs : List AlgId} {m : Hello}
    (h : fromAlgorithms algs = .ok m) : m.knownAlgorithms = algs := by
  obtain ⟨codes, hcodes, hm⟩ := bind_eq_ok_iff.mp h
  obtain rfl := Except.ok.inj hm
  rw [BoundedVec.new] at hcodes
  split_ifs at hcodes
  obtain rfl := Except.ok.inj hcodes
  have hresolve : ∀ alg : AlgId, (algFromU16 (algToU16 alg)).toOption = some alg := fun alg => by
    rw [show algFromU16 (algToU16 alg) = .ok alg from algFromU16_eq_ok_iff.mpr rfl]
    rfl
  simp only [knownAlgorithms, List.filterMap_map, Function.comp_def, hresolve, List.filterMap_some]

def toBytes (m : Hello) : Except Error Bytes := wire.toAllocvec m

def fromBytes (bytes : Bytes) (tl : ThreadLocals) : Except Error Hello × ThreadLocals :=
  decodeExact wire.deserialize bytes tl

end Hello

/-! ## What the authentication messages share -/

/-- One entry in an authentication proof signature list. -/
structure WireSignature where
  algorithm : UInt16
  signature : BoundedBytes maxSignatureBytes
  deriving DecidableEq

namespace WireSignature

def fields : WireSignature ≃ UInt16 × BoundedBytes maxSignatureBytes × Unit where
  toFun m := (m.algorithm, m.signature, ())
  invFun p := ⟨p.1, p.2.1⟩
  left_inv _ := rfl
  right_inv _ := rfl

def wire : WireType WireSignature :=
  .struct fields <|
    .field .u16 <| .field (.boundedBytes maxSignatureBytes maxSignatureBytes_le_usizeMax) .nil

end WireSignature

/-- Every algorithm code of a signature list is resolved through the registry. -/
def resolveSignatureAlgorithms : List WireSignature → Except Error Unit
  | [] => pure ()
  | sig :: signatures => do
    let _ ← algFromU16 sig.algorithm
    resolveSignatureAlgorithms signatures

def checkCanonical (bytes reencoded : Bytes) : Except Error Unit :=
  if reencoded ≠ bytes then .error .nonCanonicalEncoding else .ok ()

/-- The end of an encoder: encode, then total length. -/
def toBytesWith (w : WireType α) (maxBytes : ℕ) (value : α) : Except Error Bytes := do
  let bytes ← w.toAllocvec value
  if bytes.length > maxBytes then .error (.messageTooLarge bytes.length maxBytes)
  else pure bytes

/-- A strict decoder: total length, strict decoding, canonical re-encoding, and then what the
message resolves. -/
def fromBytesWith (w : WireType α) (maxBytes : ℕ) (resolve : α → Except Error Unit) (bytes : Bytes)
    (tl : ThreadLocals) : Except Error α × ThreadLocals :=
  if bytes.length > maxBytes then (.error (.messageTooLarge bytes.length maxBytes), tl)
  else
    let (decoded, tl) := decodeExact w.deserialize bytes tl
    (do
      let value ← decoded
      let reencoded ← w.toAllocvec value
      checkCanonical bytes reencoded
      resolve value
      pure value, tl)

/-! ## Authentication messages -/

/-- Client to server authentication init. -/
structure AuthInit where
  authVersion : UInt16
  clientNonce : BoundedBytes 32
  clientCertificate : BoundedBytes maxCertificateWireBytes
  deriving DecidableEq

/-- Server to client authentication response. -/
structure AuthResponse where
  authVersion : UInt16
  serverNonce : BoundedBytes 32
  serverCertificate : BoundedBytes maxCertificateWireBytes
  signatures : BoundedVec WireSignature maxProofSignatures
  deriving DecidableEq

/-- Client to server authentication confirm. -/
structure AuthConfirm where
  signatures : BoundedVec WireSignature maxProofSignatures
  deriving DecidableEq

namespace AuthInit

def fields : AuthInit ≃
    UInt16 × BoundedBytes 32 × BoundedBytes maxCertificateWireBytes × Unit where
  toFun m := (m.authVersion, m.clientNonce, m.clientCertificate, ())
  invFun p := ⟨p.1, p.2.1, p.2.2.1⟩
  left_inv _ := rfl
  right_inv _ := rfl

def wire : WireType AuthInit :=
  .struct fields <|
    .field .u16 <| .field (.boundedBytes 32 (by decide)) <|
    .field (.boundedBytes maxCertificateWireBytes (by decide)) .nil

def toBytes (m : AuthInit) : Except Error Bytes := do
  let _ ← m.clientNonce.requireExactLen 32
  toBytesWith wire maxAuthInitBytes m

def fromBytes : Bytes → ThreadLocals → Except Error AuthInit × ThreadLocals :=
  fromBytesWith wire maxAuthInitBytes fun _ => .ok ()

end AuthInit

namespace AuthResponse

def fields : AuthResponse ≃
    UInt16 × BoundedBytes 32 × BoundedBytes maxCertificateWireBytes ×
      BoundedVec WireSignature maxProofSignatures × Unit where
  toFun m := (m.authVersion, m.serverNonce, m.serverCertificate, m.signatures, ())
  invFun p := ⟨p.1, p.2.1, p.2.2.1, p.2.2.2.1⟩
  left_inv _ := rfl
  right_inv _ := rfl

def wire : WireType AuthResponse :=
  .struct fields <|
    .field .u16 <| .field (.boundedBytes 32 (by decide)) <|
    .field (.boundedBytes maxCertificateWireBytes (by decide)) <|
    .field (.boundedVec maxProofSignatures (by decide) WireSignature.wire) .nil

def toBytes (m : AuthResponse) : Except Error Bytes := do
  let _ ← m.serverNonce.requireExactLen 32
  toBytesWith wire maxAuthResponseBytes m

def fromBytes : Bytes → ThreadLocals → Except Error AuthResponse × ThreadLocals :=
  fromBytesWith wire maxAuthResponseBytes fun m => resolveSignatureAlgorithms m.signatures.items

end AuthResponse

namespace AuthConfirm

def fields : AuthConfirm ≃ BoundedVec WireSignature maxProofSignatures × Unit where
  toFun m := (m.signatures, ())
  invFun p := ⟨p.1⟩
  left_inv _ := rfl
  right_inv _ := rfl

def wire : WireType AuthConfirm :=
  .struct fields <|
    .field (.boundedVec maxProofSignatures (by decide) WireSignature.wire) .nil

def toBytes (m : AuthConfirm) : Except Error Bytes := toBytesWith wire maxAuthConfirmBytes m

def fromBytes : Bytes → ThreadLocals → Except Error AuthConfirm × ThreadLocals :=
  fromBytesWith wire maxAuthConfirmBytes fun m => resolveSignatureAlgorithms m.signatures.items

end AuthConfirm

/-! ## The signing transcript -/

/-- Domain separation constant, `MESHWARDEN-AUTH` with a trailing NUL. -/
def authTranscriptDomainV1 : Bytes :=
  [0x4d, 0x45, 0x53, 0x48, 0x57, 0x41, 0x52, 0x44, 0x45, 0x4e, 0x2d, 0x41, 0x55, 0x54, 0x48, 0x00]

def authRoleClient : UInt8 := 0x01

def authRoleServer : UInt8 := 0x02

/-- Versioned authentication transcript, signed by both endpoints and never transmitted. Its fields
are public: a value need not come from `new`. -/
structure AuthTranscriptV1 where
  domain : BoundedBytes 16
  authVersion : UInt16
  authAlgorithm : UInt16
  role : UInt8
  channelBinding : BoundedBytes 32
  clientNodeId : BoundedBytes 34
  serverNodeId : BoundedBytes 34
  clientNonce : BoundedBytes 32
  serverNonce : BoundedBytes 32
  clientCertificate : BoundedBytes maxCertificateWireBytes
  serverCertificate : BoundedBytes maxCertificateWireBytes
  deriving DecidableEq

namespace AuthTranscriptV1

def fields : AuthTranscriptV1 ≃
    BoundedBytes 16 × UInt16 × UInt16 × UInt8 × BoundedBytes 32 × BoundedBytes 34 ×
      BoundedBytes 34 × BoundedBytes 32 × BoundedBytes 32 ×
      BoundedBytes maxCertificateWireBytes × BoundedBytes maxCertificateWireBytes × Unit where
  toFun t :=
    (t.domain, t.authVersion, t.authAlgorithm, t.role, t.channelBinding, t.clientNodeId,
      t.serverNodeId, t.clientNonce, t.serverNonce, t.clientCertificate, t.serverCertificate, ())
  invFun
    | (domain, authVersion, authAlgorithm, role, channelBinding, clientNodeId, serverNodeId,
        clientNonce, serverNonce, clientCertificate, serverCertificate, ()) =>
      { domain, authVersion, authAlgorithm, role, channelBinding, clientNodeId, serverNodeId,
        clientNonce, serverNonce, clientCertificate, serverCertificate }
  left_inv _ := rfl
  right_inv _ := rfl

/-- Field order is normative. Only the serialization of this type is derived. -/
def wire : WireType AuthTranscriptV1 :=
  .struct fields <|
    .field (.boundedBytes 16 (by decide)) <| .field .u16 <| .field .u16 <| .field .u8 <|
    .field (.boundedBytes 32 (by decide)) <| .field (.boundedBytes 34 (by decide)) <|
    .field (.boundedBytes 34 (by decide)) <| .field (.boundedBytes 32 (by decide)) <|
    .field (.boundedBytes 32 (by decide)) <|
    .field (.boundedBytes maxCertificateWireBytes (by decide)) <|
    .field (.boundedBytes maxCertificateWireBytes (by decide)) .nil

/-- A field whose length is fixed: bound first, then exact length. -/
def exactField {N : ℕ} (bytes : Bytes) : Except Error (BoundedBytes N) := do
  let field ← BoundedBytes.new bytes
  let _ ← field.requireExactLen N
  pure field

/-- Constructs a transcript with every exact-length check and the domain and role gates. -/
def new (domain : Bytes) (authVersion authAlgorithm : UInt16) (role : UInt8)
    (channelBinding clientNodeId serverNodeId clientNonce serverNonce clientCertificate
      serverCertificate : Bytes) : Except Error AuthTranscriptV1 :=
  if role ≠ authRoleClient ∧ role ≠ authRoleServer then .error (.invalidAuthRole role)
  else do
    let domain ← exactField domain
    -- wrong bytes at the correct length are malformed, not an exact-length error
    if domain.bytes ≠ authTranscriptDomainV1 then .error .malformedWire
    else
      let channelBinding ← exactField channelBinding
      let clientNodeId ← exactField clientNodeId
      let serverNodeId ← exactField serverNodeId
      let clientNonce ← exactField clientNonce
      let serverNonce ← exactField serverNonce
      let clientCertificate ← BoundedBytes.new clientCertificate
      let serverCertificate ← BoundedBytes.new serverCertificate
      pure
        { domain, authVersion, authAlgorithm, role, channelBinding, clientNodeId, serverNodeId,
          clientNonce, serverNonce, clientCertificate, serverCertificate }

/-- The encoding used as the signing input. -/
def toSigningBytes (t : AuthTranscriptV1) : Except Error Bytes :=
  toBytesWith wire maxAuthTranscriptBytes t

end AuthTranscriptV1

/-! ## Encoders -/

/-- Where every encoding of a type fits the total bound, the encoder has nothing to refuse. -/
theorem toBytesWith_eq {w : WireType α} {maxBytes : ℕ} (h : w.maxLength ≤ maxBytes) (value : α) :
    toBytesWith w maxBytes value = .ok (w.serialize value) := by
  have hl := (w.length_serialize_le value).trans h
  change (if (w.serialize value).length > maxBytes then _ else _) = _
  rw [if_neg (Nat.not_lt.mpr hl)]
  rfl

theorem AuthInit.maxLength_le : AuthInit.wire.maxLength ≤ maxAuthInitBytes := by decide

theorem AuthResponse.maxLength_le : AuthResponse.wire.maxLength ≤ maxAuthResponseBytes := by decide

theorem AuthConfirm.maxLength_le : AuthConfirm.wire.maxLength ≤ maxAuthConfirmBytes := by decide

theorem AuthTranscriptV1.maxLength_le :
    AuthTranscriptV1.wire.maxLength ≤ maxAuthTranscriptBytes := by
  decide

/-- The encoder refuses a nonce that is not exactly 32 bytes long, and nothing else. -/
theorem AuthInit.toBytes_eq (m : AuthInit) :
    m.toBytes =
      if m.clientNonce.bytes.length = 32 then .ok (wire.serialize m)
      else .error (.exactLength 32 m.clientNonce.bytes.length) := by
  rw [toBytes, BoundedBytes.requireExactLen, toBytesWith_eq maxLength_le]
  split_ifs <;> rfl

theorem AuthResponse.toBytes_eq (m : AuthResponse) :
    m.toBytes =
      if m.serverNonce.bytes.length = 32 then .ok (wire.serialize m)
      else .error (.exactLength 32 m.serverNonce.bytes.length) := by
  rw [toBytes, BoundedBytes.requireExactLen, toBytesWith_eq maxLength_le]
  split_ifs <;> rfl

theorem AuthInit.exists_toBytes_iff (m : AuthInit) :
    (∃ b, m.toBytes = .ok b) ↔ m.clientNonce.bytes.length = 32 := by
  rw [toBytes_eq]
  split_ifs with hlen
  · exact ⟨fun _ => hlen, fun _ => ⟨_, rfl⟩⟩
  · refine ⟨?_, fun h => absurd h hlen⟩
    rintro ⟨b, hb⟩
    cases hb

theorem AuthResponse.exists_toBytes_iff (m : AuthResponse) :
    (∃ b, m.toBytes = .ok b) ↔ m.serverNonce.bytes.length = 32 := by
  rw [toBytes_eq]
  split_ifs with hlen
  · exact ⟨fun _ => hlen, fun _ => ⟨_, rfl⟩⟩
  · refine ⟨?_, fun h => absurd h hlen⟩
    rintro ⟨b, hb⟩
    cases hb

/-- The last message has no field of a fixed length. -/
theorem AuthConfirm.toBytes_eq (m : AuthConfirm) : m.toBytes = .ok (wire.serialize m) :=
  toBytesWith_eq maxLength_le m

/-- A transcript always has its signing bytes: they never exceed the bound. -/
theorem AuthTranscriptV1.toSigningBytes_eq (t : AuthTranscriptV1) :
    t.toSigningBytes = .ok (wire.serialize t) :=
  toBytesWith_eq maxLength_le t

/-! ## Decoders -/

theorem resolveSignatureAlgorithms_eq_ok_iff {signatures : List WireSignature} :
    resolveSignatureAlgorithms signatures = .ok () ↔
      ∀ sig ∈ signatures, ∃ a : AlgId, a.asU16 = sig.algorithm := by
  induction signatures with
  | nil => simp [resolveSignatureAlgorithms, pure, Except.pure]
  | cons sig signatures ih =>
    rw [List.forall_mem_cons, ← ih, resolveSignatureAlgorithms]
    simp only [← algFromU16_eq_ok_iff]
    rcases algFromU16 sig.algorithm with e | a <;> simp [bind, Except.bind]

theorem checkCanonical_eq_ok_iff {bytes reencoded : Bytes} :
    checkCanonical bytes reencoded = .ok () ↔ bytes = reencoded := by
  rw [checkCanonical]
  split_ifs with h
  · constructor
    · intro he
      cases he
    · intro he
      exact absurd he.symm h
  · exact ⟨fun _ => (not_not.mp h).symm, fun _ => rfl⟩

/-- **What a strict decoder accepts**: the encodings of the values that resolve, as they stand. An
encoding decodes to its value on any thread, and the comparison refuses everything else that
decodes to it. -/
theorem fromBytesWith_eq_ok_iff {w : WireType α} {maxBytes : ℕ} (hmax : w.maxLength ≤ maxBytes)
    {resolve : α → Except Error Unit} {bytes : Bytes} {tl : ThreadLocals} {value : α} :
    (fromBytesWith w maxBytes resolve bytes tl).1 = .ok value ↔
      resolve value = .ok () ∧ bytes = w.serialize value := by
  constructor
  · intro h
    rw [fromBytesWith] at h
    split_ifs at h with hlen
    -- a decoded value is accepted only where its encoding is the input
    obtain ⟨value', -, h⟩ := bind_eq_ok_iff.mp h
    obtain ⟨reencoded, hbytes, h⟩ := bind_eq_ok_iff.mp h
    obtain rfl := Except.ok.inj hbytes
    obtain ⟨⟨⟩, hc, h⟩ := bind_eq_ok_iff.mp h
    obtain ⟨⟨⟩, hr, h⟩ := bind_eq_ok_iff.mp h
    obtain rfl : value' = value := Except.ok.inj h
    exact ⟨hr, checkCanonical_eq_ok_iff.mp hc⟩
  · rintro ⟨hr, rfl⟩
    -- no encoding is too long for the total bound
    have hlen := (w.length_serialize_le value).trans hmax
    have hc : checkCanonical (w.serialize value) (w.serialize value) = .ok () :=
      checkCanonical_eq_ok_iff.mpr rfl
    rw [fromBytesWith, if_neg (Nat.not_lt.mpr hlen)]
    simp only [w.decodeExact_serialize value tl, bind, Except.bind, WireType.toAllocvec, hc, hr]
    rfl

/-- A decoder accepts exactly the encodings of the valid values: an input is accepted as a value
when it is that value's encoding, which belongs to no other value. -/
def AcceptsExactly (fromBytes : Bytes → ThreadLocals → Except Error α × ThreadLocals)
    (encode : α → Bytes) (valid : α → Prop) : Prop :=
  (∀ bytes tl value, (fromBytes bytes tl).1 = .ok value ↔ valid value ∧ bytes = encode value) ∧
    Function.Injective encode

/-- Every algorithm code of a signature list is in the registry. -/
def Registered {N : ℕ} (signatures : BoundedVec WireSignature N) : Prop :=
  ∀ sig ∈ signatures.items, ∃ a : AlgId, a.asU16 = sig.algorithm

/-- **Each authentication decoder accepts exactly the canonical encodings**, of all values for the
first message and of those with registered algorithms for the other two. -/
theorem fromBytes_acceptsExactly :
    AcceptsExactly AuthInit.fromBytes AuthInit.wire.serialize (fun _ => True) ∧
      AcceptsExactly AuthResponse.fromBytes AuthResponse.wire.serialize
        (fun m => Registered m.signatures) ∧
      AcceptsExactly AuthConfirm.fromBytes AuthConfirm.wire.serialize
        (fun m => Registered m.signatures) := by
  refine ⟨⟨fun bytes tl m => ?_, AuthInit.wire.selfDelimiting.injective⟩,
    ⟨fun bytes tl m => ?_, AuthResponse.wire.selfDelimiting.injective⟩,
    ⟨fun bytes tl m => ?_, AuthConfirm.wire.selfDelimiting.injective⟩⟩
  · rw [AuthInit.fromBytes, fromBytesWith_eq_ok_iff AuthInit.maxLength_le]
    exact and_congr_left fun _ => ⟨fun _ => trivial, fun _ => rfl⟩
  · rw [AuthResponse.fromBytes, fromBytesWith_eq_ok_iff AuthResponse.maxLength_le,
      resolveSignatureAlgorithms_eq_ok_iff]
    exact Iff.rfl
  · rw [AuthConfirm.fromBytes, fromBytesWith_eq_ok_iff AuthConfirm.maxLength_le,
      resolveSignatureAlgorithms_eq_ok_iff]
    exact Iff.rfl

/-! ## Valid transcripts -/

namespace AuthTranscriptV1

/-- What the constructor checks of the fields: the role and domain gates, and every exact length. -/
structure Valid (t : AuthTranscriptV1) : Prop where
  role : t.role = authRoleClient ∨ t.role = authRoleServer
  domain : t.domain.bytes = authTranscriptDomainV1
  channelBinding : t.channelBinding.bytes.length = 32
  clientNodeId : t.clientNodeId.bytes.length = 34
  serverNodeId : t.serverNodeId.bytes.length = 34
  clientNonce : t.clientNonce.bytes.length = 32
  serverNonce : t.serverNonce.bytes.length = 32

/-- The constructor returns the transcript for some arguments. -/
def FromNew (t : AuthTranscriptV1) : Prop :=
  ∃ domain authVersion authAlgorithm role channelBinding clientNodeId serverNodeId clientNonce
    serverNonce clientCertificate serverCertificate,
    new domain authVersion authAlgorithm role channelBinding clientNodeId serverNodeId clientNonce
      serverNonce clientCertificate serverCertificate = .ok t

theorem exactField_eq_ok_iff {N : ℕ} {bytes : Bytes} {field : BoundedBytes N} :
    exactField bytes = .ok field ↔ field.bytes = bytes ∧ field.bytes.length = N := by
  simp only [exactField, bind_eq_ok_iff, BoundedBytes.new_eq_ok_iff]
  constructor
  · rintro ⟨field', hbytes, sized, hsized, hp⟩
    obtain rfl : field' = field := Except.ok.inj hp
    rw [BoundedBytes.requireExactLen] at hsized
    split_ifs at hsized with hlen
    exact ⟨hbytes, hlen⟩
  · rintro ⟨hbytes, hlen⟩
    refine ⟨field, hbytes, field.bytes, ?_, rfl⟩
    rw [BoundedBytes.requireExactLen, if_pos hlen]

/-- What the constructor returns is valid. -/
theorem FromNew.valid {t : AuthTranscriptV1} (h : t.FromNew) : t.Valid := by
  obtain ⟨domain, authVersion, authAlgorithm, role, channelBinding, clientNodeId, serverNodeId,
    clientNonce, serverNonce, clientCertificate, serverCertificate, h⟩ := h
  unfold new at h
  split_ifs at h with hrole
  -- one check after another, in the order of the fields
  obtain ⟨d, hd, h⟩ := bind_eq_ok_iff.mp h
  split_ifs at h with hdomain
  obtain ⟨cb, hcb, h⟩ := bind_eq_ok_iff.mp h
  obtain ⟨cid, hcid, h⟩ := bind_eq_ok_iff.mp h
  obtain ⟨sid, hsid, h⟩ := bind_eq_ok_iff.mp h
  obtain ⟨cn, hcn, h⟩ := bind_eq_ok_iff.mp h
  obtain ⟨sn, hsn, h⟩ := bind_eq_ok_iff.mp h
  obtain ⟨cc, -, h⟩ := bind_eq_ok_iff.mp h
  obtain ⟨sc, -, h⟩ := bind_eq_ok_iff.mp h
  obtain rfl := Except.ok.inj h
  constructor
  · by_contra hr
    exact hrole (not_or.mp hr)
  · exact not_not.mp hdomain
  · exact (exactField_eq_ok_iff.mp hcb).2
  · exact (exactField_eq_ok_iff.mp hcid).2
  · exact (exactField_eq_ok_iff.mp hsid).2
  · exact (exactField_eq_ok_iff.mp hcn).2
  · exact (exactField_eq_ok_iff.mp hsn).2

/-- The constructor returns every valid transcript, on that transcript's own fields. -/
theorem Valid.fromNew {t : AuthTranscriptV1} (h : t.Valid) : t.FromNew := by
  have hdomain : exactField t.domain.bytes = .ok t.domain :=
    exactField_eq_ok_iff.mpr ⟨rfl, by rw [h.domain]; rfl⟩
  have hcb : exactField t.channelBinding.bytes = .ok t.channelBinding :=
    exactField_eq_ok_iff.mpr ⟨rfl, h.channelBinding⟩
  have hcid : exactField t.clientNodeId.bytes = .ok t.clientNodeId :=
    exactField_eq_ok_iff.mpr ⟨rfl, h.clientNodeId⟩
  have hsid : exactField t.serverNodeId.bytes = .ok t.serverNodeId :=
    exactField_eq_ok_iff.mpr ⟨rfl, h.serverNodeId⟩
  have hcn : exactField t.clientNonce.bytes = .ok t.clientNonce :=
    exactField_eq_ok_iff.mpr ⟨rfl, h.clientNonce⟩
  have hsn : exactField t.serverNonce.bytes = .ok t.serverNonce :=
    exactField_eq_ok_iff.mpr ⟨rfl, h.serverNonce⟩
  have hcc : BoundedBytes.new t.clientCertificate.bytes = .ok t.clientCertificate :=
    BoundedBytes.new_eq_ok_iff.mpr rfl
  have hsc : BoundedBytes.new t.serverCertificate.bytes = .ok t.serverCertificate :=
    BoundedBytes.new_eq_ok_iff.mpr rfl
  refine ⟨t.domain.bytes, t.authVersion, t.authAlgorithm, t.role, t.channelBinding.bytes,
    t.clientNodeId.bytes, t.serverNodeId.bytes, t.clientNonce.bytes, t.serverNonce.bytes,
    t.clientCertificate.bytes, t.serverCertificate.bytes, ?_⟩
  unfold new
  rw [if_neg fun hr => h.role.elim hr.1 hr.2]
  refine bind_eq_ok_iff.mpr ⟨_, hdomain, ?_⟩
  rw [if_neg (not_not.mpr h.domain)]
  refine bind_eq_ok_iff.mpr ⟨_, hcb, bind_eq_ok_iff.mpr ⟨_, hcid, ?_⟩⟩
  refine bind_eq_ok_iff.mpr ⟨_, hsid, bind_eq_ok_iff.mpr ⟨_, hcn, ?_⟩⟩
  refine bind_eq_ok_iff.mpr ⟨_, hsn, bind_eq_ok_iff.mpr ⟨_, hcc, ?_⟩⟩
  exact bind_eq_ok_iff.mpr ⟨_, hsc, rfl⟩

/-- **Which transcripts sign only when valid**: those that the constructor returns. Signing checks
no field, so a transcript with other fields has its signing bytes too. -/
theorem toSigningBytes_valid_iff (t : AuthTranscriptV1) :
    (∀ bytes, t.toSigningBytes = .ok bytes → t.Valid) ↔ t.FromNew := by
  rw [t.toSigningBytes_eq]
  constructor
  · intro h
    exact (h _ rfl).fromNew
  · intro h bytes _
    exact h.valid

/-- A transcript with no role, no domain and nothing else either. -/
def blank : AuthTranscriptV1 where
  domain := .empty
  authVersion := 0
  authAlgorithm := 0
  role := 0
  channelBinding := .empty
  clientNodeId := .empty
  serverNodeId := .empty
  clientNonce := .empty
  serverNonce := .empty
  clientCertificate := .empty
  serverCertificate := .empty

/-- An invalid transcript turned into signing bytes. -/
theorem blank_toSigningBytes :
    blank.toSigningBytes = .ok [0, 0, 0, 0, 0, 0, 0, 0, 0, 0, 0] ∧ ¬ blank.Valid := by
  constructor
  · rfl
  · intro h
    exact absurd h.channelBinding (by decide)

end AuthTranscriptV1

end Meshwarden.Proto
