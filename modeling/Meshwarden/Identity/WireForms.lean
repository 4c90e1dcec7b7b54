import Meshwarden.Identity.Cert
import Meshwarden.Proto.Canonical
import Meshwarden.Proto.Frame

/-!
# Laws of every wire form

Two laws hold of the certificates and of the messages alike. A comparison with the re-encoding
rejects the overlong numbers and nothing else; and the bounds of the fields imply the bounds of the
whole, so that no total bound is ever the reason to refuse a value whose fields are in bounds.

## Main definitions

* `NodeCertificate.BoundError c e`: the first field of `c` that is over its bound, and the error
  that names it
* `EncodesWithin toBytes n`: an encoder that never exceeds its total bound, with the longest
  encoding
* `Framed toBytes`: what it encodes goes into a frame

## Main results

* `comparison_rejects_overlong`: canonicality is shortest numbers
* `NodeCertificate.exists_toWireBytes_iff`, `NodeCertificate.toWireBytes_eq_error_iff`: encoding a
  certificate fails on its first field out of bounds, and on nothing else
* `fieldBounds_imply_totalBounds`: lengths of the encodings, where they go next
-/

namespace Meshwarden.Identity

open Codec Crypto Proto

variable {α : Type}

/-! ## Canonicality -/

/-- The last step of decoding a certificate: the algorithm code. -/
def CertificateWire.resolve (d : CertificateWire) : Except Error NodeCertificate := do
  let alg ← (AlgId.fromU16 d.signatureAlgorithm).mapError .unknownAlgorithm
  pure (d.toCertificate alg)

theorem CertificateWire.resolve_ne (d : CertificateWire) :
    d.resolve ≠ .error .nonCanonicalEncoding := by
  rw [resolve]
  rcases AlgId.fromU16 d.signatureAlgorithm with e | a
  · intro h
    cases h
  · intro h
    cases h

/-- Decoding a certificate, step by step. -/
theorem NodeCertificate.fromWireBytes_eq {b : Bytes} {tl : ThreadLocals}
    (hlen : b.length ≤ maxCertificateWireBytes) :
    (fromWireBytes b tl).1 = (do
      let d ← (decodeExact CertificateWire.wire.deserialize b tl).1.mapError .wire
      if CertificateWire.wire.serialize d ≠ b then .error .nonCanonicalEncoding
      else d.resolve) := by
  rw [fromWireBytes, if_neg (Nat.not_lt.mpr hlen)]
  rcases decodeExact CertificateWire.wire.deserialize b tl with ⟨e | d, tl'⟩
  · simp only [bind, Except.bind, Except.mapError]
  · simp only [bind, Except.bind, WireType.toAllocvec, Except.mapError]
    rfl

theorem NodeCertificate.fromWireBytes_rejectsOverlong :
    RejectsOverlong CertificateWire.wire maxCertificateWireBytes fromWireBytes
      .nonCanonicalEncoding Error.unknownAlgorithm := by
  apply RejectsOverlong.of_eq Error.wire CertificateWire.resolve
  · intro b tl hlen
    exact fromWireBytes_eq hlen
  · -- the errors of decoding are wrapped
    intro e _
    exact ⟨Error.noConfusion, fun _ => Error.noConfusion⟩
  · exact CertificateWire.resolve_ne
  · intro code
    exact Error.noConfusion

/-- **The comparison rejects exactly the overlong numbers.** What strict decoding accepts is its own
re-encoding exactly when every number read from it is in its shortest form, and longer than the
re-encoding otherwise. So each strict decoder, on inputs within its bound, gives the error of the
comparison exactly to inputs that decode and hold an overlong number, and reports unknown codes only
of canonical inputs. `Hello` is decoded without a comparison: re-encoding gives a string no longer
than the input, which decodes to the same message and so is its own re-encoding, and which is the
input exactly when every number in that is shortest. -/
theorem comparison_rejects_overlong :
    (∀ {α : Type} (w : WireType α) b tl v, (decodeExact w.deserialize b tl).1 = .ok v →
        (w.serialize v = b ↔ w.Minimal b) ∧
          (¬ w.Minimal b → (w.serialize v).length < b.length)) ∧
      RejectsOverlong AuthInit.wire maxAuthInitBytes AuthInit.fromBytes .nonCanonicalEncoding
        Proto.Error.unknownAlgorithm ∧
      RejectsOverlong AuthResponse.wire maxAuthResponseBytes AuthResponse.fromBytes
        .nonCanonicalEncoding Proto.Error.unknownAlgorithm ∧
      RejectsOverlong AuthConfirm.wire maxAuthConfirmBytes AuthConfirm.fromBytes
        .nonCanonicalEncoding Proto.Error.unknownAlgorithm ∧
      RejectsOverlong CertificateWire.wire maxCertificateWireBytes NodeCertificate.fromWireBytes
        .nonCanonicalEncoding Error.unknownAlgorithm ∧
      ∀ b tl m, (Hello.fromBytes b tl).1 = .ok m →
        ∃ b', m.toBytes = .ok b' ∧ b'.length ≤ b.length ∧
          (∀ tl', (Hello.fromBytes b' tl').1 = .ok m) ∧ (b' = b ↔ Hello.wire.Minimal b) := by
  refine ⟨?_, ?_, ?_, ?_, NodeCertificate.fromWireBytes_rejectsOverlong, ?_⟩
  · intro α w b tl v h
    exact ⟨WireType.serialize_eq_iff h, WireType.length_serialize_lt h⟩
  · apply fromBytesWith_rejectsOverlong
    intro _ h
    cases h
  · exact fromBytesWith_rejectsOverlong _ _ fun _ => resolveSignatureAlgorithms_ne
  · exact fromBytesWith_rejectsOverlong _ _ fun _ => resolveSignatureAlgorithms_ne
  · intro b tl m h
    exact Hello.toBytes_of_fromBytes h

/-! ## Encoding a certificate -/

namespace NodeCertificate

/-- The first field that is over its bound, in the order they are checked in, and the error that
names it. -/
inductive BoundError (c : NodeCertificate) : Error → Prop
  | capabilities (h : maxCertCapabilities < c.capabilities.length) :
    BoundError c (.tooManyCapabilities c.capabilities.length maxCertCapabilities)
  | publicKey (hcaps : c.capabilities.length ≤ maxCertCapabilities)
    (h : maxPublicKeyBytes < c.publicKey.length) :
    BoundError c (.fieldBoundExceeded .publicKey c.publicKey.length maxPublicKeyBytes)
  | signature (hcaps : c.capabilities.length ≤ maxCertCapabilities)
    (hkey : c.publicKey.length ≤ maxPublicKeyBytes)
    (h : maxSignatureBytes < c.signature.bytes.length) :
    BoundError c (.fieldBoundExceeded .signature c.signature.bytes.length maxSignatureBytes)

/-- Every field is within its bound. -/
structure InBounds (c : NodeCertificate) : Prop where
  capabilities : c.capabilities.length ≤ maxCertCapabilities
  publicKey : c.publicKey.length ≤ maxPublicKeyBytes
  signature : c.signature.bytes.length ≤ maxSignatureBytes

/-- With every field in bounds the constructors of the wire form have nothing to refuse. -/
theorem InBounds.exists_dto {c : NodeCertificate} (h : c.InBounds) :
    ∃ d, c.wireDtoFromFields = .ok d := by
  refine ⟨{
    subject := c.subject
    publicKey := ⟨c.publicKey, h.publicKey⟩
    capabilities := ⟨c.capabilities, h.capabilities⟩
    validFrom := c.validFrom
    validUntil := c.validUntil
    issuer := c.issuer
    signatureAlgorithm := c.signature.alg.asU16
    signature := ⟨c.signature.bytes, h.signature⟩ }, ?_⟩
  exact wireDtoFromFields_eq_ok_iff.mpr ⟨rfl, rfl⟩

theorem InBounds.toWireBytes_eq {c : NodeCertificate} (h : c.InBounds) :
    ∃ d, c.toWireBytes = .ok (CertificateWire.wire.serialize d) := by
  obtain ⟨d, hd⟩ := h.exists_dto
  exact ⟨d, toWireBytes_eq_ok_iff.mpr ⟨d, hd, rfl⟩⟩

/-- The checks stop at the first field that is over its bound. -/
theorem BoundError.toWireBytes_eq {c : NodeCertificate} {e : Error} (h : c.BoundError e) :
    c.toWireBytes = .error e := by
  rw [toWireBytes]
  cases h with
  | capabilities h =>
    rw [checkCapabilityCount_of_lt h]
    rfl
  | publicKey hcaps h =>
    rw [checkCapabilityCount_eq_ok_iff.mpr hcaps, checkWireFieldLen_of_lt h]
    rfl
  | signature hcaps hkey h =>
    rw [checkCapabilityCount_eq_ok_iff.mpr hcaps, checkWireFieldLen_of_le hkey,
      checkWireFieldLen_of_lt h]
    rfl

theorem inBounds_or_boundError (c : NodeCertificate) : c.InBounds ∨ ∃ e, c.BoundError e := by
  -- field by field, in the order they are checked in
  rcases Nat.lt_or_ge maxCertCapabilities c.capabilities.length with h | hcaps
  · exact Or.inr ⟨_, .capabilities h⟩
  rcases Nat.lt_or_ge maxPublicKeyBytes c.publicKey.length with h | hkey
  · exact Or.inr ⟨_, .publicKey hcaps h⟩
  rcases Nat.lt_or_ge maxSignatureBytes c.signature.bytes.length with h | hsig
  · exact Or.inr ⟨_, .signature hcaps hkey h⟩
  · exact Or.inl ⟨hcaps, hkey, hsig⟩

/-- **A certificate is encoded exactly when its fields are in bounds.** -/
theorem exists_toWireBytes_iff {c : NodeCertificate} :
    (∃ b, c.toWireBytes = .ok b) ↔ c.InBounds := by
  constructor
  · rintro ⟨b, hb⟩
    rcases c.inBounds_or_boundError with h | ⟨e, he⟩
    · exact h
    · rw [he.toWireBytes_eq] at hb
      cases hb
  · intro h
    obtain ⟨d, hd⟩ := h.toWireBytes_eq
    exact ⟨_, hd⟩

/-- **Encoding fails with the first field that is out of bounds**, and with nothing else. -/
theorem toWireBytes_eq_error_iff {c : NodeCertificate} {e : Error} :
    c.toWireBytes = .error e ↔ c.BoundError e := by
  constructor
  · intro h
    rcases c.inBounds_or_boundError with hc | ⟨e', he'⟩
    · obtain ⟨d, hd⟩ := hc.toWireBytes_eq
      rw [hd] at h
      cases h
    · rw [he'.toWireBytes_eq] at h
      rwa [← Except.error.inj h]
  · exact BoundError.toWireBytes_eq

theorem length_toWireBytes_le {c : NodeCertificate} {b : Bytes} (h : c.toWireBytes = .ok b) :
    b.length ≤ CertificateWire.wire.maxLength := by
  obtain ⟨d, -, rfl⟩ := toWireBytes_eq_ok_iff.mp h
  exact CertificateWire.wire.length_serialize_le d

end NodeCertificate

/-! ## Totals -/

/-- An encoder that never exceeds its total bound, and never writes more than `n` bytes. -/
def EncodesWithin (toBytes : α → Except Proto.Error Bytes) (n : ℕ) : Prop :=
  ∀ m, (∀ len max, toBytes m ≠ .error (.messageTooLarge len max)) ∧
    ∀ b, toBytes m = .ok b → b.length ≤ n

/-- What is encoded is accepted as the payload of a frame, of any type and any supported version. -/
def Framed (toBytes : α → Except Proto.Error Bytes) : Prop :=
  ∀ m b, toBytes m = .ok b → ∀ (version : WireVersion) (messageType : UInt16),
    version.isSupported = true → ∃ out, Frame.encode ⟨version, messageType, b⟩ = .ok out

/-- An encoding of a few thousand bytes is far below the bound on payloads. -/
theorem EncodesWithin.framed {toBytes : α → Except Proto.Error Bytes} {n : ℕ}
    (h : EncodesWithin toBytes n) (hn : n ≤ maxPayloadLen) : Framed toBytes := by
  intro m b hb version messageType hv
  exact ⟨_, Frame.encode_eq_ok_iff.mpr ⟨⟨hv, ((h m).2 b hb).trans hn⟩, rfl⟩⟩

/-- An encoder that checks a condition of its own and then writes the wire form. -/
theorem EncodesWithin.of_eq {toBytes : α → Except Proto.Error Bytes} (w : WireType α)
    (h : ∀ m, toBytes m = .ok (w.serialize m) ∨
      ∃ expected actual, toBytes m = .error (.exactLength expected actual)) :
    EncodesWithin toBytes w.maxLength := by
  intro m
  rcases h m with he | ⟨expected, actual, he⟩ <;> rw [he]
  · constructor
    · intro len max h
      cases h
    · intro b hb
      rw [← Except.ok.inj hb]
      exact w.length_serialize_le m
  · constructor
    · intro len max h
      cases h
    · intro b hb
      cases hb

/-- The longest `Hello` advertises as many codes as it may, of three bytes each. -/
theorem encodesWithin_hello : EncodesWithin Hello.toBytes 193 :=
  EncodesWithin.of_eq Hello.wire fun _ => Or.inl rfl

theorem encodesWithin_authInit : EncodesWithin AuthInit.toBytes 2086 := by
  apply EncodesWithin.of_eq AuthInit.wire
  intro m
  rw [m.toBytes_eq]
  split_ifs
  · exact Or.inl rfl
  · exact Or.inr ⟨_, _, rfl⟩

theorem encodesWithin_authResponse : EncodesWithin AuthResponse.toBytes 2619 := by
  apply EncodesWithin.of_eq AuthResponse.wire
  intro m
  rw [m.toBytes_eq]
  split_ifs
  · exact Or.inl rfl
  · exact Or.inr ⟨_, _, rfl⟩

theorem encodesWithin_authConfirm : EncodesWithin AuthConfirm.toBytes 533 :=
  EncodesWithin.of_eq AuthConfirm.wire fun m => Or.inl m.toBytes_eq

theorem encodesWithin_transcript : EncodesWithin AuthTranscriptV1.toSigningBytes 4293 :=
  EncodesWithin.of_eq AuthTranscriptV1.wire fun t => Or.inl t.toSigningBytes_eq

/-- **Field bounds imply every total bound.** A certificate is encoded exactly when its fields are
in bounds, and otherwise the first of them that is not is reported; so neither the total bound nor
the mapping to the wire form is ever the reason. The messages and the transcript never exceed their
total bounds either, with these longest encodings, and nothing but the length of a nonce keeps them
from being encoded. Hence every encoded certificate fits the
certificate field of a message, and every encoded message fits a frame. -/
theorem fieldBounds_imply_totalBounds :
    (∀ c : NodeCertificate,
        ((∃ b, c.toWireBytes = .ok b) ↔
          c.capabilities.length ≤ 64 ∧ c.publicKey.length ≤ 256 ∧
            c.signature.bytes.length ≤ 128) ∧
        (∀ e, c.toWireBytes = .error e ↔ c.BoundError e) ∧
        (∀ e, c.toWireBytes = .error e →
          (∀ len max, e ≠ .wireTooLarge len max) ∧ ∀ e', e ≠ .wire e') ∧
        (c.InBounds → ∃ d, c.wireDtoFromFields = .ok d) ∧
        ∀ b, c.toWireBytes = .ok b →
          b.length ≤ 674 ∧ ∃ field : BoundedBytes maxCertificateWireBytes,
            BoundedBytes.new b = .ok field ∧ field.bytes = b) ∧
      (EncodesWithin AuthInit.toBytes 2086 ∧ EncodesWithin AuthResponse.toBytes 2619 ∧
        EncodesWithin AuthConfirm.toBytes 533 ∧
        EncodesWithin AuthTranscriptV1.toSigningBytes 4293) ∧
      ((∀ m : AuthInit, (∃ b, m.toBytes = .ok b) ↔ m.clientNonce.bytes.length = 32) ∧
        (∀ m : AuthResponse, (∃ b, m.toBytes = .ok b) ↔ m.serverNonce.bytes.length = 32) ∧
        (∀ m : AuthConfirm, ∃ b, m.toBytes = .ok b) ∧
        ∀ t : AuthTranscriptV1, ∃ b, t.toSigningBytes = .ok b) ∧
      Framed Hello.toBytes ∧ Framed AuthInit.toBytes ∧ Framed AuthResponse.toBytes ∧
        Framed AuthConfirm.toBytes := by
  refine ⟨fun c => ⟨?_, ?_, ?_, NodeCertificate.InBounds.exists_dto, ?_⟩,
    ⟨encodesWithin_authInit, encodesWithin_authResponse, encodesWithin_authConfirm,
      encodesWithin_transcript⟩,
    ⟨AuthInit.exists_toBytes_iff, AuthResponse.exists_toBytes_iff, fun m => ⟨_, m.toBytes_eq⟩,
      fun t => ⟨_, t.toSigningBytes_eq⟩⟩,
    encodesWithin_hello.framed (by decide), encodesWithin_authInit.framed (by decide),
    encodesWithin_authResponse.framed (by decide), encodesWithin_authConfirm.framed (by decide)⟩
  · rw [NodeCertificate.exists_toWireBytes_iff]
    exact ⟨fun h => ⟨h.capabilities, h.publicKey, h.signature⟩, fun h => ⟨h.1, h.2.1, h.2.2⟩⟩
  · intro e
    exact NodeCertificate.toWireBytes_eq_error_iff
  · intro e he
    -- the error names a field
    cases NodeCertificate.toWireBytes_eq_error_iff.mp he with
    | capabilities _ | publicKey _ _ | signature _ _ _ =>
      exact ⟨fun _ _ => Error.noConfusion, fun _ => Error.noConfusion⟩
  · intro b hb
    have hlen := NodeCertificate.length_toWireBytes_le hb
    refine ⟨hlen, ⟨b, hlen.trans CertificateWire.maxLength_le⟩, ?_, rfl⟩
    exact BoundedBytes.new_eq_ok_iff.mpr rfl

end Meshwarden.Identity
