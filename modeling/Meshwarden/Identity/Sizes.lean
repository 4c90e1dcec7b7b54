import Meshwarden.Identity.Minting
import Meshwarden.Proto.Sizes

/-!
# The longest certificates

A certificate takes the more room on the wire the longer its key, its signature and its list of
capabilities are, and the later it is valid. The wire form leaves more room than any certificate
needs that is ever accepted, whose key and signature are those of Ed25519.

## Main results

* `NodeCertificate.length_of_toWireBytes`: the length of a certificate on the wire
* `NodeCertificate.longest_certificates`: the longest that is encoded, and the longest that verifies
-/

namespace Meshwarden.Identity

open Codec Crypto Proto

/-! ## Lengths by the wire type -/

/-- The texts in a certificate are as long as texts of identities may be. -/
theorem CertificateWire.attained : wire.Attained := by
  have hnode : ∃ id, (utf8 (NodeId.textForm.display id)).length = NodeId.textForm.maxLength :=
    ⟨Root.nodeId, Root.nodeId.length_display⟩
  exact ⟨hnode, trivial, trivial, trivial, trivial, hnode, trivial, trivial, trivial⟩

theorem longest_lengths_certificate :
    IsGreatest {n | ∃ x, (CertificateWire.wire.serialize x).length = n}
        CertificateWire.wire.maxLength ∧
      IsGreatest (acceptedLengths (decodeExact CertificateWire.wire.deserialize))
        CertificateWire.wire.maxAccepted :=
  CertificateWire.wire.longest_lengths CertificateWire.attained

/-! ## Lengths of certificates -/

namespace NodeCertificate

/-- **The length of a certificate on the wire.** The texts of the identities take 35 bytes each, and
the algorithm code one. -/
theorem length_of_toWireBytes {c : NodeCertificate} {b : Bytes} (h : c.toWireBytes = .ok b) :
    b.length = 71 + (writeBytes c.publicKey).length +
      (writeSeq (fun x : UInt16 => Leb128.encode x.toNat) c.capabilities).length +
      (Leb128.encode c.validFrom.toNat).length + (Leb128.encode c.validUntil.toNat).length +
      (writeBytes c.signature.bytes).length := by
  obtain ⟨d, hd, rfl⟩ := toWireBytes_eq_ok_iff.mp h
  obtain ⟨halg, hc⟩ := wireDtoFromFields_eq_ok_iff.mp hd
  have hnode : ∀ id : NodeId, (writeBytes (utf8 (NodeId.textForm.display id))).length = 35 := by
    intro id
    have hlen : (utf8 (NodeId.textForm.display id)).length = 34 := id.length_display
    rw [writeBytes, List.length_append, hlen, Leb128.encode_of_lt (by decide)]
    rfl
  have hcode : (Leb128.encode d.signatureAlgorithm.toNat).length = 1 :=
    length_encode_registered ⟨c.signature.alg, halg.symm⟩
  have hwire : CertificateWire.wire.serialize d =
      writeBytes (utf8 (NodeId.textForm.display d.subject)) ++ (writeBytes d.publicKey.bytes ++
        (writeSeq (fun x : UInt16 => Leb128.encode x.toNat) d.capabilities.items ++
        (Leb128.encode d.validFrom.toNat ++ (Leb128.encode d.validUntil.toNat ++
        (writeBytes (utf8 (NodeId.textForm.display d.issuer)) ++
        (Leb128.encode d.signatureAlgorithm.toNat ++
        (writeBytes d.signature.bytes ++ []))))))) := rfl
  rw [← hc]
  simp only [hwire, List.length_append, List.length_nil, hnode, hcode,
    CertificateWire.toCertificate]
  omega

/-- Numbers of 64 bits take ten bytes at most. -/
theorem length_time_le (t : UInt64) : (Leb128.encode t.toNat).length ≤ 10 := by
  have hbits : t.toNat < 2 ^ 64 := t.toNat_lt
  exact Leb128.length_encode_le_maxGroups (by decide) hbits

/-- The capabilities that are within their bound. -/
theorem length_capabilities_le {l : List UInt16} (h : l.length ≤ maxCertCapabilities) :
    (writeSeq (fun x : UInt16 => Leb128.encode x.toNat) l).length ≤ 193 := by
  have hcode : ∀ x : UInt16, (Leb128.encode x.toNat).length ≤ 3 := by
    intro x
    have hbits : x.toNat < 2 ^ 16 := x.toNat_lt
    exact Leb128.length_encode_le_maxGroups (by decide) hbits
  exact length_writeSeq_le h hcode

/-- As many capabilities as there may be, of three bytes each. -/
def filledCapabilities : List UInt16 := List.replicate maxCertCapabilities 0xFFFF

theorem length_filledCapabilities :
    (writeSeq (fun x : UInt16 => Leb128.encode x.toNat) filledCapabilities).length = 193 :=
  length_writeSeq_replicate _ maxCertCapabilities _

/-- A certificate with every field filled. -/
def filled : NodeCertificate where
  subject := Root.nodeId
  publicKey := List.replicate maxPublicKeyBytes 0
  capabilities := filledCapabilities
  validFrom := 0xFFFFFFFFFFFFFFFF
  validUntil := 0xFFFFFFFFFFFFFFFF
  issuer := Root.nodeId
  signature := ⟨.ed25519, List.replicate maxSignatureBytes 0⟩

theorem filled_inBounds : filled.InBounds :=
  ⟨List.length_replicate.le, List.length_replicate.le, List.length_replicate.le⟩

theorem isGreatest_encodedLengths : IsGreatest (encodedLengths toWireBytes) 672 := by
  constructor
  · obtain ⟨b, hb⟩ := exists_toWireBytes_iff.mpr filled_inBounds
    refine ⟨filled, b, hb, ?_⟩
    have hkey := length_writeBytes_replicate maxPublicKeyBytes 0
    have hsig := length_writeBytes_replicate maxSignatureBytes 0
    rw [length_of_toWireBytes hb]
    simp only [filled, hkey, hsig, length_filledCapabilities]
    rfl
  · rintro n ⟨c, b, hb, rfl⟩
    obtain ⟨hcaps, hkey, hsig⟩ := exists_toWireBytes_iff.mp ⟨b, hb⟩
    have hcaps := length_capabilities_le hcaps
    have hkey := length_writeBytes_le hkey
    have hsig := length_writeBytes_le hsig
    have hbounds : (Leb128.encode maxPublicKeyBytes).length + maxPublicKeyBytes +
        ((Leb128.encode maxSignatureBytes).length + maxSignatureBytes) = 388 := rfl
    have hfrom := length_time_le c.validFrom
    have huntil := length_time_le c.validUntil
    rw [length_of_toWireBytes hb]
    omega

variable {P : Primitives}

theorem length_writeBytes_of_lt {l : Bytes} (h : l.length < 128) :
    (writeBytes l).length = 1 + l.length := by
  rw [writeBytes, List.length_append, Leb128.encode_of_lt h]
  rfl

/-- A certificate that verifies holds an Ed25519 key and an Ed25519 signature. -/
theorem Sound.length_le {c : NodeCertificate} {key : PublicKey P} (h : c.Sound key) {b : Bytes}
    (hb : c.toWireBytes = .ok b) : b.length ≤ 382 := by
  obtain ⟨subjectKey, hkey⟩ := h.publicKey
  obtain ⟨-, raw, hraw, -⟩ := verifyEd25519_eq_ok_iff.mp h.signature
  have hkeyLen : c.publicKey.length = 32 := by
    rw [PublicKey.fromBytes] at hkey
    split_ifs at hkey with hlen
    exact hlen
  have hsigLen : c.signature.bytes.length = 64 := by
    rw [← hraw]
    exact raw.2
  have hkey := length_writeBytes_of_lt (show c.publicKey.length < 128 by omega)
  have hsig := length_writeBytes_of_lt (show c.signature.bytes.length < 128 by omega)
  have hcaps := length_capabilities_le h.capabilities
  have hfrom := length_time_le c.validFrom
  have huntil := length_time_le c.validUntil
  rw [length_of_toWireBytes hb]
  omega

end NodeCertificate

end Meshwarden.Identity
