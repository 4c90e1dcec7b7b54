import Meshwarden.Identity.Issuance
import Meshwarden.Proto.Allocation

/-!
# Allocation of the certificate decoder

A certificate is decoded in bounded pieces, but for its two identities: their texts are parsed from
the input, and a malformed one is copied into an error of its own, however long it is. What keeps
that within bounds is the total length, which is checked first.

## Main definitions

* `NodeId.fromStrMetered`, `NodeId.displayCost`: what parsing and displaying an identity allocates
* `NodeId.layout`: a target on which the texts are identities
* `NodeCertificate.fromWireBytesMetered`

## Main results

* `NodeId.fromStrMetered_fst`, `NodeCertificate.fromWireBytesMetered_fst`: the meter changes nothing
* `NodeId.fromStr_cost_le`: a text and its length pay for its parsing
* `NodeCertificate.fromWireBytes_allocates`: eight bytes for each byte of the input, and eight more
-/

namespace Meshwarden.Identity

open Codec Crypto Proto

namespace NodeId

/-- Parsing with its allocations: the copy of a malformed text, the decoded bytes, and the encoding
that the text is compared with. -/
def fromStrMetered (s : String) : Except Error NodeId × ℕ :=
  let copied := (utf8 s).length
  match (utf8 s).dropPrefix? (utf8 nodeIdScheme) with
  | none => (.error (.malformedNodeId s), copied)
  | some encoded =>
    if encoded.length ≠ nodeIdEncodedLen then (.error (.malformedNodeId s), copied)
    else
      let output := encoded.length * 5 / 8
      match Base32.decode encoded with
      | none => (.error (.malformedNodeId s), output + copied)
      | some decoded =>
        if h : decoded.length = nodeIdPrefixLen then
          let reencoded := utf8 (Base32.encode decoded)
          if reencoded ≠ encoded then
            (.error (.malformedNodeId s), output + reencoded.length + copied)
          else (.ok ⟨⟨decoded, h⟩⟩, output + reencoded.length)
        else (.error (.malformedNodeId s), output + copied)

/-- Displaying allocates the encoding of the prefix. The codec displays a text twice, first to learn
its length. -/
def displayCost (s : String) : ℕ := 2 * ((utf8 s).length - (utf8 nodeIdScheme).length)

theorem fromStrMetered_fst (s : String) : (fromStrMetered s).1 = fromStr s := by
  rw [fromStrMetered, fromStr]
  rcases (utf8 s).dropPrefix? (utf8 nodeIdScheme) with _ | encoded
  · rfl
  · simp only
    split_ifs
    · rfl
    · rcases Base32.decode encoded with _ | decoded
      · rfl
      · simp only
        split_ifs <;> rfl

theorem length_reencoded {decoded : Bytes} (h : decoded.length = nodeIdPrefixLen) :
    (utf8 (Base32.encode decoded)).length = 26 :=
  length_encode ⟨⟨decoded, h⟩⟩

/-- **A text and its length pay for its parsing**, at three bytes each. -/
theorem fromStr_cost_le (s : String) : (fromStrMetered s).2 ≤ 3 * (1 + (utf8 s).length) := by
  rw [fromStrMetered]
  rcases hdrop : (utf8 s).dropPrefix? (utf8 nodeIdScheme) with _ | encoded
  · simp only
    omega
  · obtain ⟨p, hs, hp⟩ := List.dropPrefix?_eq_some_iff.mp hdrop
    simp only
    split_ifs with hlen
    · simp only
      omega
    · -- from here on the text has the scheme and as many symbols as an identity
      have hscheme : (utf8 nodeIdScheme).length = 8 := rfl
      have hsymbols : encoded.length = 26 := not_not.mp hlen
      have htotal : (utf8 s).length = 34 := by
        rw [hs, List.length_append, eq_of_beq hp, hscheme, hsymbols]
      rcases Base32.decode encoded with _ | decoded
      · simp only
        omega
      · simp only
        split_ifs with hpre hsame
        · have hre := length_reencoded hpre
          simp only
          omega
        · have hre := length_reencoded hpre
          simp only
          omega
        · simp only
          omega

/-- An identity and its length pay for displaying it twice. -/
theorem displayCost_le (s : String) : displayCost s ≤ 2 * (1 + (utf8 s).length) := by
  rw [displayCost]
  omega

/-- A target on which the texts are identities. An identity is displayed in two pieces: the scheme,
and the encoding of the prefix. -/
def layout (L : Layout) : Layout where
  size := L.size
  size_eq_zero := L.size_eq_zero
  parse _ s := (fromStrMetered s).2
  parseRate := 3
  parse_le _ s := fromStr_cost_le s
  display t a := displayCost (t.display a)
  displayRate := 2
  display_le t a := displayCost_le (t.display a)
  pieces t a :=
    [min (utf8 nodeIdScheme).length (utf8 (t.display a)).length,
      (utf8 (t.display a)).length - (utf8 nodeIdScheme).length]
  pieces_sum t a := by
    rw [List.sum_cons, List.sum_singleton]
    omega

end NodeId

namespace NodeCertificate

/-- The decoder with its allocations. The byte strings of the decoded form are moved. -/
def fromWireBytesMetered (L : Layout) (bytes : Bytes) (tl : ThreadLocals) :
    (Except Error NodeCertificate × ThreadLocals) × ℕ :=
  if bytes.length > maxCertificateWireBytes then
    ((.error (.wireTooLarge bytes.length maxCertificateWireBytes), tl), 0)
  else
    let ((decoded, tl), allocated) :=
      decodeReencodedMetered (NodeId.layout L) CertificateWire.wire bytes tl
    ((do
      let (dto, reencoded) ← decoded.mapError .wire
      if reencoded ≠ bytes then .error .nonCanonicalEncoding
      else
        let alg ← (AlgId.fromU16 dto.signatureAlgorithm).mapError .unknownAlgorithm
        pure (dto.toCertificate alg), tl), allocated)

/-- Without the meter, the metered decoder is the decoder. -/
theorem fromWireBytesMetered_fst (L : Layout) (b : Bytes) (tl : ThreadLocals) :
    (fromWireBytesMetered L b tl).1 = fromWireBytes b tl := by
  have hd := decodeReencodedMetered_fst (NodeId.layout L) CertificateWire.wire b tl
  rw [fromWireBytesMetered, fromWireBytes]
  split_ifs with hlen
  · rfl
  · simp only [hd]
    rcases decodeExact CertificateWire.wire.deserialize b tl with ⟨e | dto, tl'⟩ <;> rfl

/-- Four bytes for the decoded form, where a capability pays most, and four for its re-encoding. -/
theorem fromWireBytesMetered_snd_le {L : Layout} (hcode : L.size .u16 ≤ 2) (b : Bytes)
    (tl : ThreadLocals) :
    (fromWireBytesMetered L b tl).2 ≤ 8 * b.length + 8 ∧
      (maxCertificateWireBytes < b.length → (fromWireBytesMetered L b tl).2 = 0) := by
  have hrate : CertificateWire.wire.rate (NodeId.layout L) =
      max 3 (max 1 (max (0 + BoundedVec.place (L.size .u16) 1)
        (max 0 (max 0 (max 3 (max 0 (max 1 0))))))) := rfl
  have hdisplay : CertificateWire.wire.displayRate (NodeId.layout L) = 2 := rfl
  have hplace := BoundedVec.place_code_le _ hcode
  have hle := decodeReencodedMetered_le (NodeId.layout L) CertificateWire.wire b tl
  have hmul : (CertificateWire.wire.rate (NodeId.layout L) +
      (2 + CertificateWire.wire.displayRate (NodeId.layout L))) * b.length ≤ 8 * b.length :=
    Nat.mul_le_mul_right _ (by omega)
  rw [fromWireBytesMetered]
  split_ifs with hlen
  · exact ⟨Nat.zero_le _, fun _ => rfl⟩
  · exact ⟨hle.trans (Nat.add_le_add_right hmul 8), fun h => absurd h hlen⟩

/-- **What the certificate decoder allocates**: eight bytes for each byte of the input at most and
eight more, and nothing for an input that is too long; so on any input at most 16392 bytes. -/
theorem fromWireBytes_allocates (L : Layout) (hcode : L.size .u16 ≤ 2) (b : Bytes)
    (tl : ThreadLocals) :
    (fromWireBytesMetered L b tl).1 = fromWireBytes b tl ∧
      (fromWireBytesMetered L b tl).2 ≤ 8 * b.length + 8 ∧
      (maxCertificateWireBytes < b.length → (fromWireBytesMetered L b tl).2 = 0) :=
  ⟨fromWireBytesMetered_fst L b tl, fromWireBytesMetered_snd_le hcode b tl⟩

/-- The root certificate, with the sizes of a 64-bit target. -/
theorem fromWireBytes_allocates_root :
    (fromWireBytesMetered .words64 (CertificateWire.wire.serialize Root.wire) .fresh).1 =
        fromWireBytes (CertificateWire.wire.serialize Root.wire) .fresh ∧
      (fromWireBytesMetered .words64 (CertificateWire.wire.serialize Root.wire) .fresh).2 ≤
        8 * (CertificateWire.wire.serialize Root.wire).length + 8 ∧
      (maxCertificateWireBytes < (CertificateWire.wire.serialize Root.wire).length →
        (fromWireBytesMetered .words64 (CertificateWire.wire.serialize Root.wire) .fresh).2 = 0) :=
  fromWireBytes_allocates .words64 (le_refl 2) _ .fresh

/-- Its 175 octets. -/
example : (fromWireBytesMetered .words64 (CertificateWire.wire.serialize Root.wire) .fresh).2 =
    572 := by
  decide +kernel

end NodeCertificate

end Meshwarden.Identity
