import Meshwarden.Codec.Lengths
import Meshwarden.Proto.Messages

/-!
# Longest encodings, and longest inputs

The length of the longest encoding of a wire type follows from its bounds, and so does that of the
longest input that strict decoding accepts, which may be padded. Both are attained. For the messages
this says how much room they take at most: as they are encoded, and as their decoders accept them,
which make further demands or fewer.

## Main definitions

* `WireType.maxAccepted`: the length of the longest input of a wire type
* `encodedLengths`, `acceptedLengths`: the lengths that an encoder and a decoder know

## Main results

* `WireType.longest_lengths`: the greatest lengths of a wire type
* `longest_messages`: those of each message
-/

namespace Meshwarden.Proto

open Codec Crypto

variable {ε α β : Type}

/-! ## Wire types -/

namespace WireType

/-- The length of the longest input of a wire type: every number takes all the groups of its
type. -/
def maxAccepted : {α : Type} → WireType α → ℕ
  | _, .u8 => 1
  | _, .u16 => Leb128.maxGroups 16
  | _, .u64 => Leb128.maxGroups 64
  | _, .boundedBytes N _ => Leb128.maxGroups lengthBits + N
  | _, .boundedVec N _ item => Leb128.maxGroups lengthBits + N * item.maxAccepted
  | _, .text t => Leb128.maxGroups lengthBits + t.maxLength
  | _, .nil => 0
  | _, .field first rest => first.maxAccepted + rest.maxAccepted
  | _, .struct _ fields => fields.maxAccepted

/-- The bounds of the texts of a wire type are attained. -/
def Attained : {α : Type} → WireType α → Prop
  | _, .u8 => True
  | _, .u16 => True
  | _, .u64 => True
  | _, .boundedBytes _ _ => True
  | _, .boundedVec _ _ item => item.Attained
  | _, .text t => ∃ a, (utf8 (t.display a)).length = t.maxLength
  | _, .nil => True
  | _, .field first rest => first.Attained ∧ rest.Attained
  | _, .struct _ fields => fields.Attained

/-- **The longest encoding is attained.** -/
theorem exists_length_serialize (w : WireType α) (hw : w.Attained) :
    ∃ x, (w.serialize x).length = w.maxLength := by
  induction w with
  | u8 => exact ⟨0, rfl⟩
  | u16 => exact ⟨0xFFFF, rfl⟩
  | u64 => exact ⟨0xFFFFFFFFFFFFFFFF, rfl⟩
  | boundedBytes N bound =>
    exact ⟨⟨List.replicate N 0, List.length_replicate.le⟩, length_writeBytes_replicate N 0⟩
  | boundedVec N bound item ih =>
    obtain ⟨x, hx⟩ := ih hw
    have hlen := length_writeSeq_replicate item.serialize N x
    rw [hx] at hlen
    exact ⟨⟨List.replicate N x, List.length_replicate.le⟩, hlen⟩
  | text t =>
    obtain ⟨a, ha⟩ := hw
    refine ⟨a, ?_⟩
    rw [serialize, writeBytes, List.length_append, ha, maxLength]
  | nil => exact ⟨(), rfl⟩
  | field first rest ih₁ ih₂ =>
    obtain ⟨x, hx⟩ := ih₁ hw.1
    obtain ⟨y, hy⟩ := ih₂ hw.2
    refine ⟨(x, y), ?_⟩
    rw [serialize, List.length_append, hx, hy, maxLength]
  | struct e fields ih =>
    obtain ⟨y, hy⟩ := ih hw
    refine ⟨e.symm y, ?_⟩
    rw [serialize, Equiv.apply_symm_apply, hy, maxLength]

/-- **The longest reading of a wire type.** -/
theorem format_longest (w : WireType α) (hw : w.Attained) : w.format.Longest w.maxAccepted := by
  induction w with
  | u8 => exact Format.Longest.byte none
  | u16 => exact Format.Longest.varint none (by decide) UInt16.toNat UInt16.ofNat
  | u64 => exact Format.Longest.varint none (by decide) UInt64.toNat UInt64.ofNat
  | boundedBytes N bound =>
    exact (Format.Longest.bytesUpTo none _ (lt_of_le_usizeMax bound)).imap _
  | boundedVec N bound item ih =>
    exact (Format.Longest.seqUpTo none _ (lt_of_le_usizeMax bound) (ih hw)).imap _
  | text t => exact Format.Longest.text none hw
  | nil => exact Format.Longest.unit
  | field first rest ih₁ ih₂ => exact (ih₁ hw.1).pair (ih₂ hw.2)
  | struct e fields ih => exact (ih hw).imap e

end WireType

/-! ## Encoders and decoders -/

/-- The lengths of what an encoder returns. -/
def encodedLengths (toBytes : α → Except ε Bytes) : Set ℕ :=
  {n | ∃ m b, toBytes m = .ok b ∧ b.length = n}

/-- The lengths of what a decoder accepts, on any thread. -/
def acceptedLengths (fromBytes : Bytes → ThreadLocals → Except ε α × ThreadLocals) : Set ℕ :=
  {n | ∃ b tl m, (fromBytes b tl).1 = .ok m ∧ b.length = n}

theorem WireType.isGreatest_encodedLengths (w : WireType α) (hw : w.Attained) :
    IsGreatest (encodedLengths (w.toAllocvec (ε := ε))) w.maxLength := by
  constructor
  · obtain ⟨x, hx⟩ := w.exists_length_serialize hw
    exact ⟨x, _, rfl, hx⟩
  · rintro n ⟨m, b, hb, rfl⟩
    rw [← Except.ok.inj hb]
    exact w.length_serialize_le m

theorem WireType.isGreatest_acceptedLengths (w : WireType α) (hw : w.Attained) :
    IsGreatest (acceptedLengths (decodeExact w.deserialize)) w.maxAccepted := by
  have hlongest := (w.format_longest hw).isGreatest
  constructor
  · obtain ⟨b, a, hread, hlen⟩ := hlongest.1
    exact ⟨b, .fresh, a, (w.decodeExact_ok b .fresh).mpr hread, hlen⟩
  · rintro n ⟨b, tl, m, hm, rfl⟩
    exact hlongest.2 ⟨b, m, (w.decodeExact_ok b tl).mp hm, rfl⟩

/-- **The greatest lengths of a wire type**, of its encodings and of the inputs that strict decoding
accepts, on any thread. -/
theorem WireType.longest_lengths (w : WireType α) (hw : w.Attained) :
    IsGreatest {n | ∃ x, (w.serialize x).length = n} w.maxLength ∧
      IsGreatest (acceptedLengths (decodeExact w.deserialize)) w.maxAccepted := by
  refine ⟨⟨w.exists_length_serialize hw, ?_⟩, w.isGreatest_acceptedLengths hw⟩
  rintro n ⟨x, rfl⟩
  exact w.length_serialize_le x

/-! ## The messages at their longest -/

/-- A byte string that fills its bound. -/
def BoundedBytes.zeros (N : ℕ) : BoundedBytes N :=
  ⟨List.replicate N 0, List.length_replicate.le⟩

theorem BoundedBytes.length_zeros (N : ℕ) : (zeros N).bytes.length = N := List.length_replicate

/-- A signature that fills its bound, under an algorithm code. -/
def WireSignature.filled (code : UInt16) : WireSignature := ⟨code, .zeros maxSignatureBytes⟩

/-- As many of them as there may be. -/
def filledSignatures (code : UInt16) : BoundedVec WireSignature maxProofSignatures :=
  ⟨List.replicate maxProofSignatures (.filled code), List.length_replicate.le⟩

theorem registered_filledSignatures : Registered (filledSignatures 1) := by
  intro sig hsig
  rw [List.eq_of_mem_replicate hsig]
  exact ⟨.ed25519, rfl⟩

theorem WireSignature.length_serialize (sig : WireSignature) :
    (wire.serialize sig).length =
      (Leb128.encode sig.algorithm.toNat).length + (writeBytes sig.signature.bytes).length := by
  have hwire : wire.serialize sig =
      Leb128.encode sig.algorithm.toNat ++ (writeBytes sig.signature.bytes ++ []) := rfl
  rw [hwire, List.append_nil, List.length_append]

/-- The codes of the registry take one byte each. -/
theorem length_encode_registered {code : UInt16} (h : ∃ a : AlgId, a.asU16 = code) :
    (Leb128.encode code.toNat).length = 1 := by
  obtain ⟨a, rfl⟩ := h
  cases a <;> rfl

/-- A list of signatures under registered algorithms is shorter than its bounds allow. -/
theorem length_signatures_le {signatures : BoundedVec WireSignature maxProofSignatures}
    (h : Registered signatures) :
    (writeSeq WireSignature.wire.serialize signatures.items).length ≤ 525 := by
  have hitem : ∀ sig ∈ signatures.items, (WireSignature.wire.serialize sig).length ≤ 131 := by
    intro sig hsig
    have hbytes := length_writeBytes_le sig.signature.bounded
    have hbound : (Leb128.encode maxSignatureBytes).length + maxSignatureBytes = 130 := rfl
    rw [sig.length_serialize, length_encode_registered (h sig hsig)]
    omega
  have hcount := Leb128.length_encode_mono signatures.bounded
  have hone : (Leb128.encode maxProofSignatures).length = 1 := rfl
  have hmany := length_writeMany_le_of_mem hitem
  have hfour : signatures.items.length ≤ 4 := signatures.bounded
  rw [writeSeq, List.length_append]
  omega

theorem length_filledSignatures (code : UInt16) :
    (writeSeq WireSignature.wire.serialize (filledSignatures code).items).length =
      1 + 4 * ((Leb128.encode code.toNat).length + 130) := by
  have hlen := length_writeSeq_replicate WireSignature.wire.serialize maxProofSignatures
    (.filled code)
  have hbytes := length_writeBytes_replicate maxSignatureBytes 0
  have hitem : (WireSignature.wire.serialize (.filled code)).length =
      (Leb128.encode code.toNat).length + 130 := by
    rw [WireSignature.length_serialize]
    exact congrArg _ hbytes
  rw [hitem] at hlen
  exact hlen

/-- `AuthInit`, with every field filled. -/
def AuthInit.filled : AuthInit := ⟨0xFFFF, .zeros 32, .zeros maxCertificateWireBytes⟩

/-- `AuthResponse`, with every field filled. -/
def AuthResponse.filled (code : UInt16) : AuthResponse :=
  ⟨0xFFFF, .zeros 32, .zeros maxCertificateWireBytes, filledSignatures code⟩

/-- `AuthConfirm`, with every field filled. -/
def AuthConfirm.filled (code : UInt16) : AuthConfirm := ⟨filledSignatures code⟩

/-- A transcript that the constructor returns, with every field filled. -/
def AuthTranscriptV1.filled : AuthTranscriptV1 where
  domain := ⟨authTranscriptDomainV1, le_rfl⟩
  authVersion := 0xFFFF
  authAlgorithm := 0xFFFF
  role := authRoleClient
  channelBinding := .zeros 32
  clientNodeId := .zeros 34
  serverNodeId := .zeros 34
  clientNonce := .zeros 32
  serverNonce := .zeros 32
  clientCertificate := .zeros maxCertificateWireBytes
  serverCertificate := .zeros maxCertificateWireBytes

theorem length_nonce : (writeBytes (BoundedBytes.zeros 32).bytes).length = 33 :=
  length_writeBytes_replicate 32 0

theorem length_certificate :
    (writeBytes (BoundedBytes.zeros maxCertificateWireBytes).bytes).length = 2050 :=
  length_writeBytes_replicate maxCertificateWireBytes 0

theorem AuthInit.length_filled : (wire.serialize filled).length = 2086 := by
  have hwire : wire.serialize filled = Leb128.encode 0xFFFF ++
      (writeBytes (BoundedBytes.zeros 32).bytes ++
        (writeBytes (BoundedBytes.zeros maxCertificateWireBytes).bytes ++ [])) := rfl
  simp only [hwire, List.length_append, length_nonce, length_certificate]
  rfl

theorem AuthResponse.length_serialize (m : AuthResponse) :
    (wire.serialize m).length = (Leb128.encode m.authVersion.toNat).length +
      ((writeBytes m.serverNonce.bytes).length + ((writeBytes m.serverCertificate.bytes).length +
        (writeSeq WireSignature.wire.serialize m.signatures.items).length)) := by
  have hwire : wire.serialize m = Leb128.encode m.authVersion.toNat ++
      (writeBytes m.serverNonce.bytes ++ (writeBytes m.serverCertificate.bytes ++
        (writeSeq WireSignature.wire.serialize m.signatures.items ++ []))) := rfl
  rw [hwire, List.append_nil, List.length_append, List.length_append, List.length_append]

theorem AuthConfirm.length_serialize (m : AuthConfirm) :
    (wire.serialize m).length =
      (writeSeq WireSignature.wire.serialize m.signatures.items).length := by
  have hwire : wire.serialize m =
      writeSeq WireSignature.wire.serialize m.signatures.items ++ [] := rfl
  rw [hwire, List.append_nil]

/-- What an encoder returns is the serialization, if it returns anything. -/
theorem length_le_of_toBytes {toBytes : α → Except Error Bytes} {w : WireType α}
    {condition : α → Prop} [DecidablePred condition] {refuse : α → Error}
    (heq : ∀ m, toBytes m = if condition m then .ok (w.serialize m) else .error (refuse m)) :
    ∀ n ∈ encodedLengths toBytes, n ≤ w.maxLength := by
  rintro n ⟨m, b, hb, rfl⟩
  rw [heq m] at hb
  split_ifs at hb
  rw [← Except.ok.inj hb]
  exact w.length_serialize_le m

theorem AuthInit.isGreatest_encodedLengths : IsGreatest (encodedLengths toBytes) 2086 := by
  have hfilled : filled.toBytes = .ok (wire.serialize filled) := by
    rw [toBytes_eq]
    exact if_pos (BoundedBytes.length_zeros 32)
  exact ⟨⟨filled, _, hfilled, length_filled⟩, length_le_of_toBytes toBytes_eq⟩

theorem AuthInit.isGreatest_acceptedLengths : IsGreatest (acceptedLengths fromBytes) 2086 := by
  constructor
  · exact ⟨_, .fresh, filled,
      (fromBytesWith_eq_ok_iff maxLength_le).mpr ⟨rfl, rfl⟩, length_filled⟩
  · rintro n ⟨b, tl, m, hm, rfl⟩
    obtain ⟨-, rfl⟩ := (fromBytesWith_eq_ok_iff maxLength_le).mp hm
    exact wire.length_serialize_le m

theorem AuthResponse.length_filled (code : UInt16) :
    (wire.serialize (filled code)).length =
      2087 + 4 * ((Leb128.encode code.toNat).length + 130) := by
  have hsigs := length_filledSignatures code
  have hversion : (Leb128.encode (0xFFFF : UInt16).toNat).length = 3 := rfl
  rw [length_serialize]
  simp only [filled, hversion, hsigs, length_nonce, length_certificate]
  omega

theorem AuthResponse.isGreatest_encodedLengths : IsGreatest (encodedLengths toBytes) 2619 := by
  have hfilled : (filled 0xFFFF).toBytes = .ok (wire.serialize (filled 0xFFFF)) := by
    rw [toBytes_eq]
    exact if_pos (BoundedBytes.length_zeros 32)
  exact ⟨⟨filled 0xFFFF, _, hfilled, length_filled 0xFFFF⟩, length_le_of_toBytes toBytes_eq⟩

theorem AuthResponse.isGreatest_acceptedLengths : IsGreatest (acceptedLengths fromBytes) 2611 := by
  constructor
  · refine ⟨_, .fresh, filled 1, (fromBytesWith_eq_ok_iff maxLength_le).mpr ⟨?_, rfl⟩,
      length_filled 1⟩
    exact resolveSignatureAlgorithms_eq_ok_iff.mpr registered_filledSignatures
  · rintro n ⟨b, tl, m, hm, rfl⟩
    obtain ⟨hresolve, rfl⟩ := (fromBytesWith_eq_ok_iff maxLength_le).mp hm
    have hsigs := length_signatures_le (resolveSignatureAlgorithms_eq_ok_iff.mp hresolve)
    have hversion : (Leb128.encode m.authVersion.toNat).length ≤ Leb128.maxGroups 16 :=
      Leb128.length_encode_le_maxGroups (by decide) m.authVersion.toNat_lt
    have hnonce := length_writeBytes_le m.serverNonce.bounded
    have hcert := length_writeBytes_le m.serverCertificate.bounded
    have hbounds : Leb128.maxGroups 16 + ((Leb128.encode 32).length + 32) +
        ((Leb128.encode maxCertificateWireBytes).length + maxCertificateWireBytes) = 2086 := rfl
    rw [m.length_serialize]
    omega

theorem AuthConfirm.isGreatest_encodedLengths : IsGreatest (encodedLengths toBytes) 533 := by
  constructor
  · refine ⟨filled 0xFFFF, _, toBytes_eq _, ?_⟩
    rw [length_serialize]
    exact length_filledSignatures 0xFFFF
  · rintro n ⟨m, b, hb, rfl⟩
    rw [toBytes_eq] at hb
    rw [← Except.ok.inj hb]
    exact wire.length_serialize_le m

theorem AuthConfirm.isGreatest_acceptedLengths : IsGreatest (acceptedLengths fromBytes) 525 := by
  constructor
  · refine ⟨_, .fresh, filled 1, (fromBytesWith_eq_ok_iff maxLength_le).mpr ⟨?_, rfl⟩, ?_⟩
    · exact resolveSignatureAlgorithms_eq_ok_iff.mpr registered_filledSignatures
    · rw [length_serialize]
      exact length_filledSignatures 1
  · rintro n ⟨b, tl, m, hm, rfl⟩
    obtain ⟨hresolve, rfl⟩ := (fromBytesWith_eq_ok_iff maxLength_le).mp hm
    rw [m.length_serialize]
    exact length_signatures_le (resolveSignatureAlgorithms_eq_ok_iff.mp hresolve)

theorem AuthTranscriptV1.filled_fromNew : filled.FromNew := by
  apply Valid.fromNew
  exact ⟨Or.inl rfl, rfl, BoundedBytes.length_zeros 32, BoundedBytes.length_zeros 34,
    BoundedBytes.length_zeros 34, BoundedBytes.length_zeros 32, BoundedBytes.length_zeros 32⟩

theorem AuthTranscriptV1.length_filled : (wire.serialize filled).length = 4293 := by
  have hwire : wire.serialize filled = writeBytes authTranscriptDomainV1 ++
      (Leb128.encode 0xFFFF ++ (Leb128.encode 0xFFFF ++ ([authRoleClient] ++
        (writeBytes (BoundedBytes.zeros 32).bytes ++ (writeBytes (BoundedBytes.zeros 34).bytes ++
        (writeBytes (BoundedBytes.zeros 34).bytes ++ (writeBytes (BoundedBytes.zeros 32).bytes ++
        (writeBytes (BoundedBytes.zeros 32).bytes ++
        (writeBytes (BoundedBytes.zeros maxCertificateWireBytes).bytes ++
        (writeBytes (BoundedBytes.zeros maxCertificateWireBytes).bytes ++ [])))))))))) := rfl
  have hnode : (writeBytes (BoundedBytes.zeros 34).bytes).length = 35 :=
    length_writeBytes_replicate 34 0
  simp only [hwire, List.length_append, length_nonce, length_certificate, hnode]
  rfl

/-- **The longest messages.** Each length is attained, and none is exceeded: by what the encoders
return, by what the decoders accept, and by the signing bytes of the transcripts that the
constructor returns. Registered algorithm codes are shorter than others, so the decoders that
resolve them accept less than is encoded; and the decoder of `Hello`, which accepts padded numbers,
accepts more. -/
theorem longest_messages :
    (IsGreatest (encodedLengths Hello.toBytes) 193 ∧
        IsGreatest (acceptedLengths Hello.fromBytes) 202) ∧
      (IsGreatest (encodedLengths AuthInit.toBytes) 2086 ∧
        IsGreatest (acceptedLengths AuthInit.fromBytes) 2086) ∧
      (IsGreatest (encodedLengths AuthResponse.toBytes) 2619 ∧
        IsGreatest (acceptedLengths AuthResponse.fromBytes) 2611) ∧
      (IsGreatest (encodedLengths AuthConfirm.toBytes) 533 ∧
        IsGreatest (acceptedLengths AuthConfirm.fromBytes) 525) ∧
      IsGreatest {n | ∃ t b, t.FromNew ∧ AuthTranscriptV1.toSigningBytes t = .ok b ∧ b.length = n}
        4293 := by
  have hhello : Hello.wire.Attained := ⟨trivial, trivial⟩
  refine ⟨⟨Hello.wire.isGreatest_encodedLengths hhello,
      Hello.wire.isGreatest_acceptedLengths hhello⟩,
    ⟨AuthInit.isGreatest_encodedLengths, AuthInit.isGreatest_acceptedLengths⟩,
    ⟨AuthResponse.isGreatest_encodedLengths, AuthResponse.isGreatest_acceptedLengths⟩,
    ⟨AuthConfirm.isGreatest_encodedLengths, AuthConfirm.isGreatest_acceptedLengths⟩, ?_, ?_⟩
  · exact ⟨_, _, AuthTranscriptV1.filled_fromNew, AuthTranscriptV1.toSigningBytes_eq _,
      AuthTranscriptV1.length_filled⟩
  · rintro n ⟨t, b, -, hb, rfl⟩
    rw [t.toSigningBytes_eq] at hb
    rw [← Except.ok.inj hb]
    exact AuthTranscriptV1.wire.length_serialize_le t

end Meshwarden.Proto
