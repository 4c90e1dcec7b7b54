import Meshwarden.Identity.Cert
import Meshwarden.Proto.Messages

/-!
# What a signature of an issuer says

A node's key signs two kinds of messages: canonical forms of certificates and authentication
transcripts. Both are concatenations of fields without a tag. Each can be read in one way only, and
no message is of both kinds, since they already differ in their first byte. Under an ideal signature
scheme a certificate that verifies was therefore minted, with exactly the fields that it shows.

## Main definitions

* `Use`: what a key is used for, with the message signed
* `Ideal`: an ideal signature scheme

## Main results

* `selfDelimiting_canonicalForm`, `signingBytes_ne_canonicalForm`: canonical forms can be told
  apart, from one another and from transcripts
* `signing_forms_injective`: the two signing forms are jointly injective
* `verified_certificate_minted`: a certificate that arrives on the wire and verifies was minted
-/

namespace Meshwarden.Identity

open Codec Crypto Proto

/-! ## Canonical forms -/

theorem selfDelimiting_nodeId : SelfDelimiting writeNodeId := NodeId.textForm.selfDelimiting

theorem selfDelimiting_publicKey : SelfDelimiting (writeSeq fun x : UInt8 => [x]) := by
  apply SelfDelimiting.counted
  exact (Format.Lawful.byte ()).selfDelimiting

theorem selfDelimiting_capabilities :
    SelfDelimiting (writeSeq fun c : UInt16 => Leb128.encode c.toNat) :=
  (Leb128.selfDelimiting_encode.comap fun _ _ h => UInt16.toNat_inj.mp h).counted

theorem selfDelimiting_time : SelfDelimiting fun t : UInt64 => Leb128.encode t.toNat :=
  Leb128.selfDelimiting_encode.comap fun _ _ h => UInt64.toNat_inj.mp h

/-- **Canonical forms can be told apart**, whatever the lengths of the key and of the list: field
after field, the writing determines the value and where it ends. -/
theorem selfDelimiting_canonicalForm : SelfDelimiting writeCanonicalForm := by
  rintro ⟨subject, publicKey, capabilities, validFrom, validUntil, issuer⟩
    ⟨subject', publicKey', capabilities', validFrom', validUntil', issuer'⟩ s s' h
  simp only [writeCanonicalForm, List.append_assoc] at h
  -- each field determines its value and leaves the next field in front
  obtain ⟨rfl, hkey⟩ := selfDelimiting_nodeId h
  obtain ⟨rfl, hcaps⟩ := selfDelimiting_publicKey hkey
  obtain ⟨rfl, hfrom⟩ := selfDelimiting_capabilities hcaps
  obtain ⟨rfl, huntil⟩ := selfDelimiting_time hfrom
  obtain ⟨rfl, hissuer⟩ := selfDelimiting_time huntil
  obtain ⟨rfl, hs⟩ := selfDelimiting_nodeId hissuer
  exact ⟨rfl, hs⟩

/-- A canonical form begins with the length of an identity text. -/
theorem head?_canonicalForm (f : CertificateFields) : (writeCanonicalForm f).head? = some 34 := by
  have hnode : ∀ id : NodeId, writeNodeId id = 34 :: utf8 id.display := by
    intro id
    rw [writeNodeId, writeBytes, NodeId.length_display, Leb128.encode_of_lt (by decide)]
    rfl
  simp only [writeCanonicalForm, hnode, List.append_assoc, List.cons_append, List.head?_cons]

/-! ## Transcripts -/

theorem toSigningBytes_eq_ok_iff {t : AuthTranscriptV1} {x : Bytes} :
    t.toSigningBytes = .ok x ↔ x = AuthTranscriptV1.wire.serialize t := by
  rw [t.toSigningBytes_eq]
  exact ⟨fun h => (Except.ok.inj h).symm, fun h => by rw [h]⟩

/-- The signing bytes of a transcript begin with the length of its domain, at most sixteen. -/
theorem head?_signingBytes (t : AuthTranscriptV1) :
    ∃ n ≤ 16, (AuthTranscriptV1.wire.serialize t).head? = some (UInt8.ofNat n) := by
  refine ⟨t.domain.bytes.length, t.domain.bounded, ?_⟩
  have hlt : t.domain.bytes.length < 128 := t.domain.bounded.trans_lt (by decide)
  have hdomain : ∀ s, (writeBytes t.domain.bytes ++ s).head? =
      some (UInt8.ofNat t.domain.bytes.length) := by
    intro s
    rw [writeBytes, Leb128.encode_of_lt hlt, List.append_assoc, List.singleton_append,
      List.head?_cons]
  exact hdomain _

/-- **No message is of both kinds.** -/
theorem signingBytes_ne_canonicalForm (t : AuthTranscriptV1) (f : CertificateFields) :
    AuthTranscriptV1.wire.serialize t ≠ writeCanonicalForm f := by
  intro h
  -- the first byte is at most sixteen on one side and thirty-four on the other
  obtain ⟨n, hn, hhead⟩ := head?_signingBytes t
  rw [h, head?_canonicalForm] at hhead
  have hval : (34 : UInt8).toNat = n := by
    rw [Option.some.inj hhead]
    exact UInt8.toNat_ofNat_of_lt' (show n < 256 by omega)
  have h34 : (34 : UInt8).toNat = 34 := rfl
  omega

/-- **The two signing forms are jointly injective.** Transcripts with the same signing bytes are the
same, certificate fields with the same canonical bytes are the same, and no bytes are both; every
transcript and all certificate fields have such bytes. -/
theorem signing_forms_injective :
    (∀ t t' x, AuthTranscriptV1.toSigningBytes t = .ok x →
        AuthTranscriptV1.toSigningBytes t' = .ok x → t = t') ∧
      (∀ f f' x, canonicalBytes f = .ok x → canonicalBytes f' = .ok x → f = f') ∧
      (∀ t f x, AuthTranscriptV1.toSigningBytes t = .ok x → canonicalBytes f ≠ .ok x) ∧
      (∀ t, ∃ x, AuthTranscriptV1.toSigningBytes t = .ok x) ∧
      ∀ f, ∃ x, canonicalBytes f = .ok x := by
  refine ⟨?_, ?_, ?_, fun t => ⟨_, t.toSigningBytes_eq⟩, fun f => ⟨_, rfl⟩⟩
  · intro t t' x h h'
    apply AuthTranscriptV1.wire.selfDelimiting.injective
    rw [← toSigningBytes_eq_ok_iff.mp h, ← toSigningBytes_eq_ok_iff.mp h']
  · intro f f' x h h'
    apply selfDelimiting_canonicalForm.injective
    rw [Except.ok.inj h, Except.ok.inj h']
  · intro t f x h h'
    apply signingBytes_ne_canonicalForm t f
    rw [← toSigningBytes_eq_ok_iff.mp h, Except.ok.inj h']

/-! ## Uses of a key -/

/-- Minting signs that message and nothing else. -/
theorem NodeCertificate.sign_eq (P : Primitives) (fields : CertificateFields) (issuer : Signer) :
    sign P fields issuer =
      match signInput P fields with
      | .error e => .error e
      | .ok msg =>
        match issuer msg with
        | .error e => .error (.signing e)
        | .ok signature => .ok { fields with signature } := by
  rw [sign]
  rcases signInput P fields with e | msg
  · rfl
  · simp only [bind, Except.bind]
    rcases issuer msg with e | signature <;> rfl

/-- The checks of minting, which leave the canonical form to sign. -/
theorem NodeCertificate.signInput_eq_ok_iff {P : Primitives} {fields : CertificateFields}
    {msg : Bytes} :
    signInput P fields = .ok msg ↔
      fields.capabilities.length ≤ maxCertCapabilities ∧
        (∃ key : PublicKey P, PublicKey.fromBytes fields.publicKey = .ok key) ∧
        fields.subject = NodeId.fromPublicKeyBytes P fields.publicKey ∧
        checkLifetime fields.validFrom fields.validUntil = .ok () ∧
        msg = writeCanonicalForm fields := by
  constructor
  · intro h
    obtain ⟨⟨⟩, hcaps, h⟩ := bind_eq_ok_iff.mp h
    obtain ⟨⟨⟩, hkey, h⟩ := bind_eq_ok_iff.mp h
    split_ifs at h with hsubject
    obtain ⟨⟨⟩, hlife, h⟩ := bind_eq_ok_iff.mp h
    exact ⟨checkCapabilityCount_eq_ok_iff.mp hcaps, checkSubjectPublicKey_eq_ok_iff.mp hkey,
      not_not.mp hsubject, hlife, (Except.ok.inj h).symm⟩
  · rintro ⟨hcaps, hkey, hsubject, hlife, hmsg⟩
    rw [signInput, checkCapabilityCount_eq_ok_iff.mpr hcaps,
      checkSubjectPublicKey_eq_ok_iff.mpr hkey, if_neg (not_not.mpr hsubject), hlife, hmsg]
    rfl

theorem NodeCertificate.signInput_eq_ok {P : Primitives} {fields : CertificateFields} {msg : Bytes}
    (h : signInput P fields = .ok msg) : msg = writeCanonicalForm fields :=
  (signInput_eq_ok_iff.mp h).2.2.2.2

/-- What the holder of a key uses it for: a call of `NodeCertificate::sign`, or the proof over a
transcript. -/
inductive Use
  | certificate (fields : CertificateFields)
  | transcript (t : AuthTranscriptV1)

/-- The message that a use signs, if it gets that far. -/
def Use.message (P : Primitives) : Use → Option Bytes
  | .certificate fields => (NodeCertificate.signInput P fields).toOption
  | .transcript t => t.toSigningBytes.toOption

/-- An ideal signature scheme, for a key whose holder has used it so far as in `uses`: a signature
verifies over a message only if one of the uses signed exactly that message. -/
def Ideal {P : Primitives} (key : PublicKey P) (uses : List Use) : Prop :=
  ∀ msg raw, P.verify key.verifyingKey msg raw = true → ∃ u ∈ uses, u.message P = some msg

/-- A canonical form that was signed was signed as a certificate, of these fields. -/
theorem minted_of_message {P : Primitives} {u : Use} {f : CertificateFields}
    (h : u.message P = some (writeCanonicalForm f)) : u = .certificate f := by
  cases u with
  | certificate fields =>
    rcases hm : NodeCertificate.signInput P fields with e | msg
    · rw [Use.message, hm] at h
      cases h
    · rw [Use.message, hm] at h
      have hmsg := NodeCertificate.signInput_eq_ok hm
      rw [Option.some.inj h] at hmsg
      rw [selfDelimiting_canonicalForm.injective hmsg]
  | transcript t =>
    rw [Use.message, t.toSigningBytes_eq] at h
    -- no transcript has the signing bytes of a certificate
    exact absurd (Option.some.inj h) (signingBytes_ne_canonicalForm t f)

/-- **Issuance binding.** Under an ideal signature scheme, whatever bytes arrive, if they decode to
a certificate that verifies under a key, the holder of the key minted it: there was a call of
`NodeCertificate::sign` with exactly its fields. The subject is the identity of the certified key
and the issuer that of the verifying key, the capabilities are bounded, the time is in the window,
and the window is no longer than the longest lifetime. -/
theorem verified_certificate_minted {P : Primitives} {key : PublicKey P} {uses : List Use}
    (ideal : Ideal key uses) {b : Bytes} {tl : ThreadLocals} {c : NodeCertificate} {now : UInt64}
    (hwire : (NodeCertificate.fromWireBytes b tl).1 = .ok c) (hverify : c.verify key now = .ok ()) :
    .certificate c.toCertificateFields ∈ uses ∧
      c.toWireBytes = .ok b ∧
      c.subject = NodeId.fromPublicKeyBytes P c.publicKey ∧
      c.issuer = NodeId.fromPublicKeyBytes P key.toBytes ∧
      c.capabilities.length ≤ 64 ∧
      c.validFrom.toNat ≤ now.toNat ∧ now.toNat < c.validUntil.toNat ∧
      c.validUntil.toNat ≤ c.validFrom.toNat + 28800 := by
  obtain ⟨sound, hfrom, huntil⟩ := NodeCertificate.verify_eq_ok_iff.mp hverify
  obtain ⟨-, raw, -, hraw⟩ := verifyEd25519_eq_ok_iff.mp sound.signature
  -- the signature verifies over the canonical form, so some use signed it
  obtain ⟨u, hu, hmsg⟩ := ideal _ _ hraw
  obtain rfl := minted_of_message hmsg
  obtain ⟨-, hlife⟩ := checkLifetime_eq_ok_iff.mp sound.lifetime
  exact ⟨hu, NodeCertificate.fromWireBytes_eq_ok_iff.mp hwire, sound.subject, sound.issuer,
    sound.capabilities, UInt64.le_iff_toNat_le.mp hfrom, UInt64.lt_iff_toNat_lt.mp huntil, hlife⟩

/-! ### A root certificate

An Ed25519 key that has signed a certificate for itself, and nothing else. -/

namespace Root

def publicKey : Octets publicKeyLen :=
  ⟨[0xd7, 0x5a, 0x98, 0x01, 0x82, 0xb1, 0x0a, 0xb7, 0xd5, 0x4b, 0xfe, 0xd3, 0xc9, 0x64, 0x07, 0x3a,
    0x0e, 0xe1, 0x72, 0xf3, 0xda, 0xa6, 0x23, 0x25, 0xaf, 0x02, 0x1a, 0x68, 0xf7, 0x07, 0x51, 0x1a],
    rfl⟩

/-- The SHA-256 digest of the key. -/
def digest : Octets 32 :=
  ⟨[0x21, 0xfe, 0x31, 0xdf, 0xa1, 0x54, 0xa2, 0x61, 0x62, 0x6b, 0xf8, 0x54, 0x04, 0x6f, 0xd2, 0x27,
    0x1b, 0x7b, 0xed, 0x4b, 0x6a, 0xbe, 0x45, 0xaa, 0x58, 0x87, 0x7e, 0xf4, 0x7f, 0x97, 0x21, 0xb9],
    rfl⟩

def nodeId : NodeId := ⟨⟨digest.1.take nodeIdPrefixLen, rfl⟩⟩

def fields : CertificateFields where
  subject := nodeId
  publicKey := publicKey.1
  capabilities := [1]
  validFrom := 1000
  validUntil := 2000
  issuer := nodeId

/-- The Ed25519 signature of the key over the canonical form of the fields. -/
def signature : Octets signatureLen :=
  ⟨[0x1f, 0xc0, 0xb2, 0x3c, 0x6e, 0x8d, 0x06, 0x23, 0x0b, 0x71, 0x7d, 0x1a, 0xcb, 0xe9, 0x8d, 0xd7,
    0x19, 0x4a, 0x80, 0xed, 0xa4, 0x6a, 0xf9, 0x09, 0x50, 0x9f, 0x23, 0x08, 0x97, 0x44, 0xc4, 0x3c,
    0xf4, 0x56, 0xf6, 0x8e, 0xc7, 0x85, 0xc8, 0x34, 0x2a, 0xa9, 0x57, 0xa6, 0x64, 0x41, 0xa0, 0x0b,
    0x7a, 0x12, 0xef, 0xef, 0x51, 0x0b, 0x2b, 0x25, 0x45, 0x03, 0xb0, 0xee, 0x13, 0x69, 0x59, 0x0b],
    rfl⟩

/-- SHA-256 and Ed25519, on the key and the message of the certificate. -/
def primitives : Primitives where
  SigningKey := Unit
  VerifyingKey := Octets publicKeyLen
  sha256 data := if data = publicKey.1 then digest else ⟨List.replicate 32 0, rfl⟩
  verifyingKey _ := publicKey
  sign _ _ := signature
  fromBytes k := some k
  toBytes k := k
  verify k msg sig := decide (k = publicKey ∧ msg = writeCanonicalForm fields ∧ sig = signature)

def key : PublicKey primitives := ⟨publicKey⟩

def certificate : NodeCertificate := { fields with signature := ⟨.ed25519, signature.1⟩ }

theorem verify_eq_true_iff {msg : Bytes} {sig : Octets signatureLen} :
    primitives.verify publicKey msg sig = true ↔
      msg = writeCanonicalForm fields ∧ sig = signature := by
  simp only [primitives, true_and, decide_eq_true_eq]

theorem fromPublicKeyBytes_publicKey :
    NodeId.fromPublicKeyBytes primitives publicKey.1 = nodeId := by
  have hdigest : primitives.sha256 publicKey.1 = digest := by
    simp only [primitives, if_true]
  simp only [NodeId.fromPublicKeyBytes, Crypto.sha256, hdigest, nodeId]

theorem sound : certificate.Sound key where
  capabilities := by decide
  publicKey := ⟨key, rfl⟩
  subject := fromPublicKeyBytes_publicKey.symm
  issuer := fromPublicKeyBytes_publicKey.symm
  signature :=
    verifyEd25519_eq_ok_iff.mpr ⟨rfl, signature, rfl, verify_eq_true_iff.mpr ⟨rfl, rfl⟩⟩
  lifetime := by decide

/-- The one message that the key has signed. -/
theorem ideal : Ideal key [.certificate fields] := by
  intro msg sig hverify
  obtain ⟨rfl, -⟩ := verify_eq_true_iff.mp hverify
  refine ⟨.certificate fields, List.mem_singleton_self _, ?_⟩
  have hinput : NodeCertificate.signInput primitives fields = .ok (writeCanonicalForm fields) := by
    have hsubject : fields.subject = NodeId.fromPublicKeyBytes primitives fields.publicKey :=
      fromPublicKeyBytes_publicKey.symm
    have hkey : checkSubjectPublicKey primitives fields.publicKey = .ok () := rfl
    rw [NodeCertificate.signInput, hkey, if_neg (not_not.mpr hsubject)]
    rfl
  rw [Use.message, hinput]
  rfl

def wire : CertificateWire where
  subject := nodeId
  publicKey := ⟨publicKey.1, by decide⟩
  capabilities := ⟨[1], by decide⟩
  validFrom := 1000
  validUntil := 2000
  issuer := nodeId
  signatureAlgorithm := AlgId.ed25519.asU16
  signature := ⟨signature.1, by decide⟩

end Root

theorem verified_certificate_minted_root :
    .certificate Root.fields ∈ [Use.certificate Root.fields] ∧
      Root.certificate.toWireBytes = .ok (CertificateWire.wire.serialize Root.wire) ∧
      Root.nodeId = NodeId.fromPublicKeyBytes Root.primitives Root.publicKey.1 ∧
      Root.nodeId = NodeId.fromPublicKeyBytes Root.primitives Root.key.toBytes ∧
      [(1 : UInt16)].length ≤ 64 ∧
      (1000 : UInt64).toNat ≤ (1500 : UInt64).toNat ∧
      (1500 : UInt64).toNat < (2000 : UInt64).toNat ∧
      (2000 : UInt64).toNat ≤ (1000 : UInt64).toNat + 28800 := by
  have hwire : (NodeCertificate.fromWireBytes (CertificateWire.wire.serialize Root.wire)
      ThreadLocals.fresh).1 = .ok Root.certificate :=
    NodeCertificate.fromWireBytes_eq_ok_iff_dto.mpr
      ⟨Root.wire, rfl, AlgId.fromU16_asU16 .ed25519, rfl⟩
  exact verified_certificate_minted Root.ideal hwire
    (NodeCertificate.verify_eq_ok_iff.mpr ⟨Root.sound, by decide, by decide⟩)

end Meshwarden.Identity
