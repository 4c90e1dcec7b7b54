import Meshwarden.Identity.Minting
import Meshwarden.Transport.Delivery

/-!
# Presenting certificates

A node is known by the key of its keystore. A keystore that issues a certificate hands it out as
octets; the node that it is for presents these octets in an authentication message; and its peer
reads them out of a frame, decodes them, and verifies the certificate. What the keystore has minted
comes out at the other end of the conversation, whatever else goes on there, and whether it is
accepted is a question of the time and of the name of the issuer alone.

## Main definitions

* `Keystore`: a keypair with the identity that it stands for
* `Message.certificate`: the certificate octets that a message presents
* `TranscriptInput`: what an end puts into a transcript

## Main results

* `verify_of_sign`: the verdicts on a certificate that a keystore has minted
* `minted_certificate_presented`: from minting to the verdict of the peer
* `transcript_agreement`: whoever has signed a transcript has put the same into it
-/

namespace Meshwarden.Proto

open Codec

/-- The octets of the certificate that the payload of a message presents. -/
def MessageType.certificate : (t : MessageType) → t.Payload → Option Bytes
  | .hello, _ => none
  | .authInit, m => some m.clientCertificate.bytes
  | .authResponse, m => some m.serverCertificate.bytes
  | .authConfirm, _ => none

/-- The octets of the certificate that a message presents. -/
def Message.certificate (m : Message) : Option Bytes := m.type.certificate m.payload

end Meshwarden.Proto

namespace Meshwarden.Identity

open Codec Crypto Proto Transport Automata

/-! ## Keystores -/

/-- Owner of a node's keypair. -/
structure Keystore (P : Primitives) where
  keypair : Keypair P

variable {P : Primitives}

namespace Keystore

/-- Raw public key bytes, as advertised to peers. -/
def publicKeyBytes (ks : Keystore P) : Bytes := ks.keypair.publicKeyBytes

/-- The identity derived from the public key. -/
def nodeId (ks : Keystore P) : NodeId := NodeId.fromPublicKeyBytes P ks.publicKeyBytes

def sign (ks : Keystore P) : Signer := ks.keypair.sign

end Keystore

/-! ## What a keystore mints -/

namespace NodeCertificate

variable {ks : Keystore P} {f : CertificateFields} {c : NodeCertificate}

/-- What a keystore mints are the fields, once they pass the checks, with its signature. -/
theorem sign_keystore (h : sign P f ks.sign = .ok c) :
    c = minted ks.keypair f ∧ signInput P f = .ok (writeCanonicalForm f) := by
  have hsign : (signInput P f).map (fun _ => minted ks.keypair f) = .ok c :=
    (sign_keypair ks.keypair f).symm.trans h
  rcases hinput : signInput P f with e | msg
  · rw [hinput] at hsign
    cases hsign
  · rw [hinput] at hsign
    rw [signInput_eq_ok hinput]
    exact ⟨(Except.ok.inj hsign).symm, rfl⟩

/-- **The verdicts on a minted certificate.** Under the key of the keystore, a certificate that
names it as the issuer is accepted in its window and not outside. One that names another issuer is
accepted at no time; and no key of another identity accepts it. -/
theorem verify_of_sign (hks : Keypair.SelfVerifying ks.keypair) (h : sign P f ks.sign = .ok c)
    (key : PublicKey P) (now : UInt64) :
    (c.verify key now = .ok () → f.issuer = NodeId.fromPublicKeyBytes P key.toBytes) ∧
      (c.verify ks.keypair.publicKey now = .ok () ↔
        f.issuer = ks.nodeId ∧ f.validFrom ≤ now ∧ now < f.validUntil) := by
  obtain ⟨rfl, hinput⟩ := sign_keystore h
  obtain ⟨hcaps, hkey, hsubject, -, -⟩ := signInput_eq_ok_iff.mp hinput
  have hother : ∀ {key : PublicKey P}, f.issuer ≠ NodeId.fromPublicKeyBytes P key.toBytes →
      (minted ks.keypair f).verify key now ≠ .ok () := by
    intro key hissuer hok
    rw [verify_of_issuer_ne hcaps hkey hsubject hissuer now] at hok
    cases hok
  refine ⟨fun hok => not_imp_not.mp hother hok, ?_⟩
  constructor
  · intro hok
    have hissuer : f.issuer = ks.nodeId := not_imp_not.mp hother hok
    refine ⟨hissuer, ?_⟩
    rw [verify_minted hks hissuer, hinput] at hok
    exact verifyWindow_eq_ok_iff.mp hok
  · rintro ⟨hissuer, hfrom, huntil⟩
    obtain ⟨-, hok, -, -⟩ := verdicts_of_signInput hks hissuer hinput
    exact hok now hfrom huntil

/-- The octets of a minted certificate fit the certificate field of the messages. -/
theorem exists_octets_of_sign (h : sign P f ks.sign = .ok c) :
    ∃ octets : BoundedBytes maxCertificateWireBytes,
      c.toWireBytes = .ok octets.bytes ∧ ∀ tl, (fromWireBytes octets.bytes tl).1 = .ok c := by
  obtain ⟨rfl, hinput⟩ := sign_keystore h
  obtain ⟨b, hb, hread⟩ : ∃ b, (minted ks.keypair f).toWireBytes = .ok b ∧
      ∀ tl, (fromWireBytes b tl).1 = .ok (minted ks.keypair f) := exists_wire_of_signInput hinput
  refine ⟨⟨b, ?_⟩, hb, hread⟩
  -- what the decoder accepts is within the total bound
  by_contra hlen
  have hrefused := hread .fresh
  rw [fromWireBytes, if_pos (Nat.lt_of_not_le hlen)] at hrefused
  cases hrefused

end NodeCertificate

/-! ## From minting to the verdict of the peer -/

/-- **A minted certificate is accepted where it is presented.** What a keystore has minted has
octets that fit a message. They decode to the certificate that was minted, and under the key of the
keystore it verifies exactly in its window and if the keystore is the issuer that it names. In every
conversation on streams with room for what is sent, with whatever traffic and however calls, chunks
and drops interleave: where an end presents these octets in the `k`th of its messages, the `k`th
result of the other end carries that message, and whatever it is decoded to presents these
octets. -/
theorem minted_certificate_presented (ks : Keystore P) (hks : Keypair.SelfVerifying ks.keypair)
    {f : CertificateFields} {c : NodeCertificate}
    (hsign : NodeCertificate.sign P f ks.sign = .ok c) :
    ∃ octets : BoundedBytes maxCertificateWireBytes, c.toWireBytes = .ok octets.bytes ∧
      (∀ tl, (NodeCertificate.fromWireBytes octets.bytes tl).1 = .ok c) ∧
      (∀ now, c.verify ks.keypair.publicKey now = .ok () ↔
        f.issuer = ks.nodeId ∧ f.validFrom ≤ now ∧ now < f.validUntil) ∧
      ∀ (s : Conversation) (trace : List (Side × Transport.Event)) (i : Side)
        (messages : List Message) (k : ℕ) (m : Message) (r : Except Transport.Error Frame),
        conversation.Run (fun _ => Link.new) trace s →
        messages.map Message.frame = (Fifo.pushed (Lts.shownBy i trace)).map .ok →
        messages[k]? = some m → m.certificate = some octets.bytes →
        (Fifo.got (Lts.shownBy i trace))[k]? = some r →
        Receives r m ∧ ∀ frame tl payload, r = .ok frame →
          (m.type.fromBytes frame.payload tl).1 = .ok payload →
          m.type.certificate payload = some octets.bytes := by
  obtain ⟨octets, hoctets, hread⟩ := NodeCertificate.exists_octets_of_sign hsign
  refine ⟨octets, hoctets, hread, fun now =>
    (NodeCertificate.verify_of_sign hks hsign ks.keypair.publicKey now).2, ?_⟩
  intro s trace i messages k m r hrun hsent hm hcert hr
  have hreceives := receives_of_sent hrun hsent hm hr
  refine ⟨hreceives, ?_⟩
  intro frame tl payload hframe hpayload
  rw [← hreceives.payload_eq hframe hpayload]
  exact hcert

theorem minted_certificate_presented_root :
    ∃ octets : BoundedBytes maxCertificateWireBytes,
      (NodeCertificate.minted Root.keypair Root.fields).toWireBytes = .ok octets.bytes ∧
      (∀ tl, (NodeCertificate.fromWireBytes octets.bytes tl).1 =
        .ok (NodeCertificate.minted Root.keypair Root.fields)) ∧
      (∀ now, (NodeCertificate.minted Root.keypair Root.fields).verify Root.keypair.publicKey now =
          .ok () ↔
        Root.fields.issuer = (Keystore.mk Root.keypair).nodeId ∧ Root.fields.validFrom ≤ now ∧
          now < Root.fields.validUntil) ∧
      ∀ (s : Conversation) (trace : List (Side × Transport.Event)) (i : Side)
        (messages : List Message) (k : ℕ) (m : Message) (r : Except Transport.Error Frame),
        conversation.Run (fun _ => Link.new) trace s →
        messages.map Message.frame = (Fifo.pushed (Lts.shownBy i trace)).map .ok →
        messages[k]? = some m → m.certificate = some octets.bytes →
        (Fifo.got (Lts.shownBy i trace))[k]? = some r →
        Receives r m ∧ ∀ frame tl payload, r = .ok frame →
          (m.type.fromBytes frame.payload tl).1 = .ok payload →
          m.type.certificate payload = some octets.bytes := by
  have hsign : NodeCertificate.sign Root.signer Root.fields (Keystore.mk Root.keypair).sign =
      .ok (NodeCertificate.minted Root.keypair Root.fields) := by
    rw [Keystore.sign, NodeCertificate.sign_keypair, Root.signInput_fields]
    rfl
  exact minted_certificate_presented ⟨Root.keypair⟩ Root.keypair_selfVerifying hsign

/-! ## Agreement on a transcript -/

/-- What an end puts into a transcript: the arguments of the constructor. -/
structure TranscriptInput where
  domain : Bytes
  authVersion : UInt16
  authAlgorithm : UInt16
  role : UInt8
  channelBinding : Bytes
  clientNodeId : Bytes
  serverNodeId : Bytes
  clientNonce : Bytes
  serverNonce : Bytes
  clientCertificate : Bytes
  serverCertificate : Bytes

namespace TranscriptInput

def transcript (v : TranscriptInput) : Except Proto.Error AuthTranscriptV1 :=
  AuthTranscriptV1.new v.domain v.authVersion v.authAlgorithm v.role v.channelBinding v.clientNodeId
    v.serverNodeId v.clientNonce v.serverNonce v.clientCertificate v.serverCertificate

/-- What is in a transcript. -/
def ofTranscript (t : AuthTranscriptV1) : TranscriptInput where
  domain := t.domain.bytes
  authVersion := t.authVersion
  authAlgorithm := t.authAlgorithm
  role := t.role
  channelBinding := t.channelBinding.bytes
  clientNodeId := t.clientNodeId.bytes
  serverNodeId := t.serverNodeId.bytes
  clientNonce := t.clientNonce.bytes
  serverNonce := t.serverNonce.bytes
  clientCertificate := t.clientCertificate.bytes
  serverCertificate := t.serverCertificate.bytes

/-- The constructor changes nothing and leaves nothing out. -/
theorem eq_ofTranscript {v : TranscriptInput} {t : AuthTranscriptV1} (h : v.transcript = .ok t) :
    v = ofTranscript t := by
  unfold transcript AuthTranscriptV1.new at h
  split_ifs at h
  -- one field after another, in the order of the checks
  obtain ⟨d, hd, h⟩ := bind_eq_ok_iff.mp h
  split_ifs at h
  obtain ⟨cb, hcb, h⟩ := bind_eq_ok_iff.mp h
  obtain ⟨cid, hcid, h⟩ := bind_eq_ok_iff.mp h
  obtain ⟨sid, hsid, h⟩ := bind_eq_ok_iff.mp h
  obtain ⟨cn, hcn, h⟩ := bind_eq_ok_iff.mp h
  obtain ⟨sn, hsn, h⟩ := bind_eq_ok_iff.mp h
  obtain ⟨cc, hcc, h⟩ := bind_eq_ok_iff.mp h
  obtain ⟨sc, hsc, h⟩ := bind_eq_ok_iff.mp h
  obtain rfl := Except.ok.inj h
  simp only [AuthTranscriptV1.exactField_eq_ok_iff, BoundedBytes.new_eq_ok_iff] at *
  simp only [ofTranscript, hd, hcb, hcid, hsid, hcn, hsn, hcc, hsc]

end TranscriptInput

/-- A transcript that was signed was signed as a transcript, and as this one. -/
theorem signed_of_message {u : Use} {t : AuthTranscriptV1}
    (h : u.message P = some (AuthTranscriptV1.wire.serialize t)) : u = .transcript t := by
  cases u with
  | certificate fields =>
    rcases hm : NodeCertificate.signInput P fields with e | msg
    · rw [Use.message, hm] at h
      cases h
    · rw [Use.message, hm] at h
      -- no certificate has the signing bytes of a transcript
      have hmsg := NodeCertificate.signInput_eq_ok hm
      rw [Option.some.inj h] at hmsg
      exact absurd hmsg (signingBytes_ne_canonicalForm t fields)
  | transcript t' =>
    rw [Use.message, t'.toSigningBytes_eq] at h
    rw [AuthTranscriptV1.wire.selfDelimiting.injective (Option.some.inj h)]

/-- **Agreement on a transcript.** Under an ideal signature scheme, where an end verifies a
signature over the transcript that it has built itself, the holder of the key has signed this
transcript; and whatever it was built from at the other end, it was the same in all of it: domain,
version, algorithm, role, channel binding, and the identity, nonce and certificate of both ends. -/
theorem transcript_agreement {key : PublicKey P} {uses : List Use} (ideal : Ideal key uses)
    {view : TranscriptInput} {t : AuthTranscriptV1} (hview : view.transcript = .ok t) {msg : Bytes}
    (hmsg : t.toSigningBytes = .ok msg) {sig : Signature} (hverify : key.verify msg sig = .ok ()) :
    .transcript t ∈ uses ∧
      ∀ view' t', view'.transcript = .ok t' → t'.toSigningBytes = .ok msg → view' = view := by
  obtain rfl := toSigningBytes_eq_ok_iff.mp hmsg
  constructor
  · obtain ⟨-, raw, -, hraw⟩ := verifyEd25519_eq_ok_iff.mp hverify
    obtain ⟨u, hu, hsigned⟩ := ideal _ _ hraw
    rwa [signed_of_message hsigned] at hu
  · intro view' t' hview' hmsg'
    have ht : t' = t :=
      AuthTranscriptV1.wire.selfDelimiting.injective (toSigningBytes_eq_ok_iff.mp hmsg').symm
    rw [TranscriptInput.eq_ofTranscript hview', TranscriptInput.eq_ofTranscript hview, ht]

/-! ### A proof of a client -/

namespace ClientProof

/-- What a client with a version 1 and no certificates puts into a transcript. -/
def input : TranscriptInput where
  domain := authTranscriptDomainV1
  authVersion := 1
  authAlgorithm := 1
  role := authRoleClient
  channelBinding := List.replicate 32 0
  clientNodeId := List.replicate 34 109
  serverNodeId := List.replicate 34 119
  clientNonce := List.replicate 32 1
  serverNonce := List.replicate 32 2
  clientCertificate := []
  serverCertificate := []

theorem domain_bounded : authTranscriptDomainV1.length ≤ 16 := le_rfl

def transcript : AuthTranscriptV1 where
  domain := ⟨authTranscriptDomainV1, domain_bounded⟩
  authVersion := 1
  authAlgorithm := 1
  role := authRoleClient
  channelBinding := ⟨List.replicate 32 0, le_rfl⟩
  clientNodeId := ⟨List.replicate 34 109, le_rfl⟩
  serverNodeId := ⟨List.replicate 34 119, le_rfl⟩
  clientNonce := ⟨List.replicate 32 1, le_rfl⟩
  serverNonce := ⟨List.replicate 32 2, le_rfl⟩
  clientCertificate := .empty
  serverCertificate := .empty

theorem transcript_input : input.transcript = .ok transcript := rfl

/-- The Ed25519 signature of the key of the root certificate over the signing bytes. -/
def signature : Octets signatureLen :=
  ⟨[0x10, 0xbb, 0xc4, 0x60, 0xb2, 0x4d, 0x0b, 0x78, 0x7f, 0x89, 0x07, 0x9b, 0xec, 0xb6, 0x8b, 0x32,
    0xe2, 0x00, 0x46, 0xae, 0x86, 0x25, 0xa2, 0x35, 0x93, 0xcb, 0x41, 0x7b, 0xf3, 0x6a, 0xae, 0x92,
    0xdc, 0xd4, 0xc9, 0x72, 0xb7, 0x1f, 0x83, 0x2c, 0xa0, 0xa7, 0x73, 0xa0, 0x7f, 0xce, 0xe5, 0x35,
    0xec, 0x4b, 0xe0, 0xe0, 0xfd, 0x9a, 0x17, 0x5e, 0xfd, 0x14, 0xe1, 0x4f, 0x71, 0x1b, 0x36, 0x0d],
    rfl⟩

/-- SHA-256 and Ed25519, for a key that has signed this transcript and nothing else. -/
def primitives : Primitives where
  SigningKey := Unit
  VerifyingKey := Octets publicKeyLen
  sha256 := Root.primitives.sha256
  verifyingKey _ := Root.publicKey
  sign _ _ := signature
  fromBytes k := some k
  toBytes k := k
  verify k msg sig := decide
    (k = Root.publicKey ∧ msg = AuthTranscriptV1.wire.serialize transcript ∧ sig = signature)

def key : PublicKey primitives := ⟨Root.publicKey⟩

theorem verify_eq_true_iff {msg : Bytes} {sig : Octets signatureLen} :
    primitives.verify Root.publicKey msg sig = true ↔
      msg = AuthTranscriptV1.wire.serialize transcript ∧ sig = signature := by
  simp only [primitives, true_and, decide_eq_true_eq]

theorem ideal : Ideal key [.transcript transcript] := by
  intro msg raw hverify
  obtain ⟨rfl, -⟩ := verify_eq_true_iff.mp hverify
  exact ⟨_, List.mem_singleton_self _, by rw [Use.message, transcript.toSigningBytes_eq]; rfl⟩

theorem verify : key.verify (AuthTranscriptV1.wire.serialize transcript)
    ⟨.ed25519, signature.1⟩ = .ok () :=
  verifyEd25519_eq_ok_iff.mpr ⟨rfl, signature, rfl, verify_eq_true_iff.mpr ⟨rfl, rfl⟩⟩

end ClientProof

theorem transcript_agreement_clientProof :
    Use.transcript ClientProof.transcript ∈ [Use.transcript ClientProof.transcript] ∧
      ∀ view' t', view'.transcript = .ok t' →
        t'.toSigningBytes = .ok (AuthTranscriptV1.wire.serialize ClientProof.transcript) →
        view' = ClientProof.input :=
  transcript_agreement ClientProof.ideal ClientProof.transcript_input
    ClientProof.transcript.toSigningBytes_eq ClientProof.verify

end Meshwarden.Identity
