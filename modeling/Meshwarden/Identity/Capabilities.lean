import Meshwarden.Identity.Presentation

/-!
# Capabilities

What a node may do is only ever asserted in a certificate, so the answers to capability queries are
as good as the certificates are. Under an ideal signature scheme, whatever bytes are presented to
whom, the capabilities that a verifier accepts for a node at a time are those that the issuer has
granted to it for this time. A capability that is not granted anew therefore lapses with the longest
lifetime, and nothing has to be revoked.

## Main definitions

* `NodeCertificate.hasCapability`, `NodeCertificate.knownCapabilities`: the queries
* `Accepted`: a capability that some bytes make a verifier accept
* `Granted`: a capability that a keystore has granted

## Main results

* `NodeCertificate.mem_knownCapabilities_iff`: the queries agree on registered algorithms
* `NodeCertificate.minted_of_verify`, `NodeCertificate.verify_of_use`: certificates that verify are
  those that were minted
* `capabilities_granted`: what is accepted was granted, and lapses
-/

namespace Meshwarden.Identity

open Codec Crypto Proto

variable {P : Primitives}

/-! ## Queries -/

namespace NodeCertificate

/-- Complete capability set as raw registry codes. -/
def capabilityCodes (c : NodeCertificate) : List UInt16 := c.capabilities

/-- Compares the code of the algorithm against the stored ones, and resolves none of them. -/
def hasCapability (c : NodeCertificate) (alg : AlgId) : Bool :=
  c.capabilities.contains alg.asU16

/-- Only the codes that this build can resolve. -/
def knownCapabilities (c : NodeCertificate) : List AlgId :=
  c.capabilities.filterMap fun code => (AlgId.fromU16 code).toOption

theorem hasCapability_eq_true_iff {c : NodeCertificate} {alg : AlgId} :
    c.hasCapability alg = true ↔ alg.asU16 ∈ c.capabilityCodes := List.contains_iff_mem

theorem toOption_fromU16_eq_some_iff {code : UInt16} {alg : AlgId} :
    (AlgId.fromU16 code).toOption = some alg ↔ alg.asU16 = code := by
  rw [← AlgId.fromU16_eq_ok_iff]
  rcases AlgId.fromU16 code with e | alg'
  · exact ⟨nofun, nofun⟩
  · exact ⟨fun h => congrArg _ (Option.some.inj h), fun h => congrArg _ (Except.ok.inj h)⟩

/-- **Codes that do not resolve change no answer.** The algorithms that resolve are those that the
certificate is asked for with success. -/
theorem mem_knownCapabilities_iff {c : NodeCertificate} {alg : AlgId} :
    alg ∈ c.knownCapabilities ↔ c.hasCapability alg = true := by
  rw [hasCapability_eq_true_iff, capabilityCodes, knownCapabilities, List.mem_filterMap]
  simp only [toOption_fromU16_eq_some_iff, exists_eq_right']

/-- What is left out is the codes that do not resolve. -/
theorem map_knownCapabilities (c : NodeCertificate) :
    c.knownCapabilities.map AlgId.asU16 =
      c.capabilityCodes.filter fun code => (AlgId.fromU16 code).toOption.isSome :=
  AlgId.map_asU16_filterMap toOption_fromU16_eq_some_iff.mp c.capabilities

end NodeCertificate

/-! ## What is accepted, and what was granted -/

/-- A capability of a node that someone can make a verifier accept, by presenting some bytes. -/
def Accepted (issuer : PublicKey P) (subject : NodeId) (alg : AlgId) (now : UInt64) : Prop :=
  ∃ b tl c, (NodeCertificate.fromWireBytes b tl).1 = .ok c ∧ c.verify issuer now = .ok () ∧
    c.subject = subject ∧ c.hasCapability alg = true

/-- A capability of a node that a keystore has granted for a time, in its own name. -/
def Granted (ks : Keystore P) (uses : List Use) (subject : NodeId) (alg : AlgId) (now : UInt64) :
    Prop :=
  ∃ f c, .certificate f ∈ uses ∧ NodeCertificate.sign P f ks.sign = .ok c ∧
    f.issuer = ks.nodeId ∧ f.subject = subject ∧ alg.asU16 ∈ f.capabilities ∧
    f.validFrom ≤ now ∧ now < f.validUntil

/-- What the holder of a key has signed with it verifies under it. -/
def Keypair.Correct (kp : Keypair P) (uses : List Use) : Prop :=
  ∀ u ∈ uses, ∀ msg, u.message P = some msg →
    P.verify (P.verifyingKey kp.signingKey) msg (P.sign kp.signingKey msg) = true

namespace NodeCertificate

variable {ks : Keystore P} {uses : List Use} {now : UInt64}

/-- What passes verification would pass minting. -/
theorem Sound.signInput_eq {c : NodeCertificate} {key : PublicKey P} (h : c.Sound key) :
    signInput P c.toCertificateFields = .ok (writeCanonicalForm c.toCertificateFields) :=
  signInput_eq_ok_iff.mpr ⟨h.capabilities, h.publicKey, h.subject, h.lifetime, rfl⟩

/-- **What verifies was minted**, with the fields that it has. -/
theorem minted_of_verify (ideal : Ideal ks.keypair.publicKey uses) {c : NodeCertificate}
    (h : c.verify ks.keypair.publicKey now = .ok ()) :
    .certificate c.toCertificateFields ∈ uses ∧
      sign P c.toCertificateFields ks.sign = .ok (minted ks.keypair c.toCertificateFields) ∧
      c.issuer = ks.nodeId ∧ c.validFrom ≤ now ∧ now < c.validUntil := by
  obtain ⟨sound, hfrom, huntil⟩ := verify_eq_ok_iff.mp h
  obtain ⟨-, raw, -, hraw⟩ := verifyEd25519_eq_ok_iff.mp sound.signature
  -- the signature is over the canonical form of a certificate, so that is what was signed
  obtain ⟨u, hu, hmsg⟩ := ideal _ _ hraw
  obtain rfl := minted_of_message hmsg
  refine ⟨hu, ?_, sound.issuer, hfrom, huntil⟩
  rw [Keystore.sign, sign_keypair, sound.signInput_eq]
  rfl

/-- **What was minted verifies** in its window, where the issuer that it names has minted it. -/
theorem verify_of_use (correct : Keypair.Correct ks.keypair uses) {f : CertificateFields}
    {c : NodeCertificate} (hf : .certificate f ∈ uses) (hsign : sign P f ks.sign = .ok c)
    (hissuer : f.issuer = ks.nodeId) (hfrom : f.validFrom ≤ now) (huntil : now < f.validUntil) :
    c.toCertificateFields = f ∧ c.verify ks.keypair.publicKey now = .ok () := by
  obtain ⟨rfl, hinput⟩ := sign_keystore hsign
  refine ⟨rfl, verify_eq_ok_iff.mpr ⟨?_, hfrom, huntil⟩⟩
  obtain ⟨hcaps, hkey, hsubject, hlife, -⟩ := signInput_eq_ok_iff.mp hinput
  have hmsg : (Use.certificate f).message P = some (writeCanonicalForm f) := by
    rw [Use.message, hinput]
    rfl
  exact
    { capabilities := hcaps
      publicKey := hkey
      subject := hsubject
      issuer := hissuer
      signature := verifyEd25519_eq_ok_iff.mpr ⟨rfl, _, rfl, correct _ hf _ hmsg⟩
      lifetime := hlife }

end NodeCertificate

/-- **Capabilities are those granted.** Whatever bytes are presented, the capabilities of a node
that verify under the key of a keystore at a time are those that the keystore has granted to the
node for this time. So a capability that was last granted from `t` on, and not anew, is accepted
nowhere once the longest lifetime has gone by. -/
theorem capabilities_granted {ks : Keystore P} {uses : List Use}
    (ideal : Ideal ks.keypair.publicKey uses) (correct : Keypair.Correct ks.keypair uses)
    (subject : NodeId) (alg : AlgId) :
    (∀ now, Accepted ks.keypair.publicKey subject alg now ↔ Granted ks uses subject alg now) ∧
      ∀ t : ℕ, (∀ f, .certificate f ∈ uses → f.subject = subject → alg.asU16 ∈ f.capabilities →
          f.validFrom.toNat ≤ t) →
        ∀ now : UInt64, t + 28800 ≤ now.toNat →
          ¬ Accepted ks.keypair.publicKey subject alg now := by
  have hgranted : ∀ now, Accepted ks.keypair.publicKey subject alg now →
      Granted ks uses subject alg now := by
    rintro now ⟨b, tl, c, -, hverify, rfl, halg⟩
    obtain ⟨hmem, hsign, hissuer, hfrom, huntil⟩ :=
      NodeCertificate.minted_of_verify ideal hverify
    exact ⟨c.toCertificateFields, _, hmem, hsign, hissuer, rfl,
      NodeCertificate.hasCapability_eq_true_iff.mp halg, hfrom, huntil⟩
  constructor
  · intro now
    refine ⟨hgranted now, ?_⟩
    rintro ⟨f, c, hf, hsign, hissuer, rfl, halg, hfrom, huntil⟩
    obtain ⟨octets, -, hread⟩ := NodeCertificate.exists_octets_of_sign hsign
    obtain ⟨rfl, hverify⟩ :=
      NodeCertificate.verify_of_use correct hf hsign hissuer hfrom huntil
    exact ⟨octets.bytes, .fresh, c, hread .fresh, hverify, rfl,
      NodeCertificate.hasCapability_eq_true_iff.mpr halg⟩
  · intro t ht now hnow haccepted
    obtain ⟨f, c, hf, hsign, -, hsubject, halg, -, huntil⟩ := hgranted now haccepted
    obtain ⟨-, hinput⟩ := NodeCertificate.sign_keystore hsign
    -- the window of what was granted is at most the longest lifetime
    obtain ⟨-, -, -, hlife, -⟩ := NodeCertificate.signInput_eq_ok_iff.mp hinput
    obtain ⟨-, hlifetime⟩ := checkLifetime_eq_ok_iff.mp hlife
    have hfrom := ht f hf hsubject halg
    have hlast := UInt64.lt_iff_toNat_lt.mp huntil
    omega

/-! ### What the root certificate grants -/

namespace Root

def keystore : Keystore primitives := ⟨⟨()⟩⟩

theorem signInput_primitives :
    NodeCertificate.signInput primitives fields = .ok (writeCanonicalForm fields) :=
  sound.signInput_eq

theorem correct : Keypair.Correct keystore.keypair [.certificate fields] := by
  intro u hu msg hmsg
  obtain rfl := List.mem_singleton.mp hu
  rw [Use.message, signInput_primitives] at hmsg
  obtain rfl := Option.some.inj hmsg
  exact verify_eq_true_iff.mpr ⟨rfl, rfl⟩

theorem granted : Granted keystore [.certificate fields] nodeId .ed25519 1500 := by
  refine ⟨fields, certificate, List.mem_singleton_self _, ?_, sound.issuer, rfl, by decide,
    by decide, by decide⟩
  rw [Keystore.sign, NodeCertificate.sign_keypair, signInput_primitives]
  rfl

end Root

theorem capabilities_granted_root :
    Accepted Root.keystore.keypair.publicKey Root.nodeId .ed25519 1500 ∧
      ¬ Accepted Root.keystore.keypair.publicKey Root.nodeId .ed25519 29800 := by
  obtain ⟨haccepted, hlapsed⟩ :=
    capabilities_granted Root.ideal Root.correct Root.nodeId .ed25519
  refine ⟨(haccepted 1500).mpr Root.granted, hlapsed 1000 ?_ 29800 (by decide)⟩
  intro f hf _ _
  obtain ⟨rfl⟩ := List.mem_singleton.mp hf
  decide

end Meshwarden.Identity
