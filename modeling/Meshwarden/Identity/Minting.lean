import Meshwarden.Identity.Issuance
import Meshwarden.Identity.WireForms

/-!
# Minting and validation

The rules for certificates are enforced twice, when one is minted and when one is verified, in two
functions that repeat the checks in different orders. For a key that is named as the issuer the two
agree: minting succeeds exactly on the fields whose certificate verifies at some time, and fails
with the error that verification gives at every time. Minting does not look at the issuer, so under
another name it mints what no verification accepts.

## Main definitions

* `Keypair.SelfVerifying`: the signatures of a key verify under it
* `NodeCertificate.minted kp f`: the fields `f` with the signature of `kp` over their canonical form

## Main results

* `NodeCertificate.sign_keypair`, `NodeCertificate.verify_minted`: both sides are the checks that
  minting makes, then the certificate or the window
* `NodeCertificate.minting_validation_agree`
-/

namespace Meshwarden.Identity

open Codec Crypto Proto

variable {P : Primitives}

/-- The signatures of a key verify under its own public key. -/
def Keypair.SelfVerifying (kp : Keypair P) : Prop :=
  ∀ msg, P.verify (P.verifyingKey kp.signingKey) msg (P.sign kp.signingKey msg) = true

namespace NodeCertificate

/-- The certificate of some fields: with the signature of a key over their canonical form. -/
def minted (kp : Keypair P) (f : CertificateFields) : NodeCertificate :=
  { f with signature := ⟨.ed25519, (P.sign kp.signingKey (writeCanonicalForm f)).1⟩ }

/-! ## Minting -/

/-- Signing with a key never fails, so minting fails only in its checks. -/
theorem sign_keypair (kp : Keypair P) (f : CertificateFields) :
    sign P f kp.sign = (signInput P f).map fun _ => minted kp f := by
  rw [sign_eq]
  rcases hinput : signInput P f with e | msg
  · rfl
  · rw [signInput_eq_ok hinput]
    rfl

/-! ## Verification of what was minted -/

/-- Where the issuer is the verifying key and its signature is in order, the checks of verification
that do not look at the time are those of minting, in the same order. -/
theorem verifyUntimed_eq {c : NodeCertificate} {key : PublicKey P}
    (hissuer : c.issuer = NodeId.fromPublicKeyBytes P key.toBytes)
    (hsig : key.verify (writeCanonicalForm c.toCertificateFields) c.signature = .ok ()) :
    c.verifyUntimed key = (signInput P c.toCertificateFields).map fun _ => () := by
  rw [verifyUntimed, signInput]
  rcases checkCapabilityCount c.capabilities with e | ⟨⟩
  · rfl
  rcases checkSubjectPublicKey P c.publicKey with e | ⟨⟩
  · rfl
  by_cases hsubject : c.subject = NodeId.fromPublicKeyBytes P c.publicKey
  · -- behind the subject, verification looks at the issuer and at the signature
    rw [if_neg (not_not.mpr hsubject), if_neg (not_not.mpr hsubject), if_neg (not_not.mpr hissuer)]
    simp only [canonicalBytes, bind, Except.bind, hsig, Except.mapError]
    rcases checkLifetime c.validFrom c.validUntil with e | ⟨⟩ <;> rfl
  · rw [if_pos hsubject, if_pos hsubject]
    rfl

/-- Verification stops at an issuer that is not the verifying key. -/
theorem verify_of_issuer_ne {c : NodeCertificate} {key : PublicKey P}
    (hcaps : c.capabilities.length ≤ maxCertCapabilities)
    (hkey : ∃ subjectKey : PublicKey P, PublicKey.fromBytes c.publicKey = .ok subjectKey)
    (hsubject : c.subject = NodeId.fromPublicKeyBytes P c.publicKey)
    (hissuer : c.issuer ≠ NodeId.fromPublicKeyBytes P key.toBytes) (now : UInt64) :
    c.verify key now = .error .issuerKeyMismatch := by
  rw [verify, checkCapabilityCount_eq_ok_iff.mpr hcaps, checkSubjectPublicKey_eq_ok_iff.mpr hkey,
    if_neg (not_not.mpr hsubject), if_pos hissuer]
  rfl

section Issuer

variable {kp : Keypair P} {f : CertificateFields}

theorem verify_signature (hkp : Keypair.SelfVerifying kp) (msg : Bytes) :
    kp.publicKey.verify msg ⟨.ed25519, (P.sign kp.signingKey msg).1⟩ = .ok () :=
  verifyEd25519_eq_ok_iff.mpr ⟨rfl, P.sign kp.signingKey msg, rfl, hkp msg⟩

/-- **The verdict on what was minted**: the checks of minting, then the window. -/
theorem verify_minted (hkp : Keypair.SelfVerifying kp)
    (hissuer : f.issuer = NodeId.fromPublicKeyBytes P kp.publicKeyBytes) (now : UInt64) :
    (minted kp f).verify kp.publicKey now =
      (signInput P f).bind fun _ => (minted kp f).verifyWindow now := by
  have huntimed : (minted kp f).verifyUntimed kp.publicKey = (signInput P f).map fun _ => () :=
    verifyUntimed_eq hissuer (verify_signature hkp _)
  rw [verify_eq, huntimed]
  rcases signInput P f with e | msg <;> rfl

/-- What minting lets through has a window, and verifies in it and not outside. -/
theorem verdicts_of_signInput (hkp : Keypair.SelfVerifying kp)
    (hissuer : f.issuer = NodeId.fromPublicKeyBytes P kp.publicKeyBytes) {msg : Bytes}
    (h : signInput P f = .ok msg) :
    f.validFrom < f.validUntil ∧
      (∀ now, f.validFrom ≤ now → now < f.validUntil →
        (minted kp f).verify kp.publicKey now = .ok ()) ∧
      (∀ now, now < f.validFrom →
        (minted kp f).verify kp.publicKey now = .error (.notYetValid f.validFrom now)) ∧
      ∀ now, f.validUntil ≤ now →
        (minted kp f).verify kp.publicKey now = .error (.expired f.validUntil now) := by
  have hverify := verify_minted hkp hissuer
  rw [h] at hverify
  obtain ⟨-, -, -, hlife, -⟩ := signInput_eq_ok_iff.mp h
  have hwindow : f.validFrom < f.validUntil :=
    UInt64.lt_iff_toNat_lt.mpr (checkLifetime_eq_ok_iff.mp hlife).1
  refine ⟨hwindow, ?_, ?_, ?_⟩
  · intro now hfrom huntil
    exact (hverify now).trans (verifyWindow_eq_ok_iff.mpr ⟨hfrom, huntil⟩)
  · intro now hnow
    exact (hverify now).trans (if_pos hnow)
  · -- a time behind the window is not before it
    intro now hnow
    have hfrom : ¬ now < f.validFrom :=
      UInt64.not_lt.mpr (UInt64.le_trans (UInt64.le_of_lt hwindow) hnow)
    exact (hverify now).trans ((if_neg hfrom).trans (if_pos hnow))

/-- What minting lets through is encoded, and decoded to the same certificate. -/
theorem exists_wire_of_signInput {msg : Bytes} (h : signInput P f = .ok msg) :
    ∃ b, (minted kp f).toWireBytes = .ok b ∧
      ∀ tl, (fromWireBytes b tl).1 = .ok (minted kp f) := by
  obtain ⟨hcaps, ⟨key, hkey⟩, -, -, -⟩ := signInput_eq_ok_iff.mp h
  -- a key that parses and a signature of the key are far below their bounds
  have hlen : f.publicKey.length = publicKeyLen := by
    rw [PublicKey.fromBytes] at hkey
    split_ifs at hkey with hlen
    exact hlen
  have hsig : (P.sign kp.signingKey (writeCanonicalForm f)).1.length = signatureLen :=
    (P.sign kp.signingKey (writeCanonicalForm f)).2
  have hbounds : (minted kp f).InBounds :=
    ⟨hcaps, hlen.trans_le (by decide), hsig.trans_le (by decide)⟩
  obtain ⟨d, hd⟩ := hbounds.toWireBytes_eq
  exact ⟨_, hd, fun tl => fromWireBytes_eq_ok_iff.mpr hd⟩

end Issuer

/-- **Minting and validation agree.** For a key whose signatures verify under it, and fields that
name it as the issuer: minting succeeds exactly when the certificate of the fields verifies at some
time. It then returns that certificate, which verifies throughout its window, is not yet valid
before and expired behind, and comes back from its wire form as it is, so that its verdicts are the
same. Where minting fails, verification fails with the same error at every time. Fields that name
another issuer may be minted, but what is minted never verifies. -/
theorem minting_validation_agree (kp : Keypair P) (hkp : Keypair.SelfVerifying kp)
    (f : CertificateFields) :
    (f.issuer = NodeId.fromPublicKeyBytes P kp.publicKeyBytes →
        ((∃ c, sign P f kp.sign = .ok c) ↔
          ∃ now, (minted kp f).verify kp.publicKey now = .ok ()) ∧
        (∀ c, sign P f kp.sign = .ok c →
          c = minted kp f ∧
            (∀ now, f.validFrom ≤ now → now < f.validUntil →
              c.verify kp.publicKey now = .ok ()) ∧
            (∀ now, now < f.validFrom →
              c.verify kp.publicKey now = .error (.notYetValid f.validFrom now)) ∧
            (∀ now, f.validUntil ≤ now →
              c.verify kp.publicKey now = .error (.expired f.validUntil now)) ∧
            ∃ b, c.toWireBytes = .ok b ∧ ∀ tl, (fromWireBytes b tl).1 = .ok c) ∧
        ∀ e, sign P f kp.sign = .error e →
          ∀ now, (minted kp f).verify kp.publicKey now = .error e) ∧
      (f.issuer ≠ NodeId.fromPublicKeyBytes P kp.publicKeyBytes →
        ∀ c, sign P f kp.sign = .ok c →
          ∀ now, c.verify kp.publicKey now = .error .issuerKeyMismatch) := by
  rw [sign_keypair]
  constructor
  · intro hissuer
    rcases hinput : signInput P f with e | msg
    · -- verification fails in the checks of minting too
      have hverify := verify_minted hkp hissuer
      rw [hinput] at hverify
      refine ⟨⟨?_, ?_⟩, ?_, ?_⟩
      · rintro ⟨c, hc⟩
        cases hc
      · rintro ⟨now, hnow⟩
        rw [hverify] at hnow
        cases hnow
      · intro c hc
        cases hc
      · intro e' he now
        obtain rfl := Except.error.inj he
        exact hverify now
    · obtain ⟨hwindow, hok, hearly, hlate⟩ := verdicts_of_signInput hkp hissuer hinput
      refine ⟨⟨?_, ?_⟩, ?_, ?_⟩
      · intro _
        exact ⟨f.validFrom, hok f.validFrom (UInt64.le_refl _) hwindow⟩
      · intro _
        exact ⟨minted kp f, rfl⟩
      · intro c hc
        obtain rfl := Except.ok.inj hc
        exact ⟨rfl, hok, hearly, hlate, exists_wire_of_signInput hinput⟩
      · intro e he
        cases he
  · intro hissuer c hc now
    rcases hinput : signInput P f with e | msg
    · rw [hinput] at hc
      cases hc
    · rw [hinput] at hc
      obtain rfl := Except.ok.inj hc
      -- the checks in front of the issuer are those of minting, which passed
      obtain ⟨hcaps, hkey, hsubject, -, -⟩ := signInput_eq_ok_iff.mp hinput
      exact verify_of_issuer_ne hcaps hkey hsubject hissuer now

end NodeCertificate

/-! ### The root certificate, minted -/

namespace Root

/-- Ed25519 with the key of the root certificate, which signs it as it does. -/
def signer : Primitives where
  SigningKey := Unit
  VerifyingKey := Octets publicKeyLen
  sha256 := primitives.sha256
  verifyingKey _ := publicKey
  sign _ msg :=
    if msg = writeCanonicalForm fields then signature else ⟨List.replicate signatureLen 0, rfl⟩
  fromBytes k := some k
  toBytes k := k
  verify k msg sig := decide (k = publicKey ∧ sig =
    if msg = writeCanonicalForm fields then signature else ⟨List.replicate signatureLen 0, rfl⟩)

def keypair : Keypair signer := ⟨()⟩

theorem keypair_selfVerifying : Keypair.SelfVerifying keypair := by
  intro msg
  simp only [keypair, signer, and_self, decide_true]

theorem issuer_keypair : fields.issuer = NodeId.fromPublicKeyBytes signer keypair.publicKeyBytes :=
  fromPublicKeyBytes_publicKey.symm

theorem signInput_fields :
    NodeCertificate.signInput signer fields = .ok (writeCanonicalForm fields) :=
  NodeCertificate.signInput_eq_ok_iff.mpr
    ⟨sound.capabilities, ⟨⟨publicKey⟩, rfl⟩, issuer_keypair, sound.lifetime, rfl⟩

end Root

theorem NodeCertificate.minting_validation_agree_root :
    ∃ now, (NodeCertificate.minted Root.keypair Root.fields).verify Root.keypair.publicKey now =
      .ok () := by
  have hsign : NodeCertificate.sign Root.signer Root.fields Root.keypair.sign =
      .ok (NodeCertificate.minted Root.keypair Root.fields) := by
    rw [NodeCertificate.sign_keypair, Root.signInput_fields]
    rfl
  exact ((NodeCertificate.minting_validation_agree Root.keypair Root.keypair_selfVerifying
    Root.fields).1 Root.issuer_keypair).1.mp ⟨_, hsign⟩

end Meshwarden.Identity
