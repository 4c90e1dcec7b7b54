import Meshwarden.Proto.Canonical

/-!
# Encoders against decoders

The encoders and the decoders of the authentication messages check different things. An encoder
demands the exact length of a nonce, where a decoder knows an upper bound only; a decoder resolves
the algorithm codes, which an encoder writes as they are. So each direction of the round trip holds
up to the check that the other side does not make, and where it fails the error names that check.

## Main definitions

* `FirstUnregistered signatures code`: the first code of a signature list that does not resolve

## Main results

* `registered_or_firstUnregistered`: every list resolves, or stops at a code
* `toBytes_fromBytes`: what is encoded is decoded, up to the algorithm codes
* `fromBytes_toBytes`: what is decoded is encoded, up to the length of the nonce
-/

namespace Meshwarden.Proto

open Codec Crypto

variable {α : Type}

/-! ## What is encoded is decoded -/

/-- `code` is the first algorithm code of a signature list that is not in the registry. -/
def FirstUnregistered {N : ℕ} (signatures : BoundedVec WireSignature N) (code : UInt16) : Prop :=
  ∃ before sig behind, signatures.items = before ++ sig :: behind ∧
    (∀ s ∈ before, ∃ a : AlgId, a.asU16 = s.algorithm) ∧
    (∀ a : AlgId, a.asU16 ≠ sig.algorithm) ∧ sig.algorithm = code

/-- Resolving stops at the first code that is not in the registry. -/
theorem resolveSignatureAlgorithms_append {before behind : List WireSignature} {sig : WireSignature}
    (hbefore : ∀ s ∈ before, ∃ a : AlgId, a.asU16 = s.algorithm)
    (hsig : ∀ a : AlgId, a.asU16 ≠ sig.algorithm) :
    resolveSignatureAlgorithms (before ++ sig :: behind) =
      .error (.unknownAlgorithm sig.algorithm) := by
  induction before with
  | nil =>
    rw [List.nil_append, resolveSignatureAlgorithms, algFromU16_of_unregistered hsig]
    rfl
  | cons s before ih =>
    obtain ⟨⟨a, ha⟩, hrest⟩ := List.forall_mem_cons.mp hbefore
    rw [List.cons_append, resolveSignatureAlgorithms, algFromU16_eq_ok_iff.mpr ha]
    exact ih hrest

/-- Every code of a list is in the registry, or there is a first one that is not. -/
theorem registered_or_firstUnregistered {N : ℕ} (signatures : BoundedVec WireSignature N) :
    Registered signatures ∨ ∃ code, FirstUnregistered signatures code := by
  obtain ⟨items, bounded⟩ := signatures
  simp only [Registered, FirstUnregistered]
  clear bounded
  induction items with
  | nil => exact Or.inl (List.forall_mem_nil _)
  | cons sig items ih =>
    by_cases hsig : ∃ a : AlgId, a.asU16 = sig.algorithm
    · rcases ih with hall | ⟨code, before, first, behind, rfl, hbefore, hfirst, hcode⟩
      · exact Or.inl (List.forall_mem_cons.mpr ⟨hsig, hall⟩)
      · exact Or.inr ⟨code, sig :: before, first, behind, rfl,
          List.forall_mem_cons.mpr ⟨hsig, hbefore⟩, hfirst, hcode⟩
    · exact Or.inr ⟨sig.algorithm, [], sig, items, rfl, List.forall_mem_nil _,
        not_exists.mp hsig, rfl⟩

theorem not_firstUnregistered_empty {N : ℕ} {code : UInt16} :
    ¬ FirstUnregistered (.empty : BoundedVec WireSignature N) code := by
  rintro ⟨before, sig, behind, hitems, -⟩
  exact List.append_ne_nil_of_right_ne_nil before (List.cons_ne_nil sig behind) hitems.symm

/-- The decoder on an encoding: it decodes, and resolving is left. -/
theorem fromBytesWith_serialize {w : WireType α} {maxBytes : ℕ} (hmax : w.maxLength ≤ maxBytes)
    {resolve : α → Except Error Unit} (v : α) (tl : ThreadLocals) :
    (fromBytesWith w maxBytes resolve (w.serialize v) tl).1 = (resolve v).map fun _ => v := by
  rw [fromBytesWith_eq ((w.length_serialize_le v).trans hmax), w.decodeExact_serialize v tl]
  exact if_neg (not_not.mpr rfl)

/-- The decoder on an encoding, where codes of a signature list are resolved. -/
theorem fromBytesWith_serialize_signatures {w : WireType α} {maxBytes : ℕ}
    (hmax : w.maxLength ≤ maxBytes) {N : ℕ} {signatures : α → BoundedVec WireSignature N} (v : α)
    (tl : ThreadLocals) :
    (Registered (signatures v) →
        (fromBytesWith w maxBytes (fun m => resolveSignatureAlgorithms (signatures m).items)
          (w.serialize v) tl).1 = .ok v) ∧
      ∀ code, FirstUnregistered (signatures v) code →
        (fromBytesWith w maxBytes (fun m => resolveSignatureAlgorithms (signatures m).items)
          (w.serialize v) tl).1 = .error (.unknownAlgorithm code) := by
  rw [fromBytesWith_serialize hmax]
  constructor
  · intro h
    rw [resolveSignatureAlgorithms_eq_ok_iff.mpr h]
    rfl
  · rintro code ⟨before, sig, behind, hitems, hbefore, hsig, rfl⟩
    rw [hitems, resolveSignatureAlgorithms_append hbefore hsig]
    rfl

/-- **What is encoded is decoded, up to the algorithm codes.** An encoded `AuthInit` is decoded to
itself. So are the other two messages when every algorithm code in them is in the registry, and
otherwise the decoder reports the first one that is not. -/
theorem toBytes_fromBytes :
    (∀ (m : AuthInit) b tl, m.toBytes = .ok b → (AuthInit.fromBytes b tl).1 = .ok m) ∧
      (∀ (m : AuthResponse) b tl, m.toBytes = .ok b →
        (Registered m.signatures → (AuthResponse.fromBytes b tl).1 = .ok m) ∧
          ∀ code, FirstUnregistered m.signatures code →
            (AuthResponse.fromBytes b tl).1 = .error (.unknownAlgorithm code)) ∧
      ∀ (m : AuthConfirm) b tl, m.toBytes = .ok b →
        (Registered m.signatures → (AuthConfirm.fromBytes b tl).1 = .ok m) ∧
          ∀ code, FirstUnregistered m.signatures code →
            (AuthConfirm.fromBytes b tl).1 = .error (.unknownAlgorithm code) := by
  refine ⟨fun m b tl h => ?_, fun m b tl h => ?_, fun m b tl h => ?_⟩
  · rw [m.toBytes_eq] at h
    split_ifs at h
    rw [← Except.ok.inj h, AuthInit.fromBytes, fromBytesWith_serialize AuthInit.maxLength_le]
    rfl
  · rw [m.toBytes_eq] at h
    split_ifs at h
    rw [← Except.ok.inj h]
    exact fromBytesWith_serialize_signatures AuthResponse.maxLength_le m tl
  · rw [m.toBytes_eq] at h
    rw [← Except.ok.inj h]
    exact fromBytesWith_serialize_signatures AuthConfirm.maxLength_le m tl

/-- A signature whose algorithm code is not in the registry. -/
def unregisteredConfirm : AuthConfirm := ⟨⟨[⟨0x00ff, ⟨[], by decide⟩⟩], by decide⟩⟩

/-- An encoder writes a code that no decoder resolves. -/
theorem unregisteredConfirm_toBytes :
    unregisteredConfirm.toBytes = .ok [0x01, 0xff, 0x01, 0x00] ∧
      (AuthConfirm.fromBytes [0x01, 0xff, 0x01, 0x00] .fresh).1 =
        .error (.unknownAlgorithm 0x00ff) := by
  constructor
  · rfl
  · rfl

/-! ## What is decoded is encoded -/

/-- **What is decoded is encoded, up to the length of the nonce.** A decoded `AuthConfirm` encodes
to the bytes that it was decoded from. So do the other two messages when their nonce is exactly 32
bytes long; a shorter one is decoded too, and refused by the encoder. -/
theorem fromBytes_toBytes :
    (∀ b tl m, (AuthInit.fromBytes b tl).1 = .ok m →
        (m.clientNonce.bytes.length = 32 → m.toBytes = .ok b) ∧
          (m.clientNonce.bytes.length ≠ 32 →
            m.toBytes = .error (.exactLength 32 m.clientNonce.bytes.length))) ∧
      (∀ b tl m, (AuthResponse.fromBytes b tl).1 = .ok m →
        (m.serverNonce.bytes.length = 32 → m.toBytes = .ok b) ∧
          (m.serverNonce.bytes.length ≠ 32 →
            m.toBytes = .error (.exactLength 32 m.serverNonce.bytes.length))) ∧
      ∀ b tl m, (AuthConfirm.fromBytes b tl).1 = .ok m → m.toBytes = .ok b := by
  refine ⟨fun b tl m h => ?_, fun b tl m h => ?_, fun b tl m h => ?_⟩
  · obtain ⟨-, hb⟩ := (fromBytesWith_eq_ok_iff AuthInit.maxLength_le).mp h
    rw [m.toBytes_eq, hb]
    exact ⟨fun hlen => if_pos hlen, fun hlen => if_neg hlen⟩
  · obtain ⟨-, hb⟩ := (fromBytesWith_eq_ok_iff AuthResponse.maxLength_le).mp h
    rw [m.toBytes_eq, hb]
    exact ⟨fun hlen => if_pos hlen, fun hlen => if_neg hlen⟩
  · obtain ⟨-, hb⟩ := (fromBytesWith_eq_ok_iff AuthConfirm.maxLength_le).mp h
    rw [m.toBytes_eq, hb]

/-- A message with an empty nonce and an empty certificate. -/
def emptyInit : AuthInit := ⟨1, ⟨[], by decide⟩, ⟨[], by decide⟩⟩

/-- A decoder accepts a nonce that is too short for the encoder. -/
theorem emptyInit_fromBytes :
    (AuthInit.fromBytes [0x01, 0x00, 0x00] .fresh).1 = .ok emptyInit ∧
      emptyInit.toBytes = .error (.exactLength 32 0) := by
  constructor
  · rfl
  · rfl

end Meshwarden.Proto
