import Meshwarden.Codec.Spelling
import Meshwarden.Proto.Messages

/-!
# What the comparison with the re-encoding rejects

Strict decoding accepts padded numbers, so a value has many spellings on the wire. A decoder that
compares its input with the re-encoding of what it decoded rejects the spellings that hold a padded
number, and no others. The decoder of `Hello` makes no comparison; re-encoding what it accepts gives
the shortest spelling of the same message.

## Main definitions

* `WireType.varints w b`: the sequences of groups that are read from `b`
* `WireType.Minimal w b`: each of them is the shortest of its number
* `RejectsOverlong`: a strict decoder that rejects the overlong numbers and nothing else

## Main results

* `WireType.format_spells`: what is read as a wire type is spelled with those sequences
* `WireType.serialize_eq_iff`, `WireType.length_serialize_lt`: the re-encoding of a decoded value
* `RejectsOverlong.of_eq`, `fromBytesWith_rejectsOverlong`: strict decoders
* `Hello.toBytes_of_fromBytes`: what re-encoding makes of a `Hello`
-/

namespace Meshwarden.Proto

open Codec

variable {ε α β κ : Type}

/-! ## The numbers of an input -/

namespace WireType

/-- The sequences of groups that the deserialization takes off an input, in order: those of the
wider integers, and the lengths and counts. -/
def varints : {α : Type} → WireType α → Bytes → List Bytes
  | _, .u8 => fun _ => []
  | _, .u16 => fun b => [Leb128.sequence b]
  | _, .u64 => fun b => [Leb128.sequence b]
  | _, .boundedBytes _ _ => fun b => [Leb128.sequence b]
  | _, .boundedVec _ _ item => seqVarints item.format item.varints
  | _, .text _ => fun b => [Leb128.sequence b]
  | _, .nil => fun _ => []
  | _, .field first rest => pairVarints first.format first.varints rest.varints
  | _, .struct _ fields => fields.varints

-- one advertised code, in a list whose count is padded
example : Hello.wire.varints [0x81, 0x00, 0x05] = [[0x81, 0x00], [0x05]] := rfl

/-- Every number of an input is in its shortest form. -/
def Minimal (w : WireType α) (b : Bytes) : Prop := ∀ g ∈ w.varints b, Leb128.Shortest g

/-- **What is read as a wire type is spelled** with the sequences of groups that are read. -/
theorem format_spells (w : WireType α) : w.format.Spells w.varints := by
  induction w with
  | u8 => exact Format.Spells.byte none
  | u16 =>
    exact Format.Spells.varint none (by decide) fun n hn => UInt16.toNat_ofNat_of_lt' hn
  | u64 =>
    exact Format.Spells.varint none (by decide) fun n hn => UInt64.toNat_ofNat_of_lt' hn
  | boundedBytes N bound => exact (Format.Spells.bytesUpTo none _ N).imap _
  | boundedVec N bound item ih => exact (Format.Spells.seqUpTo none _ N ih).imap _
  | text t => exact Format.Spells.text none t
  | nil => exact Format.Spells.unit
  | field first rest ih₁ ih₂ => exact ih₁.pair ih₂
  | struct e fields ih => exact ih.imap e

variable {w : WireType α} {b : Bytes} {tl : ThreadLocals} {v : α}

/-- An input that strict decoding accepts spells the re-encoding of its value. -/
theorem spelled_of_decodeExact (h : (decodeExact w.deserialize b tl).1 = .ok v) :
    Spelled (w.serialize v) b (w.varints b) := by
  obtain ⟨c, hb, hc⟩ := w.format_spells ((w.decodeExact_ok b tl).mp h)
  obtain rfl : b = c := hb.trans (List.append_nil c)
  rwa [← format_write]

/-- **The re-encoding is the input exactly when every number of the input is shortest.** -/
theorem serialize_eq_iff (h : (decodeExact w.deserialize b tl).1 = .ok v) :
    w.serialize v = b ↔ w.Minimal b :=
  (spelled_of_decodeExact h).eq_iff

/-- **Otherwise the re-encoding is strictly shorter.** -/
theorem length_serialize_lt (h : (decodeExact w.deserialize b tl).1 = .ok v)
    (hb : ¬ w.Minimal b) : (w.serialize v).length < b.length :=
  (spelled_of_decodeExact h).length_lt hb

end WireType

/-! ## Strict decoders -/

/-- The errors of strict decoding. -/
def Error.OfDecode : Error → Prop
  | .boundExceeded _ _ => True
  | .malformedWire => True
  | .trailingBytes _ => True
  | _ => False

theorem ofDecode_of_decodeExact {deserialize : De α} {b : Bytes} {tl : ThreadLocals} {e : Error}
    (h : (decodeExact deserialize b tl).1 = .error e) : e.OfDecode := by
  rw [decodeExact] at h
  split at h
  · -- a failed deserialization, with a violation in the slot or without
    obtain rfl := Except.error.inj h
    split <;> trivial
  · simp only at h
    split_ifs at h
    obtain rfl := Except.error.inj h
    trivial

/-- **A strict decoder rejects the overlong numbers and nothing else** in its comparison. For inputs
within the bound, `nonCanonical` is given exactly to those that decode and hold a number that is not
in its shortest form; and an unknown code is reported only for an input that is the encoding of the
value that it decodes to. -/
def RejectsOverlong (w : WireType α) (maxBytes : ℕ)
    (fromBytes : Bytes → ThreadLocals → Except ε β × ThreadLocals) (nonCanonical : ε)
    (unknown : κ → ε) : Prop :=
  ∀ b tl, b.length ≤ maxBytes →
    ((fromBytes b tl).1 = .error nonCanonical ↔
        (∃ v, (decodeExact w.deserialize b tl).1 = .ok v) ∧ ¬ w.Minimal b) ∧
      ∀ code, (fromBytes b tl).1 = .error (unknown code) →
        ∃ v, (decodeExact w.deserialize b tl).1 = .ok v ∧ w.serialize v = b

/-- A decoder that decodes, compares and then resolves, with errors that say which step failed. -/
theorem RejectsOverlong.of_eq {w : WireType α} {maxBytes : ℕ}
    {fromBytes : Bytes → ThreadLocals → Except ε β × ThreadLocals} {nonCanonical : ε}
    {unknown : κ → ε} (fail : Error → ε) (resolve : α → Except ε β)
    (heq : ∀ b tl, b.length ≤ maxBytes → (fromBytes b tl).1 = (do
      let v ← (decodeExact w.deserialize b tl).1.mapError fail
      if w.serialize v ≠ b then .error nonCanonical else resolve v))
    (hfail : ∀ e, e.OfDecode → fail e ≠ nonCanonical ∧ ∀ code, fail e ≠ unknown code)
    (hresolve : ∀ v, resolve v ≠ .error nonCanonical)
    (hunknown : ∀ code, nonCanonical ≠ unknown code) :
    RejectsOverlong w maxBytes fromBytes nonCanonical unknown := by
  intro b tl hlen
  rw [heq b tl hlen]
  simp only [bind, Except.bind, Except.mapError]
  rcases hd : (decodeExact w.deserialize b tl).1 with e | v
  · -- nothing was decoded, so there was nothing to compare
    obtain ⟨hne, hcode⟩ := hfail e (ofDecode_of_decodeExact hd)
    constructor
    · constructor
      · intro h
        exact absurd (Except.error.inj h) hne
      · rintro ⟨⟨v, hv⟩, -⟩
        cases hv
    · intro code h
      exact absurd (Except.error.inj h) (hcode code)
  · have hiff := WireType.serialize_eq_iff hd
    by_cases hs : w.serialize v = b
    · -- the input is the encoding of what it decodes to, so its numbers are shortest
      simp only [hs, ne_eq, not_true_eq_false, if_false]
      constructor
      · constructor
        · intro h
          exact absurd h (hresolve v)
        · rintro ⟨-, hmin⟩
          exact absurd (hiff.mp hs) hmin
      · intro code _
        exact ⟨v, rfl, hs⟩
    · simp only [hs, ne_eq, not_false_eq_true, if_true]
      constructor
      · constructor
        · intro _
          exact ⟨⟨v, rfl⟩, fun hmin => hs (hiff.mpr hmin)⟩
        · intro _
          trivial
      · intro code h
        exact absurd (Except.error.inj h) (hunknown code)

/-- A strict decoder of messages, step by step. -/
theorem fromBytesWith_eq {w : WireType α} {maxBytes : ℕ} {resolve : α → Except Error Unit}
    {b : Bytes} {tl : ThreadLocals} (hlen : b.length ≤ maxBytes) :
    (fromBytesWith w maxBytes resolve b tl).1 = (do
      let v ← (decodeExact w.deserialize b tl).1.mapError id
      if w.serialize v ≠ b then .error .nonCanonicalEncoding
      else (resolve v).map fun _ => v) := by
  rw [fromBytesWith, if_neg (Nat.not_lt.mpr hlen)]
  rcases decodeExact w.deserialize b tl with ⟨e | v, tl'⟩
  · rfl
  · simp only [bind, Except.bind, WireType.toAllocvec, checkCanonical, Except.mapError]
    split_ifs
    · rfl
    · simp only
      rcases resolve v with e | ⟨⟩ <;> rfl

theorem fromBytesWith_rejectsOverlong (w : WireType α) (maxBytes : ℕ)
    {resolve : α → Except Error Unit} (hresolve : ∀ v, resolve v ≠ .error .nonCanonicalEncoding) :
    RejectsOverlong w maxBytes (fromBytesWith w maxBytes resolve) .nonCanonicalEncoding
      Error.unknownAlgorithm := by
  apply RejectsOverlong.of_eq id (fun v => (resolve v).map fun _ => v)
  · intro b tl hlen
    exact fromBytesWith_eq hlen
  · -- decoding gives neither of the two errors
    intro e he
    cases e <;> first | exact he.elim | exact ⟨Error.noConfusion, fun _ => Error.noConfusion⟩
  · intro v h
    rcases hr : resolve v with e | ⟨⟩
    · rw [hr] at h
      obtain rfl := Except.error.inj h
      exact hresolve v hr
    · rw [hr] at h
      cases h
  · intro code
    exact Error.noConfusion

/-- Resolving reports an unknown code, and nothing else. -/
theorem resolveSignatureAlgorithms_ne {signatures : List WireSignature} :
    resolveSignatureAlgorithms signatures ≠ .error .nonCanonicalEncoding := by
  induction signatures with
  | nil =>
    intro h
    cases h
  | cons sig signatures ih =>
    rw [resolveSignatureAlgorithms, algFromU16]
    rcases Crypto.AlgId.fromU16 sig.algorithm with e | a
    · intro h
      cases h
    · exact ih

/-! ## The handshake -/

/-- **What re-encoding makes of a `Hello`.** Whatever was accepted, the re-encoding is no longer
than it, decodes to the same message, and is the same bytes exactly when every number was in its
shortest form. -/
theorem Hello.toBytes_of_fromBytes {b : Bytes} {tl : ThreadLocals} {m : Hello}
    (h : (fromBytes b tl).1 = .ok m) :
    ∃ b', m.toBytes = .ok b' ∧ b'.length ≤ b.length ∧ (∀ tl', (fromBytes b' tl').1 = .ok m) ∧
      (b' = b ↔ wire.Minimal b) :=
  ⟨wire.serialize m, rfl, (WireType.spelled_of_decodeExact h).length_le,
    fun tl' => wire.decodeExact_serialize m tl', WireType.serialize_eq_iff h⟩

end Meshwarden.Proto
