import Meshwarden.Codec.Grammar
import Meshwarden.Proto.Nesting

/-!
# What strict decoding makes of an input

The result of strict decoding is a function of the grammar of the wire type alone. A complete value
that fills the input is returned and one that does not leaves trailing bytes. Where no complete
value is there, the first point at which reading cannot continue decides: a violation of a bound is
reported with its numbers, anything else is malformed. In particular no suffix of an encoding is
absorbed into the value, and no encoding cut short is taken for a value or for a violation.

## Main definitions

* `WireType.grammar`: the grammar of a wire type
* `Classified w b result`: the result that the grammar of `w` calls for on `b`

## Main results

* `WireType.format_follows`: the format of a wire type follows its grammar
* `decodeExact_eq_iff_classified`: strict decoding gives the result that the grammar calls for
* `decodeExact_prefixFree`: encodings under strict decoding, extended and cut short
-/

namespace Meshwarden.Proto

open Codec

variable {α : Type}

/-! ## The grammar of a wire type -/

/-- The grammar of a wire type. A bound is violated by a byte string whose declared bytes are all
there, or by the count of a sequence whatever follows it. -/
def WireType.grammar : {α : Type} → WireType α → Grammar (Option Violation) α
  | _, .u8 => Grammar.byte none
  | _, .u16 => Grammar.varint none 16 UInt16.toNat
  | _, .u64 => Grammar.varint none 64 UInt64.toNat
  | _, .boundedBytes N _ =>
    Grammar.imap BoundedBytes.equiv (Grammar.bytesUpTo none (fun n => some ⟨n, N⟩) N)
  | _, .boundedVec N _ item =>
    Grammar.imap BoundedVec.equiv (Grammar.seqUpTo none (fun n => some ⟨n, N⟩) N item.grammar)
  | _, .text t => Grammar.text none t
  | _, .nil => Grammar.unit
  | _, .field first rest => first.grammar.pair rest.grammar
  | _, .struct e fields => Grammar.imap e fields.grammar

/-- **The format of a wire type follows its grammar.** -/
theorem WireType.format_follows (w : WireType α) : w.format.Follows w.grammar := by
  induction w with
  | u8 => exact Format.Follows.byte none
  | u16 =>
    exact Format.Follows.varint none (by decide) (fun n hn => UInt16.toNat_ofNat_of_lt' hn)
      fun x => UInt16.ofNat_toNat
  | u64 =>
    exact Format.Follows.varint none (by decide) (fun n hn => UInt64.toNat_ofNat_of_lt' hn)
      fun x => UInt64.ofNat_toNat
  | boundedBytes N bound => exact (Format.Follows.bytesUpTo none _ N).imap _
  | boundedVec N bound item ih => exact (Format.Follows.seqUpTo none _ N ih).imap _
  | text t => exact Format.Follows.text none t
  | nil => exact Format.Follows.unit
  | field first rest ih₁ ih₂ => exact ih₁.pair ih₂
  | struct e fields ih => exact ih.imap e

/-! ## Classification -/

/-- The result that the grammar of `w` calls for on the input `b`. -/
inductive Classified (w : WireType α) (b : Bytes) : Except Error α → Prop
  | ok {v : α} (h : w.grammar.Reads b v []) : Classified w b (.ok v)
  | trailingBytes {v : α} {rest : Bytes} (h : w.grammar.Reads b v rest) (hrest : rest ≠ []) :
    Classified w b (.error (.trailingBytes rest.length))
  | boundExceeded {declared max : ℕ} (h : w.grammar.Stops b (some ⟨declared, max⟩)) :
    Classified w b (.error (.boundExceeded declared max))
  | malformedWire (h : w.grammar.Stops b none) : Classified w b (.error .malformedWire)

/-- The outcome of the reading of a wire type is classified. -/
theorem classified_outcome (w : WireType α) (b : Bytes) :
    Classified w b (outcome (w.format.read b)) := by
  have hf := w.format_follows
  -- case by case, what the reading gives is what stands there
  rcases hr : w.format.read b with (_ | v) | ⟨v, _ | ⟨x, rest⟩⟩
  · exact .malformedWire (hf.error_iff.mp hr)
  · exact .boundExceeded (hf.error_iff.mp hr)
  · exact .ok (hf.ok_iff.mp hr)
  · exact .trailingBytes (hf.ok_iff.mp hr) (List.cons_ne_nil x rest)

/-- The grammar calls for no other result: the reading is determined by what stands there. -/
theorem Classified.eq_outcome {w : WireType α} {b : Bytes} {result : Except Error α}
    (h : Classified w b result) : outcome (w.format.read b) = result := by
  have hf := w.format_follows
  cases h with
  | ok h => rw [hf.ok_iff.mpr h, outcome]
  | @trailingBytes v rest h hrest =>
    rw [hf.ok_iff.mpr h]
    rcases rest with _ | ⟨x, rest⟩
    · exact absurd rfl hrest
    · rfl
  | boundExceeded h => rw [hf.error_iff.mpr h, outcome]
  | malformedWire h => rw [hf.error_iff.mpr h, outcome]

/-- **Classification of every input.** Whatever a thread has done before, strict decoding of a wire
type gives the result that its grammar calls for, and no other. -/
theorem decodeExact_eq_iff_classified (history : List Event) (w : WireType α) (b : Bytes)
    (result : Except Error α) :
    (decodeExact w.deserialize b (runEvents history)).1 = result ↔ Classified w b result := by
  rw [w.decodeExact_result b (runEvents_clear history)]
  constructor
  · rintro rfl
    exact classified_outcome w b
  · exact Classified.eq_outcome

-- a count of three where two elements fit, and nothing behind it
example : outcome ((WireType.boundedVec 2 (by decide) .u8).format.read [3]) =
    .error (.boundExceeded 3 2) := rfl

/-! ## Encodings -/

/-- **Encodings are prefix-free under strict decoding.** Whatever a thread has done before, an
encoding decodes to its value; whatever follows it is left over, byte for byte; and what is cut
short is malformed. -/
theorem decodeExact_prefixFree (history : List Event) (w : WireType α) (v : α) :
    (decodeExact w.deserialize (w.serialize v) (runEvents history)).1 = .ok v ∧
      (∀ s, s ≠ [] →
        (decodeExact w.deserialize (w.serialize v ++ s) (runEvents history)).1 =
          .error (.trailingBytes s.length)) ∧
      ∀ p, CutShort p (w.serialize v) →
        (decodeExact w.deserialize p (runEvents history)).1 = .error .malformedWire := by
  have h := runEvents_clear history
  refine ⟨w.decodeExact_serialize v _, ?_, ?_⟩
  · -- the reading stops behind the value, in front of `s`
    intro s hs
    rw [w.decodeExact_result _ h, w.read_serialize v s]
    rcases s with _ | ⟨x, s⟩
    · exact absurd rfl hs
    · rfl
  · intro p hp
    rw [w.decodeExact_result p h, w.read_cutShort hp, outcome]

end Meshwarden.Proto
