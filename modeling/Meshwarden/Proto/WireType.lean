import Meshwarden.Proto.Bounded

/-!
# Wire types

The types that go on the wire are built from machine integers, bounded byte strings, bounded
sequences and texts by structs. A wire type is described once, and its serialization, its
deserialization and its format are read off the description. The derived code of a struct runs that
of its fields in the order they are declared in.

## Main definitions

* `WireType α`: a description of `α` as a wire type
* `WireType.serialize`, `WireType.deserialize`: what the codec does with the type
* `WireType.maxLength`: the length of the longest serialization
* `WireType.format`: the format of the type, with its violations

## Main results

* `WireType.deserialize_eq`: the deserialization is that of the format
* `WireType.format_lawful`: the format is lawful, cut short with no violation
* `WireType.selfDelimiting`, `WireType.decodeExact_result`, `WireType.decodeExact_ok`: strict
  decoding
  of a wire type
-/

namespace Meshwarden.Proto

open Codec

variable {α β : Type}

/-- Descriptions of wire types. Bounds are `usize` values; a struct is presented by the tuple of its
fields, and a text by the spelling that it is displayed in and parsed from. -/
inductive WireType : Type → Type 1
  | u8 : WireType UInt8
  | u16 : WireType UInt16
  | u64 : WireType UInt64
  | boundedBytes (N : ℕ) (bound : N ≤ usizeMax) : WireType (BoundedBytes N)
  | boundedVec {α : Type} (N : ℕ) (bound : N ≤ usizeMax) (item : WireType α) :
    WireType (BoundedVec α N)
  | text {α : Type} (t : TextForm α) : WireType α
  | nil : WireType Unit
  | field {α β : Type} (first : WireType α) (rest : WireType β) : WireType (α × β)
  | struct {α β : Type} (e : α ≃ β) (fields : WireType β) : WireType α

namespace WireType

/-! ## The derived code -/

/-- The serialization of a value, which has no way to fail on these types. -/
def serialize : {α : Type} → WireType α → α → Bytes
  | _, .u8, x => [x]
  | _, .u16, x => Leb128.encode x.toNat
  | _, .u64, x => Leb128.encode x.toNat
  | _, .boundedBytes _ _, x => writeBytes x.bytes
  | _, .boundedVec _ _ item, x => writeSeq item.serialize x.items
  | _, .text t, x => writeBytes (utf8 (t.display x))
  | _, .nil, _ => []
  | _, .field first rest, x => first.serialize x.1 ++ rest.serialize x.2
  | _, .struct e fields, x => fields.serialize (e x)

/-- `T::deserialize`. -/
def deserialize : {α : Type} → WireType α → De α
  | _, .u8 => Postcard.deserializeU8
  | _, .u16 => Postcard.deserializeU16
  | _, .u64 => Postcard.deserializeU64
  | _, .boundedBytes _ _ => BoundedBytes.deserialize
  | _, .boundedVec _ _ item => BoundedVec.deserialize item.deserialize
  | _, .text t => Postcard.deserializeStr fun s =>
    match t.parse s with
    | none => De.fail
    | some a => pure a
  | _, .nil => pure ()
  | _, .field first rest => do
    let a ← first.deserialize
    let b ← rest.deserialize
    pure (a, b)
  | _, .struct e fields => do
    let b ← fields.deserialize
    pure (e.symm b)

/-- `postcard::to_allocvec`, whatever its error is mapped to. -/
def toAllocvec {ε : Type} (w : WireType α) (x : α) : Except ε Bytes := .ok (w.serialize x)

/-! ## Sizes -/

/-- The length of the longest serialization. -/
def maxLength : {α : Type} → WireType α → ℕ
  | _, .u8 => 1
  | _, .u16 => Leb128.maxGroups 16
  | _, .u64 => Leb128.maxGroups 64
  | _, .boundedBytes N _ => (Leb128.encode N).length + N
  | _, .boundedVec N _ item => (Leb128.encode N).length + N * item.maxLength
  | _, .text t => (Leb128.encode t.maxLength).length + t.maxLength
  | _, .nil => 0
  | _, .field first rest => first.maxLength + rest.maxLength
  | _, .struct _ fields => fields.maxLength

theorem length_serialize_le (w : WireType α) (x : α) : (w.serialize x).length ≤ w.maxLength := by
  induction w with
  | u8 => exact le_rfl
  | u16 => exact Leb128.length_encode_le_maxGroups (by decide) x.toNat_lt
  | u64 => exact Leb128.length_encode_le_maxGroups (by decide) x.toNat_lt
  | boundedBytes N bound => exact length_writeBytes_le x.bounded
  | boundedVec N bound item ih => exact length_writeSeq_le x.bounded ih
  | text t => exact length_writeBytes_le (t.display_le x)
  | nil => exact le_rfl
  | field first rest ih₁ ih₂ =>
    rw [serialize, List.length_append]
    exact Nat.add_le_add (ih₁ x.1) (ih₂ x.2)
  | struct e fields ih => exact ih (e x)

/-! ## The format of a wire type -/

/-- The format of a wire type, with the violation that a reading stops at. -/
def format : {α : Type} → WireType α → Format (Option Violation) α
  | _, .u8 => Format.byte none
  | _, .u16 => Format.varint none 16 UInt16.toNat UInt16.ofNat
  | _, .u64 => Format.varint none 64 UInt64.toNat UInt64.ofNat
  | _, .boundedBytes N _ => BoundedBytes.format N
  | _, .boundedVec N _ item => BoundedVec.format N item.format
  | _, .text t => Format.text none t
  | _, .nil => Format.unit
  | _, .field first rest => first.format.pair rest.format
  | _, .struct e fields => Format.imap e fields.format

theorem format_write (w : WireType α) : w.format.write = w.serialize := by
  induction w with
  | u8 | u16 | u64 | boundedBytes N bound | text t | nil => rfl
  | boundedVec N bound item ih =>
    funext x
    exact congrArg (fun write => writeSeq write x.items) ih
  | field first rest ih₁ ih₂ =>
    funext x
    exact congrArg₂ (· ++ ·) (congrFun ih₁ x.1) (congrFun ih₂ x.2)
  | struct e fields ih =>
    funext x
    exact congrFun ih (e x)

theorem lt_of_le_usizeMax {N : ℕ} (h : N ≤ usizeMax) : N < 2 ^ lengthBits :=
  Nat.lt_of_le_of_lt h (by decide)

/-- **The format of a wire type is lawful**, and a writing that is cut short is never a bound
violation. -/
theorem format_lawful (w : WireType α) : w.format.Lawful none := by
  induction w with
  | u8 => exact Format.Lawful.byte none
  | u16 =>
    exact Format.Lawful.varint none (by decide) (fun x => x.toNat_lt) fun x => UInt16.ofNat_toNat
  | u64 =>
    exact Format.Lawful.varint none (by decide) (fun x => x.toNat_lt) fun x => UInt64.ofNat_toNat
  | boundedBytes N bound =>
    exact (Format.Lawful.bytesUpTo none _ (lt_of_le_usizeMax bound)).imap _
  | boundedVec N bound item ih =>
    exact (Format.Lawful.seqUpTo _ (lt_of_le_usizeMax bound) ih).imap _
  | text t => exact Format.Lawful.text none t
  | nil => exact Format.Lawful.unit none
  | field first rest ih₁ ih₂ => exact ih₁.pair ih₂
  | struct e fields ih => exact ih.imap e

/-! ## Deserialization reads the format -/

theorem ofReading_varint (bits : ℕ) (toNat : α → ℕ) (ofNat : ℕ → α) :
    (do let n ← Postcard.tryTakeVarint bits; pure (ofNat n)) =
      De.ofReading (Format.varint (none : Option Violation) bits toNat ofNat).read := by
  funext b tl
  simp only [Postcard.tryTakeVarint_eq, De.bind_apply, De.ofReading, Format.varint]
  rcases Leb128.read (none : Option Violation) bits b with (_ | v) | ⟨n, r⟩ <;> rfl

theorem ofReading_text (t : TextForm α) :
    (text t).deserialize = De.ofReading (Format.text (none : Option Violation) t).read := by
  funext b tl
  rw [deserialize, Postcard.deserializeStr_apply]
  simp only [De.ofReading, Format.text]
  rcases hr : readBytes (none : Option Violation) b with e | ⟨l, s⟩
  · obtain rfl := readBytes_error hr
    rfl
  · rcases hl : fromUtf8 l with _ | text
    · simp only [hl, Option.bind_none]
    · rcases ht : t.parse text with _ | a <;>
        simp only [hl, ht, Option.bind_some, De.fail_apply, De.pure_apply]

theorem ofReading_pair (f : Format (Option Violation) α) (g : Format (Option Violation) β) :
    (do let a ← De.ofReading f.read; let b ← De.ofReading g.read; pure (a, b)) =
      De.ofReading (f.pair g).read := by
  funext b tl
  simp only [De.bind_apply, De.ofReading, Format.pair]
  rcases f.read b with (_ | v) | ⟨a, r⟩
  · rfl
  · rfl
  · simp only
    rcases g.read r with (_ | v) | ⟨c, s⟩ <;> rfl

theorem ofReading_imap (e : α ≃ β) (f : Format (Option Violation) β) :
    (do let b ← De.ofReading f.read; pure (e.symm b)) = De.ofReading (Format.imap e f).read := by
  funext b tl
  simp only [De.bind_apply, De.ofReading, Format.imap]
  rcases f.read b with (_ | v) | ⟨a, r⟩ <;> rfl

/-- **The deserialization of a wire type is that of its format**: it takes what the format takes,
and records the violation that the format stops at, if it stops at one. -/
theorem deserialize_eq (w : WireType α) : w.deserialize = De.ofReading w.format.read := by
  induction w with
  | u8 =>
    funext b tl
    rcases b with _ | ⟨x, b⟩ <;> rfl
  | u16 => exact ofReading_varint 16 UInt16.toNat UInt16.ofNat
  | u64 => exact ofReading_varint 64 UInt64.toNat UInt64.ofNat
  | boundedBytes N bound => exact BoundedBytes.deserialize_eq
  | boundedVec N bound item ih =>
    rw [deserialize, ih]
    exact BoundedVec.deserialize_eq item.format
  | text t => exact ofReading_text t
  | nil => rfl
  | field first rest ih₁ ih₂ =>
    rw [deserialize, ih₁, ih₂]
    exact ofReading_pair first.format rest.format
  | struct e fields ih =>
    rw [deserialize, ih]
    exact ofReading_imap e fields.format

/-! ## Strict decoding of a wire type -/

section Strict

variable (w : WireType α)

theorem read_serialize (a : α) (s : Bytes) : w.format.read (w.serialize a ++ s) = .ok (a, s) := by
  rw [← format_write]
  exact w.format_lawful.read_write a s

theorem read_cutShort {a : α} {p : Bytes} (hp : CutShort p (w.serialize a)) :
    w.format.read p = .error none := by
  rw [← format_write] at hp
  exact w.format_lawful.read_cutShort a p hp

theorem selfDelimiting : SelfDelimiting w.serialize := by
  rw [← format_write]
  exact w.format_lawful.selfDelimiting

/-- The result of strict decoding, with no violation in the way. -/
theorem decodeExact_result (b : Bytes) {tl : ThreadLocals} (h : tl.Clear) :
    (decodeExact w.deserialize b tl).1 = outcome (w.format.read b) := by
  rw [deserialize_eq, decodeExact_ofReading_result w.format.read b h]

/-- Success of strict decoding, anywhere. -/
theorem decodeExact_ok (b : Bytes) (tl : ThreadLocals) {a : α} :
    (decodeExact w.deserialize b tl).1 = .ok a ↔ w.format.read b = .ok (a, []) := by
  rw [deserialize_eq, decodeExact_ofReading_ok]

theorem decodeExact_serialize (a : α) (tl : ThreadLocals) :
    (decodeExact w.deserialize (w.serialize a) tl).1 = .ok a := by
  have hr := w.read_serialize a []
  rw [List.append_nil] at hr
  exact (w.decodeExact_ok _ tl).mpr hr

end Strict

end WireType

end Meshwarden.Proto
