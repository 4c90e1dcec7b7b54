import Meshwarden.Codec.Base32
import Meshwarden.Codec.Grammar
import Meshwarden.Proto.WireType

/-!
# Node identities

A node identity is the first half of the SHA-256 digest of a public key, spelled `mw:node:` and the
base32 form of its bytes. Its text is also its wire form.

## Main definitions

* `CertificateWireField`, `Error`: the errors of identities and certificates
* `NodeId`, `NodeId.fromPublicKeyBytes`, `NodeId.display`, `NodeId.fromStr`
* `NodeId.textForm`: identities as texts on the wire

## Main results

* `NodeId.fromStr_display`, `NodeId.display_fromStr`: the text form is one-to-one
* `NodeId.length_display`: its length
* `NodeId.exists_display_iff`: which strings are texts of identities
* `NodeId.text_bijective`: texts and identities correspond, also on the wire
-/

namespace Meshwarden.Identity

open Codec Crypto Proto

/-! ## Errors -/

/-- The certificate fields that an encode-time bound violation can name. -/
inductive CertificateWireField
  | publicKey
  | signature
  deriving DecidableEq, Repr

inductive Error
  | notYetValid (validFrom now : UInt64)
  | expired (validUntil now : UInt64)
  | badSignature (e : Crypto.Error)
  | subjectKeyMismatch
  | issuerKeyMismatch
  | lifetimeExceedsMaximum (validFrom validUntil : UInt64)
  | tooManyCapabilities (count max : ℕ)
  | fieldBoundExceeded (field : CertificateWireField) (len max : ℕ)
  | malformedSubjectPublicKey (e : Crypto.Error)
  | malformedNodeId (input : String)
  | signing (e : Crypto.Error)
  | wire (e : Proto.Error)
  | wireTooLarge (len max : ℕ)
  | nonCanonicalEncoding
  | unknownAlgorithm (e : UnknownAlgorithmCode)
  deriving DecidableEq, Repr

/-! ## Identities -/

/-- The scheme every identity text starts with. -/
def nodeIdScheme : String := "mw:node:"

/-- How many bytes of the digest an identity keeps. -/
def nodeIdPrefixLen : ℕ := 16

/-- The length of the base32 part of an identity text. -/
def nodeIdEncodedLen : ℕ := 26

/-- A node identity. -/
structure NodeId where
  prefixBytes : Octets nodeIdPrefixLen
  deriving DecidableEq

namespace NodeId

/-- The identity of a public key. -/
def fromPublicKeyBytes (P : Primitives) (publicKeyBytes : Bytes) : NodeId :=
  ⟨⟨(Crypto.sha256 P publicKeyBytes).bytes.take nodeIdPrefixLen, by
    rw [Crypto.sha256, List.length_take, (P.sha256 publicKeyBytes).2]
    rfl⟩⟩

/-- The text of an identity. -/
def display (id : NodeId) : String := nodeIdScheme ++ Base32.encode id.prefixBytes.1

/-- Parses the text of an identity. Trailing bits that are not zero are also refused by the final
comparison, whatever the decoder does with them. -/
def fromStr (s : String) : Except Error NodeId :=
  match (utf8 s).dropPrefix? (utf8 nodeIdScheme) with
  | none => .error (.malformedNodeId s)
  | some encoded =>
    if encoded.length ≠ nodeIdEncodedLen then .error (.malformedNodeId s)
    else
      match Base32.decode encoded with
      | none => .error (.malformedNodeId s)
      | some decoded =>
        if h : decoded.length = nodeIdPrefixLen then
          if utf8 (Base32.encode decoded) ≠ encoded then .error (.malformedNodeId s)
          else .ok ⟨⟨decoded, h⟩⟩
        else .error (.malformedNodeId s)

/-! ## The text form -/

theorem utf8_display (id : NodeId) :
    utf8 id.display = utf8 nodeIdScheme ++ utf8 (Base32.encode id.prefixBytes.1) :=
  utf8_append _ _

theorem length_encode (id : NodeId) :
    (utf8 (Base32.encode id.prefixBytes.1)).length = nodeIdEncodedLen := by
  rw [Base32.length_utf8_encode, id.prefixBytes.2]
  rfl

/-- **An identity text has 34 bytes.** -/
theorem length_display (id : NodeId) : (utf8 id.display).length = 34 := by
  rw [utf8_display, List.length_append, length_encode]
  rfl

theorem fromStr_display (id : NodeId) : fromStr id.display = .ok id := by
  have hdrop : (utf8 id.display).dropPrefix? (utf8 nodeIdScheme) =
      some (utf8 (Base32.encode id.prefixBytes.1)) := by
    rw [utf8_display]
    exact List.dropPrefix?_append_of_beq _ (beq_self_eq_true _)
  rw [fromStr, hdrop]
  simp only [length_encode, Base32.decode_encode, id.prefixBytes.2, ne_eq, not_true_eq_false,
    if_false, dite_true]

/-- An accepted text is the text of its identity: no two texts are parsed to one identity. -/
theorem display_fromStr {s : String} {id : NodeId} (h : fromStr s = .ok id) : id.display = s := by
  rw [fromStr] at h
  split at h
  · cases h
  · rename_i encoded hdrop
    split_ifs at h with hlen
    split at h
    · cases h
    · rename_i decoded hdec
      split_ifs at h with hpre hsame
      obtain rfl := Except.ok.inj h
      -- the scheme was dropped, and the rest is compared with the encoding
      obtain ⟨p, hs, hp⟩ := List.dropPrefix?_eq_some_iff.mp hdrop
      apply utf8_injective
      rw [utf8_display, hs, eq_of_beq hp]
      exact congrArg _ (not_not.mp hsame)

/-- Identities as texts on the wire. -/
def textForm : TextForm NodeId where
  display := display
  parse s := (fromStr s).toOption
  parse_display id := by rw [fromStr_display]; rfl
  display_parse {s id} h := by
    rcases hs : fromStr s with e | id'
    · rw [hs] at h
      cases h
    · rw [hs] at h
      obtain rfl := Option.some.inj h
      exact display_fromStr hs
  maxLength := 34
  display_le id := (length_display id).le
  maxLength_lt := by decide

/-- The string form of an identity on the wire. -/
def wire : WireType NodeId := .text textForm

/-! ## Which strings are texts -/

theorem ascii_scheme : ∀ x ∈ utf8 nodeIdScheme, x.toNat < 128 := by
  have hscheme : utf8 nodeIdScheme = [0x6d, 0x77, 0x3a, 0x6e, 0x6f, 0x64, 0x65, 0x3a] := rfl
  rw [hscheme]
  simp

theorem ascii_display (id : NodeId) {x : UInt8} (hx : x ∈ utf8 id.display) : x.toNat < 128 := by
  rw [utf8_display, Base32.utf8_encode] at hx
  rcases List.mem_append.mp hx with hx | hx
  · exact ascii_scheme x hx
  · exact Base32.ascii_symbols hx

/-- **The texts of identities**: the scheme, then 26 symbols, the last of which is a multiple of
four. -/
theorem exists_display_iff {s : String} :
    (∃ id : NodeId, id.display = s) ↔
      ∃ l last, l.length = 25 ∧ (∀ n ∈ l ++ [last], n < 32) ∧ last % 4 = 0 ∧
        s = nodeIdScheme ++ ascii ((l ++ [last]).map Base32.symbol) := by
  constructor
  · rintro ⟨id, rfl⟩
    -- the last of the values that the bytes are cut into
    have hlen : (quintets (bitsOfBytes id.prefixBytes.1)).length = 26 := by
      rw [length_quintets, length_bitsOfBytes, id.prefixBytes.2]
      rfl
    have hne : quintets (bitsOfBytes id.prefixBytes.1) ≠ [] := List.ne_nil_of_length_eq_add_one hlen
    have hsplit := List.dropLast_append_getLast hne
    have hlast : (quintets (bitsOfBytes id.prefixBytes.1)).dropLast.length = 25 := by
      rw [List.length_dropLast, hlen]
    have hlt : ∀ n ∈ quintets (bitsOfBytes id.prefixBytes.1), n < 32 := fun n hn => quintets_lt hn
    rw [← hsplit] at hlt
    refine ⟨_, _, hlast, hlt, ?_, ?_⟩
    · refine (Base32.exists_decode_iff (r := 2) hlt (by rw [hlast]) (by decide)).mp
        ⟨id.prefixBytes.1, ?_⟩
      rw [hsplit, ← Base32.decode_encode id.prefixBytes.1, Base32.utf8_encode, Base32.symbols]
    · rw [hsplit]
      rfl
  · rintro ⟨l, last, hl, hlt, hlast, rfl⟩
    obtain ⟨b, hb⟩ := (Base32.exists_decode_iff (r := 2) hlt (by rw [hl]) (by decide)).mpr hlast
    have henc := Base32.decode_eq_some_iff.mp hb
    have hlen : b.length = nodeIdPrefixLen := by
      have h := congrArg List.length henc
      rw [Base32.length_utf8_encode, List.length_map, List.length_append, hl,
        List.length_singleton] at h
      rw [nodeIdPrefixLen]
      omega
    refine ⟨⟨⟨b, hlen⟩⟩, ?_⟩
    rw [display, Base32.encode, ← Base32.utf8_encode, henc]

/-- **Texts and identities correspond.** A text is 34 ASCII bytes behind the scheme and is parsed to
its identity, also as a string on the wire; a string is parsed to no identity but the one it is the
text of; and the strings that are parsed are the scheme followed by 26 symbols, the last of which
has its two low bits zero. On the wire the text is all there is behind its length. -/
theorem text_bijective :
    (∀ id : NodeId,
        (utf8 id.display).length = 34 ∧ (∀ x ∈ utf8 id.display, x.toNat < 128) ∧
          utf8 "mw:node:" <+: utf8 id.display ∧ fromStr id.display = .ok id ∧
          ∀ tl, (decodeExact wire.deserialize (wire.serialize id) tl).1 = .ok id) ∧
      (∀ s id, fromStr s = .ok id → id.display = s) ∧
      (∀ s, (∃ id, fromStr s = .ok id) ↔
        ∃ l last, l.length = 25 ∧ (∀ n ∈ l ++ [last], n < 32) ∧ last % 4 = 0 ∧
          s = "mw:node:" ++ ascii ((l ++ [last]).map Base32.symbol)) ∧
      ∀ b tl id, (decodeExact wire.deserialize b tl).1 = .ok id →
        ∃ c, b = c ++ utf8 id.display ∧ Leb128.Groups c 34 := by
  refine ⟨fun id => ⟨length_display id, fun x => ascii_display id, ?_, fromStr_display id,
    wire.decodeExact_serialize id⟩, fun s id => display_fromStr, fun s => ?_, ?_⟩
  · rw [utf8_display]
    exact List.prefix_append _ _
  · refine Iff.trans ?_ exists_display_iff
    constructor
    · rintro ⟨id, h⟩
      exact ⟨id, display_fromStr h⟩
    · rintro ⟨id, rfl⟩
      exact ⟨id, fromStr_display id⟩
  · intro b tl id h
    obtain ⟨c, hb, hg, -, -⟩ :=
      (Format.Follows.text none textForm).ok_iff.mp ((wire.decodeExact_ok b tl).mp h)
    rw [show utf8 (textForm.display id) = utf8 id.display from rfl, length_display] at hg
    refine ⟨c, ?_, hg⟩
    rw [hb, List.append_nil]
    rfl

end NodeId

end Meshwarden.Identity
