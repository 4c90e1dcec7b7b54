import Meshwarden.Codec.Growth
import Meshwarden.Codec.Metered
import Meshwarden.Proto.Messages

/-!
# Deserialization with a meter

What the deserialization of a wire type allocates: a byte string is copied once it is within its
bound, a sequence starts out with nothing and grows as the elements are pushed, and a text may be
copied while it is parsed. The deserializations are those of the wire types with a meter at each of
these places. What counts is capacity, with the room that a growing vector keeps beyond what it
holds; where it grows, the difference counts. How large an element is in memory, and what the parser
and the display of a text allocate, is up to the target, and a parameter here.

## Main definitions

* `MeteredDe α`: a deserialization of `α` that counts the bytes it allocates
* `Layout`: what is up to the target
* `BoundedBytes.deserializeMetered`, `BoundedVec.deserializeMetered`, `WireType.deserializeMetered`
* `WireType.writes`: the pieces in which a value is written; `WireType.reencoding`: what that takes
* `fromBytesWithMetered`: a strict decoder, with its re-encoding

## Main results

* `WireType.unmetered_deserializeMetered`: without the meter, it is the deserialization
* `WireType.writes_sum`: the pieces make up the serialization
* `fromBytesWithMetered_fst`: without the meter, a strict decoder
-/

namespace Meshwarden.Proto

open Codec

variable {α β σ : Type} {N : ℕ}

/-! ## Metered deserialization -/

/-- A deserialization that counts the bytes it allocates. -/
abbrev MeteredDe (α : Type) := Metered ThreadLocals α

namespace MeteredDe

/-- The deserialization, without its meter. -/
def unmetered (x : MeteredDe α) : De α := Metered.unmetered x

theorem unmetered_free (x : De α) : unmetered (Metered.free x) = x := rfl

theorem unmetered_pure (a : α) : unmetered (pure a) = pure a := rfl

theorem unmetered_bind (x : MeteredDe α) (f : α → MeteredDe β) :
    unmetered (x >>= f) = unmetered x >>= fun a => unmetered (f a) := by
  funext b tl
  rcases hx : x b tl with ⟨⟨_ | ⟨a, r⟩, tl'⟩, n⟩
  · have hu : unmetered x b tl = (none, tl') := congrArg Prod.fst hx
    rw [De.bind_none hu, unmetered, Metered.unmetered, Metered.bind_of_none hx]
  · have hu : unmetered x b tl = (some (a, r), tl') := congrArg Prod.fst hx
    rw [De.bind_some hu, unmetered, Metered.unmetered, Metered.bind_of_some hx]
    rfl

theorem unmetered_charge (n : ℕ) (f : Unit → MeteredDe α) :
    unmetered (Metered.charge n >>= f) = unmetered (f ()) :=
  unmetered_bind _ _

end MeteredDe

/-- Access to the elements of a sequence, with a meter. -/
structure MeteredSeqAccess (σ α : Type) where
  sizeHint : σ → Option ℕ
  nextElement : σ → MeteredDe (Option α × σ)

/-- The access, without its meter. -/
def MeteredSeqAccess.unmetered (seq : MeteredSeqAccess σ α) : SeqAccess σ α where
  sizeHint := seq.sizeHint
  nextElement s := MeteredDe.unmetered (seq.nextElement s)

namespace Postcard

def deserializeBytesMetered (visitBytes : Bytes → MeteredDe α) : MeteredDe α := do
  let sz ← Metered.free (tryTakeVarint lengthBits)
  let bytes ← Metered.free (OpaqueLenSlice.tryTakeN sz)
  visitBytes bytes

def deserializeStrMetered (visitStr : String → MeteredDe α) : MeteredDe α := do
  let sz ← Metered.free (tryTakeVarint lengthBits)
  let bytes ← Metered.free (OpaqueLenSlice.tryTakeN sz)
  match fromUtf8 bytes with
  | none => Metered.free De.fail
  | some s => visitStr s

def seqAccessMetered (flavorSizeHint : Option ℕ) (item : MeteredDe α) : MeteredSeqAccess ℕ α where
  sizeHint len :=
    match flavorSizeHint with
    | some size => if size < len then none else some len
    | none => some len
  nextElement
    | 0 => pure (none, 0)
    | len + 1 => do
      let a ← item
      pure (some a, len)

def deserializeSeqMetered (item : MeteredDe α) (visitSeq : MeteredSeqAccess ℕ α → ℕ → MeteredDe β) :
    MeteredDe β := do
  let len ← Metered.free (tryTakeVarint lengthBits)
  visitSeq (seqAccessMetered OpaqueLenSlice.sizeHint item) len

end Postcard

namespace BoundedBytes

/-- The copy of the borrowed bytes is the one allocation. -/
def visitBytesMetered (v : Bytes) : MeteredDe (BoundedBytes N) :=
  if h : v.length ≤ N then do
    Metered.charge v.length
    pure ⟨v, h⟩
  else do
    Metered.free (De.record v.length N)
    Metered.free De.fail

def deserializeMetered : MeteredDe (BoundedBytes N) :=
  Postcard.deserializeBytesMetered visitBytesMetered

end BoundedBytes

namespace BoundedVec

theorem length_le_of_full (items : {items : List α // items.length + 0 = N}) :
    items.1.length ≤ N := items.2.le

theorem length_le_of_room {room : ℕ} (items : {items : List α // items.length + (room + 1) = N}) :
    items.1.length ≤ N := (Nat.le_add_right _ _).trans items.2.le

theorem length_push {room : ℕ} (items : {items : List α // items.length + (room + 1) = N})
    (item : α) : (items.1 ++ [item]).length + room = N := by
  rw [List.length_append, List.length_singleton, Nat.add_assoc, Nat.add_comm 1]
  exact items.2

theorem length_new (α : Type) (N : ℕ) : ([] : List α).length + N = N := Nat.zero_add N

/-- The least capacity of a vector, by the size of its elements. -/
def minNonZeroCap (size : ℕ) : ℕ := if size = 1 then 8 else if size ≤ 1024 then 4 else 1

/-- What a vector takes that was empty, and to which `n` elements were pushed. -/
def pushedBytes (size n : ℕ) : ℕ := size * Growable.roomFor (minNonZeroCap size) n

/-- Each `push` makes the vector grow, where it has no room left. -/
def visitSeqLoopMetered (size : ℕ) (seq : MeteredSeqAccess σ α) :
    (room : ℕ) → {items : List α // items.length + room = N} → σ → MeteredDe (BoundedVec α N)
  | 0, items, s => do
    match ← seq.nextElement s with
    | (none, _) => pure ⟨items.1, length_le_of_full items⟩
    | (some _, _) =>
      Metered.free (De.record (saturatingAdd items.1.length 1) N)
      Metered.free De.fail
  | room + 1, items, s => do
    match ← seq.nextElement s with
    | (none, _) => pure ⟨items.1, length_le_of_room items⟩
    | (some item, s) =>
      Metered.charge (pushedBytes size (items.1.length + 1) - pushedBytes size items.1.length)
      visitSeqLoopMetered size seq room ⟨items.1 ++ [item], length_push items item⟩ s

/-- A sequence starts out empty, with nothing reserved. -/
def visitSeqMetered (size : ℕ) (seq : MeteredSeqAccess σ α) (s : σ) : MeteredDe (BoundedVec α N) :=
  match seq.sizeHint s with
  | some declared =>
    if declared > N then do
      Metered.free (De.record declared N)
      Metered.free De.fail
    else visitSeqLoopMetered size seq N ⟨[], length_new α N⟩ s
  | none => visitSeqLoopMetered size seq N ⟨[], length_new α N⟩ s

def deserializeMetered (size : ℕ) (item : MeteredDe α) : MeteredDe (BoundedVec α N) :=
  Postcard.deserializeSeqMetered item (visitSeqMetered size)

end BoundedVec

/-! ## What is up to the target -/

/-- The bytes of every serialization that stand for no content of a byte string or text. -/
def WireType.headers : {α : Type} → WireType α → ℕ
  | _, .u8 => 1
  | _, .u16 => 1
  | _, .u64 => 1
  | _, .boundedBytes _ _ => 1
  | _, .boundedVec _ _ _ => 1
  | _, .text _ => 1
  | _, .nil => 0
  | _, .field first rest => first.headers + rest.headers
  | _, .struct _ fields => fields.headers

/-- The sizes of types in memory, and what the texts of a development take: a type that takes no
room on the wire takes none in memory, and what parsing and displaying a text allocates is paid for
by its bytes and its length. -/
structure Layout where
  size : {α : Type} → WireType α → ℕ
  size_eq_zero : ∀ {α : Type} {w : WireType α}, w.headers = 0 → size w = 0
  /-- What the parser of a text allocates. -/
  parse : {α : Type} → TextForm α → String → ℕ
  parseRate : ℕ
  parse_le : ∀ {α : Type} (t : TextForm α) (s : String),
    parse t s ≤ parseRate * (1 + (utf8 s).length)
  /-- What displaying a value allocates, and the lengths of the pieces in which it is written. -/
  display : {α : Type} → TextForm α → α → ℕ
  displayRate : ℕ
  display_le : ∀ {α : Type} (t : TextForm α) (a : α),
    display t a ≤ displayRate * (1 + (utf8 (t.display a)).length)
  pieces : {α : Type} → TextForm α → α → List ℕ
  pieces_sum : ∀ {α : Type} (t : TextForm α) (a : α),
    (pieces t a).sum = (utf8 (t.display a)).length

namespace WireType

variable (L : Layout)

/-- `T::deserialize`, with its allocations counted. -/
def deserializeMetered : {α : Type} → WireType α → MeteredDe α
  | _, .u8 => Metered.free Postcard.deserializeU8
  | _, .u16 => Metered.free Postcard.deserializeU16
  | _, .u64 => Metered.free Postcard.deserializeU64
  | _, .boundedBytes _ _ => BoundedBytes.deserializeMetered
  | _, .boundedVec _ _ item => BoundedVec.deserializeMetered (L.size item) item.deserializeMetered
  | _, .text t => Postcard.deserializeStrMetered fun s => do
    Metered.charge (L.parse t s)
    match t.parse s with
    | none => Metered.free De.fail
    | some a => pure a
  | _, .nil => pure ()
  | _, .field first rest => do
    let a ← first.deserializeMetered
    let b ← rest.deserializeMetered
    pure (a, b)
  | _, .struct e fields => do
    let b ← fields.deserializeMetered
    pure (e.symm b)

/-- The lengths of the pieces in which the serialization is written: numbers, and lengths in front
of what they are the lengths of, are pieces of their own. -/
def writes : {α : Type} → WireType α → α → List ℕ
  | _, .u8, _ => [1]
  | _, .u16, x => [(Leb128.encode x.toNat).length]
  | _, .u64, x => [(Leb128.encode x.toNat).length]
  | _, .boundedBytes _ _, x => [(Leb128.encode x.bytes.length).length, x.bytes.length]
  | _, .boundedVec _ _ item, x =>
    (Leb128.encode x.items.length).length :: x.items.flatMap item.writes
  | _, .text t, x => (Leb128.encode (utf8 (t.display x)).length).length :: L.pieces t x
  | _, .nil, _ => []
  | _, .field first rest, x => first.writes x.1 ++ rest.writes x.2
  | _, .struct e fields, x => fields.writes (e x)

/-- What displaying the texts of a value allocates. -/
def displayed : {α : Type} → WireType α → α → ℕ
  | _, .boundedVec _ _ item, x => (x.items.map item.displayed).sum
  | _, .text t, x => L.display t x
  | _, .field first rest, x => first.displayed x.1 + rest.displayed x.2
  | _, .struct e fields, x => fields.displayed (e x)
  | _, _, _ => 0

/-- What `postcard::to_allocvec` allocates: the vector of bytes that is written to, and what the
texts are displayed in. -/
def reencoding (w : WireType α) (x : α) : ℕ :=
  Growable.extend (BoundedVec.minNonZeroCap 1) 0 0 (w.writes L x) + w.displayed L x

/-- The pieces make up the serialization. -/
theorem writes_sum (w : WireType α) (x : α) : (w.writes L x).sum = (w.serialize x).length := by
  induction w with
  | u8 => rfl
  | u16 | u64 => exact List.sum_singleton
  | boundedBytes N bound =>
    simp only [writes, serialize, writeBytes, List.sum_cons, List.sum_nil, List.length_append,
      Nat.add_zero]
  | boundedVec N bound item ih =>
    have hitems : (x.items.flatMap (item.writes L)).sum =
        (writeMany item.serialize x.items).length := by
      induction x.items with
      | nil => rfl
      | cons a items ihItems =>
        rw [List.flatMap_cons, List.sum_append, ih a, ihItems, writeMany, writeMany,
          List.flatMap_cons, List.length_append]
    rw [writes, List.sum_cons, hitems, serialize, writeSeq, List.length_append]
  | text t => rw [writes, List.sum_cons, L.pieces_sum, serialize, writeBytes, List.length_append]
  | nil => rfl
  | field first rest ih₁ ih₂ =>
    rw [writes, List.sum_append, ih₁, ih₂, serialize, List.length_append]
  | struct e fields ih => exact ih (e x)

end WireType

/-! ## The meter changes nothing -/

theorem Postcard.unmetered_deserializeBytes {visit : Bytes → MeteredDe α} {visit' : Bytes → De α}
    (h : ∀ v, MeteredDe.unmetered (visit v) = visit' v) :
    MeteredDe.unmetered (deserializeBytesMetered visit) = deserializeBytes visit' := by
  simp only [deserializeBytesMetered, deserializeBytes, MeteredDe.unmetered_bind,
    MeteredDe.unmetered_free, h]

theorem Postcard.unmetered_deserializeStr {visit : String → MeteredDe α} {visit' : String → De α}
    (h : ∀ s, MeteredDe.unmetered (visit s) = visit' s) :
    MeteredDe.unmetered (deserializeStrMetered visit) = deserializeStr visit' := by
  rw [deserializeStrMetered, deserializeStr]
  simp only [MeteredDe.unmetered_bind, MeteredDe.unmetered_free]
  congr 1
  funext sz
  congr 1
  funext bytes
  rcases fromUtf8 bytes with _ | s
  · rfl
  · exact h s

theorem Postcard.unmetered_seqAccess (hint : Option ℕ) (item : MeteredDe α) :
    (seqAccessMetered hint item).unmetered = seqAccess hint (MeteredDe.unmetered item) := by
  rw [MeteredSeqAccess.unmetered, seqAccess]
  congr 1
  funext len
  rcases len with _ | len
  · rfl
  · exact MeteredDe.unmetered_bind _ _

theorem BoundedBytes.unmetered_visitBytes (v : Bytes) :
    MeteredDe.unmetered (visitBytesMetered v : MeteredDe (BoundedBytes N)) = visitBytes v := by
  rw [visitBytesMetered, visitBytes]
  split_ifs with h
  · exact MeteredDe.unmetered_charge _ _
  · exact MeteredDe.unmetered_bind _ _

theorem BoundedVec.unmetered_visitSeqLoop (size : ℕ) (seq : MeteredSeqAccess σ α) (room : ℕ)
    (items : {items : List α // items.length + room = N}) (s : σ) :
    MeteredDe.unmetered (visitSeqLoopMetered size seq room items s) =
      visitSeqLoop seq.unmetered room items s := by
  -- induction on the room that is left
  induction room generalizing s with
  | zero =>
    rw [visitSeqLoopMetered, visitSeqLoop, MeteredDe.unmetered_bind]
    congr 1
    funext next
    rcases next with ⟨_ | a, s'⟩
    · rfl
    · exact MeteredDe.unmetered_bind _ _
  | succ room ih =>
    rw [visitSeqLoopMetered, visitSeqLoop, MeteredDe.unmetered_bind]
    congr 1
    funext next
    rcases next with ⟨_ | a, s'⟩
    · rfl
    · exact (MeteredDe.unmetered_charge _ _).trans (ih _ s')

theorem BoundedVec.unmetered_deserialize (size : ℕ) (item : MeteredDe α) :
    MeteredDe.unmetered (deserializeMetered size item : MeteredDe (BoundedVec α N)) =
      deserialize (MeteredDe.unmetered item) := by
  rw [deserializeMetered, deserialize, Postcard.deserializeSeqMetered, Postcard.deserializeSeq,
    MeteredDe.unmetered_bind]
  congr 1
  funext len
  rw [← Postcard.unmetered_seqAccess, visitSeqMetered, visitSeq]
  simp only [MeteredSeqAccess.unmetered, Postcard.seqAccessMetered, OpaqueLenSlice.sizeHint]
  split_ifs with h
  · exact MeteredDe.unmetered_bind _ _
  · exact unmetered_visitSeqLoop size _ N _ len

namespace WireType

variable (L : Layout)

/-- **Without the meter, the metered deserialization is the deserialization.** -/
theorem unmetered_deserializeMetered (w : WireType α) :
    MeteredDe.unmetered (w.deserializeMetered L) = w.deserialize := by
  induction w with
  | u8 | u16 | u64 | nil => rfl
  | boundedBytes N bound =>
    exact Postcard.unmetered_deserializeBytes BoundedBytes.unmetered_visitBytes
  | boundedVec N bound item ih =>
    rw [deserializeMetered, deserialize, BoundedVec.unmetered_deserialize, ih]
  | text t =>
    rw [deserializeMetered, deserialize]
    apply Postcard.unmetered_deserializeStr
    intro s
    rw [MeteredDe.unmetered_charge]
    rcases t.parse s with _ | a <;> rfl
  | field first rest ih₁ ih₂ =>
    simp only [deserializeMetered, deserialize, MeteredDe.unmetered_bind, MeteredDe.unmetered_pure,
      ih₁, ih₂]
  | struct e fields ih =>
    simp only [deserializeMetered, deserialize, MeteredDe.unmetered_bind, MeteredDe.unmetered_pure,
      ih]

end WireType

/-! ## Strict decoding -/

/-- Strict decoding allocates nothing of its own. -/
def decodeExactMetered (deserialize : MeteredDe α) (bytes : Bytes) (tl : ThreadLocals) :
    (Except Error α × ThreadLocals) × ℕ :=
  (decodeExact (MeteredDe.unmetered deserialize) bytes tl,
    deserialize.spent bytes (ViolationScope.enter tl))

/-- Strict decoding, and the re-encoding of the value once there is one. -/
def decodeReencodedMetered (L : Layout) (w : WireType α) (bytes : Bytes) (tl : ThreadLocals) :
    (Except Error (α × Bytes) × ThreadLocals) × ℕ :=
  let ((decoded, tl), allocated) := decodeExactMetered (w.deserializeMetered L) bytes tl
  match decoded with
  | .error e => ((.error e, tl), allocated)
  | .ok value => ((.ok (value, w.serialize value), tl), allocated + w.reencoding L value)

/-- A strict decoder of messages. -/
def fromBytesWithMetered (L : Layout) (w : WireType α) (maxBytes : ℕ)
    (resolve : α → Except Error Unit) (bytes : Bytes) (tl : ThreadLocals) :
    (Except Error α × ThreadLocals) × ℕ :=
  if bytes.length > maxBytes then ((.error (.messageTooLarge bytes.length maxBytes), tl), 0)
  else
    let ((decoded, tl), allocated) := decodeReencodedMetered L w bytes tl
    ((do
      let (value, reencoded) ← decoded
      checkCanonical bytes reencoded
      resolve value
      pure value, tl), allocated)

section Decoders

variable (L : Layout)

theorem decodeExactMetered_fst (w : WireType α) (bytes : Bytes) (tl : ThreadLocals) :
    (decodeExactMetered (w.deserializeMetered L) bytes tl).1 =
      decodeExact w.deserialize bytes tl := by
  rw [decodeExactMetered, WireType.unmetered_deserializeMetered]

/-- Without the meter: strict decoding, and the serialization of what it decodes to. -/
theorem decodeReencodedMetered_fst (w : WireType α) (bytes : Bytes) (tl : ThreadLocals) :
    (decodeReencodedMetered L w bytes tl).1 =
      ((decodeExact w.deserialize bytes tl).1.map fun v => (v, w.serialize v),
        (decodeExact w.deserialize bytes tl).2) := by
  have hd := decodeExactMetered_fst L w bytes tl
  rw [decodeReencodedMetered, ← hd]
  rcases decodeExactMetered (w.deserializeMetered L) bytes tl with
    ⟨⟨e | value, tl'⟩, allocated⟩ <;> rfl

/-- **Without the meter, the metered decoder is the decoder.** -/
theorem fromBytesWithMetered_fst (w : WireType α) (maxBytes : ℕ)
    (resolve : α → Except Error Unit) (bytes : Bytes) (tl : ThreadLocals) :
    (fromBytesWithMetered L w maxBytes resolve bytes tl).1 =
      fromBytesWith w maxBytes resolve bytes tl := by
  have hd := decodeReencodedMetered_fst L w bytes tl
  rw [fromBytesWithMetered, fromBytesWith]
  split_ifs with hlen
  · rfl
  · simp only [hd]
    rcases decodeExact w.deserialize bytes tl with ⟨e | value, tl'⟩ <;> rfl

/-! ## The decoders of the messages -/

def Hello.fromBytesMetered : Bytes → ThreadLocals → (Except Error Hello × ThreadLocals) × ℕ :=
  decodeExactMetered (wire.deserializeMetered L)

def AuthInit.fromBytesMetered :
    Bytes → ThreadLocals → (Except Error AuthInit × ThreadLocals) × ℕ :=
  fromBytesWithMetered L wire maxAuthInitBytes fun _ => .ok ()

def AuthResponse.fromBytesMetered :
    Bytes → ThreadLocals → (Except Error AuthResponse × ThreadLocals) × ℕ :=
  fromBytesWithMetered L wire maxAuthResponseBytes fun m =>
    resolveSignatureAlgorithms m.signatures.items

def AuthConfirm.fromBytesMetered :
    Bytes → ThreadLocals → (Except Error AuthConfirm × ThreadLocals) × ℕ :=
  fromBytesWithMetered L wire maxAuthConfirmBytes fun m =>
    resolveSignatureAlgorithms m.signatures.items

end Decoders

end Meshwarden.Proto
