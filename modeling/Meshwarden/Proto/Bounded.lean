import Meshwarden.Proto.ViolationChannel
import Meshwarden.Codec.Sequence

/-!
# Bounded types

Byte strings and element sequences whose length is bounded at every construction path,
deserialization included. A byte string is taken from the input first and checked before it is
copied; a sequence is refused on its declared count when that is visible, and otherwise as soon as
one element too many has been decoded. The flavor that strict decoding reads through keeps its size
hint to itself, which makes the payload codec report every declared count.

## Main definitions

* `OpaqueLenSlice`, `Postcard`: reading primitives of the payload codec
* `SeqAccess`: access to the elements of a sequence, with an optional count
* `BoundedBytes N`, `BoundedVec α N` with their constructors and deserializations

## Main results

* `Postcard.tryTakeVarint_eq`, `BoundedBytes.deserialize_eq`, `BoundedVec.deserialize_eq`: each
  deserialization is that of a bounded format
-/

namespace Meshwarden.Proto

open Codec

variable {α β σ : Type} {N : ℕ}

/-! ## The payload codec -/

namespace OpaqueLenSlice

/-- Take one byte. -/
def pop : De UInt8
  | [], tl => (none, tl)
  | x :: b, tl => (some (x, b), tl)

/-- Take `ct` bytes: a bounds check on the input, then a borrow of it. -/
def tryTakeN (ct : ℕ) : De Bytes := fun b tl =>
  if b.length < ct then (none, tl) else (some (b.take ct, b.drop ct), tl)

/-- The size hint of the flavor: deliberately not that of the slice it wraps. -/
def sizeHint : Option ℕ := none

end OpaqueLenSlice

/-- Access to the elements of a sequence: the elements that are announced to remain, and the next
element or the end. -/
structure SeqAccess (σ α : Type) where
  sizeHint : σ → Option ℕ
  nextElement : σ → De (Option α × σ)

namespace Postcard

/-- At most `k` more groups of a varint. -/
def varintLoop (last : ℕ) : ℕ → De ℕ
  | 0 => De.fail
  | k + 1 => do
    let val ← OpaqueLenSlice.pop
    if val.toNat < 128 then
      if k = 0 ∧ last < val.toNat then De.fail else pure val.toNat
    else do
      let n ← varintLoop last k
      pure (val.toNat - 128 + 128 * n)

/-- A varint of a type of `bits` bits. -/
def tryTakeVarint (bits : ℕ) : De ℕ :=
  varintLoop (Leb128.maxLastGroup bits) (Leb128.maxGroups bits)

def deserializeU8 : De UInt8 := OpaqueLenSlice.pop

def deserializeU16 : De UInt16 := do
  let n ← tryTakeVarint 16
  pure (UInt16.ofNat n)

def deserializeU64 : De UInt64 := do
  let n ← tryTakeVarint 64
  pure (UInt64.ofNat n)

/-- A byte string, handed to the visitor as a borrow of the input. -/
def deserializeBytes (visitBytes : Bytes → De α) : De α := do
  let sz ← tryTakeVarint lengthBits
  let bytes ← OpaqueLenSlice.tryTakeN sz
  visitBytes bytes

/-- A string: a byte string that is UTF-8. -/
def deserializeStr (visitStr : String → De α) : De α := do
  let sz ← tryTakeVarint lengthBits
  let bytes ← OpaqueLenSlice.tryTakeN sz
  match fromUtf8 bytes with
  | none => De.fail
  | some s => visitStr s

/-- The elements of a counted sequence. The count is hidden when the flavor knows that fewer bytes
than that remain. -/
def seqAccess (flavorSizeHint : Option ℕ) (item : De α) : SeqAccess ℕ α where
  sizeHint len :=
    match flavorSizeHint with
    | some size => if size < len then none else some len
    | none => some len
  nextElement
    | 0 => pure (none, 0)
    | len + 1 => do
      let a ← item
      pure (some a, len)

/-- A sequence: its count, then its elements through the visitor. -/
def deserializeSeq (item : De α) (visitSeq : SeqAccess ℕ α → ℕ → De β) : De β := do
  let len ← tryTakeVarint lengthBits
  visitSeq (seqAccess OpaqueLenSlice.sizeHint item) len

end Postcard

/-! ## Byte strings -/

/-- Byte string of at most `N` bytes. -/
@[ext]
structure BoundedBytes (N : ℕ) where
  bytes : Bytes
  bounded : bytes.length ≤ N
  deriving DecidableEq

namespace BoundedBytes

/-- Fallible constructor, from owned bytes or from a borrowed slice. -/
def new (bytes : Bytes) : Except Error (BoundedBytes N) :=
  if h : bytes.length ≤ N then .ok ⟨bytes, h⟩
  else .error (.boundExceeded bytes.length N)

/-- The empty byte string, which every bound admits. -/
def empty : BoundedBytes N := ⟨[], Nat.zero_le N⟩

/-- Exact-length gate for fields whose length is fixed. -/
def requireExactLen (b : BoundedBytes N) (expected : ℕ) : Except Error Bytes :=
  if b.bytes.length = expected then .ok b.bytes
  else .error (.exactLength expected b.bytes.length)

/-- The visitor: the borrowed bytes are checked against the bound before they are copied. -/
def visitBytes (v : Bytes) : De (BoundedBytes N) :=
  if h : v.length ≤ N then pure ⟨v, h⟩
  else do
    De.record v.length N
    De.fail

def deserialize : De (BoundedBytes N) := Postcard.deserializeBytes visitBytes

/-- Bounded byte strings are byte strings with a bound. -/
def equiv : BoundedBytes N ≃ {l : Bytes // l.length ≤ N} where
  toFun b := ⟨b.bytes, b.bounded⟩
  invFun l := ⟨l.1, l.2⟩
  left_inv _ := rfl
  right_inv _ := rfl

theorem new_eq_ok_iff {bytes : Bytes} {b : BoundedBytes N} :
    new bytes = .ok b ↔ b.bytes = bytes := by
  rw [new]
  split_ifs with h
  · rw [Except.ok.injEq]
    constructor
    · rintro rfl
      rfl
    · rintro rfl
      rfl
  · constructor
    · intro he
      cases he
    · rintro rfl
      exact absurd b.bounded h

end BoundedBytes

/-! ## Sequences -/

/-- Element sequence of at most `N` elements. -/
@[ext]
structure BoundedVec (α : Type) (N : ℕ) where
  items : List α
  bounded : items.length ≤ N
  deriving DecidableEq

namespace BoundedVec

/-- The empty list, which every bound admits. -/
def empty : BoundedVec α N := ⟨[], Nat.zero_le N⟩

/-- Fallible constructor. -/
def new (items : List α) : Except Error (BoundedVec α N) :=
  if h : items.length ≤ N then .ok ⟨items, h⟩
  else .error (.boundExceeded items.length N)

/-- The loop of the visitor, with room for `room` more items: where an element arrives and no room
is left it is the `N + 1`st, and the remainder is not decoded. -/
def visitSeqLoop (seq : SeqAccess σ α) :
    (room : ℕ) → {items : List α // items.length + room = N} → σ → De (BoundedVec α N)
  | 0, items, s => do
    match ← seq.nextElement s with
    | (none, _) => pure ⟨items.1, items.2.le⟩
    | (some _, _) =>
      De.record (saturatingAdd items.1.length 1) N
      De.fail
  | room + 1, items, s => do
    match ← seq.nextElement s with
    | (none, _) => pure ⟨items.1, (Nat.le_add_right _ _).trans items.2.le⟩
    | (some item, s) =>
      visitSeqLoop seq room ⟨items.1 ++ [item], by
        rw [List.length_append, List.length_singleton, Nat.add_assoc, Nat.add_comm 1]
        exact items.2⟩ s

/-- The visitor: a visible declared count is rejected before any element is decoded. -/
def visitSeq (seq : SeqAccess σ α) (s : σ) : De (BoundedVec α N) :=
  match seq.sizeHint s with
  | some declared =>
    if declared > N then do
      De.record declared N
      De.fail
    else visitSeqLoop seq N ⟨[], by simp⟩ s
  | none => visitSeqLoop seq N ⟨[], by simp⟩ s

def deserialize (item : De α) : De (BoundedVec α N) := Postcard.deserializeSeq item visitSeq

/-- Bounded sequences are lists with a bound. -/
def equiv : BoundedVec α N ≃ {l : List α // l.length ≤ N} where
  toFun v := ⟨v.items, v.bounded⟩
  invFun l := ⟨l.1, l.2⟩
  left_inv _ := rfl
  right_inv _ := rfl

theorem new_eq_ok_iff {items : List α} {v : BoundedVec α N} :
    new items = .ok v ↔ v.items = items := by
  rw [new]
  split_ifs with h
  · rw [Except.ok.injEq]
    constructor
    · rintro rfl
      rfl
    · rintro rfl
      rfl
  · constructor
    · intro he
      cases he
    · rintro rfl
      exact absurd v.bounded h

end BoundedVec

/-! ## Deserializations are readings

Each deserialization above touches the violation channel at most once, where it fails, so it is the
deserialization of a reading. -/

namespace Postcard

theorem varintLoop_apply (last k : ℕ) (b : Bytes) (tl : ThreadLocals) :
    varintLoop last k b tl = (Leb128.take last k b, tl) := by
  -- induction on the groups still allowed; no group touches the thread-locals
  induction k generalizing b with
  | zero => rfl
  | succ k ih =>
    rcases b with _ | ⟨x, b⟩
    · rfl
    · have hpop : OpaqueLenSlice.pop (x :: b) tl = (some (x, b), tl) := rfl
      rw [varintLoop, De.bind_some hpop, Leb128.take]
      split_ifs with hx hl
      · rfl
      · rfl
      · rw [De.bind_apply, ih]
        rcases Leb128.take last k b with _ | ⟨n, r⟩ <;> rfl

theorem tryTakeVarint_eq (bits : ℕ) :
    tryTakeVarint bits = De.ofReading (Leb128.read none bits) := by
  funext b tl
  rw [tryTakeVarint, varintLoop_apply, De.ofReading, Leb128.read]
  rcases Leb128.take (Leb128.maxLastGroup bits) (Leb128.maxGroups bits) b with _ | ⟨n, r⟩ <;> rfl

/-- The length and the bytes of a byte string. -/
theorem takeBytes_eq :
    (do let sz ← tryTakeVarint lengthBits; OpaqueLenSlice.tryTakeN sz) =
      De.ofReading (readBytes none) := by
  funext b tl
  rw [tryTakeVarint_eq, De.bind_apply, De.ofReading, De.ofReading, readBytes]
  rcases hr : Leb128.read (none : Option Violation) lengthBits b with e | ⟨n, r⟩
  · obtain rfl := Leb128.read_error none hr
    rfl
  · -- the flavor checks that the bytes are there before it takes them
    by_cases hn : r.length < n
    · simp only [OpaqueLenSlice.tryTakeN, if_pos hn]
    · simp only [OpaqueLenSlice.tryTakeN, if_neg hn]

/-- A byte string goes to its visitor once its bytes are taken. -/
theorem deserializeBytes_apply (visit : Bytes → De α) (b : Bytes) (tl : ThreadLocals) :
    deserializeBytes visit b tl =
      match readBytes (none : Option Violation) b with
      | .error _ => (none, tl)
      | .ok (l, b) => visit l b tl := by
  -- before the visitor, the reading of the bytes
  have h := congrFun (congrFun takeBytes_eq b) tl
  rw [De.bind_apply, De.ofReading] at h
  rw [deserializeBytes, De.bind_apply]
  rcases hv : tryTakeVarint lengthBits b tl with ⟨_ | ⟨n, r⟩, tl'⟩ <;>
    rcases hr : readBytes (none : Option Violation) b with e | ⟨l, s⟩ <;>
    simp only [hv, hr] at h ⊢
  · obtain rfl := readBytes_error hr
    exact congrArg _ (Prod.mk.inj h).2
  · cases h
  · obtain rfl := readBytes_error hr
    exact De.bind_none h
  · exact De.bind_some h

/-- A string goes to its visitor once its bytes are taken and are UTF-8. -/
theorem deserializeStr_apply (visit : String → De α) (b : Bytes) (tl : ThreadLocals) :
    deserializeStr visit b tl =
      match readBytes (none : Option Violation) b with
      | .error _ => (none, tl)
      | .ok (l, b) =>
        match fromUtf8 l with
        | none => (none, tl)
        | some s => visit s b tl := by
  apply (deserializeBytes_apply _ b tl).trans
  rcases readBytes (none : Option Violation) b with e | ⟨l, s⟩
  · rfl
  · rcases hl : fromUtf8 l with _ | text
    · simp only [hl, De.fail_apply]
    · simp only [hl]

end Postcard

/-- The format of bounded byte strings, with its violations. -/
def BoundedBytes.format (N : ℕ) : Format (Option Violation) (BoundedBytes N) :=
  Format.imap BoundedBytes.equiv (Format.bytesUpTo none (fun n => some ⟨n, N⟩) N)

/-- The format of bounded sequences, with its violations. -/
def BoundedVec.format (N : ℕ) (f : Format (Option Violation) α) :
    Format (Option Violation) (BoundedVec α N) :=
  Format.imap BoundedVec.equiv (Format.seqUpTo none (fun n => some ⟨n, N⟩) N f)

theorem BoundedBytes.format_read (b : Bytes) :
    (format N).read b =
      match readBytes (none : Option Violation) b with
      | .error e => .error e
      | .ok (l, b) =>
        if h : l.length ≤ N then .ok (⟨l, h⟩, b) else .error (some ⟨l.length, N⟩) := by
  simp only [format, Format.imap, Format.bytesUpTo]
  rcases readBytes (none : Option Violation) b with e | ⟨l, s⟩
  · rfl
  · by_cases hl : l.length ≤ N
    · simp only [dif_pos hl]
      rfl
    · simp only [dif_neg hl]

theorem BoundedBytes.deserialize_eq :
    (deserialize : De (BoundedBytes N)) = De.ofReading (format N).read := by
  funext b tl
  rw [deserialize, Postcard.deserializeBytes_apply, De.ofReading, format_read]
  rcases hr : readBytes (none : Option Violation) b with e | ⟨l, s⟩
  · obtain rfl := readBytes_error hr
    rfl
  · by_cases hl : l.length ≤ N
    · simp only [visitBytes, dif_pos hl, De.pure_apply]
    · simp only [visitBytes, dif_neg hl]
      rfl

/-- With room for what the count announces, the loop reads that many elements. -/
theorem BoundedVec.visitSeqLoop_eq (hint : Option ℕ) (read : Reading (Option Violation) α)
    {len room : ℕ} (h : len ≤ room) (items : {items : List α // items.length + room = N})
    (b : Bytes) (tl : ThreadLocals) :
    visitSeqLoop (Postcard.seqAccess hint (De.ofReading read)) room items len b tl =
      match readMany read len b with
      | .ok (l, b) => (some (⟨items.1 ++ l.1, by
          rw [List.length_append, l.2]
          exact (Nat.add_le_add_left h _).trans items.2.le⟩, b), tl)
      | .error none => (none, tl)
      | .error (some v) => (none, recordViolation v.declared v.max tl) := by
  -- induction on the elements still announced; `room` stays ahead of them
  induction len generalizing room b with
  | zero =>
    rcases room with _ | room <;>
      simp [visitSeqLoop, De.bind_apply, Postcard.seqAccess, readMany]
  | succ len ih =>
    -- an element is announced, so there is room for it
    obtain ⟨room, rfl⟩ : ∃ r, room = r + 1 := ⟨room - 1, by omega⟩
    simp only [visitSeqLoop, Postcard.seqAccess, De.bind_apply, De.ofReading, readMany]
    rcases hr : read b with (_ | v) | ⟨a, r⟩
    · rfl
    · rfl
    · have hl := ih (Nat.le_of_succ_le_succ h) ⟨items.1 ++ [a], by
        rw [List.length_append, List.length_singleton, Nat.add_assoc, Nat.add_comm 1]
        exact items.2⟩ r
      simp only [De.pure_apply]
      apply hl.trans
      rcases readMany read len r with (_ | v) | ⟨l, s⟩
      · rfl
      · rfl
      · simp

theorem BoundedVec.format_read (f : Format (Option Violation) α) (b : Bytes) :
    (format N f).read b =
      match Leb128.read (none : Option Violation) lengthBits b with
      | .error e => .error e
      | .ok (n, b) =>
        if h : n ≤ N then
          match readMany f.read n b with
          | .error e => .error e
          | .ok (l, b) => .ok (⟨l.1, l.2.trans_le h⟩, b)
        else .error (some ⟨n, N⟩) := by
  simp only [format, Format.imap, Format.seqUpTo]
  rcases Leb128.read (none : Option Violation) lengthBits b with e | ⟨n, r⟩
  · rfl
  · by_cases hn : n ≤ N
    · simp only [dif_pos hn]
      rcases readMany f.read n r with e | ⟨l, s⟩ <;> rfl
    · simp only [dif_neg hn]

theorem BoundedVec.deserialize_eq (f : Format (Option Violation) α) :
    (deserialize (De.ofReading f.read) : De (BoundedVec α N)) = De.ofReading (format N f).read := by
  funext b tl
  rw [deserialize, Postcard.deserializeSeq, Postcard.tryTakeVarint_eq, De.bind_apply,
    De.ofReading, De.ofReading, format_read]
  rcases hr : Leb128.read (none : Option Violation) lengthBits b with e | ⟨n, r⟩
  · obtain rfl := Leb128.read_error none hr
    rfl
  · -- the flavor gives no hint of its own, so the declared count is always visible
    have hint : (Postcard.seqAccess OpaqueLenSlice.sizeHint (De.ofReading f.read)).sizeHint n =
        some n := rfl
    by_cases hn : n ≤ N
    · simp only [visitSeq, hint, if_neg (not_lt.mpr hn), dif_pos hn]
      apply (visitSeqLoop_eq OpaqueLenSlice.sizeHint f.read hn _ r tl).trans
      rcases readMany f.read n r with (_ | v) | ⟨l, s⟩ <;> rfl
    · simp only [visitSeq, hint, gt_iff_lt, if_pos (not_le.mp hn), dif_neg hn]
      rfl

end Meshwarden.Proto
