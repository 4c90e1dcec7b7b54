import Mathlib.Algebra.Order.Floor.Div
import Meshwarden.Proto.Canonical
import Meshwarden.Proto.Metering

/-!
# Bounds before allocation

No declared length is ever allocated for. What a deserialization allocates is paid for by bytes of
the input, on every input, accepted or refused; for a value that is accepted it is what the value
needs, with the room that its vectors keep; and where no text is decoded it is bounded by the type
alone. The proof holds credits for the bytes that are taken, and spends them where the
deserialization allocates: an element pays with its headers for its place in a vector that at most
doubles, and the length of the vector for the least capacity.

## Main definitions

* `WireType.rate L`: how many bytes are allocated for a byte of the input at most
* `WireType.contents`, `WireType.maxContents`: what a value needs, and what any value needs

## Main results

* `WireType.affords_present`, `WireType.affords_bounded`: deserialization pays for itself, with what
  it takes from the input, or with what the type allows
* `WireType.spends_contents`: an accepted value has cost its contents
* `WireType.deserialize_allocates`: all of it, for every wire type
* `messages_allocate`: the decoders of the messages
-/

namespace Meshwarden.Proto

open Codec

variable {α β σ : Type} {N : ℕ}

/-! ## What pays for allocation -/

theorem Postcard.length_of_tryTakeVarint {bits : ℕ} {b r : Bytes} {tl tl' : ThreadLocals} {n : ℕ}
    (h : tryTakeVarint bits b tl = (some (n, r), tl')) : 1 + r.length ≤ b.length := by
  rw [tryTakeVarint, varintLoop_apply] at h
  rcases hk : Leb128.maxGroups bits with _ | k
  · rw [hk] at h
    cases h
  rw [hk] at h
  obtain ⟨c, rfl, hc, -⟩ := Leb128.take_eq_some_iff.mp (Prod.mk.inj h).1
  have hne := List.length_pos_iff.mpr hc.ne_nil
  rw [List.length_append]
  omega

/-- What a reader of numbers takes is at least one byte. -/
theorem Postcard.length_of_number {bits : ℕ} {f : ℕ → α} {b r : Bytes} {tl tl' : ThreadLocals}
    {a : α}
    (h : (do let n ← tryTakeVarint bits; pure (f n) : De α) b tl = (some (a, r), tl')) :
    1 + r.length ≤ b.length := by
  rcases hn : tryTakeVarint bits b tl with ⟨_ | ⟨n, m⟩, tl₁⟩
  · rw [De.bind_none hn] at h
    cases h
  · rw [De.bind_some hn] at h
    cases h
    exact length_of_tryTakeVarint hn

theorem OpaqueLenSlice.length_of_pop {b r : Bytes} {tl tl' : ThreadLocals} {x : UInt8}
    (h : pop b tl = (some (x, r), tl')) : 1 + r.length ≤ b.length := by
  rcases b with _ | ⟨y, b⟩
  · cases h
  · cases h
    rw [List.length_cons, Nat.add_comm]

theorem OpaqueLenSlice.length_of_tryTakeN {ct : ℕ} {b r v : Bytes} {tl tl' : ThreadLocals}
    (h : tryTakeN ct b tl = (some (v, r), tl')) : v.length + r.length ≤ b.length := by
  rw [tryTakeN] at h
  split_ifs at h
  · cases h
  obtain ⟨rfl, rfl⟩ := Prod.mk.inj (Option.some.inj (Prod.mk.inj h).1)
  rw [← List.length_append, List.take_append_drop]

section Credits

variable {rate p : ℕ}

theorem MeteredDe.affords_fail (s : α → ℕ) : Metered.Affords rate p (Metered.free De.fail) s where
  accepted := by
    intro b r t t' a n h
    cases h
  refused := by
    intro b t t' n h
    cases h
    exact Nat.zero_le _

/-- A violation is recorded for nothing, and the failure that follows costs nothing. -/
theorem MeteredDe.affords_record (declared max : ℕ) (s : α → ℕ) :
    Metered.Affords rate p
      (do Metered.free (De.record declared max); Metered.free De.fail : MeteredDe α) s where
  accepted := by
    intro b r t t' a n h
    cases h
  refused := by
    intro b t t' n h
    cases h
    exact Nat.zero_le _

theorem Postcard.affords_tryTakeVarint (bits : ℕ) :
    Metered.Affords rate p (Metered.free (tryTakeVarint bits)) fun _ => p + rate * 1 :=
  Metered.Affords.free length_of_tryTakeVarint

/-- The bytes that were taken pay `rate` each, and one more for their length. -/
theorem Postcard.affords_takeBytes {f : Bytes → MeteredDe α} {s : α → ℕ}
    (h : ∀ v, Metered.Affords rate (p + rate * 1 + rate * v.length) (f v) s) :
    Metered.Affords rate p (deserializeBytesMetered f) s :=
  (affords_tryTakeVarint lengthBits).bind fun _ =>
    (Metered.Affords.free OpaqueLenSlice.length_of_tryTakeN).bind h

/-- A copy of bytes that are within the bound is paid for by these bytes. -/
theorem BoundedBytes.affords_deserialize :
    Metered.Affords (1 + rate) p (deserializeMetered : MeteredDe (BoundedBytes N)) fun _ =>
      p + rate * 1 := by
  apply Postcard.affords_takeBytes
  intro v
  have hv : (1 + rate) * v.length = v.length + rate * v.length := by ring
  rw [visitBytesMetered]
  split_ifs with h
  · apply Metered.Affords.bind (s := fun _ => p + rate * 1)
    · exact (Metered.Affords.charge v.length).weaken (by omega) fun _ => le_rfl
    · intro _
      exact Metered.Affords.pure le_rfl
  · exact MeteredDe.affords_record _ _ _

/-- The same copy is paid for by the bound. -/
theorem BoundedBytes.affords_deserialize_bounded :
    Metered.Affords 0 (p + N) (deserializeMetered : MeteredDe (BoundedBytes N)) fun _ => p := by
  apply Postcard.affords_takeBytes
  intro v
  rw [visitBytesMetered]
  split_ifs with h
  · apply Metered.Affords.bind (s := fun _ => p)
    · exact (Metered.Affords.charge v.length).weaken (by omega) fun _ => le_rfl
    · intro _
      exact Metered.Affords.pure le_rfl
  · exact MeteredDe.affords_record _ _ _

/-- Where no element is announced any more, the loop ends. -/
theorem BoundedVec.visitSeqLoop_done (size : ℕ) (hint : Option ℕ) (item : MeteredDe α) (room : ℕ)
    (items : {items : List α // items.length + room = N}) :
    visitSeqLoopMetered size (Postcard.seqAccessMetered hint item) room items 0 =
      pure ⟨items.1, (Nat.le_add_right _ _).trans items.2.le⟩ := by
  rcases room with _ | room <;> rfl

/-- Where one is announced and there is room, it is decoded and pushed. -/
theorem BoundedVec.visitSeqLoop_next (size : ℕ) (hint : Option ℕ) (item : MeteredDe α)
    (room len : ℕ) (items : {items : List α // items.length + (room + 1) = N}) :
    visitSeqLoopMetered size (Postcard.seqAccessMetered hint item) (room + 1) items (len + 1) =
      (do
        let a ← item
        Metered.charge (pushedBytes size (items.1.length + 1) - pushedBytes size items.1.length)
        visitSeqLoopMetered size (Postcard.seqAccessMetered hint item) room
          ⟨items.1 ++ [a], length_push items a⟩ len) := by
  funext b tl
  rw [visitSeqLoopMetered]
  rcases hi : item b tl with ⟨⟨_ | ⟨a, r⟩, tl'⟩, n⟩
  · have hn : (Postcard.seqAccessMetered hint item).nextElement (len + 1) b tl =
        ((none, tl'), n) := Metered.bind_of_none hi
    rw [Metered.bind_of_none hn, Metered.bind_of_none hi]
  · have hn : (Postcard.seqAccessMetered hint item).nextElement (len + 1) b tl =
        ((some ((some a, len), r), tl'), n) := Metered.bind_of_some hi
    rw [Metered.bind_of_some hn, Metered.bind_of_some hi]

theorem BoundedVec.pushedBytes_mono (size : ℕ) : Monotone (pushedBytes size) :=
  fun _ _ h => Nat.mul_le_mul_left size (Growable.roomFor_mono (minNonZeroCap size) h)

theorem BoundedVec.pushedBytes_le (size n : ℕ) :
    pushedBytes size n ≤ size * max (minNonZeroCap size) (2 * n) :=
  Nat.mul_le_mul_left size (Growable.roomFor_le (minNonZeroCap size) n)

/-- **The loop pays for itself** where each element does and leaves what is `earned` with it: behind
`k` elements it holds `hold k`, and that with what is earned pays for the next push. -/
theorem BoundedVec.affords_visitSeqLoop {size c earned : ℕ} {item : MeteredDe α} (hint : Option ℕ)
    {hold : ℕ → ℕ} (hitem : ∀ p, Metered.Affords rate (p + c) item fun _ => p + earned)
    (hgrow : ∀ k < N,
      pushedBytes size (k + 1) - pushedBytes size k + hold (k + 1) ≤ hold k + earned)
    {len room : ℕ} (h : len ≤ room) (items : {items : List α // items.length + room = N}) :
    Metered.Affords rate (p + len * c + hold items.1.length)
      (visitSeqLoopMetered size (Postcard.seqAccessMetered hint item) room items len)
      fun _ => p := by
  -- induction on the elements still announced; `room` stays ahead of them
  induction len generalizing room with
  | zero =>
    rw [visitSeqLoop_done]
    exact Metered.Affords.pure (by omega)
  | succ len ih =>
    obtain ⟨room, rfl⟩ : ∃ r, room = r + 1 := ⟨room - 1, by omega⟩
    rw [visitSeqLoop_next]
    have hnext := hgrow items.1.length (by have := items.2; omega)
    have hstart : p + (len + 1) * c + hold items.1.length =
        p + len * c + hold items.1.length + c := by ring
    rw [hstart]
    apply (hitem (p + len * c + hold items.1.length)).bind
    intro a
    apply Metered.Affords.bind (s := fun _ => p + len * c + hold (items.1.length + 1))
    · exact (Metered.Affords.charge _).weaken (by omega) fun _ => le_rfl
    · intro _
      have hrest := ih (Nat.le_of_succ_le_succ h) ⟨items.1 ++ [a], length_push items a⟩
      rw [List.length_append, List.length_singleton] at hrest
      exact hrest

/-- A sequence that declares too many elements pays nothing. Its length pays for what is held behind
no element. -/
theorem BoundedVec.affords_deserialize {size c : ℕ} {item : MeteredDe α} (earned : ℕ)
    (hold : ℕ → ℕ) (hitem : ∀ p, Metered.Affords rate (p + c) item fun _ => p + earned)
    (hgrow : ∀ k < N,
      pushedBytes size (k + 1) - pushedBytes size k + hold (k + 1) ≤ hold k + earned)
    {q : ℕ} (hq : q + N * c + hold 0 ≤ p + rate * 1) :
    Metered.Affords rate p (deserializeMetered size item : MeteredDe (BoundedVec α N))
      fun _ => q := by
  apply (Postcard.affords_tryTakeVarint lengthBits).bind
  intro len
  rw [visitSeqMetered]
  simp only [Postcard.seqAccessMetered, OpaqueLenSlice.sizeHint]
  split_ifs with h
  · exact MeteredDe.affords_record _ _ _
  · have hlen : len * c ≤ N * c := Nat.mul_le_mul_right c (not_lt.mp h)
    exact (affords_visitSeqLoop none hitem hgrow (not_lt.mp h) ⟨[], length_new α N⟩).weaken
      (p := q + len * c + hold 0) (by omega) fun _ => le_rfl

end Credits

/-! ## Places in a vector -/

namespace BoundedVec

/-- What each byte pays for an element of `size` bytes with `headers` of them: the length of the
vector and the headers of the first element for the least capacity, and the headers of any other for
twice its size. -/
def place (size headers : ℕ) : ℕ :=
  max ((size * max (minNonZeroCap size) 2) ⌈/⌉ (1 + headers)) ((2 * size) ⌈/⌉ headers)

/-- **The headers pay for the vector**, however many elements it has. -/
theorem pushedBytes_le_place {size headers : ℕ} (h : headers = 0 → size = 0) (k : ℕ) :
    pushedBytes size k ≤ place size headers * (1 + k * headers) := by
  rcases Nat.eq_zero_or_pos headers with h0 | hpos
  · rw [h h0, pushedBytes, Nat.zero_mul]
    exact Nat.zero_le _
  rcases k with _ | k
  · exact Nat.zero_le _
  have hfirst : size * max (minNonZeroCap size) 2 ≤ (1 + headers) * place size headers :=
    (ceilDiv_le_iff_le_mul (Nat.add_pos_left Nat.one_pos headers)).mp (le_max_left _ _)
  have hother : 2 * size ≤ headers * place size headers :=
    (ceilDiv_le_iff_le_mul hpos).mp (le_max_right _ _)
  have hroom : max (minNonZeroCap size) (2 * (k + 1)) ≤ max (minNonZeroCap size) 2 + 2 * k := by
    omega
  calc pushedBytes size (k + 1)
      ≤ size * max (minNonZeroCap size) (2 * (k + 1)) := pushedBytes_le size (k + 1)
    _ ≤ size * (max (minNonZeroCap size) 2 + 2 * k) := Nat.mul_le_mul_left size hroom
    _ = size * max (minNonZeroCap size) 2 + k * (2 * size) := by ring
    _ ≤ (1 + headers) * place size headers + k * (headers * place size headers) :=
      Nat.add_le_add hfirst (Nat.mul_le_mul_left k hother)
    _ = place size headers * (1 + (k + 1) * headers) := by ring

end BoundedVec

namespace WireType

variable (L : Layout)

/-! ## Allocation of a wire type -/

/-- How many bytes are allocated for a byte of the input at most. -/
def rate : {α : Type} → WireType α → ℕ
  | _, .u8 => 0
  | _, .u16 => 0
  | _, .u64 => 0
  | _, .boundedBytes _ _ => 1
  | _, .boundedVec _ _ item => item.rate + BoundedVec.place (L.size item) item.headers
  | _, .text _ => L.parseRate
  | _, .nil => 0
  | _, .field first rest => max first.rate rest.rate
  | _, .struct _ fields => fields.rate

/-- No text is parsed. -/
def Textless : {α : Type} → WireType α → Prop
  | _, .boundedVec _ _ item => item.Textless
  | _, .text _ => False
  | _, .field first rest => first.Textless ∧ rest.Textless
  | _, .struct _ fields => fields.Textless
  | _, _ => True

/-- What any value needs. -/
def maxContents : {α : Type} → WireType α → ℕ
  | _, .boundedBytes N _ => N
  | _, .boundedVec N _ item => N * item.maxContents + BoundedVec.pushedBytes (L.size item) N
  | _, .field first rest => first.maxContents + rest.maxContents
  | _, .struct _ fields => fields.maxContents
  | _, _ => 0

/-- **Deserialization pays for itself with the bytes that are present**, and leaves what they bring
beyond the rate. -/
theorem affords_present (w : WireType α) (p extra : ℕ) :
    Metered.Affords (w.rate L + extra) p (w.deserializeMetered L)
      fun _ => p + extra * w.headers := by
  -- one case for each constructor; what the fields of a struct leave adds up
  induction w generalizing p extra with
  | u8 =>
    rw [rate, Nat.zero_add]
    exact Metered.Affords.free OpaqueLenSlice.length_of_pop
  | u16 | u64 =>
    rw [rate, Nat.zero_add]
    exact Metered.Affords.free Postcard.length_of_number
  | boundedBytes N bound => exact BoundedBytes.affords_deserialize
  | boundedVec N bound item ih =>
    -- what an element brings beyond its own rate pays for its place
    set place := BoundedVec.place (L.size item) item.headers
    have hplace : ∀ k, BoundedVec.pushedBytes (L.size item) k ≤ place * (1 + k * item.headers) :=
      BoundedVec.pushedBytes_le_place L.size_eq_zero
    have hrate : (boundedVec N bound item).rate L + extra = item.rate L + (place + extra) :=
      Nat.add_assoc _ _ _
    rw [hrate]
    apply BoundedVec.affords_deserialize (c := 0) ((place + extra) * item.headers)
      (fun k => place * (1 + k * item.headers) - BoundedVec.pushedBytes (L.size item) k)
      (fun q => ih q (place + extra))
    · intro k _
      have hk := hplace k
      have hnext := hplace (k + 1)
      have hmono := BoundedVec.pushedBytes_mono (L.size item) (Nat.le_add_right k 1)
      have hearned : place * (1 + (k + 1) * item.headers) + extra * item.headers =
          place * (1 + k * item.headers) + (place + extra) * item.headers := by ring
      omega
    · have hheaders : (boundedVec N bound item).headers = 1 := rfl
      simp only [hheaders]
      omega
  | text t =>
    apply Postcard.affords_takeBytes
    intro v
    rcases hv : fromUtf8 v with _ | s
    · simp only
      exact MeteredDe.affords_fail _
    · simp only
      -- a text that is UTF-8 is as long as its bytes
      have hcost := L.parse_le t s
      rw [utf8_of_fromUtf8 hv] at hcost
      have hheaders : (text t).headers = 1 := rfl
      have hpaid : p + ((text t).rate L + extra) * 1 + ((text t).rate L + extra) * v.length =
          L.parseRate * (1 + v.length) + (p + extra * 1 + extra * v.length) := by
        rw [rate]
        ring
      rw [hheaders, hpaid]
      apply Metered.Affords.bind (s := fun _ => p + extra * 1)
      · exact (Metered.Affords.charge (L.parse t s)).weaken (by omega) fun _ => le_rfl
      · intro _
        rcases t.parse s with _ | a
        · exact MeteredDe.affords_fail _
        · exact Metered.Affords.pure le_rfl
  | nil => exact Metered.Affords.pure le_rfl
  | field first rest ih₁ ih₂ =>
    -- the rate of both is at least that of each
    obtain ⟨more₁, h₁⟩ : ∃ more, (first.field rest).rate L = first.rate L + more :=
      Nat.exists_eq_add_of_le (le_max_left _ _)
    obtain ⟨more₂, h₂⟩ : ∃ more, (first.field rest).rate L = rest.rate L + more :=
      Nat.exists_eq_add_of_le (le_max_right _ _)
    have hfirst := ih₁ p (more₁ + extra)
    rw [← Nat.add_assoc, ← h₁] at hfirst
    apply (hfirst.weaken le_rfl fun _ => Nat.add_le_add_left
      (Nat.mul_le_mul_right _ (Nat.le_add_left extra more₁)) p).bind
    intro a
    have hrest := ih₂ (p + extra * first.headers) (more₂ + extra)
    rw [← Nat.add_assoc, ← h₂] at hrest
    apply (hrest.weaken le_rfl fun _ => Nat.add_le_add_left
      (Nat.mul_le_mul_right _ (Nat.le_add_left extra more₂)) _).bind
    intro b
    apply Metered.Affords.pure
    rw [headers, Nat.mul_add, Nat.add_assoc]
  | struct e fields ih =>
    exact (ih p extra).bind fun _ => Metered.Affords.pure le_rfl

/-- **Deserialization pays for itself with what the type allows.** -/
theorem affords_bounded (w : WireType α) (hw : w.Textless) (p : ℕ) :
    Metered.Affords 0 (p + w.maxContents L) (w.deserializeMetered L) fun _ => p := by
  -- no credit is earned with the input, so all of it is held from the start
  induction w generalizing p with
  | u8 => exact Metered.Affords.free OpaqueLenSlice.length_of_pop
  | u16 | u64 => exact Metered.Affords.free Postcard.length_of_number
  | boundedBytes N bound => exact BoundedBytes.affords_deserialize_bounded
  | boundedVec N bound item ih =>
    have hmono := BoundedVec.pushedBytes_mono (L.size item)
    apply BoundedVec.affords_deserialize 0 (fun k =>
      BoundedVec.pushedBytes (L.size item) N - BoundedVec.pushedBytes (L.size item) k) (ih hw)
    · intro k hk
      have hstep := hmono (Nat.le_add_right k 1)
      have hrest := hmono (show k + 1 ≤ N from hk)
      omega
    · have hmost : (boundedVec N bound item).maxContents L =
          N * item.maxContents L + BoundedVec.pushedBytes (L.size item) N := rfl
      have hnone : BoundedVec.pushedBytes (L.size item) 0 = 0 := rfl
      omega
  | text t => exact hw.elim
  | nil => exact Metered.Affords.pure le_rfl
  | field first rest ih₁ ih₂ =>
    have hfirst := ih₁ hw.1 (p + rest.maxContents L)
    rw [Nat.add_assoc, Nat.add_comm (rest.maxContents L)] at hfirst
    apply hfirst.bind
    intro a
    exact (ih₂ hw.2 p).bind fun b => Metered.Affords.pure le_rfl
  | struct e fields ih => exact (ih hw p).bind fun _ => Metered.Affords.pure le_rfl

/-! ## What a value needs -/

/-- What a value needs. -/
def contents : {α : Type} → WireType α → α → ℕ
  | _, .boundedBytes _ _, x => x.bytes.length
  | _, .boundedVec _ _ item, x =>
    (x.items.map item.contents).sum + BoundedVec.pushedBytes (L.size item) x.items.length
  | _, .text t, x => L.parse t (t.display x)
  | _, .field first rest, x => first.contents x.1 + rest.contents x.2
  | _, .struct e fields, x => fields.contents (e x)
  | _, _, _ => 0

end WireType

theorem BoundedBytes.spends_deserialize :
    Metered.Spends (deserializeMetered : MeteredDe (BoundedBytes N)) fun x => x.bytes.length := by
  apply Metered.Spends.after_free
  intro sz
  apply Metered.Spends.after_free
  intro v b r tl tl' x n h
  rw [visitBytesMetered] at h
  split_ifs at h
  · cases h
    rfl
  · cases h

/-- What was allocated when the loop ends is what the elements behind the first ones need, and what
the vector grew by. -/
theorem BoundedVec.spends_visitSeqLoop {size : ℕ} {item : MeteredDe α} {cost : α → ℕ}
    (hitem : Metered.Spends item cost) (hint : Option ℕ) {len room : ℕ} (hlen : len ≤ room)
    (items : {items : List α // items.length + room = N}) {b r : Bytes} {tl tl' : ThreadLocals}
    {v : BoundedVec α N} {n : ℕ}
    (h : visitSeqLoopMetered size (Postcard.seqAccessMetered hint item) room items len b tl =
      ((some (v, r), tl'), n)) :
    (items.1.map cost).sum + pushedBytes size items.1.length + n =
      (v.items.map cost).sum + pushedBytes size v.items.length := by
  induction len generalizing room b tl n with
  | zero =>
    rw [visitSeqLoop_done] at h
    cases h
    rfl
  | succ len ih =>
    obtain ⟨room, rfl⟩ : ∃ r, room = r + 1 := ⟨room - 1, by omega⟩
    rw [visitSeqLoop_next] at h
    obtain ⟨a, m, tl₁, n₁, n₂, hi, hpush, rfl⟩ := Metered.of_bind_some h
    obtain ⟨_, m', tl₂, n₃, n₄, hc, hloop, rfl⟩ := Metered.of_bind_some hpush
    cases hc
    have hrest := ih (Nat.le_of_succ_le_succ hlen) _ hloop
    have hgrown := pushedBytes_mono size (Nat.le_add_right items.1.length 1)
    rw [List.map_append, List.sum_append, List.map_singleton, List.sum_singleton,
      List.length_append, List.length_singleton] at hrest
    rw [hitem hi]
    omega

namespace WireType

variable (L : Layout)

/-- **An accepted value has cost its contents.** -/
theorem spends_contents (w : WireType α) :
    Metered.Spends (w.deserializeMetered L) (w.contents L) := by
  induction w with
  | u8 | u16 | u64 => exact Metered.Spends.free _
  | boundedBytes N bound => exact BoundedBytes.spends_deserialize
  | boundedVec N bound item ih =>
    apply Metered.Spends.after_free
    intro len b r tl tl' v n h
    rw [BoundedVec.visitSeqMetered] at h
    simp only [Postcard.seqAccessMetered, OpaqueLenSlice.sizeHint] at h
    split_ifs at h with hlen
    · cases h
    · have hloop := BoundedVec.spends_visitSeqLoop ih none (not_lt.mp hlen)
        ⟨[], BoundedVec.length_new _ N⟩ h
      have hnone : BoundedVec.pushedBytes (L.size item) 0 = 0 := rfl
      rw [List.map_nil, List.sum_nil, List.length_nil, hnone, Nat.zero_add] at hloop
      exact hloop
  | text t =>
    apply Metered.Spends.after_free
    intro sz
    apply Metered.Spends.after_free
    intro v
    rcases fromUtf8 v with _ | s
    · intro b r tl tl' a n h
      cases h
    · apply (Metered.Spends.charge (L.parse t s)).bind
      intro _ a b r tl tl' n h
      rcases hp : t.parse s with _ | a'
      · rw [hp] at h
        cases h
      · rw [hp] at h
        cases h
        rw [contents, t.display_parse hp]
        rfl
  | nil => exact Metered.Spends.pure rfl
  | field first rest ih₁ ih₂ =>
    apply ih₁.bind
    intro a c b r tl tl' n h
    obtain ⟨a', m, tl₁, n₁, n₂, hr, hp, rfl⟩ := Metered.of_bind_some h
    cases hp
    rw [ih₂ hr]
    rfl
  | struct e fields ih =>
    apply ih.bind
    intro a c b r tl tl' n h
    cases h
    rw [contents, Equiv.apply_symm_apply]
    rfl

/-- **Allocation comes from the bytes that are present.** For every wire type, on every input and
every thread: the metered deserialization is the deserialization; what it allocates is at most the
rate of the type for each byte of the input; and for a value that it accepts it has allocated what
the value needs. -/
theorem deserialize_allocates (w : WireType α) (b : Bytes) (tl : ThreadLocals) :
    Metered.unmetered (w.deserializeMetered L) b tl = w.deserialize b tl ∧
      Metered.spent (w.deserializeMetered L) b tl ≤ w.rate L * b.length ∧
      ∀ a r tl', w.deserialize b tl = (some (a, r), tl') →
        Metered.spent (w.deserializeMetered L) b tl = w.contents L a := by
  have hun := congrFun (congrFun (w.unmetered_deserializeMetered L) b) tl
  have hle := (w.affords_present L 0 0).spent_le b tl
  rw [Nat.zero_add, Nat.add_zero] at hle
  refine ⟨hun, hle, ?_⟩
  intro a r tl' h
  rw [← hun] at h
  exact w.spends_contents L (Prod.ext h rfl)

/-- Sizes on a target with words of eight bytes, to which structs are aligned. -/
def size64 : {α : Type} → WireType α → ℕ
  | _, .u8 => 1
  | _, .u16 => 2
  | _, .u64 => 8
  | _, .boundedBytes _ _ => 24
  | _, .boundedVec _ _ _ => 24
  | _, .text _ => 16
  | _, .nil => 0
  | _, .field first rest => first.size64 + rest.size64
  | _, .struct _ fields => (fields.size64 + 7) / 8 * 8

theorem size64_eq_zero {w : WireType α} (h : w.headers = 0) : w.size64 = 0 := by
  induction w with
  | u8 | u16 | u64 | boundedBytes N bound | boundedVec N bound item | text t => cases h
  | nil => rfl
  | field first rest ih₁ ih₂ =>
    obtain ⟨h₁, h₂⟩ := Nat.add_eq_zero_iff.mp h
    rw [size64, ih₁ h₁, ih₂ h₂]
  | struct e fields ih => rw [size64, ih h]

end WireType

/-- A target with words of eight bytes, where texts are parsed and displayed for nothing: the
messages hold none. -/
def Layout.words64 : Layout where
  size := WireType.size64
  size_eq_zero := WireType.size64_eq_zero
  parse _ _ := 0
  parseRate := 0
  parse_le _ _ := Nat.zero_le _
  display _ _ := 0
  displayRate := 0
  display_le _ _ := Nat.zero_le _
  pieces t a := [(utf8 (t.display a)).length]
  pieces_sum _ _ := List.sum_singleton

/-- One signature of two bytes: its bytes are copied, and its place in the vector is one of four of
32 bytes each. -/
example : (AuthConfirm.wire.deserializeMetered .words64).spent [1, 1, 2, 7, 7] .fresh = 130 := by
  decide

/-! ## The decoders -/

section Decoders

variable (L : Layout)

namespace WireType

/-- How many bytes displaying texts allocates for a byte of the serialization at most. -/
def displayRate : {α : Type} → WireType α → ℕ
  | _, .u8 => 0
  | _, .u16 => 0
  | _, .u64 => 0
  | _, .boundedBytes _ _ => 0
  | _, .boundedVec _ _ item => item.displayRate
  | _, .text _ => L.displayRate
  | _, .nil => 0
  | _, .field first rest => max first.displayRate rest.displayRate
  | _, .struct _ fields => fields.displayRate

/-- What displaying the texts of a value allocates is paid for by its serialization. -/
theorem displayed_le (w : WireType α) (x : α) :
    w.displayed L x ≤ w.displayRate L * (w.serialize x).length := by
  induction w with
  | u8 | u16 | u64 | boundedBytes N bound | nil => exact Nat.zero_le _
  | boundedVec N bound item ih =>
    have hitems : (x.items.map (item.displayed L)).sum ≤
        item.displayRate L * (writeMany item.serialize x.items).length := by
      induction x.items with
      | nil => exact Nat.zero_le _
      | cons a items ihItems =>
        rw [List.map_cons, List.sum_cons, writeMany, List.flatMap_cons, List.length_append,
          Nat.mul_add]
        exact Nat.add_le_add (ih a) ihItems
    rw [serialize, writeSeq, List.length_append, Nat.mul_add]
    exact hitems.trans (Nat.le_add_left _ _)
  | text t =>
    have hpos := List.length_pos_iff.mpr (Leb128.encode_ne_nil (utf8 (t.display x)).length)
    rw [serialize, writeBytes, List.length_append]
    exact (L.display_le t x).trans (Nat.mul_le_mul_left _ (Nat.add_le_add_right hpos _))
  | field first rest ih₁ ih₂ =>
    rw [serialize, List.length_append, Nat.mul_add]
    apply Nat.add_le_add
    · exact (ih₁ x.1).trans (Nat.mul_le_mul_right _ (le_max_left _ _))
    · exact (ih₂ x.2).trans (Nat.mul_le_mul_right _ (le_max_right _ _))
  | struct e fields ih => exact ih (e x)

/-- Where there is no text, nothing is displayed. -/
theorem Textless.displayRate {w : WireType α} (hw : w.Textless) : w.displayRate L = 0 := by
  induction w with
  | u8 | u16 | u64 | boundedBytes N bound | nil => rfl
  | boundedVec N bound item ih => exact ih hw
  | text t => exact hw.elim
  | field first rest ih₁ ih₂ => rw [WireType.displayRate, ih₁ hw.1, ih₂ hw.2, max_self]
  | struct e fields ih => exact ih hw

/-- The vector that is written to takes at most twice the serialization, or eight bytes. -/
theorem reencoding_le (w : WireType α) (x : α) :
    w.reencoding L x ≤
      max 8 (2 * (w.serialize x).length) + w.displayRate L * (w.serialize x).length := by
  have hvec := Growable.extend_empty_le (BoundedVec.minNonZeroCap 1) (w.writes L x)
  rw [writes_sum] at hvec
  exact Nat.add_le_add hvec (w.displayed_le L x)

end WireType

variable {w : WireType α}

/-- What is allocated is what the deserialization allocates, and the re-encoding if there is one. -/
theorem decodeReencodedMetered_snd (w : WireType α) (b : Bytes) (tl : ThreadLocals) :
    (decodeReencodedMetered L w b tl).2 =
        (w.deserializeMetered L).spent b (ViolationScope.enter tl) ∨
      ∃ v, (decodeExact w.deserialize b tl).1 = .ok v ∧
        (decodeReencodedMetered L w b tl).2 =
          (w.deserializeMetered L).spent b (ViolationScope.enter tl) + w.reencoding L v := by
  have hd := decodeExactMetered_fst L w b tl
  have hs : (decodeExactMetered (w.deserializeMetered L) b tl).2 =
    (w.deserializeMetered L).spent b (ViolationScope.enter tl) := rfl
  rw [decodeReencodedMetered, ← hs, ← hd]
  rcases decodeExactMetered (w.deserializeMetered L) b tl with ⟨⟨e | v, tl'⟩, allocated⟩
  · exact Or.inl rfl
  · exact Or.inr ⟨v, rfl, rfl⟩

/-- **Strict decoding with re-encoding allocates for bytes that are present**: the deserialization
is paid for by them, and the re-encoding is no longer than they are. -/
theorem decodeReencodedMetered_le (w : WireType α) (b : Bytes) (tl : ThreadLocals) :
    (decodeReencodedMetered L w b tl).2 ≤ (w.rate L + (2 + w.displayRate L)) * b.length + 8 := by
  have hspent := (w.affords_present L 0 0).spent_le b (ViolationScope.enter tl)
  rw [Nat.zero_add, Nat.add_zero] at hspent
  rw [Nat.add_mul]
  rcases decodeReencodedMetered_snd L w b tl with h | ⟨v, hv, h⟩
  · rw [h]
    omega
  · have hlen := (WireType.spelled_of_decodeExact hv).length_le
    have hre := w.reencoding_le L v
    have hmul := Nat.mul_le_mul_left (w.displayRate L) hlen
    rw [h, Nat.add_mul]
    omega

/-- **And within what the type allows**, whatever the input. -/
theorem decodeReencodedMetered_le_max (hw : w.Textless) (b : Bytes) (tl : ThreadLocals) :
    (decodeReencodedMetered L w b tl).2 ≤ w.maxContents L + max 8 (2 * w.maxLength) := by
  have hspent := (w.affords_bounded L hw 0).spent_le b (ViolationScope.enter tl)
  rw [Nat.zero_add, Nat.zero_mul, Nat.add_zero] at hspent
  rcases decodeReencodedMetered_snd L w b tl with h | ⟨v, hv, h⟩
  · rw [h]
    omega
  · have hre := w.reencoding_le L v
    have hlen := w.length_serialize_le v
    rw [hw.displayRate, Nat.zero_mul] at hre
    rw [h]
    omega

/-- A decoder of messages allocates nothing for an input that is too long. -/
theorem fromBytesWithMetered_snd (w : WireType α) (maxBytes : ℕ)
    (resolve : α → Except Error Unit) (b : Bytes) (tl : ThreadLocals) :
    (fromBytesWithMetered L w maxBytes resolve b tl).2 =
      if b.length > maxBytes then 0 else (decodeReencodedMetered L w b tl).2 := by
  rw [fromBytesWithMetered]
  split_ifs <;> rfl

end Decoders

/-! ## The messages -/

/-- A metered decoder is the decoder, and allocates at most `rate` bytes for each byte of the input
and `least` more, and at most `most` bytes for any input. -/
def AllocatesWithin (metered : Bytes → ThreadLocals → (Except Error α × ThreadLocals) × ℕ)
    (fromBytes : Bytes → ThreadLocals → Except Error α × ThreadLocals) (rate least most : ℕ) :
    Prop :=
  ∀ b tl, (metered b tl).1 = fromBytes b tl ∧ (metered b tl).2 ≤ rate * b.length + least ∧
    (metered b tl).2 ≤ most

variable {L : Layout}

theorem fromBytesWith_allocatesWithin {w : WireType α} {rate most : ℕ} (ht : w.Textless)
    (hrate : w.rate L + 2 ≤ rate) (hmost : w.maxContents L + max 8 (2 * w.maxLength) ≤ most)
    (maxBytes : ℕ) (resolve : α → Except Error Unit) :
    AllocatesWithin (fromBytesWithMetered L w maxBytes resolve) (fromBytesWith w maxBytes resolve)
      rate 8 most := by
  intro b tl
  refine ⟨fromBytesWithMetered_fst L w maxBytes resolve b tl, ?_⟩
  rw [fromBytesWithMetered_snd]
  split_ifs
  · exact ⟨Nat.zero_le _, Nat.zero_le _⟩
  · have hle := decodeReencodedMetered_le L w b tl
    rw [ht.displayRate, Nat.add_zero] at hle
    exact ⟨hle.trans (Nat.add_le_add_right (Nat.mul_le_mul_right _ hrate) 8),
      (decodeReencodedMetered_le_max L ht b tl).trans hmost⟩

theorem AllocatesWithin.weaken
    {metered : Bytes → ThreadLocals → (Except Error α × ThreadLocals) × ℕ}
    {fromBytes : Bytes → ThreadLocals → Except Error α × ThreadLocals}
    {rate least most rate' least' most' : ℕ} (h : AllocatesWithin metered fromBytes rate least most)
    (hrate : rate ≤ rate') (hleast : least ≤ least') (hmost : most ≤ most') :
    AllocatesWithin metered fromBytes rate' least' most' := by
  intro b tl
  obtain ⟨hfst, hle, hmax⟩ := h b tl
  exact ⟨hfst, hle.trans (Nat.add_le_add (Nat.mul_le_mul_right _ hrate) hleast),
    hmax.trans hmost⟩

/-- An algorithm code pays four bytes for its place. -/
theorem BoundedVec.place_code_le : ∀ size ≤ 2, place size 1 ≤ 4 := by decide

/-- The headers of an entry of a signature list pay 43 bytes each for its place. -/
theorem BoundedVec.place_entry_le : ∀ size ≤ 32, place size 2 ≤ 43 := by decide

theorem BoundedVec.pushedBytes_codes_le : ∀ size ≤ 2, pushedBytes size 64 ≤ 128 := by
  decide +kernel

theorem BoundedVec.pushedBytes_entries_le : ∀ size ≤ 32, pushedBytes size 4 ≤ 128 := by decide

theorem Hello.allocatesWithin (hcode : L.size .u16 ≤ 2) :
    AllocatesWithin (fromBytesMetered L) fromBytes 4 0 128 := by
  refine fun b tl => ⟨decodeExactMetered_fst L wire b tl, ?_⟩
  -- no re-encoding: what the deserialization allocates is all there is
  have hpresent := (wire.affords_present L 0 0).spent_le b (ViolationScope.enter tl)
  have hmost := (wire.affords_bounded L ⟨trivial, trivial⟩ 0).spent_le b (ViolationScope.enter tl)
  have hrate : wire.rate L = max (0 + BoundedVec.place (L.size .u16) 1) 0 := rfl
  have hmax : wire.maxContents L = 64 * 0 + BoundedVec.pushedBytes (L.size .u16) 64 + 0 := rfl
  have hplace := BoundedVec.place_code_le _ hcode
  have hpushed := BoundedVec.pushedBytes_codes_le _ hcode
  rw [Nat.zero_add, Nat.add_zero] at hpresent
  constructor
  · exact hpresent.trans (Nat.mul_le_mul_right _ (by omega))
  · exact hmost.trans (by omega)

theorem AuthInit.allocatesWithin : AllocatesWithin (fromBytesMetered L) fromBytes 3 8 6252 := by
  have hrate : wire.rate L = max 0 (max 1 (max 1 0)) := rfl
  have hmax : wire.maxContents L = 0 + (32 + (2048 + 0)) := rfl
  have hlen : wire.maxLength = 2086 := rfl
  apply fromBytesWith_allocatesWithin (w := wire) ⟨trivial, trivial, trivial, trivial⟩
  · rw [hrate]
    decide
  · rw [hmax, hlen]
    decide

theorem AuthResponse.allocatesWithin (hentry : L.size WireSignature.wire ≤ 32) :
    AllocatesWithin (fromBytesMetered L) fromBytes 46 8 7958 := by
  have hrate : wire.rate L = max 0 (max 1 (max 1 (max (max 0 (max 1 0) +
      BoundedVec.place (L.size WireSignature.wire) 2) 0))) := rfl
  have hmax : wire.maxContents L = 0 + (32 + (2048 + (4 * (0 + (128 + 0)) +
      BoundedVec.pushedBytes (L.size WireSignature.wire) 4 + 0))) := rfl
  have hlen : wire.maxLength = 2619 := rfl
  have hplace := BoundedVec.place_entry_le _ hentry
  have hpushed := BoundedVec.pushedBytes_entries_le _ hentry
  apply fromBytesWith_allocatesWithin (w := wire)
    ⟨trivial, trivial, trivial, ⟨trivial, trivial, trivial⟩, trivial⟩
  · omega
  · omega

theorem AuthConfirm.allocatesWithin (hentry : L.size WireSignature.wire ≤ 32) :
    AllocatesWithin (fromBytesMetered L) fromBytes 46 8 1706 := by
  have hrate : wire.rate L = max (max 0 (max 1 0) +
      BoundedVec.place (L.size WireSignature.wire) 2) 0 := rfl
  have hmax : wire.maxContents L = 4 * (0 + (128 + 0)) +
      BoundedVec.pushedBytes (L.size WireSignature.wire) 4 + 0 := rfl
  have hlen : wire.maxLength = 533 := rfl
  have hplace := BoundedVec.place_entry_le _ hentry
  have hpushed := BoundedVec.pushedBytes_entries_le _ hentry
  apply fromBytesWith_allocatesWithin (w := wire) ⟨⟨trivial, trivial, trivial⟩, trivial⟩
  · omega
  · omega

/-- **What the decoders of the messages allocate**, with their re-encodings, on every payload, where
a code takes two bytes in memory and an entry of a signature list at most 32. -/
theorem messages_allocate (L : Layout) (hcode : L.size .u16 ≤ 2)
    (hentry : L.size WireSignature.wire ≤ 32) :
    AllocatesWithin (Hello.fromBytesMetered L) Hello.fromBytes 4 0 128 ∧
      AllocatesWithin (AuthInit.fromBytesMetered L) AuthInit.fromBytes 3 8 6252 ∧
      AllocatesWithin (AuthResponse.fromBytesMetered L) AuthResponse.fromBytes 46 8 7958 ∧
      AllocatesWithin (AuthConfirm.fromBytesMetered L) AuthConfirm.fromBytes 46 8 1706 :=
  ⟨Hello.allocatesWithin hcode, AuthInit.allocatesWithin, AuthResponse.allocatesWithin hentry,
    AuthConfirm.allocatesWithin hentry⟩

/-- The sizes of a 64-bit target. -/
theorem messages_allocate_words64 :
    AllocatesWithin (Hello.fromBytesMetered .words64) Hello.fromBytes 4 0 128 ∧
      AllocatesWithin (AuthInit.fromBytesMetered .words64) AuthInit.fromBytes 3 8 6252 ∧
      AllocatesWithin (AuthResponse.fromBytesMetered .words64) AuthResponse.fromBytes 46 8 7958 ∧
      AllocatesWithin (AuthConfirm.fromBytesMetered .words64) AuthConfirm.fromBytes 46 8 1706 :=
  messages_allocate .words64 (le_refl 2) (le_refl 32)

/-- With the eight bytes of its re-encoding. -/
example : (AuthConfirm.fromBytesMetered .words64 [1, 1, 2, 7, 7] .fresh).2 = 138 := by decide

end Meshwarden.Proto
