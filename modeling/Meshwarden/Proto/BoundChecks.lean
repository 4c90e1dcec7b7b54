import Meshwarden.Proto.Bounded

/-!
# The two checks of a bounded sequence

The visitor of bounded sequences guards one bound twice: it looks at a declared count before it
decodes anything, and it counts what it has decoded. The source of the elements is arbitrary here.
It has a state, it may consume input and write the violation channel, and what it announces to
remain need not be true. The count that is kept alone decides what is accepted; a declared count can
only make the visitor refuse earlier, and one that is true never makes it refuse what would have
been accepted.

## Main definitions

* `SeqAccess.Delivers`: a source delivers a list of elements and ends
* `SeqAccess.hidden`: the same source without its size hint
* `SeqAccess.HintCorrect`: the size hint, if there is one, is the number of elements delivered

## Main results

* `BoundedVec.visitSeqLoop_eq_some_iff`: the loop accepts what is delivered within its room
* `BoundedVec.visitSeq_hidden_iff`, `BoundedVec.visitSeq_eq_some`, `BoundedVec.visitSeq_of_hint_lt`:
  the visitor, with its hint absent, and with any hint
* `BoundedVec.visitSeq_checks_agree`: the two checks agree on what is accepted
-/

namespace Meshwarden.Proto

open Codec

variable {σ α : Type} {N : ℕ}

/-! ## Sources of elements -/

namespace SeqAccess

/-- From a state, an input and a thread, the source delivers the elements of a list and then its
end, and leaves an input and a thread behind. -/
inductive Delivers (seq : SeqAccess σ α) :
    σ → Bytes → ThreadLocals → List α → Bytes → ThreadLocals → Prop
  | done {s s' : σ} {b b' : Bytes} {tl tl' : ThreadLocals}
    (h : seq.nextElement s b tl = (some ((none, s'), b'), tl')) : Delivers seq s b tl [] b' tl'
  | more {s s' : σ} {b b' b'' : Bytes} {tl tl' tl'' : ThreadLocals} {item : α} {items : List α}
    (h : seq.nextElement s b tl = (some ((some item, s'), b'), tl'))
    (rest : Delivers seq s' b' tl' items b'' tl'') :
    Delivers seq s b tl (item :: items) b'' tl''

/-- The same source, with nothing announced. -/
def hidden (seq : SeqAccess σ α) : SeqAccess σ α := { seq with sizeHint := fun _ => none }

/-- What is announced, if anything is, is the number of elements that the source delivers. -/
def HintCorrect (seq : SeqAccess σ α) (s : σ) (b : Bytes) (tl : ThreadLocals) : Prop :=
  ∀ ⦃declared items b' tl'⦄, seq.sizeHint s = some declared →
    seq.Delivers s b tl items b' tl' → declared = items.length

section Next

variable {seq : SeqAccess σ α} {s s' : σ} {b b' b'' : Bytes} {tl tl' tl'' : ThreadLocals} {item : α}
  {items : List α}

/-- Where the next element fails, nothing is delivered. -/
theorem not_delivers (h : seq.nextElement s b tl = (none, tl')) :
    ¬ seq.Delivers s b tl items b'' tl'' := by
  rintro (h' | ⟨h', -⟩) <;>
    (rw [h] at h'; cases h')

theorem delivers_of_end (h : seq.nextElement s b tl = (some ((none, s'), b'), tl')) :
    seq.Delivers s b tl items b'' tl'' ↔ items = [] ∧ b' = b'' ∧ tl' = tl'' := by
  constructor
  · rintro (h' | ⟨h', -⟩)
    · rw [h] at h'
      cases h'
      exact ⟨rfl, rfl, rfl⟩
    · rw [h] at h'
      cases h'
  · rintro ⟨rfl, rfl, rfl⟩
    exact .done h

theorem delivers_of_item (h : seq.nextElement s b tl = (some ((some item, s'), b'), tl')) :
    seq.Delivers s b tl items b'' tl'' ↔
      ∃ l, items = item :: l ∧ seq.Delivers s' b' tl' l b'' tl'' := by
  constructor
  · rintro (h' | ⟨h', hrest⟩)
    · rw [h] at h'
      cases h'
    · rw [h] at h'
      cases h'
      exact ⟨_, rfl, hrest⟩
  · rintro ⟨l, rfl, hrest⟩
    exact .more h hrest

theorem delivers_hidden_iff :
    seq.hidden.Delivers s b tl items b' tl' ↔ seq.Delivers s b tl items b' tl' := by
  constructor
  · intro h
    induction h with
    | done h => exact .done h
    | more h _ ih => exact .more h ih
  · intro h
    induction h with
    | done h => exact .done h
    | more h _ ih => exact .more h ih

end Next

end SeqAccess

/-! ## The visitor -/

namespace BoundedVec

variable {seq : SeqAccess σ α} {s : σ} {b b' : Bytes} {tl tl' : ThreadLocals} {v : BoundedVec α N}

/-- At its end the source adds nothing to the items there are. -/
theorem accept_eq_some_iff {items : List α} {hitems : items.length ≤ N} :
    (pure ⟨items, hitems⟩ : De (BoundedVec α N)) b tl = (some (v, b'), tl') ↔
      ∃ l, v.items = items ++ l ∧ l = [] ∧ b = b' ∧ tl = tl' := by
  simp only [De.pure_apply, Prod.mk.injEq, Option.some.injEq]
  constructor
  · rintro ⟨⟨rfl, hb⟩, htl⟩
    exact ⟨[], (List.append_nil _).symm, rfl, hb, htl⟩
  · rintro ⟨l, hv, rfl, hb, htl⟩
    rw [List.append_nil] at hv
    exact ⟨⟨BoundedVec.ext hv.symm, hb⟩, htl⟩

/-- **The loop accepts what is delivered within its room**: the items it has, then those. -/
theorem visitSeqLoop_eq_some_iff {room : ℕ} {items : {items : List α // items.length + room = N}} :
    visitSeqLoop seq room items s b tl = (some (v, b'), tl') ↔
      ∃ l, v.items = items.1 ++ l ∧ seq.Delivers s b tl l b' tl' := by
  -- induction on the room; the next element decides
  induction room generalizing s b tl with
  | zero =>
    rw [visitSeqLoop, De.bind_apply]
    rcases hnext : seq.nextElement s b tl with ⟨_ | ⟨⟨_ | item, s'⟩, b₁⟩, tl₁⟩
    · simp [SeqAccess.not_delivers hnext]
    · simp only [SeqAccess.delivers_of_end hnext]
      exact accept_eq_some_iff
    · -- one item too many: no vector has room for it
      simp only [SeqAccess.delivers_of_item hnext]
      constructor
      · intro h
        cases h
      · rintro ⟨-, hv, l, rfl, -⟩
        have hlen := congrArg List.length hv
        have hbound := v.bounded
        have hitems := items.2
        rw [List.length_append, List.length_cons] at hlen
        omega
  | succ room ih =>
    rw [visitSeqLoop, De.bind_apply]
    rcases hnext : seq.nextElement s b tl with ⟨_ | ⟨⟨_ | item, s'⟩, b₁⟩, tl₁⟩
    · simp [SeqAccess.not_delivers hnext]
    · simp only [SeqAccess.delivers_of_end hnext]
      exact accept_eq_some_iff
    · -- there is room for the item, and the loop goes on behind it
      simp only [SeqAccess.delivers_of_item hnext, ih, List.append_assoc, List.singleton_append]
      constructor
      · rintro ⟨l, hv, hl⟩
        exact ⟨item :: l, hv, l, rfl, hl⟩
      · rintro ⟨-, hv, l, rfl, hl⟩
        exact ⟨l, hv, hl⟩

/-- Without a hint there is only the loop. -/
theorem visitSeq_of_hint_none (h : seq.sizeHint s = none) :
    (visitSeq seq s : De (BoundedVec α N)) = visitSeqLoop seq N ⟨[], by simp⟩ s := by
  rw [visitSeq, h]

/-- A hint within the bound changes nothing. -/
theorem visitSeq_of_hint_le {declared : ℕ} (h : seq.sizeHint s = some declared)
    (hle : declared ≤ N) :
    (visitSeq seq s : De (BoundedVec α N)) = visitSeqLoop seq N ⟨[], by simp⟩ s := by
  rw [visitSeq, h]
  exact if_neg (Nat.not_lt.mpr hle)

/-- A hint over the bound is refused before any element is decoded, whatever the input is. -/
theorem visitSeq_of_hint_lt {declared : ℕ} (h : seq.sizeHint s = some declared)
    (hlt : N < declared) :
    (visitSeq seq s : De (BoundedVec α N)) = fun _ tl => (none, recordViolation declared N tl) := by
  funext b tl
  rw [visitSeq, h]
  simp only [gt_iff_lt, if_pos hlt]
  rfl

/-- With a hint that is absent or within the bound, exactly what is delivered is accepted. -/
theorem visitSeq_eq_some_iff (h : ∀ declared, seq.sizeHint s = some declared → declared ≤ N) :
    visitSeq seq s b tl = (some (v, b'), tl') ↔ seq.Delivers s b tl v.items b' tl' := by
  have hloop : (visitSeq seq s : De (BoundedVec α N)) = visitSeqLoop seq N ⟨[], by simp⟩ s := by
    rcases hd : seq.sizeHint s with _ | declared
    · exact visitSeq_of_hint_none hd
    · exact visitSeq_of_hint_le hd (h declared hd)
  rw [hloop, visitSeqLoop_eq_some_iff]
  simp

/-- **Soundness, with any hint**: what is accepted was delivered, all of it and in order. -/
theorem delivers_of_visitSeq (h : visitSeq seq s b tl = (some (v, b'), tl')) :
    seq.Delivers s b tl v.items b' tl' := by
  apply (visitSeq_eq_some_iff _).mp h
  intro declared hd
  by_contra hlt
  rw [visitSeq_of_hint_lt hd (Nat.lt_of_not_le hlt)] at h
  cases h

/-- **A correct hint changes nothing** about what is accepted and as which value. -/
theorem visitSeq_hidden_iff (hint : seq.HintCorrect s b tl) :
    visitSeq seq s b tl = (some (v, b'), tl') ↔
      visitSeq seq.hidden s b tl = (some (v, b'), tl') := by
  have hidden : visitSeq seq.hidden s b tl = (some (v, b'), tl') ↔
      seq.Delivers s b tl v.items b' tl' := by
    rw [visitSeq_eq_some_iff (fun declared hd => by cases hd), SeqAccess.delivers_hidden_iff]
  rw [hidden]
  constructor
  · exact delivers_of_visitSeq
  · intro h
    apply (visitSeq_eq_some_iff _).mpr h
    intro declared hd
    rw [hint hd h]
    exact v.bounded

/-- A counted sequence of the payload codec: a count over the bound is refused on the count. -/
theorem deserialize_of_count_lt {item : De α} {c : Bytes} {n : ℕ} (hc : Leb128.Groups c n)
    (hlen : c.length ≤ Leb128.maxGroups lengthBits) (hn : n < 2 ^ lengthBits) (hlt : N < n)
    (r : Bytes) (tl : ThreadLocals) :
    (deserialize item : De (BoundedVec α N)) (c ++ r) tl = (none, recordViolation n N tl) := by
  have hread : Leb128.read (none : Option Violation) lengthBits (c ++ r) = .ok (n, r) :=
    (Leb128.read_eq_ok_iff lengthBits_mod none).mpr ⟨c, rfl, hc, hlen, hn⟩
  have hcount : Postcard.tryTakeVarint lengthBits (c ++ r) tl = (some (n, r), tl) := by
    rw [Postcard.tryTakeVarint_eq, De.ofReading, hread]
  rw [deserialize, Postcard.deserializeSeq, De.bind_some hcount, visitSeq_of_hint_lt rfl hlt]

/-- **The two checks agree.** From any source, the visitor accepts only what is delivered, all of it
and in order, and never more than the bound. With the hint absent it accepts exactly the deliveries
of at most `N` elements; with a correct hint it accepts the same ones with the same value. A hint
over the bound is refused without looking at the elements, so that a counted sequence is refused
whatever stands behind its count. -/
theorem visitSeq_checks_agree (seq : SeqAccess σ α) (s : σ) (b : Bytes) (tl : ThreadLocals)
    (N : ℕ) :
    (∀ (v : BoundedVec α N) b' tl', visitSeq seq s b tl = (some (v, b'), tl') →
        seq.Delivers s b tl v.items b' tl' ∧ v.items.length ≤ N) ∧
      (seq.sizeHint s = none → ∀ items b' tl',
        (∃ v : BoundedVec α N, v.items = items ∧ visitSeq seq s b tl = (some (v, b'), tl')) ↔
          seq.Delivers s b tl items b' tl' ∧ items.length ≤ N) ∧
      (seq.HintCorrect s b tl → ∀ (v : BoundedVec α N) b' tl',
        visitSeq seq s b tl = (some (v, b'), tl') ↔
          visitSeq seq.hidden s b tl = (some (v, b'), tl')) ∧
      (∀ declared, seq.sizeHint s = some declared → N < declared →
        ∀ b tl, (visitSeq seq s : De (BoundedVec α N)) b tl =
          (none, recordViolation declared N tl)) ∧
      ∀ (item : De α) c n, Leb128.Groups c n → c.length ≤ Leb128.maxGroups lengthBits →
        n < 2 ^ lengthBits → N < n → ∀ r tl,
          (deserialize item : De (BoundedVec α N)) (c ++ r) tl =
            (none, recordViolation n N tl) := by
  refine ⟨fun v b' tl' h => ⟨delivers_of_visitSeq h, v.bounded⟩, ?_,
    fun hint v b' tl' => visitSeq_hidden_iff hint, ?_,
    fun item c n hc hlen hn hlt => deserialize_of_count_lt hc hlen hn hlt⟩
  · intro h items b' tl'
    constructor
    · rintro ⟨v, rfl, hv⟩
      exact ⟨delivers_of_visitSeq hv, v.bounded⟩
    · rintro ⟨hd, hle⟩
      refine ⟨⟨items, hle⟩, rfl, (visitSeq_eq_some_iff ?_).mpr hd⟩
      intro declared hdec
      rw [h] at hdec
      cases hdec
  · intro declared h hlt b tl
    rw [visitSeq_of_hint_lt h hlt]

end BoundedVec

end Meshwarden.Proto
