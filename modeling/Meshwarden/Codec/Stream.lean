import Meshwarden.Codec.Format
import Mathlib.Data.List.TakeDrop

/-!
# Decoding units off a stream

A prefix decoder looks for one unit at the front of what has arrived so far: it finds one and says
how many bytes it takes, finds an error, or needs more input. A verdict, once given, is not changed
by the bytes that arrive later. The reference parse of a whole stream applies the decoder again and
again to all that remains; a receiver that only holds the bytes arrived so far finds the same
units, since each of its verdicts is the verdict on the whole stream.

## Main definitions

* `PrefixDecoder ε α`: a prefix decoder with stable verdicts
* `PrefixDecoder.parse`: the units of a stream, and the error that ended them, if any
* `nth`: a sequence of results that ends, read forever

## Main results

* `parse_append_some`, `parse_append_error`, `parse_none`: one verdict on what has arrived so far
  is one step of the reference parse of the stream
* `parse_flatMap_append`: the units of a concatenation of encodings
* `decode_cutShort`: a unit that is cut short
-/

namespace Codec

variable {ε α : Type}

/-- A decoder of one unit at the front of an input, with the number of bytes the unit takes; `none`
asks for more input. Verdicts are stable: later bytes do not change them. -/
structure PrefixDecoder (ε α : Type) where
  decode : Bytes → Except ε (Option (α × ℕ))
  consumed_pos : ∀ {b a n}, decode b = .ok (some (a, n)) → 0 < n
  consumed_le : ∀ {b a n}, decode b = .ok (some (a, n)) → n ≤ b.length
  decode_append : ∀ {b r}, decode b = .ok (some r) → ∀ t, decode (b ++ t) = .ok (some r)
  error_append : ∀ {b e}, decode b = .error e → ∀ t, decode (b ++ t) = .error e

namespace PrefixDecoder

variable (D : PrefixDecoder ε α)

/-- At most `k` units off the front of a stream, and the error that ended them. -/
def parseGo : ℕ → Bytes → List α × Option ε
  | 0, _ => ([], none)
  | k + 1, b =>
    match D.decode b with
    | .error e => ([], some e)
    | .ok none => ([], none)
    | .ok (some (a, n)) => (a :: (parseGo k (b.drop n)).1, (parseGo k (b.drop n)).2)

/-- **The reference parse** of a stream: its units, in order, and the error that ended them; `none`
when the rest holds no complete unit. -/
def parse (b : Bytes) : List α × Option ε := D.parseGo (b.length + 1) b

variable {D}

/-- The rest of a unit is shorter than the input it was found in. -/
theorem length_drop_lt {b : Bytes} {a : α} {n : ℕ} (h : D.decode b = .ok (some (a, n))) :
    (b.drop n).length < b.length := by
  have hp := D.consumed_pos h
  have hl := D.consumed_le h
  rw [List.length_drop]
  omega

/-- A unit takes at least one byte, so as many steps as there are bytes are enough. -/
theorem parseGo_eq_parse {k : ℕ} {b : Bytes} (h : b.length < k) : D.parseGo k b = D.parse b := by
  induction k using Nat.strongRecOn generalizing b with
  | ind k ih =>
    obtain ⟨k, rfl⟩ : ∃ m, k = m + 1 := ⟨k - 1, by omega⟩
    rw [parse, parseGo, parseGo]
    rcases hd : D.decode b with e | _ | ⟨a, n⟩
    · rfl
    · rfl
    · -- the rest is shorter, so both sides have steps enough for it
      have hn := length_drop_lt hd
      have hk : D.parseGo k (b.drop n) = D.parse (b.drop n) := ih k (by omega) (by omega)
      have hb : D.parseGo b.length (b.drop n) = D.parse (b.drop n) :=
        ih b.length (by omega) (by omega)
      simp only [hk, hb]

/-- A unit that is cut short gives no verdict yet, since a verdict would be the one on the whole
unit. -/
theorem decode_cutShort {b p : Bytes} {a : α} (h : D.decode b = .ok (some (a, b.length)))
    (hp : CutShort p b) : D.decode p = .ok none := by
  have hlt := hp.length_lt
  obtain ⟨t, ht⟩ := hp.1
  rcases hd : D.decode p with e | _ | ⟨a', n⟩
  · have he := D.error_append hd t
    rw [ht, h] at he
    cases he
  · rfl
  · have hr := D.decode_append hd t
    rw [ht, h] at hr
    obtain ⟨-, hn⟩ := Prod.mk.inj (Option.some.inj (Except.ok.inj hr))
    have hle := D.consumed_le hd
    omega

theorem parse_error {b : Bytes} {e : ε} (h : D.decode b = .error e) : D.parse b = ([], some e) := by
  rw [parse, parseGo, h]

theorem parse_none {b : Bytes} (h : D.decode b = .ok none) : D.parse b = ([], none) := by
  rw [parse, parseGo, h]

theorem parse_some {b : Bytes} {a : α} {n : ℕ} (h : D.decode b = .ok (some (a, n))) :
    D.parse b = (a :: (D.parse (b.drop n)).1, (D.parse (b.drop n)).2) := by
  rw [parse, parseGo, h]
  simp only [parseGo_eq_parse (length_drop_lt h)]

/-- An error in what has arrived so far is the error of the stream. -/
theorem parse_append_error {b : Bytes} {e : ε} (h : D.decode b = .error e) (t : Bytes) :
    D.parse (b ++ t) = ([], some e) :=
  parse_error (D.error_append h t)

/-- A unit found in what has arrived so far is the first unit of the stream, and the parse goes on
with what was buffered behind it. -/
theorem parse_append_some {b : Bytes} {a : α} {n : ℕ} (h : D.decode b = .ok (some (a, n)))
    (t : Bytes) :
    D.parse (b ++ t) = (a :: (D.parse (b.drop n ++ t)).1, (D.parse (b.drop n ++ t)).2) := by
  rw [parse_some (D.decode_append h t), List.drop_append_of_le_length (D.consumed_le h)]

/-- **The parse of a concatenation of encodings**, where the decoder finds each unit in its own
encoding, all of it: the units come first, then what stands behind them. -/
theorem parse_flatMap_append {encode : α → Bytes} {l : List α}
    (h : ∀ a ∈ l, D.decode (encode a) = .ok (some (a, (encode a).length))) (t : Bytes) :
    D.parse (l.flatMap encode ++ t) = (l ++ (D.parse t).1, (D.parse t).2) := by
  induction l with
  | nil => rfl
  | cons a l ih =>
    -- the first encoding is found whole, and dropping it leaves the others
    have hl := ih fun a ha => h a (List.mem_cons_of_mem _ ha)
    rw [List.flatMap_cons, List.append_assoc, parse_append_some (h a List.mem_cons_self),
      List.drop_length, List.nil_append, hl]
    rfl

end PrefixDecoder

/-- A sequence of results that ends, read forever: the units in order, then the ending again and
again. -/
def nth (units : List α) (ending : ε) (i : ℕ) : Except ε α :=
  match units[i]? with
  | some a => .ok a
  | none => .error ending

@[simp] theorem nth_nil (ending : ε) (i : ℕ) : nth ([] : List α) ending i = .error ending := rfl

@[simp] theorem nth_cons_zero (a : α) (l : List α) (ending : ε) :
    nth (a :: l) ending 0 = .ok a := rfl

@[simp] theorem nth_cons_succ (a : α) (l : List α) (ending : ε) (i : ℕ) :
    nth (a :: l) ending (i + 1) = nth l ending i := rfl

theorem mem_of_nth_eq_ok {units : List α} {ending : ε} {i : ℕ} {a : α}
    (h : nth units ending i = .ok a) : a ∈ units := by
  rw [nth] at h
  rcases hi : units[i]? with _ | a'
  · rw [hi] at h
    cases h
  · rw [hi] at h
    obtain rfl : a' = a := Except.ok.inj h
    exact List.mem_of_getElem? hi

end Codec
