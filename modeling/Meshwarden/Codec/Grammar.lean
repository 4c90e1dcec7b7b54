import Meshwarden.Codec.Sequence

/-!
# Grammars

What stands at the front of an input can be said without reading it: which value is there and what
follows it, or, where no complete value is there, the cause of the first point at which reading
cannot continue. A grammar says both. A format follows a grammar when its reading gives exactly what
the grammar says.

## Main definitions

* `Leb128.Stands bits b n s`: `b` begins with groups of the number `n`, then `s`
* `Grammar ε α`: `Reads` for complete values, `Stops` for the first point of failure
* `Grammar.unit`, `Grammar.byte`, `Grammar.varint`, `Grammar.pair`, `Grammar.imap`,
  `Grammar.bytesUpTo`, `Grammar.seqUpTo`, `Grammar.text`
* `Format.Follows f g`

## Main results

* `Format.Follows.unit` to `Format.Follows.text`: each format follows the grammar of its name
-/

namespace Codec

variable {ε α β : Type}

/-! ## Numbers -/

/-- `b` begins with a complete sequence of groups of the number `n`, no longer than the numbers of
`bits` bits take and with a value in their range; `s` follows. -/
def Leb128.Stands (bits : ℕ) (b : Bytes) (n : ℕ) (s : Bytes) : Prop :=
  ∃ c, b = c ++ s ∧ Leb128.Groups c n ∧ c.length ≤ Leb128.maxGroups bits ∧ n < 2 ^ bits

theorem Leb128.read_error_iff {bits : ℕ} (hbits : bits % 7 ≠ 0) (short : ε) {b : Bytes} {e : ε} :
    Leb128.read short bits b = .error e ↔ (∀ n s, ¬ Leb128.Stands bits b n s) ∧ e = short := by
  constructor
  · intro h
    refine ⟨?_, Leb128.read_error short h⟩
    intro n s hs
    rw [(Leb128.read_eq_ok_iff hbits short).mpr hs] at h
    cases h
  · rintro ⟨hn, rfl⟩
    rcases hr : Leb128.read e bits b with e' | ⟨n, s⟩
    · exact congrArg Except.error (Leb128.read_error e hr)
    · exact absurd ((Leb128.read_eq_ok_iff hbits e).mp hr) (hn n s)

/-! ## Grammars -/

/-- What stands at the front of an input. -/
structure Grammar (ε α : Type) where
  /-- A complete value, and what follows it. -/
  Reads : Bytes → α → Bytes → Prop
  /-- No complete value: the cause of the first point where reading cannot continue. -/
  Stops : Bytes → ε → Prop

namespace Grammar

/-- Nothing. -/
def unit : Grammar ε Unit where
  Reads b _ s := b = s
  Stops _ _ := False

/-- One byte. -/
def byte (short : ε) : Grammar ε UInt8 where
  Reads b x s := b = x :: s
  Stops b e := b = [] ∧ e = short

/-- A number of a type of `bits` bits: reading stops where the input ends inside a sequence of
groups, or where the sequence is too wide for the type. -/
def varint (short : ε) (bits : ℕ) (toNat : α → ℕ) : Grammar ε α where
  Reads b a s := Leb128.Stands bits b (toNat a) s
  Stops b e := (∀ n s, ¬ Leb128.Stands bits b n s) ∧ e = short

/-- One field after another. -/
def pair (f : Grammar ε α) (g : Grammar ε β) : Grammar ε (α × β) where
  Reads b p s := ∃ r, f.Reads b p.1 r ∧ g.Reads r p.2 s
  Stops b e := f.Stops b e ∨ ∃ a r, f.Reads b a r ∧ g.Stops r e

/-- A type presented by another. -/
def imap (e : α ≃ β) (f : Grammar ε β) : Grammar ε α where
  Reads b a s := f.Reads b (e a) s
  Stops b c := f.Stops b c

/-- A byte string of at most `N` bytes. A length over the bound is a cause of its own only where all
the bytes it declares are there. -/
def bytesUpTo (short : ε) (tooMany : ℕ → ε) (N : ℕ) : Grammar ε {l : Bytes // l.length ≤ N} where
  Reads b l s := Leb128.Stands lengthBits b l.1.length (l.1 ++ s)
  Stops b e :=
    (∀ n r, ¬ Leb128.Stands lengthBits b n r) ∧ e = short ∨
      ∃ n r, Leb128.Stands lengthBits b n r ∧
        (r.length < n ∧ e = short ∨ n ≤ r.length ∧ N < n ∧ e = tooMany n)

/-- Values one after the other. -/
def Many (Reads : Bytes → α → Bytes → Prop) : Bytes → List α → Bytes → Prop
  | b, [], s => b = s
  | b, a :: l, s => ∃ r, Reads b a r ∧ Many Reads r l s

/-- A sequence of at most `N` elements. A count over the bound is a cause of its own whatever
follows it; below the bound, reading stops at the first element that is not complete. -/
def seqUpTo (short : ε) (tooMany : ℕ → ε) (N : ℕ) (f : Grammar ε α) :
    Grammar ε {l : List α // l.length ≤ N} where
  Reads b l s := ∃ r, Leb128.Stands lengthBits b l.1.length r ∧ Many f.Reads r l.1 s
  Stops b e :=
    (∀ n r, ¬ Leb128.Stands lengthBits b n r) ∧ e = short ∨
      ∃ n r, Leb128.Stands lengthBits b n r ∧
        (N < n ∧ e = tooMany n ∨
          n ≤ N ∧ ∃ l s, l.length < n ∧ Many f.Reads r l s ∧ f.Stops s e)

/-- A value written as its text: reading stops where no byte string is there, or where its bytes are
not a text of the spelling. -/
def text (short : ε) (t : TextForm α) : Grammar ε α where
  Reads b a s := Leb128.Stands lengthBits b (utf8 (t.display a)).length (utf8 (t.display a) ++ s)
  Stops b e :=
    ((∀ n r, ¬ Leb128.Stands lengthBits b n r) ∨
      ∃ n r, Leb128.Stands lengthBits b n r ∧
        (r.length < n ∨ n ≤ r.length ∧ ∀ a, r.take n ≠ utf8 (t.display a))) ∧ e = short

end Grammar

/-! ## Formats that follow a grammar -/

namespace Format

/-- **A format that follows a grammar**: what it reads is what stands there, and where it stops it
gives the cause. -/
structure Follows (f : Format ε α) (g : Grammar ε α) : Prop where
  ok_iff : ∀ {b a s}, f.read b = .ok (a, s) ↔ g.Reads b a s
  error_iff : ∀ {b e}, f.read b = .error e ↔ g.Stops b e

theorem Follows.unit : (Format.unit : Format ε Unit).Follows Grammar.unit where
  ok_iff := by simp [Format.unit, Grammar.unit]
  error_iff := by simp [Format.unit, Grammar.unit]

theorem Follows.byte (short : ε) : (Format.byte short).Follows (Grammar.byte short) where
  ok_iff {b x s} := by rcases b with _ | ⟨y, b⟩ <;> simp [Format.byte, Grammar.byte]
  error_iff {b e} := by
    rcases b with _ | ⟨y, b⟩ <;> simp [Format.byte, Grammar.byte, eq_comm]

theorem Follows.varint (short : ε) {bits : ℕ} (hbits : bits % 7 ≠ 0) {toNat : α → ℕ} {ofNat : ℕ → α}
    (hto : ∀ n, n < 2 ^ bits → toNat (ofNat n) = n) (hof : ∀ a, ofNat (toNat a) = a) :
    (Format.varint short bits toNat ofNat).Follows (Grammar.varint short bits toNat) where
  ok_iff {b a s} := by
    rw [varint_read_eq_ok_iff]
    constructor
    · rintro ⟨n, hr, rfl⟩
      have hs := (Leb128.read_eq_ok_iff hbits short).mp hr
      -- the number fits the type, so nothing is lost in it
      obtain ⟨c, -, -, -, hn⟩ := id hs
      simp only [Grammar.varint, hto n hn]
      exact hs
    · intro hs
      exact ⟨toNat a, (Leb128.read_eq_ok_iff hbits short).mpr hs, hof a⟩
  error_iff {b e} := by
    simp only [Format.varint, Grammar.varint, ← Leb128.read_error_iff hbits short]
    rcases Leb128.read short bits b with e' | ⟨n, r⟩ <;> simp

theorem Follows.pair {f : Format ε α} {g : Format ε β} {f' : Grammar ε α} {g' : Grammar ε β}
    (hf : f.Follows f') (hg : g.Follows g') : (f.pair g).Follows (f'.pair g') where
  ok_iff {b p s} := by simp only [pair_read_eq_ok_iff, Grammar.pair, hf.ok_iff, hg.ok_iff]
  error_iff {b e} := by
    simp only [pair_read_eq_error_iff, Grammar.pair, hf.error_iff, hf.ok_iff, hg.error_iff]

theorem Follows.imap (e : α ≃ β) {f : Format ε β} {f' : Grammar ε β} (hf : f.Follows f') :
    (Format.imap e f).Follows (Grammar.imap e f') where
  ok_iff := imap_read_eq_ok_iff.trans hf.ok_iff
  error_iff {b c} := by
    simp only [Grammar.imap, ← hf.error_iff, Format.imap]
    rcases f.read b with c' | ⟨x, r⟩ <;> simp

end Format

/-! ## Length-prefixed fields -/

theorem readBytes_eq_ok_iff (short : ε) {b l s : Bytes} :
    readBytes short b = .ok (l, s) ↔ Leb128.Stands lengthBits b l.length (l ++ s) := by
  constructor
  · intro h
    obtain ⟨n, r, hr, rfl, rfl⟩ := readBytes_ok h
    exact (Leb128.read_eq_ok_iff lengthBits_mod short).mp hr
  · intro h
    simp only [readBytes, (Leb128.read_eq_ok_iff lengthBits_mod short).mpr h]
    rw [if_neg (by simp)]
    simp

theorem readBytes_eq_error_iff (short : ε) {b : Bytes} {e : ε} :
    readBytes short b = .error e ↔
      ((∀ n r, ¬ Leb128.Stands lengthBits b n r) ∨
        ∃ n r, Leb128.Stands lengthBits b n r ∧ r.length < n) ∧ e = short := by
  rw [or_and_right, ← Leb128.read_error_iff lengthBits_mod short]
  simp only [Leb128.Stands, ← Leb128.read_eq_ok_iff lengthBits_mod short, readBytes]
  rcases Leb128.read short lengthBits b with e' | ⟨n, r⟩
  · simp
  · by_cases hn : r.length < n
    · simp [hn, eq_comm]
    · simp [hn]

theorem readMany_eq_ok_iff {f : Format ε α} {g : Grammar ε α} (h : f.Follows g) {n : ℕ}
    {b s : Bytes} {l : {l : List α // l.length = n}} :
    readMany f.read n b = .ok (l, s) ↔ Grammar.Many g.Reads b l.1 s := by
  induction n generalizing b with
  | zero =>
    obtain ⟨l, hl⟩ := l
    obtain rfl := List.eq_nil_of_length_eq_zero hl
    simp [readMany, Grammar.Many]
  | succ n ih =>
    obtain ⟨_ | ⟨a, l⟩, hl⟩ := l
    · cases hl
    · rw [readMany_succ_eq_ok_iff, Grammar.Many]
      constructor
      · rintro ⟨a', r, l', ha, hl', he⟩
        obtain ⟨rfl, rfl⟩ := List.cons.inj he
        exact ⟨r, h.ok_iff.mp ha, ih.mp hl'⟩
      · rintro ⟨r, ha, hl'⟩
        exact ⟨a, r, ⟨l, Nat.succ.inj hl⟩, h.ok_iff.mpr ha, ih.mpr hl', rfl⟩

theorem readMany_eq_error_iff {f : Format ε α} {g : Grammar ε α} (h : f.Follows g) {n : ℕ}
    {b : Bytes} {e : ε} :
    readMany f.read n b = .error e ↔
      ∃ l s, l.length < n ∧ Grammar.Many g.Reads b l s ∧ g.Stops s e := by
  -- induction on the elements still to come
  induction n generalizing b with
  | zero => simp [readMany]
  | succ n ih =>
    simp only [readMany]
    constructor
    · intro he
      split at he
      · rename_i e' ha
        -- the first element is not complete
        exact ⟨[], b, Nat.succ_pos n, rfl, h.error_iff.mp (ha.trans (by rw [Except.error.inj he]))⟩
      · rename_i a r ha
        split at he
        · rename_i e' hr
          -- the first element is complete: the failing one is among the others
          obtain ⟨l, s, hl, hm, hs⟩ := ih.mp (hr.trans (by rw [Except.error.inj he]))
          exact ⟨a :: l, s, Nat.succ_lt_succ hl, ⟨r, h.ok_iff.mp ha, hm⟩, hs⟩
        · cases he
    · rintro ⟨_ | ⟨a, l⟩, s, hl, hm, hs⟩
      · obtain rfl : b = s := hm
        simp only [h.error_iff.mpr hs]
      · obtain ⟨r, ha, hm⟩ := hm
        have hr := ih.mpr ⟨l, s, Nat.lt_of_succ_lt_succ hl, hm, hs⟩
        simp only [h.ok_iff.mpr ha, hr]

namespace Format

theorem Follows.bytesUpTo (short : ε) (tooMany : ℕ → ε) (N : ℕ) :
    (Format.bytesUpTo short tooMany N).Follows (Grammar.bytesUpTo short tooMany N) where
  ok_iff := bytesUpTo_read_eq_ok_iff.trans (readBytes_eq_ok_iff short)
  error_iff {b e} := by
    simp only [Format.bytesUpTo, Grammar.bytesUpTo]
    constructor
    · intro h
      split at h
      · rename_i e' hr
        obtain rfl := Except.error.inj h
        -- no length, or too few bytes behind it
        obtain ⟨hn | ⟨n, r, hn, hlt⟩, rfl⟩ := (readBytes_eq_error_iff short).mp hr
        · exact Or.inl ⟨hn, rfl⟩
        · exact Or.inr ⟨n, r, hn, Or.inl ⟨hlt, rfl⟩⟩
      · rename_i l r hr
        split_ifs at h with hl
        -- all the bytes are there, and they are too many
        have hs := (readBytes_eq_ok_iff short).mp hr
        exact Or.inr ⟨l.length, l ++ r, hs, Or.inr
          ⟨by simp, Nat.lt_of_not_le hl, (Except.error.inj h).symm⟩⟩
    · rintro (⟨hn, rfl⟩ | ⟨n, r, hn, ⟨hlt, rfl⟩ | ⟨hle, hN, rfl⟩⟩)
      · simp only [(readBytes_eq_error_iff e).mpr ⟨Or.inl hn, rfl⟩]
      · simp only [(readBytes_eq_error_iff e).mpr ⟨Or.inr ⟨n, r, hn, hlt⟩, rfl⟩]
      · -- the bytes can be taken, so the bound is looked at
        have hl : (r.take n).length = n := List.length_take_of_le hle
        have hr : readBytes short b = .ok (r.take n, r.drop n) := by
          rw [readBytes_eq_ok_iff, hl, List.take_append_drop]
          exact hn
        simp only [hr, hl, dif_neg (Nat.not_le_of_lt hN)]

theorem Follows.seqUpTo (short : ε) (tooMany : ℕ → ε) (N : ℕ) {f : Format ε α} {g : Grammar ε α}
    (h : f.Follows g) :
    (Format.seqUpTo short tooMany N f).Follows (Grammar.seqUpTo short tooMany N g) where
  ok_iff {b l s} := by
    simp only [seqUpTo_read_eq_ok_iff, Grammar.seqUpTo, Leb128.Stands,
      ← Leb128.read_eq_ok_iff lengthBits_mod short, readMany_eq_ok_iff h]
  error_iff {b e} := by
    simp only [Format.seqUpTo, Grammar.seqUpTo, ← Leb128.read_error_iff lengthBits_mod short]
    simp only [Leb128.Stands, ← Leb128.read_eq_ok_iff lengthBits_mod short,
      ← readMany_eq_error_iff h]
    constructor
    · intro he
      split at he
      · rename_i e' hr
        -- no count
        exact Or.inl (hr.trans (by rw [Except.error.inj he]))
      · rename_i n r hr
        refine Or.inr ⟨n, r, hr, ?_⟩
        split_ifs at he with hn
        · split at he
          · rename_i e' hm
            exact Or.inr ⟨hn, hm.trans (by rw [Except.error.inj he])⟩
          · cases he
        · exact Or.inl ⟨Nat.lt_of_not_le hn, (Except.error.inj he).symm⟩
    · rintro (hr | ⟨n, r, hr, ⟨hN, rfl⟩ | ⟨hn, hm⟩⟩)
      · simp only [hr]
      · simp only [hr, dif_neg (Nat.not_le_of_lt hN)]
      · simp only [hr, dif_pos hn, hm]

theorem Follows.text (short : ε) (t : TextForm α) :
    (Format.text short t).Follows (Grammar.text short t) where
  ok_iff := text_read_eq_ok_iff.trans (readBytes_eq_ok_iff short)
  error_iff {b e} := by
    simp only [Format.text, Grammar.text]
    constructor
    · intro h
      split at h
      · rename_i e' hr
        obtain rfl := Except.error.inj h
        obtain ⟨hn | ⟨n, r, hn, hlt⟩, rfl⟩ := (readBytes_eq_error_iff short).mp hr
        · exact ⟨Or.inl hn, rfl⟩
        · exact ⟨Or.inr ⟨n, r, hn, Or.inl hlt⟩, rfl⟩
      · rename_i l r hr
        split at h
        · rename_i ha
          -- the bytes are there; if they were the text of a value, it would have been parsed
          refine ⟨Or.inr ⟨l.length, l ++ r, (readBytes_eq_ok_iff short).mp hr, Or.inr
            ⟨by simp, fun a hl => ?_⟩⟩, (Except.error.inj h).symm⟩
          rw [List.take_left] at hl
          rw [hl, fromUtf8_utf8, Option.bind_some, t.parse_display] at ha
          cases ha
        · cases h
    · rintro ⟨hn | ⟨n, r, hn, hlt | ⟨hle, ha⟩⟩, rfl⟩
      · simp only [(readBytes_eq_error_iff e).mpr ⟨Or.inl hn, rfl⟩]
      · simp only [(readBytes_eq_error_iff e).mpr ⟨Or.inr ⟨n, r, hn, hlt⟩, rfl⟩]
      · have hr : readBytes e b = .ok (r.take n, r.drop n) := by
          rw [readBytes_eq_ok_iff, List.length_take_of_le hle, List.take_append_drop]
          exact hn
        -- bytes that are no text of the spelling are not parsed
        have hp : (fromUtf8 (r.take n)).bind t.parse = none := by
          rcases hl : (fromUtf8 (r.take n)).bind t.parse with _ | a
          · rfl
          · obtain ⟨text, hl, ht⟩ := Option.bind_eq_some_iff.mp hl
            exact absurd (utf8_of_fromUtf8 hl).symm (t.display_parse ht ▸ ha a)
        simp only [hr, hp]

end Format

end Codec
