import Meshwarden.Codec.Varint
import Mathlib.Data.List.TakeDrop

/-!
# Length-prefixed fields

A byte string is its length followed by its bytes, a sequence is its count followed by its
elements, and a text is the byte string of its UTF-8 form. Lengths and counts are LEB128 numbers of
64 bits. Both bounded formats refuse a declared number above the bound with a cause of its own, but
not at the same moment: a sequence before any element is read, a byte string once the declared
bytes are known to be there.

## Main definitions

* `Format.bytesUpTo short tooMany N`: byte strings of at most `N` bytes
* `Format.seqUpTo short tooMany N f`: sequences of at most `N` elements of the format `f`
* `utf8`, `fromUtf8`: a string and its UTF-8 form
* `TextForm α`: a one-to-one spelling of the values of `α`
* `Format.text short t`: values written as their texts

## Main results

* `Format.Lawful.bytesUpTo`, `Format.Lawful.seqUpTo`, `Format.Lawful.text`
* `Format.bytesUpTo_read_eq_ok_iff`, `Format.seqUpTo_read_eq_ok_iff`,
  `Format.text_read_eq_ok_iff`: what they read
* `SelfDelimiting.counted`, `selfDelimiting_bytes`: the writings, at any length
-/

namespace Codec

variable {ε α : Type}

/-- The number of bits of a length or a count. -/
def lengthBits : ℕ := 64

theorem lengthBits_mod : lengthBits % 7 ≠ 0 := by decide

/-! ## Byte strings -/

/-- A byte string: its length, then its bytes. -/
def writeBytes (l : Bytes) : Bytes := Leb128.encode l.length ++ l

/-- Take the bytes of a byte string: its length, then that many bytes. -/
def readBytes (short : ε) : Reading ε Bytes := fun b =>
  match Leb128.read short lengthBits b with
  | .error e => .error e
  | .ok (n, b) => if b.length < n then .error short else .ok (b.take n, b.drop n)

theorem selfDelimiting_bytes : SelfDelimiting writeBytes := by
  intro l l' s s' he
  simp only [writeBytes, List.append_assoc] at he
  obtain ⟨hl, hb⟩ := Leb128.selfDelimiting_encode he
  exact List.append_inj hb hl

theorem length_writeBytes_le {l : Bytes} {N : ℕ} (h : l.length ≤ N) :
    (writeBytes l).length ≤ (Leb128.encode N).length + N := by
  rw [writeBytes, List.length_append]
  exact Nat.add_le_add (Leb128.length_encode_mono h) h

theorem readBytes_write (short : ε) {l : Bytes} (hl : l.length < 2 ^ lengthBits) (s : Bytes) :
    readBytes short (writeBytes l ++ s) = .ok (l, s) := by
  simp only [readBytes, writeBytes, List.append_assoc,
    Leb128.read_encode lengthBits_mod short hl]
  rw [if_neg (by simp)]
  simp

theorem readBytes_cutShort (short : ε) {l p : Bytes} (hl : l.length < 2 ^ lengthBits)
    (hp : CutShort p (writeBytes l)) : readBytes short p = .error short := by
  rcases cutShort_append hp with hp | ⟨q, rfl, hq⟩
  · -- the length itself is cut short
    simp only [readBytes, Leb128.read_cutShort short hp]
  · -- fewer bytes follow than the length declares
    simp only [readBytes, Leb128.read_encode lengthBits_mod short hl, if_pos hq.length_lt]

theorem readBytes_ok {short : ε} {b l s : Bytes} (h : readBytes short b = .ok (l, s)) :
    ∃ n r, Leb128.read short lengthBits b = .ok (n, r) ∧ r = l ++ s ∧ n = l.length := by
  unfold readBytes at h
  split at h
  · cases h
  · rename_i n r hr
    split_ifs at h with hn
    obtain ⟨rfl, rfl⟩ := Prod.mk.inj (Except.ok.inj h)
    exact ⟨n, r, hr, (List.take_append_drop n r).symm, by simp; omega⟩

theorem readBytes_error {short e : ε} {b : Bytes} (h : readBytes short b = .error e) :
    e = short := by
  unfold readBytes at h
  split at h
  · rename_i e' he
    obtain rfl := Except.error.inj h
    exact Leb128.read_error short he
  · split_ifs at h
    exact (Except.error.inj h).symm

namespace Format

/-- Byte strings of at most `N` bytes. The bytes are taken before the bound is checked, so a
declared length is only reported as over the bound when all its bytes are there. -/
def bytesUpTo (short : ε) (tooMany : ℕ → ε) (N : ℕ) : Format ε {l : Bytes // l.length ≤ N} where
  write l := writeBytes l.1
  read b :=
    match readBytes short b with
    | .error e => .error e
    | .ok (l, b) => if h : l.length ≤ N then .ok (⟨l, h⟩, b) else .error (tooMany l.length)

theorem bytesUpTo_read_eq_ok_iff {short : ε} {tooMany : ℕ → ε} {N : ℕ} {b s : Bytes}
    {l : {l : Bytes // l.length ≤ N}} :
    (bytesUpTo short tooMany N).read b = .ok (l, s) ↔ readBytes short b = .ok (l.1, s) := by
  simp only [Format.bytesUpTo]
  constructor
  · intro h
    split at h
    · cases h
    · rename_i l' r hr
      split_ifs at h
      obtain ⟨rfl, rfl⟩ := Prod.mk.inj (Except.ok.inj h)
      exact hr
  · intro hr
    simp only [hr, dif_pos l.2]

theorem Lawful.bytesUpTo (short : ε) (tooMany : ℕ → ε) {N : ℕ} (hN : N < 2 ^ lengthBits) :
    (Format.bytesUpTo short tooMany N).Lawful short where
  read_write l s := by
    simp only [Format.bytesUpTo, readBytes_write short (l.2.trans_lt hN), dif_pos l.2]
  read_cutShort l p hp := by
    simp only [Format.bytesUpTo, readBytes_cutShort short (l.2.trans_lt hN) hp]

end Format

/-! ## Sequences -/

/-- The elements of a sequence one after the other. -/
def writeMany (write : α → Bytes) (l : List α) : Bytes := l.flatMap write

/-- A sequence: its count, then its elements. -/
def writeSeq (write : α → Bytes) (l : List α) : Bytes :=
  Leb128.encode l.length ++ writeMany write l

/-- Read `n` elements. -/
def readMany (read : Reading ε α) : (n : ℕ) → Reading ε {l : List α // l.length = n}
  | 0, b => .ok (⟨[], rfl⟩, b)
  | n + 1, b =>
    match read b with
    | .error e => .error e
    | .ok (a, b) =>
      match readMany read n b with
      | .error e => .error e
      | .ok (l, b) => .ok (⟨a :: l.1, by rw [List.length_cons, l.2]⟩, b)

/-- One element more is read: the first one, then the others. -/
theorem readMany_succ_eq_ok_iff {read : Reading ε α} {n : ℕ} {b s : Bytes}
    {l : {l : List α // l.length = n + 1}} :
    readMany read (n + 1) b = .ok (l, s) ↔
      ∃ a r l', read b = .ok (a, r) ∧ readMany read n r = .ok (l', s) ∧ l.1 = a :: l'.1 := by
  rw [readMany]
  constructor
  · intro h
    split at h
    · cases h
    · rename_i a r ha
      split at h
      · cases h
      · rename_i l' t hl
        obtain ⟨rfl, rfl⟩ := Prod.mk.inj (Except.ok.inj h)
        exact ⟨a, r, l', ha, hl, rfl⟩
  · rintro ⟨a, r, l', ha, hl, he⟩
    simp only [ha, hl, ← he]

theorem selfDelimiting_many {write : α → Bytes} (h : SelfDelimiting write) :
    ∀ {l l' : List α} {s s' : Bytes}, l.length = l'.length →
      writeMany write l ++ s = writeMany write l' ++ s' → l = l' ∧ s = s'
  | [], [], _, _, _, he => ⟨rfl, he⟩
  | a :: l, a' :: l', s, s', hl, he => by
    simp only [writeMany, List.flatMap_cons, List.append_assoc] at he
    obtain ⟨rfl, hb⟩ := h he
    obtain ⟨rfl, hs⟩ := selfDelimiting_many h (Nat.succ.inj hl) hb
    exact ⟨rfl, hs⟩

/-- Sequences are self-delimiting when their elements are, at any length. -/
theorem SelfDelimiting.counted {write : α → Bytes} (h : SelfDelimiting write) :
    SelfDelimiting (writeSeq write) := by
  intro l l' s s' he
  simp only [writeSeq, List.append_assoc] at he
  obtain ⟨hl, hb⟩ := Leb128.selfDelimiting_encode he
  exact selfDelimiting_many h hl hb

theorem length_writeMany_le {write : α → Bytes} {m : ℕ} (hm : ∀ a, (write a).length ≤ m)
    (l : List α) : (writeMany write l).length ≤ l.length * m := by
  induction l with
  | nil => simp [writeMany]
  | cons a l ih =>
    rw [writeMany, List.flatMap_cons, List.length_append, List.length_cons, Nat.succ_mul,
      Nat.add_comm]
    exact Nat.add_le_add ih (hm a)

theorem length_writeSeq_le {write : α → Bytes} {l : List α} {N m : ℕ} (hl : l.length ≤ N)
    (hm : ∀ a, (write a).length ≤ m) :
    (writeSeq write l).length ≤ (Leb128.encode N).length + N * m := by
  rw [writeSeq, List.length_append]
  exact Nat.add_le_add (Leb128.length_encode_mono hl)
    ((length_writeMany_le hm l).trans (Nat.mul_le_mul_right m hl))

theorem readMany_write {f : Format ε α} {short : ε} (h : f.Lawful short) (l : List α) (s : Bytes) :
    readMany f.read l.length (writeMany f.write l ++ s) = .ok (⟨l, rfl⟩, s) := by
  induction l with
  | nil => rfl
  | cons a l ih =>
    simp only [writeMany, List.flatMap_cons, List.append_assoc, List.length_cons, readMany,
      h.read_write] at ih ⊢
    simp only [ih]

theorem readMany_cutShort {f : Format ε α} {short : ε} (h : f.Lawful short) {l : List α}
    {p : Bytes} (hp : CutShort p (writeMany f.write l)) :
    readMany f.read l.length p = .error short := by
  induction l generalizing p with
  | nil => exact (not_cutShort_nil _ hp).elim
  | cons a l ih =>
    simp only [writeMany, List.flatMap_cons] at hp
    simp only [List.length_cons, readMany]
    rcases cutShort_append hp with hp | ⟨q, rfl, hq⟩
    · simp only [h.read_cutShort a p hp]
    · simp only [h.read_write, ih hq]

namespace Format

/-- Sequences of at most `N` elements. A declared count over the bound is refused before any
element is read, whatever follows it. -/
def seqUpTo (short : ε) (tooMany : ℕ → ε) (N : ℕ) (f : Format ε α) :
    Format ε {l : List α // l.length ≤ N} where
  write l := writeSeq f.write l.1
  read b :=
    match Leb128.read short lengthBits b with
    | .error e => .error e
    | .ok (n, b) =>
      if h : n ≤ N then
        match readMany f.read n b with
        | .error e => .error e
        | .ok (l, b) => .ok (⟨l.1, l.2.trans_le h⟩, b)
      else .error (tooMany n)

theorem seqUpTo_read_eq_ok_iff {short : ε} {tooMany : ℕ → ε} {N : ℕ} {f : Format ε α}
    {b s : Bytes} {l : {l : List α // l.length ≤ N}} :
    (seqUpTo short tooMany N f).read b = .ok (l, s) ↔
      ∃ r, Leb128.read short lengthBits b = .ok (l.1.length, r) ∧
        readMany f.read l.1.length r = .ok (⟨l.1, rfl⟩, s) := by
  simp only [Format.seqUpTo]
  constructor
  · intro h
    split at h
    · cases h
    · rename_i n r hr
      split_ifs at h
      split at h
      · cases h
      · rename_i l' t hl
        obtain ⟨rfl, rfl⟩ := Prod.mk.inj (Except.ok.inj h)
        -- the elements that were read are as many as were counted
        obtain ⟨l', rfl⟩ := l'
        exact ⟨r, hr, hl⟩
  · rintro ⟨r, hr, hl⟩
    simp only [hr, dif_pos l.2, hl]

theorem Lawful.seqUpTo {short : ε} (tooMany : ℕ → ε) {N : ℕ} (hN : N < 2 ^ lengthBits)
    {f : Format ε α} (h : f.Lawful short) : (Format.seqUpTo short tooMany N f).Lawful short where
  read_write l s := by
    simp only [Format.seqUpTo, writeSeq, List.append_assoc,
      Leb128.read_encode lengthBits_mod short (l.2.trans_lt hN), dif_pos l.2, readMany_write h]
  read_cutShort l p hp := by
    -- cut in the count, or behind it in the elements
    rcases cutShort_append hp with hp | ⟨q, rfl, hq⟩
    · simp only [Format.seqUpTo, Leb128.read_cutShort short hp]
    · simp only [Format.seqUpTo, Leb128.read_encode lengthBits_mod short (l.2.trans_lt hN),
        dif_pos l.2, readMany_cutShort h hq]

end Format

/-! ## Texts -/

/-- The UTF-8 form of a string. -/
def utf8 (s : String) : Bytes := s.toByteArray.data.toList

/-- The string of a UTF-8 form. -/
def fromUtf8 (b : Bytes) : Option String := String.fromUTF8? ⟨b.toArray⟩

@[simp] theorem fromUtf8_utf8 (s : String) : fromUtf8 (utf8 s) = some s := by
  -- a string carries the proof that its bytes are UTF-8
  have hv : (ByteArray.mk (utf8 s).toArray).IsValidUTF8 := s.isValidUTF8
  rw [fromUtf8, String.fromUTF8?, dif_pos hv]
  rfl

theorem utf8_of_fromUtf8 {b : Bytes} {s : String} (h : fromUtf8 b = some s) : utf8 s = b := by
  rw [fromUtf8, String.fromUTF8?] at h
  split_ifs at h
  obtain rfl := Option.some.inj h
  rfl

theorem utf8_injective : Function.Injective utf8 := by
  intro s s' h
  rw [← Option.some.injEq, ← fromUtf8_utf8 s, ← fromUtf8_utf8 s', h]

/-- A one-to-one spelling of the values of a type: every value is parsed from its own text, and no
other text is accepted for it. -/
structure TextForm (α : Type) where
  display : α → String
  parse : String → Option α
  parse_display : ∀ a, parse (display a) = some a
  display_parse : ∀ {s a}, parse s = some a → display a = s
  maxLength : ℕ
  display_le : ∀ a, (utf8 (display a)).length ≤ maxLength
  maxLength_lt : maxLength < 2 ^ lengthBits

theorem TextForm.display_lt (t : TextForm α) (a : α) :
    (utf8 (t.display a)).length < 2 ^ lengthBits :=
  (t.display_le a).trans_lt t.maxLength_lt

theorem TextForm.selfDelimiting (t : TextForm α) :
    SelfDelimiting fun a => writeBytes (utf8 (t.display a)) := by
  refine selfDelimiting_bytes.comap fun a a' h => Option.some.inj ?_
  rw [← t.parse_display a, ← t.parse_display a', utf8_injective h]

namespace Format

/-- Values written as the byte strings of their texts. -/
def text (short : ε) (t : TextForm α) : Format ε α where
  write a := writeBytes (utf8 (t.display a))
  read b :=
    match readBytes short b with
    | .error e => .error e
    | .ok (l, b) =>
      match (fromUtf8 l).bind t.parse with
      | none => .error short
      | some a => .ok (a, b)

/-- A text that was parsed is the text of its value, so nothing else was read. -/
theorem text_read_eq_ok_iff {short : ε} {t : TextForm α} {b s : Bytes} {a : α} :
    (text short t).read b = .ok (a, s) ↔ readBytes short b = .ok (utf8 (t.display a), s) := by
  simp only [Format.text]
  constructor
  · intro h
    split at h
    · cases h
    · rename_i l r hr
      split at h
      · cases h
      · rename_i a' ha
        obtain ⟨rfl, rfl⟩ := Prod.mk.inj (Except.ok.inj h)
        obtain ⟨text, hl, ht⟩ := Option.bind_eq_some_iff.mp ha
        rw [t.display_parse ht, utf8_of_fromUtf8 hl]
        exact hr
  · intro hr
    simp only [hr, fromUtf8_utf8, Option.bind_some, t.parse_display]

theorem Lawful.text (short : ε) (t : TextForm α) : (Format.text short t).Lawful short where
  read_write a s := by
    simp only [Format.text, readBytes_write short (t.display_lt a), fromUtf8_utf8,
      Option.bind_some, t.parse_display]
  read_cutShort a p hp := by
    simp only [Format.text, readBytes_cutShort short (t.display_lt a) hp]

end Format

end Codec
