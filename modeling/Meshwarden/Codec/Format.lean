import Mathlib.Data.List.Basic
import Mathlib.Logic.Equiv.Defs

/-!
# Byte formats

A format writes a value as a byte string and reads one off the front of an input. A reading that
cannot continue stops with a cause; what the causes are is left to the user of the library. A
format is lawful when it reads back what it writes, whatever follows, and stops with the cause of
an input that ended when the writing is cut short anywhere.

## Main definitions

* `Format ε α`: writing and reading of `α`, with causes in `ε`
* `CutShort p e`: `p` is `e` without some of its last bytes
* `Format.Lawful f short`: `f` reads what it writes, and is cut short with the cause `short`
* `SelfDelimiting write`: writings followed by anything can be told apart
* `Format.unit`, `Format.byte`, `Format.pair`, `Format.imap`: the basic formats

## Main results

* `Format.Lawful.selfDelimiting`: lawful formats are self-delimiting
* `Format.pair_read_eq_ok_iff`, `Format.imap_read_eq_ok_iff`: what the compound formats read
* `Format.Lawful.pair`, `Format.Lawful.imap`, `SelfDelimiting.pair`, `SelfDelimiting.comap`:
  composition
-/

namespace Codec

variable {ε α β : Type}

/-- Byte strings. -/
abbrev Bytes := List UInt8

/-- A reading takes a value off the front of an input and leaves the rest, or stops with a
cause. -/
abbrev Reading (ε α : Type) := Bytes → Except ε (α × Bytes)

/-- A way to write the values of a type, and to read them back. -/
structure Format (ε α : Type) where
  write : α → Bytes
  read : Reading ε α

/-! ## Cutting a writing short -/

/-- `p` is `e` without some of its last bytes. -/
def CutShort (p e : Bytes) : Prop := p <+: e ∧ p ≠ e

theorem not_cutShort_nil (p : Bytes) : ¬ CutShort p [] := by
  rintro ⟨hp, hne⟩
  exact hne (List.prefix_nil.mp hp)

theorem cutShort_cons {p : Bytes} {x : UInt8} {e : Bytes} (h : CutShort p (x :: e)) :
    p = [] ∨ ∃ q, p = x :: q ∧ CutShort q e := by
  obtain ⟨hp, hne⟩ := h
  rcases List.prefix_cons_iff.mp hp with rfl | ⟨q, rfl, hq⟩
  · exact Or.inl rfl
  · exact Or.inr ⟨q, rfl, hq, fun he => hne (by rw [he])⟩

/-- A concatenation is cut short in its first part, or in its second. -/
theorem cutShort_append {p e e' : Bytes} (h : CutShort p (e ++ e')) :
    CutShort p e ∨ ∃ q, p = e ++ q ∧ CutShort q e' := by
  induction e generalizing p with
  | nil => exact Or.inr ⟨p, rfl, h⟩
  | cons x e ih =>
    rcases cutShort_cons h with rfl | ⟨q, rfl, hq⟩
    · exact Or.inl ⟨List.nil_prefix, by simp⟩
    · -- the first byte is there, and the rest is cut short in one of the two parts
      rcases ih hq with hq | ⟨r, rfl, hr⟩
      · exact Or.inl ⟨List.cons_prefix_cons.mpr ⟨rfl, hq.1⟩, fun he => hq.2 (List.cons.inj he).2⟩
      · exact Or.inr ⟨r, rfl, hr⟩

theorem CutShort.length_lt {p e : Bytes} (h : CutShort p e) : p.length < e.length :=
  Nat.lt_of_le_of_ne h.1.length_le fun hl => h.2 (h.1.eq_of_length hl)

/-! ## Writings that can be told apart -/

/-- Values are determined by their writing, also when something follows it: where two writings
begin the same input, the values are the same and so is what follows. -/
def SelfDelimiting (write : α → Bytes) : Prop :=
  ∀ ⦃a a' : α⦄ ⦃s s' : Bytes⦄, write a ++ s = write a' ++ s' → a = a' ∧ s = s'

theorem SelfDelimiting.injective {write : α → Bytes} (h : SelfDelimiting write) :
    Function.Injective write := by
  intro a a' he
  exact (h (show write a ++ [] = write a' ++ [] by rw [he])).1

/-- Fields written one after the other. -/
theorem SelfDelimiting.pair {f : α → Bytes} {g : β → Bytes} (hf : SelfDelimiting f)
    (hg : SelfDelimiting g) : SelfDelimiting fun p : α × β => f p.1 ++ g p.2 := by
  rintro ⟨a, b⟩ ⟨a', b'⟩ s s' he
  simp only [List.append_assoc] at he
  obtain ⟨rfl, hb⟩ := hf he
  obtain ⟨rfl, hs⟩ := hg hb
  exact ⟨rfl, hs⟩

/-- A value written through an injection. -/
theorem SelfDelimiting.comap {g : β → Bytes} (hg : SelfDelimiting g) {f : α → β}
    (hf : Function.Injective f) : SelfDelimiting fun a => g (f a) := by
  intro a a' s s' he
  obtain ⟨ha, hs⟩ := hg he
  exact ⟨hf ha, hs⟩

/-! ## Lawful formats -/

namespace Format

/-- **A lawful format** reads back what it writes, whatever follows, and stops with the cause
`short` on a writing that is cut short. -/
structure Lawful (f : Format ε α) (short : ε) : Prop where
  read_write : ∀ a s, f.read (f.write a ++ s) = .ok (a, s)
  read_cutShort : ∀ a p, CutShort p (f.write a) → f.read p = .error short

theorem Lawful.selfDelimiting {f : Format ε α} {short : ε} (h : f.Lawful short) :
    SelfDelimiting f.write := by
  intro a a' s s' he
  -- reading the common input gives both pairs
  have hr := h.read_write a s
  rw [he, h.read_write a' s'] at hr
  obtain ⟨ha, hs⟩ := Prod.mk.inj (Except.ok.inj hr)
  exact ⟨ha.symm, hs.symm⟩

/-- The format of nothing: no field is left. -/
def unit : Format ε Unit where
  write _ := []
  read b := .ok ((), b)

/-- One byte as it stands. -/
def byte (short : ε) : Format ε UInt8 where
  write x := [x]
  read
    | [] => .error short
    | x :: b => .ok (x, b)

/-- One field after another. -/
def pair (f : Format ε α) (g : Format ε β) : Format ε (α × β) where
  write p := f.write p.1 ++ g.write p.2
  read b :=
    match f.read b with
    | .error e => .error e
    | .ok (a, b) =>
      match g.read b with
      | .error e => .error e
      | .ok (c, b) => .ok ((a, c), b)

/-- The format of a type presented by another. -/
def imap (e : α ≃ β) (f : Format ε β) : Format ε α where
  write a := f.write (e a)
  read b :=
    match f.read b with
    | .error e => .error e
    | .ok (a, b) => .ok (e.symm a, b)

theorem Lawful.unit (short : ε) : (Format.unit : Format ε Unit).Lawful short where
  read_write _ _ := rfl
  read_cutShort _ _ hp := (not_cutShort_nil _ hp).elim

theorem Lawful.byte (short : ε) : (Format.byte short).Lawful short where
  read_write _ _ := rfl
  read_cutShort x p hp := by
    rcases cutShort_cons hp with rfl | ⟨q, rfl, hq⟩
    · rfl
    · exact (not_cutShort_nil _ hq).elim

theorem pair_read_ok {f : Format ε α} {g : Format ε β} {b b' b'' : Bytes} {a : α} {c : β}
    (hf : f.read b = .ok (a, b')) (hg : g.read b' = .ok (c, b'')) :
    (f.pair g).read b = .ok ((a, c), b'') := by
  simp only [Format.pair, hf, hg]

theorem pair_read_error {f : Format ε α} {g : Format ε β} {b : Bytes} {e : ε}
    (hf : f.read b = .error e) : (f.pair g).read b = .error e := by
  simp only [Format.pair, hf]

theorem pair_read_snd_error {f : Format ε α} {g : Format ε β} {b b' : Bytes} {a : α} {e : ε}
    (hf : f.read b = .ok (a, b')) (hg : g.read b' = .error e) :
    (f.pair g).read b = .error e := by
  simp only [Format.pair, hf, hg]

theorem pair_read_eq_ok_iff {f : Format ε α} {g : Format ε β} {b s : Bytes} {p : α × β} :
    (f.pair g).read b = .ok (p, s) ↔
      ∃ r, f.read b = .ok (p.1, r) ∧ g.read r = .ok (p.2, s) := by
  constructor
  · intro h
    simp only [Format.pair] at h
    split at h
    · cases h
    · rename_i a r hf
      split at h
      · cases h
      · rename_i c t hg
        obtain ⟨rfl, rfl⟩ := Prod.mk.inj (Except.ok.inj h)
        exact ⟨r, hf, hg⟩
  · rintro ⟨r, hf, hg⟩
    exact pair_read_ok hf hg

theorem pair_read_eq_error_iff {f : Format ε α} {g : Format ε β} {b : Bytes} {e : ε} :
    (f.pair g).read b = .error e ↔
      f.read b = .error e ∨ ∃ a r, f.read b = .ok (a, r) ∧ g.read r = .error e := by
  constructor
  · intro h
    simp only [Format.pair] at h
    split at h
    · rename_i e' hf
      exact Or.inl (hf.trans (by rw [Except.error.inj h]))
    · rename_i a r hf
      split at h
      · rename_i e' hg
        exact Or.inr ⟨a, r, hf, hg.trans (by rw [Except.error.inj h])⟩
      · cases h
  · rintro (hf | ⟨a, r, hf, hg⟩)
    · exact pair_read_error hf
    · exact pair_read_snd_error hf hg

theorem imap_read_eq_ok_iff {e : α ≃ β} {f : Format ε β} {b s : Bytes} {a : α} :
    (imap e f).read b = .ok (a, s) ↔ f.read b = .ok (e a, s) := by
  simp only [Format.imap]
  rcases f.read b with c | ⟨x, r⟩
  · simp
  · simp [Equiv.symm_apply_eq]

theorem Lawful.pair {f : Format ε α} {g : Format ε β} {short : ε} (hf : f.Lawful short)
    (hg : g.Lawful short) : (f.pair g).Lawful short where
  read_write := by
    rintro ⟨a, c⟩ s
    refine pair_read_ok ?_ (hg.read_write c s)
    simpa only [Format.pair, List.append_assoc] using hf.read_write a (g.write c ++ s)
  read_cutShort := by
    rintro ⟨a, c⟩ p hp
    -- cut in the first field, or behind it in the second
    rcases cutShort_append hp with hp | ⟨q, rfl, hq⟩
    · exact pair_read_error (hf.read_cutShort a p hp)
    · exact pair_read_snd_error (hf.read_write a q) (hg.read_cutShort c q hq)

theorem Lawful.imap (e : α ≃ β) {f : Format ε β} {short : ε} (h : f.Lawful short) :
    (Format.imap e f).Lawful short where
  read_write a s := by simp only [Format.imap, h.read_write, Equiv.symm_apply_apply]
  read_cutShort a p hp := by simp only [Format.imap, h.read_cutShort (e a) p hp]

end Format

end Codec
