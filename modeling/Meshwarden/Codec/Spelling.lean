import Meshwarden.Codec.Sequence

/-!
# Spellings

A format reads more inputs than it writes. The only freedom is in the numbers: a sequence of groups
may be padded, and a byte, a byte string and a text stand in the input as they are written. An input
that is read is therefore what the format writes, or it is longer and one of the numbers that were
read from it is padded.

## Main definitions

* `Leb128.sequence b`: the sequence of groups at the front of `b`
* `Leb128.Shortest c`: no other sequence of groups of the same number has fewer groups
* `Spelled w c varints`: `c` spells what is written `w`, with these sequences of groups
* `Format.Spells f varints`: what `f` reads is spelled with the sequences of groups `varints`
* `pairVarints`, `manyVarints`, `seqVarints`: the sequences of groups of compound formats

## Main results

* `Leb128.Groups.shortest_iff`: the shortest sequence of a number is the one that is written
* `Spelled.append`: spellings one after the other
* `Format.Spells.unit` to `Format.Spells.text`: the spellings of each format
-/

namespace Codec

variable {ε α β : Type}

/-! ## Shortest sequences of groups -/

namespace Leb128

/-- The sequence of groups at the front of an input. -/
def sequence : Bytes → Bytes
  | [] => []
  | x :: b => if x.toNat < 128 then [x] else x :: sequence b

/-- No sequence of groups of the same number has fewer groups. -/
def Shortest (c : Bytes) : Prop :=
  ∃ n, Groups c n ∧ ∀ c', Groups c' n → c.length ≤ c'.length

theorem Groups.sequence_append {c : Bytes} {n : ℕ} (h : Groups c n) (s : Bytes) :
    sequence (c ++ s) = c := by
  induction h with
  | last hx => rw [List.singleton_append, sequence, if_pos hx]
  | more hx _ ih => rw [List.cons_append, sequence, if_neg (Nat.not_lt.mpr hx), ih]

theorem Groups.ne_nil {c : Bytes} {n : ℕ} (h : Groups c n) : c ≠ [] := by
  cases h with
  | last _ => exact List.cons_ne_nil _ _
  | more _ _ => exact List.cons_ne_nil _ _

/-- A sequence of groups is the one that is written, or it is longer. -/
theorem Groups.eq_encode_or_lt {c : Bytes} {n : ℕ} (h : Groups c n) :
    c = encode n ∨ (encode n).length < c.length := by
  induction h with
  | @last x hx =>
    left
    rw [encode_of_lt hx, UInt8.ofNat_toNat]
  | @more x c n hx hg ih =>
    have hx8 := x.toNat_lt
    rcases Nat.eq_zero_or_pos n with rfl | hn
    · -- the groups behind the first add nothing to the number
      right
      have hc := List.length_pos_of_ne_nil hg.ne_nil
      rw [encode_of_lt (show x.toNat - 128 + 128 * 0 < 128 by omega), List.length_singleton,
        List.length_cons]
      omega
    · -- the first group is the one that is written, and the others are those of `n`
      have hmod : (x.toNat - 128 + 128 * n) % 128 + 128 = x.toNat := by omega
      have hdiv : (x.toNat - 128 + 128 * n) / 128 = n := by omega
      rw [encode_of_le (show 128 ≤ x.toNat - 128 + 128 * n by omega), hmod, hdiv,
        UInt8.ofNat_toNat]
      rcases ih with rfl | hlt
      · left
        rfl
      · right
        exact Nat.succ_lt_succ hlt

/-- **The shortest sequence of a number is the one that is written.** -/
theorem Groups.shortest_iff {c : Bytes} {n : ℕ} (h : Groups c n) : Shortest c ↔ c = encode n := by
  constructor
  · rintro ⟨n', h', hmin⟩
    obtain ⟨rfl, -⟩ := h.unique h' (s := []) rfl
    rcases h.eq_encode_or_lt with he | hlt
    · exact he
    · exact absurd (hmin _ (groups_encode n)) (Nat.not_le.mpr hlt)
  · rintro rfl
    refine ⟨n, h, ?_⟩
    intro c' h'
    rcases h'.eq_encode_or_lt with rfl | hlt
    · exact le_rfl
    · exact Nat.le_of_lt hlt

end Leb128

/-! ## Spellings -/

/-- `c` spells what is written `w`: it is `w`, and every sequence of groups in it is the shortest
of its number; or it is longer, and one of them is not. -/
def Spelled (w c : Bytes) (varints : List Bytes) : Prop :=
  (∀ g ∈ varints, Leb128.Shortest g) ∧ w = c ∨
    (∃ g ∈ varints, ¬ Leb128.Shortest g) ∧ w.length < c.length

namespace Spelled

theorem refl (c : Bytes) : Spelled c c [] := Or.inl ⟨fun _ hg => absurd hg List.not_mem_nil, rfl⟩

/-- A number is spelled by its sequences of groups. -/
theorem groups {c : Bytes} {n : ℕ} (h : Leb128.Groups c n) : Spelled (Leb128.encode n) c [c] := by
  rcases h.eq_encode_or_lt with he | hlt
  · left
    refine ⟨fun g hg => ?_, he.symm⟩
    rw [List.mem_singleton.mp hg]
    exact h.shortest_iff.mpr he
  · right
    refine ⟨⟨c, List.mem_singleton_self c, fun hs => ?_⟩, hlt⟩
    rw [h.shortest_iff.mp hs] at hlt
    exact lt_irrefl _ hlt

variable {w w' c c' : Bytes} {gs gs' : List Bytes}

theorem length_le (h : Spelled w c gs) : w.length ≤ c.length := by
  rcases h with ⟨-, rfl⟩ | ⟨-, hlt⟩
  · exact le_rfl
  · exact Nat.le_of_lt hlt

/-- **Spellings one after the other.** -/
theorem append (h : Spelled w c gs) (h' : Spelled w' c' gs') :
    Spelled (w ++ w') (c ++ c') (gs ++ gs') := by
  have hle := h.length_le
  have hle' := h'.length_le
  rcases h with ⟨hs, rfl⟩ | ⟨⟨g, hg, hs⟩, hlt⟩
  · rcases h' with ⟨hs', rfl⟩ | ⟨⟨g, hg, hs'⟩, hlt'⟩
    · left
      refine ⟨fun g hg => ?_, rfl⟩
      rcases List.mem_append.mp hg with hg | hg
      · exact hs g hg
      · exact hs' g hg
    · right
      refine ⟨⟨g, List.mem_append_right gs hg, hs'⟩, ?_⟩
      simp only [List.length_append]
      omega
  · -- a padded number in the first part is enough, whatever the second part is
    right
    refine ⟨⟨g, List.mem_append_left gs' hg, hs⟩, ?_⟩
    simp only [List.length_append]
    omega

/-- A spelling is what is written exactly when its sequences of groups are shortest. -/
theorem eq_iff (h : Spelled w c gs) : w = c ↔ ∀ g ∈ gs, Leb128.Shortest g := by
  rcases h with ⟨hs, he⟩ | ⟨⟨g, hg, hs⟩, hlt⟩
  · exact ⟨fun _ => hs, fun _ => he⟩
  · constructor
    · rintro rfl
      exact absurd hlt (lt_irrefl _)
    · intro hall
      exact absurd (hall g hg) hs

theorem length_lt (h : Spelled w c gs) (hgs : ¬ ∀ g ∈ gs, Leb128.Shortest g) :
    w.length < c.length := by
  rcases h with ⟨hs, -⟩ | ⟨-, hlt⟩
  · exact absurd hs hgs
  · exact hlt

end Spelled

/-! ## Sequences of groups of compound formats -/

/-- Those of the first field, then those of the second, read where the first one ends. -/
def pairVarints (f : Format ε α) (varints varints' : Bytes → List Bytes) (b : Bytes) :
    List Bytes :=
  varints b ++
    match f.read b with
    | .error _ => []
    | .ok (_, r) => varints' r

/-- Those of `n` elements one after the other. -/
def manyVarints (f : Format ε α) (varints : Bytes → List Bytes) : ℕ → Bytes → List Bytes
  | 0, _ => []
  | n + 1, b => pairVarints f varints (manyVarints f varints n) b

/-- The count, then those of the elements. -/
def seqVarints (f : Format ε α) (varints : Bytes → List Bytes) (b : Bytes) : List Bytes :=
  Leb128.sequence b ::
    match Leb128.read () lengthBits b with
    | .error _ => []
    | .ok (n, r) => manyVarints f varints n r

/-! ## Spellings of formats -/

namespace Format

/-- **What `f` reads is spelled** with the sequences of groups that `varints` finds in the input:
where a value is read, the bytes that it takes spell its writing. -/
def Spells (f : Format ε α) (varints : Bytes → List Bytes) : Prop :=
  ∀ ⦃b a s⦄, f.read b = .ok (a, s) → ∃ c, b = c ++ s ∧ Spelled (f.write a) c (varints b)

theorem Spells.unit : (Format.unit : Format ε Unit).Spells fun _ => [] := by
  intro b a s h
  obtain ⟨rfl, rfl⟩ := Prod.mk.inj (Except.ok.inj h)
  exact ⟨[], rfl, Spelled.refl []⟩

theorem Spells.byte (short : ε) : (Format.byte short).Spells fun _ => [] := by
  intro b a s h
  rcases b with _ | ⟨x, b⟩
  · cases h
  · obtain ⟨rfl, rfl⟩ := Prod.mk.inj (Except.ok.inj h)
    exact ⟨[x], rfl, Spelled.refl [x]⟩

theorem Spells.varint (short : ε) {bits : ℕ} (hbits : bits % 7 ≠ 0) {toNat : α → ℕ}
    {ofNat : ℕ → α} (hto : ∀ n, n < 2 ^ bits → toNat (ofNat n) = n) :
    (Format.varint short bits toNat ofNat).Spells fun b => [Leb128.sequence b] := by
  intro b a s h
  obtain ⟨n, hr, rfl⟩ := varint_read_eq_ok_iff.mp h
  obtain ⟨c, rfl, hg, -, hn⟩ := (Leb128.read_eq_ok_iff hbits short).mp hr
  simp only [Format.varint, hto n hn, hg.sequence_append]
  exact ⟨c, rfl, Spelled.groups hg⟩

/-- Two readings one after the other, spelled each. -/
theorem spelled_pairVarints {f : Format ε α} {varints varints' : Bytes → List Bytes}
    (hf : f.Spells varints) {b r s w' : Bytes} {a : α} (hr : f.read b = .ok (a, r))
    (h' : ∃ c, r = c ++ s ∧ Spelled w' c (varints' r)) :
    ∃ c, b = c ++ s ∧ Spelled (f.write a ++ w') c (pairVarints f varints varints' b) := by
  obtain ⟨c, rfl, hc⟩ := hf hr
  obtain ⟨c', rfl, hc'⟩ := h'
  refine ⟨c ++ c', (List.append_assoc _ _ _).symm, ?_⟩
  simp only [pairVarints, hr]
  exact hc.append hc'

theorem Spells.pair {f : Format ε α} {g : Format ε β} {varints varints' : Bytes → List Bytes}
    (hf : f.Spells varints) (hg : g.Spells varints') :
    (f.pair g).Spells (pairVarints f varints varints') := by
  intro b p s h
  obtain ⟨r, hr, ht⟩ := pair_read_eq_ok_iff.mp h
  exact spelled_pairVarints hf hr (hg ht)

theorem Spells.imap (e : α ≃ β) {f : Format ε β} {varints : Bytes → List Bytes}
    (hf : f.Spells varints) : (Format.imap e f).Spells varints := by
  intro b a s h
  exact hf (imap_read_eq_ok_iff.mp h)

/-- A byte string is spelled by its length, and stands behind it as it is. -/
theorem spelled_readBytes {short : ε} {b l s : Bytes} (h : readBytes short b = .ok (l, s)) :
    ∃ c, b = c ++ s ∧ Spelled (writeBytes l) c [Leb128.sequence b] := by
  obtain ⟨n, r, hr, rfl, rfl⟩ := readBytes_ok h
  obtain ⟨c, rfl, hg, -, -⟩ := (Leb128.read_eq_ok_iff lengthBits_mod short).mp hr
  rw [hg.sequence_append]
  exact ⟨c ++ l, (List.append_assoc _ _ _).symm, (Spelled.groups hg).append (Spelled.refl l)⟩

theorem Spells.bytesUpTo (short : ε) (tooMany : ℕ → ε) (N : ℕ) :
    (Format.bytesUpTo short tooMany N).Spells fun b => [Leb128.sequence b] := by
  intro b l s h
  exact spelled_readBytes (bytesUpTo_read_eq_ok_iff.mp h)

theorem Spells.text (short : ε) (t : TextForm α) :
    (Format.text short t).Spells fun b => [Leb128.sequence b] := by
  intro b a s h
  exact spelled_readBytes (text_read_eq_ok_iff.mp h)

theorem spelled_readMany {f : Format ε α} {varints : Bytes → List Bytes} (hf : f.Spells varints)
    {n : ℕ} {b s : Bytes} {l : {l : List α // l.length = n}}
    (h : readMany f.read n b = .ok (l, s)) :
    ∃ c, b = c ++ s ∧ Spelled (writeMany f.write l.1) c (manyVarints f varints n b) := by
  -- induction on the elements still to read
  induction n generalizing b with
  | zero =>
    obtain ⟨rfl, rfl⟩ := Prod.mk.inj (Except.ok.inj h)
    exact ⟨[], rfl, Spelled.refl []⟩
  | succ n ih =>
    obtain ⟨a, r, l', hr, ht, hl⟩ := readMany_succ_eq_ok_iff.mp h
    rw [hl, writeMany, List.flatMap_cons]
    exact spelled_pairVarints hf hr (ih ht)

theorem Spells.seqUpTo (short : ε) (tooMany : ℕ → ε) (N : ℕ) {f : Format ε α}
    {varints : Bytes → List Bytes} (hf : f.Spells varints) :
    (Format.seqUpTo short tooMany N f).Spells (seqVarints f varints) := by
  intro b l s h
  obtain ⟨r, hr, ht⟩ := seqUpTo_read_eq_ok_iff.mp h
  have hstands := (Leb128.read_eq_ok_iff lengthBits_mod short).mp hr
  have hr' := (Leb128.read_eq_ok_iff lengthBits_mod ()).mpr hstands
  obtain ⟨c, rfl, hg, -, -⟩ := hstands
  obtain ⟨c', rfl, hc'⟩ := spelled_readMany hf ht
  refine ⟨c ++ c', (List.append_assoc _ _ _).symm, ?_⟩
  simp only [seqVarints, hr', hg.sequence_append]
  exact (Spelled.groups hg).append hc'

end Format

end Codec
