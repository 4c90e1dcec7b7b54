import Mathlib.Order.Bounds.Basic
import Meshwarden.Codec.Sequence

/-!
# The longest inputs

How long an input can be that a format reads is a property of the format alone: a number takes as
many groups as its type allows, a byte string as many bytes as its bound allows, and a sequence as
many elements, each of the longest. These lengths are attained: every number can be padded to all
the groups of its type, and then a value of the greatest length follows.

## Main definitions

* `Format.Takes f`: the lengths of the inputs that `f` reads
* `Format.Longest f n`: `n` is the greatest of them

## Main results

* `Leb128.exists_groups`: a number has sequences of groups of every length that it fits in
* `Format.Longest.unit` to `Format.Longest.text`: the greatest length of each format
-/

namespace Codec

variable {ε α β : Type}

/-! ## Padded numbers -/

namespace Leb128

/-- **A number has sequences of groups of every length that it fits in.** -/
theorem exists_groups {k n : ℕ} (hn : n < 128 ^ (k + 1)) : ∃ c, Groups c n ∧ c.length = k + 1 := by
  induction k generalizing n with
  | zero =>
    have hlt : n < 128 := by rwa [Nat.zero_add, pow_one] at hn
    have hlast : Groups [UInt8.ofNat n] (UInt8.ofNat n).toNat :=
      Groups.last ((toNat_group_last hlt).trans_lt hlt)
    rw [toNat_group_last hlt] at hlast
    exact ⟨_, hlast, rfl⟩
  | succ k ih =>
    -- a group that goes on, and the groups of the quotient, which may be zero
    have hd : n / 128 < 128 ^ (k + 1) := by
      rw [Nat.div_lt_iff_lt_mul (by norm_num), ← Nat.pow_succ]
      exact hn
    obtain ⟨c, hc, hlen⟩ := ih hd
    have hmore := Groups.more (x := UInt8.ofNat (n % 128 + 128))
      (by rw [toNat_group_more]; exact Nat.le_add_left _ _) hc
    rw [toNat_group_more, Nat.add_sub_cancel, Nat.mod_add_div] at hmore
    exact ⟨_, hmore, by rw [List.length_cons, hlen]⟩

/-- A number of a type can be padded to all the groups of the type. -/
theorem exists_read {bits n : ℕ} (hbits : bits % 7 ≠ 0) (hn : n < 2 ^ bits) (short : ε) :
    ∃ c : Bytes, c.length = maxGroups bits ∧ ∀ s, read short bits (c ++ s) = .ok (n, s) := by
  have hlt : n < 128 ^ (bits / 7 + 1) := by
    calc n < 2 ^ bits := hn
      _ ≤ 2 ^ (7 * (bits / 7 + 1)) := Nat.pow_le_pow_right (by norm_num) (by omega)
      _ = 128 ^ (bits / 7 + 1) := by rw [pow_mul]; norm_num
  obtain ⟨c, hc, hlen⟩ := exists_groups hlt
  rw [← maxGroups_eq hbits] at hlen
  exact ⟨c, hlen, fun s => (read_eq_ok_iff hbits short).mpr ⟨c, rfl, hc, hlen.le, hn⟩⟩

/-- What a number takes. -/
theorem length_of_read {bits n : ℕ} (hbits : bits % 7 ≠ 0) {short : ε} {b s : Bytes}
    (h : read short bits b = .ok (n, s)) : b.length ≤ maxGroups bits + s.length := by
  obtain ⟨c, rfl, -, hlen, -⟩ := (read_eq_ok_iff hbits short).mp h
  rw [List.length_append]
  exact Nat.add_le_add_right hlen _

end Leb128

/-! ## The longest reading of a format -/

namespace Format

/-- The lengths of the inputs that a format reads, up to where it stops reading. -/
def Takes (f : Format ε α) : Set ℕ :=
  {n | ∃ (c : Bytes) (a : α), c.length = n ∧ ∀ s, f.read (c ++ s) = .ok (a, s)}

/-- No reading takes more than `n` bytes, and one takes as many. -/
structure Longest (f : Format ε α) (n : ℕ) : Prop where
  attained : n ∈ f.Takes
  bound : ∀ ⦃b a s⦄, f.read b = .ok (a, s) → b.length ≤ n + s.length

/-- The greatest length of an input that is read, with nothing left. -/
theorem Longest.isGreatest {f : Format ε α} {n : ℕ} (h : f.Longest n) :
    IsGreatest {n | ∃ b a, f.read b = .ok (a, []) ∧ b.length = n} n := by
  constructor
  · obtain ⟨c, a, hlen, hread⟩ := h.attained
    have hr := hread []
    rw [List.append_nil] at hr
    exact ⟨c, a, hr, hlen⟩
  · rintro m ⟨b, a, hread, rfl⟩
    exact h.bound hread

theorem Longest.unit : (Format.unit : Format ε Unit).Longest 0 where
  attained := ⟨[], (), rfl, fun _ => rfl⟩
  bound b a s h := by
    obtain ⟨-, rfl⟩ := Prod.mk.inj (Except.ok.inj h)
    rw [Nat.zero_add]

theorem Longest.byte (short : ε) : (Format.byte short).Longest 1 where
  attained := ⟨[0], 0, rfl, fun _ => rfl⟩
  bound b a s h := by
    rcases b with _ | ⟨x, b⟩
    · cases h
    · obtain ⟨rfl, rfl⟩ := Prod.mk.inj (Except.ok.inj h)
      rw [List.length_cons, Nat.add_comm]

theorem Longest.varint (short : ε) {bits : ℕ} (hbits : bits % 7 ≠ 0) (toNat : α → ℕ)
    (ofNat : ℕ → α) : (Format.varint short bits toNat ofNat).Longest (Leb128.maxGroups bits) where
  attained := by
    obtain ⟨c, hlen, hread⟩ := Leb128.exists_read hbits (Nat.two_pow_pos bits) short
    exact ⟨c, ofNat 0, hlen, fun s => varint_read_eq_ok_iff.mpr ⟨0, hread s, rfl⟩⟩
  bound b a s h := by
    obtain ⟨n, hread, -⟩ := varint_read_eq_ok_iff.mp h
    exact Leb128.length_of_read hbits hread

theorem Longest.pair {f : Format ε α} {g : Format ε β} {n m : ℕ} (hf : f.Longest n)
    (hg : g.Longest m) : (f.pair g).Longest (n + m) where
  attained := by
    obtain ⟨c, a, hc, hreadf⟩ := hf.attained
    obtain ⟨d, b, hd, hreadg⟩ := hg.attained
    refine ⟨c ++ d, (a, b), by rw [List.length_append, hc, hd], ?_⟩
    intro s
    rw [List.append_assoc]
    exact pair_read_ok (hreadf (d ++ s)) (hreadg s)
  bound b p s h := by
    obtain ⟨r, hreadf, hreadg⟩ := pair_read_eq_ok_iff.mp h
    have hfirst := hf.bound hreadf
    have hsecond := hg.bound hreadg
    omega

theorem Longest.imap (e : α ≃ β) {f : Format ε β} {n : ℕ} (hf : f.Longest n) :
    (Format.imap e f).Longest n where
  attained := by
    obtain ⟨c, b, hc, hread⟩ := hf.attained
    refine ⟨c, e.symm b, hc, fun s => imap_read_eq_ok_iff.mpr ?_⟩
    rw [Equiv.apply_symm_apply]
    exact hread s
  bound b a s h := hf.bound (imap_read_eq_ok_iff.mp h)

/-- A byte string takes the groups of its length, and its bytes. -/
theorem length_of_readBytes {short : ε} {b l s : Bytes} (h : readBytes short b = .ok (l, s)) :
    b.length ≤ Leb128.maxGroups lengthBits + l.length + s.length := by
  obtain ⟨n, r, hr, rfl, rfl⟩ := readBytes_ok h
  have hlen := Leb128.length_of_read lengthBits_mod hr
  rwa [List.length_append, ← Nat.add_assoc] at hlen

/-- The length of a byte string can be padded to all its groups. -/
theorem exists_readBytes {l : Bytes} (hl : l.length < 2 ^ lengthBits) (short : ε) :
    ∃ c : Bytes, c.length = Leb128.maxGroups lengthBits + l.length ∧
      ∀ s, readBytes short (c ++ s) = .ok (l, s) := by
  obtain ⟨c, hc, hread⟩ := Leb128.exists_read lengthBits_mod hl short
  refine ⟨c ++ l, by rw [List.length_append, hc], ?_⟩
  intro s
  have hlong : ¬ (l ++ s).length < l.length := by
    rw [List.length_append]
    omega
  rw [readBytes, List.append_assoc, hread]
  simp only [hlong, if_false, List.take_left, List.drop_left]

theorem Longest.bytesUpTo (short : ε) (tooMany : ℕ → ε) {N : ℕ} (hN : N < 2 ^ lengthBits) :
    (Format.bytesUpTo short tooMany N).Longest (Leb128.maxGroups lengthBits + N) where
  attained := by
    have hlen : (List.replicate N (0 : UInt8)).length = N := List.length_replicate
    obtain ⟨c, hc, hread⟩ := exists_readBytes (hlen.trans_lt hN) short
    refine ⟨c, ⟨_, hlen.le⟩, by rw [hc, hlen], ?_⟩
    intro s
    exact bytesUpTo_read_eq_ok_iff.mpr (hread s)
  bound b l s h := by
    have hlen := length_of_readBytes (bytesUpTo_read_eq_ok_iff.mp h)
    have hl := l.2
    omega

/-- `n` elements of the greatest length, one after the other. -/
theorem exists_readMany {f : Format ε α} {m : ℕ} (hf : f.Longest m) (n : ℕ) :
    ∃ (c : Bytes) (l : {l : List α // l.length = n}), c.length = n * m ∧
      ∀ s, readMany f.read n (c ++ s) = .ok (l, s) := by
  obtain ⟨d, a, hd, hread⟩ := hf.attained
  induction n with
  | zero => exact ⟨[], ⟨[], rfl⟩, (Nat.zero_mul m).symm, fun _ => rfl⟩
  | succ n ih =>
    obtain ⟨c, l, hc, hmany⟩ := ih
    refine ⟨d ++ c, ⟨a :: l.1, congrArg Nat.succ l.2⟩, ?_, ?_⟩
    · rw [List.length_append, hd, hc, Nat.succ_mul, Nat.add_comm]
    · intro s
      rw [List.append_assoc]
      exact readMany_succ_eq_ok_iff.mpr ⟨a, c ++ s, l, hread (c ++ s), hmany s, rfl⟩

theorem length_of_readMany {f : Format ε α} {m : ℕ} (hf : f.Longest m) {n : ℕ} {b s : Bytes}
    {l : {l : List α // l.length = n}} (h : readMany f.read n b = .ok (l, s)) :
    b.length ≤ n * m + s.length := by
  induction n generalizing b with
  | zero =>
    obtain ⟨-, rfl⟩ := Prod.mk.inj (Except.ok.inj h)
    omega
  | succ n ih =>
    obtain ⟨a, r, l', hread, hmany, -⟩ := readMany_succ_eq_ok_iff.mp h
    have hfirst := hf.bound hread
    have hrest := ih hmany
    rw [Nat.succ_mul]
    omega

theorem Longest.seqUpTo (short : ε) (tooMany : ℕ → ε) {N : ℕ} (hN : N < 2 ^ lengthBits)
    {f : Format ε α} {m : ℕ} (hf : f.Longest m) :
    (Format.seqUpTo short tooMany N f).Longest (Leb128.maxGroups lengthBits + N * m) where
  attained := by
    obtain ⟨c, hc, hcount⟩ := Leb128.exists_read lengthBits_mod hN short
    obtain ⟨d, ⟨l, hl⟩, hd, hmany⟩ := exists_readMany hf N
    obtain rfl := hl
    refine ⟨c ++ d, ⟨l, le_rfl⟩, by rw [List.length_append, hc, hd], ?_⟩
    intro s
    rw [List.append_assoc]
    exact seqUpTo_read_eq_ok_iff.mpr ⟨d ++ s, hcount (d ++ s), hmany s⟩
  bound b l s h := by
    obtain ⟨r, hcount, hmany⟩ := seqUpTo_read_eq_ok_iff.mp h
    have hc := Leb128.length_of_read lengthBits_mod hcount
    have hd := length_of_readMany hf hmany
    have hle : l.1.length * m ≤ N * m := Nat.mul_le_mul_right m l.2
    omega

/-- A text is read where a value is displayed as long as any. -/
theorem Longest.text (short : ε) {t : TextForm α}
    (ht : ∃ a, (utf8 (t.display a)).length = t.maxLength) :
    (Format.text short t).Longest (Leb128.maxGroups lengthBits + t.maxLength) where
  attained := by
    obtain ⟨a, ha⟩ := ht
    obtain ⟨c, hc, hread⟩ := exists_readBytes (t.display_lt a) short
    refine ⟨c, a, by rw [hc, ha], ?_⟩
    intro s
    exact text_read_eq_ok_iff.mpr (hread s)
  bound b a s h := by
    have hlen := length_of_readBytes (text_read_eq_ok_iff.mp h)
    have ha := t.display_le a
    omega

end Format

/-! ## Lengths of writings -/

/-- Elements whose writings are within a bound. -/
theorem length_writeMany_le_of_mem {write : α → Bytes} {m : ℕ} {l : List α}
    (hm : ∀ a ∈ l, (write a).length ≤ m) : (writeMany write l).length ≤ l.length * m := by
  induction l with
  | nil => exact Nat.zero_le _
  | cons a l ih =>
    have hfirst := hm a List.mem_cons_self
    have hrest := ih fun x hx => hm x (List.mem_cons_of_mem a hx)
    rw [writeMany, List.flatMap_cons, List.length_append, List.length_cons, Nat.succ_mul,
      Nat.add_comm]
    exact Nat.add_le_add hrest hfirst

theorem length_writeSeq_replicate (write : α → Bytes) (n : ℕ) (a : α) :
    (writeSeq write (List.replicate n a)).length =
      (Leb128.encode n).length + n * (write a).length := by
  have hmany : (writeMany write (List.replicate n a)).length = n * (write a).length := by
    induction n with
    | zero => exact (Nat.zero_mul _).symm
    | succ n ih =>
      rw [List.replicate_succ, writeMany, List.flatMap_cons, List.length_append, Nat.succ_mul,
        Nat.add_comm]
      exact congrArg (· + (write a).length) ih
  rw [writeSeq, List.length_append, List.length_replicate, hmany]

theorem length_writeBytes_replicate (n : ℕ) (x : UInt8) :
    (writeBytes (List.replicate n x)).length = (Leb128.encode n).length + n := by
  rw [writeBytes, List.length_append, List.length_replicate]

end Codec
