import Meshwarden.Codec.Format
import Mathlib.Tactic.Positivity
import Mathlib.Tactic.Ring

/-!
# LEB128 variable-length integers

An unsigned integer is written in groups of seven bits, least significant first, with the top bit
set on every group but the last. The writer emits the shortest such sequence. The reader of a type
of `bits` bits takes at most `⌈bits / 7⌉` groups and refuses a value that does not fit the type; a
sequence padded with zero groups below that length is read like the shortest one.

## Main definitions

* `Leb128.encode`: the shortest sequence of a number
* `Leb128.Groups c n`: `c` is a complete sequence of groups with the value `n`
* `Leb128.read short bits`: the reader of a type of `bits` bits
* `Format.varint`: the format of a type of numbers of `bits` bits

## Main results

* `Leb128.read_eq_ok_iff`: what the reader accepts
* `Leb128.read_encode`, `Leb128.read_cutShort`: it reads the shortest sequence, and nothing
  shorter than a sequence
* `Leb128.selfDelimiting_encode`: the shortest sequences are self-delimiting, at any size
* `Leb128.length_encode_le`, `Leb128.length_encode_mono`: the length of the shortest sequence
-/

namespace Codec

variable {ε α : Type}

namespace Leb128

/-! ## Writing -/

/-- The groups of `n`, of which at most `k + 1` are written. -/
def encodeGo : ℕ → ℕ → Bytes
  | 0, n => [UInt8.ofNat n]
  | k + 1, n =>
    if n < 128 then [UInt8.ofNat n] else UInt8.ofNat (n % 128 + 128) :: encodeGo k (n / 128)

/-- The shortest sequence of groups of `n`. -/
def encode (n : ℕ) : Bytes := encodeGo n n

/-- Room for `n` groups is always enough for the groups of `n`. -/
theorem encodeGo_eq_encode {k n : ℕ} (h : n ≤ k) : encodeGo k n = encode n := by
  induction k using Nat.strongRecOn generalizing n with
  | ind k ih =>
    rw [encode]
    rcases k with _ | k
    · obtain rfl : n = 0 := Nat.le_zero.mp h
      rfl
    rcases n with _ | n
    · simp [encodeGo]
    by_cases hn : n + 1 < 128
    · simp [encodeGo, hn]
    · -- both sides go on with `(n + 1) / 128`, with room enough on each
      have hk : (n + 1) / 128 ≤ k := by omega
      have hk' : (n + 1) / 128 ≤ n := by omega
      simp only [encodeGo, hn, if_false, ih k (by omega) hk, ih n (by omega) hk']

theorem encode_of_lt {n : ℕ} (h : n < 128) : encode n = [UInt8.ofNat n] := by
  rw [encode]
  rcases n with _ | n
  · rfl
  · simp [encodeGo, h]

theorem encode_of_le {n : ℕ} (h : 128 ≤ n) :
    encode n = UInt8.ofNat (n % 128 + 128) :: encode (n / 128) := by
  rw [encode]
  obtain ⟨n, rfl⟩ : ∃ m, n = m + 1 := ⟨n - 1, by omega⟩
  have hn : (n + 1) / 128 ≤ n := by omega
  simp only [encodeGo, Nat.not_lt.mpr h, if_false, encodeGo_eq_encode hn]

theorem encode_ne_nil (n : ℕ) : encode n ≠ [] := by
  by_cases h : n < 128
  · simp [encode_of_lt h]
  · simp [encode_of_le (Nat.le_of_not_lt h)]

theorem toNat_group_last {n : ℕ} (h : n < 128) : (UInt8.ofNat n).toNat = n :=
  UInt8.toNat_ofNat_of_lt' (show n < 256 by omega)

theorem toNat_group_more (n : ℕ) : (UInt8.ofNat (n % 128 + 128)).toNat = n % 128 + 128 :=
  UInt8.toNat_ofNat_of_lt' (show n % 128 + 128 < 256 by omega)

/-- A number below `128 ^ (k + 1)` takes at most `k + 1` groups. -/
theorem length_encode_le {k n : ℕ} (h : n < 128 ^ (k + 1)) : (encode n).length ≤ k + 1 := by
  induction k generalizing n with
  | zero => simp [encode_of_lt (show n < 128 by simpa using h)]
  | succ k ih =>
    by_cases hn : n < 128
    · simp [encode_of_lt hn]
    · -- one group less for the quotient
      have hd : n / 128 < 128 ^ (k + 1) := by
        rw [Nat.div_lt_iff_lt_mul (by decide), ← Nat.pow_succ]
        exact h
      simpa [encode_of_le (Nat.le_of_not_lt hn)] using ih hd

theorem length_encode_mono {n m : ℕ} (h : n ≤ m) : (encode n).length ≤ (encode m).length := by
  induction m using Nat.strongRecOn generalizing n with
  | ind m ih =>
    by_cases hn : n < 128
    · rw [encode_of_lt hn]
      exact List.length_pos_of_ne_nil (encode_ne_nil m)
    · have hn := Nat.le_of_not_lt hn
      have hd := ih (m / 128) (by omega) (Nat.div_le_div_right h)
      rw [encode_of_le hn, encode_of_le (hn.trans h)]
      exact Nat.succ_le_succ hd

/-! ## Sequences of groups -/

/-- `c` is a complete sequence of groups, the shortest or a padded one, with the value `n`. -/
inductive Groups : Bytes → ℕ → Prop
  | last {x : UInt8} : x.toNat < 128 → Groups [x] x.toNat
  | more {x : UInt8} {c : Bytes} {n : ℕ} :
      128 ≤ x.toNat → Groups c n → Groups (x :: c) (x.toNat - 128 + 128 * n)

theorem groups_encode (n : ℕ) : Groups (encode n) n := by
  induction n using Nat.strongRecOn with
  | ind n ih =>
    by_cases h : n < 128
    · -- a number below 128 is one last group
      have hg := Groups.last (x := UInt8.ofNat n) (by rw [toNat_group_last h]; exact h)
      rwa [toNat_group_last h, ← encode_of_lt h] at hg
    · -- a group with the top bit set, then the groups of the quotient
      have h := Nat.le_of_not_lt h
      have hg := Groups.more (x := UInt8.ofNat (n % 128 + 128))
        (by rw [toNat_group_more]; omega) (ih (n / 128) (by omega))
      rw [toNat_group_more, ← encode_of_le h] at hg
      convert hg using 1
      omega

/-- Where two sequences begin the same input they are the same, and so are their values. -/
theorem Groups.unique {c c' s s' : Bytes} {n n' : ℕ} (h : Groups c n) (h' : Groups c' n')
    (he : c ++ s = c' ++ s') : n = n' ∧ s = s' := by
  -- induction on the first sequence; the first byte says whether a sequence goes on
  induction h generalizing c' n' with
  | last hx =>
    cases h' with
    | last _ =>
      obtain ⟨rfl, hs⟩ := List.cons.inj he
      exact ⟨rfl, hs⟩
    | more hx' _ =>
      obtain ⟨rfl, -⟩ := List.cons.inj he
      omega
  | more hx _ ih =>
    cases h' with
    | last hx' =>
      obtain ⟨rfl, -⟩ := List.cons.inj he
      omega
    | more _ hg =>
      obtain ⟨rfl, hb⟩ := List.cons.inj he
      obtain ⟨rfl, hs⟩ := ih hg hb
      exact ⟨rfl, hs⟩

/-- The shortest sequences are self-delimiting, whatever the size of the numbers. -/
theorem selfDelimiting_encode : SelfDelimiting encode := fun n n' _ _ he =>
  (groups_encode n).unique (groups_encode n') he

/-! ## Reading -/

/-- Take at most `k` groups; the last group of a sequence of `k` may not exceed `last`. -/
def take (last : ℕ) : ℕ → Bytes → Option (ℕ × Bytes)
  | 0, _ => none
  | _ + 1, [] => none
  | k + 1, x :: b =>
    if x.toNat < 128 then
      if k = 0 ∧ last < x.toNat then none else some (x.toNat, b)
    else
      match take last k b with
      | none => none
      | some (n, b) => some (x.toNat - 128 + 128 * n, b)

/-- The most groups of a number of `bits` bits. -/
def maxGroups (bits : ℕ) : ℕ := (bits + 6) / 7

/-- The greatest last group of a number of `bits` bits in its most groups. -/
def maxLastGroup (bits : ℕ) : ℕ := 2 ^ (bits % 7) - 1

/-- The reader of a type of `bits` bits. -/
def read (short : ε) (bits : ℕ) : Reading ε ℕ := fun b =>
  match take (maxLastGroup bits) (maxGroups bits) b with
  | none => .error short
  | some r => .ok r

/-- What `take` accepts: a complete sequence of at most `k + 1` groups, whose value is below the
least one with `last + 1` as its `k`-th group. -/
theorem take_eq_some_iff {last k n : ℕ} {b s : Bytes} :
    take last (k + 1) b = some (n, s) ↔
      ∃ c, b = c ++ s ∧ Groups c n ∧ c.length ≤ k + 1 ∧ n < (last + 1) * 128 ^ k := by
  -- induction on the groups still allowed
  induction k generalizing b n with
  | zero =>
    constructor
    · intro h
      rcases b with _ | ⟨x, b⟩
      · cases h
      simp only [take] at h
      split_ifs at h with hx hl
      obtain ⟨rfl, rfl⟩ := Prod.mk.inj (Option.some.inj h)
      exact ⟨[x], rfl, Groups.last hx, le_rfl, by simp at hl ⊢; omega⟩
    · rintro ⟨c, rfl, hg, hl, hn⟩
      cases hg with
      | last hx => simp only [List.cons_append, List.nil_append, take, hx, if_true]; simp; omega
      | more _ hg => cases hg <;> simp at hl
  | succ k ih =>
    -- a group more multiplies the bound on the value by 128
    have hpow : (last + 1) * 128 ^ (k + 1) = 128 * ((last + 1) * 128 ^ k) := by ring
    have hpos : 0 < (last + 1) * 128 ^ k := by positivity
    constructor
    · intro h
      rcases b with _ | ⟨x, b⟩
      · cases h
      rw [take] at h
      split_ifs at h with hx
      · obtain ⟨rfl, rfl⟩ := Prod.mk.inj (Option.some.inj h)
        exact ⟨[x], rfl, Groups.last hx, by simp, by omega⟩
      · -- the top bit is set: the value of the rest is multiplied by 128
        have hx8 := x.toNat_lt
        rcases ht : take last (k + 1) b with _ | ⟨m, t⟩
        · simp [ht] at h
        · simp only [ht, Option.some.injEq, Prod.mk.injEq] at h
          obtain ⟨rfl, rfl⟩ := h
          obtain ⟨c, rfl, hg, hl, hn⟩ := ih.mp ht
          refine ⟨x :: c, rfl, Groups.more (by omega) hg, by simpa using hl, ?_⟩
          omega
    · rintro ⟨c, rfl, hg, hl, hn⟩
      cases hg with
      | last hx => simp [take, hx]
      | @more x c m hx hg =>
        have ht := (ih (b := c ++ s)).mpr ⟨c, rfl, hg, by simpa using hl, by omega⟩
        rw [List.cons_append, take, if_neg (by omega), ht]

/-- A sequence cut short is not read: every group it still has announces another. -/
theorem take_cutShort {c p : Bytes} {n : ℕ} (h : Groups c n) (hp : CutShort p c) (last k : ℕ) :
    take last k p = none := by
  induction h generalizing p k with
  | last _ =>
    rcases cutShort_cons hp with rfl | ⟨q, rfl, hq⟩
    · cases k <;> rfl
    · exact (not_cutShort_nil _ hq).elim
  | more hx _ ih =>
    rcases cutShort_cons hp with rfl | ⟨q, rfl, hq⟩
    · cases k <;> rfl
    · rcases k with _ | k
      · rfl
      · simp only [take, Nat.not_lt.mpr hx, if_false, ih hq]

/-- The last group and the groups before it span exactly the numbers of `bits` bits. -/
theorem maxLastGroup_span (bits : ℕ) : (maxLastGroup bits + 1) * 128 ^ (bits / 7) = 2 ^ bits := by
  have hp : 0 < 2 ^ (bits % 7) := by positivity
  -- the bits of the last group, and seven for each of the others
  have hb : bits = bits % 7 + 7 * (bits / 7) := by omega
  have h128 : (128 : ℕ) = 2 ^ 7 := by norm_num
  calc (maxLastGroup bits + 1) * 128 ^ (bits / 7)
      = 2 ^ (bits % 7) * 128 ^ (bits / 7) := by rw [maxLastGroup, Nat.sub_add_cancel hp]
    _ = 2 ^ (bits % 7 + 7 * (bits / 7)) := by rw [h128, ← pow_mul, ← pow_add]
    _ = 2 ^ bits := by rw [← hb]

section Bits

variable {bits : ℕ} (hbits : bits % 7 ≠ 0) (short : ε)
include hbits

theorem maxGroups_eq : maxGroups bits = bits / 7 + 1 := by
  unfold maxGroups
  omega

/-- **What the reader accepts**: a complete sequence of groups, of no more groups than the type
needs, whose value fits the type. -/
theorem read_eq_ok_iff {b s : Bytes} {n : ℕ} :
    read short bits b = .ok (n, s) ↔
      ∃ c, b = c ++ s ∧ Groups c n ∧ c.length ≤ maxGroups bits ∧ n < 2 ^ bits := by
  rw [maxGroups_eq hbits, ← maxLastGroup_span bits,
    ← take_eq_some_iff, read, maxGroups_eq hbits]
  cases take (maxLastGroup bits) (bits / 7 + 1) b <;> simp

theorem length_encode_le_maxGroups {n : ℕ} (hn : n < 2 ^ bits) :
    (encode n).length ≤ maxGroups bits := by
  rw [maxGroups_eq hbits]
  apply length_encode_le
  calc n < 2 ^ bits := hn
    _ ≤ 2 ^ (7 * (bits / 7 + 1)) := Nat.pow_le_pow_right (by decide) (by omega)
    _ = 128 ^ (bits / 7 + 1) := by rw [pow_mul]; norm_num

theorem read_encode {n : ℕ} (hn : n < 2 ^ bits) (s : Bytes) :
    read short bits (encode n ++ s) = .ok (n, s) :=
  (read_eq_ok_iff hbits short).mpr
    ⟨encode n, rfl, groups_encode n, length_encode_le_maxGroups hbits hn, hn⟩

omit hbits in
theorem read_cutShort {n : ℕ} {p : Bytes} (hp : CutShort p (encode n)) :
    read short bits p = .error short := by
  rw [read, take_cutShort (groups_encode n) hp]

omit hbits in
/-- The reader has one cause to stop. -/
theorem read_error {b : Bytes} {e : ε} (h : read short bits b = .error e) : e = short := by
  unfold read at h
  split at h
  · exact (Except.error.inj h).symm
  · cases h

end Bits

end Leb128

/-! ## The format of a type of numbers -/

namespace Format

/-- The format of a type of numbers of `bits` bits. -/
def varint (short : ε) (bits : ℕ) (toNat : α → ℕ) (ofNat : ℕ → α) : Format ε α where
  write a := Leb128.encode (toNat a)
  read b :=
    match Leb128.read short bits b with
    | .error e => .error e
    | .ok (n, b) => .ok (ofNat n, b)

theorem varint_read_eq_ok_iff {short : ε} {bits : ℕ} {toNat : α → ℕ} {ofNat : ℕ → α}
    {b s : Bytes} {a : α} :
    (varint short bits toNat ofNat).read b = .ok (a, s) ↔
      ∃ n, Leb128.read short bits b = .ok (n, s) ∧ ofNat n = a := by
  simp only [Format.varint]
  rcases Leb128.read short bits b with e | ⟨n, r⟩
  · simp
  · simp [and_comm]

theorem Lawful.varint (short : ε) {bits : ℕ} (hbits : bits % 7 ≠ 0) {toNat : α → ℕ}
    {ofNat : ℕ → α} (hlt : ∀ a, toNat a < 2 ^ bits) (hinv : ∀ a, ofNat (toNat a) = a) :
    (Format.varint short bits toNat ofNat).Lawful short where
  read_write a s := by simp only [Format.varint, Leb128.read_encode hbits short (hlt a), hinv]
  read_cutShort a p hp := by simp only [Format.varint, Leb128.read_cutShort short hp]

end Format

end Codec
