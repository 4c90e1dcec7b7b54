import Meshwarden.Codec.Sequence
import Mathlib.Data.List.Basic

/-!
# Base32 without padding

The base32 encoding of RFC 4648 with the upper-case alphabet and no padding characters. The input
is regarded as one string of bits, most significant bit first; each symbol stands for five bits,
and the bits of the last symbol are filled up with zeros. The decoder refuses characters outside
the alphabet, lengths that no input has, and non-zero bits in the fill.

## Main definitions

* `bitsOf w n`, `ofBits`: the `w` low bits of a number, and the number of a string of bits
* `quintets`, `octets`, `leftover`: a string of bits cut into groups of five, and of eight
* `ascii`: the string of some ASCII codes
* `Base32.encode`, `Base32.decode`

## Main results

* `Base32.decode_eq_some_iff`: a text is decoded exactly when it is the encoding of what it is
  decoded to
* `Base32.length_utf8_encode`: the number of symbols
* `Base32.exists_decode_iff`: which strings of 26 symbols are texts
-/

namespace Codec

/-! ## Strings of bits -/

/-- The `w` low bits of `n`, most significant bit first. -/
def bitsOf : ℕ → ℕ → List Bool
  | 0, _ => []
  | w + 1, n => n.testBit w :: bitsOf w n

/-- The number of a string of bits, most significant bit first. -/
def ofBits : List Bool → ℕ
  | [] => 0
  | b :: l => b.toNat * 2 ^ l.length + ofBits l

@[simp] theorem length_bitsOf (w n : ℕ) : (bitsOf w n).length = w := by
  induction w with
  | zero => rfl
  | succ w ih => simp [bitsOf, ih]

theorem ofBits_lt (l : List Bool) : ofBits l < 2 ^ l.length := by
  induction l with
  | nil => simp [ofBits]
  | cons b l ih =>
    have hb : b.toNat ≤ 1 := Bool.toNat_le b
    have hm : b.toNat * 2 ^ l.length ≤ 1 * 2 ^ l.length := Nat.mul_le_mul_right _ hb
    rw [ofBits, List.length_cons, pow_succ]
    omega

/-- Only the low bits of a number matter to `bitsOf`. -/
theorem bitsOf_congr {w n m : ℕ} (h : ∀ i < w, n.testBit i = m.testBit i) :
    bitsOf w n = bitsOf w m := by
  induction w with
  | zero => rfl
  | succ w ih => rw [bitsOf, bitsOf, h w (by omega), ih fun i hi => h i (by omega)]

@[simp] theorem bitsOf_ofBits (l : List Bool) : bitsOf l.length (ofBits l) = l := by
  induction l with
  | nil => rfl
  | cons b l ih =>
    have hlt := ofBits_lt l
    -- the first bit stands at position `l.length`, the others below it
    have hmul : ofBits (b :: l) = 2 ^ l.length * b.toNat + ofBits l := by
      rw [ofBits, Nat.mul_comm]
    have hhigh : (ofBits (b :: l)).testBit l.length = b := by
      rw [hmul, Nat.testBit_two_pow_mul_add _ hlt, if_neg (lt_irrefl _), Nat.sub_self]
      cases b <;> rfl
    have hlow : bitsOf l.length (ofBits (b :: l)) = bitsOf l.length (ofBits l) := by
      apply bitsOf_congr
      intro i hi
      rw [hmul, Nat.testBit_two_pow_mul_add _ hlt, if_pos hi]
    rw [List.length_cons, bitsOf, hhigh, hlow, ih]

theorem ofBits_bitsOf {w n : ℕ} (h : n < 2 ^ w) : ofBits (bitsOf w n) = n := by
  have hlt := ofBits_lt (bitsOf w n)
  rw [length_bitsOf] at hlt
  have heq := bitsOf_ofBits (bitsOf w n)
  rw [length_bitsOf] at heq
  -- bit by bit: below `w` both come from the same string, above it both are zero
  apply Nat.eq_of_testBit_eq
  intro i
  rcases Nat.lt_or_ge i w with hi | hi
  · have hget : ∀ m, ∀ w, i < w → (bitsOf w m)[w - 1 - i]? = some (m.testBit i) := by
      intro m w
      induction w with
      | zero => exact fun hw => absurd hw (Nat.not_lt_zero i)
      | succ w ih =>
        intro hw
        rcases Nat.lt_or_ge i w with hlt | hge
        · rw [bitsOf, show w + 1 - 1 - i = w - 1 - i + 1 by omega, List.getElem?_cons_succ, ih hlt]
        · obtain rfl : i = w := by omega
          rw [bitsOf, Nat.add_sub_cancel, Nat.sub_self, List.getElem?_cons_zero]
    have h₁ := hget (ofBits (bitsOf w n)) w hi
    rw [heq, hget n w hi] at h₁
    exact (Option.some.inj h₁).symm
  · have hpow : 2 ^ w ≤ 2 ^ i := Nat.pow_le_pow_right (by decide) hi
    rw [Nat.testBit_lt_two_pow (hlt.trans_le hpow), Nat.testBit_lt_two_pow (h.trans_le hpow)]

/-- The last bits of a number are its low bits. -/
theorem drop_bitsOf {w r : ℕ} (h : r ≤ w) (n : ℕ) : (bitsOf w n).drop (w - r) = bitsOf r n := by
  induction w with
  | zero =>
    obtain rfl := Nat.le_zero.mp h
    rfl
  | succ w ih =>
    rcases Nat.lt_or_eq_of_le h with hlt | rfl
    · rw [Nat.succ_sub (Nat.le_of_lt_succ hlt), bitsOf, List.drop_succ_cons,
        ih (Nat.le_of_lt_succ hlt)]
    · rw [Nat.sub_self, List.drop_zero]

/-- The low bits of a number are zero when it is a multiple of their power of two. -/
theorem true_notMem_bitsOf {w n : ℕ} : true ∉ bitsOf w n ↔ n % 2 ^ w = 0 := by
  induction w with
  | zero => simp [bitsOf, Nat.mod_one]
  | succ w ih =>
    have hpos : 0 < 2 ^ w := by positivity
    rw [bitsOf, List.mem_cons, not_or, ih, Nat.mod_pow_succ, Nat.testBit_eq_decide_div_mod_eq]
    rcases Nat.mod_two_eq_zero_or_one (n / 2 ^ w) with h | h
    · simp [h]
    · simp [h]

/-! ## Groups of five and of eight bits -/

/-- The numbers of the groups of five bits; the last group is filled up with zeros. -/
def quintets : List Bool → List ℕ
  | a :: b :: c :: d :: e :: l => ofBits [a, b, c, d, e] :: quintets l
  | [] => []
  | l => [ofBits (l ++ List.replicate (5 - l.length) false)]

/-- The bytes of the groups of eight bits; an incomplete last group gives none. -/
def octets : List Bool → Bytes
  | a :: b :: c :: d :: e :: f :: g :: h :: l =>
    UInt8.ofNat (ofBits [a, b, c, d, e, f, g, h]) :: octets l
  | _ => []

/-- The bits of an incomplete last group of eight. -/
def leftover : List Bool → List Bool
  | _ :: _ :: _ :: _ :: _ :: _ :: _ :: _ :: l => leftover l
  | l => l

/-- The bits of some bytes. -/
def bitsOfBytes (l : Bytes) : List Bool := l.flatMap fun x => bitsOf 8 x.toNat

theorem length_bitsOfBytes (l : Bytes) : (bitsOfBytes l).length = 8 * l.length := by
  induction l with
  | nil => rfl
  | cons x l ih =>
    rw [bitsOfBytes, List.flatMap_cons, List.length_append, length_bitsOf, ← bitsOfBytes, ih,
      List.length_cons]
    omega

theorem octets_bitsOfBytes_append (l : Bytes) {z : List Bool} (hz : z.length < 8) :
    octets (bitsOfBytes l ++ z) = l ∧ leftover (bitsOfBytes l ++ z) = z := by
  induction l with
  | nil =>
    -- no byte is left: the fill is an incomplete group
    rcases z with _ | ⟨_, _ | ⟨_, _ | ⟨_, _ | ⟨_, _ | ⟨_, _ | ⟨_, _ | ⟨_, _ | ⟨_, _⟩⟩⟩⟩⟩⟩⟩⟩ <;>
      first
      | exact ⟨rfl, rfl⟩
      | (simp only [List.length_cons] at hz; omega)
  | cons x l ih =>
    -- the eight bits of a byte are a group of their own
    have hx : UInt8.ofNat (ofBits (bitsOf 8 x.toNat)) = x := by
      rw [ofBits_bitsOf x.toNat_lt]
      exact UInt8.ofNat_toNat
    simp only [bitsOf] at hx
    simp only [bitsOfBytes, List.flatMap_cons, bitsOf, List.cons_append, List.nil_append, octets,
      leftover] at ih ⊢
    exact ⟨by rw [hx, ih.1], ih.2⟩

/-- Whatever is cut into octets is the bits of the octets and what is left over. -/
theorem bitsOfBytes_octets_append (l : List Bool) : bitsOfBytes (octets l) ++ leftover l = l := by
  fun_induction octets l with
  | case1 a b c d e f g h l ih =>
    have hlt : ofBits [a, b, c, d, e, f, g, h] < 2 ^ 8 := ofBits_lt [a, b, c, d, e, f, g, h]
    have hx := UInt8.toNat_ofNat_of_lt' hlt
    have hbits : bitsOf 8 (ofBits [a, b, c, d, e, f, g, h]) = [a, b, c, d, e, f, g, h] :=
      bitsOf_ofBits [a, b, c, d, e, f, g, h]
    rw [bitsOfBytes, List.flatMap_cons, hx, hbits, List.append_assoc, leftover, ← bitsOfBytes, ih]
    rfl
  | case2 l hshort =>
    -- fewer than eight bits are all left over
    rw [leftover, bitsOfBytes, List.flatMap_nil, List.nil_append]
    exact hshort

theorem length_octets (l : List Bool) : (octets l).length = l.length / 8 := by
  fun_induction octets l with
  | case1 a b c d e f g h l ih => simp only [List.length_cons, ih]; omega
  | case2 l hshort =>
    rcases l with _ | ⟨a, _ | ⟨b, _ | ⟨c, _ | ⟨d, _ | ⟨e, _ | ⟨f, _ | ⟨g, _ | ⟨h, l⟩⟩⟩⟩⟩⟩⟩⟩ <;>
      first
      | exact (hshort _ _ _ _ _ _ _ _ _ rfl).elim
      | simp

/-- What is left over stands behind the octets. -/
theorem leftover_eq_drop (l : List Bool) : leftover l = l.drop (8 * (l.length / 8)) := by
  have h := congrArg (List.drop (bitsOfBytes (octets l)).length) (bitsOfBytes_octets_append l)
  rw [List.drop_left, length_bitsOfBytes, length_octets] at h
  exact h

/-- The bits of the symbols are the bits that were cut up, filled up with fewer than five zeros. -/
theorem flatMap_bitsOf_quintets (l : List Bool) :
    ∃ k < 5, (quintets l).flatMap (bitsOf 5) = l ++ List.replicate k false := by
  fun_induction quintets l with
  | case1 a b c d e l ih =>
    obtain ⟨k, hk, h⟩ := ih
    refine ⟨k, hk, ?_⟩
    rw [List.flatMap_cons, h, show bitsOf 5 (ofBits [a, b, c, d, e]) = [a, b, c, d, e] from
      bitsOf_ofBits [a, b, c, d, e]]
    rfl
  | case2 => exact ⟨0, by decide, rfl⟩
  | case3 l hlong hnil =>
    -- the last group has between one and four bits
    have hl : l.length < 5 := by
      rcases l with _ | ⟨a, _ | ⟨b, _ | ⟨c, _ | ⟨d, _ | ⟨e, l⟩⟩⟩⟩⟩
      · simp
      · simp
      · simp
      · simp
      · simp
      · exact (hlong a b c d e l rfl).elim
    have hpos : 0 < l.length := List.length_pos_iff.mpr hnil
    refine ⟨5 - l.length, by omega, ?_⟩
    have h := bitsOf_ofBits (l ++ List.replicate (5 - l.length) false)
    rw [List.length_append, List.length_replicate, show l.length + (5 - l.length) = 5 by omega] at h
    rw [List.flatMap_cons, List.flatMap_nil, List.append_nil, h]

theorem quintets_lt {l : List Bool} {n : ℕ} (h : n ∈ quintets l) : n < 32 := by
  fun_induction quintets l with
  | case1 a b c d e l ih =>
    rcases List.mem_cons.mp h with rfl | h
    · exact ofBits_lt [a, b, c, d, e]
    · exact ih h
  | case2 => cases h
  | case3 l hlong _ =>
    have hl : l.length ≤ 5 := by
      rcases l with _ | ⟨a, _ | ⟨b, _ | ⟨c, _ | ⟨d, _ | ⟨e, l⟩⟩⟩⟩⟩ <;>
        first
        | exact (hlong a b c d e l rfl).elim
        | simp
    obtain rfl := List.mem_singleton.mp h
    have h := ofBits_lt (l ++ List.replicate (5 - l.length) false)
    rwa [List.length_append, List.length_replicate, Nat.add_sub_of_le hl] at h

theorem length_quintets (l : List Bool) : (quintets l).length = (l.length + 4) / 5 := by
  fun_induction quintets l with
  | case1 a b c d e l ih => simp only [List.length_cons, ih]; omega
  | case2 => rfl
  | case3 l hlong hnil =>
    rcases l with _ | ⟨a, _ | ⟨b, _ | ⟨c, _ | ⟨d, _ | ⟨e, l⟩⟩⟩⟩⟩ <;>
      first
      | exact (hnil rfl).elim
      | exact (hlong a b c d e l rfl).elim
      | simp

theorem length_flatMap_bitsOf (w : ℕ) (l : List ℕ) :
    (l.flatMap (bitsOf w)).length = w * l.length := by
  induction l with
  | nil => rfl
  | cons n l ih =>
    rw [List.flatMap_cons, List.length_append, length_bitsOf, ih, List.length_cons, Nat.mul_succ,
      Nat.add_comm]

/-- The groups of five of the bits of some groups of five are these groups. -/
theorem quintets_flatMap_bitsOf {l : List ℕ} (h : ∀ n ∈ l, n < 32) :
    quintets (l.flatMap (bitsOf 5)) = l := by
  induction l with
  | nil => rfl
  | cons n l ih =>
    have hn : ofBits (bitsOf 5 n) = n := ofBits_bitsOf (h n List.mem_cons_self)
    rw [List.flatMap_cons]
    simp only [bitsOf] at hn
    simp only [bitsOf, List.cons_append, List.nil_append, quintets, hn]
    exact congrArg _ (ih fun m hm => h m (List.mem_cons_of_mem n hm))

/-- The last group is filled up with zeros anyway. -/
theorem quintets_append_replicate {l : List Bool} {k : ℕ} (hk : k < 5)
    (h : (l.length + k) % 5 = 0) : quintets (l ++ List.replicate k false) = quintets l := by
  fun_induction quintets l with
  | case1 a b c d e l ih =>
    have hl : (l.length + k) % 5 = 0 := by
      simp only [List.length_cons] at h
      omega
    simp only [List.cons_append, quintets, ih hl]
  | case2 =>
    obtain rfl : k = 0 := by
      simp only [List.length_nil] at h
      omega
    rfl
  | case3 l hlong hnil =>
    -- the fill completes the last group, whatever its length
    have hk' : ∀ m, l.length = m → (m + k) % 5 = 0 := fun m hm => hm ▸ h
    rcases l with _ | ⟨a, _ | ⟨b, _ | ⟨c, _ | ⟨d, _ | ⟨e, l⟩⟩⟩⟩⟩
    · exact (hnil rfl).elim
    · obtain rfl : k = 4 := by have := hk' 1 rfl; omega
      rfl
    · obtain rfl : k = 3 := by have := hk' 2 rfl; omega
      rfl
    · obtain rfl : k = 2 := by have := hk' 3 rfl; omega
      rfl
    · obtain rfl : k = 1 := by have := hk' 4 rfl; omega
      rfl
    · exact (hlong a b c d e l rfl).elim

/-! ## ASCII strings -/

/-- The string of some ASCII codes. -/
def ascii (l : Bytes) : String := String.ofList (l.map Char.ofUInt8)

theorem utf8_ofList (l : List Char) : utf8 (String.ofList l) = l.flatMap String.utf8EncodeChar := by
  rw [utf8, String.toByteArray_ofList, List.utf8Encode]
  simp

theorem utf8_append (s t : String) : utf8 (s ++ t) = utf8 s ++ utf8 t := by
  rw [utf8, String.toByteArray_append, utf8, utf8]
  simp

theorem utf8EncodeChar_ascii {x : UInt8} (h : x.toNat < 128) :
    String.utf8EncodeChar (Char.ofUInt8 x) = [x] := by
  have hv : (Char.ofUInt8 x).val = x.toUInt32 := rfl
  rw [String.utf8EncodeChar_eq_singleton, hv, UInt8.toUInt8_toUInt32]
  rw [Char.utf8Size_eq_one_iff, UInt32.le_iff_toNat_le, hv, UInt8.toNat_toUInt32]
  exact Nat.le_of_lt_succ h

@[simp] theorem utf8_ascii {l : Bytes} (h : ∀ x ∈ l, x.toNat < 128) : utf8 (ascii l) = l := by
  rw [ascii, utf8_ofList]
  induction l with
  | nil => rfl
  | cons x l ih =>
    rw [List.map_cons, List.flatMap_cons, utf8EncodeChar_ascii (h x (by simp)),
      ih fun y hy => h y (by simp [hy]), List.singleton_append]

/-! ## Symbols -/

namespace Base32

/-- The ASCII code of a symbol: `A` to `Z`, then `2` to `7`. -/
def symbol (n : ℕ) : UInt8 := UInt8.ofNat (if n < 26 then 65 + n else 24 + n)

/-- The value of a symbol; any other character has none. -/
def value (x : UInt8) : Option ℕ :=
  if 65 ≤ x.toNat ∧ x.toNat ≤ 90 then some (x.toNat - 65)
  else if 50 ≤ x.toNat ∧ x.toNat ≤ 55 then some (x.toNat - 24)
  else none

-- the alphabet of RFC 4648
example : ascii ((List.range 32).map symbol) = "ABCDEFGHIJKLMNOPQRSTUVWXYZ234567" := rfl

theorem toNat_symbol {n : ℕ} (h : n < 32) :
    (symbol n).toNat = if n < 26 then 65 + n else 24 + n := by
  unfold symbol
  split_ifs <;> exact UInt8.toNat_ofNat_of_lt' (by simp only [UInt8.size]; omega)

theorem value_symbol {n : ℕ} (h : n < 32) : value (symbol n) = some n := by
  rw [value, toNat_symbol h]
  split_ifs <;> first | omega | (congr 1; omega)

/-- The symbols of some bytes. -/
def symbols (l : Bytes) : Bytes := (quintets (bitsOfBytes l)).map symbol

/-- The base32 text of some bytes. -/
def encode (l : Bytes) : String := ascii (symbols l)

/-- The bytes of a base32 text. Fewer than five bits may be left over, and they must be zero. -/
def decode (s : Bytes) : Option Bytes :=
  match s.mapM value with
  | none => none
  | some values =>
    let bits := values.flatMap (bitsOf 5)
    if (leftover bits).length < 5 ∧ true ∉ leftover bits then some (octets bits) else none

/-- Symbols are ASCII characters. -/
theorem ascii_symbols {l : Bytes} {x : UInt8} (hx : x ∈ symbols l) : x.toNat < 128 := by
  obtain ⟨n, hn, rfl⟩ := List.mem_map.mp hx
  have hlt := quintets_lt hn
  rw [toNat_symbol hlt]
  split_ifs <;> omega

theorem utf8_encode (l : Bytes) : utf8 (encode l) = symbols l := by
  apply utf8_ascii
  intro x hx
  exact ascii_symbols hx

theorem length_utf8_encode (l : Bytes) : (utf8 (encode l)).length = (8 * l.length + 4) / 5 := by
  rw [utf8_encode, symbols, List.length_map, length_quintets, length_bitsOfBytes]

theorem eq_symbol_of_value {x : UInt8} {n : ℕ} (h : value x = some n) : x = symbol n ∧ n < 32 := by
  rw [value] at h
  split_ifs at h with hletter hdigit
  · obtain rfl := Option.some.inj h
    refine ⟨?_, by omega⟩
    rw [← UInt8.toNat_inj, toNat_symbol (by omega), if_pos (by omega)]
    omega
  · obtain rfl := Option.some.inj h
    refine ⟨?_, by omega⟩
    rw [← UInt8.toNat_inj, toNat_symbol (by omega), if_neg (by omega)]
    omega

theorem mapM_value_map_symbol {l : List ℕ} (h : ∀ n ∈ l, n < 32) :
    (l.map symbol).mapM value = some l := by
  induction l with
  | nil => rfl
  | cons n l ih =>
    rw [List.map_cons, List.mapM_cons, value_symbol (h n (by simp)),
      ih fun m hm => h m (by simp [hm])]
    rfl

/-- The values of a text are those its symbols stand for. -/
theorem eq_map_symbol_of_mapM_value {s : Bytes} {l : List ℕ} (h : s.mapM value = some l) :
    s = l.map symbol ∧ ∀ n ∈ l, n < 32 := by
  induction s generalizing l with
  | nil =>
    obtain rfl := Option.some.inj h
    exact ⟨rfl, fun n hn => absurd hn List.not_mem_nil⟩
  | cons x s ih =>
    rw [List.mapM_cons] at h
    obtain ⟨n, hn, h⟩ := Option.bind_eq_some_iff.mp h
    obtain ⟨m, hm, h⟩ := Option.bind_eq_some_iff.mp h
    obtain rfl := Option.some.inj h
    obtain ⟨rfl, hlt⟩ := ih hm
    obtain ⟨rfl, hn32⟩ := eq_symbol_of_value hn
    exact ⟨rfl, List.forall_mem_cons.mpr ⟨hn32, hlt⟩⟩

/-- The text of some values: decoding looks at what is left over of their bits. -/
theorem decode_map_symbol {l : List ℕ} (h : ∀ n ∈ l, n < 32) (b : Bytes) :
    decode (l.map symbol) = some b ↔
      ∃ k < 5, l.flatMap (bitsOf 5) = bitsOfBytes b ++ List.replicate k false := by
  rw [decode, mapM_value_map_symbol h]
  simp only
  constructor
  · intro hd
    split_ifs at hd with hz
    obtain rfl := Option.some.inj hd
    -- what is left over is fewer than five zeros
    refine ⟨(leftover (l.flatMap (bitsOf 5))).length, hz.1, ?_⟩
    have hrep : leftover (l.flatMap (bitsOf 5)) =
        List.replicate (leftover (l.flatMap (bitsOf 5))).length false := by
      apply List.eq_replicate_of_mem
      intro x hx
      rcases x with _ | _
      · rfl
      · exact absurd hx hz.2
    rw [← hrep, bitsOfBytes_octets_append]
  · rintro ⟨k, hk, hbits⟩
    have hz : (List.replicate k false).length < 8 := by rw [List.length_replicate]; omega
    obtain ⟨hoct, hleft⟩ := octets_bitsOfBytes_append b hz
    rw [hbits, hoct, hleft, List.length_replicate, if_pos]
    exact ⟨hk, fun ht => Bool.noConfusion (List.eq_of_mem_replicate ht)⟩

/-- **Decoding inverts encoding.** -/
theorem decode_encode (l : Bytes) : decode (utf8 (encode l)) = some l := by
  rw [utf8_encode, symbols, decode_map_symbol fun n hn => quintets_lt hn]
  exact flatMap_bitsOf_quintets (bitsOfBytes l)

/-- **No text is decoded but the encoding of what it is decoded to.** -/
theorem decode_eq_some_iff {s b : Bytes} : decode s = some b ↔ utf8 (encode b) = s := by
  constructor
  · intro h
    rcases hv : s.mapM value with _ | l
    · rw [decode, hv] at h
      cases h
    obtain ⟨rfl, hlt⟩ := eq_map_symbol_of_mapM_value hv
    obtain ⟨k, hk, hbits⟩ := (decode_map_symbol hlt b).mp h
    -- the groups of five of the bytes are those of the symbols: the fill is the same
    have hlen : ((bitsOfBytes b).length + k) % 5 = 0 := by
      have hl := congrArg List.length hbits
      rw [List.length_append, List.length_replicate, length_flatMap_bitsOf] at hl
      omega
    rw [utf8_encode, symbols, ← quintets_append_replicate hk hlen, ← hbits,
      quintets_flatMap_bitsOf hlt]
  · rintro rfl
    exact decode_encode b

/-- **Which strings of symbols are texts**: fewer than five bits are left over in the last symbol,
and they are zero. -/
theorem exists_decode_iff {l : List ℕ} {last : ℕ} (h : ∀ n ∈ l ++ [last], n < 32) {r : ℕ}
    (hr : 5 * (l.length + 1) % 8 = r) (hr5 : r < 5) :
    (∃ b, decode ((l ++ [last]).map symbol) = some b) ↔ last % 2 ^ r = 0 := by
  -- the bits left over are the last ones of the last symbol
  have hleft : leftover ((l ++ [last]).flatMap (bitsOf 5)) = bitsOf r last := by
    rw [leftover_eq_drop, length_flatMap_bitsOf, List.length_append, List.length_singleton,
      List.flatMap_append, List.flatMap_singleton, List.drop_append, length_flatMap_bitsOf,
      List.drop_eq_nil_of_le (by rw [length_flatMap_bitsOf]; omega), List.nil_append,
      show 8 * (5 * (l.length + 1) / 8) - 5 * l.length = 5 - r by omega,
      drop_bitsOf (Nat.le_of_lt hr5)]
  rw [decode, mapM_value_map_symbol h]
  simp only [hleft, length_bitsOf, hr5, true_and, true_notMem_bitsOf]
  split_ifs with hz
  · exact ⟨fun _ => hz, fun _ => ⟨_, rfl⟩⟩
  · constructor
    · rintro ⟨b, hb⟩
      cases hb
    · intro hz'
      exact absurd hz' hz

end Base32

end Codec
