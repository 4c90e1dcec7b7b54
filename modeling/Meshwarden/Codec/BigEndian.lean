import Meshwarden.Codec.Format
import Mathlib.Tactic.Positivity
import Mathlib.Tactic.Ring

/-!
# Big-endian integers of a fixed width

## Main definitions

* `beBytes w n`: the low `w` bytes of `n`, most significant first
* `ofBeBytes b`: the number that the bytes of `b` spell

## Main results

* `ofBeBytes_beBytes`, `beBytes_ofBeBytes`: a bijection between the numbers below `256 ^ w` and the
  byte strings of length `w`
-/

namespace Codec

/-- The low `w` bytes of `n`, most significant first. -/
def beBytes : ℕ → ℕ → Bytes
  | 0, _ => []
  | w + 1, n => UInt8.ofNat (n / 256 ^ w % 256) :: beBytes w n

/-- The number that a byte string spells. -/
def ofBeBytes : Bytes → ℕ
  | [] => 0
  | x :: b => x.toNat * 256 ^ b.length + ofBeBytes b

@[simp] theorem length_beBytes (w n : ℕ) : (beBytes w n).length = w := by
  induction w with
  | zero => rfl
  | succ w ih => rw [beBytes, List.length_cons, ih]

theorem ofBeBytes_lt (b : Bytes) : ofBeBytes b < 256 ^ b.length := by
  induction b with
  | nil => exact Nat.one_pos
  | cons x b ih =>
    calc x.toNat * 256 ^ b.length + ofBeBytes b
        < x.toNat * 256 ^ b.length + 256 ^ b.length := Nat.add_lt_add_left ih _
      _ = (x.toNat + 1) * 256 ^ b.length := (Nat.succ_mul _ _).symm
      _ ≤ 256 * 256 ^ b.length := Nat.mul_le_mul_right _ x.toNat_lt
      _ = 256 ^ (b.length + 1) := (Nat.pow_succ').symm

theorem ofBeBytes_beBytes (w n : ℕ) : ofBeBytes (beBytes w n) = n % 256 ^ w := by
  induction w with
  | zero => rw [Nat.pow_zero, Nat.mod_one]; rfl
  | succ w ih =>
    have hx : (UInt8.ofNat (n / 256 ^ w % 256)).toNat = n / 256 ^ w % 256 :=
      UInt8.toNat_ofNat_of_lt' (Nat.mod_lt _ (by decide))
    rw [beBytes, ofBeBytes, length_beBytes, ih, hx, Nat.mod_pow_succ, Nat.add_comm, Nat.mul_comm]

/-- Byte strings of one length that spell the same number are the same. -/
theorem ofBeBytes_injective {b b' : Bytes} (hl : b.length = b'.length)
    (h : ofBeBytes b = ofBeBytes b') : b = b' := by
  induction b generalizing b' with
  | nil => exact (List.eq_nil_of_length_eq_zero hl.symm).symm
  | cons x b ih =>
    rcases b' with _ | ⟨x', b'⟩
    · cases hl
    · have hl : b.length = b'.length := Nat.succ.inj hl
      have hlt := ofBeBytes_lt b
      have hlt' := ofBeBytes_lt b'
      simp only [ofBeBytes] at h
      rw [← hl] at h hlt'
      have hpos : 0 < 256 ^ b.length := by positivity
      -- the first byte is the quotient, the rest is the remainder
      have hx : x.toNat = x'.toNat := by
        have hq := congrArg (· / 256 ^ b.length) h
        simpa only [Nat.mul_comm _ (256 ^ b.length), Nat.mul_add_div hpos,
          Nat.div_eq_of_lt hlt, Nat.div_eq_of_lt hlt', Nat.add_zero] using hq
      have hr : ofBeBytes b = ofBeBytes b' := by
        rw [hx] at h
        exact Nat.add_left_cancel h
      rw [UInt8.toNat_inj.mp hx, ih hl hr]

theorem beBytes_ofBeBytes (b : Bytes) : beBytes b.length (ofBeBytes b) = b := by
  apply ofBeBytes_injective (length_beBytes _ _)
  rw [ofBeBytes_beBytes, Nat.mod_eq_of_lt (ofBeBytes_lt b)]

end Codec
