import Mathlib.Algebra.Ring.Nat
import Mathlib.Order.Monotone.Basic
import Mathlib.Order.Nat

/-!
# Growable arrays

A growable array keeps room beyond the elements that it holds. When there is too little of it, it
grows: to twice the room that it has, or to as much as is needed if that is more, and never to less
than a least capacity. So what it has taken in the end is never more than twice what it holds,
unless that is less than the least capacity, however the elements came.

## Main definitions

* `Growable.reserve least cap len additional`: the capacity, with room for `additional` elements
  behind `len`
* `Growable.extend least cap len pieces`: the capacity after pieces of these lengths came
* `Growable.roomFor least n`: the capacity after `n` elements came one at a time

## Main results

* `Growable.reserve_le`, `Growable.extend_le`: at most twice what is held, or the least capacity
* `Growable.roomFor_mono`, `Growable.roomFor_le`: elements one at a time
-/

namespace Codec.Growable

variable {least cap len additional held : ℕ}

/-- The capacity of an array that holds `len` elements, once there is room for more. -/
def reserve (least cap len additional : ℕ) : ℕ :=
  if len + additional ≤ cap then cap else max (max (2 * cap) (len + additional)) least

/-- The capacity of an array that holds `len` elements, after pieces of these lengths came. -/
def extend (least : ℕ) : (cap len : ℕ) → List ℕ → ℕ
  | cap, _, [] => cap
  | cap, len, n :: pieces => extend least (reserve least cap len n) (len + n) pieces

/-- The capacity of an array that was empty, after `n` elements came one at a time. -/
def roomFor (least : ℕ) : ℕ → ℕ
  | 0 => 0
  | n + 1 => reserve least (roomFor least n) n 1

theorem le_reserve (least cap len additional : ℕ) : cap ≤ reserve least cap len additional := by
  rw [reserve]
  split_ifs <;> omega

/-- What the capacity is bounded by before, it is bounded by afterwards: an array only grows where
what it holds is more than its capacity. Of the `held` elements that came, some may be gone. -/
theorem reserve_le (h : cap ≤ max least (2 * held)) (hlen : len ≤ held) :
    reserve least cap len additional ≤ max least (2 * (held + additional)) := by
  rw [reserve]
  split_ifs with hroom <;> omega

/-- **An array takes at most twice what it holds**, or the least capacity. -/
theorem extend_le (h : cap ≤ max least (2 * len)) (pieces : List ℕ) :
    extend least cap len pieces ≤ max least (2 * (len + pieces.sum)) := by
  induction pieces generalizing cap len with
  | nil => exact h
  | cons n pieces ih =>
    rw [extend, List.sum_cons, ← Nat.add_assoc]
    exact ih (reserve_le h le_rfl)

theorem extend_empty_le (least : ℕ) (pieces : List ℕ) :
    extend least 0 0 pieces ≤ max least (2 * pieces.sum) := by
  have h := extend_le (Nat.zero_le (max least (2 * 0))) pieces
  rwa [Nat.zero_add] at h

theorem roomFor_mono (least : ℕ) : Monotone (roomFor least) :=
  monotone_nat_of_le_succ fun n => le_reserve least (roomFor least n) n 1

theorem roomFor_le (least n : ℕ) : roomFor least n ≤ max least (2 * n) := by
  induction n with
  | zero => exact Nat.zero_le _
  | succ n ih => exact reserve_le ih le_rfl

end Codec.Growable
