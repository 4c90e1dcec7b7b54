import Mathlib.Algebra.Group.Nat.Defs
import Meshwarden.Proto.Basic

/-!
# The violation channel and strict decoding

A bound violation found inside a deserialization is destroyed by the payload codec, whose errors
carry nothing. It travels beside the error instead, in a single thread-local slot. A scope guards
the slot for one decode attempt; a thread-local depth counts the scopes that are open, and only the
outermost one clears the slot, on entry and on drop. The first violation recorded wins.

`decodeExact` opens a scope, deserializes, reads the slot when that failed, and requires that every
byte was consumed otherwise. The two thread-locals are an explicit state here.

## Main definitions

* `ThreadLocals`, `recordViolation`, `ViolationScope.enter`, `ViolationScope.take`,
  `ViolationScope.drop`
* `De α`: a deserialization of `α` on a thread
* `decodeExact`
* `De.ofReading`: the deserialization of a reading that names its violation
* `outcome`: what strict decoding makes of a reading

## Main results

* `decodeExact_ofReading_result`: the result of strict decoding of a reading, with no violation in
  the way
* `decodeExact_ofReading_ok`: when it succeeds, called anywhere
-/

namespace Meshwarden.Proto

open Codec

variable {α β : Type}

/-! ## The thread-locals -/

/-- The greatest `usize` of a 64-bit target. -/
def usizeMax : ℕ := 2 ^ 64 - 1

theorem maxSignatureBytes_le_usizeMax : maxSignatureBytes ≤ usizeMax := by decide

/-- `usize::saturating_add`. -/
def saturatingAdd (a b : ℕ) : ℕ := min (a + b) usizeMax

/-- A recorded bound violation: which declared value exceeded which maximum. -/
structure Violation where
  declared : ℕ
  max : ℕ
  deriving DecidableEq, Repr

/-- The slot of the violation channel, and the number of open scopes. -/
@[ext]
structure ThreadLocals where
  violation : Option Violation
  scopeDepth : ℕ
  deriving DecidableEq, Repr

/-- The thread-locals of a new thread. -/
def ThreadLocals.fresh : ThreadLocals := ⟨none, 0⟩

/-- Records a bound violation. The first violation wins. -/
def recordViolation (declared max : ℕ) (tl : ThreadLocals) : ThreadLocals :=
  match tl.violation with
  | none => { tl with violation := some ⟨declared, max⟩ }
  | some _ => tl

namespace ViolationScope

/-- Opens a scope; the outermost one clears the slot. -/
def enter (tl : ThreadLocals) : ThreadLocals :=
  let next := saturatingAdd tl.scopeDepth 1
  if next = 1 then ⟨none, next⟩ else { tl with scopeDepth := next }

/-- Reads the slot. The outermost scope empties it; a nested one leaves it for the outermost. -/
def take (tl : ThreadLocals) : Option Violation × ThreadLocals :=
  if tl.scopeDepth ≤ 1 then (tl.violation, { tl with violation := none }) else (tl.violation, tl)

/-- Closes a scope; the outermost one clears the slot. -/
def drop (tl : ThreadLocals) : ThreadLocals :=
  let next := tl.scopeDepth - 1
  if next = 0 then ⟨none, next⟩ else { tl with scopeDepth := next }

end ViolationScope

/-! ## Deserialization -/

/-- A deserialization takes a value off the front of its input, or fails; it runs on a thread, whose
violation channel it may write. The error of a failure carries nothing that is ever looked at. -/
def De (α : Type) := Bytes → ThreadLocals → Option (α × Bytes) × ThreadLocals

namespace De

/-- A failed deserialization, `serde::de::Error::custom` among others. -/
def fail : De α := fun _ tl => (none, tl)

/-- `recordViolation` inside a visitor. -/
def record (declared max : ℕ) : De Unit := fun b tl =>
  (some ((), b), recordViolation declared max tl)

instance : Monad De where
  pure a := fun b tl => (some (a, b), tl)
  bind x f := fun b tl =>
    match x b tl with
    | (none, tl) => (none, tl)
    | (some (a, b), tl) => f a b tl

@[simp] theorem pure_apply (a : α) (b : Bytes) (tl : ThreadLocals) :
    (pure a : De α) b tl = (some (a, b), tl) := rfl

theorem bind_apply (x : De α) (f : α → De β) (b : Bytes) (tl : ThreadLocals) :
    (x >>= f) b tl =
      match x b tl with
      | (none, tl) => (none, tl)
      | (some (a, b), tl) => f a b tl := rfl

@[simp] theorem fail_apply (b : Bytes) (tl : ThreadLocals) : (fail : De α) b tl = (none, tl) := rfl

@[simp] theorem record_apply (declared max : ℕ) (b : Bytes) (tl : ThreadLocals) :
    record declared max b tl = (some ((), b), recordViolation declared max tl) := rfl

theorem bind_none {x : De α} {f : α → De β} {b : Bytes} {tl tl' : ThreadLocals}
    (h : x b tl = (none, tl')) : (x >>= f) b tl = (none, tl') := by
  rw [bind_apply, h]

theorem bind_some {x : De α} {f : α → De β} {b b' : Bytes} {tl tl' : ThreadLocals} {a : α}
    (h : x b tl = (some (a, b'), tl')) : (x >>= f) b tl = f a b' tl' := by
  rw [bind_apply, h]

end De

/-! ## Strict decoding -/

/-- Decodes a value from `bytes` and requires that every byte was consumed. -/
def decodeExact (deserialize : De α) (bytes : Bytes) (tl : ThreadLocals) :
    Except Error α × ThreadLocals :=
  -- only a failed deserialization reads the slot; the scope is dropped on every path
  match deserialize bytes (ViolationScope.enter tl) with
  | (none, tl) =>
    let (taken, tl) := ViolationScope.take tl
    let error := match taken with
      | some v => Error.boundExceeded v.declared v.max
      | none => Error.malformedWire
    (.error error, ViolationScope.drop tl)
  | (some (value, rest), tl) =>
    let remaining := rest.length
    if remaining = 0 then (.ok value, ViolationScope.drop tl)
    else (.error (.trailingBytes remaining), ViolationScope.drop tl)

/-! ## Readings on a thread -/

/-- The deserialization of a reading: where the reading stops at a violation, the violation is
recorded. -/
def De.ofReading (read : Reading (Option Violation) α) : De α := fun b tl =>
  match read b with
  | .ok r => (some r, tl)
  | .error none => (none, tl)
  | .error (some v) => (none, recordViolation v.declared v.max tl)

/-- What strict decoding makes of a reading. -/
def outcome : Except (Option Violation) (α × Bytes) → Except Error α
  | .ok (value, []) => .ok value
  | .ok (_, x :: rest) => .error (.trailingBytes (x :: rest).length)
  | .error (some v) => .error (.boundExceeded v.declared v.max)
  | .error none => .error .malformedWire

theorem enter_of_depth_zero {tl : ThreadLocals} (h : tl.scopeDepth = 0) :
    ViolationScope.enter tl = ⟨none, 1⟩ := by
  have hs : saturatingAdd tl.scopeDepth 1 = 1 := by rw [h]; decide
  simp only [ViolationScope.enter, hs, if_true]

/-- No violation is in the way of a decode that starts now: it opens the outermost scope, which
clears the slot, or the slot is empty. -/
def ThreadLocals.Clear (tl : ThreadLocals) : Prop := tl.scopeDepth = 0 ∨ tl.violation = none

theorem enter_violation {tl : ThreadLocals} (h : tl.Clear) :
    (ViolationScope.enter tl).violation = none := by
  rcases h with h | h
  · rw [enter_of_depth_zero h]
  · rw [ViolationScope.enter]
    split_ifs
    · rfl
    · exact h

theorem take_fst (tl : ThreadLocals) : (ViolationScope.take tl).1 = tl.violation := by
  rw [ViolationScope.take]
  split_ifs <;> rfl

/-- **The result of strict decoding of a reading**, with no violation in the way. -/
theorem decodeExact_ofReading_result (read : Reading (Option Violation) α) (b : Bytes)
    {tl : ThreadLocals} (h : tl.Clear) :
    (decodeExact (De.ofReading read) b tl).1 = outcome (read b) := by
  have hv := enter_violation h
  rw [decodeExact, De.ofReading]
  -- a failure without a violation, one with, a value that fills the input, and one that does not
  rcases read b with (_ | v) | ⟨value, _ | ⟨x, rest⟩⟩
  · simp only [take_fst, hv, outcome]
  · simp only [take_fst, recordViolation, hv, outcome]
  · rfl
  · rfl

/-- Success does not depend on the thread: a decode that nests in another one succeeds on the same
inputs. -/
theorem decodeExact_ofReading_ok (read : Reading (Option Violation) α) (b : Bytes)
    (tl : ThreadLocals) {value : α} :
    (decodeExact (De.ofReading read) b tl).1 = .ok value ↔ read b = .ok (value, []) := by
  rw [decodeExact, De.ofReading]
  rcases hr : read b with (_ | v) | ⟨value', _ | ⟨x, rest⟩⟩ <;> simp

end Meshwarden.Proto
