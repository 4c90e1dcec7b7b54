import Meshwarden.Proto.WireType

/-!
# Nested decodes and the violation channel

A `Deserialize` implementation can run other decodes on the same thread, keep or ignore their
errors, and record violations of its own before, between and after them. What such an
implementation does on one input is a tree: it finishes with a value or an error, records a
violation and goes on, or decodes something else and goes on with the result. It never sees the
thread-locals.

## Main definitions

* `Activity α`: what an implementation does on one input; `Activity.run`, `Activity.log`
* `Activity.NestsWithin`: how many decodes are open at once
* `Deserializer α`: an implementation
* `Event`: what a thread does at top level; `runEvents`

## Main results

* `Activity.run_inside`: inside a scope an activity leaves the depth, and the slot keeps the first
  violation
* `decodeExact_outermost`: the outermost decode, on any thread at depth zero
* `decodeExact_isolated`: after any history, a top-level decode behaves as on a new thread, leaves
  one behind, and reports the first violation recorded since it was entered
-/

namespace Meshwarden.Proto

open Codec

variable {α β : Type}

/-! ## Activities -/

/-- What a `Deserialize` implementation does on one input. -/
inductive Activity : Type → Type 1
  | ok {α : Type} (value : α) (rest : Bytes) : Activity α
  | err {α : Type} : Activity α
  | record {α : Type} (declared max : ℕ) (next : Activity α) : Activity α
  | decode {α β : Type} (deserialize : Bytes → Activity β) (bytes : Bytes)
    (next : Except Error β → Activity α) : Activity α

namespace Activity

/-- The activity on a thread. A nested decode is `decodeExact` itself; whether its error is
propagated or swallowed is up to `next`. -/
def run : {α : Type} → Activity α → ThreadLocals → Option (α × Bytes) × ThreadLocals
  | _, ok value rest, tl => (some (value, rest), tl)
  | _, err, tl => (none, tl)
  | _, record declared max next, tl => next.run (recordViolation declared max tl)
  | _, decode deserialize bytes next, tl =>
    let (result, tl) := decodeExact (fun b tl => (deserialize b).run tl) bytes tl
    (next result).run tl

/-- The violations recorded by the activity, in the order in which it records them, nested decodes
included. -/
def log : {α : Type} → Activity α → ThreadLocals → List Violation
  | _, ok _ _, _ => []
  | _, err, _ => []
  | _, record declared max next, tl =>
    ⟨declared, max⟩ :: next.log (recordViolation declared max tl)
  | _, decode deserialize bytes next, tl =>
    let (result, tl') := decodeExact (fun b tl => (deserialize b).run tl) bytes tl
    (deserialize bytes).log (ViolationScope.enter tl) ++ (next result).log tl'

/-- The activity never has more than `n` decodes of its own open at once. -/
def NestsWithin : {α : Type} → Activity α → ℕ → Prop
  | _, ok _ _, _ => True
  | _, err, _ => True
  | _, record _ _ next, n => next.NestsWithin n
  | _, decode deserialize bytes next, n =>
    (0 < n ∧ (deserialize bytes).NestsWithin (n - 1)) ∧ ∀ result, (next result).NestsWithin n

end Activity

/-- A `Deserialize` implementation. A call that is open occupies a frame of the call stack, so with
the outermost one there are never more of them than `usize` can count. -/
structure Deserializer (α : Type) where
  activity : Bytes → Activity α
  nests : ∀ b, (activity b).NestsWithin (usizeMax - 1)

/-- `T::deserialize` of an implementation. -/
def Deserializer.deserialize (T : Deserializer α) : De α := fun b tl => (T.activity b).run tl

/-! ## Inside a scope -/

theorem recordViolation_eq (declared max : ℕ) (tl : ThreadLocals) :
    recordViolation declared max tl =
      ⟨tl.violation.or (some ⟨declared, max⟩), tl.scopeDepth⟩ := by
  obtain ⟨_ | v, depth⟩ := tl <;> rfl

/-- A scope that is not the outermost one leaves the slot. -/
theorem enter_inside {tl : ThreadLocals} (h : 0 < tl.scopeDepth) (hd : tl.scopeDepth < usizeMax) :
    ViolationScope.enter tl = ⟨tl.violation, tl.scopeDepth + 1⟩ := by
  have hs : saturatingAdd tl.scopeDepth 1 = tl.scopeDepth + 1 := Nat.min_eq_left hd
  rw [ViolationScope.enter, hs]
  exact if_neg (by omega)

theorem take_inside (v : Option Violation) {depth : ℕ} (h : 0 < depth) :
    ViolationScope.take ⟨v, depth + 1⟩ = (v, ⟨v, depth + 1⟩) := by
  rw [ViolationScope.take]
  exact if_neg (by simp; omega)

theorem drop_inside (v : Option Violation) {depth : ℕ} (h : 0 < depth) :
    ViolationScope.drop ⟨v, depth + 1⟩ = ⟨v, depth⟩ := by
  rw [ViolationScope.drop]
  exact if_neg (by simp; omega)

/-- A nested decode leaves behind what its deserialization left in the slot, and the depth it was
called at. -/
theorem decodeExact_inside {deserialize : De α} {bytes : Bytes} {tl : ThreadLocals}
    {v : Option Violation} (h : 0 < tl.scopeDepth)
    (hrun : (deserialize bytes (ViolationScope.enter tl)).2 = ⟨v, tl.scopeDepth + 1⟩) :
    (decodeExact deserialize bytes tl).2 = ⟨v, tl.scopeDepth⟩ := by
  rw [decodeExact]
  -- on every path the slot stays as the deserialization left it, and one level is closed
  rcases hr : deserialize bytes (ViolationScope.enter tl) with ⟨_ | ⟨value, rest⟩, tl'⟩
  · obtain rfl : tl' = ⟨v, tl.scopeDepth + 1⟩ := by rw [← hrun, hr]
    simp only [take_inside v h, drop_inside v h]
  · obtain rfl : tl' = ⟨v, tl.scopeDepth + 1⟩ := by rw [← hrun, hr]
    simp only
    split_ifs
    · exact drop_inside v h
    · exact drop_inside v h

/-- **Inside a scope** an activity leaves the depth as it was, and the slot keeps what it had or
gets the first violation that the activity records. -/
theorem Activity.run_inside (a : Activity α) {n : ℕ} (ha : a.NestsWithin n) {tl : ThreadLocals}
    (h : 0 < tl.scopeDepth) (hn : tl.scopeDepth + n ≤ usizeMax) :
    (a.run tl).2 = ⟨tl.violation.or (a.log tl).head?, tl.scopeDepth⟩ := by
  -- induction on the activity; the invariant is the first violation and the depth
  induction a generalizing n tl with
  | ok value rest => simp [run, log]
  | err => simp [run, log]
  | record declared max next ih =>
    -- recorded only into an empty slot, and first in the log in any case
    have hr := recordViolation_eq declared max tl
    have hnext : (next.run (recordViolation declared max tl)).2 = _ :=
      ih ha (by rw [hr]; exact h) (by rw [hr]; exact hn)
    rw [run, hnext, log, hr]
    simp
  | decode deserialize bytes next ihBody ihNext =>
    obtain ⟨⟨hpos, hbody⟩, hrest⟩ := ha
    have henter := enter_inside h (show tl.scopeDepth < usizeMax by omega)
    -- the body runs one level deeper, with the slot as it stands
    have hrun : ((deserialize bytes).run (ViolationScope.enter tl)).2 = _ :=
      ihBody bytes hbody (by rw [henter]; simp) (by rw [henter]; simp only; omega)
    have hdec : (decodeExact (fun b tl => (deserialize b).run tl) bytes tl).2 = _ :=
      decodeExact_inside h (hrun.trans (by rw [henter]))
    rcases hd : decodeExact (fun b tl => (deserialize b).run tl) bytes tl with ⟨result, tl'⟩
    rw [hd] at hdec
    obtain rfl : tl' = _ := hdec
    simp only [run, log, hd]
    -- the rest finds the slot as the nested decode left it
    refine (ihNext result (hrest result) ?_ ?_).trans ?_
    · exact h
    · exact hn
    · rw [List.head?_append, henter, Option.or_assoc]

/-! ## The outermost decode -/

/-- The violations recorded by an implementation since its decode was entered at top level. -/
def Deserializer.recorded (T : Deserializer α) (bytes : Bytes) (tl : ThreadLocals) :
    List Violation :=
  (T.activity bytes).log (ViolationScope.enter tl)

/-- **The outermost decode.** It starts with an empty slot, so what it finds there when its
deserialization has failed is the first violation recorded since; and it leaves the thread-locals
of a new thread on every path. -/
theorem decodeExact_outermost (T : Deserializer α) (bytes : Bytes) {tl : ThreadLocals}
    (h : tl.scopeDepth = 0) :
    decodeExact T.deserialize bytes tl =
      (match (T.deserialize bytes ⟨none, 1⟩).1 with
        | none =>
          match ((T.activity bytes).log ⟨none, 1⟩).head? with
          | some v => .error (.boundExceeded v.declared v.max)
          | none => .error .malformedWire
        | some (value, []) => .ok value
        | some (_, x :: rest) => .error (.trailingBytes (x :: rest).length), .fresh) := by
  -- inside the outermost scope, from an empty slot
  have hrun : ((T.activity bytes).run ⟨none, 1⟩).2 = _ :=
    (T.activity bytes).run_inside (T.nests bytes) Nat.one_pos (by decide)
  simp only [Option.none_or] at hrun
  rw [decodeExact, enter_of_depth_zero h, Deserializer.deserialize]
  rcases hr : (T.activity bytes).run ⟨none, 1⟩ with ⟨_ | ⟨value, _ | ⟨x, rest⟩⟩, tl'⟩ <;>
    (obtain rfl : tl' = ⟨((T.activity bytes).log ⟨none, 1⟩).head?, 1⟩ := by rw [← hrun, hr])
  · rcases ((T.activity bytes).log ⟨none, 1⟩).head? with _ | v <;> rfl
  · rfl
  · rfl

/-! ## Top-level runs -/

/-- What a thread does outside every decode: it calls `decodeExact`, or it deserializes a bounded
type directly, and that records a violation. -/
inductive Event
  | call {α : Type} (T : Deserializer α) (bytes : Bytes)
  | stray (declared max : ℕ)

def Event.step (tl : ThreadLocals) : Event → ThreadLocals
  | .call T bytes => (decodeExact T.deserialize bytes tl).2
  | .stray declared max => recordViolation declared max tl

/-- The thread-locals after a history of events. -/
def runEvents (history : List Event) : ThreadLocals := history.foldl Event.step .fresh

theorem Event.step_scopeDepth {tl : ThreadLocals} (h : tl.scopeDepth = 0) (e : Event) :
    (e.step tl).scopeDepth = 0 := by
  cases e with
  | call T bytes => rw [Event.step, decodeExact_outermost T bytes h]; rfl
  | stray declared max => rw [Event.step, recordViolation_eq]; exact h

theorem runEvents_scopeDepth (history : List Event) : (runEvents history).scopeDepth = 0 := by
  have hrun : ∀ tl : ThreadLocals, tl.scopeDepth = 0 →
      (history.foldl Event.step tl).scopeDepth = 0 := by
    induction history with
    | nil => exact fun _ h => h
    | cons e history ih => exact fun tl h => ih (e.step tl) (Event.step_scopeDepth h e)
  exact hrun _ rfl

/-- At top level no violation is ever in the way of a decode. -/
theorem runEvents_clear (history : List Event) : (runEvents history).Clear :=
  Or.inl (runEvents_scopeDepth history)

/-- **Isolation of top-level decodes.** After any history, a top-level decode leaves depth zero and
an empty slot, gives the result that it gives on a new thread, and reports a violated bound exactly
when its deserialization fails and that violation is the first one recorded since it was entered. -/
theorem decodeExact_isolated (history : List Event) (T : Deserializer α) (bytes : Bytes) :
    (decodeExact T.deserialize bytes (runEvents history)).2 = .fresh ∧
      (decodeExact T.deserialize bytes (runEvents history)).1 =
        (decodeExact T.deserialize bytes .fresh).1 ∧
      ∀ declared max,
        (decodeExact T.deserialize bytes (runEvents history)).1 =
            .error (.boundExceeded declared max) ↔
          (T.deserialize bytes (ViolationScope.enter (runEvents history))).1 = none ∧
            (T.recorded bytes (runEvents history)).head? = some ⟨declared, max⟩ := by
  have h := runEvents_scopeDepth history
  rw [decodeExact_outermost T bytes h,
    decodeExact_outermost T bytes (show ThreadLocals.fresh.scopeDepth = 0 from rfl),
    Deserializer.recorded, enter_of_depth_zero h]
  refine ⟨rfl, rfl, ?_⟩
  intro declared max
  -- only a failed deserialization can give a violated bound
  rcases (T.deserialize bytes ⟨none, 1⟩).1 with _ | ⟨value, _ | ⟨x, rest⟩⟩
  · rcases ((T.activity bytes).log ⟨none, 1⟩).head? with _ | ⟨declared', max'⟩ <;> simp
  · simp
  · simp

/-! ## Wire types are deserializers -/

/-- The activity of a reading that names its violation. -/
def Activity.ofReading (read : Reading (Option Violation) α) (b : Bytes) : Activity α :=
  match read b with
  | .ok (a, rest) => ok a rest
  | .error none => err
  | .error (some v) => record v.declared v.max err

theorem Activity.nestsWithin_ofReading (read : Reading (Option Violation) α) (b : Bytes) (n : ℕ) :
    (ofReading read b).NestsWithin n := by
  rw [ofReading]
  rcases read b with (_ | v) | ⟨a, rest⟩ <;> trivial

/-- The implementation of a wire type. -/
def WireType.deserializer (w : WireType α) : Deserializer α where
  activity := Activity.ofReading w.format.read
  nests b := Activity.nestsWithin_ofReading w.format.read b _

theorem WireType.deserializer_deserialize (w : WireType α) :
    w.deserializer.deserialize = w.deserialize := by
  funext b tl
  rw [w.deserialize_eq, Deserializer.deserialize, De.ofReading]
  simp only [deserializer, Activity.ofReading]
  rcases w.format.read b with (_ | v) | ⟨a, rest⟩ <;> rfl

end Meshwarden.Proto
