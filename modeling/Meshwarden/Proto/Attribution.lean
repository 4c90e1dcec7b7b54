import Meshwarden.Proto.Nesting

/-!
# The calls of a run and the errors they report

A run of a thread is a history of events, and each event that calls `decodeExact` makes further
calls at any depth, whose errors its implementation propagates or swallows. Only the outermost call
of each event clears the slot. A nested call therefore finds there what its elder siblings left, and
reports the first violation recorded since the outermost call was entered, its own or not.

## Main definitions

* `Call`: one `decodeExact` call of a run, with the violations recorded before and during it
* `Activity.calls`, `Event.calls`, `callsFrom`: the calls of an activity, of an event and of a run

## Main results

* `Activity.calls_explained`: inside a scope, the slot explains what each call reports
* `callsFrom_attribution`: what every call of every run reports
-/

namespace Meshwarden.Proto

open Codec

variable {α : Type}

/-! ## Calls -/

/-- A `decodeExact` call of a run. -/
structure Call where
  /-- The scopes that were open when it was entered. -/
  depth : ℕ
  /-- The violations recorded before that, since the outermost open scope was entered. -/
  before : List Violation
  /-- The violations recorded from its entry to its return. -/
  during : List Violation
  /-- Its deserialization failed. -/
  failed : Bool
  /-- What it returned, without the value. -/
  result : Except Error Unit

/-- A call of `deserialize` on a thread, after the violations `before`. -/
def Call.of (deserialize : Bytes → Activity α) (bytes : Bytes) (before : List Violation)
    (tl : ThreadLocals) : Call where
  depth := tl.scopeDepth
  before := before
  during := (deserialize bytes).log (ViolationScope.enter tl)
  failed := ((deserialize bytes).run (ViolationScope.enter tl)).1.isNone
  result := (decodeExact (fun b tl => (deserialize b).run tl) bytes tl).1.map fun _ => ()

/-- The calls that an activity makes after the violations `before`, nested ones included. -/
def Activity.calls : {α : Type} → Activity α → List Violation → ThreadLocals → List Call
  | _, ok _ _, _, _ => []
  | _, err, _, _ => []
  | _, record declared max next, before, tl =>
    next.calls (before ++ [⟨declared, max⟩]) (recordViolation declared max tl)
  | _, decode deserialize bytes next, before, tl =>
    let (result, tl') := decodeExact (fun b tl => (deserialize b).run tl) bytes tl
    let during := (deserialize bytes).log (ViolationScope.enter tl)
    Call.of deserialize bytes before tl ::
      ((deserialize bytes).calls before (ViolationScope.enter tl) ++
        (next result).calls (before ++ during) tl')

/-- The calls of an event: the outermost one and those nested in it. -/
def Event.calls (tl : ThreadLocals) : Event → List Call
  | .call T bytes =>
    Call.of T.activity bytes [] tl :: (T.activity bytes).calls [] (ViolationScope.enter tl)
  | .stray _ _ => []

/-- The calls of a run. -/
def callsFrom : ThreadLocals → List Event → List Call
  | _, [] => []
  | tl, e :: events => e.calls tl ++ callsFrom (e.step tl) events

/-! ## What a call reports -/

/-- The error of a failed deserialization, by what its scope finds in the slot. -/
def cause : Option Violation → Error
  | some v => .boundExceeded v.declared v.max
  | none => .malformedWire

/-- The call reports the first violation recorded since the outermost open scope was entered, if
its deserialization fails, and nothing of the channel otherwise. -/
structure Call.Explained (c : Call) : Prop where
  outermost : c.depth = 0 → c.before = []
  failed : c.failed = true → c.result = .error (cause (c.before ++ c.during).head?)
  finished : c.failed = false → c.result = .ok () ∨ ∃ n, c.result = .error (.trailingBytes n)

/-- A call is explained when the slot ends with the first violation of those that it lists. -/
theorem Call.of_explained {deserialize : Bytes → Activity α} {bytes : Bytes}
    {before : List Violation} {tl : ThreadLocals} (hd : tl.scopeDepth = 0 → before = [])
    (hv : ((deserialize bytes).run (ViolationScope.enter tl)).2.violation =
      (before ++ (deserialize bytes).log (ViolationScope.enter tl)).head?) :
    (Call.of deserialize bytes before tl).Explained := by
  constructor
  · exact hd
  · simp only [of, ← hv, decodeExact]
    rcases (deserialize bytes).run (ViolationScope.enter tl) with ⟨_ | ⟨value, rest⟩, tl'⟩
    · intro _
      simp only [take_fst]
      rcases tl'.violation with _ | v <;> rfl
    · intro hf
      cases hf
  · simp only [of, decodeExact]
    rcases (deserialize bytes).run (ViolationScope.enter tl) with ⟨_ | ⟨value, _ | ⟨x, rest⟩⟩, tl'⟩
    · intro hf
      cases hf
    · exact fun _ => Or.inl rfl
    · exact fun _ => Or.inr ⟨_, rfl⟩

/-- **Inside a scope** every call of an activity is explained: the slot holds the first violation
recorded so far whenever a call is entered. -/
theorem Activity.calls_explained (a : Activity α) {n : ℕ} (ha : a.NestsWithin n)
    {before : List Violation} {tl : ThreadLocals} (h : 0 < tl.scopeDepth)
    (hn : tl.scopeDepth + n ≤ usizeMax) (hv : tl.violation = before.head?) :
    ∀ c ∈ a.calls before tl, c.Explained := by
  induction a generalizing n before tl with
  | ok value rest => simp [calls]
  | err => simp [calls]
  | record declared max next ih =>
    have hr := recordViolation_eq declared max tl
    rw [calls]
    apply ih ha
    · rw [hr]
      exact h
    · rw [hr]
      exact hn
    · rw [hr, hv, List.head?_append]
      rfl
  | decode deserialize bytes next ihBody ihNext =>
    obtain ⟨⟨hpos, hbody⟩, hrest⟩ := ha
    have henter := enter_inside h (show tl.scopeDepth < usizeMax by omega)
    have hd0 : 0 < (ViolationScope.enter tl).scopeDepth := by rw [henter]; simp
    have hdn : (ViolationScope.enter tl).scopeDepth + (n - 1) ≤ usizeMax := by
      rw [henter]
      simp only
      omega
    -- the slot after the body: the first violation before the call or during it
    have hrun : ((deserialize bytes).run (ViolationScope.enter tl)).2 =
        ⟨(before ++ (deserialize bytes).log (ViolationScope.enter tl)).head?,
          tl.scopeDepth + 1⟩ := by
      rw [(deserialize bytes).run_inside hbody hd0 hdn, List.head?_append, ← hv, henter]
    rcases hdec : decodeExact (fun b tl => (deserialize b).run tl) bytes tl with ⟨result, tl'⟩
    obtain rfl : tl' = _ := (congrArg Prod.snd hdec).symm.trans (decodeExact_inside h hrun)
    simp only [calls, hdec, List.forall_mem_cons, List.forall_mem_append]
    refine ⟨?_, ?_, ?_⟩
    · apply Call.of_explained
      · intro h0
        exact absurd h0 h.ne'
      · rw [hrun]
    · apply ihBody bytes hbody hd0 hdn
      rw [henter, hv]
    · exact ihNext result (hrest result) h hn rfl

/-- The calls of an event at top level are explained. -/
theorem Event.calls_explained {tl : ThreadLocals} (h : tl.scopeDepth = 0) (e : Event) :
    ∀ c ∈ e.calls tl, c.Explained := by
  cases e with
  | call T bytes =>
    have henter := enter_of_depth_zero h
    have hrun : ((T.activity bytes).run ⟨none, 1⟩).2 = _ :=
      (T.activity bytes).run_inside (T.nests bytes) Nat.one_pos (by decide)
    rw [calls, List.forall_mem_cons, henter]
    constructor
    · apply Call.of_explained
      · exact fun _ => rfl
      · rw [henter, hrun]
        rfl
    · apply (T.activity bytes).calls_explained (T.nests bytes) Nat.one_pos
      · decide
      · rfl
  | stray declared max => simp [calls]

/-- The calls of a run from depth zero are explained. -/
theorem callsFrom_explained {tl : ThreadLocals} (h : tl.scopeDepth = 0) (events : List Event) :
    ∀ c ∈ callsFrom tl events, c.Explained := by
  induction events generalizing tl with
  | nil => simp [callsFrom]
  | cons e events ih =>
    rw [callsFrom, List.forall_mem_append]
    exact ⟨e.calls_explained h, ih (e.step_scopeDepth h)⟩

theorem cause_eq_boundExceeded_iff {v : Option Violation} {declared max : ℕ} :
    cause v = .boundExceeded declared max ↔ v = some ⟨declared, max⟩ := by
  obtain _ | ⟨declared', max'⟩ := v <;> simp [cause]

theorem cause_eq_malformedWire_iff {v : Option Violation} :
    cause v = .malformedWire ↔ v = none := by
  obtain _ | v := v <;> simp [cause]

/-- An error of the channel comes from a failed deserialization, which reports its cause. -/
theorem Call.Explained.result_eq_iff {c : Call} (h : c.Explained) {error : Error}
    (he : ∀ n, error ≠ .trailingBytes n) :
    c.result = .error error ↔ c.failed = true ∧ cause (c.before ++ c.during).head? = error := by
  rcases hf : c.failed with _ | _
  · rcases h.finished hf with hr | ⟨n, hr⟩
    · simp [hr]
    · simp [hr, (he n).symm]
  · simp [h.failed hf]

/-! ## Attribution -/

/-- An implementation that decodes the first six bytes of its input, goes on whatever comes of that,
and decodes the others, whose error it propagates. -/
def swallowing : Deserializer Unit where
  activity b :=
    let bytes4 := WireType.deserializer (.boundedBytes 4 (by decide))
    .decode bytes4.activity (b.take 6) fun _ =>
      .decode bytes4.activity (b.drop 6) fun
        | .ok _ => .ok () []
        | .error _ => .err
  nests b := by
    have hbytes4 := fun b n =>
      Activity.nestsWithin_ofReading (WireType.boundedBytes 4 (by decide)).format.read b n
    refine ⟨⟨by decide, hbytes4 _ _⟩, fun _ => ⟨⟨by decide, hbytes4 _ _⟩, ?_⟩⟩
    rintro (_ | _) <;> trivial

/-- The second of its nested calls, on a byte string over its bound and a truncated one. -/
def youngerCall : Call := ⟨1, [⟨5, 4⟩], [], true, .error (.boundExceeded 5 4)⟩

theorem youngerCall_mem :
    youngerCall ∈ callsFrom .fresh [.call swallowing [0x05, 1, 2, 3, 4, 5, 0x05, 1, 2]] := by
  have hcalls : callsFrom .fresh [.call swallowing [0x05, 1, 2, 3, 4, 5, 0x05, 1, 2]] =
      [⟨0, [], [⟨5, 4⟩], true, .error (.boundExceeded 5 4)⟩,
        ⟨1, [], [⟨5, 4⟩], true, .error (.boundExceeded 5 4)⟩, youngerCall] := rfl
  rw [hcalls]
  exact List.mem_cons_of_mem _ (List.mem_cons_of_mem _ List.mem_cons_self)

/-- **What the calls of a run report.** A call at any depth returns a violated bound exactly when
its deserialization fails and that violation is the first one recorded since the outermost open
scope was entered, and the generic error exactly when it fails and none was. A call that was
entered before any violation, as each outermost one is, thus reports its own. -/
theorem callsFrom_attribution (events : List Event) (c : Call)
    (hc : c ∈ callsFrom .fresh events) :
    (∀ declared max, c.result = .error (.boundExceeded declared max) ↔
        c.failed = true ∧ (c.before ++ c.during).head? = some ⟨declared, max⟩) ∧
      (c.result = .error .malformedWire ↔ c.failed = true ∧ c.before = [] ∧ c.during = []) ∧
      (c.depth = 0 → c.before = []) ∧
      (c.before = [] → ∀ declared max, c.result = .error (.boundExceeded declared max) →
        ⟨declared, max⟩ ∈ c.during) := by
  have h := callsFrom_explained (show ThreadLocals.fresh.scopeDepth = 0 from rfl) events c hc
  have hbound : ∀ declared max, c.result = .error (.boundExceeded declared max) ↔
      c.failed = true ∧ (c.before ++ c.during).head? = some ⟨declared, max⟩ := by
    intro declared max
    rw [h.result_eq_iff (by simp), cause_eq_boundExceeded_iff]
  refine ⟨hbound, ?_, h.outermost, ?_⟩
  · rw [h.result_eq_iff (by simp), cause_eq_malformedWire_iff, List.head?_eq_none_iff,
      List.append_eq_nil_iff]
  · intro hb declared max hr
    obtain ⟨-, hhead⟩ := (hbound declared max).mp hr
    rw [hb, List.nil_append] at hhead
    exact List.mem_of_mem_head? hhead

/-- What that call reports comes from before it. -/
theorem callsFrom_attribution_youngerCall :
    youngerCall.failed = true ∧
      (youngerCall.before ++ youngerCall.during).head? = some ⟨5, 4⟩ :=
  ((callsFrom_attribution _ youngerCall youngerCall_mem).1 5 4).mp rfl

/-- A nested call that records nothing, fails, and reports the violation of its elder sibling. -/
theorem youngerCall_misattributes :
    youngerCall ∈ callsFrom .fresh [.call swallowing [0x05, 1, 2, 3, 4, 5, 0x05, 1, 2]] ∧
      youngerCall.depth = 1 ∧ youngerCall.failed = true ∧ youngerCall.during = [] ∧
        youngerCall.result = .error (.boundExceeded 5 4) :=
  ⟨youngerCall_mem, rfl, rfl, rfl, rfl⟩

end Meshwarden.Proto
