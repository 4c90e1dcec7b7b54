import Meshwarden.Automata.Program
import Meshwarden.Proto.Nesting

/-!
# Decodes on many threads

The violation channel is thread-local, and its scopes are guards: they are closed on every way out
of a decode, also by a panic. Here a decode is a program of atomic actions on the thread-locals, an
implementation may panic at any point, and may catch what panics below it; and threads run side by
side and take turns at every action. Each decode gives the result that it gives on a new thread by
itself, and leaves the thread-locals as on a new one.

## Main definitions

* `Task α`: what an implementation does on one input, panics included; `Task.program`
* `decodeExactProgram`: `decodeExact`, one action after the other
* `Job`: what a thread does at top level; `Job.program`, `Job.onNewThread`

## Main results

* `Task.run_scopeDepth`: a task leaves the depth, whether it returns or panics
* `run_decodeExactProgram_outermost`: the outermost decode
* `Activity.run_task`: without panics, tasks are activities, and the program is `decodeExact`
* `threads_isolated`: decodes on threads that run side by side
-/

namespace Meshwarden.Proto

open Codec Automata

variable {α β : Type}

/-! ## Strict decoding, action by action -/

/-- `decode_exact` around a deserialization, which may panic: its result is `none` then, and the
guard closes the scope while the panic unwinds. -/
def decodeExactProgram (body : Program ThreadLocals (Option (Option (α × Bytes)))) :
    Program ThreadLocals (Option (Except Error α)) := do
  Program.modify ViolationScope.enter
  match ← body with
  | none =>
    Program.modify ViolationScope.drop
    pure none
  | some none =>
    let taken ← Program.atomically ViolationScope.take
    Program.modify ViolationScope.drop
    match taken with
    | some v => pure (some (.error (.boundExceeded v.declared v.max)))
    | none => pure (some (.error .malformedWire))
  | some (some (value, rest)) =>
    let remaining := rest.length
    Program.modify ViolationScope.drop
    if remaining = 0 then pure (some (.ok value))
    else pure (some (.error (.trailingBytes remaining)))

/-- What a `Deserialize` implementation does on one input. It may panic, and it may catch the panics
of what it runs. -/
inductive Task : Type → Type 1
  | ok {α : Type} (value : α) (rest : Bytes) : Task α
  | err {α : Type} : Task α
  | panic {α : Type} : Task α
  | record {α : Type} (declared max : ℕ) (next : Task α) : Task α
  | decode {α β : Type} (deserialize : Bytes → Task β) (bytes : Bytes)
    (next : Except Error β → Task α) : Task α
  | catchUnwind {α β : Type} (body : Task β) (next : Option (Option (β × Bytes)) → Task α) : Task α

namespace Task

/-- The task on a thread. The panic of a nested decode unwinds further, unless it is caught. -/
def program : {α : Type} → Task α → Program ThreadLocals (Option (Option (α × Bytes)))
  | _, ok value rest => pure (some (some (value, rest)))
  | _, err => pure (some none)
  | _, panic => pure none
  | _, record declared max next => do
    Program.modify (recordViolation declared max)
    next.program
  | _, decode deserialize bytes next => do
    match ← decodeExactProgram (deserialize bytes).program with
    | none => pure none
    | some result => (next result).program
  | _, catchUnwind body next => do
    let caught ← body.program
    (next caught).program

/-- The task never has more than `n` decodes of its own open at once. -/
def NestsWithin : {α : Type} → Task α → ℕ → Prop
  | _, ok _ _, _ => True
  | _, err, _ => True
  | _, panic, _ => True
  | _, record _ _ next, n => next.NestsWithin n
  | _, decode deserialize bytes next, n =>
    (0 < n ∧ (deserialize bytes).NestsWithin (n - 1)) ∧ ∀ result, (next result).NestsWithin n
  | _, catchUnwind body next, n => body.NestsWithin n ∧ ∀ caught, (next caught).NestsWithin n

end Task

/-! ## The depth -/

theorem enter_scopeDepth (tl : ThreadLocals) :
    (ViolationScope.enter tl).scopeDepth = saturatingAdd tl.scopeDepth 1 := by
  rw [ViolationScope.enter]
  split_ifs <;> rfl

theorem take_scopeDepth (tl : ThreadLocals) :
    (ViolationScope.take tl).2.scopeDepth = tl.scopeDepth := by
  rw [ViolationScope.take]
  split_ifs <;> rfl

theorem drop_scopeDepth (tl : ThreadLocals) :
    (ViolationScope.drop tl).scopeDepth = tl.scopeDepth - 1 := by
  rw [ViolationScope.drop]
  split_ifs <;> rfl

theorem recordViolation_scopeDepth (declared max : ℕ) (tl : ThreadLocals) :
    (recordViolation declared max tl).scopeDepth = tl.scopeDepth := by
  rw [recordViolation_eq]

/-- Closing the outermost scope clears the slot. -/
theorem drop_of_depth_one {tl : ThreadLocals} (h : tl.scopeDepth = 1) :
    ViolationScope.drop tl = .fresh := by
  rw [ViolationScope.drop, h]
  rfl

/-- **On every way out** of a decode the last action is that of the guard. -/
theorem run_decodeExactProgram (body : Program ThreadLocals (Option (Option (α × Bytes))))
    (tl : ThreadLocals) :
    ∃ tl', tl'.scopeDepth = (body.run (ViolationScope.enter tl)).2.scopeDepth ∧
      ((decodeExactProgram body).run tl).2 = ViolationScope.drop tl' := by
  simp only [decodeExactProgram, Program.run_bind, Program.run_modify]
  -- a panic, an error, and a value
  rcases body.run (ViolationScope.enter tl) with ⟨_ | _ | ⟨value, rest⟩, tl₁⟩
  · exact ⟨tl₁, rfl, rfl⟩
  · refine ⟨(ViolationScope.take tl₁).2, take_scopeDepth tl₁, ?_⟩
    simp only [Program.run_bind, Program.run_atomically, Program.run_modify]
    rcases (ViolationScope.take tl₁).1 with _ | v <;> rfl
  · refine ⟨tl₁, rfl, ?_⟩
    simp only [Program.run_bind, Program.run_modify]
    split_ifs <;> rfl

/-- A decode leaves the depth where its deserialization does. -/
theorem decodeExactProgram_scopeDepth {body : Program ThreadLocals (Option (Option (α × Bytes)))}
    {tl : ThreadLocals} (hd : tl.scopeDepth < usizeMax)
    (hbody : (body.run (ViolationScope.enter tl)).2.scopeDepth =
      (ViolationScope.enter tl).scopeDepth) :
    ((decodeExactProgram body).run tl).2.scopeDepth = tl.scopeDepth := by
  obtain ⟨tl', hdepth, hrun⟩ := run_decodeExactProgram body tl
  have hs : saturatingAdd tl.scopeDepth 1 = tl.scopeDepth + 1 := Nat.min_eq_left hd
  rw [hrun, drop_scopeDepth, hdepth, hbody, enter_scopeDepth, hs, Nat.add_sub_cancel]

/-- **A task leaves the depth as it was**, whether it returns or panics. -/
theorem Task.run_scopeDepth (t : Task α) {n : ℕ} (ht : t.NestsWithin n) {tl : ThreadLocals}
    (hn : tl.scopeDepth + n ≤ usizeMax) : (t.program.run tl).2.scopeDepth = tl.scopeDepth := by
  induction t generalizing n tl with
  | ok value rest | err | panic => rfl
  | record declared max next ih =>
    have hdepth := recordViolation_scopeDepth declared max tl
    simp only [program, Program.run_bind, Program.run_modify]
    exact (ih ht (by rwa [hdepth])).trans hdepth
  | decode deserialize bytes next ihBody ihNext =>
    obtain ⟨⟨hpos, hbody⟩, hrest⟩ := ht
    have hd : tl.scopeDepth < usizeMax := by omega
    have hs : saturatingAdd tl.scopeDepth 1 = tl.scopeDepth + 1 := Nat.min_eq_left hd
    have hdec : ((decodeExactProgram (deserialize bytes).program).run tl).2.scopeDepth =
        tl.scopeDepth := by
      apply decodeExactProgram_scopeDepth hd
      apply ihBody bytes hbody
      rw [enter_scopeDepth, hs]
      omega
    simp only [program, Program.run_bind]
    -- a panic unwinds further; with a result, the task goes on
    rcases hr : (decodeExactProgram (deserialize bytes).program).run tl with ⟨_ | result, tl'⟩
    · rw [hr] at hdec
      exact hdec
    · rw [hr] at hdec
      exact (ihNext result (hrest result) (by rwa [hdec])).trans hdec
  | catchUnwind body next ihBody ihNext =>
    obtain ⟨hbody, hrest⟩ := ht
    have hdepth := ihBody hbody hn
    simp only [program, Program.run_bind]
    exact (ihNext _ (hrest _) (by rwa [hdepth])).trans hdepth

/-! ## Without panics -/

/-- Where the deserialization does not panic, the program is `decodeExact`. -/
theorem run_decodeExactProgram_of_run {body : Program ThreadLocals (Option (Option (α × Bytes)))}
    {deserialize : De α} {bytes : Bytes} {tl : ThreadLocals}
    (h : body.run (ViolationScope.enter tl) = (some (deserialize bytes (ViolationScope.enter tl)).1,
      (deserialize bytes (ViolationScope.enter tl)).2)) :
    (decodeExactProgram body).run tl =
      (some (decodeExact deserialize bytes tl).1, (decodeExact deserialize bytes tl).2) := by
  simp only [decodeExactProgram, Program.run_bind, Program.run_modify, h, decodeExact]
  rcases deserialize bytes (ViolationScope.enter tl) with ⟨_ | ⟨value, rest⟩, tl'⟩
  · simp only [Program.run_bind, Program.run_atomically, Program.run_modify]
    rcases (ViolationScope.take tl').1 with _ | v <;> rfl
  · simp only [Program.run_bind, Program.run_modify]
    split_ifs <;> rfl

/-- An activity is a task that does not panic. -/
def Activity.task : {α : Type} → Activity α → Task α
  | _, ok value rest => .ok value rest
  | _, err => .err
  | _, record declared max next => .record declared max next.task
  | _, decode deserialize bytes next =>
    .decode (fun b => (deserialize b).task) bytes fun result => (next result).task

/-- **Without panics** the program of an implementation does what the implementation does. -/
theorem Activity.run_task (a : Activity α) (tl : ThreadLocals) :
    a.task.program.run tl = (some (a.run tl).1, (a.run tl).2) := by
  induction a generalizing tl with
  | ok value rest | err => rfl
  | record declared max next ih =>
    simp only [task, Task.program, Program.run_bind, Program.run_modify]
    exact ih _
  | decode deserialize bytes next ihBody ihNext =>
    have hdec : (decodeExactProgram (deserialize bytes).task.program).run tl =
        (some (decodeExact (fun b tl => (deserialize b).run tl) bytes tl).1,
          (decodeExact (fun b tl => (deserialize b).run tl) bytes tl).2) :=
      run_decodeExactProgram_of_run (ihBody bytes _)
    simp only [task, Task.program, Program.run_bind, hdec]
    exact ihNext _ _

theorem Activity.nestsWithin_task (a : Activity α) {n : ℕ} (ha : a.NestsWithin n) :
    a.task.NestsWithin n := by
  induction a generalizing n with
  | ok value rest | err => trivial
  | record declared max next ih => exact ih ha
  | decode deserialize bytes next ihBody ihNext =>
    obtain ⟨⟨hpos, hbody⟩, hrest⟩ := ha
    exact ⟨⟨hpos, ihBody bytes hbody⟩, fun result => ihNext result (hrest result)⟩

/-! ## At top level -/

/-- A `Deserialize` implementation, with its panics. As before, the calls that are open are never
more than `usize` can count. -/
structure Implementation (α : Type) where
  task : Bytes → Task α
  nests : ∀ b, (task b).NestsWithin (usizeMax - 1)

/-- An implementation that never panics. -/
def Deserializer.implementation (T : Deserializer α) : Implementation α where
  task b := (T.activity b).task
  nests b := (T.activity b).nestsWithin_task (T.nests b)

/-- **The outermost decode** starts from an empty slot and depth zero, wherever it is called, and
leaves both behind. -/
theorem run_decodeExactProgram_outermost (T : Implementation α) (bytes : Bytes) {tl : ThreadLocals}
    (h : tl.scopeDepth = 0) :
    (decodeExactProgram (T.task bytes).program).run tl =
      (((decodeExactProgram (T.task bytes).program).run .fresh).1, .fresh) := by
  have henter := enter_of_depth_zero h
  have hfresh : ViolationScope.enter .fresh = ⟨none, 1⟩ := rfl
  have hopen : (⟨none, 1⟩ : ThreadLocals).scopeDepth + (usizeMax - 1) ≤ usizeMax := by decide
  have hbody := (T.task bytes).run_scopeDepth (T.nests bytes) hopen
  obtain ⟨tl', hdepth, hrun⟩ := run_decodeExactProgram (T.task bytes).program tl
  rw [henter, hbody] at hdepth
  rw [drop_of_depth_one hdepth] at hrun
  refine Prod.ext ?_ hrun
  simp only [decodeExactProgram, Program.run_bind, Program.run_modify, henter, hfresh]

/-- What a thread does at top level: it calls `decode_exact`, or it deserializes a bounded type
directly, and that records a violation. -/
inductive Job : Type 1
  | call {α : Type} (T : Implementation α) (bytes : Bytes)
  | stray (declared max : ℕ)

namespace Job

/-- What a job returns; a call returns nothing if it panics. -/
def Result : Job → Type
  | @call α _ _ => Option (Except Error α)
  | stray _ _ => Unit

def program : (j : Job) → Program ThreadLocals j.Result
  | call T bytes => decodeExactProgram (T.task bytes).program
  | stray declared max => Program.modify (recordViolation declared max)

/-- What a job returns on a new thread that does nothing else. -/
def onNewThread (j : Job) : j.Result := (j.program.run .fresh).1

/-- Without panics it is what `decodeExact` returns. -/
theorem onNewThread_implementation (T : Deserializer α) (bytes : Bytes) :
    (call T.implementation bytes).onNewThread =
      some (decodeExact T.deserialize bytes .fresh).1 :=
  congrArg Prod.fst (run_decodeExactProgram_of_run ((T.activity bytes).run_task _))

/-- What a job is to return, and to leave behind: no open scope, and after a call no violation. -/
def Post (j : Job) (result : j.Result) (tl : ThreadLocals) : Prop :=
  result = j.onNewThread ∧ tl.scopeDepth = 0 ∧ ∀ α T bytes, j = @call α T bytes → tl = .fresh

/-- **A job at depth zero**, by itself. -/
theorem post_of_depth_zero (j : Job) (tl : ThreadLocals) (h : tl.scopeDepth = 0) :
    j.Post (j.program.run tl).1 (j.program.run tl).2 := by
  cases j with
  | call T bytes =>
    have hrun : (call T bytes).program.run tl = ((call T bytes).onNewThread, .fresh) :=
      run_decodeExactProgram_outermost T bytes h
    rw [hrun]
    exact ⟨rfl, rfl, fun _ _ _ _ => rfl⟩
  | stray declared max =>
    exact ⟨rfl, (recordViolation_scopeDepth declared max tl).trans h, fun _ _ _ hj => by cases hj⟩

end Job

/-- A thread that has done nothing yet. -/
def newThread : Thread ThreadLocals Job.Result := ⟨.fresh, none⟩

/-- **Isolation of threads, and of what they do.** Threads run side by side, each of them calls
decodes, whose deserializations nest, fail, swallow errors, panic, and catch panics, and they take
turns at every action. Whatever turns they take: every job that has returned has returned what it
returns on a new thread by itself, a thread that is at no job has no scope open, and one that is at
a decode can finish it by itself, with this result, and has the thread-locals of a new thread
then. -/
theorem threads_isolated {ι : Type} [DecidableEq ι]
    {threads : ι → Thread ThreadLocals Job.Result} {trace : List (ι × Σ j : Job, j.Result)}
    (h : (Thread.lts Job.program).family.Run (fun _ => newThread) trace threads) :
    (∀ e ∈ trace, e.2.2 = e.2.1.onNewThread) ∧
      ∀ i, ((threads i).pending = none → (threads i).state.scopeDepth = 0) ∧
        ∀ (α : Type) (T : Implementation α) (bytes : Bytes)
          (p : Program ThreadLocals (Job.call T bytes).Result),
          (threads i).pending = some ⟨.call T bytes, p⟩ →
          (Thread.lts Job.program).family.Run threads
            [(i, ⟨.call T bytes, (Job.call T bytes).onNewThread⟩)]
            (Function.update threads i newThread) := by
  have hnew : ∀ _ : ι, newThread.Sound (fun tl => tl.scopeDepth = 0) Job.Post := fun _ => rfl
  obtain ⟨hsound, htrace⟩ := Thread.sound_of_run Job.post_of_depth_zero
    (fun j r tl hpost => hpost.2.1) h hnew
  constructor
  · intro e he
    obtain ⟨tl, hpost⟩ := htrace e he
    exact hpost.1
  intro i
  have hi := hsound i
  rcases hthread : threads i with ⟨tl, pending⟩
  rw [hthread] at hi
  constructor
  · rintro rfl
    exact hi
  · rintro α T bytes p rfl
    -- what is left of the decode ends as its job calls for
    obtain ⟨hresult, -, hfresh⟩ : (Job.call T bytes).Post (p.run tl).1 (p.run tl).2 := hi
    have hrun : (Thread.lts Job.program).Run _ _ _ := Thread.completes (Job.call T bytes) p tl
    rw [hresult, hfresh α T bytes rfl, ← hthread] at hrun
    exact hrun.family

/-! ### A panic beside a failure -/

/-- Records a violation and panics. -/
def panicking : Implementation Unit := ⟨fun _ => .record 9 4 .panic, fun _ => trivial⟩

/-- Fails, with no violation. -/
def failing : Implementation Unit := ⟨fun _ => .err, fun _ => trivial⟩

/-- What two threads show, of which one panics. -/
def clash : List (Bool × Σ j : Job, j.Result) :=
  [(true, ⟨.call panicking [], none⟩), (false, ⟨.call failing [], some (.error .malformedWire)⟩)]

/-- A thread that is to take the first action of a job. -/
def started (j : Job) : Thread ThreadLocals Job.Result := ⟨.fresh, some ⟨j, j.program⟩⟩

theorem run_started (j : Job) : (Thread.lts Job.program).Run newThread [] (started j) :=
  Lts.Run.single (o := none) (Thread.Step.start _ j)

/-- Both of them are at their decodes before one of them takes an action. -/
theorem run_clash :
    ∃ threads, (Thread.lts Job.program).family.Run (fun _ => newThread) clash threads := by
  let first : Bool → Thread ThreadLocals Job.Result :=
    Function.update (fun _ => newThread) true (started (.call panicking []))
  let second := Function.update first false (started (.call failing []))
  have hfirst : (Thread.lts Job.program).family.Run (fun _ => newThread) [] first :=
    (run_started _).family (f := fun _ => newThread)
  have hsecond : (Thread.lts Job.program).family.Run first [] second :=
    (run_started (.call failing [])).family (f := first) (i := false)
  have hpanic : (Thread.lts Job.program).Run (second true) [⟨.call panicking [], none⟩] newThread :=
    Thread.completes (Job.call panicking []) (Job.call panicking []).program ThreadLocals.fresh
  have hfail : (Thread.lts Job.program).Run (Function.update second true newThread false)
      [⟨.call failing [], some (.error .malformedWire)⟩] newThread :=
    Thread.completes (Job.call failing []) (Job.call failing []).program ThreadLocals.fresh
  exact ⟨_, hfirst.trans (hsecond.trans (hpanic.family.trans hfail.family))⟩

theorem threads_isolated_clash :
    (Job.call panicking []).onNewThread = (none : Option (Except Error Unit)) ∧
      (Job.call failing []).onNewThread = some (.error .malformedWire) := by
  obtain ⟨threads, h⟩ := run_clash
  obtain ⟨hclash, -⟩ := threads_isolated h
  constructor
  · exact (hclash _ List.mem_cons_self).symm
  · exact (hclash _ (List.mem_cons_of_mem _ List.mem_cons_self)).symm

end Meshwarden.Proto
