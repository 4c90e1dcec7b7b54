import Meshwarden.Automata.Simulation

/-!
# Programs on threads

A program takes one atomic action after the other on the state of its thread, and ends with a
result. A thread is given jobs and runs a program for each of them; threads that run side by side
take turns at every action. Their states are their own, so where each program, run by itself, keeps
an invariant of the state and returns what its job calls for, this is what it returns in every run
of all threads, whatever turns they take.

## Main definitions

* `Program σ ρ`: programs; `Program.run`
* `Thread σ R`, `Thread.lts`: a thread, and how it goes through its jobs
* `Thread.Sound`: what is pending on a thread will end well

## Main results

* `Program.run_bind`: one program after the other
* `Thread.sound_of_run`: in every run of threads side by side, each job returns what it calls for
* `Thread.completes`: a thread can always finish what it is at
-/

namespace Automata

variable {σ α β ρ : Type}

/-! ## Programs -/

/-- A program of atomic actions on a state. -/
inductive Program (σ ρ : Type) : Type 1
  | ret (result : ρ)
  | act {β : Type} (action : σ → β × σ) (next : β → Program σ ρ)

namespace Program

/-- The program without interruption. -/
def run : Program σ ρ → σ → ρ × σ
  | ret result, s => (result, s)
  | act action next, s => (next (action s).1).run (action s).2

def bind : Program σ α → (α → Program σ β) → Program σ β
  | ret a, f => f a
  | act action next, f => act action fun b => (next b).bind f

instance : Monad (Program σ) where
  pure := ret
  bind := bind

/-- One action, which gives a result. -/
def atomically (action : σ → β × σ) : Program σ β := act action ret

/-- One action on the state alone. -/
def modify (f : σ → σ) : Program σ Unit := atomically fun s => ((), f s)

@[simp] theorem run_pure (a : α) (s : σ) : (pure a : Program σ α).run s = (a, s) := rfl

@[simp] theorem run_atomically (action : σ → β × σ) (s : σ) :
    (atomically action).run s = action s := rfl

@[simp] theorem run_modify (f : σ → σ) (s : σ) : (modify f).run s = ((), f s) := rfl

/-- **One program after the other.** -/
@[simp] theorem run_bind (p : Program σ α) (f : α → Program σ β) (s : σ) :
    (p >>= f).run s = (f (p.run s).1).run (p.run s).2 := by
  induction p generalizing s with
  | ret a => rfl
  | act action next ih => exact ih (action s).1 (action s).2

end Program

/-! ## Threads -/

universe u

variable {J : Type u} {R : J → Type}

/-- A thread: its state, and the job that it is at, with what is left of the program for it. -/
structure Thread (σ : Type) (R : J → Type) where
  state : σ
  pending : Option (Σ j, Program σ (R j))

namespace Thread

/-- A thread starts a job, takes an action, or returns the result of its job. -/
inductive Step (program : (j : J) → Program σ (R j)) :
    Thread σ R → Option (Σ j, R j) → Thread σ R → Prop
  | start (s : σ) (j : J) : Step program ⟨s, none⟩ none ⟨s, some ⟨j, program j⟩⟩
  | act (s : σ) (j : J) {β : Type} (action : σ → β × σ) (next : β → Program σ (R j)) :
    Step program ⟨s, some ⟨j, .act action next⟩⟩ none
      ⟨(action s).2, some ⟨j, next (action s).1⟩⟩
  | finish (s : σ) (j : J) (result : R j) :
    Step program ⟨s, some ⟨j, .ret result⟩⟩ (some ⟨j, result⟩) ⟨s, none⟩

/-- A thread that is given jobs. -/
def lts (program : (j : J) → Program σ (R j)) : Lts (Thread σ R) (Σ j, R j) where
  step := Step program

variable {program : (j : J) → Program σ (R j)} {Inv : σ → Prop} {Post : (j : J) → R j → σ → Prop}

/-- A thread at no job is in order, and what is pending will return what its job calls for. -/
def Sound (Inv : σ → Prop) (Post : (j : J) → R j → σ → Prop) (t : Thread σ R) : Prop :=
  match t.pending with
  | none => Inv t.state
  | some ⟨j, p⟩ => Post j (p.run t.state).1 (p.run t.state).2

/-- **What a step keeps and shows.** -/
theorem Sound.step (hjobs : ∀ j s, Inv s → Post j ((program j).run s).1 ((program j).run s).2)
    (hpost : ∀ j r s, Post j r s → Inv s) {t t' : Thread σ R} {o : Option (Σ j, R j)}
    (ht : t.Sound Inv Post) (h : (lts program).step t o t') :
    t'.Sound Inv Post ∧ ∀ e ∈ o, ∃ s, Post e.1 e.2 s := by
  cases h with
  | start s j => exact ⟨hjobs j s ht, fun e he => by cases he⟩
  | act s j action next => exact ⟨ht, fun e he => by cases he⟩
  | finish s j r =>
    refine ⟨hpost j r s ht, ?_⟩
    intro e he
    obtain rfl := Option.some.inj he
    exact ⟨s, ht⟩

/-- **Threads side by side.** Whatever turns they take, each job returns what it calls for, and all
threads stay in order. -/
theorem sound_of_run {ι : Type*} [DecidableEq ι]
    (hjobs : ∀ j s, Inv s → Post j ((program j).run s).1 ((program j).run s).2)
    (hpost : ∀ j r s, Post j r s → Inv s) {threads threads' : ι → Thread σ R}
    {trace : List (ι × Σ j, R j)} (h : (lts program).family.Run threads trace threads')
    (hthreads : ∀ i, (threads i).Sound Inv Post) :
    (∀ i, (threads' i).Sound Inv Post) ∧ ∀ e ∈ trace, ∃ s, Post e.2.1 e.2.2 s := by
  have hstep : ∀ {threads : ι → Thread σ R} {o} {threads' : ι → Thread σ R},
      (∀ i, (threads i).Sound Inv Post) → (lts program).family.step threads o threads' →
        (∀ i, (threads' i).Sound Inv Post) ∧ ∀ e ∈ o, ∃ s, Post e.2.1 e.2.2 s := by
    rintro threads o threads' hthreads ⟨i, o', t', hstep, rfl, rfl⟩
    obtain ⟨ht', hshown⟩ := (hthreads i).step hjobs hpost hstep
    constructor
    · intro j
      by_cases hj : j = i
      · obtain rfl := hj
        rwa [Function.update_self]
      · rw [Function.update_of_ne hj]
        exact hthreads j
    · intro e he
      obtain ⟨e', he', rfl⟩ := Option.map_eq_some_iff.mp he
      exact hshown e' he'
  exact Lts.Run.invariant hstep h hthreads

/-- **A thread can always finish what it is at**, by steps of its own. -/
theorem completes (j : J) (p : Program σ (R j)) (s : σ) :
    (lts program).Run ⟨s, some ⟨j, p⟩⟩ [⟨j, (p.run s).1⟩] ⟨(p.run s).2, none⟩ := by
  induction p generalizing s with
  | ret r =>
    have hstep : (lts program).step ⟨s, some ⟨j, .ret r⟩⟩ (some ⟨j, r⟩) ⟨s, none⟩ :=
      Step.finish s j r
    exact Lts.Run.single hstep
  | act action next ih =>
    have hstep : (lts program).step ⟨s, some ⟨j, .act action next⟩⟩ none
        ⟨(action s).2, some ⟨j, next (action s).1⟩⟩ := Step.act s j action next
    exact Lts.Run.step hstep (ih (action s).1 (action s).2)

end Thread

end Automata
