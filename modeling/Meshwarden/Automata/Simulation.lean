import Mathlib.Data.Set.Basic
import Mathlib.Logic.Function.Basic

/-!
# Simulation of labelled transition systems

A labelled transition system takes silent steps and steps that can be observed; what a run shows is
its trace. A system simulates another one along a relation of their states where each step of the
one is answered by a run of the other that shows the same, and leads to related states again; then
what the one can show, so can the other. Systems that run side by side, one for each index, take
their steps one at a time in any order.

## Main definitions

* `Lts S O`: labelled transition systems; `Lts.Run`, `Lts.traces`
* `Lts.Simulates C A R`: each step of `C` is answered by a run of `A`, along `R`
* `Lts.family M`: one copy of `M` for each index; `Lts.shownBy i`: what a trace shows of one of them

## Main results

* `Lts.Run.invariant`: what each step keeps and shows, a run keeps and shows
* `Lts.Run.embed`: a run of a component as one of a whole
* `Lts.Simulates.run`, `Lts.Simulates.traces_subset`: simulation of runs, and of traces
* `Lts.Run.project`, `Lts.Simulates.family`: systems side by side
-/

namespace Automata

variable {S T U O ι : Type*}

/-- A labelled transition system. A step without a label is silent. -/
structure Lts (S O : Type*) where
  step : S → Option O → S → Prop

namespace Lts

/-- A run, with its trace. -/
inductive Run (M : Lts S O) : S → List O → S → Prop
  | refl (s : S) : Run M s [] s
  | step {s s' s'' : S} {o : Option O} {trace : List O} (h : M.step s o s')
    (rest : Run M s' trace s'') : Run M s (o.toList ++ trace) s''

/-- What a system can show from a state on. -/
def traces (M : Lts S O) (s : S) : Set (List O) := {trace | ∃ s', M.Run s trace s'}

variable {M : Lts S O} {C : Lts S O} {A : Lts T O} {B : Lts U O}

theorem Run.single {s s' : S} {o : Option O} (h : M.step s o s') : M.Run s o.toList s' := by
  have hrun := Run.step h (Run.refl s')
  rwa [List.append_nil] at hrun

theorem Run.trans {s s' s'' : S} {trace trace' : List O} (h : M.Run s trace s')
    (h' : M.Run s' trace' s'') : M.Run s (trace ++ trace') s'' := by
  induction h with
  | refl s => exact h'
  | step hstep rest ih =>
    rw [List.append_assoc]
    exact Run.step hstep (ih h')

/-- **What each step keeps, a run keeps**, and what each step shows then, a run shows. -/
theorem Run.invariant {Inv : S → Prop} {Shown : O → Prop}
    (hstep : ∀ {s o s'}, Inv s → M.step s o s' → Inv s' ∧ ∀ e ∈ o, Shown e)
    {s s' : S} {trace : List O} (h : M.Run s trace s') (hs : Inv s) :
    Inv s' ∧ ∀ e ∈ trace, Shown e := by
  induction h with
  | refl s => exact ⟨hs, fun e he => absurd he List.not_mem_nil⟩
  | step hst rest ih =>
    obtain ⟨hs', hfirst⟩ := hstep hs hst
    obtain ⟨hinv, hrest⟩ := ih hs'
    refine ⟨hinv, ?_⟩
    intro e he
    rcases List.mem_append.mp he with he | he
    · exact hfirst e (Option.mem_toList.mp he)
    · exact hrest e he

theorem Run.mono {M' : Lts S O} (hstep : ∀ {s o s'}, M.step s o s' → M'.step s o s') {s s' : S}
    {trace : List O} (h : M.Run s trace s') : M'.Run s trace s' := by
  induction h with
  | refl s => exact Run.refl s
  | step hst rest ih => exact Run.step (hstep hst) ih

/-! ## Simulation -/

/-- `A` answers each step of `C` with a run that shows the same and leads to related states. -/
def Simulates (C : Lts S O) (A : Lts T O) (R : S → T → Prop) : Prop :=
  ∀ ⦃s s' : S⦄ ⦃t : T⦄ ⦃o : Option O⦄, R s t → C.step s o s' → ∃ t', A.Run t o.toList t' ∧ R s' t'

variable {R : S → T → Prop}

/-- **Simulation of runs.** -/
theorem Simulates.run (h : Simulates C A R) {s s' : S} {t : T} {trace : List O} (hR : R s t)
    (hrun : C.Run s trace s') : ∃ t', A.Run t trace t' ∧ R s' t' := by
  induction hrun generalizing t with
  | refl s => exact ⟨t, Run.refl t, hR⟩
  | step hstep rest ih =>
    obtain ⟨t₁, hrun₁, hR₁⟩ := h hR hstep
    obtain ⟨t₂, hrun₂, hR₂⟩ := ih hR₁
    exact ⟨t₂, hrun₁.trans hrun₂, hR₂⟩

/-- **What the one can show, so can the other.** -/
theorem Simulates.traces_subset (h : Simulates C A R) {s : S} {t : T} (hR : R s t) :
    C.traces s ⊆ A.traces t := by
  rintro trace ⟨s', hrun⟩
  obtain ⟨t', hrun', -⟩ := h.run hR hrun
  exact ⟨t', hrun'⟩

/-! ## Systems side by side -/

theorem toList_map_pair (i : ι) (o : Option O) :
    (o.map (i, ·)).toList = o.toList.map (i, ·) := by
  cases o <;> rfl

variable [DecidableEq ι]

/-- What a trace shows of the copy at `i`. -/
def shownBy (i : ι) (trace : List (ι × O)) : List O :=
  trace.filterMap fun e => if e.1 = i then some e.2 else none

theorem shownBy_append (i : ι) (trace trace' : List (ι × O)) :
    shownBy i (trace ++ trace') = shownBy i trace ++ shownBy i trace' :=
  List.filterMap_append

theorem shownBy_toList (i j : ι) (o : Option O) :
    shownBy i (o.map (j, ·)).toList = if j = i then o.toList else [] := by
  cases o with
  | none => split_ifs <;> rfl
  | some o => split_ifs with h <;> simp [shownBy, h]

/-- One copy of the system for each index. A step is a step of one copy, and is observed with its
index. -/
def family (M : Lts S O) : Lts (ι → S) (ι × O) where
  step f o f' := ∃ i o' s', M.step (f i) o' s' ∧ f' = Function.update f i s' ∧ o = o'.map (i, ·)

/-- **A run of one component** is a run of a whole that takes the steps of the component, at least
as long as the others meet the condition `P` that they meet at the start. -/
theorem Run.embed {N : Lts (ι → S) (ι × O)} {i : ι} {P : (ι → S) → Prop}
    (hstep : ∀ {f o s'}, P f → M.step (f i) o s' →
      N.step f (o.map (i, ·)) (Function.update f i s'))
    (hkeep : ∀ {f} s', P f → P (Function.update f i s')) {f : ι → S} {trace : List O} {s' : S}
    (hf : P f) (h : M.Run (f i) trace s') :
    N.Run f (trace.map (i, ·)) (Function.update f i s') := by
  generalize hs : f i = s at h
  induction h generalizing f with
  | refl s =>
    rw [← hs, Function.update_eq_self]
    exact Run.refl f
  | @step s s₁ s₂ o trace hst rest ih =>
    obtain rfl := hs
    have hrest := ih (hkeep s₁ hf) (Function.update_self i s₁ f)
    rw [Function.update_idem] at hrest
    rw [List.map_append, ← toList_map_pair]
    exact Run.step (hstep hf hst) hrest

/-- A run of one copy, the others at rest. -/
theorem Run.family {f : ι → S} {i : ι} {trace : List O} {s' : S} (h : M.Run (f i) trace s') :
    M.family.Run f (trace.map (i, ·)) (Function.update f i s') := by
  apply Run.embed (P := fun _ => True) _ (fun _ => id) trivial h
  intro f o s' _ hs
  exact ⟨i, o, s', hs, rfl, rfl⟩

/-- **What the copy at `i` does** in a run of all. -/
theorem Run.project {f f' : ι → S} {trace : List (ι × O)} (h : M.family.Run f trace f') (i : ι) :
    M.Run (f i) (shownBy i trace) (f' i) := by
  induction h with
  | refl f => exact Run.refl (f i)
  | step hstep rest ih =>
    obtain ⟨j, o', s', hs, rfl, rfl⟩ := hstep
    rw [shownBy_append, shownBy_toList]
    by_cases hj : j = i
    · obtain rfl := hj
      rw [Function.update_self] at ih
      rw [if_pos rfl]
      exact Run.step hs ih
    · rw [Function.update_of_ne fun he => hj he.symm] at ih
      rw [if_neg hj]
      exact ih

/-- **Simulation of systems side by side**, along the relation of each copy to its own. -/
theorem Simulates.family (h : Simulates C A R) :
    Simulates (C.family : Lts (ι → S) (ι × O)) A.family fun f g => ∀ i, R (f i) (g i) := by
  rintro f f' g o hR ⟨i, o', s', hstep, rfl, rfl⟩
  obtain ⟨t', hrun, hR'⟩ := h (hR i) hstep
  refine ⟨Function.update g i t', ?_, ?_⟩
  · rw [toList_map_pair]
    exact Run.family hrun
  · intro j
    by_cases hj : j = i
    · obtain rfl := hj
      rw [Function.update_self, Function.update_self]
      exact hR'
    · rw [Function.update_of_ne hj, Function.update_of_ne hj]
      exact hR j

end Lts

end Automata
