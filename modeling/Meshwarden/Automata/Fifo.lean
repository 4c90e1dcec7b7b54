import Meshwarden.Automata.Simulation
import Meshwarden.Codec.Stream

/-!
# Queues that are closed

A queue takes items at one end until it is closed, and hands them over at the other in the order in
which they came. Once it is closed and empty, it hands over its ending, again and again.

## Main definitions

* `Fifo α`, `Fifo.Event α ε`, `Fifo.lts`: the queue as a labelled transition system
* `Fifo.pushed`, `Fifo.got`: what a trace puts in, and what it takes out

## Main results

* `Fifo.Step.got_unique`: what a queue hands over next is determined
* `Fifo.delivered`: what was taken out, then what it holds, is what it held, then what was put in
* `Fifo.got_eq_nth`: the results handed over are the items put in, in order, and then the ending
-/

namespace Automata

variable {α ε : Type}

/-- The items of a queue, and whether it is closed. -/
structure Fifo (α : Type) where
  items : List α
  closed : Bool

namespace Fifo

/-- What is observed of a queue. -/
inductive Event (α ε : Type)
  | push (a : α)
  | close
  | got (r : Except ε α)

/-- The empty queue. -/
def empty : Fifo α := ⟨[], false⟩

/-- The steps of a queue of admissible items. -/
inductive Step (admissible : α → Prop) (ending : ε) : Fifo α → Event α ε → Fifo α → Prop
  | push {items : List α} {a : α} (h : admissible a) :
    Step admissible ending ⟨items, false⟩ (.push a) ⟨items ++ [a], false⟩
  | close {items : List α} : Step admissible ending ⟨items, false⟩ .close ⟨items, true⟩
  | pop {a : α} {items : List α} {closed : Bool} :
    Step admissible ending ⟨a :: items, closed⟩ (.got (.ok a)) ⟨items, closed⟩
  | finish : Step admissible ending ⟨[], true⟩ (.got (.error ending)) ⟨[], true⟩

/-- The queue, no step of which is silent. -/
def lts (admissible : α → Prop) (ending : ε) : Lts (Fifo α) (Event α ε) where
  step q o q' := ∃ e, o = some e ∧ Step admissible ending q e q'

variable {admissible : α → Prop} {ending : ε}

/-- What a queue hands over is determined by what it holds. -/
theorem Step.got_unique {q q' q'' : Fifo α} {r r' : Except ε α}
    (h : Step admissible ending q (.got r) q') (h' : Step admissible ending q (.got r') q'') :
    r = r' ∧ q' = q'' := by
  cases h with
  | pop =>
    cases h'
    exact ⟨rfl, rfl⟩
  | finish =>
    cases h'
    exact ⟨rfl, rfl⟩

/-- The items that a trace puts in. -/
def pushed : List (Event α ε) → List α
  | [] => []
  | .push a :: trace => a :: pushed trace
  | .close :: trace => pushed trace
  | .got _ :: trace => pushed trace

/-- The results that a trace takes out. -/
def got : List (Event α ε) → List (Except ε α)
  | [] => []
  | .push _ :: trace => got trace
  | .close :: trace => got trace
  | .got r :: trace => r :: got trace

/-- Nothing is put into a closed queue. -/
theorem pushed_of_closed {q q' : Fifo α} {trace : List (Event α ε)} (hq : q.closed = true)
    (h : (lts admissible ending).Run q trace q') : pushed trace = [] := by
  induction h with
  | refl q => rfl
  | step hstep rest ih =>
    obtain ⟨e, rfl, he⟩ := hstep
    cases he with
    | push ha => cases hq
    | close => cases hq
    | pop => exact ih hq
    | finish => exact ih hq

/-- **Nothing is lost or duplicated**: the items taken out, then those that the queue holds, are
those that it held, then those put in. -/
theorem delivered {q q' : Fifo α} {trace : List (Event α ε)}
    (h : (lts admissible ending).Run q trace q') :
    (got trace).filterMap Except.toOption ++ q'.items = q.items ++ pushed trace := by
  induction h with
  | refl q => exact (List.append_nil q.items).symm
  | step hstep rest ih =>
    obtain ⟨e, rfl, he⟩ := hstep
    cases he with
    | @push items a ha =>
      apply ih.trans
      rw [List.append_assoc]
      rfl
    | close => exact ih
    | @pop a items closed => exact congrArg (a :: ·) ih
    | finish => exact ih

/-- **What a queue hands over**: the items it held, then those put in, in order, and then the ending
for ever. -/
theorem got_eq_nth {q q' : Fifo α} {trace : List (Event α ε)}
    (h : (lts admissible ending).Run q trace q') {i : ℕ} {r : Except ε α}
    (hr : (got trace)[i]? = some r) : r = Codec.nth (q.items ++ pushed trace) ending i := by
  induction h generalizing i with
  | refl q => cases hr
  | step hstep rest ih =>
    obtain ⟨e, rfl, he⟩ := hstep
    cases he with
    | @push items a ha =>
      have hitems := ih hr
      rw [List.append_assoc] at hitems
      exact hitems
    | close => exact ih hr
    | @pop a items closed =>
      rcases i with _ | i
      · exact (Option.some.inj hr).symm
      · exact ih hr
    | finish =>
      -- the queue is closed, so the trace puts nothing in
      have hnil := pushed_of_closed rfl rest
      rcases i with _ | i
      · obtain rfl := Option.some.inj hr
        exact (congrArg (Codec.nth · ending 0) hnil).symm
      · have hi := ih hr
        rw [hnil] at hi
        rw [hi]
        exact (congrArg (Codec.nth · ending (i + 1)) hnil).symm

end Fifo

end Automata
