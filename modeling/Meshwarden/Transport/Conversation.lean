import Meshwarden.Automata.Fifo
import Meshwarden.Transport.Channel

/-!
# Conversations

A duplex stream has a framed channel at each end: each end sends on a link of its own, and receives
on that of the other. `send` and `recv` borrow the channel, so an end does not send while a receive
of its own waits; it has to drop the receive first. The streams have room enough here for whatever
is sent, so that no send waits. What the two ends see, in whatever order their calls, the chunks of
the stream, and the drops come, is what two queues show, one for each direction; and the queues show
nothing that the two ends cannot see.

## Main definitions

* `Side`, `Conversation`: the ends, and the link on which each of them sends
* `Link.observe`: what an end sees of an action
* `Link.lts`, `conversation`: links and conversations as transition systems
* `Link.Holds l q`: what is on its way on `l` is what `q` holds

## Main results

* `Link.simulates_fifo`: a link shows what its queue shows
* `Link.Holds.deliver`: and it can be read for whatever its queue hands over
* `conversation_traces`: conversations show what pairs of queues show, and all of it
-/

namespace Meshwarden.Transport

open Codec Proto Automata

/-! ## What is seen -/

/-- The observations of one direction: a frame goes onto the stream, the stream is closed, a receive
returns. -/
abbrev Event := Fifo.Event Frame Error

/-- The queue of one direction: frames that have an encoding, and the end of the stream. -/
abbrev queue : Lts (Fifo Frame) Event :=
  Fifo.lts Frame.Encodable (.io .unexpectedEof)

namespace Link

/-- The result of the receive that an action completes, if it completes one. -/
def returned (l : Link) (a : Action) : Option (Except Error Frame) :=
  (l.step a).results[l.results.length]?

/-- What is seen of an action: a frame or the end on an open stream, or the result of a receive. -/
def observe (l : Link) : Action → Option Event
  | .send frame _ => if l.closed = false ∧ frame.Encodable then some (.push frame) else none
  | .close => if l.closed then none else some .close
  | .recv => (l.returned .recv).map .got
  | .read size => (l.returned (.read size)).map .got
  | .readFailed kind => (l.returned (.readFailed kind)).map .got
  | .drop => (l.returned .drop).map .got

/-- The write of a send completes. -/
def Completes (a : Action) : Prop := ∀ frame write, a = .send frame write → write = .completed

/-- A link on which every write completes. -/
def lts : Lts Link Event where
  step l o l' := ∃ a, Completes a ∧ l' = l.step a ∧ o = l.observe a

/-- What the receiving end can do of its own, where it reads byte by byte. -/
def receiving : Lts Link Event where
  step l o l' := ∃ a, (a = .recv ∨ a = .read 1) ∧ l' = l.step a ∧ o = l.observe a

/-- What is seen of actions, one after another. -/
def observed (l : Link) : List Action → List Event
  | [] => []
  | a :: actions => (l.observe a).toList ++ (l.step a).observed actions

/-- Actions run one after another, and show what is seen of them. -/
theorem run_observed {l : Link} {actions : List Action} (h : ∀ a ∈ actions, Completes a) :
    lts.Run l (l.observed actions) (l.run actions) := by
  induction actions generalizing l with
  | nil => exact Lts.Run.refl l
  | cons a actions ih =>
    obtain ⟨ha, hrest⟩ := List.forall_mem_cons.mp h
    exact Lts.Run.step ⟨a, ha, rfl, rfl⟩ (ih hrest)

theorem completes_of_receives {a : Action} (ha : receives a = true) : Completes a := by
  rintro frame write rfl
  cases ha

theorem lts_of_receiving {l l' : Link} {o : Option Event} (h : receiving.step l o l') :
    lts.step l o l' := by
  obtain ⟨a, ha, hl, ho⟩ := h
  refine ⟨a, completes_of_receives ?_, hl, ho⟩
  rcases ha with rfl | rfl <;> rfl

/-! ## A link holds a queue -/

/-- **What is on its way** on a link is the frames that its queue holds, and nothing else. -/
structure Holds (l : Link) (q : Fifo Frame) : Prop where
  closed : l.closed = q.closed
  bytes : l.readBuf ++ l.unread = q.items.flatMap Frame.bytes
  encodable : ∀ f ∈ q.items, f.Encodable
  waiting : l.waiting = true → Frame.decodePrefix l.readBuf = .ok none

variable {l l' : Link} {q q' : Fifo Frame}

theorem holds_new : new.Holds Fifo.empty where
  closed := rfl
  bytes := rfl
  encodable f hf := absurd hf (List.not_mem_nil (a := f))
  waiting hw := by cases hw

/-- The parse of what is on its way. -/
theorem Holds.parse (h : l.Holds q) :
    Frame.prefixDecoder.parse (l.readBuf ++ l.unread) = (q.items, none) := by
  have hnil : Frame.prefixDecoder.decode [] = .ok none := Frame.decodePrefix_nil
  rw [h.bytes, ← List.append_nil (q.items.flatMap Frame.bytes), parse_frames_append h.encodable,
    PrefixDecoder.parse_none hnil, List.append_nil]

/-- No bad header is ever buffered. -/
theorem Holds.decodePrefix_ne_error (h : l.Holds q) (e : Proto.Error) :
    Frame.decodePrefix l.readBuf ≠ .error e := by
  intro he
  have hd : Frame.prefixDecoder.decode l.readBuf = .error e := he
  have hparse := PrefixDecoder.parse_append_error hd l.unread
  rw [h.parse] at hparse
  cases (Prod.mk.inj hparse).2

/-- A frame that is buffered is the first one of the queue. -/
theorem Holds.of_decodePrefix_some (h : l.Holds q) {f : Frame} {n : ℕ}
    (hd : Frame.decodePrefix l.readBuf = .ok (some (f, n))) :
    ∃ items, q.items = f :: items ∧ l.readBuf.drop n ++ l.unread = items.flatMap Frame.bytes := by
  have hdec : Frame.prefixDecoder.decode l.readBuf = .ok (some (f, n)) := hd
  have hparse := PrefixDecoder.parse_append_some hdec l.unread
  rw [h.parse] at hparse
  obtain ⟨items, hitems⟩ : ∃ items, q.items = f :: items := ⟨_, (Prod.mk.inj hparse).1⟩
  refine ⟨items, hitems, ?_⟩
  obtain ⟨-, rfl, s, hs⟩ := Frame.decodePrefix_eq_some_iff.mp hd
  have hbytes := h.bytes
  rw [hitems, hs, List.flatMap_cons, List.append_assoc] at hbytes
  rw [hs, List.drop_left]
  exact List.append_cancel_left hbytes

/-- Where all of the stream is buffered and holds no complete frame, nothing is on its way. -/
theorem Holds.items_eq_nil (h : l.Holds q) (hd : Frame.decodePrefix l.readBuf = .ok none)
    (hu : l.unread = []) : q.items = [] := by
  have hdec : Frame.prefixDecoder.decode l.readBuf = .ok none := hd
  have hparse := h.parse
  rw [hu, List.append_nil, PrefixDecoder.parse_none hdec] at hparse
  exact (Prod.mk.inj hparse).1.symm

/-- The chunk of a read goes from the stream to the buffer, and is still on its way. -/
theorem Holds.extend (h : l.Holds q) (size : ℕ) :
    Holds { l with
      taken := l.taken ++ l.chunk size
      unread := l.unread.drop (l.chunk size).length
      readBuf := l.readBuf ++ l.chunk size
      waiting := false } q where
  closed := h.closed
  bytes := by
    rw [← h.bytes, List.append_assoc, chunk_append_drop]
  encodable := h.encodable
  waiting hw := by cases hw

theorem observe_receives {a : Action} (ha : receives a = true) :
    l.observe a = (l.returned a).map .got := by
  cases a with
  | send frame write => cases ha
  | close => cases ha
  | recv | read size | readFailed kind | drop => rfl

theorem observe_got {r : Except Error Frame} {a : Action} (ha : receives a = true)
    (h : (l.step a).results = l.results ++ [r]) : l.observe a = some (.got r) := by
  rw [observe_receives ha, returned, h, List.getElem?_concat_length]
  rfl

theorem observe_none {a : Action} (ha : receives a = true)
    (h : (l.step a).results = l.results) : l.observe a = none := by
  rw [observe_receives ha, returned, h, List.getElem?_eq_none le_rfl]
  rfl

/-- What an action of the receiving end makes of a link that holds `q`: a receive returns the next
result of the queue, or none returns and nothing is lost. -/
inductive Received (q : Fifo Frame) (l l' : Link) : Prop
  | result (r : Except Error Frame) (q' : Fifo Frame)
    (step : Fifo.Step Frame.Encodable (.io .unexpectedEof) q (.got r) q')
    (results : l'.results = l.results ++ [r]) (waiting : l'.waiting = false) (holds : l'.Holds q')
  | nothing (results : l'.results = l.results) (holds : l'.Holds q)

/-- A turn of a receive takes the first frame of the queue, or waits. -/
theorem Holds.settle_turn (h : l.Holds q) :
    Received q l (l.settle (FramedChannel.turn l.readBuf)) ∧
      ((l.settle (FramedChannel.turn l.readBuf)).results = l.results →
        (l.settle (FramedChannel.turn l.readBuf)).waiting = true ∧
        (l.settle (FramedChannel.turn l.readBuf)).unread = l.unread) := by
  unfold FramedChannel.turn
  rcases hd : Frame.decodePrefix l.readBuf with e | _ | ⟨f, n⟩
  · exact absurd hd (h.decodePrefix_ne_error e)
  · exact ⟨.nothing rfl ⟨h.closed, h.bytes, h.encodable, fun _ => hd⟩, fun _ => ⟨rfl, rfl⟩⟩
  · obtain ⟨items, hitems, hbytes⟩ := h.of_decodePrefix_some hd
    obtain ⟨items', closed⟩ := q
    obtain rfl : items' = f :: items := hitems
    constructor
    · refine .result (.ok f) ⟨items, closed⟩ .pop rfl rfl ⟨h.closed, hbytes, ?_, ?_⟩
      · intro g hg
        exact h.encodable g (List.mem_cons_of_mem f hg)
      · intro hw
        cases hw
    · intro hres
      exact absurd (List.append_right_eq_self.mp hres) (List.cons_ne_nil _ _)

/-- A read hands over more of the stream, until there is no more of it. -/
theorem Holds.step_read (h : l.Holds q) (hw : l.waiting = true) (size : ℕ) :
    Received q l (l.step (.read size)) ∧
      ((l.step (.read size)).results = l.results →
        (l.step (.read size)).waiting = true ∧
          ((l.step (.read size)).unread.length < l.unread.length ∨ l.unread = [] ∧ q.items = [] ∧
            q.closed = false)) := by
  rw [Link.step_read hw]
  split_ifs with hu hc
  · obtain ⟨hreceived, hwait⟩ := (h.extend size).settle_turn
    refine ⟨?_, fun hres => ?_⟩
    · cases hreceived with
      | result r q' step results waiting holds => exact .result r q' step results waiting holds
      | nothing results holds => exact .nothing results holds
    · obtain ⟨hwait, hunread⟩ := hwait hres
      refine ⟨hwait, Or.inl ?_⟩
      have hc := List.length_pos_of_ne_nil (chunk_ne_nil hu size)
      have hp := List.length_pos_of_ne_nil hu
      rw [hunread, List.length_drop]
      omega
  · -- the end of the stream, with nothing on its way
    have hitems := h.items_eq_nil (h.waiting hw) (not_not.mp hu)
    have hclosed := h.closed
    obtain ⟨items, closed⟩ := q
    obtain rfl : items = [] := hitems
    obtain rfl : closed = true := hclosed.symm.trans hc
    constructor
    · refine .result _ _ .finish rfl rfl ⟨hc, h.bytes, h.encodable, ?_⟩
      intro hw'
      cases hw'
    · intro hres
      exact absurd (List.append_right_eq_self.mp hres) (List.cons_ne_nil _ _)
  · have hitems := h.items_eq_nil (h.waiting hw) (not_not.mp hu)
    have hclosed : q.closed = false := h.closed.symm.trans (Bool.eq_false_iff.mpr hc)
    exact ⟨.nothing rfl h, fun _ => ⟨hw, Or.inr ⟨not_not.mp hu, hitems, hclosed⟩⟩⟩

/-- **What an action of the receiving end makes of a link.** -/
theorem Holds.step_receives (h : l.Holds q) {a : Action} (ha : receives a = true) :
    Received q l (l.step a) := by
  cases a with
  | send frame write => cases ha
  | close => cases ha
  | recv =>
    rw [Link.step]
    split_ifs
    · exact .nothing rfl h
    · exact h.settle_turn.1
  | read size =>
    rcases hw : l.waiting
    · rw [step_read_idle hw]
      exact .nothing rfl h
    · exact (h.step_read hw size).1
  | readFailed kind =>
    rw [Link.step]
    split_ifs
    · exact .nothing rfl ⟨h.closed, h.bytes, h.encodable, fun hw => by cases hw⟩
    · exact .nothing rfl h
  | drop => exact .nothing rfl ⟨h.closed, h.bytes, h.encodable, fun hw => by cases hw⟩

theorem completes_send (f : Frame) : Completes (.send f .completed) := by
  rintro frame write he
  cases he
  rfl

theorem completes_close : Completes .close := by
  rintro frame write he
  cases he

/-- A frame that has an encoding goes onto an open stream, behind those that are on their way. -/
theorem Holds.step_send {items : List Frame} (h : l.Holds ⟨items, false⟩) {f : Frame}
    (hf : f.Encodable) :
    l.observe (.send f .completed) = some (.push f) ∧
      (l.step (.send f .completed)).waiting = l.waiting ∧
      (l.step (.send f .completed)).Holds ⟨items ++ [f], false⟩ := by
  have hopen : l.closed = false := h.closed
  have hbytes := FramedChannel.send_bytes f .completed
  rw [if_pos hf, Write.count, List.take_length] at hbytes
  rw [Link.step, if_neg (Bool.eq_false_iff.mp hopen)]
  refine ⟨if_pos ⟨hopen, hf⟩, rfl, hopen, ?_, ?_, h.waiting⟩
  · simp only [hbytes, List.flatMap_append, List.flatMap_singleton, ← List.append_assoc, h.bytes]
  · intro g hg
    rcases List.mem_append.mp hg with hg | hg
    · exact h.encodable g hg
    · rw [List.mem_singleton.mp hg]
      exact hf

/-- The end of an open stream goes behind what is on its way. -/
theorem Holds.step_close {items : List Frame} (h : l.Holds ⟨items, false⟩) :
    l.observe .close = some .close ∧ (l.step .close).waiting = l.waiting ∧
      (l.step .close).Holds ⟨items, true⟩ :=
  ⟨if_neg (Bool.eq_false_iff.mp h.closed), rfl, rfl, h.bytes, h.encodable, h.waiting⟩

/-- An action of the sending end puts into the queue what it shows. -/
theorem Holds.step_sends (h : l.Holds q) {a : Action} (ha : receives a = false)
    (hc : Completes a) : ∃ q', queue.Run q (l.observe a).toList q' ∧ (l.step a).Holds q' := by
  obtain ⟨items, closed⟩ := q
  have hclosed : l.closed = closed := h.closed
  cases a with
  | send frame write =>
    obtain rfl := hc frame write rfl
    cases closed with
    | true =>
      have hnone : ¬ (l.closed = false ∧ frame.Encodable) := fun ho => by
        rw [hclosed] at ho
        cases ho.1
      rw [observe, if_neg hnone, Link.step, if_pos hclosed]
      exact ⟨_, Lts.Run.refl _, h⟩
    | false =>
      by_cases hf : frame.Encodable
      · obtain ⟨ho, -, h'⟩ := h.step_send hf
        rw [ho]
        exact ⟨_, Lts.Run.single ⟨_, rfl, .push hf⟩, h'⟩
      · -- no byte is written, and nobody sees it but the sender
        have hbytes := FramedChannel.send_bytes frame .completed
        have hnone : ¬ (l.closed = false ∧ frame.Encodable) := fun ho => hf ho.2
        rw [if_neg hf] at hbytes
        rw [observe, if_neg hnone, Link.step, if_neg (Bool.eq_false_iff.mp hclosed)]
        refine ⟨⟨items, false⟩, Lts.Run.refl _, hclosed, ?_, h.encodable, h.waiting⟩
        simp only [hbytes, List.append_nil, h.bytes]
  | close =>
    cases closed with
    | true =>
      rw [observe, if_pos hclosed]
      exact ⟨_, Lts.Run.refl _, rfl, h.bytes, h.encodable, h.waiting⟩
    | false =>
      obtain ⟨ho, -, h'⟩ := h.step_close
      rw [ho]
      exact ⟨_, Lts.Run.single ⟨_, rfl, .close⟩, h'⟩
  | recv | read size | readFailed kind | drop => cases ha

/-- **A link shows what its queue shows.** -/
theorem simulates_fifo : Lts.Simulates lts queue Holds := by
  rintro l l' q o h ⟨a, hc, rfl, rfl⟩
  rcases ha : receives a
  · exact h.step_sends ha hc
  · cases h.step_receives ha with
    | result r q' step results waiting holds =>
      rw [observe_got ha results]
      exact ⟨q', Lts.Run.single ⟨_, rfl, step⟩, holds⟩
    | nothing results holds =>
      rw [observe_none ha results]
      exact ⟨q, Lts.Run.refl q, holds⟩

/-! ## Every result of the queue can be received -/

/-- A receive that waits returns what the queue hands over, once enough is read. The induction is on
what is unread. -/
theorem Holds.deliver_waiting (h : l.Holds q) (hw : l.waiting = true) {r : Except Error Frame}
    (hstep : Fifo.Step Frame.Encodable (.io .unexpectedEof) q (.got r) q') :
    ∃ l', receiving.Run l [.got r] l' ∧ l'.waiting = false ∧ l'.Holds q' := by
  induction hn : l.unread.length using Nat.strongRecOn generalizing l with
  | ind n ih =>
    have ha : receives (.read 1) = true := rfl
    obtain ⟨hreceived, hwait⟩ := h.step_read hw 1
    cases hreceived with
    | result r₁ q₁ step results waiting holds =>
      obtain ⟨rfl, rfl⟩ := hstep.got_unique step
      have hone : receiving.step l (some (.got r)) (l.step (.read 1)) :=
        ⟨.read 1, Or.inr rfl, rfl, (observe_got ha results).symm⟩
      exact ⟨l.step (.read 1), Lts.Run.single hone, waiting, holds⟩
    | nothing results holds =>
      have hsilent : receiving.step l none (l.step (.read 1)) :=
        ⟨.read 1, Or.inr rfl, rfl, (observe_none ha results).symm⟩
      obtain ⟨hw', hlt | ⟨-, hitems, hopen⟩⟩ := hwait results
      · obtain ⟨l', hrun, hidle, hl'⟩ := ih _ (hn ▸ hlt) holds hw' rfl
        exact ⟨l', Lts.Run.step hsilent hrun, hidle, hl'⟩
      · -- an open queue with nothing in it hands nothing over
        exfalso
        cases hstep with
        | pop => cases hitems
        | finish => cases hopen

/-- **Whatever the queue hands over can be received**, by the receiving end alone. -/
theorem Holds.deliver (h : l.Holds q) (hw : l.waiting = false) {r : Except Error Frame}
    (hstep : Fifo.Step Frame.Encodable (.io .unexpectedEof) q (.got r) q') :
    ∃ l', receiving.Run l [.got r] l' ∧ l'.waiting = false ∧ l'.Holds q' := by
  have ha : receives .recv = true := rfl
  have hrecv : l.step .recv = l.settle (FramedChannel.turn l.readBuf) := by
    rw [Link.step, if_neg (by rw [hw]; exact Bool.false_ne_true)]
  obtain ⟨hreceived, hwait⟩ := h.settle_turn
  rw [← hrecv] at hreceived hwait
  cases hreceived with
  | result r₁ q₁ step results waiting holds =>
    obtain ⟨rfl, rfl⟩ := hstep.got_unique step
    have hone : receiving.step l (some (.got r)) (l.step .recv) :=
      ⟨.recv, Or.inl rfl, rfl, (observe_got ha results).symm⟩
    exact ⟨l.step .recv, Lts.Run.single hone, waiting, holds⟩
  | nothing results holds =>
    have hsilent : receiving.step l none (l.step .recv) :=
      ⟨.recv, Or.inl rfl, rfl, (observe_none ha results).symm⟩
    obtain ⟨l', hrun, hidle, hl'⟩ := holds.deliver_waiting (hwait results).1 hstep
    exact ⟨l', Lts.Run.step hsilent hrun, hidle, hl'⟩

/-- **Everything that is on its way can be received**, also by a receive that waits already. -/
theorem Holds.drain (h : l.Holds q) :
    ∃ l', receiving.Run l (q.items.map fun f => .got (.ok f)) l' ∧
      l'.Holds ⟨[], q.closed⟩ := by
  obtain ⟨items, closed⟩ := q
  -- the first receive may wait already; behind it, the link is idle
  induction items generalizing l with
  | nil => exact ⟨l, Lts.Run.refl l, h⟩
  | cons f items ih =>
    have hfirst : ∃ l', receiving.Run l [.got (.ok f)] l' ∧ l'.waiting = false ∧
        l'.Holds ⟨items, closed⟩ := by
      rcases hw : l.waiting
      · exact h.deliver hw .pop
      · exact h.deliver_waiting hw .pop
    obtain ⟨l₁, hrun, -, h₁⟩ := hfirst
    obtain ⟨l₂, hrest, h₂⟩ := ih h₁
    exact ⟨l₂, hrun.trans hrest, h₂⟩

/-- **An idle link follows its queue**, and is idle again. -/
theorem Holds.follow (h : l.Holds q) (hw : l.waiting = false) {e : Event}
    (hstep : Fifo.Step Frame.Encodable (.io .unexpectedEof) q e q') :
    ∃ l', lts.Run l [e] l' ∧ l'.waiting = false ∧ l'.Holds q' := by
  cases hstep with
  | @push items f hf =>
    obtain ⟨ho, hwait, h'⟩ := h.step_send hf
    have hone : lts.step l (some (.push f)) (l.step (.send f .completed)) :=
      ⟨.send f .completed, completes_send f, rfl, ho.symm⟩
    exact ⟨_, Lts.Run.single hone, hwait.trans hw, h'⟩
  | close =>
    obtain ⟨ho, hwait, h'⟩ := h.step_close
    have hone : lts.step l (some .close) (l.step .close) :=
      ⟨.close, completes_close, rfl, ho.symm⟩
    exact ⟨_, Lts.Run.single hone, hwait.trans hw, h'⟩
  | pop =>
    obtain ⟨l', hrun, h'⟩ := h.deliver hw .pop
    exact ⟨l', hrun.mono lts_of_receiving, h'⟩
  | finish =>
    obtain ⟨l', hrun, h'⟩ := h.deliver hw .finish
    exact ⟨l', hrun.mono lts_of_receiving, h'⟩

end Link

/-! ## Conversations -/

/-- The ends of a duplex stream. -/
inductive Side
  | client
  | server
  deriving DecidableEq, Repr

def Side.other : Side → Side
  | .client => .server
  | .server => .client

theorem Side.other_ne (i : Side) : i.other ≠ i := by
  cases i <;> exact Side.noConfusion

theorem Side.other_other (i : Side) : i.other.other = i := by
  cases i <;> rfl

/-- There are only two ends. -/
theorem Side.eq_other_of_ne {i j : Side} (h : j ≠ i) : j = i.other := by
  cases i <;> cases j <;> first | rfl | exact absurd rfl h

/-- The link that each end sends on; it receives on that of the other end. -/
abbrev Conversation := Side → Link

/-- The channel of an end is free to send on link `i`: no receive of that end waits. -/
def Free (c : Conversation) (i : Side) (a : Action) : Prop :=
  Link.receives a = false → (c i.other).waiting = false

/-- One action on one of the links. A send, and the close, need the channel of the sending end; all
of what is sent goes onto the stream at once, for which there is room. -/
def conversation : Lts Conversation (Side × Event) where
  step c o c' := ∃ i a, Link.Completes a ∧ Free c i a ∧
    c' = Function.update c i ((c i).step a) ∧ o = ((c i).observe a).map (i, ·)

/-- Two links, without the borrow. -/
theorem conversation_simulates_links :
    Lts.Simulates conversation Link.lts.family fun c (f : Side → Link) => c = f := by
  rintro c c' f o rfl ⟨i, a, hc, -, rfl, rfl⟩
  refine ⟨_, Lts.Run.single ⟨i, (c i).observe a, (c i).step a, ⟨a, hc, rfl, rfl⟩, rfl, rfl⟩, rfl⟩

/-- A run of one link is one of the conversation, where the other link is idle. -/
theorem Link.run_conversation {c : Conversation} {i : Side} {trace : List Event} {l : Link}
    (hidle : (c i.other).waiting = false) (h : Link.lts.Run (c i) trace l) :
    conversation.Run c (trace.map (i, ·)) (Function.update c i l) := by
  apply h.embed (P := fun c => (c i.other).waiting = false) _ _ hidle
  · rintro c o l hidle ⟨a, hc, rfl, rfl⟩
    exact ⟨i, a, hc, fun _ => hidle, rfl, rfl⟩
  · intro c l hidle
    rwa [Function.update_of_ne i.other_ne]

/-- Both links hold their queues, and both ends are idle. -/
def Idle (q : Side → Fifo Frame) (c : Conversation) : Prop :=
  ∀ i, (c i).Holds (q i) ∧ (c i).waiting = false

theorem queues_simulate_conversation :
    Lts.Simulates (queue.family : Lts (Side → Fifo Frame) (Side × Event)) conversation
      Idle := by
  rintro q q' c o h ⟨i, o', q₁, ⟨e, rfl, hstep⟩, rfl, rfl⟩
  obtain ⟨l, hrun, hidle, hholds⟩ := (h i).1.follow (h i).2 hstep
  refine ⟨_, Link.run_conversation (h i.other).2 hrun, ?_⟩
  intro j
  by_cases hj : j = i
  · obtain rfl := hj
    rw [Function.update_self, Function.update_self]
    exact ⟨hholds, hidle⟩
  · rw [Function.update_of_ne hj, Function.update_of_ne hj]
    exact h j

/-- **Conversations show what pairs of queues show**, on streams with room enough for what is sent,
whatever the order of calls, chunks and drops, and everything that pairs of queues show: that an end
has to drop its receive before it sends costs neither of them anything. -/
theorem conversation_traces :
    conversation.traces (fun _ => Link.new) =
      (queue.family : Lts (Side → Fifo Frame) (Side × Event)).traces fun _ => Fifo.empty := by
  apply Set.Subset.antisymm
  · have hlinks := conversation_simulates_links.traces_subset
      (rfl : (fun _ : Side => Link.new) = fun _ => Link.new)
    have hqueues := (Link.simulates_fifo.family (ι := Side)).traces_subset
      (s := fun _ => Link.new) (t := fun _ => Fifo.empty) fun _ => Link.holds_new
    exact hlinks.trans hqueues
  · exact queues_simulate_conversation.traces_subset fun _ => ⟨Link.holds_new, rfl⟩

/-- A conversation that started anew holds a queue in each direction. -/
theorem conversation_holds {c : Conversation} {trace : List (Side × Event)}
    (h : conversation.Run (fun _ => Link.new) trace c) (i : Side) :
    ∃ q, queue.Run Fifo.empty (Lts.shownBy i trace) q ∧ (c i).Holds q := by
  obtain ⟨f, hlinks, rfl⟩ := conversation_simulates_links.run
    (rfl : (fun _ : Side => Link.new) = fun _ => Link.new) h
  obtain ⟨q, hqueues, hq⟩ := (Link.simulates_fifo.family (ι := Side)).run
    (t := fun _ => Fifo.empty) (fun _ => Link.holds_new) hlinks
  exact ⟨q i, hqueues.project i, hq i⟩

end Meshwarden.Transport
