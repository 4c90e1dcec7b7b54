import Meshwarden.Transport.Channel

/-!
# Nothing is held back

Of the bytes that a channel has taken off its stream it returns every frame that is complete before
it reads on. So while a receive waits, what was returned is all that the bytes taken so far can be
parsed into; and of frames that were sent whole, each one has been returned once its last byte has
been read.

## Main definitions

* `Link.Reached l`: a link after some run, of its own or with a stream from whomever

## Main results

* `Link.Coherent.parse_taken`: the parse of what was taken
* `Link.nothing_held_back`: while a receive waits, and at any time
* `Link.complete_frames_returned`: frames that were sent
-/

namespace Meshwarden.Transport

open Codec Proto

namespace Link

variable {l : Link}

/-- The frames that were returned, then whatever the buffer can be parsed into. -/
theorem Coherent.parse_taken (h : l.Coherent) :
    Frame.prefixDecoder.parse l.taken =
      (l.frames ++ (Frame.prefixDecoder.parse l.readBuf).1,
        (Frame.prefixDecoder.parse l.readBuf).2) := by
  obtain ⟨henc, htaken⟩ := h.frames_spec
  rw [← htaken]
  exact parse_frames_append (fun f hf => (Frame.encode_eq_ok_iff.mp (henc f hf)).1) l.readBuf

/-- While a receive waits, the buffer holds no frame and no bad header. -/
theorem Coherent.parse_taken_waiting (h : l.Coherent) (hw : l.waiting = true) :
    Frame.prefixDecoder.parse l.taken = (l.frames, none) := by
  have hd : Frame.prefixDecoder.decode l.readBuf = .ok none := h.waiting hw
  rw [h.parse_taken, PrefixDecoder.parse_none hd, List.append_nil]

/-- A link after some run: with its own sends, or with a stream that carries whatever it carries. -/
def Reached (l : Link) : Prop :=
  (∃ actions, l = new.run actions) ∨ ∃ s actions, l = (incoming s).run actions

theorem Reached.coherent (h : l.Reached) : l.Coherent := by
  rcases h with ⟨actions, rfl⟩ | ⟨s, actions, rfl⟩
  · exact coherent_new.run actions
  · exact (coherent_incoming s).run actions

/-- **Nothing is held back.** On every link, also one with a hostile stream, after every run: the
frames that were returned are the first ones that the bytes taken so far can be parsed into, and
while a receive waits they are all of them, with no bad header among these bytes. -/
theorem nothing_held_back (h : l.Reached) :
    l.frames <+: (Frame.prefixDecoder.parse l.taken).1 ∧
      (l.waiting = true → Frame.prefixDecoder.parse l.taken = (l.frames, none)) := by
  refine ⟨?_, h.coherent.parse_taken_waiting⟩
  rw [h.coherent.parse_taken]
  exact List.prefix_append _ _

/-- A stream with one frame and a part of the header of another, of which a receive has returned the
frame and the next one waits. -/
def incomingHalf : Link := (incoming [0, 1, 0, 1, 0, 0, 0, 1, 7, 0, 1]).run [.recv, .read 11, .recv]

theorem nothing_held_back_half :
    [(⟨.v1, 1, [7]⟩ : Frame)] <+: (Frame.prefixDecoder.parse incomingHalf.taken).1 ∧
      (incomingHalf.waiting = true →
        Frame.prefixDecoder.parse incomingHalf.taken = ([⟨.v1, 1, [7]⟩], none)) :=
  nothing_held_back (l := incomingHalf) (Or.inr ⟨_, _, rfl⟩)

/-! ## Frames that were sent -/

variable {actions : List Action}

/-- The stream of an honest end. -/
theorem written_completed (hw : ∀ f w, .send f w ∈ actions → w = .completed) :
    (new.run actions).written = (deliverable actions).flatMap Frame.bytes :=
  run_written rfl hw

/-- What was returned was sent, in this order. -/
theorem frames_isPrefix (hw : ∀ f w, .send f w ∈ actions → w = .completed) :
    (new.run actions).frames <+: deliverable actions := by
  have h := coherent_new.run actions
  obtain ⟨henc, htaken⟩ := h.frames_spec
  have hparse := parse_frames_append
    (fun f hf => (Frame.encode_eq_ok_iff.mp (henc f hf)).1)
    ((new.run actions).readBuf ++ (new.run actions).unread)
  rw [← List.append_assoc, htaken, h.stream, parse_written hw] at hparse
  exact ⟨_, (Prod.mk.inj hparse).1.symm⟩

/-- **A frame is returned once its last byte has been read.** Where every write completes, the
frames that were returned are the first ones that were sent; and while a receive waits they are
those of which the bytes taken so far hold every byte. -/
theorem complete_frames_returned (hw : ∀ f w, .send f w ∈ actions → w = .completed) :
    (new.run actions).frames <+: deliverable actions ∧
      ((new.run actions).waiting = true → ∀ sent, sent <+: deliverable actions →
        (sent <+: (new.run actions).frames ↔
          (sent.flatMap Frame.bytes).length ≤ (new.run actions).taken.length)) := by
  refine ⟨frames_isPrefix hw, ?_⟩
  rintro hwait sent ⟨rest, hsent⟩
  have h := coherent_new.run actions
  constructor
  · rintro ⟨more, hmore⟩
    obtain ⟨-, htaken⟩ := h.frames_spec
    rw [← htaken, ← hmore, List.flatMap_append, List.append_assoc, List.length_append]
    exact Nat.le_add_right _ _
  · intro hlen
    -- the bytes of these frames are the first ones that were taken
    have hstream := h.stream
    rw [written_completed hw, ← hsent, List.flatMap_append] at hstream
    have htaken : sent.flatMap Frame.bytes <+: (new.run actions).taken :=
      List.prefix_of_prefix_length_le (List.prefix_append _ _) ⟨_, hstream⟩ hlen
    obtain ⟨t, ht⟩ := htaken
    have henc : ∀ f ∈ sent, f.Encodable := by
      intro f hf
      apply encodable_of_mem_deliverable
      rw [← hsent]
      exact List.mem_append_left rest hf
    have hparse := parse_frames_append henc t
    rw [ht, h.parse_taken_waiting hwait] at hparse
    rw [(Prod.mk.inj hparse).1]
    exact List.prefix_append _ _

/-- Two frames sent, of which one and a half have been read. -/
theorem complete_frames_returned_half :
    [(⟨.v1, 1, [7]⟩ : Frame)] <+:
        (new.run [.send ⟨.v1, 1, [7]⟩ .completed, .send ⟨.v1, 2, []⟩ .completed, .recv, .read 12,
          .recv]).frames ↔
      ([(⟨.v1, 1, [7]⟩ : Frame)].flatMap Frame.bytes).length ≤
        (new.run [.send ⟨.v1, 1, [7]⟩ .completed, .send ⟨.v1, 2, []⟩ .completed, .recv, .read 12,
          .recv]).taken.length := by
  refine (complete_frames_returned ?_).2 rfl _ ⟨[⟨.v1, 2, []⟩], rfl⟩
  intro f w hmem
  simp only [List.mem_cons, Action.send.injEq, reduceCtorEq, List.not_mem_nil, or_false] at hmem
  rcases hmem with ⟨-, rfl⟩ | ⟨-, rfl⟩ <;> rfl

end Link

end Meshwarden.Transport
