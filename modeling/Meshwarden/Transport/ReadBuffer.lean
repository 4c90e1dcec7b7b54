import Meshwarden.Transport.Channel

/-!
# The read buffer

Nothing in `recv` caps its buffer. What bounds it is the order of the checks in
`Frame::decode_prefix`: a read is made only where that asks for more input, which it does below the
length of the longest frame, and a frame is taken out as soon as it is complete. The receiving end
is modelled here on its own, with a peer that hands it any chunks at all.

## Main definitions

* `Receiver`, `Receiver.Input`, `Receiver.step`, `Receiver.run`: the receiving end as an automaton
* `Receiver.Bounded`: how long the buffer is, by the verdict on it

## Main results

* `Receiver.Bounded.run`: the invariant of every run
* `Receiver.readBuf_bounded`: the bounds on the buffer, and on the number of reads of a receive
* `Link.receiver_run`: the receiving end of a link runs as this automaton does
-/

namespace Meshwarden.Transport

open Codec Proto

/-! ## The receiving end -/

/-- What a read can hand over: as many bytes as fit the chunk. -/
abbrev Chunk := {c : Bytes // c.length ≤ chunkLen}

/-- The receiving end of a channel: its buffer, and whether a receive waits in its read. -/
structure Receiver where
  readBuf : Bytes
  waiting : Bool

namespace Receiver

/-- What can happen at the receiving end: its owner calls `recv`, the read hands over a chunk or
fails, or the future is dropped. -/
inductive Input
  | recv
  | read (chunk : Chunk)
  | readFailed (kind : ErrorKind)
  | drop

/-- A new channel. -/
def new : Receiver := ⟨[], false⟩

/-- A receive has run to its result, or to its read. -/
def settle (p : Option (Except Error Frame) × Bytes) : Option (Except Error Frame) × Receiver :=
  (p.1, ⟨p.2, p.1.isNone⟩)

/-- One input, and the result of the receive that it completes, if it completes one. -/
def step (r : Receiver) : Input → Option (Except Error Frame) × Receiver
  | .recv => if r.waiting then (none, r) else settle (FramedChannel.turn r.readBuf)
  | .read chunk =>
    if r.waiting then settle (FramedChannel.resume chunk.1 r.readBuf) else (none, r)
  | .readFailed kind =>
    if r.waiting then (some (.error (.io kind)), { r with waiting := false }) else (none, r)
  | .drop => (none, { r with waiting := false })

/-- The results of the receives that a run completes, and the state behind it. -/
def run (r : Receiver) : List Input → List (Except Error Frame) × Receiver
  | [] => ([], r)
  | i :: inputs =>
    ((r.step i).1.toList ++ ((r.step i).2.run inputs).1, ((r.step i).2.run inputs).2)

theorem run_append (r : Receiver) (before later : List Input) :
    r.run (before ++ later) =
      ((r.run before).1 ++ ((r.run before).2.run later).1, ((r.run before).2.run later).2) := by
  induction before generalizing r with
  | nil => rfl
  | cons i before ih =>
    rw [List.cons_append, run, ih, run]
    simp only [List.append_assoc]

/-- The run of at most one input. -/
theorem run_toList (r : Receiver) (i : Option Input) :
    r.run i.toList = i.elim ([], r) fun i => ((r.step i).1.toList, (r.step i).2) := by
  cases i with
  | none => rfl
  | some i => exact congrArg (·, (r.step i).2) (List.append_nil _)

/-! ## The invariant -/

/-- **The invariant of the read buffer**: while a receive waits, the buffer asks for more input; a
frame in it stands among the bytes of one chunk, and a bad header is at most a chunk behind the
bytes that were too few for a header. -/
structure Bounded (r : Receiver) : Prop where
  waiting : r.waiting = true → Frame.decodePrefix r.readBuf = .ok none
  found : ∀ p, Frame.decodePrefix r.readBuf = .ok (some p) → r.readBuf.length < chunkLen
  bad : ∀ e, Frame.decodePrefix r.readBuf = .error e → r.readBuf.length < headerLen + chunkLen

theorem bounded_new : new.Bounded where
  waiting hw := by cases hw
  found _ _ := Nat.succ_pos _
  bad _ _ := Nat.succ_pos _

/-- The buffer is shorter than the longest frame. -/
theorem Bounded.length_lt {r : Receiver} (h : r.Bounded) :
    r.readBuf.length < headerLen + maxPayloadLen := by
  have hchunk : chunkLen ≤ maxPayloadLen := by decide
  rcases hd : Frame.decodePrefix r.readBuf with e | _ | p
  · have hbad := h.bad e hd
    omega
  · exact Frame.length_lt_of_decodePrefix_none hd
  · have hfound := h.found p hd
    omega

/-- What is left behind a frame that a turn returns. -/
theorem length_turn_lt {b : Bytes} {f : Frame}
    (hfound : ∀ f n, Frame.decodePrefix b = .ok (some (f, n)) → (b.drop n).length < chunkLen)
    (h : (FramedChannel.turn b).1 = some (.ok f)) : (FramedChannel.turn b).2.length < chunkLen := by
  unfold FramedChannel.turn at h ⊢
  rcases hd : Frame.decodePrefix b with e | _ | ⟨g, n⟩
  · rw [hd] at h
    cases h
  · rw [hd] at h
    cases h
  · exact hfound g n hd

theorem bounded_turn {b : Bytes}
    (hfound : ∀ f n, Frame.decodePrefix b = .ok (some (f, n)) → (b.drop n).length < chunkLen)
    (hbad : ∀ e, Frame.decodePrefix b = .error e → b.length < headerLen + chunkLen) :
    (settle (FramedChannel.turn b)).2.Bounded := by
  unfold FramedChannel.turn
  rcases hd : Frame.decodePrefix b with e | _ | ⟨f, n⟩
  · -- a bad header stays in the buffer
    refine ⟨?_, ?_, fun _ _ => hbad e hd⟩
    · intro hw
      cases hw
    · intro p hp
      exact absurd (hd.symm.trans hp) (by simp)
  · refine ⟨fun _ => hd, ?_, ?_⟩
    · intro p hp
      exact absurd (hd.symm.trans hp) (by simp)
    · intro e he
      exact absurd (hd.symm.trans he) (by simp)
  · -- a frame is taken out, whatever the verdict on the rest
    have hlt := hfound f n hd
    refine ⟨?_, fun _ _ => hlt, fun _ _ => Nat.lt_add_left headerLen hlt⟩
    intro hw
    cases hw

/-- What a turn leaves behind a frame that was there before. -/
theorem Bounded.length_drop_lt {r : Receiver} (h : r.Bounded) (f : Frame) (n : ℕ)
    (hd : Frame.decodePrefix r.readBuf = .ok (some (f, n))) :
    (r.readBuf.drop n).length < chunkLen := by
  rw [List.length_drop]
  exact Nat.lt_of_le_of_lt (Nat.sub_le _ _) (h.found _ hd)

/-- What a turn leaves behind a frame that a chunk completes: a part of the chunk. -/
theorem length_drop_lt_of_completes {b : Bytes} (hb : Frame.decodePrefix b = .ok none)
    (chunk : Chunk) (f : Frame) (n : ℕ)
    (hd : Frame.decodePrefix (b ++ chunk.1) = .ok (some (f, n))) :
    ((b ++ chunk.1).drop n).length < chunkLen := by
  have hn := Frame.length_lt_of_completes hb hd
  have hle : n ≤ (b ++ chunk.1).length := Frame.prefixDecoder.consumed_le hd
  have hchunk := chunk.2
  rw [List.length_append] at hle
  rw [List.length_drop, List.length_append]
  omega

theorem length_lt_of_errs {b : Bytes} (hb : Frame.decodePrefix b = .ok none) (chunk : Chunk)
    (e : Proto.Error) (he : Frame.decodePrefix (b ++ chunk.1) = .error e) :
    (b ++ chunk.1).length < headerLen + chunkLen := by
  have hlt := Frame.length_lt_of_errs hb he
  have hchunk := chunk.2
  rw [List.length_append]
  omega

/-- A receive that ends without a turn leaves the buffer. -/
theorem Bounded.idle {r : Receiver} (h : r.Bounded) : Bounded { r with waiting := false } := by
  refine ⟨?_, h.found, h.bad⟩
  intro hw
  cases hw

theorem Bounded.step {r : Receiver} (h : r.Bounded) (i : Input) : (r.step i).2.Bounded := by
  cases i with
  | recv =>
    rw [Receiver.step]
    split_ifs
    · exact h
    · exact bounded_turn h.length_drop_lt h.bad
  | read chunk =>
    rw [Receiver.step]
    split_ifs with hw
    · unfold FramedChannel.resume
      have hb := h.waiting hw
      split_ifs
      · exact h.idle
      · exact bounded_turn (length_drop_lt_of_completes hb chunk) (length_lt_of_errs hb chunk)
    · exact h
  | readFailed kind =>
    rw [Receiver.step]
    split_ifs
    · exact h.idle
    · exact h
  | drop => exact h.idle

/-- **Every run keeps the invariant.** -/
theorem Bounded.run {r : Receiver} (h : r.Bounded) (inputs : List Input) :
    (r.run inputs).2.Bounded := by
  induction inputs generalizing r with
  | nil => exact h
  | cons i inputs ih => exact ih (h.step i)

/-- Right behind a frame, less than a chunk is buffered. -/
theorem Bounded.length_lt_of_returned {r : Receiver} (h : r.Bounded) {i : Input} {f : Frame}
    (hf : (r.step i).1 = some (.ok f)) : (r.step i).2.readBuf.length < chunkLen := by
  cases i with
  | recv =>
    rw [Receiver.step] at hf ⊢
    split_ifs at hf ⊢
    exact length_turn_lt h.length_drop_lt hf
  | read chunk =>
    rw [Receiver.step] at hf ⊢
    split_ifs at hf ⊢ with hw
    unfold FramedChannel.resume at hf ⊢
    split_ifs at hf ⊢
    · cases hf
    · exact length_turn_lt (length_drop_lt_of_completes (h.waiting hw) chunk) hf
  | readFailed kind =>
    rw [Receiver.step] at hf
    split_ifs at hf
    cases hf
  | drop => cases hf

/-! ## Receives return -/

/-- Reads are for a receive that waits. -/
theorem run_reads_idle {r : Receiver} (hw : r.waiting = false) (chunks : List Chunk) :
    r.run (chunks.map .read) = ([], r) := by
  induction chunks with
  | nil => rfl
  | cons chunk chunks ih =>
    have hstep : r.step (.read chunk) = (none, r) := by
      rw [step, if_neg (by rw [hw]; exact Bool.false_ne_true)]
    rw [List.map_cons, run, hstep, ih]
    rfl

/-- **A waiting receive returns.** Each read that does not complete it makes the buffer longer, and
the buffer stays shorter than the longest frame. -/
theorem Bounded.reads_return {r : Receiver} (h : r.Bounded) (hw : r.waiting = true)
    {chunks : List Chunk}
    (hlen : headerLen + maxPayloadLen ≤ r.readBuf.length + chunks.length) :
    ∃ result, (r.run (chunks.map .read)).1 = [result] := by
  induction chunks generalizing r with
  | nil => exact absurd h.length_lt (Nat.not_lt.mpr hlen)
  | cons chunk chunks ih =>
    have hstep := h.step (.read chunk)
    rw [List.map_cons, Receiver.run]
    rw [Receiver.step, if_pos hw, FramedChannel.resume] at hstep ⊢
    split_ifs at hstep ⊢ with hempty
    · -- the end of the stream
      rw [settle, run_reads_idle rfl]
      exact ⟨_, rfl⟩
    · rcases ht : FramedChannel.turn (r.readBuf ++ chunk.1) with ⟨_ | result, b⟩
      · -- still incomplete, and longer
        obtain rfl := FramedChannel.turn_none ht
        rw [ht] at hstep
        apply ih hstep rfl
        rw [List.length_cons] at hlen
        simp only [settle, List.length_append]
        omega
      · rw [settle, run_reads_idle rfl]
        exact ⟨result, rfl⟩

/-- A receive returns, from any state. -/
theorem Bounded.recv_returns {r : Receiver} (h : r.Bounded) {chunks : List Chunk}
    (hlen : headerLen + maxPayloadLen ≤ r.readBuf.length + chunks.length) :
    ∃ result, (r.run (.recv :: chunks.map .read)).1 = [result] := by
  have hstep := h.step .recv
  rw [Receiver.run]
  rw [Receiver.step] at hstep ⊢
  split_ifs at hstep ⊢ with hw
  · -- one waits already
    exact h.reads_return hw hlen
  · rcases ht : FramedChannel.turn r.readBuf with ⟨_ | result, b⟩
    · obtain rfl := FramedChannel.turn_none ht
      rw [ht] at hstep
      exact hstep.reads_return rfl hlen
    · rw [settle, run_reads_idle rfl]
      exact ⟨result, rfl⟩

/-- **The bounds of the read buffer**, in every state that a channel reaches: it is shorter than the
longest frame, and by at most a chunk longer while a read chunk waits for its turn; right behind a
frame that was returned it is shorter than a chunk. A receive waits in its read only while the
buffer asks for more input, and returns after finitely many reads. -/
theorem readBuf_bounded (inputs : List Input) :
    (new.run inputs).2.readBuf.length ≤ 8 + maxPayloadLen - 1 ∧
      (∀ chunk : Chunk, ((new.run inputs).2.readBuf ++ chunk.1).length ≤
        8 + maxPayloadLen - 1 + 4096) ∧
      (∀ i f r', (new.run inputs).2.step i = (some (.ok f), r') → r'.readBuf.length ≤ 4095) ∧
      ((new.run inputs).2.waiting = true →
        Frame.decodePrefix (new.run inputs).2.readBuf = .ok none) ∧
      ∀ chunks : List Chunk, 8 + maxPayloadLen ≤ (new.run inputs).2.readBuf.length + chunks.length →
        ∃ result, ((new.run inputs).2.run (.recv :: chunks.map .read)).1 = [result] := by
  have h := bounded_new.run inputs
  have hlt : (new.run inputs).2.readBuf.length < 8 + maxPayloadLen := h.length_lt
  refine ⟨Nat.le_sub_one_of_lt hlt, ?_, ?_, h.waiting, fun chunks => h.recv_returns⟩
  · intro chunk
    have hchunk : chunk.1.length ≤ 4096 := chunk.2
    rw [List.length_append]
    exact Nat.add_le_add (Nat.le_sub_one_of_lt hlt) hchunk
  · intro i f r' hstep
    have hreturned : ((new.run inputs).2.step i).1 = some (.ok f) := congrArg Prod.fst hstep
    have hbound := h.length_lt_of_returned hreturned
    rw [hstep] at hbound
    exact Nat.le_of_lt_succ hbound

end Receiver

/-! ## The receiving end of a link -/

namespace Link

/-- The receiving end of a link. -/
def receiver (l : Link) : Receiver := ⟨l.readBuf, l.waiting⟩

@[simp] theorem receiver_waiting (l : Link) : l.receiver.waiting = l.waiting := rfl

theorem length_chunk_le (l : Link) (size : ℕ) : (l.chunk size).length ≤ chunkLen := by
  rw [chunk, List.length_take]
  -- a read takes one byte at least, and the chunk has room for it
  have hmax : max 1 (min size chunkLen) ≤ chunkLen :=
    max_le (Nat.succ_pos _) (Nat.min_le_right _ _)
  exact (Nat.min_le_left _ _).trans hmax

/-- What an action is to the receiving end, if it is anything to it. -/
def input (l : Link) : Action → Option Receiver.Input
  | .send _ _ => none
  | .close => none
  | .recv => some .recv
  | .read size =>
    if l.unread ≠ [] ∨ l.closed then some (.read ⟨l.chunk size, l.length_chunk_le size⟩) else none
  | .readFailed kind => some (.readFailed kind)
  | .drop => some .drop

/-- What a run is to the receiving end. -/
def inputs (l : Link) : List Action → List Receiver.Input
  | [] => []
  | a :: actions => (l.input a).toList ++ (l.step a).inputs actions

theorem receiver_settle (l : Link) (p : Option (Except Error Frame) × Bytes) :
    (l.settle p).receiver = (Receiver.settle p).2 ∧
      (l.settle p).results = l.results ++ (Receiver.settle p).1.toList := by
  obtain ⟨_ | result, b⟩ := p
  · exact ⟨rfl, (List.append_nil _).symm⟩
  · exact ⟨rfl, rfl⟩

/-- The state of the receiving end, and the results of the receives that the link keeps: those whose
read failed are kept apart. -/
theorem receiver_step (l : Link) (a : Action) :
    (l.step a).receiver = (l.receiver.run (l.input a).toList).2 ∧
      ((∀ kind, a ≠ .readFailed kind) →
        (l.step a).results = l.results ++ (l.receiver.run (l.input a).toList).1) := by
  have hsame : l.results = l.results ++ [] := (List.append_nil _).symm
  rw [Receiver.run_toList]
  cases a with
  | send frame write =>
    rw [Link.step]
    split_ifs
    · exact ⟨rfl, fun _ => hsame⟩
    · exact ⟨rfl, fun _ => hsame⟩
  | close => exact ⟨rfl, fun _ => hsame⟩
  | recv =>
    rw [Link.step, input, Option.elim_some, Receiver.step, receiver_waiting]
    split_ifs
    · exact ⟨rfl, fun _ => hsame⟩
    · obtain ⟨hstate, hresults⟩ := receiver_settle l (FramedChannel.turn l.readBuf)
      exact ⟨hstate, fun _ => hresults⟩
  | read size =>
    rw [Link.step, input]
    by_cases hopen : l.unread ≠ [] ∨ l.closed = true
    · rw [if_pos hopen, Option.elim_some, Receiver.step, receiver_waiting]
      by_cases hw : l.waiting = true
      · rw [if_pos hw, if_pos ⟨hw, hopen⟩]
        obtain ⟨hstate, hresults⟩ := receiver_settle
          { l with
            taken := l.taken ++ l.chunk size
            unread := l.unread.drop (l.chunk size).length }
          (FramedChannel.resume (l.chunk size) l.readBuf)
        exact ⟨hstate, fun _ => hresults⟩
      · rw [if_neg hw, if_neg fun h => hw h.1]
        exact ⟨rfl, fun _ => hsame⟩
    · rw [if_neg hopen, if_neg fun h => hopen h.2]
      exact ⟨rfl, fun _ => hsame⟩
  | readFailed kind =>
    rw [Link.step, input, Option.elim_some, Receiver.step, receiver_waiting]
    split_ifs
    · exact ⟨rfl, fun h => absurd rfl (h kind)⟩
    · exact ⟨rfl, fun h => absurd rfl (h kind)⟩
  | drop => exact ⟨rfl, fun _ => hsame⟩

/-- **The receiving end of a link** runs as a channel on its own does. -/
theorem receiver_run (l : Link) (actions : List Action) :
    (l.run actions).receiver = (l.receiver.run (l.inputs actions)).2 ∧
      ((∀ kind, .readFailed kind ∉ actions) →
        (l.run actions).results = l.results ++ (l.receiver.run (l.inputs actions)).1) := by
  induction actions generalizing l with
  | nil => exact ⟨rfl, fun _ => (List.append_nil _).symm⟩
  | cons a actions ih =>
    obtain ⟨hstate, hresults⟩ := l.receiver_step a
    obtain ⟨hstate', hresults'⟩ := ih (l.step a)
    rw [run_cons, inputs, Receiver.run_append, ← hstate]
    refine ⟨hstate', fun hfailed => ?_⟩
    have ha : ∀ kind, a ≠ .readFailed kind := fun kind h =>
      hfailed kind (h ▸ List.mem_cons_self)
    have hrest : ∀ kind, .readFailed kind ∉ actions := fun kind h =>
      hfailed kind (List.mem_cons_of_mem a h)
    rw [hresults' hrest, hresults ha, List.append_assoc]

/-- The read buffer of a link is shorter than the longest frame, whatever its stream carries. -/
theorem length_readBuf_lt (s : Bytes) (actions : List Action) :
    ((incoming s).run actions).readBuf.length < headerLen + maxPayloadLen := by
  obtain ⟨hstate, -⟩ := (incoming s).receiver_run actions
  have h := Receiver.bounded_new.run ((incoming s).inputs actions)
  have hbuf : ((incoming s).run actions).readBuf =
      (Receiver.new.run ((incoming s).inputs actions)).2.readBuf :=
    congrArg Receiver.readBuf hstate
  rw [hbuf]
  exact h.length_lt

end Link

end Meshwarden.Transport
