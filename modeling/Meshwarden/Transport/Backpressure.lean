import Meshwarden.Transport.Conversation

/-!
# Backpressure

A stream has room for so many bytes, and a send that finds too little of it waits in its write until
the other end reads. A channel that waits in a send is borrowed and does not receive. So two ends
that both wait in a send of more than their streams have room for wait for each other: nothing is
ever seen of them again, as long as no send is dropped and no write fails, as none does here. That
is the only way to get stuck. In every other state that a conversation reaches, all that was sent
can be received.

## Main definitions

* `Pipe`: a link, with what a send still has to write; `Pipe.step`
* `Pipe.link`: the link that a pipe is, with all of the frame on the stream at once
* `bounded room`: conversations over streams with room for `room` bytes
* `Deadlocked`: both ends wait in a send of more than there is room for

## Main results

* `bounded_simulates`: a conversation over bounded streams shows what one with room enough shows
* `Deadlocked.shows_nothing`: a deadlock is for good
* `drain_of_room`: in any other state everything that was sent can be received
* `backpressure`: both, from every state that is reached
-/

namespace Meshwarden.Transport

open Codec Proto Automata

/-! ## Pipes -/

/-- One direction of a stream with a bounded room: the two ends and the bytes on the stream, and
what a send that waits has still to write. -/
structure Pipe where
  ends : Link
  pending : Bytes

/-- What can happen on a pipe. -/
inductive Pipe.Action
  /-- The sending end calls `send`, which suspends in its write, or closes the stream. -/
  | send (frame : Frame)
  | close
  /-- The write goes on, by at most `count` bytes. -/
  | write (count : ℕ)
  /-- The receiving end does something. -/
  | receive (a : Transport.Action)

namespace Pipe

/-- A new pipe. -/
def new : Pipe := ⟨Link.new, []⟩

/-- A send encodes its frame, and has all of it to write. -/
def send (p : Pipe) (frame : Frame) : Pipe :=
  match frame.encode with
  | .error e =>
    { p with ends := { p.ends with sendResults := p.ends.sendResults ++ [.error (.frame e)] } }
  | .ok bytes => { p with pending := bytes }

/-- A send that had `bytes` to write has returned when none of them is left. -/
def finished (bytes rest : Bytes) : List (Except Error Unit) :=
  if bytes ≠ [] ∧ rest = [] then [.ok ()] else []

/-- As many bytes as are asked for go onto the stream, if there is room for them. With the last one
the send returns. -/
def write (room : ℕ) (p : Pipe) (count : ℕ) : Pipe :=
  let n := min count (room - p.ends.unread.length)
  { ends := { p.ends with
      sendResults := p.ends.sendResults ++ finished p.pending (p.pending.drop n)
      written := p.ends.written ++ p.pending.take n
      unread := p.ends.unread ++ p.pending.take n }
    pending := p.pending.drop n }

/-- One action, on a stream with room for `room` bytes. -/
def step (room : ℕ) (p : Pipe) : Action → Pipe
  | .send frame => if p.ends.closed then p else p.send frame
  | .close => { p with ends := p.ends.step .close }
  | .write count => p.write room count
  | .receive a => { p with ends := p.ends.step a }

/-- What is seen of an action. A frame is seen when `send` is called. -/
def observe (p : Pipe) : Action → Option Event
  | .send frame => p.ends.observe (.send frame .completed)
  | .close => p.ends.observe .close
  | .write _ => none
  | .receive a => p.ends.observe a

/-- The link that a pipe is to those who see no write: with all of the frame on the stream at once,
and the send returned. -/
def link (p : Pipe) : Link :=
  { p.ends with
    sendResults := p.ends.sendResults ++ finished p.pending []
    written := p.ends.written ++ p.pending
    unread := p.ends.unread ++ p.pending }

/-! ## A pipe is a link -/

@[simp] theorem finished_nil (rest : Bytes) : finished [] rest = [] := if_neg fun h => h.1 rfl

theorem link_of_idle {p : Pipe} (h : p.pending = []) : p.link = p.ends := by
  simp only [link, h, finished_nil, List.append_nil]

variable {room : ℕ} {p : Pipe}

/-- A send that is called puts all of its frame on the link. -/
theorem link_send (h : p.pending = []) (f : Frame) :
    (p.step room (.send f)).link = p.link.step (.send f .completed) := by
  rw [link_of_idle h, step, Link.step]
  split_ifs with hclosed
  · exact link_of_idle h
  rw [send, FramedChannel.send]
  rcases hb : f.encode with e | b
  · simp only [link, h, finished_nil, List.append_nil, Option.toList]
  · have hlen := f.length_bytes
    have hheader : headerLen = 8 := rfl
    obtain ⟨-, rfl⟩ := Frame.encode_eq_ok_iff.mp hb
    have hne : f.bytes ≠ [] := List.length_pos_iff.mp (by omega)
    have hfinished : finished f.bytes [] = [.ok ()] := if_pos ⟨hne, rfl⟩
    simp only [link, hfinished, Option.toList]

theorem link_close (h : p.pending = []) : (p.step room .close).link = p.link.step .close := by
  have hstep : (p.step room .close).pending = [] := h
  rw [link_of_idle h, link_of_idle hstep]
  rfl

/-- A send returns once, whoever cuts its write into two. -/
theorem finished_append (bytes : Bytes) (n : ℕ) :
    finished bytes (bytes.drop n) ++ finished (bytes.drop n) [] = finished bytes [] := by
  by_cases hd : bytes.drop n = []
  · rw [hd]
    exact List.append_nil _
  · have hb : bytes ≠ [] := by
      rintro rfl
      exact hd List.drop_nil
    rw [finished, finished, finished, if_neg fun h => hd h.2, if_pos ⟨hd, rfl⟩, if_pos ⟨hb, rfl⟩,
      List.nil_append]

/-- Nobody sees a write. -/
theorem link_write (room : ℕ) (p : Pipe) (count : ℕ) :
    (p.step room (.write count)).link = p.link := by
  simp only [step, write, link, List.append_assoc, List.take_append_drop, finished_append]

theorem link_settle (l : Link) (pending : Bytes) (r : Option (Except Error Frame) × Bytes) :
    (Pipe.mk (l.settle r) pending).link = (Pipe.mk l pending).link.settle r := by
  rcases r with ⟨_ | r, b⟩ <;> rfl

theorem chunk_le (l : Link) (size : ℕ) :
    (l.chunk size).length ≤ chunkLen ∧ (l.chunk size).length ≤ l.unread.length := by
  have hchunk : 0 < chunkLen := by decide
  rw [Link.chunk, List.length_take]
  omega

/-- What a read hands over is a chunk of the link, where the bytes on the stream come first. -/
theorem link_chunk (hu : p.ends.unread ≠ []) (size : ℕ) :
    p.link.chunk (p.ends.chunk size).length = p.ends.chunk size := by
  obtain ⟨hle, hunread⟩ := chunk_le p.ends size
  have hpos := List.length_pos_iff.mpr (Link.chunk_ne_nil hu size)
  have hcount : max 1 (min (p.ends.chunk size).length chunkLen) = (p.ends.chunk size).length := by
    omega
  have hlink : p.link.unread = p.ends.unread ++ p.pending := rfl
  have htake := List.prefix_iff_eq_take.mp (List.take_prefix (max 1 (min size chunkLen))
    p.ends.unread)
  rw [Link.chunk, hcount, hlink, List.take_append_of_le_length hunread]
  exact htake.symm

/-- A read is one of the link, of the chunk that it hands over. -/
theorem link_read (room : ℕ) (hw : p.ends.waiting = true) (hu : p.ends.unread ≠ []) (size : ℕ) :
    (p.step room (.receive (.read size))).link =
      p.link.step (.read (p.ends.chunk size).length) := by
  obtain ⟨-, hunread⟩ := chunk_le p.ends size
  have hw' : p.link.waiting = true := hw
  have hu' : p.link.unread ≠ [] := List.append_ne_nil_of_left_ne_nil hu _
  have hdrop : p.link.unread.drop (p.ends.chunk size).length =
      p.ends.unread.drop (p.ends.chunk size).length ++ p.pending :=
    List.drop_append_of_le_length hunread
  rw [step, Link.step_read hw, Link.step_read hw', if_pos hu, if_pos hu', link_chunk hu, hdrop,
    link_settle]
  rfl

/-- A read of a stream with nothing on it and nothing to come is one of the link. -/
theorem link_read_ended (room : ℕ) (h : p.pending = []) (a : Transport.Action) :
    (p.step room (.receive a)).link = p.link.step a := by
  have hstep : (p.step room (.receive a)).pending = [] := h
  rw [link_of_idle h, link_of_idle hstep]
  rfl

theorem link_recv (room : ℕ) (p : Pipe) :
    (p.step room (.receive .recv)).link = p.link.step .recv := by
  have hw : p.link.waiting = p.ends.waiting := rfl
  rw [step, Link.step, Link.step, hw]
  split_ifs
  · rfl
  · exact link_settle p.ends p.pending _

theorem link_readFailed (room : ℕ) (p : Pipe) (kind : ErrorKind) :
    (p.step room (.receive (.readFailed kind))).link = p.link.step (.readFailed kind) := by
  have hw : p.link.waiting = p.ends.waiting := rfl
  rw [step, Link.step, Link.step, hw]
  split_ifs <;> rfl

theorem link_drop : (p.step room (.receive .drop)).link = p.link.step .drop := rfl

/-- What an action of the receiving end shows on the link. -/
theorem observe_link {a a' : Transport.Action} (ha : Link.receives a = true)
    (ha' : Link.receives a' = true) (h : (p.step room (.receive a)).link = p.link.step a') :
    p.observe (.receive a) = p.link.observe a' := by
  have hlink : (p.step room (.receive a)).link.results = (p.link.step a').results :=
    congrArg Link.results h
  have hresults : (p.ends.step a).results = (p.link.step a').results := hlink
  rw [observe, Link.observe_receives ha, Link.observe_receives ha', Link.returned, Link.returned,
    hresults]
  rfl

/-! ## What every pipe keeps -/

/-- **The invariant of a pipe**: a stream is only closed when no send waits, and it never holds more
than there is room for. -/
structure Sound (room : ℕ) (p : Pipe) : Prop where
  idle : p.ends.closed = true → p.pending = []
  unread_le : p.ends.unread.length ≤ room

theorem sound_new (room : ℕ) : new.Sound room := ⟨fun _ => rfl, Nat.zero_le room⟩

/-- What is on the stream only becomes less by what the receiving end does. -/
theorem unread_receives (l : Link) {a : Transport.Action} (ha : Link.receives a = true) :
    (l.step a).unread.length ≤ l.unread.length := by
  cases a with
  | send frame write => cases ha
  | close => cases ha
  | recv =>
    rw [Link.step]
    split_ifs
    · exact le_rfl
    · rcases FramedChannel.turn l.readBuf with ⟨_ | r, b⟩ <;> exact le_rfl
  | read size =>
    rw [Link.step]
    split_ifs
    · simp only
      rcases FramedChannel.resume (l.chunk size) l.readBuf with ⟨_ | r, b⟩ <;>
        exact (List.length_drop).le.trans (Nat.sub_le _ _)
    · exact le_rfl
  | readFailed kind =>
    rw [Link.step]
    split_ifs <;> exact le_rfl
  | drop => exact le_rfl

theorem Sound.write (h : p.Sound room) (count : ℕ) : (p.step room (.write count)).Sound room where
  idle hclosed := by
    simp only [step, Pipe.write, h.idle hclosed, List.drop_nil]
  unread_le := by
    have hle := h.unread_le
    simp only [step, Pipe.write, List.length_append, List.length_take]
    omega

theorem Sound.receive (h : p.Sound room) {a : Transport.Action} (ha : Link.receives a = true) :
    (p.step room (.receive a)).Sound room where
  idle hclosed := h.idle ((Link.step_receives p.ends ha).2.symm.trans hclosed)
  unread_le := (unread_receives p.ends ha).trans h.unread_le

theorem Sound.send (h : p.Sound room) (f : Frame) : (p.step room (.send f)).Sound room := by
  rw [step]
  split_ifs with hclosed
  · exact h
  · rw [Pipe.send]
    rcases f.encode with e | b
    · exact ⟨h.idle, h.unread_le⟩
    · exact ⟨fun hc => absurd hc hclosed, h.unread_le⟩

theorem Sound.close (h : p.Sound room) (hp : p.pending = []) : (p.step room .close).Sound room :=
  ⟨fun _ => hp, h.unread_le⟩

/-- **What the receiving end does is something it does on the link**, or nothing that is seen. -/
theorem Sound.receive_cases (h : p.Sound room) {a : Transport.Action}
    (ha : Link.receives a = true) :
    (∃ a', Link.receives a' = true ∧ (p.step room (.receive a)).link = p.link.step a' ∧
        p.observe (.receive a) = p.link.observe a') ∨
      (p.step room (.receive a)).link = p.link ∧ p.observe (.receive a) = none := by
  have hsame : ∀ a', Link.receives a' = true →
      (p.step room (.receive a)).link = p.link.step a' →
      ∃ a', Link.receives a' = true ∧ (p.step room (.receive a)).link = p.link.step a' ∧
        p.observe (.receive a) = p.link.observe a' :=
    fun a' ha' hlink => ⟨a', ha', hlink, observe_link ha ha' hlink⟩
  cases a with
  | send frame write => cases ha
  | close => cases ha
  | recv => exact Or.inl (hsame _ rfl (link_recv room p))
  | readFailed kind => exact Or.inl (hsame _ rfl (link_readFailed room p kind))
  | drop => exact Or.inl (hsame _ rfl link_drop)
  | read size =>
    rcases hw : p.ends.waiting
    · have hidle : p.link.step (.read size) = p.link := Link.step_read_idle (l := p.link) hw size
      have hstep : p.step room (.receive (.read size)) = p := by
        rw [step, Link.step_read_idle hw]
      exact Or.inl (hsame (.read size) rfl (by rw [hstep, hidle]))
    by_cases hu : p.ends.unread = []
    · rcases hc : p.ends.closed
      · -- an open stream with nothing on it: the read goes on waiting
        have hstep : p.ends.step (.read size) = p.ends := by
          rw [Link.step_read hw, if_neg (not_not.mpr hu), if_neg (by rw [hc]; exact nofun)]
        refine Or.inr ⟨by rw [step, hstep], ?_⟩
        exact Link.observe_none ha (congrArg Link.results hstep)
      · exact Or.inl (hsame _ rfl (link_read_ended room (h.idle hc) (.read size)))
    · exact Or.inl (hsame _ rfl (link_read room hw hu size))

/-! ## One step -/

/-- What the end that acts needs of its own pipe: a send and the close need that no send waits. -/
def Ready (p : Pipe) : Action → Prop
  | .send _ => p.pending = []
  | .close => p.pending = []
  | .write _ => True
  | .receive a => Link.receives a = true

/-- **An action is one of the link**, or nothing that is seen. -/
theorem Sound.step_cases (h : p.Sound room) {a : Action} (ha : p.Ready a) :
    (p.step room a).Sound room ∧
      ((∃ a', Link.Completes a' ∧
          (Link.receives a' = false → (∃ f, a = .send f) ∨ a = .close) ∧
          (p.step room a).link = p.link.step a' ∧ p.observe a = p.link.observe a') ∨
        (p.step room a).link = p.link ∧ p.observe a = none) := by
  cases a with
  | send f =>
    have hp : p.pending = [] := ha
    have hobserve : p.observe (.send f) = p.link.observe (.send f .completed) := by
      rw [link_of_idle hp]
      rfl
    exact ⟨h.send f, Or.inl ⟨.send f .completed, Link.completes_send f,
      fun _ => Or.inl ⟨f, rfl⟩, link_send hp f, hobserve⟩⟩
  | close =>
    have hp : p.pending = [] := ha
    have hobserve : p.observe .close = p.link.observe .close := by
      rw [link_of_idle hp]
      rfl
    exact ⟨h.close hp, Or.inl ⟨.close, Link.completes_close, fun _ => Or.inr rfl, link_close hp,
      hobserve⟩⟩
  | write count => exact ⟨h.write count, Or.inr ⟨link_write room p count, rfl⟩⟩
  | receive a =>
    refine ⟨h.receive ha, ?_⟩
    rcases h.receive_cases ha with ⟨a', ha', hlink, hobserve⟩ | hnothing
    · have hcompletes := Link.completes_of_receives ha'
      exact Or.inl ⟨a', hcompletes, fun hf => absurd (ha'.symm.trans hf) (Bool.noConfusion ·),
        hlink, hobserve⟩
    · exact Or.inr hnothing

/-! ## The receiving end reads what is to come -/

/-- What drains a pipe: its send writes, and the receiving end reads byte by byte. -/
def draining (room : ℕ) : Lts Pipe Event where
  step p o p' := ∃ a, ((∃ count, a = .write count) ∨ a = .receive .recv ∨ a = .receive (.read 1)) ∧
    p' = p.step room a ∧ o = p.observe a

/-- A byte that is on the stream is read as on the link. -/
theorem read_byte (room : ℕ) (hw : p.ends.waiting = true) (hu : p.ends.unread ≠ []) :
    (draining room).step p (p.link.observe (.read 1)) (p.step room (.receive (.read 1))) ∧
      (p.step room (.receive (.read 1))).link = p.link.step (.read 1) := by
  have hone : (p.ends.chunk 1).length = 1 := by
    have hpos := List.length_pos_iff.mpr hu
    rw [Link.chunk, List.length_take]
    exact min_eq_left hpos
  have hlink := link_read room hw hu 1
  rw [hone] at hlink
  exact ⟨⟨_, Or.inr (Or.inr rfl), rfl, (observe_link rfl rfl hlink).symm⟩, hlink⟩

/-- **A pipe with some room is drained as its link is**: where nothing is on the stream, the send
writes a byte first. -/
theorem simulates_receiving (hroom : 0 < room) :
    Lts.Simulates Link.receiving (draining room) fun l p => p.Sound room ∧ p.link = l := by
  rintro l l' p o ⟨h, rfl⟩ ⟨a, ha, rfl, rfl⟩
  rcases ha with rfl | rfl
  · have hlink := link_recv room p
    exact ⟨_, Lts.Run.single ⟨_, Or.inr (Or.inl rfl), rfl, (observe_link rfl rfl hlink).symm⟩,
      h.receive rfl, hlink⟩
  rcases hw : p.ends.waiting
  · -- no receive waits
    have hidle : p.link.step (.read 1) = p.link := Link.step_read_idle (l := p.link) hw 1
    have hobserve : p.link.observe (.read 1) = none :=
      Link.observe_none rfl (congrArg Link.results hidle)
    rw [hidle, hobserve]
    exact ⟨p, Lts.Run.refl p, h, rfl⟩
  by_cases hu : p.ends.unread = []
  · by_cases hp : p.pending = []
    · have hlink := link_read_ended room hp (.read 1)
      exact ⟨_, Lts.Run.single ⟨_, Or.inr (Or.inr rfl), rfl, (observe_link rfl rfl hlink).symm⟩,
        h.receive rfl, hlink⟩
    · -- the send writes a byte, and the read takes it
      have hwrite : (draining room).step p none (p.step room (.write 1)) :=
        ⟨_, Or.inl ⟨1, rfl⟩, rfl, rfl⟩
      have hsame := link_write room p 1
      have hunread : (p.step room (.write 1)).ends.unread ≠ [] := by
        have hpos := List.length_pos_iff.mpr hp
        apply List.length_pos_iff.mp
        simp only [step, Pipe.write, hu, List.nil_append, List.length_take, List.length_nil]
        omega
      obtain ⟨hread, hlink⟩ := read_byte (p := p.step room (.write 1)) room hw hunread
      rw [hsame] at hread hlink
      exact ⟨_, Lts.Run.step hwrite (Lts.Run.single hread), (h.write 1).receive rfl, hlink⟩
  · obtain ⟨hread, hlink⟩ := read_byte room hw hu
    exact ⟨_, Lts.Run.single hread, h.receive rfl, hlink⟩

/-- Nothing is on the stream, and no send waits. -/
def Drained (p : Pipe) : Prop := p.pending = [] ∧ p.ends.unread = []

/-- Where nothing is on its way, a pipe is drained. -/
theorem drained_of_holds {q : Fifo Frame} (h : p.link.Holds q) (hq : q.items = []) :
    p.Drained := by
  have hbytes : p.ends.readBuf ++ (p.ends.unread ++ p.pending) = q.items.flatMap Frame.bytes :=
    h.bytes
  rw [hq, List.flatMap_nil] at hbytes
  obtain ⟨hunread, hpending⟩ := List.append_eq_nil_iff.mp (List.append_eq_nil_iff.mp hbytes).2
  exact ⟨hpending, hunread⟩

/-- Everything that is on its way in a pipe can be received. -/
theorem Sound.drain (hroom : 0 < room) (h : p.Sound room) {q : Fifo Frame} (hq : p.link.Holds q) :
    ∃ p', (draining room).Run p (q.items.map fun f => .got (.ok f)) p' ∧ p'.Sound room ∧
      p'.link.Holds ⟨[], q.closed⟩ := by
  obtain ⟨l', hrun, hl'⟩ := hq.drain
  obtain ⟨p', hrun', h', rfl⟩ := (simulates_receiving hroom).run ⟨h, rfl⟩ hrun
  exact ⟨p', hrun', h', hl'⟩

end Pipe

/-! ## Conversations over bounded streams -/

/-- The pipe that each end sends on; it receives on that of the other end. A channel that waits in a
send, or in a receive, is borrowed. A send that waits goes on by itself. -/
def Unborrowed (c : Side → Pipe) (i : Side) : Pipe.Action → Prop
  | .send _ => (c i).pending = [] ∧ (c i.other).ends.waiting = false
  | .close => (c i).pending = [] ∧ (c i.other).ends.waiting = false
  | .write _ => True
  | .receive a => Link.receives a = true ∧ (c i.other).pending = []

/-- One action on one of the pipes, each with room for `room` bytes. -/
def bounded (room : ℕ) : Lts (Side → Pipe) (Side × Event) where
  step c o c' := ∃ i a, Unborrowed c i a ∧ c' = Function.update c i ((c i).step room a) ∧
    o = ((c i).observe a).map (i, ·)

variable {room : ℕ} {c c' : Side → Pipe} {i : Side}

theorem Unborrowed.ready {a : Pipe.Action} (h : Unborrowed c i a) : (c i).Ready a := by
  cases a with
  | send f => exact h.1
  | close => exact h.1
  | write count => trivial
  | receive a => exact h.1

/-- Every pipe keeps its invariant. -/
def PipesSound (room : ℕ) (c : Side → Pipe) : Prop := ∀ i, (c i).Sound room

theorem PipesSound.update (h : PipesSound room c) {p : Pipe} (hp : p.Sound room) :
    PipesSound room (Function.update c i p) :=
  (Function.forall_update_iff c fun _ p => p.Sound room).mpr ⟨hp, fun j _ => h j⟩

/-- The links of a conversation whose pipe `i` changes. -/
theorem link_update (c : Side → Pipe) (i : Side) (p : Pipe) :
    (fun j => (Function.update c i p j).link) = Function.update (fun j => (c j).link) i p.link :=
  Function.comp_update Pipe.link c i p

/-- **A conversation over bounded streams shows what one with room enough shows**, so what holds of
all traces of the one holds of those of the other. -/
theorem bounded_simulates (room : ℕ) :
    Lts.Simulates (bounded room) conversation
      fun c d => PipesSound room c ∧ d = fun i => (c i).link := by
  rintro c c' d o ⟨h, rfl⟩ ⟨i, a, ha, rfl, rfl⟩
  obtain ⟨hsound, hcases⟩ := (h i).step_cases ha.ready
  rcases hcases with ⟨a', hcompletes, hsends, hlink, hobserve⟩ | ⟨hlink, hobserve⟩
  · refine ⟨_, Lts.Run.single ⟨i, a', hcompletes, ?_, rfl, congrArg _ hobserve⟩, h.update hsound,
      ?_⟩
    · intro hf
      rcases hsends hf with ⟨f, rfl⟩ | rfl
      · exact ha.2
      · exact ha.2
    · rw [link_update, hlink]
  · rw [hobserve]
    refine ⟨_, Lts.Run.refl _, h.update hsound, ?_⟩
    rw [link_update, hlink, Function.update_eq_self]

/-- Both ends wait in a send, each of more than there is room for. -/
def Deadlocked (room : ℕ) (c : Side → Pipe) : Prop :=
  ∀ i, room < (c i).ends.unread.length + (c i).pending.length

/-- The send of each end waits. -/
theorem Deadlocked.pending_ne_nil (hd : Deadlocked room c) (h : PipesSound room c) (i : Side) :
    (c i).pending ≠ [] := by
  intro hp
  have hlt := hd i
  have hle := (h i).unread_le
  rw [hp, List.length_nil] at hlt
  omega

/-- A write leaves a deadlock as it is, and nothing else can be done. -/
theorem Deadlocked.step (hd : Deadlocked room c) (h : PipesSound room c) {o : Option (Side × Event)}
    (hstep : (bounded room).step c o c') : Deadlocked room c' ∧ PipesSound room c' ∧ o = none := by
  obtain ⟨i, a, ha, rfl, rfl⟩ := hstep
  cases a with
  | send f => exact absurd ha.1 (hd.pending_ne_nil h i)
  | close => exact absurd ha.1 (hd.pending_ne_nil h i)
  | receive a => exact absurd ha.2 (hd.pending_ne_nil h i.other)
  | write count =>
    -- what goes onto the stream was still to be written
    refine ⟨(Function.forall_update_iff c fun _ p =>
      room < p.ends.unread.length + p.pending.length).mpr ⟨?_, fun j _ => hd j⟩,
      h.update ((h i).write count), rfl⟩
    have hlt := hd i
    simp only [Pipe.step, Pipe.write, List.length_append, List.length_take, List.length_drop]
    omega

/-- **A deadlock is for good**: nothing is seen of either end again. -/
theorem Deadlocked.shows_nothing (hd : Deadlocked room c) (h : PipesSound room c)
    {trace : List (Side × Event)} (hrun : (bounded room).Run c trace c') : trace = [] := by
  have hkeeps : ∀ {s o s'}, Deadlocked room s ∧ PipesSound room s → (bounded room).step s o s' →
      (Deadlocked room s' ∧ PipesSound room s') ∧ ∀ e ∈ o, False := by
    rintro s o s' ⟨hd, h⟩ hstep
    obtain ⟨hd', h', rfl⟩ := hd.step h hstep
    exact ⟨⟨hd', h'⟩, nofun⟩
  have hinv := hrun.invariant hkeeps ⟨hd, h⟩
  exact List.eq_nil_iff_forall_not_mem.mpr hinv.2

/-! ## Every other state can be drained -/

/-- A pipe is drained where the end that receives from it waits in no send. -/
theorem run_draining (hidle : (c i.other).pending = []) {trace : List Event} {p : Pipe}
    (h : (Pipe.draining room).Run (c i) trace p) :
    (bounded room).Run c (trace.map (i, ·)) (Function.update c i p) := by
  apply h.embed (P := fun c => (c i.other).pending = []) _ _ hidle
  · rintro c o p hidle ⟨a, ha, rfl, rfl⟩
    refine ⟨i, a, ?_, rfl, rfl⟩
    rcases ha with ⟨count, rfl⟩ | rfl | rfl
    · trivial
    · exact ⟨rfl, hidle⟩
    · exact ⟨rfl, hidle⟩
  · intro c p hidle
    rwa [Function.update_of_ne i.other_ne]

/-- What is to come on each pipe, as frames. -/
def Awaited (c : Side → Pipe) (q : Side → Fifo Frame) : Prop := ∀ i, (c i).link.Holds (q i)

/-- One end receives frames. -/
def receipts (i : Side) (frames : List Frame) : List (Side × Event) :=
  frames.map fun f => (i, .got (.ok f))

/-- **All is received on one pipe, then on the other**: where no send of `i` waits, its end receives
first, and then the other end does. -/
theorem drain_of_idle (hroom : 0 < room) (h : PipesSound room c) {q : Side → Fifo Frame}
    (hq : Awaited c q) (hidle : (c i).pending = []) :
    ∃ c', (bounded room).Run c
      (receipts i.other (q i.other).items ++ receipts i (q i).items) c' ∧ ∀ j, (c' j).Drained := by
  obtain ⟨p, hp, -, hpq⟩ := (h i.other).drain hroom (hq i.other)
  obtain ⟨p', hp', -, hpq'⟩ := (h i).drain hroom (hq i)
  have hfirst := run_draining (by rwa [i.other_other]) hp
  have hi : Function.update c i.other p i = c i := Function.update_of_ne i.other_ne.symm ..
  have hidle' : (Function.update c i.other p i.other).pending = [] := by
    rw [Function.update_self]
    exact (Pipe.drained_of_holds hpq rfl).1
  have hsecond := run_draining hidle' (hi ▸ hp')
  rw [List.map_map] at hfirst hsecond
  refine ⟨_, hfirst.trans hsecond, (Function.forall_update_iff _ fun _ => Pipe.Drained).mpr
    ⟨Pipe.drained_of_holds hpq' rfl, ?_⟩⟩
  intro j hj
  obtain rfl := Side.eq_other_of_ne hj
  rw [Function.update_self]
  exact Pipe.drained_of_holds hpq rfl

/-- **Where there is room for one of the sends, all is received**: this send writes the rest of its
frame, and its end is free to receive. -/
theorem drain_of_room (hroom : 0 < room) (h : PipesSound room c) {q : Side → Fifo Frame}
    (hq : Awaited c q) (hfits : (c i).ends.unread.length + (c i).pending.length ≤ room) :
    ∃ c', (bounded room).Run c
      (receipts i.other (q i.other).items ++ receipts i (q i).items) c' ∧ ∀ j, (c' j).Drained := by
  have hwrite : (bounded room).step c none
      (Function.update c i ((c i).step room (.write (c i).pending.length))) :=
    ⟨i, .write (c i).pending.length, trivial, rfl, rfl⟩
  have hidle : ((c i).step room (.write (c i).pending.length)).pending = [] := by
    simp only [Pipe.step, Pipe.write, List.drop_eq_nil_iff]
    omega
  have hq' : Awaited (Function.update c i ((c i).step room (.write (c i).pending.length))) q := by
    intro j
    have hlink := Pipe.link_write room (c i) (c i).pending.length
    have hlinks := link_update c i ((c i).step room (.write (c i).pending.length))
    rw [hlink, Function.update_eq_self] at hlinks
    exact congrFun hlinks j ▸ hq j
  obtain ⟨c', hrun, hc'⟩ := drain_of_idle hroom
    (h.update ((h i).write (c i).pending.length)) hq' (by rwa [Function.update_self])
  exact ⟨c', Lts.Run.step hwrite hrun, hc'⟩

/-- A conversation over new pipes holds a queue in each direction. -/
theorem bounded_holds {trace : List (Side × Event)}
    (h : (bounded room).Run (fun _ => Pipe.new) trace c) :
    PipesSound room c ∧ ∃ q : Side → Fifo Frame,
      (∀ i, queue.Run Fifo.empty (Lts.shownBy i trace) (q i)) ∧ Awaited c q := by
  obtain ⟨d, hrun, hsound, rfl⟩ := (bounded_simulates room).run
    (t := fun _ => Link.new) ⟨fun _ => Pipe.sound_new room, rfl⟩ h
  choose q hq hholds using conversation_holds hrun
  exact ⟨hsound, q, hq, hholds⟩

/-- **Backpressure.** Over streams with some room, from every state that a conversation reaches:
what each end has received are the first frames that the other has sent. Where both ends wait in a
send, each of more than its stream has room for, there are frames to come on both sides and nothing
is seen of either end again. In every other state all the frames that are to come can be received,
by one end and then by the other, and no send is left waiting. -/
theorem backpressure (hroom : 0 < room) {trace : List (Side × Event)}
    (h : (bounded room).Run (fun _ => Pipe.new) trace c) :
    ∃ rest : Side → List Frame,
      (∀ i, Fifo.pushed (Lts.shownBy i trace) =
        (Fifo.got (Lts.shownBy i trace)).filterMap Except.toOption ++ rest i) ∧
      (Deadlocked room c → (∀ i, rest i ≠ []) ∧
        ∀ later c', (bounded room).Run c later c' → later = []) ∧
      (¬ Deadlocked room c → ∃ i c',
        (bounded room).Run c (receipts i.other (rest i.other) ++ receipts i (rest i)) c' ∧
          ∀ j, (c' j).Drained) := by
  obtain ⟨hsound, q, hqueues, hq⟩ := bounded_holds h
  refine ⟨fun i => (q i).items, fun i => (Fifo.delivered (hqueues i)).symm, ?_, ?_⟩
  · intro hd
    refine ⟨fun i hnil => ?_, fun later c' hrun => hd.shows_nothing hsound hrun⟩
    -- an empty queue leaves nothing to write
    exact hd.pending_ne_nil hsound i (Pipe.drained_of_holds (hq i) hnil).1
  · intro hd
    obtain ⟨i, hfits⟩ := not_forall.mp hd
    obtain ⟨c', hrun, hc'⟩ := drain_of_room hroom hsound hq (not_lt.mp hfits)
    exact ⟨i, c', hrun, hc'⟩

/-- Both ends call `send` before either has received. -/
def bothSend : Side → Pipe := fun _ => Pipe.new.send ⟨.v1, 1, [7]⟩

theorem run_bothSend :
    (bounded 3).Run (fun _ => Pipe.new)
      [(.client, .push ⟨.v1, 1, [7]⟩), (.server, .push ⟨.v1, 1, [7]⟩)] bothSend := by
  have hone : (bounded 3).step (fun _ => Pipe.new) (some (.client, .push ⟨.v1, 1, [7]⟩))
      (Function.update (fun _ => Pipe.new) .client (Pipe.new.send ⟨.v1, 1, [7]⟩)) :=
    ⟨.client, .send ⟨.v1, 1, [7]⟩, ⟨rfl, rfl⟩, rfl, rfl⟩
  have htwo : (bounded 3).step
      (Function.update (fun _ => Pipe.new) .client (Pipe.new.send ⟨.v1, 1, [7]⟩))
      (some (.server, .push ⟨.v1, 1, [7]⟩)) bothSend := by
    refine ⟨.server, .send ⟨.v1, 1, [7]⟩, ⟨rfl, rfl⟩, ?_, rfl⟩
    funext i
    cases i <;> rfl
  exact Lts.Run.step hone (Lts.Run.single htwo)

theorem backpressure_bothSend :
    Deadlocked 3 bothSend ∧ ∀ later c', (bounded 3).Run bothSend later c' → later = [] := by
  have hd : Deadlocked 3 bothSend := by
    intro i
    cases i <;> decide
  obtain ⟨_, -, hstuck, -⟩ := backpressure (by decide : 0 < 3) run_bothSend
  exact ⟨hd, (hstuck hd).2⟩

end Meshwarden.Transport
