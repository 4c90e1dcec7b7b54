import Meshwarden.Proto.Frame

/-!
# Framed channels

`FramedChannel` writes frames whole onto a byte stream and takes them back off it at the other end,
where they arrive in chunks. A receive parses what is buffered, and reads more only where that is no
complete frame; its future can be dropped while it waits in the read. The link between the two ends
is modelled from call to call: sends, reads that hand over a chunk, reads that fail, and drops come
in any order.

## Main definitions

* `FramedChannel.send`, `FramedChannel.turn`, `FramedChannel.resume`: the code of both ends, from
  one suspension to the next
* `Link`, `Action`, `Link.step`, `Link.run`: the two ends and the stream between them
* `reference`: the results that the parse of a whole stream calls for

## Main results

* `Link.Coherent.run`: the invariant of every run
* `Link.recv_reassembles`: the receives give the reference parse, however the stream is cut up and
  whichever of them are dropped
* `Link.run_written_eq`: the bytes that a run puts on the stream
* `Link.channel_delivers`: the receives of one end give the frames sent at the other
-/

namespace Meshwarden.Transport

open Codec Proto

/-! ## The two ends -/

/-- Kinds of I/O errors, of which the channel itself makes one. -/
inductive ErrorKind
  | unexpectedEof
  | other (code : ℕ)
  deriving DecidableEq, Repr

/-- The errors of an established channel. -/
inductive Error
  | io (kind : ErrorKind)
  | frame (e : Proto.Error)
  deriving DecidableEq, Repr

/-- How the write of an encoded frame ends: whole and flushed, with an error after some of its
bytes, or dropped after some of its bytes. -/
inductive Write
  | completed
  | failed (count : ℕ) (kind : ErrorKind)
  | dropped (count : ℕ)
  deriving DecidableEq, Repr

/-- How many bytes of an encoding of `len` bytes a write puts on the stream. -/
def Write.count (len : ℕ) : Write → ℕ
  | .completed => len
  | .failed count _ => min count len
  | .dropped count => min count len

/-- The size of the chunk that `recv` reads into. -/
def chunkLen : ℕ := 4096

namespace FramedChannel

/-- Encodes and writes one frame: the result, unless the future is dropped, and the bytes that reach
the stream. -/
def send (frame : Frame) (write : Write) : Option (Except Error Unit) × Bytes :=
  match frame.encode with
  | .error e => (some (.error (.frame e)), [])
  | .ok bytes =>
    match write with
    | .completed => (some (.ok ()), bytes)
    | .failed count kind => (some (.error (.io kind)), bytes.take count)
    | .dropped count => (none, bytes.take count)

/-- One turn of the loop of `recv` up to its read: the result, if this turn gives one, and the
buffer. -/
def turn (readBuf : Bytes) : Option (Except Error Frame) × Bytes :=
  match Frame.decodePrefix readBuf with
  | .error e => (some (.error (.frame e)), readBuf)
  | .ok (some (frame, consumed)) => (some (.ok frame), readBuf.drop consumed)
  | .ok none => (none, readBuf)

/-- The rest of a turn, from its read on, and the next turn. -/
def resume (chunk readBuf : Bytes) : Option (Except Error Frame) × Bytes :=
  if chunk.length = 0 then (some (.error (.io .unexpectedEof)), readBuf)
  else turn (readBuf ++ chunk)

/-- What a send puts on the stream: some of the encoding, if there is one. -/
theorem send_bytes (f : Frame) (w : Write) :
    (send f w).2 = if f.Encodable then f.bytes.take (w.count f.bytes.length) else [] := by
  unfold send
  split_ifs with hf
  · rw [Frame.encode_eq_ok_iff.mpr ⟨hf, rfl⟩]
    cases w with
    | completed => exact (List.take_length).symm
    | failed count kind => exact List.take_eq_take_min
    | dropped count => exact List.take_eq_take_min
  · rcases he : f.encode with e | b
    · rfl
    · exact absurd (Frame.encode_eq_ok_iff.mp he).1 hf

/-- A turn that gives no result leaves the buffer. -/
theorem turn_none {readBuf b : Bytes} (h : turn readBuf = (none, b)) : b = readBuf := by
  unfold turn at h
  split at h <;> cases h
  rfl

end FramedChannel

/-! ## The link -/

/-- A sending end, the stream, and the receiving end, with what has happened so far. -/
structure Link where
  /-- The results of the sends that were not dropped. -/
  sendResults : List (Except Error Unit)
  /-- The bytes written to the stream, those taken off it by reads, and those in between. -/
  written : Bytes
  taken : Bytes
  unread : Bytes
  closed : Bool
  /-- The buffer of the receiving end, and whether a receive waits in its read. -/
  readBuf : Bytes
  waiting : Bool
  /-- The results of the completed receives, those whose read failed kept apart. -/
  results : List (Except Error Frame)
  failures : List ErrorKind

/-- What can happen on a link. -/
inductive Action
  /-- The sending end calls `send`, or closes the stream. -/
  | send (frame : Frame) (write : Write)
  | close
  /-- The receiving end calls `recv`, which waits in its read or returns. -/
  | recv
  /-- The read hands over a chunk, of `size` bytes where the stream and the buffer have as many. -/
  | read (size : ℕ)
  /-- The read fails, or the future is dropped in it: it has taken no bytes. -/
  | readFailed (kind : ErrorKind)
  | drop

namespace Link

/-- A new link. -/
def new : Link where
  sendResults := []
  written := []
  taken := []
  unread := []
  closed := false
  readBuf := []
  waiting := false
  results := []
  failures := []

/-- A link whose stream carries `s`, from whomever, and is then closed. -/
def incoming (s : Bytes) : Link := { new with written := s, unread := s, closed := true }

/-- A receive has run to its result, or to its read. -/
def settle (l : Link) : Option (Except Error Frame) × Bytes → Link
  | (some result, readBuf) =>
    { l with readBuf := readBuf, waiting := false, results := l.results ++ [result] }
  | (none, readBuf) => { l with readBuf := readBuf, waiting := true }

/-- The chunk that a read hands over: at least one byte, unless there is none. -/
def chunk (l : Link) (size : ℕ) : Bytes := l.unread.take (max 1 (min size chunkLen))

/-- One action. A read of an open stream with nothing in it goes on waiting. -/
def step (l : Link) : Action → Link
  | .send frame write =>
    if l.closed then l
    else
      let (result, bytes) := FramedChannel.send frame write
      { l with
        sendResults := l.sendResults ++ result.toList
        written := l.written ++ bytes
        unread := l.unread ++ bytes }
  | .close => { l with closed := true }
  | .recv => if l.waiting then l else l.settle (FramedChannel.turn l.readBuf)
  | .read size =>
    if l.waiting ∧ (l.unread ≠ [] ∨ l.closed) then
      let chunk := l.chunk size
      { l with
        taken := l.taken ++ chunk
        unread := l.unread.drop chunk.length }.settle (FramedChannel.resume chunk l.readBuf)
    else l
  | .readFailed kind =>
    if l.waiting then { l with waiting := false, failures := l.failures ++ [kind] } else l
  | .drop => { l with waiting := false }

def run (l : Link) (actions : List Action) : Link := actions.foldl step l

@[simp] theorem run_nil (l : Link) : l.run [] = l := rfl

@[simp] theorem run_cons (l : Link) (a : Action) (actions : List Action) :
    l.run (a :: actions) = (l.step a).run actions := rfl

theorem run_append (l : Link) (before later : List Action) :
    l.run (before ++ later) = (l.run before).run later := List.foldl_append

/-! ## What is read -/

theorem chunk_append_drop (l : Link) (size : ℕ) :
    l.chunk size ++ l.unread.drop (l.chunk size).length = l.unread :=
  List.prefix_iff_eq_append.mp (List.take_prefix _ _)

theorem chunk_ne_nil {l : Link} (h : l.unread ≠ []) (size : ℕ) : l.chunk size ≠ [] := by
  obtain ⟨x, b, hb⟩ := List.exists_cons_of_ne_nil h
  -- at least one byte is taken
  obtain ⟨k, hk⟩ : ∃ k, max 1 (min size chunkLen) = k + 1 :=
    ⟨max 1 (min size chunkLen) - 1, by omega⟩
  rw [chunk, hb, hk, List.take_succ_cons]
  exact List.cons_ne_nil _ _

/-! ## The invariant -/

/-- The receives have come to an end with an error: the buffer holds a bad header, or no complete
frame and nothing is to follow. -/
def Ended (readBuf unread : Bytes) (closed : Bool) : Error → Prop
  | .frame e => Frame.decodePrefix readBuf = .error e
  | .io kind =>
    kind = .unexpectedEof ∧ closed = true ∧ unread = [] ∧ Frame.decodePrefix readBuf = .ok none

/-- **The invariant of a link.** What was taken off the stream is the frames that were returned,
then the buffer; and the receives returned those frames first, then one error for good. -/
structure Coherent (l : Link) : Prop where
  stream : l.taken ++ l.unread = l.written
  results : ∃ (frames : List Frame) (tail : List (Except Error Frame)),
    l.results = frames.map .ok ++ tail ∧
    (∀ f ∈ frames, f.Encodable) ∧
    l.taken = frames.flatMap Frame.bytes ++ l.readBuf ∧
    ∀ r ∈ tail, ∃ e, r = .error e ∧ Ended l.readBuf l.unread l.closed e
  waiting : l.waiting = true → Frame.decodePrefix l.readBuf = .ok none

theorem Ended.decodePrefix_ne_some {readBuf unread : Bytes} {closed : Bool} {e : Error}
    (h : Ended readBuf unread closed e) (r : Frame × ℕ) :
    Frame.decodePrefix readBuf ≠ .ok (some r) := by
  intro hr
  -- either error excludes a frame in the buffer
  cases e with
  | frame e => exact absurd (hr.symm.trans h) (by simp)
  | io kind => exact absurd (hr.symm.trans h.2.2.2) (by simp)

/-- A receive that ends with the error that the others have ended with, if any has. -/
theorem Coherent.append_error {l : Link} (h : l.Coherent) {e : Error}
    (he : Ended l.readBuf l.unread l.closed e) :
    Coherent { l with waiting := false, results := l.results ++ [.error e] } := by
  obtain ⟨frames, tail, hres, henc, htaken, htail⟩ := h.results
  refine ⟨h.stream, ⟨frames, tail ++ [.error e], ?_, henc, htaken, ?_⟩, ?_⟩
  · simp only [hres, List.append_assoc]
  · intro r hr
    rcases List.mem_append.mp hr with hr | hr
    · exact htail r hr
    · exact ⟨e, List.mem_singleton.mp hr, he⟩
  · intro hw
    cases hw

/-- A turn of a receive keeps the invariant. -/
theorem Coherent.settle_turn {l : Link} (h : l.Coherent) :
    (l.settle (FramedChannel.turn l.readBuf)).Coherent := by
  obtain ⟨frames, tail, hres, henc, htaken, htail⟩ := h.results
  unfold FramedChannel.turn
  rcases hd : Frame.decodePrefix l.readBuf with e | _ | ⟨f, n⟩
  · -- a bad header: one more error behind the others
    exact h.append_error (e := .frame e) hd
  · exact ⟨h.stream, ⟨frames, tail, hres, henc, htaken, htail⟩, fun _ => hd⟩
  · -- a frame: no receive has ended with an error yet
    obtain ⟨hf, rfl, s, hs⟩ := Frame.decodePrefix_eq_some_iff.mp hd
    obtain rfl : tail = [] := by
      rw [List.eq_nil_iff_forall_not_mem]
      intro r hr
      obtain ⟨e, -, he⟩ := htail r hr
      exact he.decodePrefix_ne_some _ hd
    refine ⟨h.stream, ⟨frames ++ [f], [], ?_, ?_, ?_, ?_⟩, ?_⟩
    · simp only [settle, hres, List.append_nil, List.map_append, List.map_cons, List.map_nil]
    · intro g hg
      rcases List.mem_append.mp hg with hg | hg
      · exact henc g hg
      · rw [List.mem_singleton.mp hg]
        exact hf
    · simp only [settle, htaken, hs, List.drop_left, List.flatMap_append, List.flatMap_singleton,
        List.append_assoc]
    · intro r hr
      cases hr
    · intro hw
      cases hw

/-- While a receive waits, none has ended with an error unless the stream has ended too. -/
theorem Coherent.tail_eq_nil {l : Link} {tail : List (Except Error Frame)}
    (hwait : Frame.decodePrefix l.readBuf = .ok none)
    (htail : ∀ r ∈ tail, ∃ e, r = .error e ∧ Ended l.readBuf l.unread l.closed e)
    (hopen : l.unread ≠ [] ∨ l.closed = false) : tail = [] := by
  rw [List.eq_nil_iff_forall_not_mem]
  intro r hr
  obtain ⟨e, -, he⟩ := htail r hr
  cases e with
  | frame e => exact absurd (Eq.trans (Eq.symm hwait) he) (by simp)
  | io kind =>
    obtain ⟨-, hclosed, hunread, -⟩ := he
    rcases hopen with ho | ho
    · exact ho hunread
    · rw [hclosed] at ho
      cases ho

/-- The chunk of a read goes from the stream to the buffer. -/
theorem Coherent.extend {l : Link} (h : l.Coherent) (hw : l.waiting = true)
    (hopen : l.unread ≠ []) (size : ℕ) :
    Coherent { l with
      taken := l.taken ++ l.chunk size
      unread := l.unread.drop (l.chunk size).length
      readBuf := l.readBuf ++ l.chunk size
      waiting := false } := by
  obtain ⟨frames, tail, hres, henc, htaken, htail⟩ := h.results
  -- bytes are still to come, so no receive has returned the end of the stream
  obtain rfl := Coherent.tail_eq_nil (h.waiting hw) htail (Or.inl hopen)
  refine ⟨?_, ⟨frames, [], hres, henc, ?_, ?_⟩, ?_⟩
  · simp only [List.append_assoc, chunk_append_drop, h.stream]
  · simp only [htaken, List.append_assoc]
  · intro r hr
    cases hr
  · intro hw'
    cases hw'

/-- The stream has ended and the buffer holds no complete frame. -/
theorem Coherent.eof {l : Link} (h : l.Coherent) (hw : l.waiting = true) (hunread : l.unread = [])
    (hclosed : l.closed = true) :
    Coherent { l with
      waiting := false
      results := l.results ++ [.error (.io .unexpectedEof)] } := by
  apply h.append_error
  exact ⟨rfl, hclosed, hunread, h.waiting hw⟩

/-- What a read does, said on the link: the chunk is buffered and the receive takes its next turn,
or it returns the end of the stream. -/
theorem step_read {l : Link} (hw : l.waiting = true) (size : ℕ) :
    l.step (.read size) =
      if l.unread ≠ [] then
        { l with
          taken := l.taken ++ l.chunk size
          unread := l.unread.drop (l.chunk size).length
          readBuf := l.readBuf ++ l.chunk size
          waiting := false }.settle (FramedChannel.turn (l.readBuf ++ l.chunk size))
      else if l.closed then
        { l with waiting := false, results := l.results ++ [.error (.io .unexpectedEof)] }
      else l := by
  by_cases hu : l.unread = []
  · have hc : l.chunk size = [] := by rw [chunk, hu, List.take_nil]
    rcases hcl : l.closed
    · simp [step, hu, hcl]
    · simp [step, hw, hu, hcl, hc, FramedChannel.resume, settle]
  · have hc : (l.chunk size).length ≠ 0 := by
      rw [ne_eq, List.length_eq_zero_iff]
      exact chunk_ne_nil hu size
    have hread : l.waiting = true ∧ (l.unread ≠ [] ∨ l.closed = true) := ⟨hw, Or.inl hu⟩
    simp only [step, if_pos hread, if_pos hu, FramedChannel.resume, if_neg hc]
    rcases FramedChannel.turn (l.readBuf ++ l.chunk size) with ⟨_ | r, b⟩ <;> rfl

/-- A read is for a receive that waits. -/
theorem step_read_idle {l : Link} (hw : l.waiting = false) (size : ℕ) :
    l.step (.read size) = l := by
  simp [step, hw]

/-- **Every action keeps the invariant.** -/
theorem Coherent.step {l : Link} (h : l.Coherent) (a : Action) : (l.step a).Coherent := by
  cases a with
  | send frame write =>
    rw [Link.step]
    split_ifs with hc
    · exact h
    · -- the stream is open, so no receive has ended for want of bytes
      obtain ⟨frames, tail, hres, henc, htaken, htail⟩ := h.results
      refine ⟨?_, ⟨frames, tail, hres, henc, htaken, ?_⟩, h.waiting⟩
      · simp only [← h.stream, List.append_assoc]
      · intro r hr
        obtain ⟨e, rfl, he⟩ := htail r hr
        refine ⟨e, rfl, ?_⟩
        cases e with
        | frame e => exact he
        | io kind => exact absurd he.2.1 hc
  | close =>
    obtain ⟨frames, tail, hres, henc, htaken, htail⟩ := h.results
    refine ⟨h.stream, ⟨frames, tail, hres, henc, htaken, ?_⟩, h.waiting⟩
    intro r hr
    obtain ⟨e, rfl, he⟩ := htail r hr
    refine ⟨e, rfl, ?_⟩
    cases e with
    | frame e => exact he
    | io kind => exact ⟨he.1, rfl, he.2.2⟩
  | recv =>
    rw [Link.step]
    split_ifs
    · exact h
    · exact h.settle_turn
  | read size =>
    rcases hw : l.waiting
    · rw [step_read_idle hw]
      exact h
    · rw [step_read hw]
      split_ifs with hu hc
      · exact (h.extend hw hu size).settle_turn
      · exact h.eof hw (not_not.mp hu) hc
      · exact h
  | readFailed kind =>
    rw [Link.step]
    split_ifs
    · exact ⟨h.stream, h.results, fun hw => by cases hw⟩
    · exact h
  | drop => exact ⟨h.stream, h.results, fun hw => by cases hw⟩

/-- **Every run keeps the invariant.** -/
theorem Coherent.run {l : Link} (h : l.Coherent) (actions : List Action) :
    (l.run actions).Coherent := by
  induction actions generalizing l with
  | nil => exact h
  | cons a actions ih => exact ih (h.step a)

theorem coherent_new : new.Coherent where
  stream := rfl
  results := ⟨[], [], rfl, by simp, rfl, by simp⟩
  waiting hw := by cases hw

theorem coherent_incoming (s : Bytes) : (incoming s).Coherent where
  stream := rfl
  results := ⟨[], [], rfl, by simp, rfl, by simp⟩
  waiting hw := by cases hw

/-! ## The reference parse -/

/-- The error that receiving a whole stream ends with. -/
def ending : Option Proto.Error → Error
  | some e => .frame e
  | none => .io .unexpectedEof

/-- The `i`th result that the parse of a whole stream calls for: its frames in order, then the first
bad header, or the end of the stream, for ever. -/
def reference (s : Bytes) (i : ℕ) : Except Error Frame :=
  nth (Frame.prefixDecoder.parse s).1 (ending (Frame.prefixDecoder.parse s).2) i

/-- The parse of what was written: the frames returned so far, then the parse of what is buffered or
unread. -/
theorem parse_frames_append {frames : List Frame} (h : ∀ f ∈ frames, f.Encodable) (t : Bytes) :
    Frame.prefixDecoder.parse (frames.flatMap Frame.bytes ++ t) =
      (frames ++ (Frame.prefixDecoder.parse t).1, (Frame.prefixDecoder.parse t).2) := by
  refine PrefixDecoder.parse_flatMap_append ?_ t
  intro f hf
  have hd := Frame.decodePrefix_bytes (h f hf) []
  rwa [List.append_nil] at hd

/-- Where the receives have ended, the parse has no frame left and ends with their error. -/
theorem Ended.parse {readBuf unread : Bytes} {closed : Bool} {e : Error}
    (h : Ended readBuf unread closed e) :
    ∃ last, Frame.prefixDecoder.parse (readBuf ++ unread) = ([], last) ∧ ending last = e := by
  cases e with
  | frame e =>
    have hd : Frame.prefixDecoder.decode readBuf = .error e := h
    exact ⟨some e, PrefixDecoder.parse_append_error hd unread, rfl⟩
  | io kind =>
    obtain ⟨rfl, -, rfl, hd⟩ := h
    refine ⟨none, ?_, rfl⟩
    rw [List.append_nil]
    exact PrefixDecoder.parse_none hd

/-- **Every completed receive gives the result that the reference parse calls for.** -/
theorem Coherent.result_eq {l : Link} (h : l.Coherent) {i : ℕ} {r : Except Error Frame}
    (hr : l.results[i]? = some r) : r = reference l.written i := by
  obtain ⟨frames, tail, hres, henc, htaken, htail⟩ := h.results
  have hparse := parse_frames_append henc (l.readBuf ++ l.unread)
  rw [← List.append_assoc, ← htaken, h.stream] at hparse
  rw [reference, hparse]
  rw [hres] at hr
  rcases Nat.lt_or_ge i frames.length with hi | hi
  · -- one of the frames
    rw [List.getElem?_append_left (by rwa [List.length_map]), List.getElem?_map,
      List.getElem?_eq_getElem hi] at hr
    rw [nth, List.getElem?_append_left hi, List.getElem?_eq_getElem hi]
    exact (Option.some.inj hr).symm
  · -- behind the frames: the error that the receives have ended with
    rw [List.getElem?_append_right (by rwa [List.length_map])] at hr
    obtain ⟨e, rfl, he⟩ := htail r (List.mem_of_getElem? hr)
    obtain ⟨last, hlast, rfl⟩ := he.parse
    rw [hlast, List.append_nil, nth, List.getElem?_eq_none hi]

/-! ## Receives complete -/

/-- The stream holds the next result: a frame or a bad header is there, or its end. -/
def Due (l : Link) : Prop :=
  l.closed = true ∨ Frame.prefixDecoder.parse (l.readBuf ++ l.unread) ≠ ([], none)

theorem run_reads_idle {l : Link} (hw : l.waiting = false) (sizes : List ℕ) :
    l.run (sizes.map .read) = l := by
  induction sizes with
  | nil => rfl
  | cons size sizes ih =>
    rw [List.map_cons, run_cons, step_read_idle hw, ih]

@[simp] theorem settle_written (l : Link) (p : Option (Except Error Frame) × Bytes) :
    (l.settle p).written = l.written := by
  rcases p with ⟨_ | r, b⟩ <;> rfl

theorem run_reads_written (l : Link) (sizes : List ℕ) :
    (l.run (sizes.map .read)).written = l.written := by
  induction sizes generalizing l with
  | nil => rfl
  | cons size sizes ih =>
    rw [List.map_cons, run_cons, ih, Link.step]
    split_ifs
    · exact settle_written _ _
    · rfl

/-- A waiting receive completes with the next result, at the latest when all that is unread has been
read. The induction is on the reads: one that does not complete the receive takes at least one
byte off the stream. -/
theorem Coherent.reads_complete {l : Link} (h : l.Coherent) (hw : l.waiting = true) (hdue : l.Due)
    {sizes : List ℕ} (hs : l.unread.length < sizes.length) :
    ∃ r, (l.run (sizes.map .read)).results = l.results ++ [r] := by
  induction sizes generalizing l with
  | nil => exact absurd hs (Nat.not_lt_zero _)
  | cons size sizes ih =>
    have hstep := step_read hw size
    have hcoh := h.step (.read size)
    rw [List.map_cons, run_cons]
    by_cases hu : l.unread = []
    · -- nothing is buffered that parses, so the stream is closed
      have hclosed : l.closed = true := by
        refine hdue.resolve_right (not_not.mpr ?_)
        rw [hu, List.append_nil]
        exact PrefixDecoder.parse_none (h.waiting hw)
      rw [hstep, if_neg (not_not.mpr hu), if_pos hclosed]
      exact ⟨_, congrArg Link.results (run_reads_idle rfl sizes)⟩
    · rw [if_pos hu] at hstep
      rw [hstep] at hcoh ⊢
      rcases ht : FramedChannel.turn (l.readBuf ++ l.chunk size) with ⟨_ | r, b⟩
      · -- still incomplete: the rest of the reads see a shorter stream
        obtain rfl := FramedChannel.turn_none ht
        rw [ht] at hcoh
        have hlen : (l.unread.drop (l.chunk size).length).length < l.unread.length := by
          have hc := List.length_pos_of_ne_nil (chunk_ne_nil hu size)
          have hp := List.length_pos_of_ne_nil hu
          rw [List.length_drop]
          omega
        refine ih hcoh rfl ?_ (by simp only [settle, List.length_cons] at hs ⊢; omega)
        simpa only [Due, settle, List.append_assoc, chunk_append_drop] using hdue
      · exact ⟨r, congrArg Link.results (run_reads_idle rfl sizes)⟩

/-- **The next receive gives the next result**, once enough of the stream has been read for it. -/
theorem Coherent.recv_due {l : Link} (h : l.Coherent) (hdue : l.Due) {sizes : List ℕ}
    (hs : l.unread.length < sizes.length) :
    (l.run (.recv :: sizes.map .read)).results =
      l.results ++ [reference l.written l.results.length] := by
  have hcoh := h.run (.recv :: sizes.map .read)
  have hwritten : (l.run (.recv :: sizes.map .read)).written = l.written := by
    rw [run_cons, run_reads_written, Link.step]
    split_ifs
    · rfl
    · exact settle_written _ _
  -- the receive completes, at its first turn or in a read
  have hex : ∃ r, (l.run (.recv :: sizes.map .read)).results = l.results ++ [r] := by
    have hrecv := h.step .recv
    rw [run_cons]
    rcases hw : l.waiting
    · simp only [Link.step, hw] at hrecv ⊢
      rcases ht : FramedChannel.turn l.readBuf with ⟨_ | r, b⟩
      · obtain rfl := FramedChannel.turn_none ht
        rw [ht] at hrecv
        exact hrecv.reads_complete rfl hdue hs
      · exact ⟨r, congrArg Link.results (run_reads_idle rfl sizes)⟩
    · rw [show l.step .recv = l by simp [Link.step, hw]]
      exact h.reads_complete hw hdue hs
  obtain ⟨r, hr⟩ := hex
  -- its result stands behind those before it
  have hget : (l.run (.recv :: sizes.map .read)).results[l.results.length]? = some r := by
    rw [hr, List.getElem?_concat_length]
  rw [hr, hcoh.result_eq hget, hwritten]

/-! ## Codec errors are final -/

theorem Coherent.decodePrefix_of_mem {l : Link} (h : l.Coherent) {e : Proto.Error}
    (he : .error (.frame e) ∈ l.results) : Frame.decodePrefix l.readBuf = .error e := by
  obtain ⟨frames, tail, hres, -, -, htail⟩ := h.results
  rw [hres] at he
  rcases List.mem_append.mp he with he | he
  · obtain ⟨f, -, hf⟩ := List.mem_map.mp he
    cases hf
  · obtain ⟨e', he', hend⟩ := htail _ he
    rw [← Except.error.inj he'] at hend
    exact hend

/-- With a bad header in the buffer, an action leaves the buffer and reads nothing, and a receive
gives the error of the header. -/
theorem Coherent.step_bad_header {l : Link} (h : l.Coherent) {e : Proto.Error}
    (hd : Frame.decodePrefix l.readBuf = .error e) (a : Action) :
    (l.step a).readBuf = l.readBuf ∧ (l.step a).taken = l.taken ∧
      ∃ n, (l.step a).results = l.results ++ List.replicate n (.error (.frame e)) := by
  -- a receive waits only where the buffer holds no verdict
  have hw : l.waiting = false := by
    rcases hw : l.waiting
    · rfl
    · rw [h.waiting hw] at hd
      cases hd
  have hsame : ∃ n, l.results = l.results ++ List.replicate n (.error (.frame e)) :=
    ⟨0, (List.append_nil _).symm⟩
  cases a with
  | send frame write =>
    rw [Link.step]
    split_ifs
    · exact ⟨rfl, rfl, hsame⟩
    · exact ⟨rfl, rfl, hsame⟩
  | recv =>
    simp only [Link.step, hw, FramedChannel.turn, hd]
    exact ⟨rfl, rfl, 1, rfl⟩
  | read size =>
    rw [step_read_idle hw]
    exact ⟨rfl, rfl, hsame⟩
  | readFailed kind =>
    rw [show l.step (.readFailed kind) = l by simp [Link.step, hw]]
    exact ⟨rfl, rfl, hsame⟩
  | close | drop => exact ⟨rfl, rfl, hsame⟩

theorem Coherent.run_bad_header {l : Link} (h : l.Coherent) {e : Proto.Error}
    (hd : Frame.decodePrefix l.readBuf = .error e) (actions : List Action) :
    (l.run actions).readBuf = l.readBuf ∧ (l.run actions).taken = l.taken ∧
      ∃ n, (l.run actions).results = l.results ++ List.replicate n (.error (.frame e)) := by
  induction actions generalizing l with
  | nil => exact ⟨rfl, rfl, 0, (List.append_nil _).symm⟩
  | cons a actions ih =>
    obtain ⟨hbuf, htaken, n, hres⟩ := h.step_bad_header hd a
    obtain ⟨hbuf', htaken', m, hres'⟩ := ih (h.step a) (by rw [hbuf]; exact hd)
    refine ⟨hbuf'.trans hbuf, htaken'.trans htaken, n + m, ?_⟩
    rw [run_cons, hres', hres, List.append_assoc, ← List.replicate_add]

/-! ## Reassembly -/

/-- The frames that the receives returned. -/
def frames (l : Link) : List Frame := l.results.filterMap Except.toOption

theorem Coherent.frames_spec {l : Link} (h : l.Coherent) :
    (∀ f ∈ l.frames, f.encode = .ok f.bytes) ∧
      l.frames.flatMap Frame.bytes ++ l.readBuf = l.taken := by
  obtain ⟨frames, tail, hres, henc, htaken, htail⟩ := h.results
  have hframes : l.frames = frames := by
    rw [Link.frames, hres, List.filterMap_append, List.filterMap_map]
    -- errors are not frames
    have htail' : tail.filterMap Except.toOption = [] := by
      rw [List.filterMap_eq_nil_iff]
      intro r hr
      obtain ⟨e, rfl, -⟩ := htail r hr
      rfl
    rw [htail', List.append_nil]
    exact List.filterMap_some
  rw [hframes]
  exact ⟨fun f hf => Frame.encode_eq_ok_iff.mpr ⟨henc f hf, rfl⟩, htaken.symm⟩

/-- The actions of the receiving end. -/
def receives : Action → Bool
  | .send _ _ => false
  | .close => false
  | _ => true

/-- The receiving end writes nothing, and does not close the stream. -/
theorem step_receives (l : Link) {a : Action} (h : receives a = true) :
    (l.step a).written = l.written ∧ (l.step a).closed = l.closed := by
  have hsettle : ∀ (l : Link) p, (l.settle p).closed = l.closed := by
    rintro l ⟨_ | r, b⟩ <;> rfl
  cases a with
  | send frame write => cases h
  | close => cases h
  | recv =>
    rw [Link.step]
    split_ifs
    · exact ⟨rfl, rfl⟩
    · exact ⟨settle_written _ _, hsettle _ _⟩
  | read size =>
    rw [Link.step]
    split_ifs
    · exact ⟨settle_written _ _, hsettle _ _⟩
    · exact ⟨rfl, rfl⟩
  | readFailed kind =>
    rw [Link.step]
    split_ifs
    · exact ⟨rfl, rfl⟩
    · exact ⟨rfl, rfl⟩
  | drop => exact ⟨rfl, rfl⟩

/-- Nothing is written to a closed stream. -/
theorem step_closed {l : Link} (h : l.closed = true) (a : Action) :
    (l.step a).closed = true ∧ (l.step a).written = l.written := by
  rcases ha : receives a
  · cases a with
    | send frame write => simp [Link.step, h]
    | close => exact ⟨rfl, rfl⟩
    | recv | read size | readFailed kind | drop => cases ha
  · obtain ⟨hwritten, hclosed⟩ := step_receives l ha
    exact ⟨hclosed.trans h, hwritten⟩

theorem run_closed {l : Link} (h : l.closed = true) (actions : List Action) :
    (l.run actions).closed = true ∧ (l.run actions).written = l.written := by
  induction actions generalizing l with
  | nil => exact ⟨h, rfl⟩
  | cons a actions ih =>
    obtain ⟨hc, hw⟩ := step_closed h a
    obtain ⟨hc', hw'⟩ := ih hc
    exact ⟨hc', hw'.trans hw⟩

/-- **Reassembly.** Whatever the stream holds, however reads cut it up, and whichever receives are
dropped or fail in their read: the completed receives give the results of the reference parse, and
each next one gives the next result once it is read for. A codec error is given for good, and
nothing is read after it. At every point the frames returned, then the buffer, are the bytes read
so far. -/
theorem recv_reassembles (s : Bytes) (actions : List Action) :
    (∀ i r, ((incoming s).run actions).results[i]? = some r → r = reference s i) ∧
      (∀ sizes : List ℕ, s.length < sizes.length →
        (((incoming s).run actions).run (.recv :: sizes.map .read)).results =
          ((incoming s).run actions).results ++
            [reference s ((incoming s).run actions).results.length]) ∧
      (∀ e, .error (.frame e) ∈ ((incoming s).run actions).results → ∀ later,
        (((incoming s).run actions).run later).readBuf = ((incoming s).run actions).readBuf ∧
          (((incoming s).run actions).run later).taken = ((incoming s).run actions).taken ∧
          ∃ n, (((incoming s).run actions).run later).results =
            ((incoming s).run actions).results ++ List.replicate n (.error (.frame e))) ∧
      (∀ f ∈ ((incoming s).run actions).frames, f.encode = .ok f.bytes) ∧
      ((incoming s).run actions).frames.flatMap Frame.bytes ++ ((incoming s).run actions).readBuf =
        ((incoming s).run actions).taken ∧
      ((incoming s).run actions).taken ++ ((incoming s).run actions).unread = s := by
  have h := (coherent_incoming s).run actions
  obtain ⟨hclosed, hwritten⟩ := run_closed (show (incoming s).closed = true from rfl) actions
  have hs : ((incoming s).run actions).written = s := hwritten
  refine ⟨?_, ?_, ?_, h.frames_spec.1, h.frames_spec.2, h.stream.trans hs⟩
  · intro i r hr
    rw [h.result_eq hr, hs]
  · -- the stream is closed, so a result is due; what is unread is a part of it
    intro sizes hsizes
    have hlen : ((incoming s).run actions).unread.length < sizes.length := by
      have hstream := congrArg List.length (h.stream.trans hs)
      rw [List.length_append] at hstream
      omega
    rw [h.recv_due (Or.inl hclosed) hlen, hs]
  · intro e he later
    exact h.run_bad_header (h.decodePrefix_of_mem he) later

/-! ## What is written -/

/-- The sends on an open stream, in order: each with its frame and the way its write ends. -/
def writes : List Action → List (Frame × Write)
  | [] => []
  | .close :: _ => []
  | .send frame write :: actions => (frame, write) :: writes actions
  | .recv :: actions => writes actions
  | .read _ :: actions => writes actions
  | .readFailed _ :: actions => writes actions
  | .drop :: actions => writes actions

/-- The bytes that sends put on the stream. -/
def writtenBy (sends : List (Frame × Write)) : Bytes :=
  sends.flatMap fun s => (FramedChannel.send s.1 s.2).2

theorem writtenBy_cons (f : Frame) (w : Write) (sends : List (Frame × Write)) :
    writtenBy ((f, w) :: sends) = (FramedChannel.send f w).2 ++ writtenBy sends :=
  List.flatMap_cons

theorem writes_receives {a : Action} (h : receives a = true) (actions : List Action) :
    writes (a :: actions) = writes actions := by
  cases a with
  | send frame write => cases h
  | close => cases h
  | recv | read size | readFailed kind | drop => rfl

theorem send_mem_of_mem_writes {actions : List Action} {f : Frame} {w : Write}
    (h : (f, w) ∈ writes actions) : .send f w ∈ actions := by
  induction actions with
  | nil => cases h
  | cons a actions ih =>
    rcases ha : receives a
    · cases a with
      | send frame write =>
        rcases List.mem_cons.mp h with h | h
        · cases h
          exact List.mem_cons_self
        · exact List.mem_cons_of_mem _ (ih h)
      | close => cases h
      | recv | read size | readFailed kind | drop => cases ha
    · rw [writes_receives ha] at h
      exact List.mem_cons_of_mem a (ih h)

/-- A send writes to an open stream, and leaves it open. -/
theorem step_send {l : Link} (h : l.closed = false) (f : Frame) (w : Write) :
    (l.step (.send f w)).written = l.written ++ (FramedChannel.send f w).2 ∧
      (l.step (.send f w)).closed = false := by
  rw [Link.step, if_neg (by rw [h]; exact Bool.false_ne_true)]
  exact ⟨rfl, h⟩

/-- **What a run writes** is what its sends put on the stream, up to the close. -/
theorem run_written_eq {l : Link} (h : l.closed = false) (actions : List Action) :
    (l.run actions).written = l.written ++ writtenBy (writes actions) := by
  induction actions generalizing l with
  | nil => exact (List.append_nil _).symm
  | cons a actions ih =>
    rcases ha : receives a
    · cases a with
      | send frame write =>
        obtain ⟨hwritten, hopen⟩ := step_send h frame write
        rw [run_cons, ih hopen, hwritten, writes, writtenBy_cons, List.append_assoc]
      | close =>
        -- nothing is written from here on
        rw [run_cons, (run_closed rfl actions).2]
        exact (List.append_nil _).symm
      | recv | read size | readFailed kind | drop => cases ha
    · obtain ⟨hwritten, hclosed⟩ := step_receives l ha
      rw [run_cons, ih (hclosed.trans h), hwritten, writes_receives ha]

/-! ## Delivery -/

/-- The frames passed to `send`, in order, while the stream is open. -/
def sends : List Action → List Frame
  | [] => []
  | .close :: _ => []
  | .send frame _ :: actions => frame :: sends actions
  | .recv :: actions => sends actions
  | .read _ :: actions => sends actions
  | .readFailed _ :: actions => sends actions
  | .drop :: actions => sends actions

/-- The frames of those that have an encoding. -/
def deliverable (actions : List Action) : List Frame :=
  (sends actions).filter fun f => decide f.Encodable

theorem encodable_of_mem_deliverable {actions : List Action} {f : Frame}
    (h : f ∈ deliverable actions) : f.Encodable :=
  of_decide_eq_true (List.mem_filter.mp h).2

theorem sends_eq (actions : List Action) : sends actions = (writes actions).map Prod.fst := by
  induction actions with
  | nil => rfl
  | cons a actions ih =>
    cases a with
    | send frame write => exact congrArg (frame :: ·) ih
    | close => rfl
    | recv | read size | readFailed kind | drop => exact ih

/-- A send that fails in `Frame::encode` puts no byte on the stream. -/
theorem send_encode_error {f : Frame} {e : Proto.Error} (h : f.encode = .error e) (write : Write) :
    FramedChannel.send f write = (some (.error (.frame e)), []) := by
  unfold FramedChannel.send
  rw [h]

/-- Sends whose writes complete put the encodings of their frames on the stream. -/
theorem writtenBy_completed {sends : List (Frame × Write)} (h : ∀ s ∈ sends, s.2 = .completed) :
    writtenBy sends =
      ((sends.map Prod.fst).filter fun f => decide f.Encodable).flatMap Frame.bytes := by
  induction sends with
  | nil => rfl
  | cons s sends ih =>
    obtain ⟨f, w⟩ := s
    obtain ⟨hw, hrest⟩ := List.forall_mem_cons.mp h
    obtain rfl : w = .completed := hw
    rw [writtenBy_cons, FramedChannel.send_bytes, Write.count, List.take_length, ih hrest,
      List.map_cons, List.filter_cons]
    by_cases hf : f.Encodable
    · rw [if_pos hf, if_pos (decide_eq_true hf), List.flatMap_cons]
    · rw [if_neg hf, if_neg (by rwa [decide_eq_true_iff]), List.nil_append]

/-- With every write completed, what is written is the encodings of the frames sent. -/
theorem run_written {l : Link} (h : l.closed = false) {actions : List Action}
    (hw : ∀ f w, .send f w ∈ actions → w = .completed) :
    (l.run actions).written = l.written ++ (deliverable actions).flatMap Frame.bytes := by
  have hcompleted : ∀ s ∈ writes actions, s.2 = .completed := fun s hs =>
    hw s.1 s.2 (send_mem_of_mem_writes hs)
  rw [run_written_eq h, writtenBy_completed hcompleted, deliverable, sends_eq]

/-- The stream is then a concatenation of encodings, with nothing behind them. -/
theorem parse_written {actions : List Action}
    (hw : ∀ f w, .send f w ∈ actions → w = .completed) :
    Frame.prefixDecoder.parse (new.run actions).written = (deliverable actions, none) := by
  have hwritten : (new.run actions).written = (deliverable actions).flatMap Frame.bytes ++ [] := by
    rw [run_written rfl hw, List.append_nil]
    rfl
  have hnil : Frame.prefixDecoder.decode [] = .ok none := Frame.decodePrefix_nil
  rw [hwritten, parse_frames_append fun f => encodable_of_mem_deliverable,
    PrefixDecoder.parse_none hnil, List.append_nil]

/-- Frames that are written and not returned yet are due. -/
theorem Coherent.due_of_lt {l : Link} (h : l.Coherent)
    (hlt : l.results.length < (Frame.prefixDecoder.parse l.written).1.length) : l.Due := by
  apply Or.inr
  intro hp
  obtain ⟨frames, tail, hres, henc, htaken, -⟩ := h.results
  have hparse := parse_frames_append henc (l.readBuf ++ l.unread)
  rw [← List.append_assoc, ← htaken, h.stream, hp] at hparse
  rw [hparse, hres, List.append_nil, List.length_append, List.length_map] at hlt
  exact absurd hlt (Nat.not_lt.mpr (Nat.le_add_right _ _))

/-- **Delivery.** Where every write completes, the receives of one end give the frames that were
passed to `send` at the other and have an encoding, in order, and then the end of the stream once
it is closed: nothing else, and each next one as soon as it is written and read for. A send that
fails in `Frame::encode` changes nothing but its own result. -/
theorem channel_delivers (actions : List Action)
    (hw : ∀ f w, .send f w ∈ actions → w = .completed) :
    (∀ i r, (new.run actions).results[i]? = some r →
        r = nth (deliverable actions) (.io .unexpectedEof) i) ∧
      (∀ sizes : List ℕ, (new.run actions).unread.length < sizes.length →
        (new.run actions).results.length < (deliverable actions).length ∨
          (new.run actions).closed = true →
        ((new.run actions).run (.recv :: sizes.map .read)).results =
          (new.run actions).results ++
            [nth (deliverable actions) (.io .unexpectedEof) (new.run actions).results.length]) ∧
      ∀ f w e, f.encode = .error e →
        (new.run actions).step (.send f w) =
          if (new.run actions).closed then new.run actions
          else { new.run actions with
            sendResults := (new.run actions).sendResults ++ [.error (.frame e)] } := by
  have h := coherent_new.run actions
  have hparse := parse_written hw
  have hreference : ∀ i, reference (new.run actions).written i =
      nth (deliverable actions) (.io .unexpectedEof) i := by
    intro i
    rw [reference, hparse, ending]
  refine ⟨?_, ?_, ?_⟩
  · intro i r hr
    rw [h.result_eq hr, hreference]
  · intro sizes hsizes hdue
    have hdue : (new.run actions).Due := by
      rcases hdue with hlt | hclosed
      · apply h.due_of_lt
        rw [hparse]
        exact hlt
      · exact Or.inl hclosed
    rw [h.recv_due hdue hsizes, hreference]
  · -- no byte is written, and the sending end keeps nothing else
    intro f w e he
    rw [Link.step, send_encode_error he]
    split_ifs
    · rfl
    · simp

/-- Two frames are sent, and one between them that has a version of its own; a receive reads all
that is there. -/
def sharedChunk : List Action :=
  [.send ⟨.v1, 1, [7]⟩ .completed, .send ⟨⟨2⟩, 1, []⟩ .completed, .send ⟨.v1, 2, []⟩ .completed,
    .recv, .read 4096]

theorem channel_delivers_sharedChunk :
    ((new.run sharedChunk).run [.recv, .read 4096]).results =
      [.ok ⟨.v1, 1, [7]⟩, .ok ⟨.v1, 2, []⟩] := by
  have hw : ∀ f w, .send f w ∈ sharedChunk → w = .completed := by
    intro f w hmem
    simp only [sharedChunk, List.mem_cons, Action.send.injEq, reduceCtorEq, List.not_mem_nil,
      or_false] at hmem
    rcases hmem with ⟨-, rfl⟩ | ⟨-, rfl⟩ | ⟨-, rfl⟩ <;> rfl
  exact (channel_delivers sharedChunk hw).2.1 [4096] (by decide) (Or.inl (by decide))

end Link

end Meshwarden.Transport
