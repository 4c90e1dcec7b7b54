import Meshwarden.Transport.Channel

/-!
# Interrupted sends

A send whose write fails, or whose future is dropped, may stop inside its frame. The channel keeps
no record of that, and the next send writes behind the part that is there. The other end cannot tell
the two apart: it takes the bytes of the later frames for the rest of the first one. As long as
nothing is written behind such a part, it is never returned.

## Main definitions

* `Writes`, `Tears`: sends that put bytes on the stream, and those that stop inside their frame
* `WholeOrLast`: nothing is written behind a part of a frame
* `spliced`: a frame whose payload is cut and goes on with other bytes

## Main results

* `writtenBy_wholeOrLast`: the stream is then whole frames and at most a part of one more
* `Link.returned_was_sent`: what is received was sent
* `Link.torn_frame_returned`, `Link.torn_header_returned`: what is received where the sends go on
  behind a part of a payload, or of a header
-/

namespace Meshwarden.Transport

open Codec Proto

/-! ## Parts of frames -/

/-- The send puts bytes on the stream. -/
def Writes (f : Frame) (w : Write) : Prop := f.Encodable ∧ 0 < w.count f.bytes.length

/-- The send stops inside its frame, with some bytes of it on the stream. -/
def Tears (f : Frame) (w : Write) : Prop := Writes f w ∧ w.count f.bytes.length < f.bytes.length

instance (f : Frame) (w : Write) : Decidable (Writes f w) :=
  inferInstanceAs (Decidable (f.Encodable ∧ 0 < w.count f.bytes.length))

instance (f : Frame) (w : Write) : Decidable (Tears f w) :=
  inferInstanceAs (Decidable (Writes f w ∧ w.count f.bytes.length < f.bytes.length))

/-- Every send that puts bytes on the stream puts its frame there whole, or is the last one that
does. -/
def WholeOrLast (sends : List (Frame × Write)) : Prop :=
  sends.Pairwise fun s t => Tears s.1 s.2 → ¬ Writes t.1 t.2

instance (sends : List (Frame × Write)) : Decidable (WholeOrLast sends) :=
  inferInstanceAs (Decidable (sends.Pairwise fun s t => Tears s.1 s.2 → ¬ Writes t.1 t.2))

theorem Write.count_le (w : Write) (len : ℕ) : w.count len ≤ len := by
  cases w with
  | completed => exact le_rfl
  | failed count kind => exact Nat.min_le_right count len
  | dropped count => exact Nat.min_le_right count len

theorem send_bytes_of_not_writes {f : Frame} {w : Write} (h : ¬ Writes f w) :
    (FramedChannel.send f w).2 = [] := by
  rw [FramedChannel.send_bytes]
  split_ifs with hf
  · have hcount : w.count f.bytes.length = 0 := Nat.eq_zero_of_not_pos fun hpos => h ⟨hf, hpos⟩
    rw [hcount, List.take_zero]
  · rfl

namespace Link

theorem writtenBy_of_not_writes {sends : List (Frame × Write)}
    (h : ∀ s ∈ sends, ¬ Writes s.1 s.2) : writtenBy sends = [] := by
  apply List.flatMap_eq_nil_iff.mpr
  intro s hs
  exact send_bytes_of_not_writes (h s hs)

/-- **What is written**: whole frames that were sent, and at most a part of one more, which gives no
verdict. -/
theorem writtenBy_wholeOrLast {sends : List (Frame × Write)} (h : WholeOrLast sends) :
    ∃ (frames : List Frame) (tail : Bytes),
      writtenBy sends = frames.flatMap Frame.bytes ++ tail ∧
      (∀ f ∈ frames, f.Encodable ∧ ∃ w, (f, w) ∈ sends) ∧
      Frame.decodePrefix tail = .ok none := by
  induction sends with
  | nil => exact ⟨[], [], rfl, by simp, Frame.decodePrefix_nil⟩
  | cons s sends ih =>
    obtain ⟨f, w⟩ := s
    obtain ⟨htear, hrest⟩ := List.pairwise_cons.mp h
    obtain ⟨frames, tail, hwritten, hsent, htail⟩ := ih hrest
    have hsent' : ∀ g ∈ frames, g.Encodable ∧ ∃ v, (g, v) ∈ (f, w) :: sends := by
      intro g hg
      obtain ⟨henc, v, hv⟩ := hsent g hg
      exact ⟨henc, v, List.mem_cons_of_mem _ hv⟩
    rw [writtenBy_cons]
    by_cases hw : Writes f w
    · rw [FramedChannel.send_bytes, if_pos hw.1]
      rcases Nat.lt_or_eq_of_le (w.count_le f.bytes.length) with hlt | heq
      · -- a part of the frame, and nothing behind it
        refine ⟨[], f.bytes.take (w.count f.bytes.length), ?_, by simp,
          Frame.decodePrefix_take hw.1 hlt⟩
        rw [writtenBy_of_not_writes fun t ht => htear t ht ⟨hw, hlt⟩, List.append_nil]
        rfl
      · -- the whole frame, in front of those behind it
        refine ⟨f :: frames, tail, ?_, ?_, htail⟩
        · rw [heq, List.take_length, hwritten, List.flatMap_cons, List.append_assoc]
        · exact List.forall_mem_cons.mpr ⟨⟨hw.1, w, List.mem_cons_self⟩, hsent'⟩
    · rw [send_bytes_of_not_writes hw]
      exact ⟨frames, tail, hwritten, hsent', htail⟩

/-! ## What is received -/

theorem writes_append_sublist (before later : List Action) :
    List.Sublist (writes before) (writes (before ++ later)) := by
  induction before with
  | nil => exact List.nil_sublist _
  | cons a before ih =>
    cases a with
    | send frame write => exact ih.cons_cons (frame, write)
    | close => exact List.nil_sublist _
    | recv | read size | readFailed kind | drop => exact ih

/-- A frame that a receive returned is one that the parse of the stream finds. -/
theorem Coherent.mem_parse_of_returned {l : Link} (h : l.Coherent) {f : Frame}
    (hf : .ok f ∈ l.results) : f ∈ (Frame.prefixDecoder.parse l.written).1 := by
  obtain ⟨i, hi⟩ := List.mem_iff_getElem?.mp hf
  exact mem_of_nth_eq_ok (h.result_eq hi).symm

/-- **What is received was sent**, in every state of a run in which no send writes behind a part of
a frame. -/
theorem returned_was_sent (actions : List Action) (h : WholeOrLast (writes actions))
    (before : List Action) (hbefore : before <+: actions) (f : Frame)
    (hf : .ok f ∈ (new.run before).results) : ∃ w, .send f w ∈ before := by
  obtain ⟨later, rfl⟩ := hbefore
  have hwhole : WholeOrLast (writes before) := h.sublist (writes_append_sublist before later)
  obtain ⟨frames, tail, hwritten, hsent, htail⟩ := writtenBy_wholeOrLast hwhole
  -- the frames that the stream holds are those sent whole
  have hmem := (coherent_new.run before).mem_parse_of_returned hf
  have hstream : (new.run before).written = frames.flatMap Frame.bytes ++ tail :=
    (run_written_eq rfl before).trans hwritten
  rw [hstream, parse_frames_append fun f hf => (hsent f hf).1, PrefixDecoder.parse_none htail,
    List.append_nil] at hmem
  obtain ⟨w, hw⟩ := (hsent f hmem).2
  exact ⟨w, send_mem_of_mem_writes hw⟩

/-- A frame, and behind it the first byte of the payload of another. -/
theorem returned_was_sent_first :
    ∃ w, Action.send ⟨.v1, 1, [7]⟩ w ∈ [Action.send ⟨.v1, 1, [7]⟩ .completed,
      .send ⟨.v1, 2, [0xaa, 0xbb]⟩ (.failed 9 (.other 0)), .recv, .read 4096] := by
  refine returned_was_sent _ (by decide) _ (List.prefix_refl _) ⟨.v1, 1, [7]⟩ ?_
  have hresults : (new.run [.send ⟨.v1, 1, [7]⟩ .completed,
      .send ⟨.v1, 2, [0xaa, 0xbb]⟩ (.failed 9 (.other 0)), .recv, .read 4096]).results =
        [.ok ⟨.v1, 1, [7]⟩] := rfl
  rw [hresults]
  exact List.mem_cons_self

/-- A send is dropped behind the first byte of its payload, and the next one goes on. -/
def tornRun : List Action :=
  [.send ⟨.v1, 2, [0xaa, 0xbb]⟩ (.dropped 9), .send ⟨.v1, 1, [7]⟩ .completed, .recv, .read 4096]

/-- The frame that is received was never sent. -/
theorem tornRun_returned :
    .ok ⟨.v1, 2, [0xaa, 0x00]⟩ ∈ (new.run tornRun).results ∧
      ∀ w, .send ⟨.v1, 2, [0xaa, 0x00]⟩ w ∉ tornRun := by
  constructor
  · have hresults : (new.run tornRun).results = [.ok ⟨.v1, 2, [0xaa, 0x00]⟩] := rfl
    rw [hresults]
    exact List.mem_cons_self
  · intro w hw
    simp [tornRun] at hw

/-! ## Sends that go on behind a part of a frame -/

/-- A frame of which `k` bytes are followed by `t`: its header, what there is of its payload, and
the first bytes of `t` for the rest. -/
def spliced (f : Frame) (k : ℕ) (t : Bytes) : Frame :=
  { f with payload := f.payload.take (k - headerLen) ++ t.take (f.bytes.length - k) }

theorem length_payload_spliced {f : Frame} {k : ℕ} (hk : headerLen ≤ k) (hlt : k < f.bytes.length)
    {t : Bytes} (ht : f.bytes.length - k ≤ t.length) :
    (spliced f k t).payload.length = f.payload.length := by
  have hlen := f.length_bytes
  simp only [spliced, List.length_append, List.length_take]
  omega

/-- The header is that of the frame, so what is missing is taken from `t`. -/
theorem take_bytes_append {f : Frame} {k : ℕ} (hk : headerLen ≤ k) (hlt : k < f.bytes.length)
    {t : Bytes} (ht : f.bytes.length - k ≤ t.length) :
    f.bytes.take k ++ t = (spliced f k t).bytes ++ t.drop (f.bytes.length - k) := by
  have hhead : (u16ToBeBytes f.version.major ++ u16ToBeBytes f.messageType ++
      u32ToBeBytes (UInt32.ofNat f.payload.length)).length = headerLen := by
    simp only [List.length_append, length_u16ToBeBytes, length_u32ToBeBytes, headerLen]
  have htake : f.bytes.take k = u16ToBeBytes f.version.major ++ u16ToBeBytes f.messageType ++
      u32ToBeBytes (UInt32.ofNat f.payload.length) ++ f.payload.take (k - headerLen) := by
    rw [Frame.bytes, List.take_append, hhead, List.take_of_length_le (hhead.trans_le hk)]
  have hsplit : t = t.take (f.bytes.length - k) ++ t.drop (f.bytes.length - k) :=
    (List.take_append_drop _ t).symm
  rw [htake, Frame.bytes, length_payload_spliced hk hlt ht]
  conv_lhs => rw [hsplit]
  simp only [spliced, List.append_assoc]

theorem encodable_spliced {f : Frame} (hf : f.Encodable) {k : ℕ} (hk : headerLen ≤ k)
    (hlt : k < f.bytes.length) {t : Bytes} (ht : f.bytes.length - k ≤ t.length) :
    (spliced f k t).Encodable := by
  rw [Frame.Encodable, length_payload_spliced hk hlt ht]
  exact hf

section Torn

variable {before later : List Action} {f : Frame} {w : Write}

/-- **What is received behind a part of a frame**, wherever it is cut: the receive behind those of
the frames before it gives the first result that the part and what is written behind it call for. -/
theorem torn_result (hbefore : ∀ g v, .send g v ∈ before → v = .completed)
    (hopen : (new.run before).closed = false) (hf : f.Encodable) {r : Except Error Frame}
    (hr : (new.run (before ++ .send f w :: later)).results[(deliverable before).length]? = some r) :
    r = reference (f.bytes.take (w.count f.bytes.length) ++ writtenBy (writes later)) 0 := by
  -- the stream: the frames before, then the part and what is behind it
  have hwritten : (new.run (before ++ .send f w :: later)).written =
      (deliverable before).flatMap Frame.bytes ++
        (f.bytes.take (w.count f.bytes.length) ++ writtenBy (writes later)) := by
    obtain ⟨hstep, hopen'⟩ := step_send hopen f w
    rw [run_append, run_cons, run_written_eq hopen', hstep, run_written rfl hbefore,
      FramedChannel.send_bytes, if_pos hf, List.append_assoc]
    rfl
  rw [(coherent_new.run _).result_eq hr, reference, hwritten,
    parse_frames_append fun g => encodable_of_mem_deliverable, nth,
    List.getElem?_append_right le_rfl, Nat.sub_self]
  rfl

/-- **A torn frame is completed by what is sent later**: where a send stops inside its payload, and
as many bytes as are missing are written behind it, the receive behind those before it returns the
spliced frame. -/
theorem torn_frame_returned (hbefore : ∀ g v, .send g v ∈ before → v = .completed)
    (hopen : (new.run before).closed = false) (hf : f.Encodable)
    (hk : headerLen ≤ w.count f.bytes.length) (hlt : w.count f.bytes.length < f.bytes.length)
    (hlater : f.bytes.length - w.count f.bytes.length ≤ (writtenBy (writes later)).length)
    {r : Except Error Frame}
    (hr : (new.run (before ++ .send f w :: later)).results[(deliverable before).length]? = some r) :
    r = .ok (spliced f (w.count f.bytes.length) (writtenBy (writes later))) := by
  have hspliced := parse_frames_append
    (List.forall_mem_singleton.mpr (encodable_spliced hf hk hlt hlater))
    ((writtenBy (writes later)).drop (f.bytes.length - w.count f.bytes.length))
  rw [List.flatMap_singleton] at hspliced
  rw [torn_result hbefore hopen hf hr, take_bytes_append hk hlt hlater, reference, hspliced]
  rfl

/-- The first frame of a stream is in front of it. -/
theorem isPrefix_of_reference {s : Bytes} {g : Frame} (h : reference s 0 = .ok g) :
    g.bytes <+: s := by
  rcases hd : Frame.prefixDecoder.decode s with e | _ | ⟨g', n⟩
  · rw [reference, PrefixDecoder.parse_error hd] at h
    cases h
  · rw [reference, PrefixDecoder.parse_none hd] at h
    cases h
  · rw [reference, PrefixDecoder.parse_some hd, nth_cons_zero] at h
    obtain rfl := Except.ok.inj h
    obtain ⟨-, -, t, rfl⟩ := Frame.decodePrefix_eq_some_iff.mp hd
    exact List.prefix_append _ _

/-- **A torn header is completed by what is sent later**: where a send stops inside its header, a
frame that is returned behind those before it has a header that begins as the one cut and goes on
with the first bytes written behind it. -/
theorem torn_header_returned (hbefore : ∀ g v, .send g v ∈ before → v = .completed)
    (hopen : (new.run before).closed = false) (hf : f.Encodable)
    (hk : w.count f.bytes.length < headerLen) {g : Frame}
    (hr : (new.run (before ++ .send f w :: later)).results[(deliverable before).length]? =
      some (.ok g)) :
    g.bytes.take headerLen = f.bytes.take (w.count f.bytes.length) ++
      (writtenBy (writes later)).take (headerLen - w.count f.bytes.length) := by
  obtain ⟨t, ht⟩ := isPrefix_of_reference (torn_result hbefore hopen hf hr).symm
  have hpart : (f.bytes.take (w.count f.bytes.length)).length = w.count f.bytes.length :=
    List.length_take_of_le (w.count_le _)
  have hlen : headerLen ≤ g.bytes.length := by
    rw [g.length_bytes]
    exact Nat.le_add_right _ _
  rw [← List.take_append_of_le_length hlen, ht, List.take_append, hpart,
    List.take_of_length_le (hpart.trans_le hk.le)]

end Torn

end Link

end Meshwarden.Transport
