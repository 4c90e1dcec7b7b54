import Meshwarden.Identity.Allocation
import Meshwarden.Identity.Presentation

/-!
# What a peer can make this end allocate

Before a peer is authenticated, this end buffers what the peer sends, takes frames out of it,
decodes each of them by the decoder of its type, and decodes the certificate that it presents. No
declared length or count makes it allocate more than the bytes that are really there account for, so
what a peer can make this end allocate is a fixed multiple of what the peer has sent itself. Channel
and decoders are those of the repository; that every frame is decoded as soon as it is received is
the use of them that is looked at here.

## Main definitions

* `MessageType.fromBytesMetered`: the decoder of a message type, with its allocations
* `allocatedFor`: what is allocated for a frame that was received
* `Link.bufferCap`: the capacity of the buffer that a channel reads into

## Main results

* `allocatedFor_le`: for the bytes of its payload, and for any payload
* `Link.bufferCap_le`: the buffer never takes more than twice what was read
* `peer_amplification`: for all that a peer has sent
-/

namespace Meshwarden.Proto

open Codec

namespace MessageType

/-- The decoder of a message type, with its allocations. -/
def fromBytesMetered (L : Layout) : (t : MessageType) → Bytes → ThreadLocals →
    (Except Error t.Payload × ThreadLocals) × ℕ
  | .hello => Hello.fromBytesMetered L
  | .authInit => AuthInit.fromBytesMetered L
  | .authResponse => AuthResponse.fromBytesMetered L
  | .authConfirm => AuthConfirm.fromBytesMetered L

theorem allocatesWithin {L : Layout} (hcode : L.size .u16 ≤ 2)
    (hentry : L.size WireSignature.wire ≤ 32) (t : MessageType) :
    AllocatesWithin (t.fromBytesMetered L) t.fromBytes 46 8 7958 := by
  cases t with
  | hello => exact (Hello.allocatesWithin hcode).weaken (by omega) (by omega) (by omega)
  | authInit => exact AuthInit.allocatesWithin.weaken (by omega) le_rfl (by omega)
  | authResponse => exact AuthResponse.allocatesWithin hentry
  | authConfirm => exact (AuthConfirm.allocatesWithin hentry).weaken le_rfl le_rfl (by omega)

/-- The certificate is a part of the payload. -/
theorem length_certificate_le {t : MessageType} {b : Bytes} {tl : ThreadLocals} {m : t.Payload}
    (h : (t.fromBytes b tl).1 = .ok m) {octets : Bytes} (hc : t.certificate m = some octets) :
    octets.length ≤ b.length := by
  cases t with
  | hello | authConfirm => cases hc
  | authInit =>
    obtain ⟨-, rfl⟩ := (fromBytesWith_eq_ok_iff AuthInit.maxLength_le).mp h
    obtain rfl := Option.some.inj hc
    have hwire : AuthInit.wire.serialize m = Leb128.encode m.authVersion.toNat ++
        (writeBytes m.clientNonce.bytes ++ (writeBytes m.clientCertificate.bytes ++ [])) := rfl
    rw [hwire, writeBytes, writeBytes]
    simp only [List.length_append]
    omega
  | authResponse =>
    obtain ⟨-, rfl⟩ := (fromBytesWith_eq_ok_iff AuthResponse.maxLength_le).mp h
    obtain rfl := Option.some.inj hc
    have hwire : AuthResponse.wire.serialize m = Leb128.encode m.authVersion.toNat ++
        (writeBytes m.serverNonce.bytes ++ (writeBytes m.serverCertificate.bytes ++
          (writeSeq WireSignature.wire.serialize m.signatures.items ++ []))) := rfl
    rw [hwire, writeBytes, writeBytes]
    simp only [List.length_append]
    omega

end MessageType

end Meshwarden.Proto

namespace Meshwarden.Transport

open Codec Proto Identity

variable {L : Layout}

/-! ## Frames -/

/-- What is allocated for a payload: by the decoder of its type, and by the decoder of the
certificate in it, if it decodes and there is one. -/
def allocatedForPayload (L : Layout) (t : MessageType) (payload : Bytes) (tl : ThreadLocals) : ℕ :=
  match t.fromBytesMetered L payload tl with
  | ((.error _, _), allocated) => allocated
  | ((.ok m, tl'), allocated) =>
    match t.certificate m with
    | none => allocated
    | some octets => allocated + (NodeCertificate.fromWireBytesMetered L octets tl').2

/-- What is allocated for a frame that was received: the copy of its payload, and what is allocated
for that, if the type is known. -/
def allocatedFor (L : Layout) (f : Frame) (tl : ThreadLocals) : ℕ :=
  match MessageType.fromU16 f.messageType with
  | none => f.payload.length
  | some t => f.payload.length + allocatedForPayload L t f.payload tl

theorem allocatedForPayload_le (hcode : L.size .u16 ≤ 2) (hentry : L.size WireSignature.wire ≤ 32)
    (t : MessageType) (payload : Bytes) (tl : ThreadLocals) :
    allocatedForPayload L t payload tl ≤ 54 * payload.length + 16 ∧
      allocatedForPayload L t payload tl ≤ 24350 := by
  obtain ⟨hdecoder, hrate, hmost⟩ := t.allocatesWithin hcode hentry payload tl
  rw [allocatedForPayload]
  rcases hrun : t.fromBytesMetered L payload tl with ⟨⟨e | m, tl'⟩, allocated⟩
  · rw [hrun] at hrate hmost
    dsimp only at hrate hmost ⊢
    omega
  rw [hrun] at hdecoder hrate hmost
  dsimp only at hdecoder hrate hmost ⊢
  rcases hc : t.certificate m with _ | octets
  · dsimp only
    omega
  -- the certificate is no longer than the payload, and is not decoded if it is too long
  have hlen : octets.length ≤ payload.length :=
    MessageType.length_certificate_le (congrArg Prod.fst hdecoder).symm hc
  obtain ⟨hle, hzero⟩ := NodeCertificate.fromWireBytesMetered_snd_le hcode octets tl'
  have hmax : maxCertificateWireBytes = 2048 := rfl
  dsimp only
  by_cases hlong : maxCertificateWireBytes < octets.length
  · have hnone := hzero hlong
    omega
  · omega

/-- **What is allocated for a frame**: a fixed multiple of its payload and sixteen bytes more, and
beside the payload never more than a fixed number of bytes. -/
theorem allocatedFor_le (hcode : L.size .u16 ≤ 2) (hentry : L.size WireSignature.wire ≤ 32)
    (f : Frame) (tl : ThreadLocals) :
    allocatedFor L f tl ≤ 55 * f.payload.length + 16 ∧
      allocatedFor L f tl ≤ f.payload.length + 24350 := by
  rw [allocatedFor]
  rcases MessageType.fromU16 f.messageType with _ | t
  · dsimp only
    omega
  · have h := allocatedForPayload_le hcode hentry t f.payload tl
    dsimp only
    omega

/-- What is allocated for frames, each of them decoded on some thread. -/
theorem sum_allocatedFor_le (hcode : L.size .u16 ≤ 2) (hentry : L.size WireSignature.wire ≤ 32)
    (work : List (Frame × ThreadLocals)) :
    (work.map fun w => allocatedFor L w.1 w.2).sum ≤
      55 * ((work.map Prod.fst).flatMap Frame.bytes).length := by
  induction work with
  | nil => exact Nat.zero_le _
  | cons w work ih =>
    -- the header of a frame pays for what does not depend on its payload
    obtain ⟨hframe, -⟩ := allocatedFor_le hcode hentry w.1 w.2
    have hlen := w.1.length_bytes
    have hheader : headerLen = 8 := rfl
    simp only [List.map_cons, List.sum_cons, List.flatMap_cons, List.length_append]
    omega

/-! ## The buffer -/

namespace Link

/-- The capacity of the buffer after an action: a chunk that was read is appended to it. Taking a
frame off its front leaves the capacity. -/
def growBuffer (l : Link) (cap : ℕ) : Action → ℕ
  | .read size =>
    if l.waiting ∧ l.unread ≠ [] then
      Growable.reserve (BoundedVec.minNonZeroCap 1) cap l.readBuf.length (l.chunk size).length
    else cap
  | _ => cap

/-- The capacity of the buffer after a run. -/
def bufferCap : Link → ℕ → List Action → ℕ
  | _, cap, [] => cap
  | l, cap, a :: actions => (l.step a).bufferCap (l.growBuffer cap a) actions

variable {l : Link} {cap : ℕ}

/-- What was taken off the stream only becomes more. -/
theorem taken_step_isPrefix (l : Link) (a : Action) : l.taken <+: (l.step a).taken := by
  cases a with
  | send frame write =>
    rw [step]
    split_ifs <;> exact List.prefix_refl _
  | close => exact List.prefix_refl _
  | recv =>
    rw [step]
    split_ifs
    · exact List.prefix_refl _
    · rcases FramedChannel.turn l.readBuf with ⟨_ | r, b⟩ <;> exact List.prefix_refl _
  | read size =>
    rw [step]
    split_ifs
    · simp only
      rcases FramedChannel.resume (l.chunk size) l.readBuf with ⟨_ | r, b⟩ <;>
        exact List.prefix_append _ _
    · exact List.prefix_refl _
  | readFailed kind =>
    rw [step]
    split_ifs <;> exact List.prefix_refl _
  | drop => exact List.prefix_refl _

theorem taken_step_read (hw : l.waiting = true) (hu : l.unread ≠ []) (size : ℕ) :
    (l.step (.read size)).taken = l.taken ++ l.chunk size := by
  rw [step_read hw, if_pos hu]
  rcases FramedChannel.turn (l.readBuf ++ l.chunk size) with ⟨_ | r, b⟩ <;> rfl

/-- One action keeps the capacity within twice what was read. -/
theorem Coherent.growBuffer_le (h : l.Coherent) (hcap : cap ≤ max 8 (2 * l.taken.length))
    (a : Action) : l.growBuffer cap a ≤ max 8 (2 * (l.step a).taken.length) := by
  have hmore := (taken_step_isPrefix l a).length_le
  have hsame : cap ≤ max 8 (2 * (l.step a).taken.length) := by omega
  cases a with
  | read size =>
    rw [growBuffer]
    split_ifs with hread
    · obtain ⟨-, htaken⟩ := h.frames_spec
      have hbuf : l.readBuf.length ≤ l.taken.length := by
        rw [← htaken, List.length_append]
        exact Nat.le_add_left _ _
      rw [taken_step_read hread.1 hread.2, List.length_append]
      exact Growable.reserve_le hcap hbuf
    · exact hsame
  | send frame write | close | recv | readFailed kind | drop => exact hsame

/-- **The buffer takes at most twice what was read**, or eight bytes, after every run. -/
theorem Coherent.bufferCap_le (h : l.Coherent) (hcap : cap ≤ max 8 (2 * l.taken.length))
    (actions : List Action) :
    l.bufferCap cap actions ≤ max 8 (2 * (l.run actions).taken.length) := by
  induction actions generalizing l cap with
  | nil => exact hcap
  | cons a actions ih => exact ih (h.step a) (h.growBuffer_le hcap a)

end Link

/-! ## All that a peer has sent -/

/-- **A peer pays for what it makes this end allocate.** On a new link, and on one with whatever
stream a hostile peer has sent, after every run: the frames that were returned, each of them decoded
on some thread with the certificate in it, and the buffer, come to at most 57 bytes for each byte
that was taken off the stream and eight more; and no single frame costs more than 24350 bytes beside
the copy of its payload. -/
theorem peer_amplification (hcode : L.size .u16 ≤ 2) (hentry : L.size WireSignature.wire ≤ 32)
    {l : Link} (h : l = Link.new ∨ ∃ s, l = Link.incoming s) (actions : List Action) :
    (∀ work : List (Frame × ThreadLocals), work.map Prod.fst = (l.run actions).frames →
        (work.map fun w => allocatedFor L w.1 w.2).sum + l.bufferCap 0 actions ≤
          57 * (l.run actions).taken.length + 8) ∧
      ∀ f tl, allocatedFor L f tl ≤ f.payload.length + 24350 := by
  refine ⟨?_, fun f tl => (allocatedFor_le hcode hentry f tl).2⟩
  intro work hwork
  have hcoherent : l.Coherent := by
    rcases h with rfl | ⟨s, rfl⟩
    · exact Link.coherent_new
    · exact Link.coherent_incoming s
  have hsum := sum_allocatedFor_le hcode hentry work
  have hbuffer := hcoherent.bufferCap_le (Nat.zero_le _) actions
  obtain ⟨-, htaken⟩ := (hcoherent.run actions).frames_spec
  have hlen := congrArg List.length htaken
  rw [List.length_append] at hlen
  rw [hwork] at hsum
  omega

/-- A peer that sends a proof with an empty signature, on a 64-bit target. -/
def costly : Link := .incoming (Frame.new .v1 .authConfirm [1, 1, 0]).bytes

theorem peer_amplification_costly :
    allocatedFor .words64 (.new .v1 .authConfirm [1, 1, 0]) .fresh +
        costly.bufferCap 0 [.recv, .read 16] ≤
      57 * (costly.run [.recv, .read 16]).taken.length + 8 := by
  have hcode : Layout.words64.size .u16 ≤ 2 := le_refl 2
  have hentry : Layout.words64.size WireSignature.wire ≤ 32 := le_refl 32
  have hcostly : costly = Link.new ∨ ∃ s, costly = Link.incoming s := Or.inr ⟨_, rfl⟩
  obtain ⟨hwork, -⟩ := peer_amplification hcode hentry hcostly [.recv, .read 16]
  exact hwork [(.new .v1 .authConfirm [1, 1, 0], .fresh)] rfl

/-- The copy of the payload, 128 bytes for the list, and eight for the re-encoding. -/
example : allocatedFor .words64 (.new .v1 .authConfirm [1, 1, 0]) .fresh = 139 := by decide

end Meshwarden.Transport
