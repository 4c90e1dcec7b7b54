import Meshwarden.Proto.Symmetry
import Meshwarden.Transport.Conversation

/-!
# Delivery of messages

What goes through a channel are messages: a message is encoded by the codec of its type, framed with
the code of the type, sent, cut up by the stream, found again by the parser, and decoded by the
codec of its type at the other end. Whatever its encoder has encoded arrives; it is decoded to
itself where the other end knows the algorithm codes in it, and refused for the first code that it
does not know otherwise.

## Main definitions

* `MessageType.Payload`, `MessageType.toBytes`, `MessageType.fromBytes`: the codec of a message type
* `Message`, `Message.frame`: a message, and the frame of its encoding
* `Message.Decodes`: what decoding a message gives
* `Receives`: a result of a receive that carries a message

## Main results

* `MessageType.fromBytes_of_toBytes`: what is encoded is decoded, up to the algorithm codes
* `MessageType.encodable_of_toBytes`: what is encoded can be sent
* `messages_delivered`: in every conversation, what is received is what was sent
-/

namespace Meshwarden.Proto

open Codec

/-! ## The codecs of the message types -/

namespace MessageType

/-- What the payload of a message type stands for. -/
abbrev Payload : MessageType → Type
  | .hello => Hello
  | .authInit => AuthInit
  | .authResponse => AuthResponse
  | .authConfirm => AuthConfirm

def toBytes : (t : MessageType) → t.Payload → Except Error Bytes
  | .hello => Hello.toBytes
  | .authInit => AuthInit.toBytes
  | .authResponse => AuthResponse.toBytes
  | .authConfirm => AuthConfirm.toBytes

def fromBytes : (t : MessageType) → Bytes → ThreadLocals → Except Error t.Payload × ThreadLocals
  | .hello => Hello.fromBytes
  | .authInit => AuthInit.fromBytes
  | .authResponse => AuthResponse.fromBytes
  | .authConfirm => AuthConfirm.fromBytes

def wire : (t : MessageType) → WireType t.Payload
  | .hello => Hello.wire
  | .authInit => AuthInit.wire
  | .authResponse => AuthResponse.wire
  | .authConfirm => AuthConfirm.wire

/-- The signatures of a payload, of which the decoder resolves the algorithm codes. -/
def signatures : (t : MessageType) → t.Payload → BoundedVec WireSignature maxProofSignatures
  | .hello, _ => .empty
  | .authInit, _ => .empty
  | .authResponse, m => m.signatures
  | .authConfirm, m => m.signatures

/-- Code and message type belong together. -/
theorem fromU16_asU16 (t : MessageType) : fromU16 t.asU16 = some t := by
  cases t <;> rfl

theorem maxLength_wire_le (t : MessageType) : t.wire.maxLength ≤ 2619 := by
  cases t <;> decide

variable {t : MessageType} {m : t.Payload} {b : Bytes}

/-- What an encoder returns is the serialization. -/
theorem eq_serialize_of_toBytes (h : t.toBytes m = .ok b) : b = t.wire.serialize m := by
  cases t with
  | hello => exact (Except.ok.inj h).symm
  | authInit =>
    rw [toBytes, AuthInit.toBytes_eq] at h
    split_ifs at h
    exact (Except.ok.inj h).symm
  | authResponse =>
    rw [toBytes, AuthResponse.toBytes_eq] at h
    split_ifs at h
    exact (Except.ok.inj h).symm
  | authConfirm =>
    rw [toBytes, AuthConfirm.toBytes_eq] at h
    exact (Except.ok.inj h).symm

/-- **What is encoded is decoded**, wherever the decoder is called: to itself where every algorithm
code in it is in the registry, and otherwise the first one that is not is reported. -/
theorem fromBytes_of_toBytes (h : t.toBytes m = .ok b) (tl : ThreadLocals) :
    (Registered (t.signatures m) → (t.fromBytes b tl).1 = .ok m) ∧
      ∀ code, FirstUnregistered (t.signatures m) code →
        (t.fromBytes b tl).1 = .error (.unknownAlgorithm code) := by
  obtain rfl := eq_serialize_of_toBytes h
  cases t with
  | hello =>
    exact ⟨fun _ => Hello.wire.decodeExact_serialize m tl,
      fun code hcode => absurd hcode not_firstUnregistered_empty⟩
  | authInit =>
    exact ⟨fun _ => fromBytesWith_serialize AuthInit.maxLength_le m tl,
      fun code hcode => absurd hcode not_firstUnregistered_empty⟩
  | authResponse => exact fromBytesWith_serialize_signatures AuthResponse.maxLength_le m tl
  | authConfirm => exact fromBytesWith_serialize_signatures AuthConfirm.maxLength_le m tl

/-- What is encoded fits a frame. -/
theorem encodable_of_toBytes (h : t.toBytes m = .ok b) : (Frame.new .v1 t b).Encodable := by
  obtain rfl := eq_serialize_of_toBytes h
  refine ⟨rfl, ?_⟩
  have hlen := (t.wire.length_serialize_le m).trans t.maxLength_wire_le
  exact hlen.trans (by decide)

end MessageType

/-- A message of some type. -/
structure Message where
  type : MessageType
  payload : type.Payload

namespace Message

/-- The frame of a message, once it is encoded. -/
def frame (m : Message) : Except Error Frame := do
  let bytes ← m.type.toBytes m.payload
  pure (.new .v1 m.type bytes)

/-- What the decoder of its type may make of an encoded message: the message itself where its
algorithm codes are in the registry, and otherwise the first one that is not. -/
def Decodes (m : Message) (r : Except Error m.type.Payload) : Prop :=
  (Registered (m.type.signatures m.payload) → r = .ok m.payload) ∧
    ∀ code, FirstUnregistered (m.type.signatures m.payload) code →
      r = .error (.unknownAlgorithm code)

theorem frame_eq_ok_iff {m : Message} {f : Frame} :
    m.frame = .ok f ↔ ∃ b, m.type.toBytes m.payload = .ok b ∧ f = .new .v1 m.type b := by
  rw [frame, bind_eq_ok_iff]
  constructor
  · rintro ⟨b, hb, hf⟩
    exact ⟨b, hb, (Except.ok.inj hf).symm⟩
  · rintro ⟨b, hb, rfl⟩
    exact ⟨b, hb, rfl⟩

end Message

end Meshwarden.Proto

namespace Meshwarden.Transport

open Codec Proto Automata

/-! ## Messages in a conversation -/

/-- The receives of one end give what the other one has put on its stream, and then the end of
it. -/
theorem conversation_got {c : Conversation} {trace : List (Side × Event)}
    (h : conversation.Run (fun _ => Link.new) trace c) (i : Side) {k : ℕ} {r : Except Error Frame}
    (hr : (Fifo.got (Lts.shownBy i trace))[k]? = some r) :
    r = nth (Fifo.pushed (Lts.shownBy i trace)) (.io .unexpectedEof) k := by
  obtain ⟨q, hrun, -⟩ := conversation_holds h i
  exact Fifo.got_eq_nth hrun hr

/-- A result of a receive carries a message: it is the frame of the message, with the code of its
type and its encoding, from which it is decoded on every thread. -/
def Receives (r : Except Error Frame) (m : Message) : Prop :=
  ∃ b, m.type.toBytes m.payload = .ok b ∧ r = .ok (.new .v1 m.type b) ∧
    MessageType.fromU16 (Frame.new .v1 m.type b).messageType = some m.type ∧
    ∀ tl, m.Decodes (m.type.fromBytes b tl).1

theorem receives_of_frame {m : Message} {f : Frame} (h : m.frame = .ok f) :
    Receives (.ok f) m := by
  obtain ⟨b, hb, rfl⟩ := Message.frame_eq_ok_iff.mp h
  exact ⟨b, hb, rfl, m.type.fromU16_asU16, fun tl => MessageType.fromBytes_of_toBytes hb tl⟩

/-- What a received message is decoded to is what was sent. -/
theorem Receives.payload_eq {m : Message} {r : Except Error Frame} (h : Receives r m)
    {f : Frame} (hf : r = .ok f) {tl : ThreadLocals} {payload : m.type.Payload}
    (hp : (m.type.fromBytes f.payload tl).1 = .ok payload) : m.payload = payload := by
  obtain ⟨b, -, rfl, -, hdecodes⟩ := h
  obtain rfl := Except.ok.inj hf
  obtain ⟨hregistered, hunknown⟩ := hdecodes tl
  rcases registered_or_firstUnregistered (m.type.signatures m.payload) with hall | ⟨code, hcode⟩
  · exact Except.ok.inj ((hregistered hall).symm.trans hp)
  · rw [show (Frame.new .v1 m.type b).payload = b from rfl, hunknown code hcode] at hp
    cases hp

/-- The `k`th result that an end receives carries the `k`th message that the other one has sent. -/
theorem receives_of_sent {c : Conversation} {trace : List (Side × Event)}
    (h : conversation.Run (fun _ => Link.new) trace c) {i : Side} {messages : List Message}
    (hsent : messages.map Message.frame = (Fifo.pushed (Lts.shownBy i trace)).map .ok) {k : ℕ}
    {m : Message} {r : Except Error Frame} (hm : messages[k]? = some m)
    (hr : (Fifo.got (Lts.shownBy i trace))[k]? = some r) : Receives r m := by
  have hk : (messages.map Message.frame)[k]? = some m.frame := by
    rw [List.getElem?_map, hm]
    rfl
  rw [hsent, List.getElem?_map] at hk
  obtain ⟨f, hf, hframe⟩ := Option.map_eq_some_iff.mp hk
  rw [conversation_got h i hr, nth, hf]
  exact receives_of_frame hframe.symm

/-- **The messages received are the messages sent.** In every conversation on streams with room for
what is sent, whatever is sent the other way, and however calls, chunks and drops interleave: where
one end has sent the frames that the encoders gave for its messages, the other end receives each of
them, in order, and behind them the end of the stream and nothing else. Each is decoded to the
message that was sent, or refused for the first algorithm code in it that is not in the registry. -/
theorem messages_delivered {c : Conversation} {trace : List (Side × Event)}
    (h : conversation.Run (fun _ => Link.new) trace c) (i : Side) (messages : List Message)
    (hsent : messages.map Message.frame = (Fifo.pushed (Lts.shownBy i trace)).map .ok) :
    (∀ (k : ℕ) (m : Message) (r : Except Error Frame), messages[k]? = some m →
        (Fifo.got (Lts.shownBy i trace))[k]? = some r → Receives r m) ∧
      ∀ (k : ℕ) (r : Except Error Frame), messages.length ≤ k →
        (Fifo.got (Lts.shownBy i trace))[k]? = some r → r = .error (.io .unexpectedEof) := by
  constructor
  · intro k m r hm hr
    exact receives_of_sent h hsent hm hr
  · intro k r hk hr
    have hlen := congrArg List.length hsent
    rw [List.length_map, List.length_map] at hlen
    rw [conversation_got h i hr, nth, List.getElem?_eq_none (hlen ▸ hk)]

/-- A greeting that offers one algorithm. -/
def greeting : Message := ⟨.hello, ⟨⟨[1], by decide⟩⟩⟩

/-- A proof under an algorithm that is not in the registry. -/
def unknownProof : Message := ⟨.authConfirm, unregisteredConfirm⟩

/-- The client greets and sends the proof; the server reads both in one chunk. -/
def greetedBy : List Action :=
  [.send (.new .v1 .hello [1, 1]) .completed,
    .send (.new .v1 .authConfirm [0x01, 0xff, 0x01, 0x00]) .completed, .recv, .read 4096, .recv]

/-- What the two of them see. -/
def greetedTrace : List (Side × Event) :=
  [(.client, .push (.new .v1 .hello [1, 1])),
    (.client, .push (.new .v1 .authConfirm [0x01, 0xff, 0x01, 0x00])),
    (.client, .got (.ok (.new .v1 .hello [1, 1]))),
    (.client, .got (.ok (.new .v1 .authConfirm [0x01, 0xff, 0x01, 0x00])))]

theorem run_greeted :
    conversation.Run (fun _ => Link.new) greetedTrace
      (Function.update (fun _ => Link.new) .client (Link.new.run greetedBy)) := by
  have hcompletes : ∀ a ∈ greetedBy, Link.Completes a := by
    simp only [greetedBy, List.forall_mem_cons]
    exact ⟨Link.completes_send _, Link.completes_send _, Link.completes_of_receives rfl,
      Link.completes_of_receives rfl, Link.completes_of_receives rfl, List.forall_mem_nil _⟩
  exact Link.run_conversation (c := fun _ => Link.new) (i := .client) rfl
    (Link.run_observed hcompletes)

theorem messages_delivered_greeting :
    (∀ (k : ℕ) (m : Message) (r : Except Error Frame), [greeting, unknownProof][k]? = some m →
        (Fifo.got (Lts.shownBy .client greetedTrace))[k]? = some r → Receives r m) ∧
      ∀ (k : ℕ) (r : Except Error Frame), [greeting, unknownProof].length ≤ k →
        (Fifo.got (Lts.shownBy .client greetedTrace))[k]? = some r →
        r = .error (.io .unexpectedEof) :=
  messages_delivered run_greeted .client [greeting, unknownProof] rfl

end Meshwarden.Transport
