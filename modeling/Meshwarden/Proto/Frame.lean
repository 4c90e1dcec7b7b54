import Meshwarden.Codec.BigEndian
import Meshwarden.Codec.Stream
import Meshwarden.Proto.ViolationChannel

/-!
# Frames

The length-delimited envelope: major version, message type and payload length in big-endian order,
then the payload. The incremental parser looks for a frame at the front of what is buffered. It
needs the eight bytes of the header before it says anything, and checks the version first.

## Main definitions

* `MessageType`, `Frame`
* `Frame.encode`, `Frame.decode`, `Frame.decodePrefix`
* `Frame.decodePrefixChecked`: the parser with every operation that can panic
* `Frame.prefixDecoder`: the incremental parser, with its stability

## Main results

* `Frame.encode_eq_ok_iff`: which frames have an encoding, and which one
* `Frame.decodePrefix_eq_some_iff`: a frame is found exactly in front of its encoding
* `Frame.decodePrefixChecked_eq`: the parser never panics
* `Frame.codec_laws`: the codec and the parser together
-/

namespace Meshwarden.Proto

open Codec

/-! ## Integers in a header -/

/-- `u16::to_be_bytes`. -/
def u16ToBeBytes (x : UInt16) : Bytes := beBytes 2 x.toNat

/-- `u16::from_be_bytes`. -/
def u16FromBeBytes (b : Bytes) : UInt16 := UInt16.ofNat (ofBeBytes b)

/-- `u32::to_be_bytes`. -/
def u32ToBeBytes (x : UInt32) : Bytes := beBytes 4 x.toNat

/-- `u32::from_be_bytes`. -/
def u32FromBeBytes (b : Bytes) : UInt32 := UInt32.ofNat (ofBeBytes b)

/-- `u32::try_from` on a `usize`. -/
def u32TryFrom (n : ℕ) : Option UInt32 := if n < 2 ^ 32 then some (UInt32.ofNat n) else none

@[simp] theorem length_u16ToBeBytes (x : UInt16) : (u16ToBeBytes x).length = 2 :=
  length_beBytes 2 x.toNat

@[simp] theorem length_u32ToBeBytes (x : UInt32) : (u32ToBeBytes x).length = 4 :=
  length_beBytes 4 x.toNat

theorem u16FromBeBytes_toBeBytes (x : UInt16) : u16FromBeBytes (u16ToBeBytes x) = x := by
  rw [u16FromBeBytes, u16ToBeBytes, ofBeBytes_beBytes,
    Nat.mod_eq_of_lt (show x.toNat < 256 ^ 2 from x.toNat_lt), UInt16.ofNat_toNat]

theorem u32FromBeBytes_toBeBytes (x : UInt32) : u32FromBeBytes (u32ToBeBytes x) = x := by
  rw [u32FromBeBytes, u32ToBeBytes, ofBeBytes_beBytes,
    Nat.mod_eq_of_lt (show x.toNat < 256 ^ 4 from x.toNat_lt), UInt32.ofNat_toNat]

theorem u16ToBeBytes_fromBeBytes {b : Bytes} (h : b.length = 2) :
    u16ToBeBytes (u16FromBeBytes b) = b := by
  have hlt : ofBeBytes b < 2 ^ 16 := by simpa [h] using ofBeBytes_lt b
  rw [u16ToBeBytes, u16FromBeBytes, UInt16.toNat_ofNat_of_lt' hlt, ← h, beBytes_ofBeBytes]

theorem u32ToBeBytes_fromBeBytes {b : Bytes} (h : b.length = 4) :
    u32ToBeBytes (u32FromBeBytes b) = b := by
  have hlt : ofBeBytes b < 2 ^ 32 := by simpa [h] using ofBeBytes_lt b
  rw [u32ToBeBytes, u32FromBeBytes, UInt32.toNat_ofNat_of_lt' hlt, ← h, beBytes_ofBeBytes]

/-! ## Frames -/

/-- Maximum payload length of a frame. -/
def maxPayloadLen : ℕ := 16 * 1024 * 1024

/-- Major version, message type and payload length. -/
def headerLen : ℕ := 2 + 2 + 4

/-- Known message types. -/
inductive MessageType
  | hello
  | authInit
  | authResponse
  | authConfirm
  deriving DecidableEq, Repr

def MessageType.asU16 : MessageType → UInt16
  | .hello => 0x0001
  | .authInit => 0x0002
  | .authResponse => 0x0003
  | .authConfirm => 0x0004

def MessageType.fromU16 (code : UInt16) : Option MessageType :=
  if code = 0x0001 then some .hello
  else if code = 0x0002 then some .authInit
  else if code = 0x0003 then some .authResponse
  else if code = 0x0004 then some .authConfirm
  else none

/-- A frame. The message type stays a raw code: unknown types are framed too. -/
structure Frame where
  version : WireVersion
  messageType : UInt16
  payload : Bytes
  deriving DecidableEq

namespace Frame

/-- A frame of a known message type. -/
def new (version : WireVersion) (messageType : MessageType) (payload : Bytes) : Frame :=
  ⟨version, messageType.asU16, payload⟩

/-- The bytes of a frame. -/
def encode (f : Frame) : Except Error Bytes :=
  if !f.version.isSupported then .error (.unsupportedWireVersion f.version.major)
  else
    let len := f.payload.length
    if len > maxPayloadLen then .error (.payloadTooLarge len maxPayloadLen)
    else
      match u32TryFrom len with
      | none => .error (.payloadTooLarge len maxPayloadLen)
      | some lenU32 =>
        .ok (u16ToBeBytes f.version.major ++ u16ToBeBytes f.messageType ++ u32ToBeBytes lenU32 ++
          f.payload)

/-- The frame at the front of what is buffered, and the number of bytes it takes; `none` while it is
incomplete. The indices are those of the header, which is there when they are used. -/
def decodePrefix (bytes : Bytes) : Except Error (Option (Frame × ℕ)) :=
  if h : bytes.length < headerLen then .ok none
  else
    have h : 8 ≤ bytes.length := Nat.le_of_not_lt h
    let version : WireVersion := ⟨u16FromBeBytes [bytes[0], bytes[1]]⟩
    if !version.isSupported then .error (.unsupportedWireVersion version.major)
    else
      let messageType := u16FromBeBytes [bytes[2], bytes[3]]
      let payloadLen := (u32FromBeBytes [bytes[4], bytes[5], bytes[6], bytes[7]]).toNat
      if payloadLen > maxPayloadLen then .error (.payloadTooLarge payloadLen maxPayloadLen)
      else
        let total := headerLen + payloadLen
        if bytes.length < total then .ok none
        else .ok (some (⟨version, messageType, (bytes.take total).drop headerLen⟩, total))

/-- `bytes[i]`; `none` is a panic. -/
def index (bytes : Bytes) (i : ℕ) : Option UInt8 := bytes[i]?

/-- `bytes[start..stop]`; `none` is a panic. -/
def slice (bytes : Bytes) (start stop : ℕ) : Option Bytes :=
  if start ≤ stop ∧ stop ≤ bytes.length then some ((bytes.take stop).drop start) else none

/-- `a + b` on `usize`; `none` is an overflow. -/
def checkedAdd (a b : ℕ) : Option ℕ := if a + b ≤ usizeMax then some (a + b) else none

/-- The parser with every index, slice and addition that it makes, each of which can fail. -/
def decodePrefixChecked (bytes : Bytes) : Option (Except Error (Option (Frame × ℕ))) :=
  if bytes.length < headerLen then some (.ok none)
  else do
    let version : WireVersion := ⟨u16FromBeBytes [← index bytes 0, ← index bytes 1]⟩
    if !version.isSupported then some (.error (.unsupportedWireVersion version.major))
    else
      let messageType := u16FromBeBytes [← index bytes 2, ← index bytes 3]
      let payloadLen := (u32FromBeBytes
        [← index bytes 4, ← index bytes 5, ← index bytes 6, ← index bytes 7]).toNat
      if payloadLen > maxPayloadLen then some (.error (.payloadTooLarge payloadLen maxPayloadLen))
      else
        let total ← checkedAdd headerLen payloadLen
        if bytes.length < total then some (.ok none)
        else
          let payload ← slice bytes headerLen total
          some (.ok (some (⟨version, messageType, payload⟩, total)))

/-- One frame that fills the input. -/
def decode (bytes : Bytes) : Except Error Frame := do
  match ← decodePrefix bytes with
  | some (frame, consumed) => if consumed = bytes.length then pure frame else .error .malformedFrame
  | none => .error .malformedFrame

/-! ## The parser on a complete header -/

theorem exists_header {b : Bytes} (h : headerLen ≤ b.length) :
    ∃ major type len rest, b = major ++ type ++ len ++ rest ∧
      major.length = 2 ∧ type.length = 2 ∧ len.length = 4 := by
  match b, h with
  | b₀ :: b₁ :: b₂ :: b₃ :: b₄ :: b₅ :: b₆ :: b₇ :: rest, _ =>
    exact ⟨[b₀, b₁], [b₂, b₃], [b₄, b₅, b₆, b₇], rest, rfl, rfl, rfl, rfl⟩

/-- With the header there, the verdict depends on its fields, and on the rest only through the
payload. -/
theorem decodePrefix_header {major type len : Bytes} (hmajor : major.length = 2)
    (htype : type.length = 2) (hlen : len.length = 4) (rest : Bytes) :
    decodePrefix (major ++ type ++ len ++ rest) =
      let version : WireVersion := ⟨u16FromBeBytes major⟩
      let payloadLen := (u32FromBeBytes len).toNat
      if !version.isSupported then .error (.unsupportedWireVersion version.major)
      else if payloadLen > maxPayloadLen then .error (.payloadTooLarge payloadLen maxPayloadLen)
      else if rest.length < payloadLen then .ok none
      else .ok (some (⟨version, u16FromBeBytes type, rest.take payloadLen⟩,
        headerLen + payloadLen)) := by
  match major, type, len, hmajor, htype, hlen with
  | [b₀, b₁], [b₂, b₃], [b₄, b₅, b₆, b₇], _, _, _ =>
    have hl : ([b₀, b₁] ++ [b₂, b₃] ++ [b₄, b₅, b₆, b₇] ++ rest).length =
        headerLen + rest.length := by
      rw [List.length_append]
      rfl
    -- the payload is what the total leaves behind the header
    have htake : ∀ n, ((([b₀, b₁] ++ [b₂, b₃] ++ [b₄, b₅, b₆, b₇] ++ rest).take
        (headerLen + n)).drop headerLen) = rest.take n := by
      intro n
      rw [List.drop_take, Nat.add_sub_cancel_left]
      rfl
    rw [decodePrefix, dif_neg (by rw [hl]; omega)]
    simp only [hl, Nat.add_lt_add_iff_left, htake]
    rfl

theorem decodePrefix_short {b : Bytes} (h : b.length < headerLen) : decodePrefix b = .ok none := by
  rw [decodePrefix, dif_pos h]

theorem decodePrefix_nil : decodePrefix [] = .ok none := decodePrefix_short (Nat.succ_pos _)

/-! ## Encodings -/

/-- The frames that have an encoding. -/
def Encodable (f : Frame) : Prop :=
  f.version.isSupported = true ∧ f.payload.length ≤ maxPayloadLen

instance (f : Frame) : Decidable f.Encodable :=
  inferInstanceAs (Decidable (f.version.isSupported = true ∧ f.payload.length ≤ maxPayloadLen))

/-- The encoding of a frame that has one. -/
def bytes (f : Frame) : Bytes :=
  u16ToBeBytes f.version.major ++ u16ToBeBytes f.messageType ++
    u32ToBeBytes (UInt32.ofNat f.payload.length) ++ f.payload

theorem length_bytes (f : Frame) : f.bytes.length = headerLen + f.payload.length := by
  simp only [bytes, List.length_append, length_u16ToBeBytes, length_u32ToBeBytes, headerLen]

theorem lt_of_le_maxPayloadLen {n : ℕ} (h : n ≤ maxPayloadLen) : n < 2 ^ 32 :=
  Nat.lt_of_le_of_lt h (by decide)

theorem encode_eq_ok_iff {f : Frame} {b : Bytes} :
    f.encode = .ok b ↔ f.Encodable ∧ b = f.bytes := by
  rw [encode, Encodable]
  by_cases hv : f.version.isSupported = true
  · by_cases hl : f.payload.length ≤ maxPayloadLen
    · -- the length fits `u32`, so the conversion has nothing to refuse
      have hu : u32TryFrom f.payload.length = some (UInt32.ofNat f.payload.length) :=
        if_pos (lt_of_le_maxPayloadLen hl)
      simp [hv, hl, Nat.not_lt.mpr hl, hu, bytes, eq_comm]
    · simp [hv, hl, Nat.lt_of_not_le hl]
  · simp [hv]

/-- An encoding followed by anything. -/
theorem decodePrefix_bytes {f : Frame} (h : f.Encodable) (s : Bytes) :
    decodePrefix (f.bytes ++ s) = .ok (some (f, f.bytes.length)) := by
  obtain ⟨hv, hl⟩ := h
  have hn : (UInt32.ofNat f.payload.length).toNat = f.payload.length :=
    UInt32.toNat_ofNat_of_lt' (lt_of_le_maxPayloadLen hl)
  rw [length_bytes, bytes, List.append_assoc, decodePrefix_header (length_u16ToBeBytes _)
    (length_u16ToBeBytes _) (length_u32ToBeBytes _)]
  simp only [u16FromBeBytes_toBeBytes, u32FromBeBytes_toBeBytes, hn, hv, Nat.not_lt.mpr hl,
    List.length_append, List.take_left]
  simp

/-- **A frame is found exactly in front of its encoding.** -/
theorem decodePrefix_eq_some_iff {b : Bytes} {f : Frame} {n : ℕ} :
    decodePrefix b = .ok (some (f, n)) ↔
      f.Encodable ∧ n = f.bytes.length ∧ ∃ s, b = f.bytes ++ s := by
  constructor
  · intro h
    rcases Nat.lt_or_ge b.length headerLen with hb | hb
    · -- no verdict without a header
      rw [decodePrefix_short hb] at h
      cases h
    · obtain ⟨major, type, len, rest, rfl, hmajor, htype, hlen⟩ := exists_header hb
      rw [decodePrefix_header hmajor htype hlen] at h
      simp only at h
      split_ifs at h with hv hmax hrest
      · cases h
      obtain ⟨rfl, rfl⟩ := Prod.mk.inj (Option.some.inj (Except.ok.inj h))
      have hpay : (rest.take (u32FromBeBytes len).toNat).length = (u32FromBeBytes len).toNat :=
        List.length_take_of_le (Nat.not_lt.mp hrest)
      refine ⟨⟨by simpa using hv, by rw [hpay]; exact Nat.not_lt.mp hmax⟩, ?_,
        rest.drop (u32FromBeBytes len).toNat, ?_⟩
      · rw [length_bytes, hpay]
      · -- the header is spelled back from its fields
        simp only [bytes, hpay, UInt32.ofNat_toNat, u16ToBeBytes_fromBeBytes hmajor,
          u16ToBeBytes_fromBeBytes htype, u32ToBeBytes_fromBeBytes hlen, List.append_assoc,
          List.take_append_drop]
  · rintro ⟨hf, rfl, s, rfl⟩
    exact decodePrefix_bytes hf s

theorem headerLen_le_of_error {b : Bytes} {e : Error} (h : decodePrefix b = .error e) :
    headerLen ≤ b.length := by
  rw [← Nat.not_lt]
  intro hb
  rw [decodePrefix_short hb] at h
  cases h

/-- An error is given on the header alone. -/
theorem decodePrefix_error_of_take_eq {b b' : Bytes} {e : Error} (h : decodePrefix b = .error e)
    (hhead : b'.take headerLen = b.take headerLen) : decodePrefix b' = .error e := by
  obtain ⟨major, type, len, rest, rfl, hmajor, htype, hlen⟩ :=
    exists_header (headerLen_le_of_error h)
  have htake : (major ++ type ++ len ++ rest).take headerLen = major ++ type ++ len := by
    apply List.take_left'
    simp only [List.length_append, hmajor, htype, hlen, headerLen]
  have hb' : b' = major ++ type ++ len ++ b'.drop headerLen := by
    rw [← htake, ← hhead, List.take_append_drop]
  -- both checks that fail look at the header only
  rw [hb', decodePrefix_header hmajor htype hlen]
  rw [decodePrefix_header hmajor htype hlen] at h
  simp only at h ⊢
  split_ifs at h ⊢
  · exact h
  · exact h

theorem decodePrefix_error_append {b : Bytes} {e : Error} (h : decodePrefix b = .error e)
    (t : Bytes) : decodePrefix (b ++ t) = .error e := by
  apply decodePrefix_error_of_take_eq h
  exact List.take_append_of_le_length (headerLen_le_of_error h)

/-- The incremental parser: its verdicts are stable. -/
def prefixDecoder : PrefixDecoder Error Frame where
  decode := decodePrefix
  consumed_pos h := by
    obtain ⟨-, rfl, -⟩ := decodePrefix_eq_some_iff.mp h
    rw [length_bytes, headerLen]
    omega
  consumed_le h := by
    obtain ⟨-, rfl, s, rfl⟩ := decodePrefix_eq_some_iff.mp h
    simp
  decode_append {b r} h t := by
    obtain ⟨hf, hn, s, rfl⟩ := decodePrefix_eq_some_iff.mp h
    exact decodePrefix_eq_some_iff.mpr ⟨hf, hn, s ++ t, List.append_assoc _ _ _⟩
  error_append := decodePrefix_error_append

/-- A part of a frame gives no verdict. -/
theorem decodePrefix_take {f : Frame} (hf : f.Encodable) {k : ℕ} (hk : k < f.bytes.length) :
    decodePrefix (f.bytes.take k) = .ok none := by
  have hd : prefixDecoder.decode f.bytes = .ok (some (f, f.bytes.length)) :=
    decodePrefix_eq_some_iff.mpr ⟨hf, rfl, [], (List.append_nil _).symm⟩
  apply PrefixDecoder.decode_cutShort hd
  refine ⟨List.take_prefix k _, ?_⟩
  rw [ne_eq, List.take_eq_self_iff]
  exact Nat.not_le.mpr hk

/-! ## The parser never panics -/

theorem bind_of_eq_some {α β : Type} {x : Option α} {a : α} (h : x = some a) (f : α → Option β) :
    (x >>= f) = f a := by
  rw [h]
  rfl

theorem checkedAdd_header {n : ℕ} (h : n ≤ maxPayloadLen) :
    checkedAdd headerLen n = some (headerLen + n) := by
  have hmax : headerLen + maxPayloadLen ≤ usizeMax := by decide
  exact if_pos ((Nat.add_le_add_left h _).trans hmax)

/-- **No index, slice or addition fails**, whatever the input: every index is one of the header, and
the total fits `usize` and is not beyond the end. -/
theorem decodePrefixChecked_eq (bytes : Bytes) :
    decodePrefixChecked bytes = some (decodePrefix bytes) := by
  rw [decodePrefixChecked, decodePrefix]
  by_cases hb : bytes.length < headerLen
  · rw [if_pos hb, dif_pos hb]
  rw [if_neg hb, dif_neg hb]
  have h8 : 8 ≤ bytes.length := Nat.le_of_not_lt hb
  have hindex : ∀ i, (hi : i < bytes.length) → index bytes i = some bytes[i] :=
    fun i hi => List.getElem?_eq_getElem hi
  rw [bind_of_eq_some (hindex 0 (by omega)), bind_of_eq_some (hindex 1 (by omega))]
  by_cases hversion : (!(WireVersion.mk (u16FromBeBytes [bytes[0], bytes[1]])).isSupported) = true
  · rw [if_pos hversion, if_pos hversion]
  rw [if_neg hversion, if_neg hversion]
  rw [bind_of_eq_some (hindex 2 (by omega)), bind_of_eq_some (hindex 3 (by omega)),
    bind_of_eq_some (hindex 4 (by omega)), bind_of_eq_some (hindex 5 (by omega)),
    bind_of_eq_some (hindex 6 (by omega)), bind_of_eq_some (hindex 7 (by omega))]
  -- from here on only the length of the payload matters
  generalize (u32FromBeBytes [bytes[4], bytes[5], bytes[6], bytes[7]]).toNat = n
  by_cases hmax : n > maxPayloadLen
  · rw [if_pos hmax, if_pos hmax]
  rw [if_neg hmax, if_neg hmax, bind_of_eq_some (checkedAdd_header (Nat.le_of_not_lt hmax))]
  by_cases hlen : bytes.length < headerLen + n
  · rw [if_pos hlen, if_pos hlen]
  · have hslice : slice bytes headerLen (headerLen + n) =
        some ((bytes.take (headerLen + n)).drop headerLen) :=
      if_pos ⟨Nat.le_add_right _ _, Nat.le_of_not_lt hlen⟩
    rw [if_neg hlen, if_neg hlen, bind_of_eq_some hslice]

/-! ## Laws of the codec -/

theorem decode_eq_ok_iff {b : Bytes} {f : Frame} : decode b = .ok f ↔ f.encode = .ok b := by
  rw [encode_eq_ok_iff, decode]
  constructor
  · intro h
    obtain ⟨_ | ⟨f', n⟩, hd, h⟩ := bind_eq_ok_iff.mp h
    · cases h
    · simp only at h
      split_ifs at h with hn
      obtain rfl : f' = f := Except.ok.inj h
      obtain ⟨hf, rfl, s, rfl⟩ := decodePrefix_eq_some_iff.mp hd
      -- all of the input is consumed
      obtain rfl : s = [] := by
        rw [List.length_append] at hn
        exact List.eq_nil_of_length_eq_zero (by omega)
      exact ⟨hf, List.append_nil _⟩
  · rintro ⟨hf, rfl⟩
    have hd := decodePrefix_bytes hf []
    rw [List.append_nil] at hd
    rw [hd]
    exact if_pos rfl

/-- With the header there, more input is asked for only where some input completes the frame. -/
theorem exists_decode_append {b : Bytes} (hb : headerLen ≤ b.length)
    (h : decodePrefix b = .ok none) : ∃ s f, decode (b ++ s) = .ok f := by
  obtain ⟨major, type, len, rest, rfl, hmajor, htype, hlen⟩ := exists_header hb
  rw [decodePrefix_header hmajor htype hlen] at h
  simp only at h
  split_ifs at h with hversion hmax hrest
  · -- the payload that is announced, filled up with zeros
    have hpay : (rest ++ List.replicate ((u32FromBeBytes len).toNat - rest.length) 0).length =
        (u32FromBeBytes len).toNat := by
      rw [List.length_append, List.length_replicate]
      omega
    refine ⟨List.replicate ((u32FromBeBytes len).toNat - rest.length) 0,
      ⟨⟨u16FromBeBytes major⟩, u16FromBeBytes type,
        rest ++ List.replicate ((u32FromBeBytes len).toNat - rest.length) 0⟩,
      decode_eq_ok_iff.mpr (encode_eq_ok_iff.mpr ⟨⟨by simpa using hversion, ?_⟩, ?_⟩)⟩
    · exact hpay.trans_le (Nat.not_lt.mp hmax)
    · simp only [bytes, hpay, UInt32.ofNat_toNat, u16ToBeBytes_fromBeBytes hmajor,
        u16ToBeBytes_fromBeBytes htype, u32ToBeBytes_fromBeBytes hlen, List.append_assoc]
  · cases h

/-- A frame that was incomplete ends in the input that completes it. -/
theorem length_lt_of_completes {b t : Bytes} {f : Frame} {n : ℕ} (h : decodePrefix b = .ok none)
    (hf : decodePrefix (b ++ t) = .ok (some (f, n))) : b.length < n := by
  obtain ⟨henc, rfl, s, hs⟩ := decodePrefix_eq_some_iff.mp hf
  rw [← Nat.not_le]
  intro hle
  -- otherwise it was there before
  obtain ⟨s', hs'⟩ : f.bytes <+: b :=
    List.prefix_of_prefix_length_le ⟨s, hs.symm⟩ (List.prefix_append b t) hle
  rw [← hs', decodePrefix_bytes henc] at h
  cases h

/-- A bad header that was incomplete ends in the input that completes it. -/
theorem length_lt_of_errs {b t : Bytes} {e : Error} (h : decodePrefix b = .ok none)
    (he : decodePrefix (b ++ t) = .error e) : b.length < headerLen := by
  rw [← Nat.not_le]
  intro hb
  have hbad : decodePrefix b = .error e :=
    decodePrefix_error_of_take_eq he (List.take_append_of_le_length hb).symm
  rw [hbad] at h
  cases h

/-- More input is asked for only below the length of the longest frame. -/
theorem length_lt_of_decodePrefix_none {b : Bytes} (h : decodePrefix b = .ok none) :
    b.length < headerLen + maxPayloadLen := by
  rcases Nat.lt_or_ge b.length headerLen with hb | hb
  · exact Nat.lt_add_right _ hb
  · -- some input completes the frame
    obtain ⟨s, f, hf⟩ := exists_decode_append hb h
    obtain ⟨henc, hbytes⟩ := encode_eq_ok_iff.mp (decode_eq_ok_iff.mp hf)
    have hfound : decodePrefix (b ++ s) = .ok (some (f, f.bytes.length)) :=
      decodePrefix_eq_some_iff.mpr ⟨henc, rfl, [], hbytes.trans (List.append_nil _).symm⟩
    calc b.length < f.bytes.length := length_lt_of_completes h hfound
      _ = headerLen + f.payload.length := f.length_bytes
      _ ≤ headerLen + maxPayloadLen := Nat.add_le_add_left henc.2 _

/-- The version is checked first, whatever stands behind it. -/
theorem decodePrefix_unsupported {b : Bytes} (hb : headerLen ≤ b.length)
    (h : (WireVersion.mk (u16FromBeBytes (b.take 2))).isSupported = false) :
    decodePrefix b = .error (.unsupportedWireVersion (u16FromBeBytes (b.take 2))) := by
  obtain ⟨major, type, len, rest, rfl, hmajor, htype, hlen⟩ := exists_header hb
  have htake : (major ++ type ++ len ++ rest).take 2 = major := by
    rw [List.append_assoc, List.append_assoc, ← hmajor, List.take_left]
  rw [htake] at h ⊢
  rw [decodePrefix_header hmajor htype hlen]
  simp only [h, Bool.not_false, if_true]

/-- **Laws of the frame codec and of its incremental parser.** -/
theorem codec_laws :
    (∀ f : Frame, (∃ b, f.encode = .ok b) ↔
        f.version.isSupported = true ∧ f.payload.length ≤ 16 * 1024 * 1024) ∧
      (∀ f b, Frame.encode f = .ok b →
        decode b = .ok f ∧ ∀ s, decodePrefix (b ++ s) = .ok (some (f, b.length))) ∧
      (∀ b f, decode b = .ok f ↔ f.encode = .ok b) ∧
      (∀ b f n, decodePrefix b = .ok (some (f, n)) →
        n ≤ b.length ∧ ∀ s, decodePrefix (b ++ s) = .ok (some (f, n))) ∧
      (∀ b e, decodePrefix b = .error e → ∀ s, decodePrefix (b ++ s) = .error e) ∧
      (∀ b, 8 ≤ b.length → decodePrefix b = .ok none → ∃ s f, decode (b ++ s) = .ok f) ∧
      (∀ b, 8 ≤ b.length → (WireVersion.mk (u16FromBeBytes (b.take 2))).isSupported = false →
        decodePrefix b = .error (.unsupportedWireVersion (u16FromBeBytes (b.take 2)))) ∧
      ∀ b, decodePrefixChecked b = some (decodePrefix b) := by
  refine ⟨fun f => ?_, fun f b h => ?_, fun b f => decode_eq_ok_iff, fun b f n h => ?_,
    fun b e => decodePrefix_error_append, fun b => exists_decode_append,
    fun b => decodePrefix_unsupported, decodePrefixChecked_eq⟩
  · constructor
    · rintro ⟨b, h⟩
      exact (encode_eq_ok_iff.mp h).1
    · intro h
      exact ⟨f.bytes, encode_eq_ok_iff.mpr ⟨h, rfl⟩⟩
  · refine ⟨decode_eq_ok_iff.mpr h, fun s => ?_⟩
    obtain ⟨hf, rfl⟩ := encode_eq_ok_iff.mp h
    exact decodePrefix_bytes hf s
  · exact ⟨prefixDecoder.consumed_le h, prefixDecoder.decode_append h⟩

end Frame

end Meshwarden.Proto
