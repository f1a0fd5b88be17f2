import Netpp.Echo.Message
import Netpp.Protobuf.Callbacks

/-! # The codec on the messages of the echo protocol

`echo` is protobuf as the two programs use it: the pool knows the two generated types, a
parser is `Fields.mergePartialFromCodedStream`, and a parser has stopped once it has
decided about bytes it was given.  With it nothing is left open in the codec.

* `createMessage_echo`: the lookup of a name that ends with its zero.
* `isFrame_echo`, `Message.frame`: what a message looks like on the wire.
* `fillEmptyBuffer_echo`, `onMessage_echo`: what `send` and `onMessage` make of it.
-/

namespace Netpp

namespace Echo

inductive MessageType where
  | request
  | response
  deriving DecidableEq, Repr

/-- `Echo.Request` and `Echo.Response`. -/
def MessageType.fullName : MessageType → Bytes
  | .request => [69, 99, 104, 111, 46, 82, 101, 113, 117, 101, 115, 116]
  | .response => [69, 99, 104, 111, 46, 82, 101, 115, 112, 111, 110, 115, 101]

/-- A message and its descriptor. -/
structure Message where
  type : MessageType
  fields : Fields
  deriving DecidableEq, Repr

def Message.request (m : Request) : Message := ⟨.request, m⟩

def Message.response (m : Response) : Message := ⟨.response, m⟩

/-- The descriptors are found by `name.c_str()`; they are there because a dispatcher has asked
    for one of them. -/
def findMessageTypeByName (name : Bytes) : Option MessageType :=
  let cStr := name.takeWhile fun b => b ≠ 0
  if cStr = MessageType.request.fullName then some .request
  else if cStr = MessageType.response.fullName then some .response
  else none

def echo : Protobuf where
  Descriptor := MessageType
  Message := Message
  findMessageTypeByName := findMessageTypeByName
  newMessage type := some ⟨type, {}⟩
  getTypeName m := m.type.fullName
  serialize m := m.fields.serializeWithCachedSizes
  malformed m d := decide ((m.fields.parseFromBytes d).halt = .stop)
  unread m d := (m.fields.parseFromBytes d).unread.length
  merge m d := ⟨m.type, (m.fields.parseFromBytes d).message⟩

theorem createMessage_echo (type : MessageType) :
    ProtobufCodec.createMessage echo (type.fullName ++ [0]) = some ⟨type, {}⟩ := by
  cases type <;> rfl

namespace Message

/-- The text is read back, and its frame fits into a piece. -/
def Sendable (message : Message) : Prop :=
  message.fields.Writable ∧ 0 < message.fields.text.length ∧ message.fields.text.length ≤ 4051

def payload (message : Message) : Bytes := message.fields.serializeWithCachedSizes

def frame (message : Message) : Bytes :=
  ProtobufCodec.frame message.type.fullName message.payload

variable {message : Message}

theorem length_fullName (type : MessageType) :
    12 ≤ type.fullName.length ∧ type.fullName.length ≤ 13 := by
  cases type <;> decide

theorem length_payload (h : message.Sendable) :
    0 < message.payload.length ∧ message.payload.length ≤ message.fields.text.length + 22 := by
  obtain ⟨⟨hlen, _⟩, hpos, _⟩ := h
  have hid : (ByteReader.varintBytes message.fields.id.toUInt64.toNat).length ≤ 10 :=
    ByteReader.length_varintBytes (Nat.lt_trans message.fields.id.toUInt64.toNat_lt (by decide))
  have htext : (ByteReader.varintBytes message.fields.text.length).length ≤ 10 :=
    ByteReader.length_varintBytes (Nat.lt_trans hlen (by decide))
  have htags := Fields.length_knownTags
  simp only [payload, Fields.serializeWithCachedSizes, hpos, if_true, Fields.idBytes,
    Fields.textBytes, WireFormat.stringBytes, List.length_append, htags.2]
  split
  · simp only [List.length_append, htags.1]
    omega
  · simp only [List.length_nil]
    omega

theorem isFrame_echo (h : message.Sendable) :
    ProtobufCodec.IsFrame message.type.fullName message.payload message.frame := by
  have hname := length_fullName message.type
  have hpayload := length_payload h
  have htext := h.2.2
  apply ProtobufCodec.isFrame_frame
  · simp only [ProtobufCodec.kMinMessageLen, ProtobufCodec.kHeaderLen]
    omega
  · simp only [ProtobufCodec.kMaxMessageLen]
    omega

theorem length_frame (h : message.Sendable) :
    0 < message.frame.length ∧ message.frame.length < kPieceCapacity := by
  have hname := length_fullName message.type
  have hpayload := length_payload h
  have htext := h.2.2
  rw [(isFrame_echo h).length, kPieceCapacity]
  omega

/-- The parser reads a payload to its end and makes the message of it. -/
theorem merge_echo (h : message.Sendable) :
    echo.merge ⟨message.type, {}⟩ message.payload = message ∧
    ∀ j, echo.malformed ⟨message.type, {}⟩ (message.payload.take j) = false := by
  have hparse : ∀ m : Fields, m.parseFromBytes message.payload = ⟨message.fields, true, .more, []⟩ :=
    fun m => Fields.parseFromBytes_serialize h.1 m
  refine ⟨?_, fun j => ?_⟩
  · show (⟨message.type, (Fields.parseFromBytes {} message.payload).message⟩ : Message) = message
    rw [hparse]
  · have hmore : (Fields.mergeFromBytes {} message.payload).halt = .more := by
      have hclear := hparse {}
      rw [Fields.parseFromBytes] at hclear
      rw [show (Fields.clear {}) = {} from rfl] at hclear
      rw [hclear]
    have hhalt := Fields.halt_take hmore j
    have hhalt' : (Fields.parseFromBytes {} (message.payload.take j)).halt = .more := hhalt
    show decide ((Fields.parseFromBytes {} (message.payload.take j)).halt = .stop) = false
    rw [hhalt']
    rfl

end Message

section Codec

variable {σ : Type} {build : Build} {m : Mem} {b : Buffer} {ps rest : List Ptr} {k : Nat}
  {message : Message}

/-- `ProtobufCodec::send` up to the buffer it passes to the connection. -/
theorem fillEmptyBuffer_echo (h : message.Sendable) (howns : Owns m rest k) :
    (ProtobufCodec.fillEmptyBuffer echo {} message).wp build m fun b' m' => ∃ p,
      b'.Rep m' [p] ∧ Owns m' (p :: rest) k ∧ SameOn rest m m' ∧ content m' [p] = message.frame := by
  have hname := Message.length_fullName message.type
  have hpayload := Message.length_payload h
  have htext := h.2.2
  apply ProtobufCodec.fillFrame_short
  · exact Nat.le_trans (Nat.succ_le_succ hname.2) (by decide)
  · exact List.length_pos_iff.mp hpayload.1
  · show 8 + (message.type.fullName.length + 1) + message.payload.length < kPieceCapacity
    rw [kPieceCapacity]
    omega
  · exact howns

/-- `onMessage` on the frame of a message calls the message callback with the message. -/
theorem onMessage_echo {messageCallback : Message → σ → ConnExec σ}
    {errorCallback : ErrorCode → σ → ConnExec σ} {s : σ} {Q : σ × Buffer → Mem → Prop}
    (hsendable : message.Sendable) (h : ProtobufCodec.Pending m b ps rest k message.frame)
    (hready : ProtobufCodec.HeaderReady m ps)
    (hcallback : ∀ b₁ m₁, b₁.Rep m₁ [] → Owns m₁ rest k → SameOn rest m m₁ →
      (messageCallback message s).wp build m₁ fun s' m' => Q (s', b₁) m') :
    (@ProtobufCodec.onMessageWith echo _ messageCallback errorCallback (b.length + 1) b s).wp
      build m Q := by
  obtain ⟨hmerge, hread⟩ := Message.merge_echo hsendable
  have hframe := Message.isFrame_echo hsendable
  have hlen : b.length = message.frame.length := by rw [h.rep.length, h.bytes]
  have hlength := hframe.length
  refine ProtobufCodec.onMessageWith_frame hframe h hready (createMessage_echo message.type) hread
    ?_ ?_
  · omega
  · rw [hmerge]
    exact hcallback

end Codec

end Echo

end Netpp
