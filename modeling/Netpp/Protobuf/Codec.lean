import Netpp.Protobuf.InputStream
import Netpp.Protobuf.OutputStream

/-! # `ProtobufCodec`

Framing of protobuf messages: `fillEmptyBuffer` writes a frame, `onMessage` takes
the frames out of an input buffer and `parse` decodes one of them.

protobuf itself is the parameter `Protobuf`.  It says which type a name finds and
what message the bytes read make; how the library drives the two zero-copy
streams is in `parseFromZeroCopyStream` and `serializeToZeroCopyStream`.
-/

namespace Netpp

inductive ErrorCode where
  | kNoError
  | kInvalidLength
  | kInvalidNameLen
  | kUnknownMessageType
  | kParseError
  deriving DecidableEq, Repr

structure Protobuf where
  Descriptor : Type
  Message : Type
  findMessageTypeByName : Bytes → Option Descriptor
  /-- `prototype->New()` for the prototype of a type, an empty message. -/
  newMessage : Descriptor → Option Message
  getTypeName : Message → Bytes
  serialize : Message → Bytes
  /-- Having read these bytes, the parser finds them malformed and stops. -/
  malformed : Message → Bytes → Bool
  /-- How many of the bytes it has read the parser does not take when it stops. -/
  unread : Message → Bytes → Nat := fun _ _ => 0
  /-- What the bytes that were read make of an empty message. -/
  merge : Message → Bytes → Message

/-! ## The parser's use of a stream -/

/-- The number of bytes of `data` the parser has read when it stops. -/
def firstStop (stop : Bytes → Bool) (seen data : Bytes) : Option Nat :=
  (List.range' 1 data.length).find? fun n => stop (seen ++ data.take n)

/-- `BackUpInputToCurrentPosition` -/
def backUpInput (s : BufferInputStream) (backupBytes : Nat) : Exec BufferInputStream :=
  if 0 < backupBytes then s.backUp backupBytes else pure s

/-- Reads areas until the stream ends or the parser stops, and backs up over what it
    has not taken of the last one, which may be all of it. -/
def parseLoop (stop : Bytes → Bool) (unread : Bytes → Nat) : Nat → BufferInputStream → Bytes →
    Exec (Bytes × BufferInputStream)
  | 0, _, _ => throw .outOfFuel
  | fuel + 1, s, seen => do
    let r ← s.next
    match r.1 with
    | none => pure (seen, r.2)
    | some data =>
      match firstStop stop seen data with
      | none => parseLoop stop unread fuel r.2 (seen ++ data)
      | some n =>
        let read := seen ++ data.take n
        let s ← backUpInput r.2 (data.length - (n - unread read))
        pure (read, s)

namespace Protobuf

variable (proto : Protobuf)

def parseFromZeroCopyStream (message : proto.Message) (s : BufferInputStream) :
    Exec (proto.Message × BufferInputStream) := do
  let n ← chainBound
  let r ← parseLoop (proto.malformed message) (proto.unread message) n s []
  pure (proto.merge message r.1, r.2)

end Protobuf

namespace ProtobufCodec

def kHeaderLen : Nat := 4
def kMinMessageLen : Nat := 2 * kHeaderLen + 2
def kMaxMessageLen : Nat := 64 * 1024 * 1024

variable (proto : Protobuf)

/-! ## Encoding -/

/-- `memcpy` of `len` bytes from a string and its terminating zero. -/
def cString (s : Bytes) (len : Nat) : Exec Bytes :=
  if len ≤ s.length + 1 then pure ((s ++ [0]).take len) else throw .overrun

/-- `static_cast<int32_t>(typeName.size() + 1)` -/
def nameLen (typeName : Bytes) : Int := signedWord 32 (u32 (typeName.length + 1))

/-- `fillEmptyBuffer` for a message of this type name and serialized payload. -/
def fillFrame (buf : Buffer) (typeName payload : Bytes) : Exec Buffer := do
  let buf ← buf.reservedPrepend 4
  let buf ← buf.writeInt32 (nameLen typeName)
  -- the length is passed as a `size_t`
  let name ← cString typeName (unsignedWord 64 (nameLen typeName))
  let buf ← buf.write name
  let buf ← BufferOutputStream.serializeToZeroCopyStream buf payload
  buf.prependInt32 buf.length

def fillEmptyBuffer (buf : Buffer) (message : proto.Message) : Exec Buffer :=
  fillFrame buf (proto.getTypeName message) (proto.serialize message)

/-! ## Decoding -/

def createMessage (typeName : Bytes) : Option proto.Message := do
  let descriptor ← proto.findMessageTypeByName typeName
  proto.newMessage descriptor

/-- `len`, the length field of the frame, is not used. -/
def parse (buf : Buffer) (_len : Int) (error : ErrorCode) :
    Exec ((Option proto.Message × ErrorCode) × Buffer) := do
  let r ← buf.readInt32
  if 0 < r.1 then
    if r.1.toNat ≤ r.2.length then
      let name ← r.2.readString r.1.toNat
      match createMessage proto name.1 with
      | some message =>
        let parsed ← proto.parseFromZeroCopyStream message (.ofBuffer name.2)
        let buf ← parsed.2.destroy
        pure ((some parsed.1, error), buf)
      | none => pure ((none, .kUnknownMessageType), name.2)
    else pure ((none, .kParseError), r.2)
  else pure ((none, .kInvalidNameLen), r.2)

/-- What `onMessage` finds at the front of the buffer. -/
inductive Branch where
  | tooShort
  | invalidLength
  | incomplete
  | complete (len : Int)
  deriving DecidableEq

def branch (buf : Buffer) : Exec Branch :=
  if kMinMessageLen + kHeaderLen ≤ buf.length then do
    let len ← buf.peekInt32
    if len > kMaxMessageLen ∨ len < kMinMessageLen then pure .invalidLength
    else if (len + kHeaderLen).toNat ≤ buf.length then pure (.complete len)
    else pure .incomplete
  else pure .tooShort

/-- An invocation of `messageCallback_` or `errorCallback_`. -/
inductive Callback where
  | message (m : proto.Message)
  | error (code : ErrorCode)

def onMessageLoop : Nat → Buffer → Exec (List (Callback proto) × Buffer)
  | 0, _ => throw .outOfFuel
  | fuel + 1, buf => do
    match ← branch buf with
    | .invalidLength => pure ([.error .kInvalidLength], buf)
    | .complete len =>
      let buf ← buf.skip kHeaderLen
      let r ← parse proto buf len .kNoError
      match r.1 with
      | (some message, .kNoError) =>
        let rest ← onMessageLoop fuel r.2
        pure (.message message :: rest.1, rest.2)
      | (_, error) => pure ([.error error], r.2)
    | _ => pure ([], buf)

/-- Each round but the last takes a header off the buffer. -/
def onMessage (buf : Buffer) : Exec (List (Callback proto) × Buffer) :=
  onMessageLoop proto (buf.length + 1) buf

/-! ## The format of a frame -/

/-- The bytes `fillEmptyBuffer` takes from the type name. -/
def nameField (typeName : Bytes) : Bytes :=
  (typeName ++ [0]).take (unsignedWord 64 (nameLen typeName))

/-- What stands behind the length field of a frame. -/
def frameBody (typeName payload : Bytes) : Bytes :=
  intBytes 4 (nameLen typeName) ++ nameField typeName ++ BufferOutputStream.serialized payload

def frame (typeName payload : Bytes) : Bytes :=
  intBytes 4 (frameBody typeName payload).length ++ frameBody typeName payload

section Encoder

variable {build : Build} {m : Mem} {b : Buffer} {p : Ptr} {ps qs rest : List Ptr} {k : Nat}
  {typeName payload : Bytes}

@[simp] theorem length_intBytes (width : Nat) (x : Int) : (intBytes width x).length = width := by
  simp [intBytes]

theorem nameLen_of_limits (h : typeName.length + 1 ≤ 2147483647) :
    nameLen typeName = (typeName.length + 1 : Nat) ∧ nameField typeName = typeName ++ [0] := by
  have hword : u32 (typeName.length + 1) = typeName.length + 1 := Nat.mod_eq_of_lt (by omega)
  have hname : nameLen typeName = (typeName.length + 1 : Nat) := by
    rw [nameLen, hword, signedWord, if_pos (by omega)]
  refine ⟨hname, ?_⟩
  rw [nameField, hname, unsignedWord_natCast, Nat.mod_eq_of_lt (by omega)]
  exact List.take_of_length_le (by simp)

/-- The frame up to its payload, behind the headroom for the length field. -/
def fillHead (buf : Buffer) (typeName : Bytes) : Exec Buffer := do
  let buf ← buf.reservedPrepend 4
  let buf ← buf.writeInt32 (nameLen typeName)
  let name ← cString typeName (unsignedWord 64 (nameLen typeName))
  buf.write name

theorem fillFrame_eq (buf : Buffer) :
    fillFrame buf typeName payload = (do
      let buf ← fillHead buf typeName
      let buf ← BufferOutputStream.serializeToZeroCopyStream buf payload
      buf.prependInt32 buf.length) := by
  simp only [fillFrame, fillHead, bind_assoc]

theorem fillHead_spec (hb : b.Rep m []) (howns : Owns m rest k)
    (hname : unsignedWord 64 (nameLen typeName) ≤ typeName.length + 1) :
    (fillHead b typeName).wp build m fun b' m' => ∃ p qs,
      b'.Rep m' (p :: qs) ∧ Owns m' (p :: qs ++ rest) k ∧ SameOn rest m m' ∧ (m'.cell p).off = 4 ∧
      content m' (p :: qs) = intBytes 4 (nameLen typeName) ++ nameField typeName := by
  simp only [fillHead, Prog.wp_bind]
  refine (Buffer.reservedPrepend_spec hb howns (by decide)).imp ?_
  rintro b₁ m₁ ⟨p, hb₁, howns₁, hsame₁, hoff₁, hc₁⟩
  refine (Buffer.write_spec hb₁ howns₁).imp ?_
  rintro b₂ m₂ ⟨ps₂, hb₂, howns₂, hsame₂, hc₂, hext₂, _⟩
  obtain ⟨qs₂, rfl, hoff₂⟩ := hext₂.head
  simp only [cString, hname, if_true, Prog.wp_pure]
  refine (Buffer.write_spec hb₂ howns₂).imp ?_
  rintro b₃ m₃ ⟨ps₃, hb₃, howns₃, hsame₃, hc₃, hext₃, _⟩
  obtain ⟨qs₃, rfl, hoff₃⟩ := hext₃.head
  refine ⟨p, qs₃, hb₃, howns₃, (hsame₁.trans hsame₂).trans hsame₃, by rw [hoff₃, hoff₂, hoff₁], ?_⟩
  rw [hc₃, hc₂, hc₁]
  rfl

theorem prependLength_spec (hb : b.Rep m (p :: qs)) (howns : Owns m (p :: qs ++ rest) k)
    (hoff : (m.cell p).off = 4) :
    (b.prependInt32 b.length).wp build m fun b' m' =>
      b'.Rep m' (p :: qs) ∧ Owns m' (p :: qs ++ rest) k ∧ SameOn rest m m' ∧
      content m' (p :: qs) = intBytes 4 (content m (p :: qs)).length ++ content m (p :: qs) ∧
      (m'.cell p).off = 0 ∧ 4 ≤ (m'.cell p).len := by
  rw [Buffer.prependInt32, hb.length]
  refine (Buffer.prepend_spec hb howns (by simp [hoff])).imp ?_
  intro b' m' ⟨hb', howns', hsame, hc, hoff', hlen'⟩
  rw [length_intBytes] at hoff' hlen'
  exact ⟨hb', howns', hsame, hc, by omega, by omega⟩

/-- The message can be serialized behind a name that is there: always in the
    Release build, in the Debug build unless `assert(len < last->len)` fails. -/
def Serializable (build : Build) (m : Mem) (ps : List Ptr) (payload : Bytes) : Prop :=
  build = .debug → BufferOutputStream.serialized payload ≠ [] ∨ BufferOutputStream.LastUsed m ps

theorem fillTail_spec (hb : b.Rep m (p :: qs)) (howns : Owns m (p :: qs ++ rest) k)
    (hoff : (m.cell p).off = 4) (hleft : Serializable build m (p :: qs) payload) :
    (do
      let buf ← BufferOutputStream.serializeToZeroCopyStream b payload
      buf.prependInt32 buf.length : Exec Buffer).wp build m fun b' m' => ∃ ps',
      b'.Rep m' ps' ∧ Owns m' (ps' ++ rest) k ∧ SameOn rest m m' ∧
      content m' ps' =
        intBytes 4 (content m (p :: qs) ++ BufferOutputStream.serialized payload).length ++
          (content m (p :: qs) ++ BufferOutputStream.serialized payload) := by
  simp only [BufferOutputStream.serializeToZeroCopyStream, Prog.wp_bind]
  refine (BufferOutputStream.serializeLoop_spec hb howns (Nat.lt_succ_self _) hleft).imp ?_
  rintro b₁ m₁ ⟨ps₁, hb₁, howns₁, hsame₁, hc₁, hext₁⟩
  obtain ⟨qs₁, rfl, hoff₁⟩ := hext₁.head
  refine (prependLength_spec hb₁ howns₁ (hoff₁.trans hoff)).imp ?_
  rintro b₂ m₂ ⟨hb₂, howns₂, hsame₂, hc₂, _⟩
  exact ⟨p :: qs₁, hb₂, howns₂, hsame₁.trans hsame₂, by rw [hc₂, hc₁]⟩

/-- Whenever `fillEmptyBuffer` returns, the buffer holds the frame. -/
theorem fillFrame_ok {b' : Buffer} {m' : Mem} (hb : b.Rep m []) (howns : Owns m rest k)
    (hrun : fillFrame b typeName payload build m = .ok (b', m')) :
    ∃ ps', b'.Rep m' ps' ∧ Owns m' (ps' ++ rest) k ∧ SameOn rest m m' ∧
      content m' ps' = frame typeName payload ∧
      unsignedWord 64 (nameLen typeName) ≤ typeName.length + 1 := by
  have hwp : (fillFrame b typeName payload).wp build m fun b m => b = b' ∧ m = m' :=
    ⟨b', m', hrun, rfl, rfl⟩
  have hname : unsignedWord 64 (nameLen typeName) ≤ typeName.length + 1 := by
    by_contra hlong
    simp only [fillFrame, Prog.wp_bind, cString, hlong, if_false] at hwp
    obtain ⟨b₁, m₁, _, b₂, m₂, _, hthrow⟩ := hwp
    exact Prog.wp_throw _ _ _ _ hthrow
  rw [fillFrame_eq, Prog.wp_bind] at hwp
  obtain ⟨b₁, m₁, _, ⟨p, qs, hb₁, howns₁, hsame₁, hoff₁, hc₁⟩, htail⟩ :=
    (fillHead_spec hb howns hname).and hwp
  have hleft : Serializable build m₁ (p :: qs) payload := by
    intro hbuild
    by_cases hnil : BufferOutputStream.serialized payload = []
    · rw [Prog.wp_bind, BufferOutputStream.serializeToZeroCopyStream, hnil, hbuild] at htail
      exact .inr (BufferOutputStream.lastUsed_of_serializeLoop hb₁ howns₁ htail)
    · exact .inl hnil
  obtain ⟨b₂, m₂, _, ⟨ps', hb₂, howns₂, hsame₂, hc₂⟩, rfl, rfl⟩ :=
    (fillTail_spec hb₁ howns₁ hoff₁ hleft).and htail
  refine ⟨ps', hb₂, howns₂, hsame₁.trans hsame₂, ?_, hname⟩
  rw [hc₂, hc₁]
  rfl

/-- In the Release build `fillEmptyBuffer` returns, for every type name of fewer
    than `2^31` bytes. -/
theorem fillFrame_release (hb : b.Rep m []) (howns : Owns m rest k)
    (hname : unsignedWord 64 (nameLen typeName) ≤ typeName.length + 1) :
    ∃ b' m', fillFrame b typeName payload .release m = .ok (b', m') := by
  have hwp : (fillFrame b typeName payload).wp .release m fun _ _ => True := by
    rw [fillFrame_eq, Prog.wp_bind]
    refine (fillHead_spec hb howns hname).imp ?_
    intro b₁ m₁ ⟨p, qs, hb₁, howns₁, _, hoff₁, _⟩
    exact (fillTail_spec hb₁ howns₁ hoff₁ fun h => by cases h).imp fun _ _ _ => trivial
  obtain ⟨b', m', hrun, _⟩ := hwp
  exact ⟨b', m', hrun⟩

end Encoder

end ProtobufCodec

end Netpp
