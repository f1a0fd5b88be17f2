import Mathlib.Data.List.Basic
import Netpp.Piece.Memory
import Netpp.Protobuf.WireFormat

/-! # The messages of the echo protocol

`echo.proto` has two messages, an id and a text each, and `echo.pb.cc` their generated
classes.  They differ in names only, so `Fields` is both of them.

* `Fields.mergePartialFromCodedStream`: the parser.  It keeps what it has read when it
  stops, as the codec uses the message whether the parser succeeds or not.
* `Record`: the fields on the wire, in any order and with unknown ones among them.
* `parses_records`: what the parser makes of them.
-/

namespace Netpp

namespace Echo

open ByteReader WireFormat

structure Fields where
  id : Int64 := 0
  text : Bytes := []
  deriving DecidableEq, Repr

abbrev Request := Fields

abbrev Response := Fields

def Request.ask (m : Request) : Bytes := m.text

def Response.answer (m : Response) : Bytes := m.text

/-! ## `IsStructurallyValidUTF8` -/

/-- A state of `utf8acceptnonsurrogates`; state 8, behind the head of a surrogate, accepts
    nothing. -/
def utf8Next (state : Nat) (b : UInt8) : Option Nat :=
  let isIn (first last : UInt8) : Bool := decide (first ≤ b) && decide (b ≤ last)
  match state with
  | 0 =>
    if b < 0x80 then some 0
    else if isIn 0xC2 0xDF then some 1
    else if b = 0xE0 then some 2
    else if b = 0xED then some 7
    else if isIn 0xE1 0xEF then some 3
    else if b = 0xF0 then some 4
    else if isIn 0xF1 0xF3 then some 5
    else if b = 0xF4 then some 6
    else none
  | 1 => if isIn 0x80 0xBF then some 0 else none
  | 2 => if isIn 0xA0 0xBF then some 1 else none
  | 3 => if isIn 0x80 0xBF then some 1 else none
  | 4 => if isIn 0x90 0xBF then some 3 else none
  | 5 => if isIn 0x80 0xBF then some 3 else none
  | 6 => if isIn 0x80 0x8F then some 3 else none
  | 7 => if isIn 0x80 0x9F then some 1 else if isIn 0xA0 0xBF then some 8 else none
  | _ => none

/-- The scan ends where it began, between two characters. -/
def isStructurallyValidUTF8 (d : Bytes) : Bool := d.foldlM utf8Next 0 = some 0

namespace Fields

/-! ## Parsing -/

/-- The message while it is being parsed. -/
structure Parsing where
  message : Fields
  atTag : Bool := false   -- the parser is reading a tag, where the stream may end

def Parsing.setId (x : Nat) (s : Parsing) : Parsing :=
  { s with message := { s.message with id := (UInt64.ofNat x).toInt64 } }

def Parsing.setText (d : Bytes) (s : Parsing) : Parsing :=
  { s with message := { s.message with text := d } }

/-- One round of the loop, behind its tag.  Tags above the cutoff are not looked at. -/
def mergeField (tag : Nat) : ByteReader Parsing Unit :=
  if tag ≤ 127 ∧ getTagFieldNumber tag = 1 ∧ tag % 256 = 8 then do
    let x ← readVarint64
    update (Parsing.setId x)
  else if tag ≤ 127 ∧ getTagFieldNumber tag = 2 ∧ tag % 256 = 18 then do
    readString Parsing.setText
    check fun s => isStructurallyValidUTF8 s.message.text
  else skipField kRecursionLimit tag

/-- It reads on until there is no tag, with success, or a field cannot be read. -/
def mergePartialFromCodedStream : ByteReader Parsing Empty :=
  untilSome do
    update fun s => { s with atTag := true }
    let tag ← readTag
    update fun s => { s with atTag := false }
    mergeField tag
    pure none

def clear (_ : Fields) : Fields := {}

/-- What the parser leaves: the message, what `MergePartialFromCodedStream` returns, and what it has
    not read. -/
structure Parsed where
  message : Fields
  success : Bool
  halt : Halt
  unread : Bytes

def mergeFromBytes (m : Fields) (d : Bytes) : Parsed :=
  match mergePartialFromCodedStream ({ message := m }, d) with
  | (.error h, s, d') => ⟨s.message, s.atTag, h, d'⟩
  | (.ok a, _, _) => nomatch a

/-- `ParseFromZeroCopyStream`, up to its own result. -/
def parseFromBytes (m : Fields) (d : Bytes) : Parsed := m.clear.mergeFromBytes d

/-! ## Writing -/

def kIdTag : Nat := makeTag 1 .varint

def kTextTag : Nat := makeTag 2 .lengthDelimited

def idBytes (id : Int64) : Bytes := tagBytes kIdTag ++ varintBytes id.toUInt64.toNat

def textBytes (text : Bytes) : Bytes := tagBytes kTextTag ++ stringBytes text

/-- A text that is not valid is only reported. -/
def serializeWithCachedSizes (m : Fields) : Bytes :=
  (if m.id ≠ 0 then idBytes m.id else []) ++ if 0 < m.text.length then textBytes m.text else []

def mergeFrom (m source : Fields) : Fields :=
  { id := if source.id ≠ 0 then source.id else m.id
    text := if 0 < source.text.length then source.text else m.text }

/-! ## The parser may be given the stream piece by piece -/

theorem steady_mergeField (tag : Nat) : Steady (mergeField tag) := by
  unfold mergeField
  split
  · exact steady_readVarint64.bind fun _ => steady_update _
  · split
    · exact (steady_readString _).bind fun _ => steady_check _
    · exact steady_skipField _ _

theorem steady_round : Steady (do
    update fun s => { s with atTag := true }
    let tag ← readTag
    update fun s => { s with atTag := false }
    mergeField tag
    pure none : ByteReader Parsing (Option Empty)) := by
  refine (steady_update _).bind fun _ => steady_readTag.bind fun tag => ?_
  exact (steady_update _).bind fun _ => (steady_mergeField tag).bind fun _ => steady_pure _

theorem advances_round : Advances (do
    update fun s => { s with atTag := true }
    let tag ← readTag
    update fun s => { s with atTag := false }
    mergeField tag
    pure none : ByteReader Parsing (Option Empty)) := by
  refine Advances.after (steady_update _) fun _ => advances_readTag.bind fun tag => ?_
  exact (steady_update _).bind fun _ => (steady_mergeField tag).bind fun _ => steady_pure _

theorem steady_mergePartialFromCodedStream : Steady mergePartialFromCodedStream :=
  steady_untilSome steady_round advances_round

/-- Where the parser has stopped it stops on every stream that goes on from there, with the same
    message, and the rest of the stream is not read. -/
theorem mergeFromBytes_append {m : Fields} {d : Bytes} (h : (m.mergeFromBytes d).halt = .stop)
    (e : Bytes) : m.mergeFromBytes (d ++ e) =
      { m.mergeFromBytes d with unread := (m.mergeFromBytes d).unread ++ e } := by
  have happend := steady_mergePartialFromCodedStream.append { message := m } d e
  unfold mergeFromBytes at h ⊢
  match hrun : mergePartialFromCodedStream ({ message := m }, d) with
  | (.error halt, s, d') =>
    rw [hrun] at h happend
    obtain rfl : halt = .stop := h
    rw [happend (by simp)]
  | (.ok a, _, _) => nomatch a

/-- If it reads a stream to its end it stops at no earlier byte. -/
theorem halt_take {m : Fields} {d : Bytes} (h : (m.mergeFromBytes d).halt = .more) (n : Nat) :
    (m.mergeFromBytes (d.take n)).halt = .more := by
  cases hhalt : (m.mergeFromBytes (d.take n)).halt with
  | more => rfl
  | stop =>
    have hstop := mergeFromBytes_append hhalt (d.drop n)
    rw [List.take_append_drop] at hstop
    rw [hstop] at h
    exact absurd (hhalt.symm.trans h) (by simp)

end Fields

/-! ## What is on the wire -/

/-- A field with its tag. -/
inductive Record where
  | id (x : Int64)
  | text (d : Bytes)
  | unknown (tag : Nat) (d : Bytes)

namespace Record

def bytes : Record → Bytes
  | id x => Fields.idBytes x
  | text d => Fields.textBytes d
  | unknown tag d => tagBytes tag ++ d

def apply (m : Fields) : Record → Fields
  | id x => { m with id := x }
  | text d => { m with text := d }
  | unknown _ _ => m

/-- Texts are UTF-8 and not longer than the wire format allows; unknown fields have another
    tag and a body that fits it. -/
def Legal : Record → Prop
  | id _ => True
  | text d => d.length < 2 ^ 31 ∧ isStructurallyValidUTF8 d = true
  | unknown tag d => IsTag tag ∧ tag ≠ Fields.kIdTag ∧ tag ≠ Fields.kTextTag ∧
      FieldBody kRecursionLimit tag d

end Record

section Records

open Fields

variable {r : Record} {rs : List Record} {s : Parsing}

theorem isTag_known : IsTag kIdTag ∧ IsTag kTextTag := by
  unfold IsTag
  decide

theorem mergeField_unknown {tag : Nat} (hid : tag ≠ kIdTag) (htext : tag ≠ kTextTag) :
    mergeField tag = skipField kRecursionLimit tag := by
  have hid' : tag ≠ 8 := hid
  have htext' : tag ≠ 18 := htext
  unfold mergeField
  rw [if_neg (by omega), if_neg (by omega)]

theorem mergeField_record (h : r.Legal) (s : Parsing) (d : Bytes) :
    ∃ tag body, IsTag tag ∧ r.bytes = tagBytes tag ++ body ∧
      mergeField tag (s, body ++ d) = (.ok (), { s with message := r.apply s.message }, d) := by
  cases r with
  | id x =>
    refine ⟨kIdTag, _, isTag_known.1, rfl, ?_⟩
    have hmerge : mergeField kIdTag = (do
        let x ← readVarint64
        update (Parsing.setId x)) := rfl
    rw [hmerge, bind_apply, readVarint64_bytes x.toUInt64.toNat_lt]
    simp only [update, Parsing.setId, UInt64.ofNat_toNat, Int64.toInt64_toUInt64, Record.apply]
  | text t =>
    obtain ⟨hlen, hvalid⟩ := h
    refine ⟨kTextTag, _, isTag_known.2, rfl, ?_⟩
    have hmerge : mergeField kTextTag = (do
        readString Parsing.setText
        check fun s => isStructurallyValidUTF8 s.message.text) := rfl
    rw [hmerge, bind_apply, readString_bytes _ hlen]
    simp only [check, Parsing.setText, hvalid, if_true, Record.apply]
  | unknown tag body =>
    obtain ⟨htag, hid, htext, hbody⟩ := h
    refine ⟨tag, body, htag, rfl, ?_⟩
    rw [mergeField_unknown hid htext, skipField_body hbody htag]
    rfl

theorem mergePartial_record (h : r.Legal) (s : Parsing) (d : Bytes) :
    ∃ s', s'.message = r.apply s.message ∧
      mergePartialFromCodedStream (s, r.bytes ++ d) = mergePartialFromCodedStream (s', d) := by
  obtain ⟨tag, body, htag, hbytes, hmerge⟩ :=
    mergeField_record h { message := s.message, atTag := false } d
  refine ⟨{ message := r.apply s.message, atTag := false }, rfl, ?_⟩
  rw [mergePartialFromCodedStream, untilSome_eq advances_round, hbytes, List.append_assoc]
  simp only [bind_apply, update, readTag_bytes htag, hmerge, pure_apply]

theorem mergePartial_records (h : ∀ r ∈ rs, r.Legal) (s : Parsing) (d : Bytes) :
    ∃ s', s'.message = rs.foldl (fun m r => r.apply m) s.message ∧
      mergePartialFromCodedStream (s, rs.flatMap Record.bytes ++ d) =
        mergePartialFromCodedStream (s', d) := by
  induction rs generalizing s with
  | nil => exact ⟨s, rfl, rfl⟩
  | cons r rs ih =>
    obtain ⟨s₁, hmessage, hround⟩ :=
      mergePartial_record (h r (by simp)) s (rs.flatMap Record.bytes ++ d)
    obtain ⟨s', hrest, hrounds⟩ := ih (fun r hr => h r (by simp [hr])) s₁
    refine ⟨s', ?_, ?_⟩
    · rw [hrest, hmessage, List.foldl_cons]
    · rw [List.flatMap_cons, List.append_assoc, hround, hrounds]

theorem mergePartial_nil (s : Parsing) :
    mergePartialFromCodedStream (s, []) = (.error .more, { s with atTag := true }, []) := by
  rw [mergePartialFromCodedStream, untilSome_eq advances_round]
  rfl

end Records

/-! ## Round trips -/

namespace Fields

variable {m : Fields} {ms : List Fields}

/-- protobuf's own limits on what can be written and read back. -/
def Writable (m : Fields) : Prop :=
  m.text.length < 2 ^ 31 ∧ isStructurallyValidUTF8 m.text = true

/-- The fields that are written; the others have their default. -/
def records (m : Fields) : List Record :=
  (if m.id ≠ 0 then [.id m.id] else []) ++ if 0 < m.text.length then [.text m.text] else []

theorem flatMap_records (m : Fields) :
    m.records.flatMap Record.bytes = m.serializeWithCachedSizes := by
  unfold records serializeWithCachedSizes
  split <;> split <;> simp [Record.bytes]

theorem foldl_records (m source : Fields) :
    source.records.foldl (fun m r => r.apply m) m = m.mergeFrom source := by
  unfold records mergeFrom
  split <;> split <;> rfl

theorem Writable.legal (h : m.Writable) : ∀ r ∈ m.records, r.Legal := by
  intro r hr
  cases List.mem_append.mp hr with
  | inl hid =>
    split at hid
    · rw [List.mem_singleton.mp hid]
      trivial
    · cases hid
  | inr htext =>
    split at htext
    · rw [List.mem_singleton.mp htext]
      exact h
    · cases htext

theorem clear_mergeFrom (m source : Fields) : m.clear.mergeFrom source = source := by
  unfold clear mergeFrom
  obtain ⟨id, text⟩ := source
  have hid : (if id ≠ 0 then id else 0) = id := by
    split
    · rfl
    · rename_i hzero
      exact (not_not.mp hzero).symm
  have htext : (if 0 < text.length then text else []) = text := by
    split
    · rfl
    · rename_i hempty
      exact (List.eq_nil_of_length_eq_zero (by omega)).symm
  simp only [hid, htext]

theorem length_knownTags : (tagBytes kIdTag).length = 1 ∧ (tagBytes kTextTag).length = 1 := by
  have hsmall : ∀ tag < 128, (tagBytes tag).length = 1 := by
    intro tag htag
    rw [tagBytes, varintBytes, if_pos htag]
    rfl
  exact ⟨hsmall _ (by decide), hsmall _ (by decide)⟩

theorem mergeFromBytes_serialize {source : Fields} (h : source.Writable) (m : Fields) :
    m.mergeFromBytes source.serializeWithCachedSizes = ⟨m.mergeFrom source, true, .more, []⟩ := by
  obtain ⟨s', hmessage, hrounds⟩ := mergePartial_records h.legal { message := m } []
  rw [List.append_nil, mergePartial_nil, flatMap_records] at hrounds
  rw [foldl_records] at hmessage
  simp only [mergeFromBytes, hrounds, hmessage]

theorem parseFromBytes_serialize {source : Fields} (h : source.Writable) (m : Fields) :
    m.parseFromBytes source.serializeWithCachedSizes = ⟨source, true, .more, []⟩ := by
  rw [parseFromBytes, mergeFromBytes_serialize h, clear_mergeFrom]

end Fields

end Echo

end Netpp
