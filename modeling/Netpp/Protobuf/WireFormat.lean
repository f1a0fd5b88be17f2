import Netpp.Lib.ByteReader

/-! # The wire format of protobuf

What the generated parsers use of `CodedInputStream` and `WireFormat`: tags, numbers,
strings, and `SkipField` for the fields a message type does not know.  A stream is the
bytes that the areas of the `ZeroCopyInputStream` make up together.

* `FieldBody`: what may stand behind a tag, with groups nested up to the recursion
  limit.
* `skipField_body`: `SkipField` takes exactly that.
* `steady_skipField`: it may be given the stream piece by piece.
-/

namespace Netpp

namespace WireFormat

open ByteReader

variable {σ : Type}

/-! ## `CodedInputStream` -/

def kMaxVarintBytes : Nat := 10

/-- Bits that do not fit are dropped. -/
def readVarint64 : ByteReader σ Nat := do
  let x ← varint kMaxVarintBytes
  pure (x % 2 ^ 64)

def readVarint32 : ByteReader σ Nat := do
  let x ← readVarint64
  pure (x % 2 ^ 32)

/-- `ReadTag`; 0 is what it returns when there is no tag. -/
def readTag : ByteReader σ Nat := do
  let tag ← readVarint32
  if tag = 0 then halt .stop else pure tag

/-- `WireFormatLite::ReadString`; `ReadString` of the stream takes the length as an `int`.
    When the stream ends inside the string, `put` gets what there was. -/
def readString (put : List UInt8 → σ → σ) : ByteReader σ Unit := do
  let length ← readVarint32
  if length < 2 ^ 31 then takeInto put length else halt .stop

/-! ## Tags -/

inductive WireType where
  | varint
  | fixed64
  | lengthDelimited
  | startGroup
  | endGroup
  | fixed32
  deriving DecidableEq, Repr

def WireType.code : WireType → Nat
  | .varint => 0
  | .fixed64 => 1
  | .lengthDelimited => 2
  | .startGroup => 3
  | .endGroup => 4
  | .fixed32 => 5

def getTagWireType (tag : Nat) : Option WireType :=
  match tag % 8 with
  | 0 => some .varint
  | 1 => some .fixed64
  | 2 => some .lengthDelimited
  | 3 => some .startGroup
  | 4 => some .endGroup
  | 5 => some .fixed32
  | _ => none

def getTagFieldNumber (tag : Nat) : Nat := tag / 8

def makeTag (fieldNumber : Nat) (type : WireType) : Nat := fieldNumber * 8 + type.code

/-! ## `SkipField` -/

def kRecursionLimit : Nat := 100

/-- `SkipMessage`, with what skips a field: up to a tag that ends a group, which is returned. -/
def skipMessageWith (skipField : Nat → ByteReader σ Unit) : ByteReader σ Nat :=
  untilSome do
    let tag ← readTag
    if getTagWireType tag = some .endGroup then pure (some tag)
    else do
      skipField tag
      pure none

/-- `SkipField`, with `budget` groups that may still be opened inside each other. -/
def skipField : Nat → Nat → ByteReader σ Unit
  | budget, tag =>
    -- "Field number 0 is illegal."
    if getTagFieldNumber tag = 0 then halt .stop
    else match getTagWireType tag with
    | some .varint => do
      let _ ← readVarint64
      pure ()
    | some .fixed64 => skip 8
    | some .lengthDelimited => readString fun _ s => s
    | some .startGroup =>
      match budget with
      | 0 => halt .stop
      | budget + 1 => do
        let last ← skipMessageWith (skipField budget)
        -- "Check that the ending tag matched the starting tag."
        if last = makeTag (getTagFieldNumber tag) .endGroup then pure () else halt .stop
    | some .endGroup => halt .stop
    | some .fixed32 => skip 4
    | none => halt .stop

/-! ## Readers that may be given the stream piece by piece -/

theorem steady_readVarint64 : Steady (readVarint64 : ByteReader σ Nat) :=
  (steady_varint _).bind fun _ => steady_pure _

theorem steady_readVarint32 : Steady (readVarint32 : ByteReader σ Nat) :=
  steady_readVarint64.bind fun _ => steady_pure _

theorem steady_readTag : Steady (readTag : ByteReader σ Nat) := by
  apply steady_readVarint32.bind
  intro tag
  split
  · exact steady_halt _
  · exact steady_pure _

theorem steady_readString (put : List UInt8 → σ → σ) : Steady (readString put) := by
  apply steady_readVarint32.bind
  intro length
  split
  · exact steady_takeInto _ _
  · exact steady_halt _

theorem advances_readTag : Advances (readTag : ByteReader σ Nat) := by
  have hnumber : Advances (readVarint32 : ByteReader σ Nat) := by
    apply Advances.bind
    · exact (advances_varint _).bind fun _ => steady_pure _
    · exact fun _ => steady_pure _
  apply hnumber.bind
  intro tag
  split
  · exact steady_halt _
  · exact steady_pure _

section SkipMessage

variable {skipField : Nat → ByteReader σ Unit}

theorem steady_skipBody (h : ∀ tag, Steady (skipField tag)) (tag : Nat) :
    Steady (if getTagWireType tag = some .endGroup then pure (some tag)
      else do
        skipField tag
        pure none : ByteReader σ (Option Nat)) := by
  split
  · exact steady_pure _
  · exact (h tag).bind fun _ => steady_pure _

theorem steady_skipMessageWith (h : ∀ tag, Steady (skipField tag)) :
    Steady (skipMessageWith skipField) :=
  steady_untilSome (steady_readTag.bind (steady_skipBody h)) (advances_readTag.bind (steady_skipBody h))

end SkipMessage

theorem steady_skipField (budget tag : Nat) : Steady (skipField budget tag : ByteReader σ Unit) := by
  induction budget generalizing tag with
  | zero =>
    unfold skipField
    split
    · exact steady_halt _
    · split
      · exact steady_readVarint64.bind fun _ => steady_pure _
      · exact steady_takeInto _ _
      · exact steady_readString _
      · exact steady_halt _
      · exact steady_halt _
      · exact steady_takeInto _ _
      · exact steady_halt _
  | succ budget ih =>
    unfold skipField
    split
    · exact steady_halt _
    · split
      · exact steady_readVarint64.bind fun _ => steady_pure _
      · exact steady_takeInto _ _
      · exact steady_readString _
      · apply (steady_skipMessageWith ih).bind
        intro last
        split
        · exact steady_pure _
        · exact steady_halt _
      · exact steady_halt _
      · exact steady_takeInto _ _
      · exact steady_halt _

/-! ## What is written -/

def tagBytes (tag : Nat) : List UInt8 := varintBytes tag

/-- A string with its length before it. -/
def stringBytes (d : List UInt8) : List UInt8 := varintBytes d.length ++ d

/-- A tag that stands for a field, or for the end of a group. -/
def IsTag (tag : Nat) : Prop := 0 < getTagFieldNumber tag ∧ tag < 2 ^ 32

/-- The fields of a group: their tags, and what stands behind them. -/
def fieldsBytes (fields : List (Nat × List UInt8)) : List UInt8 :=
  fields.flatMap fun field => tagBytes field.1 ++ field.2

/-- `d` may stand behind `tag`, with groups opened at most `budget` times inside each other. -/
inductive FieldBody : Nat → Nat → List UInt8 → Prop
  | varint {budget tag x : Nat} (type : getTagWireType tag = some .varint) (hx : x < 2 ^ 64) :
      FieldBody budget tag (varintBytes x)
  | fixed64 {budget tag : Nat} {d : List UInt8} (type : getTagWireType tag = some .fixed64)
      (hd : d.length = 8) : FieldBody budget tag d
  | lengthDelimited {budget tag : Nat} {d : List UInt8}
      (type : getTagWireType tag = some .lengthDelimited) (hd : d.length < 2 ^ 31) :
      FieldBody budget tag (stringBytes d)
  | group {budget tag : Nat} {fields : List (Nat × List UInt8)}
      (type : getTagWireType tag = some .startGroup) (tags : ∀ field ∈ fields, IsTag field.1)
      (inside : ∀ field ∈ fields, FieldBody budget field.1 field.2) :
      FieldBody (budget + 1) tag
        (fieldsBytes fields ++ tagBytes (makeTag (getTagFieldNumber tag) .endGroup))
  | fixed32 {budget tag : Nat} {d : List UInt8} (type : getTagWireType tag = some .fixed32)
      (hd : d.length = 4) : FieldBody budget tag d

section Reading

variable {budget tag x : Nat} {s : σ} {d e : List UInt8}

theorem readVarint64_bytes (h : x < 2 ^ 64) (s : σ) (d : List UInt8) :
    readVarint64 (s, varintBytes x ++ d) = (.ok x, s, d) := by
  have hdigits : x < 128 ^ (9 + 1) := Nat.lt_trans h (by decide)
  rw [readVarint64, bind_apply, kMaxVarintBytes, varint_varintBytes hdigits]
  simp only [pure_apply, Nat.mod_eq_of_lt h]

theorem readVarint32_bytes (h : x < 2 ^ 32) (s : σ) (d : List UInt8) :
    readVarint32 (s, varintBytes x ++ d) = (.ok x, s, d) := by
  rw [readVarint32, bind_apply, readVarint64_bytes (Nat.lt_trans h (by decide))]
  simp only [pure_apply, Nat.mod_eq_of_lt h]

theorem IsTag.ne_zero (h : IsTag tag) : tag ≠ 0 := by
  rintro rfl
  exact absurd h.1 (by decide)

theorem readTag_bytes (h : IsTag tag) (s : σ) (d : List UInt8) :
    readTag (s, tagBytes tag ++ d) = (.ok tag, s, d) := by
  rw [readTag, bind_apply, tagBytes, readVarint32_bytes h.2]
  simp only [h.ne_zero, if_false, pure_apply]

theorem readString_bytes (put : List UInt8 → σ → σ) (h : d.length < 2 ^ 31) (s : σ) (e : List UInt8) :
    readString put (s, stringBytes d ++ e) = (.ok (), put d s, e) := by
  have hword : d.length < 2 ^ 32 := Nat.lt_trans h (by decide)
  have hle : d.length ≤ (d ++ e).length := by
    rw [List.length_append]
    omega
  rw [readString, bind_apply, stringBytes, List.append_assoc, readVarint32_bytes hword]
  simp only [h, if_true, takeInto, hle, List.take_left' rfl, List.drop_left' rfl]

theorem skip_bytes {n : Nat} (h : d.length = n) (s : σ) (e : List UInt8) :
    skip n (s, d ++ e) = (.ok (), s, e) := by
  have hle : n ≤ (d ++ e).length := by
    rw [List.length_append]
    omega
  simp only [skip, takeInto, hle, if_true, List.drop_left' h]

theorem isTag_endGroup (h : IsTag tag) (type : getTagWireType tag = some .startGroup) :
    IsTag (makeTag (getTagFieldNumber tag) .endGroup) ∧
      getTagWireType (makeTag (getTagFieldNumber tag) .endGroup) = some .endGroup := by
  obtain ⟨hpos, hlt⟩ := h
  have hcode : tag % 8 = 3 := by
    unfold getTagWireType at type
    split at type <;> first | assumption | cases type
  simp only [getTagFieldNumber] at hpos
  simp only [IsTag, getTagFieldNumber, getTagWireType, makeTag, WireType.code]
  have hmod : (tag / 8 * 8 + 4) % 8 = 4 := by omega
  rw [hmod]
  exact ⟨⟨by omega, by omega⟩, rfl⟩

theorem skipMessageWith_fields {skipField : Nat → ByteReader σ Unit} {last : Nat}
    {fields : List (Nat × List UInt8)} (hsteady : ∀ tag, Steady (skipField tag))
    (tags : ∀ field ∈ fields, IsTag field.1 ∧ getTagWireType field.1 ≠ some .endGroup)
    (inside : ∀ field ∈ fields, ∀ d, skipField field.1 (s, field.2 ++ d) = (.ok (), s, d))
    (hlast : IsTag last) (type : getTagWireType last = some .endGroup) (d : List UInt8) :
    skipMessageWith skipField (s, fieldsBytes fields ++ tagBytes last ++ d) = (.ok last, s, d) := by
  have hadvances := advances_readTag.bind (steady_skipBody hsteady)
  induction fields with
  | nil =>
    rw [skipMessageWith, untilSome_eq hadvances, bind_apply]
    simp only [fieldsBytes, List.flatMap_nil, List.nil_append, readTag_bytes hlast, type, if_true,
      pure_apply]
  | cons field fields ih =>
    obtain ⟨htag, hnot⟩ := tags field (by simp)
    have hfield := inside field (by simp)
    have hrest := ih (fun f hf => tags f (by simp [hf])) (fun f hf => inside f (by simp [hf]))
    rw [skipMessageWith] at hrest ⊢
    rw [untilSome_eq hadvances, bind_apply]
    simp only [fieldsBytes, List.flatMap_cons, List.append_assoc, readTag_bytes htag, hnot, if_false,
      bind_apply, hfield, pure_apply]
    simp only [fieldsBytes, List.append_assoc] at hrest
    exact hrest

theorem FieldBody.not_endGroup (h : FieldBody budget tag d) : getTagWireType tag ≠ some .endGroup := by
  intro hend
  cases h with
  | varint type _ | fixed64 type _ | lengthDelimited type _ | group type _ _ | fixed32 type _ =>
    rw [type] at hend
    cases hend

/-- `SkipField` takes what stands behind its tag, and nothing else. -/
theorem skipField_body (h : FieldBody budget tag d) (htag : IsTag tag) (s : σ) (e : List UInt8) :
    skipField budget tag (s, d ++ e) = (.ok (), s, e) := by
  have hnumber : getTagFieldNumber tag ≠ 0 := Nat.pos_iff_ne_zero.mp htag.1
  induction h generalizing e with
  | varint type hx =>
    unfold skipField
    simp only [hnumber, if_false, type, bind_apply, readVarint64_bytes hx, pure_apply]
  | fixed64 type hd =>
    unfold skipField
    simp only [hnumber, if_false, type, skip_bytes hd]
  | lengthDelimited type hd =>
    unfold skipField
    simp only [hnumber, if_false, type, readString_bytes _ hd]
  | @group budget tag fields type tags inside ih =>
    obtain ⟨hlast, hend⟩ := isTag_endGroup htag type
    have hfields : ∀ field ∈ fields, ∀ d,
        skipField budget field.1 (s, field.2 ++ d) = (.ok (), s, d) := fun field hfield d =>
      ih field hfield (tags field hfield) d (Nat.pos_iff_ne_zero.mp (tags field hfield).1)
    have htags : ∀ field ∈ fields, IsTag field.1 ∧ getTagWireType field.1 ≠ some .endGroup :=
      fun field hfield => ⟨tags field hfield, (inside field hfield).not_endGroup⟩
    unfold skipField
    simp only [hnumber, if_false, type, bind_apply,
      skipMessageWith_fields (steady_skipField budget) htags hfields hlast hend e, if_true, pure_apply]
  | fixed32 type hd =>
    unfold skipField
    simp only [hnumber, if_false, type, skip_bytes hd]

end Reading

end WireFormat

end Netpp
