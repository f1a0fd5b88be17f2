import Netpp.Buffer.Peek
import Netpp.Protobuf.Codec

/-! # Which frames the decoder takes

`classify` is the decision `onMessage` makes on the bytes in front of it;
`branch_spec` says that the code makes it, provided the length field lies in one
piece.  The encoder does not consult the decoder's bounds, so the two agree only
on the messages of `Admissible`.
-/

namespace Netpp

namespace ProtobufCodec

/-! ## The decoder's decision -/

def classify (d : Bytes) : Branch :=
  if kMinMessageLen + kHeaderLen ≤ d.length then
    let len := bytesInt (d.take 4)
    if len > kMaxMessageLen ∨ len < kMinMessageLen then .invalidLength
    else if (len + kHeaderLen).toNat ≤ d.length then .complete len
    else .incomplete
  else .tooShort

section Decoder

variable {build : Build} {m : Mem} {b : Buffer} {ps : List Ptr}

theorem branch_spec (hb : b.Rep m ps) (live : ∀ a ∈ ps, m.Live a)
    (hheader : kMinMessageLen + kHeaderLen ≤ b.length → InOnePiece m 4 ps) :
    (branch b).wp build m fun r m' => m' = m ∧ r = classify (content m ps) := by
  simp only [branch, classify, ← hb.length]
  split
  · rename_i hguard
    have hlen : 4 ≤ b.length := by
      simp only [kMinMessageLen, kHeaderLen] at hguard
      omega
    rw [Prog.wp_bind]
    refine (Buffer.peekInt_whole hb live (by decide) (hheader hguard) hlen).imp ?_
    intro len m' ⟨hm, hlen⟩
    subst hm hlen
    split
    · simp
    · split <;> simp
  · simp

end Decoder

/-! ## The lengths the encoder writes -/

/-- The lengths of type name and payload that the decoder accepts.  The name field
    has `(|N| + 1) mod 2^32` bytes. -/
def Admissible (typeName payload : Bytes) : Prop :=
  kMinMessageLen ≤ 4 + u32 (typeName.length + 1) + (BufferOutputStream.serialized payload).length ∧
  4 + u32 (typeName.length + 1) + (BufferOutputStream.serialized payload).length ≤ kMaxMessageLen

instance (typeName payload : Bytes) : Decidable (Admissible typeName payload) :=
  inferInstanceAs (Decidable (_ ∧ _))

theorem bytesInt_intBytes (n : Nat) : bytesInt (intBytes 4 n) = signedWord 32 (u32 n) := by
  rw [bytesInt, length_intBytes, intBytes, ofBigEndian_word]
  rfl

theorem length_serialized_le (payload : Bytes) :
    (BufferOutputStream.serialized payload).length ≤ 2147483647 := by
  unfold BufferOutputStream.serialized
  split
  · assumption
  · simp

theorem unsignedWord_signedWord {n len : Nat} (hn : n < 4294967296) (hlen : len < 2 ^ 63)
    (hle : unsignedWord 64 (signedWord 32 n) ≤ len + 1) :
    unsignedWord 64 (signedWord 32 n) = n ∧ n < 2147483648 := by
  have h32 : (2 : Int) ^ 32 = 4294967296 := rfl
  unfold signedWord unsignedWord at *
  rw [h32] at *
  split at hle <;> omega

theorem length_nameField {typeName : Bytes} (hlen : typeName.length < 2 ^ 63)
    (hname : unsignedWord 64 (nameLen typeName) ≤ typeName.length + 1) :
    (nameField typeName).length = u32 (typeName.length + 1) ∧
      u32 (typeName.length + 1) < 2147483648 := by
  have hword : unsignedWord 64 (nameLen typeName) = u32 (typeName.length + 1) ∧
      u32 (typeName.length + 1) < 2147483648 :=
    unsignedWord_signedWord (Nat.mod_lt _ (by decide)) hlen hname
  refine ⟨?_, hword.2⟩
  rw [nameField, List.length_take, List.length_append, List.length_singleton, hword.1]
  have : u32 (typeName.length + 1) ≤ typeName.length + 1 := Nat.mod_le _ _
  omega

theorem frame_shape {typeName : Bytes} (payload : Bytes) (hlen : typeName.length < 2 ^ 63)
    (hname : unsignedWord 64 (nameLen typeName) ≤ typeName.length + 1) :
    ∃ n, n = 4 + u32 (typeName.length + 1) + (BufferOutputStream.serialized payload).length ∧
      n ≤ 4294967298 ∧ (frame typeName payload).length = 4 + n ∧
      bytesInt ((frame typeName payload).take 4) = signedWord 32 (u32 n) := by
  obtain ⟨hfield, hsmall⟩ := length_nameField hlen hname
  have hpayload := length_serialized_le payload
  have hbody : (frameBody typeName payload).length =
      4 + u32 (typeName.length + 1) + (BufferOutputStream.serialized payload).length := by
    rw [frameBody, List.length_append, List.length_append, length_intBytes, hfield]
  refine ⟨(frameBody typeName payload).length, hbody, by omega, ?_, ?_⟩
  · rw [frame, List.length_append, length_intBytes]
  · have htake : (frame typeName payload).take 4 =
        intBytes 4 (frameBody typeName payload).length := List.take_left' (length_intBytes 4 _)
    rw [htake, bytesInt_intBytes]

/-- Where the length field, as the decoder reads it, is within its bounds. -/
theorem lengthField_iff {n : Nat} (hn : n ≤ 4294967298) :
    (signedWord 32 (u32 n) ≤ kMaxMessageLen ∧ (kMinMessageLen : Int) ≤ signedWord 32 (u32 n)) ↔
      kMinMessageLen ≤ n ∧ n ≤ kMaxMessageLen := by
  have h32 : (2 : Int) ^ 32 = 4294967296 := rfl
  simp only [kMinMessageLen, kMaxMessageLen, kHeaderLen, signedWord, u32, h32]
  split <;> omega

theorem signedWord_of_small {n : Nat} (hn : n ≤ kMaxMessageLen) : signedWord 32 (u32 n) = n := by
  simp only [kMaxMessageLen] at hn
  have hmod : u32 n = n := Nat.mod_eq_of_lt (by omega)
  rw [hmod, signedWord, if_pos (by omega)]

theorem classify_frame {d : Bytes} (tail : Bytes) {n : Nat} (hn : n ≤ 4294967298) (hlen : d.length = 4 + n)
    (hfield : bytesInt (d.take 4) = signedWord 32 (u32 n)) :
    (∃ len, classify (d ++ tail) = .complete len) ↔ kMinMessageLen ≤ n ∧ n ≤ kMaxMessageLen := by
  have htake : (d ++ tail).take 4 = d.take 4 := List.take_append_of_le_length (by omega)
  have hbounds := lengthField_iff hn
  simp only [classify, htake, hfield, List.length_append, hlen]
  constructor
  · intro ⟨len, hclass⟩
    split at hclass
    · split at hclass
      · cases hclass
      · rename_i hin
        rw [not_or] at hin
        exact hbounds.mp ⟨by omega, by omega⟩
    · cases hclass
  · intro hadm
    have hsigned := signedWord_of_small hadm.2
    have hmin := hadm.1
    rw [hsigned] at hbounds ⊢
    refine ⟨n, ?_⟩
    rw [if_pos (by simp only [kHeaderLen]; omega), if_neg (by rw [not_or]; omega),
      if_pos (by simp only [kHeaderLen]; omega)]

section Agreement

variable {build : Build} {m m' m₂ : Mem} {b b' r : Buffer} {rest rest₂ qs : List Ptr}
  {k k₂ : Nat} {typeName payload tail : Bytes}

/-- For every message: the length field of the frame `fillEmptyBuffer` has written
    is in the decoder's range and the loop guard holds exactly for admissible
    lengths, whatever follows the frame, and then `onMessage` enters the parse
    branch unless the length field itself is split over two pieces. -/
theorem encoder_decoder_agree_iff (receiver : Build) (hlen : typeName.length < 2 ^ 63) (hb : b.Rep m [])
    (howns : Owns m rest k) (hsent : fillFrame b typeName payload build m = .ok (b', m'))
    (hr : r.Rep m₂ qs) (hrowns : Owns m₂ (qs ++ rest₂) k₂)
    (hwhole : content m₂ qs = content m' (b'.pieces m') ++ tail) :
    ((bytesInt ((content m₂ qs).take 4) ≤ kMaxMessageLen ∧
        (kMinMessageLen : Int) ≤ bytesInt ((content m₂ qs).take 4) ∧
        kMinMessageLen + kHeaderLen ≤ r.length) ↔ Admissible typeName payload) ∧
    ((∀ p, qs.head? = some p → 4 ≤ (m₂.cell p).len) →
      ((∃ len, branch r receiver m₂ = .ok (.complete len, m₂)) ↔ Admissible typeName payload)) := by
  obtain ⟨ps, hrep, howns', _, hcontent, hname⟩ := fillFrame_ok hb howns hsent
  have hpieces : b'.pieces m' = ps := hrep.holds.rep.pieces_eq fun p hp => howns'.live (by simp [hp])
  rw [hpieces, hcontent] at hwhole
  obtain ⟨n, hsum, hn, hframe, hfield⟩ := frame_shape payload hlen hname
  have hadm : Admissible typeName payload ↔ kMinMessageLen ≤ n ∧ n ≤ kMaxMessageLen := by
    rw [Admissible, ← hsum]
  have hrlen : r.length = 4 + n + tail.length := by
    rw [hr.length, hwhole, List.length_append, hframe]
  have htake : (content m₂ qs).take 4 = (frame typeName payload).take 4 := by
    rw [hwhole]
    exact List.take_append_of_le_length (by omega)
  refine ⟨?_, fun hheader => ?_⟩
  · rw [htake, hfield, hadm, ← lengthField_iff hn, hrlen]
    constructor
    · intro ⟨hmax, hmin, _⟩
      exact ⟨hmax, hmin⟩
    · intro ⟨hmax, hmin⟩
      have hguard := ((lengthField_iff hn).mp ⟨hmax, hmin⟩).1
      exact ⟨hmax, hmin, by simp only [kHeaderLen]; omega⟩
  · have hone : kMinMessageLen + kHeaderLen ≤ r.length → InOnePiece m₂ 4 qs := by
      intro hguard
      cases qs with
      | nil => rw [hr.length, content_nil] at hguard; exact absurd hguard (by decide)
      | cons q qs => exact inOnePiece_head (by decide) (hheader q rfl)
    obtain ⟨c, m₃, hrun, rfl, hclass⟩ : (branch r).wp receiver m₂ _ :=
      branch_spec hr (fun a ha => hrowns.live (by simp [ha])) hone
    rw [hrun, hadm, ← classify_frame tail hn hframe hfield, ← hwhole, ← hclass]
    simp

end Agreement

/-! ## A message that is too short, and one that is not -/

/-- The frame of an empty message of a type with a one-letter name has the length
    field 6, which the decoder rejects. -/
theorem short_frame_rejected :
    ¬ ∀ (typeName payload : Bytes) (build : Build) (m m' : Mem) (b b' : Buffer) (rest : List Ptr)
      (k : Nat), 1 ≤ typeName.length → b.Rep m [] → Owns m rest k →
      fillFrame b typeName payload build m = .ok (b', m') →
      bytesInt ((content m' (b'.pieces m')).take 4) ≤ kMaxMessageLen ∧
      (kMinMessageLen : Int) ≤ bytesInt ((content m' (b'.pieces m')).take 4) ∧
      kMinMessageLen + kHeaderLen ≤ (content m' (b'.pieces m')).length := by
  intro hclaim
  have howns : Owns emptyMem [] 0 := Owns.initial _
  obtain ⟨b', m', hrun⟩ : ∃ b' m', fillFrame {} [65] [] .release emptyMem = .ok (b', m') :=
    fillFrame_release (Buffer.Rep.empty _) howns (by decide)
  obtain ⟨ps, hrep, howns', _, hcontent, _⟩ := fillFrame_ok (Buffer.Rep.empty _) howns hrun
  have hpieces : b'.pieces m' = ps := hrep.holds.rep.pieces_eq fun p hp => howns'.live (by simp [hp])
  have hbad := hclaim [65] [] .release emptyMem m' {} b' [] 0 (by decide) (Buffer.Rep.empty _) howns hrun
  rw [hpieces, hcontent] at hbad
  exact absurd hbad.2.1 (by decide)

/-- An empty message of a type with a five-letter name is taken. -/
theorem encoder_decoder_agree_hello :
    ∃ b' m', fillFrame {} [72, 101, 108, 108, 111] [] .release emptyMem = .ok (b', m') ∧
      (kMinMessageLen : Int) ≤ bytesInt ((content m' (b'.pieces m')).take 4) := by
  have howns : Owns emptyMem [] 0 := Owns.initial _
  obtain ⟨b', m', hrun⟩ : ∃ b' m', fillFrame {} [72, 101, 108, 108, 111] [] .release emptyMem =
      .ok (b', m') := fillFrame_release (Buffer.Rep.empty _) howns (by decide)
  obtain ⟨ps, hrep, howns', _, _, _⟩ := fillFrame_ok (Buffer.Rep.empty _) howns hrun
  have hpieces : b'.pieces m' = ps := hrep.holds.rep.pieces_eq fun p hp => howns'.live (by simp [hp])
  have hwhole : content m' ps = content m' (b'.pieces m') ++ [] := by rw [hpieces, List.append_nil]
  have hagree := (encoder_decoder_agree_iff .release (by decide) (Buffer.Rep.empty _) howns
    hrun hrep howns' hwhole).1.mpr (by decide)
  exact ⟨b', m', hrun, hpieces ▸ hagree.2.1⟩

end ProtobufCodec

end Netpp
