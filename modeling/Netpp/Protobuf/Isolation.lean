import Netpp.Protobuf.Areas

/-! # What `parse` takes from the buffer

`decodeFrame` is the meaning of `parse` on the bytes in the buffer: the result and
the number of bytes it takes.  `parse_spec` says that the code computes it, over
any fragmentation without empty pieces, if the parser obeys the assert of the stream;
`takesByte_of_parse` says that it has to.

`parse` ignores the length of the frame it is given, so what follows a frame can
be read as part of it; `parse_isolates_iff` says when it is not.
-/

namespace Netpp

namespace ProtobufCodec

/-! ## `parse`, whatever it does with the name and the rest of the frame -/

section Generic

variable {μ α : Type}

/-- `parse` with `createMessage` and `ParseFromZeroCopyStream` left open. -/
def parseWith (lookup : Bytes → Option μ) (read : μ → Buffer → Exec (α × Buffer)) (buf : Buffer)
    (error : ErrorCode) : Exec ((Option α × ErrorCode) × Buffer) := do
  let r ← buf.readInt32
  if 0 < r.1 then
    if r.1.toNat ≤ r.2.length then
      let name ← r.2.readString r.1.toNat
      match lookup name.1 with
      | some message =>
        let parsed ← read message name.2
        pure ((some parsed.1, error), parsed.2)
      | none => pure ((none, .kUnknownMessageType), name.2)
    else pure ((none, .kParseError), r.2)
  else pure ((none, .kInvalidNameLen), r.2)

/-- How far `parse` gets without `read`: the message it has found or the error, and the number
    of bytes up to there. -/
def decodeHead (lookup : Bytes → Option μ) (d : Bytes) : Except ErrorCode μ × Nat :=
  let nameLen := bytesInt (d.take 4)
  if 0 < nameLen then
    if nameLen.toNat ≤ d.length - 4 then
      match lookup ((d.drop 4).take nameLen.toNat) with
      | some message => (.ok message, 4 + nameLen.toNat)
      | none => (.error .kUnknownMessageType, 4 + nameLen.toNat)
    else (.error .kParseError, 4)
  else (.error .kInvalidNameLen, 4)

/-- `parse` on the bytes `d` in pieces of the lengths `lens`; `value` says what is made of what
    is behind the name, and how many bytes are taken for it. -/
def decodeWith (lookup : Bytes → Option μ) (value : μ → List Nat → Bytes → α × Nat)
    (error : ErrorCode) (lens : List Nat) (d : Bytes) : (Option α × ErrorCode) × Nat :=
  match decodeHead lookup d with
  | (.ok message, n) =>
    let r := value message (dropLens n lens) (d.drop n)
    ((some r.1, error), n + r.2)
  | (.error code, n) => ((none, code), n)

section Head

variable {lookup : Bytes → Option μ} {d body tail : Bytes} {message : μ} {n : Nat}

theorem decodeHead_eq_ok : decodeHead lookup d = (.ok message, n) ↔
    0 < bytesInt (d.take 4) ∧ (bytesInt (d.take 4)).toNat ≤ d.length - 4 ∧
    lookup ((d.drop 4).take (bytesInt (d.take 4)).toNat) = some message ∧
    n = 4 + (bytesInt (d.take 4)).toNat := by
  unfold decodeHead
  generalize bytesInt (d.take 4) = nameLen
  dsimp only
  split
  · split
    · rename_i hpos hfits
      cases lookup ((d.drop 4).take nameLen.toNat) <;> simp [hpos, hfits, eq_comm]
    · simp [*]
  · simp [*]

theorem decodeHead_le (lookup : Bytes → Option μ) (hlen : 4 ≤ d.length) :
    (decodeHead lookup d).2 ≤ d.length := by
  unfold decodeHead
  dsimp only
  split
  · split
    · cases lookup ((d.drop 4).take (bytesInt (d.take 4)).toNat) <;> dsimp only <;> omega
    · exact hlen
  · exact hlen

theorem decodeHead_le_decodeWith (lookup : Bytes → Option μ)
    (value : μ → List Nat → Bytes → α × Nat) (error : ErrorCode) (lens : List Nat) (d : Bytes) :
    (decodeHead lookup d).2 ≤ (decodeWith lookup value error lens d).2 := by
  unfold decodeWith
  match decodeHead lookup d with
  | (.error code, n) => exact Nat.le_refl _
  | (.ok message, n) => exact Nat.le_add_right _ _

/-- The name is completed from what follows the frame. -/
def NameRunsOver (body tail : Bytes) : Prop :=
  0 < bytesInt (body.take 4) ∧ body.length - 4 < (bytesInt (body.take 4)).toNat ∧
    (bytesInt (body.take 4)).toNat ≤ body.length - 4 + tail.length

theorem lt_decodeHead_of_runsOver (lookup : Bytes → Option μ) (hlen : 4 ≤ body.length)
    (h : NameRunsOver body tail) :
    body.length < (decodeHead lookup (body ++ tail)).2 := by
  obtain ⟨hpos, hlong, hall⟩ := h
  have htake : (body ++ tail).take 4 = body.take 4 := List.take_append_of_le_length hlen
  unfold decodeHead
  rw [htake, List.length_append]
  dsimp only
  rw [if_pos hpos, if_pos (by omega)]
  cases lookup (((body ++ tail).drop 4).take (bytesInt (body.take 4)).toNat) <;> dsimp only <;> omega

theorem decodeHead_append (lookup : Bytes → Option μ) (hlen : 4 ≤ body.length) (h : ¬ NameRunsOver body tail) :
    decodeHead lookup (body ++ tail) = decodeHead lookup body := by
  have htake : (body ++ tail).take 4 = body.take 4 := List.take_append_of_le_length hlen
  have hdrop : (body ++ tail).drop 4 = body.drop 4 ++ tail := List.drop_append_of_le_length hlen
  unfold NameRunsOver at h
  unfold decodeHead
  rw [htake, hdrop, List.length_append]
  generalize bytesInt (body.take 4) = nameLen at *
  dsimp only
  by_cases hpos : 0 < nameLen
  · rw [if_pos hpos, if_pos hpos]
    by_cases hfits : nameLen.toNat ≤ body.length - 4
    · rw [if_pos (by omega), if_pos hfits,
        List.take_append_of_le_length (by rw [List.length_drop]; omega)]
    · rw [if_neg (by omega), if_neg hfits]
  · rw [if_neg hpos, if_neg hpos]

end Head

/-- The buffer `b₁` is what is left of a chain when its first `n` bytes have been read. -/
structure Remains (m m₁ : Mem) (ps ps₁ rest : List Ptr) (k n : Nat) (b₁ : Buffer) : Prop where
  rep : b₁.Rep m₁ ps₁
  owns : Owns m₁ (ps₁ ++ rest) k
  rest : SameOn rest m m₁
  bytes : content m₁ ps₁ = (content m ps).drop n
  lens : lens m₁ ps₁ = dropLens n (lens m ps)

variable {build : Build} {m m₁ : Mem} {b b₁ : Buffer} {ps ps₁ rest : List Ptr} {k n : Nat}
  {error : ErrorCode} {lookup : Bytes → Option μ} {read : μ → Buffer → Exec (α × Buffer)}

theorem Remains.leaves (h : Remains m m₁ ps ps₁ rest k n b₁) : Leaves m m₁ ps rest k n b₁ :=
  ⟨ps₁, h.rep.linked, h.owns, h.rest, h.bytes, fun hsolid => hsolid.dropLens h.lens⟩

theorem Remains.leaves_trans {m' : Mem} {buf : Buffer} {n' : Nat}
    (h : Remains m m₁ ps ps₁ rest k n b₁) (hleaves : Leaves m₁ m' ps₁ rest k n' buf) :
    Leaves m m' ps rest k (n + n') buf := by
  obtain ⟨qs, hlinked, howns, hsame, hc, hsolid⟩ := hleaves
  refine ⟨qs, hlinked, howns, h.rest.trans hsame, ?_, fun hall => hsolid (hall.dropLens h.lens)⟩
  rw [hc, h.bytes, List.drop_drop]

theorem parseWith_run (build : Build) (lookup : Bytes → Option μ)
    (read : μ → Buffer → Exec (α × Buffer)) (error : ErrorCode) (hb : b.Rep m ps)
    (howns : Owns m (ps ++ rest) k) (hlen : 4 ≤ b.length) :
    ∃ b₁ m₁ ps₁, Remains m m₁ ps ps₁ rest k (decodeHead lookup (content m ps)).2 b₁ ∧
      parseWith lookup read b error build m = (match (decodeHead lookup (content m ps)).1 with
        | .ok message => do
          let parsed ← read message b₁
          pure ((some parsed.1, error), parsed.2)
        | .error code => pure ((none, code), b₁)) build m₁ := by
  have hne := Buffer.ne_nil_of_pos hb (by decide : 0 < 4) hlen
  obtain ⟨r, m₁, hrun, ps₁, hb₁, howns₁, hsame₁, hd₁, hc₁, hlens₁⟩ :
      (b.read 4).wp build m _ := Buffer.read_spec hb howns hne (fun _ => by decide) hlen
  have hint : b.readInt32 build m = .ok ((bytesInt ((content m ps).take 4), r.2), m₁) := by
    rw [Buffer.readInt32, Buffer.readInt, Prog.bind_of_ok hrun, hd₁]
    rfl
  rw [parseWith, Prog.bind_of_ok hint]
  unfold decodeHead
  have hlen₁ : r.2.length = (content m ps).length - 4 := by rw [hb₁.length, hc₁, List.length_drop]
  generalize bytesInt ((content m ps).take 4) = nameLen
  have hremains : Remains m m₁ ps ps₁ rest k 4 r.2 := ⟨hb₁, howns₁, hsame₁, hc₁, hlens₁⟩
  by_cases hpos : 0 < nameLen
  · rw [if_pos hpos, if_pos hpos]
    by_cases hfits : nameLen.toNat ≤ r.2.length
    · rw [if_pos hfits, if_pos (by omega)]
      have hpos₁ : 0 < nameLen.toNat := by omega
      obtain ⟨name, m₂, hrun₂, ps₂, hb₂, howns₂, hsame₂, hd₂, hc₂, hlens₂⟩ :
          (r.2.read nameLen.toNat).wp build m₁ _ :=
        Buffer.read_spec hb₁ howns₁ (Buffer.ne_nil_of_pos hb₁ hpos₁ hfits) (fun _ => hpos₁) hfits
      have hremains₂ : Remains m m₂ ps ps₂ rest k (4 + nameLen.toNat) name.2 :=
        ⟨hb₂, howns₂, hsame₁.trans hsame₂, by rw [hc₂, hc₁, List.drop_drop],
          by rw [hlens₂, hlens₁, dropLens_add hpos₁]⟩
      have hname : r.2.readString nameLen.toNat build m₁ = .ok (name, m₂) := by
        rw [Buffer.readString, decide_eq_true hfits, ← hrun₂]
        exact Prog.bind_of_ok (if_neg (by simp))
      rw [Prog.bind_of_ok hname]
      rw [hd₂, hc₁]
      cases lookup (((content m ps).drop 4).take nameLen.toNat) with
      | none => exact ⟨name.2, m₂, ps₂, hremains₂, rfl⟩
      | some message => exact ⟨name.2, m₂, ps₂, hremains₂, rfl⟩
    · rw [if_neg hfits, if_neg (by omega)]
      exact ⟨r.2, m₁, ps₁, hremains, rfl⟩
  · rw [if_neg hpos, if_neg hpos]
    exact ⟨r.2, m₁, ps₁, hremains, rfl⟩

theorem parseWith_spec (build : Build) (value : μ → List Nat → Bytes → α × Nat)
    (error : ErrorCode) (hb : b.Rep m ps) (howns : Owns m (ps ++ rest) k) (hlen : 4 ≤ b.length)
    (hread : ∀ message n b₁ m₁ ps₁, decodeHead lookup (content m ps) = (.ok message, n) →
      Remains m m₁ ps ps₁ rest k n b₁ → (read message b₁).wp build m₁ fun r m' =>
        r.1 = (value message (lens m₁ ps₁) (content m₁ ps₁)).1 ∧
        Leaves m₁ m' ps₁ rest k (value message (lens m₁ ps₁) (content m₁ ps₁)).2 r.2) :
    (parseWith lookup read b error).wp build m fun r m' =>
      r.1 = (decodeWith lookup value error (lens m ps) (content m ps)).1 ∧
      Leaves m m' ps rest k (decodeWith lookup value error (lens m ps) (content m ps)).2 r.2 := by
  obtain ⟨b₁, m₁, ps₁, hremains, hrun⟩ := parseWith_run build lookup read error hb howns hlen
  rw [Prog.wp_congr hrun, decodeWith]
  match hhead : decodeHead lookup (content m ps) with
  | (.error code, n) =>
    rw [hhead] at hremains
    rw [Prog.wp_pure]
    exact ⟨rfl, hremains.leaves⟩
  | (.ok message, n) =>
    rw [hhead] at hremains
    simp only [Prog.wp_bind, Prog.wp_pure]
    refine (hread message n b₁ m₁ ps₁ hhead hremains).imp ?_
    rintro parsed m' ⟨hvalue, hleaves⟩
    rw [hremains.bytes, hremains.lens] at hvalue hleaves
    exact ⟨by rw [hvalue], hremains.leaves_trans hleaves⟩

theorem read_of_parseWith {Q : (Option α × ErrorCode) × Buffer → Mem → Prop} {message : μ}
    (hb : b.Rep m ps) (howns : Owns m (ps ++ rest) k) (hlen : 4 ≤ b.length)
    (hhead : decodeHead lookup (content m ps) = (.ok message, n))
    (hrun : (parseWith lookup read b error).wp build m Q) :
    ∃ b₁ m₁ ps₁, Remains m m₁ ps ps₁ rest k n b₁ ∧
      (read message b₁).wp build m₁ fun parsed m' => Q ((some parsed.1, error), parsed.2) m' := by
  obtain ⟨b₁, m₁, ps₁, hremains, heq⟩ := parseWith_run build lookup read error hb howns hlen
  rw [hhead] at hremains heq
  refine ⟨b₁, m₁, ps₁, hremains, ?_⟩
  rw [Prog.wp_congr heq] at hrun
  simpa only [Prog.wp_bind, Prog.wp_pure] using hrun

end Generic

/-! ## `parse` with protobuf's parser -/

variable (proto : Protobuf)

section Spec

variable {α : Type}

/-- `ParseFromZeroCopyStream` on the buffer, `value` being what is made of the bytes read. -/
def readAs (value : proto.Message → Bytes → α) (message : proto.Message) (b : Buffer) :
    Exec (α × Buffer) := do
  let r ← readStream (proto.malformed message) (proto.unread message) b
  pure (value message r.1, r.2)

/-- The same on bytes, with the number of bytes taken. -/
def valueAs (value : proto.Message → Bytes → α) (message : proto.Message) (lens : List Nat)
    (payload : Bytes) : α × Nat :=
  (value message (payload.take (bytesRead (proto.malformed message) payload)),
    bytesTaken (proto.malformed message) (proto.unread message) lens payload)

/-- If the parser comes to stop in the frame body `d`, it takes a byte of its last area. -/
def FrameTakesByte (lens : List Nat) (d : Bytes) : Prop :=
  ∀ message n, decodeHead (createMessage proto) d = (.ok message, n) →
    TakesByte (proto.malformed message) (proto.unread message) (dropLens n lens) (d.drop n)

variable {proto} {build : Build} {m : Mem} {b : Buffer} {ps rest : List Ptr} {k : Nat}
  {error : ErrorCode} {value : proto.Message → Bytes → α} {pieces : List Nat} {d : Bytes} {n : Nat}

theorem frameTakesByte_of_error {code : ErrorCode}
    (h : decodeHead (createMessage proto) d = (.error code, n)) : FrameTakesByte proto pieces d := by
  intro message j hok
  cases h.symm.trans hok

theorem frameTakesByte_iff {message : proto.Message}
    (h : decodeHead (createMessage proto) d = (.ok message, n)) :
    FrameTakesByte proto pieces d ↔
      TakesByte (proto.malformed message) (proto.unread message) (dropLens n pieces) (d.drop n) := by
  refine ⟨fun hall => hall message n h, fun htakes message' n' hok => ?_⟩
  cases h.symm.trans hok
  exact htakes

theorem parseAs_spec (build : Build) (value : proto.Message → Bytes → α) (error : ErrorCode)
    (hb : b.Rep m ps) (howns : Owns m (ps ++ rest) k) (hsolid : Solid m ps) (hlen : 4 ≤ b.length)
    (htakes : build = .debug → FrameTakesByte proto (lens m ps) (content m ps)) :
    (parseWith (createMessage proto) (readAs proto value) b error).wp build m fun r m' =>
      r.1 = (decodeWith (createMessage proto) (valueAs proto value) error (lens m ps) (content m ps)).1 ∧
      Leaves m m' ps rest k (decodeWith (createMessage proto) (valueAs proto value) error
        (lens m ps) (content m ps)).2 r.2 := by
  refine parseWith_spec build (valueAs proto value) error hb howns hlen ?_
  intro message n b₁ m₁ ps₁ hhead hremains
  simp only [readAs, Prog.wp_bind, Prog.wp_pure]
  refine (readStream_spec build hremains.rep hremains.owns (hsolid.dropLens hremains.lens)
    fun hbuild => ?_).imp ?_
  · rw [hremains.lens, hremains.bytes]
    exact htakes hbuild message n hhead
  · rintro r m' ⟨hread, hleaves⟩
    exact ⟨by rw [hread]; rfl, hleaves⟩

/-- Where `parse` returns, in the Debug build, the parser has taken a byte. -/
theorem takesByte_of_parseAs {x : ((Option α × ErrorCode) × Buffer) × Mem} (hb : b.Rep m ps)
    (howns : Owns m (ps ++ rest) k) (hsolid : Solid m ps) (hlen : 4 ≤ b.length)
    (hrun : parseWith (createMessage proto) (readAs proto value) b error build m = .ok x) :
    build = .debug → FrameTakesByte proto (lens m ps) (content m ps) := by
  rintro rfl message n hhead
  obtain ⟨b₁, m₁, ps₁, hremains, hread⟩ :=
    read_of_parseWith (Q := fun _ _ => True) hb howns hlen hhead ⟨x.1, x.2, hrun, trivial⟩
  rw [readAs, Prog.wp_bind] at hread
  have htakes := takesByte_of_readStream hremains.rep hremains.owns (hsolid.dropLens hremains.lens) hread
  rwa [hremains.lens, hremains.bytes] at htakes

/-- What `parse` does with a message and the buffer behind the name. -/
def readMessage : proto.Message → Buffer → Exec (proto.Message × Buffer) := readAs proto proto.merge

theorem parse_eq (b : Buffer) (len : Int) (error : ErrorCode) :
    parse proto b len error = parseWith (createMessage proto) readMessage b error := by
  simp only [parse, parseWith, readMessage, readAs, readStream, Protobuf.parseFromZeroCopyStream,
    bind_assoc, pure_bind]
  refine bind_congr fun r => if_congr Iff.rfl (if_congr Iff.rfl (bind_congr fun name => ?_) rfl) rfl
  cases createMessage proto name.1 with
  | none => rfl
  | some message => rfl

variable (proto) in
/-- `parse` on bytes: what it returns, and how many bytes it takes. -/
def decodeFrame (error : ErrorCode) (lens : List Nat) (d : Bytes) :
    (Option proto.Message × ErrorCode) × Nat :=
  decodeWith (createMessage proto) (valueAs proto proto.merge) error lens d

theorem decodeFrame_le (error : ErrorCode) (lens : List Nat) {d : Bytes} (hlen : 4 ≤ d.length) :
    (decodeFrame proto error lens d).2 ≤ d.length := by
  have hhead := decodeHead_le (createMessage proto) hlen
  unfold decodeFrame decodeWith
  match h : decodeHead (createMessage proto) d with
  | (.error code, n) =>
    rw [h] at hhead
    exact hhead
  | (.ok message, n) =>
    rw [h] at hhead
    have hle := bytesTaken_le (proto.malformed message) (proto.unread message) (dropLens n lens)
      (d.drop n)
    rw [List.length_drop] at hle
    dsimp only [valueAs]
    omega

variable (proto) in
theorem parse_spec (build : Build) (len : Int) (error : ErrorCode) (hb : b.Rep m ps)
    (howns : Owns m (ps ++ rest) k) (hsolid : Solid m ps) (hlen : 4 ≤ b.length)
    (htakes : build = .debug → FrameTakesByte proto (lens m ps) (content m ps)) :
    (parse proto b len error).wp build m fun r m' => ∃ qs,
      Linked m' r.2 qs ∧ Owns m' (qs ++ rest) k ∧ SameOn rest m m' ∧
      r.1 = (decodeFrame proto error (lens m ps) (content m ps)).1 ∧
      content m' qs = (content m ps).drop (decodeFrame proto error (lens m ps) (content m ps)).2 ∧
      Solid m' qs := by
  rw [parse_eq]
  refine (parseAs_spec build proto.merge error hb howns hsolid hlen htakes).imp ?_
  intro r m' ⟨hr, qs, hlinked, howns', hsame, hc, hsolid'⟩
  exact ⟨qs, hlinked, howns', hsame, hr, hc, hsolid' hsolid⟩

theorem takesByte_of_parse {x : ((Option proto.Message × ErrorCode) × Buffer) × Mem} {len : Int}
    (hb : b.Rep m ps) (howns : Owns m (ps ++ rest) k) (hsolid : Solid m ps) (hlen : 4 ≤ b.length)
    (hrun : parse proto b len error build m = .ok x) :
    build = .debug → FrameTakesByte proto (lens m ps) (content m ps) := by
  rw [parse_eq] at hrun
  exact takesByte_of_parseAs hb howns hsolid hlen hrun

end Spec

/-! ## Frames and what follows them -/

/-- A payload can be told from the bytes `tail` behind it: nothing follows; or the parser stops
    and gives back what it has read of the tail, with the message it makes of the payload. -/
def PayloadBounded (build : Build) (message : proto.Message) (lens lens₂ : List Nat)
    (payload tail : Bytes) : Prop :=
  (build = .debug →
    TakesByte (proto.malformed message) (proto.unread message) lens (payload ++ tail) ∧
    TakesByte (proto.malformed message) (proto.unread message) lens₂ payload) ∧
  (tail = [] ∨ ∃ n, firstStop (proto.malformed message) [] (payload ++ tail) = some n ∧
    areaStart lens n ≤ payload.length ∧
    n - proto.unread message ((payload ++ tail).take n) ≤ payload.length ∧
    proto.merge message ((payload ++ tail).take n) = proto.merge message (payload.take n))

/-- The frame body `body` can be told from the bytes `tail` behind it.  `lens` are the lengths of
    the pieces that hold both, `lens₂` of those that hold the body alone. -/
def FrameBounded (build : Build) (lens lens₂ : List Nat) (body tail : Bytes) : Prop :=
  let nameLen := bytesInt (body.take 4)
  nameLen ≤ 0 ∨ body.length - 4 + tail.length < nameLen.toNat ∨
  nameLen.toNat ≤ body.length - 4 ∧
    ∀ message, createMessage proto ((body.drop 4).take nameLen.toNat) = some message →
      PayloadBounded proto build message (dropLens (4 + nameLen.toNat) lens)
        (dropLens (4 + nameLen.toNat) lens₂) (body.drop (4 + nameLen.toNat)) tail

/-- `parse` returns the same on the frame alone as on the frame and what follows
    it, and leaves what follows in the buffer. -/
def Isolated (build : Build) (len : Int) (error : ErrorCode) (tail : Bytes) (m : Mem) (b : Buffer)
    (m₂ : Mem) (b₂ : Buffer) : Prop :=
  ∃ r m' r₂ m₂', parse proto b len error build m = .ok (r, m') ∧
    parse proto b₂ len error build m₂ = .ok (r₂, m₂') ∧ r.1 = r₂.1 ∧
    ∃ left, content m' (r.2.pieces m') = left ++ tail

section Isolation

variable {proto} {body tail : Bytes} {build : Build} {lens lens₂ : List Nat}

theorem payloadBounded_iff (message : proto.Message) (payload : Bytes) :
    PayloadBounded proto build message lens lens₂ payload tail ↔
      (build = .debug →
        TakesByte (proto.malformed message) (proto.unread message) lens (payload ++ tail) ∧
        TakesByte (proto.malformed message) (proto.unread message) lens₂ payload) ∧
      (valueAs proto proto.merge message lens (payload ++ tail)).1 =
        (valueAs proto proto.merge message lens₂ payload).1 ∧
      (valueAs proto proto.merge message lens (payload ++ tail)).2 ≤ payload.length := by
  refine and_congr_right fun _ => ?_
  by_cases hnil : tail = []
  · rw [hnil, List.append_nil]
    exact iff_of_true (.inl rfl) ⟨rfl, bytesTaken_le _ _ _ _⟩
  have hpos : 0 < tail.length := List.length_pos_iff.mpr hnil
  dsimp only [valueAs]
  cases hstop : firstStop (proto.malformed message) [] (payload ++ tail) with
  | none =>
    rw [bytesTaken_of_none hstop, List.length_append]
    refine iff_of_false (fun h => ?_) fun h => by omega
    cases h with
    | inl hno => exact hnil hno
    | inr hsome =>
      obtain ⟨n, hsome, _⟩ := hsome
      cases hsome
  | some n =>
    have hread : bytesRead (proto.malformed message) (payload ++ tail) = n := by
      rw [bytesRead, hstop, Option.getD_some]
    rw [hread, take_bytesRead_of_append hstop, bytesTaken, hstop]
    constructor
    · intro h
      cases h with
      | inl hno => exact absurd hno hnil
      | inr hsome =>
        obtain ⟨j, hj, hstart, htaken, hmerge⟩ := hsome
        cases hj
        exact ⟨hmerge, Nat.max_le.mpr ⟨hstart, htaken⟩⟩
    · rintro ⟨hmerge, htaken⟩
      obtain ⟨hstart, hleft⟩ := Nat.max_le.mp htaken
      exact .inr ⟨n, rfl, hstart, hleft, hmerge⟩

theorem decodeFrame_append_iff (error : ErrorCode) (hlen : 4 ≤ body.length) :
    (build = .debug → FrameTakesByte proto lens (body ++ tail) ∧ FrameTakesByte proto lens₂ body) ∧
      (decodeFrame proto error lens (body ++ tail)).1 = (decodeFrame proto error lens₂ body).1 ∧
      (decodeFrame proto error lens (body ++ tail)).2 ≤ body.length ↔
    FrameBounded proto build lens lens₂ body tail := by
  by_cases hover : NameRunsOver body tail
  · have hlong := lt_decodeHead_of_runsOver (createMessage proto) hlen hover
    have htaken := decodeHead_le_decodeWith (createMessage proto) (valueAs proto proto.merge) error
      lens (body ++ tail)
    refine iff_of_false (fun h => Nat.not_lt.mpr (Nat.le_trans htaken h.2.2) hlong) fun h => ?_
    obtain ⟨hpos, hlong, hall⟩ := hover
    rcases h with hneg | hbeyond | ⟨hfits, _⟩ <;> omega
  have hhead := decodeHead_append (createMessage proto) hlen hover
  have hle := decodeHead_le (createMessage proto) hlen
  rw [NameRunsOver] at hover
  unfold decodeFrame decodeWith FrameBounded
  rw [hhead]
  match hbody : decodeHead (createMessage proto) body with
  | (.error code, n) =>
    rw [hbody] at hhead hle
    refine iff_of_true ⟨fun _ => ⟨frameTakesByte_of_error hhead, frameTakesByte_of_error hbody⟩, rfl, hle⟩ ?_
    by_cases hneg : bytesInt (body.take 4) ≤ 0
    · exact .inl hneg
    by_cases hfits : (bytesInt (body.take 4)).toNat ≤ body.length - 4
    · refine .inr (.inr ⟨hfits, fun message hcreate => ?_⟩)
      cases hbody.symm.trans (decodeHead_eq_ok.mpr ⟨by omega, hfits, hcreate, rfl⟩)
    · exact .inr (.inl (by omega))
  | (.ok message, n) =>
    rw [hbody] at hhead hle
    obtain ⟨hpos, hfits, hcreate, hn⟩ := decodeHead_eq_ok.mp hbody
    have hdrop : (body ++ tail).drop n = body.drop n ++ tail := List.drop_append_of_le_length hle
    have hfit : ∀ j, n + j ≤ body.length ↔ j ≤ (body.drop n).length := fun j => by
      rw [List.length_drop]
      dsimp only at hle
      omega
    have hbounded : PayloadBounded proto build message (dropLens n lens) (dropLens n lens₂)
        (body.drop n) tail ↔ _ := payloadBounded_iff message (body.drop n)
    rw [frameTakesByte_iff hhead, frameTakesByte_iff hbody]
    simp only [hdrop, hfit, Prod.mk.injEq, Option.some.injEq, and_true]
    rw [← hbounded, hn]
    constructor
    · intro h
      refine .inr (.inr ⟨hfits, fun message' hcreate' => ?_⟩)
      cases hcreate.symm.trans hcreate'
      exact h
    · intro h
      rcases h with hneg | hbeyond | ⟨_, h⟩
      · omega
      · omega
      · exact h message hcreate

end Isolation

section Frames

variable {proto} {body tail : Bytes} {error : ErrorCode} {build : Build} {m m₂ : Mem} {b b₂ : Buffer}
  {ps rest ps₂ rest₂ : List Ptr} {k k₂ : Nat}

/-- A frame is isolated from the bytes behind it exactly when they are not
    reached, or given back: `parse` has no use for the length it is given. -/
theorem parse_isolates_iff (hmin : kMinMessageLen ≤ body.length)
    (hb : b.Rep m ps) (howns : Owns m (ps ++ rest) k) (hsolid : Solid m ps)
    (hc : content m ps = body ++ tail)
    (hb₂ : b₂.Rep m₂ ps₂) (howns₂ : Owns m₂ (ps₂ ++ rest₂) k₂) (hsolid₂ : Solid m₂ ps₂)
    (hc₂ : content m₂ ps₂ = body) :
    Isolated proto build body.length error tail m b m₂ b₂ ↔
      FrameBounded proto build (lens m ps) (lens m₂ ps₂) body tail := by
  have hlen : 4 ≤ body.length := Nat.le_trans (by decide) hmin
  have hall : 4 ≤ (body ++ tail).length := by rw [List.length_append]; omega
  have hlen₁ : 4 ≤ b.length := by rw [hb.length, hc]; exact hall
  have hlen₂ : 4 ≤ b₂.length := by rw [hb₂.length, hc₂]; exact hlen
  have hparse := parse_spec proto build body.length error hb howns hsolid hlen₁
  have hparse₂ := parse_spec proto build body.length error hb₂ howns₂ hsolid₂ hlen₂
  rw [hc] at hparse
  rw [hc₂] at hparse₂
  have hbytes : _ ↔ FrameBounded proto build (lens m ps) (lens m₂ ps₂) body tail :=
    decodeFrame_append_iff error hlen
  rw [← hbytes]
  constructor
  · intro ⟨s, ms, s₂, ms₂, hs, hs₂, hsame, left, htail⟩
    have htakes := hc ▸ takesByte_of_parse hb howns hsolid hlen₁ hs
    have htakes₂ := hc₂ ▸ takesByte_of_parse hb₂ howns₂ hsolid₂ hlen₂ hs₂
    obtain ⟨qs, hlinked, howns', _, hr, hleft, _⟩ := (Prog.wp_of_eq_ok hs).mp (hparse htakes)
    obtain ⟨_, _, _, _, hr₂, _⟩ := (Prog.wp_of_eq_ok hs₂).mp (hparse₂ htakes₂)
    have hpieces : s.2.pieces ms = qs :=
      Queue.pieces_eq_of_chain hlinked.chain fun p hp => howns'.live (by simp [hp])
    refine ⟨fun hbuild => ⟨htakes hbuild, htakes₂ hbuild⟩, by rw [← hr, hsame, hr₂], ?_⟩
    rw [hpieces, hleft] at htail
    have hlength := congrArg List.length htail
    rw [List.length_drop, List.length_append, List.length_append] at hlength
    have hle : (decodeFrame proto error (lens m ps) (body ++ tail)).2 ≤ (body ++ tail).length :=
      decodeFrame_le error _ hall
    rw [List.length_append] at hle
    omega
  · intro ⟨hfits, hsame, hle⟩
    obtain ⟨r, m', hrun, qs, hlinked, howns', _, hr, hleft, _⟩ := hparse fun h => (hfits h).1
    obtain ⟨r₂, m₂', hrun₂, _, _, _, _, hr₂, _⟩ := hparse₂ fun h => (hfits h).2
    have hpieces : r.2.pieces m' = qs :=
      Queue.pieces_eq_of_chain hlinked.chain fun p hp => howns'.live (by simp [hp])
    refine ⟨r, m', r₂, m₂', hrun, hrun₂, by rw [hr, hr₂, hsame],
      body.drop (decodeFrame proto error (lens m ps) (body ++ tail)).2, ?_⟩
    rw [hpieces, hleft, List.drop_append_of_le_length hle]

/-- Messages of types without fields: whatever the bytes are, they are unknown fields and kept
    as they are.  A type is found under its name and one byte more, the terminating zero. -/
def verbatim : Protobuf where
  Descriptor := Bytes
  Message := Bytes × Bytes
  findMessageTypeByName := fun name => some name.dropLast
  newMessage := fun name => some (name, [])
  getTypeName := Prod.fst
  serialize := Prod.snd
  malformed := fun _ _ => false
  merge := fun message d => (message.1, d)

/-- There is a buffer of any content. -/
theorem exists_buffer (d : Bytes) :
    ∃ (m : Mem) (b : Buffer) (ps : List Ptr), b.Rep m ps ∧ Owns m (ps ++ []) 0 ∧
      Solid m ps ∧ content m ps = d := by
  by_cases hd : d = []
  · exact ⟨emptyMem, {}, [], Buffer.Rep.empty _, Owns.initial _, fun p hp => by simp at hp, hd.symm⟩
  · have howns : Owns emptyMem ([] ++ []) 0 := Owns.initial _
    obtain ⟨b, m, _, ps, hb, howns', _, hc, _, hpos⟩ : (Buffer.write {} d).wp .release emptyMem _ :=
      Buffer.write_spec (Buffer.Rep.empty _) howns
    refine ⟨m, b, ps, hb, howns', fun p hp => ?_, hc⟩
    cases hpos hd p hp with
    | inl hmem => simp at hmem
    | inr hlen => exact hlen

/-- A frame of a one-letter type whose payload is the field number 3, a varint of four bytes. -/
def shortBody : Bytes := [0, 0, 0, 1, 65, 24, 129, 130, 131, 4]

/-- Another field behind this frame becomes part of its message. -/
theorem tail_joins_frame :
    ¬ ∀ (proto : Protobuf) (build : Build) (error : ErrorCode) (body tail : Bytes) (m m₂ : Mem)
      (b b₂ : Buffer) (ps rest ps₂ rest₂ : List Ptr) (k k₂ : Nat),
      kMinMessageLen ≤ body.length → body.length ≤ kMaxMessageLen →
      b.Rep m ps → Owns m (ps ++ rest) k → Solid m ps → content m ps = body ++ tail →
      b₂.Rep m₂ ps₂ → Owns m₂ (ps₂ ++ rest₂) k₂ → Solid m₂ ps₂ → content m₂ ps₂ = body →
      Isolated proto build body.length error tail m b m₂ b₂ := by
  intro hclaim
  obtain ⟨m, b, ps, hb, howns, hsolid, hc⟩ := exists_buffer (shortBody ++ [24, 5])
  obtain ⟨m₂, b₂, ps₂, hb₂, howns₂, hsolid₂, hc₂⟩ := exists_buffer shortBody
  obtain ⟨r, m', r₂, m₂', hrun, hrun₂, hsame, _⟩ := hclaim verbatim .release .kNoError shortBody [24, 5]
    m m₂ b b₂ ps [] ps₂ [] 0 0 (by decide) (by decide) hb howns hsolid hc hb₂ howns₂ hsolid₂ hc₂
  obtain ⟨s, ms, hs, _, _, _, _, hr, _⟩ := parse_spec _ .release shortBody.length .kNoError hb howns
    hsolid (by rw [hb.length, hc]; decide) fun h => by cases h
  obtain ⟨s₂, ms₂, hs₂, _, _, _, _, hr₂, _⟩ := parse_spec _ .release shortBody.length .kNoError hb₂
    howns₂ hsolid₂ (by rw [hb₂.length, hc₂]; decide) fun h => by cases h
  cases hrun.symm.trans hs
  cases hrun₂.symm.trans hs₂
  rw [hr, hr₂, hc, hc₂] at hsame
  have hlength : some 7 = some 5 :=
    congrArg (fun r => r.1.map (fun message => message.2.length)) hsame
  cases hlength

/-- A parser that finds the field number 0 illegal when it has read the tag. -/
def strict : Protobuf :=
  { verbatim with malformed := fun _ d => d.head? == some 1 }

/-- A payload that begins with such a tag is given up, and the field behind it stays. -/
theorem parse_isolates_illegal :
    ∃ m b m₂ b₂, Isolated strict .debug (10 : Nat) .kNoError [24, 5] m b m₂ b₂ := by
  obtain ⟨m, b, ps, hb, howns, hsolid, hc⟩ := exists_buffer ([0, 0, 0, 1, 65, 1, 2, 3, 4, 5] ++ [24, 5])
  obtain ⟨m₂, b₂, ps₂, hb₂, howns₂, hsolid₂, hc₂⟩ := exists_buffer [0, 0, 0, 1, 65, 1, 2, 3, 4, 5]
  refine ⟨m, b, m₂, b₂, (parse_isolates_iff (by decide) hb howns hsolid hc hb₂ howns₂ hsolid₂ hc₂).mpr ?_⟩
  refine .inr (.inr ⟨by decide, fun message _ => ⟨fun _ => ⟨?_, ?_⟩, .inr ⟨1, rfl, ?_, ?_, rfl⟩⟩⟩)
  · intro n hn
    cases hn
    exact areaStart_lt (by decide) _
  · intro n hn
    cases hn
    exact areaStart_lt (by decide) _
  · exact Nat.le_trans (Nat.le_of_lt (areaStart_lt (by decide) _)) (by decide)
  · exact Nat.le_trans (Nat.sub_le _ _) (by decide)

end Frames

end ProtobufCodec

end Netpp
