import Netpp.Conn.Buffers
import Netpp.Protobuf.Isolation

/-! # A stream of frames, cut into chunks

The chunks of a stream of frames are appended to one input buffer, with
`onMessage` called after each of them.

* `append_spec`: appending a chunk keeps the length field of the frame in the
  first piece, unless the chunk splits it.
* `onMessage_part`, `onMessage_whole`, `onMessage_split`: what `onMessage` does
  with a part of a frame, with a frame and what follows it, and with a length
  field that lies in two pieces.
* `delivers_iff`: when all messages arrive.
-/

namespace Netpp

namespace ProtobufCodec

/-! ## Chunks -/

/-- A chunk of the stream, and how it gets into the input buffer. -/
inductive Arrival where
  | write (d : Bytes)      -- appended with `Buffer::write`
  | receive (d : Bytes)    -- read into a piece, which is appended with `writePiece`
  deriving DecidableEq

namespace Arrival

def bytes : Arrival → Bytes
  | write d => d
  | receive d => d

/-- A chunk is not empty, and one that was read fits into a piece. -/
def Possible : Arrival → Prop
  | write d => d ≠ []
  | receive d => d ≠ [] ∧ d.length ≤ kPieceCapacity

/-- With `s` bytes in the buffer, the chunk goes into a second piece although the
    first one does not hold the whole length field. -/
def Splits (s : Nat) : Arrival → Prop
  | write _ => False
  | receive d => 0 < s ∧ s < 4 ∧ kPieceCapacity < s + d.length

instance (s : Nat) (a : Arrival) : Decidable (a.Splits s) := by
  cases a with
  | write d => exact inferInstanceAs (Decidable False)
  | receive d => exact inferInstanceAs (Decidable (_ ∧ _))

theorem Possible.ne_nil {a : Arrival} (h : a.Possible) : a.bytes ≠ [] := by
  cases a with
  | write d => exact h
  | receive d => exact h.1

end Arrival

def append (b : Buffer) : Arrival → Exec Buffer
  | .write d => b.write d
  | .receive d => InputBuffer.receive b d

/-! ## Where the length field lies -/

/-- The first piece holds the length field, or has room for it. -/
def HeaderReady (m : Mem) (ps : List Ptr) : Prop :=
  ∀ p qs, ps = p :: qs → 4 ≤ (m.cell p).len ∨ qs = [] ∧ (m.cell p).off = 0

/-- The length field lies in the first piece and the one behind it. -/
def HeaderSplit (m : Mem) (ps : List Ptr) : Prop :=
  ∃ p q qs, ps = p :: q :: qs ∧ (m.cell p).len < 4

/-- The buffer of the stream holds the bytes `c`, in the pieces `ps`. -/
structure Pending (m : Mem) (b : Buffer) (ps rest : List Ptr) (k : Nat) (c : Bytes) : Prop where
  rep : b.Rep m ps
  owns : Owns m (ps ++ rest) k
  solid : Solid m ps
  bytes : content m ps = c

section Append

variable {build : Build} {m m' : Mem} {b : Buffer} {ps ps' rest : List Ptr} {k n : Nat} {c : Bytes}
  {a : Arrival}

theorem length_le_content (h : Solid m ps) : ps.length ≤ (content m ps).length := by
  induction ps with
  | nil => exact Nat.zero_le _
  | cons p ps ih =>
    have hpos := h p (by simp)
    have hrest := ih h.tail
    rw [List.length_cons, content_cons, List.length_append, length_bytes]
    omega

theorem headerReady_write (h : HeaderReady m ps) (hext : Extends m m' ps ps') :
    HeaderReady m' ps' := by
  intro p qs hps'
  obtain ⟨more, hmore⟩ := hext.chain
  -- a piece behind `p` is only there once `p` is full
  have hfull : qs ≠ [] → p ∈ ps.dropLast ∨ kPieceCapacity ≤ (m'.cell p).off + (m'.cell p).len := by
    intro hqs
    refine hext.full p ?_
    rw [hps', List.dropLast_cons_of_ne_nil hqs]
    exact List.mem_cons_self ..
  have hoff := hext.off p (by simp [hps'])
  cases ps with
  | nil =>
    rw [if_neg (by simp)] at hoff
    by_cases hqs : qs = []
    · exact .inr ⟨hqs, hoff⟩
    · cases hfull hqs with
      | inl hmem => simp at hmem
      | inr hlong =>
        simp only [kPieceCapacity] at hlong
        exact .inl (by omega)
  | cons p₀ ps =>
    obtain rfl : p₀ = p := by
      rw [hps'] at hmore
      exact (List.cons.inj hmore).1.symm
    cases h p₀ ps rfl with
    | inl hlen => exact .inl (Nat.le_trans hlen (hext.len p₀ (by simp)))
    | inr hone =>
      obtain ⟨hnil, hzero⟩ := hone
      subst hnil
      rw [if_pos (by simp), hzero] at hoff
      by_cases hqs : qs = []
      · exact .inr ⟨hqs, hoff⟩
      · cases hfull hqs with
        | inl hmem => simp at hmem
        | inr hlong =>
          simp only [kPieceCapacity] at hlong
          exact .inl (by omega)

theorem headerReady_receive (h : HeaderReady m ps) (hreceived : InputBuffer.Received m m' ps ps' n)
    (hsplit : ∀ p, ps = [p] → (m.cell p).len < 4 → (m.cell p).len + n ≤ kPieceCapacity) :
    HeaderReady m' ps' := by
  intro p qs hps'
  obtain ⟨hold, hplace⟩ := hreceived
  cases hplace with
  | inl hsame =>
    rw [hsame] at hps'
    have hp := hold p (by simp [hps'])
    cases h p qs hps' with
    | inl hlen => exact .inl (Nat.le_trans hlen hp.2)
    | inr hone => exact .inr ⟨hone.1, by omega⟩
  | inr hpushed =>
    obtain ⟨item, hitem, hoff, _, hlens, hlast⟩ := hpushed
    cases ps with
    | nil =>
      rw [hitem, List.nil_append] at hps'
      obtain ⟨rfl, rfl⟩ := List.cons.inj hps'
      exact .inr ⟨rfl, hoff⟩
    | cons p₀ ps =>
      rw [hitem, List.cons_append] at hps'
      obtain ⟨rfl, _⟩ := List.cons.inj hps'
      have hlen := hlens p₀ (by simp)
      cases h p₀ ps rfl with
      | inl hlong => exact .inl (by omega)
      | inr hone =>
        obtain ⟨rfl, _⟩ := hone
        have hcap := hlast p₀ rfl
        refine .inl ?_
        by_contra hshort
        have := hsplit p₀ rfl (by omega)
        omega

theorem append_spec (h : Pending m b ps rest k c) (hready : HeaderReady m ps) (ha : a.Possible)
    (hroom : c.length + rest.length + k + 9 < 4294967296) :
    (append b a).wp build m fun b' m' => ∃ ps',
      Pending m' b' ps' rest k (c ++ a.bytes) ∧
      (a.Splits c.length → HeaderSplit m' ps') ∧ (¬ a.Splits c.length → HeaderReady m' ps') := by
  obtain ⟨hb, howns, hsolid, hc⟩ := h
  cases a with
  | write d =>
    refine (Buffer.write_spec hb howns).imp ?_
    intro b' m' ⟨ps', hb', howns', _, hc', hext, hpos⟩
    refine ⟨ps', ⟨hb', howns', fun p hp => ?_, by rw [hc', hc]; rfl⟩, fun h => absurd h id,
      fun _ => headerReady_write hready hext⟩
    cases hpos ha p hp with
    | inl hold => exact Nat.lt_of_lt_of_le (hsolid p hold) (hext.len p hold)
    | inr hnew => exact hnew
  | receive d =>
    have hle := length_le_content hsolid
    rw [hc] at hle
    refine (InputBuffer.receive_spec hb howns ha.1 ha.2 (by rw [List.length_append]; omega)).imp ?_
    intro b' m' ⟨ps', hb', howns', _, hc', hreceived⟩
    have hdpos : 0 < d.length := List.length_pos_iff.mpr ha.1
    have hone : ∀ p, ps = [p] → (m.cell p).len = c.length := by
      intro p hp
      rw [← hc, hp, content_cons, content_nil, List.append_nil, length_bytes]
    refine ⟨ps', ⟨hb', howns', fun p hp => ?_, by rw [hc', hc]; rfl⟩, fun hsplits => ?_, fun hnot => ?_⟩
    · obtain ⟨hold, hplace⟩ := hreceived
      cases hplace with
      | inl hsame =>
        have hmem : p ∈ ps := hsame ▸ hp
        exact Nat.lt_of_lt_of_le (hsolid p hmem) (hold p hmem).2
      | inr hpushed =>
        obtain ⟨item, hitem, _, hlen, _⟩ := hpushed
        rw [hitem] at hp
        cases List.mem_append.mp hp with
        | inl hmem => exact Nat.lt_of_lt_of_le (hsolid p hmem) (hold p hmem).2
        | inr hlast =>
          rw [List.mem_singleton.mp hlast, hlen]
          exact hdpos
    · obtain ⟨hpos, hshort, hlong⟩ := hsplits
      obtain ⟨_, hplace⟩ := hreceived
      cases ps with
      | nil =>
        rw [← hc] at hpos
        exact absurd hpos (Nat.lt_irrefl 0)
      | cons p qs =>
        have hlenp : (m.cell p).len ≤ c.length := by
          rw [← hc, content_cons, List.length_append, length_bytes]
          omega
        cases hready p qs rfl with
        | inl hfour => omega
        | inr hsingle =>
          obtain ⟨rfl, _⟩ := hsingle
          cases hplace with
          | inl hsame =>
            have hinside := hb'.holds.inside p (by simp [hsame])
            have hlength := congrArg List.length hc'
            rw [hsame, content_cons, content_nil, List.append_nil, length_bytes, List.length_append,
              hc] at hlength
            omega
          | inr hpushed =>
            obtain ⟨item, hitem, _, _, hlens, _⟩ := hpushed
            exact ⟨p, item, [], hitem, by rw [hlens p (by simp)]; omega⟩
    · refine headerReady_receive hready hreceived fun p hp hshort => ?_
      rw [hone p hp] at hshort ⊢
      have hpos := hsolid p (by simp [hp])
      rw [hone p hp] at hpos
      by_contra hlong
      exact hnot ⟨hpos, hshort, by omega⟩

end Append

/-! ## `onMessage` on a part of the stream -/

/-- What the decoder finds in the frame of a message: a length field that is in
    its range, the type name with its zero and the payload. -/
structure IsFrame (typeName payload d : Bytes) : Prop where
  length : d.length = 8 + (typeName.length + 1) + payload.length
  field : bytesInt (d.take 4) = (4 + (typeName.length + 1) + payload.length : Nat)
  body : d.drop 4 = intBytes 4 (typeName.length + 1 : Nat) ++ (typeName ++ [0]) ++ payload
  min : kMinMessageLen ≤ 4 + (typeName.length + 1) + payload.length
  max : 4 + (typeName.length + 1) + payload.length ≤ kMaxMessageLen

section OnMessage

variable {proto : Protobuf} {build : Build} {m : Mem} {b : Buffer} {ps rest : List Ptr} {k s : Nat}
  {typeName payload extra c d : Bytes} {e : proto.Message}

theorem classify_part (h : IsFrame typeName payload d) (hs : s < d.length) :
    classify (d.take s) = .tooShort ∨ classify (d.take s) = .incomplete := by
  unfold classify
  have hlen : (d.take s).length = s := by
    rw [List.length_take]
    omega
  rw [hlen]
  split
  · rename_i hguard
    simp only [kMinMessageLen, kHeaderLen] at hguard
    have htake : (d.take s).take 4 = d.take 4 := by
      rw [List.take_take, Nat.min_eq_left (by omega)]
    have hmin := h.min
    have hmax := h.max
    have hlength := h.length
    rw [htake, h.field]
    dsimp only
    rw [if_neg (by omega), if_neg (by simp only [kHeaderLen]; omega)]
    exact .inr rfl
  · exact .inl rfl

theorem classify_whole (h : IsFrame typeName payload d) :
    classify (d ++ extra) = .complete (4 + (typeName.length + 1) + payload.length : Nat) := by
  unfold classify
  have hmin := h.min
  have hmax := h.max
  have hlength := h.length
  have htake : (d ++ extra).take 4 = d.take 4 := List.take_append_of_le_length (by omega)
  rw [List.length_append, htake, h.field]
  dsimp only
  rw [if_pos (by simp only [kHeaderLen]; omega), if_neg (by omega),
    if_pos (by simp only [kHeaderLen]; omega)]

theorem decodeHead_frame (h : IsFrame typeName payload d)
    (hcreate : createMessage proto (typeName ++ [0]) = some e) :
    decodeHead (createMessage proto) (d.drop 4 ++ extra) = (.ok e, 4 + (typeName.length + 1)) ∧
      (d.drop 4 ++ extra).drop (4 + (typeName.length + 1)) = payload ++ extra := by
  have hmax := h.max
  have hname : (typeName ++ [0]).length = typeName.length + 1 := by simp
  have hnameLen : bytesInt (intBytes 4 (typeName.length + 1 : Nat)) = (typeName.length + 1 : Nat) := by
    rw [bytesInt_intBytes, signedWord_of_small (by omega)]
  have hbody : d.drop 4 ++ extra =
      intBytes 4 (typeName.length + 1 : Nat) ++ ((typeName ++ [0]) ++ (payload ++ extra)) := by
    rw [h.body]
    simp only [List.append_assoc]
  have hfour : (d.drop 4 ++ extra).take 4 = intBytes 4 (typeName.length + 1 : Nat) := by
    rw [hbody]
    exact List.take_left' (length_intBytes 4 _)
  have hdrop : (d.drop 4 ++ extra).drop 4 = (typeName ++ [0]) ++ (payload ++ extra) := by
    rw [hbody]
    exact List.drop_left' (length_intBytes 4 _)
  constructor
  · rw [decodeHead_eq_ok, hfour, hdrop, hnameLen, Int.toNat_natCast, List.take_left' hname]
    refine ⟨by omega, ?_, hcreate, rfl⟩
    rw [hbody, List.length_append, List.length_append, length_intBytes, hname]
    omega
  · rw [← List.drop_drop, hdrop]
    exact List.drop_left' hname

theorem decodeFrame_whole (h : IsFrame typeName payload d) (error : ErrorCode) (lens : List Nat)
    (hcreate : createMessage proto (typeName ++ [0]) = some e)
    (hread : firstStop (proto.malformed e) [] (payload ++ extra) = none) :
    decodeFrame proto error lens (d.drop 4 ++ extra) =
        ((some (proto.merge e (payload ++ extra)), error), (d.drop 4 ++ extra).length) ∧
      FrameTakesByte proto lens (d.drop 4 ++ extra) := by
  obtain ⟨hhead, hpayload⟩ := decodeHead_frame h hcreate
  have hlength := h.length
  constructor
  · rw [decodeFrame, decodeWith, hhead]
    dsimp only [valueAs]
    rw [hpayload, bytesTaken_of_none hread, bytesRead, hread, Option.getD_none, List.take_length,
      Prod.mk.injEq]
    refine ⟨rfl, ?_⟩
    simp only [List.length_append, List.length_drop]
    omega
  · rw [frameTakesByte_iff hhead, hpayload]
    exact takesByte_of_none hread

/-- With four bytes in the buffer, the length field is in the first piece. -/
theorem headerReady_whole (h : Pending m b ps rest k c) (hready : HeaderReady m ps)
    (hlen : 4 ≤ b.length) : InOnePiece m 4 ps := by
  rw [h.rep.length] at hlen
  cases ps with
  | nil => rw [content_nil] at hlen; exact absurd hlen (by decide)
  | cons p qs =>
    apply inOnePiece_head (by decide)
    cases hready p qs rfl with
    | inl hfour => exact hfour
    | inr hone =>
      rw [hone.1, content_cons, content_nil, List.append_nil, length_bytes] at hlen
      exact hlen

theorem onMessage_part (hframe : IsFrame typeName payload d) (hs : s < d.length)
    (h : Pending m b ps rest k (d.take s)) (hready : HeaderReady m ps) :
    (onMessage proto b).wp build m fun r m' => m' = m ∧ r = ([], b) := by
  simp only [onMessage, onMessageLoop, Prog.wp_bind]
  refine (branch_spec h.rep (fun a ha => h.owns.live (by simp [ha])) fun hguard => ?_).imp ?_
  · exact headerReady_whole h hready (by simp only [kMinMessageLen, kHeaderLen] at hguard; omega)
  · rintro r m' ⟨hm, hr⟩
    rw [h.bytes] at hr
    cases classify_part hframe hs with
    | inl hshort =>
      rw [hr, hshort, Prog.wp_pure]
      exact ⟨hm, rfl⟩
    | inr hincomplete =>
      rw [hr, hincomplete, Prog.wp_pure]
      exact ⟨hm, rfl⟩

theorem onMessage_empty (fuel : Nat) (h : b.Rep m []) :
    (onMessageLoop proto (fuel + 1) b).wp build m fun r m' => m' = m ∧ r = ([], b) := by
  have hlen : b.length = 0 := h.length
  simp only [onMessageLoop, branch, hlen, Prog.wp_bind]
  rw [if_neg (by decide), Prog.wp_pure, Prog.wp_pure]
  exact ⟨rfl, rfl⟩

theorem onMessage_whole (hframe : IsFrame typeName payload d) (h : Pending m b ps rest k (d ++ extra))
    (hready : HeaderReady m ps) (hcreate : createMessage proto (typeName ++ [0]) = some e)
    (hread : ∀ x, proto.malformed e x = false) :
    (onMessage proto b).wp build m fun r m' =>
      r.1 = [.message (proto.merge e (payload ++ extra))] ∧ Pending m' r.2 [] rest k [] := by
  have hlength := hframe.length
  have hblen : b.length = d.length + extra.length := by
    rw [h.rep.length, h.bytes, List.length_append]
  have hlive : ∀ a ∈ ps, m.Live a := fun a ha => h.owns.live (by simp [ha])
  simp only [onMessage, onMessageLoop, Prog.wp_bind]
  refine (branch_spec h.rep hlive fun _ => headerReady_whole h hready (by omega)).imp ?_
  rintro r m₀ ⟨hm, hr⟩
  subst hm
  rw [hr, h.bytes, classify_whole hframe]
  simp only [Prog.wp_bind]
  have hne : ps ≠ [] := Buffer.ne_nil_of_pos h.rep (by decide : 0 < 4) (by omega)
  refine (Buffer.skip_spec h.rep h.owns hne (by simp only [kHeaderLen]; omega)).imp ?_
  rintro b₁ m₁ ⟨ps₁, hb₁, howns₁, hsame₁, hc₁, hlens₁⟩
  have hcontent : content m₁ ps₁ = d.drop 4 ++ extra := by
    rw [hc₁, h.bytes, kHeaderLen, List.drop_append_of_le_length (by omega)]
  have hnone : firstStop (proto.malformed e) [] (payload ++ extra) = none :=
    firstStop_none.mpr fun _ _ _ => hread _
  obtain ⟨hdecode, htakes⟩ := decodeFrame_whole hframe .kNoError (lens m₁ ps₁) hcreate hnone
  refine (parse_spec proto build _ .kNoError hb₁ howns₁ (h.solid.dropLens hlens₁) ?_ fun _ => ?_).imp ?_
  · rw [hb₁.length, hcontent, List.length_append, List.length_drop]
    omega
  · rw [hcontent]
    exact htakes
  · rintro parsed m₂ ⟨qs, hlinked, howns₂, hsame₂, hresult, hleft, hsolid₂⟩
    rw [hcontent, hdecode] at hresult hleft
    dsimp only at hresult hleft
    rw [List.drop_length] at hleft
    have hnil : qs = [] := by
      have hle := length_le_content hsolid₂
      rw [hleft] at hle
      exact List.eq_nil_of_length_eq_zero (Nat.le_zero.mp hle)
    subst hnil
    have hb₂ : parsed.2.Rep m₂ [] := by
      cases hlinked.tail with
      | inl htail => exact hlinked.rep htail
      | inr hone => cases hone.1
    rw [hresult]
    obtain ⟨fuel, hfuel⟩ : ∃ n, b.length = n + 1 := ⟨b.length - 1, by omega⟩
    simp only [Prog.wp_bind, hfuel]
    refine (onMessage_empty fuel hb₂).imp ?_
    rintro r m₃ ⟨hm, hr⟩
    subst hm hr
    rw [Prog.wp_pure]
    exact ⟨rfl, hb₂, howns₂, fun p hp => by simp at hp, rfl⟩

/-- The length field cannot be read when it is split. -/
theorem onMessage_split {Q : List (Callback proto) × Buffer → Mem → Prop}
    (h : Pending m b ps rest k c) (hsplit : HeaderSplit m ps)
    (hlen : kMinMessageLen + kHeaderLen ≤ c.length) : ¬ (onMessage proto b).wp build m Q := by
  intro hrun
  obtain ⟨p, q, qs, rfl, hshort⟩ := hsplit
  have hblen : b.length = c.length := by rw [h.rep.length, h.bytes]
  have hfour : 4 ≤ b.length := by
    simp only [kMinMessageLen, kHeaderLen] at hlen
    omega
  simp only [onMessage, onMessageLoop, Prog.wp_bind, branch, if_pos (hblen ▸ hlen)] at hrun
  exact Buffer.peekInt_cut h.rep (fun a ha => h.owns.live (List.mem_append_left _ ha)) (by decide)
    (not_inOnePiece_head (h.solid p (by simp)) hshort) hfour hrun

end OnMessage

/-! ## The whole stream -/

section Stream

variable (proto : Protobuf)

/-- Each chunk is appended and `onMessage` called: the callbacks in order, and the
    buffer at the end. -/
def onArrivals : List Arrival → Buffer → Exec (List (Callback proto) × Buffer)
  | [], b => pure ([], b)
  | a :: arrivals, b => do
    let b ← append b a
    let r ← onMessage proto b
    let rest ← onArrivals arrivals r.2
    pure (r.1 ++ rest.1, rest.2)

/-- What is assumed of protobuf: the type is found under its name, the payload
    gives the message back, and the parser stops at the end of the stream only. -/
def Lawful (messages : List proto.Message) : Prop :=
  ∀ x ∈ messages, ∃ e, createMessage proto (proto.getTypeName x ++ [0]) = some e ∧
    proto.merge e (proto.serialize x) = x ∧ ∀ d, proto.malformed e d = false

/-- Every message is called back once, in order, without an error, and nothing is
    left in the buffer. -/
def Delivers (build : Build) (m : Mem) (arrivals : List Arrival) (messages : List proto.Message) :
    Prop :=
  ∃ r m', onArrivals proto arrivals {} build m = .ok (r, m') ∧ r.1 = messages.map .message ∧
    r.2.length = 0 ∧ content m' (r.2.pieces m') = []

end Stream

/-- With `s` bytes of the first frame in the buffer: no chunk reaches beyond the
    frame it begins in, and none splits a length field. -/
def Aligned : Nat → List Bytes → List Arrival → Prop
  | _, frames, [] => frames = []
  | _, [], _ :: _ => False
  | s, d :: frames, a :: arrivals => ¬ a.Splits s ∧
    (s + a.bytes.length < d.length ∧ Aligned (s + a.bytes.length) (d :: frames) arrivals ∨
      s + a.bytes.length = d.length ∧ Aligned 0 frames arrivals)

section Runs

variable {proto : Protobuf} {build : Build} {m : Mem} {b : Buffer} {ps rest : List Ptr} {k s : Nat}
  {x later d c : Bytes} {frames : List Bytes} {arrivals : List Arrival}

theorem arrived_inside (hbytes : x ++ later = (d ++ c).drop s) (hs : s + x.length ≤ d.length) :
    d.take s ++ x = d.take (s + x.length) ∧ later = (d ++ c).drop (s + x.length) := by
  have hdrop : (d ++ c).drop s = d.drop s ++ c := List.drop_append_of_le_length (by omega)
  have hx : x = (d.drop s).take x.length := by
    have htake := congrArg (List.take x.length) hbytes
    rw [List.take_left' rfl, hdrop,
      List.take_append_of_le_length (by rw [List.length_drop]; omega)] at htake
    exact htake
  refine ⟨?_, ?_⟩
  · rw [List.take_add, ← hx]
  · have hlater := congrArg (List.drop x.length) hbytes
    rw [List.drop_left' rfl, List.drop_drop] at hlater
    exact hlater

theorem arrived_beyond (hbytes : x ++ later = (d ++ c).drop s) (hs : s ≤ d.length)
    (hbeyond : d.length < s + x.length) : ∃ extra, extra ≠ [] ∧ d.take s ++ x = d ++ extra := by
  have hdrop : (d ++ c).drop s = d.drop s ++ c := List.drop_append_of_le_length hs
  have hlen : (d.drop s).length ≤ x.length := by
    rw [List.length_drop]
    omega
  refine ⟨x.drop (d.length - s), fun hnil => ?_, ?_⟩
  · rw [List.drop_eq_nil_iff] at hnil
    omega
  · have hx : x.take (d.length - s) = d.drop s := by
      have htake := congrArg (List.take (d.length - s)) hbytes
      rw [List.take_append_of_le_length (by omega), hdrop,
        List.take_left' (List.length_drop ..)] at htake
      exact htake
    calc d.take s ++ x = d.take s ++ (x.take (d.length - s) ++ x.drop (d.length - s)) := by
          rw [List.take_append_drop]
      _ = d ++ x.drop (d.length - s) := by
          rw [hx, ← List.append_assoc, List.take_append_drop]

/-- A chunk that comes while the first `s` bytes of the frame `d` are in the
    buffer, and what `onMessage` makes of it. -/
theorem arrival_step {typeName payload : Bytes} {a : Arrival} {e : proto.Message}
    (hframe : IsFrame typeName payload d) (hs : s < d.length)
    (h : Pending m b ps rest k (d.take s)) (hready : HeaderReady m ps) (ha : a.Possible)
    (hbytes : a.bytes ++ later = (d ++ c).drop s) (hroom : rest.length + k < 2147483648)
    (hcreate : createMessage proto (typeName ++ [0]) = some e)
    (hread : ∀ x, proto.malformed e x = false) (hsplits : ¬ a.Splits s) :
    (append b a).wp build m fun b' m₁ => (onMessage proto b').wp build m₁ fun r m' =>
      (s + a.bytes.length < d.length ∧ r.1 = [] ∧
        ∃ ps', Pending m' r.2 ps' rest k (d.take (s + a.bytes.length)) ∧ HeaderReady m' ps') ∨
      (s + a.bytes.length = d.length ∧ r.1 = [.message (proto.merge e payload)] ∧
        Pending m' r.2 [] rest k []) ∨
      (d.length < s + a.bytes.length ∧
        ∃ extra, extra ≠ [] ∧ r.1 = [.message (proto.merge e (payload ++ extra))]) := by
  have hlen : (d.take s).length = s := by
    rw [List.length_take]
    omega
  have hmax := hframe.max
  have hlength := hframe.length
  simp only [kMaxMessageLen] at hmax
  refine (append_spec h hready ha (by rw [hlen]; omega)).imp ?_
  rintro b' m₁ ⟨ps', hpending, _, hnot⟩
  have hready' := hnot (by rwa [hlen])
  rcases Nat.lt_trichotomy (s + a.bytes.length) d.length with hlt | heq | hgt
  · rw [(arrived_inside hbytes (Nat.le_of_lt hlt)).1] at hpending
    refine (onMessage_part hframe hlt hpending hready').imp ?_
    rintro r m' ⟨hm, hr⟩
    subst hm hr
    exact .inl ⟨hlt, rfl, ps', hpending, hready'⟩
  · rw [(arrived_inside hbytes (Nat.le_of_eq heq)).1, heq, List.take_length,
      ← List.append_nil d] at hpending
    refine (onMessage_whole hframe hpending hready' hcreate hread).imp ?_
    rintro r m' ⟨hr, hempty⟩
    rw [List.append_nil] at hr
    exact .inr (.inl ⟨heq, hr, hempty⟩)
  · obtain ⟨extra, hextra, hcontent⟩ := arrived_beyond hbytes (Nat.le_of_lt hs) hgt
    rw [hcontent] at hpending
    refine (onMessage_whole hframe hpending hready' hcreate hread).imp ?_
    rintro r m' ⟨hr, _⟩
    exact .inr (.inr ⟨hgt, extra, hextra, hr⟩)

theorem pos_of_frames {α : Type} {f g : α → Bytes} {xs : List α}
    (h : List.Forall₂ (fun x d => IsFrame (f x) (g x) d) xs frames) (d : Bytes) (fs : List Bytes)
    (heq : frames = d :: fs) : 0 < d.length := by
  subst heq
  cases h with
  | cons hframe _ =>
    rw [hframe.length]
    omega

/-- Chunks that respect the frames deliver the messages. -/
theorem onArrivals_of_aligned {messages : List proto.Message} (hlawful : Lawful proto messages)
    (hframes : List.Forall₂ (fun x d => IsFrame (proto.getTypeName x) (proto.serialize x) d)
      messages frames)
    (hpossible : ∀ a ∈ arrivals, a.Possible)
    (hbytes : arrivals.flatMap Arrival.bytes = frames.flatten.drop s)
    (hs : ∀ d fs, frames = d :: fs → s < d.length)
    (h : Pending m b ps rest k ((frames.headD []).take s)) (hready : HeaderReady m ps)
    (hroom : rest.length + k < 2147483648) (haligned : Aligned s frames arrivals) :
    (onArrivals proto arrivals b).wp build m fun r m' =>
      r.1 = messages.map .message ∧ Pending m' r.2 [] rest k [] := by
  induction arrivals generalizing s frames messages b m ps with
  | nil =>
    obtain rfl : frames = [] := haligned
    cases hframes
    have hnil : ps = [] := by
      have hle := length_le_content h.solid
      rw [h.bytes] at hle
      simpa using hle
    subst hnil
    simp only [onArrivals, Prog.wp_pure]
    exact ⟨rfl, by simpa using h⟩
  | cons a arrivals ih =>
    cases hframes with
    | nil => exact absurd haligned id
    | @cons x d messages frames hframe hframes =>
      obtain ⟨hsplits, hnext⟩ := haligned
      obtain ⟨e, hcreate, hmerge, hread⟩ := hlawful x (by simp)
      have hsd := hs d frames rfl
      rw [List.flatMap_cons, List.flatten_cons] at hbytes
      have hpossible' : ∀ a ∈ arrivals, a.Possible := fun a ha => hpossible a (by simp [ha])
      simp only [onArrivals, Prog.wp_bind, Prog.wp_pure]
      refine (arrival_step hframe hsd h hready (hpossible a (by simp)) hbytes hroom hcreate hread
        hsplits).imp fun b' m₁ hmessage => hmessage.imp ?_
      intro r m' hstep
      rcases hstep with ⟨hlt, hr, ps', hpending, hready'⟩ | ⟨heq, hr, hempty⟩ | ⟨hgt, _⟩
      · -- the frame is not complete yet
        have hnext' : Aligned (s + a.bytes.length) (d :: frames) arrivals := by
          cases hnext with
          | inl hinside => exact hinside.2
          | inr hend => omega
        refine (ih hlawful (.cons hframe hframes) hpossible'
          (arrived_inside hbytes (Nat.le_of_lt hlt)).2 (fun d' fs heq => ?_) hpending hready'
          hnext').imp ?_
        · obtain ⟨rfl, _⟩ := List.cons.inj heq
          exact hlt
        · rintro rest' m'' ⟨hrest, hempty⟩
          exact ⟨by rw [hr, hrest, List.nil_append], hempty⟩
      · -- the frame is complete and nothing else is there
        have hnext' : Aligned 0 frames arrivals := by
          cases hnext with
          | inl hinside => omega
          | inr hend => exact hend.2
        have hlater := (arrived_inside hbytes (Nat.le_of_eq heq)).2
        rw [heq, List.drop_left' rfl] at hlater
        refine (ih (s := 0) (fun y hy => hlawful y (by simp [hy])) hframes hpossible' hlater
          (pos_of_frames hframes) hempty (fun p qs hp => by cases hp) hnext').imp ?_
        rintro rest' m'' ⟨hrest, hempty'⟩
        refine ⟨?_, hempty'⟩
        rw [hr, hrest, hmerge]
        rfl
      · cases hnext with
        | inl hinside => omega
        | inr hend => omega

/-- With messages that show every byte, only such chunks do. -/
theorem aligned_of_onArrivals {messages : List verbatim.Message}
    (hframes : List.Forall₂ (fun x d => IsFrame x.1 x.2 d) messages frames)
    (hpossible : ∀ a ∈ arrivals, a.Possible)
    (hbytes : arrivals.flatMap Arrival.bytes = frames.flatten.drop s)
    (hs : ∀ d fs, frames = d :: fs → s < d.length)
    (h : Pending m b ps rest k ((frames.headD []).take s)) (hready : HeaderReady m ps)
    (hroom : rest.length + k < 2147483648)
    (hrun : (onArrivals verbatim arrivals b).wp build m fun r _ => r.1 = messages.map .message) :
    Aligned s frames arrivals := by
  induction arrivals generalizing s frames messages b m ps with
  | nil =>
    cases frames with
    | nil => rfl
    | cons d frames =>
      have hsd := hs d frames rfl
      have hlength := congrArg List.length hbytes
      rw [List.flatten_cons, List.length_drop, List.length_append] at hlength
      simp only [List.flatMap_nil, List.length_nil] at hlength
      omega
  | cons a arrivals ih =>
    have hapossible := hpossible a (by simp)
    have hpos : 0 < a.bytes.length := List.length_pos_iff.mpr hapossible.ne_nil
    rw [List.flatMap_cons] at hbytes
    cases hframes with
    | nil =>
      have hlength := congrArg List.length hbytes
      simp only [List.flatten_nil, List.drop_nil, List.length_append, List.length_nil] at hlength
      omega
    | @cons x d messages frames hframe hframes =>
      have hsd := hs d frames rfl
      have hlen : (d.take s).length = s := by
        rw [List.length_take]
        omega
      have hmax := hframe.max
      have hlength := hframe.length
      simp only [kMaxMessageLen] at hmax
      rw [List.flatten_cons] at hbytes
      simp only [onArrivals, Prog.wp_bind, Prog.wp_pure] at hrun
      have hsplits : ¬ a.Splits s := by
        intro hsplits
        obtain ⟨b', m₁, _, ⟨ps', hpending, hsplit, _⟩, hmessage⟩ :=
          (append_spec h hready hapossible (by rw [List.headD_cons, hlen]; omega)).and hrun
        refine onMessage_split hpending (hsplit (by rwa [List.headD_cons, hlen])) ?_ hmessage
        cases a with
        | write x => exact absurd hsplits id
        | receive x =>
          obtain ⟨_, _, hlong⟩ := hsplits
          rw [List.headD_cons, List.length_append, hlen]
          simp only [kMinMessageLen, kHeaderLen, kPieceCapacity, Arrival.bytes] at hlong ⊢
          omega
      have hcreate : createMessage verbatim (x.1 ++ [0]) = some (x.1, []) := by
        simp [createMessage, verbatim]
      refine ⟨hsplits, ?_⟩
      obtain ⟨b', m₁, _, hmessage, hrun'⟩ :=
        (arrival_step hframe hsd h hready hapossible hbytes hroom hcreate (fun _ => rfl)
          hsplits).and hrun
      obtain ⟨r, m', _, hstep, hrest⟩ := hmessage.and hrun'
      rcases hstep with ⟨hlt, hr, ps', hpending, hready'⟩ | ⟨heq, hr, hempty⟩ | ⟨hgt, extra, hextra, hr⟩
      · refine .inl ⟨hlt, ih (.cons hframe hframes) (fun a ha => hpossible a (by simp [ha]))
          (arrived_inside hbytes (Nat.le_of_lt hlt)).2 (fun d' fs heq => ?_) hpending hready'
          (hrest.imp fun rest' _ hall => ?_)⟩
        · obtain ⟨rfl, _⟩ := List.cons.inj heq
          exact hlt
        · rwa [hr, List.nil_append] at hall
      · have hlater := (arrived_inside hbytes (Nat.le_of_eq heq)).2
        rw [heq, List.drop_left' rfl] at hlater
        refine .inr ⟨heq, ih (s := 0) hframes (fun a ha => hpossible a (by simp [ha])) hlater
          (pos_of_frames hframes) hempty (fun p qs hp => by cases hp)
          (hrest.imp fun rest' _ hall => ?_)⟩
        rw [hr] at hall
        exact (List.cons.inj hall).2
      · -- the first message would have more bytes than it was sent with
        obtain ⟨rest', m'', _, hall⟩ := hrest
        rw [hr] at hall
        have hpayload : x.2 ++ extra = x.2 :=
          congrArg Prod.snd (Callback.message.inj (List.cons.inj hall).1)
        exact absurd (List.append_right_eq_self.mp hpayload) hextra

end Runs

/-! ## Which streams are delivered -/

/-- `d` is the frame `fillEmptyBuffer` makes of a message with this type name and
    payload. -/
def Encodes (x : Bytes × Bytes) (d : Bytes) : Prop :=
  ∃ build m b m' rest k, Owns m rest k ∧ fillFrame {} x.1 x.2 build m = .ok (b, m') ∧
    d = content m' (b.pieces m')

/-- protobuf's own limits: a type name and a serialized message have at most
    `INT_MAX` bytes. -/
def WithinLimits (x : Bytes × Bytes) : Prop := x.1.length + 1 ≤ 2147483647 ∧ x.2.length ≤ 2147483647

/-- The length field of the frame is in the decoder's range. -/
def FieldInRange (d : Bytes) : Prop :=
  (kMinMessageLen : Int) ≤ bytesInt (d.take 4) ∧ bytesInt (d.take 4) ≤ kMaxMessageLen

theorem isFrame_of_encodes {x : Bytes × Bytes} {d : Bytes} (h : Encodes x d) (hlimits : WithinLimits x)
    (hfield : FieldInRange d) : IsFrame x.1 x.2 d := by
  obtain ⟨build, m, b, m', rest, k, howns, hrun, rfl⟩ := h
  obtain ⟨ps, hrep, howns', _, hcontent, hname⟩ := fillFrame_ok (Buffer.Rep.empty m) howns hrun
  have hpieces : b.pieces m' = ps := hrep.holds.rep.pieces_eq fun p hp => howns'.live (by simp [hp])
  rw [hpieces, hcontent] at hfield ⊢
  obtain ⟨hnameLen, hnameField⟩ := nameLen_of_limits hlimits.1
  have hserialized : BufferOutputStream.serialized x.2 = x.2 := if_pos hlimits.2
  have hword : u32 (x.1.length + 1) = x.1.length + 1 := Nat.mod_eq_of_lt (by have := hlimits.1; omega)
  obtain ⟨n, hsum, hn, hlength, hshape⟩ := frame_shape x.2 (by have := hlimits.1; omega) hname
  rw [hword, hserialized] at hsum
  rw [FieldInRange, hshape] at hfield
  obtain ⟨hmin, hmax⟩ := (lengthField_iff hn).mp ⟨hfield.2, hfield.1⟩
  rw [signedWord_of_small hmax] at hshape
  subst hsum
  refine ⟨by omega, hshape, ?_, hmin, hmax⟩
  rw [frame, List.drop_left' (length_intBytes 4 _), frameBody, hnameLen, hnameField, hserialized]

section Delivered

variable {build : Build} {m : Mem} {rest : List Ptr} {k : Nat} {ms : List (Bytes × Bytes)}
  {frames : List Bytes} {arrivals : List Arrival}

theorem isFrame_of_forall₂ (hencodes : List.Forall₂ Encodes ms frames)
    (hlimits : ∀ x ∈ ms, WithinLimits x) (hfield : ∀ d ∈ frames, FieldInRange d) :
    List.Forall₂ (fun x d => IsFrame x.1 x.2 d) ms frames := by
  induction hencodes with
  | nil => exact .nil
  | cons hencodes _ ih =>
    refine .cons (isFrame_of_encodes hencodes (hlimits _ (by simp)) (hfield _ (by simp))) (ih ?_ ?_)
    · exact fun x hx => hlimits x (by simp [hx])
    · exact fun d hd => hfield d (by simp [hd])

theorem pending_start (howns : Owns m rest k) (frames : List Bytes) :
    Pending m {} [] rest k ((frames.headD []).take 0) :=
  ⟨Buffer.Rep.empty m, howns, fun p hp => by simp at hp, rfl⟩

theorem verbatim_lawful (ms : List (Bytes × Bytes)) : Lawful verbatim ms := fun x _ =>
  ⟨(x.1, []), by simp [createMessage, verbatim], rfl, fun _ => rfl⟩

/-- For verbatim messages the chunks have to respect the frames. -/
theorem aligned_of_delivers (hframes : List.Forall₂ (fun x d => IsFrame x.1 x.2 d) ms frames)
    (hpossible : ∀ a ∈ arrivals, a.Possible)
    (hbytes : arrivals.flatMap Arrival.bytes = frames.flatten) (howns : Owns m rest k)
    (hroom : rest.length + k < 2147483648) (h : Delivers verbatim build m arrivals ms) :
    Aligned 0 frames arrivals := by
  obtain ⟨r, m', hrun, hr, _⟩ := h
  exact aligned_of_onArrivals (s := 0) hframes hpossible hbytes (pos_of_frames hframes)
    (pending_start howns frames) (fun p qs hp => by cases hp) hroom ⟨r, m', hrun, hr⟩

/-- A stream of frames is delivered, whatever messages its bytes stand for, exactly
    when its chunks respect the frames. -/
theorem delivers_iff (hencodes : List.Forall₂ Encodes ms frames) (hlimits : ∀ x ∈ ms, WithinLimits x)
    (hfield : ∀ d ∈ frames, FieldInRange d) (hpossible : ∀ a ∈ arrivals, a.Possible)
    (hbytes : arrivals.flatMap Arrival.bytes = frames.flatten) (howns : Owns m rest k)
    (hroom : rest.length + k < 2147483648) :
    (∀ (proto : Protobuf) (messages : List proto.Message), Lawful proto messages →
      messages.map (fun x => (proto.getTypeName x, proto.serialize x)) = ms →
      Delivers proto build m arrivals messages) ↔ Aligned 0 frames arrivals := by
  have hframes := isFrame_of_forall₂ hencodes hlimits hfield
  constructor
  · intro h
    exact aligned_of_delivers hframes hpossible hbytes howns hroom
      (h verbatim ms (verbatim_lawful ms) (List.map_id _))
  · intro haligned proto messages hlawful hms
    subst hms
    obtain ⟨r, m', hrun, hr, hempty⟩ : (onArrivals proto arrivals {}).wp build m _ :=
      onArrivals_of_aligned (s := 0) hlawful (List.forall₂_map_left_iff.mp hframes) hpossible hbytes
        (pos_of_frames hframes) (pending_start howns frames) (fun p qs hp => by cases hp) hroom haligned
    refine ⟨r, m', hrun, hr, hempty.rep.length, ?_⟩
    rw [hempty.rep.holds.rep.pieces_eq fun p hp => by simp at hp]
    rfl

/-- An empty message of a type with a five-letter name. -/
def hello : Bytes × Bytes := ([72, 101, 108, 108, 111], [])

def helloFrame : Bytes := [0, 0, 0, 10, 0, 0, 0, 6, 72, 101, 108, 108, 111, 0]

theorem hello_encodes : Encodes hello helloFrame := by
  have howns : Owns emptyMem [] 0 := Owns.initial _
  obtain ⟨b, m', hrun⟩ : ∃ b m', fillFrame {} hello.1 hello.2 .release emptyMem = .ok (b, m') :=
    fillFrame_release (Buffer.Rep.empty _) howns (by decide)
  obtain ⟨ps, hrep, howns', _, hcontent, _⟩ := fillFrame_ok (Buffer.Rep.empty _) howns hrun
  have hpieces : b.pieces m' = ps := hrep.holds.rep.pieces_eq fun p hp => howns'.live (by simp [hp])
  exact ⟨.release, emptyMem, b, m', [], 0, howns, hrun, by rw [hpieces, hcontent]; decide⟩

/-- Two frames that arrive together are not delivered as two messages. -/
theorem joined_frames_not_delivered :
    ¬ ∀ (build : Build) (m : Mem) (rest : List Ptr) (k : Nat) (ms : List (Bytes × Bytes))
      (frames : List Bytes) (arrivals : List Arrival), List.Forall₂ Encodes ms frames →
      (∀ x ∈ ms, WithinLimits x) → (∀ d ∈ frames, FieldInRange d) →
      (∀ a ∈ arrivals, a.Possible) → arrivals.flatMap Arrival.bytes = frames.flatten →
      Owns m rest k → rest.length + k < 2147483648 →
      ∀ (proto : Protobuf) (messages : List proto.Message), Lawful proto messages →
        messages.map (fun x => (proto.getTypeName x, proto.serialize x)) = ms →
        Delivers proto build m arrivals messages := by
  intro hclaim
  have hencodes : List.Forall₂ Encodes [hello, hello] [helloFrame, helloFrame] :=
    .cons hello_encodes (.cons hello_encodes .nil)
  have hlimits : ∀ x ∈ [hello, hello], WithinLimits x := by simp [WithinLimits, hello]
  have hfield : ∀ d ∈ [helloFrame, helloFrame], FieldInRange d := by
    intro d hd
    obtain rfl : d = helloFrame := by simpa using hd
    exact ⟨by decide, by decide⟩
  have hpossible : ∀ a ∈ [Arrival.write (helloFrame ++ helloFrame)], a.Possible := by
    simp [Arrival.Possible, helloFrame]
  have hbytes : [Arrival.write (helloFrame ++ helloFrame)].flatMap Arrival.bytes =
      [helloFrame, helloFrame].flatten := by decide
  have howns : Owns emptyMem [] 0 := Owns.initial _
  have hdelivers := hclaim .release emptyMem [] 0 _ _ _ hencodes hlimits hfield hpossible hbytes howns
    (by decide) verbatim [hello, hello] (verbatim_lawful _) rfl
  have haligned := aligned_of_delivers (isFrame_of_forall₂ hencodes hlimits hfield) hpossible hbytes
    howns (by decide) hdelivers
  simp [Aligned, Arrival.bytes, helloFrame] at haligned

/-- The same two messages, the first one in two chunks and the second one in a chunk of its own. -/
theorem delivers_hello_twice :
    Delivers verbatim .release emptyMem
      [.receive (helloFrame.take 3), .receive (helloFrame.drop 3), .write helloFrame] [hello, hello] := by
  refine (delivers_iff (.cons hello_encodes (.cons hello_encodes .nil)) (by simp [WithinLimits, hello]) ?_
    ?_ (by decide) (Owns.initial _) (by decide)).mpr ?_ verbatim [hello, hello] (verbatim_lawful _) rfl
  · intro d hd
    obtain rfl : d = helloFrame := by simpa using hd
    exact ⟨by decide, by decide⟩
  · simp [Arrival.Possible, helloFrame, kPieceCapacity]
  · simp [Aligned, Arrival.bytes, Arrival.Splits, helloFrame, kPieceCapacity]

end Delivered

end ProtobufCodec

end Netpp
