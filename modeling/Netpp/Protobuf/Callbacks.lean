import Netpp.Conn.TCPConn
import Netpp.Protobuf.Delivery

/-! # `onMessage` with its callbacks

The callbacks of a `ProtobufCodec` run inside the loop of `onMessage`, between one frame
and the next, and may call the connection.  What they do is in `σ`; that they leave the
buffer alone is what the buffer's absence from `σ` says.

* `onMessageWith_record`: `onMessage` is the loop whose callbacks write down their calls.
* `onMessageWith_part`, `onMessageWith_frame`: the loop on a part of a frame and on a
  frame, for a parser that may stop.
* `fillFrame_short`: `fillEmptyBuffer` on a message that fits into a piece, in both builds.
-/

namespace Netpp

namespace ProtobufCodec

variable {proto : Protobuf} {σ : Type}

/-- `onMessage`, with `messageCallback_` and `errorCallback_`. -/
def onMessageWith (messageCallback : proto.Message → σ → ConnExec σ)
    (errorCallback : ErrorCode → σ → ConnExec σ) : Nat → Buffer → σ → ConnExec (σ × Buffer)
  | 0, _, _ => throw (.memory .outOfFuel)
  | fuel + 1, buf, s => do
    match ← onPieces (branch buf) with
    -- each error ends the loop, whatever the callback has done
    | .invalidLength => do
      let s ← errorCallback .kInvalidLength s
      pure (s, buf)
    | .complete len => do
      let buf ← onPieces (buf.skip kHeaderLen)
      let r ← onPieces (parse proto buf len .kNoError)
      match r.1 with
      | (some message, .kNoError) => do
        let s ← messageCallback message s
        onMessageWith messageCallback errorCallback fuel r.2 s
      | (_, error) => do
        let s ← errorCallback error s
        pure (s, r.2)
    | _ => pure (s, buf)

/-- Callbacks that do nothing but write down what they are called with. -/
theorem onMessageWith_record (fuel : Nat) (b : Buffer) (calls : List (Callback proto)) :
    onMessageWith (fun message calls => pure (calls ++ [Callback.message message]))
        (fun error calls => pure (calls ++ [Callback.error error])) fuel b calls = (do
      let r ← onPieces (onMessageLoop proto fuel b)
      pure (calls ++ r.1, r.2)) := by
  induction fuel generalizing b calls with
  | zero => rfl
  | succ fuel ih =>
    simp only [onMessageWith, onMessageLoop, onPieces, Prog.mapFault_bind, bind_assoc]
    apply bind_congr
    intro branch
    cases branch with
    | tooShort => simp only [Prog.mapFault_pure, pure_bind, List.append_nil]
    | invalidLength => simp only [Prog.mapFault_pure, pure_bind]
    | incomplete => simp only [Prog.mapFault_pure, pure_bind, List.append_nil]
    | complete len =>
      simp only [Prog.mapFault_bind, bind_assoc]
      apply bind_congr
      intro buf
      apply bind_congr
      rintro ⟨⟨message, error⟩, buf'⟩
      cases message with
      | none => simp only [Prog.mapFault_pure, pure_bind]
      | some message =>
        cases error with
        | kNoError =>
          have hrest := ih buf' (calls ++ [.message message])
          simp only [onPieces] at hrest
          simp only [Prog.mapFault_bind, Prog.mapFault_pure, pure_bind, bind_assoc, hrest,
            List.append_assoc, List.cons_append, List.nil_append]
        | kInvalidLength | kInvalidNameLen | kUnknownMessageType | kParseError =>
          simp only [Prog.mapFault_pure, pure_bind]

section Frames

variable {messageCallback : proto.Message → σ → ConnExec σ}
  {errorCallback : ErrorCode → σ → ConnExec σ}
  {build : Build} {m : Mem} {b : Buffer} {ps rest : List Ptr} {k n fuel : Nat}
  {typeName payload d : Bytes} {e : proto.Message} {s : σ} {Q : σ × Buffer → Mem → Prop}

theorem onMessageWith_part (hframe : IsFrame typeName payload d) (hn : n < d.length)
    (h : Pending m b ps rest k (d.take n)) (hready : HeaderReady m ps) :
    (onMessageWith messageCallback errorCallback (fuel + 1) b s).wp build m fun r m' =>
      m' = m ∧ r = (s, b) := by
  simp only [onMessageWith, onPieces, Prog.wp_bind, Prog.wp_mapFault]
  refine (branch_spec h.rep (fun a ha => h.owns.live (by simp [ha])) fun hguard => ?_).imp ?_
  · apply headerReady_whole h hready
    simp only [kMinMessageLen, kHeaderLen] at hguard
    omega
  · rintro r m' ⟨hm, hr⟩
    rw [h.bytes] at hr
    cases classify_part hframe hn with
    | inl hshort =>
      rw [hr, hshort, Prog.wp_pure]
      exact ⟨hm, rfl⟩
    | inr hincomplete =>
      rw [hr, hincomplete, Prog.wp_pure]
      exact ⟨hm, rfl⟩

theorem onMessageWith_empty (h : b.Rep m []) :
    (onMessageWith messageCallback errorCallback (fuel + 1) b s).wp build m fun r m' =>
      m' = m ∧ r = (s, b) := by
  have hlen : b.length = 0 := h.length
  simp only [onMessageWith, onPieces, branch, hlen, Prog.wp_bind, Prog.wp_mapFault]
  rw [if_neg (by decide), Prog.wp_pure, Prog.wp_pure]
  exact ⟨rfl, rfl⟩

/-- A frame alone, of a message at whose payload the parser does not stop before its end: the
    message callback runs with the buffer empty and the other buffers as they were, and
    nothing is called after it. -/
theorem onMessageWith_frame (hframe : IsFrame typeName payload d) (h : Pending m b ps rest k d)
    (hready : HeaderReady m ps) (hcreate : createMessage proto (typeName ++ [0]) = some e)
    (hread : ∀ j, proto.malformed e (payload.take j) = false) (hfuel : 1 < fuel)
    (hcallback : ∀ b₁ m₁, b₁.Rep m₁ [] → Owns m₁ rest k → SameOn rest m m₁ →
      (messageCallback (proto.merge e payload) s).wp build m₁ fun s' m' => Q (s', b₁) m') :
    (onMessageWith messageCallback errorCallback fuel b s).wp build m Q := by
  obtain ⟨fuel, rfl⟩ : ∃ j, fuel = j + 1 + 1 := ⟨fuel - 2, by omega⟩
  have hlength := hframe.length
  have hblen : b.length = d.length := by rw [h.rep.length, h.bytes]
  have hlive : ∀ a ∈ ps, m.Live a := fun a ha => h.owns.live (by simp [ha])
  have hwhole : classify (d ++ []) = .complete (4 + (typeName.length + 1) + payload.length : Nat) :=
    classify_whole hframe
  rw [List.append_nil] at hwhole
  have hpayload : payload ++ [] = payload := List.append_nil payload
  have hbody : d.drop 4 ++ [] = d.drop 4 := List.append_nil _
  have hnone : firstStop (proto.malformed e) [] (payload ++ []) = none :=
    firstStop_none.mpr fun j _ _ => by rw [hpayload]; exact hread j
  rw [onMessageWith, Prog.wp_bind, onPieces, Prog.wp_mapFault]
  refine (branch_spec h.rep hlive fun _ => headerReady_whole h hready (by omega)).imp ?_
  rintro r m₀ ⟨hm, hr⟩
  subst hm
  rw [hr, h.bytes, hwhole]
  simp only [onPieces, Prog.wp_bind, Prog.wp_mapFault]
  have hne : ps ≠ [] := Buffer.ne_nil_of_pos h.rep (by decide : 0 < 4) (by omega)
  refine (Buffer.skip_spec h.rep h.owns hne (by simp only [kHeaderLen]; omega)).imp ?_
  rintro b₁ m₁ ⟨ps₁, hb₁, howns₁, hsame₁, hc₁, hlens₁⟩
  obtain ⟨hdecode, htakes⟩ := decodeFrame_whole hframe .kNoError (lens m₁ ps₁) hcreate hnone
  rw [hbody] at htakes
  rw [hbody, hpayload] at hdecode
  have hcontent : content m₁ ps₁ = d.drop 4 := by rw [hc₁, h.bytes, kHeaderLen]
  refine (parse_spec proto build _ .kNoError hb₁ howns₁ (h.solid.dropLens hlens₁) ?_
    fun _ => hcontent ▸ htakes).imp ?_
  · rw [hb₁.length, hcontent, List.length_drop]
    omega
  · rintro parsed m₂ ⟨qs, hlinked, howns₂, hsame₂, hresult, hleft, hsolid₂⟩
    rw [hcontent, hdecode] at hresult hleft
    dsimp only at hresult hleft
    rw [List.drop_length] at hleft
    have hnil : qs = [] := by
      have hle := length_le_content hsolid₂
      rw [hleft] at hle
      exact List.eq_nil_of_length_eq_zero (Nat.le_zero.mp hle)
    subst hnil
    have hb₂ : parsed.2.Rep m₂ [] := by
      cases hlinked.tail with
      | inl htail => exact hlinked.rep htail
      | inr hone => cases hone.1
    rw [hresult]
    simp only [Prog.wp_bind]
    refine (hcallback parsed.2 m₂ hb₂ howns₂ (hsame₁.trans hsame₂)).imp ?_
    intro s' m' hQ
    have hempty : parsed.2.Rep m' [] := hb₂.same fun p hp => (by cases hp)
    refine (onMessageWith_empty hempty).imp ?_
    rintro r m₃ ⟨hm₃, hr₃⟩
    rw [hm₃, hr₃]
    exact hQ

end Frames

/-! ## Sending -/

section Fill

variable {build : Build} {m : Mem} {rest : List Ptr} {k : Nat} {typeName payload : Bytes}

theorem isFrame_frame (hmin : kMinMessageLen ≤ 4 + (typeName.length + 1) + payload.length)
    (hmax : 4 + (typeName.length + 1) + payload.length ≤ kMaxMessageLen) :
    IsFrame typeName payload (frame typeName payload) := by
  have hmax' := hmax
  simp only [kMaxMessageLen] at hmax'
  have hword : u32 (typeName.length + 1) = typeName.length + 1 := Nat.mod_eq_of_lt (by omega)
  obtain ⟨hnameLen, hnameField⟩ : nameLen typeName = (typeName.length + 1 : Nat) ∧
      nameField typeName = typeName ++ [0] := nameLen_of_limits (by omega)
  have hserialized : BufferOutputStream.serialized payload = payload := if_pos (by omega)
  have hsize : unsignedWord 64 (nameLen typeName) ≤ typeName.length + 1 := by
    rw [hnameLen, unsignedWord_natCast]
    exact Nat.mod_le _ _
  obtain ⟨n, hsum, _, hlength, hfield⟩ := frame_shape payload (by omega) hsize
  rw [hword, hserialized] at hsum
  subst hsum
  rw [signedWord_of_small hmax] at hfield
  refine ⟨by omega, hfield, ?_, hmin, hmax⟩
  rw [frame, List.drop_left' (length_intBytes 4 _), frameBody, hnameLen, hnameField, hserialized]

theorem single_of_extends {m' : Mem} {p : Ptr} {ps : List Ptr} (h : Extends m m' [p] ps)
    (hshort : (m.cell p).off + (content m' ps).length < kPieceCapacity) : ps = [p] := by
  obtain ⟨qs, rfl, hoff⟩ := h.head
  cases qs with
  | nil => rfl
  | cons q qs =>
    have hlen : (m'.cell p).len ≤ (content m' (p :: q :: qs)).length := by
      rw [content_cons, List.length_append, length_bytes]
      omega
    cases h.full p (by simp) with
    | inl hnone => simp at hnone
    | inr hfull => omega

/-- A frame that is shorter than a piece is written into one. -/
theorem fillFrame_short (hname : typeName.length + 1 ≤ 2147483647) (hne : payload ≠ [])
    (hshort : 8 + (typeName.length + 1) + payload.length < kPieceCapacity) (howns : Owns m rest k) :
    (fillFrame {} typeName payload).wp build m fun b' m' => ∃ p,
      b'.Rep m' [p] ∧ Owns m' (p :: rest) k ∧ SameOn rest m m' ∧
      content m' [p] = frame typeName payload := by
  have hshort' : 8 + (typeName.length + 1) + payload.length < 4096 := hshort
  obtain ⟨hnameLen, hnameField⟩ := nameLen_of_limits hname
  have hsize : unsignedWord 64 (nameLen typeName) ≤ typeName.length + 1 := by
    rw [hnameLen, unsignedWord_natCast]
    exact Nat.mod_le _ _
  have hserialized : BufferOutputStream.serialized payload = payload := if_pos (by omega)
  have hfield : (nameField typeName).length = typeName.length + 1 := by simp [hnameField]
  rw [fillFrame_eq]
  simp only [fillHead, bind_assoc, Prog.wp_bind]
  refine (Buffer.reservedPrepend_spec (Buffer.Rep.empty m) howns (by decide)).imp ?_
  rintro b₁ m₁ ⟨p, hb₁, howns₁, hsame₁, hoff₁, hc₁⟩
  refine (Buffer.write_spec hb₁ howns₁).imp ?_
  rintro b₂ m₂ ⟨ps₂, hb₂, howns₂, hsame₂, hc₂, hext₂, _⟩
  rw [hc₁, List.nil_append] at hc₂
  obtain rfl : ps₂ = [p] := by
    apply single_of_extends hext₂
    rw [hoff₁, hc₂, length_intBytes, kPieceCapacity]
    omega
  have hoff₂ := hext₂.off p (by simp)
  rw [if_pos (by simp), hoff₁] at hoff₂
  simp only [cString, hsize, if_true, Prog.wp_pure]
  refine (Buffer.write_spec hb₂ howns₂).imp ?_
  rintro b₃ m₃ ⟨ps₃, hb₃, howns₃, hsame₃, hc₃, hext₃, _⟩
  rw [hc₂] at hc₃
  have hfield' : ((typeName ++ [0]).take (unsignedWord 64 (nameLen typeName))) = nameField typeName := rfl
  obtain rfl : ps₃ = [p] := by
    apply single_of_extends hext₃
    rw [hoff₂, hc₃, hfield', List.length_append, length_intBytes, hfield, kPieceCapacity]
    omega
  have hoff₃ := hext₃.off p (by simp)
  rw [if_pos (by simp), hoff₂] at hoff₃
  rw [BufferOutputStream.serializeToZeroCopyStream, hserialized]
  refine (BufferOutputStream.serializeLoop_spec hb₃ howns₃ (Nat.lt_succ_self _) fun _ => .inl hne).imp ?_
  rintro b₄ m₄ ⟨ps₄, hb₄, howns₄, hsame₄, hc₄, hext₄⟩
  rw [hc₃, hfield'] at hc₄
  obtain rfl : ps₄ = [p] := by
    apply single_of_extends hext₄
    rw [hoff₃, hc₄, List.length_append, List.length_append, length_intBytes, hfield, kPieceCapacity]
    omega
  have hoff₄ := hext₄.off p (by simp)
  rw [if_pos (by simp), hoff₃] at hoff₄
  refine (prependLength_spec hb₄ howns₄ hoff₄).imp ?_
  rintro b₅ m₅ ⟨hb₅, howns₅, hsame₅, hc₅, _⟩
  refine ⟨p, hb₅, howns₅, (((hsame₁.trans hsame₂).trans hsame₃).trans hsame₄).trans hsame₅, ?_⟩
  rw [hc₅, hc₄, frame, frameBody, hserialized]

end Fill

end ProtobufCodec

end Netpp
