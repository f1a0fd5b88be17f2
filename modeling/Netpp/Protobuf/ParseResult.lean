import Netpp.Protobuf.Isolation

/-! # What becomes of the result of `ParseFromZeroCopyStream`

`ParseFromZeroCopyStream` returns `false` for a payload it cannot parse, and for a
message that lacks required fields.  `parse` does not look at it: the message it
returns is not null, and `*error` stays `kNoError`.

`onMessageTraced` is `onMessage` with the result of each call recorded next to the
callback made for it, and `reports_rejected_iff` says when every rejected payload
is reported.
-/

namespace Netpp

/-- The `bool` that `ParseFromZeroCopyStream` returns, having read these bytes for this
    message.  It is not true of malformed bytes. -/
structure ParseResult (proto : Protobuf) where
  ok : proto.Message → Bytes → Bool
  not_malformed : ∀ message d, ok message d = true → proto.malformed message d = false

namespace ProtobufCodec

variable {proto : Protobuf} (result : ParseResult proto)

/-! ## The result, recorded -/

/-- What the bytes read make of a message, and the result. -/
def returning (message : proto.Message) (d : Bytes) : proto.Message × Bool :=
  (proto.merge message d, result.ok message d)

/-- The use `parse` makes of a message, with the result it ignores. -/
def readReturning : proto.Message → Buffer → Exec ((proto.Message × Bool) × Buffer) :=
  readAs proto (returning result)

/-- `onMessageLoop`; each callback comes with the result of the `ParseFromZeroCopyStream`
    before it, if there was one. -/
def onMessageTraced : Nat → Buffer → Exec (List (Callback proto × Option Bool) × Buffer)
  | 0, _ => throw .outOfFuel
  | fuel + 1, buf => do
    match ← branch buf with
    | .invalidLength => pure ([(.error .kInvalidLength, none)], buf)
    | .complete _ =>
      let buf ← buf.skip kHeaderLen
      let r ← parseWith (createMessage proto) (readReturning result) buf .kNoError
      match r.1 with
      | (some message, .kNoError) =>
        let rest ← onMessageTraced fuel r.2
        pure ((.message message.1, some message.2) :: rest.1, rest.2)
      | (message, error) => pure ([(.error error, message.map Prod.snd)], r.2)
    | _ => pure ([], buf)

section Erasure

variable {μ α β : Type}

theorem parseWith_map (lookup : Bytes → Option μ) (read : μ → Buffer → Exec (α × Buffer)) (f : α → β)
    (b : Buffer) (error : ErrorCode) :
    parseWith lookup (fun message buf => do let r ← read message buf; pure (f r.1, r.2)) b error =
      (do
        let r ← parseWith lookup read b error
        pure ((r.1.1.map f, r.1.2), r.2)) := by
  simp only [parseWith, bind_assoc, pure_bind]
  refine bind_congr fun r => ?_
  split
  · split
    · simp only [bind_assoc]
      refine bind_congr fun name => ?_
      cases lookup name.1 with
      | none => rfl
      | some message => simp only [bind_assoc, pure_bind, Option.map_some]
    · rfl
  · rfl

/-- Without the result, this is the `parse` of the source. -/
theorem parse_eq_returning (b : Buffer) (len : Int) (error : ErrorCode) :
    parse proto b len error = (do
      let r ← parseWith (createMessage proto) (readReturning result) b error
      pure ((r.1.1.map Prod.fst, r.1.2), r.2)) := by
  rw [parse_eq, ← parseWith_map]
  simp only [readReturning, readAs, bind_assoc, pure_bind]
  rfl

/-- Without the results, `onMessageTraced` is `onMessageLoop`. -/
theorem onMessageLoop_eq (fuel : Nat) (b : Buffer) :
    onMessageLoop proto fuel b = (do
      let r ← onMessageTraced result fuel b
      pure (r.1.map Prod.fst, r.2)) := by
  induction fuel generalizing b with
  | zero => rfl
  | succ fuel ih =>
    simp only [onMessageLoop, onMessageTraced, bind_assoc]
    refine bind_congr fun found => ?_
    cases found with
    | tooShort => rfl
    | invalidLength => rfl
    | incomplete => rfl
    | complete len =>
      simp only [bind_assoc]
      refine bind_congr fun buf => ?_
      simp only [parse_eq_returning result, bind_assoc, pure_bind]
      refine bind_congr fun r => ?_
      obtain ⟨⟨message, error⟩, buf⟩ := r
      cases message with
      | none => rfl
      | some message =>
        cases error with
        | kNoError => simp only [Option.map_some, ih, bind_assoc, pure_bind, List.map_cons]
        | _ => rfl

end Erasure

/-! ## Rejected payloads -/

/-- Each result `false` is reported with `kParseError`, and the message callback is
    invoked only after a result `true`. -/
def ReportsRejected (build : Build) (m : Mem) (b : Buffer) : Prop :=
  (onMessageTraced result (b.length + 1) b).wp build m fun r _ =>
    ∀ x ∈ r.1, (x.2 = some false → x.1 = .error .kParseError) ∧
      ∀ message, x.1 = .message message → x.2 = some true

/-- `ParseFromZeroCopyStream` rejects what stands behind the type name of the frame body;
    the type is known. -/
def RejectedBody (body : Bytes) : Prop :=
  let nameLen := bytesInt (body.take 4)
  0 < nameLen ∧ nameLen.toNat ≤ body.length - 4 ∧
  ∃ message, createMessage proto ((body.drop 4).take nameLen.toNat) = some message ∧
    let payload := body.drop (4 + nameLen.toNat)
    result.ok message (payload.take (bytesRead (proto.malformed message) payload)) = false

/-- The buffer begins with a complete frame that is rejected. -/
def Rejected (d : Bytes) : Prop :=
  (∃ len, classify d = .complete len) ∧ RejectedBody result (d.drop kHeaderLen)

section Rejection

variable {result} {build : Build} {m : Mem} {b : Buffer} {ps rest : List Ptr} {k : Nat} {d : Bytes}

theorem firstStop_of_ok {message : proto.Message} {payload : Bytes}
    (hok : result.ok message (payload.take (bytesRead (proto.malformed message) payload)) = true) :
    firstStop (proto.malformed message) [] payload = none := by
  cases hstop : firstStop (proto.malformed message) [] payload with
  | none => rfl
  | some n =>
    obtain ⟨_, _, hmal, _⟩ := firstStop_some.mp hstop
    rw [bytesRead, hstop, Option.getD_some] at hok
    rw [List.nil_append, result.not_malformed message _ hok] at hmal
    cases hmal

theorem guard_of_complete {len : Int} (h : classify d = .complete len) :
    kMinMessageLen + kHeaderLen ≤ d.length := by
  by_contra hshort
  rw [classify, if_neg hshort] at h
  cases h

/-- `parse` on a frame body: the message and the result, or an error. -/
def decodeReturning (result : ParseResult proto) (lens : List Nat) (body : Bytes) :
    (Option (proto.Message × Bool) × ErrorCode) × Nat :=
  decodeWith (createMessage proto) (valueAs proto (returning result)) .kNoError lens body

theorem decode_rejected (lens : List Nat) (h : RejectedBody result d) :
    ∃ message, (decodeReturning result lens d).1 = (some (message, false), .kNoError) := by
  obtain ⟨hpos, hfits, message, hcreate, hok⟩ := h
  have hhead := decodeHead_eq_ok.mpr ⟨hpos, hfits, hcreate, rfl⟩
  refine ⟨(valueAs proto (returning result) message []
    (d.drop (4 + (bytesInt (d.take 4)).toNat))).1.1, ?_⟩
  rw [decodeReturning, decodeWith, hhead]
  dsimp only [valueAs, returning]
  rw [hok]

/-- A body that is not rejected is refused before it comes to the parser, or read to its end. -/
theorem decode_not_rejected (lens : List Nat) (hlen : 4 ≤ d.length) (h : ¬ RejectedBody result d) :
    FrameTakesByte proto lens d ∧
    ((∃ error, (decodeReturning result lens d).1 = (none, error)) ∨
      ∃ message, (decodeReturning result lens d).1 = (some (message, true), .kNoError) ∧
        (decodeReturning result lens d).2 = d.length) := by
  have hle := decodeHead_le (createMessage proto) hlen
  unfold decodeReturning decodeWith
  match hhead : decodeHead (createMessage proto) d with
  | (.error code, n) => exact ⟨frameTakesByte_of_error hhead, .inl ⟨code, rfl⟩⟩
  | (.ok message, n) =>
    rw [hhead] at hle
    have hok : result.ok message ((d.drop n).take (bytesRead (proto.malformed message) (d.drop n))) = true := by
      by_contra hfalse
      obtain ⟨hpos, hfits, hcreate, hn⟩ := decodeHead_eq_ok.mp hhead
      refine h ⟨hpos, hfits, message, hcreate, ?_⟩
      rw [hn] at hfalse
      simpa using hfalse
    have hnone := firstStop_of_ok hok
    refine ⟨(frameTakesByte_iff hhead).mpr (takesByte_of_none hnone),
      .inr ⟨(valueAs proto (returning result) message [] (d.drop n)).1.1, ?_⟩⟩
    dsimp only [valueAs, returning] at hle ⊢
    rw [hok, bytesTaken_of_none hnone, List.length_drop]
    exact ⟨rfl, by omega⟩

theorem parseReturning_spec (result : ParseResult proto) (build : Build) (hb : b.Rep m ps)
    (howns : Owns m (ps ++ rest) k) (hsolid : Solid m ps)
    (hguard : kMinMessageLen + kHeaderLen ≤ (content m ps).length) :
    (b.skip kHeaderLen).wp build m fun buf m₁ => ∃ lens,
      let parsed := parseWith (createMessage proto) (readReturning result) buf .kNoError
      let body := (content m ps).drop kHeaderLen
      ((build = .debug → FrameTakesByte proto lens body) → parsed.wp build m₁ fun _ _ => True) ∧
      parsed.wlp build m₁ fun r m' =>
        r.1 = (decodeReturning result lens body).1 ∧ ∃ qs, Linked m' r.2 qs ∧
        content m' qs = body.drop (decodeReturning result lens body).2 := by
  have hlen : kHeaderLen ≤ b.length := by rw [hb.length]; omega
  have hne : ps ≠ [] := Buffer.ne_nil_of_pos hb (by decide : 0 < kHeaderLen) hlen
  refine (Buffer.skip_spec hb howns hne hlen).imp ?_
  rintro b₁ m₁ ⟨ps₁, hb₁, howns₁, hsame₁, hc₁, hlens₁⟩
  have hfour : 4 ≤ b₁.length := by
    rw [hb₁.length, hc₁, List.length_drop]
    simp only [kMinMessageLen, kHeaderLen] at hguard ⊢
    omega
  have hsolid₁ := hsolid.dropLens hlens₁
  refine ⟨lens m₁ ps₁, ?_⟩
  rw [← hc₁]
  have hspec := parseAs_spec build (returning result) .kNoError hb₁ howns₁ hsolid₁ hfour
  refine ⟨fun htakes => (hspec htakes).imp fun _ _ _ => trivial, fun r m' hrun => ?_⟩
  have htakes := takesByte_of_parseAs hb₁ howns₁ hsolid₁ hfour hrun
  obtain ⟨hr, qs, hlinked, _, _, hc, _⟩ := (Prog.wp_of_eq_ok hrun).mp (hspec htakes)
  exact ⟨hr, qs, hlinked, hc⟩

theorem inOnePiece_of_traced {fuel : Nat} {Q : List (Callback proto × Option Bool) × Buffer → Mem → Prop}
    (hb : b.Rep m ps) (live : ∀ p ∈ ps, m.Live p)
    (hrun : (onMessageTraced result (fuel + 1) b).wp build m Q)
    (hguard : kMinMessageLen + kHeaderLen ≤ b.length) : InOnePiece m 4 ps := by
  by_contra hcut
  simp only [onMessageTraced, Prog.wp_bind, branch, if_pos hguard] at hrun
  have hlen : 4 ≤ b.length := by
    simp only [kMinMessageLen, kHeaderLen] at hguard
    omega
  exact Buffer.peekInt_cut hb live (by decide) hcut hlen hrun

theorem not_reports_of_rejected (hb : b.Rep m ps) (howns : Owns m (ps ++ rest) k) (hsolid : Solid m ps)
    (hrejected : Rejected result (content m ps)) : ¬ ReportsRejected result build m b := by
  intro hrun
  obtain ⟨⟨len, hclass⟩, hbody⟩ := hrejected
  have hguard := guard_of_complete hclass
  have hlive : ∀ p ∈ ps, m.Live p := fun p hp => howns.live (by simp [hp])
  have hone := inOnePiece_of_traced hb hlive hrun (hb.length ▸ hguard)
  simp only [ReportsRejected, onMessageTraced, Prog.wp_bind] at hrun
  obtain ⟨found, m₀, _, ⟨rfl, rfl⟩, hrest⟩ := (branch_spec hb hlive fun _ => hone).and hrun
  simp only [hclass, Prog.wp_bind] at hrest
  obtain ⟨buf, m₁, _, ⟨lens, _, hspec⟩, hparse⟩ :=
    (parseReturning_spec result build hb howns hsolid hguard).and hrest
  obtain ⟨r, m₂, _, hcallback, hr, _⟩ := hparse.and_wlp hspec
  obtain ⟨message, hfalse⟩ := decode_rejected lens hbody
  rw [hr, hfalse] at hcallback
  simp only [Prog.wp_bind, Prog.wp_pure] at hcallback
  obtain ⟨rest, _, _, hall⟩ := hcallback
  have herror := (hall _ (List.mem_cons_self ..)).1 rfl
  cases herror

theorem traced_empty (fuel : Nat) (hlen : b.length = 0) :
    (onMessageTraced result (fuel + 1) b).wp build m fun r m' => m' = m ∧ r = ([], b) := by
  simp only [onMessageTraced, branch, hlen, Prog.wp_bind]
  rw [if_neg (by decide), Prog.wp_pure, Prog.wp_pure]
  exact ⟨rfl, rfl⟩

theorem reports_of_not_rejected (hb : b.Rep m ps) (howns : Owns m (ps ++ rest) k) (hsolid : Solid m ps)
    (hone : kMinMessageLen + kHeaderLen ≤ b.length → InOnePiece m 4 ps)
    (hnot : ¬ Rejected result (content m ps)) : ReportsRejected result build m b := by
  have hlive : ∀ p ∈ ps, m.Live p := fun p hp => howns.live (by simp [hp])
  simp only [ReportsRejected, onMessageTraced, Prog.wp_bind]
  refine (branch_spec hb hlive hone).imp ?_
  rintro found m₀ ⟨hm, hfound⟩
  subst hm hfound
  cases hclass : classify (content m₀ ps) with
  | tooShort => simp
  | incomplete => simp
  | invalidLength => simp
  | complete len =>
    have hguard := guard_of_complete hclass
    have hbody : ¬ RejectedBody result ((content m₀ ps).drop kHeaderLen) := fun h => hnot ⟨⟨len, hclass⟩, h⟩
    have hlen : 4 ≤ ((content m₀ ps).drop kHeaderLen).length := by
      rw [List.length_drop]
      simp only [kMinMessageLen, kHeaderLen] at hguard ⊢
      omega
    simp only [Prog.wp_bind]
    refine (parseReturning_spec result build hb howns hsolid hguard).imp ?_
    rintro buf m₁ ⟨lens, hreturns, hspec⟩
    obtain ⟨htakes, hdecode⟩ := decode_not_rejected lens hlen hbody
    refine ((hreturns fun _ => htakes).and_wlp hspec).imp ?_
    rintro r m₂ ⟨_, hr, qs, hlinked, hc⟩
    cases hdecode with
    | inl hnone =>
      obtain ⟨error, hnone⟩ := hnone
      rw [hr, hnone]
      simp
    | inr hsome =>
      obtain ⟨message, hsome, hall⟩ := hsome
      rw [hr, hsome]
      rw [hall, List.drop_length] at hc
      have hempty : r.2.length = 0 := by rw [hlinked.length, hc, List.length_nil]
      obtain ⟨fuel, hfuel⟩ : ∃ n, b.length = n + 1 :=
        ⟨b.length - 1, by rw [← hb.length] at hguard; simp only [kMinMessageLen, kHeaderLen] at hguard; omega⟩
      simp only [Prog.wp_bind, hfuel]
      refine (traced_empty fuel hempty).imp ?_
      rintro rest m₃ ⟨_, hrest⟩
      rw [Prog.wp_pure, hrest]
      simp

/-- For every buffer content: each payload that `ParseFromZeroCopyStream` rejects is reported,
    and no message is delivered for it, exactly if the length field at the front can be
    read and the frame behind it is not a rejected one.  A frame that is accepted has
    taken everything that is in the buffer. -/
theorem reports_rejected_iff (hb : b.Rep m ps) (howns : Owns m (ps ++ rest) k) (hsolid : Solid m ps) :
    ReportsRejected result build m b ↔
      (kMinMessageLen + kHeaderLen ≤ b.length → InOnePiece m 4 ps) ∧
      ¬ Rejected result (content m ps) := by
  constructor
  · intro hreports
    refine ⟨fun hguard => ?_, fun hrejected => ?_⟩
    · exact inOnePiece_of_traced hb (fun p hp => howns.live (by simp [hp])) hreports hguard
    · exact not_reports_of_rejected hb howns hsolid hrejected hreports
  · intro ⟨hone, hnot⟩
    exact reports_of_not_rejected hb howns hsolid hone hnot

end Rejection

/-- `verbatim` messages all of which are parsed, or all of which lack a required field. -/
def verbatimResult (ok : Bool) : ParseResult verbatim := ⟨fun _ _ => ok, fun _ _ _ => rfl⟩

/-- A frame in one piece, whose payload is accepted. -/
theorem reports_rejected_accepted :
    ∃ w : Buffers Unit, Buffers.Built .debug w ∧ (w.buf ()).length = 14 ∧
      ReportsRejected (verbatimResult true) .debug w.mem (w.buf ()) := by
  obtain ⟨w, d, r, hlen, hone, hsolid, hc⟩ : ∃ (w : Buffers Unit) (d : Unit → Bytes),
      Buffers.Run .debug BufferOp.ReadsFirst w d ∧ (w.buf ()).length = 14 ∧
      InOnePiece w.mem 4 ((w.buf ()).pieces w.mem) ∧
      (∀ p ∈ (w.buf ()).pieces w.mem, 0 < (w.mem.cell p).len) ∧
      content w.mem ((w.buf ()).pieces w.mem) = [0, 0, 0, 10] ++ shortBody := by
    have r : Buffers.Run .debug BufferOp.ReadsFirst (⟨emptyMem, fun _ => {}⟩ : Buffers Unit) _ :=
      .start _
    have r := r.step (.write () ([0, 0, 0, 10] ++ shortBody)) trivial trivial rfl
      (fun i => by cases i; decide)
    exact ⟨_, _, r, rfl, by decide, by decide, by decide⟩
  obtain ⟨_, _, chain, loose, k, hfamily⟩ := r.family
  obtain ⟨rest, howns, _⟩ := hfamily.focus ()
  rw [hfamily.toChains.pieces_eq ()] at hone hsolid hc
  refine ⟨w, r.built, hlen, (reports_rejected_iff (hfamily.rep ()) howns hsolid).mpr ⟨fun _ => hone, ?_⟩⟩
  rw [hc]
  rintro ⟨_, _, _, message, _, hok⟩
  cases hok

/-- The payload of the only frame is rejected: `parse` returns the message it was read into,
    without an error, and the message callback is invoked. -/
theorem rejected_payload_delivered :
    ∃ m b ps, b.Rep m ps ∧ Owns m (ps ++ []) 0 ∧ Solid m ps ∧
      content m ps = [0, 0, 0, 10] ++ shortBody ∧
      ¬ ReportsRejected (verbatimResult false) .release m b := by
  obtain ⟨m, b, ps, hb, howns, hsolid, hc⟩ := exists_buffer ([0, 0, 0, 10] ++ shortBody)
  refine ⟨m, b, ps, hb, howns, hsolid, hc, not_reports_of_rejected hb howns hsolid ?_⟩
  rw [hc]
  exact ⟨⟨10, by decide⟩, by decide, by decide, _, rfl, rfl⟩

end ProtobufCodec

end Netpp
