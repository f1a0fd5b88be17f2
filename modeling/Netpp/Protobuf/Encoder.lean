import Netpp.Protobuf.Codec

/-! # The format of a frame

A serializer may use the output stream in any way the interface allows: it calls
`Next` any number of times, fills each area it is given, and backs up over what it
has not used of the last one.  `serializeIn` is such a use, for any number of
calls; protobuf's own is one of them (`serializeLoop_in`).

`encoder_format` says that all of them leave the same frame in the buffer.
-/

namespace Netpp

namespace BufferOutputStream

/-- The serializer writes `d` with this many calls of `Next`.  Each area but the last is
    filled to its end; the unused end of the last one is backed up over, and if nothing
    is unused `BackUp(0)` is called or not.  `none` if `d` does not fit the areas. -/
def serializeIn (backUpZero : Bool) : Nat → Buffer → Bytes → Exec (Option Buffer)
  | 0, b, d => pure (if d = [] then some b else none)
  | calls + 1, b, d => do
    let r ← next b
    if calls = 0 ∧ d.length ≤ r.1.size then
      r.1.fill d
      if d.length < r.1.size ∨ backUpZero then
        let b ← backUp r.2 (r.1.size - d.length)
        pure (some b)
      else pure (some r.2)
    else if r.1.size ≤ d.length then
      r.1.fill (d.take r.1.size)
      serializeIn backUpZero calls r.2 (d.drop r.1.size)
    else pure none

section Specs

variable {m : Mem} {b : Buffer} {ps rest : List Ptr} {k calls : Nat} {d : Bytes} {backUpZero : Bool}

/-- Whatever the serializer does, the bytes are appended. -/
theorem serializeIn_spec (hb : b.Rep m ps) (howns : Owns m (ps ++ rest) k) :
    (serializeIn backUpZero calls b d).wp .release m fun r m' => ∀ b', r = some b' → ∃ ps',
      b'.Rep m' ps' ∧ Owns m' (ps' ++ rest) k ∧ SameOn rest m m' ∧
      content m' ps' = content m ps ++ d ∧ Extends m m' ps ps' := by
  induction calls generalizing b d m ps with
  | zero =>
    rw [serializeIn, Prog.wp_pure]
    split
    · rename_i hnil
      intro b' hb'
      cases hb'
      exact ⟨ps, hb, howns, SameOn.refl _ _, by rw [hnil, List.append_nil], Extends.refl _ _⟩
    · simp
  | succ calls ih =>
    simp only [serializeIn, Prog.wp_bind]
    refine (next_spec hb howns).imp ?_
    rintro r m' ⟨m₁, b₁, qs, t, hready, hm, hr⟩
    subst hm hr
    split
    · -- the last area
      rename_i hlast
      have hle := hlast.2
      rw [Prog.wp_bind, fill_spec hready hle]
      obtain ⟨hrep, howns', hsame, hc, hext⟩ := hready.filled hle
      split
      · simp only [Prog.wp_bind, Prog.wp_pure]
        refine (backUp_spec hready hle (by intro h; cases h)).imp ?_
        rintro b' m' ⟨hm, hb'⟩
        subst hm hb'
        intro b'' hb''
        cases hb''
        exact ⟨qs ++ [t], hrep, howns', hsame, hc, hext⟩
      · rename_i hfull
        have heq : d.length = (area m₁ t).size := by
          rw [not_or] at hfull
          exact Nat.le_antisymm hle (Nat.le_of_not_lt hfull.1)
        rw [Prog.wp_pure, used_filled hready heq, ← heq]
        intro b'' hb''
        cases hb''
        exact ⟨qs ++ [t], hrep, howns', hsame, hc, hext⟩
    · split
      · -- an area that is filled to its end
        rename_i hge
        have hlen : (d.take (area m₁ t).size).length = (area m₁ t).size := by
          rw [List.length_take, Nat.min_eq_left hge]
        rw [Prog.wp_bind, fill_spec hready (Nat.le_of_eq hlen), used_filled hready hlen]
        obtain ⟨hrep, howns', hsame, hc, hext⟩ := hready.filled (Nat.le_of_eq hlen)
        rw [hlen] at hrep
        refine (ih hrep howns').imp ?_
        intro r m' hnext b' hb'
        obtain ⟨ps', hrep', howns'', hsame', hc', hext'⟩ := hnext b' hb'
        refine ⟨ps', hrep', howns'', hsame.trans hsame', ?_, hext.trans hext'⟩
        rw [hc', hc, List.append_assoc, List.take_append_drop]
      · rw [Prog.wp_pure]
        simp

theorem serializeLoop_in {build : Build} {fuel : Nat} {Q : Buffer → Mem → Prop}
    (h : (serializeLoop fuel b d).wp build m Q) :
    ∃ calls, (serializeIn false calls b d).wp build m fun r m' => ∃ b', r = some b' ∧ Q b' m' := by
  induction fuel generalizing b d m with
  | zero => exact absurd h (Prog.wp_throw _ _ _ _)
  | succ fuel ih =>
    rw [serializeLoop, Prog.wp_bind] at h
    obtain ⟨r, m₁, hnext, hrest⟩ := h
    by_cases hle : d.length ≤ r.1.size
    · refine ⟨1, ?_⟩
      rw [serializeIn, Prog.wp_bind]
      refine ⟨r, m₁, hnext, ?_⟩
      rw [if_pos hle, Prog.wp_bind] at hrest
      rw [if_pos ⟨rfl, hle⟩, Prog.wp_bind]
      refine hrest.imp ?_
      intro _ m₂ htail
      split at htail
      · rename_i hlt
        rw [if_pos (.inl hlt), Prog.wp_bind]
        exact htail.imp fun b' m' hQ => (Prog.wp_pure ..).mpr ⟨b', rfl, hQ⟩
      · rename_i hge
        rw [if_neg (by simpa using hge), Prog.wp_pure]
        exact ⟨r.2, rfl, (Prog.wp_pure ..).mp htail⟩
    · rw [if_neg hle, Prog.wp_bind] at hrest
      obtain ⟨u, m₂, hfill, hloop⟩ := hrest
      obtain ⟨calls, hcalls⟩ := ih hloop
      refine ⟨calls + 1, ?_⟩
      rw [serializeIn, Prog.wp_bind]
      refine ⟨r, m₁, hnext, ?_⟩
      have hlast : ¬ (calls = 0 ∧ d.length ≤ r.1.size) := fun h => hle h.2
      dsimp only
      rw [if_neg hlast, if_pos (by omega), Prog.wp_bind]
      exact ⟨u, m₂, hfill, hcalls⟩

end Specs

end BufferOutputStream

namespace ProtobufCodec

open BufferOutputStream

/-- `fillEmptyBuffer`, for a serializer that uses the stream as `serializeIn` says. -/
def fillFrameIn (backUpZero : Bool) (calls : Nat) (buf : Buffer) (typeName payload : Bytes) :
    Exec (Option Buffer) := do
  let buf ← fillHead buf typeName
  let r ← serializeIn backUpZero calls buf payload
  match r with
  | some buf => do
    let buf ← buf.prependInt32 buf.length
    pure (some buf)
  | none => pure none

section Format

variable {m : Mem} {b : Buffer} {rest : List Ptr} {k calls : Nat} {backUpZero : Bool}
  {typeName payload : Bytes}

theorem nameLen_fits (h : typeName.length + 1 ≤ 2147483647) :
    unsignedWord 64 (nameLen typeName) ≤ typeName.length + 1 := by
  rw [(nameLen_of_limits h).1, unsignedWord_natCast]
  exact Nat.mod_le _ _

/-- Whatever legal use the serializer makes of the stream: a call of `fillEmptyBuffer`
    with the asserts compiled out returns, and the buffer is well formed, holds the
    frame and begins with the header in what was the headroom of the first piece. -/
theorem encoder_format (hb : b.Rep m []) (howns : Owns m rest k)
    (htotal : 8 + (typeName.length + 1) + payload.length < 2147483648) :
    (fillFrameIn backUpZero calls b typeName payload).wp .release m fun r m' => ∀ b', r = some b' →
      (∃ p qs, b'.Rep m' (p :: qs) ∧ Owns m' (p :: qs ++ rest) k ∧ (m'.cell p).off = 0 ∧
        4 ≤ (m'.cell p).len ∧
        content m' (p :: qs) = bigEndian 4 (4 + (typeName.length + 1) + payload.length) ++
          bigEndian 4 (typeName.length + 1) ++ typeName ++ [0] ++ payload) ∧
      b'.length = 8 + (typeName.length + 1) + payload.length := by
  have hlimit : typeName.length + 1 ≤ 2147483647 := by omega
  obtain ⟨hnameLen, hnameField⟩ := nameLen_of_limits hlimit
  have hword : ∀ n < 2147483648, intBytes 4 (n : Nat) = bigEndian 4 n := by
    intro n hn
    rw [intBytes, unsignedWord_natCast, Nat.mod_eq_of_lt (by omega)]
  simp only [fillFrameIn, Prog.wp_bind]
  refine (fillHead_spec hb howns (nameLen_fits hlimit)).imp ?_
  rintro b₁ m₁ ⟨p, qs, hb₁, howns₁, _, hoff₁, hc₁⟩
  refine (serializeIn_spec hb₁ howns₁).imp ?_
  intro r m₂ hserialized
  cases r with
  | none =>
    rw [Prog.wp_pure]
    simp
  | some b₂ =>
    obtain ⟨ps₂, hb₂, howns₂, _, hc₂, hext₂⟩ := hserialized b₂ rfl
    obtain ⟨qs₂, rfl, hoff₂⟩ := hext₂.head
    simp only [Prog.wp_bind, Prog.wp_pure]
    refine (prependLength_spec hb₂ howns₂ (hoff₂.trans hoff₁)).imp ?_
    rintro b₃ m₃ ⟨hb₃, howns₃, _, hc₃, hoff₃, hlen₃⟩ b' hb'
    cases hb'
    have hbody : content m₂ (p :: qs₂) =
        bigEndian 4 (typeName.length + 1) ++ typeName ++ [0] ++ payload := by
      rw [hc₂, hc₁, hnameLen, hnameField, hword _ (by omega)]
      simp only [List.append_assoc]
    have hlength : (content m₂ (p :: qs₂)).length = 4 + (typeName.length + 1) + payload.length := by
      rw [hbody]
      simp only [List.length_append, length_bigEndian, List.length_singleton]
      omega
    have hframe : content m₃ (p :: qs₂) = bigEndian 4 (4 + (typeName.length + 1) + payload.length) ++
        bigEndian 4 (typeName.length + 1) ++ typeName ++ [0] ++ payload := by
      rw [hc₃, hlength, hword _ (by omega), hbody]
      simp only [List.append_assoc]
    refine ⟨⟨p, qs₂, hb₃, howns₃, hoff₃, hlen₃, hframe⟩, ?_⟩
    rw [hb₃.length, hc₃, List.length_append, length_intBytes, hlength]
    omega

theorem fillFrame_in {build : Build} {Q : Buffer → Mem → Prop}
    (h : (fillFrame b typeName payload).wp build m Q) :
    ∃ calls, (fillFrameIn false calls b typeName (serialized payload)).wp build m fun r m' =>
      ∃ b', r = some b' ∧ Q b' m' := by
  simp only [fillFrame_eq, serializeToZeroCopyStream, Prog.wp_bind] at h
  obtain ⟨b₁, m₁, hhead, htail⟩ := h
  obtain ⟨calls, b₂, m₂, hserialize, b₃, rfl, hprepend⟩ := serializeLoop_in htail
  refine ⟨calls, ?_⟩
  simp only [fillFrameIn, Prog.wp_bind]
  refine ⟨b₁, m₁, hhead, _, m₂, hserialize, ?_⟩
  simp only [Prog.wp_bind, Prog.wp_pure]
  exact hprepend.imp fun b' m' hQ => ⟨b', rfl, hQ⟩

end Format

/-- A payload of three bytes for a type with a one-letter name. -/
theorem encoder_format_short :
    ∃ calls b' m', fillFrameIn false calls {} [65] [1, 2, 3] .release emptyMem = .ok (some b', m') ∧
      b'.length = 13 := by
  have howns : Owns emptyMem [] 0 := Owns.initial _
  obtain ⟨b, m, hrun⟩ : ∃ b m, fillFrame {} [65] [1, 2, 3] .release emptyMem = .ok (b, m) :=
    fillFrame_release (Buffer.Rep.empty _) howns (by decide)
  have hwp : (fillFrame {} [65] [1, 2, 3]).wp .release emptyMem fun _ _ => True :=
    ⟨b, m, hrun, trivial⟩
  obtain ⟨calls, r, m', hin, b', rfl, _⟩ := fillFrame_in hwp
  have hformat := (Prog.wp_of_eq_ok hin).mp (encoder_format (Buffer.Rep.empty _) howns (by decide))
  exact ⟨calls, b', m', hin, (hformat b' rfl).2⟩

end ProtobufCodec

end Netpp
