import Netpp.Buffer.WriteSpec

/-! # `BufferOutputStream`

The zero-copy stream protobuf writes a message through.  `next` hands out all the
room of the last piece and counts it as written at once; `backUp` takes back the
unused end.

`serializeToZeroCopyStream` is how protobuf's `CodedOutputStream` drives it: it
asks for the first area eagerly, fills each area it gets, asks for another only
when bytes are left, and backs up over what it has not used.
-/

namespace Netpp

/-- `data`, `size`: room inside the block of a piece. -/
structure Area where
  item : PiecePtr
  pos : Nat
  size : Nat

/-- The caller of `next` writes at the start of the area. -/
def Area.fill (a : Area) (d : Bytes) : Exec Unit := do
  let c ← load a.item
  let c ← c.copyIn a.pos d
  store a.item c

namespace BufferOutputStream

/-- `FlatOutputBuffer::flatNext` -/
def next (b : Buffer) : Exec (Area × Buffer) := do
  let b ← b.ensureRoom
  let last ← load b.tail
  let size := sizeSub (sizeSub kPieceCapacity last.off) last.len
  store b.tail { last with len := u16 (sizeSub kPieceCapacity last.off) }
  pure (⟨b.tail, last.off + last.len, size⟩, { b with length := b.length + size })

/-- `FlatOutputBuffer::flatBackUp` -/
def backUp (b : Buffer) (len : Nat) : Exec Buffer := do
  assert b.tail.isSome
  let last ← load b.tail
  assert (len < last.len)
  store b.tail { last with len := u16Sub last.len len }
  pure { b with length := sizeSub b.length len }

def serializeLoop : Nat → Buffer → Bytes → Exec Buffer
  | 0, _, _ => throw .outOfFuel
  | fuel + 1, b, d => do
    let r ← next b
    if d.length ≤ r.1.size then
      r.1.fill d
      if d.length < r.1.size then backUp r.2 (r.1.size - d.length) else pure r.2
    else
      r.1.fill (d.take r.1.size)
      serializeLoop fuel r.2 (d.drop r.1.size)

/-- The bytes `SerializePartialToCodedStream` writes: none if the message is
    larger than `INT_MAX`. -/
def serialized (payload : Bytes) : Bytes :=
  if payload.length ≤ 2147483647 then payload else []

def serializeToZeroCopyStream (b : Buffer) (payload : Bytes) : Exec Buffer :=
  serializeLoop ((serialized payload).length + 1) b (serialized payload)

section Specs

variable {build : Build} {m : Mem} {b : Buffer} {t : Ptr} {ps qs rest : List Ptr} {k fuel : Nat}
  {d : Bytes}

/-- The last piece as `next` leaves it: all its room counts as used. -/
def used (c : Piece) : Piece := { c with len := kPieceCapacity - c.off }

/-- The state `next` starts from once the last piece `t` has room. -/
structure Ready (m : Mem) (ps rest : List Ptr) (k : Nat) (m₁ : Mem) (b₁ : Buffer) (qs : List Ptr)
    (t : Ptr) : Prop where
  rep : b₁.Rep m₁ (qs ++ [t])
  owns : Owns m₁ (qs ++ [t] ++ rest) k
  same : SameOn rest m m₁
  bytes : content m₁ (qs ++ [t]) = content m ps
  ext : Extends m m₁ ps (qs ++ [t])
  room : (m₁.cell t).off + (m₁.cell t).len < kPieceCapacity
  fresh : ps = qs ++ [t] ∧ m₁ = m ∨ (m₁.cell t).len = 0 ∧
    ∀ t, ps.getLast? = some t → kPieceCapacity ≤ (m.cell t).off + (m.cell t).len

/-- The room `next` hands out in a piece. -/
def area (m : Mem) (t : Ptr) : Area :=
  ⟨some t, (m.cell t).off + (m.cell t).len, kPieceCapacity - (m.cell t).off - (m.cell t).len⟩

/-- `next` is `ensureRoom`, after which the last piece counts as full. -/
theorem next_spec (hb : b.Rep m ps) (howns : Owns m (ps ++ rest) k) :
    (next b).wp build m fun r m' => ∃ (m₁ : Mem) (b₁ : Buffer) (qs : List Ptr) (t : Ptr),
      Ready m ps rest k m₁ b₁ qs t ∧ m' = m₁.set t (used (m₁.cell t)) ∧
      r = (area m₁ t, { b₁ with length := b₁.length + (area m₁ t).size }) := by
  simp only [next, Prog.wp_bind, Prog.wp_pure]
  refine (Buffer.ensureRoom_spec hb howns).imp ?_
  rintro b₁ m₁ ⟨qs, t, hb₁, howns₁, hsame, hc, hext, hroom, _, hfresh⟩
  have htail : b₁.tail = some t := by rw [hb₁.holds.rep.tail]; simp
  have hlive : m₁.Live t := howns₁.live (by simp)
  have hoff : sizeSub kPieceCapacity (m₁.cell t).off = kPieceCapacity - (m₁.cell t).off :=
    sizeSub_of_le (by omega)
  rw [htail, wp_load hlive, wp_store hlive, hoff, sizeSub_of_le (by omega), u16_of_le (by omega)]
  exact ⟨m₁, b₁, qs, t, ⟨hb₁, howns₁, hsame, hc, hext, hroom, hfresh⟩, rfl, rfl⟩

variable {m₁ : Mem} {b₁ : Buffer}

theorem fill_spec (h : Ready m ps rest k m₁ b₁ qs t) (hd : d.length ≤ (area m₁ t).size)
    {Q : Unit → Mem → Prop} :
    ((area m₁ t).fill d).wp build (m₁.set t (used (m₁.cell t))) Q ↔
      Q () (m₁.set t (used ((m₁.cell t).filled d))) := by
  have hlive : (m₁.set t (used (m₁.cell t))).Live t := h.owns.live (by simp)
  have hroom := h.room
  have hpos : (area m₁ t).pos + d.length ≤ kPieceCapacity := by
    simp only [area] at hd ⊢
    omega
  simp only [Area.fill, Prog.wp_bind]
  show Prog.wp (load (some t)) _ _ _ ↔ _
  rw [wp_load hlive, wp_copyIn hpos]
  show Prog.wp (store (some t) _) _ _ _ ↔ _
  rw [wp_store hlive, Mem.set_set, Mem.set_cell_self]
  exact Iff.rfl

theorem used_filled (h : Ready m ps rest k m₁ b₁ qs t) (hd : d.length = (area m₁ t).size) :
    used ((m₁.cell t).filled d) = (m₁.cell t).filled d := by
  have hroom := h.room
  have hlen : (m₁.cell t).len + d.length = kPieceCapacity - (m₁.cell t).off := by
    simp only [area] at hd
    omega
  simp only [used, Piece.filled, hlen]
  rw [u16_of_le (by omega)]

/-- `backUp` leaves the bytes that were filled in, and returns exactly if, in a Debug build,
    bytes are left in the piece. -/
theorem backUp_iff (h : Ready m ps rest k m₁ b₁ qs t) (hle : d.length ≤ (area m₁ t).size)
    {Q : Buffer → Mem → Prop} :
    (backUp { b₁ with length := b₁.length + (area m₁ t).size } ((area m₁ t).size - d.length)).wp build
      (m₁.set t (used ((m₁.cell t).filled d))) Q ↔
      (build = .debug → 0 < (m₁.cell t).len + d.length) ∧
      Q { b₁ with length := b₁.length + d.length } (m₁.set t ((m₁.cell t).filled d)) := by
  have htail : b₁.tail = some t := by rw [h.rep.holds.rep.tail]; simp
  have hlive : (m₁.set t (used ((m₁.cell t).filled d))).Live t := h.owns.live (by simp)
  have hroom := h.room
  have harea : (area m₁ t).size = kPieceCapacity - (m₁.cell t).off - (m₁.cell t).len := rfl
  have hassert : (area m₁ t).size - d.length < (used ((m₁.cell t).filled d)).len ↔
      0 < (m₁.cell t).len + d.length := by
    simp only [used, Piece.filled, harea]
    omega
  have hpiece : { used ((m₁.cell t).filled d) with
      len := u16Sub (used ((m₁.cell t).filled d)).len ((area m₁ t).size - d.length) } =
      (m₁.cell t).filled d := by
    simp only [used, Piece.filled, harea]
    rw [u16Sub_of_le (by omega) (by omega), u16_of_le (by omega)]
    congr 1
    omega
  have hlength : sizeSub (b₁.length + (area m₁ t).size) ((area m₁ t).size - d.length) =
      b₁.length + d.length := by
    rw [sizeSub_of_le (by omega)]
    omega
  simp only [backUp, htail, Option.isSome_some, wp_assert_true, Prog.wp_bind, wp_load hlive,
    Mem.set_cell_self, Prog.wp_pure]
  rw [wp_assert_iff, decide_eq_true_eq, hassert, wp_store hlive, Mem.set_set, hpiece, hlength]

theorem backUp_spec (h : Ready m ps rest k m₁ b₁ qs t) (hle : d.length ≤ (area m₁ t).size)
    (hleft : build = .debug → 0 < (m₁.cell t).len + d.length) :
    (backUp { b₁ with length := b₁.length + (area m₁ t).size } ((area m₁ t).size - d.length)).wp build
      (m₁.set t (used ((m₁.cell t).filled d))) fun b' m' =>
      m' = m₁.set t ((m₁.cell t).filled d) ∧ b' = { b₁ with length := b₁.length + d.length } :=
  (backUp_iff h hle).mpr ⟨hleft, rfl, rfl⟩

theorem Ready.filled (h : Ready m ps rest k m₁ b₁ qs t) (hd : d.length ≤ (area m₁ t).size) :
    Buffer.Rep (m₁.set t ((m₁.cell t).filled d)) { b₁ with length := b₁.length + d.length }
      (qs ++ [t]) ∧
    Owns (m₁.set t ((m₁.cell t).filled d)) (qs ++ [t] ++ rest) k ∧
    SameOn rest m (m₁.set t ((m₁.cell t).filled d)) ∧
    content (m₁.set t ((m₁.cell t).filled d)) (qs ++ [t]) = content m ps ++ d ∧
    Extends m (m₁.set t ((m₁.cell t).filled d)) ps (qs ++ [t]) := by
  have htail : b₁.tail = some t := by rw [h.rep.holds.rep.tail]; simp
  have hlive : m₁.Live t := h.owns.live (by simp)
  have hroom : (m₁.cell t).off + (m₁.cell t).len + d.length ≤ kPieceCapacity := by
    have := h.room
    simp only [area] at hd
    omega
  have hstore : (store b₁.tail ((m₁.cell t).filled d)).wp .release m₁ _ :=
    Buffer.store_filled h.rep.holds h.owns hroom
  rw [htail, wp_store hlive] at hstore
  obtain ⟨hq, howns, hsame, hc, hext, _, _⟩ := hstore
  refine ⟨⟨hq, ?_⟩, howns, h.same.trans hsame, by rw [hc, h.bytes], h.ext.trans hext⟩
  rw [hc, List.length_append]
  show b₁.length + d.length = _
  rw [h.rep.length]

/-- The last piece holds bytes and has room: an area taken from it is never the
    whole piece. -/
def LastUsed (m : Mem) (ps : List Ptr) : Prop :=
  ∃ t, ps.getLast? = some t ∧ 0 < (m.cell t).len ∧
    (m.cell t).off + (m.cell t).len < kPieceCapacity

theorem Ready.len_pos (h : Ready m ps rest k m₁ b₁ qs t) (hused : LastUsed m ps) :
    0 < (m₁.cell t).len := by
  obtain ⟨t', hlast, hpos, hroom⟩ := hused
  cases h.fresh with
  | inl hold =>
    obtain ⟨hps, hm⟩ := hold
    have htt : t = t' := by simpa [hps] using hlast
    rw [hm, htt]
    exact hpos
  | inr hnew =>
    have := hnew.2 t' hlast
    omega

/-- Serializing through the stream appends the bytes.  In the Debug build an empty
    message needs a last piece that is in use: protobuf takes an area and gives
    the whole of it back. -/
theorem serializeLoop_spec (hb : b.Rep m ps) (howns : Owns m (ps ++ rest) k) (hfuel : d.length < fuel)
    (hleft : build = .debug → d ≠ [] ∨ LastUsed m ps) :
    (serializeLoop fuel b d).wp build m fun b' m' => ∃ ps',
      b'.Rep m' ps' ∧ Owns m' (ps' ++ rest) k ∧ SameOn rest m m' ∧
      content m' ps' = content m ps ++ d ∧ Extends m m' ps ps' := by
  induction fuel generalizing b d m ps with
  | zero => omega
  | succ fuel ih =>
    simp only [serializeLoop, Prog.wp_bind]
    refine (next_spec hb howns).imp ?_
    rintro r m' ⟨m₁, b₁, qs, t, hready, hm, hr⟩
    subst hm hr
    have hroom := hready.room
    have harea : (area m₁ t).size = kPieceCapacity - (m₁.cell t).off - (m₁.cell t).len := rfl
    split
    · rename_i hle
      rw [Prog.wp_bind, fill_spec hready hle]
      obtain ⟨hrep, howns', hsame, hc, hext⟩ := hready.filled hle
      split
      · rename_i hlt
        have hpos : build = .debug → 0 < (m₁.cell t).len + d.length := by
          intro hbuild
          cases hleft hbuild with
          | inl hd =>
            have := List.length_pos_iff.mpr hd
            omega
          | inr hused =>
            have := hready.len_pos hused
            omega
        refine (backUp_spec hready hle hpos).imp ?_
        rintro b' m' ⟨hm, hb'⟩
        subst hm hb'
        exact ⟨qs ++ [t], hrep, howns', hsame, hc, hext⟩
      · rename_i hge
        have heq : d.length = (area m₁ t).size := Nat.le_antisymm hle (Nat.le_of_not_lt hge)
        rw [Prog.wp_pure, used_filled hready heq]
        dsimp only
        rw [← heq]
        exact ⟨qs ++ [t], hrep, howns', hsame, hc, hext⟩
    · rename_i hnot
      have hgt : (area m₁ t).size < d.length := Nat.lt_of_not_le hnot
      have hlen : (d.take (area m₁ t).size).length = (area m₁ t).size := by
        rw [List.length_take]
        omega
      rw [Prog.wp_bind, fill_spec hready (Nat.le_of_eq hlen), used_filled hready hlen]
      obtain ⟨hrep, howns', hsame, hc, hext⟩ := hready.filled (Nat.le_of_eq hlen)
      rw [hlen] at hrep
      have hmore : d.drop (area m₁ t).size ≠ [] := by
        rw [ne_eq, List.drop_eq_nil_iff]
        omega
      refine (ih hrep howns' (by rw [List.length_drop]; omega) fun _ => .inl hmore).imp ?_
      rintro b' m' ⟨ps', hrep', howns'', hsame', hc', hext'⟩
      refine ⟨ps', hrep', howns'', hsame.trans hsame', ?_, hext.trans hext'⟩
      rw [hc', hc, List.append_assoc, List.take_append_drop]

theorem lastUsed_of_serializeLoop {Q : Buffer → Mem → Prop} (hb : b.Rep m ps)
    (howns : Owns m (ps ++ rest) k) (hrun : (serializeLoop (fuel + 1) b []).wp .debug m Q) :
    LastUsed m ps := by
  simp only [serializeLoop, Prog.wp_bind] at hrun
  obtain ⟨r, m', _, ⟨m₁, b₁, qs, t, hready, hm, hr⟩, hfill⟩ := (next_spec hb howns).and hrun
  subst hm hr
  have hroom := hready.room
  have hpos : 0 < (area m₁ t).size := by
    simp only [area]
    omega
  simp only [List.length_nil, Nat.zero_le, if_true, Prog.wp_bind, hpos, fill_spec hready] at hfill
  have hlen : 0 < (m₁.cell t).len := ((backUp_iff (d := []) hready (Nat.zero_le _)).mp hfill).1 rfl
  cases hready.fresh with
  | inl hold =>
    obtain ⟨rfl, rfl⟩ := hold
    exact ⟨t, by simp, hlen, hroom⟩
  | inr hnew => omega

end Specs

end BufferOutputStream

end Netpp
