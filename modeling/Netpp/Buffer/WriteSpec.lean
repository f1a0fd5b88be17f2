import Netpp.Buffer.Spec

/-! # What the writing operations do

Specifications of the `Buffer` operations that add bytes or pieces (`write`,
`reservedPrepend`, `prepend`), that move pieces to another buffer
(`readBuffer`) and that drop the whole chain (`clear`).
-/

namespace Netpp

/-! ## Filling a piece at its end -/

/-- `memcpy` behind the bytes of a piece and `len += d.size()`. -/
def Piece.filled (c : Piece) (d : Bytes) : Piece :=
  { c with data := patch c.data (c.off + c.len) d, len := u16 (c.len + d.length) }

section Filled

variable {c : Piece} {d : Bytes}

theorem filled_bytes (room : c.off + c.len + d.length ≤ kPieceCapacity) :
    (c.filled d).bytes = c.bytes ++ d := by
  simp only [Piece.filled, Piece.bytes]
  rw [u16_of_le (by omega), slice_add, slice_patch, slice_patch_before _ _ (Nat.le_refl _)]

theorem filled_len (room : c.off + c.len + d.length ≤ kPieceCapacity) :
    (c.filled d).len = c.len + d.length := u16_of_le (by omega)

theorem filled_inside (room : c.off + c.len + d.length ≤ kPieceCapacity) :
    (c.filled d).off + (c.filled d).len ≤ kPieceCapacity := by
  simp only [Piece.filled]
  rw [u16_of_le (by omega)]
  omega

end Filled

theorem content_set_last {m : Mem} {t : Ptr} {qs : List Ptr} (c : Piece) (h : t ∉ qs) :
    content (m.set t c) (qs ++ [t]) = content m qs ++ c.bytes := by
  rw [content_append, content_same (SameOn.set_of_notMem c h)]
  simp

theorem content_set_head {m : Mem} {p : Ptr} {ps : List Ptr} (c : Piece) (h : p ∉ ps) :
    content (m.set p c) (p :: ps) = c.bytes ++ content m ps := by
  rw [content_cons, content_same (SameOn.set_of_notMem c h), Mem.set_cell_self]

/-! ## Growing a chain at its end -/

/-- `ps'` is `ps` with pieces added behind it: the old pieces stay where they
    start and keep their bytes, and a piece is only followed by a new one once
    it is full. -/
structure Extends (m m' : Mem) (ps ps' : List Ptr) : Prop where
  chain : ∃ more, ps' = ps ++ more
  off : ∀ p ∈ ps', (m'.cell p).off = if p ∈ ps then (m.cell p).off else 0
  len : ∀ p ∈ ps, (m.cell p).len ≤ (m'.cell p).len
  full : ∀ p ∈ ps'.dropLast, p ∈ ps.dropLast ∨ kPieceCapacity ≤ (m'.cell p).off + (m'.cell p).len

namespace Extends

variable {m m' m'' : Mem} {p t : Ptr} {ps ps' ps'' qs : List Ptr}

theorem mem (h : Extends m m' ps ps') (hp : p ∈ ps) : p ∈ ps' := by
  obtain ⟨more, rfl⟩ := h.chain
  exact List.mem_append_left _ hp

theorem refl (m : Mem) (ps : List Ptr) : Extends m m ps ps :=
  ⟨⟨[], by simp⟩, fun p hp => by rw [if_pos hp], fun _ _ => Nat.le_refl _, fun _ h => .inl h⟩

theorem trans (h : Extends m m' ps ps') (h' : Extends m' m'' ps' ps'') : Extends m m'' ps ps'' := by
  have hoff : ∀ p ∈ ps'', (m''.cell p).off = if p ∈ ps then (m.cell p).off else 0 := by
    intro p hp
    rw [h'.off p hp]
    by_cases hp' : p ∈ ps'
    · rw [if_pos hp', h.off p hp']
    · rw [if_neg hp', if_neg fun hps => hp' (h.mem hps)]
  refine ⟨?_, hoff, fun p hp => Nat.le_trans (h.len p hp) (h'.len p (h.mem hp)),
    fun p hp => ?_⟩
  · obtain ⟨more, rfl⟩ := h.chain
    obtain ⟨more', rfl⟩ := h'.chain
    exact ⟨more ++ more', by rw [List.append_assoc]⟩
  · cases h'.full p hp with
    | inr hfull => exact .inr hfull
    | inl hp' =>
      cases h.full p hp' with
      | inl hps => exact .inl hps
      | inr hfull =>
        have hmem : p ∈ ps' := List.dropLast_subset _ hp'
        have hsame := h'.off p (h'.mem hmem)
        rw [if_pos hmem] at hsame
        have hlen := h'.len p hmem
        exact .inr (by omega)

theorem set_last {c : Piece} (hoff : c.off = (m.cell t).off) (hlen : (m.cell t).len ≤ c.len) :
    Extends m (m.set t c) (qs ++ [t]) (qs ++ [t]) := by
  refine ⟨⟨[], by simp⟩, fun p hp => ?_, fun p _ => ?_, fun p hp => .inl hp⟩
  · rw [if_pos hp]
    by_cases hpt : p = t
    · subst hpt; simpa using hoff
    · rw [Mem.set_cell_ne m c hpt]
  · by_cases hpt : p = t
    · subst hpt; simpa using hlen
    · exact Nat.le_of_eq (by rw [Mem.set_cell_ne m c hpt])

theorem head (h : Extends m m' (p :: qs) ps') :
    ∃ more, ps' = p :: more ∧ (m'.cell p).off = (m.cell p).off := by
  obtain ⟨more, rfl⟩ := h.chain
  have hoff := h.off p (by simp)
  rw [if_pos (by simp)] at hoff
  exact ⟨qs ++ more, rfl, hoff⟩

end Extends

namespace Buffer

variable {build : Build} {m : Mem} {b : Buffer} {p t : Ptr} {ps qs rest : List Ptr} {k fuel : Nat}
  {d : Bytes}

theorem push_holds {owned : List Ptr} (hq : Holds m b.toQueue ps) (howns : Owns m owned k)
    (sub : ∀ a ∈ ps, a ∈ owned) (hp : p ∈ owned) (fresh : p ∉ ps)
    (room : (m.cell p).off + (m.cell p).len ≤ kPieceCapacity) :
    (b.push (some p)).wp build m fun b' m' =>
      Holds m' b'.toQueue (ps ++ [p]) ∧ Owns m' owned k ∧ m.Relinked m' (p :: ps) ∧
      b'.length = b.length := by
  simp only [push, Prog.wp_bind, Prog.wp_pure]
  refine (Queue.push_holds hq howns sub hp fresh room).imp ?_
  rintro q' m' ⟨hq', howns', hlink⟩
  exact ⟨hq', howns', hlink, trivial⟩

theorem push_newPiece (hq : Holds m b.toQueue ps) (howns : Owns m (ps ++ rest) k) :
    newPiece.wp build m fun p m₁ => (b.push (some p)).wp build m₁ fun b' m' =>
      p ∉ ps ++ rest ∧ Holds m' b'.toQueue (ps ++ [p]) ∧ Owns m' (ps ++ [p] ++ rest) k ∧
      SameOn rest m m' ∧ content m' ps = content m ps ∧ b'.length = b.length ∧
      (m'.cell p).off = 0 ∧ (m'.cell p).len = 0 ∧
      ∀ a ∈ ps, (m'.cell a).off = (m.cell a).off ∧ (m'.cell a).len = (m.cell a).len := by
  refine howns.newPiece.imp ?_
  rintro p m₁ ⟨hfresh, howns₁, hzero, hsame⟩
  have hroom : (m₁.cell p).off + (m₁.cell p).len ≤ kPieceCapacity := by simp [hzero]
  have hnot : p ∉ ps ∧ p ∉ rest := by simpa [not_or] using hfresh
  refine (push_holds (hq.same hsame.left) howns₁ (fun a ha => by simp [ha]) (by simp) hnot.1 hroom).imp ?_
  rintro b' m' ⟨hq', howns', hlink, hlen⟩
  have hperm : (p :: (ps ++ rest)).Perm (ps ++ [p] ++ rest) := by
    rw [List.append_assoc, List.singleton_append]
    exact List.perm_middle.symm
  have hdisj : ∀ a ∈ rest, a ∉ p :: ps := by
    intro a ha
    have hnodup := howns.nodup
    rw [List.nodup_append] at hnodup
    simp only [List.mem_cons, not_or]
    exact ⟨fun e => hnot.2 (e ▸ ha), fun hap => hnodup.2.2 a hap a ha rfl⟩
  refine ⟨hfresh, hq', howns'.perm hperm, hsame.right.trans (SameOn.of_relinked hlink hdisj), ?_,
    hlen, ?_, ?_, fun a ha => ?_⟩
  · rw [content_relinked hlink, content_same hsame.left]
  · rw [hlink.off, hzero]
  · rw [hlink.len, hzero]
  · rw [hlink.off, hlink.len, hsame.left a ha]
    exact ⟨rfl, rfl⟩

theorem extends_push {m' : Mem} (hoff : (m'.cell p).off = 0)
    (hfields : ∀ a ∈ ps, (m'.cell a).off = (m.cell a).off ∧ (m'.cell a).len = (m.cell a).len)
    (hfull : ∀ t, ps.getLast? = some t → kPieceCapacity ≤ (m.cell t).off + (m.cell t).len) :
    Extends m m' ps (ps ++ [p]) := by
  refine ⟨⟨[p], rfl⟩, fun a ha => ?_, fun a ha => Nat.le_of_eq (hfields a ha).2.symm,
    fun a ha => ?_⟩
  · by_cases hps : a ∈ ps
    · rw [if_pos hps, (hfields a hps).1]
    · have hap : a = p := by
        cases List.mem_append.mp ha with
        | inl h => exact absurd h hps
        | inr h => exact List.mem_singleton.mp h
      rw [if_neg hps, hap, hoff]
  · rw [List.dropLast_concat] at ha
    rw [(hfields a ha).1, (hfields a ha).2]
    cases List.eq_nil_or_concat ps with
    | inl hnil => rw [hnil] at ha; simp at ha
    | inr hlast =>
      obtain ⟨qs, t, rfl⟩ := hlast
      rw [List.concat_eq_append] at ha hfull ⊢
      rw [List.dropLast_concat]
      cases List.mem_append.mp ha with
      | inl hqs => exact .inl hqs
      | inr ht => exact .inr (List.mem_singleton.mp ht ▸ hfull t (by simp))

theorem store_filled (hq : Holds m b.toQueue (qs ++ [t])) (howns : Owns m (qs ++ [t] ++ rest) k)
    (room : (m.cell t).off + (m.cell t).len + d.length ≤ kPieceCapacity) :
    (store b.tail ((m.cell t).filled d)).wp build m fun _ m' =>
      Holds m' b.toQueue (qs ++ [t]) ∧ Owns m' (qs ++ [t] ++ rest) k ∧ SameOn rest m m' ∧
      content m' (qs ++ [t]) = content m (qs ++ [t]) ++ d ∧
      Extends m m' (qs ++ [t]) (qs ++ [t]) ∧ (m'.cell t).off = (m.cell t).off ∧
      (m'.cell t).len = (m.cell t).len + d.length := by
  have htail : b.tail = some t := by rw [hq.rep.tail]; simp
  have hnodup := howns.nodup
  rw [List.append_assoc, List.singleton_append, List.nodup_middle, List.nodup_cons,
    List.mem_append, not_or] at hnodup
  rw [htail, wp_store (howns.live (by simp))]
  refine ⟨hq.set rfl (filled_inside room), howns.set (by simp) _,
    SameOn.set_of_notMem _ hnodup.1.2, ?_, Extends.set_last rfl ?_, by simp [Piece.filled], ?_⟩
  · rw [content_set_last _ hnodup.1.1, filled_bytes room]
    simp
  · rw [filled_len room]
    omega
  · rw [Mem.set_cell_self, filled_len room]

theorem writeLoop_spec (hq : Holds m b.toQueue (qs ++ [t])) (howns : Owns m (qs ++ [t] ++ rest) k)
    (hfuel : d.length < fuel) (room : (m.cell t).off + (m.cell t).len < kPieceCapacity) :
    (writeLoop fuel b d).wp build m fun b' m' => ∃ ps',
      Holds m' b'.toQueue ps' ∧ Owns m' (ps' ++ rest) k ∧ SameOn rest m m' ∧
      content m' ps' = content m (qs ++ [t]) ++ d ∧ b'.length = b.length ∧
      Extends m m' (qs ++ [t]) ps' ∧
      (d ≠ [] → ∀ p ∈ ps', p ∈ qs ∨ 0 < (m'.cell p).len) := by
  -- every round but the last fills a piece that has room, so the bytes left decrease
  induction fuel generalizing qs t b d m with
  | zero => omega
  | succ fuel ih =>
    have htail : b.tail = some t := by rw [hq.rep.tail]; simp
    have hlive : m.Live t := howns.live (by simp)
    have hunwrite : sizeSub (sizeSub kPieceCapacity (m.cell t).off) (m.cell t).len =
        kPieceCapacity - (m.cell t).off - (m.cell t).len := by
      have hoff : sizeSub kPieceCapacity (m.cell t).off = kPieceCapacity - (m.cell t).off :=
        sizeSub_of_le (by omega)
      rw [hoff, sizeSub_of_le (by omega)]
    simp only [writeLoop, Prog.wp_bind]
    rw [htail, wp_load hlive, hunwrite]
    split
    · rename_i hle
      have hroom : (m.cell t).off + (m.cell t).len + d.length ≤ kPieceCapacity := by omega
      rw [Prog.wp_bind, wp_copyIn (by omega), Prog.wp_bind, ← htail]
      refine (store_filled hq howns hroom).imp ?_
      rintro _ m' ⟨hq', howns', hsame, hc, hext, _, hlen⟩
      rw [Prog.wp_pure]
      refine ⟨qs ++ [t], hq', howns', hsame, hc, rfl, hext, fun hd a ha => ?_⟩
      cases List.mem_append.mp ha with
      | inl h => exact .inl h
      | inr h =>
        have hpos : 0 < d.length := List.length_pos_iff.mpr hd
        rw [List.mem_singleton.mp h, hlen]
        exact .inr (by omega)
    · rename_i hgt
      generalize hn : kPieceCapacity - (m.cell t).off - (m.cell t).len = n at hgt
      have hlen : (d.take n).length = n := by rw [List.length_take]; omega
      have hroom : (m.cell t).off + (m.cell t).len + (d.take n).length ≤ kPieceCapacity := by omega
      rw [Prog.wp_bind, wp_copyIn hroom, Prog.wp_bind, ← htail]
      have hfilled : (m.cell t).filled (d.take n) = { m.cell t with
          data := patch (m.cell t).data ((m.cell t).off + (m.cell t).len) (d.take n)
          len := u16 ((m.cell t).len + n) } := by
        rw [Piece.filled, hlen]
      rw [← hfilled]
      refine (store_filled hq howns hroom).imp ?_
      rintro _ m₁ ⟨hq₁, howns₁, hsame₁, hc₁, hext₁, hoff₁, hlen₁⟩
      rw [Prog.wp_bind]
      refine (push_newPiece hq₁ howns₁).imp fun p m₂ hp => ?_
      rw [Prog.wp_bind]
      refine hp.imp ?_
      rintro b' m₃ ⟨_, hq₃, howns₃, hsame₃, hc₃, hlen₃, hoff, hlen0, hfields⟩
      have hext₃ : Extends m₁ m₃ (qs ++ [t]) (qs ++ [t] ++ [p]) := by
        refine extends_push hoff hfields fun a ha => ?_
        have hat : t = a := by simpa using ha
        rw [← hat, hoff₁, hlen₁]
        omega
      have hempty : content m₃ [p] = [] := by
        simp [Piece.bytes, hlen0]
      refine (ih hq₃ howns₃ (by rw [List.length_drop]; omega) (by rw [hoff, hlen0]; decide)).imp ?_
      rintro b'' m' ⟨ps', hq', howns', hsame', hc', hlen', hext', hpos'⟩
      refine ⟨ps', hq', howns', (hsame₁.trans hsame₃).trans hsame', ?_, hlen'.trans hlen₃,
        (hext₁.trans hext₃).trans hext', fun _ a ha => ?_⟩
      · rw [hc', content_append, hempty, List.append_nil, hc₃, hc₁, List.append_assoc,
          List.take_append_drop]
      · have hmore : d.drop n ≠ [] := by
          rw [ne_eq, List.drop_eq_nil_iff]
          omega
        cases hpos' hmore a ha with
        | inr h => exact .inr h
        | inl h =>
          cases List.mem_append.mp h with
          | inl h => exact .inl h
          | inr h =>
            have hgrow := hext₃.trans hext' |>.len t (by simp)
            rw [List.mem_singleton.mp h]
            exact .inr (by omega)

theorem lastFull_eq (hq : Holds m b.toQueue ps) (live : ∀ a ∈ ps, m.Live a) :
    b.lastFull.wp build m fun full m' => m' = m ∧
      (full = false → ∃ qs t, ps = qs ++ [t] ∧ (m.cell t).off + (m.cell t).len < kPieceCapacity) ∧
      (full = true → ∀ t, ps.getLast? = some t →
        kPieceCapacity ≤ (m.cell t).off + (m.cell t).len) := by
  rcases List.eq_nil_or_concat ps with rfl | ⟨qs, t, rfl⟩
  · have htail : b.tail = none := hq.rep.tail
    simp [lastFull, htail]
  · rw [List.concat_eq_append] at hq live ⊢
    have htail : b.tail = some t := by rw [hq.rep.tail]; simp
    have hroom := hq.inside t (by simp)
    simp only [lastFull, htail, Prog.wp_bind, wp_load (live t (by simp)), Prog.wp_pure]
    refine ⟨trivial, fun hfull => ⟨qs, t, rfl, ?_⟩, fun hfull a ha => ?_⟩
    · have hne : (m.cell t).off + (m.cell t).len ≠ kPieceCapacity := by simpa using hfull
      omega
    · have heq : (m.cell t).off + (m.cell t).len = kPieceCapacity := by simpa using hfull
      have hat : t = a := by simpa using ha
      exact hat ▸ Nat.le_of_eq heq.symm

theorem ensureRoom_holds (hq : Holds m b.toQueue ps) (howns : Owns m (ps ++ rest) k) :
    b.ensureRoom.wp build m fun b' m' => ∃ qs t,
      Holds m' b'.toQueue (qs ++ [t]) ∧ Owns m' (qs ++ [t] ++ rest) k ∧ SameOn rest m m' ∧
      content m' (qs ++ [t]) = content m ps ∧ Extends m m' ps (qs ++ [t]) ∧
      (m'.cell t).off + (m'.cell t).len < kPieceCapacity ∧ (∀ p ∈ qs, p ∈ ps) ∧
      (ps = qs ++ [t] ∧ m' = m ∨ (m'.cell t).len = 0 ∧
        ∀ t, ps.getLast? = some t → kPieceCapacity ≤ (m.cell t).off + (m.cell t).len) ∧
      b'.length = b.length := by
  simp only [ensureRoom, Prog.wp_bind]
  refine (lastFull_eq hq fun a ha => howns.live (by simp [ha])).imp ?_
  rintro full m₁ ⟨hm, hroom, hfull⟩
  rw [hm]
  cases full with
  | true =>
    simp only [if_true, Prog.wp_bind]
    refine (push_newPiece hq howns).imp fun p m₂ hp => hp.imp ?_
    rintro b' m' ⟨_, hq', howns', hsame, hc, hlen, hoff, hlen0, hfields⟩
    have hempty : content m' [p] = [] := by simp [Piece.bytes, hlen0]
    refine ⟨ps, p, hq', howns', hsame, ?_, extends_push hoff hfields (hfull rfl), ?_,
      fun _ h => h, .inr ⟨hlen0, hfull rfl⟩, hlen⟩
    · rw [content_append, hempty, List.append_nil, hc]
    · rw [hoff, hlen0]
      decide
  | false =>
    obtain ⟨qs, t, rfl, hlt⟩ := hroom rfl
    simp only [Bool.false_eq_true, if_false, Prog.wp_pure]
    exact ⟨qs, t, hq, howns, SameOn.refl _ _, rfl, Extends.refl _ _, hlt, fun p hp => by simp [hp],
      .inl ⟨rfl, trivial⟩, trivial⟩

theorem ensureRoom_spec (hb : b.Rep m ps) (howns : Owns m (ps ++ rest) k) :
    b.ensureRoom.wp build m fun b' m' => ∃ qs t,
      b'.Rep m' (qs ++ [t]) ∧ Owns m' (qs ++ [t] ++ rest) k ∧ SameOn rest m m' ∧
      content m' (qs ++ [t]) = content m ps ∧ Extends m m' ps (qs ++ [t]) ∧
      (m'.cell t).off + (m'.cell t).len < kPieceCapacity ∧ (∀ p ∈ qs, p ∈ ps) ∧
      (ps = qs ++ [t] ∧ m' = m ∨ (m'.cell t).len = 0 ∧
        ∀ t, ps.getLast? = some t → kPieceCapacity ≤ (m.cell t).off + (m.cell t).len) := by
  refine (ensureRoom_holds hb.holds howns).imp ?_
  rintro b' m' ⟨qs, t, hq', howns', hsame, hc, hext, hroom, hsub, hlast, hlen⟩
  exact ⟨qs, t, ⟨hq', by rw [hlen, hb.length, hc]⟩, howns', hsame, hc, hext, hroom, hsub, hlast⟩

/-- `write` leaves a piece behind, even where it writes nothing. -/
theorem write_holds (hq : Holds m b.toQueue ps) (howns : Owns m (ps ++ rest) k) :
    (b.write d).wp build m fun b' m' => ∃ ps', ps' ≠ [] ∧
      Holds m' b'.toQueue ps' ∧ Owns m' (ps' ++ rest) k ∧ SameOn rest m m' ∧
      content m' ps' = content m ps ++ d ∧ Extends m m' ps ps' ∧
      (d ≠ [] → ∀ p ∈ ps', p ∈ ps ∨ 0 < (m'.cell p).len) ∧ b'.length = b.length + d.length := by
  simp only [write, Prog.wp_bind, Prog.wp_pure]
  refine (ensureRoom_holds hq howns).imp ?_
  rintro b₁ m₁ ⟨qs, t, hq₁, howns₁, hsame₁, hc₁, hext₁, hroom, hsub, _, hlen₁⟩
  refine (writeLoop_spec hq₁ howns₁ (Nat.lt_succ_self _) hroom).imp ?_
  rintro b' m' ⟨ps', hq', howns', hsame', hc', hlen', hext', hpos'⟩
  have ht : t ∈ ps' := hext'.mem (by simp)
  exact ⟨ps', List.ne_nil_of_mem ht, hq', howns', hsame₁.trans hsame', by rw [hc', hc₁],
    hext₁.trans hext', fun hd p hp => (hpos' hd p hp).imp_left (hsub p), by rw [hlen', hlen₁]⟩

theorem write_wp (hb : b.Rep m ps) (howns : Owns m (ps ++ rest) k) :
    (b.write d).wp build m fun b' m' => ∃ ps', ps' ≠ [] ∧
      b'.Rep m' ps' ∧ Owns m' (ps' ++ rest) k ∧ SameOn rest m m' ∧
      content m' ps' = content m ps ++ d ∧ Extends m m' ps ps' ∧
      (d ≠ [] → ∀ p ∈ ps', p ∈ ps ∨ 0 < (m'.cell p).len) := by
  refine (write_holds hb.holds howns).imp ?_
  rintro b' m' ⟨ps', hne, hq', howns', hsame, hc, hext, hpos, hlen⟩
  exact ⟨ps', hne, ⟨hq', by rw [hlen, hb.length, hc, List.length_append]⟩, howns', hsame, hc, hext, hpos⟩

/-- `write`: the bytes are appended, behind the pieces that are there. -/
theorem write_spec (hb : b.Rep m ps) (howns : Owns m (ps ++ rest) k) :
    (b.write d).wp build m fun b' m' => ∃ ps',
      b'.Rep m' ps' ∧ Owns m' (ps' ++ rest) k ∧ SameOn rest m m' ∧
      content m' ps' = content m ps ++ d ∧ Extends m m' ps ps' ∧
      (d ≠ [] → ∀ p ∈ ps', p ∈ ps ∨ 0 < (m'.cell p).len) := by
  refine (write_wp hb howns).imp ?_
  intro b' m' ⟨ps', _, hwritten⟩
  exact ⟨ps', hwritten⟩

theorem reservedPrepend_holds {len : Nat} (hq : Holds m b.toQueue []) (hzero : b.length = 0)
    (howns : Owns m rest k) (hlen : len < kPieceCapacity) :
    (b.reservedPrepend len).wp build m fun b' m' => ∃ p,
      Holds m' b'.toQueue [p] ∧ Owns m' (p :: rest) k ∧ SameOn rest m m' ∧ (m'.cell p).off = len ∧
      content m' [p] = [] ∧ b'.length = 0 := by
  have hhead : b.head = none := hq.rep.chain
  simp only [reservedPrepend, Prog.wp_bind, hzero, hhead, beq_self_eq_true, Option.isNone_none,
    wp_assert_true]
  refine howns.newPiece.imp ?_
  rintro p m₁ ⟨hfresh, howns₁, _, hsame₁⟩
  simp only [decide_eq_true hlen, wp_assert_true]
  rw [wp_load (howns₁.live (by simp)), wp_store (howns₁.live (by simp)), u16_of_le (by omega)]
  generalize hcell : ({ m₁.cell p with off := len, len := 0 } : Piece) = c
  have hsame₂ : SameOn rest m (m₁.set p c) := hsame₁.trans (SameOn.set_of_notMem _ hfresh)
  have hholds : Holds (m₁.set p c) b.toQueue [] := hq.same fun a ha => by simp at ha
  have howns₂ : Owns (m₁.set p c) (p :: rest) k := howns₁.set (by simp) c
  refine (push_holds hholds howns₂ (by simp) (by simp) (by simp) ?_).imp ?_
  · rw [Mem.set_cell_self, ← hcell]
    show len + 0 ≤ kPieceCapacity
    omega
  · rintro b' m' ⟨hq', howns', hlink, hl⟩
    have hempty : content m' [p] = [] := by
      rw [content_relinked hlink, content_cons, Mem.set_cell_self, ← hcell]
      rfl
    refine ⟨p, by simpa using hq', howns', ?_, ?_, hempty, hl.trans hzero⟩
    · exact hsame₂.trans (SameOn.of_relinked hlink fun a ha => by
        simpa using fun e : a = p => hfresh (e ▸ ha))
    · rw [hlink.off, Mem.set_cell_self, ← hcell]

theorem reservedPrepend_spec {len : Nat} (hb : b.Rep m []) (howns : Owns m rest k)
    (hlen : len < kPieceCapacity) :
    (b.reservedPrepend len).wp build m fun b' m' => ∃ p,
      b'.Rep m' [p] ∧ Owns m' (p :: rest) k ∧ SameOn rest m m' ∧ (m'.cell p).off = len ∧
      content m' [p] = [] := by
  refine (reservedPrepend_holds hb.holds hb.length howns hlen).imp ?_
  rintro b' m' ⟨p, hq', howns', hsame, hoff, hempty, hzero⟩
  exact ⟨p, ⟨hq', by rw [hzero, hempty]; rfl⟩, howns', hsame, hoff, hempty⟩

theorem prepend_holds (hq : Holds m b.toQueue (p :: ps)) (howns : Owns m (p :: ps ++ rest) k)
    (hroom : d.length ≤ (m.cell p).off) :
    (b.prepend d).wp build m fun b' m' =>
      Holds m' b'.toQueue (p :: ps) ∧ Owns m' (p :: ps ++ rest) k ∧ SameOn rest m m' ∧
      content m' (p :: ps) = d ++ content m (p :: ps) ∧
      (m'.cell p).off = (m.cell p).off - d.length ∧ (m'.cell p).len = d.length + (m.cell p).len ∧
      b'.length = b.length + d.length := by
  have hhead := hq.head
  have hlive : m.Live p := howns.live (by simp)
  have hinside := hq.insideHead
  have hnodup := howns.nodup
  rw [List.cons_append, List.nodup_cons, List.mem_append, not_or] at hnodup
  have hoff : u16Sub (m.cell p).off d.length = (m.cell p).off - d.length :=
    u16Sub_of_le hroom (by omega)
  have hlen : u16 ((m.cell p).len + d.length) = d.length + (m.cell p).len := by
    rw [u16_of_le (by omega), Nat.add_comm]
  simp only [prepend, hhead, Prog.wp_bind, Option.isSome_some, wp_assert_true, wp_load hlive, hoff, hlen]
  rw [wp_assert (by simpa using hroom), wp_copyIn (by omega), wp_store hlive, Prog.wp_pure]
  generalize hcell : ({ m.cell p with
    data := patch (m.cell p).data ((m.cell p).off - d.length) d
    off := (m.cell p).off - d.length
    len := d.length + (m.cell p).len } : Piece) = c
  have hbytes : c.bytes = d ++ (m.cell p).bytes := by
    rw [← hcell]
    simp only [Piece.bytes]
    rw [slice_add, slice_patch, slice_patch_after _ _ (Nat.le_refl _), Nat.sub_add_cancel hroom]
  have hcontent : content (m.set p c) (p :: ps) = d ++ content m (p :: ps) := by
    rw [content_set_head c hnodup.1.1, hbytes, content_cons, List.append_assoc]
  refine ⟨hq.set (by rw [← hcell]) ?_, howns.set (by simp) _,
    SameOn.set_of_notMem _ hnodup.1.2, hcontent, by simp [← hcell], by simp [← hcell], rfl⟩
  rw [← hcell]
  show (m.cell p).off - d.length + (d.length + (m.cell p).len) ≤ kPieceCapacity
  omega

theorem prepend_spec (hb : b.Rep m (p :: ps)) (howns : Owns m (p :: ps ++ rest) k)
    (hroom : d.length ≤ (m.cell p).off) :
    (b.prepend d).wp build m fun b' m' =>
      b'.Rep m' (p :: ps) ∧ Owns m' (p :: ps ++ rest) k ∧ SameOn rest m m' ∧
      content m' (p :: ps) = d ++ content m (p :: ps) ∧
      (m'.cell p).off = (m.cell p).off - d.length ∧ (m'.cell p).len = d.length + (m.cell p).len := by
  refine (prepend_holds hb.holds howns hroom).imp ?_
  rintro b' m' ⟨hq', howns', hsame, hc, hoff, hlen, hlength⟩
  exact ⟨⟨hq', by rw [hlength, hb.length, hc, List.length_append, Nat.add_comm]⟩, howns', hsame, hc,
    hoff, hlen⟩

end Buffer

end Netpp
