import Netpp.Buffer.Deque

/-! # `peek` and `read`

`Buffer::peek` walks along the chain like `read`, but it copies to
`&t + sizeof(T) - left`, where `t` is a `T`: the offset counts values, not bytes.
From the second non-empty piece on it copies behind the variable.

* `peek_wp`: the fast path of the first piece is one more round of the loop.
* `peekInt_whole`, `peekInt_cut`: `peek` returns exactly if the bytes it wants lie in
  one piece.
* `peeks_agree_iff`: and then it returns what `read` returns.
-/

namespace Netpp

/-- The first `width` bytes lie in one piece; there may be empty pieces before it. -/
def InOnePiece (m : Mem) (width : Nat) : List Ptr → Prop
  | [] => False
  | p :: ps => if (m.cell p).len = 0 then InOnePiece m width ps else width ≤ (m.cell p).len

instance decidableInOnePiece (m : Mem) (width : Nat) : ∀ ps, Decidable (InOnePiece m width ps)
  | [] => inferInstanceAs (Decidable False)
  | p :: ps =>
    have := decidableInOnePiece m width ps
    inferInstanceAs (Decidable (if (m.cell p).len = 0 then InOnePiece m width ps
      else width ≤ (m.cell p).len))

theorem inOnePiece_head {m : Mem} {width : Nat} {p : Ptr} {ps : List Ptr} (hpos : 0 < width)
    (h : width ≤ (m.cell p).len) : InOnePiece m width (p :: ps) := by
  rw [InOnePiece, if_neg (by omega)]
  exact h

theorem not_inOnePiece_head {m : Mem} {width : Nat} {p : Ptr} {ps : List Ptr} (hpos : 0 < (m.cell p).len)
    (h : (m.cell p).len < width) : ¬ InOnePiece m width (p :: ps) := by
  rw [InOnePiece, if_neg (by omega)]
  omega

theorem inOnePiece_one {m : Mem} {ps : List Ptr} (h : content m ps ≠ []) : InOnePiece m 1 ps := by
  induction ps with
  | nil => exact absurd rfl h
  | cons p ps ih =>
    rw [InOnePiece]
    split
    · rename_i hzero
      have hnil : (m.cell p).bytes = [] := List.length_eq_zero_iff.mp (by rw [length_bytes, hzero])
      rw [content_cons, hnil, List.nil_append] at h
      exact ih h
    · omega

namespace Buffer

section Loop

variable {build : Build} {m : Mem} {width left fuel : Nat} {cur : PiecePtr} {t src : Bytes}
  {ps : List Ptr} {Q : Bytes → Mem → Prop}

/-- Before anything is copied the offset is zero. -/
theorem wp_peekCopy_start (h : src.length ≤ width) :
    (peekCopy width t width src).wp build m Q ↔ Q (src ++ t.drop src.length) m := by
  simp only [peekCopy, Nat.sub_self, Nat.zero_mul, Nat.zero_add]
  split
  · rename_i hnil
    rw [List.length_eq_zero_iff.mp hnil, Prog.wp_pure]
    rfl
  · rw [Prog.wp_pure]
    rfl

/-- Once a byte is copied the offset is behind the variable. -/
theorem peekCopy_overrun (hleft : left < width) (hsrc : src ≠ []) :
    ¬ (peekCopy width t left src).wp build m Q := by
  have hpos : 0 < src.length := List.length_pos_iff.mpr hsrc
  have hfar : width ≤ (width - left) * width := Nat.le_mul_of_pos_left _ (by omega)
  rw [peekCopy, if_neg (by omega), if_neg (by omega)]
  exact Prog.wp_throw _ _ _ _

theorem wp_peekLoop_cons {p : Ptr} (hp : m.Live p)
    (inside : (m.cell p).off + (m.cell p).len ≤ kPieceCapacity) :
    (peekLoop width (fuel + 1) (some p) left t).wp build m Q ↔
      if left ≤ (m.cell p).len then
        (peekCopy width t left ((m.cell p).bytes.take left)).wp build m Q
      else (peekCopy width t left (m.cell p).bytes).wp build m fun t' m' =>
        (peekLoop width fuel (m.cell p).next (left - (m.cell p).len) t').wp build m' Q := by
  simp only [peekLoop, Prog.wp_bind]
  rw [wp_load hp]
  split
  · rename_i hle
    rw [Prog.wp_bind, wp_copyOut (by omega), Piece.bytes, take_slice _ hle]
  · rw [Prog.wp_bind, wp_copyOut inside, Prog.wp_bind, Piece.bytes]

theorem not_wp_peekLoop_nil : ¬ (peekLoop width fuel none left t).wp build m Q := by
  intro ⟨_, _, hrun, _⟩
  cases fuel with
  | zero => cases hrun
  | succ fuel => cases hrun

variable (chain : Chain (fun p => (m.cell p).next) cur ps) (live : ∀ p ∈ ps, m.Live p)
  (inside : ∀ p ∈ ps, (m.cell p).off + (m.cell p).len ≤ kPieceCapacity)

include chain live inside

theorem peekLoop_whole (hpos : 0 < width) (hone : InOnePiece m width ps) (hfuel : ps.length < fuel)
    (ht : t.length = width) :
    (peekLoop width fuel cur width t).wp build m fun d m' => m' = m ∧ d = (content m ps).take width := by
  induction ps generalizing cur fuel with
  | nil => cases hone
  | cons p ps ih =>
    obtain ⟨fuel, rfl⟩ : ∃ n, fuel = n + 1 := ⟨fuel - 1, by omega⟩
    obtain ⟨rfl, hrest⟩ := chain
    rw [wp_peekLoop_cons (live p (by simp)) (inside p (by simp)), content_cons]
    rw [InOnePiece] at hone
    split at hone
    · rename_i hzero
      have hnil : (m.cell p).bytes = [] := List.length_eq_zero_iff.mp (by rw [length_bytes, hzero])
      rw [if_neg (by omega), hnil, wp_peekCopy_start (by simp), hzero]
      exact ih hrest (fun q hq => live q (by simp [hq])) (fun q hq => inside q (by simp [hq])) hone
        (by simpa using hfuel)
    · have hlen : ((m.cell p).bytes.take width).length = width := by
        rw [List.length_take, length_bytes, Nat.min_eq_left hone]
      rw [if_pos hone, wp_peekCopy_start (by omega), hlen, ← ht, List.drop_length, ht, List.append_nil,
        List.take_append_of_le_length (by simpa using hone)]
      exact ⟨rfl, rfl⟩

theorem peekLoop_cut (hpos : 0 < left) (hleft : left < width) :
    ¬ (peekLoop width fuel cur left t).wp build m Q := by
  induction ps generalizing cur fuel t with
  | nil =>
    rw [Chain.nil_iff.mp chain]
    exact not_wp_peekLoop_nil
  | cons p ps ih =>
    obtain ⟨rfl, hrest⟩ := chain
    cases fuel with
    | zero => exact Prog.wp_throw _ _ _ _
    | succ fuel =>
      rw [wp_peekLoop_cons (live p (by simp)) (inside p (by simp))]
      split
      · apply peekCopy_overrun hleft
        apply List.ne_nil_of_length_pos
        rw [List.length_take, length_bytes]
        omega
      · by_cases hzero : (m.cell p).len = 0
        · have hnil : (m.cell p).bytes = [] := List.length_eq_zero_iff.mp (by rw [length_bytes, hzero])
          have hskip : peekCopy width t left [] = pure t := rfl
          rw [hnil, hskip, Prog.wp_pure, hzero]
          exact ih hrest (fun q hq => live q (by simp [hq])) (fun q hq => inside q (by simp [hq]))
        · apply peekCopy_overrun hleft
          apply List.ne_nil_of_length_pos
          rw [length_bytes]
          omega

theorem peekLoop_scattered (hpos : 0 < width) (hone : ¬ InOnePiece m width ps) :
    ¬ (peekLoop width fuel cur width t).wp build m Q := by
  induction ps generalizing cur fuel t with
  | nil =>
    rw [Chain.nil_iff.mp chain]
    exact not_wp_peekLoop_nil
  | cons p ps ih =>
    obtain ⟨rfl, hrest⟩ := chain
    have hlive : ∀ q ∈ ps, m.Live q := fun q hq => live q (by simp [hq])
    have hinside : ∀ q ∈ ps, (m.cell q).off + (m.cell q).len ≤ kPieceCapacity :=
      fun q hq => inside q (by simp [hq])
    cases fuel with
    | zero => exact Prog.wp_throw _ _ _ _
    | succ fuel =>
      rw [InOnePiece] at hone
      rw [wp_peekLoop_cons (live p (by simp)) (inside p (by simp))]
      split at hone
      · rename_i hzero
        rw [if_neg (by omega), wp_peekCopy_start (by rw [length_bytes]; omega), hzero]
        exact ih hrest hlive hinside hone
      · -- this piece holds some of the bytes, and not all
        rw [if_neg hone, wp_peekCopy_start (by rw [length_bytes]; omega)]
        exact peekLoop_cut hrest hlive hinside (by omega) (by omega)

end Loop

section Peek

variable {build : Build} {m : Mem} {b : Buffer} {p : Ptr} {ps rest : List Ptr} {width k : Nat}
  {t : Bytes} {Q : Bytes → Mem → Prop}

/-- `peek` treats the first piece as the loop would. -/
theorem peek_wp (hb : b.Rep m (p :: ps)) (hp : m.Live p) (hlen : width ≤ b.length)
    (ht : t.length = width) :
    (b.peek width t).wp build m Q ↔ (peekLoop width (m.brk + 2) b.head width t).wp build m Q := by
  have hinside := hb.holds.insideHead
  rw [hb.holds.head, wp_peekLoop_cons hp hinside]
  simp only [peek, Prog.wp_bind, wp_assert (decide_eq_true hlen), hb.holds.head]
  rw [wp_load hp]
  split
  · rename_i hwhole
    have htake : ((m.cell p).bytes.take width).length = width := by
      rw [List.length_take, length_bytes, Nat.min_eq_left hwhole]
    rw [wp_copyOut (by omega), wp_peekCopy_start (by omega), htake, ← ht, List.drop_length, ht,
      List.append_nil, Piece.bytes, take_slice _ hwhole]
  · rw [Prog.wp_bind, wp_copyOut hinside, wp_peekCopy_start (by rw [length_bytes]; omega), Prog.wp_bind,
      wp_chainBound]
    rfl

theorem peekInt_whole (hb : b.Rep m ps) (live : ∀ p ∈ ps, m.Live p) (hpos : 0 < width)
    (hone : InOnePiece m width ps) (hlen : width ≤ b.length) :
    (peekInt width b).wp build m fun x m' => m' = m ∧ x = bytesInt ((content m ps).take width) := by
  cases ps with
  | nil => cases hone
  | cons p ps =>
    have hfuel : (p :: ps).length ≤ m.brk := Queue.length_le_of_live hb.holds.rep.nodup live
    simp only [peekInt, Prog.wp_bind, wp_assert (decide_eq_true hlen), Prog.wp_pure]
    rw [peek_wp hb (live p (by simp)) hlen List.length_replicate]
    refine (peekLoop_whole hb.holds.rep.chain live hb.holds.inside hpos hone (by omega)
      List.length_replicate).imp ?_
    rintro d m' ⟨hm, hd⟩
    exact ⟨hm, by rw [hd]⟩

/-- A value that is cut is copied outside the variable meant for it. -/
theorem peekInt_cut {Q : Int → Mem → Prop} (hb : b.Rep m ps) (live : ∀ p ∈ ps, m.Live p)
    (hpos : 0 < width) (hone : ¬ InOnePiece m width ps) (hlen : width ≤ b.length) :
    ¬ (peekInt width b).wp build m Q := by
  cases ps with
  | nil =>
    have hzero : b.length = 0 := hb.length
    omega
  | cons p ps =>
    simp only [peekInt, Prog.wp_bind, wp_assert (decide_eq_true hlen)]
    rw [peek_wp hb (live p (by simp)) hlen List.length_replicate]
    exact peekLoop_scattered hb.holds.rep.chain live hb.holds.inside hpos hone

/-- `peek` stays within its variable, returns what `read` would return, and changes
    nothing. -/
def PeekAgrees (build : Build) (m : Mem) (b : Buffer) (peek : Buffer → Exec Int)
    (read : Buffer → Exec (Int × Buffer)) : Prop :=
  (peek b).wp build m fun x m' => m' = m ∧ (read b).wp build m fun r _ => x = r.1

theorem peekInt_agrees_iff (hb : b.Rep m ps) (howns : Owns m (ps ++ rest) k) (hpos : 0 < width)
    (hlen : width ≤ b.length) :
    PeekAgrees build m b (peekInt width) (readInt width) ↔ InOnePiece m width ps := by
  have hlive : ∀ p ∈ ps, m.Live p := fun p hp => howns.live (by simp [hp])
  constructor
  · intro hagrees
    by_contra hcut
    exact peekInt_cut hb hlive hpos hcut hlen hagrees
  · intro hone
    refine (peekInt_whole hb hlive hpos hone hlen).imp ?_
    rintro x m' ⟨hm, hx⟩
    refine ⟨hm, ?_⟩
    simp only [readInt, Prog.wp_bind, Prog.wp_pure]
    refine (read_spec hb howns (ne_nil_of_pos hb hpos hlen) (fun _ => hpos) hlen).imp ?_
    rintro r _ ⟨_, _, _, _, hd, _⟩
    rw [hx, hd]

/-- For every well formed buffer that holds the value: `peekInt32` and `peekInt16` agree
    with the reads exactly if the value lies in one piece, and `peekInt8` always does. -/
theorem peeks_agree_iff (hb : b.Rep m ps) (howns : Owns m (ps ++ rest) k) :
    (4 ≤ b.length → (PeekAgrees build m b peekInt32 readInt32 ↔ InOnePiece m 4 ps)) ∧
    (2 ≤ b.length → (PeekAgrees build m b peekInt16 readInt16 ↔ InOnePiece m 2 ps)) ∧
    (1 ≤ b.length → PeekAgrees build m b peekInt8 readInt8) := by
  refine ⟨fun hlen => ?_, fun hlen => ?_, fun hlen => ?_⟩
  · exact peekInt_agrees_iff hb howns (by decide) hlen
  · exact peekInt_agrees_iff hb howns (by decide) hlen
  · have hne : content m ps ≠ [] := List.ne_nil_of_length_pos (hb.length ▸ hlen)
    exact (peekInt_agrees_iff hb howns (by decide) hlen).mpr (inOnePiece_one hne)

end Peek

/-- Five bytes in one piece. -/
theorem peeks_agree_written :
    ∃ w : Buffers Unit, Buffers.Built .debug w ∧ (w.buf ()).length = 5 ∧
      PeekAgrees .debug w.mem (w.buf ()) peekInt32 readInt32 := by
  obtain ⟨w, d, r, hlen, hone⟩ : ∃ (w : Buffers Unit) (d : Unit → Bytes),
      Buffers.Run .debug BufferOp.ReadsFirst w d ∧ (w.buf ()).length = 5 ∧
      InOnePiece w.mem 4 ((w.buf ()).pieces w.mem) := by
    have r : Buffers.Run .debug BufferOp.ReadsFirst (⟨emptyMem, fun _ => {}⟩ : Buffers Unit) _ :=
      .start _
    have r := r.step (.write () [0, 0, 1, 0, 9]) trivial trivial rfl (fun i => by cases i; decide)
    exact ⟨_, _, r, rfl, by decide⟩
  obtain ⟨_, _, chain, loose, k, hfamily⟩ := r.family
  obtain ⟨rest, howns, _⟩ := hfamily.focus ()
  rw [hfamily.toChains.pieces_eq ()] at hone
  exact ⟨w, r.built, hlen, ((peeks_agree_iff (hfamily.rep ()) howns).1 (by omega)).mpr hone⟩

/-- Four bytes behind a headroom of 4095: the first is in one piece, the other three
    in the next, and `peekInt32` copies them behind its variable. -/
theorem peek_cut_value :
    ∃ b₁ m₁ b m ps k, ({} : Buffer).reservedPrepend 4095 .debug emptyMem = .ok (b₁, m₁) ∧
      b₁.write [0, 0, 1, 0] .debug m₁ = .ok (b, m) ∧ b.Rep m ps ∧ Owns m ps k ∧ b.length = 4 ∧
      ¬ PeekAgrees .debug m b peekInt32 readInt32 := by
  obtain ⟨b₁, m₁, hrun₁, p, hb₁, howns₁, _, hoff₁, hc₁⟩ : (({} : Buffer).reservedPrepend 4095).wp
      .debug emptyMem _ :=
    reservedPrepend_spec (Rep.empty _) (Owns.initial _) (by decide)
  obtain ⟨b, m, hrun, ps, hb, howns, _, hc, hext, _⟩ : (b₁.write [0, 0, 1, 0]).wp .debug m₁ _ :=
    write_spec hb₁ (howns₁ : Owns m₁ ([p] ++ []) 0)
  have hlen : b.length = 4 := by rw [hb.length, hc, hc₁]; rfl
  refine ⟨b₁, m₁, b, m, ps, 0, hrun₁, hrun, hb, by simpa using howns, hlen, ?_⟩
  rw [PeekAgrees, peekInt32]
  obtain ⟨more, rfl, hoff⟩ := hext.head
  have hinside := hb.holds.insideHead
  rw [hoff, hoff₁] at hinside
  have hmore : more ≠ [] := by
    rintro rfl
    have htotal := hb.length
    rw [hlen, content_cons, content_nil, List.append_nil, length_bytes] at htotal
    simp only [kPieceCapacity] at hinside
    omega
  have hfull := hext.full p (by rw [List.dropLast_cons_of_ne_nil hmore]; simp)
  rw [hoff, hoff₁] at hfull
  have hone : (m.cell p).len = 1 := by
    cases hfull with
    | inl h => cases h
    | inr h => simp only [kPieceCapacity] at hinside h; omega
  exact peekInt_cut hb (fun q hq => howns.live (by simp [hq])) (by decide)
    (not_inOnePiece_head (by omega) (by omega)) (by omega)

end Buffer

end Netpp
