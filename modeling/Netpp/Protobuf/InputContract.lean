import Netpp.Protobuf.InputStream

/-! # The contract of `ZeroCopyInputStream`

The contract lets a caller back up over any part of the area it has got last: over nothing, and
over all of it.  Backing up over nothing puts an empty piece at the front of the buffer, and
`flatNext` takes an empty piece for the end of the stream.

* `Reading`: what holds between two legal calls.
* `next_reads`, `backUp_reads`: what the calls do.
* `reads_in_order_iff`: the contract is kept exactly if no empty piece comes to stand in front
  of unread bytes and, in a Debug build, no area is given back whole.
-/

namespace Netpp

/-- The stream has consumed `n` bytes of the buffer it was opened on and `ps` are the pieces
    left in it.  `last` is the size the last call returned if it was a successful `next`; the
    stream still holds that piece, and perhaps one of an earlier `next`. -/
structure Reading (o : Origin) (m : Mem) (s : BufferInputStream) (ps : List Ptr) (n : Nat)
    (last : Option Nat) : Prop where
  size : s.originalSize = o.bytes.length
  linked : Linked m s.buffer ps
  owns : Owns m (ps ++ (s.drop.toList ++ o.rest)) o.bypassed
  rest : SameOn o.rest o.mem m
  le : n ≤ o.bytes.length
  bytes : o.bytes.drop n = content m ps
  returned : ∀ size, last = some size → ∃ p, s.drop = some p ∧ (m.cell p).len = size ∧
    s.buffer.Rep m ps ∧ (m.cell p).off + (m.cell p).len ≤ kPieceCapacity ∧ size ≤ n ∧
    o.bytes.drop (n - size) = (m.cell p).bytes ++ content m ps

section Calls

variable {build : Build} {o : Origin} {m : Mem} {b : Buffer} {s : BufferInputStream} {p : Ptr}
  {ps : List Ptr} {n count size : Nat} {last : Option Nat}

theorem reading_start (hb : b.Rep o.mem o.chain)
    (howns : Owns o.mem (o.chain ++ o.rest) o.bypassed) :
    Reading o o.mem (.ofBuffer b) o.chain 0 none where
  size := hb.length
  linked := hb.linked
  owns := howns
  rest := SameOn.refl _ _
  le := Nat.zero_le _
  bytes := rfl
  returned := nofun

theorem Reading.length (h : Reading o m s ps n last) : s.buffer.length = o.bytes.length - n := by
  rw [h.linked.length, ← h.bytes, List.length_drop]

theorem Reading.byteCount (h : Reading o m s ps n last) : s.byteCount = n := by
  have hle := h.le
  rw [BufferInputStream.byteCount, h.size, h.length, sizeSub_of_le (Nat.sub_le _ _)]
  omega

theorem Reading.forget (h : Reading o m s ps n last) : Reading o m s ps n none :=
  { h with returned := nofun }

theorem Reading.releaseDrop (h : Reading o m s ps n last) :
    s.releaseDrop.wp build m fun _ m' =>
      Reading o m' { s with drop := none } ps n none ∧ SameOn ps m m' := by
  cases hdrop : s.drop with
  | none =>
    simp only [BufferInputStream.releaseDrop, hdrop, Option.isSome_none, Bool.false_eq_true,
      if_false, Prog.wp_pure]
    have howns := h.owns
    rw [hdrop] at howns
    exact ⟨{ h with owns := howns, returned := nofun }, SameOn.refl _ _⟩
  | some p =>
    simp only [BufferInputStream.releaseDrop, hdrop, Option.isSome_some, if_true]
    have howns := h.owns
    rw [hdrop] at howns
    refine (howns.deletePiece List.perm_middle).imp ?_
    intro _ m' ⟨howns', hsame⟩
    refine ⟨⟨h.size, h.linked.same hsame.left, howns', h.rest.trans hsame.right, h.le, ?_, nofun⟩,
      hsame.left⟩
    rw [h.bytes, content_same hsame.left]

/-- `next` fails at the end of the chain and at an empty piece; otherwise it hands out the
    first piece. -/
theorem next_reads (h : Reading o m s ps n last) :
    s.next.wp build m fun r m' =>
      (r.1 = none ∧ (∀ p, ps.head? = some p → (m.cell p).len = 0) ∧
        Reading o m' r.2 ps n none ∧ SameOn ps m m') ∨
      ∃ p qs, ps = p :: qs ∧ 0 < (m.cell p).len ∧ r.1 = some (m.cell p).bytes ∧
        Reading o m' r.2 qs (n + (m.cell p).len) (some (m.cell p).len) ∧ SameOn qs m m' := by
  simp only [BufferInputStream.next, Prog.wp_bind]
  refine h.releaseDrop.imp ?_
  rintro _ m₁ ⟨hread, hsame⟩
  have hlive : ∀ a ∈ ps, m₁.Live a := fun a ha => hread.owns.live (by simp [ha])
  by_cases hend : ∀ p, ps.head? = some p → (m₁.cell p).len = 0
  · refine (FlatInputBuffer.flatNext_end hread.linked hlive hend).imp ?_
    rintro r m' ⟨hm, hr⟩
    subst hm hr
    simp only [Prog.wp_pure]
    refine .inl ⟨trivial, fun p hp => ?_, { hread with }, hsame⟩
    rw [← hsame p (List.mem_of_head? hp)]
    exact hend p hp
  · cases ps with
    | nil => simp at hend
    | cons p ps =>
      have hpos : 0 < (m₁.cell p).len := by
        have : (m₁.cell p).len ≠ 0 := by simpa using hend
        omega
      refine (FlatInputBuffer.flatNext_spec hread.linked (hlive p (by simp)) hpos).imp ?_
      rintro r m' ⟨hm, hr, hrep⟩
      subst hm
      simp only [hr, Prog.wp_pure]
      have hcell := hsame p (by simp)
      rw [hcell] at hpos ⊢
      have hbytes := hread.bytes
      have hle := congrArg List.length hbytes
      rw [List.length_drop, content_cons, List.length_append, length_bytes, hcell] at hle
      have hn := hread.le
      have hrest : o.bytes.drop (n + (m.cell p).len) = content m' ps := by
        rw [← List.drop_drop, hbytes, content_cons, hcell, ← length_bytes (m.cell p), List.drop_left]
      refine .inr ⟨p, ps, rfl, hpos, rfl, ⟨hread.size, hrep.linked, ?_, hread.rest, by omega, hrest,
        ?_⟩, hsame.mono fun a ha => by simp [ha]⟩
      · have howns : Owns m' (p :: ps ++ o.rest) o.bypassed := hread.owns
        exact howns.perm List.perm_middle.symm
      · intro size hsize
        cases hsize
        refine ⟨p, rfl, by rw [hcell], hrep, hread.linked.inside p (by simp), by omega, ?_⟩
        rw [Nat.add_sub_cancel, hbytes, content_cons]

/-- `BackUp` puts the end of the piece back, as a piece of that length. -/
theorem backUp_reads (h : Reading o m s ps n (some size)) (hle : count ≤ size)
    (hassert : build = .debug → count < size) :
    (s.backUp count).wp build m fun s' m' => ∃ p,
      Reading o m' s' (p :: ps) (n - count) none ∧ lens m' (p :: ps) = count :: lens m ps := by
  obtain ⟨p, hdrop, hlen, hrep, hinside, hn, hbytes⟩ := h.returned size rfl
  have howns : Owns m (p :: (ps ++ o.rest)) o.bypassed := by
    have howns := h.owns
    rw [hdrop] at howns
    exact howns.perm List.perm_middle
  rw [← hlen] at hle hassert
  simp only [BufferInputStream.backUp, hdrop, Option.isSome_some, wp_assert_true, Prog.wp_bind,
    Prog.wp_pure]
  refine (FlatInputBuffer.flatBackUp_wp hrep howns hinside hle hassert).imp ?_
  rintro b' m' ⟨hlinked, howns', hrest, hcontent, _, hcount⟩
  refine ⟨p, ⟨h.size, hlinked, howns', h.rest.trans hrest.right,
    Nat.le_trans (Nat.sub_le _ _) h.le, ?_, (by simp)⟩, ?_⟩
  · -- the piece held the bytes from `n - size` on, and the last `count` of them are unread again
    have hsplit : n - count = n - size + ((m.cell p).len - count) := by omega
    rw [hcontent, hsplit, ← List.drop_drop, hbytes, List.drop_append_of_le_length]
    rw [length_bytes]
    omega
  · rw [← lens_same hrest.left, lens, List.map_cons, hcount]
    rfl

/-- A Debug build does not take a whole area back. -/
theorem lt_of_wp_backUp {Q : BufferInputStream → Mem → Prop} (h : Reading o m s ps n (some size))
    (hrun : (s.backUp count).wp .debug m Q) : count < size := by
  obtain ⟨p, hdrop, hlen, _⟩ := h.returned size rfl
  have hlive : m.Live p := h.owns.live (by simp [hdrop])
  simp only [BufferInputStream.backUp, hdrop, Option.isSome_some, wp_assert_true,
    Prog.wp_bind] at hrun
  rw [← hlen]
  exact FlatInputBuffer.lt_of_wp_flatBackUp hlive hrun

end Calls

/-! ## The contract -/

/-- What the contract promises for these calls, from a position `n` in `bytes`: they return,
    `next` yields the bytes from there on and fails only where there are none.  Nothing is
    promised after a `backUp` that is not legal. -/
def HonoursInput (build : Build) (bytes : Bytes) :
    List StreamCall → Option Nat → Nat → BufferInputStream → Mem → Prop
  | [], _, _, _, _ => True
  | .next :: calls, _, n, s, m => s.next.wp build m fun r m' =>
    match r.1 with
    | none => n = bytes.length ∧ HonoursInput build bytes calls none n r.2 m'
    | some data => data ≠ [] ∧ data <+: bytes.drop n ∧
      HonoursInput build bytes calls (some data.length) (n + data.length) r.2 m'
  | .backUp count :: calls, last, n, s, m => ∀ size, last = some size → count ≤ size →
    (s.backUp count).wp build m fun s' m' => HonoursInput build bytes calls none (n - count) s' m'

/-- From pieces of these lengths on, no `next` finds an empty piece in front of unread bytes
    and, in a Debug build, no `backUp` takes back all of an area. -/
def Served (build : Build) : List Nat → Option Nat → List StreamCall → Prop
  | _, _, [] => True
  | [], _, .next :: calls => Served build [] none calls
  | 0 :: ls, _, .next :: calls => ls.sum = 0 ∧ Served build (0 :: ls) none calls
  | (l + 1) :: ls, _, .next :: calls => Served build ls (some (l + 1)) calls
  | ls, last, .backUp count :: calls => ∀ size, last = some size → count ≤ size →
    (build = .debug → count < size) ∧ Served build (count :: ls) none calls

section Contract

variable {build : Build} {o : Origin} {m : Mem} {b : Buffer} {s : BufferInputStream} {p : Ptr}
  {ps : List Ptr} {n : Nat} {last : Option Nat}

theorem served_next_end {calls : List StreamCall}
    (hend : ∀ p, ps.head? = some p → (m.cell p).len = 0) :
    Served build (lens m ps) last (.next :: calls) ↔
      (lens m ps).sum = 0 ∧ Served build (lens m ps) none calls := by
  cases ps with
  | nil => simp [lens, Served]
  | cons p ps =>
    have hzero : (m.cell p).len = 0 := hend p rfl
    simp [lens, hzero, Served]

theorem served_next_data {calls : List StreamCall} (hpos : 0 < (m.cell p).len) :
    Served build (lens m (p :: ps)) last (.next :: calls) ↔
      Served build (lens m ps) (some (m.cell p).len) calls := by
  obtain ⟨l, hl⟩ := Nat.exists_eq_succ_of_ne_zero (Nat.ne_of_gt hpos)
  simp only [lens, List.map_cons, hl, Served]

theorem honoursInput_iff_served (calls : List StreamCall) (h : Reading o m s ps n last) :
    HonoursInput build o.bytes calls last n s m ↔ Served build (lens m ps) last calls := by
  induction calls generalizing m s ps n last with
  | nil =>
    rw [HonoursInput, Served]
  | cons call calls ih =>
    cases call with
    | next =>
      obtain ⟨r, m', hrun, hcases⟩ : s.next.wp build m _ := next_reads h
      rw [HonoursInput, Prog.wp_of_eq_ok hrun]
      cases hcases with
      | inl hend =>
        obtain ⟨hr, hzero, hread, hsame⟩ := hend
        have hle := h.le
        have hunread : n = o.bytes.length ↔ (lens m ps).sum = 0 := by
          rw [sum_lens, ← h.bytes, List.length_drop]
          omega
        rw [hr, served_next_end hzero, ← hunread, ← lens_same hsame]
        exact and_congr_right fun _ => ih hread
      | inr hdata =>
        obtain ⟨p, qs, hps, hpos, hr, hread, hsame⟩ := hdata
        subst hps
        have hne : (m.cell p).bytes ≠ [] := List.ne_nil_of_length_pos (by rw [length_bytes]; exact hpos)
        have hprefix : (m.cell p).bytes <+: o.bytes.drop n := by
          rw [h.bytes, content_cons]
          exact List.prefix_append _ _
        rw [hr, served_next_data hpos, ← lens_same hsame]
        simp only [length_bytes]
        rw [and_iff_right hne, and_iff_right hprefix]
        exact ih hread
    | backUp count =>
      rw [HonoursInput, Served]
      refine forall_congr' fun size => imp_congr_right fun hlast => imp_congr_right fun hle => ?_
      subst hlast
      constructor
      · intro hhonours
        have hassert : build = .debug → count < size := by
          intro hdebug
          subst hdebug
          exact lt_of_wp_backUp h hhonours
        obtain ⟨s', m', _, ⟨p, hread, hlens⟩, hrest⟩ := (backUp_reads h hle hassert).and hhonours
        refine ⟨hassert, ?_⟩
        rw [← hlens]
        exact (ih hread).mp hrest
      · intro ⟨hassert, hserved⟩
        refine (backUp_reads h hle hassert).imp ?_
        intro s' m' ⟨p, hread, hlens⟩
        rw [← hlens] at hserved
        exact (ih hread).mpr hserved

/-- For every well formed buffer and every sequence of `Next` and `BackUp`: the contract is
    kept exactly if no `Next` finds an empty piece in front of unread bytes and, in a Debug
    build, no `BackUp` gives back all of an area. -/
theorem reads_in_order_iff (calls : List StreamCall) (hb : b.Rep o.mem o.chain)
    (howns : Owns o.mem (o.chain ++ o.rest) o.bypassed) :
    HonoursInput build o.bytes calls none 0 (.ofBuffer b) o.mem ↔
      Served build (lens o.mem o.chain) none calls :=
  honoursInput_iff_served calls (reading_start hb howns)

end Contract

/-- Both bytes of a lone piece are read and put back, in a Debug build. -/
theorem whole_area_asserts :
    ¬ ∀ (build : Build) (o : Origin) (b : Buffer) (calls : List StreamCall), b.Rep o.mem o.chain →
      Owns o.mem (o.chain ++ o.rest) o.bypassed →
      HonoursInput build o.bytes calls none 0 (.ofBuffer b) o.mem := by
  intro hclaim
  have hhonours := hclaim .debug loneOrigin loneBuffer [.next, .backUp 2] loneBuffer_rep loneOrigin_owns
  have hserved := (honoursInput_iff_served _ (reading_start loneBuffer_rep loneOrigin_owns)).mp hhonours
  exact Nat.lt_irrefl 2 ((hserved 2 rfl (Nat.le_refl 2)).1 rfl)

/-- One byte of the two is put back and read again. -/
theorem reads_in_order_lone :
    HonoursInput .debug loneOrigin.bytes [.next, .backUp 1, .next] none 0 (.ofBuffer loneBuffer)
      loneOrigin.mem := by
  refine (reads_in_order_iff _ loneBuffer_rep loneOrigin_owns).mpr ?_
  intro size hsize _
  cases hsize
  exact ⟨fun _ => by decide, trivial⟩

end Netpp
