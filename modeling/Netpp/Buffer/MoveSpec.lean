import Netpp.Buffer.WriteSpec

/-! # Moving and dropping whole pieces

`read(len, Buffer*)` moves the pieces of one chain to the end of another and
copies at most the last, partly read one.  It does not count what it has moved: it looks for a
piece of `len` bytes or more, and the bytes of the pieces it passes over (`passed`) go along.
`clear` drops a whole chain with `delete`, so the pool keeps counting its pieces.
-/

namespace Netpp

namespace Buffer

variable {build : Build} {m : Mem} {b buf : Buffer} {p : Ptr} {ps qs rest : List Ptr}
  {k fuel left len : Nat}

/-! ## `read(len, Buffer*)` -/

theorem nodup_move (h : (p :: ps ++ qs ++ rest).Nodup) :
    p ∉ ps ∧ p ∉ qs ∧ p ∉ rest ∧ (∀ a ∈ ps, a ∉ p :: qs) ∧ ∀ a ∈ rest, a ∉ p :: qs := by
  simp only [List.cons_append, List.append_assoc, List.nodup_cons, List.nodup_append,
    List.mem_append, not_or, List.mem_cons] at h ⊢
  obtain ⟨⟨hps, hqs, hrest⟩, hn, ⟨hn', hn'', hqr⟩, hpq⟩ := h
  refine ⟨hps, hqs, hrest, fun a ha => ⟨fun e => hps (e ▸ ha), fun haq => ?_⟩, fun a ha =>
    ⟨fun e => hrest (e ▸ ha), fun haq => hqr a haq a ha rfl⟩⟩
  exact hpq a ha a (Or.inl haq) rfl

theorem push_pop (hq : Holds m b.toQueue (p :: ps)) (hbuf : Holds m buf.toQueue qs)
    (howns : Owns m (p :: ps ++ qs ++ rest) k) :
    b.pop.wp build m fun r m₁ => (buf.push r.1).wp build m₁ fun buf' m' =>
      Holds m' r.2.toQueue ps ∧ Holds m' buf'.toQueue (qs ++ [p]) ∧
      Owns m' (ps ++ (qs ++ [p]) ++ rest) k ∧ SameOn rest m m' ∧ m.Relinked m' (p :: qs) ∧
      r.2.length = b.length ∧ buf'.length = buf.length := by
  obtain ⟨_, hnot, _, hps, hrest⟩ := nodup_move howns.nodup
  simp only [pop, Prog.wp_bind, Prog.wp_pure]
  refine (Queue.pop_holds hq (howns.live (by simp))).imp ?_
  rintro ⟨item, q'⟩ m₁ ⟨rfl, rfl, hq'⟩
  refine (push_holds hbuf howns (fun a ha => by simp [ha]) (by simp) hnot hq.insideHead).imp ?_
  rintro buf' m' ⟨hbuf', howns', hlink, hlen⟩
  have hperm : (p :: ps ++ qs ++ rest).Perm (ps ++ (qs ++ [p]) ++ rest) := by
    have : (p :: (ps ++ qs)).Perm (ps ++ qs ++ [p]) := (List.perm_append_singleton _ _).symm
    simpa using this.append_right rest
  exact ⟨hq'.same (SameOn.of_relinked hlink hps), hbuf', howns'.perm hperm,
    SameOn.of_relinked hlink hrest, hlink, trivial, hlen⟩

theorem copyFront (hq : Holds m b.toQueue (p :: ps)) (hbuf : Holds m buf.toQueue qs)
    (howns : Owns m (p :: ps ++ qs ++ rest) k) (hlt : left < (m.cell p).len) :
    (do
      let item ← newPiece
      let copied ← (m.cell p).copyOut (m.cell p).off left
      let bufLast ← load (some item)
      let filled ← bufLast.copyIn 0 copied
      store (some item) { filled with len := u16 left }
      let buf ← buf.push (some item)
      let first ← load b.head
      store b.head (first.dropFront left)
      pure (b, buf) : Exec (Buffer × Buffer)).wp build m fun r m' => ∃ ps' qs',
      Holds m' r.1.toQueue ps' ∧ Holds m' r.2.toQueue qs' ∧ Owns m' (ps' ++ qs' ++ rest) k ∧
      SameOn rest m m' ∧ content m' ps' = (content m (p :: ps)).drop left ∧
      content m' qs' = content m qs ++ (content m (p :: ps)).take left ∧
      r.1.length = b.length ∧ r.2.length = buf.length := by
  have hinside := hq.insideHead
  simp only [Prog.wp_bind, Prog.wp_pure]
  refine howns.newPiece.imp ?_
  rintro item m₁ ⟨hfresh, howns₁, hzero, hsame₁⟩
  simp only [List.mem_append, not_or] at hfresh
  obtain ⟨⟨hnotp, hnotq⟩, hnotrest⟩ := hfresh
  have hlen : (slice (m.cell p).data (m.cell p).off left).length = left := length_slice ..
  rw [wp_copyOut (by omega), wp_load (howns₁.live (by simp)), wp_copyIn (by omega),
    wp_store (howns₁.live (by simp)), hzero, u16_of_le (by omega)]
  generalize hcell : ({ m.cell item with
    next := none, off := 0, len := left
    data := patch (m.cell item).data 0 (slice (m.cell p).data (m.cell p).off left) } : Piece) = c
  have hbytes : c.bytes = (content m (p :: ps)).take left := by
    rw [← hcell, content_cons, List.take_append_of_le_length (by simp; omega)]
    simp only [Piece.bytes]
    have hpatch := slice_patch (m.cell item).data 0 (slice (m.cell p).data (m.cell p).off left)
    rw [hlen] at hpatch
    rw [take_slice _ (by omega), hpatch]
  have howns₂ : Owns (m₁.set item c) (item :: (p :: ps ++ qs ++ rest)) k := howns₁.set (by simp) c
  have hsame₂ : SameOn (p :: ps ++ qs ++ rest) m (m₁.set item c) :=
    hsame₁.trans (SameOn.set_of_notMem _ (by simp_all))
  have hroom : ((m₁.set item c).cell item).off + ((m₁.set item c).cell item).len ≤ kPieceCapacity := by
    rw [Mem.set_cell_self, ← hcell]
    show 0 + left ≤ kPieceCapacity
    omega
  refine (push_holds (hbuf.same hsame₂.left.right) howns₂ (fun a ha => by simp [ha]) (by simp)
    hnotq hroom).imp ?_
  rintro buf' m₃ ⟨hbuf', howns₃, hlink, hlbuf⟩
  have hnodup : (item :: (p :: ps) ++ qs ++ rest).Nodup := by simpa using howns₂.nodup
  obtain ⟨_, _, _, hps, hrest⟩ := nodup_move hnodup
  have hsame₃ : SameOn (p :: ps) m m₃ := hsame₂.left.left.trans (SameOn.of_relinked hlink hps)
  have hperm : (item :: (p :: ps ++ qs ++ rest)).Perm (p :: ps ++ (qs ++ [item] ++ rest)) := by
    have : (item :: (p :: ps ++ qs)).Perm (p :: ps ++ qs ++ [item]) :=
      (List.perm_append_singleton _ _).symm
    simpa using this.append_right rest
  have hq₃ : Holds m₃ b.toQueue (p :: ps) := hq.same hsame₃
  have hcellp : m₃.cell p = m.cell p := hsame₃ p (by simp)
  rw [hq₃.head, wp_load (howns₃.live (by simp)), ← hq₃.head]
  refine (store_dropFront hq₃ (howns₃.perm hperm) (by rw [hcellp]; omega)).imp ?_
  rintro _ m' ⟨hq', howns', hsame', hc, _⟩
  refine ⟨p :: ps, qs ++ [item], hq', hbuf'.same hsame'.left, by simpa using howns',
    (hsame₂.right.trans (SameOn.of_relinked hlink hrest)).trans hsame'.right, ?_, ?_, trivial, hlbuf⟩
  · rw [hc, content_same hsame₃]
  · rw [content_same hsame'.left, content_relinked hlink, content_append,
      content_same hsame₂.left.right]
    simp [hbytes]

/-- The bytes of the pieces that `read(len, Buffer*)` passes over. -/
def passed (m : Mem) (len : Nat) : List Ptr → Nat
  | [] => 0
  | p :: ps => if len ≤ (m.cell p).len then 0 else (m.cell p).len + passed m len ps

theorem passed_congr {m' : Mem} (h : ∀ p, (m'.cell p).len = (m.cell p).len) :
    passed m' len ps = passed m len ps := by
  induction ps with
  | nil => rfl
  | cons p ps ih => rw [passed, passed, h p, ih]

theorem passed_add_le (h : ∃ p ∈ ps, len ≤ (m.cell p).len) :
    passed m len ps + len ≤ (content m ps).length := by
  induction ps with
  | nil => simp at h
  | cons p ps ih =>
    rw [passed, content_cons, List.length_append, length_bytes]
    split
    · omega
    · rename_i hshort
      obtain ⟨q, hq, hlen⟩ := h
      have hmore : q ∈ ps := by
        cases List.mem_cons.mp hq with
        | inl h => exact absurd (h ▸ hlen) hshort
        | inr h => exact h
      have := ih ⟨q, hmore, hlen⟩
      omega

theorem readBufferLoop_spec (hq : Holds m b.toQueue ps) (hbuf : Holds m buf.toQueue qs)
    (howns : Owns m (ps ++ qs ++ rest) k) (hfuel : ps.length < fuel)
    (hfound : ∃ p ∈ ps, left ≤ (m.cell p).len) :
    (readBufferLoop fuel b buf left).wp build m fun r m' => ∃ ps' qs',
      Holds m' r.1.toQueue ps' ∧ Holds m' r.2.toQueue qs' ∧ Owns m' (ps' ++ qs' ++ rest) k ∧
      SameOn rest m m' ∧ content m' ps' = (content m ps).drop (passed m left ps + left) ∧
      content m' qs' = content m qs ++ (content m ps).take (passed m left ps + left) ∧
      r.1.length = b.length ∧ r.2.length = buf.length := by
  induction ps generalizing fuel b buf qs m with
  | nil => simp at hfound
  | cons p ps ih =>
    obtain ⟨fuel, rfl⟩ : ∃ n, fuel = n + 1 := ⟨fuel - 1, by omega⟩
    have hinside := hq.insideHead
    have hlive : m.Live p := howns.live (by simp)
    simp only [readBufferLoop, Prog.wp_bind, passed]
    rw [hq.head, wp_load hlive]
    split
    · rename_i hle
      rw [Nat.zero_add]
      split
      · rename_i hlt
        rw [← hq.head]
        exact copyFront hq hbuf howns hlt
      · simp only [Prog.wp_bind, Prog.wp_pure]
        refine (push_pop hq hbuf howns).imp fun r m₁ hr => hr.imp ?_
        rintro buf' m' ⟨hq', hbuf', howns', hsame, hlink, hl, hlbuf⟩
        have hwhole : left = (m.cell p).bytes.length := by rw [length_bytes]; omega
        refine ⟨ps, qs ++ [p], hq', hbuf', howns', hsame, ?_, ?_, hl, hlbuf⟩
        · rw [content_relinked hlink, content_cons, hwhole, List.drop_left]
        · rw [content_relinked hlink, content_append, content_cons, content_cons, content_nil,
            List.append_nil, hwhole, List.take_left]
    · rename_i hgt
      simp only [Prog.wp_bind]
      refine (push_pop hq hbuf howns).imp fun r m₁ hr => hr.imp ?_
      rintro buf' m' ⟨hq', hbuf', howns', hsame, hlink, hl, hlbuf⟩
      obtain ⟨q, hmem, hlong⟩ := hfound
      have hmore : q ∈ ps := by
        cases List.mem_cons.mp hmem with
        | inl h => exact absurd (h ▸ hlong) hgt
        | inr h => exact h
      refine (ih hq' hbuf' howns' (by simpa using hfuel)
        ⟨q, hmore, by rw [hlink.len]; exact hlong⟩).imp ?_
      rintro r' m'' ⟨ps', qs', hq'', hbuf'', howns'', hsame', hc', hcbuf', hl', hlbuf'⟩
      have hpassed : passed m' left ps = passed m left ps := passed_congr hlink.len
      have hsplit : (m.cell p).len + passed m left ps + left =
          (m.cell p).bytes.length + (passed m left ps + left) := by rw [length_bytes]; omega
      refine ⟨ps', qs', hq'', hbuf'', howns'', hsame.trans hsame', ?_, ?_, hl'.trans hl,
        hlbuf'.trans hlbuf⟩
      · rw [hc', hpassed, content_relinked hlink, hsplit, content_cons, List.drop_length_add_append]
      · rw [hcbuf', hpassed, content_relinked hlink, content_relinked hlink, hsplit, content_cons,
          List.take_length_add_append, content_append, content_cons, content_nil, List.append_nil,
          List.append_assoc]

/-- Without such a piece the loop runs off the chain. -/
theorem readBufferLoop_found (hq : Holds m b.toQueue ps) (hbuf : Holds m buf.toQueue qs)
    (howns : Owns m (ps ++ qs ++ rest) k) :
    (readBufferLoop fuel b buf left).wlp build m fun _ _ => ∃ p ∈ ps, left ≤ (m.cell p).len := by
  induction fuel generalizing b buf ps qs m with
  | zero => exact Prog.wlp_throw _ _ _ _
  | succ fuel ih =>
    simp only [readBufferLoop, Prog.wlp_bind]
    cases ps with
    | nil =>
      rw [show b.head = none from hq.rep.chain]
      exact fun _ _ h => by cases h
    | cons p ps =>
      rw [hq.head]
      apply wlp_load
      split
      · rename_i hle
        exact fun _ _ _ => ⟨p, by simp, hle⟩
      · simp only [Prog.wlp_bind]
        refine (push_pop hq hbuf howns).wlp.imp fun r m₁ hr => hr.wlp.imp ?_
        rintro buf' m' ⟨hq', hbuf', howns', _, hlink, _⟩
        refine (ih hq' hbuf' howns').imp ?_
        rintro _ _ ⟨q, hmem, hlong⟩
        exact ⟨q, List.mem_cons_of_mem p hmem, by rw [← hlink.len]; exact hlong⟩

/-- `read(len, Buffer*)`, where the chain has a piece of `len` bytes: the bytes of the pieces
    before it are moved to the end of the other buffer, and `len` more. -/
theorem readBuffer_holds (hq : Holds m b.toQueue ps) (hbuf : Holds m buf.toQueue qs)
    (howns : Owns m (ps ++ qs ++ rest) k) (hpos : 0 < len) (hlen : len ≤ b.length)
    (hfound : ∃ p ∈ ps, len ≤ (m.cell p).len) :
    (b.readBuffer len buf).wp build m fun r m' => ∃ ps' qs',
      Holds m' r.1.toQueue ps' ∧ Holds m' r.2.toQueue qs' ∧ Owns m' (ps' ++ qs' ++ rest) k ∧
      SameOn rest m m' ∧ content m' ps' = (content m ps).drop (passed m len ps + len) ∧
      content m' qs' = content m qs ++ (content m ps).take (passed m len ps + len) ∧
      r.1.length = b.length - len ∧ r.2.length = buf.length + len := by
  have hfuel : ps.length < m.brk + 1 := chain_lt_bound (by simpa using howns)
  simp only [readBuffer, Prog.wp_bind, wp_assert (decide_eq_true hpos),
    wp_assert (decide_eq_true hlen), wp_chainBound, Prog.wp_pure]
  refine (readBufferLoop_spec hq hbuf howns hfuel hfound).imp ?_
  rintro r m' ⟨ps', qs', hq', hbuf', howns', hsame, hc, hcbuf, hl, hlbuf⟩
  refine ⟨ps', qs', hq', hbuf', howns', hsame, hc, hcbuf, ?_, ?_⟩
  · show sizeSub r.1.length len = _
    rw [hl, sizeSub_of_le hlen]
  · show r.2.length + len = _
    rw [hlbuf]

theorem readBuffer_found (hq : Holds m b.toQueue ps) (hbuf : Holds m buf.toQueue qs)
    (howns : Owns m (ps ++ qs ++ rest) k) :
    (b.readBuffer len buf).wlp build m fun _ _ => ∃ p ∈ ps, len ≤ (m.cell p).len := by
  simp only [readBuffer, Prog.wlp_bind, wlp_assert, Prog.wlp_pure]
  intro _ _
  exact (wp_chainBound.mpr (readBufferLoop_found hq hbuf howns)).wlp

/-- The first piece that is not empty has at least `len` bytes. -/
def ReadsFirst (m : Mem) (len : Nat) (ps : List Ptr) : Prop :=
  ∀ p ∈ ps.find? fun p => 0 < (m.cell p).len, len ≤ (m.cell p).len

instance (m : Mem) (len : Nat) (ps : List Ptr) : Decidable (ReadsFirst m len ps) :=
  inferInstanceAs (Decidable (∀ p ∈ ps.find? fun p => 0 < (m.cell p).len, len ≤ (m.cell p).len))

theorem passed_eq_zero_iff (hpos : 0 < len) : passed m len ps = 0 ↔ ReadsFirst m len ps := by
  induction ps with
  | nil => simp [passed, ReadsFirst]
  | cons p ps ih =>
    rw [passed, ReadsFirst, List.find?_cons]
    rcases Nat.eq_zero_or_pos (m.cell p).len with hzero | hp
    · rw [if_neg (by omega), hzero, Nat.zero_add]
      exact ih
    · rw [decide_eq_true hp]
      by_cases hlong : len ≤ (m.cell p).len
      · simp [hlong]
      · simp [hlong, Nat.ne_of_gt hp]

theorem found_of_readsFirst (hpos : 0 < len) (hreads : ReadsFirst m len ps)
    (hlen : len ≤ (content m ps).length) : ∃ p ∈ ps, len ≤ (m.cell p).len := by
  cases hfind : ps.find? (fun p => 0 < (m.cell p).len) with
  | some p => exact ⟨p, List.mem_of_find?_eq_some hfind, hreads p hfind⟩
  | none =>
    have hempty : content m ps = [] := by
      refine content_eq_nil_iff.mpr fun p hp => ?_
      simpa using List.find?_eq_none.mp hfind p hp
    rw [hempty, List.length_nil] at hlen
    omega

/-! ## `clear` -/

theorem clearLoop_spec (hq : Holds m b.toQueue ps) (howns : Owns m (ps ++ rest) k)
    (hfuel : ps.length < fuel) (hsmall : ps.length < 4294967296) :
    (clearLoop fuel b).wp build m fun b' m' =>
      Holds m' b'.toQueue [] ∧ Owns m' rest (k + ps.length) ∧ m'.cell = m.cell := by
  induction ps generalizing fuel b k m with
  | nil =>
    obtain ⟨fuel, rfl⟩ : ∃ n, fuel = n + 1 := ⟨fuel - 1, by simp at hfuel; omega⟩
    have hempty : b.isEmpty = true := by simp [Queue.isEmpty, hq.rep.size, u32]
    simp only [clearLoop, hempty, if_true, Prog.wp_pure]
    exact ⟨hq, by simpa using howns, trivial⟩
  | cons p ps ih =>
    obtain ⟨fuel, rfl⟩ : ∃ n, fuel = n + 1 := ⟨fuel - 1, by omega⟩
    have hsize : b.size = ps.length + 1 := by
      rw [hq.rep.size, u32, Nat.mod_eq_of_lt hsmall, List.length_cons]
    have hempty : b.isEmpty = false := by simp [Queue.isEmpty, hsize]
    simp only [clearLoop, hempty, Bool.false_eq_true, if_false, pop, Prog.wp_bind, Prog.wp_pure]
    refine (Queue.pop_holds hq (howns.live (by simp))).imp ?_
    rintro ⟨item, q'⟩ m₁ ⟨rfl, rfl, hq'⟩
    refine howns.deleteCell.imp ?_
    rintro _ m' ⟨howns', hcell⟩
    have hholds : Holds m' q' ps := hq'.same fun a _ => by rw [hcell]
    refine (ih hholds howns' (by simpa using hfuel) (by simp at hsmall; omega)).imp ?_
    rintro b' m'' ⟨hq'', howns'', hcell'⟩
    refine ⟨hq'', ?_, hcell'.trans hcell⟩
    rw [List.length_cons, Nat.add_comm ps.length 1, ← Nat.add_assoc]
    exact howns''

/-- `clear`: the buffer is empty again and its pieces are gone, behind the back
    of the pool. -/
theorem clear_spec (hq : Holds m b.toQueue ps) (howns : Owns m (ps ++ rest) k)
    (hsmall : ps.length < 4294967296) :
    b.clear.wp build m fun b' m' =>
      b'.Rep m' [] ∧ Owns m' rest (k + ps.length) ∧ SameOn rest m m' := by
  simp only [clear, Prog.wp_bind, wp_chainBound, Prog.wp_pure]
  refine (clearLoop_spec hq howns (chain_lt_bound howns) hsmall).imp ?_
  rintro b' m' ⟨hq', howns', hcell⟩
  exact ⟨⟨hq', rfl⟩, howns', fun a _ => by rw [hcell]⟩

end Buffer

end Netpp
