import Netpp.Protobuf.OutputStream

/-! # The contract of `ZeroCopyOutputStream`

A caller of the stream takes turns.  In each it asks for an area and either writes over all of
it, or writes at its start and backs up over the rest, which may be nothing and may be the
whole area.

* `Honours`: what the contract promises such a caller, turn by turn.
* `turn_iff`: what a turn does once `next` has returned.
* `output_contract_iff`: the promises are kept exactly if, in a Debug build, no `BackUp`
  leaves the last piece without bytes.
-/

namespace Netpp

namespace BufferOutputStream

/-- `ByteCount`; the constructor has kept the length the buffer had. -/
def byteCount (b : Buffer) (originalSize : Nat) : Nat := sizeSub b.length originalSize

/-- What a caller does with an area: write over all of it, or write at its start and back up
    over what is left. -/
inductive Turn where
  | fill (d : Bytes)
  | keep (d : Bytes)

namespace Turn

def bytes : Turn → Bytes
  | fill d => d
  | keep d => d

def backsUp : Turn → Bool
  | fill _ => false
  | keep _ => true

/-- The contract allows the turn with an area of this size. -/
def Legal (size : Nat) : Turn → Prop
  | fill d => d.length = size
  | keep d => d.length ≤ size

def run (a : Area) (b : Buffer) : Turn → Exec Buffer
  | fill d => do
    a.fill d
    pure b
  | keep d => do
    a.fill d
    backUp b (a.size - d.length)

theorem Legal.le {size : Nat} {turn : Turn} (h : turn.Legal size) : turn.bytes.length ≤ size := by
  cases turn with
  | fill d => exact Nat.le_of_eq h
  | keep d => exact h

end Turn

/-! ## The contract -/

/-- The buffer is well formed and holds the old bytes and behind them those kept, and
    `ByteCount` has counted these. -/
structure Appended (m : Mem) (b : Buffer) (ps rest : List Ptr) (k : Nat) (old kept : Bytes) : Prop where
  rep : b.Rep m ps
  owns : Owns m (ps ++ rest) k
  bytes : content m ps = old ++ kept
  counted : byteCount b old.length = kept.length

/-- Every call of these turns returns, every area has room, and after each turn the bytes
    kept so far have been appended.  Nothing is promised after a turn that is not legal. -/
def Honours (build : Build) (rest : List Ptr) (k : Nat) (old : Bytes) :
    List Turn → Bytes → Buffer → Mem → Prop
  | [], kept, b, m => ∃ ps, Appended m b ps rest k old kept
  | turn :: turns, kept, b, m => (∃ ps, Appended m b ps rest k old kept) ∧
    (next b).wp build m fun r m' => 0 < r.1.size ∧ (turn.Legal r.1.size →
      (turn.run r.1 r.2).wp build m' fun b' m'' =>
        Honours build rest k old turns (kept ++ turn.bytes) b' m'')

/-- Where the bytes of the last piece start and how many there are. -/
def lastOf (m : Mem) (ps : List Ptr) : Option (Nat × Nat) :=
  ps.getLast?.map fun t => ((m.cell t).off, (m.cell t).len)

/-- The same of the piece `next` takes an area from: the last one, or a fresh one if that is
    missing or full. -/
def roomy : Option (Nat × Nat) → Nat × Nat
  | none => (0, 0)
  | some (off, len) => if off + len = kPieceCapacity then (0, 0) else (off, len)

/-- In a Debug build no legal `BackUp` of these turns leaves the last piece without bytes. -/
def Accepts (build : Build) : Option (Nat × Nat) → List Turn → Prop
  | _, [] => True
  | last, turn :: turns =>
    turn.Legal (kPieceCapacity - (roomy last).1 - (roomy last).2) →
      (build = .debug → turn.backsUp = true → 0 < (roomy last).2 + turn.bytes.length) ∧
      Accepts build (some ((roomy last).1, (roomy last).2 + turn.bytes.length)) turns

section Contract

variable {build : Build} {m m₁ : Mem} {b b₁ : Buffer} {t : Ptr} {ps qs rest : List Ptr} {k : Nat}
  {old kept : Bytes} {turn : Turn}

theorem Ready.off_zero (h : Ready m ps rest k m₁ b₁ qs t)
    (hfull : ∀ t, ps.getLast? = some t → kPieceCapacity ≤ (m.cell t).off + (m.cell t).len) :
    (m₁.cell t).off = 0 := by
  have hroom := h.room
  have hoff := h.ext.off t (by simp)
  by_cases ht : t ∈ ps
  · -- then it is the last piece, which is full
    rw [if_pos ht] at hoff
    have hlen := h.ext.len t ht
    obtain ⟨more, hmore⟩ := h.ext.chain
    cases List.eq_nil_or_concat more with
    | inl hnil =>
      rw [hnil, List.append_nil] at hmore
      have hlast : ps.getLast? = some t := by rw [← hmore, List.getLast?_concat]
      have := hfull t hlast
      omega
    | inr hconcat =>
      obtain ⟨init, x, hx⟩ := hconcat
      rw [hx, List.concat_eq_append, ← List.append_assoc] at hmore
      obtain ⟨hqs, _⟩ := List.append_inj' hmore rfl
      have htq : t ∈ qs := hqs ▸ List.mem_append_left _ ht
      have hnodup := (List.nodup_append.mp h.owns.nodup).1
      exact absurd rfl ((List.nodup_append.mp hnodup).2.2 t htq t (by simp))
  · rw [if_neg ht] at hoff
    exact hoff

theorem Ready.roomy_eq (h : Ready m ps rest k m₁ b₁ qs t) (hb : b.Rep m ps) :
    roomy (lastOf m ps) = ((m₁.cell t).off, (m₁.cell t).len) := by
  have hroom := h.room
  cases h.fresh with
  | inl hold =>
    obtain ⟨hps, hm⟩ := hold
    rw [hm] at hroom ⊢
    have hlast : ps.getLast? = some t := by simp [hps]
    simp only [lastOf, hlast, Option.map_some, roomy]
    rw [if_neg (Nat.ne_of_lt hroom)]
  | inr hnew =>
    obtain ⟨hlen, hfull⟩ := hnew
    rw [h.off_zero hfull, hlen, lastOf]
    cases hlast : ps.getLast? with
    | none => rfl
    | some t' =>
      have hinside := hb.holds.inside t' (List.mem_of_getLast? hlast)
      have := hfull t' hlast
      simp only [Option.map_some, roomy]
      rw [if_pos (by omega)]

/-- After a legal turn the bytes are in the piece; a `BackUp` has returned exactly if, in a
    Debug build, there are any. -/
theorem turn_iff (h : Ready m ps rest k m₁ b₁ qs t) (hlegal : turn.Legal (area m₁ t).size)
    {Q : Buffer → Mem → Prop} :
    (turn.run (area m₁ t) { b₁ with length := b₁.length + (area m₁ t).size }).wp build
      (m₁.set t (used (m₁.cell t))) Q ↔
      (build = .debug → turn.backsUp = true → 0 < (m₁.cell t).len + turn.bytes.length) ∧
      Q { b₁ with length := b₁.length + turn.bytes.length }
        (m₁.set t ((m₁.cell t).filled turn.bytes)) := by
  cases turn with
  | fill d =>
    have hd : d.length = (area m₁ t).size := hlegal
    simp only [Turn.run, Turn.bytes, Turn.backsUp, Prog.wp_bind, Prog.wp_pure]
    rw [fill_spec h (Nat.le_of_eq hd), used_filled h hd, hd]
    simp
  | keep d =>
    simp only [Turn.run, Turn.bytes, Turn.backsUp, Prog.wp_bind]
    rw [fill_spec h hlegal, backUp_iff h hlegal]
    simp

theorem Appended.after (h : Appended m b ps rest k old kept) (hready : Ready m ps rest k m₁ b₁ qs t)
    (hlegal : turn.Legal (area m₁ t).size) :
    Appended (m₁.set t ((m₁.cell t).filled turn.bytes))
      { b₁ with length := b₁.length + turn.bytes.length } (qs ++ [t]) rest k old
      (kept ++ turn.bytes) := by
  obtain ⟨hrep, howns, _, hcontent, _⟩ := hready.filled hlegal.le
  rw [h.bytes, List.append_assoc] at hcontent
  refine ⟨hrep, howns, hcontent, ?_⟩
  have hlength := hrep.length
  rw [hcontent, List.length_append] at hlength
  rw [byteCount, hlength, sizeSub_of_le (Nat.le_add_right _ _), Nat.add_sub_cancel_left]

theorem honours_iff_accepts (turns : List Turn) (h : Appended m b ps rest k old kept) :
    Honours build rest k old turns kept b m ↔ Accepts build (lastOf m ps) turns := by
  induction turns generalizing m b ps kept with
  | nil => exact iff_of_true ⟨ps, h⟩ trivial
  | cons turn turns ih =>
    obtain ⟨r, m', hrun, m₁, b₁, qs, t, hready, rfl, rfl⟩ : (next b).wp build m _ :=
      next_spec h.rep h.owns
    have hroom := hready.room
    have hpos : 0 < (area m₁ t).size := by
      simp only [area]
      omega
    have happended : ∃ ps, Appended m b ps rest k old kept := ⟨ps, h⟩
    simp only [Honours, Accepts, Prog.wp_of_eq_ok hrun, hready.roomy_eq h.rep]
    rw [and_iff_right happended, and_iff_right hpos]
    refine imp_congr_right fun hlegal => ?_
    rw [turn_iff hready hlegal]
    refine and_congr_right fun _ => ?_
    have hfits := hlegal.le
    simp only [area] at hfits
    have hlen : ((m₁.cell t).filled turn.bytes).len = (m₁.cell t).len + turn.bytes.length :=
      filled_len (by omega)
    have hlast : lastOf (m₁.set t ((m₁.cell t).filled turn.bytes)) (qs ++ [t]) =
        some ((m₁.cell t).off, (m₁.cell t).len + turn.bytes.length) := by
      rw [lastOf, List.getLast?_concat, Option.map_some, Mem.set_cell_self, hlen]
      rfl
    rw [← hlast]
    exact ih (h.after hready hlegal)

/-- For every well formed buffer and every sequence of turns: the contract is kept exactly if,
    in a Debug build, no `BackUp` leaves the last piece without bytes. -/
theorem output_contract_iff (turns : List Turn) (hb : b.Rep m ps) (howns : Owns m (ps ++ rest) k) :
    Honours build rest k (content m ps) turns [] b m ↔ Accepts build (lastOf m ps) turns := by
  refine honours_iff_accepts turns ⟨hb, howns, (List.append_nil _).symm, ?_⟩
  rw [byteCount, hb.length, sizeSub_of_le (Nat.le_refl _), Nat.sub_self, List.length_nil]

end Contract

/-- The whole of the first area is given back, in a Debug build. -/
theorem unused_area_asserts :
    ¬ ∀ (build : Build) (m : Mem) (b : Buffer) (ps rest : List Ptr) (k : Nat) (turns : List Turn),
      b.Rep m ps → Owns m (ps ++ rest) k → Honours build rest k (content m ps) turns [] b m := by
  intro hclaim
  have hhonours := hclaim .debug emptyMem {} [] [] 0 [.keep []] (Buffer.Rep.empty _) (Owns.initial _)
  have haccepts := (honours_iff_accepts [.keep []]
    ⟨Buffer.Rep.empty emptyMem, Owns.initial _, rfl, rfl⟩).mp hhonours
  exact Nat.lt_irrefl 0 ((haccepts (Nat.zero_le _)).1 rfl rfl)

/-- Two bytes are kept, then a whole area is given back. -/
theorem output_contract_two :
    Honours .debug [] 0 [] [.keep [1, 2], .keep []] [] {} emptyMem := by
  have howns : Owns emptyMem ([] ++ []) 0 := Owns.initial _
  refine (output_contract_iff [.keep [1, 2], .keep []] (Buffer.Rep.empty emptyMem) howns).mpr ?_
  refine fun _ => ⟨fun _ _ => by decide, fun _ => ⟨fun _ _ => by decide, trivial⟩⟩

end BufferOutputStream

end Netpp
