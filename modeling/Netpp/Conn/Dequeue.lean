import Netpp.Conn.Buffers

/-! # Taking a piece out of the output queue

`OutputBuffer::readPiece` pops the first piece and copies the following ones behind its
bytes as long as they fit.  A piece of length zero always fits, so the piece it returns
holds bytes whenever the buffer does.
-/

namespace Netpp

namespace OutputBuffer

/-- The piece `p` has been taken out of the buffer `b` with the chain `ps`: its bytes and
    those left are the old ones, and `p` is full or the next piece does not fit behind it. -/
structure Dequeued (m m' : Mem) (b b' : Buffer) (ps : List Ptr) (p : Ptr) (ps' : List Ptr) : Prop where
  left : b'.Rep m' ps'
  live : ∀ a ∈ p :: ps', m'.Live a
  notEmpty : 0 < (m'.cell p).len
  inside : (m'.cell p).off + (m'.cell p).len ≤ kPieceCapacity
  bytes : (m'.cell p).bytes ++ content m' ps' = content m ps
  length : b.length = b'.length + (m'.cell p).len
  maximal : (m'.cell p).len < kPieceCapacity →
    ps' = [] ∨ ∃ q, ps'.head? = some q ∧ kPieceCapacity < (m'.cell p).len + (m'.cell q).len

section Dequeue

variable {build : Build} {m m' : Mem} {b b' : Buffer} {p : Ptr} {ps ps' rest : List Ptr} {k : Nat}

theorem Full.next (h : Full m b p) (hb : b.Rep m ps) (hspace : (m.cell p).len < kPieceCapacity) :
    ps = [] ∨ ∃ q, ps.head? = some q ∧ kPieceCapacity < (m.cell p).len + (m.cell q).len := by
  have hhead := hb.holds.rep.chain.head_eq
  cases ps with
  | nil => exact .inl rfl
  | cons q qs => exact .inr ⟨q, rfl, h hspace q hhead⟩

theorem Full.pos (h : Full m b p) (hb : b.Rep m ps) (hsome : 0 < (m.cell p).len + b.length) :
    0 < (m.cell p).len := by
  by_contra hzero
  have hspace : (m.cell p).len < kPieceCapacity := by
    simp only [kPieceCapacity]
    omega
  cases h.next hb hspace with
  | inl hnil =>
    have hlen := hb.length
    rw [hnil, content_nil, List.length_nil] at hlen
    omega
  | inr hbig =>
    obtain ⟨q, hq, hlt⟩ := hbig
    have hinside := hb.holds.inside q (List.mem_of_head? hq)
    omega

/-- For every well formed output buffer that holds bytes, `readPiece` returns a piece with
    the first of them, and as many as fit. -/
theorem readPiece_dequeues (hb : b.Rep m ps) (howns : Owns m (ps ++ rest) k) (hpos : 0 < b.length) :
    (readPiece b).wp build m fun r m' => ∃ p ps', r.1 = some p ∧ Dequeued m m' b r.2 ps p ps' := by
  cases ps with
  | nil => exact absurd rfl (Buffer.ne_nil_of_pos hb hpos (Nat.le_refl _))
  | cons p ps =>
    refine (readPiece_wp hb howns fun _ => hpos).imp ?_
    intro r m' ⟨hr, dropped, ps', hsplit, hrep, howns', hsame, hinside, hbytes, _, hfull⟩
    have hcontent : (m'.cell p).bytes ++ content m' ps' = content m (p :: ps) := by
      have hleft : content m' ps' = content m ps' :=
        content_same (hsame.mono fun a ha => by simp [hsplit, ha])
      rw [hbytes, hleft, content_cons, hsplit, content_append, List.append_assoc]
    have hlength : b.length = r.2.length + (m'.cell p).len := by
      rw [hb.length, ← hcontent, List.length_append, length_bytes, hrep.length, Nat.add_comm]
    have hlive : ∀ a ∈ p :: ps', m'.Live a := fun a ha => howns'.live (by
      simp only [hsplit, List.cons_append, List.mem_cons, List.mem_append] at ha ⊢
      tauto)
    exact ⟨p, ps', hr, hrep, hlive, hfull.pos hrep (by omega), hinside, hcontent, hlength,
      hfull.next hrep⟩

end Dequeue

/-- A memory with a piece of length zero that starts at 3 and, linked behind it, one of two
    bytes that starts at 1. -/
def emptyFirst : Mem where
  cell := fun p => if p = 0 then ⟨some 1, 3, 0, fun _ => 0⟩ else ⟨none, 1, 2, fun _ => 7⟩
  brk := 2
  pool := { usingCount := 2 }

theorem readPiece_dequeues_emptyFirst :
    Prog.wp (readPiece { head := some 0, tail := some 1, size := 2, length := 2 }) .debug emptyFirst
      fun r m' => ∃ p ps', r.1 = some p ∧
        Dequeued emptyFirst m' { head := some 0, tail := some 1, size := 2, length := 2 } r.2
          [0, 1] p ps' := by
  have howns : Owns emptyFirst ([0, 1] ++ []) 0 := by
    refine ⟨⟨[], ⟨rfl, rfl, rfl⟩, by decide, fun p => ?_, by decide, by decide, by decide, by decide,
      by decide⟩, rfl⟩
    have htwo : p < 2 ↔ p = 0 ∨ p = 1 := Nat.lt_succ_iff.trans Nat.le_one_iff_eq_zero_or_eq_one
    simpa [Mem.Live, emptyFirst] using htwo
  have hrep : Buffer.Rep emptyFirst { head := some 0, tail := some 1, size := 2, length := 2 } [0, 1] :=
    ⟨⟨⟨⟨rfl, rfl, rfl⟩, rfl, rfl⟩, by decide⟩, rfl⟩
  exact readPiece_dequeues hrep howns (by decide)

end OutputBuffer

end Netpp
