import Netpp.Buffer.Deque
import Netpp.Conn.Buffers

/-! # Handing a buffer to the output queue

`TCPConn::send(Buffer*)` detaches the chain of a buffer with `moveToQueueHead` and
gives its head to `writePieceQueue`.  The loop there follows `item->next` after
`push(item)` has set it to null, so it takes the first piece and ends.

* `handsOver_iff`: from any chain, to a well formed output buffer, the hand-over loses nothing
  exactly if the first piece has `length()` bytes and those behind it have none.
* `Buffers.hands_over_iff`: the same for a buffer that any calls have built, also where
  `length()` is not the number of its bytes.
-/

namespace Netpp

namespace OutputBuffer

/-- `out.writePieceQueue(b.moveToQueueHead())` returns, past its `assert`s in a Debug
    build, with the bytes of both in `out`, its queue well formed, its `length()` as
    much larger as `b` was long, and `b` empty.  `ps` is the chain of `out`. -/
def HandsOver (build : Build) (m : Mem) (b out : Buffer) (ps : List Ptr) : Prop :=
  (writePieceQueue out b.moveToQueueHead.1).wp build m (fun out' m' =>
    (∃ ps', out'.Rep m' ps' ∧ (∀ p ∈ ps', m'.Live p) ∧
      content m' ps' = content m ps ++ content m (b.pieces m)) ∧
    out'.length = out.length + b.length) ∧
  b.moveToQueueHead.2 = {}

/-- The first piece of `b` has `length()` bytes, and the pieces behind it are empty. -/
def FirstHoldsAll (m : Mem) (b : Buffer) : Prop :=
  ∃ p, b.head = some p ∧ (m.cell p).len = b.length ∧
    ∀ q ∈ (b.pieces m).tail, (m.cell q).len = 0

section Handover

variable {build : Build} {m : Mem} {b out : Buffer} {p : Ptr} {ps bs : List Ptr}

/-- A null chain is not handed over: there is nothing that could lengthen `out`. -/
theorem not_handsOver_nil (hb : Holds m b.toQueue []) (hpos : 0 < b.length) :
    ¬ HandsOver build m b out ps := by
  rintro ⟨⟨out', m', hrun, _, hlength⟩, _⟩
  have hhead : b.head = none := hb.rep.chain
  rw [Buffer.moveToQueueHead, hhead] at hrun
  rw [(writePieceQueue_nil out' m' hrun).1] at hlength
  omega

theorem handsOver_iff (hb : Holds m b.toQueue bs) (hbs : ∀ p ∈ bs, m.Live p) (hpos : 0 < b.length)
    (hout : out.Rep m ps) (hps : ∀ p ∈ ps, m.Live p) (apart : ∀ p ∈ bs, p ∉ ps) :
    HandsOver build m b out ps ↔ FirstHoldsAll m b := by
  have hpieces : b.pieces m = bs := hb.rep.pieces_eq hbs
  cases bs with
  | nil =>
    refine iff_of_false (not_handsOver_nil hb hpos) ?_
    rintro ⟨p, hhead, _⟩
    have hnone : b.head = none := hb.rep.chain
    simp [hnone] at hhead
  | cons p bs =>
    have hhead : b.head = some p := hb.head
    have hlive : m.Live p := hbs p (by simp)
    have hfresh : p ∉ ps := apart p (by simp)
    have hinside := hb.insideHead
    rw [HandsOver, FirstHoldsAll, hpieces, Buffer.moveToQueueHead, hhead, List.tail_cons]
    constructor
    · rintro ⟨⟨out', m', hrun, ⟨ps', hout', _, hall⟩, hlength⟩, _⟩
      obtain ⟨htaken, _, hcontent⟩ := writePieceQueue_takes hout hps hlive hfresh hinside out' m' hrun
      have htotal := htaken.length
      rw [hcontent, List.length_append, length_bytes, ← hout.length] at htotal
      have hone : (m.cell p).len = b.length := by omega
      have hwhole := hout'.length
      rw [hall, content_cons, List.length_append, List.length_append, length_bytes, ← hout.length,
        hlength] at hwhole
      have hrest : (content m bs).length = 0 := by omega
      exact ⟨p, rfl, hone, content_eq_nil_iff.mp (List.length_eq_zero_iff.mp hrest)⟩
    · rintro ⟨q, hq, hone, hrest⟩
      obtain rfl : p = q := Option.some.inj hq
      refine ⟨?_, rfl⟩
      refine (writePieceQueue_total hout hps hlive hfresh hinside (by omega)).imp ?_
      rintro out' m' ⟨hout', hlink, hcontent⟩
      refine ⟨⟨ps ++ [p], hout', fun a ha => (hlink.live a).mpr ?_, ?_⟩, ?_⟩
      · cases List.mem_append.mp ha with
        | inl h => exact hps a h
        | inr h => rw [List.mem_singleton.mp h]; exact hlive
      · rw [hcontent, content_cons, content_eq_nil_iff.mpr hrest, List.append_nil]
      · rw [hout'.length, hcontent, List.length_append, length_bytes, ← hout.length, hone]

end Handover

end OutputBuffer

namespace Buffers

open OutputBuffer

variable {ι : Type} [DecidableEq ι] {build : Build} {w : Buffers ι} {i : ι} {out : Buffer}
  {ps : List Ptr}

/-- For every buffer that any sequence of calls has built, and every well formed output
    buffer, handing the first to the second loses nothing exactly if its first piece has
    `length()` bytes and the others have none. -/
theorem hands_over_iff (h : Built build w) (hpos : 0 < (w.buf i).length) (hout : out.Rep w.mem ps)
    (live : ∀ p ∈ ps, w.mem.Live p) (apart : ∀ p ∈ (w.buf i).pieces w.mem, p ∉ ps) :
    HandsOver build w.mem (w.buf i) out ps ↔ FirstHoldsAll w.mem (w.buf i) := by
  obtain ⟨chain, loose, k, hchains⟩ := h.chains
  rw [hchains.pieces_eq i] at apart
  exact handsOver_iff (hchains.holds i) (fun p hp => hchains.live hp) hpos hout live apart

/-- Two bytes written to a buffer and handed to an empty output buffer. -/
theorem hands_over_written :
    ∃ w : Buffers Unit, Built .debug w ∧ (w.buf ()).length = 2 ∧
      HandsOver .debug w.mem (w.buf ()) {} [] := by
  have r : Built .debug (⟨emptyMem, fun _ => {}⟩ : Buffers Unit) := .start _
  have r := r.step (.write () [7, 8]) trivial rfl nofun
  refine ⟨_, r, rfl, ?_⟩
  exact (hands_over_iff r (by decide) (Buffer.Rep.empty _) nofun nofun).mpr ⟨0, rfl, rfl, by decide⟩

/-- A buffer of one byte more than a piece holds: whatever is behind the first piece
    does not reach the output queue. -/
theorem second_piece_lost :
    ∃ w : Buffers Unit, Built .debug w ∧ (w.buf ()).length = 4097 ∧
      ¬ HandsOver .debug w.mem (w.buf ()) {} [] := by
  obtain ⟨d, hd⟩ : ∃ d : Bytes, d.length = 4097 := ⟨List.replicate 4097 0, List.length_replicate⟩
  have r : Built .debug (⟨emptyMem, fun _ => {}⟩ : Buffers Unit) := .start _
  have hstart := Family.initial (ι := Unit) emptyMem.cell
  have hsmall : Small (⟨emptyMem, fun _ => {}⟩ : Buffers Unit) := fun i => by
    simp [bytes, Queue.pieces, walk, emptyMem]
  obtain ⟨_, w, hcall, hbytes, _, chain, _, _, hfamily⟩ :=
    call_spec .debug (.write () d) hstart hsmall trivial trivial
  have hrep := hfamily.rep ()
  have hlength : (w.buf ()).length = 4097 := by
    have hchain : content w.mem (chain ()) = w.bytes () := by rw [bytes_eq hfamily.toChains]; rfl
    rw [hrep.length, hchain, hbytes]
    simp [BufferOp.apply, BufferOp.appendBytes, bytes, Queue.pieces, walk, emptyMem, hd]
  refine ⟨w, r.step (.write () d) trivial hcall (by simp), hlength, fun hover => ?_⟩
  obtain ⟨p, hhead, hone, _⟩ := (handsOver_iff hrep.holds (fun p hp => hfamily.toChains.live hp)
    (by omega) (Buffer.Rep.empty _) (by simp) (by simp)).mp hover
  have hmem : p ∈ chain () := by
    rw [hrep.holds.rep.chain.head_eq] at hhead
    exact List.mem_of_head? hhead
  have hroom := hrep.holds.inside p hmem
  rw [hone, hlength] at hroom
  simp only [kPieceCapacity] at hroom
  omega

end Buffers

end Netpp
