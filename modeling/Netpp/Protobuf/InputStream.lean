import Netpp.Conn.Buffers

/-! # `BufferInputStream`

The zero-copy stream protobuf reads a `Buffer` through.  `next` takes the first
piece out of the buffer and keeps it in `drop` while its bytes are in use;
`backUp` puts the unread end of that piece back by hand, without `Queue::push`.

* `flatNext_spec`, `flatBackUp_wp`: the two primitives on the chain.
* `Uses`: the legal uses of a stream.
* `input_stream_gives_back_iff`: after a legal use the buffer is intact exactly
  if the last call did not put its only piece back.
-/

namespace Netpp

structure BufferInputStream where
  buffer : Buffer
  drop : PiecePtr
  originalSize : Nat

/-! ## `FlatInputBuffer` -/

namespace FlatInputBuffer

/-- The area `data`, `size` of the first piece, as its bytes, and the piece itself. -/
def flatNext (b : Buffer) : Exec (Option (Bytes × PiecePtr) × Buffer) :=
  match b.head with
  | none => pure (none, b)
  | some p => do
    let first ← load (some p)
    if 0 < first.len then
      let data ← first.copyOut first.off first.len
      let r ← { b with length := sizeSub b.length first.len }.pop
      pure (some (data, r.1), r.2)
    else pure (none, b)

def flatBackUp (b : Buffer) (len : Nat) (drop : PiecePtr) : Exec Buffer := do
  assert drop.isSome
  let c ← load drop
  assert (len < c.len)
  store drop { c with off := u16 (c.off + sizeSub c.len len), len := u16 len, next := b.head }
  -- `tail_` is left as it is
  pure { b with head := drop, size := u32 (b.size + 1), length := b.length + len }

end FlatInputBuffer

namespace BufferInputStream

/-- The constructor. -/
def ofBuffer (b : Buffer) : BufferInputStream := ⟨b, none, b.length⟩

/-- `if (drop_) deletePiece(drop_);` -/
def releaseDrop (s : BufferInputStream) : Exec Unit :=
  if s.drop.isSome then deletePiece s.drop else pure ()

/-- The destructor.  The buffer is what the user of the stream gets back. -/
def destroy (s : BufferInputStream) : Exec Buffer := do
  s.releaseDrop
  pure s.buffer

def next (s : BufferInputStream) : Exec (Option Bytes × BufferInputStream) := do
  s.releaseDrop
  let r ← FlatInputBuffer.flatNext s.buffer
  match r.1 with
  | some (data, drop) => pure (some data, { s with buffer := r.2, drop := drop })
  | none => pure (none, { s with buffer := r.2, drop := none })

def backUp (s : BufferInputStream) (count : Nat) : Exec BufferInputStream := do
  assert s.drop.isSome
  let b ← FlatInputBuffer.flatBackUp s.buffer count s.drop
  pure { s with buffer := b, drop := none }

def skip (s : BufferInputStream) (count : Nat) : Exec (Bool × BufferInputStream) :=
  if count ≤ s.buffer.length then do
    let b ← s.buffer.skip count
    pure (true, { s with buffer := b })
  else pure (false, s)

def byteCount (s : BufferInputStream) : Nat := sizeSub s.originalSize s.buffer.length

end BufferInputStream

/-! ## What the primitives do -/

/-- A buffer that is well formed but for `tail_`, which is null although there is
    one piece. -/
structure Linked (m : Mem) (b : Buffer) (ps : List Ptr) : Prop where
  chain : Chain (fun p => (m.cell p).next) b.head ps
  inside : ∀ p ∈ ps, (m.cell p).off + (m.cell p).len ≤ kPieceCapacity
  size : b.size = u32 ps.length
  length : b.length = (content m ps).length
  tail : b.tail = ps.getLast? ∨ ps.length = 1 ∧ b.tail = none

section Primitives

variable {build : Build} {m m' : Mem} {b : Buffer} {p : Ptr} {ps rest : List Ptr} {k count : Nat}

theorem Buffer.Rep.linked (h : b.Rep m ps) : Linked m b ps :=
  ⟨h.holds.rep.chain, h.holds.inside, h.holds.rep.size, h.length, .inl h.holds.rep.tail⟩

namespace Linked

theorem rep (h : Linked m b ps) (tail : b.tail = ps.getLast?) : b.Rep m ps :=
  ⟨⟨⟨h.chain, tail, h.size⟩, h.inside⟩, h.length⟩

theorem same (h : Linked m b ps) (hsame : SameOn ps m m') : Linked m' b ps where
  chain := h.chain.frame fun p hp => by rw [hsame p hp]
  inside := fun p hp => by rw [hsame p hp]; exact h.inside p hp
  size := h.size
  length := by rw [content_same hsame]; exact h.length
  tail := h.tail

theorem unique {qs : List Ptr} (h : Linked m b ps) (hrep : b.Rep m qs) : qs = ps :=
  hrep.holds.rep.chain.unique h.chain

end Linked

namespace FlatInputBuffer

/-- Taking the first piece mends `tail_`: `pop` resets it with the last piece. -/
theorem flatNext_spec (h : Linked m b (p :: ps)) (live : m.Live p) (hpos : 0 < (m.cell p).len) :
    (flatNext b).wp build m fun r m' =>
      m' = m ∧ r.1 = some ((m.cell p).bytes, some p) ∧ r.2.Rep m ps := by
  have hhead : b.head = some p := h.chain.1
  have hnext := h.chain.2.head_eq
  simp only [flatNext, hhead, Prog.wp_bind, wp_load live]
  rw [if_pos hpos]
  simp only [Prog.wp_bind, wp_copyOut (h.inside p (by simp)), Buffer.pop, Queue.pop, hhead,
    wp_load live, Prog.wp_pure]
  refine ⟨trivial, rfl, ⟨⟨h.chain.2, ?_, ?_⟩, fun a ha => h.inside a (by simp [ha])⟩, ?_⟩
  · cases ps with
    | nil => simp [hnext]
    | cons q qs =>
      cases h.tail with
      | inl htail => simpa [hnext, List.getLast?_cons_cons] using htail
      | inr hlone => simp at hlone
  · have hsize := h.size
    simp only [u32, u32Sub, List.length_cons] at hsize ⊢
    omega
  · have hlen := h.length
    rw [content_cons, List.length_append, length_bytes] at hlen
    show sizeSub b.length (m.cell p).len = _
    rw [sizeSub_of_le (by omega)]
    omega

/-- The stream ends at the end of the chain, and at a piece of length zero. -/
theorem flatNext_end (h : Linked m b ps) (live : ∀ a ∈ ps, m.Live a)
    (hend : ∀ p, ps.head? = some p → (m.cell p).len = 0) :
    (flatNext b).wp build m fun r m' => m' = m ∧ r = (none, b) := by
  have hhead := h.chain.head_eq
  cases ps with
  | nil => simp [flatNext, hhead]
  | cons p ps =>
    have hzero : (m.cell p).len = 0 := hend p rfl
    simp only [flatNext, hhead, List.head?_cons, Prog.wp_bind, wp_load (live p (by simp)), hzero]
    simp

/-- A Debug build wants a byte of the piece to stay consumed. -/
theorem lt_of_wp_flatBackUp {Q : Buffer → Mem → Prop} (live : m.Live p)
    (h : (flatBackUp b count (some p)).wp .debug m Q) : count < (m.cell p).len := by
  simp only [flatBackUp, Option.isSome_some, wp_assert_true, Prog.wp_bind, wp_load live] at h
  exact of_decide_eq_true (true_of_wp_assert h)

/-- Putting back the last `count` bytes of the piece taken last, which may be all of it. -/
theorem flatBackUp_wp (h : b.Rep m ps) (howns : Owns m (p :: (ps ++ rest)) k)
    (inside : (m.cell p).off + (m.cell p).len ≤ kPieceCapacity) (hle : count ≤ (m.cell p).len)
    (hassert : build = .debug → count < (m.cell p).len) :
    (flatBackUp b count (some p)).wp build m fun b' m' =>
      Linked m' b' (p :: ps) ∧ Owns m' (p :: (ps ++ rest)) k ∧ SameOn (ps ++ rest) m m' ∧
      content m' (p :: ps) = (m.cell p).bytes.drop ((m.cell p).len - count) ++ content m ps ∧
      (b'.tail = (p :: ps).getLast? ↔ ps ≠ []) ∧ (m'.cell p).len = count := by
  have hlive : m.Live p := howns.live (by simp)
  have hnot := (List.nodup_cons.mp howns.nodup).1
  have hfresh : p ∉ ps := fun hp => hnot (List.mem_append_left _ hp)
  have hoff : u16 ((m.cell p).off + sizeSub (m.cell p).len count) =
      (m.cell p).off + ((m.cell p).len - count) := by
    rw [sizeSub_of_le (by omega), u16_of_le (by omega)]
  have hlen : u16 count = count := u16_of_le (by omega)
  simp only [flatBackUp, Option.isSome_some, wp_assert_true, Prog.wp_bind, wp_load hlive, hoff, hlen,
    Prog.wp_pure]
  rw [wp_assert_iff, decide_eq_true_eq]
  refine ⟨hassert, ?_⟩
  rw [wp_store hlive]
  generalize hcell : ({ m.cell p with
    off := (m.cell p).off + ((m.cell p).len - count), len := count, next := b.head } : Piece) = c
  have hsame : SameOn ps m (m.set p c) := SameOn.set_of_notMem c hfresh
  have hbytes : c.bytes = (m.cell p).bytes.drop ((m.cell p).len - count) := by
    have hsub : (m.cell p).len - ((m.cell p).len - count) = count := by omega
    rw [← hcell, Piece.bytes, Piece.bytes, drop_slice _ (Nat.sub_le _ _), hsub]
  have hcontent : content (m.set p c) (p :: ps) =
      (m.cell p).bytes.drop ((m.cell p).len - count) ++ content m ps := by
    rw [content_set_head c hfresh, hbytes]
  have htail : b.tail = (p :: ps).getLast? ↔ ps ≠ [] := by
    rw [h.holds.rep.tail]
    cases ps with
    | nil => simp
    | cons q qs => simp [List.getLast?_cons_cons]
  refine ⟨⟨⟨rfl, ?_⟩, fun a ha => ?_, ?_, ?_, ?_⟩, howns.set (by simp) c,
    SameOn.set_of_notMem c hnot, hcontent, htail, by rw [Mem.set_cell_self, ← hcell]⟩
  · have hlink : ((m.set p c).cell p).next = b.head := by rw [Mem.set_cell_self, ← hcell]
    show Chain _ ((m.set p c).cell p).next ps
    rw [hlink]
    exact h.holds.rep.chain.frame fun a ha => by rw [hsame a ha]
  · cases List.mem_cons.mp ha with
    | inl hap =>
      rw [hap, Mem.set_cell_self, ← hcell]
      show (m.cell p).off + ((m.cell p).len - count) + count ≤ kPieceCapacity
      omega
    | inr hps => rw [hsame a hps]; exact h.holds.inside a hps
  · show u32 (b.size + 1) = _
    rw [h.holds.rep.size]
    simp [u32]
  · rw [hcontent, List.length_append, List.length_drop, length_bytes]
    show b.length + count = _
    rw [h.length]
    omega
  · by_cases hnil : ps = []
    · subst hnil
      exact .inr ⟨rfl, h.holds.rep.tail⟩
    · exact .inl (htail.mpr hnil)

end FlatInputBuffer

end Primitives

/-! ## Legal uses of a stream -/

inductive StreamCall where
  | next
  | backUp (count : Nat)

/-- The calls made so far, the state they lead to, the size the last call
    returned if it was a successful `next`, and the number of bytes consumed.
    `backUp(count)` directly follows a successful `next` of size `n`, with
    `0 < count < n`. -/
inductive Uses (build : Build) (m₀ : Mem) (b₀ : Buffer) :
    List StreamCall → Mem → BufferInputStream → Option Nat → Nat → Prop
  | start : Uses build m₀ b₀ [] m₀ (.ofBuffer b₀) none 0
  | next {cs : List StreamCall} {m m' : Mem} {s s' : BufferInputStream} {last : Option Nat}
      {n : Nat} {data : Bytes} (before : Uses build m₀ b₀ cs m s last n)
      (call : s.next build m = .ok ((some data, s'), m')) :
      Uses build m₀ b₀ (cs ++ [.next]) m' s' (some data.length) (n + data.length)
  | nextEnd {cs : List StreamCall} {m m' : Mem} {s s' : BufferInputStream} {last : Option Nat}
      {n : Nat} (before : Uses build m₀ b₀ cs m s last n)
      (call : s.next build m = .ok ((none, s'), m')) :
      Uses build m₀ b₀ (cs ++ [.next]) m' s' none n
  | backUp {cs : List StreamCall} {m m' : Mem} {s s' : BufferInputStream} {size n count : Nat}
      (before : Uses build m₀ b₀ cs m s (some size) n) (hpos : 0 < count) (hlt : count < size)
      (call : s.backUp count build m = .ok (s', m')) :
      Uses build m₀ b₀ (cs ++ [.backUp count]) m' s' none (n - count)

namespace StreamCall

def isNext : StreamCall → Bool
  | next => true
  | backUp _ => false

def nexts (cs : List StreamCall) : Nat := cs.countP isNext

def backUps (cs : List StreamCall) : Nat := cs.countP fun c => !c.isNext

/-- The last call is a `backUp`, and the `next`s, less the `backUp`s before it,
    have taken all of the buffer's `pieces`: the piece put back is the only one. -/
def EndsInLoneBackUp (pieces : Nat) (cs : List StreamCall) : Prop :=
  cs.getLast?.map isNext = some false ∧ pieces + backUps cs = nexts cs + 1

instance (pieces : Nat) (cs : List StreamCall) : Decidable (EndsInLoneBackUp pieces cs) :=
  inferInstanceAs (Decidable (_ ∧ _))

variable {pieces : Nat} {cs : List StreamCall}

@[simp] theorem nexts_next : nexts (cs ++ [next]) = nexts cs + 1 := by simp [nexts, isNext]

@[simp] theorem nexts_backUp (count : Nat) : nexts (cs ++ [backUp count]) = nexts cs := by
  simp [nexts, isNext]

@[simp] theorem backUps_next : backUps (cs ++ [next]) = backUps cs := by simp [backUps, isNext]

@[simp] theorem backUps_backUp (count : Nat) : backUps (cs ++ [backUp count]) = backUps cs + 1 := by
  simp [backUps, isNext]

theorem not_endsInLoneBackUp_next : ¬ EndsInLoneBackUp pieces (cs ++ [next]) := by
  simp [EndsInLoneBackUp, isNext]

theorem endsInLoneBackUp_backUp (count : Nat) {left : Nat}
    (counted : left + nexts cs = pieces + backUps cs) :
    EndsInLoneBackUp pieces (cs ++ [backUp count]) ↔ left = 0 := by
  have hcount : pieces + (backUps cs + 1) = nexts cs + 1 ↔ left = 0 := by omega
  simp [EndsInLoneBackUp, isNext, hcount]

end StreamCall

/-! ## The invariant of a use -/

/-- The buffer a stream was opened on: its chain, what else is handed out, and
    how many pieces are counted without being handed out. -/
structure Origin where
  mem : Mem
  chain : List Ptr
  rest : List Ptr
  bypassed : Nat

def Origin.bytes (o : Origin) : Bytes := content o.mem o.chain

/-- No piece is held by the stream; `ps` are the pieces left and `n` bytes have
    been consumed. -/
structure Free (o : Origin) (cs : List StreamCall) (m : Mem) (b : Buffer) (ps : List Ptr)
    (n : Nat) : Prop where
  linked : Linked m b ps
  owns : Owns m (ps ++ o.rest) o.bypassed
  rest : SameOn o.rest o.mem m
  le : n ≤ o.bytes.length
  bytes : o.bytes.drop n = content m ps
  tail : b.tail = ps.getLast? ↔ ¬ StreamCall.EndsInLoneBackUp o.chain.length cs
  solid : Solid o.mem o.chain → Solid m ps
  suffix : StreamCall.backUps cs = 0 → lens m ps <:+ lens o.mem o.chain
  -- a piece that was put back is not empty
  lone : b.tail ≠ ps.getLast? → ∀ p ∈ ps, 0 < (m.cell p).len
  -- once `next` has failed it keeps failing, and the calls no longer count pieces
  counted : (∀ p, ps.head? = some p → (m.cell p).len = 0) ∨
    ps.length + StreamCall.nexts cs = o.chain.length + StreamCall.backUps cs

/-- The stream holds the piece `p` that the last call, a `next`, has returned. -/
structure Held (o : Origin) (cs : List StreamCall) (m : Mem) (b : Buffer) (p : Ptr) (ps : List Ptr)
    (n : Nat) : Prop where
  rep : b.Rep m ps
  owns : Owns m (p :: (ps ++ o.rest)) o.bypassed
  rest : SameOn o.rest o.mem m
  inside : (m.cell p).off + (m.cell p).len ≤ kPieceCapacity
  size : (m.cell p).len ≤ n
  le : n ≤ o.bytes.length
  bytes : o.bytes.drop (n - (m.cell p).len) = (m.cell p).bytes ++ content m ps
  solid : Solid o.mem o.chain → Solid m ps
  suffix : StreamCall.backUps cs = 0 → lens m (p :: ps) <:+ lens o.mem o.chain
  last : ¬ StreamCall.EndsInLoneBackUp o.chain.length cs
  counted : ps.length + StreamCall.nexts cs = o.chain.length + StreamCall.backUps cs

/-- What holds of a stream between two calls. -/
def StreamInv (o : Origin) (cs : List StreamCall) (m : Mem) (s : BufferInputStream)
    (last : Option Nat) (n : Nat) : Prop :=
  s.originalSize = o.bytes.length ∧
  match last with
  | none => s.drop = none ∧ ∃ ps, Free o cs m s.buffer ps n
  | some size => ∃ p ps, s.drop = some p ∧ (m.cell p).len = size ∧ Held o cs m s.buffer p ps n

section Invariant

variable {build : Build} {o : Origin} {cs : List StreamCall} {m : Mem} {b : Buffer}
  {s : BufferInputStream} {p : Ptr} {ps : List Ptr} {n : Nat} {last : Option Nat}

theorem Held.rest_bytes (h : Held o cs m b p ps n) : o.bytes.drop n = content m ps := by
  have hsplit : n = n - (m.cell p).len + (m.cell p).bytes.length := by
    rw [length_bytes]
    have := h.size
    omega
  rw [hsplit, ← List.drop_drop, h.bytes, List.drop_left]

theorem streamInv_start (hb : b.Rep o.mem o.chain) (howns : Owns o.mem (o.chain ++ o.rest) o.bypassed) :
    StreamInv o [] o.mem (.ofBuffer b) none 0 := by
  have htail := hb.holds.rep.tail
  exact ⟨hb.length, rfl, o.chain, hb.linked, howns, SameOn.refl _ _, Nat.zero_le _, rfl,
    iff_of_true htail (by simp [StreamCall.EndsInLoneBackUp]), fun h => h, fun _ => List.suffix_rfl,
    fun hne => absurd htail hne, .inr rfl⟩

theorem releaseDrop_spec (h : StreamInv o cs m s last n) :
    s.releaseDrop.wp build m fun _ m' => ∃ ps, Free o cs m' s.buffer ps n := by
  obtain ⟨_, h⟩ := h
  cases last with
  | none =>
    obtain ⟨hdrop, ps, hfree⟩ := h
    simp only [BufferInputStream.releaseDrop, hdrop, Option.isSome_none, Bool.false_eq_true,
      if_false, Prog.wp_pure]
    exact ⟨ps, hfree⟩
  | some size =>
    obtain ⟨p, ps, hdrop, _, hheld⟩ := h
    simp only [BufferInputStream.releaseDrop, hdrop, Option.isSome_some, if_true]
    refine (hheld.owns.deletePiece (List.Perm.refl _)).imp ?_
    rintro _ m' ⟨howns, hsame⟩
    have hlinked := (hheld.rep.same hsame.left).linked
    have htail := hheld.rep.holds.rep.tail
    refine ⟨ps, hlinked, howns, hheld.rest.trans hsame.right, hheld.le, ?_,
      iff_of_true htail hheld.last, fun h => (hheld.solid h).same hsame.left, fun hbacks => ?_,
      fun hne => absurd htail hne, .inr hheld.counted⟩
    · rw [hheld.rest_bytes, content_same hsame.left]
    · rw [lens_same hsame.left]
      exact (List.suffix_cons _ _).trans (hheld.suffix hbacks)

theorem Free.tail_of_end (h : Free o cs m b ps n)
    (hend : ∀ p, ps.head? = some p → (m.cell p).len = 0) : b.tail = ps.getLast? := by
  cases h.linked.tail with
  | inl htail => exact htail
  | inr hlone =>
    by_contra hne
    obtain ⟨p, rfl⟩ := List.length_eq_one_iff.mp hlone.1
    have hpos := h.lone hne p (by simp)
    rw [hend p rfl] at hpos
    exact Nat.lt_irrefl 0 hpos

/-- The two outcomes of `next`: the stream has ended, or it hands out a piece. -/
theorem next_spec (h : StreamInv o cs m s last n) :
    s.next.wp build m fun r m' => r.2.originalSize = s.originalSize ∧
      ((∃ ps, r.1 = none ∧ r.2.drop = none ∧ Free o (cs ++ [.next]) m' r.2.buffer ps n ∧
          ∀ p, ps.head? = some p → (m'.cell p).len = 0) ∨
        ∃ p ps, r.1 = some (m'.cell p).bytes ∧ r.2.drop = some p ∧ 0 < (m'.cell p).len ∧
          Held o (cs ++ [.next]) m' r.2.buffer p ps (n + (m'.cell p).len)) := by
  simp only [BufferInputStream.next, Prog.wp_bind]
  refine (releaseDrop_spec h).imp ?_
  rintro _ m₁ ⟨ps, hfree⟩
  have hlive : ∀ a ∈ ps, m₁.Live a := fun a ha => hfree.owns.live (by simp [ha])
  have hlast : ¬ StreamCall.EndsInLoneBackUp o.chain.length (cs ++ [.next]) :=
    StreamCall.not_endsInLoneBackUp_next
  by_cases hend : ∀ p, ps.head? = some p → (m₁.cell p).len = 0
  · refine (FlatInputBuffer.flatNext_end hfree.linked hlive hend).imp ?_
    rintro r m' ⟨hm, hr⟩
    subst hm hr
    have htail := hfree.tail_of_end hend
    simp only [Prog.wp_pure]
    exact ⟨trivial, .inl ⟨ps, trivial, trivial, { hfree with
      tail := iff_of_true htail hlast
      suffix := fun hbacks => hfree.suffix (StreamCall.backUps_next ▸ hbacks)
      lone := fun hne => absurd htail hne
      counted := .inl hend }, hend⟩⟩
  · cases ps with
    | nil => simp at hend
    | cons p ps =>
      have hpos : 0 < (m₁.cell p).len := by
        have : (m₁.cell p).len ≠ 0 := by simpa using hend
        omega
      refine (FlatInputBuffer.flatNext_spec hfree.linked (hlive p (by simp)) hpos).imp ?_
      rintro r m' ⟨hm, hr, hrep⟩
      subst hm
      simp only [hr, Prog.wp_pure]
      have hbytes := hfree.bytes
      have hle := congrArg List.length hbytes
      rw [List.length_drop, content_cons, List.length_append, length_bytes] at hle
      have hcounted : ps.length + 1 + StreamCall.nexts cs =
          o.chain.length + StreamCall.backUps cs := by
        cases hfree.counted with
        | inl hzero => exact absurd hzero hend
        | inr hcounted => exact hcounted
      have hn := hfree.le
      refine ⟨trivial, .inr ⟨p, ps, rfl, rfl, hpos, hrep, hfree.owns, hfree.rest,
        hfree.linked.inside p (by simp), by omega, by omega, ?_, fun h => (hfree.solid h).tail,
        fun hbacks => hfree.suffix (StreamCall.backUps_next ▸ hbacks), hlast, ?_⟩⟩
      · rw [Nat.add_sub_cancel]
        exact hbytes
      · simp only [StreamCall.nexts_next, StreamCall.backUps_next]
        omega

theorem next_step (h : StreamInv o cs m s last n) :
    s.next.wp build m fun r m' =>
      StreamInv o (cs ++ [.next]) m' r.2 (r.1.map List.length) (n + (r.1.map List.length).getD 0) := by
  have hsize := h.1
  refine (next_spec h).imp ?_
  intro r m' ⟨hsame, hcases⟩
  cases hcases with
  | inl hend =>
    obtain ⟨ps, hr, hdrop, hfree, _⟩ := hend
    rw [hr]
    exact ⟨hsame.trans hsize, hdrop, ps, hfree⟩
  | inr hdata =>
    obtain ⟨p, ps, hr, hdrop, _, hheld⟩ := hdata
    rw [hr]
    refine ⟨hsame.trans hsize, p, ps, hdrop, by simp, ?_⟩
    simpa using hheld

/-- Putting back the end of the last piece.  Outside the Debug build it may be all of it. -/
theorem backUp_step {size count : Nat} (h : StreamInv o cs m s (some size) n) (hpos : 0 < count)
    (hle : count ≤ size) (hassert : build = .debug → count < size) :
    (s.backUp count).wp build m fun s' m' =>
      StreamInv o (cs ++ [.backUp count]) m' s' none (n - count) := by
  obtain ⟨hsize, p, ps, hdrop, hlen, hheld⟩ := h
  simp only [BufferInputStream.backUp, hdrop, Option.isSome_some, wp_assert_true, Prog.wp_bind,
    Prog.wp_pure]
  refine (FlatInputBuffer.flatBackUp_wp hheld.rep hheld.owns hheld.inside (hlen ▸ hle)
    fun hbuild => hlen ▸ hassert hbuild).imp ?_
  rintro b' m' ⟨hlinked, howns, hrest, hcontent, htail, hcount⟩
  have hlone := StreamCall.endsInLoneBackUp_backUp count hheld.counted
  have hn := hheld.size
  refine ⟨hsize, rfl, p :: ps, hlinked, howns, hheld.rest.trans hrest.right,
    Nat.le_trans (Nat.sub_le _ _) hheld.le, ?_, ?_, fun hsolid => ?_, fun hbacks => ?_,
    fun hne => ?_, .inr ?_⟩
  · have hsplit : n - count = n - (m.cell p).len + ((m.cell p).len - count) := by omega
    rw [hcontent, hsplit, ← List.drop_drop, hheld.bytes, List.drop_append_of_le_length]
    rw [length_bytes]
    omega
  · rw [htail, hlone, List.length_eq_zero_iff]
  · intro a ha
    cases List.mem_cons.mp ha with
    | inl hap => rw [hap, hcount]; exact hpos
    | inr hps => exact (hheld.solid hsolid).same hrest.left a hps
  · rw [StreamCall.backUps_backUp] at hbacks
    cases hbacks
  · have hnil : ps = [] := by
      by_contra hps
      exact hne (htail.mpr hps)
    subst hnil
    intro a ha
    rw [List.mem_singleton.mp ha, hcount]
    exact hpos
  · simp only [List.length_cons, StreamCall.nexts_backUp, StreamCall.backUps_backUp]
    have := hheld.counted
    omega

theorem uses_inv (hb : b.Rep o.mem o.chain) (howns : Owns o.mem (o.chain ++ o.rest) o.bypassed)
    (h : Uses build o.mem b cs m s last n) : StreamInv o cs m s last n := by
  induction h with
  | start => exact streamInv_start hb howns
  | next _ call ih => exact (Prog.wp_of_eq_ok call).mp (next_step ih)
  | nextEnd _ call ih => exact (Prog.wp_of_eq_ok call).mp (next_step ih)
  | backUp _ hpos hlt call ih => exact (Prog.wp_of_eq_ok call).mp (backUp_step ih hpos (Nat.le_of_lt hlt) fun _ => hlt)

end Invariant

/-! ## Giving the buffer back -/

/-- A later append to the buffer: `Buffer::write`, or `InputBuffer::writePiece` of
    a piece that is in use elsewhere. -/
inductive Append where
  | write (d : Bytes)
  | writePiece (item : Ptr)

namespace Append

def run (b : Buffer) : Append → Exec Buffer
  | write d => b.write d
  | writePiece item => InputBuffer.writePiece b (some item)

def bytes (m : Mem) : Append → Bytes
  | write d => d
  | writePiece item => (m.cell item).bytes

/-- A piece to append is handed out, is not in the buffer, and holds bytes. -/
def Given (m : Mem) (rest : List Ptr) : Append → Prop
  | write _ => True
  | writePiece item => item ∈ rest ∧ 0 < (m.cell item).len ∧
      (m.cell item).off + (m.cell item).len ≤ kPieceCapacity

/-- `writePiece` reads `item->len` after it has released a merged piece: the pool
    must still have it. -/
def Readable (m : Mem) (b : Buffer) : Append → Prop
  | write _ => True
  | writePiece item => InputBuffer.Merges m b item → m.pool.Keeps

variable {build : Build} {m : Mem} {b : Buffer} {ps rest : List Ptr} {k : Nat}

theorem run_iff (a : Append) (hb : b.Rep m ps) (howns : Owns m (ps ++ rest) k)
    (given : a.Given m rest) :
    ((a.run b).wp build m fun b' m' => ∃ ps', b'.Rep m' ps' ∧
      content m' ps' = content m ps ++ a.bytes m) ↔ a.Readable m b := by
  cases a with
  | write d =>
    refine iff_of_true ((Buffer.write_spec hb howns).imp ?_) trivial
    intro b' m' ⟨ps', hb', _, _, hc, _⟩
    exact ⟨ps', hb', hc⟩
  | writePiece item =>
    obtain ⟨hmem, hpos, inside⟩ := given
    have hperm : (ps ++ rest).Perm (ps ++ item :: rest.erase item) :=
      (List.perm_cons_erase hmem).append_left ps
    constructor
    · intro hrun hmerges
      exact InputBuffer.keeps_of_writePiece hb.holds (howns.perm hperm) inside hrun hmerges
    · intro hkeeps
      refine (InputBuffer.writePiece_spec hb (howns.perm hperm) hpos inside hkeeps).imp ?_
      intro b' m' ⟨ps', hb', _, _, hc, _⟩
      exact ⟨ps', hb', hc⟩

end Append

/-- After the stream is destroyed the buffer is well formed and holds the bytes
    not consumed, `byteCount` has counted the others, and `a` appends behind
    them. -/
def GivenBack (build : Build) (o : Origin) (m : Mem) (s : BufferInputStream) (n : Nat)
    (a : Append) : Prop :=
  s.byteCount = n ∧
  s.destroy.wp build m fun b m' => ∃ ps, b.Rep m' ps ∧ content m' ps = o.bytes.drop n ∧
    (a.run b).wp build m' fun b' m'' => ∃ ps', b'.Rep m'' ps' ∧
      content m'' ps' = o.bytes.drop n ++ a.bytes m'

section GivenBack

variable {build : Build} {o : Origin} {cs : List StreamCall} {m : Mem} {b : Buffer}
  {s : BufferInputStream} {n : Nat} {last : Option Nat}

theorem destroy_spec (h : StreamInv o cs m s last n) :
    s.destroy.wp build m fun b m' => b = s.buffer ∧ ∃ ps, Free o cs m' b ps n := by
  simp only [BufferInputStream.destroy, Prog.wp_bind, Prog.wp_pure]
  refine (releaseDrop_spec h).imp ?_
  intro _ m' hfree
  exact ⟨trivial, hfree⟩

theorem byteCount_eq (h : StreamInv o cs m s last n) : s.byteCount = n := by
  have hcount : s.originalSize = o.bytes.length ∧ s.buffer.length = o.bytes.length - n ∧
      n ≤ o.bytes.length := by
    cases last with
    | none =>
      obtain ⟨hsize, _, ps, hfree⟩ := h
      have hlen := hfree.linked.length
      rw [← hfree.bytes, List.length_drop] at hlen
      exact ⟨hsize, hlen, hfree.le⟩
    | some size =>
      obtain ⟨hsize, p, ps, _, _, hheld⟩ := h
      have hlen := hheld.rep.length
      rw [← hheld.rest_bytes, List.length_drop] at hlen
      exact ⟨hsize, hlen, hheld.le⟩
  obtain ⟨hsize, hlen, hle⟩ := hcount
  rw [BufferInputStream.byteCount, hsize, hlen, sizeSub_of_le (Nat.sub_le _ _)]
  omega

theorem Append.given_same {a : Append} {m' : Mem} {rest : List Ptr} (given : a.Given m rest)
    (hsame : SameOn rest m m') : a.Given m' rest := by
  cases a with
  | write d => trivial
  | writePiece item =>
    obtain ⟨hmem, hbytes⟩ := given
    refine ⟨hmem, ?_⟩
    rw [hsame item hmem]
    exact hbytes

theorem givenBack_iff (a : Append) (h : StreamInv o cs m s last n) (given : a.Given o.mem o.rest) :
    GivenBack build o m s n a ↔
      ¬ StreamCall.EndsInLoneBackUp o.chain.length cs ∧
      s.destroy.wp build m fun b m' => a.Readable m' b := by
  have hdestroy : s.destroy.wp build m _ := destroy_spec h
  constructor
  · intro hgiven
    obtain ⟨b, m', hrun, ⟨_, ps, hfree⟩, ps', hrep, hcontent, happend⟩ := hdestroy.and hgiven.2
    obtain rfl := hfree.linked.unique hrep
    refine ⟨hfree.tail.mp hrep.holds.rep.tail, b, m', hrun, ?_⟩
    rw [← hcontent] at happend
    exact (a.run_iff hrep hfree.owns (Append.given_same given hfree.rest)).mp happend
  · intro ⟨hlast, hreadable⟩
    refine ⟨byteCount_eq h, (hdestroy.and hreadable).imp ?_⟩
    intro b m' ⟨⟨_, ps, hfree⟩, hread⟩
    have hrep := hfree.linked.rep (hfree.tail.mpr hlast)
    refine ⟨ps, hrep, hfree.bytes.symm, ?_⟩
    rw [hfree.bytes]
    exact (a.run_iff hrep hfree.owns (Append.given_same given hfree.rest)).mpr hread

/-- Every legal call succeeds.  Once the stream is destroyed the buffer is as it
    should be, and stays so under a later append, exactly if the calls do not end
    in a `backUp` of the only piece and a merged piece can still be read. -/
theorem input_stream_gives_back_iff (a : Append) (hb : b.Rep o.mem o.chain)
    (howns : Owns o.mem (o.chain ++ o.rest) o.bypassed) (given : a.Given o.mem o.rest)
    (h : Uses build o.mem b cs m s last n) :
    (∃ r m', s.next build m = .ok (r, m')) ∧
    (∀ size count, last = some size → 0 < count → count < size →
      ∃ s' m', s.backUp count build m = .ok (s', m')) ∧
    (GivenBack build o m s n a ↔
      ¬ StreamCall.EndsInLoneBackUp o.chain.length cs ∧
      s.destroy.wp build m fun b m' => a.Readable m' b) := by
  have hinv := uses_inv hb howns h
  refine ⟨?_, ?_, givenBack_iff a hinv given⟩
  · obtain ⟨r, m', hrun, _⟩ : s.next.wp build m _ := next_step hinv
    exact ⟨r, m', hrun⟩
  · intro size count hlast hpos hlt
    subst hlast
    obtain ⟨s', m', hrun, _⟩ : (s.backUp count).wp build m _ :=
      backUp_step hinv hpos (Nat.le_of_lt hlt) fun _ => hlt
    exact ⟨s', m', hrun⟩

end GivenBack

/-! ## The piece that was the only one -/

def loneOrigin : Origin where
  mem := { cell := fun _ => ⟨none, 0, 2, fun _ => 7⟩, brk := 1, pool := { usingCount := 1 } }
  chain := [0]
  rest := []
  bypassed := 0

def loneBuffer : Buffer := { head := some 0, tail := some 0, size := 1, length := 2 }

theorem loneBuffer_rep : loneBuffer.Rep loneOrigin.mem loneOrigin.chain :=
  ⟨⟨⟨⟨rfl, rfl⟩, rfl, rfl⟩, by decide⟩, rfl⟩

theorem loneOrigin_owns :
    Owns loneOrigin.mem (loneOrigin.chain ++ loneOrigin.rest) loneOrigin.bypassed := by
  refine ⟨⟨[], ⟨rfl, rfl, rfl⟩, by decide, fun p => ?_, by decide, by decide, by decide, by decide,
    by decide⟩, rfl⟩
  simp [loneOrigin, Mem.Live]

theorem loneBuffer_next (build : Build) :
    Uses build loneOrigin.mem loneBuffer [.next] loneOrigin.mem ⟨{}, some 0, 2⟩ (some 2) 2 := by
  have hcall : (BufferInputStream.ofBuffer loneBuffer).next build loneOrigin.mem =
      .ok ((some [7, 7], ⟨{}, some 0, 2⟩), loneOrigin.mem) := rfl
  exact .next .start hcall

/-- One byte of two is read and the other is put back: `tail_` stays null. -/
theorem lone_backUp_not_given_back :
    ¬ ∀ (build : Build) (o : Origin) (b : Buffer) (cs : List StreamCall) (m : Mem)
      (s : BufferInputStream) (last : Option Nat) (n : Nat) (a : Append),
      b.Rep o.mem o.chain → Owns o.mem (o.chain ++ o.rest) o.bypassed → a.Given o.mem o.rest →
      Uses build o.mem b cs m s last n → GivenBack build o m s n a := by
  intro hclaim
  have huses : ∃ m s, Uses .release loneOrigin.mem loneBuffer [.next, .backUp 1] m s none 1 :=
    ⟨_, _, .backUp (loneBuffer_next .release) (by decide) (by decide) rfl⟩
  obtain ⟨m, s, huses⟩ := huses
  have hgiven := hclaim .release loneOrigin loneBuffer _ m s none 1 (.write []) loneBuffer_rep
    loneOrigin_owns trivial huses
  have hinv := uses_inv loneBuffer_rep loneOrigin_owns huses
  have hlast := ((givenBack_iff (.write []) hinv trivial).mp hgiven).1
  exact hlast (by decide)

def pairOrigin : Origin where
  mem :=
    { cell := fun p => ⟨if p = 0 then some 1 else none, 0, 2, fun _ => 7⟩, brk := 2,
      pool := { usingCount := 2 } }
  chain := [0, 1]
  rest := []
  bypassed := 0

def pairBuffer : Buffer := { head := some 0, tail := some 1, size := 2, length := 4 }

theorem pairBuffer_rep : pairBuffer.Rep pairOrigin.mem pairOrigin.chain :=
  ⟨⟨⟨⟨rfl, rfl, rfl⟩, rfl, rfl⟩, by decide⟩, rfl⟩

theorem pairOrigin_owns :
    Owns pairOrigin.mem (pairOrigin.chain ++ pairOrigin.rest) pairOrigin.bypassed := by
  refine ⟨⟨[], ⟨rfl, rfl, rfl⟩, by decide, fun p => ?_, by decide, by decide, by decide, by decide,
    by decide⟩, rfl⟩
  simp only [pairOrigin, Mem.Live, List.append_nil, List.not_mem_nil, not_false_eq_true, and_true, false_or,
    List.mem_cons, or_false]
  exact Nat.lt_succ_iff.trans Nat.le_one_iff_eq_zero_or_eq_one

/-- After `next` alone the stream gives the buffer back, and so it does when a byte of the first of
    two pieces is put back. -/
theorem input_stream_gives_back_next :
    GivenBack .debug loneOrigin loneOrigin.mem ⟨{}, some 0, 2⟩ 2 (.write [9]) ∧
    ∃ m s, Uses .debug pairOrigin.mem pairBuffer [.next, .backUp 1] m s none 1 ∧
      GivenBack .debug pairOrigin m s 1 (.write [9]) := by
  constructor
  · have huses := loneBuffer_next .debug
    obtain ⟨_, _, hiff⟩ := input_stream_gives_back_iff (.write [9]) loneBuffer_rep loneOrigin_owns
      trivial huses
    refine hiff.mpr ⟨by decide, ?_⟩
    refine (destroy_spec (uses_inv loneBuffer_rep loneOrigin_owns huses)).imp ?_
    intro _ _ _
    trivial
  · have huses : ∃ m s, Uses .debug pairOrigin.mem pairBuffer [.next, .backUp 1] m s none 1 := by
      have hcall : (BufferInputStream.ofBuffer pairBuffer).next .debug pairOrigin.mem =
          .ok ((some [7, 7], ⟨⟨⟨some 1, some 1, 1⟩, 2⟩, some 0, 4⟩), pairOrigin.mem) := rfl
      exact ⟨_, _, .backUp (.next .start hcall) (by decide) (by decide) rfl⟩
    obtain ⟨m, s, huses⟩ := huses
    obtain ⟨_, _, hiff⟩ := input_stream_gives_back_iff (.write [9]) pairBuffer_rep pairOrigin_owns
      trivial huses
    refine ⟨_, _, huses, hiff.mpr ⟨by decide, ?_⟩⟩
    refine (destroy_spec (uses_inv pairBuffer_rep pairOrigin_owns huses)).imp ?_
    intro _ _ _
    trivial

end Netpp
