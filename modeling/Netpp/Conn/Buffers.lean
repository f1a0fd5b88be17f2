import Netpp.Buffer.MoveSpec

/-! # The buffers of a connection

`TCPConn::InputBuffer` takes the piece a read has filled, `TCPConn::OutputBuffer`
takes the chain of a `send` and gives out the piece the next write transmits.
Both compact small pieces into one block.

* `InputBuffer.writePiece_spec`: the received bytes are appended.
* `InputBuffer.receive_spec`: the same for a piece that comes straight from the
  pool.
* `OutputBuffer.writePieceQueue_spec`: of a chain, only the first piece is taken.
* `OutputBuffer.readPiece_spec`: the pieces that are compacted into the first one
  leave the queue, and nobody gives them back.
-/

namespace Netpp

/-! ## Compaction -/

/-- `memmove` of the bytes to the start of the block. -/
def Piece.compact (c : Piece) : Exec Piece :=
  if 0 < c.off then do
    let d ← c.copyOut c.off c.len
    let c ← c.copyIn 0 d
    pure { c with off := 0 }
  else pure c

/-- `memcpy` of the bytes of `next` behind those of a compacted piece. -/
def Piece.absorb (c next : Piece) : Exec Piece := do
  let d ← next.copyOut next.off next.len
  let filled ← c.copyIn c.len d
  pure { filled with len := u16 (c.len + next.len) }

section Compaction

variable {build : Build} {m : Mem} {c next : Piece}

theorem compact_spec (inside : c.off + c.len ≤ kPieceCapacity) :
    c.compact.wp build m fun c' m' =>
      m' = m ∧ c'.bytes = c.bytes ∧ c'.off = 0 ∧ c'.len = c.len ∧ c'.next = c.next := by
  rw [Piece.compact]
  split
  · have hlen : (slice c.data c.off c.len).length = c.len := length_slice ..
    simp only [Prog.wp_bind, Prog.wp_pure]
    rw [wp_copyOut inside, wp_copyIn (by omega)]
    refine ⟨rfl, ?_, trivial, rfl, rfl⟩
    have hpatch := slice_patch c.data 0 (slice c.data c.off c.len)
    rw [hlen] at hpatch
    exact hpatch
  · rename_i hzero
    rw [Prog.wp_pure]
    exact ⟨rfl, rfl, by omega, rfl, rfl⟩

theorem absorb_spec (hoff : c.off = 0) (inside : next.off + next.len ≤ kPieceCapacity)
    (room : c.len + next.len ≤ kPieceCapacity) :
    (c.absorb next).wp build m fun c' m' =>
      m' = m ∧ c'.bytes = c.bytes ++ next.bytes ∧ c'.off = 0 ∧ c'.len = c.len + next.len ∧
      c'.next = c.next := by
  have hlen : (slice next.data next.off next.len).length = next.len := length_slice ..
  simp only [Piece.absorb, Prog.wp_bind, Prog.wp_pure]
  rw [wp_copyOut inside, wp_copyIn (by omega), u16_of_le room]
  refine ⟨rfl, ?_, hoff, rfl, rfl⟩
  have hpatch := slice_patch c.data c.len (slice next.data next.off next.len)
  rw [hlen] at hpatch
  simp only [Piece.bytes, hoff]
  rw [slice_add, Nat.zero_add, hpatch, slice_patch_before _ _ (by omega)]

end Compaction

namespace InputBuffer

/-- `last && last->len + item->len <= sizeof(last->data)` -/
def lastHasRoom (b : Buffer) (len : Nat) : Exec Bool :=
  match b.tail with
  | none => pure false
  | some t => do
    let last ← load (some t)
    pure (last.len + len ≤ kPieceCapacity)

/-- Moves the bytes of `last` to the front of its block and copies those of
    `item` behind them. -/
def mergeLast (last item : PiecePtr) : Exec Unit := do
  let c ← load last
  let c ← c.compact
  let next ← load item
  let c ← c.absorb next
  store last c

def writePiece (b : Buffer) (item : PiecePtr) : Exec Buffer := do
  let c ← load item
  assert (0 < c.len)
  let room ← lastHasRoom b c.len
  let b ← (if room then do
      mergeLast b.tail item
      deletePiece item
      pure b
    else b.push item)
  -- `item` may have been given back to the pool by now
  let c ← load item
  pure { b with length := b.length + c.len }

/-- The condition `writePiece` tests: `item` fits into the last piece. -/
def Merges (m : Mem) (b : Buffer) (item : Ptr) : Prop :=
  ∃ t, b.tail = some t ∧ (m.cell t).len + (m.cell item).len ≤ kPieceCapacity

section Specs

variable {build : Build} {m : Mem} {b : Buffer} {item t : Ptr} {ps qs rest : List Ptr} {k : Nat}

theorem lastHasRoom_eq (hq : Holds m b.toQueue ps) (live : ∀ a ∈ ps, m.Live a) :
    (lastHasRoom b (m.cell item).len).wp build m fun room m' =>
      m' = m ∧ (room = true ↔ Merges m b item) := by
  cases htail : b.tail with
  | none => simp [lastHasRoom, htail, Merges]
  | some t =>
    have hmem : t ∈ ps := List.mem_of_getLast? (hq.rep.tail ▸ htail)
    simp only [lastHasRoom, htail, Merges, Prog.wp_bind, wp_load (live t hmem), Prog.wp_pure]
    simp

theorem mergeLast_spec (hq : Holds m b.toQueue (qs ++ [t])) (howns : Owns m (qs ++ [t] ++ item :: rest) k)
    (inside : (m.cell item).off + (m.cell item).len ≤ kPieceCapacity)
    (room : (m.cell t).len + (m.cell item).len ≤ kPieceCapacity) :
    (mergeLast b.tail (some item)).wp build m fun _ m' =>
      Holds m' b.toQueue (qs ++ [t]) ∧ Owns m' (qs ++ [t] ++ item :: rest) k ∧
      SameOn (qs ++ item :: rest) m m' ∧
      content m' (qs ++ [t]) = content m (qs ++ [t]) ++ (m.cell item).bytes ∧
      (m'.cell t).off = 0 ∧ (m'.cell t).len = (m.cell t).len + (m.cell item).len ∧
      m'.pool = m.pool := by
  have htail : b.tail = some t := by rw [hq.rep.tail]; simp
  have hlive : m.Live t := howns.live (by simp)
  have hnodup := howns.nodup
  rw [List.append_assoc, List.singleton_append, List.nodup_middle, List.nodup_cons] at hnodup
  have hnot : t ∉ qs := fun hm => hnodup.1 (List.mem_append_left _ hm)
  simp only [mergeLast, Prog.wp_bind]
  rw [htail, wp_load hlive]
  refine (compact_spec (hq.inside t (by simp))).imp ?_
  rintro c m₁ ⟨hm, hbytes, hoff, hlen, hnext⟩
  subst hm
  rw [wp_load (howns.live (by simp))]
  refine (absorb_spec hoff inside (hlen ▸ room)).imp ?_
  rintro c' m₂ ⟨hm, hbytes', hoff', hlen', hnext'⟩
  subst hm
  rw [wp_store hlive]
  refine ⟨hq.set (hnext'.trans hnext) (by rw [hoff', hlen', hlen]; omega), howns.set (by simp) _,
    SameOn.set_of_notMem _ hnodup.1, ?_, by simpa using hoff', by simp [hlen', hlen], rfl⟩
  rw [content_set_last _ hnot, hbytes', hbytes, content_append, List.append_assoc]
  simp

/-- `writePiece`, as long as the pool keeps a merged piece readable. -/
theorem writePiece_holds (hq : Holds m b.toQueue ps) (howns : Owns m (ps ++ item :: rest) k)
    (hpos : 0 < (m.cell item).len)
    (inside : (m.cell item).off + (m.cell item).len ≤ kPieceCapacity)
    (keeps : Merges m b item → m.pool.Keeps) :
    (writePiece b (some item)).wp build m fun b' m' => ∃ ps',
      Holds m' b'.toQueue ps' ∧ b'.length = b.length + (m.cell item).len ∧
      Owns m' (ps' ++ rest) k ∧ SameOn rest m m' ∧
      content m' ps' = content m ps ++ (m.cell item).bytes ∧
      (Merges m b item → ps' = ps ∧
        ∀ p ∈ ps, (m'.cell p).off ≤ (m.cell p).off ∧ (m.cell p).len ≤ (m'.cell p).len) ∧
      (¬ Merges m b item → ps' = ps ++ [item] ∧
        ∀ p ∈ ps', (m'.cell p).off = (m.cell p).off ∧ (m'.cell p).len = (m.cell p).len) := by
  have hlive : m.Live item := howns.live (by simp)
  simp only [writePiece, Prog.wp_bind, wp_load hlive, wp_assert (decide_eq_true hpos), Prog.wp_pure]
  refine (lastHasRoom_eq hq fun a ha => howns.live (by simp [ha])).imp ?_
  rintro room m₁ ⟨hm, hroom⟩
  subst hm
  cases room with
  | true =>
    have hmerges := hroom.mp rfl
    obtain ⟨t, htail, hfit⟩ := hmerges
    obtain ⟨qs, rfl⟩ : ∃ qs, ps = qs ++ [t] :=
      List.getLast?_eq_some_iff.mp (hq.rep.tail ▸ htail)
    simp only [if_true, Prog.wp_bind, Prog.wp_pure]
    refine (mergeLast_spec hq howns inside hfit).imp ?_
    rintro _ m₂ ⟨hq₂, howns₂, hsame₂, hc₂, hoff₂, hlen₂, hpool₂⟩
    have hperm : (qs ++ [t] ++ item :: rest).Perm (item :: (qs ++ [t] ++ rest)) := List.perm_middle
    refine (howns₂.deletePiece_keeps hperm).imp ?_
    rintro _ m₃ ⟨howns₃, hsame₃, hlive₃, hlen₃⟩
    have hkeeps : m₂.pool.Keeps := hpool₂ ▸ keeps ⟨t, htail, hfit⟩
    rw [wp_load (hlive₃.mpr hkeeps)]
    have hitem : (m₂.cell item).len = (m₁.cell item).len := by rw [hsame₂ item (by simp)]
    have hcontent : content m₃ (qs ++ [t]) = content m₁ (qs ++ [t]) ++ (m₁.cell item).bytes := by
      rw [content_same hsame₃.left, hc₂]
    refine ⟨qs ++ [t], hq₂.same hsame₃.left, ?_, howns₃, ?_, hcontent, fun _ => ⟨rfl, ?_⟩,
      fun hn => absurd ⟨t, htail, hfit⟩ hn⟩
    · show b.length + (m₃.cell item).len = _
      rw [hlen₃, hitem]
    · have : SameOn rest m₁ m₂ := hsame₂.mono fun p hp => by simp [hp]
      exact this.trans hsame₃.right
    · intro p hp
      rw [hsame₃ p (List.mem_append_left _ hp)]
      cases List.mem_append.mp hp with
      | inl hq =>
        rw [hsame₂ p (List.mem_append_left _ hq)]
        exact ⟨Nat.le_refl _, Nat.le_refl _⟩
      | inr ht =>
        rw [List.mem_singleton.mp ht, hoff₂, hlen₂]
        exact ⟨Nat.zero_le _, Nat.le_add_right _ _⟩
  | false =>
    have hnot : ¬ Merges m₁ b item := fun h => Bool.false_ne_true (hroom.mpr h)
    have hnodup := howns.nodup
    rw [List.nodup_middle, List.nodup_cons, List.mem_append, not_or] at hnodup
    simp only [Bool.false_eq_true, if_false]
    refine (Buffer.push_holds hq howns (fun a ha => by simp [ha]) (by simp) hnodup.1.1
      inside).imp ?_
    rintro b' m₂ ⟨hq₂, howns₂, hlink, hlen₂⟩
    rw [wp_load (howns₂.live (by simp))]
    have hcontent : content m₂ (ps ++ [item]) = content m₁ ps ++ (m₁.cell item).bytes := by
      rw [content_relinked hlink]
      simp
    have hdisj : ∀ a ∈ rest, a ∉ item :: ps := by
      intro a ha
      rw [List.mem_cons, not_or]
      exact ⟨fun e => hnodup.1.2 (e ▸ ha),
        fun hps => (List.nodup_append.mp hnodup.2).2.2 a hps a ha rfl⟩
    refine ⟨ps ++ [item], hq₂, ?_, by simpa using howns₂, SameOn.of_relinked hlink hdisj, hcontent,
      fun h => absurd h hnot, fun _ => ⟨rfl, fun p _ => ⟨hlink.off p, hlink.len p⟩⟩⟩
    show b'.length + (m₂.cell item).len = _
    rw [hlink.len, hlen₂]

theorem writePiece_spec (hb : b.Rep m ps) (howns : Owns m (ps ++ item :: rest) k)
    (hpos : 0 < (m.cell item).len)
    (inside : (m.cell item).off + (m.cell item).len ≤ kPieceCapacity)
    (keeps : Merges m b item → m.pool.Keeps) :
    (writePiece b (some item)).wp build m fun b' m' => ∃ ps',
      b'.Rep m' ps' ∧ Owns m' (ps' ++ rest) k ∧ SameOn rest m m' ∧
      content m' ps' = content m ps ++ (m.cell item).bytes ∧
      (Merges m b item → ps' = ps ∧
        ∀ p ∈ ps, (m'.cell p).off ≤ (m.cell p).off ∧ (m.cell p).len ≤ (m'.cell p).len) ∧
      (¬ Merges m b item → ps' = ps ++ [item] ∧
        ∀ p ∈ ps', (m'.cell p).off = (m.cell p).off ∧ (m'.cell p).len = (m.cell p).len) := by
  refine (writePiece_holds hb.holds howns hpos inside keeps).imp ?_
  rintro b' m' ⟨ps', hq, hlength, howns', hsame, hcontent, hplace⟩
  refine ⟨ps', ⟨hq, ?_⟩, howns', hsame, hcontent, hplace⟩
  rw [hlength, hcontent, List.length_append, length_bytes, hb.length]

/-- A merged piece that the pool does not keep has been deleted when its `len` is
    read. -/
theorem keeps_of_writePiece {Q : Buffer → Mem → Prop} (hq : Holds m b.toQueue ps)
    (howns : Owns m (ps ++ item :: rest) k)
    (inside : (m.cell item).off + (m.cell item).len ≤ kPieceCapacity)
    (hrun : (writePiece b (some item)).wp build m Q) (merges : Merges m b item) : m.pool.Keeps := by
  simp only [writePiece, Prog.wp_bind, wp_load (howns.live (p := item) (by simp))] at hrun
  obtain ⟨_, m₀, hassert, hrest⟩ := hrun
  obtain rfl : m₀ = m := by
    rw [assert] at hassert
    split at hassert
    · cases hassert
    · cases hassert
      rfl
  obtain ⟨room, m₁, _, ⟨hm, hroom⟩, hbranch⟩ :=
    (lastHasRoom_eq hq fun a ha => howns.live (by simp [ha])).and hrest
  rw [hm, hroom.mpr merges] at hbranch
  obtain ⟨t, htail, hfit⟩ := merges
  obtain ⟨qs, rfl⟩ : ∃ qs, ps = qs ++ [t] :=
    List.getLast?_eq_some_iff.mp (hq.rep.tail ▸ htail)
  simp only [if_true, Prog.wp_bind, Prog.wp_pure] at hbranch
  obtain ⟨_, m₂, _, ⟨_, howns₂, _, _, _, _, hpool⟩, hdelete⟩ :=
    (mergeLast_spec hq howns inside hfit).and hbranch
  obtain ⟨_, m₃, _, ⟨_, _, hlive, _⟩, hload⟩ :=
    (howns₂.deletePiece_keeps List.perm_middle).and hdelete
  rw [← hpool]
  exact hlive.mp (live_of_wp_load hload)

end Specs

/-! ## A read completes -/

/-- What a completed read of `d` leaves in the piece: the bytes behind
    `data + off`, and their number in `len`. -/
def fillPiece (piece : PiecePtr) (d : Bytes) : Exec Unit := do
  let c ← load piece
  let c ← c.copyIn c.off d
  store piece { c with len := u16 d.length }

/-- `launchRead`, a completion with the bytes `d`, and `writePiece` in `handleRead`. -/
def receive (b : Buffer) (d : Bytes) : Exec Buffer := do
  let piece ← newPiece
  fillPiece (some piece) d
  writePiece b (some piece)

section Receive

variable {build : Build} {m : Mem} {b : Buffer} {item : Ptr} {ps rest owned : List Ptr} {k : Nat}
  {d : Bytes}

theorem fillPiece_spec (howns : Owns m owned k) (hp : item ∈ owned) (hoff : (m.cell item).off = 0)
    (hd : d.length ≤ kPieceCapacity) :
    (fillPiece (some item) d).wp build m fun _ m' =>
      Owns m' owned k ∧ (∀ p, p ≠ item → m'.cell p = m.cell p) ∧ (m'.cell item).off = 0 ∧
      (m'.cell item).len = d.length ∧ (m'.cell item).bytes = d ∧ m'.pool = m.pool := by
  have hlive : m.Live item := howns.live hp
  simp only [fillPiece, Prog.wp_bind, wp_load hlive]
  rw [wp_copyIn (by omega), wp_store hlive]
  refine ⟨howns.set hp _, fun p hne => Mem.set_cell_ne m _ hne, by simpa using hoff,
    by simp [u16_of_le hd], ?_, rfl⟩
  rw [Mem.set_cell_self, Piece.bytes]
  simp only [u16_of_le hd]
  exact slice_patch _ _ d

/-- Where the bytes of a read end up: merged into the last piece, or in a new one
    because they do not fit there. -/
structure Received (m m' : Mem) (ps ps' : List Ptr) (n : Nat) : Prop where
  old : ∀ p ∈ ps, (m'.cell p).off ≤ (m.cell p).off ∧ (m.cell p).len ≤ (m'.cell p).len
  place : ps' = ps ∨ ∃ item, ps' = ps ++ [item] ∧ (m'.cell item).off = 0 ∧ (m'.cell item).len = n ∧
    (∀ p ∈ ps, (m'.cell p).len = (m.cell p).len) ∧
    ∀ t, ps.getLast? = some t → kPieceCapacity < (m.cell t).len + n

theorem receive_spec (hb : b.Rep m ps) (howns : Owns m (ps ++ rest) k) (hd : d ≠ [])
    (hfit : d.length ≤ kPieceCapacity) (hroom : (ps ++ rest).length + k + 9 < 4294967296) :
    (receive b d).wp build m fun b' m' => ∃ ps',
      b'.Rep m' ps' ∧ Owns m' (ps' ++ rest) k ∧ SameOn rest m m' ∧
      content m' ps' = content m ps ++ d ∧ Received m m' ps ps' d.length := by
  simp only [receive, Prog.wp_bind]
  refine howns.newPiece_keeps.imp ?_
  rintro item m₁ ⟨hfresh, howns₁, hzero, hsame₁, hkeeps⟩
  refine (fillPiece_spec howns₁ (by simp) (by rw [hzero]) hfit).imp ?_
  rintro _ m₂ ⟨howns₂, hothers, hoff, hlen, hbytes, hpool⟩
  have hsame₂ : SameOn (ps ++ rest) m m₂ := fun p hp => by
    rw [hothers p fun e => hfresh (e ▸ hp), hsame₁ p hp]
  have hperm : (item :: (ps ++ rest)).Perm (ps ++ item :: rest) := List.perm_middle.symm
  have hpos : 0 < (m₂.cell item).len := by
    rw [hlen]
    exact List.length_pos_iff.mpr hd
  refine (writePiece_spec (hb.same hsame₂.left) (howns₂.perm hperm) hpos (by omega)
    fun _ => hpool ▸ hkeeps hroom).imp ?_
  rintro b' m' ⟨ps', hb', howns', hsame', hc', hmerged, hpushed⟩
  refine ⟨ps', hb', howns', hsame₂.right.trans hsame', ?_, ?_⟩
  · rw [hc', hbytes, content_same hsame₂.left]
  · by_cases hm : Merges m₂ b item
    · obtain ⟨hps, hold⟩ := hmerged hm
      refine ⟨fun p hp => ?_, .inl hps⟩
      rw [← hsame₂ p (by simp [hp])]
      exact hold p hp
    · obtain ⟨hps, hold⟩ := hpushed hm
      have hkept : ∀ p ∈ ps, (m'.cell p).off = (m.cell p).off ∧ (m'.cell p).len = (m.cell p).len := by
        intro p hp
        rw [← hsame₂ p (by simp [hp])]
        exact hold p (by simp [hps, hp])
      have hitem := hold item (by simp [hps])
      refine ⟨fun p hp => ⟨Nat.le_of_eq (hkept p hp).1, Nat.le_of_eq (hkept p hp).2.symm⟩,
        .inr ⟨item, hps, by rw [hitem.1, hoff], by rw [hitem.2, hlen], fun p hp => (hkept p hp).2, ?_⟩⟩
      intro t ht
      by_contra hsmall
      refine hm ⟨t, by rw [hb.holds.rep.tail, ht], ?_⟩
      rw [hlen, hsame₂ t (by simp [List.mem_of_getLast? ht])]
      omega

end Receive

end InputBuffer

namespace OutputBuffer

/-- The loop of `readPiece`: while the next piece fits behind `first` it is copied
    there and taken off the queue. -/
def coalesce : Nat → Buffer → PiecePtr → Exec Buffer
  | 0, _, _ => throw .outOfFuel
  | fuel + 1, b, first => do
    let c ← load first
    if c.len < kPieceCapacity then
      match b.head with
      | none => pure b
      | some q => do
        let next ← load (some q)
        if c.len + next.len ≤ kPieceCapacity then
          let c ← c.compact
          -- the popped piece is not given back to the pool
          let r ← b.pop
          let c ← c.absorb next
          store first c
          coalesce fuel r.2 first
        else pure b
    else pure b

def readPiece (b : Buffer) : Exec (PiecePtr × Buffer) := do
  assert (0 < b.length)
  let r ← b.pop
  match r.1 with
  | none => pure (none, r.2)
  | some p => do
    let n ← chainBound
    let b ← coalesce n r.2 (some p)
    let first ← load (some p)
    pure (some p, { b with length := sizeSub b.length first.len })

def writePieceQueueLoop : Nat → Buffer → PiecePtr → Exec Buffer
  | 0, _, _ => throw .outOfFuel
  | _ + 1, b, none => pure b
  | fuel + 1, b, some p => do
    let item ← load (some p)
    assert (0 < item.len)
    let b ← b.push (some p)
    -- `push` has reset `item->next`
    let item ← load (some p)
    writePieceQueueLoop fuel { b with length := b.length + item.len } item.next

def writePieceQueue (b : Buffer) (queueHead : PiecePtr) : Exec Buffer := do
  assert queueHead.isSome
  let n ← chainBound
  writePieceQueueLoop n b queueHead

/-- `readPiece` compacts the piece behind `p` into it. -/
def Coalesces (m : Mem) (p : Ptr) (ps : List Ptr) : Prop :=
  (m.cell p).len < kPieceCapacity ∧
    ∃ q, ps.head? = some q ∧ (m.cell p).len + (m.cell q).len ≤ kPieceCapacity

/-- There is nothing left in the queue, or nothing that fits behind the bytes of `p`. -/
def Full (m : Mem) (b : Buffer) (p : Ptr) : Prop :=
  (m.cell p).len < kPieceCapacity → ∀ q, b.head = some q →
    kPieceCapacity < (m.cell p).len + (m.cell q).len

/-- What `readPiece` makes of the popped piece `p` and the queue `ps` behind it: the
    pieces `dropped` are copied into `p` and left to nobody. -/
structure Coalesced (m m' : Mem) (b b' : Buffer) (p : Ptr) (ps dropped ps' rest : List Ptr)
    (k : Nat) : Prop where
  split : ps = dropped ++ ps'
  holds : Holds m' b'.toQueue ps'
  owns : Owns m' (p :: ps ++ rest) k
  same : SameOn (ps ++ rest) m m'
  length : b'.length = b.length
  inside : (m'.cell p).off + (m'.cell p).len ≤ kPieceCapacity
  bytes : (m'.cell p).bytes = (m.cell p).bytes ++ content m dropped
  onlyIf : ¬ Coalesces m p ps → dropped = []

section Specs

variable {build : Build} {m m' : Mem} {b b' : Buffer} {p q : Ptr} {ps qs dropped ps' rest : List Ptr}
  {k fuel : Nat}

theorem Coalesced.stop (hq : Holds m b.toQueue ps) (howns : Owns m (p :: ps ++ rest) k)
    (inside : (m.cell p).off + (m.cell p).len ≤ kPieceCapacity) :
    Coalesced m m b b p ps [] ps rest k :=
  ⟨rfl, hq, howns, SameOn.refl _ _, rfl, inside, by simp, fun _ => rfl⟩

theorem absorbNext_spec (build : Build) (hq : Holds m b.toQueue (q :: qs))
    (howns : Owns m (p :: q :: qs ++ rest) k)
    (inside : (m.cell p).off + (m.cell p).len ≤ kPieceCapacity)
    (room : (m.cell p).len + (m.cell q).len ≤ kPieceCapacity) :
    (do
      let c ← (m.cell p).compact
      let r ← b.pop
      let c ← c.absorb (m.cell q)
      store (some p) c
      pure r.2 : Exec Buffer).wp build m fun b' m' =>
        Holds m' b'.toQueue qs ∧ Owns m' (p :: q :: qs ++ rest) k ∧
        SameOn (q :: qs ++ rest) m m' ∧ b'.length = b.length ∧
        (m'.cell p).off + (m'.cell p).len ≤ kPieceCapacity ∧
        (m'.cell p).bytes = (m.cell p).bytes ++ (m.cell q).bytes := by
  have hnodup := howns.nodup
  rw [List.cons_append, List.nodup_cons] at hnodup
  have hinsideq := hq.insideHead
  simp only [Prog.wp_bind, Prog.wp_pure]
  refine (compact_spec inside).imp ?_
  rintro c m₁ ⟨hm, hbytes, hoff, hlen, hnext⟩
  subst hm
  simp only [Buffer.pop, Prog.wp_bind, Prog.wp_pure]
  refine (Queue.pop_holds hq (howns.live (by simp))).imp ?_
  rintro r m₂ ⟨hm, _, hq'⟩
  subst hm
  refine (absorb_spec hoff hinsideq (hlen ▸ room)).imp ?_
  rintro c' m₃ ⟨hm, hbytes', hoff', hlen', hnext'⟩
  subst hm
  rw [wp_store (howns.live (by simp))]
  refine ⟨hq'.set (hnext'.trans hnext) (by omega), howns.set (by simp) c',
    SameOn.set_of_notMem c' hnodup.1, trivial, ?_, ?_⟩
  · rw [Mem.set_cell_self]
    omega
  · rw [Mem.set_cell_self, hbytes', hbytes]

theorem coalesce_spec (hq : Holds m b.toQueue ps) (howns : Owns m (p :: ps ++ rest) k)
    (inside : (m.cell p).off + (m.cell p).len ≤ kPieceCapacity) (hfuel : ps.length < fuel) :
    (coalesce fuel b (some p)).wp build m fun b' m' =>
      ∃ dropped ps', Coalesced m m' b b' p ps dropped ps' rest k := by
  -- the induction follows the queue: each round but the last takes its front piece
  induction ps generalizing fuel b m rest with
  | nil =>
    obtain ⟨fuel, rfl⟩ : ∃ n, fuel = n + 1 := ⟨fuel - 1, by simp at hfuel; omega⟩
    have hhead : b.head = none := hq.rep.chain.head_eq
    simp only [coalesce, Prog.wp_bind, wp_load (howns.live (List.mem_cons_self ..)), hhead]
    split
    · rw [Prog.wp_pure]
      exact ⟨[], [], .stop hq howns inside⟩
    · rw [Prog.wp_pure]
      exact ⟨[], [], .stop hq howns inside⟩
  | cons q qs ih =>
    obtain ⟨fuel, rfl⟩ : ∃ n, fuel = n + 1 := ⟨fuel - 1, by omega⟩
    have hhead : b.head = some q := hq.head
    have hliveq : m.Live q := howns.live (by simp)
    simp only [coalesce, Prog.wp_bind, wp_load (howns.live (List.mem_cons_self ..)), hhead]
    split
    · rename_i hspace
      rw [Prog.wp_bind, wp_load hliveq]
      split
      · rename_i hfits
        have hround := absorbNext_spec build hq howns inside hfits
        simp only [Prog.wp_bind, Prog.wp_pure] at hround ⊢
        refine hround.imp fun _ _ h => h.imp fun r _ h => h.imp fun _ _ h => h.imp ?_
        rintro _ m₁ ⟨hq₁, howns₁, hsame₁, hlen₁, hinside₁, hbytes₁⟩
        have hmiddle : (qs ++ q :: rest).Perm (q :: (qs ++ rest)) := List.perm_middle
        have hperm : (p :: q :: qs ++ rest).Perm (p :: qs ++ q :: rest) := hmiddle.symm.cons p
        refine (ih hq₁ (howns₁.perm hperm) hinside₁ (by simpa using hfuel)).imp ?_
        rintro b' m' ⟨dropped, ps', h⟩
        have hsame : SameOn (q :: qs ++ rest) m₁ m' := h.same.mono fun a ha => by
          simp only [List.cons_append, List.mem_cons, List.mem_append] at ha ⊢
          rcases ha with rfl | ha | ha <;> simp [*]
        refine ⟨q :: dropped, ps', by rw [h.split]; rfl, h.holds, h.owns.perm hperm.symm,
          hsame₁.trans hsame, h.length.trans hlen₁, h.inside, ?_, ?_⟩
        · have hdropped : content m₁ dropped = content m dropped :=
            content_same (hsame₁.mono fun a ha => by simp [h.split, ha])
          rw [h.bytes, hbytes₁, hdropped, List.append_assoc]
          rfl
        · exact fun hnot => absurd ⟨hspace, q, rfl, hfits⟩ hnot
      · rw [Prog.wp_pure]
        exact ⟨[], q :: qs, .stop hq howns inside⟩
    · rw [Prog.wp_pure]
      exact ⟨[], q :: qs, .stop hq howns inside⟩

theorem coalesce_full : (coalesce fuel b (some p)).wlp build m fun b' m' => Full m' b' p := by
  induction fuel generalizing b m with
  | zero => simp [coalesce]
  | succ fuel ih =>
    rw [coalesce, Prog.wlp_bind]
    apply wlp_load
    split
    · cases hhead : b.head with
      | none =>
        rw [Prog.wlp_pure]
        intro _ q hq
        cases hhead.symm.trans hq
      | some q =>
        rw [Prog.wlp_bind]
        apply wlp_load
        split
        · -- whatever the round has changed, the next one starts from there
          simp only [Prog.wlp_bind]
          exact fun _ _ _ _ _ _ _ _ _ _ _ _ => ih
        · rename_i hbig
          rw [Prog.wlp_pure]
          intro _ q' hq
          obtain rfl : q = q' := Option.some.inj (hhead.symm.trans hq)
          exact Nat.lt_of_not_le hbig
    · rename_i hfull
      rw [Prog.wlp_pure]
      exact fun hspace => absurd hspace hfull

/-- `readPiece` takes the first piece, with as many of the following ones as fit
    into it. -/
theorem readPiece_wp (hb : b.Rep m (p :: ps)) (howns : Owns m (p :: ps ++ rest) k)
    (hpos : build = .debug → 0 < b.length) :
    (readPiece b).wp build m fun r m' => r.1 = some p ∧ ∃ dropped ps', ps = dropped ++ ps' ∧
      r.2.Rep m' ps' ∧ Owns m' (p :: ps ++ rest) k ∧ SameOn (ps ++ rest) m m' ∧
      (m'.cell p).off + (m'.cell p).len ≤ kPieceCapacity ∧
      (m'.cell p).bytes = (m.cell p).bytes ++ content m dropped ∧
      (¬ Coalesces m p ps → dropped = []) ∧ Full m' r.2 p := by
  rw [readPiece, Prog.wp_bind, wp_assert_iff]
  refine ⟨fun hbuild => decide_eq_true (hpos hbuild), ?_⟩
  simp only [Buffer.pop, Prog.wp_bind, Prog.wp_pure]
  refine (Queue.pop_holds hb.holds (howns.live (by simp))).imp ?_
  rintro r m₂ ⟨hm, hr, hq⟩
  subst hm
  rw [hr]
  simp only [Prog.wp_bind, Buffer.wp_chainBound, Prog.wp_pure]
  have hfuel : ps.length < m₂.brk + 1 := by
    have := howns.length_le
    simp only [List.cons_append, List.length_cons, List.length_append] at this
    omega
  have hloop : (coalesce (m₂.brk + 1) { b with toQueue := r.2 } (some p)).wp build m₂ _ :=
    coalesce_spec hq howns hb.holds.insideHead hfuel
  refine (hloop.and_wlp coalesce_full).imp ?_
  rintro b' m' ⟨⟨dropped, ps', h⟩, hfull⟩
  rw [wp_load (h.owns.live (by simp))]
  refine ⟨trivial, dropped, ps', h.split, ⟨h.holds, ?_⟩, h.owns, h.same, h.inside, h.bytes, h.onlyIf,
    hfull⟩
  have htotal : b.length = (m'.cell p).len + (content m' ps').length := by
    have hrest : content m' ps' = content m₂ ps' :=
      content_same (h.same.mono fun a ha => by simp [h.split, ha])
    rw [hb.length, content_cons, h.split, content_append, ← List.append_assoc, ← h.bytes,
      List.length_append, length_bytes, hrest]
  show sizeSub b'.length (m'.cell p).len = _
  rw [h.length]
  show sizeSub b.length (m'.cell p).len = _
  rw [sizeSub_of_le (by omega)]
  omega

theorem readPiece_spec (hb : b.Rep m (p :: ps)) (howns : Owns m (p :: ps ++ rest) k) :
    (readPiece b).wlp build m fun r m' => r.1 = some p ∧ ∃ dropped ps', ps = dropped ++ ps' ∧
      r.2.Rep m' ps' ∧ Owns m' (p :: ps ++ rest) k ∧ SameOn (ps ++ rest) m m' ∧
      (m'.cell p).off + (m'.cell p).len ≤ kPieceCapacity ∧
      (m'.cell p).bytes = (m.cell p).bytes ++ content m dropped ∧
      (¬ Coalesces m p ps → dropped = []) := by
  by_cases hpos : build = .debug → 0 < b.length
  · refine (readPiece_wp hb howns hpos).wlp.imp ?_
    intro r m' ⟨hr, dropped, ps', hsplit, hrep, howns', hsame, hinside, hbytes, honly, _⟩
    exact ⟨hr, dropped, ps', hsplit, hrep, howns', hsame, hinside, hbytes, honly⟩
  · -- the `assert` fails
    rw [readPiece, Prog.wlp_bind, wlp_assert]
    exact fun hassert => absurd (fun hbuild => of_decide_eq_true (hassert hbuild)) hpos

/-- The loop of `writePieceQueue` from the `push` of a piece on: `push` has reset its
    link, so the loop ends there. -/
theorem writePieceQueue_push (hb : b.Rep m ps) (live : ∀ a ∈ ps, m.Live a) (hp : m.Live p)
    (fresh : p ∉ ps) (inside : (m.cell p).off + (m.cell p).len ≤ kPieceCapacity) :
    (do
      let b ← b.push (some p)
      let item ← load (some p)
      writePieceQueueLoop (fuel + 1) { b with length := b.length + item.len } item.next
      : Exec Buffer).wp build m fun b' m' =>
        b'.Rep m' (ps ++ [p]) ∧ m.Relinked m' (p :: ps) ∧
        content m' (ps ++ [p]) = content m ps ++ (m.cell p).bytes := by
  simp only [Buffer.push, Prog.wp_bind, Prog.wp_pure]
  refine (Queue.push_spec hb.holds.rep live hp fresh).imp ?_
  rintro q m' ⟨hq, hlink⟩
  have hnext : (m'.cell p).next = none := hq.chain.last_next
  have hcontent : content m' (ps ++ [p]) = content m ps ++ (m.cell p).bytes := by
    rw [content_relinked hlink]
    simp
  rw [wp_load ((hlink.live p).mpr hp), hnext, writePieceQueueLoop, Prog.wp_pure]
  refine ⟨⟨⟨hq, fun a ha => ?_⟩, ?_⟩, hlink, hcontent⟩
  · rw [hlink.off, hlink.len]
    cases List.mem_append.mp ha with
    | inl h => exact hb.holds.inside a h
    | inr h => rw [List.mem_singleton.mp h]; exact inside
  · show b.length + (m'.cell p).len = _
    rw [hcontent, List.length_append, length_bytes, hlink.len, hb.length]

/-- Of the chain that starts with `p`, `writePieceQueue` takes the first piece only. -/
theorem writePieceQueue_takes (hb : b.Rep m ps) (live : ∀ a ∈ ps, m.Live a) (hp : m.Live p)
    (fresh : p ∉ ps) (inside : (m.cell p).off + (m.cell p).len ≤ kPieceCapacity) :
    (writePieceQueue b (some p)).wlp build m fun b' m' =>
      b'.Rep m' (ps ++ [p]) ∧ m.Relinked m' (p :: ps) ∧
      content m' (ps ++ [p]) = content m ps ++ (m.cell p).bytes := by
  obtain ⟨fuel, hfuel⟩ : ∃ n, m.brk = n + 1 :=
    Nat.exists_eq_succ_of_ne_zero (Nat.ne_of_gt (Nat.lt_of_le_of_lt (Nat.zero_le p) hp.1))
  simp only [writePieceQueue, Prog.wlp_bind]
  refine (wp_assert_true.mpr ?_).wlp
  refine (Buffer.wp_chainBound.mpr ?_).wlp
  rw [hfuel, writePieceQueueLoop, Prog.wlp_bind]
  refine ((wp_load hp).mpr ?_).wlp
  rw [Prog.wlp_bind, wlp_assert]
  intro _
  exact (writePieceQueue_push hb live hp fresh inside).wlp

theorem writePieceQueue_total (hb : b.Rep m ps) (live : ∀ a ∈ ps, m.Live a) (hp : m.Live p)
    (fresh : p ∉ ps) (inside : (m.cell p).off + (m.cell p).len ≤ kPieceCapacity)
    (hpos : 0 < (m.cell p).len) :
    (writePieceQueue b (some p)).wp build m fun b' m' =>
      b'.Rep m' (ps ++ [p]) ∧ m.Relinked m' (p :: ps) ∧
      content m' (ps ++ [p]) = content m ps ++ (m.cell p).bytes := by
  obtain ⟨fuel, hfuel⟩ : ∃ n, m.brk = n + 1 :=
    Nat.exists_eq_succ_of_ne_zero (Nat.ne_of_gt (Nat.lt_of_le_of_lt (Nat.zero_le p) hp.1))
  rw [writePieceQueue, Prog.wp_bind]
  apply wp_assert_true.mpr
  rw [Prog.wp_bind]
  apply Buffer.wp_chainBound.mpr
  rw [hfuel, writePieceQueueLoop, Prog.wp_bind, wp_load hp, Prog.wp_bind,
    wp_assert (decide_eq_true hpos)]
  exact writePieceQueue_push hb live hp fresh inside

theorem writePieceQueue_nil : (writePieceQueue b none).wlp build m fun b' m' => b' = b ∧ m' = m := by
  simp only [writePieceQueue, Prog.wlp_bind, wlp_assert]
  intro _
  refine (Buffer.wp_chainBound.mpr ?_).wlp
  simp only [writePieceQueueLoop, Prog.wlp_pure]
  exact ⟨trivial, trivial⟩

/-- `writePieceQueue` of the chain `qs` as a step of the program: what else is in use stays as
    it is. -/
theorem writePieceQueue_spec (hb : b.Rep m ps) (howns : Owns m (ps ++ (qs ++ rest)) k)
    (inside : ∀ p ∈ qs, (m.cell p).off + (m.cell p).len ≤ kPieceCapacity) :
    (writePieceQueue b qs.head?).wlp build m fun b' m' =>
      b'.Rep m' (ps ++ qs.take 1) ∧ Owns m' (ps ++ (qs ++ rest)) k ∧
      SameOn (qs.drop 1 ++ rest) m m' ∧
      content m' (ps ++ qs.take 1) = content m ps ++ content m (qs.take 1) ∧
      ∀ a, (m'.cell a).len = (m.cell a).len := by
  cases qs with
  | nil =>
    refine writePieceQueue_nil.imp ?_
    rintro b' m' ⟨rfl, rfl⟩
    exact ⟨by simpa using hb, howns, SameOn.refl _ _, by simp, fun _ => rfl⟩
  | cons p qs =>
    have hnodup := howns.nodup
    rw [List.cons_append, List.nodup_middle, List.nodup_cons, List.mem_append, not_or] at hnodup
    refine (writePieceQueue_takes hb (fun a ha => howns.live (by simp [ha])) (howns.live (by simp))
      hnodup.1.1 (inside p (by simp))).imp ?_
    intro b' m' ⟨hb', hlink, hcontent⟩
    refine ⟨hb', howns.relinked hlink ?_, SameOn.of_relinked hlink ?_, by simpa using hcontent,
      fun a => hlink.len a⟩
    · intro a ha
      cases List.mem_cons.mp ha with
      | inl h => simp [h]
      | inr h => simp [h]
    · intro a ha
      rw [List.mem_cons, not_or]
      exact ⟨fun e => hnodup.1.2 (e ▸ ha),
        fun hps => (List.nodup_append.mp hnodup.2).2.2 a hps a ha rfl⟩

end Specs

end OutputBuffer

end Netpp
