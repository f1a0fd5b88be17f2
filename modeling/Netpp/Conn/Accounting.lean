import Netpp.Conn.Buffers
import Netpp.Piece.PoolInvariant

/-! # `InputBuffer::writePiece` among other threads

The pool is shared by all loops.  `writePiece` gives a merged piece back to it and reads
`item->len` afterwards, to add it to `length_`; by then another thread may have been
handed the piece, with its length reset, or the pool may have deleted it.

`writePieceAmong` is `writePiece` with the calls of the other threads between its
statements.  What this thread does in between touches only pieces of its own.

* `writePieceAmong_alone`: without such calls it is `writePiece`.
* `interfere_spec`: the other threads leave the pieces of this one alone.
* `writePiece_accounts_iff`: the received bytes are counted, whatever the others do,
  exactly if they are not merged into the last piece.
-/

namespace Netpp

/-! ## The other threads -/

/-- The other threads make these calls on the pool.  They hold `theirs`; a call on a piece
    they do not hold is not possible and left out. -/
def interfere : List PoolCall → List Ptr → Exec (List Ptr)
  | [], theirs => pure theirs
  | .newPiece :: calls, theirs => do
    let p ← newPiece
    interfere calls (p :: theirs)
  | .deletePiece p :: calls, theirs =>
    if p ∈ theirs then do
      deletePiece (some p)
      interfere calls (theirs.erase p)
    else interfere calls theirs
  | .use p c :: calls, theirs =>
    if p ∈ theirs then do
      store (some p) c
      interfere calls theirs
    else interfere calls theirs

/-- Where the other threads come in between. -/
inductive Moment where
  | entered     -- before the piece is looked at
  | tested      -- the last piece has been asked for its room
  | merged      -- the bytes are copied, `deletePiece(item)` follows
  | handedOver  -- `item` is given back or pushed, `length_ += item->len` follows
  deriving DecidableEq

section Interference

variable {build : Build} {m : Mem} {mine theirs cached owned : List Ptr} {k n : Nat}

theorem interfere_spec (calls : List PoolCall) (h : Owns m (mine ++ theirs) k) :
    (interfere calls theirs).wp build m fun theirs' m' =>
      Owns m' (mine ++ theirs') k ∧ SameOn mine m m' := by
  induction calls generalizing m theirs with
  | nil => simpa [interfere] using ⟨h, SameOn.refl mine m⟩
  | cons call calls ih =>
    cases call with
    | newPiece =>
      simp only [interfere, Prog.wp_bind]
      refine h.newPiece.imp ?_
      rintro p m₁ ⟨_, howns, _, hsame⟩
      have hperm : (p :: (mine ++ theirs)).Perm (mine ++ p :: theirs) := List.perm_middle.symm
      refine (ih (howns.perm hperm)).imp ?_
      rintro theirs' m' ⟨howns', hsame'⟩
      exact ⟨howns', hsame.left.trans hsame'⟩
    | deletePiece p =>
      rw [interfere]
      split
      · rename_i hp
        have hperm : (mine ++ theirs).Perm (p :: (mine ++ theirs.erase p)) :=
          ((List.perm_cons_erase hp).append_left mine).trans List.perm_middle
        rw [Prog.wp_bind]
        refine (h.deletePiece hperm).imp ?_
        rintro _ m₁ ⟨howns, hsame⟩
        refine (ih howns).imp ?_
        rintro theirs' m' ⟨howns', hsame'⟩
        exact ⟨howns', hsame.left.trans hsame'⟩
      · exact ih h
    | use p c =>
      rw [interfere]
      split
      · rename_i hp
        have hnot : p ∉ mine := fun hm => (List.nodup_append.mp h.nodup).2.2 p hm p hp rfl
        rw [Prog.wp_bind, wp_store (h.live (List.mem_append_right _ hp))]
        refine (ih (h.set (List.mem_append_right _ hp) c)).imp ?_
        rintro theirs' m' ⟨howns', hsame'⟩
        exact ⟨howns', (SameOn.set_of_notMem c hnot).trans hsame'⟩
      · exact ih h

/-- Whoever asks the pool often enough is handed what was in its cache, reset. -/
theorem interfere_resets (h : PoolRep m cached owned) :
    (interfere (List.replicate n .newPiece) theirs).wp build m fun _ m' =>
      (∀ p, m'.Live p → p ∉ owned → p ∉ cached.drop n → (m'.cell p).len = 0) ∧ SameOn owned m m' := by
  induction n generalizing m cached owned theirs with
  | zero =>
    simp only [List.replicate_zero, interfere, Prog.wp_pure, List.drop_zero]
    refine ⟨fun p hlive howned hcached => ?_, SameOn.refl owned m⟩
    cases (h.live p).mp hlive with
    | inl hp => exact absurd hp hcached
    | inr hp => exact absurd hp howned
  | succ n ih =>
    simp only [List.replicate_succ, interfere, Prog.wp_bind]
    refine (newPiece_spec h).imp ?_
    intro p m₁ hh
    have hfresh : p ∉ owned := (List.nodup_cons.mp hh.rep.nodup_owned).1
    refine (ih hh.rep).imp ?_
    rintro _ m' ⟨hreset, hsame⟩
    refine ⟨fun q hlive howned hcached => ?_, fun q hq => ?_⟩
    · by_cases hqp : q = p
      · -- the piece handed out first; the later calls leave it alone
        rw [hqp, hsame p (List.mem_cons_self ..), hh.zeroed]
      · have hnot : q ∉ p :: owned := by simpa [hqp] using howned
        exact hreset q hlive hnot (by simpa using hcached)
    · rw [hsame q (List.mem_cons_of_mem p hq), hh.others q fun e => hfresh (e ▸ hq)]

end Interference

namespace InputBuffer

/-- `writePiece`, with what the other threads do in between. -/
def writePieceAmong (others : Moment → List PoolCall) (theirs : List Ptr) (b : Buffer)
    (item : PiecePtr) : Exec (Buffer × List Ptr) := do
  let theirs ← interfere (others .entered) theirs
  let c ← load item
  assert (0 < c.len)
  let room ← lastHasRoom b c.len
  let theirs ← interfere (others .tested) theirs
  let r ← (if room then do
      mergeLast b.tail item
      let theirs ← interfere (others .merged) theirs
      deletePiece item
      pure (b, theirs)
    else do
      let b ← b.push item
      pure (b, theirs))
  let theirs ← interfere (others .handedOver) r.2
  -- `item` may belong to somebody else by now
  let c ← load item
  pure ({ r.1 with length := r.1.length + c.len }, theirs)

theorem writePieceAmong_alone (theirs : List Ptr) (b : Buffer) (item : PiecePtr) :
    writePieceAmong (fun _ => []) theirs b item = (do
      let b ← writePiece b item
      pure (b, theirs)) := by
  simp only [writePieceAmong, writePiece, interfere, bind_assoc, pure_bind]
  refine bind_congr fun c => bind_congr fun _ => bind_congr fun room => ?_
  cases room with
  | true => simp only [if_true, bind_assoc, pure_bind]
  | false => simp only [Bool.false_eq_true, if_false, bind_assoc, pure_bind]

/-- The call appends the bytes of `item`, keeps the buffer well formed and counts exactly
    what was received.  `ps` is the chain of the buffer, `theirs` is what other threads
    hold before the call. -/
def AccountsExactly (build : Build) (m : Mem) (b : Buffer) (item : Ptr) (ps theirs : List Ptr)
    (others : Moment → List PoolCall) : Prop :=
  (writePieceAmong others theirs b (some item)).wp build m fun r m' =>
    (∃ ps', r.1.Rep m' ps' ∧ (∀ p ∈ ps', m'.Live p) ∧
      content m' ps' = content m ps ++ (m.cell item).bytes) ∧
    r.1.length = b.length + (m.cell item).len

section Accounting

variable {build : Build} {m m' : Mem} {b : Buffer} {item : Ptr} {ps theirs : List Ptr} {k : Nat}

theorem merges_same (hq : Holds m b.toQueue ps) (hsame : SameOn (ps ++ [item]) m m') :
    Merges m' b item ↔ Merges m b item := by
  refine exists_congr fun t => and_congr_right fun htail => ?_
  have hmem : t ∈ ps := List.mem_of_getLast? (hq.rep.tail ▸ htail)
  rw [hsame t (List.mem_append_left _ hmem), hsame item (by simp)]

/-- A piece that is pushed stays with this thread until it is counted. -/
theorem accounts_of_pushed (others : Moment → List PoolCall) (hb : b.Rep m ps)
    (howns : Owns m (ps ++ item :: theirs) k) (hpos : 0 < (m.cell item).len)
    (inside : (m.cell item).off + (m.cell item).len ≤ kPieceCapacity) (hnot : ¬ Merges m b item) :
    AccountsExactly build m b item ps theirs others := by
  have hmine : Owns m ((ps ++ [item]) ++ theirs) k := by simpa using howns
  simp only [AccountsExactly, writePieceAmong, Prog.wp_bind]
  refine (interfere_spec _ hmine).imp ?_
  rintro theirs₁ m₁ ⟨howns₁, hsame₁⟩
  have hitem₁ : m₁.cell item = m.cell item := hsame₁ item (by simp)
  have hb₁ : b.Rep m₁ ps := hb.same hsame₁.left
  rw [wp_load (howns₁.live (by simp)), wp_assert (decide_eq_true (hitem₁ ▸ hpos))]
  refine (lastHasRoom_eq hb₁.holds fun p hp => howns₁.live (by simp [hp])).imp ?_
  rintro room m₂ ⟨hm, hroom⟩
  subst hm
  have hfalse : room = false := Bool.eq_false_iff.mpr fun htrue =>
    hnot ((merges_same hb.holds hsame₁).mp (hroom.mp htrue))
  refine (interfere_spec _ howns₁).imp ?_
  rintro theirs₂ m₃ ⟨howns₃, hsame₃⟩
  have hitem₃ : m₃.cell item = m.cell item := (hsame₃ item (by simp)).trans hitem₁
  have hb₃ : b.Rep m₃ ps := hb₁.same hsame₃.left
  have hfresh : item ∉ ps := fun hp => by
    have hnodup := howns.nodup
    rw [List.nodup_middle, List.nodup_cons] at hnodup
    exact hnodup.1 (List.mem_append_left _ hp)
  simp only [hfalse, Bool.false_eq_true, if_false, Prog.wp_bind, Prog.wp_pure]
  refine (Buffer.push_holds hb₃.holds howns₃ (fun p hp => by simp [hp]) (by simp) hfresh
    (by rw [hitem₃]; exact inside)).imp ?_
  rintro b' m₄ ⟨hq₄, howns₄, hlink, hlen₄⟩
  refine (interfere_spec _ howns₄).imp ?_
  rintro theirs₃ m₅ ⟨howns₅, hsame₅⟩
  have hitem₅ : (m₅.cell item).len = (m.cell item).len := by
    rw [hsame₅ item (by simp), hlink.len, hitem₃]
  have hcontent : content m₅ (ps ++ [item]) = content m ps ++ (m.cell item).bytes := by
    rw [content_same hsame₅, content_relinked hlink, content_append,
      content_same (hsame₁.trans hsame₃).left]
    simp [hitem₃]
  rw [wp_load (howns₅.live (by simp)), hitem₅]
  refine ⟨⟨ps ++ [item], ⟨hq₄.same hsame₅, ?_⟩, fun p hp => howns₅.live ?_, hcontent⟩, ?_⟩
  · show b'.length + _ = _
    rw [hcontent, List.length_append, length_bytes, hlen₄, hb.length]
  · exact List.mem_append_left _ hp
  · show b'.length + _ = _
    rw [hlen₄]

/-- A piece that is merged can be handed to another thread before it is counted. -/
theorem not_accounts_of_merged (hb : b.Rep m ps) (howns : Owns m (ps ++ item :: theirs) k)
    (hpos : 0 < (m.cell item).len)
    (inside : (m.cell item).off + (m.cell item).len ≤ kPieceCapacity) (hmerges : Merges m b item) :
    ∃ others, ¬ AccountsExactly build m b item ps theirs others := by
  have hlive : m.Live item := howns.live (by simp)
  have hgone : item ∉ ps ++ theirs := by
    have hnodup := howns.nodup
    rw [List.nodup_middle, List.nodup_cons] at hnodup
    exact hnodup.1
  obtain ⟨room, m₀, hroomRun, hm, hroom⟩ : (lastHasRoom b (m.cell item).len).wp build m _ :=
    lastHasRoom_eq hb.holds fun p hp => howns.live (by simp [hp])
  rw [hm, hroom.mpr hmerges] at hroomRun
  obtain ⟨t, htail, hfit⟩ := hmerges
  obtain ⟨qs, rfl⟩ : ∃ qs, ps = qs ++ [t] :=
    List.getLast?_eq_some_iff.mp (hb.holds.rep.tail ▸ htail)
  obtain ⟨_, m₁, hmergeRun, _, howns₁, _⟩ : (mergeLast b.tail (some item)).wp build m _ :=
    mergeLast_spec hb.holds howns inside hfit
  obtain ⟨_, m₂, hdeleteRun, howns₂, _⟩ : (deletePiece (some item)).wp build m₁ _ :=
    howns₁.deletePiece_keeps List.perm_middle
  obtain ⟨⟨cached, hpool⟩, _⟩ := howns₂
  -- the others ask for as many pieces as are cached when `item` is given back
  refine ⟨fun moment => if moment = .handedOver then List.replicate cached.length .newPiece else [],
    fun haccounts => ?_⟩
  simp only [AccountsExactly, writePieceAmong, reduceCtorEq, if_false, if_true, interfere,
    Prog.wp_bind, Prog.wp_pure, wp_load hlive, wp_assert (decide_eq_true hpos),
    Prog.wp_of_eq_ok hroomRun, Prog.wp_of_eq_ok hmergeRun, Prog.wp_of_eq_ok hdeleteRun] at haccounts
  obtain ⟨_, m₃, _, ⟨hreset, _⟩, hload⟩ := (interfere_resets hpool).and haccounts
  have hlive₃ : m₃.Live item := live_of_wp_load hload
  have hzero : (m₃.cell item).len = 0 := hreset item hlive₃ hgone (by simp)
  rw [wp_load hlive₃] at hload
  have hlength : b.length + (m₃.cell item).len = b.length + (m.cell item).len := hload.2
  omega

/-- For every well formed input buffer and every received piece: the bytes are appended and
    counted, whatever the other threads do, exactly if they are not merged into the last
    piece. -/
theorem writePiece_accounts_iff (hb : b.Rep m ps) (howns : Owns m (ps ++ item :: theirs) k)
    (hpos : 0 < (m.cell item).len) (hlen : (m.cell item).len ≤ kPieceCapacity)
    (hoff : (m.cell item).off = 0) :
    (∀ others, AccountsExactly build m b item ps theirs others) ↔ ¬ Merges m b item := by
  have inside : (m.cell item).off + (m.cell item).len ≤ kPieceCapacity := by omega
  constructor
  · intro haccounts hmerges
    obtain ⟨others, hnot⟩ := not_accounts_of_merged hb howns hpos inside hmerges
    exact hnot (haccounts others)
  · intro hnot others
    exact accounts_of_pushed others hb howns hpos inside hnot

end Accounting

/-- A memory with two pieces of one byte each, both handed out. -/
def twoSingles : Mem where
  cell := fun _ => ⟨none, 0, 1, fun _ => 7⟩
  brk := 2
  pool := { usingCount := 2 }

theorem twoSingles_owns : Owns twoSingles [0, 1] 0 := by
  refine ⟨⟨[], ⟨rfl, rfl, rfl⟩, by decide, fun p => ?_, by decide, by decide, by decide, by decide,
    by decide⟩, rfl⟩
  have htwo : p < 2 ↔ p = 0 ∨ p = 1 := Nat.lt_succ_iff.trans Nat.le_one_iff_eq_zero_or_eq_one
  simpa [Mem.Live, twoSingles] using htwo

def singleBuffer : Buffer := { head := some 0, tail := some 0, size := 1, length := 1 }

/-- Another thread asks for a piece once `item` has been given back. -/
def askAfterwards : Moment → List PoolCall
  | .handedOver => [.newPiece]
  | _ => []

/-- The second piece is merged, handed on and counted as empty. -/
theorem writePiece_miscounts :
    ¬ ∀ (build : Build) (m : Mem) (b : Buffer) (item : Ptr) (ps theirs : List Ptr) (k : Nat)
      (others : Moment → List PoolCall),
      b.Rep m ps → Owns m (ps ++ item :: theirs) k → 0 < (m.cell item).len →
      (m.cell item).len ≤ kPieceCapacity → (m.cell item).off = 0 →
      AccountsExactly build m b item ps theirs others := by
  intro hclaim
  have hrep : singleBuffer.Rep twoSingles [0] := ⟨⟨⟨⟨rfl, rfl⟩, rfl, rfl⟩, by decide⟩, rfl⟩
  have haccounts := hclaim .debug twoSingles singleBuffer 1 [0] [] 0 askAfterwards hrep
    twoSingles_owns (by decide) (by decide) rfl
  have hrun : ∃ m', writePieceAmong askAfterwards [] singleBuffer (some 1) .debug twoSingles =
      .ok ((singleBuffer, [1]), m') := ⟨_, rfl⟩
  obtain ⟨m', hrun⟩ := hrun
  have hlength : singleBuffer.length = singleBuffer.length + 1 :=
    ((Prog.wp_of_eq_ok hrun).mp haccounts).2
  omega

/-- An empty buffer takes the first piece and counts it. -/
theorem writePiece_accounts_pushed : ¬ Merges twoSingles {} 0 ∧
    ∀ others, AccountsExactly .release twoSingles {} 0 [] [1] others := by
  have hrep : ({} : Buffer).Rep twoSingles [] := ⟨⟨⟨rfl, rfl, rfl⟩, by simp⟩, rfl⟩
  have hnot : ¬ Merges twoSingles {} 0 := by
    intro hmerges
    obtain ⟨t, htail, _⟩ := hmerges
    cases htail
  refine ⟨hnot, ?_⟩
  intro others
  exact (writePiece_accounts_iff hrep twoSingles_owns (by decide) (by decide) rfl).mpr hnot others

end InputBuffer

end Netpp
