import Mathlib.Data.List.Pairwise
import Netpp.Conn.Custody
import Netpp.Piece.PoolInvariant

/-! # Every piece is in one place

`World.piecesAt` lists the places a piece can be in: a buffer, an operation in
flight, a posted task, or back at the pool.  In a run that loses none,
`pieces_conserved` finds every piece in exactly one of them, and `using_count_`
counts those that are not back.

Three functions lose pieces: `clear`, and with it `~Buffer`, deletes them behind
the back of the pool; `writePieceQueue` takes the first piece of a chain only; and
`readPiece` drops the pieces it compacts into the first one.
-/

namespace Netpp

open Function (update)

section Lists

variable {α β ι : Type}

theorem range_flatMap_getElem? (l : List α) (g : α → List β) :
    (List.range l.length).flatMap (fun j => (l[j]?.map g).getD []) = l.flatMap g := by
  induction l with
  | nil => rfl
  | cons a l ih =>
    rw [List.length_cons, List.range_succ_eq_map, List.flatMap_cons, List.flatMap_map,
      List.flatMap_cons, ← ih]
    rfl

theorem index_unique {ids : List ι} {f : ι → List α} (h : (ids.flatMap f).Nodup) {i j : ι} {a : α}
    (hi : i ∈ ids) (hj : j ∈ ids) (ha : a ∈ f i) (hb : a ∈ f j) : i = j := by
  have hsymm : Std.Symm (Function.onFun List.Disjoint f) := ⟨fun _ _ hxy => List.disjoint_symm hxy⟩
  by_contra hne
  have hdisjoint : List.Disjoint (f i) (f j) := (List.nodup_flatMap.mp h).2.forall hi hj hne
  exact hdisjoint ha hb

end Lists

/-- Where a piece can be. -/
inductive Place (n : Nat) where
  | buffer (i : BufferId n)
  | read (c : Fin n) (j : Nat)      -- the `j`th `async_read_some` in flight
  | write (c : Fin n) (j : Nat)     -- the `j`th `async_send` in flight
  | task (c : Fin n) (j : Nat)      -- the `j`th posted `sendInLoop`
  | returned
  deriving DecidableEq

namespace World

variable {n : Nat} {build : Build} {w w' : World n} {m m' : Mem} {chain : BufferId n → List Ptr}
  {lost : List Ptr} {k : Nat}

def piecesAt (w : World n) (m : Mem) : Place n → List Ptr
  | .buffer i => (w.bufs i).pieces m
  | .read c j => ((w.flow c).reads[j]?.map fun op => [op.piece]).getD []
  | .write c j => ((w.flow c).writes[j]?.map fun op => [op.piece]).getD []
  | .task c j => ((w.flow c).sends[j]?.map fun t => t.queue.pieces m).getD []
  | .returned => m.pool.queue.pieces m ++ m.freed

def flowPlaces (w : World n) (c : Fin n) : List (Place n) :=
  (List.range (w.flow c).reads.length).map (.read c) ++
    ((List.range (w.flow c).writes.length).map (.write c) ++
      (List.range (w.flow c).sends.length).map (.task c))

theorem Custody.flowPlaces_pieces (h : Custody w m chain lost k) (c : Fin n) :
    (w.flowPlaces c).flatMap (w.piecesAt m) = (w.flow c).held := by
  have hreads : (List.range (w.flow c).reads.length).flatMap (fun j => w.piecesAt m (.read c j)) =
      (w.flow c).reads.map ReadOp.piece := by
    rw [← List.flatMap_pure_eq_map]
    exact range_flatMap_getElem? _ _
  have hwrites : (List.range (w.flow c).writes.length).flatMap (fun j => w.piecesAt m (.write c j)) =
      (w.flow c).writes.map WriteOp.piece := by
    rw [← List.flatMap_pure_eq_map]
    exact range_flatMap_getElem? _ _
  have hsends : (List.range (w.flow c).sends.length).flatMap (fun j => w.piecesAt m (.task c j)) =
      (w.flow c).sends.flatMap SendTask.pieces := by
    refine (range_flatMap_getElem? _ _).trans (List.flatMap_congr fun t ht => ?_)
    exact h.task_pieces ht
  simp only [flowPlaces, List.flatMap_append, List.flatMap_map, hreads, hwrites, hsends, Flow.held]

/-- All places outside the pool that hold a piece. -/
theorem Custody.places (h : Custody w m chain lost k) :
    ∃ places : List (Place n), Owns m (places.flatMap (w.piecesAt m) ++ lost) k ∧
      .returned ∉ places ∧
      ∀ place, place ≠ .returned → w.piecesAt m place ≠ [] → place ∈ places := by
  obtain ⟨ids, _, hout, howns⟩ := h.chains.owns
  have hbuffers : (ids.map Place.buffer).flatMap (w.piecesAt m) = ids.flatMap chain := by
    rw [List.flatMap_map]
    exact List.flatMap_congr fun i _ => h.pieces_eq i
  have hflows : ((List.finRange n).flatMap w.flowPlaces).flatMap (w.piecesAt m) = w.held := by
    rw [List.flatMap_assoc]
    exact List.flatMap_congr fun c _ => h.flowPlaces_pieces c
  refine ⟨ids.map .buffer ++ (List.finRange n).flatMap w.flowPlaces, ?_, by simp [flowPlaces], ?_⟩
  · rw [List.flatMap_append, hbuffers, hflows, List.append_assoc]
    exact howns
  · intro place hplace hne
    have hshort : ∀ {α : Type} (l : List α) (g : α → List Ptr) (j : Nat),
        (l[j]?.map g).getD [] ≠ [] → j < l.length := by
      intro α l g j h
      by_contra hlong
      rw [List.getElem?_eq_none (by omega)] at h
      exact h rfl
    cases place with
    | buffer i =>
      refine List.mem_append_left _ (List.mem_map_of_mem ?_)
      by_contra hi
      exact hne ((h.pieces_eq i).trans (hout i hi))
    | read c j =>
      refine List.mem_append_right _ (List.mem_flatMap.mpr ⟨c, List.mem_finRange c, ?_⟩)
      simp [flowPlaces, hshort _ _ j hne]
    | write c j =>
      refine List.mem_append_right _ (List.mem_flatMap.mpr ⟨c, List.mem_finRange c, ?_⟩)
      simp [flowPlaces, hshort _ _ j hne]
    | task c j =>
      refine List.mem_append_right _ (List.mem_flatMap.mpr ⟨c, List.mem_finRange c, ?_⟩)
      simp [flowPlaces, hshort _ _ j hne]
    | returned => exact absurd rfl hplace

end World

/-! ## Runs -/

section Runs

variable {n : Nat} {build : Build} {w : World n} {m : Mem}

/-- In every run that loses no piece, each piece ever allocated is in exactly one
    place and there once, `using_count_` is the number of those that are not back at
    the pool, and it is zero when all are. -/
theorem pieces_conserved (h : RunOf build World.Conserving w m) :
    (∀ p < m.brk, ∃! place, p ∈ w.piecesAt m place) ∧
    (∀ place, (w.piecesAt m place).Nodup) ∧
    (∃ out : List Ptr, out.Nodup ∧
      (∀ p, p ∈ out ↔ ∃ place, place ≠ .returned ∧ p ∈ w.piecesAt m place) ∧
      m.pool.usingCount = u32 out.length) ∧
    ((∀ place, place ≠ .returned → w.piecesAt m place = []) → m.pool.usingCount = 0) := by
  obtain ⟨chain, lost, k, hcustody, hnone⟩ := h.custody
  obtain ⟨rfl, rfl⟩ := hnone fun _ _ _ hP => hP
  obtain ⟨places, howns, hreturned, hplaces⟩ := hcustody.places
  rw [List.append_nil] at howns
  have hnodup := howns.nodup
  obtain ⟨⟨cached, hpool⟩, hcount⟩ := howns
  have hback : w.piecesAt m .returned = cached ++ m.freed := by
    rw [← hpool.queue.pieces_eq fun p hp => hpool.live_cached hp]
    rfl
  have hmem : ∀ p, p ∈ places.flatMap (w.piecesAt m) ↔
      ∃ place, place ≠ .returned ∧ p ∈ w.piecesAt m place := by
    intro p
    rw [List.mem_flatMap]
    constructor
    · intro ⟨place, hplace, hp⟩
      exact ⟨place, fun e => hreturned (e ▸ hplace), hp⟩
    · intro ⟨place, hne, hp⟩
      exact ⟨place, hplaces place hne (List.ne_nil_of_mem hp), hp⟩
  refine ⟨fun p hp => ?_, fun place => ?_, ⟨_, hnodup, hmem, hcount⟩, fun hempty => ?_⟩
  · have hone := PoolState.PoolRep.exactlyOne hpool hp
    by_cases hheld : p ∈ places.flatMap (w.piecesAt m)
    · obtain ⟨place, hne, hat⟩ := (hmem p).mp hheld
      have hgone : p ∉ w.piecesAt m .returned := by
        rw [hback, List.mem_append, not_or]
        simpa [PoolState.ExactlyOne, hheld] using hone
      refine ⟨place, hat, fun other hother => ?_⟩
      have hother_ne : other ≠ .returned := fun e => hgone (e ▸ hother)
      exact index_unique hnodup (hplaces _ hother_ne (List.ne_nil_of_mem hother))
        (hplaces _ hne (List.ne_nil_of_mem hat)) hother hat
    · refine ⟨.returned, ?_, fun other hother => ?_⟩
      · show p ∈ w.piecesAt m .returned
        rw [hback, List.mem_append]
        cases hone with
        | inl h => exact absurd h.1 hheld
        | inr h => exact h.imp (fun h => h.2.1) (fun h => h.2.2)
      · by_contra hne
        exact hheld ((hmem p).mpr ⟨other, hne, hother⟩)
  · by_cases hplace : place = .returned
    · rw [hplace, hback, List.nodup_append]
      refine ⟨hpool.nodup_cached, hpool.freedOnce, fun a ha b hb hab => ?_⟩
      exact (hpool.live_cached ha).2 (hab ▸ hb)
    · by_cases hnil : w.piecesAt m place = []
      · rw [hnil]
        exact List.nodup_nil
      · exact (List.nodup_flatMap.mp hnodup).1 place (hplaces place hplace hnil)
  · have hnone : places.flatMap (w.piecesAt m) = [] :=
      List.flatMap_eq_nil_iff.mpr fun place hplace => hempty place fun e => hreturned (e ▸ hplace)
    rw [hcount, hnone]
    rfl

theorem enabled_user {op : BufferOp (BufferId n)} (pre : op.Pre m w.bufs)
    (names : op.names = [.user 0]) (small : w.Small m) : w.Enabled m (.buffer op) := by
  refine ⟨pre, fun i hi => ?_, small⟩
  rw [names, List.mem_singleton] at hi
  rw [hi]
  trivial

/-- A byte is written to a buffer; its piece is there and nowhere else. -/
theorem pieces_conserved_write :
    ∃ (w : World 1) (m : Mem), RunOf .release World.Conserving w m ∧ m.brk = 1 ∧
      ∃! place, 0 ∈ w.piecesAt m place := by
  have r : RunOf .release World.Conserving ({} : World 1) emptyMem := .start _
  have r := r.step (.buffer (.write (.user 0) [7]))
    (enabled_user trivial rfl fun i => by show 0 < _; decide) trivial rfl
  exact ⟨_, _, r, rfl, (pieces_conserved r).1 0 (by decide)⟩

/-- A byte is written to a buffer, which is then cleared: nothing is in use, but
    `using_count_` stays at one. -/
theorem clear_not_counted :
    ∃ (w : World 1) (m : Mem), RunOf .release (fun _ _ _ => True) w m ∧
      (∀ place, place ≠ .returned → w.piecesAt m place = []) ∧ m.pool.usingCount ≠ 0 := by
  have r : RunOf .release (fun _ _ _ => True) ({} : World 1) emptyMem := .start _
  have r := r.step (.buffer (.write (.user 0) [7]))
    (enabled_user trivial rfl fun i => by show 0 < _; decide) trivial rfl
  have r := r.step (.buffer (.clear (.user 0))) (enabled_user trivial rfl fun i => by
    match i with
    | .user 0 => decide
    | .user (_ + 1) => show 0 < _; decide
    | .input _ => show 0 < _; decide
    | .output _ => show 0 < _; decide) trivial rfl
  refine ⟨_, _, r, fun place hplace => ?_, by decide⟩
  match place with
  | .buffer (.user 0) => rfl
  | .buffer (.user (_ + 1)) => rfl
  | .buffer (.input _) => rfl
  | .buffer (.output _) => rfl
  | .read _ _ => rfl
  | .write _ _ => rfl
  | .task _ _ => rfl
  | .returned => exact absurd rfl hplace

end Runs

end Netpp
