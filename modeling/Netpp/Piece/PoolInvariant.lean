import Mathlib.Logic.Relation
import Netpp.Piece.Pool

/-! # Runs of the piece pool

The pool seen from outside: clients call `newPiece` and `deletePiece` in any
order, each call one step under the pool's mutex, and write to the pieces they
hold in between.  `PoolState.handed` records what has been handed out and not
yet given back.
-/

namespace Netpp

inductive PoolCall where
  | newPiece
  | deletePiece (p : Ptr)
  | use (p : Ptr) (c : Piece)   -- a client overwrites a piece it holds

structure PoolState where
  mem : Mem
  handed : List Ptr

namespace PoolState

/-- The pool before its first call; memory holds arbitrary bytes. -/
def start (cell : Ptr → Piece) : PoolState := ⟨{ cell := cell }, []⟩

def cached (s : PoolState) : List Ptr := s.mem.pool.queue.pieces s.mem

/-- Clients only give back, and only write to, pieces they hold. -/
def Allowed (s : PoolState) : PoolCall → Prop
  | .newPiece => True
  | .deletePiece p => p ∈ s.handed
  | .use p _ => p ∈ s.handed

def call (s : PoolState) (build : Build) : PoolCall → Except Fault PoolState
  | .newPiece => do
    let r ← newPiece build s.mem
    pure ⟨r.2, r.1 :: s.handed⟩
  | .deletePiece p => do
    let r ← deletePiece (some p) build s.mem
    pure ⟨r.2, s.handed.erase p⟩
  | .use p c => pure ⟨s.mem.set p c, s.handed⟩

/-- One call that leaves fewer than `2^32 - 8` pieces handed out. -/
def Step (build : Build) (s s' : PoolState) : Prop :=
  ∃ c, s.Allowed c ∧ s.call build c = .ok s' ∧ s'.handed.length < 4294967296 - 8

/-- The clients hold exactly what the memory says is handed out. -/
def Inv (s : PoolState) : Prop := Owns s.mem s.handed 0 ∧ s.handed.length < 4294967296 - 8

theorem inv_start (cell : Ptr → Piece) : (start cell).Inv := ⟨Owns.initial cell, by simp [start]⟩

theorem call_owns (build : Build) {s : PoolState} {c : PoolCall} (h : Owns s.mem s.handed 0)
    (allowed : s.Allowed c) :
    ∃ s', s.call build c = .ok s' ∧ Owns s'.mem s'.handed 0 := by
  cases c with
  | newPiece =>
    obtain ⟨p, m', hrun, _, howns, _⟩ : newPiece.wp build s.mem _ := h.newPiece
    exact ⟨⟨m', p :: s.handed⟩, by simp [call, hrun], howns⟩
  | deletePiece p =>
    obtain ⟨_, m', hrun, howns, _⟩ : (deletePiece (some p)).wp build s.mem _ :=
      h.deletePiece (List.perm_cons_erase allowed)
    exact ⟨⟨m', s.handed.erase p⟩, by simp [call, hrun], howns⟩
  | use p c => exact ⟨⟨s.mem.set p c, s.handed⟩, rfl, h.set allowed c⟩

theorem step_inv {build : Build} {s s' : PoolState} (h : s.Inv) (hstep : s.Step build s') :
    s'.Inv := by
  obtain ⟨c, allowed, hcall, few⟩ := hstep
  obtain ⟨t, ht, howns⟩ := call_owns build h.1 allowed
  cases hcall.symm.trans ht
  exact ⟨howns, few⟩

theorem run_inv {build : Build} {cell : Ptr → Piece} {s : PoolState}
    (h : Relation.ReflTransGen (Step build) (start cell) s) : s.Inv := by
  induction h with
  | refl => exact inv_start cell
  | tail _ hstep ih => exact step_inv ih hstep

theorem cached_eq {s : PoolState} {cached owned : List Ptr} (h : PoolRep s.mem cached owned) :
    s.cached = cached :=
  h.queue.pieces_eq fun _ hp => h.live_cached hp

/-- Every address `operator new` has returned is in exactly one place. -/
def ExactlyOne (a b c : Prop) : Prop := (a ∧ ¬ b ∧ ¬ c) ∨ (¬ a ∧ b ∧ ¬ c) ∨ (¬ a ∧ ¬ b ∧ c)

theorem PoolRep.exactlyOne {m : Mem} {cached owned : List Ptr} (h : PoolRep m cached owned)
    {p : Ptr} (hp : p < m.brk) : ExactlyOne (p ∈ owned) (p ∈ cached) (p ∈ m.freed) := by
  have hlive := h.live p
  by_cases hf : p ∈ m.freed
  · have hnot : ¬ (p ∈ cached ∨ p ∈ owned) := fun hc => (hlive.mpr hc).2 hf
    rw [not_or] at hnot
    exact .inr (.inr ⟨hnot.2, hnot.1, hf⟩)
  · rcases hlive.mp ⟨hp, hf⟩ with hc | ho
    · exact .inr (.inl ⟨h.not_owned hc, hc, hf⟩)
    · exact .inl ⟨ho, h.not_cached ho, hf⟩

theorem newPiece_fresh {build : Build} {s : PoolState} (h : s.Inv) :
    ∃ p m', newPiece build s.mem = .ok (p, m') ∧ p ∉ s.handed ∧
      p ∉ (⟨m', p :: s.handed⟩ : PoolState).cached := by
  obtain ⟨⟨⟨cached, hpool⟩, _⟩, _⟩ := h
  obtain ⟨p, m', hrun, hh⟩ : newPiece.wp build s.mem _ := newPiece_spec hpool
  refine ⟨p, m', hrun, (List.nodup_cons.mp hh.rep.nodup_owned).1, ?_⟩
  rw [cached_eq hh.rep]
  exact hh.rep.not_cached (List.mem_cons_self ..)

theorem deletePiece_frees_two (build : Build) {s : PoolState} (h : s.Inv) {p : Ptr}
    (hp : p ∈ s.handed) :
    ∃ del m', deletePieceLocked (some p) build s.mem = .ok (del, m') ∧ del.length ≤ 2 ∧
      (∀ d ∈ del, d.isSome) ∧ ∃ s', s.call build (.deletePiece p) = .ok s' := by
  obtain ⟨howns, few⟩ := h
  obtain ⟨s', hcall, _⟩ := call_owns build (c := .deletePiece p) howns hp
  obtain ⟨⟨cached, hpool⟩, hcount⟩ := howns
  have husing : s.mem.pool.usingCount = s.handed.length := by
    rw [hcount, u32, Nat.add_zero, Nat.mod_eq_of_lt (by omega)]
  have hpos : 1 ≤ s.handed.length := List.length_pos_of_mem hp
  obtain ⟨del, m', hrun, hrel⟩ : (deletePieceLocked (some p)).wp build s.mem _ :=
    deletePieceLocked_spec hpool hp
  refine ⟨del, m', hrun, ?_, ?_, s', hcall⟩
  · cases hrel with
    | cache => simp
    | trim n full hn few' two =>
      have := two (by omega) (by omega)
      simp only [List.length_map, List.length_cons, List.length_take]
      omega
  · cases hrel with
    | cache => simp
    | trim n full hn few' two =>
      intro d hd
      obtain ⟨a, _, rfl⟩ := List.mem_map.mp hd
      rfl

/-- In every reachable state `using_count_` is the number of pieces handed out,
    the cache holds at most eight more, every piece ever allocated is in exactly
    one place and was freed at most once, and every further call succeeds:
    `newPiece` hands out a piece that is neither cached nor handed out, and
    `deletePiece` deletes at most two pieces, none of them null. -/
theorem pool_conserves_pieces (build : Build) (cell : Ptr → Piece) (s : PoolState)
    (h : Relation.ReflTransGen (Step build) (start cell) s) :
    s.mem.pool.usingCount = s.handed.length ∧
    s.cached.length ≤ s.mem.pool.usingCount + 8 ∧
    s.handed.Nodup ∧ s.cached.Nodup ∧ s.mem.freed.Nodup ∧
    (∀ p < s.mem.brk, ExactlyOne (p ∈ s.handed) (p ∈ s.cached) (p ∈ s.mem.freed)) ∧
    (∃ p m', newPiece build s.mem = .ok (p, m') ∧ p ∉ s.handed ∧
      p ∉ (⟨m', p :: s.handed⟩ : PoolState).cached) ∧
    (∀ p ∈ s.handed, ∃ del m', deletePieceLocked (some p) build s.mem = .ok (del, m') ∧
      del.length ≤ 2 ∧ (∀ d ∈ del, d.isSome) ∧ del.length ≤ kMaxDeleteOnce ∧
      ∃ s', s.call build (.deletePiece p) = .ok s') := by
  have hinv := run_inv h
  obtain ⟨⟨⟨cached, hpool⟩, hcount⟩, few⟩ := hinv
  have husing : s.mem.pool.usingCount = s.handed.length := by
    rw [hcount, u32, Nat.add_zero, Nat.mod_eq_of_lt (by omega)]
  have hcached := cached_eq hpool
  refine ⟨husing, hcached ▸ hpool.cacheLe, hpool.nodup_owned, hcached ▸ hpool.nodup_cached,
    hpool.freedOnce, fun p hp => hcached ▸ PoolRep.exactlyOne hpool hp,
    newPiece_fresh (run_inv h), fun p hp => ?_⟩
  obtain ⟨del, m', hrun, htwo, hsome, hcall⟩ := deletePiece_frees_two build (run_inv h) hp
  exact ⟨del, m', hrun, htwo, hsome, Nat.le_trans htwo (by decide), hcall⟩

theorem handed_deletePiece {build : Build} {s s' : PoolState} {p : Ptr}
    (h : s.call build (.deletePiece p) = .ok s') : s'.handed = s.handed.erase p := by
  simp only [call] at h
  cases hrun : deletePiece (some p) build s.mem with
  | error e =>
    rw [hrun] at h
    cases h
  | ok r =>
    rw [hrun] at h
    cases h
    rfl

/-- Two pieces are handed out, one after the other, from an empty pool, and the first one is given
    back. -/
theorem pool_conserves_pieces_two :
    ∃ s : PoolState, Relation.ReflTransGen (Step .debug) (start fun _ => ⟨none, 0, 0, fun _ => 0⟩) s ∧
      s.handed = [1] ∧ s.mem.pool.usingCount = s.handed.length := by
  have hrun : ∃ s : PoolState,
      Relation.ReflTransGen (Step .debug) (start fun _ => ⟨none, 0, 0, fun _ => 0⟩) s ∧
      s.handed = [1, 0] :=
    ⟨_, .tail (.tail .refl ⟨.newPiece, trivial, rfl, by decide⟩)
      ⟨.newPiece, trivial, rfl, by decide⟩, rfl⟩
  obtain ⟨s, hs, hhanded⟩ := hrun
  have hmem : 0 ∈ s.handed := by rw [hhanded]; decide
  obtain ⟨_, _, _, _, _, _, _, hdelete⟩ := pool_conserves_pieces .debug _ s hs
  obtain ⟨_, _, _, _, _, _, s', hcall⟩ := hdelete 0 hmem
  have hhanded' : s'.handed = [1] := by rw [handed_deletePiece hcall, hhanded]; rfl
  have hs' := hs.tail ⟨.deletePiece 0, hmem, hcall, by rw [hhanded']; decide⟩
  exact ⟨s', hs', hhanded', (pool_conserves_pieces .debug _ s' hs').1⟩

end PoolState

end Netpp
