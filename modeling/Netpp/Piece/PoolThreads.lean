import Mathlib.Data.List.Range
import Mathlib.Data.List.ReduceOption
import Netpp.Lib.Machine
import Netpp.Piece.PoolInvariant

/-! # The piece pool among threads

`PoolState` takes a call for one step.  In `piece_allocator.cpp` only the first part
of a call holds the mutex: `newPiece` calls `operator new` behind it, and
`deletePiece` deletes the pieces of `del_array` behind it.  Here any number of threads
take these parts in any order, down to the single `delete`.

* `newPieceLocked`, `allocatePiece`: the two parts of `newPiece`, and `clearPool`, the
  loop of `~PiecePool`.
* `PoolThreads`: the pieces the threads hold, and the threads behind the mutex.
* `Conserved`: the invariant of `PoolRep`, with the entries of all `del_array`s among
  the pieces the pool does not have.
-/

namespace Netpp

/-! ## The parts of a call -/

/-- The part of `PiecePool::newPiece` that holds the mutex: a cached piece, if there is one. -/
def newPieceLocked : Exec PiecePtr := do
  let pool ← getPool
  let r ← pool.queue.pop
  setPool { queue := r.2, usingCount := u32 (pool.usingCount + 1) }
  match r.1 with
  | some item =>
    let c ← load (some item)
    store (some item) { c with next := none, off := 0, len := 0 }
    pure (some item)
  | none => pure none

/-- The rest of `newPiece`, for a thread that has found the queue empty. -/
def allocatePiece : Exec Ptr := do
  let item ← newCell
  let c ← load (some item)
  store (some item) { c with next := none, off := 0, len := 0 }
  pure item

/-- `while (!queue_.empty()) delete queue_.pop();` -/
def clearPoolLoop : Nat → Queue → Exec Queue
  | 0, _ => throw .outOfFuel
  | fuel + 1, q =>
    if q.isEmpty then pure q
    else do
      let r ← q.pop
      deleteCell r.1
      clearPoolLoop fuel r.2

/-- `PiecePool::clear`; a queue has no more pieces than there are cells. -/
def clearPool : Exec Unit := fun build m =>
  (do
    let q ← clearPoolLoop (m.brk + 1) m.pool.queue
    setPool { m.pool with queue := q } : Exec Unit) build m

/-- `newPiece` is its two parts, for a thread that is not interrupted. -/
theorem newPiece_eq : newPiece = (do
    match ← newPieceLocked with
    | some item => pure item
    | none => allocatePiece) := by
  simp only [newPiece, newPieceLocked, allocatePiece, bind_assoc]
  refine bind_congr fun pool => bind_congr fun r => bind_congr fun _ => ?_
  cases r.1 with
  | none => rfl
  | some item => simp only [bind_assoc, pure_bind]

section Specs

variable {build : Build} {m : Mem} {q : Queue} {cached owned ps cached' owned' : List Ptr} {fuel : Nat}

theorem PoolRep.free (h : PoolRep m cached owned)
    (hperm : (cached ++ owned).Perm (ps ++ (cached' ++ owned'))) (hq : q.Rep m.cell cached')
    (hle : cached'.length ≤ cached.length) :
    PoolRep { m with freed := ps.reverse ++ m.freed, pool := { m.pool with queue := q } }
      cached' owned' := by
  have hnodup := hperm.nodup_iff.mp h.distinct
  rw [List.nodup_append] at hnodup
  obtain ⟨hps, hrest, hdisjoint⟩ := hnodup
  have hlive : ∀ p ∈ ps, m.Live p := by
    intro p hp
    have hmem : p ∈ cached ++ owned := hperm.mem_iff.mpr (List.mem_append_left _ hp)
    exact (h.live p).mpr (List.mem_append.mp hmem)
  refine ⟨hq, hrest, fun p => ?_, ?_, fun p hp => ?_, h.usingLt, ?_, ?_⟩
  · have hmem := hperm.mem_iff (a := p)
    have hold := h.live p
    have hnot : p ∈ ps → ¬ (p ∈ cached' ∨ p ∈ owned') := fun hp hin =>
      hdisjoint p hp p (List.mem_append.mpr hin) rfl
    simp only [Mem.Live, List.mem_append, List.mem_reverse, not_or] at hmem hold ⊢
    tauto
  · refine List.nodup_append.mpr ⟨List.nodup_reverse.mpr hps, h.freedOnce, ?_⟩
    rintro a ha b hb rfl
    exact (hlive a (List.mem_reverse.mp ha)).2 hb
  · cases List.mem_append.mp hp with
    | inl hnew => exact (hlive p (List.mem_reverse.mp hnew)).1
    | inr hold => exact h.freedOld p hold
  · exact Nat.le_trans hle h.cacheLe
  · have hsum := h.cacheSum
    show cached'.length + m.pool.usingCount ≤ _
    omega

theorem PoolRep.moved {m' : Mem} (h : PoolRep m cached owned)
    (hperm : (cached ++ owned).Perm (cached' ++ owned')) (same : m' = { m with pool := m'.pool })
    (hq : m'.pool.queue.Rep m.cell cached') (hlt : m'.pool.usingCount < 4294967296)
    (hbounds : cached'.length ≤ m'.pool.usingCount + 8 ∧
      cached'.length + m'.pool.usingCount ≤ 4294967296 + 7) : PoolRep m' cached' owned' := by
  have hcell : m'.cell = m.cell := by rw [same]
  have hbrk : m'.brk = m.brk := by rw [same]
  have hfreed : m'.freed = m.freed := by rw [same]
  refine ⟨hcell ▸ hq, hperm.nodup_iff.mp h.distinct, fun p => ?_, hfreed ▸ h.freedOnce, ?_, hlt,
    hbounds.1, hbounds.2⟩
  · have hmem := hperm.mem_iff (a := p)
    have hold := h.live p
    simp only [Mem.Live, hbrk, hfreed, List.mem_append] at hmem hold ⊢
    rw [hold, hmem]
  · rw [hfreed, hbrk]
    exact h.freedOld

theorem allocatePiece_spec (h : PoolRep m cached owned) :
    allocatePiece.wp build m fun p m' =>
      PoolRep m' cached (p :: owned) ∧ p ∉ cached ++ owned ∧ (∀ q, q ≠ p → m'.cell q = m.cell q) ∧
      m'.pool = m.pool := by
  have hfresh : ∀ ps : List Ptr, (∀ p ∈ ps, p < m.brk) → m.brk ∉ ps := fun ps hold hmem =>
    Nat.lt_irrefl _ (hold _ hmem)
  have hfreed : m.brk ∉ m.freed := hfresh _ h.freedOld
  have hnew : m.brk ∉ cached ++ owned := hfresh _ fun p hp =>
    ((h.live p).mpr (List.mem_append.mp hp)).1
  have hlive : ({ m with brk := m.brk + 1 } : Mem).Live m.brk := ⟨Nat.lt_succ_self _, hfreed⟩
  simp only [allocatePiece, Prog.wp_bind, wp_newCell, wp_load hlive, wp_store hlive, Prog.wp_pure]
  refine ⟨⟨?_, ?_, fun p => ?_, h.freedOnce, fun p hp => ?_, h.usingLt, h.cacheLe, h.cacheSum⟩, hnew,
    fun q hq => Mem.set_cell_ne _ _ hq, rfl⟩
  · refine h.queue.frame fun p hp => Mem.set_cell_ne _ _ ?_
    rintro rfl
    exact hnew (List.mem_append_left _ hp)
  · exact List.perm_middle.nodup_iff.mpr (List.nodup_cons.mpr ⟨hnew, h.distinct⟩)
  · have hold := h.live p
    simp only [Mem.Live, Mem.set_brk, Mem.set_freed, List.mem_cons, Nat.lt_succ_iff_lt_or_eq] at hold ⊢
    by_cases hp : p = m.brk
    · subst hp
      simp [hfreed]
    · simp only [hp, or_false, false_or]
      exact hold
  · exact Nat.lt_succ_of_lt (h.freedOld p hp)

/-- What the critical section of `newPiece` leaves: a zeroed piece of the cache, or a thread that
    has to allocate one.  Both are counted. -/
inductive Popped (m m' : Mem) (cached owned : List Ptr) : PiecePtr → Prop
  | cached (p : Ptr) (rep : PoolRep m' cached.tail (p :: owned))
      (others : ∀ q, q ≠ p → m'.cell q = m.cell q)
      (counted : m'.pool.usingCount = u32 (m.pool.usingCount + 1)) : Popped m m' cached owned (some p)
  | empty (nil : cached = []) (rep : PoolRep m' [] owned) (same : m'.cell = m.cell)
      (counted : m'.pool.usingCount = u32 (m.pool.usingCount + 1)) : Popped m m' cached owned none

theorem newPieceLocked_spec (h : PoolRep m cached owned) :
    newPieceLocked.wp build m fun r m' => Popped m m' cached owned r := by
  cases cached with
  | nil =>
    have hlt := h.usingLt
    simp only [newPieceLocked, Prog.wp_bind, wp_getPool]
    refine (Queue.pop_empty h.queue).imp ?_
    rintro r m' ⟨rfl, rfl⟩
    simp only [wp_setPool, Prog.wp_pure]
    refine .empty rfl ⟨h.queue, h.distinct, h.live, h.freedOnce, h.freedOld, ?_, ?_, ?_⟩ rfl rfl
    · exact Nat.mod_lt _ (by decide)
    · exact Nat.zero_le _
    · show 0 + u32 (m'.pool.usingCount + 1) ≤ _
      simp only [u32]
      omega
  | cons a rest =>
    have ha : m.Live a := h.live_cached (by simp)
    have hwhole : newPiece.wp build m fun p m' => Handed m m' (a :: rest) owned p :=
      newPiece_spec h
    rw [newPiece_eq, Prog.wp_bind] at hwhole
    have hsome : newPieceLocked.wp build m fun r _ => r = some a := by
      simp only [newPieceLocked, Prog.wp_bind, wp_getPool]
      refine (Queue.pop_spec h.queue ha).imp ?_
      rintro ⟨item, q⟩ m' ⟨rfl, rfl, _⟩
      have hlive : ({ m' with pool := { queue := q, usingCount := u32 (m'.pool.usingCount + 1) } } :
          Mem).Live a := ha
      simp only [wp_setPool, Prog.wp_bind, wp_load hlive, wp_store hlive, Prog.wp_pure]
    refine (hsome.and hwhole).imp ?_
    rintro r m' ⟨rfl, hhanded⟩
    have hhanded := (Prog.wp_pure ..).mp hhanded
    exact .cached a hhanded.rep hhanded.others hhanded.counted

theorem clearPoolLoop_spec (hq : q.Rep m.cell ps) (distinct : ps.Nodup) (live : ∀ p ∈ ps, m.Live p)
    (hsmall : ps.length < 4294967296) (hfuel : ps.length < fuel) :
    (clearPoolLoop fuel q).wp build m fun q' m' =>
      q'.Rep m.cell [] ∧ m' = { m with freed := ps.reverse ++ m.freed } := by
  induction ps generalizing fuel q m with
  | nil =>
    obtain ⟨fuel, rfl⟩ : ∃ k, fuel = k + 1 := ⟨fuel - 1, by simp at hfuel; omega⟩
    have hempty : q.isEmpty = true := by simp [Queue.isEmpty, hq.size, u32]
    simp only [clearPoolLoop, hempty, if_true, Prog.wp_pure]
    exact ⟨hq, rfl⟩
  | cons p ps ih =>
    obtain ⟨fuel, rfl⟩ : ∃ k, fuel = k + 1 := ⟨fuel - 1, by omega⟩
    obtain ⟨hnot, hrest⟩ := List.nodup_cons.mp distinct
    have hp : m.Live p := live p (by simp)
    have hsize : q.size = ps.length + 1 := by
      rw [hq.size, u32, Nat.mod_eq_of_lt hsmall, List.length_cons]
    have hempty : q.isEmpty = false := by simp [Queue.isEmpty, hsize]
    simp only [clearPoolLoop, hempty, Bool.false_eq_true, if_false, Prog.wp_bind]
    refine (Queue.pop_spec hq hp).imp ?_
    rintro ⟨item, q'⟩ m' ⟨rfl, rfl, hq'⟩
    rw [wp_deleteCell hp]
    refine (ih (m := { m' with freed := p :: m'.freed }) hq' hrest (fun a ha => ?_)
      (by simp at hsmall; omega) (by simpa using hfuel)).imp ?_
    · have ha' := live a (by simp [ha])
      have hne : a ≠ p := fun e => hnot (e ▸ ha)
      exact ⟨ha'.1, by simpa [hne] using ha'.2⟩
    · rintro q'' m'' ⟨hq'', rfl⟩
      simpa using hq''

theorem clearPool_spec (h : PoolRep m cached owned) (hsmall : cached.length < 4294967296) :
    clearPool.wp build m fun _ m' => PoolRep m' [] owned ∧ m'.cell = m.cell ∧
      m'.pool.usingCount = m.pool.usingCount := by
  have hfuel : cached.length < m.brk + 1 := Nat.lt_succ_of_le
    (Queue.length_le_of_live h.nodup_cached fun p hp => h.live_cached hp)
  have hlive : ∀ p ∈ cached, m.Live p := fun p hp => h.live_cached hp
  have hbody : (do
      let q ← clearPoolLoop (m.brk + 1) m.pool.queue
      setPool { m.pool with queue := q } : Exec Unit).wp build m fun _ m' =>
        PoolRep m' [] owned ∧ m'.cell = m.cell ∧ m'.pool.usingCount = m.pool.usingCount := by
    simp only [Prog.wp_bind, wp_setPool]
    refine (clearPoolLoop_spec h.queue h.nodup_cached hlive hsmall hfuel).imp ?_
    rintro q' m' ⟨hq', rfl⟩
    exact ⟨h.free (by simp) hq' (Nat.zero_le _), rfl, trivial⟩
  exact hbody

end Specs

/-! ## Threads -/

structure PoolThreads where
  handed : List Ptr := []                 -- handed out and not given back
  allocating : Nat := 0                   -- threads in `newPiece`, behind the mutex
  deleting : List (List PiecePtr) := []   -- what is left of each `del_array`, one a thread
  destroyed : Bool := false               -- `~PiecePool` has run

/-- The next thing one of the threads does. -/
inductive PieceAction where
  | newPiece
  | allocate
  | deletePiece (p : Ptr)
  | delete (delArray : List PiecePtr)
  | use (p : Ptr) (c : Piece)             -- a thread writes to a piece it holds
  | destroy

namespace PoolThreads

def cached (m : Mem) : List Ptr := m.pool.queue.pieces m

/-- A thread has `del_array` to delete, unless it is empty. -/
def withArray (delArray : List PiecePtr) (deleting : List (List PiecePtr)) : List (List PiecePtr) :=
  if delArray = [] then deleting else delArray :: deleting

/-- A static object is destroyed when the program ends, and is not called afterwards. -/
def Enabled (s : PoolThreads) : PieceAction → Prop
  | .newPiece => s.destroyed = false
  | .allocate => 0 < s.allocating
  | .deletePiece p => p ∈ s.handed ∧ s.destroyed = false
  | .delete delArray => delArray ∈ s.deleting
  | .use p _ => p ∈ s.handed
  | .destroy => s.destroyed = false

def exec (s : PoolThreads) : PieceAction → Exec PoolThreads
  | .newPiece => do
    match ← newPieceLocked with
    | some p => pure { s with handed := p :: s.handed }
    | none => pure { s with allocating := s.allocating + 1 }
  | .allocate => do
    let p ← allocatePiece
    pure { s with handed := p :: s.handed, allocating := s.allocating - 1 }
  | .deletePiece p => do
    let delArray ← deletePieceLocked (some p)
    pure { s with handed := s.handed.erase p, deleting := withArray delArray s.deleting }
  | .delete [] => pure s
  | .delete (d :: rest) => do
    deleteCell d
    pure { s with deleting := withArray rest (s.deleting.erase (d :: rest)) }
  | .use p c => do
    store (some p) c
    pure s
  | .destroy => do
    clearPool
    pure { s with destroyed := true }

def machine : Machine Build Mem Fault PoolThreads PieceAction where
  Init s m := s = {} ∧ ∃ cell, m = { cell := cell }
  Enabled s _ a := s.Enabled a
  exec := exec

/-- Fewer than `2^32 - 8` pieces are asked for and not given back. -/
def Few (s : PoolThreads) (a : PieceAction) : Prop :=
  a = .newPiece → s.handed.length + s.allocating + 1 < 4294967296 - 8

def pending (s : PoolThreads) : List Ptr := s.deleting.flatMap List.reduceOption

/-! ## The invariant -/

/-- No `del_array` has a null pointer in it, or more than two pieces. -/
def Sound (deleting : List (List PiecePtr)) : Prop :=
  ∀ delArray ∈ deleting, none ∉ delArray ∧ delArray.length ≤ 2

structure Conserved (s : PoolThreads) (m : Mem) (cached : List Ptr) : Prop where
  rep : PoolRep m cached (s.handed ++ s.pending)
  counted : m.pool.usingCount = s.handed.length + s.allocating
  few : s.handed.length + s.allocating < 4294967296 - 8
  sound : Sound s.deleting
  destroyed : s.destroyed = true → cached = []

/-- Every cell ever allocated is handed out, cached or freed, and in one of these places only. -/
theorem places_perm {m : Mem} {cached owned : List Ptr} (h : PoolRep m cached owned) :
    (owned ++ (cached ++ m.freed)).Perm (List.range m.brk) := by
  have hlive : ∀ p, p ∈ cached ++ owned → p < m.brk ∧ p ∉ m.freed := fun p hp =>
    (h.live p).mpr (List.mem_append.mp hp)
  have hnodup : (owned ++ (cached ++ m.freed)).Nodup := by
    have hswap : (cached ++ owned).Perm (owned ++ cached) := List.perm_append_comm
    have hdistinct := hswap.nodup_iff.mp h.distinct
    rw [← List.append_assoc, List.nodup_append]
    refine ⟨hdistinct, h.freedOnce, ?_⟩
    rintro a ha b hb rfl
    exact (hlive a (List.mem_append.mpr (List.mem_append.mp ha).symm)).2 hb
  rw [List.perm_ext_iff_of_nodup hnodup List.nodup_range]
  intro p
  have hp := h.live p
  simp only [List.mem_append, List.mem_range, Mem.Live] at hp ⊢
  constructor
  · rintro (howned | hcached | hfreed)
    · exact (hp.mpr (.inr howned)).1
    · exact (hp.mpr (.inl hcached)).1
    · exact h.freedOld p hfreed
  · intro hlt
    by_cases hfreed : p ∈ m.freed
    · exact .inr (.inr hfreed)
    · cases hp.mp ⟨hlt, hfreed⟩ with
      | inl hcached => exact .inr (.inl hcached)
      | inr howned => exact .inl howned

section Steps

variable {build : Build} {s : PoolThreads} {m : Mem} {cached : List Ptr} {p : Ptr}

theorem withArray_pieces (delArray : List PiecePtr) (deleting : List (List PiecePtr)) :
    (withArray delArray deleting).flatMap List.reduceOption =
      delArray.reduceOption ++ deleting.flatMap List.reduceOption := by
  unfold withArray
  split
  · rename_i hnil
    rw [hnil]
    rfl
  · rfl

theorem Sound.withArray {delArray : List PiecePtr} {deleting : List (List PiecePtr)}
    (h : Sound deleting) (hnone : none ∉ delArray) (htwo : delArray.length ≤ 2) :
    Sound (withArray delArray deleting) := by
  unfold PoolThreads.withArray
  split
  · exact h
  · intro del hdel
    cases List.mem_cons.mp hdel with
    | inl hnew => rw [hnew]; exact ⟨hnone, htwo⟩
    | inr hold => exact h del hold

/-- What an action has to give: it ends, with the invariant, and leaves the pieces of the other
    threads alone. -/
def Goes (s : PoolThreads) (build : Build) (m : Mem) (a : PieceAction) : Prop :=
  (s.exec a).wp build m fun s' m' => (∃ cached, Conserved s' m' cached) ∧
    ∀ p ∈ s.handed, p ∈ s'.handed → (∀ c, a ≠ .use p c) → m'.cell p = m.cell p

theorem Conserved.newPiece (h : Conserved s m cached) (few : s.Few .newPiece) :
    Goes s build m .newPiece := by
  have hfew := few rfl
  have hcount : u32 (m.pool.usingCount + 1) = s.handed.length + s.allocating + 1 := by
    rw [h.counted, u32, Nat.mod_eq_of_lt (by omega)]
  simp only [Goes, exec, Prog.wp_bind]
  refine (newPieceLocked_spec h.rep).imp ?_
  intro r m' hpopped
  cases hpopped with
  | cached p rep others counted =>
    refine (Prog.wp_pure ..).mpr ⟨⟨cached.tail, rep, ?_, ?_, h.sound, fun hd => ?_⟩, ?_⟩
    · show _ = s.handed.length + 1 + s.allocating
      omega
    · show s.handed.length + 1 + s.allocating < _
      omega
    · rw [h.destroyed hd]
      rfl
    · intro q hq _ _
      apply others
      rintro rfl
      exact (List.nodup_cons.mp rep.nodup_owned).1 (List.mem_append_left _ hq)
  | empty nil rep same counted =>
    refine (Prog.wp_pure ..).mpr ⟨⟨[], rep, ?_, ?_, h.sound, fun _ => rfl⟩, ?_⟩
    · show _ = s.handed.length + (s.allocating + 1)
      omega
    · show s.handed.length + (s.allocating + 1) < _
      omega
    · intro q _ _ _
      rw [same]

theorem Conserved.allocate (h : Conserved s m cached) (enabled : s.Enabled .allocate) :
    Goes s build m .allocate := by
  have hpos : 0 < s.allocating := enabled
  have hfew := h.few
  simp only [Goes, exec, Prog.wp_bind, Prog.wp_pure]
  refine (allocatePiece_spec h.rep).imp ?_
  rintro p m' ⟨rep, hfresh, others, hpool⟩
  refine ⟨⟨cached, rep, ?_, ?_, h.sound, h.destroyed⟩, ?_⟩
  · show _ = s.handed.length + 1 + (s.allocating - 1)
    rw [hpool, h.counted]
    omega
  · show s.handed.length + 1 + (s.allocating - 1) < _
    omega
  · intro q hq _ _
    apply others
    rintro rfl
    exact hfresh (List.mem_append_right _ (List.mem_append_left _ hq))

theorem Conserved.deletePiece (h : Conserved s m cached) (enabled : s.Enabled (.deletePiece p)) :
    Goes s build m (.deletePiece p) := by
  obtain ⟨hp, halive⟩ := enabled
  have hfew := h.few
  have hpos : 1 ≤ s.handed.length := List.length_pos_of_mem hp
  have hlen : (s.handed.erase p).length = s.handed.length - 1 := List.length_erase_of_mem hp
  have hcount : u32Sub m.pool.usingCount 1 = (s.handed.erase p).length + s.allocating := by
    rw [h.counted, hlen]
    simp only [u32Sub, u32]
    omega
  have herase : (s.handed ++ s.pending).erase p = s.handed.erase p ++ s.pending :=
    List.erase_append_left _ hp
  have hmem : p ∈ s.handed ++ s.pending := List.mem_append_left _ hp
  simp only [Goes, exec, Prog.wp_bind, Prog.wp_pure]
  refine (deletePieceLocked_spec h.rep hmem).imp ?_
  intro del m' hreleased
  cases hreleased with
  | cache keeps rep len others brk freed counted =>
    rw [herase] at rep others
    refine ⟨⟨_, rep, by rw [counted, hcount], ?_, h.sound, fun hd => ?_⟩, fun q _ hq _ => ?_⟩
    · show (s.handed.erase p).length + s.allocating < _
      omega
    · exact absurd (hd.symm.trans halive) (by decide)
    · exact others q (List.mem_append_left _ hq)
  | trim n full hn few two queue counted bounds same =>
    have hone : n ≤ 1 := two (by rw [h.counted]; omega) (by rw [h.counted]; omega)
    have hreduce : ((p :: cached.take n).map some).reduceOption = p :: cached.take n := by
      simp [List.reduceOption, List.filterMap_map]
    have hperm : (cached ++ (s.handed ++ s.pending)).Perm
        (cached.drop n ++ (s.handed.erase p ++ (p :: cached.take n ++ s.pending))) := by
      have hcached : cached = cached.take n ++ cached.drop n := (List.take_append_drop n cached).symm
      have hhanded := List.perm_cons_erase hp
      rw [List.perm_iff_count] at hhanded ⊢
      intro a
      have hcount₁ := congrArg (List.count a) hcached
      have hcount₂ := hhanded a
      simp only [List.count_append, List.count_cons] at hcount₁ hcount₂ ⊢
      omega
    have hpending : (withArray ((p :: cached.take n).map some) s.deleting).flatMap
        List.reduceOption = p :: cached.take n ++ s.pending := by
      rw [withArray_pieces, hreduce]
      rfl
    have hlt : m'.pool.usingCount < 4294967296 := by
      rw [counted]
      exact u32Sub_lt _ _
    refine ⟨⟨cached.drop n, ?_, by rw [counted, hcount], ?_, ?_, fun hd => ?_⟩, fun q _ _ _ => ?_⟩
    · show PoolRep m' _ (s.handed.erase p ++ List.flatMap _ _)
      rw [hpending]
      exact h.rep.moved hperm same queue hlt (by simpa using bounds)
    · show (s.handed.erase p).length + s.allocating < _
      omega
    · show Sound (withArray ((p :: cached.take n).map some) s.deleting)
      apply h.sound.withArray
      · intro hnone
        obtain ⟨q, _, hq⟩ := List.mem_map.mp hnone
        cases hq
      · simp only [List.length_map, List.length_cons, List.length_take]
        omega
    · exact absurd (hd.symm.trans halive) (by decide)
    · rw [same]

theorem Conserved.delete {delArray : List PiecePtr} (h : Conserved s m cached)
    (enabled : s.Enabled (.delete delArray)) : Goes s build m (.delete delArray) := by
  have hmem : delArray ∈ s.deleting := enabled
  obtain ⟨hnone, htwo⟩ := h.sound delArray hmem
  cases delArray with
  | nil => exact (Prog.wp_pure ..).mpr ⟨⟨cached, h⟩, fun _ _ _ _ => rfl⟩
  | cons d rest =>
    cases d with
    | none => exact absurd (List.mem_cons_self ..) hnone
    | some p =>
      have hpending : s.pending.Perm
          (p :: (rest.reduceOption ++ (s.deleting.erase (some p :: rest)).flatMap List.reduceOption)) :=
        (List.perm_cons_erase hmem).flatMap_right _
      have hp : m.Live p := h.rep.live_owned (List.mem_append_right _ (hpending.mem_iff.mpr (by simp)))
      simp only [Goes, exec, Prog.wp_bind, wp_deleteCell hp, Prog.wp_pure]
      refine ⟨⟨cached, ?_, h.counted, h.few, ?_, h.destroyed⟩, fun _ _ _ _ => trivial⟩
      · have hperm : (cached ++ (s.handed ++ s.pending)).Perm
            ([p] ++ (cached ++ (s.handed ++ (withArray rest (s.deleting.erase (some p :: rest))).flatMap
              List.reduceOption))) := by
          rw [withArray_pieces]
          rw [List.perm_iff_count] at hpending ⊢
          intro a
          have hcount := hpending a
          simp only [List.count_append, List.count_cons, List.count_nil] at hcount ⊢
          omega
        exact h.rep.free hperm h.rep.queue (Nat.le_refl _)
      · refine Sound.withArray (fun del hdel => h.sound del (List.mem_of_mem_erase hdel)) ?_ ?_
        · exact fun hin => hnone (List.mem_cons_of_mem _ hin)
        · rw [List.length_cons] at htwo
          omega

theorem Conserved.use {c : Piece} (h : Conserved s m cached) (enabled : s.Enabled (.use p c)) :
    Goes s build m (.use p c) := by
  have hp : m.Live p := h.rep.live_owned (List.mem_append_left _ enabled)
  simp only [Goes, exec, Prog.wp_bind, wp_store hp, Prog.wp_pure]
  refine ⟨⟨cached, h.rep.set (List.mem_append_left _ enabled) c, h.counted, h.few, h.sound,
    h.destroyed⟩, fun q _ _ hnot => Mem.set_cell_ne _ _ ?_⟩
  rintro rfl
  exact hnot c rfl

theorem Conserved.destroy (h : Conserved s m cached) : Goes s build m .destroy := by
  have hsmall : cached.length < 4294967296 := by
    have := h.rep.cacheLe
    have := h.counted
    have := h.few
    omega
  simp only [Goes, exec, Prog.wp_bind, Prog.wp_pure]
  refine (clearPool_spec h.rep hsmall).imp ?_
  rintro _ m' ⟨rep, hcell, hcount⟩
  refine ⟨⟨[], rep, hcount.trans h.counted, h.few, h.sound, fun _ => rfl⟩, fun q _ _ _ => ?_⟩
  rw [hcell]

theorem Conserved.goes {a : PieceAction} (h : Conserved s m cached) (enabled : s.Enabled a)
    (few : s.Few a) : Goes s build m a := by
  cases a with
  | newPiece => exact h.newPiece few
  | allocate => exact h.allocate enabled
  | deletePiece p => exact h.deletePiece enabled
  | delete delArray => exact h.delete enabled
  | use p c => exact h.use enabled
  | destroy => exact h.destroy

end Steps

/-! ## Runs -/

section Runs

variable {build : Build} {as : List PieceAction} {s : PoolThreads} {m : Mem}

theorem run_conserved (h : machine.Run build (fun _ s _ a => s.Few a) as s m) :
    ∃ cached, Conserved s m cached := by
  refine h.invariant (I := fun s m => ∃ cached, Conserved s m cached) ?_ ?_
  · rintro s m ⟨rfl, cell, rfl⟩
    exact ⟨[], PoolRep.initial cell, rfl, by decide, fun _ hdel => (by cases hdel), fun _ => rfl⟩
  · intro as s m a s' m' _ ih enabled few done
    obtain ⟨cached, hconserved⟩ := ih
    have hgoes : Goes s build m a := hconserved.goes enabled few
    obtain ⟨s₁, m₁, hrun, hafter, _⟩ := hgoes
    cases done.symm.trans hrun
    exact hafter

/-- In every run of any number of threads, in any order of their critical sections, allocations
    and deletions: `using_count_` is the number of pieces handed out and of threads that are
    allocating one; every piece ever allocated is in exactly one place, held by a thread, in a
    `del_array`, in the cache or freed; and whatever a thread does next does not fault, and
    leaves the pieces the others hold as they are.  `~PiecePool` empties the cache. -/
theorem pool_conserves_among_threads
    (h : machine.Run build (fun _ s _ a => s.Few a) as s m) :
    m.pool.usingCount = s.handed.length + s.allocating ∧
    (cached m).length ≤ m.pool.usingCount + 8 ∧
    (s.handed ++ (s.pending ++ (cached m ++ m.freed))).Perm (List.range m.brk) ∧
    (∀ delArray ∈ s.deleting, none ∉ delArray ∧ delArray.length ≤ 2) ∧
    (s.destroyed = true → cached m = []) ∧
    ∀ a, s.Enabled a → s.Few a → ∃ s' m', s.exec a build m = .ok (s', m') ∧
      ∀ p ∈ s.handed, p ∈ s'.handed → (∀ c, a ≠ .use p c) → m'.cell p = m.cell p := by
  obtain ⟨ps, hconserved⟩ := run_conserved h
  have hcached : cached m = ps := hconserved.rep.queue.pieces_eq fun _ hp =>
    hconserved.rep.live_cached hp
  rw [hcached]
  refine ⟨hconserved.counted, hconserved.rep.cacheLe, ?_, hconserved.sound, hconserved.destroyed, ?_⟩
  · have hperm := places_perm hconserved.rep
    rwa [List.append_assoc] at hperm
  · intro a enabled few
    have hgoes : Goes s build m a := hconserved.goes enabled few
    obtain ⟨s', m', hrun, _, hothers⟩ := hgoes
    exact ⟨s', m', hrun, hothers⟩

/-- Two threads ask for a piece at once, and both find the queue empty. -/
theorem pool_conserves_among_threads_two : ∃ (as : List PieceAction) (s : PoolThreads) (m : Mem),
    machine.Run .debug (fun _ s _ a => s.Few a) as s m ∧ s.handed = [0] ∧ s.allocating = 1 ∧
    m.pool.usingCount = s.handed.length + s.allocating := by
  have r : machine.Run .debug (fun _ s _ a => s.Few a) [] {} emptyMem := .start ⟨rfl, _, rfl⟩
  have r := r.step PieceAction.newPiece rfl (fun _ => by decide) rfl
  have r := r.step PieceAction.newPiece rfl (fun _ => by decide) rfl
  have r := r.step PieceAction.allocate (Nat.zero_lt_succ 1) (by intro h; cases h) rfl
  exact ⟨_, _, _, r, rfl, rfl, (pool_conserves_among_threads r).1⟩

end Runs

end PoolThreads

end Netpp
