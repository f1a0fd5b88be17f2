import Mathlib.Data.List.Nodup
import Netpp.Piece.Queue

/-! # The piece pool

`newPiece` and `deletePiece` of `piece_allocator.cpp`.  The pool keeps released
pieces in `queue_`, up to `using_count_ + BASE_CACHE_COUNT` of them, and gives
the rest back to the heap.

`PoolRep m cached owned` is the ownership invariant: the live cells are exactly
the `cached` ones, chained in the pool's queue, and the `owned` ones that are
handed out.  The two bounds on the cache are what the unsigned arithmetic of
`deletePiece` rests on; they hold even where `using_count_` has wrapped.

* `newPiece_spec` / `deletePiece_spec` — the two calls move one piece between
  `cached`, `owned` and the heap and leave the other owned cells alone;
* `Owns` — the view clients use: what is handed out, and by how much
  `using_count_` exceeds it.
-/

namespace Netpp

/-- `MAX_DELETE_ONCE` -/
def kMaxDeleteOnce : Nat := 8

/-- `BASE_CACHE_COUNT` -/
def kBaseCacheCount : Nat := 8

/-- `PiecePool::newPiece` -/
def newPiece : Exec Ptr := do
  let pool ← getPool
  let r ← pool.queue.pop
  setPool { queue := r.2, usingCount := u32 (pool.usingCount + 1) }
  match r.1 with
  | some item =>
    let c ← load (some item)
    store (some item) { c with next := none, off := 0, len := 0 }
    pure item
  | none =>
    let item ← newCell
    let c ← load (some item)
    store (some item) { c with next := none, off := 0, len := 0 }
    pure item

/-- The loop that fills `del_array` from the queue. -/
def popMany : Nat → Queue → Exec (List PiecePtr × Queue)
  | 0, q => pure ([], q)
  | n + 1, q => do
    let r ← q.pop
    let rs ← popMany n r.2
    pure (r.1 :: rs.1, rs.2)

/-- The part of `PiecePool::deletePiece` that holds the mutex; it returns the
    `del_count` entries of `del_array`. -/
def deletePieceLocked (item : PiecePtr) : Exec (List PiecePtr) := do
  let pool ← getPool
  let usingCount := u32Sub pool.usingCount 1
  let limit := u32 (usingCount + kBaseCacheCount)
  if pool.queue.size < limit then
    let q ← pool.queue.push item
    setPool { queue := q, usingCount := usingCount }
    pure []
  else
    let delCount := min (u32 (pool.queue.size - limit + 1)) kMaxDeleteOnce
    let r ← popMany (delCount - 1) pool.queue
    setPool { queue := r.2, usingCount := usingCount }
    pure ((item :: r.1).take delCount)

def deleteAll : List PiecePtr → Exec Unit
  | [] => pure ()
  | p :: ps => do
    deleteCell p
    deleteAll ps

/-- `PiecePool::deletePiece` -/
def deletePiece (item : PiecePtr) : Exec Unit := do
  let delArray ← deletePieceLocked item
  deleteAll delArray

/-- `deletePiece` will keep the piece it is given in the cache. -/
def PiecePool.Keeps (pool : PiecePool) : Prop :=
  pool.queue.size < u32 (u32Sub pool.usingCount 1 + kBaseCacheCount)

instance (pool : PiecePool) : Decidable pool.Keeps := inferInstanceAs (Decidable (_ < _))

/-! ## The ownership invariant -/

structure PoolRep (m : Mem) (cached owned : List Ptr) : Prop where
  queue : m.pool.queue.Rep m.cell cached
  distinct : (cached ++ owned).Nodup
  live : ∀ p, m.Live p ↔ p ∈ cached ∨ p ∈ owned
  freedOnce : m.freed.Nodup
  freedOld : ∀ p ∈ m.freed, p < m.brk
  usingLt : m.pool.usingCount < 4294967296
  cacheLe : cached.length ≤ m.pool.usingCount + 8
  cacheSum : cached.length + m.pool.usingCount ≤ 4294967296 + 7

namespace PoolRep

variable {m : Mem} {cached owned owned' : List Ptr} {p : Ptr}

theorem initial (cell : Ptr → Piece) : PoolRep { cell := cell } [] [] where
  queue := Queue.Rep.empty cell
  distinct := List.nodup_nil
  live := by simp [Mem.Live]
  freedOnce := List.nodup_nil
  freedOld := by simp
  usingLt := by simp
  cacheLe := by simp
  cacheSum := by simp

theorem perm (h : PoolRep m cached owned) (hperm : owned.Perm owned') : PoolRep m cached owned' :=
  { h with
    distinct := (hperm.append_left cached).nodup_iff.mp h.distinct
    live := fun p => by rw [h.live p, hperm.mem_iff] }

theorem live_cached (h : PoolRep m cached owned) (hp : p ∈ cached) : m.Live p :=
  (h.live p).mpr (.inl hp)

theorem live_owned (h : PoolRep m cached owned) (hp : p ∈ owned) : m.Live p :=
  (h.live p).mpr (.inr hp)

theorem not_cached (h : PoolRep m cached owned) (hp : p ∈ owned) : p ∉ cached := fun hc =>
  (List.nodup_append.mp h.distinct).2.2 p hc p hp rfl

theorem not_owned (h : PoolRep m cached owned) (hp : p ∈ cached) : p ∉ owned := fun ho =>
  h.not_cached ho hp

theorem nodup_owned (h : PoolRep m cached owned) : owned.Nodup :=
  (List.nodup_append.mp h.distinct).2.1

theorem nodup_cached (h : PoolRep m cached owned) : cached.Nodup :=
  (List.nodup_append.mp h.distinct).1

theorem frame {m' : Mem} (h : PoolRep m cached owned) (brk : m'.brk = m.brk)
    (freed : m'.freed = m.freed) (pool : m'.pool = m.pool)
    (same : ∀ p, p ∉ owned → m'.cell p = m.cell p) : PoolRep m' cached owned where
  queue := by
    rw [pool]
    exact h.queue.frame fun p hp => same p (h.not_owned hp)
  distinct := h.distinct
  live := fun p => by rw [← h.live p]; simp [Mem.Live, brk, freed]
  freedOnce := freed ▸ h.freedOnce
  freedOld := by rw [freed, brk]; exact h.freedOld
  usingLt := pool ▸ h.usingLt
  cacheLe := pool ▸ h.cacheLe
  cacheSum := pool ▸ h.cacheSum

theorem set (h : PoolRep m cached owned) (hp : p ∈ owned) (c : Piece) :
    PoolRep (m.set p c) cached owned :=
  h.frame rfl rfl rfl fun _ hq => Mem.set_cell_ne m c fun e => hq (e ▸ hp)

theorem relinked {m' : Mem} {ps : List Ptr} (h : PoolRep m cached owned)
    (hlink : m.Relinked m' ps) (sub : ∀ p ∈ ps, p ∈ owned) : PoolRep m' cached owned :=
  h.frame hlink.brk hlink.freed hlink.pool fun p hp => hlink.outside p fun hps => hp (sub p hps)

end PoolRep

section Specs

variable {build : Build} {m : Mem} {cached owned : List Ptr} {p : Ptr}

/-- What `newPiece` leaves of the memory: one more piece is handed out, zeroed,
    and no other cell has changed. -/
structure Handed (m m' : Mem) (cached owned : List Ptr) (p : Ptr) : Prop where
  rep : PoolRep m' cached.tail (p :: owned)
  source : cached.head? = some p ∨ cached = [] ∧ p = m.brk
  zeroed : m'.cell p = { m.cell p with next := none, off := 0, len := 0 }
  others : ∀ q, q ≠ p → m'.cell q = m.cell q
  freed : m'.freed = m.freed
  counted : m'.pool.usingCount = u32 (m.pool.usingCount + 1)

theorem newPiece_spec (h : PoolRep m cached owned) :
    newPiece.wp build m fun p m' => Handed m m' cached owned p := by
  have hlt := h.usingLt
  have hle := h.cacheLe
  have hsum := h.cacheSum
  cases cached with
  | nil =>
    simp only [newPiece, Prog.wp_bind, wp_getPool]
    refine (Queue.pop_empty h.queue).imp ?_
    rintro r m' ⟨rfl, rfl⟩
    have hlive : ({ m' with pool := { m'.pool with usingCount := u32 (m'.pool.usingCount + 1) },
                            brk := m'.brk + 1 } : Mem).Live m'.brk :=
      ⟨Nat.lt_succ_self _, fun hf => Nat.lt_irrefl _ (h.freedOld _ hf)⟩
    simp only [wp_setPool, Prog.wp_bind, wp_newCell, wp_load hlive, wp_store hlive, Prog.wp_pure]
    refine ⟨⟨?_, ?_, ?_, h.freedOnce, ?_, ?_, ?_, ?_⟩, .inr ⟨rfl, rfl⟩, by simp, ?_, rfl, rfl⟩
    · exact h.queue.frame fun q hq => by simp at hq
    · have hfresh : m'.brk ∉ owned := fun ho => Nat.lt_irrefl _ (h.live_owned ho).1
      simpa using ⟨hfresh, h.nodup_owned⟩
    · intro q
      have := h.live q
      have hbrk : m'.brk ∉ m'.freed := fun hf => Nat.lt_irrefl _ (h.freedOld _ hf)
      simp only [Mem.Live, Mem.set_brk, Mem.set_freed, List.tail_nil, List.not_mem_nil, false_or,
        List.mem_cons] at this ⊢
      rw [← this, Nat.lt_succ_iff_lt_or_eq]
      constructor
      · rintro ⟨hq | rfl, hf⟩
        · exact .inr ⟨hq, hf⟩
        · exact .inl rfl
      · rintro (rfl | ⟨hq, hf⟩)
        · exact ⟨.inr rfl, hbrk⟩
        · exact ⟨.inl hq, hf⟩
    · intro q hq
      exact Nat.lt_succ_of_lt (h.freedOld q hq)
    · simp only [Mem.set_pool, u32]; omega
    · simp
    · simp only [Mem.set_pool, u32, List.tail_nil, List.length_nil]; omega
    · intro q hq
      rw [Mem.set_cell_ne _ _ hq]
  | cons a rest =>
    have ha : m.Live a := h.live_cached (by simp)
    have hnodup := h.distinct
    simp only [List.cons_append, List.nodup_cons, List.mem_append, not_or] at hnodup
    simp only [newPiece, Prog.wp_bind, wp_getPool]
    refine (Queue.pop_spec h.queue ha).imp ?_
    rintro ⟨item, q⟩ m' ⟨rfl, rfl, hq⟩
    have hlive : ({ m' with pool := { queue := q, usingCount := u32 (m'.pool.usingCount + 1) } } :
        Mem).Live a := ha
    simp only [wp_setPool, Prog.wp_bind, wp_load hlive, wp_store hlive, Prog.wp_pure]
    refine ⟨⟨?_, ?_, ?_, h.freedOnce, h.freedOld, ?_, ?_, ?_⟩, .inl rfl, by simp, ?_, rfl, rfl⟩
    · refine hq.frame fun b hb => ?_
      have hba : b ≠ a := fun e => hnodup.1.1 (e ▸ hb)
      rw [Mem.set_cell_ne _ _ hba]
    · exact (List.perm_middle.nodup_iff).mpr (List.nodup_cons.mpr
        ⟨by simpa [not_or] using hnodup.1, hnodup.2⟩)
    · intro b
      have := h.live b
      simp only [Mem.Live, Mem.set_brk, Mem.set_freed, List.tail_cons, List.mem_cons] at this ⊢
      rw [this]
      tauto
    · simp only [Mem.set_pool, u32]; omega
    · simp only [Mem.set_pool, u32, List.tail_cons, List.length_cons] at hle hsum ⊢
      omega
    · simp only [Mem.set_pool, u32, List.tail_cons, List.length_cons] at hle hsum ⊢
      omega
    · intro b hb
      rw [Mem.set_cell_ne _ _ hb]

theorem popMany_spec {q : Queue} {n : Nat} (hq : q.Rep m.cell cached)
    (live : ∀ a ∈ cached, m.Live a) (hn : n ≤ cached.length) :
    (popMany n q).wp build m fun r m' =>
      m' = m ∧ r.1 = (cached.take n).map some ∧ r.2.Rep m.cell (cached.drop n) := by
  induction n generalizing q cached with
  | zero => simpa [popMany] using hq
  | succ n ih =>
    cases cached with
    | nil => simp at hn
    | cons a rest =>
      simp only [popMany, Prog.wp_bind]
      refine (Queue.pop_spec hq (live a (by simp))).imp ?_
      rintro ⟨item, q'⟩ m' ⟨rfl, rfl, hq'⟩
      refine (ih hq' (fun b hb => live b (by simp [hb])) (by simpa using hn)).imp ?_
      rintro ⟨items, q''⟩ m'' ⟨rfl, rfl, hq''⟩
      simpa using hq''

theorem deleteAll_spec {ps : List Ptr} (distinct : ps.Nodup) (live : ∀ a ∈ ps, m.Live a) :
    (deleteAll (ps.map some)).wp build m fun _ m' =>
      m' = { m with freed := ps.reverse ++ m.freed } := by
  induction ps generalizing m with
  | nil => simp [deleteAll]
  | cons a rest ih =>
    obtain ⟨hnot, hrest⟩ := List.nodup_cons.mp distinct
    simp only [List.map_cons, deleteAll, Prog.wp_bind, wp_deleteCell (live a (by simp))]
    refine (ih hrest fun b hb => ?_).imp ?_
    · have hb' := live b (by simp [hb])
      have hne : b ≠ a := fun e => hnot (e ▸ hb)
      exact ⟨hb'.1, by simpa [hne] using hb'.2⟩
    · rintro _ m' rfl
      simp

/-- The two outcomes of the critical section of `deletePiece`: the piece joins
    the cache, or it is deleted together with the first `n` cached pieces.  Unless
    the unsigned counters wrap, `n` is at most one. -/
inductive Released (m m' : Mem) (cached owned : List Ptr) (p : Ptr) : List PiecePtr → Prop where
  | cache (keeps : m.pool.Keeps) (rep : PoolRep m' (cached ++ [p]) (owned.erase p))
      (len : (m'.cell p).len = (m.cell p).len)
      (others : ∀ q ∈ owned.erase p, m'.cell q = m.cell q)
      (brk : m'.brk = m.brk) (freed : m'.freed = m.freed)
      (counted : m'.pool.usingCount = u32Sub m.pool.usingCount 1) :
      Released m m' cached owned p []
  | trim (n : Nat) (full : ¬ m.pool.Keeps) (hn : n ≤ cached.length) (few : n + 1 ≤ kMaxDeleteOnce)
      (two : 1 ≤ m.pool.usingCount → m.pool.usingCount + 7 < 4294967296 → n ≤ 1)
      (queue : m'.pool.queue.Rep m.cell (cached.drop n))
      (counted : m'.pool.usingCount = u32Sub m.pool.usingCount 1)
      (bounds : cached.length - n ≤ m'.pool.usingCount + 8 ∧
        cached.length - n + m'.pool.usingCount ≤ 4294967296 + 7)
      (same : m' = { m with pool := m'.pool }) :
      Released m m' cached owned p ((p :: cached.take n).map some)

theorem cache_bounds_push {c u : Nat} (hlt : u < 4294967296)
    (hsum : c + u ≤ 4294967296 + 7) (room : c < u32 (u32Sub u 1 + kBaseCacheCount)) :
    c + 1 ≤ u32Sub u 1 + 8 ∧ c + 1 + u32Sub u 1 ≤ 4294967296 + 7 := by
  simp only [u32Sub, u32, kBaseCacheCount] at *
  omega

theorem trim_bounds {c u d : Nat} (hlt : u < 4294967296) (hle : c ≤ u + 8)
    (hsum : c + u ≤ 4294967296 + 7) (full : ¬ c < u32 (u32Sub u 1 + kBaseCacheCount))
    (hd : min (u32 (c - u32 (u32Sub u 1 + kBaseCacheCount) + 1)) kMaxDeleteOnce = d) :
    1 ≤ d ∧ d ≤ kMaxDeleteOnce ∧ d - 1 ≤ c ∧
      (1 ≤ u → u + 7 < 4294967296 → d - 1 ≤ 1) ∧
      c - (d - 1) ≤ u32Sub u 1 + 8 ∧ c - (d - 1) + u32Sub u 1 ≤ 4294967296 + 7 := by
  simp only [u32Sub, u32, kBaseCacheCount, kMaxDeleteOnce] at *
  omega

theorem take_delArray {d : Nat} (hd : 1 ≤ d) :
    (some p :: (cached.take (d - 1)).map some).take d = (p :: cached.take (d - 1)).map some := by
  apply List.take_of_length_le
  simp only [List.length_cons, List.length_map, List.length_take]
  omega

theorem u32Sub_lt (a b : Nat) : u32Sub a b < 4294967296 := Nat.mod_lt _ (by decide)

theorem deletePieceLocked_spec (h : PoolRep m cached owned) (hp : p ∈ owned) :
    (deletePieceLocked (some p)).wp build m fun del m' => Released m m' cached owned p del := by
  have hlt := h.usingLt
  have hle := h.cacheLe
  have hsum := h.cacheSum
  have hlen : cached.length < 4294967296 := by omega
  have hsize : m.pool.queue.size = cached.length := by
    rw [h.queue.size]; exact Nat.mod_eq_of_lt hlen
  have hnot := h.not_cached hp
  simp only [deletePieceLocked, Prog.wp_bind, wp_getPool, hsize]
  split
  · rename_i hcache
    simp only [Prog.wp_bind]
    refine (Queue.push_spec h.queue (fun a ha => h.live_cached ha) (h.live_owned hp) hnot).imp ?_
    rintro q m' ⟨hq, hlink⟩
    simp only [wp_setPool, Prog.wp_pure]
    have hkeeps : m.pool.Keeps := by rw [PiecePool.Keeps, hsize]; exact hcache
    refine .cache hkeeps ⟨hq, ?_, ?_, ?_, ?_, ?_, ?_, ?_⟩ (hlink.len p) ?_ hlink.brk hlink.freed rfl
    · have hperm : (cached ++ owned).Perm (cached ++ [p] ++ owned.erase p) := by
        rw [List.append_assoc, List.singleton_append]
        exact (List.perm_cons_erase hp).append_left cached
      exact hperm.nodup_iff.mp h.distinct
    · intro b
      have hb := h.live b
      have hmem := h.nodup_owned.mem_erase_iff (a := b) (b := p)
      simp only [Mem.Live, hlink.brk, hlink.freed, List.mem_append, List.mem_singleton] at hb ⊢
      rw [hb, hmem]
      by_cases hbp : b = p
      · subst hbp; simp [hp]
      · simp [hbp]
    · exact hlink.freed ▸ h.freedOnce
    · rw [hlink.freed, hlink.brk]; exact h.freedOld
    · exact u32Sub_lt _ _
    · simpa using (cache_bounds_push hlt hsum hcache).1
    · simpa using (cache_bounds_push hlt hsum hcache).2
    · intro b hb
      obtain ⟨hbp, hbo⟩ := h.nodup_owned.mem_erase_iff.mp hb
      refine hlink.outside b ?_
      simp only [List.mem_cons, not_or]
      exact ⟨hbp, h.not_cached hbo⟩
  · rename_i hfull
    generalize hdel : min (u32 (cached.length - u32 (u32Sub m.pool.usingCount 1 + kBaseCacheCount) + 1))
      kMaxDeleteOnce = delCount
    obtain ⟨hone, hmax, hn, htwo, hbounds⟩ := trim_bounds hlt hle hsum hfull hdel
    simp only [Prog.wp_bind]
    refine (popMany_spec h.queue (fun a ha => h.live_cached ha) hn).imp ?_
    rintro ⟨items, q⟩ m' ⟨rfl, rfl, hq⟩
    simp only [wp_setPool, Prog.wp_pure]
    rw [take_delArray hone]
    have hkeeps : ¬ m'.pool.Keeps := by rw [PiecePool.Keeps, hsize]; exact hfull
    exact .trim (delCount - 1) hkeeps hn (by omega) htwo hq rfl hbounds rfl

/-- `deletePiece` takes back `p` and no other piece that is handed out.  What is
    left of `p` can still be read only if the pool has kept it. -/
theorem deletePiece_spec (h : PoolRep m cached owned) (hp : p ∈ owned) :
    (deletePiece (some p)).wp build m fun _ m' =>
      (∃ cached', PoolRep m' cached' (owned.erase p)) ∧
      (∀ q ∈ owned.erase p, m'.cell q = m.cell q) ∧
      m'.pool.usingCount = u32Sub m.pool.usingCount 1 ∧
      (m'.Live p ↔ m.pool.Keeps) ∧ (m'.cell p).len = (m.cell p).len := by
  simp only [deletePiece, Prog.wp_bind]
  refine (deletePieceLocked_spec h hp).imp ?_
  rintro del m' hrel
  cases hrel with
  | cache keeps rep len others brk freed counted =>
    simp only [deleteAll, Prog.wp_pure]
    exact ⟨⟨_, rep⟩, others, counted, iff_of_true (rep.live_cached (by simp)) keeps, len⟩
  | trim n full hn few two queue counted bounds same =>
    have hlive : ∀ a, m'.Live a ↔ m.Live a := by rw [same]; exact fun a => Iff.rfl
    have hcell : m'.cell = m.cell := by rw [same]
    have hbrk : m'.brk = m.brk := by rw [same]
    have hfreed : m'.freed = m.freed := by rw [same]
    have hsub : ∀ a ∈ cached.take n, a ∈ cached := fun a => List.mem_of_mem_take
    have hnot := h.not_cached hp
    have hdistinct : (p :: cached.take n).Nodup :=
      List.nodup_cons.mpr ⟨fun hm => hnot (hsub p hm), h.nodup_cached.sublist (List.take_sublist n cached)⟩
    refine (deleteAll_spec hdistinct fun a ha => ?_).imp ?_
    · rw [hlive]
      rcases List.mem_cons.mp ha with rfl | ha
      · exact h.live_owned hp
      · exact h.live_cached (hsub a ha)
    · rintro _ m'' rfl
      refine ⟨⟨cached.drop n, ?_, ?_, ?_, ?_, ?_, ?_, ?_, ?_⟩, ?_, counted,
        iff_of_false (by simp [Mem.Live]) full, congrArg Piece.len (congrFun hcell p)⟩
      · exact hcell ▸ queue
      · exact (List.drop_sublist n cached).append List.erase_sublist |>.nodup h.distinct
      · intro a
        have ha := h.live a
        have hsplit : a ∈ cached ↔ a ∈ cached.take n ∨ a ∈ cached.drop n := by
          rw [← List.mem_append, List.take_append_drop]
        have hex : a ∈ cached.take n → a ∉ cached.drop n := fun h1 h2 =>
          (List.nodup_append.mp ((List.take_append_drop n cached).symm ▸ h.nodup_cached)).2.2 a h1 a h2 rfl
        have hown : a ∈ cached.take n → a ∉ owned := fun h1 => h.not_owned (hsub a h1)
        have hpc : p ∉ cached.drop n := fun hm => hnot (List.mem_of_mem_drop hm)
        rw [h.nodup_owned.mem_erase_iff]
        simp only [Mem.Live, hbrk, hfreed, List.reverse_cons, List.append_assoc, List.mem_append,
          List.mem_reverse, List.singleton_append, List.mem_cons, not_or] at ha ⊢
        by_cases hap : a = p
        · subst hap
          simp [hpc]
        · simp only [hap, not_false_eq_true, true_and, ne_eq]
          rw [hsplit] at ha
          grind
      · rw [hfreed]
        refine List.nodup_append.mpr ⟨List.nodup_reverse.mpr hdistinct, h.freedOnce, ?_⟩
        intro a ha b hb hab
        subst hab
        have hliv : m.Live a := by
          rcases List.mem_cons.mp (List.mem_reverse.mp ha) with rfl | hc
          · exact h.live_owned hp
          · exact h.live_cached (hsub a hc)
        exact hliv.2 hb
      · intro a ha
        simp only [hbrk, hfreed] at ha ⊢
        rcases List.mem_append.mp ha with ha | ha
        · rcases List.mem_cons.mp (List.mem_reverse.mp ha) with rfl | hc
          · exact (h.live_owned hp).1
          · exact (h.live_cached (hsub a hc)).1
        · exact h.freedOld a ha
      · show m'.pool.usingCount < 4294967296
        rw [counted]; exact u32Sub_lt _ _
      · simpa using bounds.1
      · simpa using bounds.2
      · intro a _
        exact congrFun hcell a

end Specs

/-! ## Ownership as clients see it -/

/-- The pieces handed out are exactly `owned`.  `using_count_` exceeds their
    number by `bypassed`, the count of pieces that were released with a bare
    `delete` instead of `deletePiece`. -/
structure Owns (m : Mem) (owned : List Ptr) (bypassed : Nat) : Prop where
  pool : ∃ cached, PoolRep m cached owned
  counted : m.pool.usingCount = u32 (owned.length + bypassed)

/-- The cells in `ps` are the same in both memories. -/
def SameOn (ps : List Ptr) (m m' : Mem) : Prop := ∀ p ∈ ps, m'.cell p = m.cell p

theorem SameOn.trans {ps : List Ptr} {m m' m'' : Mem} (h : SameOn ps m m') (h' : SameOn ps m' m'') :
    SameOn ps m m'' := fun p hp => (h' p hp).trans (h p hp)

theorem SameOn.mono {ps qs : List Ptr} {m m' : Mem} (h : SameOn ps m m') (sub : ∀ q ∈ qs, q ∈ ps) :
    SameOn qs m m' := fun q hq => h q (sub q hq)

theorem SameOn.left {ps qs : List Ptr} {m m' : Mem} (h : SameOn (ps ++ qs) m m') : SameOn ps m m' :=
  h.mono fun _ hq => List.mem_append_left _ hq

theorem SameOn.right {ps qs : List Ptr} {m m' : Mem} (h : SameOn (ps ++ qs) m m') : SameOn qs m m' :=
  h.mono fun _ hq => List.mem_append_right _ hq

theorem SameOn.refl (ps : List Ptr) (m : Mem) : SameOn ps m m := fun _ _ => rfl

namespace Owns

variable {build : Build} {m m' : Mem} {owned owned' rest ps : List Ptr} {k : Nat} {p : Ptr}

theorem initial (cell : Ptr → Piece) : Owns { cell := cell } [] 0 :=
  ⟨⟨[], PoolRep.initial cell⟩, rfl⟩

theorem perm (h : Owns m owned k) (hperm : owned.Perm owned') : Owns m owned' k := by
  obtain ⟨⟨cached, hpool⟩, hcount⟩ := h
  exact ⟨⟨cached, hpool.perm hperm⟩, by rw [hcount, hperm.length_eq]⟩

theorem live (h : Owns m owned k) (hp : p ∈ owned) : m.Live p := by
  obtain ⟨⟨_, hpool⟩, _⟩ := h
  exact hpool.live_owned hp

theorem nodup (h : Owns m owned k) : owned.Nodup := by
  obtain ⟨⟨_, hpool⟩, _⟩ := h
  exact hpool.nodup_owned

theorem set (h : Owns m owned k) (hp : p ∈ owned) (c : Piece) : Owns (m.set p c) owned k := by
  obtain ⟨⟨cached, hpool⟩, hcount⟩ := h
  exact ⟨⟨cached, hpool.set hp c⟩, hcount⟩

theorem relinked (h : Owns m owned k) (hlink : m.Relinked m' ps) (sub : ∀ p ∈ ps, p ∈ owned) :
    Owns m' owned k := by
  obtain ⟨⟨cached, hpool⟩, hcount⟩ := h
  exact ⟨⟨cached, hpool.relinked hlink sub⟩, by rw [hlink.pool, hcount]⟩

theorem length_le (h : Owns m owned k) : owned.length ≤ m.brk :=
  Queue.length_le_of_live h.nodup fun _ hp => h.live hp

/-- Right after `newPiece` there is room in the cache for one piece more, unless
    `using_count_` is about to wrap. -/
theorem newPiece_keeps (h : Owns m owned k) :
    newPiece.wp build m fun p m' =>
      p ∉ owned ∧ Owns m' (p :: owned) k ∧
      m'.cell p = { m.cell p with next := none, off := 0, len := 0 } ∧ SameOn owned m m' ∧
      (owned.length + k + 9 < 4294967296 → m'.pool.Keeps) := by
  obtain ⟨⟨cached, hpool⟩, hcount⟩ := h
  refine (newPiece_spec hpool).imp fun p m' hh => ?_
  have hfresh : p ∉ owned := (List.nodup_cons.mp hh.rep.nodup_owned).1
  refine ⟨hfresh, ⟨⟨_, hh.rep⟩, ?_⟩, hh.zeroed, fun q hq => hh.others q fun e => hfresh (e ▸ hq), ?_⟩
  · rw [hh.counted, hcount]
    simp only [u32, List.length_cons]
    omega
  · intro hroom
    have hsize := hh.rep.queue.size
    have hcache := hpool.cacheLe
    have husing : m.pool.usingCount = owned.length + k := hcount.trans (Nat.mod_eq_of_lt (by omega))
    rw [PiecePool.Keeps, hsize, hh.counted]
    simp only [u32, u32Sub, kBaseCacheCount, List.length_tail]
    omega

theorem newPiece (h : Owns m owned k) :
    newPiece.wp build m fun p m' =>
      p ∉ owned ∧ Owns m' (p :: owned) k ∧
      m'.cell p = { m.cell p with next := none, off := 0, len := 0 } ∧ SameOn owned m m' :=
  h.newPiece_keeps.imp fun _ _ ⟨hfresh, howns, hzero, hsame, _⟩ => ⟨hfresh, howns, hzero, hsame⟩

theorem deletePiece_keeps (h : Owns m owned k) (hperm : owned.Perm (p :: rest)) :
    (Netpp.deletePiece (some p)).wp build m fun _ m' => Owns m' rest k ∧ SameOn rest m m' ∧
      (m'.Live p ↔ m.pool.Keeps) ∧ (m'.cell p).len = (m.cell p).len := by
  obtain ⟨⟨cached, hpool⟩, hcount⟩ := h.perm hperm
  refine (deletePiece_spec hpool (List.mem_cons_self ..)).imp fun _ m' hh => ?_
  obtain ⟨⟨cached', hpool'⟩, hsame, hcount', hkept⟩ := hh
  rw [List.erase_cons_head] at hpool' hsame
  refine ⟨⟨⟨cached', hpool'⟩, ?_⟩, hsame, hkept⟩
  rw [hcount', hcount]
  simp only [u32, u32Sub, List.length_cons]
  omega

theorem deletePiece (h : Owns m owned k) (hperm : owned.Perm (p :: rest)) :
    (deletePiece (some p)).wp build m fun _ m' => Owns m' rest k ∧ SameOn rest m m' :=
  (h.deletePiece_keeps hperm).imp fun _ _ ⟨howns, hsame, _⟩ => ⟨howns, hsame⟩

/-- A bare `delete` gives the piece back to the heap but not to the pool, whose
    `using_count_` stays one too high. -/
theorem deleteCell (h : Owns m (p :: rest) k) :
    (deleteCell (some p)).wp build m fun _ m' => Owns m' rest (k + 1) ∧ m'.cell = m.cell := by
  have hlive := h.live (List.mem_cons_self ..)
  have hcount := h.counted
  obtain ⟨⟨cached, hpool⟩, _⟩ := h
  have hnodup := hpool.nodup_owned
  rw [List.nodup_cons] at hnodup
  have hnot := hpool.not_cached (List.mem_cons_self ..)
  rw [wp_deleteCell hlive]
  refine ⟨⟨⟨cached, { hpool with
    distinct := ?_, live := fun q => ?_, freedOnce := ?_, freedOld := ?_ }⟩, ?_⟩, rfl⟩
  · exact ((List.Sublist.refl cached).append (List.sublist_cons_self p rest)).nodup hpool.distinct
  · have hq := hpool.live q
    simp only [Mem.Live, List.mem_cons, not_or] at hq ⊢
    by_cases hqp : q = p
    · subst hqp
      simp [hnot, hnodup.1]
    · simp only [hqp, false_or, not_false_eq_true, true_and] at hq ⊢
      exact hq
  · exact List.nodup_cons.mpr ⟨hlive.2, hpool.freedOnce⟩
  · intro q hq
    rcases List.mem_cons.mp hq with rfl | hq
    · exact hlive.1
    · exact hpool.freedOld q hq
  · show m.pool.usingCount = _
    rw [hcount]
    simp only [List.length_cons]
    congr 1
    omega

end Owns

end Netpp
