import Mathlib.Data.List.Perm.Subperm
import Netpp.Lib.Chain
import Netpp.Piece.Memory

/-! # `Queue<Piece>`

`push` and `pop` of `queue.h`, and what they do to the chain of pieces a queue
represents.  `Queue.Rep cell q ps` is the representation invariant: the links
lead from `head` through exactly `ps`, `tail` is the last of them, and `size`
counts them modulo the width of its type.
-/

namespace Netpp

namespace Queue

def isEmpty (q : Queue) : Bool := q.size == 0

def push (q : Queue) (item : PiecePtr) : Exec Queue := do
  assert item.isSome
  let c ← load item
  store item { c with next := none }
  match q.tail with
  | some t =>
    let last ← load (some t)
    store (some t) { last with next := item }
    pure { q with tail := item, size := u32 (q.size + 1) }
  | none =>
    assert q.head.isNone
    pure { head := item, tail := item, size := u32 (q.size + 1) }

def pop (q : Queue) : Exec (PiecePtr × Queue) :=
  match q.head with
  | none => pure (none, q)
  | some p => do
    let c ← load (some p)
    -- `tail` is reset together with the last link
    pure (some p, { head := c.next, tail := if c.next.isNone then none else q.tail,
                    size := u32Sub q.size 1 })

structure Rep (cell : Ptr → Piece) (q : Queue) (ps : List Ptr) : Prop where
  chain : Chain (fun p => (cell p).next) q.head ps
  tail : q.tail = ps.getLast?
  size : q.size = u32 ps.length

/-- The pieces reached from `head`, as far as the allocated cells can take it. -/
def pieces (q : Queue) (m : Mem) : List Ptr := walk (fun p => (m.cell p).next) m.brk q.head

theorem Rep.empty (cell : Ptr → Piece) : Rep cell {} [] := ⟨rfl, rfl, rfl⟩

theorem Rep.frame {cell cell' : Ptr → Piece} {q : Queue} {ps : List Ptr} (h : Rep cell q ps)
    (same : ∀ p ∈ ps, cell' p = cell p) : Rep cell' q ps :=
  ⟨h.chain.frame fun p hp => by rw [same p hp], h.tail, h.size⟩

theorem Rep.nodup {cell : Ptr → Piece} {q : Queue} {ps : List Ptr} (h : Rep cell q ps) :
    ps.Nodup := h.chain.nodup

theorem length_le_of_live {m : Mem} {ps : List Ptr} (h : ps.Nodup) (live : ∀ p ∈ ps, m.Live p) :
    ps.length ≤ m.brk := by
  have hsub : ∀ p ∈ ps, p ∈ List.range m.brk := fun p hp => List.mem_range.mpr (live p hp).1
  simpa using (h.subperm hsub).length_le

theorem pieces_eq_of_chain {m : Mem} {q : Queue} {ps : List Ptr}
    (h : Chain (fun p => (m.cell p).next) q.head ps) (live : ∀ p ∈ ps, m.Live p) :
    q.pieces m = ps := h.walk_eq (length_le_of_live h.nodup live)

theorem Rep.pieces_eq {m : Mem} {q : Queue} {ps : List Ptr} (h : Rep m.cell q ps)
    (live : ∀ p ∈ ps, m.Live p) : q.pieces m = ps := pieces_eq_of_chain h.chain live

end Queue

/-- `m'` is `m` with other links, and only the cells in `ps` are touched. -/
structure Mem.Relinked (m m' : Mem) (ps : List Ptr) : Prop where
  fields : ∀ p, m'.cell p = { m.cell p with next := (m'.cell p).next }
  outside : ∀ p, p ∉ ps → m'.cell p = m.cell p
  brk : m'.brk = m.brk
  freed : m'.freed = m.freed
  pool : m'.pool = m.pool

namespace Mem.Relinked

variable {m m' m'' : Mem} {ps qs : List Ptr}

theorem live (h : m.Relinked m' ps) (p : Ptr) : m'.Live p ↔ m.Live p := by
  simp [Mem.Live, h.brk, h.freed]

theorem bytes (h : m.Relinked m' ps) (p : Ptr) : (m'.cell p).bytes = (m.cell p).bytes := by
  rw [h.fields p]; rfl

theorem len (h : m.Relinked m' ps) (p : Ptr) : (m'.cell p).len = (m.cell p).len := by
  rw [h.fields p]

theorem off (h : m.Relinked m' ps) (p : Ptr) : (m'.cell p).off = (m.cell p).off := by
  rw [h.fields p]

end Mem.Relinked

namespace Queue

variable {build : Build} {m : Mem} {q : Queue} {p : Ptr} {ps : List Ptr}

theorem push_spec (hq : q.Rep m.cell ps) (live : ∀ a ∈ ps, m.Live a) (hp : m.Live p)
    (fresh : p ∉ ps) :
    (q.push (some p)).wp build m fun q' m' =>
      q'.Rep m'.cell (ps ++ [p]) ∧ m.Relinked m' (p :: ps) := by
  have hsize : u32 (q.size + 1) = u32 (ps ++ [p]).length := by
    simp [hq.size, u32]
  cases htail : ps.getLast? with
  | none =>
    have hnil : ps = [] := List.getLast?_eq_none_iff.mp htail
    subst hnil
    have hhead : q.head = none := hq.chain
    have ht : q.tail = none := hq.tail
    simp only [push, ht, hhead, Prog.wp_bind, wp_load hp, wp_store hp, Option.isSome_some,
      Option.isNone_none, wp_assert_true, Prog.wp_pure]
    refine ⟨⟨⟨rfl, ?_⟩, rfl, hsize⟩, ⟨fun a => ?_, fun a ha => ?_, rfl, rfl, rfl⟩⟩
    · simp
    · by_cases hap : a = p
      · subst hap; simp
      · rw [Mem.set_cell_ne _ _ hap]
    · rw [Mem.set_cell_ne _ _ (by simpa using ha)]
  | some t =>
    have hmem : t ∈ ps := List.mem_of_getLast? htail
    have ht : q.tail = some t := hq.tail.trans htail
    have htp : t ≠ p := fun e => fresh (e ▸ hmem)
    simp only [push, ht, Prog.wp_bind, wp_load hp, wp_store hp, Option.isSome_some, wp_assert_true]
    rw [wp_load (by simpa using live t hmem), wp_store (by simpa using live t hmem),
      Prog.wp_pure, Mem.set_cell_ne _ _ htp]
    refine ⟨⟨?_, by simp, hsize⟩, ⟨fun a => ?_, fun a ha => ?_, rfl, rfl, rfl⟩⟩
    · apply hq.chain.snoc htail hq.nodup
      · intro a ha hat
        have hap : a ≠ p := fun e => fresh (e ▸ ha)
        rw [Mem.set_cell_ne _ _ hat, Mem.set_cell_ne _ _ hap]
      · simp
      · rw [Mem.set_cell_ne _ _ htp.symm]; simp
    · by_cases hat : a = t
      · subst hat; simp
      · rw [Mem.set_cell_ne _ _ hat]
        by_cases hap : a = p
        · subst hap; simp
        · rw [Mem.set_cell_ne _ _ hap]
    · simp only [List.mem_cons, not_or] at ha
      have hat : a ≠ t := fun e => ha.2 (e ▸ hmem)
      rw [Mem.set_cell_ne _ _ hat, Mem.set_cell_ne _ _ ha.1]

theorem pop_spec (hq : q.Rep m.cell (p :: ps)) (hp : m.Live p) :
    q.pop.wp build m fun r m' => m' = m ∧ r.1 = some p ∧ r.2.Rep m.cell ps := by
  have hhead : q.head = some p := hq.chain.1
  simp only [pop, hhead, Prog.wp_bind, wp_load hp, Prog.wp_pure]
  refine ⟨trivial, trivial, hq.chain.2, ?_, ?_⟩
  · have hnext := hq.chain.2.head_eq
    cases ps with
    | nil => simp [hnext]
    | cons r rs => simpa [hnext, List.getLast?_cons_cons] using hq.tail
  · have := hq.size
    simp only [u32, u32Sub, List.length_cons] at this ⊢
    omega

theorem pop_empty (hq : q.Rep m.cell []) :
    q.pop.wp build m fun r m' => m' = m ∧ r = (none, q) := by
  have hhead : q.head = none := hq.chain
  simp [pop, hhead]

end Queue

end Netpp
