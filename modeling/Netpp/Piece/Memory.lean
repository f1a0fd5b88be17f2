import Mathlib.Algebra.Ring.Nat
import Netpp.Lib.Program
import Netpp.Lib.Slice

/-! # Pieces and the memory they live in

`Piece` is the fixed-size block of `piece_allocator.h`; every `Piece*` of the
source is a `PiecePtr` here.  `Mem` is the part of the process all code below
works on: the raw cells, the record of what `operator new` has returned and
`delete` has taken back, and the global `pool_` of `piece_allocator.cpp`.

Code runs in `Exec`.  It stops with a `Fault` where the C++ program has no
defined behaviour (a null or dangling `Piece*`, an access outside `data`) and,
in a Debug build, at a failed `assert`.
-/

namespace Netpp

abbrev Bytes := List UInt8

/-- `kPieceCapacity`, the size of `Piece::data`. -/
def kPieceCapacity : Nat := 1024 * 4

/-- The value an assignment to a `uint16_t` stores. -/
def u16 (n : Nat) : Nat := n % 65536

/-- The value an assignment to a `uint32_t` stores. -/
def u32 (n : Nat) : Nat := n % 4294967296

/-- `a -= b` on a `uint16_t`. -/
def u16Sub (a b : Nat) : Nat := u16 (a + 65536 - u16 b)

/-- `a -= b` on a `uint32_t`. -/
def u32Sub (a b : Nat) : Nat := u32 (a + 4294967296 - u32 b)

/-- `a -= b` on a `size_t`.  Byte counts are counts of bytes held in memory, so
    additions stay below the word size; only a subtraction can wrap. -/
def sizeSub (a b : Nat) : Nat := if b ≤ a then a - b else a + 2 ^ 64 - b

abbrev Ptr := Nat

/-- `Piece*`; `none` is `nullptr`. -/
abbrev PiecePtr := Option Ptr

structure Piece where
  next : PiecePtr
  off : Nat
  len : Nat
  data : Nat → UInt8

/-- The bytes `data[off, off + len)` a piece holds. -/
def Piece.bytes (c : Piece) : Bytes := slice c.data c.off c.len

/-- `Queue<Piece>` of `queue.h`. -/
structure Queue where
  head : PiecePtr := none
  tail : PiecePtr := none
  size : Nat := 0
  deriving DecidableEq

structure PiecePool where
  queue : Queue := {}
  usingCount : Nat := 0

inductive Fault where
  | assertion    -- a failed `assert` of a Debug build
  | nullPiece    -- a null `Piece*` is dereferenced
  | dangling     -- a `Piece` that `delete` has taken back is used or deleted again
  | overrun      -- an access outside the array it is meant for
  | outOfFuel    -- a loop did not end within the bound it was given
  deriving DecidableEq, Repr

/-- The configuration the library is built in: Release defines `NDEBUG`. -/
inductive Build where
  | debug
  | release
  deriving DecidableEq, Repr

structure Mem where
  cell : Ptr → Piece         -- contents of memory, allocated or not
  brk : Ptr := 0             -- the next address `operator new` returns
  freed : List Ptr := []     -- what `delete` has taken back, the last first
  pool : PiecePool := {}

/-- A memory in which nothing has been allocated. -/
def emptyMem : Mem := { cell := fun _ => ⟨none, 0, 0, fun _ => 0⟩ }

abbrev Exec (α : Type) : Type := Prog Build Mem Fault α

namespace Mem

/-- `a` was returned by `operator new` and has not been deleted. -/
def Live (m : Mem) (a : Ptr) : Prop := a < m.brk ∧ a ∉ m.freed

instance (m : Mem) (a : Ptr) : Decidable (m.Live a) := inferInstanceAs (Decidable (_ ∧ _))

def set (m : Mem) (a : Ptr) (c : Piece) : Mem :=
  { m with cell := fun b => if b = a then c else m.cell b }

@[simp] theorem set_cell_self (m : Mem) (a : Ptr) (c : Piece) : (m.set a c).cell a = c := by
  simp [set]

theorem set_cell_ne (m : Mem) {a b : Ptr} (c : Piece) (h : b ≠ a) :
    (m.set a c).cell b = m.cell b := by
  simp [set, h]

@[simp] theorem set_set (m : Mem) (a : Ptr) (c c' : Piece) : (m.set a c).set a c' = m.set a c' := by
  simp only [set, mk.injEq, and_true]
  funext b
  by_cases hb : b = a <;> simp [hb]

@[simp] theorem set_brk (m : Mem) (a : Ptr) (c : Piece) : (m.set a c).brk = m.brk := rfl
@[simp] theorem set_freed (m : Mem) (a : Ptr) (c : Piece) : (m.set a c).freed = m.freed := rfl
@[simp] theorem set_pool (m : Mem) (a : Ptr) (c : Piece) : (m.set a c).pool = m.pool := rfl
@[simp] theorem set_live (m : Mem) (a b : Ptr) (c : Piece) : (m.set a c).Live b ↔ m.Live b := Iff.rfl

end Mem

/-! ## Primitive actions -/

/-- `assert(c)`; compiled out in a Release build. -/
def assert (c : Bool) : Exec Unit := fun build m =>
  if build = .debug ∧ c = false then .error .assertion else .ok ((), m)

/-- `*p` -/
def load (p : PiecePtr) : Exec Piece := fun _ m =>
  match p with
  | none => .error .nullPiece
  | some a => if m.Live a then .ok (m.cell a, m) else .error .dangling

/-- `*p = c` -/
def store (p : PiecePtr) (c : Piece) : Exec Unit := fun _ m =>
  match p with
  | none => .error .nullPiece
  | some a => if m.Live a then .ok ((), m.set a c) else .error .dangling

/-- `new Piece`; its members are not initialised. -/
def newCell : Exec Ptr := fun _ m => .ok (m.brk, { m with brk := m.brk + 1 })

/-- `delete p`; deleting a null pointer does nothing. -/
def deleteCell (p : PiecePtr) : Exec Unit := fun _ m =>
  match p with
  | none => .ok ((), m)
  | some a => if m.Live a then .ok ((), { m with freed := a :: m.freed }) else .error .dangling

def getPool : Exec PiecePool := fun _ m => .ok (m.pool, m)

def setPool (pool : PiecePool) : Exec Unit := fun _ m => .ok ((), { m with pool := pool })

/-- `memcpy` out of `data + pos`. -/
def Piece.copyOut (c : Piece) (pos len : Nat) : Exec Bytes :=
  if pos + len ≤ kPieceCapacity then pure (slice c.data pos len) else throw .overrun

/-- `memcpy` to `data + pos`. -/
def Piece.copyIn (c : Piece) (pos : Nat) (src : Bytes) : Exec Piece :=
  if pos + src.length ≤ kPieceCapacity then pure { c with data := patch c.data pos src }
  else throw .overrun

section Rules

variable {build : Build} {m : Mem} {a : Ptr} {c : Piece}

@[simp] theorem wp_assert_true {Q : Unit → Mem → Prop} :
    (assert true).wp build m Q ↔ Q () m :=
  Prog.wp_of_eq_ok (by simp [assert])

theorem wp_assert {b : Bool} {Q : Unit → Mem → Prop} (h : b = true) :
    (assert b).wp build m Q ↔ Q () m := by
  rw [h, wp_assert_true]

theorem true_of_wp_assert {b : Bool} {Q : Unit → Mem → Prop} (h : (assert b).wp .debug m Q) :
    b = true := by
  obtain ⟨_, _, hrun, _⟩ := h
  cases b with
  | true => rfl
  | false => simp [assert] at hrun

theorem wp_assert_iff {b : Bool} {Q : Unit → Mem → Prop} :
    (assert b).wp build m Q ↔ (build = .debug → b = true) ∧ Q () m := by
  cases b with
  | true => simp
  | false =>
    cases build with
    | debug => simp [Prog.wp, assert]
    | release =>
      have hskip : assert false .release m = .ok ((), m) := rfl
      rw [Prog.wp_of_eq_ok hskip]
      simp

theorem wlp_assert {b : Bool} {Q : Unit → Mem → Prop} :
    (assert b).wlp build m Q ↔ ((build = .debug → b = true) → Q () m) := by
  unfold Prog.wlp assert
  by_cases hfail : build = .debug ∧ b = false
  · rw [if_pos hfail]
    simp [hfail.1, hfail.2]
  · rw [if_neg hfail]
    have hpass : build = .debug → b = true := by
      intro hbuild
      by_contra hb
      exact hfail ⟨hbuild, by simpa using hb⟩
    constructor
    · exact fun h _ => h () m rfl
    · intro h a m' hrun
      cases hrun
      exact h hpass

theorem wp_load {Q : Piece → Mem → Prop} (h : m.Live a) :
    (load (some a)).wp build m Q ↔ Q (m.cell a) m :=
  Prog.wp_of_eq_ok (by simp [load, h])

theorem wlp_load {Q : Piece → Mem → Prop} (h : Q (m.cell a) m) :
    (load (some a)).wlp build m Q := by
  intro c m' hrun
  simp only [load] at hrun
  split at hrun
  · cases hrun
    exact h
  · cases hrun

theorem live_of_wp_load {Q : Piece → Mem → Prop} (h : (load (some a)).wp build m Q) : m.Live a := by
  obtain ⟨c, m', hrun, _⟩ := h
  by_contra hdead
  simp [load, hdead] at hrun

@[simp] theorem wp_load_none {Q : Piece → Mem → Prop} : ¬ (load none).wp build m Q := by
  intro hrun
  obtain ⟨c, m', hrun, _⟩ := hrun
  cases hrun

theorem wp_store {Q : Unit → Mem → Prop} (h : m.Live a) :
    (store (some a) c).wp build m Q ↔ Q () (m.set a c) :=
  Prog.wp_of_eq_ok (by simp [store, h])

@[simp] theorem wp_newCell {Q : Ptr → Mem → Prop} :
    newCell.wp build m Q ↔ Q m.brk { m with brk := m.brk + 1 } :=
  Prog.wp_of_eq_ok rfl

theorem wp_deleteCell {Q : Unit → Mem → Prop} (h : m.Live a) :
    (deleteCell (some a)).wp build m Q ↔ Q () { m with freed := a :: m.freed } :=
  Prog.wp_of_eq_ok (by simp [deleteCell, h])

@[simp] theorem wp_getPool {Q : PiecePool → Mem → Prop} :
    getPool.wp build m Q ↔ Q m.pool m :=
  Prog.wp_of_eq_ok rfl

@[simp] theorem wp_setPool {pool : PiecePool} {Q : Unit → Mem → Prop} :
    (setPool pool).wp build m Q ↔ Q () { m with pool := pool } :=
  Prog.wp_of_eq_ok rfl

theorem wp_copyOut {pos len : Nat} {Q : Bytes → Mem → Prop} (h : pos + len ≤ kPieceCapacity) :
    (c.copyOut pos len).wp build m Q ↔ Q (slice c.data pos len) m := by
  simp [Piece.copyOut, h]

theorem wp_copyIn {pos : Nat} {src : Bytes} {Q : Piece → Mem → Prop}
    (h : pos + src.length ≤ kPieceCapacity) :
    (c.copyIn pos src).wp build m Q ↔ Q { c with data := patch c.data pos src } m := by
  simp [Piece.copyIn, h]

end Rules

end Netpp
