import Netpp.Buffer.Family

/-! # `Buffer` is a byte deque

`BufferOp` is the public interface of `buffer.h` on buffers named by `ι`,
`BufferOp.run` executes one call on the chains of pieces and `BufferOp.apply`
says what the call means on plain lists of bytes.

`read(len, Buffer*)` is the exception.  The pieces that it passes over are moved and not
counted, so it can move more than `len` bytes, and from then on `length_` is not the number of
bytes.  `BufferOp.actual` is the call it amounts to, and `BufferOp.ReadsFirst` says when that is
the call that was made.

* `BufferOp.run_spec`: one call, from any chains that have the bytes for it.
* `BufferOp.run_moves`: one call that returns, from any chains.
* `Run.family`: the invariant of a run whose calls of `read(len, Buffer*)` pass over nothing.
* `buffer_refines_deque`: the refinement, for those runs and no further.
-/

namespace Netpp

inductive BufferOp (ι : Type) where
  | write (i : ι) (d : Bytes)
  | writeInt32 (i : ι) (x : Int)
  | writeInt16 (i : ι) (x : Int)
  | writeInt8 (i : ι) (x : Int)
  | reservedPrepend (i : ι) (len : Nat)
  | prepend (i : ι) (d : Bytes)
  | prependInt32 (i : ι) (x : Int)
  | prependInt16 (i : ι) (x : Int)
  | prependInt8 (i : ι) (x : Int)
  | read (i : ι) (len : Nat)
  | readString (i : ι) (len : Nat)
  | readAll (i : ι)
  | readInt32 (i : ι)
  | readInt16 (i : ι)
  | readInt8 (i : ι)
  | readBuffer (i : ι) (len : Nat) (j : ι)
  | skip (i : ι) (len : Nat)
  | swap (i j : ι)
  | moveToQueueHead (i : ι)
  | clear (i : ι)

/-- What a call returns. -/
inductive Value where
  | unit
  | bytes (d : Bytes)
  | int (x : Int)
  | chain (head : PiecePtr)

/-- What a call returns on byte lists: a detached chain is its bytes. -/
inductive DequeValue where
  | unit
  | bytes (d : Bytes)
  | int (x : Int)
  deriving DecidableEq

def Value.denote (m : Mem) : Value → DequeValue
  | .unit => .unit
  | .bytes d => .bytes d
  | .int x => .int x
  | .chain head => .bytes (content m (Queue.pieces { head := head } m))

structure Buffers (ι : Type) where
  mem : Mem
  buf : ι → Buffer

variable {ι : Type} [DecidableEq ι]

namespace BufferOp

open Function (update)

/-! ## Execution -/

def runOn {α : Type} (bufs : ι → Buffer) (i : ι) (value : α → Value) (buf : α → Buffer)
    (call : Exec α) : Exec (Value × (ι → Buffer)) := do
  let r ← call
  pure (value r, update bufs i (buf r))

def runUnit (bufs : ι → Buffer) (i : ι) (call : Exec Buffer) : Exec (Value × (ι → Buffer)) :=
  runOn bufs i (fun _ => .unit) id call

def runBytes (bufs : ι → Buffer) (i : ι) (call : Exec (Bytes × Buffer)) :
    Exec (Value × (ι → Buffer)) :=
  runOn bufs i (fun r => .bytes r.1) Prod.snd call

def runInt (bufs : ι → Buffer) (i : ι) (call : Exec (Int × Buffer)) :
    Exec (Value × (ι → Buffer)) :=
  runOn bufs i (fun r => .int r.1) Prod.snd call

def run (bufs : ι → Buffer) : BufferOp ι → Exec (Value × (ι → Buffer))
  | write i d => runUnit bufs i ((bufs i).write d)
  | writeInt32 i x => runUnit bufs i ((bufs i).writeInt32 x)
  | writeInt16 i x => runUnit bufs i ((bufs i).writeInt16 x)
  | writeInt8 i x => runUnit bufs i ((bufs i).writeInt8 x)
  | reservedPrepend i len => runUnit bufs i ((bufs i).reservedPrepend len)
  | prepend i d => runUnit bufs i ((bufs i).prepend d)
  | prependInt32 i x => runUnit bufs i ((bufs i).prependInt32 x)
  | prependInt16 i x => runUnit bufs i ((bufs i).prependInt16 x)
  | prependInt8 i x => runUnit bufs i ((bufs i).prependInt8 x)
  | read i len => runBytes bufs i ((bufs i).read len)
  | readString i len => runBytes bufs i ((bufs i).readString len)
  | readAll i => runBytes bufs i (bufs i).readAll
  | readInt32 i => runInt bufs i (bufs i).readInt32
  | readInt16 i => runInt bufs i (bufs i).readInt16
  | readInt8 i => runInt bufs i (bufs i).readInt8
  | readBuffer i len j => do
    let r ← (bufs i).readBuffer len (bufs j)
    pure (.unit, update (update bufs i r.1) j r.2)
  | skip i len => runUnit bufs i ((bufs i).skip len)
  -- `swap` exchanges the members of the two objects
  | swap i j => pure (.unit, update (update bufs i (bufs j)) j (bufs i))
  | moveToQueueHead i =>
    pure (.chain (bufs i).moveToQueueHead.1, update bufs i (bufs i).moveToQueueHead.2)
  | clear i => runUnit bufs i (bufs i).clear

/-! ## Preconditions

What the `assert`s of each function ask for, with a positive length for `read`
and `skip` and two different buffers for `read(len, Buffer*)`. -/

/-- `front()` has at least `len` bytes of headroom. -/
def Headroom (m : Mem) (b : Buffer) (len : Nat) : Prop :=
  ∃ p, b.head = some p ∧ len ≤ (m.cell p).off

def Pre (m : Mem) (bufs : ι → Buffer) : BufferOp ι → Prop
  | write _ _ | writeInt32 _ _ | writeInt16 _ _ | writeInt8 _ _ => True
  | reservedPrepend i len => (bufs i).length = 0 ∧ (bufs i).head = none ∧ len < kPieceCapacity
  | prepend i d => Headroom m (bufs i) d.length
  | prependInt32 i _ => Headroom m (bufs i) 4
  | prependInt16 i _ => Headroom m (bufs i) 2
  | prependInt8 i _ => Headroom m (bufs i) 1
  | read i len | readString i len | skip i len => 0 < len ∧ len ≤ (bufs i).length
  | readAll i => 0 < (bufs i).length
  | readInt32 i => 4 ≤ (bufs i).length
  | readInt16 i => 2 ≤ (bufs i).length
  | readInt8 i => 1 ≤ (bufs i).length
  | readBuffer i len j => i ≠ j ∧ 0 < len ∧ len ≤ (bufs i).length
  | swap _ _ | moveToQueueHead _ | clear _ => True

/-- The bytes the call asks for are there. -/
def Enough (m : Mem) (bufs : ι → Buffer) (chain : ι → List Ptr) : BufferOp ι → Prop
  | read i len | readString i len | skip i len => len ≤ (content m (chain i)).length
  | readAll i => (bufs i).length ≤ (content m (chain i)).length
  | readInt32 i => 4 ≤ (content m (chain i)).length
  | readInt16 i => 2 ≤ (content m (chain i)).length
  | readInt8 i => 1 ≤ (content m (chain i)).length
  | readBuffer i len _ => ∃ p ∈ chain i, len ≤ (m.cell p).len
  | _ => True

/-- `read(len, Buffer*)` is called with no more bytes than the first piece that is not empty
    has. -/
def ReadsFirst (m : Mem) (bufs : ι → Buffer) : BufferOp ι → Prop
  | readBuffer i len _ => Buffer.ReadsFirst m len ((bufs i).pieces m)
  | _ => True

/-! ## Meaning on byte lists -/

def appendBytes (d : ι → Bytes) (i : ι) (x : Bytes) : DequeValue × (ι → Bytes) :=
  (.unit, update d i (d i ++ x))

def prependBytes (d : ι → Bytes) (i : ι) (x : Bytes) : DequeValue × (ι → Bytes) :=
  (.unit, update d i (x ++ d i))

def takeBytes (d : ι → Bytes) (i : ι) (len : Nat) : DequeValue × (ι → Bytes) :=
  (.bytes ((d i).take len), update d i ((d i).drop len))

def takeInt (d : ι → Bytes) (i : ι) (width : Nat) : DequeValue × (ι → Bytes) :=
  (.int (bytesInt ((d i).take width)), update d i ((d i).drop width))

def apply (d : ι → Bytes) : BufferOp ι → DequeValue × (ι → Bytes)
  | write i x => appendBytes d i x
  | writeInt32 i x => appendBytes d i (intBytes 4 x)
  | writeInt16 i x => appendBytes d i (intBytes 2 x)
  | writeInt8 i x => appendBytes d i (intBytes 1 x)
  | reservedPrepend _ _ => (.unit, d)
  | prepend i x => prependBytes d i x
  | prependInt32 i x => prependBytes d i (intBytes 4 x)
  | prependInt16 i x => prependBytes d i (intBytes 2 x)
  | prependInt8 i x => prependBytes d i (intBytes 1 x)
  | read i len => takeBytes d i len
  | readString i len => takeBytes d i len
  | readAll i => (.bytes (d i), update d i [])
  | readInt32 i => takeInt d i 4
  | readInt16 i => takeInt d i 2
  | readInt8 i => takeInt d i 1
  | readBuffer i len j =>
    (.unit, update (update d i ((d i).drop len)) j (d j ++ (d i).take len))
  | skip i len => (.unit, update d i ((d i).drop len))
  | swap i j => (.unit, update (update d i (d j)) j (d i))
  | moveToQueueHead i => (.bytes (d i), update d i [])
  | clear i => (.unit, update d i [])

/-- The call that was made in fact: `readAll` reads `length_` bytes, and `read(len, Buffer*)`
    also moves the bytes that it passes over. -/
def actual (m : Mem) (bufs : ι → Buffer) : BufferOp ι → BufferOp ι
  | readAll i => readString i (bufs i).length
  | readBuffer i len j => readBuffer i (Buffer.passed m len ((bufs i).pieces m) + len) j
  | op => op

/-! ## Pieces that leave the buffers -/

/-- The pieces a call takes out of the buffers and hands to its caller. -/
def detached (chain : ι → List Ptr) : BufferOp ι → List Ptr
  | moveToQueueHead i => chain i
  | _ => []

/-- The number of pieces a call deletes behind the back of the pool. -/
def bypassed (chain : ι → List Ptr) : BufferOp ι → Nat
  | clear i => (chain i).length
  | _ => 0

/-! ## One call -/

section Spec

variable {build : Build} {m : Mem} {bufs : ι → Buffer} {chain : ι → List Ptr} {loose : List Ptr}
  {k : Nat} {i : ι}

/-- The outcome of a call: chains again, with the bytes and the value of `a`, each `length_`
    exact if `keeps`, and the pieces in `loose` as before. -/
def Refines (m m' : Mem) (loose loose' : List Ptr) (k : Nat) (a : DequeValue × (ι → Bytes))
    (keeps : Prop) (r : Value × (ι → Buffer)) : Prop :=
  (∃ chain, Chains m' r.2 chain loose' k ∧ familyBytes m' chain = a.2) ∧ r.1.denote m' = a.1 ∧
    (keeps → Exact r.2 a.2) ∧ SameOn loose m m'

theorem runOn_spec {α : Type} {value : α → Value} {buf : α → Buffer} {call : Exec α}
    {v : DequeValue} {x : Bytes} {k' : Nat} (h : Chains m bufs chain loose k)
    (hcall : ∀ rest, Owns m (chain i ++ rest) k → call.wp build m fun r m' => ∃ ps',
      Holds m' (buf r).toQueue ps' ∧ Owns m' (ps' ++ rest) k' ∧ SameOn rest m m' ∧
      content m' ps' = x ∧ (value r).denote m' = v ∧
      ((bufs i).length = (content m (chain i)).length → (buf r).length = x.length)) :
    (runOn bufs i value buf call).wp build m fun r m' =>
      Refines m m' loose loose k' (v, update (familyBytes m chain) i x)
        (Exact bufs (familyBytes m chain)) r := by
  obtain ⟨rest, howns, _, hput⟩ := h.focus i
  simp only [runOn, Prog.wp_bind, Prog.wp_pure]
  refine (hcall _ howns).imp ?_
  rintro r m' ⟨ps', hb', howns', hsame, hx, hv, hlength⟩
  obtain ⟨hchains, hbytes⟩ := hput m' (buf r) ps' loose k' hb' howns' hsame.left
  rw [hx] at hbytes
  exact ⟨⟨_, hchains, hbytes⟩, hv, fun hexact => hexact.update (hlength (hexact i)), hsame.right⟩

theorem write_refines {d : Bytes} (h : Chains m bufs chain loose k) (i : ι) :
    (runUnit bufs i ((bufs i).write d)).wp build m fun r m' =>
      Refines m m' loose loose k (appendBytes (familyBytes m chain) i d)
        (Exact bufs (familyBytes m chain)) r := by
  apply runOn_spec h
  intro rest howns
  refine (Buffer.write_holds (h.holds i) howns).imp ?_
  rintro b' m' ⟨ps', _, hb', howns', hsame, hc, _, _, hlen⟩
  refine ⟨ps', hb', howns', hsame, hc, rfl, fun hexact => ?_⟩
  rw [List.length_append]
  exact hlen.trans (congrArg (· + d.length) hexact)

theorem prepend_refines {d : Bytes} (h : Chains m bufs chain loose k)
    (hroom : Headroom m (bufs i) d.length) :
    (runUnit bufs i ((bufs i).prepend d)).wp build m fun r m' =>
      Refines m m' loose loose k (prependBytes (familyBytes m chain) i d)
        (Exact bufs (familyBytes m chain)) r := by
  apply runOn_spec h
  intro rest howns
  obtain ⟨p, hp, hle⟩ := hroom
  have hhead := (h.holds i).rep.chain.head_eq
  have hb := h.holds i
  have hx : familyBytes m chain i = content m (chain i) := rfl
  rw [hx]
  generalize chain i = ps at *
  cases ps with
  | nil => simp [hp] at hhead
  | cons q qs =>
    obtain rfl : p = q := by simpa [hp] using hhead
    refine (Buffer.prepend_holds hb howns hle).imp ?_
    rintro b' m' ⟨hb', howns', hsame, hc, _, _, hlen⟩
    refine ⟨_, hb', howns', hsame, hc, rfl, fun hexact => ?_⟩
    rw [List.length_append, ← hexact, Nat.add_comm]
    exact hlen

theorem ne_nil_of_enough {ps : List Ptr} {len : Nat} (hpos : 0 < len)
    (henough : len ≤ (content m ps).length) : ps ≠ [] := by
  rintro rfl
  exact absurd (Nat.lt_of_lt_of_le hpos henough) (Nat.lt_irrefl 0)

theorem read_refines {len : Nat} (h : Chains m bufs chain loose k) (hpos : 0 < len)
    (hlen : len ≤ (bufs i).length) (henough : len ≤ (content m (chain i)).length) :
    (runBytes bufs i ((bufs i).read len)).wp build m fun r m' =>
      Refines m m' loose loose k (takeBytes (familyBytes m chain) i len)
        (Exact bufs (familyBytes m chain)) r := by
  apply runOn_spec h
  intro rest howns
  refine (Buffer.read_holds (h.holds i) howns (ne_nil_of_enough hpos henough) (fun _ => hpos) hlen
    henough).imp ?_
  rintro r m' ⟨ps', hb', howns', hsame, hd, hc, _, hl⟩
  refine ⟨ps', hb', howns', hsame, hc, by rw [hd]; rfl, fun hexact => ?_⟩
  rw [hl, List.length_drop, hexact]
  rfl

/-- The `std::string` overload only repeats an `assert`. -/
theorem readString_run {len : Nat} {Q : Value × (ι → Buffer) → Mem → Prop}
    (hlen : len ≤ (bufs i).length) :
    (runBytes bufs i ((bufs i).readString len)).wp build m Q ↔
      (runBytes bufs i ((bufs i).read len)).wp build m Q := by
  simp only [runBytes, runOn, Buffer.readString, Prog.wp_bind, wp_assert (decide_eq_true hlen)]

theorem readInt_refines {width : Nat} (h : Chains m bufs chain loose k) (hpos : 0 < width)
    (hlen : width ≤ (bufs i).length) (henough : width ≤ (content m (chain i)).length) :
    (runInt bufs i (Buffer.readInt width (bufs i))).wp build m fun r m' =>
      Refines m m' loose loose k (takeInt (familyBytes m chain) i width)
        (Exact bufs (familyBytes m chain)) r := by
  apply runOn_spec h
  intro rest howns
  simp only [Buffer.readInt, Prog.wp_bind, Prog.wp_pure]
  refine (Buffer.read_holds (h.holds i) howns (ne_nil_of_enough hpos henough) (fun _ => hpos) hlen
    henough).imp ?_
  rintro r m' ⟨ps', hb', howns', hsame, hd, hc, _, hl⟩
  refine ⟨ps', hb', howns', hsame, hc, by rw [hd]; rfl, fun hexact => ?_⟩
  rw [hl, List.length_drop, hexact]
  rfl

theorem skip_refines {len : Nat} (h : Chains m bufs chain loose k) (hpos : 0 < len)
    (hlen : len ≤ (bufs i).length) (henough : len ≤ (content m (chain i)).length) :
    (runUnit bufs i ((bufs i).skip len)).wp build m fun r m' =>
      Refines m m' loose loose k (apply (familyBytes m chain) (.skip i len))
        (Exact bufs (familyBytes m chain)) r := by
  apply runOn_spec h
  intro rest howns
  refine (Buffer.skip_holds (h.holds i) howns (ne_nil_of_enough hpos henough) hlen henough).imp ?_
  rintro b' m' ⟨ps', hb', howns', hsame, hc, _, hl⟩
  refine ⟨ps', hb', howns', hsame, hc, rfl, fun hexact => ?_⟩
  rw [id, hl, List.length_drop, hexact]
  rfl

theorem reservedPrepend_refines {len : Nat} (h : Chains m bufs chain loose k)
    (hzero : (bufs i).length = 0) (hhead : (bufs i).head = none) (hlen : len < kPieceCapacity) :
    (runUnit bufs i ((bufs i).reservedPrepend len)).wp build m fun r m' =>
      Refines m m' loose loose k (.unit, familyBytes m chain) (Exact bufs (familyBytes m chain)) r := by
  have hnil : chain i = [] := by
    have := (h.holds i).rep.chain.head_eq
    rwa [hhead, eq_comm, List.head?_eq_none_iff] at this
  have hsame : update (familyBytes m chain) i [] = familyBytes m chain := by
    rw [Function.update_eq_self_iff]
    simp [familyBytes, hnil]
  suffices hupdate : (runUnit bufs i ((bufs i).reservedPrepend len)).wp build m fun r m' =>
      Refines m m' loose loose k (.unit, update (familyBytes m chain) i [])
        (Exact bufs (familyBytes m chain)) r by
    rwa [hsame] at hupdate
  apply runOn_spec h
  intro rest howns
  rw [hnil] at howns
  refine (Buffer.reservedPrepend_holds (hnil ▸ h.holds i) hzero howns hlen).imp ?_
  rintro b' m' ⟨p, hb', howns', hsame, _, hc, hl⟩
  exact ⟨[p], hb', howns', hsame, hc, rfl, fun _ => hl⟩

theorem readBuffer_refines {len : Nat} {j : ι} (h : Chains m bufs chain loose k) (hij : i ≠ j)
    (hpos : 0 < len) (hlen : len ≤ (bufs i).length) (hfound : ∃ p ∈ chain i, len ≤ (m.cell p).len) :
    (run bufs (.readBuffer i len j)).wp build m fun r m' =>
      Refines m m' loose loose k
        (apply (familyBytes m chain) (.readBuffer i (Buffer.passed m len (chain i) + len) j))
        (Buffer.ReadsFirst m len (chain i) ∧ Exact bufs (familyBytes m chain)) r := by
  obtain ⟨rest, howns, hput⟩ := h.focus₂ hij
  simp only [run, Prog.wp_bind, Prog.wp_pure]
  refine (Buffer.readBuffer_holds (h.holds i) (h.holds j) howns hpos hlen hfound).imp ?_
  rintro r m' ⟨ps', qs', hb', hc', howns', hsame, hps, hqs, hl, hlbuf⟩
  obtain ⟨hchains, hbytes⟩ := hput m' _ _ ps' qs' loose k hb' hc' howns' hsame.left
  rw [hps, hqs] at hbytes
  refine ⟨⟨_, hchains, hbytes⟩, rfl, ?_, hsame.right⟩
  rintro ⟨hfirst, hexact⟩
  have hle := Buffer.passed_add_le hfound
  rw [(Buffer.passed_eq_zero_iff hpos).mpr hfirst, Nat.zero_add] at hle ⊢
  refine (hexact.update ?_).update ?_
  · rw [hl, List.length_drop, hexact]
  · rw [hlbuf, List.length_append, List.length_take, hexact]
    exact congrArg _ (Nat.min_eq_left hle).symm

theorem swap_refines {j : ι} (h : Chains m bufs chain loose k) :
    (run bufs (.swap i j)).wp build m fun r m' =>
      Refines m m' loose loose k (apply (familyBytes m chain) (.swap i j))
        (Exact bufs (familyBytes m chain)) r := by
  simp only [run, Prog.wp_pure]
  by_cases hij : i = j
  · subst hij
    exact ⟨⟨chain, by simpa using h, by simp [apply]⟩, rfl, by simp [apply], SameOn.refl _ _⟩
  · obtain ⟨rest, howns, hput⟩ := h.focus₂ hij
    have howns' : Owns m (chain j ++ chain i ++ (rest ++ loose)) k :=
      howns.perm (List.perm_append_comm.append_right _)
    obtain ⟨hchains, hbytes⟩ := hput m _ _ _ _ loose k (h.holds j) (h.holds i) howns' (SameOn.refl _ _)
    exact ⟨⟨_, hchains, hbytes⟩, rfl,
      fun hexact => (Exact.update hexact (hexact j)).update (hexact i), SameOn.refl _ _⟩

theorem moveToQueueHead_refines (h : Chains m bufs chain loose k) :
    (run bufs (.moveToQueueHead i)).wp build m fun r m' =>
      Refines m m' loose (chain i ++ loose) k (apply (familyBytes m chain) (.moveToQueueHead i))
        (Exact bufs (familyBytes m chain)) r := by
  simp only [run, Buffer.moveToQueueHead, Prog.wp_pure]
  obtain ⟨rest, howns, _, hput⟩ := h.focus i
  have hperm : (chain i ++ (rest ++ loose)).Perm ([] ++ (rest ++ (chain i ++ loose))) := by
    rw [List.nil_append, ← List.append_assoc, ← List.append_assoc]
    exact List.perm_append_comm.append_right _
  obtain ⟨hchains, hbytes⟩ := hput m {} [] (chain i ++ loose) k (Holds.empty m)
    (howns.perm hperm) (SameOn.refl _ _)
  refine ⟨⟨_, hchains, by rw [hbytes]; rfl⟩, ?_, fun hexact => hexact.update rfl, SameOn.refl _ _⟩
  have hwalk := h.pieces_eq i
  simp only [Value.denote, apply, familyBytes]
  rw [← hwalk]
  rfl

theorem clear_refines (h : Chains m bufs chain loose k) (hsmall : (chain i).length < 4294967296) :
    (runUnit bufs i (bufs i).clear).wp build m fun r m' =>
      Refines m m' loose loose (k + (chain i).length) (apply (familyBytes m chain) (.clear i))
        (Exact bufs (familyBytes m chain)) r := by
  apply runOn_spec h
  intro rest howns
  refine (Buffer.clear_spec (h.holds i) howns hsmall).imp ?_
  rintro b' m' ⟨hb', howns', hsame⟩
  exact ⟨[], hb'.holds, howns', hsame, rfl, rfl, fun _ => hb'.length⟩

omit [DecidableEq ι] in
theorem Refines.weaken {m' : Mem} {loose' : List Ptr} {a : DequeValue × (ι → Bytes)}
    {keeps keeps' : Prop} {r : Value × (ι → Buffer)} (h : Refines m m' loose loose' k a keeps r)
    (himp : keeps' → keeps) : Refines m m' loose loose' k a keeps' r :=
  ⟨h.1, h.2.1, fun hk => h.2.2.1 (himp hk), h.2.2.2⟩

/-- One call, from chains that have the bytes it asks for: it does not fault, and it does to the
    bytes what the call it amounts to does on byte lists. -/
theorem run_holds (op : BufferOp ι) (h : Chains m bufs chain loose k) (hpre : op.Pre m bufs)
    (henough : op.Enough m bufs chain)
    (hsmall : ∀ i, op = .clear i → (chain i).length < 4294967296) :
    (op.run bufs).wp build m fun r m' =>
      Refines m m' loose (op.detached chain ++ loose) (k + op.bypassed chain)
        ((op.actual m bufs).apply (familyBytes m chain))
        (op.ReadsFirst m bufs ∧ Exact bufs (familyBytes m chain)) r := by
  cases op with
  | write i d => exact (write_refines h i).imp fun _ _ hr => hr.weaken And.right
  | writeInt32 i x => exact (write_refines h i).imp fun _ _ hr => hr.weaken And.right
  | writeInt16 i x => exact (write_refines h i).imp fun _ _ hr => hr.weaken And.right
  | writeInt8 i x => exact (write_refines h i).imp fun _ _ hr => hr.weaken And.right
  | reservedPrepend i len =>
    exact (reservedPrepend_refines h hpre.1 hpre.2.1 hpre.2.2).imp fun _ _ hr => hr.weaken And.right
  | prepend i d => exact (prepend_refines h hpre).imp fun _ _ hr => hr.weaken And.right
  | prependInt32 i x =>
    have hroom : Headroom m (bufs i) (intBytes 4 x).length := by simpa [intBytes, Pre] using hpre
    exact (prepend_refines h hroom).imp fun _ _ hr => hr.weaken And.right
  | prependInt16 i x =>
    have hroom : Headroom m (bufs i) (intBytes 2 x).length := by simpa [intBytes, Pre] using hpre
    exact (prepend_refines h hroom).imp fun _ _ hr => hr.weaken And.right
  | prependInt8 i x =>
    have hroom : Headroom m (bufs i) (intBytes 1 x).length := by simpa [intBytes, Pre] using hpre
    exact (prepend_refines h hroom).imp fun _ _ hr => hr.weaken And.right
  | read i len => exact (read_refines h hpre.1 hpre.2 henough).imp fun _ _ hr => hr.weaken And.right
  | readString i len =>
    rw [run, readString_run hpre.2]
    exact (read_refines h hpre.1 hpre.2 henough).imp fun _ _ hr => hr.weaken And.right
  | readAll i =>
    rw [run, Buffer.readAll, readString_run (Nat.le_refl _)]
    exact (read_refines h hpre (Nat.le_refl _) henough).imp fun _ _ hr => hr.weaken And.right
  | readInt32 i =>
    exact (readInt_refines h (by decide) hpre henough).imp fun _ _ hr => hr.weaken And.right
  | readInt16 i =>
    exact (readInt_refines h (by decide) hpre henough).imp fun _ _ hr => hr.weaken And.right
  | readInt8 i =>
    exact (readInt_refines h (by decide) hpre henough).imp fun _ _ hr => hr.weaken And.right
  | readBuffer i len j =>
    simp only [actual, ReadsFirst, h.pieces_eq i]
    exact readBuffer_refines h hpre.1 hpre.2.1 hpre.2.2 henough
  | skip i len => exact (skip_refines h hpre.1 hpre.2 henough).imp fun _ _ hr => hr.weaken And.right
  | swap i j => exact (swap_refines h).imp fun _ _ hr => hr.weaken And.right
  | moveToQueueHead i => exact (moveToQueueHead_refines h).imp fun _ _ hr => hr.weaken And.right
  | clear i => exact (clear_refines h (hsmall i rfl)).imp fun _ _ hr => hr.weaken And.right

/-! ### Calls that return -/

theorem runOn_enough {α : Type} {value : α → Value} {buf : α → Buffer} {call : Exec α} {P : Prop}
    (h : Chains m bufs chain loose k)
    (hcall : ∀ rest, Owns m (chain i ++ rest) k → call.wlp build m fun _ _ => P) :
    (runOn bufs i value buf call).wlp build m fun _ _ => P := by
  obtain ⟨rest, howns, _⟩ := h.focus i
  simp only [runOn, Prog.wlp_bind, Prog.wlp_pure]
  exact hcall _ howns

theorem read_enough {len : Nat} (h : Chains m bufs chain loose k) :
    (runBytes bufs i ((bufs i).read len)).wlp build m fun _ _ =>
      len ≤ (content m (chain i)).length :=
  runOn_enough h fun _ howns => (Buffer.read_enough (h.holds i) howns).imp fun _ _ hr => hr.2

theorem readString_enough {len : Nat} (h : Chains m bufs chain loose k) :
    (runBytes bufs i ((bufs i).readString len)).wlp build m fun _ _ =>
      len ≤ (content m (chain i)).length := by
  refine runOn_enough h fun _ howns => ?_
  simp only [Buffer.readString, Prog.wlp_bind, wlp_assert]
  exact fun _ => (Buffer.read_enough (h.holds i) howns).imp fun _ _ hr => hr.2

theorem readInt_enough {width : Nat} (h : Chains m bufs chain loose k) :
    (runInt bufs i (Buffer.readInt width (bufs i))).wlp build m fun _ _ =>
      width ≤ (content m (chain i)).length := by
  refine runOn_enough h fun _ howns => ?_
  simp only [Buffer.readInt, Prog.wlp_bind, Prog.wlp_pure]
  exact (Buffer.read_enough (h.holds i) howns).imp fun _ _ hr => hr.2

/-- A call that returns had its bytes: the loops come to a null piece otherwise. -/
theorem run_enough (op : BufferOp ι) (h : Chains m bufs chain loose k) (hpre : op.Pre m bufs) :
    (op.run bufs).wlp build m fun _ _ => op.Enough m bufs chain := by
  cases op with
  | read i len => exact read_enough h
  | readString i len => exact readString_enough h
  | readAll i => exact readString_enough h
  | readInt32 i => exact readInt_enough h
  | readInt16 i => exact readInt_enough h
  | readInt8 i => exact readInt_enough h
  | readBuffer i len j =>
    obtain ⟨rest, howns, _⟩ := h.focus₂ hpre.1
    simp only [run, Prog.wlp_bind, Prog.wlp_pure]
    exact Buffer.readBuffer_found (h.holds i) (h.holds j) howns
  | skip i len =>
    exact runOn_enough h fun _ howns => (Buffer.skip_enough (h.holds i) howns).imp fun _ _ hr => hr.2
  | _ => exact fun _ _ _ => trivial

theorem run_moves (op : BufferOp ι) (h : Chains m bufs chain loose k) (hpre : op.Pre m bufs)
    (hsmall : ∀ i, op = .clear i → (chain i).length < 4294967296) :
    (op.run bufs).wlp build m fun r m' =>
      Refines m m' loose (op.detached chain ++ loose) (k + op.bypassed chain)
        ((op.actual m bufs).apply (familyBytes m chain))
        (op.ReadsFirst m bufs ∧ Exact bufs (familyBytes m chain)) r :=
  fun r m' hrun => (run_holds op h hpre (run_enough op h hpre r m' hrun) hsmall).wlp r m' hrun

/-! ### Families -/

theorem enough_of_family (op : BufferOp ι) (h : Family m bufs chain loose k) (hpre : op.Pre m bufs)
    (hreads : op.ReadsFirst m bufs) : op.Enough m bufs chain := by
  have hlen : ∀ i, (bufs i).length ≤ (content m (chain i)).length := fun i =>
    Nat.le_of_eq (h.length i)
  cases op with
  | read i len => exact Nat.le_trans hpre.2 (hlen i)
  | readString i len => exact Nat.le_trans hpre.2 (hlen i)
  | readAll i => exact hlen i
  | readInt32 i => exact Nat.le_trans hpre (hlen i)
  | readInt16 i => exact Nat.le_trans hpre (hlen i)
  | readInt8 i => exact Nat.le_trans hpre (hlen i)
  | readBuffer i len j =>
    rw [ReadsFirst, h.toChains.pieces_eq i] at hreads
    exact Buffer.found_of_readsFirst hpre.2.1 hreads (Nat.le_trans hpre.2.2 (hlen i))
  | skip i len => exact Nat.le_trans hpre.2 (hlen i)
  | _ => trivial

theorem apply_actual (op : BufferOp ι) {d : ι → Bytes} (hexact : Exact bufs d) (hpre : op.Pre m bufs)
    (hreads : op.ReadsFirst m bufs) : (op.actual m bufs).apply d = op.apply d := by
  cases op with
  | readAll i => simp [actual, apply, takeBytes, hexact i]
  | readBuffer i len j =>
    rw [actual, (Buffer.passed_eq_zero_iff hpre.2.1).mpr hreads, Nat.zero_add]
  | _ => rfl

theorem run_spec (op : BufferOp ι) (h : Family m bufs chain loose k) (hpre : op.Pre m bufs)
    (hreads : op.ReadsFirst m bufs)
    (hsmall : ∀ i, op = .clear i → (chain i).length < 4294967296) :
    (op.run bufs).wp build m fun r m' => (∃ chain',
      Family m' r.2 chain' (op.detached chain ++ loose) (k + op.bypassed chain) ∧
      familyBytes m' chain' = (op.apply (familyBytes m chain)).2) ∧
      r.1.denote m' = (op.apply (familyBytes m chain)).1 ∧ SameOn loose m m' := by
  refine (run_holds op h.toChains hpre (enough_of_family op h hpre hreads) hsmall).imp ?_
  rw [apply_actual op h.length hpre hreads]
  rintro r m' ⟨⟨chain', hchains, hbytes⟩, hvalue, hlength, hsame⟩
  exact ⟨⟨chain', ⟨hchains, hbytes ▸ hlength ⟨hreads, h.length⟩⟩, hbytes⟩, hvalue, hsame⟩

/-- Where `read(len, Buffer*)` passes over a byte, it takes more than `len`. -/
theorem readsFirst_of_apply (op : BufferOp ι) (h : Chains m bufs chain loose k)
    (hpre : op.Pre m bufs) (henough : op.Enough m bufs chain)
    (happly : ((op.actual m bufs).apply (familyBytes m chain)).2 =
      (op.apply (familyBytes m chain)).2) : op.ReadsFirst m bufs := by
  cases op with
  | readBuffer i len j =>
    obtain ⟨hij, hpos, _⟩ := hpre
    have hle := Buffer.passed_add_le henough
    have hi := congrFun happly i
    simp only [apply, actual, Function.update_of_ne hij, Function.update_self, familyBytes,
      h.pieces_eq i] at hi
    have hlen := congrArg List.length hi
    simp only [List.length_drop] at hlen
    rw [ReadsFirst, h.pieces_eq i]
    exact (Buffer.passed_eq_zero_iff hpos).mp (by omega)
  | _ => trivial

end Spec

end BufferOp

/-! ## Runs -/

/-- The representation invariant of one buffer, read off the memory: the chain
    from `head_` ends, each piece is live and inside its block, and `tail_`,
    `size_` and `length_` agree with the chain. -/
structure Buffer.WellFormed (m : Mem) (b : Buffer) : Prop where
  chain : Chain (fun p => (m.cell p).next) b.head (b.pieces m)
  live : ∀ p ∈ b.pieces m, m.Live p
  inside : ∀ p ∈ b.pieces m, (m.cell p).off + (m.cell p).len ≤ kPieceCapacity
  length : b.length = ((b.pieces m).map fun p => (m.cell p).len).sum
  size : b.size = (b.pieces m).length
  tail : b.tail = (b.pieces m).getLast?

theorem content_length (m : Mem) (ps : List Ptr) :
    (content m ps).length = (ps.map fun p => (m.cell p).len).sum := by
  induction ps with
  | nil => rfl
  | cons p ps ih => rw [content_cons, List.length_append, length_bytes, ih, List.map_cons, List.sum_cons]

theorem Buffer.Rep.wellFormed {m : Mem} {b : Buffer} {ps : List Ptr} (h : b.Rep m ps)
    (live : ∀ p ∈ ps, m.Live p) (small : ps.length < 4294967296) : b.WellFormed m := by
  have hps : b.pieces m = ps := h.holds.rep.pieces_eq live
  refine ⟨?_, ?_, ?_, ?_, ?_, ?_⟩
  · rw [hps]; exact h.holds.rep.chain
  · rw [hps]; exact live
  · rw [hps]; exact h.holds.inside
  · rw [hps, h.length, content_length]
  · rw [hps, h.holds.rep.size, u32, Nat.mod_eq_of_lt small]
  · rw [hps]; exact h.holds.rep.tail

namespace Buffers

/-- The bytes of buffer `i`: `data[off, off + len)` along its chain. -/
def bytes (w : Buffers ι) (i : ι) : Bytes := content w.mem ((w.buf i).pieces w.mem)

/-- Every buffer holds fewer than `2^32` bytes and pieces. -/
def Small (w : Buffers ι) : Prop :=
  ∀ i, (w.bytes i).length < 4294967296 ∧ ((w.buf i).pieces w.mem).length < 4294967296

def call (w : Buffers ι) (build : Build) (op : BufferOp ι) : Except Fault (Value × Buffers ι) := do
  let r ← op.run w.buf build w.mem
  pure (r.1.1, ⟨r.2, r.1.2⟩)

/-- Calls from empty buffers, each within its `assert`s and such that `ok` holds, next to what
    they do to byte lists. -/
inductive Run (build : Build) (ok : Mem → (ι → Buffer) → BufferOp ι → Prop) :
    Buffers ι → (ι → Bytes) → Prop
  | start (cell : Ptr → Piece) : Run build ok ⟨{ cell := cell }, fun _ => {}⟩ (fun _ => [])
  | step {w w' : Buffers ι} {d : ι → Bytes} {v : Value} (op : BufferOp ι) (before : Run build ok w d)
      (pre : op.Pre w.mem w.buf) (meets : ok w.mem w.buf op) (call : w.call build op = .ok (v, w'))
      (small : w'.Small) : Run build ok w' (op.apply d).2

variable {build : Build} {w : Buffers ι} {d : ι → Bytes}

theorem bytes_eq {chain : ι → List Ptr} {loose : List Ptr} {k : Nat}
    (h : Chains w.mem w.buf chain loose k) : w.bytes = familyBytes w.mem chain := by
  funext i
  rw [bytes, h.pieces_eq i, familyBytes]

theorem call_eq_ok {op : BufferOp ι} {v : Value} {w' : Buffers ι} :
    w.call build op = .ok (v, w') ↔ op.run w.buf build w.mem = .ok ((v, w'.buf), w'.mem) := by
  obtain ⟨m', bufs'⟩ := w'
  simp only [call]
  cases op.run w.buf build w.mem with
  | error e => simp [bind, Except.bind]
  | ok r =>
    obtain ⟨⟨v', bufs⟩, m⟩ := r
    constructor
    · intro h
      cases h
      rfl
    · intro h
      cases h
      rfl

theorem call_spec (build : Build) (op : BufferOp ι) {chain : ι → List Ptr} {loose : List Ptr} {k : Nat}
    (h : Family w.mem w.buf chain loose k) (small : w.Small) (pre : op.Pre w.mem w.buf)
    (reads : op.ReadsFirst w.mem w.buf) :
    ∃ v w', w.call build op = .ok (v, w') ∧ w'.bytes = (op.apply w.bytes).2 ∧
      v.denote w'.mem = (op.apply w.bytes).1 ∧
      ∃ chain' loose' k', Family w'.mem w'.buf chain' loose' k' := by
  have hsmall : ∀ i, (chain i).length < 4294967296 := fun i => by
    rw [← h.toChains.pieces_eq i]; exact (small i).2
  obtain ⟨⟨v, bufs'⟩, m', hrun, ⟨chain', hfamily, hbytes⟩, hvalue, _⟩ :
      (op.run w.buf).wp build w.mem _ := BufferOp.run_spec op h pre reads fun i _ => hsmall i
  refine ⟨v, ⟨m', bufs'⟩, call_eq_ok.mpr hrun, ?_, ?_, chain', _, _, hfamily⟩
  · rw [bytes_eq (w := ⟨m', bufs'⟩) hfamily.toChains, hbytes, bytes_eq h.toChains]
  · rw [bytes_eq h.toChains]; exact hvalue

theorem call_moves {op : BufferOp ι} {v : Value} {w' : Buffers ι} {chain : ι → List Ptr}
    {loose : List Ptr} {k : Nat} (h : Chains w.mem w.buf chain loose k) (pre : op.Pre w.mem w.buf)
    (fits : ∀ i, op = .clear i → (chain i).length < 4294967296)
    (hcall : w.call build op = .ok (v, w')) :
    w'.bytes = ((op.actual w.mem w.buf).apply w.bytes).2 ∧
      ∃ chain' loose' k', Chains w'.mem w'.buf chain' loose' k' := by
  obtain ⟨⟨chain', hchains, hbytes⟩, _⟩ :=
    BufferOp.run_moves op h pre fits _ _ (call_eq_ok.mp hcall)
  refine ⟨?_, chain', _, _, hchains⟩
  rw [bytes_eq hchains, hbytes, bytes_eq h]

/-- The invariant of a run whose calls of `read(len, Buffer*)` pass over nothing. -/
theorem Run.family (h : Run build BufferOp.ReadsFirst w d) :
    w.bytes = d ∧ w.Small ∧ ∃ chain loose k, Family w.mem w.buf chain loose k := by
  induction h with
  | start cell =>
    have hfamily := Family.initial (ι := ι) cell
    refine ⟨?_, fun i => ?_, _, _, _, hfamily⟩
    · rw [bytes_eq (w := ⟨{ cell := cell }, fun _ => {}⟩) hfamily.toChains]
      rfl
    · simp [bytes, Queue.pieces, walk]
  | step op _ pre reads hcall small ih =>
    obtain ⟨rfl, hsmall, chain, loose, k, hfamily⟩ := ih
    obtain ⟨v', w'', hcall', hbytes, _, hfamily'⟩ := call_spec build op hfamily hsmall pre reads
    cases hcall.symm.trans hcall'
    exact ⟨hbytes, small, hfamily'⟩

/-- Calls from empty buffers, with any number of bytes and pieces.  Only `clear`, whose
    loop ends when `size_` is zero, needs the count of pieces not to have wrapped. -/
inductive Built (build : Build) : Buffers ι → Prop
  | start (cell : Ptr → Piece) : Built build ⟨{ cell := cell }, fun _ => {}⟩
  | step {w w' : Buffers ι} {v : Value} (op : BufferOp ι) (before : Built build w)
      (pre : op.Pre w.mem w.buf) (call : w.call build op = .ok (v, w'))
      (fits : ∀ i, op = .clear i → ((w.buf i).pieces w.mem).length < 4294967296) : Built build w'

/-- What such a sequence of calls builds has its chains, if not its lengths. -/
theorem Built.chains (h : Built build w) :
    ∃ chain loose k, Chains w.mem w.buf chain loose k := by
  induction h with
  | start cell => exact ⟨_, _, _, (Family.initial cell).toChains⟩
  | @step _ _ _ op _ pre hcall fits ih =>
    obtain ⟨chain, loose, k, hchains⟩ := ih
    have hsmall : ∀ i, op = .clear i → (chain i).length < 4294967296 := fun i hop => by
      rw [← hchains.pieces_eq i]
      exact fits i hop
    exact (call_moves hchains pre hsmall hcall).2

theorem Run.small {ok : Mem → (ι → Buffer) → BufferOp ι → Prop} (h : Run build ok w d) : w.Small := by
  cases h with
  | start cell => exact fun i => by simp [bytes, Queue.pieces, walk]
  | step op _ _ _ _ small => exact small

theorem Run.built {ok : Mem → (ι → Buffer) → BufferOp ι → Prop} (h : Run build ok w d) :
    Built build w := by
  induction h with
  | start cell => exact .start cell
  | step op before pre _ call _ ih => exact ih.step op pre call fun i _ => (before.small i).2

/-- Along every run whose calls of `read(len, Buffer*)` are given no more bytes than the first
    piece that is not empty has, the buffers hold the bytes of the deque and are well formed, and
    no piece is in two chains.  A further call that meets its `assert`s ends without a fault, with
    the bytes and the value it has on byte lists, if and only if it is such a call, too. -/
theorem buffer_refines_deque (h : Run build BufferOp.ReadsFirst w d) :
    w.bytes = d ∧ (∀ i, (w.buf i).WellFormed w.mem) ∧
    (∀ i j, i ≠ j → ∀ p ∈ (w.buf i).pieces w.mem, p ∉ (w.buf j).pieces w.mem) ∧
    ∀ op : BufferOp ι, op.Pre w.mem w.buf → ((∃ v w', w.call build op = .ok (v, w') ∧
      w'.bytes = (op.apply d).2 ∧ v.denote w'.mem = (op.apply d).1) ↔
        op.ReadsFirst w.mem w.buf) := by
  obtain ⟨rfl, hsmall, chain, loose, k, hfamily⟩ := h.family
  have hpieces := hfamily.toChains.pieces_eq
  refine ⟨rfl, fun i => ?_, fun i j hij p hp => ?_, fun op pre => ⟨?_, fun reads => ?_⟩⟩
  · exact (hfamily.rep i).wellFormed (fun p hp => hfamily.toChains.live hp) (hpieces i ▸ (hsmall i).2)
  · rw [hpieces] at hp ⊢
    exact hfamily.toChains.disjoint hij hp
  · rintro ⟨v, w', hcall, hbytes, _⟩
    have hfits : ∀ i, op = .clear i → (chain i).length < 4294967296 := fun i _ =>
      hpieces i ▸ (hsmall i).2
    have hmoves := (call_moves hfamily.toChains pre hfits hcall).1
    have henough := BufferOp.run_enough op hfamily.toChains pre _ _ (call_eq_ok.mp hcall)
    refine BufferOp.readsFirst_of_apply op hfamily.toChains pre henough ?_
    rw [← bytes_eq hfamily.toChains, ← hmoves, hbytes]
  · obtain ⟨v, w', hcall, hbytes, hvalue, _⟩ := call_spec build op hfamily hsmall pre reads
    exact ⟨v, w', hcall, hbytes, hvalue⟩

/-- Three bytes written to one of two buffers, one of them moved to the other; a `read` of the
    two that are left returns them. -/
theorem buffer_refines_deque_move_read :
    ∃ (w : Buffers Bool) (d : Bool → Bytes), Run .debug BufferOp.ReadsFirst w d ∧
      d true = [8, 9] ∧ d false = [7] ∧
      ∃ v w', w.call .debug (.read true 2) = .ok (v, w') ∧ v.denote w'.mem = .bytes [8, 9] := by
  have hrun : ∃ (w : Buffers Bool) (d : Bool → Bytes), Run .debug BufferOp.ReadsFirst w d ∧
      d true = [8, 9] ∧ d false = [7] ∧ (w.buf true).length = 2 := by
    refine ⟨_, _, .step (.readBuffer true 1 false) (.step (.write true [7, 8, 9])
      (.start fun _ => ⟨none, 0, 0, fun _ => 0⟩) trivial trivial rfl ?_)
      ⟨by decide, by decide, by decide⟩ ?_ rfl ?_, rfl, rfl, rfl⟩
    · intro i
      cases i <;> decide
    · show Buffer.ReadsFirst _ _ _
      decide
    · intro i
      cases i <;> decide
  obtain ⟨w, d, h, hd, hmoved, hlen⟩ := hrun
  have hpre : (BufferOp.read true 2).Pre w.mem w.buf := ⟨by decide, Nat.le_of_eq hlen.symm⟩
  obtain ⟨v, w', hcall, _, hvalue⟩ := ((buffer_refines_deque h).2.2.2 _ hpre).mpr trivial
  refine ⟨w, d, h, hd, hmoved, v, w', hcall, ?_⟩
  rw [hvalue]
  simp [BufferOp.apply, BufferOp.takeBytes, hd]

def after (w : Buffers ι) (build : Build) (op : BufferOp ι) : Buffers ι :=
  match w.call build op with
  | .ok r => r.2
  | .error _ => w

def fault (w : Buffers ι) (build : Build) (op : BufferOp ι) : Option Fault :=
  match w.call build op with
  | .ok _ => none
  | .error e => some e

theorem call_after {op : BufferOp ι} (h : w.fault build op = none) :
    ∃ v, w.call build op = .ok (v, w.after build op) := by
  unfold fault at h
  unfold after
  cases hcall : w.call build op with
  | error e => simp [hcall] at h
  | ok r => exact ⟨r.1, rfl⟩

theorem Run.after (op : BufferOp ι) (before : Run build (fun _ _ _ => True) w d)
    (pre : op.Pre w.mem w.buf) (returns : w.fault build op = none)
    (small : (w.after build op).Small) :
    Run build (fun _ _ _ => True) (w.after build op) (op.apply d).2 := by
  obtain ⟨v, hcall⟩ := call_after returns
  exact before.step op pre trivial hcall small

/-- One byte written to a buffer, and a piece of five moved behind it.  Of the six bytes
    `read(2, Buffer*)` then takes the first three and counts two, and `read(6, Buffer*)` comes to
    a null piece. -/
theorem read_passes_over_piece :
    ∃ (w w' : Buffers (Fin 3)) (d : Fin 3 → Bytes), Run .debug (fun _ _ _ => True) w d ∧
      w.bytes 0 = [1, 2, 3, 4, 5, 6] ∧ (w.buf 0).length = 6 ∧
      w.fault .debug (.readBuffer 0 6 2) = some .nullPiece ∧
      (BufferOp.readBuffer 0 2 2).Pre w.mem w.buf ∧
      (∃ v, w.call .debug (.readBuffer 0 2 2) = .ok (v, w')) ∧
      ((BufferOp.readBuffer 0 2 2).apply d).2 0 = [3, 4, 5, 6] ∧ w'.bytes 0 = [4, 5, 6] ∧
      (w'.buf 0).length = 4 ∧ ((BufferOp.readBuffer 0 2 2).apply d).2 2 = [1, 2] ∧
      w'.bytes 2 = [1, 2, 3] ∧ (w'.buf 2).length = 2 := by
  have hempty : Run (ι := Fin 3) .debug (fun _ _ _ => True) _ _ := .start fun _ => ⟨none, 0, 0, fun _ => 0⟩
  have hfirst := hempty.after (.write 0 [1]) trivial (by decide +kernel)
    (by unfold Small; decide +kernel)
  have hsecond := hfirst.after (.write 1 [2, 3, 4, 5, 6]) trivial (by decide +kernel)
    (by unfold Small; decide +kernel)
  have hmoved := hsecond.after (.readBuffer 1 5 0) ⟨by decide, by decide, by decide +kernel⟩
    (by decide +kernel) (by unfold Small; decide +kernel)
  exact ⟨_, _, _, hmoved, by decide +kernel, by decide +kernel, by decide +kernel,
    ⟨by decide, by decide, by decide +kernel⟩, call_after (by decide +kernel), by decide +kernel,
    by decide +kernel, by decide +kernel, by decide +kernel, by decide +kernel, by decide +kernel⟩

end Buffers

end Netpp
