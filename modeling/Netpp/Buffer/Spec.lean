import Netpp.Buffer.Basic

/-! # What the `Buffer` operations do

`content m ps` is the concatenation of `data[off, off + len)` along a chain.
`Buffer.Rep m b ps` is the representation invariant of `Buffer`: the queue is
well formed, every piece stays inside its block and `length_` is the number of
bytes held.

Each operation has one specification.  It is stated for a memory whose handed
out pieces are `ps ++ rest`: the buffer's own chain and whatever else is in use,
which the operation leaves alone.
-/

namespace Netpp

/-! ## Chains of bytes -/

def content (m : Mem) (ps : List Ptr) : Bytes := ps.flatMap fun p => (m.cell p).bytes

@[simp] theorem content_nil (m : Mem) : content m [] = [] := rfl

@[simp] theorem content_cons (m : Mem) (p : Ptr) (ps : List Ptr) :
    content m (p :: ps) = (m.cell p).bytes ++ content m ps := rfl

@[simp] theorem content_append (m : Mem) (ps qs : List Ptr) :
    content m (ps ++ qs) = content m ps ++ content m qs := by
  simp [content]

theorem content_same {m m' : Mem} {ps : List Ptr} (h : SameOn ps m m') :
    content m' ps = content m ps := by
  induction ps with
  | nil => rfl
  | cons p ps ih =>
    rw [content_cons, content_cons, h p (by simp), ih fun q hq => h q (by simp [hq])]

theorem content_relinked {m m' : Mem} {qs : List Ptr} (h : m.Relinked m' qs) (ps : List Ptr) :
    content m' ps = content m ps := by
  induction ps with
  | nil => rfl
  | cons p ps ih => rw [content_cons, content_cons, h.bytes, ih]

@[simp] theorem length_bytes (c : Piece) : c.bytes.length = c.len := by simp [Piece.bytes]

def lens (m : Mem) (ps : List Ptr) : List Nat := ps.map fun p => (m.cell p).len

theorem lens_same {m m' : Mem} {ps : List Ptr} (h : SameOn ps m m') : lens m' ps = lens m ps :=
  List.map_congr_left fun p hp => by rw [h p hp]

theorem lens_cons (m : Mem) (p : Ptr) (ps : List Ptr) :
    lens m (p :: ps) = (m.cell p).len :: lens m ps := rfl

theorem lens_append (m : Mem) (ps qs : List Ptr) : lens m (ps ++ qs) = lens m ps ++ lens m qs :=
  List.map_append

theorem content_eq_nil_iff {m : Mem} {ps : List Ptr} :
    content m ps = [] ↔ ∀ p ∈ ps, (m.cell p).len = 0 := by
  rw [content, List.flatMap_eq_nil_iff]
  refine forall₂_congr fun p _ => ?_
  rw [← List.length_eq_zero_iff, length_bytes]

theorem sum_lens (m : Mem) (ps : List Ptr) : (lens m ps).sum = (content m ps).length := by
  induction ps with
  | nil => rfl
  | cons p ps ih =>
    rw [content_cons, List.length_append, length_bytes, ← ih]
    rfl

theorem SameOn.set_of_notMem {m : Mem} {ps : List Ptr} {p : Ptr} (c : Piece) (h : p ∉ ps) :
    SameOn ps m (m.set p c) := fun _ hq => Mem.set_cell_ne m c fun e => h (e ▸ hq)

theorem SameOn.of_relinked {m m' : Mem} {ps qs : List Ptr} (h : m.Relinked m' qs)
    (disjoint : ∀ p ∈ ps, p ∉ qs) : SameOn ps m m' := fun p hp => h.outside p (disjoint p hp)

/-- The lengths that are left when `n` bytes are taken from the front.  A piece that is used
    up is gone, an empty one behind it stays. -/
def dropLens : Nat → List Nat → List Nat
  | _, [] => []
  | n, l :: ls => if n < l then (l - n) :: ls else if n = l then ls else dropLens (n - l) ls

section DropLens

variable {n k l : Nat}

theorem dropLens_lt (h : n < l) (ls : List Nat) : dropLens n (l :: ls) = (l - n) :: ls := if_pos h

theorem dropLens_eq (h : n = l) (ls : List Nat) : dropLens n (l :: ls) = ls := by
  rw [dropLens, if_neg (by omega), if_pos h]

theorem dropLens_gt (h : l < n) (ls : List Nat) : dropLens n (l :: ls) = dropLens (n - l) ls := by
  rw [dropLens, if_neg (by omega), if_neg (by omega)]

theorem dropLens_add (hk : 0 < k) (ls : List Nat) :
    dropLens (n + k) ls = dropLens k (dropLens n ls) := by
  induction ls generalizing n with
  | nil => rfl
  | cons l ls ih =>
    rcases Nat.lt_trichotomy n l with hlt | heq | hgt
    · have hmore : n + k - l = k - (l - n) := by omega
      rw [dropLens_lt hlt, dropLens, dropLens, hmore, Nat.sub_sub]
      exact if_congr (by omega) rfl (if_congr (by omega) rfl rfl)
    · rw [dropLens_eq heq, dropLens_gt (by omega), heq, Nat.add_sub_cancel_left]
    · have hmore : n + k - l = n - l + k := by omega
      rw [dropLens_gt hgt, dropLens_gt (by omega), hmore, ih]

theorem pos_of_mem_dropLens {ls : List Nat} (h : ∀ l ∈ ls, 0 < l) :
    ∀ l ∈ dropLens n ls, 0 < l := by
  induction ls generalizing n with
  | nil => exact h
  | cons l ls ih =>
    have hrest : ∀ x ∈ ls, 0 < x := fun x hx => h x (List.mem_cons_of_mem l hx)
    unfold dropLens
    split
    · intro x hx
      cases List.mem_cons.mp hx with
      | inl heq => omega
      | inr hmem => exact hrest x hmem
    · split
      · exact hrest
      · exact ih hrest

end DropLens

/-- No piece of the chain is empty. -/
def Solid (m : Mem) (ps : List Ptr) : Prop := ∀ p ∈ ps, 0 < (m.cell p).len

theorem Solid.same {m m' : Mem} {ps : List Ptr} (h : Solid m ps) (hsame : SameOn ps m m') :
    Solid m' ps := fun p hp => by rw [hsame p hp]; exact h p hp

theorem Solid.dropLens {m m' : Mem} {ps ps' : List Ptr} {n : Nat} (h : Solid m ps)
    (hlens : lens m' ps' = dropLens n (lens m ps)) : Solid m' ps' := by
  have hpos : ∀ l ∈ lens m ps, 0 < l := List.forall_mem_map.mpr h
  intro p hp
  have hmem : (m'.cell p).len ∈ lens m' ps' := List.mem_map_of_mem hp
  rw [hlens] at hmem
  exact pos_of_mem_dropLens hpos _ hmem

theorem Solid.tail {m : Mem} {p : Ptr} {ps : List Ptr} (h : Solid m (p :: ps)) : Solid m ps :=
  fun q hq => h q (List.mem_cons_of_mem p hq)

/-- A queue and its chain, each piece inside its block. -/
structure Holds (m : Mem) (q : Queue) (ps : List Ptr) : Prop where
  rep : q.Rep m.cell ps
  inside : ∀ p ∈ ps, (m.cell p).off + (m.cell p).len ≤ kPieceCapacity

namespace Holds

variable {m m' : Mem} {q : Queue} {p : Ptr} {ps qs : List Ptr}

theorem empty (m : Mem) : Holds m {} [] := ⟨Queue.Rep.empty _, by simp⟩

theorem same (h : Holds m q ps) (hsame : SameOn ps m m') : Holds m' q ps :=
  ⟨h.rep.frame hsame, fun p hp => by rw [hsame p hp]; exact h.inside p hp⟩

theorem head (h : Holds m q (p :: ps)) : q.head = some p := h.rep.chain.1

theorem insideHead (h : Holds m q (p :: ps)) :
    (m.cell p).off + (m.cell p).len ≤ kPieceCapacity := h.inside p (by simp)

theorem set (h : Holds m q ps) {c : Piece} (link : c.next = (m.cell p).next)
    (room : c.off + c.len ≤ kPieceCapacity) : Holds (m.set p c) q ps := by
  refine ⟨⟨h.rep.chain.frame fun a _ => ?_, h.rep.tail, h.rep.size⟩, fun a ha => ?_⟩
  · by_cases hap : a = p
    · subst hap; simpa using link
    · rw [Mem.set_cell_ne m c hap]
  · by_cases hap : a = p
    · subst hap; simpa using room
    · rw [Mem.set_cell_ne m c hap]; exact h.inside a ha

end Holds

section Steps

variable {build : Build} {m : Mem} {q : Queue} {p : Ptr} {ps rest owned : List Ptr} {k : Nat}

theorem Queue.push_holds (hq : Holds m q ps) (howns : Owns m owned k)
    (sub : ∀ a ∈ ps, a ∈ owned) (hp : p ∈ owned) (fresh : p ∉ ps)
    (room : (m.cell p).off + (m.cell p).len ≤ kPieceCapacity) :
    (q.push (some p)).wp build m fun q' m' =>
      Holds m' q' (ps ++ [p]) ∧ Owns m' owned k ∧ m.Relinked m' (p :: ps) := by
  refine (Queue.push_spec hq.rep (fun a ha => howns.live (sub a ha)) (howns.live hp) fresh).imp ?_
  rintro q' m' ⟨hrep, hlink⟩
  refine ⟨⟨hrep, fun a ha => ?_⟩, howns.relinked hlink fun a ha => ?_, hlink⟩
  · rw [hlink.off, hlink.len]
    rcases List.mem_append.mp ha with ha | ha
    · exact hq.inside a ha
    · rw [List.mem_singleton.mp ha]; exact room
  · rcases List.mem_cons.mp ha with rfl | ha
    · exact hp
    · exact sub a ha

theorem Queue.pop_holds (hq : Holds m q (p :: ps)) (hp : m.Live p) :
    q.pop.wp build m fun r m' => m' = m ∧ r.1 = some p ∧ Holds m r.2 ps := by
  refine (Queue.pop_spec hq.rep hp).imp ?_
  rintro r m' ⟨hm, hr, hrep⟩
  exact ⟨hm, hr, hrep, fun a ha => hq.inside a (by simp [ha])⟩

end Steps

/-! ## Machine arithmetic inside a piece -/

theorem u16_of_le {n : Nat} (h : n ≤ kPieceCapacity) : u16 n = n := by
  simp only [u16, kPieceCapacity] at *
  omega

theorem u16Sub_of_le {a b : Nat} (h : b ≤ a) (ha : a ≤ kPieceCapacity) : u16Sub a b = a - b := by
  simp only [u16Sub, u16, kPieceCapacity] at *
  omega

theorem sizeSub_of_le {a b : Nat} (h : b ≤ a) : sizeSub a b = a - b := by simp [sizeSub, h]

section DropFront

variable {c : Piece} {n : Nat}

theorem dropFront_bytes (inside : c.off + c.len ≤ kPieceCapacity) (h : n ≤ c.len) :
    (c.dropFront n).bytes = c.bytes.drop n := by
  simp only [Piece.dropFront, Piece.bytes]
  rw [u16_of_le (by omega), u16Sub_of_le h (by omega), drop_slice _ h]

theorem dropFront_inside (inside : c.off + c.len ≤ kPieceCapacity) (h : n ≤ c.len) :
    (c.dropFront n).off + (c.dropFront n).len ≤ kPieceCapacity := by
  simp only [Piece.dropFront]
  rw [u16_of_le (by omega), u16Sub_of_le h (by omega)]
  omega

end DropFront

namespace Buffer

structure Rep (m : Mem) (b : Buffer) (ps : List Ptr) : Prop where
  holds : Holds m b.toQueue ps
  length : b.length = (content m ps).length

theorem Rep.empty (m : Mem) : Rep m {} [] := ⟨Holds.empty m, rfl⟩

theorem Rep.eq_empty {m : Mem} {b : Buffer} (h : Rep m b []) : b = {} := by
  obtain ⟨⟨⟨hhead, htail, hsize⟩, _⟩, hlength⟩ := h
  obtain ⟨⟨head, tail, size⟩, length⟩ := b
  simp only at hhead htail hsize hlength
  subst htail hsize hlength
  obtain rfl : head = none := hhead
  rfl

theorem Rep.same {m m' : Mem} {b : Buffer} {ps : List Ptr} (h : Rep m b ps)
    (hsame : SameOn ps m m') : Rep m' b ps :=
  ⟨h.holds.same hsame, by rw [content_same hsame]; exact h.length⟩

section Reading

variable {build : Build} {m : Mem} {b : Buffer} {p : Ptr} {ps rest : List Ptr} {k left fuel : Nat}

theorem pop_delete (hq : Holds m b.toQueue (p :: ps)) (howns : Owns m (p :: ps ++ rest) k) :
    b.pop.wp build m fun r m₁ => (deletePiece r.1).wp build m₁ fun _ m' =>
      Holds m' r.2.toQueue ps ∧ Owns m' (ps ++ rest) k ∧ SameOn (ps ++ rest) m m' ∧
      r.2.length = b.length := by
  simp only [pop, Prog.wp_bind, Prog.wp_pure]
  refine (Queue.pop_holds hq (howns.live (by simp))).imp ?_
  rintro ⟨item, q'⟩ m₁ ⟨rfl, rfl, hq'⟩
  refine (howns.deletePiece (List.Perm.refl _)).imp ?_
  rintro _ m' ⟨howns', hsame⟩
  exact ⟨hq'.same hsame.left, howns', hsame, trivial⟩

theorem store_dropFront (hq : Holds m b.toQueue (p :: ps)) (howns : Owns m (p :: ps ++ rest) k)
    (hleft : left ≤ (m.cell p).len) :
    (store b.head ((m.cell p).dropFront left)).wp build m fun _ m' =>
      Holds m' b.toQueue (p :: ps) ∧ Owns m' (p :: ps ++ rest) k ∧ SameOn rest m m' ∧
      content m' (p :: ps) = (content m (p :: ps)).drop left ∧
      lens m' (p :: ps) = ((m.cell p).len - left) :: lens m ps := by
  have hnodup := howns.nodup
  rw [List.cons_append, List.nodup_cons, List.mem_append, not_or] at hnodup
  rw [hq.head, wp_store (howns.live (by simp))]
  refine ⟨hq.set rfl (dropFront_inside hq.insideHead hleft), howns.set (by simp) _,
    SameOn.set_of_notMem _ hnodup.1.2, ?_, ?_⟩
  · rw [content_cons, content_cons, Mem.set_cell_self, dropFront_bytes hq.insideHead hleft,
      content_same (SameOn.set_of_notMem _ hnodup.1.1),
      List.drop_append_of_le_length (by simpa using hleft)]
  · have hinside := hq.insideHead
    have hlen : ((m.cell p).dropFront left).len = (m.cell p).len - left := by
      rw [Piece.dropFront, u16Sub_of_le hleft (by omega)]
    rw [← lens_same (SameOn.set_of_notMem ((m.cell p).dropFront left) hnodup.1.1), ← hlen]
    rw [lens_cons, Mem.set_cell_self]

theorem readLoop_spec {d : Bytes} (hq : Holds m b.toQueue ps) (howns : Owns m (ps ++ rest) k)
    (hfuel : ps.length < fuel) (hne : ps ≠ []) (hleft : left ≤ (content m ps).length) :
    (readLoop fuel b left d).wp build m fun r m' => ∃ ps',
      Holds m' r.2.toQueue ps' ∧ Owns m' (ps' ++ rest) k ∧ SameOn rest m m' ∧
      r.1 = d ++ (content m ps).take left ∧ content m' ps' = (content m ps).drop left ∧
      r.2.length = b.length ∧ lens m' ps' = dropLens left (lens m ps) := by
  -- the induction follows the chain: each round but the last drops its front piece
  induction ps generalizing fuel b left d m with
  | nil => exact absurd rfl hne
  | cons p ps ih =>
    obtain ⟨fuel, rfl⟩ : ∃ n, fuel = n + 1 := ⟨fuel - 1, by omega⟩
    have hinside := hq.insideHead
    have hlive : m.Live p := howns.live (by simp)
    simp only [readLoop, Prog.wp_bind]
    rw [hq.head, wp_load hlive]
    split
    · rename_i hle
      rw [Prog.wp_bind, wp_copyOut (by omega)]
      have htake : slice (m.cell p).data (m.cell p).off left = (content m (p :: ps)).take left := by
        rw [content_cons, List.take_append_of_le_length (by simpa using hle), Piece.bytes, take_slice _ hle]
      split
      · rename_i hlt
        rw [Prog.wp_bind, ← hq.head]
        refine (store_dropFront hq howns hle).imp ?_
        rintro _ m' ⟨hq', howns', hsame, hcontent, hlens⟩
        rw [Prog.wp_pure]
        exact ⟨p :: ps, hq', howns', hsame, by rw [htake], hcontent, rfl,
          hlens.trans (dropLens_lt hlt _).symm⟩
      · simp only [Prog.wp_bind, Prog.wp_pure]
        refine (pop_delete hq howns).imp fun r m₁ hr => hr.imp ?_
        rintro _ m' ⟨hq', howns', hsame, hlen⟩
        have hwhole : left = (m.cell p).bytes.length := by rw [length_bytes]; omega
        have hused : left = (m.cell p).len := by rw [hwhole, length_bytes]
        refine ⟨ps, hq', howns', hsame.right, by rw [htake], ?_, hlen,
          (lens_same hsame.left).trans (dropLens_eq hused _).symm⟩
        rw [content_same hsame.left, content_cons, hwhole, List.drop_left]
    · rename_i hgt
      rw [Prog.wp_bind, wp_copyOut (by omega)]
      simp only [Prog.wp_bind]
      refine (pop_delete hq howns).imp fun r m₁ hr => hr.imp ?_
      rintro _ m' ⟨hq', howns', hsame, hlen⟩
      have hcontent : content m' ps = content m ps := content_same hsame.left
      rw [content_cons, List.length_append, length_bytes] at hleft
      have hmore : ps ≠ [] := by
        rintro rfl
        simp at hleft
        omega
      refine (ih hq' howns' (by simpa using hfuel) hmore (by rw [hcontent]; omega)).imp ?_
      rintro r' m'' ⟨ps', hq'', howns'', hsame', hd, hc, hlen', hlens⟩
      have hlong : (m.cell p).bytes.length ≤ left := by rw [length_bytes]; omega
      have hdrop : dropLens left (lens m (p :: ps)) = dropLens (left - (m.cell p).len) (lens m' ps) := by
        rw [lens_cons, dropLens_gt (Nat.lt_of_not_le hgt), lens_same hsame.left]
      refine ⟨ps', hq'', howns'', hsame.right.trans hsame', ?_, ?_, hlen'.trans hlen,
        hlens.trans hdrop.symm⟩
      · rw [hd, hcontent, content_cons, List.append_assoc, List.take_append, length_bytes,
          List.take_of_length_le hlong, Piece.bytes]
      · rw [hc, hcontent, content_cons, List.drop_append, length_bytes,
          List.drop_of_length_le hlong, List.nil_append]

theorem skipLoop_spec (hq : Holds m b.toQueue ps) (howns : Owns m (ps ++ rest) k)
    (hfuel : ps.length < fuel) (hne : ps ≠ []) (hleft : left ≤ (content m ps).length) :
    (skipLoop fuel b left).wp build m fun b' m' => ∃ ps',
      Holds m' b'.toQueue ps' ∧ Owns m' (ps' ++ rest) k ∧ SameOn rest m m' ∧
      content m' ps' = (content m ps).drop left ∧ b'.length = b.length ∧
      lens m' ps' = dropLens left (lens m ps) := by
  induction ps generalizing fuel b left m with
  | nil => exact absurd rfl hne
  | cons p ps ih =>
    obtain ⟨fuel, rfl⟩ : ∃ n, fuel = n + 1 := ⟨fuel - 1, by omega⟩
    have hlive : m.Live p := howns.live (by simp)
    simp only [skipLoop, Prog.wp_bind]
    rw [hq.head, wp_load hlive]
    split
    · rename_i hle
      split
      · rename_i hlt
        rw [Prog.wp_bind, ← hq.head]
        refine (store_dropFront hq howns hle).imp ?_
        rintro _ m' ⟨hq', howns', hsame, hcontent, hlens⟩
        rw [Prog.wp_pure]
        exact ⟨p :: ps, hq', howns', hsame, hcontent, rfl, hlens.trans (dropLens_lt hlt _).symm⟩
      · simp only [Prog.wp_bind, Prog.wp_pure]
        refine (pop_delete hq howns).imp fun r m₁ hr => hr.imp ?_
        rintro _ m' ⟨hq', howns', hsame, hlen⟩
        have hwhole : left = (m.cell p).bytes.length := by rw [length_bytes]; omega
        have hused : left = (m.cell p).len := by rw [hwhole, length_bytes]
        refine ⟨ps, hq', howns', hsame.right, ?_, hlen,
          (lens_same hsame.left).trans (dropLens_eq hused _).symm⟩
        rw [content_same hsame.left, content_cons, hwhole, List.drop_left]
    · rename_i hgt
      simp only [Prog.wp_bind]
      refine (pop_delete hq howns).imp fun r m₁ hr => hr.imp ?_
      rintro _ m' ⟨hq', howns', hsame, hlen⟩
      have hcontent : content m' ps = content m ps := content_same hsame.left
      rw [content_cons, List.length_append, length_bytes] at hleft
      have hmore : ps ≠ [] := by
        rintro rfl
        simp at hleft
        omega
      refine (ih hq' howns' (by simpa using hfuel) hmore (by rw [hcontent]; omega)).imp ?_
      rintro b' m'' ⟨ps', hq'', howns'', hsame', hc, hlen', hlens⟩
      have hlong : (m.cell p).bytes.length ≤ left := by rw [length_bytes]; omega
      have hdrop : dropLens left (lens m (p :: ps)) = dropLens (left - (m.cell p).len) (lens m' ps) := by
        rw [lens_cons, dropLens_gt (Nat.lt_of_not_le hgt), lens_same hsame.left]
      refine ⟨ps', hq'', howns'', hsame.right.trans hsame', ?_, hlen'.trans hlen,
        hlens.trans hdrop.symm⟩
      rw [hc, hcontent, content_cons, List.drop_append, length_bytes,
        List.drop_of_length_le hlong, List.nil_append]

theorem wp_chainBound {Q : Nat → Mem → Prop} : chainBound.wp build m Q ↔ Q (m.brk + 1) m :=
  Prog.wp_of_eq_ok rfl

theorem chain_lt_bound (howns : Owns m (ps ++ rest) k) : ps.length < m.brk + 1 := by
  have := howns.length_le
  rw [List.length_append] at this
  omega

/-- `read` on a chain with enough bytes, whatever `length_` says: the first `len` of them are
    returned and removed. -/
theorem read_holds {len : Nat} (hq : Holds m b.toQueue ps) (howns : Owns m (ps ++ rest) k)
    (hne : ps ≠ []) (hpos : build = .debug → 0 < len) (hlen : len ≤ b.length)
    (henough : len ≤ (content m ps).length) :
    (b.read len).wp build m fun r m' => ∃ ps',
      Holds m' r.2.toQueue ps' ∧ Owns m' (ps' ++ rest) k ∧ SameOn rest m m' ∧
      r.1 = (content m ps).take len ∧ content m' ps' = (content m ps).drop len ∧
      lens m' ps' = dropLens len (lens m ps) ∧ r.2.length = b.length - len := by
  rw [read, Prog.wp_bind, wp_assert_iff]
  refine ⟨fun hbuild => decide_eq_true (hpos hbuild), ?_⟩
  simp only [Prog.wp_bind, wp_assert (decide_eq_true hlen), wp_chainBound, Prog.wp_pure]
  refine (readLoop_spec hq howns (chain_lt_bound howns) hne henough).imp ?_
  rintro r m' ⟨ps', hq', howns', hsame, hd, hc, hl, hlens⟩
  exact ⟨ps', hq', howns', hsame, hd, hc, hlens, by rw [hl, sizeSub_of_le hlen]⟩

/-- `read`: the first `len` bytes are returned and removed.  The Debug build
    also wants `len` positive. -/
theorem read_spec {len : Nat} (hb : b.Rep m ps) (howns : Owns m (ps ++ rest) k)
    (hne : ps ≠ []) (hpos : build = .debug → 0 < len) (hlen : len ≤ b.length) :
    (b.read len).wp build m fun r m' => ∃ ps',
      r.2.Rep m' ps' ∧ Owns m' (ps' ++ rest) k ∧ SameOn rest m m' ∧
      r.1 = (content m ps).take len ∧ content m' ps' = (content m ps).drop len ∧
      lens m' ps' = dropLens len (lens m ps) := by
  refine (read_holds hb.holds howns hne hpos hlen (hb.length ▸ hlen)).imp ?_
  rintro r m' ⟨ps', hq', howns', hsame, hd, hc, hlens, hl⟩
  exact ⟨ps', ⟨hq', by rw [hl, hb.length, hc, List.length_drop]⟩, howns', hsame, hd, hc, hlens⟩

theorem skip_holds {len : Nat} (hq : Holds m b.toQueue ps) (howns : Owns m (ps ++ rest) k)
    (hne : ps ≠ []) (hlen : len ≤ b.length) (henough : len ≤ (content m ps).length) :
    (b.skip len).wp build m fun b' m' => ∃ ps',
      Holds m' b'.toQueue ps' ∧ Owns m' (ps' ++ rest) k ∧ SameOn rest m m' ∧
      content m' ps' = (content m ps).drop len ∧ lens m' ps' = dropLens len (lens m ps) ∧
      b'.length = b.length - len := by
  simp only [skip, Prog.wp_bind, wp_assert (decide_eq_true hlen), wp_chainBound, Prog.wp_pure]
  refine (skipLoop_spec hq howns (chain_lt_bound howns) hne henough).imp ?_
  rintro b' m' ⟨ps', hq', howns', hsame, hc, hl, hlens⟩
  exact ⟨ps', hq', howns', hsame, hc, hlens, by rw [hl, sizeSub_of_le hlen]⟩

theorem skip_spec {len : Nat} (hb : b.Rep m ps) (howns : Owns m (ps ++ rest) k)
    (hne : ps ≠ []) (hlen : len ≤ b.length) :
    (b.skip len).wp build m fun b' m' => ∃ ps',
      b'.Rep m' ps' ∧ Owns m' (ps' ++ rest) k ∧ SameOn rest m m' ∧
      content m' ps' = (content m ps).drop len ∧ lens m' ps' = dropLens len (lens m ps) := by
  refine (skip_holds hb.holds howns hne hlen (hb.length ▸ hlen)).imp ?_
  rintro b' m' ⟨ps', hq', howns', hsame, hc, hlens, hl⟩
  exact ⟨ps', ⟨hq', by rw [hl, hb.length, hc, List.length_drop]⟩, howns', hsame, hc, hlens⟩

/-! ### Chains with too few bytes

`length_` can promise more bytes than the chain holds.  The loops then come to the end of the
chain and dereference a null piece. -/

theorem readLoop_enough {d : Bytes} (hq : Holds m b.toQueue ps) (howns : Owns m (ps ++ rest) k) :
    (readLoop fuel b left d).wlp build m fun _ _ => ps ≠ [] ∧ left ≤ (content m ps).length := by
  induction fuel generalizing b left d m ps with
  | zero => exact Prog.wlp_throw _ _ _ _
  | succ fuel ih =>
    simp only [readLoop, Prog.wlp_bind]
    cases ps with
    | nil =>
      rw [show b.head = none from hq.rep.chain]
      exact fun _ _ h => by cases h
    | cons p ps =>
      rw [hq.head]
      apply wlp_load
      rw [content_cons, List.length_append, length_bytes]
      split
      · rename_i hle
        exact fun _ _ _ => ⟨by simp, by omega⟩
      · simp only [Prog.wlp_bind]
        refine ((wp_copyOut (by have := hq.insideHead; omega)).mpr ?_).wlp
        refine (pop_delete hq howns).wlp.imp fun r m₁ hr => hr.wlp.imp ?_
        rintro _ m' ⟨hq', howns', hsame, _⟩
        refine (ih hq' howns').imp ?_
        rw [content_same hsame.left]
        rintro _ _ ⟨_, hmore⟩
        exact ⟨by simp, by omega⟩

theorem skipLoop_enough (hq : Holds m b.toQueue ps) (howns : Owns m (ps ++ rest) k) :
    (skipLoop fuel b left).wlp build m fun _ _ => ps ≠ [] ∧ left ≤ (content m ps).length := by
  induction fuel generalizing b left m ps with
  | zero => exact Prog.wlp_throw _ _ _ _
  | succ fuel ih =>
    simp only [skipLoop, Prog.wlp_bind]
    cases ps with
    | nil =>
      rw [show b.head = none from hq.rep.chain]
      exact fun _ _ h => by cases h
    | cons p ps =>
      rw [hq.head]
      apply wlp_load
      rw [content_cons, List.length_append, length_bytes]
      split
      · exact fun _ _ _ => ⟨by simp, by omega⟩
      · simp only [Prog.wlp_bind]
        refine (pop_delete hq howns).wlp.imp fun r m₁ hr => hr.wlp.imp ?_
        rintro _ m' ⟨hq', howns', hsame, _⟩
        refine (ih hq' howns').imp ?_
        rw [content_same hsame.left]
        rintro _ _ ⟨_, hmore⟩
        exact ⟨by simp, by omega⟩

theorem read_enough {len : Nat} (hq : Holds m b.toQueue ps) (howns : Owns m (ps ++ rest) k) :
    (b.read len).wlp build m fun _ _ => ps ≠ [] ∧ len ≤ (content m ps).length := by
  simp only [read, Prog.wlp_bind, wlp_assert, Prog.wlp_pure]
  intro _ _
  exact (wp_chainBound.mpr (readLoop_enough hq howns)).wlp

theorem skip_enough {len : Nat} (hq : Holds m b.toQueue ps) (howns : Owns m (ps ++ rest) k) :
    (b.skip len).wlp build m fun _ _ => ps ≠ [] ∧ len ≤ (content m ps).length := by
  simp only [skip, Prog.wlp_bind, wlp_assert, Prog.wlp_pure]
  intro _
  exact (wp_chainBound.mpr (skipLoop_enough hq howns)).wlp

theorem ne_nil_of_pos {len : Nat} (hb : b.Rep m ps) (hpos : 0 < len) (hlen : len ≤ b.length) :
    ps ≠ [] := by
  rintro rfl
  rw [hb.length] at hlen
  simp at hlen
  omega

end Reading

end Buffer

end Netpp
