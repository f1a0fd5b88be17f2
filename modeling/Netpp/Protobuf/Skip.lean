import Netpp.Buffer.Drain
import Netpp.Protobuf.InputContract

/-! # `BufferInputStream::Skip`

`Skip` runs the loop of `Buffer::skip` when it is asked for no more bytes than are left, and
otherwise fails where it stands.  The contract wants it to go to the end of the stream then,
like a caller who reads with `Next` and discards what he gets.

* `Linked.skip`: `Buffer::skip` also on a buffer whose `tail_` is null.
* `skip_reads_iff`, `skipByNext_iff`: when `Skip`, and a loop of `Next` in its place, do what
  the contract says.
* `skip_contract_iff`: the two put together, at every position a caller can reach.
-/

namespace Netpp

/-! ## `Buffer::skip` -/

section Linked

variable {build : Build} {m : Mem} {b : Buffer} {p : Ptr} {ps rest : List Ptr} {k count : Nat}

/-- What taking the first `count` bytes leaves of a chain. -/
structure Shortened (m m' : Mem) (b : Buffer) (ps ps' rest : List Ptr) (k count : Nat) : Prop where
  linked : Linked m' b ps'
  owns : Owns m' (ps' ++ rest) k
  same : SameOn rest m m'
  bytes : content m' ps' = (content m ps).drop count

theorem Linked.store_lone (h : Linked m b [p]) (htail : b.tail = none) (howns : Owns m (p :: rest) k)
    (hlen : count ≤ b.length) :
    (store b.head ((m.cell p).dropFront count)).wp build m fun _ m' =>
      Shortened m m' { b with length := sizeSub b.length count } [p] [p] rest k count := by
  have hhead : b.head = some p := h.chain.1
  have hone : content m [p] = (m.cell p).bytes := List.append_nil _
  have hlength := h.length
  rw [hone, length_bytes] at hlength
  -- with `tail_` set this would be a well formed buffer, and nothing here looks at `tail_`
  have hholds : Holds m ({ b with head := some p, tail := some p } : Buffer).toQueue [p] :=
    ⟨⟨hhead ▸ h.chain, rfl, h.size⟩, h.inside⟩
  rw [hhead]
  refine (Buffer.store_dropFront hholds howns (hlength ▸ hlen)).imp ?_
  intro _ m' ⟨hq, howns', hsame, hcontent, _⟩
  have hchain : Chain (fun a => (m'.cell a).next) b.head [p] := by
    rw [hhead]
    exact hq.rep.chain
  refine ⟨⟨hchain, hq.inside, h.size, ?_, .inr ⟨rfl, htail⟩⟩, howns', hsame, hcontent⟩
  rw [hcontent, List.length_drop, hone, length_bytes, ← hlength]
  exact sizeSub_of_le hlen

theorem Linked.pop_lone (h : Linked m b [p]) (howns : Owns m (p :: rest) k) :
    b.pop.wp build m fun r m₁ => (deletePiece r.1).wp build m₁ fun _ m' =>
      Shortened m m' { r.2 with length := sizeSub r.2.length b.length } [p] [] rest k b.length ∧
        r.2.length = b.length := by
  have hhead : b.head = some p := h.chain.1
  have hlive : m.Live p := howns.live (by simp)
  have hnext : (m.cell p).next = none := h.chain.2
  simp only [Buffer.pop, Queue.pop, hhead, Prog.wp_bind, wp_load hlive, Prog.wp_pure, hnext]
  refine (howns.deletePiece (List.Perm.refl _)).imp ?_
  intro _ m' ⟨howns', hsame⟩
  have hzero : sizeSub b.length b.length = 0 := by rw [sizeSub_of_le (Nat.le_refl _), Nat.sub_self]
  have hsize : u32Sub b.size 1 = u32 ([] : List Ptr).length := by
    rw [h.size]
    simp [u32, u32Sub]
  refine ⟨⟨⟨rfl, by simp, hsize, hzero, .inl rfl⟩, howns', hsame, ?_⟩, trivial⟩
  rw [h.length, List.drop_length, content_nil]

/-- A lone piece whose buffer has lost its `tail_`. -/
theorem Linked.skip_lone (h : Linked m b [p]) (htail : b.tail = none) (howns : Owns m (p :: rest) k)
    (hlen : count ≤ b.length) :
    (b.skip count).wp build m fun b' m' => ∃ ps', Shortened m m' b' [p] ps' rest k count := by
  have hhead : b.head = some p := h.chain.1
  have hlength := h.length
  rw [content_cons, content_nil, List.append_nil, length_bytes] at hlength
  simp only [Buffer.skip, Prog.wp_bind, wp_assert (decide_eq_true hlen), Buffer.wp_chainBound,
    Buffer.skipLoop, Prog.wp_pure]
  rw [hhead, wp_load (howns.live (by simp)), if_pos (hlength ▸ hlen), ← hhead]
  split
  · rw [Prog.wp_bind]
    refine (h.store_lone htail howns hlen).imp ?_
    intro _ m' hshort
    rw [Prog.wp_pure]
    exact ⟨[p], hshort⟩
  · rename_i hge
    have hall : count = b.length := by omega
    simp only [Prog.wp_bind, Prog.wp_pure, hall]
    refine (h.pop_lone howns).imp fun r m₁ hr => hr.imp ?_
    rintro _ m' ⟨hshort, _⟩
    exact ⟨[], hshort⟩

theorem Linked.skip (h : Linked m b ps) (howns : Owns m (ps ++ rest) k) (hne : ps ≠ [])
    (hlen : count ≤ b.length) :
    (b.skip count).wp build m fun b' m' => ∃ ps', Shortened m m' b' ps ps' rest k count := by
  cases h.tail with
  | inl htail =>
    refine (Buffer.skip_spec (h.rep htail) howns hne hlen).imp ?_
    intro b' m' ⟨ps', hb', howns', hsame, hcontent, _⟩
    exact ⟨ps', hb'.linked, howns', hsame, hcontent⟩
  | inr hlone =>
    obtain ⟨p, rfl⟩ := List.length_eq_one_iff.mp hlone.1
    exact h.skip_lone hlone.2 howns hlen

theorem Linked.ne_nil_iff (h : Linked m b ps) : ps ≠ [] ↔ b.head ≠ none := by
  rw [h.chain.head_eq, ne_eq, ne_eq, List.head?_eq_none_iff]

end Linked

/-! ## `Skip` -/

/-- A loop of `Next` that discards `count` bytes and backs up over what it has got too much. -/
def discardByNext : Nat → BufferInputStream → Nat → Exec (Bool × BufferInputStream)
  | 0, _, _ => throw .outOfFuel
  | fuel + 1, s, count =>
    if count = 0 then pure (true, s)
    else do
      let r ← s.next
      match r.1 with
      | none => pure (false, r.2)
      | some data =>
        if data.length ≤ count then discardByNext fuel r.2 (count - data.length)
        else do
          let s ← r.2.backUp (data.length - count)
          pure (true, s)

/-- The position is `n`: so many bytes are counted, and the buffer holds those behind it. -/
def StandsAt (o : Origin) (m : Mem) (s : BufferInputStream) (n : Nat) : Prop :=
  s.byteCount = n ∧ ∃ ps, Linked m s.buffer ps ∧ content m ps = o.bytes.drop n

/-- What the contract says of `Skip(count)` at the position `n`. -/
def SkipsTo (build : Build) (o : Origin) (n count : Nat) (m : Mem)
    (run : Exec (Bool × BufferInputStream)) : Prop :=
  run.wp build m fun r m' => (r.1 = true ↔ n + count ≤ o.bytes.length) ∧
    StandsAt o m' r.2 (min (n + count) o.bytes.length)

/-- `Skip` and the loop return the same and end at the same position. -/
def SameAsNexts (build : Build) (o : Origin) (count : Nat) (m : Mem) (s : BufferInputStream) : Prop :=
  ∃ ok n, (s.skip count).wp build m (fun r m' => r.1 = ok ∧ StandsAt o m' r.2 n) ∧
    (discardByNext (count + 1) s count).wp build m fun r m' => r.1 = ok ∧ StandsAt o m' r.2 n

/-- In a chain of pieces of these lengths no empty piece stands in front of one of the next
    `count` bytes. -/
def Unblocked : List Nat → Nat → Prop
  | _, 0 => True
  | [], _ + 1 => True
  | 0 :: ls, _ + 1 => ls.sum = 0
  | (l + 1) :: ls, count + 1 => Unblocked ls (count - l)

section Skip

variable {build : Build} {o : Origin} {m : Mem} {s : BufferInputStream} {p : Ptr} {ps : List Ptr}
  {n count fuel : Nat} {last : Option Nat}

theorem Reading.standsAt (h : Reading o m s ps n last) : StandsAt o m s n :=
  ⟨h.byteCount, ps, h.linked, h.bytes.symm⟩

theorem skip_reads (h : Reading o m s ps n last) (hhead : s.buffer.head ≠ none)
    (hle : n + count ≤ o.bytes.length) :
    (s.skip count).wp build m fun r m' =>
      r.1 = true ∧ ∃ ps', Reading o m' r.2 ps' (n + count) none := by
  have hlength := h.length
  have hcount : count ≤ s.buffer.length := by omega
  simp only [BufferInputStream.skip, if_pos hcount, Prog.wp_bind, Prog.wp_pure]
  refine (h.linked.skip h.owns (h.linked.ne_nil_iff.mpr hhead) hcount).imp ?_
  rintro b' m' ⟨ps', hshort⟩
  refine ⟨trivial, ps', h.size, hshort.linked, hshort.owns, h.rest.trans hshort.same.right, hle, ?_,
    (by simp)⟩
  rw [hshort.bytes, ← h.bytes, List.drop_drop]

theorem skip_past_end (h : Reading o m s ps n last) (hlt : o.bytes.length < n + count) :
    (s.skip count).wp build m fun r m' => m' = m ∧ r = (false, s) := by
  have hlength := h.length
  have hcount : ¬ count ≤ s.buffer.length := by
    have := h.le
    omega
  simp only [BufferInputStream.skip, if_neg hcount, Prog.wp_pure]
  exact ⟨trivial, trivial⟩

/-- A buffer without pieces faults even where nothing is to be skipped. -/
theorem not_wp_skip_nothing {Q : Bool × BufferInputStream → Mem → Prop} (h : Reading o m s ps n last)
    (hhead : s.buffer.head = none) (hle : n + count ≤ o.bytes.length) :
    ¬ (s.skip count).wp build m Q := by
  have hlength := h.length
  have hcount : count ≤ s.buffer.length := by omega
  simp only [BufferInputStream.skip, if_pos hcount, Prog.wp_bind]
  exact Buffer.not_wp_skip hhead hcount

/-- `Skip` keeps the contract if there is a piece to look at and it does not have to go past
    the end, and at the end. -/
theorem skip_reads_iff (h : Reading o m s ps n last) :
    SkipsTo build o n count m (s.skip count) ↔
      (n + count ≤ o.bytes.length ∧ s.buffer.head ≠ none) ∨ (n = o.bytes.length ∧ 0 < count) := by
  have hn := h.le
  by_cases hle : n + count ≤ o.bytes.length
  · by_cases hhead : s.buffer.head = none
    · -- no piece is left, so nothing is unread
      have hnil : ps = [] := by
        by_contra hne
        exact h.linked.ne_nil_iff.mp hne hhead
      have hend := congrArg List.length h.bytes
      rw [List.length_drop, hnil, content_nil, List.length_nil] at hend
      refine iff_of_false (not_wp_skip_nothing h hhead hle) ?_
      simp only [hhead, ne_eq, not_true_eq_false, and_false, false_or]
      omega
    · refine iff_of_true ((skip_reads h hhead hle).imp ?_) (.inl ⟨hle, hhead⟩)
      intro r m' ⟨hr, ps', hread⟩
      rw [Nat.min_eq_left hle]
      exact ⟨iff_of_true hr hle, hread.standsAt⟩
  · have hlt := Nat.lt_of_not_le hle
    obtain ⟨r, m', hrun, hm, hr⟩ : (s.skip count).wp build m _ := skip_past_end h hlt
    rw [SkipsTo, Prog.wp_of_eq_ok hrun, hm, hr, Nat.min_eq_right (Nat.le_of_lt hlt)]
    have hstays : StandsAt o m s o.bytes.length ↔ n = o.bytes.length := by
      constructor
      · intro hstands
        rw [← hstands.1, h.byteCount]
      · intro hend
        rw [← hend]
        exact h.standsAt
    simp only [Bool.false_eq_true, hle, hstays, iff_self, true_and, false_and, false_or]
    omega

theorem unblocked_end (hend : ∀ p, ps.head? = some p → (m.cell p).len = 0) (hpos : 0 < count) :
    Unblocked (lens m ps) count ↔ (lens m ps).sum = 0 := by
  obtain ⟨count, rfl⟩ := Nat.exists_eq_succ_of_ne_zero (Nat.ne_of_gt hpos)
  cases ps with
  | nil => simp [lens, Unblocked]
  | cons p ps =>
    have hzero : (m.cell p).len = 0 := hend p rfl
    simp [lens, hzero, Unblocked]

theorem unblocked_data (hlen : 0 < (m.cell p).len) (hpos : 0 < count) :
    Unblocked (lens m (p :: ps)) count ↔ Unblocked (lens m ps) (count - (m.cell p).len) := by
  obtain ⟨l, hl⟩ := Nat.exists_eq_succ_of_ne_zero (Nat.ne_of_gt hlen)
  obtain ⟨count, rfl⟩ := Nat.exists_eq_succ_of_ne_zero (Nat.ne_of_gt hpos)
  simp only [lens, List.map_cons, hl, Unblocked, Nat.succ_sub_succ]

/-- The loop keeps the contract if it does not meet an empty piece on its way. -/
theorem discardByNext_iff (h : Reading o m s ps n last) (hfuel : count < fuel) :
    SkipsTo build o n count m (discardByNext fuel s count) ↔ Unblocked (lens m ps) count := by
  induction fuel generalizing m s ps n last count with
  | zero => omega
  | succ fuel ih =>
    have hn := h.le
    rw [SkipsTo, discardByNext]
    by_cases hzero : count = 0
    · subst hzero
      rw [if_pos rfl, Prog.wp_pure, Nat.add_zero, Nat.min_eq_left hn]
      exact iff_of_true ⟨iff_of_true rfl hn, h.standsAt⟩ (by simp [Unblocked])
    · have hpos : 0 < count := Nat.pos_of_ne_zero hzero
      obtain ⟨r, m', hrun, hcases⟩ : s.next.wp build m _ := next_reads h
      rw [if_neg hzero, Prog.wp_bind, Prog.wp_of_eq_ok hrun]
      cases hcases with
      | inl hend =>
        obtain ⟨hr, hempty, hread, hsame⟩ := hend
        have hunread : n = o.bytes.length ↔ (lens m ps).sum = 0 := by
          rw [sum_lens, ← h.bytes, List.length_drop]
          omega
        rw [hr, unblocked_end hempty hpos, ← hunread, Prog.wp_pure]
        constructor
        · intro ⟨hfails, hstands⟩
          have hlt : ¬ n + count ≤ o.bytes.length := fun hle => by simpa using hfails.mpr hle
          have hcount := hstands.1
          rw [hread.byteCount] at hcount
          omega
        · intro hn
          have hmin : min (n + count) o.bytes.length = n := by omega
          have hlt : ¬ n + count ≤ o.bytes.length := by omega
          rw [hmin]
          exact ⟨iff_of_false (by simp) hlt, hread.standsAt⟩
      | inr hdata =>
        obtain ⟨p, qs, hps, hlen, hr, hread, hsame⟩ := hdata
        subst hps
        rw [hr, unblocked_data hlen hpos, ← lens_same hsame]
        simp only [length_bytes]
        split
        · rename_i hle
          have hsum : n + count = n + (m.cell p).len + (count - (m.cell p).len) := by omega
          rw [hsum]
          exact ih hread (by omega)
        · rename_i hgt
          have hdone : count - (m.cell p).len = 0 := by omega
          rw [hdone, Prog.wp_bind]
          have hback : (r.2.backUp ((m.cell p).len - count)).wp build m' _ :=
            backUp_reads hread (Nat.sub_le _ _) fun _ => by omega
          refine iff_of_true (hback.imp ?_) (by simp [Unblocked])
          intro s' m'' ⟨q, hread', _⟩
          have hposition : n + (m.cell p).len - ((m.cell p).len - count) = n + count := by omega
          rw [hposition] at hread'
          have hle := hread'.le
          rw [Prog.wp_pure, Nat.min_eq_left hle]
          exact ⟨iff_of_true rfl hle, hread'.standsAt⟩

/-- Where `Skip` keeps the contract, it does the same as the loop exactly if the loop keeps it
    too. -/
theorem sameAsNexts_iff (h : SkipsTo build o n count m (s.skip count)) :
    SameAsNexts build o count m s ↔
      SkipsTo build o n count m (discardByNext (count + 1) s count) := by
  constructor
  · intro ⟨ok, n', hskip, hloop⟩
    obtain ⟨r, m', _, ⟨hok, hstands⟩, hr, hsame⟩ := h.and hskip
    have hn : min (n + count) o.bytes.length = n' := hstands.1.symm.trans hsame.1
    refine hloop.imp ?_
    intro r' m'' ⟨hr', hstands'⟩
    rw [hn, hr', ← hr]
    exact ⟨hok, hstands'⟩
  · intro hloop
    have hdecide : ∀ {ok : Bool}, (ok = true ↔ n + count ≤ o.bytes.length) →
        ok = decide (n + count ≤ o.bytes.length) := fun hok => by rw [Bool.eq_iff_iff, hok]; simp
    refine ⟨decide (n + count ≤ o.bytes.length), min (n + count) o.bytes.length, h.imp ?_,
      hloop.imp ?_⟩
    · exact fun _ _ hr => ⟨hdecide hr.1, hr.2⟩
    · exact fun _ _ hr => ⟨hdecide hr.1, hr.2⟩

end Skip

/-! ## Every position -/

/-- The positions legal calls lead to, with the size the last call returned if it was a
    successful `next`. -/
inductive Reached (build : Build) (m₀ : Mem) (b₀ : Buffer) :
    Mem → BufferInputStream → Option Nat → Nat → Prop
  | start : Reached build m₀ b₀ m₀ (.ofBuffer b₀) none 0
  | next {m m' : Mem} {s s' : BufferInputStream} {last : Option Nat} {n : Nat} {data : Bytes}
      (before : Reached build m₀ b₀ m s last n) (call : s.next build m = .ok ((some data, s'), m')) :
      Reached build m₀ b₀ m' s' (some data.length) (n + data.length)
  | nextEnd {m m' : Mem} {s s' : BufferInputStream} {last : Option Nat} {n : Nat}
      (before : Reached build m₀ b₀ m s last n) (call : s.next build m = .ok ((none, s'), m')) :
      Reached build m₀ b₀ m' s' none n
  | backUp {m m' : Mem} {s s' : BufferInputStream} {size n count : Nat}
      (before : Reached build m₀ b₀ m s (some size) n) (hle : count ≤ size)
      (call : s.backUp count build m = .ok (s', m')) :
      Reached build m₀ b₀ m' s' none (n - count)
  | skip {m m' : Mem} {s s' : BufferInputStream} {last : Option Nat} {n count : Nat}
      (before : Reached build m₀ b₀ m s last n) (call : s.skip count build m = .ok ((true, s'), m')) :
      Reached build m₀ b₀ m' s' none (n + count)
  | skipEnd {m m' : Mem} {s s' : BufferInputStream} {last : Option Nat} {n count : Nat}
      (before : Reached build m₀ b₀ m s last n) (call : s.skip count build m = .ok ((false, s'), m')) :
      Reached build m₀ b₀ m' s' none n

section Reached

variable {build : Build} {o : Origin} {m : Mem} {b : Buffer} {s : BufferInputStream} {n : Nat}
  {last : Option Nat}

theorem reached_reads (hb : b.Rep o.mem o.chain) (howns : Owns o.mem (o.chain ++ o.rest) o.bypassed)
    (h : Reached build o.mem b m s last n) : ∃ ps, Reading o m s ps n last := by
  induction h with
  | start => exact ⟨o.chain, reading_start hb howns⟩
  | next _ call ih =>
    obtain ⟨ps, hread⟩ := ih
    cases (Prog.wp_of_eq_ok call).mp (next_reads hread) with
    | inl hend => cases hend.1
    | inr hdata =>
      obtain ⟨p, qs, _, _, hr, hread', _⟩ := hdata
      cases hr
      rw [length_bytes]
      exact ⟨qs, hread'⟩
  | nextEnd _ call ih =>
    obtain ⟨ps, hread⟩ := ih
    cases (Prog.wp_of_eq_ok call).mp (next_reads hread) with
    | inl hend => exact ⟨ps, hend.2.2.1⟩
    | inr hdata =>
      obtain ⟨p, qs, _, _, hr, _⟩ := hdata
      cases hr
  | @backUp m m' s s' size n count _ hle call ih =>
    obtain ⟨ps, hread⟩ := ih
    have hreturned : (s.backUp count).wp build m fun _ _ => True := ⟨s', m', call, trivial⟩
    have hassert : build = .debug → count < size := by
      intro hdebug
      subst hdebug
      exact lt_of_wp_backUp hread hreturned
    obtain ⟨p, hread', _⟩ := (Prog.wp_of_eq_ok call).mp (backUp_reads hread hle hassert)
    exact ⟨p :: ps, hread'⟩
  | @skip m m' s s' last n count _ call ih =>
    obtain ⟨ps, hread⟩ := ih
    have hreturned : (s.skip count).wp build m fun r _ => r.1 = true := ⟨(true, s'), m', call, rfl⟩
    have hle : n + count ≤ o.bytes.length := by
      by_contra hgt
      obtain ⟨r, _, _, hr, _, hfalse⟩ := hreturned.and (skip_past_end hread (Nat.lt_of_not_le hgt))
      rw [hfalse] at hr
      cases hr
    have hhead : s.buffer.head ≠ none := fun hnone => not_wp_skip_nothing hread hnone hle hreturned
    exact ((Prog.wp_of_eq_ok call).mp (skip_reads hread hhead hle)).2
  | @skipEnd m m' s s' last n count _ call ih =>
    obtain ⟨ps, hread⟩ := ih
    have hreturned : (s.skip count).wp build m fun r _ => r.1 = false := ⟨(false, s'), m', call, rfl⟩
    have hlt : o.bytes.length < n + count := by
      by_contra hge
      have hle := Nat.le_of_not_lt hge
      have hhead : s.buffer.head ≠ none := fun hnone => not_wp_skip_nothing hread hnone hle hreturned
      obtain ⟨r, _, _, hr, htrue, _⟩ := hreturned.and (skip_reads hread hhead hle)
      rw [hr] at htrue
      cases htrue
    obtain ⟨hm, hs⟩ := (Prog.wp_of_eq_ok call).mp (skip_past_end hread hlt)
    cases hm
    cases hs
    exact ⟨ps, hread.forget⟩

/-- At every position: `Skip` does what the contract says exactly if there is a piece and it
    does not go past the end, or the end is reached and it is asked for more; and it is then the
    same as a loop of `Next` exactly if no empty piece stands in front of the bytes skipped. -/
theorem skip_contract_iff (count : Nat) (hb : b.Rep o.mem o.chain)
    (howns : Owns o.mem (o.chain ++ o.rest) o.bypassed) (h : Reached build o.mem b m s last n) :
    (SkipsTo build o n count m (s.skip count) ↔
      (n + count ≤ o.bytes.length ∧ s.buffer.head ≠ none) ∨ (n = o.bytes.length ∧ 0 < count)) ∧
    (SkipsTo build o n count m (s.skip count) ∧ SameAsNexts build o count m s ↔
      ((n + count ≤ o.bytes.length ∧ s.buffer.head ≠ none) ∨ (n = o.bytes.length ∧ 0 < count)) ∧
      Unblocked (lens m (s.buffer.pieces m)) count) := by
  obtain ⟨ps, hread⟩ := reached_reads hb howns h
  have hpieces : s.buffer.pieces m = ps :=
    Queue.pieces_eq_of_chain hread.linked.chain fun p hp =>
      hread.owns.live (List.mem_append_left _ hp)
  have hskip : SkipsTo build o n count m (s.skip count) ↔ _ := skip_reads_iff hread
  refine ⟨hskip, ?_⟩
  rw [hpieces, ← hskip]
  refine and_congr_right fun hskips => ?_
  rw [sameAsNexts_iff hskips]
  exact discardByNext_iff hread (Nat.lt_succ_self count)

end Reached

/-- Three bytes are to be skipped and two are there: the stream stays at its start. -/
theorem skip_past_end_stays :
    ¬ ∀ (build : Build) (o : Origin) (b : Buffer) (m : Mem) (s : BufferInputStream)
      (last : Option Nat) (n count : Nat), b.Rep o.mem o.chain →
      Owns o.mem (o.chain ++ o.rest) o.bypassed → Reached build o.mem b m s last n →
      SkipsTo build o n count m (s.skip count) ∧ SameAsNexts build o count m s := by
  intro hclaim
  have hskips := (hclaim .release loneOrigin loneBuffer loneOrigin.mem (.ofBuffer loneBuffer) none 0 3
    loneBuffer_rep loneOrigin_owns .start).1
  have hcases := (skip_reads_iff (reading_start loneBuffer_rep loneOrigin_owns)).mp hskips
  have hlength : loneOrigin.bytes.length = 2 := rfl
  omega

/-- Both bytes are skipped. -/
theorem skip_contract_lone :
    SkipsTo .debug loneOrigin 0 2 loneOrigin.mem ((BufferInputStream.ofBuffer loneBuffer).skip 2) ∧
      SameAsNexts .debug loneOrigin 2 loneOrigin.mem (.ofBuffer loneBuffer) := by
  have hcontract := skip_contract_iff 2 loneBuffer_rep loneOrigin_owns (.start : Reached .debug ..)
  exact hcontract.2.mpr ⟨.inl ⟨by decide, nofun⟩, trivial⟩

end Netpp
