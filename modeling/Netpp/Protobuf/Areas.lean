import Netpp.Protobuf.FrameLength

/-! # What the parser reads, and what it takes

The parser is given the pieces of a buffer one after the other.  Where it stops it may put
bytes back that it has read, but only those of the last piece; a Debug build does not let it
put back all of them.

* `bytesRead`, `bytesTaken`: how much of the bytes in the buffer is read, and how much is gone.
* `TakesByte`: the condition of the Debug build.
* `readStream_spec`, `takesByte_of_readStream`: the code does so exactly under it.
-/

namespace Netpp

/-! ## Where the parser stops -/

/-- The number of bytes of `d` the parser reads. -/
def bytesRead (stop : Bytes → Bool) (d : Bytes) : Nat := (firstStop stop [] d).getD d.length

section Stop

variable {stop : Bytes → Bool} {seen data d more : Bytes} {n : Nat}

theorem firstStop_none :
    firstStop stop seen data = none ↔
      ∀ j, 0 < j → j ≤ data.length → stop (seen ++ data.take j) = false := by
  rw [firstStop, List.find?_eq_none]
  constructor
  · intro h j hpos hle
    have hj := h j (by rw [List.mem_range'_1]; omega)
    simpa using hj
  · intro h j hj
    rw [List.mem_range'_1] at hj
    simp [h j (by omega) (by omega)]

theorem firstStop_some :
    firstStop stop seen data = some n ↔ 0 < n ∧ n ≤ data.length ∧
      stop (seen ++ data.take n) = true ∧
      ∀ j, 0 < j → j < n → stop (seen ++ data.take j) = false := by
  rw [firstStop, List.find?_range'_eq_some]
  simp only [List.mem_range'_1, Bool.not_eq_true']
  constructor
  · intro ⟨hstop, hmem, hbefore⟩
    exact ⟨by omega, by omega, hstop, fun j hpos hlt => hbefore j (by omega) hlt⟩
  · intro ⟨hpos, hle, hstop, hbefore⟩
    exact ⟨hstop, by omega, fun j hpos hlt => hbefore j (by omega) hlt⟩

theorem take_bytesRead_of_append (h : firstStop stop [] (d ++ more) = some n) :
    d.take (bytesRead stop d) = d.take n := by
  obtain ⟨hpos, _, htrue, hbefore⟩ := firstStop_some.mp h
  have htake : ∀ j ≤ d.length, ([] : Bytes) ++ (d ++ more).take j = [] ++ d.take j := fun j hj => by
    rw [List.take_append_of_le_length hj]
  by_cases hle : n ≤ d.length
  · have hsame : firstStop stop [] d = some n :=
      firstStop_some.mpr ⟨hpos, hle, htake n hle ▸ htrue,
        fun j hj hlt => htake j (by omega) ▸ hbefore j hj hlt⟩
    rw [bytesRead, hsame, Option.getD_some]
  · have hnone : firstStop stop [] d = none :=
      firstStop_none.mpr fun j hj hjle => htake j hjle ▸ hbefore j hj (by omega)
    rw [bytesRead, hnone, Option.getD_none, List.take_length, List.take_of_length_le (by omega)]

end Stop

/-! ## What the parser takes -/

/-- How many bytes come before the piece in which the `n`-th byte lies. -/
def areaStart : List Nat → Nat → Nat
  | [], _ => 0
  | l :: ls, n => if n ≤ l then 0 else l + areaStart ls (n - l)

theorem areaStart_lt {n : Nat} (hpos : 0 < n) (ls : List Nat) : areaStart ls n < n := by
  induction ls generalizing n with
  | nil => exact hpos
  | cons l ls ih =>
    unfold areaStart
    split
    · exact hpos
    · have hrest := ih (n := n - l) (by omega)
      omega

theorem areaStart_append {l j : Nat} (hpos : 0 < j) (hle : j ≤ l) (before ls : List Nat) :
    areaStart (before ++ l :: ls) (before.sum + j) = before.sum := by
  induction before with
  | nil =>
    rw [List.nil_append, areaStart, List.sum_nil, if_pos (by omega)]
  | cons a before ih =>
    have hrest : a + before.sum + j - a = before.sum + j := by omega
    rw [List.cons_append, areaStart, List.sum_cons, if_neg (by omega), hrest, ih]

/-- The number of bytes of `d` that are gone when the parser is done with it, `lens` being the
    lengths of the pieces: it can back up to the start of the last area. -/
def bytesTaken (stop : Bytes → Bool) (unread : Bytes → Nat) (lens : List Nat) (d : Bytes) : Nat :=
  match firstStop stop [] d with
  | none => d.length
  | some n => max (areaStart lens n) (n - unread (d.take n))

/-- If the parser stops, it takes a byte of the last area it has read. -/
def TakesByte (stop : Bytes → Bool) (unread : Bytes → Nat) (lens : List Nat) (d : Bytes) : Prop :=
  ∀ n, firstStop stop [] d = some n → areaStart lens n < n - unread (d.take n)

section Taken

variable {stop : Bytes → Bool} {unread : Bytes → Nat} {lens : List Nat} {d : Bytes}

theorem bytesTaken_le (stop : Bytes → Bool) (unread : Bytes → Nat) (lens : List Nat) (d : Bytes) :
    bytesTaken stop unread lens d ≤ d.length := by
  unfold bytesTaken
  cases hstop : firstStop stop [] d with
  | none => exact Nat.le_refl _
  | some n =>
    obtain ⟨hpos, hle, _⟩ := firstStop_some.mp hstop
    have hlt := areaStart_lt hpos lens
    dsimp only
    omega

theorem takesByte_of_none (h : firstStop stop [] d = none) : TakesByte stop unread lens d := by
  intro n hn
  rw [h] at hn
  cases hn

theorem bytesTaken_of_none (h : firstStop stop [] d = none) :
    bytesTaken stop unread lens d = d.length := by
  rw [bytesTaken, h]

end Taken

/-! ## The parser on a stream -/

section BackUpInput

variable {build : Build} {o : Origin} {cs : List StreamCall} {m : Mem} {s : BufferInputStream}
  {n size count : Nat}

theorem backUpInput_spec (h : StreamInv o cs m s (some size) n) (hle : count ≤ size)
    (hassert : build = .debug → 0 < count → count < size) :
    (backUpInput s count).wp build m fun s' m' =>
      ∃ cs' last', StreamInv o cs' m' s' last' (n - count) := by
  unfold backUpInput
  split
  · rename_i hpos
    refine (backUp_step h hpos hle fun hbuild => hassert hbuild hpos).imp ?_
    intro s' m' hinv
    exact ⟨_, _, hinv⟩
  · rename_i hzero
    rw [Prog.wp_pure, Nat.eq_zero_of_not_pos hzero]
    exact ⟨cs, some size, h⟩

/-- The Debug build does not put the whole piece back. -/
theorem lt_of_backUpInput {Q : BufferInputStream → Mem → Prop}
    (h : StreamInv o cs m s (some size) n) (hpos : 0 < size)
    (hrun : (backUpInput s count).wp .debug m Q) : count < size := by
  obtain ⟨_, p, ps, hdrop, hsize, hheld⟩ := h
  unfold backUpInput at hrun
  split at hrun
  · simp only [BufferInputStream.backUp, hdrop, Option.isSome_some, wp_assert_true, Prog.wp_bind] at hrun
    exact hsize ▸ FlatInputBuffer.lt_of_wp_flatBackUp (hheld.owns.live (by simp)) hrun
  · omega

end BackUpInput

section ParseLoop

variable {build : Build} {o : Origin} {cs : List StreamCall} {m : Mem} {s : BufferInputStream}
  {last : Option Nat} {n fuel : Nat} {stop : Bytes → Bool} {unread : Bytes → Nat}

theorem Held.areaStart {b : Buffer} {p : Ptr} {ps : List Ptr} {j : Nat}
    (h : Held o cs m b p ps (n + (m.cell p).len)) (hbacks : StreamCall.backUps cs = 0) (hpos : 0 < j)
    (hle : j ≤ (m.cell p).len) : areaStart (lens o.mem o.chain) (n + j) = n := by
  obtain ⟨before, hsplit⟩ := h.suffix hbacks
  have hbytes := congrArg List.length h.bytes
  rw [Nat.add_sub_cancel, List.length_drop, List.length_append, length_bytes] at hbytes
  have hsum : before.sum + ((m.cell p).len + (content m ps).length) = o.bytes.length := by
    have htotal := congrArg List.sum hsplit
    rwa [List.sum_append, lens_cons, List.sum_cons, sum_lens, sum_lens] at htotal
  have hn : n = before.sum := by
    have := h.le
    omega
  rw [← hsplit, lens_cons, hn]
  exact areaStart_append hpos hle before _

/-- The parser reads to the end of the stream, or stops behind byte `j` of an area of `size`
    bytes that begins at `start`. -/
inductive LoopEnds (build : Build) (stop : Bytes → Bool) (unread : Bytes → Nat) (o : Origin)
    (loop : Exec (Bytes × BufferInputStream)) (m : Mem) : Prop
  | atEnd {cs : List StreamCall} {m' : Mem} {s : BufferInputStream} {last : Option Nat}
      (hnone : firstStop stop [] o.bytes = none) (hinv : StreamInv o cs m' s last o.bytes.length)
      (hrun : loop build m = .ok ((o.bytes, s), m'))
  | inArea {start size j : Nat} {cs : List StreamCall} {m' : Mem} {s : BufferInputStream}
      (hsome : firstStop stop [] o.bytes = some (start + j))
      (hstart : areaStart (lens o.mem o.chain) (start + j) = start) (hpos : 0 < j) (hle : j ≤ size)
      (hinv : StreamInv o cs m' s (some size) (start + size))
      (hrun : loop build m = (do
        let s ← backUpInput s (size - (j - unread (o.bytes.take (start + j))))
        pure (o.bytes.take (start + j), s)) build m')

theorem LoopEnds.congr {loop loop' : Exec (Bytes × BufferInputStream)} {m' : Mem}
    (h : loop build m = loop' build m') (hends : LoopEnds build stop unread o loop' m') :
    LoopEnds build stop unread o loop m := by
  cases hends with
  | atEnd hnone hinv hrun => exact .atEnd hnone hinv (h.trans hrun)
  | inArea hsome hstart hpos hle hinv hrun => exact .inArea hsome hstart hpos hle hinv (h.trans hrun)

theorem parseLoop_ends (build : Build) (unread : Bytes → Nat) (h : StreamInv o cs m s last n)
    (hsolid : Solid o.mem o.chain)
    (hfuel : o.chain.length < fuel + StreamCall.nexts cs)
    (htaken : StreamCall.nexts cs ≤ o.chain.length) (hbacks : StreamCall.backUps cs = 0)
    (hle : n ≤ o.bytes.length)
    (hread : ∀ j, 0 < j → j ≤ n → stop (o.bytes.take j) = false) :
    LoopEnds build stop unread o (parseLoop stop unread fuel s (o.bytes.take n)) m := by
  induction fuel generalizing cs m s last n with
  | zero => omega
  | succ fuel ih =>
    obtain ⟨r, m', hrun, hsame, hcases⟩ : s.next.wp build m _ := next_spec h
    have hloop : parseLoop stop unread (fuel + 1) s (o.bytes.take n) build m = _ :=
      Prog.bind_apply _ _ _ _
    rw [hrun] at hloop
    cases hcases with
    | inl hend =>
      obtain ⟨ps, hr, hdrop, hfree, hzero⟩ := hend
      have hnil : ps = [] := by
        cases ps with
        | nil => rfl
        | cons p ps =>
          have hpos := hfree.solid hsolid p (by simp)
          rw [hzero p rfl] at hpos
          exact absurd hpos (Nat.lt_irrefl 0)
      have hall : n = o.bytes.length := by
        have := hfree.bytes
        rw [hnil, content_nil, List.drop_eq_nil_iff] at this
        omega
      have hinv : StreamInv o (cs ++ [.next]) m' r.2 none o.bytes.length :=
        ⟨hsame.trans h.1, hdrop, ps, hall ▸ hfree⟩
      simp only [hr] at hloop
      refine .atEnd (firstStop_none.mpr fun j hpos hj => hread j hpos (hall ▸ hj)) hinv ?_
      rw [hloop, hall, List.take_length]
      rfl
    | inr hdata =>
      obtain ⟨p, ps, hr, hdrop, hpos, hheld⟩ := hdata
      have hbytes := hheld.bytes
      rw [Nat.add_sub_cancel] at hbytes
      have htake : ∀ j ≤ (m'.cell p).bytes.length,
          o.bytes.take n ++ (m'.cell p).bytes.take j = o.bytes.take (n + j) := by
        intro j hj
        rw [List.take_add, hbytes, List.take_append_of_le_length hj]
      have hlen : (m'.cell p).bytes.length = (m'.cell p).len := length_bytes _
      have hle' := hheld.le
      have hbacks' : StreamCall.backUps (cs ++ [.next]) = 0 := by rw [StreamCall.backUps_next, hbacks]
      have hinv : StreamInv o (cs ++ [.next]) m' r.2 (some (m'.cell p).len)
          (n + (m'.cell p).len) := ⟨hsame.trans h.1, p, ps, hdrop, rfl, hheld⟩
      simp only [hr] at hloop
      cases hstop : firstStop stop (o.bytes.take n) (m'.cell p).bytes with
      | none =>
        simp only [hstop] at hloop
        rw [firstStop_none] at hstop
        have hwhole := htake _ (Nat.le_refl _)
        rw [List.take_length, hlen] at hwhole
        have hcounted := hheld.counted
        rw [hbacks'] at hcounted
        rw [hwhole] at hloop
        refine LoopEnds.congr hloop (ih hinv ?_ (by omega) hbacks' hle' fun j hj hjle => ?_)
        · rw [StreamCall.nexts_next]
          omega
        · by_cases hold : j ≤ n
          · exact hread j hj hold
          · have hnew := hstop (j - n) (by omega) (by omega)
            rwa [htake _ (by omega), Nat.add_sub_cancel' (by omega)] at hnew
      | some j =>
        simp only [hstop] at hloop
        obtain ⟨hj, hjle, htrue, hbefore⟩ := firstStop_some.mp hstop
        rw [htake j hjle] at htrue
        rw [htake j hjle, hlen] at hloop
        refine .inArea (firstStop_some.mpr ⟨by omega, by omega, htrue, fun i hi hlt => ?_⟩)
          (hheld.areaStart hbacks' hj (hlen ▸ hjle)) hj (hlen ▸ hjle) hinv hloop
        · by_cases hold : i ≤ n
          · exact hread i hi hold
          · have hnew := hbefore (i - n) (by omega) (by omega)
            rwa [htake _ (by omega), Nat.add_sub_cancel' (by omega)] at hnew

end ParseLoop

/-! ## A stream opened on a buffer -/

/-- The buffer is left with all but its first `n` bytes. -/
def Leaves (m m' : Mem) (ps rest : List Ptr) (k n : Nat) (buf : Buffer) : Prop :=
  ∃ qs, Linked m' buf qs ∧ Owns m' (qs ++ rest) k ∧ SameOn rest m m' ∧
    content m' qs = (content m ps).drop n ∧ (Solid m ps → Solid m' qs)

/-- Reading a stream opened on the buffer until the parser stops, and closing it. -/
def readStream (stop : Bytes → Bool) (unread : Bytes → Nat) (b : Buffer) : Exec (Bytes × Buffer) := do
  let n ← chainBound
  let r ← parseLoop stop unread n (.ofBuffer b) []
  let buf ← r.2.destroy
  pure (r.1, buf)

section ReadStream

variable {build : Build} {m : Mem} {b : Buffer} {ps rest : List Ptr} {k : Nat}
  {stop : Bytes → Bool} {unread : Bytes → Nat}

theorem leaves_of_destroy {s : BufferInputStream} {o : Origin} {cs : List StreamCall}
    {last : Option Nat} {n : Nat} (h : StreamInv o cs m s last n) :
    s.destroy.wp build m fun buf m' => Leaves o.mem m' o.chain o.rest o.bypassed n buf := by
  refine (destroy_spec h).imp ?_
  rintro buf m' ⟨_, qs, hfree⟩
  exact ⟨qs, hfree.linked, hfree.owns, hfree.rest, hfree.bytes.symm, hfree.solid⟩

theorem parseLoop_start (build : Build) (stop : Bytes → Bool) (unread : Bytes → Nat) (hb : b.Rep m ps)
    (howns : Owns m (ps ++ rest) k) (hsolid : Solid m ps) :
    LoopEnds build stop unread ⟨m, ps, rest, k⟩ (parseLoop stop unread (m.brk + 1) (.ofBuffer b) []) m :=
  parseLoop_ends build unread (streamInv_start (o := ⟨m, ps, rest, k⟩) hb howns) hsolid
    (Buffer.chain_lt_bound howns) (Nat.zero_le _) rfl (Nat.zero_le _) fun _ hpos hle => by omega

theorem readStream_spec (build : Build) (hb : b.Rep m ps) (howns : Owns m (ps ++ rest) k)
    (hsolid : Solid m ps)
    (htakes : build = .debug → TakesByte stop unread (lens m ps) (content m ps)) :
    (readStream stop unread b).wp build m fun r m' =>
      r.1 = (content m ps).take (bytesRead stop (content m ps)) ∧
      Leaves m m' ps rest k (bytesTaken stop unread (lens m ps) (content m ps)) r.2 := by
  simp only [readStream, Prog.wp_bind, Buffer.wp_chainBound, Prog.wp_pure]
  cases parseLoop_start build stop unread hb howns hsolid with
  | atEnd hnone hinv hrun =>
    dsimp only [Origin.bytes] at hnone hinv hrun
    rw [bytesTaken_of_none hnone, bytesRead, hnone, Option.getD_none, List.take_length,
      Prog.wp_of_eq_ok hrun]
    refine (leaves_of_destroy hinv).imp ?_
    intro buf m' hleaves
    exact ⟨rfl, hleaves⟩
  | @inArea start size j _ _ _ hsome hstart hpos hle hinv hrun =>
    dsimp only [Origin.bytes] at hsome hstart hrun
    have htaken : start + size - (size - (j - unread ((content m ps).take (start + j)))) =
        bytesTaken stop unread (lens m ps) (content m ps) := by
      rw [bytesTaken, hsome]
      dsimp only
      omega
    rw [bytesRead, hsome, Option.getD_some, Prog.wp_congr hrun]
    simp only [Prog.wp_bind, Prog.wp_pure]
    refine (backUpInput_spec hinv (Nat.sub_le _ _) fun hbuild _ => ?_).imp ?_
    · have htake := htakes hbuild _ hsome
      omega
    · rintro s' m' ⟨cs', last', hinv'⟩
      rw [htaken] at hinv'
      refine (leaves_of_destroy hinv').imp ?_
      intro buf m'' hleaves
      exact ⟨trivial, hleaves⟩

theorem takesByte_of_readStream {Q : Bytes × Buffer → Mem → Prop} (hb : b.Rep m ps)
    (howns : Owns m (ps ++ rest) k) (hsolid : Solid m ps)
    (hrun : (readStream stop unread b).wp .debug m Q) :
    TakesByte stop unread (lens m ps) (content m ps) := by
  simp only [readStream, Prog.wp_bind, Buffer.wp_chainBound] at hrun
  cases parseLoop_start .debug stop unread hb howns hsolid with
  | atEnd hnone _ _ => exact takesByte_of_none hnone
  | inArea hsome hstart hpos hle hinv hstops =>
    dsimp only [Origin.bytes] at hsome hstart hstops
    rw [Prog.wp_congr hstops, Prog.wp_bind] at hrun
    have hshort := lt_of_backUpInput hinv (by omega) hrun
    intro n hn
    obtain rfl := Option.some.inj (hsome.symm.trans hn)
    omega

end ReadStream

end Netpp
