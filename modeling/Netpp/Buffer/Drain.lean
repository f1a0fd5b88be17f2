import Netpp.Buffer.WriteSpec

/-! # Zero counts and empty chains

`skip` and `read` look at the front piece before they look at the count, so they need a
piece even to take nothing.  `read` into a `std::string` passes its count on to the `char*`
overload, which asserts that it is not zero.

* `skip_drops_iff`, `readString_takes_iff`: when the two complete.
* `drains_iff`: the same for every count up to `length()`, for `readAll` and for `readAll`
  after a `write`.
-/

namespace Netpp

namespace Buffer

/-- `run` completes with a well formed buffer that has lost the first `len` bytes of `d`. -/
def Drops (build : Build) (m : Mem) (rest : List Ptr) (k : Nat) (run : Exec Buffer) (d : Bytes)
    (len : Nat) : Prop :=
  run.wp build m fun b' m' => ∃ ps', b'.Rep m' ps' ∧ Owns m' (ps' ++ rest) k ∧
    content m' ps' = d.drop len

/-- And these are the bytes it returns. -/
def Takes (build : Build) (m : Mem) (rest : List Ptr) (k : Nat) (run : Exec (Bytes × Buffer))
    (d : Bytes) (len : Nat) : Prop :=
  run.wp build m fun r m' => r.1 = d.take len ∧ ∃ ps', r.2.Rep m' ps' ∧ Owns m' (ps' ++ rest) k ∧
    content m' ps' = d.drop len

section Drain

variable {build : Build} {m : Mem} {b : Buffer} {ps rest : List Ptr} {k len : Nat} {s : Bytes}

theorem head_isSome_iff (hb : b.Rep m ps) : b.head.isSome ↔ ps ≠ [] := by
  rw [hb.holds.rep.chain.head_eq, List.isSome_head?]

theorem not_wp_skip {Q : Buffer → Mem → Prop} (hhead : b.head = none) (hlen : len ≤ b.length) :
    ¬ (b.skip len).wp build m Q := by
  simp only [skip, Prog.wp_bind, wp_assert (decide_eq_true hlen), wp_chainBound, skipLoop, hhead]
  exact wp_load_none

theorem not_wp_read {Q : Bytes × Buffer → Mem → Prop} (hhead : b.head = none) :
    ¬ (b.read len).wp build m Q := by
  intro hrun
  simp only [read, Prog.wp_bind, wp_assert_iff, wp_chainBound, readLoop, hhead] at hrun
  exact wp_load_none hrun.2.2

theorem skip_drops_iff (hb : b.Rep m ps) (howns : Owns m (ps ++ rest) k) (hlen : len ≤ b.length) :
    Drops build m rest k (b.skip len) (content m ps) len ↔ b.head.isSome := by
  constructor
  · intro hdrops
    by_contra hnone
    exact not_wp_skip (Option.not_isSome_iff_eq_none.mp hnone) hlen hdrops
  · intro hsome
    refine (skip_spec hb howns ((head_isSome_iff hb).mp hsome) hlen).imp ?_
    intro b' m' ⟨ps', hb', howns', _, hcontent, _⟩
    exact ⟨ps', hb', howns', hcontent⟩

/-- The `char*` overload is the one that wants a positive count, in a Debug build. -/
theorem readString_takes_iff (hb : b.Rep m ps) (howns : Owns m (ps ++ rest) k) (hlen : len ≤ b.length) :
    Takes build m rest k (b.readString len) (content m ps) len ↔
      b.head.isSome ∧ (build = .debug → 0 < len) := by
  simp only [Takes, readString, Prog.wp_bind, wp_assert (decide_eq_true hlen)]
  constructor
  · intro htakes
    refine ⟨?_, fun hdebug => ?_⟩
    · by_contra hnone
      exact not_wp_read (Option.not_isSome_iff_eq_none.mp hnone) htakes
    · rw [read, Prog.wp_bind, wp_assert_iff] at htakes
      simpa using htakes.1 hdebug
  · intro ⟨hsome, hpos⟩
    refine (read_spec hb howns ((head_isSome_iff hb).mp hsome) hpos hlen).imp ?_
    intro r m' ⟨ps', hb', howns', _, hd, hcontent, _⟩
    exact ⟨hd, ps', hb', howns', hcontent⟩

theorem readAll_takes_iff (hb : b.Rep m ps) (howns : Owns m (ps ++ rest) k) :
    Takes build m rest k b.readAll (content m ps) b.length ↔
      b.head.isSome ∧ (build = .debug → 0 < b.length) :=
  readString_takes_iff hb howns (Nat.le_refl _)

/-- `write` leaves a piece behind even where it writes nothing. -/
theorem write_readAll_takes_iff (hb : b.Rep m ps) (howns : Owns m (ps ++ rest) k) :
    Takes build m rest k (do let b ← b.write s; b.readAll) (content m ps ++ s) (b.length + s.length) ↔
      (build = .debug → 0 < b.length + s.length) := by
  obtain ⟨b₁, m₁, hrun, ps₁, hne, hb₁, howns₁, _, hcontent₁, _⟩ : (b.write s).wp build m _ :=
    write_wp hb howns
  have hlength : b₁.length = b.length + s.length := by
    rw [hb₁.length, hcontent₁, List.length_append, hb.length]
  have hall : Takes build m₁ rest k b₁.readAll _ _ ↔ _ := readAll_takes_iff hb₁ howns₁
  rw [Takes, hcontent₁, hlength] at hall
  rw [Takes, Prog.wp_bind, Prog.wp_of_eq_ok hrun, hall]
  exact and_iff_right ((head_isSome_iff hb₁).mpr hne)

/-- For every well formed buffer and every count up to its length: `skip` completes exactly
    if there is a piece, `read` and `readAll` exactly if there is one and, in a Debug build,
    the count is not zero, and `readAll` after a `write` exactly if, in a Debug build, there
    is a byte to return. -/
theorem drains_iff (hb : b.Rep m ps) (howns : Owns m (ps ++ rest) k) (hlen : len ≤ b.length) :
    (Drops build m rest k (b.skip len) (content m ps) len ↔ b.head.isSome) ∧
    (Takes build m rest k (b.readString len) (content m ps) len ↔
      b.head.isSome ∧ (build = .debug → 0 < len)) ∧
    (Takes build m rest k b.readAll (content m ps) b.length ↔
      b.head.isSome ∧ (build = .debug → 0 < b.length)) ∧
    ∀ s, Takes build m rest k (do let b ← b.write s; b.readAll) (content m ps ++ s)
        (b.length + s.length) ↔ (build = .debug → 0 < b.length + s.length) :=
  ⟨skip_drops_iff hb howns hlen, readString_takes_iff hb howns hlen, readAll_takes_iff hb howns,
    fun _ => write_readAll_takes_iff hb howns⟩

end Drain

/-- A fresh buffer has no piece to look at. -/
theorem skip_nothing_faults :
    ¬ ∀ (build : Build) (m : Mem) (b : Buffer) (ps rest : List Ptr) (k len : Nat),
      b.Rep m ps → Owns m (ps ++ rest) k → len ≤ b.length →
      Drops build m rest k (b.skip len) (content m ps) len := by
  intro hclaim
  have hdrops := hclaim .release emptyMem {} [] [] 0 0 (Rep.empty _) (Owns.initial _) (Nat.le_refl _)
  exact not_wp_skip rfl (Nat.le_refl _) hdrops

/-- `write` of nothing, then `readAll`, in a Release build. -/
theorem drains_nothing_written :
    Takes .release emptyMem [] 0 (do let b ← ({} : Buffer).write []; b.readAll) [] 0 := by
  have howns : Owns emptyMem ([] ++ []) 0 := Owns.initial _
  exact ((drains_iff (Rep.empty emptyMem) howns (Nat.le_refl 0)).2.2.2 []).mpr nofun

end Buffer

end Netpp
