import Mathlib.Data.List.Nodup
import Mathlib.Data.List.Perm.Basic
import Mathlib.Logic.Function.Basic
import Netpp.Buffer.MoveSpec

/-! # Many buffers in one memory

Code works on several `Buffer` objects that share the pool.  `Chains` says that the buffers
named by `ι` have chains inside their blocks, that no piece is in two of them, and that the
pieces handed out are the ones in the chains together with `loose`, the pieces held elsewhere.
It says nothing of `length_`; a `Family` is one in which every `length_` is the number of bytes
of its chain.

`focus` and `focus₂` are the frame rules: an operation that is specified for its own buffers
and leaves the rest alone keeps the chains, and the family.
-/

namespace Netpp

section Lists

variable {ι α : Type} [DecidableEq ι] {ids : List ι} {f : ι → List α} {i : ι}

theorem flatMap_perm_erase (h : i ∈ ids) : (ids.flatMap f).Perm (f i ++ (ids.erase i).flatMap f) :=
  (List.perm_cons_erase h).flatMap_right f

theorem flatMap_update_of_notMem (x : List α) (h : i ∉ ids) :
    ids.flatMap (Function.update f i x) = ids.flatMap f := by
  apply List.flatMap_congr
  intro j hj
  have hne : j ≠ i := fun e => h (e ▸ hj)
  exact Function.update_of_ne hne _ _

end Lists

variable {ι : Type}

def familyBytes (m : Mem) (chain : ι → List Ptr) : ι → Bytes := fun i => content m (chain i)

structure Chains (m : Mem) (bufs : ι → Buffer) (chain : ι → List Ptr) (loose : List Ptr)
    (k : Nat) : Prop where
  holds : ∀ i, Holds m (bufs i).toQueue (chain i)
  owns : ∃ ids : List ι, ids.Nodup ∧ (∀ i, i ∉ ids → chain i = []) ∧
    Owns m (ids.flatMap chain ++ loose) k

/-- Each `length_` is the number of bytes. -/
def Exact (bufs : ι → Buffer) (d : ι → Bytes) : Prop := ∀ i, (bufs i).length = (d i).length

theorem Exact.update [DecidableEq ι] {bufs : ι → Buffer} {d : ι → Bytes} {i : ι} {b : Buffer}
    {x : Bytes} (h : Exact bufs d) (hb : b.length = x.length) :
    Exact (Function.update bufs i b) (Function.update d i x) := by
  intro j
  by_cases hj : j = i
  · subst hj
    simpa using hb
  · rw [Function.update_of_ne hj, Function.update_of_ne hj]
    exact h j

structure Family (m : Mem) (bufs : ι → Buffer) (chain : ι → List Ptr) (loose : List Ptr)
    (k : Nat) : Prop extends Chains m bufs chain loose k where
  length : Exact bufs (familyBytes m chain)

namespace Chains

variable {m m' : Mem} {bufs : ι → Buffer} {chain : ι → List Ptr} {loose : List Ptr} {k : Nat}

theorem perm_loose {loose' : List Ptr} (h : Chains m bufs chain loose k) (hperm : loose.Perm loose') :
    Chains m bufs chain loose' k := by
  obtain ⟨ids, hnodup, hout, howns⟩ := h.owns
  exact ⟨h.holds, ids, hnodup, hout, howns.perm (hperm.append_left _)⟩

variable [DecidableEq ι]

theorem owns_mem (h : Chains m bufs chain loose k) (i : ι) :
    ∃ ids : List ι, ids.Nodup ∧ (∀ j, j ∉ ids → chain j = []) ∧ i ∈ ids ∧
      Owns m (ids.flatMap chain ++ loose) k := by
  obtain ⟨ids, hnodup, hout, howns⟩ := h.owns
  by_cases hi : i ∈ ids
  · exact ⟨ids, hnodup, hout, hi, howns⟩
  · refine ⟨i :: ids, List.nodup_cons.mpr ⟨hi, hnodup⟩, fun j hj => ?_, by simp, ?_⟩
    · exact hout j fun hmem => hj (by simp [hmem])
    · rw [List.flatMap_cons, hout i hi]
      simpa using howns

theorem live (h : Chains m bufs chain loose k) {i : ι} {p : Ptr} (hp : p ∈ chain i) : m.Live p := by
  obtain ⟨ids, _, _, hi, howns⟩ := h.owns_mem i
  exact howns.live (List.mem_append_left _ (List.mem_flatMap.mpr ⟨i, hi, hp⟩))

theorem pieces_eq (h : Chains m bufs chain loose k) (i : ι) : (bufs i).pieces m = chain i :=
  (h.holds i).rep.pieces_eq fun _ hp => h.live hp

theorem disjoint (h : Chains m bufs chain loose k) {i j : ι} (hij : i ≠ j) {p : Ptr}
    (hp : p ∈ chain i) : p ∉ chain j := by
  intro hq
  obtain ⟨ids, hnodup, hout, hi, howns⟩ := h.owns_mem i
  have hj : j ∈ ids.erase i := by
    refine (hnodup.mem_erase_iff).mpr ⟨hij.symm, ?_⟩
    by_contra hj
    rw [hout j hj] at hq
    simp at hq
  have hall := ((flatMap_perm_erase (f := chain) hi).append_right loose).nodup_iff.mp howns.nodup
  rw [List.append_assoc, List.nodup_append] at hall
  exact hall.2.2 p hp p (List.mem_append_left _ (List.mem_flatMap.mpr ⟨j, hj, hq⟩)) rfl

/-- The frame rule for one buffer. -/
theorem focus (h : Chains m bufs chain loose k) (i : ι) :
    ∃ rest, Owns m (chain i ++ (rest ++ loose)) k ∧ (∀ j, j ≠ i → ∀ p ∈ chain j, p ∈ rest) ∧
      ∀ m' b' ps' loose' k', Holds m' (Buffer.toQueue b') ps' → Owns m' (ps' ++ (rest ++ loose')) k' →
        SameOn rest m m' →
        Chains m' (Function.update bufs i b') (Function.update chain i ps') loose' k' ∧
        familyBytes m' (Function.update chain i ps') =
          Function.update (familyBytes m chain) i (content m' ps') := by
  obtain ⟨ids, hnodup, hout, hi, howns⟩ := h.owns_mem i
  have hperm := flatMap_perm_erase (f := chain) hi
  have hothers : ∀ j, j ≠ i → ∀ p ∈ chain j, p ∈ (ids.erase i).flatMap chain := by
    intro j hj p hp
    have hjs : j ∈ ids := by
      by_contra hn
      rw [hout j hn] at hp
      simp at hp
    exact List.mem_flatMap.mpr ⟨j, hnodup.mem_erase_iff.mpr ⟨hj, hjs⟩, hp⟩
  refine ⟨(ids.erase i).flatMap chain, ?_, hothers, ?_⟩
  · rw [← List.append_assoc]
    exact howns.perm (hperm.append_right loose)
  · intro m' b' ps' loose' k' hb' howns' hsame
    have hsame_ne : ∀ j, j ≠ i → SameOn (chain j) m m' := fun j hj => hsame.mono (hothers j hj)
    have hperm' := flatMap_perm_erase (f := Function.update chain i ps') hi
    rw [Function.update_self, flatMap_update_of_notMem _ hnodup.not_mem_erase] at hperm'
    refine ⟨⟨fun j => ?_, ids, hnodup, fun j hj => ?_, ?_⟩, ?_⟩
    · by_cases hj : j = i
      · subst hj; simpa using hb'
      · rw [Function.update_of_ne hj, Function.update_of_ne hj]
        exact (h.holds j).same (hsame_ne j hj)
    · have hne : j ≠ i := fun e => hj (e ▸ hi)
      rw [Function.update_of_ne hne]
      exact hout j hj
    · rw [← List.append_assoc] at howns'
      exact howns'.perm (hperm'.symm.append_right loose')
    · funext j
      by_cases hj : j = i
      · subst hj; simp [familyBytes]
      · rw [Function.update_of_ne hj, familyBytes, familyBytes, Function.update_of_ne hj]
        exact content_same (hsame_ne j hj)

/-- The frame rule for two different buffers. -/
theorem focus₂ (h : Chains m bufs chain loose k) {i j : ι} (hij : i ≠ j) :
    ∃ rest, Owns m (chain i ++ chain j ++ (rest ++ loose)) k ∧
      ∀ m' b' c' ps' qs' loose' k', Holds m' (Buffer.toQueue b') ps' →
        Holds m' (Buffer.toQueue c') qs' →
        Owns m' (ps' ++ qs' ++ (rest ++ loose')) k' → SameOn rest m m' →
        Chains m' (Function.update (Function.update bufs i b') j c')
          (Function.update (Function.update chain i ps') j qs') loose' k' ∧
        familyBytes m' (Function.update (Function.update chain i ps') j qs') =
          Function.update (Function.update (familyBytes m chain) i (content m' ps')) j
            (content m' qs') := by
  obtain ⟨ids₀, hnodup₀, hout₀, hi₀, howns₀⟩ := h.owns_mem i
  obtain ⟨ids, hnodup, hout, hi, hj, howns⟩ : ∃ ids : List ι, ids.Nodup ∧
      (∀ l, l ∉ ids → chain l = []) ∧ i ∈ ids ∧ j ∈ ids ∧
      Owns m (ids.flatMap chain ++ loose) k := by
    by_cases hj : j ∈ ids₀
    · exact ⟨ids₀, hnodup₀, hout₀, hi₀, hj, howns₀⟩
    · refine ⟨j :: ids₀, List.nodup_cons.mpr ⟨hj, hnodup₀⟩, fun l hl => ?_, by simp [hi₀], by simp, ?_⟩
      · exact hout₀ l fun hmem => hl (by simp [hmem])
      · rw [List.flatMap_cons, hout₀ j hj]
        simpa using howns₀
  have hj' : j ∈ ids.erase i := hnodup.mem_erase_iff.mpr ⟨hij.symm, hj⟩
  have hsplit : ∀ f : ι → List Ptr,
      (ids.flatMap f).Perm (f i ++ f j ++ ((ids.erase i).erase j).flatMap f) := by
    intro f
    rw [List.append_assoc]
    exact (flatMap_perm_erase hi).trans ((flatMap_perm_erase hj').append_left _)
  refine ⟨((ids.erase i).erase j).flatMap chain, ?_, ?_⟩
  · rw [← List.append_assoc]
    exact howns.perm ((hsplit chain).append_right loose)
  · intro m' b' c' ps' qs' loose' k' hb' hc' howns' hsame
    have hmem : ∀ l, l ≠ i → l ≠ j → l ∈ ids → l ∈ (ids.erase i).erase j := fun l hli hlj hl =>
      (hnodup.erase i).mem_erase_iff.mpr ⟨hlj, hnodup.mem_erase_iff.mpr ⟨hli, hl⟩⟩
    have hsame_ne : ∀ l, l ≠ i → l ≠ j → SameOn (chain l) m m' := by
      intro l hli hlj p hp
      have hl : l ∈ ids := by
        by_contra hn
        rw [hout l hn] at hp
        simp at hp
      exact hsame p (List.mem_flatMap.mpr ⟨l, hmem l hli hlj hl, hp⟩)
    have hperm' := hsplit (Function.update (Function.update chain i ps') j qs')
    have hi_not : i ∉ (ids.erase i).erase j := fun hmem =>
      hnodup.not_mem_erase (List.mem_of_mem_erase hmem)
    rw [Function.update_self, Function.update_of_ne hij, Function.update_self,
      flatMap_update_of_notMem _ (hnodup.erase i).not_mem_erase,
      flatMap_update_of_notMem _ hi_not] at hperm'
    refine ⟨⟨fun l => ?_, ids, hnodup, fun l hl => ?_, ?_⟩, ?_⟩
    · by_cases hlj : l = j
      · subst hlj; simpa using hc'
      · rw [Function.update_of_ne hlj, Function.update_of_ne hlj]
        by_cases hli : l = i
        · subst hli; simpa using hb'
        · rw [Function.update_of_ne hli, Function.update_of_ne hli]
          exact (h.holds l).same (hsame_ne l hli hlj)
    · have hli : l ≠ i := fun e => hl (e ▸ hi)
      have hlj : l ≠ j := fun e => hl (e ▸ hj)
      rw [Function.update_of_ne hlj, Function.update_of_ne hli]
      exact hout l hl
    · rw [← List.append_assoc] at howns'
      exact howns'.perm (hperm'.symm.append_right loose')
    · funext l
      by_cases hlj : l = j
      · subst hlj; simp [familyBytes]
      · rw [Function.update_of_ne hlj, familyBytes, Function.update_of_ne hlj]
        by_cases hli : l = i
        · subst hli; simp
        · rw [Function.update_of_ne hli, Function.update_of_ne hli, familyBytes]
          exact content_same (hsame_ne l hli hlj)

end Chains

namespace Family

variable {m m' : Mem} {bufs : ι → Buffer} {chain : ι → List Ptr} {loose : List Ptr} {k : Nat}

theorem initial (cell : Ptr → Piece) :
    Family { cell := cell } (fun _ : ι => {}) (fun _ => []) [] 0 :=
  ⟨⟨fun _ => Holds.empty _, [], List.nodup_nil, by simp, Owns.initial cell⟩, fun _ => rfl⟩

theorem rep (h : Family m bufs chain loose k) (i : ι) : (bufs i).Rep m (chain i) :=
  ⟨h.holds i, h.length i⟩

variable [DecidableEq ι]

theorem focus (h : Family m bufs chain loose k) (i : ι) :
    ∃ rest, Owns m (chain i ++ (rest ++ loose)) k ∧ (∀ j, j ≠ i → ∀ p ∈ chain j, p ∈ rest) ∧
      ∀ m' b' ps' loose' k', Buffer.Rep m' b' ps' → Owns m' (ps' ++ (rest ++ loose')) k' →
        SameOn rest m m' →
        Family m' (Function.update bufs i b') (Function.update chain i ps') loose' k' ∧
        familyBytes m' (Function.update chain i ps') =
          Function.update (familyBytes m chain) i (content m' ps') := by
  obtain ⟨rest, howns, hothers, hput⟩ := h.toChains.focus i
  refine ⟨rest, howns, hothers, fun m' b' ps' loose' k' hb' howns' hsame => ?_⟩
  obtain ⟨hchains, hbytes⟩ := hput m' b' ps' loose' k' hb'.holds howns' hsame
  exact ⟨⟨hchains, by rw [hbytes]; exact h.length.update hb'.length⟩, hbytes⟩

theorem focus₂ (h : Family m bufs chain loose k) {i j : ι} (hij : i ≠ j) :
    ∃ rest, Owns m (chain i ++ chain j ++ (rest ++ loose)) k ∧
      ∀ m' b' c' ps' qs' loose' k', Buffer.Rep m' b' ps' → Buffer.Rep m' c' qs' →
        Owns m' (ps' ++ qs' ++ (rest ++ loose')) k' → SameOn rest m m' →
        Family m' (Function.update (Function.update bufs i b') j c')
          (Function.update (Function.update chain i ps') j qs') loose' k' ∧
        familyBytes m' (Function.update (Function.update chain i ps') j qs') =
          Function.update (Function.update (familyBytes m chain) i (content m' ps')) j
            (content m' qs') := by
  obtain ⟨rest, howns, hput⟩ := h.toChains.focus₂ hij
  refine ⟨rest, howns, fun m' b' c' ps' qs' loose' k' hb' hc' howns' hsame => ?_⟩
  obtain ⟨hchains, hbytes⟩ := hput m' b' c' ps' qs' loose' k' hb'.holds hc'.holds howns' hsame
  exact ⟨⟨hchains, by rw [hbytes]; exact (h.length.update hb'.length).update hc'.length⟩, hbytes⟩

end Family

end Netpp
