import Mathlib.Logic.Function.Basic
import Mathlib.Data.List.Basic
import Mathlib.Tactic.Common

/-! # Singly linked chains

`Chain next hd ps` says that following the link function `next` from `hd` visits
exactly the nodes `ps`, in order, and then ends.  The link function is a
parameter: a heap gives one by reading the link field of each cell, and an
update of the heap is an update of it.

* `Chain.frame` — a chain only depends on the links of its own nodes;
* `Chain.snoc` — linking a new last node;
* `walk` — the executable traversal, and `Chain.walk_eq` its correctness.
-/

variable {α : Type}

def Chain (next : α → Option α) : Option α → List α → Prop
  | hd, [] => hd = none
  | hd, p :: ps => hd = some p ∧ Chain next (next p) ps

namespace Chain

variable {next next' : α → Option α} {hd : Option α} {p t : α} {ps qs : List α}

@[simp] theorem nil_iff : Chain next hd [] ↔ hd = none := Iff.rfl

@[simp] theorem cons_iff : Chain next hd (p :: ps) ↔ hd = some p ∧ Chain next (next p) ps := Iff.rfl

theorem head_eq (h : Chain next hd ps) : hd = ps.head? := by
  cases ps with
  | nil => exact h
  | cons p ps => exact h.1

theorem last_next (h : Chain next hd (ps ++ [p])) : next p = none := by
  induction ps generalizing hd with
  | nil => exact h.2
  | cons q ps ih => exact ih h.2

theorem unique (hp : Chain next hd ps) (hq : Chain next hd qs) : ps = qs := by
  induction ps generalizing hd qs with
  | nil =>
    cases qs with
    | nil => rfl
    | cons q qs =>
      rw [nil_iff.mp hp] at hq
      cases hq.1
  | cons p ps ih =>
    cases qs with
    | nil =>
      rw [nil_iff.mp hq] at hp
      cases hp.1
    | cons q qs =>
      have hpq : p = q := Option.some.inj (hp.1.symm.trans hq.1)
      subst hpq
      rw [ih hp.2 hq.2]

/-- A chain only reads the links of its own nodes. -/
theorem frame (h : Chain next hd ps) (same : ∀ q ∈ ps, next' q = next q) : Chain next' hd ps := by
  induction ps generalizing hd with
  | nil => exact h
  | cons p ps ih =>
    refine ⟨h.1, ?_⟩
    rw [same p (by simp)]
    exact ih h.2 fun q hq => same q (by simp [hq])

/-- Linking `p` behind the last node `t` of a chain extends the chain by `p`. -/
theorem snoc (h : Chain next hd ps) (last : ps.getLast? = some t) (distinct : ps.Nodup)
    (keep : ∀ q ∈ ps, q ≠ t → next' q = next q) (link : next' t = some p)
    (stop : next' p = none) : Chain next' hd (ps ++ [p]) := by
  induction ps generalizing hd with
  | nil => simp at last
  | cons q ps ih =>
    refine ⟨h.1, ?_⟩
    cases ps with
    | nil =>
      have hq : q = t := by simpa using last
      subst hq
      simp [link, stop]
    | cons r rs =>
      have hlast : (r :: rs).getLast? = some t := by simpa [List.getLast?_cons_cons] using last
      have hmem : t ∈ r :: rs := List.mem_of_getLast? hlast
      have hqt : q ≠ t := fun e => (List.nodup_cons.mp distinct).1 (e ▸ hmem)
      rw [keep q (by simp) hqt]
      exact ih h.2 hlast (List.nodup_cons.mp distinct).2
        fun s hs => keep s (by simp only [List.mem_cons] at hs ⊢; exact Or.inr hs)

theorem nodup (h : Chain next hd ps) : ps.Nodup := by
  induction ps generalizing hd with
  | nil => exact List.nodup_nil
  | cons p ps ih =>
    refine List.nodup_cons.mpr ⟨fun hmem => ?_, ih h.2⟩
    -- a second visit of `p` would give two chains from `p` of different lengths
    obtain ⟨as, bs, rfl⟩ := List.append_of_mem hmem
    have hsuffix : ∀ {hd : Option α} {as : List α}, Chain next hd (as ++ p :: bs) →
        Chain next (some p) (p :: bs) := by
      intro hd as hc
      induction as generalizing hd with
      | nil => exact ⟨rfl, hc.2⟩
      | cons a as iha => exact iha hc.2
    have hlong : Chain next (some p) (p :: (as ++ p :: bs)) := ⟨rfl, h.2⟩
    have := congrArg List.length ((hsuffix h.2).unique hlong)
    simp at this
    omega

end Chain

/-- Follow at most `n` links from `hd`. -/
def walk (next : α → Option α) : Nat → Option α → List α
  | 0, _ => []
  | _ + 1, none => []
  | n + 1, some p => p :: walk next n (next p)

theorem Chain.walk_eq {next : α → Option α} {hd : Option α} {ps : List α} {n : Nat}
    (h : Chain next hd ps) (bound : ps.length ≤ n) : walk next n hd = ps := by
  induction ps generalizing hd n with
  | nil =>
    rw [Chain.nil_iff.mp h]
    cases n <;> rfl
  | cons p ps ih =>
    cases n with
    | zero => simp at bound
    | succ n =>
      rw [h.1]
      simp only [walk, List.cons.injEq, true_and]
      exact ih h.2 (by simpa using bound)
