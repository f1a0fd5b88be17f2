import Mathlib.Algebra.Order.BigOperators.Group.Finset
import Mathlib.Data.Fintype.Basic
import Mathlib.Data.List.Nodup
import Mathlib.Logic.Function.Basic
import Mathlib.Tactic.Common

/-! # Numbers from one counter

A counter hands out one number after the other.  Each party `i` keeps some of the numbers it
was handed, in `held i`.

* `Numbered.next`: the next number is kept.
* `Numbered.unique`: no number is kept twice.
* `sum_step`, `sum_le_add_card`: what all have together, when one of them gets more, and when
  each has one more at most.
-/

open Function (update)

variable {ι : Type} {count k l : Nat} {held : ι → List Nat} {i j : ι}

structure Numbered (count : Nat) (held : ι → List Nat) : Prop where
  below : ∀ i, ∀ x ∈ held i, x < count
  nodup : ∀ i, (held i).Nodup
  apart : ∀ i j, i ≠ j → ∀ x ∈ held i, x ∉ held j

namespace Numbered

theorem none : Numbered 0 fun _ : ι => [] :=
  ⟨fun _ _ h => (by cases h), fun _ => List.nodup_nil, fun _ _ _ _ h => (by cases h)⟩

theorem skip (h : Numbered count held) : Numbered (count + 1) held :=
  ⟨fun i x hx => Nat.lt_succ_of_lt (h.below i x hx), h.nodup, h.apart⟩

theorem next [DecidableEq ι] (h : Numbered count held) (i : ι) :
    Numbered (count + 1) (update held i (held i ++ [count])) := by
  have hnew : ∀ j, count ∉ held j := fun j hin => Nat.lt_irrefl _ (h.below j count hin)
  -- a number in a list is an old one, or is the new one and the list that of `i`
  have hmem : ∀ j x, x ∈ update held i (held i ++ [count]) j → x ∈ held j ∨ j = i ∧ x = count := by
    intro j x hx
    by_cases hj : j = i
    · rw [hj, Function.update_self] at hx
      cases List.mem_append.mp hx with
      | inl hold => exact .inl (hj ▸ hold)
      | inr hlast => exact .inr ⟨hj, List.mem_singleton.mp hlast⟩
    · rw [Function.update_of_ne hj] at hx
      exact .inl hx
  refine ⟨fun j x hx => ?_, fun j => ?_, fun j l hjl x hx hx' => ?_⟩
  · cases hmem j x hx with
    | inl hold => exact Nat.lt_succ_of_lt (h.below j x hold)
    | inr hlast => omega
  · by_cases hj : j = i
    · rw [hj, Function.update_self]
      exact (h.nodup i).append (List.nodup_singleton _) fun x hx hlast =>
        hnew i (List.mem_singleton.mp hlast ▸ hx)
    · rw [Function.update_of_ne hj]
      exact h.nodup j
  · cases hmem j x hx with
    | inl hold =>
      cases hmem l x hx' with
      | inl hold' => exact h.apart j l hjl x hold hold'
      | inr hlast' => exact hnew j (hlast'.2 ▸ hold)
    | inr hlast =>
      cases hmem l x hx' with
      | inl hold' => exact hnew l (hlast.2 ▸ hold')
      | inr hlast' => exact hjl (hlast.1.trans hlast'.1.symm)

theorem unique (h : Numbered count held) (hk : k < (held i).length) (hl : l < (held j).length)
    (heq : (held i)[k] = (held j)[l]) : i = j ∧ k = l := by
  by_cases hij : i = j
  · subst hij
    exact ⟨rfl, (h.nodup i).getElem_inj_iff.mp heq⟩
  · exact absurd (heq ▸ List.getElem_mem hl) (h.apart i j hij _ (List.getElem_mem hk))

end Numbered

theorem sum_step [Fintype ι] [DecidableEq ι] {f g : ι → Nat} {d : Nat} (hi : g i = f i + d)
    (hothers : ∀ j, j ≠ i → g j = f j) : ∑ j, g j = ∑ j, f j + d := by
  rw [← Finset.add_sum_erase _ g (Finset.mem_univ i), ← Finset.add_sum_erase _ f (Finset.mem_univ i),
    hi, Finset.sum_congr rfl fun j hj => hothers j (Finset.ne_of_mem_erase hj)]
  exact Nat.add_right_comm ..

theorem sum_le_add_card [Fintype ι] {f g : ι → Nat} (h : ∀ i, f i ≤ g i + 1) :
    ∑ i, f i ≤ ∑ i, g i + Fintype.card ι := by
  calc ∑ i, f i ≤ ∑ i, (g i + 1) := Finset.sum_le_sum fun i _ => h i
    _ = ∑ i, g i + Fintype.card ι := by
      rw [Finset.sum_add_distrib, ← Finset.card_eq_sum_ones, Finset.card_univ]
