import Mathlib.Data.Fintype.Card

/-! # Families with one member replaced

`update f i u` is the family `f` with `u` for its member `i`.  The members with a property
`p` stay the same if `u` has it exactly when the old member had it, and are one more if `u`
has it and the old member had not.
-/

namespace Family

open Function (update)

variable {ι α : Type} [Fintype ι] [DecidableEq ι] {p : α → Prop} [DecidablePred p]
  {f : ι → α} {i : ι} {u : α}

def having (p : α → Prop) [DecidablePred p] (f : ι → α) : Finset ι := Finset.univ.filter fun i => p (f i)

omit [DecidableEq ι] in
@[simp] theorem mem_having : i ∈ having p f ↔ p (f i) := by
  simp [having]

theorem having_update_same (h : p u ↔ p (f i)) : having p (update f i u) = having p f := by
  ext j
  by_cases hj : j = i
  · subst hj
    simp [h]
  · simp [hj]

theorem having_update_new (h : p u) : having p (update f i u) = insert i (having p f) := by
  ext j
  by_cases hj : j = i
  · subst hj
    simp [h]
  · simp [hj]

theorem card_having_update_new (h : p u) (hnot : ¬ p (f i)) :
    (having p (update f i u)).card = (having p f).card + 1 := by
  rw [having_update_new h, Finset.card_insert_of_notMem (by simpa using hnot)]

theorem card_having_update (f : ι → α) (i : ι) (u : α) :
    (having p (update f i u)).card + (if p (f i) then 1 else 0) =
      (having p f).card + if p u then 1 else 0 := by
  by_cases hold : p (f i)
  · by_cases hnew : p u
    · rw [having_update_same (iff_of_true hnew hold), if_pos hold, if_pos hnew]
    · -- the old member, put back, is one more
      have hback := card_having_update_new (f := update f i u) (i := i) hold (by simpa using hnew)
      rw [Function.update_idem, Function.update_eq_self] at hback
      rw [if_pos hold, if_neg hnew, hback]
  · by_cases hnew : p u
    · rw [card_having_update_new hnew hold, if_neg hold, if_pos hnew]
    · rw [having_update_same (iff_of_false hnew hold), if_neg hold, if_neg hnew]

omit [DecidableEq ι] in
theorem all_of_card_having (h : (having p f).card = Fintype.card ι) (i : ι) : p (f i) := by
  have hall : having p f = Finset.univ := Finset.card_eq_iff_eq_univ _ |>.mp h
  have hi : i ∈ having p f := by
    rw [hall]
    exact Finset.mem_univ i
  simpa using hi

omit [DecidableEq ι] in
theorem card_having_of_all (h : ∀ i, p (f i)) : (having p f).card = Fintype.card ι := by
  have hall : having p f = Finset.univ := Finset.eq_univ_of_forall fun i => by simpa using h i
  rw [hall, Finset.card_univ]

omit [DecidableEq ι] in
theorem card_having_lt (h : ¬ p (f i)) : (having p f).card < Fintype.card ι := by
  apply Finset.card_lt_univ_of_notMem (x := i)
  simpa using h

end Family
