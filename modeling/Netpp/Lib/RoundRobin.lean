import Mathlib.Data.Int.CardIntervalMod
import Mathlib.Tactic.Common

/-! # Taking turns

A counter that goes round after `period` turns deals them to `n` parties: turn `k` goes to
`party period n k`.  `turns period n count i` is how many of the first `count` turns party `i`
gets.  A counter of period `0` never goes round.

* `turns_of_le`: before the counter goes round, every party gets its share, or one more.
* `turns_le`: the parties differ by one turn at most, and by one more for each time the
  counter has gone round.
-/

namespace RoundRobin

variable {period n count i j : Nat}

def party (period n k : Nat) : Nat := k % period % n

def turns (period n count i : Nat) : Nat := Nat.count (fun k => party period n k = i) count

@[simp] theorem turns_zero (period n i : Nat) : turns period n 0 i = 0 := rfl

theorem turns_succ (period n count i : Nat) :
    turns period n (count + 1) i =
      turns period n count i + if party period n count = i then 1 else 0 := by
  simp only [turns, Nat.count_succ]

/-- Before the counter goes round, turn `k` is dealt by `k` alone. -/
theorem turns_of_le (hi : i < n) (h : period = 0 ∨ count ≤ period) :
    turns period n count i = count / n + if i < count % n then 1 else 0 := by
  have hround : ∀ k < count, k % period = k := fun k hk => by
    cases h with
    | inl hzero => rw [hzero, Nat.mod_zero]
    | inr hle => exact Nat.mod_eq_of_lt (Nat.lt_of_lt_of_le hk hle)
  have hparty : ∀ k < count, party period n k = i ↔ k ≡ i [MOD n] := fun k hk => by
    rw [party, hround k hk, Nat.ModEq, Nat.mod_eq_of_lt hi]
  have hturns : turns period n count i = Nat.count (fun k => k ≡ i [MOD n]) count := by
    simp only [turns, Nat.count_eq_card_filter_range]
    congr 1
    apply Finset.filter_congr
    exact fun k hk => hparty k (Finset.mem_range.mp hk)
  rw [hturns, Nat.count_modEq_card count (Nat.zero_lt_of_lt hi), Nat.mod_eq_of_lt hi]

/-- After `period` turns the counter deals as it did from the beginning. -/
theorem turns_add_period (period n count i : Nat) :
    turns period n (period + count) i = turns period n period i + turns period n count i := by
  have hagain : ∀ k, party period n (period + k) = party period n k := fun k => by
    rw [party, party, Nat.add_mod_left]
  simp only [turns, Nat.count_add, hagain]

theorem turns_le_of_le (hi : i < n) (hj : j < n) (h : period = 0 ∨ count ≤ period) :
    turns period n count i ≤ turns period n count j + 1 := by
  rw [turns_of_le hi h, turns_of_le hj h]
  split <;> split <;> omega

theorem turns_le (period : Nat) (hi : i < n) (hj : j < n) (count : Nat) :
    turns period n count i ≤ turns period n count j + count / period + 1 := by
  cases Nat.eq_zero_or_pos period with
  | inl hzero =>
    rw [hzero, Nat.div_zero]
    exact turns_le_of_le hi hj (.inl rfl)
  | inr hperiod =>
    induction count using Nat.strongRecOn with
    | ind count ih =>
      cases Nat.lt_or_ge count period with
      | inl hbefore =>
        rw [Nat.div_eq_of_lt hbefore]
        exact turns_le_of_le hi hj (.inr (Nat.le_of_lt hbefore))
      | inr hround =>
        obtain ⟨rest, rfl⟩ := Nat.exists_eq_add_of_le hround
        have hfirst : turns period n period i ≤ turns period n period j + 1 :=
          turns_le_of_le hi hj (.inr (Nat.le_refl _))
        have hrest := ih rest (by omega)
        rw [turns_add_period, turns_add_period, Nat.add_div_left _ hperiod]
        omega

end RoundRobin
