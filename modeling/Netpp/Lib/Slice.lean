import Mathlib.Data.List.Basic
import Mathlib.Tactic.Common

/-! # Slices of an array

An array is a function from indices.  `slice data pos len` is the list of the
`len` elements from `pos` on; `patch data pos src` is the array after `src` has
been copied to position `pos`.
-/

variable {β : Type}

def slice (data : Nat → β) (pos len : Nat) : List β := (List.range' pos len).map data

def patch (data : Nat → β) (pos : Nat) (src : List β) : Nat → β :=
  fun i => if pos ≤ i then (src[i - pos]?).getD (data i) else data i

@[simp] theorem length_slice (data : Nat → β) (pos len : Nat) :
    (slice data pos len).length = len := by simp [slice]

@[simp] theorem slice_zero (data : Nat → β) (pos : Nat) : slice data pos 0 = [] := rfl

theorem slice_add (data : Nat → β) (pos m n : Nat) :
    slice data pos (m + n) = slice data pos m ++ slice data (pos + m) n := by
  simp only [slice, ← List.map_append]
  rw [List.range'_append_1]

theorem take_slice (data : Nat → β) {pos len n : Nat} (h : n ≤ len) :
    (slice data pos len).take n = slice data pos n := by
  obtain ⟨k, rfl⟩ := Nat.exists_eq_add_of_le h
  rw [slice_add, List.take_left' (length_slice ..)]

theorem drop_slice (data : Nat → β) {pos len n : Nat} (h : n ≤ len) :
    (slice data pos len).drop n = slice data (pos + n) (len - n) := by
  obtain ⟨k, rfl⟩ := Nat.exists_eq_add_of_le h
  rw [slice_add, List.drop_left' (length_slice ..), Nat.add_sub_cancel_left]

theorem getElem?_slice (data : Nat → β) {pos len i : Nat} (h : i < len) :
    (slice data pos len)[i]? = some (data (pos + i)) := by
  simp [slice, h]

theorem slice_congr {data data' : Nat → β} {pos len : Nat}
    (same : ∀ i, pos ≤ i → i < pos + len → data' i = data i) :
    slice data' pos len = slice data pos len := by
  apply List.map_congr_left
  intro i hi
  rw [List.mem_range'_1] at hi
  exact same i hi.1 hi.2

theorem slice_patch (data : Nat → β) (pos : Nat) (src : List β) :
    slice (patch data pos src) pos src.length = src := by
  apply List.ext_getElem?
  intro i
  by_cases hi : i < src.length
  · rw [getElem?_slice _ hi]
    simp [patch, hi]
  · rw [List.getElem?_eq_none (by simpa using hi), List.getElem?_eq_none (by simpa using hi)]

theorem slice_patch_before (data : Nat → β) {at' pos len : Nat} (src : List β)
    (h : pos + len ≤ at') : slice (patch data at' src) pos len = slice data pos len := by
  apply slice_congr
  intro i _ hi
  have : ¬ at' ≤ i := by omega
  simp [patch, this]

theorem slice_patch_after (data : Nat → β) {at' pos len : Nat} (src : List β)
    (h : at' + src.length ≤ pos) : slice (patch data at' src) pos len = slice data pos len := by
  apply slice_congr
  intro i hi _
  have : src[i - at']? = none := List.getElem?_eq_none (by omega)
  simp only [patch, this, Option.getD_none, ite_self]
