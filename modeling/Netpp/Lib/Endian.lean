import Mathlib.Algebra.Order.Ring.Int
import Mathlib.Data.List.Induction
import Mathlib.Tactic.Common

/-! # Big-endian words

`bigEndian k x` is the `k`-byte big-endian representation of `x` modulo `256 ^ k`
and `ofBigEndian` reads a byte string back.  `signedWord` is the two's complement
reading of an unsigned word.
-/

/-- The `k` bytes of `x`, most significant first; higher digits are cut off. -/
def bigEndian : Nat → Nat → List UInt8
  | 0, _ => []
  | k + 1, x => bigEndian k (x / 256) ++ [UInt8.ofNat (x % 256)]

def ofBigEndian (l : List UInt8) : Nat :=
  l.foldl (fun acc b => acc * 256 + b.toNat) 0

@[simp] theorem length_bigEndian (k x : Nat) : (bigEndian k x).length = k := by
  induction k generalizing x with
  | zero => rfl
  | succ k ih => simp [bigEndian, ih]

theorem ofBigEndian_snoc (l : List UInt8) (b : UInt8) :
    ofBigEndian (l ++ [b]) = ofBigEndian l * 256 + b.toNat := by
  simp [ofBigEndian]

theorem ofBigEndian_lt (l : List UInt8) : ofBigEndian l < 256 ^ l.length := by
  induction l using List.reverseRecOn with
  | nil => exact Nat.one_pos
  | append_singleton l b ih =>
    have hb := b.toNat_lt
    rw [ofBigEndian_snoc, List.length_append, List.length_singleton, Nat.pow_succ]
    omega

theorem ofBigEndian_bigEndian (k x : Nat) : ofBigEndian (bigEndian k x) = x % 256 ^ k := by
  induction k generalizing x with
  | zero => simp [bigEndian, ofBigEndian, Nat.mod_one]
  | succ k ih =>
    rw [bigEndian, ofBigEndian_snoc, ih]
    have hdigit : (UInt8.ofNat (x % 256)).toNat = x % 256 := by simp
    rw [hdigit, Nat.pow_succ, Nat.mul_comm (256 ^ k) 256, Nat.mod_mul]
    omega

/-- The signed value of an unsigned `bits`-bit word. -/
def signedWord (bits n : Nat) : Int :=
  if n < 2 ^ (bits - 1) then n else (n : Int) - 2 ^ bits

/-- The unsigned word that represents an integer modulo `2 ^ bits`. -/
def unsignedWord (bits : Nat) (x : Int) : Nat := (x % 2 ^ bits).toNat

theorem unsignedWord_natCast (bits n : Nat) : unsignedWord bits (n : Int) = n % 2 ^ bits := by
  unfold unsignedWord
  have hcast : ((n : Int) % 2 ^ bits) = ((n % 2 ^ bits : Nat) : Int) := by push_cast; rfl
  rw [hcast, Int.toNat_natCast]

theorem unsignedWord_lt (bits : Nat) (x : Int) : unsignedWord bits x < 2 ^ bits := by
  have hpos : (0 : Int) < 2 ^ bits := Int.pow_pos (by decide)
  have hlt := Int.emod_lt_of_pos x hpos
  have hnonneg := Int.emod_nonneg x (Int.ne_of_gt hpos)
  have hcast : ((2 ^ bits : Nat) : Int) = 2 ^ bits := by push_cast; rfl
  rw [unsignedWord]
  omega

theorem unsignedWord_of_lt {bits : Nat} {x : Int} (hnonneg : 0 ≤ x) (hlt : x < 2 ^ bits) :
    (unsignedWord bits x : Int) = x := by
  rw [unsignedWord, Int.emod_eq_of_lt hnonneg hlt, Int.toNat_of_nonneg hnonneg]

theorem signedWord_le (bits n : Nat) : signedWord bits n ≤ n := by
  unfold signedWord
  split
  · exact Int.le_refl _
  · have hpow : (0 : Int) ≤ 2 ^ bits := Int.pow_nonneg (by decide)
    omega

/-- The two readings of a word agree modulo `2 ^ bits`. -/
theorem signedWord_emod (bits n : Nat) : signedWord bits n % 2 ^ bits = (n : Int) % 2 ^ bits := by
  unfold signedWord
  split
  · rfl
  · rw [Int.sub_emod_right]

theorem unsignedWord_signedWord {bits n : Nat} (h : n < 2 ^ bits) :
    unsignedWord bits (signedWord bits n) = n := by
  rw [unsignedWord, signedWord_emod, ← unsignedWord, unsignedWord_natCast, Nat.mod_eq_of_lt h]

theorem unsignedWord_signedWord_succ (bits n : Nat) :
    unsignedWord bits (signedWord bits (n % 2 ^ bits) + 1) = (n + 1) % 2 ^ bits := by
  have hsum : (signedWord bits (n % 2 ^ bits) + 1) % 2 ^ bits = ((n + 1 : Nat) : Int) % 2 ^ bits := by
    rw [Int.add_emod, signedWord_emod, ← Int.add_emod]
    push_cast
    rw [Int.emod_add_emod]
  rw [unsignedWord, hsum, ← unsignedWord, unsignedWord_natCast]

theorem ofBigEndian_word (k n : Nat) :
    ofBigEndian (bigEndian k (unsignedWord (8 * k) (n : Int))) = n % 2 ^ (8 * k) := by
  have hpow : (256 : Nat) ^ k = 2 ^ (8 * k) := by rw [Nat.pow_mul]
  rw [ofBigEndian_bigEndian, unsignedWord_natCast, hpow, Nat.mod_mod]
