import Mathlib.Algebra.Order.Ring.Int
import Mathlib.Tactic.Common

/-! # Readers of a byte stream

A `ByteReader σ α` takes bytes off the front of a stream and changes a `σ` on the way,
which keeps what was done to it when the reader halts.  A reader halts because the
stream has ended inside what it reads, or because of what it has read.

* `Steady`: what a reader decides on a stream it decides on every stream that goes on
  behind it, so it may be given the stream piece by piece.
* `untilSome`: a loop whose body takes at least a byte.
* `varint`: numbers in base 128, with the bound on their length that a reader imposes.
-/

inductive Halt where
  | more   -- the stream has ended
  | stop   -- what was read cannot be gone on with
  deriving DecidableEq, Repr

abbrev ByteReader (σ α : Type) : Type := ExceptT Halt (StateM (σ × List UInt8)) α

namespace ByteReader

variable {σ α β : Type}

theorem bind_apply (r : ByteReader σ α) (f : α → ByteReader σ β) (x : σ × List UInt8) :
    (r >>= f) x = match r x with
      | (.ok a, y) => f a y
      | (.error h, y) => (.error h, y) := by
  show (StateT.bind r (ExceptT.bindCont f)) x = _
  unfold StateT.bind
  show ExceptT.bindCont f (r x).1 (r x).2 = _
  match r x with
  | (.ok a, y) => rfl
  | (.error h, y) => rfl

theorem pure_apply (a : α) (x : σ × List UInt8) : (pure a : ByteReader σ α) x = (.ok a, x) := rfl

def halt (h : Halt) : ByteReader σ α := fun x => (.error h, x)

def next : ByteReader σ UInt8
  | (s, []) => (.error .more, s, [])
  | (s, b :: d) => (.ok b, s, d)

/-- The next `n` bytes, or all there are, go into the `σ`. -/
def takeInto (put : List UInt8 → σ → σ) (n : Nat) : ByteReader σ Unit
  | (s, d) =>
    if n ≤ d.length then (.ok (), put (d.take n) s, d.drop n) else (.error .more, put d s, [])

def skip (n : Nat) : ByteReader σ Unit := takeInto (fun _ s => s) n

def update (f : σ → σ) : ByteReader σ Unit := fun x => (.ok (), f x.1, x.2)

def check (p : σ → Bool) : ByteReader σ Unit := fun x =>
  if p x.1 then (.ok (), x) else (.error .stop, x)

/-! ## Readers that may be given the stream piece by piece -/

structure Steady (r : ByteReader σ α) : Prop where
  shorter : ∀ s d, (r (s, d)).2.2.length ≤ d.length
  append : ∀ s d e, (r (s, d)).1 ≠ .error .more →
    r (s, d ++ e) = ((r (s, d)).1, (r (s, d)).2.1, (r (s, d)).2.2 ++ e)

/-- A reader that does not halt has taken a byte. -/
def Advances (r : ByteReader σ α) : Prop :=
  ∀ s d a, (r (s, d)).1 = .ok a → (r (s, d)).2.2.length < d.length

section Steady

variable {r : ByteReader σ α} {f : α → ByteReader σ β}

theorem steady_pure (a : α) : Steady (pure a : ByteReader σ α) :=
  ⟨fun _ _ => Nat.le_refl _, fun _ _ _ _ => rfl⟩

theorem steady_halt (h : Halt) : Steady (halt h : ByteReader σ α) :=
  ⟨fun _ _ => Nat.le_refl _, fun _ _ _ _ => rfl⟩

theorem steady_update (f : σ → σ) : Steady (update f) :=
  ⟨fun _ _ => Nat.le_refl _, fun _ _ _ _ => rfl⟩

theorem steady_check (p : σ → Bool) : Steady (check p) := by
  constructor
  · intro s d
    unfold check
    split <;> exact Nat.le_refl _
  · intro s d e _
    by_cases hp : p s = true
    · simp only [check, hp, if_true]
    · simp only [check, hp, if_false, Bool.false_eq_true]

theorem steady_next : Steady (next : ByteReader σ UInt8) := by
  constructor
  · intro s d
    cases d with
    | nil => exact Nat.le_refl _
    | cons b d => exact Nat.le_succ _
  · intro s d e hmore
    cases d with
    | nil => exact absurd rfl hmore
    | cons b d => rfl

theorem steady_takeInto (put : List UInt8 → σ → σ) (n : Nat) : Steady (takeInto put n) := by
  constructor
  · intro s d
    simp only [takeInto]
    split
    · simp
    · exact Nat.zero_le _
  · intro s d e hmore
    by_cases hle : n ≤ d.length
    · have hlong : n ≤ (d ++ e).length := by
        rw [List.length_append]
        omega
      simp only [takeInto, hle, hlong, if_true, List.take_append_of_le_length hle,
        List.drop_append_of_le_length hle]
    · simp only [takeInto, hle, if_false] at hmore
      exact absurd rfl hmore

theorem Steady.bind (hr : Steady r) (hf : ∀ a, Steady (f a)) : Steady (r >>= f) := by
  constructor
  · intro s d
    have hle := hr.shorter s d
    rw [bind_apply]
    match hrun : r (s, d) with
    | (.ok a, s', d') =>
      rw [hrun] at hle
      exact Nat.le_trans ((hf a).shorter s' d') hle
    | (.error h, s', d') =>
      rw [hrun] at hle
      exact hle
  · intro s d e hmore
    have happend := hr.append s d e
    rw [bind_apply] at hmore ⊢
    rw [bind_apply]
    match hrun : r (s, d) with
    | (.ok a, s', d') =>
      rw [hrun] at happend hmore
      rw [happend (by simp)]
      exact (hf a).append s' d' e hmore
    | (.error h, s', d') =>
      rw [hrun] at happend hmore
      have hhalt : h ≠ .more := by
        rintro rfl
        exact hmore rfl
      rw [happend (by simpa using hhalt)]

theorem advances_next : Advances (next : ByteReader σ UInt8) := by
  intro s d b hb
  cases d with
  | nil => cases hb
  | cons b d => exact Nat.lt_succ_self _

theorem Advances.bind (hr : Advances r) (hf : ∀ a, Steady (f a)) : Advances (r >>= f) := by
  intro s d b hb
  rw [bind_apply] at hb ⊢
  match hrun : r (s, d) with
  | (.ok a, s', d') =>
    have hlt := hr s d a (by rw [hrun])
    rw [hrun] at hlt
    exact Nat.lt_of_le_of_lt ((hf a).shorter s' d') hlt
  | (.error h, s', d') =>
    rw [hrun] at hb
    cases hb

/-- It is enough that the second of two readers takes a byte. -/
theorem Advances.after (hr : Steady r) (hf : ∀ a, Advances (f a)) : Advances (r >>= f) := by
  intro s d b hb
  rw [bind_apply] at hb ⊢
  have hle := hr.shorter s d
  match hrun : r (s, d) with
  | (.ok a, s', d') =>
    rw [hrun] at hb hle
    exact Nat.lt_of_lt_of_le (hf a s' d' b hb) hle
  | (.error h, s', d') =>
    rw [hrun] at hb
    cases hb

end Steady

/-! ## Loops -/

/-- `body` again and again, until it gives something. -/
def loop (body : ByteReader σ (Option α)) : Nat → ByteReader σ α
  | 0 => halt .stop
  | fuel + 1 => do
    match ← body with
    | some a => pure a
    | none => loop body fuel

/-- A body that takes a byte each time goes round no more often than there are bytes. -/
def untilSome (body : ByteReader σ (Option α)) : ByteReader σ α := fun x =>
  loop body (x.2.length + 1) x

section Loop

variable {body : ByteReader σ (Option α)} {n k : Nat}

theorem loop_fuel (hbody : Advances body) {s : σ} {d : List UInt8} (hn : d.length < n)
    (hk : d.length < k) : loop body n (s, d) = loop body k (s, d) := by
  induction n generalizing k s d with
  | zero => exact absurd hn (Nat.not_lt_zero _)
  | succ n ih =>
    obtain ⟨k, rfl⟩ : ∃ j, k = j + 1 := ⟨k - 1, by omega⟩
    simp only [loop]
    rw [bind_apply, bind_apply]
    match hrun : body (s, d) with
    | (.ok (some a), s', d') => rfl
    | (.ok none, s', d') =>
      have hlt := hbody s d none (by rw [hrun])
      rw [hrun] at hlt
      exact ih (Nat.lt_of_lt_of_le hlt (Nat.le_of_lt_succ hn))
        (Nat.lt_of_lt_of_le hlt (Nat.le_of_lt_succ hk))
    | (.error h, s', d') => rfl

theorem untilSome_eq (hbody : Advances body) (s : σ) (d : List UInt8) :
    untilSome body (s, d) = match body (s, d) with
      | (.ok (some a), y) => (.ok a, y)
      | (.ok none, y) => untilSome body y
      | (.error h, y) => (.error h, y) := by
  simp only [untilSome, loop]
  rw [bind_apply]
  match hrun : body (s, d) with
  | (.ok (some a), s', d') => rfl
  | (.ok none, s', d') =>
    have hlt := hbody s d none (by rw [hrun])
    rw [hrun] at hlt
    exact loop_fuel hbody hlt (Nat.lt_succ_self _)
  | (.error h, s', d') => rfl

theorem steady_untilSome (hsteady : Steady body) (hbody : Advances body) :
    Steady (untilSome body) := by
  -- both by induction on the number of bytes that are left
  constructor
  · intro s d
    induction hlen : d.length using Nat.strongRecOn generalizing s d with
    | ind n ih =>
      have hle := hsteady.shorter s d
      rw [untilSome_eq hbody]
      match hrun : body (s, d) with
      | (.ok (some a), s', d') =>
        rw [hrun] at hle
        exact hlen ▸ hle
      | (.ok none, s', d') =>
        have hlt := hbody s d none (by rw [hrun])
        rw [hrun, hlen] at hlt
        exact Nat.le_trans (ih _ hlt s' d' rfl) (Nat.le_of_lt hlt)
      | (.error h, s', d') =>
        rw [hrun] at hle
        exact hlen ▸ hle
  · intro s d e
    induction hlen : d.length using Nat.strongRecOn generalizing s d with
    | ind n ih =>
      have happend := hsteady.append s d e
      rw [untilSome_eq hbody, untilSome_eq hbody]
      match hrun : body (s, d) with
      | (.ok (some a), s', d') =>
        intro _
        rw [hrun] at happend
        rw [happend (by simp)]
      | (.ok none, s', d') =>
        intro hmore
        have hlt := hbody s d none (by rw [hrun])
        rw [hrun, hlen] at hlt
        rw [hrun] at happend
        rw [happend (by simp)]
        exact ih _ hlt s' d' rfl hmore
      | (.error h, s', d') =>
        intro hmore
        have hhalt : h ≠ .more := by
          rintro rfl
          exact hmore rfl
        rw [hrun] at happend
        rw [happend (by simpa using hhalt)]

end Loop

/-! ## Numbers in base 128 -/

/-- The digits of `x`, least significant first; all bytes but the last have their high
    bit set. -/
def varintBytes (x : Nat) : List UInt8 :=
  if x < 128 then [UInt8.ofNat x] else UInt8.ofNat (x % 128 + 128) :: varintBytes (x / 128)

/-- A number of at most `k` digits. -/
def varint : Nat → ByteReader σ Nat
  | 0 => halt .stop
  | k + 1 => do
    let b ← next
    if b.toNat < 128 then pure b.toNat
    else do
      let x ← varint k
      pure (b.toNat - 128 + 128 * x)

section Varint

variable {k x : Nat}

theorem length_varintBytes (h : x < 128 ^ (k + 1)) : (varintBytes x).length ≤ k + 1 := by
  induction k generalizing x with
  | zero =>
    rw [varintBytes, if_pos (by simpa using h)]
    exact Nat.le_refl _
  | succ k ih =>
    rw [varintBytes]
    split
    · simp
    · have hdiv : x / 128 < 128 ^ (k + 1) := by
        rw [Nat.div_lt_iff_lt_mul (by decide), ← Nat.pow_succ]
        exact h
      rw [List.length_cons]
      exact Nat.succ_le_succ (ih hdiv)

/-- Reading a number back takes its digits and nothing else. -/
theorem varint_varintBytes (h : x < 128 ^ (k + 1)) (s : σ) (d : List UInt8) :
    varint (k + 1) (s, varintBytes x ++ d) = (.ok x, s, d) := by
  induction k generalizing x with
  | zero =>
    have hx : x < 128 := by simpa using h
    have hbyte : (UInt8.ofNat x).toNat = x := by
      rw [UInt8.toNat_ofNat', Nat.mod_eq_of_lt (by omega)]
    rw [varintBytes, if_pos hx, varint, bind_apply]
    simp only [List.singleton_append, next, hbyte, hx, if_true, pure_apply]
  | succ k ih =>
    rw [varintBytes]
    split
    · rename_i hx
      have hbyte : (UInt8.ofNat x).toNat = x := by
        rw [UInt8.toNat_ofNat', Nat.mod_eq_of_lt (by omega)]
      rw [varint, bind_apply]
      simp only [List.singleton_append, next, hbyte, hx, if_true, pure_apply]
    · have hdiv : x / 128 < 128 ^ (k + 1) := by
        rw [Nat.div_lt_iff_lt_mul (by decide), ← Nat.pow_succ]
        exact h
      have hbyte : (UInt8.ofNat (x % 128 + 128)).toNat = x % 128 + 128 := by
        rw [UInt8.toNat_ofNat', Nat.mod_eq_of_lt (by omega)]
      have hhigh : ¬ x % 128 + 128 < 128 := by omega
      rw [varint, bind_apply]
      simp only [List.cons_append, next, hbyte, hhigh, if_false, bind_apply, ih hdiv, pure_apply]
      have hsum : x % 128 + 128 - 128 + 128 * (x / 128) = x := by omega
      rw [hsum]

theorem steady_varint (k : Nat) : Steady (varint k : ByteReader σ Nat) := by
  induction k with
  | zero => exact steady_halt _
  | succ k ih =>
    apply steady_next.bind
    intro b
    split
    · exact steady_pure _
    · exact ih.bind fun _ => steady_pure _

theorem advances_varint (k : Nat) : Advances (varint k : ByteReader σ Nat) := by
  cases k with
  | zero =>
    intro s d a ha
    cases ha
  | succ k =>
    apply advances_next.bind
    intro b
    split
    · exact steady_pure _
    · exact (steady_varint k).bind fun _ => steady_pure _

end Varint

end ByteReader
