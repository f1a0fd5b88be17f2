import Mathlib.Data.List.DropRight
import Netpp.Lib.Program

/-! # Machines that take one action after the other

A `Machine` has states `σ`, a store `μ` and actions `α`.  Which actions are
possible in a state is `Enabled`; `exec` says what an action does, which may be to
stop with a fault.  `Machine.Run` are the runs whose steps all meet a condition
`P`, which may look at the actions taken before; `Machine.Stretch` is what can follow
from a state on.
-/

structure Machine (ρ μ ε σ α : Type) where
  Init : σ → μ → Prop
  Enabled : σ → μ → α → Prop
  exec : σ → α → Prog ρ μ ε σ

namespace Machine

variable {ρ μ ε σ α : Type} {M : Machine ρ μ ε σ α} {r : ρ}
  {P Q : List α → σ → μ → α → Prop} {as : List α} {s : σ} {m : μ}

/-- A run in environment `r` that took the actions `as`, in this order. -/
inductive Run (M : Machine ρ μ ε σ α) (r : ρ) (P : List α → σ → μ → α → Prop) :
    List α → σ → μ → Prop
  | start {s : σ} {m : μ} (init : M.Init s m) : Run M r P [] s m
  | step {as : List α} {s s' : σ} {m m' : μ} (a : α) (before : Run M r P as s m)
      (enabled : M.Enabled s m a) (condition : P as s m a) (done : M.exec s a r m = .ok (s', m')) :
      Run M r P (as ++ [a]) s' m'

/-- A run under a condition is one under every weaker condition. -/
theorem Run.imp (h : Run M r P as s m) (hpq : ∀ as s m a, P as s m a → Q as s m a) :
    Run M r Q as s m := by
  induction h with
  | start init => exact .start init
  | step a _ enabled condition done ih => exact .step a ih enabled (hpq _ _ _ _ condition) done

/-- What holds initially and is kept by every step holds in every run; it may speak of the
    actions taken. -/
theorem Run.history {I : List α → σ → μ → Prop} (h : Run M r P as s m)
    (init : ∀ s m, M.Init s m → I [] s m)
    (step : ∀ as s m a s' m', Run M r P as s m → I as s m → M.Enabled s m a → P as s m a →
      M.exec s a r m = .ok (s', m') → I (as ++ [a]) s' m') : I as s m := by
  induction h with
  | start hinit => exact init _ _ hinit
  | step a before enabled condition done ih =>
    exact step _ _ _ a _ _ before ih enabled condition done

theorem Run.invariant {I : σ → μ → Prop} (h : Run M r P as s m)
    (init : ∀ s m, M.Init s m → I s m)
    (step : ∀ as s m a s' m', Run M r P as s m → I s m → M.Enabled s m a → P as s m a →
      M.exec s a r m = .ok (s', m') → I s' m') : I s m :=
  h.history (I := fun _ s m => I s m) init step

/-! ## Leaving out repetitions -/

/-- The list without the elements that satisfy `p`, except the first of these. -/
def onlyFirst (p : α → Bool) : List α → List α
  | [] => []
  | a :: as => if p a then a :: as.filter fun b => !p b else a :: onlyFirst p as

theorem onlyFirst_append_repeated {p : α → Bool} {a : α} (ha : p a = true) :
    ∀ {as : List α}, (∃ b ∈ as, p b = true) → onlyFirst p (as ++ [a]) = onlyFirst p as
  | [], ⟨b, hb, _⟩ => absurd hb List.not_mem_nil
  | c :: as, ⟨b, hb, hpb⟩ => by
    cases hc : p c with
    | true => simp [onlyFirst, hc, ha]
    | false =>
      have hin : b ∈ as := (List.mem_cons.mp hb).resolve_left fun hbc => by
        rw [hbc, hc] at hpb
        cases hpb
      simp [onlyFirst, hc, onlyFirst_append_repeated ha ⟨b, hin, hpb⟩]

theorem onlyFirst_append {p : α → Bool} {a : α} :
    ∀ {as : List α}, ¬ (p a = true ∧ ∃ b ∈ as, p b = true) →
      onlyFirst p (as ++ [a]) = onlyFirst p as ++ [a]
  | [], _ => by
    cases ha : p a <;> simp [onlyFirst, ha]
  | c :: as, hnew => by
    cases hc : p c with
    | true =>
      have ha : p a = false := by
        cases ha : p a with
        | true => exact absurd ⟨ha, c, List.mem_cons_self, hc⟩ hnew
        | false => rfl
      simp [onlyFirst, hc, ha]
    | false =>
      have hrest : ¬ (p a = true ∧ ∃ b ∈ as, p b = true) := fun ⟨ha, b, hb, hpb⟩ =>
        hnew ⟨ha, b, List.mem_cons_of_mem c hb, hpb⟩
      simp [onlyFirst, hc, onlyFirst_append hrest]

/-- If an action changes nothing when it is repeated, the run without the repetitions
    goes through the same states. -/
theorem Run.onlyFirst {p : α → Bool} (h : Run M r P as s m)
    (repeated : ∀ as s m a s' m', Run M r P as s m → P as s m a → p a = true →
      (∃ b ∈ as, p b = true) → M.exec s a r m = .ok (s', m') → s' = s ∧ m' = m) :
    Run M r (fun _ _ _ _ => True) (Machine.onlyFirst p as) s m := by
  induction h with
  | start init => exact .start init
  | @step as s s' m m' a before enabled condition done ih =>
    by_cases hagain : p a = true ∧ ∃ b ∈ as, p b = true
    · obtain ⟨hs, hm⟩ := repeated as s m a s' m' before condition hagain.1 hagain.2 done
      rw [onlyFirst_append_repeated hagain.1 hagain.2, hs, hm]
      exact ih
    · rw [onlyFirst_append hagain]
      exact ih.step a enabled trivial done

/-! ## Since an action -/

/-- What comes behind the last element that satisfies `p`. -/
def since (p : α → Bool) (as : List α) : List α := as.rtakeWhile fun a => !p a

theorem exists_mem_since_append {p : α → Bool} {q : α → Prop} {a : α} {as : List α} :
    (∃ b ∈ since p (as ++ [a]), q b) ↔ p a = false ∧ ((∃ b ∈ since p as, q b) ∨ q a) := by
  unfold since
  cases ha : p a with
  | true => simp [ha]
  | false => simp [ha, or_and_right, exists_or]

/-! ## Going on -/

/-- What follows from state `s`, by steps that all meet the condition `C`. -/
inductive Stretch (M : Machine ρ μ ε σ α) (r : ρ) (C : σ → μ → α → Prop) (s : σ) (m : μ) :
    σ → μ → Prop
  | nil : Stretch M r C s m s m
  | step {s' s'' : σ} {m' m'' : μ} (a : α) (before : Stretch M r C s m s' m')
      (enabled : M.Enabled s' m' a) (condition : C s' m' a) (done : M.exec s' a r m' = .ok (s'', m'')) :
      Stretch M r C s m s'' m''

/-- What every step of a stretch keeps holds at its end if it holds at its beginning. -/
theorem Stretch.invariant {C : σ → μ → α → Prop} {I : σ → μ → Prop} {s' : σ} {m' : μ}
    (h : Stretch M r C s m s' m') (init : I s m)
    (step : ∀ s m a s' m', I s m → M.Enabled s m a → C s m a → M.exec s a r m = .ok (s', m') → I s' m') :
    I s' m' := by
  induction h with
  | nil => exact init
  | step a _ enabled condition done ih => exact step _ _ a _ _ ih enabled condition done

/-- A stretch goes on with a run, if its condition is at least that of the run. -/
theorem Stretch.run {C : σ → μ → α → Prop} {s' : σ} {m' : μ} (h : Stretch M r C s m s' m')
    (before : Run M r P as s m) (hcp : ∀ as s m a, C s m a → P as s m a) :
    ∃ as', Run M r P as' s' m' := by
  induction h with
  | nil => exact ⟨as, before⟩
  | step a _ enabled condition done ih =>
    obtain ⟨as', hrun⟩ := ih
    exact ⟨as' ++ [a], hrun.step a enabled (hcp _ _ _ _ condition) done⟩

end Machine
