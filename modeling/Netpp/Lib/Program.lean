import Mathlib.Tactic.Common

/-! # Total correctness for stateful programs that may fault

`Prog ρ σ ε α` is a program that reads an environment `ρ`, changes a state `σ`
and either returns an `α` or stops with a fault `ε`.  `Prog.wp` is its weakest
precondition for *total* correctness: the program returns, without a fault, and
the result satisfies the postcondition.  `Prog.wlp` is the *liberal* one, for
partial correctness: if the program returns, the result satisfies the
postcondition.  The rules below let a proof about a `do` block follow the block
statement by statement.
-/

abbrev Prog (ρ σ ε α : Type) : Type := ReaderT ρ (StateT σ (Except ε)) α

namespace Prog

variable {ρ σ ε α β : Type}

/-- From environment `r` and state `s` the program returns, and `Q` holds of the
    value and of the final state. -/
def wp (m : Prog ρ σ ε α) (r : ρ) (s : σ) (Q : α → σ → Prop) : Prop :=
  ∃ a s', m r s = .ok (a, s') ∧ Q a s'

theorem wp_of_eq_ok {m : Prog ρ σ ε α} {r : ρ} {s s' : σ} {a : α} {Q : α → σ → Prop}
    (h : m r s = .ok (a, s')) : wp m r s Q ↔ Q a s' := by
  constructor
  · rintro ⟨b, t, hb, hq⟩
    cases h.symm.trans hb
    exact hq
  · exact fun hq => ⟨a, s', h, hq⟩

theorem wp_congr {m m' : Prog ρ σ ε α} {r : ρ} {s s' : σ} {Q : α → σ → Prop}
    (h : m r s = m' r s') : wp m r s Q ↔ wp m' r s' Q := by
  rw [wp, wp, h]

@[simp] theorem wp_pure (a : α) (r : ρ) (s : σ) (Q : α → σ → Prop) :
    wp (pure a : Prog ρ σ ε α) r s Q ↔ Q a s := wp_of_eq_ok rfl

theorem bind_apply (m : Prog ρ σ ε α) (f : α → Prog ρ σ ε β) (r : ρ) (s : σ) :
    (m >>= f) r s = (match m r s with
      | .ok (a, s') => f a r s'
      | .error e => .error e) := by
  show (ReaderT.bind m f) r s = _
  unfold ReaderT.bind
  show (StateT.bind (m r) fun a => f a r) s = _
  unfold StateT.bind
  show Except.bind (m r s) _ = _
  cases m r s with
  | error e => rfl
  | ok p => rfl

theorem bind_of_ok {m : Prog ρ σ ε α} {f : α → Prog ρ σ ε β} {r : ρ} {s s' : σ} {a : α}
    (h : m r s = .ok (a, s')) : (m >>= f) r s = f a r s' := by
  rw [bind_apply, h]

@[simp] theorem wp_bind (m : Prog ρ σ ε α) (f : α → Prog ρ σ ε β) (r : ρ) (s : σ)
    (Q : β → σ → Prop) :
    wp (m >>= f) r s Q ↔ wp m r s (fun a s' => wp (f a) r s' Q) := by
  unfold wp
  rw [bind_apply]
  cases h : m r s with
  | error e => simp
  | ok p =>
    obtain ⟨a, s'⟩ := p
    simp

@[simp] theorem wp_throw (e : ε) (r : ρ) (s : σ) (Q : α → σ → Prop) :
    ¬ wp (throw e : Prog ρ σ ε α) r s Q := by
  rintro ⟨a, s', h, _⟩
  cases h

/-- The rule of consequence. -/
theorem wp.imp {m : Prog ρ σ ε α} {r : ρ} {s : σ} {P Q : α → σ → Prop}
    (h : wp m r s P) (hpq : ∀ a s', P a s' → Q a s') : wp m r s Q := by
  obtain ⟨a, s', hm, hp⟩ := h
  exact ⟨a, s', hm, hpq a s' hp⟩

/-- A program has one outcome, so two facts about it are facts about the same
    outcome. -/
theorem wp.and {m : Prog ρ σ ε α} {r : ρ} {s : σ} {P Q : α → σ → Prop}
    (hp : wp m r s P) (hq : wp m r s Q) : wp m r s fun a s' => P a s' ∧ Q a s' := by
  obtain ⟨a, s', hm, ha⟩ := hp
  exact ⟨a, s', hm, ha, (wp_of_eq_ok hm).mp hq⟩

/-- The rule of sequence, in the form a proof applies to the first statement of
    a block. -/
theorem wp.bind {m : Prog ρ σ ε α} {f : α → Prog ρ σ ε β} {r : ρ} {s : σ}
    {P : α → σ → Prop} {Q : β → σ → Prop} (h : wp m r s P)
    (hf : ∀ a s', P a s' → wp (f a) r s' Q) : wp (m >>= f) r s Q :=
  (wp_bind m f r s Q).mpr (h.imp hf)

/-! ## Partial correctness -/

/-- If the program returns from environment `r` and state `s`, `Q` holds of the
    value and of the final state. -/
def wlp (m : Prog ρ σ ε α) (r : ρ) (s : σ) (Q : α → σ → Prop) : Prop :=
  ∀ a s', m r s = .ok (a, s') → Q a s'

theorem wlp_of_eq_ok {m : Prog ρ σ ε α} {r : ρ} {s s' : σ} {a : α} {Q : α → σ → Prop}
    (h : m r s = .ok (a, s')) : wlp m r s Q ↔ Q a s' := by
  constructor
  · exact fun hq => hq a s' h
  · intro hq b t hb
    cases h.symm.trans hb
    exact hq

@[simp] theorem wlp_pure (a : α) (r : ρ) (s : σ) (Q : α → σ → Prop) :
    wlp (pure a : Prog ρ σ ε α) r s Q ↔ Q a s := by
  constructor
  · exact fun h => h a s rfl
  · intro h b t hb
    cases hb
    exact h

@[simp] theorem wlp_bind (m : Prog ρ σ ε α) (f : α → Prog ρ σ ε β) (r : ρ) (s : σ)
    (Q : β → σ → Prop) :
    wlp (m >>= f) r s Q ↔ wlp m r s (fun a s' => wlp (f a) r s' Q) := by
  unfold wlp
  rw [bind_apply]
  cases h : m r s with
  | error e => simp
  | ok p =>
    obtain ⟨a, s'⟩ := p
    simp

@[simp] theorem wlp_throw (e : ε) (r : ρ) (s : σ) (Q : α → σ → Prop) :
    wlp (throw e : Prog ρ σ ε α) r s Q := by
  intro a s' h
  cases h

theorem wlp.imp {m : Prog ρ σ ε α} {r : ρ} {s : σ} {P Q : α → σ → Prop}
    (h : wlp m r s P) (hpq : ∀ a s', P a s' → Q a s') : wlp m r s Q :=
  fun a s' hm => hpq a s' (h a s' hm)

theorem wp.wlp {m : Prog ρ σ ε α} {r : ρ} {s : σ} {Q : α → σ → Prop} (h : wp m r s Q) :
    wlp m r s Q := fun _ _ hm => (wp_of_eq_ok hm).mp h

theorem wp.and_wlp {m : Prog ρ σ ε α} {r : ρ} {s : σ} {P Q : α → σ → Prop}
    (hp : wp m r s P) (hq : Prog.wlp m r s Q) : wp m r s fun a s' => P a s' ∧ Q a s' := by
  obtain ⟨a, s', hm, ha⟩ := hp
  exact ⟨a, s', hm, ha, hq a s' hm⟩

/-! ## Faults of another kind -/

variable {ε' : Type}

/-- The same program, its faults renamed by `f`. -/
def mapFault (f : ε → ε') (m : Prog ρ σ ε α) : Prog ρ σ ε' α := fun r s =>
  match m r s with
  | .ok p => .ok p
  | .error e => .error (f e)

@[simp] theorem mapFault_eq_ok {f : ε → ε'} {m : Prog ρ σ ε α} {r : ρ} {s : σ} {p : α × σ} :
    mapFault f m r s = .ok p ↔ m r s = .ok p := by
  unfold mapFault
  cases m r s <;> simp

@[simp] theorem wlp_mapFault (f : ε → ε') (m : Prog ρ σ ε α) (r : ρ) (s : σ) (Q : α → σ → Prop) :
    wlp (mapFault f m) r s Q ↔ wlp m r s Q := by
  simp only [wlp, mapFault_eq_ok]

@[simp] theorem wp_mapFault (f : ε → ε') (m : Prog ρ σ ε α) (r : ρ) (s : σ) (Q : α → σ → Prop) :
    wp (mapFault f m) r s Q ↔ wp m r s Q := by
  simp only [wp, mapFault_eq_ok]

@[simp] theorem mapFault_pure (f : ε → ε') (a : α) :
    mapFault f (pure a : Prog ρ σ ε α) = pure a := rfl

@[simp] theorem mapFault_bind (f : ε → ε') (m : Prog ρ σ ε α) (g : α → Prog ρ σ ε β) :
    mapFault f (m >>= g) = mapFault f m >>= fun a => mapFault f (g a) := by
  funext r s
  rw [bind_apply]
  simp only [mapFault, bind_apply]
  cases m r s with
  | error e => rfl
  | ok p => rfl

/-! ## Two stores -/

section Stores

variable {τ : Type}

/-- The program on the first of two stores. -/
def onFst (m : Prog ρ σ ε α) : Prog ρ (σ × τ) ε α := fun r s =>
  match m r s.1 with
  | .ok (a, s₁) => .ok (a, (s₁, s.2))
  | .error e => .error e

/-- The program on the second of two stores. -/
def onSnd (m : Prog ρ τ ε α) : Prog ρ (σ × τ) ε α := fun r s =>
  match m r s.2 with
  | .ok (a, s₂) => .ok (a, (s.1, s₂))
  | .error e => .error e

@[simp] theorem wlp_onFst (m : Prog ρ σ ε α) (r : ρ) (s : σ × τ) (Q : α → σ × τ → Prop) :
    wlp (onFst m) r s Q ↔ wlp m r s.1 fun a s₁ => Q a (s₁, s.2) := by
  unfold wlp onFst
  cases m r s.1 with
  | error e => simp
  | ok p =>
    obtain ⟨a, s₁⟩ := p
    simp

@[simp] theorem wlp_onSnd (m : Prog ρ τ ε α) (r : ρ) (s : σ × τ) (Q : α → σ × τ → Prop) :
    wlp (onSnd m) r s Q ↔ wlp m r s.2 fun a s₂ => Q a (s.1, s₂) := by
  unfold wlp onSnd
  cases m r s.2 with
  | error e => simp
  | ok p =>
    obtain ⟨a, s₂⟩ := p
    simp

end Stores

/-- The program does not stop with the fault `e`. -/
def Avoids (e : ε) (m : Prog ρ σ ε α) (r : ρ) (s : σ) : Prop := m r s ≠ .error e

theorem avoids_pure (e : ε) (a : α) (r : ρ) (s : σ) : Avoids e (pure a : Prog ρ σ ε α) r s := by
  intro h
  cases h

theorem avoids_mapFault {f : ε → ε'} {e' : ε'} (hf : ∀ e, f e ≠ e') (m : Prog ρ σ ε α) (r : ρ)
    (s : σ) : Avoids e' (mapFault f m) r s := by
  intro h
  unfold mapFault at h
  cases hm : m r s with
  | ok p => simp [hm] at h
  | error e =>
    rw [hm] at h
    exact hf e (Except.error.inj h)

/-- A block avoids a fault if its first statement does and, wherever that ends,
    the rest does. -/
theorem avoids_bind {e : ε} {m : Prog ρ σ ε α} {f : α → Prog ρ σ ε β} {r : ρ} {s : σ}
    (hm : Avoids e m r s) (hf : wlp m r s fun a s' => Avoids e (f a) r s') :
    Avoids e (m >>= f) r s := by
  intro h
  rw [bind_apply] at h
  cases hrun : m r s with
  | error e' =>
    rw [hrun] at h
    obtain rfl := Except.error.inj h
    exact hm hrun
  | ok p =>
    obtain ⟨a, s'⟩ := p
    rw [hrun] at h
    exact hf a s' hrun h

end Prog
