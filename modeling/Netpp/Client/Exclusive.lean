import Netpp.Client.Tracking

/-! # One connection at a time

`connect` is refused while an `async_connect` is outstanding or `conn_` is connected.  A
connection is live for longer: from `connectEstablished`, before `conn_` is set, until
`close_cb_`, when it has been disconnecting for a while.

* `Exclusive`: the invariant, if `connect` starts nothing while a connection is live.
* `one_live_connection`: there is one live connection at most, and it is `conn_` that
  is removed.
-/

namespace Netpp

open Function (update)

namespace TCPClient

variable {n : Nat} {build : Build} {m m' : Mem} {s s' t : TCPClient n} {a : ClientAction n}
  {as : List (ClientAction n)} {throws : Bool}

/-! ## The invariant -/

/-- A connection that is live is just being reported closed. -/
def Departing (s : TCPClient n) : Prop :=
  ∀ c, (s.world.life c).Live → (s.world.life c).pc = .notified

/-- `connect` gets past its guard only if no connection is live, or the one that is calls
    `connection_cb_` for the last time; and no exception leaves a `handleClose`. -/
def ConnectsAlone (_ : List (ClientAction n)) (s : TCPClient n) (_ : Mem) : ClientAction n → Prop
  | .connectHere _ | .runConnect _ | .reconnect _ => s.refuses = true ∨ s.Departing
  | .conn _ throws => throws = false
  | _ => True

structure Exclusive (s : TCPClient n) : Prop where
  live : ∀ c, (s.world.life c).Live → s.conn = some c ∨ s.pc = .establishing c
  window : ∀ c, s.pc = .establishing c → s.conn = none
  waiting : s.attempts ≠ [] → s.Departing
  unwound : s.unwound = []

theorem Exclusive.connects (h : Exclusive s) (hconnects : Connects s throws t)
    (halone : s.refuses = true ∨ s.Departing) : Exclusive t := by
  cases hconnects with
  | refused _ _ => exact h
  | threw _ _ => exact ⟨h.live, h.window, h.waiting, h.unwound⟩
  | started _ hnot _ =>
    have hdeparting : s.Departing := halone.resolve_left (by simp [hnot])
    exact ⟨h.live, h.window, fun _ => hdeparting, h.unwound⟩

theorem Exclusive.world (h : Exclusive s) (htracked : Tracked s) {b : Action n} {w : World n}
    (enabled : s.world.Enabled m b) (allowed : s.ConnAllowed b)
    (stays : ∀ c, b = .resume c → (s.world.life c).pc ≠ .notified)
    (done : s.world.exec b build m = .ok (w, m')) : Exclusive { s with world := w } := by
  have hlive : ∀ c, (w.life c).Live ↔ (s.world.life c).Live := fun c =>
    htracked.followed.live enabled done (fun hb => by subst hb; exact allowed) (stays c)
  refine ⟨fun c hc => h.live c ((hlive c).mp hc), h.window, fun hne c hc => ?_, h.unwound⟩
  have hpc := h.waiting hne c ((hlive c).mp hc)
  rw [← hpc]
  exact exec_pc_busy enabled done (by rw [hpc]; decide) fun hb => stays c hb hpc

theorem Exclusive.notified (h : Exclusive s) (htracked : Tracked s) {c : Fin n}
    (pc : (s.world.life c).pc = .notified) :
    s.conn = some c ∧ ∀ d, (s.world.life d).Live → d = c := by
  have hstage : Stage (s.world.life c) := (htracked.followed.lives c (by simp [h.unwound])).1
  have hlive : (s.world.life c).Live := by
    refine ⟨htracked.followed.established (by rw [pc]; decide), fun hclose => ?_⟩
    have hended := (hstage.of_close hclose).2
    simp [pc] at hended
  have hconn : s.conn = some c := (h.live c hlive).resolve_right fun hpc =>
    (htracked.establishing c hpc).2.2.not_notified pc
  refine ⟨hconn, fun d hd => ?_⟩
  cases h.live d hd with
  | inl hother => exact Option.some.inj (hother.symm.trans hconn)
  | inr hpc => cases hconn.symm.trans (h.window d hpc)

theorem Exclusive.removed (h : Exclusive s) (htracked : Tracked s) {c : Fin n} {w : World n}
    (pc : (s.world.life c).pc = .notified) (done : s.world.exec (.resume c) build m = .ok (w, m')) :
    Exclusive { s with world := w, conn := none } ∧ Departing { s with world := w, conn := none } := by
  have hnone : ∀ d, ¬ (w.life d).Live := fun d hd => by
    by_cases hdc : d = c
    · subst hdc
      rw [exec_resume_notified done pc] at hd
      exact hd.2 (by simp [TCPConn.notifyClosed])
    · rw [exec_others done fun hconn => hdc (Option.some.inj hconn).symm] at hd
      exact hdc ((h.notified htracked pc).2 d hd)
  exact ⟨⟨fun d hd => absurd hd (hnone d), fun _ _ => rfl, fun _ d hd => absurd hd (hnone d), h.unwound⟩,
    fun d hd => absurd hd (hnone d)⟩

/-- Between two tasks of the loop, nothing is live while an `async_connect` is
    outstanding. -/
theorem Exclusive.none_live (h : Exclusive s) (idle : s.Idle) (hne : s.attempts ≠ []) (c : Fin n) :
    ¬ (s.world.life c).Live := by
  intro hc
  have hpc := h.waiting hne c hc
  rw [idle.2 c] at hpc
  cases hpc

theorem Exclusive.step (h : Exclusive s) (htracked : Tracked s) (condition : ConnectsAlone as s m a)
    (hstep : ClientStep build m s a s' m') : Exclusive s' := by
  cases hstep with
  | connectHere throws _ _ _ hconnects => exact h.connects hconnects condition
  | runConnect throws _ _ _ _ hconnects =>
    have hsame : Exclusive { s with connects := s.connects - 1 } := ⟨h.live, h.window, h.waiting, h.unwound⟩
    exact hsame.connects hconnects condition
  | reconnect throws _ _ _ _ hconnects =>
    have hsame : Exclusive { s with timers := s.timers - 1 } := ⟨h.live, h.window, h.waiting, h.unwound⟩
    exact hsame.connects hconnects condition
  | disconnect c w _ hconn done =>
    have enabled : s.world.Enabled m (.close c) :=
      ⟨(htracked.conn c hconn).1, by intro hfalse; cases hfalse⟩
    have hworld := h.world htracked enabled trivial (fun d hd => by cases hd) done
    exact ⟨hworld.live, hworld.window, hworld.waiting, hworld.unwound⟩
  | connectDone op result hop _ =>
    exact ⟨h.live, h.window, fun _ => h.waiting (List.ne_nil_of_mem hop), h.unwound⟩
  | connected op c w _ hop _ hidle hnext done =>
    obtain ⟨_, _, hothers, _⟩ := htracked.connected hnext done
    have hnone := h.none_live hidle (List.ne_nil_of_mem hop)
    refine ⟨fun d hd => ?_, fun d _ => ?_, fun hne => absurd (htracked.erase_nil hop) hne, h.unwound⟩
    · by_cases hdc : d = c
      · subst hdc
        exact .inr rfl
      · have hlive : (w.life d).Live := hd
        rw [hothers d hdc] at hlive
        exact absurd hlive (hnone d)
    · -- what `conn_` was would be live
      show s.conn = none
      cases hconn : s.conn with
      | none => rfl
      | some e => exact absurd (htracked.conn e hconn).2 (hnone e)
  | refused op hop hidle =>
    have hnone := h.none_live hidle (List.ne_nil_of_mem hop)
    exact ⟨fun d hd => absurd hd (hnone d), fun d hd => (by cases hd),
      fun hne => absurd (htracked.erase_nil hop) hne, h.unwound⟩
  | established c hpc _ =>
    refine ⟨fun d hd => .inl ?_, fun d hd => (by cases hd), h.waiting, h.unwound⟩
    cases h.live d hd with
    | inl hconn => cases hconn.symm.trans (h.window c hpc)
    | inr hother =>
      cases hpc.symm.trans hother
      rfl
  | failed hpc =>
    refine ⟨fun d hd => (h.live d hd).imp_right fun hother => ?_, fun d hd => (by cases hd), h.waiting,
      h.unwound⟩
    cases hpc.symm.trans hother
  | conn b w _ enabled allowed _ _ stays done => exact h.world htracked enabled allowed stays done
  | removed c w _ hpc _ _ _ done => exact (h.removed htracked hpc done).1
  | reconnected c w _ _ hpc _ _ _ done hconnects =>
    obtain ⟨hremoved, hdeparting⟩ := h.removed htracked hpc done
    exact hremoved.connects hconnects (.inr hdeparting)
  | unwound _ _ _ _ _ _ _ _ _ => cases condition
  | _ => exact ⟨h.live, h.window, h.waiting, h.unwound⟩

theorem run_exclusive (h : (machine n).Run build ConnectsAlone as s m) : Exclusive s := by
  refine h.invariant (I := fun s _ => Exclusive s) (fun s m hinit => ?_)
    fun as s m a s' m' before ih enabled condition done =>
      ih.step (run_tracked before) condition (exec_step enabled done)
  obtain ⟨rfl, _⟩ := hinit
  exact ⟨fun c hc => (by cases hc.1), fun c hc => (by cases hc), fun hne => absurd rfl hne, rfl⟩

/-! ## The only connection -/

/-- In every run in which `connect` starts nothing while a connection is live: one
    connection at most is established and not reported closed, and a connection whose
    `close_cb_` comes next is `conn_`. -/
theorem one_live_connection (h : (machine n).Run build ConnectsAlone as s m) :
    (∀ c d, (s.world.life c).Live → (s.world.life d).Live → c = d) ∧
    ∀ c, (s.world.life c).pc = .notified → s.conn = some c := by
  have hexclusive := run_exclusive h
  refine ⟨fun c d hc hd => ?_, fun c hc => (hexclusive.notified (run_tracked h) hc).1⟩
  cases hexclusive.live c hc with
  | inl hconn =>
    cases hexclusive.live d hd with
    | inl hother => exact Option.some.inj (hconn.symm.trans hother)
    | inr hpc => cases hconn.symm.trans (hexclusive.window d hpc)
  | inr hpc =>
    cases hexclusive.live d hd with
    | inl hother => cases hother.symm.trans (hexclusive.window c hpc)
    | inr hother =>
      cases hpc.symm.trans hother
      rfl

/-- A connection is announced, held, and closed: what is removed is `conn_`. -/
theorem one_live_connection_closing :
    ∃ (as : List (ClientAction 1)) (s : TCPClient 1) (m : Mem),
      (machine 1).Run .debug ConnectsAlone as s m ∧ (s.world.life 0).pc = .notified ∧ s.conn = some 0 := by
  have r : (machine 1).Run .debug ConnectsAlone [] {} emptyMem := .start ⟨rfl, _, rfl⟩
  have r := next r .connect trivial trivial rfl
  have r := next r (.runConnect false) ⟨Nat.one_pos, ⟨rfl, fun _ => rfl⟩, by intro h; cases h⟩
    (.inr fun c hc => by cases hc.1) rfl
  have r := next r (.connectDone ⟨none⟩ .success) ⟨.head _, rfl⟩ trivial rfl
  have r := next r (.newConnection ⟨some .success⟩)
    ⟨.head _, (by intro h; cases h), ⟨rfl, fun _ => rfl⟩, by intro _ h; cases h⟩ trivial rfl
  have r := next r (.conn (.resume 0) false) ⟨(by intro h; cases h), .inr rfl, fun c _ => c.isLt,
    fun c h => (by cases h), by intro h; cases h⟩ rfl rfl
  have r := next r (.conn (.resume 0) false) ⟨(by intro h; cases h), .inr rfl, fun c _ => c.isLt,
    fun c h => (by cases h), by intro h; cases h⟩ rfl rfl
  have r := next r .established ⟨0, rfl, rfl⟩ trivial rfl
  have r := next r (.conn (.close 0) false) ⟨⟨rfl, by intro h; cases h⟩, trivial, fun c _ => c.isLt,
    fun c h => (by cases h), by intro h; cases h⟩ rfl rfl
  have r := next r (.conn (.closeGoesOn 0 .queueing) false) ⟨.head _, trivial, fun c _ => c.isLt,
    fun c h => (by cases h), by intro h; cases h⟩ rfl rfl
  have r := next r (.conn (.runClose 0) false) ⟨⟨Nat.one_pos, rfl⟩, trivial, fun c _ => c.isLt,
    fun _ _ => ⟨rfl, fun d => match d with | 0 => rfl⟩, by intro h; cases h⟩ rfl rfl
  have r := next r (.conn (.resume 0) false) ⟨(by intro h; cases h), .inl rfl, fun c _ => c.isLt,
    fun c h => (by cases h), by intro h; cases h⟩ rfl rfl
  have r := next r (.conn (.resume 0) false) ⟨(by intro h; cases h), .inl rfl, fun c _ => c.isLt,
    fun c h => (by cases h), by intro h; cases h⟩ rfl rfl
  exact ⟨_, _, _, r, rfl, (one_live_connection r).2 0 rfl⟩

/-- `connect` while a connection waits for the timer of its `closeWithDelay`: a second
    connection is established beside it. -/
theorem delayed_close_doubles :
    ¬ ∀ (n : Nat) (build : Build) (as : List (ClientAction n)) (s : TCPClient n) (m : Mem),
      (machine n).Run build (fun _ _ _ _ => True) as s m →
      (∀ c d, (s.world.life c).Live → (s.world.life d).Live → c = d) ∧
      ∀ c, (s.world.life c).pc = .notified → s.conn = some c := by
  intro hone
  have hknown : ∀ c : Fin 2, some (0 : Fin 2) = some c → c.val < 1 := by decide
  have r : (machine 2).Run .debug (fun _ _ _ _ => True) [] {} emptyMem := .start ⟨rfl, _, rfl⟩
  have r := next r .connect trivial trivial rfl
  have r := next r (.runConnect false) ⟨Nat.one_pos, ⟨rfl, fun _ => rfl⟩, by intro h; cases h⟩ trivial rfl
  have r := next r (.connectDone ⟨none⟩ .success) ⟨.head _, rfl⟩ trivial rfl
  have r := next r (.newConnection ⟨some .success⟩)
    ⟨.head _, (by intro h; cases h), ⟨rfl, fun _ => rfl⟩, by intro _ h; cases h⟩ trivial rfl
  have r := next r (.conn (.resume 0) false) ⟨(by intro h; cases h), .inr rfl,
    hknown, fun c h => (by cases h), by intro h; cases h⟩ trivial rfl
  have r := next r (.conn (.resume 0) false) ⟨(by intro h; cases h), .inr rfl,
    hknown, fun c h => (by cases h), by intro h; cases h⟩ trivial rfl
  have r := next r .established ⟨0, rfl, rfl⟩ trivial rfl
  have r := next r (.conn (.closeWithDelay 0) false) ⟨⟨rfl, by intro h; cases h⟩, trivial,
    hknown, fun c h => (by cases h), by intro h; cases h⟩ trivial rfl
  have r := next r .connect trivial trivial rfl
  have r := next r (.runConnect false) ⟨Nat.one_pos, ⟨rfl, fun d => match d with
    | 0 => rfl
    | 1 => rfl⟩, by intro h; cases h⟩ trivial rfl
  have r := next r (.connectDone ⟨none⟩ .success) ⟨.head _, rfl⟩ trivial rfl
  have r := next r (.newConnection ⟨some .success⟩)
    ⟨.head _, (by intro h; cases h), ⟨rfl, fun d => match d with
    | 0 => rfl
    | 1 => rfl⟩, by intro _ h; cases h⟩ trivial rfl
  have hsame := (hone 2 _ _ _ _ r).1 0 1 ⟨rfl, by decide⟩ ⟨rfl, by decide⟩
  cases hsame

end TCPClient

end Netpp
