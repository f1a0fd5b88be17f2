import Netpp.Loop.TimerService

/-! # Cancelled timers

`cancel` completes the waits of a timer that are pending with `operation_aborted`.  The lambda of
`runAfter` takes this `error_code` and does not look at it, and what `std::bind` returns in
`runEvery` drops it.

* `Silent`: nothing has been called because of an aborted wait, and no cancelled timer has been
  armed again.
* `Harmless`: the timer has no wait that would still call a functor, and is not about to be
  armed again.
* `cancelled_stay_silent_iff`: a run, and whatever follows without another `cancel`, is silent
  exactly if each `cancel` was harmless.
-/

namespace Netpp

open EventLoop (DealTimerPtr Handler)

/-- The functor that a handler calls, if it comes to that. -/
def WaitHandler.calls {φ : Type} : WaitHandler φ → Option φ
  | after _ f => f
  | every h => h.target.rearms.bind fun _ => h.f

namespace TimerService

/-- No functor has been called because of an aborted wait, and no timer has been armed again
    after it was cancelled. -/
structure Silent {φ : Type} (log : List (TimerEvent φ)) : Prop where
  aborted : ∀ f, .called f .operationAborted ∉ log
  rearmed : log.Pairwise fun e e' => ∀ timer, e = .cancelled timer → e' ≠ .rearmed timer

/-- `cancel` aborts no wait that would call a functor, and finds no lambda of the timer that is
    about to arm it again. -/
structure Harmless {φ : Type} (s : TimerService φ) (timer : DealTimerPtr) : Prop where
  pending : ∀ w ∈ s.waits, w.timer = timer → w.calls = none
  completed : ∀ h ec, (.every h, ec) ∈ s.completed → h.timer = timer → (WaitHandler.every h).calls = none
  running : ∀ h, s.running = some h → h.timer ≠ timer

/-! ## Harmless cancellations -/

section Harm

variable {φ : Type} {call : φ → φ} {s s' : TimerService φ} {timer : DealTimerPtr}

theorem Harmless.complete (h : s.Harmless timer) (other : DealTimerPtr) (ec : WaitResult) :
    (s.complete other ec).Harmless timer := by
  refine ⟨fun w hw => h.pending w (mem_waits_complete.mp hw).1, ?_, h.running⟩
  intro h' ec' hin heq
  cases mem_completed_complete.mp hin with
  | inl hold => exact h.completed h' ec' hold heq
  | inr hnew => exact h.pending _ hnew.1.1 heq

theorem Harmless.afterCancel (h : s.Harmless timer) (other : DealTimerPtr) :
    (s.afterCancel other).Harmless timer :=
  have hcomplete := h.complete other .operationAborted
  ⟨hcomplete.pending, hcomplete.completed, hcomplete.running⟩

/-- A timer that has been cancelled without harm stays so. -/
theorem Harmless.moves (h : s.Harmless timer) (hlt : timer < s.count) (hmove : Moves call s s') :
    s'.Harmless timer := by
  cases hmove with
  | stay => exact h
  | arm w delay new =>
    refine ⟨?_, h.completed, h.running⟩
    intro v hv heq
    cases List.mem_append.mp hv with
    | inl hold => exact h.pending v hold heq
    | inr hnew =>
      rw [List.mem_singleton.mp hnew, new] at heq
      exact absurd heq (Nat.ne_of_gt hlt)
  | expire other => exact h.complete other .success
  | serveAfter other f ec rest idle served =>
    exact ⟨h.pending, fun h' ec' hin => h.completed h' ec' (served.subset (List.mem_cons_of_mem _ hin)),
      h.running⟩
  | serveEvery h' next f ec rest idle served rearms functor =>
    refine ⟨h.pending, fun h'' ec' hin => ?_, ?_⟩
    · exact h.completed h'' ec' (served.subset (List.mem_cons_of_mem _ hin))
    · intro r hr heq
      cases hr
      have hnone := h.completed h' ec (served.subset List.mem_cons_self) heq
      rw [WaitHandler.calls, rearms, Option.bind_some, functor] at hnone
      cases hnone
  | rearm h' running =>
    refine ⟨?_, h.completed, nofun⟩
    intro w hw heq
    cases List.mem_append.mp hw with
    | inl hold => exact h.pending w hold heq
    | inr hnew =>
      rw [List.mem_singleton.mp hnew] at heq
      exact absurd heq (h.running h' running)

/-- What holds while each cancellation has been harmless. -/
structure Sound (s : TimerService φ) : Prop where
  tracked : Tracked s
  silent : Silent s.log
  aborted : ∀ w, (w, .operationAborted) ∈ s.completed → w.calls = none
  cancelled : ∀ timer, .cancelled timer ∈ s.log → s.Harmless timer

theorem Silent.append {log : List (TimerEvent φ)} (h : Silent log) {e : TimerEvent φ}
    (haborted : ∀ f, e ≠ .called f .operationAborted)
    (hrearmed : ∀ timer, .cancelled timer ∈ log → e ≠ .rearmed timer) : Silent (log ++ [e]) where
  aborted f hin := by
    cases List.mem_append.mp hin with
    | inl hold => exact h.aborted f hold
    | inr hnew => exact haborted f (List.mem_singleton.mp hnew).symm
  rearmed := by
    refine List.pairwise_append.mpr ⟨h.rearmed, List.pairwise_singleton _ _, ?_⟩
    intro e' hin e'' hlast timer heq
    rw [List.mem_singleton.mp hlast]
    exact hrearmed timer (heq ▸ hin)

theorem Sound.moves (h : Sound s) (hmove : Moves call s s') : Sound s' := by
  have hharmless : ∀ timer, .cancelled timer ∈ s.log → s'.Harmless timer :=
    fun timer hin => (h.cancelled timer hin).moves (h.tracked.cancelled timer hin) hmove
  have htracked := h.tracked.moves hmove
  cases hmove with
  | stay => exact h
  | arm w delay new => exact ⟨htracked, h.silent, h.aborted, hharmless⟩
  | expire timer =>
    refine ⟨htracked, h.silent, ?_, hharmless⟩
    intro w hin
    cases mem_completed_complete.mp hin with
    | inl hold => exact h.aborted w hold
    | inr hnew => exact absurd hnew.2 nofun
  | serveAfter timer f ec rest idle served =>
    have haborted : ∀ w, (w, .operationAborted) ∈ rest → w.calls = none :=
      fun w hin => h.aborted w (served.subset (List.mem_cons_of_mem _ hin))
    refine ⟨htracked, h.silent.append ?_ nofun, haborted,
      fun t hin => hharmless t (mem_log_append (e := .called f ec) nofun hin)⟩
    intro g heq
    cases heq
    cases h.aborted _ (served.subset List.mem_cons_self)
  | serveEvery h' next f ec rest idle served rearms functor =>
    have haborted : ∀ w, (w, .operationAborted) ∈ rest → w.calls = none :=
      fun w hin => h.aborted w (served.subset (List.mem_cons_of_mem _ hin))
    refine ⟨htracked, h.silent.append ?_ nofun, haborted,
      fun t hin => hharmless t (mem_log_append (e := .called f ec) nofun hin)⟩
    intro g heq
    cases heq
    have hnone := h.aborted _ (served.subset List.mem_cons_self)
    rw [WaitHandler.calls, rearms, Option.bind_some, functor] at hnone
    cases hnone
  | rearm h' running =>
    refine ⟨htracked, h.silent.append nofun ?_, h.aborted,
      fun t hin => hharmless t (mem_log_append (e := .rearmed h'.timer) nofun hin)⟩
    intro t hin heq
    cases heq
    exact (h.cancelled _ hin).running h' running rfl

theorem Sound.afterCancel (h : Sound s) (hlt : timer < s.count) (hharmless : s.Harmless timer) :
    Sound (s.afterCancel timer) := by
  refine ⟨h.tracked.afterCancel hlt, h.silent.append nofun nofun, ?_, ?_⟩
  · intro w hin
    cases mem_completed_complete.mp hin with
    | inl hold => exact h.aborted w hold
    | inr hnew => exact hharmless.pending w hnew.1.1 hnew.1.2
  · intro t hin
    cases List.mem_append.mp hin with
    | inl hold => exact (h.cancelled t hold).afterCancel timer
    | inr hnew =>
      cases List.mem_singleton.mp hnew
      exact hharmless.afterCancel timer

/-! ## Harm that has been done -/

theorem not_silent_append {log more : List (TimerEvent φ)} (h : ¬ Silent log) : ¬ Silent (log ++ more) := by
  intro hsilent
  apply h
  exact ⟨fun f hin => hsilent.aborted f (List.mem_append_left _ hin),
    (List.pairwise_append.mp hsilent.rearmed).1⟩

theorem not_silent_called (log : List (TimerEvent φ)) (f : φ) :
    ¬ Silent (log ++ [.called f .operationAborted]) :=
  fun hsilent => hsilent.aborted f (by simp)

theorem not_silent_rearmed {log : List (TimerEvent φ)} (hin : .cancelled timer ∈ log) :
    ¬ Silent (log ++ [.rearmed timer]) :=
  fun hsilent =>
    (List.pairwise_append.mp hsilent.rearmed).2.2 _ hin _ (List.mem_singleton_self _) timer rfl rfl

/-- What follows from a cancellation that was not harmless: something has happened that must not,
    or a handler is left that will do it. -/
inductive Doomed (s : TimerService φ) : Prop
  | done (h : ¬ Silent s.log)
  | aborted (w : WaitHandler φ) (hin : (w, .operationAborted) ∈ s.completed) (calls : w.calls ≠ none)
  | completed (h : Handler φ) (ec : WaitResult) (hin : (.every h, ec) ∈ s.completed)
      (calls : (WaitHandler.every h).calls ≠ none) (cancelled : .cancelled h.timer ∈ s.log)
  | running (h : Handler φ) (hrun : s.running = some h) (cancelled : .cancelled h.timer ∈ s.log)

theorem Doomed.moves (h : Doomed s) (hmove : Moves call s s') : Doomed s' := by
  cases h with
  | done h =>
    cases hmove with
    | stay | arm | expire => exact .done h
    | serveAfter | serveEvery | rearm => exact .done (not_silent_append h)
  | aborted w hin calls =>
    cases hmove with
    | stay | arm | rearm => exact .aborted w hin calls
    | expire timer => exact .aborted w (mem_completed_complete.mpr (.inl hin)) calls
    | serveAfter timer f ec rest idle served =>
      cases List.mem_cons.mp (served.symm.subset hin) with
      | inl heq =>
        cases heq
        exact .done (not_silent_called s.log f)
      | inr hrest => exact .aborted w hrest calls
    | serveEvery h' next f ec rest idle served rearms functor =>
      cases List.mem_cons.mp (served.symm.subset hin) with
      | inl heq =>
        cases heq
        exact .done (not_silent_called s.log f)
      | inr hrest => exact .aborted w hrest calls
  | completed h ec hin calls cancelled =>
    cases hmove with
    | stay | arm => exact .completed h ec hin calls cancelled
    | rearm => exact .completed h ec hin calls (List.mem_append_left _ cancelled)
    | expire timer => exact .completed h ec (mem_completed_complete.mpr (.inl hin)) calls cancelled
    | serveAfter timer f ec' rest idle served =>
      cases List.mem_cons.mp (served.symm.subset hin) with
      | inl heq => cases heq
      | inr hrest => exact .completed h ec hrest calls (List.mem_append_left _ cancelled)
    | serveEvery h' next f ec' rest idle served rearms functor =>
      cases List.mem_cons.mp (served.symm.subset hin) with
      | inl heq =>
        cases heq
        exact .running _ rfl (List.mem_append_left _ cancelled)
      | inr hrest => exact .completed h ec hrest calls (List.mem_append_left _ cancelled)
  | running h hrun cancelled =>
    cases hmove with
    | stay | arm | expire => exact .running h hrun cancelled
    | serveAfter timer f ec rest idle served => cases idle.symm.trans hrun
    | serveEvery h' next f ec rest idle served rearms functor => cases idle.symm.trans hrun
    | rearm h' running =>
      cases running.symm.trans hrun
      exact .done (not_silent_rearmed cancelled)

theorem Doomed.afterCancel (h : Doomed s) (timer : DealTimerPtr) : Doomed (s.afterCancel timer) := by
  cases h with
  | done h => exact .done (not_silent_append h)
  | aborted w hin calls => exact .aborted w (mem_completed_complete.mpr (.inl hin)) calls
  | completed h ec hin calls cancelled =>
    exact .completed h ec (mem_completed_complete.mpr (.inl hin)) calls (List.mem_append_left _ cancelled)
  | running h hrun cancelled => exact .running h hrun (List.mem_append_left _ cancelled)

theorem doomed_of_not_harmless (h : ¬ s.Harmless timer) : Doomed (s.afterCancel timer) := by
  by_contra hfree
  have hlogged : .cancelled timer ∈ (s.afterCancel timer).log := by simp [TimerService.afterCancel]
  apply h
  refine ⟨fun w hw heq => ?_, fun h' ec hin heq => ?_, fun h' hrun heq => ?_⟩
  · by_contra hcalls
    exact hfree (.aborted w (mem_completed_complete.mpr (.inr ⟨⟨hw, heq⟩, rfl⟩)) hcalls)
  · by_contra hcalls
    exact hfree (.completed h' ec (mem_completed_complete.mpr (.inl hin)) hcalls (heq ▸ hlogged))
  · exact hfree (.running h' hrun (heq ▸ hlogged))

end Harm

/-! ## Runs -/

section Runs

variable {φ : Type} {call : φ → φ} {closer : Nat → φ} {s s' : TimerService φ} {conns conns' : Conns}
  {a : TimerAction φ} {as : List (TimerAction φ)} {timer : DealTimerPtr}

def CancelsNothing (conns : Conns) (_ : TimerService φ) (a : TimerAction φ) : Prop := a.cancels conns = none

def CancelsHarmlessly (_ : List (TimerAction φ)) (conns : Conns) (s : TimerService φ)
    (a : TimerAction φ) : Prop :=
  ∀ timer, a.cancels conns = some timer → s.Harmless timer

/-- The handler that `closeWithDelay` has left with a timer is the only one of that timer. -/
def Closing (closer : Nat → φ) (conns : Conns) (s : TimerService φ) : Prop :=
  ∀ c timer, (conns c).delayCloseTimer = some timer → timer < s.count ∧
    ∀ w ∈ s.outstanding, w.timer = timer → w = .after timer (some (closer c))

theorem Moves.outstanding (hmove : Moves call s s') : s.count ≤ s'.count ∧ ∀ w ∈ s'.outstanding,
    w ∈ s.outstanding ∨ w.timer = s.count ∨ ∃ h, .every h ∈ s.outstanding ∧ w.timer = h.timer := by
  cases hmove with
  | stay => exact ⟨Nat.le_refl _, fun w => .inl⟩
  | arm w delay new =>
    refine ⟨Nat.le_succ _, fun v hv => ?_⟩
    cases List.mem_cons.mp ((outstanding_armed s w delay).subset hv) with
    | inl heq => exact .inr (.inl (by rw [heq, new]))
    | inr hold => exact .inl hold
  | expire timer => exact ⟨Nat.le_refl _, fun w hw => .inl ((outstanding_complete s timer _).subset hw)⟩
  | serveAfter timer f ec rest idle served =>
    refine ⟨Nat.le_refl _, fun w hw => .inl (mem_outstanding.mpr ?_)⟩
    rcases mem_outstanding.mp hw with hwait | ⟨ec', hin⟩ | hrun
    · exact .inl hwait
    · exact .inr (.inl ⟨ec', served.subset (List.mem_cons_of_mem _ hin)⟩)
    · exact .inr (.inr hrun)
  | serveEvery h next f ec rest idle served rearms functor =>
    refine ⟨Nat.le_refl _, fun w hw => ?_⟩
    have hserved : .every h ∈ s.outstanding :=
      mem_outstanding.mpr (.inr (.inl ⟨ec, served.subset List.mem_cons_self⟩))
    rcases mem_outstanding.mp hw with hwait | ⟨ec', hin⟩ | ⟨h', hrun, rfl⟩
    · exact .inl (mem_outstanding.mpr (.inl hwait))
    · exact .inl (mem_outstanding.mpr (.inr (.inl ⟨ec', served.subset (List.mem_cons_of_mem _ hin)⟩)))
    · cases hrun
      exact .inr (.inr ⟨h, hserved, rfl⟩)
  | rearm h running =>
    refine ⟨Nat.le_refl _, fun w hw => .inl (mem_outstanding.mpr ?_)⟩
    rcases mem_outstanding.mp hw with hwait | hin | ⟨h', hrun, _⟩
    · cases List.mem_append.mp hwait with
      | inl hold => exact .inl hold
      | inr hnew => exact .inr (.inr ⟨h, running, (List.mem_singleton.mp hnew).symm⟩)
    · exact .inr (.inl hin)
    · cases hrun

theorem Closing.keeps (h : Closing closer conns s) (hcount : s.count ≤ s'.count)
    (hout : ∀ w ∈ s'.outstanding, w ∈ s.outstanding ∨ w.timer = s.count ∨
      ∃ h, .every h ∈ s.outstanding ∧ w.timer = h.timer) : Closing closer conns s' := by
  intro c timer htimer
  obtain ⟨hlt, hall⟩ := h c timer htimer
  refine ⟨Nat.lt_of_lt_of_le hlt hcount, fun w hw heq => ?_⟩
  rcases hout w hw with hold | hnew | ⟨h', hin, hsame⟩
  · exact hall w hold heq
  · exact absurd (heq.symm.trans hnew) (Nat.ne_of_lt hlt)
  · cases hall _ hin (hsame.symm.trans heq)

theorem cancels_known (h : Closing closer conns s) (enabled : Enabled s a)
    (hcancels : a.cancels conns = some timer) : timer < s.count := by
  cases a with
  | cancel t =>
    cases hcancels
    exact enabled
  | handleClose c =>
    simp only [TimerAction.cancels] at hcancels
    split at hcancels
    · exact (h c timer hcancels).1
    · cases hcancels
  | runAfter | runEvery | expire | serve | rearm | closeWithDelay => cases hcancels

theorem Closing.step (h : Closing closer conns s) (htracked : Tracked s) (enabled : Enabled s a)
    (done : exec call closer conns a () s = .ok (conns', s')) : Closing closer conns' s' := by
  obtain ⟨hcancel, hmoves, htimers⟩ := exec_spec htracked enabled done
  have hkeeps : Closing closer conns s' := by
    cases hc : a.cancels conns with
    | none =>
      obtain ⟨hcount, hout⟩ := (hmoves hc).outstanding
      exact h.keeps hcount hout
    | some t =>
      rw [hcancel t hc]
      exact h.keeps (Nat.le_refl _) fun w hw => .inl ((outstanding_complete s t _).subset hw)
  intro c timer htimer
  cases htimers c timer htimer with
  | inl hold => exact hkeeps c timer hold
  | inr hnew =>
    obtain ⟨delay, rfl, rfl⟩ := hnew
    refine ⟨Nat.lt_succ_self _, fun w hw heq => ?_⟩
    cases List.mem_cons.mp ((outstanding_armed s _ delay).subset hw) with
    | inl hlast => exact hlast
    | inr hold => exact absurd heq (Nat.ne_of_lt (htracked.known w hold))

theorem tracked_start : Tracked ({} : TimerService φ) := ⟨List.nodup_nil, nofun, nofun⟩

/-- As long as each cancellation is harmless, nothing happens that must not. -/
theorem run_sound (h : (machine call closer).Run () CancelsHarmlessly as conns s) :
    Sound s ∧ Closing closer conns s := by
  apply h.invariant (I := fun conns s => Sound s ∧ Closing closer conns s)
  · intro conns s init
    obtain ⟨rfl, rfl⟩ := init
    exact ⟨⟨tracked_start, ⟨nofun, .nil⟩, nofun, nofun⟩, nofun⟩
  · intro as conns s a conns' s' _ ⟨hsound, hclosing⟩ enabled condition done
    obtain ⟨hcancel, hmoves, _⟩ := exec_spec hsound.tracked enabled done
    refine ⟨?_, hclosing.step hsound.tracked enabled done⟩
    cases hc : a.cancels conns with
    | none => exact hsound.moves (hmoves hc)
    | some t =>
      rw [hcancel t hc]
      exact hsound.afterCancel (cancels_known hclosing enabled hc) (condition t hc)

/-- In every run either each cancellation has been harmless or harm has been done. -/
theorem run_harmless_or_doomed (h : (machine call closer).Run () (fun _ _ _ _ => True) as conns s) :
    Tracked s ∧ Closing closer conns s ∧
      ((machine call closer).Run () CancelsHarmlessly as conns s ∨ Doomed s) := by
  apply h.history (I := fun as conns s => Tracked s ∧ Closing closer conns s ∧
    ((machine call closer).Run () CancelsHarmlessly as conns s ∨ Doomed s))
  · intro conns s init
    obtain ⟨rfl, rfl⟩ := init
    exact ⟨tracked_start, nofun, .inl (.start ⟨rfl, rfl⟩)⟩
  · intro as conns s a conns' s' _ ⟨htracked, hclosing, hcases⟩ enabled _ done
    obtain ⟨hcancel, hmoves, _⟩ := exec_spec htracked enabled done
    have hclosing' := hclosing.step htracked enabled done
    cases hc : a.cancels conns with
    | none =>
      refine ⟨htracked.moves (hmoves hc), hclosing', ?_⟩
      cases hcases with
      | inl hrun =>
        refine .inl (hrun.step a enabled ?_ done)
        intro t ht
        cases hc.symm.trans ht
      | inr hdoomed => exact .inr (hdoomed.moves (hmoves hc))
    | some t =>
      obtain rfl := hcancel t hc
      refine ⟨htracked.afterCancel (cancels_known hclosing enabled hc), hclosing', ?_⟩
      -- a cancellation is where a run without harm can turn into one with harm
      cases hcases with
      | inl hrun =>
        by_cases hharmless : s.Harmless t
        · refine .inl (hrun.step a enabled ?_ done)
          intro t' ht
          cases hc.symm.trans ht
          exact hharmless
        · exact .inr (doomed_of_not_harmless hharmless)
      | inr hdoomed => exact .inr (hdoomed.afterCancel t)

theorem Sound.stretch (h : Sound s) (hclosing : Closing closer conns s)
    (hstretch : (machine call closer).Stretch () CancelsNothing conns s conns' s') : Sound s' := by
  apply And.left
  apply hstretch.invariant (I := fun conns s => Sound s ∧ Closing closer conns s) ⟨h, hclosing⟩
  intro conns s a conns' s' ⟨hsound, hclosing⟩ enabled condition done
  obtain ⟨_, hmoves, _⟩ := exec_spec hsound.tracked enabled done
  exact ⟨hsound.moves (hmoves condition), hclosing.step hsound.tracked enabled done⟩

/-! ### How harm comes to pass -/

theorem rearm_runs (call : φ → φ) (closer : Nat → φ) (conns : Conns) {h : Handler φ}
    (hrun : s.running = some h) : ∃ s₁,
    exec call closer conns .rearm () s = .ok (conns, s₁) ∧ s₁.running = none ∧
      s₁.log = s.log ++ [.rearmed h.timer] ∧ s.completed ⊆ s₁.completed := by
  simp only [exec, Prog.bind_apply, rearm, hrun]
  exact ⟨_, rfl, rfl, rfl, List.subset_append_left _ _⟩

theorem idle_stretch (call : φ → φ) (closer : Nat → φ) (conns : Conns) (s : TimerService φ) : ∃ s₁,
    (machine call closer).Stretch () CancelsNothing conns s conns s₁ ∧ s₁.running = none ∧
      s.log ⊆ s₁.log ∧ s.completed ⊆ s₁.completed := by
  cases hrun : s.running with
  | none => exact ⟨s, .nil, hrun, List.Subset.refl _, List.Subset.refl _⟩
  | some h =>
    obtain ⟨s₁, done, hidle, hlog, hcompleted⟩ := rearm_runs call closer conns hrun
    refine ⟨s₁, .step .rearm .nil (by simp [machine, Enabled, hrun]) rfl done, hidle, ?_, hcompleted⟩
    rw [hlog]
    exact List.subset_append_left _ _

theorem serve_runs (call : φ → φ) (closer : Nat → φ) (conns : Conns) {w : WaitHandler φ} {ec : WaitResult}
    (hin : (w, ec) ∈ s.completed) (hcalls : w.calls ≠ none) : ∃ i f s₁, i < s.completed.length ∧
      exec call closer conns (.serve i) () s = .ok (conns, s₁) ∧ s₁.log = s.log ++ [.called f ec] ∧
      ∀ h, w = .every h → ∃ h', s₁.running = some h' ∧ h'.timer = h.timer := by
  obtain ⟨i, hi, hget⟩ := List.getElem_of_mem hin
  have hget' : s.completed[i]? = some (w, ec) := List.getElem?_eq_some_iff.mpr ⟨hi, hget⟩
  obtain ⟨f, hf⟩ := Option.ne_none_iff_exists'.mp hcalls
  refine ⟨i, f, ?_⟩
  simp only [exec, Prog.bind_apply, serve, hget']
  cases w with
  | after timer g =>
    obtain rfl : g = some f := hf
    refine ⟨_, hi, rfl, rfl, ?_⟩
    intro h heq
    cases heq
  | every h =>
    rw [WaitHandler.calls, Option.bind_eq_some_iff] at hf
    obtain ⟨next, hnext, hfunctor⟩ := hf
    simp only [invoke_every, hnext, callBound, hfunctor]
    refine ⟨_, hi, rfl, rfl, ?_⟩
    intro h' heq
    cases heq
    exact ⟨_, rfl, rfl⟩

/-- A harm can be brought to pass without another cancellation. -/
theorem Doomed.comes (h : Doomed s) (call : φ → φ) (closer : Nat → φ) (conns : Conns) : ∃ conns' s',
    (machine call closer).Stretch () CancelsNothing conns s conns' s' ∧ ¬ Silent s'.log := by
  cases h with
  | done h => exact ⟨conns, s, .nil, h⟩
  | aborted w hin calls =>
    obtain ⟨s₁, hstretch, hidle, _, hcompleted⟩ := idle_stretch call closer conns s
    obtain ⟨i, f, s₂, hi, done, hlog, _⟩ := serve_runs call closer conns (hcompleted hin) calls
    have henabled : (machine call closer).Enabled conns s₁ (.serve i) := ⟨hidle, hi⟩
    refine ⟨conns, s₂, .step (.serve i) hstretch henabled rfl done, ?_⟩
    rw [hlog]
    exact not_silent_called _ f
  | completed h ec hin calls cancelled =>
    obtain ⟨s₁, hstretch, hidle, hsub, hcompleted⟩ := idle_stretch call closer conns s
    obtain ⟨i, f, s₂, hi, done, hlog, hrun⟩ := serve_runs call closer conns (hcompleted hin) calls
    have henabled : (machine call closer).Enabled conns s₁ (.serve i) := ⟨hidle, hi⟩
    obtain ⟨h', hrunning, htimer⟩ := hrun h rfl
    obtain ⟨s₃, done', _, hlog', _⟩ := rearm_runs call closer conns hrunning
    refine ⟨conns, s₃, .step .rearm (.step (.serve i) hstretch henabled rfl done)
      (by simp [machine, Enabled, hrunning]) rfl done', ?_⟩
    rw [hlog', hlog, htimer]
    exact not_silent_rearmed (List.mem_append_left _ (hsub cancelled))
  | running h hrun cancelled =>
    obtain ⟨s₁, done, _, hlog, _⟩ := rearm_runs call closer conns hrun
    refine ⟨conns, s₁, .step .rearm .nil (by simp [machine, Enabled, hrun]) rfl done, ?_⟩
    rw [hlog]
    exact not_silent_rearmed cancelled

/-- The cancellation in `handleClose` is harmless only when the timer has expired. -/
theorem harmless_iff_expired (h : Closing closer conns s) {c : Nat}
    (htimer : (conns c).delayCloseTimer = some timer) :
    s.Harmless timer ↔ ∀ w ∈ s.waits, w.timer ≠ timer := by
  obtain ⟨_, hall⟩ := h c timer htimer
  constructor
  · intro hharmless w hw heq
    have hnone := hharmless.pending w hw heq
    rw [hall w (mem_outstanding.mpr (.inl hw)) heq] at hnone
    cases hnone
  · intro hexpired
    refine ⟨fun w hw heq => absurd heq (hexpired w hw), fun h' ec hin heq => ?_, fun h' hrun heq => ?_⟩
    · cases hall _ (mem_outstanding.mpr (.inr (.inl ⟨ec, hin⟩))) heq
    · cases hall _ (mem_outstanding.mpr (.inr (.inr ⟨h', hrun, rfl⟩))) heq

/-- For every run: nothing has been called or will be called because of an aborted wait, and no
    cancelled timer has been or will be armed again, as long as no more is cancelled, if and only
    if each `cancel` of the run was harmless.  In `handleClose` it is when the timer of
    `closeWithDelay` has expired. -/
theorem cancelled_stay_silent_iff
    (h : (machine call closer).Run () (fun _ _ _ _ => True) as conns s) :
    ((∀ conns' s', (machine call closer).Stretch () CancelsNothing conns s conns' s' → Silent s'.log) ↔
      (machine call closer).Run () CancelsHarmlessly as conns s) ∧
    ∀ c timer, (conns c).delayCloseTimer = some timer →
      (s.Harmless timer ↔ ∀ w ∈ s.waits, w.timer ≠ timer) := by
  obtain ⟨_, hclosing, hcases⟩ := run_harmless_or_doomed h
  refine ⟨⟨?_, ?_⟩, fun c timer => harmless_iff_expired hclosing⟩
  · intro hsilent
    cases hcases with
    | inl hrun => exact hrun
    | inr hdoomed =>
      obtain ⟨conns', s', hstretch, hloud⟩ := hdoomed.comes call closer conns
      exact absurd (hsilent conns' s' hstretch) hloud
  · intro hrun conns' s' hstretch
    exact ((run_sound hrun).1.stretch hclosing hstretch).silent

end Runs

/-- An error closes a connection while `closeWithDelay` is waiting, and the wait that `handleClose`
    aborts runs the functor all the same.  A timer of `runEvery` arms itself again. -/
theorem cancelled_timers_fire :
    (¬ ∀ as conns s, (machine id fun _ => ()).Run () (fun _ _ _ _ => True) as conns s →
      ∀ f, .called f .operationAborted ∉ s.log) ∧
    ¬ ∀ as conns s, (machine id fun _ => ()).Run () (fun _ _ _ _ => True) as conns s →
      s.log.Pairwise fun e e' => ∀ timer, e = .cancelled timer → e' ≠ .rearmed timer := by
  constructor
  · intro hclaim
    have r := Machine.Run.start (M := machine id fun _ => ()) (r := ())
      (P := fun _ _ _ _ => True) ⟨rfl, rfl⟩
    have r := r.step (TimerAction.closeWithDelay 0 5) trivial trivial rfl
    have r := r.step (TimerAction.handleClose 0) trivial trivial rfl
    have r := r.step (TimerAction.serve 0) ⟨rfl, by decide⟩ trivial rfl
    exact hclaim _ _ _ r () (by decide)
  · intro hclaim
    have r := Machine.Run.start (M := machine id fun _ => ()) (r := ())
      (P := fun _ _ _ _ => True) ⟨rfl, rfl⟩
    have r := r.step (TimerAction.runEvery 1000 (some ())) trivial trivial rfl
    have r := r.step (TimerAction.cancel 0) (by decide : 0 < 1) trivial rfl
    have r := r.step (TimerAction.serve 0) ⟨rfl, by decide⟩ trivial rfl
    have r := r.step TimerAction.rearm nofun trivial rfl
    have hpairs := hclaim _ _ _ r
    exact (List.pairwise_cons.mp hpairs).1 (.rearmed 0) (by decide) 0 rfl rfl

/-- The timer of `closeWithDelay` has expired before `handleClose` cancels it. -/
theorem expired_stays_silent : ∃ as conns s,
    (machine id fun _ => ()).Run () CancelsHarmlessly as conns s ∧
      s.log = [.called () .success, .cancelled 0] ∧
      ∀ conns' s', (machine id fun _ => ()).Stretch () CancelsNothing conns s conns' s' → Silent s'.log := by
  have r := Machine.Run.start (M := machine id fun _ => ()) (r := ())
    (P := CancelsHarmlessly) ⟨rfl, rfl⟩
  have r := r.step (TimerAction.closeWithDelay 0 5) trivial nofun rfl
  have r := r.step (TimerAction.expire 0) ⟨.after 0 (some ()), by decide, rfl⟩ nofun rfl
  have r := r.step (TimerAction.serve 0) ⟨rfl, by decide⟩ nofun rfl
  have r := r.step (TimerAction.handleClose 0) trivial (fun timer _ => ⟨nofun, nofun, nofun⟩) rfl
  exact ⟨_, _, _, r, rfl, (cancelled_stay_silent_iff (r.imp fun _ _ _ _ _ => trivial)).1.mpr r⟩

end TimerService

end Netpp
