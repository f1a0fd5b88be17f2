import Netpp.Loop.EventLoopThread

/-! # The stopped status of a thread

`run` ends with `status_ = kStopped`.  A call of `stop` that has made its assertion stores
`kStopping` later, so it must not find `run` at its end: a failing `pre`, a call of
`loop()->stop()` or another `stop` can bring it there.

* `EventLoopThread.Sound` holds of a thread whatever is done to it.
* `Settled` holds in every run in which no `stop` is too late.
* `stopped_is_final`: then `kStopped` stays once `run` has ended.
-/

namespace Netpp

open Function (update)
open ServerStatus

/-! ## Whatever is done to a thread -/

namespace EventLoopThread

variable {build : Build} {t : EventLoopThread} {e : RunStep} {p : StartPc} {q : StopPc}

/-- `kStopped` is what an exited thread has stored, a loop that has been left is stopped,
    and a loop that runs has work unless it has been told to stop. -/
structure Sound (t : EventLoopThread) : Prop where
  stopped : t.status = .kStopped → t.run = .exited
  left : t.Left → t.loop.status = .kStopped
  working : t.run ∈ [.looping, .announced, .pre] → t.loop.work = true ∨ t.loop.stopped = true

theorem sound_new : Sound {} := ⟨nofun, nofun, nofun⟩

theorem Sound.start (h : t.Sound) : t.start.Sound := ⟨nofun, h.left, h.working⟩

theorem Sound.join (h : t.Sound) : t.join.Sound := ⟨h.stopped, h.left, h.working⟩

theorem Sound.stopLoop (h : t.Sound) : Sound { t with loop := t.loop.stop } :=
  ⟨h.stopped, h.left, fun _ => .inr rfl⟩

theorem Sound.not_stopped (h : t.Sound) (hrun : t.run ≠ .exited) : t.status ≠ .kStopped :=
  fun hstatus => hrun (h.stopped hstatus)

theorem Sound.runStep (h : t.Sound) (ready : t.Ready e) :
    (t.runStep e).wlp build () fun t' _ => t'.Sound := by
  cases e with
  | begin =>
    rw [EventLoopThread.runStep, Prog.wlp_pure]
    have hrun : t.run = .begun := ready
    exact ⟨fun hs => absurd hs (h.not_stopped (by rw [hrun]; decide)), (by simp [Left]), fun _ => .inl rfl⟩
  | announce =>
    rw [EventLoopThread.runStep, Prog.wlp_pure]
    exact ⟨(by simp), (by simp [Left]), fun _ => h.working (by rw [ready.1]; decide)⟩
  | countDown =>
    rw [EventLoopThread.runStep, Prog.wlp_pure]
    have hrun : t.run = .announced := ready
    exact ⟨fun hs => absurd hs (h.not_stopped (by rw [hrun]; decide)), (by simp [Left]),
      fun _ => h.working (by rw [hrun]; decide)⟩
  | preReturned rc =>
    rw [EventLoopThread.runStep, Prog.wlp_pure]
    have hrun : t.run = .pre := ready
    refine ⟨fun hs => absurd hs (h.not_stopped (by rw [hrun]; decide)), (by simp [Left]), fun _ => ?_⟩
    by_cases hrc : rc = kOK
    · simpa [hrc] using h.working (by rw [hrun]; decide)
    · exact .inr (by simp [hrc, EventLoop.stop])
  | leave =>
    rw [EventLoopThread.runStep, Prog.wlp_pure]
    exact ⟨fun hs => absurd hs (h.not_stopped (by rw [ready.1]; decide)), fun _ => rfl, (by simp)⟩
  | postReturned =>
    rw [EventLoopThread.runStep, Prog.wlp_pure]
    have hrun : t.run = .left := ready
    exact ⟨fun hs => absurd hs (h.not_stopped (by rw [hrun]; decide)),
      fun _ => h.left (by rw [Left, hrun]; decide), (by simp)⟩
  | assertStopped =>
    simp only [EventLoopThread.runStep, Prog.wlp_bind, LoopExec.wlp_assert, Prog.wlp_pure]
    have hrun : t.run = .posted := ready
    exact fun _ => ⟨fun hs => absurd hs (h.not_stopped (by rw [hrun]; decide)),
      fun _ => h.left (by rw [Left, hrun]; decide), (by simp)⟩
  | store =>
    rw [EventLoopThread.runStep, Prog.wlp_pure]
    have hrun : t.run = .asserted := ready
    exact ⟨fun _ => rfl, fun _ => h.left (by rw [Left, hrun]; decide), (by simp)⟩

theorem runStep_exited : (t.runStep e).wlp build () fun t' _ =>
    t'.run = .exited → e = .store ∧ t'.status = .kStopped := by
  cases e with
  | store => exact (Prog.wlp_pure _ _ _ _).mpr fun _ => ⟨rfl, rfl⟩
  | assertStopped =>
    simp only [EventLoopThread.runStep, Prog.wlp_bind, LoopExec.wlp_assert, Prog.wlp_pure]
    exact fun _ => (by simp)
  | _ => exact (Prog.wlp_pure _ _ _ _).mpr (by simp)

theorem runStep_left (ready : t.Ready e) : (t.runStep e).wlp build () fun t' _ =>
    (t.Left → t'.Left) ∧ (t'.Left → t.Left ∨ t.run = .looping ∧ t.loop.CanLeave) := by
  cases e with
  | begin =>
    have hrun : t.run = .begun := ready
    exact (Prog.wlp_pure _ _ _ _).mpr ⟨by simp [Left, hrun], by simp [Left]⟩
  | announce =>
    have hrun : t.run = .looping := ready.1
    exact (Prog.wlp_pure _ _ _ _).mpr ⟨by simp [Left, hrun], by simp [Left]⟩
  | countDown =>
    have hrun : t.run = .announced := ready
    exact (Prog.wlp_pure _ _ _ _).mpr ⟨by simp [Left, hrun], by simp [Left]⟩
  | preReturned rc =>
    have hrun : t.run = .pre := ready
    exact (Prog.wlp_pure _ _ _ _).mpr ⟨by simp [Left, hrun], by simp [Left]⟩
  | leave => exact (Prog.wlp_pure _ _ _ _).mpr ⟨fun _ => by simp [Left], fun _ => .inr ready⟩
  | postReturned =>
    have hrun : t.run = .left := ready
    exact (Prog.wlp_pure _ _ _ _).mpr ⟨fun _ => by simp [Left], fun _ => .inl (by simp [Left, hrun])⟩
  | assertStopped =>
    have hrun : t.run = .posted := ready
    simp only [EventLoopThread.runStep, Prog.wlp_bind, LoopExec.wlp_assert, Prog.wlp_pure]
    exact fun _ => ⟨fun _ => by simp [Left], fun _ => .inl (by simp [Left, hrun])⟩
  | store =>
    have hrun : t.run = .asserted := ready
    exact (Prog.wlp_pure _ _ _ _).mpr ⟨fun _ => by simp [Left], fun _ => .inl (by simp [Left, hrun])⟩

/-- Of `run`, only `pre` can tell the loop to stop. -/
theorem runStep_stopped (notPre : ∀ rc, e ≠ .preReturned rc) :
    (t.runStep e).wlp build () fun t' _ => t'.loop.stopped = t.loop.stopped := by
  cases e with
  | preReturned rc => exact absurd rfl (notPre rc)
  | assertStopped =>
    simp only [EventLoopThread.runStep, Prog.wlp_bind, LoopExec.wlp_assert, Prog.wlp_pure, implies_true]
  | _ => exact (Prog.wlp_pure _ _ _ _).mpr rfl

theorem startStep_spec : (t.startStep p).wlp build () fun r _ =>
    (∃ wait, p = .spawning wait ∧ r.1 = { t with thread := true, run := .begun } ∧
      r.2 = if wait then .waiting else .returned) ∨
    (r.1 = t ∧ (r.2 = p ∨ r.2 = .asserting ∨ r.2 = .returned)) := by
  cases p with
  | spawning wait =>
    simp only [startStep, Prog.wlp_bind, LoopExec.wlp_assert, Prog.wlp_pure]
    exact fun _ => .inl ⟨wait, rfl, trivial, rfl⟩
  | idle => exact (Prog.wlp_pure _ _ _ _).mpr (.inr ⟨rfl, .inl rfl⟩)
  | returned => exact (Prog.wlp_pure _ _ _ _).mpr (.inr ⟨rfl, .inl rfl⟩)
  | waiting => exact (Prog.wlp_pure _ _ _ _).mpr (.inr ⟨rfl, .inr (.inl rfl)⟩)
  | asserting =>
    simp only [startStep, Prog.wlp_bind, LoopExec.wlp_assert, Prog.wlp_pure]
    exact fun _ => .inr ⟨trivial, .inr (.inr trivial)⟩

theorem stopStep_spec : (t.stopStep q).wlp build () fun r _ =>
    r.1.run = t.run ∧ r.1.loop.status = t.loop.status ∧
    (r.1.status = t.status ∨ (∃ wait, q = .asserted wait) ∧ r.1.status = .kStopping) ∧
    (r.1.loop = t.loop ∨ (∃ wait, q = .stopping wait) ∧ r.1.loop = t.loop.stop) := by
  cases q with
  | idle => exact (Prog.wlp_pure _ _ _ _).mpr ⟨rfl, rfl, .inl rfl, .inl rfl⟩
  | called wait =>
    simp only [stopStep, Prog.wlp_bind, LoopExec.wlp_assert, Prog.wlp_pure]
    exact fun _ => ⟨trivial, trivial, .inl trivial, .inl trivial⟩
  | tested wait =>
    simp only [stopStep, Prog.wlp_bind, LoopExec.wlp_assert, Prog.wlp_pure]
    exact fun _ => ⟨trivial, trivial, .inl trivial, .inl trivial⟩
  | asserted wait => exact (Prog.wlp_pure _ _ _ _).mpr ⟨rfl, rfl, .inr ⟨⟨wait, rfl⟩, rfl⟩, .inl rfl⟩
  | stopping wait => exact (Prog.wlp_pure _ _ _ _).mpr ⟨rfl, rfl, .inl rfl, .inr ⟨⟨wait, rfl⟩, rfl⟩⟩
  | waiting => exact (Prog.wlp_pure _ _ _ _).mpr ⟨rfl, rfl, .inl rfl, .inl rfl⟩
  | joining => exact (Prog.wlp_pure _ _ _ _).mpr ⟨rfl, rfl, .inl rfl, .inl rfl⟩

theorem Sound.startStep (h : t.Sound) (unborn : ∀ wait, p = .spawning wait → t.run = .unborn) :
    (t.startStep p).wlp build () fun r _ => r.1.Sound := by
  refine startStep_spec.imp ?_
  rintro ⟨t', p'⟩ _ (⟨wait, hp, rfl, _⟩ | ⟨rfl, _⟩)
  · have hrun := unborn wait hp
    exact ⟨fun hs => absurd hs (h.not_stopped (by rw [hrun]; decide)), nofun, nofun⟩
  · exact h

theorem Sound.stopStep (h : t.Sound) : (t.stopStep q).wlp build () fun r _ => r.1.Sound := by
  refine stopStep_spec.imp ?_
  rintro ⟨t', q'⟩ _ ⟨hrun, hloopStatus, hstatus, hloop⟩
  refine ⟨fun hs => ?_, fun hleft => ?_, fun hworking => ?_⟩
  · rw [hrun]
    rcases hstatus with hsame | ⟨_, hstopping⟩
    · exact h.stopped (hsame.symm.trans hs)
    · cases hstopping.symm.trans hs
  · rw [hloopStatus]
    exact h.left (by rwa [Left, hrun] at hleft)
  · rw [hrun] at hworking
    rcases hloop with hsame | ⟨_, hstopped⟩
    · rw [hsame]
      exact h.working hworking
    · rw [hstopped]
      exact .inr rfl

end EventLoopThread

/-! ## Calls of `stop` that are in time -/

/-- The store of `kStopping` follows, whatever the status is by then. -/
def StopPc.Pending (build : Build) : StopPc → Prop
  | .asserted _ => True
  | .called _ | .tested _ => build = .release
  | _ => False

theorem StopPc.not_pending_update {ι : Type} [DecidableEq ι] {build : Build} {stops : ι → StopPc}
    (h : ∀ c, ¬ (stops c).Pending build) {c : ι} {q : StopPc} (hq : ¬ q.Pending build) (d : ι) :
    ¬ (update stops c q d).Pending build := by
  by_cases hd : d = c
  · subst hd
    rwa [Function.update_self]
  · rw [Function.update_of_ne hd]
    exact h d

namespace ThreadWorld

variable {ι : Type} [DecidableEq ι] {build : Build} {s s' : ThreadWorld ι} {a : ThreadAction ι}
  {as : List (ThreadAction ι)}

/-- `run` makes its last store while no `stop` is about to store; in a Release build, where
    `stop` asserts nothing, it is not called on a thread that has exited. -/
def StopsInTime (build : Build) (s : ThreadWorld ι) : ThreadAction ι → Prop
  | .run .store => ∀ c, ¬ (s.stops c).Pending build
  | .stop _ _ => build = .release → s.thread.run ≠ .exited
  | _ => True

structure Settled (build : Build) (s : ThreadWorld ι) : Prop where
  sound : s.thread.Sound
  unborn : s.start = .idle ∨ (∃ wait, s.start = .spawning wait) → s.thread.run = .unborn
  exited : s.thread.run = .exited → s.thread.status = .kStopped ∧ ∀ c, ¬ (s.stops c).Pending build

omit [DecidableEq ι] in
theorem Settled.not_exited_of_start (h : Settled build s)
    (hstart : s.start = .idle ∨ ∃ wait, s.start = .spawning wait) : s.thread.run ≠ .exited := by
  rw [h.unborn hstart]
  decide

theorem Settled.startNext (h : Settled build s) :
    (s.exec .startNext).wlp build () fun s' _ => Settled build s' := by
  simp only [exec, Prog.wlp_bind, Prog.wlp_pure]
  have hunborn : ∀ wait, s.start = .spawning wait → s.thread.run = .unborn :=
    fun wait hw => h.unborn (.inr ⟨wait, hw⟩)
  rintro ⟨t, p⟩ _ hdone
  have hsound := h.sound.startStep hunborn _ _ hdone
  rcases EventLoopThread.startStep_spec _ _ hdone with ⟨wait, hw, rfl, rfl⟩ | ⟨rfl, hp⟩
  · refine ⟨hsound, fun hstart => ?_, (by simp)⟩
    cases wait <;> simp at hstart
  · refine ⟨hsound, fun hstart => h.unborn ?_, h.exited⟩
    rcases hp with rfl | rfl | rfl
    · exact hstart
    · simp at hstart
    · simp at hstart

theorem Settled.run (h : Settled build s) {e : RunStep} (ready : s.thread.Ready e)
    (condition : StopsInTime build s (.run e)) :
    (s.exec (.run e)).wlp build () fun s' _ => Settled build s' := by
  simp only [exec, Prog.wlp_bind, Prog.wlp_pure]
  intro t _ hdone
  refine ⟨h.sound.runStep ready _ _ hdone, fun hstart => ?_, fun hexit => ?_⟩
  · have hrun := h.unborn hstart
    exfalso
    cases e <;> simp [EventLoopThread.Ready, hrun] at ready
  · obtain ⟨rfl, hstatus⟩ := EventLoopThread.runStep_exited _ _ hdone hexit
    exact ⟨hstatus, condition⟩

omit [DecidableEq ι] in
/-- A `stop` that finds the thread exited does not get past its assertion. -/
theorem Settled.stopStep_not_pending (h : Settled build s) (hexit : s.thread.run = .exited) {c : ι} :
    (s.thread.stopStep (s.stops c)).wlp build () fun r _ => ¬ r.2.Pending build := by
  obtain ⟨hstatus, hpending⟩ := h.exited hexit
  have hloop := h.sound.left (by rw [EventLoopThread.Left, hexit]; decide)
  cases hq : s.stops c with
  | called wait =>
    have hbuild : build = .debug := by
      cases build with
      | debug => rfl
      | release => exact absurd (by rw [hq]; rfl) (hpending c)
    simp only [EventLoopThread.stopStep, Prog.wlp_bind, LoopExec.wlp_assert, Prog.wlp_pure, hstatus]
    exact fun htest => absurd (htest hbuild) (by decide)
  | tested wait =>
    have hbuild : build = .debug := by
      cases build with
      | debug => rfl
      | release => exact absurd (by rw [hq]; rfl) (hpending c)
    simp only [EventLoopThread.stopStep, Prog.wlp_bind, LoopExec.wlp_assert, Prog.wlp_pure,
      EventLoopThread.isRunning, EventLoop.isRunning, hloop]
    exact fun htest => absurd (htest hbuild) (by decide)
  | asserted wait => exact absurd (by rw [hq]; trivial) (hpending c)
  | stopping wait => cases wait <;> exact (Prog.wlp_pure _ _ _ _).mpr id
  | waiting =>
    rw [EventLoopThread.stopStep, Prog.wlp_pure]
    split <;> exact id
  | _ => exact (Prog.wlp_pure _ _ _ _).mpr id

theorem Settled.stopNext (h : Settled build s) (c : ι) :
    (s.exec (.stopNext c)).wlp build () fun s' _ => Settled build s' := by
  simp only [exec, Prog.wlp_bind, Prog.wlp_pure]
  rintro ⟨t, q⟩ _ hdone
  have hsound := h.sound.stopStep _ _ hdone
  obtain ⟨hrun, _, hstatus, _⟩ := EventLoopThread.stopStep_spec _ _ hdone
  refine ⟨hsound, fun hstart => hrun.trans (h.unborn hstart), fun hexit => ?_⟩
  obtain ⟨hkStopped, hpending⟩ := h.exited (hrun.symm.trans hexit)
  constructor
  · rcases hstatus with hsame | ⟨⟨wait, hq⟩, _⟩
    · exact hsame.trans hkStopped
    · exact absurd (by rw [hq]; trivial) (hpending c)
  · apply StopPc.not_pending_update hpending
    exact h.stopStep_not_pending (hrun.symm.trans hexit) _ _ hdone

theorem Settled.step (h : Settled build s) (enabled : s.Enabled a) (condition : StopsInTime build s a) :
    (s.exec a).wlp build () fun s' _ => Settled build s' := by
  cases a with
  | start wait =>
    rw [exec, Prog.wlp_pure]
    exact ⟨h.sound.start, fun _ => h.unborn (.inl enabled.2),
      fun hexit => absurd hexit (h.not_exited_of_start (.inl enabled.2))⟩
  | startNext => exact h.startNext
  | run e => exact h.run enabled.2 condition
  | stop c wait =>
    rw [exec, Prog.wlp_pure]
    refine ⟨h.sound, h.unborn, fun hexit => ⟨(h.exited hexit).1, ?_⟩⟩
    exact StopPc.not_pending_update (h.exited hexit).2 fun hbuild => condition hbuild hexit
  | stopNext c => exact h.stopNext c
  | stopLoop =>
    rw [exec, Prog.wlp_pure]
    exact ⟨h.sound.stopLoop, h.unborn, h.exited⟩
  | destroy =>
    simp only [exec, Prog.wlp_bind, LoopExec.wlp_assert, Prog.wlp_pure]
    exact fun _ => ⟨h.sound.join, h.unborn, h.exited⟩

theorem run_settled (h : (machine ι).Run build (fun _ s _ a => StopsInTime build s a) as s ()) :
    Settled build s := by
  refine h.invariant (I := fun s _ => Settled build s) ?_ ?_
  · rintro _ _ rfl
    exact ⟨EventLoopThread.sound_new, fun _ => rfl, nofun⟩
  · intro as s m a s' m' _ hsettled enabled condition done
    exact hsettled.step enabled condition _ _ done

theorem Settled.stays_exited (h : Settled build s) (enabled : s.Enabled a)
    (exited : s.thread.run = .exited) :
    (s.exec a).wlp build () fun s' _ => s'.thread.run = .exited := by
  cases a with
  | start wait => exact absurd exited (h.not_exited_of_start (.inl enabled.2))
  | startNext =>
    simp only [exec, Prog.wlp_bind, Prog.wlp_pure]
    refine EventLoopThread.startStep_spec.imp ?_
    rintro ⟨t, p⟩ _ (⟨wait, hp, _, _⟩ | ⟨rfl, _⟩)
    · exact absurd exited (h.not_exited_of_start (.inr ⟨wait, hp⟩))
    · exact exited
  | run e =>
    have ready := enabled.2
    exfalso
    cases e <;> simp [EventLoopThread.Ready, exited] at ready
  | stopNext c =>
    simp only [exec, Prog.wlp_bind, Prog.wlp_pure]
    exact EventLoopThread.stopStep_spec.imp fun _ _ hspec => hspec.1.trans exited
  | destroy =>
    simp only [exec, Prog.wlp_bind, LoopExec.wlp_assert, Prog.wlp_pure]
    exact fun _ => exited
  | _ => exact (Prog.wlp_pure _ _ _ _).mpr exited

/-- If no `stop` is late, `kStopped` is final.  In every state `s'` that follows the end of
    `run` it is the status of the thread, the next look of a waiting `stop` ends its wait,
    and the assertion of the destructor holds. -/
theorem stopped_is_final (h : (machine ι).Run build (fun _ s _ a => StopsInTime build s a) as s ())
    (exited : s.thread.run = .exited)
    (later : (machine ι).Stretch build (fun s _ a => StopsInTime build s a) s () s' ()) :
    s'.thread.status = .kStopped ∧
    (∀ c, s'.stops c = .waiting →
      s'.exec (.stopNext c) build () = .ok ({ s' with stops := update s'.stops c .joining }, ())) ∧
    s'.exec .destroy build () = .ok ({ s' with thread := s'.thread.join, destroyed := true }, ()) := by
  have hlater : Settled build s' ∧ s'.thread.run = .exited := by
    apply later.invariant (I := fun s' _ => Settled build s' ∧ s'.thread.run = .exited)
      ⟨run_settled h, exited⟩
    rintro s m a s' m' ⟨hsettled, hexited⟩ enabled condition done
    exact ⟨hsettled.step enabled condition _ _ done, hsettled.stays_exited enabled hexited _ _ done⟩
  obtain ⟨hsettled, hexited⟩ := hlater
  have hstatus := (hsettled.exited hexited).1
  have hstopped : s'.thread.isStopped = true := by
    rw [EventLoopThread.isStopped, hstatus]
    rfl
  refine ⟨hstatus, fun c hc => ?_, ?_⟩
  · show (do
      let r ← s'.thread.stopStep (s'.stops c)
      pure { s' with thread := r.1, stops := update s'.stops c r.2 } : LoopExec _) build () = _
    rw [hc, EventLoopThread.stopStep, hstopped]
    rfl
  · show (do
      LoopExec.assert s'.thread.isStopped
      pure { s' with thread := s'.thread.join, destroyed := true } : LoopExec _) build () = _
    rw [hstopped]
    cases build <;> rfl

/-- A `stop` that is about to store when `run` makes its last store takes `kStopped` back. -/
theorem pending_stop_overwrites {c : ι} {wait : Bool} (pending : s.stops c = .asserted wait) :
    (do let s ← s.exec (.run .store); s.exec (.stopNext c) : LoopExec (ThreadWorld ι)).wp build ()
      fun s' _ => s'.thread.run = .exited ∧ s'.thread.status = .kStopping := by
  simp only [exec, EventLoopThread.runStep, pending, EventLoopThread.stopStep, Prog.wp_bind,
    Prog.wp_pure, and_self]

theorem next {P : List (ThreadAction ι) → ThreadWorld ι → Unit → ThreadAction ι → Prop}
    (h : (machine ι).Run build P as s ()) (a : ThreadAction ι) (enabled : s.Enabled a)
    (condition : P as s () a) (done : s.exec a build () = .ok (s', ())) :
    (machine ι).Run build P (as ++ [a]) s' () := h.step a enabled condition done

/-- A thread is started, its `pre` succeeds, and a `stop` ends it. -/
theorem stopped_is_final_stop : ∃ (as : List (ThreadAction Unit)) (s : ThreadWorld Unit),
    (machine Unit).Run .debug (fun _ s _ a => StopsInTime .debug s a) as s () ∧
    s.thread.run = .exited ∧ s.stops () = .waiting ∧ s.thread.status = .kStopped := by
  have r : (machine Unit).Run .debug (fun _ s _ a => StopsInTime .debug s a) [] {} () := .start rfl
  have r := next r (.start false) ⟨rfl, rfl⟩ trivial rfl
  have r := next r .startNext ⟨rfl, trivial⟩ trivial rfl
  have r := next r (.run .begin) ⟨rfl, rfl⟩ trivial rfl
  have r := next r (.run .announce) ⟨rfl, rfl, rfl, rfl⟩ trivial rfl
  have r := next r (.run .countDown) ⟨rfl, rfl⟩ trivial rfl
  have r := next r (.run (.preReturned 0)) ⟨rfl, rfl⟩ trivial rfl
  have r := next r (.stop () true) ⟨rfl, rfl⟩ (by intro h; cases h) rfl
  have r := next r (.stopNext ()) ⟨rfl, trivial⟩ trivial rfl
  have r := next r (.stopNext ()) ⟨rfl, trivial⟩ trivial rfl
  have r := next r (.stopNext ()) ⟨rfl, trivial⟩ trivial rfl
  have r := next r (.stopNext ()) ⟨rfl, trivial⟩ trivial rfl
  have r := next r (.run .leave) ⟨rfl, rfl, .inl rfl⟩ trivial rfl
  have r := next r (.run .postReturned) ⟨rfl, rfl⟩ trivial rfl
  have r := next r (.run .assertStopped) ⟨rfl, rfl⟩ trivial rfl
  have r := next r (.run .store) ⟨rfl, rfl⟩ (fun _ => id) rfl
  exact ⟨_, _, r, rfl, rfl, (stopped_is_final r rfl .nil).1⟩

/-- A `pre` that fails while a `stop` stands between its assertion and its store: the thread
    exits, and its status goes from `kStopped` to `kStopping`. -/
theorem late_stop_overwrites :
    ¬ ∀ (ι : Type) [DecidableEq ι] (as : List (ThreadAction ι)) (s s' : ThreadWorld ι),
      (machine ι).Run .debug (fun _ _ _ _ => True) as s () → s.thread.run = .exited →
      (machine ι).Stretch .debug (fun _ _ _ => True) s () s' () → s'.thread.status = .kStopped := by
  intro hfinal
  have r : (machine Unit).Run .debug (fun _ _ _ _ => True) [] {} () := .start rfl
  have r := next r (.start false) ⟨rfl, rfl⟩ trivial rfl
  have r := next r .startNext ⟨rfl, trivial⟩ trivial rfl
  have r := next r (.run .begin) ⟨rfl, rfl⟩ trivial rfl
  have r := next r (.run .announce) ⟨rfl, rfl, rfl, rfl⟩ trivial rfl
  have r := next r (.run .countDown) ⟨rfl, rfl⟩ trivial rfl
  have r := next r (.stop () true) ⟨rfl, rfl⟩ trivial rfl
  have r := next r (.stopNext ()) ⟨rfl, trivial⟩ trivial rfl
  have r := next r (.stopNext ()) ⟨rfl, trivial⟩ trivial rfl
  have r := next r (.run (.preReturned 1)) ⟨rfl, rfl⟩ trivial rfl
  have r := next r (.run .leave) ⟨rfl, rfl, .inl rfl⟩ trivial rfl
  have r := next r (.run .postReturned) ⟨rfl, rfl⟩ trivial rfl
  have r := next r (.run .assertStopped) ⟨rfl, rfl⟩ trivial rfl
  have r := next r (.run .store) ⟨rfl, rfl⟩ trivial rfl
  have hstatus := hfinal Unit _ _ _ r rfl (.step (.stopNext ()) .nil ⟨rfl, trivial⟩ trivial rfl)
  cases hstatus

end ThreadWorld

end Netpp
