import Netpp.Loop.PoolStatus

/-! # The callback of `stop`

`stop(fn)` stores `fn` in `stopped_cb_` before it tells the first loop to stop, and the
last thread that counts itself in `postfn` calls it.

* `Phase` tells the four stretches of a run apart: before the call of `stop`, before the
  assignment, before the last thread calls `fn`, and after it.
* `callback_once_last`: `fn` is called at most once, when all threads have left their
  loops, and has been called when all of them have exited.
-/

namespace Netpp.Loop

open Function (update)
open ServerStatus

/-- The thread has drawn the last number and has not called `stopped_cb_`. -/
def HookPc.LastOut (n : Nat) (h : HookPc) : Prop := h = .exited n ∨ h = .calling

namespace EventLoopThreadPool

variable {n : Nat} {ι φ : Type} {build : Build} {fn : φ} {s s' : EventLoopThreadPool n ι φ}
  {a : PoolAction n ι φ} {as : List (PoolAction n ι φ)}

def AllRunning (s : EventLoopThreadPool n ι φ) : Prop :=
  ∀ i, (s.threads i).status = .kRunning ∧ (s.threads i).isRunning = true

/-- The only call of `stop` is one of `stop(fn)`, when all threads are running. -/
def StopsOnce (fn : φ) (as : List (PoolAction n ι φ)) (s : EventLoopThreadPool n ι φ) :
    PoolAction n ι φ → Prop
  | .stop _ wait f => wait = false ∧ f = some fn ∧ s.AllRunning ∧ ∀ b ∈ as, b.isStop = false
  | _ => True

/-! ## Phases -/

/-- No loop has been told to stop. -/
structure Untold (s : EventLoopThreadPool n ι φ) : Prop where
  loops : ∀ i, (s.threads i).loop.stopped = false
  inside : ∀ i, ¬ (s.threads i).Left
  invoked : s.invoked = []

structure Uncalled (s : EventLoopThreadPool n ι φ) : Prop where
  idle : ∀ c, s.stops c = .idle
  untold : Untold s

/-- No call of `stop` is before its assignment. -/
def Assigned (s : EventLoopThreadPool n ι φ) : Prop := ∀ c wait f, s.stops c ≠ .called wait f

inductive Phase (fn : φ) (s : EventLoopThreadPool n ι φ) : Prop
  | uncalled (h : Uncalled s)
  | called (c : ι) (pc : s.stops c = .called false (some fn)) (others : ∀ d, d ≠ c → s.stops d = .idle)
      (untold : Untold s)
  | assigned (behind : Assigned s) (cb : s.stoppedCb = some fn) (invoked : s.invoked = [])
      (last : s.exitedCount = n → ∃ i, (s.threads i).hook.LastOut n)
  | invoked (behind : Assigned s) (cb : s.stoppedCb = none) (invoked : s.invoked = [fn])
      (count : s.exitedCount = n) (none : ∀ i, ¬ (s.threads i).hook.LastOut n)

/-- What most steps leave as it is. -/
structure Frame (s s' : EventLoopThreadPool n ι φ) : Prop where
  lastOut : ∀ i, (s'.threads i).hook.LastOut n ↔ (s.threads i).hook.LastOut n
  count : s'.exitedCount = s.exitedCount
  cb : s'.stoppedCb = s.stoppedCb
  invoked : s'.invoked = s.invoked

theorem frame_update {i : Fin n} {u : PoolThread} (threads : s'.threads = update s.threads i u)
    (hook : u.hook.LastOut n ↔ (s.threads i).hook.LastOut n) (count : s'.exitedCount = s.exitedCount)
    (cb : s'.stoppedCb = s.stoppedCb) (invoked : s'.invoked = s.invoked) : Frame s s' := by
  refine ⟨?_, count, cb, invoked⟩
  rw [threads]
  exact (Function.forall_update_iff s.threads fun j t =>
    t.hook.LastOut n ↔ (s.threads j).hook.LastOut n).mpr ⟨hook, fun _ _ => Iff.rfl⟩

theorem Untold.update (h : Untold s) {i : Fin n} {u : PoolThread} (threads : s'.threads = update s.threads i u)
    (loop : u.loop.stopped = false) (left : ¬ u.Left) (invoked : s'.invoked = s.invoked) : Untold s' := by
  refine ⟨?_, ?_, invoked.trans h.invoked⟩
  · rw [threads]
    exact (Function.forall_update_iff s.threads fun _ t => t.loop.stopped = false).mpr
      ⟨loop, fun j _ => h.loops j⟩
  · rw [threads]
    exact (Function.forall_update_iff s.threads fun _ t => ¬ t.Left).mpr ⟨left, fun j _ => h.inside j⟩

/-- While no loop has been told to stop, no thread has counted itself. -/
theorem Untold.count (h : Untold s) (htracked : Tracked s) (hn : 0 < n) : s.exitedCount ≠ n := by
  intro hcount
  exact h.inside ⟨0, hn⟩ (htracked.all_left hcount ⟨0, hn⟩)

theorem runStep_untold {t : EventLoopThread} {e : RunStep} (sound : t.Sound) (ready : t.Ready e)
    (notPre : ∀ rc, e ≠ .preReturned rc) (loop : t.loop.stopped = false) (left : ¬ t.Left) :
    (t.runStep e).wlp build () fun t' _ => t'.loop.stopped = false ∧ ¬ t'.Left := by
  intro t' u done
  refine ⟨(EventLoopThread.runStep_stopped notPre _ _ done).trans loop, fun hleft => ?_⟩
  rcases (EventLoopThread.runStep_left ready _ _ done).2 hleft with hold | ⟨hrun, hcan⟩
  · exact left hold
  · rcases hcan with hstopped | ⟨hwork, _⟩
    · exact absurd (loop.symm.trans hstopped) Bool.false_ne_true
    · rcases sound.working (by rw [hrun]; decide) with hw | hs
      · exact absurd (hwork.symm.trans hw) Bool.false_ne_true
      · exact absurd (loop.symm.trans hs) Bool.false_ne_true

theorem Phase.quiet (h : Phase fn s) (frame : Frame s s') (stops : s'.stops = s.stops)
    (untold : Untold s → Untold s') : Phase fn s' ∧ (Uncalled s → Uncalled s') := by
  have huncalled : Uncalled s → Uncalled s' := fun h => ⟨by rw [stops]; exact h.idle, untold h.untold⟩
  refine ⟨?_, huncalled⟩
  cases h with
  | uncalled h => exact .uncalled (huncalled h)
  | called c pc others h =>
    exact .called c (by rw [stops]; exact pc) (by rw [stops]; exact others) (untold h)
  | assigned behind cb invoked last =>
    refine .assigned (by rw [Assigned, stops]; exact behind) (frame.cb.trans cb)
      (frame.invoked.trans invoked) fun hcount => ?_
    obtain ⟨i, hi⟩ := last (frame.count.symm.trans hcount)
    exact ⟨i, (frame.lastOut i).mpr hi⟩
  | invoked behind cb invoked count none =>
    exact .invoked (by rw [Assigned, stops]; exact behind) (frame.cb.trans cb)
      (frame.invoked.trans invoked) (frame.count.trans count) fun i hi => none i ((frame.lastOut i).mp hi)

theorem Phase.stopMoves (h : Phase fn s) (frame : Frame s s') {c : ι} [DecidableEq ι] {p : PoolStopPc n φ}
    (stops : s'.stops = update s.stops c p) (hp : ∀ wait f, p ≠ .called wait f) (started : s.stops c ≠ .idle)
    (behind : ∀ wait f, s.stops c ≠ .called wait f) : Phase fn s' ∧ (Uncalled s → Uncalled s') := by
  have hbehind : Assigned s → Assigned s' := by
    intro h
    rw [Assigned, stops]
    exact (Function.forall_update_iff s.stops fun _ p => ∀ wait f, p ≠ .called wait f).mpr
      ⟨hp, fun d _ => h d⟩
  refine ⟨?_, fun h => absurd (h.idle c) started⟩
  cases h with
  | uncalled h => exact absurd (h.idle c) started
  | called c' pc others untold =>
    by_cases hc : c = c'
    · rw [hc] at behind
      exact absurd pc (behind _ _)
    · exact absurd (others c hc) started
  | assigned h cb invoked last =>
    refine .assigned (hbehind h) (frame.cb.trans cb) (frame.invoked.trans invoked) fun hcount => ?_
    obtain ⟨i, hi⟩ := last (frame.count.symm.trans hcount)
    exact ⟨i, (frame.lastOut i).mpr hi⟩
  | invoked h cb invoked count none =>
    exact .invoked (hbehind h) (frame.cb.trans cb) (frame.invoked.trans invoked)
      (frame.count.trans count) fun i hi => none i ((frame.lastOut i).mp hi)

variable [DecidableEq ι]

theorem Phase.step (hn : 0 < n) (h : Phase fn s) (htracked : Tracked s)
    (hstep : PoolStep build s a s') (hstop : a.isStop = false) :
    Phase fn s' ∧ (Uncalled s → Uncalled s') := by
  have hframe : ∀ {t : EventLoopThreadPool n ι φ}, t.threads = s.threads → t.exitedCount = s.exitedCount →
      t.stoppedCb = s.stoppedCb → t.invoked = s.invoked → Frame s t :=
    fun threads count cb invoked => ⟨by rw [threads]; exact fun _ => Iff.rfl, count, cb, invoked⟩
  cases hstep with
  | start wait i idle =>
    exact h.quiet (hframe rfl rfl rfl rfl) rfl fun h => ⟨h.loops, h.inside, h.invoked⟩
  | startEmpty wait idle empty => omega
  | startMoves p unborn started =>
    exact h.quiet (hframe rfl rfl rfl rfl) rfl fun h => ⟨h.loops, h.inside, h.invoked⟩
  | startThread i wait pc =>
    exact h.quiet (frame_update rfl Iff.rfl rfl rfl rfl) rfl fun h =>
      h.update rfl (h.loops i) (h.inside i) rfl
  | spawn i wait w p pc behind =>
    exact h.quiet (frame_update rfl Iff.rfl rfl rfl rfl) rfl fun h =>
      h.update rfl (h.loops i) (by simp [EventLoopThread.Left]) rfl
  | run i e t ready notPre notPost done =>
    refine h.quiet (frame_update rfl Iff.rfl rfl rfl rfl) rfl fun h => ?_
    obtain ⟨hloop, hleft⟩ :=
      runStep_untold (htracked.sound i) ready notPre (h.loops i) (h.inside i) _ _ done
    exact h.update rfl hloop hleft rfl
  | countStarted i run hook =>
    refine h.quiet (frame_update rfl ?_ rfl rfl rfl) rfl fun h => h.update rfl (h.loops i) (h.inside i) rfl
    simp [HookPc.LastOut, hook]
  | started i count run hook =>
    refine h.quiet (frame_update rfl ?_ rfl rfl rfl) rfl fun h =>
      h.update rfl (h.loops i) (by simp [EventLoopThread.Left]) rfl
    simp [HookPc.LastOut, hook]
  | countExited i run hook =>
    have hleft : (s.threads i).Left := by simp [EventLoopThread.Left, run]
    refine ⟨?_, fun h => absurd hleft (h.untold.inside i)⟩
    cases h with
    | uncalled h => exact absurd hleft (h.untold.inside i)
    | called c pc others h => exact absurd hleft (h.inside i)
    | assigned behind cb invoked last =>
      exact .assigned behind cb invoked fun hcount => ⟨i, by simp [HookPc.LastOut, ← hcount]⟩
    | invoked behind cb invoked count none =>
      have hnot : ¬ (s.threads i).hook.Counted := by
        rcases hook with hook | hook <;> rw [hook] <;> exact id
      exact absurd count (htracked.count_lt hnot).ne
  | lastExited i run hook =>
    refine h.quiet (frame_update rfl ?_ rfl rfl rfl) rfl fun h => absurd ?_ (h.inside i)
    · simp [HookPc.LastOut, hook]
    · simp [EventLoopThread.Left, run]
  | exited i count run hook notLast =>
    refine h.quiet (frame_update rfl ?_ rfl rfl rfl) rfl fun h => absurd ?_ (h.inside i)
    · simp [HookPc.LastOut, hook, notLast]
    · simp [EventLoopThread.Left, run]
  | callback i run hook =>
    have hleft : (s.threads i).Left := by simp [EventLoopThread.Left, run]
    refine ⟨?_, fun h => absurd hleft (h.untold.inside i)⟩
    cases h with
    | uncalled h => exact absurd hleft (h.untold.inside i)
    | called c pc others h => exact absurd hleft (h.inside i)
    | assigned behind cb invoked last =>
      obtain ⟨hcount, hunique⟩ := htracked.calling i hook
      refine .invoked behind rfl (by simp [invoked, cb]) hcount ?_
      refine (Function.forall_update_iff s.threads fun _ t => ¬ t.hook.LastOut n).mpr ⟨?_, fun j hj => ?_⟩
      · simp [HookPc.LastOut]
      · rintro (hexited | hcalling)
        · exact (hunique j).1 hexited
        · exact hj ((hunique j).2 hcalling)
    | invoked behind cb invoked count none => exact absurd (.inr hook) (none i)
  | stop c wait f returned idle => cases hstop
  | stopEmpty c wait f pc empty => omega
  | assign c wait f i pc =>
    refine ⟨?_, fun h => by cases pc.symm.trans (h.idle c)⟩
    cases h with
    | uncalled h => cases pc.symm.trans (h.idle c)
    | assigned behind cb invoked last => exact absurd pc (behind c wait f)
    | invoked behind cb invoked count none => exact absurd pc (behind c wait f)
    | called c' pc' others untold =>
      have hc : c = c' := by
        by_contra hne
        cases pc.symm.trans (others c hne)
      subst hc
      cases pc.symm.trans pc'
      refine .assigned ?_ rfl untold.invoked fun hcount => absurd hcount (untold.count htracked hn)
      refine (Function.forall_update_iff s.stops fun _ p => ∀ wait f, p ≠ .called wait f).mpr
        ⟨(by simp), fun d hd => ?_⟩
      rw [others d hd]
      simp
  | stopThread c i wait q q' t pc done =>
    exact h.stopMoves (frame_update rfl Iff.rfl rfl rfl rfl) rfl (by simp) (by rw [pc]; simp) (by rw [pc]; simp)
  | nextThread c i j wait pc hj =>
    exact h.stopMoves (hframe rfl rfl rfl rfl) rfl (by simp) (by rw [pc]; simp) (by rw [pc]; simp)
  | allTold c i j wait pc last hj =>
    exact h.stopMoves (hframe rfl rfl rfl rfl) rfl (by cases wait <;> simp)
      (by rw [pc]; simp) (by rw [pc]; simp)
  | looked c i j pc stopped hj =>
    exact h.stopMoves (hframe rfl rfl rfl rfl) rfl (by simp) (by rw [pc]; simp) (by rw [pc]; simp)
  | lookedLast c i pc stopped last =>
    exact h.stopMoves (hframe rfl rfl rfl rfl) rfl (by simp) (by rw [pc]; simp) (by rw [pc]; simp)
  | lookAgain c i j pc hj =>
    exact h.stopMoves (hframe rfl rfl rfl rfl) rfl (by simp) (by rw [pc]; simp) (by rw [pc]; simp)
  | finish c wait pc =>
    exact h.stopMoves (hframe rfl rfl rfl rfl) rfl (by simp) (by rw [pc]; simp) (by rw [pc]; simp)

theorem run_phase (hn : 0 < n) (h : (machine n ι φ).Run build (fun as s _ a => StopsOnce fn as s a) as s ()) :
    Phase fn s ∧ ((∀ a ∈ as, a.isStop = false) → Uncalled s) := by
  apply h.history (I := fun as s _ => Phase fn s ∧ ((∀ a ∈ as, a.isStop = false) → Uncalled s))
  · rintro _ _ rfl
    have huncalled : Uncalled ({} : EventLoopThreadPool n ι φ) :=
      ⟨fun _ => rfl, fun _ => rfl, fun _ => by simp [EventLoopThread.Left], rfl⟩
    exact ⟨.uncalled huncalled, fun _ => huncalled⟩
  · rintro as s _ a s' _ hrun ⟨hphase, huncalled⟩ enabled condition done
    have hstep := exec_step enabled _ _ done
    by_cases hstop : a.isStop = true
    · cases hstep with
      | stop c wait f returned idle =>
        obtain ⟨rfl, rfl, _, hfirst⟩ := condition
        obtain ⟨hidle, hloops, hinside, hinvoked⟩ := huncalled hfirst
        refine ⟨.called c (Function.update_self ..) (fun d hd => ?_) ⟨hloops, hinside, hinvoked⟩,
          fun hnone => ?_⟩
        · exact (Function.update_of_ne hd _ _).trans (hidle d)
        · exact absurd hstop (by rw [hnone _ (List.mem_append_right _ (.head _))]; simp)
      | _ => cases hstop
    · obtain ⟨hphase', huncalled'⟩ :=
        hphase.step hn (run_tracked hrun) hstep (Bool.eq_false_iff.mpr hstop)
      exact ⟨hphase', fun hnone => huncalled' (huncalled fun b hb => hnone b (List.mem_append_left _ hb))⟩

/-- A pool of one or more threads with one call of `stop(fn)`, made when all threads run:
    `fn` is called at most once, when all threads have left their loops, and it has been
    called when all threads have stored `kStopped`. -/
theorem callback_once_last (hn : 0 < n)
    (h : (machine n ι φ).Run build (fun as s _ a => StopsOnce fn as s a) as s ()) :
    (s.invoked = [] ∨ s.invoked = [fn]) ∧ (s.invoked ≠ [] → ∀ i, (s.threads i).Left) ∧
    ((∀ i, (s.threads i).run = .exited) → s.invoked = [fn]) := by
  have htracked := run_tracked h
  cases (run_phase hn h).1 with
  | uncalled h =>
    refine ⟨.inl h.untold.invoked, fun hne => absurd h.untold.invoked hne, fun hexited => ?_⟩
    exact absurd (by simp [EventLoopThread.Left, hexited]) (h.untold.inside ⟨0, hn⟩)
  | called c pc others h =>
    refine ⟨.inl h.invoked, fun hne => absurd h.invoked hne, fun hexited => ?_⟩
    exact absurd (by simp [EventLoopThread.Left, hexited]) (h.inside ⟨0, hn⟩)
  | assigned behind cb invoked last =>
    refine ⟨.inl invoked, fun hne => absurd invoked hne, fun hexited => ?_⟩
    have hdone : ∀ i, (s.threads i).hook = .done := fun i =>
      (htracked.fits i).done.mpr (by simp [Behind, hexited i])
    have hall : ∀ i, (s.threads i).hook.Counted := fun i => by
      rw [hdone i]
      trivial
    have hcount : s.exitedCount = n := by
      rw [← htracked.counted, Family.card_having_of_all (p := fun t : PoolThread => t.hook.Counted) hall,
        Fintype.card_fin]
    obtain ⟨i, hi⟩ := last hcount
    simp [HookPc.LastOut, hdone i] at hi
  | invoked behind cb invoked count none =>
    exact ⟨.inr invoked, fun _ => htracked.all_left count, fun _ => invoked⟩

/-- A pool of one thread is started, and stopped by `stop(fn)`. -/
theorem callback_once_last_one :
    ∃ (as : List (PoolAction 1 Unit Nat)) (s : EventLoopThreadPool 1 Unit Nat),
      (machine 1 Unit Nat).Run .debug (fun as s _ a => StopsOnce 7 as s a) as s () ∧
      s.invoked = [7] ∧ ∀ i, (s.threads i).Left := by
  have r : (machine 1 Unit Nat).Run .debug (fun as s _ a => StopsOnce 7 as s a) [] {} () := .start rfl
  have r := run_next r (.start true) rfl trivial rfl
  have r := run_next r .startNext (.inl rfl) trivial rfl
  have r := run_next r .startNext (.inr (.inr trivial)) trivial rfl
  have r := run_next r (.run 0 .begin) ⟨rfl, nofun, nofun⟩ trivial rfl
  have r := run_next r (.run 0 .announce) ⟨⟨rfl, rfl, rfl⟩, nofun, nofun⟩ trivial rfl
  have r := run_next r (.run 0 .countDown) ⟨rfl, nofun, nofun⟩ trivial rfl
  have r := run_next r .startNext (.inr (.inr rfl)) trivial rfl
  have r := run_next r .startNext (.inr (.inr trivial)) trivial rfl
  have r := run_next r (.hook 0) trivial trivial rfl
  have r := run_next r (.hook 0) trivial trivial rfl
  have r := run_next r .startNext (.inr (.inl rfl)) trivial rfl
  have r := run_next r .startNext trivial trivial rfl
  have r := run_next r .startNext trivial trivial rfl
  have r := run_next r (.stop () false (some 7)) ⟨rfl, rfl⟩
    ⟨rfl, rfl, fun i => match i with | 0 => ⟨rfl, rfl⟩, by simp [PoolAction.isStop]⟩ rfl
  have r := run_next r (.stopNext ()) trivial trivial rfl
  have r := run_next r (.stopNext ()) (.inr trivial) trivial rfl
  have r := run_next r (.stopNext ()) (.inr trivial) trivial rfl
  have r := run_next r (.stopNext ()) (.inr trivial) trivial rfl
  have r := run_next r (.stopNext ()) (.inr trivial) trivial rfl
  have r := run_next r (.run 0 .leave) ⟨⟨rfl, .inl rfl⟩, nofun, nofun⟩ trivial rfl
  have r := run_next r (.hook 0) trivial trivial rfl
  have r := run_next r (.hook 0) trivial trivial rfl
  have r := run_next r (.hook 0) trivial trivial rfl
  have r := run_next r (.run 0 .assertStopped) ⟨rfl, nofun, nofun⟩ trivial rfl
  have r := run_next r (.run 0 .store) ⟨rfl, nofun, nofun⟩ trivial rfl
  have h := callback_once_last Nat.one_pos r
  have hinvoked := h.2.2 fun i => match i with | 0 => rfl
  exact ⟨_, _, r, hinvoked, h.2.1 (by rw [hinvoked]; nofun)⟩

end EventLoopThreadPool

end Netpp.Loop
