import Netpp.Loop.EventLoopThreadPool
import Netpp.Loop.ThreadStopped
import Netpp.Lib.Family

/-! # The threads of a pool

* `PoolStep` lists what a step of a pool does, and `exec_step` says that it is all it does.
* `Tracked`: the threads are sound, `exitedCount` is the number of threads that have
  counted themselves, and the number that makes a thread the last one is given out once.
* `run_tracked`: this holds in every run.
-/

namespace Netpp.Loop

open Function (update)
open ServerStatus

/-- `start` has not constructed thread `j` yet. -/
def PoolStartPc.Unborn {n : Nat} : PoolStartPc n → Fin n → Prop
  | .idle, _ => True
  | .starting i _ .idle, j | .starting i _ (.spawning _), j => i ≤ j
  | .starting i _ _, j => i < j
  | _, _ => False

def HookPc.Counted : HookPc → Prop
  | .exited _ | .calling | .done => True
  | _ => False

instance (h : HookPc) : Decidable h.Counted := by
  cases h <;> unfold HookPc.Counted <;> infer_instance

namespace EventLoopThreadPool

variable {n : Nat} {ι φ : Type} {build : Build} {s s' : EventLoopThreadPool n ι φ}
  {a : PoolAction n ι φ}

/-! ## What a step does -/

section Steps

variable [DecidableEq ι]

/-- What a step of a pool does. -/
inductive PoolStep (build : Build) (s : EventLoopThreadPool n ι φ) :
    PoolAction n ι φ → EventLoopThreadPool n ι φ → Prop
  | start (wait : Bool) (i : Fin n) (idle : s.start = .idle) :
      PoolStep build s (.start wait) { s with status := .kStarting, start := .starting i wait .idle }
  | startEmpty (wait : Bool) (idle : s.start = .idle) (empty : n = 0) :
      PoolStep build s (.start wait) { s with status := .kRunning, start := .returned }
  | startThread (i : Fin n) (wait : Bool) (pc : s.start = .starting i wait .idle) :
      PoolStep build s .startNext { s with
        threads := update s.threads i { s.threads i with toEventLoopThread := (s.threads i).start },
        start := .starting i wait (.spawning wait) }
  | spawn (i : Fin n) (wait w : Bool) (p : StartPc) (pc : s.start = .starting i wait (.spawning w))
      (behind : p = .waiting ∨ p = .returned) :
      PoolStep build s .startNext { s with
        threads := update s.threads i { s.threads i with thread := true, run := .begun },
        start := .starting i wait p }
  | startMoves (p : PoolStartPc n) (unborn : ∀ j, p.Unborn j → s.start.Unborn j) (started : p ≠ .idle) :
      PoolStep build s .startNext { s with start := p }
  | run (i : Fin n) (e : RunStep) (t : EventLoopThread) (ready : (s.threads i).Ready e)
      (notPre : ∀ rc, e ≠ .preReturned rc) (notPost : e ≠ .postReturned)
      (done : (s.threads i).runStep e build () = .ok (t, ())) :
      PoolStep build s (.run i e)
        { s with threads := update s.threads i { s.threads i with toEventLoopThread := t } }
  | countStarted (i : Fin n) (run : (s.threads i).run = .pre) (hook : (s.threads i).hook = .fresh) :
      PoolStep build s (.hook i) { s with
        threads := update s.threads i { s.threads i with hook := .started (s.startedCount + 1) },
        startedCount := s.startedCount + 1 }
  | started (i : Fin n) (count : Nat) (run : (s.threads i).run = .pre)
      (hook : (s.threads i).hook = .started count) :
      PoolStep build s (.hook i) { s with
        threads := update s.threads i { s.threads i with run := .looping, hook := .running },
        status := if count = n then .kRunning else s.status }
  | countExited (i : Fin n) (run : (s.threads i).run = .left)
      (hook : (s.threads i).hook = .fresh ∨ (s.threads i).hook = .running) :
      PoolStep build s (.hook i) { s with
        threads := update s.threads i { s.threads i with hook := .exited (s.exitedCount + 1) },
        exitedCount := s.exitedCount + 1 }
  | lastExited (i : Fin n) (run : (s.threads i).run = .left) (hook : (s.threads i).hook = .exited n) :
      PoolStep build s (.hook i) { s with
        threads := update s.threads i { s.threads i with hook := .calling }, status := .kStopped }
  | exited (i : Fin n) (count : Nat) (run : (s.threads i).run = .left)
      (hook : (s.threads i).hook = .exited count) (notLast : count ≠ n) :
      PoolStep build s (.hook i) { s with
        threads := update s.threads i { s.threads i with run := .posted, hook := .done } }
  | callback (i : Fin n) (run : (s.threads i).run = .left) (hook : (s.threads i).hook = .calling) :
      PoolStep build s (.hook i) { s with
        threads := update s.threads i { s.threads i with run := .posted, hook := .done },
        invoked := s.invoked ++ s.stoppedCb.toList, stoppedCb := none }
  | stop (c : ι) (wait : Bool) (fn : Option φ) (returned : s.start = .returned) (idle : s.stops c = .idle) :
      PoolStep build s (.stop c wait fn)
        { s with status := .kStopping, stops := update s.stops c (.called wait fn) }
  | stopEmpty (c : ι) (wait : Bool) (fn : Option φ) (pc : s.stops c = .called wait fn) (empty : n = 0) :
      PoolStep build s (.stopNext c) { s with
        status := .kStopped, invoked := s.invoked ++ fn.toList, stops := update s.stops c .idle }
  | assign (c : ι) (wait : Bool) (fn : Option φ) (i : Fin n) (pc : s.stops c = .called wait fn) :
      PoolStep build s (.stopNext c) { s with
        stoppedCb := fn, stops := update s.stops c (.stopping i wait (.called false)) }
  | stopThread (c : ι) (i : Fin n) (wait : Bool) (q q' : StopPc) (t : EventLoopThread)
      (pc : s.stops c = .stopping i wait q)
      (done : (s.threads i).stopStep q build () = .ok ((t, q'), ())) :
      PoolStep build s (.stopNext c) { s with
        threads := update s.threads i { s.threads i with toEventLoopThread := t },
        stops := update s.stops c (.stopping i wait q') }
  | nextThread (c : ι) (i j : Fin n) (wait : Bool) (pc : s.stops c = .stopping i wait .idle)
      (hj : j.val = i.val + 1) :
      PoolStep build s (.stopNext c) { s with stops := update s.stops c (.stopping j wait (.called false)) }
  | allTold (c : ι) (i j : Fin n) (wait : Bool) (pc : s.stops c = .stopping i wait .idle)
      (last : i.val + 1 = n) (hj : j.val = 0) :
      PoolStep build s (.stopNext c)
        { s with stops := update s.stops c (if wait then .waiting j else .finishing false) }
  | looked (c : ι) (i j : Fin n) (pc : s.stops c = .waiting i) (stopped : (s.threads i).isStopped = true)
      (hj : j.val = i.val + 1) :
      PoolStep build s (.stopNext c) { s with stops := update s.stops c (.waiting j) }
  | lookedLast (c : ι) (i : Fin n) (pc : s.stops c = .waiting i)
      (stopped : (s.threads i).isStopped = true) (last : i.val + 1 = n) :
      PoolStep build s (.stopNext c) { s with stops := update s.stops c (.finishing true) }
  | lookAgain (c : ι) (i j : Fin n) (pc : s.stops c = .waiting i) (hj : j.val = 0) :
      PoolStep build s (.stopNext c) { s with stops := update s.stops c (.waiting j) }
  | finish (c : ι) (wait : Bool) (pc : s.stops c = .finishing wait) :
      PoolStep build s (.stopNext c) { s with status := .kStopped, stops := update s.stops c .idle }

theorem next_eq_some {i j : Fin n} (h : next i = some j) : j.val = i.val + 1 := by
  unfold next at h
  split at h
  · rw [← Option.some.inj h]
  · cases h

theorem next_eq_none {i : Fin n} (h : next i = none) : i.val + 1 = n := by
  unfold next at h
  split at h
  · cases h
  · have := i.isLt
    omega

theorem first_eq_none (h : first (n := n) = none) : n = 0 := by
  unfold first at h
  split at h
  · cases h
  · omega

omit [DecidableEq ι] in
theorem setThread_self (s : EventLoopThreadPool n ι φ) (i : Fin n) :
    s.setThread i (s.threads i).toEventLoopThread = s := by
  unfold setThread
  rw [Function.update_eq_self]

omit [DecidableEq ι] in
theorem setHook_setThread (s : EventLoopThreadPool n ι φ) (i : Fin n) (t : EventLoopThread) (h : HookPc) :
    (s.setThread i t).setHook i h = { s with threads := update s.threads i ⟨t, h⟩ } := by
  unfold setHook setThread
  simp only [Function.update_self, Function.update_idem]

theorem startPool_step (wait : Bool) (idle : s.start = .idle) :
    PoolStep build s (.start wait) (s.startPool wait) := by
  unfold startPool
  cases h : first (n := n) with
  | some i => exact .start wait i idle
  | none => exact .startEmpty wait idle (first_eq_none h)

theorem startNext_step (enabled : s.Enabled .startNext) :
    s.startNext.wlp build () fun s' _ => PoolStep build s .startNext s' := by
  unfold startNext
  cases hpc : s.start with
  | idle =>
    simp only [Enabled, hpc] at enabled
  | returned => 
    simp only [Enabled, hpc] at enabled
  | waiting =>
    rw [Prog.wlp_pure]
    refine .startMoves _ (fun j hj => ?_) (by split <;> simp)
    cases h : s.isRunning <;> simp [h, PoolStartPc.Unborn] at hj
  | asserting =>
    simp only [Prog.wlp_bind, LoopExec.wlp_assert, Prog.wlp_pure]
    exact fun _ => .startMoves _ (fun j hj => hj.elim) (by simp)
  | starting i wait pc =>
    cases pc with
    | idle => 
      rw [Prog.wlp_pure]
      exact .startThread i wait hpc
    | returned =>
      rw [Prog.wlp_pure]
      refine .startMoves _ (fun j hj => ?_) (by cases next i <;> cases wait <;> simp)
      rw [hpc]
      cases h : next i with
      | none => cases wait <;> simp [h, PoolStartPc.Unborn] at hj
      | some k => 
        rw [h] at hj
        have hk := next_eq_some h
        have hkj : k ≤ j := hj
        show i < j
        omega
    | spawning w =>
      simp only [EventLoopThread.startStep, Prog.wlp_bind, LoopExec.wlp_assert, Prog.wlp_pure]
      intro _
      refine .spawn i wait w _ hpc ?_
      cases w
      · exact .inr rfl
      · exact .inl rfl
    | waiting =>
      simp only [EventLoopThread.startStep, Prog.wlp_bind, Prog.wlp_pure, setThread_self]
      exact .startMoves _ (fun j hj => by rw [hpc]; exact hj) (by simp)
    | asserting =>
      simp only [EventLoopThread.startStep, Prog.wlp_bind, LoopExec.wlp_assert, Prog.wlp_pure, setThread_self]
      exact fun _ => .startMoves _ (fun j hj => by rw [hpc]; exact hj) (by simp)

theorem hookNext_step {i : Fin n} (enabled : HookReady (s.threads i)) :
    (s.hookNext i).wlp build () fun s' _ => PoolStep build s (.hook i) s' := by
  unfold hookNext
  unfold HookReady at enabled
  split
  · rename_i hrun hhook
    exact (Prog.wlp_pure _ _ _ _).mpr (.countStarted i hrun hhook)
  · rename_i count hrun hhook
    have h : PoolStep build s (.hook i) _ := .started i count hrun hhook
    simp only [EventLoopThread.runStep, Prog.wlp_bind, Prog.wlp_pure, setHook_setThread, ne_eq,
      not_true_eq_false, if_false]
    unfold onThreadStarted
    split
    · rw [if_pos ‹count = n›] at h
      exact h
    · rw [if_neg ‹¬ count = n›] at h
      exact h
  · rename_i count hrun hhook
    split
    · rename_i hcount
      rw [hcount] at hhook
      exact (Prog.wlp_pure _ _ _ _).mpr (.lastExited i hrun hhook)
    · rename_i hcount
      simp only [EventLoopThread.runStep, Prog.wlp_bind, Prog.wlp_pure, setHook_setThread]
      exact .exited i count hrun hhook hcount
  · rename_i hrun hhook
    simp only [EventLoopThread.runStep, Prog.wlp_bind, Prog.wlp_pure, setHook_setThread]
    exact .callback i hrun hhook
  · rename_i hrun hhook
    exact (Prog.wlp_pure _ _ _ _).mpr (.countExited i hrun (.inl hhook))
  · rename_i hrun hhook
    exact (Prog.wlp_pure _ _ _ _).mpr (.countExited i hrun (.inr hhook))
  · rename_i hfresh hstarted hexited hcalling hleft hrunning
    exfalso
    split at enabled
    · rename_i hrun hhook
      exact hfresh hrun hhook
    · rename_i count hrun hhook
      exact hstarted count hrun hhook
    · rename_i hrun hhook
      exact hleft hrun hhook
    · rename_i hrun hhook
      exact hrunning hrun hhook
    · rename_i count hrun hhook
      exact hexited count hrun hhook
    · rename_i hrun hhook
      exact hcalling hrun hhook
    · exact enabled

theorem stopNext_step {c : ι} (enabled : s.Enabled (.stopNext c)) :
    (s.stopNext c).wlp build () fun s' _ => PoolStep build s (.stopNext c) s' := by
  unfold stopNext
  cases hpc : s.stops c with
  | idle => simp only [Enabled, hpc] at enabled
  | called wait fn =>
    cases h : first (n := n) with
    | some i => exact (Prog.wlp_pure _ _ _ _).mpr (.assign c wait fn i hpc)
    | none => exact (Prog.wlp_pure _ _ _ _).mpr (.stopEmpty c wait fn hpc (first_eq_none h))
  | stopping i wait q =>
    have hmoves : (do
        let r ← (s.threads i).stopStep q
        pure { s.setThread i r.1 with stops := update s.stops c (.stopping i wait r.2) } :
          LoopExec (EventLoopThreadPool n ι φ)).wlp build () fun s' _ => PoolStep build s (.stopNext c) s' := by
      simp only [Prog.wlp_bind, Prog.wlp_pure]
      rintro ⟨t, q'⟩ _ hdone
      exact .stopThread c i wait q q' t hpc hdone
    cases q with
    | idle =>
      rw [Prog.wlp_pure]
      cases h : next i with
      | some j => exact .nextThread c i j wait hpc (next_eq_some h)
      | none => exact .allTold c i ⟨0, i.pos⟩ wait hpc (next_eq_none h) rfl
    | _ => exact hmoves
  | waiting i =>
    dsimp only
    by_cases hstopped : (s.threads i).isStopped = true
    · rw [if_pos hstopped, Prog.wlp_pure]
      cases h : next i with
      | some j => exact .looked c i j hpc hstopped (next_eq_some h)
      | none => exact .lookedLast c i hpc hstopped (next_eq_none h)
    · rw [if_neg hstopped, Prog.wlp_pure]
      exact .lookAgain c i ⟨0, i.pos⟩ hpc rfl
  | finishing wait => exact (Prog.wlp_pure _ _ _ _).mpr (.finish c wait hpc)

theorem exec_step (enabled : s.Enabled a) :
    (s.exec a).wlp build () fun s' _ => PoolStep build s a s' := by
  cases a with
  | start wait => exact (Prog.wlp_pure _ _ _ _).mpr (startPool_step wait enabled)
  | startNext => exact startNext_step enabled
  | run i e =>
    simp only [exec, Prog.wlp_bind, Prog.wlp_pure]
    exact fun t _ hdone => .run i e t enabled.1 enabled.2.1 enabled.2.2 hdone
  | hook i => exact hookNext_step enabled
  | stop c wait fn => exact (Prog.wlp_pure _ _ _ _).mpr (.stop c wait fn enabled.1 enabled.2)
  | stopNext c => exact stopNext_step enabled

end Steps

/-! ## In every run -/

/-- `post` has returned. -/
def Behind (t : PoolThread) : Prop := t.run ∈ [.posted, .asserted, .exited]

/-- A thread counts itself when it has left its loop, and goes on when the hook is done. -/
structure Fits (t : PoolThread) : Prop where
  exited : ∀ k, t.hook = .exited k → t.run = .left
  calling : t.hook = .calling → t.run = .left
  done : t.hook = .done ↔ Behind t

theorem Fits.left {t : PoolThread} (h : Fits t) (hcounted : t.hook.Counted) : t.Left := by
  unfold EventLoopThread.Left
  cases hhook : t.hook with
  | exited k =>
    rw [h.exited k hhook]
    decide
  | calling =>
    rw [h.calling hhook]
    decide
  | done => exact List.mem_cons_of_mem _ (h.done.mp hhook)
  | _ => simp [hhook, HookPc.Counted] at hcounted

theorem Fits.moved {t : PoolThread} {t' : EventLoopThread} (h : Fits t) (hleft : t.run ≠ .left)
    (hbehind : t'.run ∈ [.posted, .asserted, .exited] ↔ Behind t) : Fits ⟨t', t.hook⟩ :=
  ⟨fun k hk => absurd (h.exited k hk) hleft, fun hc => absurd (h.calling hc) hleft,
    h.done.trans hbehind.symm⟩

theorem Fits.run {t : PoolThread} (h : Fits t) {e : RunStep} (ready : t.Ready e)
    (notPre : ∀ rc, e ≠ .preReturned rc) (notPost : e ≠ .postReturned) :
    (t.runStep e).wlp build () fun t' _ => Fits ⟨t', t.hook⟩ := by
  cases e with
  | preReturned rc => exact absurd rfl (notPre rc)
  | postReturned => exact absurd rfl notPost
  | begin =>
    have hrun : t.run = .begun := ready
    exact (Prog.wlp_pure _ _ _ _).mpr (h.moved (by rw [hrun]; decide) (by simp [Behind, hrun]))
  | announce =>
    have hrun : t.run = .looping := ready.1
    exact (Prog.wlp_pure _ _ _ _).mpr (h.moved (by rw [hrun]; decide) (by simp [Behind, hrun]))
  | countDown =>
    have hrun : t.run = .announced := ready
    exact (Prog.wlp_pure _ _ _ _).mpr (h.moved (by rw [hrun]; decide) (by simp [Behind, hrun]))
  | leave =>
    have hrun : t.run = .looping := ready.1
    exact (Prog.wlp_pure _ _ _ _).mpr (h.moved (by rw [hrun]; decide) (by simp [Behind, hrun]))
  | assertStopped =>
    have hrun : t.run = .posted := ready
    simp only [EventLoopThread.runStep, Prog.wlp_bind, LoopExec.wlp_assert, Prog.wlp_pure]
    exact fun _ => h.moved (by rw [hrun]; decide) (by simp [Behind, hrun])
  | store =>
    have hrun : t.run = .asserted := ready
    exact (Prog.wlp_pure _ _ _ _).mpr (h.moved (by rw [hrun]; decide) (by simp [Behind, hrun]))

/-- What holds of a pool in every run. -/
structure Tracked (s : EventLoopThreadPool n ι φ) : Prop where
  sound : ∀ i, (s.threads i).Sound
  unborn : ∀ i, s.start.Unborn i → (s.threads i).run = .unborn
  fits : ∀ i, Fits (s.threads i)
  counted : (Family.having (fun t : PoolThread => t.hook.Counted) s.threads).card = s.exitedCount
  bound : ∀ i k, (s.threads i).hook = .exited k → k ≤ s.exitedCount
  distinct : ∀ i j k, (s.threads i).hook = .exited k → (s.threads j).hook = .exited k → i = j
  calling : ∀ i, (s.threads i).hook = .calling →
    s.exitedCount = n ∧ ∀ j, (s.threads j).hook ≠ .exited n ∧ ((s.threads j).hook = .calling → j = i)

theorem tracked_new : Tracked ({} : EventLoopThreadPool n ι φ) where
  sound _ := EventLoopThread.sound_new
  unborn _ _ := rfl
  fits _ := ⟨nofun, nofun, ⟨nofun, by intro h; cases h with | tail _ h => cases h with | tail _ h => cases h with | tail _ h => cases h⟩⟩
  counted := Finset.card_eq_zero.mpr (Finset.filter_eq_empty_iff.mpr fun _ _ => id)
  bound := nofun
  distinct := nofun
  calling := nofun

theorem Tracked.move (h : Tracked s) {i : Fin n} {u : PoolThread}
    (threads : s'.threads = update s.threads i u) (count : s'.exitedCount = s.exitedCount)
    (unborn : ∀ j, s'.start.Unborn j → s.start.Unborn j ∧ (j = i → u.run = .unborn))
    (sound : u.Sound) (fits : Fits u) (counted : u.hook.Counted ↔ (s.threads i).hook.Counted)
    (exited : ∀ k, u.hook = .exited k → (s.threads i).hook = .exited k)
    (calling : u.hook = .calling → (s.threads i).hook = .calling) : Tracked s' := by
  have hexited : ∀ j k, (s'.threads j).hook = .exited k → (s.threads j).hook = .exited k := by
    rw [threads]
    exact (Function.forall_update_iff s.threads fun j t =>
      ∀ k, t.hook = .exited k → (s.threads j).hook = .exited k).mpr ⟨exited, fun _ _ _ hk => hk⟩
  have hcalling : ∀ j, (s'.threads j).hook = .calling → (s.threads j).hook = .calling := by
    rw [threads]
    exact (Function.forall_update_iff s.threads fun j t =>
      t.hook = .calling → (s.threads j).hook = .calling).mpr ⟨calling, fun _ _ hk => hk⟩
  refine ⟨?_, ?_, ?_, ?_, fun j k hk => ?_, fun j j' k hj hj' => ?_, fun j hj => ?_⟩
  · rw [threads]
    exact (Function.forall_update_iff s.threads fun _ t => t.Sound).mpr ⟨sound, fun j _ => h.sound j⟩
  · intro j hj
    obtain ⟨hold, hi⟩ := unborn j hj
    rw [threads]
    by_cases hji : j = i
    · subst hji
      rw [Function.update_self]
      exact hi rfl
    · rw [Function.update_of_ne hji]
      exact h.unborn j hold
  · rw [threads]
    exact (Function.forall_update_iff s.threads fun _ t => Fits t).mpr ⟨fits, fun j _ => h.fits j⟩
  · rw [threads, Family.having_update_same (p := fun t : PoolThread => t.hook.Counted) counted, count]
    exact h.counted
  · rw [count]
    exact h.bound j k (hexited j k hk)
  · exact h.distinct j j' k (hexited j k hj) (hexited j' k hj')
  · obtain ⟨hlast, hunique⟩ := h.calling j (hcalling j hj)
    refine ⟨count.trans hlast, fun j' => ⟨fun hj' => (hunique j').1 (hexited j' n hj'), fun hj' => ?_⟩⟩
    exact (hunique j').2 (hcalling j' hj')

theorem Tracked.same (h : Tracked s) (threads : s'.threads = s.threads)
    (count : s'.exitedCount = s.exitedCount) (unborn : ∀ j, s'.start.Unborn j → s.start.Unborn j) :
    Tracked s' := by
  obtain ⟨h1, h2, h3, h4, h5, h6, h7⟩ := h
  rw [← threads] at h1 h2 h3 h4 h5 h6 h7
  rw [← count] at h4 h5 h7
  exact ⟨h1, fun i hi => h2 i (unborn i hi), h3, h4, h5, h6, h7⟩

theorem Tracked.count_lt (h : Tracked s) {i : Fin n} (hi : ¬ (s.threads i).hook.Counted) :
    s.exitedCount < n := by
  have hlt := Family.card_having_lt (p := fun t : PoolThread => t.hook.Counted) hi
  rwa [h.counted, Fintype.card_fin] at hlt

/-- When `n` threads have counted themselves, all have left their loops. -/
theorem Tracked.all_left (h : Tracked s) (count : s.exitedCount = n) (i : Fin n) : (s.threads i).Left := by
  have hall := Family.all_of_card_having (p := fun t : PoolThread => t.hook.Counted) (f := s.threads) (by
    rw [h.counted, Fintype.card_fin]
    exact count)
  exact (h.fits i).left (hall i)

theorem Tracked.countExited (h : Tracked s) {i : Fin n} (run : (s.threads i).run = .left)
    (hook : (s.threads i).hook = .fresh ∨ (s.threads i).hook = .running) :
    Tracked { s with
      threads := update s.threads i { s.threads i with hook := .exited (s.exitedCount + 1) },
      exitedCount := s.exitedCount + 1 } := by
  have hnot : ¬ (s.threads i).hook.Counted := by
    rcases hook with hook | hook <;> rw [hook] <;> exact id
  have hlt := h.count_lt hnot
  -- no other thread has been given this number, and none is the last one
  have hfresh : ∀ j, (s.threads j).hook ≠ .exited (s.exitedCount + 1) := fun j hj =>
    absurd (h.bound j _ hj) (by omega)
  have hnone : ∀ j, (s.threads j).hook ≠ .calling := fun j hj => by
    have := (h.calling j hj).1
    omega
  have hcases : ∀ j k, (update s.threads i { s.threads i with hook := .exited (s.exitedCount + 1) } j).hook =
      .exited k → (j = i ∧ k = s.exitedCount + 1) ∨ (j ≠ i ∧ (s.threads j).hook = .exited k) := by
    intro j k hk
    by_cases hj : j = i
    · subst hj
      rw [Function.update_self] at hk
      exact .inl ⟨rfl, (HookPc.exited.inj hk).symm⟩
    · rw [Function.update_of_ne hj] at hk
      exact .inr ⟨hj, hk⟩
  have hstill : ∀ j,
      (update s.threads i { s.threads i with hook := .exited (s.exitedCount + 1) } j).hook ≠ .calling :=
    (Function.forall_update_iff s.threads fun _ t => t.hook ≠ .calling).mpr ⟨nofun, fun j _ => hnone j⟩
  refine ⟨?_, fun j hj => ?_, ?_, ?_, fun j k hk => ?_, fun j j' k hj hj' => ?_, fun j hj => ?_⟩
  · exact (Function.forall_update_iff s.threads fun _ t => t.Sound).mpr ⟨h.sound i, fun j _ => h.sound j⟩
  · by_cases hji : j = i
    · subst hji
      cases run.symm.trans (h.unborn j hj)
    · show (update s.threads i _ j).run = .unborn
      rw [Function.update_of_ne hji]
      exact h.unborn j hj
  · refine (Function.forall_update_iff s.threads fun _ t => Fits t).mpr ⟨?_, fun j _ => h.fits j⟩
    exact ⟨fun _ _ => run, nofun, ⟨nofun, fun hbehind => by simp [Behind, run] at hbehind⟩⟩
  · have hcounted : HookPc.Counted (.exited (s.exitedCount + 1)) := trivial
    rw [Family.card_having_update_new (p := fun t : PoolThread => t.hook.Counted) hcounted hnot, h.counted]
  · rcases hcases j k hk with ⟨_, rfl⟩ | ⟨_, hold⟩
    · exact Nat.le_refl _
    · exact (h.bound j k hold).trans (Nat.le_succ _)
  · rcases hcases j k hj with ⟨hji, hk⟩ | ⟨_, hold⟩
    · rcases hcases j' k hj' with ⟨hji', _⟩ | ⟨_, hold'⟩
      · exact hji.trans hji'.symm
      · exact absurd (hk ▸ hold') (hfresh j')
    · rcases hcases j' k hj' with ⟨_, hk⟩ | ⟨_, hold'⟩
      · exact absurd (hk ▸ hold) (hfresh j)
      · exact h.distinct j j' k hold hold'
  · exact absurd hj (hstill j)

theorem Tracked.lastExited (h : Tracked s) {i : Fin n} (run : (s.threads i).run = .left)
    (hook : (s.threads i).hook = .exited n) :
    Tracked { s with
      threads := update s.threads i { s.threads i with hook := .calling }, status := .kStopped } := by
  have hcount : s.exitedCount = n := by
    have hcard := Finset.card_le_univ (Family.having (fun t : PoolThread => t.hook.Counted) s.threads)
    rw [h.counted, Fintype.card_fin] at hcard
    exact Nat.le_antisymm hcard (h.bound i n hook)
  have hnone : ∀ j, (s.threads j).hook ≠ .calling := fun j hj => ((h.calling j hj).2 i).1 hook
  have hcases : ∀ j, (update s.threads i { s.threads i with hook := .calling } j).hook = .calling → j = i := by
    intro j hj
    by_contra hji
    rw [Function.update_of_ne hji] at hj
    exact hnone j hj
  have hexited : ∀ j k, (update s.threads i { s.threads i with hook := .calling } j).hook = .exited k →
      j ≠ i ∧ (s.threads j).hook = .exited k := by
    intro j k hk
    by_cases hji : j = i
    · subst hji
      rw [Function.update_self] at hk
      cases hk
    · rw [Function.update_of_ne hji] at hk
      exact ⟨hji, hk⟩
  refine ⟨?_, fun j hj => ?_, ?_, ?_, fun j k hk => h.bound j k (hexited j k hk).2,
    fun j j' k hj hj' => h.distinct j j' k (hexited j k hj).2 (hexited j' k hj').2,
    fun j hj => ⟨hcount, fun j' => ⟨fun hj' => ?_, fun hj' => (hcases j' hj').trans (hcases j hj).symm⟩⟩⟩
  · exact (Function.forall_update_iff s.threads fun _ t => t.Sound).mpr ⟨h.sound i, fun j _ => h.sound j⟩
  · by_cases hji : j = i
    · subst hji
      cases run.symm.trans (h.unborn j hj)
    · show (update s.threads i _ j).run = .unborn
      rw [Function.update_of_ne hji]
      exact h.unborn j hj
  · refine (Function.forall_update_iff s.threads fun _ t => Fits t).mpr ⟨?_, fun j _ => h.fits j⟩
    exact ⟨nofun, fun _ => run, ⟨nofun, fun hbehind => by simp [Behind, run] at hbehind⟩⟩
  · have hcounted : HookPc.Counted .calling ↔ (s.threads i).hook.Counted := by
      rw [hook]
      exact Iff.rfl
    rw [Family.having_update_same (p := fun t : PoolThread => t.hook.Counted) hcounted]
    exact h.counted
  · obtain ⟨hne, hold⟩ := hexited j' n hj'
    exact hne (h.distinct j' i n hold hook)

theorem Tracked.hookDone (h : Tracked s) {i : Fin n} (run : (s.threads i).run = .left)
    (counted : (s.threads i).hook.Counted)
    (threads : s'.threads = update s.threads i { s.threads i with run := .posted, hook := .done })
    (count : s'.exitedCount = s.exitedCount) (start : s'.start = s.start) : Tracked s' := by
  refine h.move threads count (fun j hj => ?_) ?_ ?_ (iff_of_true trivial counted) nofun nofun
  · rw [start] at hj
    refine ⟨hj, fun hji => ?_⟩
    cases run.symm.trans (hji ▸ h.unborn j hj)
  · exact ⟨fun hs => absurd hs ((h.sound i).not_stopped (by rw [run]; decide)),
      fun _ => (h.sound i).left (by rw [EventLoopThread.Left, run]; decide), nofun⟩
  · exact ⟨nofun, nofun, iff_of_true rfl (by simp [Behind])⟩

variable [DecidableEq ι]

theorem Tracked.step (h : Tracked s) (hstep : PoolStep build s a s') : Tracked s' := by
  cases hstep with
  | start wait i idle => exact h.same rfl rfl fun j _ => by rw [idle]; trivial
  | startEmpty wait idle empty => exact h.same rfl rfl fun j hj => hj.elim
  | startMoves p unborn started => exact h.same rfl rfl unborn
  | startThread i wait pc =>
    have hi := h.unborn i (by rw [pc]; exact Nat.le_refl i.val)
    refine h.move rfl rfl (fun j hj => ⟨by rw [pc]; exact hj, fun _ => hi⟩) (h.sound i).start ?_ Iff.rfl
      (fun _ => id) id
    exact (h.fits i).moved (by rw [hi]; decide) (by simp [Behind, EventLoopThread.start])
  | spawn i wait w p pc behind =>
    have hi := h.unborn i (by rw [pc]; exact Nat.le_refl i.val)
    refine h.move rfl rfl (fun j hj => ?_) ?_ ?_ Iff.rfl (fun _ => id) id
    · have hij : i < j := by
        rcases behind with rfl | rfl
        · exact hj
        · exact hj
      refine ⟨?_, fun hji => absurd hij (by rw [hji]; exact lt_irrefl i)⟩
      rw [pc]
      exact hij.le
    · exact ⟨fun hs => absurd hs ((h.sound i).not_stopped (by rw [hi]; decide)),
        (by simp [EventLoopThread.Left]), (by simp)⟩
    · exact (h.fits i).moved (by rw [hi]; decide) (by simp [Behind, hi])
  | run i e t ready notPre notPost done =>
    have hunborn : (s.threads i).run ≠ .unborn := by
      intro hrun
      cases e <;> simp [EventLoopThread.Ready, hrun] at ready
    refine h.move rfl rfl (fun j hj => ⟨hj, ?_⟩) ((h.sound i).runStep ready _ _ done)
      ((h.fits i).run ready notPre notPost _ _ done) Iff.rfl (fun _ => id) id
    rintro rfl
    exact absurd (h.unborn j hj) hunborn
  | countStarted i run hook =>
    refine h.move rfl rfl (fun j hj => ⟨hj, fun hji => hji ▸ h.unborn j hj⟩)
      (h.sound i) ?_ ?_ (by simp) (by simp)
    · exact ⟨(by simp), (by simp), ⟨(by simp), fun hbehind => by simp [Behind, run] at hbehind⟩⟩
    · rw [hook]
      exact Iff.rfl
  | started i count run hook =>
    refine h.move rfl rfl (fun j hj => ⟨hj, fun hji => ?_⟩) ?_ ?_ ?_ (by simp) (by simp)
    · cases run.symm.trans (hji ▸ h.unborn j hj)
    · exact ⟨fun hs => absurd hs ((h.sound i).not_stopped (by rw [run]; decide)), (by simp [EventLoopThread.Left]),
        fun _ => (h.sound i).working (by rw [run]; decide)⟩
    · exact ⟨(by simp), (by simp), ⟨(by simp), fun hbehind => by simp [Behind] at hbehind⟩⟩
    · rw [hook]
      exact Iff.rfl
  | countExited i run hook => exact h.countExited run hook
  | lastExited i run hook => exact h.lastExited run hook
  | exited i count run hook notLast => exact h.hookDone run (by rw [hook]; trivial) rfl rfl rfl
  | callback i run hook => exact h.hookDone run (by rw [hook]; trivial) rfl rfl rfl
  | stopThread c i wait q q' t pc done =>
    have hrun := (EventLoopThread.stopStep_spec _ _ done).1
    refine h.move rfl rfl (fun j hj => ⟨hj, fun hji => hrun.trans (hji ▸ h.unborn j hj)⟩)
      ((h.sound i).stopStep _ _ done) ?_ Iff.rfl (fun _ => id) id
    obtain ⟨hexited, hcalling, hdone⟩ := h.fits i
    refine ⟨fun k hk => hrun.trans (hexited k hk), fun hc => hrun.trans (hcalling hc), hdone.trans ?_⟩
    unfold Behind
    rw [hrun]
  | _ => exact h.same rfl rfl fun _ => id

omit [DecidableEq ι] in
theorem left_update {i : Fin n} {u : PoolThread} (threads : s'.threads = update s.threads i u)
    (hu : (s.threads i).Left → u.Left) (j : Fin n) (hj : (s.threads j).Left) : (s'.threads j).Left := by
  rw [threads]
  by_cases hji : j = i
  · subst hji
    rw [Function.update_self]
    exact hu hj
  · rw [Function.update_of_ne hji]
    exact hj

theorem Tracked.stays_left (h : Tracked s) (hstep : PoolStep build s a s') (j : Fin n)
    (hj : (s.threads j).Left) : (s'.threads j).Left := by
  cases hstep with
  | startThread i wait pc => exact left_update rfl (by exact id) j hj
  | spawn i wait w p pc behind =>
    have hi := h.unborn i (by rw [pc]; exact Nat.le_refl i.val)
    exact left_update rfl (fun hleft => by simp [EventLoopThread.Left, hi] at hleft) j hj
  | run i e t ready notPre notPost done =>
    exact left_update rfl (EventLoopThread.runStep_left ready _ _ done).1 j hj
  | countStarted i run hook => exact left_update rfl (by exact id) j hj
  | started i count run hook =>
    exact left_update rfl (fun hleft => by simp [EventLoopThread.Left, run] at hleft) j hj
  | countExited i run hook => exact left_update rfl (by exact id) j hj
  | lastExited i run hook => exact left_update rfl (by exact id) j hj
  | exited i count run hook notLast =>
    exact left_update rfl (fun _ => by simp [EventLoopThread.Left]) j hj
  | callback i run hook => exact left_update rfl (fun _ => by simp [EventLoopThread.Left]) j hj
  | stopThread c i wait q q' t pc done =>
    have hrun := (EventLoopThread.stopStep_spec _ _ done).1
    exact left_update rfl (fun hleft => by unfold EventLoopThread.Left at *; rwa [hrun]) j hj
  | _ => exact hj

theorem run_tracked {P : List (PoolAction n ι φ) → EventLoopThreadPool n ι φ → Unit → PoolAction n ι φ → Prop}
    {as : List (PoolAction n ι φ)} (h : (machine n ι φ).Run build P as s ()) : Tracked s := by
  apply h.invariant (I := fun s _ => Tracked s)
  · rintro _ _ rfl
    exact tracked_new
  · intro _ s _ a s' _ _ htracked enabled _ done
    exact htracked.step (exec_step enabled _ _ done)

theorem run_next {P : List (PoolAction n ι φ) → EventLoopThreadPool n ι φ → Unit → PoolAction n ι φ → Prop}
    {as : List (PoolAction n ι φ)} (h : (machine n ι φ).Run build P as s ()) (a : PoolAction n ι φ)
    (enabled : s.Enabled a) (condition : P as s () a) (done : s.exec a build () = .ok (s', ())) :
    (machine n ι φ).Run build P (as ++ [a]) s' () := h.step a enabled condition done

end EventLoopThreadPool

end Netpp.Loop
