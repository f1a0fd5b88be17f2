import Netpp.Loop.PoolStatus

/-! # A pool that one thread starts and stops

`start(true)` returns when every thread has announced itself, and `stop(true)` when every
thread has stored `kStopped`.

* `Starting`: the invariant before `stop` is called.  `start` has waited for the threads it
  has passed, and `kRunning` is stored when all have counted themselves.
* `Stopping`: the invariant from then on, of the one call of `stop`.
* `start_returned`, `stop_returned`: what the caller finds when its call has returned.
-/

namespace Netpp

open Function (update)
open ServerStatus

/-! ## A thread -/

section Thread

variable {build : Build} {t t' : EventLoopThread} {e : RunStep}

namespace EventLoopThread

/-- The thread has not announced itself: its latch is closed. -/
structure Early (t : EventLoopThread) : Prop where
  latch : t.latch = 1
  stopped : t.loop.stopped = false
  run : t.run = .unborn ∨ t.run = .begun ∨
    t.loop.work = true ∧
      (t.run = .looping ∧ t.loop.queued = true ∨
        t.run = .announced ∧ t.loop.queued = false ∧ t.status = .kRunning)

/-- The thread has announced itself, and has not been told to stop. -/
structure Up (t : EventLoopThread) : Prop where
  status : t.status = .kRunning
  run : t.run = .pre ∨ t.run = .looping
  work : t.loop.work = true
  stopped : t.loop.stopped = false
  queued : t.loop.queued = false

/-- The thread has been told to stop. -/
structure Falling (t : EventLoopThread) : Prop where
  queued : t.loop.queued = false
  run : t.status = .kStopping ∧ t.run ∈ [.pre, .looping, .left, .posted, .asserted] ∨
    t.status = .kStopped ∧ t.run = .exited

theorem Up.not_ready (h : t.Up) (notPre : ∀ rc, e ≠ .preReturned rc) : ¬ t.Ready e := by
  have hrun := h.run
  intro ready
  cases e with
  | preReturned rc => exact notPre rc rfl
  | announce => exact absurd (h.queued.symm.trans ready.2.1) (by decide)
  | leave =>
    cases ready.2 with
    | inl hstopped => exact absurd (h.stopped.symm.trans hstopped) (by decide)
    | inr hidle => exact absurd (h.work.symm.trans hidle.1) (by decide)
  | _ =>
    simp only [Ready] at ready
    rw [ready] at hrun
    simp at hrun

theorem Early.run_step (h : t.Early) (ready : t.Ready e) (notPre : ∀ rc, e ≠ .preReturned rc) :
    (t.runStep e).wlp build () fun t' _ => t'.Early ∨ t'.Up := by
  obtain ⟨hlatch, hstopped, hrun⟩ := h
  cases e with
  | preReturned rc => exact absurd rfl (notPre rc)
  | begin => exact (Prog.wlp_pure ..).mpr (.inl ⟨hlatch, hstopped, .inr (.inr ⟨rfl, .inl ⟨rfl, rfl⟩⟩)⟩)
  | announce =>
    obtain ⟨hlooping, hqueued, _⟩ := ready
    have hwork : t.loop.work = true := by
      rcases hrun with hrun | hrun | hrun
      · cases hrun.symm.trans hlooping
      · cases hrun.symm.trans hlooping
      · exact hrun.1
    exact (Prog.wlp_pure ..).mpr (.inl ⟨hlatch, hstopped, .inr (.inr ⟨hwork, .inr ⟨rfl, rfl, rfl⟩⟩)⟩)
  | countDown =>
    have hannounced : t.run = .announced := ready
    rcases hrun with hrun | hrun | ⟨hwork, hrun | hrun⟩
    · cases hrun.symm.trans hannounced
    · cases hrun.symm.trans hannounced
    · cases hrun.1.symm.trans hannounced
    · exact (Prog.wlp_pure ..).mpr (.inr ⟨hrun.2.2, .inl rfl, hwork, hstopped, hrun.2.1⟩)
  | leave =>
    obtain ⟨hlooping, hleave⟩ := ready
    rcases hrun with hrun | hrun | ⟨hwork, hrun | hrun⟩
    · cases hrun.symm.trans hlooping
    · cases hrun.symm.trans hlooping
    · rcases hleave with hleave | hleave
      · exact absurd (hstopped.symm.trans hleave) (by decide)
      · exact absurd (hwork.symm.trans hleave.1) (by decide)
    · cases hrun.1.symm.trans hlooping
  | _ =>
    simp only [Ready] at ready
    rw [ready] at hrun
    simp at hrun

theorem Falling.run_step (h : t.Falling) (ready : t.Ready e) (notPre : ∀ rc, e ≠ .preReturned rc)
    (notPost : e ≠ .postReturned) :
    (t.runStep e).wlp build () fun t' _ => t'.Falling := by
  obtain ⟨hqueued, hrun⟩ := h
  cases e with
  | preReturned rc => exact absurd rfl (notPre rc)
  | postReturned => exact absurd rfl notPost
  | begin =>
    have hbegun : t.run = .begun := ready
    simp [hbegun] at hrun
  | announce => exact absurd (hqueued.symm.trans ready.2.1) (by decide)
  | countDown =>
    have hannounced : t.run = .announced := ready
    simp [hannounced] at hrun
  | leave =>
    rw [ready.1] at hrun
    obtain ⟨hstatus, _⟩ | ⟨_, hexited⟩ := hrun
    · exact (Prog.wlp_pure ..).mpr ⟨hqueued, .inl ⟨hstatus, by simp⟩⟩
    · cases hexited
  | assertStopped =>
    have hposted : t.run = .posted := ready
    rw [hposted] at hrun
    obtain ⟨hstatus, _⟩ | ⟨_, hexited⟩ := hrun
    · simp only [EventLoopThread.runStep, Prog.wlp_bind, LoopExec.wlp_assert, Prog.wlp_pure]
      exact fun _ => ⟨hqueued, .inl ⟨hstatus, by simp⟩⟩
    · cases hexited
  | store =>
    have hasserted : t.run = .asserted := ready
    rw [hasserted] at hrun
    obtain _ | ⟨_, hexited⟩ := hrun
    · exact (Prog.wlp_pure ..).mpr ⟨hqueued, .inr ⟨rfl, rfl⟩⟩
    · cases hexited

end EventLoopThread

namespace Loop

/-- What a thread of a pool does by itself. -/
inductive ThreadMoves (build : Build) (t : EventLoopThread) : EventLoopThread → Prop
  | same : ThreadMoves build t t
  | run (e : RunStep) (t' : EventLoopThread) (ready : t.Ready e) (notPre : ∀ rc, e ≠ .preReturned rc)
      (notPost : e ≠ .postReturned) (done : t.runStep e build () = .ok (t', ())) : ThreadMoves build t t'
  | started (run : t.run = .pre) : ThreadMoves build t { t with run := .looping }
  | posted (run : t.run = .left) : ThreadMoves build t { t with run := .posted }

theorem ThreadMoves.up (h : ThreadMoves build t t') (hup : t.Up) : t'.Up := by
  cases h with
  | same => exact hup
  | run e t' ready notPre _ _ => exact absurd ready (hup.not_ready notPre)
  | started _ => exact ⟨hup.status, .inr rfl, hup.work, hup.stopped, hup.queued⟩
  | posted hleft =>
    have hrun := hup.run
    simp [hleft] at hrun

theorem ThreadMoves.early (h : ThreadMoves build t t') (hearly : t.Early) : t'.Early ∨ t'.Up := by
  cases h with
  | same => exact .inl hearly
  | run e t' ready notPre _ done => exact hearly.run_step ready notPre _ _ done
  | started hpre =>
    have hrun := hearly.run
    simp [hpre] at hrun
  | posted hleft =>
    have hrun := hearly.run
    simp [hleft] at hrun

theorem ThreadMoves.falling (h : ThreadMoves build t t') (hfalling : t.Falling) : t'.Falling := by
  cases h with
  | same => exact hfalling
  | run e t' ready notPre notPost done => exact hfalling.run_step ready notPre notPost _ _ done
  | started hpre =>
    obtain ⟨hqueued, ⟨hstatus, _⟩ | ⟨_, hexited⟩⟩ := hfalling
    · exact ⟨hqueued, .inl ⟨hstatus, by simp⟩⟩
    · cases hpre.symm.trans hexited
  | posted hleft =>
    obtain ⟨hqueued, ⟨hstatus, _⟩ | ⟨_, hexited⟩⟩ := hfalling
    · exact ⟨hqueued, .inl ⟨hstatus, by simp⟩⟩
    · cases hleft.symm.trans hexited

/-- A thread that has stored `kStopped` is through. -/
theorem ThreadMoves.stopped (h : ThreadMoves build t t') (hfalling : t.Falling)
    (hstatus : t.status = .kStopped) :
    t' = t := by
  have hexited : t.run = .exited := by
    obtain ⟨_, ⟨hother, _⟩ | ⟨_, hexited⟩⟩ := hfalling
    · cases hother.symm.trans hstatus
    · exact hexited
  cases h with
  | same => rfl
  | run e t' ready _ _ _ => cases e <;> simp [EventLoopThread.Ready, hexited] at ready
  | started hpre => cases hpre.symm.trans hexited
  | posted hleft => cases hleft.symm.trans hexited

end Loop

end Thread

namespace Loop

/-! ## Where the calls are -/

/-- Every wait is made. -/
def PoolStartPc.Waits {n : Nat} : PoolStartPc n → Prop
  | .starting _ wait (.spawning w) => wait = true ∧ w = true
  | .starting _ wait _ => wait = true
  | _ => True

/-- `start` has waited for thread `j`. -/
def PoolStartPc.Awaited {n : Nat} : PoolStartPc n → Fin n → Prop
  | .idle, _ => False
  | .starting i _ .asserting, j | .starting i _ .returned, j => j ≤ i
  | .starting i _ _, j => j < i
  | _, _ => True

/-- `stop` waits once it has told the threads, and not before. -/
def PoolStopPc.Waits {n : Nat} {φ : Type} : PoolStopPc n φ → Prop
  | .called wait _ | .finishing wait => wait = true
  | .stopping _ wait q =>
    wait = true ∧ q ∈ [.called false, .tested false, .asserted false, .stopping false, .idle]
  | _ => True

/-- `stop` has told thread `j`. -/
def PoolStopPc.Told {n : Nat} {φ : Type} : PoolStopPc n φ → Fin n → Prop
  | .called _ _, _ => False
  | .stopping i _ (.stopping _), j | .stopping i _ .idle, j => j ≤ i
  | .stopping i _ _, j => j < i
  | _, _ => True

/-- `stop` has seen that thread `j` has stopped. -/
def PoolStopPc.HasSeen {n : Nat} {φ : Type} : PoolStopPc n φ → Fin n → Prop
  | .called _ _, _ | .stopping _ _ _, _ => False
  | .waiting i, j => j < i
  | _, _ => True

namespace EventLoopThreadPool

variable {n : Nat} {ι φ : Type} [DecidableEq ι] {build : Build} {s s' : EventLoopThreadPool n ι φ}
  {a : PoolAction n ι φ} {as : List (PoolAction n ι φ)} {c : ι}

/-- `start` is called to wait, and `stop` once, to wait. -/
def Served (as : List (PoolAction n ι φ)) : PoolAction n ι φ → Prop
  | .start wait => wait = true
  | .stop _ wait _ => wait = true ∧ ∀ a ∈ as, a.isStop = false
  | _ => True

def Own : PoolAction n ι φ → Prop
  | .run _ _ | .hook _ => True
  | _ => False

/-! ## The threads' own steps -/

/-- What the threads do by themselves does not move a call; `kStopped` is stored when a thread
    has left its loop. -/
theorem PoolStep.own (h : PoolStep build s a s') (ha : Own a) :
    s'.start = s.start ∧ s'.stops = s.stops ∧
    (∀ j, ThreadMoves build (s.threads j).toEventLoopThread (s'.threads j).toEventLoopThread) ∧
    (s'.status = s.status ∨ s'.status = .kRunning ∨
      s'.status = .kStopped ∧ ∃ i, (s.threads i).run = .left) := by
  have hmoves : ∀ (i : Fin n) (u : PoolThread),
      ThreadMoves build (s.threads i).toEventLoopThread u.toEventLoopThread →
      ∀ j, ThreadMoves build (s.threads j).toEventLoopThread (update s.threads i u j).toEventLoopThread :=
    fun i u hu => (Function.forall_update_iff s.threads fun j t =>
      ThreadMoves build (s.threads j).toEventLoopThread t.toEventLoopThread).mpr ⟨hu, fun _ _ => .same⟩
  cases h with
  | run i e t ready notPre notPost done =>
    exact ⟨rfl, rfl, hmoves i _ (.run e t ready notPre notPost done), .inl rfl⟩
  | countStarted i run hook => exact ⟨rfl, rfl, hmoves i _ .same, .inl rfl⟩
  | started i count run hook =>
    refine ⟨rfl, rfl, hmoves i _ (.started run), ?_⟩
    dsimp only
    split
    · exact .inr (.inl rfl)
    · exact .inl rfl
  | countExited i run hook => exact ⟨rfl, rfl, hmoves i _ .same, .inl rfl⟩
  | lastExited i run hook => exact ⟨rfl, rfl, hmoves i _ .same, .inr (.inr ⟨rfl, i, run⟩)⟩
  | exited i count run hook notLast => exact ⟨rfl, rfl, hmoves i _ (.posted run), .inl rfl⟩
  | callback i run hook => exact ⟨rfl, rfl, hmoves i _ (.posted run), .inl rfl⟩
  | _ => exact ha.elim

/-! ## Before `stop` is called -/

structure Starting (s : EventLoopThreadPool n ι φ) : Prop where
  threads : ∀ i, (s.threads i).Early ∨ (s.threads i).Up
  waits : s.start.Waits
  awaited : ∀ i, s.start.Awaited i → (s.threads i).Up
  status : s.start = .asserting ∨ s.start = .returned → s.status = .kRunning
  stops : ∀ c, s.stops c = .idle

omit [DecidableEq ι] in
theorem starting_new : Starting ({} : EventLoopThreadPool n ι φ) :=
  ⟨fun _ => .inl ⟨rfl, rfl, .inl rfl⟩, trivial, fun _ hi => hi.elim, by simp, fun _ => rfl⟩

omit [DecidableEq ι] in
theorem Starting.not_left (h : Starting s) (i : Fin n) : (s.threads i).run ≠ .left := by
  intro hleft
  cases h.threads i with
  | inl hearly =>
    have hrun := hearly.run
    simp [hleft] at hrun
  | inr hup =>
    have hrun := hup.run
    simp [hleft] at hrun

theorem Starting.own (h : Starting s) (hstep : PoolStep build s a s') (ha : Own a) : Starting s' := by
  obtain ⟨hstart, hstops, hmoves, hstatus⟩ := hstep.own ha
  refine ⟨fun i => ?_, hstart ▸ h.waits, fun i hi => ?_, fun hpc => ?_, fun c => ?_⟩
  · cases h.threads i with
    | inl hearly => exact (hmoves i).early hearly
    | inr hup => exact .inr ((hmoves i).up hup)
  · rw [hstart] at hi
    exact (hmoves i).up (h.awaited i hi)
  · rw [hstart] at hpc
    rcases hstatus with hsame | hrunning | ⟨_, i, hleft⟩
    · exact hsame.trans (h.status hpc)
    · exact hrunning
    · exact absurd hleft (h.not_left i)
  · rw [hstops]
    exact h.stops c

omit [DecidableEq ι] in
theorem Starting.goes (h : Starting s) {p : PoolStartPc n} (waits : p.Waits)
    (awaited : ∀ i, p.Awaited i → (s.threads i).Up)
    (status : p = .asserting ∨ p = .returned → s.status = .kRunning) : Starting { s with start := p } :=
  ⟨h.threads, waits, awaited, status, h.stops⟩

omit [DecidableEq ι] in
theorem Starting.spawns (h : Starting s) {i : Fin n} {p : PoolStartPc n} {t : EventLoopThread} (early : t.Early)
    (waits : p.Waits) (awaited : ∀ j, p.Awaited j → s.start.Awaited j ∧ j ≠ i)
    (status : p ≠ .asserting ∧ p ≠ .returned) : Starting { s.setThread i t with start := p } := by
  refine ⟨?_, waits, fun j hj => ?_, fun hpc => absurd hpc (not_or.mpr status), h.stops⟩
  · exact (Function.forall_update_iff s.threads fun _ t =>
      t.Early ∨ t.Up).mpr ⟨.inl early, fun j _ => h.threads j⟩
  · obtain ⟨hold, hne⟩ := awaited j hj
    show (update s.threads i _ j).Up
    rw [Function.update_of_ne hne]
    exact h.awaited j hold

theorem first_eq_some {i : Fin n} (h : first = some i) : i.val = 0 := by
  unfold first at h
  split at h
  · rw [← Option.some.inj h]
  · cases h

omit [DecidableEq ι] in
theorem Starting.startPool (h : Starting s) : Starting (s.startPool true) := by
  unfold EventLoopThreadPool.startPool
  cases hfirst : first (n := n) with
  | none =>
    obtain rfl := first_eq_none hfirst
    exact ⟨h.threads, trivial, fun i => i.elim0, fun _ => rfl, h.stops⟩
  | some i =>
    have hi := first_eq_some hfirst
    refine ⟨h.threads, rfl, fun j hj => ?_, by simp, h.stops⟩
    have hlt : j.val < i.val := hj
    omega

omit [DecidableEq ι] in
theorem Starting.startNext (h : Starting s) (htracked : Tracked s) (enabled : s.Enabled .startNext) :
    s.startNext.wlp build () fun s' _ => Starting s' := by
  have hearly : ∀ i, (s.threads i).run = .unborn → (s.threads i).Early := fun i hunborn =>
    (h.threads i).resolve_right fun hup => by
      have hrun := hup.run
      simp [hunborn] at hrun
  have hwaits := h.waits
  have hawaited := h.awaited
  unfold EventLoopThreadPool.startNext
  cases hpc : s.start with
  | idle => simp only [Enabled, hpc] at enabled
  | returned => simp only [Enabled, hpc] at enabled
  | waiting =>
    rw [hpc] at hawaited
    rw [Prog.wlp_pure]
    refine h.goes ?_ (fun i _ => hawaited i trivial) fun hgoes => ?_
    · split <;> trivial
    · cases hrunning : s.isRunning with
      | true => exact eq_of_beq hrunning
      | false => simp [hrunning] at hgoes
  | asserting =>
    rw [hpc] at hawaited
    simp only [Prog.wlp_bind, LoopExec.wlp_assert, Prog.wlp_pure]
    exact fun _ => h.goes trivial (fun i _ => hawaited i trivial) fun _ => h.status (.inl hpc)
  | starting i wait pc =>
    rw [hpc] at hwaits hawaited
    have htold := htracked.unborn i
    rw [hpc] at htold
    cases pc with
    | idle =>
      obtain rfl : wait = true := hwaits
      obtain ⟨hlatch, hstopped, _⟩ := hearly i (htold (Nat.le_refl i.val))
      rw [Prog.wlp_pure]
      exact h.spawns ⟨hlatch, hstopped, .inl (htold (Nat.le_refl i.val))⟩ ⟨rfl, rfl⟩
        (fun j hj => ⟨hpc ▸ hj, ne_of_lt hj⟩) (by simp)
    | spawning w =>
      obtain ⟨rfl, rfl⟩ := hwaits
      obtain ⟨hlatch, hstopped, _⟩ := hearly i (htold (Nat.le_refl i.val))
      simp only [EventLoopThread.startStep, Prog.wlp_bind, LoopExec.wlp_assert, Prog.wlp_pure]
      exact fun _ => h.spawns ⟨hlatch, hstopped, .inr (.inl rfl)⟩ rfl
        (fun j hj => ⟨hpc ▸ hj, ne_of_lt hj⟩) (by simp)
    | waiting =>
      obtain rfl : wait = true := hwaits
      have hlatch : (s.threads i).latch = 0 := by simpa [Enabled, hpc, EventLoopThread.CanStart] using enabled
      have hup : (s.threads i).Up := (h.threads i).resolve_left fun hearly => by
        cases hearly.latch.symm.trans hlatch
      simp only [EventLoopThread.startStep, Prog.wlp_bind, Prog.wlp_pure, setThread_self]
      refine h.goes rfl (fun j hj => ?_) (by simp)
      rcases lt_or_eq_of_le (show j ≤ i from hj) with hlt | rfl
      · exact hawaited j hlt
      · exact hup
    | asserting =>
      obtain rfl : wait = true := hwaits
      simp only [EventLoopThread.startStep, Prog.wlp_bind, LoopExec.wlp_assert, Prog.wlp_pure, setThread_self]
      exact fun _ => h.goes rfl hawaited (by simp)
    | returned =>
      obtain rfl : wait = true := hwaits
      rw [Prog.wlp_pure]
      cases hnext : next i with
      | none =>
        have hlast := next_eq_none hnext
        refine h.goes trivial (fun j _ => hawaited j ?_) (by simp)
        have hj := j.isLt
        show j.val ≤ i.val
        omega
      | some k =>
        have hk := next_eq_some hnext
        refine h.goes rfl (fun j hj => hawaited j ?_) (by simp)
        have hjk : j.val < k.val := hj
        show j.val ≤ i.val
        omega

/-! ## From the call of `stop` on -/

/-- Call `c` is the only one of `stop`. -/
structure Stopping (c : ι) (s : EventLoopThreadPool n ι φ) : Prop where
  start : s.start = .returned
  others : ∀ d, d ≠ c → s.stops d = .idle
  waits : (s.stops c).Waits
  up : ∀ i, ¬ (s.stops c).Told i → (s.threads i).Up
  falling : ∀ i, (s.stops c).Told i → (s.threads i).Falling
  seen : ∀ i, (s.stops c).HasSeen i → (s.threads i).status = .kStopped
  status : s.stops c = .idle → s.status = .kStopped

omit [DecidableEq ι] in
/-- What `stop` has seen stopped it has told to stop. -/
theorem Stopping.told_of_seen {p : PoolStopPc n φ} {i : Fin n} (h : p.HasSeen i) : p.Told i := by
  cases p with
  | called _ _ => exact h.elim
  | stopping _ _ _ => exact h.elim
  | _ => trivial

theorem Stopping.own (h : Stopping c s) (hstep : PoolStep build s a s') (ha : Own a) : Stopping c s' := by
  obtain ⟨hstart, hstops, hmoves, hstatus⟩ := hstep.own ha
  have hseen : ∀ i, (s.stops c).HasSeen i →
      (s'.threads i).toEventLoopThread = (s.threads i).toEventLoopThread :=
    fun i hi => (hmoves i).stopped (h.falling i (told_of_seen hi)) (h.seen i hi)
  refine ⟨hstart.trans h.start, fun d hd => ?_, ?_, fun i hi => ?_, fun i hi => ?_,
    fun i hi => ?_, fun hpc => ?_⟩
  · rw [hstops]
    exact h.others d hd
  · rw [hstops]
    exact h.waits
  · rw [hstops] at hi
    exact (hmoves i).up (h.up i hi)
  · rw [hstops] at hi
    exact (hmoves i).falling (h.falling i hi)
  · rw [hstops] at hi
    rw [hseen i hi]
    exact h.seen i hi
  · rw [hstops] at hpc
    have hall : ∀ i, (s.threads i).status = .kStopped := fun i => h.seen i (by rw [hpc]; trivial)
    cases hstep with
    | lastExited i run hook => rfl
    | started i count run hook =>
      have hup := h.falling i (by rw [hpc]; trivial)
      obtain ⟨_, ⟨hother, _⟩ | ⟨_, hexited⟩⟩ := hup
      · cases hother.symm.trans (hall i)
      · cases run.symm.trans hexited
    | run i e t ready notPre notPost done => exact h.status hpc
    | countStarted i run hook => exact h.status hpc
    | countExited i run hook => exact h.status hpc
    | exited i count run hook notLast => exact h.status hpc
    | callback i run hook => exact h.status hpc
    | _ => exact ha.elim

theorem Stopping.goes (h : Stopping c s) {p : PoolStopPc n φ} (stops : s'.stops = update s.stops c p)
    (start : s'.start = s.start) (threads : s'.threads = s.threads) (waits : p.Waits)
    (told : ∀ i, p.Told i ↔ (s.stops c).Told i) (seen : ∀ i, p.HasSeen i → (s.threads i).status = .kStopped)
    (status : p = .idle → s'.status = .kStopped) : Stopping c s' := by
  have hself : s'.stops c = p := by rw [stops, Function.update_self]
  refine ⟨start.trans h.start, fun d hd => ?_, hself ▸ waits, fun i hi => ?_, fun i hi => ?_, fun i hi => ?_,
    hself ▸ status⟩
  · rw [stops, Function.update_of_ne hd]
    exact h.others d hd
  · rw [hself, told] at hi
    rw [threads]
    exact h.up i hi
  · rw [hself, told] at hi
    rw [threads]
    exact h.falling i hi
  · rw [hself] at hi
    rw [threads]
    exact seen i hi

theorem Stopping.tells (h : Stopping c s) {i : Fin n} {p : PoolStopPc n φ} {t : EventLoopThread}
    (waits : p.Waits)
    (told : ∀ j, j ≠ i → (p.Told j ↔ (s.stops c).Told j)) (seen : ∀ j, ¬ p.HasSeen j)
    (falls : p.Told i → t.Falling) (stays : ¬ p.Told i → t.Up) (hp : p ≠ .idle) :
    Stopping c { s.setThread i t with stops := update s.stops c p } := by
  have hself : update s.stops c p c = p := Function.update_self ..
  have hthreads : ∀ j, (p.Told j → (update s.threads i { s.threads i with toEventLoopThread := t } j).Falling) ∧
      (¬ p.Told j → (update s.threads i { s.threads i with toEventLoopThread := t } j).Up) := by
    intro j
    by_cases hj : j = i
    · subst hj
      rw [Function.update_self]
      exact ⟨falls, stays⟩
    · rw [Function.update_of_ne hj, told j hj]
      exact ⟨h.falling j, h.up j⟩
  refine ⟨h.start, fun d hd => ?_, ?_, fun j hj => ?_, fun j hj => ?_, fun j hj => ?_, fun hpc => ?_⟩
  · exact (Function.update_of_ne hd ..).trans (h.others d hd)
  · show (update s.stops c p c).Waits
    rw [hself]
    exact waits
  · exact (hthreads j).2 (hself ▸ hj)
  · exact (hthreads j).1 (hself ▸ hj)
  · exact absurd (hself ▸ hj) (seen j)
  · exact absurd (hself.symm.trans hpc) hp

theorem Stopping.stopNext (h : Stopping c s) {d : ι} (enabled : s.Enabled (.stopNext d)) :
    (s.stopNext d).wlp build () fun s' _ => Stopping c s' := by
  have hd : d = c := by
    by_contra hne
    simp [Enabled, h.others d hne] at enabled
  subst hd
  have hwaits := h.waits
  have hup := h.up
  have hfalling := h.falling
  have hseen := h.seen
  unfold EventLoopThreadPool.stopNext
  cases hpc : s.stops d with
  | idle => simp only [Enabled, hpc] at enabled
  | called wait fn =>
    rw [hpc] at hwaits
    obtain rfl : wait = true := hwaits
    cases hfirst : first (n := n) with
    | some i =>
      have hi := first_eq_some hfirst
      rw [Prog.wlp_pure]
      refine h.goes rfl rfl rfl ⟨rfl, by simp⟩ (fun j => ?_) (fun j hj => hj.elim) (by simp)
      rw [hpc]
      refine iff_of_false (fun hj => ?_) id
      have hlt : j.val < i.val := hj
      omega
    | none =>
      obtain rfl := first_eq_none hfirst
      rw [Prog.wlp_pure]
      exact h.goes rfl rfl rfl trivial (fun i => i.elim0) (fun i => i.elim0) fun _ => rfl
  | stopping i wait q =>
    rw [hpc] at hwaits hup hfalling
    obtain ⟨rfl, hq⟩ := hwaits
    have hleft : ∀ j, j ≠ i → (j ≤ i ↔ j < i) := fun j hj =>
      ⟨fun hle => lt_of_le_of_ne hle hj, le_of_lt⟩
    cases q with
    | idle =>
      rw [Prog.wlp_pure]
      cases hnext : next i with
      | some k =>
        have hk := next_eq_some hnext
        refine h.goes rfl rfl rfl ⟨rfl, by simp⟩ (fun j => ?_) (fun j hj => hj.elim) (by simp)
        rw [hpc]
        show j.val < k.val ↔ j.val ≤ i.val
        omega
      | none =>
        have hlast := next_eq_none hnext
        refine h.goes rfl rfl rfl trivial (fun j => ?_) (fun j hj => ?_) (by simp)
        · rw [hpc]
          have hj := j.isLt
          refine iff_of_true trivial ?_
          show j.val ≤ i.val
          omega
        · exact absurd (show j.val < 0 from hj) (Nat.not_lt_zero _)
    | called w =>
      obtain rfl : w = false := by simpa using hq
      simp only [EventLoopThread.stopStep, Prog.wlp_bind, LoopExec.wlp_assert, Prog.wlp_pure]
      exact fun _ => h.tells ⟨rfl, by simp⟩ (fun j _ => by rw [hpc]; exact Iff.rfl) (fun _ => id)
        (fun hi => absurd hi (lt_irrefl i)) (fun hi => hup i hi) (by simp)
    | tested w =>
      obtain rfl : w = false := by simpa using hq
      simp only [EventLoopThread.stopStep, Prog.wlp_bind, LoopExec.wlp_assert, Prog.wlp_pure]
      exact fun _ => h.tells ⟨rfl, by simp⟩ (fun j _ => by rw [hpc]; exact Iff.rfl) (fun _ => id)
        (fun hi => absurd hi (lt_irrefl i)) (fun hi => hup i hi) (by simp)
    | asserted w =>
      obtain rfl : w = false := by simpa using hq
      have hthread := hup i (lt_irrefl i)
      simp only [EventLoopThread.stopStep, Prog.wlp_bind, Prog.wlp_pure]
      refine h.tells ⟨rfl, by simp⟩ (fun j hj => by rw [hpc]; exact hleft j hj) (fun _ => id)
        (fun _ => ⟨hthread.queued, .inl ⟨rfl, ?_⟩⟩) (fun hnot => absurd (le_refl i) hnot) (by simp)
      rcases hthread.run with hrun | hrun <;> rw [hrun] <;> decide
    | stopping w =>
      obtain rfl : w = false := by simpa using hq
      have hthread := hfalling i (le_refl i)
      simp only [EventLoopThread.stopStep, Prog.wlp_bind, Prog.wlp_pure]
      exact h.tells ⟨rfl, by simp⟩ (fun j _ => by rw [hpc]; exact Iff.rfl) (fun _ => id)
        (fun _ => ⟨hthread.queued, hthread.run⟩) (fun hnot => absurd (le_refl i) hnot) (by simp)
    | waiting => simp at hq
    | joining => simp at hq
  | waiting i =>
    rw [hpc] at hseen
    dsimp only
    split
    · rename_i hstopped
      have hstatus : (s.threads i).status = .kStopped := eq_of_beq hstopped
      have hmore : ∀ j, j.val ≤ i.val → (s.threads j).status = .kStopped := fun j hj => by
        rcases Nat.lt_or_eq_of_le hj with hlt | heq
        · exact hseen j hlt
        · rw [Fin.ext heq]
          exact hstatus
      rw [Prog.wlp_pure]
      cases hnext : next i with
      | some k =>
        have hk := next_eq_some hnext
        refine h.goes rfl rfl rfl trivial (fun j => by rw [hpc]; exact Iff.rfl)
          (fun j hj => hmore j ?_) (by simp)
        have hjk : j.val < k.val := hj
        omega
      | none =>
        have hlast := next_eq_none hnext
        refine h.goes rfl rfl rfl rfl (fun j => by rw [hpc]; exact Iff.rfl) (fun j _ => hmore j ?_) (by simp)
        have hj := j.isLt
        omega
    · rw [Prog.wlp_pure]
      exact h.goes rfl rfl rfl trivial (fun j => by rw [hpc]; exact Iff.rfl)
        (fun j hj => absurd (show j.val < 0 from hj) (Nat.not_lt_zero _)) (by simp)
  | finishing wait =>
    rw [hpc] at hseen
    rw [Prog.wlp_pure]
    exact h.goes rfl rfl rfl trivial (fun j => by rw [hpc]; exact Iff.rfl)
      (fun j _ => hseen j trivial) fun _ => rfl

theorem Stopping.step (h : Stopping c s) (hstep : PoolStep build s a s') (enabled : s.Enabled a)
    (ha : a.isStop = false) (done : s.exec a build () = .ok (s', ())) : Stopping c s' := by
  cases a with
  | start wait => exact absurd (h.start.symm.trans enabled) (by simp)
  | startNext => simp only [Enabled, h.start] at enabled
  | run i e => exact h.own hstep trivial
  | hook i => exact h.own hstep trivial
  | stop d wait fn => cases ha
  | stopNext d => exact h.stopNext enabled _ _ done

theorem Starting.step (h : Starting s) (htracked : Tracked s) (hstep : PoolStep build s a s')
    (enabled : s.Enabled a) (condition : Served as a) (ha : a.isStop = false)
    (done : s.exec a build () = .ok (s', ())) : Starting s' := by
  cases a with
  | start wait =>
    obtain rfl : wait = true := condition
    cases done
    exact h.startPool
  | startNext => exact h.startNext htracked enabled _ _ done
  | run i e => exact h.own hstep trivial
  | hook i => exact h.own hstep trivial
  | stop d wait fn => cases ha
  | stopNext d =>
    have hidle := h.stops d
    simp only [Enabled, hidle] at enabled

theorem Starting.stop (h : Starting s) {fn : Option φ} (enabled : s.Enabled (.stop c true fn)) :
    Stopping c { s with status := .kStopping, stops := update s.stops c (.called true fn) } := by
  have hawaited := h.awaited
  rw [enabled.1] at hawaited
  have hself : update s.stops c (.called true fn) c = .called true fn := Function.update_self ..
  refine ⟨enabled.1, fun d hd => ?_, ?_, fun i _ => hawaited i trivial, fun i hi => ?_, fun i hi => ?_,
    fun hpc => ?_⟩
  · exact (Function.update_of_ne hd ..).trans (h.stops d)
  · show (update s.stops c (.called true fn) c).Waits
    rw [hself]
    rfl
  · change (update s.stops c (.called true fn) c).Told i at hi
    rw [hself] at hi
    exact hi.elim
  · change (update s.stops c (.called true fn) c).HasSeen i at hi
    rw [hself] at hi
    exact hi.elim
  · cases hself.symm.trans hpc

/-! ## In every run -/

/-- Before `stop` is called, and from then on. -/
theorem run_served (h : (machine n ι φ).Run build (fun as _ _ a => Served as a) as s ()) :
    ((∀ a ∈ as, a.isStop = false) → Starting s) ∧ ((∃ a ∈ as, a.isStop = true) → ∃ c, Stopping c s) := by
  apply h.history (I := fun as s _ => ((∀ a ∈ as, a.isStop = false) → Starting s) ∧
    ((∃ a ∈ as, a.isStop = true) → ∃ c, Stopping c s))
  · rintro _ _ rfl
    exact ⟨fun _ => starting_new, fun ⟨_, hmem, _⟩ => absurd hmem List.not_mem_nil⟩
  · rintro as s _ a s' _ hrun ⟨hstarting, hstopping⟩ enabled condition done
    have hstep := exec_step enabled _ _ done
    have hlast : a ∈ as ++ [a] := List.mem_append_right _ (List.mem_singleton_self a)
    refine ⟨fun hnever => ?_, ?_⟩
    · have hbefore := hstarting fun b hb => hnever b (List.mem_append_left _ hb)
      exact hbefore.step (run_tracked hrun) hstep enabled condition (hnever a hlast) done
    · rintro ⟨b, hb, hstop⟩
      cases ha : a.isStop with
      | true =>
        cases a with
        | stop c wait fn =>
          obtain ⟨rfl, hnever⟩ := condition
          cases done
          exact ⟨c, (hstarting hnever).stop enabled⟩
        | _ => cases ha
      | false =>
        have hbefore : ∃ b ∈ as, b.isStop = true := by
          cases List.mem_append.mp hb with
          | inl hold => exact ⟨b, hold, hstop⟩
          | inr hnew =>
            rw [List.mem_singleton.mp hnew, ha] at hstop
            cases hstop
        obtain ⟨c, hcalled⟩ := hstopping hbefore
        exact ⟨c, hcalled.step hstep enabled ha done⟩

/-- When `start` has returned, and until `stop` is called, the pool and its threads are
    running. -/
theorem start_returned (h : (machine n ι φ).Run build (fun as _ _ a => Served as a) as s ())
    (hreturned : s.start = .returned) (hnever : ∀ a ∈ as, a.isStop = false) :
    s.status = .kRunning ∧ ∀ i, (s.threads i).status = .kRunning := by
  have hstarting := (run_served h).1 hnever
  have hawaited := hstarting.awaited
  rw [hreturned] at hawaited
  exact ⟨hstarting.status (.inr hreturned), fun i => (hawaited i trivial).status⟩

/-- When `stop` has returned, the pool and its threads are stopped. -/
theorem stop_returned (h : (machine n ι φ).Run build (fun as _ _ a => Served as a) as s ())
    (hreturned : ∀ c, s.stops c = .idle) (hcalled : ∃ a ∈ as, a.isStop = true) :
    s.status = .kStopped ∧ ∀ i, (s.threads i).status = .kStopped := by
  obtain ⟨c, hstopping⟩ := (run_served h).2 hcalled
  exact ⟨hstopping.status (hreturned c), fun i => hstopping.seen i (by rw [hreturned c]; trivial)⟩

end EventLoopThreadPool

end Loop

end Netpp
