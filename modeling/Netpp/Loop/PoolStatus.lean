import Netpp.Loop.PoolTracking

/-! # The status of a pool

`stop` ends with `kStopped` whether it has waited or not, and the hook of the last thread
that starts stores `kRunning` whenever it comes.

* `StopsRunning`: `stop` is called when every thread has counted itself and the last one
  has stored `kRunning`; a `stop` that does not wait ends when every thread has left its
  loop.
* `status_truthful`: then `kStopped` says that every thread has left its loop, and
  `kRunning` is not stored after a call of `stop`.
-/

namespace Netpp.Loop

open Function (update)
open ServerStatus

def PoolAction.isStop {n : Nat} {ι φ : Type} : PoolAction n ι φ → Bool
  | .stop _ _ _ => true
  | _ => false

namespace EventLoopThreadPool

variable {n : Nat} {ι φ : Type} [DecidableEq ι] {build : Build} {s s' : EventLoopThreadPool n ι φ}
  {a : PoolAction n ι φ} {as : List (PoolAction n ι φ)}

/-- Every thread has counted itself in `prefn`, and `kRunning` has been stored. -/
def AllStarted (s : EventLoopThreadPool n ι φ) : Prop :=
  ∀ i, (s.threads i).hook ≠ .fresh ∧ (s.threads i).hook ≠ .started n

def StopsRunning (s : EventLoopThreadPool n ι φ) : PoolAction n ι φ → Prop
  | .stop _ _ _ => s.AllStarted
  | .stopNext c => s.stops c = .finishing false → ∀ i, (s.threads i).Left
  | _ => True

omit [DecidableEq ι] in
theorem AllStarted.update (h : AllStarted s) {i : Fin n} {u : PoolThread}
    (threads : s'.threads = update s.threads i u) (hu : u.hook ≠ .fresh ∧ u.hook ≠ .started n) :
    AllStarted s' := by
  unfold AllStarted
  rw [threads]
  exact (Function.forall_update_iff s.threads fun _ t => t.hook ≠ .fresh ∧ t.hook ≠ .started n).mpr
    ⟨hu, fun j _ => h j⟩

/-- After a call of `stop`. -/
structure Called (s : EventLoopThreadPool n ι φ) : Prop where
  start : s.start ≠ .idle
  started : s.AllStarted
  status : s.status ≠ .kRunning

theorem Called.step (h : Called s) (hstep : PoolStep build s a s') : Called s' := by
  obtain ⟨hstart, hstarted, hstatus⟩ := h
  cases hstep with
  | start wait i idle => exact absurd idle hstart
  | startEmpty wait idle empty => exact absurd idle hstart
  | startThread i wait pc => exact ⟨nofun, hstarted.update rfl (hstarted i), hstatus⟩
  | spawn i wait w p pc behind => exact ⟨nofun, hstarted.update rfl (hstarted i), hstatus⟩
  | startMoves p unborn started => exact ⟨started, hstarted, hstatus⟩
  | run i e t ready notPre notPost done => exact ⟨hstart, hstarted.update rfl (hstarted i), hstatus⟩
  | countStarted i run hook => exact absurd hook (hstarted i).1
  | started i count run hook =>
    have hcount : count ≠ n := fun hcount => (hstarted i).2 (hcount ▸ hook)
    refine ⟨hstart, hstarted.update rfl ⟨nofun, nofun⟩, ?_⟩
    rw [if_neg hcount]
    exact hstatus
  | countExited i run hook => exact ⟨hstart, hstarted.update rfl ⟨nofun, nofun⟩, hstatus⟩
  | lastExited i run hook => exact ⟨hstart, hstarted.update rfl ⟨nofun, nofun⟩, nofun⟩
  | exited i count run hook notLast => exact ⟨hstart, hstarted.update rfl ⟨nofun, nofun⟩, hstatus⟩
  | callback i run hook => exact ⟨hstart, hstarted.update rfl ⟨nofun, nofun⟩, hstatus⟩
  | stop c wait fn returned idle => exact ⟨hstart, hstarted, nofun⟩
  | stopEmpty c wait fn pc empty => exact ⟨hstart, hstarted, nofun⟩
  | finish c wait pc => exact ⟨hstart, hstarted, nofun⟩
  | stopThread c i wait q q' t pc done => exact ⟨hstart, hstarted.update rfl (hstarted i), hstatus⟩
  | _ => exact ⟨hstart, hstarted, hstatus⟩

/-- What a `stop` that waits has seen. -/
def Seen (s : EventLoopThreadPool n ι φ) : PoolStopPc n φ → Prop
  | .waiting i => ∀ j < i, (s.threads j).Left
  | .finishing true => ∀ j, (s.threads j).Left
  | _ => True

/-- What `kStopped` and the calls of `stop` that wait say about the threads. -/
structure Truthful (s : EventLoopThreadPool n ι φ) : Prop where
  stopped : s.status = .kStopped → ∀ i, (s.threads i).Left
  seen : ∀ c, s.Seen (s.stops c)

omit [DecidableEq ι] in
theorem Seen.mono {p : PoolStopPc n φ} (h : s.Seen p) (left : ∀ j, (s.threads j).Left → (s'.threads j).Left) :
    s'.Seen p := by
  cases p with
  | waiting i => exact fun j hj => left j (h j hj)
  | finishing wait =>
    cases wait with
    | false => trivial
    | true => exact fun j => left j (h j)
  | _ => trivial

omit [DecidableEq ι] in
theorem Truthful.keep (h : Truthful s) (left : ∀ j, (s.threads j).Left → (s'.threads j).Left)
    (status : s'.status = .kStopped → s.status = .kStopped) (stops : s'.stops = s.stops) : Truthful s' := by
  refine ⟨fun hs i => left i (h.stopped (status hs) i), fun c => ?_⟩
  rw [stops]
  exact (h.seen c).mono left

theorem Truthful.move (h : Truthful s) (left : ∀ j, (s.threads j).Left → (s'.threads j).Left)
    (status : s'.status = .kStopped → s.status = .kStopped ∨ ∀ i, (s'.threads i).Left) {c : ι}
    {p : PoolStopPc n φ} (stops : s'.stops = update s.stops c p) (seen : s'.Seen p) : Truthful s' := by
  refine ⟨fun hs i => ?_, ?_⟩
  · rcases status hs with hold | hall
    · exact left i (h.stopped hold i)
    · exact hall i
  · rw [stops]
    exact (Function.forall_update_iff s.stops fun _ p => s'.Seen p).mpr
      ⟨seen, fun d _ => (h.seen d).mono left⟩

omit [DecidableEq ι] in
theorem Truthful.look (h : Truthful s) (htracked : Tracked s) {c : ι} {i : Fin n}
    (pc : s.stops c = .waiting i) (stopped : (s.threads i).isStopped = true) :
    ∀ j ≤ i, (s.threads j).Left := by
  intro j hj
  rcases lt_or_eq_of_le hj with hlt | rfl
  · have hseen := h.seen c
    rw [pc] at hseen
    exact hseen j hlt
  · have hstatus : (s.threads j).status = .kStopped := eq_of_beq stopped
    rw [EventLoopThread.Left, (htracked.sound j).stopped hstatus]
    decide

theorem Truthful.step (h : Truthful s) (htracked : Tracked s) (condition : StopsRunning s a)
    (hstep : PoolStep build s a s') : Truthful s' := by
  have hleft := fun j => htracked.stays_left hstep j
  cases hstep with
  | start wait i idle => exact h.keep hleft nofun rfl
  | startEmpty wait idle empty => exact h.keep hleft nofun rfl
  | started i count run hook =>
    refine h.keep hleft (fun hs => ?_) rfl
    dsimp only at hs
    split at hs
    · cases hs
    · exact hs
  | lastExited i run hook =>
    have htracked' := htracked.lastExited run hook
    have hcount := (htracked'.calling i (by simp)).1
    exact ⟨fun _ => htracked'.all_left hcount, fun c => (h.seen c).mono hleft⟩
  | stop c wait fn returned idle => exact h.move hleft nofun rfl trivial
  | stopEmpty c wait fn pc empty =>
    refine h.move hleft (fun _ => .inr fun i => ?_) rfl trivial
    subst empty
    exact i.elim0
  | assign c wait fn i pc => exact h.move hleft .inl rfl trivial
  | stopThread c i wait q q' t pc done => exact h.move hleft .inl rfl trivial
  | nextThread c i j wait pc hj => exact h.move hleft .inl rfl trivial
  | allTold c i j wait pc last hj =>
    refine h.move hleft .inl rfl ?_
    cases wait with
    | false => trivial
    | true => exact fun k hk => absurd hk (by simp [Fin.lt_def, hj])
  | looked c i j pc stopped hj =>
    refine h.move hleft .inl rfl fun k hk => h.look htracked pc stopped k ?_
    rw [Fin.lt_def] at hk
    rw [Fin.le_def]
    omega
  | lookedLast c i pc stopped last =>
    refine h.move hleft .inl rfl fun k => h.look htracked pc stopped k ?_
    have hk := k.isLt
    rw [Fin.le_def]
    omega
  | lookAgain c i j pc hj =>
    exact h.move hleft .inl rfl fun k hk => absurd hk (by simp [Fin.lt_def, hj])
  | finish c wait pc =>
    refine h.move hleft (fun _ => .inr ?_) rfl trivial
    cases wait with
    | false => exact condition pc
    | true =>
      have hseen := h.seen c
      rw [pc] at hseen
      exact hseen
  | _ => exact h.keep hleft id rfl

theorem run_truthful (h : (machine n ι φ).Run build (fun _ s _ a => StopsRunning s a) as s ()) :
    Truthful s ∧ ((∃ a ∈ as, a.isStop = true) → Called s) := by
  apply h.history (I := fun as s _ => Truthful s ∧ ((∃ a ∈ as, a.isStop = true) → Called s))
  · rintro _ _ rfl
    exact ⟨⟨nofun, fun _ => trivial⟩, fun ⟨_, hmem, _⟩ => absurd hmem List.not_mem_nil⟩
  · intro as s _ a s' _ hrun ⟨htruthful, hcalled⟩ enabled condition done
    have hstep := exec_step enabled _ _ done
    refine ⟨htruthful.step (run_tracked hrun) condition hstep, fun ⟨b, hb, hstop⟩ => ?_⟩
    cases List.mem_append.mp hb with
    | inl hold => exact (hcalled ⟨b, hold, hstop⟩).step hstep
    | inr hnew =>
      obtain rfl := List.mem_singleton.mp hnew
      cases hstep with
      | stop c wait fn returned idle => exact ⟨by rw [returned]; nofun, condition, nofun⟩
      | _ => cases hstop

/-- If `stop` finds all threads started, and finds them out of their loops where it does not
    wait for them: `kStopped` says that every thread has left its loop, and the status is
    never `kRunning` again once `stop` has been called. -/
theorem status_truthful (h : (machine n ι φ).Run build (fun _ s _ a => StopsRunning s a) as s ()) :
    (s.status = .kStopped → ∀ i, (s.threads i).Left) ∧
    ((∃ a ∈ as, a.isStop = true) → s.status ≠ .kRunning) := by
  obtain ⟨htruthful, hcalled⟩ := run_truthful h
  exact ⟨htruthful.stopped, fun hstop => (hcalled hstop).status⟩

/-- A pool of one thread is started and stopped, both waiting. -/
theorem status_truthful_waiting : ∃ (as : List (PoolAction 1 Unit Unit)) (s : EventLoopThreadPool 1 Unit Unit),
    (machine 1 Unit Unit).Run .debug (fun _ s _ a => StopsRunning s a) as s () ∧
    s.status = .kStopped ∧ (∀ i, (s.threads i).Left) ∧ s.status ≠ .kRunning := by
  have r : (machine 1 Unit Unit).Run .debug (fun _ s _ a => StopsRunning s a) [] {} () := .start rfl
  have r := run_next r (.start true) rfl trivial rfl
  have r := run_next r .startNext (.inl rfl) trivial rfl
  have r := run_next r .startNext (.inr (.inr trivial)) trivial rfl
  have r := run_next r (.run 0 .begin) ⟨rfl, nofun, nofun⟩ trivial rfl
  have r := run_next r (.run 0 .announce) ⟨⟨rfl, rfl, rfl⟩, nofun, nofun⟩ trivial rfl
  have r := run_next r (.run 0 .countDown) ⟨rfl, nofun, nofun⟩ trivial rfl
  have r := run_next r .startNext (.inr (.inr rfl)) trivial rfl
  have r := run_next r .startNext (.inr (.inr trivial)) trivial rfl
  have r := run_next r (.hook 0) trivial trivial rfl
  have r := run_next r (.hook 0) trivial trivial rfl
  have r := run_next r .startNext (.inr (.inl rfl)) trivial rfl
  have r := run_next r .startNext trivial trivial rfl
  have r := run_next r .startNext trivial trivial rfl
  have r := run_next r (.stop () true none) ⟨rfl, rfl⟩ (fun i => match i with | 0 => ⟨nofun, nofun⟩) rfl
  have r := run_next r (.stopNext ()) trivial nofun rfl
  have r := run_next r (.stopNext ()) (.inr trivial) nofun rfl
  have r := run_next r (.stopNext ()) (.inr trivial) nofun rfl
  have r := run_next r (.stopNext ()) (.inr trivial) nofun rfl
  have r := run_next r (.stopNext ()) (.inr trivial) nofun rfl
  have r := run_next r (.run 0 .leave) ⟨⟨rfl, .inl rfl⟩, nofun, nofun⟩ trivial rfl
  have r := run_next r (.hook 0) trivial trivial rfl
  have r := run_next r (.hook 0) trivial trivial rfl
  have htruthful := status_truthful r
  exact ⟨_, _, r, rfl, htruthful.1 rfl, htruthful.2 ⟨.stop () true none, by simp, rfl⟩⟩

/-- `stop(false)` returns, and the status is `kStopped`, while the thread is still in its
    loop. -/
theorem early_stopped :
    ¬ ∀ (n : Nat) (ι φ : Type) [DecidableEq ι] (as : List (PoolAction n ι φ)) (s : EventLoopThreadPool n ι φ),
      0 < n → (machine n ι φ).Run .debug (fun _ _ _ _ => True) as s () →
      (s.status = .kStopped → ∀ i, (s.threads i).Left) ∧
      ((∃ a ∈ as, a.isStop = true) → s.status ≠ .kRunning) := by
  intro htruthful
  have r : (machine 1 Unit Unit).Run .debug (fun _ _ _ _ => True) [] {} () := .start rfl
  have r := run_next r (.start false) rfl trivial rfl
  have r := run_next r .startNext (.inl rfl) trivial rfl
  have r := run_next r .startNext (.inr (.inr trivial)) trivial rfl
  have r := run_next r (.run 0 .begin) ⟨rfl, nofun, nofun⟩ trivial rfl
  have r := run_next r (.run 0 .announce) ⟨⟨rfl, rfl, rfl⟩, nofun, nofun⟩ trivial rfl
  have r := run_next r .startNext (.inr (.inl rfl)) trivial rfl
  have r := run_next r (.stop () false none) ⟨rfl, rfl⟩ trivial rfl
  have r := run_next r (.stopNext ()) trivial trivial rfl
  have r := run_next r (.stopNext ()) (.inr trivial) trivial rfl
  have r := run_next r (.stopNext ()) (.inr trivial) trivial rfl
  have r := run_next r (.stopNext ()) (.inr trivial) trivial rfl
  have r := run_next r (.stopNext ()) (.inr trivial) trivial rfl
  have r := run_next r (.stopNext ()) (.inl rfl) trivial rfl
  have r := run_next r (.stopNext ()) trivial trivial rfl
  have hleft : (RunPc.announced : RunPc) ∈ [.left, .posted, .asserted, .exited] :=
    (htruthful 1 Unit Unit _ _ Nat.one_pos r).1 rfl 0
  revert hleft
  decide

/-- A `stop` between the two steps of the last thread's `onThreadStarted`: the status is
    `kRunning` after it. -/
theorem late_running : ∃ (as : List (PoolAction 1 Unit Unit)) (s : EventLoopThreadPool 1 Unit Unit),
    (machine 1 Unit Unit).Run .debug (fun _ _ _ _ => True) as s () ∧
    (∃ a ∈ as, a.isStop = true) ∧ s.status = .kRunning := by
  have r : (machine 1 Unit Unit).Run .debug (fun _ _ _ _ => True) [] {} () := .start rfl
  have r := run_next r (.start false) rfl trivial rfl
  have r := run_next r .startNext (.inl rfl) trivial rfl
  have r := run_next r .startNext (.inr (.inr trivial)) trivial rfl
  have r := run_next r (.run 0 .begin) ⟨rfl, nofun, nofun⟩ trivial rfl
  have r := run_next r (.run 0 .announce) ⟨⟨rfl, rfl, rfl⟩, nofun, nofun⟩ trivial rfl
  have r := run_next r (.run 0 .countDown) ⟨rfl, nofun, nofun⟩ trivial rfl
  have r := run_next r .startNext (.inr (.inl rfl)) trivial rfl
  have r := run_next r (.hook 0) trivial trivial rfl
  have r := run_next r (.stop () true none) ⟨rfl, rfl⟩ trivial rfl
  have r := run_next r (.hook 0) trivial trivial rfl
  exact ⟨_, _, r, ⟨.stop () true none, by simp, rfl⟩, rfl⟩

end EventLoopThreadPool

end Netpp.Loop
