import Netpp.Conn.TCPConn
import Netpp.Loop.TimerService

/-! # The delayed close of a connection

`TimerService` has the `delay_close_timer_` of a connection; its `Life` says no more of it than whether it
is null, and how many timers there are whose handler will close the connection.

* `Follows`: the two agree about a connection.
* `closeWithDelay`, the handler of its timer and `handleClose` do the same to both, if no other thread
  comes between their statements: `closeWithDelay_follows`, `serve_follows`, `handleClose_follows`.
* Every other step of the timers leaves the `Life` of the connection as it is: `Follows.others`.
-/

namespace Netpp

open EventLoop (DealTimerPtr TimeDuration TimerFault)

/-! ## The calls of a connection -/

namespace TCPConn

/-- All of `closeWithDelay`. -/
def delayed (l : Life) : Life :=
  if l.status = .kConnected then closeGoesOn (closeGoesOn (closeWithDelay l) .arming) .assigning
  else closeWithDelay l

/-- The handler of the timer is called, as `World.exec` says for `fireTimer`. -/
def fired (l : Life) : Life := { l with timers := l.timers - 1, pc := .closing }

/-- All of `handleClose`, from its start on. -/
def closed (l : Life) (f : Flow) : ConnExec Life := do
  let r ← resume l f
  let r ← resume r.1 r.2
  let r ← resume r.1 r.2
  let r ← resume r.1 r.2
  pure r.1

theorem closed_spec {l : Life} (hpc : l.pc = .closing) (hstatus : l.status = .kDisconnecting)
    (hopen : !l.socket || l.isOpen) (f : Flow) (build : Build) (m : Mem) :
    (closed l f).wp build m fun l' _ => l' = { l with
      status := .kDisconnected
      socket := false
      isOpen := false
      delayCloseTimer := false
      pc := .idle
      log := l.log ++ [.connection .kDisconnecting, .close] } := by
  have hassert : (l.status == .kDisconnecting) = true := by rw [hstatus]; rfl
  have hgoes : l.status ≠ .kDisconnected := by rw [hstatus]; exact nofun
  simp only [closed, Prog.wp_bind, resume, hpc, handleClose, onPieces, Prog.wp_mapFault]
  simp only [wp_assert hassert, wp_assert hopen, if_pos hgoes, Prog.wp_bind, Prog.wp_mapFault, Prog.wp_pure,
    notifyDisconnecting, notifyClosed, List.append_assoc, List.singleton_append]

end TCPConn

namespace TimerService

open TCPConn (delayed fired closed)

variable {φ : Type} [DecidableEq φ] {call : φ → φ} {closer : Nat → φ} {s s' : TimerService φ}
  {conns conns' : Conns} {c : Nat} {l : Life} {a : TimerAction φ}

def closes (closer : Nat → φ) (c : Nat) : WaitHandler φ → Bool
  | .after _ f => f = some (closer c)
  | .every _ => false

def closings (closer : Nat → φ) (c : Nat) (s : TimerService φ) : Nat := s.outstanding.countP (closes closer c)

/-- What the timers know of a connection is what its `Life` says. -/
structure Follows (closer : Nat → φ) (conns : Conns) (s : TimerService φ) (c : Nat) (l : Life) : Prop where
  status : (conns c).status = l.status
  timer : (conns c).delayCloseTimer.isSome = l.delayCloseTimer
  timers : s.closings closer c = l.timers

/-! ## Timers that will close a connection -/

theorem closings_complete (timer : DealTimerPtr) (ec : WaitResult) :
    (s.complete timer ec).closings closer c = s.closings closer c :=
  (outstanding_complete s timer ec).countP_eq _

theorem closings_armed (w : WaitHandler φ) (delay : TimeDuration) :
    (s.armed w delay).closings closer c = s.closings closer c + (closes closer c w).toNat := by
  rw [closings, (outstanding_armed s w delay).countP_eq, List.countP_cons, closings]
  cases closes closer c w <;> rfl

theorem closings_eq : s.closings closer c = s.waits.countP (closes closer c) +
    (s.completed.map Prod.fst).countP (closes closer c) := by
  have hrunning : (s.running.toList.map WaitHandler.every).countP (closes closer c) = 0 :=
    List.countP_eq_zero.mpr fun w hw => by
      obtain ⟨h, _, rfl⟩ := List.mem_map.mp hw
      exact nofun
  rw [closings, outstanding, List.countP_append, List.countP_append, hrunning, Nat.add_zero]

theorem closings_rearm (done : rearm () s = .ok ((), s')) : s'.closings closer c = s.closings closer c := by
  rw [rearm] at done
  cases hrun : s.running with
  | none =>
    rw [hrun] at done
    cases done
  | some h =>
    rw [hrun] at done
    cases done
    have hcomplete : (s.complete h.timer .operationAborted).closings closer c = s.closings closer c :=
      closings_complete h.timer .operationAborted
    rw [closings_eq] at hcomplete ⊢
    rw [← hcomplete]
    simp [complete, closes]

omit [DecidableEq φ] in
theorem served_eq {i : Nat} {w : WaitHandler φ} {ec : WaitResult} (hget : s.completed[i]? = some (w, ec))
    (done : serve call i () s = .ok ((), s')) :
    s'.waits = s.waits ∧ s'.completed = s.completed.eraseIdx i := by
  rw [serve, hget] at done
  cases w with
  | after timer f =>
    cases f with
    | none => cases done
    | some f =>
      cases done
      exact ⟨rfl, rfl⟩
  | every h =>
    simp only [invoke_every, callBound] at done
    cases hnext : h.target.rearms with
    | none =>
      rw [hnext] at done
      cases done
    | some next =>
      rw [hnext] at done
      cases hf : h.f with
      | none =>
        rw [hf] at done
        cases done
      | some f =>
        rw [hf] at done
        cases done
        exact ⟨rfl, rfl⟩

theorem closings_serve {i : Nat} {w : WaitHandler φ} {ec : WaitResult}
    (hget : s.completed[i]? = some (w, ec)) (done : serve call i () s = .ok ((), s')) :
    s.closings closer c = s'.closings closer c + (closes closer c w).toNat := by
  obtain ⟨hwaits, hcompleted⟩ := served_eq hget done
  obtain ⟨hi, hw⟩ := List.getElem?_eq_some_iff.mp hget
  have hperm : (w :: (s.completed.eraseIdx i).map Prod.fst).Perm (s.completed.map Prod.fst) := by
    have hserved : ((w, ec) :: s.completed.eraseIdx i).Perm s.completed :=
      hw ▸ List.getElem_cons_eraseIdx_perm hi
    exact hserved.map Prod.fst
  rw [closings_eq, closings_eq, hwaits, hcompleted, ← hperm.countP_eq, List.countP_cons]
  cases closes closer c w <;> simp [Nat.add_assoc]

/-! ## The calls do the same to both -/

theorem closeWithDelay_follows (h : Follows closer conns s c l) (htracked : Tracked s)
    (seconds : TimeDuration) :
    (closeWithDelay closer conns c seconds).wp () s fun conns' s' =>
      Follows closer conns' s' c (delayed l) := by
  rw [closeWithDelay, delayed, h.status]
  split
  · rename_i hstatus
    refine (Prog.wp_bind ..).mpr ((Prog.wp_of_eq_ok (runAfter_eq htracked _ _)).mpr ((Prog.wp_pure ..).mpr ?_))
    have htimers : (s.armed (.after s.count (some (closer c))) (seconds * 1000000)).closings closer c =
        l.timers + 1 := by
      rw [closings_armed, h.timers]
      simp [closes]
    refine ⟨?_, ?_, htimers.trans ?_⟩
    all_goals simp [TCPConn.closeGoesOn, TCPConn.closeWithDelay, TCPConn.compareExchange, hstatus]
  · rename_i hstatus
    refine (Prog.wp_pure ..).mpr ?_
    rw [TCPConn.closeWithDelay, TCPConn.compareExchange, if_neg hstatus]
    exact h

/-- The timer of the connection has expired or been aborted, and its handler closes the connection. -/
theorem serve_follows (h : Follows closer conns s c l) {i : Nat} {w : WaitHandler φ} {ec : WaitResult}
    (hget : s.completed[i]? = some (w, ec)) (hcloses : closes closer c w)
    (done : serve call i () s = .ok ((), s')) : 0 < l.timers ∧ Follows closer conns s' c (fired l) := by
  have hserve : s.closings closer c = s'.closings closer c + (closes closer c w).toNat :=
    closings_serve hget done
  rw [hcloses, h.timers] at hserve
  refine ⟨by rw [hserve]; exact Nat.succ_pos _, h.status, h.timer, ?_⟩
  rw [fired, hserve]
  rfl

/-- `handleClose`, which finds the connection closing or is made to by `handleError`. -/
theorem handleClose_follows (h : Follows closer conns s c l) (hstatus : l.status ≠ .kDisconnected)
    (hopen : !l.socket || l.isOpen) (f : Flow) (build : Build) (m : Mem) :
    (handleClose conns c).wp () s fun conns' s' =>
      (closed { l with status := .kDisconnecting, pc := .closing } f).wp build m fun l' _ =>
        Follows closer conns' s' c l' := by
  have hclosed := TCPConn.closed_spec (l := { l with status := .kDisconnecting, pc := .closing }) rfl rfl
    hopen f build m
  have hconn : (conns c).status ≠ .kDisconnected := by rwa [h.status]
  rw [handleClose, if_pos hconn]
  cases htimer : (conns c).delayCloseTimer with
  | none =>
    simp only [Prog.wp_pure]
    refine hclosed.imp ?_
    rintro l' _ rfl
    exact ⟨by simp, by simp, h.timers⟩
  | some timer =>
    have hcancel : cancel timer () s = .ok ((), s.afterCancel timer) := rfl
    simp only [Prog.wp_bind, Prog.wp_of_eq_ok hcancel, Prog.wp_pure]
    refine hclosed.imp ?_
    rintro l' _ rfl
    exact ⟨by simp, by simp, (closings_complete timer .operationAborted).trans h.timers⟩

/-- What closes no connection `c`, and makes no timer that will. -/
def Others (closer : Nat → φ) (c : Nat) (s : TimerService φ) : TimerAction φ → Prop
  | .runAfter _ f => f ≠ some (closer c)
  | .serve i => ∀ w ec, s.completed[i]? = some (w, ec) → closes closer c w = false
  | .closeWithDelay d _ => d ≠ c ∧ closer d ≠ closer c
  | .handleClose d => d ≠ c
  | _ => True

theorem Follows.others (h : Follows closer conns s c l) (htracked : Tracked s) (enabled : Enabled s a)
    (hothers : Others closer c s a) (done : exec call closer conns a () s = .ok (conns', s')) :
    Follows closer conns' s' c l := by
  cases a with
  | runAfter delay f =>
    simp only [exec, Prog.bind_apply, runAfter_eq htracked] at done
    cases done
    refine ⟨h.status, h.timer, ?_⟩
    rw [closings_armed, h.timers]
    simpa [closes, Others] using hothers
  | runEvery delay f =>
    simp only [exec, Prog.bind_apply, runEvery_eq htracked] at done
    cases done
    refine ⟨h.status, h.timer, ?_⟩
    rw [closings_armed, h.timers]
    rfl
  | cancel timer =>
    cases done
    exact ⟨h.status, h.timer, (closings_complete timer .operationAborted).trans h.timers⟩
  | expire timer =>
    cases done
    exact ⟨h.status, h.timer, (closings_complete timer .success).trans h.timers⟩
  | serve i =>
    simp only [exec, Prog.bind_apply] at done
    cases hserve : serve call i () s with
    | error e =>
      rw [hserve] at done
      cases done
    | ok p =>
      rw [hserve] at done
      cases done
      have hget := List.getElem?_eq_getElem enabled.2
      have hclosings : s.closings closer c = _ + (closes closer c _).toNat := closings_serve hget hserve
      rw [hothers _ _ hget] at hclosings
      exact ⟨h.status, h.timer, hclosings.symm.trans h.timers⟩
  | rearm =>
    simp only [exec, Prog.bind_apply] at done
    cases hrearm : rearm () s with
    | error e =>
      rw [hrearm] at done
      cases done
    | ok p =>
      rw [hrearm] at done
      cases done
      exact ⟨h.status, h.timer, (closings_rearm hrearm).trans h.timers⟩
  | closeWithDelay d seconds =>
    simp only [exec, closeWithDelay] at done
    split at done
    · simp only [Prog.bind_apply, runAfter_eq htracked] at done
      cases done
      refine ⟨?_, ?_, ?_⟩
      · rw [Function.update_of_ne (Ne.symm hothers.1)]
        exact h.status
      · rw [Function.update_of_ne (Ne.symm hothers.1)]
        exact h.timer
      · rw [closings_armed, h.timers]
        simpa [closes] using hothers.2
    · cases done
      exact h
  | handleClose d =>
    have hconns : ∀ e, (Function.update conns d e : Conns) c = conns c := fun e =>
      Function.update_of_ne (Ne.symm hothers) e conns
    simp only [exec, handleClose] at done
    split at done
    · cases htimer : (conns d).delayCloseTimer with
      | none =>
        rw [htimer] at done
        cases done
        exact ⟨by rw [hconns]; exact h.status, by rw [hconns]; exact h.timer, h.timers⟩
      | some timer =>
        rw [htimer] at done
        cases done
        exact ⟨by rw [hconns]; exact h.status, by rw [hconns]; exact h.timer,
          (closings_complete timer .operationAborted).trans h.timers⟩
    · cases done
      exact h

end TimerService

end Netpp
