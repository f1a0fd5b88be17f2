import Netpp.Conn.TCPConn
import Netpp.Lib.Machine
import Netpp.Loop.RunEvery

/-! # The timers of a loop

A `TimerService` is what asio knows of the timers of a loop: the waits that are pending, and those
that have completed, with `success` or with `operation_aborted`, and are to be served.

* `runAfter` and `runEvery` of `EventLoop` arm timers.  The lambda of `runEvery` is served in two
  steps, `serve` and `rearm`, and between them the functor and other threads can cancel.
* `closeWithDelay` and `handleClose` of a connection are part of the system, with what they do to
  `delay_close_timer_`; `DelayedClose` shows that this is what they do to its `Life`.
* `Moves` are the steps that cancel nothing; `exec_spec` says that every other step leaves
  `afterCancel`.
* `Tracked`: each timer has at most one handler that has not been served to its end.
-/

namespace Netpp

open EventLoop (Callback DealTimerPtr Functor Handler Target TimeDuration TimerFault)

/-! ## The timers of a loop -/

/-- The `error_code` a wait completes with. -/
inductive WaitResult where
  | success
  | operationAborted
  deriving DecidableEq, Repr

/-- What `async_wait` is given. -/
inductive WaitHandler (φ : Type) where
  | after (timer : DealTimerPtr) (f : Functor φ)  -- the lambda of `runAfter`
  | every (handler : Handler φ)                   -- what `std::bind` returns in `runEvery`
  deriving DecidableEq

def WaitHandler.timer {φ : Type} : WaitHandler φ → DealTimerPtr
  | after timer _ => timer
  | every handler => handler.timer

inductive TimerEvent (φ : Type) where
  | called (f : φ) (ec : WaitResult)   -- a functor, by a wait that completed with `ec`
  | cancelled (timer : DealTimerPtr)
  | rearmed (timer : DealTimerPtr)
  deriving DecidableEq

structure TimerService (φ : Type) where
  count : Nat := 0                                        -- the timers that have been created
  expiry : DealTimerPtr → TimeDuration := fun _ => 0      -- from the last `expires_from_now` on
  waits : List (WaitHandler φ) := []                      -- the waits that are pending
  completed : List (WaitHandler φ × WaitResult) := []     -- those that have completed, to be served
  running : Option (Handler φ) := none                    -- has called its functor, will arm its timer
  log : List (TimerEvent φ) := []

/-- What `closeWithDelay` and `handleClose` know of a connection. -/
structure DelayedClose where
  status : StateE := .kConnected
  delayCloseTimer : Option DealTimerPtr := none

abbrev Conns : Type := Nat → DelayedClose

abbrev ServiceExec (φ α : Type) : Type := Prog Unit (TimerService φ) TimerFault α

namespace TimerService

section Code

variable {φ : Type} (call : φ → φ) (closer : Nat → φ)

/-- All pending waits of the timer complete. -/
def complete (s : TimerService φ) (timer : DealTimerPtr) (ec : WaitResult) : TimerService φ :=
  { s with
    waits := s.waits.filter fun w => !decide (w.timer = timer)
    completed := s.completed ++ (s.waits.filter fun w => decide (w.timer = timer)).map (·, ec) }

/-- `new deadline_timer(*io_service_)` -/
def newTimer : ServiceExec φ DealTimerPtr := fun _ s => .ok (s.count, { s with count := s.count + 1 })

def expiresFromNow (timer : DealTimerPtr) (delay : TimeDuration) : ServiceExec φ Unit := fun _ s =>
  .ok ((), { s.complete timer .operationAborted with expiry := Function.update s.expiry timer delay })

def asyncWait (handler : WaitHandler φ) : ServiceExec φ Unit := fun _ s =>
  .ok ((), { s with waits := s.waits ++ [handler] })

def runAfter (delay : TimeDuration) (f : Functor φ) : ServiceExec φ DealTimerPtr := do
  let timer ← newTimer
  expiresFromNow timer delay
  asyncWait (.after timer f)
  pure timer

def runEvery (delay : TimeDuration) (f : Functor φ) : ServiceExec φ DealTimerPtr := do
  let callback : Callback := .empty
  -- the lambda is created, with its copy of `callback`, before it is assigned
  let callback : Callback := .lambda callback
  let timer ← newTimer
  expiresFromNow timer delay
  asyncWait (.every ⟨.callback callback, timer, delay, f⟩)
  pure timer

/-- `deadline_timer::cancel` -/
def cancel (timer : DealTimerPtr) : ServiceExec φ Unit := fun _ s =>
  .ok ((), { s.complete timer .operationAborted with log := s.log ++ [.cancelled timer] })

def expire (timer : DealTimerPtr) : ServiceExec φ Unit := fun _ s => .ok ((), s.complete timer .success)

/-- `f();` in a handler whose wait has completed with `ec`. -/
def callFunctor (f : Functor φ) (ec : WaitResult) : ServiceExec φ (Functor φ) :=
  match f with
  | none => throw .badFunctionCall
  | some target => fun _ s => .ok (some (call target), { s with log := s.log ++ [.called target ec] })

/-- The first statement of a function that will arm the timer with `target`. -/
def callBound (target : Target) (h : Handler φ) (ec : WaitResult) : ServiceExec φ Unit := do
  let f ← callFunctor call h.f ec
  fun _ s => .ok ((), { s with running := some ⟨target, h.timer, h.delay, f⟩ })

def invoke (ec : WaitResult) : WaitHandler φ → ServiceExec φ Unit
  | .after _ f => do
    let _ ← callFunctor call f ec
    pure ()
  | .every h =>
    match h.target with
    | .callback .empty => throw .badFunctionCall
    | .callback (.lambda callback) => callBound call (.callback callback) h ec
    | .execTimerEvery => callBound call .execTimerEvery h ec

/-- The loop serves one of the handlers whose waits have completed. -/
def serve (i : Nat) : ServiceExec φ Unit := fun r s =>
  match s.completed[i]? with
  | none => .error .notPending
  | some (w, ec) => invoke call ec w r { s with completed := s.completed.eraseIdx i }

/-- `timer->expires_from_now(delay); timer->async_wait(std::bind(callback, timer, delay, f));` -/
def rearm : ServiceExec φ Unit := fun r s =>
  match s.running with
  | none => .error .notPending
  | some h => (do
    expiresFromNow h.timer h.delay
    asyncWait (.every h) : ServiceExec φ Unit) r
      { s with running := none, log := s.log ++ [.rearmed h.timer] }

/-! ## The timer of a connection -/

/-- `closeWithDelay` as far as its timer goes. -/
def closeWithDelay (conns : Conns) (c : Nat) (seconds : TimeDuration) : ServiceExec φ Conns :=
  if (conns c).status = .kConnected then do
    let timer ← runAfter (seconds * 1000000) (some (closer c))
    pure (Function.update conns c { status := .kDisconnecting, delayCloseTimer := some timer })
  else pure conns

/-- `handleClose` as far as the timer of the connection goes; `handleError` sets `status_` first. -/
def handleClose (conns : Conns) (c : Nat) : ServiceExec φ Conns :=
  if (conns c).status ≠ .kDisconnected then do
    match (conns c).delayCloseTimer with
    | some timer => cancel timer
    | none => pure ()
    pure (Function.update conns c { status := .kDisconnected, delayCloseTimer := none })
  else pure conns

end Code

/-! ## The system -/

inductive TimerAction (φ : Type) where
  | runAfter (delay : TimeDuration) (f : Functor φ)
  | runEvery (delay : TimeDuration) (f : Functor φ)
  | cancel (timer : DealTimerPtr)
  | expire (timer : DealTimerPtr)
  | serve (i : Nat)
  | rearm
  | closeWithDelay (c : Nat) (seconds : TimeDuration)
  | handleClose (c : Nat)

/-- The timer that a step cancels. -/
def TimerAction.cancels {φ : Type} (conns : Conns) : TimerAction φ → Option DealTimerPtr
  | cancel timer => some timer
  | handleClose c => if (conns c).status ≠ .kDisconnected then (conns c).delayCloseTimer else none
  | _ => none

section System

variable {φ : Type} (call : φ → φ) (closer : Nat → φ)

def Enabled (s : TimerService φ) : TimerAction φ → Prop
  | .cancel timer => timer < s.count
  | .expire timer => ∃ w ∈ s.waits, w.timer = timer
  | .serve i => s.running = none ∧ i < s.completed.length
  | .rearm => s.running ≠ none
  | _ => True

def exec (conns : Conns) : TimerAction φ → ServiceExec φ Conns
  | .runAfter delay f => do
    let _ ← runAfter delay f
    pure conns
  | .runEvery delay f => do
    let _ ← runEvery delay f
    pure conns
  | .cancel timer => do
    cancel timer
    pure conns
  | .expire timer => do
    expire timer
    pure conns
  | .serve i => do
    serve call i
    pure conns
  | .rearm => do
    rearm
    pure conns
  | .closeWithDelay c seconds => closeWithDelay closer conns c seconds
  | .handleClose c => handleClose conns c

/-- Timers and connections, with the functor `closer c` closing the connection `c`. -/
def machine : Machine Unit (TimerService φ) TimerFault Conns (TimerAction φ) where
  Init conns s := conns = (fun _ => {}) ∧ s = {}
  Enabled _ s a := Enabled s a
  exec conns a := exec call closer conns a

end System

/-! ## What a step can do -/

section Moves

variable {φ : Type} {call : φ → φ} {closer : Nat → φ} {s s' : TimerService φ} {conns conns' : Conns}
  {a : TimerAction φ} {timer other : DealTimerPtr} {delay : TimeDuration} {ec : WaitResult}

/-- The handlers that have not been served to their end. -/
def outstanding (s : TimerService φ) : List (WaitHandler φ) :=
  s.waits ++ s.completed.map Prod.fst ++ s.running.toList.map .every

/-- Each timer has at most one of them. -/
structure Tracked (s : TimerService φ) : Prop where
  once : (s.outstanding.map WaitHandler.timer).Nodup
  known : ∀ w ∈ s.outstanding, w.timer < s.count
  cancelled : ∀ timer, .cancelled timer ∈ s.log → timer < s.count

def armed (s : TimerService φ) (w : WaitHandler φ) (delay : TimeDuration) : TimerService φ :=
  { s with
    count := s.count + 1
    expiry := Function.update s.expiry s.count delay
    waits := s.waits ++ [w] }

def afterCancel (s : TimerService φ) (timer : DealTimerPtr) : TimerService φ :=
  { s.complete timer .operationAborted with log := s.log ++ [.cancelled timer] }

/-- The steps that cancel nothing. -/
inductive Moves (call : φ → φ) (s : TimerService φ) : TimerService φ → Prop
  | stay : Moves call s s
  | arm (w : WaitHandler φ) (delay : TimeDuration) (new : w.timer = s.count) : Moves call s (s.armed w delay)
  | expire (timer : DealTimerPtr) : Moves call s (s.complete timer .success)
  | serveAfter (timer : DealTimerPtr) (f : φ) (ec : WaitResult) (rest : List (WaitHandler φ × WaitResult))
      (idle : s.running = none) (served : ((.after timer (some f), ec) :: rest).Perm s.completed) :
      Moves call s { s with completed := rest, log := s.log ++ [.called f ec] }
  | serveEvery (h : Handler φ) (next : Target) (f : φ) (ec : WaitResult)
      (rest : List (WaitHandler φ × WaitResult)) (idle : s.running = none)
      (served : ((.every h, ec) :: rest).Perm s.completed) (rearms : h.target.rearms = some next)
      (functor : h.f = some f) :
      Moves call s { s with
        completed := rest
        running := some ⟨next, h.timer, h.delay, some (call f)⟩
        log := s.log ++ [.called f ec] }
  | rearm (h : Handler φ) (running : s.running = some h) :
      Moves call s { s with
        expiry := Function.update s.expiry h.timer h.delay
        waits := s.waits ++ [.every h]
        running := none
        log := s.log ++ [.rearmed h.timer] }

theorem mem_outstanding {w : WaitHandler φ} : w ∈ s.outstanding ↔
    w ∈ s.waits ∨ (∃ ec, (w, ec) ∈ s.completed) ∨ ∃ h, s.running = some h ∧ .every h = w := by
  simp [outstanding]

theorem mem_completed_complete {w : WaitHandler φ} {ec' : WaitResult} :
    (w, ec') ∈ (s.complete timer ec).completed ↔
      (w, ec') ∈ s.completed ∨ (w ∈ s.waits ∧ w.timer = timer) ∧ ec = ec' := by
  simp [complete]

theorem mem_waits_complete {w : WaitHandler φ} :
    w ∈ (s.complete timer ec).waits ↔ w ∈ s.waits ∧ w.timer ≠ timer := by
  simp [complete]

/-- Expired or aborted, a handler is still to be served.  So `cancel` leaves the `timers` of a
    connection's `Life` as they are. -/
theorem outstanding_complete (s : TimerService φ) (timer : DealTimerPtr) (ec : WaitResult) :
    (s.complete timer ec).outstanding.Perm s.outstanding := by
  have hmap : ((s.waits.filter fun w => decide (w.timer = timer)).map (·, ec)).map Prod.fst =
      s.waits.filter fun w => decide (w.timer = timer) := by
    rw [List.map_map]
    exact List.map_id _
  simp only [outstanding, complete, List.map_append, hmap]
  apply List.Perm.append_right
  refine List.perm_append_comm.trans ?_
  rw [List.append_assoc]
  exact ((List.filter_append_perm _ s.waits).append_left _).trans List.perm_append_comm

theorem outstanding_armed (s : TimerService φ) (w : WaitHandler φ) (delay : TimeDuration) :
    (s.armed w delay).outstanding.Perm (w :: s.outstanding) := by
  simp only [outstanding, armed, List.append_assoc]
  exact List.perm_middle

theorem complete_of_none (h : ∀ w ∈ s.waits, w.timer ≠ timer) : s.complete timer ec = s := by
  have hkept : s.waits.filter (fun w => !decide (w.timer = timer)) = s.waits :=
    List.filter_eq_self.mpr fun w hw => by simpa using h w hw
  have hnone : s.waits.filter (fun w => decide (w.timer = timer)) = [] :=
    List.filter_eq_nil_iff.mpr fun w hw => by simpa using h w hw
  simp [complete, hkept, hnone]

theorem Tracked.running_alone (h : Tracked s) {r : Handler φ} (hrun : s.running = some r) :
    ∀ w ∈ s.waits, w.timer ≠ r.timer := by
  intro w hw heq
  have honce := h.once
  simp only [outstanding, hrun, List.map_append, List.nodup_append] at honce
  exact honce.2.2 w.timer (by simp; exact .inl ⟨w, hw, rfl⟩) r.timer (by simp [WaitHandler.timer]) heq

/-- `expires_from_now` aborts nothing on a new timer. -/
theorem Tracked.complete_new (h : Tracked s) : complete { s with count := s.count + 1 } s.count
    .operationAborted = { s with count := s.count + 1 } :=
  complete_of_none fun w hw => Nat.ne_of_lt (h.known w (mem_outstanding.mpr (.inl hw)))

theorem runAfter_eq (h : Tracked s) (delay : TimeDuration) (f : Functor φ) :
    runAfter delay f () s = .ok (s.count, s.armed (.after s.count f) delay) := by
  simp only [runAfter, Prog.bind_apply, newTimer, expiresFromNow, asyncWait, h.complete_new]
  rfl

theorem runEvery_eq (h : Tracked s) (delay : TimeDuration) (f : Functor φ) :
    runEvery delay f () s = .ok (s.count,
      s.armed (.every ⟨.callback (.lambda .empty), s.count, delay, f⟩) delay) := by
  simp only [runEvery, Prog.bind_apply, newTimer, expiresFromNow, asyncWait, h.complete_new]
  rfl

theorem invoke_every (h : Handler φ) (ec : WaitResult) : invoke call ec (.every h) =
    match h.target.rearms with
    | none => throw .badFunctionCall
    | some next => callBound call next h ec := by
  obtain ⟨target, timer, delay, f⟩ := h
  cases target with
  | callback fn => cases fn <;> rfl
  | execTimerEvery => rfl

theorem serve_moves {i : Nat} (idle : s.running = none) (done : serve call i () s = .ok ((), s')) :
    Moves call s s' := by
  rw [serve] at done
  cases hget : s.completed[i]? with
  | none =>
    rw [hget] at done
    cases done
  | some served =>
    obtain ⟨w, ec⟩ := served
    rw [hget] at done
    obtain ⟨hi, hw⟩ := List.getElem?_eq_some_iff.mp hget
    have hperm : ((w, ec) :: s.completed.eraseIdx i).Perm s.completed :=
      hw ▸ List.getElem_cons_eraseIdx_perm hi
    cases w with
    | after timer f =>
      cases f with
      | none => cases done  -- an empty functor throws
      | some f =>
        cases done
        exact .serveAfter timer f ec _ idle hperm
    | every h =>
      simp only [invoke_every] at done
      cases hnext : h.target.rearms with
      | none =>
        rw [hnext] at done
        cases done
      | some next =>
        rw [hnext] at done
        simp only [callBound] at done
        cases hf : h.f with
        | none =>
          rw [hf] at done
          cases done
        | some f =>
          rw [hf] at done
          cases done
          exact .serveEvery h next f ec _ idle hperm hnext hf

theorem rearm_moves (htracked : Tracked s) (done : rearm () s = .ok ((), s')) : Moves call s s' := by
  rw [rearm] at done
  cases hrun : s.running with
  | none =>
    rw [hrun] at done
    cases done
  | some h =>
    have hnone : complete { s with running := none, log := s.log ++ [.rearmed h.timer] } h.timer
        .operationAborted = { s with running := none, log := s.log ++ [.rearmed h.timer] } :=
      complete_of_none (htracked.running_alone hrun)
    simp only [hrun, Prog.bind_apply, expiresFromNow, asyncWait, hnone] at done
    cases done
    exact .rearm h hrun

/-- What a step does to the timers, and which timer a connection has after it. -/
theorem exec_spec (htracked : Tracked s) (enabled : Enabled s a)
    (done : exec call closer conns a () s = .ok (conns', s')) :
    (∀ timer, a.cancels conns = some timer → s' = s.afterCancel timer) ∧
    (a.cancels conns = none → Moves call s s') ∧
    ∀ c timer, (conns' c).delayCloseTimer = some timer → (conns c).delayCloseTimer = some timer ∨
      ∃ delay, timer = s.count ∧ s' = s.armed (.after timer (some (closer c))) delay := by
  cases a with
  | runAfter delay f =>
    simp only [exec, Prog.bind_apply, runAfter_eq htracked] at done
    cases done
    exact ⟨nofun, fun _ => .arm _ delay rfl, fun _ _ => .inl⟩
  | runEvery delay f =>
    simp only [exec, Prog.bind_apply, runEvery_eq htracked] at done
    cases done
    exact ⟨nofun, fun _ => .arm _ delay rfl, fun _ _ => .inl⟩
  | cancel timer =>
    cases done
    refine ⟨?_, nofun, fun _ _ => .inl⟩
    intro t ht
    cases ht
    rfl
  | expire timer =>
    cases done
    exact ⟨nofun, fun _ => .expire timer, fun _ _ => .inl⟩
  | serve i =>
    simp only [exec, Prog.bind_apply] at done
    cases hserve : serve call i () s with
    | error e =>
      rw [hserve] at done
      cases done
    | ok p =>
      rw [hserve] at done
      cases done
      exact ⟨nofun, fun _ => serve_moves enabled.1 hserve, fun _ _ => .inl⟩
  | rearm =>
    simp only [exec, Prog.bind_apply] at done
    cases hrearm : rearm () s with
    | error e =>
      rw [hrearm] at done
      cases done
    | ok p =>
      rw [hrearm] at done
      cases done
      exact ⟨nofun, fun _ => rearm_moves htracked hrearm, fun _ _ => .inl⟩
  | closeWithDelay c seconds =>
    simp only [exec, closeWithDelay] at done
    split at done
    · simp only [Prog.bind_apply, runAfter_eq htracked] at done
      cases done
      refine ⟨nofun, fun _ => .arm _ _ rfl, ?_⟩
      intro d timer htimer
      by_cases hd : d = c
      · subst hd
        rw [Function.update_self] at htimer
        cases htimer
        exact .inr ⟨_, rfl, rfl⟩
      · rw [Function.update_of_ne hd] at htimer
        exact .inl htimer
    · cases done
      exact ⟨nofun, fun _ => .stay, fun _ _ => .inl⟩
  | handleClose c =>
    simp only [exec, handleClose] at done
    have hothers : ∀ d timer, ((Function.update conns c
        { status := .kDisconnected, delayCloseTimer := none } : Conns) d).delayCloseTimer = some timer →
        (conns d).delayCloseTimer = some timer := by
      intro d timer htimer
      by_cases hd : d = c
      · subst hd
        rw [Function.update_self] at htimer
        cases htimer
      · rwa [Function.update_of_ne hd] at htimer
    split at done
    · rename_i hstatus
      simp only [TimerAction.cancels, if_pos hstatus]
      cases htimer : (conns c).delayCloseTimer with
      | none =>
        rw [htimer] at done
        cases done
        exact ⟨nofun, fun _ => .stay, fun d t h => .inl (hothers d t h)⟩
      | some timer =>
        rw [htimer] at done
        cases done
        refine ⟨?_, nofun, fun d t h => .inl (hothers d t h)⟩
        intro t ht
        cases ht
        rfl
    · rename_i hstatus
      cases done
      simp only [TimerAction.cancels, if_neg hstatus]
      exact ⟨nofun, fun _ => .stay, fun _ _ => .inl⟩

/-! ## One outstanding handler for each timer -/

theorem Tracked.of_subperm (h : Tracked s)
    (timers : (s'.outstanding.map WaitHandler.timer).Subperm (s.outstanding.map WaitHandler.timer))
    (count : s'.count = s.count)
    (log : ∀ timer, .cancelled timer ∈ s'.log → .cancelled timer ∈ s.log ∨ timer < s.count) : Tracked s' where
  once := by
    obtain ⟨l, hperm, hsub⟩ := timers
    exact hperm.nodup_iff.mp (h.once.sublist hsub)
  known w hw := by
    obtain ⟨v, hv, heq⟩ := List.mem_map.mp (timers.subset (List.mem_map_of_mem hw))
    rw [count, ← heq]
    exact h.known v hv
  cancelled timer hin := by
    rw [count]
    exact (log timer hin).elim (h.cancelled timer) id

theorem Tracked.afterCancel (h : Tracked s) (ht : timer < s.count) : Tracked (s.afterCancel timer) := by
  have hperm : (s.afterCancel timer).outstanding.Perm s.outstanding :=
    outstanding_complete s timer .operationAborted
  refine h.of_subperm (hperm.map _).subperm rfl ?_
  intro t hin
  cases List.mem_append.mp hin with
  | inl hold => exact .inl hold
  | inr hnew =>
    cases List.mem_singleton.mp hnew
    exact .inr ht

theorem mem_log_append {log : List (TimerEvent φ)} {e : TimerEvent φ} (hne : e ≠ .cancelled timer)
    (hin : .cancelled timer ∈ log ++ [e]) : .cancelled timer ∈ log := by
  cases List.mem_append.mp hin with
  | inl hold => exact hold
  | inr hnew => exact absurd (List.mem_singleton.mp hnew).symm hne

theorem Tracked.moves (h : Tracked s) (hmove : Moves call s s') : Tracked s' := by
  cases hmove with
  | stay => exact h
  | arm w delay new =>
    have hperm := outstanding_armed s w delay
    refine ⟨?_, ?_, fun t hin => Nat.lt_succ_of_lt (h.cancelled t hin)⟩
    · apply (hperm.map _).nodup_iff.mpr
      rw [List.map_cons, List.nodup_cons]
      refine ⟨fun hin => ?_, h.once⟩
      obtain ⟨v, hv, heq⟩ := List.mem_map.mp hin
      exact absurd (h.known v hv) (by rw [heq, new]; exact Nat.lt_irrefl _)
    · intro v hv
      show v.timer < s.count + 1
      cases List.mem_cons.mp (hperm.mem_iff.mp hv) with
      | inl hnew => rw [hnew, new]; exact Nat.lt_succ_self _
      | inr hold => exact Nat.lt_succ_of_lt (h.known v hold)
  | expire timer =>
    exact h.of_subperm ((outstanding_complete s timer .success).map _).subperm rfl fun _ hin => .inl hin
  | serveAfter timer f ec rest idle served =>
    refine h.of_subperm ?_ rfl fun t hin => .inl (mem_log_append (e := .called f ec) nofun hin)
    have hserved : (.after timer (some f) :: rest.map Prod.fst).Perm (s.completed.map Prod.fst) :=
      served.map Prod.fst
    have hrest : ((rest.map Prod.fst).map WaitHandler.timer).Subperm
        ((s.completed.map Prod.fst).map WaitHandler.timer) :=
      (List.sublist_cons_self _ _).subperm.trans (hserved.map WaitHandler.timer).subperm
    simp only [outstanding, List.map_append]
    exact (List.subperm_append_right _).mpr ((List.subperm_append_left _).mpr hrest)
  | serveEvery h' next f ec rest idle served rearms functor =>
    refine h.of_subperm ?_ rfl fun t hin => .inl (mem_log_append (e := .called f ec) nofun hin)
    have hserved : (.every h' :: rest.map Prod.fst).Perm (s.completed.map Prod.fst) := served.map Prod.fst
    apply List.Perm.subperm
    simp only [outstanding, idle, Option.toList_none, Option.toList_some, List.map_append, List.map_nil,
      List.append_nil, List.append_assoc, List.map_cons]
    apply List.Perm.append_left
    exact List.perm_append_comm.trans (hserved.map WaitHandler.timer)
  | rearm h' running =>
    refine h.of_subperm ?_ rfl fun t hin => .inl (mem_log_append (e := .rearmed h'.timer) nofun hin)
    apply List.Perm.subperm
    apply List.Perm.map
    simp only [outstanding, running, Option.toList_none, Option.toList_some, List.map_nil, List.append_nil,
      List.append_assoc, List.map_cons]
    exact List.perm_append_comm.append_left _

end Moves

end TimerService

end Netpp
