import Mathlib.Data.List.Iterate
import Netpp.Lib.Program

/-! # Periodic timers

`runEvery` arms a timer with a lambda that calls the functor and arms the timer again,
with what it captured as `callback`.  `[=]` captures by value, at the moment the lambda
is created, and `callback` is still empty then: the lambda is assigned to it afterwards.

* A `Callback` is such a function, with the function it has captured inside.
* `expirations_iff`: a timer that is armed with a `Callback` expires as often as there
  are lambdas in it.  In that of `runEvery` there is one.
* `execTimerEvery` binds itself again, so the timers it arms go on for ever.

A functor can change when it is called; `call` says how.
-/

namespace Netpp

namespace EventLoop

/-! ## Functions and timers -/

/-- `boost::posix_time::time_duration`, in microseconds. -/
abbrev TimeDuration : Type := Int

/-- `std::function<void()>`, which is empty or has a target. -/
abbrev Functor (φ : Type) : Type := Option φ

abbrev DealTimerPtr : Type := Nat

/-- `std::function<void(DealTimerPtr, time_duration, Functor)>`: empty, or the lambda of
    `runEvery` with its copy of `callback`. -/
inductive Callback where
  | empty
  | lambda (callback : Callback)
  deriving DecidableEq

/-- The first argument of `std::bind`. -/
inductive Target where
  | callback (callback : Callback)
  | execTimerEvery
  deriving DecidableEq

/-- What `std::bind` returns.  It takes the `error_code` of the wait and drops it. -/
structure Handler (φ : Type) where
  target : Target
  timer : DealTimerPtr
  delay : TimeDuration
  f : Functor φ
  deriving DecidableEq

structure DeadlineTimer (φ : Type) where
  expiry : TimeDuration := 0          -- from the last `expires_from_now` on
  waits : List (Handler φ) := []      -- the waits that are pending
  cancelled : List (Handler φ) := []  -- those that are not any more, and were not served

structure Timers (φ : Type) where
  timer : DealTimerPtr → DeadlineTimer φ := fun _ => {}
  count : Nat := 0                    -- the timers that have been created
  log : List φ := []                  -- the functors that have been called

inductive TimerFault where
  | badFunctionCall    -- `std::bad_function_call`: the function is empty
  | notPending         -- the timer has no wait that could complete
  deriving DecidableEq, Repr

abbrev TimerExec (φ α : Type) : Type := Prog Unit (Timers φ) TimerFault α

section Code

variable {φ : Type} (call : φ → φ)

def Timers.set (s : Timers φ) (timer : DealTimerPtr) (t : DeadlineTimer φ) : Timers φ :=
  { s with timer := Function.update s.timer timer t }

/-- `new deadline_timer(*io_service_)` -/
def newTimer : TimerExec φ DealTimerPtr := fun _ s =>
  .ok (s.count, { s.set s.count {} with count := s.count + 1 })

/-- `expires_from_now` cancels the waits that are pending. -/
def expiresFromNow (timer : DealTimerPtr) (delay : TimeDuration) : TimerExec φ Unit := fun _ s =>
  let t := s.timer timer
  .ok ((), s.set timer { expiry := delay, waits := [], cancelled := t.cancelled ++ t.waits })

def asyncWait (timer : DealTimerPtr) (handler : Handler φ) : TimerExec φ Unit := fun _ s =>
  let t := s.timer timer
  .ok ((), s.set timer { t with waits := t.waits ++ [handler] })

/-- `f();` -/
def callFunctor (f : Functor φ) : TimerExec φ (Functor φ) :=
  match f with
  | none => throw .badFunctionCall
  | some target => fun _ s => .ok (some (call target), { s with log := s.log ++ [target] })

/-- `f(); timer->expires_from_now(delay); timer->async_wait(std::bind(target, ...));` -/
def callAndWait (target : Target) (timer : DealTimerPtr) (delay : TimeDuration) (f : Functor φ) :
    TimerExec φ Unit := do
  let f ← callFunctor call f
  expiresFromNow timer delay
  asyncWait timer ⟨target, timer, delay, f⟩

/-- The body of the lambda in `runEvery`, with the `callback` it has captured. -/
def callbackBody (callback : Callback) (timer : DealTimerPtr) (delay : TimeDuration)
    (f : Functor φ) : TimerExec φ Unit :=
  callAndWait call (.callback callback) timer delay f

def execTimerEvery (timer : DealTimerPtr) (delay : TimeDuration) (f : Functor φ) :
    TimerExec φ Unit :=
  callAndWait call .execTimerEvery timer delay f

def Handler.invoke (h : Handler φ) : TimerExec φ Unit :=
  match h.target with
  | .callback .empty => throw .badFunctionCall
  | .callback (.lambda callback) => callbackBody call callback h.timer h.delay h.f
  | .execTimerEvery => execTimerEvery call h.timer h.delay h.f

def runEvery (delay : TimeDuration) (f : Functor φ) : TimerExec φ DealTimerPtr := do
  let callback : Callback := .empty
  -- the lambda is created, with its copy of `callback`, before it is assigned
  let callback : Callback := .lambda callback
  let timer ← newTimer
  expiresFromNow timer delay
  asyncWait timer ⟨.callback callback, timer, delay, f⟩
  pure timer

/-- The timer of `runEvery`, re-armed through `execTimerEvery`. -/
def runExecTimerEvery (delay : TimeDuration) (f : Functor φ) : TimerExec φ DealTimerPtr := do
  let timer ← newTimer
  expiresFromNow timer delay
  asyncWait timer ⟨.execTimerEvery, timer, delay, f⟩
  pure timer

/-! ## Expirations -/

/-- The timer expires: a pending wait completes. -/
def takeWait (timer : DealTimerPtr) : TimerExec φ (Handler φ) := fun _ s =>
  let t := s.timer timer
  match t.waits with
  | [] => .error .notPending
  | handler :: rest => .ok (handler, s.set timer { t with waits := rest })

def expire (timer : DealTimerPtr) : TimerExec φ Unit := do
  let handler ← takeWait timer
  handler.invoke call

def expirations : Nat → DealTimerPtr → TimerExec φ Unit
  | 0, _ => pure ()
  | n + 1, timer => do
    expire call timer
    expirations n timer

end Code

/-! ## How long a timer goes on -/

/-- The lambdas inside a function. -/
def Callback.depth : Callback → Nat
  | .empty => 0
  | .lambda callback => callback.depth + 1

/-- What a timer that was armed with this is armed with by its handler. -/
def Target.rearms : Target → Option Target
  | .callback .empty => none
  | .callback (.lambda fn) => some (.callback fn)
  | .execTimerEvery => some .execTimerEvery

/-- A timer armed with this can expire `n` times before an empty function is called. -/
def Target.Lasts : Target → Nat → Prop
  | .callback fn, n => n ≤ fn.depth
  | .execTimerEvery, _ => True

instance (target : Target) (n : Nat) : Decidable (target.Lasts n) :=
  match target with
  | .callback fn => inferInstanceAs (Decidable (n ≤ fn.depth))
  | .execTimerEvery => isTrue trivial

def armed {φ : Type} (target : Target) (timer : DealTimerPtr) (delay : TimeDuration)
    (f : Functor φ) : DeadlineTimer φ where
  expiry := delay
  waits := [⟨target, timer, delay, f⟩]

section Specs

variable {φ : Type} (call : φ → φ) {s s' : Timers φ} {timer : DealTimerPtr} {target : Target}
  {delay : TimeDuration} {f : Functor φ} {g : φ} {n : Nat}

theorem Timers.set_timer (s : Timers φ) (timer : DealTimerPtr) (t : DeadlineTimer φ) :
    (s.set timer t).timer timer = t := Function.update_self ..

theorem Timers.set_other {other : DealTimerPtr} (s : Timers φ) (t : DeadlineTimer φ)
    (h : other ≠ timer) : (s.set timer t).timer other = s.timer other := Function.update_of_ne h ..

/-- What one expiration or several leave behind: the calls are logged, and no other timer
    has changed. -/
structure Fired (s s' : Timers φ) (timer : DealTimerPtr) (calls : List φ) : Prop where
  log : s'.log = s.log ++ calls
  others : ∀ other, other ≠ timer → s'.timer other = s.timer other

theorem Fired.refl (s : Timers φ) (timer : DealTimerPtr) : Fired s s timer [] :=
  ⟨(List.append_nil _).symm, fun _ _ => rfl⟩

theorem Fired.trans {s₁ s₂ : Timers φ} {calls more : List φ} (h : Fired s s₁ timer calls)
    (h' : Fired s₁ s₂ timer more) : Fired s s₂ timer (calls ++ more) :=
  ⟨by rw [h'.log, h.log, List.append_assoc],
    fun other hother => (h'.others other hother).trans (h.others other hother)⟩

theorem Target.lasts_zero (target : Target) : target.Lasts 0 := by
  cases target with
  | callback fn => exact Nat.zero_le _
  | execTimerEvery => trivial

theorem Target.lasts_succ : target.Lasts (n + 1) ↔ ∃ next, target.rearms = some next ∧ next.Lasts n := by
  cases target with
  | callback fn =>
    cases fn with
    | empty => simp [Target.Lasts, Target.rearms, Callback.depth]
    | lambda inner => simp [Target.Lasts, Target.rearms, Callback.depth]
  | execTimerEvery => simp [Target.Lasts, Target.rearms]

theorem invoke_eq (h : Handler φ) : h.invoke call = match h.target.rearms with
    | none => throw .badFunctionCall
    | some next => callAndWait call next h.timer h.delay h.f := by
  obtain ⟨target, timer, delay, f⟩ := h
  cases target with
  | callback fn => cases fn <;> rfl
  | execTimerEvery => rfl

theorem expire_armed (harmed : s.timer timer = armed target timer delay f) :
    expire call timer () s = (match target.rearms with
      | none => throw .badFunctionCall
      | some next => callAndWait call next timer delay f : TimerExec φ Unit) ()
        (s.set timer { armed target timer delay f with waits := [] }) := by
  rw [← invoke_eq call ⟨target, timer, delay, f⟩]
  simp only [expire, Prog.bind_apply, takeWait, harmed, armed]

theorem callAndWait_ok (target : Target) (delay : TimeDuration) (g : φ)
    (hwaits : (s.timer timer).waits = []) (hcancelled : (s.timer timer).cancelled = []) :
    ∃ s', callAndWait call target timer delay (some g) () s = .ok ((), s') ∧ Fired s s' timer [g] ∧
      s'.timer timer = armed target timer delay (some (call g)) := by
  refine ⟨_, rfl, ⟨rfl, fun other hother => ?_⟩, ?_⟩
  · exact (Timers.set_other _ _ hother).trans (Timers.set_other _ _ hother)
  · simp [Timers.set, armed, hwaits, hcancelled]

theorem expire_ok {next : Target} (harmed : s.timer timer = armed target timer delay (some g))
    (hnext : target.rearms = some next) :
    ∃ s', expire call timer () s = .ok ((), s') ∧ Fired s s' timer [g] ∧
      s'.timer timer = armed next timer delay (some (call g)) := by
  rw [expire_armed call harmed, hnext]
  have htaken : (s.set timer { armed target timer delay (some g) with waits := [] }).timer timer =
      { armed target timer delay (some g) with waits := [] } := Timers.set_timer ..
  obtain ⟨s', hrun, hfired, hwaits⟩ := callAndWait_ok call next delay g
    (by rw [htaken]) (by rw [htaken]; rfl)
  refine ⟨s', hrun, ⟨hfired.log, fun other hother => ?_⟩, hwaits⟩
  exact (hfired.others other hother).trans (Timers.set_other _ _ hother)

theorem expirations_ok (harmed : s.timer timer = armed target timer delay (some g))
    (hlasts : target.Lasts n) :
    ∃ s', expirations call n timer () s = .ok ((), s') ∧ Fired s s' timer (List.iterate call g n) ∧
      ∃ next, s'.timer timer = armed next timer delay (some (call^[n] g)) := by
  -- the induction follows the expirations, each of which takes off one lambda
  induction n generalizing s target g with
  | zero => exact ⟨s, rfl, .refl s timer, target, harmed⟩
  | succ n ih =>
    obtain ⟨next, hnext, hrest⟩ := Target.lasts_succ.mp hlasts
    obtain ⟨s₁, hrun, hfired, harmed₁⟩ := expire_ok call harmed hnext
    obtain ⟨s', hruns, hmore, hlast⟩ := ih harmed₁ hrest
    refine ⟨s', ?_, hfired.trans hmore, hlast⟩
    simp only [expirations, Prog.bind_apply, hrun, hruns]

theorem expirations_error (harmed : s.timer timer = armed target timer delay (some g))
    (hlasts : ¬ target.Lasts n) : expirations call n timer () s = .error .badFunctionCall := by
  induction n generalizing s target g with
  | zero => exact absurd target.lasts_zero hlasts
  | succ n ih =>
    rw [Target.lasts_succ] at hlasts
    simp only [expirations, Prog.bind_apply]
    cases hnext : target.rearms with
    | none =>
      rw [expire_armed call harmed, hnext]
      rfl
    | some next =>
      obtain ⟨s₁, hrun, _, harmed₁⟩ := expire_ok call harmed hnext
      rw [hrun]
      exact ih harmed₁ fun hrest => hlasts ⟨next, hnext, hrest⟩

theorem expirations_empty (harmed : s.timer timer = armed target timer delay none) :
    expirations call (n + 1) timer () s = .error .badFunctionCall := by
  simp only [expirations, Prog.bind_apply, expire_armed call harmed]
  cases target.rearms with
  | none => rfl
  | some next => rfl

/-- An armed timer expires as often as its function lasts, and then throws. -/
theorem expirations_iff (harmed : s.timer timer = armed target timer delay (some g)) :
    (∃ s', expirations call n timer () s = .ok ((), s')) ↔ target.Lasts n := by
  constructor
  · intro ⟨s', hrun⟩
    by_contra hlasts
    rw [expirations_error call harmed hlasts] at hrun
    cases hrun
  · intro hlasts
    obtain ⟨s', hrun, _⟩ := expirations_ok call harmed hlasts
    exact ⟨s', hrun⟩

def arm (target : Target) (delay : TimeDuration) (f : Functor φ) : TimerExec φ DealTimerPtr := do
  let timer ← newTimer
  expiresFromNow timer delay
  asyncWait timer ⟨target, timer, delay, f⟩
  pure timer

/-- The lambda that `runEvery` arms its timer with has captured an empty function. -/
theorem runEvery_eq : runEvery delay f = arm (.callback (.lambda .empty)) delay f := rfl

theorem runExecTimerEvery_eq : runExecTimerEvery delay f = arm .execTimerEvery delay f := rfl

theorem arm_ok (s : Timers φ) (target : Target) (delay : TimeDuration) (f : Functor φ) :
    ∃ s', arm target delay f () s = .ok (s.count, s') ∧ Fired s s' s.count [] ∧
      s'.timer s.count = armed target s.count delay f := by
  refine ⟨_, rfl, ⟨(List.append_nil _).symm, fun other hother => ?_⟩, ?_⟩
  · simp [Timers.set, Function.update_of_ne hother]
  · simp [Timers.set, armed]

end Specs

/-! ## What `runEvery` arms -/

section Periodic

variable {φ : Type} (call : φ → φ)

/-- A timer is armed and expires `n` times. -/
def expiresTimes (arm : TimerExec φ DealTimerPtr) (n : Nat) : TimerExec φ DealTimerPtr := do
  let timer ← arm
  expirations call n timer
  pure timer

def calls (f : Functor φ) (n : Nat) : List φ :=
  match f with
  | none => []
  | some target => List.iterate call target n

/-- After `n` expirations no empty function has been called, the functor has been called
    `n` times, and the timer has one wait, which is due after `delay`. -/
def Periodic (arm : TimerExec φ DealTimerPtr) (delay : TimeDuration) (f : Functor φ) (n : Nat)
    (s : Timers φ) : Prop :=
  (expiresTimes call arm n).wp () s fun timer s' =>
    s'.log = s.log ++ calls call f n ∧ (s'.timer timer).waits.length = 1 ∧
    (s'.timer timer).expiry = delay ∧ (s'.timer timer).cancelled = []

/-- Two timers call the same functors up to their `n`th expirations. -/
def SameCalls (arm arm' : TimerExec φ DealTimerPtr) (n : Nat) (s : Timers φ) : Prop :=
  (expiresTimes call arm n () s).map (·.2.log) = (expiresTimes call arm' n () s).map (·.2.log)

variable {target : Target} {delay : TimeDuration} {f : Functor φ} {g : φ} {n : Nat} {s : Timers φ}

theorem expiresTimes_ok (delay : TimeDuration) (s : Timers φ) (hlasts : target.Lasts n)
    (hf : n = 0 ∨ f ≠ none) : ∃ s' next f',
    expiresTimes call (arm target delay f) n () s = .ok (s.count, s') ∧
    Fired s s' s.count (calls call f n) ∧ s'.timer s.count = armed next s.count delay f' := by
  obtain ⟨s₁, hrun, hfired, harmed⟩ := arm_ok s target delay f
  cases f with
  | none =>
    obtain rfl : n = 0 := hf.resolve_right fun h => h rfl
    refine ⟨s₁, target, none, ?_, hfired, harmed⟩
    simp only [expiresTimes, Prog.bind_apply, hrun]
    rfl
  | some g =>
    obtain ⟨s', hruns, hmore, next, hlast⟩ := expirations_ok call harmed hlasts
    refine ⟨s', next, _, ?_, hfired.trans hmore, hlast⟩
    simp only [expiresTimes, Prog.bind_apply, hrun, hruns]
    rfl

theorem expiresTimes_error (h : ¬ (target.Lasts n ∧ (n = 0 ∨ f ≠ none))) :
    expiresTimes call (arm target delay f) n () s = .error .badFunctionCall := by
  obtain ⟨s₁, hrun, _, harmed⟩ := arm_ok s target delay f
  have hthrows : expirations call n s.count () s₁ = .error .badFunctionCall := by
    cases f with
    | none =>
      cases n with
      | zero => exact absurd ⟨target.lasts_zero, .inl rfl⟩ h
      | succ n => exact expirations_empty call harmed
    | some g => exact expirations_error call harmed fun hlasts => h ⟨hlasts, .inr (by simp)⟩
  simp only [expiresTimes, Prog.bind_apply, hrun, hthrows]

/-- A timer is periodic as long as its function lasts and there is a functor to call. -/
theorem periodic_iff : Periodic call (arm target delay f) delay f n s ↔
    target.Lasts n ∧ (n = 0 ∨ f ≠ none) := by
  constructor
  · intro ⟨timer, s', hrun, _⟩
    by_contra hends
    rw [expiresTimes_error call hends] at hrun
    cases hrun
  · intro ⟨hlasts, hf⟩
    obtain ⟨s', next, f', hrun, hfired, harmed⟩ := expiresTimes_ok call delay s hlasts hf
    refine ⟨_, s', hrun, hfired.log, ?_⟩
    rw [harmed]
    exact ⟨rfl, rfl, rfl⟩

theorem sameCalls_of_lasts {other : Target} (hlasts : target.Lasts n) (hother : other.Lasts n)
    (hf : n = 0 ∨ f ≠ none) : SameCalls call (arm target delay f) (arm other delay f) n s := by
  obtain ⟨s₁, _, _, hrun₁, hfired₁, _⟩ := expiresTimes_ok call delay s hlasts hf
  obtain ⟨s₂, _, _, hrun₂, hfired₂, _⟩ := expiresTimes_ok call delay s hother hf
  unfold SameCalls
  rw [hrun₁, hrun₂]
  exact congrArg Except.ok (hfired₁.log.trans hfired₂.log.symm)

/-- Re-armed through `execTimerEvery`, a timer goes on for ever. -/
theorem execTimerEvery_periodic (delay : TimeDuration) (g : φ) (n : Nat) (s : Timers φ) :
    Periodic call (runExecTimerEvery delay (some g)) delay (some g) n s :=
  (periodic_iff call).mpr ⟨trivial, .inr (by simp)⟩

/-- For every state, delay, functor and number of expirations: the timer of `runEvery` has
    been periodic, and has called what one re-armed through `execTimerEvery` calls, if
    and only if it has not expired yet, or has expired once and there is a functor. -/
theorem runEvery_periodic_iff (delay : TimeDuration) (f : Functor φ) (n : Nat) (s : Timers φ) :
    (Periodic call (runEvery delay f) delay f n s ∧
      SameCalls call (runEvery delay f) (runExecTimerEvery delay f) n s) ↔
    n = 0 ∨ n = 1 ∧ f ≠ none := by
  rw [runEvery_eq, runExecTimerEvery_eq, periodic_iff]
  have hlasts : (Target.callback (.lambda .empty)).Lasts n ↔ n ≤ 1 := Iff.rfl
  constructor
  · intro ⟨⟨hfew, hf⟩, _⟩
    rw [hlasts] at hfew
    rcases Nat.le_one_iff_eq_zero_or_eq_one.mp hfew with hzero | hone
    · exact .inl hzero
    · exact .inr ⟨hone, hf.resolve_left (by omega)⟩
  · intro h
    have hfew : (Target.callback (.lambda .empty)).Lasts n := hlasts.mpr (by omega)
    have hf : n = 0 ∨ f ≠ none := h.imp_right And.right
    exact ⟨⟨hfew, hf⟩, sameCalls_of_lasts call hfew trivial hf⟩

/-- The second expiration calls the empty function that the lambda has captured.  Re-armed
    through `execTimerEvery`, the timer calls its functor a second time. -/
theorem second_expiration_throws :
    ¬ Periodic id (runEvery 1000 (some ())) 1000 (some ()) 2 {} ∧
    expiresTimes id (runEvery 1000 (some ())) 2 () {} = .error .badFunctionCall ∧
    Periodic id (runExecTimerEvery 1000 (some ())) 1000 (some ()) 2 {} := by
  refine ⟨?_, rfl, ?_⟩
  · rw [runEvery_eq, periodic_iff]
    exact fun h => absurd h.1 (by decide)
  · exact execTimerEvery_periodic id 1000 () 2 {}

end Periodic

end EventLoop

end Netpp
