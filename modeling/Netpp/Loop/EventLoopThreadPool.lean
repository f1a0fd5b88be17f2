import Netpp.Loop.EventLoopThread

/-! # `EventLoopThreadPool`, step by step

The pool with its threads, the thread that calls `start`, and callers of `stop`, any
number of them.

* `PoolThread` is a thread of the pool.  `HookPc` says where it is with `prefn`, which
  counts the threads that have started, and `postfn`, which counts those that have left
  their loops.
* `PoolStartPc` and `PoolStopPc` say where a call of `start` or `stop` of the pool is; a
  call of `start` or `stop` of a thread is part of it.
* `PoolAction` is one step of one of them.

`threads_` is a plain vector that `start` fills, so `stop` is called when `start` has
returned.  What the server sees of a pool between its calls is the `EventLoopThreadPool` of
`TCPServer`; `seen_getNextLoop` and the theorems beside it say so.
-/

namespace Netpp.Loop

open Function (update)
open ServerStatus

/-! ## State -/

inductive HookPc where
  | fresh                     -- `prefn` has not counted the thread
  | started (count : Nat)     -- `onThreadStarted(count)` follows
  | running
  | exited (count : Nat)      -- `onThreadExited(count)` follows
  | calling                   -- `onThreadExited` has stored `kStopped`; `stopped_cb_` follows
  | done
  deriving DecidableEq

structure PoolThread extends EventLoopThread where
  hook : HookPc := .fresh

/-- `start`: in its loop at thread `i`, whose own `start` is at `pc`, or behind it. -/
inductive PoolStartPc (n : Nat) where
  | idle
  | starting (i : Fin n) (wait : Bool) (pc : StartPc)
  | waiting                   -- `while (!isRunning())`
  | asserting
  | returned
  deriving DecidableEq

/-- `stop`: in its loop at thread `i`, whose own `stop` is at `pc`, or around it. -/
inductive PoolStopPc (n : Nat) (φ : Type) where
  | idle
  | called (wait : Bool) (fn : Option φ)    -- `stopped_cb_ = fn` follows
  | stopping (i : Fin n) (wait : Bool) (pc : StopPc)
  | waiting (i : Fin n)                     -- `is_stopped_fn` looks at thread `i`
  | finishing (wait : Bool)                 -- `status_.store(kStopped)` follows

/-- `n` is `thread_num_`, `ι` names the callers of `stop`, and `φ` the functions a
    `DoneCallback` can hold. -/
structure EventLoopThreadPool (n : Nat) (ι φ : Type) where
  status : Status := .kNull
  threads : Fin n → PoolThread := fun _ => {}
  startedCount : Nat := 0
  exitedCount : Nat := 0
  stoppedCb : Option φ := none
  start : PoolStartPc n := .idle
  stops : ι → PoolStopPc n φ := fun _ => .idle
  invoked : List φ := []      -- the calls of `stopped_cb_` or `fn`

inductive PoolAction (n : Nat) (ι φ : Type) where
  | start (wait : Bool)
  | startNext
  | run (i : Fin n) (e : RunStep)
  | hook (i : Fin n)
  | stop (c : ι) (wait : Bool) (fn : Option φ)
  | stopNext (c : ι)

namespace EventLoopThreadPool

variable {n : Nat} {ι φ : Type}

def isRunning (s : EventLoopThreadPool n ι φ) : Bool := s.status == .kRunning

def setThread (s : EventLoopThreadPool n ι φ) (i : Fin n) (t : EventLoopThread) :
    EventLoopThreadPool n ι φ :=
  { s with threads := update s.threads i { s.threads i with toEventLoopThread := t } }

def setHook (s : EventLoopThreadPool n ι φ) (i : Fin n) (hook : HookPc) : EventLoopThreadPool n ι φ :=
  { s with threads := update s.threads i { s.threads i with hook := hook } }

def next (i : Fin n) : Option (Fin n) := if h : i.val + 1 < n then some ⟨i.val + 1, h⟩ else none

def first : Option (Fin n) := if h : 0 < n then some ⟨0, h⟩ else none

/-! ## `start` -/

def startPool (s : EventLoopThreadPool n ι φ) (wait : Bool) : EventLoopThreadPool n ι φ :=
  match first with
  | some i => { s with status := .kStarting, start := .starting i wait .idle }
  | none => { s with status := .kRunning, start := .returned }

def startNext (s : EventLoopThreadPool n ι φ) : LoopExec (EventLoopThreadPool n ι φ) :=
  match s.start with
  | .starting i wait .idle =>
    pure { s.setThread i (s.threads i).start with start := .starting i wait (.spawning wait) }
  | .starting i wait .returned =>
    pure { s with start := match next i with
      | some j => .starting j wait .idle
      | none => if wait then .waiting else .returned }
  | .starting i wait pc => do
    let (t, pc) ← (s.threads i).startStep pc
    pure { s.setThread i t with start := .starting i wait pc }
  | .waiting => pure { s with start := if s.isRunning then .asserting else .waiting }
  | .asserting => do
    LoopExec.assert (s.status == .kRunning)
    pure { s with start := .returned }
  | .idle | .returned => pure s

/-! ## The hooks -/

def onThreadStarted (s : EventLoopThreadPool n ι φ) (count : Nat) : EventLoopThreadPool n ι φ :=
  if count = n then { s with status := .kRunning } else s

/-- The next step of `prefn` or `postfn` on thread `i`. -/
def hookNext (s : EventLoopThreadPool n ι φ) (i : Fin n) : LoopExec (EventLoopThreadPool n ι φ) :=
  match (s.threads i).run, (s.threads i).hook with
  | .pre, .fresh =>
    pure { s.setHook i (.started (s.startedCount + 1)) with startedCount := s.startedCount + 1 }
  | .pre, .started count => do
    let t ← (s.threads i).runStep (.preReturned EventLoopThread.kOK)
    pure (((s.onThreadStarted count).setThread i t).setHook i .running)
  | .left, .exited count =>
    if count = n then pure { s.setHook i .calling with status := .kStopped }
    else do
      let t ← (s.threads i).runStep .postReturned
      pure ((s.setThread i t).setHook i .done)
  | .left, .calling => do
    let t ← (s.threads i).runStep .postReturned
    pure { (s.setThread i t).setHook i .done with
      invoked := s.invoked ++ s.stoppedCb.toList, stoppedCb := none }
  | .left, .fresh | .left, .running =>
    pure { s.setHook i (.exited (s.exitedCount + 1)) with exitedCount := s.exitedCount + 1 }
  | _, _ => pure s

/-! ## `stop` -/

def stopNext [DecidableEq ι] (s : EventLoopThreadPool n ι φ) (c : ι) :
    LoopExec (EventLoopThreadPool n ι φ) :=
  match s.stops c with
  | .called wait fn =>
    match first with
    | some i => pure { s with stoppedCb := fn, stops := update s.stops c (.stopping i wait (.called false)) }
    | none =>
      -- `thread_num_ == 0`
      pure { s with status := .kStopped, invoked := s.invoked ++ fn.toList, stops := update s.stops c .idle }
  | .stopping i wait .idle =>
    pure { s with stops := update s.stops c (match next i with
      | some j => .stopping j wait (.called false)
      | none => if wait then .waiting ⟨0, i.pos⟩ else .finishing false) }
  | .stopping i wait pc => do
    let (t, pc) ← (s.threads i).stopStep pc
    pure { s.setThread i t with stops := update s.stops c (.stopping i wait pc) }
  | .waiting i =>
    if (s.threads i).isStopped then
      pure { s with stops := update s.stops c (match next i with
        | some j => .waiting j
        | none => .finishing true) }
    else pure { s with stops := update s.stops c (.waiting ⟨0, i.pos⟩) }
  | .finishing _ => pure { s with status := .kStopped, stops := update s.stops c .idle }
  | .idle => pure s

/-! ## Steps -/

def HookReady (t : PoolThread) : Prop :=
  match t.run, t.hook with
  | .pre, .fresh | .pre, .started _ => True
  | .left, .fresh | .left, .running | .left, .exited _ | .left, .calling => True
  | _, _ => False

def Enabled (s : EventLoopThreadPool n ι φ) : PoolAction n ι φ → Prop
  | .start _ => s.start = .idle
  | .startNext => match s.start with
    | .idle | .returned => False
    | .starting i _ pc => pc = .idle ∨ pc = .returned ∨ (s.threads i).CanStart pc
    | _ => True
  -- `pre` and `post` are the hooks
  | .run i e => (s.threads i).Ready e ∧ (∀ rc, e ≠ .preReturned rc) ∧ e ≠ .postReturned
  | .hook i => HookReady (s.threads i)
  | .stop c _ _ => s.start = .returned ∧ s.stops c = .idle
  | .stopNext c => match s.stops c with
    | .idle => False
    | .stopping i _ pc => pc = .idle ∨ (s.threads i).CanStop pc
    | _ => True

def exec [DecidableEq ι] (s : EventLoopThreadPool n ι φ) :
    PoolAction n ι φ → LoopExec (EventLoopThreadPool n ι φ)
  | .start wait => pure (s.startPool wait)
  | .startNext => s.startNext
  | .run i e => do
    let t ← (s.threads i).runStep e
    pure (s.setThread i t)
  | .hook i => s.hookNext i
  | .stop c wait fn => pure { s with status := .kStopping, stops := update s.stops c (.called wait fn) }
  | .stopNext c => s.stopNext c

/-- A pool of `n` threads, before `start`. -/
def machine (n : Nat) (ι φ : Type) [DecidableEq ι] :
    Machine Build Unit LoopFault (EventLoopThreadPool n ι φ) (PoolAction n ι φ) where
  Init s _ := s = {}
  Enabled s _ a := s.Enabled a
  exec := exec

end EventLoopThreadPool

end Netpp.Loop
