import Netpp.Loop.EventLoop

/-! # `EventLoopThread`

A thread with an event loop, and all that can happen to it.

* `RunStep` is a step of the loop thread, which is in `run(pre, post)`; what `pre`
  returns is an argument of the step.
* `StartPc` and `StopPc` say where a call of `start` or `stop` is.  An assertion is a
  step for each load it makes, and in a Release build it makes none.
* `ThreadWorld` is a thread object with the thread that starts it and with callers of
  `stop`, any number of them.  `ThreadAction` is one step of one of them, a call of
  `loop()->stop()`, or the destructor.
-/

namespace Netpp

open Function (update)
open ServerStatus

/-! ## The thread -/

/-- Where the loop thread is in `run`. -/
inductive RunPc where
  | unborn       -- `thread_` has not been constructed
  | begun        -- `queueInLoop(fn)` and `event_loop_->start()` follow
  | looping      -- in `io_service_->run()`, not in `fn`
  | announced    -- `fn`: `latch_.count_down()` follows
  | pre          -- `fn`: in `pre()`
  | left         -- `event_loop_->start()` has returned; in `post()`
  | posted       -- the assertion follows
  | asserted     -- `status_ = kStopped` follows
  | exited
  deriving DecidableEq

inductive RunStep where
  | begin
  | announce
  | countDown
  | preReturned (rc : Int)
  | leave
  | postReturned
  | assertStopped
  | store

/-- Where a call of `start` is. -/
inductive StartPc where
  | idle
  | spawning (wait : Bool)    -- the thread is constructed next
  | waiting                   -- `latch_.wait()`
  | asserting
  | returned
  deriving DecidableEq

/-- Where a call of `stop` is. -/
inductive StopPc where
  | idle
  | called (wait : Bool)      -- `assert(status_ == kRunning && ..`: the load follows
  | tested (wait : Bool)      -- `.. && isRunning())`: the load follows
  | asserted (wait : Bool)    -- `status_ = kStopping` follows
  | stopping (wait : Bool)    -- `event_loop_->stop()` follows
  | waiting                   -- `while (!isStopped())`
  | joining
  deriving DecidableEq

structure EventLoopThread where
  status : Status := .kNull
  loop : EventLoop := {}
  latch : Nat := 1
  thread : Bool := false      -- `thread_` is not null
  run : RunPc := .unborn

namespace EventLoopThread

def kOK : Int := 0

def isRunning (t : EventLoopThread) : Bool := t.loop.isRunning

def isStopped (t : EventLoopThread) : Bool := t.status == .kStopped

/-- `start`, up to the construction of the thread. -/
def start (t : EventLoopThread) : EventLoopThread := { t with status := .kStarting }

/-- After `join` there is no `thread_`. -/
def join (t : EventLoopThread) : EventLoopThread := { t with thread := false }

/-- `join` waits for a thread to exit. -/
def CanJoin (t : EventLoopThread) : Prop := t.thread = true → t.run = .exited

/-- The event loop has been left. -/
def Left (t : EventLoopThread) : Prop := t.run ∈ [.left, .posted, .asserted, .exited]

instance (t : EventLoopThread) : Decidable t.Left := inferInstanceAs (Decidable (_ ∈ _))

def Ready (t : EventLoopThread) : RunStep → Prop
  | .begin => t.run = .begun
  | .announce => t.run = .looping ∧ t.loop.queued = true ∧ t.loop.stopped = false
  | .countDown => t.run = .announced
  | .preReturned _ => t.run = .pre
  | .leave => t.run = .looping ∧ t.loop.CanLeave
  | .postReturned => t.run = .left
  | .assertStopped => t.run = .posted
  | .store => t.run = .asserted

def runStep (t : EventLoopThread) : RunStep → LoopExec EventLoopThread
  | .begin => pure { t with loop := { t.loop.start with queued := true }, run := .looping }
  | .announce =>
    pure { t with status := .kRunning, loop := { t.loop with queued := false }, run := .announced }
  | .countDown => pure { t with latch := t.latch - 1, run := .pre }
  | .preReturned rc =>
    pure { t with loop := if rc ≠ kOK then t.loop.stop else t.loop, run := .looping }
  | .leave => pure { t with loop := t.loop.leave, run := .left }
  | .postReturned => pure { t with run := .posted }
  | .assertStopped => do
    LoopExec.assert t.loop.isStopped
    pure { t with run := .asserted }
  | .store => pure { t with status := .kStopped, run := .exited }

def CanStart (t : EventLoopThread) : StartPc → Prop
  | .idle | .returned => False
  | .waiting => t.latch = 0
  | _ => True

def startStep (t : EventLoopThread) : StartPc → LoopExec (EventLoopThread × StartPc)
  | .spawning wait => do
    LoopExec.assert (!t.thread)
    pure ({ t with thread := true, run := .begun }, if wait then .waiting else .returned)
  | .waiting => pure (t, .asserting)
  | .asserting => do
    LoopExec.assert (t.status == .kRunning)
    pure (t, .returned)
  | pc => pure (t, pc)

def CanStop (t : EventLoopThread) : StopPc → Prop
  | .idle => False
  | .joining => t.CanJoin
  | _ => True

def stopStep (t : EventLoopThread) : StopPc → LoopExec (EventLoopThread × StopPc)
  | .idle => pure (t, .idle)
  | .called wait => do
    LoopExec.assert (t.status == .kRunning)
    pure (t, .tested wait)
  | .tested wait => do
    LoopExec.assert t.isRunning
    pure (t, .asserted wait)
  | .asserted wait => pure ({ t with status := .kStopping }, .stopping wait)
  | .stopping wait => pure ({ t with loop := t.loop.stop }, if wait then .waiting else .idle)
  | .waiting => pure (t, if t.isStopped then .joining else .waiting)
  | .joining => pure (t.join, .idle)

end EventLoopThread

/-! ## Its callers -/

structure ThreadWorld (ι : Type) where
  thread : EventLoopThread := {}
  start : StartPc := .idle
  stops : ι → StopPc := fun _ => .idle
  destroyed : Bool := false

inductive ThreadAction (ι : Type) where
  | start (wait : Bool)
  | startNext
  | run (e : RunStep)
  | stop (c : ι) (wait : Bool)
  | stopNext (c : ι)
  | stopLoop                      -- `loop()->stop()`
  | destroy

namespace ThreadWorld

variable {ι : Type}

def Enabled (s : ThreadWorld ι) (a : ThreadAction ι) : Prop :=
  s.destroyed = false ∧ match a with
  | .start _ => s.start = .idle
  | .startNext => s.thread.CanStart s.start
  | .run e => s.thread.Ready e
  | .stop c _ => s.stops c = .idle
  | .stopNext c => s.thread.CanStop (s.stops c)
  | .stopLoop => True
  -- the object is destroyed when nobody uses it any more
  | .destroy => s.start = .returned ∧ s.thread.run = .exited ∧ ∀ c, s.stops c = .idle

variable [DecidableEq ι]

def exec (s : ThreadWorld ι) : ThreadAction ι → LoopExec (ThreadWorld ι)
  | .start wait => pure { s with thread := s.thread.start, start := .spawning wait }
  | .startNext => do
    let (thread, pc) ← s.thread.startStep s.start
    pure { s with thread := thread, start := pc }
  | .run e => do
    let thread ← s.thread.runStep e
    pure { s with thread := thread }
  | .stop c wait => pure { s with stops := update s.stops c (.called wait) }
  | .stopNext c => do
    let (thread, pc) ← s.thread.stopStep (s.stops c)
    pure { s with thread := thread, stops := update s.stops c pc }
  | .stopLoop => pure { s with thread := { s.thread with loop := s.thread.loop.stop } }
  | .destroy => do
    LoopExec.assert s.thread.isStopped
    pure { s with thread := s.thread.join, destroyed := true }

/-- A thread object that has just been constructed. -/
def machine (ι : Type) [DecidableEq ι] : Machine Build Unit LoopFault (ThreadWorld ι) (ThreadAction ι) where
  Init s _ := s = {}
  Enabled s _ a := s.Enabled a
  exec := exec

end ThreadWorld

end Netpp
