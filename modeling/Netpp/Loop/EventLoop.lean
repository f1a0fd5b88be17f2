import Netpp.Lib.Machine
import Netpp.Piece.Memory

/-! # `ServerStatus` and `EventLoop`

`EventLoop` is what other threads see of a loop: its status, and whether its
`io_service` goes on.  `status_` is an atomic, and the code below is cut into steps
such that no step loads or stores more than one of them.
-/

namespace Netpp

namespace ServerStatus

inductive Status where
  | kNull
  | kInitializing
  | kInitialized
  | kStarting
  | kRunning
  | kStopping
  | kStopped
  deriving DecidableEq, Repr

inductive SubStatus where
  | kSubStatusNull
  | kStoppingListener
  | kStoppingThreadPool
  deriving DecidableEq, Repr

end ServerStatus

open ServerStatus

inductive LoopFault where
  | assertion    -- a failed `assert` of a Debug build
  deriving DecidableEq, Repr

/-- Code of which only atomics matter. -/
abbrev LoopExec (α : Type) : Type := Prog Build Unit LoopFault α

namespace LoopExec

def assert (b : Bool) : LoopExec Unit := fun build _ =>
  if build = .debug ∧ b = false then .error .assertion else .ok ((), ())

@[simp] theorem wlp_assert {build : Build} {b : Bool} {Q : Unit → Unit → Prop} :
    (assert b).wlp build () Q ↔ ((build = .debug → b = true) → Q () ()) := by
  unfold Prog.wlp assert
  by_cases hfail : build = .debug ∧ b = false
  · rw [if_pos hfail]
    simp [hfail.1, hfail.2]
  · rw [if_neg hfail]
    have hpass : build = .debug → b = true := by
      intro hbuild
      by_contra hb
      exact hfail ⟨hbuild, by simpa using hb⟩
    constructor
    · exact fun h _ => h () () rfl
    · intro h a _ hrun
      cases hrun
      exact h hpass

end LoopExec

structure EventLoop where
  status : Status := .kNull
  work : Bool := false       -- `work_` is not null
  stopped : Bool := false    -- the `io_service` has been stopped
  queued : Bool := false     -- the function that `EventLoopThread::run` posts is in the queue

namespace EventLoop

/-- `start`, up to `io_service_->run()`. -/
def start (l : EventLoop) : EventLoop := { l with status := .kRunning, work := true }

def stop (l : EventLoop) : EventLoop := { l with work := false, stopped := true }

/-- The end of `start`. -/
def leave (l : EventLoop) : EventLoop := { l with status := .kStopped }

def isRunning (l : EventLoop) : Bool := l.status == .kRunning

def isStopped (l : EventLoop) : Bool := l.status == .kStopped

/-- `io_service_->run()` can return: the service has been stopped, or has nothing to do. -/
def CanLeave (l : EventLoop) : Prop := l.stopped = true ∨ l.work = false ∧ l.queued = false

end EventLoop

end Netpp
