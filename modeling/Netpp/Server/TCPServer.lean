import Netpp.Lib.Endian
import Netpp.Conn.TCPConn
import Netpp.Conn.Frame
import Netpp.Loop.EventLoop

/-! # `TCPServer`

A server on its base loop `loop_`, the pool of io loops its connections run on,
and everything that can happen to them.

* `EventLoopThreadPool` is what the base loop thread sees of the pool, from one of its calls
  to the next.  Loop `0` is the base loop, loop `i + 1` that of thread `i`; without threads
  every connection runs on the base loop.
* `TCPServer` is the server with its connections, the operations and tasks that are
  pending, and where the base loop thread is.  Connections are numbered from `0`:
  connection `c` has the id `c + 1`, and the `n` that can ever be accepted are any
  number below `2 ^ 64`, where `next_conn_id_` wraps around.
* `ServerAction` is one step: a call of `start` or `stop` on any thread, the kernel
  completing an accept, a step of the base loop thread, or a step of a connection.

`runInLoop` runs a function at once on the loop's own thread and posts it from any
other one.  So `connectEstablished` runs inside `newConnection`, and the function of
`removeConnection` inside `close_cb_`, if the connection runs on the base loop; and
`stopInLoop` runs inside `stop` if a callback on the base loop calls it.

`sock->remote_endpoint()` throws when the peer has gone already.  The exception leaves
`newConnection`, and the application goes on with the loop.  The address the server
listens on can be bound, and `connectEstablished` does not throw.
-/

namespace Netpp

open Function (update)

/-! ## State -/

open ServerStatus

structure EventLoopThreadPool where
  threadNum : Nat
  status : Status := .kNull
  threads : List Status := []   -- the status of each of `threads_`
  next : Int := 0               -- `next_`

namespace EventLoopThreadPool

/-- `start(true)`: it returns when every thread runs. -/
def start (p : EventLoopThreadPool) : EventLoopThreadPool :=
  { p with status := .kRunning, threads := p.threads ++ List.replicate p.threadNum .kRunning }

/-- `stop(true)`: it returns when every thread has stopped. -/
def stop (p : EventLoopThreadPool) : EventLoopThreadPool :=
  { p with status := .kStopped, threads := p.threads.map fun _ => .kStopped }

def join (p : EventLoopThreadPool) : EventLoopThreadPool := { p with threads := [] }

def isStopped (p : EventLoopThreadPool) : Bool := p.status == .kStopped

/-- `next_` wraps around, and `threads_.size()` is a `size_t`. -/
def getNextLoop (p : EventLoopThreadPool) : Nat × EventLoopThreadPool :=
  if p.status = .kRunning ∧ p.threads ≠ [] then
    let next := signedWord 64 (unsignedWord 64 p.next % p.threads.length)
    (unsignedWord 64 next + 1, { p with next := signedWord 64 (unsignedWord 64 (p.next + 1)) })
  else (0, p)

end EventLoopThreadPool

inductive AcceptResult where
  | success
  | failed                        -- an error other than `operation_aborted`
  | aborted
  deriving DecidableEq, Repr

/-- An `async_accept` of a socket for `loop`; `result` is set once its completion is
    queued. -/
structure AcceptOp where
  loop : Nat
  result : Option AcceptResult
  deriving DecidableEq, Repr

/-- A function, by a name for it, or none. -/
abbrev DoneCallback := Option Nat

/-- Where the base loop thread is, in a handler of the server. -/
inductive BasePc (n : Nat) where
  | idle
  | verifying (loop : Nat)        -- `newConnection`: `verify_address_cb_` is called
  | establishing (c : Fin n)      -- `newConnection`: `connectEstablished` runs, `doAccept` follows
  | accepting                     -- `newConnection`: `doAccept` follows
  | stopped                       -- `stopInloopSafe`: the callback is called, `kStopped` follows
  deriving DecidableEq

structure TCPServer (n : Nat) where
  world : World n := {}
  status : Status := .kNull
  substatus : SubStatus := .kSubStatusNull
  acceptor : Bool := false                    -- `acceptor_` is not null
  pool : Option EventLoopThreadPool           -- `pool_`
  nextConnId : Nat := 0
  connections : List (Fin n) := []
  loopOf : Fin n → Nat := fun _ => 0          -- the loop a connection was created for
  stoppedCb : DoneCallback := none
  accepts : List AcceptOp := []
  -- posted tasks
  starts : Nat := 0                           -- the function of `start`
  stops : List DoneCallback := []             -- `stopInLoop`
  establishes : List (Fin n) := []            -- `connectEstablished`
  removals : List (Fin n) := []               -- the function of `removeConnection`
  safes : List DoneCallback := []             -- `stopInloopSafe`
  -- the base loop thread
  pc : BasePc n := .idle
  pass : Option (List (Fin n) × DoneCallback) := none   -- in the loop of `stopInLoop`
  -- for speaking about the past
  retired : Option EventLoopThreadPool := none          -- the pool when `pool_` was reset
  finished : List DoneCallback := []                    -- the calls of `stopInloopSafe`

inductive ServerFault where
  | conn (fault : ConnFault)
  | nullAcceptor    -- a null `acceptor_` is dereferenced
  | nullPool        -- a null `pool_` is dereferenced
  deriving DecidableEq, Repr

abbrev ServerExec (α : Type) : Type := Prog Build Mem ServerFault α

/-- Code of a connection, as part of the server's. -/
def onConns {α : Type} (p : ConnExec α) : ServerExec α := p.mapFault .conn

inductive ServerAction (n : Nat) where
  -- the application, on any thread
  | start
  | stop (cb : DoneCallback)
  -- the application, inside a callback on the base loop thread
  | stopHere (cb : DoneCallback)
  -- the kernel
  | acceptDone (op : AcceptOp) (result : AcceptResult)
  -- the base loop thread
  | startInLoop
  | stopInLoop (cb : DoneCallback)
  | stopNext
  | newConnection (op : AcceptOp) (throws : Bool)
  | verified (ok : Bool)
  | doAccept
  | runRemove (c : Fin n)
  | stopInloopSafe (cb : DoneCallback)
  | finishStop
  -- a connection
  | conn (a : Action n)

namespace TCPServer

variable {n : Nat}

/-! ## Accepting -/

def doAccept (s : TCPServer n) : ServerExec (TCPServer n) :=
  match s.pool with
  | none => throw .nullPool
  | some pool =>
    let r := pool.getNextLoop
    if s.acceptor then
      pure { s with pool := some r.2, accepts := s.accepts ++ [⟨r.1, none⟩] }
    else throw .nullAcceptor

/-- The function `start` runs in the base loop. -/
def startInLoop (s : TCPServer n) : ServerExec (TCPServer n) :=
  doAccept { s with acceptor := true, status := .kRunning }

/-- `newConnection`, up to `verify_address_cb_`.  When `sock->remote_endpoint()` throws, the
    exception leaves it before `doAccept`. -/
def newConnection (s : TCPServer n) (op : AcceptOp) (throws : Bool) : TCPServer n :=
  let s := { s with accepts := s.accepts.erase op }
  match op.result, throws with
  | some .success, false => { s with pc := .verifying op.loop }
  | some .failed, _ => { s with pc := .accepting }
  | _, _ => s

/-- The connection `newConnection` creates next. -/
def nextConn (s : TCPServer n) : Option (Fin n) :=
  if h : s.nextConnId < n then some ⟨s.nextConnId, h⟩ else none

/-- `newConnection`, from the return of `verify_address_cb_` to `runInLoop`. -/
def verified (s : TCPServer n) (loop : Nat) (ok : Bool) : ServerExec (TCPServer n) :=
  match ok, s.nextConn with
  | true, some c =>
    let s := { s with
      nextConnId := s.nextConnId + 1, connections := s.connections ++ [c], loopOf := update s.loopOf c loop }
    if loop = 0 then do
      let w ← onConns (s.world.exec (.connectEstablished c))
      pure { s with world := w, pc := .establishing c }
    else pure { s with establishes := s.establishes ++ [c], pc := .accepting }
  | _, _ => pure { s with pc := .accepting }

/-! ## Stopping -/

/-- `stopInLoop`, up to its loop over the connections. -/
def stopInLoop (s : TCPServer n) (cb : DoneCallback) : ServerExec (TCPServer n) :=
  let s := { s with status := .kStopping, substatus := .kStoppingListener }
  if s.acceptor then
    let s := { s with acceptor := false }
    if s.connections = [] then pure { s with safes := s.safes ++ [cb] }
    else pure { s with pass := some (s.connections, cb) }
  else throw .nullAcceptor

/-- The next connection in the loop of `stopInLoop`, or what follows the loop.  The
    loop goes on when `close` has changed `status_`; its task is posted later. -/
def stopNext (s : TCPServer n) : ServerExec (TCPServer n) :=
  match s.pass with
  | some (c :: rest, cb) =>
    if (s.world.life c).status = .kConnected then do
      let w ← onConns (s.world.exec (.close c))
      pure { s with world := w, pass := some (rest, cb) }
    else pure { s with pass := some (rest, cb) }
  | some ([], cb) => pure { s with stoppedCb := cb, pass := none }
  | none => pure s

/-- The function of `removeConnection`. -/
def removeInLoop (s : TCPServer n) (c : Fin n) : TCPServer n :=
  let s := { s with connections := s.connections.erase c }
  if s.status = .kStopping ∧ s.connections = [] then { s with safes := s.safes ++ [s.stoppedCb] } else s

/-- `close_cb_`: the function runs at once if the connection is on the base loop. -/
def removeConnection (s : TCPServer n) (c : Fin n) : TCPServer n :=
  if s.loopOf c = 0 then s.removeInLoop c else { s with removals := s.removals ++ [c] }

def stopThreadPool (s : TCPServer n) : ServerExec (TCPServer n) := do
  onConns (onPieces (assert (s.status == .kStopping)))
  match s.pool with
  | none => throw .nullPool
  | some pool => do
    let pool := pool.stop
    onConns (onPieces (assert pool.isStopped))
    pure { s with pool := none, retired := some pool.join, substatus := .kSubStatusNull }

/-- `stopInloopSafe`, up to its callback. -/
def stopInloopSafe (s : TCPServer n) (cb : DoneCallback) : ServerExec (TCPServer n) := do
  onConns (onPieces (assert (s.substatus == .kStoppingListener)))
  let s ← stopThreadPool s
  pure { s with finished := s.finished ++ [cb], pc := .stopped }

/-! ## Steps -/

/-- After a step of a connection that led to `w`: a task has been run, or `close_cb_`
    is called. -/
def afterConn (s : TCPServer n) (a : Action n) (w : World n) : TCPServer n :=
  let t := { s with world := w }
  match a with
  | .connectEstablished c => { t with establishes := t.establishes.erase c }
  | .resume c => if (s.world.life c).pc = .notified then t.removeConnection c else t
  | _ => t

def execConn (s : TCPServer n) (a : Action n) : ServerExec (TCPServer n) := do
  let w ← onConns (s.world.exec a)
  pure (s.afterConn a w)

def BaseIdle (s : TCPServer n) : Prop :=
  s.pc = .idle ∧ s.pass = none ∧ ∀ c, s.loopOf c = 0 → (s.world.life c).pc = .idle

def LoopIdle (s : TCPServer n) (c : Fin n) : Prop :=
  (s.loopOf c = 0 → s.BaseIdle) ∧ ∀ d, s.loopOf d = s.loopOf c → (s.world.life d).pc = .idle

def LoopRuns (s : TCPServer n) (c : Fin n) : Prop :=
  s.loopOf c = 0 ∨ ∃ pool, s.pool = some pool ∧ pool.status = .kRunning

/-- A callback of the application is running on the base loop thread. -/
def InCallback (s : TCPServer n) : Prop :=
  s.pass = none ∧ ((∃ loop, s.pc = .verifying loop) ∨
    ∃ c, s.loopOf c = 0 ∧ (s.world.life c).pc ∈ [.connected, .message, .notified])

/-- An open acceptor completes an accept; a closed one aborts it. -/
def AcceptPossible (s : TCPServer n) : AcceptResult → Prop
  | .success | .failed => s.acceptor = true
  | .aborted => s.acceptor = false

/-- What the threads and the server's own references allow a connection to do. -/
def ConnAllowed (s : TCPServer n) : Action n → Prop
  | .connectEstablished c => c ∈ s.establishes
  | .resume c =>
    s.LoopRuns c ∧ (s.loopOf c = 0 → s.pass = none ∧ (s.pc = .idle ∨ s.pc = .establishing c))
  | .destroy c => c ∉ s.connections ∧ c ∉ s.removals ∧ c ∉ s.establishes
  | _ => True

def Enabled (s : TCPServer n) (m : Mem) : ServerAction n → Prop
  -- `start` and `stop` are called as their assertions require
  | .start => s.status = .kNull
  | .stop _ => s.status = .kRunning
  | .stopHere _ => s.status = .kRunning ∧ s.InCallback
  | .acceptDone op result => op ∈ s.accepts ∧ op.result = none ∧ s.AcceptPossible result
  | .startInLoop => 0 < s.starts ∧ s.BaseIdle
  | .stopInLoop cb => cb ∈ s.stops ∧ s.BaseIdle
  | .stopNext => s.pass ≠ none
  | .newConnection op throws =>
    op ∈ s.accepts ∧ op.result ≠ none ∧ s.BaseIdle ∧ (throws → op.result = some .success)
  | .verified ok => (∃ loop, s.pc = .verifying loop) ∧ s.pass = none ∧ (ok → s.nextConn ≠ none)
  | .doAccept => s.pass = none ∧ (s.pc = .accepting ∨
      ∃ c, s.pc = .establishing c ∧ (s.world.life c).pc = .idle)
  | .runRemove c => c ∈ s.removals ∧ s.BaseIdle
  -- `stop(true)` waits for the io loop threads to leave their handlers
  | .stopInloopSafe cb => cb ∈ s.safes ∧ s.BaseIdle ∧ ∀ c, (s.world.life c).pc = .idle
  | .finishStop => s.pc = .stopped
  | .conn a =>
    s.world.Enabled m a ∧ s.ConnAllowed a ∧ (∀ c, a.conn = some c → c.val < s.nextConnId) ∧
    ∀ c, a.starts = some c → s.LoopIdle c ∧ s.LoopRuns c

def exec (s : TCPServer n) : ServerAction n → ServerExec (TCPServer n)
  | .start => pure { s with status := .kStarting, pool := s.pool.map .start, starts := s.starts + 1 }
  | .stop cb => pure { s with stops := s.stops ++ [cb] }
  | .stopHere cb => s.stopInLoop cb
  | .acceptDone op result =>
    pure { s with accepts := s.accepts.erase op ++ [{ op with result := some result }] }
  | .startInLoop => startInLoop { s with starts := s.starts - 1 }
  | .stopInLoop cb => stopInLoop { s with stops := s.stops.erase cb } cb
  | .stopNext => s.stopNext
  | .newConnection op throws => pure (s.newConnection op throws)
  | .verified ok =>
    match s.pc with
    | .verifying loop => s.verified loop ok
    | _ => pure s
  | .doAccept => do
    let s ← s.doAccept
    pure { s with pc := .idle }
  | .runRemove c => pure (removeInLoop { s with removals := s.removals.erase c } c)
  | .stopInloopSafe cb => stopInloopSafe { s with safes := s.safes.erase cb } cb
  | .finishStop => pure { s with status := .kStopped, pc := .idle }
  | .conn a => s.execConn a

/-- A server for `threadNum` threads, before `start`. -/
def machine (n threadNum : Nat) : Machine Build Mem ServerFault (TCPServer n) (ServerAction n) where
  Init s m := s = { pool := some ⟨threadNum, .kNull, [], 0⟩ } ∧ ∃ cell, m = { cell := cell }
  Enabled := Enabled
  exec := exec

end TCPServer

end Netpp
