import Netpp.Conn.Frame
import Netpp.Lib.Machine

/-! # `TCPClient`

A client on its loop, the connections it creates there, and everything that can
happen to them.

* `TCPClient` is the client with its connections, the operations, tasks and timers
  that are pending, and where the loop thread is.  Connections are numbered in the
  order of their creation, and the `n` that can ever be created are any number.
* `ClientAction` is one step: a call of the application, the kernel completing a
  connect, a step of the loop thread, or a step of a connection.

`runInLoop` runs a function at once on the loop's own thread and posts it from any
other one.  The functions of `connect` that have been posted are counted, as they
outlast a `disconnect`; a call of `disconnect` is the step in which its function
runs.

`open` and `bind` are called on a client with a local port only, and may throw.  The
exception leaves the function it is thrown through, and the application goes on with
the loop.
-/

namespace Netpp

open Function (update)

/-! ## State -/

inductive ConnectResult where
  | success
  | failed
  deriving DecidableEq, Repr

/-- An `async_connect`; `result` is set once its completion is queued. -/
structure ConnectOp where
  result : Option ConnectResult
  deriving DecidableEq, Repr

/-- Where the loop thread is, in a handler of the client. -/
inductive ClientPc (n : Nat) where
  | idle
  | establishing (c : Fin n)      -- `newConnection`: `connectEstablished` runs, `conn_ = conn` follows
  | failed                        -- `newConnection`: `connection_cb_` is called, the timer follows
  deriving DecidableEq

structure TCPClient (n : Nat) where
  world : World n := {}
  localPort : UInt16 := 0             -- `local_addr_.port()`
  autoReconnect : Bool := true
  conn : Option (Fin n) := none       -- `conn_`
  isConnecting : Bool := false
  nextId : Nat := 0                   -- the connections created so far
  connects : Nat := 0                 -- posted functions of `connect`
  attempts : List ConnectOp := []
  timers : Nat := 0                   -- timers that call `reconnect`
  pc : ClientPc n := .idle
  -- for speaking about the past
  started : Nat := 0                  -- the calls of `async_connect`
  failures : Nat := 0                 -- the calls of `connection_cb_` for a connect that failed
  unwound : List (Fin n) := []        -- the connections whose `handleClose` an exception has left

abbrev ClientExec (α : Type) : Type := Prog Build Mem ConnFault α

/-- `throws` says that `open` or `bind` throws in this step. -/
inductive ClientAction (n : Nat) where
  -- the application, on any thread
  | connect
  | setAutoReconnect (v : Bool)
  | bind (port : UInt16)
  -- the application, inside a callback on the loop thread
  | connectHere (throws : Bool)
  -- the function of `disconnect`, in either
  | disconnect
  -- the kernel
  | connectDone (op : ConnectOp) (result : ConnectResult)
  -- the loop thread
  | runConnect (throws : Bool)
  | newConnection (op : ConnectOp)
  | established
  | failed
  | reconnect (throws : Bool)
  -- a connection
  | conn (a : Action n) (throws : Bool)

namespace TCPClient

variable {n : Nat}

/-! ## Connecting -/

def refuses (s : TCPClient n) : Bool :=
  s.isConnecting || match s.conn with
    | some c => (s.world.life c).status == .kConnected
    | none => false

def connect (s : TCPClient n) (throws : Bool) : TCPClient n :=
  if s.refuses then s
  else
    let s := { s with isConnecting := true }
    if s.localPort ≠ 0 ∧ throws then s
    else { s with attempts := s.attempts ++ [⟨none⟩], started := s.started + 1 }

def disconnect (s : TCPClient n) : ClientExec (TCPClient n) :=
  let s := { s with autoReconnect := false }
  match s.conn with
  | some c => do
    let status := (s.world.life c).status
    onPieces (assert (!(status == .kDisconnected) && !(status == .kDisconnecting)))
    let w ← s.world.exec (.close c)
    pure { s with world := w }
  | none => pure s

/-- The connection `newConnection` creates next. -/
def nextConn (s : TCPClient n) : Option (Fin n) := if h : s.nextId < n then some ⟨s.nextId, h⟩ else none

/-- `newConnection`, up to `conn_ = conn` or the callback of a connect that failed. -/
def newConnection (s : TCPClient n) (op : ConnectOp) : ClientExec (TCPClient n) :=
  let s := { s with attempts := s.attempts.erase op, isConnecting := false }
  match op.result, s.nextConn with
  | some .success, some c => do
    let w ← s.world.exec (.connectEstablished c)
    pure { s with world := w, nextId := s.nextId + 1, pc := .establishing c }
  | _, _ => pure { s with failures := s.failures + 1, pc := .failed }

/-- `conn_ = conn;` -/
def established (s : TCPClient n) : TCPClient n :=
  match s.pc with
  | .establishing c => { s with conn := some c, pc := .idle }
  | _ => s

/-- `runAfter(seconds(reconnect_interval_seconds_), ...)` -/
def failed (s : TCPClient n) : TCPClient n :=
  { s with timers := if s.autoReconnect then s.timers + 1 else s.timers, pc := .idle }

/-- `close_cb_` of every connection. -/
def removeConnection (s : TCPClient n) (c : Fin n) (throws : Bool) : ClientExec (TCPClient n) := do
  onPieces (assert (s.conn == some c))
  let s := { s with conn := none }
  pure (if s.autoReconnect then s.connect throws else s)

/-- An exception has left `handleClose`, before its last line. -/
def unwind (s : TCPClient n) (c : Fin n) : TCPClient n :=
  { s with world := s.world.setLife c { s.world.life c with pc := .idle }, unwound := s.unwound ++ [c] }

/-! ## Steps -/

def Idle (s : TCPClient n) : Prop := s.pc = .idle ∧ ∀ c, (s.world.life c).pc = .idle

/-- A callback of the application is running on the loop thread. -/
def InCallback (s : TCPClient n) : Prop :=
  s.pc = .failed ∨ ∃ c, (s.world.life c).pc ∈ [.connected, .message, .notified]

/-- `connect` would call `open` and `bind`. -/
def Opens (s : TCPClient n) : Prop := s.refuses = false ∧ s.localPort ≠ 0

/-- What the loop and the client's own references allow a connection to do. -/
def ConnAllowed (s : TCPClient n) : Action n → Prop
  | .connectEstablished _ => False
  | .resume c => s.pc = .idle ∨ s.pc = .establishing c
  | .destroy c => s.conn ≠ some c ∧ s.pc ≠ .establishing c
  | _ => True

/-- The step calls `removeConnection`, and that calls `connect`. -/
def Reconnects (s : TCPClient n) (a : Action n) : Prop :=
  ∃ c, a = .resume c ∧ (s.world.life c).pc = .notified ∧ s.autoReconnect = true

def Enabled (s : TCPClient n) (m : Mem) : ClientAction n → Prop
  | .connect | .setAutoReconnect _ | .bind _ => True
  | .connectHere throws => s.InCallback ∧ (throws → s.Opens)
  | .disconnect => s.Idle ∨ s.InCallback
  | .connectDone op _ => op ∈ s.attempts ∧ op.result = none
  | .runConnect throws => 0 < s.connects ∧ s.Idle ∧ (throws → s.Opens)
  | .newConnection op =>
    op ∈ s.attempts ∧ op.result ≠ none ∧ s.Idle ∧ (op.result = some .success → s.nextConn ≠ none)
  | .established => ∃ c, s.pc = .establishing c ∧ (s.world.life c).pc = .idle
  | .failed => s.pc = .failed
  | .reconnect throws => 0 < s.timers ∧ s.Idle ∧ (throws → s.Opens)
  | .conn a throws =>
    s.world.Enabled m a ∧ s.ConnAllowed a ∧ (∀ c, a.conn = some c → c.val < s.nextId) ∧
    (∀ c, a.starts = some c → s.Idle) ∧
    (throws → s.Reconnects a ∧ s.isConnecting = false ∧ s.localPort ≠ 0)

def execConn (s : TCPClient n) (a : Action n) (throws : Bool) : ClientExec (TCPClient n) := do
  let w ← s.world.exec a
  let t := { s with world := w }
  match a with
  | .resume c =>
    if (s.world.life c).pc = .notified then do
      let t ← t.removeConnection c throws
      pure (if throws then t.unwind c else t)
    else pure t
  | _ => pure t

def exec (s : TCPClient n) : ClientAction n → ClientExec (TCPClient n)
  | .connect => pure { s with connects := s.connects + 1 }
  | .setAutoReconnect v => pure { s with autoReconnect := v }
  | .bind port => pure { s with localPort := port }
  | .connectHere throws => pure (s.connect throws)
  | .disconnect => s.disconnect
  | .connectDone op result =>
    pure { s with attempts := s.attempts.erase op ++ [{ op with result := some result }] }
  | .runConnect throws => pure (connect { s with connects := s.connects - 1 } throws)
  | .newConnection op => s.newConnection op
  | .established => pure s.established
  | .failed => pure s.failed
  | .reconnect throws => pure (connect { s with timers := s.timers - 1 } throws)
  | .conn a throws => s.execConn a throws

/-- A client that has just been created. -/
def machine (n : Nat) : Machine Build Mem ConnFault (TCPClient n) (ClientAction n) where
  Init s m := s = {} ∧ ∃ cell, m = { cell := cell }
  Enabled := Enabled
  exec := exec

end TCPClient

end Netpp
