import Mathlib.Data.List.FinRange
import Netpp.Buffer.Deque
import Netpp.Conn.Buffers

/-! # `TCPConn`

The connections of a program, the buffers they share with the application, and
everything that can happen to them.

* `Life` is what decides about the life of a connection: `status_`, `socket_`, the
  tasks and timers that will close it, and where its loop thread is.  `Flow` is
  its traffic: the operations in flight, the posted `sendInLoop` tasks, and what
  has been transmitted.
* The functions of `tcp_conn.cpp` work on these and on the buffers, in `ConnExec`.
* `Action` is one step of the system: a call of the application on any thread, a
  step of a loop thread, or the completion of an operation by the kernel.
  `World.exec` executes it, and `RunOf` are the runs whose steps meet a condition.

A handler of a loop thread is one step, cut where user code runs inside it and
where other threads can see or change `status_`.  In particular no pool call of another loop
comes between `deletePiece(item)` and `item->len` in `writePiece`, and the queries of the
socket's endpoints in `connectEstablished` do not throw.
-/

namespace Netpp

/-! ## State -/

inductive StateE where
  | kConnected
  | kDisconnecting
  | kDisconnected
  deriving DecidableEq, Repr

/-- A callback of the connection: `connection_cb_` with the status it sees,
    `close_cb_` or `message_cb_`. -/
inductive ConnCallback where
  | connection (status : StateE)
  | close
  | message
  deriving DecidableEq, Repr

/-- Where the loop thread is, in a handler of this connection. -/
inductive LoopPc where
  | idle
  | connecting   -- `connectEstablished`: `status_` is set, `connection_cb_` follows
  | connected    -- `connectEstablished`: `connection_cb_` is called, `launchRead` follows
  | message      -- `handleRead`: `message_cb_` is called, `launchRead` follows
  | forced       -- `handleError`: `status_ = kDisconnecting` follows
  | closing      -- `handleClose`: at its start
  | reset        -- `handleClose`: `socket_` has been reset
  | notified     -- `handleClose`: `connection_cb_` is called, `close_cb_` follows
  | closed       -- `handleClose`: `close_cb_` is called, `status_ = kDisconnected` follows
  deriving DecidableEq, Repr

/-- User code can run on the loop thread: between handlers and inside callbacks. -/
def LoopPc.runsUserCode : LoopPc → Bool
  | connecting | forced | closing | reset => false
  | _ => true

/-- Where a thread is in `close` or `closeWithDelay` after its compare-and-swap has
    succeeded. -/
inductive CloseCall where
  | queueing     -- `queueInLoop` follows
  | arming       -- `runAfter` follows
  | assigning    -- the assignment to `delay_close_timer_` follows
  deriving DecidableEq, Repr

structure Life where
  alive : Bool := true
  established : Bool := false
  status : StateE := .kDisconnected
  socket : Bool := true               -- `socket_` is not null
  isOpen : Bool := true               -- `socket_->is_open()`
  delayCloseTimer : Bool := false     -- `delay_close_timer_` is not null
  pc : LoopPc := .idle
  closers : List CloseCall := []      -- threads inside `close` or `closeWithDelay`
  closes : Nat := 0                   -- posted tasks that call `handleClose`
  timers : Nat := 0                   -- timers whose callback has not run
  log : List ConnCallback := []

inductive ReadResult where
  | success (d : Bytes)
  | failed                            -- an error other than `operation_aborted`
  | aborted
  deriving DecidableEq

inductive WriteResult where
  | success (transmitted : Nat)
  | failed
  | aborted
  deriving DecidableEq

/-- An `async_read_some`; `result` is set once its completion is queued. -/
structure ReadOp where
  piece : Ptr
  result : Option ReadResult
  deriving DecidableEq

/-- An `async_send`.  `raw` marks the handler bound to `this` instead of
    `shared_from_this()`. -/
structure WriteOp where
  piece : Ptr
  raw : Bool
  result : Option WriteResult
  deriving DecidableEq

/-- A posted `sendInLoop`.  The task itself holds `queue.head` only; the rest of the
    queue it was detached from, its pieces and the bytes given to `send` are kept
    to speak about them. -/
structure SendTask where
  queue : Buffer
  pieces : List Ptr
  payload : Bytes
  deriving DecidableEq

structure Flow where
  isSending : Bool := false
  reads : List ReadOp := []
  writes : List WriteOp := []
  sends : List SendTask := []
  wire : Bytes := []                  -- what the kernel has transmitted
  submitted : Bytes := []             -- the payloads, in the order their `sendInLoop` ran
  failed : Bool := false              -- an `async_send` has failed

/-- The buffers of the program: those of the application and those of each
    connection. -/
inductive BufferId (n : Nat) where
  | user (i : Nat)
  | input (c : Fin n)
  | output (c : Fin n)
  deriving DecidableEq

structure World (n : Nat) where
  bufs : BufferId n → Buffer := fun _ => {}
  life : Fin n → Life := fun _ => {}
  flow : Fin n → Flow := fun _ => {}

/-! ## Execution -/

inductive ConnFault where
  | memory (fault : Fault)
  | nullSocket    -- a null `socket_` is dereferenced
  | destroyed     -- a handler runs on a connection that has been destroyed
  deriving DecidableEq, Repr

abbrev ConnExec (α : Type) : Type := Prog Build Mem ConnFault α

/-- Code on pieces and buffers, as part of a connection's. -/
def onPieces {α : Type} (p : Exec α) : ConnExec α := p.mapFault .memory

namespace TCPConn

/-! ## Sending -/

/-- `socket_->async_send(buffer(piece->data + piece->off, piece->len), ...)` -/
def asyncSend (socket : Bool) (f : Flow) (piece : PiecePtr) (raw : Bool) : ConnExec Flow :=
  match piece with
  | none => throw (.memory .nullPiece)
  | some p =>
    if socket then pure { f with writes := f.writes ++ [⟨p, raw, none⟩] } else throw .nullSocket

/-- The common part of `sendInLoop` and `launchWrite`. -/
def startSend (raw socket : Bool) (out : Buffer) (f : Flow) : ConnExec (Buffer × Flow) := do
  let r ← onPieces (OutputBuffer.readPiece out)
  let f ← asyncSend socket { f with isSending := true } r.1 raw
  pure (r.2, f)

def sendInLoop (socket : Bool) (out : Buffer) (f : Flow) (task : SendTask) :
    ConnExec (Buffer × Flow) := do
  let out ← onPieces (OutputBuffer.writePieceQueue out task.queue.head)
  let f := { f with sends := f.sends.erase task, submitted := f.submitted ++ task.payload }
  if f.isSending then pure (out, f) else startSend true socket out f

def launchWrite (socket : Bool) (out : Buffer) (f : Flow) : ConnExec (Buffer × Flow) :=
  if 0 < out.length then startSend false socket out f else pure (out, f)

/-! ## Closing -/

def handleError (l : Life) : Life :=
  if l.status ≠ .kDisconnected then { l with pc := .forced } else l

/-- The start of `handleClose`, up to `socket_.reset()`. -/
def handleClose (l : Life) : ConnExec Life := do
  onPieces (assert (l.status == .kDisconnecting))
  if l.status ≠ .kDisconnected then do
    onPieces (assert (!l.socket || l.isOpen))
    pure { l with delayCloseTimer := false, socket := false, isOpen := false, pc := .reset }
  else pure { l with pc := .idle }

/-- `status_ = kDisconnecting; connection_cb_(conn);` -/
def notifyDisconnecting (l : Life) : Life :=
  let l := { l with status := .kDisconnecting }
  { l with log := l.log ++ [.connection l.status], pc := .notified }

/-- `close_cb_(conn);` -/
def notifyClosed (l : Life) : Life := { l with log := l.log ++ [.close], pc := .closed }

/-- `compare_exchange_strong(kConnected, kDisconnecting)`, and what the thread does
    next if it succeeds. -/
def compareExchange (l : Life) (call : CloseCall) : Life :=
  if l.status = .kConnected then { l with status := .kDisconnecting, closers := l.closers ++ [call] }
  else l

def close (l : Life) : Life := compareExchange l .queueing

def closeWithDelay (l : Life) : Life := compareExchange l .arming

/-- The next thing a thread does in `close` or `closeWithDelay`. -/
def closeGoesOn (l : Life) (call : CloseCall) : Life :=
  let l := { l with closers := l.closers.erase call }
  match call with
  | .queueing => { l with closes := l.closes + 1 }
  | .arming => { l with timers := l.timers + 1, closers := l.closers ++ [.assigning] }
  | .assigning => { l with delayCloseTimer := true }

/-! ## Reading and completions -/

/-- The start of `connectEstablished`: `status_ = kConnected;` -/
def connectEstablished (l : Life) : Life :=
  { l with established := true, status := .kConnected, pc := .connecting }

/-- `connection_cb_(shared_from_this());` -/
def notifyConnected (l : Life) : Life :=
  { l with log := l.log ++ [.connection l.status], pc := .connected }

def launchRead (socket : Bool) (f : Flow) : ConnExec Flow := do
  let piece ← onPieces newPiece
  if socket then pure { f with reads := f.reads ++ [⟨piece, none⟩] } else throw .nullSocket

def handleWrite (out : Buffer) (f : Flow) (l : Life) (op : WriteOp) :
    ConnExec (Buffer × Flow × Life) := do
  if l.alive then
    onPieces (deletePiece (some op.piece))
    let f := { f with isSending := false, writes := f.writes.erase op }
    match op.result with
    | some (.success _) =>
      let r ← launchWrite l.socket out f
      pure (r.1, r.2, l)
    | some .failed => pure (out, f, handleError l)
    | _ => pure (out, f, l)
  else throw .destroyed

/-- `handleRead`, up to `message_cb_`, with `writePiece` as one step. -/
def handleRead (inp : Buffer) (f : Flow) (l : Life) (op : ReadOp) :
    ConnExec (Buffer × Flow × Life) := do
  let f := { f with reads := f.reads.erase op }
  match op.result with
  | some (.success d) =>
    onPieces (InputBuffer.fillPiece (some op.piece) d)
    let inp ← onPieces (InputBuffer.writePiece inp (some op.piece))
    pure (inp, f, { l with log := l.log ++ [.message], pc := .message })
  | some .failed =>
    onPieces (deletePiece (some op.piece))
    pure (inp, f, handleError l)
  | _ =>
    onPieces (deletePiece (some op.piece))
    pure (inp, f, l)

/-- The loop thread goes on in the handler it is in. -/
def resume (l : Life) (f : Flow) : ConnExec (Life × Flow) :=
  match l.pc with
  | .idle => pure (l, f)
  | .connecting => pure (notifyConnected l, f)
  | .connected | .message => do
    let f ← launchRead l.socket f
    pure ({ l with pc := .idle }, f)
  | .forced => pure ({ l with status := .kDisconnecting, pc := .closing }, f)
  | .closing => do
    let l ← handleClose l
    pure (l, f)
  | .reset => pure (notifyDisconnecting l, f)
  | .notified => pure (notifyClosed l, f)
  | .closed => pure ({ l with status := .kDisconnected, pc := .idle }, f)

end TCPConn

/-! ## Steps of the system -/

inductive Action (n : Nat) where
  -- the application, on any thread
  | buffer (op : BufferOp (BufferId n))
  | sendData (c : Fin n) (d : Bytes) (inLoop : Bool)
  | sendBuffer (c : Fin n) (i : BufferId n) (inLoop : Bool)
  | close (c : Fin n)
  | closeWithDelay (c : Fin n)
  | closeGoesOn (c : Fin n) (call : CloseCall)
  -- the kernel
  | readDone (c : Fin n) (op : ReadOp) (result : ReadResult)
  | writeDone (c : Fin n) (op : WriteOp) (result : WriteResult)
  -- the loop thread
  | connectEstablished (c : Fin n)
  | runSend (c : Fin n) (task : SendTask)
  | runClose (c : Fin n)
  | fireTimer (c : Fin n)
  | handleRead (c : Fin n) (op : ReadOp)
  | handleWrite (c : Fin n) (op : WriteOp)
  | resume (c : Fin n)
  | destroy (c : Fin n)

namespace BufferOp

/-- The buffers a call is made on. -/
def names {ι : Type} : BufferOp ι → List ι
  | write i _ | writeInt32 i _ | writeInt16 i _ | writeInt8 i _ | reservedPrepend i _ | prepend i _
  | prependInt32 i _ | prependInt16 i _ | prependInt8 i _ | read i _ | readString i _ | readAll i
  | readInt32 i | readInt16 i | readInt8 i | skip i _ | moveToQueueHead i | clear i => [i]
  | readBuffer i _ j | swap i j => [i, j]

end BufferOp

namespace World

open Function (update)

variable {n : Nat}

/-- The application can reach this buffer: its own, or an input buffer inside
    `message_cb_`. -/
def Accessible (w : World n) : BufferId n → Prop
  | .user _ => True
  | .input c => (w.life c).pc = .message
  | .output _ => False

/-- No buffer holds `2^32` pieces or more. -/
def Small (w : World n) (m : Mem) : Prop := ∀ i, ((w.bufs i).pieces m).length < 4294967296

/-- A call on the connection can be made, from the loop thread if `inLoop` says so. -/
def Callable (w : World n) (c : Fin n) (inLoop : Bool) : Prop :=
  (w.life c).alive ∧ (inLoop → (w.life c).pc.runsUserCode)

/-- An open socket completes operations, and aborts them when it is closed. -/
def ReadPossible (l : Life) : ReadResult → Prop
  | .success d => l.socket ∧ d ≠ [] ∧ d.length ≤ kPieceCapacity
  | .failed => l.socket
  | .aborted => l.socket = false

/-- A send that succeeds transmits something, unless it was given nothing. -/
def WritePossible (m : Mem) (l : Life) (op : WriteOp) : WriteResult → Prop
  | .success transmitted =>
    l.socket ∧ (0 < (m.cell op.piece).len → 0 < transmitted) ∧ transmitted ≤ (m.cell op.piece).len
  | .failed => l.socket
  | .aborted => l.socket = false

/-- No `shared_ptr` to the connection is left in a handler, a task or a timer. -/
def Unreferenced (l : Life) (f : Flow) : Prop :=
  l.closers = [] ∧ l.closes = 0 ∧ l.timers = 0 ∧ f.reads = [] ∧ f.sends = [] ∧ ∀ op ∈ f.writes, op.raw

def Enabled (w : World n) (m : Mem) : Action n → Prop
  | .buffer op => op.Pre m w.bufs ∧ (∀ i ∈ op.names, w.Accessible i) ∧ w.Small m
  | .sendData c _ inLoop => w.Callable c inLoop
  | .sendBuffer c i inLoop => w.Callable c inLoop ∧ w.Accessible i
  | .close c | .closeWithDelay c => w.Callable c false
  | .closeGoesOn c call => call ∈ (w.life c).closers
  | .readDone c op result =>
    op ∈ (w.flow c).reads ∧ op.result = none ∧ ReadPossible (w.life c) result
  | .writeDone c op result =>
    op ∈ (w.flow c).writes ∧ op.result = none ∧ WritePossible m (w.life c) op result
  | .connectEstablished c =>
    (w.life c).alive ∧ (w.life c).established = false ∧ (w.life c).pc = .idle
  | .runSend c task => task ∈ (w.flow c).sends ∧ (w.life c).pc = .idle
  | .runClose c => 0 < (w.life c).closes ∧ (w.life c).pc = .idle
  | .fireTimer c => 0 < (w.life c).timers ∧ (w.life c).pc = .idle
  | .handleRead c op => op ∈ (w.flow c).reads ∧ op.result ≠ none ∧ (w.life c).pc = .idle
  | .handleWrite c op => op ∈ (w.flow c).writes ∧ op.result ≠ none ∧ (w.life c).pc = .idle
  | .resume c => (w.life c).pc ≠ .idle
  | .destroy c =>
    (w.life c).alive ∧ (w.life c).pc = .idle ∧ Unreferenced (w.life c) (w.flow c) ∧ w.Small m

def setLife (w : World n) (c : Fin n) (l : Life) : World n := { w with life := update w.life c l }

def setFlow (w : World n) (c : Fin n) (f : Flow) : World n := { w with flow := update w.flow c f }

def setBuf (w : World n) (i : BufferId n) (b : Buffer) : World n := { w with bufs := update w.bufs i b }

/-- The pieces of a detached queue, and their bytes. -/
def readQueue (b : Buffer) : Exec (List Ptr × Bytes) := fun _ m =>
  .ok ((b.pieces m, content m (b.pieces m)), m)

def runSendTask (w : World n) (c : Fin n) (task : SendTask) : ConnExec (World n) := do
  let r ← TCPConn.sendInLoop (w.life c).socket (w.bufs (.output c)) (w.flow c) task
  pure ((w.setBuf (.output c) r.1).setFlow c r.2)

/-- The end of `send`: `sendInLoop` runs at once or is posted. -/
def submit (w : World n) (c : Fin n) (queue : Buffer) (inLoop : Bool) : ConnExec (World n) := do
  let r ← onPieces (readQueue queue)
  let task : SendTask := ⟨queue, r.1, r.2⟩
  let w := w.setFlow c { w.flow c with sends := (w.flow c).sends ++ [task] }
  if inLoop then w.runSendTask c task else pure w

def sendData (w : World n) (c : Fin n) (d : Bytes) (inLoop : Bool) : ConnExec (World n) :=
  if (w.life c).status ≠ .kConnected ∨ d.length = 0 then pure w
  else do
    let buffer ← onPieces (Buffer.write {} d)
    w.submit c buffer inLoop

def sendBuffer (w : World n) (c : Fin n) (i : BufferId n) (inLoop : Bool) : ConnExec (World n) :=
  if (w.life c).status ≠ .kConnected ∨ (w.bufs i).length = 0 then pure w
  else (w.setBuf i (w.bufs i).moveToQueueHead.2).submit c (w.bufs i) inLoop

def finishRead (f : Flow) (op : ReadOp) (result : ReadResult) : Flow :=
  { f with reads := f.reads.erase op ++ [{ op with result := some result }] }

/-- The result of a send is queued; one that succeeds has transmitted the first bytes
    of its piece. -/
def finishWrite (m : Mem) (f : Flow) (op : WriteOp) (result : WriteResult) : Flow :=
  let f := { f with writes := f.writes.erase op ++ [{ op with result := some result }] }
  match result with
  | .success transmitted => { f with wire := f.wire ++ (m.cell op.piece).bytes.take transmitted }
  | _ => { f with failed := true }

/-- `~TCPConn`: the buffers are destroyed in reverse order of their declaration. -/
def destroy (w : World n) (c : Fin n) : ConnExec (World n) := do
  onPieces (assert ((w.life c).status == .kDisconnected))
  onPieces (assert (!(w.flow c).isSending))
  let inp ← onPieces (w.bufs (.input c)).clear
  let out ← onPieces (w.bufs (.output c)).clear
  pure (((w.setBuf (.input c) inp).setBuf (.output c) out).setLife c
    { w.life c with alive := false })

def exec (w : World n) : Action n → ConnExec (World n)
  | .buffer op => do
    let r ← onPieces (op.run w.bufs)
    pure { w with bufs := r.2 }
  | .sendData c d inLoop => w.sendData c d inLoop
  | .sendBuffer c i inLoop => w.sendBuffer c i inLoop
  | .close c => pure (w.setLife c (TCPConn.close (w.life c)))
  | .closeWithDelay c => pure (w.setLife c (TCPConn.closeWithDelay (w.life c)))
  | .closeGoesOn c call => pure (w.setLife c (TCPConn.closeGoesOn (w.life c) call))
  | .readDone c op result => pure (w.setFlow c (finishRead (w.flow c) op result))
  | .writeDone c op result => fun _ m =>
    .ok (w.setFlow c (finishWrite m (w.flow c) op result), m)
  | .connectEstablished c => pure (w.setLife c (TCPConn.connectEstablished (w.life c)))
  | .runSend c task => w.runSendTask c task
  | .runClose c =>
    pure (w.setLife c { w.life c with closes := (w.life c).closes - 1, pc := .closing })
  | .fireTimer c =>
    pure (w.setLife c { w.life c with timers := (w.life c).timers - 1, pc := .closing })
  | .handleRead c op => do
    let r ← TCPConn.handleRead (w.bufs (.input c)) (w.flow c) (w.life c) op
    pure (((w.setBuf (.input c) r.1).setFlow c r.2.1).setLife c r.2.2)
  | .handleWrite c op => do
    let r ← TCPConn.handleWrite (w.bufs (.output c)) (w.flow c) (w.life c) op
    pure (((w.setBuf (.output c) r.1).setFlow c r.2.1).setLife c r.2.2)
  | .resume c => do
    let r ← TCPConn.resume (w.life c) (w.flow c)
    pure ((w.setFlow c r.2).setLife c r.1)
  | .destroy c => w.destroy c

end World

/-- Runs from an idle program, each of whose steps meets the condition `P`. -/
inductive RunOf {n : Nat} (build : Build) (P : World n → Mem → Action n → Prop) :
    World n → Mem → Prop
  | start (cell : Ptr → Piece) : RunOf build P {} { cell := cell }
  | step {w w' : World n} {m m' : Mem} (a : Action n) (before : RunOf build P w m)
      (enabled : w.Enabled m a) (condition : P w m a) (done : w.exec a build m = .ok (w', m')) :
      RunOf build P w' m'

/-- A run under a condition is one under every weaker condition. -/
theorem RunOf.imp {n : Nat} {build : Build} {P Q : World n → Mem → Action n → Prop} {w : World n}
    {m : Mem} (h : RunOf build P w m) (hpq : ∀ w m a, P w m a → Q w m a) : RunOf build Q w m := by
  induction h with
  | start cell => exact .start cell
  | step a _ enabled condition done ih => exact ih.step a enabled (hpq _ _ _ condition) done

theorem World.eq_one (w : World 1) : w = ⟨w.bufs, fun _ => w.life 0, fun _ => w.flow 0⟩ := by
  obtain ⟨bufs, life, flow⟩ := w
  have hconst : ∀ {α : Type} (g : Fin 1 → α), g = fun _ => g 0 := fun g => by
    funext c
    rw [Subsingleton.elim c 0]
  rw [hconst life, hconst flow]

end Netpp
