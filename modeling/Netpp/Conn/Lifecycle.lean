import Netpp.Conn.TCPConn

/-! # The life of a connection

`LifeStep` lists everything that can happen to `status_`, `socket_` and the
callbacks of a connection, and `exec_life` says that a step of the system does
one of these or nothing.  What holds in every run is then shown for `LifeStep`.

* `Stage`: the invariant.  A connection has not been established, is open, is
  between its two disconnect notifications, or has had both.
* `notifications_once`: each notification is delivered once.
-/

namespace Netpp

open TCPConn

/-! ## What can happen to a connection -/

/-- What can happen to a connection, if `close` and `closeWithDelay` are called on it
    in states that meet `C` only, `message_cb_` in states that meet `M`, and
    `handleError` in states that meet `E`. -/
inductive LifeStep (C M E : Life → Prop) : Life → Life → Prop
  | close (l : Life) (call : CloseCall) (h : C l) (asks : call ≠ .assigning) :
      LifeStep C M E l (compareExchange l call)
  | closeGoesOn (l : Life) (call : CloseCall) (h : call ∈ l.closers) :
      LifeStep C M E l (TCPConn.closeGoesOn l call)
  | connectEstablished (l : Life) (idle : l.pc = .idle) (h : l.established = false) :
      LifeStep C M E l (TCPConn.connectEstablished l)
  | notifyConnected (l : Life) (h : l.pc = .connecting) : LifeStep C M E l (TCPConn.notifyConnected l)
  | runClose (l : Life) (idle : l.pc = .idle) (h : 0 < l.closes) :
      LifeStep C M E l { l with closes := l.closes - 1, pc := .closing }
  | fireTimer (l : Life) (idle : l.pc = .idle) (h : 0 < l.timers) :
      LifeStep C M E l { l with timers := l.timers - 1, pc := .closing }
  | handleError (l : Life) (idle : l.pc = .idle) (h : E l) : LifeStep C M E l (TCPConn.handleError l)
  | message (l : Life) (idle : l.pc = .idle) (established : l.established = true) (h : M l) :
      LifeStep C M E l { l with log := l.log ++ [.message], pc := .message }
  | launched (l : Life) (h : l.pc = .connected ∨ l.pc = .message) (socket : l.socket = true) :
      LifeStep C M E l { l with pc := .idle }
  | forced (l : Life) (h : l.pc = .forced) :
      LifeStep C M E l { l with status := .kDisconnecting, pc := .closing }
  | reset (l : Life) (h : l.pc = .closing) (status : l.status ≠ .kDisconnected) :
      LifeStep C M E l { l with delayCloseTimer := false, socket := false, isOpen := false, pc := .reset }
  | closeAgain (l : Life) (h : l.pc = .closing) (status : l.status = .kDisconnected) :
      LifeStep C M E l { l with pc := .idle }
  | notifyDisconnecting (l : Life) (h : l.pc = .reset) : LifeStep C M E l (TCPConn.notifyDisconnecting l)
  | notifyClosed (l : Life) (h : l.pc = .notified) : LifeStep C M E l (TCPConn.notifyClosed l)
  | finish (l : Life) (h : l.pc = .closed) :
      LifeStep C M E l { l with status := .kDisconnected, pc := .idle }
  | destroy (l : Life) : LifeStep C M E l { l with alive := false }

section Steps

variable {n : Nat} {build : Build} {w w' : World n} {m m' : Mem} {a : Action n} {c : Fin n}

/-- A connection reads only once it has been established. -/
def World.Born (w : World n) : Prop := ∀ c, (w.life c).established = false → (w.flow c).reads = []

def LifeMoves (C M E : Life → Prop) (w w' : World n) : Prop :=
  ∀ c, w'.life c = w.life c ∨ LifeStep C M E (w.life c) (w'.life c)

variable {C M E : Life → Prop}

theorem lifeMoves_same (h : w'.life = w.life) : LifeMoves C M E w w' := fun c => .inl (by rw [h])

theorem lifeMoves_setLife {l : Life} (hlife : w'.life = Function.update w.life c l)
    (h : l = w.life c ∨ LifeStep C M E (w.life c) l) : LifeMoves C M E w w' := by
  intro d
  by_cases hd : d = c
  · subst hd
    rw [hlife, Function.update_self]
    exact h
  · rw [hlife, Function.update_of_ne hd]
    exact .inl rfl

theorem runSendTask_life (task : SendTask) :
    (w.runSendTask c task).wlp build m fun w' _ => w'.life = w.life := by
  simp only [World.runSendTask, Prog.wlp_bind, Prog.wlp_pure]
  intro r m' _
  rfl

theorem submit_life (queue : Buffer) (inLoop : Bool) :
    (w.submit c queue inLoop).wlp build m fun w' _ => w'.life = w.life := by
  simp only [World.submit, Prog.wlp_bind]
  intro r m' _
  cases inLoop with
  | false =>
    simp only [Bool.false_eq_true, if_false, Prog.wlp_pure]
    rfl
  | true => exact (runSendTask_life _).imp fun w' _ h => h

theorem sendData_life (d : Bytes) (inLoop : Bool) :
    (w.sendData c d inLoop).wlp build m fun w' _ => w'.life = w.life := by
  unfold World.sendData
  split
  · rw [Prog.wlp_pure]
  · rw [Prog.wlp_bind]
    intro b m' _
    exact submit_life b inLoop

theorem sendBuffer_life (i : BufferId n) (inLoop : Bool) :
    (w.sendBuffer c i inLoop).wlp build m fun w' _ => w'.life = w.life := by
  unfold World.sendBuffer
  split
  · rw [Prog.wlp_pure]
  · exact (submit_life _ _).imp fun w' _ h => h

theorem handleRead_life {inp : Buffer} {f : Flow} {l : Life} {op : ReadOp} (idle : l.pc = .idle)
    (established : l.established = true)
    (heard : ∀ d, op.result = some (.success d) → M l) (failing : op.result = some .failed → E l) :
    (handleRead inp f l op).wlp build m fun r _ => r.2.2 = l ∨ LifeStep C M E l r.2.2 := by
  unfold TCPConn.handleRead
  cases hresult : op.result with
  | none =>
    simp only [Prog.wlp_bind, Prog.wlp_pure]
    exact fun _ _ _ => .inl trivial
  | some result =>
    cases result with
    | success d =>
      simp only [Prog.wlp_bind, Prog.wlp_pure]
      exact fun _ _ _ _ _ _ => .inr (.message l idle established (heard d hresult))
    | failed =>
      simp only [Prog.wlp_bind, Prog.wlp_pure]
      exact fun _ _ _ => .inr (.handleError l idle (failing hresult))
    | aborted =>
      simp only [Prog.wlp_bind, Prog.wlp_pure]
      exact fun _ _ _ => .inl trivial

theorem handleWrite_life {out : Buffer} {f : Flow} {l : Life} {op : WriteOp} (idle : l.pc = .idle)
    (failing : op.result = some .failed → E l) :
    (handleWrite out f l op).wlp build m fun r _ => r.2.2 = l ∨ LifeStep C M E l r.2.2 := by
  unfold TCPConn.handleWrite
  split
  · cases hresult : op.result with
    | none =>
      simp only [Prog.wlp_bind, Prog.wlp_pure]
      exact fun _ _ _ => .inl trivial
    | some result =>
      cases result with
      | success n =>
        simp only [Prog.wlp_bind, Prog.wlp_pure]
        exact fun _ _ _ _ _ _ => .inl trivial
      | failed =>
        simp only [Prog.wlp_bind, Prog.wlp_pure]
        exact fun _ _ _ => .inr (.handleError l idle (failing hresult))
      | aborted =>
        simp only [Prog.wlp_bind, Prog.wlp_pure]
        exact fun _ _ _ => .inl trivial
  · exact Prog.wlp_throw _ _ _ _

theorem launchRead_socket {socket : Bool} {f : Flow} :
    (launchRead socket f).wlp build m fun _ _ => socket = true := by
  simp only [launchRead, Prog.wlp_bind]
  intro piece m' _
  cases socket with
  | true => exact (Prog.wlp_pure ..).mpr rfl
  | false => exact Prog.wlp_throw _ _ _ _

theorem handleClose_life {l : Life} (hpc : l.pc = .closing) :
    (handleClose l).wlp build m fun l' _ => LifeStep C M E l l' := by
  simp only [handleClose, Prog.wlp_bind]
  intro _ m' _
  split
  · rename_i hstatus
    simp only [Prog.wlp_bind, Prog.wlp_pure]
    exact fun _ _ _ => .reset l hpc hstatus
  · rename_i hstatus
    exact (Prog.wlp_pure ..).mpr (.closeAgain l hpc (Decidable.not_not.mp hstatus))

theorem resume_life {l : Life} {f : Flow} :
    (resume l f).wlp build m fun r _ => r.1 = l ∨ LifeStep C M E l r.1 := by
  unfold TCPConn.resume
  cases hpc : l.pc with
  | idle => exact (Prog.wlp_pure ..).mpr (.inl rfl)
  | connecting => exact (Prog.wlp_pure ..).mpr (.inr (.notifyConnected l hpc))
  | connected =>
    simp only [Prog.wlp_bind, Prog.wlp_pure]
    exact launchRead_socket.imp fun _ _ hsocket => .inr (.launched l (.inl hpc) hsocket)
  | message =>
    simp only [Prog.wlp_bind, Prog.wlp_pure]
    exact launchRead_socket.imp fun _ _ hsocket => .inr (.launched l (.inr hpc) hsocket)
  | forced => exact (Prog.wlp_pure ..).mpr (.inr (.forced l hpc))
  | closing =>
    simp only [Prog.wlp_bind, Prog.wlp_pure]
    exact (handleClose_life hpc).imp fun _ _ hstep => .inr hstep
  | reset => exact (Prog.wlp_pure ..).mpr (.inr (.notifyDisconnecting l hpc))
  | notified => exact (Prog.wlp_pure ..).mpr (.inr (.notifyClosed l hpc))
  | closed => exact (Prog.wlp_pure ..).mpr (.inr (.finish l hpc))

/-- The step is the handler of an operation that has failed. -/
def Action.Fails (c : Fin n) : Action n → Prop
  | .handleRead d op => d = c ∧ op.result = some .failed
  | .handleWrite d op => d = c ∧ op.result = some .failed
  | _ => False

theorem exec_life (closable : ∀ c, a = .close c ∨ a = .closeWithDelay c → C (w.life c))
    (heard : ∀ c op d, a = .handleRead c op → op.result = some (.success d) → M (w.life c))
    (failing : ∀ c, a.Fails c → E (w.life c))
    (born : w.Born) (enabled : w.Enabled m a) (done : w.exec a build m = .ok (w', m')) :
    LifeMoves C M E w w' := by
  have hwlp : (w.exec a).wlp build m fun w' _ => LifeMoves C M E w w' := by
    cases a with
    | buffer op =>
      simp only [World.exec, Prog.wlp_bind, Prog.wlp_pure]
      exact fun _ _ _ => lifeMoves_same rfl
    | sendData c d inLoop => exact (sendData_life d inLoop).imp fun _ _ h => lifeMoves_same h
    | sendBuffer c i inLoop => exact (sendBuffer_life i inLoop).imp fun _ _ h => lifeMoves_same h
    | close c =>
      exact (Prog.wlp_pure ..).mpr
        (lifeMoves_setLife rfl (.inr (.close _ .queueing (closable c (.inl rfl)) (by decide))))
    | closeWithDelay c =>
      exact (Prog.wlp_pure ..).mpr
        (lifeMoves_setLife rfl (.inr (.close _ .arming (closable c (.inr rfl)) (by decide))))
    | closeGoesOn c call =>
      exact (Prog.wlp_pure ..).mpr (lifeMoves_setLife rfl (.inr (.closeGoesOn _ call enabled)))
    | readDone c op result => exact (Prog.wlp_pure ..).mpr (lifeMoves_same rfl)
    | writeDone c op result =>
      intro w' m' h
      cases h
      exact lifeMoves_same rfl
    | connectEstablished c =>
      exact (Prog.wlp_pure ..).mpr
        (lifeMoves_setLife rfl (.inr (.connectEstablished _ enabled.2.2 enabled.2.1)))
    | runSend c task => exact (runSendTask_life task).imp fun _ _ h => lifeMoves_same h
    | runClose c =>
      exact (Prog.wlp_pure ..).mpr (lifeMoves_setLife rfl (.inr (.runClose _ enabled.2 enabled.1)))
    | fireTimer c =>
      exact (Prog.wlp_pure ..).mpr (lifeMoves_setLife rfl (.inr (.fireTimer _ enabled.2 enabled.1)))
    | handleRead c op =>
      simp only [World.exec, Prog.wlp_bind, Prog.wlp_pure]
      have hestablished : (w.life c).established = true := by
        by_contra hnot
        have hnil := born c (by simpa using hnot)
        have hmem := enabled.1
        rw [hnil] at hmem
        simp at hmem
      exact (handleRead_life enabled.2.2 hestablished (fun d => heard c op d rfl)
        fun hfailed => failing c ⟨rfl, hfailed⟩).imp
        fun _ _ h => lifeMoves_setLife rfl h
    | handleWrite c op =>
      simp only [World.exec, Prog.wlp_bind, Prog.wlp_pure]
      exact (handleWrite_life enabled.2.2 fun hfailed => failing c ⟨rfl, hfailed⟩).imp
        fun _ _ h => lifeMoves_setLife rfl h
    | resume c =>
      simp only [World.exec, Prog.wlp_bind, Prog.wlp_pure]
      exact resume_life.imp fun _ _ h => lifeMoves_setLife rfl h
    | destroy c =>
      simp only [World.exec, World.destroy, Prog.wlp_bind, Prog.wlp_pure]
      intro _ _ _ _ _ _ _ _ _ _ _ _
      exact lifeMoves_setLife rfl (.inr (.destroy _))
  exact hwlp w' m' done

theorem exec_lifeStep (h : w.Born) (enabled : w.Enabled m a) (done : w.exec a build m = .ok (w', m'))
    (c : Fin n) :
    w'.life c = w.life c ∨
      LifeStep (fun _ => True) (fun _ => True) (fun _ => True) (w.life c) (w'.life c) :=
  exec_life (fun _ _ => trivial) (fun _ _ _ _ _ => trivial) (fun _ _ => trivial) h enabled done c

end Steps

/-! ## The invariant -/

def OnlyMessages (log : List ConnCallback) : Prop := ∀ x ∈ log, x = .message

/-- How far a connection has come.  `first` is the status `connection_cb_` has seen
    in `connectEstablished`. -/
inductive Stage (l : Life) : Prop
  | unborn (established : l.established = false) (log : l.log = []) (status : l.status = .kDisconnected)
      (idle : l.pc = .idle) (socket : l.socket = true)
      (calm : l.closers = [] ∧ l.closes = 0 ∧ l.timers = 0)
  | connecting (established : l.established = true) (log : l.log = [])
      (status : l.status ≠ .kDisconnected) (pc : l.pc = .connecting) (socket : l.socket = true)
      (calm : l.status = .kConnected → l.closers = [] ∧ l.closes = 0 ∧ l.timers = 0)
  | opened (first : StateE) (ms : List ConnCallback) (established : l.established = true)
      (messages : OnlyMessages ms) (log : l.log = .connection first :: ms)
      (status : l.status ≠ .kDisconnected)
      (pc : l.pc ≠ .connecting ∧ l.pc ≠ .notified ∧ l.pc ≠ .closed)
      (socket : l.socket = true ↔ l.pc ≠ .reset)
      (closing : l.pc = .closing ∨ l.pc = .reset → l.status = .kDisconnecting)
      (calm : l.status = .kConnected → l.closers = [] ∧ l.closes = 0 ∧ l.timers = 0)
  | between (first : StateE) (ms : List ConnCallback) (established : l.established = true)
      (messages : OnlyMessages ms)
      (log : l.log = .connection first :: (ms ++ [.connection .kDisconnecting]))
      (status : l.status = .kDisconnecting) (pc : l.pc = .notified) (socket : l.socket = false)
  | ended (first : StateE) (ms late : List ConnCallback) (established : l.established = true)
      (messages : OnlyMessages ms) (lateMessages : OnlyMessages late)
      (log : l.log = .connection first :: (ms ++ [.connection .kDisconnecting, .close] ++ late))
      (status : l.pc = .closed ∧ l.status = .kDisconnecting ∨
        (l.pc = .idle ∨ l.pc = .message ∨ l.pc = .closing) ∧ l.status = .kDisconnected)
      (socket : l.socket = false)

/-- A connection that is connected has its socket. -/
theorem Stage.socket_of_connected {l : Life} (h : Stage l) (connected : l.status = .kConnected) :
    l.socket = true := by
  cases h with
  | unborn _ _ _ _ hsocket => exact hsocket
  | connecting _ _ _ _ hsocket => exact hsocket
  | opened _ _ _ _ _ _ _ hsocket hclosing =>
    refine hsocket.mpr fun hreset => ?_
    rw [hclosing (.inr hreset)] at connected
    cases connected
  | between _ _ _ _ _ hstatus =>
    rw [hstatus] at connected
    cases connected
  | ended _ _ _ _ _ _ _ hstatus =>
    rw [connected] at hstatus
    simp at hstatus

section Invariant

variable {C M E : Life → Prop} {l l' : Life}

theorem OnlyMessages.snoc {log : List ConnCallback} (h : OnlyMessages log) :
    OnlyMessages (log ++ [.message]) := by
  intro x hx
  cases List.mem_append.mp hx with
  | inl hold => exact h x hold
  | inr hnew => exact List.mem_singleton.mp hnew

/-- The tasks and timers of `close` do not decide about the stage of a connection,
    unless it is still connected. -/
theorem Stage.frame (h : Stage l) (established : l'.established = l.established)
    (log : l'.log = l.log) (status : l'.status = l.status) (pc : l'.pc = l.pc)
    (socket : l'.socket = l.socket)
    (calm : l.status ≠ .kDisconnecting → l.established = false ∨ l.status = .kConnected →
      l'.closers = l.closers ∧ l'.closes = l.closes ∧ l'.timers = l.timers) : Stage l' := by
  cases h with
  | unborn hestablished hlog hstatus hidle hsocket hcalm =>
    obtain ⟨hclosers, hcloses, htimers⟩ := calm (by rw [hstatus]; decide) (.inl hestablished)
    exact .unborn (established.trans hestablished) (log.trans hlog) (status.trans hstatus)
      (pc.trans hidle) (socket.trans hsocket) (by rw [hclosers, hcloses, htimers]; exact hcalm)
  | connecting hestablished hlog hstatus hpc hsocket hcalm =>
    refine .connecting (established.trans hestablished) (log.trans hlog) (status ▸ hstatus)
      (pc.trans hpc) (socket.trans hsocket) fun hconnected => ?_
    rw [status] at hconnected
    obtain ⟨hclosers, hcloses, htimers⟩ := calm (by rw [hconnected]; decide) (.inr hconnected)
    rw [hclosers, hcloses, htimers]
    exact hcalm hconnected
  | opened first ms hestablished hms hlog hstatus hpc hsocket hclosing hcalm =>
    refine .opened first ms (established.trans hestablished) hms (log.trans hlog) (status ▸ hstatus)
      (pc ▸ hpc) (by rw [socket, pc]; exact hsocket) (by rw [pc, status]; exact hclosing) ?_
    intro hconnected
    rw [status] at hconnected
    obtain ⟨hclosers, hcloses, htimers⟩ := calm (by rw [hconnected]; decide) (.inr hconnected)
    rw [hclosers, hcloses, htimers]
    exact hcalm hconnected
  | between first ms hestablished hms hlog hstatus hpc hsocket =>
    exact .between first ms (established.trans hestablished) hms (log.trans hlog) (status.trans hstatus)
      (pc.trans hpc) (socket.trans hsocket)
  | ended first ms late hestablished hms hlate hlog hstatus hsocket =>
    exact .ended first ms late (established.trans hestablished) hms hlate (log.trans hlog)
      (by rw [pc, status]; exact hstatus) (socket.trans hsocket)

theorem Stage.not_calm (h : Stage l) (busy : l.closers ≠ [] ∨ 0 < l.closes ∨ 0 < l.timers) :
    l.established = true ∧ l.status ≠ .kConnected := by
  have hbusy : ¬ (l.closers = [] ∧ l.closes = 0 ∧ l.timers = 0) := by
    intro ⟨hclosers, hcloses, htimers⟩
    rcases busy with h | h | h
    · exact h hclosers
    · omega
    · omega
  cases h with
  | unborn _ _ _ _ _ hcalm => exact absurd hcalm hbusy
  | connecting hestablished _ _ _ _ hcalm => exact ⟨hestablished, fun h => hbusy (hcalm h)⟩
  | opened first ms hestablished _ _ _ _ _ _ hcalm => exact ⟨hestablished, fun h => hbusy (hcalm h)⟩
  | between first ms hestablished _ _ hstatus _ _ => exact ⟨hestablished, by rw [hstatus]; decide⟩
  | ended first ms late hestablished _ _ _ hstatus _ =>
    refine ⟨hestablished, ?_⟩
    rcases hstatus with ⟨_, hstatus⟩ | ⟨_, hstatus⟩
    · rw [hstatus]; decide
    · rw [hstatus]; decide

theorem Stage.startClose (h : Stage l) (idle : l.pc = .idle) (busy : 0 < l.closes ∨ 0 < l.timers)
    (established : l'.established = l.established) (log : l'.log = l.log)
    (status : l'.status = l.status) (pc : l'.pc = .closing) (socket : l'.socket = l.socket) :
    Stage l' := by
  obtain ⟨_, hnot⟩ := h.not_calm (.inr busy)
  cases h with
  | unborn hestablished _ _ _ _ hcalm => omega
  | connecting _ _ _ hpc => rw [idle] at hpc; cases hpc
  | opened first ms hestablished hms hlog hstatus hpc hsocket hclosing hcalm =>
    have hdisconnecting : l.status = .kDisconnecting := by
      cases hs : l.status with
      | kConnected => exact absurd hs hnot
      | kDisconnecting => rfl
      | kDisconnected => exact absurd hs hstatus
    refine .opened first ms (established.trans hestablished) hms (log.trans hlog) (status ▸ hstatus)
      (by rw [pc]; decide) ?_ (fun _ => status.trans hdisconnecting) ?_
    · rw [socket, hsocket, pc, idle]
      decide
    · intro hconnected
      rw [status, hdisconnecting] at hconnected
      cases hconnected
  | between first ms _ _ _ _ hpc _ => rw [idle] at hpc; cases hpc
  | ended first ms late hestablished hms hlate hlog hstatus hsocket =>
    refine .ended first ms late (established.trans hestablished) hms hlate (log.trans hlog) (.inr ?_)
      (socket.trans hsocket)
    rcases hstatus with ⟨hpc, _⟩ | ⟨_, hstatus⟩
    · rw [idle] at hpc; cases hpc
    · exact ⟨.inr (.inr pc), status.trans hstatus⟩

theorem Stage.compareExchange (h : Stage l) (call : CloseCall) : Stage (TCPConn.compareExchange l call) := by
  unfold TCPConn.compareExchange
  split
  · rename_i hconnected
    cases h with
    | unborn _ _ hstatus _ _ _ => rw [hstatus] at hconnected; cases hconnected
    | connecting hestablished hlog hstatus hpc hsocket hcalm =>
      exact .connecting hestablished hlog (by simp) hpc hsocket (fun h => by cases h)
    | opened first ms hestablished hms hlog hstatus hpc hsocket hclosing hcalm =>
      exact .opened first ms hestablished hms hlog (by simp) hpc hsocket (fun _ => rfl)
        (fun h => by cases h)
    | between first ms _ _ _ hstatus _ _ => rw [hstatus] at hconnected; cases hconnected
    | ended first ms late _ _ _ _ hstatus _ =>
      rcases hstatus with ⟨_, hstatus⟩ | ⟨_, hstatus⟩
      · rw [hstatus] at hconnected; cases hconnected
      · rw [hstatus] at hconnected; cases hconnected
  · exact h

theorem Stage.closeGoesOn {call : CloseCall} (h : Stage l) (hcall : call ∈ l.closers) :
    Stage (TCPConn.closeGoesOn l call) := by
  obtain ⟨hestablished, hnot⟩ := h.not_calm (.inl (List.ne_nil_of_mem hcall))
  cases call with
  | queueing => exact h.frame rfl rfl rfl rfl rfl fun _ h => by simp [hestablished, hnot] at h
  | arming => exact h.frame rfl rfl rfl rfl rfl fun _ h => by simp [hestablished, hnot] at h
  | assigning => exact h.frame rfl rfl rfl rfl rfl fun _ h => by simp [hestablished, hnot] at h

theorem Stage.connectEstablished (h : Stage l) (hnew : l.established = false) :
    Stage (TCPConn.connectEstablished l) := by
  cases h with
  | unborn _ hlog _ _ hsocket hcalm =>
    exact .connecting rfl hlog (by simp [TCPConn.connectEstablished]) rfl hsocket fun _ => hcalm
  | connecting hestablished => rw [hnew] at hestablished; cases hestablished
  | opened first ms hestablished => rw [hnew] at hestablished; cases hestablished
  | between first ms hestablished => rw [hnew] at hestablished; cases hestablished
  | ended first ms late hestablished => rw [hnew] at hestablished; cases hestablished

theorem Stage.notifyConnected (h : Stage l) (hpc : l.pc = .connecting) :
    Stage (TCPConn.notifyConnected l) := by
  cases h with
  | unborn _ _ _ hidle => rw [hpc] at hidle; cases hidle
  | connecting hestablished hlog hstatus _ hsocket hcalm =>
    refine .opened l.status [] hestablished (fun x hx => by simp at hx) ?_ hstatus
      (by simp [TCPConn.notifyConnected])
      (iff_of_true hsocket (by simp [TCPConn.notifyConnected]))
      (by simp [TCPConn.notifyConnected]) hcalm
    show l.log ++ [_] = _
    rw [hlog]
    rfl
  | opened first ms _ _ _ _ hnot => exact absurd hpc hnot.1
  | between first ms _ _ _ _ hnotified _ => rw [hpc] at hnotified; cases hnotified
  | ended first ms late _ _ _ _ hstatus _ => simp [hpc] at hstatus

theorem Stage.handleError (h : Stage l) (idle : l.pc = .idle) : Stage (TCPConn.handleError l) := by
  unfold TCPConn.handleError
  split
  · rename_i hnot
    cases h with
    | unborn _ _ hstatus _ _ _ => exact absurd hstatus hnot
    | connecting _ _ _ hpc => rw [idle] at hpc; cases hpc
    | opened first ms hestablished hms hlog hstatus hpc hsocket hclosing hcalm =>
      exact .opened first ms hestablished hms hlog hstatus (by simp)
        (iff_of_true (hsocket.mpr (by simp [idle])) (by simp)) (by simp) hcalm
    | between first ms _ _ _ _ hpc _ => rw [idle] at hpc; cases hpc
    | ended first ms late _ _ _ _ hstatus _ =>
      rcases hstatus with ⟨hpc, _⟩ | ⟨_, hstatus⟩
      · rw [idle] at hpc; cases hpc
      · exact absurd hstatus hnot
  · exact h

theorem Stage.message (h : Stage l) (idle : l.pc = .idle) (hborn : l.established = true) :
    Stage { l with log := l.log ++ [.message], pc := .message } := by
  cases h with
  | unborn hestablished => rw [hborn] at hestablished; cases hestablished
  | connecting _ _ _ hpc => rw [idle] at hpc; cases hpc
  | opened first ms hestablished hms hlog hstatus hpc hsocket hclosing hcalm =>
    exact .opened first (ms ++ [.message]) hestablished hms.snoc (by simp [hlog]) hstatus (by simp)
      (iff_of_true (hsocket.mpr (by simp [idle])) (by simp)) (by simp) hcalm
  | between first ms _ _ _ _ hpc _ => rw [idle] at hpc; cases hpc
  | ended first ms late hestablished hms hlate hlog hstatus hsocket =>
    refine .ended first ms (late ++ [.message]) hestablished hms hlate.snoc (by simp [hlog]) ?_ hsocket
    rcases hstatus with ⟨hpc, _⟩ | ⟨_, hstatus⟩
    · rw [idle] at hpc; cases hpc
    · exact .inr ⟨.inr (.inl rfl), hstatus⟩

theorem Stage.launched (h : Stage l) (hpc : l.pc = .connected ∨ l.pc = .message) (hopen : l.socket = true) :
    Stage { l with pc := .idle } := by
  cases h with
  | unborn _ _ _ hidle => simp [hidle] at hpc
  | connecting _ _ _ hconnecting => simp [hconnecting] at hpc
  | opened first ms hestablished hms hlog hstatus _ hsocket hclosing hcalm =>
    exact .opened first ms hestablished hms hlog hstatus (by simp) (iff_of_true hopen (by simp)) (by simp)
      hcalm
  | between first ms _ _ _ _ hnotified _ => simp [hnotified] at hpc
  | ended first ms late _ _ _ _ _ hsocket => rw [hopen] at hsocket; cases hsocket

theorem Stage.forced (h : Stage l) (hpc : l.pc = .forced) :
    Stage { l with status := .kDisconnecting, pc := .closing } := by
  cases h with
  | unborn _ _ _ hidle => rw [hpc] at hidle; cases hidle
  | connecting _ _ _ hconnecting => rw [hpc] at hconnecting; cases hconnecting
  | opened first ms hestablished hms hlog hstatus _ hsocket hclosing hcalm =>
    exact .opened first ms hestablished hms hlog (by simp) (by simp)
      (iff_of_true (hsocket.mpr (by simp [hpc])) (by simp)) (fun _ => rfl) (fun h => by cases h)
  | between first ms _ _ _ _ hnotified _ => rw [hpc] at hnotified; cases hnotified
  | ended first ms late _ _ _ _ hstatus _ => simp [hpc] at hstatus

/-! ### `handleClose` -/

theorem Stage.reset (h : Stage l) (hpc : l.pc = .closing) (hnot : l.status ≠ .kDisconnected) :
    Stage { l with delayCloseTimer := false, socket := false, isOpen := false, pc := .reset } := by
  cases h with
  | unborn _ _ _ hidle => rw [hpc] at hidle; cases hidle
  | connecting _ _ _ hconnecting => rw [hpc] at hconnecting; cases hconnecting
  | opened first ms hestablished hms hlog hstatus _ hsocket hclosing hcalm =>
    exact .opened first ms hestablished hms hlog hstatus (by simp) (by simp)
      (fun _ => hclosing (.inl hpc)) hcalm
  | between first ms _ _ _ _ hnotified _ => rw [hpc] at hnotified; cases hnotified
  | ended first ms late _ _ _ _ hstatus _ => simp [hpc, hnot] at hstatus

theorem Stage.closeAgain (h : Stage l) (hpc : l.pc = .closing) (hstatus : l.status = .kDisconnected) :
    Stage { l with pc := .idle } := by
  cases h with
  | unborn _ _ _ hidle => rw [hpc] at hidle; cases hidle
  | connecting _ _ _ hconnecting => rw [hpc] at hconnecting; cases hconnecting
  | opened first ms _ _ _ hnot => exact absurd hstatus hnot
  | between first ms _ _ _ hnot _ _ => rw [hstatus] at hnot; cases hnot
  | ended first ms late hestablished hms hlate hlog _ hsocket =>
    exact .ended first ms late hestablished hms hlate hlog (.inr ⟨.inl rfl, hstatus⟩) hsocket

theorem Stage.notifyDisconnecting (h : Stage l) (hpc : l.pc = .reset) :
    Stage (TCPConn.notifyDisconnecting l) := by
  cases h with
  | unborn _ _ _ hidle => rw [hpc] at hidle; cases hidle
  | connecting _ _ _ hconnecting => rw [hpc] at hconnecting; cases hconnecting
  | opened first ms hestablished hms hlog _ _ hsocket =>
    refine .between first ms hestablished hms ?_ rfl rfl ?_
    · show l.log ++ [_] = _
      rw [hlog]
      rfl
    · show l.socket = false
      simpa [hpc] using hsocket
  | between first ms _ _ _ _ hnotified _ => rw [hpc] at hnotified; cases hnotified
  | ended first ms late _ _ _ _ hstatus _ => simp [hpc] at hstatus

theorem Stage.notifyClosed (h : Stage l) (hpc : l.pc = .notified) : Stage (TCPConn.notifyClosed l) := by
  cases h with
  | unborn _ _ _ hidle => rw [hpc] at hidle; cases hidle
  | connecting _ _ _ hconnecting => rw [hpc] at hconnecting; cases hconnecting
  | opened first ms _ _ _ _ hnot => exact absurd hpc hnot.2.1
  | between first ms hestablished hms hlog hstatus _ hsocket =>
    refine .ended first ms [] hestablished hms (fun x hx => by simp at hx) ?_ (.inl ⟨rfl, hstatus⟩) hsocket
    show l.log ++ [_] = _
    rw [hlog]
    simp
  | ended first ms late _ _ _ _ hstatus _ => simp [hpc] at hstatus

theorem Stage.finish (h : Stage l) (hpc : l.pc = .closed) :
    Stage { l with status := .kDisconnected, pc := .idle } := by
  cases h with
  | unborn _ _ _ hidle => rw [hpc] at hidle; cases hidle
  | connecting _ _ _ hconnecting => rw [hpc] at hconnecting; cases hconnecting
  | opened first ms _ _ _ _ hnot => exact absurd hpc hnot.2.2
  | between first ms _ _ _ _ hnotified _ => rw [hpc] at hnotified; cases hnotified
  | ended first ms late hestablished hms hlate hlog _ hsocket =>
    exact .ended first ms late hestablished hms hlate hlog (.inr ⟨.inl rfl, rfl⟩) hsocket

theorem LifeStep.stage (h : LifeStep C M E l l') (hstage : Stage l) : Stage l' := by
  cases h with
  | close call _ => exact hstage.compareExchange call
  | closeGoesOn call hcall => exact hstage.closeGoesOn hcall
  | connectEstablished _ hnew => exact hstage.connectEstablished hnew
  | notifyConnected hpc => exact hstage.notifyConnected hpc
  | runClose idle hcloses => exact hstage.startClose idle (.inl hcloses) rfl rfl rfl rfl rfl
  | fireTimer idle htimers => exact hstage.startClose idle (.inr htimers) rfl rfl rfl rfl rfl
  | handleError idle _ => exact hstage.handleError idle
  | message idle hborn _ => exact hstage.message idle hborn
  | launched hpc hopen => exact hstage.launched hpc hopen
  | forced hpc => exact hstage.forced hpc
  | reset hpc hnot => exact hstage.reset hpc hnot
  | closeAgain hpc hstatus => exact hstage.closeAgain hpc hstatus
  | notifyDisconnecting hpc => exact hstage.notifyDisconnecting hpc
  | notifyClosed hpc => exact hstage.notifyClosed hpc
  | finish hpc => exact hstage.finish hpc
  | destroy => exact hstage.frame rfl rfl rfl rfl rfl fun _ _ => ⟨rfl, rfl, rfl⟩

end Invariant

/-! ## Runs -/

section Reads

variable {n : Nat} {build : Build} {w w' : World n} {m m' : Mem} {a : Action n} {c : Fin n}

theorem startSend_reads {raw socket : Bool} {out : Buffer} {f : Flow} :
    (startSend raw socket out f).wlp build m fun r _ => r.2.reads = f.reads := by
  simp only [startSend, Prog.wlp_bind, Prog.wlp_pure]
  intro r m' _
  unfold asyncSend
  cases r.1 with
  | none => exact Prog.wlp_throw _ _ _ _
  | some p =>
    cases socket with
    | true => exact (Prog.wlp_pure ..).mpr rfl
    | false => exact Prog.wlp_throw _ _ _ _

theorem sendInLoop_reads {socket : Bool} {out : Buffer} {f : Flow} {task : SendTask} :
    (sendInLoop socket out f task).wlp build m fun r _ => r.2.reads = f.reads := by
  simp only [sendInLoop, Prog.wlp_bind]
  intro b m' _
  split
  · exact (Prog.wlp_pure ..).mpr rfl
  · exact startSend_reads

theorem setFlow_reads {f : Flow} (h : f.reads = (w.flow c).reads) (d : Fin n) :
    ((w.setFlow c f).flow d).reads = (w.flow d).reads := by
  by_cases hd : d = c
  · subst hd
    simpa [World.setFlow] using h
  · simp [World.setFlow, Function.update_of_ne hd]

theorem runSendTask_reads {task : SendTask} :
    (w.runSendTask c task).wlp build m fun w' _ => ∀ d, (w'.flow d).reads = (w.flow d).reads := by
  simp only [World.runSendTask, Prog.wlp_bind, Prog.wlp_pure]
  exact sendInLoop_reads.imp fun r _ h => setFlow_reads h

theorem submit_reads {queue : Buffer} {inLoop : Bool} :
    (w.submit c queue inLoop).wlp build m fun w' _ => ∀ d, (w'.flow d).reads = (w.flow d).reads := by
  simp only [World.submit, Prog.wlp_bind]
  intro r m' _
  have hposted := setFlow_reads (w := w) (c := c)
    (f := { w.flow c with sends := (w.flow c).sends ++ [⟨queue, r.1, r.2⟩] }) rfl
  cases inLoop with
  | false => exact (Prog.wlp_pure ..).mpr hposted
  | true => exact runSendTask_reads.imp fun w' _ h d => (h d).trans (hposted d)

theorem launchWrite_reads {socket : Bool} {out : Buffer} {f : Flow} :
    (launchWrite socket out f).wlp build m fun r _ => r.2.reads = f.reads := by
  unfold launchWrite
  split
  · exact startSend_reads
  · exact (Prog.wlp_pure ..).mpr rfl

theorem handleWrite_reads {out : Buffer} {f : Flow} {l : Life} {op : WriteOp} :
    (handleWrite out f l op).wlp build m fun r _ => r.2.1.reads = f.reads := by
  unfold TCPConn.handleWrite
  split
  · rw [Prog.wlp_bind]
    intro _ m' _
    split
    · simp only [Prog.wlp_bind, Prog.wlp_pure]
      exact launchWrite_reads.imp fun r _ h => h
    · exact (Prog.wlp_pure ..).mpr rfl
    · exact (Prog.wlp_pure ..).mpr rfl
  · exact Prog.wlp_throw _ _ _ _

theorem handleRead_reads {inp : Buffer} {f : Flow} {l : Life} {op : ReadOp} :
    (handleRead inp f l op).wlp build m fun r _ => r.2.1.reads = f.reads.erase op := by
  unfold TCPConn.handleRead
  simp only
  split
  · simp only [Prog.wlp_bind, Prog.wlp_pure]
    exact fun _ _ _ _ _ _ => trivial
  · simp only [Prog.wlp_bind, Prog.wlp_pure]
    exact fun _ _ _ => trivial
  · simp only [Prog.wlp_bind, Prog.wlp_pure]
    exact fun _ _ _ => trivial

theorem exec_reads_same (done : w.exec a build m = .ok (w', m'))
    (hdone : ∀ op result, a ≠ .readDone c op result) (hhandle : ∀ op, a ≠ .handleRead c op)
    (hresume : a ≠ .resume c) : (w'.flow c).reads = (w.flow c).reads := by
  have hwlp : (w.exec a).wlp build m fun w' _ => (w'.flow c).reads = (w.flow c).reads := by
    cases a with
    | buffer op =>
      simp only [World.exec, Prog.wlp_bind, Prog.wlp_pure]
      exact fun _ _ _ => trivial
    | sendData d x inLoop =>
      simp only [World.exec, World.sendData]
      split
      · exact (Prog.wlp_pure ..).mpr rfl
      · rw [Prog.wlp_bind]
        exact fun _ _ _ => submit_reads.imp fun w' _ h => h c
    | sendBuffer d i inLoop =>
      simp only [World.exec, World.sendBuffer]
      split
      · exact (Prog.wlp_pure ..).mpr rfl
      · exact submit_reads.imp fun w' _ h => h c
    | close d => exact (Prog.wlp_pure ..).mpr rfl
    | closeWithDelay d => exact (Prog.wlp_pure ..).mpr rfl
    | closeGoesOn d call => exact (Prog.wlp_pure ..).mpr rfl
    | readDone d op result =>
      refine (Prog.wlp_pure ..).mpr ?_
      have hd : c ≠ d := fun e => hdone op result (by rw [e])
      simp [World.setFlow, Function.update_of_ne hd]
    | writeDone d op result =>
      intro w' m' h
      cases h
      refine setFlow_reads ?_ c
      cases result <;> rfl
    | connectEstablished d => exact (Prog.wlp_pure ..).mpr rfl
    | runSend d task => exact runSendTask_reads.imp fun w' _ h => h c
    | runClose d => exact (Prog.wlp_pure ..).mpr rfl
    | fireTimer d => exact (Prog.wlp_pure ..).mpr rfl
    | handleRead d op =>
      simp only [World.exec, Prog.wlp_bind, Prog.wlp_pure]
      have hd : c ≠ d := fun e => hhandle op (by rw [e])
      intro r m' _
      simp [World.setLife, World.setFlow, World.setBuf, Function.update_of_ne hd]
    | handleWrite d op =>
      simp only [World.exec, Prog.wlp_bind, Prog.wlp_pure]
      exact handleWrite_reads.imp fun r _ h => setFlow_reads (w := w.setBuf _ _) h c
    | resume d =>
      simp only [World.exec, Prog.wlp_bind, Prog.wlp_pure]
      have hd : c ≠ d := fun e => hresume (by rw [e])
      intro r m' _
      simp [World.setLife, World.setFlow, Function.update_of_ne hd]
    | destroy d =>
      simp only [World.exec, World.destroy, Prog.wlp_bind, Prog.wlp_pure]
      exact fun _ _ _ _ _ _ _ _ _ _ _ _ => rfl
  exact hwlp w' m' done

theorem exec_reads (enabled : w.Enabled m a) (done : w.exec a build m = .ok (w', m'))
    (hidle : (w.life c).pc = .idle) (hnil : (w.flow c).reads = []) : (w'.flow c).reads = [] := by
  refine (exec_reads_same done ?_ ?_ ?_).trans hnil
  · rintro op result rfl
    have hmem := enabled.1
    rw [hnil] at hmem
    cases hmem
  · rintro op rfl
    have hmem := enabled.1
    rw [hnil] at hmem
    cases hmem
  · rintro rfl
    exact enabled hidle

end Reads

section Runs

variable {n : Nat} {build : Build} {P : World n → Mem → Action n → Prop} {C M E : Life → Prop}
  {w w' : World n} {m m' : Mem} {a : Action n}

theorem LifeStep.established {l l' : Life} (h : LifeStep C M E l l') (hl : l'.established = false) :
    l.established = false := by
  cases h with
  | close call _ =>
    unfold compareExchange at hl
    split at hl <;> exact hl
  | closeGoesOn call _ => cases call <;> exact hl
  | connectEstablished _ hnew => exact hnew
  | handleError _ _ =>
    unfold TCPConn.handleError at hl
    split at hl <;> exact hl
  | _ => exact hl

theorem Stage.idle_of_unborn {l : Life} (h : Stage l) (hl : l.established = false) : l.pc = .idle := by
  cases h with
  | unborn _ _ _ hidle => exact hidle
  | connecting hestablished => rw [hl] at hestablished; cases hestablished
  | opened first ms hestablished => rw [hl] at hestablished; cases hestablished
  | between first ms hestablished => rw [hl] at hestablished; cases hestablished
  | ended first ms late hestablished => rw [hl] at hestablished; cases hestablished

theorem exec_unborn (h : w.Born) (enabled : w.Enabled m a)
    (done : w.exec a build m = .ok (w', m')) (hnew : (w'.life c).established = false) :
    (w.life c).established = false := by
  cases exec_lifeStep h enabled done c with
  | inl hsame => rw [← hsame]; exact hnew
  | inr hstep => exact hstep.established hnew

theorem World.Born.step (h : w.Born) (idle : ∀ c, (w.life c).established = false → (w.life c).pc = .idle)
    (enabled : w.Enabled m a) (done : w.exec a build m = .ok (w', m')) : w'.Born := by
  intro c hnew
  have hold := exec_unborn h enabled done hnew
  exact exec_reads enabled done (idle c hold) (h c hold)

theorem RunOf.stage (h : RunOf build P w m) : (∀ c, Stage (w.life c)) ∧ w.Born := by
  induction h with
  | start cell =>
    exact ⟨fun c => .unborn rfl rfl rfl rfl rfl ⟨rfl, rfl, rfl⟩, fun c _ => rfl⟩
  | @step w w' m m' a _ enabled _ done ih =>
    obtain ⟨hstage, hborn⟩ := ih
    refine ⟨fun c => ?_, hborn.step (fun c => (hstage c).idle_of_unborn) enabled done⟩
    cases exec_lifeStep hborn enabled done c with
    | inl hsame => rw [hsame]; exact hstage c
    | inr hstep => exact hstep.stage (hstage c)

theorem RunOf.lifeStep (h : RunOf build P w m) (enabled : w.Enabled m a)
    (done : w.exec a build m = .ok (w', m')) (c : Fin n) :
    w'.life c = w.life c ∨
      LifeStep (fun _ => True) (fun _ => True) (fun _ => True) (w.life c) (w'.life c) :=
  exec_lifeStep h.stage.2 enabled done c

/-! ## Notifications -/

/-- `connectEstablished` comes first: nobody closes a connection before it has been
    announced. -/
def World.EstablishedFirst (w : World n) (_ : Mem) : Action n → Prop
  | .close c | .closeWithDelay c => (w.life c).pc ≠ .connecting
  | _ => True

/-- What `connection_cb_` sees, or will see, in `connectEstablished`. -/
structure SeesConnected (l : Life) : Prop where
  before : l.pc = .connecting → l.status = .kConnected
  first : ∀ x, l.log.head? = some x → x = .connection .kConnected

theorem Stage.log_ne_nil {l : Life} (h : Stage l) (hpc : l.pc ≠ .connecting)
    (hborn : l.established = true ∨ l.pc ≠ .idle) : l.log ≠ [] := by
  cases h with
  | unborn hestablished _ _ hidle => simp [hestablished, hidle] at hborn
  | connecting _ _ _ hconnecting => exact absurd hconnecting hpc
  | opened first ms _ _ hlog => simp [hlog]
  | between first ms _ _ hlog => simp [hlog]
  | ended first ms late _ _ _ hlog => simp [hlog]

theorem SeesConnected.append {l l' : Life} {more : List ConnCallback} (h : SeesConnected l)
    (hne : l.log ≠ []) (log : l'.log = l.log ++ more) (pc : l'.pc ≠ .connecting) : SeesConnected l' := by
  refine ⟨fun hpc => absurd hpc pc, fun x hx => h.first x ?_⟩
  rwa [log, List.head?_append_of_ne_nil _ hne] at hx

theorem LifeStep.seesConnected {l l' : Life} (h : LifeStep (fun l => l.pc ≠ .connecting) M E l l')
    (hstage : Stage l) (hl : SeesConnected l) : SeesConnected l' := by
  cases h with
  | close call hpc =>
    unfold compareExchange
    split
    · exact ⟨fun h => absurd h hpc, hl.first⟩
    · exact hl
  | closeGoesOn call _ => cases call <;> exact ⟨hl.before, hl.first⟩
  | connectEstablished _ _ => exact ⟨fun _ => rfl, hl.first⟩
  | notifyConnected hpc =>
    refine ⟨(fun h => by cases h), fun x hx => ?_⟩
    have hstatus := hl.before hpc
    cases hlog : l.log with
    | nil =>
      have hnew : (TCPConn.notifyConnected l).log = [.connection .kConnected] := by
        simp [TCPConn.notifyConnected, hlog, hstatus]
      rw [hnew] at hx
      exact (Option.some.inj hx).symm
    | cons y log =>
      have hnew : (TCPConn.notifyConnected l).log.head? = some y := by
        simp [TCPConn.notifyConnected, hlog]
      rw [hnew] at hx
      exact hl.first x (by rw [hlog]; exact hx)
  | handleError idle _ =>
    unfold TCPConn.handleError
    split
    · exact ⟨(fun h => by cases h), hl.first⟩
    · exact hl
  | message idle hestablished _ =>
    exact hl.append (hstage.log_ne_nil (by simp [idle]) (.inl hestablished)) rfl (by simp)
  | notifyDisconnecting hpc =>
    exact hl.append (hstage.log_ne_nil (by simp [hpc]) (.inr (by simp [hpc]))) rfl
      (by simp [TCPConn.notifyDisconnecting])
  | notifyClosed hpc =>
    exact hl.append (hstage.log_ne_nil (by simp [hpc]) (.inr (by simp [hpc]))) rfl
      (by simp [TCPConn.notifyClosed])
  | destroy => exact ⟨hl.before, hl.first⟩
  | _ => exact ⟨(fun h => by cases h), hl.first⟩

/-- The notifications a connection has delivered. -/
structure Notified (l : Life) : Prop where
  before : l.established = false ∨ l.pc = .connecting → l.log = []
  connected : l.established = true → l.pc ≠ .connecting →
    l.log.count (.connection .kConnected) = 1
  disconnecting : l.log.count (.connection .kDisconnecting) ≤ 1
  noOther : .connection .kDisconnected ∉ l.log
  /-- `close_cb_` is called right after the disconnect notification, and only there. -/
  closeAfter : ∀ pre post, l.log = pre ++ .close :: post →
    ∃ pre', pre = pre' ++ [.connection .kDisconnecting]
  closeFollows : ∀ pre post, l.log = pre ++ .connection .kDisconnecting :: post →
    post = [] ∧ l.pc = .notified ∨ ∃ post', post = .close :: post'
  closeOnce : l.log.count .close ≤ 1
  disconnected : l.established = true → l.status = .kDisconnected →
    l.log.count (.connection .kDisconnecting) = 1 ∧ l.log.count .close = 1

/-- The moves of `status_`; it becomes `kConnected` when the connection is
    established. -/
inductive StatusMove (l l' : Life) : Prop
  | stay (h : l'.status = l.status)
  | connect (h : l.status = .kDisconnected) (h' : l'.status = .kConnected)
      (first : l.established = false) (now : l'.established = true)
  | disconnect (h : l.status = .kConnected) (h' : l'.status = .kDisconnecting)
  | finish (h : l.status = .kDisconnecting) (h' : l'.status = .kDisconnected)

theorem LifeStep.status {l l' : Life} (h : LifeStep C M E l l') (hstage : Stage l) : StatusMove l l' := by
  cases h with
  | close call _ =>
    unfold compareExchange
    split
    · rename_i hconnected
      exact .disconnect hconnected rfl
    · exact .stay rfl
  | closeGoesOn call _ => cases call <;> exact .stay rfl
  | connectEstablished _ hnew =>
    cases hstage with
    | unborn _ _ hstatus => exact .connect hstatus rfl hnew rfl
    | connecting hestablished => rw [hnew] at hestablished; cases hestablished
    | opened first ms hestablished => rw [hnew] at hestablished; cases hestablished
    | between first ms hestablished => rw [hnew] at hestablished; cases hestablished
    | ended first ms late hestablished => rw [hnew] at hestablished; cases hestablished
  | handleError _ _ =>
    unfold TCPConn.handleError
    split <;> exact .stay rfl
  | forced hpc =>
    cases hstage with
    | unborn _ _ _ hidle => rw [hpc] at hidle; cases hidle
    | connecting _ _ _ hconnecting => rw [hpc] at hconnecting; cases hconnecting
    | opened first ms _ _ _ hstatus =>
      cases hs : l.status with
      | kConnected => exact .disconnect hs rfl
      | kDisconnecting => exact .stay hs.symm
      | kDisconnected => exact absurd hs hstatus
    | between first ms _ _ _ _ hnotified _ => rw [hpc] at hnotified; cases hnotified
    | ended first ms late _ _ _ _ hstatus _ => simp [hpc] at hstatus
  | notifyDisconnecting hpc =>
    cases hstage with
    | unborn _ _ _ hidle => rw [hpc] at hidle; cases hidle
    | connecting _ _ _ hconnecting => rw [hpc] at hconnecting; cases hconnecting
    | opened first ms _ _ _ _ _ _ hclosing => exact .stay (hclosing (.inr hpc)).symm
    | between first ms _ _ _ _ hnotified _ => rw [hpc] at hnotified; cases hnotified
    | ended first ms late _ _ _ _ hstatus _ => simp [hpc] at hstatus
  | finish hpc =>
    cases hstage with
    | unborn _ _ _ hidle => rw [hpc] at hidle; cases hidle
    | connecting _ _ _ hconnecting => rw [hpc] at hconnecting; cases hconnecting
    | opened first ms _ _ _ _ hnot => exact absurd hpc hnot.2.2
    | between first ms _ _ _ _ hnotified _ => rw [hpc] at hnotified; cases hnotified
    | ended first ms late _ _ _ _ hstatus _ =>
      cases hstatus with
      | inl hclosed => exact .finish hclosed.2 rfl
      | inr hidle => simp [hpc] at hidle
  | _ => exact .stay rfl

theorem OnlyMessages.notMem {log : List ConnCallback} {x : ConnCallback} (h : OnlyMessages log)
    (hx : x ≠ .message) : x ∉ log := fun hmem => hx (h x hmem)

theorem OnlyMessages.count {log : List ConnCallback} {x : ConnCallback} (h : OnlyMessages log)
    (hx : x ≠ .message) : log.count x = 0 := List.count_eq_zero.mpr (h.notMem hx)

theorem split_unique {pre post pre' post' : List ConnCallback} {x : ConnCallback} (hpre : x ∉ pre)
    (hpost : x ∉ post) (heq : pre ++ x :: post = pre' ++ x :: post') : pre = pre' ∧ post = post' := by
  obtain ⟨hleft, _, hright⟩ := (List.append_cons_inj_of_notMem hpre hpost).mp heq
  exact ⟨hleft, hright⟩

theorem notified_of_notMem {l : Life} (hbefore : l.established = false ∨ l.pc = .connecting → l.log = [])
    (hconnected : l.established = true → l.pc ≠ .connecting →
      l.log.count (.connection .kConnected) = 1)
    (hkD : .connection .kDisconnecting ∉ l.log) (hnoOther : .connection .kDisconnected ∉ l.log)
    (hclose : .close ∉ l.log) (hstatus : l.established = true → l.status ≠ .kDisconnected) :
    Notified l where
  before := hbefore
  connected := hconnected
  disconnecting := le_of_eq_of_le (List.count_eq_zero.mpr hkD) (by decide)
  noOther := hnoOther
  closeAfter := fun pre post heq => absurd (by simp [heq]) hclose
  closeFollows := fun pre post heq => absurd (by simp [heq]) hkD
  closeOnce := le_of_eq_of_le (List.count_eq_zero.mpr hclose) (by decide)
  disconnected := fun hestablished hover => absurd hover (hstatus hestablished)

theorem Stage.notified {l : Life} (h : Stage l) (hsees : SeesConnected l) : Notified l := by
  cases h with
  | unborn hestablished hlog hstatus =>
    refine notified_of_notMem (fun _ => hlog) (fun h => ?_) (by simp [hlog]) (by simp [hlog])
      (by simp [hlog]) fun h => ?_
    · rw [hestablished] at h; cases h
    · rw [hestablished] at h; cases h
  | connecting hestablished hlog hstatus hpc =>
    exact notified_of_notMem (fun _ => hlog) (fun _ h => absurd hpc h) (by simp [hlog])
      (by simp [hlog]) (by simp [hlog]) fun _ => hstatus
  | opened first ms hestablished hms hlog hstatus hpc =>
    obtain rfl : first = .kConnected := by simpa [hlog] using hsees.first
    refine notified_of_notMem ?_ ?_ ?_ ?_ ?_ fun _ => hstatus
    · simp [hestablished, hpc.1]
    · simp [hlog, hms.count (x := .connection .kConnected) (by decide)]
    · simp [hlog, hms.notMem (x := .connection .kDisconnecting) (by decide)]
    · simp [hlog, hms.notMem (x := .connection .kDisconnected) (by decide)]
    · simp [hlog, hms.notMem (x := .close) (by decide)]
  | between first ms hestablished hms hlog hstatus hpc =>
    obtain rfl : first = .kConnected := by simpa [hlog] using hsees.first
    have hkC : ms.count (.connection .kConnected) = 0 := hms.count (by decide)
    have hkD : ms.count (.connection .kDisconnecting) = 0 := hms.count (by decide)
    have hclose : .close ∉ l.log := by simp [hlog, hms.notMem (x := .close) (by decide)]
    refine ⟨by simp [hestablished, hpc], fun _ _ => by simp [hlog, hkC], by simp [hlog, hkD], ?_, ?_,
      ?_, ?_, ?_⟩
    · simp [hlog, hms.notMem (x := .connection .kDisconnected) (by decide)]
    · exact fun pre post heq => absurd (by simp [heq]) hclose
    · intro pre post heq
      have hsplit : (.connection .kConnected :: ms) ++ .connection .kDisconnecting :: [] =
          pre ++ .connection .kDisconnecting :: post := by
        rw [← heq, hlog]
        rfl
      obtain ⟨_, hpost⟩ := split_unique
        (by simp [hms.notMem (x := .connection .kDisconnecting) (by decide)]) (by simp) hsplit
      exact .inl ⟨hpost.symm, hpc⟩
    · exact le_of_eq_of_le (List.count_eq_zero.mpr hclose) (by decide)
    · intro _ hover
      rw [hstatus] at hover
      cases hover
  | ended first ms late hestablished hms hlate hlog hstatus =>
    obtain rfl : first = .kConnected := by simpa [hlog] using hsees.first
    have hcounts : ∀ x, x ≠ .message → ms.count x = 0 ∧ late.count x = 0 := fun x hx =>
      ⟨hms.count hx, hlate.count hx⟩
    have hkC := hcounts (.connection .kConnected) (by decide)
    have hkD := hcounts (.connection .kDisconnecting) (by decide)
    have hclose := hcounts .close (by decide)
    have hpc : l.pc ≠ .connecting := by
      intro hpc
      simp [hpc] at hstatus
    refine ⟨by simp [hestablished, hpc], fun _ _ => by simp [hlog, hkC], by simp [hlog, hkD], ?_, ?_,
      ?_, by simp [hlog, hclose], fun _ _ => by simp [hlog, hkD, hclose]⟩
    · simp [hlog, hms.notMem (x := .connection .kDisconnected) (by decide),
        hlate.notMem (x := .connection .kDisconnected) (by decide)]
    · intro pre post heq
      have hsplit : (.connection .kConnected :: ms ++ [.connection .kDisconnecting]) ++ .close :: late =
          pre ++ .close :: post := by
        rw [← heq, hlog]
        simp
      obtain ⟨hpre, _⟩ := split_unique (by simp [hms.notMem (x := .close) (by decide)])
        (hlate.notMem (by decide)) hsplit
      exact ⟨_, hpre.symm⟩
    · intro pre post heq
      have hsplit : (.connection .kConnected :: ms) ++ .connection .kDisconnecting :: (.close :: late) =
          pre ++ .connection .kDisconnecting :: post := by
        rw [← heq, hlog]
        simp
      obtain ⟨_, hpost⟩ := split_unique
        (by simp [hms.notMem (x := .connection .kDisconnecting) (by decide)])
        (by simp [hlate.notMem (x := .connection .kDisconnecting) (by decide)]) hsplit
      exact .inr ⟨late, hpost.symm⟩

theorem RunOf.seesConnected (h : RunOf build World.EstablishedFirst w m) (c : Fin n) :
    SeesConnected (w.life c) := by
  induction h with
  | start cell => exact ⟨(fun h => by cases h), (fun x h => by cases h)⟩
  | @step w w' m m' a before enabled condition done ih =>
    obtain ⟨hstage, hborn⟩ := before.stage
    have hmoves : LifeMoves (fun l => l.pc ≠ .connecting) (fun _ => True) (fun _ => True) w w' := by
      refine exec_life (fun d hd => ?_) (fun _ _ _ _ _ => trivial) (fun _ _ => trivial) hborn enabled done
      cases hd with
      | inl hclose => subst hclose; exact condition
      | inr hdelay => subst hdelay; exact condition
    cases hmoves c with
    | inl hsame => rw [hsame]; exact ih
    | inr hstep => exact hstep.seesConnected (hstage c) ih

/-- In every run in which `connectEstablished` comes first, for every connection:
    the notifications are delivered as they should, and every further step moves
    `status_` forward and leaves an established connection established. -/
theorem notifications_once (h : RunOf build World.EstablishedFirst w m) (c : Fin n) :
    Notified (w.life c) ∧ ∀ a w' m', w.Enabled m a → w.exec a build m = .ok (w', m') →
      StatusMove (w.life c) (w'.life c) ∧
      ((w.life c).established = true → (w'.life c).established = true) := by
  obtain ⟨hstage, hborn⟩ := h.stage
  refine ⟨(hstage c).notified (h.seesConnected c), fun a w' m' enabled done => ?_⟩
  constructor
  · cases h.lifeStep enabled done c with
    | inl hsame => exact .stay (by rw [hsame])
    | inr hstep => exact hstep.status (hstage c)
  · intro hold
    by_contra hnew
    have hunborn := exec_unborn hborn enabled done (by simpa using hnew)
    rw [hold] at hunborn
    cases hunborn

/-- The life of a connection that is closed as usual. -/
theorem notifications_once_closed :
    ∃ (w : World 1) (m : Mem), RunOf .release World.EstablishedFirst w m ∧
      (w.life 0).established = true ∧ (w.life 0).status = .kDisconnected ∧
      Notified (w.life 0) := by
  have r : RunOf .release World.EstablishedFirst ({} : World 1) emptyMem := .start _
  have r := r.step (.connectEstablished 0) ⟨rfl, rfl, rfl⟩ trivial rfl
  have r := r.step (.resume 0) (by intro h; cases h) trivial rfl
  have r := r.step (.resume 0) (by intro h; cases h) trivial rfl
  have r := r.step (.close 0) ⟨rfl, by decide⟩ (by intro h; cases h) rfl
  have r := r.step (.closeGoesOn 0 .queueing) (.head _) trivial rfl
  have r := r.step (.runClose 0) ⟨by decide, rfl⟩ trivial rfl
  have r := r.step (.resume 0) (by intro h; cases h) trivial rfl
  have r := r.step (.resume 0) (by intro h; cases h) trivial rfl
  have r := r.step (.resume 0) (by intro h; cases h) trivial rfl
  have r := r.step (.resume 0) (by intro h; cases h) trivial rfl
  exact ⟨_, _, r, rfl, rfl, (notifications_once r 0).1⟩

end Runs

end Netpp
