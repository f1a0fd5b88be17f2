import Netpp.Server.Tracking

/-! # Stopping a server

`stopInLoop` closes the acceptor and asks every connection it finds connected to
close; `stopInloopSafe`, which stops the pool and calls back, is queued by
`stopInLoop` if there is no connection and by the removal of the last one otherwise.

* `StopPhase`: the invariant.  A server serves, waits for its connections, has
  queued `stopInloopSafe`, is inside it, or has stopped.
* `stopped_callback_safe`: `stopInloopSafe` runs once, when there is nothing left.
-/

namespace Netpp

open Function (update)
open ServerStatus Prog

/-- The base loop thread is in `newConnection`, and `doAccept` follows. -/
def BasePc.isAccepting {n : Nat} : BasePc n → Bool
  | verifying _ | establishing _ | accepting => true
  | _ => false

namespace TCPServer

variable {n threadNum : Nat} {build : Build} {m m' : Mem} {s s' : TCPServer n} {a : ServerAction n}
  {P : List (ServerAction n) → TCPServer n → Mem → ServerAction n → Prop}
  {as : List (ServerAction n)}

/-! ## The invariant -/

/-- How far a server has come in stopping.  Once the acceptor is closed, a server that
    `isAccepting` is about to dereference it. -/
inductive StopPhase (s : TCPServer n) : Prop
  | serving (running : s.status = .kNull ∧ s.starts = 0 ∨ s.status = .kStarting ∧ s.starts = 1 ∨
        s.status = .kRunning ∧ s.starts = 0)
      (acceptor : s.acceptor = true ↔ s.status = .kRunning) (safes : s.safes = [])
      (finished : s.finished = []) (pass : s.pass = none) (pc : s.pc ≠ .stopped)
      (pool : s.pool ≠ none)
  | waiting (status : s.status = .kStopping) (starts : s.starts = 0)
      (substatus : s.substatus = .kStoppingListener) (acceptor : s.acceptor = false)
      (safes : s.safes = []) (finished : s.finished = []) (connections : s.connections ≠ [])
      (pc : s.pc ≠ .stopped) (pool : s.pool ≠ none)
  | queued (cb : DoneCallback) (status : s.status = .kStopping) (starts : s.starts = 0)
      (substatus : s.substatus = .kStoppingListener) (acceptor : s.acceptor = false)
      (safes : s.safes = [cb]) (finished : s.finished = []) (pass : s.pass = none)
      (connections : s.connections = [] ∨ s.pc.isAccepting = true) (pc : s.pc ≠ .stopped)
      (pool : s.pool ≠ none)
  | calling (cb : DoneCallback) (pool : EventLoopThreadPool) (status : s.status = .kStopping)
      (starts : s.starts = 0) (acceptor : s.acceptor = false) (safes : s.safes = [])
      (finished : s.finished = [cb]) (pass : s.pass = none) (connections : s.connections = [])
      (pc : s.pc = .stopped) (retired : s.retired = some pool.stop.join)
  | stopped (cb : DoneCallback) (status : s.status = .kStopped) (starts : s.starts = 0)
      (acceptor : s.acceptor = false) (safes : s.safes = []) (finished : s.finished = [cb])
      (pass : s.pass = none) (connections : s.connections = [] ∨ s.pc.isAccepting = true)
      (pc : s.pc ≠ .stopped)

/-- `connectEstablished` inside `newConnection` does not close the connection. -/
def Establishing (s : TCPServer n) : Prop :=
  ∀ c, s.pc = .establishing c → s.loopOf c = 0 ∧ (s.world.life c).pc.Announcing

@[simp] theorem afterConn_pc (s : TCPServer n) (b : Action n) (w : World n) :
    (s.afterConn b w).pc = s.pc ∧ (s.afterConn b w).loopOf = s.loopOf := by
  unfold afterConn
  cases b with
  | resume c =>
    dsimp only
    split
    · unfold removeConnection removeInLoop
      dsimp only
      split
      · split <;> exact ⟨rfl, rfl⟩
      · exact ⟨rfl, rfl⟩
    · exact ⟨rfl, rfl⟩
  | _ => exact ⟨rfl, rfl⟩

theorem Establishing.step (h : Establishing s)
    (hstep : ServerStep build m s a s' m') : Establishing s' := by
  cases hstep with
  | stopHere cb _ _ =>
    unfold stopping
    dsimp only
    split <;> exact h
  | stopInLoop cb _ _ =>
    unfold stopping
    dsimp only
    split <;> exact h
  | closed c rest cb w _ hpass _ done =>
    intro d hd
    obtain ⟨hloop, hpc⟩ := h d hd
    have hsame : (w.life d).pc = (s.world.life d).pc :=
      exec_pc done (by intro ha; cases ha) (by intro ha; cases ha)
    exact ⟨hloop, by show (w.life d).pc.Announcing; rw [hsame]; exact hpc⟩
  | newConnection op throws _ _ _ _ =>
    unfold TCPServer.newConnection
    dsimp only
    split
    · intro d hd; cases hd
    · intro d hd; cases hd
    · exact h
  | rejected ok loop _ _ _ => intro d hd; cases hd
  | inserted c loop _ _ _ _ => intro d hd; cases hd
  | established c loop w _ _ _ hnext hbase done =>
    intro d hd
    cases hd
    cases done
    refine ⟨?_, .inr (.inl ?_)⟩
    · show update s.loopOf c loop c = 0
      rw [Function.update_self]
      exact hbase
    · show (update s.world.life c _ c).pc = _
      rw [Function.update_self]
      rfl
  | doAccept pool _ _ _ => intro d hd; cases hd
  | runRemove c _ _ =>
    unfold removeInLoop
    dsimp only
    split <;> exact h
  | stopInloopSafe cb pool _ _ _ => intro d hd; cases hd
  | finishStop _ => intro d hd; cases hd
  | conn b w _ enabled _ _ idle done =>
    intro d hd
    rw [(afterConn_pc s b w).1] at hd
    obtain ⟨hloop, hpc⟩ := h d hd
    rw [(afterConn_pc s b w).2, afterConn_world]
    refine ⟨hloop, exec_announcing enabled done hpc fun hb => ?_⟩
    have hidle := ((idle d hb).1 hloop).1
    rw [hd] at hidle
    cases hidle
  | _ => exact h

/-- The phase depends on what the base loop thread and `stop` work on. -/
theorem StopPhase.same (h : StopPhase s) (status : s'.status = s.status) (starts : s'.starts = s.starts)
    (substatus : s'.substatus = s.substatus) (acceptor : s'.acceptor = s.acceptor)
    (safes : s'.safes = s.safes) (finished : s'.finished = s.finished) (pass : s'.pass = s.pass)
    (pc : s'.pc = s.pc) (pool : s'.pool = none ↔ s.pool = none)
    (connections : s'.connections = s.connections) (retired : s'.retired = s.retired) :
    StopPhase s' := by
  cases h with
  | serving hrunning hacceptor hsafes hfinished hpass hpc hpool =>
    refine .serving ?_ ?_ (safes.trans hsafes) (finished.trans hfinished) (pass.trans hpass) (pc ▸ hpc)
      (fun hnone => hpool (pool.mp hnone))
    · rw [status, starts]; exact hrunning
    · rw [acceptor, status]; exact hacceptor
  | waiting hstatus hstarts hsub hacceptor hsafes hfinished hconnections hpc hpool =>
    exact .waiting (status.trans hstatus) (starts.trans hstarts) (substatus.trans hsub)
      (acceptor.trans hacceptor) (safes.trans hsafes) (finished.trans hfinished)
      (connections ▸ hconnections) (pc ▸ hpc) fun hnone => hpool (pool.mp hnone)
  | queued cb hstatus hstarts hsub hacceptor hsafes hfinished hpass hconnections hpc hpool =>
    refine .queued cb (status.trans hstatus) (starts.trans hstarts) (substatus.trans hsub)
      (acceptor.trans hacceptor) (safes.trans hsafes) (finished.trans hfinished) (pass.trans hpass) ?_
      (pc ▸ hpc) fun hnone => hpool (pool.mp hnone)
    rw [connections, pc]
    exact hconnections
  | calling cb old hstatus hstarts hacceptor hsafes hfinished hpass hconnections hpc hretired =>
    exact .calling cb old (status.trans hstatus) (starts.trans hstarts) (acceptor.trans hacceptor)
      (safes.trans hsafes) (finished.trans hfinished) (pass.trans hpass)
      (connections.trans hconnections) (pc.trans hpc) (retired.trans hretired)
  | stopped cb hstatus hstarts hacceptor hsafes hfinished hpass hconnections hpc =>
    refine .stopped cb (status.trans hstatus) (starts.trans hstarts) (acceptor.trans hacceptor)
      (safes.trans hsafes) (finished.trans hfinished) (pass.trans hpass) ?_ (pc ▸ hpc)
    rw [connections, pc]
    exact hconnections

/-- The removal of a connection: the last one queues `stopInloopSafe`. -/
theorem StopPhase.removeInLoop (h : StopPhase s) {c : Fin n} (hin : c ∈ s.connections)
    (hpass : s.pass = none) (hpc : s.pc = .idle) : StopPhase (s.removeInLoop c) := by
  have hnonempty : s.connections ≠ [] := List.ne_nil_of_mem hin
  have hidle : ¬ (s.connections = [] ∨ s.pc.isAccepting = true) := by
    rw [hpc]
    exact not_or.mpr ⟨hnonempty, by intro hfalse; cases hfalse⟩
  unfold TCPServer.removeInLoop
  dsimp only
  cases h with
  | serving hrunning hacceptor hsafes hfinished _ hnot hpool =>
    have hstatus : s.status ≠ .kStopping := by
      rcases hrunning with ⟨hstatus, _⟩ | ⟨hstatus, _⟩ | ⟨hstatus, _⟩ <;> rw [hstatus] <;> decide
    rw [if_neg fun hstop => hstatus hstop.1]
    exact .serving hrunning hacceptor hsafes hfinished hpass hnot hpool
  | waiting hstatus hstarts hsub hacceptor hsafes hfinished hconnections hnot hpool =>
    split
    · rename_i hlast
      exact .queued s.stoppedCb hstatus hstarts hsub hacceptor (by simp [hsafes]) hfinished hpass
        (.inl hlast.2) hnot hpool
    · rename_i hlast
      exact .waiting hstatus hstarts hsub hacceptor hsafes hfinished
        (fun hnil => hlast ⟨hstatus, hnil⟩) hnot hpool
  | queued cb _ _ _ _ _ _ _ hconnections => exact absurd hconnections hidle
  | calling cb pool _ _ _ _ _ _ hconnections => exact absurd hconnections hnonempty
  | stopped cb _ _ _ _ _ _ hconnections => exact absurd hconnections hidle

theorem StopPhase.stopping (h : StopPhase s) (hacceptor : s.acceptor = true) (stops : List DoneCallback)
    (cb : DoneCallback) : StopPhase (TCPServer.stopping { s with stops := stops } cb) := by
  cases h with
  | serving hrunning hrunningIff hsafes hfinished hpass hpc hpool =>
    have hstatus := hrunningIff.mp hacceptor
    have hstarts : s.starts = 0 := by
      rcases hrunning with ⟨hother, _⟩ | ⟨hother, _⟩ | ⟨_, hstarts⟩
      · rw [hstatus] at hother; cases hother
      · rw [hstatus] at hother; cases hother
      · exact hstarts
    unfold TCPServer.stopping
    dsimp only
    split
    · rename_i hnil
      exact .queued cb rfl hstarts rfl rfl (by simp [hsafes]) hfinished hpass (.inl hnil) hpc hpool
    · rename_i hsome
      exact .waiting rfl hstarts rfl rfl hsafes hfinished hsome hpc hpool
  | waiting _ _ _ hclosed => exact absurd (hacceptor.symm.trans hclosed) (by decide)
  | queued cb' _ _ _ hclosed => exact absurd (hacceptor.symm.trans hclosed) (by decide)
  | calling cb' pool _ _ hclosed => exact absurd (hacceptor.symm.trans hclosed) (by decide)
  | stopped cb' _ _ hclosed => exact absurd (hacceptor.symm.trans hclosed) (by decide)

theorem StopPhase.accept (h : StopPhase s) (hpc : s.pc ≠ .stopped) (accepting : s'.pc.isAccepting = true)
    (connections : s.connections ≠ [] → s'.connections ≠ []) (status : s'.status = s.status)
    (starts : s'.starts = s.starts) (substatus : s'.substatus = s.substatus)
    (acceptor : s'.acceptor = s.acceptor) (safes : s'.safes = s.safes)
    (finished : s'.finished = s.finished) (pass : s'.pass = s.pass) (pool : s'.pool = s.pool) :
    StopPhase s' := by
  have hpc' : s'.pc ≠ .stopped := fun hstopped => by
    rw [hstopped] at accepting
    cases accepting
  cases h with
  | serving hrunning hacceptor hsafes hfinished hpass _ hpool =>
    refine .serving ?_ ?_ (safes.trans hsafes) (finished.trans hfinished) (pass.trans hpass) hpc'
      (pool ▸ hpool)
    · rw [status, starts]; exact hrunning
    · rw [acceptor, status]; exact hacceptor
  | waiting hstatus hstarts hsub hacceptor hsafes hfinished hconnections _ hpool =>
    exact .waiting (status.trans hstatus) (starts.trans hstarts) (substatus.trans hsub)
      (acceptor.trans hacceptor) (safes.trans hsafes) (finished.trans hfinished)
      (connections hconnections) hpc' (pool ▸ hpool)
  | queued cb hstatus hstarts hsub hacceptor hsafes hfinished hpass _ _ hpool =>
    exact .queued cb (status.trans hstatus) (starts.trans hstarts) (substatus.trans hsub)
      (acceptor.trans hacceptor) (safes.trans hsafes) (finished.trans hfinished) (pass.trans hpass)
      (.inr accepting) hpc' (pool ▸ hpool)
  | calling cb old _ _ _ _ _ _ _ hstopped => exact absurd hstopped hpc
  | stopped cb hstatus hstarts hacceptor hsafes hfinished hpass _ _ =>
    exact .stopped cb (status.trans hstatus) (starts.trans hstarts) (acceptor.trans hacceptor)
      (safes.trans hsafes) (finished.trans hfinished) (pass.trans hpass) (.inr accepting) hpc'

theorem StopPhase.inPass (h : StopPhase s) {pass : List (Fin n) × DoneCallback}
    (hpass : s.pass = some pass) (status : s'.status = s.status) (starts : s'.starts = s.starts)
    (substatus : s'.substatus = s.substatus) (acceptor : s'.acceptor = s.acceptor)
    (safes : s'.safes = s.safes) (finished : s'.finished = s.finished)
    (connections : s'.connections = s.connections) (pc : s'.pc = s.pc) (pool : s'.pool = s.pool) :
    StopPhase s' := by
  cases h with
  | waiting hstatus hstarts hsub hacceptor hsafes hfinished hconnections hpc hpool =>
    exact .waiting (status.trans hstatus) (starts.trans hstarts) (substatus.trans hsub)
      (acceptor.trans hacceptor) (safes.trans hsafes) (finished.trans hfinished)
      (connections ▸ hconnections) (pc ▸ hpc) (pool ▸ hpool)
  | serving _ _ _ _ hnone => rw [hpass] at hnone; cases hnone
  | queued cb _ _ _ _ _ _ hnone => rw [hpass] at hnone; cases hnone
  | calling cb old _ _ _ _ _ hnone => rw [hpass] at hnone; cases hnone
  | stopped cb _ _ _ _ _ hnone => rw [hpass] at hnone; cases hnone

theorem StopPhase.afterConn (h : StopPhase s) (htracked : Tracked s) (hestablishing : Establishing s)
    (hrun : RunOf build (fun _ _ _ => True) s.world m) {b : Action n} {w : World n}
    (allowed : s.ConnAllowed b) (known : ∀ c, b.conn = some c → c.val < s.nextConnId)
    (done : s.world.exec b build m = .ok (w, m')) : StopPhase (s.afterConn b w) := by
  have hsame : StopPhase { s with world := w } :=
    h.same rfl rfl rfl rfl rfl rfl rfl rfl Iff.rfl rfl rfl
  unfold TCPServer.afterConn
  cases b with
  | connectEstablished c => exact h.same rfl rfl rfl rfl rfl rfl rfl rfl Iff.rfl rfl rfl
  | resume c =>
    dsimp only
    split
    · rename_i hpc
      unfold removeConnection
      split
      · rename_i hloop
        obtain ⟨hpass, hbase⟩ := allowed.2 hloop
        have hin : c ∈ s.connections :=
          (htracked.closed c (known c rfl)).mpr (.inl (resume_notified hrun done hpc).1)
        refine hsame.removeInLoop hin hpass ?_
        cases hbase with
        | inl hidle => exact hidle
        | inr hinside =>
          exact absurd hpc (hestablishing c hinside).2.not_notified
      · exact h.same rfl rfl rfl rfl rfl rfl rfl rfl Iff.rfl rfl rfl
    · exact hsame
  | _ => exact hsame

theorem StopPhase.step (h : StopPhase s) (htracked : Tracked s) (hestablishing : Establishing s)
    (hrun : RunOf build (fun _ _ _ => True) s.world m) (hstep : ServerStep build m s a s' m') :
    StopPhase s' := by
  cases hstep with
  | start hnull =>
    cases h with
    | serving hrunning hacceptor hsafes hfinished hpass hpc hpool =>
      have hstarts : s.starts = 0 := by
        rcases hrunning with ⟨_, hstarts⟩ | ⟨hstatus, _⟩ | ⟨hstatus, _⟩
        · exact hstarts
        · rw [hnull] at hstatus; cases hstatus
        · rw [hnull] at hstatus; cases hstatus
      have hclosed : s.acceptor = false := by
        cases hopen : s.acceptor with
        | false => rfl
        | true =>
          have hstatus := hacceptor.mp hopen
          rw [hnull] at hstatus
          cases hstatus
      refine .serving (.inr (.inl ⟨rfl, by simp [hstarts]⟩)) ?_ hsafes hfinished hpass hpc ?_
      · simp [hclosed]
      · simpa using hpool
    | waiting hstatus => rw [hnull] at hstatus; cases hstatus
    | queued cb hstatus => rw [hnull] at hstatus; cases hstatus
    | calling cb pool hstatus => rw [hnull] at hstatus; cases hstatus
    | stopped cb hstatus => rw [hnull] at hstatus; cases hstatus
  | stopHere cb _ hacceptor => exact h.stopping hacceptor s.stops cb
  | stopInLoop cb _ hacceptor => exact h.stopping hacceptor (s.stops.erase cb) cb
  | startInLoop pool hbase hstarts hpool =>
    cases h with
    | serving hrunning hacceptor hsafes hfinished hpass hpc _ =>
      have hone : s.starts = 1 := by omega
      exact .serving (.inr (.inr ⟨rfl, by simp [hone]⟩)) (by simp) hsafes hfinished hpass hpc (by simp)
    | waiting _ hnone => omega
    | queued cb _ hnone => omega
    | calling cb old _ hnone => omega
    | stopped cb _ hnone => omega
  | visited c rest cb hpass _ => exact h.inPass hpass rfl rfl rfl rfl rfl rfl rfl rfl rfl
  | closed c rest cb w _ hpass _ done => exact h.inPass hpass rfl rfl rfl rfl rfl rfl rfl rfl rfl
  | passed cb hpass => exact h.inPass hpass rfl rfl rfl rfl rfl rfl rfl rfl rfl
  | newConnection op throws hop hresult hbase _ =>
    have hpc : s.pc ≠ .stopped := by rw [hbase.1]; intro hs; cases hs
    unfold TCPServer.newConnection
    dsimp only
    split
    · exact h.accept hpc rfl (fun hc => hc) rfl rfl rfl rfl rfl rfl rfl rfl
    · exact h.accept hpc rfl (fun hc => hc) rfl rfl rfl rfl rfl rfl rfl rfl
    · exact h.same rfl rfl rfl rfl rfl rfl rfl rfl Iff.rfl rfl rfl
  | rejected ok loop hpc hpass _ =>
    exact h.accept (by rw [hpc]; intro hs; cases hs) rfl (fun hc => hc) rfl rfl rfl rfl rfl rfl rfl rfl
  | inserted c loop hpc hpass hnext _ =>
    refine h.accept (by rw [hpc]; intro hs; cases hs) rfl (fun _ => ?_) rfl rfl rfl rfl rfl rfl rfl rfl
    exact List.append_ne_nil_of_right_ne_nil _ (List.cons_ne_nil _ _)
  | established c loop w _ hpc hpass hnext _ done =>
    refine h.accept (by rw [hpc]; intro hs; cases hs) rfl (fun _ => ?_) rfl rfl rfl rfl rfl rfl rfl rfl
    exact List.append_ne_nil_of_right_ne_nil _ (List.cons_ne_nil _ _)
  | doAccept pool hpool hacceptor _ =>
    cases h with
    | serving hrunning hrunningIff hsafes hfinished hpass _ _ =>
      exact .serving hrunning hrunningIff hsafes hfinished hpass (by intro hs; cases hs) (by simp)
    | waiting _ _ _ hclosed => exact absurd (hacceptor.symm.trans hclosed) (by decide)
    | queued cb _ _ _ hclosed => exact absurd (hacceptor.symm.trans hclosed) (by decide)
    | calling cb old _ _ hclosed => exact absurd (hacceptor.symm.trans hclosed) (by decide)
    | stopped cb _ _ hclosed => exact absurd (hacceptor.symm.trans hclosed) (by decide)
  | runRemove c hmem hbase =>
    have hknown : c.val < s.nextConnId := by
      by_contra hge
      exact (htracked.fresh c (Nat.le_of_not_lt hge)).2.2 hmem
    have hin : c ∈ s.connections := (htracked.closed c hknown).mpr (.inr hmem)
    have hsame : StopPhase { s with removals := s.removals.erase c } :=
      h.same rfl rfl rfl rfl rfl rfl rfl rfl Iff.rfl rfl rfl
    exact hsame.removeInLoop hin hbase.2.1 hbase.1
  | stopInloopSafe cb pool hmem hbase hpool =>
    cases h with
    | queued cb' hstatus hstarts _ hacceptor hsafes hfinished hpass hconnections _ _ =>
      have hcb : cb = cb' := by simpa [hsafes] using hmem
      have hnil : s.connections = [] := by
        cases hconnections with
        | inl hnil => exact hnil
        | inr haccepting => rw [hbase.1] at haccepting; cases haccepting
      refine .calling cb pool hstatus hstarts hacceptor ?_ ?_ hpass hnil rfl rfl
      · simp [stoppedWith, hsafes, hcb]
      · simp [stoppedWith, hfinished]
    | serving _ _ hsafes => rw [hsafes] at hmem; cases hmem
    | waiting _ _ _ _ hsafes => rw [hsafes] at hmem; cases hmem
    | calling cb' old _ _ _ hsafes => rw [hsafes] at hmem; cases hmem
    | stopped cb' _ _ _ hsafes => rw [hsafes] at hmem; cases hmem
  | finishStop hpc =>
    cases h with
    | calling cb pool _ hstarts hacceptor hsafes hfinished hpass hconnections _ _ =>
      exact .stopped cb rfl hstarts hacceptor hsafes hfinished hpass (.inl hconnections)
        (by intro hs; cases hs)
    | serving _ _ _ _ _ hnot => exact absurd hpc hnot
    | waiting _ _ _ _ _ _ _ hnot => exact absurd hpc hnot
    | queued cb _ _ _ _ _ _ _ _ hnot => exact absurd hpc hnot
    | stopped cb _ _ _ _ _ _ _ hnot => exact absurd hpc hnot
  | conn b w _ _ allowed known _ done => exact h.afterConn htracked hestablishing hrun allowed known done
  | _ => exact h.same rfl rfl rfl rfl rfl rfl rfl rfl Iff.rfl rfl rfl

theorem run_phase (h : (machine n threadNum).Run build P as s m) : StopPhase s ∧ Establishing s := by
  refine h.invariant (I := fun s _ => StopPhase s ∧ Establishing s) (fun s m hinit => ?_)
    fun as s m a s' m' before ih enabled _ done => ?_
  · obtain ⟨rfl, _⟩ := hinit
    refine ⟨.serving (.inl ⟨rfl, rfl⟩) (by simp) rfl rfl rfl (by intro hs; cases hs) (by simp), ?_⟩
    intro c hc
    cases hc
  · obtain ⟨hrun, htracked⟩ := run_tracked before
    have hstep := exec_step enabled done
    exact ⟨ih.1.step htracked ih.2 hrun hstep, ih.2.step hstep⟩

theorem next (h : (machine n threadNum).Run build P as s m) (a : ServerAction n)
    (enabled : s.Enabled m a) (condition : P as s m a) (done : s.exec a build m = .ok (s', m')) :
    (machine n threadNum).Run build P (as ++ [a]) s' m' := h.step a enabled condition done

/-! ## The stopped callback -/

/-- `stopInloopSafe` runs at most once and with its assertion; when it calls back, there
    is no connection left, each that was ever accepted has been closed, and the pool
    is stopped and joined; and only then the server is stopped. -/
theorem stopped_callback_safe (h : (machine n threadNum).Run build P as s m) :
    s.finished.length ≤ 1 ∧
    (s.safes ≠ [] → s.substatus = .kStoppingListener) ∧
    (s.pc = .stopped → s.connections = [] ∧
      (∀ c : Fin n, c.val < s.nextConnId → .close ∈ (s.world.life c).log) ∧
      ∃ pool, s.retired = some pool ∧ pool.isStopped = true ∧ pool.threads = []) ∧
    (s.status = .kStopped → s.finished.length = 1) := by
  obtain ⟨_, htracked⟩ := run_tracked h
  cases (run_phase h).1 with
  | serving hrunning _ hsafes hfinished _ hpc _ =>
    refine ⟨by simp [hfinished], fun hqueued => absurd hsafes hqueued,
      fun hstopped => absurd hstopped hpc, fun hstatus => ?_⟩
    rcases hrunning with ⟨hother, _⟩ | ⟨hother, _⟩ | ⟨hother, _⟩ <;> rw [hstatus] at hother <;> cases hother
  | waiting hstatus _ hsub _ _ hfinished _ hpc _ =>
    exact ⟨by simp [hfinished], fun _ => hsub, fun hstopped => absurd hstopped hpc, fun hother => by
      rw [hstatus] at hother; cases hother⟩
  | queued cb hstatus _ hsub _ _ hfinished _ _ hpc _ =>
    exact ⟨by simp [hfinished], fun _ => hsub, fun hstopped => absurd hstopped hpc, fun hother => by
      rw [hstatus] at hother; cases hother⟩
  | calling cb pool hstatus _ _ hsafes hfinished _ hconnections _ hretired =>
    refine ⟨by simp [hfinished], fun hqueued => absurd hsafes hqueued,
      fun _ => ⟨hconnections, fun c hc => ?_, ?_⟩, fun hother => ?_⟩
    · -- a connection that has been accepted and is not in `connections_` has been closed
      by_contra hnot
      have hin := (htracked.closed c hc).mpr (.inl hnot)
      rw [hconnections] at hin
      cases hin
    · exact ⟨_, hretired, rfl, rfl⟩
    · rw [hstatus] at hother
      cases hother
  | stopped cb _ _ _ hsafes hfinished _ _ hpc =>
    exact ⟨by simp [hfinished], fun hqueued => absurd hsafes hqueued,
      fun hstopped => absurd hstopped hpc, fun _ => by simp [hfinished]⟩

/-- A server without threads accepts a connection, is stopped, and calls back. -/
theorem stopped_callback_safe_one :
    ∃ (as : List (ServerAction 1)) (s : TCPServer 1) (m : Mem),
      (machine 1 0).Run .debug (fun _ _ _ _ => True) as s m ∧ s.finished = [some 7] ∧
      s.pc = .stopped ∧ s.nextConnId = 1 ∧ s.connections = [] ∧
      .close ∈ (s.world.life 0).log := by
  have r : (machine 1 0).Run .debug (fun _ _ _ _ => True) [] { pool := some ⟨0, .kNull, [], 0⟩ } emptyMem :=
    .start ⟨rfl, _, rfl⟩
  have r := next r .start rfl trivial rfl
  have r := next r .startInLoop ⟨Nat.one_pos, rfl, rfl, fun _ _ => rfl⟩ trivial rfl
  have r := next r (.acceptDone ⟨0, none⟩ .success) ⟨.head _, rfl, rfl⟩ trivial rfl
  have r := next r (.newConnection ⟨0, some .success⟩ false)
    ⟨.head _, (by intro h; cases h), ⟨rfl, rfl, fun _ _ => rfl⟩, fun _ => rfl⟩ trivial rfl
  have r := next r (.verified true) ⟨⟨0, rfl⟩, rfl, (by intro _ h; cases h)⟩ trivial rfl
  have r := next r (.conn (.resume 0)) ⟨(by intro h; cases h), ⟨.inl rfl, fun _ => ⟨rfl, .inr rfl⟩⟩,
    fun c _ => c.isLt, fun c h => by cases h⟩ trivial rfl
  have r := next r (.conn (.resume 0)) ⟨(by intro h; cases h), ⟨.inl rfl, fun _ => ⟨rfl, .inr rfl⟩⟩,
    fun c _ => c.isLt, fun c h => by cases h⟩ trivial rfl
  have r := next r .doAccept ⟨rfl, .inr ⟨0, rfl, rfl⟩⟩ trivial rfl
  have r := next r (.stop (some 7)) rfl trivial rfl
  have hidle : ∀ c : Fin 1, c = 0 := fun c => Subsingleton.elim c 0
  have r := next r (.stopInLoop (some 7)) ⟨.head _, rfl, rfl, fun c _ => by rw [hidle c]; rfl⟩ trivial rfl
  have r := next r .stopNext (by intro h; cases h) trivial rfl
  have r := next r .stopNext (by intro h; cases h) trivial rfl
  have r := next r (.conn (.closeGoesOn 0 .queueing))
    ⟨.head _, trivial, fun c _ => c.isLt, fun c h => by cases h⟩ trivial rfl
  have r := next r (.conn (.runClose 0)) ⟨⟨Nat.one_pos, rfl⟩, trivial, fun c _ => c.isLt, fun c _ => ⟨⟨fun _ =>
    ⟨rfl, rfl, fun d _ => by rw [hidle d]; rfl⟩, fun d _ => by rw [hidle d]; rfl⟩, .inl (by rw [hidle c]; rfl)⟩⟩
    trivial rfl
  have r := next r (.conn (.resume 0)) ⟨(by intro h; cases h), ⟨.inl rfl, fun _ => ⟨rfl, .inl rfl⟩⟩,
    fun c _ => c.isLt, fun c h => by cases h⟩ trivial rfl
  have r := next r (.conn (.resume 0)) ⟨(by intro h; cases h), ⟨.inl rfl, fun _ => ⟨rfl, .inl rfl⟩⟩,
    fun c _ => c.isLt, fun c h => by cases h⟩ trivial rfl
  have r := next r (.conn (.resume 0)) ⟨(by intro h; cases h), ⟨.inl rfl, fun _ => ⟨rfl, .inl rfl⟩⟩,
    fun c _ => c.isLt, fun c h => by cases h⟩ trivial rfl
  have r := next r (.conn (.resume 0)) ⟨(by intro h; cases h), ⟨.inl rfl, fun _ => ⟨rfl, .inl rfl⟩⟩,
    fun c _ => c.isLt, fun c h => by cases h⟩ trivial rfl
  have r := next r (.stopInloopSafe (some 7)) ⟨.head _, ⟨rfl, rfl, fun d _ => by rw [hidle d]; rfl⟩,
    fun d => by rw [hidle d]; rfl⟩ trivial rfl
  obtain ⟨hnil, hclosed, _⟩ := (stopped_callback_safe r).2.2.1 rfl
  exact ⟨_, _, _, r, rfl, rfl, rfl, hnil, hclosed 0 Nat.one_pos⟩

end TCPServer

end Netpp
