import Netpp.Server.Stop

/-! # After `stopInLoop`

What `stopInLoop` leaves behind it: an accept whose completion is already queued, a
second `stop`, and connections it has found in `connections_` before
`connectEstablished` has run on their loop.

* `no_accept_after_stop`: null is not dereferenced and no connection is accepted, if
  no accept has completed and no other `stop` has run when `stopInLoop` runs.
* `stop_reaches_connections`: no connection is forgotten, if each of them has been
  established when `stopInLoop` looks at it.
-/

namespace Netpp

open Function (update)
open ServerStatus Prog

namespace TCPServer

variable {n threadNum : Nat} {build : Build} {m m' : Mem} {s s' : TCPServer n} {a : ServerAction n}
  {P : List (ServerAction n) → TCPServer n → Mem → ServerAction n → Prop}
  {as : List (ServerAction n)}

/-! ## Accepts -/

/-- `stopInLoop` runs once, outside `newConnection`, and when no accept has completed. -/
def StopsQuietly (_ : List (ServerAction n)) (s : TCPServer n) (_ : Mem) : ServerAction n → Prop
  | .stopInLoop _ => s.status = .kRunning ∧ ∀ op ∈ s.accepts, op.result = none
  | .stopHere _ => s.pc.isAccepting = false ∧ ∀ op ∈ s.accepts, op.result = none
  | _ => True

/-- Without the acceptor, no accept is handled and none will be. -/
def Deaf (s : TCPServer n) : Prop :=
  s.acceptor = false →
    s.pc.isAccepting = false ∧ ∀ op ∈ s.accepts, op.result = none ∨ op.result = some .aborted

theorem Deaf.same (h : Deaf s) (acceptor : s'.acceptor = s.acceptor) (pc : s'.pc = s.pc)
    (accepts : s'.accepts = s.accepts) : Deaf s' := by
  intro hclosed
  rw [pc, accepts]
  exact h (acceptor ▸ hclosed)

theorem stopping_deaf (stops : List DoneCallback) (cb : DoneCallback) (hpc : s.pc.isAccepting = false)
    (haccepts : ∀ op ∈ s.accepts, op.result = none) :
    Deaf (stopping { s with stops := stops } cb) := by
  have hdeaf : Deaf { s with acceptor := false } := fun _ => ⟨hpc, fun op hop => .inl (haccepts op hop)⟩
  unfold stopping
  dsimp only
  split <;> exact hdeaf.same rfl rfl rfl

theorem removeInLoop_deaf {c : Fin n} (h : Deaf s) : Deaf (s.removeInLoop c) := by
  unfold removeInLoop
  dsimp only
  split <;> exact h.same rfl rfl rfl

theorem Deaf.step (h : Deaf s) (condition : StopsQuietly as s m a)
    (hstep : ServerStep build m s a s' m') : Deaf s' := by
  cases hstep with
  | stopHere cb _ _ => exact stopping_deaf s.stops cb condition.1 condition.2
  | stopInLoop cb hbase _ =>
    exact stopping_deaf (s.stops.erase cb) cb (by rw [hbase.1]; rfl) condition.2
  | acceptDone op result hop hpossible =>
    intro hclosed
    obtain ⟨hpc, haccepts⟩ := h hclosed
    refine ⟨hpc, fun op' hop' => ?_⟩
    cases List.mem_append.mp hop' with
    | inl hold => exact haccepts op' (List.mem_of_mem_erase hold)
    | inr hnew =>
      obtain rfl := List.mem_singleton.mp hnew
      cases result with
      | success => exact absurd (hpossible.symm.trans hclosed) (by decide)
      | failed => exact absurd (hpossible.symm.trans hclosed) (by decide)
      | aborted => exact .inr rfl
  | startInLoop pool _ _ _ => intro hclosed; cases hclosed
  | newConnection op throws hop hresult _ _ =>
    intro hclosed
    obtain ⟨hpc, haccepts⟩ := h (by
      unfold TCPServer.newConnection at hclosed
      dsimp only at hclosed
      split at hclosed <;> exact hclosed)
    have haborted : op.result = some .aborted := (haccepts op hop).resolve_left hresult
    unfold TCPServer.newConnection
    rw [haborted]
    exact ⟨hpc, fun op' hop' => haccepts op' (List.mem_of_mem_erase hop')⟩
  | rejected ok loop hpc _ _ =>
    intro hclosed
    have hnot := (h hclosed).1
    rw [hpc] at hnot
    cases hnot
  | inserted c loop hpc _ _ _ =>
    intro hclosed
    have hnot := (h hclosed).1
    rw [hpc] at hnot
    cases hnot
  | established c loop w _ hpc _ _ _ _ =>
    intro hclosed
    have hnot := (h hclosed).1
    rw [hpc] at hnot
    cases hnot
  | doAccept pool _ hacceptor _ =>
    intro hclosed
    exact absurd (hacceptor.symm.trans hclosed) (by decide)
  | runRemove c _ _ =>
    have hsame : Deaf { s with removals := s.removals.erase c } := h.same rfl rfl rfl
    exact removeInLoop_deaf hsame
  | stopInloopSafe cb pool _ _ _ => exact fun hclosed => ⟨rfl, (h hclosed).2⟩
  | finishStop _ => exact fun hclosed => ⟨rfl, (h hclosed).2⟩
  | conn b w _ _ _ _ _ _ =>
    have hworld : Deaf { s with world := w } := h.same rfl rfl rfl
    unfold afterConn
    cases b with
    | resume c =>
      dsimp only
      split
      · unfold removeConnection
        split
        · exact removeInLoop_deaf hworld
        · exact hworld.same rfl rfl rfl
      · exact hworld
    | _ => exact h.same rfl rfl rfl
  | _ => exact h.same rfl rfl rfl

theorem run_deaf (h : (machine n threadNum).Run build StopsQuietly as s m) : Deaf s := by
  refine h.invariant (I := fun s _ => Deaf s) (fun s m hinit => ?_)
    fun as s m a s' m' _ ih enabled condition done => ih.step condition (exec_step enabled done)
  obtain ⟨rfl, _⟩ := hinit
  exact fun _ => ⟨rfl, fun op hop => by cases hop⟩

/-! ### What a server has while it serves -/

theorem StopPhase.of_acceptor (h : StopPhase s) (hacceptor : s.acceptor = true) :
    s.status = .kRunning ∧ s.pool ≠ none := by
  cases h with
  | serving _ hiff _ _ _ _ hpool => exact ⟨hiff.mp hacceptor, hpool⟩
  | waiting _ _ _ hclosed => exact absurd (hacceptor.symm.trans hclosed) (by decide)
  | queued cb _ _ _ hclosed => exact absurd (hacceptor.symm.trans hclosed) (by decide)
  | calling cb old _ _ hclosed => exact absurd (hacceptor.symm.trans hclosed) (by decide)
  | stopped cb _ _ hclosed => exact absurd (hacceptor.symm.trans hclosed) (by decide)

theorem StopPhase.of_running (h : StopPhase s) (hstatus : s.status = .kRunning) :
    s.acceptor = true := by
  cases h with
  | serving _ hiff => exact hiff.mpr hstatus
  | waiting hother => rw [hstatus] at hother; cases hother
  | queued cb hother => rw [hstatus] at hother; cases hother
  | calling cb old hother => rw [hstatus] at hother; cases hother
  | stopped cb hother => rw [hstatus] at hother; cases hother

theorem StopPhase.pool_of_starts (h : StopPhase s) (hstarts : 0 < s.starts) : s.pool ≠ none := by
  cases h with
  | serving _ _ _ _ _ _ hpool => exact hpool
  | waiting _ hnone => omega
  | queued cb _ hnone => omega
  | calling cb old _ hnone => omega
  | stopped cb _ hnone => omega

theorem StopPhase.pool_of_safes (h : StopPhase s) {cb : DoneCallback} (hmem : cb ∈ s.safes) :
    s.pool ≠ none := by
  cases h with
  | queued cb' _ _ _ _ _ _ _ _ _ hpool => exact hpool
  | serving _ _ hsafes => rw [hsafes] at hmem; cases hmem
  | waiting _ _ _ _ hsafes => rw [hsafes] at hmem; cases hmem
  | calling cb' old _ _ _ hsafes => rw [hsafes] at hmem; cases hmem
  | stopped cb' _ _ _ hsafes => rw [hsafes] at hmem; cases hmem

theorem Deaf.acceptor (h : Deaf s) (hpc : s.pc.isAccepting = true) : s.acceptor = true := by
  cases hacceptor : s.acceptor with
  | true => rfl
  | false =>
    have hnot := (h hacceptor).1
    rw [hpc] at hnot
    cases hnot

/-! ### What a step dereferences -/

theorem avoids_onConns {α : Type} {e : ServerFault} (he : ∀ f, .conn f ≠ e) (p : ConnExec α) :
    Avoids e (onConns p) build m := avoids_mapFault he p build m

theorem doAccept_avoids {e : ServerFault} (hacceptor : s.acceptor = true) (hpool : s.pool ≠ none) :
    Avoids e s.doAccept build m := by
  unfold doAccept
  cases hp : s.pool with
  | none => exact absurd hp hpool
  | some pool =>
    dsimp only
    rw [if_pos hacceptor]
    exact avoids_pure _ _ _ _

theorem stopInLoop_avoids {e : ServerFault} {cb : DoneCallback} (hacceptor : s.acceptor = true) :
    Avoids e (s.stopInLoop cb) build m := by
  unfold stopInLoop
  dsimp only
  rw [if_pos hacceptor]
  split <;> exact avoids_pure _ _ _ _

theorem stopInloopSafe_avoids {e : ServerFault} {cb : DoneCallback} (he : ∀ f, .conn f ≠ e)
    (hpool : s.pool ≠ none) : Avoids e (s.stopInloopSafe cb) build m := by
  unfold stopInloopSafe stopThreadPool
  refine avoids_bind (avoids_onConns he _) fun _ _ _ => ?_
  refine avoids_bind (avoids_bind (avoids_onConns he _) fun _ _ _ => ?_) fun _ _ _ => avoids_pure _ _ _ _
  cases hp : s.pool with
  | none => exact absurd hp hpool
  | some pool => exact avoids_bind (avoids_onConns he _) fun _ _ _ => avoids_pure _ _ _ _

theorem verified_avoids {e : ServerFault} (he : ∀ f, .conn f ≠ e) (loop : Nat) (ok : Bool) :
    Avoids e (s.verified loop ok) build m := by
  unfold verified
  split
  · dsimp only
    split
    · exact avoids_bind (avoids_onConns he _) fun _ _ _ => avoids_pure _ _ _ _
    · exact avoids_pure _ _ _ _
  · exact avoids_pure _ _ _ _

theorem stopNext_avoids {e : ServerFault} (he : ∀ f, .conn f ≠ e) : Avoids e s.stopNext build m := by
  unfold stopNext
  split
  · split
    · exact avoids_bind (avoids_onConns he _) fun _ _ _ => avoids_pure _ _ _ _
    · exact avoids_pure _ _ _ _
  · exact avoids_pure _ _ _ _
  · exact avoids_pure _ _ _ _

theorem exec_avoids_null {e : ServerFault} (he : ∀ f, .conn f ≠ e) (hphase : StopPhase s)
    (hdeaf : Deaf s) (enabled : s.Enabled m a) (condition : StopsQuietly as s m a) :
    Avoids e (s.exec a) build m := by
  cases a with
  | stopHere cb => exact stopInLoop_avoids (hphase.of_running enabled.1)
  | stopInLoop cb => exact stopInLoop_avoids (hphase.of_running condition.1)
  | startInLoop => exact doAccept_avoids rfl (hphase.pool_of_starts enabled.1)
  | stopNext => exact stopNext_avoids he
  | verified ok =>
    obtain ⟨⟨loop, hpc⟩, _⟩ := enabled
    simp only [exec, hpc]
    exact verified_avoids he loop ok
  | doAccept =>
    have hpc : s.pc.isAccepting = true := by
      rcases enabled.2 with hpc | ⟨c, hpc, _⟩ <;> rw [hpc] <;> rfl
    have hacceptor := hdeaf.acceptor hpc
    exact avoids_bind (doAccept_avoids hacceptor (hphase.of_acceptor hacceptor).2)
      fun _ _ _ => avoids_pure _ _ _ _
  | stopInloopSafe cb => exact stopInloopSafe_avoids he (hphase.pool_of_safes enabled.1)
  | conn b => exact avoids_bind (avoids_onConns he _) fun _ _ _ => avoids_pure _ _ _ _
  | _ => exact avoids_pure _ _ _ _

theorem removeInLoop_connections {c d : Fin n} (h : d ∈ (s.removeInLoop c).connections) :
    d ∈ s.connections := by
  unfold removeInLoop at h
  dsimp only at h
  split at h <;> exact List.mem_of_mem_erase h

theorem afterConn_connections {b : Action n} {w : World n} {d : Fin n}
    (h : d ∈ (s.afterConn b w).connections) : d ∈ s.connections := by
  unfold afterConn at h
  cases b with
  | resume c =>
    dsimp only at h
    split at h
    · unfold removeConnection at h
      split at h
      · have hmem := removeInLoop_connections h
        exact hmem
      · exact h
    · exact h
  | _ => exact h

theorem ServerStep.connections (h : ServerStep build m s a s' m')
    (hnot : ∀ loop, s.pc ≠ .verifying loop) {d : Fin n} (hd : d ∈ s'.connections) :
    d ∈ s.connections := by
  cases h with
  | stopHere cb _ _ =>
    unfold stopping at hd
    dsimp only at hd
    split at hd <;> exact hd
  | stopInLoop cb _ _ =>
    unfold stopping at hd
    dsimp only at hd
    split at hd <;> exact hd
  | newConnection op throws _ _ _ _ =>
    unfold TCPServer.newConnection at hd
    dsimp only at hd
    split at hd <;> exact hd
  | inserted c loop hpc _ _ _ => exact absurd hpc (hnot loop)
  | established c loop w _ hpc _ _ _ _ => exact absurd hpc (hnot loop)
  | runRemove c _ _ =>
    have hmem := removeInLoop_connections hd
    exact hmem
  | conn b w _ _ _ _ _ _ => exact afterConn_connections hd
  | _ => exact hd

/-- In every run in which `stopInLoop` runs once, outside `newConnection` and when no
    accept has completed: no step dereferences a null `acceptor_` or `pool_`, and none
    inserts a connection once `stopInLoop` has run. -/
theorem no_accept_after_stop (h : (machine n threadNum).Run build StopsQuietly as s m)
    (enabled : s.Enabled m a) (condition : StopsQuietly as s m a) :
    Avoids .nullAcceptor (s.exec a) build m ∧ Avoids .nullPool (s.exec a) build m ∧
    (s.status = .kStopping ∨ s.status = .kStopped →
      ∀ s' m', s.exec a build m = .ok (s', m') → ∀ c ∈ s'.connections, c ∈ s.connections) := by
  have hphase := (run_phase h).1
  have hdeaf := run_deaf h
  refine ⟨exec_avoids_null (by intro f hf; cases hf) hphase hdeaf enabled condition,
    exec_avoids_null (by intro f hf; cases hf) hphase hdeaf enabled condition, ?_⟩
  intro hstatus s' m' done c hc
  refine (exec_step enabled done).connections (fun loop hpc => ?_) hc
  have hrunning := (hphase.of_acceptor (hdeaf.acceptor (by rw [hpc]; rfl))).1
  rw [hrunning] at hstatus
  simp at hstatus

/-- A server is stopped while it waits for a connection, and the accept is aborted. -/
theorem no_accept_after_stop_aborted :
    ∃ (as : List (ServerAction 1)) (s : TCPServer 1) (m : Mem),
      (machine 1 1).Run .debug StopsQuietly as s m ∧ s.status = .kStopping ∧
      s.Enabled m (.newConnection ⟨1, some .aborted⟩ false) ∧
      Avoids .nullAcceptor (s.exec (.newConnection ⟨1, some .aborted⟩ false)) .debug m := by
  have r : (machine 1 1).Run .debug StopsQuietly [] { pool := some ⟨1, .kNull, [], 0⟩ } emptyMem :=
    .start ⟨rfl, _, rfl⟩
  have r := next r .start rfl trivial rfl
  have r := next r .startInLoop ⟨Nat.one_pos, rfl, rfl, fun _ _ => rfl⟩ trivial rfl
  have r := next r (.stop none) rfl trivial rfl
  have r := next r (.stopInLoop none) ⟨.head _, rfl, rfl, fun _ _ => rfl⟩
    ⟨rfl, fun op hop => by rw [List.mem_singleton.mp hop]⟩ rfl
  have r := next r (.acceptDone ⟨1, none⟩ .aborted) ⟨.head _, rfl, rfl⟩ trivial rfl
  refine ⟨_, _, _, r, rfl, ?enabled, (no_accept_after_stop r ?enabled trivial).1⟩
  exact ⟨.head _, (by intro h; cases h), ⟨rfl, rfl, fun _ _ => rfl⟩, by intro h; cases h⟩

/-- A connection is accepted just before `stopInLoop` closes the acceptor.
    `newConnection` inserts it into the server that is stopping, and `doAccept`
    dereferences `acceptor_`. -/
theorem late_accept_dereferences_null :
    ∃ (as : List (ServerAction 1)) (s s' : TCPServer 1) (m : Mem),
      (machine 1 1).Run .release (fun _ _ _ _ => True) as s m ∧ s.status = .kStopping ∧
      s.connections = [] ∧ s.Enabled m (.verified true) ∧
      s.exec (.verified true) .release m = .ok (s', m) ∧ s'.connections = [0] ∧
      s'.Enabled m .doAccept ∧ ¬ Avoids .nullAcceptor (s'.exec .doAccept) .release m := by
  have r : (machine 1 1).Run .release (fun _ _ _ _ => True) []
      { pool := some ⟨1, .kNull, [], 0⟩ } emptyMem := .start ⟨rfl, _, rfl⟩
  have r := next r .start rfl trivial rfl
  have r := next r .startInLoop ⟨Nat.one_pos, rfl, rfl, fun _ _ => rfl⟩ trivial rfl
  have r := next r (.acceptDone ⟨1, none⟩ .success) ⟨.head _, rfl, rfl⟩ trivial rfl
  have r := next r (.stop none) rfl trivial rfl
  have r := next r (.stopInLoop none) ⟨.head _, rfl, rfl, fun _ _ => rfl⟩ trivial rfl
  have r := next r (.newConnection ⟨1, some .success⟩ false)
    ⟨.head _, (by intro h; cases h), ⟨rfl, rfl, fun _ _ => rfl⟩, fun _ => rfl⟩ trivial rfl
  exact ⟨_, _, _, _, r, rfl, rfl, ⟨⟨1, rfl⟩, rfl, (by intro _ h; cases h)⟩, rfl, rfl, ⟨rfl, .inl rfl⟩,
    fun h => h rfl⟩

/-! ## Connections -/

/-- `stopInLoop` finds only connections that have been established, and none is
    inserted after it. -/
def StopsEstablished (_ : List (ServerAction n)) (s : TCPServer n) (_ : Mem) : ServerAction n → Prop
  | .stopNext => ∀ c rest cb, s.pass = some (c :: rest, cb) → (s.world.life c).established = true
  | .verified ok => ok = true → s.status ≠ .kStopping
  | _ => True

/-- The connections `stopInLoop` has visited are not connected any more. -/
def Visited (s : TCPServer n) : Prop :=
  s.status = .kStopping → ∀ c ∈ s.connections, (∀ todo cb, s.pass = some (todo, cb) → c ∉ todo) →
    (s.world.life c).established = true ∧ (s.world.life c).status ≠ .kConnected

theorem Visited.same (h : Visited s) (status : s'.status = s.status)
    (connections : ∀ c ∈ s'.connections, c ∈ s.connections) (pass : s'.pass = s.pass)
    (world : s'.world = s.world) : Visited s' := by
  intro hstatus c hc hpass
  rw [world]
  exact h (status ▸ hstatus) c (connections c hc) (pass ▸ hpass)

theorem stopping_visited (cb : DoneCallback) : Visited (s.stopping cb) := by
  unfold stopping
  dsimp only
  split
  · rename_i hnil
    intro _ c hc
    rw [show s.connections = [] from hnil] at hc
    cases hc
  · intro _ c hc hpass
    exact absurd hc (hpass _ _ rfl)

theorem Visited.afterConn (h : Visited s) (hrun : RunOf build (fun _ _ _ => True) s.world m)
    {b : Action n} {w : World n} (enabled : s.world.Enabled m b)
    (done : s.world.exec b build m = .ok (w, m')) : Visited (s.afterConn b w) := by
  have hworld : Visited { s with world := w } := by
    intro hstatus c hc hpass
    obtain ⟨hborn, hnot⟩ := h hstatus c hc hpass
    cases hrun.lifeStep enabled done c with
    | inl hsame =>
      show (w.life c).established = true ∧ (w.life c).status ≠ .kConnected
      rw [hsame]
      exact ⟨hborn, hnot⟩
    | inr hstep => exact hstep.not_connected hborn hnot
  unfold TCPServer.afterConn
  cases b with
  | connectEstablished c => exact hworld.same rfl (fun d hd => hd) rfl rfl
  | resume c =>
    dsimp only
    split
    · unfold removeConnection
      split
      · refine hworld.same ?_ (fun d hd => removeInLoop_connections hd) ?_ (removeInLoop_world _ c)
        · unfold TCPServer.removeInLoop
          dsimp only
          split <;> rfl
        · unfold TCPServer.removeInLoop
          dsimp only
          split <;> rfl
      · exact hworld.same rfl (fun d hd => hd) rfl rfl
    · exact hworld
  | _ => exact hworld

theorem Visited.step (h : Visited s) (hrun : RunOf build (fun _ _ _ => True) s.world m)
    (condition : StopsEstablished as s m a) (hstep : ServerStep build m s a s' m') : Visited s' := by
  cases hstep with
  | start _ => intro hstatus; cases hstatus
  | stopHere cb _ _ => exact stopping_visited cb
  | stopInLoop cb _ _ => exact stopping_visited cb
  | startInLoop pool _ _ _ => intro hstatus; cases hstatus
  | visited c rest cb hpass hnot =>
    intro hstatus d hd htodo
    by_cases hdc : d = c
    · subst hdc
      exact ⟨condition d rest cb hpass, hnot⟩
    · refine h hstatus d hd fun todo cb' hold => ?_
      cases hpass.symm.trans hold
      exact List.not_mem_cons_of_ne_of_not_mem hdc (htodo _ _ rfl)
  | closed c rest cb w _ hpass hconnected done =>
    intro hstatus d hd htodo
    by_cases hdc : d = c
    · subst hdc
      have hborn := condition d rest cb hpass
      cases done
      have hlife : update s.world.life d (TCPConn.close (s.world.life d)) d =
          TCPConn.close (s.world.life d) := Function.update_self ..
      show (update s.world.life d (TCPConn.close (s.world.life d)) d).established = true ∧
        (update s.world.life d (TCPConn.close (s.world.life d)) d).status ≠ .kConnected
      rw [hlife, TCPConn.close, TCPConn.compareExchange, if_pos hconnected]
      exact ⟨hborn, by intro hfalse; cases hfalse⟩
    · have hothers : w.life d = s.world.life d :=
        exec_others done fun hconn => hdc (Option.some.inj hconn).symm
      show (w.life d).established = true ∧ (w.life d).status ≠ .kConnected
      rw [hothers]
      refine h hstatus d hd fun todo cb' hold => ?_
      cases hpass.symm.trans hold
      exact List.not_mem_cons_of_ne_of_not_mem hdc (htodo _ _ rfl)
  | passed cb hpass =>
    intro hstatus d hd _
    refine h hstatus d hd fun todo cb' hold => ?_
    cases hpass.symm.trans hold
    exact List.not_mem_nil
  | newConnection op throws _ _ _ _ =>
    unfold TCPServer.newConnection
    dsimp only
    split <;> exact h.same rfl (fun d hd => hd) rfl rfl
  | inserted c loop _ _ _ _ => exact fun hstatus => absurd hstatus (condition rfl)
  | established c loop w _ _ _ _ _ _ => exact fun hstatus => absurd hstatus (condition rfl)
  | runRemove c _ _ =>
    refine h.same ?_ (fun d hd => ?_) ?_ (removeInLoop_world _ c)
    · unfold TCPServer.removeInLoop
      dsimp only
      split <;> rfl
    · have hmem := removeInLoop_connections hd
      exact hmem
    · unfold TCPServer.removeInLoop
      dsimp only
      split <;> rfl
  | finishStop _ => intro hstatus; cases hstatus
  | conn b w _ enabled _ _ _ done => exact h.afterConn hrun enabled done
  | _ => exact h.same rfl (fun d hd => hd) rfl rfl

theorem run_visited (h : (machine n threadNum).Run build StopsEstablished as s m) : Visited s := by
  refine h.invariant (I := fun s _ => Visited s) (fun s m hinit => ?_)
    fun as s m a s' m' before ih enabled condition done =>
      ih.step (run_tracked before).1 condition (exec_step enabled done)
  obtain ⟨rfl, _⟩ := hinit
  intro hstatus
  cases hstatus

/-- Nothing is pending but `stopInloopSafe`: no task, no timer, and no thread is in a
    handler or in a call of `close`. -/
structure Settled (s : TCPServer n) : Prop where
  removals : s.removals = []
  establishes : s.establishes = []
  base : s.pc = .idle
  calls : ∀ c, (s.world.life c).closers = []
  closes : ∀ c, (s.world.life c).closes = 0
  timers : ∀ c, (s.world.life c).timers = 0
  loops : ∀ c, (s.world.life c).pc = .idle

/-- In every run in which `stopInLoop` finds only established connections and none is
    inserted after it: while the server is stopping, each connection it still has is
    disconnecting or will be closed or removed; and when nothing else is pending, it
    has none and `stopInloopSafe` is queued or has run. -/
theorem stop_reaches_connections (h : (machine n threadNum).Run build StopsEstablished as s m)
    (hstopping : s.status = .kStopping) (hpass : s.pass = none) :
    (∀ c ∈ s.connections, (s.world.life c).status = .kDisconnecting ∨ 0 < (s.world.life c).closes ∨
      0 < (s.world.life c).timers ∨ c ∈ s.removals) ∧
    (s.Settled → s.connections = [] ∧ (s.safes ≠ [] ∨ s.finished ≠ [])) := by
  obtain ⟨hrun, htracked⟩ := run_tracked h
  have hreached : ∀ c ∈ s.connections, (s.world.life c).status = .kDisconnecting ∨ c ∈ s.removals := by
    intro c hc
    obtain ⟨hborn, hnot⟩ := run_visited h hstopping c hc fun todo cb hsome => by
      rw [hpass] at hsome; cases hsome
    cases hstatus : (s.world.life c).status with
    | kConnected => exact absurd hstatus hnot
    | kDisconnecting => exact .inl rfl
    | kDisconnected =>
      have hclose := (hrun.stage.1 c).close_of_disconnected hborn hstatus
      have hknown : c.val < s.nextConnId := by
        by_contra hge
        exact (htracked.fresh c (Nat.le_of_not_lt hge)).2.1 hc
      exact .inr (((htracked.closed c hknown).mp hc).resolve_left (not_not.mpr hclose))
  refine ⟨fun c hc => (hreached c hc).imp_right fun hr => .inr (.inr hr), fun hsettled => ?_⟩
  have hnil : s.connections = [] := by
    by_contra hsome
    obtain ⟨c, hc⟩ := List.exists_mem_of_ne_nil _ hsome
    cases hreached c hc with
    | inl hdisconnecting =>
      have hpending := hrun.requested c hdisconnecting (by rw [hsettled.loops c]; rfl)
      rw [requests_of_calm ⟨hsettled.calls c, hsettled.closes c, hsettled.timers c⟩] at hpending
      omega
    | inr hremoval => rw [hsettled.removals] at hremoval; cases hremoval
  refine ⟨hnil, ?_⟩
  cases (run_phase h).1 with
  | serving hrunning =>
    rcases hrunning with ⟨hother, _⟩ | ⟨hother, _⟩ | ⟨hother, _⟩ <;> rw [hstopping] at hother <;> cases hother
  | waiting _ _ _ _ _ _ hsome => exact absurd hnil hsome
  | queued cb _ _ _ _ hsafes => exact .inl (by rw [hsafes]; exact List.cons_ne_nil _ _)
  | calling cb old _ _ _ _ hfinished => exact .inr (by rw [hfinished]; exact List.cons_ne_nil _ _)
  | stopped cb hother => rw [hstopping] at hother; cases hother

/-- A connection that is established on the base loop is closed by `stopInLoop`. -/
theorem stop_reaches_connections_one :
    ∃ (as : List (ServerAction 1)) (s : TCPServer 1) (m : Mem),
      (machine 1 0).Run .debug StopsEstablished as s m ∧ s.status = .kStopping ∧ s.pass = none ∧
      s.connections = [0] ∧ ((s.world.life 0).status = .kDisconnecting ∨
        0 < (s.world.life 0).closes ∨ 0 < (s.world.life 0).timers ∨ 0 ∈ s.removals) := by
  have r : (machine 1 0).Run .debug StopsEstablished [] { pool := some ⟨0, .kNull, [], 0⟩ } emptyMem :=
    .start ⟨rfl, _, rfl⟩
  have r := next r .start rfl trivial rfl
  have r := next r .startInLoop ⟨Nat.one_pos, rfl, rfl, fun _ _ => rfl⟩ trivial rfl
  have r := next r (.acceptDone ⟨0, none⟩ .success) ⟨.head _, rfl, rfl⟩ trivial rfl
  have r := next r (.newConnection ⟨0, some .success⟩ false)
    ⟨.head _, (by intro h; cases h), ⟨rfl, rfl, fun _ _ => rfl⟩, fun _ => rfl⟩ trivial rfl
  have r := next r (.verified true) ⟨⟨0, rfl⟩, rfl, (by intro _ h; cases h)⟩
    (by intro _ h; cases h) rfl
  have r := next r (.conn (.resume 0)) ⟨(by intro h; cases h), ⟨.inl rfl, fun _ => ⟨rfl, .inr rfl⟩⟩,
    fun c _ => c.isLt, fun c h => by cases h⟩ trivial rfl
  have r := next r (.conn (.resume 0)) ⟨(by intro h; cases h), ⟨.inl rfl, fun _ => ⟨rfl, .inr rfl⟩⟩,
    fun c _ => c.isLt, fun c h => by cases h⟩ trivial rfl
  have r := next r .doAccept ⟨rfl, .inr ⟨0, rfl, rfl⟩⟩ trivial rfl
  have r := next r (.stop none) rfl trivial rfl
  have r := next r (.stopInLoop none)
    ⟨.head _, rfl, rfl, fun c _ => by rw [show c = 0 from Subsingleton.elim c 0]; rfl⟩ trivial rfl
  have r := next r .stopNext (by intro h; cases h) (fun c rest cb h => by cases h; rfl) rfl
  have r := next r .stopNext (by intro h; cases h) (fun c rest cb h => by cases h) rfl
  exact ⟨_, _, _, r, rfl, rfl, rfl, (stop_reaches_connections r rfl rfl).1 0 (.head _)⟩

/-- A connection is accepted for an io loop, and `stopInLoop` runs before
    `connectEstablished` does: it skips the connection, which then is established, and
    nobody will ever close it or finish the stop. -/
theorem unestablished_connection_forgotten :
    ∃ (as : List (ServerAction 1)) (s : TCPServer 1) (m : Mem),
      (machine 1 1).Run .release (fun _ _ _ _ => True) as s m ∧ s.status = .kStopping ∧
      s.pass = none ∧ s.connections = [0] ∧ (s.world.life 0).status = .kConnected ∧
      s.Settled ∧ s.accepts = [] ∧ s.stops = [] ∧ s.safes = [] ∧ s.finished = [] := by
  have r : (machine 1 1).Run .release (fun _ _ _ _ => True) []
      { pool := some ⟨1, .kNull, [], 0⟩ } emptyMem := .start ⟨rfl, _, rfl⟩
  have hone : ∀ c : Fin 1, c = 0 := fun c => Subsingleton.elim c 0
  have r := next r .start rfl trivial rfl
  have r := next r .startInLoop ⟨Nat.one_pos, rfl, rfl, fun _ _ => rfl⟩ trivial rfl
  have r := next r (.acceptDone ⟨1, none⟩ .success) ⟨.head _, rfl, rfl⟩ trivial rfl
  have r := next r (.newConnection ⟨1, some .success⟩ false)
    ⟨.head _, (by intro h; cases h), ⟨rfl, rfl, fun _ _ => rfl⟩, fun _ => rfl⟩ trivial rfl
  have r := next r (.verified true) ⟨⟨1, rfl⟩, rfl, (by intro _ h; cases h)⟩ trivial rfl
  have r := next r .doAccept ⟨rfl, .inl rfl⟩ trivial rfl
  have r := next r (.stop none) rfl trivial rfl
  have r := next r (.stopInLoop none) ⟨.head _, rfl, rfl, fun _ _ => rfl⟩ trivial rfl
  have r := next r .stopNext (by intro h; cases h) trivial rfl
  have r := next r .stopNext (by intro h; cases h) trivial rfl
  have r := next r (.acceptDone ⟨1, none⟩ .aborted) ⟨.head _, rfl, rfl⟩ trivial rfl
  have r := next r (.newConnection ⟨1, some .aborted⟩ false)
    ⟨.head _, (by intro h; cases h), ⟨rfl, rfl, fun _ _ => rfl⟩, by intro h; cases h⟩ trivial rfl
  have r := next r (.conn (.connectEstablished 0)) ⟨⟨rfl, rfl, rfl⟩, .head _, fun c _ => c.isLt,
    fun c _ => ⟨⟨fun h => (by rw [hone c] at h; cases h), fun _ _ => rfl⟩, .inr ⟨_, rfl, rfl⟩⟩⟩ trivial rfl
  have r := next r (.conn (.resume 0)) ⟨(by intro h; cases h), ⟨.inr ⟨_, rfl, rfl⟩, fun h => by cases h⟩,
    fun c _ => c.isLt, fun c h => by cases h⟩ trivial rfl
  have r := next r (.conn (.resume 0)) ⟨(by intro h; cases h), ⟨.inr ⟨_, rfl, rfl⟩, fun h => by cases h⟩,
    fun c _ => c.isLt, fun c h => by cases h⟩ trivial rfl
  refine ⟨_, _, _, r, rfl, rfl, rfl, rfl, ⟨rfl, rfl, rfl, ?_, ?_, ?_, ?_⟩, rfl, rfl, rfl, rfl⟩
  · exact fun c => by rw [hone c]; rfl
  · exact fun c => by rw [hone c]; rfl
  · exact fun c => by rw [hone c]; rfl
  · exact fun c => by rw [hone c]; rfl

end TCPServer

end Netpp
