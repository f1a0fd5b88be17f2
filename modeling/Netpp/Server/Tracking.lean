import Netpp.Server.TCPServer

/-! # The connections of a server

* `ServerStep` lists what a step of a server does, and `exec_step` says that it is
  all it does.
* `Tracked`: `connections_` has exactly the connections whose `close_cb_` has not been
  called or whose removal is still to be run.
* `run_tracked`: this holds in every run, and the connections of a server run as
  connections do on their own.
-/

namespace Netpp

open Function (update)
open ServerStatus

namespace TCPServer

variable {n threadNum : Nat} {build : Build} {m m' : Mem} {s s' : TCPServer n}
  {P : List (ServerAction n) → TCPServer n → Mem → ServerAction n → Prop}
  {as : List (ServerAction n)}

/-! ## What a step does -/

/-- `stopInLoop` on a server that has its acceptor. -/
def stopping (s : TCPServer n) (cb : DoneCallback) : TCPServer n :=
  let s := { s with status := .kStopping, substatus := .kStoppingListener, acceptor := false }
  if s.connections = [] then { s with safes := s.safes ++ [cb] }
  else { s with pass := some (s.connections, cb) }

/-- The server once its pool has been stopped and its callback called. -/
def stoppedWith (s : TCPServer n) (pool : EventLoopThreadPool) (cb : DoneCallback) : TCPServer n :=
  { s with safes := s.safes.erase cb, pool := none, retired := some pool.stop.join,
           substatus := .kSubStatusNull, finished := s.finished ++ [cb], pc := .stopped }

def insert (s : TCPServer n) (c : Fin n) (loop : Nat) : TCPServer n :=
  { s with nextConnId := s.nextConnId + 1, connections := s.connections ++ [c],
           loopOf := update s.loopOf c loop }

/-- What a step of a server does.  A step that dereferences null does nothing: the
    run ends there. -/
inductive ServerStep (build : Build) (m : Mem) (s : TCPServer n) :
    ServerAction n → TCPServer n → Mem → Prop
  | start (status : s.status = .kNull) :
      ServerStep build m s .start
        { s with status := .kStarting, pool := s.pool.map .start, starts := s.starts + 1 } m
  | stop (cb : DoneCallback) (status : s.status = .kRunning) :
      ServerStep build m s (.stop cb) { s with stops := s.stops ++ [cb] } m
  | stopHere (cb : DoneCallback) (inside : s.InCallback) (acceptor : s.acceptor = true) :
      ServerStep build m s (.stopHere cb) (s.stopping cb) m
  | stopInLoop (cb : DoneCallback) (base : s.BaseIdle) (acceptor : s.acceptor = true) :
      ServerStep build m s (.stopInLoop cb) (stopping { s with stops := s.stops.erase cb } cb) m
  | acceptDone (op : AcceptOp) (result : AcceptResult) (op_mem : op ∈ s.accepts)
      (possible : s.AcceptPossible result) :
      ServerStep build m s (.acceptDone op result)
        { s with accepts := s.accepts.erase op ++ [{ op with result := some result }] } m
  | startInLoop (pool : EventLoopThreadPool) (base : s.BaseIdle) (starts : 0 < s.starts)
      (hpool : s.pool = some pool) :
      ServerStep build m s .startInLoop
        { s with acceptor := true, status := .kRunning, starts := s.starts - 1,
                 pool := some pool.getNextLoop.2,
                 accepts := s.accepts ++ [⟨pool.getNextLoop.1, none⟩] } m
  | visited (c : Fin n) (rest : List (Fin n)) (cb : DoneCallback) (pass : s.pass = some (c :: rest, cb))
      (connected : (s.world.life c).status ≠ .kConnected) :
      ServerStep build m s .stopNext { s with pass := some (rest, cb) } m
  | closed (c : Fin n) (rest : List (Fin n)) (cb : DoneCallback) (w : World n) (m' : Mem)
      (pass : s.pass = some (c :: rest, cb)) (connected : (s.world.life c).status = .kConnected)
      (done : s.world.exec (.close c) build m = .ok (w, m')) :
      ServerStep build m s .stopNext { s with world := w, pass := some (rest, cb) } m'
  | passed (cb : DoneCallback) (pass : s.pass = some ([], cb)) :
      ServerStep build m s .stopNext { s with stoppedCb := cb, pass := none } m
  | newConnection (op : AcceptOp) (throws : Bool) (op_mem : op ∈ s.accepts) (result : op.result ≠ none)
      (base : s.BaseIdle) (success : throws → op.result = some .success) :
      ServerStep build m s (.newConnection op throws) (s.newConnection op throws) m
  | rejected (ok : Bool) (loop : Nat) (pc : s.pc = .verifying loop) (pass : s.pass = none) (no : ok = false) :
      ServerStep build m s (.verified ok) { s with pc := .accepting } m
  | inserted (c : Fin n) (loop : Nat) (pc : s.pc = .verifying loop) (pass : s.pass = none)
      (next : c.val = s.nextConnId) (io : loop ≠ 0) :
      ServerStep build m s (.verified true)
        { s.insert c loop with establishes := s.establishes ++ [c], pc := .accepting } m
  | established (c : Fin n) (loop : Nat) (w : World n) (m' : Mem) (pc : s.pc = .verifying loop)
      (pass : s.pass = none) (next : c.val = s.nextConnId) (base : loop = 0)
      (done : s.world.exec (.connectEstablished c) build m = .ok (w, m')) :
      ServerStep build m s (.verified true) { s.insert c loop with world := w, pc := .establishing c } m'
  | doAccept (pool : EventLoopThreadPool) (hpool : s.pool = some pool) (acceptor : s.acceptor = true)
      (pass : s.pass = none) :
      ServerStep build m s .doAccept
        { s with pool := some pool.getNextLoop.2,
                 accepts := s.accepts ++ [⟨pool.getNextLoop.1, none⟩], pc := .idle } m
  | runRemove (c : Fin n) (c_mem : c ∈ s.removals) (base : s.BaseIdle) :
      ServerStep build m s (.runRemove c) (removeInLoop { s with removals := s.removals.erase c } c) m
  | stopInloopSafe (cb : DoneCallback) (pool : EventLoopThreadPool) (cb_mem : cb ∈ s.safes)
      (base : s.BaseIdle) (hpool : s.pool = some pool) :
      ServerStep build m s (.stopInloopSafe cb) (s.stoppedWith pool cb) m
  | finishStop (pc : s.pc = .stopped) :
      ServerStep build m s .finishStop { s with status := .kStopped, pc := .idle } m
  | conn (a : Action n) (w : World n) (m' : Mem) (enabled : s.world.Enabled m a)
      (allowed : s.ConnAllowed a) (known : ∀ c, a.conn = some c → c.val < s.nextConnId)
      (idle : ∀ c, a.starts = some c → s.LoopIdle c)
      (done : s.world.exec a build m = .ok (w, m')) :
      ServerStep build m s (.conn a) (s.afterConn a w) m'

theorem stopInLoop_stopping (cb : DoneCallback) :
    (s.stopInLoop cb).wlp build m fun s' m' => m' = m ∧ s.acceptor = true ∧ s' = s.stopping cb := by
  unfold stopInLoop stopping
  dsimp only
  split
  · rename_i hacceptor
    split
    · exact (Prog.wlp_pure ..).mpr ⟨rfl, hacceptor, rfl⟩
    · exact (Prog.wlp_pure ..).mpr ⟨rfl, hacceptor, rfl⟩
  · exact Prog.wlp_throw _ _ _ _

theorem doAccept_accepts :
    s.doAccept.wlp build m fun s' m' => m' = m ∧ s.acceptor = true ∧ ∃ pool, s.pool = some pool ∧
      s' = { s with pool := some pool.getNextLoop.2,
                    accepts := s.accepts ++ [⟨pool.getNextLoop.1, none⟩] } := by
  unfold doAccept
  cases hpool : s.pool with
  | none => exact Prog.wlp_throw _ _ _ _
  | some pool =>
    dsimp only
    split
    · rename_i hacceptor
      exact (Prog.wlp_pure ..).mpr ⟨rfl, hacceptor, pool, rfl, rfl⟩
    · exact Prog.wlp_throw _ _ _ _

theorem stopInloopSafe_stops (cb : DoneCallback) :
    (stopInloopSafe { s with safes := s.safes.erase cb } cb).wlp build m fun s' m' =>
      m' = m ∧ ∃ pool, s.pool = some pool ∧ s' = s.stoppedWith pool cb := by
  unfold stopInloopSafe stopThreadPool
  simp only [onConns, onPieces, Prog.wlp_bind, Prog.wlp_mapFault, wlp_assert]
  intro _ _
  cases hpool : s.pool with
  | none => exact Prog.wlp_throw _ _ _ _
  | some pool =>
    simp only [Prog.wlp_bind, Prog.wlp_mapFault, wlp_assert, Prog.wlp_pure]
    exact fun _ => ⟨trivial, pool, rfl, rfl⟩

theorem exec_step {a : ServerAction n} (enabled : s.Enabled m a)
    (done : s.exec a build m = .ok (s', m')) : ServerStep build m s a s' m' := by
  have hwlp : (s.exec a).wlp build m fun s' m' => ServerStep build m s a s' m' := by
    cases a with
    | start => exact (Prog.wlp_pure ..).mpr (.start enabled)
    | stop cb => exact (Prog.wlp_pure ..).mpr (.stop cb enabled)
    | stopHere cb =>
      refine (stopInLoop_stopping cb).imp ?_
      rintro t _ ⟨hm, hacceptor, ht⟩
      subst hm ht
      exact .stopHere cb enabled.2 hacceptor
    | acceptDone op result =>
      exact (Prog.wlp_pure ..).mpr (.acceptDone op result enabled.1 enabled.2.2)
    | startInLoop =>
      refine doAccept_accepts.imp ?_
      rintro t _ ⟨hm, _, pool, hpool, ht⟩
      subst hm ht
      exact .startInLoop pool enabled.2 enabled.1 hpool
    | stopInLoop cb =>
      refine (stopInLoop_stopping cb).imp ?_
      rintro t _ ⟨hm, hacceptor, ht⟩
      subst hm ht
      exact .stopInLoop cb enabled.2 hacceptor
    | stopNext =>
      simp only [exec, stopNext]
      cases hpass : s.pass with
      | none => exact absurd hpass enabled
      | some pass =>
        obtain ⟨todo, cb⟩ := pass
        cases todo with
        | nil => exact (Prog.wlp_pure ..).mpr (.passed cb hpass)
        | cons c rest =>
          dsimp only
          split
          · rename_i hconnected
            simp only [onConns, Prog.wlp_bind, Prog.wlp_mapFault, Prog.wlp_pure]
            exact fun w m' hw => .closed c rest cb w m' hpass hconnected hw
          · rename_i hconnected
            exact (Prog.wlp_pure ..).mpr (.visited c rest cb hpass hconnected)
    | newConnection op throws =>
      obtain ⟨hop, hresult, hbase, hthrows⟩ := enabled
      exact (Prog.wlp_pure ..).mpr (.newConnection op throws hop hresult hbase hthrows)
    | verified ok =>
      obtain ⟨⟨loop, hpc⟩, hpass, hnext⟩ := enabled
      simp only [exec, hpc, verified]
      cases ok with
      | false => exact (Prog.wlp_pure ..).mpr (.rejected false loop hpc hpass rfl)
      | true =>
        cases hc : s.nextConn with
        | none => exact absurd hc (hnext rfl)
        | some c =>
          have hval : c.val = s.nextConnId := by
            unfold nextConn at hc
            split at hc
            · cases hc; rfl
            · cases hc
          dsimp only
          split
          · rename_i hloop
            simp only [onConns, Prog.wlp_bind, Prog.wlp_mapFault, Prog.wlp_pure]
            exact fun w m' hw => .established c loop w m' hpc hpass hval hloop hw
          · rename_i hloop
            exact (Prog.wlp_pure ..).mpr (.inserted c loop hpc hpass hval hloop)
    | doAccept =>
      simp only [exec, Prog.wlp_bind, Prog.wlp_pure]
      refine doAccept_accepts.imp ?_
      rintro t _ ⟨hm, hacceptor, pool, hpool, ht⟩
      subst hm ht
      exact .doAccept pool hpool hacceptor enabled.1
    | runRemove c => exact (Prog.wlp_pure ..).mpr (.runRemove c enabled.1 enabled.2)
    | stopInloopSafe cb =>
      refine (stopInloopSafe_stops cb).imp ?_
      rintro t _ ⟨hm, pool, hpool, ht⟩
      subst hm ht
      exact .stopInloopSafe cb pool enabled.1 enabled.2.1 hpool
    | finishStop => exact (Prog.wlp_pure ..).mpr (.finishStop enabled)
    | conn a =>
      obtain ⟨henabled, hallowed, hknown, hidle⟩ := enabled
      simp only [exec, execConn, onConns, Prog.wlp_bind, Prog.wlp_mapFault, Prog.wlp_pure]
      exact fun w m' hw => .conn a w m' henabled hallowed hknown (fun c hc => (hidle c hc).1) hw
  exact hwlp s' m' done

/-! ## The invariant -/

/-- `connections_` has the connections that have been accepted and not been closed, or
    been closed and not been removed. -/
structure Tracked (s : TCPServer n) : Prop where
  fresh : ∀ c : Fin n, s.nextConnId ≤ c.val → s.world.life c = {} ∧ c ∉ s.connections ∧ c ∉ s.removals
  alive : ∀ c ∈ s.connections, (s.world.life c).alive = true
  closed : ∀ c : Fin n, c.val < s.nextConnId →
    (c ∈ s.connections ↔ .close ∉ (s.world.life c).log ∨ c ∈ s.removals)
  removing : ∀ c ∈ s.removals, .close ∈ (s.world.life c).log
  connections_nodup : s.connections.Nodup
  removals_nodup : s.removals.Nodup
  pass : ∀ todo cb, s.pass = some (todo, cb) → ∀ c ∈ todo, c ∈ s.connections

theorem Tracked.same (h : Tracked s) (world : s'.world = s.world) (next : s'.nextConnId = s.nextConnId)
    (connections : s'.connections = s.connections) (removals : s'.removals = s.removals)
    (pass : ∀ todo cb, s'.pass = some (todo, cb) → ∀ c ∈ todo, c ∈ s.connections) : Tracked s' := by
  refine ⟨?_, ?_, ?_, ?_, ?_, ?_, ?_⟩
  · rw [world, next, connections, removals]; exact h.fresh
  · rw [world, connections]; exact h.alive
  · rw [world, next, connections, removals]; exact h.closed
  · rw [world, removals]; exact h.removing
  · rw [connections]; exact h.connections_nodup
  · rw [removals]; exact h.removals_nodup
  · rw [connections]; exact pass

theorem Tracked.world (h : Tracked s) (world : World n)
    (fresh : ∀ c : Fin n, s.nextConnId ≤ c.val → world.life c = s.world.life c)
    (alive : ∀ c ∈ s.connections, (world.life c).alive = (s.world.life c).alive)
    (closed : ∀ c, .close ∈ (world.life c).log ↔ .close ∈ (s.world.life c).log) :
    Tracked { s with world := world } := by
  refine ⟨fun c hc => ?_, fun c hc => ?_, fun c hc => ?_, fun c hc => ?_, h.connections_nodup,
    h.removals_nodup, h.pass⟩
  · rw [fresh c hc]
    exact h.fresh c hc
  · rw [alive c hc]
    exact h.alive c hc
  · rw [closed c]
    exact h.closed c hc
  · rw [closed c]
    exact h.removing c hc

theorem Tracked.removeInLoop (h : Tracked s) {c : Fin n} (removals : List (Fin n))
    (hclose : .close ∈ (s.world.life c).log) (known : c.val < s.nextConnId) (pass : s.pass = none)
    (hmem : ∀ d, d ∈ removals ↔ d ∈ s.removals ∧ d ≠ c) (hnodup : removals.Nodup) :
    Tracked (TCPServer.removeInLoop { s with removals := removals } c) := by
  have herase : ∀ d, d ∈ s.connections.erase c ↔ d ∈ s.connections ∧ d ≠ c := fun d => by
    rw [h.connections_nodup.mem_erase_iff]
    exact and_comm
  have hsame : ∀ safes, Tracked { s with connections := s.connections.erase c, removals := removals,
                                         safes := safes } := by
    intro safes
    refine ⟨fun d hd => ?_, fun d hd => ?_, fun d hd => ?_, fun d hd => ?_,
      h.connections_nodup.erase c, hnodup, fun todo cb hpass => ?_⟩
    · obtain ⟨hlife, hconnections, hremovals⟩ := h.fresh d hd
      exact ⟨hlife, fun hin => hconnections ((herase d).mp hin).1, fun hin => hremovals ((hmem d).mp hin).1⟩
    · exact h.alive d ((herase d).mp hd).1
    · show d ∈ s.connections.erase c ↔ .close ∉ (s.world.life d).log ∨ d ∈ removals
      rw [herase d, hmem d, h.closed d hd]
      by_cases hdc : d = c
      · subst hdc
        simp [hclose]
      · simp [hdc]
    · exact h.removing d ((hmem d).mp hd).1
    · cases hpass.symm.trans pass
  unfold TCPServer.removeInLoop
  dsimp only
  split
  · exact hsame _
  · exact hsame _

theorem Tracked.insert (h : Tracked s) {c : Fin n} (loop : Nat) (next : c.val = s.nextConnId)
    (pass : s.pass = none) : Tracked (s.insert c loop) := by
  obtain ⟨hlife, hconnections, hremovals⟩ := h.fresh c next.ge
  have hmem : ∀ d : Fin n, d ∈ s.connections ++ [c] ↔ d ∈ s.connections ∨ d = c := fun d => by
    rw [List.mem_append, List.mem_singleton]
  refine ⟨fun d hd => ?_, fun d hd => ?_, fun d hd => ?_, h.removing, ?_, h.removals_nodup,
    fun todo cb hpass => ?_⟩
  · have hlt : s.nextConnId < d.val := hd
    obtain ⟨hdlife, hdconnections, hdremovals⟩ := h.fresh d hlt.le
    refine ⟨hdlife, fun hin => ?_, hdremovals⟩
    cases (hmem d).mp hin with
    | inl hold => exact hdconnections hold
    | inr hnew =>
      subst hnew
      omega
  · cases (hmem d).mp hd with
    | inl hold => exact h.alive d hold
    | inr hnew =>
      subst hnew
      show (s.world.life d).alive = true
      rw [hlife]
  · show d ∈ s.connections ++ [c] ↔ .close ∉ (s.world.life d).log ∨ d ∈ s.removals
    have hd' : d.val < s.nextConnId + 1 := hd
    rw [hmem d]
    by_cases hdc : d = c
    · subst hdc
      simp [hlife]
    · have hval : d.val ≠ c.val := fun e => hdc (Fin.ext e)
      rw [← h.closed d (by omega)]
      simp [hdc]
  · exact List.nodup_append.mpr ⟨h.connections_nodup, List.nodup_singleton c, fun d hd e he => by
      rw [List.mem_singleton.mp he]
      exact fun heq => hconnections (heq ▸ hd)⟩
  · cases hpass.symm.trans pass

theorem resume_notified {w w' : World n} {c : Fin n} (h : RunOf build (fun _ _ _ => True) w m)
    (done : w.exec (.resume c) build m = .ok (w', m')) (hpc : (w.life c).pc = .notified) :
    .close ∉ (w.life c).log ∧ .close ∈ (w'.life c).log := by
  have hnot : .close ∉ (w.life c).log := fun hclose => by
    have hended := ((h.stage.1 c).of_close hclose).2
    simp [hpc] at hended
  refine ⟨hnot, ?_⟩
  rw [exec_resume_notified done hpc]
  simp [TCPConn.notifyClosed]

theorem Tracked.afterConn (h : Tracked s)
    (hrun : RunOf build (fun _ _ _ => True) s.world m) {a : Action n} {w : World n}
    (enabled : s.world.Enabled m a) (allowed : s.ConnAllowed a)
    (known : ∀ c, a.conn = some c → c.val < s.nextConnId)
    (done : s.world.exec a build m = .ok (w, m')) : Tracked (s.afterConn a w) := by
  have hfresh : ∀ c : Fin n, s.nextConnId ≤ c.val → w.life c = s.world.life c := fun c hc =>
    exec_others done fun hconn => by
      have := known c hconn
      omega
  have halive : ∀ c ∈ s.connections, (w.life c).alive = (s.world.life c).alive := fun c hc =>
    exec_alive done fun ha => by
      subst ha
      exact allowed.1 hc
  by_cases hcloses : ∃ c, a = .resume c ∧ (s.world.life c).pc = .notified
  · -- `close_cb_` is called
    obtain ⟨c, rfl, hpc⟩ := hcloses
    have hknown := known c rfl
    obtain ⟨hnot, hclose⟩ : .close ∉ (s.world.life c).log ∧ .close ∈ (w.life c).log :=
      resume_notified hrun done hpc
    have hremovals : c ∉ s.removals := fun hin => hnot (h.removing c hin)
    have hothers : ∀ d, d ≠ c → w.life d = s.world.life d := fun d hd =>
      exec_others done fun hconn => hd (Option.some.inj hconn).symm
    have hmem : ∀ d : Fin n, d ∈ s.removals ++ [c] ↔ d ∈ s.removals ∨ d = c := fun d => by
      rw [List.mem_append, List.mem_singleton]
    have hposted : Tracked { s with world := w, removals := s.removals ++ [c] } := by
      refine ⟨fun d hd => ?_, fun d hd => ?_, fun d hd => ?_, fun d hd => ?_, h.connections_nodup, ?_,
        h.pass⟩
      · obtain ⟨hlife, hconnections, hdremovals⟩ := h.fresh d hd
        refine ⟨(hfresh d hd).trans hlife, hconnections, fun hin => ?_⟩
        cases (hmem d).mp hin with
        | inl hold => exact hdremovals hold
        | inr hnew =>
          subst hnew
          have hle : s.nextConnId ≤ d.val := hd
          omega
      · exact (halive d hd).trans (h.alive d hd)
      · show d ∈ s.connections ↔ .close ∉ (w.life d).log ∨ d ∈ s.removals ++ [c]
        rw [hmem d, h.closed d hd]
        by_cases hdc : d = c
        · subst hdc
          simp [hnot]
        · simp [hothers d hdc, hdc]
      · cases (hmem d).mp hd with
        | inl hold =>
          show .close ∈ (w.life d).log
          rw [hothers d fun hdc => hremovals (hdc ▸ hold)]
          exact h.removing d hold
        | inr hnew =>
          subst hnew
          exact hclose
      · exact List.nodup_append.mpr ⟨h.removals_nodup, List.nodup_singleton c, fun d hd e he => by
          rw [List.mem_singleton.mp he]
          exact fun heq => hremovals (heq ▸ hd)⟩
    unfold TCPServer.afterConn removeConnection
    dsimp only
    rw [if_pos hpc]
    split
    · rename_i hloop
      refine hposted.removeInLoop s.removals hclose hknown (allowed.2 hloop).1 (fun d => ?_)
        h.removals_nodup
      rw [hmem d]
      constructor
      · exact fun hin => ⟨.inl hin, fun hdc => hremovals (hdc ▸ hin)⟩
      · exact fun hin => hin.1.resolve_right hin.2
    · exact hposted
  · have hclosed : ∀ c, .close ∈ (w.life c).log ↔ .close ∈ (s.world.life c).log := fun c => by
      cases hrun.close_mem enabled done c with
      | inl hiff => exact hiff
      | inr hcalled => exact absurd ⟨c, hcalled.1, hcalled.2.1⟩ hcloses
    have hworld := h.world w hfresh halive hclosed
    unfold TCPServer.afterConn
    cases a with
    | connectEstablished c => exact hworld.same rfl rfl rfl rfl h.pass
    | resume c =>
      dsimp only
      rw [if_neg fun hpc => hcloses ⟨c, rfl, hpc⟩]
      exact hworld
    | _ => exact hworld

theorem Tracked.enabled_connectEstablished (h : Tracked s) {c : Fin n} (next : c.val = s.nextConnId) :
    s.world.Enabled m (.connectEstablished c) := by
  show (s.world.life c).alive = true ∧ (s.world.life c).established = false ∧
    (s.world.life c).pc = .idle
  rw [(h.fresh c next.ge).1]
  exact ⟨rfl, rfl, rfl⟩

theorem Tracked.step (h : Tracked s) (hrun : RunOf build (fun _ _ _ => True) s.world m)
    {a : ServerAction n} (hstep : ServerStep build m s a s' m') : Tracked s' := by
  have hstopping : ∀ (stops : List DoneCallback) (cb : DoneCallback),
      Tracked (stopping { s with stops := stops } cb) := by
    intro stops cb
    unfold stopping
    dsimp only
    split
    · exact h.same rfl rfl rfl rfl h.pass
    · refine h.same rfl rfl rfl rfl fun todo cb' hpass => ?_
      cases hpass
      exact fun c hc => hc
  cases hstep with
  | stopHere cb _ _ => exact hstopping s.stops cb
  | stopInLoop cb _ _ => exact hstopping (s.stops.erase cb) cb
  | visited c rest cb hpass _ =>
    refine h.same rfl rfl rfl rfl fun todo cb' htodo d hd => ?_
    cases htodo
    exact h.pass _ _ hpass d (List.mem_cons_of_mem c hd)
  | closed c rest cb w _ hpass _ done =>
    have hknown : c ∈ s.connections := h.pass _ _ hpass c List.mem_cons_self
    have hlt : c.val < s.nextConnId := by
      by_contra hge
      exact (h.fresh c (Nat.le_of_not_lt hge)).2.1 hknown
    have enabled : s.world.Enabled m (.close c) := ⟨h.alive c hknown, by intro hfalse; cases hfalse⟩
    have hworld : Tracked { s with world := w } := by
      refine h.world w (fun d hd => exec_others done fun hconn => ?_)
        (fun d _ => exec_alive done (by intro ha; cases ha)) fun d => ?_
      · have hdc : c = d := Option.some.inj hconn
        subst hdc
        omega
      · cases hrun.close_mem enabled done d with
        | inl hiff => exact hiff
        | inr hcalled => cases hcalled.1
    refine hworld.same rfl rfl rfl rfl fun todo cb' htodo d hd => ?_
    cases htodo
    exact h.pass _ _ hpass d (List.mem_cons_of_mem c hd)
  | passed cb _ => exact h.same rfl rfl rfl rfl fun todo cb' htodo => by cases htodo
  | newConnection op throws _ _ _ _ =>
    unfold TCPServer.newConnection
    dsimp only
    split <;> exact h.same rfl rfl rfl rfl h.pass
  | inserted c loop _ hpass hnext _ =>
    exact (h.insert loop hnext hpass).same rfl rfl rfl rfl (h.insert loop hnext hpass).pass
  | established c loop w _ _ hpass hnext _ done =>
    have enabled := h.enabled_connectEstablished (m := m) hnext
    have hinsert := h.insert loop hnext hpass
    have hworld := hinsert.world w (fun d hd => exec_others done fun hconn => by
        have hdc : c = d := Option.some.inj hconn
        subst hdc
        have hlt : s.nextConnId + 1 ≤ c.val := hd
        omega)
      (fun d _ => exec_alive done (by intro ha; cases ha)) fun d => by
        cases hrun.close_mem enabled done d with
        | inl hiff => exact hiff
        | inr hcalled => cases hcalled.1
    exact hworld.same rfl rfl rfl rfl hinsert.pass
  | runRemove c hmem hbase =>
    have hknown : c.val < s.nextConnId := by
      by_contra hge
      exact (h.fresh c (Nat.le_of_not_lt hge)).2.2 hmem
    refine h.removeInLoop (s.removals.erase c) (h.removing c hmem) hknown hbase.2.1 (fun d => ?_)
      (h.removals_nodup.erase c)
    rw [h.removals_nodup.mem_erase_iff]
    exact and_comm
  | conn b w _ enabled allowed known _ done => exact h.afterConn hrun enabled allowed known done
  | _ => exact h.same rfl rfl rfl rfl h.pass

/-! ## Runs -/

@[simp] theorem stopping_world (s : TCPServer n) (cb : DoneCallback) : (s.stopping cb).world = s.world := by
  unfold stopping
  dsimp only
  split <;> rfl

@[simp] theorem newConnection_world (s : TCPServer n) (op : AcceptOp) (throws : Bool) :
    (s.newConnection op throws).world = s.world := by
  unfold TCPServer.newConnection
  dsimp only
  split <;> rfl

@[simp] theorem removeInLoop_world (s : TCPServer n) (c : Fin n) :
    (s.removeInLoop c).world = s.world := by
  unfold removeInLoop
  dsimp only
  split <;> rfl

@[simp] theorem afterConn_world (s : TCPServer n) (a : Action n) (w : World n) :
    (s.afterConn a w).world = w := by
  unfold afterConn
  cases a with
  | resume c =>
    dsimp only
    split
    · unfold removeConnection
      split
      · exact removeInLoop_world _ c
      · rfl
    · rfl
  | _ => rfl

/-- What a step of a server does to the connections, as connections. -/
theorem ServerStep.world {a : ServerAction n} (h : ServerStep build m s a s' m') (htracked : Tracked s) :
    (s'.world = s.world ∧ m' = m) ∨
      ∃ b, s.world.Enabled m b ∧ s.world.exec b build m = .ok (s'.world, m') := by
  cases h with
  | stopHere cb _ _ => exact .inl ⟨stopping_world s cb, rfl⟩
  | stopInLoop cb _ _ => exact .inl ⟨stopping_world _ cb, rfl⟩
  | closed c rest cb w _ hpass _ done =>
    have halive := htracked.alive c (htracked.pass _ _ hpass c List.mem_cons_self)
    exact .inr ⟨.close c, ⟨halive, by intro hfalse; cases hfalse⟩, done⟩
  | newConnection op throws _ _ _ _ => exact .inl ⟨newConnection_world s op throws, rfl⟩
  | established c loop w _ _ _ hnext _ done =>
    exact .inr ⟨.connectEstablished c, htracked.enabled_connectEstablished hnext, done⟩
  | runRemove c _ _ => exact .inl ⟨removeInLoop_world _ c, rfl⟩
  | conn b w _ enabled _ _ _ done =>
    rw [afterConn_world]
    exact .inr ⟨b, enabled, done⟩
  | _ => exact .inl ⟨rfl, rfl⟩

/-- In every run of a server its connections run as connections do on their own, and
    the server keeps track of them. -/
theorem run_tracked (h : (machine n threadNum).Run build P as s m) :
    RunOf build (fun _ _ _ => True) s.world m ∧ Tracked s := by
  refine h.invariant (I := fun s m => RunOf build (fun _ _ _ => True) s.world m ∧ Tracked s)
    (fun s m hinit => ?_) fun as s m a s' m' _ ih enabled _ done => ?_
  · obtain ⟨rfl, cell, rfl⟩ := hinit
    refine ⟨.start cell, fun c _ => ⟨rfl, List.not_mem_nil, List.not_mem_nil⟩, ?_, ?_, ?_, List.nodup_nil,
      List.nodup_nil, ?_⟩
    · exact fun c hc => absurd hc List.not_mem_nil
    · exact fun c hc => absurd hc (Nat.not_lt_zero _)
    · exact fun c hc => absurd hc List.not_mem_nil
    · exact fun todo cb hpass => by cases hpass
  · obtain ⟨hrun, htracked⟩ := ih
    have hstep := exec_step enabled done
    refine ⟨?_, htracked.step hrun hstep⟩
    rcases hstep.world htracked with ⟨hworld, rfl⟩ | ⟨b, henabled, hexec⟩
    · rw [hworld]
      exact hrun
    · exact hrun.step b henabled trivial hexec

end TCPServer

end Netpp
