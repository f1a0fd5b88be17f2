import Netpp.Client.TCPClient

/-! # The connections of a client

* `Connects` lists what `connect` does, `ClientStep` what a step of a client does, and
  `exec_step` says that it is all it does.
* `Tracked`: `conn_` is a connection that has not been closed, a connection is being
  closed as connections are unless an exception has left its `handleClose`, and one
  `async_connect` is outstanding at most.
* `run_tracked`: this holds in every run.
-/

namespace Netpp

open Function (update)
open TCPConn

/-- Established, and its close not reported. -/
def Life.Live (l : Life) : Prop := l.established = true ∧ .close ∉ l.log

namespace TCPClient

variable {n : Nat} {build : Build} {m m' : Mem} {s s' : TCPClient n} {a : ClientAction n}
  {P : List (ClientAction n) → TCPClient n → Mem → ClientAction n → Prop}
  {as : List (ClientAction n)} {throws : Bool}

/-! ## What a step does -/

/-- What the function of `connect` does. -/
inductive Connects (s : TCPClient n) : Bool → TCPClient n → Prop
  | refused (throws : Bool) (h : s.refuses = true) : Connects s throws s
  | threw (h : s.refuses = false) (bound : s.localPort ≠ 0) :
      Connects s true { s with isConnecting := true }
  | started (throws : Bool) (h : s.refuses = false) (unbound : throws = true → s.localPort = 0) :
      Connects s throws
        { s with isConnecting := true, attempts := s.attempts ++ [⟨none⟩], started := s.started + 1 }

theorem connect_connects (s : TCPClient n) (throws : Bool) : Connects s throws (s.connect throws) := by
  unfold connect
  cases h : s.refuses with
  | true => exact .refused throws h
  | false =>
    simp only [Bool.false_eq_true, if_false]
    split
    · rename_i hthrows
      rw [hthrows.2]
      exact .threw h hthrows.1
    · rename_i hthrows
      exact .started throws h fun ht => by_contra fun hbound => hthrows ⟨hbound, ht⟩

/-- What a step of a client does. -/
inductive ClientStep (build : Build) (m : Mem) (s : TCPClient n) :
    ClientAction n → TCPClient n → Mem → Prop
  | connect : ClientStep build m s .connect { s with connects := s.connects + 1 } m
  | setAutoReconnect (v : Bool) :
      ClientStep build m s (.setAutoReconnect v) { s with autoReconnect := v } m
  | bind (port : UInt16) : ClientStep build m s (.bind port) { s with localPort := port } m
  | connectHere (throws : Bool) (t : TCPClient n) (inside : s.InCallback) (opens : throws → s.Opens)
      (h : Connects s throws t) : ClientStep build m s (.connectHere throws) t m
  | runConnect (throws : Bool) (t : TCPClient n) (pending : 0 < s.connects) (idle : s.Idle)
      (opens : throws → s.Opens) (h : Connects { s with connects := s.connects - 1 } throws t) :
      ClientStep build m s (.runConnect throws) t m
  | reconnect (throws : Bool) (t : TCPClient n) (pending : 0 < s.timers) (idle : s.Idle)
      (opens : throws → s.Opens) (h : Connects { s with timers := s.timers - 1 } throws t) :
      ClientStep build m s (.reconnect throws) t m
  | disconnected (conn : s.conn = none) :
      ClientStep build m s .disconnect { s with autoReconnect := false } m
  | disconnect (c : Fin n) (w : World n) (m' : Mem) (conn : s.conn = some c)
      (done : s.world.exec (.close c) build m = .ok (w, m')) :
      ClientStep build m s .disconnect { s with autoReconnect := false, world := w } m'
  | connectDone (op : ConnectOp) (result : ConnectResult) (op_mem : op ∈ s.attempts)
      (pending : op.result = none) :
      ClientStep build m s (.connectDone op result)
        { s with attempts := s.attempts.erase op ++ [{ op with result := some result }] } m
  | connected (op : ConnectOp) (c : Fin n) (w : World n) (m' : Mem) (op_mem : op ∈ s.attempts)
      (result : op.result = some .success) (idle : s.Idle) (next : c.val = s.nextId)
      (done : s.world.exec (.connectEstablished c) build m = .ok (w, m')) :
      ClientStep build m s (.newConnection op)
        { s with attempts := s.attempts.erase op, isConnecting := false, world := w,
                 nextId := s.nextId + 1, pc := .establishing c } m'
  | refused (op : ConnectOp) (op_mem : op ∈ s.attempts) (idle : s.Idle) :
      ClientStep build m s (.newConnection op)
        { s with attempts := s.attempts.erase op, isConnecting := false, failures := s.failures + 1,
                 pc := .failed } m
  | established (c : Fin n) (pc : s.pc = .establishing c) (idle : (s.world.life c).pc = .idle) :
      ClientStep build m s .established { s with conn := some c, pc := .idle } m
  | failed (pc : s.pc = .failed) :
      ClientStep build m s .failed
        { s with timers := if s.autoReconnect then s.timers + 1 else s.timers, pc := .idle } m
  | conn (b : Action n) (w : World n) (m' : Mem) (enabled : s.world.Enabled m b)
      (allowed : s.ConnAllowed b) (known : ∀ c, b.conn = some c → c.val < s.nextId)
      (idle : ∀ c, b.starts = some c → s.Idle)
      (stays : ∀ c, b = .resume c → (s.world.life c).pc ≠ .notified)
      (done : s.world.exec b build m = .ok (w, m')) :
      ClientStep build m s (.conn b false) { s with world := w } m'
  | removed (c : Fin n) (w : World n) (m' : Mem) (pc : (s.world.life c).pc = .notified)
      (allowed : s.ConnAllowed (.resume c)) (auto : s.autoReconnect = false)
      (assertion : build = .debug → s.conn = some c)
      (done : s.world.exec (.resume c) build m = .ok (w, m')) :
      ClientStep build m s (.conn (.resume c) false) { s with world := w, conn := none } m'
  | reconnected (c : Fin n) (w : World n) (m' : Mem) (t : TCPClient n)
      (pc : (s.world.life c).pc = .notified) (allowed : s.ConnAllowed (.resume c))
      (auto : s.autoReconnect = true) (assertion : build = .debug → s.conn = some c)
      (done : s.world.exec (.resume c) build m = .ok (w, m'))
      (h : Connects { s with world := w, conn := none } false t) :
      ClientStep build m s (.conn (.resume c) false) t m'
  | unwound (c : Fin n) (w : World n) (m' : Mem) (pc : (s.world.life c).pc = .notified)
      (allowed : s.ConnAllowed (.resume c)) (auto : s.autoReconnect = true)
      (notConnecting : s.isConnecting = false) (bound : s.localPort ≠ 0)
      (done : s.world.exec (.resume c) build m = .ok (w, m')) :
      ClientStep build m s (.conn (.resume c) true)
        (unwind { s with world := w, conn := none, isConnecting := true } c) m'

theorem newConnection_step {op : ConnectOp} (enabled : s.Enabled m (.newConnection op)) :
    (s.newConnection op).wlp build m fun s' m' => ClientStep build m s (.newConnection op) s' m' := by
  obtain ⟨hmem, hresult, hidle, hnext⟩ := enabled
  unfold TCPClient.newConnection
  cases hop : op.result with
  | none => exact absurd hop hresult
  | some result =>
    cases result with
    | failed => exact (Prog.wlp_pure ..).mpr (.refused op hmem hidle)
    | success =>
      cases hc : s.nextConn with
      | none => exact absurd hc (hnext hop)
      | some c =>
        have hval : c.val = s.nextId := by
          unfold nextConn at hc
          split at hc
          · cases hc; rfl
          · cases hc
        have hc' : nextConn { s with attempts := s.attempts.erase op, isConnecting := false } = some c := hc
        simp only [hc', Prog.wlp_bind, Prog.wlp_pure]
        exact fun w m' done => .connected op c w m' hmem hop hidle hval done

theorem execConn_step {b : Action n} (enabled : s.Enabled m (.conn b throws)) :
    (s.execConn b throws).wlp build m fun s' m' => ClientStep build m s (.conn b throws) s' m' := by
  obtain ⟨henabled, hallowed, hknown, hidle, hthrows⟩ := enabled
  unfold execConn
  rw [Prog.wlp_bind]
  intro w m' done
  by_cases hcloses : ∃ c, b = .resume c ∧ (s.world.life c).pc = .notified
  · obtain ⟨c, rfl, hpc⟩ := hcloses
    simp only [if_pos hpc, removeConnection, onPieces, Prog.wlp_bind, Prog.wlp_mapFault, wlp_assert,
      Prog.wlp_pure]
    intro hassert
    have hconn : build = .debug → s.conn = some c := fun hbuild => by simpa using hassert hbuild
    cases throws with
    | false =>
      simp only [Bool.false_eq_true, if_false]
      split
      · rename_i hauto
        exact .reconnected c w m' _ hpc hallowed hauto hconn done (connect_connects _ false)
      · rename_i hauto
        exact .removed c w m' hpc hallowed (by simpa using hauto) hconn done
    | true =>
      obtain ⟨⟨_, _, _, hauto⟩, hnot, hbound⟩ := hthrows rfl
      have hconnect : connect { s with world := w, conn := none } true =
          { s with world := w, conn := none, isConnecting := true } := by
        simp [connect, refuses, hnot, hbound]
      rw [if_pos rfl, if_pos hauto, hconnect]
      exact .unwound c w m' hpc hallowed hauto hnot hbound done
  · have hstays : ∀ c, b = .resume c → (s.world.life c).pc ≠ .notified := fun c hb hpc =>
      hcloses ⟨c, hb, hpc⟩
    cases throws with
    | true =>
      obtain ⟨⟨c, hb, hpc, _⟩, _⟩ := hthrows rfl
      exact absurd hpc (hstays c hb)
    | false =>
      have hstep : ClientStep build m s (.conn b false) { s with world := w } m' :=
        .conn b w m' henabled hallowed hknown hidle hstays done
      cases b with
      | resume c =>
        dsimp only
        rw [if_neg (hstays c rfl)]
        exact (Prog.wlp_pure ..).mpr hstep
      | _ => exact (Prog.wlp_pure ..).mpr hstep

theorem exec_step (enabled : s.Enabled m a) (done : s.exec a build m = .ok (s', m')) :
    ClientStep build m s a s' m' := by
  have hwlp : (s.exec a).wlp build m fun s' m' => ClientStep build m s a s' m' := by
    cases a with
    | connect => exact (Prog.wlp_pure ..).mpr .connect
    | setAutoReconnect v => exact (Prog.wlp_pure ..).mpr (.setAutoReconnect v)
    | bind port => exact (Prog.wlp_pure ..).mpr (.bind port)
    | connectHere throws =>
      exact (Prog.wlp_pure ..).mpr
        (.connectHere throws _ enabled.1 enabled.2 (connect_connects s throws))
    | disconnect =>
      simp only [exec, TCPClient.disconnect]
      split
      · rename_i c hconn
        simp only [onPieces, Prog.wlp_bind, Prog.wlp_mapFault, wlp_assert, Prog.wlp_pure]
        exact fun _ w m' done => .disconnect c w m' hconn done
      · rename_i hconn
        exact (Prog.wlp_pure ..).mpr (.disconnected hconn)
    | connectDone op result => exact (Prog.wlp_pure ..).mpr (.connectDone op result enabled.1 enabled.2)
    | runConnect throws =>
      exact (Prog.wlp_pure ..).mpr
        (.runConnect throws _ enabled.1 enabled.2.1 enabled.2.2 (connect_connects _ throws))
    | newConnection op => exact newConnection_step enabled
    | established =>
      obtain ⟨c, hpc, hidle⟩ := enabled
      simp only [exec, TCPClient.established, hpc]
      exact (Prog.wlp_pure ..).mpr (.established c hpc hidle)
    | failed => exact (Prog.wlp_pure ..).mpr (.failed enabled)
    | reconnect throws =>
      exact (Prog.wlp_pure ..).mpr
        (.reconnect throws _ enabled.1 enabled.2.1 enabled.2.2 (connect_connects _ throws))
    | conn b throws => exact execConn_step enabled
  exact hwlp s' m' done

/-! ## The invariant -/

/-- The connections of a client, the first `nextId` of which have been created: they are
    being closed as connections are, unless an exception has left their
    `handleClose`. -/
structure Followed (w : World n) (nextId : Nat) (unwound : List (Fin n)) : Prop where
  born : w.Born
  fresh : ∀ c : Fin n, nextId ≤ c.val → w.life c = {}
  lives : ∀ c, c ∉ unwound → Stage (w.life c) ∧ Requested (w.life c)
  unwound : ∀ c ∈ unwound, (w.life c).established = true ∧ .close ∈ (w.life c).log

section Followed

variable {w w' : World n} {nextId : Nat} {unwound : List (Fin n)} {b : Action n} {c : Fin n}

theorem Followed.established (h : Followed w nextId unwound) (busy : (w.life c).pc ≠ .idle) :
    (w.life c).established = true := by
  by_cases hc : c ∈ unwound
  · exact (h.unwound c hc).1
  · by_contra hnot
    exact busy ((h.lives c hc).1.idle_of_unborn (by simpa using hnot))

theorem Followed.step (h : Followed w nextId unwound) (enabled : w.Enabled m b)
    (known : ∀ c, b.conn = some c → c.val < nextId) (done : w.exec b build m = .ok (w', m')) :
    Followed w' nextId unwound := by
  refine ⟨h.born.step (fun c hc => ?_) enabled done, fun c hc => ?_, fun c hc => ?_, fun c hc => ?_⟩
  · by_contra hbusy
    rw [h.established hbusy] at hc
    cases hc
  · rw [exec_others done fun hconn => absurd (known c hconn) (Nat.not_lt.mpr hc)]
    exact h.fresh c hc
  · obtain ⟨hstage, hrequested⟩ := h.lives c hc
    cases exec_lifeStep h.born enabled done c with
    | inl hsame => rw [hsame]; exact ⟨hstage, hrequested⟩
    | inr hstep => exact ⟨hstep.stage hstage, hstep.requested hrequested⟩
  · obtain ⟨hestablished, hclose⟩ := h.unwound c hc
    cases exec_lifeStep h.born enabled done c with
    | inl hsame => rw [hsame]; exact ⟨hestablished, hclose⟩
    | inr hstep =>
      refine ⟨?_, hstep.log.subset hclose⟩
      by_contra hnot
      rw [hstep.established (by simpa using hnot)] at hestablished
      cases hestablished

/-- An exception leaves `handleClose` when `close_cb_` has been called. -/
theorem Followed.unwind (h : Followed w nextId unwound) (hc : c.val < nextId)
    (hestablished : (w.life c).established = true) (hclose : .close ∈ (w.life c).log) :
    Followed (w.setLife c { w.life c with pc := .idle }) nextId (unwound ++ [c]) := by
  have hself : (w.setLife c { w.life c with pc := .idle }).life c = { w.life c with pc := .idle } :=
    Function.update_self ..
  have hother : ∀ d, d ≠ c → (w.setLife c { w.life c with pc := .idle }).life d = w.life d :=
    fun d hd => Function.update_of_ne hd ..
  refine ⟨fun d hd => ?_, fun d hd => ?_, fun d hd => ?_, fun d hd => ?_⟩
  · by_cases hdc : d = c
    · subst hdc
      rw [hself] at hd
      cases hd.symm.trans hestablished
    · rw [hother d hdc] at hd
      exact h.born d hd
  · rw [hother d fun hdc => by subst hdc; omega]
    exact h.fresh d hd
  · rw [hother d fun hdc => hd (List.mem_append.mpr (.inr (List.mem_singleton.mpr hdc)))]
    exact h.lives d fun hin => hd (List.mem_append_left _ hin)
  · by_cases hdc : d = c
    · subst hdc
      rw [hself]
      exact ⟨hestablished, hclose⟩
    · rw [hother d hdc]
      exact h.unwound d ((List.mem_append.mp hd).resolve_right fun hin => hdc (List.mem_singleton.mp hin))

theorem Followed.live (h : Followed w nextId unwound) (enabled : w.Enabled m b)
    (done : w.exec b build m = .ok (w', m')) (hnew : b ≠ .connectEstablished c)
    (hclose : b = .resume c → (w.life c).pc ≠ .notified) :
    (w'.life c).Live ↔ (w.life c).Live := by
  unfold Life.Live
  rw [exec_established done hnew]
  cases exec_close_mem h.born enabled done c with
  | inl hiff => rw [hiff]
  | inr hcalled => exact absurd hcalled.2.1 (hclose hcalled.1)

end Followed

/-- What a client knows of its connections, and of its connects. -/
structure Tracked (s : TCPClient n) : Prop where
  followed : Followed s.world s.nextId s.unwound
  conn : ∀ c, s.conn = some c → (s.world.life c).alive = true ∧ (s.world.life c).Live
  establishing : ∀ c, s.pc = .establishing c →
    (s.world.life c).alive = true ∧ (s.world.life c).Live ∧ (s.world.life c).pc.Announcing
  attempts : s.attempts.length ≤ 1 ∧ (s.attempts ≠ [] → s.isConnecting = true)

theorem Tracked.attempts_nil (h : Tracked s) (hnot : s.isConnecting = false) : s.attempts = [] := by
  by_contra hne
  rw [h.attempts.2 hne] at hnot
  cases hnot

theorem Tracked.erase_nil (h : Tracked s) {op : ConnectOp} (hop : op ∈ s.attempts) :
    s.attempts.erase op = [] := by
  have hlength := List.length_erase_of_mem hop
  have hone := h.attempts.1
  exact List.length_eq_zero_iff.mp (by omega)

theorem refuses_eq_false (h : s.refuses = false) : s.isConnecting = false := by
  unfold refuses at h
  exact (Bool.or_eq_false_iff.mp h).1

theorem Tracked.connects {t : TCPClient n} (h : Tracked s) (hconnects : Connects s throws t) :
    Tracked t := by
  cases hconnects with
  | refused _ _ => exact h
  | threw _ _ => exact ⟨h.followed, h.conn, h.establishing, h.attempts.1, fun _ => rfl⟩
  | started _ hrefuses _ =>
    refine ⟨h.followed, h.conn, h.establishing, ?_, fun _ => rfl⟩
    simp [h.attempts_nil (refuses_eq_false hrefuses)]

theorem Tracked.world (h : Tracked s) {b : Action n} {w : World n} (enabled : s.world.Enabled m b)
    (allowed : s.ConnAllowed b) (known : ∀ c, b.conn = some c → c.val < s.nextId)
    (idle : ∀ c, b.starts = some c → s.Idle)
    (stays : ∀ c, s.conn = some c → b = .resume c → (s.world.life c).pc ≠ .notified)
    (done : s.world.exec b build m = .ok (w, m')) : Tracked { s with world := w } := by
  have hnew : ∀ c, b ≠ .connectEstablished c := fun c hb => by
    subst hb
    exact allowed
  refine ⟨h.followed.step enabled known done, fun c hc => ?_, fun c hc => ?_, h.attempts⟩
  · obtain ⟨halive, hlive⟩ := h.conn c hc
    refine ⟨?_, (h.followed.live enabled done (hnew c) (stays c hc)).mpr hlive⟩
    rw [exec_alive done fun hb => by subst hb; exact allowed.1 hc]
    exact halive
  · obtain ⟨halive, hlive, hpc⟩ := h.establishing c hc
    refine ⟨?_, (h.followed.live enabled done (hnew c) fun _ => hpc.not_notified).mpr hlive,
      exec_announcing enabled done hpc fun hb => ?_⟩
    · rw [exec_alive done fun hb => by subst hb; exact allowed.2 hc]
      exact halive
    · have hidle := (idle c hb).1
      rw [hc] at hidle
      cases hidle

theorem Tracked.known (h : Tracked s) {c : Fin n} (hc : s.world.life c ≠ {}) : c.val < s.nextId := by
  by_contra hge
  exact hc (h.followed.fresh c (Nat.le_of_not_lt hge))

theorem Tracked.removed (h : Tracked s) {c : Fin n} {w : World n}
    (pc : (s.world.life c).pc = .notified) (allowed : s.ConnAllowed (.resume c))
    (done : s.world.exec (.resume c) build m = .ok (w, m')) :
    Tracked { s with world := w, conn := none } := by
  have hnone : Tracked { s with conn := none } :=
    ⟨h.followed, fun d hd => (by cases hd), h.establishing, h.attempts⟩
  have enabled : s.world.Enabled m (.resume c) := by
    show (s.world.life c).pc ≠ .idle
    rw [pc]
    decide
  refine hnone.world enabled allowed (fun d hd => ?_) (fun d hd => (by cases hd))
    (fun d hd => (by cases hd)) done
  obtain rfl : c = d := Option.some.inj hd
  exact h.known fun hfresh => by rw [hfresh] at pc; cases pc

theorem Tracked.closed (h : Tracked s) {c : Fin n} {w : World n} (hconn : s.conn = some c)
    (done : s.world.exec (.close c) build m = .ok (w, m')) : Tracked { s with world := w } := by
  obtain ⟨halive, hlive⟩ := h.conn c hconn
  have enabled : s.world.Enabled m (.close c) := ⟨halive, by intro hfalse; cases hfalse⟩
  refine h.world enabled trivial (fun d hd => ?_) (fun d hd => (by cases hd))
    (fun d _ hd => (by cases hd)) done
  obtain rfl : c = d := Option.some.inj hd
  exact h.known fun hfresh => by rw [hfresh] at hlive; cases hlive.1

theorem Tracked.connected (h : Tracked s) {c : Fin n} {w : World n} (hnext : c.val = s.nextId)
    (done : s.world.exec (.connectEstablished c) build m = .ok (w, m')) :
    Followed w (s.nextId + 1) s.unwound ∧ (∀ d, s.conn = some d → d ≠ c) ∧
      (∀ d, d ≠ c → w.life d = s.world.life d) ∧ w.life c = TCPConn.connectEstablished {} := by
  have hfresh := h.followed.fresh c hnext.ge
  have enabled : s.world.Enabled m (.connectEstablished c) := by
    show (s.world.life c).alive = true ∧ (s.world.life c).established = false ∧
      (s.world.life c).pc = .idle
    rw [hfresh]
    exact ⟨rfl, rfl, rfl⟩
  have hmore : Followed s.world (s.nextId + 1) s.unwound :=
    ⟨h.followed.born, fun d hd => h.followed.fresh d (Nat.le_of_succ_le hd), h.followed.lives,
      h.followed.unwound⟩
  refine ⟨hmore.step enabled (fun d hd => ?_) done, fun d hd hdc => ?_, fun d hd => ?_, ?_⟩
  · obtain rfl : c = d := Option.some.inj hd
    omega
  · subst hdc
    have hlive := (h.conn d hd).2.1
    rw [hfresh] at hlive
    cases hlive
  · exact exec_others done fun hconn => hd (Option.some.inj hconn).symm
  · have hwlp : (s.world.exec (.connectEstablished c)).wlp build m fun w _ =>
        w.life c = TCPConn.connectEstablished (s.world.life c) :=
      (Prog.wlp_pure ..).mpr (Function.update_self ..)
    rw [hwlp w m' done, hfresh]

theorem Tracked.step (h : Tracked s) (hstep : ClientStep build m s a s' m') : Tracked s' := by
  cases hstep with
  | connectHere throws t _ _ hconnects => exact h.connects hconnects
  | runConnect throws t _ _ _ hconnects =>
    have hsame : Tracked { s with connects := s.connects - 1 } :=
      ⟨h.followed, h.conn, h.establishing, h.attempts⟩
    exact hsame.connects hconnects
  | reconnect throws t _ _ _ hconnects =>
    have hsame : Tracked { s with timers := s.timers - 1 } :=
      ⟨h.followed, h.conn, h.establishing, h.attempts⟩
    exact hsame.connects hconnects
  | disconnect c w _ hconn done =>
    have hclosed := h.closed hconn done
    exact ⟨hclosed.followed, hclosed.conn, hclosed.establishing, hclosed.attempts⟩
  | connectDone op result hop _ =>
    refine ⟨h.followed, h.conn, h.establishing, ?_, fun _ => h.attempts.2 (List.ne_nil_of_mem hop)⟩
    simp [h.erase_nil hop]
  | connected op c w _ hop _ hidle hnext done =>
    obtain ⟨hfollowed, hconn, hothers, hlife⟩ := h.connected hnext done
    have hnil := h.erase_nil hop
    refine ⟨hfollowed, fun d hd => ?_, fun d hd => ?_, by simp [hnil], fun hne => absurd hnil hne⟩
    · rw [hothers d (hconn d hd)]
      exact h.conn d hd
    · cases hd
      rw [hlife]
      exact ⟨rfl, ⟨rfl, List.not_mem_nil⟩, .inr (.inl rfl)⟩
  | refused op hop _ =>
    have hnil := h.erase_nil hop
    exact ⟨h.followed, h.conn, fun d hd => (by cases hd), by simp [hnil], fun hne => absurd hnil hne⟩
  | established c hpc _ =>
    refine ⟨h.followed, fun d hd => ?_, fun d hd => (by cases hd), h.attempts⟩
    obtain rfl : c = d := Option.some.inj hd
    exact ⟨(h.establishing c hpc).1, (h.establishing c hpc).2.1⟩
  | failed hpc => exact ⟨h.followed, h.conn, fun d hd => (by cases hd), h.attempts⟩
  | conn b w _ enabled allowed known idle stays done =>
    exact h.world enabled allowed known idle (fun c _ hb => stays c hb) done
  | removed c w _ hpc allowed _ _ done => exact h.removed hpc allowed done
  | reconnected c w _ t hpc allowed _ _ done hconnects =>
    exact (h.removed hpc allowed done).connects hconnects
  | unwound c w _ hpc allowed _ _ _ done =>
    have hremoved := h.removed hpc allowed done
    have hknown := h.known fun hfresh => by rw [hfresh] at hpc; cases hpc
    have hestablished : (w.life c).established = true := by
      rw [exec_established done (by intro hb; cases hb)]
      exact h.followed.established (by rw [hpc]; decide)
    have hclose : .close ∈ (w.life c).log := by
      rw [exec_resume_notified done hpc]
      simp [TCPConn.notifyClosed]
    have hpcs : ∀ d, s.pc = .establishing d → d ≠ c := fun d hd hdc => by
      subst hdc
      exact (h.establishing d hd).2.2.not_notified hpc
    refine ⟨hremoved.followed.unwind hknown hestablished hclose, fun d hd => (by cases hd), fun d hd => ?_,
      h.attempts.1, fun _ => rfl⟩
    have hsame : (w.setLife c { w.life c with pc := .idle }).life d = w.life d :=
      Function.update_of_ne (hpcs d hd) ..
    obtain ⟨halive, hlive, hannouncing⟩ := hremoved.establishing d hd
    exact ⟨hsame ▸ halive, hsame ▸ hlive, hsame ▸ hannouncing⟩
  | _ => exact ⟨h.followed, h.conn, h.establishing, h.attempts⟩

/-! ## Runs -/

theorem run_tracked (h : (machine n).Run build P as s m) : Tracked s := by
  refine h.invariant (I := fun s _ => Tracked s) (fun s m hinit => ?_)
    fun as s m a s' m' _ ih enabled _ done => ih.step (exec_step enabled done)
  obtain ⟨rfl, _⟩ := hinit
  have hfollowed : Followed ({} : World n) 0 [] :=
    ⟨fun c _ => rfl, fun c _ => rfl,
      fun c _ => ⟨.unborn rfl rfl rfl rfl rfl ⟨rfl, rfl, rfl⟩, by intro hstatus; cases hstatus⟩,
      fun c hc => absurd hc List.not_mem_nil⟩
  exact ⟨hfollowed, fun c hc => (by cases hc), fun c hc => (by cases hc), Nat.zero_le _,
    fun hne => absurd rfl hne⟩

theorem next (h : (machine n).Run build P as s m) (a : ClientAction n) (enabled : s.Enabled m a)
    (condition : P as s m a) (done : s.exec a build m = .ok (s', m')) :
    (machine n).Run build P (as ++ [a]) s' m' := h.step a enabled condition done

end TCPClient

end Netpp
