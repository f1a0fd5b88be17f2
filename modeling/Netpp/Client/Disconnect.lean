import Netpp.Client.Tracking

/-! # Disconnecting

`disconnect` clears `auto_reconnect_` and closes `conn_`.  It knows nothing of an
`async_connect` or a timer that is under way: `disconnect_final` says that after it nothing is
connected any more, if nothing was under way and no other connection was connected.
-/

namespace Netpp

open Function (update)
open TCPConn

/-- A connection is closed or being closed, or a request to close it is pending. -/
def Life.CloseRequested (l : Life) : Prop :=
  l.status = .kDisconnected ∨ l.status = .kDisconnecting ∧ (l.pc.isClosing = true ∨ 0 < l.requests)

theorem Requested.closeRequested {l : Life} (h : Requested l) (hl : l.status ≠ .kConnected) :
    l.CloseRequested := by
  cases hstatus : l.status with
  | kConnected => exact absurd hstatus hl
  | kDisconnected => exact .inl hstatus
  | kDisconnecting =>
    cases hpc : l.pc.isClosing with
    | true => exact .inr ⟨hstatus, .inl hpc⟩
    | false => exact .inr ⟨hstatus, .inr (h hstatus hpc)⟩

namespace TCPClient

variable {n : Nat} {build : Build} {m m' : Mem} {s s' t t' : TCPClient n} {a : ClientAction n}
  {P : List (ClientAction n) → TCPClient n → Mem → ClientAction n → Prop}
  {as : List (ClientAction n)} {throws : Bool}

/-! ## After `disconnect` -/

/-- Nothing is under way that may connect, and no connection but `conn_` is connected. -/
structure Quiet (s : TCPClient n) : Prop where
  attempts : ∀ op ∈ s.attempts, op.result = some .failed
  timers : s.timers = 0
  connects : s.connects = 0
  connected : ∀ c, (s.world.life c).status = .kConnected → s.conn = some c

/-- The application does not ask the client to connect again. -/
def StaysDisconnected (_ : TCPClient n) (_ : Mem) : ClientAction n → Prop
  | .connect | .connectHere _ => False
  | .setAutoReconnect v => v = false
  | _ => True

/-- State `t` has come after a `disconnect` in state `s`. -/
structure Final (s t : TCPClient n) : Prop where
  autoReconnect : t.autoReconnect = false
  attempts : ∀ op ∈ t.attempts, op.result = some .failed
  timers : t.timers = 0
  connects : t.connects = 0
  started : t.started = s.started
  unwound : t.unwound = s.unwound
  established : ∀ c, (t.world.life c).established = (s.world.life c).established
  closing : ∀ c, (s.world.life c).Live → (t.world.life c).status ≠ .kConnected

theorem Final.world (h : Final s t) (htracked : Tracked t) {b : Action n} {w : World n}
    (enabled : t.world.Enabled m b) (allowed : t.ConnAllowed b)
    (done : t.world.exec b build m = .ok (w, m')) : Final s { t with world := w } := by
  have hnew : ∀ c, b ≠ .connectEstablished c := fun c hb => by
    subst hb
    exact allowed
  refine ⟨h.autoReconnect, h.attempts, h.timers, h.connects, h.started, h.unwound, fun c => ?_,
    fun c hc => ?_⟩
  · exact (exec_established done (hnew c)).trans (h.established c)
  · cases exec_lifeStep htracked.followed.born enabled done c with
    | inl hsame =>
      show (w.life c).status ≠ .kConnected
      rw [hsame]
      exact h.closing c hc
    | inr hstep => exact (hstep.not_connected ((h.established c).trans hc.1) (h.closing c hc)).2

theorem Final.step (h : Final s t) (htracked : Tracked t) (condition : StaysDisconnected t m a)
    (hstep : ClientStep build m t a t' m') : Final s t' := by
  cases hstep with
  | connect => exact condition.elim
  | setAutoReconnect v =>
    exact ⟨condition, h.attempts, h.timers, h.connects, h.started, h.unwound, h.established, h.closing⟩
  | connectHere _ _ _ _ _ => exact condition.elim
  | runConnect _ _ hpending _ _ _ =>
    rw [h.connects] at hpending
    exact absurd hpending (Nat.lt_irrefl 0)
  | reconnect _ _ hpending _ _ _ =>
    rw [h.timers] at hpending
    exact absurd hpending (Nat.lt_irrefl 0)
  | disconnected _ =>
    exact ⟨rfl, h.attempts, h.timers, h.connects, h.started, h.unwound, h.established, h.closing⟩
  | disconnect c w _ hconn done =>
    have enabled : t.world.Enabled m (.close c) :=
      ⟨(htracked.conn c hconn).1, by intro hfalse; cases hfalse⟩
    have hworld := h.world htracked enabled trivial done
    exact ⟨rfl, h.attempts, h.timers, h.connects, h.started, h.unwound, hworld.established, hworld.closing⟩
  | connectDone op _ hop hpending => cases (h.attempts op hop).symm.trans hpending
  | connected op _ _ _ hop hsuccess _ _ _ => cases (h.attempts op hop).symm.trans hsuccess
  | refused op hop _ =>
    exact ⟨h.autoReconnect, fun op' hop' => h.attempts op' (List.mem_of_mem_erase hop'), h.timers,
      h.connects, h.started, h.unwound, h.established, h.closing⟩
  | failed _ =>
    refine ⟨h.autoReconnect, h.attempts, ?_, h.connects, h.started, h.unwound, h.established, h.closing⟩
    show (if t.autoReconnect = true then t.timers + 1 else t.timers) = 0
    rw [h.autoReconnect]
    exact h.timers
  | conn b w _ enabled allowed _ _ _ done => exact h.world htracked enabled allowed done
  | removed c w _ hpc allowed _ _ done =>
    have enabled : t.world.Enabled m (.resume c) := by
      show (t.world.life c).pc ≠ .idle
      rw [hpc]
      decide
    have hworld := h.world htracked enabled allowed done
    exact ⟨h.autoReconnect, h.attempts, h.timers, h.connects, h.started, h.unwound, hworld.established,
      hworld.closing⟩
  | reconnected _ _ _ _ _ _ hauto _ _ _ => exact absurd (hauto.symm.trans h.autoReconnect) (by decide)
  | unwound _ _ _ _ _ hauto _ _ _ => exact absurd (hauto.symm.trans h.autoReconnect) (by decide)
  | _ =>
    exact ⟨h.autoReconnect, h.attempts, h.timers, h.connects, h.started, h.unwound, h.established,
      h.closing⟩

theorem exec_close_status {w w' : World n} {c : Fin n} (done : w.exec (.close c) build m = .ok (w', m')) :
    (w'.life c).status ≠ .kConnected := by
  have hwlp : (w.exec (.close c)).wlp build m fun w' _ => w'.life c = TCPConn.close (w.life c) :=
    (Prog.wlp_pure ..).mpr (Function.update_self ..)
  rw [hwlp w' m' done]
  unfold TCPConn.close compareExchange
  split
  · intro hstatus
    cases hstatus
  · assumption

theorem Quiet.final (quiet : Quiet s) (hstep : ClientStep build m s .disconnect t m') : Final s t := by
  cases hstep with
  | disconnected hnone =>
    refine ⟨rfl, quiet.attempts, quiet.timers, quiet.connects, rfl, rfl, fun _ => rfl, fun c _ hc => ?_⟩
    cases (quiet.connected c hc).symm.trans hnone
  | disconnect c w _ hconn done =>
    refine ⟨rfl, quiet.attempts, quiet.timers, quiet.connects, rfl, rfl, fun d => ?_, fun d _ => ?_⟩
    · exact exec_established done (by intro hb; cases hb)
    · by_cases hdc : d = c
      · subst hdc
        exact exec_close_status done
      · intro hstatus
        have hsame : w.life d = s.world.life d := exec_others done fun hb => hdc (Option.some.inj hb).symm
        have hd := quiet.connected d (hsame ▸ hstatus)
        exact hdc (Option.some.inj (hd.symm.trans hconn))

/-- A `disconnect` that runs when nothing is under way that may connect is final: from
    then on, as long as the application does not ask for it, no `async_connect` is
    started, no connection is established, and those there were have a close
    requested. -/
theorem disconnect_final {m₁ : Mem} (h : (machine n).Run build P as s m) (quiet : Quiet s)
    (enabled : s.Enabled m .disconnect) (done : s.exec .disconnect build m = .ok (t, m₁))
    (rest : (machine n).Stretch build StaysDisconnected t m₁ t' m') :
    t'.started = s.started ∧
    (∀ c, (t'.world.life c).established = (s.world.life c).established) ∧
    ∀ c, (s.world.life c).Live → (t'.world.life c).CloseRequested := by
  have hfinal : Tracked t' ∧ Final s t' := by
    induction rest with
    | nil =>
      have hstep := exec_step enabled done
      exact ⟨(run_tracked h).step hstep, quiet.final hstep⟩
    | step a _ henabled condition hdone ih =>
      have hstep := exec_step henabled hdone
      exact ⟨ih.1.step hstep, ih.2.step ih.1 condition hstep⟩
  obtain ⟨htracked, hfinal⟩ := hfinal
  refine ⟨hfinal.started, hfinal.established, fun c hc => ?_⟩
  have hkept : c ∉ t'.unwound := fun hin =>
    hc.2 ((run_tracked h).followed.unwound c (hfinal.unwound ▸ hin)).2
  exact (htracked.followed.lives c hkept).2.closeRequested (hfinal.closing c hc)

/-- A connected client is disconnected, and its close task runs. -/
theorem disconnect_final_connected :
    ∃ (as : List (ClientAction 1)) (s t' : TCPClient 1) (m : Mem),
      (machine 1).Run .debug (fun _ _ _ _ => True) as s m ∧ (s.world.life 0).Live ∧
      (t'.world.life 0).CloseRequested ∧ (t'.world.life 0).closes = 1 := by
  have r : (machine 1).Run .debug (fun _ _ _ _ => True) [] {} emptyMem := .start ⟨rfl, _, rfl⟩
  have r := next r .connect trivial trivial rfl
  have r := next r (.runConnect false) ⟨Nat.one_pos, ⟨rfl, fun _ => rfl⟩, by intro h; cases h⟩ trivial rfl
  have r := next r (.connectDone ⟨none⟩ .success) ⟨.head _, rfl⟩ trivial rfl
  have r := next r (.newConnection ⟨some .success⟩)
    ⟨.head _, (by intro h; cases h), ⟨rfl, fun _ => rfl⟩, by intro _ h; cases h⟩ trivial rfl
  have r := next r (.conn (.resume 0) false) ⟨(by intro h; cases h), .inr rfl, fun c _ => c.isLt,
    fun c h => (by cases h), by intro h; cases h⟩ trivial rfl
  have r := next r (.conn (.resume 0) false) ⟨(by intro h; cases h), .inr rfl, fun c _ => c.isLt,
    fun c h => (by cases h), by intro h; cases h⟩ trivial rfl
  have r := next r .established ⟨0, rfl, rfl⟩ trivial rfl
  have hlive : ∀ c ∈ [ConnCallback.connection .kConnected], c ≠ .close := by decide
  have hone : ∀ c : Fin 1, some (0 : Fin 1) = some c := by decide
  exact ⟨_, _, _, _, r, ⟨rfl, fun hclose => hlive _ hclose rfl⟩,
    (disconnect_final r ⟨fun op hop => absurd hop List.not_mem_nil, rfl, rfl,
      fun c _ => hone c⟩ (.inl ⟨rfl, fun d => match d with | 0 => rfl⟩) rfl
      (.step (.conn (.closeGoesOn 0 .queueing) false) .nil ⟨.head _, trivial, fun c _ => c.isLt,
        fun c h => (by cases h), by intro h; cases h⟩ trivial rfl)).2.2
      0 ⟨rfl, fun hclose => hlive _ hclose rfl⟩, rfl⟩

/-- `disconnect` while a connect is in flight: the connection is established afterwards. -/
theorem inflight_connect_survives :
    ¬ ∀ (n : Nat) (build : Build) (as : List (ClientAction n)) (s t t' : TCPClient n) (m m₁ m' : Mem),
      (machine n).Run build (fun _ _ _ _ => True) as s m → s.Enabled m .disconnect →
      s.exec .disconnect build m = .ok (t, m₁) →
      (machine n).Stretch build StaysDisconnected t m₁ t' m' →
      t'.started = s.started ∧
      (∀ c, (t'.world.life c).established = (s.world.life c).established) ∧
      ∀ c, (s.world.life c).Live → (t'.world.life c).CloseRequested := by
  intro hfinal
  have r : (machine 1).Run .debug (fun _ _ _ _ => True) [] {} emptyMem := .start ⟨rfl, _, rfl⟩
  have r := next r .connect trivial trivial rfl
  have r := next r (.runConnect false) ⟨Nat.one_pos, ⟨rfl, fun _ => rfl⟩, by intro h; cases h⟩ trivial rfl
  have hsame := (hfinal 1 _ _ _ _ _ _ _ _ r (.inl ⟨rfl, fun _ => rfl⟩) rfl
    (.step (.newConnection ⟨some .success⟩) (.step (.connectDone ⟨none⟩ .success) .nil ⟨.head _, rfl⟩ trivial
      rfl) ⟨.head _, (by intro h; cases h), ⟨rfl, fun _ => rfl⟩, by intro _ h; cases h⟩ trivial rfl)).2.1 0
  cases hsame

end TCPClient

end Netpp
