import Netpp.Client.Disconnect
import Netpp.Conn.HandleClose

/-! # Repeating `disconnect`

`disconnect` leaves `conn_` set until `close_cb_` is called, and asserts that `conn_` is
neither disconnecting nor disconnected.  Whether its assertion holds, and whether a repeated
call does anything, is read off the history here: what the application has asked for, which
connections have come up and which have begun to close.

* `run_open`: as long as no close of `conn_` has begun it is `kConnected`.
* `run_disconnected`: after a `disconnect`, `auto_reconnect_` stays false and `conn_` is not
  connected, until `setAutoReconnect(true)` is called or a connection comes up.
* `disconnect_once`: so repeated calls change nothing.
-/

namespace Netpp

open TCPConn

/-! ## A connection that nobody closes -/

/-- The connection is connected, and the loop thread is not in `handleError`. -/
def Life.Open (l : Life) : Prop := l.status = .kConnected ∧ l.pc ≠ .forced

/-- A close of connection `c` begins: the application asks for it, or an operation has failed. -/
def Action.BeginsClose {n : Nat} (c : Fin n) (a : Action n) : Prop :=
  a = .close c ∨ a = .closeWithDelay c ∨ a.Fails c

theorem Action.Fails.conn {n : Nat} {c : Fin n} {a : Action n} (h : a.Fails c) : a.conn = some c := by
  cases a with
  | handleRead d op => exact congrArg some h.1
  | handleWrite d op => exact congrArg some h.1
  | _ => exact h.elim

section Open

variable {n : Nat} {build : Build} {m m' : Mem} {w w' : World n} {a : Action n} {c : Fin n}
  {M : Life → Prop} {l l' : Life}

theorem LifeStep.open (h : LifeStep (fun _ => False) M (fun _ => False) l l') (hstage : Stage l)
    (hopen : l.Open) : l'.Open := by
  obtain ⟨hstatus, hforced⟩ := hopen
  have hpc := hstage.not_closing hstatus hforced
  have hcalm : ¬ (l.closers ≠ [] ∨ 0 < l.closes ∨ 0 < l.timers) := fun hbusy =>
    (hstage.not_calm hbusy).2 hstatus
  cases h with
  | close _ hnever _ => exact hnever.elim
  | closeGoesOn call hcall => exact absurd (.inl (List.ne_nil_of_mem hcall)) hcalm
  | connectEstablished _ _ => exact ⟨rfl, by intro h; cases h⟩
  | notifyConnected _ => exact ⟨hstatus, by intro h; cases h⟩
  | runClose _ hcloses => exact absurd (.inr (.inl hcloses)) hcalm
  | fireTimer _ htimers => exact absurd (.inr (.inr htimers)) hcalm
  | handleError _ hnever => exact hnever.elim
  | message _ _ _ => exact ⟨hstatus, by intro h; cases h⟩
  | launched _ _ => exact ⟨hstatus, by intro h; cases h⟩
  | forced h => exact absurd h hforced
  | reset h _ => rw [h] at hpc; cases hpc
  | closeAgain h _ => rw [h] at hpc; cases hpc
  | notifyDisconnecting h => rw [h] at hpc; cases hpc
  | notifyClosed h => rw [h] at hpc; cases hpc
  | finish h => rw [h] at hpc; cases hpc
  | destroy => exact ⟨hstatus, hforced⟩

theorem exec_open (born : w.Born) (enabled : w.Enabled m a) (done : w.exec a build m = .ok (w', m'))
    (hstage : Stage (w.life c)) (hopen : (w.life c).Open) (hbegins : ¬ a.BeginsClose c) :
    (w'.life c).Open := by
  by_cases hconn : a.conn = some c
  · have hmoves : LifeMoves (fun _ => False) (fun _ => True) (fun _ => False) w w' := by
      refine exec_life (fun d hd => hbegins ?_) (fun _ _ _ _ _ => trivial) (fun d hd => hbegins ?_) born
        enabled done
      · rcases hd with rfl | rfl
        · exact .inl (by cases hconn; rfl)
        · exact .inr (.inl (by cases hconn; rfl))
      · obtain rfl : d = c := Option.some.inj ((hd.conn).symm.trans hconn)
        exact .inr (.inr hd)
    cases hmoves c with
    | inl hsame => rwa [hsame]
    | inr hstep => exact hstep.open hstage hopen
  · rwa [exec_others done hconn]

end Open

namespace TCPClient

variable {n : Nat} {build : Build} {m m' : Mem} {s s' t : TCPClient n} {a : ClientAction n} {c : Fin n}
  {P : List (ClientAction n) → TCPClient n → Mem → ClientAction n → Prop}
  {as : List (ClientAction n)}

/-! ## The history of a client -/

/-- The function of `disconnect` is run. -/
def isDisconnect : ClientAction n → Bool
  | .disconnect => true
  | _ => false

/-- `conn_ = conn;` is run. -/
def isEstablished : ClientAction n → Bool
  | .established => true
  | _ => false

/-- The step begins to close connection `c`, and is not `disconnect`. -/
def BeginsClose (c : Fin n) (a : ClientAction n) : Prop :=
  ∃ b throws, a = .conn b throws ∧ b.BeginsClose c

/-- A close of the connection `c` that is `conn_` has begun: for an `disconnect` it counts what
    has happened since `conn_` was set. -/
def CloseBegun (as : List (ClientAction n)) (c : Fin n) : Prop :=
  (∃ a ∈ as, BeginsClose c a) ∨ ∃ a ∈ Machine.since isEstablished as, isDisconnect a = true

/-- Since the last `disconnect` the client has been told to reconnect, or a connection has
    come up. -/
def ComesBack (as : List (ClientAction n)) : Prop :=
  ∃ a ∈ Machine.since isDisconnect as, a = .setAutoReconnect true ∨ isEstablished a = true

theorem comesBack_append : ComesBack (as ++ [a]) ↔
    isDisconnect a = false ∧ (ComesBack as ∨ a = .setAutoReconnect true ∨ isEstablished a = true) :=
  Machine.exists_mem_since_append

theorem closeBegun_append : CloseBegun (as ++ [a]) c ↔ (∃ b ∈ as ++ [a], BeginsClose c b) ∨
    isEstablished a = false ∧
      ((∃ b ∈ Machine.since isEstablished as, isDisconnect b = true) ∨ isDisconnect a = true) :=
  or_congr_right Machine.exists_mem_since_append

theorem CloseBegun.append (h : CloseBegun as c) (ha : isEstablished a = false) : CloseBegun (as ++ [a]) c := by
  rw [closeBegun_append]
  cases h with
  | inl h =>
    obtain ⟨b, hb, hbegins⟩ := h
    exact .inl ⟨b, List.mem_append_left _ hb, hbegins⟩
  | inr h => exact .inr ⟨ha, .inl h⟩

/-! ## What a step does to a connection -/

theorem Connects.conn {throws : Bool} (h : Connects s throws t) : t.conn = s.conn := by
  cases h <;> rfl

theorem Connects.world {throws : Bool} (h : Connects s throws t) : t.world = s.world := by
  cases h <;> rfl

theorem Connects.pc {throws : Bool} (h : Connects s throws t) : t.pc = s.pc := by
  cases h <;> rfl

theorem Connects.autoReconnect {throws : Bool} (h : Connects s throws t) :
    t.autoReconnect = s.autoReconnect := by
  cases h <;> rfl

theorem ClientStep.conn_eq (h : ClientStep build m s a s' m') (ha : isEstablished a = false)
    (hc : s'.conn = some c) : s.conn = some c := by
  cases h with
  | connectHere _ _ _ _ hconnects => exact hconnects.conn ▸ hc
  | runConnect _ _ _ _ _ hconnects => exact hconnects.conn ▸ hc
  | reconnect _ _ _ _ _ hconnects => exact hconnects.conn ▸ hc
  | established _ _ _ => cases ha
  | removed _ _ _ _ _ _ _ _ => cases hc
  | reconnected _ _ _ _ _ _ _ _ _ hconnects => rw [hconnects.conn] at hc; cases hc
  | unwound _ _ _ _ _ _ _ _ _ => cases hc
  | _ => exact hc

theorem ClientStep.autoReconnect_eq (h : ClientStep build m s a s' m')
    (ha : a ≠ .setAutoReconnect true) (hs : s.autoReconnect = false) : s'.autoReconnect = false := by
  cases h with
  | setAutoReconnect v =>
    cases v with
    | false => rfl
    | true => exact absurd rfl ha
  | connectHere _ _ _ _ hconnects => exact hconnects.autoReconnect.trans hs
  | runConnect _ _ _ _ _ hconnects => exact hconnects.autoReconnect.trans hs
  | reconnect _ _ _ _ _ hconnects => exact hconnects.autoReconnect.trans hs
  | disconnected _ => rfl
  | disconnect _ _ _ _ _ => rfl
  | reconnected _ _ _ _ _ _ hauto _ _ _ => cases hauto.symm.trans hs
  | unwound _ _ _ _ _ hauto _ _ _ => cases hauto.symm.trans hs
  | _ => exact hs

/-- What a step of the client is for a connection that is live: nothing, or a step of the
    connections; an exception that leaves its `handleClose` changes where its loop thread is. -/
theorem ClientStep.life (h : ClientStep build m s a s' m') (htracked : Tracked s)
    (hlive : (s.world.life c).Live) :
    s'.world.life c = s.world.life c ∨
    ∃ b w pc, s.world.Enabled m b ∧ s.world.exec b build m = .ok (w, m') ∧
      ((∃ throws, a = .conn b throws) ∨ isDisconnect a = true ∧ s.conn = some c) ∧
      s'.world.life c = { w.life c with pc := pc } ∧
      (pc = (w.life c).pc ∨ (s.world.life c).pc = .notified) := by
  have hresume : ∀ d, (s.world.life d).pc = .notified → s.world.Enabled m (.resume d) := by
    intro d hpc
    show (s.world.life d).pc ≠ .idle
    rw [hpc]
    decide
  cases h with
  | connectHere _ _ _ _ hconnects => exact .inl (by rw [hconnects.world])
  | runConnect _ _ _ _ _ hconnects => exact .inl (by rw [hconnects.world])
  | reconnect _ _ _ _ _ hconnects => exact .inl (by rw [hconnects.world])
  | disconnect d w _ hconn done =>
    by_cases hdc : d = c
    · subst hdc
      have enabled : s.world.Enabled m (.close d) :=
        ⟨(htracked.conn d hconn).1, by intro hfalse; cases hfalse⟩
      exact .inr ⟨_, w, _, enabled, done, .inr ⟨rfl, hconn⟩, rfl, .inl rfl⟩
    · exact .inl (exec_others done fun hsome => hdc (Option.some.inj hsome))
  | connected op d w _ hop _ hidle hnext done =>
    refine .inl ((htracked.connected hnext done).2.2.1 c fun hcd => ?_)
    have hfresh := htracked.followed.fresh d hnext.ge
    rw [hcd, hfresh] at hlive
    cases hlive.1
  | conn b w _ enabled allowed known idle stays done =>
    exact .inr ⟨b, w, _, enabled, done, .inl ⟨false, rfl⟩, rfl, .inl rfl⟩
  | removed d w _ hpc _ _ _ done =>
    exact .inr ⟨.resume d, w, _, hresume d hpc, done, .inl ⟨false, rfl⟩, rfl, .inl rfl⟩
  | reconnected d w _ _ hpc _ _ _ done hconnects =>
    exact .inr ⟨.resume d, w, _, hresume d hpc, done, .inl ⟨false, rfl⟩, by rw [hconnects.world], .inl rfl⟩
  | unwound d w _ hpc _ _ _ _ done =>
    by_cases hdc : d = c
    · subst hdc
      exact .inr ⟨.resume d, w, .idle, hresume d hpc, done, .inl ⟨true, rfl⟩, Function.update_self ..,
        .inr hpc⟩
    · exact .inr ⟨.resume d, w, _, hresume d hpc, done, .inl ⟨true, rfl⟩,
        Function.update_of_ne (fun hcd => hdc hcd.symm) .., .inl rfl⟩
  | _ => exact .inl rfl

theorem Tracked.stage (h : Tracked s) (hlive : (s.world.life c).Live) : Stage (s.world.life c) :=
  (h.followed.lives c fun hin => hlive.2 (h.followed.unwound c hin).2).1

theorem ClientStep.open (h : ClientStep build m s a s' m') (htracked : Tracked s)
    (hlive : (s.world.life c).Live) (hopen : (s.world.life c).Open)
    (hdisconnect : isDisconnect a = true → s.conn ≠ some c) (hbegins : ¬ BeginsClose c a) :
    (s'.world.life c).Open := by
  have hstage := htracked.stage hlive
  cases h.life htracked hlive with
  | inl hsame => rwa [hsame]
  | inr hstep =>
    obtain ⟨b, w, pc, enabled, done, hcause, hlife, hpc⟩ := hstep
    have hcalm := hstage.not_closing hopen.1 hopen.2
    have hkept : pc = (w.life c).pc := hpc.resolve_right fun hnotified => by
      rw [hnotified] at hcalm
      cases hcalm
    rw [hlife, hkept]
    cases hcause with
    | inl hconn =>
      obtain ⟨throws, rfl⟩ := hconn
      exact exec_open htracked.followed.born enabled done hstage hopen fun hb => hbegins ⟨b, throws, rfl, hb⟩
    | inr hclosed => exact absurd hclosed.2 (hdisconnect hclosed.1)

theorem ClientStep.not_connected (h : ClientStep build m s a s' m') (htracked : Tracked s)
    (hlive : (s.world.life c).Live) (hl : (s.world.life c).status ≠ .kConnected) :
    (s'.world.life c).status ≠ .kConnected := by
  cases h.life htracked hlive with
  | inl hsame => rwa [hsame]
  | inr hstep =>
    obtain ⟨b, w, pc, enabled, done, _, hlife, _⟩ := hstep
    rw [hlife]
    show (w.life c).status ≠ .kConnected
    cases exec_lifeStep htracked.followed.born enabled done c with
    | inl hsame => rwa [hsame]
    | inr hmoves => exact (hmoves.not_connected hlive.1 hl).2

/-! ## Whole runs -/

theorem ClientStep.establishing (h : ClientStep build m s a s' m') (htracked : Tracked s)
    (hpc : s'.pc = .establishing c) :
    isEstablished a = false ∧
      (s.pc = .establishing c ∨
        s.conn ≠ some c ∧ s'.world.life c = TCPConn.connectEstablished {}) := by
  cases h with
  | connectHere _ _ _ _ hconnects => exact ⟨rfl, .inl (hconnects.pc ▸ hpc)⟩
  | runConnect _ _ _ _ _ hconnects => exact ⟨rfl, .inl (hconnects.pc ▸ hpc)⟩
  | reconnect _ _ _ _ _ hconnects => exact ⟨rfl, .inl (hconnects.pc ▸ hpc)⟩
  | connected op d w _ _ _ _ hnext done =>
    obtain ⟨_, hconn, _, hlife⟩ := htracked.connected hnext done
    cases hpc
    exact ⟨rfl, .inr ⟨fun hc => hconn _ hc rfl, hlife⟩⟩
  | refused _ _ _ => cases hpc
  | established _ _ _ => cases hpc
  | failed _ => cases hpc
  | reconnected _ _ _ _ _ _ _ _ _ hconnects => exact ⟨rfl, .inl (hconnects.pc ▸ hpc)⟩
  | _ => exact ⟨rfl, .inl hpc⟩

/-- A connection that nobody has begun to close is open. -/
structure Opened (as : List (ClientAction n)) (s : TCPClient n) : Prop where
  conn : ∀ c, s.conn = some c → ¬ CloseBegun as c → (s.world.life c).Open
  establishing : ∀ c, s.pc = .establishing c →
    s.conn ≠ some c ∧ ((∀ a ∈ as, ¬ BeginsClose c a) → (s.world.life c).Open)

theorem Opened.step (h : Opened as s) (htracked : Tracked s) (hstep : ClientStep build m s a s' m') :
    Opened (as ++ [a]) s' := by
  have hlast : a ∈ as ++ [a] := List.mem_append_right _ (List.mem_singleton_self a)
  refine ⟨fun c hc hbegun => ?_, fun c hc => ?_⟩
  · have hnever : ∀ b ∈ as ++ [a], ¬ BeginsClose c b := fun b hb hbegins => hbegun (.inl ⟨b, hb, hbegins⟩)
    cases ha : isEstablished a with
    | true =>
      cases hstep with
      | established d hpc _ =>
        obtain rfl : d = c := Option.some.inj hc
        exact (h.establishing d hpc).2 fun b hb => hnever b (List.mem_append_left _ hb)
      | _ => cases ha
    | false =>
      have hconn := hstep.conn_eq ha hc
      have hopen := h.conn c hconn fun hwas => hbegun (hwas.append ha)
      exact hstep.open htracked (htracked.conn c hconn).2 hopen
        (fun hdisconnect => absurd (closeBegun_append.mpr (.inr ⟨ha, .inr hdisconnect⟩)) hbegun)
        (hnever a hlast)
  · obtain ⟨ha, hpc⟩ := hstep.establishing htracked hc
    cases hpc with
    | inl hpc =>
      obtain ⟨hother, hopen⟩ := h.establishing c hpc
      refine ⟨fun hconn => hother (hstep.conn_eq ha hconn), fun hnever => ?_⟩
      exact hstep.open htracked (htracked.establishing c hpc).2.1
        (hopen fun b hb => hnever b (List.mem_append_left _ hb)) (fun _ => hother) (hnever a hlast)
    | inr hnew =>
      obtain ⟨hother, hlife⟩ := hnew
      refine ⟨fun hconn => hother (hstep.conn_eq ha hconn), fun _ => ?_⟩
      rw [hlife]
      exact ⟨rfl, by intro h; cases h⟩

/-- As long as no close of `conn_` has begun, it is open. -/
theorem run_open (h : (machine n).Run build P as s m) : Opened as s := by
  refine h.history (I := fun as s _ => Opened as s) (fun s m hinit => ?_)
    fun as s m a s' m' hrun ih enabled _ done => ih.step (run_tracked hrun) (exec_step enabled done)
  obtain ⟨rfl, _⟩ := hinit
  exact ⟨fun c hc => (by cases hc), fun c hc => (by cases hc)⟩

/-- After a `disconnect` that nothing has made the client come back from: it does not connect by
    itself, and `conn_` is not connected. -/
def Gone (s : TCPClient n) : Prop :=
  s.autoReconnect = false ∧ ∀ c, s.conn = some c → (s.world.life c).status ≠ .kConnected

theorem ClientStep.gone (h : ClientStep build m s .disconnect s' m') : s'.Gone := by
  cases h with
  | disconnected hnone => exact ⟨rfl, fun c hc => (by cases hnone.symm.trans hc)⟩
  | disconnect d w _ hconn done =>
    refine ⟨rfl, fun c hc => ?_⟩
    obtain rfl : d = c := Option.some.inj (hconn.symm.trans hc)
    exact exec_close_status done

theorem Gone.step (h : s.Gone) (htracked : Tracked s) (hstep : ClientStep build m s a s' m')
    (hauto : a ≠ .setAutoReconnect true) (ha : isEstablished a = false) : s'.Gone := by
  refine ⟨hstep.autoReconnect_eq hauto h.1, fun c hc => ?_⟩
  have hconn := hstep.conn_eq ha hc
  exact hstep.not_connected htracked (htracked.conn c hconn).2 (h.2 c hconn)

/-- Nothing that comes after a `disconnect` brings the client back, but what `ComesBack` says. -/
theorem run_disconnected (h : (machine n).Run build P as s m) :
    (∃ a ∈ as, isDisconnect a = true) → ¬ ComesBack as → s.Gone := by
  refine h.history (I := fun as s _ => (∃ a ∈ as, isDisconnect a = true) → ¬ ComesBack as → s.Gone)
    (fun s m _ hfirst => ?_) fun as s m a s' m' hrun ih enabled _ done hfirst hnot => ?_
  · obtain ⟨a, ha, _⟩ := hfirst
    cases ha
  · have hstep := exec_step enabled done
    cases ha : isDisconnect a with
    | true =>
      cases a with
      | disconnect => exact hstep.gone
      | _ => cases ha
    | false =>
      rw [comesBack_append] at hnot
      have hbefore : ∃ b ∈ as, isDisconnect b = true := by simpa [or_and_right, exists_or, ha] using hfirst
      refine (ih hbefore fun hback => hnot ⟨ha, .inl hback⟩).step (run_tracked hrun) hstep
        (fun hauto => hnot ⟨ha, .inr (.inl hauto)⟩) ?_
      cases hback : isEstablished a with
      | true => exact absurd ⟨ha, .inr (.inr hback)⟩ hnot
      | false => rfl

/-! ## Repeated calls -/

/-- With assertions, `disconnect` is called when `conn_` is gone or no close of it has begun;
    and it is repeated when the client has not come back. -/
def DisconnectsSafely (build : Build) (as : List (ClientAction n)) (s : TCPClient n) (_ : Mem) :
    ClientAction n → Prop
  | .disconnect =>
    (build = .debug → ∀ c, s.conn = some c → ¬ CloseBegun as c) ∧
    ((∃ a ∈ as, isDisconnect a = true) → ¬ ComesBack as)
  | _ => True

theorem disconnect_asserts (h : build = .debug → ∀ c, s.conn = some c → (s.world.life c).Open) :
    s.disconnect.wp build m fun _ _ => True := by
  unfold TCPClient.disconnect
  dsimp only
  split
  · rename_i c hconn
    have hassert : (assert (!((s.world.life c).status == .kDisconnected) &&
        !((s.world.life c).status == .kDisconnecting))).wp build m fun _ m' => m' = m := by
      cases build with
      | release => exact ⟨(), m, by simp [assert], rfl⟩
      | debug =>
        rw [(h rfl c hconn).1]
        exact (wp_assert_true ..).mpr rfl
    simp only [onPieces, Prog.wp_bind, Prog.wp_mapFault]
    refine hassert.imp fun _ m' hm => ?_
    subst hm
    exact ⟨_, _, rfl, (Prog.wp_pure ..).mpr trivial⟩
  · exact (Prog.wp_pure ..).mpr trivial

theorem disconnect_same (hgone : s.Gone) (done : s.disconnect build m = .ok (s', m')) : s' = s ∧ m' = m := by
  obtain ⟨hauto, hconn⟩ := hgone
  have hsame : { s with autoReconnect := false } = s := by
    rw [← hauto]
  have hwlp : s.disconnect.wlp build m fun s' m' => s' = s ∧ m' = m := by
    unfold TCPClient.disconnect
    dsimp only
    split
    · rename_i c hc
      have hclose : TCPConn.close (s.world.life c) = s.world.life c := by
        unfold TCPConn.close compareExchange
        rw [if_neg (hconn c hc)]
      have hworld : s.world.setLife c (TCPConn.close (s.world.life c)) = s.world := by
        unfold World.setLife
        rw [hclose, Function.update_eq_self]
      simp only [onPieces, World.exec, Prog.wlp_bind, Prog.wlp_mapFault, wlp_assert, Prog.wlp_pure, hworld]
      exact fun _ => ⟨hsame, trivial⟩
    · exact (Prog.wlp_pure ..).mpr ⟨hsame, rfl⟩
  exact hwlp s' m' done

/-- In every run whose calls of `disconnect` come when they should, their assertion holds, and
    the run without all but the first of them goes to the same state, with the same
    callbacks. -/
theorem disconnect_once (h : (machine n).Run build (DisconnectsSafely build) as s m) :
    (DisconnectsSafely build as s m .disconnect → s.disconnect.wp build m fun _ _ => True) ∧
    (machine n).Run build (fun _ _ _ _ => True) (Machine.onlyFirst isDisconnect as) s m := by
  refine ⟨fun condition => ?_, h.onlyFirst fun as s m a s' m' hrun condition ha hrepeated done => ?_⟩
  · exact disconnect_asserts fun hbuild c hc => (run_open h).conn c hc (condition.1 hbuild c hc)
  · cases a with
    | disconnect => exact disconnect_same (run_disconnected hrun hrepeated (condition.2 hrepeated)) done
    | _ => cases ha

/-- Without assertions, two calls in a row, one that another thread makes before the close task
    runs and one inside the callback that reports `kDisconnecting`; with assertions, a second
    call when the connection has been closed. -/
theorem disconnect_once_twice :
    (∃ (as : List (ClientAction 1)) (s : TCPClient 1) (m : Mem),
      (machine 1).Run .release (DisconnectsSafely .release) as s m ∧ (as.filter isDisconnect).length = 3 ∧
      (s.world.life 0).pc = .notified ∧
      (machine 1).Run .release (fun _ _ _ _ => True) (Machine.onlyFirst isDisconnect as) s m) ∧
    ∃ (as : List (ClientAction 1)) (s : TCPClient 1) (m : Mem),
      (machine 1).Run .debug (DisconnectsSafely .debug) as s m ∧ (as.filter isDisconnect).length = 2 ∧
      s.conn = none ∧ s.disconnect.wp .debug m (fun _ _ => True) ∧
      (machine 1).Run .debug (fun _ _ _ _ => True) (Machine.onlyFirst isDisconnect as) s m := by
  refine ⟨?_, ?_⟩
  · have r : (machine 1).Run .release (DisconnectsSafely .release) [] {} emptyMem := .start ⟨rfl, _, rfl⟩
    have r := next r .connect trivial trivial rfl
    have r := next r (.runConnect false) ⟨Nat.one_pos, ⟨rfl, fun _ => rfl⟩, by intro h; cases h⟩ trivial rfl
    have r := next r (.connectDone ⟨none⟩ .success) ⟨.head _, rfl⟩ trivial rfl
    have r := next r (.newConnection ⟨some .success⟩)
      ⟨.head _, (by intro h; cases h), ⟨rfl, fun _ => rfl⟩, by intro _ h; cases h⟩ trivial rfl
    have r := next r (.conn (.resume 0) false) ⟨(by intro h; cases h), .inr rfl, fun c _ => c.isLt,
      fun c h => (by cases h), by intro h; cases h⟩ trivial rfl
    have r := next r (.conn (.resume 0) false) ⟨(by intro h; cases h), .inr rfl, fun c _ => c.isLt,
      fun c h => (by cases h), by intro h; cases h⟩ trivial rfl
    have r := next r .established ⟨0, rfl, rfl⟩ trivial rfl
    have r := next r .disconnect (.inl ⟨rfl, fun d => match d with | 0 => rfl⟩)
      ⟨(by intro h; cases h), by simp [isDisconnect]⟩ rfl
    have r := next r .disconnect (.inl ⟨rfl, fun d => match d with | 0 => rfl⟩)
      ⟨(by intro h; cases h), fun _ hback => by cases (comesBack_append.mp hback).1⟩ rfl
    have r := next r (.conn (.closeGoesOn 0 .queueing) false) ⟨.head _, trivial, fun c _ => c.isLt,
      fun c h => (by cases h), by intro h; cases h⟩ trivial rfl
    have r := next r (.conn (.runClose 0) false) ⟨⟨Nat.one_pos, rfl⟩, trivial, fun c _ => c.isLt,
      fun _ _ => ⟨rfl, fun d => match d with | 0 => rfl⟩, by intro h; cases h⟩ trivial rfl
    have r := next r (.conn (.resume 0) false) ⟨(by intro h; cases h), .inl rfl, fun c _ => c.isLt,
      fun c h => (by cases h), by intro h; cases h⟩ trivial rfl
    have r := next r (.conn (.resume 0) false) ⟨(by intro h; cases h), .inl rfl, fun c _ => c.isLt,
      fun c h => (by cases h), by intro h; cases h⟩ trivial rfl
    have r := next r .disconnect (.inr (.inr ⟨0, .tail _ (.tail _ (.head _))⟩))
      ⟨(by intro h; cases h), fun _ => by
        simp [ComesBack, Machine.since, List.rtakeWhile, isDisconnect, isEstablished]⟩ rfl
    exact ⟨_, _, _, r, rfl, rfl, (disconnect_once r).2⟩
  · have r : (machine 1).Run .debug (DisconnectsSafely .debug) [] {} emptyMem := .start ⟨rfl, _, rfl⟩
    have r := next r .connect trivial trivial rfl
    have r := next r (.runConnect false) ⟨Nat.one_pos, ⟨rfl, fun _ => rfl⟩, by intro h; cases h⟩ trivial rfl
    have r := next r (.connectDone ⟨none⟩ .success) ⟨.head _, rfl⟩ trivial rfl
    have r := next r (.newConnection ⟨some .success⟩)
      ⟨.head _, (by intro h; cases h), ⟨rfl, fun _ => rfl⟩, by intro _ h; cases h⟩ trivial rfl
    have r := next r (.conn (.resume 0) false) ⟨(by intro h; cases h), .inr rfl, fun c _ => c.isLt,
      fun c h => (by cases h), by intro h; cases h⟩ trivial rfl
    have r := next r (.conn (.resume 0) false) ⟨(by intro h; cases h), .inr rfl, fun c _ => c.isLt,
      fun c h => (by cases h), by intro h; cases h⟩ trivial rfl
    have r := next r .established ⟨0, rfl, rfl⟩ trivial rfl
    have r := next r .disconnect (.inl ⟨rfl, fun d => match d with | 0 => rfl⟩)
      ⟨fun _ _ _ => by simp [CloseBegun, Machine.since, BeginsClose, Action.BeginsClose, Action.Fails,
        List.rtakeWhile, isEstablished], by simp [isDisconnect]⟩ rfl
    have r := next r (.conn (.closeGoesOn 0 .queueing) false) ⟨.head _, trivial, fun c _ => c.isLt,
      fun c h => (by cases h), by intro h; cases h⟩ trivial rfl
    have r := next r (.conn (.runClose 0) false) ⟨⟨Nat.one_pos, rfl⟩, trivial, fun c _ => c.isLt,
      fun _ _ => ⟨rfl, fun d => match d with | 0 => rfl⟩, by intro h; cases h⟩ trivial rfl
    have r := next r (.conn (.resume 0) false) ⟨(by intro h; cases h), .inl rfl, fun c _ => c.isLt,
      fun c h => (by cases h), by intro h; cases h⟩ trivial rfl
    have r := next r (.conn (.resume 0) false) ⟨(by intro h; cases h), .inl rfl, fun c _ => c.isLt,
      fun c h => (by cases h), by intro h; cases h⟩ trivial rfl
    have r := next r (.conn (.resume 0) false) ⟨(by intro h; cases h), .inl rfl, fun c _ => c.isLt,
      fun c h => (by cases h), by intro h; cases h⟩ trivial rfl
    have r := next r (.conn (.resume 0) false) ⟨(by intro h; cases h), .inl rfl, fun c _ => c.isLt,
      fun c h => (by cases h), by intro h; cases h⟩ trivial rfl
    have r := next r .disconnect (.inl ⟨rfl, fun d => match d with | 0 => rfl⟩)
      ⟨fun _ c hc => (by cases hc), fun _ => by
        simp [ComesBack, Machine.since, List.rtakeWhile, isDisconnect, isEstablished]⟩ rfl
    exact ⟨_, _, _, r, rfl, rfl, (disconnect_once r).1 ⟨fun _ c hc => (by cases hc), fun _ hback => by
      cases (comesBack_append.mp hback).1⟩, (disconnect_once r).2⟩

/-- A second `disconnect` before the connection is closed fails the assertion. -/
theorem second_disconnect_asserts :
    ¬ ∀ (n : Nat) (build : Build) (as : List (ClientAction n)) (s : TCPClient n) (m : Mem),
      (machine n).Run build (fun _ _ _ _ => True) as s m → s.Enabled m .disconnect →
      s.disconnect.wp build m fun _ _ => True := by
  intro hsafe
  have r : (machine 1).Run .debug (fun _ _ _ _ => True) [] {} emptyMem := .start ⟨rfl, _, rfl⟩
  have r := next r .connect trivial trivial rfl
  have r := next r (.runConnect false) ⟨Nat.one_pos, ⟨rfl, fun _ => rfl⟩, by intro h; cases h⟩ trivial rfl
  have r := next r (.connectDone ⟨none⟩ .success) ⟨.head _, rfl⟩ trivial rfl
  have r := next r (.newConnection ⟨some .success⟩)
    ⟨.head _, (by intro h; cases h), ⟨rfl, fun _ => rfl⟩, by intro _ h; cases h⟩ trivial rfl
  have r := next r (.conn (.resume 0) false) ⟨(by intro h; cases h), .inr rfl, fun c _ => c.isLt,
    fun c h => (by cases h), by intro h; cases h⟩ trivial rfl
  have r := next r (.conn (.resume 0) false) ⟨(by intro h; cases h), .inr rfl, fun c _ => c.isLt,
    fun c h => (by cases h), by intro h; cases h⟩ trivial rfl
  have r := next r .established ⟨0, rfl, rfl⟩ trivial rfl
  have r := next r .disconnect (.inl ⟨rfl, fun d => match d with | 0 => rfl⟩) trivial rfl
  obtain ⟨t, m', hrun, _⟩ := hsafe 1 _ _ _ _ r (.inl ⟨rfl, fun d => match d with | 0 => rfl⟩)
  have herror : (Except.error (.memory .assertion) : Except ConnFault (TCPClient 1 × Mem)) = .ok (t, m') := hrun
  cases herror


end TCPClient

end Netpp
