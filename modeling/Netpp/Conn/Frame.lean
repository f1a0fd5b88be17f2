import Netpp.Conn.Lifecycle

/-! # What a step leaves alone

Facts about one step of the system that do not depend on what the other
connections do, for everything that is built on connections: which connection a
step is about, which steps start or continue a handler, who calls `close_cb_`, and
what is left of the requests to close a connection.
-/

namespace Netpp

open TCPConn

/-! ## Which connection a step is about -/

namespace Action

variable {n : Nat}

/-- The connection a step is about. -/
def conn : Action n → Option (Fin n)
  | buffer _ => none
  | sendData c _ _ | sendBuffer c _ _ | close c | closeWithDelay c | closeGoesOn c _
  | readDone c _ _ | writeDone c _ _ | connectEstablished c | runSend c _ | runClose c | fireTimer c
  | handleRead c _ | handleWrite c _ | resume c | destroy c => some c

/-- The connection on whose loop thread the step starts a handler. -/
def starts : Action n → Option (Fin n)
  | connectEstablished c | runSend c _ | runClose c | fireTimer c | handleRead c _
  | handleWrite c _ => some c
  | _ => none

end Action

section Frame

variable {n : Nat} {build : Build} {w w' : World n} {m m' : Mem} {a : Action n} {c : Fin n}

/-- What a step does to lives: nothing, or something to that of its connection. -/
def OneLife (w w' : World n) (a : Action n) : Prop :=
  w'.life = w.life ∨ ∃ d l, a.conn = some d ∧ w'.life = Function.update w.life d l ∧
    (l.pc = (w.life d).pc ∨ a = .resume d ∨ a.starts = some d) ∧
    (l.alive = (w.life d).alive ∨ a = .destroy d) ∧
    (l.established = (w.life d).established ∨ a = .connectEstablished d)

/-- Neither created nor destroyed. -/
def SameBirth (l l' : Life) : Prop := l'.alive = l.alive ∧ l'.established = l.established

theorem handleError_birth (l : Life) : SameBirth l (TCPConn.handleError l) := by
  unfold TCPConn.handleError
  split <;> exact ⟨rfl, rfl⟩

theorem compareExchange_birth (l : Life) (call : CloseCall) :
    (compareExchange l call).pc = l.pc ∧ SameBirth l (compareExchange l call) := by
  unfold compareExchange
  split <;> exact ⟨rfl, rfl, rfl⟩

theorem handleRead_birth {inp : Buffer} {f : Flow} {l : Life} {op : ReadOp} :
    (handleRead inp f l op).wlp build m fun r _ => SameBirth l r.2.2 := by
  unfold TCPConn.handleRead
  dsimp only
  split
  · simp only [Prog.wlp_bind, Prog.wlp_pure]
    exact fun _ _ _ _ _ _ => ⟨rfl, rfl⟩
  · simp only [Prog.wlp_bind, Prog.wlp_pure]
    exact fun _ _ _ => handleError_birth l
  · simp only [Prog.wlp_bind, Prog.wlp_pure]
    exact fun _ _ _ => ⟨rfl, rfl⟩

theorem handleWrite_birth {out : Buffer} {f : Flow} {l : Life} {op : WriteOp} :
    (handleWrite out f l op).wlp build m fun r _ => SameBirth l r.2.2 := by
  unfold TCPConn.handleWrite
  split
  · rw [Prog.wlp_bind]
    intro _ m' _
    split
    · simp only [Prog.wlp_bind, Prog.wlp_pure]
      exact fun _ _ _ => ⟨rfl, rfl⟩
    · exact (Prog.wlp_pure ..).mpr (handleError_birth l)
    · exact (Prog.wlp_pure ..).mpr ⟨rfl, rfl⟩
  · exact Prog.wlp_throw _ _ _ _

theorem handleClose_birth {l : Life} : (handleClose l).wlp build m fun l' _ => SameBirth l l' := by
  simp only [handleClose, Prog.wlp_bind]
  intro _ m' _
  split
  · simp only [Prog.wlp_bind, Prog.wlp_pure]
    exact fun _ _ _ => ⟨rfl, rfl⟩
  · exact (Prog.wlp_pure ..).mpr ⟨rfl, rfl⟩

theorem resume_birth {l : Life} {f : Flow} :
    (resume l f).wlp build m fun r _ => SameBirth l r.1 := by
  unfold TCPConn.resume
  cases l.pc with
  | connected =>
    simp only [Prog.wlp_bind, Prog.wlp_pure]
    exact fun _ _ _ => ⟨rfl, rfl⟩
  | message =>
    simp only [Prog.wlp_bind, Prog.wlp_pure]
    exact fun _ _ _ => ⟨rfl, rfl⟩
  | closing =>
    simp only [Prog.wlp_bind, Prog.wlp_pure]
    exact handleClose_birth
  | _ => exact (Prog.wlp_pure ..).mpr ⟨rfl, rfl⟩

theorem exec_oneLife (done : w.exec a build m = .ok (w', m')) : OneLife w w' a := by
  have hwlp : (w.exec a).wlp build m fun w' _ => OneLife w w' a := by
    cases a with
    | buffer op =>
      simp only [World.exec, Prog.wlp_bind, Prog.wlp_pure]
      exact fun _ _ _ => .inl rfl
    | sendData d x inLoop => exact (sendData_life x inLoop).imp fun _ _ h => .inl h
    | sendBuffer d i inLoop => exact (sendBuffer_life i inLoop).imp fun _ _ h => .inl h
    | close d =>
      obtain ⟨hpc, hbirth⟩ := compareExchange_birth (w.life d) .queueing
      exact (Prog.wlp_pure ..).mpr (.inr ⟨d, _, rfl, rfl, .inl hpc, .inl hbirth.1, .inl hbirth.2⟩)
    | closeWithDelay d =>
      obtain ⟨hpc, hbirth⟩ := compareExchange_birth (w.life d) .arming
      exact (Prog.wlp_pure ..).mpr (.inr ⟨d, _, rfl, rfl, .inl hpc, .inl hbirth.1, .inl hbirth.2⟩)
    | closeGoesOn d call =>
      refine (Prog.wlp_pure ..).mpr (.inr ⟨d, _, rfl, rfl, .inl ?_, .inl ?_, .inl ?_⟩)
      · cases call <;> rfl
      · cases call <;> rfl
      · cases call <;> rfl
    | readDone d op result => exact (Prog.wlp_pure ..).mpr (.inl rfl)
    | writeDone d op result =>
      intro w' m' h
      cases h
      exact .inl rfl
    | connectEstablished d =>
      exact (Prog.wlp_pure ..).mpr (.inr ⟨d, _, rfl, rfl, .inr (.inr rfl), .inl rfl, .inr rfl⟩)
    | runSend d task => exact (runSendTask_life task).imp fun _ _ h => .inl h
    | runClose d =>
      exact (Prog.wlp_pure ..).mpr (.inr ⟨d, _, rfl, rfl, .inr (.inr rfl), .inl rfl, .inl rfl⟩)
    | fireTimer d =>
      exact (Prog.wlp_pure ..).mpr (.inr ⟨d, _, rfl, rfl, .inr (.inr rfl), .inl rfl, .inl rfl⟩)
    | handleRead d op =>
      simp only [World.exec, Prog.wlp_bind, Prog.wlp_pure]
      exact handleRead_birth.imp fun r _ h =>
        .inr ⟨d, r.2.2, rfl, rfl, .inr (.inr rfl), .inl h.1, .inl h.2⟩
    | handleWrite d op =>
      simp only [World.exec, Prog.wlp_bind, Prog.wlp_pure]
      exact handleWrite_birth.imp fun r _ h =>
        .inr ⟨d, r.2.2, rfl, rfl, .inr (.inr rfl), .inl h.1, .inl h.2⟩
    | resume d =>
      simp only [World.exec, Prog.wlp_bind, Prog.wlp_pure]
      exact resume_birth.imp fun r _ h => .inr ⟨d, r.1, rfl, rfl, .inr (.inl rfl), .inl h.1, .inl h.2⟩
    | destroy d =>
      simp only [World.exec, World.destroy, Prog.wlp_bind, Prog.wlp_pure]
      exact fun _ _ _ _ _ _ _ _ _ _ _ _ => .inr ⟨d, _, rfl, rfl, .inl rfl, .inr rfl, .inl rfl⟩
  exact hwlp w' m' done

theorem exec_others (done : w.exec a build m = .ok (w', m')) (h : a.conn ≠ some c) :
    w'.life c = w.life c := by
  cases exec_oneLife done with
  | inl hsame => rw [hsame]
  | inr hone =>
    obtain ⟨d, l, hconn, hlife, _⟩ := hone
    rw [hlife, Function.update_of_ne]
    rintro rfl
    exact h hconn

theorem exec_pc (done : w.exec a build m = .ok (w', m')) (hresume : a ≠ .resume c)
    (hstarts : a.starts ≠ some c) : (w'.life c).pc = (w.life c).pc := by
  cases exec_oneLife done with
  | inl hsame => rw [hsame]
  | inr hone =>
    obtain ⟨d, l, _, hlife, hpc, _⟩ := hone
    rw [hlife]
    by_cases hc : c = d
    · subst hc
      rw [Function.update_self]
      rcases hpc with hpc | hpc | hpc
      · exact hpc
      · exact absurd hpc hresume
      · exact absurd hpc hstarts
    · rw [Function.update_of_ne hc]

/-- The loop thread is in `connectEstablished`, or has returned from it. -/
def LoopPc.Announcing (pc : LoopPc) : Prop := pc = .idle ∨ pc = .connecting ∨ pc = .connected

theorem LoopPc.Announcing.not_notified {pc : LoopPc} (h : pc.Announcing) : pc ≠ .notified := by
  rcases h with rfl | rfl | rfl <;> decide

theorem resume_announcing {l : Life} {f : Flow} :
    (resume l f).wlp build m fun r _ =>
      l.pc = .connecting ∨ l.pc = .connected → r.1.pc.Announcing := by
  unfold TCPConn.resume
  cases l.pc with
  | connecting => exact (Prog.wlp_pure ..).mpr fun _ => .inr (.inr rfl)
  | connected =>
    simp only [Prog.wlp_bind, Prog.wlp_pure]
    exact fun _ _ _ _ => .inl rfl
  | _ => exact fun _ _ _ h => by simp at h

/-- `connectEstablished` runs to its end. -/
theorem exec_announcing (enabled : w.Enabled m a) (done : w.exec a build m = .ok (w', m'))
    (h : (w.life c).pc.Announcing) (hstarts : a.starts ≠ some c) : (w'.life c).pc.Announcing := by
  by_cases hresume : a = .resume c
  · subst hresume
    have hwlp : (w.exec (.resume c)).wlp build m fun w' _ => (w'.life c).pc.Announcing := by
      simp only [World.exec, Prog.wlp_bind, Prog.wlp_pure]
      refine resume_announcing.imp fun r _ hr => ?_
      rw [show (((w.setFlow c r.2).setLife c r.1).life c) = r.1 from Function.update_self ..]
      exact hr (h.resolve_left enabled)
    exact hwlp w' m' done
  · rw [exec_pc done hresume hstarts]
    exact h

/-- The loop thread starts a handler when it is not in another one. -/
theorem exec_pc_busy (enabled : w.Enabled m a) (done : w.exec a build m = .ok (w', m'))
    (busy : (w.life c).pc ≠ .idle) (hresume : a ≠ .resume c) : (w'.life c).pc = (w.life c).pc := by
  refine exec_pc done hresume fun hstarts => busy ?_
  cases a with
  | connectEstablished d => cases hstarts; exact enabled.2.2
  | runSend d task => cases hstarts; exact enabled.2
  | runClose d => cases hstarts; exact enabled.2
  | fireTimer d => cases hstarts; exact enabled.2
  | handleRead d op => cases hstarts; exact enabled.2.2
  | handleWrite d op => cases hstarts; exact enabled.2.2
  | _ => cases hstarts

theorem exec_resume_notified (done : w.exec (.resume c) build m = .ok (w', m'))
    (hpc : (w.life c).pc = .notified) : w'.life c = TCPConn.notifyClosed (w.life c) := by
  have hwlp : (w.exec (.resume c)).wlp build m fun w' _ =>
      w'.life c = TCPConn.notifyClosed (w.life c) := by
    simp only [World.exec, TCPConn.resume, hpc, Prog.wlp_bind, Prog.wlp_pure]
    exact Function.update_self ..
  exact hwlp w' m' done

theorem exec_alive (done : w.exec a build m = .ok (w', m')) (h : a ≠ .destroy c) :
    (w'.life c).alive = (w.life c).alive := by
  cases exec_oneLife done with
  | inl hsame => rw [hsame]
  | inr hone =>
    obtain ⟨d, l, _, hlife, _, halive, _⟩ := hone
    rw [hlife]
    by_cases hc : c = d
    · subst hc
      rw [Function.update_self]
      exact halive.resolve_right h
    · rw [Function.update_of_ne hc]

theorem exec_established (done : w.exec a build m = .ok (w', m')) (h : a ≠ .connectEstablished c) :
    (w'.life c).established = (w.life c).established := by
  cases exec_oneLife done with
  | inl hsame => rw [hsame]
  | inr hone =>
    obtain ⟨d, l, _, hlife, _, _, hestablished⟩ := hone
    rw [hlife]
    by_cases hc : c = d
    · subst hc
      rw [Function.update_self]
      exact hestablished.resolve_right h
    · rw [Function.update_of_ne hc]

end Frame

/-! ## Callbacks -/

section Callbacks

variable {C M E : Life → Prop} {l l' : Life}

theorem LifeStep.log (h : LifeStep C M E l l') : l.log <+: l'.log := by
  cases h with
  | close call _ =>
    unfold compareExchange
    split <;> exact List.prefix_rfl
  | closeGoesOn call _ => cases call <;> exact List.prefix_rfl
  | notifyConnected _ => exact List.prefix_append ..
  | handleError _ _ =>
    unfold TCPConn.handleError
    split <;> exact List.prefix_rfl
  | message _ _ _ => exact List.prefix_append ..
  | notifyDisconnecting _ => exact List.prefix_append ..
  | notifyClosed _ => exact List.prefix_append ..
  | _ => exact List.prefix_rfl

theorem Stage.of_close (h : Stage l) (hclose : .close ∈ l.log) :
    l.socket = false ∧ (l.pc = .closed ∧ l.status = .kDisconnecting ∨
      (l.pc = .idle ∨ l.pc = .message ∨ l.pc = .closing) ∧ l.status = .kDisconnected) := by
  have hnot : ∀ ms : List ConnCallback, OnlyMessages ms → .close ∉ ms := fun ms hms hmem => by
    cases hms _ hmem
  cases h with
  | unborn _ hlog => rw [hlog] at hclose; cases hclose
  | connecting _ hlog => rw [hlog] at hclose; cases hclose
  | opened first ms _ hms hlog =>
    rw [hlog] at hclose
    simp [hnot ms hms] at hclose
  | between first ms _ hms hlog =>
    rw [hlog] at hclose
    simp [hnot ms hms] at hclose
  | ended first ms late _ _ _ _ hstatus hsocket => exact ⟨hsocket, hstatus⟩

theorem Stage.close_of_disconnected (h : Stage l) (hborn : l.established = true)
    (hstatus : l.status = .kDisconnected) : .close ∈ l.log := by
  cases h with
  | unborn hestablished => rw [hborn] at hestablished; cases hestablished
  | connecting _ _ hnot => exact absurd hstatus hnot
  | opened first ms _ _ _ hnot => exact absurd hstatus hnot
  | between first ms _ _ _ hdisconnecting => rw [hstatus] at hdisconnecting; cases hdisconnecting
  | ended first ms late _ _ _ hlog => simp [hlog]

/-- Only `handleClose` resets the socket. -/
theorem LifeStep.socket_reset (h : LifeStep C M E l l') (hsocket : l.socket = true)
    (hreset : l'.socket = false) : l.pc = .closing ∧ l'.pc = .reset := by
  have hsame : l'.socket = l.socket → l.pc = .closing ∧ l'.pc = .reset := fun heq => by
    rw [heq, hsocket] at hreset
    cases hreset
  cases h with
  | close call _ =>
    refine hsame ?_
    unfold compareExchange
    split <;> rfl
  | closeGoesOn call _ => cases call <;> exact hsame rfl
  | handleError _ _ =>
    refine hsame ?_
    unfold TCPConn.handleError
    split <;> rfl
  | reset hpc _ => exact ⟨hpc, rfl⟩
  | _ => exact hsame rfl

theorem LifeStep.close_mem (h : LifeStep C M E l l') :
    (.close ∈ l'.log ↔ .close ∈ l.log) ∨ l.pc = .notified ∧ l' = TCPConn.notifyClosed l := by
  cases h with
  | close call _ _ =>
    unfold compareExchange
    split <;> exact .inl Iff.rfl
  | closeGoesOn call _ => cases call <;> exact .inl Iff.rfl
  | notifyConnected _ => exact .inl (by simp [TCPConn.notifyConnected])
  | handleError _ _ =>
    unfold TCPConn.handleError
    split <;> exact .inl Iff.rfl
  | message _ _ _ => exact .inl (by simp)
  | notifyDisconnecting _ => exact .inl (by simp [TCPConn.notifyDisconnecting])
  | notifyClosed hpc => exact .inr ⟨hpc, rfl⟩
  | _ => exact .inl Iff.rfl

theorem LifeStep.not_connected (h : LifeStep C M E l l') (hborn : l.established = true)
    (hl : l.status ≠ .kConnected) : l'.established = true ∧ l'.status ≠ .kConnected := by
  cases h with
  | close call _ _ =>
    unfold compareExchange
    split
    · exact ⟨hborn, by intro h; cases h⟩
    · exact ⟨hborn, hl⟩
  | closeGoesOn call _ => cases call <;> exact ⟨hborn, hl⟩
  | connectEstablished _ hnew => rw [hborn] at hnew; cases hnew
  | handleError _ _ =>
    unfold TCPConn.handleError
    split <;> exact ⟨hborn, hl⟩
  | forced _ => exact ⟨hborn, by intro h; cases h⟩
  | notifyDisconnecting _ => exact ⟨hborn, by intro h; cases h⟩
  | finish _ => exact ⟨hborn, by intro h; cases h⟩
  | _ => exact ⟨hborn, hl⟩

end Callbacks

/-! ## Requests -/

/-- The requests to close a connection that are still to be served: calls of `close`
    and `closeWithDelay` on their way, posted tasks, and timers. -/
def Life.requests (l : Life) : Nat := l.closers.countP (· ≠ .assigning) + l.closes + l.timers

/-- The loop thread is on its way to `handleClose` or in it. -/
def LoopPc.isClosing : LoopPc → Bool
  | idle | connecting | connected | message => false
  | _ => true

/-- A connection that is disconnecting is being closed or will be. -/
def Requested (l : Life) : Prop :=
  l.status = .kDisconnecting → l.pc.isClosing = false → 0 < l.requests

section Requests

variable {C M E : Life → Prop} {l l' : Life}

theorem requests_of_calm (h : l.closers = [] ∧ l.closes = 0 ∧ l.timers = 0) : l.requests = 0 := by
  obtain ⟨hclosers, hcloses, htimers⟩ := h
  simp [Life.requests, hclosers, hcloses, htimers]

theorem requests_closeGoesOn {call : CloseCall} (h : call ∈ l.closers) :
    (TCPConn.closeGoesOn l call).requests = l.requests := by
  have hcount := (List.perm_cons_erase h).countP_eq fun x => x ≠ .assigning
  rw [List.countP_cons] at hcount
  cases call with
  | queueing =>
    simp only [TCPConn.closeGoesOn, Life.requests] at hcount ⊢
    simp only [ne_eq, reduceCtorEq, not_false_eq_true, decide_true, if_true] at hcount
    simp only [ne_eq]
    omega
  | arming =>
    simp only [TCPConn.closeGoesOn, Life.requests, List.countP_append, List.countP_singleton] at hcount ⊢
    simp only [ne_eq, reduceCtorEq, not_false_eq_true, decide_true, if_true] at hcount
    simp only [ne_eq, not_true_eq_false, decide_false, Bool.false_eq_true, if_false]
    omega
  | assigning =>
    simp only [TCPConn.closeGoesOn, Life.requests] at hcount ⊢
    simp only [ne_eq, not_true_eq_false, decide_false, Bool.false_eq_true, if_false] at hcount
    simp only [ne_eq]
    omega

theorem LifeStep.requested (h : LifeStep C M E l l') (hl : Requested l) : Requested l' := by
  cases h with
  | close call _ asks =>
    unfold compareExchange
    split
    · intro _ _
      have hlast : (l.closers ++ [call]).countP (· ≠ .assigning) = l.closers.countP (· ≠ .assigning) + 1 := by
        simp [List.countP_append, asks]
      show 0 < (l.closers ++ [call]).countP (· ≠ .assigning) + l.closes + l.timers
      omega
    · exact hl
  | closeGoesOn call hcall =>
    intro hstatus hpc
    rw [requests_closeGoesOn hcall]
    exact hl (by cases call <;> exact hstatus) (by cases call <;> exact hpc)
  | connectEstablished _ _ => intro hstatus; cases hstatus
  | notifyConnected hpc => exact fun hstatus _ => hl hstatus (by rw [hpc]; rfl)
  | runClose _ _ => intro _ hpc; cases hpc
  | fireTimer _ _ => intro _ hpc; cases hpc
  | handleError _ _ =>
    unfold TCPConn.handleError
    split
    · intro _ hpc; cases hpc
    · exact hl
  | message idle _ _ => exact fun hstatus _ => hl hstatus (by rw [idle]; rfl)
  | launched hpc _ =>
    refine fun hstatus _ => hl hstatus ?_
    cases hpc with
    | inl hpc => rw [hpc]; rfl
    | inr hpc => rw [hpc]; rfl
  | forced _ => intro _ hpc; cases hpc
  | reset _ _ => intro _ hpc; cases hpc
  | closeAgain _ hclosed => intro hstatus; exact absurd (hstatus.symm.trans hclosed) (by decide)
  | notifyDisconnecting _ => intro _ hpc; cases hpc
  | notifyClosed _ => intro _ hpc; cases hpc
  | finish _ => intro hstatus; cases hstatus
  | destroy => exact hl

end Requests

/-! ## Runs -/

section Runs

variable {n : Nat} {build : Build} {P : World n → Mem → Action n → Prop} {w w' : World n}
  {m m' : Mem} {a : Action n} {c : Fin n}

theorem exec_close_mem (h : w.Born) (enabled : w.Enabled m a)
    (done : w.exec a build m = .ok (w', m')) (c : Fin n) :
    (.close ∈ (w'.life c).log ↔ .close ∈ (w.life c).log) ∨
    a = .resume c ∧ (w.life c).pc = .notified ∧ w'.life c = TCPConn.notifyClosed (w.life c) := by
  cases exec_lifeStep h enabled done c with
  | inl hsame => exact .inl (by rw [hsame])
  | inr hstep =>
    cases hstep.close_mem with
    | inl hiff => exact .inl hiff
    | inr hnotify =>
      obtain ⟨hpc, hlife⟩ := hnotify
      refine .inr ⟨?_, hpc, hlife⟩
      by_contra hresume
      have hstays := exec_pc_busy enabled done (by rw [hpc]; decide) hresume
      rw [hlife, hpc] at hstays
      cases hstays

theorem RunOf.requested (h : RunOf build P w m) (c : Fin n) : Requested (w.life c) := by
  induction h with
  | start cell => intro hstatus; cases hstatus
  | @step w w' m m' a before enabled _ done ih =>
    cases before.lifeStep enabled done c with
    | inl hsame => rw [hsame]; exact ih
    | inr hstep => exact hstep.requested ih

theorem RunOf.close_mem (h : RunOf build P w m) (enabled : w.Enabled m a)
    (done : w.exec a build m = .ok (w', m')) (c : Fin n) :
    (.close ∈ (w'.life c).log ↔ .close ∈ (w.life c).log) ∨
    a = .resume c ∧ (w.life c).pc = .notified ∧ .close ∉ (w.life c).log ∧
      .close ∈ (w'.life c).log := by
  cases exec_close_mem h.stage.2 enabled done c with
  | inl hiff => exact .inl hiff
  | inr hnotify =>
    obtain ⟨hresume, hpc, hlife⟩ := hnotify
    refine .inr ⟨hresume, hpc, fun hclose => ?_, by simp [hlife, TCPConn.notifyClosed]⟩
    have hended := ((h.stage.1 c).of_close hclose).2
    simp [hpc] at hended

end Runs

end Netpp
