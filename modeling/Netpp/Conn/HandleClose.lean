import Netpp.Conn.Custody
import Netpp.Conn.Frame

/-! # The assertions of `handleClose`

`handleClose` asserts that `status_` is `kDisconnecting` and that the socket is
open.  It is called by the task of `close`, by the timer of `closeWithDelay`, and
by `handleError`; the first two are asked for by a compare-and-swap that succeeds
once, the last one does not look whether it was asked for.

* `World.ClosesOnce`: no error is handled while there is a request, and none is
  made while an error is being handled.
* `handleClose_asserts_hold`: then the assertions hold.
-/

namespace Netpp

open TCPConn

/-! ## Requests -/

/-- A connection is asked to close at most once, and has no request left once it is
    being closed. -/
structure ClosedOnce (l : Life) : Prop where
  single : l.requests ≤ 1
  served : l.status = .kDisconnected ∨ l.pc.isClosing = true → l.requests = 0
  closing : l.pc = .closing → l.status = .kDisconnecting
  isOpen : l.socket = true → l.isOpen = true

section Steps

variable {M : Life → Prop} {l l' : Life}

theorem Stage.requests_of_connected (h : Stage l) (hstatus : l.status = .kConnected) :
    l.requests = 0 := by
  by_contra hrequests
  have hbusy : l.closers ≠ [] ∨ 0 < l.closes ∨ 0 < l.timers := by
    by_contra hcalm
    simp only [not_or, not_not, Nat.not_lt, Nat.le_zero] at hcalm
    exact hrequests (requests_of_calm hcalm)
  exact (h.not_calm hbusy).2 hstatus

theorem ClosedOnce.of_none (requests : l.requests = 0)
    (closing : l.pc = .closing → l.status = .kDisconnecting)
    (isOpen : l.socket = true → l.isOpen = true) : ClosedOnce l :=
  ⟨by omega, fun _ => requests, closing, isOpen⟩

theorem ClosedOnce.of_pc (h : ClosedOnce l) (requests : l'.requests = l.requests)
    (status : l'.status = l.status) (pc : l'.pc.isClosing = false) (socket : l'.socket = l.socket)
    (isOpen : l'.isOpen = l.isOpen) : ClosedOnce l' := by
  refine ⟨requests.trans_le h.single, fun hserved => ?_, fun hclosing => ?_, ?_⟩
  · rw [pc, status] at hserved
    rw [requests]
    exact h.served (hserved.imp_right fun hfalse => by cases hfalse)
  · rw [hclosing] at pc
    cases pc
  · rw [socket, isOpen]
    exact h.isOpen

theorem Stage.not_closing (h : Stage l) (hconnected : l.status = .kConnected)
    (hforced : l.pc ≠ .forced) : l.pc.isClosing = false := by
  cases h with
  | unborn _ _ _ hidle => rw [hidle]; rfl
  | connecting _ _ _ hconnecting => rw [hconnecting]; rfl
  | opened first ms _ _ _ _ hnot _ hclosing _ =>
    cases hpc : l.pc with
    | closing => rw [hclosing (.inl hpc)] at hconnected; cases hconnected
    | reset => rw [hclosing (.inr hpc)] at hconnected; cases hconnected
    | notified => exact absurd hpc hnot.2.1
    | closed => exact absurd hpc hnot.2.2
    | forced => exact absurd hpc hforced
    | _ => rfl
  | between first ms _ _ _ hstatus => rw [hstatus] at hconnected; cases hconnected
  | ended first ms late _ _ _ _ hstatus =>
    rcases hstatus with ⟨_, hstatus⟩ | ⟨_, hstatus⟩
    · rw [hstatus] at hconnected; cases hconnected
    · rw [hstatus] at hconnected; cases hconnected

theorem ClosedOnce.serve (h : ClosedOnce l) (hstage : Stage l) (busy : 0 < l.closes ∨ 0 < l.timers) :
    l.status = .kDisconnecting := by
  have hrequests : l.requests ≠ 0 := by
    unfold Life.requests
    omega
  cases hstatus : l.status with
  | kConnected => exact absurd (hstage.requests_of_connected hstatus) hrequests
  | kDisconnecting => rfl
  | kDisconnected => exact absurd (h.served (.inl hstatus)) hrequests

/-- One step of a connection, if `handleError` does not run while there is a request
    and none is made while `handleError` runs. -/
theorem LifeStep.closedOnce
    (h : LifeStep (fun l => l.pc ≠ .forced) M (fun l => l.status ≠ .kDisconnecting) l l')
    (hstage : Stage l) (hl : ClosedOnce l) : ClosedOnce l' := by
  cases h with
  | close call hforced =>
    unfold compareExchange
    split
    · rename_i hconnected
      have hpc := hstage.not_closing hconnected hforced
      have hnone := hstage.requests_of_connected hconnected
      have hone : (l.closers ++ [call]).countP (· ≠ .assigning) + l.closes + l.timers ≤ 1 := by
        have hlast : [call].countP (· ≠ .assigning) ≤ 1 := List.countP_le_length
        rw [List.countP_append]
        unfold Life.requests at hnone
        omega
      refine ⟨hone, fun hserved => ?_, fun _ => rfl, hl.isOpen⟩
      simp [hpc] at hserved
    · exact hl
  | closeGoesOn call hcall =>
    have hsame := requests_closeGoesOn hcall
    have hstatus : (TCPConn.closeGoesOn l call).status = l.status := by cases call <;> rfl
    have hpc : (TCPConn.closeGoesOn l call).pc = l.pc := by cases call <;> rfl
    refine ⟨hsame.trans_le hl.single, ?_, ?_, ?_⟩
    · rw [hsame, hstatus, hpc]
      exact hl.served
    · rw [hstatus, hpc]
      exact hl.closing
    · cases call <;> exact hl.isOpen
  | connectEstablished idle hnew =>
    have hcalm : l.closers = [] ∧ l.closes = 0 ∧ l.timers = 0 := by
      cases hstage with
      | unborn _ _ _ _ _ hcalm => exact hcalm
      | connecting hestablished => rw [hnew] at hestablished; cases hestablished
      | opened first ms hestablished => rw [hnew] at hestablished; cases hestablished
      | between first ms hestablished => rw [hnew] at hestablished; cases hestablished
      | ended first ms late hestablished => rw [hnew] at hestablished; cases hestablished
    exact .of_none (requests_of_calm hcalm) (fun hpc => by cases hpc) hl.isOpen
  | notifyConnected hpc => exact hl.of_pc rfl rfl rfl rfl rfl
  | runClose idle hcloses =>
    have hone := hl.single
    unfold Life.requests at hone
    have hnone : l.closers.countP (· ≠ .assigning) + (l.closes - 1) + l.timers = 0 := by omega
    exact .of_none hnone (fun _ => hl.serve hstage (.inl hcloses)) hl.isOpen
  | fireTimer idle htimers =>
    have hone := hl.single
    unfold Life.requests at hone
    have hnone : l.closers.countP (· ≠ .assigning) + l.closes + (l.timers - 1) = 0 := by omega
    exact .of_none hnone (fun _ => hl.serve hstage (.inr htimers)) hl.isOpen
  | handleError idle hnot =>
    unfold TCPConn.handleError
    split
    · rename_i hstatus
      have hconnected : l.status = .kConnected := by
        cases hs : l.status with
        | kConnected => rfl
        | kDisconnecting => exact absurd hs hnot
        | kDisconnected => exact absurd hs hstatus
      have hnone := hstage.requests_of_connected hconnected
      exact .of_none hnone (fun hpc => by cases hpc) hl.isOpen
    · exact hl
  | message idle _ _ => exact hl.of_pc rfl rfl rfl rfl rfl
  | launched _ _ => exact hl.of_pc rfl rfl rfl rfl rfl
  | forced hpc =>
    have hnone := hl.served (.inr (by rw [hpc]; rfl))
    exact .of_none hnone (fun _ => rfl) hl.isOpen
  | reset hpc _ =>
    have hnone := hl.served (.inr (by rw [hpc]; rfl))
    exact .of_none hnone (fun hclosing => by cases hclosing) fun hsocket => by cases hsocket
  | closeAgain _ _ => exact hl.of_pc rfl rfl rfl rfl rfl
  | notifyDisconnecting hpc =>
    have hnone := hl.served (.inr (by rw [hpc]; rfl))
    exact .of_none hnone (fun hclosing => by cases hclosing) hl.isOpen
  | notifyClosed hpc =>
    have hnone := hl.served (.inr (by rw [hpc]; rfl))
    exact .of_none hnone (fun hclosing => by cases hclosing) hl.isOpen
  | finish hpc =>
    have hnone := hl.served (.inr (by rw [hpc]; rfl))
    exact .of_none hnone (fun hclosing => by cases hclosing) hl.isOpen
  | destroy => exact ⟨hl.single, hl.served, hl.closing, hl.isOpen⟩

end Steps

/-! ## Runs -/

section Runs

variable {n : Nat} {build : Build} {w w' : World n} {m m' : Mem} {a : Action n} {c : Fin n}

/-- No error is handled on a connection that has been asked to close, and none is
    asked to close while `handleError` is between its check of `status_` and its
    assignment. -/
def World.ClosesOnce (w : World n) (_ : Mem) : Action n → Prop
  | .handleRead c op => op.result = some .failed → (w.life c).status ≠ .kDisconnecting
  | .handleWrite c op => op.result = some .failed → (w.life c).status ≠ .kDisconnecting
  | .close c | .closeWithDelay c => (w.life c).pc ≠ .forced
  | _ => True

theorem World.ClosesOnce.moves (once : w.ClosesOnce m a) (born : w.Born) (enabled : w.Enabled m a)
    (done : w.exec a build m = .ok (w', m')) :
    LifeMoves (fun l => l.pc ≠ .forced) (fun _ => True) (fun l => l.status ≠ .kDisconnecting) w w' := by
  refine exec_life (fun c hc => ?_) (fun _ _ _ _ _ => trivial) (fun c hc => ?_) born enabled done
  · cases hc with
    | inl h => subst h; exact once
    | inr h => subst h; exact once
  · cases a with
    | handleRead d op => obtain ⟨rfl, hfailed⟩ := hc; exact once hfailed
    | handleWrite d op => obtain ⟨rfl, hfailed⟩ := hc; exact once hfailed
    | _ => cases hc

theorem RunOf.closedOnce (h : RunOf build World.ClosesOnce w m) (c : Fin n) :
    ClosedOnce (w.life c) := by
  induction h with
  | start cell => exact .of_none rfl (fun hpc => by cases hpc) fun _ => rfl
  | @step w w' m m' a before enabled condition done ih =>
    cases condition.moves before.stage.2 enabled done c with
    | inl hsame => rw [hsame]; exact ih
    | inr hstep => exact hstep.closedOnce (before.stage.1 c) ih

/-- In every run that closes its connections once, `handleClose` starts with
    `status_ == kDisconnecting`, and with an open socket if there is one. -/
theorem handleClose_asserts_hold (h : RunOf build World.ClosesOnce w m) (c : Fin n)
    (start : (w.life c).pc = .closing) :
    (w.life c).status = .kDisconnecting ∧ ((w.life c).socket = true → (w.life c).isOpen = true) :=
  ⟨(h.closedOnce c).closing start, (h.closedOnce c).isOpen⟩

/-- In a debug build, `handleClose` stops at its assertion. -/
theorem not_wp_handleClose {Q : World n → Mem → Prop} (hpc : (w.life c).pc = .closing)
    (hstatus : (w.life c).status ≠ .kDisconnecting) : ¬ (w.exec (.resume c)).wp .debug m Q := by
  simp only [World.exec, TCPConn.resume, hpc, TCPConn.handleClose, onPieces, Prog.wp_bind,
    Prog.wp_mapFault]
  intro h
  exact hstatus (by simpa using true_of_wp_assert h)

theorem handleRead_fails {chain : BufferId n → List Ptr} {lost : List Ptr} {k : Nat} {op : ReadOp}
    (h : w.Custody m chain lost k) (hop : op ∈ (w.flow c).reads)
    (hresult : op.result = some .failed) :
    (w.exec (.handleRead c op)).wp build m fun w' _ =>
      w' = (w.setFlow c { w.flow c with reads := (w.flow c).reads.erase op }).setLife c
        (TCPConn.handleError (w.life c)) := by
  obtain ⟨rest, hfocus⟩ := h.focus (.input c) c
  have hheld := (Flow.held_perm_read hop).append_right (lost ++ rest)
  have hperm := (hheld.append_left (chain (.input c))).trans List.perm_middle
  simp only [World.exec, TCPConn.handleRead, hresult, onPieces, Prog.wp_bind, Prog.wp_mapFault]
  refine (hfocus.owns.deletePiece hperm).imp ?_
  intro _ m' _
  simp only [Prog.wp_pure, World.setBuf, Function.update_eq_self]

/-- A connection that is closed on request: `handleClose` finds it disconnecting. -/
theorem handleClose_asserts_hold_requested :
    ∃ (w : World 1) (m : Mem), RunOf .debug World.ClosesOnce w m ∧ (w.life 0).pc = .closing ∧
      (w.life 0).socket = true ∧ (w.life 0).status = .kDisconnecting ∧ (w.life 0).isOpen = true := by
  have r : RunOf .debug World.ClosesOnce ({} : World 1) emptyMem := .start _
  have r := r.step (.connectEstablished 0) ⟨rfl, rfl, rfl⟩ trivial rfl
  have r := r.step (.resume 0) (by intro h; cases h) trivial rfl
  have r := r.step (.resume 0) (by intro h; cases h) trivial rfl
  have r := r.step (.close 0) ⟨rfl, by decide⟩ (by intro h; cases h) rfl
  have r := r.step (.closeGoesOn 0 .queueing) (.head _) trivial rfl
  have r := r.step (.runClose 0) ⟨by decide, rfl⟩ trivial rfl
  obtain ⟨hstatus, hopen⟩ := handleClose_asserts_hold r 0 rfl
  exact ⟨_, _, r, rfl, rfl, hstatus, hopen rfl⟩

/-- A read fails while the timer of `closeWithDelay` is running.  `handleError` closes
    the connection and cancels the timer; its callback, which looks at no error code,
    then calls `handleClose` on the closed connection, and the assertion fails. -/
theorem cancelled_timer_fails_assert :
    ∃ (w : World 1) (m : Mem), RunOf .debug (fun _ _ _ => True) w m ∧
      (w.life 0).established = true ∧ (w.life 0).pc = .closing ∧
      (w.life 0).status = .kDisconnected ∧ ¬ (w.exec (.resume 0)).wp .debug m fun _ _ => True := by
  have r : RunOf .debug (fun _ _ _ => True) ({} : World 1) emptyMem := .start _
  have r := r.step (.connectEstablished 0) ⟨rfl, rfl, rfl⟩ trivial rfl
  have r := r.step (.resume 0) (by intro h; cases h) trivial rfl
  have r := r.step (.resume 0) (by intro h; cases h) trivial rfl
  have r := r.step (.closeWithDelay 0) ⟨rfl, by decide⟩ trivial rfl
  have r := r.step (.closeGoesOn 0 .arming) (.head _) trivial rfl
  have r := r.step (.closeGoesOn 0 .assigning) (.head _) trivial rfl
  have r := r.step (.readDone 0 ⟨0, none⟩ .failed) ⟨.head _, rfl, rfl⟩ trivial rfl
  obtain ⟨chain, lost, k, hcustody, _⟩ := r.custody
  have hfails : (World.exec _ (.handleRead 0 ⟨0, some .failed⟩)).wp .debug _ _ :=
    handleRead_fails hcustody (.head _) rfl
  obtain ⟨w', m', done, rfl⟩ := hfails
  have r := r.step (.handleRead 0 ⟨0, some .failed⟩) ⟨.head _, (by intro h; cases h), rfl⟩ trivial done
  have r := r.step (.resume 0) (by intro h; cases h) trivial rfl
  have r := r.step (.resume 0) (by intro h; cases h) trivial rfl
  have r := r.step (.resume 0) (by intro h; cases h) trivial rfl
  have r := r.step (.resume 0) (by intro h; cases h) trivial rfl
  have r := r.step (.resume 0) (by intro h; cases h) trivial rfl
  have r := r.step (.fireTimer 0) ⟨by decide, rfl⟩ trivial rfl
  exact ⟨_, _, r, rfl, rfl, rfl, not_wp_handleClose rfl (by intro h; cases h)⟩

end Runs

end Netpp
