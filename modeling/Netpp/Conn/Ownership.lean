import Netpp.Conn.HandleClose

/-! # Who keeps a connection alive

A connection is kept alive by the `shared_ptr`s to it: the one its owner has, in
`connections_` or in `conn_`, until `close_cb_` makes the owner drop it, and those
in the tasks, timers and handlers that were bound to `shared_from_this()`.
`sendInLoop` alone binds the handler of its `async_send` to `this`.

* `Shared`: the connections together with the references of their owners.
* `SendStep`: what a step does to the sends in flight.
* `outlives_operations`: a connection is alive as long as it has an operation in
  flight, if `handleClose` does not run while a send of `sendInLoop` is.
-/

namespace Netpp

open TCPConn

/-! ## References -/

/-- Connections, and whether the owner of each still has its reference. -/
structure Shared (n : Nat) where
  world : World n := {}
  owned : Fin n → Bool := fun _ => true

inductive SharedAction (n : Nat) where
  | conn (a : Action n)
  | dropOwner (c : Fin n)

/-- The handler the loop thread is in has a reference.  Up to `socket_.reset()` that
    of `handleWrite` may not have one. -/
def LoopPc.holds : LoopPc → Bool
  | idle | forced | closing => false
  | _ => true

namespace Shared

variable {n : Nat}

/-- The `shared_ptr`s to a connection. -/
def references (s : Shared n) (c : Fin n) : Nat :=
  (s.owned c).toNat + (s.world.life c).pc.holds.toNat +
  ((s.world.life c).closers.length + (s.world.life c).closes + (s.world.life c).timers) +
  ((s.world.flow c).reads.length + (s.world.flow c).sends.length +
    (s.world.flow c).writes.countP (!·.raw))

def Enabled (s : Shared n) (m : Mem) : SharedAction n → Prop
  | .conn (.destroy c) => s.references c = 0 ∧ s.world.Enabled m (.destroy c)
  | .conn a => s.world.Enabled m a
  -- `close_cb_` makes the owner drop its reference, at once or by a posted task
  | .dropOwner c => s.owned c = true ∧ .close ∈ (s.world.life c).log

def exec (s : Shared n) : SharedAction n → ConnExec (Shared n)
  | .conn a => do
    let w ← s.world.exec a
    pure { s with world := w }
  | .dropOwner c => pure { s with owned := Function.update s.owned c false }

/-- `handleClose` runs only when no send of `sendInLoop` is in flight. -/
def SendsFirst (s : Shared n) : SharedAction n → Prop
  | .conn (.resume c) =>
    (s.world.life c).pc = .closing → ∀ op ∈ (s.world.flow c).writes, op.raw = false
  | _ => True

/-- Runs each of whose steps meets the condition `P`. -/
inductive RunOf (build : Build) (P : Shared n → SharedAction n → Prop) : Shared n → Mem → Prop
  | start (cell : Ptr → Piece) : RunOf build P {} { cell := cell }
  | step {s s' : Shared n} {m m' : Mem} (a : SharedAction n) (before : RunOf build P s m)
      (enabled : s.Enabled m a) (condition : P s a) (done : s.exec a build m = .ok (s', m')) :
      RunOf build P s' m'

end Shared

/-! ## Sends in flight -/

/-- What a step can do to the sends of a connection whose life is `l`. -/
inductive SendStep (l : Life) (f : Flow) : Flow → Prop
  | same {f' : Flow} (sending : f'.isSending = f.isSending) (writes : f'.writes = f.writes) :
      SendStep l f f'
  | started {f' : Flow} (p : Ptr) (raw : Bool) (socket : l.socket = true) (sending : f'.isSending = true)
      (writes : f'.writes = f.writes ++ [⟨p, raw, none⟩]) : SendStep l f f'
  | finished {f' : Flow} (op : WriteOp) (result : WriteResult) (mem : op ∈ f.writes)
      (sending : f'.isSending = f.isSending)
      (writes : f'.writes = f.writes.erase op ++ [{ op with result := some result }]) : SendStep l f f'
  | handled {f' : Flow} (op : WriteOp) (sending : f'.isSending = false)
      (writes : f'.writes = f.writes.erase op) : SendStep l f f'
  | relaunched {f' : Flow} (op : WriteOp) (p : Ptr) (sending : f'.isSending = true)
      (writes : f'.writes = f.writes.erase op ++ [⟨p, false, none⟩]) : SendStep l f f'

section Sends

variable {n : Nat} {build : Build} {w w' : World n} {m m' : Mem} {a : Action n} {c : Fin n}
  {l : Life} {f f' f₀ : Flow}

theorem asyncSend_started {piece : PiecePtr} {raw socket : Bool} :
    (asyncSend socket f piece raw).wlp build m fun f' _ =>
      socket = true ∧ f'.isSending = f.isSending ∧ ∃ p, f'.writes = f.writes ++ [⟨p, raw, none⟩] := by
  unfold asyncSend
  cases piece with
  | none => exact Prog.wlp_throw _ _ _ _
  | some p =>
    cases socket with
    | true => exact (Prog.wlp_pure ..).mpr ⟨rfl, rfl, p, rfl⟩
    | false => exact Prog.wlp_throw _ _ _ _

theorem startSend_started {raw socket : Bool} {out : Buffer} :
    (startSend raw socket out f).wlp build m fun r _ =>
      socket = true ∧ r.2.isSending = true ∧ ∃ p, r.2.writes = f.writes ++ [⟨p, raw, none⟩] := by
  simp only [startSend, Prog.wlp_bind, Prog.wlp_pure]
  intro r m' _
  exact asyncSend_started.imp fun f' _ h => h

theorem sendInLoop_sends {out : Buffer} {task : SendTask} (sending : f.isSending = f₀.isSending)
    (writes : f.writes = f₀.writes) :
    (sendInLoop l.socket out f task).wlp build m fun r _ => SendStep l f₀ r.2 := by
  simp only [sendInLoop, Prog.wlp_bind]
  intro b m' _
  split
  · exact (Prog.wlp_pure ..).mpr (.same sending writes)
  · refine startSend_started.imp fun r _ ⟨hsocket, hsending, p, hwrites⟩ => ?_
    exact .started p true hsocket hsending (hwrites.trans (by rw [← writes]))

theorem handleWrite_sends {out : Buffer} {op : WriteOp} :
    (handleWrite out f l op).wlp build m fun r _ => SendStep l f r.2.1 := by
  unfold TCPConn.handleWrite
  split
  · rw [Prog.wlp_bind]
    intro _ m' _
    split
    · simp only [Prog.wlp_bind, Prog.wlp_pure, launchWrite]
      split
      · refine startSend_started.imp ?_
        rintro r _ ⟨_, hsending, p, hwrites⟩
        exact .relaunched op p hsending hwrites
      · exact (Prog.wlp_pure ..).mpr (.handled op rfl rfl)
    · exact (Prog.wlp_pure ..).mpr (.handled op rfl rfl)
    · exact (Prog.wlp_pure ..).mpr (.handled op rfl rfl)
  · exact Prog.wlp_throw _ _ _ _

theorem launchRead_writes {socket : Bool} : (launchRead socket f).wlp build m fun f' _ =>
    f'.isSending = f.isSending ∧ f'.writes = f.writes := by
  simp only [launchRead, Prog.wlp_bind]
  intro piece m' _
  cases socket with
  | true => exact (Prog.wlp_pure ..).mpr ⟨rfl, rfl⟩
  | false => exact Prog.wlp_throw _ _ _ _

theorem resume_writes : (resume l f).wlp build m fun r _ =>
    r.2.isSending = f.isSending ∧ r.2.writes = f.writes := by
  unfold TCPConn.resume
  cases l.pc with
  | connected =>
    simp only [Prog.wlp_bind, Prog.wlp_pure]
    exact launchRead_writes
  | message =>
    simp only [Prog.wlp_bind, Prog.wlp_pure]
    exact launchRead_writes
  | closing =>
    simp only [Prog.wlp_bind, Prog.wlp_pure]
    exact fun _ _ _ => ⟨trivial, trivial⟩
  | _ => exact (Prog.wlp_pure ..).mpr ⟨rfl, rfl⟩

theorem sendStep_update {d : Fin n} (flow : w'.flow = Function.update w.flow d f)
    (h : SendStep (w.life d) (w.flow d) f) (c : Fin n) :
    SendStep (w.life c) (w.flow c) (w'.flow c) := by
  rw [flow]
  by_cases hc : c = d
  · subst hc
    rw [Function.update_self]
    exact h
  · rw [Function.update_of_ne hc]
    exact .same rfl rfl

theorem runSendTask_sends {d : Fin n} {w₀ : World n} {task : SendTask}
    (life : w.life = w₀.life) (flow : w.flow = Function.update w₀.flow d f)
    (sending : f.isSending = (w₀.flow d).isSending) (writes : f.writes = (w₀.flow d).writes) :
    (w.runSendTask d task).wlp build m fun w' _ =>
      ∀ c, SendStep (w₀.life c) (w₀.flow c) (w'.flow c) := by
  have hd : w.flow d = f := by rw [flow, Function.update_self]
  simp only [World.runSendTask, Prog.wlp_bind, Prog.wlp_pure, hd, life]
  refine (sendInLoop_sends sending writes).imp fun r _ h => ?_
  exact sendStep_update (by simp [World.setFlow, World.setBuf, flow]) h

theorem submit_sends {d : Fin n} {queue : Buffer} {inLoop : Bool} {w₀ : World n}
    (life : w.life = w₀.life) (flow : w.flow = w₀.flow) :
    (w.submit d queue inLoop).wlp build m fun w' _ =>
      ∀ c, SendStep (w₀.life c) (w₀.flow c) (w'.flow c) := by
  simp only [World.submit, Prog.wlp_bind]
  intro r m' _
  cases inLoop with
  | false =>
    refine (Prog.wlp_pure ..).mpr (sendStep_update (d := d)
      (f := { w₀.flow d with sends := (w₀.flow d).sends ++ [⟨queue, r.1, r.2⟩] }) ?_ (.same rfl rfl))
    simp [World.setFlow, flow]
  | true =>
    refine runSendTask_sends (f := { w₀.flow d with sends := (w₀.flow d).sends ++ [⟨queue, r.1, r.2⟩] })
      life ?_ rfl rfl
    simp [World.setFlow, flow]

theorem exec_resume_writes (done : w.exec (.resume c) build m = .ok (w', m')) :
    (w'.flow c).writes = (w.flow c).writes := by
  have hwlp : (w.exec (.resume c)).wlp build m fun w' _ => (w'.flow c).writes = (w.flow c).writes := by
    simp only [World.exec, Prog.wlp_bind, Prog.wlp_pure]
    refine resume_writes.imp fun r _ h => ?_
    show (Function.update w.flow c r.2 c).writes = _
    rw [Function.update_self]
    exact h.2
  exact hwlp w' m' done

theorem exec_sends (enabled : w.Enabled m a) (done : w.exec a build m = .ok (w', m')) (c : Fin n) :
    SendStep (w.life c) (w.flow c) (w'.flow c) := by
  have hwlp : (w.exec a).wlp build m fun w' _ => ∀ c, SendStep (w.life c) (w.flow c) (w'.flow c) := by
    cases a with
    | buffer op =>
      simp only [World.exec, Prog.wlp_bind, Prog.wlp_pure]
      exact fun _ _ _ _ => .same rfl rfl
    | sendData d x inLoop =>
      simp only [World.exec, World.sendData]
      split
      · exact (Prog.wlp_pure ..).mpr fun _ => .same rfl rfl
      · rw [Prog.wlp_bind]
        exact fun _ _ _ => submit_sends rfl rfl
    | sendBuffer d i inLoop =>
      simp only [World.exec, World.sendBuffer]
      split
      · exact (Prog.wlp_pure ..).mpr fun _ => .same rfl rfl
      · exact submit_sends rfl rfl
    | readDone d op result =>
      exact (Prog.wlp_pure ..).mpr (sendStep_update rfl (.same rfl rfl))
    | writeDone d op result =>
      intro w' m' h
      cases h
      refine sendStep_update rfl (.finished op result enabled.1 ?_ ?_)
      · cases result <;> rfl
      · cases result <;> rfl
    | runSend d task =>
      exact runSendTask_sends rfl (Function.update_eq_self d w.flow).symm rfl rfl
    | handleRead d op =>
      simp only [World.exec, Prog.wlp_bind, Prog.wlp_pure]
      have hsame : (handleRead (w.bufs (.input d)) (w.flow d) (w.life d) op).wlp build m
          fun r _ => SendStep (w.life d) (w.flow d) r.2.1 := by
        unfold TCPConn.handleRead
        dsimp only
        split
        · simp only [Prog.wlp_bind, Prog.wlp_pure]
          exact fun _ _ _ _ _ _ => .same rfl rfl
        · simp only [Prog.wlp_bind, Prog.wlp_pure]
          exact fun _ _ _ => .same rfl rfl
        · simp only [Prog.wlp_bind, Prog.wlp_pure]
          exact fun _ _ _ => .same rfl rfl
      exact hsame.imp fun r _ h => sendStep_update rfl h
    | handleWrite d op =>
      simp only [World.exec, Prog.wlp_bind, Prog.wlp_pure]
      exact handleWrite_sends.imp fun r _ h => sendStep_update rfl h
    | resume d =>
      simp only [World.exec, Prog.wlp_bind, Prog.wlp_pure]
      exact resume_writes.imp fun r _ h => sendStep_update rfl (.same h.1 h.2)
    | destroy d =>
      simp only [World.exec, World.destroy, Prog.wlp_bind, Prog.wlp_pure]
      exact fun _ _ _ _ _ _ _ _ _ _ _ _ _ => .same rfl rfl
    | _ => exact (Prog.wlp_pure ..).mpr fun _ => .same rfl rfl
  exact hwlp w' m' done c

end Sends

/-! ## Runs -/

namespace Shared

variable {n : Nat} {build : Build} {P : Shared n → SharedAction n → Prop} {s s' : Shared n}
  {m m' : Mem} {c : Fin n}

theorem exec_eq_ok {a : SharedAction n} (done : s.exec a build m = .ok (s', m')) :
    (∃ b, a = .conn b ∧ s.world.exec b build m = .ok (s'.world, m') ∧ s'.owned = s.owned) ∨
    (∃ d, a = .dropOwner d ∧ s'.world = s.world ∧ m' = m ∧
      s'.owned = Function.update s.owned d false) := by
  cases a with
  | conn b =>
    have hwlp : (s.exec (.conn b)).wlp build m fun s' m' =>
        s.world.exec b build m = .ok (s'.world, m') ∧ s'.owned = s.owned := by
      simp only [exec, Prog.wlp_bind, Prog.wlp_pure]
      exact fun w m' hw => ⟨hw, trivial⟩
    exact .inl ⟨b, rfl, hwlp s' m' done⟩
  | dropOwner d =>
    cases done
    exact .inr ⟨d, rfl, rfl, rfl, rfl⟩

theorem enabled_conn {a : Action n} (enabled : s.Enabled m (.conn a)) : s.world.Enabled m a := by
  cases a with
  | destroy c => exact enabled.2
  | _ => exact enabled

theorem RunOf.world (h : RunOf build P s m) : Netpp.RunOf build (fun _ _ _ => True) s.world m := by
  induction h with
  | start cell => exact .start cell
  | @step s s' m m' a _ enabled _ done ih =>
    rcases exec_eq_ok done with ⟨b, rfl, hrun, _⟩ | ⟨d, rfl, hworld, rfl, _⟩
    · exact ih.step b (enabled_conn enabled) trivial hrun
    · rw [hworld]
      exact ih

/-- The owner of a connection has a reference until `close_cb_` has been called. -/
theorem RunOf.owned (h : RunOf build P s m) (hdropped : s.owned c = false) :
    .close ∈ (s.world.life c).log := by
  induction h with
  | start cell => cases hdropped
  | @step s s' m m' a before enabled _ done ih =>
    rcases exec_eq_ok done with ⟨b, rfl, hrun, howned⟩ | ⟨d, rfl, hworld, rfl, howned⟩
    · have hclose := ih (by rw [← howned]; exact hdropped)
      cases before.world.lifeStep (enabled_conn enabled) hrun c with
      | inl hsame => rw [hsame]; exact hclose
      | inr hstep => exact hstep.log.mem hclose
    · rw [hworld]
      by_cases hd : c = d
      · subst hd
        exact enabled.2
      · rw [howned, Function.update_of_ne hd] at hdropped
        exact ih hdropped

theorem RunOf.sending (h : RunOf build P s m) (hsending : (s.world.flow c).isSending = true) :
    (s.world.flow c).writes ≠ [] := by
  induction h with
  | start cell => cases hsending
  | @step s s' m m' a before enabled _ done ih =>
    rcases exec_eq_ok done with ⟨b, rfl, hrun, _⟩ | ⟨d, rfl, hworld, _, _⟩
    · cases exec_sends (enabled_conn enabled) hrun c with
      | same sending writes =>
        rw [writes]
        exact ih (by rw [← sending]; exact hsending)
      | started p raw _ _ writes => simp [writes]
      | finished op result _ _ writes => simp [writes]
      | handled op sending _ => rw [sending] at hsending; cases hsending
      | relaunched op p _ writes => simp [writes]
    · rw [hworld] at hsending ⊢
      exact ih hsending

/-- A send of `sendInLoop` is in flight on an open socket only. -/
theorem RunOf.raw_socket (h : RunOf build SendsFirst s m) {op : WriteOp}
    (hop : op ∈ (s.world.flow c).writes) (hraw : op.raw = true) : (s.world.life c).socket = true := by
  induction h generalizing op with
  | start cell => cases hop
  | @step s s' m m' a before enabled condition done ih =>
    rcases exec_eq_ok done with ⟨b, rfl, hrun, _⟩ | ⟨d, rfl, hworld, _, _⟩
    · -- the socket was there before the step ...
      have hold : (s.world.life c).socket = true := by
        cases exec_sends (enabled_conn enabled) hrun c with
        | same _ writes => exact ih (writes ▸ hop) hraw
        | started p raw hsocket _ _ => exact hsocket
        | finished op' result hmem _ writes =>
          rw [writes] at hop
          cases List.mem_append.mp hop with
          | inl herase => exact ih (List.mem_of_mem_erase herase) hraw
          | inr hlast =>
            obtain rfl := List.mem_singleton.mp hlast
            exact ih hmem hraw
        | handled op' _ writes => exact ih (List.mem_of_mem_erase (writes ▸ hop)) hraw
        | relaunched op' p _ writes =>
          rw [writes] at hop
          cases List.mem_append.mp hop with
          | inl herase => exact ih (List.mem_of_mem_erase herase) hraw
          | inr hlast =>
            obtain rfl := List.mem_singleton.mp hlast
            cases hraw
      by_contra hreset
      cases before.world.lifeStep (enabled_conn enabled) hrun c with
      | inl hsame => rw [hsame] at hreset; exact hreset hold
      | inr hstep =>
        obtain ⟨hclosing, hpc⟩ := hstep.socket_reset hold (by simpa using hreset)
        by_cases hb : b = .resume c
        · subst hb
          have hwrites := exec_resume_writes hrun
          rw [condition hclosing op (hwrites ▸ hop)] at hraw
          cases hraw
        · have hstays := exec_pc_busy (enabled_conn enabled) hrun (by rw [hclosing]; decide) hb
          rw [hpc, hclosing] at hstays
          cases hstays
    · rw [hworld] at hop ⊢
      exact ih hop hraw

/-- In every run in which `handleClose` waits for the sends of `sendInLoop`: a
    connection with an operation in flight has a reference, and is destroyed only
    when it sends nothing and is disconnected. -/
theorem outlives_operations (h : RunOf build SendsFirst s m) (c : Fin n) :
    ((s.world.flow c).reads ≠ [] ∨ (s.world.flow c).writes ≠ [] → 0 < s.references c) ∧
    (s.Enabled m (.conn (.destroy c)) →
      (s.world.flow c).isSending = false ∧ (s.world.life c).status = .kDisconnected) := by
  have hstage := h.world.stage.1 c
  have hwrite : (s.world.flow c).writes ≠ [] → 0 < s.references c := fun hwrites => by
    obtain ⟨op, hop⟩ := List.exists_mem_of_ne_nil _ hwrites
    cases hraw : op.raw with
    | false =>
      have hcount : 0 < (s.world.flow c).writes.countP (!·.raw) :=
        List.countP_pos_iff.mpr ⟨op, hop, by simp [hraw]⟩
      unfold references
      omega
    | true =>
      have howned : s.owned c = true := by
        by_contra hdropped
        have hclosed := (hstage.of_close (h.owned (by simpa using hdropped))).1
        rw [h.raw_socket hop hraw] at hclosed
        cases hclosed
      unfold references
      rw [howned, Bool.toNat_true]
      omega
  refine ⟨fun hpending => ?_, fun enabled => ?_⟩
  · cases hpending with
    | inl hreads =>
      have hlength := List.length_pos_of_ne_nil hreads
      unfold references
      omega
    | inr hwrites => exact hwrite hwrites
  · obtain ⟨hzero, _, hidle, _⟩ := enabled
    constructor
    · cases hsending : (s.world.flow c).isSending with
      | false => rfl
      | true =>
        have := hwrite (h.sending hsending)
        omega
    · have hdropped : s.owned c = false := by
        cases howned : s.owned c with
        | false => rfl
        | true =>
          unfold references at hzero
          rw [howned, Bool.toNat_true] at hzero
          omega
      rcases (hstage.of_close (h.owned hdropped)).2 with ⟨hclosed, _⟩ | ⟨_, hstatus⟩
      · rw [hidle] at hclosed; cases hclosed
      · exact hstatus

theorem small_of_empty {w : World n} (h : ∀ i, (w.bufs i).head = none) : w.Small m := by
  intro i
  have hnil : (w.bufs i).pieces m = [] := by
    unfold Queue.pieces
    rw [h i]
    cases m.brk <;> rfl
  rw [hnil]
  exact Nat.succ_pos _

theorem exec_conn {a : Action n} {w' : World n} (hrun : s.world.exec a build m = .ok (w', m')) :
    s.exec (.conn a) build m = .ok ({ s with world := w' }, m') := by
  simp only [exec]
  rw [Prog.bind_apply, hrun]
  rfl

/-- A connection that is sending a byte has a reference.  One whose read fails is closed and then
    destroyed. -/
theorem outlives_operations_closed :
    (∃ (s : Shared 1) (m : Mem), RunOf .debug SendsFirst s m ∧
      (s.world.flow 0).writes = [⟨1, true, none⟩] ∧ 0 < s.references 0) ∧
    ∃ (s : Shared 1) (m : Mem), RunOf .debug SendsFirst s m ∧ s.Enabled m (.conn (.destroy 0)) ∧
      (s.world.flow 0).isSending = false ∧ (s.world.life 0).status = .kDisconnected := by
  have r : RunOf .debug SendsFirst ({} : Shared 1) emptyMem := .start _
  have r := r.step (.conn (.connectEstablished 0)) ⟨rfl, rfl, rfl⟩ trivial rfl
  have r := r.step (.conn (.resume 0)) (by intro h; cases h) (by intro h; cases h) rfl
  have r := r.step (.conn (.resume 0)) (by intro h; cases h) (by intro h; cases h) rfl
  have rsend := r.step (.conn (.sendData 0 [7] true)) ⟨rfl, fun _ => rfl⟩ trivial rfl
  refine ⟨⟨_, _, rsend, rfl, (outlives_operations rsend 0).1 (.inr (by decide))⟩, ?_⟩
  have r := r.step (.conn (.readDone 0 ⟨0, none⟩ .failed)) ⟨.head _, rfl, rfl⟩ trivial rfl
  obtain ⟨chain, lost, k, hcustody, _⟩ := r.world.custody
  have hfails : (World.exec _ (.handleRead 0 ⟨0, some .failed⟩)).wp .debug _ _ :=
    handleRead_fails hcustody (.head _) rfl
  obtain ⟨w', m', done, rfl⟩ := hfails
  have r := r.step (.conn (.handleRead 0 ⟨0, some .failed⟩)) ⟨.head _, (by intro h; cases h), rfl⟩
    trivial (exec_conn done)
  have r := r.step (.conn (.resume 0)) (by intro h; cases h) (by intro h; cases h) rfl
  have r := r.step (.conn (.resume 0)) (by intro h; cases h) (fun _ _ hop => by cases hop) rfl
  have r := r.step (.conn (.resume 0)) (by intro h; cases h) (by intro h; cases h) rfl
  have r := r.step (.conn (.resume 0)) (by intro h; cases h) (by intro h; cases h) rfl
  have r := r.step (.conn (.resume 0)) (by intro h; cases h) (by intro h; cases h) rfl
  have r := r.step (.dropOwner 0) ⟨rfl, by decide⟩ trivial rfl
  refine ⟨_, _, r, ?enabled, (outlives_operations r 0).2 ?enabled⟩
  exact ⟨rfl, rfl, rfl, ⟨rfl, rfl, rfl, rfl, rfl, fun _ hop => absurd hop List.not_mem_nil⟩,
    small_of_empty fun _ => rfl⟩

def one (bufs : BufferId 1 → Buffer) (l : Life) (f : Flow) (owned : Bool) : Shared 1 :=
  ⟨⟨bufs, fun _ => l, fun _ => f⟩, fun _ => owned⟩

theorem eq_one (s : Shared 1) :
    s = one s.world.bufs (s.world.life 0) (s.world.flow 0) (s.owned 0) := by
  obtain ⟨world, owned⟩ := s
  have howned : owned = fun _ => owned 0 := by
    funext c
    rw [Subsingleton.elim c 0]
  rw [world.eq_one, howned]
  rfl

theorem RunOf.one {P : Shared 1 → SharedAction 1 → Prop} {s : Shared 1} (h : RunOf build P s m) :
    RunOf build P (one s.world.bufs (s.world.life 0) (s.world.flow 0) (s.owned 0)) m := eq_one s ▸ h

/-- A read fails while a send of `sendInLoop` is in flight.  When the handler of the
    read is done, nothing keeps the connection alive: it is destroyed while it is
    sending, and the handler of the send will run on what is left of it. -/
theorem raw_send_outlives :
    ∃ (s : Shared 1) (m : Mem), RunOf .release (fun _ _ => True) s m ∧
      (s.world.flow 0).writes = [⟨1, true, none⟩] ∧ s.references 0 = 0 ∧
      s.Enabled m (.conn (.destroy 0)) ∧ (s.world.flow 0).isSending = true := by
  have r : RunOf .release (fun _ _ => True) ({} : Shared 1) emptyMem := .start _
  have r := r.step (.conn (.connectEstablished 0)) ⟨rfl, rfl, rfl⟩ trivial rfl
  have r := r.step (.conn (.resume 0)) (by intro h; cases h) trivial rfl
  have r := r.step (.conn (.resume 0)) (by intro h; cases h) trivial rfl
  have r := r.step (.conn (.sendData 0 [1] true)) ⟨rfl, fun _ => rfl⟩ trivial rfl
  obtain ⟨bufs, m, hempty, r⟩ : ∃ bufs m, (∀ i, (bufs i : Buffer).head = none) ∧
      RunOf .release (fun _ _ => True)
        (one bufs { established := true, status := .kConnected, log := [.connection .kConnected] }
          { isSending := true, reads := [⟨0, none⟩], writes := [⟨1, true, none⟩], submitted := [1] }
          true) m := by
    refine ⟨_, _, fun i => ?_, r.one⟩
    cases i with
    | output d =>
      match d with
      | 0 => exact rfl
    | user j => exact rfl
    | input d => exact rfl
  have r := r.step (.conn (.readDone 0 ⟨0, none⟩ .failed)) ⟨.head _, rfl, rfl⟩ trivial rfl
  obtain ⟨chain, lost, k, hcustody, _⟩ := r.world.custody
  have hfails : (World.exec _ (.handleRead 0 ⟨0, some .failed⟩)).wp .release _ _ :=
    handleRead_fails hcustody (.head _) rfl
  obtain ⟨w', m', done, rfl⟩ := hfails
  have r := r.step (.conn (.handleRead 0 ⟨0, some .failed⟩)) ⟨.head _, (by intro h; cases h), rfl⟩
    trivial (exec_conn done)
  have r := r.step (.conn (.resume 0)) (by intro h; cases h) trivial rfl
  have r := r.step (.conn (.resume 0)) (by intro h; cases h) trivial rfl
  have r := r.step (.conn (.resume 0)) (by intro h; cases h) trivial rfl
  have r := r.step (.conn (.resume 0)) (by intro h; cases h) trivial rfl
  have r := r.step (.conn (.resume 0)) (by intro h; cases h) trivial rfl
  have r := r.step (.dropOwner 0) ⟨rfl, .tail _ (.tail _ (.head _))⟩ trivial rfl
  refine ⟨_, _, r, rfl, rfl, ⟨rfl, rfl, rfl, ⟨rfl, rfl, rfl, rfl, rfl, ?_⟩, small_of_empty hempty⟩, rfl⟩
  intro op hop
  obtain rfl := List.mem_singleton.mp hop
  rfl

end Shared

end Netpp
