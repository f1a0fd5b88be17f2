import Netpp.Conn.Lifecycle

/-! # After `socket_` has been reset

`handleClose` resets `socket_` while completions and posted tasks are still
queued.  None of their handlers looks at `status_` or `socket_` again, so each of
them can go wrong:

* `handleRead` with a success queued before the reset calls `message_cb_`, and
  `launchRead` after it dereferences `socket_`;
* a posted `sendInLoop` dereferences it if nothing is being sent;
* `handleWrite` with a queued success dereferences it, in `launchWrite`, if there
  is more to send.

`World.QuietAfterReset` says that a step is none of these, and
`quiet_after_reset` that nothing else can go wrong.
-/

namespace Netpp

open TCPConn Prog

/-! ## The condition -/

variable {n : Nat} {build : Build} {C E : Life → Prop} {w w' : World n} {m m' : Mem} {a : Action n}
  {c : Fin n}

/-- Once `socket_` is gone, no read completes successfully, no posted `sendInLoop`
    runs while nothing is being sent, and no write completes successfully while
    there is more to send. -/
def World.QuietAfterReset (w : World n) (_ : Mem) : Action n → Prop
  | .handleRead c op => (w.life c).socket = false → ∀ d, op.result ≠ some (.success d)
  | .runSend c _ => (w.life c).socket = false → (w.flow c).isSending = true
  | .handleWrite c op => (w.life c).socket = false →
      ∀ k, op.result = some (.success k) → (w.bufs (.output c)).length = 0
  | _ => True

theorem LifeStep.socket_of_message {l l' : Life} (h : LifeStep C (fun l => l.socket = true) E l l')
    (hl : l.pc = .message → l.socket = true) (hpc : l'.pc = .message) : l'.socket = true := by
  cases h with
  | close call _ =>
    unfold compareExchange at hpc ⊢
    split at hpc
    · rename_i hconnected
      rw [if_pos hconnected]
      exact hl hpc
    · rename_i hnot
      rw [if_neg hnot]
      exact hl hpc
  | closeGoesOn call _ => cases call <;> exact hl hpc
  | handleError idle _ =>
    unfold TCPConn.handleError at hpc
    split at hpc
    · cases hpc
    · rw [idle] at hpc
      cases hpc
  | message _ _ hsocket => exact hsocket
  | destroy => exact hl hpc
  | _ => cases hpc

theorem LifeStep.count_message {l l' : Life} (h : LifeStep C (fun l => l.socket = true) E l l')
    (hsocket : l.socket = false) : l'.log.count .message = l.log.count .message := by
  cases h with
  | close call _ =>
    unfold compareExchange
    split <;> rfl
  | closeGoesOn call _ => cases call <;> rfl
  | notifyConnected _ => simp [TCPConn.notifyConnected]
  | handleError _ _ =>
    unfold TCPConn.handleError
    split <;> rfl
  | message _ _ hopen => rw [hsocket] at hopen; cases hopen
  | notifyDisconnecting _ => simp [TCPConn.notifyDisconnecting]
  | notifyClosed _ => simp [TCPConn.notifyClosed]
  | _ => rfl

theorem Stage.socket_of_pc {l : Life} (h : Stage l) (hpc : l.pc = .connected) : l.socket = true := by
  cases h with
  | unborn _ _ _ _ hsocket => exact hsocket
  | connecting _ _ _ _ hsocket => exact hsocket
  | opened first ms _ _ _ _ _ hsocket => exact hsocket.mpr (by simp [hpc])
  | between first ms _ _ _ _ hnotified => rw [hpc] at hnotified; cases hnotified
  | ended first ms late _ _ _ _ hstatus => simp [hpc] at hstatus

theorem World.QuietAfterReset.moves (quiet : w.QuietAfterReset m a) (born : w.Born)
    (enabled : w.Enabled m a) (done : w.exec a build m = .ok (w', m')) :
    LifeMoves (fun _ => True) (fun l => l.socket = true) (fun _ => True) w w' := by
  refine exec_life (fun _ _ => trivial) (fun c op d ha hresult => ?_) (fun _ _ => trivial) born enabled done
  subst ha
  by_contra hsocket
  exact quiet (by simpa using hsocket) d hresult

/-! ## What a step dereferences -/

theorem avoids_onPieces {α : Type} (p : Exec α) : Avoids .nullSocket (onPieces p) build m :=
  avoids_mapFault (fun _ h => by cases h) p build m

theorem startSend_avoids {raw : Bool} {out : Buffer} {f : Flow} :
    Avoids .nullSocket (startSend raw true out f) build m := by
  refine avoids_bind (avoids_onPieces _) fun r m' _ => avoids_bind ?_ fun _ _ _ => avoids_pure _ _ _ _
  unfold asyncSend
  cases r.1 with
  | none =>
    intro h
    cases h
  | some p => exact avoids_pure _ _ _ _

theorem sendInLoop_avoids {socket : Bool} {out : Buffer} {f : Flow} {task : SendTask}
    (h : socket = true ∨ f.isSending = true) :
    Avoids .nullSocket (sendInLoop socket out f task) build m := by
  refine avoids_bind (avoids_onPieces _) fun b m' _ => ?_
  dsimp only
  split
  · exact avoids_pure _ _ _ _
  · rename_i hidle
    obtain rfl : socket = true := by
      cases h with
      | inl hsocket => exact hsocket
      | inr hsending => exact absurd hsending hidle
    exact startSend_avoids

theorem runSendTask_avoids {task : SendTask}
    (h : (w.life c).socket = true ∨ (w.flow c).isSending = true) :
    Avoids .nullSocket (w.runSendTask c task) build m :=
  avoids_bind (sendInLoop_avoids h) fun _ _ _ => avoids_pure _ _ _ _

theorem submit_avoids {queue : Buffer} {inLoop : Bool} (h : (w.life c).socket = true) :
    Avoids .nullSocket (w.submit c queue inLoop) build m := by
  refine avoids_bind (avoids_onPieces _) fun r m' _ => ?_
  cases inLoop with
  | true => exact runSendTask_avoids (.inl h)
  | false => exact avoids_pure _ _ _ _

theorem sendData_avoids {d : Bytes} {inLoop : Bool}
    (h : (w.life c).status = .kConnected → (w.life c).socket = true) :
    Avoids .nullSocket (w.sendData c d inLoop) build m := by
  unfold World.sendData
  split
  · exact avoids_pure _ _ _ _
  · rename_i hsend
    obtain ⟨hconnected, _⟩ := not_or.mp hsend
    exact avoids_bind (avoids_onPieces _) fun _ _ _ => submit_avoids (h (not_not.mp hconnected))

theorem sendBuffer_avoids {i : BufferId n} {inLoop : Bool}
    (h : (w.life c).status = .kConnected → (w.life c).socket = true) :
    Avoids .nullSocket (w.sendBuffer c i inLoop) build m := by
  unfold World.sendBuffer
  split
  · exact avoids_pure _ _ _ _
  · rename_i hsend
    obtain ⟨hconnected, _⟩ := not_or.mp hsend
    exact submit_avoids (h (not_not.mp hconnected))

theorem handleWrite_avoids {out : Buffer} {f : Flow} {l : Life} {op : WriteOp}
    (h : l.socket = true ∨ ∀ k, op.result = some (.success k) → out.length = 0) :
    Avoids .nullSocket (handleWrite out f l op) build m := by
  unfold TCPConn.handleWrite
  split
  · refine avoids_bind (avoids_onPieces _) fun _ m' _ => ?_
    split
    · rename_i k hresult
      refine avoids_bind ?_ fun _ _ _ => avoids_pure _ _ _ _
      unfold launchWrite
      split
      · rename_i hmore
        cases h with
        | inl hsocket =>
          rw [hsocket]
          exact startSend_avoids
        | inr hnone =>
          have := hnone k hresult
          omega
      · exact avoids_pure _ _ _ _
    · exact avoids_pure _ _ _ _
    · exact avoids_pure _ _ _ _
  · intro h
    cases h

theorem handleRead_avoids {inp : Buffer} {f : Flow} {l : Life} {op : ReadOp} :
    Avoids .nullSocket (handleRead inp f l op) build m := by
  unfold TCPConn.handleRead
  dsimp only
  split
  · exact avoids_bind (avoids_onPieces _) fun _ _ _ =>
      avoids_bind (avoids_onPieces _) fun _ _ _ => avoids_pure _ _ _ _
  · exact avoids_bind (avoids_onPieces _) fun _ _ _ => avoids_pure _ _ _ _
  · exact avoids_bind (avoids_onPieces _) fun _ _ _ => avoids_pure _ _ _ _

theorem launchRead_avoids {f : Flow} : Avoids .nullSocket (launchRead true f) build m :=
  avoids_bind (avoids_onPieces _) fun _ _ _ => avoids_pure _ _ _ _

theorem resume_avoids {l : Life} {f : Flow}
    (h : l.pc = .connected ∨ l.pc = .message → l.socket = true) :
    Avoids .nullSocket (resume l f) build m := by
  unfold TCPConn.resume
  cases hpc : l.pc with
  | connected =>
    rw [h (.inl hpc)]
    exact avoids_bind launchRead_avoids fun _ _ _ => avoids_pure _ _ _ _
  | message =>
    rw [h (.inr hpc)]
    exact avoids_bind launchRead_avoids fun _ _ _ => avoids_pure _ _ _ _
  | closing =>
    refine avoids_bind ?_ fun _ _ _ => avoids_pure _ _ _ _
    refine avoids_bind (avoids_onPieces _) fun _ _ _ => ?_
    split
    · exact avoids_bind (avoids_onPieces _) fun _ _ _ => avoids_pure _ _ _ _
    · exact avoids_pure _ _ _ _
  | _ => exact avoids_pure _ _ _ _

/-! ## Runs -/

/-- Inside `message_cb_` the socket is there. -/
theorem RunOf.socket_of_message (h : RunOf build World.QuietAfterReset w m) (c : Fin n)
    (hpc : (w.life c).pc = .message) : (w.life c).socket = true := by
  induction h with
  | start cell => cases hpc
  | @step w w' m m' a before enabled condition done ih =>
    cases condition.moves before.stage.2 enabled done c with
    | inl hsame =>
      rw [hsame] at hpc ⊢
      exact ih hpc
    | inr hstep => exact hstep.socket_of_message ih hpc

theorem exec_avoids (hstage : ∀ c, Stage (w.life c))
    (hmessage : ∀ c, (w.life c).pc = .message → (w.life c).socket = true)
    (quiet : w.QuietAfterReset m a) : Avoids .nullSocket (w.exec a) build m := by
  cases a with
  | buffer op => exact avoids_bind (avoids_onPieces _) fun _ _ _ => avoids_pure _ _ _ _
  | sendData c d inLoop => exact sendData_avoids (hstage c).socket_of_connected
  | sendBuffer c i inLoop => exact sendBuffer_avoids (hstage c).socket_of_connected
  | writeDone c op result =>
    intro h
    cases h
  | runSend c task =>
    refine runSendTask_avoids ?_
    by_cases hsocket : (w.life c).socket = true
    · exact .inl hsocket
    · exact .inr (quiet (by simpa using hsocket))
  | handleRead c op => exact avoids_bind handleRead_avoids fun _ _ _ => avoids_pure _ _ _ _
  | handleWrite c op =>
    refine avoids_bind (handleWrite_avoids ?_) fun _ _ _ => avoids_pure _ _ _ _
    by_cases hsocket : (w.life c).socket = true
    · exact .inl hsocket
    · exact .inr (quiet (by simpa using hsocket))
  | resume c =>
    refine avoids_bind (resume_avoids fun hpc => ?_) fun _ _ _ => avoids_pure _ _ _ _
    cases hpc with
    | inl hconnected => exact (hstage c).socket_of_pc hconnected
    | inr hpc => exact hmessage c hpc
  | destroy c =>
    refine avoids_bind (avoids_onPieces _) fun _ _ _ => ?_
    refine avoids_bind (avoids_onPieces _) fun _ _ _ => ?_
    refine avoids_bind (avoids_onPieces _) fun _ _ _ => ?_
    exact avoids_bind (avoids_onPieces _) fun _ _ _ => avoids_pure _ _ _ _
  | _ => exact avoids_pure _ _ _ _

/-- In a run that stays quiet after a reset, no step dereferences a null `socket_`,
    and none calls the `message_cb_` of a connection whose socket has been reset. -/
theorem quiet_after_reset (h : RunOf build World.QuietAfterReset w m) (enabled : w.Enabled m a)
    (quiet : w.QuietAfterReset m a) :
    Avoids .nullSocket (w.exec a) build m ∧
      ∀ w' m', w.exec a build m = .ok (w', m') → ∀ c, (w.life c).socket = false →
        (w'.life c).log.count .message = (w.life c).log.count .message := by
  refine ⟨exec_avoids h.stage.1 h.socket_of_message quiet, fun w' m' done c hsocket => ?_⟩
  cases quiet.moves h.stage.2 enabled done c with
  | inl hsame => rw [hsame]
  | inr hstep => exact hstep.count_message hsocket

/-- A connection that is closed as usual: it is established, starts to read, and `close` leads to
    `handleClose`, which resets the socket and so aborts the read.  The completion of the read comes
    late, and neither touches the socket nor calls `message_cb_`. -/
theorem quiet_after_reset_closed :
    ∃ (w : World 1) (m : Mem), (w.life 0).socket = false ∧ (w.life 0).status = .kDisconnected ∧
      w.Enabled m (.handleRead 0 ⟨0, some .aborted⟩) ∧
      Avoids .nullSocket (w.exec (.handleRead 0 ⟨0, some .aborted⟩)) .release m ∧
      ∀ w' m', w.exec (.handleRead 0 ⟨0, some .aborted⟩) .release m = .ok (w', m') →
        (w'.life 0).log.count .message = (w.life 0).log.count .message := by
  have r : RunOf .release World.QuietAfterReset ({} : World 1) emptyMem := .start _
  have r := r.step (.connectEstablished 0) ⟨rfl, rfl, rfl⟩ trivial rfl
  have r := r.step (.resume 0) (by intro h; cases h) trivial rfl
  have r := r.step (.resume 0) (by intro h; cases h) trivial rfl
  have r := r.step (.close 0) ⟨rfl, by decide⟩ trivial rfl
  have r := r.step (.closeGoesOn 0 .queueing) (.head _) trivial rfl
  have r := r.step (.runClose 0) ⟨by decide, rfl⟩ trivial rfl
  have r := r.step (.resume 0) (by intro h; cases h) trivial rfl
  have r := r.step (.readDone 0 ⟨0, none⟩ .aborted) ⟨.head _, rfl, rfl⟩ trivial rfl
  have r := r.step (.resume 0) (by intro h; cases h) trivial rfl
  have r := r.step (.resume 0) (by intro h; cases h) trivial rfl
  have r := r.step (.resume 0) (by intro h; cases h) trivial rfl
  have hquiet := quiet_after_reset (a := .handleRead 0 ⟨0, some .aborted⟩) r
    ⟨.head _, (by intro h; cases h), rfl⟩ (by intro _ _ h; cases h)
  exact ⟨_, _, rfl, rfl, ⟨.head _, (by intro h; cases h), rfl⟩, hquiet.1,
    fun w' m' done => hquiet.2 w' m' done 0 rfl⟩

/-- A read that completes just before `handleClose` resets the socket: `message_cb_`
    is called on the closed connection, and `launchRead` dereferences `socket_`. -/
theorem late_read_not_quiet :
    ∃ (w w' : World 1) (m m' : Mem) (op : ReadOp),
      RunOf .release (fun _ _ _ => True) w m ∧ (w.life 0).socket = false ∧
      w.Enabled m (.handleRead 0 op) ∧
      w.exec (.handleRead 0 op) .release m = .ok (w', m') ∧
      (w'.life 0).log.count .message ≠ (w.life 0).log.count .message ∧
      w'.Enabled m' (.resume 0) ∧ ¬ Avoids .nullSocket (w'.exec (.resume 0)) .release m' := by
  have r : RunOf .release (fun _ _ _ => True) ({} : World 1) emptyMem := .start _
  have r := r.step (.connectEstablished 0) ⟨rfl, rfl, rfl⟩ trivial rfl
  have r := r.step (.resume 0) (by intro h; cases h) trivial rfl
  have r := r.step (.resume 0) (by intro h; cases h) trivial rfl
  have r := r.step (.readDone 0 ⟨0, none⟩ (.success [1]))
    ⟨.head _, rfl, rfl, by decide, by decide⟩ trivial rfl
  have r := r.step (.close 0) ⟨rfl, by decide⟩ trivial rfl
  have r := r.step (.closeGoesOn 0 .queueing) (.head _) trivial rfl
  have r := r.step (.runClose 0) ⟨by decide, rfl⟩ trivial rfl
  have r := r.step (.resume 0) (by intro h; cases h) trivial rfl
  have r := r.step (.resume 0) (by intro h; cases h) trivial rfl
  have r := r.step (.resume 0) (by intro h; cases h) trivial rfl
  have r := r.step (.resume 0) (by intro h; cases h) trivial rfl
  refine ⟨_, _, _, _, ⟨0, some (.success [1])⟩, r, rfl, ⟨.head _, (by intro h; cases h), rfl⟩, rfl,
    by decide, (by intro h; cases h), fun h => h rfl⟩

end Netpp
