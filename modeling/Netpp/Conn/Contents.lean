import Netpp.Conn.Stream

/-! # What is in the buffers

`exec_custody` follows the outgoing bytes of a connection.  This module follows those of
the other buffers, the application's and the input buffers: in every run, a step of the
system does to them what `Action.moves` does to byte lists.

* `Leaves`: the frame of one buffer.
* `buffers_follow_bytes`: the bytes of a buffer after a step of a run.
-/

namespace Netpp

open TCPConn
open Function (update)

variable {n : Nat}

/-- What a step does to the bytes `d` of the buffers.  A call of `read(len, Buffer*)` also moves
    the bytes that it passes over. -/
def Action.moves (w : World n) (m : Mem) (d : BufferId n → Bytes) : Action n → BufferId n → Bytes
  | .buffer op => ((op.actual m w.bufs).apply d).2
  | .sendBuffer c i _ =>
    if (w.life c).status = .kConnected ∧ (w.bufs i).length ≠ 0 then update d i [] else d
  | .handleRead c op => update d (.input c) (d (.input c) ++ op.bytes)
  | .destroy c => update (update d (.input c) []) (.output c) []
  | _ => d

namespace World

def bytes (w : World n) (m : Mem) (i : BufferId n) : Bytes := content m ((w.bufs i).pieces m)

variable {w w' : World n} {m m' : Mem} {chain : BufferId n → List Ptr} {lost rest : List Ptr}
  {k : Nat} {c : Fin n} {i j : BufferId n} {build : Build} {a : Action n}

theorem Custody.bytes_eq (h : Custody w m chain lost k) : w.bytes m = familyBytes m chain := by
  funext i
  rw [bytes, h.pieces_eq i, familyBytes]

/-- A step has left the buffer `i` alone, with the pieces in it. -/
structure Leaves (w : World n) (m : Mem) (chain : BufferId n → List Ptr) (i : BufferId n)
    (w' : World n) (m' : Mem) : Prop where
  buf : w'.bufs i = w.bufs i
  same : SameOn (chain i) m m'

theorem Leaves.bytes {chain' : BufferId n → List Ptr} {lost' : List Ptr} {k' : Nat}
    (h : Leaves w m chain i w' m') (before : Custody w m chain lost k)
    (after : Custody w' m' chain' lost' k') : w'.bytes m' i = w.bytes m i := by
  have hold := ((before.chains.holds i).same h.same).rep.chain
  have hnew := (after.chains.holds i).rep.chain
  rw [h.buf] at hnew
  have hchain : chain' i = chain i := hnew.unique hold
  rw [after.bytes_eq, before.bytes_eq, familyBytes, familyBytes, hchain, content_same h.same]

theorem Focus.leaves (h : Focus w m chain lost k j c rest) (hij : i ≠ j) {b : Buffer}
    (hbufs : w'.bufs = update w.bufs j b) (hsame : SameOn rest m m') : Leaves w m chain i w' m' := by
  constructor
  · rw [hbufs, Function.update_of_ne hij]
  · exact hsame.mono (h.bufs i hij)

/-! ## Sending -/

theorem Custody.runSendTask_leaves {task : SendTask} (h : Custody w m chain lost k)
    (htask : task ∈ (w.flow c).sends) (user : (w.life c).pc.runsUserCode = true)
    (hi : i ≠ .output c) :
    (w.runSendTask c task).wlp build m fun w' m' => Leaves w m chain i w' m' := by
  obtain ⟨rest, hfocus⟩ := h.focus (.output c) c
  simp only [World.runSendTask, Prog.wlp_bind, Prog.wlp_pure]
  refine (sendInLoop_spec (P := False) (h.rep c) (h.ready c) htask hfocus.owns
    (fun h => h.elim) user).imp ?_
  rintro r m' ⟨ps', more, hout, _⟩
  exact hfocus.leaves hi rfl hout.same.right

theorem Custody.submit_leaves {queue : Buffer} {ps : List Ptr} {inLoop : Bool}
    (h : Custody w m chain (ps ++ lost) k) (hqueue : Holds m queue.toQueue ps)
    (callable : w.Callable c inLoop) (hi : i ≠ .output c) :
    (w.submit c queue inLoop).wlp build m fun w' m' => Leaves w m chain i w' m' := by
  have hpieces : queue.pieces m = ps := by
    obtain ⟨rest, hfocus⟩ := h.focus (.output c) c
    exact hqueue.rep.pieces_eq fun p hp => hfocus.owns.live (by simp [hp])
  simp only [World.submit, onPieces, Prog.wlp_bind, Prog.wlp_mapFault]
  refine (Prog.wp_of_eq_ok rfl |>.mpr ?_).wlp
  rw [hpieces]
  have hpost := h.post hqueue c
  cases inLoop with
  | false =>
    simp only [Bool.false_eq_true, if_false, Prog.wlp_pure]
    exact ⟨rfl, SameOn.refl _ _⟩
  | true =>
    simp only [if_true]
    refine (hpost.runSendTask_leaves (c := c) ?_ (callable.2 rfl) hi).imp ?_
    · simp [setFlow]
    · intro w' m' hleaves
      exact ⟨hleaves.buf, hleaves.same⟩

theorem Custody.sendData_leaves {d : Bytes} {inLoop : Bool} (h : Custody w m chain lost k)
    (callable : w.Callable c inLoop) (hi : i ≠ .output c) :
    (w.sendData c d inLoop).wlp build m fun w' m' => Leaves w m chain i w' m' := by
  unfold World.sendData
  split
  · exact (Prog.wlp_pure ..).mpr ⟨rfl, SameOn.refl _ _⟩
  · simp only [onPieces, Prog.wlp_bind, Prog.wlp_mapFault]
    refine (h.fresh c d).wlp.imp ?_
    rintro b m₁ ⟨ps, hb, _, hcustody, _, hchains, _⟩
    refine (hcustody.submit_leaves hb.holds callable hi).imp ?_
    intro w' m' hleaves
    exact ⟨hleaves.buf, (hchains i).trans hleaves.same⟩

theorem Custody.sendBuffer_bytes {inLoop : Bool} (h : Custody w m chain lost k)
    (enabled : w.Enabled m (.sendBuffer c j inLoop))
    (done : w.exec (.sendBuffer c j inLoop) build m = .ok (w', m')) (hi : i ≠ .output c) :
    w'.bytes m' i = (Action.sendBuffer c j inLoop).moves w m (w.bytes m) i := by
  obtain ⟨chain', lost', k', hafter, _, _⟩ := exec_custody h enabled w' m' done
  obtain ⟨callable, haccessible⟩ := enabled
  have hj : j ≠ .output c := fun e => by subst e; exact haccessible
  simp only [World.exec, World.sendBuffer] at done
  simp only [Action.moves]
  split at done
  · rename_i hnot
    cases done
    rw [if_neg fun hsend => hnot.elim (absurd hsend.1) hsend.2]
  · rename_i hsend
    obtain ⟨hconnected, hlen⟩ := not_or.mp hsend
    rw [if_pos ⟨not_not.mp hconnected, hlen⟩]
    have hdetach := h.detach j
    by_cases hij : i = j
    · subst hij
      have hleaves := hdetach.submit_leaves (h.chains.holds i) callable hi w' m' done
      rw [Function.update_self, hleaves.bytes hdetach hafter, hdetach.bytes_eq, familyBytes,
        Function.update_self]
      rfl
    · have hleaves := hdetach.submit_leaves (h.chains.holds j) callable hi w' m' done
      rw [Function.update_of_ne hij]
      have hthis : Leaves w m chain i w' m' := by
        constructor
        · rw [hleaves.buf]
          exact Function.update_of_ne hij _ _
        · have hsame := hleaves.same
          rwa [Function.update_of_ne hij] at hsame
      exact hthis.bytes h hafter

/-! ## Completions, reading and destruction -/

theorem Custody.handleWrite_leaves {op : WriteOp} (h : Custody w m chain lost k)
    (hop : op ∈ (w.flow c).writes) (hdone : op.result ≠ none) (hi : i ≠ .output c) :
    (w.exec (.handleWrite c op)).wlp build m fun w' m' => Leaves w m chain i w' m' := by
  obtain ⟨rest, hfocus⟩ := h.focus (.output c) c
  simp only [World.exec, Prog.wlp_bind, Prog.wlp_pure]
  refine (handleWrite_spec (P := False) (h.rep c) (h.ready c) hop hdone hfocus.owns).imp ?_
  rintro r m' ⟨ps', more, hout, _⟩
  exact hfocus.leaves hi rfl hout.same.right

theorem Custody.resume_leaves (h : Custody w m chain lost k) :
    (w.exec (.resume c)).wlp build m fun w' m' => Leaves w m chain i w' m' := by
  have hlaunch : (launchRead (w.life c).socket (w.flow c)).wlp build m fun _ m' =>
      SameOn (chain i) m m' := by
    -- any buffer but `i` will do as the focus: the output buffer, or the input buffer
    obtain ⟨j, hij⟩ : ∃ j : BufferId n, i ≠ j := by
      cases i with
      | user u => exact ⟨.output c, by simp⟩
      | input d => exact ⟨.output c, by simp⟩
      | output d => exact ⟨.input c, by simp⟩
    obtain ⟨rest, hfocus⟩ := h.focus j c
    have hperm : (chain j ++ ((w.flow c).held ++ (lost ++ rest))).Perm
        ((w.flow c).held ++ (chain j ++ (lost ++ rest))) := by
      rw [List.perm_iff_count]
      intro a
      simp only [List.count_append]
      omega
    refine (launchRead_spec (h.ready c) (hfocus.owns.perm hperm)).imp ?_
    rintro f' m' ⟨_, _, hsame, _⟩
    exact hsame.right.right.right.mono (hfocus.bufs i hij)
  have hresume : (TCPConn.resume (w.life c) (w.flow c)).wlp build m fun _ m' => SameOn (chain i) m m' := by
    unfold TCPConn.resume
    cases (w.life c).pc with
    | connected =>
      simp only [Prog.wlp_bind, Prog.wlp_pure]
      exact hlaunch
    | message =>
      simp only [Prog.wlp_bind, Prog.wlp_pure]
      exact hlaunch
    | closing =>
      simp only [Prog.wlp_bind, Prog.wlp_pure]
      refine handleClose_mem.imp ?_
      intro _ m' hm
      rw [hm]
      exact SameOn.refl _ _
    | _ => exact (Prog.wlp_pure ..).mpr (SameOn.refl _ _)
  simp only [World.exec, Prog.wlp_bind, Prog.wlp_pure]
  exact hresume.imp fun _ _ hsame => ⟨rfl, hsame⟩

theorem Custody.destroy_custody (h : Custody w m chain lost k) (small : w.Small m) :
    (w.exec (.destroy c)).wlp build m fun w' m' => ∃ k',
      Custody w' m' (update (update chain (.input c) []) (.output c) []) lost k' ∧
      ∀ i, i ≠ .input c → i ≠ .output c → SameOn (chain i) m m' := by
  have hsmall : ∀ i, (chain i).length < 4294967296 := fun i => by
    rw [← h.pieces_eq]
    exact small i
  simp only [World.exec, World.destroy, onPieces, Prog.wlp_bind, Prog.wlp_mapFault, Prog.wlp_pure,
    wlp_assert]
  intro _ _
  refine (h.clear (.input c) (hsmall _)).wlp.imp ?_
  rintro inp m₁ ⟨h₁, _, hsame₁⟩
  have hne : (BufferId.output c : BufferId n) ≠ .input c := by simp
  have hbuf : (w.setBuf (.input c) inp).bufs (.output c) = w.bufs (.output c) :=
    Function.update_of_ne hne inp w.bufs
  have hchain : update chain (.input c) [] (.output c) = chain (.output c) :=
    Function.update_of_ne hne _ _
  rw [← hbuf]
  refine (h₁.clear (.output c) (by rw [hchain]; exact hsmall _)).wlp.imp ?_
  rintro out m₂ ⟨h₂, _, hsame₂⟩
  refine ⟨_, h₂.of_eq rfl rfl, fun i hin hout => ?_⟩
  have hsecond := hsame₂ i hout
  rw [Function.update_of_ne hin] at hsecond
  exact (hsame₁ i hin).trans hsecond

theorem Custody.destroy_bytes (h : Custody w m chain lost k) (enabled : w.Enabled m (.destroy c))
    (done : w.exec (.destroy c) build m = .ok (w', m')) :
    w'.bytes m' = (Action.destroy c).moves w m (w.bytes m) := by
  obtain ⟨k', hafter, hsame⟩ := h.destroy_custody enabled.2.2.2 w' m' done
  rw [hafter.bytes_eq, h.bytes_eq]
  funext i
  simp only [Action.moves, familyBytes]
  by_cases hout : i = .output c
  · subst hout
    simp only [Function.update_self, content_nil]
  · by_cases hin : i = .input c
    · subst hin
      simp only [Function.update_of_ne hout, Function.update_self, content_nil]
    · simp only [Function.update_of_ne hout, Function.update_of_ne hin]
      exact content_same (hsame i hin hout)

theorem Custody.handleRead_bytes {op : ReadOp} (h : Custody w m chain lost k)
    (enabled : w.Enabled m (.handleRead c op))
    (done : w.exec (.handleRead c op) build m = .ok (w', m')) :
    w'.bytes m' i = (Action.handleRead c op).moves w m (w.bytes m) i := by
  obtain ⟨chain', lost', k', hafter, _, _⟩ := exec_custody h enabled w' m' done
  obtain ⟨rest, hfocus⟩ := h.focus (.input c) c
  have hwlp : (w.exec (.handleRead c op)).wlp build m fun w' m' => ∃ ps',
      Holds m' (w'.bufs (.input c)).toQueue ps' ∧ content m' ps' = content m (chain (.input c)) ++ op.bytes ∧
      ∀ j, j ≠ .input c → Leaves w m chain j w' m' := by
    simp only [World.exec, Prog.wlp_bind, Prog.wlp_pure]
    refine (handleRead_spec (h.chains.holds _) (h.ready c) enabled.1 hfocus.owns).imp ?_
    rintro r m' ⟨ps', hout, _, _, hcontent⟩
    refine ⟨ps', ?_, hcontent, fun j hj => hfocus.leaves hj rfl hout.same.right⟩
    show Holds m' (update w.bufs (.input c) r.1 (.input c)).toQueue ps'
    rw [Function.update_self]
    exact hout.holds
  obtain ⟨ps', hholds, hcontent, hothers⟩ := hwlp w' m' done
  simp only [Action.moves]
  by_cases hi : i = .input c
  · subst hi
    have hps : chain' (.input c) = ps' :=
      (hafter.chains.holds (.input c)).rep.chain.unique hholds.rep.chain
    rw [Function.update_self, hafter.bytes_eq, h.bytes_eq, familyBytes, familyBytes, hps, hcontent]
  · rw [Function.update_of_ne hi]
    exact (hothers i hi).bytes h hafter

/-- A read into an empty input buffer returns. -/
theorem Custody.handleRead_first {op : ReadOp} {x : Bytes} (h : Custody w m chain lost k)
    (hop : op ∈ (w.flow c).reads) (hresult : op.result = some (.success x))
    (hempty : (w.bufs (.input c)).tail = none) :
    (w.exec (.handleRead c op)).wp build m fun w' _ => ∃ inp,
      w' = ((w.setBuf (.input c) inp).setFlow c
        { w.flow c with reads := (w.flow c).reads.erase op }).setLife c
          { w.life c with log := (w.life c).log ++ [.message], pc := .message } := by
  obtain ⟨rest, hfocus⟩ := h.focus (.input c) c
  have hready := h.ready c
  obtain ⟨hne, hfit⟩ := hready.results op hop x hresult
  have hperm := ((Flow.held_perm_read hop).append_right (lost ++ rest)).append_left (chain (.input c))
  have howns := hfocus.owns.perm hperm
  simp only [World.exec, TCPConn.handleRead, hresult, onPieces, Prog.wp_bind, Prog.wp_mapFault,
    Prog.wp_pure]
  refine (InputBuffer.fillPiece_spec howns (by simp) (hready.reads op hop) hfit).imp ?_
  rintro _ m₁ ⟨howns₁, hothers, hoff, hlen, _, _⟩
  have hnodup := (List.nodup_cons.mp (List.nodup_middle.mp howns.nodup)).1
  have hsame : SameOn (chain (.input c)) m m₁ := fun p hp => hothers p fun e =>
    hnodup (List.mem_append_left _ (e ▸ hp))
  have hpos : 0 < (m₁.cell op.piece).len := by
    rw [hlen]
    exact List.length_pos_iff.mpr hne
  have hinside : (m₁.cell op.piece).off + (m₁.cell op.piece).len ≤ kPieceCapacity := by omega
  have hnot : ¬ InputBuffer.Merges m₁ (w.bufs (.input c)) op.piece := by
    rintro ⟨t, htail, _⟩
    rw [hempty] at htail
    cases htail
  exact (InputBuffer.writePiece_holds ((h.chains.holds _).same hsame) howns₁ hpos hinside
    fun hmerges => absurd hmerges hnot).imp fun inp _ _ => ⟨inp, rfl⟩

theorem Custody.buffer_bytes {op : BufferOp (BufferId n)} (h : Custody w m chain lost k)
    (enabled : w.Enabled m (.buffer op)) (done : w.exec (.buffer op) build m = .ok (w', m')) :
    w'.bytes m' = (Action.buffer op).moves w m (w.bytes m) := by
  obtain ⟨chain', lost', k', hafter, _, _⟩ := exec_custody h enabled w' m' done
  obtain ⟨pre, _, small⟩ := enabled
  have hsmall : ∀ i, (chain i).length < 4294967296 := fun i => by
    rw [← h.pieces_eq]
    exact small i
  have hwlp : (w.exec (.buffer op)).wlp build m fun w' m' => ∃ chain₁ loose k₁,
      Chains m' w'.bufs chain₁ loose k₁ ∧
      familyBytes m' chain₁ = ((op.actual m w.bufs).apply (familyBytes m chain)).2 := by
    simp only [World.exec, onPieces, Prog.wlp_bind, Prog.wlp_mapFault, Prog.wlp_pure]
    refine (BufferOp.run_moves op h.chains pre fun i _ => hsmall i).imp ?_
    rintro r m' ⟨⟨chain₁, hchains, hbytes⟩, _⟩
    exact ⟨chain₁, _, _, hchains, hbytes⟩
  obtain ⟨chain₁, loose, k₁, hholds, hbytes⟩ := hwlp w' m' done
  have hchains : chain' = chain₁ := by
    funext i
    exact (hafter.chains.holds i).rep.chain.unique (hholds.holds i).rep.chain
  rw [hafter.bytes_eq, h.bytes_eq, hchains, hbytes]
  rfl

/-- The bytes of the buffers after a step, but for those of the output buffers. -/
theorem exec_bytes (h : Custody w m chain lost k) (enabled : w.Enabled m a)
    (done : w.exec a build m = .ok (w', m')) (hi : ∀ c, i ≠ .output c) :
    w'.bytes m' i = a.moves w m (w.bytes m) i := by
  obtain ⟨chain', lost', k', hafter, _, _⟩ := exec_custody h enabled w' m' done
  have hstill : w'.bufs i = w.bufs i → m' = m → w'.bytes m' i = w.bytes m i := by
    rintro hbuf rfl
    have hleaves : Leaves w m' chain i w' m' := ⟨hbuf, SameOn.refl _ _⟩
    exact hleaves.bytes h hafter
  cases a with
  | buffer op => rw [h.buffer_bytes enabled done]
  | sendData c d inLoop => exact (h.sendData_leaves enabled (hi c) w' m' done).bytes h hafter
  | sendBuffer c j inLoop => exact h.sendBuffer_bytes enabled done (hi c)
  | runSend c task =>
    exact (h.runSendTask_leaves enabled.1 (by rw [enabled.2]; rfl) (hi c) w' m' done).bytes h hafter
  | handleRead c op => exact h.handleRead_bytes enabled done
  | handleWrite c op =>
    exact (h.handleWrite_leaves enabled.1 enabled.2.1 (hi c) w' m' done).bytes h hafter
  | resume c => exact (h.resume_leaves w' m' done).bytes h hafter
  | destroy c => rw [h.destroy_bytes enabled done]
  | _ =>
    cases done
    exact hstill rfl rfl

end World

/-! ## Runs -/

section Runs

variable {build : Build} {P : World n → Mem → Action n → Prop} {w w' : World n} {m m' : Mem}
  {a : Action n} {i : BufferId n}

/-- In every run, whatever all threads and the kernel do: the bytes of a buffer of the
    application, or of an input buffer, change as `Action.moves` says and in no other way.  No
    send, no completion and no other connection touches them. -/
theorem buffers_follow_bytes (h : RunOf build P w m) (enabled : w.Enabled m a)
    (done : w.exec a build m = .ok (w', m')) (hi : ∀ c, i ≠ .output c) :
    w'.bytes m' i = a.moves w m (w.bytes m) i := by
  obtain ⟨chain, lost, k, hcustody, _⟩ := h.custody
  exact World.exec_bytes hcustody enabled done hi

/-- A byte arrives, and is found in the input buffer. -/
theorem buffers_follow_bytes_received : ∃ (w w' : World 1) (m m' : Mem),
    RunOf .release World.Whole w m ∧
    w.exec (.handleRead 0 ⟨0, some (.success [5])⟩) .release m = .ok (w', m') ∧
    w'.bytes m' (.input 0) = w.bytes m (.input 0) ++ [5] := by
  have r : RunOf .release World.Whole ({} : World 1) emptyMem := .start _
  have r := r.step (.connectEstablished 0) ⟨rfl, rfl, rfl⟩ trivial rfl
  have r := r.step (.resume 0) (by intro h; cases h) trivial rfl
  have r := r.step (.resume 0) (by intro h; cases h) trivial rfl
  have r := r.step (.readDone 0 ⟨0, none⟩ (.success [5])) ⟨.head _, rfl, rfl, by decide, by decide⟩
    trivial rfl
  obtain ⟨chain, lost, k, hcustody, _⟩ := r.custody
  obtain ⟨w', m', done, _⟩ : (World.exec _ (.handleRead 0 ⟨0, some (.success [5])⟩)).wp .release _ _ :=
    hcustody.handleRead_first (.head _) rfl rfl
  refine ⟨_, w', _, m', r, done, buffers_follow_bytes (a := .handleRead 0 ⟨0, some (.success [5])⟩) r
    ⟨.head _, (by intro h; cases h), rfl⟩ done ?_⟩
  intro c h
  cases h

end Runs

end Netpp
