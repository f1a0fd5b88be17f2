import Netpp.Conn.Stream

/-! # One send at a time

Neither `sendInLoop` nor `handleWrite` starts an `async_send` while another one is in
flight, and none of them leaves the output buffer with bytes and nobody to send them.

`Writer` is what the two keep up between them.  A connection that has given up keeps
its bytes: after an error `handleError` leads to `handleClose` before any other task of
the connection runs, and an `async_send` is aborted by `handleClose` only.
-/

namespace Netpp

open TCPConn

/-- What a connection does about its output buffer. -/
inductive Writer (l : Life) (o : Outgoing) : Prop
  | idle (writes : o.writes = []) (sending : o.isSending = false) (out : o.out = [])
  | sending (r : Option WriteResult) (y : Bytes) (writes : o.writes = [(r, y)])
      (sending : o.isSending = true) (closed : r = some .aborted → l.socket = false)
  | stopped (writes : o.writes = []) (sending : o.isSending = false) (stuck : Stuck l)

section Steps

variable {C M E : Life → Prop} {l l' : Life} {o o' : Outgoing} {P : Prop}

theorem Writer.in_flight (h : Writer l o) :
    o.writes.length ≤ 1 ∧ (o.isSending = true ↔ o.writes.length = 1) := by
  cases h with
  | idle writes sending _ => simp [writes, sending]
  | sending r y writes sending _ => simp [writes, sending]
  | stopped writes sending _ => simp [writes, sending]

theorem Writer.same (h : Writer l o) (hsocket : l.socket = false → l'.socket = false)
    (hstuck : Stuck l → Stuck l') : Writer l' o := by
  cases h with
  | idle writes sending out => exact .idle writes sending out
  | sending r y writes sending closed =>
    exact .sending r y writes sending fun h => hsocket (closed h)
  | stopped writes sending stuck => exact .stopped writes sending (hstuck stuck)

theorem Writer.queue {out submitted : Bytes} {tasks : Nat} (h : Writer l o)
    (sending : o.isSending = true) :
    Writer l { o with tasks := tasks, submitted := submitted, out := out } := by
  cases h with
  | idle _ hidle => rw [sending] at hidle; cases hidle
  | sending r y writes sending closed => exact .sending r y writes sending closed
  | stopped _ hidle => rw [sending] at hidle; cases hidle

theorem Writer.start {y out submitted : Bytes} {tasks : Nat} (h : Writer l o)
    (idle : o.isSending = false) :
    Writer l { o with tasks := tasks, submitted := submitted, out := out, isSending := true,
                      writes := o.writes ++ [(none, y)] } := by
  cases h with
  | idle writes _ _ => exact .sending none y (by simp [writes]) rfl (fun h => by cases h)
  | sending r y _ sending => rw [idle] at sending; cases sending
  | stopped writes _ _ => exact .sending none y (by simp [writes]) rfl (fun h => by cases h)

theorem Writer.finish {pre post : List (Option WriteResult × Bytes)} {y wire : Bytes}
    {result : WriteResult} {failed : Bool} (h : Writer l o)
    (hwrites : o.writes = pre ++ (none, y) :: post) (closed : result = .aborted → l.socket = false) :
    Writer l { o with writes := pre ++ post ++ [(some result, y)], wire := wire, failed := failed } := by
  cases h with
  | idle writes => rw [writes] at hwrites; simp at hwrites
  | sending r y' writes sending _ =>
    obtain ⟨rfl, rfl, _⟩ := split_singleton (hwrites.symm.trans writes)
    exact .sending (some result) y rfl sending fun h => closed (Option.some.inj h)
  | stopped writes => rw [writes] at hwrites; simp at hwrites

theorem Writer.handled {pre post : List (Option WriteResult × Bytes)} {y : Bytes}
    {r : Option WriteResult} (h : Writer l o) (hwrites : o.writes = pre ++ (r, y) :: post) :
    pre ++ post = [] ∧ (r = some .aborted → l.socket = false) := by
  cases h with
  | idle writes => rw [writes] at hwrites; simp at hwrites
  | sending r' y' writes _ closed =>
    obtain ⟨rfl, rfl, heq⟩ := split_singleton (hwrites.symm.trans writes)
    cases heq
    exact ⟨rfl, closed⟩
  | stopped writes => rw [writes] at hwrites; simp at hwrites

theorem OutStep.writer (h : OutStep P l l' o o') (hwriter : Writer l o) (hstage : Stage l)
    (hlife : l' = l ∨ LifeStep C M E l l') (hborn : l.established = false → o.writes = []) :
    Writer l' o' := by
  have hsocket : l.socket = false → l'.socket = false := fun h => by
    cases hlife with
    | inl hsame => rw [hsame]; exact h
    | inr hstep => exact hstep.socket h
  have hmove : Writer l o' → Writer l' o' := fun h => by
    cases hlife with
    | inl hsame => rw [hsame]; exact h
    | inr hstep => exact h.same hstep.socket (hstep.stuck hstage)
  cases h with
  | same => exact hmove hwriter
  | posted _ =>
    apply hmove
    cases hwriter with
    | idle writes sending out => exact .idle writes sending out
    | sending r y writes sending closed => exact .sending r y writes sending closed
    | stopped writes sending stuck => exact .stopped writes sending stuck
  | queued payload first tasks _ _ _ sending => exact hmove (hwriter.queue sending)
  | started payload first y out tasks _ _ _ idle _ _ _ => exact hmove (hwriter.start idle)
  | transmitted pre post y k writes _ => exact hmove (hwriter.finish writes (fun h => by cases h))
  | broke pre post y r writes _ closed => exact hmove (hwriter.finish writes closed)
  | gaveUp pre post y r alive writes bad error =>
    obtain ⟨hnone, hclosed⟩ := hwriter.handled writes
    apply Writer.stopped hnone rfl
    cases r with
    | success k => exact absurd rfl (bad k)
    | aborted => exact .inr (.inr (hsocket (hclosed rfl)))
    | failed =>
      rw [error rfl]
      refine handleError_stuck hstage (Bool.of_not_eq_false fun hnot => ?_)
      rw [hborn hnot] at writes
      simp at writes
  | drained pre post y k _ writes empty => exact .idle (hwriter.handled writes).1 rfl empty
  | next pre post y y' out k _ writes _ _ =>
    have hnone := (hwriter.handled writes).1
    exact .sending none y' (by simp [hnone]) rfl (fun h => by cases h)
  | destroyed _ =>
    apply hmove
    cases hwriter with
    | idle writes sending _ => exact .idle writes sending rfl
    | sending r y writes sending closed => exact .sending r y writes sending closed
    | stopped writes sending stuck => exact .stopped writes sending stuck

end Steps

/-! ## Runs -/

section Runs

variable {n : Nat} {build : Build} {w : World n} {m : Mem} {P : World n → Mem → Action n → Prop}

theorem RunOf.writer (h : RunOf build P w m) : ∃ chain lost k, w.Custody m chain lost k ∧
    ∀ c, Writer (w.life c) (w.outgoing m chain c) := by
  obtain ⟨chain, lost, k, hcustody, hwriter⟩ := h.outgoing (I := Writer) (fun _ => .idle rfl rfl rfl)
    fun _ _ _ _ _ _ _ _ hstep hwriter hstage hlife hborn => hstep.writer hwriter hstage hlife hborn
  exact ⟨chain, lost, k, hcustody, fun c => (hwriter c).2⟩

/-- In every run, whatever its steps and their order: a connection never has two sends
    in flight.  Between two tasks of its loop, and with its socket, it is sending if
    and only if exactly one is in flight, and it is sending while its output buffer
    holds bytes. -/
theorem single_writer (h : RunOf build P w m) (c : Fin n) :
    (w.flow c).writes.length ≤ 1 ∧
    ((w.life c).established = true → (w.life c).pc = .idle → (w.life c).socket = true →
      ((w.flow c).isSending = true ↔ (w.flow c).writes.length = 1) ∧
      (0 < (w.bufs (.output c)).length → (w.flow c).isSending = true)) := by
  obtain ⟨chain, lost, k, hcustody, hwriter⟩ := h.writer
  have hcount : (w.outgoing m chain c).writes.length = (w.flow c).writes.length := List.length_map ..
  have hbytes : (w.bufs (.output c)).length = (w.outgoing m chain c).out.length :=
    (hcustody.rep c).length
  have hflight := (hwriter c).in_flight
  rw [hcount] at hflight
  refine ⟨hflight.1, fun _ hidle hsocket => ⟨hflight.2, fun hpos => ?_⟩⟩
  cases hwriter c with
  | idle _ _ out =>
    rw [hbytes, out] at hpos
    cases hpos
  | sending r y _ sending _ => exact sending
  | stopped _ _ stuck =>
    rcases stuck with hforced | hclosing | hreset
    · rw [hidle] at hforced; cases hforced
    · rw [hidle] at hclosing; cases hclosing
    · rw [hsocket] at hreset; cases hreset

theorem sendInLoop_queues {Q : Buffer → Mem → Prop} {socket : Bool} {out : Buffer} {f : Flow}
    (task : SendTask) (sending : f.isSending = true)
    (hqueue : (OutputBuffer.writePieceQueue out task.queue.head).wp build m Q) :
    (sendInLoop socket out f task).wp build m fun r m' =>
      Q r.1 m' ∧ r.2.isSending = true ∧ r.2.writes = f.writes := by
  simp only [sendInLoop, onPieces, Prog.wp_bind, Prog.wp_mapFault]
  refine hqueue.imp ?_
  intro b m' hb
  rw [if_pos sending, Prog.wp_pure]
  exact ⟨hb, sending, rfl⟩

/-- A `send` on the loop thread, while another one is in flight, returns and has only
    queued its bytes. -/
theorem sendData_queues {chain : BufferId n → List Ptr} {lost : List Ptr} {k : Nat} {c : Fin n}
    {d : Bytes} (h : w.Custody m chain lost k) (connected : (w.life c).status = .kConnected)
    (sending : (w.flow c).isSending = true) (hd : d ≠ []) :
    (w.exec (.sendData c d true)).wp build m fun w' _ =>
      w'.life = w.life ∧ (w'.flow c).isSending = true ∧ (w'.flow c).writes = (w.flow c).writes ∧
      (w.bufs (.output c)).length < (w'.bufs (.output c)).length := by
  have hcalled : ¬ ((w.life c).status ≠ .kConnected ∨ d.length = 0) := by
    rw [not_or, not_not]
    exact ⟨connected, fun hnil => hd (List.length_eq_zero_iff.mp hnil)⟩
  simp only [World.exec, World.sendData, if_neg hcalled, onPieces, Prog.wp_bind, Prog.wp_mapFault]
  refine (h.fresh c d).imp ?_
  rintro b m₁ ⟨ps, hb, hcontent, hcustody, _, _, _, hsolid⟩
  obtain ⟨p, qs, rfl⟩ : ∃ p qs, ps = p :: qs := by
    cases ps with
    | nil => exact absurd hcontent.symm hd
    | cons p qs => exact ⟨p, qs, rfl⟩
  obtain ⟨rest, hfocus⟩ := hcustody.focus (.output c) c
  have hout := hcustody.rep c
  have hfresh : p ∉ chain (.output c) := fun hp =>
    (List.nodup_append.mp hfocus.owns.nodup).2.2 p hp p (by simp) rfl
  have hpos : 0 < (m₁.cell p).len := hsolid hd p (by simp)
  have hqueued : (OutputBuffer.writePieceQueue (w.bufs (.output c)) b.head).wp build m₁ fun b' _ =>
      (w.bufs (.output c)).length < b'.length := by
    rw [hb.holds.head]
    refine (OutputBuffer.writePieceQueue_total hout (fun a ha => hfocus.owns.live (by simp [ha]))
      (hfocus.owns.live (by simp)) hfresh hb.holds.insideHead hpos).imp ?_
    rintro b' m₂ ⟨hb', _, hbytes⟩
    rw [hout.length, hb'.length, hbytes, List.length_append, length_bytes]
    omega
  simp only [World.submit, onPieces, Prog.wp_bind, Prog.wp_mapFault]
  apply (Prog.wp_of_eq_ok rfl).mpr
  simp only [if_true, World.runSendTask, World.setFlow, Function.update_self, Prog.wp_bind,
    Prog.wp_pure]
  refine (sendInLoop_queues ⟨b, b.pieces m₁, content m₁ (b.pieces m₁)⟩ ?_ hqueued).imp ?_
  · exact sending
  · rintro r m₂ ⟨hlonger, hsending, hwrites⟩
    refine ⟨rfl, hsending, hwrites, ?_⟩
    show _ < (Function.update w.bufs (.output c) r.1 (.output c)).length
    rw [Function.update_self]
    exact hlonger

/-- Two sends from the loop thread: the bytes of the second one are queued behind the
    first one, which is in flight. -/
theorem single_writer_queued :
    ∃ (w : World 1) (m : Mem), RunOf .debug (fun _ _ _ => True) w m ∧
      0 < (w.bufs (.output 0)).length ∧ (w.flow 0).isSending = true ∧ (w.flow 0).writes.length = 1 := by
  obtain ⟨bufs, m, r, _⟩ := two_in_flight .debug
  have r := r.imp (Q := fun _ _ _ => True) fun _ _ _ _ => trivial
  obtain ⟨chain, lost, k, hcustody, _⟩ := r.custody
  have hqueues : (World.exec _ (.sendData 0 [3] true)).wp .debug _ _ :=
    sendData_queues hcustody rfl rfl (by simp)
  obtain ⟨w', m', done, hlife, _, _, hlonger⟩ := hqueues
  have r := r.step (.sendData 0 [3] true) ⟨rfl, fun _ => rfl⟩ trivial done
  have hpos : 0 < (w'.bufs (.output 0)).length := Nat.zero_lt_of_lt hlonger
  obtain ⟨hone, hbusy⟩ := (single_writer r 0).2 (by rw [hlife]) (by rw [hlife]) (by rw [hlife])
  exact ⟨w', m', r, hpos, hbusy hpos, hone.mp (hbusy hpos)⟩

end Runs

end Netpp
