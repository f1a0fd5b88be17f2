import Netpp.Conn.Custody

/-! # The outgoing byte stream

What a connection transmits is a prefix of what it was given to send, in the order
of the `sendInLoop` calls, and all of it once nothing is in flight.

This holds as long as every `send` fits into one piece and no `async_send` is
short: `writePieceQueue` takes the first piece of a chain only, and `handleWrite`
gives the piece back without looking at the number of bytes transferred.

`Phase` follows the one send that can be in flight.  Once a send has failed, no
other is started, because `handleError` leads to `handleClose` before any user code
runs.
-/

namespace Netpp

open TCPConn

/-- No `async_send` can be started any more. -/
def Stuck (l : Life) : Prop := l.pc = .forced ∨ l.pc = .closing ∨ l.socket = false

/-- Where the outgoing bytes are. -/
inductive Phase (l : Life) (o : Outgoing) : Prop
  | idle (writes : o.writes = []) (sending : o.isSending = false) (failed : o.failed = false)
      (out : o.out = []) (all : o.wire = o.submitted)
  | pending (y : Bytes) (writes : o.writes = [(none, y)]) (sending : o.isSending = true)
      (failed : o.failed = false) (all : o.submitted = o.wire ++ (y ++ o.out))
  | sent (k : Nat) (y : Bytes) (writes : o.writes = [(some (.success k), y)])
      (sending : o.isSending = true) (failed : o.failed = false) (all : o.submitted = o.wire ++ o.out)
  | failed (r : WriteResult) (y : Bytes) (writes : o.writes = [(some r, y)])
      (bad : ∀ k, r ≠ .success k) (closed : r = .aborted → l.socket = false)
      (sending : o.isSending = true) (failed : o.failed = true) (sub : o.wire <+: o.submitted)
  | broken (writes : o.writes = []) (stuck : Stuck l) (failed : o.failed = true)
      (sub : o.wire <+: o.submitted)
  -- the connection was destroyed under a send bound to its bare `this`
  | abandoned (r : Option WriteResult) (y : Bytes) (dead : l.alive = false)
      (writes : o.writes = [(r, y)]) (sending : o.isSending = true)
      (all : r = none → o.wire ++ y <+: o.submitted) (sub : o.wire <+: o.submitted)

/-- The invariant of a connection's outgoing bytes. -/
structure Stream (l : Life) (o : Outgoing) : Prop where
  begun : l.established = false → o.tasks = 0 ∧ o.writes = []
  phase : Phase l o

section Steps

variable {C M E : Life → Prop} {l l' : Life} {o o' : Outgoing} {P : Prop}

theorem LifeStep.socket (h : LifeStep C M E l l') (hsocket : l.socket = false) : l'.socket = false := by
  cases h with
  | close call _ =>
    unfold compareExchange
    split <;> exact hsocket
  | closeGoesOn call _ => cases call <;> exact hsocket
  | handleError _ _ =>
    unfold TCPConn.handleError
    split <;> exact hsocket
  | reset _ _ => rfl
  | _ => exact hsocket

theorem LifeStep.dead (h : LifeStep C M E l l') (hdead : l.alive = false) : l'.alive = false := by
  cases h with
  | close call _ =>
    unfold compareExchange
    split <;> exact hdead
  | closeGoesOn call _ => cases call <;> exact hdead
  | handleError _ _ =>
    unfold TCPConn.handleError
    split <;> exact hdead
  | destroy => rfl
  | _ => exact hdead

theorem Stage.socket_of_disconnected (h : Stage l) (hestablished : l.established = true)
    (hstatus : l.status = .kDisconnected) : l.socket = false := by
  cases h with
  | unborn hnot => rw [hnot] at hestablished; cases hestablished
  | connecting _ _ hnot => exact absurd hstatus hnot
  | opened first ms _ _ _ hnot => exact absurd hstatus hnot
  | between first ms _ _ _ _ _ hsocket => exact hsocket
  | ended first ms late _ _ _ _ _ hsocket => exact hsocket

theorem handleError_stuck (hstage : Stage l) (hestablished : l.established = true) :
    Stuck (TCPConn.handleError l) := by
  unfold TCPConn.handleError
  split
  · exact .inl rfl
  · rename_i hstatus
    exact .inr (.inr (hstage.socket_of_disconnected hestablished (not_not.mp hstatus)))

/-- What stops all sends cannot be undone. -/
theorem LifeStep.stuck (h : LifeStep C M E l l') (hstage : Stage l) (hstuck : Stuck l) : Stuck l' := by
  rcases hstuck with hforced | hclosing | hsocket
  · cases h with
    | close call _ =>
      unfold compareExchange
      split <;> exact .inl hforced
    | closeGoesOn call _ => cases call <;> exact .inl hforced
    | forced _ => exact .inr (.inl rfl)
    | destroy => exact .inl hforced
    | launched h _ => rw [hforced] at h; simp at h
    | _ h => rw [hforced] at h; cases h
  · cases h with
    | close call _ =>
      unfold compareExchange
      split <;> exact .inr (.inl hclosing)
    | closeGoesOn call _ => cases call <;> exact .inr (.inl hclosing)
    | reset _ _ => exact .inr (.inr rfl)
    | closeAgain _ hstatus =>
      have hestablished : l.established = true := by
        cases hstage with
        | unborn _ _ _ hidle => rw [hclosing] at hidle; cases hidle
        | connecting h => exact h
        | opened first ms h => exact h
        | between first ms h => exact h
        | ended first ms late h => exact h
      exact .inr (.inr (hstage.socket_of_disconnected hestablished hstatus))
    | destroy => exact .inr (.inl hclosing)
    | launched h _ => rw [hclosing] at h; simp at h
    | _ h => rw [hclosing] at h; cases h
  · exact .inr (.inr (h.socket hsocket))

theorem split_singleton {α : Type} {x a : α} {pre post : List α} (h : pre ++ x :: post = [a]) :
    pre = [] ∧ post = [] ∧ x = a := by
  cases pre with
  | nil =>
    rw [List.nil_append, List.cons.injEq] at h
    exact ⟨rfl, h.2, h.1⟩
  | cons b pre =>
    rw [List.cons_append, List.cons.injEq, List.append_eq_nil_iff] at h
    cases h.2.2

theorem Phase.same (h : Phase l o) (hsocket : l.socket = false → l'.socket = false)
    (hdead : l.alive = false → l'.alive = false) (hstuck : Stuck l → Stuck l') : Phase l' o := by
  cases h with
  | idle writes sending failed out all => exact .idle writes sending failed out all
  | pending y writes sending failed all => exact .pending y writes sending failed all
  | sent k y writes sending failed all => exact .sent k y writes sending failed all
  | failed r y writes bad closed sending failed sub =>
    exact .failed r y writes bad (fun h => hsocket (closed h)) sending failed sub
  | broken writes stuck failed sub => exact .broken writes (hstuck stuck) failed sub
  | abandoned r y dead writes sending all sub =>
    exact .abandoned r y (hdead dead) writes sending all sub

theorem Phase.queue {payload : Bytes} {tasks : Nat} (h : Phase l o) (sending : o.isSending = true) :
    Phase l { o with tasks := tasks, submitted := o.submitted ++ payload, out := o.out ++ payload } := by
  cases h with
  | idle _ hidle => rw [sending] at hidle; cases hidle
  | pending y writes sending failed all =>
    refine .pending y writes sending failed ?_
    show o.submitted ++ payload = o.wire ++ (y ++ (o.out ++ payload))
    rw [all]
    simp
  | sent k y writes sending failed all =>
    refine .sent k y writes sending failed ?_
    show o.submitted ++ payload = o.wire ++ (o.out ++ payload)
    rw [all, List.append_assoc]
  | failed r y writes bad closed sending failed sub =>
    exact .failed r y writes bad closed sending failed (sub.trans (List.prefix_append _ _))
  | broken writes stuck failed sub =>
    exact .broken writes stuck failed (sub.trans (List.prefix_append _ _))
  | abandoned r y dead writes sending all sub =>
    exact .abandoned r y dead writes sending (fun h => (all h).trans (List.prefix_append _ _))
      (sub.trans (List.prefix_append _ _))

theorem Phase.start {payload y out : Bytes} {tasks : Nat} (h : Phase l o)
    (idle : o.isSending = false) (socket : l.socket = true) (user : l.pc.runsUserCode = true)
    (split : o.out ++ payload = y ++ out) :
    Phase l { o with tasks := tasks, submitted := o.submitted ++ payload, out := out,
                     isSending := true, writes := o.writes ++ [(none, y)] } := by
  cases h with
  | idle writes _ failed hout all =>
    rw [hout, List.nil_append] at split
    refine .pending y (by simp [writes]) rfl failed ?_
    show o.submitted ++ payload = o.wire ++ (y ++ out)
    rw [all, split]
  | pending y _ sending => rw [idle] at sending; cases sending
  | sent k y _ sending => rw [idle] at sending; cases sending
  | failed r y _ _ _ sending => rw [idle] at sending; cases sending
  | broken _ stuck =>
    rcases stuck with h | h | h
    · rw [h] at user; cases user
    · rw [h] at user; cases user
    · rw [socket] at h; cases h
  | abandoned r y _ _ sending => rw [idle] at sending; cases sending

theorem Phase.transmit {pre post : List (Option WriteResult × Bytes)} {y : Bytes} (h : Phase l o)
    (hwrites : o.writes = pre ++ (none, y) :: post) :
    Phase l { o with writes := pre ++ post ++ [(some (.success y.length), y)],
                     wire := o.wire ++ y.take y.length } := by
  rw [List.take_length]
  cases h with
  | idle writes => rw [writes] at hwrites; simp at hwrites
  | pending y' writes sending failed all =>
    obtain ⟨rfl, rfl, heq⟩ := split_singleton (hwrites.symm.trans writes)
    cases heq
    refine .sent y.length y rfl sending failed ?_
    show o.submitted = o.wire ++ y ++ o.out
    rw [all, List.append_assoc]
  | sent k y' writes => cases (split_singleton (hwrites.symm.trans writes)).2.2
  | failed r y' writes => cases (split_singleton (hwrites.symm.trans writes)).2.2
  | broken writes => rw [writes] at hwrites; simp at hwrites
  | abandoned r y' dead writes sending all sub =>
    obtain ⟨rfl, rfl, heq⟩ := split_singleton (hwrites.symm.trans writes)
    cases heq
    exact .abandoned _ y dead rfl sending (fun h => by cases h) (all rfl)

theorem Phase.fail {pre post : List (Option WriteResult × Bytes)} {y : Bytes} {r : WriteResult}
    (h : Phase l o) (hwrites : o.writes = pre ++ (none, y) :: post) (bad : ∀ k, r ≠ .success k)
    (closed : r = .aborted → l.socket = false) :
    Phase l { o with writes := pre ++ post ++ [(some r, y)], failed := true } := by
  cases h with
  | idle writes => rw [writes] at hwrites; simp at hwrites
  | pending y' writes sending failed all =>
    obtain ⟨rfl, rfl, heq⟩ := split_singleton (hwrites.symm.trans writes)
    cases heq
    exact .failed r y rfl bad closed sending rfl ⟨y ++ o.out, all.symm⟩
  | sent k y' writes => cases (split_singleton (hwrites.symm.trans writes)).2.2
  | failed r y' writes => cases (split_singleton (hwrites.symm.trans writes)).2.2
  | broken writes => rw [writes] at hwrites; simp at hwrites
  | abandoned r' y' dead writes sending all sub =>
    obtain ⟨rfl, rfl, heq⟩ := split_singleton (hwrites.symm.trans writes)
    cases heq
    exact .abandoned _ y dead rfl sending (fun h => by cases h) sub

theorem Phase.handled_bad {pre post : List (Option WriteResult × Bytes)} {y : Bytes} {r : WriteResult}
    (h : Phase l o) (alive : l.alive = true) (hwrites : o.writes = pre ++ (some r, y) :: post)
    (hbad : ∀ k, r ≠ .success k) :
    pre ++ post = [] ∧ (r = .aborted → l.socket = false) ∧ o.wire <+: o.submitted ∧
      o.failed = true := by
  cases h with
  | idle writes => rw [writes] at hwrites; simp at hwrites
  | pending y' writes => cases (split_singleton (hwrites.symm.trans writes)).2.2
  | sent k y' writes =>
    cases (split_singleton (hwrites.symm.trans writes)).2.2
    exact absurd rfl (hbad k)
  | failed r' y' writes bad closed sending failed sub =>
    obtain ⟨rfl, rfl, heq⟩ := split_singleton (hwrites.symm.trans writes)
    cases heq
    exact ⟨rfl, closed, sub, failed⟩
  | broken writes => rw [writes] at hwrites; simp at hwrites
  | abandoned r' y' dead => rw [alive] at dead; cases dead

theorem Phase.handled_success {pre post : List (Option WriteResult × Bytes)} {y : Bytes} {k : Nat}
    (h : Phase l o) (alive : l.alive = true)
    (hwrites : o.writes = pre ++ (some (.success k), y) :: post) :
    pre ++ post = [] ∧ o.failed = false ∧ o.submitted = o.wire ++ o.out := by
  cases h with
  | idle writes => rw [writes] at hwrites; simp at hwrites
  | pending y' writes => cases (split_singleton (hwrites.symm.trans writes)).2.2
  | sent k' y' writes sending failed all =>
    obtain ⟨rfl, rfl, _⟩ := split_singleton (hwrites.symm.trans writes)
    exact ⟨rfl, failed, all⟩
  | failed r' y' writes bad =>
    obtain ⟨_, _, heq⟩ := split_singleton (hwrites.symm.trans writes)
    cases heq
    exact absurd rfl (bad k)
  | broken writes => rw [writes] at hwrites; simp at hwrites
  | abandoned r' y' dead => rw [alive] at dead; cases dead

theorem OutStep.phase (h : OutStep P l l' o o') (hP : P) (hphase : Phase l o)
    (hstage : Stage l) (hlife : l' = l ∨ LifeStep C M E l l')
    (hborn : l.established = false → o.writes = []) : Phase l' o' := by
  have hmove : Phase l o' → Phase l' o' := by
    intro h
    cases hlife with
    | inl hsame => rw [hsame]; exact h
    | inr hstep => exact h.same hstep.socket hstep.dead (hstep.stuck hstage)
  cases h with
  | same => exact hmove hphase
  | posted _ =>
    refine hmove ?_
    cases hphase with
    | idle writes sending failed out all => exact .idle writes sending failed out all
    | pending y writes sending failed all => exact .pending y writes sending failed all
    | sent k y writes sending failed all => exact .sent k y writes sending failed all
    | failed r y writes bad closed sending failed sub =>
      exact .failed r y writes bad closed sending failed sub
    | broken writes stuck failed sub => exact .broken writes stuck failed sub
    | abandoned r y dead writes sending all sub => exact .abandoned r y dead writes sending all sub
  | queued payload first tasks whole _ _ sending =>
    obtain rfl := whole hP
    exact hmove (hphase.queue sending)
  | started payload first y out tasks whole _ _ idle socket user split =>
    obtain rfl := whole hP
    exact hmove (hphase.start idle socket user split)
  | transmitted pre post y k writes whole =>
    obtain rfl := whole hP
    exact hmove (hphase.transmit writes)
  | broke pre post y r writes bad closed => exact hmove (hphase.fail writes bad closed)
  | gaveUp pre post y r alive writes bad error =>
    obtain ⟨hwrites, hclosed, hsub, hflag⟩ := hphase.handled_bad alive writes bad
    refine .broken hwrites ?_ hflag hsub
    cases r with
    | success k => exact absurd rfl (bad k)
    | aborted =>
      cases hlife with
      | inl hsame => exact hsame ▸ .inr (.inr (hclosed rfl))
      | inr hstep => exact .inr (.inr (hstep.socket (hclosed rfl)))
    | failed =>
      rw [error rfl]
      refine handleError_stuck hstage (Bool.of_not_eq_false fun hnot => ?_)
      rw [hborn hnot] at writes
      simp at writes
  | drained pre post y k alive writes empty =>
    obtain ⟨hwrites, hflag, hall⟩ := hphase.handled_success alive writes
    rw [empty, List.append_nil] at hall
    exact .idle hwrites rfl hflag empty hall.symm
  | next pre post y y' out k alive writes socket split =>
    obtain ⟨hwrites, hflag, hall⟩ := hphase.handled_success alive writes
    rw [split] at hall
    exact .pending y' (by simp [hwrites]) rfl hflag hall
  | destroyed dead =>
    cases hphase with
    | idle writes sending failed out all => exact .idle writes sending failed rfl all
    | pending y writes sending failed all =>
      refine .abandoned none y dead writes sending (fun _ => ?_) ?_
      · exact ⟨o.out, by rw [all, List.append_assoc]⟩
      · exact ⟨y ++ o.out, all.symm⟩
    | sent k y writes sending failed all =>
      exact .abandoned _ y dead writes sending (fun h => by cases h) ⟨o.out, all.symm⟩
    | failed r y writes bad closed sending failed sub =>
      exact .abandoned _ y dead writes sending (fun h => by cases h) sub
    | broken writes stuck failed sub =>
      refine .broken writes ?_ failed sub
      cases hlife with
      | inl hsame => exact hsame ▸ stuck
      | inr hstep => exact hstep.stuck hstage stuck
    | abandoned r y _ writes sending all sub => exact .abandoned r y dead writes sending all sub

theorem Stage.established_of_connected (h : Stage l) (hstatus : l.status = .kConnected) :
    l.established = true := by
  cases h with
  | unborn _ _ hnot => rw [hnot] at hstatus; cases hstatus
  | connecting h => exact h
  | opened first ms h => exact h
  | between first ms h => exact h
  | ended first ms late h => exact h

theorem OutStep.begun (h : OutStep P l l' o o') (hstage : Stage l) (hold : l.established = false)
    (hnone : o.tasks = 0 ∧ o.writes = []) : o'.tasks = 0 ∧ o'.writes = [] := by
  obtain ⟨htasks, hwrites⟩ := hnone
  have hnot : l.status ≠ .kConnected := fun hconnected => by
    rw [hstage.established_of_connected hconnected] at hold
    cases hold
  cases h with
  | same => exact ⟨htasks, hwrites⟩
  | posted hconnected => exact absurd hconnected hnot
  | queued payload first tasks _ few => exact ⟨Nat.le_zero.mp (htasks ▸ few), hwrites⟩
  | started payload first y out tasks _ _ begun =>
    cases begun with
    | inl hconnected => exact absurd hconnected hnot
    | inr hpos => omega
  | transmitted pre post y k writes => rw [hwrites] at writes; simp at writes
  | broke pre post y r writes => rw [hwrites] at writes; simp at writes
  | gaveUp pre post y r _ writes => rw [hwrites] at writes; simp at writes
  | drained pre post y k _ writes => rw [hwrites] at writes; simp at writes
  | next pre post y y' out k _ writes => rw [hwrites] at writes; simp at writes
  | destroyed _ => exact ⟨htasks, hwrites⟩

end Steps

/-! ## Runs -/

section Runs

variable {n : Nat} {build : Build} {w : World n} {m : Mem}

/-- What holds of a new connection, and is preserved by all that can happen to its
    outgoing bytes, holds in every state of a run. -/
theorem RunOf.outgoing {P : World n → Mem → Action n → Prop} {I : Life → Outgoing → Prop}
    (h : RunOf build P w m) (init : ∀ m, I {} (({} : Flow).outgoing m []))
    (step : ∀ w m a l l' o o', P w m a → OutStep (World.Whole w m a) l l' o o' → I l o → Stage l →
      l' = l ∨ LifeStep (fun _ => True) (fun _ => True) (fun _ => True) l l' →
      (l.established = false → o.writes = []) → I l' o') :
    ∃ chain lost k, w.Custody m chain lost k ∧
      ∀ c, ((w.life c).established = false →
          (w.outgoing m chain c).tasks = 0 ∧ (w.outgoing m chain c).writes = []) ∧
        I (w.life c) (w.outgoing m chain c) := by
  induction h with
  | start cell =>
    exact ⟨fun _ => [], [], 0, World.Custody.initial cell, fun c => ⟨fun _ => ⟨rfl, rfl⟩, init _⟩⟩
  | @step w w' m m' a before enabled condition done ih =>
    obtain ⟨chain, lost, k, hcustody, hinv⟩ := ih
    obtain ⟨hstage, hborn⟩ := before.stage
    obtain ⟨chain', lost', k', hcustody', _, hsteps⟩ :=
      World.exec_custody hcustody enabled w' m' done
    refine ⟨chain', lost', k', hcustody', fun c => ⟨fun hnew => ?_, ?_⟩⟩
    · have hold := exec_unborn hborn enabled done hnew
      exact (hsteps c).begun (hstage c) hold ((hinv c).1 hold)
    · exact step w m a _ _ _ _ condition (hsteps c) (hinv c).2 (hstage c)
        (before.lifeStep enabled done c) fun hold => ((hinv c).1 hold).2

theorem RunOf.stream (h : RunOf build World.Whole w m) : ∃ chain lost k, w.Custody m chain lost k ∧
    ∀ c, Stream (w.life c) (w.outgoing m chain c) := by
  obtain ⟨chain, lost, k, hcustody, hphase⟩ := h.outgoing (I := Phase)
    (fun _ => .idle rfl rfl rfl rfl rfl)
    fun _ _ _ _ _ _ _ condition hstep hphase hstage hlife hborn =>
      hstep.phase condition hphase hstage hlife hborn
  exact ⟨chain, lost, k, hcustody, fun c => ⟨(hphase c).1, (hphase c).2⟩⟩

/-- In every run whose sends fit into one piece and are not short: what a connection
    has transmitted is a prefix of what it was given to send, and is all of it once
    nothing is in flight and no send has failed. -/
theorem transmits_submitted (h : RunOf build World.Whole w m) (c : Fin n) :
    (w.flow c).wire <+: (w.flow c).submitted ∧
    ((w.flow c).writes = [] → (w.flow c).failed = false → (w.flow c).wire = (w.flow c).submitted) := by
  obtain ⟨chain, lost, k, _, hstream⟩ := h.stream
  have hflight : (w.flow c).writes = [] → (w.outgoing m chain c).writes = [] := fun hwrites => by
    simp [World.outgoing, Flow.outgoing, Flow.inFlight, hwrites]
  cases (hstream c).phase with
  | idle _ _ _ _ all => exact ⟨⟨[], by rw [List.append_nil]; exact all⟩, fun _ _ => all⟩
  | pending y writes _ _ all =>
    exact ⟨⟨_, all.symm⟩, fun hnone => by rw [hflight hnone] at writes; cases writes⟩
  | sent k y writes _ _ all =>
    exact ⟨⟨_, all.symm⟩, fun hnone => by rw [hflight hnone] at writes; cases writes⟩
  | failed r y writes _ _ _ _ sub =>
    exact ⟨sub, fun hnone => by rw [hflight hnone] at writes; cases writes⟩
  | broken _ _ failed sub => exact ⟨sub, fun _ hok => absurd (hok.symm.trans failed) (by decide)⟩
  | abandoned r y _ writes _ _ sub =>
    exact ⟨sub, fun hnone => by rw [hflight hnone] at writes; cases writes⟩

theorem handleWrite_drains {chain : BufferId n → List Ptr} {lost : List Ptr} {k j : Nat} {c : Fin n}
    {op : WriteOp} (h : w.Custody m chain lost k) (alive : (w.life c).alive = true)
    (hop : op ∈ (w.flow c).writes) (hresult : op.result = some (.success j))
    (hempty : (w.bufs (.output c)).length = 0) :
    (w.exec (.handleWrite c op)).wp build m fun w' _ =>
      w'.life = w.life ∧ w'.flow c = (w.flow c).completed op := by
  obtain ⟨rest, hfocus⟩ := h.focus (.output c) c
  have hheld := (Flow.held_perm_write hop).append_right (lost ++ rest)
  have hperm := (hheld.append_left (chain (.output c))).trans List.perm_middle
  simp only [World.exec, TCPConn.handleWrite, alive, if_true, onPieces, Prog.wp_bind,
    Prog.wp_mapFault]
  refine (hfocus.owns.deletePiece hperm).imp ?_
  intro _ m' _
  simp only [hresult, launchWrite, hempty, Nat.lt_irrefl, if_false, Prog.wp_bind, Prog.wp_pure]
  exact ⟨Function.update_eq_self _ _, Function.update_self ..⟩

/-- A run of a system of one connection, told by what it reaches. -/
theorem RunOf.reaches {P : World 1 → Mem → Action 1 → Prop} {w : World 1} {l : Life} {f : Flow}
    (h : RunOf build P w m) (hlife : w.life 0 = l) (hflow : w.flow 0 = f) :
    RunOf build P ⟨w.bufs, fun _ => l, fun _ => f⟩ m := by
  subst hlife hflow
  rw [World.eq_one w] at h
  exact h

/-- A connection is established and two bytes are given to it on its loop thread: they are
    in flight. -/
theorem two_in_flight (build : Build) : ∃ (bufs : BufferId 1 → Buffer) (m : Mem),
    RunOf build World.Whole ⟨bufs,
      fun _ => { established := true, status := .kConnected, log := [.connection .kConnected] },
      fun _ => { isSending := true, reads := [⟨0, none⟩], writes := [⟨1, true, none⟩],
                 submitted := [1, 2] }⟩ m ∧
    (bufs (.output 0)).length = 0 ∧ (m.cell 1).bytes = [1, 2] ∧ (m.cell 1).len = 2 := by
  have r : RunOf build World.Whole ({} : World 1) emptyMem := .start _
  have r := r.step (.connectEstablished 0) ⟨rfl, rfl, rfl⟩ trivial rfl
  have r := r.step (.resume 0) (by intro h; cases h) trivial rfl
  have r := r.step (.resume 0) (by intro h; cases h) trivial rfl
  cases build with
  | debug =>
    have r := r.step (.sendData 0 [1, 2] true) ⟨rfl, fun _ => rfl⟩ (fun _ => by decide) rfl
    exact ⟨_, _, r.reaches rfl rfl, rfl, rfl, rfl⟩
  | release =>
    have r := r.step (.sendData 0 [1, 2] true) ⟨rfl, fun _ => rfl⟩ (fun _ => by decide) rfl
    exact ⟨_, _, r.reaches rfl rfl, rfl, rfl, rfl⟩

/-- Two bytes are sent and transmitted in one go. -/
theorem transmits_submitted_two :
    ∃ (w : World 1) (m : Mem), RunOf .release World.Whole w m ∧ (w.flow 0).submitted = [1, 2] ∧
      (w.flow 0).wire = (w.flow 0).submitted := by
  obtain ⟨bufs, m, r, hempty, _, hlen⟩ := two_in_flight .release
  have r := r.step (.writeDone 0 ⟨1, true, none⟩ (.success 2))
    ⟨.head _, rfl, rfl, fun _ => by decide, Nat.le_of_eq hlen.symm⟩ hlen.symm rfl
  obtain ⟨chain, lost, k, hcustody, _⟩ := r.stream
  have hdrains : (World.exec _ (.handleWrite 0 ⟨1, true, some (.success 2)⟩)).wp .release _ _ :=
    handleWrite_drains hcustody rfl (.head _) rfl hempty
  obtain ⟨w', m', done, _, hflow⟩ := hdrains
  have r := r.step (.handleWrite 0 ⟨1, true, some (.success 2)⟩)
    ⟨.head _, (by intro h; cases h), rfl⟩ trivial done
  exact ⟨w', m', r, by rw [hflow]; rfl, (transmits_submitted r 0).2 (by rw [hflow]; rfl)
    (by rw [hflow]; rfl)⟩

/-- Two bytes are sent and only one of them is transmitted.  `handleWrite` takes
    this for all: nothing is in flight, nothing has failed, and a byte is missing. -/
theorem short_send_loses_byte :
    ∃ (w : World 1) (m : Mem), RunOf .release (fun _ _ _ => True) w m ∧
      (w.life 0).status = .kConnected ∧ (w.flow 0).writes = [] ∧ (w.flow 0).failed = false ∧
      (w.flow 0).submitted = [1, 2] ∧ (w.flow 0).wire = [1] := by
  obtain ⟨bufs, m, r, hempty, hbytes, hlen⟩ := two_in_flight .release
  have r := r.imp (Q := fun _ _ _ => True) fun _ _ _ _ => trivial
  have r := r.step (.writeDone 0 ⟨1, true, none⟩ (.success 1))
    ⟨.head _, rfl, rfl, fun _ => by decide, by rw [hlen]; decide⟩ trivial rfl
  obtain ⟨chain, lost, k, hcustody, _⟩ := r.custody
  have hdrains : (World.exec _ (.handleWrite 0 ⟨1, true, some (.success 1)⟩)).wp .release _ _ :=
    handleWrite_drains hcustody rfl (.head _) rfl hempty
  obtain ⟨w', m', done, hlife, hflow⟩ := hdrains
  have r := r.step (.handleWrite 0 ⟨1, true, some (.success 1)⟩)
    ⟨.head _, (by intro h; cases h), rfl⟩ trivial done
  have hwire : (w'.flow 0).wire = (m.cell 1).bytes.take 1 := by rw [hflow]; rfl
  exact ⟨w', m', r, by rw [hlife]; rfl, by rw [hflow]; rfl, by rw [hflow]; rfl,
    by rw [hflow]; rfl, by rw [hwire, hbytes]; rfl⟩

end Runs

end Netpp
