import Netpp.Echo.Peer

/-! # What a step does to a program

`Kept.exec` runs through a step of the connections, the codec and the program at once, for a
connection that is being sent one message.

* `Program.Proper`: the program sends what can be read back.
* `Turn`: the step is not the program's business, or is the beginning or the end of a
  connection, or completes a message.
-/

namespace Netpp

open TCPConn
open Function (update)

/-! ## Callbacks of the connection -/

section Lives

variable {n : Nat} {build : Build} {w w' : World n} {m m' : Mem} {a : Action n} {c : Fin n}
  {C M E : Life → Prop} {l l' : Life}

/-- No call of `connection_cb_` lies between the two. -/
structure SameCalls (l l' : Life) : Prop where
  log : l'.log = [] ↔ l.log = []
  calls : ∀ status, .connection status ∈ l'.log ↔ .connection status ∈ l.log

theorem SameCalls.of_log (h : l'.log = l.log) : SameCalls l l' :=
  ⟨by rw [h], fun _ => by rw [h]⟩

theorem SameCalls.append {callback : ConnCallback} (hne : l.log ≠ [])
    (hother : ∀ status, callback ≠ .connection status) (h : l'.log = l.log ++ [callback]) :
    SameCalls l l' := by
  refine ⟨iff_of_false (by simp [h]) hne, fun status => ?_⟩
  rw [h, List.mem_append, List.mem_singleton]
  exact or_iff_left (hother status).symm

theorem LifeStep.sameCalls (h : LifeStep C M E l l') (hstage : Stage l)
    (hconnected : ¬ (l.pc = .connecting ∧ l'.pc = .connected))
    (hnotified : ¬ (l.pc = .reset ∧ l'.pc = .notified)) : SameCalls l l' := by
  cases h with
  | close call _ _ =>
    unfold compareExchange
    split <;> exact .of_log rfl
  | closeGoesOn call _ => cases call <;> exact .of_log rfl
  | notifyConnected hpc => exact absurd ⟨hpc, rfl⟩ hconnected
  | handleError _ _ =>
    unfold TCPConn.handleError
    split <;> exact .of_log rfl
  | message hidle hestablished _ =>
    exact .append (hstage.log_ne_nil (by simp [hidle]) (.inl hestablished)) (by simp) rfl
  | notifyDisconnecting hpc => exact absurd ⟨hpc, rfl⟩ hnotified
  | notifyClosed hpc =>
    exact .append (hstage.log_ne_nil (by simp [hpc]) (.inr (by simp [hpc]))) (by simp) rfl
  | _ => exact .of_log rfl

theorem Stage.log_of_connecting (h : Stage l) (hpc : l.pc = .connecting) : l.log = [] := by
  cases h with
  | unborn _ hlog => exact hlog
  | connecting _ hlog => exact hlog
  | opened first ms _ _ _ _ hnot => exact absurd hpc hnot.1
  | between first ms _ _ _ _ hnotified => rw [hpc] at hnotified; cases hnotified
  | ended first ms late _ _ _ _ hstatus => simp [hpc] at hstatus

theorem Stage.established_of_busy (h : Stage l) (hbusy : l.pc ≠ .idle) : l.established = true := by
  by_contra hnot
  exact hbusy (h.idle_of_unborn (Bool.eq_false_of_not_eq_true hnot))

theorem World.Sound.alive_of_read {chain : BufferId n → List Ptr} {lost : List Ptr} {k : Nat} {op : ReadOp}
    (h : w.Sound m chain lost k) (hop : op ∈ (w.flow c).reads) : (w.life c).alive = true := by
  by_contra hdead
  rw [(h.gone c (Bool.eq_false_of_not_eq_true hdead)).reads] at hop
  cases hop

theorem exec_sameCalls (hstage : Stage (w.life c)) (born : w.Born) (enabled : w.Enabled m a)
    (done : w.exec a build m = .ok (w', m'))
    (hnot : ¬ (a = .resume c ∧ ((w'.life c).pc = .connected ∨ (w'.life c).pc = .notified))) :
    SameCalls (w.life c) (w'.life c) := by
  have hbusy : (w.life c).pc ≠ .idle → (w'.life c).pc ≠ (w.life c).pc → a = .resume c := by
    intro hbusy hmoved
    by_contra hresume
    exact hmoved (exec_pc_busy enabled done hbusy hresume)
  cases exec_lifeStep born enabled done c with
  | inl hsame => exact .of_log (by rw [hsame])
  | inr hstep =>
    refine hstep.sameCalls hstage (fun hpc => ?_) fun hpc => ?_
    · exact hnot ⟨hbusy (by simp [hpc.1]) (by simp [hpc.1, hpc.2]), .inl hpc.2⟩
    · exact hnot ⟨hbusy (by simp [hpc.1]) (by simp [hpc.1, hpc.2]), .inr hpc.2⟩

theorem exec_resume_callback (done : w.exec (.resume c) build m = .ok (w', m')) :
    ((w'.life c).pc = .connected →
      (w.life c).pc = .connecting ∧ w'.life c = notifyConnected (w.life c)) ∧
    ((w'.life c).pc = .notified →
      (w.life c).pc = .reset ∧ w'.life c = notifyDisconnecting (w.life c)) := by
  have helse : ∀ {pc : LoopPc} {P Q : Prop}, pc ≠ .connected → pc ≠ .notified →
      (pc = .connected → P) ∧ (pc = .notified → Q) := fun hconnected hnotified =>
    ⟨fun h => absurd h hconnected, fun h => absurd h hnotified⟩
  have hidle : ∀ {P Q : Prop}, (LoopPc.idle = .connected → P) ∧ (LoopPc.idle = .notified → Q) :=
    helse (by simp) (by simp)
  have hwlp : (w.exec (.resume c)).wlp build m fun w' _ =>
      ((w'.life c).pc = .connected →
        (w.life c).pc = .connecting ∧ w'.life c = notifyConnected (w.life c)) ∧
      ((w'.life c).pc = .notified →
        (w.life c).pc = .reset ∧ w'.life c = notifyDisconnecting (w.life c)) := by
    simp only [World.exec, Prog.wlp_bind, Prog.wlp_pure, World.setLife, World.setFlow,
      Function.update_self]
    unfold TCPConn.resume
    cases hpc : (w.life c).pc with
    | idle => exact (Prog.wlp_pure ..).mpr (helse (by simp [hpc]) (by simp [hpc]))
    | connecting => exact (Prog.wlp_pure ..).mpr ⟨fun _ => ⟨rfl, rfl⟩, fun h => (by cases h)⟩
    | connected | message =>
      simp only [Prog.wlp_bind, Prog.wlp_pure]
      exact fun _ _ _ => hidle
    | forced => exact (Prog.wlp_pure ..).mpr ⟨fun h => (by cases h), fun h => (by cases h)⟩
    | closing =>
      simp only [Prog.wlp_bind, Prog.wlp_pure]
      unfold TCPConn.handleClose
      simp only [onPieces, Prog.wlp_bind, Prog.wlp_mapFault]
      intro _ _ _
      split
      · simp only [Prog.wlp_bind, Prog.wlp_pure, Prog.wlp_mapFault]
        exact fun _ _ _ => ⟨fun h => (by cases h), fun h => (by cases h)⟩
      · exact (Prog.wlp_pure ..).mpr hidle
    | reset => exact (Prog.wlp_pure ..).mpr ⟨fun h => (by cases h), fun _ => ⟨rfl, rfl⟩⟩
    | notified => exact (Prog.wlp_pure ..).mpr ⟨fun h => (by cases h), fun h => (by cases h)⟩
    | closed => exact (Prog.wlp_pure ..).mpr hidle
  exact hwlp w' m' done

theorem exec_handleRead_message {op : ReadOp} (idle : (w.life c).pc = .idle) (hresult : op.result ≠ none)
    (done : w.exec (.handleRead c op) build m = .ok (w', m')) (hpc : (w'.life c).pc = .message) :
    ∃ d, op.result = some (.success d) := by
  have hwlp : (w.exec (.handleRead c op)).wlp build m fun w' _ =>
      (op.result = some .failed → w'.life c = handleError (w.life c)) ∧
      (op.result = some .aborted → w'.life c = w.life c) := by
    simp only [World.exec, Prog.wlp_bind, Prog.wlp_pure, World.setLife, World.setFlow, World.setBuf,
      Function.update_self]
    exact handleRead_life_eq.imp fun _ _ h => h.2
  obtain ⟨hfailed, haborted⟩ := hwlp w' m' done
  cases hop : op.result with
  | none => exact absurd hop hresult
  | some result =>
    cases result with
    | success d => exact ⟨d, rfl⟩
    | failed =>
      rw [hfailed hop, TCPConn.handleError] at hpc
      split at hpc
      · cases hpc
      · rw [idle] at hpc
        cases hpc
    | aborted =>
      rw [haborted hop, idle] at hpc
      cases hpc

end Lives

namespace Echo

/-- What the program sends, the other side can read. -/
structure Program.Proper {A : Type} (prog : Program A) : Prop where
  greeting : ∀ app status, ∀ message ∈ (prog.connectionCallback app status).2, message.Sendable
  reply : ∀ app next, next.Sendable →
    ∀ message ∈ (prog.messageCallback app next).2.reply, message.Sendable

namespace Peer

variable {n : Nat} {A : Type} {prog : Program A} {build : Build} {s s' : Peer n A} {m m' : Mem}
  {w' : World n} {a : Action n} {c : Fin n} {next : Message}

theorem movesData_of_byApplication (h : a.byApplication = false) : a.movesData = false := by
  cases a with
  | buffer _ | sendData _ _ _ | sendBuffer _ _ _ => cases h
  | _ => rfl

/-! ## The step of the connections -/

theorem handleRead_of_delivery (h : a.delivery c ≠ []) : ∃ op, a = .handleRead c op := by
  cases a with
  | handleRead e op =>
    by_cases he : e = c
    · exact ⟨op, by rw [he]⟩
    · exact absurd (if_neg he) h
  | _ => exact absurd rfl h

theorem Kept.delivered_prefix (h : Kept s m) (enabled : s.world.Enabled m a) (c : Fin n) :
    s.delivered c ++ a.delivery c <+: s.arrived c := by
  obtain ⟨chain, lost, k, hsound⟩ := h.sound
  rw [h.arrived]
  by_cases hnone : a.delivery c = []
  · rw [hnone, List.append_nil]
    exact List.prefix_append ..
  · obtain ⟨op, rfl⟩ := handleRead_of_delivery hnone
    obtain ⟨hreads, _⟩ := (hsound.receiving c).erase enabled.1
    simp [Flow.pending, hreads, Action.delivery]

theorem Kept.advance (h : Kept s m) (still : a.byApplication = false) (enabled : s.world.Enabled m a)
    (whole : s.world.Whole m a) (done : s.world.exec a build m = .ok (w', m'))
    (hfit : ∀ c d, s.world.Inbox m c d → a.delivery c ≠ [] →
      (d ++ a.delivery c).length ≤ kPieceCapacity) : Kept (s.advance a w') m' := by
  obtain ⟨chain, lost, k, hsound⟩ := h.sound
  have hstill := movesData_of_byApplication still
  obtain ⟨chain', lost', k', hsound'⟩ := hsound.exec hstill enabled whole done
  refine ⟨⟨chain', lost', k', hsound'⟩, fun e => ?_, fun e => ?_, fun e halive => ?_, fun e hnew => ?_,
    h.errors⟩
  · -- the steps of the connections submit nothing
    exact (World.exec_posts hstill hsound.posted enabled done e).2.trans (h.submitted e)
  · have hpending := exec_pending enabled done (hsound.receiving e)
    show s.arrived e ++ a.arrival e = (s.delivered e ++ a.delivery e) ++ (w'.flow e).pending
    rw [h.arrived, List.append_assoc, ← hpending, List.append_assoc]
  · -- a connection that is destroyed has no inbox to speak of
    have hdestroy : a ≠ .destroy e := by
      rintro rfl
      have hdead : (w'.life e).alive = false := by rw [(World.exec_destroy done).1]
      exact absurd (hdead.symm.trans halive) (by decide)
    have hbefore : (s.world.life e).alive = true := (exec_alive done hdestroy).symm.trans halive
    obtain ⟨d, hinbox, hdelivered⟩ := h.inbox e hbefore
    refine ⟨d ++ a.delivery e, hinbox.exec hsound.custody hsound'.custody hstill enabled done hdestroy
      (hfit e d hinbox), ?_⟩
    show s.delivered e ++ a.delivery e = (s.messages e).flatMap Message.frame ++ (d ++ a.delivery e)
    rw [hdelivered, List.append_assoc]
  · exact h.fresh e (exec_unborn hsound.born enabled done hnew)

/-! ## The whole step -/

/-- What a step does to the program: nothing, or what one of its callbacks does for the
    connection `c`.  `next` is the message that it may have received. -/
inductive Turn (prog : Program A) (a : Action n) (c : Fin n) (next : Message) (s s' : Peer n A) : Prop
  | quiet (app : s'.app = s.app) (messages : s'.messages = s.messages) (sends : s'.sends = s.sends)
      (same : SameCalls (s.world.life c) (s'.world.life c))
  | opened (before : (s.world.life c).log = [])
      (after : (s'.world.life c).log = [.connection (s'.world.life c).status])
      (app : s'.app = (prog.connectionCallback s.app (s'.world.life c).status).1)
      (messages : s'.messages = s.messages)
      (sends : s'.sends = update s.sends c (s.sends c ++
        s'.accepts c (prog.connectionCallback s.app (s'.world.life c).status).2))
  | ending (before : (s.world.life c).log ≠ [])
      (after : (s'.world.life c).log = (s.world.life c).log ++ [.connection .kDisconnecting])
      (status : (s'.world.life c).status = .kDisconnecting)
      (app : s'.app = (prog.connectionCallback s.app .kDisconnecting).1)
      (messages : s'.messages = s.messages) (sends : s'.sends = s.sends)
  | got (delivery : a.delivery c ≠ []) (before : (s.world.life c).log ≠ [])
      (same : SameCalls (s.world.life c) (s'.world.life c))
      (app : s'.app = (prog.messageCallback s.app next).1)
      (messages : s'.messages = update s.messages c (s.messages c ++ [next]))
      (sends : s'.sends = update s.sends c (s.sends c ++
        s'.accepts c (prog.messageCallback s.app next).2.reply))

theorem Turn.others {e : Fin n} (h : Turn prog a c next s s') (he : e ≠ c) :
    s'.messages e = s.messages e ∧ s'.sends e = s.sends e := by
  cases h with
  | quiet _ messages sends _ => exact ⟨by rw [messages], by rw [sends]⟩
  | opened _ _ _ messages sends => exact ⟨by rw [messages], by rw [sends, Function.update_of_ne he]⟩
  | ending _ _ _ _ messages sends => exact ⟨by rw [messages], by rw [sends]⟩
  | got _ _ _ _ messages sends =>
    exact ⟨by rw [messages, Function.update_of_ne he], by rw [sends, Function.update_of_ne he]⟩

theorem Turn.silent (h : Turn prog a c next s s')
    (hsilent : (s.world.life c).log = [] → s.messages c = [] ∧ s.sends c = [])
    (hlog : (s'.world.life c).log = []) : s'.messages c = [] ∧ s'.sends c = [] := by
  cases h with
  | quiet _ messages sends same =>
    rw [messages, sends]
    exact hsilent (same.log.mp hlog)
  | opened _ after =>
    rw [after] at hlog
    cases hlog
  | ending _ after =>
    rw [after] at hlog
    exact absurd hlog (by simp)
  | got _ before same => exact absurd (same.log.mp hlog) before

/-- What a step for `c` does, next to its turn. -/
structure Stepped (prog : Program A) (a : Action n) (c : Fin n) (next : Message) (s s' : Peer n A) :
    Prop where
  turn : Turn prog a c next s s'
  others : ∀ e, e ≠ c → s'.world.life e = s.world.life e
  connected : (s.world.life c).log ≠ [] → (s'.world.life c).status = .kConnected →
    (s.world.life c).status = .kConnected
  sees : SeesConnected (s.world.life c) → SeesConnected (s'.world.life c)
  arrived : s'.arrived = fun e => s.arrived e ++ a.arrival e

theorem Kept.setApp (h : Kept s m) (app : A) : Kept { s with app := app } m :=
  ⟨h.sound, h.submitted, h.arrived, h.inbox, h.fresh, h.errors⟩

theorem Sent.life {out : Option Message} (h : Sent s c out s') :
    (∀ e, e ≠ c → s'.world.life e = s.world.life e) ∧
    (s'.world.life c).log = (s.world.life c).log ∧
    ((s'.world.life c).status = .kConnected → (s.world.life c).status = .kConnected) := by
  refine ⟨fun e he => (h.lives e).resolve_right fun hc => he hc.1, ?_⟩
  cases h.lives c with
  | inl hsame =>
    rw [hsame]
    exact ⟨rfl, id⟩
  | inr hclosed =>
    rw [hclosed.2, TCPConn.close, compareExchange]
    split
    · exact ⟨rfl, fun h => (by cases h)⟩
    · exact ⟨rfl, id⟩

theorem Kept.connectionCallback (h : Kept s m) (proper : prog.Proper)
    (callable : s.world.Callable c true) :
    (s.connectionCallback prog c).wp build m fun s' m' => Kept s' m' ∧
      Sent { s with app := (prog.connectionCallback s.app (s.world.life c).status).1 } c
        (prog.connectionCallback s.app (s.world.life c).status).2 s' ∧
      s'.world.life = s.world.life := by
  have hgreeting := proper.greeting s.app (s.world.life c).status
  have hkept := h.setApp (prog.connectionCallback s.app (s.world.life c).status).1
  simp only [Peer.connectionCallback]
  cases hout : (prog.connectionCallback s.app (s.world.life c).status).2 with
  | some message =>
    refine (hkept.send (hgreeting message (by rw [hout]; rfl)) callable).imp ?_
    rintro s' m' ⟨hkept, hsent, hlives, _, _⟩
    exact ⟨hkept, hsent, hlives⟩
  | none =>
    refine (Prog.wp_pure ..).mpr ⟨hkept, ⟨?_, fun _ => .inl rfl⟩, rfl⟩
    rw [accepts_none, List.append_nil, Function.update_eq_self]

/-- The callback of a read: a frame is complete now, or is not. -/
theorem Kept.onMessage (h : Kept s m) (proper : prog.Proper) (callable : s.world.Callable c true)
    (established : (s.world.life c).established = true) (hsendable : next.Sendable)
    (hbegun : s.delivered c <+: (s.messages c).flatMap Message.frame ++ next.frame) :
    (s.messageCallback prog c).wp build m fun s' m' => Kept s' m' ∧
      (s' = s ∨ Sent (s.received c next (prog.messageCallback s.app next).1) c
        (prog.messageCallback s.app next).2.reply s') := by
  obtain ⟨chain, lost, k, hsound⟩ := h.sound
  obtain ⟨d, hinbox, hdelivered⟩ := h.inbox c callable.1
  rw [hdelivered] at hbegun
  have htake : d = next.frame.take d.length :=
    List.prefix_iff_eq_take.mp ((List.prefix_append_right_inj _).mp hbegun)
  -- an invariant of the input buffer: it never holds more than the frame of `next`
  by_cases hshort : d.length < next.frame.length
  · -- `onMessage` waits for the rest of the frame
    rw [htake] at hinbox
    refine (messageCallback_part hsound hinbox hsendable hshort).imp ?_
    rintro s' m' ⟨rfl, rfl⟩
    exact ⟨h, .inl rfl⟩
  · rw [List.take_of_length_le (Nat.le_of_not_lt hshort)] at htake
    rw [htake] at hinbox
    refine (h.messageCallback hinbox hsendable callable established (proper.reply s.app next hsendable)).imp ?_
    rintro s' m' ⟨hkept, hsent, _⟩
    exact ⟨hkept, .inr hsent⟩

/-- What the step of the connections itself is for the lives. -/
structure Lives (a : Action n) (c : Fin n) (w w' : World n) : Prop where
  others : ∀ e, e ≠ c → w'.life e = w.life e
  connected : (w.life c).log ≠ [] → (w'.life c).status = .kConnected →
    (w.life c).status = .kConnected
  sees : SeesConnected (w.life c) → SeesConnected (w'.life c)
  same : ¬ (a = .resume c ∧ ((w'.life c).pc = .connected ∨ (w'.life c).pc = .notified)) →
    SameCalls (w.life c) (w'.life c)

theorem Kept.lives (h : Kept s m) (still : a.byApplication = false) (enabled : s.world.Enabled m a)
    (done : s.world.exec a build m = .ok (w', m')) (hconn : a.conn = some c) :
    Lives a c s.world w' := by
  obtain ⟨chain, lost, k, hsound⟩ := h.sound
  refine ⟨fun e he => ?_, fun hlog hconnected => ?_, fun hsees => ?_,
    exec_sameCalls (hsound.stage c) hsound.born enabled done⟩
  · refine exec_others done fun he' => he ?_
    exact (Option.some.inj (hconn.symm.trans he')).symm
  · by_contra hnot
    cases exec_lifeStep hsound.born enabled done c with
    | inl hsame => exact hnot (hsame ▸ hconnected)
    | inr hstep =>
      have hborn : (s.world.life c).established = true := by
        cases hsound.stage c with
        | unborn _ hnil => exact absurd hnil hlog
        | connecting hborn => exact hborn
        | opened first ms hborn => exact hborn
        | between first ms hborn => exact hborn
        | ended first ms late hborn => exact hborn
      exact (hstep.not_connected hborn hnot).2 hconnected
  · -- no `close` comes from outside the callbacks
    have hmoves : LifeMoves (fun l => l.pc ≠ .connecting) (fun _ => True) (fun _ => True) s.world w' := by
      refine exec_life (fun d hclose => ?_) (fun _ _ _ _ _ => trivial) (fun _ _ => trivial) hsound.born
        enabled done
      cases hclose with
      | inl ha => subst ha; cases still
      | inr ha => subst ha; cases still
    cases hmoves c with
    | inl hsame => rw [hsame]; exact hsees
    | inr hstep => exact hstep.seesConnected (hsound.stage c) hsees

theorem Lives.quiet (h : Lives a c s.world w')
    (hnot : ¬ (a = .resume c ∧ ((w'.life c).pc = .connected ∨ (w'.life c).pc = .notified))) :
    Stepped prog a c next s (s.advance a w') :=
  ⟨.quiet rfl rfl rfl (h.same hnot), h.others, h.connected, h.sees, rfl⟩

theorem seesConnected_close {l : Life} (h : SeesConnected l) (hpc : l.pc ≠ .connecting) :
    SeesConnected (TCPConn.close l) := by
  unfold TCPConn.close compareExchange
  split
  · exact ⟨fun hconnecting => absurd hconnecting hpc, h.first⟩
  · exact h

theorem Lives.sent {t : Peer n A} {out : Option Message} (h : Lives a c s.world w')
    (hsent : Sent t c out s') (hworld : t.world.life = w'.life) (hpc : (w'.life c).pc ≠ .connecting)
    (turn : Turn prog a c next s s') (arrived : s'.arrived = (s.advance a w').arrived) :
    Stepped prog a c next s s' := by
  obtain ⟨hothers, _, hstatus⟩ := hsent.life
  have hlives := hsent.lives c
  rw [hworld] at hothers hstatus hlives
  refine ⟨turn, fun e he => (hothers e he).trans (h.others e he), fun hlog hconnected =>
    h.connected hlog (hstatus hconnected), fun hsees => ?_, arrived⟩
  cases hlives with
  | inl hsame => rw [hsame]; exact h.sees hsees
  | inr hclosed => rw [hclosed.2]; exact seesConnected_close (h.sees hsees) hpc

section Step

variable (h : Kept s m) (proper : prog.Proper) (still : a.byApplication = false)
  (enabled : s.world.Enabled m a) (done : s.world.exec a build m = .ok (w', m'))
  (hkept : Kept (s.advance a w') m')
include h proper still enabled done hkept

theorem Kept.exec_message {op : ReadOp} (ha : a = .handleRead c op) (hpc : (w'.life c).pc = .message)
    (hnext : a.delivery c ≠ [] → next.Sendable ∧
      s.delivered c ++ a.delivery c <+: (s.messages c).flatMap Message.frame ++ next.frame) :
    ((s.advance a w').messageCallback prog c).wp build m' fun s' m' =>
      Kept s' m' ∧ Stepped prog a c next s s' := by
  subst ha
  obtain ⟨chain, lost, k, hsound⟩ := h.sound
  obtain ⟨chain', lost', k', hsound'⟩ := hkept.sound
  have hlives : Lives _ c s.world w' := h.lives still enabled done rfl
  obtain ⟨d, hd⟩ := exec_handleRead_message enabled.2.2 enabled.2.1 done hpc
  have hdelivery : (Action.handleRead c op).delivery c = d := by simp [Action.delivery, ReadOp.bytes, hd]
  have hne : (Action.handleRead c op).delivery c ≠ [] := by
    rw [hdelivery]
    exact ((hsound.custody.ready c).results op enabled.1 d hd).1
  obtain ⟨hsendable, hbegun⟩ := hnext hne
  have hbusy : (w'.life c).pc ≠ .idle := by simp [hpc]
  have callable : w'.Callable c true := ⟨hsound'.alive hbusy, fun _ => by rw [hpc]; rfl⟩
  have hstage : Stage (w'.life c) := hsound'.stage c
  have hafter : (w'.life c).log ≠ [] := hstage.log_ne_nil (by simp [hpc]) (.inr hbusy)
  have hsame := hlives.same fun hc => (by cases hc.1)
  have hbefore : (s.world.life c).log ≠ [] := fun hnil => hafter (hsame.log.mpr hnil)
  refine (hkept.onMessage proper callable (hstage.established_of_busy hbusy) hsendable hbegun).imp ?_
  rintro s' m' ⟨hkept', hcases⟩
  refine ⟨hkept', ?_⟩
  cases hcases with
  | inl hpart =>
    rw [hpart]
    exact hlives.quiet fun hc => (by cases hc.1)
  | inr hsent =>
    refine hlives.sent hsent rfl (by simp [hpc])
      (.got hne hbefore ?_ hsent.app hsent.messages hsent.sends) hsent.arrived
    have hlog : (s'.world.life c).log = (w'.life c).log := hsent.life.2.1
    exact ⟨by rw [hlog]; exact hsame.log, fun status => by rw [hlog]; exact hsame.calls status⟩

theorem Kept.exec_notify (ha : a = .resume c)
    (hpc : (w'.life c).pc = .connected ∨ (w'.life c).pc = .notified) :
    ((s.advance a w').connectionCallback prog c).wp build m' fun s' m' =>
      Kept s' m' ∧ Stepped prog a c next s s' := by
  subst ha
  obtain ⟨chain, lost, k, hsound⟩ := h.sound
  obtain ⟨chain', lost', k', hsound'⟩ := hkept.sound
  have hlives : Lives _ c s.world w' := h.lives still enabled done rfl
  obtain ⟨hconnected, hnotified⟩ := exec_resume_callback done
  have halive : (w'.life c).pc ≠ .idle → (w'.life c).alive = true := hsound'.alive
  have callable : w'.Callable c true := by
    cases hpc with
    | inl hpc => exact ⟨halive (by simp [hpc]), fun _ => by rw [hpc]; rfl⟩
    | inr hpc => exact ⟨halive (by simp [hpc]), fun _ => by rw [hpc]; rfl⟩
  refine (hkept.connectionCallback proper callable).imp ?_
  rintro s' m' ⟨hkept', hsent, hlife⟩
  have hlife' : s'.world.life = w'.life := hlife
  have hpc' : (w'.life c).pc ≠ .connecting := by
    cases hpc with
    | inl hpc => simp [hpc]
    | inr hpc => simp [hpc]
  refine ⟨hkept', hlives.sent hsent rfl hpc' ?_ hsent.arrived⟩
  cases hpc with
  | inl hpc =>
    obtain ⟨hconnecting, hstep⟩ := hconnected hpc
    have hbefore := (hsound.stage c).log_of_connecting hconnecting
    refine .opened hbefore ?_ ?_ hsent.messages ?_
    · rw [hlife', hstep, notifyConnected, hbefore]
      rfl
    · rw [hlife']
      exact hsent.app
    · rw [hlife']
      exact hsent.sends
  | inr hpc =>
    obtain ⟨hreset, hstep⟩ := hnotified hpc
    have hstatus : (w'.life c).status = .kDisconnecting := by
      rw [hstep]
      rfl
    refine .ending ((hsound.stage c).log_ne_nil (by simp [hreset]) (.inr (by simp [hreset]))) ?_ ?_ ?_
      hsent.messages ?_
    · rw [hlife', hstep]
      rfl
    · rw [hlife', hstatus]
    · rw [← hstatus]
      exact hsent.app
    · -- `send` refuses what the callback of the end would send
      have hnone : ∀ out, s'.accepts c out = [] := fun out => by
        rw [accepts, hlife', hstatus, if_neg (by decide)]
      have hsends := hsent.sends
      rw [hnone, List.append_nil, Function.update_eq_self] at hsends
      exact hsends

end Step

/-- A step for the connection `c`, on which `next` is what the other side sends next. -/
theorem Kept.exec (h : Kept s m) (proper : prog.Proper) (enabled : s.Enabled m (.conn a))
    (whole : s.world.Whole m a) (hconn : a.conn = some c)
    (hnext : a.delivery c ≠ [] → next.Sendable ∧
      s.delivered c ++ a.delivery c <+: (s.messages c).flatMap Message.frame ++ next.frame) :
    (s.exec prog (.conn a)).wlp build m fun s' m' => Kept s' m' ∧ Stepped prog a c next s s' := by
  obtain ⟨still, enabled⟩ := enabled
  obtain ⟨chain, lost, k, hsound⟩ := h.sound
  simp only [Peer.exec, Prog.wlp_bind]
  intro w' m₁ done
  have hkept : Kept (s.advance a w') m₁ := by
    refine h.advance still enabled whole done fun e d hinbox hdelivery => ?_
    obtain ⟨op, rfl⟩ := handleRead_of_delivery hdelivery
    cases hconn
    obtain ⟨hsendable, hbegun⟩ := hnext hdelivery
    obtain ⟨d', hinbox', hdelivered⟩ := h.inbox c (hsound.alive_of_read enabled.1)
    rw [hdelivered, List.append_assoc, ← hinbox'.bytes, hinbox.bytes] at hbegun
    have hlength := ((List.prefix_append_right_inj _).mp hbegun).length_le
    have hframe := (Message.length_frame hsendable).2
    omega
  have hpure : ¬ (a = .resume c ∧ ((w'.life c).pc = .connected ∨ (w'.life c).pc = .notified)) →
      (pure (s.advance a w') : ConnExec (Peer n A)).wlp build m₁ fun s' m' =>
        Kept s' m' ∧ Stepped prog a c next s s' := fun hnot =>
    (Prog.wlp_pure ..).mpr ⟨hkept, (h.lives still enabled done hconn).quiet hnot⟩
  cases a with
  | handleRead e op =>
    cases hconn
    by_cases hpc : (w'.life c).pc = .message
    · rw [callback, if_pos (by exact hpc)]
      exact (h.exec_message proper still enabled done hkept rfl hpc hnext).wlp
    · rw [callback, if_neg (by exact hpc)]
      exact hpure fun hc => (by cases hc.1)
  | resume e =>
    cases hconn
    by_cases hpc : (w'.life c).pc = .connected ∨ (w'.life c).pc = .notified
    · rw [callback, if_pos (by exact hpc)]
      exact (h.exec_notify proper still enabled done hkept rfl hpc).wlp
    · rw [callback, if_neg (by exact hpc)]
      exact hpure fun hc => hpc hc.2
  | _ => exact hpure fun hc => (by cases hc.1)

/-- What a step for `c` may receive is the message behind those it has received, if no more than
    that has been sent. -/
theorem Kept.expects {sent : List Message} (h : Kept s m) (enabled : s.world.Enabled m a)
    (hheard : s.arrived c <+: sent.flatMap Message.frame) (hreceived : s.messages c <+: sent)
    (hlast : ∀ x rest, sent = s.messages c ++ x :: rest → rest = [])
    (hsendable : ∀ x ∈ sent, x.Sendable) :
    ∃ next, a.delivery c ≠ [] → next.Sendable ∧
      s.delivered c ++ a.delivery c <+: (s.messages c).flatMap Message.frame ++ next.frame ∧
      s.messages c ++ [next] <+: sent := by
  have hdelivered := (h.delivered_prefix enabled c).trans hheard
  obtain ⟨rest, rfl⟩ := hreceived
  cases rest with
  | nil =>
    refine ⟨.request {}, fun hne => absurd ?_ hne⟩
    obtain ⟨op, rfl⟩ := handleRead_of_delivery hne
    obtain ⟨chain, lost, k, hsound⟩ := h.sound
    obtain ⟨d, _, hbefore⟩ := h.inbox c (hsound.alive_of_read enabled.1)
    have hlength := hdelivered.length_le
    rw [hbefore, List.append_nil, List.length_append, List.length_append] at hlength
    exact List.length_eq_zero_iff.mp (by omega)
  | cons next rest =>
    obtain rfl : rest = [] := hlast next rest rfl
    refine ⟨next, fun _ => ⟨hsendable next (by simp), ?_, List.prefix_rfl⟩⟩
    rwa [List.flatMap_append, List.flatMap_singleton] at hdelivered

end Peer

end Echo

end Netpp
