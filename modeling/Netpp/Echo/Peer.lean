import Netpp.Echo.Codec
import Netpp.Protobuf.Inbox

/-! # A program that talks through the codec

`echo_server.cpp` and `echo_client.cpp` are built alike: connections whose `message_cb_` is
`ProtobufCodec::onMessage`, a dispatcher behind the codec, and one loop thread that runs
everything.  `Program` is what is their own, and `Peer` one of them with its connections.

* `Peer.exec`: a step of the connections, with the callback it leads to.
* `Peer.Kept`: every byte of a connection belongs to a message.
* `Kept.send`, `Kept.messageCallback`: what the codec and the program do keeps that.
-/

namespace Netpp

open TCPConn
open Function (update)

def Action.byApplication {n : Nat} : Action n → Bool
  | buffer _ | sendData _ _ _ | sendBuffer _ _ _ | close _ | closeWithDelay _ => true
  | _ => false

namespace Echo

/-- What a message callback does with the connection. -/
inductive Reaction where
  | send (message : Message)
  | close

def Reaction.reply : Reaction → Option Message
  | send message => some message
  | close => none

structure Program (A : Type) where
  connectionCallback : A → StateE → A × Option Message
  messageCallback : A → Message → A × Reaction
  showInfo : A → A

structure Peer (n : Nat) (A : Type) where
  world : World n := {}
  app : A
  -- history: bytes that have come in and have reached `handleRead`, and calls of the codec
  arrived : Fin n → Bytes := fun _ => []
  delivered : Fin n → Bytes := fun _ => []
  messages : Fin n → List Message := fun _ => []
  errors : Fin n → List ErrorCode := fun _ => []
  sends : Fin n → List Message := fun _ => []

inductive PeerAction (n : Nat) where
  | conn (a : Action n)
  | showInfo

namespace Peer

variable {n : Nat} {A : Type}

/-! ## Callbacks -/

/-- `codec_.send(conn, message)` -/
def send (s : Peer n A) (c : Fin n) (message : Message) : ConnExec (Peer n A) := do
  let buf ← onPieces (ProtobufCodec.fillEmptyBuffer echo {} message)
  -- `send` returns, and `~Buffer` gives the pieces back
  if (s.world.life c).status ≠ .kConnected ∨ buf.length = 0 then do
    let _ ← onPieces buf.clear
    pure s
  else do
    let w ← s.world.submit c buf true
    pure { s with world := w, sends := update s.sends c (s.sends c ++ [message]) }

/-- `conn->close()` -/
def close (s : Peer n A) (c : Fin n) : Peer n A :=
  { s with world := s.world.setLife c (TCPConn.close (s.world.life c)) }

def react (s : Peer n A) (c : Fin n) : Reaction → ConnExec (Peer n A)
  | .send message => s.send c message
  | .close => pure (s.close c)

/-- `messageCallback_` of the codec -/
def onProtobufMessage (prog : Program A) (c : Fin n) (message : Message) (s : Peer n A) :
    ConnExec (Peer n A) :=
  let r := prog.messageCallback s.app message
  { s with app := r.1, messages := update s.messages c (s.messages c ++ [message]) }.react c r.2

/-- `ProtobufCodec::defaultErrorCallback` -/
def defaultErrorCallback (c : Fin n) (error : ErrorCode) (s : Peer n A) : ConnExec (Peer n A) :=
  let s := { s with errors := update s.errors c (s.errors c ++ [error]) }
  pure (if (s.world.life c).status = .kConnected then s.close c else s)

/-- `message_cb_`, which is `codec_.onMessage`.  The codec has the input buffer while it runs;
    no callback reaches it. -/
def messageCallback (prog : Program A) (s : Peer n A) (c : Fin n) : ConnExec (Peer n A) := do
  let buf := s.world.bufs (.input c)
  let r ← @ProtobufCodec.onMessageWith echo _ (onProtobufMessage prog c) (defaultErrorCallback c)
    (buf.length + 1) buf { s with world := s.world.setBuf (.input c) {} }
  pure { r.1 with world := r.1.world.setBuf (.input c) r.2 }

def connectionCallback (prog : Program A) (s : Peer n A) (c : Fin n) : ConnExec (Peer n A) :=
  let r := prog.connectionCallback s.app (s.world.life c).status
  match r.2 with
  | some message => { s with app := r.1 }.send c message
  | none => pure { s with app := r.1 }

/-- The callback a step has come to. -/
def callback (prog : Program A) (s : Peer n A) : Action n → ConnExec (Peer n A)
  | .handleRead c _ => if (s.world.life c).pc = .message then s.messageCallback prog c else pure s
  | .resume c =>
    if (s.world.life c).pc = .connected ∨ (s.world.life c).pc = .notified then
      s.connectionCallback prog c
    else pure s
  | _ => pure s

/-! ## Steps -/

def Enabled (s : Peer n A) (m : Mem) : PeerAction n → Prop
  | .conn a => a.byApplication = false ∧ s.world.Enabled m a
  | .showInfo => True

/-- What has come in after a step of the connections to `w`. -/
def advance (s : Peer n A) (a : Action n) (w : World n) : Peer n A :=
  { s with
    world := w
    arrived := fun d => s.arrived d ++ a.arrival d
    delivered := fun d => s.delivered d ++ a.delivery d }

def exec (prog : Program A) (s : Peer n A) : PeerAction n → ConnExec (Peer n A)
  | .conn a => do
    let w ← s.world.exec a
    (s.advance a w).callback prog a
  | .showInfo => pure { s with app := prog.showInfo s.app }

/-! ## The invariant -/

/-- Every byte that came in belongs to a message that was received or is in the input buffer,
    and every byte that goes out belongs to a message that was sent. -/
structure Kept (s : Peer n A) (m : Mem) : Prop where
  sound : ∃ chain lost k, s.world.Sound m chain lost k
  submitted : ∀ c, (s.world.flow c).submitted = (s.sends c).flatMap Message.frame
  arrived : ∀ c, s.arrived c = s.delivered c ++ (s.world.flow c).pending
  inbox : ∀ c, (s.world.life c).alive = true → ∃ d, s.world.Inbox m c d ∧
    s.delivered c = (s.messages c).flatMap Message.frame ++ d
  fresh : ∀ c, (s.world.life c).established = false → s.messages c = [] ∧ s.sends c = []
  errors : ∀ c, s.errors c = []

theorem Kept.initial (app : A) (cell : Ptr → Piece) :
    Kept ({ app := app } : Peer n A) { cell := cell } :=
  ⟨⟨_, _, _, World.Sound.initial cell⟩, fun _ => rfl, fun _ => rfl,
    fun c _ => ⟨[], World.Inbox.initial _ c, rfl⟩, fun _ _ => ⟨rfl, rfl⟩, fun _ => rfl⟩

/-- What has been transmitted is the beginning of the messages that were sent. -/
theorem Kept.wire {s : Peer n A} {m : Mem} (h : Kept s m) (c : Fin n) :
    (s.world.flow c).wire <+: (s.sends c).flatMap Message.frame := by
  obtain ⟨chain, lost, k, hsound⟩ := h.sound
  rw [← h.submitted]
  exact hsound.wire c

theorem Kept.wire_one {s : Peer n A} {m : Mem} {c : Fin n} {message : Message} (h : Kept s m)
    (hsends : s.sends c = [message]) (hlength : (s.world.flow c).wire.length = message.frame.length) :
    (s.world.flow c).wire = message.frame := by
  have hwire := h.wire c
  rw [hsends, List.flatMap_singleton] at hwire
  exact hwire.eq_of_length hlength

section Callbacks

variable {build : Build} {s s' : Peer n A} {m m' : Mem} {w' : World n} {chain : BufferId n → List Ptr}
  {lost : List Ptr} {k : Nat} {c : Fin n} {prog : Program A} {next : Message}

theorem Kept.sent (h : Kept s m) (hsound : s.world.Sound m chain lost k)
    (hsound' : ∃ chain' lost' k', w'.Sound m' chain' lost' k')
    (birth : ∀ e, SameBirth (s.world.life e) (w'.life e))
    (reads : ∀ e, (w'.flow e).reads = (s.world.flow e).reads)
    (inputs : ∀ e, World.Leaves s.world m chain (.input e) w' m') (sends : Fin n → List Message)
    (submitted : ∀ e, (w'.flow e).submitted = (sends e).flatMap Message.frame)
    (fresh : ∀ e, (s.world.life e).established = false → sends e = []) :
    Kept { s with world := w', sends := sends } m' := by
  refine ⟨hsound', submitted, fun e => ?_, fun e halive => ?_, fun e hnew => ?_, h.errors⟩
  · show s.arrived e = s.delivered e ++ (w'.flow e).pending
    rw [Flow.pending, reads e]
    exact h.arrived e
  · obtain ⟨chain', lost', k', hafter⟩ := hsound'
    obtain ⟨d, hinbox, hdelivered⟩ := h.inbox e ((birth e).1 ▸ halive)
    exact ⟨d, hinbox.same hsound.custody hafter.custody (inputs e), hdelivered⟩
  · have hold : (s.world.life e).established = false := (birth e).2 ▸ hnew
    exact ⟨(h.fresh e hold).1, fresh e hold⟩

/-- What a connection accepts of what it is to send. -/
def accepts (s : Peer n A) (c : Fin n) (out : Option Message) : List Message :=
  if (s.world.life c).status = .kConnected then out.toList else []

theorem accepts_none (s : Peer n A) (c : Fin n) : s.accepts c none = [] := by
  unfold accepts
  split <;> rfl

/-- A callback has sent something, or has closed the connection, and has done nothing else. -/
structure Sent (s : Peer n A) (c : Fin n) (out : Option Message) (s' : Peer n A) : Prop where
  same : s' = { s with
    world := s'.world
    sends := update s.sends c (s.sends c ++ s'.accepts c out) }
  lives : ∀ e, s'.world.life e = s.world.life e ∨
    e = c ∧ s'.world.life e = TCPConn.close (s.world.life e)

theorem Sent.app {out : Option Message} (h : Sent s c out s') : s'.app = s.app := by
  rw [h.same]

theorem Sent.arrived {out : Option Message} (h : Sent s c out s') : s'.arrived = s.arrived := by
  rw [h.same]

theorem Sent.messages {out : Option Message} (h : Sent s c out s') : s'.messages = s.messages := by
  rw [h.same]

theorem Sent.sends {out : Option Message} (h : Sent s c out s') :
    s'.sends = update s.sends c (s.sends c ++ s'.accepts c out) :=
  congrArg Peer.sends h.same

/-- A callback has transmitted nothing itself, and if the connection had nothing else to send, the
    kernel has its message now. -/
structure Transmits (s : Peer n A) (c : Fin n) (out : Option Message) (s' : Peer n A) (m' : Mem) :
    Prop where
  wire : (s'.world.flow c).wire = (s.world.flow c).wire
  life : ∀ message ∈ out, s'.world.life = s.world.life
  inFlight : ∀ message ∈ out, (s.world.life c).status = .kConnected →
    (s.world.flow c).isSending = false → (s.world.bufs (.output c)).head = none →
    s'.world.InFlight m' c message.frame

def SameInputs (s s' : Peer n A) : Prop := ∀ e, s'.world.bufs (.input e) = s.world.bufs (.input e)

theorem Kept.send {message : Message} (h : Kept s m) (hsendable : message.Sendable)
    (callable : s.world.Callable c true) :
    (s.send c message).wp build m fun s' m' => Kept s' m' ∧ Sent s c (some message) s' ∧
      s'.world.life = s.world.life ∧ SameInputs s s' ∧ Transmits s c (some message) s' m' := by
  obtain ⟨chain, lost, k, hsound⟩ := h.sound
  have hnothing : s.world.Sound m chain ([] ++ lost) k := hsound
  obtain ⟨rest, howns, hput⟩ := hnothing.frame
  simp only [Peer.send, onPieces, Prog.wp_bind, Prog.wp_mapFault]
  refine (fillEmptyBuffer_echo hsendable howns).imp ?_
  rintro buf m₁ ⟨p, hbuf, howns₁, hsame₁, hcontent⟩
  obtain ⟨hsound₁, hchains₁⟩ := hput m₁ [p] k howns₁ hsame₁
  have hpos := (Message.length_frame hsendable).1
  have hlength : buf.length ≠ 0 := by
    rw [hbuf.length, hcontent]
    omega
  split
  · -- the connection is closed, and the local buffer destroyed
    rename_i hrefused
    have hclosed : (s.world.life c).status ≠ .kConnected := hrefused.resolve_right hlength
    simp only [Prog.wp_bind, Prog.wp_mapFault, Prog.wp_pure]
    obtain ⟨rest₁, howns₁', hput₁⟩ := hsound₁.frame
    refine (Buffer.clear_spec hbuf.holds howns₁' (by simp)).imp ?_
    rintro _ m₂ ⟨_, howns₂, hsame₂⟩
    obtain ⟨hsound₂, hchains₂⟩ := hput₁ m₂ [] _ howns₂ hsame₂
    have hnone : update s.sends c (s.sends c ++ s.accepts c (some message)) = s.sends := by
      rw [accepts, if_neg hclosed, List.append_nil, Function.update_eq_self]
    have hkept := h.sent hsound ⟨_, _, _, hsound₂⟩ (fun _ => ⟨rfl, rfl⟩) (fun _ => rfl)
      (fun e => ⟨rfl, (hchains₁ _).trans (hchains₂ _)⟩) s.sends h.submitted fun e hnew => (h.fresh e hnew).2
    refine ⟨hkept, ⟨?_, fun _ => .inl rfl⟩, trivial, fun _ => rfl, rfl, fun _ _ => rfl, ?_⟩
    · rw [hnone]
    · exact fun _ _ hconnected => absurd hconnected hclosed
  · rename_i haccepted
    have hconnected : (s.world.life c).status = .kConnected := not_not.mp (not_or.mp haccepted).1
    have hbytes : content m₁ [p] = (m₁.cell p).bytes := by simp
    have hlen : 0 < (m₁.cell p).len := by
      rw [← length_bytes, ← hbytes, hcontent]
      exact hpos
    simp only [Prog.wp_bind, Prog.wp_pure]
    refine ((hsound₁.submit_returns hbuf.holds hlen hconnected).and_wlp
      (hsound₁.submit hbuf.holds hconnected callable)).imp ?_
    rintro w' m' ⟨⟨hwire, hinFlight⟩, hsubmits⟩
    have hestablished := (hsound.stage c).established_of_connected hconnected
    rw [← hbytes, hcontent] at hinFlight
    refine ⟨?_, ⟨?_, fun e => .inl (by rw [hsubmits.life])⟩, hsubmits.life,
      fun e => (hsubmits.inputs e).buf, hwire, fun _ _ => hsubmits.life, ?_⟩
    · apply h.sent hsound hsubmits.sound
      · intro e
        rw [hsubmits.life]
        exact ⟨rfl, rfl⟩
      · exact hsubmits.reads
      · exact fun e => ⟨(hsubmits.inputs e).buf, (hchains₁ _).trans (hsubmits.inputs e).same⟩
      · intro e
        by_cases he : e = c
        · subst he
          rw [hsubmits.submitted, hcontent, h.submitted, Function.update_self, List.flatMap_append,
            List.flatMap_cons, List.flatMap_nil, List.append_nil]
        · rw [hsubmits.others e he, h.submitted, Function.update_of_ne he]
      · intro e hnew
        have he : e ≠ c := fun he => by
          rw [he, hestablished] at hnew
          cases hnew
        rw [Function.update_of_ne he]
        exact (h.fresh e hnew).2
    · rw [accepts, hsubmits.life, if_pos hconnected]
      rfl
    · rintro _ ⟨⟩ _ hidle hnone
      exact hinFlight hidle hnone

theorem Kept.close (h : Kept s m) (halive : (s.world.life c).alive = true) : Kept (s.close c) m := by
  obtain ⟨chain, lost, k, hsound⟩ := h.sound
  have enabled : s.world.Enabled m (.close c) := ⟨halive, fun h => (by cases h)⟩
  have done : s.world.exec (.close c) .release m = .ok ((s.close c).world, m) := rfl
  apply h.sent hsound (hsound.exec rfl enabled trivial done)
  · intro e
    show SameBirth _ (update s.world.life c (TCPConn.close (s.world.life c)) e)
    by_cases he : e = c
    · rw [he, Function.update_self]
      exact (compareExchange_birth _ _).2
    · rw [Function.update_of_ne he]
      exact ⟨rfl, rfl⟩
  · exact fun _ => rfl
  · exact fun e => ⟨rfl, SameOn.refl _ _⟩
  · exact h.submitted
  · exact fun e hnew => (h.fresh e hnew).2

theorem Kept.react {reaction : Reaction} (h : Kept s m) (callable : s.world.Callable c true)
    (hsendable : ∀ message ∈ reaction.reply, message.Sendable) :
    (s.react c reaction).wp build m fun s' m' => Kept s' m' ∧ Sent s c reaction.reply s' ∧
      SameInputs s s' ∧ Transmits s c reaction.reply s' m' := by
  cases reaction with
  | send message =>
    refine (h.send (hsendable message rfl) callable).imp ?_
    rintro s' m' ⟨hkept, hsent, _, hinputs, htransmits⟩
    exact ⟨hkept, hsent, hinputs, htransmits⟩
  | close =>
    refine (Prog.wp_pure ..).mpr ⟨h.close callable.1, ⟨?_, fun e => ?_⟩, fun _ => rfl, rfl, ?_, ?_⟩
    · rw [Reaction.reply, accepts_none, List.append_nil, Function.update_eq_self]
      rfl
    · by_cases he : e = c
      · subst he
        exact .inr ⟨rfl, Function.update_self ..⟩
      · exact .inl (Function.update_of_ne he _ _)
    · rintro _ ⟨⟩
    · rintro _ ⟨⟩

/-! ## `message_cb_` -/

/-- `onMessage` does nothing with a part of a frame. -/
theorem messageCallback_part {j : Nat} (hsound : s.world.Sound m chain lost k)
    (hinbox : s.world.Inbox m c (next.frame.take j)) (hsendable : next.Sendable)
    (hj : j < next.frame.length) :
    (s.messageCallback prog c).wp build m fun s' m' => s' = s ∧ m' = m := by
  obtain ⟨hbytes, hlength, hsolid, hheader⟩ := hinbox
  rw [hsound.custody.chains_eq] at hbytes hsolid hheader
  have hrep : (s.world.bufs (.input c)).Rep m (chain (.input c)) :=
    ⟨hsound.custody.chains.holds _, by rw [hlength, hbytes]⟩
  obtain ⟨rest, howns, _⟩ := (hsound.detach c).frame
  have hpending : ProtobufCodec.Pending m (s.world.bufs (.input c)) (chain (.input c)) rest k
      (next.frame.take j) := ⟨hrep, howns, hsolid, hbytes⟩
  simp only [messageCallback, Prog.wp_bind, Prog.wp_pure]
  refine (ProtobufCodec.onMessageWith_part (Message.isFrame_echo hsendable) hj hpending hheader).imp ?_
  rintro r m' ⟨rfl, rfl⟩
  refine ⟨?_, rfl⟩
  simp only [World.setBuf, Function.update_idem, Function.update_eq_self]

/-- The program once the codec has taken a message out of the input buffer. -/
def received (s : Peer n A) (c : Fin n) (message : Message) (app : A) : Peer n A :=
  { s with
    world := s.world.setBuf (.input c) {}
    app := app
    messages := update s.messages c (s.messages c ++ [message]) }

theorem Kept.received {app : A} (h : Kept s m) (hsound : s.world.Sound m chain lost k)
    (hsound' : (s.world.setBuf (.input c) {}).Sound m' (update chain (.input c) []) lost k)
    (hchains : ∀ i, SameOn (update chain (.input c) [] i) m m')
    (established : (s.world.life c).established = true)
    (hdelivered : s.delivered c = (s.messages c).flatMap Message.frame ++ next.frame) :
    Kept (s.received c next app) m' := by
  have hothers : ∀ e, e ≠ c → (BufferId.input e : BufferId n) ≠ .input c := fun e he hc =>
    he (BufferId.input.inj hc)
  refine ⟨⟨_, _, _, hsound'⟩, h.submitted, h.arrived, fun e halive => ?_, fun e hnew => ?_, h.errors⟩
  · by_cases he : e = c
    · subst he
      refine ⟨[], ?_, ?_⟩
      · have hnil : (s.world.setBuf (.input e) {}).chains m' (.input e) = [] := by
          rw [hsound'.custody.chains_eq, Function.update_self]
        have hbuf : (s.world.setBuf (.input e) {}).bufs (.input e) = {} := Function.update_self ..
        exact .of_empty hnil (congrArg Buffer.length hbuf)
      · show s.delivered e = (update s.messages e (s.messages e ++ [next]) e).flatMap Message.frame ++ []
        rw [Function.update_self, List.flatMap_append, List.flatMap_cons, List.flatMap_nil,
          List.append_nil, List.append_nil]
        exact hdelivered
    · obtain ⟨d, hd, hdelivered⟩ := h.inbox e halive
      refine ⟨d, hd.same hsound.custody hsound'.custody ⟨?_, ?_⟩, ?_⟩
      · exact Function.update_of_ne (hothers e he) _ _
      · have hsame := hchains (.input e)
        rwa [Function.update_of_ne (hothers e he)] at hsame
      · show s.delivered e = (update s.messages c (s.messages c ++ [next]) e).flatMap Message.frame ++ d
        rw [Function.update_of_ne he]
        exact hdelivered
  · have he : e ≠ c := fun he => by
      rw [he] at hnew
      exact absurd (established.symm.trans hnew) (by decide)
    show update s.messages c (s.messages c ++ [next]) e = [] ∧ _
    rw [Function.update_of_ne he]
    exact h.fresh e hnew

/-- `onMessage` on a frame: one message, and what the program does with it. -/
theorem Kept.messageCallback (h : Kept s m) (hinbox : s.world.Inbox m c next.frame)
    (hsendable : next.Sendable) (callable : s.world.Callable c true)
    (established : (s.world.life c).established = true)
    (hreply : ∀ message ∈ (prog.messageCallback s.app next).2.reply, message.Sendable) :
    (s.messageCallback prog c).wp build m fun s' m' => Kept s' m' ∧
      Sent (s.received c next (prog.messageCallback s.app next).1) c
        (prog.messageCallback s.app next).2.reply s' ∧
      Transmits s c (prog.messageCallback s.app next).2.reply s' m' := by
  obtain ⟨chain, lost, k, hsound⟩ := h.sound
  have hdelivered : s.delivered c = (s.messages c).flatMap Message.frame ++ next.frame := by
    obtain ⟨d, hd, hdelivered⟩ := h.inbox c callable.1
    rw [hdelivered, ← hd.bytes, hinbox.bytes]
  obtain ⟨hbytes, hlength, hsolid, hheader⟩ := hinbox
  rw [hsound.custody.chains_eq] at hbytes hsolid hheader
  have hrep : (s.world.bufs (.input c)).Rep m (chain (.input c)) :=
    ⟨hsound.custody.chains.holds _, by rw [hlength, hbytes]⟩
  -- the codec works on the pieces of the input buffer alone
  obtain ⟨rest, howns, hput⟩ := (hsound.detach c).frame
  have hpending : ProtobufCodec.Pending m (s.world.bufs (.input c)) (chain (.input c)) rest k
      next.frame := ⟨hrep, howns, hsolid, hbytes⟩
  simp only [Peer.messageCallback, Prog.wp_bind, Prog.wp_pure]
  refine onMessage_echo hsendable hpending hheader ?_
  intro b₁ m₁ hb₁ howns₁ hsame₁
  obtain ⟨hsound₁, hchains₁⟩ := hput m₁ [] k howns₁ hsame₁
  have hkept : Kept (s.received c next (prog.messageCallback s.app next).1) m₁ :=
    h.received hsound hsound₁ hchains₁ established hdelivered
  refine (hkept.react callable hreply).imp ?_
  rintro s' m' ⟨hkept', hsent, hinputs, htransmits⟩
  have hinput : s'.world.setBuf (.input c) b₁ = s'.world := by
    have hbuf : s'.world.bufs (.input c) = {} := (hinputs c).trans (Function.update_self ..)
    rw [World.setBuf, hb₁.eq_empty, ← hbuf, Function.update_eq_self]
  have houtput : (s.received c next (prog.messageCallback s.app next).1).world.bufs (.output c) =
      s.world.bufs (.output c) := by
    show update s.world.bufs (.input c) {} (.output c) = _
    rw [Function.update_of_ne (by simp)]
  rw [hinput]
  refine ⟨hkept', hsent, htransmits.wire, htransmits.life, ?_⟩
  rw [← houtput]
  exact htransmits.inFlight

end Callbacks

end Peer

end Echo

end Netpp
