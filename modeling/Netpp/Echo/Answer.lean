import Netpp.Echo.Turn

/-! # A message that arrives is answered

`Kept.exec` says what a step does if it returns.  The step that gets a message does return, as
long as the message comes whole into an empty input buffer: nothing fails in the codec, and the
kernel has the answer when it is over.

* `Peer.Waits`: a connection that has answered everything, and waits for more.
* `Kept.answers`: it answers what comes next.
-/

namespace Netpp

open TCPConn
open Function (update)

namespace Echo.Peer

variable {n : Nat} {A : Type} {prog : Program A} {build : Build} {s s' : Peer n A} {m m' : Mem}
  {w' : World n} {c : Fin n} {next reply : Message} {p : Ptr} {op : ReadOp}

/-- What the steps of the connections make of a message that comes whole into an empty input
    buffer. -/
theorem Kept.arrives (h : Kept s m) (enabled : s.world.Enabled m (.handleRead c op))
    (done : s.world.exec (.handleRead c op) build m = .ok (w', m'))
    (hresult : op.result = some (.success next.frame)) (hempty : (s.world.bufs (.input c)).head = none)
    (hsendable : next.Sendable) (halive : (w'.life c).alive = true) :
    Kept (s.advance (.handleRead c op) w') m' ∧ w'.Inbox m' c next.frame := by
  obtain ⟨chain, lost, k, hsound⟩ := h.sound
  have hnil : s.world.chains m (.input c) = [] := by
    rw [hsound.custody.chains_eq]
    exact hsound.custody.nil_of_head hempty
  have hnothing : ∀ d, s.world.Inbox m c d → d = [] := fun d hinbox => by
    rw [← hinbox.bytes, hnil]
    rfl
  have hdelivery : (Action.handleRead c op).delivery c = next.frame := by
    simp [Action.delivery, ReadOp.bytes, hresult]
  have hkept : Kept (s.advance (.handleRead c op) w') m' := by
    refine h.advance rfl enabled trivial done fun e d hinbox hdelivered => ?_
    obtain ⟨op', hop⟩ := handleRead_of_delivery hdelivered
    cases hop
    rw [hnothing d hinbox, hdelivery]
    exact (Message.length_frame hsendable).2.le
  refine ⟨hkept, ?_⟩
  obtain ⟨d, hinbox, hbefore⟩ := h.inbox c (hsound.alive_of_read enabled.1)
  obtain ⟨d', hinbox', hafter⟩ := hkept.inbox c halive
  have hall : s.delivered c ++ next.frame = (s.messages c).flatMap Message.frame ++ d' :=
    hdelivery ▸ hafter
  rw [hbefore, hnothing d hinbox, List.append_nil] at hall
  rwa [List.append_cancel_left hall]

/-- The program has got `next` on `c`, and the kernel has what it answers. -/
structure Answers (s : Peer n A) (c : Fin n) (next reply : Message) (s' : Peer n A) (m' : Mem) :
    Prop where
  messages : s'.messages c = s.messages c ++ [next]
  sends : s'.sends c = s.sends c ++ [reply]
  arrived : s'.arrived = s.arrived
  wire : (s'.world.flow c).wire = (s.world.flow c).wire
  socket : (s'.world.life c).socket = true
  inFlight : s'.world.InFlight m' c reply.frame

/-- A message comes whole, on a connection that is not sending. -/
theorem Kept.answers (h : Kept s m) (proper : prog.Proper) (enabled : s.world.Enabled m (.handleRead c op))
    (hresult : op.result = some (.success next.frame)) (hempty : (s.world.bufs (.input c)).head = none)
    (hsendable : next.Sendable) (hreply : (prog.messageCallback s.app next).2.reply = some reply)
    (connected : (s.world.life c).status = .kConnected) (idle : (s.world.flow c).isSending = false)
    (hnone : (s.world.bufs (.output c)).head = none) :
    (s.exec prog (.conn (.handleRead c op))).wp build m (s.Answers c next reply) := by
  obtain ⟨chain, lost, k, hsound⟩ := h.sound
  have htail : (s.world.bufs (.input c)).tail = none := by
    rw [(hsound.custody.chains.holds (.input c)).rep.tail, hsound.custody.nil_of_head hempty]
    rfl
  obtain ⟨w', m₁, done, inp, hw'⟩ : (s.world.exec (.handleRead c op)).wp build m _ :=
    hsound.custody.handleRead_first enabled.1 hresult htail
  have hlife : w'.life c =
      { s.world.life c with log := (s.world.life c).log ++ [.message], pc := .message } := by
    rw [hw']
    exact Function.update_self ..
  have hflow : w'.flow c = { s.world.flow c with reads := (s.world.flow c).reads.erase op } := by
    rw [hw']
    exact Function.update_self ..
  have hout : w'.bufs (.output c) = s.world.bufs (.output c) := by
    rw [hw']
    show update s.world.bufs (.input c) inp (.output c) = _
    rw [Function.update_of_ne (by simp)]
  have hpc : (w'.life c).pc = .message := congrArg Life.pc hlife
  have hbusy : (w'.life c).pc ≠ .idle := by simp [hpc]
  have halive : (w'.life c).alive = true := by
    rw [hlife]
    exact hsound.alive_of_read enabled.1
  obtain ⟨hkept, hinbox⟩ := h.arrives enabled done hresult hempty hsendable halive
  obtain ⟨chain', lost', k', hsound'⟩ := hkept.sound
  have hestablished : (w'.life c).established = true := (hsound'.stage c).established_of_busy hbusy
  have callable : w'.Callable c true := ⟨halive, fun _ => by rw [hpc]; rfl⟩
  rw [Peer.exec, Prog.wp_bind, Prog.wp_of_eq_ok done, callback, if_pos (by exact hpc)]
  refine (hkept.messageCallback hinbox hsendable callable hestablished
    (proper.reply s.app next hsendable)).imp ?_
  rintro s' m' ⟨_, hsent, htransmits⟩
  have happ : (prog.messageCallback (s.advance (.handleRead c op) w').app next).2.reply = some reply :=
    hreply
  rw [happ] at hsent htransmits
  have hsame : s'.world.life = w'.life := htransmits.life reply rfl
  have hwire : (s'.world.flow c).wire = (w'.flow c).wire := htransmits.wire
  constructor
  · rw [hsent.messages]
    exact Function.update_self ..
  · rw [hsent.sends, Function.update_self, accepts, hsame, hlife, if_pos connected]
    rfl
  · rw [hsent.arrived]
    exact funext fun e => List.append_nil _
  · rw [hwire, hflow]
  · rw [hsame, hlife]
    exact (hsound.stage c).socket_of_connected connected
  · apply htransmits.inFlight reply rfl
    · exact (congrArg Life.status hlife).trans connected
    · exact (congrArg Flow.isSending hflow).trans idle
    · show (w'.bufs (.output c)).head = none
      rw [hout]
      exact hnone

/-- The connection is established and idle, with a read into the piece `p` under way, and there is
    nothing in its buffers. -/
structure Waits (s : Peer n A) (c : Fin n) (p : Ptr) : Prop where
  read : ⟨p, none⟩ ∈ (s.world.flow c).reads
  idle : (s.world.life c).pc = .idle
  connected : (s.world.life c).status = .kConnected
  input : (s.world.bufs (.input c)).head = none
  output : (s.world.bufs (.output c)).head = none
  sending : (s.world.flow c).isSending = false

/-- The kernel has filled the piece of a read. -/
def filled (s : Peer n A) (c : Fin n) (p : Ptr) (d : Bytes) : Peer n A :=
  s.advance (.readDone c ⟨p, none⟩ (.success d))
    (s.world.setFlow c (World.finishRead (s.world.flow c) ⟨p, none⟩ (.success d)))

theorem Waits.readDone (build : Build) (prog : Program A) (h : s.Waits c p)
    (hkept : Kept s m) (hsendable : next.Sendable) :
    s.Enabled m (.conn (.readDone c ⟨p, none⟩ (.success next.frame))) ∧
    s.exec prog (.conn (.readDone c ⟨p, none⟩ (.success next.frame))) build m =
      .ok (s.filled c p next.frame, m) ∧
    Kept (s.filled c p next.frame) m := by
  obtain ⟨chain, lost, k, hsound⟩ := hkept.sound
  obtain ⟨hpos, hfit⟩ := Message.length_frame hsendable
  have enabled : s.world.Enabled m (.readDone c ⟨p, none⟩ (.success next.frame)) :=
    ⟨h.read, rfl, (hsound.stage c).socket_of_connected h.connected, List.ne_nil_of_length_pos hpos,
      hfit.le⟩
  have done : s.world.exec (.readDone c ⟨p, none⟩ (.success next.frame)) build m =
      .ok (s.world.setFlow c (World.finishRead (s.world.flow c) ⟨p, none⟩ (.success next.frame)), m) := rfl
  exact ⟨⟨rfl, enabled⟩, rfl, hkept.advance rfl enabled trivial done fun _ _ _ hne => absurd rfl hne⟩

theorem filled_flow (s : Peer n A) (c : Fin n) (p : Ptr) (d : Bytes) :
    (s.filled c p d).world.flow c = World.finishRead (s.world.flow c) ⟨p, none⟩ (.success d) :=
  Function.update_self ..

/-- The handler of that read. -/
theorem Waits.answers (build : Build) (h : s.Waits c p) (hkept : Kept (s.filled c p next.frame) m)
    (proper : prog.Proper) (hsendable : next.Sendable)
    (hreply : (prog.messageCallback s.app next).2.reply = some reply) :
    (s.filled c p next.frame).Enabled m (.conn (.handleRead c ⟨p, some (.success next.frame)⟩)) ∧
    ((s.filled c p next.frame).exec prog (.conn (.handleRead c ⟨p, some (.success next.frame)⟩))).wp
      build m ((s.filled c p next.frame).Answers c next reply) := by
  have hflow := s.filled_flow c p next.frame
  have enabled : (s.filled c p next.frame).world.Enabled m
      (.handleRead c ⟨p, some (.success next.frame)⟩) := by
    refine ⟨?_, by simp, h.idle⟩
    rw [hflow]
    simp [World.finishRead]
  exact ⟨⟨rfl, enabled⟩, hkept.answers proper enabled rfl h.input hsendable hreply h.connected
    ((congrArg Flow.isSending hflow).trans h.sending) h.output⟩

end Echo.Peer

end Netpp
