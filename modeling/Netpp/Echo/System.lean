import Netpp.Echo.Answer
import Netpp.Lib.Dialogue
import Netpp.Lib.Machine
import Netpp.Protobuf.Dispatcher

/-! # The echo server and its clients

The programs of `echo_server.cpp` and `echo_client.cpp`, and the two of them at the ends of
`n` connections.

* `EchoServer.program`, `EchoClient.program`: their callbacks, through their dispatchers.
* `System`: both peers, each with its own memory and loop thread.
* `Exchange`: what the two ends of a connection have said to each other.
* `echoes`: on each connection the responses are those to the requests, in order.
* `serves`, `hears`: an end that waits can answer what the network has for it.
-/

namespace Netpp

open TCPConn
open Function (update)

namespace Echo

/-- A dispatcher whose callbacks change the program and do something with the connection. -/
abbrev Dispatcher (A : Type) : Type :=
  ProtobufDispatcher MessageType (fun _ => Fields) (A → A × Reaction)

/-- `dispatcher_.onProtobufMessage(conn, message)` -/
def dispatch {A : Type} (dispatcher : Dispatcher A) (hsound : dispatcher.Sound) (s : A)
    (message : Message) : A × Reaction :=
  (dispatcher.onProtobufMessage ⟨message.type, message.fields⟩).get (hsound.onProtobufMessage _) s

theorem dispatch_registered {A : Type} {s : Dispatcher A}
    (before : List (CallbackT MessageType (fun _ => Fields) (A → A × Reaction))) (type : MessageType)
    (callback : Fields → A → A × Reaction) (hsound : (s.register (before ++ [⟨type, callback⟩])).Sound)
    (app : A) (fields : Fields) :
    dispatch (s.register (before ++ [⟨type, callback⟩])) hsound app ⟨type, fields⟩ =
      callback fields app := by
  have hregistered : (s.register (before ++ [⟨type, callback⟩])).onProtobufMessage ⟨type, fields⟩ =
      some (callback fields) :=
    ProtobufDispatcher.onProtobufMessage_registered before callback (fun _ h => by cases h) fields
  exact congrFun (Option.get_of_eq_some _ hregistered) app

theorem dispatch_default {A : Type} {s : Dispatcher A}
    {registrations : List (CallbackT MessageType (fun _ => Fields) (A → A × Reaction))}
    (type : MessageType) (hnew : s.callbacks type = none) (hother : ∀ r ∈ registrations, r.1 ≠ type)
    (hsound : (s.register registrations).Sound) (app : A) (fields : Fields) :
    dispatch (s.register registrations) hsound app ⟨type, fields⟩ =
      s.defaultCallback ⟨type, fields⟩ app :=
  congrFun (Option.get_of_eq_some _ (ProtobufDispatcher.onProtobufMessage_default hnew hother fields)) app

theorem Message.request_or_response (message : Message) :
    ∃ fields, message = .request fields ∨ message = .response fields := by
  obtain ⟨type, fields⟩ := message
  cases type with
  | request => exact ⟨fields, .inl rfl⟩
  | response => exact ⟨fields, .inr rfl⟩

/-! ## The server -/

structure EchoServer where
  connectionCnt : Int32 := 0
  lastSecondRecvCnt : Int64 := 0
  totalRecvCnt : Int64 := 0
  deriving DecidableEq, Repr

namespace EchoServer

def onConnectionCallback (s : EchoServer) (status : StateE) : EchoServer :=
  if status = .kConnected then { s with connectionCnt := s.connectionCnt + 1 }
  else if status = .kDisconnecting then { s with connectionCnt := s.connectionCnt - 1 }
  else s

def onUnknownMessage (s : EchoServer) : EchoServer × Reaction := (s, .close)

def onRequest (message : Request) (s : EchoServer) : EchoServer × Reaction :=
  ({ s with
      lastSecondRecvCnt := s.lastSecondRecvCnt + 1
      totalRecvCnt := s.totalRecvCnt + 1 },
    .send (.response { id := message.id, text := Request.ask message }))

def showInfo (s : EchoServer) : EchoServer := { s with lastSecondRecvCnt := 0 }

def dispatcher : Dispatcher EchoServer :=
  ProtobufDispatcher.register { defaultCallback := fun _ => onUnknownMessage } [⟨.request, onRequest⟩]

theorem sound_dispatcher : dispatcher.Sound :=
  ProtobufDispatcher.Sound.register (fun _ _ h => by cases h) _

def program : Program EchoServer where
  connectionCallback s status := (s.onConnectionCallback status, none)
  messageCallback := dispatch dispatcher sound_dispatcher
  showInfo := showInfo

theorem messageCallback_request (s : EchoServer) (message : Request) :
    program.messageCallback s (.request message) = onRequest message s := by
  exact dispatch_registered [] .request onRequest sound_dispatcher s message

theorem messageCallback_response (s : EchoServer) (message : Response) :
    program.messageCallback s (.response message) = onUnknownMessage s :=
  dispatch_default .response rfl (by simp) sound_dispatcher s message

theorem proper : program.Proper := by
  constructor
  · intro app status message hmessage
    cases hmessage
  · intro app next hsendable message hmessage
    obtain ⟨fields, rfl | rfl⟩ := next.request_or_response
    · rw [messageCallback_request] at hmessage
      cases hmessage
      exact hsendable
    · rw [messageCallback_response] at hmessage
      cases hmessage

end EchoServer

/-! ## The client -/

structure EchoClient where
  requestId : UInt64 := 0
  connectionCnt : Int32 := 0
  lastSecondRecvCnt : Int64 := 0
  totalRecvCnt : Int64 := 0
  deriving DecidableEq, Repr

namespace EchoClient

def fixData : Bytes := List.replicate 1024 97

def onConnectionCallback (s : EchoClient) (status : StateE) : EchoClient × Option Message :=
  if status = .kConnected then
    ({ s with connectionCnt := s.connectionCnt + 1, requestId := s.requestId + 1 },
      some (.request { id := s.requestId.toInt64, text := fixData }))
  else if status = .kDisconnecting then ({ s with connectionCnt := s.connectionCnt - 1 }, none)
  else (s, none)

def onUnknownMessage (s : EchoClient) : EchoClient × Reaction := (s, .close)

def onResponse (message : Response) (s : EchoClient) : EchoClient × Reaction :=
  ({ s with
      lastSecondRecvCnt := s.lastSecondRecvCnt + 1
      totalRecvCnt := s.totalRecvCnt + 1
      requestId := s.requestId + 1 },
    .send (.request { id := s.requestId.toInt64, text := Response.answer message }))

def showInfo (s : EchoClient) : EchoClient := { s with lastSecondRecvCnt := 0 }

/-- `start` registers the callback again for each of its `TCPClient`s. -/
def dispatcher (n : Nat) : Dispatcher EchoClient :=
  ProtobufDispatcher.register { defaultCallback := fun _ => onUnknownMessage }
    (List.replicate n ⟨.response, onResponse⟩)

theorem sound_dispatcher (n : Nat) : (dispatcher n).Sound :=
  ProtobufDispatcher.Sound.register (fun _ _ h => by cases h) _

def program (n : Nat) : Program EchoClient where
  connectionCallback := onConnectionCallback
  messageCallback := dispatch (dispatcher n) (sound_dispatcher n)
  showInfo := showInfo

theorem messageCallback_response {n : Nat} (hn : 0 < n) (s : EchoClient) (message : Response) :
    (program n).messageCallback s (.response message) = onResponse message s := by
  obtain ⟨k, rfl⟩ := Nat.exists_eq_succ_of_ne_zero (Nat.pos_iff_ne_zero.mp hn)
  have hsound := sound_dispatcher (k + 1)
  rw [dispatcher, List.replicate_succ'] at hsound
  have hlast := dispatch_registered _ .response onResponse hsound s message
  simp only [← List.replicate_succ'] at hlast
  exact hlast

theorem messageCallback_request {n : Nat} (s : EchoClient) (message : Request) :
    (program n).messageCallback s (.request message) = onUnknownMessage s := by
  refine dispatch_default .request rfl (fun r hr => ?_) (sound_dispatcher n) s message
  rw [List.eq_of_mem_replicate hr]
  decide

theorem valid_fixData : isStructurallyValidUTF8 fixData = true := by
  have hvalid : ∀ k, (List.replicate k (97 : UInt8)).foldlM utf8Next 0 = some 0 := by
    intro k
    induction k with
    | zero => rfl
    | succ k ih => exact ih
  exact decide_eq_true (hvalid 1024)

theorem sendable_fixData (id : Int64) : (Message.request { id := id, text := fixData }).Sendable := by
  have hlength : fixData.length = 1024 := List.length_replicate
  refine ⟨⟨?_, valid_fixData⟩, ?_, ?_⟩
  · exact hlength.trans_lt (by decide)
  · exact hlength.symm ▸ (by decide)
  · exact hlength.le.trans (by decide)

theorem proper (n : Nat) : (program n).Proper := by
  constructor
  · intro app status message hmessage
    simp only [program, onConnectionCallback] at hmessage
    split at hmessage
    · cases hmessage
      exact sendable_fixData _
    · split at hmessage <;> cases hmessage
  · intro app next hsendable message hmessage
    obtain ⟨fields, rfl | rfl⟩ := next.request_or_response
    · rw [messageCallback_request] at hmessage
      cases hmessage
    · -- with no client there is nobody to receive it, and nothing is registered
      cases Nat.eq_zero_or_pos n with
      | inl hzero =>
        subst hzero
        cases hmessage
      | inr hpos =>
        rw [messageCallback_response hpos] at hmessage
        cases hmessage
        exact hsendable

end EchoClient

/-! ## Both of them -/

/-- Connection `i` of the server and connection `i` of the clients are the ends of one stream. -/
structure System (n : Nat) where
  server : Peer n EchoServer := { app := {} }
  client : Peer n EchoClient := { app := {} }

inductive SystemAction (n : Nat) where
  | server (a : PeerAction n)
  | client (a : PeerAction n)

namespace System

variable {n : Nat}

def Enabled (s : System n) (m : Mem × Mem) : SystemAction n → Prop
  | .server a => s.server.Enabled m.1 a
  | .client a => s.client.Enabled m.2 a

def exec (s : System n) : SystemAction n → Prog Build (Mem × Mem) ConnFault (System n)
  | .server a => do
    let p ← Prog.onFst (s.server.exec EchoServer.program a)
    pure { s with server := p }
  | .client a => do
    let p ← Prog.onSnd (s.client.exec (EchoClient.program n) a)
    pure { s with client := p }

def machine (n : Nat) : Machine Build (Mem × Mem) ConnFault (System n) (SystemAction n) where
  Init s m := s = {} ∧ ∃ cell cell', m = ({ cell := cell }, { cell := cell' })
  Enabled := Enabled
  exec := exec

/-- The network delivers on each connection what the other end has transmitted, from its
    beginning and without a gap, and a kernel takes all it is given to send. -/
def Networked (s : System n) (m : Mem × Mem) : SystemAction n → Prop
  | .server (.conn a) => s.server.world.Whole m.1 a ∧
    ∀ i, s.server.arrived i ++ a.arrival i <+: (s.client.world.flow i).wire
  | .client (.conn a) => s.client.world.Whole m.2 a ∧
    ∀ i, s.client.arrived i ++ a.arrival i <+: (s.server.world.flow i).wire
  | .server .showInfo | .client .showInfo => True

end System

/-- What a request is answered with. -/
def respond (request : Message) : Message := .response request.fields

/-- A request with the text that every client begins with. -/
def IsRequest (message : Message) : Prop :=
  message.type = .request ∧ message.fields.text = EchoClient.fixData

/-- What the two ends of connection `i` have said to each other. -/
structure Exchange {n : Nat} (s : System n) (i : Fin n) : Prop where
  dialogue : Dialogue respond (s.client.sends i) (s.server.messages i) (s.server.sends i)
    (s.client.messages i)
  requests : ∀ message ∈ s.client.sends i, IsRequest message
  serverHears : s.server.arrived i <+: (s.client.sends i).flatMap Message.frame
  clientHears : s.client.arrived i <+: (s.server.sends i).flatMap Message.frame
  serverSilent : (s.server.world.life i).log = [] → s.server.messages i = [] ∧ s.server.sends i = []
  clientSilent : (s.client.world.life i).log = [] → s.client.messages i = [] ∧ s.client.sends i = []
  answersAll : (s.server.world.life i).status = .kConnected →
    s.server.sends i = (s.server.messages i).map respond
  outstanding : (s.client.world.life i).log ≠ [] → (s.client.world.life i).status = .kConnected →
    (s.client.sends i).length = (s.client.messages i).length + 1

namespace Exchange

variable {n : Nat} {s : System n} {i c : Fin n} {build : Build} {m : Mem × Mem} {a : Action n}
  {next : Message}

theorem initial (i : Fin n) : Exchange ({} : System n) i :=
  ⟨.nil, fun _ h => (by cases h), List.nil_prefix, List.nil_prefix, fun _ => ⟨rfl, rfl⟩,
    fun _ => ⟨rfl, rfl⟩, fun _ => rfl, fun h => absurd rfl h⟩

theorem sendable (h : IsRequest next) : next.Sendable := by
  obtain ⟨type, id, text⟩ := next
  obtain ⟨rfl, rfl⟩ := h
  exact EchoClient.sendable_fixData id

theorem sendable_respond (h : IsRequest next) : (respond next).Sendable := by
  have hsendable := sendable h
  exact hsendable

theorem responses (h : Exchange s i) {message : Message} (hmessage : message ∈ s.server.sends i) :
    ∃ request, IsRequest request ∧ message = respond request := by
  obtain ⟨request, hrequest, rfl⟩ := List.mem_map.mp (h.dialogue.answers.subset hmessage)
  exact ⟨request, h.requests request (h.dialogue.receives.subset hrequest), rfl⟩

/-! ### Steps of the server -/

theorem answered {p : Peer n EchoServer} (h : Exchange s c)
    (stepped : s.server.Stepped EchoServer.program a c next p)
    (hconnected : (p.world.life c).status = .kConnected) :
    s.server.sends c = (s.server.messages c).map respond := by
  by_cases hlog : (s.server.world.life c).log = []
  · obtain ⟨hmessages, hsends⟩ := h.serverSilent hlog
    rw [hmessages, hsends]
    rfl
  · exact h.answersAll (stepped.connected hlog hconnected)

theorem reply_request (app : EchoServer) {request : Message} (h : IsRequest request) :
    (EchoServer.program.messageCallback app request).2.reply = some (respond request) := by
  obtain ⟨type, fields⟩ := request
  obtain rfl : type = .request := h.1
  exact congrArg (fun r => r.2.reply) (EchoServer.messageCallback_request app fields)

theorem server_step {p : Peer n EchoServer} (h : Exchange s c)
    (stepped : s.server.Stepped EchoServer.program a c next p)
    (hnext : a.delivery c ≠ [] → s.server.messages c ++ [next] <+: s.client.sends c)
    (hears : p.arrived c <+: (s.client.sends c).flatMap Message.frame) :
    Exchange { s with server := p } c := by
  have hsilent := stepped.turn.silent h.serverSilent
  have hsame : p.messages c = s.server.messages c → p.sends c = s.server.sends c →
      Exchange { s with server := p } c := by
    intro hmessages hsends
    refine ⟨?_, h.requests, hears, ?_, hsilent, h.clientSilent, fun hconnected => ?_, h.outstanding⟩
    · rw [hmessages, hsends]
      exact h.dialogue
    · rw [hsends]
      exact h.clientHears
    · rw [hmessages, hsends]
      exact h.answered stepped hconnected
  cases stepped.turn with
  | quiet _ messages sends _ => exact hsame (by rw [messages]) (by rw [sends])
  | opened _ _ _ messages sends =>
    rw [EchoServer.program, Peer.accepts_none, List.append_nil, Function.update_eq_self] at sends
    exact hsame (by rw [messages]) (by rw [sends])
  | ending _ _ _ _ messages sends => exact hsame (by rw [messages]) (by rw [sends])
  | got delivery _ _ _ messages sends =>
    have hmore := hnext delivery
    have hreply := reply_request s.server.app (h.requests next (hmore.subset (by simp)))
    rw [hreply] at sends
    have hsends := congrFun sends c
    have hmessages := congrFun messages c
    rw [Function.update_self] at hsends hmessages
    have haccepts : p.accepts c (some (respond next)) = [] ∨
        p.accepts c (some (respond next)) = [respond next] ∧
          s.server.sends c = (s.server.messages c).map respond := by
      unfold Peer.accepts
      split
      · rename_i hconnected
        exact .inr ⟨rfl, h.answered stepped hconnected⟩
      · exact .inl rfl
    refine ⟨?_, h.requests, hears, ?_, hsilent, h.clientSilent, fun hconnected => ?_, h.outstanding⟩
    · rw [hmessages, hsends]
      exact h.dialogue.receive hmore haccepts
    · rw [hsends, List.flatMap_append]
      exact h.clientHears.trans (List.prefix_append ..)
    · have haccept : p.accepts c (some (respond next)) = [respond next] := if_pos hconnected
      rw [hmessages, hsends, h.answered stepped hconnected, haccept, List.map_append]
      rfl

/-! ### Steps of the clients -/

theorem isRequest_greeting (app : EchoClient) (status : StateE) :
    ∀ message ∈ ((EchoClient.program n).connectionCallback app status).2, IsRequest message := by
  intro message hmessage
  simp only [EchoClient.program, EchoClient.onConnectionCallback] at hmessage
  split at hmessage
  · cases hmessage
    exact ⟨rfl, rfl⟩
  · split at hmessage <;> cases hmessage

theorem reply_respond (hn : 0 < n) (app : EchoClient) {request : Message} (h : IsRequest request) :
    ∃ message, IsRequest message ∧
      ((EchoClient.program n).messageCallback app (respond request)).2.reply = some message := by
  refine ⟨.request { id := app.requestId.toInt64, text := request.fields.text }, ⟨rfl, h.2⟩, ?_⟩
  exact congrArg (fun r => r.2.reply) (EchoClient.messageCallback_response hn app request.fields)

theorem length_accepts {A : Type} (p : Peer n A) (out : Option Message) :
    (p.accepts c out).length ≤ 1 := by
  unfold Peer.accepts
  split
  · cases out <;> simp
  · exact Nat.zero_le _

theorem mem_accepts {A : Type} {p : Peer n A} {out : Option Message} {message : Message}
    (h : message ∈ p.accepts c out) : message ∈ out := by
  unfold Peer.accepts at h
  split at h
  · exact Option.mem_toList.mp h
  · cases h

theorem client_step {p : Peer n EchoClient} (h : Exchange s c)
    (stepped : s.client.Stepped (EchoClient.program n) a c next p)
    (hnext : a.delivery c ≠ [] → s.client.messages c ++ [next] <+: s.server.sends c)
    (hears : p.arrived c <+: (s.server.sends c).flatMap Message.frame) :
    Exchange { s with client := p } c := by
  have hsilent := stepped.turn.silent h.clientSilent
  have hmore : ∀ sends, p.sends c = s.client.sends c ++ sends →
      s.server.arrived c <+: (p.sends c).flatMap Message.frame := by
    intro sends hsends
    rw [hsends, List.flatMap_append]
    exact h.serverHears.trans (List.prefix_append ..)
  have hsame : p.messages c = s.client.messages c → p.sends c = s.client.sends c →
      ((p.world.life c).log ≠ [] → (p.world.life c).status = .kConnected →
        (s.client.sends c).length = (s.client.messages c).length + 1) →
      Exchange { s with client := p } c := by
    intro hmessages hsends houtstanding
    refine ⟨?_, ?_, hmore [] (by rw [hsends, List.append_nil]), hears, h.serverSilent, hsilent,
      h.answersAll, ?_⟩
    · rw [hmessages, hsends]
      exact h.dialogue
    · rw [hsends]
      exact h.requests
    · rw [hmessages, hsends]
      exact houtstanding
  cases stepped.turn with
  | quiet _ messages sends same =>
    refine hsame (by rw [messages]) (by rw [sends]) fun hlog hconnected => ?_
    have hlog' : (s.client.world.life c).log ≠ [] := fun hnil => hlog (same.log.mpr hnil)
    exact h.outstanding hlog' (stepped.connected hlog' hconnected)
  | ending _ _ status _ messages sends =>
    refine hsame (by rw [messages]) (by rw [sends]) fun _ hconnected => ?_
    rw [status] at hconnected
    cases hconnected
  | opened before _ _ messages sends =>
    obtain ⟨hmessages₀, hsends₀⟩ := h.clientSilent before
    have hsends := congrFun sends c
    have hmessages := congrFun messages c
    rw [Function.update_self, hsends₀, List.nil_append] at hsends
    rw [hmessages₀] at hmessages
    have hdialogue := h.dialogue
    rw [hsends₀, hmessages₀] at hdialogue
    refine ⟨?_, fun message hmessage => ?_, hmore _ (by rw [hsends₀, List.nil_append]), hears,
      h.serverSilent, hsilent, h.answersAll, fun _ hconnected => ?_⟩
    · rw [hmessages, hsends]
      exact hdialogue.ask (length_accepts p _)
    · rw [hsends] at hmessage
      exact isRequest_greeting s.client.app _ message (mem_accepts hmessage)
    · rw [hmessages, hsends, Peer.accepts, if_pos hconnected, hconnected]
      rfl
  | got delivery before _ _ messages sends =>
    have hget := hnext delivery
    have hmem : next ∈ s.server.sends c := hget.subset (by simp)
    obtain ⟨request, hrequest, rfl⟩ := h.responses hmem
    obtain ⟨reply, hreply, hout⟩ := reply_respond c.pos s.client.app hrequest
    rw [hout] at sends
    have hsends := congrFun sends c
    have hmessages := congrFun messages c
    rw [Function.update_self] at hsends hmessages
    refine ⟨?_, fun message hmessage => ?_, hmore _ hsends, hears, h.serverSilent, hsilent,
      h.answersAll, fun _ hconnected => ?_⟩
    · rw [hmessages, hsends]
      exact h.dialogue.get hget (length_accepts p _)
    · rw [hsends] at hmessage
      cases List.mem_append.mp hmessage with
      | inl hold => exact h.requests message hold
      | inr hnew =>
        cases mem_accepts hnew
        exact hreply
    · have hall := h.outstanding before (stepped.connected before hconnected)
      rw [hmessages, hsends, Peer.accepts, if_pos hconnected, List.length_append, hall,
        List.length_append]
      rfl

/-! ### Other connections -/

theorem still {t : System n} (h : Exchange s i)
    (server : t.server.messages i = s.server.messages i ∧ t.server.sends i = s.server.sends i)
    (client : t.client.messages i = s.client.messages i ∧ t.client.sends i = s.client.sends i)
    (serverLife : t.server.world.life i = s.server.world.life i)
    (clientLife : t.client.world.life i = s.client.world.life i)
    (serverHears : t.server.arrived i <+: (s.client.sends i).flatMap Message.frame)
    (clientHears : t.client.arrived i <+: (s.server.sends i).flatMap Message.frame) : Exchange t i := by
  constructor
  · rw [server.1, server.2, client.1, client.2]
    exact h.dialogue
  · rw [client.2]
    exact h.requests
  · rw [client.2]
    exact serverHears
  · rw [server.2]
    exact clientHears
  · rw [serverLife, server.1, server.2]
    exact h.serverSilent
  · rw [clientLife, client.1, client.2]
    exact h.clientSilent
  · rw [serverLife, server.1, server.2]
    exact h.answersAll
  · rw [clientLife, client.1, client.2]
    exact h.outstanding

end Exchange

/-! ## Runs -/

section Runs

variable {n : Nat} {s s' : System n} {build : Build} {m m' : Mem × Mem} {as : List (SystemAction n)}

/-- Both peers keep what they have to, and each connection its exchange. -/
structure Conversing (s : System n) (m : Mem × Mem) : Prop where
  server : s.server.Kept m.1
  client : s.client.Kept m.2
  exchange : ∀ i, Exchange s i

theorem conn_of_byApplication {a : Action n} (h : a.byApplication = false) : ∃ c, a.conn = some c := by
  cases a with
  | buffer _ => cases h
  | _ => exact ⟨_, rfl⟩

theorem Conversing.server_step {a : Action n} (h : Conversing s m)
    (enabled : s.server.Enabled m.1 (.conn a)) (networked : s.Networked m (.server (.conn a))) :
    (s.exec (.server (.conn a))).wlp build m fun s' m' => Conversing s' m' ∧ s'.client = s.client ∧
      ∃ c next, s.server.Stepped EchoServer.program a c next s'.server ∧
        (a.delivery c ≠ [] → IsRequest next) := by
  obtain ⟨c, hconn⟩ := conn_of_byApplication enabled.1
  obtain ⟨whole, hnetwork⟩ := networked
  have hx := h.exchange c
  obtain ⟨next, hnext⟩ := h.server.expects enabled.2 hx.serverHears hx.dialogue.receives
    (fun _ _ hsent => hx.dialogue.last_question hsent)
    fun request hrequest => Exchange.sendable (hx.requests request hrequest)
  simp only [System.exec, Prog.wlp_bind, Prog.wlp_onFst, Prog.wlp_pure]
  refine (h.server.exec EchoServer.proper enabled whole hconn fun hne =>
    ⟨(hnext hne).1, (hnext hne).2.1⟩).imp ?_
  rintro p m₁ ⟨hkept, stepped⟩
  have hears : ∀ i, p.arrived i <+: (s.client.sends i).flatMap Message.frame := by
    intro i
    rw [stepped.arrived]
    exact (hnetwork i).trans (h.client.wire i)
  have hrequest : a.delivery c ≠ [] → IsRequest next := fun hne =>
    hx.requests next ((hnext hne).2.2.subset (by simp))
  refine ⟨⟨hkept, h.client, fun i => ?_⟩, trivial, c, next, stepped, hrequest⟩
  by_cases hi : i = c
  · subst hi
    exact hx.server_step stepped (fun hne => (hnext hne).2.2) (hears i)
  · exact (h.exchange i).still (stepped.turn.others hi) ⟨rfl, rfl⟩ (stepped.others i hi) rfl (hears i)
      (h.exchange i).clientHears

theorem Conversing.client_step {a : Action n} (h : Conversing s m)
    (enabled : s.client.Enabled m.2 (.conn a)) (networked : s.Networked m (.client (.conn a))) :
    (s.exec (.client (.conn a))).wlp build m fun s' m' => Conversing s' m' ∧ s'.server = s.server ∧
      ∃ c next, s.client.Stepped (EchoClient.program n) a c next s'.client ∧
        (a.delivery c ≠ [] → ∃ request, IsRequest request ∧ next = respond request) := by
  obtain ⟨c, hconn⟩ := conn_of_byApplication enabled.1
  obtain ⟨whole, hnetwork⟩ := networked
  have hx := h.exchange c
  obtain ⟨next, hnext⟩ := h.client.expects enabled.2 hx.clientHears hx.dialogue.gets
    (fun _ _ hsent => hx.dialogue.last_answer hsent) fun response hresponse => by
      obtain ⟨request, hrequest, rfl⟩ := hx.responses hresponse
      exact Exchange.sendable_respond hrequest
  simp only [System.exec, Prog.wlp_bind, Prog.wlp_onSnd, Prog.wlp_pure]
  refine (h.client.exec (EchoClient.proper n) enabled whole hconn fun hne =>
    ⟨(hnext hne).1, (hnext hne).2.1⟩).imp ?_
  rintro p m₂ ⟨hkept, stepped⟩
  have hears : ∀ i, p.arrived i <+: (s.server.sends i).flatMap Message.frame := by
    intro i
    rw [stepped.arrived]
    exact (hnetwork i).trans (h.server.wire i)
  have hresponse : a.delivery c ≠ [] → ∃ request, IsRequest request ∧ next = respond request :=
    fun hne => hx.responses ((hnext hne).2.2.subset (by simp))
  refine ⟨⟨h.server, hkept, fun i => ?_⟩, trivial, c, next, stepped, hresponse⟩
  by_cases hi : i = c
  · subst hi
    exact hx.client_step stepped (fun hne => (hnext hne).2.2) (hears i)
  · exact (h.exchange i).still ⟨rfl, rfl⟩ (stepped.turn.others hi) rfl (stepped.others i hi)
      (h.exchange i).serverHears (hears i)

theorem run_conversing (h : (System.machine n).Run build (fun _ => System.Networked) as s m) :
    Conversing s m := by
  refine h.invariant ?_ ?_
  · rintro s m ⟨rfl, cell, cell', rfl⟩
    exact ⟨Peer.Kept.initial _ cell, Peer.Kept.initial _ cell', Exchange.initial⟩
  · intro as s m a s' m' _ ih enabled networked done
    cases a with
    | server a =>
      cases a with
      | conn a => exact (ih.server_step enabled networked s' m' done).1
      | showInfo =>
        cases done
        exact ⟨ih.server.setApp _, ih.client, fun i => (ih.exchange i).still ⟨rfl, rfl⟩ ⟨rfl, rfl⟩ rfl
          rfl (ih.exchange i).serverHears (ih.exchange i).clientHears⟩
    | client a =>
      cases a with
      | conn a => exact (ih.client_step enabled networked s' m' done).1
      | showInfo =>
        cases done
        exact ⟨ih.server, ih.client.setApp _, fun i => (ih.exchange i).still ⟨rfl, rfl⟩ ⟨rfl, rfl⟩ rfl
          rfl (ih.exchange i).serverHears (ih.exchange i).clientHears⟩

/-- The state after a step, or before it if the step is a fault. -/
def System.after (p : System n × (Mem × Mem)) (a : SystemAction n) : System n × (Mem × Mem) :=
  ((p.1.exec a .release p.2).toOption).getD p

theorem run_after {p : System n × (Mem × Mem)}
    (r : (System.machine n).Run .release (fun _ => System.Networked) as p.1 p.2) (a : SystemAction n)
    (enabled : p.1.Enabled p.2 a) (networked : p.1.Networked p.2 a)
    (hok : (p.1.exec a .release p.2).isOk = true) :
    (System.machine n).Run .release (fun _ => System.Networked) (as ++ [a]) (System.after p a).1
      (System.after p a).2 := by
  refine r.step a enabled networked ?_
  show p.1.exec a .release p.2 = _
  unfold System.after
  cases hrun : p.1.exec a .release p.2 with
  | ok q => rfl
  | error e =>
    rw [hrun] at hok
    cases hok

theorem run_initial (n : Nat) : (System.machine n).Run .release (fun _ => System.Networked) []
    ({} : System n) (emptyMem, emptyMem) := .start ⟨rfl, _, _, rfl⟩

/-- Whatever the two loop threads, the kernels and the network between them do: the responses a
    client receives on a connection are those to its requests, in order, each with the id and
    the text of its request; the text is the same in all of them; a client that is connected has
    one request without a response, and a server that is connected has answered everything it
    has received.  Neither codec reports an error. -/
theorem echoes (h : (System.machine n).Run build (fun _ => System.Networked) as s m) (i : Fin n) :
    s.client.messages i <+: (s.client.sends i).map respond ∧
    (∀ request ∈ s.client.sends i, IsRequest request) ∧
    (s.client.sends i).length ≤ (s.client.messages i).length + 1 ∧
    ((s.client.world.life i).log ≠ [] → (s.client.world.life i).status = .kConnected →
      (s.client.sends i).length = (s.client.messages i).length + 1) ∧
    s.server.messages i <+: s.client.sends i ∧
    ((s.server.world.life i).status = .kConnected →
      s.server.sends i = (s.server.messages i).map respond) ∧
    s.server.errors i = [] ∧ s.client.errors i = [] := by
  have hconversing := run_conversing h
  obtain ⟨hdialogue, hrequests, _, _, _, _, hanswers, houtstanding⟩ := hconversing.exchange i
  exact ⟨hdialogue.got_answers, hrequests, hdialogue.turn, houtstanding, hdialogue.receives, hanswers,
    hconversing.server.errors i, hconversing.client.errors i⟩

theorem exec_server {a : PeerAction n} {p : Peer n EchoServer} {m₁ : Mem}
    (h : s.server.exec EchoServer.program a build m.1 = .ok (p, m₁)) :
    s.exec (.server a) build m = .ok ({ s with server := p }, (m₁, m.2)) := by
  have hrun : Prog.onFst (s.server.exec EchoServer.program a) build m = .ok (p, (m₁, m.2)) := by
    rw [Prog.onFst, h]
  rw [System.exec, Prog.bind_of_ok hrun]
  rfl

theorem exec_client {a : PeerAction n} {p : Peer n EchoClient} {m₂ : Mem}
    (h : s.client.exec (EchoClient.program n) a build m.2 = .ok (p, m₂)) :
    s.exec (.client a) build m = .ok ({ s with client := p }, (m.1, m₂)) := by
  have hrun : Prog.onSnd (s.client.exec (EchoClient.program n) a) build m = .ok (p, (m.1, m₂)) := by
    rw [Prog.onSnd, h]
  rw [System.exec, Prog.bind_of_ok hrun]
  rfl

/-- In every state the two programs reach: a connection of the server that waits, and for which the
    network has a whole request, can answer it. -/
theorem serves (h : (System.machine n).Run build (fun _ => System.Networked) as s m) {c : Fin n} {p : Ptr}
    {request : Message} (hwaits : s.server.Waits c p) (hrequest : IsRequest request)
    (hheard : ∀ i, (s.server.filled c p request.frame).arrived i <+: (s.client.world.flow i).wire) :
    ∃ s' m', (System.machine n).Stretch build System.Networked s m s' m' ∧
      s'.client = s.client ∧ m'.2 = m.2 ∧
      s'.server.messages c = s.server.messages c ++ [request] ∧
      s'.server.sends c = s.server.sends c ++ [respond request] ∧
      (s'.server.world.flow c).wire = (s.server.world.flow c).wire ++ (respond request).frame := by
  have hsendable := Exchange.sendable hrequest
  obtain ⟨enabled, done, hfilled⟩ :=
    hwaits.readDone build EchoServer.program (run_conversing h).server hsendable
  obtain ⟨enabled₂, p₂, m₂, done₂, hanswers⟩ :=
    hwaits.answers build hfilled EchoServer.proper hsendable (Exchange.reply_request _ hrequest)
  obtain ⟨op, enabled₃, whole₃, hsent⟩ :=
    hanswers.inFlight.transmitted hanswers.socket
      (Message.length_frame (Exchange.sendable_respond hrequest)).1
  have hall : ∀ i, (s.server.filled c p request.frame).arrived i ++ [] <+: (s.client.world.flow i).wire :=
    fun i => (List.append_nil _).symm ▸ hheard i
  have t : (System.machine n).Stretch build System.Networked s m s m := .nil
  have t := t.step (SystemAction.server (.conn (.readDone c ⟨p, none⟩ (.success request.frame)))) enabled
    ⟨trivial, hheard⟩ (exec_server done)
  have t := t.step (SystemAction.server (.conn (.handleRead c ⟨p, some (.success request.frame)⟩))) enabled₂
    ⟨trivial, hall⟩ (exec_server done₂)
  have t := t.step (SystemAction.server (.conn (.writeDone c op (.success (respond request).frame.length))))
    ⟨rfl, enabled₃⟩ ⟨whole₃, hanswers.arrived ▸ hall⟩ (exec_server rfl)
  refine ⟨_, _, t, rfl, rfl, hanswers.messages, hanswers.sends, ?_⟩
  have hwire : (p₂.world.flow c).wire = (s.server.world.flow c).wire :=
    hanswers.wire.trans ((congrArg Flow.wire (s.server.filled_flow c p request.frame)).trans rfl)
  rw [← hwire, ← hsent]
  exact congrArg Flow.wire (Function.update_self ..)

/-- A client gets a whole response in the same way, and sends its next request. -/
theorem hears (h : (System.machine n).Run build (fun _ => System.Networked) as s m) {c : Fin n} {p : Ptr}
    {request : Message} (hwaits : s.client.Waits c p) (hrequest : IsRequest request)
    (hheard : ∀ i, (s.client.filled c p (respond request).frame).arrived i <+:
      (s.server.world.flow i).wire) :
    ∃ s' m' more, (System.machine n).Stretch build System.Networked s m s' m' ∧
      s'.server = s.server ∧ m'.1 = m.1 ∧ IsRequest more ∧
      s'.client.messages c = s.client.messages c ++ [respond request] ∧
      s'.client.sends c = s.client.sends c ++ [more] := by
  have hsendable := Exchange.sendable_respond hrequest
  obtain ⟨more, hmore, hreply⟩ := Exchange.reply_respond c.pos s.client.app hrequest
  obtain ⟨enabled, done, hfilled⟩ :=
    hwaits.readDone build (EchoClient.program n) (run_conversing h).client hsendable
  obtain ⟨enabled₂, p₂, m₂, done₂, hanswers⟩ :=
    hwaits.answers build hfilled (EchoClient.proper n) hsendable hreply
  have hall : ∀ i, (s.client.filled c p (respond request).frame).arrived i ++ [] <+:
      (s.server.world.flow i).wire := fun i => (List.append_nil _).symm ▸ hheard i
  have t : (System.machine n).Stretch build System.Networked s m s m := .nil
  have t := t.step (SystemAction.client (.conn (.readDone c ⟨p, none⟩ (.success (respond request).frame))))
    enabled
    ⟨trivial, hheard⟩ (exec_client done)
  have t := t.step (SystemAction.client (.conn (.handleRead c ⟨p, some (.success (respond request).frame)⟩)))
    enabled₂
    ⟨trivial, hall⟩ (exec_client done₂)
  exact ⟨_, _, more, t, rfl, rfl, hmore, hanswers.messages, hanswers.sends⟩

end Runs

def firstRequest : Message := .request { id := 0, text := EchoClient.fixData }

theorem isRequest_first : IsRequest firstRequest := ⟨rfl, rfl⟩

/-- Both ends of the connection are established and wait, and the network has the first request. -/
theorem asked : ∃ (as : List (SystemAction 1)) (s : System 1) (m : Mem × Mem),
    (System.machine 1).Run .release (fun _ => System.Networked) as s m ∧
    s.server.Waits 0 0 ∧ s.client.Waits 0 1 ∧ s.server.arrived 0 = [] ∧ s.client.arrived 0 = [] ∧
    (s.server.world.flow 0).wire = [] ∧ (s.client.world.flow 0).wire = firstRequest.frame ∧
    s.server.messages 0 = [] ∧ s.client.messages 0 = [] ∧ s.client.sends 0 = [firstRequest] := by
  have r := run_after (p := ({}, (emptyMem, emptyMem))) (run_initial 1)
    (.server (.conn (.connectEstablished 0))) ⟨rfl, rfl, rfl, rfl⟩
    ⟨trivial, fun _ => List.nil_prefix⟩ rfl
  have r := run_after r (.server (.conn (.resume 0))) ⟨rfl, fun h => by cases h⟩
    ⟨trivial, fun _ => List.nil_prefix⟩ rfl
  have r := run_after r (.server (.conn (.resume 0))) ⟨rfl, fun h => by cases h⟩
    ⟨trivial, fun _ => List.nil_prefix⟩ rfl
  have r := run_after r (.client (.conn (.connectEstablished 0))) ⟨rfl, rfl, rfl, rfl⟩
    ⟨trivial, fun _ => List.nil_prefix⟩ rfl
  have r := run_after r (.client (.conn (.resume 0))) ⟨rfl, fun h => by cases h⟩
    ⟨trivial, fun _ => List.nil_prefix⟩ (by decide +kernel)
  have r := run_after r (.client (.conn (.resume 0))) ⟨rfl, by show _ ≠ _; decide +kernel⟩
    ⟨trivial, by decide +kernel⟩ (by decide +kernel)
  have r := run_after r (.client (.conn (.writeDone 0 ⟨0, true, none⟩ (.success 1048))))
    ⟨rfl, by show _ ∈ _; decide +kernel, rfl, by decide +kernel, by decide +kernel, by decide +kernel⟩
    ⟨by show _ = _; decide +kernel, by decide +kernel⟩ (by decide +kernel)
  have r := run_after r (.client (.conn (.handleWrite 0 ⟨0, true, some (.success 1048)⟩)))
    ⟨rfl, by show _ ∈ _; decide +kernel, by decide +kernel, by show _ = _; decide +kernel⟩
    ⟨trivial, by decide +kernel⟩ (by decide +kernel)
  exact ⟨_, _, _, r, ⟨by decide +kernel, by decide +kernel, by decide +kernel, by decide +kernel,
    by decide +kernel, by decide +kernel⟩, ⟨by decide +kernel, by decide +kernel, by decide +kernel,
    by decide +kernel, by decide +kernel, by decide +kernel⟩, by decide +kernel, by decide +kernel,
    by decide +kernel, (run_conversing r).client.wire_one (by decide +kernel) (by decide +kernel),
    by decide +kernel,
    by decide +kernel, by decide +kernel⟩

/-- The server receives the first request, and the client the response to it. -/
theorem answered : ∃ (as : List (SystemAction 1)) (s : System 1) (m : Mem × Mem),
    (System.machine 1).Run .release (fun _ => System.Networked) as s m ∧
    s.server.messages 0 = [firstRequest] ∧ s.client.messages 0 = [respond firstRequest] ∧
    (s.client.sends 0).length = 2 := by
  obtain ⟨as, s, m, r, hserver, hclient, hfresh, hquiet, hempty, hwire, hnone, hnew, hsends⟩ := asked
  obtain ⟨s₁, m₁, t₁, hsame, _, hgot, _, hsent⟩ := serves r hserver isRequest_first fun i => by
    rw [Subsingleton.elim i 0, hwire]
    show s.server.arrived 0 ++ firstRequest.frame <+: _
    rw [hfresh]
    exact List.prefix_rfl
  obtain ⟨as₁, r₁⟩ := t₁.run r fun _ _ _ _ h => h
  rw [hempty] at hsent
  rw [← hsame] at hclient
  obtain ⟨s₂, m₂, more, t₂, hsame₂, _, _, hheard, hmore⟩ := hears r₁ hclient isRequest_first fun i => by
    rw [Subsingleton.elim i 0, hsent, hsame]
    show s.client.arrived 0 ++ (respond firstRequest).frame <+: _
    rw [hquiet]
  obtain ⟨as₂, r₂⟩ := t₂.run r₁ fun _ _ _ _ h => h
  refine ⟨as₂, s₂, m₂, r₂, ?_, ?_, ?_⟩
  · rw [hsame₂, hgot, hnone]
    rfl
  · rw [hheard, hsame, hnew]
    rfl
  · rw [hmore, hsame, hsends, List.length_append]
    rfl

theorem echoes_one : ∃ (as : List (SystemAction 1)) (s : System 1) (m : Mem × Mem),
    (System.machine 1).Run .release (fun _ => System.Networked) as s m ∧
    s.client.messages 0 = [respond firstRequest] ∧ (s.client.sends 0).length = 2 ∧
    s.client.messages 0 <+: (s.client.sends 0).map respond := by
  obtain ⟨as, s, m, r, _, hmessages, hsends⟩ := answered
  exact ⟨as, s, m, r, hmessages, hsends, (echoes r 0).1⟩

end Echo

end Netpp
