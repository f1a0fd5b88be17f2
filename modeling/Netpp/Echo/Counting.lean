import Mathlib.Algebra.BigOperators.Fin
import Netpp.Echo.System
import Netpp.Lib.Numbering

/-! # What the echo programs count

`request_id_` numbers the requests on all connections of the clients, `total_recv_cnt_` counts
the messages on all connections of a program, and `connection_cnt_` its connections.

* `Counting`: the numbers that have been handed out, and where they went.
* `requests_distinct`: no two requests have the same id, until the numbers are used up.
* `counts_messages`: both totals are right, and differ by what is under way.
* `counts_connections`: the number of connections is right.
-/

namespace Netpp

open Function (update)

namespace Echo

variable {n : Nat} {build : Build} {a : Action n} {c : Fin n} {next : Message}

/-- `request.set_id(request_id_++)` with the `k`-th value of `request_id_`. -/
def idOf (k : Nat) : Int64 := (UInt64.ofNat k).toInt64

theorem idOf_inj {k l : Nat} (hk : k < 2 ^ 64) (hl : l < 2 ^ 64) (h : idOf k = idOf l) : k = l := by
  have hword : UInt64.ofNat k = UInt64.ofNat l := by simpa [idOf] using congrArg Int64.toUInt64 h
  have hnat := congrArg UInt64.toNat hword
  rwa [UInt64.toNat_ofNat_of_lt' hk, UInt64.toNat_ofNat_of_lt' hl] at hnat

/-- The requests that have been made for a connection, sent or not: one when it began, and one for
    each message. -/
def made {A : Type} (s : Peer n A) (i : Fin n) : Nat :=
  (if (s.world.life i).log = [] then 0 else 1) + (s.messages i).length

/-- All requests the clients have made. -/
def allMade {A : Type} (s : Peer n A) : Nat := ∑ i, made s i

/-- Each request that was made has got a number; those in `held` are in the requests that were sent. -/
structure Counting (s : Peer n EchoClient) (held : Fin n → List Nat) : Prop where
  numbered : Numbered (allMade s) held
  requestId : s.app.requestId = UInt64.ofNat (allMade s)
  ids : ∀ i, (s.sends i).map (fun request => request.fields.id) = (held i).map idOf

theorem Counting.initial : Counting ({ app := {} } : Peer n EchoClient) fun _ => [] := by
  have hnone : allMade ({ app := {} } : Peer n EchoClient) = 0 := Finset.sum_eq_zero fun _ _ => rfl
  refine ⟨?_, ?_, fun _ => rfl⟩
  · rw [hnone]
    exact .none
  · rw [hnone]
    rfl

theorem ids_update {s s' : Peer n EchoClient} {held : Fin n → List Nat} {k : Nat} {request : Message}
    (hids : ∀ i, (s.sends i).map (fun request => request.fields.id) = (held i).map idOf)
    (hsends : s'.sends = update s.sends c (s.sends c ++ [request])) (hid : request.fields.id = idOf k)
    (i : Fin n) : (s'.sends i).map (fun request => request.fields.id) =
      (update held c (held c ++ [k]) i).map idOf := by
  rw [hsends]
  by_cases hi : i = c
  · rw [hi, Function.update_self, Function.update_self, List.map_append, List.map_append, hids,
      List.map_singleton, List.map_singleton, hid]
  · rw [Function.update_of_ne hi, Function.update_of_ne hi, hids]

theorem Counting.draw {s s' : Peer n EchoClient} {held : Fin n → List Nat} {request : Message}
    (h : Counting s held) (hid : request.fields.id = idOf (allMade s))
    (happ : s'.app.requestId = s.app.requestId + 1)
    (hsends : s'.sends = update s.sends c (s.sends c ++ s'.accepts c (some request)))
    (hmade : allMade s' = allMade s + 1) : ∃ held', Counting s' held' := by
  have hrequestId : s'.app.requestId = UInt64.ofNat (allMade s') := by
    rw [happ, h.requestId, hmade]
    exact (UInt64.ofNat_add (allMade s) 1).symm
  -- a request that is refused uses up its number all the same
  unfold Peer.accepts at hsends
  split at hsends
  · exact ⟨_, hmade ▸ h.numbered.next c, hrequestId, ids_update h.ids hsends hid⟩
  · rw [List.append_nil, Function.update_eq_self] at hsends
    exact ⟨held, hmade ▸ h.numbered.skip, hrequestId, fun i => by rw [hsends]; exact h.ids i⟩

theorem Counting.undrawn {s s' : Peer n EchoClient} {held : Fin n → List Nat} (h : Counting s held)
    (happ : s'.app.requestId = s.app.requestId) (hsends : s'.sends = s.sends)
    (hmade : allMade s' = allMade s) : Counting s' held := by
  refine ⟨hmade ▸ h.numbered, by rw [happ, hmade]; exact h.requestId, fun i => ?_⟩
  rw [hsends]
  exact h.ids i

theorem requestId_ended (app : EchoClient) :
    ((EchoClient.program n).connectionCallback app .kDisconnecting).1.requestId = app.requestId := rfl

theorem status_first {l : Life} (hsees : SeesConnected l) (hlog : l.log = [.connection l.status]) :
    l.status = .kConnected := by
  have hfirst := hsees.first (.connection l.status) (by rw [hlog]; rfl)
  exact ConnCallback.connection.inj hfirst

theorem Counting.step {s s' : Peer n EchoClient} {held : Fin n → List Nat} (h : Counting s held)
    (stepped : s.Stepped (EchoClient.program n) a c next s') (hsees : SeesConnected (s'.world.life c))
    (hnext : a.delivery c ≠ [] → ∃ request, IsRequest request ∧ next = respond request) :
    ∃ held', Counting s' held' := by
  have hothers : ∀ i, i ≠ c → made s' i = made s i := fun i hi => by
    rw [made, made, stepped.others i hi, (stepped.turn.others hi).1]
  cases stepped.turn with
  | quiet app messages sends same =>
    have hmade : made s' c = made s c + 0 := by
      rw [made, made, messages]
      simp only [same.log, Nat.add_zero]
    exact ⟨held, h.undrawn (by rw [app]) sends (sum_step hmade hothers)⟩
  | opened before after app messages sends =>
    have hmade : made s' c = made s c + 1 := by
      rw [made, made, messages, if_pos before, after, if_neg (List.cons_ne_nil _ _)]
      omega
    rw [status_first hsees after] at app sends
    exact h.draw (by rw [h.requestId]; rfl) (by rw [app]; rfl) sends (sum_step hmade hothers)
  | ending before after status app messages sends =>
    have hmade : made s' c = made s c + 0 := by
      rw [made, made, messages, if_neg before, after, if_neg (by simp)]
      rfl
    exact ⟨held, h.undrawn (by rw [app, requestId_ended]) sends (sum_step hmade hothers)⟩
  | got delivery before same app messages sends =>
    obtain ⟨request, _, rfl⟩ := hnext delivery
    have hmade : made s' c = made s c + 1 := by
      rw [made, made, messages, if_neg before, if_neg (mt same.log.mp before), Function.update_self,
        List.length_append]
      rfl
    have hreply := EchoClient.messageCallback_response c.pos s.app request.fields
    rw [respond, hreply] at app sends
    exact h.draw (by rw [h.requestId]; rfl) (by rw [app]; rfl) sends (sum_step hmade hothers)

theorem Counting.id_eq {s : Peer n EchoClient} {k : Nat} {held : Fin n → List Nat} {i : Fin n}
    (h : Counting s held) (hk : k < (s.sends i).length) :
    ∃ hk' : k < (held i).length, ((s.sends i)[k]).fields.id = idOf ((held i)[k]) := by
  have hlength := congrArg List.length (h.ids i)
  rw [List.length_map, List.length_map] at hlength
  have hget := List.getElem_of_eq (h.ids i) (by rw [List.length_map]; exact hk)
  rw [List.getElem_map, List.getElem_map] at hget
  exact ⟨hlength ▸ hk, hget⟩

/-! ## Messages -/

/-- A counter that only `messageCallback` changes counts the messages on all connections. -/
theorem total_step {A : Type} {prog : Program A} {s s' : Peer n A} (total : A → Int64)
    (h : total s.app = Int64.ofNat (∑ i, (s.messages i).length)) (stepped : s.Stepped prog a c next s')
    (hconnection : ∀ app status, total (prog.connectionCallback app status).1 = total app)
    (hmessage : a.delivery c ≠ [] → total (prog.messageCallback s.app next).1 = total s.app + 1) :
    total s'.app = Int64.ofNat (∑ i, (s'.messages i).length) := by
  cases stepped.turn with
  | quiet app messages _ _ => rw [app, messages, h]
  | opened _ _ app messages _ => rw [app, messages, hconnection, h]
  | ending _ _ _ app messages _ => rw [app, messages, hconnection, h]
  | got delivery _ _ app messages _ =>
    have hmore : (s'.messages c).length = (s.messages c).length + 1 := by
      rw [messages, Function.update_self, List.length_append]
      rfl
    have hsum := sum_step (f := fun i => (s.messages i).length) (g := fun i => (s'.messages i).length)
      hmore fun i hi => by rw [(stepped.turn.others hi).1]
    rw [app, hmessage delivery, h, hsum]
    exact (Int64.ofNat_add _ 1).symm

/-! ## Connections -/

/-- `connection_cb_` has been called for the beginning of the connection, and not for its end. -/
def IsOpen (l : Life) : Prop := l.log ≠ [] ∧ .connection .kDisconnecting ∉ l.log

instance (l : Life) : Decidable (IsOpen l) := inferInstanceAs (Decidable (_ ∧ _))

def openCount {A : Type} (s : Peer n A) : Nat :=
  (Finset.univ.filter fun i => IsOpen (s.world.life i)).card

/-- One if the connection is open, and nothing if not. -/
def opens {A : Type} (s : Peer n A) (i : Fin n) : Nat := if IsOpen (s.world.life i) then 1 else 0

theorem openCount_eq {A : Type} (s : Peer n A) : openCount s = ∑ i, opens s i :=
  Finset.card_filter _ _

section Connections

variable {A : Type} {prog : Program A} {s s' : Peer n A}

theorem isOpen_of_sameCalls {l l' : Life} (h : SameCalls l l') : IsOpen l' ↔ IsOpen l :=
  and_congr (not_congr h.log) (not_congr (h.calls _))

theorem isOpen_first {l : Life} (hsees : SeesConnected l) (hlog : l.log = [.connection l.status]) :
    l.status = .kConnected ∧ IsOpen l := by
  have hstatus := status_first hsees hlog
  refine ⟨hstatus, ?_⟩
  rw [IsOpen, hlog, hstatus]
  decide

def sees : ConnCallback → Option StateE
  | .connection status => some status
  | _ => none

/-- What the calls of `connection_cb_` have seen. -/
def seen (l : Life) : List StateE := l.log.filterMap sees

theorem sees_messages {ms : List ConnCallback} (h : OnlyMessages ms) : ms.filterMap sees = [] :=
  List.filterMap_eq_nil_iff.mpr fun x hx => by rw [h x hx]; rfl

theorem seen_cons {l : Life} {log : List ConnCallback} (hsees : SeesConnected l) {first : StateE}
    (hlog : l.log = .connection first :: log) : seen l = .kConnected :: log.filterMap sees := by
  have hfirst := hsees.first (.connection first) (by rw [hlog]; rfl)
  rw [seen, hlog, hfirst]
  rfl

theorem seen_twice {l : Life} (hstage : Stage l) (hsees : SeesConnected l) :
    seen l <+: [.kConnected, .kDisconnecting] := by
  cases hstage with
  | unborn _ hlog | connecting _ hlog =>
    rw [seen, hlog]
    exact List.nil_prefix
  | opened first ms _ hms hlog =>
    rw [seen_cons hsees hlog, sees_messages hms]
    exact ⟨[.kDisconnecting], rfl⟩
  | between first ms _ hms hlog =>
    rw [seen_cons hsees hlog, List.filterMap_append, sees_messages hms]
    exact List.prefix_rfl
  | ended first ms late _ hms hlate hlog =>
    rw [seen_cons hsees hlog, List.filterMap_append, List.filterMap_append, sees_messages hms,
      sees_messages hlate]
    exact List.prefix_rfl

theorem isOpen_last {l l' : Life} (hstage : Stage l') (hsees : SeesConnected l') (hne : l.log ≠ [])
    (hlog : l'.log = l.log ++ [.connection .kDisconnecting]) : IsOpen l ∧ ¬ IsOpen l' := by
  have honce := (hstage.notified hsees).disconnecting
  rw [hlog, List.count_append, List.count_singleton_self] at honce
  refine ⟨⟨hne, List.count_eq_zero.mp (by omega)⟩, fun hopen => hopen.2 ?_⟩
  rw [hlog]
  exact List.mem_append_right _ (List.mem_singleton_self _)

theorem sees_step (h : ∀ i, SeesConnected (s.world.life i)) (stepped : s.Stepped prog a c next s')
    (i : Fin n) : SeesConnected (s'.world.life i) := by
  by_cases hi : i = c
  · rw [hi]
    exact stepped.sees (h c)
  · rw [stepped.others i hi]
    exact h i

/-- A counter that goes up at the beginning of a connection and down at its end counts those that
    are open. -/
theorem open_step (cnt : A → Int32) (h : cnt s.app = Int32.ofNat (openCount s))
    (stepped : s.Stepped prog a c next s') (hsees : SeesConnected (s'.world.life c))
    (hstage : Stage (s'.world.life c))
    (hopened : ∀ app, cnt (prog.connectionCallback app .kConnected).1 = cnt app + 1)
    (hended : ∀ app, cnt (prog.connectionCallback app .kDisconnecting).1 = cnt app - 1)
    (hmessage : a.delivery c ≠ [] → cnt (prog.messageCallback s.app next).1 = cnt s.app) :
    cnt s'.app = Int32.ofNat (openCount s') := by
  have hothers : ∀ i, i ≠ c → opens s' i = opens s i := fun i hi => by
    rw [opens, opens, stepped.others i hi]
  have hstill : SameCalls (s.world.life c) (s'.world.life c) → openCount s' = openCount s := by
    intro same
    have hopens : opens s' c = opens s c + 0 := by simp only [opens, isOpen_of_sameCalls same, Nat.add_zero]
    rw [openCount_eq, openCount_eq]
    exact sum_step hopens hothers
  cases stepped.turn with
  | quiet app _ _ same => rw [app, hstill same, h]
  | got delivery _ same app _ _ => rw [app, hmessage delivery, hstill same, h]
  | opened before after app _ _ =>
    obtain ⟨hstatus, hopen⟩ := isOpen_first hsees after
    have hclosed : ¬ IsOpen (s.world.life c) := fun hopen => hopen.1 before
    have hopens : opens s' c = opens s c + 1 := by rw [opens, opens, if_pos hopen, if_neg hclosed]
    rw [hstatus] at app
    rw [app, hopened, h, openCount_eq, openCount_eq, sum_step hopens hothers]
    exact (Int32.ofNat_add _ 1).symm
  | ending before after _ app _ _ =>
    obtain ⟨hopen, hclosed⟩ := isOpen_last hstage hsees before after
    have hopens : opens s c = opens s' c + 1 := by rw [opens, opens, if_pos hopen, if_neg hclosed]
    have hmore := sum_step hopens fun i hi => (hothers i hi).symm
    rw [app, hended, h, openCount_eq, openCount_eq, hmore, Int32.ofNat_add]
    exact Int32.add_sub_cancel ..

end Connections

/-! ## Programs -/

/-- `connection_cnt_` and `total_recv_cnt_` of a program. -/
structure Counters (A : Type) where
  connectionCnt : A → Int32
  totalRecvCnt : A → Int64

namespace Counters

variable {A : Type} {k : Counters A} {prog : Program A} {s s' : Peer n A}

/-- What `connection_cb_` does to them. -/
structure Follow (k : Counters A) (prog : Program A) : Prop where
  opened : ∀ app, k.connectionCnt (prog.connectionCallback app .kConnected).1 = k.connectionCnt app + 1
  ended : ∀ app, k.connectionCnt (prog.connectionCallback app .kDisconnecting).1 = k.connectionCnt app - 1
  received : ∀ app status, k.totalRecvCnt (prog.connectionCallback app status).1 = k.totalRecvCnt app

structure Right (k : Counters A) (s : Peer n A) : Prop where
  sees : ∀ i, SeesConnected (s.world.life i)
  connections : k.connectionCnt s.app = Int32.ofNat (openCount s)
  messages : k.totalRecvCnt s.app = Int64.ofNat (∑ i, (s.messages i).length)

theorem Right.initial {app : A} (hconnections : k.connectionCnt app = 0)
    (hmessages : k.totalRecvCnt app = 0) : k.Right ({ app := app } : Peer n A) := by
  refine ⟨fun i => ⟨fun h => (by cases h), fun _ h => (by cases h)⟩, hconnections.trans ?_,
    hmessages.trans ?_⟩
  · have hclosed : ∀ i, opens ({ app := app } : Peer n A) i = 0 := fun i => if_neg fun h => h.1 rfl
    rw [openCount_eq, Finset.sum_congr rfl fun i _ => hclosed i, Finset.sum_const_zero]
    rfl
  · rw [Finset.sum_congr rfl fun i _ => List.length_nil, Finset.sum_const_zero]
    rfl

theorem Right.step (h : k.Right s) (follow : k.Follow prog) (stepped : s.Stepped prog a c next s')
    (hstage : Stage (s'.world.life c))
    (hmessage : a.delivery c ≠ [] →
      k.connectionCnt (prog.messageCallback s.app next).1 = k.connectionCnt s.app ∧
      k.totalRecvCnt (prog.messageCallback s.app next).1 = k.totalRecvCnt s.app + 1) : k.Right s' := by
  have hsees := sees_step h.sees stepped
  constructor
  · exact hsees
  · exact open_step k.connectionCnt h.connections stepped (hsees c) hstage follow.opened follow.ended
      fun hne => (hmessage hne).1
  · exact total_step k.totalRecvCnt h.messages stepped follow.received fun hne => (hmessage hne).2

end Counters

def EchoServer.counters : Counters EchoServer := ⟨connectionCnt, totalRecvCnt⟩

def EchoClient.counters : Counters EchoClient := ⟨connectionCnt, totalRecvCnt⟩

theorem EchoServer.counters_follow : counters.Follow program := by
  refine ⟨fun _ => rfl, fun _ => rfl, fun app status => ?_⟩
  simp only [program, onConnectionCallback]
  split
  · rfl
  · split <;> rfl

theorem EchoClient.counters_follow : counters.Follow (program n) := by
  refine ⟨fun _ => rfl, fun _ => rfl, fun app status => ?_⟩
  simp only [program, onConnectionCallback]
  split
  · rfl
  · split <;> rfl

/-! ## Runs -/

section Runs

variable {s s' : System n} {m m' : Mem × Mem} {as : List (SystemAction n)} {i j : Fin n} {k l : Nat}

/-- The counters of both programs are right. -/
structure Counted (s : System n) : Prop where
  requests : ∃ held, Counting s.client held
  server : EchoServer.counters.Right s.server
  client : EchoClient.counters.Right s.client

theorem Counted.server_step (h : Counted s) (hclient : s'.client = s.client)
    (stepped : s.server.Stepped EchoServer.program a c next s'.server)
    (hnext : a.delivery c ≠ [] → IsRequest next) (hstage : Stage (s'.server.world.life c)) :
    Counted s' := by
  refine ⟨hclient ▸ h.requests, h.server.step EchoServer.counters_follow stepped hstage fun hne => ?_,
    hclient ▸ h.client⟩
  obtain ⟨type, fields⟩ := next
  obtain rfl : type = .request := (hnext hne).1
  have hreply := EchoServer.messageCallback_request s.server.app fields
  rw [Message.request] at hreply
  rw [hreply]
  exact ⟨rfl, rfl⟩

theorem Counted.client_step (h : Counted s) (hserver : s'.server = s.server)
    (stepped : s.client.Stepped (EchoClient.program n) a c next s'.client)
    (hnext : a.delivery c ≠ [] → ∃ request, IsRequest request ∧ next = respond request)
    (hstage : Stage (s'.client.world.life c)) : Counted s' := by
  obtain ⟨held, hcounting⟩ := h.requests
  refine ⟨hcounting.step stepped (sees_step h.client.sees stepped c) hnext, hserver ▸ h.server,
    h.client.step EchoClient.counters_follow stepped hstage fun hne => ?_⟩
  obtain ⟨request, _, rfl⟩ := hnext hne
  rw [respond, EchoClient.messageCallback_response c.pos]
  exact ⟨rfl, rfl⟩

theorem run_counted (h : (System.machine n).Run build (fun _ => System.Networked) as s m) :
    Counted s := by
  refine h.invariant (I := fun s _ => Counted s) ?_ ?_
  · rintro s m ⟨rfl, _⟩
    exact ⟨⟨_, .initial⟩, .initial rfl rfl, .initial rfl rfl⟩
  · intro as s m a s' m' before ih enabled networked done
    have hconversing := run_conversing before
    cases a with
    | server a =>
      cases a with
      | conn a =>
        obtain ⟨hafter, hclient, c, next, stepped, hnext⟩ :=
          hconversing.server_step enabled networked s' m' done
        obtain ⟨chain, lost, k, hsound⟩ := hafter.server.sound
        exact ih.server_step hclient stepped hnext (hsound.stage c)
      | showInfo =>
        cases done
        exact { ih with server := { ih.server with } }
    | client a =>
      cases a with
      | conn a =>
        obtain ⟨hafter, hserver, c, next, stepped, hnext⟩ :=
          hconversing.client_step enabled networked s' m' done
        obtain ⟨chain, lost, k, hsound⟩ := hafter.client.sound
        exact ih.client_step hserver stepped hnext (hsound.stage c)
      | showInfo =>
        cases done
        obtain ⟨held, hcounting⟩ := ih.requests
        exact ⟨⟨held, { hcounting with }⟩, ih.server, { ih.client with }⟩

/-- Whatever the programs, the kernels and the network do: every request that was made has used up a
    value of `request_id_`, also if it was refused, and the requests that were sent have different
    ids, on whichever connections they are, as long as no more than `2^64` were made. -/
theorem requests_distinct (h : (System.machine n).Run build (fun _ => System.Networked) as s m) :
    s.client.app.requestId = UInt64.ofNat (allMade s.client) ∧
    (allMade s.client ≤ 2 ^ 64 → ∀ (i j : Fin n) (k l : Nat) (hk : k < (s.client.sends i).length)
      (hl : l < (s.client.sends j).length), ¬ (i = j ∧ k = l) →
        ((s.client.sends i)[k]).fields.id ≠ ((s.client.sends j)[l]).fields.id) := by
  obtain ⟨held, hcounting⟩ := (run_counted h).requests
  refine ⟨hcounting.requestId, ?_⟩
  intro hfew i j k l hk hl hother hid
  obtain ⟨hk', hidk⟩ := hcounting.id_eq hk
  obtain ⟨hl', hidl⟩ := hcounting.id_eq hl
  rw [hidk, hidl] at hid
  have hbelow := hcounting.numbered.below
  have hnumber := idOf_inj (Nat.lt_of_lt_of_le (hbelow i _ (List.getElem_mem hk')) hfew)
    (Nat.lt_of_lt_of_le (hbelow j _ (List.getElem_mem hl')) hfew) hid
  exact hother (hcounting.numbered.unique hk' hl' hnumber)

/-- Two connections are established, and each sends its first request. -/
theorem two_requests : ∃ (as : List (SystemAction 2)) (s : System 2) (m : Mem × Mem),
    (System.machine 2).Run .release (fun _ => System.Networked) as s m ∧
    allMade s.client = 2 ∧
    s.client.sends 0 = [.request { id := 0, text := EchoClient.fixData }] ∧
    s.client.sends 1 = [.request { id := 1, text := EchoClient.fixData }] := by
  have r := run_after (p := ({}, (emptyMem, emptyMem))) (run_initial 2)
    (.client (.conn (.connectEstablished 0))) ⟨rfl, rfl, rfl, rfl⟩
    ⟨trivial, fun _ => List.nil_prefix⟩ rfl
  have r := run_after r (.client (.conn (.connectEstablished 1))) ⟨rfl, rfl, rfl, rfl⟩
    ⟨trivial, fun _ => List.nil_prefix⟩ rfl
  have r := run_after r (.client (.conn (.resume 0))) ⟨rfl, fun h => by cases h⟩
    ⟨trivial, fun _ => List.nil_prefix⟩ (by decide +kernel)
  have r := run_after r (.client (.conn (.resume 1))) ⟨rfl, by show _ ≠ _; decide +kernel⟩
    ⟨trivial, by decide +kernel⟩ (by decide +kernel)
  exact ⟨_, _, _, r, by decide +kernel, by decide +kernel, by decide +kernel⟩

theorem requests_distinct_two : ∃ (as : List (SystemAction 2)) (s : System 2) (m : Mem × Mem)
    (h : 0 < (s.client.sends 0).length) (h' : 0 < (s.client.sends 1).length),
    (System.machine 2).Run .release (fun _ => System.Networked) as s m ∧ s.client.app.requestId = 2 ∧
    ((s.client.sends 0)[0]).fields.id ≠ ((s.client.sends 1)[0]).fields.id := by
  obtain ⟨as, s, m, r, hmade, hfirst, hsecond⟩ := two_requests
  have h : 0 < (s.client.sends 0).length := by rw [hfirst]; decide
  have h' : 0 < (s.client.sends 1).length := by rw [hsecond]; decide
  obtain ⟨hrequestId, hdistinct⟩ := requests_distinct r
  rw [hmade] at hrequestId hdistinct
  exact ⟨as, s, m, h, h', r, hrequestId, hdistinct (by decide) 0 1 0 0 h h' (by decide)⟩

/-- What the two programs print as `total_recv_cnt_` is what they have received, and they differ
    by at most one message for each connection. -/
theorem counts_messages (h : (System.machine n).Run build (fun _ => System.Networked) as s m) :
    s.server.app.totalRecvCnt = Int64.ofNat (∑ i, (s.server.messages i).length) ∧
    s.client.app.totalRecvCnt = Int64.ofNat (∑ i, (s.client.messages i).length) ∧
    ∑ i, (s.client.messages i).length ≤ ∑ i, (s.server.messages i).length ∧
    ∑ i, (s.server.messages i).length ≤ ∑ i, (s.client.messages i).length + n := by
  have hcounted := run_counted h
  have hconversing := run_conversing h
  refine ⟨hcounted.server.messages, hcounted.client.messages, Finset.sum_le_sum fun i _ => ?_, ?_⟩
  · have hdialogue := (hconversing.exchange i).dialogue
    have hanswers := hdialogue.answers.length_le
    rw [List.length_map] at hanswers
    exact hdialogue.gets.length_le.trans hanswers
  · have hone : ∀ i, (s.server.messages i).length ≤ (s.client.messages i).length + 1 := fun i =>
      (hconversing.exchange i).dialogue.receives.length_le.trans (hconversing.exchange i).dialogue.turn
    have hsum := sum_le_add_card hone
    rwa [Fintype.card_fin] at hsum

theorem counts_messages_one : ∃ (as : List (SystemAction 1)) (s : System 1) (m : Mem × Mem),
    (System.machine 1).Run .release (fun _ => System.Networked) as s m ∧
    s.server.app.totalRecvCnt = 1 ∧ s.client.app.totalRecvCnt = 1 ∧
    ∑ i, (s.server.messages i).length ≤ ∑ i, (s.client.messages i).length + 1 := by
  obtain ⟨as, s, m, r, hserver, hclient, _⟩ := answered
  obtain ⟨hserverCnt, hclientCnt, _, hone⟩ := counts_messages r
  rw [Fin.sum_univ_one, hserver] at hserverCnt
  rw [Fin.sum_univ_one, hclient] at hclientCnt
  exact ⟨as, s, m, r, hserverCnt, hclientCnt, hone⟩

/-- What the two programs print as `connection_cnt_` is how many of their connections are open.
    `connection_cb_` is called at most twice for a connection, and sees `kConnected` first and
    `kDisconnecting` then. -/
theorem counts_connections (h : (System.machine n).Run build (fun _ => System.Networked) as s m) :
    s.server.app.connectionCnt =
      Int32.ofNat (Finset.univ.filter fun i => IsOpen (s.server.world.life i)).card ∧
    s.client.app.connectionCnt =
      Int32.ofNat (Finset.univ.filter fun i => IsOpen (s.client.world.life i)).card ∧
    ∀ i, seen (s.server.world.life i) <+: [.kConnected, .kDisconnecting] ∧
      seen (s.client.world.life i) <+: [.kConnected, .kDisconnecting] := by
  have hcounted := run_counted h
  obtain ⟨_, _, _, hserver⟩ := (run_conversing h).server.sound
  obtain ⟨_, _, _, hclient⟩ := (run_conversing h).client.sound
  exact ⟨hcounted.server.connections, hcounted.client.connections, fun i =>
    ⟨seen_twice (hserver.stage i) (hcounted.server.sees i),
      seen_twice (hclient.stage i) (hcounted.client.sees i)⟩⟩

theorem counts_connections_two : ∃ (as : List (SystemAction 2)) (s : System 2) (m : Mem × Mem),
    (System.machine 2).Run .release (fun _ => System.Networked) as s m ∧
    (s.client.sends 0).length = 1 ∧ (s.client.sends 1).length = 1 ∧
    s.client.app.connectionCnt =
      Int32.ofNat (Finset.univ.filter fun i => IsOpen (s.client.world.life i)).card := by
  obtain ⟨as, s, m, r, _, hfirst, hsecond⟩ := two_requests
  exact ⟨as, s, m, r, by rw [hfirst]; rfl, by rw [hsecond]; rfl, (counts_connections r).2.1⟩

end Runs

end Echo

end Netpp
