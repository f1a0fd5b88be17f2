import Netpp.Lib.RoundRobin
import Netpp.Server.Accepting

/-! # The loops of the connections

`doAccept` starts each accept for the loop whose turn it is, and the connection the accept
comes to runs on that loop.

* `Spread`: the invariant.  The accepts that have come to a connection or to nothing have
  been dealt to the loops in turn.
* `spreads_connections`: the connections are spread evenly over the loops of the pool, as
  long as `next_` has not wrapped around.
-/

namespace Netpp

open Function (update)
open ServerStatus

namespace TCPServer

variable {n threadNum : Nat} {build : Build} {m m' : Mem} {s s' : TCPServer n} {a : ServerAction n}
  {P : List (ServerAction n) → TCPServer n → Mem → ServerAction n → Prop}
  {as : List (ServerAction n)}

/-! ## Turns of the loops -/

/-- The loop that is asked for `k`-th, in a pool of `t` threads. -/
def loopAt (t k : Nat) : Nat := if t = 0 then 0 else RoundRobin.party (2 ^ 64) t k + 1

/-- `next_` after `k` calls of `getNextLoop`. -/
def counter (k : Nat) : Int := signedWord 64 (k % 2 ^ 64)

theorem getNextLoop_eq {pool : EventLoopThreadPool} {t k : Nat} (hstatus : pool.status = .kRunning)
    (hthreads : pool.threads.length = t) (hnext : 0 < t → pool.next = counter k) :
    pool.getNextLoop.1 = loopAt t k ∧ pool.getNextLoop.2.status = .kRunning ∧
    pool.getNextLoop.2.threads.length = t ∧ (0 < t → pool.getNextLoop.2.next = counter (k + 1)) := by
  unfold EventLoopThreadPool.getNextLoop loopAt
  cases hlist : pool.threads with
  | nil =>
    have hzero : t = 0 := by rw [← hthreads, hlist]; rfl
    simp [hstatus, hzero, hlist]
  | cons status rest =>
    have hne : t ≠ 0 := by rw [← hthreads, hlist]; simp
    have hword : unsignedWord 64 pool.next = k % 2 ^ 64 := by
      rw [hnext (Nat.pos_of_ne_zero hne), counter, unsignedWord_signedWord (Nat.mod_lt _ (by decide))]
    have hloop : unsignedWord 64 (signedWord 64 (k % 2 ^ 64 % t)) = k % 2 ^ 64 % t :=
      unsignedWord_signedWord ((Nat.mod_le _ _).trans_lt (Nat.mod_lt _ (by decide)))
    rw [hlist] at hthreads
    rw [if_pos ⟨hstatus, List.cons_ne_nil _ _⟩, if_neg hne, hthreads, hword]
    refine ⟨congrArg (· + 1) hloop, hstatus, rfl, fun ht => ?_⟩
    show signedWord 64 (unsignedWord 64 (pool.next + 1)) = counter (k + 1)
    rw [hnext ht, counter, counter, unsignedWord_signedWord_succ]

def onLoop (s : TCPServer n) (loop : Nat) : Finset (Fin n) :=
  Finset.univ.filter fun c => c.val < s.nextConnId ∧ s.loopOf c = loop

/-- An accept that comes to nothing. -/
def Wasted : ServerAction n → Bool
  | .newConnection op throws => op.result != some .success || throws
  | .verified ok => !ok
  | _ => false

def Asks : ServerAction n → Bool
  | .startInLoop | .doAccept => true
  | _ => false

def inHand (s : TCPServer n) : Nat :=
  s.accepts.length + match s.pc with
    | .verifying _ => 1
    | _ => 0

/-- Each of the first `settled` accepts has come to a connection on its loop, or to nothing;
    the next one is for the loop whose turn it is. -/
structure Spread (t : Nat) (as : List (ServerAction n)) (s : TCPServer n) (settled : Nat)
    (waste : Nat → Nat) : Prop where
  before : s.status = .kNull → s.pool = some ⟨t, .kNull, [], 0⟩ ∧ settled = 0
  pool : s.status ≠ .kNull → ∀ pool, s.pool = some pool →
    pool.status = .kRunning ∧ pool.threads.length = t ∧ (0 < t → pool.next = counter (settled + s.inHand))
  accepts : ∀ op ∈ s.accepts, op.loop = loopAt t settled
  verifying : ∀ loop, s.pc = .verifying loop → loop = loopAt t settled
  loops : ∀ c : Fin n, c.val < s.nextConnId → ∃ k, s.loopOf c = loopAt t k
  turns : ∀ i, i < t → RoundRobin.turns (2 ^ 64) t settled i = (s.onLoop (i + 1)).card + waste i
  wasted : ∀ i, waste i ≤ as.countP Wasted
  asked : settled + s.inHand ≤ as.countP Asks

/-- Nothing that has to do with accepting is different. -/
structure Aside (s s' : TCPServer n) : Prop where
  status : s'.status = .kNull ↔ s.status = .kNull
  pool : s'.pool = s.pool ∨ s'.pool = none ∧ s.status ≠ .kNull
  accepts : s'.accepts = s.accepts
  pc : s'.pc = s.pc ∨ s.pc.isAccepting = false ∧ s'.pc.isAccepting = false
  next : s'.nextConnId = s.nextConnId
  loopOf : s'.loopOf = s.loopOf

theorem Aside.verifying (h : Aside s s') {loop : Nat} (hpc : s'.pc = .verifying loop) :
    s.pc = .verifying loop := by
  cases h.pc with
  | inl hsame => rw [← hsame, hpc]
  | inr hidle =>
    rw [hpc] at hidle
    cases hidle.2

theorem Aside.inHand (h : Aside s s') : s'.inHand = s.inHand := by
  unfold TCPServer.inHand
  rw [h.accepts]
  congr 1
  rcases h.pc with hsame | ⟨hold, hnew⟩
  · rw [hsame]
  · cases hs : s.pc <;> cases hs' : s'.pc <;> simp [hs, hs', BasePc.isAccepting] at hold hnew ⊢

theorem Spread.wasted_append {t settled : Nat} {waste : Nat → Nat} (h : Spread t as s settled waste) (i : Nat) :
    waste i ≤ (as ++ [a]).countP Wasted := by
  rw [List.countP_append]
  exact Nat.le_add_right_of_le (h.wasted i)

theorem Spread.asked_append {t settled k : Nat} {waste : Nat → Nat} (h : Spread t as s settled waste)
    (hle : k ≤ settled + s.inHand) : k ≤ (as ++ [a]).countP Asks := by
  rw [List.countP_append]
  exact Nat.le_add_right_of_le (hle.trans h.asked)

theorem Spread.same {t settled : Nat} {waste : Nat → Nat} (h : Spread t as s settled waste)
    (aside : Aside s s') : Spread t (as ++ [a]) s' settled waste := by
  have hloop : ∀ loop, s'.onLoop loop = s.onLoop loop := fun loop => by
    rw [onLoop, onLoop, aside.next, aside.loopOf]
  refine ⟨fun hnull => ?_, fun hstarted p hp => ?_, ?_,
    fun loop hpc => h.verifying loop (aside.verifying hpc), ?_,
    fun i hi => ?_, h.wasted_append, h.asked_append (by rw [aside.inHand])⟩
  · have hnull' := aside.status.mp hnull
    rcases aside.pool with hpool | ⟨_, hnot⟩
    · rw [hpool]
      exact h.before hnull'
    · exact absurd hnull' hnot
  · rw [aside.inHand]
    rcases aside.pool with hpool | ⟨hnone, _⟩
    · exact h.pool (fun hnull => hstarted (aside.status.mpr hnull)) p (hpool ▸ hp)
    · rw [hnone] at hp
      cases hp
  · rw [aside.accepts]
    exact h.accepts
  · rw [aside.next, aside.loopOf]
    exact h.loops
  · rw [hloop]
    exact h.turns i hi

theorem removeInLoop_aside (s : TCPServer n) (c : Fin n) : Aside s (s.removeInLoop c) := by
  unfold removeInLoop
  dsimp only
  split <;> exact ⟨Iff.rfl, .inl rfl, rfl, .inl rfl, rfl, rfl⟩

theorem afterConn_aside (s : TCPServer n) (b : Action n) (w : World n) : Aside s (s.afterConn b w) := by
  unfold afterConn
  cases b with
  | resume c =>
    dsimp only
    split
    · unfold removeConnection
      split
      · have haside := removeInLoop_aside { s with world := w } c
        exact ⟨haside.status, haside.pool, haside.accepts, haside.pc, haside.next, haside.loopOf⟩
      · exact ⟨Iff.rfl, .inl rfl, rfl, .inl rfl, rfl, rfl⟩
    · exact ⟨Iff.rfl, .inl rfl, rfl, .inl rfl, rfl, rfl⟩
  | _ => exact ⟨Iff.rfl, .inl rfl, rfl, .inl rfl, rfl, rfl⟩

theorem stopping_aside (stops : List DoneCallback) (cb : DoneCallback) (hstatus : s.status ≠ .kNull) :
    Aside s (stopping { s with stops := stops } cb) := by
  have hnull : Status.kStopping = .kNull ↔ s.status = .kNull := iff_of_false (by decide) hstatus
  unfold stopping
  dsimp only
  split <;> exact ⟨hnull, .inl rfl, rfl, .inl rfl, rfl, rfl⟩

theorem turns_settled {t i : Nat} (settled : Nat) (ht : 0 < t) :
    RoundRobin.turns (2 ^ 64) t (settled + 1) i =
      RoundRobin.turns (2 ^ 64) t settled i + if loopAt t settled = i + 1 then 1 else 0 := by
  rw [RoundRobin.turns_succ, loopAt, if_neg (Nat.ne_of_gt ht)]
  simp only [Nat.add_right_cancel_iff]

theorem Spread.accept {t settled : Nat} {waste : Nat → Nat} (h : Spread t as s settled waste)
    {pool : EventLoopThreadPool} (hpool : s.pool = some pool) (hstatus : s.status ≠ .kNull)
    (hnil : s.accepts = []) (hpc : s.pc.isAccepting = false ∨ ∀ loop, s.pc ≠ .verifying loop)
    (status : s'.status ≠ .kNull) (pool' : s'.pool = some pool.getNextLoop.2)
    (accepts : s'.accepts = s.accepts ++ [⟨pool.getNextLoop.1, none⟩]) (pc : s'.pc = .idle)
    (next : s'.nextConnId = s.nextConnId) (loopOf : s'.loopOf = s.loopOf) (asks : Asks a = true) :
    Spread t (as ++ [a]) s' settled waste := by
  obtain ⟨hrunning, hthreads, hnext⟩ := h.pool hstatus pool hpool
  have hhand : s.inHand = 0 := by
    rw [inHand, hnil]
    cases hs : s.pc with
    | verifying loop =>
      rcases hpc with hnot | hnot
      · rw [hs] at hnot; cases hnot
      · exact absurd hs (hnot loop)
    | _ => rfl
  have hhand' : s'.inHand = 1 := by
    simp [inHand, accepts, hnil, pc]
  rw [hhand, Nat.add_zero] at hnext
  obtain ⟨hloop, hrunning', hthreads', hnext'⟩ := getNextLoop_eq hrunning hthreads hnext
  refine ⟨fun hnull => absurd hnull status, fun _ p hp => ?_, fun op hop => ?_, fun loop hverifying => ?_, ?_,
    fun i hi => ?_, h.wasted_append, ?_⟩
  · rw [pool'] at hp
    cases hp
    rw [hhand']
    exact ⟨hrunning', hthreads', hnext'⟩
  · rw [accepts, hnil] at hop
    obtain rfl := List.mem_singleton.mp hop
    exact hloop
  · rw [pc] at hverifying
    cases hverifying
  · rw [next, loopOf]
    exact h.loops
  · rw [onLoop, next, loopOf]
    exact h.turns i hi
  · have hasked := h.asked
    rw [List.countP_append, List.countP_singleton, if_pos asks, hhand']
    omega

theorem Spread.waste {t settled : Nat} {waste : Nat → Nat} (h : Spread t as s settled waste)
    (hhand : s.inHand = 1) (hstatus : s.status ≠ .kNull) (ha : Wasted a = true)
    (status : s'.status = s.status) (pool : s'.pool = s.pool) (accepts : s'.accepts = [])
    (pc : ∀ loop, s'.pc ≠ .verifying loop) (next : s'.nextConnId = s.nextConnId)
    (loopOf : s'.loopOf = s.loopOf) :
    Spread t (as ++ [a]) s' (settled + 1)
      (fun i => waste i + if loopAt t settled = i + 1 then 1 else 0) := by
  have hhand' : s'.inHand = 0 := by
    rw [inHand, accepts]
    cases hs : s'.pc with
    | verifying loop => exact absurd hs (pc loop)
    | _ => rfl
  refine ⟨fun hnull => absurd (status ▸ hnull) hstatus, fun _ p hp => ?_, fun op hop => ?_,
    fun loop hverifying => absurd hverifying (pc loop), ?_, fun i hi => ?_, fun i => ?_,
    h.asked_append (by rw [hhand, hhand'])⟩
  · obtain ⟨hrunning, hthreads, hnext⟩ := h.pool hstatus p (pool ▸ hp)
    refine ⟨hrunning, hthreads, fun ht => ?_⟩
    rw [hnext ht, hhand, hhand', Nat.add_zero]
  · rw [accepts] at hop
    cases hop
  · rw [next, loopOf]
    exact h.loops
  · rw [turns_settled settled (Nat.zero_lt_of_lt hi), h.turns i hi, onLoop, onLoop, next, loopOf, Nat.add_assoc]
  · have hwasted := h.wasted i
    rw [List.countP_append, List.countP_singleton, if_pos ha]
    split <;> omega

theorem card_onLoop_insert {c : Fin n} {loop : Nat} (next : c.val = s.nextConnId)
    (hnext : s'.nextConnId = s.nextConnId + 1) (hloopOf : s'.loopOf = update s.loopOf c loop) (l : Nat) :
    (s'.onLoop l).card = (s.onLoop l).card + if loop = l then 1 else 0 := by
  have hnew : c ∉ s.onLoop l := by simp [onLoop, next]
  have hmem : ∀ d : Fin n, d ∈ s'.onLoop l ↔ d ∈ s.onLoop l ∨ d = c ∧ loop = l := fun d => by
    simp only [onLoop, Finset.mem_filter, Finset.mem_univ, true_and, hnext, hloopOf]
    by_cases hd : d = c
    · subst hd
      simp [next]
    · have hval : d.val ≠ s.nextConnId := fun heq => hd (Fin.ext (heq.trans next.symm))
      rw [Function.update_of_ne hd]
      simp only [hd, false_and, or_false]
      constructor
      · exact fun h => ⟨by omega, h.2⟩
      · exact fun h => ⟨by omega, h.2⟩
  by_cases hl : loop = l
  · have heq : s'.onLoop l = Insert.insert c (s.onLoop l) := by
      ext d
      rw [hmem, Finset.mem_insert, or_comm]
      simp [hl]
    rw [heq, Finset.card_insert_of_notMem hnew, if_pos hl]
  · have heq : s'.onLoop l = s.onLoop l := by
      ext d
      rw [hmem]
      simp [hl]
    rw [heq, if_neg hl, Nat.add_zero]

theorem Spread.connect {t settled : Nat} {waste : Nat → Nat} (h : Spread t as s settled waste)
    {c : Fin n} {loop : Nat} (hpc : s.pc = .verifying loop) (hnil : s.accepts = [])
    (hstatus : s.status ≠ .kNull) (hc : c.val = s.nextConnId) (status : s'.status = s.status)
    (pool : s'.pool = s.pool) (accepts : s'.accepts = s.accepts) (pc : ∀ loop, s'.pc ≠ .verifying loop)
    (next : s'.nextConnId = s.nextConnId + 1) (loopOf : s'.loopOf = update s.loopOf c loop) :
    Spread t (as ++ [a]) s' (settled + 1) waste := by
  have hloop := h.verifying loop hpc
  have hhand : s.inHand = 1 := by simp [inHand, hnil, hpc]
  have hhand' : s'.inHand = 0 := by
    rw [inHand, accepts, hnil]
    cases hs : s'.pc with
    | verifying loop => exact absurd hs (pc loop)
    | _ => rfl
  refine ⟨fun hnull => absurd (status ▸ hnull) hstatus, fun _ p hp => ?_, fun op hop => ?_,
    fun loop hverifying => absurd hverifying (pc loop), fun d hd => ?_, fun i hi => ?_, h.wasted_append,
    h.asked_append (by rw [hhand, hhand'])⟩
  · obtain ⟨hrunning, hthreads, hnext⟩ := h.pool hstatus p (pool ▸ hp)
    refine ⟨hrunning, hthreads, fun ht => ?_⟩
    rw [hnext ht, hhand, hhand', Nat.add_zero]
  · rw [accepts, hnil] at hop
    cases hop
  · rw [loopOf]
    by_cases hdc : d = c
    · subst hdc
      rw [Function.update_self]
      exact ⟨settled, hloop⟩
    · have hval : d.val ≠ s.nextConnId := fun heq => hdc (Fin.ext (heq.trans hc.symm))
      rw [Function.update_of_ne hdc]
      exact h.loops d (by omega)
  · rw [turns_settled settled (Nat.zero_lt_of_lt hi), h.turns i hi, card_onLoop_insert hc next loopOf, hloop]
    omega

theorem Spread.start {t settled : Nat} {waste : Nat → Nat} (h : Spread t as s settled waste)
    (hnull : s.status = .kNull) (hnil : s.accepts = []) (hpc : ∀ loop, s.pc ≠ .verifying loop) :
    Spread t (as ++ [a])
      { s with status := .kStarting, pool := s.pool.map .start, starts := s.starts + 1 } settled waste := by
  obtain ⟨hpool, hsettled⟩ := h.before hnull
  have hhand : s.inHand = 0 := by
    rw [inHand, hnil]
    cases hs : s.pc with
    | verifying loop => exact absurd hs (hpc loop)
    | _ => rfl
  refine ⟨fun hearly => (by cases hearly), fun _ p hp => ?_, h.accepts, h.verifying, h.loops, h.turns,
    h.wasted_append, h.asked_append (Nat.le_refl _)⟩
  simp only [hpool, Option.map_some, Option.some.injEq] at hp
  subst hp
  refine ⟨rfl, by simp [EventLoopThreadPool.start], fun _ => ?_⟩
  show (0 : Int) = counter (settled + s.inHand)
  rw [hsettled, hhand]
  rfl

/-- `newConnection` of an accept that failed or was aborted is the end of it, and so is an
    exception that leaves `newConnection`. -/
theorem Spread.newConnection {t settled : Nat} {waste : Nat → Nat} {lost : Bool}
    (h : Spread t as s settled waste)
    (hone : OneAccept lost s) {op : AcceptOp} {throws : Bool} (hop : op ∈ s.accepts)
    (hresult : op.result ≠ none)
    (hsuccess : throws → op.result = some .success) (hpc : s.pc = .idle) :
    ∃ settled waste, Spread t (as ++ [.newConnection op throws]) (s.newConnection op throws) settled waste := by
  have hlen : s.accepts.length = 1 := hone.length_of_mem hop
  have herase : s.accepts.erase op = [] := by
    apply List.eq_nil_of_length_eq_zero
    rw [List.length_erase_of_mem hop, hlen]
  have hhand : s.inHand = 1 := by simp [inHand, hlen, hpc]
  have hstatus := hone.started (by rw [underWay, hlen]; omega)
  have hidle : ∀ loop, s.pc ≠ .verifying loop := fun loop hverifying => by
    rw [hpc] at hverifying
    cases hverifying
  unfold TCPServer.newConnection
  cases throws with
  | true =>
    rw [hsuccess rfl]
    exact ⟨settled + 1, _, h.waste hhand hstatus (by simp [Wasted]) rfl rfl herase hidle rfl rfl⟩
  | false =>
    cases hcase : op.result with
    | none => exact absurd hcase hresult
    | some result =>
      cases result with
      | success =>
        have hhand' : ({ s with accepts := s.accepts.erase op, pc := .verifying op.loop } :
            TCPServer n).inHand = 1 := by
          simp [inHand, herase]
        refine ⟨settled, waste, h.before, fun hstarted p hp => ?_,
          fun op' hop' => ?_, fun loop hverifying => ?_,
          h.loops, h.turns, h.wasted_append, h.asked_append (by rw [hhand, hhand'])⟩
        · obtain ⟨hrunning, hthreads, hnext⟩ := h.pool hstarted p hp
          rw [hhand] at hnext
          rw [hhand']
          exact ⟨hrunning, hthreads, hnext⟩
        · simp [herase] at hop'
        · cases hverifying
          exact h.accepts op hop
      | failed =>
        exact ⟨settled + 1, _, h.waste hhand hstatus (by simp [Wasted, hcase]) rfl rfl herase
          (fun loop hverifying => by cases hverifying) rfl rfl⟩
      | aborted =>
        exact ⟨settled + 1, _, h.waste hhand hstatus (by simp [Wasted, hcase]) rfl rfl herase hidle rfl rfl⟩

theorem Spread.step {t settled : Nat} {waste : Nat → Nat} (h : Spread t as s settled waste)
    {lost : Bool} (hone : OneAccept lost s) (hphase : StopPhase s) (enabled : s.Enabled m a)
    (hstep : ServerStep build m s a s' m') : ∃ settled waste, Spread t (as ++ [a]) s' settled waste := by
  have hopen : s.acceptor = true → s.status ≠ .kNull := fun hacceptor => by
    rw [(hphase.of_acceptor hacceptor).1]
    decide
  cases hstep with
  | start hnull =>
    refine ⟨settled, waste, h.start hnull (hone.nil_of_early (.inl hnull)) fun loop hpc => ?_⟩
    have hzero := hone.early (.inl hnull)
    simp [underWay, hpc, BasePc.isAccepting] at hzero
  | stopHere cb _ hacceptor => exact ⟨settled, waste, h.same (stopping_aside s.stops cb (hopen hacceptor))⟩
  | stopInLoop cb _ hacceptor =>
    exact ⟨settled, waste, h.same (stopping_aside (s.stops.erase cb) cb (hopen hacceptor))⟩
  | acceptDone op result hop hpossible =>
    have hlen : (s.accepts.erase op ++ [{ op with result := some result }]).length = s.accepts.length := by
      have hpos := List.length_pos_of_mem hop
      rw [List.length_append, List.length_erase_of_mem hop, List.length_singleton]
      omega
    have hhand : inHand { s with accepts := s.accepts.erase op ++ [{ op with result := some result }] } =
        s.inHand := by
      rw [inHand, inHand, hlen]
    refine ⟨settled, waste, h.before, fun hstarted p hp => ?_, fun op' hop' => ?_, h.verifying, h.loops,
      h.turns, h.wasted_append, h.asked_append (by rw [hhand])⟩
    · rw [hhand]
      exact h.pool hstarted p hp
    · cases List.mem_append.mp hop' with
      | inl hold => exact h.accepts op' (List.mem_of_mem_erase hold)
      | inr hnew =>
        obtain rfl := List.mem_singleton.mp hnew
        exact h.accepts op hop
  | startInLoop pool hbase hstarts hpool =>
    have hstatus := hphase.starting hstarts
    exact ⟨settled, waste, h.accept hpool (by rw [hstatus]; decide) (hone.nil_of_early (.inr hstatus))
      (.inl (by rw [hbase.1]; rfl)) (by simp) rfl rfl hbase.1 rfl rfl rfl⟩
  | newConnection op throws hop hresult hbase hsuccess =>
    exact h.newConnection hone hop hresult hsuccess hbase.1
  | rejected ok loop hpc _ hno =>
    have haccepting : s.pc.isAccepting = true := by rw [hpc]; rfl
    have hnil := hone.nil_of_isAccepting haccepting
    have hstatus := hone.started (by rw [underWay, if_pos haccepting]; omega)
    exact ⟨settled + 1, _, h.waste (by simp [inHand, hnil, hpc]) hstatus (by simp [Wasted, hno]) rfl rfl hnil
      (fun loop hverifying => by cases hverifying) rfl rfl⟩
  | inserted c loop hpc _ hc hio =>
    have haccepting : s.pc.isAccepting = true := by rw [hpc]; rfl
    have hstatus := hone.started (by rw [underWay, if_pos haccepting]; omega)
    exact ⟨settled + 1, waste, h.connect hpc (hone.nil_of_isAccepting haccepting) hstatus hc rfl rfl rfl
      (fun loop hverifying => by cases hverifying) rfl rfl⟩
  | established c loop w _ hpc _ hc hbase _ =>
    have haccepting : s.pc.isAccepting = true := by rw [hpc]; rfl
    have hstatus := hone.started (by rw [underWay, if_pos haccepting]; omega)
    exact ⟨settled + 1, waste, h.connect hpc (hone.nil_of_isAccepting haccepting) hstatus hc rfl rfl rfl
      (fun loop hverifying => by cases hverifying) rfl rfl⟩
  | doAccept pool hpool hacceptor _ =>
    have haccepting := isAccepting_of_doAccept enabled
    have hpc : ∀ loop, s.pc ≠ .verifying loop := fun loop hverifying => by
      rcases enabled.2 with hpc | ⟨c, hpc, _⟩ <;> rw [hpc] at hverifying <;> cases hverifying
    exact ⟨settled, waste, h.accept hpool (hopen hacceptor) (hone.nil_of_isAccepting haccepting) (.inr hpc)
      (hopen hacceptor) rfl rfl rfl rfl rfl rfl⟩
  | runRemove c _ _ =>
    have haside := removeInLoop_aside { s with removals := s.removals.erase c } c
    exact ⟨settled, waste, h.same ⟨haside.status, haside.pool, haside.accepts, haside.pc, haside.next,
      haside.loopOf⟩⟩
  | stopInloopSafe cb pool hcb hbase _ =>
    have hstatus : s.status ≠ .kNull := hphase.stopping_of_safes hcb
    exact ⟨settled, waste, h.same ⟨Iff.rfl, .inr ⟨rfl, hstatus⟩, rfl,
      .inr ⟨by rw [hbase.1]; rfl, rfl⟩, rfl, rfl⟩⟩
  | finishStop hpc =>
    have hstatus : s.status ≠ .kNull := hphase.stopping_of_pc hpc
    exact ⟨settled, waste, h.same ⟨iff_of_false (by simp) hstatus, .inl rfl, rfl,
      .inr ⟨by rw [hpc]; rfl, rfl⟩, rfl, rfl⟩⟩
  | conn b w _ _ _ _ _ _ => exact ⟨settled, waste, h.same (afterConn_aside s b w)⟩
  | _ => exact ⟨settled, waste, h.same ⟨Iff.rfl, .inl rfl, rfl, .inl rfl, rfl, rfl⟩⟩

theorem run_spread (h : (machine n threadNum).Run build P as s m) :
    ∃ settled waste, Spread threadNum as s settled waste := by
  refine h.history (I := fun as s _ => ∃ settled waste, Spread threadNum as s settled waste)
    (fun s m hinit => ?_) fun as s m a s' m' before ih enabled _ done => ?_
  · obtain ⟨rfl, _⟩ := hinit
    refine ⟨0, fun _ => 0, fun _ => ⟨rfl, rfl⟩, fun hstarted => absurd rfl hstarted, fun op hop => ?_,
      fun loop hpc => ?_, fun c hc => ?_, fun i _ => ?_, fun _ => Nat.zero_le _, Nat.le_refl _⟩
    · cases hop
    · cases hpc
    · cases hc
    · simp [onLoop]
  · obtain ⟨settled, waste, hspread⟩ := ih
    exact hspread.step (run_oneAccept before) (run_phase before).1 enabled (exec_step enabled done)

/-- In every run a connection runs on the base loop only if the pool has no threads, and the
    numbers of connections that have been accepted for any two threads differ by one at most,
    and by one more for each accept that came to nothing and for each time `next_` has wrapped
    around. -/
theorem spreads_connections (h : (machine n threadNum).Run build P as s m) :
    (∀ c : Fin n, c.val < s.nextConnId →
      if threadNum = 0 then s.loopOf c = 0 else 1 ≤ s.loopOf c ∧ s.loopOf c ≤ threadNum) ∧
    ∀ i j, i < threadNum → j < threadNum →
      (s.onLoop (i + 1)).card ≤
        (s.onLoop (j + 1)).card + as.countP Wasted + as.countP Asks / 2 ^ 64 + 1 := by
  obtain ⟨settled, waste, hspread⟩ := run_spread h
  refine ⟨fun c hc => ?_, fun i j hi hj => ?_⟩
  · obtain ⟨k, hk⟩ := hspread.loops c hc
    rw [hk, loopAt]
    split
    · rfl
    · rename_i hne
      have hlt : RoundRobin.party (2 ^ 64) threadNum k < threadNum := Nat.mod_lt _ (Nat.pos_of_ne_zero hne)
      exact ⟨Nat.le_add_left 1 _, hlt⟩
  · have hturns := RoundRobin.turns_le (2 ^ 64) hi hj settled
    rw [hspread.turns i hi, hspread.turns j hj] at hturns
    have hwasted := hspread.wasted j
    have hwraps : settled / 2 ^ 64 ≤ as.countP Asks / 2 ^ 64 :=
      Nat.div_le_div_right (Nat.le_of_add_right_le hspread.asked)
    omega

theorem spreads_connections_second : ∃ (as : List (ServerAction 2)) (s : TCPServer 2) (m : Mem),
    (machine 2 2).Run .debug (fun _ _ _ _ => True) as s m ∧ s.loopOf 0 = 1 ∧
    (s.onLoop 1).card ≤ (s.onLoop 2).card + as.countP Wasted + as.countP Asks / 2 ^ 64 + 1 := by
  obtain ⟨as, s, m, r, _, _, _, hloop, _⟩ := accepting_second
  exact ⟨as, s, m, r, hloop, (spreads_connections r).2 0 1 (by decide) (by decide)⟩

end TCPServer

end Netpp
