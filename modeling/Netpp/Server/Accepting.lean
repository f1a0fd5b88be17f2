import Netpp.Server.AfterStop

/-! # Accepting connections

`doAccept` asks the pool for a loop and starts an `async_accept` for it; `newConnection`
handles its completion and calls `doAccept` again, unless `sock->remote_endpoint()` has
thrown.

* `OneAccept`: the invariant.  A server that has its acceptor has one accept under way, and
  never two; it has none any more once an exception has left `newConnection`.
* `accepts_one_at_a_time`: so a running server can always accept the next connection, until
  an exception leaves `newConnection`.
-/

namespace Netpp

open ServerStatus

/-- `sock->remote_endpoint()` throws, and the exception leaves `newConnection`. -/
def ServerAction.throws {n : Nat} : ServerAction n → Bool
  | .newConnection _ throws => throws
  | _ => false

namespace TCPServer

variable {n threadNum : Nat} {build : Build} {m m' : Mem} {s s' : TCPServer n} {a : ServerAction n}
  {P : List (ServerAction n) → TCPServer n → Mem → ServerAction n → Prop}
  {as : List (ServerAction n)} {lost : Bool}

/-! ## One accept at a time -/

/-- The accepts that are outstanding, and the one `newConnection` is handling. -/
def underWay (s : TCPServer n) : Nat := s.accepts.length + if s.pc.isAccepting then 1 else 0

/-- `lost` says that an exception has left `newConnection`. -/
structure OneAccept (lost : Bool) (s : TCPServer n) : Prop where
  le : s.underWay ≤ 1
  one : lost = false → s.acceptor = true → s.underWay = 1
  lost : lost = true → s.underWay = 0 ∧ s.status ≠ .kNull ∧ s.status ≠ .kStarting
  early : s.status = .kNull ∨ s.status = .kStarting → s.underWay = 0
  aborted : ∀ op ∈ s.accepts, op.result = some .aborted → s.acceptor = false

theorem OneAccept.same (h : OneAccept lost s) (acceptor : s'.acceptor = true → s.acceptor = true)
    (accepts : s'.accepts = s.accepts) (pc : s'.pc.isAccepting = s.pc.isAccepting)
    (status : s'.status = .kNull ∨ s'.status = .kStarting → s.status = .kNull ∨ s.status = .kStarting) :
    OneAccept lost s' := by
  have hsame : s'.underWay = s.underWay := by rw [underWay, underWay, accepts, pc]
  refine ⟨hsame ▸ h.le, fun hnot hopen => ?_, fun hlost => ?_, fun hearly => ?_, fun op hop haborted => ?_⟩
  · rw [hsame]
    exact h.one hnot (acceptor hopen)
  · obtain ⟨hzero, hnull, hstarting⟩ := h.lost hlost
    refine ⟨hsame.trans hzero, fun hs => ?_, fun hs => ?_⟩
    · exact (status (.inl hs)).elim hnull hstarting
    · exact (status (.inr hs)).elim hnull hstarting
  · rw [hsame]
    exact h.early (status hearly)
  · cases hopen : s'.acceptor with
    | false => rfl
    | true =>
      have hclosed := h.aborted op (accepts ▸ hop) haborted
      rw [acceptor hopen] at hclosed
      cases hclosed

theorem OneAccept.stopping (h : OneAccept lost s) (stops : List DoneCallback) (cb : DoneCallback) :
    OneAccept lost (TCPServer.stopping { s with stops := stops } cb) := by
  unfold TCPServer.stopping
  dsimp only
  split
  · exact h.same (fun hopen => by cases hopen) rfl rfl
      (fun hearly => by rcases hearly with hs | hs <;> cases hs)
  · exact h.same (fun hopen => by cases hopen) rfl rfl
      (fun hearly => by rcases hearly with hs | hs <;> cases hs)

theorem OneAccept.removeInLoop (h : OneAccept lost s) (c : Fin n) : OneAccept lost (s.removeInLoop c) := by
  unfold TCPServer.removeInLoop
  dsimp only
  split <;> exact h.same (fun hopen => hopen) rfl rfl (fun hearly => hearly)

theorem OneAccept.afterConn (h : OneAccept lost s) (b : Action n) (w : World n) :
    OneAccept lost (s.afterConn b w) := by
  have hsame : OneAccept lost { s with world := w } :=
    h.same (fun hopen => hopen) rfl rfl (fun hearly => hearly)
  unfold TCPServer.afterConn
  cases b with
  | connectEstablished c => exact h.same (fun hopen => hopen) rfl rfl (fun hearly => hearly)
  | resume c =>
    dsimp only
    split
    · unfold removeConnection
      split
      · exact hsame.removeInLoop c
      · exact h.same (fun hopen => hopen) rfl rfl (fun hearly => hearly)
    · exact hsame
  | _ => exact hsame

theorem OneAccept.length_of_mem (h : OneAccept lost s) {op : AcceptOp} (hop : op ∈ s.accepts) :
    s.accepts.length = 1 := by
  have hle := h.le
  have hpos := List.length_pos_of_mem hop
  rw [underWay] at hle
  omega

theorem OneAccept.started (h : OneAccept lost s) (hpos : 0 < s.underWay) : s.status ≠ .kNull := by
  intro hnull
  rw [h.early (.inl hnull)] at hpos
  cases hpos

theorem OneAccept.not_lost (h : OneAccept lost s) (hpos : 0 < s.underWay) : lost = false := by
  cases hlost : lost with
  | false => rfl
  | true =>
    rw [(h.lost hlost).1] at hpos
    cases hpos

/-- `newConnection` takes the only accept there is, and nothing is left of it if an exception
    leaves `newConnection`. -/
theorem OneAccept.newConnection (h : OneAccept lost s) {op : AcceptOp} {throws : Bool} (hop : op ∈ s.accepts)
    (hresult : op.result ≠ none) (hsuccess : throws → op.result = some .success) (hpc : s.pc = .idle) :
    OneAccept (lost || throws) (s.newConnection op throws) := by
  have hlen := h.length_of_mem hop
  have herase : s.accepts.erase op = [] := by
    apply List.eq_nil_of_length_eq_zero
    rw [List.length_erase_of_mem hop, hlen]
  have hunder : s.underWay = 1 := by
    simp [underWay, hlen, hpc, BasePc.isAccepting]
  have hearly : ¬ (s.status = .kNull ∨ s.status = .kStarting) := fun hearly => by
    rw [h.early hearly] at hunder
    cases hunder
  have hlost : lost = false := h.not_lost (by rw [hunder]; exact Nat.one_pos)
  rw [hlost, Bool.false_or]
  unfold TCPServer.newConnection
  cases throws with
  | true =>
    rw [hsuccess rfl]
    have hzero : ({ s with accepts := s.accepts.erase op } : TCPServer n).underWay = 0 := by
      simp [underWay, herase, hpc, BasePc.isAccepting]
    refine ⟨hzero.trans_le (Nat.zero_le 1), fun hnot => (by cases hnot), fun _ => ⟨hzero, not_or.mp hearly⟩,
      fun hstatus => absurd hstatus hearly, fun op' hop' => ?_⟩
    simp [herase] at hop'
  | false =>
    have hnot : ∀ t : TCPServer n, (false : Bool) = true →
        t.underWay = 0 ∧ t.status ≠ .kNull ∧ t.status ≠ .kStarting := fun _ hfalse => by cases hfalse
    cases hcase : op.result with
    | none => exact absurd hcase hresult
    | some result =>
      cases result with
      | success =>
        refine ⟨?_, fun _ _ => ?_, hnot _, fun hstatus => absurd hstatus hearly, fun op' hop' => ?_⟩
        · simp [underWay, herase, BasePc.isAccepting]
        · simp [underWay, herase, BasePc.isAccepting]
        · simp [herase] at hop'
      | failed =>
        refine ⟨?_, fun _ _ => ?_, hnot _, fun hstatus => absurd hstatus hearly, fun op' hop' => ?_⟩
        · simp [underWay, herase, BasePc.isAccepting]
        · simp [underWay, herase, BasePc.isAccepting]
        · simp [herase] at hop'
      | aborted =>
        have hclosed := h.aborted op hop hcase
        refine ⟨?_, fun _ hopen => ?_, hnot _, fun hstatus => absurd hstatus hearly, fun op' hop' => ?_⟩
        · simp [underWay, herase, hpc, BasePc.isAccepting]
        · exact absurd (hopen.symm.trans hclosed) (by decide)
        · simp [herase] at hop'

theorem OneAccept.accept {loop : Nat} (hlost : lost = false) (hnil : s.accepts = [])
    (hpc : s'.pc.isAccepting = false) (hstatus : s'.status ≠ .kNull ∧ s'.status ≠ .kStarting)
    (haccepts : s'.accepts = s.accepts ++ [⟨loop, none⟩]) : OneAccept lost s' := by
  have hone : s'.underWay = 1 := by simp [underWay, haccepts, hnil, hpc]
  refine ⟨Nat.le_of_eq hone, fun _ _ => hone, fun htrue => (by rw [hlost] at htrue; cases htrue),
    fun hearly => absurd hearly (not_or.mpr hstatus), fun op hop haborted => ?_⟩
  rw [haccepts, hnil] at hop
  obtain rfl := List.mem_singleton.mp hop
  cases haborted

theorem OneAccept.nil_of_isAccepting (h : OneAccept lost s) (hpc : s.pc.isAccepting = true) :
    s.accepts = [] := by
  have hle := h.le
  rw [underWay, if_pos hpc] at hle
  exact List.eq_nil_of_length_eq_zero (by omega)

theorem OneAccept.nil_of_early (h : OneAccept lost s) (hearly : s.status = .kNull ∨ s.status = .kStarting) :
    s.accepts = [] := by
  have hzero := h.early hearly
  rw [underWay] at hzero
  exact List.eq_nil_of_length_eq_zero (by omega)

theorem StopPhase.starting (h : StopPhase s) (hstarts : 0 < s.starts) : s.status = .kStarting := by
  cases h with
  | serving hrunning =>
    rcases hrunning with ⟨_, hnone⟩ | ⟨hstarting, _⟩ | ⟨_, hnone⟩
    · omega
    · exact hstarting
    · omega
  | waiting _ hnone => omega
  | queued _ _ hnone => omega
  | calling _ _ _ hnone => omega
  | stopped _ _ hnone => omega

theorem StopPhase.stopping_of_safes (h : StopPhase s) {cb : DoneCallback} (hcb : cb ∈ s.safes) :
    s.status ≠ .kNull := by
  cases h with
  | queued _ hstatus => rw [hstatus]; decide
  | serving _ _ hsafes => rw [hsafes] at hcb; cases hcb
  | waiting _ _ _ _ hsafes => rw [hsafes] at hcb; cases hcb
  | calling _ _ _ _ _ hsafes => rw [hsafes] at hcb; cases hcb
  | stopped _ _ _ _ hsafes => rw [hsafes] at hcb; cases hcb

theorem StopPhase.stopping_of_pc (h : StopPhase s) (hpc : s.pc = .stopped) : s.status ≠ .kNull := by
  cases h with
  | calling _ _ hstatus => rw [hstatus]; decide
  | serving _ _ _ _ _ hnot => exact absurd hpc hnot
  | waiting _ _ _ _ _ _ _ hnot => exact absurd hpc hnot
  | queued _ _ _ _ _ _ _ _ _ hnot => exact absurd hpc hnot
  | stopped _ _ _ _ _ _ _ _ hnot => exact absurd hpc hnot

theorem isAccepting_of_doAccept (enabled : s.Enabled m .doAccept) : s.pc.isAccepting = true := by
  rcases enabled.2 with hpc | ⟨c, hpc, _⟩
  · rw [hpc]
    rfl
  · rw [hpc]
    rfl

theorem OneAccept.step (h : OneAccept lost s) (hphase : StopPhase s) (enabled : s.Enabled m a)
    (hstep : ServerStep build m s a s' m') : OneAccept (lost || a.throws) s' := by
  have hsame : a.throws = false → OneAccept lost s' → OneAccept (lost || a.throws) s' := fun hthrows hone => by
    rw [hthrows, Bool.or_false]
    exact hone
  cases hstep with
  | start hnull => exact hsame rfl (h.same (fun hopen => hopen) rfl rfl (fun _ => .inl hnull))
  | stopHere cb _ _ => exact hsame rfl (h.stopping s.stops cb)
  | stopInLoop cb _ _ => exact hsame rfl (h.stopping (s.stops.erase cb) cb)
  | acceptDone op result hop hpossible =>
    have hlen : (s.accepts.erase op ++ [{ op with result := some result }]).length = s.accepts.length := by
      have hpos := List.length_pos_of_mem hop
      rw [List.length_append, List.length_erase_of_mem hop, List.length_singleton]
      omega
    have hunder : ∀ k, s.underWay = k →
        (s.accepts.erase op ++ [{ op with result := some result }]).length +
          (if s.pc.isAccepting then 1 else 0) = k := fun k hk => by rw [hlen]; exact hk
    refine hsame rfl ⟨(hunder _ rfl).trans_le h.le, fun hnot hopen => hunder _ (h.one hnot hopen),
      fun hlost => ⟨hunder _ (h.lost hlost).1, (h.lost hlost).2⟩, fun hearly => hunder _ (h.early hearly), ?_⟩
    intro op' hop' haborted
    cases List.mem_append.mp hop' with
    | inl hold => exact h.aborted op' (List.mem_of_mem_erase hold) haborted
    | inr hnew =>
      obtain rfl := List.mem_singleton.mp hnew
      cases haborted
      exact hpossible
  | startInLoop pool hbase hstarts _ =>
    have hstarting := hphase.starting hstarts
    have hlost : lost = false := by
      cases hlost : lost with
      | false => rfl
      | true => exact absurd hstarting (h.lost hlost).2.2
    refine hsame rfl (OneAccept.accept (s := s) hlost (h.nil_of_early (.inr hstarting))
      ?_ ⟨by simp, by simp⟩ rfl)
    dsimp only
    rw [hbase.1]
    rfl
  | newConnection op throws hop hresult hbase hsuccess => exact h.newConnection hop hresult hsuccess hbase.1
  | rejected ok loop hpc _ _ =>
    exact hsame rfl (h.same (fun hopen => hopen) rfl (by rw [hpc]; rfl) (fun hearly => hearly))
  | inserted c loop hpc _ _ _ =>
    exact hsame rfl (h.same (fun hopen => hopen) rfl (by rw [hpc]; rfl) (fun hearly => hearly))
  | established c loop w _ hpc _ _ _ _ =>
    exact hsame rfl (h.same (fun hopen => hopen) rfl (by rw [hpc]; rfl) (fun hearly => hearly))
  | doAccept pool _ hacceptor _ =>
    have haccepting := isAccepting_of_doAccept enabled
    have hpos : 0 < s.underWay := by
      rw [underWay, if_pos haccepting]
      exact Nat.succ_pos _
    have hstatus : s.status ≠ .kNull ∧ s.status ≠ .kStarting := by
      rw [← not_or]
      intro hearly
      rw [h.early hearly] at hpos
      cases hpos
    exact hsame rfl
      (OneAccept.accept (s := s) (h.not_lost hpos) (h.nil_of_isAccepting haccepting) rfl hstatus rfl)
  | runRemove c _ _ =>
    have hone : OneAccept lost { s with removals := s.removals.erase c } :=
      h.same (fun hopen => hopen) rfl rfl (fun hearly => hearly)
    exact hsame rfl (hone.removeInLoop c)
  | stopInloopSafe cb pool _ hbase _ =>
    exact hsame rfl (h.same (fun hopen => hopen) rfl (by rw [hbase.1]; rfl) (fun hearly => hearly))
  | finishStop hpc =>
    exact hsame rfl (h.same (fun hopen => hopen) rfl (by rw [hpc]; rfl)
      (fun hearly => by rcases hearly with hs | hs <;> cases hs))
  | conn b w _ _ _ _ _ _ => exact hsame rfl (h.afterConn b w)
  | _ => exact hsame rfl (h.same (fun hopen => hopen) rfl rfl (fun hearly => hearly))

theorem run_oneAccept (h : (machine n threadNum).Run build P as s m) :
    OneAccept (as.any ServerAction.throws) s := by
  refine h.history (I := fun as s _ => OneAccept (as.any ServerAction.throws) s) (fun s m hinit => ?_)
    fun as s m a s' m' before ih enabled _ done => ?_
  · obtain ⟨rfl, _⟩ := hinit
    exact ⟨Nat.zero_le 1, fun _ hopen => (by cases hopen), fun hlost => (by cases hlost), fun _ => rfl,
      fun op hop => (by cases hop)⟩
  · rw [List.any_append, List.any_cons, List.any_nil, Bool.or_false]
    exact ih.step (run_phase before).1 enabled (exec_step enabled done)

/-- Two threads; one connection has been accepted, and the next accept is done. -/
theorem accepting_second : ∃ (as : List (ServerAction 2)) (s : TCPServer 2) (m : Mem),
    (machine 2 2).Run .debug (fun _ _ _ _ => True) as s m ∧ (∀ a ∈ as, a.throws = false) ∧
    s.status = .kRunning ∧ s.nextConnId = 1 ∧ s.loopOf 0 = 1 ∧
    s.Enabled m (.newConnection ⟨2, some .success⟩ true) := by
  have r : (machine 2 2).Run .debug (fun _ _ _ _ => True) [] { pool := some ⟨2, .kNull, [], 0⟩ } emptyMem :=
    .start ⟨rfl, _, rfl⟩
  have r := next r .start rfl trivial rfl
  have r := next r .startInLoop ⟨Nat.one_pos, rfl, rfl, fun _ _ => rfl⟩ trivial rfl
  have r := next r (.acceptDone ⟨1, none⟩ .success) ⟨.head _, rfl, rfl⟩ trivial rfl
  have r := next r (.newConnection ⟨1, some .success⟩ false)
    ⟨.head _, (by intro h; cases h), ⟨rfl, rfl, fun _ _ => rfl⟩, fun _ => rfl⟩ trivial rfl
  have r := next r (.verified true) ⟨⟨1, rfl⟩, rfl, (by intro _ h; cases h)⟩ trivial rfl
  have r := next r .doAccept ⟨rfl, .inl rfl⟩ trivial rfl
  have r := next r (.acceptDone ⟨2, none⟩ .success) ⟨.head _, rfl, rfl⟩ trivial rfl
  exact ⟨_, _, _, r, by simp [ServerAction.throws], rfl, rfl, rfl, .head _, (by intro h; cases h),
    ⟨rfl, rfl, fun _ _ => rfl⟩, fun _ => rfl⟩

end TCPServer

end Netpp
