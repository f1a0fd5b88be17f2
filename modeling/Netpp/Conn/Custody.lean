import Netpp.Conn.Lifecycle
import Netpp.Conn.Sending

/-! # Who holds which piece

`World.Custody` is the ownership invariant of the whole system: every piece that
is handed out is in one buffer, in one operation in flight, in one posted task, or
in `lost`, the pieces nobody will give back.

* `Custody.focus`: the frame rule for one buffer and one connection.
* `exec_custody`: what a step of the system does to the invariant, to the pieces
  that are lost, and to the outgoing bytes of every connection.
-/

namespace Netpp

open TCPConn
open Function (update)

theorem BufferOp.apply_of_notMem {ι : Type} [DecidableEq ι] {op : BufferOp ι} {d : ι → Bytes} {i : ι}
    (h : i ∉ op.names) : (op.apply d).2 i = d i := by
  cases op with
  | reservedPrepend j len => rfl
  | readBuffer j len l =>
    simp only [names, List.mem_cons, List.not_mem_nil, or_false, not_or] at h
    simp only [apply, Function.update_of_ne h.1, Function.update_of_ne h.2]
  | swap j l =>
    simp only [names, List.mem_cons, List.not_mem_nil, or_false, not_or] at h
    simp only [apply, Function.update_of_ne h.1, Function.update_of_ne h.2]
  | _ =>
    simp only [names, List.mem_singleton] at h
    simp only [apply, appendBytes, prependBytes, takeBytes, takeInt, Function.update_of_ne h]

@[simp] theorem BufferOp.names_actual {ι : Type} (op : BufferOp ι) (m : Mem) (bufs : ι → Buffer) :
    (op.actual m bufs).names = op.names := by
  cases op <;> rfl

theorem BufferOp.run_of_notMem {ι : Type} [DecidableEq ι] {op : BufferOp ι} {bufs : ι → Buffer}
    {build : Build} {m : Mem} {i : ι} (h : i ∉ op.names) :
    (op.run bufs).wlp build m fun r _ => r.2 i = bufs i := by
  cases op with
  | readBuffer j len l =>
    simp only [names, List.mem_cons, List.not_mem_nil, or_false, not_or] at h
    simp only [run, Prog.wlp_bind, Prog.wlp_pure, Function.update_of_ne h.1, Function.update_of_ne h.2]
    exact fun _ _ _ => trivial
  | swap j l =>
    simp only [names, List.mem_cons, List.not_mem_nil, or_false, not_or] at h
    simp only [run, Prog.wlp_pure, Function.update_of_ne h.1, Function.update_of_ne h.2]
  | _ =>
    simp only [names, List.mem_singleton] at h
    simp only [run, runUnit, runBytes, runInt, runOn, Prog.wlp_bind, Prog.wlp_pure,
      Function.update_of_ne h]
    try exact fun _ _ _ => trivial

namespace World

variable {n : Nat}

def held (w : World n) : List Ptr := (List.finRange n).flatMap fun c => (w.flow c).held

/-- The pieces handed out are those of the buffers, with the chains `chain`, those
    the connections hold, and `lost`.  `length_` is the number of bytes of the output buffers,
    which the application does not reach. -/
structure Custody (w : World n) (m : Mem) (chain : BufferId n → List Ptr) (lost : List Ptr)
    (k : Nat) : Prop where
  chains : Chains m w.bufs chain (w.held ++ lost) k
  exact : ∀ c, (w.bufs (.output c)).length = (content m (chain (.output c))).length
  ready : ∀ c, (w.flow c).Ready m

def outgoing (w : World n) (m : Mem) (chain : BufferId n → List Ptr) (c : Fin n) : Outgoing :=
  (w.flow c).outgoing m (chain (.output c))

variable {w : World n} {m m' : Mem} {chain : BufferId n → List Ptr} {lost : List Ptr} {k : Nat}
  {c : Fin n} {i : BufferId n}

theorem Custody.initial (cell : Ptr → Piece) :
    Custody ({} : World n) { cell := cell } (fun _ => []) [] 0 := by
  have hheld : (({} : World n).held ++ []) = [] := by simp [held, Flow.held]
  refine ⟨?_, fun _ => rfl, fun c => ⟨?_, ?_, ?_, ?_⟩⟩
  · rw [hheld]
    exact (Family.initial cell).toChains
  · exact fun op hop => by cases hop
  · exact fun op hop => by cases hop
  · exact fun t ht => by cases ht
  · exact fun t ht => by cases ht

theorem Custody.rep (h : Custody w m chain lost k) (c : Fin n) :
    (w.bufs (.output c)).Rep m (chain (.output c)) := ⟨h.chains.holds _, h.exact c⟩

theorem held_perm (w : World n) (c : Fin n) :
    w.held.Perm ((w.flow c).held ++ ((List.finRange n).erase c).flatMap fun d => (w.flow d).held) :=
  flatMap_perm_erase (List.mem_finRange c)

theorem held_setFlow_perm (w : World n) (c : Fin n) (f : Flow) :
    (w.setFlow c f).held.Perm
      (f.held ++ ((List.finRange n).erase c).flatMap fun d => (w.flow d).held) := by
  have hperm := (w.setFlow c f).held_perm c
  have hself : (w.setFlow c f).flow c = f := Function.update_self ..
  have hothers : (((List.finRange n).erase c).flatMap fun d => ((w.setFlow c f).flow d).held) =
      ((List.finRange n).erase c).flatMap fun d => (w.flow d).held := by
    apply List.flatMap_congr
    intro d hd
    have hne : d ≠ c := fun e => (List.nodup_finRange n).not_mem_erase (e ▸ hd)
    show (update w.flow c f d).held = _
    rw [Function.update_of_ne hne]
  rwa [hself, hothers] at hperm

/-- The frame of one buffer and one connection: everything else. -/
structure Focus (w : World n) (m : Mem) (chain : BufferId n → List Ptr) (lost : List Ptr) (k : Nat)
    (i : BufferId n) (c : Fin n) (rest : List Ptr) : Prop where
  owns : Owns m (chain i ++ ((w.flow c).held ++ (lost ++ rest))) k
  bufs : ∀ j, j ≠ i → ∀ p ∈ chain j, p ∈ rest
  flows : ∀ d, d ≠ c → ∀ p ∈ (w.flow d).held, p ∈ rest
  put : ∀ m' b' ps' f' lost' k', Holds m' (Buffer.toQueue b') ps' →
    (∀ d, i = .output d → b'.length = (content m' ps').length) → Flow.Ready m' f' →
    Owns m' (ps' ++ (f'.held ++ (lost' ++ rest))) k' → SameOn rest m m' →
    Custody ((w.setBuf i b').setFlow c f') m' (update chain i ps') lost' k'

theorem Custody.focus (h : Custody w m chain lost k) (i : BufferId n) (c : Fin n) :
    ∃ rest, Focus w m chain lost k i c rest := by
  obtain ⟨rest, howns, hbufs, hput⟩ := h.chains.focus i
  have hheld := w.held_perm c
  generalize hothers : ((List.finRange n).erase c).flatMap (fun d => (w.flow d).held) = others at hheld
  have hflows : ∀ d, d ≠ c → ∀ p ∈ (w.flow d).held, p ∈ others := by
    intro d hd p hp
    rw [← hothers]
    have hmem : d ∈ (List.finRange n).erase c :=
      (List.nodup_finRange n).mem_erase_iff.mpr ⟨hd, List.mem_finRange d⟩
    exact List.mem_flatMap.mpr ⟨d, hmem, hp⟩
  refine ⟨rest ++ others, howns.perm ?_, fun j hj p hp => List.mem_append_left _ (hbufs j hj p hp),
    fun d hd p hp => List.mem_append_right _ (hflows d hd p hp), ?_⟩
  · rw [List.perm_iff_count] at hheld ⊢
    intro a
    have := hheld a
    simp only [List.count_append] at this ⊢
    omega
  · intro m' b' ps' f' lost' k' hb' hexact hready' howns' hsame
    have hheld' := w.held_setFlow_perm c f'
    rw [hothers] at hheld'
    have hperm : (ps' ++ (f'.held ++ (lost' ++ (rest ++ others)))).Perm
        (ps' ++ (rest ++ ((w.setFlow c f').held ++ lost'))) := by
      rw [List.perm_iff_count] at hheld' ⊢
      intro a
      have := hheld' a
      simp only [List.count_append] at this ⊢
      omega
    obtain ⟨hchains, _⟩ := hput m' b' ps' _ k' hb' (howns'.perm hperm) hsame.left
    refine ⟨hchains, fun d => ?_, fun d => ?_⟩
    · show (update w.bufs i b' (.output d)).length = (content m' (update chain i ps' (.output d))).length
      by_cases hd : i = .output d
      · subst hd
        rw [Function.update_self, Function.update_self]
        exact hexact d rfl
      · rw [Function.update_of_ne (Ne.symm hd), Function.update_of_ne (Ne.symm hd),
          content_same (hsame.left.mono (hbufs _ (Ne.symm hd)))]
        exact h.exact d
    · show (update w.flow c f' d).Ready m'
      by_cases hd : d = c
      · subst hd
        rw [Function.update_self]
        exact hready'
      · rw [Function.update_of_ne hd]
        exact (h.ready d).same (hsame.right.mono (hflows d hd))

/-! ## What a step must not do -/

/-- With these lengths behind it, sent now, the output buffer is not compacted. -/
def Fits (w : World n) (m : Mem) (c : Fin n) (first : List Nat) : Prop :=
  (w.flow c).isSending = false → ¬ Compacts (lens m ((w.bufs (.output c)).pieces m) ++ first)

/-- `sendInLoop` of the queue `b` takes all its pieces and compacts none. -/
def TakesAll (w : World n) (m : Mem) (c : Fin n) (b : Buffer) : Prop :=
  (b.pieces m).length ≤ 1 ∧ w.Fits m c (lens m (b.pieces m))

/-- The step loses no piece: it does not detach, clear or destroy a chain that has
    pieces, does not send a chain of more than one, and does not compact. -/
def Conserving (w : World n) (m : Mem) : Action n → Prop
  | .buffer (.clear i) | .buffer (.moveToQueueHead i) => (w.bufs i).head = none
  | .sendData c d true =>
    (w.life c).status = .kConnected → d ≠ [] → d.length ≤ kPieceCapacity ∧ w.Fits m c [d.length]
  | .sendBuffer c i true =>
    (w.life c).status = .kConnected → (w.bufs i).length ≠ 0 → w.TakesAll m c (w.bufs i)
  | .runSend c task => w.TakesAll m c task.queue
  | .handleWrite c op =>
    ∀ j, op.result = some (.success j) → ¬ Compacts (lens m ((w.bufs (.output c)).pieces m))
  | .destroy c => (w.bufs (.input c)).head = none ∧ (w.bufs (.output c)).head = none
  | _ => True

/-- The pieces of the queue `b` behind its first are empty. -/
def FirstIsAll (m : Mem) (b : Buffer) : Prop := ∀ p ∈ (b.pieces m).tail, (m.cell p).len = 0

theorem FirstIsAll.drop {b : Buffer} {ps : List Ptr} (h : FirstIsAll m b) (hps : b.pieces m = ps) :
    content m (ps.drop 1) = [] := by
  rw [content_eq_nil_iff, ← hps, List.drop_one]
  exact h

/-- The step drops no byte of a payload, and no send is short. -/
def Whole (w : World n) (m : Mem) : Action n → Prop
  | .sendData c d true => (w.life c).status = .kConnected → d.length ≤ kPieceCapacity
  | .sendBuffer c i true => (w.life c).status = .kConnected → FirstIsAll m (w.bufs i)
  | .runSend _ task => FirstIsAll m task.queue
  | .writeDone _ op (.success j) => j = (m.cell op.piece).len
  | _ => True

/-! ## Steps -/

/-- A step has led to `w'`: the invariant holds again, no more is lost if `Q`, and
    the outgoing bytes `o` have taken a step of their own. -/
def Steps (P Q : Prop) (life : Fin n → Life) (o : Fin n → Outgoing) (lost : List Ptr) (k : Nat)
    (w' : World n) (m' : Mem) : Prop :=
  ∃ chain' lost' k', Custody w' m' chain' lost' k' ∧ (Q → lost' = lost ∧ k' = k) ∧
    ∀ c, OutStep P (life c) (w'.life c) (o c) (w'.outgoing m' chain' c)

variable {build : Build} {P Q : Prop} {w' : World n} {rest : List Ptr}

theorem Custody.of_eq (h : Custody w m chain lost k) (hbufs : w'.bufs = w.bufs)
    (hflow : w'.flow = w.flow) : Custody w' m chain lost k := by
  have hheld : w'.held = w.held := by simp [held, hflow]
  exact ⟨by rw [hbufs, hheld]; exact h.chains, fun c => by rw [hbufs]; exact h.exact c,
    fun c => by rw [hflow]; exact h.ready c⟩

theorem Custody.steps_life (h : Custody w m chain lost k) (hbufs : w'.bufs = w.bufs)
    (hflow : w'.flow = w.flow) : Steps P Q w.life (w.outgoing m chain) lost k w' m := by
  refine ⟨chain, lost, k, h.of_eq hbufs hflow, fun _ => ⟨rfl, rfl⟩, fun c => ?_⟩
  show OutStep P _ _ _ ((w'.flow c).outgoing m (chain (.output c)))
  rw [hflow]
  exact .same _

/-- A step of connection `c` on the buffer `i`, which is not another connection's
    output buffer. -/
theorem Focus.steps (h : Custody w m chain lost k) (hfocus : Focus w m chain lost k i c rest)
    (hi : ∀ d, d ≠ c → i ≠ .output d)
    {b' : Buffer} {ps' more : List Ptr} {f' : Flow} {l' : Life} {k' : Nat}
    (hbufs : w'.bufs = update w.bufs i b') (hflow : w'.flow = update w.flow c f')
    (hlife : w'.life = update w.life c l')
    (hout : Outcome m m' (w.bufs i) b' (chain i) ps' f' more (lost ++ rest) k')
    (hstep : OutStep P (w.life c) l' (w.outgoing m chain c)
      (f'.outgoing m' (update chain i ps' (.output c))))
    (hnone : Q → more = [] ∧ k' = k) :
    Steps P Q w.life (w.outgoing m chain) lost k w' m' := by
  have howns : Owns m' (ps' ++ (f'.held ++ (more ++ lost ++ rest))) k' := by
    rw [List.append_assoc]
    exact hout.owns
  have hcustody := hfocus.put m' b' ps' f' _ k' hout.holds
    (fun d hd => hout.exact (by rw [hd]; exact h.exact d)) hout.ready howns hout.same.right
  refine ⟨update chain i ps', more ++ lost, k', hcustody.of_eq hbufs hflow, fun hQ => ?_, fun d => ?_⟩
  · rw [(hnone hQ).1]
    exact ⟨rfl, (hnone hQ).2⟩
  · show OutStep P _ (w'.life d) _ ((w'.flow d).outgoing m' (update chain i ps' (.output d)))
    rw [hflow, hlife]
    by_cases hd : d = c
    · subst hd
      rw [Function.update_self, Function.update_self]
      exact hstep
    · rw [Function.update_of_ne hd, Function.update_of_ne hd, Function.update_of_ne (hi d hd).symm]
      have hsame : (w.flow d).outgoing m' (chain (.output d)) = w.outgoing m chain d := by
        refine Flow.outgoing_reads rfl (hout.same.right.mono fun p hp => ?_)
          (hout.same.right.mono (hfocus.bufs _ (hi d hd).symm))
        exact hfocus.flows d hd p (by simp [Flow.held, hp])
      rw [hsame]
      exact .same _

/-! ## Sending -/

theorem Custody.pieces_eq (h : Custody w m chain lost k) (i : BufferId n) :
    (w.bufs i).pieces m = chain i := h.chains.pieces_eq i

theorem Custody.task_pieces (h : Custody w m chain lost k) {task : SendTask}
    (htask : task ∈ (w.flow c).sends) : task.queue.pieces m = task.pieces := by
  obtain ⟨rest, hfocus⟩ := h.focus (.output c) c
  refine ((h.ready c).holds task htask).rep.pieces_eq fun p hp => hfocus.owns.live ?_
  simp [Flow.mem_held_sends htask hp]

theorem Custody.runSendTask {task : SendTask} (h : Custody w m chain lost k)
    (htask : task ∈ (w.flow c).sends) (user : (w.life c).pc.runsUserCode = true)
    (whole : P → FirstIsAll m task.queue) (takes : Q → w.TakesAll m c task.queue) :
    (w.runSendTask c task).wlp build m fun w' m' =>
      Steps P Q w.life (w.outgoing m chain) lost k w' m' ∧ w'.life = w.life ∧
      (w'.flow c).sends = (w.flow c).sends.erase task := by
  obtain ⟨rest, hfocus⟩ := h.focus (.output c) c
  simp only [World.runSendTask, Prog.wlp_bind, Prog.wlp_pure]
  have hpieces := h.task_pieces htask
  refine (sendInLoop_spec (h.rep c) (h.ready c) htask hfocus.owns (fun hP => (whole hP).drop hpieces)
    user).imp ?_
  rintro r m' ⟨ps', more, hout, hstep, hsends, hnone⟩
  refine ⟨hfocus.steps h (fun d hd e => hd (BufferId.output.inj e).symm) rfl rfl
    (Function.update_eq_self _ _).symm hout ?_ fun hQ => ⟨?_, rfl⟩, rfl, ?_⟩
  · rw [Function.update_self]
    exact hstep
  · obtain ⟨hone, hfits⟩ := takes hQ
    rw [hpieces] at hone hfits
    refine hnone hone fun hidle => ?_
    rw [List.take_of_length_le hone, lens_append, ← h.pieces_eq]
    exact hfits hidle
  · show (update w.flow c r.2 c).sends = _
    rw [Function.update_self, hsends]

/-- `moveToQueueHead` takes a chain out of its buffer. -/
theorem Custody.detach (h : Custody w m chain lost k) (i : BufferId n) :
    Custody (w.setBuf i {}) m (update chain i []) (chain i ++ lost) k := by
  obtain ⟨rest, howns, _, hput⟩ := h.chains.focus i
  have hperm : (chain i ++ (rest ++ (w.held ++ lost))).Perm
      ([] ++ (rest ++ (w.held ++ (chain i ++ lost)))) := by
    rw [List.perm_iff_count]
    intro a
    simp only [List.count_append, List.count_nil]
    omega
  refine ⟨(hput m {} [] _ k (Holds.empty m) (howns.perm hperm) (SameOn.refl _ _)).1, fun c => ?_,
    h.ready⟩
  show (update w.bufs i {} (.output c)).length = (content m (update chain i [] (.output c))).length
  by_cases hc : i = .output c
  · simp [hc]
  · rw [Function.update_of_ne (Ne.symm hc), Function.update_of_ne (Ne.symm hc)]
    exact h.exact c

theorem Custody.fresh (h : Custody w m chain lost k) (c : Fin n) (d : Bytes) :
    (Buffer.write {} d).wp build m fun b m' => ∃ ps, b.Rep m' ps ∧ content m' ps = d ∧
      Custody w m' chain (ps ++ lost) k ∧ w.outgoing m' chain = w.outgoing m chain ∧
      (∀ i, SameOn (chain i) m m') ∧ Extends m m' [] ps ∧ (d ≠ [] → Solid m' ps) := by
  obtain ⟨rest, hfocus⟩ := h.focus (.output c) c
  refine (Buffer.write_spec (Buffer.Rep.empty m) hfocus.owns).imp ?_
  intro b m' ⟨ps, hb, howns, hsame, hcontent, hextends, hpos⟩
  have hchains : ∀ i, SameOn (chain i) m m' := by
    intro i
    by_cases hi : i = .output c
    · exact hi ▸ hsame.left
    · exact hsame.right.right.right.mono (hfocus.bufs i hi)
  have hflows : ∀ d, SameOn (w.flow d).held m m' := by
    intro d
    by_cases hd : d = c
    · exact hd ▸ hsame.right.left
    · exact hsame.right.right.right.mono (hfocus.flows d hd)
  have hperm : (ps ++ (chain (.output c) ++ ((w.flow c).held ++ (lost ++ rest)))).Perm
      (chain (.output c) ++ ((w.flow c).held ++ ((ps ++ lost) ++ rest))) := by
    rw [List.perm_iff_count]
    intro a
    simp only [List.count_append]
    omega
  have hrep := (h.rep c).same (hchains _)
  have hput := hfocus.put m' _ _ _ (ps ++ lost) k hrep.holds (fun _ _ => hrep.length)
    ((h.ready c).same (hflows c)) (howns.perm hperm) hsame.right.right.right
  rw [Function.update_eq_self] at hput
  refine ⟨ps, hb, by simpa using hcontent, hput.of_eq (Function.update_eq_self _ _).symm
    (Function.update_eq_self _ _).symm, ?_, hchains, hextends, fun hd p hp => ?_⟩
  · funext d
    exact Flow.outgoing_reads rfl ((hflows d).mono fun p hp => by simp [Flow.held, hp]) (hchains _)
  · cases hpos hd p hp with
    | inl hnil => cases hnil
    | inr h => exact h

theorem Custody.post {queue : Buffer} {ps : List Ptr} (h : Custody w m chain (ps ++ lost) k)
    (hqueue : Holds m queue.toQueue ps) (c : Fin n) :
    Custody (w.setFlow c { w.flow c with sends := (w.flow c).sends ++ [⟨queue, ps, content m ps⟩] })
      m chain lost k := by
  obtain ⟨rest, hfocus⟩ := h.focus (.output c) c
  have hready := h.ready c
  have hperm : (chain (.output c) ++ ((w.flow c).held ++ ((ps ++ lost) ++ rest))).Perm
      (chain (.output c) ++ (Flow.held { w.flow c with
        sends := (w.flow c).sends ++ [⟨queue, ps, content m ps⟩] } ++ (lost ++ rest))) := by
    rw [List.perm_iff_count]
    intro a
    simp only [Flow.held, List.flatMap_append, List.flatMap_cons, List.flatMap_nil, List.append_nil,
      List.count_append]
    omega
  have hput := hfocus.put m _ _ { w.flow c with sends := (w.flow c).sends ++ [⟨queue, ps, content m ps⟩] }
    lost k (h.rep c).holds (fun _ _ => (h.rep c).length)
    ⟨hready.reads, hready.results, fun t ht => ?_, fun t ht => ?_⟩
    (hfocus.owns.perm hperm) (SameOn.refl _ _)
  · rw [Function.update_eq_self] at hput
    exact hput.of_eq (Function.update_eq_self _ _).symm rfl
  · cases List.mem_append.mp ht with
    | inl hold => exact hready.holds t hold
    | inr hnew => rw [List.mem_singleton.mp hnew]; exact hqueue
  · cases List.mem_append.mp ht with
    | inl hold => exact hready.payload t hold
    | inr hnew => rw [List.mem_singleton.mp hnew]

theorem outgoing_post (w : World n) (m : Mem) (chain : BufferId n → List Ptr) (c : Fin n)
    (task : SendTask) (d : Fin n) :
    (w.setFlow c { w.flow c with sends := (w.flow c).sends ++ [task] }).outgoing m chain d =
      if d = c then { w.outgoing m chain c with tasks := (w.outgoing m chain c).tasks + 1 }
      else w.outgoing m chain d := by
  split
  · rename_i hd
    subst hd
    simp [outgoing, setFlow, Flow.outgoing, Flow.inFlight]
  · rename_i hd
    simp [outgoing, setFlow, Function.update_of_ne hd]

theorem Custody.submit {queue : Buffer} {ps : List Ptr} {inLoop : Bool}
    (h : Custody w m chain (ps ++ lost) k) (hqueue : Holds m queue.toQueue ps)
    (callable : w.Callable c inLoop) (connected : (w.life c).status = .kConnected)
    (whole : P → inLoop = true → FirstIsAll m queue)
    (takes : Q → inLoop = true → w.TakesAll m c queue) :
    (w.submit c queue inLoop).wlp build m
      (Steps P Q w.life (w.outgoing m chain) lost k) := by
  obtain ⟨_, user⟩ := callable
  have hpieces : queue.pieces m = ps := by
    obtain ⟨rest, hfocus⟩ := h.focus (.output c) c
    exact hqueue.rep.pieces_eq fun p hp => hfocus.owns.live (by simp [hp])
  simp only [World.submit, onPieces, Prog.wlp_bind, Prog.wlp_mapFault]
  refine (Prog.wp_of_eq_ok rfl |>.mpr ?_).wlp
  rw [hpieces]
  have hpost := h.post hqueue c
  cases inLoop with
  | false =>
    simp only [Bool.false_eq_true, if_false, Prog.wlp_pure]
    refine ⟨chain, lost, k, hpost, fun _ => ⟨rfl, rfl⟩, fun d => ?_⟩
    rw [outgoing_post]
    split
    · rename_i hd
      subst hd
      exact .posted _ connected
    · exact .same _
  | true =>
    simp only [if_true]
    have hmem : (⟨queue, ps, content m ps⟩ : SendTask) ∈
        ((w.setFlow c { w.flow c with sends := (w.flow c).sends ++ [⟨queue, ps, content m ps⟩] }).flow
          c).sends := by
      simp [setFlow]
    refine (hpost.runSendTask (Q := Q) hmem (user rfl) (fun hP => whole hP rfl) fun hQ => ?_).imp ?_
    · have htakes := takes hQ rfl
      simpa [TakesAll, Fits, setFlow] using htakes
    intro w' m' ⟨⟨chain', lost', k', hcustody, hnone, hstep⟩, hlife, hsends⟩
    refine ⟨chain', lost', k', hcustody, hnone, fun d => ?_⟩
    have hd := hstep d
    rw [outgoing_post] at hd
    split at hd
    · rename_i hdc
      subst hdc
      refine hd.ofPosted connected ?_
      have hlen : (w'.flow d).sends.length ≤ (w.flow d).sends.length := by
        rw [hsends, List.length_erase_of_mem hmem]
        simp [setFlow]
      exact hlen
    · exact hd

theorem single_of_short {ps : List Ptr} (hextends : Extends m m' [] ps) (hsolid : Solid m' ps)
    (hne : ps ≠ []) (hshort : (content m' ps).length ≤ kPieceCapacity) : ∃ p, ps = [p] := by
  cases ps with
  | nil => exact absurd rfl hne
  | cons p qs =>
    cases qs with
    | nil => exact ⟨p, rfl⟩
    | cons q qs =>
      have hfull := hextends.full p (by simp)
      have hoff := hextends.off p (by simp)
      have hq := hsolid q (by simp)
      simp only [List.dropLast_nil, List.not_mem_nil, false_or, if_false] at hfull hoff
      simp only [content_cons, List.length_append, length_bytes] at hshort
      omega

theorem Custody.sendData {d : Bytes} {inLoop : Bool} (h : Custody w m chain lost k)
    (callable : w.Callable c inLoop) :
    (w.sendData c d inLoop).wlp build m
      (Steps (w.Whole m (.sendData c d inLoop)) (w.Conserving m (.sendData c d inLoop))
        w.life (w.outgoing m chain) lost k) := by
  unfold World.sendData
  split
  · rw [Prog.wlp_pure]
    exact h.steps_life rfl rfl
  · rename_i hsend
    obtain ⟨hconnected, hlen⟩ := not_or.mp hsend
    have connected : (w.life c).status = .kConnected := not_not.mp hconnected
    have hd : d ≠ [] := fun e => hlen (by rw [e]; rfl)
    simp only [onPieces, Prog.wlp_bind, Prog.wlp_mapFault]
    refine (h.fresh c d).wlp.imp ?_
    rintro b m' ⟨ps, hb, hcontent, hcustody, hout, hchains, hextends, hsolid⟩
    have hlive : ∀ p ∈ ps, m'.Live p := by
      obtain ⟨rest, hfocus⟩ := hcustody.focus (.output c) c
      exact fun p hp => hfocus.owns.live (by simp [hp])
    have hpieces : b.pieces m' = ps := hb.holds.rep.pieces_eq hlive
    have hsingle : d.length ≤ kPieceCapacity → ∃ p, ps = [p] ∧ lens m' ps = [d.length] := by
      intro hshort
      have hne : ps ≠ [] := fun e => hd (by rw [← hcontent, e]; rfl)
      obtain ⟨p, rfl⟩ := single_of_short hextends (hsolid hd) hne (by rw [hcontent]; exact hshort)
      refine ⟨p, rfl, ?_⟩
      rw [← hcontent]
      simp [lens]
    rw [← hout]
    refine hcustody.submit hb.holds callable connected ?_ ?_
    · intro hwhole hinLoop p hp
      subst hinLoop
      obtain ⟨q, rfl, _⟩ := hsingle (hwhole connected)
      rw [hpieces] at hp
      cases hp
    · intro hconserving hinLoop
      subst hinLoop
      obtain ⟨hshort, hfits⟩ := hconserving connected hd
      obtain ⟨q, rfl, hq⟩ := hsingle hshort
      refine ⟨by rw [hpieces]; simp, fun hidle => ?_⟩
      rw [hpieces, hq, hcustody.pieces_eq]
      have hlens : lens m' (chain (.output c)) = lens m (chain (.output c)) :=
        List.map_congr_left fun a ha => by rw [hchains _ a ha]
      rw [hlens, ← h.pieces_eq]
      exact hfits hidle

theorem Custody.sendBuffer {inLoop : Bool} (h : Custody w m chain lost k)
    (callable : w.Callable c inLoop) (accessible : w.Accessible i) :
    (w.sendBuffer c i inLoop).wlp build m
      (Steps (w.Whole m (.sendBuffer c i inLoop)) (w.Conserving m (.sendBuffer c i inLoop))
        w.life (w.outgoing m chain) lost k) := by
  unfold World.sendBuffer
  split
  · rw [Prog.wlp_pure]
    exact h.steps_life rfl rfl
  · rename_i hsend
    obtain ⟨hconnected, hlen⟩ := not_or.mp hsend
    have connected : (w.life c).status = .kConnected := not_not.mp hconnected
    have hi : ∀ d, i ≠ .output d := by
      intro d e
      subst e
      exact accessible
    have hout : (w.setBuf i {}).outgoing m (update chain i []) = w.outgoing m chain := by
      funext d
      show (w.flow d).outgoing m (update chain i [] (.output d)) = _
      rw [Function.update_of_ne (hi d).symm]
      rfl
    rw [← hout]
    refine (h.detach i).submit (h.chains.holds i) callable connected ?_ ?_
    · intro hwhole hinLoop
      subst hinLoop
      exact hwhole connected
    · intro hconserving hinLoop
      subst hinLoop
      obtain ⟨hone, hfits⟩ := hconserving connected hlen
      refine ⟨hone, fun hidle => ?_⟩
      have hsame : (w.setBuf i {}).bufs (.output c) = w.bufs (.output c) :=
        Function.update_of_ne (hi c).symm _ _
      rw [hsame]
      exact hfits hidle

/-! ## Completions, reading and destruction -/

theorem Custody.steps_flow (h : Custody w m chain lost k)
    (hfocus : Focus w m chain lost k (.input c) c rest) {f' : Flow} {l' : Life}
    (hbufs : w'.bufs = w.bufs) (hflow : w'.flow = update w.flow c f')
    (hlife : w'.life = update w.life c l') (hready : f'.Ready m')
    (howns : Owns m' (f'.held ++ (chain (.input c) ++ (lost ++ rest))) k)
    (hsame : SameOn (chain (.input c) ++ (lost ++ rest)) m m')
    (hstep : OutStep P (w.life c) l' (w.outgoing m chain c) (f'.outgoing m' (chain (.output c)))) :
    Steps P Q w.life (w.outgoing m chain) lost k w' m' := by
  have hperm : (f'.held ++ (chain (.input c) ++ (lost ++ rest))).Perm
      (chain (.input c) ++ (f'.held ++ ([] ++ (lost ++ rest)))) := by
    rw [List.perm_iff_count]
    intro a
    simp only [List.count_append, List.count_nil]
    omega
  have hcontent : content m' (chain (.input c)) = content m (chain (.input c)) := content_same hsame.left
  refine hfocus.steps h (fun d _ e => by cases e) (hbufs.trans (Function.update_eq_self _ _).symm) hflow
    hlife ⟨(h.chains.holds _).same hsame.left, fun hexact => by rw [hcontent, hexact], hready,
      howns.perm hperm, hsame.right⟩ ?_ fun _ => ⟨rfl, rfl⟩
  rw [Function.update_eq_self]
  exact hstep

theorem Custody.steps_held (h : Custody w m chain lost k) {f' : Flow} (hbufs : w'.bufs = w.bufs)
    (hflow : w'.flow = update w.flow c f') (hlife : w'.life = w.life) (hready : f'.Ready m)
    (hheld : (w.flow c).held.Perm f'.held)
    (hstep : OutStep P (w.life c) (w.life c) (w.outgoing m chain c) (f'.outgoing m (chain (.output c)))) :
    Steps P Q w.life (w.outgoing m chain) lost k w' m := by
  obtain ⟨rest, hfocus⟩ := h.focus (.input c) c
  have hperm : (chain (.input c) ++ ((w.flow c).held ++ (lost ++ rest))).Perm
      (f'.held ++ (chain (.input c) ++ (lost ++ rest))) := by
    rw [List.perm_iff_count] at hheld ⊢
    intro a
    have := hheld a
    simp only [List.count_append] at this ⊢
    omega
  exact h.steps_flow hfocus hbufs hflow (hlife.trans (Function.update_eq_self _ _).symm) hready
    (hfocus.owns.perm hperm) (SameOn.refl _ _) hstep

theorem Custody.readDone {op : ReadOp} {result : ReadResult} (h : Custody w m chain lost k)
    (hop : op ∈ (w.flow c).reads) (possible : ReadPossible (w.life c) result) :
    (w.exec (.readDone c op result)).wlp build m
      (Steps P Q w.life (w.outgoing m chain) lost k) := by
  obtain ⟨hready, hheld⟩ := finishRead_spec (h.ready c) hop possible
  refine (Prog.wlp_pure ..).mpr (h.steps_held rfl rfl rfl hready hheld ?_)
  have hsame : (finishRead (w.flow c) op result).outgoing m (chain (.output c)) =
      w.outgoing m chain c := Flow.outgoing_reads rfl (SameOn.refl _ _) (SameOn.refl _ _)
  rw [hsame]
  exact .same _

theorem Custody.writeDone {op : WriteOp} {result : WriteResult} (h : Custody w m chain lost k)
    (hop : op ∈ (w.flow c).writes) (hpending : op.result = none)
    (possible : WritePossible m (w.life c) op result) :
    (w.exec (.writeDone c op result)).wlp build m
      (Steps (w.Whole m (.writeDone c op result)) Q w.life (w.outgoing m chain) lost k) := by
  intro w' m' done
  cases done
  obtain ⟨hready, hheld, hstep⟩ := finishWrite_spec (P := w.Whole m (.writeDone c op result))
    (chain (.output c)) (h.ready c) hop hpending possible
    fun hwhole j hj => by subst hj; exact hwhole
  exact h.steps_held rfl rfl rfl hready hheld hstep

theorem Custody.handleRead {op : ReadOp} (h : Custody w m chain lost k)
    (hop : op ∈ (w.flow c).reads) :
    (w.exec (.handleRead c op)).wlp build m (Steps P Q w.life (w.outgoing m chain) lost k) := by
  obtain ⟨rest, hfocus⟩ := h.focus (.input c) c
  simp only [World.exec, Prog.wlp_bind, Prog.wlp_pure]
  refine (handleRead_spec (h.chains.holds _) (h.ready c) hop hfocus.owns).imp ?_
  rintro r m' ⟨ps', hout, hsame, hflow, _⟩
  refine hfocus.steps h (fun d _ e => by cases e) rfl rfl rfl hout ?_ fun _ => ⟨rfl, rfl⟩
  have hwrites : SameOn ((w.flow c).writes.map WriteOp.piece) m m' := hsame.mono fun p hp => by
    simp [hflow, Flow.held, hp]
  rw [Function.update_of_ne (by simp), Flow.outgoing_reads hflow hwrites
    (hout.same.right.mono (hfocus.bufs _ (by simp)))]
  exact .same _

theorem Custody.handleWrite {op : WriteOp} (h : Custody w m chain lost k)
    (hop : op ∈ (w.flow c).writes) (hdone : op.result ≠ none) :
    (w.exec (.handleWrite c op)).wlp build m
      (Steps P (w.Conserving m (.handleWrite c op)) w.life (w.outgoing m chain) lost k) := by
  obtain ⟨rest, hfocus⟩ := h.focus (.output c) c
  simp only [World.exec, Prog.wlp_bind, Prog.wlp_pure]
  refine (handleWrite_spec (P := P) (h.rep c) (h.ready c) hop hdone hfocus.owns).imp ?_
  rintro r m' ⟨ps', more, hout, hstep, hnone⟩
  refine hfocus.steps h (fun d hd e => hd (BufferId.output.inj e).symm) rfl rfl rfl hout ?_
    fun hconserving => ⟨hnone ?_, rfl⟩
  · rw [Function.update_self]
    exact hstep
  · rw [← h.pieces_eq]
    exact hconserving

theorem handleClose_mem {l : Life} : (handleClose l).wlp build m fun _ m' => m' = m := by
  simp only [handleClose, onPieces, Prog.wlp_bind, Prog.wlp_mapFault, wlp_assert]
  intro _
  split
  · simp only [Prog.wlp_bind, Prog.wlp_mapFault, wlp_assert, Prog.wlp_pure]
    exact fun _ => trivial
  · exact (Prog.wlp_pure ..).mpr rfl

theorem Custody.resume (h : Custody w m chain lost k) :
    (w.exec (.resume c)).wlp build m (Steps P Q w.life (w.outgoing m chain) lost k) := by
  have hstill : ∀ l', Steps P Q w.life (w.outgoing m chain) lost k
      ((w.setFlow c (w.flow c)).setLife c l') m := fun l' =>
    h.steps_life rfl (Function.update_eq_self _ _)
  have hread : (launchRead (w.life c).socket (w.flow c)).wlp build m fun f' m' =>
      Steps P Q w.life (w.outgoing m chain) lost k
        ((w.setFlow c f').setLife c { w.life c with pc := .idle }) m' := by
    obtain ⟨rest, hfocus⟩ := h.focus (.input c) c
    have hperm : (chain (.input c) ++ ((w.flow c).held ++ (lost ++ rest))).Perm
        ((w.flow c).held ++ (chain (.input c) ++ (lost ++ rest))) := by
      rw [List.perm_iff_count]
      intro a
      simp only [List.count_append]
      omega
    refine (launchRead_spec (h.ready c) (hfocus.owns.perm hperm)).imp ?_
    intro f' m' ⟨hready, howns, hsame, reads, hflow⟩
    refine h.steps_flow hfocus rfl rfl rfl hready howns hsame.right ?_
    have hwrites : SameOn ((w.flow c).writes.map WriteOp.piece) m m' :=
      hsame.left.mono fun p hp => by simp [Flow.held, hp]
    rw [Flow.outgoing_reads hflow hwrites (hsame.right.right.right.mono (hfocus.bufs _ (by simp)))]
    exact .same _
  simp only [World.exec, Prog.wlp_bind, Prog.wlp_pure]
  unfold TCPConn.resume
  cases (w.life c).pc with
  | connected =>
    simp only [Prog.wlp_bind, Prog.wlp_pure]
    exact hread
  | message =>
    simp only [Prog.wlp_bind, Prog.wlp_pure]
    exact hread
  | closing =>
    simp only [Prog.wlp_bind, Prog.wlp_pure]
    refine handleClose_mem.imp fun l' m' hm => ?_
    subst hm
    exact hstill l'
  | _ => exact (Prog.wlp_pure ..).mpr (hstill _)

theorem Custody.clear (h : Custody w m chain lost k) (i : BufferId n)
    (small : (chain i).length < 4294967296) :
    (w.bufs i).clear.wp build m fun b m' =>
      Custody (w.setBuf i b) m' (update chain i []) lost (k + (chain i).length) ∧
      SameOn w.held m m' ∧ ∀ j, j ≠ i → SameOn (chain j) m m' := by
  obtain ⟨rest, howns, hothers, hput⟩ := h.chains.focus i
  refine (Buffer.clear_spec (h.chains.holds i) howns small).imp ?_
  intro b m' ⟨hb, howns', hsame⟩
  have hsames : ∀ j, j ≠ i → SameOn (chain j) m m' := fun j hj => hsame.left.mono (hothers j hj)
  refine ⟨⟨(hput m' b [] _ _ hb.holds howns' hsame.left).1, fun d => ?_, fun d => (h.ready d).same ?_⟩,
    hsame.right.left, hsames⟩
  · show (update w.bufs i b (.output d)).length = (content m' (update chain i [] (.output d))).length
    by_cases hd : i = .output d
    · subst hd
      rw [Function.update_self, Function.update_self]
      exact hb.length
    · rw [Function.update_of_ne (Ne.symm hd), Function.update_of_ne (Ne.symm hd),
        content_same (hsames _ (Ne.symm hd))]
      exact h.exact d
  · exact hsame.right.left.mono fun p hp => List.mem_flatMap.mpr ⟨d, List.mem_finRange d, hp⟩

theorem Custody.nil_of_head (h : Custody w m chain lost k) (hi : (w.bufs i).head = none) :
    chain i = [] := by
  have := (h.chains.holds i).rep.chain.head_eq
  rwa [hi, eq_comm, List.head?_eq_none_iff] at this

theorem Custody.destroy (h : Custody w m chain lost k) (small : w.Small m) :
    (w.exec (.destroy c)).wlp build m
      (Steps P (w.Conserving m (.destroy c)) w.life (w.outgoing m chain) lost k) := by
  have hsmall : ∀ i, (chain i).length < 4294967296 := fun i => by
    rw [← h.pieces_eq]
    exact small i
  simp only [World.exec, World.destroy, onPieces, Prog.wlp_bind, Prog.wlp_mapFault, Prog.wlp_pure,
    wlp_assert]
  intro _ _
  refine (h.clear (.input c) (hsmall _)).wlp.imp ?_
  rintro inp m₁ ⟨h₁, hheld₁, hsame₁⟩
  have hne : (BufferId.output c : BufferId n) ≠ .input c := by simp
  have hbuf : (w.setBuf (.input c) inp).bufs (.output c) = w.bufs (.output c) :=
    Function.update_of_ne hne inp w.bufs
  have hchain : update chain (.input c) [] (.output c) = chain (.output c) :=
    Function.update_of_ne hne _ _
  rw [← hbuf]
  refine (h₁.clear (.output c) (by rw [hchain]; exact hsmall _)).wlp.imp ?_
  rintro out m₂ ⟨h₂, hheld₂, hsame₂⟩
  rw [hchain] at h₂
  have hheld : ∀ d, SameOn (w.flow d).held m m₂ := fun d =>
    (hheld₁.trans hheld₂).mono fun p hp => List.mem_flatMap.mpr ⟨d, List.mem_finRange d, hp⟩
  have hwrites : ∀ d, (w.flow d).inFlight m₂ = (w.flow d).inFlight m := fun d =>
    Flow.inFlight_same ((hheld d).mono fun p hp => by simp [Flow.held, hp])
  refine ⟨_, lost, _, h₂.of_eq rfl rfl, fun hQ => ?_, fun d => ?_⟩
  · rw [h.nil_of_head hQ.1, h.nil_of_head hQ.2]
    exact ⟨rfl, rfl⟩
  · show OutStep P _ (update w.life c _ d) _
      ((w.flow d).outgoing m₂ (update (update chain (.input c) []) (.output c) [] (.output d)))
    by_cases hd : d = c
    · subst hd
      rw [Function.update_self, Function.update_self]
      have hstep : OutStep P (w.life d) { w.life d with alive := false } (w.outgoing m chain d)
          { w.outgoing m chain d with out := [] } := .destroyed _ rfl
      simp only [outgoing, Flow.outgoing, hwrites] at hstep ⊢
      exact hstep
    · have hout : (BufferId.output d : BufferId n) ≠ .output c := fun e => hd (BufferId.output.inj e)
      have hinp : (BufferId.output d : BufferId n) ≠ .input c := by simp
      rw [Function.update_of_ne hd, Function.update_of_ne hout, Function.update_of_ne hinp]
      have hsame : SameOn (chain (.output d)) m m₂ := by
        have hsecond := hsame₂ (.output d) hout
        rw [Function.update_of_ne hinp] at hsecond
        exact (hsame₁ _ hinp).trans hsecond
      have heq : (w.flow d).outgoing m₂ (chain (.output d)) = w.outgoing m chain d := by
        simp only [outgoing, Flow.outgoing, hwrites, content_same hsame]
      rw [heq]
      exact .same _

theorem Custody.buffer {op : BufferOp (BufferId n)} (h : Custody w m chain lost k)
    (pre : op.Pre m w.bufs) (accessible : ∀ i ∈ op.names, w.Accessible i) (small : w.Small m) :
    (w.exec (.buffer op)).wlp build m
      (Steps P (w.Conserving m (.buffer op)) w.life (w.outgoing m chain) lost k) := by
  have hsmall : ∀ i, (chain i).length < 4294967296 := fun i => by
    rw [← h.pieces_eq]
    exact small i
  simp only [World.exec, onPieces, Prog.wlp_bind, Prog.wlp_mapFault, Prog.wlp_pure]
  intro r m' hrun
  obtain ⟨⟨chain', hchains, hbytes⟩, _, _, hsame⟩ :=
    BufferOp.run_moves op h.chains pre (fun i _ => hsmall i) r m' hrun
  have hperm : (op.detached chain ++ (w.held ++ lost)).Perm (w.held ++ (op.detached chain ++ lost)) := by
    rw [List.perm_iff_count]
    intro a
    simp only [List.count_append]
    omega
  have hheld : ∀ d, SameOn (w.flow d).held m m' := fun d =>
    hsame.left.mono fun p hp => List.mem_flatMap.mpr ⟨d, List.mem_finRange d, hp⟩
  have hcontent : ∀ d, content m' (chain' (.output d)) = content m (chain (.output d)) := by
    intro d
    have hnot : .output d ∉ (op.actual m w.bufs).names := by
      rw [BufferOp.names_actual]
      exact fun hmem => accessible _ hmem
    have := congrFun hbytes (.output d)
    rwa [BufferOp.apply_of_notMem hnot] at this
  refine ⟨chain', op.detached chain ++ lost, k + op.bypassed chain,
    ⟨hchains.perm_loose hperm, fun d => ?_, fun d => (h.ready d).same (hheld d)⟩, fun hQ => ?_,
    fun d => ?_⟩
  · have hnot : .output d ∉ op.names := fun hmem => accessible _ hmem
    rw [hcontent d, ← h.exact d]
    exact congrArg Buffer.length (BufferOp.run_of_notMem hnot r m' hrun)
  · cases op with
    | clear i => exact ⟨rfl, by simp [BufferOp.bypassed, h.nil_of_head hQ]⟩
    | moveToQueueHead i => exact ⟨by simp [BufferOp.detached, h.nil_of_head hQ], rfl⟩
    | _ => exact ⟨rfl, rfl⟩
  · have hwrites : (w.flow d).inFlight m' = (w.flow d).inFlight m :=
      Flow.inFlight_same ((hheld d).mono fun p hp => by simp [Flow.held, hp])
    have heq : (w.flow d).outgoing m' (chain' (.output d)) = w.outgoing m chain d := by
      simp only [outgoing, Flow.outgoing, hwrites, hcontent d]
    show OutStep P _ _ _ ((w.flow d).outgoing m' (chain' (.output d)))
    rw [heq]
    exact .same _

theorem exec_custody {a : Action n} (h : Custody w m chain lost k) (enabled : w.Enabled m a) :
    (w.exec a).wlp build m
      (Steps (w.Whole m a) (w.Conserving m a) w.life (w.outgoing m chain) lost k) := by
  cases a with
  | buffer op => exact h.buffer enabled.1 enabled.2.1 enabled.2.2
  | sendData c d inLoop => exact h.sendData enabled
  | sendBuffer c i inLoop => exact h.sendBuffer enabled.1 enabled.2
  | readDone c op result => exact h.readDone enabled.1 enabled.2.2
  | writeDone c op result => exact h.writeDone enabled.1 enabled.2.1 enabled.2.2
  | runSend c task =>
    refine (h.runSendTask enabled.1 ?_ id id).imp fun _ _ h => h.1
    rw [enabled.2]
    rfl
  | handleRead c op => exact h.handleRead enabled.1
  | handleWrite c op => exact h.handleWrite enabled.1 enabled.2.1
  | resume c => exact h.resume
  | destroy c => exact h.destroy enabled.2.2.2
  | _ => exact (Prog.wlp_pure ..).mpr (h.steps_life rfl rfl)

end World

/-- The ownership invariant of a run; nothing is lost in one that conserves its
    pieces. -/
theorem RunOf.custody {n : Nat} {build : Build} {w : World n} {m : Mem}
    {P : World n → Mem → Action n → Prop} (h : RunOf build P w m) : ∃ chain lost k, w.Custody m chain lost k ∧
    ((∀ w m a, P w m a → w.Conserving m a) → lost = [] ∧ k = 0) := by
  induction h with
  | start cell => exact ⟨fun _ => [], [], 0, World.Custody.initial cell, fun _ => ⟨rfl, rfl⟩⟩
  | @step w w' m m' a before enabled condition done ih =>
    obtain ⟨chain, lost, k, hcustody, hnone⟩ := ih
    obtain ⟨chain', lost', k', hcustody', hnone', _⟩ := World.exec_custody hcustody enabled w' m' done
    refine ⟨chain', lost', k', hcustody', fun hall => ?_⟩
    obtain ⟨hlost, hk⟩ := hnone' (hall w m a condition)
    obtain ⟨hlost₀, hk₀⟩ := hnone hall
    exact ⟨hlost.trans hlost₀, hk.trans hk₀⟩

end Netpp
