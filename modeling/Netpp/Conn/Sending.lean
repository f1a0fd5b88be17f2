import Netpp.Conn.TCPConn

/-! # One connection's pieces and its outgoing bytes

What the sending and reading functions of `tcp_conn.cpp` do to the pieces a
connection holds and to the bytes on their way out, each specified on its own
buffer and its own `Flow`, with everything else in the frame `rest`.

* `Flow.held` / `Flow.Ready`: the pieces of the operations in flight and of the
  posted tasks, and what they contain.
* `Outgoing` / `OutStep`: the outgoing bytes of a connection without the pieces
  they are in, and all that can happen to them.
* `sendInLoop_spec`, `handleWrite_spec`, `handleRead_spec`, `launchRead_spec`.

The specifications name the pieces that are lost: those of a chain behind its
first piece, which `writePieceQueue` does not take, and those that `readPiece`
compacts into another one.
-/

namespace Netpp

open TCPConn

/-! ## What a connection holds -/

namespace Flow

def held (f : Flow) : List Ptr :=
  f.reads.map ReadOp.piece ++ (f.writes.map WriteOp.piece ++ f.sends.flatMap SendTask.pieces)

/-- A read has a piece to fill from its start and at most fills it, and a posted
    task has a chain with its payload, and perhaps nothing in it. -/
structure Ready (m : Mem) (f : Flow) : Prop where
  reads : ∀ op ∈ f.reads, (m.cell op.piece).off = 0
  results : ∀ op ∈ f.reads, ∀ d, op.result = some (.success d) → d ≠ [] ∧ d.length ≤ kPieceCapacity
  holds : ∀ t ∈ f.sends, Holds m t.queue.toQueue t.pieces
  payload : ∀ t ∈ f.sends, content m t.pieces = t.payload

variable {m m' : Mem} {f : Flow} {op : ReadOp} {wop : WriteOp} {t : SendTask}

theorem mem_held_reads (h : op ∈ f.reads) : op.piece ∈ f.held :=
  List.mem_append_left _ (List.mem_map_of_mem h)

theorem mem_held_sends {p : Ptr} (h : t ∈ f.sends) (hp : p ∈ t.pieces) : p ∈ f.held :=
  List.mem_append_right _ (List.mem_append_right _ (List.mem_flatMap.mpr ⟨t, h, hp⟩))

theorem Ready.same (h : f.Ready m) (hsame : SameOn f.held m m') : f.Ready m' := by
  have hpieces : ∀ t ∈ f.sends, SameOn t.pieces m m' := fun t ht =>
    hsame.mono fun p hp => mem_held_sends ht hp
  refine ⟨fun op hop => ?_, h.results, fun t ht => (h.holds t ht).same (hpieces t ht), fun t ht => ?_⟩
  · rw [hsame _ (mem_held_reads hop)]
    exact h.reads op hop
  · rw [content_same (hpieces t ht)]
    exact h.payload t ht

theorem held_perm_task (h : t ∈ f.sends) :
    f.held.Perm (t.pieces ++ { f with sends := f.sends.erase t }.held) := by
  have hsends : (f.sends.flatMap SendTask.pieces).Perm
      (t.pieces ++ (f.sends.erase t).flatMap SendTask.pieces) :=
    (List.perm_cons_erase h).flatMap_right _
  have hfront : ∀ a b c d : List Ptr, (a ++ (b ++ (c ++ d))).Perm (c ++ (a ++ (b ++ d))) := by
    intro a b c d
    have hswap : (a ++ b ++ c).Perm (c ++ (a ++ b)) := List.perm_append_comm
    simpa using hswap.append_right d
  exact ((hsends.append_left _).append_left _).trans (hfront _ _ _ _)

theorem held_perm_write (h : wop ∈ f.writes) :
    f.held.Perm (wop.piece :: { f with writes := f.writes.erase wop }.held) := by
  have hwrites : (f.writes.map WriteOp.piece).Perm
      (wop.piece :: (f.writes.erase wop).map WriteOp.piece) := (List.perm_cons_erase h).map _
  exact ((hwrites.append_right _).append_left _).trans List.perm_middle

theorem held_perm_read (h : op ∈ f.reads) :
    f.held.Perm (op.piece :: { f with reads := f.reads.erase op }.held) :=
  ((List.perm_cons_erase h).map _).append_right _

theorem Ready.sub {f' : Flow} (h : f.Ready m) (reads : ∀ op ∈ f'.reads, op ∈ f.reads)
    (sends : ∀ t ∈ f'.sends, t ∈ f.sends) : f'.Ready m :=
  ⟨fun op hop => h.reads op (reads op hop), fun op hop => h.results op (reads op hop),
    fun t ht => h.holds t (sends t ht), fun t ht => h.payload t (sends t ht)⟩

end Flow

/-! ## The outgoing bytes -/

/-- What a connection has to send, has in flight and has sent, as bytes. -/
structure Outgoing where
  isSending : Bool
  writes : List (Option WriteResult × Bytes)
  out : Bytes
  tasks : Nat
  wire : Bytes
  submitted : Bytes
  failed : Bool

/-- The bytes of the operations in flight, each with its result. -/
def Flow.inFlight (f : Flow) (m : Mem) : List (Option WriteResult × Bytes) :=
  f.writes.map fun op => (op.result, (m.cell op.piece).bytes)

/-- The outgoing bytes of a connection with the chain `ps` in its output buffer. -/
def Flow.outgoing (f : Flow) (m : Mem) (ps : List Ptr) : Outgoing where
  isSending := f.isSending
  writes := f.inFlight m
  out := content m ps
  tasks := f.sends.length
  wire := f.wire
  submitted := f.submitted
  failed := f.failed

/-- What a step from `l` to `l'` can do to the outgoing bytes.  `P` is the condition
    the step meets: nothing is dropped from the payload of a `send`, and no send is
    short. -/
inductive OutStep (P : Prop) (l l' : Life) : Outgoing → Outgoing → Prop
  | same (o : Outgoing) : OutStep P l l' o o
  | posted (o : Outgoing) (connected : l.status = .kConnected) :
      OutStep P l l' o { o with tasks := o.tasks + 1 }
  | queued (o : Outgoing) (payload first : Bytes) (tasks : Nat) (whole : P → first = payload)
      (few : tasks ≤ o.tasks) (begun : l.status = .kConnected ∨ 0 < o.tasks)
      (sending : o.isSending = true) :
      OutStep P l l' o
        { o with tasks := tasks, submitted := o.submitted ++ payload, out := o.out ++ first }
  | started (o : Outgoing) (payload first y out : Bytes) (tasks : Nat) (whole : P → first = payload)
      (few : tasks ≤ o.tasks) (begun : l.status = .kConnected ∨ 0 < o.tasks)
      (idle : o.isSending = false) (socket : l.socket = true) (user : l.pc.runsUserCode = true)
      (split : o.out ++ first = y ++ out) :
      OutStep P l l' o
        { o with tasks := tasks, submitted := o.submitted ++ payload, out := out,
                 isSending := true, writes := o.writes ++ [(none, y)] }
  | transmitted (o : Outgoing) (pre post : List (Option WriteResult × Bytes)) (y : Bytes) (k : Nat)
      (writes : o.writes = pre ++ (none, y) :: post) (whole : P → k = y.length) :
      OutStep P l l' o { o with writes := pre ++ post ++ [(some (.success k), y)],
                                wire := o.wire ++ y.take k }
  | broke (o : Outgoing) (pre post : List (Option WriteResult × Bytes)) (y : Bytes) (r : WriteResult)
      (writes : o.writes = pre ++ (none, y) :: post) (bad : ∀ k, r ≠ .success k)
      (closed : r = .aborted → l.socket = false) :
      OutStep P l l' o { o with writes := pre ++ post ++ [(some r, y)], failed := true }
  | gaveUp (o : Outgoing) (pre post : List (Option WriteResult × Bytes)) (y : Bytes) (r : WriteResult)
      (alive : l.alive = true) (writes : o.writes = pre ++ (some r, y) :: post)
      (bad : ∀ k, r ≠ .success k) (error : r = .failed → l' = TCPConn.handleError l) :
      OutStep P l l' o { o with isSending := false, writes := pre ++ post }
  | drained (o : Outgoing) (pre post : List (Option WriteResult × Bytes)) (y : Bytes) (k : Nat)
      (alive : l.alive = true) (writes : o.writes = pre ++ (some (.success k), y) :: post)
      (empty : o.out = []) :
      OutStep P l l' o { o with isSending := false, writes := pre ++ post }
  | next (o : Outgoing) (pre post : List (Option WriteResult × Bytes)) (y y' out : Bytes) (k : Nat)
      (alive : l.alive = true) (writes : o.writes = pre ++ (some (.success k), y) :: post)
      (socket : l.socket = true) (split : o.out = y' ++ out) :
      OutStep P l l' o { o with isSending := true, writes := pre ++ post ++ [(none, y')], out := out }
  | destroyed (o : Outgoing) (dead : l'.alive = false) :
      OutStep P l l' o { o with out := [] }

/-- A `send` on the loop thread runs its own `sendInLoop` at once. -/
theorem OutStep.ofPosted {P : Prop} {l l' : Life} {o o' : Outgoing}
    (h : OutStep P l l' { o with tasks := o.tasks + 1 } o') (connected : l.status = .kConnected)
    (few : o'.tasks ≤ o.tasks) : OutStep P l l' o o' := by
  cases h with
  | queued payload first tasks whole _ _ sending =>
    exact .queued o payload first tasks whole few (.inl connected) sending
  | started payload first y out tasks whole _ _ idle socket user split =>
    exact .started o payload first y out tasks whole few (.inl connected) idle socket user split
  | posted => simp only at few; omega
  | _ => simp only at few; omega

theorem Flow.inFlight_same {m m' : Mem} {f : Flow} (h : SameOn (f.writes.map WriteOp.piece) m m') :
    f.inFlight m' = f.inFlight m :=
  List.map_congr_left fun op hop => by rw [h _ (List.mem_map_of_mem hop)]

/-! ## Specifications -/

/-- A function of the connection has made the buffer `b'` with the chain `ps'` of the buffer `b`
    with the chain `ps`, and ended with the flow `f'`; it has lost the pieces `lost`. -/
structure Outcome (m m' : Mem) (b b' : Buffer) (ps ps' : List Ptr) (f' : Flow)
    (lost rest : List Ptr) (k : Nat) : Prop where
  holds : Holds m' b'.toQueue ps'
  exact : b.length = (content m ps).length → b'.length = (content m' ps').length
  ready : f'.Ready m'
  owns : Owns m' (ps' ++ (f'.held ++ (lost ++ rest))) k
  same : SameOn rest m m'

/-- `readPiece` compacts the first two of pieces with these lengths. -/
def Compacts : List Nat → Prop
  | a :: b :: _ => a < kPieceCapacity ∧ a + b ≤ kPieceCapacity
  | _ => False

theorem compacts_iff {m : Mem} {p : Ptr} {ps : List Ptr} :
    OutputBuffer.Coalesces m p ps ↔ Compacts (lens m (p :: ps)) := by
  cases ps with
  | nil => simp [OutputBuffer.Coalesces, lens, Compacts]
  | cons q qs => simp [OutputBuffer.Coalesces, lens, Compacts]

section Specs

variable {build : Build} {m m' : Mem} {raw socket : Bool} {out : Buffer} {f : Flow} {l : Life}
  {ps rest : List Ptr} {k : Nat} {P : Prop}

/-- The first piece of the output buffer goes to `async_send`, with the bytes of the
    pieces that are compacted into it; these are lost. -/
theorem startSend_spec (hb : out.Rep m ps) (hready : f.Ready m)
    (howns : Owns m (ps ++ (f.held ++ rest)) k) :
    (startSend raw socket out f).wlp build m fun r m' => socket = true ∧ ∃ ps' lost y,
      Outcome m m' out r.1 ps ps' r.2 lost rest k ∧ content m ps = y ++ content m' ps' ∧
      r.2.outgoing m' ps' = { f.outgoing m ps with
        isSending := true, writes := f.inFlight m ++ [(none, y)], out := content m' ps' } ∧
      r.2.sends = f.sends ∧ (¬ Compacts (lens m ps) → lost = []) := by
  simp only [startSend, onPieces, Prog.wlp_bind, Prog.wlp_mapFault]
  cases ps with
  | nil =>
    have hhead : out.head = none := hb.holds.rep.chain.head_eq
    rw [OutputBuffer.readPiece, Prog.wlp_bind, wlp_assert]
    intro _
    simp only [Buffer.pop, Queue.pop, hhead, Prog.wlp_bind, Prog.wlp_pure, asyncSend]
    exact Prog.wlp_throw _ _ _ _
  | cons p qs =>
    refine (OutputBuffer.readPiece_spec hb howns).imp ?_
    rintro r m' ⟨hr, dropped, ps', hsplit, hrep, howns', hsame, _, hbytes, honly⟩
    subst hsplit
    simp only [hr, asyncSend]
    cases socket with
    | false => exact Prog.wlp_throw _ _ _ _
    | true =>
      simp only [if_true, Prog.wlp_pure]
      have hkept : SameOn f.held m m' := hsame.right.left
      have hperm : (p :: (dropped ++ ps') ++ (f.held ++ rest)).Perm
          (ps' ++ (Flow.held { f with isSending := true, writes := f.writes ++ [⟨p, raw, none⟩] } ++
            (dropped ++ rest))) := by
        rw [List.perm_iff_count]
        intro a
        simp only [Flow.held, List.map_append, List.map_cons, List.map_nil, List.count_append,
          List.count_cons, List.count_nil]
        omega
      have hrest : content m' ps' = content m ps' := content_same hsame.left.right
      refine ⟨trivial, ps', dropped, (m'.cell p).bytes,
        ⟨hrep.holds, fun _ => hrep.length, (hready.same hkept).sub (fun _ h => h) (fun _ h => h),
          howns'.perm hperm, hsame.right.right⟩, ?_, ?_, trivial, fun h => honly (mt compacts_iff.mp h)⟩
      · rw [hbytes, hrest, content_cons, content_append, List.append_assoc]
      · have hwrites : f.inFlight m' = f.inFlight m := Flow.inFlight_same (hkept.mono fun a ha => by
          simp [Flow.held, ha])
        rw [← hwrites]
        simp [Flow.outgoing, Flow.inFlight]

theorem lens_eq (h : ∀ a, (m'.cell a).len = (m.cell a).len) (ps : List Ptr) : lens m' ps = lens m ps :=
  List.map_congr_left fun a _ => h a

theorem perm_first (ps qs hs rest : List Ptr) :
    (ps ++ (qs ++ (hs ++ rest))).Perm (ps ++ qs.take 1 ++ (hs ++ (qs.drop 1 ++ rest))) := by
  conv_lhs => rw [← List.take_append_drop 1 qs]
  rw [List.perm_iff_count]
  intro a
  simp only [List.count_append]
  omega

theorem sendInLoop_spec {task : SendTask} (hb : out.Rep m ps) (hready : f.Ready m)
    (htask : task ∈ f.sends) (howns : Owns m (ps ++ (f.held ++ rest)) k)
    (whole : P → content m (task.pieces.drop 1) = []) (user : l.pc.runsUserCode = true) :
    (sendInLoop l.socket out f task).wlp build m fun r m' => ∃ ps' lost,
      Outcome m m' out r.1 ps ps' r.2 lost rest k ∧
      OutStep P l l (f.outgoing m ps) (r.2.outgoing m' ps') ∧
      r.2.sends = f.sends.erase task ∧
      (task.pieces.length ≤ 1 →
        (f.isSending = false → ¬ Compacts (lens m (ps ++ task.pieces.take 1))) → lost = []) := by
  have hqueue := hready.holds task htask
  have hpayload := hready.payload task htask
  have hfirst : P → content m (task.pieces.take 1) = task.payload := by
    intro hP
    rw [← hpayload]
    conv_rhs => rw [← List.take_append_drop 1 task.pieces, content_append, whole hP, List.append_nil]
  have hheld := Flow.held_perm_task htask
  have hready' : { f with sends := f.sends.erase task }.Ready m :=
    hready.sub (fun _ h => h) fun _ h => List.mem_of_mem_erase h
  have howns' : Owns m (ps ++ (task.pieces ++
      ({ f with sends := f.sends.erase task }.held ++ rest))) k := by
    refine howns.perm ((hheld.append_right rest).append_left ps |>.trans ?_)
    rw [List.append_assoc]
  simp only [sendInLoop, onPieces, Prog.wlp_bind, Prog.wlp_mapFault, hqueue.rep.chain.head_eq]
  refine (OutputBuffer.writePieceQueue_spec hb howns' hqueue.inside).imp ?_
  rintro b m₁ ⟨hb₁, howns₁, hsame₁, hcontent₁, hlens₁⟩
  have hwrites : SameOn (f.writes.map WriteOp.piece) m m₁ := hsame₁.mono fun p hp => by
    simp [Flow.held, hp]
  have hready₁ : { f with sends := f.sends.erase task }.Ready m₁ :=
    hready'.same (hsame₁.mono fun p hp => List.mem_append_right _ (List.mem_append_left _ hp))
  have hfew : (f.sends.erase task).length ≤ f.sends.length := List.length_erase_le
  have hbegun : l.status = .kConnected ∨ 0 < f.sends.length :=
    .inr (List.length_pos_of_mem htask)
  have hdrop : task.pieces.length ≤ 1 → task.pieces.drop 1 = [] := List.drop_eq_nil_of_le
  split
  · rename_i hsending
    rw [Prog.wlp_pure]
    refine ⟨ps ++ task.pieces.take 1, task.pieces.drop 1, ⟨hb₁.holds, fun _ => hb₁.length,
      hready₁.sub (fun _ h => h) (fun _ h => h), howns₁.perm (perm_first ..),
      hsame₁.mono fun p hp => List.mem_append_right _ (List.mem_append_right _ hp)⟩, ?_, rfl,
      fun hshort _ => hdrop hshort⟩
    have hstep : OutStep P l l (f.outgoing m ps) { f.outgoing m ps with
        tasks := (f.sends.erase task).length
        submitted := f.submitted ++ task.payload
        out := content m ps ++ content m (task.pieces.take 1) } :=
      .queued _ _ _ _ hfirst hfew hbegun hsending
    rw [← hcontent₁] at hstep
    simp only [Flow.outgoing, ← Flow.inFlight_same hwrites] at hstep ⊢
    exact hstep
  · rename_i hidle
    generalize hg : { f with sends := f.sends.erase task, submitted := f.submitted ++ task.payload } = g
    have hheld' : g.held = { f with sends := f.sends.erase task }.held := by rw [← hg]; rfl
    have howns₂ : Owns m₁ (ps ++ task.pieces.take 1 ++ (g.held ++ (task.pieces.drop 1 ++ rest))) k := by
      rw [hheld']
      exact howns₁.perm (perm_first ..)
    have hready₂ : g.Ready m₁ := by
      rw [← hg]
      exact hready₁.sub (fun _ h => h) (fun _ h => h)
    refine (startSend_spec hb₁ hready₂ howns₂).imp ?_
    rintro r m' ⟨hsocket, ps', dropped, y, hout, hsplit, houtgoing, hsends, honly⟩
    refine ⟨ps', dropped ++ task.pieces.drop 1, ⟨hout.holds, fun _ => hout.exact hb₁.length,
      hout.ready, ?_, ?_⟩, ?_, by rw [hsends, ← hg], ?_⟩
    · rw [List.append_assoc]
      exact hout.owns
    · have : SameOn rest m m₁ := hsame₁.mono fun p hp =>
        List.mem_append_right _ (List.mem_append_right _ hp)
      exact this.trans hout.same.right
    · have hstep : OutStep P l l (f.outgoing m ps) { f.outgoing m ps with
          tasks := (f.sends.erase task).length
          submitted := f.submitted ++ task.payload
          out := content m' ps'
          isSending := true
          writes := f.inFlight m ++ [(none, y)] } :=
        .started _ _ (content m (task.pieces.take 1)) y _ _ hfirst hfew hbegun
          (by simpa [Flow.outgoing] using hidle) hsocket user (by rw [← hsplit, hcontent₁]; rfl)
      rw [houtgoing, ← hg]
      simp only [Flow.outgoing, ← Flow.inFlight_same hwrites] at hstep ⊢
      exact hstep
    · intro hshort hno
      rw [honly (by rw [lens_eq hlens₁]; exact hno (by simpa using hidle)), hdrop hshort]
      rfl

/-- What `handleWrite` makes of the flow before it looks at the result. -/
def Flow.completed (f : Flow) (op : WriteOp) : Flow :=
  { f with isSending := false, writes := f.writes.erase op }

theorem launchWrite_spec (hb : out.Rep m ps) (hready : f.Ready m)
    (howns : Owns m (ps ++ (f.held ++ rest)) k) :
    (launchWrite socket out f).wlp build m fun r m' => ∃ ps' lost,
      Outcome m m' out r.1 ps ps' r.2 lost rest k ∧ (¬ Compacts (lens m ps) → lost = []) ∧
      (content m ps = [] ∧ r.2.outgoing m' ps' = f.outgoing m ps ∨
        socket = true ∧ ∃ y, content m ps = y ++ content m' ps' ∧
          r.2.outgoing m' ps' = { f.outgoing m ps with
            isSending := true, writes := f.inFlight m ++ [(none, y)], out := content m' ps' }) := by
  unfold launchWrite
  split
  · refine (startSend_spec hb hready howns).imp ?_
    intro r m' ⟨hsocket, ps', lost, y, hout, hsplit, houtgoing, _, honly⟩
    exact ⟨ps', lost, hout, honly, .inr ⟨hsocket, y, hsplit, houtgoing⟩⟩
  · rename_i hempty
    rw [Prog.wlp_pure]
    have hnil : content m ps = [] := List.length_eq_zero_iff.mp (by rw [← hb.length]; omega)
    exact ⟨ps, [], ⟨hb.holds, fun _ => hb.length, hready, howns, SameOn.refl _ _⟩, fun _ => rfl,
      .inl ⟨hnil, rfl⟩⟩

theorem handleWrite_spec {op : WriteOp} (hb : out.Rep m ps) (hready : f.Ready m) (hop : op ∈ f.writes)
    (hdone : op.result ≠ none) (howns : Owns m (ps ++ (f.held ++ rest)) k) :
    (handleWrite out f l op).wlp build m fun r m' => ∃ ps' lost,
      Outcome m m' out r.1 ps ps' r.2.1 lost rest k ∧
      OutStep P l r.2.2 (f.outgoing m ps) (r.2.1.outgoing m' ps') ∧
      ((∀ j, op.result = some (.success j) → ¬ Compacts (lens m ps)) → lost = []) := by
  unfold handleWrite
  split
  · rename_i halive
    have hperm : (ps ++ (f.held ++ rest)).Perm
        (op.piece :: (ps ++ ((f.completed op).held ++ rest))) :=
      (((Flow.held_perm_write hop).append_right rest).append_left ps).trans List.perm_middle
    simp only [onPieces, Prog.wlp_bind, Prog.wlp_mapFault]
    refine (howns.deletePiece hperm).wlp.imp ?_
    rintro _ m₁ ⟨howns₁, hsame₁⟩
    have hready₁ : (f.completed op).Ready m₁ :=
      Flow.Ready.same (hready.sub (fun _ h => h) (fun _ h => h)) hsame₁.right.left
    obtain ⟨pre, post, _, hwrites, herase⟩ := List.exists_erase_eq hop
    have hbefore : f.inFlight m = pre.map (fun op => (op.result, (m.cell op.piece).bytes)) ++
        (op.result, (m.cell op.piece).bytes) :: post.map fun op => (op.result, (m.cell op.piece).bytes) := by
      simp [Flow.inFlight, hwrites]
    have hafter : (f.completed op).inFlight m₁ =
        pre.map (fun op => (op.result, (m.cell op.piece).bytes)) ++
        post.map fun op => (op.result, (m.cell op.piece).bytes) := by
      rw [Flow.inFlight_same (m := m) (hsame₁.mono fun p hp => by simp [Flow.held, hp])]
      simp [Flow.inFlight, Flow.completed, herase]
    have hcontent : content m₁ ps = content m ps := content_same hsame₁.left
    have hidle : (f.completed op).outgoing m₁ ps = { f.outgoing m ps with
        isSending := false, writes := (f.completed op).inFlight m₁ } := by
      simp [Flow.outgoing, Flow.completed, hcontent]
    have hlens : lens m₁ ps = lens m ps := List.map_congr_left fun a ha => by rw [hsame₁.left a ha]
    have hstop : Outcome m m₁ out out ps ps (f.completed op) [] rest k :=
      ⟨hb.holds.same hsame₁.left, fun _ => (hb.same hsame₁.left).length, hready₁, howns₁,
        hsame₁.right.right⟩
    cases hresult : op.result with
    | none => exact absurd hresult hdone
    | some result =>
      rw [hresult] at hbefore
      cases result with
      | success j =>
        rw [Prog.wlp_bind]
        refine (launchWrite_spec (f := f.completed op) (hb.same hsame₁.left) hready₁ howns₁).imp ?_
        rintro r m' ⟨ps', lost, hout, honly, hlaunch⟩
        rw [Prog.wlp_pure]
        refine ⟨ps', lost, ⟨hout.holds, fun _ => hout.exact (hb.same hsame₁.left).length, hout.ready,
          hout.owns, hsame₁.right.right.trans hout.same⟩, ?_,
          fun h => honly (by rw [hlens]; exact h j rfl)⟩
        rw [hcontent] at hlaunch
        cases hlaunch with
        | inl hdrained =>
          rw [hdrained.2, hidle, hafter]
          exact .drained _ _ _ _ j halive hbefore hdrained.1
        | inr hnext =>
          obtain ⟨hsocket, y, hsplit, houtgoing⟩ := hnext
          rw [houtgoing, hidle, hafter]
          exact .next _ _ _ _ y _ j halive hbefore hsocket hsplit
      | failed =>
        rw [Prog.wlp_pure]
        refine ⟨ps, [], hstop, ?_, fun _ => rfl⟩
        show OutStep P l (TCPConn.handleError l) _ ((f.completed op).outgoing m₁ ps)
        rw [hidle, hafter]
        exact .gaveUp _ _ _ _ .failed halive hbefore (fun j h => by cases h) fun _ => rfl
      | aborted =>
        rw [Prog.wlp_pure]
        refine ⟨ps, [], hstop, ?_, fun _ => rfl⟩
        show OutStep P l l _ ((f.completed op).outgoing m₁ ps)
        rw [hidle, hafter]
        exact .gaveUp _ _ _ _ .aborted halive hbefore (fun j h => by cases h) fun h => by cases h
  · exact Prog.wlp_throw _ _ _ _

theorem Flow.outgoing_reads {f' : Flow} {reads : List ReadOp} (hf' : f' = { f with reads := reads })
    (hsame : SameOn (f.writes.map WriteOp.piece) m m') (hps : SameOn ps m m') :
    f'.outgoing m' ps = f.outgoing m ps := by
  subst hf'
  have hwrites : f.inFlight m' = f.inFlight m := Flow.inFlight_same hsame
  simp only [Flow.outgoing, ← hwrites, content_same hps]
  rfl

theorem launchRead_spec (hready : f.Ready m) (howns : Owns m (f.held ++ rest) k) :
    (launchRead socket f).wlp build m fun f' m' =>
      f'.Ready m' ∧ Owns m' (f'.held ++ rest) k ∧ SameOn (f.held ++ rest) m m' ∧
      ∃ reads, f' = { f with reads := reads } := by
  simp only [launchRead, onPieces, Prog.wlp_bind, Prog.wlp_mapFault]
  refine howns.newPiece.wlp.imp ?_
  rintro piece m' ⟨_, howns', hzero, hsame⟩
  split
  · rw [Prog.wlp_pure]
    have hkept : f.Ready m' := hready.same hsame.left
    refine ⟨⟨fun op hop => ?_, fun op hop d hd => ?_, hkept.holds, hkept.payload⟩,
      howns'.perm ?_, hsame, _, rfl⟩
    · cases List.mem_append.mp hop with
      | inl hold => exact hkept.reads op hold
      | inr hnew => rw [List.mem_singleton.mp hnew, hzero]
    · cases List.mem_append.mp hop with
      | inl hold => exact hkept.results op hold d hd
      | inr hnew => rw [List.mem_singleton.mp hnew] at hd; cases hd
    · rw [List.perm_iff_count]
      intro a
      simp only [Flow.held, List.map_append, List.map_cons, List.map_nil, List.count_append,
        List.count_cons, List.count_nil]
      omega
  · exact Prog.wlp_throw _ _ _ _

def ReadOp.bytes (op : ReadOp) : Bytes :=
  match op.result with
  | some (.success d) => d
  | _ => []

theorem handleRead_spec {inp : Buffer} {op : ReadOp} (hq : Holds m inp.toQueue ps) (hready : f.Ready m)
    (hop : op ∈ f.reads) (howns : Owns m (ps ++ (f.held ++ rest)) k) :
    (handleRead inp f l op).wlp build m fun r m' => ∃ ps',
      Outcome m m' inp r.1 ps ps' r.2.1 [] rest k ∧ SameOn (r.2.1.held ++ rest) m m' ∧
      r.2.1 = { f with reads := f.reads.erase op } ∧
      content m' ps' = content m ps ++ op.bytes := by
  have hready' : { f with reads := f.reads.erase op }.Ready m :=
    hready.sub (fun _ h => List.mem_of_mem_erase h) (fun _ h => h)
  have hperm : (ps ++ (f.held ++ rest)).Perm
      (ps ++ op.piece :: ({ f with reads := f.reads.erase op }.held ++ rest)) :=
    ((Flow.held_perm_read hop).append_right rest).append_left ps
  have hdelete : (deletePiece (some op.piece)).wlp build m fun _ m' =>
      Outcome m m' inp inp ps ps { f with reads := f.reads.erase op } [] rest k ∧
      SameOn ({ f with reads := f.reads.erase op }.held ++ rest) m m' ∧
      content m' ps = content m ps := by
    refine (howns.deletePiece (hperm.trans List.perm_middle)).wlp.imp ?_
    rintro _ m' ⟨howns', hsame⟩
    have hcontent : content m' ps = content m ps := content_same hsame.left
    exact ⟨⟨hq.same hsame.left, fun hexact => by rw [hcontent, hexact], hready'.same hsame.right.left,
      howns', hsame.right.right⟩, hsame.right, hcontent⟩
  unfold handleRead ReadOp.bytes
  simp only [onPieces]
  cases hresult : op.result with
  | none =>
    simp only [Prog.wlp_bind, Prog.wlp_mapFault, Prog.wlp_pure]
    exact hdelete.imp fun _ _ h => ⟨ps, h.1, h.2.1, trivial, by rw [h.2.2, List.append_nil]⟩
  | some result =>
    cases result with
    | failed =>
      simp only [Prog.wlp_bind, Prog.wlp_mapFault, Prog.wlp_pure]
      exact hdelete.imp fun _ _ h => ⟨ps, h.1, h.2.1, trivial, by rw [h.2.2, List.append_nil]⟩
    | aborted =>
      simp only [Prog.wlp_bind, Prog.wlp_mapFault, Prog.wlp_pure]
      exact hdelete.imp fun _ _ h => ⟨ps, h.1, h.2.1, trivial, by rw [h.2.2, List.append_nil]⟩
    | success d =>
      simp only [Prog.wlp_bind, Prog.wlp_mapFault, Prog.wlp_pure]
      obtain ⟨hne, hfit⟩ := hready.results op hop d hresult
      have howns₀ := howns.perm hperm
      have hfresh : op.piece ∉ ps ++ ({ f with reads := f.reads.erase op }.held ++ rest) :=
        (List.nodup_cons.mp (List.nodup_middle.mp howns₀.nodup)).1
      refine (InputBuffer.fillPiece_spec howns₀ (by simp) (hready.reads op hop) hfit).wlp.imp ?_
      rintro _ m₁ ⟨howns₁, hothers, hoff, hlen, hbytes, _⟩
      have hsame₁ : SameOn (ps ++ ({ f with reads := f.reads.erase op }.held ++ rest)) m m₁ :=
        fun p hp => hothers p fun e => hfresh (e ▸ hp)
      have hinside : (m₁.cell op.piece).off + (m₁.cell op.piece).len ≤ kPieceCapacity := by omega
      have hpos : 0 < (m₁.cell op.piece).len := by
        rw [hlen]
        exact List.length_pos_iff.mpr hne
      intro b m' hrun
      -- the merged piece is read after it was given back, so the pool has kept it
      have hkeeps := InputBuffer.keeps_of_writePiece (Q := fun _ _ => True) (hq.same hsame₁.left)
        howns₁ hinside ⟨b, m', hrun, trivial⟩
      obtain ⟨ps', hq', hlength, howns', hsame', hcontent, _⟩ :=
        (InputBuffer.writePiece_holds (hq.same hsame₁.left) howns₁ hpos hinside hkeeps).wlp b m' hrun
      have hsame := hsame₁.right.trans hsame'
      rw [hbytes, content_same hsame₁.left] at hcontent
      refine ⟨ps', ⟨hq', fun hexact => ?_, hready'.same hsame.left, howns', hsame.right⟩, hsame, trivial,
        hcontent⟩
      rw [hcontent, List.length_append, hlength, hlen, hexact]

theorem finishRead_spec {op : ReadOp} {result : ReadResult} (hready : f.Ready m) (hop : op ∈ f.reads)
    (possible : World.ReadPossible l result) :
    (World.finishRead f op result).Ready m ∧ f.held.Perm (World.finishRead f op result).held := by
  refine ⟨⟨fun a ha => ?_, fun a ha d hd => ?_, hready.holds, hready.payload⟩, ?_⟩
  · cases List.mem_append.mp ha with
    | inl hold => exact hready.reads a (List.mem_of_mem_erase hold)
    | inr hnew =>
      rw [List.mem_singleton.mp hnew]
      exact hready.reads op hop
  · cases List.mem_append.mp ha with
    | inl hold => exact hready.results a (List.mem_of_mem_erase hold) d hd
    | inr hnew =>
      rw [List.mem_singleton.mp hnew] at hd
      obtain rfl : result = .success d := Option.some.inj hd
      exact possible.2
  · refine (Flow.held_perm_read hop).trans ?_
    rw [List.perm_iff_count]
    intro a
    simp only [World.finishRead, Flow.held, List.map_append, List.map_cons, List.map_nil,
      List.count_append, List.count_cons, List.count_nil]
    omega

theorem finishWrite_spec {op : WriteOp} {result : WriteResult} (ps : List Ptr) (hready : f.Ready m)
    (hop : op ∈ f.writes) (hpending : op.result = none)
    (possible : World.WritePossible m l op result)
    (whole : P → ∀ j, result = .success j → j = (m.cell op.piece).len) :
    (World.finishWrite m f op result).Ready m ∧ f.held.Perm (World.finishWrite m f op result).held ∧
      OutStep P l l (f.outgoing m ps) ((World.finishWrite m f op result).outgoing m ps) := by
  have hparts : ∃ wire failed, World.finishWrite m f op result = { f with
      writes := f.writes.erase op ++ [{ op with result := some result }]
      wire := wire
      failed := failed } := by
    cases result with
    | success j => exact ⟨_, _, rfl⟩
    | failed => exact ⟨_, _, rfl⟩
    | aborted => exact ⟨_, _, rfl⟩
  refine ⟨?_, ?_, ?_⟩
  · obtain ⟨wire, failed, heq⟩ := hparts
    rw [heq]
    exact hready.sub (fun _ h => h) (fun _ h => h)
  · obtain ⟨wire, failed, heq⟩ := hparts
    rw [heq]
    refine (Flow.held_perm_write hop).trans ?_
    rw [List.perm_iff_count]
    intro a
    simp only [Flow.held, List.map_append, List.map_cons, List.map_nil, List.count_append,
      List.count_cons, List.count_nil]
    omega
  · obtain ⟨pre, post, _, hwrites, herase⟩ := List.exists_erase_eq hop
    have hbefore : f.inFlight m = pre.map (fun op => (op.result, (m.cell op.piece).bytes)) ++
        (none, (m.cell op.piece).bytes) :: post.map fun op => (op.result, (m.cell op.piece).bytes) := by
      simp [Flow.inFlight, hwrites, hpending]
    cases result with
    | success j =>
      have hstep : OutStep P l l (f.outgoing m ps) _ := .transmitted _ _ _ _ j hbefore fun hP =>
        by rw [length_bytes]; exact whole hP j rfl
      simpa [World.finishWrite, Flow.outgoing, Flow.inFlight, herase] using hstep
    | failed =>
      have hstep : OutStep P l l (f.outgoing m ps) _ := .broke _ _ _ _ .failed hbefore
        (fun j h => by cases h) fun h => by cases h
      simpa [World.finishWrite, Flow.outgoing, Flow.inFlight, herase] using hstep
    | aborted =>
      have hstep : OutStep P l l (f.outgoing m ps) _ := .broke _ _ _ _ .aborted hbefore
        (fun j h => by cases h) fun _ => possible
      simpa [World.finishWrite, Flow.outgoing, Flow.inFlight, herase] using hstep

end Specs

end Netpp
