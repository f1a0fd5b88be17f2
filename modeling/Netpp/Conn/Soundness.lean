import Netpp.Conn.Link

/-! # What every step keeps

The invariants of connections hold along the runs of `World`.  A program whose callbacks do
more than make the calls of `Action` takes other steps as well; `Sound` is what all of them
have to keep.

* `Sound.exec`: a step of the kernel or of a loop thread keeps it, and so does `close`.
* `Sound.frame`: so does code on pieces that belong to no connection.
* `Sound.submit`: so does a `send` on the loop thread.
* `Sound.submit_returns`: it returns, and starts to transmit if nothing else is to be transmitted.
-/

namespace Netpp

open TCPConn
open Function (update)

variable {n : Nat}

/-- The step is a call with which the application moves bytes. -/
def Action.movesData : Action n → Bool
  | buffer _ | sendData _ _ _ | sendBuffer _ _ _ => true
  | _ => false

namespace World

/-- A destroyed connection is in no handler, and no handler is left to run. -/
structure Gone (l : Life) (f : Flow) : Prop where
  idle : l.pc = .idle
  calm : l.closers = [] ∧ l.closes = 0 ∧ l.timers = 0
  reads : f.reads = []

/-- What holds between two steps of connections on which `send` is called from their loop
    threads only. -/
structure Sound (w : World n) (m : Mem) (chain : BufferId n → List Ptr) (lost : List Ptr)
    (k : Nat) : Prop where
  custody : Custody w m chain lost k
  stage : ∀ c, Stage (w.life c)
  born : w.Born
  stream : ∀ c, Stream (w.life c) (w.outgoing m chain c)
  receiving : ∀ c, Receiving (w.life c) (w.flow c).reads
  posted : ∀ c, (w.flow c).sends = []
  gone : ∀ c, (w.life c).alive = false → Gone (w.life c) (w.flow c)

variable {w w' : World n} {m m' : Mem} {chain : BufferId n → List Ptr} {lost ps : List Ptr} {k : Nat}
  {c : Fin n} {build : Build} {a : Action n}

theorem Sound.initial (cell : Ptr → Piece) : Sound ({} : World n) { cell := cell } (fun _ => []) [] 0 where
  custody := Custody.initial cell
  stage := fun _ => .unborn rfl rfl rfl rfl rfl ⟨rfl, rfl, rfl⟩
  born := fun _ _ => rfl
  stream := fun _ => ⟨fun _ => ⟨rfl, rfl⟩, .idle rfl rfl rfl rfl rfl⟩
  receiving := fun _ =>
    ⟨Nat.zero_le _, fun _ => rfl, fun op hop => (by cases hop), fun hborn => (by cases hborn)⟩
  posted := fun _ => rfl
  gone := fun _ hdead => (by cases hdead)

/-- What has been transmitted has been submitted. -/
theorem Sound.wire (h : Sound w m chain lost k) (c : Fin n) :
    (w.flow c).wire <+: (w.flow c).submitted := by
  cases (h.stream c).phase with
  | idle _ _ _ _ all => exact ⟨[], by rw [List.append_nil]; exact all⟩
  | pending y _ _ _ all => exact ⟨_, all.symm⟩
  | sent k y _ _ _ all => exact ⟨_, all.symm⟩
  | failed r y _ _ _ _ _ sub => exact sub
  | broken _ _ _ sub => exact sub
  | abandoned r y _ _ _ _ sub => exact sub

theorem Sound.alive (h : Sound w m chain lost k) (hpc : (w.life c).pc ≠ .idle) :
    (w.life c).alive = true := by
  cases hdead : (w.life c).alive with
  | true => rfl
  | false => exact absurd (h.gone c hdead).idle hpc

/-! ## Steps of the system -/

/-- The tasks that are posted, and what has been submitted, are the same. -/
def SamePosts (f f' : Flow) : Prop := f'.sends = f.sends ∧ f'.submitted = f.submitted

theorem startSend_posts {raw socket : Bool} {out : Buffer} {f : Flow} :
    (startSend raw socket out f).wlp build m fun r _ => SamePosts f r.2 := by
  simp only [startSend, Prog.wlp_bind, Prog.wlp_pure]
  intro r m' _
  unfold asyncSend
  -- no piece to send from, and no socket to send to, are faults
  cases r.1 with
  | none => exact Prog.wlp_throw _ _ _ _
  | some p =>
    cases socket with
    | true => exact (Prog.wlp_pure ..).mpr ⟨rfl, rfl⟩
    | false => exact Prog.wlp_throw _ _ _ _

theorem handleWrite_posts {out : Buffer} {f : Flow} {l : Life} {op : WriteOp} :
    (handleWrite out f l op).wlp build m fun r _ => SamePosts f r.2.1 := by
  unfold TCPConn.handleWrite
  split
  · rw [Prog.wlp_bind]
    intro _ m' _
    split
    · simp only [launchWrite, Prog.wlp_bind, Prog.wlp_pure]
      split
      · exact startSend_posts
      · exact (Prog.wlp_pure ..).mpr ⟨rfl, rfl⟩
    · exact (Prog.wlp_pure ..).mpr ⟨rfl, rfl⟩
    · exact (Prog.wlp_pure ..).mpr ⟨rfl, rfl⟩
  · exact Prog.wlp_throw _ _ _ _

theorem handleRead_posts {inp : Buffer} {f : Flow} {l : Life} {op : ReadOp} :
    (handleRead inp f l op).wlp build m fun r _ => SamePosts f r.2.1 := by
  unfold TCPConn.handleRead
  simp only
  split
  · simp only [Prog.wlp_bind, Prog.wlp_pure]
    exact fun _ _ _ _ _ _ => ⟨rfl, rfl⟩
  · simp only [Prog.wlp_bind, Prog.wlp_pure]
    exact fun _ _ _ => ⟨rfl, rfl⟩
  · simp only [Prog.wlp_bind, Prog.wlp_pure]
    exact fun _ _ _ => ⟨rfl, rfl⟩

theorem resume_posts {l : Life} {f : Flow} :
    (TCPConn.resume l f).wlp build m fun r _ => SamePosts f r.2 := by
  have hlaunch : (launchRead l.socket f).wlp build m fun f' _ => SamePosts f f' := by
    simp only [launchRead, Prog.wlp_bind]
    intro piece _ _
    split
    · exact (Prog.wlp_pure ..).mpr ⟨rfl, rfl⟩
    · exact Prog.wlp_throw _ _ _ _
  unfold TCPConn.resume
  cases l.pc with
  | connected =>
    simp only [Prog.wlp_bind, Prog.wlp_pure]
    exact hlaunch
  | message =>
    simp only [Prog.wlp_bind, Prog.wlp_pure]
    exact hlaunch
  | closing =>
    simp only [Prog.wlp_bind, Prog.wlp_pure]
    exact fun _ _ _ => ⟨rfl, rfl⟩
  | _ => exact (Prog.wlp_pure ..).mpr ⟨rfl, rfl⟩

theorem samePosts_update {f : Flow} (hflow : w'.flow = update w.flow c f)
    (h : SamePosts (w.flow c) f) (d : Fin n) : SamePosts (w.flow d) (w'.flow d) := by
  rw [hflow]
  by_cases hd : d = c
  · subst hd
    rw [Function.update_self]
    exact h
  · rw [Function.update_of_ne hd]
    exact ⟨rfl, rfl⟩

theorem exec_posts (still : a.movesData = false) (posted : ∀ c, (w.flow c).sends = [])
    (enabled : w.Enabled m a) (done : w.exec a build m = .ok (w', m')) (d : Fin n) :
    SamePosts (w.flow d) (w'.flow d) := by
  have hwlp : (w.exec a).wlp build m fun w' _ => ∀ d, SamePosts (w.flow d) (w'.flow d) := by
    cases a with
    | buffer _ | sendData _ _ _ | sendBuffer _ _ _ => cases still
    | readDone c op result =>
      exact (Prog.wlp_pure ..).mpr
        (samePosts_update (c := c) (f := finishRead (w.flow c) op result) rfl ⟨rfl, rfl⟩)
    | writeDone c op result =>
      intro w' m' h
      cases h
      refine fun d => samePosts_update (c := c) rfl ?_ d
      cases result <;> exact ⟨rfl, rfl⟩
    | runSend c task =>
      have hmem := enabled.1
      rw [posted c] at hmem
      cases hmem
    | handleRead c op =>
      simp only [World.exec, Prog.wlp_bind, Prog.wlp_pure]
      exact handleRead_posts.imp fun r _ h => samePosts_update rfl h
    | handleWrite c op =>
      simp only [World.exec, Prog.wlp_bind, Prog.wlp_pure]
      exact handleWrite_posts.imp fun r _ h => samePosts_update rfl h
    | resume c =>
      simp only [World.exec, Prog.wlp_bind, Prog.wlp_pure]
      exact resume_posts.imp fun r _ h => samePosts_update rfl h
    | destroy c =>
      simp only [World.exec, World.destroy, Prog.wlp_bind, Prog.wlp_pure]
      exact fun _ _ _ _ _ _ _ _ _ _ _ _ _ => ⟨rfl, rfl⟩
    | _ => exact (Prog.wlp_pure ..).mpr fun _ => ⟨rfl, rfl⟩
  exact hwlp w' m' done d

theorem Gone.exec (h : Gone (w.life c) (w.flow c)) (dead : (w.life c).alive = false)
    (still : a.movesData = false) (posted : (w.flow c).sends = []) (enabled : w.Enabled m a)
    (done : w.exec a build m = .ok (w', m')) : Gone (w'.life c) (w'.flow c) := by
  have hreads : (w'.flow c).reads = [] := exec_reads enabled done h.idle h.reads
  have hlife : w'.life c = w.life c := by
    by_cases hconn : a.conn = some c
    · cases a with
      | buffer _ | sendData _ _ _ | sendBuffer _ _ _ => cases still
      | close d | closeWithDelay d =>
        cases hconn
        have halive := enabled.1
        rw [dead] at halive
        cases halive
      | closeGoesOn d call =>
        cases hconn
        have hmem : call ∈ (w.life c).closers := enabled
        rw [h.calm.1] at hmem
        cases hmem
      | readDone d op result =>
        cases done
        rfl
      | writeDone d op result =>
        cases done
        rfl
      | connectEstablished d =>
        cases hconn
        have halive := enabled.1
        rw [dead] at halive
        cases halive
      | runSend d task =>
        cases hconn
        have hmem := enabled.1
        rw [posted] at hmem
        cases hmem
      | runClose d =>
        cases hconn
        have hpos := enabled.1
        rw [h.calm.2.1] at hpos
        cases hpos
      | fireTimer d =>
        cases hconn
        have hpos := enabled.1
        rw [h.calm.2.2] at hpos
        cases hpos
      | handleRead d op =>
        cases hconn
        have hmem := enabled.1
        rw [h.reads] at hmem
        cases hmem
      | handleWrite d op =>
        cases hconn
        have hwlp : (w.exec (.handleWrite c op)).wlp build m fun w' _ => w'.life c = w.life c := by
          simp only [World.exec, TCPConn.handleWrite, dead, Bool.false_eq_true, if_false,
            Prog.wlp_bind]
          exact Prog.wlp_throw _ _ _ _
        exact hwlp w' m' done
      | resume d =>
        cases hconn
        exact absurd h.idle enabled
      | destroy d =>
        cases hconn
        have halive := enabled.1
        rw [dead] at halive
        cases halive
    · exact exec_others done hconn
  exact ⟨hlife ▸ h.idle, hlife ▸ h.calm, hreads⟩

theorem exec_destroy (done : w.exec (.destroy c) build m = .ok (w', m')) :
    w'.life c = { w.life c with alive := false } ∧ w'.flow c = w.flow c := by
  have hwlp : (w.exec (.destroy c)).wlp build m fun w' _ =>
      w'.life c = { w.life c with alive := false } ∧ w'.flow c = w.flow c := by
    simp only [World.exec, World.destroy, Prog.wlp_bind, Prog.wlp_pure]
    exact fun _ _ _ _ _ _ _ _ _ _ _ _ => ⟨Function.update_self .., rfl⟩
  exact hwlp w' m' done

theorem Sound.exec (h : Sound w m chain lost k) (still : a.movesData = false) (enabled : w.Enabled m a)
    (whole : w.Whole m a) (done : w.exec a build m = .ok (w', m')) :
    ∃ chain' lost' k', Sound w' m' chain' lost' k' := by
  obtain ⟨chain', lost', k', hcustody, _, hsteps⟩ := exec_custody h.custody enabled w' m' done
  have hlife := exec_lifeStep h.born enabled done
  have hposts := exec_posts still h.posted enabled done
  refine ⟨chain', lost', k', hcustody, fun c => ?_, ?_, fun c => ⟨fun hnew => ?_, ?_⟩, fun c => ?_,
    fun c => (hposts c).1.trans (h.posted c), fun c hdead => ?_⟩
  · cases hlife c with
    | inl hsame => rw [hsame]; exact h.stage c
    | inr hstep => exact hstep.stage (h.stage c)
  · exact h.born.step (fun c => (h.stage c).idle_of_unborn) enabled done
  · have hold := exec_unborn h.born enabled done hnew
    exact (hsteps c).begun (h.stage c) hold ((h.stream c).begun hold)
  · exact (hsteps c).phase whole (h.stream c).phase (h.stage c) (hlife c)
      fun hold => ((h.stream c).begun hold).2
  · exact (exec_readStep enabled done c).reading (h.receiving c) (h.born c) (h.stage c) (hlife c)
  · -- a connection that is gone now was destroyed by this step, or was gone before
    by_cases hdestroy : a = .destroy c
    · subst hdestroy
      obtain ⟨_, hidle, ⟨hclosers, hcloses, htimers, hreads, _⟩, _⟩ := enabled
      obtain ⟨hlife', hflow'⟩ := exec_destroy done
      rw [hlife', hflow']
      exact ⟨hidle, ⟨hclosers, hcloses, htimers⟩, hreads⟩
    · have hold : (w.life c).alive = false := by
        rw [← exec_alive done hdestroy]
        exact hdead
      exact (h.gone c hold).exec hold still (h.posted c) enabled done

/-! ## Code on other pieces -/

/-- The frame rule for the pieces `ps`, which no connection and no buffer has. -/
theorem Custody.frame (h : Custody w m chain (ps ++ lost) k) : ∃ rest, Owns m (ps ++ rest) k ∧
    ∀ m' ps' k', Owns m' (ps' ++ rest) k' → SameOn rest m m' →
      Custody w m' chain (ps' ++ lost) k' ∧ (∀ i, SameOn (chain i) m m') ∧
      ∀ d, SameOn (w.flow d).held m m' := by
  obtain ⟨ids, hnodup, hout, howns⟩ := h.chains.owns
  have hperm : ∀ qs : List Ptr, (qs ++ (ids.flatMap chain ++ (w.held ++ lost))).Perm
      (ids.flatMap chain ++ (w.held ++ (qs ++ lost))) := by
    intro qs
    rw [List.perm_iff_count]
    intro p
    simp only [List.count_append]
    omega
  refine ⟨_, howns.perm (hperm ps).symm, fun m' ps' k' howns' hsame => ?_⟩
  have hchains : ∀ i, SameOn (chain i) m m' := by
    intro i
    by_cases hi : i ∈ ids
    · exact hsame.left.mono fun p hp => List.mem_flatMap.mpr ⟨i, hi, hp⟩
    · rw [hout i hi]
      exact fun p hp => (by cases hp)
  have hflows : ∀ d, SameOn (w.flow d).held m m' := fun d =>
    hsame.right.left.mono fun p hp => List.mem_flatMap.mpr ⟨d, List.mem_finRange d, hp⟩
  have hfamily : Chains m' w.bufs chain (w.held ++ (ps' ++ lost)) k' :=
    ⟨fun i => (h.chains.holds i).same (hchains i), ids, hnodup, hout, howns'.perm (hperm ps')⟩
  exact ⟨⟨hfamily, fun d => ((h.rep d).same (hchains _)).length, fun d => (h.ready d).same (hflows d)⟩,
    hchains, hflows⟩

theorem Sound.frame (h : Sound w m chain (ps ++ lost) k) : ∃ rest, Owns m (ps ++ rest) k ∧
    ∀ m' ps' k', Owns m' (ps' ++ rest) k' → SameOn rest m m' →
      Sound w m' chain (ps' ++ lost) k' ∧ ∀ i, SameOn (chain i) m m' := by
  obtain ⟨rest, howns, hput⟩ := h.custody.frame
  refine ⟨rest, howns, fun m' ps' k' howns' hsame => ?_⟩
  obtain ⟨hcustody, hchains, hflows⟩ := hput m' ps' k' howns' hsame
  refine ⟨{ h with custody := hcustody, stream := fun d => ?_ }, hchains⟩
  have hout : w.outgoing m' chain d = w.outgoing m chain d :=
    Flow.outgoing_reads rfl ((hflows d).mono fun p hp => by simp [Flow.held, hp]) (hchains _)
  rw [hout]
  exact h.stream d

/-- The code has the input buffer of a connection to itself. -/
theorem Sound.detach (h : Sound w m chain lost k) (c : Fin n) :
    Sound (w.setBuf (.input c) {}) m (update chain (.input c) []) (chain (.input c) ++ lost) k := by
  refine { h with custody := h.custody.detach (.input c), stream := fun d => ?_ }
  have hout : (w.setBuf (.input c) {}).outgoing m (update chain (.input c) []) d =
      w.outgoing m chain d := by
    show (w.flow d).outgoing m (update chain (.input c) [] (.output d)) = _
    rw [Function.update_of_ne (by simp)]
    rfl
  rw [hout]
  exact h.stream d

/-! ## Sending -/

theorem sendInLoop_posts {socket : Bool} {out : Buffer} {f : Flow} {task : SendTask} :
    (sendInLoop socket out f task).wlp build m fun r _ =>
      r.2.sends = f.sends.erase task ∧ r.2.submitted = f.submitted ++ task.payload := by
  simp only [sendInLoop, Prog.wlp_bind]
  intro b m' _
  split
  · exact (Prog.wlp_pure ..).mpr ⟨rfl, rfl⟩
  · exact startSend_posts.imp fun r _ h => h

theorem submit_posts {queue : Buffer} (posted : (w.flow c).sends = [])
    (hpieces : queue.pieces m = ps) :
    (w.submit c queue true).wlp build m fun w' _ => (w'.flow c).sends = [] ∧
      (w'.flow c).submitted = (w.flow c).submitted ++ content m ps ∧
      ∀ d, d ≠ c → w'.flow d = w.flow d := by
  simp only [World.submit, onPieces, Prog.wlp_bind, Prog.wlp_mapFault]
  refine (Prog.wp_of_eq_ok rfl |>.mpr ?_).wlp
  simp only [hpieces, if_true, runSendTask, Prog.wlp_bind, Prog.wlp_pure]
  refine sendInLoop_posts.imp ?_
  intro r _ hr
  simp only [setFlow, Function.update_self, posted, List.nil_append] at hr
  refine ⟨?_, ?_, fun d hd => ?_⟩
  · simp [setFlow, hr.1]
  · simp [setFlow, hr.2]
  · simp [setFlow, setBuf, Function.update_of_ne hd]

/-- A `send` on the loop thread: the connection is given the bytes `d`, and no input buffer and
    no other connection notices. -/
structure Submits (w : World n) (m : Mem) (chain : BufferId n → List Ptr) (c : Fin n) (d : Bytes)
    (w' : World n) (m' : Mem) : Prop where
  sound : ∃ chain' lost' k', Sound w' m' chain' lost' k'
  life : w'.life = w.life
  reads : ∀ e, (w'.flow e).reads = (w.flow e).reads
  submitted : (w'.flow c).submitted = (w.flow c).submitted ++ d
  others : ∀ e, e ≠ c → w'.flow e = w.flow e
  wire : ∀ e, (w.flow e).wire <+: (w'.flow e).wire
  inputs : ∀ e, Leaves w m chain (.input e) w' m'

/-- A `send` of a buffer of the callback's own, with one piece. -/
theorem Sound.submit {queue : Buffer} {p : Ptr} (h : Sound w m chain ([p] ++ lost) k)
    (hqueue : Holds m queue.toQueue [p]) (connected : (w.life c).status = .kConnected)
    (callable : w.Callable c true) :
    (w.submit c queue true).wlp build m (Submits w m chain c (content m [p])) := by
  have hpieces : queue.pieces m = [p] := by
    obtain ⟨rest, howns, _⟩ := h.frame
    exact hqueue.rep.pieces_eq fun q hq => howns.live (List.mem_append_left _ hq)
  have hwhole : FirstIsAll m queue := by
    intro q hq
    rw [hpieces] at hq
    cases hq
  intro w' m' done
  have hsubmit : Steps True False w.life (w.outgoing m chain) lost k w' m' :=
    h.custody.submit hqueue callable connected (fun _ _ => hwhole) (fun h => h.elim) w' m' done
  obtain ⟨chain', lost', k', hcustody, _, hsteps⟩ := hsubmit
  have hlife : w'.life = w.life := submit_life queue true w' m' done
  have hreads := submit_reads w' m' done
  obtain ⟨hposted, hsubmitted, hothers⟩ := submit_posts (h.posted c) hpieces w' m' done
  refine ⟨⟨chain', lost', k', hcustody, ?_, ?_, fun e => ⟨fun hnew => ?_, ?_⟩, ?_, fun e => ?_, ?_⟩,
    hlife, hreads, hsubmitted, hothers, fun e => (hsteps e).wire, fun e => ?_⟩
  · rw [hlife]
    exact h.stage
  · intro e hnew
    rw [hreads]
    exact h.born e (by rwa [hlife] at hnew)
  · rw [hlife] at hnew
    exact (hsteps e).begun (h.stage e) hnew ((h.stream e).begun hnew)
  · have hstill : w'.life e = w.life e ∨
        LifeStep (fun _ => True) (fun _ => True) (fun _ => True) (w.life e) (w'.life e) :=
      .inl (by rw [hlife])
    exact (hsteps e).phase trivial (h.stream e).phase (h.stage e) hstill
      fun hold => ((h.stream e).begun hold).2
  · intro e
    rw [hlife, hreads]
    exact h.receiving e
  · by_cases he : e = c
    · rw [he]
      exact hposted
    · rw [hothers e he]
      exact h.posted e
  · intro e hdead
    rw [hlife] at hdead ⊢
    have hgone := h.gone e hdead
    exact ⟨hgone.idle, hgone.calm, (hreads e).trans hgone.reads⟩
  · exact h.custody.submit_leaves hqueue callable (by simp) w' m' done

/-! ## A send returns -/

/-- The kernel has been given `d`, and has not answered. -/
def InFlight (w : World n) (m : Mem) (c : Fin n) (d : Bytes) : Prop :=
  ∃ op ∈ (w.flow c).writes, op.result = none ∧ (m.cell op.piece).bytes = d

/-- The kernel can transmit what it has been given, all of it. -/
theorem InFlight.transmitted {d : Bytes} (h : w.InFlight m c d) (hsocket : (w.life c).socket = true)
    (hd : 0 < d.length) :
    ∃ op, w.Enabled m (.writeDone c op (.success d.length)) ∧
      w.Whole m (.writeDone c op (.success d.length)) ∧
      (finishWrite m (w.flow c) op (.success d.length)).wire = (w.flow c).wire ++ d := by
  obtain ⟨op, hop, hpending, hbytes⟩ := h
  have hlen : (m.cell op.piece).len = d.length := by rw [← hbytes, length_bytes]
  refine ⟨op, ⟨hop, hpending, hsocket, fun _ => hd, hlen.ge⟩, hlen.symm, ?_⟩
  rw [finishWrite, hbytes, List.take_length]

theorem sendInLoop_returns {out : Buffer} {f : Flow} {task : SendTask} {p : Ptr} {rest : List Ptr}
    (hb : out.Rep m ps) (howns : Owns m (ps ++ p :: rest) k) (hhead : task.queue.head = some p)
    (inside : (m.cell p).off + (m.cell p).len ≤ kPieceCapacity) (hpos : 0 < (m.cell p).len) :
    (sendInLoop true out f task).wp build m fun r m' => r.2.wire = f.wire ∧
      (f.isSending = false → ps = [] →
        r.2.writes = f.writes ++ [⟨p, true, none⟩] ∧ (m'.cell p).bytes = (m.cell p).bytes) := by
  have hnodup := howns.nodup
  rw [List.nodup_middle, List.nodup_cons, List.mem_append, not_or] at hnodup
  simp only [sendInLoop, onPieces, Prog.wp_bind, Prog.wp_mapFault, hhead]
  refine (OutputBuffer.writePieceQueue_total hb (fun a ha => howns.live (by simp [ha]))
    (howns.live (by simp)) hnodup.1.1 inside hpos).imp ?_
  rintro out' m₁ ⟨hb₁, hlink, hcontent₁⟩
  split
  · rename_i hsending
    rw [Prog.wp_pure]
    refine ⟨rfl, fun hidle => ?_⟩
    rw [hidle] at hsending
    cases hsending
  · have howns₁ : Owns m₁ (ps ++ [p] ++ rest) k := by
      have howns₁ := howns.relinked hlink fun a ha => by
        cases List.mem_cons.mp ha with
        | inl h => simp [h]
        | inr h => simp [h]
      rwa [List.append_assoc]
    have hlength : 0 < out'.length := by
      rw [hb₁.length, hcontent₁, List.length_append, length_bytes]
      omega
    obtain ⟨q, qs, hqs⟩ : ∃ q qs, ps ++ [p] = q :: qs := List.exists_cons_of_ne_nil (by simp)
    rw [hqs] at hb₁ howns₁
    simp only [startSend, onPieces, Prog.wp_bind, Prog.wp_mapFault]
    refine (OutputBuffer.readPiece_wp hb₁ howns₁ fun _ => hlength).imp ?_
    rintro r m' ⟨hr, dropped, ps', hsplit, _, _, _, _, hbytes, _, _⟩
    simp only [asyncSend, hr, if_true, Prog.wp_pure]
    refine ⟨trivial, fun _ hnil => ?_⟩
    subst hnil
    obtain ⟨rfl, rfl⟩ := List.cons.inj hqs
    obtain ⟨rfl, rfl⟩ := List.append_eq_nil_iff.mp hsplit.symm
    refine ⟨rfl, ?_⟩
    rw [hbytes, content_nil, List.append_nil]
    simpa using hcontent₁

/-- A `send` on the loop thread does not fail, and if the connection has nothing else to send, the
    kernel has the bytes when it is over. -/
theorem Sound.submit_returns {queue : Buffer} {p : Ptr} (h : Sound w m chain ([p] ++ lost) k)
    (hqueue : Holds m queue.toQueue [p]) (hpos : 0 < (m.cell p).len)
    (connected : (w.life c).status = .kConnected) :
    (w.submit c queue true).wp build m fun w' m' => (w'.flow c).wire = (w.flow c).wire ∧
      ((w.flow c).isSending = false → (w.bufs (.output c)).head = none →
        InFlight w' m' c (m.cell p).bytes) := by
  obtain ⟨rest, hfocus⟩ := h.custody.focus (.output c) c
  have hsocket : (w.life c).socket = true := (h.stage c).socket_of_connected connected
  have hperm : (chain (.output c) ++ ((w.flow c).held ++ ([p] ++ lost ++ rest))).Perm
      (chain (.output c) ++ p :: ((w.flow c).held ++ (lost ++ rest))) := by
    apply List.Perm.append_left
    rw [List.append_assoc]
    exact List.perm_middle
  simp only [World.submit, onPieces, Prog.wp_bind, Prog.wp_mapFault]
  refine (Prog.wp_of_eq_ok rfl).mpr ?_
  simp only [if_true, World.runSendTask, Prog.wp_bind, Prog.wp_pure, setFlow, Function.update_self,
    hsocket]
  refine (sendInLoop_returns (h.custody.rep c) (hfocus.owns.perm hperm) hqueue.rep.chain.head_eq
    hqueue.insideHead hpos).imp ?_
  rintro r m' ⟨hwire, hsent⟩
  refine ⟨?_, fun hidle hnone => ?_⟩
  · simpa [setBuf] using hwire
  · obtain ⟨hwrites, hbytes⟩ := hsent hidle (h.custody.nil_of_head hnone)
    refine ⟨⟨p, true, none⟩, ?_, rfl, hbytes⟩
    simp [setBuf, hwrites]

end World

end Netpp
