import Mathlib.Data.List.Infix
import Netpp.Conn.Contents
import Netpp.Conn.Reading
import Netpp.Lib.Machine

/-! # Two connections at the ends of one stream

The two ends of a TCP stream are two connections: what one transmits is what the
reads of the other complete with.  This module puts the sending side (`Stream`),
the reading side (`Receiving`) and the input buffers (`Contents`) together.

* `arrived` / `delivered`: what the kernel has completed reads with, and what
  `handleRead` has put into the input buffer, along a run.
* `Paired`: what the network does, and what the application must not do.
* `delivers_in_order`: `message_cb_` sees the bytes the other side was given to
  send, in order, each of them once.
-/

namespace Netpp

open TCPConn
open Function (update)

variable {n : Nat}

namespace Action

/-- What the kernel completes a read of the connection `d` with. -/
def arrival (d : Fin n) : Action n → Bytes
  | readDone c op result => if c = d then ReadOp.bytes { op with result := some result } else []
  | _ => []

/-- What `handleRead` hands to `message_cb_` of the connection `d`. -/
def delivery (d : Fin n) : Action n → Bytes
  | handleRead c op => if c = d then op.bytes else []
  | _ => []

/-- The application takes bytes from the buffer `i`, and does not put any there. -/
def TakesFrom (i : BufferId n) : Action n → Prop
  | buffer (.write j _) | buffer (.writeInt32 j _) | buffer (.writeInt16 j _)
  | buffer (.writeInt8 j _) | buffer (.prepend j _) | buffer (.prependInt32 j _)
  | buffer (.prependInt16 j _) | buffer (.prependInt8 j _) | buffer (.readBuffer _ _ j) => j ≠ i
  | buffer (.swap j l) => j ≠ i ∧ l ≠ i
  | _ => True

end Action

def arrived (d : Fin n) (as : List (Action n)) : Bytes := as.flatMap (Action.arrival d)

def delivered (d : Fin n) (as : List (Action n)) : Bytes := as.flatMap (Action.delivery d)

@[simp] theorem arrived_snoc (d : Fin n) (as : List (Action n)) (a : Action n) :
    arrived d (as ++ [a]) = arrived d as ++ a.arrival d := by
  simp [arrived]

@[simp] theorem delivered_snoc (d : Fin n) (as : List (Action n)) (a : Action n) :
    delivered d (as ++ [a]) = delivered d as ++ a.delivery d := by
  simp [delivered]

/-- The system of all connections, as a machine. -/
def World.machine (n : Nat) : Machine Build Mem ConnFault (World n) (Action n) where
  Init w m := w = {} ∧ ∃ cell, m = { cell := cell }
  Enabled := World.Enabled
  exec := World.exec

/-- `peer d` is the connection at the other end of `d`, if it is one of this system.  The
    network delivers what the peer has transmitted, from its beginning and without a gap. -/
structure Paired (peer : Fin n → Option (Fin n)) (as : List (Action n)) (w : World n) (m : Mem)
    (a : Action n) : Prop where
  whole : w.Whole m a
  network : ∀ c d, peer d = some c → arrived d (as ++ [a]) <+: (w.flow c).wire
  reader : ∀ d, a.TakesFrom (.input d)

/-- The bytes of the completed reads that no handler has taken yet. -/
def Flow.pending (f : Flow) : Bytes := f.reads.flatMap ReadOp.bytes

section Steps

variable {build : Build} {w w' : World n} {m m' : Mem} {a : Action n} {c d : Fin n}

theorem OutStep.wire {P : Prop} {l l' : Life} {o o' : Outgoing} (h : OutStep P l l' o o') :
    o.wire <+: o'.wire := by
  cases h with
  | transmitted pre post y k _ _ => exact List.prefix_append ..
  | _ => exact List.prefix_rfl

theorem exec_wire {chain : BufferId n → List Ptr} {lost : List Ptr} {k : Nat}
    (h : w.Custody m chain lost k) (enabled : w.Enabled m a)
    (done : w.exec a build m = .ok (w', m')) (c : Fin n) :
    (w.flow c).wire <+: (w'.flow c).wire := by
  obtain ⟨_, _, _, _, _, hsteps⟩ := World.exec_custody h enabled w' m' done
  exact (hsteps c).wire

theorem resume_pending {l : Life} {f : Flow} :
    (resume l f).wlp build m fun r _ => r.2.pending = f.pending := by
  have hlaunch : (launchRead l.socket f).wlp build m fun f' _ => f'.pending = f.pending := by
    refine launchRead_reads.imp ?_
    rintro f' _ ⟨piece, hreads⟩
    simp [Flow.pending, hreads, ReadOp.bytes]
  unfold TCPConn.resume
  cases l.pc with
  | connected =>
    simp only [Prog.wlp_bind, Prog.wlp_pure]
    exact hlaunch
  | message =>
    simp only [Prog.wlp_bind, Prog.wlp_pure]
    exact hlaunch
  | closing =>
    simp only [Prog.wlp_bind, Prog.wlp_pure]
    exact fun _ _ _ => trivial
  | _ => exact (Prog.wlp_pure ..).mpr rfl

theorem exec_pending (enabled : w.Enabled m a) (done : w.exec a build m = .ok (w', m'))
    (hreading : Receiving (w.life d) (w.flow d).reads) :
    a.delivery d ++ (w'.flow d).pending = (w.flow d).pending ++ a.arrival d := by
  by_cases hdone : ∃ op result, a = .readDone d op result
  · obtain ⟨op, result, rfl⟩ := hdone
    obtain ⟨hreads, hrest⟩ := hreading.erase enabled.1
    cases done
    have hnone : op.bytes = [] := by simp [ReadOp.bytes, enabled.2.1]
    have hafter : ((w.setFlow d (World.finishRead (w.flow d) op result)).flow d).reads =
        [{ op with result := some result }] := by
      simp [World.setFlow, World.finishRead, hrest]
    rw [Flow.pending, hafter, Flow.pending, hreads]
    simp [Action.delivery, Action.arrival, hnone]
  by_cases hhandle : ∃ op, a = .handleRead d op
  · obtain ⟨op, rfl⟩ := hhandle
    obtain ⟨hreads, hrest⟩ := hreading.erase enabled.1
    rw [Flow.pending, exec_handleRead_reads done, hrest, Flow.pending, hreads]
    simp [Action.delivery, Action.arrival]
  have harrival : a.arrival d = [] := by
    cases a with
    | readDone c op result =>
      have hc : c ≠ d := fun e => hdone ⟨op, result, by rw [e]⟩
      simp [Action.arrival, hc]
    | _ => rfl
  have hdelivery : a.delivery d = [] := by
    cases a with
    | handleRead c op =>
      have hc : c ≠ d := fun e => hhandle ⟨op, by rw [e]⟩
      simp [Action.delivery, hc]
    | _ => rfl
  rw [harrival, hdelivery, List.nil_append, List.append_nil]
  by_cases hresume : a = .resume d
  · subst hresume
    have hwlp : (w.exec (.resume d)).wlp build m fun w' _ =>
        (w'.flow d).pending = (w.flow d).pending := by
      simp only [World.exec, Prog.wlp_bind, Prog.wlp_pure]
      refine resume_pending.imp ?_
      intro r _ hr
      simpa [World.setLife, World.setFlow] using hr
    exact hwlp w' m' done
  · have hsame := exec_reads_same done (fun op result h => hdone ⟨op, result, h⟩)
      (fun op h => hhandle ⟨op, h⟩) hresume
    rw [Flow.pending, hsame, Flow.pending]

theorem update_suffix {ι : Type} [DecidableEq ι] {d : ι → Bytes} {i : ι} {x : Bytes}
    (h : x <:+ d i) (j : ι) : update d i x j <:+ d j := by
  by_cases hj : j = i
  · subst hj
    rw [Function.update_self]
    exact h
  · rw [Function.update_of_ne hj]

theorem apply_suffix {op : BufferOp (BufferId n)} (d : BufferId n → Bytes) {i : BufferId n}
    (h : (Action.buffer op).TakesFrom i) : ((op.actual m w.bufs).apply d).2 i <:+ d i := by
  have hother : ∀ j x, j ≠ i → update d j x i <:+ d i := by
    intro j x hj
    rw [Function.update_of_ne hj.symm]
  cases op with
  | write j x => exact hother j _ h
  | writeInt32 j x => exact hother j _ h
  | writeInt16 j x => exact hother j _ h
  | writeInt8 j x => exact hother j _ h
  | prepend j x => exact hother j _ h
  | prependInt32 j x => exact hother j _ h
  | prependInt16 j x => exact hother j _ h
  | prependInt8 j x => exact hother j _ h
  | reservedPrepend j len => exact List.suffix_rfl
  | readBuffer j len l =>
    simp only [BufferOp.actual, BufferOp.apply, Function.update_of_ne (Ne.symm h)]
    exact update_suffix (List.drop_suffix ..) i
  | swap j l =>
    simp only [BufferOp.actual, BufferOp.apply, Function.update_of_ne (Ne.symm h.1),
      Function.update_of_ne (Ne.symm h.2)]
    exact List.suffix_rfl
  | readAll j => exact update_suffix (List.drop_suffix ..) i
  | moveToQueueHead j => exact update_suffix (List.nil_suffix) i
  | clear j => exact update_suffix (List.nil_suffix) i
  | read j len => exact update_suffix (List.drop_suffix ..) i
  | readString j len => exact update_suffix (List.drop_suffix ..) i
  | readInt32 j => exact update_suffix (List.drop_suffix ..) i
  | readInt16 j => exact update_suffix (List.drop_suffix ..) i
  | readInt8 j => exact update_suffix (List.drop_suffix ..) i
  | skip j len => exact update_suffix (List.drop_suffix ..) i

/-- A reader's input buffer grows at its end by what `handleRead` delivers, and shrinks at its
    front. -/
theorem moves_input (d : BufferId n → Bytes) (c : Fin n) (h : a.TakesFrom (.input c)) :
    a.moves w m d (.input c) <:+ d (.input c) ++ a.delivery c := by
  have hsame : a.delivery c = [] → a.moves w m d (.input c) <:+ d (.input c) →
      a.moves w m d (.input c) <:+ d (.input c) ++ a.delivery c := by
    intro hnone hsuffix
    rwa [hnone, List.append_nil]
  cases a with
  | buffer op => exact hsame rfl (apply_suffix d h)
  | sendBuffer e i inLoop =>
    apply hsame rfl
    simp only [Action.moves]
    split
    · exact update_suffix (List.nil_suffix) _
    · exact List.suffix_rfl
  | handleRead e op =>
    simp only [Action.moves, Action.delivery]
    by_cases he : e = c
    · subst he
      rw [Function.update_self, if_pos rfl]
    · have hinput : (BufferId.input c : BufferId n) ≠ .input e := fun h => he (BufferId.input.inj h).symm
      rw [Function.update_of_ne hinput, if_neg he, List.append_nil]
  | destroy e =>
    apply hsame rfl
    simp only [Action.moves]
    rw [Function.update_of_ne (by simp)]
    exact update_suffix (List.nil_suffix) _
  | _ => exact hsame rfl List.suffix_rfl

end Steps

/-! ## Runs -/

section Runs

variable {build : Build} {peer : Fin n → Option (Fin n)} {as : List (Action n)} {w w' : World n}
  {m m' : Mem} {c d : Fin n}

/-- Between the reads and the input buffer of a connection, and what its peer has transmitted. -/
structure Delivering (peer : Fin n → Option (Fin n)) (as : List (Action n)) (w : World n) (m : Mem)
    (d : Fin n) : Prop where
  pending : arrived d as = delivered d as ++ (w.flow d).pending
  sent : ∀ c, peer d = some c → arrived d as <+: (w.flow c).wire
  input : w.bytes m (.input d) <:+ delivered d as

theorem run_of {P : List (Action n) → World n → Mem → Action n → Prop}
    {Q : World n → Mem → Action n → Prop} (h : (World.machine n).Run build P as w m)
    (hpq : ∀ as w m a, P as w m a → Q w m a) : RunOf build Q w m := by
  induction h with
  | start init =>
    obtain ⟨rfl, cell, rfl⟩ := init
    exact .start cell
  | step a _ enabled condition done ih => exact ih.step a enabled (hpq _ _ _ _ condition) done

theorem run_delivering (h : (World.machine n).Run build (Paired peer) as w m) (d : Fin n) :
    Delivering peer as w m d := by
  refine h.history (I := fun as w m => Delivering peer as w m d) ?_ ?_
  · rintro w m ⟨rfl, cell, rfl⟩
    exact ⟨rfl, fun _ _ => List.nil_prefix, List.suffix_rfl⟩
  · intro as w m a w' m' before ih enabled paired done
    have hrun := run_of (Q := World.Whole) before fun _ _ _ _ hpaired => hpaired.whole
    obtain ⟨chain, lost, k, hcustody, _⟩ := hrun.custody
    have hpending := exec_pending enabled done (hrun.reading d)
    refine ⟨?_, fun c hc => ?_, ?_⟩
    · rw [arrived_snoc, delivered_snoc, ih.pending, List.append_assoc, List.append_assoc, hpending]
    · exact (paired.network c d hc).trans (exec_wire hcustody enabled done c)
    · have hbytes := World.exec_bytes (i := .input d) hcustody enabled done fun c h => by cases h
      rw [hbytes, delivered_snoc]
      refine (moves_input _ d (paired.reader d)).trans ?_
      exact List.suffix_append_self_iff.mpr ih.input

/-- Whatever the two loop threads, the kernel and the application do: what `message_cb_` of a
    connection is given is a prefix of what its peer was given to send, and its input buffer
    holds the last bytes of that.  It is all of it once the peer has nothing in flight and no
    send has failed, the network has delivered everything, and no read is waiting for its
    handler. -/
theorem delivers_in_order (h : (World.machine n).Run build (Paired peer) as w m)
    (hpeer : peer d = some c) :
    delivered d as <+: (w.flow c).submitted ∧ w.bytes m (.input d) <:+ delivered d as ∧
    ((w.flow c).writes = [] → (w.flow c).failed = false → arrived d as = (w.flow c).wire →
      (∀ op ∈ (w.flow d).reads, op.result = none) → delivered d as = (w.flow c).submitted) := by
  have hdelivering := run_delivering h d
  have hrun := run_of (Q := World.Whole) h fun _ _ _ _ hpaired => hpaired.whole
  obtain ⟨hsent, hall⟩ := transmits_submitted hrun c
  have hdelivered : delivered d as <+: arrived d as := by
    rw [hdelivering.pending]
    exact List.prefix_append ..
  refine ⟨(hdelivered.trans (hdelivering.sent c hpeer)).trans hsent, hdelivering.input, ?_⟩
  intro hwrites hfailed harrived hnone
  have hpending : (w.flow d).pending = [] := by
    rw [Flow.pending, List.flatMap_eq_nil_iff]
    intro op hop
    simp [ReadOp.bytes, hnone op hop]
  have hsame := hdelivering.pending
  rw [hpending, List.append_nil, harrived, hall hwrites hfailed] at hsame
  exact hsame.symm

theorem step_quiet (h : (World.machine n).Run build (Paired peer) as w m) (a : Action n)
    (enabled : w.Enabled m a) (whole : w.Whole m a) (quiet : ∀ d, arrived d (as ++ [a]) = [])
    (reader : ∀ d, a.TakesFrom (.input d)) (done : w.exec a build m = .ok (w', m')) :
    (World.machine n).Run build (Paired peer) (as ++ [a]) w' m' := by
  refine h.step a enabled ⟨whole, fun c d _ => ?_, reader⟩ done
  rw [quiet d]
  exact List.nil_prefix

end Runs

/-! ## Two bytes -/

/-- The second connection reads what the first transmits. -/
def secondReads (d : Fin 2) : Option (Fin 2) := if d = 1 then some 0 else none

/-- The first connection has transmitted two bytes, and the second waits for them. -/
theorem two_transmitted : ∃ (as : List (Action 2)) (w : World 2) (m : Mem),
    (World.machine 2).Run .release (Paired secondReads) as w m ∧ (∀ d, arrived d as = []) ∧
    delivered 1 as = [] ∧ (w.flow 0).wire = [1, 2] ∧ (w.flow 1).reads = [⟨2, none⟩] ∧
    (w.life 1).pc = .idle ∧ (w.life 1).socket = true ∧ (w.bufs (.input 1)).tail = none := by
  have r : (World.machine 2).Run .release (Paired secondReads) [] ({} : World 2) emptyMem :=
    .start ⟨rfl, _, rfl⟩
  have r := step_quiet r (.connectEstablished 0) ⟨rfl, rfl, rfl⟩ trivial (fun _ => rfl)
    (fun _ => trivial) rfl
  have r := step_quiet r (.resume 0) (by intro h; cases h) trivial (fun _ => rfl)
    (fun _ => trivial) rfl
  have r := step_quiet r (.resume 0) (by intro h; cases h) trivial (fun _ => rfl)
    (fun _ => trivial) rfl
  have r := step_quiet r (.sendData 0 [1, 2] true) ⟨rfl, fun _ => rfl⟩ (fun _ => by decide)
    (fun _ => rfl) (fun _ => trivial) rfl
  have r := step_quiet r (.writeDone 0 ⟨1, true, none⟩ (.success 2))
    ⟨.head _, rfl, rfl, fun _ => by decide, Nat.le_refl _⟩ rfl (fun _ => rfl) (fun _ => trivial) rfl
  have r := step_quiet r (.connectEstablished 1) ⟨rfl, rfl, rfl⟩ trivial (fun _ => rfl)
    (fun _ => trivial) rfl
  have r := step_quiet r (.resume 1) (by intro h; cases h) trivial (fun _ => rfl)
    (fun _ => trivial) rfl
  have r := step_quiet r (.resume 1) (by intro h; cases h) trivial (fun _ => rfl)
    (fun _ => trivial) rfl
  exact ⟨_, _, _, r, fun _ => rfl, rfl, rfl, rfl, rfl, rfl, rfl⟩

/-- The two bytes arrive at once. -/
theorem delivers_in_order_two : ∃ (as : List (Action 2)) (w : World 2) (m : Mem),
    (World.machine 2).Run .release (Paired secondReads) as w m ∧
    delivered 1 as = [1, 2] ∧ delivered 1 as <+: (w.flow 0).submitted := by
  obtain ⟨as, w, m, r, hquiet, hnone, hwire, hreads, hidle, hsocket, hempty⟩ := two_transmitted
  have hnetwork : ∀ c d : Fin 2, secondReads d = some c → d = 1 ∧ c = 0 := by decide
  have r := r.step (Action.readDone 1 ⟨2, none⟩ (.success [1, 2]))
    ⟨by rw [hreads]; exact .head _, rfl, hsocket, by decide, by decide⟩
    ⟨trivial, fun c d h => by
      obtain ⟨rfl, rfl⟩ := hnetwork c d h
      rw [arrived_snoc, hquiet, hwire]
      exact List.prefix_rfl, fun _ => trivial⟩ rfl
  have hwhole := run_of (Q := World.Whole) r fun _ _ _ _ hpaired => hpaired.whole
  obtain ⟨chain, lost, k, hcustody, _⟩ := hwhole.custody
  have hop : (⟨2, some (.success [1, 2])⟩ : ReadOp) ∈
      ((w.setFlow 1 (World.finishRead (w.flow 1) ⟨2, none⟩ (.success [1, 2]))).flow 1).reads := by
    simp [World.setFlow, World.finishRead]
  obtain ⟨w', m', done, _⟩ : (World.exec _ (.handleRead 1 ⟨2, some (.success [1, 2])⟩)).wp
    .release _ _ := hcustody.handleRead_first hop rfl hempty
  have hlater : ([1, 2] : Bytes) <+: ((w.setFlow 1 (World.finishRead (w.flow 1) ⟨2, none⟩
      (.success [1, 2]))).flow 0).wire := by
    simp [World.setFlow, hwire]
  have r := r.step (Action.handleRead 1 ⟨2, some (.success [1, 2])⟩)
    ⟨hop, (by intro h; cases h), hidle⟩
    ⟨trivial, fun c d h => by
      obtain ⟨rfl, rfl⟩ := hnetwork c d h
      rw [arrived_snoc, arrived_snoc, hquiet]
      exact hlater, fun _ => trivial⟩ done
  refine ⟨_, w', m', r, ?_, (delivers_in_order (c := 0) (d := 1) r rfl).1⟩
  rw [delivered_snoc, delivered_snoc, hnone]
  rfl
end Netpp
