import Netpp.Conn.Frame
import Netpp.Conn.Stream

/-! # Reading

`launchRead` and `handleRead` call each other through the kernel: a connection that reads has
one `async_read_some` at a time, which fills one piece.

* `ReadStep`: all that a step can do to the reads of a connection.
* `Receiving`: what holds between the reads and the handler the loop thread is in.
* `single_reader`: a connection never has two reads, and one that is open and idle has one.
-/

namespace Netpp

open TCPConn

/-- The loop thread is in a handler that ends with `launchRead`. -/
def LoopPc.launches : LoopPc → Bool
  | connecting | connected | message => true
  | _ => false

/-- What a step from `l` to `l'` can do to the reads of the connection. -/
inductive ReadStep (l l' : Life) (reads : List ReadOp) : List ReadOp → Prop
  | same (pc : l'.pc.launches = l.pc.launches) : ReadStep l l' reads reads
  | begun (new : l.established = false) (pc : l'.pc = .connecting) : ReadStep l l' reads reads
  | completed (op : ReadOp) (result : ReadResult) (hop : op ∈ reads) (pending : op.result = none)
      (possible : World.ReadPossible l result) (still : l' = l) :
      ReadStep l l' reads (reads.erase op ++ [{ op with result := some result }])
  | received (op : ReadOp) (d : Bytes) (hop : op ∈ reads) (hresult : op.result = some (.success d))
      (message : l'.pc = .message) : ReadStep l l' reads (reads.erase op)
  | broke (op : ReadOp) (hop : op ∈ reads) (hresult : op.result = some .failed)
      (error : l' = handleError l) : ReadStep l l' reads (reads.erase op)
  | dropped (op : ReadOp) (hop : op ∈ reads) (hresult : op.result = some .aborted) (still : l' = l) :
      ReadStep l l' reads (reads.erase op)
  | launched (piece : Ptr) (pc : l.pc = .connected ∨ l.pc = .message)
      (idle : l' = { l with pc := .idle }) : ReadStep l l' reads (reads ++ [⟨piece, none⟩])

section Steps

variable {n : Nat} {build : Build} {w w' : World n} {m m' : Mem} {a : Action n} {c : Fin n}
  {op : ReadOp}

theorem handleRead_life_eq {inp : Buffer} {f : Flow} {l : Life} :
    (handleRead inp f l op).wlp build m fun r _ =>
      (∀ d, op.result = some (.success d) → r.2.2.pc = .message) ∧
      (op.result = some .failed → r.2.2 = handleError l) ∧
      (op.result = some .aborted → r.2.2 = l) := by
  unfold TCPConn.handleRead
  cases op.result with
  | none =>
    simp only [Prog.wlp_bind, Prog.wlp_pure]
    intro _ _ _
    simp
  | some result =>
    cases result with
    | success d =>
      simp only [Prog.wlp_bind, Prog.wlp_pure]
      intro _ _ _ _ _ _
      simp
    | failed =>
      simp only [Prog.wlp_bind, Prog.wlp_pure]
      intro _ _ _
      simp
    | aborted =>
      simp only [Prog.wlp_bind, Prog.wlp_pure]
      intro _ _ _
      simp

theorem exec_handleRead_reads (done : w.exec (.handleRead c op) build m = .ok (w', m')) :
    (w'.flow c).reads = (w.flow c).reads.erase op := by
  have hwlp : (w.exec (.handleRead c op)).wlp build m fun w' _ =>
      (w'.flow c).reads = (w.flow c).reads.erase op := by
    simp only [World.exec, Prog.wlp_bind, Prog.wlp_pure]
    refine handleRead_reads.imp ?_
    intro r _ hreads
    simpa [World.setLife, World.setFlow] using hreads
  exact hwlp w' m' done

theorem exec_handleRead (enabled : w.Enabled m (.handleRead c op))
    (done : w.exec (.handleRead c op) build m = .ok (w', m')) :
    ReadStep (w.life c) (w'.life c) (w.flow c).reads (w'.flow c).reads := by
  obtain ⟨hop, hdone, _⟩ := enabled
  have hwlp : (w.exec (.handleRead c op)).wlp build m fun w' _ =>
      (∀ d, op.result = some (.success d) → (w'.life c).pc = .message) ∧
      (op.result = some .failed → w'.life c = handleError (w.life c)) ∧
      (op.result = some .aborted → w'.life c = w.life c) := by
    simp only [World.exec, Prog.wlp_bind, Prog.wlp_pure]
    refine handleRead_life_eq.imp ?_
    intro r _ hlife
    simpa [World.setLife] using hlife
  obtain ⟨hsuccess, hfailed, haborted⟩ := hwlp w' m' done
  rw [exec_handleRead_reads done]
  cases hresult : op.result with
  | none => exact absurd hresult hdone
  | some result =>
    cases result with
    | success d => exact .received op d hop hresult (hsuccess d hresult)
    | failed => exact .broke op hop hresult (hfailed hresult)
    | aborted => exact .dropped op hop hresult (haborted hresult)

theorem launchRead_reads {socket : Bool} {f : Flow} :
    (launchRead socket f).wlp build m fun f' _ => ∃ piece, f'.reads = f.reads ++ [⟨piece, none⟩] := by
  simp only [launchRead, Prog.wlp_bind]
  intro piece _ _
  split
  · exact (Prog.wlp_pure ..).mpr ⟨piece, rfl⟩
  · exact Prog.wlp_throw _ _ _ _

theorem handleClose_pc {l : Life} :
    (handleClose l).wlp build m fun l' _ => l'.pc.launches = false := by
  simp only [handleClose, Prog.wlp_bind]
  intro _ _ _
  split
  · simp only [Prog.wlp_bind, Prog.wlp_pure]
    exact fun _ _ _ => rfl
  · exact (Prog.wlp_pure ..).mpr rfl

theorem resume_reads {l : Life} {f : Flow} (h : l.pc ≠ .idle) :
    (resume l f).wlp build m fun r _ => ReadStep l r.1 f.reads r.2.reads := by
  have hlaunch : l.pc = .connected ∨ l.pc = .message →
      (launchRead l.socket f).wlp build m fun f' _ =>
        ReadStep l { l with pc := .idle } f.reads f'.reads := by
    intro hpc
    refine launchRead_reads.imp ?_
    rintro f' _ ⟨piece, hreads⟩
    rw [hreads]
    exact .launched piece hpc rfl
  unfold TCPConn.resume
  cases hpc : l.pc with
  | idle => exact absurd hpc h
  | connecting => exact (Prog.wlp_pure ..).mpr (.same (by rw [hpc]; rfl))
  | connected =>
    simp only [Prog.wlp_bind, Prog.wlp_pure]
    exact hlaunch (.inl hpc)
  | message =>
    simp only [Prog.wlp_bind, Prog.wlp_pure]
    exact hlaunch (.inr hpc)
  | closing =>
    simp only [Prog.wlp_bind, Prog.wlp_pure]
    intro l' m' hrun
    exact .same (by rw [handleClose_pc l' m' hrun, hpc]; rfl)
  | _ => exact (Prog.wlp_pure ..).mpr (.same (by rw [hpc]; rfl))

theorem exec_resume_reads (enabled : w.Enabled m (.resume c))
    (done : w.exec (.resume c) build m = .ok (w', m')) :
    ReadStep (w.life c) (w'.life c) (w.flow c).reads (w'.flow c).reads := by
  have hwlp : (w.exec (.resume c)).wlp build m fun w' _ =>
      ReadStep (w.life c) (w'.life c) (w.flow c).reads (w'.flow c).reads := by
    simp only [World.exec, Prog.wlp_bind, Prog.wlp_pure]
    refine (resume_reads enabled).imp ?_
    intro r _ hstep
    simpa [World.setLife, World.setFlow] using hstep
  exact hwlp w' m' done

theorem handleWrite_launches {out : Buffer} {f : Flow} {l : Life} {op : WriteOp}
    (idle : l.pc = .idle) :
    (handleWrite out f l op).wlp build m fun r _ => r.2.2.pc.launches = false := by
  have hsame : l.pc.launches = false := by rw [idle]; rfl
  have herror : (handleError l).pc.launches = false := by
    unfold handleError
    split
    · rfl
    · exact hsame
  unfold TCPConn.handleWrite
  split
  · rw [Prog.wlp_bind]
    intro _ _ _
    split
    · simp only [Prog.wlp_bind, Prog.wlp_pure]
      exact fun _ _ _ => hsame
    · exact (Prog.wlp_pure ..).mpr herror
    · exact (Prog.wlp_pure ..).mpr hsame
  · exact Prog.wlp_throw _ _ _ _

/-- A handler that starts is not one that reads, but for `connectEstablished` and `handleRead`. -/
theorem exec_starts (enabled : w.Enabled m a) (done : w.exec a build m = .ok (w', m'))
    (hstarts : a.starts = some c) (hhandle : ∀ op, a ≠ .handleRead c op)
    (hconnect : a ≠ .connectEstablished c) :
    (w.life c).pc = .idle ∧ (w'.life c).pc.launches = false := by
  cases a with
  | connectEstablished d => cases hstarts; exact absurd rfl hconnect
  | runSend d task =>
    cases hstarts
    have hlife := runSendTask_life task w' m' done
    rw [hlife, enabled.2]
    exact ⟨rfl, rfl⟩
  | runClose d =>
    cases hstarts
    cases done
    exact ⟨enabled.2, by simp [World.setLife, LoopPc.launches]⟩
  | fireTimer d =>
    cases hstarts
    cases done
    exact ⟨enabled.2, by simp [World.setLife, LoopPc.launches]⟩
  | handleRead d op => cases hstarts; exact absurd rfl (hhandle op)
  | handleWrite d op =>
    cases hstarts
    have hwlp : (w.exec (.handleWrite c op)).wlp build m fun w' _ =>
        (w'.life c).pc.launches = false := by
      simp only [World.exec, Prog.wlp_bind, Prog.wlp_pure]
      refine (handleWrite_launches enabled.2.2).imp ?_
      intro r _ hpc
      simpa [World.setLife] using hpc
    exact ⟨enabled.2.2, hwlp w' m' done⟩
  | _ => cases hstarts

theorem exec_readStep (enabled : w.Enabled m a) (done : w.exec a build m = .ok (w', m'))
    (c : Fin n) : ReadStep (w.life c) (w'.life c) (w.flow c).reads (w'.flow c).reads := by
  by_cases hresume : a = .resume c
  · subst hresume
    exact exec_resume_reads enabled done
  by_cases hhandle : ∃ op, a = .handleRead c op
  · obtain ⟨op, rfl⟩ := hhandle
    exact exec_handleRead enabled done
  by_cases hdone : ∃ op result, a = .readDone c op result
  · obtain ⟨op, result, rfl⟩ := hdone
    obtain ⟨hop, hpending, hpossible⟩ := enabled
    cases done
    simp only [World.setFlow, Function.update_self]
    exact .completed op result hop hpending hpossible rfl
  have hnot : ∀ op, a ≠ .handleRead c op := fun op h => hhandle ⟨op, h⟩
  rw [exec_reads_same done (fun op result h => hdone ⟨op, result, h⟩) hnot hresume]
  by_cases hconnect : a = .connectEstablished c
  · subst hconnect
    cases done
    exact .begun enabled.2.1 (by simp [World.setLife, connectEstablished])
  · apply ReadStep.same
    by_cases hstarts : a.starts = some c
    · obtain ⟨hidle, hpc⟩ := exec_starts enabled done hstarts hnot hconnect
      rw [hpc, hidle]
      rfl
    · rw [exec_pc done hresume hstarts]

end Steps

/-! ## The invariant -/

/-- Between the reads of a connection and the handler its loop thread is in. -/
structure Receiving (l : Life) (reads : List ReadOp) : Prop where
  single : reads.length ≤ 1
  before : l.pc.launches = true → reads = []
  aborted : ∀ op ∈ reads, op.result = some .aborted → l.socket = false
  waiting : l.established = true → l.pc.launches = false → ¬ Stuck l → reads ≠ []

section Invariant

variable {C M E : Life → Prop} {l l' : Life} {reads reads' : List ReadOp}

theorem LifeStep.established_same (h : LifeStep C M E l l') :
    l'.established = l.established ∨ l'.pc = .connecting := by
  cases h with
  | close call _ =>
    unfold compareExchange
    split <;> exact .inl rfl
  | closeGoesOn call _ => cases call <;> exact .inl rfl
  | connectEstablished _ _ => exact .inr rfl
  | handleError _ _ =>
    unfold TCPConn.handleError
    split <;> exact .inl rfl
  | _ => exact .inl rfl

theorem Receiving.erase (h : Receiving l reads) {op : ReadOp} (hop : op ∈ reads) :
    reads = [op] ∧ reads.erase op = [] := by
  have hlen := h.single
  cases reads with
  | nil => cases hop
  | cons a rest =>
    rw [List.length_cons] at hlen
    obtain rfl : rest = [] := List.length_eq_zero_iff.mp (by omega)
    obtain rfl := List.mem_singleton.mp hop
    exact ⟨rfl, by simp⟩

/-- A handler has taken the read, and will not launch another one before it is through. -/
theorem Receiving.taken (h : l'.pc.launches = true ∨ Stuck l') : Receiving l' [] := by
  refine ⟨Nat.zero_le _, fun _ => rfl, fun op hop => (by cases hop), fun _ hpc hnot => ?_⟩
  cases h with
  | inl hlaunches => rw [hlaunches] at hpc; cases hpc
  | inr hstuck => exact absurd hstuck hnot

theorem ReadStep.reading (h : ReadStep l l' reads reads') (hreading : Receiving l reads)
    (hborn : l.established = false → reads = []) (hstage : Stage l)
    (hlife : l' = l ∨ LifeStep C M E l l') : Receiving l' reads' := by
  have hsocket : l.socket = false → l'.socket = false := by
    cases hlife with
    | inl hsame => rw [hsame]; exact id
    | inr hstep => exact hstep.socket
  have hestablished : ∀ op ∈ reads, l.established = true := by
    intro op hop
    by_contra hnew
    rw [hborn (by simpa using hnew)] at hop
    cases hop
  cases h with
  | same hpc =>
    refine ⟨hreading.single, fun h => hreading.before (hpc ▸ h),
      fun op hop h => hsocket (hreading.aborted op hop h), fun hborn' hidle hnot => ?_⟩
    cases hlife with
    | inl hsame =>
      subst hsame
      exact hreading.waiting hborn' hidle hnot
    | inr hstep =>
      refine hreading.waiting ?_ (hpc ▸ hidle) fun hstuck => hnot (hstep.stuck hstage hstuck)
      cases hstep.established_same with
      | inl heq => rw [← heq]; exact hborn'
      | inr hconnecting => rw [hconnecting] at hidle; cases hidle
  | begun new hpc =>
    rw [hborn new]
    exact .taken (.inl (by rw [hpc]; rfl))
  | completed op result hop hpending hpossible hstill =>
    subst hstill
    obtain ⟨hreads, hrest⟩ := hreading.erase hop
    rw [hrest, List.nil_append]
    refine ⟨Nat.le_refl _, fun h => ?_, fun a ha haborted => ?_, fun _ _ _ => by simp⟩
    · rw [hreading.before h] at hop
      cases hop
    · rw [List.mem_singleton.mp ha] at haborted
      obtain rfl : result = .aborted := Option.some.inj haborted
      exact hpossible
  | received op d hop _ hmessage =>
    rw [(hreading.erase hop).2]
    exact .taken (.inl (by rw [hmessage]; rfl))
  | broke op hop _ herror =>
    rw [(hreading.erase hop).2, herror]
    exact .taken (.inr (handleError_stuck hstage (hestablished op hop)))
  | dropped op hop hresult hstill =>
    rw [(hreading.erase hop).2, hstill]
    exact .taken (.inr (.inr (.inr (hreading.aborted op hop hresult))))
  | launched piece hpc hidle =>
    have hnone : reads = [] := hreading.before (by rcases hpc with h | h <;> rw [h] <;> rfl)
    rw [hnone, List.nil_append, hidle]
    refine ⟨Nat.le_refl _, fun h => (by cases h), fun a ha haborted => ?_, fun _ _ _ => by simp⟩
    rw [List.mem_singleton.mp ha] at haborted
    cases haborted

end Invariant

section Runs

variable {n : Nat} {build : Build} {P : World n → Mem → Action n → Prop} {w : World n} {m : Mem}

theorem RunOf.reading (h : RunOf build P w m) (c : Fin n) : Receiving (w.life c) (w.flow c).reads := by
  induction h with
  | start cell =>
    exact ⟨Nat.zero_le _, fun _ => rfl, fun op hop => (by cases hop), fun hborn => (by cases hborn)⟩
  | @step w w' m m' a before enabled _ done ih =>
    obtain ⟨hstage, hborn⟩ := before.stage
    exact (exec_readStep enabled done c).reading ih (hborn c) (hstage c)
      (before.lifeStep enabled done c)

/-- A connection never has two reads in flight, and none while its loop thread is in a handler
    that will launch one.  One that is open and back in its loop always has one: it is waiting
    for the kernel, or for the loop to run `handleRead`. -/
theorem single_reader (h : RunOf build P w m) (c : Fin n) :
    (w.flow c).reads.length ≤ 1 ∧
    ((w.life c).pc = .connecting ∨ (w.life c).pc = .connected ∨ (w.life c).pc = .message →
      (w.flow c).reads = []) ∧
    ((w.life c).established = true → (w.life c).socket = true → (w.life c).pc = .idle →
      ∃ op, (w.flow c).reads = [op]) := by
  have hreading := h.reading c
  refine ⟨hreading.single, fun hpc => hreading.before ?_, fun hborn hsocket hidle => ?_⟩
  · rcases hpc with hpc | hpc | hpc <;> rw [hpc] <;> rfl
  · have hopen : ¬ Stuck (w.life c) := by
      rintro (hforced | hclosing | hnone)
      · rw [hidle] at hforced; cases hforced
      · rw [hidle] at hclosing; cases hclosing
      · rw [hsocket] at hnone; cases hnone
    obtain ⟨op, hop⟩ := List.exists_mem_of_ne_nil _ (hreading.waiting hborn (by rw [hidle]; rfl) hopen)
    exact ⟨op, (hreading.erase hop).1⟩

/-- Two bytes are on their way, and the read is waiting. -/
theorem single_reader_two : ∃ (w : World 1) (m : Mem), RunOf .release World.Whole w m ∧
    ∃ op, (w.flow 0).reads = [op] := by
  obtain ⟨bufs, m, r, _⟩ := two_in_flight .release
  exact ⟨_, m, r, (single_reader r 0).2.2 rfl rfl rfl⟩

end Runs

end Netpp
