import Netpp.Conn.Soundness
import Netpp.Protobuf.Delivery

/-! # The input buffer under a codec

A codec takes whole frames out of the input buffer of a connection and leaves the beginning
of one there.  `Inbox` is what it needs of the buffer: the bytes, no empty piece, and a length
field that lies in one piece.

* `handleRead_input`: where the bytes of a read end up.
* `Inbox.exec`: what a step of the system does to an inbox whose bytes fit into one piece.
-/

namespace Netpp

open TCPConn
open Function (update)

variable {n : Nat}

namespace World

def chains (w : World n) (m : Mem) (i : BufferId n) : List Ptr := (w.bufs i).pieces m

variable {w w' : World n} {m m' : Mem} {chain chain' : BufferId n → List Ptr}
  {lost lost' ps rest : List Ptr} {k k' : Nat} {c : Fin n} {build : Build} {a : Action n} {d : Bytes}

theorem Custody.chains_eq (h : Custody w m chain lost k) : w.chains m = chain :=
  funext fun i => h.pieces_eq i

structure Inbox (w : World n) (m : Mem) (c : Fin n) (d : Bytes) : Prop where
  bytes : content m (w.chains m (.input c)) = d
  length : (w.bufs (.input c)).length = d.length
  solid : Solid m (w.chains m (.input c))
  header : ProtobufCodec.HeaderReady m (w.chains m (.input c))

theorem Inbox.of_empty (h : w.chains m (.input c) = []) (hlength : (w.bufs (.input c)).length = 0) :
    Inbox w m c [] := by
  constructor
  · rw [h]
    rfl
  · exact hlength
  · rw [h]
    exact fun p hp => (by cases hp)
  · rw [h]
    intro p qs hps
    cases hps

theorem Inbox.initial (m : Mem) (c : Fin n) : Inbox ({} : World n) m c [] :=
  .of_empty (Queue.pieces_eq_of_chain rfl fun p hp => (by cases hp)) rfl

/-! ## Steps that leave it alone -/

theorem exec_input_leaves (h : Custody w m chain lost k) (still : a.movesData = false)
    (enabled : w.Enabled m a) (done : w.exec a build m = .ok (w', m'))
    (hread : ∀ op, a ≠ .handleRead c op) (hdestroy : a ≠ .destroy c) :
    Leaves w m chain (.input c) w' m' := by
  have hwlp : (w.exec a).wlp build m fun w' m' => Leaves w m chain (.input c) w' m' := by
    cases a with
    | buffer _ | sendData _ _ _ | sendBuffer _ _ _ => cases still
    | writeDone e op result =>
      intro w' m' done
      cases done
      exact ⟨rfl, SameOn.refl _ _⟩
    | runSend e task => exact h.runSendTask_leaves enabled.1 (by rw [enabled.2]; rfl) (by simp)
    | handleRead e op =>
      have he : (BufferId.input c : BufferId n) ≠ .input e := fun hc =>
        hread op (by rw [BufferId.input.inj hc])
      obtain ⟨rest, hfocus⟩ := h.focus (.input e) e
      simp only [World.exec, Prog.wlp_bind, Prog.wlp_pure]
      refine (handleRead_spec (h.chains.holds _) (h.ready e) enabled.1 hfocus.owns).imp ?_
      rintro r m' ⟨ps', hout, _⟩
      exact hfocus.leaves he rfl hout.same.right
    | handleWrite e op => exact h.handleWrite_leaves enabled.1 enabled.2.1 (by simp)
    | resume e => exact h.resume_leaves
    | destroy e =>
      have he : (BufferId.input c : BufferId n) ≠ .input e := fun hc =>
        hdestroy (by rw [BufferId.input.inj hc])
      intro w' m' done
      obtain ⟨_, _, hsame⟩ := h.destroy_custody enabled.2.2.2 w' m' done
      have hbufs : w'.bufs (.input c) = w.bufs (.input c) := by
        have hwlp : (w.exec (.destroy e)).wlp build m fun w' _ => w'.bufs (.input c) = w.bufs (.input c) := by
          simp only [World.exec, World.destroy, Prog.wlp_bind, Prog.wlp_pure]
          intro _ _ _ _ _ _ inp _ _ out _ _
          show update (update w.bufs (.input e) inp) (.output e) out (.input c) = _
          rw [Function.update_of_ne (by simp), Function.update_of_ne he]
        exact hwlp w' m' done
      exact ⟨hbufs, hsame _ he (by simp)⟩
    | _ => exact (Prog.wlp_pure ..).mpr ⟨rfl, SameOn.refl _ _⟩
  exact hwlp w' m' done

theorem Inbox.same (h : Inbox w m c d) (before : Custody w m chain lost k)
    (after : Custody w' m' chain' lost' k') (leaves : Leaves w m chain (.input c) w' m') :
    Inbox w' m' c d := by
  have hchain : chain' (.input c) = chain (.input c) := by
    have hold := ((before.chains.holds (.input c)).same leaves.same).rep.chain
    have hnew := (after.chains.holds (.input c)).rep.chain
    rw [leaves.buf] at hnew
    exact hnew.unique hold
  obtain ⟨hbytes, hlength, hsolid, hheader⟩ := h
  rw [before.chains_eq] at hbytes hsolid hheader
  constructor
  · rw [after.chains_eq, hchain, content_same leaves.same]
    exact hbytes
  · rw [leaves.buf]
    exact hlength
  · rw [after.chains_eq, hchain]
    intro p hp
    rw [leaves.same p hp]
    exact hsolid p hp
  · rw [after.chains_eq, hchain]
    intro p qs hps
    rw [leaves.same p (by simp [hps])]
    exact hheader p qs hps

/-! ## Reading into it -/

theorem handleRead_input {inp : Buffer} {f : Flow} {l : Life} {op : ReadOp} (hb : inp.Rep m ps)
    (hready : f.Ready m) (hop : op ∈ f.reads) (howns : Owns m (ps ++ (f.held ++ rest)) k) :
    (handleRead inp f l op).wlp build m fun r m' =>
      (op.bytes = [] ∧ r.1 = inp ∧ SameOn ps m m') ∨
      (op.bytes ≠ [] ∧ ∃ ps', r.1.Rep m' ps' ∧ content m' ps' = content m ps ++ op.bytes ∧
        InputBuffer.Received m m' ps ps' op.bytes.length) := by
  have hperm : (ps ++ (f.held ++ rest)).Perm
      (ps ++ op.piece :: ({ f with reads := f.reads.erase op }.held ++ rest)) :=
    ((Flow.held_perm_read hop).append_right rest).append_left ps
  have hdelete : (deletePiece (some op.piece)).wlp build m fun _ m' => SameOn ps m m' :=
    (howns.deletePiece (hperm.trans List.perm_middle)).wlp.imp fun _ _ h => h.2.left
  unfold handleRead ReadOp.bytes
  simp only [onPieces]
  cases hresult : op.result with
  | none =>
    simp only [Prog.wlp_bind, Prog.wlp_mapFault, Prog.wlp_pure]
    exact hdelete.imp fun _ _ h => .inl ⟨trivial, trivial, h⟩
  | some result =>
    cases result with
    | failed | aborted =>
      simp only [Prog.wlp_bind, Prog.wlp_mapFault, Prog.wlp_pure]
      exact hdelete.imp fun _ _ h => .inl ⟨trivial, trivial, h⟩
    | success x =>
      simp only [Prog.wlp_bind, Prog.wlp_mapFault, Prog.wlp_pure]
      obtain ⟨hne, hfit⟩ := hready.results op hop x hresult
      have howns₀ := howns.perm hperm
      have hfresh : op.piece ∉ ps ++ ({ f with reads := f.reads.erase op }.held ++ rest) :=
        (List.nodup_cons.mp (List.nodup_middle.mp howns₀.nodup)).1
      refine (InputBuffer.fillPiece_spec howns₀ (by simp) (hready.reads op hop) hfit).wlp.imp ?_
      rintro _ m₁ ⟨howns₁, hothers, hoff, hlen, hbytes, _⟩
      have hsame₁ : SameOn ps m m₁ := fun p hp => hothers p fun e =>
        hfresh (e ▸ List.mem_append_left _ hp)
      have hinside : (m₁.cell op.piece).off + (m₁.cell op.piece).len ≤ kPieceCapacity := by omega
      have hpos : 0 < (m₁.cell op.piece).len := by
        rw [hlen]
        exact List.length_pos_iff.mpr hne
      intro b m' hrun
      have hb₁ := hb.same hsame₁
      -- the merged piece is read after it was given back, so the pool has kept it
      have hkeeps := InputBuffer.keeps_of_writePiece (Q := fun _ _ => True) hb₁.holds howns₁ hinside
        ⟨b, m', hrun, trivial⟩
      obtain ⟨ps', hb', _, _, hcontent, hmerged, hpushed⟩ :=
        (InputBuffer.writePiece_spec hb₁ howns₁ hpos hinside hkeeps).wlp b m' hrun
      have hold : ∀ p ∈ ps, m₁.cell p = m.cell p := hsame₁
      refine .inr ⟨hne, ps', hb', by rw [hcontent, hbytes, content_same hsame₁], ?_⟩
      by_cases hm : InputBuffer.Merges m₁ inp op.piece
      · obtain ⟨hps, hkept⟩ := hmerged hm
        refine ⟨fun p hp => ?_, .inl hps⟩
        rw [← hold p hp]
        exact hkept p hp
      · obtain ⟨hps, hkept⟩ := hpushed hm
        have hlens : ∀ p ∈ ps, (m'.cell p).off = (m.cell p).off ∧ (m'.cell p).len = (m.cell p).len := by
          intro p hp
          rw [← hold p hp]
          exact hkept p (by simp [hps, hp])
        have hitem := hkept op.piece (by simp [hps])
        refine ⟨fun p hp => ⟨Nat.le_of_eq (hlens p hp).1, Nat.le_of_eq (hlens p hp).2.symm⟩,
          .inr ⟨op.piece, hps, by rw [hitem.1, hoff], by rw [hitem.2, hlen],
            fun p hp => (hlens p hp).2, fun t ht => ?_⟩⟩
        by_contra hsmall
        refine hm ⟨t, by rw [hb₁.holds.rep.tail, ht], ?_⟩
        rw [hlen, hold t (List.mem_of_getLast? ht)]
        omega

/-- With so few bytes the length field is in the first piece, or still has room there. -/
theorem received_inbox {n : Nat} (hsolid : Solid m ps) (hheader : ProtobufCodec.HeaderReady m ps)
    {ps' : List Ptr} (hn : 0 < n) (hfit : (content m ps).length + n ≤ kPieceCapacity)
    (h : InputBuffer.Received m m' ps ps' n) : Solid m' ps' ∧ ProtobufCodec.HeaderReady m' ps' := by
  constructor
  · intro p hp
    obtain ⟨hold, hplace⟩ := h
    cases hplace with
    | inl hsame =>
      have hmem : p ∈ ps := hsame ▸ hp
      exact Nat.lt_of_lt_of_le (hsolid p hmem) (hold p hmem).2
    | inr hpushed =>
      obtain ⟨item, hitem, _, hlen, _⟩ := hpushed
      rw [hitem] at hp
      cases List.mem_append.mp hp with
      | inl hmem => exact Nat.lt_of_lt_of_le (hsolid p hmem) (hold p hmem).2
      | inr hlast =>
        rw [List.mem_singleton.mp hlast, hlen]
        exact hn
  · -- one piece with less than a length field in it has room for the rest
    refine ProtobufCodec.headerReady_receive hheader h fun p hp _ => ?_
    rw [hp, content_cons, content_nil, List.append_nil, length_bytes] at hfit
    exact hfit

theorem Inbox.exec (hinbox : Inbox w m c d) (h : Custody w m chain lost k)
    (after : Custody w' m' chain' lost' k') (still : a.movesData = false) (enabled : w.Enabled m a)
    (done : w.exec a build m = .ok (w', m')) (hdestroy : a ≠ .destroy c)
    (hfit : a.delivery c ≠ [] → (d ++ a.delivery c).length ≤ kPieceCapacity) :
    Inbox w' m' c (d ++ a.delivery c) := by
  by_cases hread : ∃ op, a = .handleRead c op
  · obtain ⟨op, rfl⟩ := hread
    have hdelivery : (Action.handleRead c op).delivery c = op.bytes := if_pos rfl
    rw [hdelivery] at hfit ⊢
    have hbytes := hinbox.bytes
    have hsolid := hinbox.solid
    have hheader := hinbox.header
    rw [h.chains_eq] at hbytes hsolid hheader
    obtain ⟨rest, hfocus⟩ := h.focus (.input c) c
    have hrep : (w.bufs (.input c)).Rep m (chain (.input c)) :=
      ⟨h.chains.holds _, by rw [hinbox.length, hbytes]⟩
    have hwlp : (w.exec (.handleRead c op)).wlp build m fun w' m' =>
        (op.bytes = [] ∧ Leaves w m chain (.input c) w' m') ∨
        (op.bytes ≠ [] ∧ ∃ ps', (w'.bufs (.input c)).Rep m' ps' ∧
          content m' ps' = content m (chain (.input c)) ++ op.bytes ∧
          InputBuffer.Received m m' (chain (.input c)) ps' op.bytes.length) := by
      simp only [World.exec, Prog.wlp_bind, Prog.wlp_pure]
      refine (handleRead_input hrep (h.ready c) enabled.1 hfocus.owns).imp ?_
      intro r m' hr
      have hbuf : update w.bufs (.input c) r.1 (.input c) = r.1 := Function.update_self ..
      cases hr with
      | inl hkept => exact .inl ⟨hkept.1, hbuf.trans hkept.2.1, hkept.2.2⟩
      | inr hmore =>
        refine .inr ⟨hmore.1, ?_⟩
        show ∃ ps', Buffer.Rep m' (update w.bufs (.input c) r.1 (.input c)) ps' ∧ _
        rw [hbuf]
        exact hmore.2
    cases hwlp w' m' done with
    | inl hkept =>
      rw [hkept.1, List.append_nil]
      exact hinbox.same h after hkept.2
    | inr hmore =>
      obtain ⟨hne, ps', hrep', hcontent, hreceived⟩ := hmore
      have hroom := hfit hne
      have hps : w'.chains m' (.input c) = ps' := by
        rw [after.chains_eq]
        exact (after.chains.holds (.input c)).rep.chain.unique hrep'.holds.rep.chain
      rw [List.length_append, ← hbytes] at hroom
      obtain ⟨hsolid', hheader'⟩ :=
        received_inbox hsolid hheader (List.length_pos_iff.mpr hne) hroom hreceived
      refine ⟨?_, ?_, ?_, ?_⟩
      · rw [hps, hcontent, hbytes]
      · rw [hrep'.length, hcontent, hbytes]
      · rw [hps]
        exact hsolid'
      · rw [hps]
        exact hheader'
  · have hnone : a.delivery c = [] := by
      cases a with
      | handleRead e op =>
        have he : e ≠ c := fun he => hread ⟨op, by rw [he]⟩
        exact if_neg he
      | _ => rfl
    rw [hnone, List.append_nil]
    exact hinbox.same h after
      (exec_input_leaves h still enabled done (fun op hop => hread ⟨op, hop⟩) hdestroy)

end World

end Netpp
