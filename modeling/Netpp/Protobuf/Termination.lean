import Netpp.Protobuf.Isolation
import Netpp.Protobuf.Skip

/-! # `onMessage` on any input

A parser is taken to use its stream in any legal way: a `Parser` is a tree of calls, each of
which may depend on what the calls before it have returned.  The values `peekInt32` yields are
arbitrary as well, and so is what a callback does to anything but the buffer.

`onMessageEvents` is `onMessage` with the calls it makes written down.

* `onMessageLoop_eq_events`: with the calls forgotten it is `onMessageLoop`.
* `run_of_findsPiece`, `findsPiece_of_run`: a parser returns exactly if no `Skip(0)` of it finds
  the buffer without a piece.
* `onMessage_ends_iff`: the same of `onMessage`, which then keeps to the length of the buffer.
-/

namespace Netpp

/-! ## Parsers -/

/-- What a parser does with its stream, step by step. -/
inductive Parser where
  | done
  | next (atEnd : Parser) (onData : Bytes → Parser)
  | backUp (count : Nat) (after : Parser)
  | skip (count : Nat) (after : Bool → Parser)

/-- `run`, with its asserts compiled out. -/
def withoutAsserts {α : Type} (run : Exec α) : Exec α := fun _ m => run .release m

/-- `backUp`, with the asserts inside `flatBackUp` compiled out. -/
def BufferInputStream.backUpUnchecked (s : BufferInputStream) (count : Nat) :
    Exec BufferInputStream := do
  assert s.drop.isSome
  let b ← withoutAsserts (FlatInputBuffer.flatBackUp s.buffer count s.drop)
  pure { s with buffer := b, drop := none }

namespace Parser

/-- Each `backUp` directly follows a `next`, and goes back no further than that has gone. -/
def Legal : Option Nat → Parser → Prop
  | _, done => True
  | _, next atEnd onData => atEnd.Legal none ∧ ∀ data : Bytes, (onData data).Legal (some data.length)
  | last, backUp count after => (∃ size, last = some size ∧ count ≤ size) ∧ after.Legal none
  | _, skip _ after => ∀ ok, (after ok).Legal none

def run : Parser → BufferInputStream → Exec BufferInputStream
  | done, s => pure s
  | next atEnd onData, s => do
    let r ← s.next
    match r.1 with
    | none => atEnd.run r.2
    | some data => (onData data).run r.2
  | backUp count after, s => do
    let s ← s.backUpUnchecked count
    after.run s
  | skip count after, s => do
    let r ← s.skip count
    (after r.1).run r.2

/-- Each `skip(0)` that the parser comes to finds a piece in the buffer. -/
def FindsPiece (build : Build) : Parser → BufferInputStream → Mem → Prop
  | done, _, _ => True
  | next atEnd onData, s, m => s.next.wlp build m fun r m' =>
    match r.1 with
    | none => atEnd.FindsPiece build r.2 m'
    | some data => (onData data).FindsPiece build r.2 m'
  | backUp count after, s, m => (s.backUpUnchecked count).wlp build m fun s' m' =>
    after.FindsPiece build s' m'
  | skip count after, s, m => (count = 0 → s.buffer.head ≠ none) ∧
    (s.skip count).wlp build m fun r m' => (after r.1).FindsPiece build r.2 m'

end Parser

section Parsers

variable {build : Build} {o : Origin} {m : Mem} {b : Buffer} {s : BufferInputStream} {ps : List Ptr}
  {n count size : Nat} {last : Option Nat}

theorem reading_of_linked (hb : Linked o.mem b o.chain)
    (howns : Owns o.mem (o.chain ++ o.rest) o.bypassed) :
    Reading o o.mem (.ofBuffer b) o.chain 0 none where
  size := hb.length
  linked := hb
  owns := howns
  rest := SameOn.refl _ _
  le := Nat.zero_le _
  bytes := rfl
  returned := nofun

theorem backUpUnchecked_reads (h : Reading o m s ps n (some size)) (hle : count ≤ size) :
    (s.backUpUnchecked count).wp build m fun s' m' => ∃ ps', Reading o m' s' ps' (n - count) none := by
  obtain ⟨p, hdrop, _⟩ := h.returned size rfl
  have hback : (s.backUp count).wp .release m _ := backUp_reads h hle nofun
  simp only [BufferInputStream.backUp, hdrop, Option.isSome_some, wp_assert_true, Prog.wp_bind,
    Prog.wp_pure] at hback
  obtain ⟨b', m', hrun, q, hread, _⟩ := hback
  have hrun' : withoutAsserts (FlatInputBuffer.flatBackUp s.buffer count (some p)) build m =
      .ok (b', m') := hrun
  simp only [BufferInputStream.backUpUnchecked, hdrop, Option.isSome_some, wp_assert_true,
    Prog.wp_bind, Prog.wp_of_eq_ok hrun', Prog.wp_pure]
  exact ⟨q :: ps, hread⟩

theorem Reading.head_of_unread (h : Reading o m s ps n last) (hlt : n < o.bytes.length) :
    s.buffer.head ≠ none := by
  apply h.linked.ne_nil_iff.mp
  intro hnil
  have hend := congrArg List.length h.bytes
  rw [List.length_drop, hnil, content_nil, List.length_nil] at hend
  omega

theorem skip_returns (h : Reading o m s ps n last) (hfinds : count = 0 → s.buffer.head ≠ none) :
    (s.skip count).wp build m fun r m' => ∃ ps' n', Reading o m' r.2 ps' n' none := by
  by_cases hle : n + count ≤ o.bytes.length
  · have hhead : s.buffer.head ≠ none := by
      by_cases hzero : count = 0
      · exact hfinds hzero
      · exact h.head_of_unread (by omega)
    refine (skip_reads h hhead hle).imp ?_
    intro r m' ⟨_, ps', hread⟩
    exact ⟨ps', n + count, hread⟩
  · refine (skip_past_end h (Nat.lt_of_not_le hle)).imp ?_
    intro r m' ⟨hm, hr⟩
    subst hm hr
    exact ⟨ps, n, h.forget⟩

theorem finds_of_wp_skip {Q : Bool × BufferInputStream → Mem → Prop} (h : Reading o m s ps n last)
    (hrun : (s.skip count).wp build m Q) (hzero : count = 0) : s.buffer.head ≠ none := by
  subst hzero
  exact fun hnone => not_wp_skip_nothing h hnone h.le hrun

theorem next_returns (h : Reading o m s ps n last) :
    s.next.wp build m fun r m' => ∃ ps' n', Reading o m' r.2 ps' n' (r.1.map List.length) := by
  refine (next_reads h).imp ?_
  intro r m' hcases
  cases hcases with
  | inl hend =>
    obtain ⟨hr, _, hread, _⟩ := hend
    exact ⟨ps, n, by rw [hr]; exact hread⟩
  | inr hdata =>
    obtain ⟨p, qs, _, _, hr, hread, _⟩ := hdata
    exact ⟨qs, _, by rw [hr, Option.map_some, length_bytes]; exact hread⟩

/-- A legal parser returns, with the stream at some position, if its `skip(0)`s find pieces. -/
theorem Parser.run_of_findsPiece (p : Parser) (h : Reading o m s ps n last) (hlegal : p.Legal last)
    (hfinds : p.FindsPiece build s m) :
    (p.run s).wp build m fun s' m' => ∃ ps' n' last', Reading o m' s' ps' n' last' := by
  -- the induction follows the tree; `Reading` says where the stream stands before each call
  induction p generalizing m s ps n last with
  | done =>
    rw [Parser.run, Prog.wp_pure]
    exact ⟨ps, n, last, h⟩
  | next atEnd onData ihEnd ihData =>
    obtain ⟨r, m', hrun, ps', n', hread⟩ : s.next.wp build m _ := next_returns h
    rw [Parser.FindsPiece, Prog.wlp_of_eq_ok hrun] at hfinds
    rw [Parser.run, Prog.wp_bind, Prog.wp_of_eq_ok hrun]
    cases hr : r.1 with
    | none =>
      rw [hr] at hread hfinds
      exact ihEnd hread hlegal.1 hfinds
    | some data =>
      rw [hr] at hread hfinds
      exact ihData data hread (hlegal.2 data) hfinds
  | backUp count after ih =>
    obtain ⟨⟨size, rfl, hle⟩, hafter⟩ := hlegal
    obtain ⟨s', m', hrun, ps', hread⟩ : (s.backUpUnchecked count).wp build m _ :=
      backUpUnchecked_reads h hle
    rw [Parser.FindsPiece, Prog.wlp_of_eq_ok hrun] at hfinds
    rw [Parser.run, Prog.wp_bind, Prog.wp_of_eq_ok hrun]
    exact ih hread hafter hfinds
  | skip count after ih =>
    obtain ⟨hpiece, hafter⟩ := hfinds
    obtain ⟨r, m', hrun, ps', n', hread⟩ : (s.skip count).wp build m _ := skip_returns h hpiece
    rw [Prog.wlp_of_eq_ok hrun] at hafter
    rw [Parser.run, Prog.wp_bind, Prog.wp_of_eq_ok hrun]
    exact ih r.1 hread (hlegal r.1) hafter

/-- And only then. -/
theorem Parser.findsPiece_of_run (p : Parser) (h : Reading o m s ps n last) (hlegal : p.Legal last)
    (hreturns : (p.run s).wp build m fun _ _ => True) : p.FindsPiece build s m := by
  induction p generalizing m s ps n last with
  | done => trivial
  | next atEnd onData ihEnd ihData =>
    obtain ⟨r, m', hrun, ps', n', hread⟩ : s.next.wp build m _ := next_returns h
    rw [Parser.run, Prog.wp_bind, Prog.wp_of_eq_ok hrun] at hreturns
    rw [Parser.FindsPiece, Prog.wlp_of_eq_ok hrun]
    cases hr : r.1 with
    | none =>
      rw [hr] at hread hreturns
      exact ihEnd hread hlegal.1 hreturns
    | some data =>
      rw [hr] at hread hreturns
      exact ihData data hread (hlegal.2 data) hreturns
  | backUp count after ih =>
    obtain ⟨⟨size, rfl, hle⟩, hafter⟩ := hlegal
    obtain ⟨s', m', hrun, ps', hread⟩ : (s.backUpUnchecked count).wp build m _ :=
      backUpUnchecked_reads h hle
    rw [Parser.run, Prog.wp_bind, Prog.wp_of_eq_ok hrun] at hreturns
    rw [Parser.FindsPiece, Prog.wlp_of_eq_ok hrun]
    exact ih hread hafter hreturns
  | skip count after ih =>
    rw [Parser.run, Prog.wp_bind] at hreturns
    have hpiece : count = 0 → s.buffer.head ≠ none := finds_of_wp_skip h hreturns
    obtain ⟨r, m', hrun, ps', n', hread⟩ : (s.skip count).wp build m _ := skip_returns h hpiece
    rw [Prog.wp_of_eq_ok hrun] at hreturns
    refine ⟨hpiece, ?_⟩
    rw [Prog.wlp_of_eq_ok hrun]
    exact ih r.1 hread (hlegal r.1) hreturns

end Parsers

/-! ## Reading from a buffer the parser has left -/

section Linked

variable {build : Build} {m m' : Mem} {b b' : Buffer} {p : Ptr} {ps ps' rest : List Ptr}
  {k count : Nat}

theorem Shortened.length (h : Shortened m m' b' ps ps' rest k count) (hb : Linked m b ps) :
    b'.length = b.length - count := by
  rw [h.linked.length, h.bytes, List.length_drop, hb.length]

theorem Linked.read_lone (h : Linked m b [p]) (htail : b.tail = none) (howns : Owns m (p :: rest) k)
    (hpos : 0 < count) (hlen : count ≤ b.length) :
    (b.read count).wp build m fun r m' => r.1 = (content m [p]).take count ∧
      ∃ ps', Shortened m m' r.2 [p] ps' rest k count := by
  have hhead : b.head = some p := h.chain.1
  have hone : content m [p] = (m.cell p).bytes := List.append_nil _
  have hlength := h.length
  rw [hone, length_bytes] at hlength
  have hinside := h.inside p (by simp)
  have htake : slice (m.cell p).data (m.cell p).off count = (content m [p]).take count := by
    rw [hone, Piece.bytes, take_slice _ (hlength ▸ hlen)]
  simp only [Buffer.read, Prog.wp_bind, wp_assert (decide_eq_true hpos),
    wp_assert (decide_eq_true hlen), Buffer.wp_chainBound, Buffer.readLoop, Prog.wp_pure]
  rw [hhead, wp_load (howns.live (by simp)), if_pos (hlength ▸ hlen), ← hhead, Prog.wp_bind,
    wp_copyOut (by omega), htake]
  split
  · rw [Prog.wp_bind]
    refine (h.store_lone htail howns hlen).imp ?_
    intro _ m' hshort
    rw [Prog.wp_pure]
    exact ⟨List.nil_append _, [p], hshort⟩
  · -- everything is read, and the piece goes back to the pool
    rename_i hge
    have hall : count = b.length := by omega
    simp only [Prog.wp_bind, Prog.wp_pure, hall]
    refine (h.pop_lone howns).imp fun r m₁ hr => hr.imp ?_
    rintro _ m' ⟨hshort, _⟩
    exact ⟨List.nil_append _, [], hshort⟩

theorem Linked.read (h : Linked m b ps) (howns : Owns m (ps ++ rest) k) (hpos : 0 < count)
    (hlen : count ≤ b.length) :
    (b.read count).wp build m fun r m' => r.1 = (content m ps).take count ∧
      ∃ ps', Shortened m m' r.2 ps ps' rest k count := by
  cases h.tail with
  | inl htail =>
    have hrep := h.rep htail
    refine (Buffer.read_spec hrep howns (Buffer.ne_nil_of_pos hrep hpos hlen) (fun _ => hpos) hlen).imp ?_
    intro r m' ⟨ps', hb', howns', hsame, hd, hcontent, _⟩
    exact ⟨hd, ps', hb'.linked, howns', hsame, hcontent⟩
  | inr hlone =>
    obtain ⟨p, rfl⟩ := List.length_eq_one_iff.mp hlone.1
    exact h.read_lone hlone.2 howns hpos hlen

end Linked

namespace ProtobufCodec

/-! ## `onMessage`, with its calls written down -/

inductive Event (α : Type) where
  | compared (x : Int)                       -- an `int` compared with a `size_t`
  | asked (length requested : Nat)           -- a call of `skip`, `readInt32` or `read`
  | called (result : Option α × ErrorCode)   -- a callback
  | wentOn (before after : Nat)              -- the end of a round without `break`

/-- The conversion to `size_t` keeps the value, the call asks for no more than there is, the
    round has taken two headers off the buffer. -/
def Event.Good {α : Type} : Event α → Prop
  | compared x => (unsignedWord 64 x : Int) = x
  | asked length requested => requested ≤ length
  | called _ => True
  | wentOn before after => after + 2 * kHeaderLen ≤ before

/-- What a round has come to when it makes its callback. -/
inductive Opened (μ : Type) where
  | nothing
  | failed (code : ErrorCode)
  | message (message : μ)

section Loop

variable {μ α : Type}

/-- `parse` up to `ParseFromZeroCopyStream`, with `createMessage` left open. -/
def openMessage (lookup : Bytes → Option μ) (b : Buffer) :
    Exec ((List (Event α) × Opened μ) × Buffer) := do
  let r ← b.readInt32
  let events := [.asked b.length 4]
  if 0 < r.1 then
    if r.1.toNat ≤ r.2.length then
      let name ← r.2.readString r.1.toNat
      let events := events ++ [.compared r.1, .asked r.2.length r.1.toNat]
      match lookup name.1 with
      | some message => pure ((events, .message message), name.2)
      | none => pure ((events, .failed .kUnknownMessageType), name.2)
    else pure ((events ++ [.compared r.1], .failed .kParseError), r.2)
  else pure ((events, .failed .kInvalidNameLen), r.2)

/-- A round of `onMessage` up to `ParseFromZeroCopyStream`, with `peekInt32` left open as well. -/
def openFrame (peek : Buffer → Exec Int) (lookup : Bytes → Option μ) (b : Buffer) :
    Exec ((List (Event α) × Opened μ) × Buffer) :=
  if kMinMessageLen + kHeaderLen ≤ b.length then do
    let len ← peek b
    if len > kMaxMessageLen ∨ len < kMinMessageLen then pure (([], .failed .kInvalidLength), b)
    else if (len + kHeaderLen).toNat ≤ b.length then do
      let b₁ ← b.skip kHeaderLen
      let r ← openMessage lookup b₁
      pure ((.compared (len + kHeaderLen) :: .asked b.length kHeaderLen :: r.1.1, r.1.2), r.2)
    else pure (([.compared (len + kHeaderLen)], .nothing), b)
  else pure (([], .nothing), b)

/-- `onMessage`; each round may peek, parse and call back in its own way. -/
def onMessageEvents (peek : Nat → Buffer → Exec Int) (lookup : Bytes → Option μ)
    (read : Nat → μ → Buffer → Exec (α × Buffer))
    (callback : Nat → Option α × ErrorCode → Buffer → Exec Unit) :
    Nat → Buffer → Exec (List (Event α) × Buffer)
  | 0, _ => throw .outOfFuel
  | fuel + 1, b => do
    let r ← openFrame (peek fuel) lookup b
    match r.1.2 with
    | .nothing => pure (r.1.1, r.2)
    | .failed code => do
      callback fuel (none, code) r.2
      pure (r.1.1 ++ [.called (none, code)], r.2)
    | .message message => do
      let parsed ← read fuel message r.2
      callback fuel (some parsed.1, .kNoError) parsed.2
      let rest ← onMessageEvents peek lookup read callback fuel parsed.2
      pure (r.1.1 ++ .called (some parsed.1, .kNoError) :: .wentOn b.length parsed.2.length :: rest.1,
        rest.2)

end Loop

/-! ### Erasure -/

section Erasure

variable {proto : Protobuf}

def callbacks (events : List (Event proto.Message)) : List (Callback proto) :=
  events.filterMap fun
    | .called (some message, .kNoError) => some (.message message)
    | .called (_, code) => some (.error code)
    | _ => none

/-- With the model's own `peekInt32` and parser, and callbacks that do nothing, this is
    `onMessageLoop`. -/
theorem onMessageLoop_eq_events (fuel : Nat) (b : Buffer) :
    onMessageLoop proto fuel b = (do
      let r ← onMessageEvents (fun _ => Buffer.peekInt32) (createMessage proto)
        (fun _ => readMessage) (fun _ _ _ => pure ()) fuel b
      pure (callbacks r.1, r.2)) := by
  induction fuel generalizing b with
  | zero => rfl
  | succ fuel ih =>
    simp only [onMessageLoop, onMessageEvents, branch, openFrame, openMessage, parse_eq, parseWith, ih]
    split
    · simp only [bind_assoc]
      refine bind_congr fun len => ?_
      split
      · simp [callbacks]
      · split
        · simp only [bind_assoc, pure_bind]
          refine bind_congr fun b₁ => bind_congr fun r => ?_
          split
          · split
            · simp only [bind_assoc]
              refine bind_congr fun name => ?_
              cases createMessage proto name.1 with
              | none => simp [callbacks]
              | some message => simp [callbacks]
            · simp [callbacks]
          · simp [callbacks]
        · simp [callbacks]
    · simp [callbacks]

end Erasure

/-! ## Any peeks, any parsers, any callbacks -/

/-- What `parse` makes of a parser: a stream is opened on the buffer, used and destroyed. -/
def parserRead (parser : Parser) (b : Buffer) : Exec (Unit × Buffer) := do
  let s ← parser.run (.ofBuffer b)
  let b ← s.destroy
  pure ((), b)

/-- The callbacks return and leave the pieces of the buffer alone. -/
def Untouching (build : Build) (callback : Nat → Option Unit × ErrorCode → Buffer → Exec Unit) : Prop :=
  ∀ i result b m ps rest k, Linked m b ps → Owns m (ps ++ rest) k →
    (callback i result b).wp build m fun _ m' =>
      SameOn ps m m' ∧ ∃ rest' k', Owns m' (ps ++ rest') k'

def Intact (m : Mem) (b : Buffer) : Prop :=
  ∃ ps rest k, Linked m b ps ∧ Owns m (ps ++ rest) k

section Rounds

variable {μ : Type} {peeked : Nat → Int} {lookup : Bytes → Option μ} {parser : Nat → μ → Parser}
  {callback : Nat → Option Unit × ErrorCode → Buffer → Exec Unit}

/-- One call of `onMessage`. -/
def rounds (peeked : Nat → Int) (lookup : Bytes → Option μ) (parser : Nat → μ → Parser)
    (callback : Nat → Option Unit × ErrorCode → Buffer → Exec Unit) :
    Nat → Buffer → Exec (List (Event Unit) × Buffer) :=
  onMessageEvents (fun i _ => pure (peeked i)) lookup (fun i message => parserRead (parser i message))
    callback

/-- In every round that `onMessage` goes through with this fuel, each `skip(0)` of the parser finds
    a piece. -/
def EveryFindsPiece (build : Build) (peeked : Nat → Int) (lookup : Bytes → Option μ)
    (parser : Nat → μ → Parser) (callback : Nat → Option Unit × ErrorCode → Buffer → Exec Unit) :
    Nat → Buffer → Mem → Prop
  | 0, _, _ => True
  | fuel + 1, b, m =>
    Prog.wlp (openFrame (fun _ => pure (peeked fuel)) lookup b : Exec ((List (Event Unit) × _) × _))
      build m fun r m' => ∀ message, r.1.2 = .message message →
        (parser fuel message).FindsPiece build (.ofBuffer r.2) m' ∧
        Prog.wlp (do
          let parsed ← parserRead (parser fuel message) r.2
          callback fuel (some parsed.1, .kNoError) parsed.2
          pure parsed.2) build m' fun b' m'' =>
            EveryFindsPiece build peeked lookup parser callback fuel b' m''

variable {build : Build} {m : Mem} {b : Buffer} {ps rest : List Ptr} {k fuel : Nat}

theorem compared_nameLen {d : Bytes} (hd : d.length = 4) (hpos : 0 < bytesInt d) :
    (Event.compared (bytesInt d) : Event Unit).Good := by
  have hle := signedWord_le (8 * d.length) (ofBigEndian d)
  have hlt := ofBigEndian_lt d
  rw [hd] at hlt
  apply unsignedWord_of_lt (Int.le_of_lt hpos)
  simp only [bytesInt]
  omega

/-- Up to the parser `parse` always returns and asks for no more than there is. -/
theorem openMessage_spec (lookup : Bytes → Option μ) (h : Linked m b ps)
    (howns : Owns m (ps ++ rest) k) (hlen : 4 ≤ b.length) :
    Prog.wp (openMessage lookup b : Exec ((List (Event Unit) × _) × _)) build m fun r m' =>
      (∀ e ∈ r.1.1, e.Good) ∧ (∃ ps', Linked m' r.2 ps' ∧ Owns m' (ps' ++ rest) k) ∧
        ∀ message, r.1.2 = .message message → r.2.length + kHeaderLen ≤ b.length := by
  have hasked : (Event.asked b.length 4 : Event Unit).Good := hlen
  simp only [openMessage, Buffer.readInt32, Buffer.readInt, Prog.wp_bind, Prog.wp_pure]
  refine (h.read howns (by decide : 0 < 4) hlen).imp ?_
  rintro r m₁ ⟨hd, ps₁, hshort₁⟩
  have hlen₁ : r.2.length = b.length - 4 := hshort₁.length h
  have hfour : r.1.length = 4 := by
    rw [hd, List.length_take, ← h.length]
    omega
  have hleft : ∃ ps', Linked m₁ r.2 ps' ∧ Owns m₁ (ps' ++ rest) k :=
    ⟨ps₁, hshort₁.linked, hshort₁.owns⟩
  split
  · rename_i hpos
    have hcompared := compared_nameLen hfour hpos
    split
    · rename_i hfits
      have hname : (Event.asked r.2.length (bytesInt r.1).toNat : Event Unit).Good := hfits
      simp only [Buffer.readString, Prog.wp_bind, wp_assert (decide_eq_true hfits)]
      refine (hshort₁.linked.read hshort₁.owns (by omega) hfits).imp ?_
      rintro name m₂ ⟨_, ps₂, hshort₂⟩
      have hlen₂ : name.2.length = r.2.length - (bytesInt r.1).toNat := hshort₂.length hshort₁.linked
      have hfinal : ∃ ps', Linked m₂ name.2 ps' ∧ Owns m₂ (ps' ++ rest) k :=
        ⟨ps₂, hshort₂.linked, hshort₂.owns⟩
      split
      · rw [Prog.wp_pure]
        refine ⟨by simp [hasked, hcompared, hname], hfinal, fun _ _ => ?_⟩
        show name.2.length + kHeaderLen ≤ b.length
        simp only [kHeaderLen]
        omega
      · rw [Prog.wp_pure]
        exact ⟨by simp [hasked, hcompared, hname], hfinal, by simp⟩
    · rw [Prog.wp_pure]
      exact ⟨by simp [hasked, hcompared], hleft, by simp⟩
  · rw [Prog.wp_pure]
    exact ⟨by simp [hasked], hleft, by simp⟩

theorem compared_len {len : Int} (hmax : ¬ len > kMaxMessageLen) (hmin : ¬ len < kMinMessageLen) :
    (Event.compared (len + kHeaderLen) : Event Unit).Good := by
  simp only [kMaxMessageLen, kMinMessageLen] at hmax hmin
  apply unsignedWord_of_lt
  · simp only [kHeaderLen]
    omega
  · simp only [kHeaderLen]
    omega

/-- Up to the parser a round always returns, asks for no more than there is, and takes both
    headers off the buffer if it gets that far. -/
theorem openFrame_spec (v : Int) (lookup : Bytes → Option μ) (h : Linked m b ps)
    (howns : Owns m (ps ++ rest) k) :
    Prog.wp (openFrame (fun _ => pure v) lookup b : Exec ((List (Event Unit) × _) × _)) build m
      fun r m' => (∀ e ∈ r.1.1, e.Good) ∧ (∃ ps', Linked m' r.2 ps' ∧ Owns m' (ps' ++ rest) k) ∧
        ∀ message, r.1.2 = .message message → r.2.length + 2 * kHeaderLen ≤ b.length := by
  rw [openFrame]
  split
  · rename_i hlong
    have hmin : 14 ≤ b.length := hlong
    rw [pure_bind]
    split
    · rw [Prog.wp_pure]
      exact ⟨by simp, ⟨ps, h, howns⟩, by simp⟩
    · rename_i hbounds
      rw [not_or] at hbounds
      have hcompared := compared_len hbounds.1 hbounds.2
      split
      · have hne : ps ≠ [] := by
          rintro rfl
          have hzero := h.length
          rw [content_nil, List.length_nil] at hzero
          omega
        have hasked : kHeaderLen ≤ b.length := by
          simp only [kHeaderLen]
          omega
        simp only [Prog.wp_bind, Prog.wp_pure]
        refine (h.skip howns hne hasked).imp ?_
        rintro b₁ m₁ ⟨ps₁, hshort⟩
        have hlen₁ : b₁.length = b.length - kHeaderLen := hshort.length h
        have hfour : 4 ≤ b₁.length := by
          simp only [kHeaderLen] at hlen₁
          omega
        refine (openMessage_spec lookup hshort.linked hshort.owns hfour).imp ?_
        rintro r m' ⟨hgood, hleft, hshorter⟩
        refine ⟨?_, hleft, fun message hopened => ?_⟩
        · simp only [List.forall_mem_cons]
          exact ⟨hcompared, hasked, hgood⟩
        · have hround := hshorter message hopened
          omega
      · rw [Prog.wp_pure]
        exact ⟨by simp [hcompared], ⟨ps, h, howns⟩, by simp⟩
  · rw [Prog.wp_pure]
    exact ⟨by simp, ⟨ps, h, howns⟩, by simp⟩

theorem parserRead_returns {p : Parser} (h : Linked m b ps) (howns : Owns m (ps ++ rest) k)
    (hlegal : p.Legal none) (hfinds : p.FindsPiece build (.ofBuffer b) m) :
    (parserRead p b).wp build m fun r m' =>
      (∃ ps', Linked m' r.2 ps' ∧ Owns m' (ps' ++ rest) k) ∧ r.2.length ≤ b.length := by
  let o : Origin := ⟨m, ps, rest, k⟩
  have hstart : Reading o m (.ofBuffer b) ps 0 none := reading_of_linked h howns
  have hlength : o.bytes.length = b.length := h.length.symm
  simp only [parserRead, BufferInputStream.destroy, Prog.wp_bind, Prog.wp_pure]
  refine (p.run_of_findsPiece hstart hlegal hfinds).imp ?_
  rintro s m₁ ⟨ps', n, last, hread⟩
  refine hread.releaseDrop.imp ?_
  rintro _ m' ⟨hread', _⟩
  have hleft : s.buffer.length = o.bytes.length - n := hread'.length
  exact ⟨⟨ps', hread'.linked, hread'.owns⟩, by omega⟩

theorem finds_of_parserRead {p : Parser} {Q : Unit × Buffer → Mem → Prop} (h : Linked m b ps)
    (howns : Owns m (ps ++ rest) k) (hlegal : p.Legal none) (hrun : (parserRead p b).wp build m Q) :
    p.FindsPiece build (.ofBuffer b) m := by
  let o : Origin := ⟨m, ps, rest, k⟩
  have hstart : Reading o m (.ofBuffer b) ps 0 none := reading_of_linked h howns
  rw [parserRead, Prog.wp_bind] at hrun
  exact p.findsPiece_of_run hstart hlegal (hrun.imp fun _ _ _ => trivial)

/-- With enough rounds `onMessage` ends, and every call and every round is as it should be. -/
theorem rounds_returns (hlegal : ∀ i message, (parser i message).Legal none)
    (huntouching : Untouching build callback) (h : Linked m b ps) (howns : Owns m (ps ++ rest) k)
    (hfuel : b.length < fuel)
    (hfinds : EveryFindsPiece build peeked lookup parser callback fuel b m) :
    (rounds peeked lookup parser callback fuel b).wp build m fun r m' =>
      (∀ e ∈ r.1, e.Good) ∧ Intact m' r.2 := by
  -- the induction is on the rounds; one that goes on leaves less than the rounds to come
  induction fuel generalizing m b ps rest k with
  | zero => omega
  | succ fuel ih =>
    obtain ⟨r, m₁, hrun, hgood, ⟨ps₁, h₁, howns₁⟩, hshorter⟩ := openFrame_spec (peeked fuel) lookup h howns
    rw [EveryFindsPiece, Prog.wlp_of_eq_ok hrun] at hfinds
    rw [rounds, onMessageEvents, Prog.wp_bind, Prog.wp_of_eq_ok hrun]
    cases hopened : r.1.2 with
    | nothing =>
      rw [Prog.wp_pure]
      exact ⟨hgood, ps₁, rest, k, h₁, howns₁⟩
    | failed code =>
      simp only [Prog.wp_bind, Prog.wp_pure]
      refine (huntouching fuel (none, code) r.2 m₁ ps₁ rest k h₁ howns₁).imp ?_
      rintro _ m₂ ⟨hsame, rest₂, k₂, howns₂⟩
      refine ⟨fun e he => ?_, ps₁, rest₂, k₂, h₁.same hsame, howns₂⟩
      cases List.mem_append.mp he with
      | inl hbefore => exact hgood e hbefore
      | inr hlast => rw [List.mem_singleton.mp hlast]; trivial
    | message message =>
      obtain ⟨hpiece, hafter⟩ := hfinds message hopened
      obtain ⟨parsed, m₂, hparse, ⟨ps₂, h₂, howns₂⟩, hle⟩ : (parserRead (parser fuel message) r.2).wp
        build m₁ _ := parserRead_returns h₁ howns₁ (hlegal fuel message) hpiece
      obtain ⟨_, m₃, hcall, hsame, rest₃, k₃, howns₃⟩ : (callback fuel (some parsed.1, .kNoError)
        parsed.2).wp build m₂ _ := huntouching _ _ _ _ ps₂ rest k h₂ howns₂
      have hround := hshorter message hopened
      rw [Prog.wlp_bind, Prog.wlp_of_eq_ok hparse, Prog.wlp_bind, Prog.wlp_of_eq_ok hcall,
        Prog.wlp_pure] at hafter
      simp only [Prog.wp_bind, Prog.wp_pure]
      rw [Prog.wp_of_eq_ok hparse, Prog.wp_of_eq_ok hcall]
      have hhead : 0 < kHeaderLen := by decide
      refine (ih (h₂.same hsame) howns₃ (by omega) hafter).imp ?_
      rintro rest m' ⟨hgood', hintact⟩
      refine ⟨fun e he => ?_, hintact⟩
      simp only [List.mem_append, List.mem_cons] at he
      obtain hbefore | rfl | rfl | hlater := he
      · exact hgood e hbefore
      · trivial
      · exact Nat.le_trans (Nat.add_le_add_right hle _) hround
      · exact hgood' e hlater

/-- It ends only if the parsers find their pieces. -/
theorem finds_of_rounds (hlegal : ∀ i message, (parser i message).Legal none)
    (huntouching : Untouching build callback) (h : Linked m b ps) (howns : Owns m (ps ++ rest) k)
    (hreturns : (rounds peeked lookup parser callback fuel b).wp build m fun _ _ => True) :
    EveryFindsPiece build peeked lookup parser callback fuel b m := by
  induction fuel generalizing m b ps rest k with
  | zero => trivial
  | succ fuel ih =>
    obtain ⟨r, m₁, hrun, _, ⟨ps₁, h₁, howns₁⟩, _⟩ := openFrame_spec (peeked fuel) lookup h howns
    rw [rounds, onMessageEvents, Prog.wp_bind, Prog.wp_of_eq_ok hrun] at hreturns
    rw [EveryFindsPiece, Prog.wlp_of_eq_ok hrun]
    intro message hopened
    rw [hopened] at hreturns
    simp only [Prog.wp_bind, Prog.wp_pure] at hreturns
    have hpiece := finds_of_parserRead h₁ howns₁ (hlegal fuel message) hreturns
    obtain ⟨parsed, m₂, hparse, ⟨ps₂, h₂, howns₂⟩, _⟩ : (parserRead (parser fuel message) r.2).wp
      build m₁ _ := parserRead_returns h₁ howns₁ (hlegal fuel message) hpiece
    obtain ⟨_, m₃, hcall, hsame, rest₃, k₃, howns₃⟩ : (callback fuel (some parsed.1, .kNoError)
      parsed.2).wp build m₂ _ := huntouching _ _ _ _ ps₂ rest k h₂ howns₂
    rw [Prog.wp_of_eq_ok hparse, Prog.wp_of_eq_ok hcall] at hreturns
    refine ⟨hpiece, ?_⟩
    rw [Prog.wlp_bind, Prog.wlp_of_eq_ok hparse, Prog.wlp_bind, Prog.wlp_of_eq_ok hcall,
      Prog.wlp_pure]
    exact ih (h₂.same hsame) howns₃ hreturns

/-- Parsers that never skip nothing, as protobuf's own does not, find their pieces. -/
def SkipsSome : Parser → Prop
  | .done => True
  | .next atEnd onData => SkipsSome atEnd ∧ ∀ data, SkipsSome (onData data)
  | .backUp _ after => SkipsSome after
  | .skip count after => 0 < count ∧ ∀ ok, SkipsSome (after ok)

theorem findsPiece_of_skipsSome (p : Parser) (h : SkipsSome p) (s : BufferInputStream) (m : Mem) :
    p.FindsPiece build s m := by
  induction p generalizing s m with
  | done => trivial
  | next atEnd onData ihEnd ihData =>
    rw [Parser.FindsPiece]
    intro r m' _
    cases hr : r.1 with
    | none => exact ihEnd h.1 r.2 m'
    | some data => exact ihData data (h.2 data) r.2 m'
  | backUp count after ih =>
    rw [Parser.FindsPiece]
    exact fun s' m' _ => ih h s' m'
  | skip count after ih =>
    rw [Parser.FindsPiece]
    exact ⟨fun hzero => absurd hzero (Nat.ne_of_gt h.1), fun r m' _ => ih r.1 (h.2 r.1) r.2 m'⟩

theorem everyFindsPiece_of_skipsSome (hskips : ∀ i message, SkipsSome (parser i message))
    (fuel : Nat) (b : Buffer) (m : Mem) :
    EveryFindsPiece build peeked lookup parser callback fuel b m := by
  induction fuel generalizing b m with
  | zero => trivial
  | succ fuel ih =>
    intro r m' _ message _
    exact ⟨findsPiece_of_skipsSome _ (hskips fuel message) _ _, fun b' m'' _ => ih b' m''⟩

/-- For every well formed buffer, whatever `peekInt32` yields, whatever legal calls the parsers
    make and whatever the callbacks do elsewhere: `onMessage` ends, every round that goes on has
    taken two headers and every call has asked for no more than there was, exactly if each
    `Skip(0)` of a parser finds a piece.  Whenever it ends the rounds and calls are so. -/
theorem onMessage_ends_iff (hlegal : ∀ i message, (parser i message).Legal none)
    (huntouching : Untouching build callback) (hb : b.Rep m ps) (howns : Owns m (ps ++ rest) k) :
    (((rounds peeked lookup parser callback (b.length + 1) b).wp build m fun r m' =>
        (∀ e ∈ r.1, e.Good) ∧ Intact m' r.2) ↔
      EveryFindsPiece build peeked lookup parser callback (b.length + 1) b m) ∧
    (rounds peeked lookup parser callback (b.length + 1) b).wlp build m fun r _ =>
      ∀ e ∈ r.1, e.Good := by
  have hfinds : (rounds peeked lookup parser callback (b.length + 1) b).wp build m (fun _ _ => True) →
      EveryFindsPiece build peeked lookup parser callback (b.length + 1) b m :=
    finds_of_rounds hlegal huntouching hb.linked howns
  have hreturns : EveryFindsPiece build peeked lookup parser callback (b.length + 1) b m →
      (rounds peeked lookup parser callback (b.length + 1) b).wp build m _ :=
    rounds_returns hlegal huntouching hb.linked howns (Nat.lt_succ_self b.length)
  refine ⟨⟨fun hrun => hfinds (hrun.imp fun _ _ _ => trivial), hreturns⟩, ?_⟩
  intro r m' hrun
  have hgood := hreturns (hfinds ⟨r, m', hrun, trivial⟩)
  exact ((Prog.wp_of_eq_ok hrun).mp hgood).1

end Rounds

/-! ### A frame of fourteen bytes -/

/-- One piece with a type name of one byte and five bytes behind it. -/
def framed : Mem where
  cell := fun _ => ⟨none, 0, 14, fun i => if i = 7 then 1 else 0⟩
  brk := 1
  pool := { usingCount := 1 }

def framedBuffer : Buffer := { head := some 0, tail := some 0, size := 1, length := 14 }

theorem framed_rep : framedBuffer.Rep framed [0] := ⟨⟨⟨⟨rfl, rfl⟩, rfl, rfl⟩, by decide⟩, rfl⟩

theorem framed_owns : Owns framed ([0] ++ []) 0 := by
  refine ⟨⟨[], ⟨rfl, rfl, rfl⟩, by decide, fun p => ?_, by decide, by decide, by decide, by decide,
    by decide⟩, rfl⟩
  simp [framed, Mem.Live]

def silent : Nat → Option Unit × ErrorCode → Buffer → Exec Unit := fun _ _ _ => pure ()

theorem silent_untouching (build : Build) : Untouching build silent := by
  intro i result b m ps rest k _ howns
  exact (Prog.wp_pure _ _ _ _).mpr ⟨SameOn.refl _ _, rest, k, howns⟩

def readsThen (after : Parser) : Nat → Unit → Parser := fun _ _ => .next .done fun _ => after

/-- The parser reads the only piece and then skips nothing. -/
theorem skip_nothing_in_parser_faults :
    ¬ ∀ (build : Build) (peeked : Nat → Int) (lookup : Bytes → Option Unit)
      (parser : Nat → Unit → Parser) (callback : Nat → Option Unit × ErrorCode → Buffer → Exec Unit)
      (m : Mem) (b : Buffer) (ps rest : List Ptr) (k : Nat),
      (∀ i message, (parser i message).Legal none) → Untouching build callback → b.Rep m ps →
      Owns m (ps ++ rest) k →
      (rounds peeked lookup parser callback (b.length + 1) b).wp build m fun r m' =>
        (∀ e ∈ r.1, e.Good) ∧ Intact m' r.2 := by
  intro hclaim
  have hlegal : ∀ i message, (readsThen (.skip 0 fun _ => .done) i message).Legal none :=
    fun _ _ => ⟨trivial, fun _ _ => trivial⟩
  obtain ⟨r, m', hok, _⟩ := hclaim .debug (fun _ => 10) (fun _ => some ()) _ _ framed framedBuffer [0] []
    0 hlegal (silent_untouching _) framed_rep framed_owns
  have hfault : (match rounds (fun _ => 10) (fun _ => some ()) (readsThen (.skip 0 fun _ => .done))
      silent 15 framedBuffer .debug framed with
    | .ok _ => true
    | .error _ => false) = false := by decide +kernel
  have hrun : rounds (fun _ => 10) (fun _ => some ()) (readsThen (.skip 0 fun _ => .done))
      silent 15 framedBuffer .debug framed = .ok (r, m') := hok
  rw [hrun] at hfault
  cases hfault

/-- A parser that does not skip. -/
theorem onMessage_ends_framed :
    (rounds (fun _ => 10) (fun _ => some ()) (readsThen .done) silent 15 framedBuffer).wp .debug framed
      fun r m' => (∀ e ∈ r.1, e.Good) ∧ Intact m' r.2 := by
  have hlegal : ∀ i message, (readsThen .done i message).Legal none :=
    fun _ _ => ⟨trivial, fun _ => trivial⟩
  have hskips : ∀ i message, SkipsSome (readsThen .done i message) :=
    fun _ _ => ⟨trivial, fun _ => trivial⟩
  apply (onMessage_ends_iff hlegal (silent_untouching .debug) framed_rep framed_owns).1.mpr
  exact everyFindsPiece_of_skipsSome hskips _ _ _

end ProtobufCodec

end Netpp
