import Netpp.Lib.Endian
import Netpp.Lib.RoundRobin
import Netpp.Loop.PoolTracking

/-! # `getNextLoop`, called on any threads

* `LoopPool` is a pool with the threads that call `getNextLoop`, any number of them, and
  `NextLoopPc` says where such a call is: each of its accesses to what the pool shares is a
  step of its own.
* `Dealt`: the invariant.  `next_` has counted the draws, and each draw is for the thread
  whose turn it is.
* `getNextLoop_round_robin`: no call is ever out of range, and the threads get their loops
  asked for in turn, however the calls interleave.
-/

namespace Netpp.Loop

open Function (update)
open ServerStatus Family

/-! ## State -/

/-- Where a thread is in `getNextLoop`. -/
inductive NextLoopPc where
  | idle
  | running                 -- `isRunning()` has held; `!threads_.empty()` follows
  | drawing                 -- `next_.fetch_add(1)` follows
  | drawn (next : Int)      -- `next % threads_.size()` follows
  | reduced (next : Int)    -- `threads_[(size_t)next]` follows
  deriving DecidableEq

/-- The thread whose loop a call will return, among `n`. -/
def NextLoopPc.heading (n : Nat) : NextLoopPc → Option Nat
  | drawn next => some (unsignedWord 64 next % n)
  | reduced next => some (unsignedWord 64 next)
  | _ => none

/-- Past `!threads_.empty()` there are threads, `n` of them, as long as `join` has not been
    called. -/
def NextLoopPc.Sound (n : Nat) (joined : Bool) : NextLoopPc → Prop
  | idle | running => True
  | drawing | drawn _ => joined = false ∧ 0 < n
  | reduced next => joined = false ∧ unsignedWord 64 next < n

/-- `κ` names the threads that call `getNextLoop`. -/
structure LoopPool (n : Nat) (ι φ κ : Type) where
  pool : EventLoopThreadPool n ι φ := {}
  joined : Bool := false                  -- `join` has cleared `threads_`
  next : Int := 0                         -- `next_`
  callers : κ → NextLoopPc := fun _ => .idle
  -- for speaking about the past
  draws : Nat := 0                        -- the calls of `next_.fetch_add(1)`
  handed : List (Option (Fin n)) := []    -- the results: the loop of a thread, or `base_loop_`

inductive LoopPoolAction (n : Nat) (ι φ κ : Type) where
  | pool (a : PoolAction n ι φ)
  | join
  | getNextLoop (t : κ)
  | goesOn (t : κ)

inductive NextLoopFault where
  | pool (fault : LoopFault)
  | divisionByZero
  | outOfRange
  deriving DecidableEq, Repr

abbrev NextLoopExec (α : Type) : Type := Prog Build Unit NextLoopFault α

namespace LoopPool

variable {n : Nat} {ι φ κ : Type}

/-- `threads_.size()` -/
def size (s : LoopPool n ι φ κ) : Nat := if s.joined then 0 else n

variable [DecidableEq κ]

def setCaller (s : LoopPool n ι φ κ) (t : κ) (pc : NextLoopPc) : LoopPool n ι φ κ :=
  { s with callers := update s.callers t pc }

/-- `return loop;` -/
def handOut (s : LoopPool n ι φ κ) (t : κ) (loop : Option (Fin n)) : LoopPool n ι φ κ :=
  { s.setCaller t .idle with handed := s.handed ++ [loop] }

/-- `isRunning() && ..` -/
def getNextLoop (s : LoopPool n ι φ κ) (t : κ) : LoopPool n ι φ κ :=
  if s.pool.isRunning then s.setCaller t .running else s.handOut t none

/-- The next step of a call of `getNextLoop`. -/
def goesOn (s : LoopPool n ι φ κ) (t : κ) : NextLoopExec (LoopPool n ι φ κ) :=
  match s.callers t with
  | .idle => pure s
  | .running => pure (if s.size = 0 then s.handOut t none else s.setCaller t .drawing)
  | .drawing =>
    -- an atomic `int64_t` wraps around
    pure { s with
      next := signedWord 64 (unsignedWord 64 (s.next + 1)), callers := update s.callers t (.drawn s.next),
      draws := s.draws + 1 }
  | .drawn next =>
    -- `threads_.size()` is a `size_t`, so `next` is converted to one and the remainder back
    if s.size = 0 then throw .divisionByZero
    else pure (s.setCaller t (.reduced (signedWord 64 (unsignedWord 64 next % s.size))))
  | .reduced next =>
    if h : unsignedWord 64 next < n ∧ s.joined = false then
      pure (s.handOut t (some ⟨unsignedWord 64 next, h.1⟩))
    else throw .outOfRange

/-- `join`: the threads are joined, and `threads_.clear()` destroys them. -/
def join (s : LoopPool n ι φ κ) : NextLoopExec (LoopPool n ι φ κ) := do
  Prog.mapFault .pool (LoopExec.assert (decide (∀ i, (s.pool.threads i).isStopped)))
  pure { s with joined := true }

/-- `threads_` is filled when `start` has returned; after `join` the pool is not used again
    except by `getNextLoop`. -/
def Enabled (s : LoopPool n ι φ κ) : LoopPoolAction n ι φ κ → Prop
  | .pool a => s.pool.Enabled a ∧ s.joined = false
  | .join => s.pool.start = .returned ∧ s.joined = false ∧ ∀ i, (s.pool.threads i).CanJoin
  | .getNextLoop t => s.callers t = .idle ∧ s.pool.start = .returned
  | .goesOn t => s.callers t ≠ .idle

def exec [DecidableEq ι] (s : LoopPool n ι φ κ) :
    LoopPoolAction n ι φ κ → NextLoopExec (LoopPool n ι φ κ)
  | .pool a => do
    let pool ← Prog.mapFault .pool (s.pool.exec a)
    pure { s with pool := pool }
  | .join => s.join
  | .getNextLoop t => pure (s.getNextLoop t)
  | .goesOn t => s.goesOn t

def machine (n : Nat) (ι φ κ : Type) [DecidableEq ι] [DecidableEq κ] :
    Machine Build Unit NextLoopFault (LoopPool n ι φ κ) (LoopPoolAction n ι φ κ) where
  Init s _ := s = {}
  Enabled s _ a := s.Enabled a
  exec := exec

/-- `join` is called when no call of `getNextLoop` is under way. -/
def JoinsQuietly (s : LoopPool n ι φ κ) : LoopPoolAction n ι φ κ → Prop
  | .join => ∀ t, s.callers t = .idle
  | _ => True

/-! ## What a step does -/

variable {build : Build} {s s' : LoopPool n ι φ κ} {a : LoopPoolAction n ι φ κ}

inductive NextLoopStep (s : LoopPool n ι φ κ) : LoopPoolAction n ι φ κ → LoopPool n ι φ κ → Prop
  | pool (a : PoolAction n ι φ) (pool : EventLoopThreadPool n ι φ) (unjoined : s.joined = false) :
      NextLoopStep s (.pool a) { s with pool := pool }
  | join : NextLoopStep s .join { s with joined := true }
  | refused (t : κ) (pc : s.callers t = .idle) : NextLoopStep s (.getNextLoop t) (s.handOut t none)
  | running (t : κ) (pc : s.callers t = .idle) :
      NextLoopStep s (.getNextLoop t) (s.setCaller t .running)
  | empty (t : κ) (pc : s.callers t = .running) : NextLoopStep s (.goesOn t) (s.handOut t none)
  | nonempty (t : κ) (pc : s.callers t = .running) (size : s.size ≠ 0) :
      NextLoopStep s (.goesOn t) (s.setCaller t .drawing)
  | draw (t : κ) (pc : s.callers t = .drawing) :
      NextLoopStep s (.goesOn t) { s with
        next := signedWord 64 (unsignedWord 64 (s.next + 1)),
        callers := update s.callers t (.drawn s.next), draws := s.draws + 1 }
  | reduce (t : κ) (next : Int) (pc : s.callers t = .drawn next) :
      NextLoopStep s (.goesOn t)
        (s.setCaller t (.reduced (signedWord 64 (unsignedWord 64 next % s.size))))
  | index (t : κ) (next : Int) (pc : s.callers t = .reduced next) (h : unsignedWord 64 next < n) :
      NextLoopStep s (.goesOn t) (s.handOut t (some ⟨unsignedWord 64 next, h⟩))

theorem goesOn_step {t : κ} (busy : s.callers t ≠ .idle) :
    (s.goesOn t).wlp build () fun s' _ => NextLoopStep s (.goesOn t) s' := by
  unfold goesOn
  cases hpc : s.callers t with
  | idle => exact absurd hpc busy
  | running =>
    rw [Prog.wlp_pure]
    split
    · exact .empty t hpc
    · rename_i hsize
      exact .nonempty t hpc hsize
  | drawing =>
    rw [Prog.wlp_pure]
    exact .draw t hpc
  | drawn next =>
    dsimp only
    split
    · exact Prog.wlp_throw _ _ _ _
    · rw [Prog.wlp_pure]
      exact .reduce t next hpc
  | reduced next =>
    dsimp only
    split
    · rename_i h
      rw [Prog.wlp_pure]
      exact .index t next hpc h.1
    · exact Prog.wlp_throw _ _ _ _

theorem exec_step [DecidableEq ι] (enabled : s.Enabled a) (done : s.exec a build () = .ok (s', ())) :
    NextLoopStep s a s' := by
  have hwlp : (s.exec a).wlp build () fun s' _ => NextLoopStep s a s' := by
    cases a with
    | pool a =>
      simp only [exec, Prog.wlp_bind, Prog.wlp_pure]
      exact fun pool _ _ => .pool a pool enabled.2
    | join =>
      simp only [exec, join, Prog.wlp_bind, Prog.wlp_pure]
      exact fun _ _ _ => .join
    | getNextLoop t =>
      simp only [exec, Prog.wlp_pure]
      unfold getNextLoop
      split
      · exact .running t enabled.1
      · exact .refused t enabled.1
    | goesOn t => exact goesOn_step enabled
  exact hwlp s' () done

/-! ## Calls past `!threads_.empty()` -/

omit [DecidableEq κ] in
theorem size_of_unjoined (h : s.joined = false) : s.size = n := by
  simp [size, h]

omit [DecidableEq κ] in
theorem unjoined_of_size (h : s.size ≠ 0) : s.joined = false ∧ 0 < n := by
  cases hjoined : s.joined with
  | true => simp [size, hjoined] at h
  | false => exact ⟨rfl, Nat.pos_of_ne_zero (size_of_unjoined hjoined ▸ h)⟩

theorem sound_update (sound : ∀ t, (s.callers t).Sound n s.joined) (t : κ) {pc : NextLoopPc}
    (h : pc.Sound n s.joined) : ∀ u, (update s.callers t pc u).Sound n s.joined := by
  intro u
  by_cases hu : u = t
  · subst hu
    rw [Function.update_self]
    exact h
  · rw [Function.update_of_ne hu]
    exact sound u

theorem goesOn_returns {t : κ} (busy : s.callers t ≠ .idle) (sound : (s.callers t).Sound n s.joined) :
    (s.goesOn t).wp build () fun _ _ => True := by
  unfold goesOn
  cases hpc : s.callers t with
  | idle => exact absurd hpc busy
  | running => exact (Prog.wp_pure ..).mpr trivial
  | drawing => exact (Prog.wp_pure ..).mpr trivial
  | drawn next =>
    rw [hpc] at sound
    dsimp only
    rw [size_of_unjoined sound.1, if_neg (Nat.ne_of_gt sound.2), Prog.wp_pure]
    trivial
  | reduced next =>
    rw [hpc] at sound
    dsimp only
    rw [dif_pos ⟨sound.2, sound.1⟩, Prog.wp_pure]
    trivial

/-! ## Turns -/

section Turns

variable [Fintype κ]

/-- The calls that are about to be handed the loop of thread `i`. -/
def underWay (s : LoopPool n ι φ κ) (i : Fin n) : Nat :=
  (having (fun pc : NextLoopPc => pc.heading n = some i.val) s.callers).card

def given (s : LoopPool n ι φ κ) (i : Fin n) : Nat := s.handed.count (some i) + s.underWay i

theorem underWay_setCaller (s : LoopPool n ι φ κ) (t : κ) (pc : NextLoopPc) (i : Fin n) :
    (s.setCaller t pc).underWay i + (if (s.callers t).heading n = some i.val then 1 else 0) =
      s.underWay i + if pc.heading n = some i.val then 1 else 0 :=
  card_having_update s.callers t pc

theorem given_setCaller {t : κ} {pc : NextLoopPc} (same : pc.heading n = (s.callers t).heading n)
    (i : Fin n) : (s.setCaller t pc).given i = s.given i := by
  have hunder := underWay_setCaller s t pc i
  rw [same] at hunder
  rw [given, given, Nat.add_right_cancel hunder]
  rfl

theorem given_handOut {t : κ} {loop : Option (Fin n)}
    (same : (s.callers t).heading n = loop.map Fin.val) (i : Fin n) :
    (s.handOut t loop).given i = s.given i := by
  have hunder : (s.handOut t loop).underWay i + (if (s.callers t).heading n = some i.val then 1 else 0) =
      s.underWay i + 0 := underWay_setCaller s t .idle i
  have hcount : (s.handOut t loop).handed.count (some i) =
      s.handed.count (some i) + if loop = some i then 1 else 0 := by
    simp [handOut, List.count_append, List.count_singleton]
  have hiff : (s.callers t).heading n = some i.val ↔ loop = some i := by
    rw [same]
    cases loop with
    | none => simp
    | some j => simp [Fin.ext_iff]
  simp only [hiff] at hunder
  rw [given, given, hcount]
  omega

/-- `next_` has counted the draws, and each draw is for the thread whose turn it was. -/
structure Dealt (s : LoopPool n ι φ κ) : Prop where
  next : s.next = signedWord 64 (s.draws % 2 ^ 64)
  sound : ∀ t, (s.callers t).Sound n s.joined
  turns : ∀ i : Fin n, s.given i = RoundRobin.turns (2 ^ 64) n s.draws i

theorem Dealt.setCaller (h : Dealt s) {t : κ} {pc : NextLoopPc}
    (same : pc.heading n = (s.callers t).heading n) (sound : pc.Sound n s.joined) :
    Dealt (s.setCaller t pc) := by
  refine ⟨h.next, sound_update h.sound t sound, fun i => ?_⟩
  rw [given_setCaller same]
  exact h.turns i

theorem Dealt.handOut (h : Dealt s) {t : κ} {loop : Option (Fin n)}
    (same : (s.callers t).heading n = loop.map Fin.val) : Dealt (s.handOut t loop) := by
  refine ⟨h.next, sound_update h.sound t trivial, fun i => ?_⟩
  rw [given_handOut same]
  exact h.turns i

theorem Dealt.draw (h : Dealt s) {t : κ} (pc : s.callers t = .drawing) :
    Dealt { s with
      next := signedWord 64 (unsignedWord 64 (s.next + 1)),
      callers := update s.callers t (.drawn s.next), draws := s.draws + 1 } := by
  have hsound : (NextLoopPc.drawn s.next).Sound n s.joined := by
    have hdrawing := h.sound t
    rw [pc] at hdrawing
    exact hdrawing
  have hword : unsignedWord 64 s.next = s.draws % 2 ^ 64 := by
    rw [h.next, unsignedWord_signedWord (Nat.mod_lt _ (by decide))]
  refine ⟨?_, sound_update h.sound t hsound, fun i => ?_⟩
  · dsimp only
    rw [h.next, unsignedWord_signedWord_succ]
  · -- the draw is turn `s.draws`, and the caller is now under way to its thread
    have hunder := underWay_setCaller s t (.drawn s.next) i
    have hold : (s.callers t).heading n ≠ some i.val := by simp [pc, NextLoopPc.heading]
    have hnew : (NextLoopPc.drawn s.next).heading n = some i.val ↔
        RoundRobin.party (2 ^ 64) n s.draws = i.val := by
      simp only [NextLoopPc.heading, hword, RoundRobin.party, Option.some.injEq]
    rw [if_neg hold] at hunder
    simp only [hnew, Nat.add_zero] at hunder
    have hgiven := h.turns i
    rw [RoundRobin.turns_succ, ← hgiven, given, given, Nat.add_assoc, ← hunder]
    rfl

theorem Dealt.reduce (h : Dealt s) {t : κ} {next : Int} (pc : s.callers t = .drawn next) :
    Dealt (s.setCaller t (.reduced (signedWord 64 (unsignedWord 64 next % s.size)))) := by
  have hsound := h.sound t
  rw [pc] at hsound
  have hword : unsignedWord 64 (signedWord 64 (unsignedWord 64 next % n)) = unsignedWord 64 next % n := by
    apply unsignedWord_signedWord
    exact Nat.lt_of_le_of_lt (Nat.mod_le _ _) (unsignedWord_lt 64 next)
  rw [size_of_unjoined hsound.1]
  apply h.setCaller
  · simp only [pc, NextLoopPc.heading, hword]
  · refine ⟨hsound.1, ?_⟩
    rw [hword]
    exact Nat.mod_lt _ hsound.2

theorem Dealt.step (h : Dealt s) (condition : JoinsQuietly s a) (hstep : NextLoopStep s a s') :
    Dealt s' := by
  cases hstep with
  | pool a pool _ => exact ⟨h.next, h.sound, h.turns⟩
  | join =>
    refine ⟨h.next, fun t => ?_, h.turns⟩
    rw [condition t]
    trivial
  | refused t pc => exact h.handOut (by rw [pc]; rfl)
  | running t pc => exact h.setCaller (by rw [pc]; rfl) trivial
  | empty t pc => exact h.handOut (by rw [pc]; rfl)
  | nonempty t pc hsize => exact h.setCaller (by rw [pc]; rfl) (unjoined_of_size hsize)
  | draw t pc => exact h.draw pc
  | reduce t next pc => exact h.reduce pc
  | index t next pc hlt => exact h.handOut (by rw [pc]; rfl)

theorem run_dealt [DecidableEq ι] {as : List (LoopPoolAction n ι φ κ)}
    (h : (machine n ι φ κ).Run build (fun _ s _ a => JoinsQuietly s a) as s ()) : Dealt s := by
  refine h.invariant (I := fun s _ => Dealt s) (fun s _ hinit => ?_)
    fun as s m a s' m' _ ih enabled condition done => ih.step condition (exec_step enabled done)
  cases hinit
  refine ⟨rfl, fun _ => trivial, fun i => ?_⟩
  simp [given, underWay, having, NextLoopPc.heading]

/-- In every run in which `join` is called when no call of `getNextLoop` is under way: no
    call divides by zero or is out of range, and the calls that have got, or are about to get,
    the loops of any two threads differ in number by one at most, and by one more for each
    time `next_` has gone round. -/
theorem getNextLoop_round_robin [DecidableEq ι] {as : List (LoopPoolAction n ι φ κ)}
    (h : (machine n ι φ κ).Run build (fun _ s _ a => JoinsQuietly s a) as s ()) :
    (∀ t, s.callers t ≠ .idle → (s.goesOn t).wp build () fun _ _ => True) ∧
    (∀ i j : Fin n, s.given i ≤ s.given j + s.draws / 2 ^ 64 + 1) ∧
    ((∀ t, s.callers t = .idle) → ∀ i j : Fin n,
      s.handed.count (some i) ≤ s.handed.count (some j) + s.draws / 2 ^ 64 + 1) := by
  have hdealt := run_dealt h
  have hbalanced : ∀ i j : Fin n, s.given i ≤ s.given j + s.draws / 2 ^ 64 + 1 := fun i j => by
    rw [hdealt.turns i, hdealt.turns j]
    exact RoundRobin.turns_le (2 ^ 64) i.isLt j.isLt s.draws
  refine ⟨fun t busy => goesOn_returns busy (hdealt.sound t), hbalanced, fun hidle i j => ?_⟩
  have hunder : ∀ i, s.underWay i = 0 := fun i => by
    simp [underWay, having, hidle, NextLoopPc.heading]
  have hij := hbalanced i j
  rw [given, given, hunder, hunder] at hij
  exact hij

omit [Fintype κ] in
theorem run_next [DecidableEq ι] {as : List (LoopPoolAction n ι φ κ)}
    (h : (machine n ι φ κ).Run build (fun _ s _ a => JoinsQuietly s a) as s ())
    (a : LoopPoolAction n ι φ κ) (enabled : s.Enabled a) (condition : JoinsQuietly s a)
    (done : s.exec a build () = .ok (s', ())) :
    (machine n ι φ κ).Run build (fun _ s _ a => JoinsQuietly s a) (as ++ [a]) s' () :=
  h.step a enabled condition done

/-- Two threads, and two calls that overlap: the one that draws first returns last. -/
theorem getNextLoop_round_robin_two :
    ∃ (as : List (LoopPoolAction 2 Unit Unit Bool)) (s : LoopPool 2 Unit Unit Bool),
      (machine 2 Unit Unit Bool).Run .debug (fun _ s _ a => JoinsQuietly s a) as s () ∧
      s.handed = [some 1, some 0] ∧
      ∀ i j : Fin 2, s.handed.count (some i) ≤ s.handed.count (some j) + s.draws / 2 ^ 64 + 1 := by
  have r : (machine 2 Unit Unit Bool).Run .debug (fun _ s _ a => JoinsQuietly s a) [] {} () := .start rfl
  have r := run_next r (.pool (.start false)) ⟨rfl, rfl⟩ trivial rfl
  have r := run_next r (.pool .startNext) ⟨.inl rfl, rfl⟩ trivial rfl
  have r := run_next r (.pool .startNext) ⟨.inr (.inr trivial), rfl⟩ trivial rfl
  have r := run_next r (.pool .startNext) ⟨.inr (.inl rfl), rfl⟩ trivial rfl
  have r := run_next r (.pool .startNext) ⟨.inl rfl, rfl⟩ trivial rfl
  have r := run_next r (.pool .startNext) ⟨.inr (.inr trivial), rfl⟩ trivial rfl
  have r := run_next r (.pool .startNext) ⟨.inr (.inl rfl), rfl⟩ trivial rfl
  have r := run_next r (.pool (.run 0 .begin)) ⟨⟨rfl, by simp, by simp⟩, rfl⟩ trivial rfl
  have r := run_next r (.pool (.run 0 .announce)) ⟨⟨⟨rfl, rfl, rfl⟩, by simp, by simp⟩, rfl⟩ trivial rfl
  have r := run_next r (.pool (.run 0 .countDown)) ⟨⟨rfl, by simp, by simp⟩, rfl⟩ trivial rfl
  have r := run_next r (.pool (.run 1 .begin)) ⟨⟨rfl, by simp, by simp⟩, rfl⟩ trivial rfl
  have r := run_next r (.pool (.run 1 .announce)) ⟨⟨⟨rfl, rfl, rfl⟩, by simp, by simp⟩, rfl⟩ trivial rfl
  have r := run_next r (.pool (.run 1 .countDown)) ⟨⟨rfl, by simp, by simp⟩, rfl⟩ trivial rfl
  have r := run_next r (.pool (.hook 0)) ⟨trivial, rfl⟩ trivial rfl
  have r := run_next r (.pool (.hook 0)) ⟨trivial, rfl⟩ trivial rfl
  have r := run_next r (.pool (.hook 1)) ⟨trivial, rfl⟩ trivial rfl
  have r := run_next r (.pool (.hook 1)) ⟨trivial, rfl⟩ trivial rfl
  have r := run_next r (.getNextLoop true) ⟨rfl, rfl⟩ trivial rfl
  have r := run_next r (.getNextLoop false) ⟨rfl, rfl⟩ trivial rfl
  have r := run_next r (.goesOn true) (by intro h; cases h) trivial rfl
  have r := run_next r (.goesOn true) (by intro h; cases h) trivial rfl
  have r := run_next r (.goesOn false) (by intro h; cases h) trivial rfl
  have r := run_next r (.goesOn false) (by intro h; cases h) trivial rfl
  have r := run_next r (.goesOn false) (by intro h; cases h) trivial rfl
  have r := run_next r (.goesOn false) (by intro h; cases h) trivial rfl
  have r := run_next r (.goesOn true) (by intro h; cases h) trivial rfl
  have r := run_next r (.goesOn true) (by intro h; cases h) trivial rfl
  exact ⟨_, _, r, rfl, (getNextLoop_round_robin r).2.2 fun t => by cases t <;> rfl⟩

end Turns

end LoopPool

end Netpp.Loop
