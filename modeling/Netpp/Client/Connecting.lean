import Netpp.Client.Tracking

/-! # Connecting and reconnecting

`is_connecting_` is set before `open` and `bind`, and cleared by the completion of the
`async_connect` that follows them.

* `isConnecting_exact`: it is true if and only if one `async_connect` is outstanding, as
  long as neither `open` nor `bind` has thrown.
* `keeps_reconnecting`: a client that is not told to stop has a connection, is getting
  one, or will try again.
-/

namespace Netpp

/-- `open` or `bind` throws in this step. -/
def ClientAction.throws {n : Nat} : ClientAction n → Bool
  | connectHere throws | runConnect throws | reconnect throws | conn _ throws => throws
  | _ => false

/-- The application's call of `connect` is run. -/
def ClientAction.callsConnect {n : Nat} : ClientAction n → Bool
  | connectHere _ | runConnect _ => true
  | _ => false

namespace TCPClient

variable {n : Nat} {build : Build} {m m' : Mem} {s s' t : TCPClient n} {a : ClientAction n}
  {P : List (ClientAction n) → TCPClient n → Mem → ClientAction n → Prop}
  {as : List (ClientAction n)} {throws : Bool}

/-! ## `is_connecting_` -/

/-- `is_connecting_` waits for a completion. -/
def Awaits (s : TCPClient n) : Prop := s.isConnecting = true → s.attempts ≠ []

/-- `is_connecting_` waits for a completion that will not come. -/
def Jammed (s : TCPClient n) : Prop := s.isConnecting = true ∧ s.attempts = []

theorem Awaits.connects (h : Awaits s) (hconnects : Connects s throws t)
    (hthrows : throws = true → s.localPort = 0) : Awaits t := by
  cases hconnects with
  | refused _ _ => exact h
  | threw _ hbound => exact absurd (hthrows rfl) hbound
  | started _ _ _ => exact fun _ => List.append_ne_nil_of_right_ne_nil _ (List.cons_ne_nil _ _)

theorem Awaits.step (h : Awaits s) (hstep : ClientStep build m s a s' m') (hthrows : a.throws = false) :
    Awaits s' := by
  have hnot : ∀ throws : Bool, throws = false → throws = true → s.localPort = 0 := by
    intro throws hfalse htrue
    rw [hfalse] at htrue
    cases htrue
  cases hstep with
  | connectHere throws _ _ _ hconnects => exact h.connects hconnects (hnot throws hthrows)
  | runConnect throws _ _ _ _ hconnects =>
    have hsame : Awaits { s with connects := s.connects - 1 } := h
    exact hsame.connects hconnects (hnot throws hthrows)
  | reconnect throws _ _ _ _ hconnects =>
    have hsame : Awaits { s with timers := s.timers - 1 } := h
    exact hsame.connects hconnects (hnot throws hthrows)
  | connectDone op result _ _ =>
    exact fun _ => List.append_ne_nil_of_right_ne_nil _ (List.cons_ne_nil _ _)
  | connected op c w _ _ _ _ _ _ => intro hconnecting; cases hconnecting
  | refused op _ _ => intro hconnecting; cases hconnecting
  | reconnected c w _ _ _ _ _ _ _ hconnects =>
    have hsame : Awaits { s with world := w, conn := none } := h
    exact hsame.connects hconnects (by intro htrue; cases htrue)
  | unwound c w _ _ _ _ _ _ _ => cases hthrows
  | _ => exact h

theorem Jammed.connects (h : Jammed s) (hconnects : Connects s throws t) : Jammed t := by
  have hrefused : s.refuses = true := by simp [refuses, h.1]
  cases hconnects with
  | refused _ _ => exact h
  | threw hnot _ => rw [hrefused] at hnot; cases hnot
  | started _ hnot _ => rw [hrefused] at hnot; cases hnot

theorem Jammed.step (h : Jammed s) (hstep : ClientStep build m s a s' m') : Jammed s' := by
  have hnone : ∀ op, op ∉ s.attempts := fun op hop => by
    rw [h.2] at hop
    cases hop
  cases hstep with
  | connectHere throws _ _ _ hconnects => exact h.connects hconnects
  | runConnect throws _ _ _ _ hconnects =>
    have hsame : Jammed { s with connects := s.connects - 1 } := h
    exact hsame.connects hconnects
  | reconnect throws _ _ _ _ hconnects =>
    have hsame : Jammed { s with timers := s.timers - 1 } := h
    exact hsame.connects hconnects
  | connectDone op _ hop _ => exact absurd hop (hnone op)
  | connected op _ _ _ hop _ _ _ _ => exact absurd hop (hnone op)
  | refused op hop _ => exact absurd hop (hnone op)
  | reconnected c w _ _ _ _ _ _ _ hconnects =>
    have hsame : Jammed { s with world := w, conn := none } := h
    exact hsame.connects hconnects
  | unwound c w _ _ _ _ _ _ _ => exact ⟨rfl, h.2⟩
  | _ => exact h

theorem Connects.jams (h : Connects s true t) (hopens : s.Opens) (hnil : s.attempts = []) :
    Jammed t := by
  cases h with
  | refused _ hrefused => exact absurd (hrefused.symm.trans hopens.1) (by decide)
  | threw _ _ => exact ⟨rfl, hnil⟩
  | started _ _ hunbound => exact absurd (hunbound rfl) hopens.2

theorem Tracked.jams (h : Tracked s) (hstep : ClientStep build m s a s' m') (hthrows : a.throws = true) :
    Jammed s' := by
  have hnil : s.Opens → s.attempts = [] := fun hopens => h.attempts_nil (refuses_eq_false hopens.1)
  cases hstep with
  | connectHere throws _ _ hopens hconnects =>
    obtain rfl : throws = true := hthrows
    exact hconnects.jams (hopens rfl) (hnil (hopens rfl))
  | runConnect throws _ _ _ hopens hconnects =>
    obtain rfl : throws = true := hthrows
    exact hconnects.jams (hopens rfl) (hnil (hopens rfl))
  | reconnect throws _ _ _ hopens hconnects =>
    obtain rfl : throws = true := hthrows
    exact hconnects.jams (hopens rfl) (hnil (hopens rfl))
  | unwound c w _ _ _ _ hnot _ _ => exact ⟨rfl, h.attempts_nil hnot⟩
  | _ => cases hthrows

/-- A client whose `open` and `bind` have not thrown waits for a completion; one for
    which they have waits for ever. -/
theorem run_awaits (h : (machine n).Run build P as s m) :
    ((∀ a ∈ as, a.throws = false) → Awaits s) ∧ ((∃ a ∈ as, a.throws = true) → Jammed s) := by
  induction h with
  | start hinit =>
    obtain ⟨rfl, _⟩ := hinit
    exact ⟨fun _ hconnecting => (by cases hconnecting), fun ⟨a, hmem, _⟩ => (by cases hmem)⟩
  | step a before enabled _ done ih =>
    have hstep := exec_step enabled done
    obtain ⟨hawaits, hjammed⟩ := ih
    refine ⟨fun hnone => ?_, fun ⟨b, hb, hthrows⟩ => ?_⟩
    · exact (hawaits fun b hb => hnone b (List.mem_append_left _ hb)).step hstep
        (hnone a (List.mem_append_right _ List.mem_cons_self))
    · cases List.mem_append.mp hb with
      | inl hold => exact (hjammed ⟨b, hold, hthrows⟩).step hstep
      | inr hnew =>
        obtain rfl := List.mem_singleton.mp hnew
        exact (run_tracked before).jams hstep hthrows

/-- In every run `is_connecting_` is true if and only if exactly one `async_connect` is
    outstanding, if and only if no call of `open` or `bind` has thrown. -/
theorem isConnecting_exact (h : (machine n).Run build P as s m) :
    (s.isConnecting = true ↔ s.attempts.length = 1) ↔ ∀ a ∈ as, a.throws = false := by
  obtain ⟨hawaits, hjammed⟩ := run_awaits h
  obtain ⟨hone, hconnecting⟩ := (run_tracked h).attempts
  constructor
  · intro hexact a ha
    by_contra hthrows
    obtain ⟨hset, hnil⟩ := hjammed ⟨a, ha, by simpa using hthrows⟩
    have hlength := hexact.mp hset
    simp [hnil] at hlength
  · intro hnone
    constructor
    · intro hset
      have hpos := List.length_pos_iff.mpr (hawaits hnone hset)
      omega
    · exact fun hlength => hconnecting (List.ne_nil_of_length_eq_add_one hlength)

/-- The flag while a client connects. -/
theorem isConnecting_exact_connect :
    ∃ (as : List (ClientAction 1)) (s : TCPClient 1) (m : Mem),
      (machine 1).Run .release (fun _ _ _ _ => True) as s m ∧ s.attempts.length = 1 ∧
      (s.isConnecting = true ↔ s.attempts.length = 1) := by
  have r : (machine 1).Run .release (fun _ _ _ _ => True) [] {} emptyMem := .start ⟨rfl, _, rfl⟩
  have r := next r .connect trivial trivial rfl
  have r := next r (.runConnect false) ⟨Nat.one_pos, ⟨rfl, fun _ => rfl⟩, by intro h; cases h⟩ trivial rfl
  exact ⟨_, _, _, r, rfl, (isConnecting_exact r).mpr (by decide)⟩

/-- A client with a local port whose `bind` throws: `is_connecting_` stays set and nothing
    is outstanding. -/
theorem failed_bind_jams :
    ¬ ∀ (n : Nat) (build : Build) (as : List (ClientAction n)) (s : TCPClient n) (m : Mem),
      (machine n).Run build (fun _ _ _ _ => True) as s m → s.Idle →
      (s.isConnecting = true ↔ s.attempts.length = 1) := by
  intro hexact
  have r : (machine 1).Run .release (fun _ _ _ _ => True) [] {} emptyMem := .start ⟨rfl, _, rfl⟩
  have r := next r (.bind 7000) trivial trivial rfl
  have r := next r .connect trivial trivial rfl
  have r := next r (.runConnect true) ⟨Nat.one_pos, ⟨rfl, fun _ => rfl⟩, fun _ => ⟨rfl, by decide⟩⟩
    trivial rfl
  have hset := (hexact 1 _ _ _ _ r ⟨rfl, fun _ => rfl⟩).mp rfl
  cases hset

/-! ## Reconnecting -/

/-- The client has no local port and is not told to stop. -/
def KeepsReconnecting (_ : List (ClientAction n)) (_ : TCPClient n) (_ : Mem) : ClientAction n → Prop
  | .disconnect => False
  | .setAutoReconnect v => v = true
  | .bind port => port = 0
  | _ => True

/-- Somebody is about to connect again.  `newConnection` ends with `conn_` set or with a
    timer. -/
def Trying (s : TCPClient n) : Prop :=
  s.conn ≠ none ∨ s.attempts ≠ [] ∨ 0 < s.timers ∨ s.pc ≠ .idle

theorem Awaits.trying (h : Awaits s) (hconnects : Connects s throws t) (hbound : s.localPort = 0) :
    Trying t := by
  cases hconnects with
  | refused _ hrefused =>
    cases hconn : s.conn with
    | some c => exact .inl (by rw [hconn]; exact Option.some_ne_none c)
    | none =>
      simp only [refuses, hconn, Bool.or_false] at hrefused
      exact .inr (.inl (h hrefused))
  | threw _ hport => exact absurd hbound hport
  | started _ _ _ => exact .inr (.inl (List.append_ne_nil_of_right_ne_nil _ (List.cons_ne_nil _ _)))

/-- A client that has been told to connect, and not to stop. -/
structure Persistent (s : TCPClient n) : Prop where
  localPort : s.localPort = 0
  autoReconnect : s.autoReconnect = true
  awaits : Awaits s

theorem Persistent.connects (h : Persistent s) (hconnects : Connects s throws t) : Persistent t := by
  have hawaits := h.awaits.connects hconnects fun _ => h.localPort
  cases hconnects with
  | refused _ _ => exact ⟨h.localPort, h.autoReconnect, hawaits⟩
  | threw _ _ => exact ⟨h.localPort, h.autoReconnect, hawaits⟩
  | started _ _ _ => exact ⟨h.localPort, h.autoReconnect, hawaits⟩

theorem Persistent.step (h : Persistent s) (condition : KeepsReconnecting as s m a)
    (hstep : ClientStep build m s a s' m') :
    Persistent s' ∧ (a.callsConnect = true ∨ Trying s → Trying s') := by
  have hnever : a.callsConnect = false → s'.conn = s.conn → s'.attempts = s.attempts →
      s'.timers = s.timers → s'.pc = s.pc → a.callsConnect = true ∨ Trying s → Trying s' := by
    intro hcalls hconn hattempts htimers hpc htrying
    unfold Trying at htrying ⊢
    rw [hconn, hattempts, htimers, hpc]
    exact htrying.resolve_left (by simp [hcalls])
  cases hstep with
  | connect => exact ⟨⟨h.localPort, h.autoReconnect, h.awaits⟩, hnever rfl rfl rfl rfl rfl⟩
  | setAutoReconnect v => exact ⟨⟨h.localPort, condition, h.awaits⟩, hnever rfl rfl rfl rfl rfl⟩
  | bind port => exact ⟨⟨condition, h.autoReconnect, h.awaits⟩, hnever rfl rfl rfl rfl rfl⟩
  | connectHere throws _ _ _ hconnects =>
    exact ⟨h.connects hconnects, fun _ => h.awaits.trying hconnects h.localPort⟩
  | runConnect throws _ _ _ _ hconnects =>
    have hsame : Persistent { s with connects := s.connects - 1 } := ⟨h.localPort, h.autoReconnect, h.awaits⟩
    exact ⟨hsame.connects hconnects, fun _ => hsame.awaits.trying hconnects h.localPort⟩
  | reconnect throws _ _ _ _ hconnects =>
    have hsame : Persistent { s with timers := s.timers - 1 } := ⟨h.localPort, h.autoReconnect, h.awaits⟩
    exact ⟨hsame.connects hconnects, fun _ => hsame.awaits.trying hconnects h.localPort⟩
  | disconnected _ => exact condition.elim
  | disconnect _ _ _ _ _ => exact condition.elim
  | connectDone op result _ _ =>
    have hne : s.attempts.erase op ++ [{ op with result := some result }] ≠ [] :=
      List.append_ne_nil_of_right_ne_nil _ (List.cons_ne_nil _ _)
    exact ⟨⟨h.localPort, h.autoReconnect, fun _ => hne⟩, fun _ => .inr (.inl hne)⟩
  | connected op c w _ _ _ _ _ _ =>
    exact ⟨⟨h.localPort, h.autoReconnect, by intro hset; cases hset⟩,
      fun _ => .inr (.inr (.inr (by intro hpc; cases hpc)))⟩
  | refused op _ _ =>
    exact ⟨⟨h.localPort, h.autoReconnect, by intro hset; cases hset⟩,
      fun _ => .inr (.inr (.inr (by intro hpc; cases hpc)))⟩
  | established c _ _ =>
    exact ⟨⟨h.localPort, h.autoReconnect, h.awaits⟩, fun _ => .inl (Option.some_ne_none c)⟩
  | failed _ =>
    refine ⟨⟨h.localPort, h.autoReconnect, h.awaits⟩, fun _ => .inr (.inr (.inl ?_))⟩
    show 0 < if s.autoReconnect = true then s.timers + 1 else s.timers
    rw [if_pos h.autoReconnect]
    exact Nat.succ_pos _
  | conn _ w _ _ _ _ _ _ _ =>
    exact ⟨⟨h.localPort, h.autoReconnect, h.awaits⟩, hnever rfl rfl rfl rfl rfl⟩
  | removed _ _ _ _ _ hauto _ _ => exact absurd (h.autoReconnect.symm.trans hauto) (by decide)
  | reconnected c w _ _ _ _ _ _ _ hconnects =>
    have hsame : Persistent { s with world := w, conn := none } := ⟨h.localPort, h.autoReconnect, h.awaits⟩
    exact ⟨hsame.connects hconnects, fun _ => hsame.awaits.trying hconnects h.localPort⟩
  | unwound _ _ _ _ _ _ _ hbound _ => exact absurd h.localPort hbound

theorem run_persistent (h : (machine n).Run build KeepsReconnecting as s m) :
    Persistent s ∧ ((∃ a ∈ as, a.callsConnect = true) → Trying s) := by
  induction h with
  | start hinit =>
    obtain ⟨rfl, _⟩ := hinit
    exact ⟨⟨rfl, rfl, by intro hset; cases hset⟩, fun ⟨a, hmem, _⟩ => (by cases hmem)⟩
  | step a before enabled condition done ih =>
    obtain ⟨hpersistent, htrying⟩ := ih.1.step condition (exec_step enabled done)
    refine ⟨hpersistent, fun ⟨b, hb, hcalls⟩ => htrying ?_⟩
    cases List.mem_append.mp hb with
    | inl hold => exact .inr (ih.2 ⟨b, hold, hcalls⟩)
    | inr hnew =>
      obtain rfl := List.mem_singleton.mp hnew
      exact .inl hcalls

/-- A client that has been told to connect and not to stop: between two tasks of its loop
    it has a connection whose close callback has not run, or an `async_connect`
    outstanding, or a timer pending. -/
theorem keeps_reconnecting (h : (machine n).Run build KeepsReconnecting as s m)
    (connected : ∃ a ∈ as, a.callsConnect = true) (idle : s.Idle) :
    (∃ c, s.conn = some c ∧ .close ∉ (s.world.life c).log) ∨ s.attempts ≠ [] ∨ 0 < s.timers := by
  rcases (run_persistent h).2 connected with hconn | hattempts | htimers | hpc
  · obtain ⟨c, hc⟩ := Option.ne_none_iff_exists'.mp hconn
    exact .inl ⟨c, hc, ((run_tracked h).conn c hc).2.2⟩
  · exact .inr (.inl hattempts)
  · exact .inr (.inr htimers)
  · exact absurd idle.1 hpc

/-- A connect that fails leaves a timer. -/
theorem keeps_reconnecting_failed :
    ∃ (as : List (ClientAction 1)) (s : TCPClient 1) (m : Mem),
      (machine 1).Run .release KeepsReconnecting as s m ∧ s.failures = 1 ∧
      ((∃ c, s.conn = some c ∧ .close ∉ (s.world.life c).log) ∨ s.attempts ≠ [] ∨ 0 < s.timers) := by
  have r : (machine 1).Run .release KeepsReconnecting [] {} emptyMem := .start ⟨rfl, _, rfl⟩
  have r := next r .connect trivial trivial rfl
  have r := next r (.runConnect false) ⟨Nat.one_pos, ⟨rfl, fun _ => rfl⟩, by intro h; cases h⟩ trivial rfl
  have r := next r (.connectDone ⟨none⟩ .failed) ⟨.head _, rfl⟩ trivial rfl
  have r := next r (.newConnection ⟨some .failed⟩)
    ⟨.head _, (by intro h; cases h), ⟨rfl, fun _ => rfl⟩, by intro h; cases h⟩ trivial rfl
  have r := next r .failed rfl trivial rfl
  exact ⟨_, _, _, r, rfl, keeps_reconnecting r ⟨.runConnect false, .tail _ (.head _), rfl⟩ ⟨rfl, fun _ => rfl⟩⟩

end TCPClient

end Netpp
