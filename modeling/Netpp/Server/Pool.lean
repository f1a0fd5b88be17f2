import Netpp.Loop.NextLoop
import Netpp.Loop.Serving
import Netpp.Server.TCPServer

/-! # The pool of a server

A server calls `start`, `getNextLoop`, `stop` and `join` of its pool one after the other, and
what `TCPServer` has for a pool is what it finds between these calls.  Here it is compared
with the pool that takes step after step beside its threads.

* `seen` is what the caller finds.
* `seen_start`, `seen_getNextLoop`, `seen_stop`, `seen_join`: each call that has returned has
  done to it what the server's pool says, whatever the threads have done meanwhile.
-/

namespace Netpp.Loop

open Function (update)
open ServerStatus

/-- The number of a loop: `0` is the base loop. -/
def loopNumber {n : Nat} : Option (Fin n) → Nat
  | none => 0
  | some i => i.val + 1

namespace LoopPool

variable {n : Nat} {ι φ κ : Type} [DecidableEq ι] [DecidableEq κ] {build : Build}
  {s s₁ s' : LoopPool n ι φ κ} {a : LoopPoolAction n ι φ κ} {as : List (LoopPoolAction n ι φ κ)} {t : κ}

omit [DecidableEq ι] [DecidableEq κ] in
/-- What the caller finds.  `threads_` is filled by `start`, and cleared by `join`. -/
def seen (s : LoopPool n ι φ κ) : Netpp.EventLoopThreadPool where
  threadNum := n
  status := s.pool.status
  threads :=
    if s.pool.start = .returned ∧ s.joined = false then List.ofFn fun i => (s.pool.threads i).status
    else []
  next := s.next

omit [DecidableEq ι] [DecidableEq κ] in
theorem seen_new : ({} : LoopPool n ι φ κ).seen = { threadNum := n } := rfl

/-- The steps of the pool, without the calls of `getNextLoop` and `join`. -/
def poolActions (as : List (LoopPoolAction n ι φ κ)) : List (PoolAction n ι φ) :=
  as.filterMap fun
    | .pool a => some a
    | _ => none

/-- `stop` has been called. -/
def StopCalled (as : List (LoopPoolAction n ι φ κ)) : Prop := ∃ a ∈ poolActions as, a.isStop = true

/-- The calls of a server: `start` and `stop` wait, `getNextLoop` is called before `stop` and
    `join` after it. -/
def Serves (as : List (LoopPoolAction n ι φ κ)) : LoopPoolAction n ι φ κ → Prop
  | .pool a => EventLoopThreadPool.Served (poolActions as) a
  | .join => StopCalled as
  | .getNextLoop _ => ¬ StopCalled as
  | .goesOn _ => True

omit [DecidableEq ι] [DecidableEq κ] in
theorem poolActions_append (as : List (LoopPoolAction n ι φ κ)) (a : LoopPoolAction n ι φ κ) :
    poolActions (as ++ [a]) = poolActions as ++ match a with
      | .pool b => [b]
      | _ => [] := by
  cases a <;> simp [poolActions]

omit [DecidableEq ι] in
theorem NextLoopStep.pool_eq (h : NextLoopStep s a s') (ha : ∀ b, a ≠ .pool b) : s'.pool = s.pool := by
  cases h with
  | pool b _ _ => exact absurd rfl (ha b)
  | _ => rfl

theorem exec_pool {b : PoolAction n ι φ} (done : s.exec (.pool b) build () = .ok (s', ())) :
    ∃ pool, s.pool.exec b build () = .ok (pool, ()) ∧ s' = { s with pool := pool } := by
  have hwlp : (s.exec (.pool b)).wlp build () fun s' _ =>
      ∃ pool, s.pool.exec b build () = .ok (pool, ()) ∧ s' = { s with pool := pool } := by
    simp only [exec, Prog.wlp_bind, Prog.wlp_mapFault, Prog.wlp_pure]
    exact fun pool _ hdone => ⟨pool, hdone, rfl⟩
  exact hwlp s' () done

/-- The pool steps as it does by itself. -/
theorem run_pool (h : (machine n ι φ κ).Run build (fun as _ _ a => Serves as a) as s ()) :
    (EventLoopThreadPool.machine n ι φ).Run build (fun as _ _ a => EventLoopThreadPool.Served as a)
      (poolActions as) s.pool () := by
  apply h.history (I := fun as s _ => (EventLoopThreadPool.machine n ι φ).Run build
    (fun as _ _ a => EventLoopThreadPool.Served as a) (poolActions as) s.pool ())
  · rintro _ _ rfl
    exact .start rfl
  · rintro as s _ a s' _ _ hrun enabled condition done
    have hstep : NextLoopStep s a s' := exec_step enabled done
    rw [poolActions_append]
    cases a with
    | pool b =>
      obtain ⟨pool, hdone, rfl⟩ := exec_pool done
      exact hrun.step b enabled.1 condition hdone
    | _ =>
      rw [hstep.pool_eq (by simp), List.append_nil]
      exact hrun

theorem not_joined (h : (machine n ι φ κ).Run build (fun as _ _ a => Serves as a) as s ())
    (hnever : ¬ StopCalled as) : s.joined = false := by
  revert hnever
  apply h.history (I := fun as s _ => ¬ StopCalled as → s.joined = false)
  · rintro _ _ rfl _
    rfl
  · rintro as s _ a s' _ _ ih enabled condition done hnever
    have hbefore : ¬ StopCalled as := fun ⟨b, hb, hstop⟩ => hnever ⟨b, by
      rw [poolActions_append]
      exact List.mem_append_left _ hb, hstop⟩
    cases exec_step enabled done with
    | join => exact absurd condition hbefore
    | _ => exact ih hbefore

/-! ## `start` and `stop` -/

/-- A pool that is running. -/
def serving (n : Nat) (next : Int) : Netpp.EventLoopThreadPool :=
  Netpp.EventLoopThreadPool.start { threadNum := n, next := next }

omit [DecidableEq ι] [DecidableEq κ] in
theorem seen_eq {status : Status} (hreturned : s.pool.start = .returned) (hjoined : s.joined = false)
    (hstatus : s.pool.status = status) (hthreads : ∀ i, (s.pool.threads i).status = status) :
    s.seen = { threadNum := n, status := status, threads := List.replicate n status, next := s.next } := by
  unfold seen
  rw [if_pos ⟨hreturned, hjoined⟩, hstatus, funext hthreads, List.ofFn_const]

/-- `start` has returned. -/
theorem seen_start (h : (machine n ι φ κ).Run build (fun as _ _ a => Serves as a) as s ())
    (hreturned : s.pool.start = .returned) (hnever : ¬ StopCalled as) :
    s.seen = Netpp.EventLoopThreadPool.start { threadNum := n, next := s.next } := by
  obtain ⟨hstatus, hthreads⟩ := EventLoopThreadPool.start_returned (run_pool h) hreturned fun a ha => by
    by_contra hstop
    exact hnever ⟨a, ha, by simpa using hstop⟩
  exact seen_eq hreturned (not_joined h hnever) hstatus hthreads

theorem seen_stop (h : (machine n ι φ κ).Run build (fun as _ _ a => Serves as a) as s ())
    (hreturned : ∀ c, s.pool.stops c = .idle) (hcalled : StopCalled as) (hjoined : s.joined = false) :
    s.seen = (serving n s.next).stop := by
  obtain ⟨hstatus, hthreads⟩ := EventLoopThreadPool.stop_returned (run_pool h) hreturned hcalled
  obtain ⟨c, hstopping⟩ := (EventLoopThreadPool.run_served (run_pool h)).2 hcalled
  rw [seen_eq hstopping.start hjoined hstatus hthreads]
  simp [serving, Netpp.EventLoopThreadPool.stop, Netpp.EventLoopThreadPool.start]

theorem seen_join (done : s.exec .join build () = .ok (s', ())) : s'.seen = s.seen.join := by
  have hwlp : (s.exec .join).wlp build () fun s' _ => s' = { s with joined := true } := by
    simp only [exec, join, Prog.wlp_bind, Prog.wlp_pure]
    exact fun _ _ _ => trivial
  rw [hwlp s' () done]
  simp [seen, Netpp.EventLoopThreadPool.join]

/-! ## `getNextLoop` -/

/-- A step of the call of `t`, or of a thread of the pool. -/
def Calling (t : κ) : LoopPoolAction n ι φ κ → Prop
  | .pool b => EventLoopThreadPool.Own b
  | .goesOn u => u = t
  | _ => False

/-- `start` has returned, and `stop` has not been called. -/
structure Serving (s : LoopPool n ι φ κ) : Prop where
  pool : EventLoopThreadPool.Starting s.pool
  returned : s.pool.start = .returned
  joined : s.joined = false

omit [DecidableEq ι] [DecidableEq κ] in
theorem Serving.seen (h : Serving s) : s.seen = serving n s.next := by
  have hawaited := h.pool.awaited
  rw [h.returned] at hawaited
  exact seen_eq h.returned h.joined (h.pool.status (.inr h.returned)) fun i => (hawaited i trivial).status

theorem getNextLoop_serving (next : Int) :
    (serving n next).getNextLoop =
      if n = 0 then (0, serving n next)
      else (unsignedWord 64 (signedWord 64 (unsignedWord 64 next % n)) + 1,
        serving n (signedWord 64 (unsignedWord 64 (next + 1)))) := by
  unfold Netpp.EventLoopThreadPool.getNextLoop
  by_cases hn : n = 0
  · subst hn
    rfl
  · have hthreads : (serving n next).threads = List.replicate n .kRunning := rfl
    rw [if_pos ⟨rfl, by rw [hthreads]; simpa using hn⟩, if_neg hn, hthreads, List.length_replicate]
    rfl

/-- How far the call of `t` has come that found `next_` at `next` and the results `handed`. -/
def Progress (t : κ) (next : Int) (handed : List (Option (Fin n))) (s : LoopPool n ι φ κ) : Prop :=
  match s.callers t with
  | .idle => ∃ loop, s.handed = handed ++ [loop] ∧
    (serving n next).getNextLoop = (loopNumber loop, serving n s.next)
  | .running => s.next = next ∧ s.handed = handed
  | .drawing => s.next = next ∧ s.handed = handed ∧ n ≠ 0
  | .drawn k => k = next ∧ s.next = signedWord 64 (unsignedWord 64 (next + 1)) ∧ s.handed = handed ∧ n ≠ 0
  | .reduced k => k = signedWord 64 (unsignedWord 64 next % n) ∧
    s.next = signedWord 64 (unsignedWord 64 (next + 1)) ∧ s.handed = handed ∧ n ≠ 0

omit [DecidableEq ι] in
theorem Progress.goesOn {next : Int} {handed : List (Option (Fin n))} (h : Progress t next handed s)
    (hserving : Serving s) (busy : s.callers t ≠ .idle) :
    (s.goesOn t).wlp build () fun s' _ => Progress t next handed s' ∧ Serving s' := by
  have hcaller : ∀ pc, update s.callers t pc t = pc := fun pc => Function.update_self ..
  have hsize := size_of_unjoined hserving.joined
  unfold Progress at h
  unfold LoopPool.goesOn
  cases hpc : s.callers t with
  | idle => exact absurd hpc busy
  | running =>
    rw [hpc] at h
    obtain ⟨hnext, hhanded⟩ := h
    rw [Prog.wlp_pure, hsize]
    split
    · rename_i hn
      refine ⟨?_, hserving.pool, hserving.returned, hserving.joined⟩
      unfold Progress
      rw [show (s.handOut t none).callers t = .idle from hcaller _, getNextLoop_serving, if_pos hn]
      exact ⟨none, congrArg (· ++ [none]) hhanded, by rw [← hnext]; rfl⟩
    · rename_i hn
      refine ⟨?_, hserving.pool, hserving.returned, hserving.joined⟩
      unfold Progress
      rw [show (s.setCaller t .drawing).callers t = .drawing from hcaller _]
      exact ⟨hnext, hhanded, hn⟩
  | drawing =>
    rw [hpc] at h
    obtain ⟨hnext, hhanded, hn⟩ := h
    rw [Prog.wlp_pure]
    refine ⟨?_, hserving.pool, hserving.returned, hserving.joined⟩
    unfold Progress
    dsimp only
    rw [hcaller]
    exact ⟨hnext, by rw [hnext], hhanded, hn⟩
  | drawn k =>
    rw [hpc] at h
    obtain ⟨rfl, hnext, hhanded, hn⟩ := h
    dsimp only
    rw [hsize, if_neg hn, Prog.wlp_pure]
    refine ⟨?_, hserving.pool, hserving.returned, hserving.joined⟩
    unfold Progress
    rw [show (s.setCaller t _).callers t = _ from hcaller _]
    exact ⟨rfl, hnext, hhanded, hn⟩
  | reduced k =>
    rw [hpc] at h
    obtain ⟨rfl, hnext, hhanded, hn⟩ := h
    dsimp only
    split
    · rename_i hindex
      rw [Prog.wlp_pure]
      refine ⟨?_, hserving.pool, hserving.returned, hserving.joined⟩
      unfold Progress
      rw [show (s.handOut t _).callers t = .idle from hcaller _, getNextLoop_serving, if_neg hn]
      exact ⟨some ⟨_, hindex.1⟩, congrArg (· ++ _) hhanded, by rw [← hnext]; rfl⟩
    · exact Prog.wlp_throw _ _ _ _

theorem Progress.step {next : Int} {handed : List (Option (Fin n))} (h : Progress t next handed s)
    (hserving : Serving s) (enabled : s.Enabled a) (condition : Calling t a)
    (done : s.exec a build () = .ok (s', ())) : Progress t next handed s' ∧ Serving s' := by
  cases a with
  | pool b =>
    obtain ⟨pool, hdone, rfl⟩ := exec_pool done
    have hstep := EventLoopThreadPool.exec_step enabled.1 _ _ hdone
    exact ⟨h, hserving.pool.own hstep condition, (hstep.own condition).1.trans hserving.returned,
      hserving.joined⟩
  | goesOn u =>
    obtain rfl : u = t := condition
    exact h.goesOn hserving enabled s' () done
  | _ => exact condition.elim

/-- `getNextLoop` has returned to `t`, the threads of the pool stepping meanwhile. -/
theorem seen_getNextLoop (h : (machine n ι φ κ).Run build (fun as _ _ a => Serves as a) as s ())
    (hreturned : s.pool.start = .returned) (hnever : ¬ StopCalled as)
    (done : s.exec (.getNextLoop t) build () = .ok (s₁, ()))
    (rest : (machine n ι φ κ).Stretch build (fun _ _ a => Calling t a) s₁ () s' ())
    (hback : s'.callers t = .idle) :
    ∃ loop, s'.handed = s.handed ++ [loop] ∧ s.seen.getNextLoop = (loopNumber loop, s'.seen) := by
  have hserving : Serving s := by
    refine ⟨(EventLoopThreadPool.run_served (run_pool h)).1 fun a ha => ?_, hreturned, not_joined h hnever⟩
    by_contra hstop
    exact hnever ⟨a, ha, by simpa using hstop⟩
  have hrunning : s.pool.isRunning = true := by
    simp [EventLoopThreadPool.isRunning, hserving.pool.status (.inr hreturned)]
  have hfirst : s₁ = s.setCaller t .running := by
    cases done
    unfold getNextLoop
    rw [if_pos hrunning]
  have hstart : Progress t s.next s.handed s₁ ∧ Serving s₁ := by
    subst hfirst
    refine ⟨?_, hserving.pool, hserving.returned, hserving.joined⟩
    unfold Progress
    rw [show (s.setCaller t .running).callers t = .running from Function.update_self ..]
    exact ⟨rfl, rfl⟩
  have hend : Progress t s.next s.handed s' ∧ Serving s' :=
    rest.invariant (I := fun s' _ => Progress t s.next s.handed s' ∧ Serving s') hstart
      fun s m a s' m' ih enabled condition done => ih.1.step ih.2 enabled condition done
  obtain ⟨hprogress, hserved⟩ := hend
  unfold Progress at hprogress
  rw [hback] at hprogress
  rw [hserving.seen, hserved.seen]
  exact hprogress

end LoopPool

end Netpp.Loop
