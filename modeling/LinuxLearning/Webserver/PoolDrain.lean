/-
What becomes of the requests in the pool when no new ones arrive.  Every
access of a thread takes it nearer to where it blocks, and a token pays for the
way of the worker that takes it; so the pool comes to rest, with the queue
empty and every request it has handed out processed.
-/
import LinuxLearning.Lib.Account
import LinuxLearning.Lib.Descent
import LinuxLearning.Webserver.ThreadPool
import Mathlib.Data.Fintype.Basic
import Mathlib.Data.List.ReduceOption

namespace LinuxLearning.Webserver

universe u v

/-- Steps other than a new call of `append` and an interrupted `wait`. -/
def PoolAct.Quiet {α : Type u} : PoolAct α → Prop
  | .call _ | .interrupted => False
  | _ => True

/-- The request that a step finishes. -/
def PoolAct.finishes {α : Type u} : PoolAct α → Option (Option α)
  | .done request => some (some request)
  | _ => none

namespace PoolPc

variable {α : Type u}

/-- A bound of the accesses of a thread before it blocks; one that is to post
will set a worker going. -/
def rank : PoolPc α → Nat
  | .idle | .waiting => 0
  | .returning _ _ | .leaving | .processing _ => 1
  | .refusing _ | .checking _ => 2
  | .took _ => 3
  | .popping _ => 4
  | .taking => 5
  | .testing => 6
  | .woken => 7
  | .posting _ => 10
  | .pushed _ => 11
  | .pushing _ => 12
  | .sizing _ => 13
  | .locking _ => 14

/-- The request that a worker has popped and is to process. -/
def holds : PoolPc α → List α
  | .took request | .checking request => request.toList
  | .processing request => [request]
  | _ => []

variable {pc pc' : PoolPc α} {act : PoolAct α}

/-- What a worker has popped it processes, unless it is null. -/
theorem Next.holds (h : Next pc act pc') :
    pc.holds ++ act.pops.toList.reduceOption = act.finishes.toList.reduceOption ++ pc'.holds := by
  cases h with
  | pop request | unlockTook request => cases request <;> rfl
  | _ => rfl

theorem Next.quiet (h : Next pc act pc') (hidle : pc ≠ .idle) (hwaiting : pc ≠ .waiting) :
    act.Quiet := by
  cases h <;> trivial

end PoolPc

namespace Pool

variable {τ : Type v} {α : Type u} [DecidableEq τ] {maxRequests : Nat} {s : Pool τ α}

/-- The accesses that are still to come, where a token stands for the way of a
worker. -/
def work [Fintype τ] (s : Pool τ α) : Nat :=
  totalWeight Finset.univ PoolPc.rank s.threads + 8 * s.tokens

/-- A thread that is not blocked, with the lock free. -/
theorem Guarded.quiet_of_free (h : s.Guarded maxRequests) (hfree : s.holder = none) {t : τ}
    (hidle : s.threads t ≠ .idle) (hwaiting : s.threads t ≠ .waiting) :
    ∃ act after, act.Quiet ∧ Step maxRequests s (t, act) after := by
  have hcritical : ¬ (s.threads t).Critical := by
    intro hcritical
    have hholds := h.exclusive.holds hcritical
    rw [hfree] at hholds
    cases hholds
  have hmoves : ∃ act pc, (s.threads t).Next act pc ∧ s.Allows maxRequests act := by
    generalize s.threads t = pc at hcritical hidle hwaiting
    cases pc with
    | locking request => exact ⟨_, _, .lock request, hfree⟩
    | posting request => exact ⟨_, _, .post request, trivial⟩
    | returning request ok => exact ⟨_, _, .ret request ok, trivial⟩
    | woken => exact ⟨_, _, .lockWorker, hfree⟩
    | checking request =>
        cases request with
        | none => exact ⟨_, _, .drop, trivial⟩
        | some request => exact ⟨_, _, .process request, trivial⟩
    | processing request => exact ⟨_, _, .done request, trivial⟩
    | idle | waiting => contradiction
    | _ => exact (hcritical trivial).elim
  obtain ⟨act, pc, hnext, hallows⟩ := hmoves
  exact ⟨act, _, hnext.quiet hidle hwaiting, .mk hnext hallows⟩

/-- Where no quiet step is left, the lock is free and every thread is
blocked. -/
theorem Guarded.blocked_of_settled (h : s.Guarded maxRequests)
    (hsettled : (pool τ α maxRequests).Settled (fun label => label.2.Quiet) s) (t : τ) :
    s.threads t = .idle ∨ s.threads t = .waiting := by
  have hfree : s.holder = none := by
    cases hholder : s.holder with
    | none => rfl
    | some u =>
        obtain ⟨act, after, hstep⟩ := h.moves hholder
        have hcritical := (h.exclusive u).mpr hholder
        refine (hsettled (u, act) after ?_ hstep).elim
        obtain ⟨hnext, -⟩ := hstep
        exact hnext.quiet (fun hu => by rw [hu] at hcritical; exact hcritical)
          fun hu => by rw [hu] at hcritical; exact hcritical
  by_contra hblocked
  obtain ⟨hidle, hwaiting⟩ := not_or.mp hblocked
  obtain ⟨act, after, hquiet, hstep⟩ := h.quiet_of_free hfree hidle hwaiting
  exact hsettled (t, act) after hquiet hstep

/-- With a worker, that is rest. -/
theorem Guarded.atRest_of_settled (h : s.Guarded maxRequests)
    (hsettled : (pool τ α maxRequests).Settled (fun label => label.2.Quiet) s)
    (hworker : ∃ t, (s.threads t).Worker) : s.AtRest := by
  have hblocked := h.blocked_of_settled hsettled
  refine ⟨?_, ?_, ?_⟩
  · obtain ⟨t, ht⟩ := hworker
    rcases hblocked t with hidle | hwaiting
    · rw [hidle] at ht
      exact ht.elim
    · by_contra htokens
      have hnext : (s.threads t).Next .wake .woken := by
        rw [hwaiting]
        exact .wake
      exact hsettled (t, .wake) _ trivial (.mk hnext (Nat.pos_of_ne_zero htokens))
  · intro t ht
    rcases hblocked t with hidle | hwaiting
    · rw [hidle] at ht
      exact ht.elim
    · exact hwaiting
  · intro t ht
    rcases hblocked t with hidle | hwaiting <;> simp [*, PoolPc.Owes] at ht

end Pool

section Runs

variable {τ : Type v} {α : Type u} [DecidableEq τ] {maxRequests : Nat}
  {history : List (Pool τ α × (τ × PoolAct α))} {s : Pool τ α}

/-- Quiet steps do the work there is. -/
theorem pool_descends [Fintype τ] :
    (pool τ α maxRequests).Descends (fun label => label.2.Quiet) Pool.work := by
  intro before label after hquiet hstep
  obtain @⟨t, act, pc, hnext, hallows⟩ := hstep
  have hweight := totalWeight_update PoolPc.rank before.threads (Finset.mem_univ t) pc
  simp only [Pool.work]
  generalize totalWeight _ PoolPc.rank (Function.update before.threads t pc) = later at hweight
  generalize before.threads t = pc' at hnext hweight
  cases hnext with
  | call => exact hquiet.elim
  | interrupted => exact hquiet.elim
  | wake =>
      have htoken : 0 < before.tokens := hallows
      simp only [Pool.effect, PoolPc.rank] at hweight ⊢
      omega
  | post request =>
      simp only [Pool.effect, PoolPc.rank] at hweight ⊢
      split <;> omega
  | _ =>
      simp only [Pool.effect, PoolPc.rank] at hweight ⊢
      omega

/-- The requests of a log that are not null. -/
def requests (t : τ) (event : PoolAct α → Option (Option α))
    (history : List (Pool τ α × (τ × PoolAct α))) : List α :=
  (ofThread t (poolLog event history)).reduceOption

/-- What a thread has popped is what it has processed, and what it holds. -/
theorem pool_processed (hrun : (pool τ α maxRequests).Run history s) (t : τ) :
    requests t PoolAct.pops history =
      requests t PoolAct.finishes history ++ (s.threads t).holds := by
  induction hrun with
  | start hstart => rcases Pool.Starts.threads hstart t with ht | ht <;> rw [ht] <;> rfl
  | @snoc history before after label hbefore hstep ih =>
      cases hstep with
      | @mk u act pc hnext hallows =>
          simp only [requests, poolLog_concat, ofThread_concat, List.reduceOption_append] at ih ⊢
          rw [ih]
          by_cases hu : u = t
          · subst hu
            simp only [Function.update_self, if_pos, List.append_assoc]
            rw [hnext.holds]
          · have hother : Function.update before.threads u pc t = before.threads t :=
              Function.update_of_ne (Ne.symm hu) _ _
            simp [hu, hother]

/-- Workers stay workers. -/
theorem pool_worker {later : List (Pool τ α × (τ × PoolAct α))} {after : Pool τ α}
    (h : (pool τ α maxRequests).Continues (fun label => label.2.Quiet) s later after) (t : τ) :
    (after.threads t).Worker ↔ (s.threads t).Worker := by
  induction h with
  | refl => exact Iff.rfl
  | snoc _ _ hstep ih =>
      rw [← ih]
      obtain @⟨u, act, pc, hnext, -⟩ := hstep
      dsimp only
      by_cases hu : t = u
      · subst hu
        rw [Function.update_self]
        exact hnext.worker
      · rw [Function.update_of_ne hu]

/-- Where no quiet step is left, nothing is queued, and every thread has
processed all requests that it has popped. -/
theorem pool_settled (hmax : maxRequests < SEM_VALUE_MAX)
    (hrun : (pool τ α maxRequests).Run history s) (hworker : ∃ t, (s.threads t).Worker)
    (hsettled : (pool τ α maxRequests).Settled (fun label => label.2.Quiet) s) :
    s.AtRest ∧ (poolLog PoolAct.pushes history).map Prod.snd =
        (poolLog PoolAct.pops history).map Prod.snd ∧
      ∀ t, requests t PoolAct.pops history = requests t PoolAct.finishes history := by
  have hsound := pool_sound hmax ⟨history, hrun⟩
  have hrest := hsound.guarded.atRest_of_settled hsettled hworker
  refine ⟨hrest, ?_, ?_⟩
  · rw [pool_fifo hrun, hsound.queue_of_atRest hrest, List.append_nil]
  · intro t
    have hblocked := hsound.guarded.blocked_of_settled hsettled t
    rw [pool_processed hrun t]
    rcases hblocked with ht | ht <;> rw [ht] <;> exact List.append_nil _

/-- When there is a worker, `m_stop` is false, no call of `append` begins and no
`wait` is interrupted, the pool comes to rest after at most `work` steps,
whatever the order of the threads.
At rest the queue is empty, and every request that was pushed has been popped,
in order, and processed by the worker that has popped it. -/
theorem pool_drains [Fintype τ] (hmax : maxRequests < SEM_VALUE_MAX)
    (hrun : (pool τ α maxRequests).Run history s) (hworker : ∃ t, (s.threads t).Worker) :
    (∃ later after, (pool τ α maxRequests).Continues (fun label => label.2.Quiet) s later after ∧
      (pool τ α maxRequests).Settled (fun label => label.2.Quiet) after) ∧
    ∀ later after, (pool τ α maxRequests).Continues (fun label => label.2.Quiet) s later after →
      later.length ≤ s.work ∧
      ((pool τ α maxRequests).Settled (fun label => label.2.Quiet) after →
        after.AtRest ∧ (poolLog PoolAct.pushes (history ++ later)).map Prod.snd =
          (poolLog PoolAct.pops (history ++ later)).map Prod.snd ∧
        ∀ t, requests t PoolAct.pops (history ++ later) =
          requests t PoolAct.finishes (history ++ later)) := by
  refine ⟨pool_descends.settles s, ?_⟩
  intro later after hlater
  refine ⟨(Nat.le_add_right _ _).trans (pool_descends.length_le hlater), ?_⟩
  intro hsettled
  obtain ⟨t, ht⟩ := hworker
  exact pool_settled hmax (hlater.run hrun) ⟨t, (pool_worker hlater t).mpr ht⟩ hsettled

/-- A request is on its way into an empty pool with one worker: wherever the
threads come to rest, it has been processed. -/
theorem pool_drains_called :
    ∃ history s, (pool (Fin 2) Nat 10000).Run history s ∧ s.threads 0 = .locking (some 7) ∧
      ∃ later after,
        (pool (Fin 2) Nat 10000).Continues (fun label => label.2.Quiet) s later after ∧
        after.AtRest ∧ later.length ≤ 14 := by
  have hcall := TransitionSystem.Run.snoc (.start (M := pool (Fin 2) Nat 10000) twoThreads_starts)
    (Pool.Step.mk (t := 0) (.call (some 7)) trivial)
  obtain ⟨⟨later, after, hlater, hsettled⟩, hends⟩ :=
    pool_drains (by decide) hcall ⟨1, trivial⟩
  obtain ⟨hlength, hrest⟩ := hends later after hlater
  exact ⟨_, _, hcall, rfl, later, after, hlater, (hrest hsettled).1, hlength⟩

end Runs

end LinuxLearning.Webserver
