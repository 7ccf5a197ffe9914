/-
The thread pool of chapter_5.  Its `run` does not unlock behind the pop, so the
first worker that takes a request keeps `m_queuelocker` for ever: it processes
the request, goes back to wait and asks for the lock again while it holds it.
-/
import LinuxLearning.Webserver.ThreadPool

namespace LinuxLearning.Chapter5

open Webserver

universe u v

section Text

variable {α : Type u}

/-- The text of `append` and `run`: that of the web server's pool, but for the
pop, behind which `run` tests the request at once. -/
inductive Next : PoolPc α → PoolAct α → PoolPc α → Prop
  | same {pc pc' : PoolPc α} {act : PoolAct α} (hnext : pc.Next act pc')
      (hpop : ∀ request, act ≠ .pop request) : Next pc act pc'
  | pop (request : Option α) : Next (.popping request) (.pop request) (.checking request)

/-- A worker that processes a request, skips a null one, or is back at its
wait. -/
def Outside : PoolPc α → Prop
  | .checking _ | .processing _ | .waiting => True
  | _ => False

/-- A thread that asks for the lock. -/
def Asks : PoolPc α → Prop
  | .locking _ | .woken => True
  | _ => False

/-- A worker that has a request in its hands. -/
def Busy : PoolPc α → Prop
  | .took _ | .checking _ | .processing _ => True
  | _ => False

variable {pc pc' : PoolPc α} {act : PoolAct α}

theorem next_cases (h : Next pc act pc') :
    (pc.Next act pc' ∧ ∀ request, act ≠ .pop request) ∨
      ∃ request, pc = .popping request ∧ act = .pop request ∧ pc' = .checking request := by
  cases h with
  | same hnext hpop => exact Or.inl ⟨hnext, hpop⟩
  | pop request => exact Or.inr ⟨request, rfl, rfl, rfl⟩

/-- Requests come into the hands of a worker by a pop. -/
theorem busy_of_next (hnext : pc.Next act pc') (hpop : ∀ request, act ≠ .pop request)
    (hbusy : Busy pc') : Busy pc := by
  cases hnext with
  | pop request => exact absurd rfl (hpop request)
  | unlockTook request => trivial
  | process request => trivial
  | _ => exact hbusy.elim

/-- Outside the critical sections a worker comes to ask for the lock. -/
theorem keeper_of_next (hnext : pc.Next act pc') (hlock : act ≠ .lock)
    (hkeeper : Outside pc ∨ pc = .woken) : Outside pc' ∨ pc' = .woken := by
  cases hnext <;> simp_all [Outside]

end Text

variable {τ : Type v} {α : Type u} [DecidableEq τ]

/-- One step of one thread. -/
inductive Step (maxRequests : Nat) (s : Pool τ α) : τ × PoolAct α → Pool τ α → Prop
  | mk {t : τ} {act : PoolAct α} {pc : PoolPc α} (hnext : Next (s.threads t) act pc)
      (hallows : s.Allows maxRequests act) :
      Step maxRequests s (t, act)
        { s.effect t act with threads := Function.update s.threads t pc }

/-- The pool, with threads `τ`. -/
def pool (τ : Type v) (α : Type u) [DecidableEq τ] (maxRequests : Nat) :
    TransitionSystem (Pool τ α) (τ × PoolAct α) where
  start := Pool.Starts
  step s label after := Step maxRequests s label after

/-- There is something to do, but every thread that has not ended its call or
fallen asleep on the semaphore asks for the lock, which will never be free. -/
structure Deadlocked (maxRequests : Nat) (s : Pool τ α) : Prop where
  demand : s.queue ≠ [] ∨ ∃ t request, s.threads t = .locking request
  asks : ∃ t, Asks (s.threads t)
  stuck : ∀ t, s.threads t = .idle ∨ (s.threads t = .waiting ∧ s.tokens = 0) ∨
    Asks (s.threads t)
  forever : ∀ later, (pool τ α maxRequests).Leads s later → later.holder ≠ none

/-- No worker takes the lock along, and nobody waits for it for ever. -/
structure LockKept (maxRequests : Nat) (s : Pool τ α) : Prop where
  outside : ∀ t, Outside (s.threads t) → s.holder ≠ some t
  live : ¬ Deadlocked maxRequests s

/-- No request has been popped: the lock excludes, and no worker has a request
in its hands. -/
structure Fresh (s : Pool τ α) : Prop where
  exclusive : Exclusive PoolPc.Critical s.holder s.threads
  notBusy : ∀ t, ¬ Busy (s.threads t)

/-- A worker keeps the lock outside all critical sections. -/
structure Jammed (t : τ) (s : Pool τ α) : Prop where
  holder : s.holder = some t
  keeper : Outside (s.threads t) ∨ s.threads t = .woken
  notCritical : ∀ u, ¬ (s.threads u).Critical

omit [DecidableEq τ] in
theorem fresh_of_starts {s : Pool τ α} (h : s.Starts) : Fresh s where
  exclusive := (h.guarded : s.Guarded 0).exclusive
  notBusy u := by rcases h.threads u with hu | hu <;> simp [hu, Busy]

section Step

variable {maxRequests : Nat} {s after : Pool τ α} {t : τ} {label : τ × PoolAct α}

/-- A step that is no pop puts no request into the hands of a worker. -/
theorem Fresh.step (h : Fresh s) (hpop : ∀ request, label.2 ≠ .pop request)
    (hstep : Step maxRequests s label after) : Fresh after := by
  obtain @⟨t, act, pc, hnext, hallows⟩ := hstep
  rcases next_cases hnext with ⟨hsame, -⟩ | ⟨request, -, hact, -⟩
  · refine ⟨Pool.step_exclusive h.exclusive hsame hallows, fun u => ?_⟩
    dsimp only
    by_cases hu : u = t
    · subst hu
      rw [Function.update_self]
      exact fun hbusy => h.notBusy u (busy_of_next hsame hpop hbusy)
    · rw [Function.update_of_ne hu]
      exact h.notBusy u
  · exact absurd hact (hpop request)

/-- A pop takes the lock along. -/
theorem Fresh.pop (h : Fresh s) {request : Option α} {pc : PoolPc α}
    (hnext : Next (s.threads t) (.pop request) pc) :
    Jammed t { s.effect t (.pop request) with threads := Function.update s.threads t pc } := by
  rcases next_cases hnext with ⟨-, hpop⟩ | ⟨request, hpc, -, rfl⟩
  · exact absurd rfl (hpop request)
  · have hcritical : (s.threads t).Critical := by
      rw [hpc]
      trivial
    refine ⟨h.exclusive.holds hcritical, ?_, fun u => ?_⟩ <;> dsimp only
    · rw [Function.update_self]
      exact Or.inl trivial
    · by_cases hu : u = t
      · subst hu
        rw [Function.update_self]
        exact id
      · rw [Function.update_of_ne hu]
        exact fun hother => hu (h.exclusive.eq hcritical hother)

/-- The lock stays where it is. -/
theorem Jammed.step (h : Jammed t s) (hstep : Step maxRequests s label after) :
    Jammed t after := by
  obtain @⟨u, act, pc, hnext, hallows⟩ := hstep
  rcases next_cases hnext with ⟨hsame, -⟩ | ⟨request, hpc, -, -⟩
  · obtain ⟨-, hunlock, hkeep⟩ := hsame.critical
    have hnotLock : act ≠ .lock := by
      rintro rfl
      have hfree : s.holder = none := hallows
      rw [h.holder] at hfree
      cases hfree
    have hnotUnlock : act ≠ .unlock := fun hact => h.notCritical u (hunlock hact).1
    refine ⟨?_, ?_, fun v => ?_⟩ <;> dsimp only
    · exact (Pool.effect_holder s u hnotLock hnotUnlock).trans h.holder
    · by_cases hu : t = u
      · subst hu
        rw [Function.update_self]
        exact keeper_of_next hsame hnotLock h.keeper
      · rw [Function.update_of_ne hu]
        exact h.keeper
    · by_cases hv : v = u
      · subst hv
        rw [Function.update_self, hkeep hnotLock hnotUnlock]
        exact h.notCritical v
      · rw [Function.update_of_ne hv]
        exact h.notCritical v
  · have hcritical : (s.threads u).Critical := by
      rw [hpc]
      trivial
    exact absurd hcritical (h.notCritical u)

theorem Jammed.leads (h : Jammed t s) {later : Pool τ α}
    (hleads : (pool τ α maxRequests).Leads s later) : Jammed t later := by
  induction hleads with
  | refl => exact h
  | snoc _ hstep ih => exact ih.step hstep

/-- In a jammed pool nobody gets the lock. -/
theorem Jammed.deadlocked (h : Jammed t s)
    (hdemand : s.queue ≠ [] ∨ ∃ u request, s.threads u = .locking request)
    (hasks : ∃ u, Asks (s.threads u))
    (hstuck : ∀ u, s.threads u = .idle ∨ (s.threads u = .waiting ∧ s.tokens = 0) ∨
      Asks (s.threads u)) : Deadlocked maxRequests s := by
  refine ⟨hdemand, hasks, hstuck, fun later hleads hfree => ?_⟩
  rw [(h.leads hleads).holder] at hfree
  cases hfree

/-- Until a request is popped the lock is kept as it should. -/
theorem Fresh.lockKept (h : Fresh s) : LockKept maxRequests s where
  outside u houtside hholder := by
    have hcritical := (h.exclusive u).mpr hholder
    generalize s.threads u = pc at houtside hcritical
    cases pc <;> first | exact houtside | exact hcritical
  live hdead := by
    have hholder : s.holder ≠ none := hdead.forever s .refl
    obtain ⟨u, hu⟩ := Option.ne_none_iff_exists'.mp hholder
    have hcritical := (h.exclusive u).mpr hu
    rcases hdead.stuck u with hidle | ⟨hwaiting, -⟩ | hasks
    · rw [hidle] at hcritical
      exact hcritical
    · rw [hwaiting] at hcritical
      exact hcritical
    · generalize s.threads u = pc at hasks hcritical
      cases pc <;> first | exact hasks | exact hcritical

end Step

section Runs

variable {maxRequests : Nat} {history : List (Pool τ α × (τ × PoolAct α))} {s : Pool τ α}

/-- The lock is kept as it should in exactly the runs in which no worker pops a
request. -/
theorem pool_lockKept (hrun : (pool τ α maxRequests).Run history s) :
    TransitionSystem.Always (LockKept maxRequests) history s ↔
      ∀ entry ∈ history, ∀ request, entry.2.2 ≠ .pop request := by
  apply TransitionSystem.Run.always_iff (fun _ label => ∀ request, label.2 ≠ .pop request)
    (fun _ hstart => fresh_of_starts hstart)
    (fun _ _ _ hfresh hpop hstep => hfresh.step hpop hstep) (fun _ hfresh => hfresh.lockKept) _ hrun
  intro before label after hfresh hpop hstep hkept
  obtain @⟨t, act, pc, hnext, hallows⟩ := hstep
  obtain ⟨request, hact⟩ := not_forall_not.mp hpop
  dsimp only at hact
  subst hact
  have hjammed := hfresh.pop hnext
  rcases next_cases hnext with ⟨-, hsame⟩ | ⟨request, -, -, rfl⟩
  · exact absurd rfl (hsame _)
  · refine hkept.outside t ?_ hjammed.holder
    dsimp only
    rw [Function.update_self]
    trivial

/-- A step that is as in the web server's pool. -/
theorem run_same (hrun : (pool τ α maxRequests).Run history s) {t : τ} {act : PoolAct α}
    {pc : PoolPc α} (hnext : (s.threads t).Next act pc) (hallows : s.Allows maxRequests act)
    (hpop : ∀ request, act ≠ .pop request) :
    (pool τ α maxRequests).Run (history ++ [(s, t, act)])
      { s.effect t act with threads := Function.update s.threads t pc } :=
  hrun.snoc (.mk (.same hnext hpop) hallows)

/-- A request is pushed, and no worker has looked yet. -/
theorem pool_lockKept_pushed :
    ∃ history s, (pool (Fin 2) Nat 10000).Run history s ∧ s.queue = [some 7] ∧
      TransitionSystem.Always (LockKept 10000) history s := by
  have hstart : (pool (Fin 2) Nat 10000).Run [] twoThreads := .start twoThreads_starts
  have hcall := run_same hstart (t := 0) (.call (some 7)) trivial (by simp)
  have hlock := run_same hcall (t := 0) (.lock (some 7)) rfl (by simp)
  have hroom := run_same hlock (t := 0) (.room (some 7)) (Nat.zero_le _) (by simp)
  have hpush := run_same hroom (t := 0) (.push (some 7)) trivial (by simp)
  exact ⟨_, _, hpush, rfl, (pool_lockKept hpush).mpr (by simp)⟩

/-- The worker processes one request, and the next call of `append` never gets
the lock. -/
theorem not_lockKept :
    ¬ ∀ (maxRequests : Nat), 0 < maxRequests →
      ∀ (history : List (Pool (Fin 2) Nat × (Fin 2 × PoolAct Nat))) (s : Pool (Fin 2) Nat),
        (pool (Fin 2) Nat maxRequests).Run history s →
          TransitionSystem.Always (LockKept maxRequests) history s := by
  intro h
  have hstart : (pool (Fin 2) Nat 1).Run [] twoThreads := .start twoThreads_starts
  have hcall := run_same hstart (t := 0) (.call (some 7)) trivial (by simp)
  have hlock := run_same hcall (t := 0) (.lock (some 7)) rfl (by simp)
  have hroom := run_same hlock (t := 0) (.room (some 7)) (Nat.zero_le _) (by simp)
  have hpush := run_same hroom (t := 0) (.push (some 7)) trivial (by simp)
  have hunlock := run_same hpush (t := 0) (.unlockPushed (some 7)) trivial (by simp)
  have hpost := run_same hunlock (t := 0) (.post (some 7)) trivial (by simp)
  have hret := run_same hpost (t := 0) (.ret (some 7) true) trivial (by simp)
  have hwake := run_same hret (t := 1) .wake Nat.one_pos (by simp)
  have htake := run_same hwake (t := 1) .lockWorker rfl (by simp)
  have hfound := run_same htake (t := 1) .nonempty (by simp [Pool.Allows, Pool.effect]) (by simp)
  have hfront := run_same hfound (t := 1) (.front (some 7)) rfl (by simp)
  have hpop := hfront.snoc (Step.mk (t := 1) (.pop (some 7)) trivial)
  have hprocess := run_same hpop (t := 1) (.process 7) trivial (by simp)
  have hdone := run_same hprocess (t := 1) (.done 7) trivial (by simp)
  have hagain := run_same hdone (t := 0) (.call (some 8)) trivial (by simp)
  refine (h 1 Nat.one_pos _ _ hagain).2.live (Jammed.deadlocked (t := 1) ⟨rfl, ?_, ?_⟩ ?_ ?_ ?_)
  · exact Or.inl trivial
  · exact Fin.forall_fin_two.mpr ⟨id, id⟩
  · exact Or.inr ⟨0, some 8, rfl⟩
  · exact ⟨0, trivial⟩
  · exact Fin.forall_fin_two.mpr ⟨Or.inr (Or.inr trivial), Or.inr (Or.inl ⟨rfl, rfl⟩)⟩

end Runs

end LinuxLearning.Chapter5
