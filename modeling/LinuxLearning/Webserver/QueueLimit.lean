/-
The limit of the request queue.  `append` refuses when the queue is longer than
`m_max_requsts`, so the queue keeps to a limit one above it; a pool that never
tests the size of a queue with exactly `m_max_requsts` requests moves like one
with a limit one lower.
-/
import LinuxLearning.Webserver.ThreadPool

namespace LinuxLearning.Webserver

universe u v

variable {τ : Type v} {α : Type u}

/-- What a call of `append` has done so far. -/
def PoolPc.soFar : PoolPc α → List (PoolAct α)
  | .locking request => [.call request]
  | .sizing request => [.call request, .lock]
  | .refusing request => [.call request, .lock, .full]
  | .pushing request => [.call request, .lock, .room]
  | .pushed request => [.call request, .lock, .room, .push request]
  | .posting request => [.call request, .lock, .room, .push request, .unlock]
  | .returning request true => [.call request, .lock, .room, .push request, .unlock, .post]
  | .returning request false => [.call request, .lock, .full, .unlock]
  | _ => []

/-- A call of `append` goes on with one step after the other. -/
theorem PoolPc.Next.soFar {pc pc' : PoolPc α} {act : PoolAct α} (h : pc.Next act pc')
    (hcall : pc'.soFar ≠ []) :
    match act with
    | .call _ => pc'.soFar = [act]
    | _ => pc.soFar ≠ [] ∧ pc'.soFar = pc.soFar ++ [act] := by
  cases h <;> first | exact absurd rfl hcall | simp [PoolPc.soFar]

/-- A call that is refused has only locked, tested and unlocked. -/
theorem effect_of_refused {request : Option α} {act : PoolAct α} (t : τ) (state : Pool τ α)
    (hact : act ∈ (PoolPc.returning request false).soFar) :
    (state.effect t act).queue = state.queue ∧ (state.effect t act).tokens = state.tokens := by
  simp only [PoolPc.soFar, List.mem_cons, List.not_mem_nil, or_false] at hact
  rcases hact with rfl | rfl | rfl | rfl <;> exact ⟨rfl, rfl⟩

section

variable [DecidableEq τ]

/-- The steps that a thread has taken since it last called `append`, each with
the state before it. -/
def sinceCall (t : τ) (history : List (Pool τ α × (τ × PoolAct α))) :
    List (Pool τ α × PoolAct α) :=
  history.foldl (fun steps entry =>
    if entry.2.1 = t then
      match entry.2.2 with
      | .call request => [(entry.1, .call request)]
      | act => steps ++ [(entry.1, act)]
    else steps) []

/-- `append` keeps the queue to the limit in a run: the queue is never longer,
the size test refuses exactly when the queue is at the limit, and a call
returns as it has tested, false without a change to the queue and the
semaphore. -/
structure Respects (limit : Nat) (history : List (Pool τ α × (τ × PoolAct α)))
    (s : Pool τ α) : Prop where
  bounded : TransitionSystem.Always (fun state => state.queue.length ≤ limit) history s
  tested : ∀ entry ∈ history,
    (entry.2.2 = .full → entry.1.queue.length = limit) ∧
    (entry.2.2 = .room → entry.1.queue.length < limit)
  returned : ∀ earlier later before t request ok,
    history = earlier ++ (before, t, .ret request ok) :: later →
    ∃ tested, (tested, if ok then .room else .full) ∈ sinceCall t earlier ∧
      (ok = false ↔ tested.queue.length = limit) ∧
      (ok = false → ∀ step ∈ sinceCall t earlier,
        (step.1.effect t step.2).queue = step.1.queue ∧
          (step.1.effect t step.2).tokens = step.1.tokens)

theorem sinceCall_concat (t u : τ) (history : List (Pool τ α × (τ × PoolAct α)))
    (state : Pool τ α) (act : PoolAct α) :
    sinceCall t (history ++ [(state, u, act)]) =
      if u = t then
        match act with
        | .call request => [(state, .call request)]
        | act => sinceCall t history ++ [(state, act)]
      else sinceCall t history := by
  rw [sinceCall, List.foldl_append]
  rfl

theorem mem_of_sinceCall {t : τ} {history : List (Pool τ α × (τ × PoolAct α))}
    {step : Pool τ α × PoolAct α} (hstep : step ∈ sinceCall t history) :
    (step.1, t, step.2) ∈ history := by
  induction history using List.reverseRecOn with
  | nil => cases hstep
  | append_singleton history entry ih =>
      obtain ⟨state, u, act⟩ := entry
      rw [sinceCall_concat] at hstep
      rw [List.mem_append, List.mem_singleton]
      by_cases hu : u = t
      · subst hu
        rw [if_pos rfl] at hstep
        cases act with
        | call request =>
            rw [List.mem_singleton] at hstep
            rw [hstep]
            exact Or.inr rfl
        | _ =>
            rw [List.mem_append, List.mem_singleton] at hstep
            rcases hstep with hearlier | rfl
            · exact Or.inl (ih hearlier)
            · exact Or.inr rfl
      · rw [if_neg hu] at hstep
        exact Or.inl (ih hstep)

variable {maxRequests : Nat} {history : List (Pool τ α × (τ × PoolAct α))} {s : Pool τ α}

theorem pool_soFar (hrun : (pool τ α maxRequests).Run history s) (t : τ)
    (hcall : (s.threads t).soFar ≠ []) :
    (sinceCall t history).map Prod.snd = (s.threads t).soFar := by
  induction hrun with
  | start hstart =>
      rcases Pool.Starts.threads hstart t with ht | ht <;> rw [ht] at hcall <;>
        exact absurd rfl hcall
  | @snoc history before after label hbefore hstep ih =>
      cases hstep with
      | @mk u act pc hnext hallows =>
          rw [sinceCall_concat]
          dsimp only at hcall ⊢
          by_cases hu : u = t
          · subst hu
            rw [Function.update_self] at hcall ⊢
            have hmore := hnext.soFar hcall
            rw [if_pos rfl]
            cases act with
            | call request => exact hmore.symm
            | _ => rw [hmore.2, ← ih hmore.1, List.map_append, List.map_singleton]
          · rw [Function.update_of_ne (Ne.symm hu)] at hcall ⊢
            rw [if_neg hu]
            exact ih hcall

theorem pool_allows (hrun : (pool τ α maxRequests).Run history s) :
    ∀ entry ∈ history, entry.1.Allows maxRequests entry.2.2 := by
  induction hrun with
  | start => simp
  | @snoc history before after label hbefore hstep ih =>
      rw [List.forall_mem_append, List.forall_mem_singleton]
      refine ⟨ih, ?_⟩
      cases hstep with
      | mk hnext hallows => exact hallows

theorem pool_bounded (hrun : (pool τ α maxRequests).Run history s) :
    TransitionSystem.Always (fun state => state.queue.length ≤ maxRequests + 1) history s :=
  ⟨fun _ hentry => (pool_guarded (hrun.reachable_entry hentry)).bounded,
    (pool_guarded ⟨history, hrun⟩).bounded⟩

/-- The size test lets the queue grow to one request more than the limit that
it is given. -/
theorem pool_tested (hrun : (pool τ α maxRequests).Run history s) :
    ∀ entry ∈ history,
      (entry.2.2 = .full → entry.1.queue.length = maxRequests + 1) ∧
      (entry.2.2 = .room → entry.1.queue.length < maxRequests + 1) := by
  intro entry hentry
  have hallows := pool_allows hrun entry hentry
  refine ⟨fun hfull => ?_, fun hroom => ?_⟩
  · rw [hfull] at hallows
    exact Nat.le_antisymm ((pool_bounded hrun).1 entry hentry) hallows
  · rw [hroom] at hallows
    exact Nat.lt_succ_of_le hallows

theorem pool_returned (hrun : (pool τ α maxRequests).Run history s)
    {earlier later : List (Pool τ α × (τ × PoolAct α))} {before : Pool τ α} {t : τ}
    {request : Option α} {ok : Bool}
    (hhistory : history = earlier ++ (before, t, .ret request ok) :: later) :
    ∃ tested, (tested, if ok then .room else .full) ∈ sinceCall t earlier ∧
      (ok = false ↔ tested.queue.length = maxRequests + 1) ∧
      (ok = false → ∀ step ∈ sinceCall t earlier,
        (step.1.effect t step.2).queue = step.1.queue ∧
          (step.1.effect t step.2).tokens = step.1.tokens) := by
  subst hhistory
  obtain ⟨hearlier, after, hstep⟩ := hrun.split
  have hpc : before.threads t = .returning request ok := by
    cases hstep with
    | mk hnext hallows => exact hnext.returning
  have hcall : (before.threads t).soFar ≠ [] := by
    rw [hpc]
    cases ok <;> simp [PoolPc.soFar]
  have hsteps := pool_soFar hearlier t hcall
  rw [hpc] at hsteps
  have htest : (if ok then .room else .full) ∈ (sinceCall t earlier).map Prod.snd := by
    rw [hsteps]
    cases ok <;> simp [PoolPc.soFar]
  obtain ⟨⟨tested, act⟩, hmem, rfl⟩ := List.mem_map.mp htest
  obtain ⟨hfull, hroom⟩ := pool_tested hearlier _ (mem_of_sinceCall hmem)
  refine ⟨tested, hmem, ?_, ?_⟩
  · cases ok with
    | false => exact iff_of_true rfl (hfull rfl)
    | true => exact iff_of_false (by simp) (hroom rfl).ne
  · rintro rfl step hstep
    have hact : step.2 ∈ (PoolPc.returning request false).soFar := by
      rw [← hsteps]
      exact List.mem_map_of_mem hstep
    exact effect_of_refused t step.1 hact

/-- The pool keeps to one request more than it is told. -/
theorem pool_respects (hrun : (pool τ α maxRequests).Run history s) :
    Respects (maxRequests + 1) history s where
  bounded := pool_bounded hrun
  tested := pool_tested hrun
  returned _ _ _ _ _ _ hhistory := pool_returned hrun hhistory

/-- Where no size test meets a queue at the limit, the limit could be one
lower. -/
theorem step_of_lower {before after : Pool τ α} {label : τ × PoolAct α}
    (htest : label.2 = .full ∨ label.2 = .room → before.queue.length ≠ maxRequests + 1)
    (hstep : Pool.Step (maxRequests + 1) before label after) :
    Pool.Step maxRequests before label after := by
  cases hstep with
  | @mk t act pc hnext hallows =>
      refine .mk hnext ?_
      cases act with
      | full => exact Nat.lt_of_succ_lt hallows
      | room =>
          have hle : before.queue.length ≤ maxRequests + 1 := hallows
          have hne := htest (Or.inr rfl)
          exact Nat.le_of_lt_succ (Nat.lt_of_le_of_ne hle hne)
      | _ => exact hallows

/-- The queue keeps to its limit in exactly the runs in which no call of
`append` tests the size of a queue that is at the limit. -/
theorem pool_respects_limit (hmax : 0 < maxRequests)
    (hrun : (pool τ α maxRequests).Run history s) :
    Respects maxRequests history s ↔
      ∀ entry ∈ history, entry.2.2 = .full ∨ entry.2.2 = .room →
        entry.1.queue.length ≠ maxRequests := by
  constructor
  · intro hrespects entry hentry htest hlength
    have hallows := pool_allows hrun entry hentry
    rcases htest with hfull | hroom
    · rw [hfull] at hallows
      exact absurd hlength (Nat.ne_of_gt hallows)
    · exact absurd hlength ((hrespects.tested entry hentry).2 hroom).ne
  · intro htests
    obtain ⟨lower, rfl⟩ := Nat.exists_eq_succ_of_ne_zero hmax.ne'
    have hlower : (pool τ α lower).Run history s :=
      hrun.simulate (fun state label => label.2 = .full ∨ label.2 = .room →
        state.queue.length ≠ lower + 1) (fun _ hstart => hstart)
        (fun _ _ _ htest hstep => step_of_lower htest hstep) htests
    exact pool_respects hlower

end

/-- One request in a queue for two. -/
theorem pool_respects_limit_first :
    ∃ history s, (pool (Fin 2) Nat 2).Run history s ∧ s.queue = [some 7] ∧
      Respects 2 history s := by
  have hstart : (pool (Fin 2) Nat 2).Run [] twoThreads := .start twoThreads_starts
  have hroom := ((hstart.snoc (Pool.Step.mk (t := 0) (.call (some 7)) trivial)).snoc
    (Pool.Step.mk (t := 0) (.lock (some 7)) rfl)).snoc
      (Pool.Step.mk (t := 0) (.room (some 7)) (Nat.zero_le _))
  have hpush := hroom.snoc (Pool.Step.mk (t := 0) (.push (some 7)) trivial)
  refine ⟨_, _, hpush, rfl, (pool_respects_limit (by decide) hpush).mpr ?_⟩
  simp [twoThreads, Pool.effect]

/-- Two requests in a queue for one. -/
theorem not_respects_limit :
    ¬ ∀ (maxRequests : Nat), 0 < maxRequests →
      ∀ (history : List (Pool (Fin 2) Nat × (Fin 2 × PoolAct Nat))) (s : Pool (Fin 2) Nat),
        (pool (Fin 2) Nat maxRequests).Run history s → Respects maxRequests history s := by
  intro h
  have hstart : (pool (Fin 2) Nat 1).Run [] twoThreads := .start twoThreads_starts
  have hfirst := (((hstart.snoc (Pool.Step.mk (t := 0) (.call (some 7)) trivial)).snoc
    (Pool.Step.mk (t := 0) (.lock (some 7)) rfl)).snoc
      (Pool.Step.mk (t := 0) (.room (some 7)) (Nat.zero_le _))).snoc
        (Pool.Step.mk (t := 0) (.push (some 7)) trivial)
  have hreturned := ((hfirst.snoc (Pool.Step.mk (t := 0) (.unlockPushed (some 7)) trivial)).snoc
    (Pool.Step.mk (t := 0) (.post (some 7)) trivial)).snoc
      (Pool.Step.mk (t := 0) (.ret (some 7) true) trivial)
  have hsecond := (((hreturned.snoc (Pool.Step.mk (t := 0) (.call (some 8)) trivial)).snoc
    (Pool.Step.mk (t := 0) (.lock (some 8)) rfl)).snoc
      (Pool.Step.mk (t := 0) (.room (some 8)) (Nat.le_refl 1))).snoc
        (Pool.Step.mk (t := 0) (.push (some 8)) trivial)
  have hlong : 2 ≤ 1 := (h 1 Nat.one_pos _ _ hsecond).bounded.2
  exact absurd hlong (by decide)

end LinuxLearning.Webserver
