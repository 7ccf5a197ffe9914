/-
The thread pool (threadpool.h, locker.h).  The text of `append` and of `run`
is one relation, and what the lock, the semaphore and the queue do is another;
threads interleave between any two accesses.  What keeps a request from being
stranded is a count: the queue is never longer than the tokens, the appends
that have yet to post and the workers that have yet to look.
-/
import LinuxLearning.Lib.Census
import LinuxLearning.Lib.Exclusion
import LinuxLearning.Lib.Transition

namespace LinuxLearning.Webserver

universe u v

/-- The most tokens a semaphore holds; `sem_post` fails at that value. -/
def SEM_VALUE_MAX : Nat := 0x7fffffff

/-- Where a thread is: one that calls `append`, or a worker in `run`.  A
request is a pointer, and may be null. -/
inductive PoolPc (α : Type u) where
  | idle
  | locking (request : Option α)
  | sizing (request : Option α)
  | refusing (request : Option α)
  | pushing (request : Option α)
  | pushed (request : Option α)
  | posting (request : Option α)
  | returning (request : Option α) (ok : Bool)
  | waiting
  | woken
  | testing
  | leaving
  | taking
  | popping (request : Option α)
  | took (request : Option α)
  | checking (request : Option α)
  | processing (request : α)

/-- What a thread does in one step. -/
inductive PoolAct (α : Type u) where
  | call (request : Option α)
  | lock
  | unlock
  | full
  | room
  | push (request : Option α)
  | post
  | ret (request : Option α) (ok : Bool)
  | wake
  | interrupted
  | empty
  | nonempty
  | front (request : Option α)
  | pop (request : Option α)
  | drop
  | process (request : α)
  | done (request : α)

/-- The text of `append` and, from `waiting` on, of `run`.  The result of
`wait` is not looked at, and `m_stop` is false. -/
inductive PoolPc.Next {α : Type u} : PoolPc α → PoolAct α → PoolPc α → Prop
  | call (request : Option α) : Next .idle (.call request) (.locking request)
  | lock (request : Option α) : Next (.locking request) .lock (.sizing request)
  | full (request : Option α) : Next (.sizing request) .full (.refusing request)
  | unlockFull (request : Option α) : Next (.refusing request) .unlock (.returning request false)
  | room (request : Option α) : Next (.sizing request) .room (.pushing request)
  | push (request : Option α) : Next (.pushing request) (.push request) (.pushed request)
  | unlockPushed (request : Option α) : Next (.pushed request) .unlock (.posting request)
  | post (request : Option α) : Next (.posting request) .post (.returning request true)
  | ret (request : Option α) (ok : Bool) : Next (.returning request ok) (.ret request ok) .idle
  | wake : Next .waiting .wake .woken
  | interrupted : Next .waiting .interrupted .woken
  | lockWorker : Next .woken .lock .testing
  | empty : Next .testing .empty .leaving
  | unlockEmpty : Next .leaving .unlock .waiting
  | nonempty : Next .testing .nonempty .taking
  | front (request : Option α) : Next .taking (.front request) (.popping request)
  | pop (request : Option α) : Next (.popping request) (.pop request) (.took request)
  | unlockTook (request : Option α) : Next (.took request) .unlock (.checking request)
  | drop : Next (.checking none) .drop .waiting
  | process (request : α) : Next (.checking (some request)) (.process request) (.processing request)
  | done (request : α) : Next (.processing request) (.done request) .waiting

/-- `m_queuelocker`, `m_workqueue`, `m_queuestat` and the threads. -/
structure Pool (τ : Type v) (α : Type u) where
  holder : Option τ
  queue : List (Option α)
  tokens : Nat
  threads : τ → PoolPc α

namespace Pool

variable {τ : Type v} {α : Type u}

/-- When the lock, the semaphore and the queue let a thread do it. -/
def Allows (maxRequests : Nat) (s : Pool τ α) : PoolAct α → Prop
  | .lock => s.holder = none
  | .full => s.queue.length > maxRequests
  | .room => s.queue.length ≤ maxRequests
  | .wake => 0 < s.tokens
  | .empty => s.queue = []
  | .nonempty => s.queue ≠ []
  | .front request => s.queue.head? = some request
  | _ => True

/-- What it does to them.  `post` fails when the semaphore is full, and the
result is not looked at. -/
def effect (s : Pool τ α) (t : τ) : PoolAct α → Pool τ α
  | .lock => { s with holder := some t }
  | .unlock => { s with holder := none }
  | .push request => { s with queue := s.queue ++ [request] }
  | .post => { s with tokens := if s.tokens < SEM_VALUE_MAX then s.tokens + 1 else s.tokens }
  | .wake => { s with tokens := s.tokens - 1 }
  | .pop _ => { s with queue := s.queue.tail }
  | _ => s

open Function

variable [DecidableEq τ]

/-- One step of one thread. -/
inductive Step (maxRequests : Nat) (s : Pool τ α) : τ × PoolAct α → Pool τ α → Prop
  | mk {t : τ} {act : PoolAct α} {pc : PoolPc α} (hnext : (s.threads t).Next act pc)
      (hallows : s.Allows maxRequests act) :
      Step maxRequests s (t, act) { s.effect t act with threads := update s.threads t pc }

/-- Nothing is queued, and every thread calls `append` or is a worker about to
wait. -/
structure Starts (s : Pool τ α) : Prop where
  holder : s.holder = none
  queue : s.queue = []
  tokens : s.tokens = 0
  threads : ∀ t, s.threads t = .idle ∨ s.threads t = .waiting

end Pool

/-- The pool, with threads `τ`. -/
def pool (τ : Type v) (α : Type u) [DecidableEq τ] (maxRequests : Nat) :
    TransitionSystem (Pool τ α) (τ × PoolAct α) where
  start := Pool.Starts
  step s label after := Pool.Step maxRequests s label after

namespace PoolPc

variable {α : Type u}

/-- Between `lock` and `unlock`. -/
def Critical : PoolPc α → Prop
  | .sizing _ | .refusing _ | .pushing _ | .pushed _ => True
  | .testing | .leaving | .taking | .popping _ | .took _ => True
  | _ => False

/-- An `append` between its push and its post. -/
def Owes : PoolPc α → Prop
  | .pushed _ | .posting _ => True
  | _ => False

/-- A worker between its wait and its look into the queue. -/
def Looks : PoolPc α → Prop
  | .woken | .testing | .taking | .popping _ => True
  | _ => False

/-- A thread in `run`. -/
def Worker : PoolPc α → Prop
  | .waiting | .woken | .testing | .leaving | .taking => True
  | .popping _ | .took _ | .checking _ | .processing _ => True
  | _ => False

/-- The request that an `append` has pushed and not returned for. -/
def inFlight : PoolPc α → List (Option α)
  | .pushed request | .posting request | .returning request true => [request]
  | _ => []

/-- What a thread in its critical section knows of the queue. -/
def Knows (maxRequests : Nat) (queue : List (Option α)) : PoolPc α → Prop
  | .pushing _ => queue.length ≤ maxRequests
  | .taking => queue ≠ []
  | .popping request => queue.head? = some request
  | _ => True

end PoolPc

/-- The accesses to `m_workqueue`. -/
def PoolAct.Touches {α : Type u} : PoolAct α → Prop
  | .full | .room | .push _ | .empty | .nonempty | .front _ | .pop _ => True
  | _ => False

namespace PoolPc

variable {α : Type u} {pc pc' : PoolPc α} {act : PoolAct α}

/-- A thread that the pool has yet to hear from: an `append` that is to post,
or a worker that is to look. -/
def Pending (pc : PoolPc α) : Prop := pc.Owes ∨ pc.Looks

/-- `lock` and `unlock` stand around the critical sections. -/
theorem Next.critical (h : Next pc act pc') :
    (act = .lock → pc'.Critical) ∧ (act = .unlock → pc.Critical ∧ ¬ pc'.Critical) ∧
      (act ≠ .lock → act ≠ .unlock → (pc'.Critical ↔ pc.Critical)) := by
  cases h <;> simp [Critical]

/-- The queue is accessed in critical sections. -/
theorem Next.critical_of_touches (h : Next pc act pc') (htouches : act.Touches) :
    pc.Critical := by
  cases h <;> simp [Critical] <;> exact htouches.elim

theorem Next.pushing {request : Option α} (h : Next pc (.push request) pc') :
    pc = .pushing request := by
  cases h
  rfl

theorem Next.popping {request : Option α} (h : Next pc (.pop request) pc') :
    pc = .popping request := by
  cases h
  rfl

theorem Next.returning {request : Option α} {ok : Bool} (h : Next pc (.ret request ok) pc') :
    pc = .returning request ok := by
  cases h
  rfl

theorem knows_of_not_critical (maxRequests : Nat) (queue : List (Option α))
    (h : ¬ pc.Critical) : pc.Knows maxRequests queue := by
  cases pc <;> first | trivial | exact absurd trivial h

/-- Workers stay workers. -/
theorem Next.worker (h : Next pc act pc') : pc'.Worker ↔ pc.Worker := by
  cases h <;> simp [Worker]

/-- Which steps begin and end a wait for a thread. -/
theorem Next.pending (h : Next pc act pc') :
    match act with
    | .push _ | .wake | .interrupted => ¬ pc.Pending ∧ pc'.Pending
    | .post | .empty | .pop _ => pc.Pending ∧ ¬ pc'.Pending
    | _ => pc'.Pending ↔ pc.Pending := by
  cases h <;> simp [Pending, Owes, Looks]

end PoolPc

namespace Pool

open Function PoolPc

variable {τ : Type v} {α : Type u} {maxRequests : Nat} {s after : Pool τ α}

/-- The invariant of the pool: the lock excludes, its holder knows the queue,
and every queued request has a token, an `append` or a worker to its name. -/
structure Sound (maxRequests : Nat) (s : Pool τ α) : Prop where
  exclusive : Exclusive PoolPc.Critical s.holder s.threads
  knows : ∀ t, (s.threads t).Knows maxRequests s.queue
  bounded : s.queue.length ≤ maxRequests + 1
  supply : ∃ n, Census PoolPc.Pending s.threads n ∧ s.queue.length ≤ s.tokens + n

/-- The part of it that does not depend on the tokens. -/
structure Guarded (maxRequests : Nat) (s : Pool τ α) : Prop where
  exclusive : Exclusive PoolPc.Critical s.holder s.threads
  knows : ∀ t, (s.threads t).Knows maxRequests s.queue
  bounded : s.queue.length ≤ maxRequests + 1

theorem Sound.guarded (h : s.Sound maxRequests) : s.Guarded maxRequests :=
  ⟨h.exclusive, h.knows, h.bounded⟩

theorem effect_holder (s : Pool τ α) (t : τ) {act : PoolAct α} (hlock : act ≠ .lock)
    (hunlock : act ≠ .unlock) : (s.effect t act).holder = s.holder := by
  cases act <;> first | rfl | contradiction

theorem effect_queue (s : Pool τ α) (t : τ) {act : PoolAct α} (htouches : ¬ act.Touches) :
    (s.effect t act).queue = s.queue := by
  cases act <;> first | rfl | exact absurd trivial htouches

theorem Starts.guarded (h : s.Starts) : s.Guarded maxRequests where
  exclusive := by
    rw [h.holder]
    apply Exclusive.free
    intro t
    rcases h.threads t with ht | ht <;> simp [ht, Critical]
  knows t := by
    apply knows_of_not_critical
    rcases h.threads t with ht | ht <;> simp [ht, Critical]
  bounded := by simp [h.queue]

theorem Starts.sound (h : s.Starts) : s.Sound maxRequests := by
  have hguarded : s.Guarded maxRequests := h.guarded
  refine ⟨hguarded.exclusive, hguarded.knows, hguarded.bounded, 0,
    Census.none fun t => ?_, by simp [h.queue]⟩
  rcases h.threads t with ht | ht <;> simp [ht, Pending, Owes, Looks]

section Step

variable {t : τ} {act : PoolAct α} {pc : PoolPc α}

/-- What the thread that moves knows afterwards. -/
theorem next_knows {before : PoolPc α} (hnext : before.Next act pc)
    (hallows : s.Allows maxRequests act) : pc.Knows maxRequests (s.effect t act).queue := by
  cases hnext <;> trivial

theorem Guarded.step_bounded (h : s.Guarded maxRequests) (hnext : (s.threads t).Next act pc) :
    (s.effect t act).queue.length ≤ maxRequests + 1 := by
  have hknows := h.knows t
  have hbounded := h.bounded
  cases act with
  | push request =>
      rw [hnext.pushing] at hknows
      simp only [effect, List.length_append, List.length_singleton]
      exact Nat.succ_le_succ hknows
  | pop request =>
      simp only [effect, List.length_tail]
      omega
  | _ => exact hbounded

variable [DecidableEq τ]

theorem step_exclusive (h : Exclusive PoolPc.Critical s.holder s.threads)
    (hnext : (s.threads t).Next act pc) (hallows : s.Allows maxRequests act) :
    Exclusive PoolPc.Critical (s.effect t act).holder (update s.threads t pc) := by
  obtain ⟨hlock, hunlock, hkeep⟩ := hnext.critical
  by_cases hacquire : act = .lock
  · have hfree : s.holder = none := by
      rw [hacquire] at hallows
      exact hallows
    rw [hfree] at h
    rw [hacquire]
    exact h.acquire (hlock hacquire)
  · by_cases hrelease : act = .unlock
    · obtain ⟨hbefore, hafter⟩ := hunlock hrelease
      rw [hrelease]
      exact h.release hbefore hafter
    · rw [effect_holder s t hacquire hrelease]
      exact h.keep (hkeep hacquire hrelease)

theorem Guarded.step_knows (h : s.Guarded maxRequests) (hnext : (s.threads t).Next act pc)
    (hallows : s.Allows maxRequests act) (u : τ) :
    (update s.threads t pc u).Knows maxRequests (s.effect t act).queue := by
  by_cases hu : u = t
  · subst hu
    rw [update_self]
    exact next_knows hnext hallows
  · rw [update_of_ne hu]
    by_cases htouches : act.Touches
    · -- the thread that moves holds the lock, so this one does not
      apply knows_of_not_critical
      intro hcritical
      exact hu (h.exclusive.eq (hnext.critical_of_touches htouches) hcritical)
    · rw [effect_queue s t htouches]
      exact h.knows u

theorem Guarded.step (h : s.Guarded maxRequests) {label : τ × PoolAct α}
    (hstep : Step maxRequests s label after) : after.Guarded maxRequests := by
  obtain ⟨hnext, hallows⟩ := hstep
  exact ⟨step_exclusive h.exclusive hnext hallows, h.step_knows hnext hallows, h.step_bounded hnext⟩

theorem Sound.step_supply (h : s.Sound maxRequests) (hmax : maxRequests < SEM_VALUE_MAX)
    (hnext : (s.threads t).Next act pc) (hallows : s.Allows maxRequests act) :
    ∃ n, Census PoolPc.Pending (update s.threads t pc) n ∧
      (s.effect t act).queue.length ≤ (s.effect t act).tokens + n := by
  obtain ⟨n, hcensus, hn⟩ := h.supply
  have hbounded := h.bounded
  have hpending := hnext.pending
  cases act with
  | push request =>
      refine ⟨n + 1, hcensus.enter hpending.1 hpending.2, ?_⟩
      simp only [effect, List.length_append, List.length_singleton]
      omega
  | wake =>
      -- the token is the worker's now
      refine ⟨n + 1, hcensus.enter hpending.1 hpending.2, ?_⟩
      have htoken : 0 < s.tokens := hallows
      simp only [effect]
      omega
  | interrupted =>
      refine ⟨n + 1, hcensus.enter hpending.1 hpending.2, ?_⟩
      simp only [effect]
      omega
  | post =>
      refine ⟨n - 1, hcensus.leave hpending.1 hpending.2, ?_⟩
      have hsome := hcensus.pos hpending.1
      simp only [effect]
      split
      · omega
      · -- the semaphore is full: there are more tokens than the queue can hold
        omega
  | empty =>
      refine ⟨n - 1, hcensus.leave hpending.1 hpending.2, ?_⟩
      have hempty : s.queue = [] := hallows
      simp [effect, hempty]
  | pop request =>
      refine ⟨n - 1, hcensus.leave hpending.1 hpending.2, ?_⟩
      have hsome := hcensus.pos hpending.1
      simp only [effect, List.length_tail]
      omega
  | _ => exact ⟨n, hcensus.keep hpending, hn⟩

theorem Sound.step (h : s.Sound maxRequests) (hmax : maxRequests < SEM_VALUE_MAX)
    {label : τ × PoolAct α} (hstep : Step maxRequests s label after) :
    after.Sound maxRequests := by
  have hguarded := h.guarded.step hstep
  obtain ⟨hnext, hallows⟩ := hstep
  exact ⟨hguarded.exclusive, hguarded.knows, hguarded.bounded,
    h.step_supply hmax hnext hallows⟩

/-- A thread in its critical section can always go on. -/
theorem Guarded.moves (h : s.Guarded maxRequests) (hholder : s.holder = some t) :
    ∃ act after, Step maxRequests s (t, act) after := by
  have hcritical := (h.exclusive t).mpr hholder
  have hknows := h.knows t
  have hmoves : ∃ act pc, (s.threads t).Next act pc ∧ s.Allows maxRequests act := by
    generalize s.threads t = pc at hcritical hknows
    cases pc with
    | sizing request =>
        by_cases hfull : s.queue.length > maxRequests
        · exact ⟨_, _, .full request, hfull⟩
        · exact ⟨_, _, .room request, Nat.le_of_not_lt hfull⟩
    | refusing request => exact ⟨_, _, .unlockFull request, trivial⟩
    | pushing request => exact ⟨_, _, .push request, trivial⟩
    | pushed request => exact ⟨_, _, .unlockPushed request, trivial⟩
    | testing =>
        by_cases hempty : s.queue = []
        · exact ⟨_, _, .empty, hempty⟩
        · exact ⟨_, _, .nonempty, hempty⟩
    | leaving => exact ⟨_, _, .unlockEmpty, trivial⟩
    | taking =>
        obtain ⟨request, rest, hqueue⟩ := List.exists_cons_of_ne_nil hknows
        exact ⟨_, _, .front request, by rw [Allows, hqueue]; rfl⟩
    | popping request => exact ⟨_, _, .pop request, trivial⟩
    | took request => exact ⟨_, _, .unlockTook request, trivial⟩
    | _ => exact hcritical.elim
  obtain ⟨act, pc, hnext, hallows⟩ := hmoves
  exact ⟨act, _, .mk hnext hallows⟩

end Step

/-- Every worker is blocked in `wait`, and no `append` is between its push and
its post. -/
structure AtRest (s : Pool τ α) : Prop where
  tokens : s.tokens = 0
  workers : ∀ t, (s.threads t).Worker → s.threads t = .waiting
  appends : ∀ t, ¬ (s.threads t).Owes

/-- Nothing is queued then. -/
theorem Sound.queue_of_atRest (h : s.Sound maxRequests) (hrest : s.AtRest) : s.queue = [] := by
  obtain ⟨n, hcensus, hn⟩ := h.supply
  have hnobody : Census PoolPc.Pending s.threads 0 := by
    apply Census.none
    rintro t (howes | hlooks)
    · exact hrest.appends t howes
    · have hworker : (s.threads t).Worker := by
        generalize s.threads t = pc at hlooks
        cases pc <;> trivial
      rw [hrest.workers t hworker] at hlooks
      exact hlooks
  have hzero := hcensus.unique hnobody
  have htokens := hrest.tokens
  apply List.eq_nil_of_length_eq_zero
  omega

end Pool

/-- The request that a step pushes, that it pops, and that an `append` returns
true for. -/
def PoolAct.pushes {α : Type u} : PoolAct α → Option (Option α)
  | .push request => some request
  | _ => none

def PoolAct.pops {α : Type u} : PoolAct α → Option (Option α)
  | .pop request => some request
  | _ => none

def PoolAct.accepts {α : Type u} : PoolAct α → Option (Option α)
  | .ret request true => some request
  | _ => none

section Runs

variable {τ : Type v} {α : Type u}

/-- The requests that a run pushes, pops or accepts, in order and with the
threads that do so. -/
def poolLog (event : PoolAct α → Option (Option α))
    (history : List (Pool τ α × (τ × PoolAct α))) : List (τ × Option α) :=
  history.filterMap fun entry => (event entry.2.2).map fun request => (entry.2.1, request)

theorem poolLog_concat (event : PoolAct α → Option (Option α))
    (history : List (Pool τ α × (τ × PoolAct α))) (s : Pool τ α) (t : τ) (act : PoolAct α) :
    poolLog event (history ++ [(s, t, act)]) =
      poolLog event history ++ ((event act).map fun request => (t, request)).toList := by
  rw [poolLog, List.filterMap_append]
  cases hevent : event act <;> simp [hevent, poolLog]

/-- What an `append` has pushed it returns true for, or is about to. -/
theorem PoolPc.Next.inFlight {pc pc' : PoolPc α} {act : PoolAct α} (h : pc.Next act pc') :
    pc.inFlight ++ act.pushes.toList = act.accepts.toList ++ pc'.inFlight := by
  cases h with
  | ret request ok => cases ok <;> rfl
  | _ => rfl

variable [DecidableEq τ]

/-- The part of a log that is about one thread. -/
def ofThread (t : τ) (log : List (τ × Option α)) : List (Option α) :=
  log.filterMap fun entry => if entry.1 = t then some entry.2 else none

theorem ofThread_concat (t u : τ) (log : List (τ × Option α)) (event : Option (Option α)) :
    ofThread t (log ++ (event.map fun request => (u, request)).toList) =
      ofThread t log ++ if u = t then event.toList else [] := by
  rw [ofThread, List.filterMap_append]
  cases event <;> by_cases hu : u = t <;> simp [ofThread, hu]

variable {maxRequests : Nat} {history : List (Pool τ α × (τ × PoolAct α))} {s : Pool τ α}

theorem pool_guarded (hreach : (pool τ α maxRequests).Reachable s) : s.Guarded maxRequests := by
  apply hreach.invariant
  · exact fun _ hstart => Pool.Starts.guarded hstart
  · exact fun _ _ _ hguarded hstep => hguarded.step hstep

theorem pool_sound (hmax : maxRequests < SEM_VALUE_MAX)
    (hreach : (pool τ α maxRequests).Reachable s) : s.Sound maxRequests := by
  apply hreach.invariant
  · exact fun _ hstart => Pool.Starts.sound hstart
  · exact fun _ _ _ hsound hstep => hsound.step hmax hstep

/-- What is popped is what is pushed, in order, up to what is queued. -/
theorem pool_fifo (hrun : (pool τ α maxRequests).Run history s) :
    (poolLog PoolAct.pushes history).map Prod.snd =
      (poolLog PoolAct.pops history).map Prod.snd ++ s.queue := by
  induction hrun with
  | start hstart => rw [Pool.Starts.queue hstart]; rfl
  | @snoc history before after label hbefore hstep ih =>
      have hguarded := pool_guarded ⟨history, hbefore⟩
      cases hstep with
      | @mk t act pc hnext hallows =>
          simp only [poolLog_concat, List.map_append]
          rw [ih]
          cases act with
          | push request => simp [PoolAct.pushes, PoolAct.pops, Pool.effect]
          | pop request =>
              have hknows := hguarded.knows t
              rw [hnext.popping] at hknows
              have hqueue : before.queue = request :: before.queue.tail :=
                (List.cons_head?_tail hknows).symm
              rw [hqueue]
              simp [PoolAct.pushes, PoolAct.pops, Pool.effect]
          | _ => simp [PoolAct.pushes, PoolAct.pops, Pool.effect]

/-- What a thread has pushed is what its calls of `append` have returned true
for, and what a call that has yet to return has pushed. -/
theorem pool_accepted (hrun : (pool τ α maxRequests).Run history s) (t : τ) :
    ofThread t (poolLog PoolAct.pushes history) =
      ofThread t (poolLog PoolAct.accepts history) ++ (s.threads t).inFlight := by
  induction hrun with
  | start hstart => rcases Pool.Starts.threads hstart t with ht | ht <;> rw [ht] <;> rfl
  | @snoc history before after label hbefore hstep ih =>
      cases hstep with
      | @mk u act pc hnext hallows =>
          simp only [poolLog_concat, ofThread_concat]
          rw [ih]
          by_cases hu : u = t
          · subst hu
            simp only [Function.update_self, if_pos, List.append_assoc]
            rw [hnext.inFlight]
          · have hother : Function.update before.threads u pc t = before.threads t :=
              Function.update_of_ne (Ne.symm hu) _ _
            simp [hu, hother]

/-- Every access to the queue, and every `unlock`, is the lock holder's. -/
theorem pool_locked (hrun : (pool τ α maxRequests).Run history s) :
    ∀ entry ∈ history, entry.2.2 = .unlock ∨ entry.2.2.Touches →
      entry.1.holder = some entry.2.1 := by
  induction hrun with
  | start => simp
  | @snoc history before after label hbefore hstep ih =>
      rw [List.forall_mem_append, List.forall_mem_singleton]
      refine ⟨ih, fun haccess => ?_⟩
      cases hstep with
      | @mk t act pc hnext hallows =>
          apply (pool_guarded ⟨history, hbefore⟩).exclusive.holds
          rcases haccess with hunlock | htouches
          · exact (hnext.critical.2.1 hunlock).1
          · exact hnext.critical_of_touches htouches

/-- Requests are popped by workers. -/
theorem pool_popped (hrun : (pool τ α maxRequests).Run history s) :
    ∀ entry ∈ history, ∀ request, entry.2.2 = .pop request →
      (entry.1.threads entry.2.1).Worker := by
  induction hrun with
  | start => simp
  | @snoc history before after label hbefore hstep ih =>
      rw [List.forall_mem_append, List.forall_mem_singleton]
      refine ⟨ih, ?_⟩
      intro request hpop
      cases hstep with
      | @mk t act pc hnext hallows =>
          cases hpop
          rw [hnext.popping]
          trivial

/-- The pool neither loses, duplicates nor strands requests. -/
theorem pool_keeps_requests (hmax : maxRequests < SEM_VALUE_MAX)
    (hrun : (pool τ α maxRequests).Run history s) :
    ((poolLog PoolAct.pushes history).map Prod.snd =
      (poolLog PoolAct.pops history).map Prod.snd ++ s.queue) ∧
    (∀ entry ∈ history, ∀ request, entry.2.2 = .pop request →
      (entry.1.threads entry.2.1).Worker) ∧
    (∀ t, ofThread t (poolLog PoolAct.pushes history) =
      ofThread t (poolLog PoolAct.accepts history) ++ (s.threads t).inFlight) ∧
    (∀ entry ∈ history, entry.2.2 = .unlock ∨ entry.2.2.Touches →
      entry.1.holder = some entry.2.1) ∧
    (∀ t, s.holder = some t → (s.threads t).Critical ∧
      ∃ act after, (pool τ α maxRequests).step s (t, act) after) ∧
    (s.AtRest → s.queue = [] ∧ (poolLog PoolAct.pushes history).map Prod.snd =
      (poolLog PoolAct.pops history).map Prod.snd) := by
  have hsound := pool_sound hmax ⟨history, hrun⟩
  have hfifo := pool_fifo hrun
  refine ⟨hfifo, pool_popped hrun, pool_accepted hrun, pool_locked hrun, ?_, ?_⟩
  · exact fun t hholder => ⟨(hsound.exclusive t).mpr hholder, hsound.guarded.moves hholder⟩
  · intro hrest
    have hempty := hsound.queue_of_atRest hrest
    rw [hempty, List.append_nil] at hfifo
    exact ⟨hempty, hfifo⟩

/-- Thread 0 calls `append`, thread 1 is a worker. -/
def twoThreads : Pool (Fin 2) Nat :=
  ⟨none, [], 0, fun t => if t = 0 then .idle else .waiting⟩

theorem twoThreads_starts : twoThreads.Starts :=
  ⟨rfl, rfl, rfl, fun t => by by_cases ht : t = 0 <;> simp [twoThreads, ht]⟩

/-- One request is pushed and not posted for: the worker is blocked, and the
pool is not at rest. -/
theorem pool_keeps_requests_pushed :
    ∃ history s, (pool (Fin 2) Nat 10000).Run history s ∧ s.tokens = 0 ∧
      s.threads 1 = .waiting ∧ s.queue = [some 7] ∧
      (poolLog PoolAct.pushes history).map Prod.snd =
        (poolLog PoolAct.pops history).map Prod.snd ++ [some 7] := by
  have hcall := TransitionSystem.Run.snoc (.start (M := pool (Fin 2) Nat 10000) twoThreads_starts)
    (Pool.Step.mk (t := 0) (.call (some 7)) trivial)
  have hlock := hcall.snoc (Pool.Step.mk (t := 0) (.lock (some 7)) rfl)
  have hroom := hlock.snoc (Pool.Step.mk (t := 0) (.room (some 7)) (Nat.zero_le _))
  have hpush := hroom.snoc (Pool.Step.mk (t := 0) (.push (some 7)) trivial)
  exact ⟨_, _, hpush, rfl, rfl, rfl, (pool_keeps_requests (by decide) hpush).1⟩

end Runs

end LinuxLearning.Webserver
