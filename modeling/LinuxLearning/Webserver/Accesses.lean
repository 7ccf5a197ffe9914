/-
The server with the pool access by access.  `main` and the workers take the
lock, look at the queue, change it and give the lock back in steps of their own,
and other threads come in between any two of them.  That shows nothing which
the server with whole critical sections does not do.
-/
import LinuxLearning.Lib.Refinement
import LinuxLearning.Webserver.Server
import LinuxLearning.Webserver.ThreadPool
import Mathlib.Data.List.ReduceOption

namespace LinuxLearning.Webserver

universe u v

open Function TransitionSystem

namespace Pool

variable {τ : Type v} {α : Type u} {maxRequests : Nat} {s after : Pool τ α}

/-- The requests are as many as the tokens and the threads that have yet to
post or to look. -/
def Balanced (s : Pool τ α) : Prop :=
  ∃ n, Census PoolPc.Pending s.threads n ∧ s.queue.length = s.tokens + n

theorem Starts.balanced (h : s.Starts) : s.Balanced := by
  refine ⟨0, Census.none fun t => ?_, by simp [h.queue, h.tokens]⟩
  rcases h.threads t with ht | ht <;> simp [ht, PoolPc.Pending, PoolPc.Owes, PoolPc.Looks]

/-- The semaphore has room for who is to post. -/
theorem Balanced.tokens_lt (h : s.Balanced) (hguarded : s.Guarded maxRequests)
    (hmax : maxRequests < SEM_VALUE_MAX) {t : τ} (hpending : (s.threads t).Pending) :
    s.tokens < SEM_VALUE_MAX := by
  obtain ⟨n, hcensus, hn⟩ := h
  have hpos := hcensus.pos hpending
  have hbounded := hguarded.bounded
  omega

variable [DecidableEq τ]

/-- It stays so where no wait is interrupted. -/
theorem Balanced.step (h : s.Balanced) (hguarded : s.Guarded maxRequests)
    (hmax : maxRequests < SEM_VALUE_MAX) {t : τ} {act : PoolAct α} (hact : act ≠ .interrupted)
    (hstep : Step maxRequests s (t, act) after) : after.Balanced := by
  obtain ⟨n, hcensus, hn⟩ := h
  obtain ⟨hnext, hallows⟩ := hstep
  have hbounded := hguarded.bounded
  have hpending := hnext.pending
  cases act with
  | interrupted => exact absurd rfl hact
  | push request =>
      refine ⟨n + 1, hcensus.enter hpending.1 hpending.2, ?_⟩
      simp only [effect, List.length_append, List.length_singleton]
      omega
  | wake =>
      refine ⟨n + 1, hcensus.enter hpending.1 hpending.2, ?_⟩
      have htoken : 0 < s.tokens := hallows
      simp only [effect]
      omega
  | post =>
      refine ⟨n - 1, hcensus.leave hpending.1 hpending.2, ?_⟩
      have hpos := hcensus.pos hpending.1
      simp only [effect]
      rw [if_pos (by omega)]
      omega
  | empty =>
      -- who looks has a request
      have hpos := hcensus.pos hpending.1
      have hempty : s.queue = [] := hallows
      rw [hempty, List.length_nil] at hn
      omega
  | pop request =>
      refine ⟨n - 1, hcensus.leave hpending.1 hpending.2, ?_⟩
      have hpos := hcensus.pos hpending.1
      simp only [effect, List.length_tail]
      omega
  | _ => exact ⟨n, hcensus.keep hpending, hn⟩

end Pool

/-- The steps of `append` and `run` on the pool. -/
def Label.OnPool {ι : Type u} : Label ι → Prop
  | .append | .post | .wake _ | .starve _ | .pop _ => True
  | _ => False

/-- The server and its pool, whose thread `none` is `main`.  `outer` is where
the threads are outside of `append` and `run`: `main` stays at its call until
it returns, and a worker without a request at its wait.  The queue and the
tasks are those of `pool`. -/
structure Interleaved (ι : Type u) where
  outer : Server ι
  pool : Pool (Option ι) Nat

inductive AccessLabel (ι : Type u) where
  | outer (label : Label ι)
  | access (t : Option ι) (act : PoolAct Nat)

/-- The steps that begin or end a call, of `append` or of `process`. -/
def PoolAct.Calls {α : Type u} : PoolAct α → Prop
  | .call _ | .ret _ _ | .process _ | .done _ => True
  | _ => False

namespace Interleaved

variable {ι : Type u} [DecidableEq ι]

/-- One step of one thread.  No signal has a handler, so that `wait` is not
interrupted. -/
inductive Step (s : Interleaved ι) : AccessLabel ι → Interleaved ι → Prop
  | outer {label : Label ι} {after : Server ι} (hlabel : ¬ label.OnPool)
      (hstep : ServerStep s.outer label after) :
      Step s (.outer label) { s with outer := after }
  | call {fd : Nat} {events : List Event} {after : Pool (Option ι) Nat}
      (hmain : s.outer.main = .appending fd events)
      (hstep : Pool.Step MAX_REQUESTS s.pool (none, .call (some fd)) after) :
      Step s (.access none (.call (some fd))) { s with pool := after }
  | ret {fd : Nat} {events : List Event} {request : Option Nat} {ok : Bool}
      {after : Pool (Option ι) Nat} (hmain : s.outer.main = .appending fd events)
      (hstep : Pool.Step MAX_REQUESTS s.pool (none, .ret request ok) after) :
      Step s (.access none (.ret request ok))
        { outer := { s.outer with main := .loop events }, pool := after }
  | process {w : ι} {fd : Nat} {after : Pool (Option ι) Nat}
      (hstep : Pool.Step MAX_REQUESTS s.pool (some w, .process fd) after) :
      Step s (.access (some w) (.process fd))
        { outer := { s.outer with workers := update s.outer.workers w (.processing fd) }
          pool := after }
  | done {w : ι} {fd : Nat} {after : Pool (Option ι) Nat} (hworker : s.outer.workers w = .waiting)
      (hstep : Pool.Step MAX_REQUESTS s.pool (some w, .done fd) after) :
      Step s (.access (some w) (.done fd)) { s with pool := after }
  | access {t : Option ι} {act : PoolAct Nat} {after : Pool (Option ι) Nat}
      (hact : ¬ act.Calls ∧ act ≠ .interrupted)
      (hstep : Pool.Step MAX_REQUESTS s.pool (t, act) after) :
      Step s (.access t act) { s with pool := after }

/-- The server as `main` enters its loop, with every worker at its wait. -/
structure Starts (s : Interleaved ι) : Prop where
  outer : Webserver.Starts s.outer
  pool : s.pool.Starts
  main : s.pool.threads none = .idle
  workers : ∀ w, s.pool.threads (some w) = .waiting

end Interleaved

/-- The server with workers `ι`, access by access. -/
def interleaved (ι : Type u) [DecidableEq ι] :
    TransitionSystem (Interleaved ι) (AccessLabel ι) where
  start := Interleaved.Starts
  step s label after := Interleaved.Step s label after

namespace Interleaved

variable {ι : Type u}

/-- Where `main` is, when `append` has pushed with its push and refused with
its test. -/
def mainAt : PoolPc Nat → MainPc → MainPc
  | .pushed _, .appending _ events | .posting _, .appending _ events => .posting events
  | .refusing _, .appending _ events | .returning _ _, .appending _ events => .loop events
  | _, main => main

/-- Where a worker is, when `run` has taken its request with the pop. -/
def workerAt : PoolPc Nat → WorkerPc → WorkerPc
  | .woken, _ | .testing, _ | .taking, _ | .popping _, _ => .woken
  | .took (some fd), _ | .checking (some fd), _ => .processing fd
  | _, worker => worker

/-- The state of the server in which each critical section has happened at
once. -/
def coarse (s : Interleaved ι) : Server ι where
  users := s.outer.users
  userCount := s.outer.userCount
  fds := s.outer.fds
  epoll := s.outer.epoll
  main := mainAt (s.pool.threads none) s.outer.main
  queue := s.pool.queue.reduceOption
  tasks := s.pool.tokens
  workers w := workerAt (s.pool.threads (some w)) (s.outer.workers w)
  calls := s.outer.calls

/-- The step of the server that a step is. -/
def shown : AccessLabel ι → Option (Label ι)
  | .outer label => some label
  | .access none .full | .access none (.push _) => some .append
  | .access none .post => some .post
  | .access (some w) .wake => some (.wake w)
  | .access (some w) .empty => some (.starve w)
  | .access (some w) (.pop _) => some (.pop w)
  | _ => none

/-- Where `main` can be in `append`, by where it calls it. -/
def MainPlaced : PoolPc Nat → MainPc → Prop
  | .idle, main => ∀ events, main ≠ .posting events
  | .locking (some fd), main | .sizing (some fd), main | .refusing (some fd), main
  | .pushing (some fd), main | .pushed (some fd), main | .posting (some fd), main
  | .returning (some fd) _, main => ∃ events, main = .appending fd events
  | _, _ => False

/-- Where a worker can be in `run`. -/
def WorkerPlaced : PoolPc Nat → WorkerPc → Prop
  | .processing _, worker => worker ≠ .woken
  | .waiting, worker | .woken, worker | .testing, worker | .leaving, worker | .taking, worker
  | .popping (some _), worker | .took (some _), worker | .checking (some _), worker =>
      worker = .waiting
  | _, _ => False

/-- A step is one of the server, or nothing to it. -/
def Mirrors [DecidableEq ι] (s : Interleaved ι) (label : AccessLabel ι) (after : Interleaved ι) :
    Prop :=
  match shown label with
  | some act => ServerStep s.coarse act after.coarse
  | none => after.coarse = s.coarse

/-- The threads are where they belong, and no request is null. -/
structure Placed (s : Interleaved ι) : Prop where
  guarded : s.pool.Guarded MAX_REQUESTS
  balanced : s.pool.Balanced
  requests : ∃ fds : List Nat, s.pool.queue = fds.map some
  main : MainPlaced (s.pool.threads none) s.outer.main
  workers : ∀ w, WorkerPlaced (s.pool.threads (some w)) (s.outer.workers w)

end Interleaved

section Outside

variable {ι : Type u} [DecidableEq ι] {s other after : Server ι} {label : Label ι}

/-- A step of `main` outside of `append`: it has nothing to do with the queue,
the tasks and the workers. -/
structure MainMoves (s : Server ι) (label : Label ι) (after : Server ι) : Prop where
  workers : after.workers = s.workers
  appending : ∀ fd events, s.main ≠ .appending fd events
  posting : ∀ events, s.main ≠ .posting events
  posting' : ∀ events, after.main ≠ .posting events
  queue : after.queue = s.queue
  tasks : after.tasks = s.tasks
  step : ∀ queue tasks workers,
    ServerStep { s with queue := queue, tasks := tasks, workers := workers } label
      { after with queue := queue, tasks := tasks, workers := workers }

/-- A step of a worker with its request: it has nothing to do with the queue,
the tasks, `main` and the other workers. -/
structure WorkerMoves (w : ι) (s : Server ι) (label : Label ι) (after : Server ι) : Prop where
  main : after.main = s.main
  queue : after.queue = s.queue
  tasks : after.tasks = s.tasks
  waiting : s.workers w ≠ .waiting
  woken : s.workers w ≠ .woken
  woken' : after.workers w ≠ .woken
  workers : after.workers = update s.workers w (after.workers w)
  step : ∀ main queue tasks workers, workers w = s.workers w →
    ServerStep { s with main := main, queue := queue, tasks := tasks, workers := workers } label
      { after with
        main := main
        queue := queue
        tasks := tasks
        workers := update workers w (after.workers w) }

omit [DecidableEq ι] in
theorem StoresInside.of_onPool (hlabel : label.OnPool) : StoresInside s label := by
  cases label <;> trivial

omit [DecidableEq ι] in
/-- What is hit depends on the slots, and on where the worker is. -/
theorem Overwrites.frame {users : Nat → HttpConn} (h : Overwrites s label users)
    (husers : other.users = s.users)
    (hworker : ∀ w fs fellOff, label = .process w fs fellOff → other.workers w = s.workers w) :
    Overwrites other label users := by
  cases h with
  | process hslot hhits =>
      refine .process (hworker _ _ _ rfl ▸ hslot) ?_
      rwa [husers]
  | other hlabel => exact husers ▸ .other hlabel

/-- Outside of the pool a step is either of the two. -/
theorem ServerStep.outside (hstep : ServerStep s label after) (hlabel : ¬ label.OnPool) :
    MainMoves s label after ∨ ∃ w, WorkerMoves w s label after := by
  obtain ⟨users, hover, hstep⟩ := hstep
  cases hstep with
  | append | appendFull | post | wake | starve | pop => exact absurd trivial hlabel
  | epollWait hmain | endBatch hmain | acceptFailed hmain | accept hmain | refuse hmain
  | showError hmain | allow hmain | addfd hmain | initialise hmain | hangup hmain
  | startRead hmain | startWrite hmain | write hmain | close hmain =>
      dsimp only at hmain
      refine Or.inl ⟨rfl, by simp [hmain], by simp [hmain], by simp, rfl, rfl,
        fun _ _ _ => ⟨users, hover.frame rfl (by rintro _ _ _ ⟨⟩), ?_⟩⟩
      constructor <;> assumption
  | @read fd events outcomes ok conn hmain hread hbad =>
      dsimp only at hmain
      exact Or.inl ⟨rfl, by simp [hmain], by simp [hmain], by cases ok <;> simp, rfl, rfl,
        fun _ _ _ => ⟨users, hover.frame rfl (by rintro _ _ _ ⟨⟩), .read hmain hread hbad⟩⟩
  | @wrote fd ret events hmain =>
      dsimp only at hmain
      exact Or.inl ⟨rfl, by simp [hmain], by simp [hmain], by cases ret <;> simp, rfl, rfl,
        fun _ _ _ => ⟨users, hover.frame rfl (by rintro _ _ _ ⟨⟩), .wrote hmain⟩⟩
  | @openFile w fd file fs fellOff answer hworker hanswer hopens hlowest =>
      dsimp only at hworker
      refine Or.inr ⟨w, rfl, rfl, rfl, by simp [hworker], by simp [hworker], by simp, by simp, ?_⟩
      intro main queue tasks workers hsame
      refine ⟨users, hover.frame rfl (by rintro _ _ _ ⟨⟩), ?_⟩
      simp only [update_self]
      exact .openFile (hsame.trans hworker) hanswer hopens hlowest
  | @process w fd fs fellOff hworker hanswer =>
      dsimp only at hworker
      refine Or.inr ⟨w, rfl, rfl, rfl, by simp [hworker], by simp [hworker], by simp, by simp, ?_⟩
      intro main queue tasks workers hsame
      refine ⟨users, hover.frame rfl (by rintro _ _ _ ⟨⟩; exact hsame), ?_⟩
      simp only [update_self]
      exact .process (hsame.trans hworker) hanswer
  | @processFile w fd file fs fellOff hworker =>
      dsimp only at hworker
      refine Or.inr ⟨w, rfl, rfl, rfl, by simp [hworker], by simp [hworker], by simp, by simp, ?_⟩
      intro main queue tasks workers hsame
      refine ⟨users, hover.frame rfl (by rintro _ _ _ ⟨⟩; exact hsame), ?_⟩
      simp only [update_self]
      exact .processFile (hsame.trans hworker)
  | @rearm w fd calls hworker =>
      dsimp only at hworker
      refine Or.inr ⟨w, rfl, rfl, rfl, by simp [hworker], by simp [hworker], by simp, by simp, ?_⟩
      intro main queue tasks workers hsame
      refine ⟨users, hover.frame rfl (by rintro _ _ _ ⟨⟩), ?_⟩
      simp only [update_self]
      exact .rearm (hsame.trans hworker)

end Outside

namespace Interleaved

section Threads

variable {pc pc' : PoolPc Nat} {act : PoolAct Nat}

/-- What an access of `main` is for the server. -/
def MainShows (before after : MainPc) : PoolAct Nat → Prop
  | .full => ∃ fd events, before = .appending fd events ∧ after = .loop events
  | .push request =>
      ∃ fd events, request = some fd ∧ before = .appending fd events ∧ after = .posting events
  | .post => ∃ events, before = .posting events ∧ after = .loop events
  | .wake | .pop _ => False
  | _ => after = before

/-- What an access of a worker is for it. -/
def WorkerShows (before after : WorkerPc) : PoolAct Nat → Prop
  | .wake => before = .waiting ∧ after = .woken
  | .empty => before = .woken ∧ after = .waiting
  | .pop request => ∃ fd, request = some fd ∧ before = .woken ∧ after = .processing fd
  | .push _ | .post => False
  | _ => after = before

theorem MainPlaced.next {main : MainPc} (h : MainPlaced pc main) (hnext : pc.Next act pc')
    (hcalls : ¬ act.Calls) :
    MainPlaced pc' main ∧ MainShows (mainAt pc main) (mainAt pc' main) act := by
  cases hnext with
  | call | ret | process | done => exact absurd trivial hcalls
  | lock request | unlockFull request | room request | unlockPushed request =>
      cases request with
      | none => exact h.elim
      | some fd =>
          obtain ⟨events, rfl⟩ := h
          exact ⟨⟨events, rfl⟩, rfl⟩
  | full request | push request | post request =>
      cases request with
      | none => exact h.elim
      | some fd =>
          obtain ⟨events, rfl⟩ := h
          exact ⟨⟨events, rfl⟩, by simp [mainAt, MainShows]⟩
  | _ => exact h.elim

theorem WorkerPlaced.next {worker : WorkerPc} (h : WorkerPlaced pc worker)
    (hnext : pc.Next act pc') (hcalls : ¬ act.Calls) (hact : act ≠ .interrupted)
    (hfront : act ≠ .front none) :
    WorkerPlaced pc' worker ∧ WorkerShows (workerAt pc worker) (workerAt pc' worker) act := by
  cases hnext with
  | call | ret | process | done => exact absurd trivial hcalls
  | interrupted => exact absurd rfl hact
  | wake | lockWorker | empty | unlockEmpty | nonempty =>
      obtain rfl : worker = .waiting := h
      exact ⟨rfl, by simp [workerAt, WorkerShows]⟩
  | front request =>
      cases request with
      | none => exact absurd rfl hfront
      | some fd => exact ⟨h, rfl⟩
  | pop request | unlockTook request =>
      cases request with
      | none => exact h.elim
      | some fd => exact ⟨h, by simp [workerAt, WorkerShows]⟩
  | _ => exact h.elim

end Threads

variable {ι : Type u} {s after : Interleaved ι}

theorem Placed.coarse_queue_length (h : s.Placed) :
    s.coarse.queue.length = s.pool.queue.length := by
  obtain ⟨fds, hfds⟩ := h.requests
  simp [coarse, hfds, List.reduceOption]

/-- What is pushed is not null. -/
theorem Placed.requests_step (h : s.Placed) (t : Option ι) {act : PoolAct Nat}
    (hpush : ∀ request, act = .push request → ∃ fd, request = some fd) :
    ∃ fds : List Nat, (s.pool.effect t act).queue = fds.map some := by
  obtain ⟨fds, hfds⟩ := h.requests
  cases act with
  | push request =>
      obtain ⟨fd, rfl⟩ := hpush request rfl
      exact ⟨fds ++ [fd], by simp [Pool.effect, hfds]⟩
  | pop request => exact ⟨fds.tail, by simp [Pool.effect, hfds]⟩
  | _ => exact ⟨fds, hfds⟩

variable [DecidableEq ι]

/-- What the server sees of a step of `main` in the pool. -/
theorem coarse_main (main : MainPc) {pool : Pool (Option ι) Nat} {pc : PoolPc Nat}
    (hthreads : pool.threads = update s.pool.threads none pc) :
    coarse { outer := { s.outer with main := main }, pool := pool } =
      { s.coarse with
        main := mainAt pc main
        queue := pool.queue.reduceOption
        tasks := pool.tokens } := by
  simp [coarse, hthreads]

/-- One worker moves, and the others stay where they are. -/
theorem workerAt_update {threads threads' : Option ι → PoolPc Nat} (workers : ι → WorkerPc)
    {w : ι} {worker shows : WorkerPc} (hshows : workerAt (threads' (some w)) worker = shows)
    (hothers : ∀ v, v ≠ w → threads' (some v) = threads (some v)) :
    (fun v => workerAt (threads' (some v)) (update workers w worker v)) =
      update (fun v => workerAt (threads (some v)) (workers v)) w shows := by
  funext v
  by_cases hv : v = w
  · subst hv
    rw [update_self, update_self, hshows]
  · rw [update_of_ne hv, update_of_ne hv, hothers v hv]

/-- What it sees of a step of a worker. -/
theorem coarse_worker (w : ι) (worker : WorkerPc) {pool : Pool (Option ι) Nat} {pc : PoolPc Nat}
    (hthreads : pool.threads = update s.pool.threads (some w) pc) :
    coarse { outer := { s.outer with workers := update s.outer.workers w worker }, pool := pool } =
      { s.coarse with
        workers := update s.coarse.workers w (workerAt pc worker)
        queue := pool.queue.reduceOption
        tasks := pool.tokens } := by
  have hworkers : (fun v => workerAt (pool.threads (some v)) (update s.outer.workers w worker v)) =
      update s.coarse.workers w (workerAt pc worker) := by
    refine workerAt_update s.outer.workers (by rw [hthreads, update_self]) fun v hv => ?_
    rw [hthreads, update_of_ne (by simpa using hv)]
  have hmain : pool.threads none = s.pool.threads none := by
    rw [hthreads, update_of_ne (by simp)]
  rw [coarse, hmain]
  dsimp only
  rw [hworkers]
  rfl

theorem coarse_main_same (main : MainPc) {pool : Pool (Option ι) Nat} {pc : PoolPc Nat}
    (hthreads : pool.threads = update s.pool.threads none pc)
    (hqueue : pool.queue = s.pool.queue) (htokens : pool.tokens = s.pool.tokens)
    (hsame : mainAt pc main = s.coarse.main) :
    coarse { outer := { s.outer with main := main }, pool := pool } = s.coarse := by
  rw [coarse_main main hthreads, hsame, hqueue, htokens]
  rfl

theorem coarse_worker_same (w : ι) (worker : WorkerPc) {pool : Pool (Option ι) Nat}
    {pc : PoolPc Nat} (hthreads : pool.threads = update s.pool.threads (some w) pc)
    (hqueue : pool.queue = s.pool.queue) (htokens : pool.tokens = s.pool.tokens)
    (hsame : workerAt pc worker = s.coarse.workers w) :
    coarse { outer := { s.outer with workers := update s.outer.workers w worker }, pool := pool } =
      s.coarse := by
  rw [coarse_worker w worker hthreads, hsame, update_eq_self, hqueue, htokens]
  rfl

theorem coarse_worker_stays (w : ι) {pool : Pool (Option ι) Nat} {pc : PoolPc Nat}
    (hthreads : pool.threads = update s.pool.threads (some w) pc)
    (hqueue : pool.queue = s.pool.queue) (htokens : pool.tokens = s.pool.tokens)
    (hsame : workerAt pc (s.outer.workers w) = s.coarse.workers w) :
    coarse { s with pool := pool } = s.coarse := by
  have hstays := coarse_worker_same w (s.outer.workers w) hthreads hqueue htokens hsame
  rwa [update_eq_self] at hstays

/-- `main` moves in the pool. -/
theorem Placed.main_moved (h : s.Placed) {act : PoolAct Nat} {pc : PoolPc Nat} {main : MainPc}
    (hact : act ≠ .interrupted) (hnext : (s.pool.threads none).Next act pc)
    (hallows : s.pool.Allows MAX_REQUESTS act) (hplaced : MainPlaced pc main)
    (hpush : ∀ request, act = .push request → ∃ fd, request = some fd) :
    Placed
      { outer := { s.outer with main := main }
        pool := { s.pool.effect none act with threads := update s.pool.threads none pc } } where
  guarded := h.guarded.step ⟨hnext, hallows⟩
  balanced := h.balanced.step h.guarded (by decide) hact ⟨hnext, hallows⟩
  requests := h.requests_step none hpush
  main := by simpa using hplaced
  workers w := by simpa using h.workers w

/-- A worker moves in the pool. -/
theorem Placed.worker_moved (h : s.Placed) {w : ι} {act : PoolAct Nat} {pc : PoolPc Nat}
    {worker : WorkerPc} (hact : act ≠ .interrupted)
    (hnext : (s.pool.threads (some w)).Next act pc) (hallows : s.pool.Allows MAX_REQUESTS act)
    (hplaced : WorkerPlaced pc worker)
    (hpush : ∀ request, act = .push request → ∃ fd, request = some fd) :
    Placed
      { outer := { s.outer with workers := update s.outer.workers w worker }
        pool := { s.pool.effect (some w) act with
          threads := update s.pool.threads (some w) pc } } where
  guarded := h.guarded.step ⟨hnext, hallows⟩
  balanced := h.balanced.step h.guarded (by decide) hact ⟨hnext, hallows⟩
  requests := h.requests_step (some w) hpush
  main := by simpa using h.main
  workers v := by
    by_cases hv : v = w
    · subst hv
      simpa using hplaced
    · simpa [hv] using h.workers v

theorem Placed.worker_stays (h : s.Placed) {w : ι} {act : PoolAct Nat} {pc : PoolPc Nat}
    (hact : act ≠ .interrupted) (hnext : (s.pool.threads (some w)).Next act pc)
    (hallows : s.pool.Allows MAX_REQUESTS act) (hplaced : WorkerPlaced pc (s.outer.workers w))
    (hpush : ∀ request, act = .push request → ∃ fd, request = some fd) :
    Placed { s with
      pool := { s.pool.effect (some w) act with
        threads := update s.pool.threads (some w) pc } } := by
  have hmoved := h.worker_moved hact hnext hallows hplaced hpush
  rwa [update_eq_self] at hmoved

/-- `main` goes on in `append`. -/
theorem Placed.main_access (h : s.Placed) {act : PoolAct Nat} {pool : Pool (Option ι) Nat}
    (hact : ¬ act.Calls ∧ act ≠ .interrupted)
    (hstep : Pool.Step MAX_REQUESTS s.pool (none, act) pool) :
    Placed { s with pool := pool } ∧ Mirrors s (.access none act) { s with pool := pool } := by
  obtain @⟨_, _, pc, hnext, hallows⟩ := hstep
  obtain ⟨hplaced, hshown⟩ := h.main.next hnext hact.1
  have hcoarse : coarse { s with
      pool := { s.pool.effect none act with threads := update s.pool.threads none pc } } = _ :=
    coarse_main s.outer.main rfl
  constructor
  · refine h.main_moved hact.2 hnext hallows hplaced ?_
    rintro request rfl
    obtain ⟨fd, events, hrequest, -⟩ := hshown
    exact ⟨fd, hrequest⟩
  · cases act with
    | full =>
        obtain ⟨fd, events, hbefore, hafter⟩ := hshown
        refine Step.server ?_ trivial
        rw [hcoarse, hafter]
        exact .appendFull hbefore (h.coarse_queue_length ▸ hallows)
    | push request =>
        obtain ⟨fd, events, rfl, hbefore, hafter⟩ := hshown
        have hroom := h.guarded.knows none
        rw [hnext.pushing, PoolPc.Knows, ← h.coarse_queue_length] at hroom
        have hqueue : (s.pool.queue ++ [some fd]).reduceOption = s.coarse.queue ++ [fd] :=
          List.reduceOption_append _ _
        refine Step.server ?_ trivial
        rw [hcoarse, hafter, Pool.effect, hqueue]
        exact .append hbefore hroom
    | post =>
        obtain ⟨events, hbefore, hafter⟩ := hshown
        refine Step.server ?_ trivial
        rw [hcoarse, hafter, Pool.effect,
          if_pos (h.balanced.tokens_lt h.guarded (by decide) hnext.pending.1)]
        exact .post hbefore
    | call | ret | process | done => exact absurd trivial hact.1
    | wake | pop => exact hshown.elim
    | _ =>
        exact coarse_main_same s.outer.main rfl rfl rfl hshown

/-- A worker goes on in `run`. -/
theorem Placed.worker_access (h : s.Placed) {w : ι} {act : PoolAct Nat}
    {pool : Pool (Option ι) Nat} (hact : ¬ act.Calls ∧ act ≠ .interrupted)
    (hstep : Pool.Step MAX_REQUESTS s.pool (some w, act) pool) :
    Placed { s with pool := pool } ∧ Mirrors s (.access (some w) act) { s with pool := pool } := by
  obtain @⟨_, _, pc, hnext, hallows⟩ := hstep
  obtain ⟨fds, hfds⟩ := h.requests
  have hfront : act ≠ .front none := by
    rintro rfl
    rw [Pool.Allows, hfds] at hallows
    cases fds <;> simp at hallows
  obtain ⟨hplaced, hshown⟩ := (h.workers w).next hnext hact.1 hact.2 hfront
  have hcoarse : coarse { s with
      pool := { s.pool.effect (some w) act with
        threads := update s.pool.threads (some w) pc } } = _ :=
    (congrArg coarse (by rw [update_eq_self])).trans
      (coarse_worker w (s.outer.workers w) (s := s) rfl)
  constructor
  · refine h.worker_stays hact.2 hnext hallows hplaced ?_
    rintro request rfl
    exact hshown.elim
  · cases act with
    | wake =>
        obtain ⟨hbefore, hafter⟩ := hshown
        refine Step.server ?_ trivial
        rw [hcoarse, hafter]
        exact .wake hbefore hallows
    | empty =>
        obtain ⟨hbefore, hafter⟩ := hshown
        have hempty : s.pool.queue = [] := hallows
        refine Step.server ?_ trivial
        rw [hcoarse, hafter]
        exact .starve hbefore (by simp [coarse, hempty])
    | pop request =>
        obtain ⟨fd, rfl, hbefore, hafter⟩ := hshown
        have hhead := h.guarded.knows (some w)
        rw [hnext.popping, PoolPc.Knows] at hhead
        have hqueue : s.coarse.queue = fd :: s.pool.queue.tail.reduceOption := by
          rw [coarse, ← List.cons_head?_tail hhead]
          exact List.reduceOption_cons_of_some fd _
        refine Step.server ?_ trivial
        rw [hcoarse, hafter]
        exact .pop hbefore hqueue
    | call | ret | process | done => exact absurd trivial hact.1
    | push | post => exact hshown.elim
    | _ =>
        exact coarse_worker_stays w rfl rfl rfl hshown

omit [DecidableEq ι] in
/-- `main` is not in `append` unless it has called it. -/
theorem MainPlaced.idle {pc : PoolPc Nat} {main : MainPc} (h : MainPlaced pc main)
    (houtside : ∀ fd events, main ≠ .appending fd events) : pc = .idle := by
  cases pc with
  | idle => rfl
  | locking request | sizing request | refusing request | pushing request | pushed request
  | posting request | returning request ok =>
      cases request with
      | none => exact h.elim
      | some fd =>
          obtain ⟨events, hmain⟩ := h
          exact absurd hmain (houtside fd events)
  | _ => exact h.elim

omit [DecidableEq ι] in
/-- A worker with a request is in `process`. -/
theorem WorkerPlaced.processing {pc : PoolPc Nat} {worker : WorkerPc} (h : WorkerPlaced pc worker)
    (hworker : worker ≠ .waiting) : ∃ fd, pc = .processing fd := by
  cases pc with
  | processing fd => exact ⟨fd, rfl⟩
  | waiting | woken | testing | leaving | taking => exact absurd h hworker
  | popping request | took request | checking request =>
      cases request with
      | none => exact h.elim
      | some fd => exact absurd h hworker
  | _ => exact h.elim

/-- A step outside of the pool. -/
theorem Placed.outer (h : s.Placed) {label : Label ι} {outer : Server ι} (hlabel : ¬ label.OnPool)
    (hstep : ServerStep s.outer label outer) :
    Placed { s with outer := outer } ∧ Mirrors s (.outer label) { s with outer := outer } := by
  rcases hstep.outside hlabel with hmoves | ⟨w, hmoves⟩
  · have hidle := h.main.idle hmoves.appending
    have hbefore : s.coarse = { s.outer with
        queue := s.coarse.queue, tasks := s.coarse.tasks, workers := s.coarse.workers } := by
      simp [coarse, hidle, mainAt]
    have hafter : coarse { s with outer := outer } = { outer with
        queue := s.coarse.queue, tasks := s.coarse.tasks, workers := s.coarse.workers } := by
      simp [coarse, hidle, mainAt, hmoves.workers]
    refine ⟨⟨h.guarded, h.balanced, h.requests, ?_, fun w => ?_⟩, ?_⟩
    · rw [hidle]
      exact hmoves.posting'
    · rw [hmoves.workers]
      exact h.workers w
    · change ServerStep s.coarse label (coarse _)
      rw [hafter, hbefore]
      exact hmoves.step _ _ _
  · obtain ⟨fd, hpc⟩ := (h.workers w).processing hmoves.waiting
    have hworker : s.coarse.workers w = s.outer.workers w := by simp [coarse, hpc, workerAt]
    have hafter : coarse { s with outer := outer } = { outer with
        main := s.coarse.main
        queue := s.coarse.queue
        tasks := s.coarse.tasks
        workers := update s.coarse.workers w (outer.workers w) } := by
      have hworkers : (fun v => workerAt (s.pool.threads (some v)) (outer.workers v)) =
          update s.coarse.workers w (outer.workers w) := by
        have hshows : workerAt (s.pool.threads (some w)) (outer.workers w) = outer.workers w := by
          simp [hpc, workerAt]
        have hothers := workerAt_update s.outer.workers hshows fun _ _ => rfl
        rwa [← hmoves.workers] at hothers
      rw [coarse, hworkers, hmoves.main]
      rfl
    refine ⟨⟨h.guarded, h.balanced, h.requests, ?_, fun v => ?_⟩, ?_⟩
    · rw [hmoves.main]
      exact h.main
    · dsimp only
      by_cases hv : v = w
      · subst hv
        rw [hpc]
        exact hmoves.woken'
      · rw [hmoves.workers, update_of_ne hv]
        exact h.workers v
    · change ServerStep s.coarse label (coarse _)
      rw [hafter]
      exact hmoves.step s.coarse.main s.coarse.queue s.coarse.tasks s.coarse.workers hworker

/-- Every step keeps the threads where they belong, and is a step of the server
or nothing to it. -/
theorem Placed.step (h : s.Placed) {label : AccessLabel ι} (hstep : Step s label after) :
    Placed after ∧ Mirrors s label after := by
  cases hstep with
  | outer hlabel hstep => exact h.outer hlabel hstep
  | access hact hstep =>
      rename_i t act pool
      cases t with
      | none => exact h.main_access hact hstep
      | some w => exact h.worker_access hact hstep
  | @call fd events _ hmain hstep =>
      obtain @⟨_, _, pc, hnext, hallows⟩ := hstep
      generalize hpc : s.pool.threads none = before at hnext
      cases hnext
      refine ⟨h.main_moved (by simp) (hpc ▸ .call (some fd)) hallows ⟨events, hmain⟩ (by simp), ?_⟩
      exact coarse_main_same s.outer.main rfl rfl rfl (by simp [coarse, hpc, mainAt])
  | @ret fd events request ok _ hmain hstep =>
      obtain @⟨_, _, pc, hnext, hallows⟩ := hstep
      generalize hpc : s.pool.threads none = before at hnext
      cases hnext
      refine ⟨h.main_moved (by simp) (hpc ▸ .ret request ok) hallows (by simp [MainPlaced])
        (by simp), ?_⟩
      exact coarse_main_same (.loop events) rfl rfl rfl (by simp [coarse, hpc, mainAt, hmain])
  | @process w fd _ hstep =>
      obtain @⟨_, _, pc, hnext, hallows⟩ := hstep
      generalize hpc : s.pool.threads (some w) = before at hnext
      cases hnext
      refine ⟨h.worker_moved (by simp) (hpc ▸ .process fd) hallows (by simp [WorkerPlaced])
        (by simp), ?_⟩
      exact coarse_worker_same w (.processing fd) rfl rfl rfl (by simp [coarse, hpc, workerAt])
  | @done w fd _ hworker hstep =>
      obtain @⟨_, _, pc, hnext, hallows⟩ := hstep
      generalize hpc : s.pool.threads (some w) = before at hnext
      cases hnext
      refine ⟨h.worker_stays (by simp) (hpc ▸ .done fd) hallows ?_ (by simp), ?_⟩
      · simp [WorkerPlaced, hworker]
      · exact coarse_worker_stays w rfl rfl rfl (by simp [coarse, hpc, workerAt])

omit [DecidableEq ι] in
theorem Starts.placed (h : Starts s) : s.Placed where
  guarded := h.pool.guarded
  balanced := h.pool.balanced
  requests := ⟨[], h.pool.queue⟩
  main := by
    rw [h.main, h.outer.main]
    exact fun events => by simp
  workers w := by
    rw [h.workers, h.outer.workers]
    rfl

omit [DecidableEq ι] in
theorem Starts.coarse (h : Starts s) : Webserver.Starts s.coarse where
  sockfd := h.outer.sockfd
  fileAddress := h.outer.fileAddress
  userCount := h.outer.userCount
  fds := h.outer.fds
  epoll := h.outer.epoll
  main := by simp [Interleaved.coarse, h.main, mainAt, h.outer.main]
  queue := by simp [Interleaved.coarse, h.pool.queue]
  tasks := h.pool.tokens
  workers w := by simp [Interleaved.coarse, h.workers, workerAt, h.outer.workers]
  calls := h.outer.calls

theorem placed (hreach : (interleaved ι).Reachable s) : s.Placed := by
  apply hreach.invariant
  · exact fun _ hstart => Starts.placed hstart
  · exact fun _ _ _ hplaced hstep => (hplaced.step hstep).1

variable (ι) in
/-- Access by access the server does nothing that it does not do with whole
critical sections. -/
theorem refines :
    (interleaved ι).Refines (server ι) coarse fun _ label => shown label where
  start := Starts.coarse
  shows := by
    intro before label after act hreach hstep hshown
    have hmirrors := ((placed hreach).step hstep).2
    rw [Mirrors, hshown] at hmirrors
    exact hmirrors
  silent := by
    intro before label after hreach hstep hshown
    have hmirrors := ((placed hreach).step hstep).2
    rw [Mirrors, hshown] at hmirrors
    exact hmirrors

end Interleaved

end LinuxLearning.Webserver
