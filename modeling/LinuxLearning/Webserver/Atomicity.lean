/-
Critical sections may be taken for single steps.  From a state in which nobody
holds the lock, a step of the server is carried out access by access, and the
lock is given back; so the server shows the same, whichever way its steps are
counted.
-/
import LinuxLearning.Webserver.Accesses

namespace LinuxLearning.Webserver

universe u v

open Function TransitionSystem

/-- What an access does to lock, queue and semaphore does not depend on where
the threads are. -/
theorem Pool.effect_threads {τ : Type u} {α : Type v} (p : Pool τ α) (threads : τ → PoolPc α)
    (t : τ) (act : PoolAct α) :
    ({ p with threads := threads } : Pool τ α).effect t act =
      { p.effect t act with threads := threads } := by
  cases act <;> rfl

namespace Interleaved

variable {ι : Type u}

/-- Where `main` stands between two steps of the server. -/
def MainRests : PoolPc Nat → Prop
  | .idle | .posting _ => True
  | _ => False

/-- Where a worker stands. -/
def WorkerRests : PoolPc Nat → WorkerPc → Prop
  | .waiting, _ | .woken, _ => True
  | .processing _, worker => worker ≠ .waiting
  | _, _ => False

/-- Nobody is in a critical section. -/
structure AtRest (s : Interleaved ι) : Prop where
  holder : s.pool.holder = none
  main : MainRests (s.pool.threads none)
  workers : ∀ w, WorkerRests (s.pool.threads (some w)) (s.outer.workers w)

variable [DecidableEq ι] {s : Interleaved ι} {acts : List (Server ι × Label ι)}

/-- The state in which the pool is `p`, and thread `t` is at `pc`. -/
def moved (s : Interleaved ι) (t : Option ι) (p : Pool (Option ι) Nat) (pc : PoolPc Nat) :
    Interleaved ι :=
  { s with pool := { p with threads := update s.pool.threads t pc } }

theorem moved_self (s : Interleaved ι) (t : Option ι) :
    s.moved t s.pool (s.pool.threads t) = s := by
  rw [moved, update_eq_self]

theorem moved_pool_step {t : Option ι} {p : Pool (Option ι) Nat} {pc pc' : PoolPc Nat}
    {act : PoolAct Nat} (hnext : pc.Next act pc') (hallows : p.Allows MAX_REQUESTS act) :
    Pool.Step MAX_REQUESTS (s.moved t p pc).pool (t, act)
      (s.moved t (p.effect t act) pc').pool := by
  have hstep : Pool.Step MAX_REQUESTS (s.moved t p pc).pool (t, act)
      { (s.moved t p pc).pool.effect t act with
        threads := update (s.moved t p pc).pool.threads t pc' } :=
    .mk (by simpa [moved] using hnext) (by cases act <;> exact hallows)
  simpa only [moved, Pool.effect_threads, update_idem] using hstep

/-- A thread makes an access. -/
theorem moved_step {t : Option ι} {p : Pool (Option ι) Nat} {pc pc' : PoolPc Nat}
    {act : PoolAct Nat} (hnext : pc.Next act pc') (hallows : p.Allows MAX_REQUESTS act)
    (hact : ¬ act.Calls ∧ act ≠ .interrupted) :
    Step (s.moved t p pc) (.access t act) (s.moved t (p.effect t act) pc') :=
  .access hact (moved_pool_step hnext hallows)

theorem AtRest.main_moved (h : s.AtRest) {p : Pool (Option ι) Nat} {pc : PoolPc Nat}
    (hholder : p.holder = none) (hpc : MainRests pc) : (s.moved none p pc).AtRest where
  holder := hholder
  main := by simpa [moved] using hpc
  workers w := by simpa [moved] using h.workers w

/-- One worker moves, and stands where it may. -/
theorem AtRest.worker (h : s.AtRest) {after : Interleaved ι} (w : ι)
    (hholder : after.pool.holder = none) (hmain : after.pool.threads none = s.pool.threads none)
    (hworker : WorkerRests (after.pool.threads (some w)) (after.outer.workers w))
    (hothers : ∀ v, v ≠ w → after.pool.threads (some v) = s.pool.threads (some v) ∧
      after.outer.workers v = s.outer.workers v) : after.AtRest where
  holder := hholder
  main := hmain ▸ h.main
  workers v := by
    by_cases hv : v = w
    · exact hv ▸ hworker
    · obtain ⟨hthreads, hworkers⟩ := hothers v hv
      rw [hthreads, hworkers]
      exact h.workers v

theorem AtRest.worker_moved (h : s.AtRest) {w : ι} {p : Pool (Option ι) Nat} {pc : PoolPc Nat}
    (hholder : p.holder = none) (hpc : WorkerRests pc (s.outer.workers w)) :
    (s.moved (some w) p pc).AtRest :=
  h.worker w hholder (by simp [moved]) (by simpa [moved] using hpc)
    fun v hv => by simp [moved, hv]

/-- Some run access by access to `s` shows these steps of the server. -/
abbrev Exhibits (acts : List (Server ι × Label ι)) (s : Interleaved ι) : Prop :=
  (interleaved ι).Exhibits coarse (fun _ label => shown label) acts s

/-- What the server sees of the state that a sequence of accesses leads to. -/
theorem coarse_moved_main (main : MainPc) (p : Pool (Option ι) Nat) (pc : PoolPc Nat) :
    coarse { outer := { s.outer with main := main }, pool := (s.moved none p pc).pool } =
      { s.coarse with
        main := mainAt pc main, queue := p.queue.reduceOption, tasks := p.tokens } :=
  coarse_main main rfl

theorem coarse_moved_worker (w : ι) (worker : WorkerPc) (p : Pool (Option ι) Nat)
    (pc : PoolPc Nat) :
    coarse { outer := { s.outer with workers := update s.outer.workers w worker }
             pool := (s.moved (some w) p pc).pool } =
      { s.coarse with
        workers := update s.coarse.workers w (workerAt pc worker)
        queue := p.queue.reduceOption
        tasks := p.tokens } :=
  coarse_worker w worker rfl

theorem coarse_moved (w : ι) (p : Pool (Option ι) Nat) (pc : PoolPc Nat) :
    coarse (s.moved (some w) p pc) =
      { s.coarse with
        workers := update s.coarse.workers w (workerAt pc (s.outer.workers w))
        queue := p.queue.reduceOption
        tasks := p.tokens } := by
  have hcoarse := coarse_moved_worker (s := s) w (s.outer.workers w) p pc
  rwa [update_eq_self] at hcoarse

section Sequences

variable {t : Option ι} {p : Pool (Option ι) Nat} {pc pc' : PoolPc Nat} {act : PoolAct Nat}

/-- The next access, that the server does not see. -/
theorem silently (h : Exhibits acts (s.moved t p pc)) (hnext : pc.Next act pc')
    (hallows : p.Allows MAX_REQUESTS act) (hact : ¬ act.Calls ∧ act ≠ .interrupted)
    (hshown : shown (AccessLabel.access t act) = none) :
    Exhibits acts (s.moved t (p.effect t act) pc') :=
  h.silent (moved_step hnext hallows hact) hshown

/-- The access that is the step of the server. -/
theorem visibly (h : Exhibits acts (s.moved t p pc)) (hnext : pc.Next act pc')
    (hallows : p.Allows MAX_REQUESTS act) (hact : ¬ act.Calls ∧ act ≠ .interrupted)
    {label : Label ι} (hshown : shown (AccessLabel.access t act) = some label)
    (hsame : coarse (s.moved t p pc) = s.coarse) :
    Exhibits (acts ++ [(s.coarse, label)]) (s.moved t (p.effect t act) pc') :=
  hsame ▸ h.shows (moved_step hnext hallows hact) hshown

/-- The first access of a sequence. -/
theorem moved_start (h : Exhibits acts s) (hpc : s.pool.threads t = pc) :
    Exhibits acts (s.moved t s.pool pc) := by
  rw [← hpc, moved_self]
  exact h

end Sequences

/-- `append` with room in the queue, up to its `post`. -/
theorem perform_append (h : Exhibits acts s) (hrest : s.AtRest)
    (hpc : s.pool.threads none = .idle) {fd : Nat} {events : List Event}
    (hmain : s.outer.main = .appending fd events) (hroom : s.pool.queue.length ≤ MAX_REQUESTS) :
    ∃ after, Exhibits (acts ++ [(s.coarse, .append)]) after ∧ after.AtRest ∧
      after.coarse =
        { s.coarse with main := .posting events, queue := s.coarse.queue ++ [fd] } := by
  have hcall : Exhibits acts (s.moved none s.pool (.locking (some fd))) :=
    h.silent (.call hmain (.mk (hpc ▸ .call (some fd)) trivial)) rfl
  have hlock := silently hcall (.lock _) hrest.holder ⟨id, by simp⟩ rfl
  have hsize := silently hlock (.room _) hroom ⟨id, by simp⟩ rfl
  have hpush := visibly hsize (.push _) trivial ⟨id, by simp⟩ rfl
    (coarse_main_same s.outer.main rfl rfl rfl (by simp [coarse, hpc, mainAt]))
  have hunlock := silently hpush (.unlockPushed _) trivial ⟨id, by simp⟩ rfl
  refine ⟨_, hunlock, hrest.main_moved rfl trivial, ?_⟩
  have hqueue : (s.pool.queue ++ [some fd]).reduceOption = s.coarse.queue ++ [fd] :=
    List.reduceOption_append _ _
  refine (coarse_moved_main s.outer.main _ _).trans ?_
  simp only [hmain, mainAt, Pool.effect, hqueue]
  rfl

/-- `append` on a full queue, up to its return. -/
theorem perform_refusal (h : Exhibits acts s) (hrest : s.AtRest)
    (hpc : s.pool.threads none = .idle) {fd : Nat} {events : List Event}
    (hmain : s.outer.main = .appending fd events) (hfull : s.pool.queue.length > MAX_REQUESTS) :
    ∃ after, Exhibits (acts ++ [(s.coarse, .append)]) after ∧ after.AtRest ∧
      after.coarse = { s.coarse with main := .loop events } := by
  have hcall : Exhibits acts (s.moved none s.pool (.locking (some fd))) :=
    h.silent (.call hmain (.mk (hpc ▸ .call (some fd)) trivial)) rfl
  have hlock := silently hcall (.lock _) hrest.holder ⟨id, by simp⟩ rfl
  have hsize := visibly hlock (.full _) hfull ⟨id, by simp⟩ rfl
    (coarse_main_same s.outer.main rfl rfl rfl (by simp [coarse, hpc, mainAt]))
  have hunlock := silently hsize (.unlockFull _) trivial ⟨id, by simp⟩ rfl
  have hret := hunlock.silent
    (.ret hmain (moved_pool_step (PoolPc.Next.ret _ false) trivial)) rfl
  refine ⟨_, hret, ⟨rfl, by simp [moved, MainRests], fun w => ?_⟩, ?_⟩
  · simpa [moved] using hrest.workers w
  · exact coarse_moved_main (s := s) (.loop events) _ _

/-- `post`, and the return of `append`. -/
theorem perform_post (h : Exhibits acts s) (hrest : s.AtRest) {fd : Nat}
    (hpc : s.pool.threads none = .posting (some fd)) {events : List Event}
    (hmain : s.outer.main = .appending fd events) :
    ∃ after, Exhibits (acts ++ [(s.coarse, .post)]) after ∧ after.AtRest ∧
      after.coarse = { s.coarse with main := .loop events, tasks := s.coarse.tasks + 1 } := by
  have hplaced := placed h.reachable
  have hroom := hplaced.balanced.tokens_lt hplaced.guarded (by decide) (t := none)
    (by rw [hpc]; exact Or.inl trivial)
  have hpost := visibly (moved_start h hpc) (.post _) trivial ⟨id, by simp⟩ rfl
    (by rw [← hpc, moved_self])
  have hret := hpost.silent
    (.ret hmain (moved_pool_step (PoolPc.Next.ret _ true) trivial)) rfl
  refine ⟨_, hret, ⟨hrest.holder, by simp [moved, MainRests], fun w => ?_⟩, ?_⟩
  · simpa [moved] using hrest.workers w
  · refine (coarse_moved_main (s := s) (.loop events) _ _).trans ?_
    simp only [Pool.effect, if_pos hroom]
    rfl

/-- `wait`. -/
theorem perform_wake (h : Exhibits acts s) (hrest : s.AtRest) {w : ι}
    (hpc : s.pool.threads (some w) = .waiting) (htask : 0 < s.pool.tokens) :
    ∃ after, Exhibits (acts ++ [(s.coarse, .wake w)]) after ∧ after.AtRest ∧
      after.coarse =
        { s.coarse with
          workers := update s.coarse.workers w .woken, tasks := s.coarse.tasks - 1 } := by
  have hwake := visibly (moved_start h hpc) .wake htask ⟨id, by simp⟩ rfl
    (by rw [← hpc, moved_self])
  refine ⟨_, hwake, hrest.worker_moved hrest.holder trivial, ?_⟩
  exact coarse_moved w _ _

/-- A worker that finds no request goes back to wait. -/
theorem perform_starve (h : Exhibits acts s) (hrest : s.AtRest) {w : ι}
    (hpc : s.pool.threads (some w) = .woken) (hempty : s.pool.queue = []) :
    ∃ after, Exhibits (acts ++ [(s.coarse, .starve w)]) after ∧ after.AtRest ∧
      after.coarse = { s.coarse with workers := update s.coarse.workers w .waiting } := by
  have hworker : s.outer.workers w = .waiting := by
    have hplaced := (placed h.reachable).workers w
    rwa [hpc] at hplaced
  have hlock := silently (moved_start h hpc) .lockWorker hrest.holder ⟨id, by simp⟩ rfl
  have hempty' := visibly hlock .empty hempty ⟨id, by simp⟩ rfl
    (coarse_worker_stays w rfl rfl rfl (by simp [coarse, hpc, workerAt]))
  have hunlock := silently hempty' .unlockEmpty trivial ⟨id, by simp⟩ rfl
  refine ⟨_, hunlock, hrest.worker_moved rfl trivial, ?_⟩
  refine (coarse_moved w _ _).trans ?_
  rw [hworker]
  rfl

/-- A worker takes a request and calls `process`. -/
theorem perform_pop (h : Exhibits acts s) (hrest : s.AtRest) {w : ι}
    (hpc : s.pool.threads (some w) = .woken) {fd : Nat} {rest : List Nat}
    (hqueue : s.coarse.queue = fd :: rest) :
    ∃ after, Exhibits (acts ++ [(s.coarse, .pop w)]) after ∧ after.AtRest ∧
      after.coarse =
        { s.coarse with
          workers := update s.coarse.workers w (.processing fd), queue := rest } := by
  obtain ⟨fds, hfds⟩ := (placed h.reachable).requests
  have hfds' : s.pool.queue = some fd :: rest.map some := by
    have hsame : s.coarse.queue = fds := by simp [coarse, hfds, List.reduceOption]
    rw [hfds, ← hsame, hqueue]
    rfl
  have hlock := silently (moved_start h hpc) .lockWorker hrest.holder ⟨id, by simp⟩ rfl
  have hsome := silently hlock .nonempty (by simp [Pool.Allows, Pool.effect, hfds'])
    ⟨id, by simp⟩ rfl
  have hfront := silently hsome (.front (some fd)) (by simp [Pool.Allows, Pool.effect, hfds'])
    ⟨id, by simp⟩ rfl
  have hpop := visibly hfront (.pop _) trivial ⟨id, by simp⟩ rfl
    (coarse_worker_stays w rfl rfl rfl (by simp [coarse, hpc, workerAt]))
  have hunlock := silently hpop (.unlockTook _) trivial ⟨id, by simp⟩ rfl
  have hprocess := hunlock.silent (.process (moved_pool_step (.process fd) trivial)) rfl
  refine ⟨_, hprocess, hrest.worker w rfl ?_ ?_ fun v hv => ?_, ?_⟩
  · simp [moved]
  · simp [moved, WorkerRests]
  · simp [moved, hv]
  · have hrest' : (s.pool.queue.tail).reduceOption = rest := by
      rw [hfds', List.tail_cons]
      simp [List.reduceOption]
    refine (coarse_moved_worker (s := s) w (.processing fd) _ _).trans ?_
    rw [← hrest']
    rfl

omit [DecidableEq ι] in
theorem MainRests.cases {pc : PoolPc Nat} {main : MainPc} (h : MainRests pc)
    (hplaced : MainPlaced pc main) :
    (pc = .idle ∧ mainAt pc main = main) ∨
      ∃ fd events, pc = .posting (some fd) ∧ main = .appending fd events ∧
        mainAt pc main = .posting events := by
  cases pc with
  | idle => exact Or.inl ⟨rfl, rfl⟩
  | posting request =>
      cases request with
      | none => exact hplaced.elim
      | some fd =>
          obtain ⟨events, rfl⟩ := hplaced
          exact Or.inr ⟨fd, events, rfl, rfl, rfl⟩
  | _ => exact h.elim

omit [DecidableEq ι] in
theorem WorkerRests.cases {pc : PoolPc Nat} {worker : WorkerPc} (h : WorkerRests pc worker)
    (hplaced : WorkerPlaced pc worker) :
    (pc = .waiting ∧ workerAt pc worker = .waiting) ∨
      (pc = .woken ∧ workerAt pc worker = .woken) ∨
      ∃ fd, pc = .processing fd ∧ workerAt pc worker = worker ∧
        worker ≠ .waiting ∧ worker ≠ .woken := by
  cases pc with
  | waiting => exact Or.inl ⟨rfl, hplaced⟩
  | woken => exact Or.inr (Or.inl ⟨rfl, rfl⟩)
  | processing fd => exact Or.inr (Or.inr ⟨fd, rfl, rfl, h, hplaced⟩)
  | _ => exact h.elim

/-- A step of `main` outside of `append`. -/
theorem perform_main (h : Exhibits acts s) (hrest : s.AtRest) {label : Label ι}
    (hlabel : ¬ label.OnPool) {a : Server ι} (hmoves : MainMoves s.coarse label a) :
    ∃ after, Exhibits (acts ++ [(s.coarse, label)]) after ∧ after.AtRest ∧ after.coarse = a := by
  have hidle : s.pool.threads none = .idle := by
    rcases hrest.main.cases (placed h.reachable).main with ⟨hidle, -⟩ | ⟨fd, events, -, -, hmain⟩
    · exact hidle
    · exact absurd hmain (hmoves.posting events)
  have hsame : { s.coarse with
      queue := s.outer.queue, tasks := s.outer.tasks, workers := s.outer.workers } = s.outer := by
    simp [coarse, hidle, mainAt]
  have houter := hmoves.step s.outer.queue s.outer.tasks s.outer.workers
  rw [hsame] at houter
  refine ⟨_, h.shows (.outer hlabel houter) rfl, ⟨hrest.holder, hrest.main, hrest.workers⟩, ?_⟩
  have hqueue : s.pool.queue.reduceOption = a.queue := hmoves.queue.symm
  have htasks : s.pool.tokens = a.tasks := hmoves.tasks.symm
  have hworkers : (fun w => workerAt (s.pool.threads (some w)) (s.outer.workers w)) = a.workers :=
    hmoves.workers.symm
  simp [coarse, hidle, mainAt, hqueue, htasks, hworkers]

/-- A step of a worker in `process` is one of the server around the pool. -/
theorem outer_of_worker {w : ι} {fd : Nat} {label : Label ι} {a : Server ι}
    (hpc : s.pool.threads (some w) = .processing fd) (hmoves : WorkerMoves w s.coarse label a) :
    ∃ outer, ServerStep s.outer label outer ∧
      outer.workers = update s.outer.workers w (a.workers w) ∧
      coarse { s with outer := outer } = a := by
  have hworker : s.outer.workers w = s.coarse.workers w := by simp [coarse, hpc, workerAt]
  refine ⟨_, hmoves.step s.outer.main s.outer.queue s.outer.tasks s.outer.workers hworker, rfl, ?_⟩
  have hworkers : (fun v => workerAt (s.pool.threads (some v))
      (update s.outer.workers w (a.workers w) v)) = a.workers := by
    have hshows : workerAt (s.pool.threads (some w)) (a.workers w) = a.workers w := by
      simp [hpc, workerAt]
    exact (workerAt_update s.outer.workers hshows fun _ _ => rfl).trans hmoves.workers.symm
  have hmain : mainAt (s.pool.threads none) s.outer.main = a.main := hmoves.main.symm
  have hqueue : s.pool.queue.reduceOption = a.queue := hmoves.queue.symm
  have htasks : s.pool.tokens = a.tasks := hmoves.tasks.symm
  rw [coarse]
  dsimp only
  rw [hworkers, hmain, hqueue, htasks]

/-- A step of a worker with its request; one that has armed its descriptor
returns to its wait. -/
theorem perform_worker (h : Exhibits acts s) (hrest : s.AtRest) {label : Label ι}
    (hlabel : ¬ label.OnPool) {w : ι} {a : Server ι} (hmoves : WorkerMoves w s.coarse label a) :
    ∃ after, Exhibits (acts ++ [(s.coarse, label)]) after ∧ after.AtRest ∧ after.coarse = a := by
  obtain ⟨fd, hpc⟩ : ∃ fd, s.pool.threads (some w) = .processing fd := by
    rcases (hrest.workers w).cases ((placed h.reachable).workers w) with
      ⟨-, hwaiting⟩ | ⟨-, hwoken⟩ | ⟨fd, hpc, -⟩
    · exact absurd hwaiting hmoves.waiting
    · exact absurd hwoken hmoves.woken
    · exact ⟨fd, hpc⟩
  obtain ⟨outer, houter, hworkers, hcoarse⟩ := outer_of_worker hpc hmoves
  have hshows : Exhibits (acts ++ [(s.coarse, label)]) { s with outer := outer } :=
    h.shows (.outer hlabel houter) rfl
  by_cases hback : a.workers w = .waiting
  · have hdone : Step { s with outer := outer } (.access (some w) (.done fd)) _ :=
      .done (by rw [hworkers, update_self, hback])
        (.mk (show (s.pool.threads (some w)).Next _ .waiting by rw [hpc]; exact .done fd) trivial)
    refine ⟨_, hshows.silent hdone rfl, hrest.worker w hrest.holder ?_ ?_ fun v hv => ?_, ?_⟩
    · simp
    · simp [WorkerRests]
    · simp [hv, hworkers]
    · exact ((refines ι).silent hshows.reachable hdone rfl).trans hcoarse
  · refine ⟨_, hshows, hrest.worker w hrest.holder rfl ?_ fun v hv => ⟨rfl, ?_⟩, hcoarse⟩
    · simpa [hpc, hworkers, WorkerRests] using hback
    · simp [hv, hworkers]

variable (ι) in
/-- Whatever the server does it does access by access. -/
theorem performs :
    (interleaved ι).Performs (server ι) coarse (fun _ label => shown label) AtRest where
  start := by
    intro a hstart
    refine ⟨⟨a, ⟨none, [], 0, fun t => t.elim .idle fun _ => .waiting⟩⟩,
      ⟨hstart, ⟨rfl, rfl, rfl, fun t => ?_⟩, rfl, fun _ => rfl⟩,
      ⟨rfl, trivial, fun _ => trivial⟩, ?_⟩
    · cases t with
      | none => exact Or.inl rfl
      | some w => exact Or.inr rfl
    · simp [coarse, mainAt, workerAt, ← hstart.queue, ← hstart.tasks]
  performs := by
    intro acts s act a h hrest hstep
    have hplaced := placed h.reachable
    by_cases hlabel : act.OnPool
    · replace hstep := (serverStep_iff (.of_onPool hlabel)).mp hstep
      have hmain := hrest.main.cases hplaced.main
      have hworkers := fun w => (hrest.workers w).cases (hplaced.workers w)
      cases hstep with
      | @append fd events hat hroom =>
          rcases hmain with ⟨hpc, hsame⟩ | ⟨_, _, -, -, hposting⟩
          · exact perform_append h hrest hpc (hsame.symm.trans hat)
              (hplaced.coarse_queue_length ▸ hroom)
          · cases hposting.symm.trans hat
      | @appendFull fd events hat hfull =>
          rcases hmain with ⟨hpc, hsame⟩ | ⟨_, _, -, -, hposting⟩
          · exact perform_refusal h hrest hpc (hsame.symm.trans hat)
              (hplaced.coarse_queue_length ▸ hfull)
          · cases hposting.symm.trans hat
      | @post events hat =>
          rcases hmain with ⟨hpc, hsame⟩ | ⟨fd, events', hpc, hcall, hposting⟩
          · have hidle := hplaced.main
            rw [hpc] at hidle
            exact absurd (hsame.symm.trans hat) (hidle events)
          · cases hposting.symm.trans hat
            exact perform_post h hrest hpc hcall
      | @wake w hat htask =>
          rcases hworkers w with ⟨hpc, -⟩ | ⟨-, hwoken⟩ | ⟨_, -, hsame, hwaiting, -⟩
          · exact perform_wake h hrest hpc htask
          · cases hwoken.symm.trans hat
          · exact absurd (hsame.symm.trans hat) hwaiting
      | @starve w hat hempty =>
          rcases hworkers w with ⟨-, hwaiting⟩ | ⟨hpc, -⟩ | ⟨_, -, hsame, -, hwoken⟩
          · cases hwaiting.symm.trans hat
          · have hnone : s.pool.queue = [] := by
              rw [← List.length_eq_zero_iff, ← hplaced.coarse_queue_length, hempty, List.length_nil]
            exact perform_starve h hrest hpc hnone
          · exact absurd (hsame.symm.trans hat) hwoken
      | @pop w fd rest hat hqueue =>
          rcases hworkers w with ⟨-, hwaiting⟩ | ⟨hpc, -⟩ | ⟨_, -, hsame, -, hwoken⟩
          · cases hwaiting.symm.trans hat
          · exact perform_pop h hrest hpc hqueue
          · exact absurd (hsame.symm.trans hat) hwoken
      | _ => exact hlabel.elim
    · rcases hstep.outside hlabel with hmoves | ⟨w, hmoves⟩
      · exact perform_main h hrest hlabel hmoves
      · exact perform_worker h hrest hlabel hmoves

end Interleaved

/-- The server with its critical sections as single steps and the server access
by access have the same runs: every interleaving of the accesses shows a run of
`server`, and every run of `server` is shown by one. -/
theorem accesses_atomic {ι : Type u} [DecidableEq ι] (acts : List (Server ι × Label ι))
    (a : Server ι) :
    (server ι).Run acts a ↔ ∃ s, Interleaved.Exhibits acts s ∧ s.coarse = a :=
  (Interleaved.refines ι).run_iff (Interleaved.performs ι) acts a

end LinuxLearning.Webserver
