/-
The life of a thread pool: its constructor starts detached workers and may
throw behind any of them, its destructor sets `m_stop` and returns.  Neither
waits for a worker, so the pool is dead for those alone that have returned from
`run` by themselves.
-/
import LinuxLearning.Webserver.ThreadPool

namespace LinuxLearning.Webserver

universe u v

/-- What a thread is to the pool: one that calls `append`, a worker that is yet
to be created, one about to test `m_stop`, one in the body of the loop of
`run`, or one that has returned from it. -/
inductive Stage where
  | client | absent | looping | inside | returned
deriving DecidableEq

/-- Where the constructor and the destructor are. -/
inductive LifePhase where
  | entering
  | creating (i : Nat)
  | detaching (i : Nat)
  | thrown
  | built
  | deleting
  | destroyed
deriving DecidableEq

/-- The pool, its `m_stop`, and how far its life has gone. -/
structure Lifetime (τ : Type v) (α : Type u) where
  pool : Pool τ α
  stop : Bool
  phase : LifePhase
  stage : τ → Stage

inductive LifeLabel (τ : Type v) (α : Type u) where
  | reject
  | noMemory
  | allocate
  | create (t : τ)
  | createFails
  | detach
  | detachFails
  | built
  | deleteThreads
  | setStop
  | readStop (t : τ)
  | work (t : τ) (act : PoolAct α)

/-- The constructor throws, or the destructor returns. -/
def LifeLabel.Ends {τ : Type v} {α : Type u} : LifeLabel τ α → Prop
  | .reject | .noMemory | .createFails | .detachFails | .setStop => True
  | _ => False

/-- A thread is back at the head of the loop of `run`. -/
def PoolPc.isWaiting {α : Type u} : PoolPc α → Bool
  | .waiting => true
  | _ => false

theorem PoolPc.isWaiting_iff {α : Type u} {pc : PoolPc α} :
    pc.isWaiting = true ↔ pc = .waiting := by
  cases pc <;> simp [isWaiting]

/-- The access reads or writes `m_queuestat`, `m_queuelocker` or
`m_workqueue`. -/
def PoolAct.OnPool {α : Type u} : PoolAct α → Prop
  | .call _ | .ret _ _ | .drop | .process _ | .done _ => False
  | _ => True

variable {τ : Type v} {α : Type u}

/-- In a critical section every step is an access. -/
theorem PoolPc.Next.onPool {α : Type u} {pc pc' : PoolPc α} {act : PoolAct α}
    (h : pc.Next act pc') (hcritical : pc.Critical) : act.OnPool := by
  cases h <;> trivial

/-- A worker reads `m_stop` or another member of the pool. -/
def LifeLabel.Touches (s : Lifetime τ α) : LifeLabel τ α → Prop
  | .readStop _ => True
  | .work t act => s.stage t ≠ .client ∧ act.OnPool
  | _ => False

namespace Lifetime

/-- Every worker that was started has returned from `run`. -/
def Gone (s : Lifetime τ α) : Prop := ∀ t, s.stage t ≠ .looping ∧ s.stage t ≠ .inside

/-- The constructor has thrown, or the destructor has returned. -/
def Over (s : Lifetime τ α) : Prop := s.phase = .thrown ∨ s.phase = .destroyed

open Function

variable [DecidableEq τ]

/-- One step of the constructor, the destructor or a thread.  `m_stop` is not
initialised, and members that have been destroyed still answer. -/
inductive Step (threadNumber maxRequests : Int) (s : Lifetime τ α) :
    LifeLabel τ α → Lifetime τ α → Prop
  | reject (hphase : s.phase = .entering) (hbad : threadNumber ≤ 0 ∨ maxRequests ≤ 0) :
      Step threadNumber maxRequests s .reject { s with phase := .thrown }
  | noMemory (hphase : s.phase = .entering) (hgood : 0 < threadNumber ∧ 0 < maxRequests) :
      Step threadNumber maxRequests s .noMemory { s with phase := .thrown }
  | allocate (hphase : s.phase = .entering) (hgood : 0 < threadNumber ∧ 0 < maxRequests) :
      Step threadNumber maxRequests s .allocate { s with phase := .creating 0 }
  | create {i : Nat} {t : τ} (hphase : s.phase = .creating i) (hi : i < threadNumber)
      (habsent : s.stage t = .absent) :
      Step threadNumber maxRequests s (.create t)
        { s with phase := .detaching i, stage := update s.stage t .looping }
  | createFails {i : Nat} (hphase : s.phase = .creating i) (hi : i < threadNumber) :
      Step threadNumber maxRequests s .createFails { s with phase := .thrown }
  | detach {i : Nat} (hphase : s.phase = .detaching i) :
      Step threadNumber maxRequests s .detach { s with phase := .creating (i + 1) }
  | detachFails {i : Nat} (hphase : s.phase = .detaching i) :
      Step threadNumber maxRequests s .detachFails { s with phase := .thrown }
  | built {i : Nat} (hphase : s.phase = .creating i) (hi : threadNumber ≤ i) :
      Step threadNumber maxRequests s .built { s with phase := .built }
  -- a pool is destroyed when nobody calls `append`
  | deleteThreads (hphase : s.phase = .built)
      (hidle : ∀ t, s.stage t = .client → s.pool.threads t = .idle) :
      Step threadNumber maxRequests s .deleteThreads { s with phase := .deleting }
  | setStop (hphase : s.phase = .deleting) :
      Step threadNumber maxRequests s .setStop { s with stop := true, phase := .destroyed }
  | readStop {t : τ} (hstage : s.stage t = .looping) :
      Step threadNumber maxRequests s (.readStop t)
        { s with stage := update s.stage t (if s.stop then .returned else .inside) }
  | work {t : τ} {act : PoolAct α} {after : Pool τ α}
      (hstage : s.stage t = .inside ∨ s.stage t = .client ∧ s.phase = .built)
      (hstep : Pool.Step maxRequests.toNat s.pool (t, act) after) :
      Step threadNumber maxRequests s (.work t act)
        { s with
          pool := after
          stage := if (after.threads t).isWaiting then update s.stage t .looping else s.stage }

/-- Before the constructor: the workers that it may create are to begin with
the loop, and `m_stop` is anything. -/
structure Starts (s : Lifetime τ α) : Prop where
  pool : s.pool.Starts
  phase : s.phase = .entering
  stage : ∀ t, (s.stage t = .client ∧ s.pool.threads t = .idle) ∨
    (s.stage t = .absent ∧ s.pool.threads t = .waiting)

end Lifetime

/-- A pool made with these arguments, from its constructor on. -/
def poolLife (τ : Type v) (α : Type u) [DecidableEq τ] (threadNumber maxRequests : Int) :
    TransitionSystem (Lifetime τ α) (LifeLabel τ α) where
  start := Lifetime.Starts
  step s label after := Lifetime.Step threadNumber maxRequests s label after

namespace Lifetime

open Function

/-- Where a thread of the stage can be: workers outside the body of the loop
are at its head, and nobody calls `append` but on a pool that has been built. -/
def Placed (phase : LifePhase) (pc : PoolPc α) : Stage → Prop
  | .inside => pc.Worker
  | .client => ¬ pc.Worker ∧ (phase ≠ .built → pc = .idle)
  | .absent | .looping | .returned => pc = .waiting

/-- The invariant of the life of a pool. -/
structure Sane (maxRequests : Nat) (s : Lifetime τ α) : Prop where
  guarded : s.pool.Guarded maxRequests
  placed : ∀ t, Placed s.phase (s.pool.threads t) (s.stage t)

variable {maxRequests : Nat} {s : Lifetime τ α}

theorem Starts.sane (h : s.Starts) : s.Sane maxRequests where
  guarded := h.pool.guarded
  placed t := by
    rcases h.stage t with ⟨hstage, hidle⟩ | ⟨hstage, hwaiting⟩
    · rw [hstage, hidle]
      exact ⟨id, fun _ => rfl⟩
    · rw [hstage, hwaiting]
      rfl

/-- The constructor and the destructor go on. -/
theorem Sane.setPhase (h : s.Sane maxRequests) {phase : LifePhase} {stop : Bool}
    (hquiet : phase ≠ .built → s.phase ≠ .built ∨
      ∀ t, s.stage t = .client → s.pool.threads t = .idle) :
    ({ s with phase := phase, stop := stop } : Lifetime τ α).Sane maxRequests := by
  refine ⟨h.guarded, fun t => ?_⟩
  have hplaced := h.placed t
  dsimp only
  cases hstage : s.stage t with
  | client =>
      rw [hstage] at hplaced
      refine ⟨hplaced.1, fun hnot => ?_⟩
      rcases hquiet hnot with hbefore | hidle
      · exact hplaced.2 hbefore
      · exact hidle t hstage
  | inside | absent | looping | returned =>
      rw [hstage] at hplaced
      exact hplaced

variable [DecidableEq τ]

/-- A worker that is created, or reads `m_stop`, is at the head of its loop. -/
theorem Sane.setStage (h : s.Sane maxRequests) {t : τ} {stage : Stage}
    (hbefore : s.stage t ≠ .inside ∧ s.stage t ≠ .client) (hafter : stage ≠ .client) :
    ({ s with stage := update s.stage t stage } : Lifetime τ α).Sane maxRequests := by
  refine ⟨h.guarded, fun u => ?_⟩
  have hplaced := h.placed u
  dsimp only
  by_cases hu : u = t
  · subst hu
    have hwaiting : s.pool.threads u = .waiting := by
      cases hstage : s.stage u with
      | inside => exact absurd hstage hbefore.1
      | client => exact absurd hstage hbefore.2
      | absent | looping | returned =>
          rw [hstage] at hplaced
          exact hplaced
    rw [update_self, hwaiting]
    cases stage with
    | client => exact absurd rfl hafter
    | inside => trivial
    | absent | looping | returned => rfl
  · rw [update_of_ne hu]
    exact hplaced

/-- A thread goes on, and a worker that is back at its wait is to test
`m_stop`. -/
theorem Sane.work (h : s.Sane maxRequests) {t : τ} {act : PoolAct α} {after : Pool τ α}
    (hstage : s.stage t = .inside ∨ s.stage t = .client ∧ s.phase = .built)
    (hstep : Pool.Step maxRequests s.pool (t, act) after) :
    ({ s with
      pool := after
      stage := if (after.threads t).isWaiting then update s.stage t .looping else s.stage } :
      Lifetime τ α).Sane maxRequests := by
  refine ⟨h.guarded.step hstep, fun u => ?_⟩
  have hplaced := h.placed u
  obtain @⟨t, act, pc, hnext, hallows⟩ := hstep
  simp only [update_self]
  by_cases hu : u = t
  · subst hu
    rw [update_self]
    have hworker := hnext.worker
    rcases hstage with hinside | ⟨hclient, hbuilt⟩
    · rw [hinside] at hplaced
      split
      · rename_i hwaiting
        rw [update_self]
        exact PoolPc.isWaiting_iff.mp hwaiting
      · rw [hinside]
        exact hworker.mpr hplaced
    · rw [hclient] at hplaced
      have hnotWorker : ¬ pc.Worker := fun hpc => hplaced.1 (hworker.mp hpc)
      split
      · rename_i hwaiting
        rw [PoolPc.isWaiting_iff.mp hwaiting] at hnotWorker
        exact absurd trivial hnotWorker
      · rw [hclient]
        exact ⟨hnotWorker, fun hnot => absurd hbuilt hnot⟩
  · rw [update_of_ne hu]
    split
    · rw [update_of_ne hu]
      exact hplaced
    · exact hplaced

theorem Sane.step {threadNumber limit : Int} {label : LifeLabel τ α} {after : Lifetime τ α}
    (h : s.Sane limit.toNat) (hstep : Step threadNumber limit s label after) :
    after.Sane limit.toNat := by
  cases hstep with
  | reject hphase => exact h.setPhase fun _ => Or.inl (by simp [hphase])
  | noMemory hphase => exact h.setPhase fun _ => Or.inl (by simp [hphase])
  | allocate hphase => exact h.setPhase fun _ => Or.inl (by simp [hphase])
  | @create i t hphase hi habsent =>
      have hstarted : ({ s with stage := update s.stage t .looping } :
          Lifetime τ α).Sane limit.toNat :=
        h.setStage (by simp [habsent]) (by simp)
      exact hstarted.setPhase fun _ => Or.inl (hphase.trans_ne (by simp))
  | createFails hphase => exact h.setPhase fun _ => Or.inl (by simp [hphase])
  | detach hphase => exact h.setPhase fun _ => Or.inl (by simp [hphase])
  | detachFails hphase => exact h.setPhase fun _ => Or.inl (by simp [hphase])
  | built hphase hi => exact h.setPhase fun hnot => absurd rfl hnot
  | deleteThreads hphase hidle => exact h.setPhase fun _ => Or.inr hidle
  | setStop hphase => exact h.setPhase fun _ => Or.inl (by simp [hphase])
  | readStop hstage => exact h.setStage (by simp [hstage]) (by split <;> simp)
  | work hstage hstep => exact h.work hstage hstep

/-- When all workers are gone and the pool is over, nothing happens to it. -/
theorem Gone.still {threadNumber limit : Int} {label : LifeLabel τ α} {after : Lifetime τ α}
    (hgone : s.Gone) (hover : s.Over) : ¬ Step threadNumber limit s label after := by
  intro hstep
  have hphase : s.phase = .thrown ∨ s.phase = .destroyed := hover
  cases hstep with
  | readStop hstage => exact (hgone _).1 hstage
  | work hstage hstep =>
      rcases hstage with hinside | ⟨-, hbuilt⟩
      · exact (hgone _).2 hinside
      · simp [hbuilt] at hphase
  | _ => simp_all

/-- What ends the pool leaves the workers where they are. -/
theorem over_of_ends {threadNumber limit : Int} {label : LifeLabel τ α} {after : Lifetime τ α}
    (hstep : Step threadNumber limit s label after) (hends : label.Ends) :
    after.Over ∧ after.stage = s.stage := by
  cases hstep with
  | reject | noMemory | createFails | detachFails => exact ⟨Or.inl rfl, rfl⟩
  | setStop => exact ⟨Or.inr rfl, rfl⟩
  | _ => exact hends.elim

section Runs

variable {threadNumber limit : Int} {history : List (Lifetime τ α × LifeLabel τ α)}
  {label : LifeLabel τ α} {after : Lifetime τ α}

theorem poolLife_sane (hrun : (poolLife τ α threadNumber limit).Run history s) :
    s.Sane limit.toNat := by
  apply TransitionSystem.Reachable.invariant _ _ ⟨history, hrun⟩
  · exact fun _ hstart => Starts.sane hstart
  · exact fun _ _ _ hsane hstep => hsane.step hstep

/-- After this run no worker touches the pool. -/
def Untouched (threadNumber limit : Int) (history : List (Lifetime τ α × LifeLabel τ α)) : Prop :=
  ∀ more last, (poolLife τ α threadNumber limit).Run (history ++ more) last →
    ∀ entry ∈ more, ¬ entry.2.Touches entry.1

/-- Some worker can still touch the pool. -/
def Haunted (threadNumber limit : Int) (history : List (Lifetime τ α × LifeLabel τ α)) : Prop :=
  ∃ more last, (poolLife τ α threadNumber limit).Run (history ++ more) last ∧
    ∃ entry ∈ more, entry.2.Touches entry.1

theorem haunted_of_step (hrun : (poolLife τ α threadNumber limit).Run history s)
    (hstep : Step threadNumber limit s label after) (htouches : label.Touches s) :
    Haunted threadNumber limit history :=
  ⟨[(s, label)], after, hrun.snoc hstep, (s, label), List.mem_singleton_self _, htouches⟩

theorem haunted_of_later (h : Haunted threadNumber limit (history ++ [(s, label)])) :
    Haunted threadNumber limit history := by
  obtain ⟨more, last, hrun, entry, hentry, htouches⟩ := h
  rw [List.append_assoc] at hrun
  exact ⟨[(s, label)] ++ more, last, hrun, entry, List.mem_append_right _ hentry, htouches⟩

theorem haunted_of_looping (hrun : (poolLife τ α threadNumber limit).Run history s) {t : τ}
    (hstage : s.stage t = .looping) : Haunted threadNumber limit history :=
  haunted_of_step hrun (.readStop hstage) trivial

/-- A worker that ends the body of the loop tests `m_stop` next. -/
theorem haunted_of_finish (hrun : (poolLife τ α threadNumber limit).Run history s) {t : τ}
    {act : PoolAct α} (hstage : s.stage t = .inside)
    (hnext : (s.pool.threads t).Next act .waiting) (hallows : s.pool.Allows limit.toNat act) :
    Haunted threadNumber limit history := by
  have hstep : Step threadNumber limit s (.work t act) _ :=
    .work (Or.inl hstage) (.mk hnext hallows)
  refine haunted_of_later (haunted_of_looping (hrun.snoc hstep) (t := t) ?_)
  simp [PoolPc.isWaiting]

theorem haunted_of_processing (hrun : (poolLife τ α threadNumber limit).Run history s) {t : τ}
    {request : α} (hstage : s.stage t = .inside)
    (hpc : s.pool.threads t = .processing request) : Haunted threadNumber limit history := by
  have hnext : (s.pool.threads t).Next (.done request) .waiting := by
    rw [hpc]
    exact .done request
  exact haunted_of_finish hrun hstage hnext trivial

/-- The holder of the lock goes on with it. -/
theorem haunted_of_critical (hrun : (poolLife τ α threadNumber limit).Run history s)
    (hover : s.Over) {t : τ} (hholder : s.pool.holder = some t) :
    Haunted threadNumber limit history := by
  have hsane := poolLife_sane hrun
  have hcritical := (hsane.guarded.exclusive t).mpr hholder
  have hplaced := hsane.placed t
  obtain ⟨act, after, hstep⟩ := hsane.guarded.moves hholder
  have hinside : s.stage t = .inside := by
    have hnotBuilt : s.phase ≠ .built := by
      rcases hover with hphase | hphase <;> simp [hphase]
    cases hstage : s.stage t with
    | inside => rfl
    | client =>
        rw [hstage] at hplaced
        rw [hplaced.2 hnotBuilt] at hcritical
        exact hcritical.elim
    | absent | looping | returned =>
        rw [hstage] at hplaced
        have hwaiting : s.pool.threads t = .waiting := hplaced
        rw [hwaiting] at hcritical
        exact hcritical.elim
  have hact : act.OnPool := by
    cases hstep with
    | mk hnext hallows => exact hnext.onPool hcritical
  exact haunted_of_step hrun (.work (Or.inl hinside) hstep) ⟨by simp [hinside], hact⟩

/-- A worker in the body of its loop comes back to the pool. -/
theorem haunted_of_inside (hrun : (poolLife τ α threadNumber limit).Run history s)
    (hover : s.Over) {t : τ} (hstage : s.stage t = .inside) :
    Haunted threadNumber limit history := by
  have hplaced := (poolLife_sane hrun).placed t
  have hexclusive := (poolLife_sane hrun).guarded.exclusive
  have hnotClient : s.stage t ≠ .client := by simp [hstage]
  rw [hstage] at hplaced
  have hholds : (s.pool.threads t).Critical → Haunted threadNumber limit history :=
    fun hcritical => haunted_of_critical hrun hover (hexclusive.holds hcritical)
  cases hpc : s.pool.threads t with
  | waiting =>
      have hnext : (s.pool.threads t).Next .interrupted .woken := by
        rw [hpc]
        exact .interrupted
      exact haunted_of_step hrun (.work (Or.inl hstage) (.mk hnext trivial)) ⟨hnotClient, trivial⟩
  | woken =>
      cases hholder : s.pool.holder with
      | none =>
          have hnext : (s.pool.threads t).Next .lock .testing := by
            rw [hpc]
            exact .lockWorker
          exact haunted_of_step hrun (.work (Or.inl hstage) (.mk hnext hholder))
            ⟨hnotClient, trivial⟩
      | some u => exact haunted_of_critical hrun hover hholder
  | checking request =>
      cases request with
      | none =>
          have hnext : (s.pool.threads t).Next .drop .waiting := by
            rw [hpc]
            exact .drop
          exact haunted_of_finish hrun hstage hnext trivial
      | some request =>
          have hnext : (s.pool.threads t).Next (.process request) (.processing request) := by
            rw [hpc]
            exact .process request
          have hstep : Step threadNumber limit s (.work t (.process request)) _ :=
            .work (Or.inl hstage) (.mk hnext trivial)
          have hlater := haunted_of_processing (hrun.snoc hstep) (t := t)
            (by simp [PoolPc.isWaiting, hstage]) (Function.update_self t _ _)
          exact haunted_of_later hlater
  | processing request => exact haunted_of_processing hrun hstage hpc
  | testing | leaving | taking | popping request | took request =>
      exact hholds (by rw [hpc]; trivial)
  | idle | locking request | sizing request | refusing request | pushing request
  | pushed request | posting request | returning request ok =>
      rw [hpc] at hplaced
      exact hplaced.elim

/-- No worker outlives its pool in exactly the cases in which every worker that
was started has returned from `run` before the constructor throws or the
destructor returns. -/
theorem poolLife_still
    (hrun : (poolLife τ α threadNumber limit).Run (history ++ [(s, label)]) after)
    (hends : label.Ends) : Untouched threadNumber limit (history ++ [(s, label)]) ↔ s.Gone := by
  obtain ⟨hover, hstage⟩ := over_of_ends hrun.last.2 hends
  constructor
  · intro hstill t
    have hnot : ¬ Haunted threadNumber limit (history ++ [(s, label)]) := by
      rintro ⟨more, last, hmore, entry, hentry, htouches⟩
      exact hstill more last hmore entry hentry htouches
    refine ⟨fun hlooping => hnot ?_, fun hinside => hnot ?_⟩
    · exact haunted_of_looping hrun (by rw [hstage, hlooping])
    · exact haunted_of_inside hrun hover (by rw [hstage, hinside])
  · intro hgone more last hmore entry hentry
    cases more with
    | nil => cases hentry
    | cons first more =>
        obtain ⟨hfirst, next, hstep⟩ := hmore.split
        obtain ⟨hover', hstage'⟩ := over_of_ends hfirst.last.2 hends
        have hgone' : first.1.Gone := by
          rw [Gone, hstage']
          exact hgone
        exact absurd hstep (hgone'.still hover')

/-- A pool for one worker, before its constructor. -/
def unbuilt : Lifetime (Fin 1) Nat where
  pool := ⟨none, [], 0, fun _ => .waiting⟩
  stop := false
  phase := .entering
  stage _ := .absent

theorem unbuilt_starts : unbuilt.Starts :=
  ⟨⟨rfl, rfl, rfl, fun _ => Or.inr rfl⟩, rfl, fun _ => Or.inr ⟨rfl, rfl⟩⟩

/-- The worker finds `m_stop` true, which nothing has set, and returns; the pool
is destroyed behind it. -/
theorem poolLife_still_returned :
    ∃ history, ∃ s : Lifetime (Fin 1) Nat, (poolLife (Fin 1) Nat 1 10000).Run history s ∧
      s.phase = .destroyed ∧ s.stage 0 = .returned ∧ Untouched 1 10000 history := by
  have hstart : (poolLife (Fin 1) Nat 1 10000).Run [] { unbuilt with stop := true } :=
    .start ⟨unbuilt_starts.pool, unbuilt_starts.phase, unbuilt_starts.stage⟩
  have hcreate := (hstart.snoc (.allocate rfl (by decide))).snoc
    (Step.create (t := 0) rfl Int.one_pos rfl)
  have hreturn := hcreate.snoc (.readStop (t := 0) rfl)
  have hbuilt := (hreturn.snoc (.detach rfl)).snoc (Step.built rfl (Int.le_refl 1))
  have hgone := hbuilt.snoc (.deleteThreads rfl fun t ht => by
    rw [Subsingleton.elim t 0] at ht
    cases ht)
  have hdead := hgone.snoc (Step.setStop rfl)
  refine ⟨_, _, hdead, rfl, rfl, (poolLife_still hdead trivial).mpr fun t => ?_⟩
  rw [Subsingleton.elim t 0]
  exact ⟨nofun, nofun⟩

/-- The pool is destroyed while its worker is about to test `m_stop`. -/
theorem not_poolLife_still :
    ¬ ∀ (threadNumber maxRequests : Int)
      (history : List (Lifetime (Fin 1) Nat × LifeLabel (Fin 1) Nat))
      (s after : Lifetime (Fin 1) Nat) (label : LifeLabel (Fin 1) Nat),
      (poolLife (Fin 1) Nat threadNumber maxRequests).Run (history ++ [(s, label)]) after →
      label.Ends → Untouched threadNumber maxRequests (history ++ [(s, label)]) := by
  intro h
  have hstart : (poolLife (Fin 1) Nat 1 10000).Run [] unbuilt := .start unbuilt_starts
  have hcreate := (hstart.snoc (.allocate rfl (by decide))).snoc
    (Step.create (t := 0) rfl Int.one_pos rfl)
  have hbuilt := (hcreate.snoc (.detach rfl)).snoc (Step.built rfl (Int.le_refl 1))
  have hdead := (hbuilt.snoc (.deleteThreads rfl fun t ht => by
    rw [Subsingleton.elim t 0] at ht
    cases ht)).snoc (Step.setStop rfl)
  obtain ⟨more, last, hmore, entry, hentry, htouches⟩ :=
    haunted_of_looping hdead (t := 0) rfl
  exact h 1 10000 _ _ _ _ hdead trivial more last hmore entry hentry htouches

end Runs

end Lifetime

end LinuxLearning.Webserver
