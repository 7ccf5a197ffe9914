/-
Threads that share data under one lock.  What a thread does next is its text,
what becomes of the data is the effect of the action, and threads interleave
between any two actions.  When the text brackets its critical sections with
the lock, what a thread knows of the data inside such a section stays true
until the thread itself acts.
-/
import LinuxLearning.Lib.Exclusion
import LinuxLearning.Lib.Transition
import Mathlib.Data.List.Induction

universe u v w x y

/-- Threads `τ` at places `β`, data `σ` and actions `α`. -/
structure Monitor (τ : Type u) (σ : Type v) (β : Type w) (α : Type x) where
  next : β → α → β → Prop
  allows : σ → τ → α → Prop
  effect : σ → τ → α → σ
  acquires : α → Bool
  releases : α → Bool

namespace Monitor

open Function

variable {τ : Type u} {σ : Type v} {β : Type w} {α : Type x}

/-- Who holds the lock, the data, and the place of every thread. -/
structure State (τ : Type u) (σ : Type v) (β : Type w) where
  holder : Option τ
  shared : σ
  threads : τ → β

variable (M : Monitor τ σ β α)

/-- Who holds the lock behind an action. -/
def holderAfter (holder : Option τ) (t : τ) (act : α) : Option τ :=
  if M.acquires act then some t else if M.releases act then none else holder

variable [DecidableEq τ]

/-- One action of one thread; the lock is acquired when nobody holds it. -/
inductive Step (s : State τ σ β) : τ × α → State τ σ β → Prop
  | mk {t : τ} {act : α} {pc : β} (hnext : M.next (s.threads t) act pc)
      (hallows : M.allows s.shared t act) (hfree : M.acquires act = true → s.holder = none) :
      Step s (t, act)
        { holder := M.holderAfter s.holder t act
          shared := M.effect s.shared t act
          threads := update s.threads t pc }

/-- The system from given start states. -/
def system (start : State τ σ β → Prop) : TransitionSystem (State τ σ β) (τ × α) where
  start := start
  step := M.Step

omit [DecidableEq τ] in
/-- The lock stands around the critical sections of the text. -/
structure Bracketed (Critical : β → Prop) : Prop where
  acquire : ∀ {pc act pc'}, M.next pc act pc' → M.acquires act = true → Critical pc'
  release : ∀ {pc act pc'}, M.next pc act pc' → M.releases act = true →
    Critical pc ∧ ¬ Critical pc'
  keep : ∀ {pc act pc'}, M.next pc act pc' → M.acquires act = false → M.releases act = false →
    (Critical pc' ↔ Critical pc)

omit [DecidableEq τ] in
/-- What a thread at a place knows of the data: nothing outside the critical
sections, and inside them what its own actions leave and the actions of a
thread outside do not destroy. -/
structure Teaches (Critical : β → Prop) (Knows : β → σ → Prop) : Prop where
  outside : ∀ {pc data}, ¬ Critical pc → Knows pc data
  own : ∀ {pc act pc' data t}, M.next pc act pc' → M.allows data t act → Knows pc data →
    Knows pc' (M.effect data t act)
  other : ∀ {pc act pc' data t pc''}, M.next pc act pc' → ¬ Critical pc → Knows pc'' data →
    Knows pc'' (M.effect data t act)

variable {M} {s after : State τ σ β} {label : τ × α} {Critical : β → Prop}
  {Knows : β → σ → Prop}

/-- The lock excludes. -/
theorem Bracketed.step (hbracketed : M.Bracketed Critical)
    (h : Exclusive Critical s.holder s.threads) (hstep : M.Step s label after) :
    Exclusive Critical after.holder after.threads := by
  obtain @⟨t, act, pc, hnext, -, hfree⟩ := hstep
  dsimp only [holderAfter]
  cases hacquires : M.acquires act with
  | true =>
      rw [hfree hacquires] at h
      rw [if_pos rfl]
      exact h.acquire (hbracketed.acquire hnext hacquires)
  | false =>
      rw [if_neg Bool.false_ne_true]
      cases hreleases : M.releases act with
      | true =>
          obtain ⟨hbefore, hafter⟩ := hbracketed.release hnext hreleases
          exact h.release hbefore hafter
      | false => exact h.keep (hbracketed.keep hnext hacquires hreleases)

/-- What the threads know stays true. -/
theorem Teaches.step (hteaches : M.Teaches Critical Knows)
    (h : Exclusive Critical s.holder s.threads) (hknows : ∀ u, Knows (s.threads u) s.shared)
    (hstep : M.Step s label after) (u : τ) : Knows (after.threads u) after.shared := by
  obtain @⟨t, act, pc, hnext, hallows, -⟩ := hstep
  dsimp only
  by_cases hu : u = t
  · subst hu
    rw [update_self]
    exact hteaches.own hnext hallows (hknows u)
  · rw [update_of_ne hu]
    by_cases hcritical : Critical (s.threads t)
    · -- two threads are not inside at once
      exact hteaches.outside fun hother => hu (h.eq hcritical hother)
    · exact hteaches.other hnext hcritical (hknows u)

/-- What a thread is, when its text does not change it. -/
theorem Step.kind {Kind : β → Prop}
    (hkind : ∀ {pc act pc'}, M.next pc act pc' → (Kind pc' ↔ Kind pc))
    (hstep : M.Step s label after) (u : τ) : Kind (after.threads u) ↔ Kind (s.threads u) := by
  obtain @⟨t, act, pc, hnext, -, -⟩ := hstep
  dsimp only
  by_cases hu : u = t
  · subst hu
    rw [update_self]
    exact hkind hnext
  · rw [update_of_ne hu]

section Runs

variable {start : State τ σ β → Prop}

theorem Bracketed.reachable (hbracketed : M.Bracketed Critical)
    (hstart : ∀ s, start s → Exclusive Critical s.holder s.threads)
    (hreach : (M.system start).Reachable s) : Exclusive Critical s.holder s.threads := by
  refine hreach.invariant hstart ?_
  exact fun _ _ _ h hstep => hbracketed.step h hstep

theorem Teaches.reachable (hbracketed : M.Bracketed Critical) (hteaches : M.Teaches Critical Knows)
    (hstart : ∀ s, start s →
      Exclusive Critical s.holder s.threads ∧ ∀ u, Knows (s.threads u) s.shared)
    (hreach : (M.system start).Reachable s) (u : τ) : Knows (s.threads u) s.shared := by
  obtain ⟨-, hknows⟩ : Exclusive Critical s.holder s.threads ∧
      ∀ u, Knows (s.threads u) s.shared := by
    refine hreach.invariant hstart ?_
    rintro before label after ⟨hexclusive, hknows⟩ hstep
    exact ⟨hbracketed.step hexclusive hstep, hteaches.step hexclusive hknows hstep⟩
  exact hknows u

/-- A thread is where its last action has led it. -/
theorem next_of_run {earlier between : List (State τ σ β × (τ × α))} {before s : State τ σ β}
    {t : τ} {act : α} (hrun : (M.system start).Run (earlier ++ (before, t, act) :: between) s)
    (hother : ∀ entry ∈ between, entry.2.1 ≠ t) :
    M.next (before.threads t) act (s.threads t) := by
  induction between using List.reverseRecOn generalizing s with
  | nil =>
      obtain ⟨-, hstep⟩ := hrun.last
      cases hstep with
      | mk hnext =>
          dsimp only
          rwa [update_self]
  | append_singleton between last ih =>
      obtain ⟨middle, u, act'⟩ := last
      rw [List.forall_mem_append, List.forall_mem_singleton] at hother
      rw [← List.cons_append, ← List.append_assoc] at hrun
      obtain ⟨hmiddle, hstep⟩ := hrun.last
      cases hstep with
      | mk hnext =>
          dsimp only
          rw [update_of_ne (Ne.symm hother.2)]
          exact ih hmiddle hother.1

/-- While a thread stays in a critical section, what only critical sections
change stays as the thread itself has left it. -/
theorem Bracketed.untouched {δ : Type y} (hbracketed : M.Bracketed Critical)
    (hstart : ∀ s, start s → Exclusive Critical s.holder s.threads) (view : σ → δ)
    (hview : ∀ {pc act pc' data t}, M.next pc act pc' → ¬ Critical pc →
      view (M.effect data t act) = view data)
    {earlier between : List (State τ σ β × (τ × α))} {before s : State τ σ β} {t : τ} {act : α}
    (hrun : (M.system start).Run (earlier ++ (before, t, act) :: between) s)
    (hother : ∀ entry ∈ between, entry.2.1 ≠ t) (hcritical : Critical (s.threads t)) :
    view s.shared = view (M.effect before.shared t act) := by
  induction between using List.reverseRecOn generalizing s with
  | nil =>
      obtain ⟨-, hstep⟩ := hrun.last
      cases hstep
      rfl
  | append_singleton between last ih =>
      obtain ⟨middle, u, act'⟩ := last
      rw [List.forall_mem_append, List.forall_mem_singleton] at hother
      rw [← List.cons_append, ← List.append_assoc] at hrun
      obtain ⟨hmiddle, hstep⟩ := hrun.last
      have hexclusive := hbracketed.reachable hstart ⟨_, hmiddle⟩
      cases hstep with
      | mk hnext =>
          dsimp only at hcritical ⊢
          rw [update_of_ne (Ne.symm hother.2)] at hcritical
          -- the thread inside is another one, so this step is taken outside
          have houtside : ¬ Critical (middle.threads u) :=
            fun hinside => hother.2 (hexclusive.eq hcritical hinside)
          rw [hview hnext houtside]
          exact ih hmiddle hother.1 hcritical

end Runs

end Monitor
