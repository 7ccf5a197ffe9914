/-
A lock and the threads that take it: a thread is in its critical section
exactly when it is the holder.
-/
import Mathlib.Logic.Function.Basic

universe u v

variable {τ : Type u} {β : Type v}

/-- The threads with the property are those that hold the lock. -/
def Exclusive (Critical : β → Prop) (holder : Option τ) (threads : τ → β) : Prop :=
  ∀ t, Critical (threads t) ↔ holder = some t

namespace Exclusive

open Function

variable {Critical : β → Prop} {holder : Option τ} {threads : τ → β}

theorem free (h : ∀ t, ¬ Critical (threads t)) : Exclusive Critical none threads :=
  fun t => iff_of_false (h t) (by simp)

theorem holds {t : τ} (h : Exclusive Critical holder threads) (ht : Critical (threads t)) :
    holder = some t :=
  (h t).mp ht

/-- No two threads are in their critical sections. -/
theorem eq {t u : τ} (h : Exclusive Critical holder threads) (ht : Critical (threads t))
    (hu : Critical (threads u)) : u = t :=
  Option.some.inj ((h.holds hu).symm.trans (h.holds ht))

variable [DecidableEq τ] {t : τ} {b : β}

theorem acquire (h : Exclusive Critical none threads) (hb : Critical b) :
    Exclusive Critical (some t) (update threads t b) := by
  intro u
  by_cases hu : u = t
  · subst hu
    simp [hb]
  · rw [update_of_ne hu]
    apply iff_of_false
    · intro hcritical
      cases h.holds hcritical
    · simpa using Ne.symm hu

theorem release (h : Exclusive Critical holder threads) (ht : Critical (threads t))
    (hb : ¬ Critical b) : Exclusive Critical none (update threads t b) := by
  apply free
  intro u
  by_cases hu : u = t
  · subst hu
    simpa using hb
  · rw [update_of_ne hu]
    exact fun hcritical => hu (h.eq ht hcritical)

theorem keep (h : Exclusive Critical holder threads) (hb : Critical b ↔ Critical (threads t)) :
    Exclusive Critical holder (update threads t b) := by
  intro u
  by_cases hu : u = t
  · subst hu
    rw [update_self, hb]
    exact h u
  · rw [update_of_ne hu]
    exact h u

end Exclusive
