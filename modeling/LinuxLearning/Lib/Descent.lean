/-
Runs that must come to rest.  Where every quiet step makes a measure of the
state smaller, the quiet steps after any state are boundedly many, and some of
them lead to a state that has none left.
-/
import LinuxLearning.Lib.Transition

universe u v

namespace TransitionSystem

variable {S : Type u} {L : Type v} (M : TransitionSystem S L) (quiet : L → Prop)

/-- Quiet steps, recorded as in a run, lead from `state` on. -/
inductive Continues (state : S) : List (S × L) → S → Prop
  | refl : Continues state [] state
  | snoc {later : List (S × L)} {before after : S} {label : L}
      (hbefore : Continues state later before) (hquiet : quiet label)
      (hstep : M.step before label after) :
      Continues state (later ++ [(before, label)]) after

/-- No quiet step is left. -/
def Settled (state : S) : Prop :=
  ∀ label after, quiet label → ¬ M.step state label after

/-- Every quiet step makes the measure smaller. -/
def Descends (measure : S → Nat) : Prop :=
  ∀ before label after, quiet label → M.step before label after → measure after < measure before

variable {M quiet}

theorem Continues.run {history later : List (S × L)} {state after : S}
    (h : M.Continues quiet state later after) (hrun : M.Run history state) :
    M.Run (history ++ later) after := by
  induction h with
  | refl => rwa [List.append_nil]
  | snoc _ _ hstep ih =>
      rw [← List.append_assoc]
      exact ih.snoc hstep

theorem Continues.reachable {later : List (S × L)} {state after : S}
    (h : M.Continues quiet state later after) (hreach : M.Reachable state) :
    M.Reachable after := by
  obtain ⟨history, hrun⟩ := hreach
  exact ⟨history ++ later, h.run hrun⟩

variable {measure : S → Nat}

/-- The measure pays for every step. -/
theorem Descends.length_le (hdescends : M.Descends quiet measure) {later : List (S × L)}
    {state after : S} (h : M.Continues quiet state later after) :
    later.length + measure after ≤ measure state := by
  induction h with
  | refl => simp
  | snoc _ hquiet hstep ih =>
      have hless := hdescends _ _ _ hquiet hstep
      rw [List.length_append, List.length_singleton]
      omega

/-- From every state quiet steps lead to one that has none left. -/
theorem Descends.settles (hdescends : M.Descends quiet measure) (state : S) :
    ∃ later after, M.Continues quiet state later after ∧ M.Settled quiet after := by
  -- whatever has been done so far, by induction on what the measure leaves
  suffices h : ∀ bound before later, measure before = bound →
      M.Continues quiet state later before →
      ∃ later after, M.Continues quiet state later after ∧ M.Settled quiet after from
    h _ state [] rfl .refl
  intro bound
  induction bound using Nat.strongRecOn with
  | _ bound ih =>
      rintro before later rfl hbefore
      by_cases hsettled : M.Settled quiet before
      · exact ⟨later, before, hbefore, hsettled⟩
      · obtain ⟨label, after, hquiet, hstep⟩ :
            ∃ label after, quiet label ∧ M.step before label after := by
          simpa [Settled] using hsettled
        apply ih (measure after) (hdescends _ _ _ hquiet hstep) after _ rfl
        exact hbefore.snoc hquiet hstep

end TransitionSystem
