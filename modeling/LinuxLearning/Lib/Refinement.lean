/-
One system that carries out another.  A step of the concrete system shows an
action of the abstract one, which the abstract system takes from what the
concrete state stands for, or it shows nothing and leaves that as it is.  Where
the concrete system can also perform every abstract step, the two have the same
runs.
-/
import LinuxLearning.Lib.Transition

universe u v w x

namespace TransitionSystem

variable {S : Type u} {L : Type v} {A : Type w} {K : Type x}

/-- `M` carries out `N`, where `abs` is what a state stands for and `event`
what a step shows. -/
structure Refines (M : TransitionSystem S L) (N : TransitionSystem A K) (abs : S → A)
    (event : S → L → Option K) : Prop where
  start : ∀ {s}, M.start s → N.start (abs s)
  shows : ∀ {before label after act}, M.Reachable before → M.step before label after →
    event before label = some act → N.step (abs before) act (abs after)
  silent : ∀ {before label after}, M.Reachable before → M.step before label after →
    event before label = none → abs after = abs before

/-- The abstract steps that a run shows, with the abstract states before
them. -/
def observed (abs : S → A) (event : S → L → Option K) (history : List (S × L)) : List (A × K) :=
  history.filterMap fun entry => (event entry.1 entry.2).map fun act => (abs entry.1, act)

theorem observed_append (abs : S → A) (event : S → L → Option K) (earlier later : List (S × L)) :
    observed abs event (earlier ++ later) =
      observed abs event earlier ++ observed abs event later :=
  List.filterMap_append

variable {M : TransitionSystem S L} {N : TransitionSystem A K} {abs : S → A}
  {event : S → L → Option K}

/-- What a run shows is a run of the abstract system. -/
theorem Refines.run (h : M.Refines N abs event) {history : List (S × L)} {s : S}
    (hrun : M.Run history s) : N.Run (observed abs event history) (abs s) := by
  induction hrun with
  | start hstart => exact .start (h.start hstart)
  | @snoc history before after label hbefore hstep ih =>
      have hreach : M.Reachable before := ⟨history, hbefore⟩
      rw [observed_append]
      cases hevent : event before label with
      | none =>
          have hsame := h.silent hreach hstep hevent
          simpa [observed, hevent, hsame] using ih
      | some act =>
          have habstract := h.shows hreach hstep hevent
          simpa [observed, hevent] using ih.snoc habstract

/-- Invariants of the abstract system hold of what concrete states stand
for. -/
theorem Refines.reachable (h : M.Refines N abs event) {s : S} (hreach : M.Reachable s) :
    N.Reachable (abs s) := by
  obtain ⟨history, hrun⟩ := hreach
  exact ⟨_, h.run hrun⟩

variable (M abs event) in
/-- Some run to this state shows these steps. -/
def Exhibits (acts : List (A × K)) (s : S) : Prop :=
  ∃ history, M.Run history s ∧ observed abs event history = acts

section Exhibits

variable {acts : List (A × K)} {before after : S} {label : L}

theorem Exhibits.start (hstart : M.start before) : M.Exhibits abs event [] before :=
  ⟨[], .start hstart, rfl⟩

theorem Exhibits.reachable (h : M.Exhibits abs event acts before) : M.Reachable before := by
  obtain ⟨history, hrun, -⟩ := h
  exact ⟨history, hrun⟩

theorem Exhibits.silent (h : M.Exhibits abs event acts before)
    (hstep : M.step before label after) (hevent : event before label = none) :
    M.Exhibits abs event acts after := by
  obtain ⟨history, hrun, rfl⟩ := h
  refine ⟨_, hrun.snoc hstep, ?_⟩
  rw [observed_append]
  simp [observed, hevent]

theorem Exhibits.shows (h : M.Exhibits abs event acts before)
    (hstep : M.step before label after) {act : K} (hevent : event before label = some act) :
    M.Exhibits abs event (acts ++ [(abs before, act)]) after := by
  obtain ⟨history, hrun, rfl⟩ := h
  refine ⟨_, hrun.snoc hstep, ?_⟩
  rw [observed_append]
  simp [observed, hevent]

end Exhibits

/-- `M` can do all that `N` does: it carries out every abstract step from a
state in `rest`, and ends in one again. -/
structure Performs (M : TransitionSystem S L) (N : TransitionSystem A K) (abs : S → A)
    (event : S → L → Option K) (rest : S → Prop) : Prop where
  start : ∀ {a}, N.start a → ∃ s, M.start s ∧ rest s ∧ abs s = a
  performs : ∀ {acts s act a}, M.Exhibits abs event acts s → rest s → N.step (abs s) act a →
    ∃ after, M.Exhibits abs event (acts ++ [(abs s, act)]) after ∧ rest after ∧ abs after = a

theorem Performs.run {rest : S → Prop} (h : M.Performs N abs event rest) {acts : List (A × K)}
    {a : A} (hrun : N.Run acts a) : ∃ s, M.Exhibits abs event acts s ∧ rest s ∧ abs s = a := by
  induction hrun with
  | start hstart =>
      obtain ⟨s, hs, hrest, habs⟩ := h.start hstart
      exact ⟨s, .start hs, hrest, habs⟩
  | @snoc acts before after act _ hstep ih =>
      obtain ⟨s, hexhibits, hrest, rfl⟩ := ih
      exact h.performs hexhibits hrest hstep

/-- What the concrete system shows is exactly what the abstract one does. -/
theorem Refines.run_iff (h : M.Refines N abs event) {rest : S → Prop}
    (hperforms : M.Performs N abs event rest) (acts : List (A × K)) (a : A) :
    N.Run acts a ↔ ∃ s, M.Exhibits abs event acts s ∧ abs s = a := by
  constructor
  · intro hrun
    obtain ⟨s, hexhibits, -, habs⟩ := hperforms.run hrun
    exact ⟨s, hexhibits, habs⟩
  · rintro ⟨s, ⟨history, hrun, rfl⟩, rfl⟩
    exact h.run hrun

end TransitionSystem
