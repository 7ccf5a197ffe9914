/-
Labelled transition systems and their finite runs.  A run keeps, for every
step, the state before it and its label, so that a property can be asked of
the state a run reaches and a condition of the steps that lead there.
-/
import Mathlib.Data.List.Basic

universe u v w

/-- A labelled transition system: its start states and its steps. -/
structure TransitionSystem (S : Type u) (L : Type v) where
  start : S → Prop
  step : S → L → S → Prop

namespace TransitionSystem

variable {S : Type u} {L : Type v} (M : TransitionSystem S L)

/-- `M.Run history state`: the steps of `history`, each recorded with the
state before it, lead from a start state to `state`. -/
inductive Run : List (S × L) → S → Prop
  | start {state : S} (hstart : M.start state) : Run [] state
  | snoc {history : List (S × L)} {before after : S} {label : L}
      (hrun : Run history before) (hstep : M.step before label after) :
      Run (history ++ [(before, label)]) after

/-- `P` holds in every state of a run. -/
def Always (P : S → Prop) (history : List (S × L)) (state : S) : Prop :=
  (∀ entry ∈ history, P entry.1) ∧ P state

theorem always_snoc {P : S → Prop} {history : List (S × L)} {before after : S} {label : L} :
    Always P (history ++ [(before, label)]) after ↔ Always P history before ∧ P after := by
  rw [Always, List.forall_mem_append, List.forall_mem_singleton]
  exact Iff.rfl

/-- A state some run reaches. -/
def Reachable (state : S) : Prop :=
  ∃ history, M.Run history state

/-- The states some steps lead to. -/
inductive Leads (state : S) : S → Prop
  | refl : Leads state state
  | snoc {before after : S} {label : L} (hbefore : Leads state before)
      (hstep : M.step before label after) : Leads state after

variable {M}

theorem Reachable.start {state : S} (hstart : M.start state) :
    M.Reachable state :=
  ⟨[], Run.start hstart⟩

theorem Reachable.step {before after : S} {label : L}
    (hbefore : M.Reachable before) (hstep : M.step before label after) :
    M.Reachable after := by
  obtain ⟨history, hrun⟩ := hbefore
  exact ⟨history ++ [(before, label)], Run.snoc hrun hstep⟩

/-- The invariant rule for conditional runs: what holds at the start and is
kept by every step that meets `allowed` holds after every run all of whose
steps meet it. -/
theorem Run.invariant (allowed : S → L → Prop) {Inv : S → Prop}
    (hstart : ∀ state, M.start state → Inv state)
    (hstep : ∀ before label after, Inv before → allowed before label →
      M.step before label after → Inv after)
    {history : List (S × L)} {state : S} (hrun : M.Run history state)
    (hallowed : ∀ entry ∈ history, allowed entry.1 entry.2) : Inv state := by
  induction hrun with
  | start hs => exact hstart _ hs
  | @snoc history before after label _ hs ih =>
      have hpre : ∀ entry ∈ history, allowed entry.1 entry.2 :=
        fun entry hentry => hallowed entry (List.mem_append_left _ hentry)
      have hlast : allowed before label :=
        hallowed (before, label) (List.mem_append_right _ List.mem_cons_self)
      exact hstep before label after (ih hpre) hlast hs

/-- The same of every state on the way. -/
theorem Run.always (allowed : S → L → Prop) {Inv : S → Prop}
    (hstart : ∀ state, M.start state → Inv state)
    (hstep : ∀ before label after, Inv before → allowed before label →
      M.step before label after → Inv after)
    {history : List (S × L)} {state : S} (hrun : M.Run history state)
    (hallowed : ∀ entry ∈ history, allowed entry.1 entry.2) : Always Inv history state := by
  induction hrun with
  | start hs => exact ⟨nofun, hstart _ hs⟩
  | @snoc history before after label _ hs ih =>
      rw [List.forall_mem_append, List.forall_mem_singleton] at hallowed
      have hbefore := ih hallowed.1
      exact always_snoc.mpr ⟨hbefore, hstep _ _ _ hbefore.2 hallowed.2 hs⟩

/-- The rule for an exact condition: steps that meet `allowed` keep the
invariant, which gives `P`, and the first step that does not destroys `P`. -/
theorem Run.always_iff (allowed : S → L → Prop) {Inv P : S → Prop}
    (hstart : ∀ state, M.start state → Inv state)
    (hstep : ∀ before label after, Inv before → allowed before label →
      M.step before label after → Inv after)
    (hgood : ∀ state, Inv state → P state)
    (hbad : ∀ before label after, Inv before → ¬ allowed before label →
      M.step before label after → ¬ P after)
    {history : List (S × L)} {state : S} (hrun : M.Run history state) :
    Always P history state ↔ ∀ entry ∈ history, allowed entry.1 entry.2 := by
  induction hrun with
  | @start state hs => simp [Always, hgood state (hstart state hs)]
  | @snoc history before after label hbefore hs ih =>
      rw [always_snoc, ih, List.forall_mem_append, List.forall_mem_singleton]
      refine and_congr_right fun hallowed => ?_
      have hinv := hbefore.invariant allowed hstart hstep hallowed
      constructor
      · intro hafter
        by_contra hnot
        exact hbad before label after hinv hnot hs hafter
      · intro hlast
        exact hgood after (hstep before label after hinv hlast hs)

/-- The plain invariant rule. -/
theorem Reachable.invariant {Inv : S → Prop}
    (hstart : ∀ state, M.start state → Inv state)
    (hstep : ∀ before label after, Inv before →
      M.step before label after → Inv after)
    {state : S} (hreach : M.Reachable state) : Inv state := by
  obtain ⟨history, hrun⟩ := hreach
  exact hrun.invariant (fun _ _ => True) hstart
    (fun before label after hinv _ hs => hstep before label after hinv hs)
    (fun _ _ => trivial)

/-- Every state on the way is reachable. -/
theorem Run.reachable_entry {history : List (S × L)} {state : S} (hrun : M.Run history state)
    {entry : S × L} (hentry : entry ∈ history) : M.Reachable entry.1 := by
  induction hrun with
  | start _ => cases hentry
  | @snoc history before after label hbefore _ ih =>
      rcases List.mem_append.mp hentry with hold | hnew
      · exact ih hold
      · rw [List.mem_singleton] at hnew
        exact ⟨history, hnew ▸ hbefore⟩

/-- What one step of a run establishes and no step destroys holds at its
end. -/
theorem Run.persists {P : S → Prop} {history : List (S × L)} {state : S}
    (hrun : M.Run history state) {entry : S × L} (hentry : entry ∈ history)
    (hestablish : ∀ after, M.step entry.1 entry.2 after → P after)
    (hkeep : ∀ before label after, M.Reachable before → P before →
      M.step before label after → P after) : P state := by
  induction hrun with
  | start _ => cases hentry
  | @snoc history before after label hbefore hstep ih =>
      rcases List.mem_append.mp hentry with hold | hnew
      · exact hkeep before label after ⟨history, hbefore⟩ (ih hold) hstep
      · rw [List.mem_singleton] at hnew
        subst hnew
        exact hestablish after hstep

/-- A system whose steps, where `allowed`, are steps of another one. -/
theorem Run.simulate {N : TransitionSystem S L} {history : List (S × L)} {state : S}
    (hrun : M.Run history state) (allowed : S → L → Prop)
    (hstart : ∀ state, M.start state → N.start state)
    (hstep : ∀ before label after, allowed before label →
      M.step before label after → N.step before label after)
    (hallowed : ∀ entry ∈ history, allowed entry.1 entry.2) : N.Run history state := by
  induction hrun with
  | start hs => exact .start (hstart _ hs)
  | @snoc history before after label _ hs ih =>
      rw [List.forall_mem_append, List.forall_mem_singleton] at hallowed
      exact (ih hallowed.1).snoc (hstep before label after hallowed.2 hs)

/-- A run up to its last step, and that step. -/
theorem Run.last {history : List (S × L)} {before state : S} {label : L}
    (hrun : M.Run (history ++ [(before, label)]) state) :
    M.Run history before ∧ M.step before label state := by
  generalize hlonger : history ++ [(before, label)] = longer at hrun
  cases hrun with
  | start => simp at hlonger
  | snoc hbefore hstep =>
      obtain ⟨rfl, hlast⟩ := List.append_inj' hlonger rfl
      obtain ⟨rfl, rfl⟩ := Prod.mk.inj (List.cons.inj hlast).1
      exact ⟨hbefore, hstep⟩

/-- A run up to one of its steps, and that step. -/
theorem Run.split {earlier later : List (S × L)} {before state : S} {label : L}
    (hrun : M.Run (earlier ++ (before, label) :: later) state) :
    M.Run earlier before ∧ ∃ after, M.step before label after := by
  generalize hhistory : earlier ++ (before, label) :: later = history at hrun
  induction hrun generalizing later with
  | start _ => simp at hhistory
  | @snoc history before' after' label' hbefore hstep ih =>
      rcases List.eq_nil_or_concat later with rfl | ⟨init, last, rfl⟩
      · obtain ⟨rfl, hlast⟩ := List.append_inj' hhistory rfl
        obtain ⟨rfl, rfl⟩ := Prod.mk.inj (List.cons.inj hlast).1
        exact ⟨hbefore, after', hstep⟩
      · have hinit : earlier ++ (before, label) :: init ++ [last] = history ++ [(before', label')] := by
          rw [← hhistory]
          simp
        exact ih (List.append_inj' hinit rfl).1

section Traces

variable {A : Type w} (visible : S → L → List A)

/-- What the steps of a run show. -/
def trace (history : List (S × L)) : List A :=
  history.flatMap fun entry => visible entry.1 entry.2

/-- Two systems show the same in any two runs with the same labels. -/
def SameTraces (M N : TransitionSystem S L) : Prop :=
  ∀ ⦃first second : List (S × L)⦄ ⦃s s' : S⦄, M.Run first s → N.Run second s' →
    first.map Prod.snd = second.map Prod.snd → trace visible first = trace visible second

variable (M) in
/-- Some run with these labels reaches the state and shows this. -/
def Shows (labels : List L) (shown : List A) (state : S) : Prop :=
  ∃ history, M.Run history state ∧ history.map Prod.snd = labels ∧ trace visible history = shown

variable {visible}

theorem trace_snoc (history : List (S × L)) (before : S) (label : L) :
    trace visible (history ++ [(before, label)]) =
      trace visible history ++ visible before label := by
  simp [trace]

theorem Shows.start {state : S} (hstart : M.start state) : M.Shows visible [] [] state :=
  ⟨[], .start hstart, rfl, rfl⟩

theorem Shows.snoc {labels : List L} {shown : List A} {before after : S} {label : L}
    (h : M.Shows visible labels shown before) (hstep : M.step before label after) :
    M.Shows visible (labels ++ [label]) (shown ++ visible before label) after := by
  obtain ⟨history, hrun, rfl, rfl⟩ := h
  exact ⟨history ++ [(before, label)], hrun.snoc hstep, by simp, by rw [trace_snoc]⟩

theorem SameTraces.shown_eq {N : TransitionSystem S L} (h : SameTraces visible M N)
    {labels : List L} {shown shown' : List A} {s s' : S} (hfirst : M.Shows visible labels shown s)
    (hsecond : N.Shows visible labels shown' s') : shown = shown' := by
  obtain ⟨first, hrun, hlabels, rfl⟩ := hfirst
  obtain ⟨second, hrun', hlabels', rfl⟩ := hsecond
  exact h hrun hrun' (hlabels.trans hlabels'.symm)

end Traces

end TransitionSystem
