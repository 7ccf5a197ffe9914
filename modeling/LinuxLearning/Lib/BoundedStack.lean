/-
A stack that holds at most `capacity` values, and threads that use a buffer
under a lock as such a stack.  In every run of the stack a pop removes the
value of the last push that is still unmatched: between the two stand complete
pairs of a push and a pop.
-/
import LinuxLearning.Lib.Monitor
import LinuxLearning.Lib.Refinement

universe u v w x y

/-- What is done with a stack; `top` is what a pop finds there. -/
inductive StackAct (α : Type u) where
  | push (value : α)
  | pop (top : Option α)
deriving DecidableEq

/-- The stack, the newest value first. -/
def boundedStack (α : Type u) (capacity : Nat) : TransitionSystem (List α) (StackAct α) where
  start stack := stack = []
  step stack act after := match act with
    | .push value => stack.length < capacity ∧ after = value :: stack
    | .pop top => ∃ value, top = some value ∧ stack = value :: after

namespace BoundedStack

variable {α : Type u}

/-- Complete pairs of a push and a pop, side by side or inside each other. -/
inductive Nested : List (StackAct α) → Prop
  | nil : Nested []
  | pair {before inside : List (StackAct α)} {value : α} (hbefore : Nested before)
      (hinside : Nested inside) :
      Nested (before ++ .push value :: (inside ++ [.pop (some value)]))

theorem Nested.append {first second : List (StackAct α)} (hfirst : Nested first)
    (hsecond : Nested second) : Nested (first ++ second) := by
  induction hsecond with
  | nil => rwa [List.append_nil]
  | pair _ hinside ih _ =>
      rw [← List.append_assoc]
      exact .pair ih hinside

/-- Actions that leave these values on the stack: the pushes of the values,
and complete pairs before, between and behind them. -/
inductive Leaves : List α → List (StackAct α) → Prop
  | nil {acts : List (StackAct α)} (hnested : Nested acts) : Leaves [] acts
  | push {stack : List α} {earlier inside : List (StackAct α)} {value : α}
      (hearlier : Leaves stack earlier) (hinside : Nested inside) :
      Leaves (value :: stack) (earlier ++ .push value :: inside)

theorem Leaves.append {stack : List α} {acts later : List (StackAct α)} (h : Leaves stack acts)
    (hlater : Nested later) : Leaves stack (acts ++ later) := by
  cases h with
  | nil hnested => exact .nil (hnested.append hlater)
  | push hearlier hinside =>
      rw [List.append_assoc, List.cons_append]
      exact .push hearlier (hinside.append hlater)

variable {capacity : Nat} {history : List (List α × StackAct α)} {stack : List α}

theorem length_le (hrun : (boundedStack α capacity).Run history stack) :
    stack.length ≤ capacity := by
  induction hrun with
  | start hstart =>
      rw [show _ = [] from hstart]
      exact Nat.zero_le _
  | @snoc history before after act _ hstep ih =>
      cases act with
      | push value =>
          obtain ⟨hroom, rfl⟩ := hstep
          exact hroom
      | pop top =>
          obtain ⟨value, -, rfl⟩ := hstep
          exact Nat.le_of_succ_le ih

/-- What a run leaves. -/
theorem leaves (hrun : (boundedStack α capacity).Run history stack) :
    Leaves stack (history.map Prod.snd) := by
  induction hrun with
  | start hstart =>
      rw [show _ = [] from hstart]
      exact .nil .nil
  | @snoc history before after act _ hstep ih =>
      rw [List.map_append]
      cases act with
      | push value =>
          obtain ⟨-, rfl⟩ := hstep
          exact .push ih .nil
      | pop top =>
          obtain ⟨value, rfl, rfl⟩ := hstep
          -- the pair of the popped value is complete now
          generalize history.map Prod.snd = acts at ih ⊢
          cases ih with
          | @push _ earlier inside _ hearlier hinside =>
              have hpair : Nested (.push value :: (inside ++ [.pop (some value)])) :=
                .pair .nil hinside
              simpa using hearlier.append hpair

/-- A pop finds the value of the last unmatched push. -/
theorem pop_matched {after : List α} {top : Option α}
    (hrun : (boundedStack α capacity).Run (history ++ [(stack, .pop top)]) after) :
    ∃ value earlier inside, top = some value ∧
      history.map Prod.snd = earlier ++ .push value :: inside ∧ Nested inside := by
  obtain ⟨hbefore, value, rfl, rfl⟩ := hrun.last
  generalize hacts : history.map Prod.snd = acts
  have hleaves := leaves hbefore
  rw [hacts] at hleaves
  cases hleaves with
  | @push _ earlier inside _ _ hinside => exact ⟨value, earlier, inside, rfl, rfl, hinside⟩

end BoundedStack

namespace Monitor

open TransitionSystem

variable {τ : Type u} {σ : Type v} {β : Type w} {α : Type x} {V : Type y} [DecidableEq τ]

/-- What an action does with the buffer. -/
inductive StackOp (V : Type y) where
  | push (value : V)
  | pop

/-- The buffer behind an operation, the newest value last. -/
def StackOp.apply (values : List V) : Option (StackOp V) → List V
  | some (.push value) => values ++ [value]
  | some .pop => values.dropLast
  | none => values

/-- What a step shows of the buffer. -/
def stackShown (buf : σ → List V) (op : α → Option (StackOp V)) (s : State τ σ β)
    (label : τ × α) : Option (StackAct V) :=
  (op label.2).map fun
    | .push value => .push value
    | .pop => .pop (buf s.shared).getLast?

/-- Threads that use a buffer of at most `capacity` values as a stack, inside
their critical sections only. -/
structure UsesStack (M : Monitor τ σ β α) (start : State τ σ β → Prop) (Critical : β → Prop)
    (capacity : Nat) (buf : σ → List V) (op : α → Option (StackOp V)) : Prop where
  bracketed : M.Bracketed Critical
  exclusive : ∀ {s}, start s → Exclusive Critical s.holder s.threads
  empty : ∀ {s}, start s → buf s.shared = []
  effect : ∀ data t act, buf (M.effect data t act) = StackOp.apply (buf data) (op act)
  inside : ∀ {pc act pc'}, M.next pc act pc' → ¬ Critical pc → op act = none
  room : ∀ {s t act pc value}, (M.system start).Reachable s → M.next (s.threads t) act pc →
    op act = some (.push value) → (buf s.shared).length < capacity
  value : ∀ {s t act pc}, (M.system start).Reachable s → M.next (s.threads t) act pc →
    op act = some .pop → buf s.shared ≠ []

/-- A run in which the buffer is a stack, and what a thread reads there it
pops. -/
structure StackRun (capacity : Nat) (buf : σ → List V) (op : α → Option (StackOp V))
    (reads : α → Prop) (history : List (State τ σ β × (τ × α))) (s : State τ σ β) : Prop where
  /-- What is done with the buffer is a run of the stack. -/
  run : (boundedStack V capacity).Run
    (observed (fun s => (buf s.shared).reverse) (stackShown buf op) history) (buf s.shared).reverse
  /-- A pop removes the value of the last unmatched push. -/
  matched : ∀ {earlier later before t act}, history = earlier ++ (before, t, act) :: later →
    op act = some .pop → ∃ value front inside, (buf before.shared).getLast? = some value ∧
      (observed (fun s => (buf s.shared).reverse) (stackShown buf op) earlier).map Prod.snd =
        front ++ .push value :: inside ∧ BoundedStack.Nested inside
  /-- Between what a thread reads and its next action the buffer stays. -/
  reads : ∀ {earlier between later before middle t act act'},
    history = earlier ++ (before, t, act) :: (between ++ (middle, t, act') :: later) →
    reads act → (∀ entry ∈ between, entry.2.1 ≠ t) → buf middle.shared = buf before.shared

namespace UsesStack

variable {M : Monitor τ σ β α} {start : State τ σ β → Prop} {Critical : β → Prop}
  {capacity : Nat} {buf : σ → List V} {op : α → Option (StackOp V)}

/-- The threads carry out the stack. -/
theorem refines (h : M.UsesStack start Critical capacity buf op) :
    (M.system start).Refines (boundedStack V capacity) (fun s => (buf s.shared).reverse)
      (stackShown buf op) where
  start hstart := by
    change List.reverse _ = []
    rw [h.empty hstart, List.reverse_nil]
  shows := by
    intro before label after act hreach hstep hevent
    obtain @⟨t, act', pc, hnext, -, -⟩ := hstep
    dsimp only
    rw [h.effect]
    cases hop : op act' with
    | none => simp [stackShown, hop] at hevent
    | some operation =>
        rw [stackShown, hop, Option.map_some, Option.some.injEq] at hevent
        subst hevent
        cases operation with
        | push value =>
            have hroom := h.room hreach hnext hop
            refine ⟨by rwa [List.length_reverse], ?_⟩
            rw [StackOp.apply, List.reverse_append]
            rfl
        | pop =>
            have hne := h.value hreach hnext hop
            refine ⟨(buf before.shared).getLast hne, List.getLast?_eq_some_getLast hne, ?_⟩
            rw [StackOp.apply, ← List.reverse_concat, List.dropLast_append_getLast]
  silent := by
    intro before label after _ hstep hevent
    obtain @⟨t, act, pc, -, -, -⟩ := hstep
    rw [stackShown, Option.map_eq_none_iff] at hevent
    dsimp only at hevent ⊢
    rw [h.effect, hevent]
    rfl

/-- Every run uses the buffer as a stack. -/
theorem stackRun (h : M.UsesStack start Critical capacity buf op) {reads : α → Prop}
    (hreads : ∀ {pc act pc'}, M.next pc act pc' → reads act → Critical pc' ∧ op act = none)
    {history : List (State τ σ β × (τ × α))} {s : State τ σ β}
    (hrun : (M.system start).Run history s) : StackRun capacity buf op reads history s where
  run := h.refines.run hrun
  matched := by
    rintro earlier later before t act rfl hpop
    obtain ⟨hbefore, after, hstep⟩ := hrun.split
    have hshown := h.refines.run (hbefore.snoc hstep)
    rw [observed_append] at hshown
    have hlast : observed (fun s => (buf s.shared).reverse) (stackShown buf op)
        [(before, t, act)] =
        [((buf before.shared).reverse, .pop (buf before.shared).getLast?)] := by
      simp [observed, stackShown, hpop]
    rw [hlast] at hshown
    obtain ⟨value, front, inside, htop, hacts, hnested⟩ := BoundedStack.pop_matched hshown
    exact ⟨value, front, inside, htop, hacts, hnested⟩
  reads := by
    rintro earlier between later before middle t act act' rfl hread hother
    rw [← List.cons_append, ← List.append_assoc] at hrun
    obtain ⟨hmiddle, -⟩ := hrun.split
    obtain ⟨hcritical, hnone⟩ := hreads (next_of_run hmiddle hother) hread
    have hview : ∀ {pc act pc' data t}, M.next pc act pc' → ¬ Critical pc →
        buf (M.effect data t act) = buf data := by
      intro pc act pc' data t hnext houtside
      rw [h.effect, h.inside hnext houtside]
      rfl
    rw [h.bracketed.untouched (fun _ hs => h.exclusive hs) buf hview hmiddle hother hcritical,
      h.effect, hnone]
    rfl

end UsesStack

end Monitor
