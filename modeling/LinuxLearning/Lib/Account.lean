/-
Accounts over runs: the weights of the members of a family, added up, and the
costs of the steps of a run, added up.  Where every step changes what there is
by what is due and its cost, the two differ by the costs of the run.
-/
import LinuxLearning.Lib.Transition
import Mathlib.Algebra.GroupWithZero.Nat
import Mathlib.Algebra.Order.BigOperators.Group.Finset

universe u v

section Weights

open Function

variable {τ : Type u} {β : Type v}

/-- The weights of some members of a family. -/
def totalWeight (members : Finset τ) (weight : β → Nat) (f : τ → β) : Nat :=
  ∑ t ∈ members, weight (f t)

theorem le_totalWeight {members : Finset τ} (weight : β → Nat) (f : τ → β) {t : τ}
    (ht : t ∈ members) : weight (f t) ≤ totalWeight members weight f :=
  Finset.single_le_sum (f := fun u => weight (f u)) (fun _ _ => Nat.zero_le _) ht

theorem totalWeight_eq_zero {members : Finset τ} {weight : β → Nat} {f : τ → β}
    (h : ∀ t ∈ members, weight (f t) = 0) : totalWeight members weight f = 0 :=
  Finset.sum_eq_zero h

variable [DecidableEq τ]

/-- An update exchanges one weight. -/
theorem totalWeight_update {members : Finset τ} (weight : β → Nat) (f : τ → β) {t : τ}
    (ht : t ∈ members) (b : β) :
    totalWeight members weight (update f t b) + weight (f t) =
      totalWeight members weight f + weight b := by
  have hother : ∀ u ∈ members.erase t, weight (update f t b u) = weight (f u) := by
    intro u hu
    rw [update_of_ne (Finset.ne_of_mem_erase hu)]
  have hrest := Finset.sum_congr rfl hother
  rw [totalWeight, totalWeight, ← Finset.add_sum_erase _ _ ht,
    ← Finset.add_sum_erase _ (fun u => weight (f u)) ht, hrest, update_self]
  omega

end Weights

namespace TransitionSystem

variable {S : Type u} {L : Type v} {M : TransitionSystem S L}

/-- What the steps of a run cost. -/
def totalCost (cost : S → L → Nat) (history : List (S × L)) : Nat :=
  (history.map fun entry => cost entry.1 entry.2).sum

theorem totalCost_concat (cost : S → L → Nat) (history : List (S × L)) (before : S) (label : L) :
    totalCost cost (history ++ [(before, label)]) = totalCost cost history + cost before label := by
  simp [totalCost]

theorem totalCost_eq_zero_iff {cost : S → L → Nat} {history : List (S × L)} :
    totalCost cost history = 0 ↔ ∀ entry ∈ history, cost entry.1 entry.2 = 0 := by
  rw [totalCost, List.sum_eq_zero_iff_forall_eq_nat, List.forall_mem_map]

/-- The account of a run: what there is, what is due, and what it has cost. -/
theorem Run.account (held due : S → Nat) (cost : S → L → Nat)
    (hstart : ∀ {s}, M.start s → held s = due s)
    (hstep : ∀ {before label after n}, M.Reachable before → M.step before label after →
      held before = due before + n → held after = due after + (n + cost before label))
    {history : List (S × L)} {s : S} (hrun : M.Run history s) :
    held s = due s + totalCost cost history := by
  induction hrun with
  | start hs => exact hstart hs
  | @snoc history before after label hbefore hs ih =>
      rw [totalCost_concat]
      exact hstep ⟨history, hbefore⟩ hs ih

end TransitionSystem
