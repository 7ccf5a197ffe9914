/-
How many members of a family have a property.  The family may be infinite, as
long as those members are not; an update of one member changes the count by
one at most, and says how.
-/
import Mathlib.Data.Set.Card
import Mathlib.Logic.Function.Basic

universe u v

variable {ι : Type u} {α : Type v}

/-- Exactly `n` members of the family have the property. -/
def Census (P : α → Prop) (f : ι → α) (n : Nat) : Prop :=
  ∃ members : Finset ι, (∀ i, i ∈ members ↔ P (f i)) ∧ members.card = n

namespace Census

open Function

variable {P : α → Prop} {f : ι → α} {n : Nat}

theorem none (h : ∀ i, ¬ P (f i)) : Census P f 0 :=
  ⟨∅, fun i => iff_of_false (Finset.notMem_empty i) (h i), rfl⟩

theorem unique {m : Nat} (hfirst : Census P f m) (hsecond : Census P f n) : m = n := by
  obtain ⟨first, hmem, rfl⟩ := hfirst
  obtain ⟨second, hmem', rfl⟩ := hsecond
  have hsame : first = second := by
    ext i
    rw [hmem, hmem']
  rw [hsame]

/-- The members with the property, counted as a set. -/
theorem ncard (h : Census P f n) :
    {i | P (f i)}.Finite ∧ {i | P (f i)}.ncard = n := by
  obtain ⟨members, hmem, rfl⟩ := h
  have hsame : {i | P (f i)} = ↑members := by
    ext i
    exact (hmem i).symm
  rw [hsame]
  exact ⟨members.finite_toSet, Set.ncard_coe_finset members⟩

theorem pos {i : ι} (h : Census P f n) (hi : P (f i)) : 0 < n := by
  obtain ⟨members, hmem, rfl⟩ := h
  exact Finset.card_pos.mpr ⟨i, (hmem i).mpr hi⟩

/-- A weaker property has at least as many members. -/
theorem mono {Q : α → Prop} {m : Nat} (h : Census P f n) (hQ : Census Q f m)
    (hweaker : ∀ {a}, P a → Q a) : n ≤ m := by
  obtain ⟨members, hmem, rfl⟩ := h
  obtain ⟨members', hmem', rfl⟩ := hQ
  apply Finset.card_le_card
  intro i hi
  exact (hmem' i).mpr (hweaker ((hmem i).mp hi))

variable [DecidableEq ι]

/-- A member that keeps the property, or keeps not having it. -/
theorem keep {i : ι} {a : α} (h : Census P f n) (hsame : P a ↔ P (f i)) :
    Census P (update f i a) n := by
  obtain ⟨members, hmem, hcard⟩ := h
  refine ⟨members, fun j => ?_, hcard⟩
  by_cases hj : j = i
  · subst hj
    rw [update_self, hmem, hsame]
  · rw [update_of_ne hj, hmem]

/-- A member that gets the property. -/
theorem enter {i : ι} {a : α} (h : Census P f n) (hbefore : ¬ P (f i)) (hafter : P a) :
    Census P (update f i a) (n + 1) := by
  obtain ⟨members, hmem, hcard⟩ := h
  have hfresh : i ∉ members := fun hi => hbefore ((hmem i).mp hi)
  refine ⟨insert i members, fun j => ?_, ?_⟩
  · by_cases hj : j = i
    · subst hj
      simp [hafter]
    · rw [update_of_ne hj, Finset.mem_insert, hmem]
      exact or_iff_right hj
  · rw [Finset.card_insert_of_notMem hfresh, hcard]

/-- A member that loses the property. -/
theorem leave {i : ι} {a : α} (h : Census P f n) (hbefore : P (f i)) (hafter : ¬ P a) :
    Census P (update f i a) (n - 1) := by
  obtain ⟨members, hmem, hcard⟩ := h
  refine ⟨members.erase i, fun j => ?_, ?_⟩
  · by_cases hj : j = i
    · subst hj
      simp [hafter]
    · rw [update_of_ne hj, Finset.mem_erase, hmem]
      exact and_iff_right hj
  · rw [Finset.card_erase_of_mem ((hmem i).mpr hbefore), hcard]

/-- Any update, as an equation. -/
theorem change [DecidablePred P] (h : Census P f n) (i : ι) (a : α) :
    ∃ m, Census P (update f i a) m ∧
      m + (if P (f i) then 1 else 0) = n + if P a then 1 else 0 := by
  by_cases hbefore : P (f i) <;> by_cases hafter : P a
  · exact ⟨n, h.keep (iff_of_true hafter hbefore), by rw [if_pos hbefore, if_pos hafter]⟩
  · have hpos := h.pos hbefore
    refine ⟨n - 1, h.leave hbefore hafter, ?_⟩
    rw [if_pos hbefore, if_neg hafter]
    omega
  · exact ⟨n + 1, h.enter hbefore hafter, by rw [if_neg hbefore, if_pos hafter]⟩
  · exact ⟨n, h.keep (iff_of_false hafter hbefore), by rw [if_neg hbefore, if_neg hafter]⟩

end Census
