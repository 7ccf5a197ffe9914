/-
Tables whose slots are filled first-free.  One value marks a free slot; every
other value stands in one slot at most.  When the values are numbers of a
range, a stretch of slots that is longer than the range has a free one.
-/
import Mathlib.Data.Int.Interval
import Mathlib.Order.Interval.Finset.Nat

universe u

namespace SlotTable

variable {α : Type u}

/-- The first free slot. -/
@[irreducible] def firstFree [DecidableEq α] (size : Nat) (free : α) (table : Nat → α) :
    Option Nat :=
  (List.range size).find? fun i => table i = free

/-- No two slots from `first` on hold the same value. -/
def Exclusive (first size : Nat) (free : α) (table : Nat → α) : Prop :=
  ∀ i j, first ≤ i → i < size → first ≤ j → j < size → table i = table j → table i ≠ free → i = j

section FirstFree

variable [DecidableEq α] {size : Nat} {free : α} {table : Nat → α} {i : Nat}

theorem firstFree_eq_some : firstFree size free table = some i ↔
    i < size ∧ table i = free ∧ ∀ j < i, table j ≠ free := by
  rw [firstFree, List.find?_range_eq_some]
  simp only [decide_eq_true_eq, List.mem_range, Bool.not_eq_true', decide_eq_false_iff_not]
  constructor
  · rintro ⟨hfree, hsize, hbefore⟩
    exact ⟨hsize, hfree, hbefore⟩
  · rintro ⟨hsize, hfree, hbefore⟩
    exact ⟨hfree, hsize, hbefore⟩

/-- A free slot bounds the first one. -/
theorem exists_firstFree (hsize : i < size) (hfree : table i = free) :
    ∃ k ≤ i, firstFree size free table = some k := by
  cases hfirst : firstFree size free table with
  | none =>
      rw [firstFree, List.find?_range_eq_none] at hfirst
      simpa [hfree] using hfirst i hsize
  | some k =>
      refine ⟨k, ?_, rfl⟩
      obtain ⟨-, -, hbefore⟩ := firstFree_eq_some.mp hfirst
      by_contra hlt
      exact hbefore i (Nat.lt_of_not_le hlt) hfree

end FirstFree

section Exclusive

variable {first size : Nat} {free value : α} {table : Nat → α}

/-- A value that stands nowhere is put into a slot. -/
theorem Exclusive.put (h : Exclusive first size free table) (k : Nat)
    (hfresh : ∀ i, first ≤ i → i < size → table i ≠ value) :
    Exclusive first size free (Function.update table k value) := by
  intro i j hi hisize hj hjsize hsame hne
  by_cases hik : i = k
  · subst hik
    by_contra hij
    rw [Function.update_self, Function.update_of_ne (Ne.symm hij)] at hsame
    exact hfresh j hj hjsize hsame.symm
  · by_cases hjk : j = k
    · subst hjk
      rw [Function.update_self, Function.update_of_ne hik] at hsame
      exact absurd hsame (hfresh i hi hisize)
    · rw [Function.update_of_ne hik, Function.update_of_ne hjk] at hsame
      rw [Function.update_of_ne hik] at hne
      exact h i j hi hisize hj hjsize hsame hne

/-- A slot is made free. -/
theorem Exclusive.clear (h : Exclusive first size free table) (k : Nat) :
    Exclusive first size free (Function.update table k free) := by
  intro i j hi hisize hj hjsize hsame hne
  have hik : i ≠ k := by
    rintro rfl
    exact hne (Function.update_self i free table)
  rw [Function.update_of_ne hik] at hsame hne
  have hjk : j ≠ k := by
    rintro rfl
    rw [Function.update_self] at hsame
    exact hne hsame
  rw [Function.update_of_ne hjk] at hsame
  exact h i j hi hisize hj hjsize hsame hne

end Exclusive

/-- Slots that hold different numbers of a range are at most as many as these. -/
theorem exists_free {first size : Nat} {free low high : Int} {table : Nat → Int}
    (h : Exclusive first size free table)
    (hrange : ∀ i, first ≤ i → i < size → table i ≠ free → low ≤ table i ∧ table i < high)
    (hcard : high - low < size - first) (hle : first < size) :
    ∃ i, first ≤ i ∧ i < size ∧ table i = free := by
  by_contra hnone
  push Not at hnone
  have hmaps : Set.MapsTo table (Finset.Ico first size) (Finset.Ico low high) := by
    intro i hi
    rw [Finset.coe_Ico, Set.mem_Ico] at hi
    rw [Finset.coe_Ico, Set.mem_Ico]
    exact hrange i hi.1 hi.2 (hnone i hi.1 hi.2)
  have hinjective : Set.InjOn table (Finset.Ico first size) := by
    intro i hi j hj hsame
    rw [Finset.coe_Ico, Set.mem_Ico] at hi hj
    exact h i j hi.1 hi.2 hj.1 hj.2 hsame (hnone i hi.1 hi.2)
  have hcount := Finset.card_le_card_of_injOn table hmaps hinjective
  rw [Nat.card_Ico, Int.card_Ico] at hcount
  omega

end SlotTable
