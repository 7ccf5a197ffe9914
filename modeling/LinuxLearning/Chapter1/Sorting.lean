/-
The two sorting routines of chapter_1/gdb.  Both are doubly nested loops over
the same array; a load or a store outside it is a fault.
-/
import Mathlib.Order.MinMax
import LinuxLearning.Lib.CountedLoop
import LinuxLearning.Lib.Exchange

namespace LinuxLearning.Chapter1

open CountedLoop Exchange

/-- `array[i] = value` -/
def store (array : Array Int) (i : Nat) (value : Int) : Option (Array Int) :=
  if h : i < array.size then some (array.set i value) else none

/-- `if (array[i] > array[k]) { temp = array[i]; array[i] = array[k]; array[k] = temp; }` -/
def exchangeIfGreater (array : Array Int) (i k : Nat) : Option (Array Int) := do
  if (← array[i]?) > (← array[k]?) then
    let temp ← array[i]?
    let array ← store array i (← array[k]?)
    store array k temp
  else
    some array

/-- `bubbleSort` -/
def bubbleSort (array : Array Int) (len : Nat) : Option (Array Int) :=
  -- for `len = 0` the bound is -1 in the source and 0 here: no turn either way
  forUp (fun i array =>
    forUp (fun j array => exchangeIfGreater array j (j + 1)) 0 (len - 1 - i) array)
    0 (len - 1) array

/-- `selectSort` -/
def selectSort (array : Array Int) (len : Nat) : Option (Array Int) :=
  forUp (fun j array =>
    forUp (fun i array => exchangeIfGreater array j i) (j + 1) len array)
    0 (len - 1) array

variable {array before : Array Int}

theorem store_of_lt {i : Nat} (hi : i < array.size) (value : Int) :
    store array i value = some (array.set i value) := dif_pos hi

/-- Within the array the turn puts the two elements in order. -/
theorem exchangeIfGreater_eq {i k : Nat} (hi : i < array.size) (hk : k < array.size) :
    exchangeIfGreater array i k = some (order array i k hi hk) := by
  unfold exchangeIfGreater order
  rw [Array.getElem?_eq_getElem hi, Array.getElem?_eq_getElem hk]
  simp only [Option.bind_eq_bind, Option.bind_some, store_of_lt hi]
  split_ifs
  · rw [store_of_lt (by rwa [Array.size_set])]
    rfl
  · rfl

/-- The state of `bubbleSort` before the turn `j` of a round: the positions
from `e` on are settled, and `j` holds a greatest element so far. -/
structure BubbleInv (before : Array Int) (e j : Nat) (array : Array Int) : Prop where
  perm : array.Perm before
  settled : Settled (e ≤ ·) array
  greatest : ∀ (k : Nat) (_ : k < j) (_ : j < array.size), array[k] ≤ array[j]

theorem BubbleInv.turn {e j : Nat} (h : BubbleInv before e j array) (hj : j + 1 < e)
    (he : e ≤ before.size) :
    ∃ after, exchangeIfGreater array j (j + 1) = some after ∧ BubbleInv before e (j + 1) after := by
  have hsize := h.perm.size_eq
  have hsecond : j + 1 < array.size := by omega
  have hfirst : j < array.size := by omega
  refine ⟨_, exchangeIfGreater_eq hfirst hsecond, (order_perm _ _).trans h.perm, ?_, ?_⟩
  · exact h.settled.order hfirst hsecond (Nat.le_succ j) fun i _ hi => by omega
  · intro k hk _
    rw [getElem_order_second]
    rcases Nat.lt_or_eq_of_le (Nat.le_of_lt_succ hk) with hlt | rfl
    · rw [getElem_order_of_ne _ _ (by omega) (by omega) (by omega)]
      exact le_max_of_le_left (h.greatest k hlt hfirst)
    · rw [getElem_order_first]
      exact min_le_max

/-- One round settles one more position. -/
theorem BubbleInv.round {e : Nat} (h : BubbleInv before (e + 1) 0 array)
    (he : e < before.size) :
    ∃ after, forUp (fun j array => exchangeIfGreater array j (j + 1)) 0 e array = some after ∧
      BubbleInv before e 0 after := by
  obtain ⟨after, hrun, hafter⟩ :=
    forUp_invariant (Nat.zero_le e) h fun j array _ hj hinv => hinv.turn (by omega) he
  refine ⟨after, hrun, hafter.perm, ?_, fun k hk => absurd hk (Nat.not_lt_zero k)⟩
  refine hafter.settled.insert (m := e) (fun i hi => by omega) ?_ ?_
  · exact fun k hk hsize _ => hafter.greatest k hk hsize
  · exact fun k hk _ hnot => absurd hk hnot

theorem bubbleSort_spec (array : Array Int) :
    ∃ sorted, bubbleSort array array.size = some sorted ∧ sorted.Perm array ∧
      sorted.toList.Pairwise (· ≤ ·) := by
  have hstart : BubbleInv array (array.size - 0) 0 array :=
    ⟨.refl array, settled_of_none fun i hi hle => by omega,
      fun k hk => absurd hk (Nat.not_lt_zero k)⟩
  obtain ⟨sorted, hrun, hsorted⟩ :=
    forUp_invariant (I := fun i sorted => BubbleInv array (array.size - i) 0 sorted)
      (Nat.zero_le (array.size - 1)) hstart fun i round _ hi hinv => by
        have he : array.size - i = array.size - 1 - i + 1 := by omega
        rw [he] at hinv
        rw [← Nat.sub_sub, Nat.sub_right_comm]
        exact hinv.round (by omega)
  refine ⟨sorted, hrun, hsorted.perm, hsorted.settled.sorted fun i k hik hk => ?_⟩
  right
  omega

/-- The state of `selectSort` before the turn `i` of a round: the positions
below `j` are settled, and `j` holds a least element so far. -/
structure SelectInv (before : Array Int) (j i : Nat) (array : Array Int) : Prop where
  perm : array.Perm before
  settled : Settled (· < j) array
  least : ∀ (k : Nat) (_ : j < k) (_ : k < i) (_ : k < array.size), array[j] ≤ array[k]

theorem SelectInv.turn {j i : Nat} (h : SelectInv before j i array) (hji : j < i)
    (hi : i < before.size) :
    ∃ after, exchangeIfGreater array j i = some after ∧ SelectInv before j (i + 1) after := by
  have hsize := h.perm.size_eq
  have hsecond : i < array.size := by omega
  have hfirst : j < array.size := by omega
  refine ⟨_, exchangeIfGreater_eq hfirst hsecond, (order_perm _ _).trans h.perm, ?_, ?_⟩
  · exact h.settled.order hfirst hsecond (Nat.le_of_lt hji) fun k hk _ => by omega
  · intro k hk hki _
    rw [getElem_order_first]
    rcases Nat.lt_or_eq_of_le (Nat.le_of_lt_succ hki) with hlt | rfl
    · rw [getElem_order_of_ne _ _ (by omega) (by omega) (by omega)]
      exact min_le_of_left_le (h.least k hk hlt (by omega))
    · rw [getElem_order_second]
      exact min_le_max

theorem SelectInv.round {j : Nat} (h : SelectInv before j (j + 1) array)
    (hj : j < before.size) :
    ∃ after, forUp (fun i array => exchangeIfGreater array j i) (j + 1) before.size array =
        some after ∧ SelectInv before (j + 1) (j + 2) after := by
  obtain ⟨after, hrun, hafter⟩ :=
    forUp_invariant hj h fun i array hji hi hinv => hinv.turn hji hi
  refine ⟨after, hrun, hafter.perm, ?_, fun k hk hlt => by omega⟩
  refine hafter.settled.insert (m := j) (fun i hi => by omega) ?_ ?_
  · exact fun k hk _ hnot => absurd hk hnot
  · exact fun k hk hsize _ => hafter.least k hk (hafter.perm.size_eq ▸ hsize) hsize

theorem selectSort_spec (array : Array Int) :
    ∃ sorted, selectSort array array.size = some sorted ∧ sorted.Perm array ∧
      sorted.toList.Pairwise (· ≤ ·) := by
  have hstart : SelectInv array 0 1 array :=
    ⟨.refl array, settled_of_none fun i _ hi => absurd hi (Nat.not_lt_zero i),
      fun k hk hlt => by omega⟩
  obtain ⟨sorted, hrun, hsorted⟩ :=
    forUp_invariant (I := fun j sorted => SelectInv array j (j + 1) sorted)
      (Nat.zero_le (array.size - 1)) hstart fun j round _ hj hinv => hinv.round (by omega)
  have hsize := hsorted.perm.size_eq
  refine ⟨sorted, hrun, hsorted.perm, hsorted.settled.sorted fun i k hik hk => ?_⟩
  left
  omega

/-- Both routines stay within the array and sort it, with the same result. -/
theorem sorts_agree (array : Array Int) :
    ∃ sorted, bubbleSort array array.size = some sorted ∧
      selectSort array array.size = some sorted ∧ sorted.Perm array ∧
      sorted.toList.Pairwise (· ≤ ·) := by
  obtain ⟨sorted, hbubble, hperm, hsorted⟩ := bubbleSort_spec array
  obtain ⟨sorted', hselect, hperm', hsorted'⟩ := selectSort_spec array
  obtain rfl := eq_of_sorted (hperm.trans hperm'.symm) hsorted hsorted'
  exact ⟨sorted, hbubble, hselect, hperm, hsorted⟩

example : bubbleSort #[25, 47, 36, 80, 11] 5 = some #[11, 25, 36, 47, 80] := by decide

end LinuxLearning.Chapter1
