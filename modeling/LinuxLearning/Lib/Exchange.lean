/-
Sorting an array in place by exchanges.  A position is settled when what
stands there is in order with everything that stands before and behind it;
exchanges of positions that are not settled keep the settled ones, and an
array with all but one of its positions settled is sorted.
-/
import Mathlib.Data.List.Sort

universe u

namespace Exchange

variable {α : Type u} {a : Array α} {P Q : Nat → Prop}

/-- Where the element comes from that stands at `i` after an exchange. -/
def partner (p q i : Nat) : Nat := if i = p then q else if i = q then p else i

theorem partner_inside {p q i : Nat} (hpq : p ≤ q) :
    p ≤ partner p q i ∧ partner p q i ≤ q ↔ p ≤ i ∧ i ≤ q := by
  unfold partner
  split_ifs <;> omega

theorem partner_outside {p q i : Nat} (hi : i < p ∨ q < i) (hpq : p ≤ q) :
    partner p q i = i := by
  rw [partner, if_neg (by omega), if_neg (by omega)]

theorem partner_lt {p q i : Nat} (hp : p < a.size) (hq : q < a.size) (hi : i < a.size) :
    partner p q i < a.size := by
  unfold partner
  split_ifs
  · exact hq
  · exact hp
  · exact hi

theorem getElem_swap_partner {p q i : Nat} (hp : p < a.size) (hq : q < a.size)
    (hi : i < (a.swap p q).size) (hpartner : partner p q i < a.size) :
    (a.swap p q)[i] = a[partner p q i] := by
  rw [Array.getElem_swap]
  unfold partner
  split_ifs <;> rfl

variable [LinearOrder α]

/-- What stands at the positions of `P` is in order with everything else. -/
def Settled (P : Nat → Prop) (a : Array α) : Prop :=
  ∀ (i k : Nat) (_ : i < k) (_ : k < a.size), P i ∨ P k → a[i] ≤ a[k]

theorem settled_of_none (hnone : ∀ i < a.size, ¬ P i) : Settled P a := by
  rintro i k hik hk (hi | hk')
  · exact absurd hi (hnone i (Nat.lt_trans hik hk))
  · exact absurd hk' (hnone k hk)

/-- An exchange keeps what is settled outside the two positions. -/
theorem Settled.swap (h : Settled P a) {p q : Nat} (hpq : p ≤ q) (hq : q < a.size)
    (hbetween : ∀ i, p ≤ i → i ≤ q → ¬ P i) : Settled P (a.swap p q) := by
  intro i k hik hk hP
  have hk' : k < a.size := by rwa [Array.size_swap] at hk
  have hi' : i < a.size := Nat.lt_trans hik hk'
  have hp : p < a.size := Nat.lt_of_le_of_lt hpq hq
  have hpi := partner_lt hp hq hi'
  have hpk := partner_lt hp hq hk'
  rw [getElem_swap_partner hp hq _ hpi, getElem_swap_partner hp hq _ hpk]
  rcases hP with hi | hk
  · have hout : i < p ∨ q < i := by
      by_contra hin
      exact hbetween i (by omega) (by omega) hi
    have hsame := partner_outside hout hpq
    have hlt : partner p q i < partner p q k := by
      have := partner_inside (i := k) hpq
      have := @partner_outside p q k
      omega
    exact h _ _ hlt hpk (Or.inl (hsame.symm ▸ hi))
  · have hout : k < p ∨ q < k := by
      by_contra hin
      exact hbetween k (by omega) (by omega) hk
    have hsame := partner_outside hout hpq
    have hlt : partner p q i < partner p q k := by
      have := partner_inside (i := i) hpq
      have := @partner_outside p q i
      omega
    exact h _ _ hlt hpk (Or.inr (hsame.symm ▸ hk))

/-- The elements at two positions, put in order. -/
def order (a : Array α) (p q : Nat) (hp : p < a.size) (hq : q < a.size) : Array α :=
  if a[p] > a[q] then a.swap p q else a

section Order

variable {p q : Nat} (hp : p < a.size) (hq : q < a.size)

theorem order_perm : (order a p q hp hq).Perm a := by
  unfold order
  split_ifs
  · exact Array.swap_perm hp hq
  · exact .refl a

theorem getElem_order_first (hp' : p < (order a p q hp hq).size) :
    (order a p q hp hq)[p] = min a[p] a[q] := by
  unfold order
  split_ifs with hgt
  · rw [Array.getElem_swap_left, min_eq_right (le_of_lt hgt)]
  · rw [min_eq_left (le_of_not_gt hgt)]

theorem getElem_order_second (hq' : q < (order a p q hp hq).size) :
    (order a p q hp hq)[q] = max a[p] a[q] := by
  unfold order
  split_ifs with hgt
  · rw [Array.getElem_swap_right, max_eq_left (le_of_lt hgt)]
  · rw [max_eq_right (le_of_not_gt hgt)]

theorem getElem_order_of_ne {i : Nat} (hi : i < a.size) (hip : i ≠ p) (hiq : i ≠ q)
    (hi' : i < (order a p q hp hq).size) : (order a p q hp hq)[i] = a[i] := by
  unfold order
  split_ifs
  · exact Array.getElem_swap_of_ne hip hiq
  · rfl

/-- What is settled outside the two positions and between them stays settled. -/
theorem Settled.order (h : Settled P a) (hpq : p ≤ q)
    (hbetween : ∀ i, p ≤ i → i ≤ q → ¬ P i) : Settled P (order a p q hp hq) := by
  unfold Exchange.order
  split_ifs
  · exact h.swap hpq hq hbetween
  · exact h

end Order

/-- One more position is settled once its element is in order with all that
are not. -/
theorem Settled.insert (h : Settled P a) {m : Nat} (hQ : ∀ i, Q i → P i ∨ i = m)
    (hbefore : ∀ (k : Nat) (_ : k < m) (_ : m < a.size), ¬ P k → a[k] ≤ a[m])
    (hbehind : ∀ (k : Nat) (_ : m < k) (_ : k < a.size), ¬ P k → a[m] ≤ a[k]) :
    Settled Q a := by
  intro i k hik hk hP
  by_cases hsettled : P i ∨ P k
  · exact h i k hik hk hsettled
  · rw [not_or] at hsettled
    rcases hP with hi | hk'
    · obtain rfl : i = m := (hQ i hi).resolve_left hsettled.1
      exact hbehind k hik hk hsettled.2
    · obtain rfl : k = m := (hQ k hk').resolve_left hsettled.2
      exact hbefore i hik hk hsettled.1

/-- With all positions but one settled the array is sorted. -/
theorem Settled.sorted (h : Settled P a)
    (hall : ∀ i k, i < k → k < a.size → P i ∨ P k) : a.toList.Pairwise (· ≤ ·) := by
  rw [List.pairwise_iff_getElem]
  intro i k _ hk hik
  exact h i k hik hk (hall i k hik hk)

/-- Two sorted arrays with the same elements are equal. -/
theorem eq_of_sorted {b : Array α} (hperm : a.Perm b) (ha : a.toList.Pairwise (· ≤ ·))
    (hb : b.toList.Pairwise (· ≤ ·)) : a = b :=
  Array.toList_inj.mp (hperm.toList.eq_of_pairwise' ha hb)

end Exchange
