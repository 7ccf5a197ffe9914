/-
Round robin.  Servers stand in a ring; the first one that is ready is served
and goes to the end of the ring, behind those that were passed over.  The ready
ones keep their cyclic order, so as many rounds as there are ready ones serve
each of them once.
-/
import Mathlib.Data.List.Rotate

universe u

namespace RoundRobin

variable {α : Type u} {ready : α → Bool}

/-- The first one in the ring that is ready, and the ring behind it. -/
def Serves (ready : α → Bool) (ring : List α) (a : α) (after : List α) : Prop :=
  ∃ passed waiting, ring = passed ++ a :: waiting ∧ (∀ b ∈ passed, ready b = false) ∧
    ready a = true ∧ after = waiting ++ (passed ++ [a])

/-- Rounds one after the other. -/
inductive Run (ready : α → Bool) : List α → List α → List α → Prop
  | nil (ring : List α) : Run ready ring [] ring
  | cons {ring next served after : List α} {a : α} (hserves : Serves ready ring a next)
      (hrest : Run ready next served after) : Run ready ring (a :: served) after

variable {ring after served : List α} {a : α}

theorem Serves.perm (h : Serves ready ring a after) : after.Perm ring := by
  obtain ⟨passed, waiting, rfl, -, -, rfl⟩ := h
  refine List.perm_append_comm.trans ?_
  rw [List.append_assoc]
  exact .refl _

/-- Among the ready ones, the first goes to the end. -/
theorem Serves.filter (h : Serves ready ring a after) :
    ∃ others, ring.filter ready = a :: others ∧ after.filter ready = others ++ [a] := by
  obtain ⟨passed, waiting, rfl, hpassed, ha, rfl⟩ := h
  have hnone : passed.filter ready = [] :=
    List.filter_eq_nil_iff.mpr fun b hb => by simp [hpassed b hb]
  refine ⟨waiting.filter ready, ?_, ?_⟩
  · rw [List.filter_append, hnone, List.filter_cons_of_pos ha, List.nil_append]
  · rw [List.filter_append, List.filter_append, hnone, List.filter_cons_of_pos ha,
      List.filter_nil, List.nil_append]

theorem Run.perm (h : Run ready ring served after) : after.Perm ring := by
  induction h with
  | nil ring => exact .refl ring
  | cons hserves _ ih => exact ih.trans hserves.perm

/-- A run up to some round, and from there on. -/
theorem Run.split {first second : List α} (h : Run ready ring (first ++ second) after) :
    ∃ middle, Run ready ring first middle ∧ Run ready middle second after := by
  induction first generalizing ring with
  | nil => exact ⟨ring, .nil ring, h⟩
  | cons a first ih =>
      cases h with
      | cons hserves hrest =>
          obtain ⟨middle, hfirst, hsecond⟩ := ih hrest
          exact ⟨middle, .cons hserves hfirst, hsecond⟩

/-- As long as nobody comes up again, the ready ones are served in order. -/
theorem Run.eq_take (h : Run ready ring served after)
    (hlength : served.length ≤ (ring.filter ready).length) :
    served = (ring.filter ready).take served.length := by
  induction h with
  | nil ring => simp
  | @cons ring next served after a hserves _ ih =>
      obtain ⟨others, hring, hnext⟩ := hserves.filter
      rw [hring, List.length_cons, List.length_cons, Nat.succ_le_succ_iff] at hlength
      rw [hring, List.length_cons, List.take_succ_cons]
      have hserved : served = (others ++ [a]).take served.length := by
        rw [← hnext]
        apply ih
        rw [hnext, List.length_append]
        exact hlength.trans (Nat.le_add_right _ _)
      rw [List.take_append_of_le_length hlength] at hserved
      exact congrArg (a :: ·) hserved

/-- Fairness: rounds in a row, as many as there are ready ones, serve each of
them once. -/
theorem Run.fair {before window later : List α} (h : Run ready ring served after)
    (hserved : served = before ++ window ++ later) (hnodup : ring.Nodup)
    (hlength : window.length = (ring.filter ready).length) :
    window.Nodup ∧ ∀ a, a ∈ window ↔ a ∈ ring ∧ ready a = true := by
  subst hserved
  obtain ⟨middle, hfirst, -⟩ := h.split
  obtain ⟨start, hbefore, hwindow⟩ := hfirst.split
  have hperm := hbefore.perm
  have hcount := (hperm.filter ready).length_eq
  have htake := hwindow.eq_take (by omega)
  rw [hlength, ← hcount, List.take_length] at htake
  rw [htake]
  refine ⟨(hperm.nodup_iff.mpr hnodup).filter _, fun a => ?_⟩
  rw [List.mem_filter, hperm.mem_iff]

/-- The numbers below `n` from `c` on, cyclically. -/
def cyclic (n c : Nat) : List Nat :=
  (List.range n).rotate c

theorem cyclic_nodup (n c : Nat) : (cyclic n c).Nodup :=
  List.nodup_rotate.mpr List.nodup_range

theorem mem_cyclic {n c i : Nat} : i ∈ cyclic n c ↔ i < n := by
  rw [cyclic, List.mem_rotate, List.mem_range]

theorem length_cyclic (n c : Nat) : (cyclic n c).length = n := by
  rw [cyclic, List.length_rotate, List.length_range]

theorem getElem_cyclic {n c d : Nat} (hd : d < (cyclic n c).length) :
    (cyclic n c)[d] = (c + d) % n := by
  simp [cyclic, List.getElem_rotate, Nat.add_comm]

/-- Who comes first at a distance from `c`, and where the ring starts then. -/
theorem serves_cyclic {ready : Nat → Bool} {n c d : Nat} (hd : d < n)
    (hready : ready ((c + d) % n) = true)
    (hpassed : ∀ e < d, ready ((c + e) % n) = false) :
    Serves ready (cyclic n c) ((c + d) % n) (cyclic n (((c + d) % n + 1) % n)) := by
  have hlength : d < (cyclic n c).length := by rwa [length_cyclic]
  have hget : (cyclic n c)[d] = (c + d) % n := getElem_cyclic hlength
  refine ⟨(cyclic n c).take d, (cyclic n c).drop (d + 1), ?_, ?_, hready, ?_⟩
  · rw [← hget, List.getElem_cons_drop, List.take_append_drop]
  · intro b hb
    obtain ⟨e, he, rfl⟩ := List.mem_iff_getElem.mp hb
    rw [List.length_take] at he
    rw [List.getElem_take, getElem_cyclic]
    exact hpassed e (by omega)
  · have hmod : ((c + d) % n + 1) % n = (c + (d + 1)) % (List.range n).length := by
      rw [List.length_range, Nat.mod_add_mod, Nat.add_assoc]
    calc cyclic n (((c + d) % n + 1) % n)
        = (cyclic n c).rotate (d + 1) := by
          rw [hmod, cyclic, List.rotate_mod, ← List.rotate_rotate, cyclic]
      _ = (cyclic n c).drop (d + 1) ++ (cyclic n c).take (d + 1) :=
          List.rotate_eq_drop_append_take hlength
      _ = (cyclic n c).drop (d + 1) ++ ((cyclic n c).take d ++ [(c + d) % n]) := by
          rw [List.take_succ_eq_append_getElem hlength, hget]

end RoundRobin
