/-
Counted loops whose body may fault.  The loop faults when one of its turns
does; an invariant that every turn keeps without a fault holds at the end.
-/

universe u

namespace CountedLoop

variable {S : Type u} (body : Nat → S → Option S)

/-- The turns `i`, `i + 1`, ... of a loop, as many as the second argument says. -/
def turns : Nat → Nat → S → Option S
  | _, 0, s => some s
  | i, left + 1, s => (body i s).bind (turns (i + 1) left)

/-- `for (i = first; i < bound; i++)` -/
def forUp (first bound : Nat) (s : S) : Option S :=
  turns body first (bound - first) s

variable {body}

theorem turns_invariant {I : Nat → S → Prop} {i left : Nat} {s : S} (hstart : I i s)
    (hbody : ∀ k s, i ≤ k → k < i + left → I k s → ∃ after, body k s = some after ∧
      I (k + 1) after) :
    ∃ after, turns body i left s = some after ∧ I (i + left) after := by
  induction left generalizing i s with
  | zero => exact ⟨s, rfl, hstart⟩
  | succ left ih =>
      obtain ⟨next, hturn, hnext⟩ := hbody i s (Nat.le_refl i) (by omega) hstart
      obtain ⟨after, hrest, hafter⟩ :=
        ih hnext fun k s hk hlt => hbody k s (by omega) (by omega)
      refine ⟨after, ?_, ?_⟩
      · rw [turns, hturn]
        exact hrest
      · rwa [Nat.add_right_comm, Nat.add_assoc] at hafter

/-- The invariant rule. -/
theorem forUp_invariant {I : Nat → S → Prop} {first bound : Nat} {s : S}
    (hle : first ≤ bound) (hstart : I first s)
    (hbody : ∀ k s, first ≤ k → k < bound → I k s → ∃ after, body k s = some after ∧
      I (k + 1) after) :
    ∃ after, forUp body first bound s = some after ∧ I bound after := by
  have hbound : first + (bound - first) = bound := Nat.add_sub_of_le hle
  have h : ∃ after, turns body first (bound - first) s = some after ∧
      I (first + (bound - first)) after :=
    turns_invariant hstart fun k s hk hlt => hbody k s hk (by omega)
  rwa [hbound] at h

end CountedLoop
