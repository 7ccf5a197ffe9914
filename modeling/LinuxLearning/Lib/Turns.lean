/-
Loops that need not end.  A turn either changes the state and goes round again
or leaves the loop with a result; a loop ends when finitely many turns leave
it.
-/
import Mathlib.Data.Nat.Init

universe u v

namespace Turns

variable {S : Type u} {R : Type v} (turn : S → S ⊕ R)

/-- The loop leaves with `result` after finitely many turns. -/
inductive Ends : S → R → Prop
  | leave {s : S} {result : R} (hturn : turn s = .inr result) : Ends s result
  | again {s after : S} {result : R} (hturn : turn s = .inl after)
      (hrest : Ends after result) : Ends s result

variable {turn}

/-- An invariant under which every turn goes round again keeps the loop from
ending. -/
theorem not_ends {I : S → Prop}
    (hagain : ∀ s, I s → ∃ after, turn s = .inl after ∧ I after) {s : S} (hs : I s) :
    ¬ ∃ result, Ends turn s result := by
  rintro ⟨result, hends⟩
  induction hends with
  | @leave s result hturn =>
      obtain ⟨after, hafter, _⟩ := hagain s hs
      rw [hafter] at hturn
      cases hturn
  | @again s after result hturn _ ih =>
      obtain ⟨after', hafter, hinv⟩ := hagain s hs
      rw [hafter] at hturn
      cases hturn
      exact ih hinv

/-- An invariant under which every turn leaves with what is wanted or makes
the measure smaller gives the end of the loop. -/
theorem ends_of_measure {I : S → Prop} {P : R → Prop} (measure : S → Nat)
    (hturn : ∀ s, I s → (∃ result, turn s = .inr result ∧ P result) ∨
      ∃ after, turn s = .inl after ∧ I after ∧ measure after < measure s)
    {s : S} (hs : I s) : ∃ result, Ends turn s result ∧ P result := by
  induction hm : measure s using Nat.strongRecOn generalizing s with
  | _ m ih =>
      rcases hturn s hs with ⟨result, hleave, hpost⟩ | ⟨after, hagain, hinv, hless⟩
      · exact ⟨result, .leave hleave, hpost⟩
      · obtain ⟨result, hends, hpost⟩ := ih (measure after) (hm ▸ hless) hinv rfl
        exact ⟨result, .again hagain hends, hpost⟩

/-- What a loop that ends leaves with is determined. -/
theorem Ends.unique {s : S} {first second : R} (hfirst : Ends turn s first)
    (hsecond : Ends turn s second) : first = second := by
  induction hfirst with
  | leave hturn =>
      cases hsecond with
      | leave hturn' => exact Sum.inr.inj (hturn.symm.trans hturn')
      | again hturn' _ => cases hturn.symm.trans hturn'
  | again hturn _ ih =>
      cases hsecond with
      | leave hturn' => cases hturn.symm.trans hturn'
      | again hturn' hrest => exact ih (Sum.inl.inj (hturn.symm.trans hturn') ▸ hrest)

end Turns
