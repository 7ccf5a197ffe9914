/-
Loops that end.  A turn either changes the state and goes round again, or
leaves the loop with a result; a measure that every turn decreases gives the
result of the whole loop, and an induction over its turns.
-/
import Mathlib.Data.Nat.Init

universe u v

/-- The turn of a loop, and why the loop ends. -/
structure Loop (S : Type u) (R : Type v) where
  turn : S → S ⊕ R
  measure : S → Nat
  decreases : ∀ {s after}, turn s = .inl after → measure after < measure s

namespace Loop

variable {S : Type u} {R : Type v} (L : Loop S R)

/-- At most `fuel` turns. -/
def run : Nat → S → Option R
  | 0, _ => none
  | fuel + 1, s =>
      match L.turn s with
      | .inl after => run fuel after
      | .inr result => some result

theorem run_isSome {fuel : Nat} {s : S} (hfuel : L.measure s < fuel) : (L.run fuel s).isSome := by
  induction fuel generalizing s with
  | zero => exact absurd hfuel (Nat.not_lt_zero _)
  | succ fuel ih =>
      unfold run
      split
      · rename_i after hturn
        exact ih (Nat.lt_of_lt_of_le (L.decreases hturn) (Nat.le_of_lt_succ hfuel))
      · rfl

/-- The result of the loop. -/
def result (s : S) : R :=
  (L.run (L.measure s + 1) s).get (L.run_isSome (Nat.lt_succ_self _))

theorem run_mono {fuel more : Nat} {s : S} {result : R} (hrun : L.run fuel s = some result)
    (hle : fuel ≤ more) : L.run more s = some result := by
  induction fuel generalizing s more with
  | zero => cases hrun
  | succ fuel ih =>
      obtain ⟨more, rfl⟩ := Nat.exists_eq_succ_of_ne_zero (Nat.ne_zero_of_lt hle)
      rw [run] at hrun ⊢
      split
      · rename_i after hturn
        rw [hturn] at hrun
        exact ih hrun (Nat.le_of_succ_le_succ hle)
      · rename_i other hturn
        rw [hturn] at hrun
        exact hrun

/-- With any sufficient fuel the loop gives its result. -/
theorem run_eq {fuel : Nat} {s : S} (hfuel : L.measure s < fuel) :
    L.run fuel s = some (L.result s) :=
  L.run_mono (Option.some_get _).symm hfuel

variable {L}

theorem result_again {s after : S} (hturn : L.turn s = .inl after) :
    L.result s = L.result after := by
  have h := L.run_eq (Nat.lt_succ_self (L.measure s))
  rw [run, hturn] at h
  dsimp only at h
  rw [L.run_eq (L.decreases hturn)] at h
  exact (Option.some.inj h).symm

theorem result_done {s : S} {result : R} (hturn : L.turn s = .inr result) :
    L.result s = result := by
  have h := L.run_eq (Nat.lt_succ_self (L.measure s))
  rw [run, hturn] at h
  exact (Option.some.inj h).symm

variable (L)

/-- Induction over the turns. -/
theorem induction {motive : S → Prop}
    (hturn : ∀ s, (∀ after, L.turn s = .inl after → motive after) → motive s) (s : S) :
    motive s := by
  suffices h : ∀ n, ∀ s, L.measure s < n → motive s from h _ s (Nat.lt_succ_self _)
  intro n
  induction n with
  | zero => exact fun s hs => absurd hs (Nat.not_lt_zero _)
  | succ n ih =>
      intro s hs
      apply hturn
      intro after hafter
      exact ih after (Nat.lt_of_lt_of_le (L.decreases hafter) (Nat.le_of_lt_succ hs))

end Loop
