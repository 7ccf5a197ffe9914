/-
A writer that starts over after a short write.  What it puts out is a row of
prefixes of one list; these lemmas say where that row can agree with the list
itself.
-/
import Mathlib.Data.List.Basic

namespace Resend

universe u

variable {α : Type u} {whole : List α}

/-- The prefixes of `whole` of the given lengths, one behind the other. -/
def resend (whole : List α) (counts : List Nat) : List α :=
  (counts.map fun k => whole.take k).flatten

@[simp] theorem resend_nil : resend whole [] = [] := rfl

@[simp] theorem resend_cons (k : Nat) (counts : List Nat) :
    resend whole (k :: counts) = whole.take k ++ resend whole counts := rfl

theorem resend_append (first second : List Nat) :
    resend whole (first ++ second) = resend whole first ++ resend whole second := by
  simp [resend]

/-- One prefix is the list exactly when it has its length. -/
theorem resend_singleton {k : Nat} (hk : k ≤ whole.length) :
    resend whole [k] = whole ↔ k = whole.length := by
  rw [resend_cons, resend_nil, List.append_nil]
  constructor
  · intro htake
    have hlength := congrArg List.length htake
    rw [List.length_take] at hlength
    omega
  · rintro rfl
    exact List.take_length

/-- What is left behind the first prefix is the rest of the row. -/
theorem drop_of_resend {k : Nat} {counts : List Nat} {tail : List α}
    (h : whole.take k ++ resend whole counts = tail) (hk : k ≤ whole.length) :
    tail.drop k = resend whole counts := by
  have htake : (whole.take k).length = k := List.length_take_of_le hk
  have hdrop : (whole.take k ++ resend whole counts).drop (whole.take k).length =
      resend whole counts := List.drop_left
  rw [htake, h] at hdrop
  exact hdrop

/-- A row that continues `tail` repeats the list from its start. -/
theorem getElem_of_resend {k i : Nat} {counts : List Nat} {tail : List α}
    (h : tail = resend whole (k :: counts)) (hk : k ≤ whole.length) (hi : i < k) :
    tail[i]? = whole[i]? := by
  have htake : (whole.take k).length = k := List.length_take_of_le hk
  rw [h, resend_cons, List.getElem?_append_left (by omega), List.getElem?_take_of_lt hi]

end Resend
