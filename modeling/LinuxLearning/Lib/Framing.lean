/-
Messages in a stream that arrives in chunks: whether every message ends where
a chunk does.
-/
import Mathlib.Data.List.Basic

namespace LinuxLearning.Framing

variable {α : Type} {received chunk message : List α} {chunks messages : List (List α)}

/-- Every message ends where a chunk does; `received` came before the
chunks. -/
def Aligned (received : List α) (chunks messages : List (List α)) : Prop :=
  ∀ j < messages.length, ∃ i,
    (received ++ (chunks.take i).flatten).length = (messages.take (j + 1)).flatten.length

theorem aligned_nil : Aligned received chunks [] :=
  fun _ hj => absurd hj (Nat.not_lt_zero _)

/-- A chunk that does not complete the first message. -/
theorem aligned_within (hless : (received ++ chunk).length < message.length) :
    Aligned received (chunk :: chunks) (message :: messages) ↔
      Aligned (received ++ chunk) chunks (message :: messages) := by
  apply forall₂_congr
  intro j _
  constructor
  · rintro ⟨i, hi⟩
    cases i with
    | zero => simp at hi hless; omega
    | succ i => exact ⟨i, by simpa using hi⟩
  · rintro ⟨i, hi⟩
    exact ⟨i + 1, by simpa using hi⟩

/-- A chunk that ends with the first message. -/
theorem aligned_end (hbefore : received.length < message.length)
    (hend : (received ++ chunk).length = message.length) :
    Aligned received (chunk :: chunks) (message :: messages) ↔
      Aligned [] chunks messages := by
  rw [List.length_append] at hend
  constructor
  · intro h j hj
    obtain ⟨i, hi⟩ := h (j + 1) (by simpa using hj)
    cases i with
    | zero => simp at hi; omega
    | succ i =>
        refine ⟨i, ?_⟩
        simp only [List.take_succ_cons, List.flatten_cons, List.length_append] at hi
        simp only [List.nil_append]
        omega
  · intro h j hj
    cases j with
    | zero => exact ⟨1, by simp; omega⟩
    | succ j =>
        obtain ⟨i, hi⟩ := h j (by simpa using hj)
        refine ⟨i + 1, ?_⟩
        simp only [List.nil_append] at hi
        simp only [List.take_succ_cons, List.flatten_cons, List.length_append]
        omega

/-- A chunk that goes on behind the first message. -/
theorem not_aligned_past (hbefore : received.length < message.length)
    (hpast : message.length < (received ++ chunk).length) :
    ¬ Aligned received (chunk :: chunks) (message :: messages) := by
  intro h
  obtain ⟨i, hi⟩ := h 0 (by simp)
  rw [List.length_append] at hpast
  cases i with
  | zero => simp at hi; omega
  | succ i => simp at hi; omega

end LinuxLearning.Framing
