/-
A log of acquisitions and releases: what is held after it, and whether every
release was of something held.
-/
import Mathlib.Data.List.Basic

namespace Ledger

universe u

variable {α : Type u}

inductive Entry (α : Type u) where
  | acquire (a : α)
  | release (a : α)
deriving Repr, DecidableEq

section Live

variable [DecidableEq α]

/-- What one entry does to the things held. -/
def Entry.settle (held : List α) : Entry α → List α
  | .acquire a => a :: held
  | .release a => held.erase a

/-- What is held after a log. -/
def live (log : List (Entry α)) : List α :=
  log.foldl Entry.settle []

/-- Every release names something that is held then. -/
def Proper (log : List (Entry α)) : Prop :=
  ∀ earlier a later, log = earlier ++ Entry.release a :: later → a ∈ live earlier

theorem live_concat (log : List (Entry α)) (entry : Entry α) :
    live (log ++ [entry]) = entry.settle (live log) := by
  rw [live, List.foldl_append]
  rfl

theorem proper_nil : Proper ([] : List (Entry α)) := by
  intro earlier a later h
  simp at h

theorem proper_concat {log : List (Entry α)} {entry : Entry α} (h : Proper log)
    (hentry : ∀ a, entry = .release a → a ∈ live log) : Proper (log ++ [entry]) := by
  intro earlier a later hsplit
  rcases List.eq_nil_or_concat later with rfl | ⟨init, last, rfl⟩
  · obtain ⟨rfl, hlast⟩ := List.append_inj' hsplit rfl
    exact hentry a (List.cons.inj hlast).1
  · have hinit : log ++ [entry] = (earlier ++ Entry.release a :: init) ++ [last] := by
      rw [hsplit]
      simp
    exact h earlier a init (List.append_inj' hinit rfl).1

end Live

end Ledger
