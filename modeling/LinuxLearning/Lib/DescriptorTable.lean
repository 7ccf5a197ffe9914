/-
The descriptors of a process: numbers, and what is open under each.  A new
descriptor gets the lowest number that is not in use.
-/
import Mathlib.Data.List.Basic

universe u

/-- What is open under each number; a number in use nowhere in the list is not
in use. -/
structure DescriptorTable (α : Type u) where
  entries : List (Option α)
deriving Repr, DecidableEq

namespace DescriptorTable

variable {α : Type u}

/-- What is open under a number. -/
def at? (t : DescriptorTable α) (fd : Nat) : Option α := t.entries[fd]?.join

/-- The lowest number that is not in use. -/
def lowest (t : DescriptorTable α) : Nat := t.entries.findIdx Option.isNone

/-- A new descriptor. -/
def assign (t : DescriptorTable α) (a : α) : DescriptorTable α :=
  if t.lowest < t.entries.length then ⟨t.entries.set t.lowest (some a)⟩
  else ⟨t.entries ++ [some a]⟩

/-- `close`, which does nothing to a number that is not in use. -/
def close (t : DescriptorTable α) (fd : Int) : DescriptorTable α :=
  if fd < 0 then t else ⟨t.entries.set fd.toNat none⟩

/-- Something is open under some number. -/
def Open (t : DescriptorTable α) (a : α) : Prop := some a ∈ t.entries

instance [DecidableEq α] (t : DescriptorTable α) (a : α) : Decidable (t.Open a) :=
  inferInstanceAs (Decidable (some a ∈ t.entries))

variable {t : DescriptorTable α} {a b : α} {fd : Nat}

theorem open_iff : t.Open a ↔ ∃ fd, t.at? fd = some a := by
  rw [Open, List.mem_iff_getElem?]
  refine exists_congr fun fd => ?_
  rw [at?, Option.join_eq_some_iff]

theorem Open.of_at (h : t.at? fd = some a) : t.Open a := open_iff.mpr ⟨fd, h⟩

theorem lowest_le : t.lowest ≤ t.entries.length := List.findIdx_le_length

theorem at_lowest : t.at? t.lowest = none := by
  rcases Nat.lt_or_eq_of_le (lowest_le (t := t)) with hlt | heq
  · have hnone : t.entries[t.lowest].isNone = true := List.findIdx_getElem
    rw [at?, List.getElem?_eq_getElem hlt]
    exact Option.isNone_iff_eq_none.mp hnone
  · rw [at?, List.getElem?_eq_none (Nat.le_of_eq heq.symm)]
    rfl

theorem at_assign : (t.assign a).at? fd = if fd = t.lowest then some a else t.at? fd := by
  unfold assign at?
  split_ifs with hlt heq heq
  · rw [heq, List.getElem?_set_self hlt]
    rfl
  · rw [List.getElem?_set_ne (Ne.symm heq)]
  · have hlength : t.lowest = t.entries.length := Nat.le_antisymm lowest_le (Nat.le_of_not_lt hlt)
    rw [heq, hlength, List.getElem?_concat_length]
    rfl
  · have hlength : t.lowest = t.entries.length := Nat.le_antisymm lowest_le (Nat.le_of_not_lt hlt)
    rw [hlength] at heq
    rcases Nat.lt_or_gt_of_ne heq with hbelow | habove
    · rw [List.getElem?_append_left hbelow]
    · rw [List.getElem?_eq_none (by simp; omega), List.getElem?_eq_none (Nat.le_of_lt habove)]

theorem at_close {g : Int} : (t.close g).at? fd = if (fd : Int) = g then none else t.at? fd := by
  unfold close at?
  split_ifs with hneg heq heq
  · omega
  · rfl
  · obtain rfl : fd = g.toNat := by omega
    rw [List.getElem?_set_self']
    cases t.entries[g.toNat]? <;> rfl
  · rw [List.getElem?_set_ne (by omega)]

/-- What is open stays open. -/
theorem Open.assign (h : t.Open a) : (t.assign b).Open a := by
  obtain ⟨fd, hfd⟩ := open_iff.mp h
  refine open_iff.mpr ⟨fd, ?_⟩
  have hne : fd ≠ t.lowest := by
    rintro rfl
    rw [at_lowest] at hfd
    cases hfd
  rw [at_assign, if_neg hne]
  exact hfd

theorem open_assign : (t.assign a).Open a := by
  refine open_iff.mpr ⟨t.lowest, ?_⟩
  rw [at_assign, if_pos rfl]

/-- A call of `close` leaves one of two. -/
theorem open_close {g : Int} (ha : t.Open a) (hb : t.Open b) (hne : a ≠ b) :
    (t.close g).Open a ∨ (t.close g).Open b := by
  obtain ⟨fd, hfd⟩ := open_iff.mp ha
  obtain ⟨fd', hfd'⟩ := open_iff.mp hb
  by_cases hg : (fd : Int) = g
  · right
    refine open_iff.mpr ⟨fd', ?_⟩
    have hother : (fd' : Int) ≠ g := by
      rintro rfl
      obtain rfl : fd = fd' := by omega
      rw [hfd] at hfd'
      exact hne (Option.some.inj hfd')
    rw [at_close, if_neg hother]
    exact hfd'
  · left
    refine open_iff.mpr ⟨fd, ?_⟩
    rw [at_close, if_neg hg]
    exact hfd

end DescriptorTable
