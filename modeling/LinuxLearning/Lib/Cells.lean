/-
Arrays read as strings.  A byte of an array has no value until something is
stored to it; a string ends at the first NUL, and has a value if all the bytes
up to that NUL have one.
-/
import LinuxLearning.Lib.Buffer
import Mathlib.Data.List.TakeWhile

/-- The bytes of an array; those that nothing has been stored to have no
value. -/
abbrev Cells : Type := List (Option Byte)

namespace Cells

/-- An array of which nothing has been stored yet. -/
def unset (n : Nat) : Cells := List.replicate n none

/-- `char buf[n] = {0}` -/
def zeroed (n : Nat) : Cells := List.replicate n (some 0)

/-- `data` is stored at the front. -/
def store (buf : Cells) (data : List Byte) : Cells := data.map some ++ buf.drop data.length

/-- The string at the front. -/
def shown : Cells → Option (List Byte)
  | [] => none
  | none :: _ => none
  | some b :: rest => if b = 0 then some [] else (shown rest).map (b :: ·)

theorem store_store_of_le (buf : Cells) {first second : List Byte}
    (hle : first.length ≤ second.length) : store (store buf first) second = store buf second := by
  rw [store, store, store, List.drop_append, List.length_map, List.drop_drop,
    List.drop_eq_nil_of_le (by rwa [List.length_map]), List.nil_append,
    Nat.add_sub_cancel' hle]

theorem shown_append {text : List Byte} (htext : 0 ∉ text) (rest : Cells) :
    shown (text.map some ++ rest) = (shown rest).map (text ++ ·) := by
  induction text with
  | nil => simp
  | cons b text ih =>
      rw [List.mem_cons, not_or] at htext
      rw [List.map_cons, List.cons_append, shown, if_neg (Ne.symm htext.1), ih htext.2,
        Option.map_map]
      rfl

/-- A NUL in the data ends the string. -/
theorem shown_store_of_mem {data : List Byte} (hzero : 0 ∈ data) (buf : Cells) :
    shown (store buf data) = some (data.takeWhile (· != 0)) := by
  rw [store]
  generalize buf.drop data.length = rest
  induction data with
  | nil => cases hzero
  | cons b data ih =>
      rw [List.map_cons, List.cons_append, shown]
      by_cases hb : b = 0
      · simp [hb]
      · have hdata : 0 ∈ data := by
          rcases List.mem_cons.mp hzero with rfl | hmem
          · exact absurd rfl hb
          · exact hmem
        simp [hb, ih hdata]

variable {n : Nat} {data : List Byte}

/-- An array of zeros that is not full ends the string itself. -/
theorem shown_zeroed (hfits : data.length < n ∨ 0 ∈ data) :
    shown (store (zeroed n) data) = some (data.takeWhile (· != 0)) := by
  by_cases hzero : 0 ∈ data
  · exact shown_store_of_mem hzero _
  · have hless := hfits.resolve_right hzero
    have hall : ∀ b ∈ data, (b != 0) = true := by
      intro b hb
      rw [bne_iff_ne]
      rintro rfl
      exact hzero hb
    obtain ⟨k, hk⟩ := Nat.exists_eq_succ_of_ne_zero (Nat.sub_ne_zero_of_lt hless)
    rw [store, shown_append hzero, zeroed, List.drop_replicate, hk,
      List.takeWhile_eq_self_iff.mpr hall]
    simp [shown, List.replicate_succ]

theorem shown_zeroed_none (hfull : ¬ (data.length < n ∨ 0 ∈ data)) :
    shown (store (zeroed n) data) = none := by
  obtain ⟨hlength, hzero⟩ := not_or.mp hfull
  rw [store, shown_append hzero, zeroed, List.drop_replicate,
    Nat.sub_eq_zero_of_le (Nat.le_of_not_lt hlength)]
  rfl

end Cells
