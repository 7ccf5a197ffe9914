/-
chapter_2/mmap/copy_with_mmap.cpp: source.txt is copied to copy.txt through two
mappings.  The copy is first cut to the length of the source, which is kept in
an `int`; so an older copy leaves nothing behind, but the length has to fit.
-/
import LinuxLearning.Chapter1.CopyFile
import LinuxLearning.Lib.CString
import Mathlib.Data.List.TakeDrop

namespace LinuxLearning.Chapter2.MmapCopy

open CString

/-- `int length = lseek(fd, 0, SEEK_END)` -/
def lengthOf (source : List Byte) : Int := toInt32 source.length

/-- `memcpy(ptr_copy, ptr_1, length)`, through the mappings of that length; with
length 0 both calls of `mmap` fail, and nothing is copied. -/
def memcpy (copy source : List Byte) (length : Nat) : List Byte :=
  OpenFile.overwrite copy 0 (source.take length)

/-- What is in copy.txt behind `main`; `open` creates it, and `truncate` refuses
a negative length. -/
def copyWithMmap (source copy : Option (List Byte)) : Option (List Byte) :=
  match source with
  | none => copy
  | some source =>
      let length := lengthOf source
      let copy := copy.getD []
      if length < 0 then some copy
      else
        let copy := OpenFile.truncate copy length.toNat
        let copy := OpenFile.overwrite copy 0 (ascii " ")
        some (memcpy copy source length.toNat)

variable {bytes : List Byte} {copy : Option (List Byte)}

theorem lengthOf_eq (hless : bytes.length < 2 ^ 31) : lengthOf bytes = bytes.length :=
  toInt32_size.mpr hless

/-- A length that does not fit comes out smaller. -/
theorem lengthOf_lt (hlarge : 2 ^ 31 ≤ bytes.length) : lengthOf bytes < bytes.length := by
  have hrange : lengthOf bytes < 2 ^ 31 := (toInt32_range bytes.length).2
  omega

theorem copyWithMmap_negative (hneg : lengthOf bytes < 0) :
    copyWithMmap (some bytes) copy = some (copy.getD []) := by
  rw [copyWithMmap]
  dsimp only
  rw [if_pos hneg]

/-- With an empty mapping the blank stays. -/
theorem copyWithMmap_zero (hzero : lengthOf bytes = 0) :
    copyWithMmap (some bytes) copy = some (ascii " ") := by
  rw [copyWithMmap]
  dsimp only
  rw [hzero, if_neg (Int.lt_irrefl 0)]
  simp [memcpy, OpenFile.truncate, OpenFile.overwrite_zero]

theorem copyWithMmap_pos (hpos : 0 < lengthOf bytes) :
    copyWithMmap (some bytes) copy = some (bytes.take (lengthOf bytes).toNat) := by
  rw [copyWithMmap]
  dsimp only
  rw [if_neg (Int.not_lt.mpr hpos.le), memcpy, OpenFile.overwrite_all]
  have hfits : (lengthOf bytes).toNat ≤ bytes.length := by
    by_cases hlarge : 2 ^ 31 ≤ bytes.length
    · have := lengthOf_lt hlarge
      omega
    · rw [lengthOf_eq (Nat.lt_of_not_le hlarge), Int.toNat_natCast]
  rw [OpenFile.length_overwrite_zero, OpenFile.length_truncate, List.length_take_of_le hfits]
  exact Nat.max_le.mpr ⟨Nat.le_refl _, by change 1 ≤ _; omega⟩

/-- What `main` leaves, by the length it has seen. -/
theorem copyWithMmap_cases (bytes : List Byte) (copy : Option (List Byte)) :
    lengthOf bytes < 0 ∧ copyWithMmap (some bytes) copy = some (copy.getD []) ∨
    lengthOf bytes = 0 ∧ copyWithMmap (some bytes) copy = some (ascii " ") ∨
    0 < lengthOf bytes ∧
      copyWithMmap (some bytes) copy = some (bytes.take (lengthOf bytes).toNat) := by
  rcases Int.lt_trichotomy (lengthOf bytes) 0 with hneg | hzero | hpos
  · exact Or.inl ⟨hneg, copyWithMmap_negative hneg⟩
  · exact Or.inr (Or.inl ⟨hzero, copyWithMmap_zero hzero⟩)
  · exact Or.inr (Or.inr ⟨hpos, copyWithMmap_pos hpos⟩)

/-- A positive length fits when it cuts nothing off. -/
theorem length_le_lengthOf (hpos : 0 < lengthOf bytes) :
    bytes.length ≤ (lengthOf bytes).toNat ↔ bytes.length < 2 ^ 31 := by
  constructor
  · intro hle
    by_contra hlarge
    have := lengthOf_lt (Nat.le_of_not_lt hlarge)
    omega
  · intro hless
    rw [lengthOf_eq hless, Int.toNat_natCast]

theorem length_pos_of_lengthOf (hpos : 0 < lengthOf bytes) : 0 < bytes.length := by
  rw [List.length_pos_iff]
  rintro rfl
  exact absurd hpos (by decide)

/-- Where the length is not positive the mappings copy nothing. -/
theorem not_small (hneg : lengthOf bytes ≤ 0) :
    ¬ (0 < bytes.length ∧ bytes.length < 2 ^ 31) := by
  rintro ⟨hpos, hless⟩
  rw [lengthOf_eq hless] at hneg
  omega

theorem ne_blank (hzero : lengthOf bytes = 0) : bytes ≠ ascii " " := by
  rintro rfl
  exact absurd hzero (by decide)

/-- The copy equals the source if the source is not empty and its length fits,
or if the program gives up and the copy was equal before. -/
theorem copyWithMmap_iff (bytes : List Byte) (copy : Option (List Byte)) :
    copyWithMmap (some bytes) copy = some bytes ↔
      0 < bytes.length ∧ bytes.length < 2 ^ 31 ∨ lengthOf bytes < 0 ∧ copy.getD [] = bytes := by
  rcases copyWithMmap_cases bytes copy with ⟨hneg, heq⟩ | ⟨hzero, heq⟩ | ⟨hpos, heq⟩ <;>
    rw [heq, Option.some.injEq]
  · rw [or_iff_right (not_small hneg.le), and_iff_right hneg]
  · rw [or_iff_right (not_small hzero.le), hzero]
    exact iff_of_false (ne_blank hzero).symm fun h => absurd h.1 (Int.lt_irrefl 0)
  · rw [List.take_eq_self_iff, length_le_lengthOf hpos, or_iff_left fun h => absurd h.1 hpos.not_gt,
      and_iff_right (length_pos_of_lengthOf hpos)]

/-- Where the two ways to copy leave the same file. -/
theorem copyWithMmap_agrees (split : Nat → Nat) (bytes : List Byte) (copy : Option (List Byte)) :
    (Chapter1.copyfile split (some bytes) true copy).2 = copyWithMmap (some bytes) copy ↔
      0 < bytes.length ∧ bytes.length < 2 ^ 31 ∧ (copy.getD []).length ≤ bytes.length ∨
      lengthOf bytes < 0 ∧ bytes <+: copy.getD [] ∨
      bytes = [] ∧ copy.getD [] = ascii " " := by
  have hempty : bytes = [] → lengthOf bytes = 0 := by
    rintro rfl
    rfl
  rw [Chapter1.copyfile_eq, ← and_assoc]
  rcases copyWithMmap_cases bytes copy with ⟨hneg, heq⟩ | ⟨hzero, heq⟩ | ⟨hpos, heq⟩ <;>
    rw [heq, Option.some.injEq]
  · rw [← List.prefix_iff_eq_append, or_iff_right fun h => not_small hneg.le h.1,
      and_iff_right hneg, or_iff_left fun h => hneg.ne (hempty h.1)]
  · rw [or_iff_right fun h => not_small hzero.le h.1, or_iff_right fun h => h.1.ne hzero]
    change bytes ++ _ = [32] ↔ _
    rw [List.append_eq_singleton_iff, or_iff_left fun h => ne_blank hzero h.1]
    refine and_congr_right ?_
    rintro rfl
    exact Iff.rfl
  · rw [or_iff_left, ← length_le_lengthOf hpos, and_iff_right (length_pos_of_lengthOf hpos)]
    · constructor
      · intro hsame
        have hlength := congrArg List.length hsame
        rw [List.length_append, List.length_drop, List.length_take] at hlength
        omega
      · rintro ⟨hfits, hold⟩
        rw [List.take_of_length_le hfits, List.drop_eq_nil_of_le hold, List.append_nil]
    · rintro (h | h)
      · exact hpos.not_gt h.1
      · exact hpos.ne' (hempty h.1)

/-- Exactly when the copy is right, and exactly when it is what the loop of
`read` and `write` leaves. -/
theorem mmap_copies (bytes : List Byte) (copy : Option (List Byte)) :
    (copyWithMmap (some bytes) copy = some bytes ↔
      0 < bytes.length ∧ bytes.length < 2 ^ 31 ∨ lengthOf bytes < 0 ∧ copy.getD [] = bytes) ∧
    ∀ split, (Chapter1.copyfile split (some bytes) true copy).2 = copyWithMmap (some bytes) copy ↔
      0 < bytes.length ∧ bytes.length < 2 ^ 31 ∧ (copy.getD []).length ≤ bytes.length ∨
      lengthOf bytes < 0 ∧ bytes <+: copy.getD [] ∨
      bytes = [] ∧ copy.getD [] = ascii " " :=
  ⟨copyWithMmap_iff bytes copy, fun split => copyWithMmap_agrees split bytes copy⟩

end LinuxLearning.Chapter2.MmapCopy
