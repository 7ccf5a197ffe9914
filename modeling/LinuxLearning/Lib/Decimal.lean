/-
Decimal numerals as bytes: what `%d` prints.
-/
import Mathlib.Tactic.IntervalCases
import LinuxLearning.Lib.CString

namespace Decimal

open CString

/-- The digits of a number. -/
def digits (n : Nat) : List Byte :=
  (Nat.toDigits 10 n).map fun ch => UInt8.ofNat ch.toNat

/-- What `%d` prints for an integer. -/
def format (x : Int) : List Byte :=
  if x < 0 then 45 :: digits x.natAbs else digits x.natAbs

theorem digit_byte {d : Nat} (hd : d < 10) :
    UInt8.ofNat (Nat.digitChar d).toNat = UInt8.ofNat (48 + d) := by
  interval_cases d <;> rfl

/-- The last digit comes off the end. -/
theorem digits_eq (n : Nat) :
    digits n = (if n < 10 then [] else digits (n / 10)) ++ [UInt8.ofNat (48 + n % 10)] := by
  unfold digits
  rw [Nat.toDigits_eq_if (by decide)]
  split
  · rename_i hless
    simp [digit_byte hless, Nat.mod_eq_of_lt hless]
  · simp [digit_byte (Nat.mod_lt n (by decide : 10 > 0))]

theorem isdigit_last (n : Nat) : isdigit (UInt8.ofNat (48 + n % 10)) = true := by
  have hd : n % 10 < 10 := Nat.mod_lt n (by decide)
  generalize n % 10 = d at hd ⊢
  interval_cases d <;> rfl

theorem isdigit_digits (n : Nat) : ∀ b ∈ digits n, isdigit b = true := by
  induction n using Nat.strong_induction_on with
  | h n ih =>
      intro b hb
      rw [digits_eq, List.mem_append, List.mem_singleton] at hb
      rcases hb with hb | rfl
      · split at hb
        · cases hb
        · exact ih (n / 10) (by omega) b hb
      · exact isdigit_last n

/-- The digits of a number have its value. -/
theorem digitsValue_digits (n : Nat) : digitsValue (digits n) = n := by
  induction n using Nat.strong_induction_on with
  | h n ih =>
      have hd : (UInt8.ofNat (48 + n % 10)).toNat - 48 = n % 10 := by
        have hd : n % 10 < 10 := Nat.mod_lt n (by decide)
        generalize n % 10 = d at hd ⊢
        interval_cases d <;> rfl
      rw [digits_eq, digitsValue, List.foldl_append, List.foldl_cons, List.foldl_nil, hd]
      by_cases hless : n < 10
      · simp [hless, Nat.mod_eq_of_lt hless]
      · have htail := ih (n / 10) (by omega)
        rw [digitsValue] at htail
        rw [if_neg hless, htail]
        omega

theorem digits_injective {m n : Nat} (h : digits m = digits n) : m = n := by
  rw [← digitsValue_digits m, h, digitsValue_digits]

theorem digits_length_le {n k : Nat} (hk : 0 < k) (hn : n < 10 ^ k) :
    (digits n).length ≤ k := by
  rw [digits, List.length_map]
  exact (Nat.length_toDigits_le_iff (by decide) hk).mpr hn

theorem format_natCast (n : Nat) : format n = digits n := by
  rw [format, if_neg (by omega), Int.natAbs_natCast]

/-- A number that prints like a natural number is that number. -/
theorem format_eq_digits {x : Int} {n : Nat} (h : format x = digits n) : x = n := by
  unfold format at h
  split at h
  · have hminus : (45 : Byte) ∈ digits n := h ▸ List.mem_cons_self
    exact absurd (isdigit_digits n 45 hminus) (by decide)
  · have := digits_injective h
    omega

theorem format_injective {x y : Int} (h : format x = format y) : x = y := by
  by_cases hy : y < 0
  · by_cases hx : x < 0
    · rw [format, format, if_pos hx, if_pos hy, List.cons.injEq] at h
      have := digits_injective h.2
      omega
    · have hdigits : format x = digits x.natAbs := by rw [format, if_neg hx]
      have := format_eq_digits (h.symm.trans hdigits)
      omega
  · have hdigits : format y = digits y.natAbs := by rw [format, if_neg hy]
    have := format_eq_digits (h.trans hdigits)
    omega

/-- A numeral is made of digits and a sign. -/
theorem mem_format {x : Int} {b : Byte} (hb : b ∈ format x) : isdigit b = true ∨ b = 45 := by
  unfold format at hb
  split at hb
  · rcases List.mem_cons.mp hb with rfl | hb
    · exact Or.inr rfl
    · exact Or.inl (isdigit_digits _ b hb)
  · exact Or.inl (isdigit_digits _ b hb)

/-- An `int` prints as at most eleven bytes. -/
theorem format_length_le {x : Int} (hlow : -2 ^ 31 ≤ x) (hhigh : x < 2 ^ 31) :
    (format x).length ≤ 11 := by
  have hlen : (digits x.natAbs).length ≤ 10 := digits_length_le (by decide) (by omega)
  unfold format
  split
  · rw [List.length_cons]
    omega
  · omega

end Decimal
