/-
NUL-terminated strings inside byte arrays, and the functions of <string.h>,
<strings.h> and <stdlib.h> that read them.  A pointer is an index into the
array.  Case is ASCII case, as in the "C" locale.
-/
import Mathlib.Data.List.TakeWhile
import LinuxLearning.Lib.Buffer

namespace CString

variable {n : Nat}

/-- The C string that starts at `p`: the bytes up to the first NUL. -/
def cstr (buf : Buffer n) (p : Nat) : List Byte :=
  (buf.bytes.drop p).takeWhile (· != 0)

/-- `strpbrk`: the first byte of the string that is in `accept`. -/
def strpbrk (buf : Buffer n) (p : Nat) (accept : List Byte) : Option Nat :=
  ((cstr buf p).findIdx? (accept.contains ·)).map (p + ·)

/-- `strspn`: the length of the longest start made of bytes in `accept`. -/
def strspn (buf : Buffer n) (p : Nat) (accept : List Byte) : Nat :=
  ((cstr buf p).takeWhile (accept.contains ·)).length

/-- `strchr` for a character other than NUL. -/
def strchr (buf : Buffer n) (p : Nat) (ch : Byte) : Option Nat :=
  strpbrk buf p [ch]

/-- `tolower` -/
def tolower (b : Byte) : Byte :=
  if 65 ≤ b ∧ b ≤ 90 then b + 32 else b

/-- `strcasecmp(s, t) == 0` -/
def strcaseEq (s t : List Byte) : Bool :=
  s.map tolower == t.map tolower

/-- `strncasecmp(s, t, k) == 0` -/
def strncaseEq (s t : List Byte) (k : Nat) : Bool :=
  strcaseEq (s.take k) (t.take k)

/-- `isspace` -/
def isspace (b : Byte) : Bool := b == 32 || (9 ≤ b && b ≤ 13)

/-- `isdigit` -/
def isdigit (b : Byte) : Bool := 48 ≤ b && b ≤ 57

/-- The value of a run of decimal digits. -/
def digitsValue (digits : List Byte) : Nat :=
  digits.foldl (fun value d => 10 * value + (d.toNat - 48)) 0

/-- `atol` with a 64-bit `long`: leading space, an optional sign, digits; the
value saturates at the ends of the range. -/
def atol (s : List Byte) : Int :=
  let s := s.dropWhile isspace
  let (negative, digits) : Bool × List Byte :=
    match s with
    | b :: rest =>
        if b = 45 then (true, rest)
        else if b = 43 then (false, rest)
        else (false, s)
    | [] => (false, [])
  let value : Int := digitsValue (digits.takeWhile isdigit)
  if negative then max (-value) (-2 ^ 63) else min value (2 ^ 63 - 1)

/-- `strcpy(buf + i, s)` -/
def strcpy (buf : Buffer n) (i : Nat) (s : List Byte) : Buffer n :=
  buf.blit i (s ++ [0])

/-- `strncpy(buf + i, s, k)`: at most `k` bytes of `s`, filled up with NULs. -/
def strncpy (buf : Buffer n) (i : Nat) (s : List Byte) (k : Nat) : Buffer n :=
  buf.blit i (s.take k ++ List.replicate (k - s.length) 0)

/-- `snprintf(buf + i, size, ...)` when the format makes `text`: as much of the
text as fits into `size` bytes with a NUL behind it. -/
def snprintf (buf : Buffer n) (i size : Nat) (text : List Byte) : Buffer n :=
  if size = 0 then buf else buf.blit i (text.take (size - 1) ++ [0])

/-- The stores of `snprintf`. -/
def snprintfStores (i size : Nat) (text : List Byte) : List (Nat × Byte) :=
  if size = 0 then [] else Buffer.placed i (text.take (size - 1) ++ [0])

/-- Conversion to a 32-bit `int`. -/
def toInt32 (x : Int) : Int := x.bmod (2 ^ 32)

theorem toInt32_of_range {x : Int} (hlow : -2 ^ 31 ≤ x) (hhigh : x < 2 ^ 31) :
    toInt32 x = x := by
  simp only [toInt32, Int.bmod_def]
  omega

theorem toInt32_range (x : Int) : -2 ^ 31 ≤ toInt32 x ∧ toInt32 x < 2 ^ 31 := by
  simp only [toInt32, Int.bmod_def]
  omega

/-- A size survives the conversion when it is an `int`. -/
theorem toInt32_size {size : Nat} : toInt32 size = size ↔ size < 2 ^ 31 := by
  constructor
  · intro heq
    have := toInt32_range size
    omega
  · intro hless
    exact toInt32_of_range (by omega) (by omega)

/-- `atol` of a numeral is its value, as far as a `long` goes. -/
theorem atol_digits {numeral : List Byte} (hne : numeral ≠ [])
    (hdigits : ∀ b ∈ numeral, isdigit b = true) :
    atol numeral = min (digitsValue numeral : Int) (2 ^ 63 - 1) := by
  obtain ⟨b, rest, rfl⟩ := List.exists_cons_of_ne_nil hne
  have hb := hdigits b List.mem_cons_self
  have hspace : isspace b = false := by
    simp only [isdigit, isspace, Bool.and_eq_true, decide_eq_true_eq] at hb ⊢
    simp only [Bool.or_eq_false_iff, beq_eq_false_iff_ne, Bool.and_eq_false_imp,
      decide_eq_true_eq, decide_eq_false_iff_not]
    refine ⟨by rintro rfl; revert hb; decide, fun _ hle => ?_⟩
    exact absurd (UInt8.le_trans hb.1 hle) (by decide)
  have hminus : b ≠ 45 := by
    rintro rfl
    cases hb
  have hplus : b ≠ 43 := by
    rintro rfl
    cases hb
  have hrun : (b :: rest).takeWhile isdigit = b :: rest :=
    List.takeWhile_eq_self_iff.mpr hdigits
  simp only [atol, List.dropWhile_cons, hspace, Bool.false_eq_true, ↓reduceIte, hminus, hplus,
    hrun]

theorem snprintf_eq_pokes (buf : Buffer n) (i size : Nat) (text : List Byte) :
    snprintf buf i size text = buf.pokes (snprintfStores i size text) := by
  rw [snprintf, snprintfStores]
  split
  · rfl
  · exact buf.blit_eq_pokes i _

/-- `snprintf` stores within the size it is given. -/
theorem mem_snprintfStores {i size : Nat} {text : List Byte} {store : Nat × Byte}
    (hstore : store ∈ snprintfStores i size text) : i ≤ store.1 ∧ store.1 < i + size := by
  rw [snprintfStores] at hstore
  split at hstore
  · cases hstore
  · have := Buffer.mem_placed hstore
    rw [List.length_append, List.length_take, List.length_singleton] at this
    omega

/-- A string is its first byte followed by the string one place further on. -/
theorem cstr_eq (buf : Buffer n) (p : Nat) :
    cstr buf p = if buf.get p = 0 then [] else buf.get p :: cstr buf (p + 1) := by
  by_cases hp : p < buf.bytes.length
  · rw [cstr, List.drop_eq_getElem_cons hp, List.takeWhile_cons,
      ← Buffer.get_eq_getElem buf hp]
    by_cases hzero : buf.get p = 0
    · simp [hzero]
    · simp [hzero, cstr]
  · have hn : n ≤ p := by
      rw [← buf.size_eq]
      exact Nat.le_of_not_lt hp
    simp [cstr, Buffer.get_of_le buf hn, List.drop_eq_nil_of_le (Nat.le_of_not_lt hp)]

theorem cstr_of_zero {buf : Buffer n} {p : Nat} (hp : buf.get p = 0) :
    cstr buf p = [] := by
  rw [cstr_eq, if_pos hp]

theorem cstr_of_ne_zero {buf : Buffer n} {p : Nat} (hp : buf.get p ≠ 0) :
    cstr buf p = buf.get p :: cstr buf (p + 1) := by
  rw [cstr_eq, if_neg hp]

theorem zero_notMem_cstr (buf : Buffer n) (p : Nat) : 0 ∉ cstr buf p := by
  intro hmem
  have := List.mem_takeWhile_imp hmem
  simp at this

/-- The byte under an offset inside the string. -/
theorem getElem_cstr (buf : Buffer n) {p i : Nat} (hi : i < (cstr buf p).length) :
    (cstr buf p)[i] = buf.get (p + i) := by
  induction i generalizing p with
  | zero =>
      by_cases hp : buf.get p = 0
      · simp [cstr_of_zero hp] at hi
      · simp [cstr_of_ne_zero hp]
  | succ i ih =>
      by_cases hp : buf.get p = 0
      · simp [cstr_of_zero hp] at hi
      · have hi' : i < (cstr buf (p + 1)).length := by
          simpa [cstr_of_ne_zero hp] using hi
        simp only [cstr_of_ne_zero hp, List.getElem_cons_succ]
        rw [ih hi', Nat.add_right_comm, Nat.add_assoc]

/-- A NUL at or after `p` bounds the string at `p`. -/
theorem cstr_length_le {buf : Buffer n} {p e : Nat} (hpe : p ≤ e)
    (he : buf.get e = 0) : (cstr buf p).length ≤ e - p := by
  by_contra hlong
  have hi : e - p < (cstr buf p).length := Nat.lt_of_not_le hlong
  have hget := getElem_cstr buf hi
  have hidx : p + (e - p) = e := by omega
  rw [hidx, he] at hget
  exact zero_notMem_cstr buf p (hget ▸ List.getElem_mem hi)

/-- The string depends only on the bytes up to a NUL that follows `p`. -/
theorem cstr_congr {m : Nat} {first : Buffer n} {second : Buffer m} {p e : Nat}
    (hpe : p ≤ e) (he : first.get e = 0)
    (hsame : ∀ i, p ≤ i → i ≤ e → first.get i = second.get i) :
    cstr first p = cstr second p := by
  obtain ⟨k, rfl⟩ := Nat.exists_eq_add_of_le hpe
  induction k generalizing p with
  | zero =>
      have hsecond : second.get p = 0 := by
        rw [← hsame p (Nat.le_refl p) hpe]
        exact he
      rw [cstr_of_zero (p := p) he, cstr_of_zero hsecond]
  | succ k ih =>
      rw [cstr_eq first, cstr_eq second, hsame p (Nat.le_refl p) hpe]
      by_cases hp : second.get p = 0
      · simp [hp]
      · have hidx : p + 1 + k = p + (k + 1) := by omega
        have htail : cstr first (p + 1) = cstr second (p + 1) := by
          apply ih (Nat.le_add_right _ _)
          · rw [hidx]
            exact he
          · intro i hi hik
            exact hsame i (by omega) (by omega)
        simp [hp, htail]

/-- Arrays that read the same hold the same strings. -/
theorem cstr_sameBytes {m : Nat} {first : Buffer n} {second : Buffer m}
    (h : first.SameBytes second) (p : Nat) : cstr first p = cstr second p := by
  rcases Nat.le_total p n with hle | hge
  · exact cstr_congr hle (first.get_of_le (Nat.le_refl n)) fun i _ _ => h i
  · have hzero : first.get p = 0 := first.get_of_le hge
    rw [cstr_of_zero hzero, cstr_of_zero ((h p).symm.trans hzero)]

theorem strpbrk_sameBytes {m : Nat} {first : Buffer n} {second : Buffer m}
    (h : first.SameBytes second) (p : Nat) (accept : List Byte) :
    strpbrk first p accept = strpbrk second p accept := by
  rw [strpbrk, cstr_sameBytes h, strpbrk]

theorem strspn_sameBytes {m : Nat} {first : Buffer n} {second : Buffer m}
    (h : first.SameBytes second) (p : Nat) (accept : List Byte) :
    strspn first p accept = strspn second p accept := by
  rw [strspn, cstr_sameBytes h, strspn]

theorem cstr_poke_of_lt (buf : Buffer n) {p q : Nat} (hpq : q < p) (value : Byte) :
    cstr (buf.poke q value) p = cstr buf p := by
  have hdrop : (buf.bytes.set q value).drop p = buf.bytes.drop p :=
    List.drop_set_of_lt hpq
  simp [cstr, Buffer.poke, hdrop]

/-- A NUL stored anywhere can only cut the string. -/
theorem cstr_poke_prefix (buf : Buffer n) (p i : Nat) :
    cstr (buf.poke i 0) p <+: cstr buf p := by
  have hcut : ∀ (bytes : List Byte) (k : Nat),
      (bytes.set k 0).takeWhile (· != 0) <+: bytes.takeWhile (· != 0) := by
    intro bytes k
    induction bytes generalizing k with
    | nil => exact List.prefix_rfl
    | cons b bytes ih =>
        cases k with
        | zero => simp
        | succ k =>
            simp only [List.set_cons_succ, List.takeWhile_cons]
            split
            · exact List.cons_prefix_cons.mpr ⟨rfl, ih k⟩
            · exact List.prefix_rfl
  simp only [cstr, Buffer.poke, List.drop_set]
  split
  · exact List.prefix_rfl
  · exact hcut _ _

/-- Skipping a start of the string leaves the rest of it. -/
theorem cstr_add {buf : Buffer n} {p : Nat} {pre post : List Byte}
    (hsplit : cstr buf p = pre ++ post) : cstr buf (p + pre.length) = post := by
  induction pre generalizing p with
  | nil => simpa using hsplit
  | cons b pre ih =>
      by_cases hp : buf.get p = 0
      · simp [cstr_of_zero hp] at hsplit
      · rw [cstr_of_ne_zero hp, List.cons_append, List.cons.injEq] at hsplit
        have := ih hsplit.2
        rw [List.length_cons, Nat.add_comm pre.length, ← Nat.add_assoc]
        exact this

/-- A NUL stored inside the string ends it there. -/
theorem cstr_poke_zero {buf : Buffer n} {p : Nat} {pre post : List Byte}
    (hsplit : cstr buf p = pre ++ post) (hfit : p + pre.length < n) :
    cstr (buf.poke (p + pre.length) 0) p = pre := by
  induction pre generalizing p with
  | nil =>
      apply cstr_of_zero
      exact Buffer.get_poke_self buf hfit 0
  | cons b pre ih =>
      by_cases hp : buf.get p = 0
      · simp [cstr_of_zero hp] at hsplit
      · rw [cstr_of_ne_zero hp, List.cons_append, List.cons.injEq] at hsplit
        have hidx : p + (b :: pre).length = p + 1 + pre.length := by
          simp only [List.length_cons]
          omega
        have hne : p + 1 + pre.length ≠ p := by omega
        have hget : (buf.poke (p + 1 + pre.length) 0).get p = buf.get p :=
          Buffer.get_poke_of_ne buf hne 0
        have htail : cstr (buf.poke (p + 1 + pre.length) 0) (p + 1) = pre :=
          ih hsplit.2 (by omega)
        rw [hidx, cstr_of_ne_zero (by rw [hget]; exact hp), hget, htail, hsplit.1]

/-- The string is the line it starts with, cut at the line's first NUL, when a
NUL follows the line. -/
theorem cstr_of_line {buf : Buffer n} {p : Nat} {text : List Byte}
    (hline : ∀ (i : Nat) (hi : i < text.length), buf.get (p + i) = text[i])
    (hend : buf.get (p + text.length) = 0) :
    cstr buf p = text.takeWhile (· != 0) := by
  induction text generalizing p with
  | nil => exact cstr_of_zero hend
  | cons b text ih =>
      have hb : buf.get p = b := hline 0 (Nat.succ_pos _)
      by_cases hzero : b = 0
      · rw [cstr_of_zero (hb.trans hzero)]
        simp [hzero]
      · have htail : cstr buf (p + 1) = text.takeWhile (· != 0) := by
          apply ih
          · intro i hi
            have := hline (i + 1) (Nat.succ_lt_succ hi)
            rw [Nat.add_assoc, Nat.add_comm 1 i]
            simpa using this
          · rw [Nat.add_assoc, Nat.add_comm 1]
            exact hend
        rw [cstr_of_ne_zero (by rw [hb]; exact hzero), hb, htail]
        simp [hzero]

/-- The array holds `text` with zeros behind it. -/
def Padded (buf : Buffer n) (text : List Byte) : Prop :=
  ∀ i, buf.get i = text.getD i 0

theorem padded_zero (n : Nat) : Padded (Buffer.zero n) [] :=
  fun i => Buffer.get_zero n i

/-- A text copied to the front leaves what stood behind it. -/
theorem Padded.blit {buf : Buffer n} {old text : List Byte} (h : Padded buf old)
    (hfit : text.length ≤ n) : Padded (buf.blit 0 text) (text ++ old.drop text.length) := by
  intro i
  rw [List.getD_eq_getElem?_getD]
  rcases Nat.lt_or_ge i text.length with hi | hi
  · have hget := Buffer.get_blit_data buf (by omega : 0 + text.length ≤ n) hi
    rw [Nat.zero_add] at hget
    rw [hget, List.getElem?_append_left hi, List.getElem?_eq_getElem hi, Option.getD_some]
  · rw [Buffer.get_blit_of_ge buf (Nat.zero_le n) (by omega), h i, List.getElem?_append_right hi,
      List.getElem?_drop, Nat.add_sub_cancel' hi, List.getD_eq_getElem?_getD]

/-- The string at the front of such an array. -/
theorem Padded.cstr {buf : Buffer n} {text : List Byte} (h : Padded buf text) :
    cstr buf 0 = text.takeWhile (· != 0) := by
  apply cstr_of_line
  · intro i hi
    rw [Nat.zero_add, h i, List.getD_eq_getElem?_getD, List.getElem?_eq_getElem hi,
      Option.getD_some]
  · rw [Nat.zero_add, h, List.getD_eq_getElem?_getD, List.getElem?_eq_none (Nat.le_refl _),
      Option.getD_none]

/-- A string copied behind another one extends it, when a NUL follows the
place for `k` bytes. -/
theorem cstr_strncpy {buf : Buffer n} {pre s : List Byte} {k : Nat} (hat : buf.HasAt 0 pre)
    (hpre : 0 ∉ pre) (hs : 0 ∉ s) (hfit : pre.length + k ≤ n)
    (hend : buf.get (pre.length + k) = 0) :
    cstr (strncpy buf pre.length s k) 0 = pre ++ s.take k := by
  have hlen : (s.take k ++ List.replicate (k - s.length) 0).length = k := by
    rw [List.length_append, List.length_take, List.length_replicate]
    omega
  have hwhole : (strncpy buf pre.length s k).HasAt 0
      ((pre ++ s.take k) ++ List.replicate (k - s.length) 0) := by
    rw [List.append_assoc]
    exact hat.blit (Nat.zero_add _) (by rw [hlen]; exact hfit)
  obtain ⟨htext, hpad⟩ := Buffer.hasAt_append.mp hwhole
  have hnul : (strncpy buf pre.length s k).get (0 + (pre ++ s.take k).length) = 0 := by
    by_cases hshort : s.length < k
    · obtain ⟨m, hm⟩ := Nat.exists_eq_succ_of_ne_zero (by omega : k - s.length ≠ 0)
      rw [hm, List.replicate_succ, Buffer.hasAt_cons] at hpad
      exact hpad.1
    · have hplace : 0 + (pre ++ s.take k).length = pre.length + k := by
        rw [List.length_append, List.length_take]
        omega
      rw [hplace, strncpy, Buffer.get_blit_of_ge buf (by omega) (by rw [hlen])]
      exact hend
  rw [cstr_of_line htext hnul, List.takeWhile_eq_self_iff]
  intro b hb
  rw [List.mem_append] at hb
  have hb0 : b ≠ 0 := by
    rintro rfl
    rcases hb with hb | hb
    · exact hpre hb
    · exact hs (List.mem_of_mem_take hb)
  simpa using hb0

theorem strpbrk_eq_none_iff (buf : Buffer n) (p : Nat) (accept : List Byte) :
    strpbrk buf p accept = none ↔ ∀ b ∈ cstr buf p, b ∉ accept := by
  simp [strpbrk, List.findIdx?_eq_none_iff]

theorem strpbrk_of_none_accepted {buf : Buffer n} {p : Nat} {accept : List Byte}
    (hnone : ¬ ∃ b ∈ cstr buf p, b ∈ accept) : strpbrk buf p accept = none := by
  rw [strpbrk_eq_none_iff]
  intro b hb haccept
  exact hnone ⟨b, hb, haccept⟩

/-- `strpbrk` stops at the first accepted byte. -/
theorem strpbrk_of_split {buf : Buffer n} {p : Nat} {accept pre post : List Byte}
    {b : Byte} (hsplit : cstr buf p = pre ++ b :: post)
    (hpre : ∀ x ∈ pre, x ∉ accept) (hb : b ∈ accept) :
    strpbrk buf p accept = some (p + pre.length) := by
  have hfind : (cstr buf p).findIdx? (accept.contains ·) = some pre.length := by
    rw [hsplit, List.findIdx?_append]
    have hnone : pre.findIdx? (accept.contains ·) = none := by
      simpa [List.findIdx?_eq_none_iff] using hpre
    have hhead : (b :: post).findIdx? (accept.contains ·) = some 0 := by
      simp [List.findIdx?_cons, hb]
    rw [hnone, hhead]
    simp
  rw [strpbrk, hfind]
  rfl

/-- The string around the byte `strpbrk` finds. -/
theorem split_of_strpbrk {buf : Buffer n} {p u : Nat} {accept : List Byte}
    (hfound : strpbrk buf p accept = some u) :
    ∃ pre b post, cstr buf p = pre ++ b :: post ∧ (∀ x ∈ pre, x ∉ accept) ∧
      b ∈ accept ∧ u = p + pre.length := by
  simp only [strpbrk, Option.map_eq_some_iff] at hfound
  obtain ⟨i, hi, rfl⟩ := hfound
  rw [List.findIdx?_eq_some_iff_getElem] at hi
  obtain ⟨hlt, hmem, hfirst⟩ := hi
  refine ⟨(cstr buf p).take i, (cstr buf p)[i], (cstr buf p).drop (i + 1), ?_, ?_, ?_, ?_⟩
  · rw [← List.drop_eq_getElem_cons hlt, List.take_append_drop]
  · intro x hx
    obtain ⟨j, hj, rfl⟩ := List.mem_iff_getElem.mp hx
    have hji : j < i := by
      rw [List.length_take] at hj
      omega
    have := hfirst j hji
    simpa using this
  · simpa using hmem
  · rw [List.length_take, Nat.min_eq_left (Nat.le_of_lt hlt)]

/-- `strspn` on a string whose accepted start is known. -/
theorem strspn_of_split {buf : Buffer n} {p : Nat} {accept pre post : List Byte}
    (hsplit : cstr buf p = pre ++ post) (hpre : ∀ x ∈ pre, x ∈ accept)
    (hpost : ∀ x ∈ post.head?, x ∉ accept) :
    strspn buf p accept = pre.length := by
  have hall : ∀ x ∈ pre, accept.contains x = true := by
    simpa using hpre
  rw [strspn, hsplit, List.takeWhile_append_of_pos hall]
  cases post with
  | nil => simp
  | cons b post =>
      have hb : b ∉ accept := hpost b rfl
      simp [hb]

theorem strspn_le_length (buf : Buffer n) (p : Nat) (accept : List Byte) :
    strspn buf p accept ≤ (cstr buf p).length :=
  List.IsPrefix.length_le (List.takeWhile_prefix _)

/-- What `strpbrk` finds lies between `p` and any NUL that follows `p`. -/
theorem strpbrk_bounds {buf : Buffer n} {p e u : Nat} {accept : List Byte}
    (hpe : p ≤ e) (he : buf.get e = 0)
    (hfound : strpbrk buf p accept = some u) : p ≤ u ∧ u < e := by
  obtain ⟨pre, b, post, hsplit, -, -, rfl⟩ := split_of_strpbrk hfound
  have hlen := cstr_length_le hpe he
  rw [hsplit, List.length_append, List.length_cons] at hlen
  omega

/-- What `strpbrk` finds lies in the array. -/
theorem strpbrk_lt {buf : Buffer n} {p u : Nat} {accept : List Byte}
    (hfound : strpbrk buf p accept = some u) : u < n := by
  obtain ⟨pre, b, post, hsplit, -, -, rfl⟩ := split_of_strpbrk hfound
  have hlt : pre.length < (cstr buf p).length := by
    rw [hsplit, List.length_append, List.length_cons]
    omega
  by_contra hge
  have hget := getElem_cstr buf hlt
  rw [buf.get_of_le (Nat.le_of_not_lt hge)] at hget
  exact zero_notMem_cstr buf p (hget ▸ List.getElem_mem hlt)

theorem strspn_bound {buf : Buffer n} {p e : Nat} (accept : List Byte)
    (hpe : p ≤ e) (he : buf.get e = 0) : p + strspn buf p accept ≤ e := by
  have h1 := strspn_le_length buf p accept
  have h2 := cstr_length_le hpe he
  omega

/-- Skipping the accepted start of a string. -/
theorem cstr_skip (buf : Buffer n) (p : Nat) (accept : List Byte) :
    cstr buf (p + strspn buf p accept) =
      (cstr buf p).dropWhile (accept.contains ·) :=
  cstr_add (List.takeWhile_append_dropWhile (p := (accept.contains ·))).symm

/-- A string cut into a word free of separators, a gap made of them, and a rest
that starts with another byte. -/
structure Split (seps s word gap rest : List Byte) : Prop where
  eq : s = word ++ gap ++ rest
  word : ∀ b ∈ word, b ∉ seps
  gap_ne : gap ≠ []
  gap : ∀ b ∈ gap, b ∈ seps
  rest : ∀ b ∈ rest.head?, b ∉ seps

instance (seps s word gap rest : List Byte) : Decidable (Split seps s word gap rest) :=
  decidable_of_iff
    (s = word ++ gap ++ rest ∧ word.all (!seps.contains ·) ∧ gap ≠ [] ∧
      gap.all (seps.contains ·) ∧ rest.head?.toList.all (!seps.contains ·))
    ⟨fun ⟨heq, hword, hne, hgap, hrest⟩ =>
      ⟨heq, by simpa using hword, hne, by simpa using hgap, by simpa using hrest⟩,
    fun h => ⟨h.eq, by simpa using h.word, h.gap_ne, by simpa using h.gap, by simpa using h.rest⟩⟩

/-- Every string with a separator in it can be cut. -/
theorem Split.exists {s seps : List Byte} (hsome : ∃ b ∈ s, b ∈ seps) :
    ∃ word gap rest, Split seps s word gap rest := by
  refine ⟨s.takeWhile (!seps.contains ·),
    (s.dropWhile (!seps.contains ·)).takeWhile (seps.contains ·),
    (s.dropWhile (!seps.contains ·)).dropWhile (seps.contains ·), ?_, ?_, ?_, ?_, ?_⟩
  · rw [List.append_assoc, List.takeWhile_append_dropWhile,
      List.takeWhile_append_dropWhile]
  · intro b hb
    simpa using List.mem_takeWhile_imp hb
  · obtain ⟨b, hb, hsep⟩ := hsome
    cases hdrop : s.dropWhile (!seps.contains ·) with
    | nil =>
        rw [List.dropWhile_eq_nil_iff] at hdrop
        have := hdrop b hb
        simp [hsep] at this
    | cons first rest =>
        have hfirst := List.head?_dropWhile_not (!seps.contains ·) s
        rw [hdrop] at hfirst
        have hmem : first ∈ seps := by simpa using hfirst
        simp [hmem]
  · intro b hb
    simpa using List.mem_takeWhile_imp hb
  · intro b hb
    have hhead := List.head?_dropWhile_not (seps.contains ·)
      (s.dropWhile (!seps.contains ·))
    rw [Option.mem_def] at hb
    rw [hb] at hhead
    simpa using hhead

/-- The word is what precedes the first separator. -/
theorem Split.takeWhile {seps s word gap rest : List Byte}
    (h : Split seps s word gap rest) :
    s.takeWhile (!seps.contains ·) = word ∧
      s.dropWhile (!seps.contains ·) = gap ++ rest := by
  have hword : ∀ b ∈ word, (!seps.contains b) = true := by
    intro b hb
    simpa using h.word b hb
  obtain ⟨first, tail, hgap⟩ := List.exists_cons_of_ne_nil h.gap_ne
  have hfirst : first ∈ seps := h.gap first (by simp [hgap])
  rw [h.eq, List.append_assoc]
  constructor
  · rw [List.takeWhile_append_of_pos hword, hgap]
    simp [hfirst]
  · rw [List.dropWhile_append_of_pos hword, hgap]
    simp [hfirst]

/-- There is one way to cut a string. -/
theorem Split.unique {seps s word gap rest word' gap' rest' : List Byte}
    (h : Split seps s word gap rest) (h' : Split seps s word' gap' rest') :
    word = word' ∧ gap = gap' ∧ rest = rest' := by
  obtain ⟨hword, htail⟩ := h.takeWhile
  obtain ⟨hword', htail'⟩ := h'.takeWhile
  have hskip : ∀ {gap rest : List Byte}, (∀ b ∈ gap, b ∈ seps) →
      (∀ b ∈ rest.head?, b ∉ seps) →
      (gap ++ rest).takeWhile (seps.contains ·) = gap ∧
        (gap ++ rest).dropWhile (seps.contains ·) = rest := by
    intro gap rest hgap hrest
    have hall : ∀ b ∈ gap, seps.contains b = true := by simpa using hgap
    rw [List.takeWhile_append_of_pos hall, List.dropWhile_append_of_pos hall]
    cases rest with
    | nil => simp
    | cons b rest =>
        have hb : b ∉ seps := hrest b rfl
        simp [hb]
  have hsame : gap ++ rest = gap' ++ rest' := htail.symm.trans htail'
  obtain ⟨hgap, hrest⟩ := hskip h.gap h.rest
  obtain ⟨hgap', hrest'⟩ := hskip h'.gap h'.rest
  rw [hsame] at hgap hrest
  exact ⟨hword.symm.trans hword', hgap.symm.trans hgap', hrest.symm.trans hrest'⟩

/-- More behind the rest is cut off with it. -/
theorem Split.append {seps s word gap rest : List Byte} (h : Split seps s word gap rest)
    (hne : rest ≠ []) (more : List Byte) : Split seps (s ++ more) word gap (rest ++ more) where
  eq := by rw [h.eq, List.append_assoc]
  word := h.word
  gap_ne := h.gap_ne
  gap := h.gap
  rest := by
    rw [List.head?_append_of_ne_nil _ hne]
    exact h.rest

section SplitBuffer

variable {buf : Buffer n} {p : Nat} {seps word gap rest : List Byte}

/-- `strpbrk` finds the end of the word. -/
theorem Split.strpbrk (h : Split seps (cstr buf p) word gap rest) :
    strpbrk buf p seps = some (p + word.length) := by
  obtain ⟨first, tail, hgap⟩ := List.exists_cons_of_ne_nil h.gap_ne
  have hcut : cstr buf p = word ++ first :: (tail ++ rest) := by
    rw [h.eq, hgap]
    simp
  exact strpbrk_of_split hcut h.word (h.gap first (by simp [hgap]))

theorem Split.word_lt {e : Nat} (h : Split seps (cstr buf p) word gap rest)
    (hpe : p ≤ e) (he : buf.get e = 0) : p + word.length < e :=
  (strpbrk_bounds hpe he h.strpbrk).2

/-- After a NUL has replaced the first separator, the word stands at `p`. -/
theorem Split.cstr_word (h : Split seps (cstr buf p) word gap rest)
    (hfit : p + word.length < n) : cstr (buf.poke (p + word.length) 0) p = word := by
  have hcut : cstr buf p = word ++ (gap ++ rest) := by
    rw [h.eq, List.append_assoc]
  exact cstr_poke_zero hcut hfit

/-- And behind that NUL, once the separators are skipped, the rest. -/
theorem Split.cstr_rest (h : Split seps (cstr buf p) word gap rest) :
    cstr (buf.poke (p + word.length) 0)
      (p + word.length + 1 +
        strspn (buf.poke (p + word.length) 0) (p + word.length + 1) seps) = rest := by
  obtain ⟨first, tail, hgap⟩ := List.exists_cons_of_ne_nil h.gap_ne
  have hbehind : cstr (buf.poke (p + word.length) 0) (p + word.length + 1) =
      tail ++ rest := by
    rw [cstr_poke_of_lt buf (Nat.lt_succ_self _)]
    have hcut : cstr buf p = (word ++ [first]) ++ (tail ++ rest) := by
      rw [h.eq, hgap]
      simp
    have := cstr_add hcut
    rwa [List.length_append, ← Nat.add_assoc] at this
  have htail : ∀ b ∈ tail, b ∈ seps := fun b hb => h.gap b (by simp [hgap, hb])
  rw [strspn_of_split hbehind htail h.rest]
  exact cstr_add hbehind

end SplitBuffer

theorem tolower_of_strcaseEq {s t : List Byte} (h : strcaseEq s t = true) :
    s.map tolower = t.map tolower := by
  simpa [strcaseEq] using h

theorem length_of_strcaseEq {s t : List Byte} (h : strcaseEq s t = true) :
    s.length = t.length := by
  simpa using congrArg List.length (tolower_of_strcaseEq h)

/-- A string that matches a name begins as the name does. -/
theorem strncaseEq_head {s name : List Byte} {n : Byte} {k : Nat}
    (h : strncaseEq s (n :: name) (k + 1) = true) : s.head?.map tolower = some (tolower n) := by
  cases s with
  | nil => simp [strncaseEq, strcaseEq] at h
  | cons b s =>
      simp only [strncaseEq, strcaseEq, List.take_succ_cons, List.map_cons, beq_iff_eq,
        List.cons.injEq] at h
      rw [List.head?_cons, Option.map_some, h.1]

/-- A string that matches a name has at least the name's length. -/
theorem length_of_strncaseEq {s name : List Byte} {k : Nat} (hname : name.length = k)
    (h : strncaseEq s name k = true) : k ≤ s.length := by
  have hlen := length_of_strcaseEq h
  rw [List.length_take, List.length_take, hname] at hlen
  omega

end CString
