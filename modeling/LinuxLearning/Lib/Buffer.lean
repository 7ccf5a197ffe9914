/-
Fixed-size byte arrays.  A `Buffer n` is a list of exactly `n` bytes, so the
size of an array never has to be proved again after a store; the lemmas say
what a read sees after `poke` (one byte) and `blit` (a run of bytes).
-/
import Mathlib.Data.List.Basic
import Mathlib.Tactic.Ring

abbrev Byte := UInt8

/-- The bytes of an ASCII literal. -/
def ascii (text : String) : List Byte :=
  text.toList.map fun c => UInt8.ofNat c.toNat

/-- A C array `char[n]`. -/
@[ext] structure Buffer (n : Nat) where
  bytes : List Byte
  size_eq : bytes.length = n

namespace Buffer

variable {n : Nat}

/-- The array after `memset(buf, 0, n)`. -/
def zero (n : Nat) : Buffer n := ⟨List.replicate n 0, List.length_replicate⟩

/-- The byte at index `i` (0 outside the array). -/
def get (buf : Buffer n) (i : Nat) : Byte := buf.bytes.getD i 0

/-- Store one byte; a store outside the array leaves the array as it is. -/
def poke (buf : Buffer n) (i : Nat) (value : Byte) : Buffer n :=
  ⟨buf.bytes.set i value, by rw [List.length_set]; exact buf.size_eq⟩

/-- Store `data` from index `i` on; what lies outside the array is dropped. -/
def blit (buf : Buffer n) (i : Nat) (data : List Byte) : Buffer n :=
  ⟨(buf.bytes.take i ++ data ++ buf.bytes.drop (i + data.length)).take n, by
    have hsize := buf.size_eq
    simp only [List.length_take, List.length_append, List.length_drop]
    omega⟩

/-- The bytes of `data`, each with its place from index `i` on. -/
def placed : Nat → List Byte → List (Nat × Byte)
  | _, [] => []
  | i, b :: data => (i, b) :: placed (i + 1) data

/-- Store bytes one after the other, each at its place. -/
def pokes (buf : Buffer n) (stores : List (Nat × Byte)) : Buffer n :=
  stores.foldl (fun buf store => buf.poke store.1 store.2) buf

theorem get_eq_getElem (buf : Buffer n) {i : Nat} (hi : i < buf.bytes.length) :
    buf.get i = buf.bytes[i] := by
  simp [get, List.getD_eq_getElem?_getD, hi]

theorem get_of_le (buf : Buffer n) {i : Nat} (hi : n ≤ i) : buf.get i = 0 := by
  have : buf.bytes.length ≤ i := by rw [buf.size_eq]; exact hi
  simp [get, List.getD_eq_getElem?_getD, this]

/-- Two arrays with the same bytes are equal. -/
theorem ext_get {first second : Buffer n}
    (hget : ∀ i < n, first.get i = second.get i) : first = second := by
  apply Buffer.ext
  apply List.ext_getElem (by rw [first.size_eq, second.size_eq])
  intro i hfirst hsecond
  rw [← get_eq_getElem first hfirst, ← get_eq_getElem second hsecond]
  exact hget i (by rw [← first.size_eq]; exact hfirst)

@[simp] theorem get_zero (n i : Nat) : (zero n).get i = 0 := by
  by_cases hi : i < n
  · simp [get, zero, List.getD_eq_getElem?_getD, hi]
  · exact get_of_le _ (Nat.le_of_not_lt hi)

theorem get_poke (buf : Buffer n) (i j : Nat) (value : Byte) :
    (buf.poke i value).get j =
      if i = j ∧ j < n then value else buf.get j := by
  have hsize := buf.size_eq
  simp only [get, poke, List.getD_eq_getElem?_getD, List.getElem?_set, hsize]
  by_cases hij : i = j
  · subst hij
    by_cases hi : i < n
    · simp [hi]
    · have hnone : buf.bytes[i]? = none := by
        rw [List.getElem?_eq_none_iff, hsize]
        exact Nat.le_of_not_lt hi
      simp [hi, hnone]
  · simp [hij]

@[simp] theorem get_poke_self (buf : Buffer n) {i : Nat} (hi : i < n)
    (value : Byte) : (buf.poke i value).get i = value := by
  simp [get_poke, hi]

@[simp] theorem get_poke_of_ne (buf : Buffer n) {i j : Nat} (hij : i ≠ j)
    (value : Byte) : (buf.poke i value).get j = buf.get j := by
  simp [get_poke, hij]

theorem get_blit (buf : Buffer n) {i : Nat} {data : List Byte} (hi : i ≤ n)
    (j : Nat) :
    (buf.blit i data).get j =
      if j < i then buf.get j
      else if hj : j - i < data.length then
        if j < n then data[j - i] else 0
      else buf.get j := by
  have hsize := buf.size_eq
  by_cases hjn : j < n
  · simp only [get, blit, List.getD_eq_getElem?_getD, List.getElem?_take, hjn,
      ↓reduceIte, List.append_assoc]
    by_cases hji : j < i
    · rw [List.getElem?_append_left (by simp; omega)]
      simp [hji]
    · rw [List.getElem?_append_right (by simp; omega)]
      have hlen : (buf.bytes.take i).length = i := by simp; omega
      rw [hlen]
      by_cases hjd : j - i < data.length
      · rw [List.getElem?_append_left hjd]
        simp [hji, hjd]
      · rw [List.getElem?_append_right (Nat.le_of_not_lt hjd)]
        have hidx : i + data.length + (j - i - data.length) = j := by omega
        simp [hji, hjd, hidx]
  · rw [get_of_le _ (Nat.le_of_not_lt hjn), get_of_le _ (Nat.le_of_not_lt hjn)]
    simp [hjn]

theorem get_blit_of_lt (buf : Buffer n) {i j : Nat} {data : List Byte}
    (hi : i ≤ n) (hj : j < i) : (buf.blit i data).get j = buf.get j := by
  simp [get_blit buf hi, hj]

theorem get_blit_data (buf : Buffer n) {i j : Nat} {data : List Byte}
    (hfit : i + data.length ≤ n) (hj : j < data.length) :
    (buf.blit i data).get (i + j) = data[j] := by
  have hjn : i + j < n := by omega
  simp [get_blit buf (by omega : i ≤ n), hj, hjn]

theorem get_blit_of_ge (buf : Buffer n) {i j : Nat} {data : List Byte}
    (hi : i ≤ n) (hj : i + data.length ≤ j) :
    (buf.blit i data).get j = buf.get j := by
  have h1 : ¬ j < i := by omega
  have h2 : ¬ j - i < data.length := by omega
  simp [get_blit buf hi, h1, h2]

@[simp] theorem blit_nil (buf : Buffer n) (i : Nat) : buf.blit i [] = buf := by
  apply Buffer.ext
  have hsize := buf.size_eq
  simp only [blit, List.append_nil, List.length_nil, Nat.add_zero,
    List.take_append_drop]
  exact List.take_of_length_le (Nat.le_of_eq hsize)

theorem blit_of_le (buf : Buffer n) {i : Nat} (hi : n ≤ i) (data : List Byte) :
    buf.blit i data = buf := by
  apply Buffer.ext
  have hsize := buf.size_eq
  have hwhole : buf.bytes.take i = buf.bytes := List.take_of_length_le (by omega)
  simp only [blit, hwhole, List.append_assoc]
  exact List.take_left' hsize

theorem blit_cons (buf : Buffer n) (i : Nat) (b : Byte) (data : List Byte) :
    buf.blit i (b :: data) = (buf.poke i b).blit (i + 1) data := by
  by_cases hi : i < n
  · apply ext_get
    intro k hk
    rw [get_blit buf (Nat.le_of_lt hi), get_blit _ hi, get_poke]
    rcases Nat.lt_trichotomy k i with hlt | rfl | hgt
    · have hne : i ≠ k := by omega
      have hlt' : k < i + 1 := by omega
      simp [hlt, hlt', hne]
    · simp [hk]
    · have hge : ¬ k < i := by omega
      have hge' : ¬ k < i + 1 := by omega
      have hne : i ≠ k := by omega
      obtain ⟨d, rfl⟩ := Nat.exists_eq_add_of_le hgt
      have hd : i.succ + d - i = d + 1 := by omega
      have hd' : i.succ + d - (i + 1) = d := by omega
      simp [hge, hge', hne, hd, hd']
  · have hle : n ≤ i := Nat.le_of_not_lt hi
    have hpoke : buf.poke i b = buf := by
      apply Buffer.ext
      exact List.set_eq_of_length_le (by rw [buf.size_eq]; exact hle)
    rw [blit_of_le buf hle, hpoke, blit_of_le buf (Nat.le_succ_of_le hle)]

/-- A copy is its stores. -/
theorem blit_eq_pokes (buf : Buffer n) (i : Nat) (data : List Byte) :
    buf.blit i data = buf.pokes (placed i data) := by
  induction data generalizing buf i with
  | nil => exact blit_nil buf i
  | cons b data ih =>
      rw [blit_cons, ih]
      rfl

theorem mem_placed {i : Nat} {data : List Byte} {store : Nat × Byte}
    (hstore : store ∈ placed i data) : i ≤ store.1 ∧ store.1 < i + data.length := by
  induction data generalizing i with
  | nil => cases hstore
  | cons b data ih =>
      rw [List.length_cons]
      rcases List.mem_cons.mp hstore with rfl | hlater
      · exact ⟨Nat.le_refl i, by omega⟩
      · have := ih hlater
        omega

/-- A store below the copied run and the copy commute. -/
theorem poke_blit (buf : Buffer n) {i j : Nat} {data : List Byte} (hi : i ≤ n)
    (hj : j < i) (value : Byte) :
    (buf.blit i data).poke j value = (buf.poke j value).blit i data := by
  apply ext_get
  intro k hk
  rw [get_poke, get_blit buf hi, get_blit _ hi]
  by_cases hjk : j = k
  · subst hjk
    simp [hj, hk]
  · simp [hjk]

/-- Two adjacent copies are one copy of the joined data. -/
theorem blit_append (buf : Buffer n) {i : Nat} {first second : List Byte}
    (hfit : i + first.length ≤ n) :
    (buf.blit i first).blit (i + first.length) second =
      buf.blit i (first ++ second) := by
  apply ext_get
  intro k hk
  rw [get_blit _ hfit, get_blit _ (by omega : i ≤ n),
    get_blit _ (by omega : i ≤ n)]
  by_cases h1 : k < i
  · have h2 : k < i + first.length := by omega
    simp [h1, h2]
  · by_cases h2 : k < i + first.length
    · have h3 : k - i < first.length := by omega
      have h4 : k - i < first.length + second.length := by omega
      simp [h1, h2, h3, h4, hk]
    · have h3 : ¬ k - i < first.length := by omega
      have hidx : k - (i + first.length) = k - i - first.length := by omega
      by_cases h4 : k - i - first.length < second.length
      · have h5 : k - i < first.length + second.length := by omega
        simp [h1, h2, hidx, h4, h5, hk,
          List.getElem_append_right (Nat.le_of_not_lt h3)]
      · have h5 : ¬ k - i < first.length + second.length := by omega
        simp [h1, h2, h3, hidx, h4, h5]

/-- Two arrays that read the same everywhere, with zeros behind the shorter
one. -/
def SameBytes {m : Nat} (first : Buffer n) (second : Buffer m) : Prop :=
  ∀ i, first.get i = second.get i

theorem sameBytes_zero (m n : Nat) : (zero n).SameBytes (zero m) :=
  fun i => (get_zero n i).trans (get_zero m i).symm

theorem SameBytes.poke {m : Nat} {first : Buffer n} {second : Buffer m}
    (h : first.SameBytes second) {i : Nat} (hn : i < n) (hm : i < m) (value : Byte) :
    (first.poke i value).SameBytes (second.poke i value) := by
  intro j
  by_cases hj : i = j
  · subst hj
    rw [get_poke_self _ hn, get_poke_self _ hm]
  · rw [get_poke_of_ne _ hj, get_poke_of_ne _ hj]
    exact h j

theorem SameBytes.blit {m : Nat} {first : Buffer n} {second : Buffer m}
    (h : first.SameBytes second) {i : Nat} {data : List Byte} (hn : i + data.length ≤ n)
    (hm : i + data.length ≤ m) : (first.blit i data).SameBytes (second.blit i data) := by
  intro j
  rw [get_blit _ (by omega), get_blit _ (by omega), h j]
  split
  · rfl
  · split
    · rw [if_pos (by omega), if_pos (by omega)]
    · rfl

/-- `data` stands in the array from index `i` on. -/
def HasAt (buf : Buffer n) (i : Nat) (data : List Byte) : Prop :=
  ∀ (j : Nat) (hj : j < data.length), buf.get (i + j) = data[j]

@[simp] theorem hasAt_nil (buf : Buffer n) (i : Nat) : buf.HasAt i [] :=
  fun j hj => absurd hj (Nat.not_lt_zero j)

theorem hasAt_cons {buf : Buffer n} {i : Nat} {b : Byte} {data : List Byte} :
    buf.HasAt i (b :: data) ↔ buf.get i = b ∧ buf.HasAt (i + 1) data := by
  constructor
  · intro h
    refine ⟨h 0 (Nat.succ_pos _), fun j hj => ?_⟩
    have := h (j + 1) (Nat.succ_lt_succ hj)
    rw [Nat.add_assoc, Nat.add_comm 1 j]
    simpa using this
  · rintro ⟨hb, htail⟩ j hj
    cases j with
    | zero => exact hb
    | succ j =>
        have := htail j (Nat.lt_of_succ_lt_succ hj)
        rw [Nat.add_assoc, Nat.add_comm 1 j] at this
        simpa using this

theorem hasAt_append {buf : Buffer n} {i : Nat} {first second : List Byte} :
    buf.HasAt i (first ++ second) ↔
      buf.HasAt i first ∧ buf.HasAt (i + first.length) second := by
  induction first generalizing i with
  | nil => simp
  | cons b first ih =>
      have hidx : i + 1 + first.length = i + (first.length + 1) := by omega
      simp only [List.cons_append, hasAt_cons, ih, List.length_cons, hidx, and_assoc]

/-- A store outside the run of bytes does not disturb it. -/
theorem HasAt.poke {buf : Buffer n} {i k : Nat} {data : List Byte}
    (h : buf.HasAt i data) (hk : k < i ∨ i + data.length ≤ k) (value : Byte) :
    (buf.poke k value).HasAt i data := by
  intro j hj
  rw [get_poke_of_ne _ (by omega)]
  exact h j hj

theorem HasAt.congr {m : Nat} {first : Buffer n} {second : Buffer m} {i : Nat}
    {data : List Byte} (h : first.HasAt i data)
    (hsame : ∀ j, i ≤ j → j < i + data.length → second.get j = first.get j) :
    second.HasAt i data := by
  intro j hj
  rw [hsame (i + j) (Nat.le_add_right i j) (Nat.add_lt_add_left hj i)]
  exact h j hj

/-- So do stores behind it. -/
theorem HasAt.pokes {buf : Buffer n} {data : List Byte} (h : buf.HasAt 0 data)
    {stores : List (Nat × Byte)} (hstores : ∀ store ∈ stores, data.length ≤ store.1) :
    (buf.pokes stores).HasAt 0 data := by
  induction stores generalizing buf with
  | nil => exact h
  | cons store stores ih =>
      rw [List.forall_mem_cons] at hstores
      exact ih (h.poke (Or.inr (by omega)) store.2) hstores.2

/-- A run of bytes at the front is what taking it gives. -/
theorem HasAt.take {buf : Buffer n} {data : List Byte} (h : buf.HasAt 0 data)
    (hfit : data.length ≤ n) : buf.bytes.take data.length = data := by
  have hsize := buf.size_eq
  apply List.ext_getElem
  · rw [List.length_take]
    omega
  · intro j hj hj'
    rw [List.getElem_take, ← h j hj', Nat.zero_add, get_eq_getElem]

/-- A copied run stands where it was copied to. -/
theorem hasAt_blit (buf : Buffer n) {i : Nat} {data : List Byte}
    (hfit : i + data.length ≤ n) : (buf.blit i data).HasAt i data :=
  fun _ hj => get_blit_data buf hfit hj

theorem HasAt.blit {buf : Buffer n} {i k : Nat} {first second : List Byte}
    (h : buf.HasAt i first) (hi : i + first.length = k)
    (hfit : k + second.length ≤ n) :
    (buf.blit k second).HasAt i (first ++ second) := by
  rw [hasAt_append]
  constructor
  · apply h.congr
    intro j _ hj
    exact get_blit_of_lt buf (by omega) (by omega)
  · rw [hi]
    exact hasAt_blit buf hfit

end Buffer
