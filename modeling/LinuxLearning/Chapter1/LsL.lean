/-
chapter_1/fileIO/ls_l.cpp: the line that `ls -l` prints for a file.  All that
goes into it can be read back from it, as long as the names of the owner and of
the group have no blank in them; the line has to fit into `buf`.
-/
import LinuxLearning.Lib.Decimal
import Mathlib.Data.List.Basic
import Mathlib.Data.Nat.Bitwise

namespace LinuxLearning.Chapter1.LsL

open CString Decimal

def S_IFMT : Nat := 0o170000

def S_IFSOCK : Nat := 0o140000

def S_IFLNK : Nat := 0o120000

def S_IFREG : Nat := 0o100000

def S_IFBLK : Nat := 0o060000

def S_IFDIR : Nat := 0o040000

def S_IFCHR : Nat := 0o020000

def S_IFIFO : Nat := 0o010000

def S_IRUSR : Nat := 0o400

def S_IWUSR : Nat := 0o200

def S_IXUSR : Nat := 0o100

def S_IRGRP : Nat := 0o040

def S_IWGRP : Nat := 0o020

def S_IXGRP : Nat := 0o010

def S_IROTH : Nat := 0o004

def S_IWOTH : Nat := 0o002

def S_IXOTH : Nat := 0o001

/-- What `stat`, `getpwuid`, `getgrgid` and `ctime` say of a file; the text of
`ctime` is 24 characters and a newline. -/
structure Stat where
  st_mode : Nat
  st_nlink : Nat
  st_size : Int
  pw_name : List Byte
  gr_name : List Byte
  time : { text : List Byte // text.length = 25 }

/-- The switch over `st.st_mode & S_IFMT`. -/
def fileType (st_mode : Nat) : Char :=
  let type := st_mode &&& S_IFMT
  if type = S_IFLNK then 'l'
  else if type = S_IFDIR then 'd'
  else if type = S_IFREG then '-'
  else if type = S_IFBLK then 'b'
  else if type = S_IFCHR then 'c'
  else if type = S_IFSOCK then 's'
  else if type = S_IFIFO then 'p'
  else '?'

/-- `(st.st_mode & mask) ? ch : '-'` -/
def access (st_mode mask : Nat) (ch : Char) : Char :=
  if st_mode &&& mask ≠ 0 then ch else '-'

/-- `perms` -/
def perms (st_mode : Nat) : List Char :=
  [fileType st_mode,
    access st_mode S_IRUSR 'r', access st_mode S_IWUSR 'w', access st_mode S_IXUSR 'x',
    access st_mode S_IRGRP 'r', access st_mode S_IWGRP 'w', access st_mode S_IXGRP 'x',
    access st_mode S_IROTH 'r', access st_mode S_IWOTH 'w', access st_mode S_IXOTH 'x']

def byteOf (ch : Char) : Byte := UInt8.ofNat ch.toNat

/-- `int linkNum = st.st_nlink` -/
def linkNum (st : Stat) : Int := toInt32 st.st_nlink

/-- `strncpy(mtime, time, strlen(time) - 1)` -/
def mtime (st : Stat) : List Byte := st.time.1.take (st.time.1.length - 1)

/-- The fields one after the other, each with a blank behind it, and the last
one. -/
def joined : List (List Byte) → List Byte → List Byte
  | [], last => last
  | field :: fields, last => field ++ 32 :: joined fields last

/-- What `sprintf` makes of `"%s %d %s %s %ld %s %s"`. -/
def line (st : Stat) (path : List Byte) : List Byte :=
  joined
    [(perms st.st_mode).map byteOf, format (linkNum st), st.pw_name, st.gr_name,
      format st.st_size, mtime st]
    path

/-- The size of `buf` -/
def BUF_SIZE : Nat := 1024

/-- What `main` prints; `sprintf` does not know the size of `buf`. -/
def ls_l (st : Stat) (path : List Byte) : Option (List Byte) :=
  if (line st path).length < BUF_SIZE then some (line st path ++ ascii "\n") else none

/-- Neither name has a blank in it. -/
def Named (st : Stat) : Prop := 32 ∉ st.pw_name ∧ 32 ∉ st.gr_name

/-- What the line tells: the type, the nine access bits, the number of links as
an `int`, and everything else. -/
structure Alike (first second : Stat) : Prop where
  fileType : fileType first.st_mode = fileType second.st_mode
  access : first.st_mode % 2 ^ 9 = second.st_mode % 2 ^ 9
  linkNum : linkNum first = linkNum second
  pw_name : first.pw_name = second.pw_name
  gr_name : first.gr_name = second.gr_name
  st_size : first.st_size = second.st_size
  mtime : mtime first = mtime second

section Access

variable {m n : Nat}

theorem access_iff (m k : Nat) (ch : Char) :
    access m (2 ^ k) ch = if m.testBit k then ch else '-' := by
  rw [access, Nat.and_two_pow]
  cases m.testBit k <;> simp

/-- A letter that is not a hyphen tells the bit. -/
theorem access_eq_iff {ch : Char} (hch : ch ≠ '-') (k : Nat) :
    access m (2 ^ k) ch = access n (2 ^ k) ch ↔ m.testBit k = n.testBit k := by
  rw [access_iff, access_iff]
  cases m.testBit k <;> cases n.testBit k <;> simp [hch, hch.symm]

/-- The low bits of a mode are a number. -/
theorem mod_two_pow_eq_iff (k : Nat) :
    m % 2 ^ k = n % 2 ^ k ↔ ∀ i < k, m.testBit i = n.testBit i := by
  constructor
  · intro h i hi
    have hbit := congrArg (Nat.testBit · i) h
    simpa [Nat.testBit_mod_two_pow, hi] using hbit
  · intro h
    apply Nat.eq_of_testBit_eq
    intro i
    rw [Nat.testBit_mod_two_pow, Nat.testBit_mod_two_pow]
    by_cases hi : i < k
    · rw [h i hi]
    · simp [hi]

theorem perms_eq_iff : perms m = perms n ↔ fileType m = fileType n ∧ m % 2 ^ 9 = n % 2 ^ 9 := by
  have hr : 'r' ≠ '-' := by decide
  have hw : 'w' ≠ '-' := by decide
  have hx : 'x' ≠ '-' := by decide
  rw [perms, perms]
  simp only [List.cons.injEq, and_true]
  refine and_congr_right fun _ => ?_
  rw [mod_two_pow_eq_iff, show S_IRUSR = 2 ^ 8 from rfl, show S_IWUSR = 2 ^ 7 from rfl,
    show S_IXUSR = 2 ^ 6 from rfl, show S_IRGRP = 2 ^ 5 from rfl, show S_IWGRP = 2 ^ 4 from rfl,
    show S_IXGRP = 2 ^ 3 from rfl, show S_IROTH = 2 ^ 2 from rfl, show S_IWOTH = 2 ^ 1 from rfl,
    show S_IXOTH = 2 ^ 0 from rfl]
  simp only [access_eq_iff hr, access_eq_iff hw, access_eq_iff hx]
  constructor
  · rintro ⟨h8, h7, h6, h5, h4, h3, h2, h1, h0⟩ i hi
    interval_cases i <;> assumption
  · intro h
    exact ⟨h 8 (by decide), h 7 (by decide), h 6 (by decide), h 5 (by decide), h 4 (by decide),
      h 3 (by decide), h 2 (by decide), h 1 (by decide), h 0 (by decide)⟩

end Access

section Line

variable {first second : Stat} {path path' : List Byte}

/-- A field without a blank ends at the first one. -/
theorem joined_cons {field field' : List Byte} {fields fields' : List (List Byte)}
    {last last' : List Byte} (hfield : 32 ∉ field) (hfield' : 32 ∉ field') :
    joined (field :: fields) last = joined (field' :: fields') last' ↔
      field = field' ∧ joined fields last = joined fields' last' := by
  rw [joined, joined]
  constructor
  · intro h
    induction field generalizing field' with
    | nil =>
        cases field' with
        | nil => exact ⟨rfl, (List.cons.inj h).2⟩
        | cons b field' => exact absurd ((List.cons.inj h).1 ▸ List.mem_cons_self) hfield'
    | cons b field ih =>
        rw [List.mem_cons, not_or] at hfield
        cases field' with
        | nil => exact absurd (List.cons.inj h).1.symm hfield.1
        | cons b' field' =>
            rw [List.mem_cons, not_or] at hfield'
            obtain ⟨rfl, htail⟩ := List.cons.inj h
            obtain ⟨rfl, hrest⟩ := ih hfield.2 hfield'.2 htail
            exact ⟨rfl, hrest⟩
  · rintro ⟨rfl, hrest⟩
    rw [hrest]

theorem blank_notMem_format (x : Int) : (32 : Byte) ∉ format x := by
  intro hmem
  rcases mem_format hmem with hdigit | hminus
  · exact absurd hdigit (by decide)
  · exact absurd hminus (by decide)

theorem format_eq_iff {x y : Int} : format x = format y ↔ x = y :=
  ⟨format_injective, fun h => by rw [h]⟩

/-- The characters of `perms`. -/
def letters : List Char := ['l', 'd', '-', 'b', 'c', 's', 'p', '?', 'r', 'w', 'x']

theorem fileType_mem (m : Nat) : fileType m ∈ letters := by
  unfold fileType
  dsimp only
  split_ifs <;> decide

theorem access_mem (m mask : Nat) {ch : Char} (hch : ch ∈ letters) :
    access m mask ch ∈ letters := by
  rw [access]
  split
  · exact hch
  · decide

theorem perms_mem (m : Nat) : ∀ ch ∈ perms m, ch ∈ letters := by
  have hr (mask : Nat) : access m mask 'r' ∈ letters := access_mem m mask (by decide)
  have hw (mask : Nat) : access m mask 'w' ∈ letters := access_mem m mask (by decide)
  have hx (mask : Nat) : access m mask 'x' ∈ letters := access_mem m mask (by decide)
  simp only [perms, List.forall_mem_cons]
  exact ⟨fileType_mem m, hr _, hw _, hx _, hr _, hw _, hx _, hr _, hw _, hx _, nofun⟩

theorem blank_notMem_perms (m : Nat) : 32 ∉ (perms m).map byteOf := by
  intro hmem
  obtain ⟨ch, hch, hblank⟩ := List.mem_map.mp hmem
  have hall : letters.all (byteOf · != 32) = true := by decide
  have hne := List.all_eq_true.mp hall ch (perms_mem m ch hch)
  exact bne_iff_ne.mp hne hblank

/-- The letters are different bytes. -/
theorem map_perms_eq_iff {m n : Nat} :
    (perms m).map byteOf = (perms n).map byteOf ↔ perms m = perms n := by
  have hall : letters.all (fun ch => Char.ofNat (byteOf ch).toNat == ch) = true := by decide
  have hperms (m : Nat) :
      ((perms m).map byteOf).map (fun b => Char.ofNat b.toNat) = perms m := by
    have hback : ∀ ch ∈ perms m, ((fun b => Char.ofNat b.toNat) ∘ byteOf) ch = id ch :=
      fun ch hch => eq_of_beq (List.all_eq_true.mp hall ch (perms_mem m ch hch))
    rw [List.map_map, List.map_congr_left hback, List.map_id]
  constructor
  · intro h
    rw [← hperms m, h, hperms n]
  · exact fun h => by rw [h]

theorem length_mtime (st : Stat) : (mtime st).length = 24 := by
  rw [mtime, List.length_take, st.time.2]
  rfl

/-- What two lines have to do with each other. -/
theorem line_eq_iff (hfirst : Named first) (hsecond : Named second) :
    line first path = line second path' ↔ Alike first second ∧ path = path' := by
  rw [line, line, joined_cons (blank_notMem_perms _) (blank_notMem_perms _),
    joined_cons (blank_notMem_format _) (blank_notMem_format _),
    joined_cons hfirst.1 hsecond.1, joined_cons hfirst.2 hsecond.2,
    joined_cons (blank_notMem_format _) (blank_notMem_format _), map_perms_eq_iff, perms_eq_iff,
    format_eq_iff, format_eq_iff]
  have hlast : joined [mtime first] path = joined [mtime second] path' ↔
      mtime first = mtime second ∧ path = path' := by
    have hlength : (mtime first).length = (mtime second).length := by
      rw [length_mtime, length_mtime]
    constructor
    · intro h
      obtain ⟨htime, hrest⟩ := List.append_inj h hlength
      exact ⟨htime, (List.cons.inj hrest).2⟩
    · rintro ⟨htime, rfl⟩
      rw [htime]
  rw [hlast]
  constructor
  · rintro ⟨⟨htype, haccess⟩, hlinks, huser, hgroup, hsize, htime, hpath⟩
    exact ⟨⟨htype, haccess, hlinks, huser, hgroup, hsize, htime⟩, hpath⟩
  · rintro ⟨h, hpath⟩
    exact ⟨⟨h.fileType, h.access⟩, h.linkNum, h.pw_name, h.gr_name, h.st_size, h.mtime, hpath⟩

/-- Two files print the same exactly if they are alike in what the line tells;
the bits for set-user-ID, set-group-ID and sticky are not in it. -/
theorem ls_l_tells (hfirst : Named first) (hsecond : Named second)
    (hfits : (line first path).length < BUF_SIZE) :
    ls_l first path = ls_l second path' ↔ Alike first second ∧ path = path' := by
  rw [← line_eq_iff hfirst hsecond, ls_l, ls_l, if_pos hfits]
  constructor
  · intro h
    split at h
    · exact List.append_cancel_right (Option.some.inj h)
    · cases h
  · intro h
    rw [← h, if_pos hfits]

/-- A program with the set-user-ID bit, and the same without. -/
theorem ls_l_tells_setuid :
    ∃ first second : Stat, first.st_mode = 0o104755 ∧ second.st_mode = 0o100755 ∧
      ls_l first (ascii "su") = ls_l second (ascii "su") := by
  let stat (st_mode : Nat) : Stat :=
    { st_mode
      st_nlink := 1
      st_size := 55672
      pw_name := ascii "root"
      gr_name := ascii "root"
      time := ⟨ascii "Mon Jul 31 19:35:09 2023\n", by decide⟩ }
  have hroot : 32 ∉ ascii "root" := by decide
  have hnamed (st_mode : Nat) : Named (stat st_mode) := ⟨hroot, hroot⟩
  refine ⟨stat 0o104755, stat 0o100755, rfl, rfl, ?_⟩
  rw [ls_l_tells (hnamed _) (hnamed _) (by decide)]
  exact ⟨⟨by decide, by decide, rfl, rfl, rfl, rfl, rfl⟩, rfl⟩

end Line

end LinuxLearning.Chapter1.LsL
