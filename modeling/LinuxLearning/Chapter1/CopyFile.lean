/-
chapter_1/fileIO/copyfile.cpp: a.txt is copied to b.txt in a loop of `read`
and `write`.  The copy is opened without O_TRUNC, so what the loop does not
reach of an older copy stays.
-/
import LinuxLearning.Lib.Loop
import LinuxLearning.Lib.OpenFile

namespace LinuxLearning.Chapter1

/-- The size of `buf` -/
def BUF_SIZE : Nat := 1024

/-- `open("a.txt", O_RDONLY)` -/
def openSource (path : Option (List Byte)) : Option OpenFile :=
  path.map fun content => ⟨content, 0⟩

/-- `open("b.txt", O_WRONLY | O_CREAT, 777)`: a missing file is created, an
existing one keeps its content. -/
def openCopy (permitted : Bool) (path : Option (List Byte)) : Option OpenFile :=
  if permitted then some ⟨path.getD [], 0⟩ else none

/-- A `read` that gives at least one byte while there is one.  The kernel
decides how many: `split` tells it for each offset a read can start at. -/
def readSome (split : Nat → Nat) (file : OpenFile) (count : Nat) : List Byte × OpenFile :=
  file.read (min count (max 1 (split file.offset)))

/-- The two files of the copy loop. -/
structure Copying where
  source : OpenFile
  copy : OpenFile

/-- `while ((len = read(src_fd, buf, sizeof(buf))) > 0) write(dst_fd, buf, len);` -/
def copyTurn (split : Nat → Nat) (s : Copying) : Copying ⊕ Copying :=
  let (data, source) := readSome split s.source BUF_SIZE
  if data.length > 0 then .inl ⟨source, s.copy.write data⟩
  else .inr { s with source }

/-- What the next `read` gives. -/
def chunk (split : Nat → Nat) (s : Copying) : List Byte :=
  (readSome split s.source BUF_SIZE).1

/-- The files after that chunk has been copied. -/
def copied (s : Copying) (data : List Byte) : Copying :=
  ⟨{ s.source with offset := s.source.offset + data.length }, s.copy.write data⟩

variable {split : Nat → Nat} {s after : Copying}

theorem copyTurn_eq (split : Nat → Nat) (s : Copying) :
    copyTurn split s = if (chunk split s).length > 0 then .inl (copied s (chunk split s))
      else .inr { s with source := (copied s (chunk split s)).source } := rfl

theorem chunk_front (split : Nat → Nat) (s : Copying) :
    chunk split s <+: s.source.content.drop s.source.offset :=
  List.take_prefix _ _

/-- Only at the end of the file is there nothing to read. -/
theorem chunk_eq_nil (hnil : ¬ (chunk split s).length > 0) :
    s.source.content.length ≤ s.source.offset := by
  simp only [chunk, readSome, OpenFile.read, BUF_SIZE, List.length_take, List.length_drop] at hnil
  omega

theorem copyTurn_again (h : copyTurn split s = .inl after) :
    (chunk split s).length > 0 ∧ after = copied s (chunk split s) := by
  rw [copyTurn_eq] at h
  split_ifs at h with hpos
  exact ⟨hpos, (Sum.inl.inj h).symm⟩

theorem copyTurn_done (h : copyTurn split s = .inr after) :
    s.source.content.length ≤ s.source.offset ∧ after.copy = s.copy := by
  rw [copyTurn_eq] at h
  split_ifs at h with hpos
  cases h
  exact ⟨chunk_eq_nil hpos, rfl⟩

/-- The loop of `copyfile`. -/
def copyLoop (split : Nat → Nat) : Loop Copying Copying where
  turn := copyTurn split
  measure s := s.source.content.length - s.source.offset
  decreases {s after} h := by
    obtain ⟨hpos, rfl⟩ := copyTurn_again h
    have hle := (chunk_front split s).length_le
    rw [List.length_drop] at hle
    dsimp only [copied]
    omega

/-- `copyfile`: what `main` returns, and what is in b.txt then. -/
def copyfile (split : Nat → Nat) (source : Option (List Byte)) (permitted : Bool)
    (copy : Option (List Byte)) : Int × Option (List Byte) :=
  match openSource source with
  | none => (-1, copy)
  | some source =>
      match openCopy permitted copy with
      | none => (-1, copy)
      | some copy => (0, some ((copyLoop split).result ⟨source, copy⟩).copy.content)

/-- What the loop has copied when both offsets are at `n`. -/
structure CopyInv (bytes previous : List Byte) (s : Copying) : Prop where
  source : s.source.content = bytes
  offset : s.source.offset = s.copy.offset
  within : s.source.offset ≤ bytes.length
  copy : s.copy.content = OpenFile.overwrite previous 0 (bytes.take s.source.offset)

theorem CopyInv.copied {bytes previous : List Byte} (h : CopyInv bytes previous s) :
    CopyInv bytes previous (copied s (chunk split s)) := by
  have hfront := chunk_front split s
  generalize chunk split s = data at hfront ⊢
  rw [h.source] at hfront
  have hle := hfront.length_le
  rw [List.length_drop] at hle
  have hwithin := h.within
  refine ⟨h.source, congrArg (· + data.length) h.offset, ?_, ?_⟩
  · dsimp only [Chapter1.copied]
    omega
  · have hmore : bytes.take (s.source.offset + data.length) =
        bytes.take s.source.offset ++ data := by
      rw [List.take_add, ← List.prefix_iff_eq_take.mp hfront]
    have hlength : 0 + (bytes.take s.source.offset).length = s.copy.offset := by
      rw [Nat.zero_add, List.length_take_of_le hwithin, h.offset]
    dsimp only [Chapter1.copied, OpenFile.write]
    rw [hmore, h.copy, ← hlength, OpenFile.overwrite_append (Nat.zero_le _)]

/-- After the loop the source stands at the front of the copy, with what was
behind it before. -/
theorem copyLoop_content {bytes previous : List Byte} (h : CopyInv bytes previous s) :
    ((copyLoop split).result s).copy.content = bytes ++ previous.drop bytes.length := by
  induction s using (copyLoop split).induction with
  | hturn s ih =>
      cases hturn : (copyLoop split).turn s with
      | inl after =>
          rw [Loop.result_again hturn]
          obtain ⟨_, rfl⟩ := copyTurn_again hturn
          exact ih _ hturn h.copied
      | inr after =>
          rw [Loop.result_done hturn]
          obtain ⟨hend, hsame⟩ := copyTurn_done hturn
          rw [h.source] at hend
          rw [hsame, h.copy, List.take_of_length_le hend, OpenFile.overwrite_zero]

theorem copyfile_eq (split : Nat → Nat) (bytes : List Byte) (copy : Option (List Byte)) :
    copyfile split (some bytes) true copy =
      (0, some (bytes ++ (copy.getD []).drop bytes.length)) := by
  have hstart : CopyInv bytes (copy.getD []) ⟨⟨bytes, 0⟩, ⟨copy.getD [], 0⟩⟩ :=
    ⟨rfl, rfl, Nat.zero_le _, (OpenFile.overwrite_zero _ []).symm⟩
  exact congrArg (fun content => (0, some content)) (copyLoop_content hstart)

/-- The copy equals the source exactly if no older copy was longer. -/
theorem copyfile_iff (split : Nat → Nat) (bytes : List Byte) (copy : Option (List Byte)) :
    copyfile split (some bytes) true copy = (0, some bytes) ↔
      (copy.getD []).length ≤ bytes.length := by
  rw [copyfile_eq, Prod.mk.injEq, Option.some.injEq, List.append_right_eq_self,
    List.drop_eq_nil_iff]
  exact and_iff_right rfl

/-- An older copy that was longer shines through. -/
theorem copyfile_longer :
    ¬ ∀ (split : Nat → Nat) (bytes : List Byte) (copy : Option (List Byte)),
      copyfile split (some bytes) true copy = (0, some bytes) := by
  intro h
  have hequal := h (fun _ => BUF_SIZE) (ascii "ab") (some (ascii "xyz"))
  rw [copyfile_eq] at hequal
  exact absurd hequal (by decide)

end LinuxLearning.Chapter1
