/-
Open files, read and written in sequence: each has its own offset, and a write
replaces what stands at the offset and leaves the rest of the file.
-/
import LinuxLearning.Lib.Buffer

/-- What is in a file, and where the next `read` or `write` goes. -/
structure OpenFile where
  content : List Byte
  offset : Nat
deriving Repr, DecidableEq

namespace OpenFile

/-- The content after `data` has been stored at `offset`; a gap is filled with
zeros. -/
def overwrite (content : List Byte) (offset : Nat) (data : List Byte) : List Byte :=
  content.take offset ++ List.replicate (offset - content.length) 0 ++ data ++
    content.drop (offset + data.length)

/-- `truncate`: a file that is shorter is filled up with zeros. -/
def truncate (content : List Byte) (length : Nat) : List Byte :=
  content.take length ++ List.replicate (length - content.length) 0

/-- `read` of at most `count` bytes. -/
def read (file : OpenFile) (count : Nat) : List Byte × OpenFile :=
  let data := (file.content.drop file.offset).take count
  (data, { file with offset := file.offset + data.length })

/-- `write`, which stores everything it is given. -/
def write (file : OpenFile) (data : List Byte) : OpenFile where
  content := overwrite file.content file.offset data
  offset := file.offset + data.length

variable {content : List Byte} {offset : Nat}

/-- Without a gap. -/
theorem overwrite_of_le (hoffset : offset ≤ content.length) (data : List Byte) :
    overwrite content offset data =
      content.take offset ++ data ++ content.drop (offset + data.length) := by
  rw [overwrite, Nat.sub_eq_zero_of_le hoffset, List.replicate_zero, List.append_nil]

theorem overwrite_front (front tail data : List Byte) :
    overwrite (front ++ tail) front.length data = front ++ data ++ tail.drop data.length := by
  have hoffset : front.length ≤ (front ++ tail).length := by simp
  rw [overwrite_of_le hoffset, List.take_left, List.drop_length_add_append]

theorem overwrite_zero (content data : List Byte) :
    overwrite content 0 data = data ++ content.drop data.length :=
  overwrite_front [] content data

@[simp] theorem length_truncate (content : List Byte) (length : Nat) :
    (truncate content length).length = length := by
  rw [truncate, List.length_append, List.length_take, List.length_replicate]
  omega

/-- A write at the front leaves the longer of the two lengths. -/
theorem length_overwrite_zero (content data : List Byte) :
    (overwrite content 0 data).length = max content.length data.length := by
  rw [overwrite_zero, List.length_append, List.length_drop]
  omega

/-- All that a file holds is replaced by at least as much data. -/
theorem overwrite_all {data : List Byte} (hlength : content.length ≤ data.length) :
    overwrite content 0 data = data := by
  rw [overwrite_zero, List.drop_eq_nil_of_le hlength, List.append_nil]

/-- Two writes one after the other are one write of the joined data. -/
theorem overwrite_append (hoffset : offset ≤ content.length) (first second : List Byte) :
    overwrite (overwrite content offset first) (offset + first.length) second =
      overwrite content offset (first ++ second) := by
  have hfront : (content.take offset ++ first).length = offset + first.length := by
    rw [List.length_append, List.length_take_of_le hoffset]
  rw [overwrite_of_le hoffset, overwrite_of_le hoffset, ← hfront, overwrite_front, hfront,
    List.drop_drop, List.length_append, Nat.add_assoc, List.append_assoc, List.append_assoc,
    List.append_assoc, List.append_assoc]

end OpenFile
