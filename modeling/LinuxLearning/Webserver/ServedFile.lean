/-
The file a request is answered with: which file is looked up for a target, and
how a file of any size is framed.
-/
import Mathlib.Data.List.TakeDrop
import LinuxLearning.Webserver.Process

namespace LinuxLearning.Webserver

open CString Lines

/-- `process_write` has returned true, and the iovecs hold one response, whose
Content-Length header states the number of bytes behind its empty line. -/
def Framed (mem : Nat → Byte) (out : Bool × HttpConn) : Prop :=
  out.1 = true ∧ ∃ bytes status, HttpConn.offered mem out.2 = bytes.map some ∧
    IsResponse bytes status

/-- The bytes of a mapping. -/
def mappedBytes (mem : Nat → Byte) (addr len : Nat) : List Byte :=
  (List.range len).map fun i => mem (addr + i)

@[simp] theorem length_mappedBytes (mem : Nat → Byte) (addr len : Nat) :
    (mappedBytes mem addr len).length = len := by
  simp [mappedBytes]

/-- `do_request` has asked for the target below `doc_root`, or refuses. -/
def LooksUp (target : List Byte) (out : HttpCode × HttpConn × List SysCall) : Prop :=
  cstr out.2.1.realFile 0 = docRoot ++ target ∨ out.1 ≠ .fileRequest

/-- A file that `do_request` maps: it is there for all to read, and no
directory. -/
def Served (answer : FsAnswer) : Prop :=
  ∃ st, answer.stat = some st ∧ st.worldReadable = true ∧ st.isDir = false

namespace HttpConn

section Framing

variable {c : HttpConn} (mem : Nat → Byte)

/-- An empty file is answered with a page. -/
theorem framed_empty (hwritten : c.Written []) (hsize : c.fileStat.size = 0) :
    Framed mem (c.processWrite .fileRequest) := by
  obtain ⟨hok, hqueued⟩ := processWrite_file hwritten
  rw [if_pos hsize] at hqueued
  have hresponse : IsResponse (responsePage c.linger 200 ok200Title okString) 200 :=
    (isResponse_iff (by decide) _ _ _).mpr ⟨rfl, rfl⟩
  exact ⟨hok, _, 200, hqueued.offered_text mem, hresponse⟩

/-- The length of any other file is stated as the `int` that it becomes. -/
theorem framed_mapped (hwritten : c.Written []) (hsize : c.fileStat.size ≠ 0) {addr : Nat}
    (hmapped : c.fileAddress = .mapped addr) :
    Framed mem (c.processWrite .fileRequest) ↔ toInt32 c.fileStat.size = c.fileStat.size := by
  obtain ⟨hok, hqueued⟩ := processWrite_file hwritten
  rw [if_neg hsize, hmapped] at hqueued
  have hoffered : offered mem (c.processWrite .fileRequest).2 =
      (responseHead c.linger 200 ok200Title (toInt32 c.fileStat.size) ++
        mappedBytes mem addr c.fileStat.size).map some := by
    rw [hqueued.offered_file mem, List.map_append]
    simp [iovBytes, mappedBytes]
  have hresponse : ∀ status, IsResponse (responseHead c.linger 200 ok200Title
      (toInt32 c.fileStat.size) ++ mappedBytes mem addr c.fileStat.size) status ↔
        status = 200 ∧ toInt32 c.fileStat.size = c.fileStat.size := fun status =>
    calc _ ↔ status = 200 ∧
          toInt32 c.fileStat.size = (mappedBytes mem addr c.fileStat.size).length :=
        isResponse_iff (by decide) _ _ _
      _ ↔ _ := by rw [length_mappedBytes]
  constructor
  · rintro ⟨-, bytes, status, hbytes, hframed⟩
    rw [hoffered] at hbytes
    have hsame := List.map_injective_iff.mpr (Option.some_injective Byte) hbytes
    rw [← hsame] at hframed
    exact ((hresponse status).mp hframed).2
  · intro hlength
    exact ⟨hok, _, 200, hoffered, (hresponse 200).mpr ⟨rfl, hlength⟩⟩

/-- A file is framed correctly exactly up to the largest `int`. -/
theorem processWrite_framed (hidx : c.writeIdx = 0)
    (hmapped : c.fileStat.size ≠ 0 → ∃ addr, c.fileAddress = .mapped addr) :
    Framed mem (c.processWrite .fileRequest) ↔ c.fileStat.size < 2 ^ 31 := by
  have hwritten : c.Written [] := ⟨hidx, Buffer.hasAt_nil _ 0, Nat.zero_le _⟩
  by_cases hsize : c.fileStat.size = 0
  · simp [framed_empty mem hwritten hsize, hsize]
  · obtain ⟨addr, haddr⟩ := hmapped hsize
    rw [framed_mapped mem hwritten hsize haddr, toInt32_size]

/-- A small file, mapped somewhere. -/
theorem processWrite_framed_small :
    Framed (fun _ => 0) ({ idle with
      fileStat := ⟨0o100644, 5⟩
      fileAddress := .mapped 4096 }.processWrite .fileRequest) :=
  (processWrite_framed (c := { idle with
    fileStat := ⟨0o100644, 5⟩
    fileAddress := .mapped 4096 }) (fun _ => 0) rfl fun _ => ⟨4096, rfl⟩).mpr (by decide)

/-- A file of 2 GiB is announced with a negative length. -/
theorem not_framed_large :
    ¬ ∀ (mem : Nat → Byte) (c : HttpConn), c.writeIdx = 0 → c.fileStat.size < 2 ^ 63 →
      (c.fileStat.size ≠ 0 → ∃ addr, c.fileAddress = .mapped addr) →
      Framed mem (c.processWrite .fileRequest) := by
  intro h
  have hframed := h (fun _ => 0) { idle with
    fileStat := ⟨0o100644, 2 ^ 31⟩
    fileAddress := .mapped 4096 } rfl (by decide) fun _ => ⟨4096, rfl⟩
  have hlength := (framed_mapped _ ⟨rfl, Buffer.hasAt_nil _ 0, Nat.zero_le _⟩ (by decide)
    rfl).mp hframed
  revert hlength
  decide

end Framing

section Path

variable (fs : List Byte → FsAnswer) (c : HttpConn)

/-- A file is served when `do_request` finds one to map at its path. -/
theorem doRequest_fileRequest : (c.doRequest fs).1 = .fileRequest ↔
    Served (fs (cstr c.buildPath.realFile 0)) := by
  cases hstat : (fs (cstr c.buildPath.realFile 0)).stat with
  | none =>
      rw [doRequest_noResource rfl hstat]
      simp [Served, hstat]
  | some st =>
      cases hread : st.worldReadable with
      | false =>
          rw [doRequest_forbidden rfl hstat hread]
          simp [Served, hstat, hread]
      | true =>
          cases hdir : st.isDir with
          | true =>
              rw [doRequest_directory rfl hstat hread hdir]
              simp [Served, hstat, hdir]
          | false =>
              rw [doRequest_file rfl hstat hread hdir]
              simp [Served, hstat, hread, hdir]

/-- `m_real_file` has room for the target. -/
theorem requestPath_eq_iff {target : List Byte} : requestPath target = docRoot ++ target ↔
    target.length ≤ FILENAME_LEN - docRoot.length - 1 := by
  rw [requestPath, List.append_cancel_left_eq, List.take_eq_self_iff]

/-- The file looked up, for a target of any length. -/
theorem looksUp_iff {c : HttpConn} {p : Nat} {target : List Byte} (hurl : c.url = some p)
    (hp : c.strAt p = target) (hfile : c.realFile = Buffer.zero FILENAME_LEN) :
    LooksUp target (c.doRequest fs) ↔ requestPath target = docRoot ++ target ∨
      ¬ Served (fs (requestPath target)) := by
  rw [LooksUp, ne_eq, doRequest_fileRequest, doRequest_realFile fs c,
    path_of_target hurl hp hfile]

/-- A reset connection looks up the file of the target, or refuses, exactly
when `m_real_file` has room for the target or no file is served in its place. -/
theorem doRequest_looksUp {c : HttpConn} {p : Nat} {target : List Byte} (hurl : c.url = some p)
    (hp : c.strAt p = target) (hfile : c.realFile = Buffer.zero FILENAME_LEN) :
    LooksUp target (c.doRequest fs) ↔ target.length ≤ FILENAME_LEN - docRoot.length - 1 ∨
      ¬ Served (fs (docRoot ++ target.take (FILENAME_LEN - docRoot.length - 1))) := by
  rw [looksUp_iff fs hurl hp hfile, requestPath_eq_iff, requestPath]

end Path

/-- A reset connection on which this target has been parsed. -/
def requesting (target : List Byte) : HttpConn :=
  { recvBytes target idle.init with url := some 0 }

/-- A file system in which one path names a file for all to read. -/
def onlyFile (path : List Byte) : List Byte → FsAnswer := fun asked =>
  ⟨if asked = path then some ⟨0o100644, 5⟩ else none, true, some 4096⟩

set_option maxRecDepth 100000 in
/-- A short target. -/
theorem doRequest_looksUp_short :
    LooksUp (ascii "/a") ((requesting (ascii "/a")).doRequest (onlyFile [])) := by
  have htarget : (requesting (ascii "/a")).strAt 0 = ascii "/a" := by decide +kernel
  exact (doRequest_looksUp _ rfl htarget rfl).mpr (Or.inl (by decide))

/-- A target of 164 bytes. -/
def longTarget : List Byte := slash :: List.replicate 163 97

set_option maxRecDepth 100000 in
/-- For it the file is served that its first 163 bytes name. -/
theorem not_looksUp_long :
    ¬ ∀ (fs : List Byte → FsAnswer) (c : HttpConn) (p : Nat) (target : List Byte),
      c.url = some p → c.strAt p = target → c.realFile = Buffer.zero FILENAME_LEN →
      LooksUp target (c.doRequest fs) := by
  intro h
  have htarget : (requesting longTarget).strAt 0 = longTarget := by decide +kernel
  have hlooks := h (onlyFile (requestPath longTarget)) _ _ _ rfl htarget rfl
  rw [looksUp_iff _ rfl htarget rfl, requestPath_eq_iff] at hlooks
  rcases hlooks with hroom | hnone
  · revert hroom
    decide +kernel
  · refine hnone ⟨⟨0o100644, 5⟩, ?_, by decide, by decide⟩
    simp [onlyFile]

end HttpConn

end LinuxLearning.Webserver
