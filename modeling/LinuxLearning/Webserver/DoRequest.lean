/-
`http_conn::do_request`: the path of the requested file, what the file system
says about it, and the mapping of its contents.  With it `process_read` is
complete.
-/
import LinuxLearning.Webserver.ProcessRead

namespace LinuxLearning.Webserver

open CString

def docRoot : List Byte := ascii "/home/ouyangyiqi/Learning/Linux/html"

/-- What the system answers about one path: the result of `stat` (`none` when
it fails), whether `open` gives a descriptor, and the address `mmap` returns
for it (`none` when it fails). -/
structure FsAnswer where
  stat : Option FileStat
  opens : Bool
  mapped : Option Nat

/-- `mmap(NULL, len, PROT_READ, MAP_PRIVATE, fd, 0)`: it fails for a length of
zero and for a descriptor that is not open. -/
def FsAnswer.mmap (answer : FsAnswer) (len : Nat) : FileAddress :=
  if len = 0 ∨ answer.opens = false then .mapFailed
  else match answer.mapped with
    | some addr => .mapped addr
    | none => .mapFailed

theorem FsAnswer.mmap_ne_null (answer : FsAnswer) (len : Nat) : answer.mmap len ≠ .null := by
  unfold FsAnswer.mmap
  split
  · exact nofun
  · split <;> exact nofun

/-- The call that made a mapping, if there is one. -/
def FileAddress.mmapCall (address : FileAddress) (len : Nat) : List SysCall :=
  match address with
  | .mapped addr => [.mmap addr len]
  | .null | .mapFailed => []

namespace HttpConn

/-- `m_real_file` after the `strcpy` and the `strncpy`. -/
def buildPath (c : HttpConn) : HttpConn :=
  let url := match c.url with
    | some p => c.strAt p
    | none => []
  { c with
    realFile := strncpy (strcpy c.realFile 0 docRoot) docRoot.length url
      (FILENAME_LEN - docRoot.length - 1) }

/-- A successful `stat(m_real_file, &m_file_stat)`. -/
def setStat (c : HttpConn) (st : FileStat) : HttpConn := { c with fileStat := st }

/-- `m_file_address = address` -/
def setAddress (c : HttpConn) (address : FileAddress) : HttpConn :=
  { c with fileAddress := address }

/-- `http_conn::do_request` -/
def doRequest (fs : List Byte → FsAnswer) (c : HttpConn) :
    HttpCode × HttpConn × List SysCall :=
  let c := c.buildPath
  let answer := fs (cstr c.realFile 0)
  match answer.stat with
  | none => (.noResource, c, [])
  | some st =>
      let c := c.setStat st
      if !st.worldReadable then (.forbiddenRequest, c, [])
      else if st.isDir then (.badRequest, c, [])
      else
        let address := answer.mmap st.size
        (.fileRequest, c.setAddress address, address.mmapCall st.size)

/-- What `process_read` returns once its loop has ended. -/
def answerRequest (fs : List Byte → FsAnswer) :
    HttpConn × ReadResult → HttpCode × HttpConn × List SysCall
  | (c, .code ret) => (ret, c, [])
  | (c, .doRequest) => c.doRequest fs

/-- `http_conn::process_read` -/
def processRead (fs : List Byte → FsAnswer) (fellOff : Option HttpCode) (c : HttpConn) :
    HttpCode × HttpConn × List SysCall :=
  answerRequest fs (c.readRequest fellOff)

/-- What the system answers about the file, when the request read from the
buffer gets `process_read` as far as its `open`. -/
def fileAnswer (fs : List Byte → FsAnswer) (fellOff : Option HttpCode) (c : HttpConn) :
    Option FsAnswer :=
  match c.readRequest fellOff with
  | (_, .code _) => none
  | (c, .doRequest) =>
      let answer := fs (cstr c.buildPath.realFile 0)
      match answer.stat with
      | none => none
      | some st => if st.worldReadable && !st.isDir then some answer else none

section Cases

variable {fs : List Byte → FsAnswer} {c : HttpConn} {answer : FsAnswer} {st : FileStat}

theorem doRequest_noResource (hanswer : fs (cstr c.buildPath.realFile 0) = answer)
    (hstat : answer.stat = none) : c.doRequest fs = (.noResource, c.buildPath, []) := by
  simp only [doRequest, hanswer, hstat]

theorem doRequest_forbidden (hanswer : fs (cstr c.buildPath.realFile 0) = answer)
    (hstat : answer.stat = some st) (hread : st.worldReadable = false) :
    c.doRequest fs = (.forbiddenRequest, c.buildPath.setStat st, []) := by
  simp only [doRequest, hanswer, hstat, hread, Bool.not_false, ↓reduceIte]

theorem doRequest_directory (hanswer : fs (cstr c.buildPath.realFile 0) = answer)
    (hstat : answer.stat = some st) (hread : st.worldReadable = true)
    (hdir : st.isDir = true) :
    c.doRequest fs = (.badRequest, c.buildPath.setStat st, []) := by
  simp only [doRequest, hanswer, hstat, hread, hdir, Bool.not_true, Bool.false_eq_true,
    ↓reduceIte]

theorem doRequest_file (hanswer : fs (cstr c.buildPath.realFile 0) = answer)
    (hstat : answer.stat = some st) (hread : st.worldReadable = true)
    (hdir : st.isDir = false) :
    c.doRequest fs = (.fileRequest, (c.buildPath.setStat st).setAddress (answer.mmap st.size),
      (answer.mmap st.size).mmapCall st.size) := by
  simp only [doRequest, hanswer, hstat, hread, hdir, Bool.not_true, Bool.false_eq_true,
    ↓reduceIte]

end Cases

/-- It is what the file system answers about some path. -/
theorem fileAnswer_path {fs : List Byte → FsAnswer} {fellOff : Option HttpCode} {c : HttpConn}
    {answer : FsAnswer} (h : c.fileAnswer fs fellOff = some answer) : ∃ path, fs path = answer := by
  unfold fileAnswer at h
  split at h
  · cases h
  · dsimp only at h
    split at h
    · cases h
    · obtain ⟨-, hanswer⟩ := Option.ite_none_right_eq_some.mp h
      exact ⟨_, Option.some.inj hanswer⟩

theorem doRequest_ne_noRequest (fs : List Byte → FsAnswer) (c : HttpConn) :
    (c.doRequest fs).1 ≠ .noRequest := by
  unfold doRequest
  dsimp only
  split
  · exact nofun
  · split
    · exact nofun
    · split <;> exact nofun

theorem doRequest_realFile (fs : List Byte → FsAnswer) (c : HttpConn) :
    (c.doRequest fs).2.1.realFile = c.buildPath.realFile := by
  unfold doRequest
  dsimp only
  split
  · rfl
  · split
    · rfl
    · split <;> rfl

/-- `do_request` changes nothing but the file's path, status and address. -/
theorem doRequest_shape (fs : List Byte → FsAnswer) (c : HttpConn) :
    (c.doRequest fs).2.1 = { c with
      realFile := (c.doRequest fs).2.1.realFile
      fileStat := (c.doRequest fs).2.1.fileStat
      fileAddress := (c.doRequest fs).2.1.fileAddress } := by
  unfold doRequest
  dsimp only
  split
  · rfl
  · split
    · rfl
    · split <;> rfl

/-- `process_read` returns NO_REQUEST when its loop does. -/
theorem processRead_noRequest_iff (fs : List Byte → FsAnswer) (fellOff : Option HttpCode)
    (c : HttpConn) :
    (c.processRead fs fellOff).1 = .noRequest ↔
      (c.readRequest fellOff).2 = .code .noRequest := by
  unfold processRead
  cases hread : c.readRequest fellOff with
  | mk after result =>
      cases result with
      | code ret => simp [answerRequest]
      | doRequest => simp [answerRequest, doRequest_ne_noRequest]

/-- Bytes received behind the strings of the request do not change what is
done with it. -/
theorem doRequest_recv (fs : List Byte → FsAnswer) {c : HttpConn} (more : List Byte)
    (hurl : ∀ p ∈ c.url, ∃ e, c.Closed p e) :
    (recvBytes more c).doRequest fs =
      ((c.doRequest fs).1, recvBytes more (c.doRequest fs).2.1, (c.doRequest fs).2.2) := by
  have hpath : (recvBytes more c).buildPath = recvBytes more c.buildPath := by
    unfold buildPath
    have hsame : (recvBytes more c).url = c.url := rfl
    rw [hsame]
    cases hp : c.url with
    | none => rfl
    | some p =>
        obtain ⟨e, hclosed⟩ := hurl p hp
        simp only [strAt_recv more hclosed]
        rfl
  unfold doRequest
  dsimp only
  rw [hpath]
  have hfile : (recvBytes more c.buildPath).realFile = c.buildPath.realFile := rfl
  rw [hfile]
  cases (fs (cstr c.buildPath.realFile 0)).stat with
  | none => rfl
  | some st =>
      dsimp only
      split
      · rfl
      · split <;> rfl

end HttpConn

end LinuxLearning.Webserver
