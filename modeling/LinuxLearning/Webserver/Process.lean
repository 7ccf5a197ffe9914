/-
`http_conn::process`, the entry point of a worker, and what it answers.  The
expected answer is stated on its own: a response with one status line, a
header block, and a body of the stated length, its status taken from the
request line and the file.
-/
import LinuxLearning.Webserver.Chunks
import LinuxLearning.Webserver.Response

namespace LinuxLearning.Webserver

open Lines CString

namespace HttpConn

/-- `http_conn::process`, together with `m_user_count`. -/
def process (fs : List Byte → FsAnswer) (fellOff : Option HttpCode) (c : HttpConn)
    (userCount : Int) : HttpConn × Int × List SysCall :=
  let (readRet, c, calls) := c.processRead fs fellOff
  if readRet = .noRequest then
    (c, userCount, calls ++ [.modfd c.sockfd .epollin])
  else
    let (writeRet, c) := c.processWrite readRet
    let (c, userCount) := if !writeRet then c.closeConn userCount else (c, userCount)
    (c, userCount, calls ++ [.modfd c.sockfd .epollout])

end HttpConn

/-- The path looked up for a target: `m_real_file` holds 199 bytes. -/
def requestPath (target : List Byte) : List Byte :=
  docRoot ++ target.take (FILENAME_LEN - docRoot.length - 1)

/-- One response: a status line, header lines, the empty line, and a body.
One header states the length of the body. -/
def IsResponse (bytes : List Byte) (status : Nat) : Prop :=
  ∃ title headers body name, IsLine title ∧ (∀ line ∈ headers, IsLine line ∧ line ≠ []) ∧
    bytes = joinLines (statusLine status title :: (headers ++ [[]])) ++ body ∧
    headers.filter (fun line => strncaseEq line (ascii "Content-Length:") 15) = [name] ∧
    fieldValue name 15 = Decimal.digits body.length

/-- The statuses a request may be answered with: 400 for a malformed request
line or a directory, 404, 403 and 200 for a file that does not exist, is not
world-readable, or is served.  A directory that is not world-readable may be
answered with either. -/
def ExpectedStatus (fs : List Byte → FsAnswer) (line : List Byte) (status : Nat) : Prop :=
  ((0 ∈ line ∨ ∀ target version, ¬ RequestLine line target version) → status = 400) ∧
  ∀ target version, 0 ∉ line → RequestLine line target version →
    match (fs (requestPath target)).stat with
    | none => status = 404
    | some st =>
        (st.worldReadable = false ∧ status = 403) ∨ (st.isDir = true ∧ status = 400) ∨
          (st.worldReadable = true ∧ st.isDir = false ∧ status = 200)

/-- What `process` should leave: one response with the right status queued,
and the connection armed for writing. -/
structure Answered (fs : List Byte → FsAnswer) (mem : Nat → Byte) (sockfd : Int)
    (line : List Byte) (out : HttpConn × Int × List SysCall) : Prop where
  response : ∃ bytes status, HttpConn.offered mem out.1 = bytes.map some ∧
    IsResponse bytes status ∧ ExpectedStatus fs line status
  armed : SysCall.modfd sockfd .epollout ∈ out.2.2

/-- A file that is served, or refused with one response: it exists, and when
it may be read, it is no directory, its size fits an `int`, and it is empty or
can be mapped. -/
def Servable (answer : FsAnswer) : Prop :=
  ∃ st, answer.stat = some st ∧
    (st.worldReadable = true → st.isDir = false ∧ st.size < 2 ^ 31 ∧
      (st.size = 0 ∨ ∃ addr, answer.mmap st.size = .mapped addr))

/-- The requests that `process` answers as it should. -/
def Answerable (fs : List Byte → FsAnswer) (line : List Byte) : Prop :=
  0 ∉ line ∧ ∃ target version, RequestLine line target version ∧
    Servable (fs (requestPath target))

theorem cText_eq {line : List Byte} (h : 0 ∉ line) : cText line = line := by
  rw [cText, List.takeWhile_eq_self_iff]
  intro b hb
  have hne : b ≠ 0 := by
    rintro rfl
    exact h hb
  simpa using hne

section Expected

variable {fs : List Byte → FsAnswer} {line target version : List Byte}

/-- For a line the parser takes, the target it takes decides. -/
theorem answerable_iff (h : RequestLine (cText line) target version) :
    Answerable fs line ↔ 0 ∉ line ∧ Servable (fs (requestPath target)) := by
  constructor
  · rintro ⟨hnul, target', version', hline, hservable⟩
    rw [cText_eq hnul] at h
    obtain ⟨rfl, -⟩ := h.unique hline
    exact ⟨hnul, hservable⟩
  · rintro ⟨hnul, hservable⟩
    rw [cText_eq hnul] at h
    exact ⟨hnul, target, version, h, hservable⟩

/-- A status other than 400 that fits the file is expected exactly for lines
without NUL. -/
theorem expectedStatus_iff (h : RequestLine (cText line) target version) {status : Nat}
    (hstatus : status ≠ 400)
    (hfile : match (fs (requestPath target)).stat with
      | none => status = 404
      | some st => (st.worldReadable = false ∧ status = 403) ∨
          (st.isDir = true ∧ status = 400) ∨
          (st.worldReadable = true ∧ st.isDir = false ∧ status = 200)) :
    ExpectedStatus fs line status ↔ 0 ∉ line := by
  constructor
  · rintro ⟨hmalformed, -⟩ hnul
    exact hstatus (hmalformed (Or.inl hnul))
  · intro hnul
    rw [cText_eq hnul] at h
    refine ⟨?_, ?_⟩
    · rintro (hnul' | hnone)
      · exact absurd hnul' hnul
      · exact absurd h (hnone target version)
    · intro target' version' _ hline
      obtain ⟨rfl, -⟩ := h.unique hline
      exact hfile

end Expected

/-- A byte that no numeral contains. -/
theorem notMem_format {x : Int} {b : Byte} (hdigit : isdigit b = false) (hminus : b ≠ 45) :
    b ∉ Decimal.format x := by
  intro hb
  rcases Decimal.mem_format hb with hb | hb
  · rw [hdigit] at hb
    cases hb
  · exact hminus hb

theorem isLine_format (x : Int) : IsLine (Decimal.format x) := by
  intro b hb
  constructor
  · rintro rfl
    exact notMem_format (by decide) (by decide) hb
  · rintro rfl
    exact notMem_format (by decide) (by decide) hb

theorem isLine_statusLine {status : Int} {title : List Byte} (htitle : IsLine title) :
    IsLine (statusLine status title) := by
  have hname : IsLine (ascii "HTTP/1.1 ") := by decide
  have hblank : IsLine (ascii " ") := by decide
  simp only [statusLine, isLine_append]
  exact ⟨⟨⟨hname, isLine_format status⟩, hblank⟩, htitle⟩

theorem statusLine_ne_nil (status : Int) (title : List Byte) : statusLine status title ≠ [] := by
  simp [statusLine, ascii]

/-- A status line says one status. -/
theorem statusLine_injective {status status' : Nat} {title title' : List Byte}
    (h : statusLine status title = statusLine status' title') : status = status' := by
  simp only [statusLine, List.append_assoc, List.append_cancel_left_eq] at h
  have hcut : ∀ (x : Int) (title : List Byte),
      (Decimal.format x ++ (ascii " " ++ title)).takeWhile (· != 32) = Decimal.format x := by
    intro x title
    rw [List.takeWhile_append_of_pos]
    · simp [ascii]
    · intro b hb
      have hne : b ≠ 32 := by
        rintro rfl
        exact notMem_format (by decide) (by decide) hb
      simpa using hne
  have hsame := hcut status title
  rw [h, hcut status' title', Decimal.format_natCast, Decimal.format_natCast] at hsame
  exact (Decimal.digits_injective hsame).symm

/-- The value of the length header is the number it was made from. -/
theorem fieldValue_contentLengthLine (contentLen : Int) :
    fieldValue (contentLengthLine contentLen) 15 = Decimal.format contentLen := by
  have hdrop : (contentLengthLine contentLen).drop 15 = 32 :: Decimal.format contentLen := by
    simp [contentLengthLine, ascii]
  rw [fieldValue, hdrop]
  cases hformat : Decimal.format contentLen with
  | nil => decide
  | cons b rest =>
      have hb : b ∉ blanks := by
        intro hblank
        have hmem : b ∈ Decimal.format contentLen := by simp [hformat]
        have hcases : b = 32 ∨ b = 9 := by simpa [blanks, ascii] using hblank
        rcases hcases with rfl | rfl
        · exact notMem_format (by decide) (by decide) hmem
        · exact notMem_format (by decide) (by decide) hmem
      have h32 : (32 : Byte) ∈ blanks := by decide
      simp [h32, hb]

/-- What is queued behind the head of a response is its body, and the length
stated must be that of the body. -/
theorem isResponse_iff {linger : Bool} {status : Nat} {title : List Byte}
    (htitle : IsLine title) (contentLen : Int) (body : List Byte) (n : Nat) :
    IsResponse (responseHead linger status title contentLen ++ body) n ↔
      n = status ∧ contentLen = body.length := by
  have hlength : strncaseEq (contentLengthLine contentLen) (ascii "Content-Length:") 15 = true :=
    strncaseEq_append (by decide) (by decide) _
  have hconnection :
      strncaseEq (connectionLine linger) (ascii "Content-Length:") 15 = false := by
    cases linger <;> decide
  have hlines : ∀ line ∈ [statusLine status title, contentLengthLine contentLen,
      connectionLine linger], IsLine line ∧ line ≠ [] := by
    simp only [List.forall_mem_cons, List.not_mem_nil, false_implies, implies_true, and_true]
    refine ⟨⟨isLine_statusLine htitle, statusLine_ne_nil _ _⟩, ⟨?_, ?_⟩, ?_⟩
    · have hname : IsLine (ascii "Content-Length: ") := by decide
      rw [contentLengthLine, isLine_append]
      exact ⟨hname, isLine_format contentLen⟩
    · simp [contentLengthLine, ascii]
    · cases linger <;> decide
  have hbytes : responseHead linger status title contentLen ++ body =
      joinLines ([statusLine status title, contentLengthLine contentLen,
        connectionLine linger] ++ [[]]) ++ body := rfl
  constructor
  · rintro ⟨title', headers, body', name, htitle', hheaders, hparts, hname, hvalue⟩
    have hlines' : ∀ line ∈ statusLine n title' :: headers, IsLine line ∧ line ≠ [] := by
      rw [List.forall_mem_cons]
      exact ⟨⟨isLine_statusLine htitle', statusLine_ne_nil _ _⟩, hheaders⟩
    obtain ⟨hsame, rfl⟩ := joinLines_blank_unique hlines hlines' (hbytes.symm.trans hparts)
    obtain ⟨hstatus, rfl⟩ := List.cons.inj hsame
    have hfound : name = contentLengthLine contentLen := by
      simpa [hlength, hconnection] using hname.symm
    rw [hfound, fieldValue_contentLengthLine] at hvalue
    exact ⟨(statusLine_injective hstatus).symm, Decimal.format_eq_digits hvalue⟩
  · rintro ⟨rfl, rfl⟩
    rw [List.forall_mem_cons] at hlines
    refine ⟨title, [contentLengthLine body.length, connectionLine linger], body,
      contentLengthLine body.length, htitle, hlines.2, rfl, ?_, ?_⟩
    · simp [hlength, hconnection]
    · rw [fieldValue_contentLengthLine, Decimal.format_natCast]

namespace HttpConn

/-- The path `do_request` asks for. -/
theorem path_of_target {c : HttpConn} {p : Nat} {target : List Byte}
    (hurl : c.url = some p) (hp : c.strAt p = target)
    (hfile : c.realFile = Buffer.zero FILENAME_LEN) :
    cstr c.buildPath.realFile 0 = requestPath target := by
  have hroot : docRoot.length = 36 := by decide
  have hpath : c.buildPath.realFile = strncpy (strcpy (Buffer.zero FILENAME_LEN) 0 docRoot)
      docRoot.length target (FILENAME_LEN - docRoot.length - 1) := by
    simp only [buildPath, hurl, hp, hfile]
  have hcopied : (0 : Nat) + (docRoot ++ [0]).length ≤ FILENAME_LEN := by
    rw [List.length_append, hroot]
    decide
  rw [hpath, requestPath]
  apply cstr_strncpy
  · exact (Buffer.hasAt_append.mp (Buffer.hasAt_blit _ hcopied)).1
  · decide
  · exact hp ▸ zero_notMem_cstr c.readBuf p
  · rw [hroot]
    decide
  · rw [strcpy, Buffer.get_blit_of_ge _ (Nat.zero_le _), Buffer.get_zero]
    rw [List.length_append, hroot]
    decide

theorem processWrite_sockfd (c : HttpConn) (ret : HttpCode) :
    (c.processWrite ret).2.sockfd = c.sockfd := by
  have h := processWrite_responseOnly c ret
  rw [h]

theorem processWrite_file_kept (c : HttpConn) (ret : HttpCode) :
    (c.processWrite ret).2.fileAddress = c.fileAddress ∧
      (c.processWrite ret).2.fileStat = c.fileStat ∧
      (c.processWrite ret).2.sockfd = c.sockfd := by
  rw [processWrite_responseOnly c ret]
  exact ⟨rfl, rfl, rfl⟩

section Process

variable {fs : List Byte → FsAnswer} {fellOff : Option HttpCode} {c mid : HttpConn}
  {code : HttpCode} {sys : List SysCall} (userCount : Int)

/-- `process` when `process_write` has queued something. -/
theorem process_queued (hread : c.processRead fs fellOff = (code, mid, sys))
    (hcode : code ≠ .noRequest) (hwrite : (mid.processWrite code).1 = true) :
    c.process fs fellOff userCount =
      ((mid.processWrite code).2, userCount, sys ++ [.modfd mid.sockfd .epollout]) := by
  simp [process, hread, hcode, hwrite, processWrite_sockfd]

/-- `process` when `process_write` has failed: the slot is closed, and
`modfd` is called with -1. -/
theorem process_closed (hread : c.processRead fs fellOff = (code, mid, sys))
    (hcode : code ≠ .noRequest) (hwrite : (mid.processWrite code).1 = false)
    (hlive : mid.sockfd ≠ -1) :
    c.process fs fellOff userCount =
      ({ (mid.processWrite code).2 with sockfd := -1 }, userCount - 1,
        sys ++ [.modfd (-1) .epollout]) := by
  simp [process, hread, hcode, hwrite, closeConn, processWrite_sockfd, hlive]

end Process

/-- A reset connection that has received a whole head without a body: what
`do_request` starts from. -/
theorem doRequest_from {c : HttpConn} {request blank : List Byte}
    {headers : List (List Byte)} {body : List Byte} (fellOff : Option HttpCode)
    (h : IsHead request headers blank) (hlength : (fieldsOf headers).contenLength = 0)
    (hfit : (headBytes request headers blank ++ body).length ≤ READ_BUFFER_SIZE) :
    ∃ (mid : HttpConn) (target version : List Byte),
      oneShot fellOff c (headBytes request headers blank ++ body) = (mid, .doRequest) ∧
      RequestLine (cText request) target version ∧
      cstr mid.buildPath.realFile 0 = requestPath target ∧
      mid.output = (recvBytes (headBytes request headers blank ++ body) c.init).output := by
  obtain ⟨mid, htracks, -, hread⟩ := readRequest_head fellOff c h hfit
  rw [if_pos hlength] at hread
  have houtput := readRequest_output fellOff
    (recvBytes (headBytes request headers blank ++ body) c.init)
  rw [hread] at houtput
  obtain ⟨target, version, hline, hurl, -⟩ := htracks.request request rfl
  refine ⟨mid, target, version, hread, hline, ?_, houtput⟩
  have hfile : mid.realFile = Buffer.zero FILENAME_LEN :=
    congrArg Output.realFile houtput
  cases hpointer : mid.url with
  | none =>
      rw [hpointer] at hurl
      exact hurl.elim
  | some p =>
      rw [hpointer] at hurl
      exact path_of_target hpointer hurl.2 hfile

/-- The write buffer is empty when `process_write` is called on a reset
connection. -/
theorem written_of_output {c mid : HttpConn} {s : List Byte}
    (h : mid.output = (recvBytes s c.init).output) : mid.Written [] where
  writeIdx_eq := congrArg Output.writeIdx h
  hasAt := Buffer.hasAt_nil _ 0
  fits := Nat.zero_le _

section Answered

variable {fs : List Byte → FsAnswer} {mem : Nat → Byte} {line : List Byte} {sockfd : Int}
  {out : HttpConn × Int × List SysCall}

/-- A queued response of known parts. -/
theorem answered_iff {linger : Bool} (status : Nat) {title : List Byte}
    (htitle : IsLine title) {contentLen : Int} {body : List Byte}
    (hoffered : offered mem out.1 =
      (responseHead linger status title contentLen ++ body).map some)
    (harmed : SysCall.modfd sockfd .epollout ∈ out.2.2) :
    Answered fs mem sockfd line out ↔
      contentLen = body.length ∧ ExpectedStatus fs line status := by
  constructor
  · rintro ⟨⟨bytes, n, hbytes, hresponse, hexpected⟩, -⟩
    rw [hoffered] at hbytes
    have hsame := List.map_injective_iff.mpr (Option.some_injective Byte) hbytes
    rw [← hsame, isResponse_iff htitle] at hresponse
    obtain ⟨rfl, hlength⟩ := hresponse
    exact ⟨hlength, hexpected⟩
  · rintro ⟨hlength, hexpected⟩
    exact ⟨⟨_, status, hoffered, (isResponse_iff htitle _ _ _).mpr ⟨rfl, hlength⟩, hexpected⟩,
      harmed⟩

/-- A queued page. -/
theorem answered_page {linger : Bool} {status : Nat} {title form : List Byte}
    (htitle : IsLine title)
    (hoffered : offered mem out.1 = (responsePage linger status title form).map some)
    (harmed : SysCall.modfd sockfd .epollout ∈ out.2.2) :
    Answered fs mem sockfd line out ↔ ExpectedStatus fs line status := by
  rw [answered_iff status htitle hoffered harmed]
  exact and_iff_right rfl

end Answered

/-- A request that ends in BAD_REQUEST is not answered. -/
theorem not_answered_bad {fs : List Byte → FsAnswer} {fellOff : Option HttpCode}
    {mem : Nat → Byte} {line : List Byte} {c mid : HttpConn} {sockfd : Int} (userCount : Int)
    (hread : c.processRead fs fellOff = (.badRequest, mid, [])) (hsockfd : mid.sockfd = sockfd)
    (hlive : sockfd ≠ -1) :
    ¬ Answered fs mem sockfd line (c.process fs fellOff userCount) := by
  rintro ⟨-, harmed⟩
  rw [process_closed userCount hread nofun rfl (hsockfd.symm ▸ hlive), List.nil_append,
    List.mem_singleton] at harmed
  injection harmed with hfd
  exact hlive hfd

section DoRequest

variable {fs : List Byte → FsAnswer} {fellOff : Option HttpCode} (mem : Nat → Byte)
  {line target version : List Byte} {c mid : HttpConn} (userCount : Int)
  {sys : List SysCall} {st : FileStat} {sockfd : Int}

theorem mem_modfd_last (sys : List SysCall) (fd : Int) (ev : Interest) :
    SysCall.modfd fd ev ∈ sys ++ [.modfd fd ev] :=
  List.mem_append_right _ List.mem_cons_self

/-- A missing file is answered with two pages, of which the first states the
length of its own form only. -/
theorem not_answered_noResource
    (hread : c.processRead fs fellOff = (.noResource, mid, sys)) (hwritten : mid.Written [])
    (hsockfd : mid.sockfd = sockfd) :
    ¬ Answered fs mem sockfd line (c.process fs fellOff userCount) := by
  subst hsockfd
  obtain ⟨hok, hqueued⟩ := processWrite_noResource hwritten
  have hoffered := hqueued.offered_text mem
  have hpage : (responsePage mid.linger 403 error403Title error403Form).length ≠ 0 := by
    cases mid.linger <;> decide
  rw [responsePage, List.append_assoc] at hoffered
  have hiff : Answered fs mem mid.sockfd line ((mid.processWrite .noResource).2, userCount,
      sys ++ [.modfd mid.sockfd .epollout]) ↔ _ :=
    answered_iff 400 (by decide : IsLine error400Title) hoffered
      (mem_modfd_last sys mid.sockfd .epollout)
  rw [process_queued userCount hread (by decide) hok, hiff]
  rintro ⟨hlength, -⟩
  rw [List.length_append] at hlength
  generalize (responsePage mid.linger 403 error403Title error403Form).length = page
    at hpage hlength
  generalize error400Form.length = form at hlength
  omega

/-- A file that may not be read is answered with 403. -/
theorem answered_forbidden
    (hread : c.processRead fs fellOff = (.forbiddenRequest, mid, sys))
    (hwritten : mid.Written []) (hsockfd : mid.sockfd = sockfd) :
    Answered fs mem sockfd line (c.process fs fellOff userCount) ↔
      ExpectedStatus fs line 403 := by
  subst hsockfd
  obtain ⟨hok, hqueued⟩ := processWrite_forbidden hwritten
  rw [process_queued userCount hread (by decide) hok]
  exact answered_page (by decide : IsLine error403Title) (hqueued.offered_text mem)
    (mem_modfd_last sys mid.sockfd .epollout)

/-- A file is answered with 200 when it is empty, or when it is mapped and its
size can be stated. -/
theorem answered_file {address : FileAddress}
    (hread : c.processRead fs fellOff = (.fileRequest, mid, sys)) (hwritten : mid.Written [])
    (haddress : mid.fileAddress = address) (hsize : mid.fileStat.size = st.size)
    (hsockfd : mid.sockfd = sockfd) :
    Answered fs mem sockfd line (c.process fs fellOff userCount) ↔
      (st.size = 0 ∨ st.size < 2 ^ 31 ∧ ∃ addr, address = .mapped addr) ∧
        ExpectedStatus fs line 200 := by
  subst hsockfd
  obtain ⟨hok, hqueued⟩ := processWrite_file hwritten
  rw [process_queued userCount hread (by decide) hok]
  rw [hsize, haddress] at hqueued
  by_cases hempty : st.size = 0
  · rw [if_pos hempty] at hqueued
    rw [and_iff_right (Or.inl hempty)]
    exact answered_page (by decide : IsLine ok200Title) (hqueued.offered_text mem)
      (mem_modfd_last sys mid.sockfd .epollout)
  · rw [if_neg hempty] at hqueued
    have hoffered := hqueued.offered_file mem
    have hunreadable : (∀ addr, address ≠ .mapped addr) →
        iovBytes mem (mid.processWrite .fileRequest).2 ⟨.file address, st.size⟩ =
          List.replicate st.size none := by
      intro hnone
      cases address with
      | null => rfl
      | mapFailed => rfl
      | mapped addr => exact absurd rfl (hnone addr)
    by_cases hmapped : ∃ addr, address = .mapped addr
    · obtain ⟨addr, rfl⟩ := hmapped
      have hbody : iovBytes mem (mid.processWrite .fileRequest).2
          ⟨.file (.mapped addr), st.size⟩ =
            ((List.range st.size).map fun i => mem (addr + i)).map some := by
        simp [iovBytes]
      rw [hbody, ← List.map_append] at hoffered
      rw [answered_iff 200 (by decide : IsLine ok200Title) hoffered
        (mem_modfd_last sys mid.sockfd .epollout)]
      rw [List.length_map, List.length_range]
      simp [toInt32_size, hempty]
    · rw [hunreadable fun addr haddr => hmapped ⟨addr, haddr⟩] at hoffered
      constructor
      · rintro ⟨⟨bytes, n, hbytes, -⟩, -⟩
        exfalso
        have hnone : (none : Option Byte) ∈ bytes.map some := by
          rw [← hbytes, hoffered, List.mem_append, List.mem_replicate]
          exact Or.inr ⟨hempty, rfl⟩
        simp at hnone
      · rintro ⟨hserved, -⟩
        rcases hserved with hzero | ⟨-, hmap⟩
        · exact absurd hzero hempty
        · exact absurd hmap hmapped

/-- What `do_request` finds decides how the request is answered. -/
theorem answered_doRequest (hread : c.processRead fs fellOff = mid.doRequest fs)
    (hline : RequestLine (cText line) target version)
    (hpath : cstr mid.buildPath.realFile 0 = requestPath target)
    (hwritten : mid.Written []) (hsockfd : mid.sockfd = sockfd) (hlive : sockfd ≠ -1) :
    Answered fs mem sockfd line (c.process fs fellOff userCount) ↔
      Answerable fs line := by
  rw [answerable_iff hline]
  have hanswer : fs (cstr mid.buildPath.realFile 0) = fs (requestPath target) := by rw [hpath]
  cases hstat : (fs (requestPath target)).stat with
  | none =>
      rw [doRequest_noResource hanswer hstat] at hread
      refine ⟨fun hanswered => absurd hanswered
        (not_answered_noResource mem userCount hread (hwritten.congr rfl rfl) hsockfd), ?_⟩
      rintro ⟨-, st, hst, -⟩
      rw [hstat] at hst
      cases hst
  | some st =>
      cases hworld : st.worldReadable with
      | false =>
          rw [doRequest_forbidden hanswer hstat hworld] at hread
          have hservable : Servable (fs (requestPath target)) :=
            ⟨st, hstat, fun hreadable => by rw [hworld] at hreadable; cases hreadable⟩
          rw [and_iff_left hservable]
          exact (answered_forbidden mem userCount hread (hwritten.congr rfl rfl) hsockfd).trans
            (expectedStatus_iff hline (by decide) (by
              rw [hstat]
              exact Or.inl ⟨hworld, rfl⟩))
      | true =>
          cases hdir : st.isDir with
          | true =>
              rw [doRequest_directory hanswer hstat hworld hdir] at hread
              refine ⟨fun hanswered => absurd hanswered
                (not_answered_bad userCount hread hsockfd hlive), ?_⟩
              rintro ⟨-, st', hst', hservable⟩
              rw [hstat] at hst'
              cases hst'
              have := (hservable hworld).1
              rw [hdir] at this
              cases this
          | false =>
              rw [doRequest_file hanswer hstat hworld hdir] at hread
              have hservable : Servable (fs (requestPath target)) ↔
                  (st.size = 0 ∨ st.size < 2 ^ 31 ∧
                    ∃ addr, (fs (requestPath target)).mmap st.size = .mapped addr) := by
                constructor
                · rintro ⟨st', hst', hserved⟩
                  rw [hstat] at hst'
                  cases hst'
                  obtain ⟨-, hsize, hmapped⟩ := hserved hworld
                  exact hmapped.imp_right fun haddr => ⟨hsize, haddr⟩
                · intro hserved
                  refine ⟨st, hstat, fun _ => ⟨hdir, ?_, hserved.imp_right And.right⟩⟩
                  rcases hserved with hzero | ⟨hsize, -⟩
                  · rw [hzero]
                    decide
                  · exact hsize
              rw [hservable, and_comm, ← expectedStatus_iff hline (by decide : 200 ≠ 400)
                (by rw [hstat]; exact Or.inr (Or.inr ⟨hworld, hdir, rfl⟩))]
              exact answered_file mem userCount hread (hwritten.congr rfl rfl) rfl rfl hsockfd

end DoRequest

/-- `process` answers a decided request as it should exactly when the request
is answerable. -/
theorem process_answers (fs : List Byte → FsAnswer) (fellOff : Option HttpCode)
    (mem : Nat → Byte) (c : HttpConn) (userCount : Int) (hlive : c.sockfd ≠ -1)
    {line rest : List Byte} (hline : IsLine line)
    (hfit : (line ++ CR :: LF :: rest).length ≤ READ_BUFFER_SIZE)
    (hno : NoContentLength (line ++ CR :: LF :: rest))
    (hdecided : ((recvBytes (line ++ CR :: LF :: rest) c.init).processRead fs fellOff).1 ≠
      .noRequest) :
    Answered fs mem c.sockfd line
        ((recvBytes (line ++ CR :: LF :: rest) c.init).process fs fellOff userCount) ↔
      Answerable fs line := by
  generalize hs : line ++ CR :: LF :: rest = s at hfit hno hdecided ⊢
  rcases head_cases s with ⟨lines, tail, hstart, hopen, rfl⟩ | ⟨first, tail, hfirst, hnone, rfl⟩ |
    ⟨request, headers, blank, body, hhead, rfl⟩
  · obtain ⟨mid, stop, hread, -⟩ := readRequest_start fellOff c hstart hopen hfit
    exfalso
    apply hdecided
    rw [processRead_noRequest_iff, hread]
  · obtain ⟨rfl, -⟩ := first_line_unique hline hfirst hs
    obtain ⟨mid, hread, -⟩ := readRequest_bad fellOff c hfirst hnone hfit
    have houtput := readRequest_output fellOff (recvBytes (line ++ CR :: LF :: tail) c.init)
    rw [hread] at houtput
    have hprocess : (recvBytes (line ++ CR :: LF :: tail) c.init).processRead fs fellOff =
        (.badRequest, mid, []) := by
      rw [processRead, hread]
      rfl
    have hsockfd : mid.sockfd = c.sockfd := congrArg Output.sockfd houtput
    refine ⟨fun hanswered => absurd hanswered
      (not_answered_bad userCount hprocess hsockfd hlive), ?_⟩
    rintro ⟨hnul, target, version, hrequest, -⟩
    rw [← cText_eq hnul] at hrequest
    exact absurd hrequest (hnone target version)
  · have hfirst : headBytes request headers blank ++ body =
        request ++ CR :: LF :: (joinLines (headers ++ [blank]) ++ body) := by
      simp [headBytes]
    obtain ⟨rfl, -⟩ := first_line_unique hline (hhead.isLine request List.mem_cons_self)
      (hs.trans hfirst)
    obtain ⟨mid, target, version, hread, hrequest, hpath, houtput⟩ :=
      doRequest_from fellOff hhead hno.fieldsOf hfit
    have hprocess : (recvBytes (headBytes line headers blank ++ body) c.init).processRead
        fs fellOff = mid.doRequest fs := by
      change answerRequest fs (oneShot fellOff c _) = _
      rw [hread]
      rfl
    exact answered_doRequest mem userCount hprocess hrequest hpath
      (written_of_output houtput) (congrArg Output.sockfd houtput) hlive

/-- `GET / HTTP/1.1` and the empty line. -/
theorem root_isHead : IsHead rootRequest [] [] where
  isLine := by decide
  request := ⟨_, _, rootRequest_line⟩
  headers := nofun
  blank := rfl

theorem root_bytes : headBytes rootRequest [] [] ++ [] = rootRequest ++ CR :: LF :: [CR, LF] := by
  simp [headBytes]

theorem root_fits : (rootRequest ++ CR :: LF :: [CR, LF]).length ≤ READ_BUFFER_SIZE := by
  have hlen : (rootRequest ++ CR :: LF :: [CR, LF]).length = 18 := by decide
  rw [hlen]
  decide

/-- That request leads to `do_request`, in a slot with descriptor 5. -/
theorem root_processRead (fs : List Byte → FsAnswer) :
    ∃ mid : HttpConn, mid.Written [] ∧ mid.sockfd = 5 ∧
      cstr mid.buildPath.realFile 0 = requestPath (ascii "/") ∧
      (recvBytes (rootRequest ++ CR :: LF :: [CR, LF]) (idle.initConn 5 0).1).processRead
        fs none = mid.doRequest fs := by
  have hfit := root_fits
  rw [← root_bytes] at hfit ⊢
  obtain ⟨mid, target, version, hread, hrequest, hpath, houtput⟩ :=
    doRequest_from none root_isHead rfl hfit (c := { idle with sockfd := 5 })
  have htext : cText rootRequest = rootRequest := by decide
  rw [htext] at hrequest
  obtain ⟨rfl, -⟩ := hrequest.unique rootRequest_line
  refine ⟨mid, written_of_output houtput, congrArg Output.sockfd houtput, hpath, ?_⟩
  change answerRequest fs (oneShot none { idle with sockfd := 5 } _) = _
  rw [hread]
  rfl

theorem process_answers_root :
    Answered (fun _ => ⟨some ⟨0o100644, 0⟩, true, none⟩) (fun _ => 0) 5 rootRequest
        ((recvBytes (rootRequest ++ CR :: LF :: [CR, LF]) (idle.initConn 5 0).1).process
          (fun _ => ⟨some ⟨0o100644, 0⟩, true, none⟩) none 1) ↔
      Answerable (fun _ => ⟨some ⟨0o100644, 0⟩, true, none⟩) rootRequest := by
  have hdecided : ((recvBytes (rootRequest ++ CR :: LF :: [CR, LF])
      (idle.initConn 5 0).1).processRead (fun _ => ⟨some ⟨0o100644, 0⟩, true, none⟩) none).1 ≠
        .noRequest := by
    obtain ⟨mid, -, -, -, hread⟩ :=
      root_processRead (fun _ => ⟨some ⟨0o100644, 0⟩, true, none⟩)
    rw [hread]
    exact doRequest_ne_noRequest _ _
  exact process_answers _ none _ { idle with sockfd := 5 } 1 (by decide) (by decide) root_fits
    (by decide) hdecided

/-- A request for a file that does not exist is not answered as it should. -/
theorem process_missing_file :
    ¬ ∀ (fs : List Byte → FsAnswer) (mem : Nat → Byte) (line rest : List Byte), IsLine line →
      (line ++ CR :: LF :: rest).length ≤ READ_BUFFER_SIZE →
      NoContentLength (line ++ CR :: LF :: rest) →
      ((recvBytes (line ++ CR :: LF :: rest) (idle.initConn 5 0).1).processRead fs none).1 ≠
        .noRequest →
      Answered fs mem 5 line
        ((recvBytes (line ++ CR :: LF :: rest) (idle.initConn 5 0).1).process fs none 1) := by
  intro hall
  obtain ⟨mid, hwritten, hsockfd, hpath, hread⟩ :=
    root_processRead fun _ => ⟨none, false, none⟩
  have hanswered := hall (fun _ => ⟨none, false, none⟩) (fun _ => 0) rootRequest [CR, LF]
    (by decide) root_fits (by decide) (by rw [hread]; exact doRequest_ne_noRequest _ _)
  rw [doRequest_noResource rfl rfl] at hread
  exact not_answered_noResource _ 1 hread (hwritten.congr rfl rfl) hsockfd hanswered

end HttpConn

end LinuxLearning.Webserver
