/-
Filling the write buffer: `add_response`, the functions built on it, and
`process_write`, with the cases falling through where the source lets them.
-/
import LinuxLearning.Lib.Decimal
import LinuxLearning.Lib.Lines
import LinuxLearning.Webserver.HttpConn

namespace LinuxLearning.Webserver

open Lines CString

def ok200Title : List Byte := ascii "OK"
def error400Title : List Byte := ascii "Bad Request"
def error400Form : List Byte := ascii "Bad syntax"
def error403Title : List Byte := ascii "Forbidden"
def error403Form : List Byte := ascii "Permission Forbidden"
def error500Title : List Byte := ascii "Internal Error"
def error500Form : List Byte := ascii "Server Internal Error"

/-- The page for an empty file. -/
def okString : List Byte := ascii "<html><body></body></html>"

def statusLine (status : Int) (title : List Byte) : List Byte :=
  ascii "HTTP/1.1 " ++ Decimal.format status ++ ascii " " ++ title

def contentLengthLine (contentLen : Int) : List Byte :=
  ascii "Content-Length: " ++ Decimal.format contentLen

def connectionLine (linger : Bool) : List Byte :=
  ascii "Connection: " ++ if linger then ascii "keep-alive" else ascii "close"

namespace HttpConn

/-- `http_conn::add_response`, given the text that the format makes. -/
def addResponse (c : HttpConn) (text : List Byte) : Bool × HttpConn :=
  if c.writeIdx ≥ WRITE_BUFFER_SIZE then (false, c)
  else
    let size := WRITE_BUFFER_SIZE - 1 - c.writeIdx
    let c := { c with writeBuf := snprintf c.writeBuf c.writeIdx size text }
    if text.length ≥ size then (false, c)
    else (true, { c with writeIdx := c.writeIdx + text.length })

/-- `http_conn::add_status_line` -/
def addStatusLine (c : HttpConn) (status : Int) (title : List Byte) : Bool × HttpConn :=
  c.addResponse (statusLine status title ++ [CR, LF])

/-- `http_conn::add_content_length` -/
def addContentLength (c : HttpConn) (contentLen : Int) : Bool × HttpConn :=
  c.addResponse (contentLengthLine contentLen ++ [CR, LF])

/-- `http_conn::add_linger` -/
def addLinger (c : HttpConn) : Bool × HttpConn :=
  c.addResponse (connectionLine c.linger ++ [CR, LF])

/-- `http_conn::add_blank_line` -/
def addBlankLine (c : HttpConn) : Bool × HttpConn :=
  c.addResponse [CR, LF]

/-- `http_conn::add_headers`, which drops the results of its calls and returns
none of its own. -/
def addHeaders (c : HttpConn) (contentLen : Int) : HttpConn :=
  let c := (c.addContentLength contentLen).2
  let c := c.addLinger.2
  c.addBlankLine.2

/-- `http_conn::add_content` -/
def addContent (c : HttpConn) (content : List Byte) : Bool × HttpConn :=
  c.addResponse content

/-- A status line, the headers and a page: the calls most cases of
`process_write` begin with. -/
def addPage (c : HttpConn) (status : Int) (title form : List Byte) : Bool × HttpConn :=
  let c := (c.addStatusLine status title).2
  let c := c.addHeaders form.length
  c.addContent form

/-- The end of `process_write`, behind the switch. -/
def queueText (c : HttpConn) : Bool × HttpConn :=
  (true, { c with iv0 := ⟨.writeBuf, c.writeIdx⟩, ivCount := 1 })

/-- `case FORBIDDEN_REQUEST` -/
def writeForbidden (c : HttpConn) : Bool × HttpConn :=
  let (ok, c) := c.addPage 403 error403Title error403Form
  if !ok then (false, c) else c.queueText

/-- `case NO_RESOURCE`, which has no `break`. -/
def writeNoResource (c : HttpConn) : Bool × HttpConn :=
  let (ok, c) := c.addPage 400 error400Title error400Form
  if !ok then (false, c) else c.writeForbidden

/-- `case FILE_REQUEST` -/
def writeFile (c : HttpConn) : Bool × HttpConn :=
  let c' := (c.addStatusLine 200 ok200Title).2
  if c.fileStat.size ≠ 0 then
    -- `add_headers` takes an `int`
    let c := c'.addHeaders (toInt32 c.fileStat.size)
    (true, { c with
      iv0 := ⟨.writeBuf, c.writeIdx⟩
      iv1 := ⟨.file c.fileAddress, c.fileStat.size⟩
      ivCount := 2 })
  else
    let (ok, c) := (c'.addHeaders okString.length).addContent okString
    if !ok then (false, c) else c.queueText

/-- `http_conn::process_write` -/
def processWrite (c : HttpConn) (ret : HttpCode) : Bool × HttpConn :=
  match ret with
  | .internalError =>
      let (ok, c) := c.addPage 500 error500Title error500Form
      if !ok then (false, c) else c.queueText
  -- the `;` behind the condition ends the `if`
  | .badRequest => (false, (c.addPage 400 error400Title error400Form).2)
  | .noResource => c.writeNoResource
  | .forbiddenRequest => c.writeForbidden
  | .fileRequest => c.writeFile
  | .noRequest | .getRequest | .closedConnection => c.queueText

/-- The write buffer holds `text`. -/
structure Written (c : HttpConn) (text : List Byte) : Prop where
  writeIdx_eq : c.writeIdx = text.length
  hasAt : c.writeBuf.HasAt 0 text
  fits : text.length ≤ WRITE_BUFFER_SIZE

theorem Written.congr {c after : HttpConn} {text : List Byte} (h : c.Written text)
    (hbuf : after.writeBuf = c.writeBuf) (hidx : after.writeIdx = c.writeIdx) :
    after.Written text :=
  ⟨hidx.trans h.writeIdx_eq, hbuf ▸ h.hasAt, h.fits⟩

/-- Nothing but the text of the response differs. -/
def TextOnly (c after : HttpConn) : Prop :=
  after = { c with writeBuf := after.writeBuf, writeIdx := after.writeIdx }

theorem TextOnly.refl (c : HttpConn) : c.TextOnly c := rfl

theorem TextOnly.trans {c mid after : HttpConn} (hfirst : c.TextOnly mid)
    (hsecond : mid.TextOnly after) : c.TextOnly after := by
  unfold TextOnly at hfirst hsecond ⊢
  rw [hfirst] at hsecond
  exact hsecond

theorem addResponse_textOnly (c : HttpConn) (text : List Byte) :
    c.TextOnly (c.addResponse text).2 := by
  unfold addResponse
  split
  · rfl
  · dsimp only
    split <;> rfl

theorem addHeaders_textOnly (c : HttpConn) (contentLen : Int) :
    c.TextOnly (c.addHeaders contentLen) :=
  ((addResponse_textOnly _ _).trans (addResponse_textOnly _ _)).trans
    (addResponse_textOnly _ _)

theorem addPage_textOnly (c : HttpConn) (status : Int) (title form : List Byte) :
    c.TextOnly (c.addPage status title form).2 :=
  ((addResponse_textOnly _ _).trans (addHeaders_textOnly _ _)).trans
    (addResponse_textOnly _ _)

/-- A piece that fits is appended. -/
theorem addResponse_written {c : HttpConn} {text piece : List Byte} (h : c.Written text)
    (hroom : (text ++ piece).length < WRITE_BUFFER_SIZE - 1) :
    (c.addResponse piece).1 = true ∧ (c.addResponse piece).2.Written (text ++ piece) := by
  have hbuffer : WRITE_BUFFER_SIZE = 1024 := rfl
  have hidx := h.writeIdx_eq
  rw [List.length_append] at hroom
  have hin : ¬ c.writeIdx ≥ WRITE_BUFFER_SIZE := by omega
  have hfits : ¬ piece.length ≥ WRITE_BUFFER_SIZE - 1 - c.writeIdx := by omega
  simp only [addResponse, hin, hfits, ↓reduceIte]
  refine ⟨trivial, ?_, ?_, ?_⟩
  · rw [List.length_append, hidx]
  · have hsize : WRITE_BUFFER_SIZE - 1 - c.writeIdx ≠ 0 := by omega
    have htake : piece.take (WRITE_BUFFER_SIZE - 1 - c.writeIdx - 1) = piece :=
      List.take_of_length_le (by omega)
    simp only [snprintf, hsize, ↓reduceIte, htake]
    have hat : 0 + text.length = c.writeIdx := by omega
    have hend : c.writeIdx + (piece ++ [0]).length ≤ WRITE_BUFFER_SIZE := by
      rw [List.length_append, List.length_singleton]
      omega
    have hblit := h.hasAt.blit hat hend
    rw [← List.append_assoc] at hblit
    exact (Buffer.hasAt_append.mp hblit).1
  · rw [List.length_append]
    omega

end HttpConn

/-- The head of a response: status line, two header lines, and the empty
line. -/
def responseHead (linger : Bool) (status : Int) (title : List Byte) (contentLen : Int) :
    List Byte :=
  joinLines [statusLine status title, contentLengthLine contentLen, connectionLine linger, []]

/-- A response whose body is the page `form`. -/
def responsePage (linger : Bool) (status : Int) (title form : List Byte) : List Byte :=
  responseHead linger status title form.length ++ form

namespace HttpConn

/-- Two pieces in a row. -/
theorem Written.step {c : HttpConn} {text piece more : List Byte} (h : c.Written text)
    (hroom : (text ++ (piece ++ more)).length < WRITE_BUFFER_SIZE - 1) :
    (c.addResponse piece).1 = true ∧ (c.addResponse piece).2.Written (text ++ piece) := by
  apply addResponse_written h
  rw [← List.append_assoc, List.length_append] at hroom
  omega

/-- The head of a response is written as a whole when there is room. -/
theorem addHead_written {c : HttpConn} {text : List Byte} (h : c.Written text)
    (status : Int) (title : List Byte) (contentLen : Int)
    (hroom : (text ++ responseHead c.linger status title contentLen).length <
      WRITE_BUFFER_SIZE - 1) :
    ((c.addStatusLine status title).2.addHeaders contentLen).Written
      (text ++ responseHead c.linger status title contentLen) := by
  have hlinger : ((c.addStatusLine status title).2.addContentLength contentLen).2.linger =
      c.linger := by
    have hshape : c.TextOnly ((c.addStatusLine status title).2.addContentLength contentLen).2 :=
      (addResponse_textOnly _ _).trans (addResponse_textOnly _ _)
    rw [hshape]
  have hhead : responseHead c.linger status title contentLen =
      (statusLine status title ++ [CR, LF]) ++ ((contentLengthLine contentLen ++ [CR, LF]) ++
        ((connectionLine c.linger ++ [CR, LF]) ++ [CR, LF])) := by
    simp [responseHead]
  rw [hhead] at hroom ⊢
  have hstatus := (h.step hroom).2
  rw [← List.append_assoc] at hroom ⊢
  have hlength := (hstatus.step hroom).2
  rw [← List.append_assoc] at hroom ⊢
  have hconnection := (hlength.step hroom).2
  rw [← List.append_assoc] at hroom ⊢
  rw [← hlinger] at hconnection hroom ⊢
  exact (addResponse_written hconnection hroom).2

/-- So is a page. -/
theorem addPage_written {c : HttpConn} {text : List Byte} (h : c.Written text)
    (status : Int) (title form : List Byte)
    (hroom : (text ++ responsePage c.linger status title form).length <
      WRITE_BUFFER_SIZE - 1) :
    (c.addPage status title form).1 = true ∧
      (c.addPage status title form).2.Written
        (text ++ responsePage c.linger status title form) := by
  rw [responsePage, ← List.append_assoc] at hroom ⊢
  have hhead := addHead_written h status title form.length (by
    rw [List.length_append] at hroom
    omega)
  exact addResponse_written hhead hroom

/-- What `process_write` returns true for, and what it then has queued. -/
structure Queued (c : HttpConn) (text : List Byte) (file : Option (FileAddress × Nat)) :
    Prop where
  written : c.Written text
  iv0 : c.iv0 = ⟨.writeBuf, text.length⟩
  rest : match file with
    | none => c.ivCount = 1
    | some (address, size) => c.ivCount = 2 ∧ c.iv1 = ⟨.file address, size⟩

theorem queueText_queued {c : HttpConn} {text : List Byte} (h : c.Written text) :
    c.queueText.1 = true ∧ c.queueText.2.Queued text none := by
  refine ⟨rfl, h.congr rfl rfl, ?_, rfl⟩
  rw [← h.writeIdx_eq]
  rfl

theorem TextOnly.linger {c after : HttpConn} (h : c.TextOnly after) :
    after.linger = c.linger := by
  rw [h]

/-- A page that fits is queued by the case that writes it. -/
theorem writeForbidden_queued {c : HttpConn} {text : List Byte} (h : c.Written text)
    (hroom : (text ++ responsePage c.linger 403 error403Title error403Form).length <
      WRITE_BUFFER_SIZE - 1) :
    c.writeForbidden.1 = true ∧ c.writeForbidden.2.Queued
      (text ++ responsePage c.linger 403 error403Title error403Form) none := by
  obtain ⟨hok, hwritten⟩ := addPage_written h _ _ _ hroom
  have hcase : c.writeForbidden = (c.addPage 403 error403Title error403Form).2.queueText := by
    simp [writeForbidden, hok]
  rw [hcase]
  exact queueText_queued hwritten

theorem responsePage_length (linger : Bool) :
    (responsePage linger 500 error500Title error500Form).length ≤ 110 ∧
    (responsePage linger 400 error400Title error400Form).length ≤ 110 ∧
    (responsePage linger 403 error403Title error403Form).length ≤ 110 ∧
    (responsePage linger 200 ok200Title okString).length ≤ 110 := by
  cases linger <;> decide

theorem responseHead_length (linger : Bool) {contentLen : Int} (hlow : -2 ^ 31 ≤ contentLen)
    (hhigh : contentLen < 2 ^ 31) :
    (responseHead linger 200 ok200Title contentLen).length ≤ 110 := by
  have hstatus : (statusLine 200 ok200Title).length = 15 := by decide
  have hlength : (contentLengthLine contentLen).length ≤ 27 := by
    have := Decimal.format_length_le hlow hhigh
    have hname : (ascii "Content-Length: ").length = 16 := by decide
    rw [contentLengthLine, List.length_append, hname]
    omega
  have hconnection : (connectionLine linger).length ≤ 22 := by
    cases linger <;> decide
  simp only [responseHead, joinLines_cons, joinLines_nil, List.length_append,
    List.length_cons, List.length_nil, hstatus]
  omega

/-- INTERNAL_ERROR queues its page. -/
theorem processWrite_internalError {c : HttpConn} (h : c.Written []) :
    (c.processWrite .internalError).1 = true ∧
      (c.processWrite .internalError).2.Queued
        (responsePage c.linger 500 error500Title error500Form) none := by
  have hbuffer : WRITE_BUFFER_SIZE = 1024 := rfl
  have hlen := (responsePage_length c.linger).1
  obtain ⟨hok, hwritten⟩ := addPage_written h 500 error500Title error500Form
    (by rw [List.nil_append]; omega)
  have hcase : c.processWrite .internalError =
      (c.addPage 500 error500Title error500Form).2.queueText := by
    simp [processWrite, hok]
  rw [hcase]
  exact queueText_queued hwritten

/-- FORBIDDEN_REQUEST queues its page. -/
theorem processWrite_forbidden {c : HttpConn} (h : c.Written []) :
    (c.processWrite .forbiddenRequest).1 = true ∧
      (c.processWrite .forbiddenRequest).2.Queued
        (responsePage c.linger 403 error403Title error403Form) none := by
  have hbuffer : WRITE_BUFFER_SIZE = 1024 := rfl
  have hlen := (responsePage_length c.linger).2.2.1
  exact writeForbidden_queued h (by rw [List.nil_append]; omega)

/-- NO_RESOURCE queues the page for 400 and behind it the one for 403. -/
theorem processWrite_noResource {c : HttpConn} (h : c.Written []) :
    (c.processWrite .noResource).1 = true ∧
      (c.processWrite .noResource).2.Queued
        (responsePage c.linger 400 error400Title error400Form ++
          responsePage c.linger 403 error403Title error403Form) none := by
  have hbuffer : WRITE_BUFFER_SIZE = 1024 := rfl
  obtain ⟨-, hlen400, hlen403, -⟩ := responsePage_length c.linger
  obtain ⟨hok, hwritten⟩ := addPage_written h 400 error400Title error400Form
    (by rw [List.nil_append]; omega)
  have hlinger := (addPage_textOnly c 400 error400Title error400Form).linger
  have hcase : c.processWrite .noResource =
      (c.addPage 400 error400Title error400Form).2.writeForbidden := by
    simp [processWrite, writeNoResource, hok]
  rw [hcase, ← hlinger]
  rw [← hlinger] at hwritten
  exact writeForbidden_queued hwritten (by
    rw [hlinger, List.length_append]
    omega)

/-- FILE_REQUEST queues a page for an empty file, and otherwise a head with
the file behind it. -/
theorem processWrite_file {c : HttpConn} (h : c.Written []) :
    (c.processWrite .fileRequest).1 = true ∧
      if c.fileStat.size = 0 then
        (c.processWrite .fileRequest).2.Queued
          (responsePage c.linger 200 ok200Title okString) none
      else
        (c.processWrite .fileRequest).2.Queued
          (responseHead c.linger 200 ok200Title (toInt32 c.fileStat.size))
          (some (c.fileAddress, c.fileStat.size)) := by
  have hbuffer : WRITE_BUFFER_SIZE = 1024 := rfl
  by_cases hsize : c.fileStat.size = 0
  · have hlen := (responsePage_length c.linger).2.2.2
    have hlinger := (addPage_textOnly c 200 ok200Title okString).linger
    obtain ⟨hok, hwritten⟩ := addPage_written h 200 ok200Title okString
      (by rw [List.nil_append]; omega)
    have hcase : c.processWrite .fileRequest =
        (c.addPage 200 ok200Title okString).2.queueText := by
      simp only [addPage] at hok
      simp [processWrite, writeFile, hsize, hok, addPage]
    rw [if_pos hsize, hcase]
    exact queueText_queued hwritten
  · have hlen := responseHead_length c.linger (toInt32_range c.fileStat.size).1
      (toInt32_range c.fileStat.size).2
    have hwritten := addHead_written h 200 ok200Title (toInt32 c.fileStat.size)
      (by rw [List.nil_append]; omega)
    have hshape : c.TextOnly ((c.addStatusLine 200 ok200Title).2.addHeaders
        (toInt32 c.fileStat.size)) :=
      (addResponse_textOnly _ _).trans (addHeaders_textOnly _ _)
    simp only [processWrite, writeFile, hsize, ne_eq, not_false_eq_true, ↓reduceIte]
    refine ⟨trivial, hwritten.congr rfl rfl, ?_, rfl, ?_⟩
    · rw [hwritten.writeIdx_eq, List.nil_append]
    · rw [hshape]

/-- Nothing but the response differs: its text and what is queued of it. -/
def ResponseOnly (c after : HttpConn) : Prop :=
  after = { c with
    writeBuf := after.writeBuf
    writeIdx := after.writeIdx
    iv0 := after.iv0
    iv1 := after.iv1
    ivCount := after.ivCount }

theorem TextOnly.responseOnly {c after : HttpConn} (h : c.TextOnly after) :
    c.ResponseOnly after := by
  unfold TextOnly at h
  rw [h]
  rfl

theorem TextOnly.queueText {c mid : HttpConn} (h : c.TextOnly mid) :
    c.ResponseOnly mid.queueText.2 := by
  unfold TextOnly at h
  rw [h]
  rfl

/-- A page, and what follows when it fits. -/
theorem TextOnly.page {c mid : HttpConn} (h : c.TextOnly mid) (status : Int)
    (title form : List Byte) : c.TextOnly (mid.addPage status title form).2 :=
  h.trans (addPage_textOnly mid status title form)

theorem TextOnly.writeForbidden {c mid : HttpConn} (h : c.TextOnly mid) :
    c.ResponseOnly mid.writeForbidden.2 := by
  have hpage := h.page 403 error403Title error403Form
  unfold HttpConn.writeForbidden
  dsimp only
  split
  · exact hpage.responseOnly
  · exact hpage.queueText

/-- `process_write` changes nothing but the response. -/
theorem processWrite_responseOnly (c : HttpConn) (ret : HttpCode) :
    c.ResponseOnly (c.processWrite ret).2 := by
  cases ret with
  | internalError =>
      have hpage := (TextOnly.refl c).page 500 error500Title error500Form
      simp only [processWrite]
      split
      · exact hpage.responseOnly
      · exact hpage.queueText
  | badRequest =>
      have hpage := (TextOnly.refl c).page 400 error400Title error400Form
      simp only [processWrite]
      exact hpage.responseOnly
  | noResource =>
      have hpage := (TextOnly.refl c).page 400 error400Title error400Form
      simp only [processWrite, writeNoResource]
      split
      · exact hpage.responseOnly
      · exact hpage.writeForbidden
  | forbiddenRequest => exact (TextOnly.refl c).writeForbidden
  | fileRequest =>
      have hhead : ∀ contentLen, c.TextOnly
          ((c.addStatusLine 200 ok200Title).2.addHeaders contentLen) := fun contentLen =>
        (addResponse_textOnly _ _).trans (addHeaders_textOnly _ contentLen)
      have hpage := (TextOnly.refl c).page 200 ok200Title okString
      simp only [processWrite, writeFile]
      split
      · have hshape := hhead (toInt32 c.fileStat.size)
        unfold TextOnly at hshape
        rw [hshape]
        rfl
      · split
        · exact hpage.responseOnly
        · exact hpage.queueText
  | noRequest => exact (TextOnly.refl c).queueText
  | getRequest => exact (TextOnly.refl c).queueText
  | closedConnection => exact (TextOnly.refl c).queueText

/-- The bytes an iovec offers to `writev`; `none` where memory cannot be
read. -/
def iovBytes (mem : Nat → Byte) (c : HttpConn) (iov : Iovec) : List (Option Byte) :=
  match iov.base with
  | .writeBuf => (c.writeBuf.bytes.take iov.len).map some
  | .file (.mapped addr) => (List.range iov.len).map fun i => some (mem (addr + i))
  | .file .null | .file .mapFailed => List.replicate iov.len none

/-- All the bytes `m_iv` offers. -/
def offered (mem : Nat → Byte) (c : HttpConn) : List (Option Byte) :=
  iovBytes mem c c.iv0 ++ if c.ivCount = 2 then iovBytes mem c c.iv1 else []

theorem Queued.offered_text {c : HttpConn} {text : List Byte} (h : c.Queued text none)
    (mem : Nat → Byte) : offered mem c = text.map some := by
  have hcount : c.ivCount = 1 := h.rest
  rw [offered, h.iv0, hcount]
  simp [iovBytes, h.written.hasAt.take h.written.fits]

theorem Queued.offered_file {c : HttpConn} {text : List Byte} {address : FileAddress}
    {size : Nat} (h : c.Queued text (some (address, size))) (mem : Nat → Byte) :
    offered mem c = text.map some ++ iovBytes mem c ⟨.file address, size⟩ := by
  obtain ⟨hcount, hiv1⟩ := h.rest
  rw [offered, h.iv0, hcount, hiv1]
  simp [iovBytes, h.written.hasAt.take h.written.fits]

end HttpConn

end LinuxLearning.Webserver
