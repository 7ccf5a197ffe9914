/-
What a slot of `users` holds from before its connection: `http_conn` has no
constructor, and `init` sets neither the mapping of a file nor the iovecs.
Slots that differ in no more than these go through a request alike.
-/
import LinuxLearning.Webserver.Phases

namespace LinuxLearning.Webserver

open CString Lines

/-- The fields of `http_conn` that `init_conn` leaves as they are. -/
structure Leftover where
  fileAddress : FileAddress
  fileStat : FileStat
  iv0 : Iovec
  iv1 : Iovec
  ivCount : Nat

namespace HttpConn

/-- The slot with other values in these fields. -/
def withLeftover (c : HttpConn) (l : Leftover) : HttpConn :=
  { c with
    fileAddress := l.fileAddress
    fileStat := l.fileStat
    iv0 := l.iv0
    iv1 := l.iv1
    ivCount := l.ivCount }

section Parser

/-! The parser and `add_response` neither read nor set them. -/

variable (c : HttpConn) (l : Leftover)

@[simp] theorem withLeftover_readBuf : (c.withLeftover l).readBuf = c.readBuf := rfl

@[simp] theorem withLeftover_readIdx : (c.withLeftover l).readIdx = c.readIdx := rfl

@[simp] theorem withLeftover_checkedIdx : (c.withLeftover l).checkedIdx = c.checkedIdx := rfl

@[simp] theorem withLeftover_contenLength :
    (c.withLeftover l).contenLength = c.contenLength := rfl

@[simp] theorem withLeftover_writeIdx : (c.withLeftover l).writeIdx = c.writeIdx := rfl

@[simp] theorem withLeftover_strAt (p : Nat) : (c.withLeftover l).strAt p = c.strAt p := rfl

theorem setVersion_withLeftover (p : Option Nat) :
    (c.withLeftover l).setVersion p = (c.setVersion p).withLeftover l := rfl

theorem parseLineLoop_withLeftover (left : Nat) :
    parseLineLoop left (c.withLeftover l) =
      ((parseLineLoop left c).1, (parseLineLoop left c).2.withLeftover l) := by
  induction left generalizing c with
  | zero => rfl
  | succ left ih =>
      have hne : LF ≠ CR := by decide
      by_cases hcr : c.readBuf.get c.checkedIdx = CR
      · by_cases hend : c.checkedIdx + 1 = c.readIdx
        · simp [parseLineLoop, hcr, hend]
        · by_cases hlf : c.readBuf.get (c.checkedIdx + 1) = LF
          · simp only [parseLineLoop, withLeftover_readBuf, withLeftover_readIdx,
              withLeftover_checkedIdx, hcr, hend, hlf, ↓reduceIte]
            rfl
          · simp [parseLineLoop, hcr, hend, hlf]
      · by_cases hlf : c.readBuf.get c.checkedIdx = LF
        · by_cases hback : c.checkedIdx > 1 ∧ c.readBuf.get (c.checkedIdx - 1) = CR
          · simp only [parseLineLoop, withLeftover_readBuf, withLeftover_checkedIdx, hlf, hne,
              hback, and_self, ↓reduceIte]
            rfl
          · simp [parseLineLoop, hlf, hne, hback]
        · have hnext := ih (c.moveTo (c.checkedIdx + 1))
          simp only [parseLineLoop, withLeftover_readBuf, withLeftover_checkedIdx, hcr, hlf,
            ↓reduceIte]
          exact hnext

theorem parseLine_withLeftover :
    parseLine (c.withLeftover l) = ((parseLine c).1, (parseLine c).2.withLeftover l) :=
  parseLineLoop_withLeftover c l _

theorem checkUrl_withLeftover (url : Nat) :
    (c.withLeftover l).checkUrl url =
      ((c.checkUrl url).1, (c.checkUrl url).2.withLeftover l) := by
  have hstrip : (c.withLeftover l).stripHost url = c.stripHost url := rfl
  simp only [checkUrl, hstrip, withLeftover_readBuf]
  cases c.stripHost url with
  | none => rfl
  | some p =>
      by_cases hslash : c.readBuf.get p = slash
      · simp only [hslash, ↓reduceIte]
        rfl
      · simp only [hslash, ↓reduceIte]
        rfl

theorem parseVersion_withLeftover (url : Nat) :
    (c.withLeftover l).parseVersion url =
      ((c.parseVersion url).1, (c.parseVersion url).2.withLeftover l) := by
  simp only [parseVersion, withLeftover_readBuf]
  cases strpbrk c.readBuf url blanks with
  | none => rfl
  | some v =>
      have hstore : (c.withLeftover l).store v 0 = (c.store v 0).withLeftover l := rfl
      dsimp only
      rw [hstore, withLeftover_readBuf, setVersion_withLeftover, withLeftover_strAt]
      split
      · exact checkUrl_withLeftover _ l url
      · rfl

theorem parseRequestLine_withLeftover (text : Nat) :
    (c.withLeftover l).parseRequestLine text =
      ((c.parseRequestLine text).1, (c.parseRequestLine text).2.withLeftover l) := by
  simp only [parseRequestLine, withLeftover_readBuf]
  cases strpbrk c.readBuf text blanks with
  | none => rfl
  | some u =>
      have hstore : ((c.withLeftover l).store u 0).setUrl (u + 1 : Nat) =
          ((c.store u 0).setUrl (u + 1 : Nat)).withLeftover l := rfl
      dsimp only
      rw [hstore, withLeftover_strAt]
      generalize (c.store u 0).setUrl (u + 1 : Nat) = mid
      split
      · exact parseVersion_withLeftover ((mid.setMethod .get).setUrl _) l _
      · rfl

theorem parseHeaders_withLeftover (text : Nat) :
    (c.withLeftover l).parseHeaders text =
      ((c.parseHeaders text).1, (c.parseHeaders text).2.withLeftover l) := by
  by_cases hblank : c.readBuf.get text = 0
  · by_cases hbody : c.contenLength = 0
    · simp [parseHeaders, hblank, hbody]
    · simp only [parseHeaders, withLeftover_readBuf, withLeftover_contenLength, hblank, hbody,
        ne_eq, not_false_eq_true, ↓reduceIte]
      rfl
  simp only [parseHeaders, withLeftover_readBuf, withLeftover_strAt, hblank, ↓reduceIte]
  by_cases hproxy : strncaseEq (c.strAt text) (ascii "Proxy-Connection:") 17 = true
  · by_cases hkeep : strcaseEq (c.strAt (text + 17 + strspn c.readBuf (text + 17) blanks))
        (ascii "keep-alive") = true
    · simp only [hproxy, hkeep, ↓reduceIte]
    · simp only [hproxy, hkeep, Bool.false_eq_true, ↓reduceIte]
      rfl
  simp only [hproxy, Bool.false_eq_true, ↓reduceIte]
  by_cases hcontent : strncaseEq (c.strAt text) (ascii "Content-Length:") 15 = true
  · simp only [hcontent, ↓reduceIte]
    rfl
  simp only [hcontent, Bool.false_eq_true, ↓reduceIte]
  by_cases hhost : strncaseEq (c.strAt text) (ascii "Host:") 5 = true
  · simp only [hhost, ↓reduceIte]
    rfl
  · simp only [hhost, Bool.false_eq_true, ↓reduceIte]

theorem parseContent_withLeftover (text : Nat) :
    (c.withLeftover l).parseContent text =
      ((c.parseContent text).1, (c.parseContent text).2.withLeftover l) := by
  by_cases hbody : toInt32 (c.contenLength + c.checkedIdx) ≤ c.readIdx
  · simp only [parseContent, withLeftover_readIdx, withLeftover_checkedIdx,
      withLeftover_contenLength, hbody, ↓reduceIte]
    rfl
  · simp only [parseContent, withLeftover_readIdx, withLeftover_checkedIdx,
      withLeftover_contenLength, hbody, ↓reduceIte]

end Parser

end HttpConn

/-- The turn of a slot with other values there. -/
def PassResult.withLeftover (l : Leftover) : PassResult → PassResult
  | .again c => .again (c.withLeftover l)
  | .done c result => .done (c.withLeftover l) result

namespace HttpConn

section Loop

variable (fellOff : Option HttpCode) (c : HttpConn) (l : Leftover)

theorem handleLine_withLeftover :
    handleLine fellOff (c.withLeftover l) = (handleLine fellOff c).withLeftover l := by
  have hmark : (c.withLeftover l).markLine = c.markLine.withLeftover l := rfl
  have hstart : (c.withLeftover l).startLine = c.startLine := rfl
  cases hstate : c.checkState with
  | requestLine =>
      rw [handleLine_requestLine hstate, handleLine_requestLine (c := c.withLeftover l) hstate,
        hmark, hstart, parseRequestLine_withLeftover]
      dsimp only
      split <;> rfl
  | header =>
      rw [handleLine_header hstate, handleLine_header (c := c.withLeftover l) hstate,
        hmark, hstart, parseHeaders_withLeftover]
      dsimp only
      split
      · rfl
      · split <;> rfl
  | content =>
      rw [handleLine_content hstate, handleLine_content (c := c.withLeftover l) hstate,
        hmark, hstart, parseContent_withLeftover]
      dsimp only
      split <;> rfl

theorem pass_withLeftover :
    pass fellOff (c.withLeftover l) = (pass fellOff c).withLeftover l := by
  by_cases hcontent : c.checkState = .content
  · have hpass : pass fellOff (c.withLeftover l) = handleLine fellOff (c.withLeftover l) :=
      if_pos hcontent
    rw [hpass, handleLine_withLeftover, pass, if_pos hcontent]
  · rw [pass_of_scanning fellOff hcontent,
      pass_of_scanning (c := c.withLeftover l) fellOff hcontent, parseLine_withLeftover]
    cases parseLine c with
    | mk status mid =>
        cases status with
        | lineOk => exact handleLine_withLeftover fellOff mid l
        | lineBad => rfl
        | lineOpen => rfl

theorem readRequest_withLeftover :
    readRequest fellOff (c.withLeftover l) =
      ((readRequest fellOff c).1.withLeftover l, (readRequest fellOff c).2) := by
  induction c using readRequest_induction fellOff with
  | hturn c ih =>
      have hpass := pass_withLeftover fellOff c l
      cases hturn : pass fellOff c with
      | again after =>
          rw [hturn] at hpass
          rw [readRequest_again hturn, readRequest_again hpass]
          exact ih after hturn
      | done after result =>
          rw [hturn] at hpass
          rw [readRequest_done hturn, readRequest_done hpass]

end Loop

section Response

variable (c : HttpConn) (l : Leftover)

theorem addResponse_withLeftover (text : List Byte) :
    (c.withLeftover l).addResponse text =
      ((c.addResponse text).1, (c.addResponse text).2.withLeftover l) := by
  by_cases hfull : c.writeIdx ≥ WRITE_BUFFER_SIZE
  · simp only [addResponse, withLeftover_writeIdx, hfull, ↓reduceIte]
  · by_cases hlong : text.length ≥ WRITE_BUFFER_SIZE - 1 - c.writeIdx
    · simp only [addResponse, withLeftover_writeIdx, hfull, hlong, ↓reduceIte]
      rfl
    · simp only [addResponse, withLeftover_writeIdx, hfull, hlong, ↓reduceIte]
      rfl

theorem addHeaders_withLeftover (contentLen : Int) :
    (c.withLeftover l).addHeaders contentLen = (c.addHeaders contentLen).withLeftover l := by
  simp only [addHeaders, addContentLength, addLinger, addBlankLine, addResponse_withLeftover]
  rfl

theorem addPage_withLeftover (status : Int) (title form : List Byte) :
    (c.withLeftover l).addPage status title form =
      ((c.addPage status title form).1, (c.addPage status title form).2.withLeftover l) := by
  simp only [addPage, addStatusLine, addContent, addResponse_withLeftover,
    addHeaders_withLeftover]

end Response

/-- `unmap` does the same with both. -/
structure SameFile (c c' : HttpConn) : Prop where
  address : c'.fileAddress = c.fileAddress
  size : c.fileAddress ≠ .null → c'.fileStat.size = c.fileStat.size

/-- `writev` is given the same. -/
structure SameIovecs (c c' : HttpConn) : Prop where
  iv0 : c'.iv0 = c.iv0
  count : c'.ivCount = c.ivCount
  iv1 : c.ivCount = 2 → c'.iv1 = c.iv1

theorem SameFile.congr {c c' d d' : HttpConn} (h : c.SameFile c')
    (haddress : d.fileAddress = c.fileAddress) (hstat : d.fileStat = c.fileStat)
    (haddress' : d'.fileAddress = c'.fileAddress) (hstat' : d'.fileStat = c'.fileStat) :
    d.SameFile d' := by
  refine ⟨by rw [haddress, haddress', h.address], ?_⟩
  rw [haddress, hstat, hstat']
  exact h.size

theorem SameIovecs.congr {c c' d d' : HttpConn} (h : c.SameIovecs c') (h0 : d.iv0 = c.iv0)
    (h1 : d.iv1 = c.iv1) (hcount : d.ivCount = c.ivCount) (h0' : d'.iv0 = c'.iv0)
    (h1' : d'.iv1 = c'.iv1) (hcount' : d'.ivCount = c'.ivCount) : d.SameIovecs d' := by
  refine ⟨by rw [h0, h0', h.iv0], by rw [hcount, hcount', h.count], ?_⟩
  rw [hcount, h1, h1']
  exact h.iv1

theorem SameIovecs.offered {c : HttpConn} {l : Leftover} (h : c.SameIovecs (c.withLeftover l))
    (mem : Nat → Byte) : offered mem (c.withLeftover l) = offered mem c := by
  have hbytes : ∀ iov, iovBytes mem (c.withLeftover l) iov = iovBytes mem c iov := fun _ => rfl
  rw [HttpConn.offered, HttpConn.offered, hbytes, hbytes, h.iv0, h.count]
  by_cases hcount : c.ivCount = 2
  · rw [if_pos hcount, if_pos hcount, h.iv1 hcount]
  · rw [if_neg hcount, if_neg hcount]

/-- The response that `process` queues: what `writev` will be given. -/
def queuedResponse (fs : List Byte → FsAnswer) (fellOff : Option HttpCode) (c : HttpConn) :
    Option ((Nat → Byte) → List (Option Byte)) :=
  let (ret, c, _) := c.processRead fs fellOff
  if ret ≠ .noRequest ∧ (c.processWrite ret).1 then
    some fun mem => offered mem (c.processWrite ret).2
  else none

/-- Two slots behind `init_conn` that go on alike: they differ in the leftover
fields only, and not where these are read.  With `stop` no worker ever queues a
response. -/
structure Alike (stop : Bool) (c c' : HttpConn) : Prop where
  rest : ∃ l, c' = c.withLeftover l
  file : stop = false → c.SameFile c'
  iovecs : stop = false → c.sockfd ≠ -1 → c.writeIdx ≠ 0 → c.SameIovecs c'
  silent : stop = true → c.writeIdx = 0

section Alike

variable {stop : Bool} {c c' : HttpConn}

theorem Alike.sockfd (h : Alike stop c c') : c'.sockfd = c.sockfd := by
  obtain ⟨l, rfl⟩ := h.rest
  rfl

/-- `init` leaves nothing of the rest. -/
theorem Alike.init (hsockfd : c'.sockfd = c.sockfd) (hfile : stop = false → c.SameFile c') :
    Alike stop c.init c'.init where
  rest := by
    refine ⟨⟨c'.fileAddress, c'.fileStat, c'.iv0, c'.iv1, c'.ivCount⟩, ?_⟩
    rw [HttpConn.init, hsockfd]
    rfl
  file := fun hstop => ⟨(hfile hstop).address, (hfile hstop).size⟩
  iovecs := fun _ _ hwritten => absurd rfl hwritten
  silent := fun _ => rfl

theorem Alike.recv (h : Alike stop c c') (data : List Byte) :
    Alike stop (recvBytes data c) (recvBytes data c') := by
  obtain ⟨l, rfl⟩ := h.rest
  exact ⟨⟨l, rfl⟩, fun hstop => ⟨(h.file hstop).address, (h.file hstop).size⟩,
    fun hstop hlive hwritten => (h.iovecs hstop hlive hwritten).congr rfl rfl rfl rfl rfl rfl,
    h.silent⟩

theorem recvLoop_withLeftover (c : HttpConn) (l : Leftover) (outcomes : List RecvOutcome) :
    (c.withLeftover l).recvLoop outcomes =
      (c.recvLoop outcomes).map fun r => (r.1, r.2.withLeftover l) := by
  induction outcomes generalizing c with
  | nil => rfl
  | cons outcome later ih =>
      cases outcome with
      | data bytes =>
          have hrecv : recvBytes bytes (c.withLeftover l) = (recvBytes bytes c).withLeftover l :=
            rfl
          simp only [recvLoop, withLeftover_readIdx, hrecv, ih]
          split <;> rfl
      | eagain =>
          simp only [recvLoop]
          split <;> rfl
      | error =>
          simp only [recvLoop]
          split <;> rfl
      | eof =>
          simp only [recvLoop]
          split <;> rfl

/-- `read` meets the same. -/
theorem Alike.read (h : Alike stop c c') {outcomes : List RecvOutcome} {ok : Bool}
    {after : HttpConn} (hread : c.read outcomes = some (ok, after)) :
    ∃ after', c'.read outcomes = some (ok, after') ∧ Alike stop after after' := by
  have hdata := read_data hread
  have hafter := h.recv (dataOf outcomes)
  rw [← hdata] at hafter
  refine ⟨_, ?_, hafter⟩
  obtain ⟨l, rfl⟩ := h.rest
  have hsame : (c.withLeftover l).read outcomes =
      (c.read outcomes).map fun r => (r.1, r.2.withLeftover l) := by
    by_cases hfull : c.readIdx ≥ READ_BUFFER_SIZE
    · simp only [HttpConn.read, withLeftover_readIdx, hfull, ↓reduceIte]
      split <;> rfl
    · simp only [HttpConn.read, withLeftover_readIdx, hfull, ↓reduceIte]
      exact recvLoop_withLeftover c l outcomes
  rw [hsame, hread, Option.map_some, hdata]
  rfl

theorem closeConn_snd (c : HttpConn) (userCount : Int) :
    (c.closeConn userCount).2 = if c.sockfd ≠ -1 then userCount - 1 else userCount := by
  unfold closeConn
  split <;> rfl

theorem Alike.close (h : Alike stop c c') : Alike stop (c.setSockfd (-1)) (c'.setSockfd (-1)) := by
  obtain ⟨l, rfl⟩ := h.rest
  exact ⟨⟨l, rfl⟩, fun hstop => ⟨(h.file hstop).address, (h.file hstop).size⟩,
    fun _ hlive _ => absurd rfl hlive, h.silent⟩

theorem Alike.buildPath (h : Alike stop c c') : Alike stop c.buildPath c'.buildPath := by
  obtain ⟨l, rfl⟩ := h.rest
  exact ⟨⟨l, rfl⟩, fun hstop => ⟨(h.file hstop).address, (h.file hstop).size⟩,
    fun hstop hlive hwritten => (h.iovecs hstop hlive hwritten).congr rfl rfl rfl rfl rfl rfl,
    h.silent⟩

theorem Alike.setStat (h : Alike stop c c') (st : FileStat) :
    Alike stop (c.setStat st) (c'.setStat st) := by
  obtain ⟨l, rfl⟩ := h.rest
  exact ⟨⟨{ l with fileStat := st }, rfl⟩, fun hstop => ⟨(h.file hstop).address, fun _ => rfl⟩,
    fun hstop hlive hwritten => (h.iovecs hstop hlive hwritten).congr rfl rfl rfl rfl rfl rfl,
    h.silent⟩

theorem Alike.setAddress (h : Alike stop c c') (hsize : c'.fileStat.size = c.fileStat.size)
    (address : FileAddress) : Alike stop (c.setAddress address) (c'.setAddress address) := by
  obtain ⟨l, rfl⟩ := h.rest
  exact ⟨⟨{ l with fileAddress := address }, rfl⟩, fun _ => ⟨rfl, fun _ => hsize⟩,
    fun hstop hlive hwritten => (h.iovecs hstop hlive hwritten).congr rfl rfl rfl rfl rfl rfl,
    h.silent⟩

/-- `do_request` does the same, and sets both of the fields that `unmap`
reads. -/
theorem Alike.doRequest (h : Alike false c c') (fs : List Byte → FsAnswer) :
    (c'.doRequest fs).1 = (c.doRequest fs).1 ∧ (c'.doRequest fs).2.2 = (c.doRequest fs).2.2 ∧
      Alike false (c.doRequest fs).2.1 (c'.doRequest fs).2.1 ∧
      ((c.doRequest fs).1 = .fileRequest → (c.doRequest fs).2.1.fileAddress ≠ .null) := by
  have hpath := h.buildPath
  have hreal : c'.buildPath.realFile = c.buildPath.realFile := by
    obtain ⟨l, hrest⟩ := hpath.rest
    rw [hrest]
    rfl
  rw [HttpConn.doRequest, HttpConn.doRequest, hreal]
  cases (fs (cstr c.buildPath.realFile 0)).stat with
  | none => exact ⟨rfl, rfl, hpath, fun hfile => by cases hfile⟩
  | some st =>
      have hstat := hpath.setStat st
      dsimp only
      split
      · exact ⟨rfl, rfl, hstat, fun hfile => by cases hfile⟩
      · split
        · exact ⟨rfl, rfl, hstat, fun hfile => by cases hfile⟩
        · exact ⟨rfl, rfl, hstat.setAddress rfl _, fun _ => FsAnswer.mmap_ne_null _ _⟩

theorem Alike.readRequest (h : Alike false c c') (fellOff : Option HttpCode) :
    (c'.readRequest fellOff).2 = (c.readRequest fellOff).2 ∧
      Alike false (c.readRequest fellOff).1 (c'.readRequest fellOff).1 := by
  have houtput := readRequest_output fellOff c
  have houtput' := readRequest_output fellOff c'
  refine ⟨?_, ?_, fun _ => ?_, fun _ hlive hwritten => ?_, nofun⟩
  · obtain ⟨l, rfl⟩ := h.rest
    rw [readRequest_withLeftover]
  · obtain ⟨l, rfl⟩ := h.rest
    exact ⟨l, by rw [readRequest_withLeftover]⟩
  · exact (h.file rfl).congr (congrArg Output.fileAddress houtput)
      (congrArg Output.fileStat houtput) (congrArg Output.fileAddress houtput')
      (congrArg Output.fileStat houtput')
  · have hsockfd := congrArg Output.sockfd houtput
    have hwriteIdx := congrArg Output.writeIdx houtput
    simp only [output] at hsockfd hwriteIdx
    rw [hsockfd] at hlive
    rw [hwriteIdx] at hwritten
    exact (h.iovecs rfl hlive hwritten).congr (congrArg Output.iv0 houtput)
      (congrArg Output.iv1 houtput) (congrArg Output.ivCount houtput)
      (congrArg Output.iv0 houtput') (congrArg Output.iv1 houtput')
      (congrArg Output.ivCount houtput')

/-- `process_read` does the same. -/
theorem Alike.processRead (h : Alike false c c') (fs : List Byte → FsAnswer)
    (fellOff : Option HttpCode) :
    (c'.processRead fs fellOff).1 = (c.processRead fs fellOff).1 ∧
      (c'.processRead fs fellOff).2.2 = (c.processRead fs fellOff).2.2 ∧
      Alike false (c.processRead fs fellOff).2.1 (c'.processRead fs fellOff).2.1 ∧
      ((c.processRead fs fellOff).1 = .fileRequest →
        (c.processRead fs fellOff).2.1.fileAddress ≠ .null) := by
  obtain ⟨hresult, hafter⟩ := h.readRequest fellOff
  have hcode := @readRequest_code fellOff c
  rw [HttpConn.processRead, HttpConn.processRead]
  revert hresult hafter hcode
  generalize c.readRequest fellOff = out
  generalize c'.readRequest fellOff = out'
  obtain ⟨mid, result⟩ := out
  obtain ⟨mid', result'⟩ := out'
  rintro hresult hafter hcode
  obtain rfl : result' = result := hresult
  cases result' with
  | code ret =>
      refine ⟨rfl, rfl, hafter, fun hret => ?_⟩
      rcases hcode rfl with rfl | rfl | rfl <;> cases hret
  | doRequest => exact hafter.doRequest fs

/-- So the file that `process_read` opens is the same. -/
theorem Alike.fileAnswer (h : Alike false c c') (fs : List Byte → FsAnswer)
    (fellOff : Option HttpCode) : c'.fileAnswer fs fellOff = c.fileAnswer fs fellOff := by
  obtain ⟨l, rfl⟩ := h.rest
  rw [HttpConn.fileAnswer, HttpConn.fileAnswer, readRequest_withLeftover]
  cases c.readRequest fellOff with
  | mk mid result =>
      cases result with
      | code ret => rfl
      | doRequest => rfl

/-- What `process_write` queues sets the iovecs. -/
structure SameWritten (out out' : Bool × HttpConn) : Prop where
  ok : out'.1 = out.1
  rest : ∃ l, out'.2 = out.2.withLeftover l
  iovecs : out.1 = true → out.2.SameIovecs out'.2

theorem queueText_same (c : HttpConn) (l : Leftover) :
    SameWritten c.queueText (c.withLeftover l).queueText where
  ok := rfl
  rest := ⟨{ l with iv0 := ⟨.writeBuf, c.writeIdx⟩, ivCount := 1 }, rfl⟩
  iovecs := fun _ => ⟨rfl, rfl, fun hcount => absurd (show 1 = 2 from hcount) (by decide)⟩

/-- A page, and what is done when it fits. -/
theorem page_same (status : Int) (title form : List Byte) (c : HttpConn) (l : Leftover)
    {more : HttpConn → Bool × HttpConn}
    (hmore : ∀ c, SameWritten (more c) (more (c.withLeftover l))) :
    SameWritten
      (if !(c.addPage status title form).1 then (false, (c.addPage status title form).2)
        else more (c.addPage status title form).2)
      (if !((c.withLeftover l).addPage status title form).1 then
        (false, ((c.withLeftover l).addPage status title form).2)
        else more ((c.withLeftover l).addPage status title form).2) := by
  rw [addPage_withLeftover]
  generalize c.addPage status title form = page
  obtain ⟨ok, c⟩ := page
  cases ok with
  | true => exact hmore c
  | false => exact ⟨rfl, ⟨l, rfl⟩, nofun⟩

theorem writeForbidden_same (c : HttpConn) (l : Leftover) :
    SameWritten c.writeForbidden (c.withLeftover l).writeForbidden := by
  simp only [HttpConn.writeForbidden]
  exact page_same 403 error403Title error403Form c l fun c => queueText_same c l

theorem writeFile_same (c : HttpConn) (l : Leftover) (haddress : l.fileAddress = c.fileAddress)
    (hsize : l.fileStat.size = c.fileStat.size) :
    SameWritten c.writeFile (c.withLeftover l).writeFile := by
  have hsize' : (c.withLeftover l).fileStat.size = c.fileStat.size := hsize
  by_cases hempty : c.fileStat.size = 0
  · have hpage := page_same 200 ok200Title okString c l fun c => queueText_same c l
    simp only [HttpConn.writeFile, hsize', hempty, ne_eq, not_true_eq_false, ↓reduceIte]
    exact hpage
  · have hshape : c.TextOnly ((c.addResponse (statusLine 200 ok200Title ++ [CR, LF])).2.addHeaders
        (toInt32 c.fileStat.size)) :=
      (addResponse_textOnly _ _).trans (addHeaders_textOnly _ _)
    simp only [HttpConn.writeFile, hsize', hempty, ne_eq, not_false_eq_true, ↓reduceIte,
      addStatusLine, addResponse_withLeftover, addHeaders_withLeftover]
    generalize (c.addResponse _).2.addHeaders _ = head at hshape ⊢
    have haddress' : l.fileAddress = head.fileAddress := by rw [haddress, hshape]
    have hlength : l.fileStat.size = head.fileStat.size := by rw [hsize, hshape]
    refine ⟨rfl, ⟨⟨l.fileAddress, l.fileStat, _, _, 2⟩, rfl⟩, fun _ => ⟨rfl, rfl, fun _ => ?_⟩⟩
    change Iovec.mk (.file l.fileAddress) l.fileStat.size = ⟨.file head.fileAddress, _⟩
    rw [haddress', hlength]

/-- `process_write` queues the same. -/
theorem processWrite_same (c : HttpConn) (l : Leftover) (ret : HttpCode)
    (hfile : ret = .fileRequest →
      l.fileAddress = c.fileAddress ∧ l.fileStat.size = c.fileStat.size) :
    SameWritten (c.processWrite ret) ((c.withLeftover l).processWrite ret) := by
  cases ret with
  | internalError =>
      simp only [HttpConn.processWrite]
      exact page_same 500 error500Title error500Form c l fun c => queueText_same c l
  | badRequest =>
      simp only [HttpConn.processWrite, addPage_withLeftover]
      generalize (c.addPage 400 error400Title error400Form).2 = page
      exact ⟨rfl, ⟨l, rfl⟩, fun hqueued => by cases hqueued⟩
  | noResource =>
      simp only [HttpConn.processWrite, writeNoResource]
      exact page_same 400 error400Title error400Form c l fun c => writeForbidden_same c l
  | forbiddenRequest => exact writeForbidden_same c l
  | fileRequest => exact writeFile_same c l (hfile rfl).1 (hfile rfl).2
  | noRequest | getRequest | closedConnection => exact queueText_same c l

/-- What `process_write` leaves of two slots that go on alike. -/
theorem Alike.processWrite (h : Alike false c c') (ret : HttpCode)
    (hfile : ret = .fileRequest → c.fileAddress ≠ .null) :
    SameWritten (c.processWrite ret) (c'.processWrite ret) ∧
      ((c.processWrite ret).1 = true →
        Alike false (c.processWrite ret).2 (c'.processWrite ret).2) ∧
      Alike false ((c.processWrite ret).2.setSockfd (-1))
        ((c'.processWrite ret).2.setSockfd (-1)) := by
  have hsame : SameWritten (c.processWrite ret) (c'.processWrite ret) := by
    have hunmapped := h.file rfl
    obtain ⟨l, rfl⟩ := h.rest
    exact processWrite_same c l ret fun hret => ⟨hunmapped.address, hunmapped.size (hfile hret)⟩
  obtain ⟨haddress, hstat, -⟩ := processWrite_file_kept c ret
  obtain ⟨haddress', hstat', -⟩ := processWrite_file_kept c' ret
  have hkept : (c.processWrite ret).2.SameFile (c'.processWrite ret).2 :=
    (h.file rfl).congr haddress hstat haddress' hstat'
  refine ⟨hsame, fun hok => ?_, ?_⟩
  · exact ⟨hsame.rest, fun _ => hkept, fun _ _ _ => hsame.iovecs hok, nofun⟩
  · obtain ⟨l, hrest⟩ := hsame.rest
    refine ⟨⟨l, by rw [hrest]; rfl⟩, fun _ => ⟨hkept.address, hkept.size⟩,
      fun _ hlive => absurd rfl hlive, nofun⟩

/-- A worker does the same with both. -/
theorem Alike.process (h : Alike false c c') (fs : List Byte → FsAnswer)
    (fellOff : Option HttpCode) (userCount : Int) :
    (c'.process fs fellOff userCount).2 = (c.process fs fellOff userCount).2 ∧
      Alike false (c.process fs fellOff userCount).1 (c'.process fs fellOff userCount).1 ∧
      c'.queuedResponse fs fellOff = c.queuedResponse fs fellOff := by
  obtain ⟨hret, hsys, hmid, hfile⟩ := h.processRead fs fellOff
  revert hret hsys hmid hfile
  rw [HttpConn.process, HttpConn.process, queuedResponse, queuedResponse]
  generalize c.processRead fs fellOff = out
  generalize c'.processRead fs fellOff = out'
  obtain ⟨ret, mid, sys⟩ := out
  obtain ⟨ret', mid', sys'⟩ := out'
  rintro hret hsys hmid hfile
  obtain rfl : ret' = ret := hret
  obtain rfl : sys' = sys := hsys
  dsimp only at hmid hfile ⊢
  obtain ⟨hsame, hqueued, hclosed⟩ := hmid.processWrite ret' hfile
  have hsockfd : (mid'.processWrite ret').2.sockfd = (mid.processWrite ret').2.sockfd := by
    rw [processWrite_sockfd, processWrite_sockfd, hmid.sockfd]
  by_cases hwait : ret' = .noRequest
  · simp only [hwait, hmid.sockfd, ne_eq, not_true_eq_false, false_and, ↓reduceIte]
    exact ⟨trivial, hmid, trivial⟩
  · revert hsame hqueued hclosed hsockfd
    generalize mid.processWrite ret' = written
    generalize mid'.processWrite ret' = written'
    obtain ⟨ok, c⟩ := written
    obtain ⟨ok', c'⟩ := written'
    intro hsame hqueued hclosed hsockfd
    obtain rfl : ok' = ok := hsame.ok
    obtain ⟨l, rfl⟩ : ∃ l, c' = c.withLeftover l := hsame.rest
    dsimp only at hsockfd hclosed hqueued ⊢
    cases ok' with
    | true =>
        simp only [hwait, hsockfd, Bool.not_true, Bool.false_eq_true, ne_eq, not_false_eq_true,
          and_self, ↓reduceIte, (hsame.iovecs rfl).offered]
        exact ⟨trivial, hqueued rfl, trivial⟩
    | false =>
        simp only [hwait, Bool.not_false, Bool.false_eq_true, and_false, ↓reduceIte,
          closeConn_fst]
        refine ⟨?_, hclosed, trivial⟩
        rw [closeConn_snd, closeConn_snd, hsockfd]
        rfl

/-- `unmap` does the same, and leaves no mapping. -/
theorem Alike.unmap (h : Alike false c c') :
    c'.unmap.2 = c.unmap.2 ∧ Alike false c.unmap.1 c'.unmap.1 := by
  have hfile := h.file rfl
  by_cases hnull : c.fileAddress = .null
  · have hnull' : c'.fileAddress = .null := hfile.address.trans hnull
    simp only [HttpConn.unmap, hnull, hnull', ↓reduceIte]
    exact ⟨trivial, h⟩
  · simp only [HttpConn.unmap, hnull, ↓reduceIte, hfile.address, hfile.size hnull]
    exact ⟨trivial, h.setAddress (hfile.size hnull) .null⟩

/-- Two calls of `write` that show the same. -/
structure SameResult (stop : Bool) (r r' : WriteResult) : Prop where
  ret : r'.ret = r.ret
  calls : r'.calls = r.calls
  sent : r'.sent = r.sent
  conn : Alike stop r.conn r'.conn

theorem SameResult.after {r r' : WriteResult} (h : SameResult stop r r')
    (chunk : List (Option Byte)) : SameResult stop (r.after chunk) (r'.after chunk) :=
  ⟨h.ret, h.calls, congrArg (chunk ++ ·) h.sent, h.conn⟩

theorem Alike.finishWrite (h : Alike false c c') :
    SameResult false c.finishWrite c'.finishWrite := by
  obtain ⟨hcalls, hconn⟩ := h.unmap
  have hsockfd := hconn.sockfd
  have hlinger : c'.unmap.1.linger = c.unmap.1.linger := by
    obtain ⟨l, hrest⟩ := hconn.rest
    rw [hrest]
    rfl
  simp only [HttpConn.finishWrite, hcalls, hsockfd, hlinger]
  cases c.unmap.1.linger with
  | true => exact ⟨rfl, rfl, rfl, Alike.init hsockfd hconn.file⟩
  | false => exact ⟨rfl, rfl, rfl, hconn⟩

/-- The loop of `write` reads the iovecs only to send from them. -/
theorem Alike.writeLoop (h : Alike false c c') {mem : Nat → Byte} {toSend haveSend : Int}
    {outcomes : List WritevOutcome} {r : WriteResult}
    (hoffered : offered mem c' = offered mem c ∨ ∀ outcome ∈ outcomes, outcome = .error)
    (hwrite : writeLoop mem c toSend haveSend outcomes = some r) :
    ∃ r', writeLoop mem c' toSend haveSend outcomes = some r' ∧ SameResult false r r' := by
  induction outcomes generalizing toSend haveSend r with
  | nil => cases hwrite
  | cons outcome later ih =>
      cases outcome with
      | eagain =>
          obtain ⟨rfl, rfl⟩ := WriteResult.endsWith_eq_some hwrite
          refine ⟨_, rfl, rfl, ?_, rfl, h⟩
          rw [h.sockfd]
      | error =>
          obtain ⟨rfl, rfl⟩ := WriteResult.endsWith_eq_some hwrite
          exact ⟨_, rfl, rfl, h.unmap.1, rfl, h.unmap.2⟩
      | sent k =>
          have hsame : offered mem c' = offered mem c := by
            rcases hoffered with hsame | herrors
            · exact hsame
            · exact absurd (herrors _ List.mem_cons_self) nofun
          simp only [HttpConn.writeLoop, hsame] at hwrite ⊢
          split
          · rename_i hdone
            rw [if_pos hdone] at hwrite
            obtain ⟨rfl, rfl⟩ := WriteResult.endsWith_eq_some hwrite
            exact ⟨_, rfl, h.finishWrite.after _⟩
          · rename_i hmore
            rw [if_neg hmore] at hwrite
            obtain ⟨rest, hrest, rfl⟩ := Option.map_eq_some_iff.mp hwrite
            obtain ⟨rest', hrest', hresult⟩ := ih (Or.inl hsame) hrest
            exact ⟨_, by rw [hrest', Option.map_some], hresult.after _⟩

/-- `write` does the same with both. -/
theorem Alike.write (h : Alike stop c c') {mem : Nat → Byte} {outcomes : List WritevOutcome}
    {r : WriteResult} (hwrite : c.write mem outcomes = some r)
    (hbad : c.sockfd = -1 → ∀ outcome ∈ outcomes, outcome = .error) :
    ∃ r', c'.write mem outcomes = some r' ∧ SameResult stop r r' := by
  have hwriteIdx : c'.writeIdx = c.writeIdx := by
    obtain ⟨l, rfl⟩ := h.rest
    rfl
  by_cases hempty : c.writeIdx = 0
  · rw [HttpConn.write, if_pos hempty] at hwrite
    rw [HttpConn.write, hwriteIdx, if_pos hempty]
    obtain ⟨rfl, rfl⟩ := WriteResult.endsWith_eq_some hwrite
    refine ⟨_, rfl, rfl, ?_, rfl, Alike.init h.sockfd h.file⟩
    rw [h.sockfd]
  · cases stop with
    | true => exact absurd (h.silent rfl) hempty
    | false =>
        rw [HttpConn.write, if_neg hempty] at hwrite
        rw [HttpConn.write, hwriteIdx, if_neg hempty]
        refine h.writeLoop ?_ hwrite
        by_cases hclosed : c.sockfd = -1
        · exact Or.inr (hbad hclosed)
        · have hiovecs := h.iovecs rfl hclosed hempty
          obtain ⟨l, rfl⟩ := h.rest
          exact Or.inl (hiovecs.offered mem)

end Alike

end HttpConn

end LinuxLearning.Webserver
