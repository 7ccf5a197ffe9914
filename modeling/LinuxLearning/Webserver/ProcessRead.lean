/-
The main state machine `http_conn::process_read`, up to the point where it
returns a code or calls `do_request`.  The loop is total, and a call that
returns NO_REQUEST can be resumed: on more bytes it does what one call on all
the bytes would have done.
-/
import LinuxLearning.Webserver.ParseLine
import LinuxLearning.Webserver.ParseRequest

namespace LinuxLearning.Webserver

open Lines

/-- How `process_read` ends: it returns a code, or returns what `do_request`
returns. -/
inductive ReadResult where
  | code (ret : HttpCode)
  | doRequest
deriving Repr, DecidableEq

/-- One turn of the loop: go round again, or leave the function. -/
inductive PassResult where
  | again (c : HttpConn)
  | done (c : HttpConn) (result : ReadResult)

namespace HttpConn

/-- `m_start_line = m_checked_idx` -/
def markLine (c : HttpConn) : HttpConn := { c with startLine := c.checkedIdx }

/-- The body of the loop of `process_read`.  `fellOff` is what the caller
finds in the place of a result when `parse_content` runs off its end: some
code, or a value that is none of them. -/
def handleLine (fellOff : Option HttpCode) (c : HttpConn) : PassResult :=
  let text := c.startLine
  let c := c.markLine
  match c.checkState with
  | .requestLine =>
      let (retcode, c) := c.parseRequestLine text
      if retcode = .badRequest then .done c (.code .badRequest)
      else .again c
  | .header =>
      let (retcode, c) := c.parseHeaders text
      if retcode = .badRequest then .done c (.code .badRequest)
      else if retcode = .getRequest then .done c .doRequest
      else .again c
  | .content =>
      let (retcode, c) := c.parseContent text
      if retcode.or fellOff = some .getRequest then .done c .doRequest
      -- `line_status = LINE_OPEN` falls through to the default case
      else .done c (.code .internalError)

/-- What follows a call of `parse_line` in the loop condition. -/
def onLine (fellOff : Option HttpCode) : LineStatus × HttpConn → PassResult
  | (.lineOk, c) => handleLine fellOff c
  | (.lineBad, c) => .done c (.code .noRequest)
  | (.lineOpen, c) => .done c (.code .noRequest)

/-- The loop condition and the body.  `line_status` is LINE_OK whenever the
condition is evaluated: the one place that changes it leaves the function. -/
def pass (fellOff : Option HttpCode) (c : HttpConn) : PassResult :=
  if c.checkState = .content then handleLine fellOff c
  else onLine fellOff (parseLine c)

/-- At most `fuel` turns of the loop. -/
def readLoop (fellOff : Option HttpCode) :
    Nat → HttpConn → Option (HttpConn × ReadResult)
  | 0, _ => none
  | fuel + 1, c =>
      match pass fellOff c with
      | .again c => readLoop fellOff fuel c
      | .done c result => some (c, result)

/-- The bytes the loop can still run over. -/
def unchecked (c : HttpConn) : Nat := c.readIdx - c.checkedIdx

theorem pass_of_scanning (fellOff : Option HttpCode) {c : HttpConn}
    (hcontent : c.checkState ≠ .content) :
    pass fellOff c = onLine fellOff (parseLine c) := by
  rw [pass, if_neg hcontent]

theorem parseLineLoop_ok {left : Nat} {c after : HttpConn}
    (hloop : parseLineLoop left c = (.lineOk, after)) :
    0 < left ∧ after.readIdx = c.readIdx ∧ c.checkedIdx < after.checkedIdx := by
  induction left generalizing c with
  | zero => simp [parseLineLoop] at hloop
  | succ left ih =>
      refine ⟨Nat.succ_pos left, ?_⟩
      simp only [parseLineLoop] at hloop
      split at hloop
      · split at hloop
        · simp at hloop
        · split at hloop
          · rw [Prod.mk.injEq] at hloop
            rw [← hloop.2]
            exact ⟨rfl, Nat.lt_add_of_pos_right Nat.two_pos⟩
          · simp at hloop
      · split at hloop
        · split at hloop
          · rw [Prod.mk.injEq] at hloop
            rw [← hloop.2]
            exact ⟨rfl, Nat.lt_succ_self _⟩
          · simp at hloop
        · obtain ⟨-, hread, hchecked⟩ := ih hloop
          rw [moveTo_checkedIdx] at hchecked
          exact ⟨hread, by omega⟩

end HttpConn

/-- The part of a connection that the parser leaves alone: the socket, the
count of bytes received, and all that concerns the response. -/
structure Output where
  sockfd : Int
  readIdx : Nat
  writeBuf : Buffer WRITE_BUFFER_SIZE
  writeIdx : Nat
  realFile : Buffer FILENAME_LEN
  fileAddress : FileAddress
  fileStat : FileStat
  iv0 : Iovec
  iv1 : Iovec
  ivCount : Nat

/-- The connection a turn of the loop leaves. -/
def PassResult.conn : PassResult → HttpConn
  | .again c => c
  | .done c _ => c

namespace HttpConn

def output (c : HttpConn) : Output :=
  { sockfd := c.sockfd
    readIdx := c.readIdx
    writeBuf := c.writeBuf
    writeIdx := c.writeIdx
    realFile := c.realFile
    fileAddress := c.fileAddress
    fileStat := c.fileStat
    iv0 := c.iv0
    iv1 := c.iv1
    ivCount := c.ivCount }

/-- What the parser of a line leaves alone: the output, and the place of the
scanner. -/
structure LineFrame (c after : HttpConn) : Prop where
  output : after.output = c.output
  checkedIdx : after.checkedIdx = c.checkedIdx

theorem LineFrame.trans {c mid after : HttpConn} (hfirst : LineFrame c mid)
    (hsecond : LineFrame mid after) : LineFrame c after :=
  ⟨hsecond.output.trans hfirst.output, hsecond.checkedIdx.trans hfirst.checkedIdx⟩

theorem LineFrame.readIdx {c after : HttpConn} (h : LineFrame c after) :
    after.readIdx = c.readIdx :=
  congrArg Output.readIdx h.output

theorem checkUrl_frame (c : HttpConn) (url : Nat) : LineFrame c (c.checkUrl url).2 := by
  unfold checkUrl
  split
  · exact ⟨rfl, rfl⟩
  · split <;> exact ⟨rfl, rfl⟩

theorem parseVersion_frame (c : HttpConn) (url : Nat) : LineFrame c (c.parseVersion url).2 := by
  unfold parseVersion
  split
  · exact ⟨rfl, rfl⟩
  · dsimp only
    split
    · refine LineFrame.trans ?_ (checkUrl_frame _ _)
      exact ⟨rfl, rfl⟩
    · exact ⟨rfl, rfl⟩

theorem parseRequestLine_frame (c : HttpConn) (text : Nat) :
    LineFrame c (c.parseRequestLine text).2 := by
  unfold parseRequestLine
  split
  · exact ⟨rfl, rfl⟩
  · dsimp only
    split
    · refine LineFrame.trans ?_ (parseVersion_frame _ _)
      exact ⟨rfl, rfl⟩
    · exact ⟨rfl, rfl⟩

theorem parseHeaders_frame (c : HttpConn) (text : Nat) :
    LineFrame c (c.parseHeaders text).2 := by
  unfold parseHeaders
  split
  · split <;> exact ⟨rfl, rfl⟩
  · split
    · dsimp only
      split <;> exact ⟨rfl, rfl⟩
    · split
      · exact ⟨rfl, rfl⟩
      · split <;> exact ⟨rfl, rfl⟩

theorem parseContent_frame (c : HttpConn) (text : Nat) :
    LineFrame c (c.parseContent text).2 := by
  unfold parseContent
  split <;> exact ⟨rfl, rfl⟩

theorem handleLine_requestLine {fellOff : Option HttpCode} {c : HttpConn}
    (hstate : c.checkState = .requestLine) :
    handleLine fellOff c =
      if (c.markLine.parseRequestLine c.startLine).1 = .badRequest then
        .done (c.markLine.parseRequestLine c.startLine).2 (.code .badRequest)
      else .again (c.markLine.parseRequestLine c.startLine).2 := by
  have hmark : c.markLine.checkState = .requestLine := hstate
  simp only [handleLine, hmark]

theorem handleLine_header {fellOff : Option HttpCode} {c : HttpConn}
    (hstate : c.checkState = .header) :
    handleLine fellOff c =
      if (c.markLine.parseHeaders c.startLine).1 = .badRequest then
        .done (c.markLine.parseHeaders c.startLine).2 (.code .badRequest)
      else if (c.markLine.parseHeaders c.startLine).1 = .getRequest then
        .done (c.markLine.parseHeaders c.startLine).2 .doRequest
      else .again (c.markLine.parseHeaders c.startLine).2 := by
  have hmark : c.markLine.checkState = .header := hstate
  simp only [handleLine, hmark]

theorem handleLine_content {fellOff : Option HttpCode} {c : HttpConn}
    (hstate : c.checkState = .content) :
    handleLine fellOff c =
      if (c.markLine.parseContent c.startLine).1.or fellOff = some .getRequest then
        .done (c.markLine.parseContent c.startLine).2 .doRequest
      else .done (c.markLine.parseContent c.startLine).2 (.code .internalError) := by
  have hmark : c.markLine.checkState = .content := hstate
  simp only [handleLine, hmark]

theorem handleLine_frame (fellOff : Option HttpCode) (c : HttpConn) :
    LineFrame c (handleLine fellOff c).conn := by
  have hmark : LineFrame c c.markLine := ⟨rfl, rfl⟩
  cases hstate : c.checkState with
  | requestLine =>
      rw [handleLine_requestLine hstate]
      split <;> exact hmark.trans (parseRequestLine_frame _ _)
  | header =>
      rw [handleLine_header hstate]
      split
      · exact hmark.trans (parseHeaders_frame _ _)
      · split <;> exact hmark.trans (parseHeaders_frame _ _)
  | content =>
      rw [handleLine_content hstate]
      split <;> exact hmark.trans (parseContent_frame _ _)

theorem handleLine_again_frame {fellOff : Option HttpCode} {c after : HttpConn}
    (hpass : handleLine fellOff c = .again after) : LineFrame c after := by
  have hframe := handleLine_frame fellOff c
  rw [hpass] at hframe
  exact hframe

/-- A turn that goes round again has consumed received bytes. -/
theorem pass_again {fellOff : Option HttpCode} {c after : HttpConn}
    (hpass : pass fellOff c = .again after) : after.unchecked < c.unchecked := by
  unfold pass at hpass
  split at hpass
  · rename_i hcontent
    rw [handleLine_content hcontent] at hpass
    split at hpass <;> cases hpass
  · cases hline : parseLine c with
    | mk status mid =>
        rw [hline] at hpass
        cases status with
        | lineOk =>
            obtain ⟨hpos, hread, hchecked⟩ := parseLineLoop_ok hline
            have hread' := (handleLine_again_frame hpass).readIdx
            have hchecked' := (handleLine_again_frame hpass).checkedIdx
            simp only [unchecked]
            omega
        | lineBad => cases hpass
        | lineOpen => cases hpass

theorem readLoop_isSome {fellOff : Option HttpCode} {fuel : Nat} {c : HttpConn}
    (hfuel : c.unchecked < fuel) : (readLoop fellOff fuel c).isSome := by
  induction fuel generalizing c with
  | zero => omega
  | succ fuel ih =>
      unfold readLoop
      split
      · rename_i after hpass
        have := pass_again hpass
        exact ih (by omega)
      · rfl

/-- `http_conn::process_read` without the call of `do_request`. -/
def readRequest (fellOff : Option HttpCode) (c : HttpConn) : HttpConn × ReadResult :=
  (readLoop fellOff (c.unchecked + 1) c).get (readLoop_isSome (Nat.lt_succ_self _))

theorem readLoop_succ {fellOff : Option HttpCode} {fuel : Nat} {c : HttpConn}
    {out : HttpConn × ReadResult} (hloop : readLoop fellOff fuel c = some out) :
    readLoop fellOff (fuel + 1) c = some out := by
  induction fuel generalizing c with
  | zero => simp [readLoop] at hloop
  | succ fuel ih =>
      rw [readLoop] at hloop ⊢
      split
      · rename_i after hpass
        rw [hpass] at hloop
        exact ih hloop
      · rename_i after result hpass
        rw [hpass] at hloop
        exact hloop

theorem readLoop_mono {fellOff : Option HttpCode} {fuel more : Nat} {c : HttpConn}
    {out : HttpConn × ReadResult} (hloop : readLoop fellOff fuel c = some out)
    (hle : fuel ≤ more) : readLoop fellOff more c = some out := by
  induction more, hle using Nat.le_induction with
  | base => exact hloop
  | succ more _ ih => exact readLoop_succ ih

/-- With any sufficient fuel the loop gives the result of `readRequest`. -/
theorem readLoop_eq (fellOff : Option HttpCode) {fuel : Nat} {c : HttpConn}
    (hfuel : c.unchecked < fuel) :
    readLoop fellOff fuel c = some (readRequest fellOff c) :=
  readLoop_mono (Option.some_get _).symm hfuel

theorem readRequest_again {fellOff : Option HttpCode} {c after : HttpConn}
    (hpass : pass fellOff c = .again after) :
    readRequest fellOff c = readRequest fellOff after := by
  have hless := pass_again hpass
  have h := readLoop_eq fellOff (Nat.lt_succ_self c.unchecked)
  rw [readLoop, hpass] at h
  dsimp only at h
  rw [readLoop_eq fellOff hless] at h
  exact (Option.some.inj h).symm

theorem readRequest_done {fellOff : Option HttpCode} {c after : HttpConn}
    {result : ReadResult} (hpass : pass fellOff c = .done after result) :
    readRequest fellOff c = (after, result) := by
  have h := readLoop_eq fellOff (Nat.lt_succ_self c.unchecked)
  rw [readLoop, hpass] at h
  exact (Option.some.inj h).symm

theorem readRequest_congr {fellOff : Option HttpCode} {first second : HttpConn}
    (hpass : pass fellOff first = pass fellOff second) :
    readRequest fellOff first = readRequest fellOff second := by
  cases h : pass fellOff second with
  | again after => rw [readRequest_again (hpass.trans h), readRequest_again h]
  | done after result => rw [readRequest_done (hpass.trans h), readRequest_done h]

/-- Induction over the turns of the loop. -/
theorem readRequest_induction (fellOff : Option HttpCode) {motive : HttpConn → Prop}
    (hturn : ∀ c, (∀ after, pass fellOff c = .again after → motive after) → motive c)
    (c : HttpConn) : motive c := by
  suffices h : ∀ n, ∀ c : HttpConn, c.unchecked = n → motive c from h _ c rfl
  intro n
  induction n using Nat.strong_induction_on with
  | h n ih =>
      intro c hc
      apply hturn
      intro after hpass
      exact ih after.unchecked (by have := pass_again hpass; omega) after rfl

theorem parseLineLoop_output (left : Nat) (c : HttpConn) :
    (parseLineLoop left c).2.output = c.output := by
  induction left generalizing c with
  | zero => rfl
  | succ left ih =>
      simp only [parseLineLoop]
      split
      · split
        · rfl
        · split <;> rfl
      · split
        · split <;> rfl
        · rw [ih]
          rfl

theorem pass_output (fellOff : Option HttpCode) (c : HttpConn) :
    (pass fellOff c).conn.output = c.output := by
  unfold pass
  split
  · exact (handleLine_frame fellOff c).output
  · have hline := parseLineLoop_output (c.readIdx - c.checkedIdx) c
    change (parseLine c).2.output = c.output at hline
    cases hparse : parseLine c with
    | mk status mid =>
        rw [hparse] at hline
        cases status with
        | lineOk => exact (handleLine_frame fellOff mid).output.trans hline
        | lineBad => exact hline
        | lineOpen => exact hline

/-- The parser leaves the output alone. -/
theorem readRequest_output (fellOff : Option HttpCode) (c : HttpConn) :
    (readRequest fellOff c).1.output = c.output := by
  induction c using readRequest_induction fellOff with
  | hturn c ih =>
      have hpass := pass_output fellOff c
      cases hturn : pass fellOff c with
      | again after =>
          rw [hturn] at hpass
          rw [readRequest_again hturn]
          exact (ih after hturn).trans hpass
      | done after result =>
          rw [hturn] at hpass
          rw [readRequest_done hturn]
          exact hpass

end HttpConn

end LinuxLearning.Webserver
