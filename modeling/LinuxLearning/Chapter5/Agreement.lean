/-
The two request parsers side by side.  As long as the web server's is in one
of the two states the other one knows, they walk through the same bytes in
step, and what they return and leave behind is the same.  They part where a
body is waited for, which only a Content-Length header can bring about.
-/
import LinuxLearning.Chapter5.HeaderParser
import LinuxLearning.Webserver.HeaderOrder
import LinuxLearning.Webserver.Indices

namespace LinuxLearning.Chapter5

open CString Lines
open LinuxLearning.Webserver (HttpConn HeaderFields IsHead PassResult READ_BUFFER_SIZE ReadResult
  blanks cText fieldsOf head_cases headBytes isNamed lastNamed
  rootRequest slash targetAt)

/-- The state of the web server's parser under the same name. -/
def CheckState.web : CheckState → Webserver.CheckState
  | .requestLine => .requestLine
  | .header => .header

def LineStatus.web : LineStatus → Webserver.LineStatus
  | .lineOk => .lineOk
  | .lineBad => .lineBad
  | .lineOpen => .lineOpen

/-- The parser and the connection are at the same place in the same bytes. -/
structure Mirror (p : Parser) (c : HttpConn) : Prop where
  buffer : p.buffer.SameBytes c.readBuf
  checked : p.checkedIndex = c.checkedIdx
  read : p.readIndex = c.readIdx
  start : p.startLine = c.startLine
  state : c.checkState = p.checkstate.web

/-- What parsers of a line return: they agree on whether it is rejected. -/
structure SameCode (five : HttpCode × Parser) (web : Webserver.HttpCode × HttpConn) : Prop where
  code : five.1 = .badRequest ↔ web.1 = .badRequest
  mirror : Mirror five.2 web.2

/-- How a turn of each loop ends. -/
inductive SameTurn : Parser ⊕ (Parser × Option HttpCode) → PassResult → Prop
  | again {p : Parser} {c : HttpConn} (h : Mirror p c) : SameTurn (.inl p) (.again c)
  | noLine (p : Parser) (c : HttpConn) : SameTurn (.inr (p, none)) (.done c (.code .noRequest))
  | rejected {p : Parser} {c : HttpConn} (h : Mirror p c) :
      SameTurn (.inr (p, some .badRequest)) (.done c (.code .badRequest))
  | complete {p : Parser} {c : HttpConn} (h : Mirror p c) :
      SameTurn (.inr (p, some .getRequest)) (.done c .doRequest)
  -- only the server waits for a body
  | body {p : Parser} {c : HttpConn} (hcontent : c.checkState = .content) :
      SameTurn (.inr (p, some .getRequest)) (.again c)

/-- What the calls return and leave behind. -/
structure Agree (five : Parser × Option HttpCode) (web : HttpConn × ReadResult) : Prop where
  getRequest : five.2 = some .getRequest ↔ web.2 = .doRequest
  badRequest : five.2 = some .badRequest ↔ web.2 = .code .badRequest
  left : five.2 = some .getRequest ∨ five.2 = some .badRequest → Mirror five.1 web.1

namespace Mirror

variable {p : Parser} {c : HttpConn}

/-- Both have just been reset and have received the same bytes. -/
theorem init (c : HttpConn) {data : List Byte} (hfit : data.length ≤ READ_BUFFER_SIZE) :
    Mirror (Parser.start.receive data) (HttpConn.recvBytes data c.init) where
  buffer := by
    have hle : READ_BUFFER_SIZE ≤ BUFFER_SIZE := by decide
    apply Buffer.SameBytes.blit (Buffer.sameBytes_zero _ _)
    · change 0 + data.length ≤ BUFFER_SIZE
      omega
    · change 0 + data.length ≤ READ_BUFFER_SIZE
      omega
  checked := rfl
  read := rfl
  start := rfl
  state := rfl

theorem moveTo (h : Mirror p c) (k : Nat) : Mirror (p.moveTo k) (c.moveTo k) :=
  ⟨h.buffer, rfl, h.read, h.start, h.state⟩

theorem markLine (h : Mirror p c) : Mirror p.markLine c.markLine :=
  ⟨h.buffer, h.checked, h.read, h.checked, h.state⟩

theorem store (h : Mirror p c) {i : Nat} (hi : i < READ_BUFFER_SIZE) (value : Byte) :
    Mirror (p.store i value) (c.store i value) := by
  have hle : READ_BUFFER_SIZE ≤ BUFFER_SIZE := by decide
  rw [HttpConn.store_natCast]
  exact ⟨h.buffer.poke (Nat.lt_of_lt_of_le hi hle) hi value, h.checked, h.read, h.start, h.state⟩

theorem setUrl (h : Mirror p c) (url : Option Nat) : Mirror p (c.setUrl url) :=
  ⟨h.buffer, h.checked, h.read, h.start, h.state⟩

theorem setVersion (h : Mirror p c) (version : Option Nat) : Mirror p (c.setVersion version) :=
  ⟨h.buffer, h.checked, h.read, h.start, h.state⟩

theorem setMethod (h : Mirror p c) (method : Webserver.Method) : Mirror p (c.setMethod method) :=
  ⟨h.buffer, h.checked, h.read, h.start, h.state⟩

theorem strAt (h : Mirror p c) (text : Nat) : cstr p.buffer text = c.strAt text :=
  cstr_sameBytes h.buffer text

theorem notContent (h : Mirror p c) : c.checkState ≠ .content := by
  rw [h.state]
  cases p.checkstate <;> exact nofun

/-- The scanners take the same steps. -/
theorem parseLineLoop (h : Mirror p c) {left : Nat} (hleft : c.readIdx - c.checkedIdx = left)
    (hfits : c.readIdx ≤ READ_BUFFER_SIZE) :
    (HttpConn.parseLineLoop left c).1 = (Parser.parseLineLoop left p).1.web ∧
      Mirror (Parser.parseLineLoop left p).2 (HttpConn.parseLineLoop left c).2 := by
  induction left generalizing p c with
  | zero => exact ⟨rfl, h⟩
  | succ left ih =>
      have hin : c.checkedIdx < READ_BUFFER_SIZE := by omega
      simp only [Parser.parseLineLoop, HttpConn.parseLineLoop, h.checked, h.read, h.buffer _]
      split
      · split
        · exact ⟨rfl, h⟩
        · split
          · -- the CR is not the last byte, so the LF is inside the array
            have hnext : c.checkedIdx + 1 < READ_BUFFER_SIZE := by omega
            have hcr := (h.store hin 0).moveTo (c.checkedIdx + 1)
            exact ⟨rfl, (hcr.store hnext 0).moveTo (c.checkedIdx + 1 + 1)⟩
          · exact ⟨rfl, h⟩
      · split
        · split
          · have hcr := h.store (Nat.lt_of_le_of_lt (Nat.sub_le _ 1) hin) 0
            have hindex : (p.store (c.checkedIdx - 1) 0).checkedIndex = c.checkedIdx := h.checked
            rw [hindex]
            exact ⟨rfl, (hcr.store hin 0).moveTo (c.checkedIdx + 1)⟩
          · exact ⟨rfl, h⟩
        · exact ih (h.moveTo _) (by
            simp only [HttpConn.moveTo_checkedIdx, HttpConn.moveTo_readIdx]
            omega) hfits

/-- `parse_line` -/
theorem parseLine (h : Mirror p c) (hfits : c.readIdx ≤ READ_BUFFER_SIZE) :
    c.parseLine.1 = p.parseLine.1.web ∧ Mirror p.parseLine.2 c.parseLine.2 := by
  have hleft : p.readIndex - p.checkedIndex = c.readIdx - c.checkedIdx := by
    rw [h.read, h.checked]
  rw [Parser.parseLine, hleft]
  exact h.parseLineLoop rfl hfits

theorem checkUrl (h : Mirror p c) (url : Nat) : SameCode (p.checkUrl url) (c.checkUrl url) := by
  have htarget : targetAt p.buffer url = targetAt c.readBuf url := by
    rw [targetAt, targetAt, strchr, strchr, cstr_sameBytes h.buffer, strpbrk_sameBytes h.buffer]
  rw [Parser.checkUrl, HttpConn.checkUrl, HttpConn.stripHost_eq, htarget]
  cases targetAt c.readBuf url with
  | none => exact ⟨iff_of_true rfl rfl, h.setUrl none⟩
  | some target =>
      dsimp only
      rw [h.buffer target]
      split
      · exact ⟨by simp, h.buffer, h.checked, h.read, h.start, rfl⟩
      · exact ⟨iff_of_true rfl rfl, h.setUrl target⟩

theorem parseVersion (h : Mirror p c) (url : Nat) :
    SameCode (p.parseVersion url) (c.parseVersion url) := by
  rw [Parser.parseVersion, HttpConn.parseVersion, strpbrk_sameBytes h.buffer]
  cases hfound : strpbrk c.readBuf url blanks with
  | none => exact ⟨iff_of_true rfl rfl, h.setVersion none⟩
  | some v =>
      have hcut := h.store (strpbrk_lt hfound) 0
      have hset := hcut.setVersion (v + 1 + strspn (c.store v 0).readBuf (v + 1) blanks)
      dsimp only
      rw [strspn_sameBytes hcut.buffer, hset.strAt]
      split
      · exact hset.checkUrl url
      · exact ⟨iff_of_true rfl rfl, hset⟩

/-- `parse_requestline` -/
theorem parseRequestline (h : Mirror p c) (text : Nat) :
    SameCode (p.parseRequestline text) (c.parseRequestLine text) := by
  rw [Parser.parseRequestline, HttpConn.parseRequestLine, strpbrk_sameBytes h.buffer]
  cases hfound : strpbrk c.readBuf text blanks with
  | none => exact ⟨iff_of_true rfl rfl, h.setUrl none⟩
  | some u =>
      have hcut := h.store (strpbrk_lt hfound) 0
      have hset := hcut.setUrl (u + 1 : Nat)
      have hget := hset.setMethod .get
      dsimp only
      rw [hset.strAt, strspn_sameBytes hget.buffer]
      split
      · exact (hget.setUrl _).parseVersion _
      · exact ⟨iff_of_true rfl rfl, hset⟩

/-- A header line that is not empty. -/
theorem parseHeaders (h : Mirror p c) {text : Nat} (hget : c.readBuf.get text ≠ 0) :
    (c.parseHeaders text).1 = .noRequest ∧ Mirror p (c.parseHeaders text).2 := by
  have hkeep : ∀ (linger : Bool) (length : Int) (host : Option Nat),
      Mirror p { c with linger := linger, contenLength := length, host := host } :=
    fun _ _ _ => ⟨h.buffer, h.checked, h.read, h.start, h.state⟩
  rw [HttpConn.parseHeaders, if_neg hget]
  split
  · dsimp only
    split
    · exact ⟨rfl, h⟩
    · exact ⟨rfl, hkeep _ _ _⟩
  · split
    · exact ⟨rfl, hkeep _ _ _⟩
    · split
      · exact ⟨rfl, hkeep _ _ _⟩
      · exact ⟨rfl, h⟩

/-- The body of the loop, once a line has been found. -/
theorem handleLine (h : Mirror p c) (fellOff : Option Webserver.HttpCode) :
    SameTurn p.handleLine.next (HttpConn.handleLine fellOff c) := by
  have hweb := h.state
  cases hstate : p.checkstate with
  | requestLine =>
      rw [hstate] at hweb
      obtain ⟨hcode, hmirror⟩ := h.markLine.parseRequestline p.startLine
      rw [h.start] at hcode hmirror
      rw [Parser.handleLine_requestLine hstate, HttpConn.handleLine_requestLine hweb, h.start]
      split
      · rename_i hbad
        rw [if_pos (hcode.mp hbad)]
        exact .rejected hmirror
      · rename_i hgood
        rw [if_neg (fun hbad => hgood (hcode.mpr hbad))]
        exact .again hmirror
  | header =>
      rw [hstate] at hweb
      have hbyte : p.buffer.get p.startLine = c.markLine.readBuf.get c.startLine := by
        rw [h.start]
        exact h.buffer _
      rw [Parser.handleLine_header hstate, HttpConn.handleLine_header hweb, hbyte]
      split
      · rename_i hblank
        rw [HttpConn.parseHeaders, if_pos hblank]
        split
        · exact .body rfl
        · exact .complete h.markLine
      · rename_i hfield
        obtain ⟨hcode, hmirror⟩ := h.markLine.parseHeaders hfield
        rw [hcode]
        exact .again hmirror

/-- One turn of each loop. -/
theorem turn (h : Mirror p c) (hfits : c.readIdx ≤ READ_BUFFER_SIZE)
    (fellOff : Option Webserver.HttpCode) : SameTurn p.contentTurn (HttpConn.pass fellOff c) := by
  obtain ⟨hstatus, hmirror⟩ := h.parseLine hfits
  rw [HttpConn.pass_of_scanning fellOff h.notContent, Parser.contentTurn]
  cases hfive : p.parseLine with
  | mk status mid =>
      cases hweb : c.parseLine with
      | mk status' mid' =>
          rw [hfive, hweb] at hstatus hmirror
          change status' = status.web at hstatus
          subst hstatus
          cases status with
          | lineOk => exact hmirror.handleLine fellOff
          | lineBad => exact .noLine mid mid'
          | lineOpen => exact .noLine mid mid'

/-- The whole calls, up to a body. -/
theorem run (h : Mirror p c) (hfits : c.readIdx ≤ READ_BUFFER_SIZE)
    (fellOff : Option Webserver.HttpCode) :
    Agree p.parseContent (HttpConn.readRequest fellOff c) ∨
      ∃ mid : HttpConn, mid.checkState = .content ∧
        HttpConn.readRequest fellOff c = HttpConn.readRequest fellOff mid := by
  induction p using Parser.contentLoop.induction generalizing c with
  | hturn p ih =>
      have hturn := h.turn hfits fellOff
      have houtput := HttpConn.pass_output fellOff c
      generalize hfive : p.contentTurn = five at hturn
      generalize hweb : HttpConn.pass fellOff c = web at hturn houtput
      cases hturn with
      | @again after after' hmirror =>
          have hread : after'.readIdx = c.readIdx := congrArg Webserver.Output.readIdx houtput
          have hnext := ih after hfive hmirror (hread ▸ hfits)
          rw [HttpConn.readRequest_again hweb, Parser.parseContent, Loop.result_again hfive]
          exact hnext
      | noLine p' c' =>
          rw [HttpConn.readRequest_done hweb, Parser.parseContent, Loop.result_done hfive]
          exact Or.inl ⟨by simp, by simp, by simp⟩
      | rejected hmirror =>
          rw [HttpConn.readRequest_done hweb, Parser.parseContent, Loop.result_done hfive]
          exact Or.inl ⟨by simp, by simp, fun _ => hmirror⟩
      | complete hmirror =>
          rw [HttpConn.readRequest_done hweb, Parser.parseContent, Loop.result_done hfive]
          exact Or.inl ⟨by simp, by simp, fun _ => hmirror⟩
      | body hcontent => exact Or.inr ⟨_, hcontent, HttpConn.readRequest_again hweb⟩

end Mirror

section Rejected

variable {fellOff : Option Webserver.HttpCode} {c : HttpConn}

/-- A call of `parse_request_line` that `process_read` makes returns
BAD_REQUEST. -/
def RequestLineRejected (fellOff : Option Webserver.HttpCode) (c : HttpConn) : Prop :=
  ∃ mid called text, HttpConn.Turns fellOff c mid ∧ mid.lineCall = some (called, text) ∧
    called.checkState = .requestLine ∧ (called.parseRequestLine text).1 = .badRequest

theorem parseHeaders_code (c : HttpConn) (text : Nat) :
    (c.parseHeaders text).1 ≠ .badRequest := by
  unfold HttpConn.parseHeaders
  split
  · split <;> exact nofun
  · split
    · dsimp only
      split <;> exact nofun
    · split
      · exact nofun
      · split <;> exact nofun

theorem readRequest_turns {mid : HttpConn} (hturns : HttpConn.Turns fellOff c mid) :
    HttpConn.readRequest fellOff c = HttpConn.readRequest fellOff mid := by
  induction hturns with
  | refl => rfl
  | tail _ hpass ih => exact ih.trans (HttpConn.readRequest_again hpass)

/-- A turn that returns BAD_REQUEST returns what `parse_request_line` did. -/
theorem pass_badRequest {after : HttpConn}
    (hpass : HttpConn.pass fellOff c = .done after (.code .badRequest)) :
    RequestLineRejected fellOff c := by
  cases hcall : c.lineCall with
  | none =>
      exfalso
      unfold HttpConn.lineCall at hcall
      unfold HttpConn.pass at hpass
      split at hpass
      · rename_i hcontent
        rw [HttpConn.handleLine_content hcontent] at hpass
        split at hpass <;> cases hpass
      · rename_i hcontent
        rw [if_neg hcontent] at hcall
        cases hline : c.parseLine with
        | mk status mid =>
            rw [hline] at hcall hpass
            cases status with
            | lineOk => cases hcall
            | lineBad => cases hpass
            | lineOpen => cases hpass
  | some call =>
      obtain ⟨called, text⟩ := call
      rcases HttpConn.pass_lineCall fellOff hcall with ⟨hstate, hturn⟩ | ⟨-, hturn⟩
      · refine ⟨c, called, text, .refl, hcall, hstate, ?_⟩
        by_contra hgood
        rw [hpass, if_neg hgood] at hturn
        cases hturn
      · rw [hpass, if_neg (parseHeaders_code called text)] at hturn
        split at hturn <;> cases hturn

/-- `process_read` returns BAD_REQUEST when it rejects the request line, and
only then. -/
theorem readRequest_badRequest_iff :
    (HttpConn.readRequest fellOff c).2 = .code .badRequest ↔ RequestLineRejected fellOff c := by
  constructor
  · intro hcode
    induction c using HttpConn.readRequest_induction fellOff with
    | hturn c ih =>
        cases hpass : HttpConn.pass fellOff c with
        | again after =>
            rw [HttpConn.readRequest_again hpass] at hcode
            obtain ⟨mid, called, text, hturns, hmid⟩ := ih after hpass hcode
            exact ⟨mid, called, text, .head hpass hturns, hmid⟩
        | done after result =>
            rw [HttpConn.readRequest_done hpass] at hcode
            cases hcode
            exact pass_badRequest hpass
  · rintro ⟨mid, called, text, hturns, hcall, hstate, hbad⟩
    rw [readRequest_turns hturns]
    rcases HttpConn.pass_lineCall fellOff hcall with ⟨-, hturn⟩ | ⟨hheader, -⟩
    · rw [if_pos hbad] at hturn
      rw [HttpConn.readRequest_done hturn]
    · cases hstate.symm.trans hheader

end Rejected

section Body

/-- The bytes hold a whole head, and a line of it is a Content-Length header. -/
def HasContentLength (data : List Byte) : Prop :=
  ∃ request headers blank body, IsHead request headers blank ∧
    data = headBytes request headers blank ++ body ∧
    ∃ line ∈ headers, isNamed (ascii "Content-Length:") (cText line) = true

/-- Header lines without the name leave the length at 0. -/
theorem contenLength_of_none {headers : List (List Byte)}
    (hnone : ∀ line ∈ headers, isNamed (ascii "Content-Length:") (cText line) ≠ true) :
    (fieldsOf headers).contenLength = 0 := by
  have hlast : lastNamed (ascii "Content-Length:") (headers.map cText) = none := by
    rw [lastNamed, List.getLast?_eq_none_iff, List.filter_eq_nil_iff, List.forall_mem_map]
    exact hnone
  have hfold := HeaderFields.foldl_contenLength .initial (headers.map cText)
  rw [hlast, List.foldl_map] at hfold
  exact hfold

/-- Without a Content-Length header no body is waited for. -/
theorem not_awaiting (fellOff : Option Webserver.HttpCode) (c : HttpConn) {data : List Byte}
    (hfit : data.length ≤ READ_BUFFER_SIZE) (hnone : ¬ HasContentLength data) :
    ¬ ∃ mid : HttpConn, mid.checkState = .content ∧
      HttpConn.readRequest fellOff (HttpConn.recvBytes data c.init) =
        HttpConn.readRequest fellOff mid := by
  rintro ⟨mid, hcontent, hsame⟩
  obtain ⟨hcode, hstate⟩ : (HttpConn.readRequest fellOff mid).2 ≠ .code .noRequest ∧
      (HttpConn.readRequest fellOff mid).1.checkState = .content :=
    HttpConn.readRequest_content hcontent
  rcases head_cases data with ⟨lines, rest, hstart, hopen, rfl⟩ |
    ⟨line, rest, hline, hbad, rfl⟩ | ⟨request, headers, blank, body, hhead, rfl⟩
  · obtain ⟨last, stop, hread, -⟩ := HttpConn.readRequest_start fellOff c hstart hopen hfit
    rw [← hsame, hread] at hcode
    exact hcode rfl
  · obtain ⟨last, hread, hconsumed⟩ := HttpConn.readRequest_bad fellOff c hline hbad hfit
    rw [← hsame, hread] at hstate
    exact hconsumed.scanning.notContent hstate
  · obtain ⟨last, htracks, -, hread⟩ := HttpConn.readRequest_head fellOff c hhead hfit
    have hlength : (fieldsOf headers).contenLength = 0 := by
      apply contenLength_of_none
      intro line hline hnamed
      exact hnone ⟨request, headers, blank, body, hhead, rfl, line, hline, hnamed⟩
    rw [if_pos hlength] at hread
    rw [← hsame, hread] at hstate
    exact htracks.consumed.scanning.notContent hstate

end Body

/-- The two parsers agree on all that has no Content-Length header and fits
into both buffers: on the code, and on what they leave behind. -/
theorem parsers_agree (fellOff : Option Webserver.HttpCode) (c : HttpConn) {data : List Byte}
    (hfit : data.length < READ_BUFFER_SIZE) (hnone : ¬ HasContentLength data) :
    Agree (Parser.start.receive data).parseContent
        (HttpConn.readRequest fellOff (HttpConn.recvBytes data c.init)) ∧
      ((Parser.start.receive data).parseContent.2 = some .badRequest ↔
        RequestLineRejected fellOff (HttpConn.recvBytes data c.init)) := by
  have hle := Nat.le_of_lt hfit
  have hread : (HttpConn.recvBytes data c.init).readIdx ≤ READ_BUFFER_SIZE := by
    change 0 + data.length ≤ READ_BUFFER_SIZE
    omega
  have hagree := ((Mirror.init c hle).run hread fellOff).resolve_right
    (not_awaiting fellOff c hle hnone)
  exact ⟨hagree, hagree.badRequest.trans readRequest_badRequest_iff⟩

/-- A request line and the empty line. -/
theorem root_no_contentLength : ¬ HasContentLength (rootRequest ++ CR :: LF :: [CR, LF]) := by
  rintro ⟨request, headers, blank, body, hhead, hbytes, line, hline, -⟩
  have hlines := hhead.isLine
  rw [List.forall_mem_cons] at hlines
  cases headers with
  | nil => cases hline
  | cons header headers =>
      simp only [headBytes, List.cons_append, joinLines_cons, List.append_assoc] at hbytes
      obtain ⟨-, hrest⟩ := first_line_unique (by decide) hlines.1 hbytes
      -- what follows the request line starts with an empty line
      obtain ⟨hempty, -⟩ := first_line_unique isLine_nil
        (hlines.2 header (by simp)) (by simpa using hrest)
      exact hhead.headers header (by simp) (by rw [← hempty]; rfl)

theorem parsers_agree_root :
    Agree (Parser.start.receive (rootRequest ++ CR :: LF :: [CR, LF])).parseContent
      (HttpConn.readRequest none
        (HttpConn.recvBytes (rootRequest ++ CR :: LF :: [CR, LF]) HttpConn.idle.init)) := by
  have hlen : (rootRequest ++ CR :: LF :: [CR, LF]).length = 18 := by decide
  have hfit : (rootRequest ++ CR :: LF :: [CR, LF]).length < READ_BUFFER_SIZE := by
    rw [hlen]
    decide
  exact (parsers_agree none .idle hfit root_no_contentLength).1

end LinuxLearning.Chapter5
