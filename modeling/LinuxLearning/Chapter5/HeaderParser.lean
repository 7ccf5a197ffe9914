/-
The request parser of http_header_parser.cpp: the same scanner and line
parsers as the web server's, on variables of `main` instead of members, with
two states instead of three.  `parse_content` has no return behind its loop.
-/
import LinuxLearning.Lib.Loop
import LinuxLearning.Webserver.Request

namespace LinuxLearning.Chapter5

open CString Lines
open LinuxLearning.Webserver (blanks slash targetAt)

def BUFFER_SIZE : Nat := 4096

inductive CheckState where
  | requestLine | header
deriving Repr, DecidableEq

inductive LineStatus where
  | lineOk | lineBad | lineOpen
deriving Repr, DecidableEq

inductive HttpCode where
  | noRequest | getRequest | badRequest | forbiddenRequest | internalError | closedConnection
deriving Repr, DecidableEq

/-- The variables of `main` that the parser gets by reference. -/
structure Parser where
  buffer : Buffer BUFFER_SIZE
  checkedIndex : Nat
  readIndex : Nat
  startLine : Nat
  checkstate : CheckState

/-- One turn of the loop of `parse_content`: round again, or a return. -/
inductive Turn where
  | again (p : Parser)
  | done (p : Parser) (code : HttpCode)

/-- How the loop goes on. -/
def Turn.next : Turn → Parser ⊕ (Parser × Option HttpCode)
  | .again p => .inl p
  | .done p code => .inr (p, some code)

namespace Parser

/-- The variables before the first `recv`. -/
def start : Parser where
  buffer := Buffer.zero BUFFER_SIZE
  checkedIndex := 0
  readIndex := 0
  startLine := 0
  checkstate := .requestLine

/-- The bytes of one `recv`. -/
def receive (p : Parser) (data : List Byte) : Parser :=
  { p with buffer := p.buffer.blit p.readIndex data, readIndex := p.readIndex + data.length }

/-- `buffer[i] = value` -/
def store (p : Parser) (i : Nat) (value : Byte) : Parser :=
  { p with buffer := p.buffer.poke i value }

/-- `checked_index = k` -/
def moveTo (p : Parser) (k : Nat) : Parser := { p with checkedIndex := k }

/-- The loop of `parse_line`; the first argument counts the bytes for which
`checked_index < read_index` still holds. -/
def parseLineLoop : Nat → Parser → LineStatus × Parser
  | 0, p => (.lineOpen, p)
  | left + 1, p =>
      let temp := p.buffer.get p.checkedIndex
      if temp = CR then
        if p.checkedIndex + 1 = p.readIndex then (.lineOpen, p)
        else if p.buffer.get (p.checkedIndex + 1) = LF then
          let p := (p.store p.checkedIndex 0).moveTo (p.checkedIndex + 1)
          let p := (p.store p.checkedIndex 0).moveTo (p.checkedIndex + 1)
          (.lineOk, p)
        else (.lineBad, p)
      else if temp = LF then
        if p.checkedIndex > 1 ∧ p.buffer.get (p.checkedIndex - 1) = CR then
          let p := p.store (p.checkedIndex - 1) 0
          let p := (p.store p.checkedIndex 0).moveTo (p.checkedIndex + 1)
          (.lineOk, p)
        else (.lineBad, p)
      else parseLineLoop left (p.moveTo (p.checkedIndex + 1))

/-- `parse_line` -/
def parseLine (p : Parser) : LineStatus × Parser :=
  parseLineLoop (p.readIndex - p.checkedIndex) p

/-- `parse_requestline` from the check of the target on. -/
def checkUrl (p : Parser) (url : Nat) : HttpCode × Parser :=
  match targetAt p.buffer url with
  | none => (.badRequest, p)
  | some url =>
      if p.buffer.get url = slash then (.noRequest, { p with checkstate := .header })
      else (.badRequest, p)

/-- `parse_requestline` from the search for the version on. -/
def parseVersion (p : Parser) (url : Nat) : HttpCode × Parser :=
  match strpbrk p.buffer url blanks with
  | none => (.badRequest, p)
  | some v =>
      let p := p.store v 0
      let version := v + 1 + strspn p.buffer (v + 1) blanks
      if strcaseEq (cstr p.buffer version) (ascii "HTTP/1.1") then p.checkUrl url
      else (.badRequest, p)

/-- `parse_requestline` -/
def parseRequestline (p : Parser) (temp : Nat) : HttpCode × Parser :=
  match strpbrk p.buffer temp blanks with
  | none => (.badRequest, p)
  | some u =>
      let p := p.store u 0
      if strcaseEq (cstr p.buffer temp) (ascii "GET") then
        p.parseVersion (u + 1 + strspn p.buffer (u + 1) blanks)
      else (.badRequest, p)

/-- `parse_headers`; a line that is not empty is only printed. -/
def parseHeaders (p : Parser) (temp : Nat) : HttpCode :=
  if p.buffer.get temp = 0 then .getRequest else .noRequest

/-- `start_line = checked_index` -/
def markLine (p : Parser) : Parser := { p with startLine := p.checkedIndex }

/-- The body of the loop of `parse_content`. -/
def handleLine (p : Parser) : Turn :=
  let temp := p.startLine
  let p := p.markLine
  match p.checkstate with
  | .requestLine =>
      let (retcode, p) := p.parseRequestline temp
      if retcode = .badRequest then .done p .badRequest else .again p
  | .header =>
      let retcode := p.parseHeaders temp
      if retcode = .badRequest then .done p .badRequest
      else if retcode = .getRequest then .done p .getRequest
      else .again p

/-- The call of `parse_line` in the loop condition, and the body.  Where the
function runs off its end there is no code. -/
def contentTurn (p : Parser) : Parser ⊕ (Parser × Option HttpCode) :=
  match p.parseLine with
  | (.lineOk, p) => p.handleLine.next
  | (.lineBad, p) => .inr (p, none)
  | (.lineOpen, p) => .inr (p, none)

/-- The bytes the loop can still run over. -/
def unchecked (p : Parser) : Nat := p.readIndex - p.checkedIndex

/-- `parse_line` moves on when it has found a line. -/
theorem parseLineLoop_ok {left : Nat} {p after : Parser}
    (hloop : parseLineLoop left p = (.lineOk, after)) :
    0 < left ∧ after.readIndex = p.readIndex ∧ p.checkedIndex < after.checkedIndex := by
  induction left generalizing p with
  | zero => simp [parseLineLoop] at hloop
  | succ left ih =>
      refine ⟨Nat.succ_pos left, ?_⟩
      simp only [parseLineLoop] at hloop
      split at hloop
      · split at hloop
        · simp at hloop
        · split at hloop
          · rw [Prod.mk.injEq] at hloop
            rw [← hloop.2]
            exact ⟨rfl, Nat.lt_add_of_pos_right Nat.two_pos⟩
          · simp at hloop
      · split at hloop
        · split at hloop
          · rw [Prod.mk.injEq] at hloop
            rw [← hloop.2]
            exact ⟨rfl, Nat.lt_succ_self _⟩
          · simp at hloop
        · obtain ⟨-, hread, hchecked⟩ := ih hloop
          exact ⟨hread, Nat.lt_of_succ_lt hchecked⟩

/-- What the parser of a line leaves alone. -/
structure SameIndices (p after : Parser) : Prop where
  checkedIndex : after.checkedIndex = p.checkedIndex
  readIndex : after.readIndex = p.readIndex
  startLine : after.startLine = p.startLine

theorem checkUrl_indices (p : Parser) (url : Nat) : SameIndices p (p.checkUrl url).2 := by
  unfold checkUrl
  split
  · exact ⟨rfl, rfl, rfl⟩
  · split <;> exact ⟨rfl, rfl, rfl⟩

theorem parseVersion_indices (p : Parser) (url : Nat) : SameIndices p (p.parseVersion url).2 := by
  unfold parseVersion
  split
  · exact ⟨rfl, rfl, rfl⟩
  · dsimp only
    split
    · obtain ⟨hchecked, hread, hstart⟩ := checkUrl_indices (p.store _ 0) url
      exact ⟨hchecked, hread, hstart⟩
    · exact ⟨rfl, rfl, rfl⟩

theorem parseRequestline_indices (p : Parser) (temp : Nat) :
    SameIndices p (p.parseRequestline temp).2 := by
  unfold parseRequestline
  split
  · exact ⟨rfl, rfl, rfl⟩
  · dsimp only
    split
    · obtain ⟨hchecked, hread, hstart⟩ := parseVersion_indices (p.store _ 0) _
      exact ⟨hchecked, hread, hstart⟩
    · exact ⟨rfl, rfl, rfl⟩

theorem handleLine_requestLine {p : Parser} (hstate : p.checkstate = .requestLine) :
    handleLine p =
      if (p.markLine.parseRequestline p.startLine).1 = .badRequest then
        .done (p.markLine.parseRequestline p.startLine).2 .badRequest
      else .again (p.markLine.parseRequestline p.startLine).2 := by
  have hmark : p.markLine.checkstate = .requestLine := hstate
  simp only [handleLine, hmark]

theorem handleLine_header {p : Parser} (hstate : p.checkstate = .header) :
    handleLine p =
      if p.buffer.get p.startLine = 0 then .done p.markLine .getRequest
      else .again p.markLine := by
  have hmark : p.markLine.checkstate = .header := hstate
  have hbuffer : p.markLine.buffer = p.buffer := rfl
  simp only [handleLine, hmark, parseHeaders, hbuffer]
  split <;> rfl

theorem handleLine_again {p after : Parser} (hturn : p.handleLine = .again after) :
    after.checkedIndex = p.checkedIndex ∧ after.readIndex = p.readIndex := by
  cases hstate : p.checkstate with
  | requestLine =>
      rw [handleLine_requestLine hstate] at hturn
      split at hturn
      · cases hturn
      · cases hturn
        obtain ⟨hchecked, hread, -⟩ := parseRequestline_indices p.markLine p.startLine
        exact ⟨hchecked, hread⟩
  | header =>
      rw [handleLine_header hstate] at hturn
      split at hturn
      · cases hturn
      · cases hturn
        exact ⟨rfl, rfl⟩

/-- A turn that goes round again has consumed received bytes. -/
theorem contentTurn_unchecked {p after : Parser} (hturn : p.contentTurn = .inl after) :
    after.unchecked < p.unchecked := by
  unfold contentTurn at hturn
  split at hturn
  · rename_i mid hline
    obtain ⟨hpos, hread, hchecked⟩ := parseLineLoop_ok hline
    cases hnext : mid.handleLine with
    | again next =>
        rw [hnext] at hturn
        cases hturn
        obtain ⟨hchecked', hread'⟩ := handleLine_again hnext
        unfold unchecked
        omega
    | done next code =>
        rw [hnext] at hturn
        cases hturn
  · cases hturn
  · cases hturn

/-- The loop of `parse_content`. -/
def contentLoop : Loop Parser (Parser × Option HttpCode) where
  turn := contentTurn
  measure := unchecked
  decreases := contentTurn_unchecked

/-- `parse_content`, with the code it returns, if it returns one. -/
def parseContent (p : Parser) : Parser × Option HttpCode := contentLoop.result p

end Parser

end LinuxLearning.Chapter5
