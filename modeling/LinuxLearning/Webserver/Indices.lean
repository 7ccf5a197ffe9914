/-
The indices into `m_read_buf`.  Every call on a connection keeps them in
order, a turn that closes a line moves the scanner by two bytes at least, and
the line is handed on as a string that ends inside the checked bytes.
-/
import Mathlib.Logic.Relation
import LinuxLearning.Lib.Transition
import LinuxLearning.Webserver.Chunks
import LinuxLearning.Webserver.Read

namespace LinuxLearning.Webserver

open CString

namespace HttpConn

/-- `0 <= m_start_line <= m_checked_idx <= m_read_idx <= READ_BUFFER_SIZE` -/
structure Ordered (c : HttpConn) : Prop where
  start_le : c.startLine ≤ c.checkedIdx
  checked_le : c.checkedIdx ≤ c.readIdx
  fits : c.readIdx ≤ READ_BUFFER_SIZE

/-- The indices are in order, and the scanner can go on unless a body is
awaited. -/
structure Settled (c : HttpConn) : Prop where
  ordered : c.Ordered
  scanning : c.checkState ≠ .content → c.Scanning

/-- The connection after some turns of the loop of `process_read` on `c`. -/
def Turns (fellOff : Option HttpCode) (c mid : HttpConn) : Prop :=
  Relation.ReflTransGen (fun before after => pass fellOff before = .again after) c mid

/-- The call of `parse_request_line` or `parse_headers` a turn makes, if it
makes one: the connection it finds and its text pointer. -/
def lineCall (c : HttpConn) : Option (HttpConn × Nat) :=
  if c.checkState = .content then none
  else match parseLine c with
    | (.lineOk, c) => some (c.markLine, c.startLine)
    | (.lineBad, _) => none
    | (.lineOpen, _) => none

/-- The text lies in the buffer and ends below `m_checked_idx`. -/
def TextClosed (c : HttpConn) (text : Nat) : Prop :=
  text < READ_BUFFER_SIZE ∧ ∃ e, text ≤ e ∧ e < c.checkedIdx ∧ c.readBuf.get e = 0

/-- The store of `parse_content`, if `process_read` gets to it, stays inside
`m_read_buf`. -/
def ContentStoreInside (fellOff : Option HttpCode) (c : HttpConn) : Prop :=
  ∀ mid, Turns fellOff c mid → mid.checkState = .content →
    toInt32 (mid.contenLength + mid.checkedIdx) ≤ mid.readIdx →
    0 ≤ mid.startLine + mid.contenLength ∧
      mid.startLine + mid.contenLength < READ_BUFFER_SIZE

theorem parseLineLoop_checkState (left : Nat) (c : HttpConn) :
    (parseLineLoop left c).2.checkState = c.checkState := by
  induction left generalizing c with
  | zero => rfl
  | succ left ih =>
      simp only [parseLineLoop]
      split
      · split
        · rfl
        · split <;> rfl
      · split
        · split <;> rfl
        · exact ih _

theorem lineCall_some {c called : HttpConn} {text : Nat}
    (hcall : lineCall c = some (called, text)) :
    c.checkState ≠ .content ∧ ∃ after, parseLine c = (.lineOk, after) ∧
      called = after.markLine ∧ text = after.startLine := by
  unfold lineCall at hcall
  split at hcall
  · cases hcall
  · rename_i hcontent
    refine ⟨hcontent, ?_⟩
    cases hline : parseLine c with
    | mk status after =>
        rw [hline] at hcall
        cases status with
        | lineOk =>
            obtain ⟨rfl, rfl⟩ := Prod.mk.inj (Option.some.inj hcall)
            exact ⟨after, rfl, rfl, rfl⟩
        | lineBad => cases hcall
        | lineOpen => cases hcall

/-- What a turn does with its line, in the words of the call it makes. -/
theorem pass_lineCall (fellOff : Option HttpCode) {c called : HttpConn} {text : Nat}
    (hcall : lineCall c = some (called, text)) :
    (called.checkState = .requestLine ∧ pass fellOff c =
      if (called.parseRequestLine text).1 = .badRequest then
        .done (called.parseRequestLine text).2 (.code .badRequest)
      else .again (called.parseRequestLine text).2) ∨
    (called.checkState = .header ∧ pass fellOff c =
      if (called.parseHeaders text).1 = .badRequest then
        .done (called.parseHeaders text).2 (.code .badRequest)
      else if (called.parseHeaders text).1 = .getRequest then
        .done (called.parseHeaders text).2 .doRequest
      else .again (called.parseHeaders text).2) := by
  obtain ⟨hcontent, after, hline, rfl, rfl⟩ := lineCall_some hcall
  have hsame : after.checkState = c.checkState := by
    have hstate := parseLineLoop_checkState (c.readIdx - c.checkedIdx) c
    rw [← parseLine, hline] at hstate
    exact hstate
  rw [pass_of_scanning fellOff hcontent, hline, onLine]
  cases hstate : after.checkState with
  | requestLine => exact Or.inl ⟨hstate, handleLine_requestLine hstate⟩
  | header => exact Or.inr ⟨hstate, handleLine_header hstate⟩
  | content => exact absurd (hsame.symm.trans hstate) hcontent

/-- A line the scanner closes is two bytes longer than its text. -/
theorem Scanning.lineCall {c called : HttpConn} {text : Nat} (h : c.Scanning)
    (hcall : lineCall c = some (called, text)) :
    ∃ e, c.checkedIdx ≤ e ∧ e + 1 < c.readIdx ∧ called = (c.endLine e).markLine ∧
      text = c.startLine := by
  obtain ⟨-, after, hline, rfl, rfl⟩ := lineCall_some hcall
  obtain ⟨data, hpending⟩ := exists_pending h.checked_le h.fits
  rcases parseLine_cases h.notAfterCr hpending with ⟨text, rest, htext, rfl, hok⟩ |
    ⟨text, rest, -, -, -, hopen⟩ | ⟨text, rest, -, -, -, hbad⟩
  · have hlen := hpending.2
    simp only [List.length_append, List.length_cons] at hlen
    have hafter : after = c.endLine (c.checkedIdx + text.length) :=
      (Prod.mk.inj (hline.symm.trans hok)).2
    subst hafter
    exact ⟨c.checkedIdx + text.length, Nat.le_add_right _ _, by omega, rfl, rfl⟩
  · cases hline.symm.trans hopen
  · cases hline.symm.trans hbad

/-- The scanner advances by two at least, and the text handed on is closed. -/
theorem Scanning.lineCall_closed {c called : HttpConn} {text : Nat} (h : c.Scanning)
    (hcall : HttpConn.lineCall c = some (called, text)) :
    c.checkedIdx + 2 ≤ called.checkedIdx ∧ called.TextClosed text := by
  obtain ⟨e, hle, he, rfl, rfl⟩ := h.lineCall hcall
  have hat := h.atLine hle he
  have hchecked := hat.checked_eq
  have htext := hat.closed.text_le
  have hfits := h.fits
  refine ⟨by omega, by omega, e, htext, by omega, hat.closed.nul⟩

theorem Scanning.settled {c : HttpConn} (h : c.Scanning) : c.Settled :=
  ⟨⟨h.start_le, h.checked_le, h.fits⟩, fun _ => h⟩

theorem AtLine.settled_headers {c : HttpConn} {text e : Nat} (h : c.AtLine text e) :
    (c.parseHeaders text).2.Settled := by
  obtain ⟨hread, hchecked, hstart, -⟩ := (parseHeaders_step h.closed).frame
  refine ⟨⟨?_, ?_, ?_⟩, h.headers⟩
  · rw [hstart, hchecked, h.start_eq, h.checked_eq]
  · rw [hchecked, hread, h.checked_eq]
    exact h.checked_le
  · rw [hread]
    exact h.closed.fits

theorem Ordered.settled_content {c : HttpConn} (h : c.Ordered)
    (hcontent : c.checkState = .content) (text : Nat) :
    (c.markLine.parseContent text).2.Settled := by
  have hstate : (c.markLine.parseContent text).2.checkState = .content := by
    unfold parseContent
    split <;> exact hcontent
  refine ⟨?_, fun hne => absurd hstate hne⟩
  unfold parseContent
  split <;> exact ⟨Nat.le_refl _, h.checked_le, h.fits⟩

/-- A turn keeps a connection settled. -/
theorem Settled.pass {c : HttpConn} (h : c.Settled) (fellOff : Option HttpCode) :
    (pass fellOff c).conn.Settled := by
  by_cases hcontent : c.checkState = .content
  · rw [HttpConn.pass, if_pos hcontent, handleLine_content hcontent]
    split <;> exact h.ordered.settled_content hcontent _
  · have hscan := h.scanning hcontent
    rcases hscan.pass_cases fellOff with ⟨e, hle, he, hpass, -⟩ | ⟨stop, hpass, hstop, -⟩
    · have hat := hscan.atLine hle he
      rw [hpass]
      cases hstate : (c.endLine e).checkState with
      | requestLine =>
          rw [handleLine_requestLine hstate]
          split <;> exact hat.requestLine.settled
      | header =>
          rw [handleLine_header hstate]
          split
          · exact hat.settled_headers
          · split <;> exact hat.settled_headers
      | content => exact absurd hstate hcontent
    · rw [hpass]
      exact hstop.settled

/-- A turn that goes round again has consumed two bytes at least. -/
theorem Settled.pass_again {fellOff : Option HttpCode} {c after : HttpConn} (h : c.Settled)
    (hpass : HttpConn.pass fellOff c = .again after) : after.unchecked + 2 ≤ c.unchecked := by
  have hcontent : c.checkState ≠ .content := by
    intro hcontent
    rw [HttpConn.pass, if_pos hcontent, handleLine_content hcontent] at hpass
    split at hpass <;> cases hpass
  rcases (h.scanning hcontent).pass_cases fellOff with ⟨e, hle, he, hline, -⟩ | ⟨stop, hdone, -⟩
  · have hframe := handleLine_again_frame (hline.symm.trans hpass)
    have hread : after.readIdx = c.readIdx := hframe.readIdx
    have hchecked : after.checkedIdx = e + 2 := hframe.checkedIdx
    simp only [unchecked]
    omega
  · cases hdone.symm.trans hpass

theorem Settled.turns {fellOff : Option HttpCode} {c mid : HttpConn} (h : c.Settled)
    (hturns : Turns fellOff c mid) : mid.Settled := by
  induction hturns with
  | refl => exact h
  | tail _ hpass ih =>
      have hafter := ih.pass fellOff
      rw [hpass] at hafter
      exact hafter

/-- The loop keeps a connection settled. -/
theorem Settled.readRequest {c : HttpConn} (h : c.Settled) (fellOff : Option HttpCode) :
    (readRequest fellOff c).1.Settled := by
  induction c using readRequest_induction fellOff with
  | hturn c ih =>
      have hafter := h.pass fellOff
      cases hpass : HttpConn.pass fellOff c with
      | again after =>
          rw [hpass] at hafter
          rw [readRequest_again hpass]
          exact ih after hpass hafter
      | done after result =>
          rw [hpass] at hafter
          rw [readRequest_done hpass]
          exact hafter

theorem Settled.doRequest {c : HttpConn} (h : c.Settled) (fs : List Byte → FsAnswer) :
    (c.doRequest fs).2.1.Settled where
  ordered := by
    rw [doRequest_shape]
    exact ⟨h.ordered.start_le, h.ordered.checked_le, h.ordered.fits⟩
  scanning hcontent := by
    rw [doRequest_shape] at hcontent
    exact (h.scanning hcontent).doRequest fs

theorem Settled.processRead {c : HttpConn} (h : c.Settled) (fs : List Byte → FsAnswer)
    (fellOff : Option HttpCode) : (c.processRead fs fellOff).2.1.Settled := by
  have hread := h.readRequest fellOff
  rw [HttpConn.processRead]
  cases hresult : HttpConn.readRequest fellOff c with
  | mk mid result =>
      rw [hresult] at hread
      cases result with
      | code ret => exact hread
      | doRequest => exact hread.doRequest fs

theorem Settled.recv {c : HttpConn} (h : c.Settled) {more : List Byte}
    (hfit : c.readIdx + more.length ≤ READ_BUFFER_SIZE) : (recvBytes more c).Settled where
  ordered := ⟨h.ordered.start_le,
    Nat.le_trans h.ordered.checked_le (Nat.le_add_right _ _), hfit⟩
  scanning hcontent := (h.scanning hcontent).recv hfit

theorem Settled.read {c after : HttpConn} (h : c.Settled) {outcomes : List RecvOutcome}
    {ok : Bool} (hread : c.read outcomes = some (ok, after)) : after.Settled := by
  have hfit := read_fits h.ordered.fits hread
  obtain ⟨data, rfl⟩ := read_recv hread
  exact h.recv hfit

/-- The loop makes no more turns than there are pairs of unchecked bytes, and
one more. -/
theorem Settled.readLoop_isSome {c : HttpConn} (h : c.Settled) (fellOff : Option HttpCode) :
    ∃ fuel, 2 * fuel ≤ c.unchecked + 2 ∧ (readLoop fellOff fuel c).isSome := by
  induction c using readRequest_induction fellOff with
  | hturn c ih =>
      cases hpass : HttpConn.pass fellOff c with
      | done after result =>
          refine ⟨1, Nat.le_add_left _ _, ?_⟩
          rw [readLoop, hpass]
          rfl
      | again after =>
          have hafter := h.pass fellOff
          rw [hpass] at hafter
          obtain ⟨fuel, hfuel, hends⟩ := ih after hpass hafter
          have hless := h.pass_again hpass
          refine ⟨fuel + 1, by omega, ?_⟩
          rw [readLoop, hpass]
          exact hends

end HttpConn

/-- A call on a connection by whoever owns it. -/
inductive ParserCall where
  | init
  | read (outcomes : List RecvOutcome)
  | processRead (fs : List Byte → FsAnswer) (fellOff : Option HttpCode)

/-- One call on a connection. -/
inductive ParserStep (c : HttpConn) : ParserCall → HttpConn → Prop
  | init : ParserStep c .init c.init
  | read {outcomes : List RecvOutcome} {ok : Bool} {after : HttpConn}
      (hread : c.read outcomes = some (ok, after)) : ParserStep c (.read outcomes) after
  | processRead {fs : List Byte → FsAnswer} {fellOff : Option HttpCode}
      (hinside : c.ContentStoreInside fellOff) :
      ParserStep c (.processRead fs fellOff) (c.processRead fs fellOff).2.1

/-- The calls on one connection; the first one is `init`. -/
def parserSystem : TransitionSystem HttpConn ParserCall where
  start c := ∃ before : HttpConn, c = before.init
  step := ParserStep

theorem parser_settled {c : HttpConn} (hreach : parserSystem.Reachable c) : c.Settled := by
  refine hreach.invariant ?_ ?_
  · rintro _ ⟨before, rfl⟩
    exact (HttpConn.init_scanning before).settled
  · intro before label after hbefore hstep
    cases hstep with
    | init => exact (HttpConn.init_scanning before).settled
    | read hread => exact hbefore.read hread
    | processRead _ => exact hbefore.processRead _ _

/-- What holds of the indices of a connection on which `process_read` is
called: they are in order, and stay so in the loop; the loop ends; a turn that
extracts a line moves `m_checked_idx` by two at least, and the text handed to
a line parser ends below it. -/
structure IndicesOrdered (fellOff : Option HttpCode) (c : HttpConn) : Prop where
  ordered : c.Ordered
  turns : ∀ mid, c.Turns fellOff mid → mid.Ordered
  ends : ∃ fuel, 2 * fuel ≤ c.unchecked + 2 ∧ (c.readLoop fellOff fuel).isSome
  advance : ∀ mid called text, c.Turns fellOff mid → mid.lineCall = some (called, text) →
    mid.checkedIdx + 2 ≤ called.checkedIdx ∧ called.TextClosed text

/-- The indices are in order in every state the calls on a connection reach. -/
theorem indices_ordered {c : HttpConn} (hreach : parserSystem.Reachable c)
    (fellOff : Option HttpCode) : IndicesOrdered fellOff c := by
  have hsettled := parser_settled hreach
  refine ⟨hsettled.ordered, fun mid hturns => (hsettled.turns hturns).ordered,
    hsettled.readLoop_isSome fellOff, ?_⟩
  intro mid called text hturns hcall
  have hcontent := (HttpConn.lineCall_some hcall).1
  exact ((hsettled.turns hturns).scanning hcontent).lineCall_closed hcall

/-- Once half a request has been received. -/
theorem indices_ordered_received :
    IndicesOrdered none (HttpConn.recvBytes rootRequest HttpConn.idle.init) := by
  have hread : HttpConn.idle.init.read ([rootRequest].map RecvOutcome.data ++ [.eagain]) =
      some (true, HttpConn.recvBytes [rootRequest].flatten HttpConn.idle.init) :=
    HttpConn.read_chunks (by decide) (by decide) (by decide)
  have hstart : parserSystem.Reachable HttpConn.idle.init := .start ⟨HttpConn.idle, rfl⟩
  exact indices_ordered (hstart.step (.read hread)) none

end LinuxLearning.Webserver
