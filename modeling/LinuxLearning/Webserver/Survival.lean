/-
The values that the parser keeps as pointers.  `m_url`, `m_version` and
`m_host` point into the buffer that later reads and later lines write to; what
stands there when a line has been parsed still stands there when `do_request`
is called.
-/
import LinuxLearning.Webserver.HeaderOrder
import LinuxLearning.Webserver.Indices

namespace LinuxLearning.Webserver

open CString Lines

/-- Bytes are received, the loop of `process_read` goes round once more, or a
call returns NO_REQUEST. -/
inductive ParsingLabel where
  | recv (more : List Byte)
  | turn
  | wait

inductive ParsingStep (fellOff : Option HttpCode) (c : HttpConn) :
    ParsingLabel → HttpConn → Prop
  | recv {more : List Byte} (hfit : c.readIdx + more.length ≤ READ_BUFFER_SIZE) :
      ParsingStep fellOff c (.recv more) (HttpConn.recvBytes more c)
  | turn {after : HttpConn} (hpass : c.pass fellOff = .again after) :
      ParsingStep fellOff c .turn after
  | wait {after : HttpConn} (hpass : c.pass fellOff = .done after (.code .noRequest)) :
      ParsingStep fellOff c .wait after

/-- One request on a connection, from `init` on. -/
def parsing (fellOff : Option HttpCode) : TransitionSystem HttpConn ParsingLabel where
  start c := ∃ before : HttpConn, c = before.init
  step := ParsingStep fellOff

/-- The calls of `parse_request_line` and `parse_headers` in a run, each with
the connection it finds and its text pointer. -/
def lineCalls (history : List (HttpConn × ParsingLabel)) : List (HttpConn × Nat) :=
  history.filterMap fun entry => match entry.2 with
    | .turn => entry.1.lineCall
    | .recv _ | .wait => none

/-- The last of these calls that is about a Host line. -/
def lastHost (calls : List (HttpConn × Nat)) : Option (HttpConn × Nat) :=
  (calls.filter fun call => isNamed (ascii "Host:") (call.1.strAt call.2)).getLast?

/-- None of these calls is about a Content-Length line. -/
def WithoutLength (calls : List (HttpConn × Nat)) : Prop :=
  ∀ call ∈ calls, isNamed (ascii "Content-Length:") (call.1.strAt call.2) = false

namespace HttpConn

/-- A pointer that `parsed` has set is unchanged in `c`, and so is the string
it points to. -/
def Holds (parsed c : HttpConn) (field : HttpConn → Option Nat) : Prop :=
  ∃ p, field parsed = some p ∧ field c = some p ∧ c.Points (some p) (some (parsed.strAt p))

/-- `parse_request_line` has found a target that starts with '/', and the
version. -/
def Parsed (called : HttpConn) (text : Nat) : Prop :=
  (∀ p ∈ (called.parseRequestLine text).2.url,
    ((called.parseRequestLine text).2.strAt p).head? = some slash) ∧
  ∀ q ∈ (called.parseRequestLine text).2.version,
    strcaseEq ((called.parseRequestLine text).2.strAt q) (ascii "HTTP/1.1") = true

/-- The connection keeps what the calls have found. -/
structure Surviving (calls : List (HttpConn × Nat)) (c : HttpConn) : Prop where
  scanning : c.Scanning
  noLength : c.contenLength = 0
  kept : match calls with
    | [] => c.checkState = .requestLine ∧ c.host = none
    | (called, text) :: later =>
        c.checkState = .header ∧ called.checkState = .requestLine ∧
        (∀ call ∈ later, call.1.checkState = .header) ∧
        called.Parsed text ∧
        (called.parseRequestLine text).2.Holds c HttpConn.url ∧
        (called.parseRequestLine text).2.Holds c HttpConn.version ∧
        match lastHost later with
        | none => c.host = none
        | some call => (call.1.parseHeaders call.2).2.Holds c HttpConn.host

theorem Holds.mono {parsed c after : HttpConn} {field : HttpConn → Option Nat}
    (h : parsed.Holds c field) (hfield : field after = field c)
    (hpoints : ∀ {pointer : Option Nat} {value : Option (List Byte)},
      c.Points pointer value → after.Points pointer value) : parsed.Holds after field := by
  obtain ⟨p, hparsed, hc, hvalue⟩ := h
  exact ⟨p, hparsed, hfield.trans hc, hpoints hvalue⟩

/-- Nothing is lost where pointers and strings stay. -/
theorem Surviving.mono {calls : List (HttpConn × Nat)} {c after : HttpConn}
    (h : c.Surviving calls) (hscanning : after.Scanning)
    (hlength : after.contenLength = c.contenLength) (hstate : after.checkState = c.checkState)
    (hurl : after.url = c.url) (hversion : after.version = c.version)
    (hhost : after.host = c.host)
    (hpoints : ∀ {pointer : Option Nat} {value : Option (List Byte)},
      c.Points pointer value → after.Points pointer value) : after.Surviving calls := by
  refine ⟨hscanning, hlength.trans h.noLength, ?_⟩
  have hkept := h.kept
  cases calls with
  | nil => exact ⟨hstate.trans hkept.1, hhost.trans hkept.2⟩
  | cons call later =>
      obtain ⟨hheader, hrequest, hlater, hline, hkeptUrl, hkeptVersion, hkeptHost⟩ := hkept
      refine ⟨hstate.trans hheader, hrequest, hlater, hline, hkeptUrl.mono hurl hpoints,
        hkeptVersion.mono hversion hpoints, ?_⟩
      cases hlast : lastHost later with
      | none =>
          rw [hlast] at hkeptHost
          exact hhost.trans hkeptHost
      | some call =>
          rw [hlast] at hkeptHost
          exact hkeptHost.mono hhost hpoints

theorem init_surviving (c : HttpConn) : c.init.Surviving [] :=
  ⟨init_scanning c, rfl, rfl, rfl⟩

theorem Surviving.recv {calls : List (HttpConn × Nat)} {c : HttpConn} (h : c.Surviving calls)
    {more : List Byte} (hfit : c.readIdx + more.length ≤ READ_BUFFER_SIZE) :
    (recvBytes more c).Surviving calls :=
  h.mono (h.scanning.recv hfit) rfl rfl rfl rfl rfl fun hpoints => hpoints.recv hfit

/-- A call that returns NO_REQUEST has only moved the scanner. -/
theorem Scanning.pass_wait {fellOff : Option HttpCode} {c after : HttpConn} (h : c.Scanning)
    (hpass : c.pass fellOff = .done after (.code .noRequest)) :
    ∃ stop, after = c.moveTo stop ∧ c.checkedIdx ≤ stop ∧ after.Scanning := by
  have hscanning : after.Scanning := by
    rcases h.pass_cases fellOff with ⟨e, -, -, hline, -⟩ | ⟨stop, hstop, hscanning, -⟩
    · exact absurd (hline.symm.trans hpass) handleLine_ne_noRequest
    · rw [hstop] at hpass
      cases hpass
      exact hscanning
  obtain ⟨data, hpending⟩ := exists_pending h.checked_le h.fits
  rw [pass_of_scanning fellOff h.notContent] at hpass
  rcases parseLine_cases h.notAfterCr hpending with ⟨text, rest, -, -, hline⟩ |
    ⟨text, rest, -, -, -, hline⟩ | ⟨text, rest, -, -, -, hline⟩
  · rw [hline] at hpass
    exact absurd hpass handleLine_ne_noRequest
  · rw [hline] at hpass
    cases hpass
    exact ⟨_, rfl, Nat.le_add_right _ _, hscanning⟩
  · rw [hline] at hpass
    cases hpass
    exact ⟨_, rfl, Nat.le_add_right _ _, hscanning⟩

theorem Surviving.wait {fellOff : Option HttpCode} {calls : List (HttpConn × Nat)}
    {c after : HttpConn} (h : c.Surviving calls)
    (hpass : c.pass fellOff = .done after (.code .noRequest)) : after.Surviving calls := by
  obtain ⟨stop, rfl, hstop, hscanning⟩ := h.scanning.pass_wait hpass
  exact h.mono hscanning rfl rfl rfl rfl rfl fun hpoints => hpoints.mono rfl hstop fun _ _ => rfl

end HttpConn

theorem lastHost_concat (calls : List (HttpConn × Nat)) (call : HttpConn × Nat) :
    lastHost (calls ++ [call]) =
      if isNamed (ascii "Host:") (call.1.strAt call.2) then some call else lastHost calls :=
  getLast?_filter_concat
    (fun call : HttpConn × Nat => isNamed (ascii "Host:") (call.1.strAt call.2)) calls call

namespace HttpConn

section Headers

variable (c : HttpConn) (text : Nat)

/-- Only a Host line sets `m_host`. -/
theorem parseHeaders_host : (c.parseHeaders text).2.host =
    if isNamed (ascii "Host:") (c.strAt text) then
      some (text + 5 + strspn c.readBuf (text + 5) blanks)
    else c.host := by
  have hname : isNamed (ascii "Host:") (c.strAt text) =
      strncaseEq (c.strAt text) (ascii "Host:") 5 := rfl
  rw [hname]
  by_cases hhost : strncaseEq (c.strAt text) (ascii "Host:") 5 = true
  · have hget : c.readBuf.get text ≠ 0 := by
      intro hzero
      rw [(strAt_eq_nil_iff c text).mpr hzero] at hhost
      cases hhost
    have hproxy : strncaseEq (c.strAt text) (ascii "Proxy-Connection:") 17 = false :=
      strncaseEq_other (n := 72) (m := 80) (k := 4) (l := 16) hhost (by decide)
    have hcontent : strncaseEq (c.strAt text) (ascii "Content-Length:") 15 = false :=
      strncaseEq_other (n := 72) (m := 67) (k := 4) (l := 14) hhost (by decide)
    simp [parseHeaders, hget, hproxy, hcontent, hhost]
  · simp only [parseHeaders, hhost, Bool.false_eq_true, ↓reduceIte]
    split
    · split <;> rfl
    · split
      · split <;> rfl
      · split <;> rfl

/-- Only a Content-Length line sets `m_conten_length`. -/
theorem parseHeaders_contenLength
    (hname : isNamed (ascii "Content-Length:") (c.strAt text) = false) :
    (c.parseHeaders text).2.contenLength = c.contenLength := by
  have hcontent : strncaseEq (c.strAt text) (ascii "Content-Length:") 15 = false := hname
  simp only [parseHeaders, hcontent, Bool.false_eq_true, ↓reduceIte]
  split
  · split <;> rfl
  · split
    · split <;> rfl
    · split <;> rfl

/-- Without a length no body is awaited. -/
theorem parseHeaders_checkState (hlength : c.contenLength = 0) :
    (c.parseHeaders text).2.checkState = c.checkState := by
  simp only [parseHeaders, hlength, ne_eq, not_true_eq_false, ↓reduceIte]
  split
  · rfl
  · split
    · split <;> rfl
    · split
      · rfl
      · split <;> rfl

end Headers

/-- A turn that goes on has called the parser of a line. -/
theorem lineCall_of_again {fellOff : Option HttpCode} {c after : HttpConn}
    (hcontent : c.checkState ≠ .content) (hpass : c.pass fellOff = .again after) :
    ∃ called text, c.lineCall = some (called, text) := by
  rw [pass_of_scanning fellOff hcontent] at hpass
  unfold lineCall
  rw [if_neg hcontent]
  cases hline : parseLine c with
  | mk status mid =>
      rw [hline] at hpass
      cases status with
      | lineOk => exact ⟨_, _, rfl⟩
      | lineBad => cases hpass
      | lineOpen => cases hpass

/-- The line that a turn closes, and what stays as it does. -/
theorem Surviving.lineCall {calls : List (HttpConn × Nat)} {c called : HttpConn} {text : Nat}
    (h : c.Surviving calls) (hcall : HttpConn.lineCall c = some (called, text)) :
    ∃ e, called.AtLine text e ∧ called.checkState = c.checkState ∧ called.Surviving calls := by
  obtain ⟨e, hle, he, rfl, rfl⟩ := h.scanning.lineCall hcall
  have hat := h.scanning.atLine hle he
  exact ⟨e, hat, rfl, h.mono hat.scanning rfl rfl rfl rfl rfl fun hpoints => hpoints.endLine hle⟩

/-- The turn that parses the request line. -/
theorem Surviving.requestLine {called : HttpConn} {text e : Nat} (h : called.Surviving [])
    (hat : called.AtLine text e)
    (haccept : (called.parseRequestLine text).1 ≠ .badRequest) :
    (called.parseRequestLine text).2.Surviving [(called, text)] := by
  obtain ⟨hstate, hhost⟩ := h.kept
  rcases parseRequestLine_code hat.closed with ⟨-, target, version, hline⟩ | ⟨hbad, -⟩
  · obtain ⟨-, hheader, ⟨p, hpe, hurl, hp⟩, ⟨q, hqe, hversion, hq⟩⟩ :=
      parseRequestLine_of_line hat.closed hline
    have hparsed : called.Parsed text := by
      refine ⟨?_, ?_⟩
      · intro p' hp'
        rw [hurl, Option.mem_some_iff] at hp'
        obtain ⟨method, gap, uri, gap', -, -, -, htarget⟩ := hline.parts
        rw [← hp', hp, htarget.head]
      · intro q' hq'
        rw [hversion, Option.mem_some_iff] at hq'
        rw [← hq', hq]
        exact hline.version_eq
    have hstep := parseRequestLine_step hat.closed
    obtain ⟨hread, hchecked, -, hkeep, hlength, -⟩ := hstep.frame
    have hpoints : ∀ p ≤ e, (called.parseRequestLine text).2.Points (some p)
        (some ((called.parseRequestLine text).2.strAt p)) := by
      intro p hp
      refine ⟨⟨e, ⟨hp, (hstep.behind e (Nat.le_refl e)).trans hat.closed.nul,
        hread ▸ hat.closed.received, hread ▸ hat.closed.fits⟩, ?_⟩, rfl⟩
      rw [hchecked, hat.checked_eq]
      omega
    exact ⟨hat.requestLine, hlength.trans h.noLength, hheader, hstate, by simp,
      hparsed, ⟨p, hurl, hurl, hpoints p hpe⟩, ⟨q, hversion, hversion,
      hpoints q hqe⟩, hkeep.trans hhost⟩
  · exact absurd hbad haccept

/-- A turn that parses a header line. -/
theorem Surviving.headers {called : HttpConn} {text e : Nat} {first : HttpConn × Nat}
    {later : List (HttpConn × Nat)} (h : called.Surviving (first :: later))
    (hat : called.AtLine text e)
    (hname : isNamed (ascii "Content-Length:") (called.strAt text) = false) :
    (called.parseHeaders text).2.Surviving (first :: (later ++ [(called, text)])) := by
  obtain ⟨hheader, hrequest, hlater, hline, hurl, hversion, hhost⟩ := h.kept
  have hstep := parseHeaders_step hat.closed
  obtain ⟨hread, hchecked, -, hbuf, hsameUrl, hsameVersion, -⟩ := hstep.frame
  have hstate := parseHeaders_checkState called text h.noLength
  have hpoints : ∀ {pointer : Option Nat} {value : Option (List Byte)},
      called.Points pointer value → (called.parseHeaders text).2.Points pointer value :=
    fun hold => hold.mono hread (Nat.le_of_eq hchecked.symm) fun i _ => by rw [hbuf]
  refine ⟨hat.headers (by rw [hstate, hheader]; simp),
    (parseHeaders_contenLength called text hname).trans h.noLength, hstate.trans hheader,
    hrequest, ?_, hline, hurl.mono hsameUrl hpoints, hversion.mono hsameVersion hpoints, ?_⟩
  · rw [List.forall_mem_append, List.forall_mem_singleton]
    exact ⟨hlater, hheader⟩
  · have hset := parseHeaders_host called text
    rw [lastHost_concat]
    by_cases hfound : isNamed (ascii "Host:") (called.strAt text) = true
    · rw [if_pos hfound] at hset ⊢
      have hvalue := hat.closed.value (k := 5) rfl hfound
      refine ⟨_, hset, hset, ⟨e, ?_, ?_⟩, rfl⟩
      · exact ⟨hvalue.text_le, by rw [hbuf]; exact hvalue.nul, hread ▸ hvalue.received,
          hread ▸ hvalue.fits⟩
      · rw [hchecked, hat.checked_eq]
        omega
    · rw [if_neg hfound] at hset ⊢
      cases hlast : lastHost later with
      | none =>
          rw [hlast] at hhost
          exact hset.trans hhost
      | some call =>
          rw [hlast] at hhost
          exact hhost.mono hset hpoints

/-- The blank line that ends the head changes nothing. -/
theorem parseHeaders_getRequest {c : HttpConn} {text : Nat}
    (hcode : (c.parseHeaders text).1 = .getRequest) : (c.parseHeaders text).2 = c := by
  unfold parseHeaders at hcode ⊢
  split at hcode
  · rename_i hblank
    split at hcode
    · cases hcode
    · rename_i hlength
      rw [if_pos hblank, if_neg hlength]
  · split at hcode
    · dsimp only at hcode
      split at hcode <;> cases hcode
    · split at hcode
      · cases hcode
      · split at hcode <;> cases hcode

end HttpConn

section Runs

variable {fellOff : Option HttpCode} {history : List (HttpConn × ParsingLabel)}
  {c after : HttpConn}

theorem lineCalls_turn (history : List (HttpConn × ParsingLabel)) {called : HttpConn} {text : Nat}
    (hcall : c.lineCall = some (called, text)) :
    lineCalls (history ++ [(c, .turn)]) = lineCalls history ++ [(called, text)] := by
  simp [lineCalls, hcall]

theorem lineCalls_other (history : List (HttpConn × ParsingLabel)) {label : ParsingLabel}
    (hlabel : label ≠ .turn) : lineCalls (history ++ [(c, label)]) = lineCalls history := by
  cases label with
  | turn => exact absurd rfl hlabel
  | recv more => simp [lineCalls]
  | wait => simp [lineCalls]

/-- What the calls of a run have found survives to its end. -/
theorem parsing_surviving (hrun : (parsing fellOff).Run history c)
    (hnone : WithoutLength (lineCalls history)) : c.Surviving (lineCalls history) := by
  induction hrun with
  | start hstart =>
      obtain ⟨before, rfl⟩ := hstart
      exact HttpConn.init_surviving before
  | @snoc history before after label hbefore hstep ih =>
      cases hstep with
      | recv hfit =>
          rw [lineCalls_other history (by simp)] at hnone ⊢
          exact (ih hnone).recv hfit
      | wait hpass =>
          rw [lineCalls_other history (by simp)] at hnone ⊢
          exact (ih hnone).wait hpass
      | turn hpass =>
          obtain ⟨called, text, hcall⟩ := HttpConn.lineCall_of_again (by
            intro hcontent
            rw [HttpConn.pass, if_pos hcontent, HttpConn.handleLine_content hcontent] at hpass
            split at hpass <;> cases hpass) hpass
          rw [lineCalls_turn history hcall] at hnone ⊢
          rw [WithoutLength, List.forall_mem_append, List.forall_mem_singleton] at hnone
          obtain ⟨e, hat, hstate, hcalled⟩ := (ih hnone.1).lineCall hcall
          have hkept := hcalled.kept
          rcases HttpConn.pass_lineCall fellOff hcall with ⟨hrequest, hturn⟩ | ⟨hheader, hturn⟩
          · cases hcalls : lineCalls history with
            | nil =>
                rw [hcalls] at hcalled
                rw [hturn] at hpass
                split at hpass
                · cases hpass
                · rename_i haccept
                  cases hpass
                  exact hcalled.requestLine hat haccept
            | cons first later =>
                rw [hcalls] at hkept
                rw [hrequest] at hkept
                cases hkept.1
          · cases hcalls : lineCalls history with
            | nil =>
                rw [hcalls] at hkept
                rw [hheader] at hkept
                cases hkept.1
            | cons first later =>
                rw [hcalls] at hcalled
                rw [hturn] at hpass
                split at hpass
                · cases hpass
                · split at hpass
                  · cases hpass
                  · cases hpass
                    exact hcalled.headers hat hnone.2

/-- The turn from which `do_request` is called. -/
theorem HttpConn.Surviving.doRequest {calls : List (HttpConn × Nat)} (h : c.Surviving calls)
    (hdone : c.pass fellOff = .done after .doRequest) :
    after.checkState = .header ∧ after.Surviving calls := by
  cases hcall : c.lineCall with
  | none =>
      exfalso
      rw [HttpConn.pass_of_scanning fellOff h.scanning.notContent] at hdone
      rw [HttpConn.lineCall, if_neg h.scanning.notContent] at hcall
      cases hline : HttpConn.parseLine c with
      | mk status mid =>
          rw [hline] at hdone hcall
          cases status with
          | lineOk => cases hcall
          | lineBad => cases hdone
          | lineOpen => cases hdone
  | some call =>
      obtain ⟨called, text⟩ := call
      obtain ⟨e, hat, hstate, hcalled⟩ := h.lineCall hcall
      rcases HttpConn.pass_lineCall fellOff hcall with ⟨-, hturn⟩ | ⟨hheader, hturn⟩
      · rw [hturn] at hdone
        split at hdone <;> cases hdone
      · rw [hturn] at hdone
        split at hdone
        · cases hdone
        · split at hdone
          · rename_i hcode
            cases hdone
            rw [HttpConn.parseHeaders_getRequest hcode]
            exact ⟨hheader, hcalled⟩
          · cases hdone

/-- When `do_request` is called for a request without a Content-Length header,
what the parsers of its lines have found is still there: `m_url` and
`m_version` as `parse_request_line` left them, `m_host` as the last Host line
left it, and at each pointer the string that was there. -/
theorem parsed_survives (hrun : (parsing fellOff).Run history c)
    (hnone : WithoutLength (lineCalls history))
    (hdone : c.pass fellOff = .done after .doRequest) :
    ∃ called text later, lineCalls history = (called, text) :: later ∧
      called.checkState = .requestLine ∧ (∀ call ∈ later, call.1.checkState = .header) ∧
      (∃ p, (called.parseRequestLine text).2.url = some p ∧ after.url = some p ∧
        after.strAt p = (called.parseRequestLine text).2.strAt p ∧
        (after.strAt p).head? = some slash) ∧
      (∃ q, (called.parseRequestLine text).2.version = some q ∧ after.version = some q ∧
        after.strAt q = (called.parseRequestLine text).2.strAt q ∧
        strcaseEq (after.strAt q) (ascii "HTTP/1.1") = true) ∧
      match lastHost later with
      | none => after.host = none
      | some (called, text) => ∃ h, (called.parseHeaders text).2.host = some h ∧
          after.host = some h ∧ after.strAt h = (called.parseHeaders text).2.strAt h := by
  obtain ⟨hheader, hsurviving⟩ := (parsing_surviving hrun hnone).doRequest hdone
  have hkept := hsurviving.kept
  cases hcalls : lineCalls history with
  | nil =>
      rw [hcalls] at hkept
      rw [hheader] at hkept
      cases hkept.1
  | cons first later =>
      obtain ⟨called, text⟩ := first
      rw [hcalls] at hkept
      obtain ⟨-, hrequest, hlater, ⟨hslash, hname⟩, ⟨p, hurl, hp, -, hvalue⟩,
        ⟨q, hversion, hq, -, hvalue'⟩, hhost⟩ := hkept
      refine ⟨called, text, later, rfl, hrequest, hlater, ⟨p, hurl, hp, hvalue, ?_⟩,
        ⟨q, hversion, hq, hvalue', ?_⟩, ?_⟩
      · rw [hvalue]
        exact hslash p hurl
      · rw [hvalue']
        exact hname q hversion
      · cases hlast : lastHost later with
        | none =>
            rw [hlast] at hhost
            exact hhost
        | some call =>
            rw [hlast] at hhost
            obtain ⟨h, hset, hh, -, hvalue''⟩ := hhost
            exact ⟨h, hset, hh, hvalue''⟩

/-- What a turn that leaves the function returns. -/
def PassResult.result : PassResult → Option ReadResult
  | .again _ => none
  | .done _ result => some result

/-- The connection on which the plainest request has arrived at once. -/
def rootArrived : HttpConn :=
  HttpConn.recvBytes (rootRequest ++ [CR, LF, CR, LF]) HttpConn.idle.init

set_option maxRecDepth 100000 in
/-- The target of the plainest request is still at `m_url`. -/
theorem parsed_survives_root :
    ∃ p, ((rootArrived.pass none).conn.pass none).conn.url = some p ∧
      (((rootArrived.pass none).conn.pass none).conn.strAt p).head? = some slash := by
  have hturn : rootArrived.pass none = .again (rootArrived.pass none).conn := by
    have hagain : (rootArrived.pass none).result = none := by decide +kernel
    cases hpass : rootArrived.pass none with
    | again turned => rfl
    | done after result =>
        rw [hpass] at hagain
        cases hagain
  have hdone : (rootArrived.pass none).conn.pass none =
      .done ((rootArrived.pass none).conn.pass none).conn .doRequest := by
    have hresult : ((rootArrived.pass none).conn.pass none).result = some .doRequest := by
      decide +kernel
    cases hpass : (rootArrived.pass none).conn.pass none with
    | again turned =>
        rw [hpass] at hresult
        cases hresult
    | done after result =>
        rw [hpass] at hresult
        cases hresult
        rfl
  have hrun : (parsing none).Run
      [(HttpConn.idle.init, .recv (rootRequest ++ [CR, LF, CR, LF])), (rootArrived, .turn)]
      (rootArrived.pass none).conn := by
    have hstart : (parsing none).Run [] HttpConn.idle.init := .start ⟨_, rfl⟩
    exact (hstart.snoc (ParsingStep.recv (by decide))).snoc (ParsingStep.turn hturn)
  have hnone : WithoutLength (lineCalls
      [(HttpConn.idle.init, .recv (rootRequest ++ [CR, LF, CR, LF])), (rootArrived, .turn)]) := by
    unfold WithoutLength
    decide +kernel
  obtain ⟨called, text, later, -, -, -, ⟨p, -, hurl, -, hslash⟩, -⟩ :=
    parsed_survives hrun hnone hdone
  exact ⟨p, hurl, hslash⟩

end Runs

end LinuxLearning.Webserver
