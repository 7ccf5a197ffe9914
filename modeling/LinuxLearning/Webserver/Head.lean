/-
What the head of a request says, line by line, and that the parser reads it
so.  `Tracks` ties a connection to the lines it has consumed and the bytes
behind them; each turn of the read loop takes it from one line to the next.
-/
import LinuxLearning.Webserver.RequestLine
import LinuxLearning.Webserver.Resume

namespace LinuxLearning.Webserver

open Lines CString

/-- A line as the parser sees it: it ends at its first NUL. -/
def cText (line : List Byte) : List Byte := line.takeWhile (· != 0)

/-- What header lines say: whether to keep the connection, the length of the
body, and the host. -/
structure HeaderFields where
  linger : Bool
  contenLength : Int
  host : Option (List Byte)
deriving DecidableEq

/-- Before the first header line. -/
def HeaderFields.initial : HeaderFields := ⟨true, 0, none⟩

/-- The value behind a field name of `k` bytes and the blanks after it. -/
def fieldValue (text : List Byte) (k : Nat) : List Byte :=
  (text.drop k).dropWhile (blanks.contains ·)

/-- What one more header line says. -/
def HeaderFields.add (fields : HeaderFields) (text : List Byte) : HeaderFields :=
  if strncaseEq text (ascii "Proxy-Connection:") 17 then
    if strcaseEq (fieldValue text 17) (ascii "keep-alive") then fields
    else { fields with linger := false }
  else if strncaseEq text (ascii "Content-Length:") 15 then
    { fields with contenLength := toInt32 (atol (fieldValue text 15)) }
  else if strncaseEq text (ascii "Host:") 5 then
    { fields with host := some (fieldValue text 5) }
  else fields

/-- What a list of header lines says. -/
def fieldsOf (headers : List (List Byte)) : HeaderFields :=
  headers.foldl (fun fields line => fields.add (cText line)) .initial

theorem fieldsOf_append (headers : List (List Byte)) (line : List Byte) :
    fieldsOf (headers ++ [line]) = (fieldsOf headers).add (cText line) := by
  simp [fieldsOf]

theorem HeaderFields.add_nil (fields : HeaderFields) : fields.add [] = fields := by
  have h17 : strncaseEq [] (ascii "Proxy-Connection:") 17 = false := by decide
  have h15 : strncaseEq [] (ascii "Content-Length:") 15 = false := by decide
  have h5 : strncaseEq [] (ascii "Host:") 5 = false := by decide
  simp [add, h17, h15, h5]

/-- A line does not begin with two names that begin differently. -/
theorem strncaseEq_other {text name other : List Byte} {n m : Byte} {k l : Nat}
    (h : strncaseEq text (n :: name) (k + 1) = true) (hne : tolower n ≠ tolower m) :
    strncaseEq text (m :: other) (l + 1) = false := by
  by_contra hboth
  rw [Bool.not_eq_false] at hboth
  have hsame := (strncaseEq_head h).symm.trans (strncaseEq_head hboth)
  exact hne (Option.some.inj hsame)

/-- Only a line that begins with the name closes the connection. -/
theorem HeaderFields.add_linger (fields : HeaderFields) (text : List Byte) :
    (fields.add text).linger =
      if strncaseEq text (ascii "Proxy-Connection:") 17 then
        fields.linger && strcaseEq (fieldValue text 17) (ascii "keep-alive")
      else fields.linger := by
  rw [add]
  by_cases hproxy : strncaseEq text (ascii "Proxy-Connection:") 17 = true
  · rw [if_pos hproxy, if_pos hproxy]
    split
    · rename_i hvalue
      rw [hvalue, Bool.and_true]
    · rename_i hvalue
      rw [Bool.not_eq_true] at hvalue
      rw [hvalue, Bool.and_false]
  · rw [if_neg hproxy, if_neg hproxy]
    split
    · rfl
    · split <;> rfl

/-- Only a line that begins with the name sets the length. -/
theorem HeaderFields.add_contenLength (fields : HeaderFields) (text : List Byte) :
    (fields.add text).contenLength =
      if strncaseEq text (ascii "Content-Length:") 15 then toInt32 (atol (fieldValue text 15))
      else fields.contenLength := by
  rw [add]
  by_cases hproxy : strncaseEq text (ascii "Proxy-Connection:") 17 = true
  · have hlength : strncaseEq text (ascii "Content-Length:") 15 = false :=
      strncaseEq_other (n := 80) (m := 67) (k := 16) (l := 14) hproxy (by decide)
    rw [if_pos hproxy, hlength]
    split <;> rfl
  · rw [if_neg hproxy]
    by_cases hlength : strncaseEq text (ascii "Content-Length:") 15 = true
    · rw [if_pos hlength, if_pos hlength]
    · rw [if_neg hlength, if_neg hlength]
      split <;> rfl

/-- Only a line that begins with the name sets the host. -/
theorem HeaderFields.add_host (fields : HeaderFields) (text : List Byte) :
    (fields.add text).host =
      if strncaseEq text (ascii "Host:") 5 then some (fieldValue text 5) else fields.host := by
  rw [add]
  by_cases hproxy : strncaseEq text (ascii "Proxy-Connection:") 17 = true
  · have hhost : strncaseEq text (ascii "Host:") 5 = false :=
      strncaseEq_other (n := 80) (m := 72) (k := 16) (l := 4) hproxy (by decide)
    rw [if_pos hproxy, hhost]
    split <;> rfl
  · rw [if_neg hproxy]
    by_cases hlength : strncaseEq text (ascii "Content-Length:") 15 = true
    · have hhost : strncaseEq text (ascii "Host:") 5 = false :=
        strncaseEq_other (n := 67) (m := 72) (k := 14) (l := 4) hlength (by decide)
      rw [if_pos hlength, hhost]
      rfl
    · rw [if_neg hlength]
      split <;> rfl

namespace HttpConn

/-- The pointer is null and nothing is expected there, or it points to `value`,
closed before `m_checked_idx`. -/
def Points (c : HttpConn) : Option Nat → Option (List Byte) → Prop
  | none, none => True
  | some p, some value => (∃ e, c.Closed p e ∧ e < c.checkedIdx) ∧ c.strAt p = value
  | _, _ => False

/-- A string stays where it is as long as no byte before `m_checked_idx`
changes. -/
theorem Points.mono {c after : HttpConn} {pointer : Option Nat}
    {value : Option (List Byte)} (h : c.Points pointer value)
    (hread : after.readIdx = c.readIdx) (hchecked : c.checkedIdx ≤ after.checkedIdx)
    (hsame : ∀ i, i < c.checkedIdx → after.readBuf.get i = c.readBuf.get i) :
    after.Points pointer value := by
  match pointer, value, h with
  | none, none, _ => trivial
  | some p, some value, ⟨⟨e, hclosed, he⟩, hvalue⟩ =>
      refine ⟨⟨e, ?_, Nat.lt_of_lt_of_le he hchecked⟩, ?_⟩
      · exact ⟨hclosed.text_le, (hsame e he).trans hclosed.nul, hread ▸ hclosed.received,
          hread ▸ hclosed.fits⟩
      · rw [← hvalue]
        symm
        apply cstr_congr hclosed.text_le hclosed.nul
        intro i _ hi
        exact (hsame i (Nat.lt_of_le_of_lt hi he)).symm

/-- Closing a line behind the checked bytes leaves the strings in them. -/
theorem Points.endLine {c : HttpConn} {pointer : Option Nat} {value : Option (List Byte)}
    (h : c.Points pointer value) {e : Nat} (he : c.checkedIdx ≤ e) :
    (c.endLine e).markLine.Points pointer value := by
  have hread : (c.endLine e).markLine.readIdx = c.readIdx := rfl
  refine h.mono hread ?_ ?_
  · change c.checkedIdx ≤ e + 2
    omega
  · intro i hi
    change ((c.readBuf.poke _ 0).poke _ 0).get i = c.readBuf.get i
    rw [Buffer.get_poke_of_ne _ (by omega), Buffer.get_poke_of_ne _ (by omega)]

/-- So does receiving more. -/
theorem Points.recv {c : HttpConn} {pointer : Option Nat} {value : Option (List Byte)}
    (h : c.Points pointer value) {more : List Byte}
    (hfit : c.readIdx + more.length ≤ READ_BUFFER_SIZE) :
    (recvBytes more c).Points pointer value := by
  match pointer, value, h with
  | none, none, _ => trivial
  | some p, some value, ⟨⟨e, hclosed, he⟩, hvalue⟩ =>
      exact ⟨⟨e, hclosed.recv hfit, he⟩, (strAt_recv more hclosed).trans hvalue⟩

/-- The fields of the connection hold what the header lines said. -/
structure HasFields (c : HttpConn) (fields : HeaderFields) : Prop where
  linger : c.linger = fields.linger
  contenLength : c.contenLength = fields.contenLength
  host : c.Points c.host fields.host

theorem strAt_eq_nil_iff (c : HttpConn) (p : Nat) :
    c.strAt p = [] ↔ c.readBuf.get p = 0 := by
  rw [strAt, cstr_eq]
  split <;> simp_all

/-- The C string of a header's value. -/
theorem strAt_fieldValue {c : HttpConn} {text k : Nat} {name : List Byte}
    (hname : name.length = k) (hmatch : strncaseEq (c.strAt text) name k = true) :
    c.strAt (text + k + strspn c.readBuf (text + k) blanks) =
      fieldValue (c.strAt text) k := by
  have hlen := length_of_strncaseEq hname hmatch
  have hskip : cstr c.readBuf (text + k) = (c.strAt text).drop k := by
    have htake : ((c.strAt text).take k).length = k := by
      rw [List.length_take]
      omega
    have hcut : cstr c.readBuf text = (c.strAt text).take k ++ (c.strAt text).drop k :=
      (List.take_append_drop k (c.strAt text)).symm
    have := cstr_add hcut
    rwa [htake] at this
  rw [strAt, cstr_skip, hskip]
  rfl

/-- A blank line ends the head: either a body is expected, or the request is
complete. -/
theorem parseHeaders_blank {c : HttpConn} {text : Nat} (hblank : c.strAt text = []) :
    c.parseHeaders text =
      if c.contenLength ≠ 0 then (.noRequest, { c with checkState := .content })
      else (.getRequest, c) := by
  rw [strAt_eq_nil_iff] at hblank
  rw [parseHeaders, if_pos hblank]

/-- A header line adds what it says. -/
theorem parseHeaders_field {c : HttpConn} {text e : Nat} (h : c.Closed text e)
    (hchecked : e < c.checkedIdx) (hfield : c.strAt text ≠ []) {fields : HeaderFields}
    (hfields : c.HasFields fields) :
    (c.parseHeaders text).1 = .noRequest ∧
      (c.parseHeaders text).2.checkState = c.checkState ∧
      (c.parseHeaders text).2.HasFields (fields.add (c.strAt text)) := by
  have hget : c.readBuf.get text ≠ 0 := by
    rw [ne_eq, ← strAt_eq_nil_iff]
    exact hfield
  have hkeep : ∀ {after : HttpConn}, after.readBuf = c.readBuf → after.readIdx = c.readIdx →
      after.checkedIdx = c.checkedIdx → after.Points c.host fields.host := by
    intro after hbuf hread hsame
    exact hfields.host.mono hread (Nat.le_of_eq hsame.symm) (fun i _ => by rw [hbuf])
  simp only [parseHeaders, hget, ↓reduceIte, HeaderFields.add]
  by_cases hproxy : strncaseEq (c.strAt text) (ascii "Proxy-Connection:") 17 = true
  · simp only [hproxy, ↓reduceIte, strAt_fieldValue (by decide) hproxy]
    split
    · exact ⟨rfl, rfl, hfields⟩
    · exact ⟨rfl, rfl, rfl, hfields.contenLength, hkeep rfl rfl rfl⟩
  simp only [hproxy, Bool.false_eq_true, ↓reduceIte]
  by_cases hcontent : strncaseEq (c.strAt text) (ascii "Content-Length:") 15 = true
  · simp only [hcontent, ↓reduceIte, strAt_fieldValue (by decide) hcontent]
    exact ⟨trivial, trivial, hfields.linger, rfl, hkeep rfl rfl rfl⟩
  simp only [hcontent, Bool.false_eq_true, ↓reduceIte]
  by_cases hhost : strncaseEq (c.strAt text) (ascii "Host:") 5 = true
  · simp only [hhost, ↓reduceIte]
    have hvalue := h.value (by decide) hhost
    refine ⟨trivial, trivial, hfields.linger, hfields.contenLength, ⟨e, ?_, hchecked⟩, ?_⟩
    · exact ⟨hvalue.text_le, hvalue.nul, hvalue.received, hvalue.fits⟩
    · exact strAt_fieldValue (by decide) hhost
  · simp only [hhost, Bool.false_eq_true, ↓reduceIte]
    exact ⟨trivial, trivial, hfields⟩

/-- The parser has consumed these lines and stands before `rest`.  All its
stores so far were made in the lines. -/
structure Consumed (c : HttpConn) (lines : List (List Byte)) (rest : List Byte) :
    Prop where
  scanning : c.Scanning
  pending : c.Pending rest
  start_eq : c.startLine = (joinLines lines).length
  checked_eq : c.checkedIdx = (joinLines lines).length
  stored : ∀ i ∈ c.stores, 0 ≤ i ∧ i < c.checkedIdx

theorem AtLine.scanning {c : HttpConn} {text e : Nat} (h : c.AtLine text e) :
    c.Scanning where
  notContent := h.notContent
  start_le := by rw [h.start_eq, h.checked_eq]
  checked_le := h.checked_eq ▸ h.checked_le
  fits := h.closed.fits
  notAfterCr := notAfterCr_of_nul h.checked_eq h.nul
  url := h.url
  version := h.version
  host := h.host

/-- Taking one more line up to the call of its parser. -/
theorem Consumed.endLine {c : HttpConn} {lines : List (List Byte)}
    {line rest : List Byte} (h : c.Consumed lines (line ++ CR :: LF :: rest)) :
    (c.endLine (c.checkedIdx + line.length)).markLine.Consumed (lines ++ [line]) rest ∧
      (c.endLine (c.checkedIdx + line.length)).markLine.AtLine c.startLine
        (c.checkedIdx + line.length) ∧
      (c.endLine (c.checkedIdx + line.length)).markLine.strAt c.startLine = cText line := by
  obtain ⟨hat, hlen⟩ := h.pending
  simp only [List.length_append, List.length_cons] at hlen
  have hfits := h.scanning.fits
  have hatLine := h.scanning.atLine (Nat.le_add_right c.checkedIdx line.length)
    (by omega : c.checkedIdx + line.length + 1 < c.readIdx)
  have hchecked : c.checkedIdx + line.length + 2 = (joinLines (lines ++ [line])).length := by
    rw [h.checked_eq]
    simp [Nat.add_assoc]
  have hget : ∀ i, i ≠ c.checkedIdx + line.length → i ≠ c.checkedIdx + line.length + 1 →
      (c.endLine (c.checkedIdx + line.length)).markLine.readBuf.get i =
        c.readBuf.get i := by
    intro i hi hi'
    change ((c.readBuf.poke _ 0).poke _ 0).get i = c.readBuf.get i
    rw [Buffer.get_poke_of_ne _ (Ne.symm hi'), Buffer.get_poke_of_ne _ (Ne.symm hi)]
  refine ⟨⟨hatLine.scanning, ⟨?_, ?_⟩, hchecked, hchecked, ?_⟩, hatLine, ?_⟩
  · rw [Buffer.hasAt_append, Buffer.hasAt_cons, Buffer.hasAt_cons] at hat
    refine hat.2.2.2.congr fun i hi _ => hget i ?_ ?_ <;> omega
  · change c.checkedIdx + line.length + 2 + rest.length = c.readIdx
    omega
  · intro i hi
    change i ∈ c.stores ++ [((c.checkedIdx + line.length : Nat) : Int),
      ((c.checkedIdx + line.length + 1 : Nat) : Int)] at hi
    change 0 ≤ i ∧ i < ((c.checkedIdx + line.length + 2 : Nat) : Int)
    simp only [List.mem_append, List.mem_cons, List.not_mem_nil, or_false] at hi
    rcases hi with hi | rfl | rfl
    · have := h.stored i hi
      omega
    · omega
    · omega
  · have hstart : c.startLine = c.checkedIdx := h.start_eq.trans h.checked_eq.symm
    rw [strAt, cText, hstart]
    apply cstr_of_line
    · intro i hi
      rw [hget _ (by omega) (by omega)]
      exact (Buffer.hasAt_append.mp hat).1 i hi
    · exact hatLine.closed.nul

theorem pass_endLine (fellOff : Option HttpCode) {c : HttpConn}
    {lines : List (List Byte)} {line rest : List Byte}
    (h : c.Consumed lines (line ++ CR :: LF :: rest)) (hline : IsLine line) :
    pass fellOff c = handleLine fellOff (c.endLine (c.checkedIdx + line.length)) := by
  rw [pass_of_scanning fellOff h.scanning.notContent, parseLine_line hline h.pending]
  rfl

/-- Without a complete line the call ends. -/
theorem Consumed.wait {c : HttpConn} {lines : List (List Byte)} {rest : List Byte}
    (h : c.Consumed lines rest)
    (hopen : Open rest)
    (fellOff : Option HttpCode) :
    ∃ stop, readRequest fellOff c = (c.moveTo stop, .code .noRequest) ∧
      c.checkedIdx ≤ stop := by
  have hpass := pass_of_scanning fellOff h.scanning.notContent
  rcases parseLine_cases h.scanning.notAfterCr h.pending with
    ⟨text, tail, htext, heq, -⟩ | ⟨text, tail, -, -, -, hline⟩ |
    ⟨text, tail, -, -, -, hline⟩
  · exact absurd heq (hopen text tail htext)
  · rw [hline] at hpass
    exact ⟨_, readRequest_done hpass, Nat.le_add_right _ _⟩
  · rw [hline] at hpass
    exact ⟨_, readRequest_done hpass, Nat.le_add_right _ _⟩

section Line

variable {c : HttpConn} {lines : List (List Byte)} {rest : List Byte} {text e : Nat}

theorem Consumed.parseRequestLine (h : c.Consumed lines rest) (hat : c.AtLine text e) :
    (c.parseRequestLine text).2.Consumed lines rest := by
  have hstep := parseRequestLine_step hat.closed
  obtain ⟨hread, hchecked, hstart, -⟩ := hstep.frame
  have he := hat.checked_eq
  refine ⟨hat.requestLine, ⟨?_, ?_⟩, hstart.trans h.start_eq, hchecked.trans h.checked_eq, ?_⟩
  · rw [hchecked]
    exact h.pending.1.congr fun i hi _ => hstep.behind i (by omega)
  · rw [hchecked, hread]
    exact h.pending.2
  · obtain ⟨new, hnew, hin⟩ := hstep.stored
    intro i hi
    rw [hnew, List.mem_append] at hi
    rw [hchecked]
    rcases hi with hi | hi
    · exact h.stored i hi
    · have := hin i hi
      omega

theorem Consumed.parseHeaders (h : c.Consumed lines rest) (hat : c.AtLine text e)
    (hcontent : (c.parseHeaders text).2.checkState ≠ .content) :
    (c.parseHeaders text).2.Consumed lines rest := by
  have hstep := parseHeaders_step hat.closed
  obtain ⟨hread, hchecked, hstart, hbuf, -, -, hstores⟩ := hstep.frame
  refine ⟨hat.headers hcontent, ⟨?_, ?_⟩, hstart.trans h.start_eq,
    hchecked.trans h.checked_eq, ?_⟩
  · rw [hchecked, hbuf]
    exact h.pending.1
  · rw [hchecked, hread]
    exact h.pending.2
  · rw [hchecked, hstores]
    exact h.stored

end Line

/-- `m_url` and `m_version` hold what the request line said, if one has been
read. -/
def HasRequest (c : HttpConn) (lines : List (List Byte)) : Prop :=
  ∀ request ∈ lines.head?, ∃ target version,
    RequestLine (cText request) target version ∧ c.Points c.url (some target) ∧
      c.Points c.version (some version)

/-- The connection says what the lines it has consumed say. -/
structure Tracks (c : HttpConn) (lines : List (List Byte)) (rest : List Byte) :
    Prop where
  consumed : c.Consumed lines rest
  state : c.checkState = if lines = [] then .requestLine else .header
  request : c.HasRequest lines
  fields : c.HasFields (fieldsOf lines.tail)

/-- One more line stands closed at `text`, ready for its parser. -/
structure Ready (c : HttpConn) (text e : Nat) (lines : List (List Byte))
    (line rest : List Byte) : Prop where
  consumed : c.Consumed (lines ++ [line]) rest
  atLine : c.AtLine text e
  text_eq : c.strAt text = cText line
  state : c.checkState = if lines = [] then .requestLine else .header
  request : c.HasRequest lines
  fields : c.HasFields (fieldsOf lines.tail)

/-- A connection that was just reset and has received `s`. -/
theorem init_tracks (c : HttpConn) {s : List Byte} (hfit : s.length ≤ READ_BUFFER_SIZE) :
    (recvBytes s c.init).Tracks [] s where
  consumed :=
    { scanning := (init_scanning c).recv (by simpa [init] using hfit)
      pending := ⟨Buffer.hasAt_blit _ (by simpa [init] using hfit), by simp [init, recvBytes]⟩
      start_eq := rfl
      checked_eq := rfl
      stored := by
        intro i hi
        cases hi }
  state := rfl
  request := nofun
  fields := ⟨rfl, rfl, trivial⟩

section Turn

variable (fellOff : Option HttpCode) {c : HttpConn} {lines : List (List Byte)}
  {line rest : List Byte} {text e : Nat}

/-- A complete line is closed and handed to its parser. -/
theorem Tracks.ready (h : c.Tracks lines (line ++ CR :: LF :: rest)) :
    (c.endLine (c.checkedIdx + line.length)).markLine.Ready c.startLine
      (c.checkedIdx + line.length) lines line rest := by
  obtain ⟨hconsumed, hat, htext⟩ := h.consumed.endLine
  have hkeep : ∀ {pointer : Option Nat} {value : Option (List Byte)},
      c.Points pointer value →
      (c.endLine (c.checkedIdx + line.length)).markLine.Points pointer value :=
    fun hpoints => hpoints.endLine (Nat.le_add_right _ _)
  refine ⟨hconsumed, hat, htext, h.state, ?_,
    ⟨h.fields.linger, h.fields.contenLength, hkeep h.fields.host⟩⟩
  intro request hmem
  obtain ⟨target, version, hline, hurl, hversion⟩ := h.request request hmem
  exact ⟨target, version, hline, hkeep hurl, hkeep hversion⟩

/-- The turn that reads the request line. -/
theorem Tracks.pass_request (h : c.Tracks [] (line ++ CR :: LF :: rest))
    (hline : IsLine line) :
    ∃ mid text e, Ready mid text e [] line rest ∧
      pass fellOff c =
        if (mid.parseRequestLine text).1 = .badRequest then
          .done (mid.parseRequestLine text).2 (.code .badRequest)
        else .again (mid.parseRequestLine text).2 := by
  refine ⟨_, _, _, h.ready, ?_⟩
  have hstate : (c.endLine (c.checkedIdx + line.length)).checkState = .requestLine := h.state
  exact (pass_endLine fellOff h.consumed hline).trans (handleLine_requestLine hstate)

/-- The turn that reads a header line. -/
theorem Tracks.pass_header (h : c.Tracks lines (line ++ CR :: LF :: rest))
    (hline : IsLine line) (hne : lines ≠ []) :
    ∃ mid text e, Ready mid text e lines line rest ∧
      pass fellOff c =
        if (mid.parseHeaders text).1 = .badRequest then
          .done (mid.parseHeaders text).2 (.code .badRequest)
        else if (mid.parseHeaders text).1 = .getRequest then
          .done (mid.parseHeaders text).2 .doRequest
        else .again (mid.parseHeaders text).2 := by
  refine ⟨_, _, _, h.ready, ?_⟩
  have hstate : (c.endLine (c.checkedIdx + line.length)).checkState = .header := by
    have := h.state
    rwa [if_neg hne] at this
  exact (pass_endLine fellOff h.consumed hline).trans (handleLine_header hstate)

/-- A pointer of the line just parsed. -/
theorem Ready.points (h : c.Ready text e lines line rest) {after : HttpConn}
    (hread : after.readIdx = c.readIdx) (hchecked : after.checkedIdx = c.checkedIdx)
    (hend : after.readBuf.get e = c.readBuf.get e) {p : Nat} (hp : p ≤ e) :
    ∃ e, after.Closed p e ∧ e < after.checkedIdx := by
  have hclosed := h.atLine.closed
  refine ⟨e, ⟨hp, hend.trans hclosed.nul, hread ▸ hclosed.received, hread ▸ hclosed.fits⟩, ?_⟩
  rw [hchecked, h.atLine.checked_eq]
  omega

/-- A request line is taken. -/
theorem Tracks.request_line (h : c.Tracks [] (line ++ CR :: LF :: rest))
    (hline : IsLine line) {target version : List Byte}
    (hrequest : RequestLine (cText line) target version) :
    ∃ after, readRequest fellOff c = readRequest fellOff after ∧
      after.Tracks [line] rest := by
  obtain ⟨mid, text, e, hready, hpass⟩ := h.pass_request fellOff hline
  have hstep := parseRequestLine_step hready.atLine.closed
  obtain ⟨hcode, hheader, ⟨p, hpe, hurl, hp⟩, ⟨q, hqe, hversion, hq⟩⟩ :=
    parseRequestLine_of_line hready.atLine.closed (hready.text_eq.symm ▸ hrequest)
  obtain ⟨hread, hchecked, -, hhost, hlength, hlinger⟩ := hstep.frame
  have hagain : (mid.parseRequestLine text).1 ≠ .badRequest := by
    rw [hcode]
    exact nofun
  rw [if_neg hagain] at hpass
  have hend := hstep.behind e (Nat.le_refl e)
  refine ⟨_, readRequest_again hpass, hready.consumed.parseRequestLine hready.atLine,
    hheader, ?_, ⟨hlinger.trans hready.fields.linger,
      hlength.trans hready.fields.contenLength, ?_⟩⟩
  · intro request hmem
    cases hmem
    refine ⟨target, version, hrequest, ?_, ?_⟩
    · rw [hurl]
      exact ⟨hready.points hread hchecked hend hpe, hp⟩
    · rw [hversion]
      exact ⟨hready.points hread hchecked hend hqe, hq⟩
  · -- no header line has been read, so there is no host to keep
    have hnone := hready.fields.host
    rw [hhost]
    cases hpointer : mid.host with
    | none => trivial
    | some p =>
        rw [hpointer] at hnone
        exact hnone.elim

/-- Any other first line ends the call. -/
theorem Tracks.bad_request (h : c.Tracks [] (line ++ CR :: LF :: rest))
    (hline : IsLine line)
    (hnone : ∀ target version, ¬ RequestLine (cText line) target version) :
    ∃ after, readRequest fellOff c = (after, .code .badRequest) ∧
      after.Consumed [line] rest := by
  obtain ⟨mid, text, e, hready, hpass⟩ := h.pass_request fellOff hline
  have hcode := parseRequestLine_of_no_line hready.atLine.closed
    (hready.text_eq.symm ▸ hnone)
  rw [if_pos hcode] at hpass
  exact ⟨_, readRequest_done hpass, hready.consumed.parseRequestLine hready.atLine⟩

theorem HasRequest.mono {mid after : HttpConn} (h : mid.HasRequest lines)
    (hurl : after.url = mid.url) (hversion : after.version = mid.version)
    (hread : after.readIdx = mid.readIdx) (hchecked : after.checkedIdx = mid.checkedIdx)
    (hbuf : after.readBuf = mid.readBuf) : after.HasRequest lines := by
  intro request hmem
  obtain ⟨target, version, hline, hpoints, hpoints'⟩ := h request hmem
  refine ⟨target, version, hline, ?_, ?_⟩
  · rw [hurl]
    exact hpoints.mono hread (Nat.le_of_eq hchecked.symm) fun i _ => by rw [hbuf]
  · rw [hversion]
    exact hpoints'.mono hread (Nat.le_of_eq hchecked.symm) fun i _ => by rw [hbuf]

theorem HasRequest.append (h : c.HasRequest lines) (hne : lines ≠ []) :
    c.HasRequest (lines ++ [line]) := by
  intro request hmem
  rw [List.head?_append_of_ne_nil _ hne] at hmem
  exact h request hmem

theorem fieldsOf_tail_append (hne : lines ≠ []) :
    fieldsOf (lines ++ [line]).tail = (fieldsOf lines.tail).add (cText line) := by
  rw [List.tail_append_of_ne_nil hne, fieldsOf_append]

/-- A header line is taken. -/
theorem Tracks.header_line (h : c.Tracks lines (line ++ CR :: LF :: rest))
    (hline : IsLine line) (hne : lines ≠ []) (hfield : cText line ≠ []) :
    ∃ after, readRequest fellOff c = readRequest fellOff after ∧
      after.Tracks (lines ++ [line]) rest := by
  obtain ⟨mid, text, e, hready, hpass⟩ := h.pass_header fellOff hline hne
  have hstep := parseHeaders_step hready.atLine.closed
  obtain ⟨hread, hchecked, -, hbuf, hurl, hversion, -⟩ := hstep.frame
  have hend : e < mid.checkedIdx := by
    rw [hready.atLine.checked_eq]
    omega
  obtain ⟨hcode, hstate, hfields⟩ := parseHeaders_field hready.atLine.closed hend
    (by rw [hready.text_eq]; exact hfield) hready.fields
  have hheader : mid.checkState = .header := hready.state.trans (if_neg hne)
  rw [hcode] at hpass
  refine ⟨_, readRequest_again hpass, ?_, ?_, ?_, ?_⟩
  · apply hready.consumed.parseHeaders hready.atLine
    rw [hstate, hheader]
    exact nofun
  · rw [hstate, hheader, if_neg (List.append_ne_nil_of_left_ne_nil hne _)]
  · exact (hready.request.mono hurl hversion hread hchecked hbuf).append hne
  · rw [fieldsOf_tail_append hne, ← hready.text_eq]
    exact hfields

/-- `m_check_state = CHECK_STATE_CONTENT` -/
def awaitContent (c : HttpConn) : HttpConn := { c with checkState := .content }

/-- The line that ends the head, which may be longer than its C string. -/
theorem Tracks.blank_line (h : c.Tracks lines (line ++ CR :: LF :: rest))
    (hline : IsLine line) (hne : lines ≠ []) (hblank : cText line = []) :
    ∃ after, after.Tracks (lines ++ [line]) rest ∧
      readRequest fellOff c =
        if after.contenLength = 0 then (after, .doRequest)
        else readRequest fellOff after.awaitContent := by
  obtain ⟨mid, text, e, hready, hpass⟩ := h.pass_header fellOff hline hne
  have hheader : mid.checkState = .header := hready.state.trans (if_neg hne)
  rw [parseHeaders_blank (hready.text_eq.trans hblank)] at hpass
  refine ⟨mid, ⟨hready.consumed, ?_, hready.request.append hne, ?_⟩, ?_⟩
  · rw [hheader, if_neg (List.append_ne_nil_of_left_ne_nil hne _)]
  · rw [fieldsOf_tail_append hne, hblank, HeaderFields.add_nil]
    exact hready.fields
  · by_cases hlength : mid.contenLength = 0
    · rw [if_pos hlength]
      simp only [hlength, ne_eq, not_true_eq_false, ↓reduceIte] at hpass
      exact readRequest_done hpass
    · rw [if_neg hlength]
      simp only [ne_eq, hlength, not_false_eq_true, ↓reduceIte] at hpass
      exact readRequest_again hpass

end Turn

end HttpConn

end LinuxLearning.Webserver
