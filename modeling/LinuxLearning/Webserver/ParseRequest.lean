/-
The parsers of one line: `parse_request_line`, `parse_headers` and
`parse_content`.  The first two read the line as a C string, and the lemmas
about them need a NUL behind the line, which `parse_line` has put there.
-/
import LinuxLearning.Webserver.HttpConn

namespace LinuxLearning.Webserver

open CString

/-- The separators `" \t"`. -/
def blanks : List Byte := ascii " \t"

/-- '/' -/
def slash : Byte := 47

namespace HttpConn

/-- `m_url` once an absolute target has lost its scheme and host. -/
def stripHost (c : HttpConn) (url : Nat) : Option Nat :=
  if strncaseEq (c.strAt url) (ascii "http://") 7 then
    strchr c.readBuf (url + 7) slash
  else some url

/-- `parse_request_line` from the check of the target on. -/
def checkUrl (c : HttpConn) (url : Nat) : HttpCode × HttpConn :=
  match c.stripHost url with
  | none => (.badRequest, c.setUrl none)
  | some p =>
      if c.readBuf.get p = slash then
        (.noRequest, { c.setUrl p with checkState := .header })
      else (.badRequest, c.setUrl p)

/-- `parse_request_line` from the search for the version on. -/
def parseVersion (c : HttpConn) (url : Nat) : HttpCode × HttpConn :=
  match strpbrk c.readBuf url blanks with
  | none => (.badRequest, c.setVersion none)
  | some v =>
      let c := c.store v 0
      let version := v + 1 + strspn c.readBuf (v + 1) blanks
      let c := c.setVersion version
      if strcaseEq (c.strAt version) (ascii "HTTP/1.1") then c.checkUrl url
      else (.badRequest, c)

/-- `http_conn::parse_request_line` -/
def parseRequestLine (c : HttpConn) (text : Nat) : HttpCode × HttpConn :=
  match strpbrk c.readBuf text blanks with
  | none => (.badRequest, c.setUrl none)
  | some u =>
      let c := (c.store u 0).setUrl (u + 1 : Nat)
      if strcaseEq (c.strAt text) (ascii "GET") then
        let c := c.setMethod .get
        let url := u + 1 + strspn c.readBuf (u + 1) blanks
        (c.setUrl url).parseVersion url
      else (.badRequest, c)

/-- `http_conn::parse_headers` -/
def parseHeaders (c : HttpConn) (text : Nat) : HttpCode × HttpConn :=
  if c.readBuf.get text = 0 then
    if c.contenLength ≠ 0 then (.noRequest, { c with checkState := .content })
    else (.getRequest, c)
  else if strncaseEq (c.strAt text) (ascii "Proxy-Connection:") 17 then
    let text := text + 17
    let text := text + strspn c.readBuf text blanks
    if strcaseEq (c.strAt text) (ascii "keep-alive") then (.noRequest, c)
    else (.noRequest, { c with linger := false })
  else if strncaseEq (c.strAt text) (ascii "Content-Length:") 15 then
    let text := text + 15
    let text := text + strspn c.readBuf text blanks
    (.noRequest, { c with contenLength := toInt32 (atol (c.strAt text)) })
  else if strncaseEq (c.strAt text) (ascii "Host:") 5 then
    let text := text + 5
    let text := text + strspn c.readBuf text blanks
    (.noRequest, { c with host := some text })
  else (.noRequest, c)

/-- `http_conn::parse_content`; `none` when the function runs off its end
without returning a value. -/
def parseContent (c : HttpConn) (text : Nat) : Option HttpCode × HttpConn :=
  if toInt32 (c.contenLength + c.checkedIdx) ≤ c.readIdx then
    (some .getRequest, c.store (text + c.contenLength) 0)
  else (none, c)

/-- A NUL that closes the text at `text` and lies inside the received bytes. -/
structure Closed (c : HttpConn) (text e : Nat) : Prop where
  text_le : text ≤ e
  nul : c.readBuf.get e = 0
  received : e < c.readIdx
  fits : c.readIdx ≤ READ_BUFFER_SIZE

theorem Closed.of_le {c : HttpConn} {text later e : Nat} (h : c.Closed text e)
    (hlater : later ≤ e) : c.Closed later e :=
  ⟨hlater, h.nul, h.received, h.fits⟩

theorem Closed.store {c : HttpConn} {text e : Nat} (h : c.Closed text e) (u : Nat) :
    (c.store u 0).Closed text e := by
  rw [store_natCast]
  refine ⟨h.text_le, ?_, h.received, h.fits⟩
  rw [Buffer.get_poke]
  split
  · rfl
  · exact h.nul

theorem Closed.setMethod {c : HttpConn} {text e : Nat} (h : c.Closed text e)
    (value : Method) : (c.setMethod value).Closed text e :=
  ⟨h.text_le, h.nul, h.received, h.fits⟩

theorem Closed.setUrl {c : HttpConn} {text e : Nat} (h : c.Closed text e)
    (p : Option Nat) : (c.setUrl p).Closed text e :=
  ⟨h.text_le, h.nul, h.received, h.fits⟩

theorem Closed.setVersion {c : HttpConn} {text e : Nat} (h : c.Closed text e)
    (p : Option Nat) : (c.setVersion p).Closed text e :=
  ⟨h.text_le, h.nul, h.received, h.fits⟩

section Recv

variable {c : HttpConn} {text e : Nat} (more : List Byte)

theorem strAt_recv (h : c.Closed text e) :
    (recvBytes more c).strAt text = c.strAt text := by
  symm
  apply cstr_congr h.text_le h.nul
  intro i _ hi
  exact (Buffer.get_blit_of_lt _ h.fits (by have := h.received; omega)).symm

theorem cstr_recv (h : c.Closed text e) :
    cstr (recvBytes more c).readBuf text = cstr c.readBuf text :=
  strAt_recv more h

theorem strpbrk_recv (h : c.Closed text e) (accept : List Byte) :
    strpbrk (recvBytes more c).readBuf text accept = strpbrk c.readBuf text accept := by
  rw [strpbrk, cstr_recv more h]
  rfl

theorem strspn_recv (h : c.Closed text e) (accept : List Byte) :
    strspn (recvBytes more c).readBuf text accept = strspn c.readBuf text accept := by
  rw [strspn, cstr_recv more h]
  rfl

theorem get_recv (h : c.Closed text e) :
    (recvBytes more c).readBuf.get text = c.readBuf.get text :=
  Buffer.get_blit_of_lt _ h.fits (Nat.lt_of_le_of_lt h.text_le h.received)

theorem store_recv (h : c.Closed text e) :
    (recvBytes more c).store text 0 = recvBytes more (c.store text 0) := by
  have hlt : text < c.readIdx := Nat.lt_of_le_of_lt h.text_le h.received
  rw [store_natCast, store_natCast]
  simp [recvBytes, Buffer.poke_blit _ h.fits hlt]

end Recv

/-- The string behind a matched prefix is still closed. -/
theorem Closed.skipPrefix {c : HttpConn} {text e k : Nat} {name : List Byte}
    (h : c.Closed text e) (hname : name.length = k)
    (hmatch : strncaseEq (c.strAt text) name k = true) : c.Closed (text + k) e := by
  apply h.of_le
  have hlen := cstr_length_le h.text_le h.nul
  simp only [strncaseEq, strcaseEq, strAt, beq_iff_eq] at hmatch
  have := congrArg List.length hmatch
  simp only [List.length_map, List.length_take, hname, Nat.min_self] at this
  have htext := h.text_le
  omega

theorem Closed.skipBlanks {c : HttpConn} {text e : Nat} (h : c.Closed text e) :
    c.Closed (text + strspn c.readBuf text blanks) e :=
  h.of_le (strspn_bound blanks h.text_le h.nul)

/-- The C string after a matched prefix and the blanks behind it. -/
theorem Closed.value {c : HttpConn} {text e k : Nat} {name : List Byte}
    (h : c.Closed text e) (hname : name.length = k)
    (hmatch : strncaseEq (c.strAt text) name k = true) :
    c.Closed (text + k + strspn c.readBuf (text + k) blanks) e :=
  (h.skipPrefix hname hmatch).skipBlanks

theorem Closed.found {c : HttpConn} {text e u : Nat} {accept : List Byte}
    (h : c.Closed text e) (hfound : strpbrk c.readBuf text accept = some u) :
    text ≤ u ∧ u < e :=
  strpbrk_bounds h.text_le h.nul hfound

theorem Closed.stripHost_le {c : HttpConn} {url e p : Nat} (h : c.Closed url e)
    (hp : c.stripHost url = some p) : p ≤ e := by
  unfold stripHost at hp
  split at hp
  · rename_i hmatch
    exact Nat.le_of_lt ((h.skipPrefix (by decide) hmatch).found hp).2
  · cases hp
    exact h.text_le

/-- All that `parse_request_line` may change on the line closed at `e`: bytes
of the line, some of them set to NUL, and the fields of the request line. -/
structure LineStep (c : HttpConn) (text e : Nat) (after : HttpConn) : Prop where
  shape : after = { c with
    readBuf := after.readBuf
    method := after.method
    url := after.url
    version := after.version
    checkState := after.checkState
    stores := after.stores }
  behind : ∀ i, e ≤ i → after.readBuf.get i = c.readBuf.get i
  zeros : ∀ i, c.readBuf.get i = 0 → after.readBuf.get i = 0
  stored : ∃ new, after.stores = c.stores ++ new ∧ ∀ i ∈ new, (text : Int) ≤ i ∧ i < e
  url_le : after.url = c.url ∨ ∀ p ∈ after.url, p ≤ e
  version_le : after.version = c.version ∨ ∀ p ∈ after.version, p ≤ e

theorem LineStep.trans {c mid after : HttpConn} {text later e : Nat}
    (hfirst : c.LineStep text e mid) (hsecond : mid.LineStep later e after)
    (hlater : text ≤ later) : c.LineStep text e after := by
  obtain ⟨new₁, hnew₁, hin₁⟩ := hfirst.stored
  obtain ⟨new₂, hnew₂, hin₂⟩ := hsecond.stored
  refine ⟨?_, ?_, ?_, ⟨new₁ ++ new₂, ?_, ?_⟩, ?_, ?_⟩
  · have h := hsecond.shape
    rw [hfirst.shape] at h
    exact h
  · intro i hi
    rw [hsecond.behind i hi, hfirst.behind i hi]
  · exact fun i hi => hsecond.zeros i (hfirst.zeros i hi)
  · rw [hnew₂, hnew₁, List.append_assoc]
  · intro i hi
    rcases List.mem_append.mp hi with hi | hi
    · exact hin₁ i hi
    · have := hin₂ i hi
      omega
  · rcases hsecond.url_le with hsame | hle
    · rw [hsame]
      exact hfirst.url_le
    · exact Or.inr hle
  · rcases hsecond.version_le with hsame | hle
    · rw [hsame]
      exact hfirst.version_le
    · exact Or.inr hle

/-- A step that stores nothing. -/
theorem LineStep.fields {c : HttpConn} (after : HttpConn) (text e : Nat)
    (hshape : after = { c with
      method := after.method
      url := after.url
      version := after.version
      checkState := after.checkState })
    (hurl : after.url = c.url ∨ ∀ p ∈ after.url, p ≤ e)
    (hversion : after.version = c.version ∨ ∀ p ∈ after.version, p ≤ e) :
    c.LineStep text e after := by
  refine ⟨by rw [hshape], fun i _ => by rw [hshape], fun i hi => by rw [hshape]; exact hi,
    ⟨[], by rw [hshape]; simp, by simp⟩, hurl, hversion⟩

/-- The step that cuts the line with a NUL. -/
theorem LineStep.cut {c : HttpConn} {text e u : Nat} (htext : text ≤ u) (hu : u < e) :
    c.LineStep text e (c.store u 0) := by
  rw [store_natCast]
  refine ⟨rfl, ?_, ?_, ⟨[(u : Int)], rfl, ?_⟩, Or.inl rfl, Or.inl rfl⟩
  · intro i hi
    exact Buffer.get_poke_of_ne _ (by omega) _
  · intro i hi
    simp only [Buffer.get_poke]
    split
    · rfl
    · exact hi
  · intro i hi
    rw [List.mem_singleton] at hi
    omega

theorem checkUrl_step {c : HttpConn} {url e : Nat} (h : c.Closed url e) :
    c.LineStep url e (c.checkUrl url).2 := by
  unfold checkUrl
  cases htarget : c.stripHost url with
  | none => exact LineStep.fields _ url e rfl (Or.inr nofun) (Or.inl rfl)
  | some p =>
      have hp : ∀ q ∈ some p, q ≤ e := by
        intro q hq
        cases hq
        exact h.stripHost_le htarget
      dsimp only
      split
      · exact LineStep.fields _ url e rfl (Or.inr hp) (Or.inl rfl)
      · exact LineStep.fields _ url e rfl (Or.inr hp) (Or.inl rfl)

theorem parseVersion_step {c : HttpConn} {url e : Nat} (h : c.Closed url e) :
    c.LineStep url e (c.parseVersion url).2 := by
  unfold parseVersion
  cases hfound : strpbrk c.readBuf url blanks with
  | none => exact LineStep.fields _ url e rfl (Or.inl rfl) (Or.inr nofun)
  | some v =>
      obtain ⟨hle, hlt⟩ := h.found hfound
      have hstored : (c.store v 0).Closed url e := h.store v
      have hversion : (c.store v 0).Closed
          (v + 1 + strspn (c.store v 0).readBuf (v + 1) blanks) e :=
        (hstored.of_le hlt).skipBlanks
      have hassign := (LineStep.cut hle hlt (c := c)).trans
        (LineStep.fields ((c.store v 0).setVersion
            (v + 1 + strspn (c.store v 0).readBuf (v + 1) blanks : Nat)) url e
          rfl (Or.inl rfl) (Or.inr (fun p hp => by cases hp; exact hversion.text_le)))
        (Nat.le_refl url)
      dsimp only
      split
      · exact hassign.trans (checkUrl_step (hstored.setVersion _)) (Nat.le_refl url)
      · exact hassign

/-- Everything `parse_request_line` changes. -/
theorem parseRequestLine_step {c : HttpConn} {text e : Nat} (h : c.Closed text e) :
    c.LineStep text e (c.parseRequestLine text).2 := by
  unfold parseRequestLine
  cases hfound : strpbrk c.readBuf text blanks with
  | none => exact LineStep.fields _ text e rfl (Or.inr nofun) (Or.inl rfl)
  | some u =>
      obtain ⟨hle, hlt⟩ := h.found hfound
      have hstored : (c.store u 0).Closed text e := h.store u
      have hafter : (c.store u 0).Closed (u + 1) e := hstored.of_le hlt
      have hurl := hafter.skipBlanks
      dsimp only
      split
      · have hassign := (LineStep.cut hle hlt (c := c)).trans
          (LineStep.fields ((((c.store u 0).setUrl (u + 1 : Nat)).setMethod .get).setUrl
              (u + 1 + strspn (c.store u 0).readBuf (u + 1) blanks : Nat)) text e
            rfl (Or.inr (fun p hp => by cases hp; exact hurl.text_le)) (Or.inl rfl))
          (Nat.le_refl text)
        exact hassign.trans
          (parseVersion_step (((hurl.setUrl _).setMethod _).setUrl _)) (by omega)
      · exact (LineStep.cut hle hlt).trans
          (LineStep.fields _ text e rfl
            (Or.inr (fun p hp => by cases hp; exact hafter.text_le)) (Or.inl rfl))
          (Nat.le_refl text)

/-- All that `parse_headers` may change. -/
structure HeaderStep (c : HttpConn) (e : Nat) (after : HttpConn) : Prop where
  shape : after = { c with
    checkState := after.checkState
    contenLength := after.contenLength
    linger := after.linger
    host := after.host }
  host_le : after.host = c.host ∨ ∀ p ∈ after.host, p ≤ e

/-- Everything `parse_headers` changes. -/
theorem parseHeaders_step {c : HttpConn} {text e : Nat} (h : c.Closed text e) :
    c.HeaderStep e (c.parseHeaders text).2 := by
  unfold parseHeaders
  split
  · split <;> exact ⟨rfl, Or.inl rfl⟩
  · split
    · dsimp only
      split <;> exact ⟨rfl, Or.inl rfl⟩
    · split
      · exact ⟨rfl, Or.inl rfl⟩
      · split
        · rename_i hmatch
          refine ⟨rfl, Or.inr fun p hp => ?_⟩
          cases hp
          exact (h.value (by decide) hmatch).text_le
        · exact ⟨rfl, Or.inl rfl⟩

section RecvLine

variable {c : HttpConn} {text e : Nat} (more : List Byte)

theorem stripHost_recv (h : c.Closed text e) :
    (recvBytes more c).stripHost text = c.stripHost text := by
  unfold stripHost
  rw [strAt_recv more h]
  split
  · rename_i hmatch
    exact strpbrk_recv more (h.skipPrefix (by decide) hmatch) [slash]
  · rfl

theorem checkUrl_recv (h : c.Closed text e) :
    (recvBytes more c).checkUrl text =
      ((c.checkUrl text).1, recvBytes more (c.checkUrl text).2) := by
  unfold checkUrl
  rw [stripHost_recv more h]
  cases htarget : c.stripHost text with
  | none => rfl
  | some p =>
      dsimp only
      rw [get_recv more (h.of_le (h.stripHost_le htarget))]
      split <;> rfl

theorem parseVersion_recv (h : c.Closed text e) :
    (recvBytes more c).parseVersion text =
      ((c.parseVersion text).1, recvBytes more (c.parseVersion text).2) := by
  unfold parseVersion
  rw [strpbrk_recv more h]
  cases hfound : strpbrk c.readBuf text blanks with
  | none => rfl
  | some v =>
      obtain ⟨hle, hlt⟩ := h.found hfound
      have hstored : (c.store v 0).Closed text e := h.store v
      have hafter : (c.store v 0).Closed (v + 1) e := hstored.of_le hlt
      have hstore : (recvBytes more c).store v 0 = recvBytes more (c.store v 0) :=
        store_recv more (h.of_le (Nat.le_of_lt hlt))
      simp only [hstore, strspn_recv more hafter, strAt_setVersion,
        strAt_recv more hafter.skipBlanks]
      split
      · rename_i hversion
        simp only [hversion, ↓reduceIte]
        rw [setVersion_recv]
        exact checkUrl_recv more (hstored.setVersion _)
      · rename_i hversion
        simp only [hversion]
        rfl

/-- Bytes received behind the line do not change what the request line
parser does. -/
theorem parseRequestLine_recv (h : c.Closed text e) :
    (recvBytes more c).parseRequestLine text =
      ((c.parseRequestLine text).1, recvBytes more (c.parseRequestLine text).2) := by
  unfold parseRequestLine
  rw [strpbrk_recv more h]
  cases hfound : strpbrk c.readBuf text blanks with
  | none => rfl
  | some u =>
      obtain ⟨hle, hlt⟩ := h.found hfound
      have hstored : (c.store u 0).Closed text e := h.store u
      have hafter : (c.store u 0).Closed (u + 1) e := hstored.of_le hlt
      have hstore : (recvBytes more c).store u 0 = recvBytes more (c.store u 0) :=
        store_recv more (h.of_le (Nat.le_of_lt hlt))
      simp only [strAt_setUrl, readBuf_setMethod, readBuf_setUrl, hstore,
        strspn_recv more hafter, strAt_recv more hstored]
      split
      · rename_i hmethod
        simp only [hmethod, ↓reduceIte]
        rw [setUrl_recv, setMethod_recv, setUrl_recv]
        exact parseVersion_recv more
          (((hafter.skipBlanks.setUrl _).setMethod _).setUrl _)
      · rename_i hmethod
        simp only [hmethod]
        rfl

/-- Bytes received behind the line do not change what the header parser does. -/
theorem parseHeaders_recv (h : c.Closed text e) :
    (recvBytes more c).parseHeaders text =
      ((c.parseHeaders text).1, recvBytes more (c.parseHeaders text).2) := by
  simp only [parseHeaders, get_recv more h, strAt_recv more h]
  by_cases hblank : c.readBuf.get text = 0
  · by_cases hlength : c.contenLength = 0 <;>
      simp [hblank, hlength, recvBytes]
  simp only [hblank, ↓reduceIte]
  by_cases hproxy : strncaseEq (c.strAt text) (ascii "Proxy-Connection:") 17 = true
  · simp only [hproxy, ↓reduceIte, strspn_recv more (h.skipPrefix (by decide) hproxy),
      strAt_recv more (h.value (by decide) hproxy)]
    split <;> rfl
  simp only [hproxy]
  by_cases hcontent : strncaseEq (c.strAt text) (ascii "Content-Length:") 15 = true
  · simp only [hcontent, ↓reduceIte, strspn_recv more (h.skipPrefix (by decide) hcontent),
      strAt_recv more (h.value (by decide) hcontent)]
    rfl
  simp only [hcontent]
  by_cases hhost : strncaseEq (c.strAt text) (ascii "Host:") 5 = true
  · simp only [hhost, ↓reduceIte, strspn_recv more (h.skipPrefix (by decide) hhost)]
    rfl
  · simp only [hhost]
    rfl

end RecvLine

end HttpConn

end LinuxLearning.Webserver
