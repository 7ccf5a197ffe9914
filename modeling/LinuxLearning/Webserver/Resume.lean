/-
Parsing in pieces.  `Scanning` is what holds of a connection between two turns
of the read loop; under it a turn does the same when more bytes stand behind
those already received, and a call that returned NO_REQUEST goes on, on more
bytes, as one call on all of them.
-/
import LinuxLearning.Webserver.ProcessRead

namespace LinuxLearning.Webserver

open Lines

namespace HttpConn

/-- The pointer is null or to a string that is closed inside the received
bytes. -/
def PointerClosed (c : HttpConn) (pointer : Option Nat) : Prop :=
  ∀ p ∈ pointer, ∃ e, c.Closed p e

/-- The parser's state between two turns, as long as no body is awaited. -/
structure Scanning (c : HttpConn) : Prop where
  notContent : c.checkState ≠ .content
  start_le : c.startLine ≤ c.checkedIdx
  checked_le : c.checkedIdx ≤ c.readIdx
  fits : c.readIdx ≤ READ_BUFFER_SIZE
  notAfterCr : c.NotAfterCr
  url : c.PointerClosed c.url
  version : c.PointerClosed c.version
  host : c.PointerClosed c.host

theorem init_scanning (c : HttpConn) : c.init.Scanning where
  notContent := nofun
  start_le := Nat.le_refl 0
  checked_le := Nat.le_refl 0
  fits := Nat.zero_le _
  notAfterCr := fun h => absurd h (Nat.not_lt_zero 1)
  url := nofun
  version := nofun
  host := nofun

theorem Closed.recv {c : HttpConn} {text e : Nat} (h : c.Closed text e)
    {more : List Byte} (hfit : c.readIdx + more.length ≤ READ_BUFFER_SIZE) :
    (recvBytes more c).Closed text e := by
  have hreceived := h.received
  exact ⟨h.text_le, (get_recv more (h.of_le h.text_le |>.of_le (Nat.le_refl e))).trans h.nul,
    Nat.lt_of_lt_of_le hreceived (Nat.le_add_right _ _), hfit⟩

theorem PointerClosed.recv {c : HttpConn} {pointer : Option Nat}
    (h : c.PointerClosed pointer) {more : List Byte}
    (hfit : c.readIdx + more.length ≤ READ_BUFFER_SIZE) :
    (recvBytes more c).PointerClosed pointer := by
  intro p hp
  obtain ⟨e, hclosed⟩ := h p hp
  exact ⟨e, hclosed.recv hfit⟩

/-- Strings stay closed as long as NULs are kept. -/
theorem PointerClosed.mono {c after : HttpConn} {pointer : Option Nat}
    (h : c.PointerClosed pointer) (hread : after.readIdx = c.readIdx)
    (hzeros : ∀ i, c.readBuf.get i = 0 → after.readBuf.get i = 0) :
    after.PointerClosed pointer := by
  intro p hp
  obtain ⟨e, hclosed⟩ := h p hp
  exact ⟨e, hclosed.text_le, hzeros e hclosed.nul, hread ▸ hclosed.received,
    hread ▸ hclosed.fits⟩

theorem Scanning.recv {c : HttpConn} (h : c.Scanning) {more : List Byte}
    (hfit : c.readIdx + more.length ≤ READ_BUFFER_SIZE) :
    (recvBytes more c).Scanning where
  notContent := h.notContent
  start_le := h.start_le
  checked_le := Nat.le_trans h.checked_le (Nat.le_add_right _ _)
  fits := hfit
  notAfterCr := h.notAfterCr.recv h.checked_le h.fits
  url := h.url.recv hfit
  version := h.version.recv hfit
  host := h.host.recv hfit

theorem Scanning.moveTo {c : HttpConn} (h : c.Scanning) {k : Nat}
    (hle : c.checkedIdx ≤ k) (hk : k ≤ c.readIdx) (hprev : (c.moveTo k).NotAfterCr) :
    (c.moveTo k).Scanning where
  notContent := h.notContent
  start_le := Nat.le_trans h.start_le hle
  checked_le := hk
  fits := h.fits
  notAfterCr := hprev
  url := h.url.mono rfl fun _ hi => hi
  version := h.version.mono rfl fun _ hi => hi
  host := h.host.mono rfl fun _ hi => hi

/-- The unchecked bytes, as a list. -/
theorem exists_pending {c : HttpConn} (hchecked : c.checkedIdx ≤ c.readIdx)
    (hfits : c.readIdx ≤ READ_BUFFER_SIZE) : ∃ data, c.Pending data := by
  have hsize := c.readBuf.size_eq
  refine ⟨(c.readBuf.bytes.drop c.checkedIdx).take (c.readIdx - c.checkedIdx), ?_, ?_⟩
  · intro j hj
    rw [List.length_take, List.length_drop] at hj
    rw [List.getElem_take, List.getElem_drop]
    exact Buffer.get_eq_getElem _ _
  · rw [List.length_take, List.length_drop]
    omega

/-- After the end of a line the line stands closed before `m_checked_idx`. -/
theorem Scanning.endLine_closed {c : HttpConn} (h : c.Scanning) {e : Nat}
    (hchecked : c.checkedIdx ≤ e) (he : e + 1 < c.readIdx) :
    (c.endLine e).markLine.Closed c.startLine e := by
  have hfits := h.fits
  refine ⟨Nat.le_trans h.start_le hchecked, ?_, Nat.lt_of_succ_lt he, hfits⟩
  change ((c.readBuf.poke e 0).poke (e + 1) 0).get e = 0
  rw [Buffer.get_poke_of_ne _ (by omega), Buffer.get_poke_self _ (by omega)]

theorem endLine_zeros (c : HttpConn) (e : Nat) {i : Nat} (hi : c.readBuf.get i = 0) :
    (c.endLine e).readBuf.get i = 0 := by
  simp only [endLine, Buffer.get_poke]
  split
  · rfl
  · split
    · rfl
    · exact hi

/-- The fields of a step that no pass over a line changes. -/
theorem LineStep.frame {c after : HttpConn} {text e : Nat} (h : c.LineStep text e after) :
    after.readIdx = c.readIdx ∧ after.checkedIdx = c.checkedIdx ∧
      after.startLine = c.startLine ∧ after.host = c.host ∧
      after.contenLength = c.contenLength ∧ after.linger = c.linger := by
  rw [h.shape]
  exact ⟨rfl, rfl, rfl, rfl, rfl, rfl⟩

theorem HeaderStep.frame {c after : HttpConn} {e : Nat} (h : c.HeaderStep e after) :
    after.readIdx = c.readIdx ∧ after.checkedIdx = c.checkedIdx ∧
      after.startLine = c.startLine ∧ after.readBuf = c.readBuf ∧
      after.url = c.url ∧ after.version = c.version ∧ after.stores = c.stores := by
  rw [h.shape]
  exact ⟨rfl, rfl, rfl, rfl, rfl, rfl, rfl⟩

theorem checkUrl_checkState (c : HttpConn) (url : Nat) :
    (c.checkUrl url).2.checkState = c.checkState ∨
      (c.checkUrl url).2.checkState = .header := by
  unfold checkUrl
  split
  · exact Or.inl rfl
  · split
    · exact Or.inr rfl
    · exact Or.inl rfl

theorem parseVersion_checkState (c : HttpConn) (url : Nat) :
    (c.parseVersion url).2.checkState = c.checkState ∨
      (c.parseVersion url).2.checkState = .header := by
  unfold parseVersion
  split
  · exact Or.inl rfl
  · dsimp only
    split
    · exact checkUrl_checkState _ _
    · exact Or.inl rfl

theorem parseRequestLine_checkState (c : HttpConn) (text : Nat) :
    (c.parseRequestLine text).2.checkState = c.checkState ∨
      (c.parseRequestLine text).2.checkState = .header := by
  unfold parseRequestLine
  split
  · exact Or.inl rfl
  · dsimp only
    split
    · exact parseVersion_checkState _ _
    · exact Or.inl rfl

/-- The state in which a closed line is handed to its parser. -/
structure AtLine (c : HttpConn) (text e : Nat) : Prop where
  closed : c.Closed text e
  notContent : c.checkState ≠ .content
  start_eq : c.startLine = e + 2
  checked_eq : c.checkedIdx = e + 2
  checked_le : e + 2 ≤ c.readIdx
  nul : c.readBuf.get (e + 1) = 0
  url : c.PointerClosed c.url
  version : c.PointerClosed c.version
  host : c.PointerClosed c.host

theorem Scanning.atLine {c : HttpConn} (h : c.Scanning) {e : Nat}
    (hchecked : c.checkedIdx ≤ e) (he : e + 1 < c.readIdx) :
    (c.endLine e).markLine.AtLine c.startLine e where
  closed := h.endLine_closed hchecked he
  notContent := h.notContent
  start_eq := rfl
  checked_eq := rfl
  checked_le := he
  nul := by
    have hfits := h.fits
    exact Buffer.get_poke_self _ (by omega) 0
  url := h.url.mono rfl (fun _ hi => endLine_zeros c e hi)
  version := h.version.mono rfl (fun _ hi => endLine_zeros c e hi)
  host := h.host.mono rfl (fun _ hi => endLine_zeros c e hi)

theorem notAfterCr_of_nul {c : HttpConn} {e : Nat} (hchecked : c.checkedIdx = e + 2)
    (hnul : c.readBuf.get (e + 1) = 0) : c.NotAfterCr := by
  intro _
  rw [hchecked, show e + 2 - 1 = e + 1 from rfl, hnul]
  decide

/-- The request line parser leads from line to line. -/
theorem AtLine.requestLine {c : HttpConn} {text e : Nat} (h : c.AtLine text e) :
    (c.parseRequestLine text).2.Scanning := by
  have hstep := parseRequestLine_step h.closed
  obtain ⟨hread, hchecked, hstart, hhost, -, -⟩ := hstep.frame
  have hend : (c.parseRequestLine text).2.readBuf.get e = 0 := by
    rw [hstep.behind e (Nat.le_refl e), h.closed.nul]
  have hnul : (c.parseRequestLine text).2.readBuf.get (e + 1) = 0 := by
    rw [hstep.behind (e + 1) (Nat.le_succ e), h.nul]
  have hclosed : ∀ p ≤ e, ∃ e', (c.parseRequestLine text).2.Closed p e' := fun p hp =>
    ⟨e, hp, hend, hread ▸ h.closed.received, hread ▸ h.closed.fits⟩
  constructor
  · rcases parseRequestLine_checkState c text with hsame | hheader
    · rw [hsame]
      exact h.notContent
    · rw [hheader]
      exact nofun
  · rw [hstart, hchecked, h.start_eq, h.checked_eq]
  · rw [hchecked, hread, h.checked_eq]
    exact h.checked_le
  · rw [hread]
    exact h.closed.fits
  · exact notAfterCr_of_nul (hchecked.trans h.checked_eq) hnul
  · rcases hstep.url_le with hsame | hle
    · rw [hsame]
      exact h.url.mono hread hstep.zeros
    · exact fun p hp => hclosed p (hle p hp)
  · rcases hstep.version_le with hsame | hle
    · rw [hsame]
      exact h.version.mono hread hstep.zeros
    · exact fun p hp => hclosed p (hle p hp)
  · rw [hhost]
    exact h.host.mono hread hstep.zeros

/-- So does the header parser, unless it starts to wait for a body. -/
theorem AtLine.headers {c : HttpConn} {text e : Nat} (h : c.AtLine text e)
    (hcontent : (c.parseHeaders text).2.checkState ≠ .content) :
    (c.parseHeaders text).2.Scanning := by
  have hstep := parseHeaders_step h.closed
  obtain ⟨hread, hchecked, hstart, hbuf, hurl, hversion, -⟩ := hstep.frame
  have hzeros : ∀ i, c.readBuf.get i = 0 → (c.parseHeaders text).2.readBuf.get i = 0 :=
    fun i hi => by rw [hbuf, hi]
  constructor
  · exact hcontent
  · rw [hstart, hchecked, h.start_eq, h.checked_eq]
  · rw [hchecked, hread, h.checked_eq]
    exact h.checked_le
  · rw [hread]
    exact h.closed.fits
  · exact notAfterCr_of_nul (hchecked.trans h.checked_eq) (by rw [hbuf, h.nul])
  · rw [hurl]
    exact h.url.mono hread hzeros
  · rw [hversion]
    exact h.version.mono hread hzeros
  · rcases hstep.host_le with hsame | hle
    · rw [hsame]
      exact h.host.mono hread hzeros
    · intro p hp
      exact ⟨e, hle p hp, hzeros e h.closed.nul, hread ▸ h.closed.received,
        hread ▸ h.closed.fits⟩

/-- The result of a turn with more bytes received behind the connection. -/
def recvPass (more : List Byte) : PassResult → PassResult
  | .again c => .again (recvBytes more c)
  | .done c result => .done (recvBytes more c) result

/-- Bytes received behind a closed line do not change what is done with it. -/
theorem handleLine_recv {fellOff : Option HttpCode} {c : HttpConn} {e : Nat}
    (more : List Byte) (hcontent : c.checkState ≠ .content)
    (hclosed : c.markLine.Closed c.startLine e) :
    handleLine fellOff (recvBytes more c) = recvPass more (handleLine fellOff c) := by
  have hmark : (recvBytes more c).markLine = recvBytes more c.markLine := rfl
  have hstart : (recvBytes more c).startLine = c.startLine := rfl
  cases hstate : c.checkState with
  | requestLine =>
      rw [handleLine_requestLine hstate,
        handleLine_requestLine (c := recvBytes more c) hstate, hmark, hstart,
        parseRequestLine_recv more hclosed]
      split <;> rfl
  | header =>
      rw [handleLine_header hstate, handleLine_header (c := recvBytes more c) hstate,
        hmark, hstart, parseHeaders_recv more hclosed]
      split
      · rfl
      · split <;> rfl
  | content => exact absurd hstate hcontent

/-- Everything a turn can do: it handles a complete line, or it stops at a
line that is not complete and leaves the place where to go on. -/
theorem Scanning.pass_cases {c : HttpConn} (h : c.Scanning)
    (fellOff : Option HttpCode) :
    (∃ e, c.checkedIdx ≤ e ∧ e + 1 < c.readIdx ∧
      pass fellOff c = handleLine fellOff (c.endLine e) ∧
      ∀ more, c.readIdx + more.length ≤ READ_BUFFER_SIZE →
        pass fellOff (recvBytes more c) =
          handleLine fellOff (recvBytes more (c.endLine e))) ∨
    (∃ stop, pass fellOff c = .done (c.moveTo stop) (.code .noRequest) ∧
      (c.moveTo stop).Scanning ∧
      ∀ more, c.readIdx + more.length ≤ READ_BUFFER_SIZE →
        pass fellOff (recvBytes more c) =
          pass fellOff (recvBytes more (c.moveTo stop))) := by
  obtain ⟨data, hpending⟩ := exists_pending h.checked_le h.fits
  have hpass : pass fellOff c = onLine fellOff (parseLine c) :=
    pass_of_scanning fellOff h.notContent
  have hpassRecv : ∀ more stop, pass fellOff (recvBytes more (c.moveTo stop)) =
      onLine fellOff (parseLine (recvBytes more (c.moveTo stop))) :=
    fun _ _ => pass_of_scanning fellOff h.notContent
  have hstop : ∀ text rest, IsLine text → data = text ++ rest →
      pass fellOff c =
        .done (c.moveTo (c.checkedIdx + text.length)) (.code .noRequest) →
      ∃ stop, pass fellOff c = .done (c.moveTo stop) (.code .noRequest) ∧
        (c.moveTo stop).Scanning ∧
        ∀ more, c.readIdx + more.length ≤ READ_BUFFER_SIZE →
          pass fellOff (recvBytes more c) =
            pass fellOff (recvBytes more (c.moveTo stop)) := by
    rintro text rest htext rfl hdone
    have hlen := hpending.2
    rw [List.length_append] at hlen
    refine ⟨c.checkedIdx + text.length, hdone, ?_, ?_⟩
    · exact h.moveTo (Nat.le_add_right _ _) (by omega)
        (h.notAfterCr.skip htext (Buffer.hasAt_append.mp hpending.1).1)
    · intro more hfit
      rw [hpassRecv more, pass_of_scanning fellOff (c := recvBytes more c) h.notContent,
        parseLine_resume htext hpending hfit]
  rcases parseLine_cases h.notAfterCr hpending with ⟨text, rest, htext, rfl, hline⟩ |
    ⟨text, rest, htext, hdata, -, hline⟩ | ⟨text, rest, htext, hdata, -, hline⟩
  · have hlen := hpending.2
    simp only [List.length_append, List.length_cons] at hlen
    refine Or.inl ⟨c.checkedIdx + text.length, Nat.le_add_right _ _, by omega, ?_, ?_⟩
    · rw [hpass, hline]
      rfl
    · intro more hfit
      have hrecv := hpending.recv hfit
      rw [List.append_assoc, List.cons_append, List.cons_append] at hrecv
      rw [pass_of_scanning fellOff (c := recvBytes more c) h.notContent,
        parseLine_line htext hrecv]
      have he : c.checkedIdx + text.length + 1 < c.readIdx := by omega
      exact congrArg (handleLine fellOff) (endLine_recv more he h.fits)
  · refine Or.inr (hstop text rest htext hdata ?_)
    rw [hpass, hline]
    rfl
  · refine Or.inr (hstop text rest htext hdata ?_)
    rw [hpass, hline]
    rfl

/-- Handling a line never ends in NO_REQUEST. -/
theorem handleLine_ne_noRequest {fellOff : Option HttpCode} {c after : HttpConn} :
    handleLine fellOff c ≠ .done after (.code .noRequest) := by
  cases hstate : c.checkState with
  | requestLine =>
      rw [handleLine_requestLine hstate]
      split <;> exact nofun
  | header =>
      rw [handleLine_header hstate]
      split
      · exact nofun
      · split <;> exact nofun
  | content =>
      rw [handleLine_content hstate]
      split <;> exact nofun

/-- What handling a line leaves: a scanning connection, a connection that
awaits a body, or a result. -/
theorem Scanning.handleLine_again {c after : HttpConn} (h : c.Scanning) {e : Nat}
    (hchecked : c.checkedIdx ≤ e) (he : e + 1 < c.readIdx)
    {fellOff : Option HttpCode}
    (hpass : handleLine fellOff (c.endLine e) = .again after)
    (hcontent : after.checkState ≠ .content) : after.Scanning := by
  have hat := h.atLine hchecked he
  cases hstate : (c.endLine e).checkState with
  | requestLine =>
      rw [handleLine_requestLine hstate] at hpass
      split at hpass
      · cases hpass
      · cases hpass
        exact hat.requestLine
  | header =>
      rw [handleLine_header hstate] at hpass
      split at hpass
      · cases hpass
      · split at hpass
        · cases hpass
        · cases hpass
          exact hat.headers hcontent
  | content => exact absurd hstate h.notContent

/-- A connection that awaits a body is decided by the next turn. -/
theorem readRequest_content {fellOff : Option HttpCode} {c : HttpConn}
    (hcontent : c.checkState = .content) :
    (readRequest fellOff c).2 ≠ .code .noRequest ∧
      (readRequest fellOff c).1.checkState = .content := by
  have hpass : pass fellOff c = handleLine fellOff c := by rw [pass, if_pos hcontent]
  have hstate : (c.markLine.parseContent c.startLine).2.checkState = .content := by
    unfold parseContent
    split <;> exact hcontent
  rw [handleLine_content hcontent] at hpass
  split at hpass
  · rw [readRequest_done hpass]
    exact ⟨by simp, hstate⟩
  · rw [readRequest_done hpass]
    exact ⟨by simp, hstate⟩

/-- A call that returned NO_REQUEST can be resumed: what follows on more bytes
is what one call on all the bytes does. -/
theorem Scanning.readRequest_resume {fellOff : Option HttpCode} {c : HttpConn}
    (h : c.Scanning) (hmore : (readRequest fellOff c).2 = .code .noRequest) :
    (readRequest fellOff c).1.Scanning ∧
      (readRequest fellOff c).1.readIdx = c.readIdx ∧
      ∀ more, c.readIdx + more.length ≤ READ_BUFFER_SIZE →
        readRequest fellOff (recvBytes more (readRequest fellOff c).1) =
          readRequest fellOff (recvBytes more c) := by
  induction c using readRequest_induction fellOff with
  | hturn c ih =>
      rcases h.pass_cases fellOff with ⟨e, hle, he, hpass, hrecv⟩ |
        ⟨stop, hpass, hscan, hrecv⟩
      · have hclosed := h.endLine_closed hle he
        cases hline : handleLine fellOff (c.endLine e) with
        | again after =>
            have hagain := hpass.trans hline
            rw [readRequest_again hagain] at hmore ⊢
            have hcontent : after.checkState ≠ .content :=
              fun hcontent => (readRequest_content hcontent).1 hmore
            have hafter := h.handleLine_again hle he hline hcontent
            have hread : after.readIdx = c.readIdx := (handleLine_again_frame hline).readIdx
            obtain ⟨hscan, hidx, hresume⟩ := ih after hagain hafter hmore
            refine ⟨hscan, hidx.trans hread, fun more hfit => ?_⟩
            rw [hresume more (hread ▸ hfit)]
            have hrecvPass : pass fellOff (recvBytes more c) =
                .again (recvBytes more after) := by
              rw [hrecv more hfit, handleLine_recv (c := c.endLine e) more h.notContent hclosed, hline]
              rfl
            exact (readRequest_again hrecvPass).symm
        | done after result =>
            have hdone := hpass.trans hline
            rw [readRequest_done hdone] at hmore
            cases hmore
            exact absurd hline handleLine_ne_noRequest
      · rw [readRequest_done hpass] at hmore ⊢
        exact ⟨hscan, rfl, fun more hfit => (readRequest_congr (hrecv more hfit)).symm⟩

/-- A decision that does not concern a body stays the same when more bytes
stand behind those it was taken on. -/
theorem Scanning.readRequest_recv {fellOff : Option HttpCode} {c : HttpConn}
    (h : c.Scanning) (hdecided : (readRequest fellOff c).2 ≠ .code .noRequest)
    (hcontent : (readRequest fellOff c).1.checkState ≠ .content) {more : List Byte}
    (hfit : c.readIdx + more.length ≤ READ_BUFFER_SIZE) :
    readRequest fellOff (recvBytes more c) =
      (recvBytes more (readRequest fellOff c).1, (readRequest fellOff c).2) := by
  induction c using readRequest_induction fellOff with
  | hturn c ih =>
      rcases h.pass_cases fellOff with ⟨e, hle, he, hpass, hrecv⟩ |
        ⟨stop, hpass, hscan, hrecv⟩
      · have hrecvPass : pass fellOff (recvBytes more c) =
            recvPass more (handleLine fellOff (c.endLine e)) := by
          rw [hrecv more hfit,
            handleLine_recv (c := c.endLine e) more h.notContent
              (h.endLine_closed hle he)]
        cases hline : handleLine fellOff (c.endLine e) with
        | again after =>
            have hagain := hpass.trans hline
            rw [hline] at hrecvPass
            rw [readRequest_again hagain] at hdecided hcontent ⊢
            rw [readRequest_again hrecvPass]
            have hafterContent : after.checkState ≠ .content :=
              fun hstate => hcontent (readRequest_content hstate).2
            have hafter := h.handleLine_again hle he hline hafterContent
            have hread : after.readIdx = c.readIdx := (handleLine_again_frame hline).readIdx
            exact ih after hagain hafter hdecided hcontent (hread ▸ hfit)
        | done after result =>
            rw [hline] at hrecvPass
            rw [readRequest_done (hpass.trans hline), readRequest_done hrecvPass]
      · rw [readRequest_done hpass] at hdecided
        exact absurd rfl hdecided

end HttpConn

end LinuxLearning.Webserver
