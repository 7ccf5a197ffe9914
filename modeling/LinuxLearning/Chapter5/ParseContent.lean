/-
The receive loop of http_header_parser.cpp.  `parse_content` decides a request
as soon as the received bytes do, and until then it runs off its end: it never
returns NO_REQUEST, so the loop in `main` is never told to read on.
-/
import LinuxLearning.Chapter5.HeaderParser

namespace LinuxLearning.Chapter5

open CString Lines
open LinuxLearning.Webserver (IsHead IsStart RequestLine TargetOf blanks cText exists_target
  headBytes head_cases rootRequest rootRequest_line slash targetAt targetAt_of_target)

namespace Parser

section ParseLine

/-- The line that ends with the CR at `e` is closed. -/
def endLine (p : Parser) (e : Nat) : Parser :=
  { p with buffer := (p.buffer.poke e 0).poke (e + 1) 0, checkedIndex := e + 2 }

theorem endLine_startLine (p : Parser) (e : Nat) : (p.endLine e).startLine = p.startLine := rfl

/-- The byte before `checked_index` is not a CR the scanner ran past. -/
def NotAfterCr (p : Parser) : Prop :=
  p.checkedIndex > 1 → p.buffer.get (p.checkedIndex - 1) ≠ CR

/-- `parse_line` on the bytes it is given: it closes the first line of them, or
there is no complete one. -/
def Scans (p : Parser) (data : List Byte) : Prop :=
  (∃ line rest, IsLine line ∧ data = line ++ CR :: LF :: rest ∧
    parseLineLoop data.length p = (.lineOk, p.endLine (p.checkedIndex + line.length))) ∨
  (Open data ∧ (parseLineLoop data.length p).1 ≠ .lineOk)

section Scan

variable {p : Parser} {b : Byte} {data : List Byte}

theorem scans_cr (hb : p.buffer.get p.checkedIndex = CR)
    (htail : p.buffer.HasAt (p.checkedIndex + 1) data)
    (hread : p.checkedIndex + (data.length + 1) = p.readIndex) : p.Scans (CR :: data) := by
  simp only [Scans, List.length_cons, parseLineLoop, hb, ↓reduceIte]
  cases data with
  | nil =>
      have hlast : p.checkedIndex + 1 = p.readIndex := hread
      rw [if_pos hlast]
      exact Or.inr ⟨open_cr (by simp), by simp⟩
  | cons next rest =>
      rw [Buffer.hasAt_cons] at htail
      have hmore : p.checkedIndex + 1 ≠ p.readIndex := by
        rw [List.length_cons] at hread
        omega
      rw [if_neg hmore, htail.1]
      by_cases hlf : next = LF
      · subst hlf
        exact Or.inl ⟨[], rest, isLine_nil, rfl, rfl⟩
      · rw [if_neg hlf]
        exact Or.inr ⟨open_cr (by simpa using hlf), by simp⟩

theorem scans_lf (hb : p.buffer.get p.checkedIndex = LF) (hprev : p.NotAfterCr) :
    p.Scans (LF :: data) := by
  have hcr : LF ≠ CR := by decide
  have hbad : ¬ (p.checkedIndex > 1 ∧ p.buffer.get (p.checkedIndex - 1) = CR) :=
    fun h => hprev h.1 h.2
  simp only [Scans, List.length_cons, parseLineLoop, hb, if_neg hcr, if_neg hbad, ↓reduceIte]
  exact Or.inr ⟨open_lf data, by simp⟩

theorem scans_text (hb : p.buffer.get p.checkedIndex = b) (hcr : b ≠ CR) (hlf : b ≠ LF)
    (h : (p.moveTo (p.checkedIndex + 1)).Scans data) : p.Scans (b :: data) := by
  simp only [Scans, List.length_cons, parseLineLoop, hb, if_neg hcr, if_neg hlf] at h ⊢
  rcases h with ⟨line, rest, hline, rfl, hscan⟩ | ⟨hopen, hstatus⟩
  · refine Or.inl ⟨b :: line, rest, (isLine_cons b line).mpr ⟨⟨hcr, hlf⟩, hline⟩, rfl, ?_⟩
    rw [hscan, List.length_cons, Nat.add_comm line.length 1, ← Nat.add_assoc]
    rfl
  · exact Or.inr ⟨open_cons hcr hopen, hstatus⟩

theorem scans (hprev : p.NotAfterCr) (hat : p.buffer.HasAt p.checkedIndex data)
    (hread : p.checkedIndex + data.length = p.readIndex) : p.Scans data := by
  induction data generalizing p with
  | nil => exact Or.inr ⟨open_nil, by simp [parseLineLoop]⟩
  | cons b data ih =>
      rw [Buffer.hasAt_cons] at hat
      obtain ⟨hb, htail⟩ := hat
      rw [List.length_cons] at hread
      by_cases hcr : b = CR
      · subst hcr
        exact scans_cr hb htail hread
      · by_cases hlf : b = LF
        · subst hlf
          exact scans_lf hb hprev
        · -- the byte the scanner runs past is not a CR
          have hprev' : (p.moveTo (p.checkedIndex + 1)).NotAfterCr := fun _ => by
            change p.buffer.get p.checkedIndex ≠ CR
            rw [hb]
            exact hcr
          have hread' : p.checkedIndex + 1 + data.length = p.readIndex := by omega
          exact scans_text hb hcr hlf (ih hprev' htail hread')

end Scan

end ParseLine

section ParseRequestline

variable {p : Parser} {text : Nat} {word gap rest : List Byte}

/-- A word can be cut off where it stands. -/
theorem cut (hsplit : Split blanks (cstr p.buffer text) word gap rest) :
    cstr (p.store (text + word.length) 0).buffer text = word ∧
      cstr (p.store (text + word.length) 0).buffer (text + word.length + 1 +
        strspn (p.store (text + word.length) 0).buffer (text + word.length + 1) blanks) = rest :=
  ⟨hsplit.cstr_word (strpbrk_lt hsplit.strpbrk), hsplit.cstr_rest⟩

theorem checkUrl_of_target {target : List Byte} (htarget : TargetOf (cstr p.buffer text) target) :
    p.checkUrl text = (.noRequest, { p with checkstate := .header }) := by
  obtain ⟨url, hfound, hget, -⟩ := targetAt_of_target htarget
  rw [checkUrl, hfound]
  dsimp only
  rw [if_pos hget]

theorem checkUrl_of_no_target (hnone : ∀ target, ¬ TargetOf (cstr p.buffer text) target) :
    (p.checkUrl text).1 = .badRequest := by
  rw [checkUrl]
  cases hfound : targetAt p.buffer text with
  | none => rfl
  | some url =>
      dsimp only
      split
      · rename_i hget
        obtain ⟨target, htarget⟩ := exists_target hfound hget
        exact absurd htarget (hnone target)
      · rfl

theorem parseVersion_of_version {target : List Byte}
    (hsplit : Split blanks (cstr p.buffer text) word gap rest)
    (hversion : strcaseEq rest (ascii "HTTP/1.1") = true) (htarget : TargetOf word target) :
    (p.parseVersion text).1 = .noRequest ∧ (p.parseVersion text).2.checkstate = .header := by
  obtain ⟨hword, hrest⟩ := cut hsplit
  rw [← hword] at htarget
  simp only [parseVersion, hsplit.strpbrk, hrest, hversion, ↓reduceIte,
    checkUrl_of_target htarget]
  exact ⟨trivial, trivial⟩

theorem parseVersion_of_no_version
    (hnone : ∀ uri gap version target, Split blanks (cstr p.buffer text) uri gap version →
      strcaseEq version (ascii "HTTP/1.1") = true → ¬ TargetOf uri target) :
    (p.parseVersion text).1 = .badRequest := by
  by_cases hblank : ∃ b ∈ cstr p.buffer text, b ∈ blanks
  · obtain ⟨uri, gap, version, hsplit⟩ := Split.exists hblank
    obtain ⟨hword, hrest⟩ := cut hsplit
    simp only [parseVersion, hsplit.strpbrk, hrest]
    split
    · rename_i hversion
      apply checkUrl_of_no_target
      rw [hword]
      exact fun target => hnone uri gap version target hsplit hversion
    · rfl
  · rw [parseVersion, strpbrk_of_none_accepted hblank]

/-- A request line is accepted. -/
theorem parseRequestline_of_line {target version : List Byte}
    (hline : RequestLine (cstr p.buffer text) target version) :
    (p.parseRequestline text).1 = .noRequest ∧
      (p.parseRequestline text).2.checkstate = .header := by
  obtain ⟨⟨method, gap, uri, gap', hmethod, huri, hget, htarget⟩, hversion⟩ := hline
  obtain ⟨hword, hrest⟩ := cut hmethod
  simp only [parseRequestline, hmethod.strpbrk, hword, hget, ↓reduceIte]
  exact parseVersion_of_version (hrest.symm ▸ huri) hversion htarget

/-- Every other line is rejected. -/
theorem parseRequestline_of_no_line
    (hnone : ∀ target version, ¬ RequestLine (cstr p.buffer text) target version) :
    (p.parseRequestline text).1 = .badRequest := by
  by_cases hblank : ∃ b ∈ cstr p.buffer text, b ∈ blanks
  · obtain ⟨method, gap, rest, hsplit⟩ := Split.exists hblank
    obtain ⟨hword, hrest⟩ := cut hsplit
    simp only [parseRequestline, hsplit.strpbrk, hword]
    split
    · rename_i hmethod
      apply parseVersion_of_no_version
      intro uri gap' version target huri hversion htarget
      rw [hrest] at huri
      have heq := huri.eq
      subst heq
      exact hnone target version ⟨⟨method, gap, uri, gap', hsplit, huri, hmethod, htarget⟩,
        hversion⟩
    · rfl
  · rw [parseRequestline, strpbrk_of_none_accepted hblank]

theorem checkUrl_buffer (p : Parser) (url : Nat) : (p.checkUrl url).2.buffer = p.buffer := by
  unfold checkUrl
  split
  · rfl
  · split <;> rfl

/-- A byte at or behind the NUL that ends the line. -/
theorem parseVersion_behind {e i : Nat} (htext : text ≤ e) (hnul : p.buffer.get e = 0)
    (hi : e ≤ i) : (p.parseVersion text).2.buffer.get i = p.buffer.get i := by
  unfold parseVersion
  cases hfound : strpbrk p.buffer text blanks with
  | none => rfl
  | some v =>
      have hv := (strpbrk_bounds htext hnul hfound).2
      have hkeep : (p.store v 0).buffer.get i = p.buffer.get i :=
        Buffer.get_poke_of_ne _ (by omega : v ≠ i) 0
      dsimp only
      split
      · rw [checkUrl_buffer]
        exact hkeep
      · exact hkeep

theorem parseRequestline_behind {e i : Nat} (htext : text ≤ e) (hnul : p.buffer.get e = 0)
    (hi : e ≤ i) : (p.parseRequestline text).2.buffer.get i = p.buffer.get i := by
  unfold parseRequestline
  cases hfound : strpbrk p.buffer text blanks with
  | none => rfl
  | some u =>
      have hu := (strpbrk_bounds htext hnul hfound).2
      have hkeep : ∀ j, e ≤ j → (p.store u 0).buffer.get j = p.buffer.get j :=
        fun j hj => Buffer.get_poke_of_ne _ (by omega : u ≠ j) 0
      have hend : (p.store u 0).buffer.get e = 0 := (hkeep e (Nat.le_refl e)).trans hnul
      dsimp only
      split
      · rw [parseVersion_behind (strspn_bound blanks hu hend) hend hi]
        exact hkeep i hi
      · exact hkeep i hi

end ParseRequestline

/-- Between two lines: `rest` has been received and is not checked. -/
structure Stands (p : Parser) (rest : List Byte) : Prop where
  start_eq : p.startLine = p.checkedIndex
  pending : p.buffer.HasAt p.checkedIndex rest
  read_eq : p.checkedIndex + rest.length = p.readIndex
  fits : p.readIndex ≤ BUFFER_SIZE
  notAfterCr : p.NotAfterCr

section Turn

variable {p : Parser} {line rest : List Byte}

theorem start_stands {data : List Byte} (hfit : data.length ≤ BUFFER_SIZE) :
    (start.receive data).Stands data := by
  have hfit' : 0 + data.length ≤ BUFFER_SIZE := by omega
  exact ⟨rfl, Buffer.hasAt_blit _ hfit', rfl, hfit', fun h => absurd h (Nat.not_lt_zero 1)⟩

theorem Stands.parseLine_eq (h : p.Stands rest) : p.parseLine = parseLineLoop rest.length p := by
  rw [Parser.parseLine, ← h.read_eq, Nat.add_sub_cancel_left]

theorem Stands.parseLine (h : p.Stands (line ++ CR :: LF :: rest)) (hline : IsLine line) :
    p.parseLine = (.lineOk, p.endLine (p.checkedIndex + line.length)) := by
  rw [h.parseLine_eq]
  rcases scans h.notAfterCr h.pending h.read_eq with
    ⟨first, tail, hfirst, heq, hscan⟩ | ⟨hopen, -⟩
  · obtain ⟨rfl, -⟩ := first_line_unique hline hfirst heq
    exact hscan
  · exact absurd rfl (hopen line rest hline)

/-- The line is closed at `e`, and nothing else has changed. -/
theorem endLine_get {e i : Nat} (hfit : e + 1 < BUFFER_SIZE) :
    (p.endLine e).buffer.get i =
      if i = e ∨ i = e + 1 then 0 else p.buffer.get i := by
  change ((p.buffer.poke e 0).poke (e + 1) 0).get i = _
  split
  · rename_i hi
    rcases hi with rfl | rfl
    · rw [Buffer.get_poke_of_ne _ (by omega), Buffer.get_poke_self _ (by omega)]
    · rw [Buffer.get_poke_self _ (by omega)]
  · rw [Buffer.get_poke_of_ne _ (by omega), Buffer.get_poke_of_ne _ (by omega)]

/-- What stands in the buffer once the line is closed. -/
theorem Stands.endLine (h : p.Stands (line ++ CR :: LF :: rest)) :
    cstr (p.endLine (p.checkedIndex + line.length)).buffer p.startLine = cText line ∧
      (p.endLine (p.checkedIndex + line.length)).buffer.get (p.checkedIndex + line.length) = 0 ∧
      (p.endLine (p.checkedIndex + line.length)).markLine.Stands rest := by
  obtain ⟨hline, htail⟩ := Buffer.hasAt_append.mp h.pending
  have hread := h.read_eq
  have hfits := h.fits
  simp only [List.length_append, List.length_cons] at hread
  have hget : ∀ i, (p.endLine (p.checkedIndex + line.length)).buffer.get i =
      if i = p.checkedIndex + line.length ∨ i = p.checkedIndex + line.length + 1 then 0
      else p.buffer.get i := fun i => endLine_get (by omega)
  have hend := hget (p.checkedIndex + line.length)
  rw [if_pos (Or.inl rfl)] at hend
  refine ⟨?_, hend, rfl, ?_, ?_, hfits, ?_⟩
  · rw [h.start_eq, cText]
    apply cstr_of_line _ hend
    intro i hi
    rw [hget, if_neg (by omega)]
    exact hline i hi
  · rw [Buffer.hasAt_cons, Buffer.hasAt_cons] at htail
    refine htail.2.2.congr fun i hi _ => ?_
    change (p.endLine (p.checkedIndex + line.length)).buffer.get i = p.buffer.get i
    rw [hget, if_neg (by omega)]
  · change p.checkedIndex + line.length + 2 + rest.length = p.readIndex
    omega
  · intro _
    change (p.endLine (p.checkedIndex + line.length)).buffer.get
      (p.checkedIndex + line.length + 1) ≠ CR
    rw [hget, if_pos (Or.inr rfl)]
    decide

theorem Stands.turn (h : p.Stands (line ++ CR :: LF :: rest)) (hline : IsLine line) :
    p.contentTurn = (p.endLine (p.checkedIndex + line.length)).handleLine.next := by
  rw [contentTurn, h.parseLine hline]

/-- Without a complete line `parse_content` runs off its end. -/
theorem Stands.runs_off (h : p.Stands rest) (hopen : Open rest) : p.parseContent.2 = none := by
  have hstatus : p.parseLine.1 ≠ .lineOk := by
    rw [h.parseLine_eq]
    rcases scans h.notAfterCr h.pending h.read_eq with
      ⟨first, tail, hfirst, heq, -⟩ | ⟨-, hstatus⟩
    · exact absurd heq (hopen first tail hfirst)
    · exact hstatus
  have hturn : p.contentTurn = .inr (p.parseLine.2, none) := by
    unfold contentTurn
    cases hparse : p.parseLine with
    | mk status after =>
        rw [hparse] at hstatus
        cases status with
        | lineOk => exact absurd rfl hstatus
        | lineBad => rfl
        | lineOpen => rfl
  rw [parseContent, Loop.result_done hturn]

/-- The parser of the request line leaves what has not been checked. -/
theorem Stands.parseRequestline (h : p.Stands rest) {text e : Nat} (htext : text ≤ e)
    (hnul : p.buffer.get e = 0) (he : e < p.checkedIndex) :
    (p.parseRequestline text).2.Stands rest := by
  obtain ⟨hchecked, hread, hstart⟩ := parseRequestline_indices p text
  refine ⟨?_, ?_, ?_, ?_, ?_⟩
  · rw [hstart, hchecked]
    exact h.start_eq
  · rw [hchecked]
    exact h.pending.congr fun i hi _ => parseRequestline_behind htext hnul (by omega)
  · rw [hchecked, hread]
    exact h.read_eq
  · rw [hread]
    exact h.fits
  · intro hpos
    rw [hchecked] at hpos ⊢
    rw [parseRequestline_behind htext hnul (by omega)]
    exact h.notAfterCr hpos

section RequestLine

variable (h : p.Stands (line ++ CR :: LF :: rest)) (hline : IsLine line)
  (hstate : p.checkstate = .requestLine)
include h hline hstate

/-- A request line is taken. -/
theorem Stands.request_line {target version : List Byte}
    (hrequest : RequestLine (cText line) target version) :
    ∃ after : Parser, p.parseContent = after.parseContent ∧ after.Stands rest ∧
      after.checkstate = .header := by
  obtain ⟨htext, hnul, hmark⟩ := h.endLine
  have hstart := h.start_eq
  have hturn := h.turn hline
  rw [handleLine_requestLine (p := p.endLine _) hstate, endLine_startLine] at hturn
  rw [← htext] at hrequest
  obtain ⟨hcode, hheader⟩ := parseRequestline_of_line
    (p := (p.endLine (p.checkedIndex + line.length)).markLine) hrequest
  have hgood : ((p.endLine (p.checkedIndex + line.length)).markLine.parseRequestline
      p.startLine).1 ≠ .badRequest := by
    rw [hcode]
    exact nofun
  rw [if_neg hgood] at hturn
  refine ⟨_, Loop.result_again hturn, ?_, hheader⟩
  exact hmark.parseRequestline (hstart ▸ Nat.le_add_right _ _) hnul (Nat.lt_add_of_pos_right
    Nat.two_pos)

/-- Any other first line is rejected. -/
theorem Stands.bad_request
    (hnone : ∀ target version, ¬ RequestLine (cText line) target version) :
    p.parseContent.2 = some .badRequest := by
  obtain ⟨htext, -, -⟩ := h.endLine
  have hturn := h.turn hline
  rw [handleLine_requestLine (p := p.endLine _) hstate, endLine_startLine] at hturn
  rw [← htext] at hnone
  have hcode := parseRequestline_of_no_line
    (p := (p.endLine (p.checkedIndex + line.length)).markLine) hnone
  rw [if_pos hcode] at hturn
  rw [parseContent, Loop.result_done hturn]

end RequestLine

section HeaderLine

variable (h : p.Stands (line ++ CR :: LF :: rest)) (hline : IsLine line)
  (hstate : p.checkstate = .header)
include h hline hstate

/-- A header line is taken. -/
theorem Stands.header_line (hfield : cText line ≠ []) :
    ∃ after : Parser, p.parseContent = after.parseContent ∧ after.Stands rest ∧
      after.checkstate = .header := by
  obtain ⟨htext, -, hmark⟩ := h.endLine
  have hturn := h.turn hline
  have hbyte : (p.endLine (p.checkedIndex + line.length)).buffer.get p.startLine ≠ 0 := by
    intro hzero
    rw [cstr_of_zero hzero] at htext
    exact hfield htext.symm
  rw [handleLine_header (p := p.endLine _) hstate, endLine_startLine, if_neg hbyte] at hturn
  exact ⟨_, Loop.result_again hturn, hmark, hstate⟩

/-- The empty line completes the request. -/
theorem Stands.blank_line (hblank : cText line = []) : p.parseContent.2 = some .getRequest := by
  obtain ⟨htext, -, -⟩ := h.endLine
  have hturn := h.turn hline
  have hbyte : (p.endLine (p.checkedIndex + line.length)).buffer.get p.startLine = 0 := by
    by_contra hzero
    rw [hblank, cstr_of_ne_zero hzero] at htext
    cases htext
  rw [handleLine_header (p := p.endLine _) hstate, endLine_startLine, if_pos hbyte] at hturn
  rw [parseContent, Loop.result_done hturn]

end HeaderLine

theorem Stands.header_lines {headers : List (List Byte)} (h : p.Stands (joinLines headers ++ rest))
    (hlines : ∀ line ∈ headers, IsLine line) (hfields : ∀ line ∈ headers, cText line ≠ [])
    (hstate : p.checkstate = .header) :
    ∃ after : Parser, p.parseContent = after.parseContent ∧ after.Stands rest ∧
      after.checkstate = .header := by
  induction headers generalizing p with
  | nil => exact ⟨p, rfl, h, hstate⟩
  | cons line headers ih =>
      rw [List.forall_mem_cons] at hlines hfields
      rw [joinLines_cons, List.append_assoc] at h
      obtain ⟨mid, hmid, hstands, hheader⟩ := h.header_line hlines.1 hstate hfields.1
      obtain ⟨after, hafter, hrest⟩ := ih hstands hlines.2 hfields.2 hheader
      exact ⟨after, hmid.trans hafter, hrest⟩

end Turn

/-- The start of a head: `parse_content` runs off its end. -/
theorem parseContent_start {lines : List (List Byte)} {rest : List Byte} (h : IsStart lines)
    (hopen : Open rest) (hfit : (joinLines lines ++ rest).length ≤ BUFFER_SIZE) :
    (start.receive (joinLines lines ++ rest)).parseContent.2 = none := by
  have hstart := start_stands hfit
  cases lines with
  | nil => exact hstart.runs_off hopen
  | cons request headers =>
      obtain ⟨hrequest, hheaders⟩ := List.forall_mem_cons.mp h.isLine
      obtain ⟨target, version, hline⟩ := h.request request rfl
      simp only [joinLines_cons, List.append_assoc, List.cons_append] at hstart ⊢
      obtain ⟨mid, hmid, hstands, hheader⟩ := hstart.request_line hrequest rfl hline
      obtain ⟨after, hafter, hlast, -⟩ := hstands.header_lines hheaders h.headers hheader
      rw [hmid, hafter]
      exact hlast.runs_off hopen

/-- A first line that is no request line: BAD_REQUEST. -/
theorem parseContent_bad {line rest : List Byte} (hline : IsLine line)
    (hnone : ∀ target version, ¬ RequestLine (cText line) target version)
    (hfit : (line ++ CR :: LF :: rest).length ≤ BUFFER_SIZE) :
    (start.receive (line ++ CR :: LF :: rest)).parseContent.2 = some .badRequest :=
  (start_stands hfit).bad_request hline rfl hnone

/-- A complete head: GET_REQUEST. -/
theorem parseContent_head {request blank body : List Byte} {headers : List (List Byte)}
    (h : IsHead request headers blank)
    (hfit : (headBytes request headers blank ++ body).length ≤ BUFFER_SIZE) :
    (start.receive (headBytes request headers blank ++ body)).parseContent.2 =
      some .getRequest := by
  have hstart := start_stands hfit
  obtain ⟨hrequest, hmore⟩ := List.forall_mem_cons.mp h.isLine
  rw [List.forall_mem_append, List.forall_mem_singleton] at hmore
  obtain ⟨target, version, hline⟩ := h.request
  rw [headBytes] at hstart ⊢
  simp only [joinLines_cons, joinLines_append, joinLines_nil, List.append_assoc,
    List.cons_append, List.nil_append] at hstart ⊢
  obtain ⟨mid, hmid, hstands, hheader⟩ := hstart.request_line hrequest rfl hline
  obtain ⟨after, hafter, hlast, hheader'⟩ := hstands.header_lines hmore.1 h.headers hheader
  rw [hmid, hafter]
  exact hlast.blank_line hmore.2 hheader' h.blank

end Parser

/-- How the receive loop stands. -/
inductive Outcome where
  | waiting
  | left
  | sent (reply : List Byte)
  -- `parse_content` has run off its end
  | undefined
deriving Repr, DecidableEq

/-- `szret[0]` -/
def correctResult : List Byte := ascii "I get a correct result\n"

/-- `szret[1]` -/
def somethingWrong : List Byte := ascii "Something wrong\n"

/-- The receive loop of `main`, on what the calls of `recv` bring: nothing
where a call fails, no bytes where the peer has closed. -/
def serve : Parser → List (Option (List Byte)) → Outcome
  | _, [] => .waiting
  | _, none :: _ => .left
  | p, some data :: results =>
      if data.length = 0 then .left
      else
        match (p.receive data).parseContent with
        | (_, none) => .undefined
        | (p, some .noRequest) => serve p results
        | (_, some .getRequest) => .sent correctResult
        | (_, some _) => .sent somethingWrong

/-- What one `recv` brings of a stream, if it brings all of it. -/
def atOnce (stream : List Byte) : List (List Byte) :=
  if stream = [] then [] else [stream]

/-- The cut of the stream makes no difference to the reply. -/
def Incremental (chunks : List (List Byte)) : Prop :=
  serve .start (chunks.map some) ≠ .undefined ∧
    serve .start (chunks.map some) = serve .start ((atOnce chunks.flatten).map some)

/-- The bytes decide the request: a first line that is no request line, or a
head up to its empty line. -/
def Decided (data : List Byte) : Prop :=
  (∃ line rest, IsLine line ∧ (∀ target version, ¬ RequestLine (cText line) target version) ∧
      data = line ++ CR :: LF :: rest) ∨
    ∃ request headers blank body, IsHead request headers blank ∧
      data = headBytes request headers blank ++ body

section Serve

variable {data : List Byte}

/-- A code other than NO_REQUEST ends the loop with a reply. -/
theorem serve_sent {p : Parser} {code : HttpCode} (hne : data.length ≠ 0)
    (hcode : (p.receive data).parseContent.2 = some code) (hdone : code ≠ .noRequest)
    (results : List (Option (List Byte))) :
    serve p (some data :: results) =
      .sent (if code = .getRequest then correctResult else somethingWrong) := by
  have hparse : (p.receive data).parseContent = ((p.receive data).parseContent.1, some code) :=
    Prod.ext rfl hcode
  rw [serve, if_neg hne, hparse]
  cases code with
  | noRequest => exact absurd rfl hdone
  | getRequest => rfl
  | badRequest => rfl
  | forbiddenRequest => rfl
  | internalError => rfl
  | closedConnection => rfl

theorem serve_undefined {p : Parser} (hne : data.length ≠ 0)
    (hcode : (p.receive data).parseContent.2 = none) (results : List (Option (List Byte))) :
    serve p (some data :: results) = .undefined := by
  have hparse : (p.receive data).parseContent = ((p.receive data).parseContent.1, none) :=
    Prod.ext rfl hcode
  rw [serve, if_neg hne, hparse]

/-- With a decision there is a reply, and more bytes in the same `recv` do not
change it. -/
theorem serve_decided (h : Decided data) : ∃ reply, ∀ more results,
    (data ++ more).length ≤ BUFFER_SIZE →
      serve .start (some (data ++ more) :: results) = .sent reply := by
  rcases h with ⟨line, rest, hline, hnone, rfl⟩ | ⟨request, headers, blank, body, hhead, rfl⟩
  · refine ⟨somethingWrong, fun more results hfit => ?_⟩
    have hlen : (line ++ CR :: LF :: rest ++ more).length ≠ 0 := by simp
    simp only [List.append_assoc, List.cons_append] at hlen hfit ⊢
    exact serve_sent hlen (Parser.parseContent_bad hline hnone hfit) nofun results
  · refine ⟨correctResult, fun more results hfit => ?_⟩
    have hpos := Webserver.headBytes_pos request headers blank
    have hlen : (headBytes request headers blank ++ body ++ more).length ≠ 0 := by
      simp only [List.length_append]
      omega
    rw [List.append_assoc] at hlen hfit ⊢
    exact serve_sent hlen (Parser.parseContent_head hhead hfit) nofun results

/-- Without one `parse_content` has nothing to return. -/
theorem serve_undecided (h : ¬ Decided data) (hne : data ≠ []) (hfit : data.length ≤ BUFFER_SIZE)
    (results : List (Option (List Byte))) :
    serve .start (some data :: results) = .undefined := by
  rcases head_cases data with ⟨lines, rest, hstart, hopen, rfl⟩ |
    ⟨line, rest, hline, hbad, rfl⟩ | ⟨request, headers, blank, body, hhead, rfl⟩
  · have hlen : (joinLines lines ++ rest).length ≠ 0 :=
      fun hzero => hne (List.length_eq_zero_iff.mp hzero)
    exact serve_undefined hlen (Parser.parseContent_start hstart hopen hfit) results
  · exact absurd (Or.inl ⟨line, rest, hline, hbad, rfl⟩) h
  · exact absurd (Or.inr ⟨request, headers, blank, body, hhead, rfl⟩) h

end Serve

/-- The parser works incrementally exactly where there is nothing to do: the
first bytes that arrive decide the request, or none arrive. -/
theorem incremental_iff {chunks : List (List Byte)} (hne : ∀ chunk ∈ chunks, chunk ≠ [])
    (hfit : chunks.flatten.length < BUFFER_SIZE) :
    Incremental chunks ↔ ∀ first ∈ chunks.head?, Decided first := by
  cases chunks with
  | nil => exact iff_of_true ⟨nofun, rfl⟩ nofun
  | cons first more =>
      have hfirst : first ≠ [] := hne first List.mem_cons_self
      have hstream : atOnce (first :: more).flatten = [first ++ more.flatten] := by
        rw [List.flatten_cons, atOnce, if_neg (List.append_ne_nil_of_left_ne_nil hfirst _)]
      rw [List.flatten_cons] at hfit
      rw [Incremental, hstream, List.map_cons, List.map_singleton]
      constructor
      · rintro ⟨hdefined, -⟩ head hhead
        cases hhead
        by_contra hundecided
        rw [List.length_append] at hfit
        exact hdefined (serve_undecided hundecided hfirst (by omega) _)
      · intro hdecided
        obtain ⟨reply, hreply⟩ := serve_decided (hdecided first rfl)
        have hcut := hreply [] (more.map some) (by
          rw [List.append_nil]
          rw [List.length_append] at hfit
          omega)
        rw [List.append_nil] at hcut
        rw [hcut, hreply more.flatten [] (Nat.le_of_lt hfit)]
        exact ⟨nofun, rfl⟩

/-- A request that is decided in the first part; two more parts follow. -/
theorem incremental_iff_root :
    Incremental [rootRequest ++ CR :: LF :: [CR, LF] ++ ascii "a", ascii "bc", ascii "d"] := by
  refine (incremental_iff ?_ (by decide)).mpr ?_
  · simp [ascii]
  · intro first hfirst
    cases hfirst
    have hhead : IsHead rootRequest [] [] :=
      ⟨by decide, ⟨_, _, rootRequest_line⟩, by simp, rfl⟩
    exact Or.inr ⟨rootRequest, [], [], ascii "a", hhead, by simp [headBytes]⟩

/-- The same request in two parts. -/
theorem cut_request : ¬ Incremental [ascii "GET", ascii " / HTTP/1.1\r\n\r\n"] := by
  rintro ⟨hdefined, -⟩
  have hundecided : ¬ Decided (ascii "GET") := by
    have hcr : CR ∉ ascii "GET" := by decide
    rintro (⟨line, rest, -, -, heq⟩ | ⟨request, headers, blank, body, -, heq⟩)
    · exact hcr (by simp [heq])
    · exact hcr (by simp [heq, headBytes])
  exact hdefined (serve_undecided hundecided (by decide) (by decide) _)

end LinuxLearning.Chapter5
