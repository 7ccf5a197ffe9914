/-
The grammar of request lines, spelled out: a method, blanks, a URI, blanks,
and a version that goes to the end of the line.  `parse_request_line` accepts
the lines of this grammar and no others, wherever they stand in the buffer.
-/
import LinuxLearning.Webserver.RequestLine

namespace LinuxLearning.Webserver

open CString

/-- A run of blanks, with at least one. -/
def IsGap (gap : List Byte) : Prop := gap ≠ [] ∧ ∀ b ∈ gap, b ∈ blanks

instance (gap : List Byte) : Decidable (IsGap gap) := inferInstanceAs (Decidable (_ ∧ _))

/-- Bytes none of which is a blank. -/
def IsWord (word : List Byte) : Prop := ∀ b ∈ word, b ∉ blanks

instance (word : List Byte) : Decidable (IsWord word) :=
  inferInstanceAs (Decidable (∀ b ∈ word, _))

/-- A URI that names a target: it starts with '/', or with `http://` and has a
'/' behind that. -/
def NamesTarget (uri : List Byte) : Prop :=
  uri.head? = some slash ∨
    (strncaseEq uri (ascii "http://") 7 = true ∧ slash ∈ uri.drop 7)

/-- The target: the URI, or its part from the first '/' behind the scheme. -/
def targetIn (uri : List Byte) : List Byte :=
  if uri.head? = some slash then uri else (uri.drop 7).dropWhile (· != slash)

/-- A request line with this URI. -/
def Grammar (line uri : List Byte) : Prop :=
  ∃ method gap gap' version, line = method ++ gap ++ uri ++ gap' ++ version ∧
    IsWord method ∧ IsGap gap ∧ IsWord uri ∧ IsGap gap' ∧
    strcaseEq method (ascii "GET") = true ∧ strcaseEq version (ascii "HTTP/1.1") = true ∧
    NamesTarget uri

theorem targetOf_iff {uri target : List Byte} :
    TargetOf uri target ↔ NamesTarget uri ∧ target = targetIn uri := by
  constructor
  · intro h
    refine ⟨?_, h.eq⟩
    cases h with
    | origin path => exact Or.inl rfl
    | absolute scheme host path hscheme hhost =>
        refine Or.inr ⟨?_, ?_⟩
        · rw [List.append_assoc]
          exact scheme_prefix hscheme _
        · rw [List.append_assoc, ← length_of_scheme hscheme, List.drop_left]
          simp
  · rintro ⟨hnames, rfl⟩
    by_cases hhead : uri.head? = some slash
    · obtain ⟨path, rfl⟩ := List.head?_eq_some_iff.mp hhead
      rw [targetIn, if_pos hhead]
      exact TargetOf.origin path
    · obtain ⟨hscheme, hslash⟩ := hnames.resolve_left hhead
      obtain ⟨host, path, hbehind, hhost⟩ := List.eq_append_cons_of_mem hslash
      have hskip : ∀ b ∈ host, (b != slash) = true := by
        intro b hb
        have hne : b ≠ slash := by
          rintro rfl
          exact hhost hb
        simpa using hne
      have htarget : targetIn uri = slash :: path := by
        rw [targetIn, if_neg hhead, hbehind, List.dropWhile_append_of_pos hskip]
        simp
      have huri : uri = uri.take 7 ++ host ++ slash :: path := by
        rw [List.append_assoc, ← hbehind, List.take_append_drop]
      rw [htarget, huri]
      exact TargetOf.absolute _ host path hscheme hhost

/-- A name that matches a word without regard to case starts with no blank. -/
theorem head_of_strcaseEq {s name : List Byte} {n : Byte} (h : strcaseEq s (n :: name) = true)
    (hplain : ∀ b ∈ blanks, tolower b ≠ tolower n) : ∀ b ∈ s.head?, b ∉ blanks := by
  intro b hb hblank
  obtain ⟨rest, rfl⟩ := List.head?_eq_some_iff.mp hb
  have hmap := tolower_of_strcaseEq h
  rw [List.map_cons, List.map_cons, List.cons.injEq] at hmap
  exact hplain b hblank hmap.1

theorem NamesTarget.ne_nil {uri : List Byte} (h : NamesTarget uri) : uri ≠ [] := by
  rintro rfl
  rcases h with hhead | ⟨-, hslash⟩
  · cases hhead
  · cases hslash

/-- The grammar is the one of the parser. -/
theorem requestLine_iff {line target : List Byte} :
    (∃ version, RequestLine line target version) ↔
      ∃ uri, Grammar line uri ∧ target = targetIn uri := by
  constructor
  · rintro ⟨version, ⟨⟨method, gap, uri, gap', hsplit, hrest, hmethod, htarget⟩, hversion⟩⟩
    obtain ⟨hnames, heq⟩ := targetOf_iff.mp htarget
    refine ⟨uri, ⟨method, gap, gap', version, ?_, hsplit.word, ⟨hsplit.gap_ne, hsplit.gap⟩,
      hrest.word, ⟨hrest.gap_ne, hrest.gap⟩, hmethod, hversion, hnames⟩, heq⟩
    rw [hsplit.eq]
    simp only [List.append_assoc]
  · rintro ⟨uri, ⟨method, gap, gap', version, hline, hword, hgap, huri, hgap', hmethod, hversion,
      hnames⟩, heq⟩
    refine ⟨version, ⟨⟨method, gap, uri, gap', ?_, ?_, hmethod,
      targetOf_iff.mpr ⟨hnames, heq⟩⟩, hversion⟩⟩
    · refine ⟨?_, hword, hgap.1, hgap.2, ?_⟩
      · rw [hline]
        simp only [List.append_assoc]
      · intro b hb
        rw [List.append_assoc, List.head?_append_of_ne_nil _ hnames.ne_nil] at hb
        exact huri b (List.mem_of_mem_head? hb)
    · have hplain : ∀ b ∈ blanks, tolower b ≠ tolower 72 := by decide +kernel
      exact ⟨rfl, huri, hgap'.1, hgap'.2, head_of_strcaseEq hversion hplain⟩

namespace HttpConn

/-- `m_read_idx = k` -/
def setReadIdx (k : Nat) (c : HttpConn) : HttpConn := { c with readIdx := k }

section Anywhere

variable (k : Nat) {c : HttpConn} {text : Nat}

@[simp] theorem setReadIdx_readBuf (c : HttpConn) : (setReadIdx k c).readBuf = c.readBuf := rfl

@[simp] theorem strAt_setReadIdx (c : HttpConn) (p : Nat) :
    (setReadIdx k c).strAt p = c.strAt p := rfl

@[simp] theorem store_setReadIdx (c : HttpConn) (i : Int) (value : Byte) :
    (setReadIdx k c).store i value = setReadIdx k (c.store i value) := rfl

@[simp] theorem setUrl_setReadIdx (c : HttpConn) (p : Option Nat) :
    (setReadIdx k c).setUrl p = setReadIdx k (c.setUrl p) := rfl

@[simp] theorem setVersion_setReadIdx (c : HttpConn) (p : Option Nat) :
    (setReadIdx k c).setVersion p = setReadIdx k (c.setVersion p) := rfl

@[simp] theorem setMethod_setReadIdx (c : HttpConn) (value : Method) :
    (setReadIdx k c).setMethod value = setReadIdx k (c.setMethod value) := rfl

theorem checkUrl_setReadIdx (c : HttpConn) (url : Nat) :
    (setReadIdx k c).checkUrl url = ((c.checkUrl url).1, setReadIdx k (c.checkUrl url).2) := by
  have hstrip : (setReadIdx k c).stripHost url = c.stripHost url := rfl
  unfold checkUrl
  rw [hstrip]
  cases c.stripHost url with
  | none => rfl
  | some p =>
      by_cases hslash : c.readBuf.get p = slash
      · simp only [setReadIdx_readBuf, hslash, ↓reduceIte]
        rfl
      · simp only [setReadIdx_readBuf, hslash, ↓reduceIte]
        rfl

theorem parseVersion_setReadIdx (c : HttpConn) (url : Nat) :
    (setReadIdx k c).parseVersion url =
      ((c.parseVersion url).1, setReadIdx k (c.parseVersion url).2) := by
  unfold parseVersion
  rw [setReadIdx_readBuf]
  cases strpbrk c.readBuf url blanks with
  | none => rfl
  | some v =>
      simp only [store_setReadIdx, setReadIdx_readBuf, setVersion_setReadIdx, strAt_setReadIdx]
      split
      · rename_i hversion
        simp only [hversion, ↓reduceIte]
        exact checkUrl_setReadIdx k _ url
      · rename_i hversion
        simp only [hversion]
        rfl

/-- `parse_request_line` does not look at `m_read_idx`. -/
theorem parseRequestLine_setReadIdx (c : HttpConn) (text : Nat) :
    (setReadIdx k c).parseRequestLine text =
      ((c.parseRequestLine text).1, setReadIdx k (c.parseRequestLine text).2) := by
  unfold parseRequestLine
  rw [setReadIdx_readBuf]
  cases strpbrk c.readBuf text blanks with
  | none => rfl
  | some u =>
      simp only [store_setReadIdx, setUrl_setReadIdx, strAt_setReadIdx, setMethod_setReadIdx,
        setReadIdx_readBuf]
      split
      · rename_i hmethod
        simp only [hmethod, ↓reduceIte]
        exact parseVersion_setReadIdx k _ _
      · rename_i hmethod
        simp only [hmethod]
        rfl

theorem checkUrl_rejected {c : HttpConn} {url : Nat} (hbad : (c.checkUrl url).1 = .badRequest) :
    (c.checkUrl url).2.checkState = c.checkState := by
  unfold checkUrl at hbad ⊢
  cases hstrip : c.stripHost url with
  | none => rfl
  | some p =>
      rw [hstrip] at hbad
      dsimp only at hbad ⊢
      split at hbad
      · cases hbad
      · rename_i hslash
        rw [if_neg hslash]
        rfl

theorem parseVersion_rejected {c : HttpConn} {url : Nat}
    (hbad : (c.parseVersion url).1 = .badRequest) :
    (c.parseVersion url).2.checkState = c.checkState := by
  unfold parseVersion at hbad ⊢
  cases hfound : strpbrk c.readBuf url blanks with
  | none => rfl
  | some v =>
      rw [hfound] at hbad
      dsimp only at hbad ⊢
      split at hbad
      · rename_i hversion
        rw [if_pos hversion]
        exact checkUrl_rejected hbad
      · rename_i hversion
        rw [if_neg hversion]
        rfl

/-- A line that is rejected leaves `m_check_state`. -/
theorem parseRequestLine_rejected (hbad : (c.parseRequestLine text).1 = .badRequest) :
    (c.parseRequestLine text).2.checkState = c.checkState := by
  unfold parseRequestLine at hbad ⊢
  cases hfound : strpbrk c.readBuf text blanks with
  | none => rfl
  | some u =>
      rw [hfound] at hbad
      dsimp only at hbad ⊢
      split at hbad
      · rename_i hmethod
        rw [if_pos hmethod]
        exact parseVersion_rejected hbad
      · rename_i hmethod
        rw [if_neg hmethod]
        rfl

/-- `parse_request_line` on a line that stands anywhere in the buffer with a
NUL behind it. -/
theorem parseRequestLine_grammar {line : List Byte}
    (hat : c.readBuf.HasAt text (line ++ [0])) (hfit : text + line.length < READ_BUFFER_SIZE)
    (hnul : 0 ∉ line) :
    ((c.parseRequestLine text).1 = .noRequest ∧
      (c.parseRequestLine text).2.checkState = .header ↔ ∃ uri, Grammar line uri) ∧
    (∀ uri, Grammar line uri → ∃ p, (c.parseRequestLine text).2.url = some p ∧
      (c.parseRequestLine text).2.strAt p = targetIn uri) ∧
    ((¬ ∃ uri, Grammar line uri) → (c.parseRequestLine text).1 = .badRequest ∧
      (c.parseRequestLine text).2.checkState = c.checkState) := by
  rw [Buffer.hasAt_append, Buffer.hasAt_cons] at hat
  obtain ⟨hline, hzero, -⟩ := hat
  -- the lemmas about lines ask for a received NUL, so all of the buffer is taken for received
  have hclosed : (setReadIdx READ_BUFFER_SIZE c).Closed text (text + line.length) :=
    ⟨Nat.le_add_right _ _, hzero, hfit, Nat.le_refl _⟩
  have hstr : (setReadIdx READ_BUFFER_SIZE c).strAt text = line := by
    have hend : line.takeWhile (· != 0) = line := by
      rw [List.takeWhile_eq_self_iff]
      intro b hb
      have hne : b ≠ 0 := by
        rintro rfl
        exact hnul hb
      simpa using hne
    exact (cstr_of_line hline hzero).trans hend
  have hparse := parseRequestLine_setReadIdx READ_BUFFER_SIZE c text
  have hcode := parseRequestLine_code hclosed
  rw [hparse, hstr] at hcode
  have haccept : ∀ uri, Grammar line uri → (c.parseRequestLine text).1 = .noRequest ∧
      (c.parseRequestLine text).2.checkState = .header ∧
      ∃ p, (c.parseRequestLine text).2.url = some p ∧
        (c.parseRequestLine text).2.strAt p = targetIn uri := by
    intro uri huri
    obtain ⟨version, hrequest⟩ := requestLine_iff.mpr ⟨uri, huri, rfl⟩
    obtain ⟨hok, hheader, ⟨p, -, hurl, hp⟩, -⟩ :=
      parseRequestLine_of_line hclosed (hstr.symm ▸ hrequest)
    rw [hparse] at hok hheader hurl hp
    exact ⟨hok, hheader, p, hurl, hp⟩
  have hnone : (¬ ∃ uri, Grammar line uri) → (c.parseRequestLine text).1 = .badRequest := by
    intro hno
    rcases hcode with ⟨-, target, version, hrequest⟩ | ⟨hbad, -⟩
    · obtain ⟨uri, huri, -⟩ := requestLine_iff.mp ⟨version, hrequest⟩
      exact absurd ⟨uri, huri⟩ hno
    · exact hbad
  refine ⟨⟨?_, ?_⟩, fun uri huri => (haccept uri huri).2.2, fun hno =>
    ⟨hnone hno, parseRequestLine_rejected (hnone hno)⟩⟩
  · rintro ⟨hok, -⟩
    by_contra hno
    rw [hnone hno] at hok
    cases hok
  · rintro ⟨uri, huri⟩
    exact ⟨(haccept uri huri).1, (haccept uri huri).2.1⟩

end Anywhere

set_option maxRecDepth 10000 in
/-- The plainest request line, at the start of the buffer. -/
theorem parseRequestLine_grammar_root :
    ((recvBytes (rootRequest ++ [0]) idle).parseRequestLine 0).1 = .noRequest ∧
      ∃ p, ((recvBytes (rootRequest ++ [0]) idle).parseRequestLine 0).2.url = some p ∧
        ((recvBytes (rootRequest ++ [0]) idle).parseRequestLine 0).2.strAt p =
          targetIn (ascii "/") := by
  have hgrammar : Grammar rootRequest (ascii "/") :=
    ⟨ascii "GET", ascii " ", ascii " ", ascii "HTTP/1.1", by decide, by decide, by decide,
      by decide, by decide, by decide, by decide, Or.inl rfl⟩
  have hline : (recvBytes (rootRequest ++ [0]) idle).readBuf.HasAt 0 (rootRequest ++ [0]) :=
    Buffer.hasAt_blit _ (by decide)
  have hfit : 0 + rootRequest.length < READ_BUFFER_SIZE := by decide
  obtain ⟨haccepts, htarget, -⟩ := parseRequestLine_grammar hline hfit (by decide)
  exact ⟨(haccepts.mpr ⟨_, hgrammar⟩).1, htarget _ hgrammar⟩

end HttpConn

end LinuxLearning.Webserver
