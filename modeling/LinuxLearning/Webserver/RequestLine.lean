/-
The grammar of request lines the server takes: `GET`, blanks, a URI, blanks,
`HTTP/1.1`, the two words without regard to case.  `parse_request_line`
accepts a line exactly when it is in the grammar, and then leaves pointers to
the target and the version.
-/
import LinuxLearning.Webserver.ParseRequest

namespace LinuxLearning.Webserver

open CString

/-- The target a URI names: a URI that starts with '/' itself, or what follows
the host of an `http://` URI. -/
inductive TargetOf : List Byte → List Byte → Prop
  | origin (path : List Byte) : TargetOf (slash :: path) (slash :: path)
  | absolute (scheme host path : List Byte)
      (hscheme : strcaseEq scheme (ascii "http://") = true) (hhost : slash ∉ host) :
      TargetOf (scheme ++ host ++ slash :: path) (slash :: path)

/-- A request line with its target and its version. -/
structure RequestLine (line target version : List Byte) : Prop where
  parts : ∃ method gap uri gap', Split blanks line method gap (uri ++ gap' ++ version) ∧
    Split blanks (uri ++ gap' ++ version) uri gap' version ∧
    strcaseEq method (ascii "GET") = true ∧ TargetOf uri target
  version_eq : strcaseEq version (ascii "HTTP/1.1") = true

/-- A target starts with '/'. -/
theorem TargetOf.head {uri target : List Byte} (h : TargetOf uri target) :
    target.head? = some slash := by
  cases h <;> rfl

theorem length_of_scheme {scheme : List Byte}
    (h : strcaseEq scheme (ascii "http://") = true) : scheme.length = 7 :=
  length_of_strcaseEq h

/-- A URI that names a target through a scheme starts with it. -/
theorem scheme_prefix {scheme : List Byte}
    (h : strcaseEq scheme (ascii "http://") = true) (rest : List Byte) :
    strncaseEq (scheme ++ rest) (ascii "http://") 7 = true := by
  have hlen := length_of_scheme h
  have htake : (scheme ++ rest).take 7 = scheme := by
    rw [← hlen]
    exact List.take_left
  have hname : (ascii "http://").take 7 = ascii "http://" := by decide
  rw [strncaseEq, htake, hname]
  exact h

/-- A URI that starts with '/' does not start with a scheme. -/
theorem not_scheme_of_slash (path : List Byte) :
    strncaseEq (slash :: path) (ascii "http://") 7 = false := by
  have hslash : tolower slash ≠ tolower 104 := by decide
  have hname : (ascii "http://").take 7 = 104 :: ascii "ttp://" := by decide
  simp [strncaseEq, strcaseEq, hname, hslash]

/-- A URI names at most one target. -/
theorem TargetOf.eq {uri target : List Byte} (h : TargetOf uri target) :
    target = if uri.head? = some slash then uri else (uri.drop 7).dropWhile (· != slash) := by
  cases h with
  | origin path => rfl
  | absolute scheme host path hscheme hhost =>
      have hlen := length_of_scheme hscheme
      have hhead : (scheme ++ host ++ slash :: path).head? ≠ some slash := by
        intro hhead
        obtain ⟨rest, hrest⟩ := List.head?_eq_some_iff.mp hhead
        have hprefix := scheme_prefix hscheme (host ++ slash :: path)
        rw [← List.append_assoc, hrest, not_scheme_of_slash] at hprefix
        cases hprefix
      have hskip : ∀ b ∈ host, (b != slash) = true := by
        intro b hb
        have hne : b ≠ slash := by
          rintro rfl
          exact hhost hb
        simpa using hne
      rw [if_neg hhead, List.append_assoc, ← hlen, List.drop_left,
        List.dropWhile_append_of_pos hskip]
      simp

/-- A line is read in one way. -/
theorem RequestLine.unique {line target version target' version' : List Byte}
    (h : RequestLine line target version) (h' : RequestLine line target' version') :
    target = target' ∧ version = version' := by
  obtain ⟨⟨method, gap, uri, gap₂, hsplit, hrest, -, htarget⟩, -⟩ := h
  obtain ⟨⟨method', gap', uri', gap₂', hsplit', hrest', -, htarget'⟩, -⟩ := h'
  obtain ⟨-, -, hsame⟩ := hsplit.unique hsplit'
  rw [hsame] at hrest
  obtain ⟨rfl, -, rfl⟩ := hrest.unique hrest'
  exact ⟨htarget.eq.trans htarget'.eq.symm, rfl⟩

/-- The plainest request line. -/
def rootRequest : List Byte := ascii "GET / HTTP/1.1"

theorem rootRequest_line : RequestLine rootRequest (ascii "/") (ascii "HTTP/1.1") where
  parts := ⟨ascii "GET", ascii " ", ascii "/", ascii " ",
    by decide, by decide, by decide, TargetOf.origin []⟩
  version_eq := by decide

section TargetAt

variable {n : Nat}

/-- Where the target of a URI stands: at its start, or behind its scheme and
host. -/
def targetAt (buf : Buffer n) (url : Nat) : Option Nat :=
  if strncaseEq (cstr buf url) (ascii "http://") 7 then strchr buf (url + 7) slash
  else some url

variable {buf : Buffer n} {url p : Nat}

/-- The first byte of a string. -/
theorem get_of_cstr {b : Byte} {rest : List Byte} (h : cstr buf p = b :: rest) :
    buf.get p = b := by
  by_cases hzero : buf.get p = 0
  · rw [cstr_of_zero hzero] at h
    cases h
  · rw [cstr_of_ne_zero hzero, List.cons.injEq] at h
    exact h.1

/-- The target that a URI names is found. -/
theorem targetAt_of_target {target : List Byte} (htarget : TargetOf (cstr buf url) target) :
    ∃ p, targetAt buf url = some p ∧ buf.get p = slash ∧ cstr buf p = target := by
  generalize huri : cstr buf url = uri at htarget
  cases htarget with
  | origin path =>
      refine ⟨url, ?_, get_of_cstr huri, huri⟩
      rw [targetAt, huri, not_scheme_of_slash, if_neg Bool.false_ne_true]
  | absolute scheme host path hscheme hhost =>
      have hprefix := scheme_prefix hscheme (host ++ slash :: path)
      have hbehind : cstr buf (url + 7) = host ++ slash :: path := by
        rw [← length_of_scheme hscheme]
        apply cstr_add
        rw [← List.append_assoc]
        exact huri
      have hfound : strchr buf (url + 7) slash = some (url + 7 + host.length) :=
        strpbrk_of_split hbehind (fun x hx => by
          intro hmem
          rw [List.mem_singleton] at hmem
          exact hhost (hmem ▸ hx)) (List.mem_singleton.mpr rfl)
      have hpath : cstr buf (url + 7 + host.length) = slash :: path := cstr_add hbehind
      refine ⟨url + 7 + host.length, ?_, get_of_cstr hpath, hpath⟩
      rw [targetAt, huri, List.append_assoc, hprefix, if_pos rfl, hfound]

/-- What is found with a '/' is a target. -/
theorem exists_target (hfound : targetAt buf url = some p) (hget : buf.get p = slash) :
    ∃ target, TargetOf (cstr buf url) target := by
  have hnz : buf.get p ≠ 0 := by
    rw [hget]
    decide
  unfold targetAt at hfound
  split at hfound
  · rename_i hscheme
    obtain ⟨host, b, path, hsplit, hhost, hb, rfl⟩ := split_of_strpbrk hfound
    rw [List.mem_singleton] at hb
    have hlen := length_of_strncaseEq (by decide) hscheme
    have hcut : cstr buf url = (cstr buf url).take 7 ++ (cstr buf url).drop 7 :=
      (List.take_append_drop 7 _).symm
    have htake : ((cstr buf url).take 7).length = 7 := by
      rw [List.length_take]
      omega
    have hdrop : cstr buf (url + 7) = (cstr buf url).drop 7 := by
      have := cstr_add hcut
      rwa [htake] at this
    refine ⟨slash :: path, ?_⟩
    rw [hcut, ← hdrop, hsplit, hb, ← List.append_assoc]
    refine TargetOf.absolute _ host path hscheme ?_
    intro hmem
    exact hhost slash hmem (List.mem_singleton.mpr rfl)
  · cases hfound
    refine ⟨cstr buf url, ?_⟩
    rw [cstr_of_ne_zero hnz, hget]
    exact TargetOf.origin _

end TargetAt

namespace HttpConn

section CheckUrl

variable {c : HttpConn} {url e : Nat} {uri : List Byte}

theorem stripHost_eq (c : HttpConn) (url : Nat) : c.stripHost url = targetAt c.readBuf url := rfl

/-- `parse_request_line` finds the target the URI names. -/
theorem checkUrl_of_target (h : c.Closed url e) (huri : c.strAt url = uri)
    {target : List Byte} (htarget : TargetOf uri target) :
    ∃ p ≤ e, c.checkUrl url =
        (.noRequest, { c.setUrl (some p) with checkState := .header }) ∧
      c.strAt p = target := by
  subst huri
  obtain ⟨p, hfound, hget, hp⟩ := targetAt_of_target htarget
  refine ⟨p, h.stripHost_le hfound, ?_, hp⟩
  rw [checkUrl, stripHost_eq, hfound]
  dsimp only
  rw [if_pos hget]

/-- A URI that names no target is rejected. -/
theorem checkUrl_of_no_target (huri : c.strAt url = uri)
    (hnone : ∀ target, ¬ TargetOf uri target) : (c.checkUrl url).1 = .badRequest := by
  subst huri
  rw [checkUrl, stripHost_eq]
  cases hfound : targetAt c.readBuf url with
  | none => rfl
  | some p =>
      dsimp only
      split
      · rename_i hget
        obtain ⟨target, htarget⟩ := exists_target hfound hget
        exact absurd htarget (hnone target)
      · rfl

end CheckUrl

theorem readBuf_store (c : HttpConn) (i : Nat) (value : Byte) :
    (c.store i value).readBuf = c.readBuf.poke i value := by
  rw [store_natCast]

/-- A word of a closed string can be cut off where it stands. -/
theorem Closed.cut {c : HttpConn} {text e : Nat} (h : c.Closed text e)
    {word gap rest : List Byte} (hsplit : Split blanks (c.strAt text) word gap rest) :
    strpbrk c.readBuf text blanks = some (text + word.length) ∧
      text + word.length < e ∧
      (c.store (text + word.length : Nat) 0).strAt text = word ∧
      (c.store (text + word.length : Nat) 0).strAt (text + word.length + 1 +
        strspn (c.store (text + word.length : Nat) 0).readBuf
          (text + word.length + 1) blanks) = rest := by
  have hlt := hsplit.word_lt h.text_le h.nul
  refine ⟨hsplit.strpbrk, hlt, ?_, ?_⟩
  · rw [strAt, readBuf_store]
    exact hsplit.cstr_word (strpbrk_lt hsplit.strpbrk)
  · rw [strAt, readBuf_store]
    exact hsplit.cstr_rest

section ParseVersion

variable {c : HttpConn} {url e : Nat}

theorem parseVersion_of_version (h : c.Closed url e) {uri gap version target : List Byte}
    (hsplit : Split blanks (c.strAt url) uri gap version)
    (hversion : strcaseEq version (ascii "HTTP/1.1") = true)
    (htarget : TargetOf uri target) :
    (c.parseVersion url).1 = .noRequest ∧
      (c.parseVersion url).2.checkState = .header ∧
      (∃ p ≤ e, (c.parseVersion url).2.url = some p ∧
        (c.parseVersion url).2.strAt p = target) ∧
      (∃ q ≤ e, (c.parseVersion url).2.version = some q ∧
        (c.parseVersion url).2.strAt q = version) := by
  obtain ⟨hfound, hlt, hword, hrest⟩ := h.cut hsplit
  have hstored : (c.store (url + uri.length : Nat) 0).Closed url e := h.store _
  have hle := ((hstored.of_le hlt).skipBlanks).text_le
  unfold parseVersion
  simp only [hfound, strAt_setVersion, hrest, hversion, ↓reduceIte]
  obtain ⟨p, hpe, hcheck, hp⟩ := checkUrl_of_target
    (c := (c.store (url + uri.length : Nat) 0).setVersion
      (url + uri.length + 1 + strspn (c.store (url + uri.length : Nat) 0).readBuf
        (url + uri.length + 1) blanks : Nat)) (hstored.setVersion _) hword htarget
  rw [hcheck]
  exact ⟨rfl, rfl, ⟨p, hpe, rfl, hp⟩, ⟨_, hle, rfl, hrest⟩⟩

theorem parseVersion_of_no_version (h : c.Closed url e)
    (hnone : ∀ uri gap version target, Split blanks (c.strAt url) uri gap version →
      strcaseEq version (ascii "HTTP/1.1") = true → ¬ TargetOf uri target) :
    (c.parseVersion url).1 = .badRequest := by
  by_cases hblank : ∃ b ∈ c.strAt url, b ∈ blanks
  · obtain ⟨uri, gap, version, hsplit⟩ := Split.exists hblank
    obtain ⟨hfound, -, hword, hrest⟩ := h.cut hsplit
    unfold parseVersion
    simp only [hfound, strAt_setVersion, hrest]
    split
    · rename_i hversion
      exact checkUrl_of_no_target hword
        (fun target => hnone uri gap version target hsplit hversion)
    · rfl
  · unfold parseVersion
    rw [strpbrk_of_none_accepted hblank]

end ParseVersion

section ParseRequestLine

variable {c : HttpConn} {text e : Nat}

/-- What follows the method in `parse_request_line`. -/
theorem parseRequestLine_of_method (h : c.Closed text e) {method gap rest : List Byte}
    (hsplit : Split blanks (c.strAt text) method gap rest)
    (hmethod : strcaseEq method (ascii "GET") = true) :
    ∃ (mid : HttpConn) (url : Nat), c.parseRequestLine text = mid.parseVersion url ∧
      mid.Closed url e ∧ mid.strAt url = rest := by
  obtain ⟨hfound, hlt, hword, hrest⟩ := h.cut hsplit
  have hclosed : (c.store (text + method.length : Nat) 0).Closed
      (text + method.length + 1) e := (h.store _).of_le hlt
  unfold parseRequestLine
  simp only [hfound, strAt_setUrl, hword, hmethod, ↓reduceIte, readBuf_setMethod,
    readBuf_setUrl]
  exact ⟨_, _, rfl, ((hclosed.skipBlanks.setUrl _).setMethod _).setUrl _, hrest⟩

/-- A request line is accepted; `m_url` and `m_version` point to its target
and its version. -/
theorem parseRequestLine_of_line (h : c.Closed text e) {target version : List Byte}
    (hline : RequestLine (c.strAt text) target version) :
    (c.parseRequestLine text).1 = .noRequest ∧
      (c.parseRequestLine text).2.checkState = .header ∧
      (∃ p ≤ e, (c.parseRequestLine text).2.url = some p ∧
        (c.parseRequestLine text).2.strAt p = target) ∧
      (∃ q ≤ e, (c.parseRequestLine text).2.version = some q ∧
        (c.parseRequestLine text).2.strAt q = version) := by
  obtain ⟨⟨method, gap, uri, gap', hmethod, huri, hget, htarget⟩, hversion⟩ := hline
  obtain ⟨mid, url, hparse, hclosed, hrest⟩ := parseRequestLine_of_method h hmethod hget
  rw [hparse]
  exact parseVersion_of_version hclosed (hrest.symm ▸ huri) hversion htarget

/-- Every other line is rejected. -/
theorem parseRequestLine_of_no_line (h : c.Closed text e)
    (hnone : ∀ target version, ¬ RequestLine (c.strAt text) target version) :
    (c.parseRequestLine text).1 = .badRequest := by
  by_cases hblank : ∃ b ∈ c.strAt text, b ∈ blanks
  · obtain ⟨method, gap, rest, hsplit⟩ := Split.exists hblank
    by_cases hmethod : strcaseEq method (ascii "GET") = true
    · obtain ⟨mid, url, hparse, hclosed, hrest⟩ := parseRequestLine_of_method h hsplit hmethod
      rw [hparse]
      apply parseVersion_of_no_version hclosed
      intro uri gap' version target huri hversion htarget
      rw [hrest] at huri
      have heq := huri.eq
      subst heq
      exact hnone target version ⟨⟨method, gap, uri, gap', hsplit, huri, hmethod, htarget⟩,
        hversion⟩
    · obtain ⟨hfound, -, hword, -⟩ := h.cut hsplit
      unfold parseRequestLine
      simp only [hfound, strAt_setUrl, hword, hmethod, Bool.false_eq_true, ↓reduceIte]
  · unfold parseRequestLine
    rw [strpbrk_of_none_accepted hblank]

/-- The codes of `parse_request_line`. -/
theorem parseRequestLine_code (h : c.Closed text e) :
    ((c.parseRequestLine text).1 = .noRequest ∧
      ∃ target version, RequestLine (c.strAt text) target version) ∨
    ((c.parseRequestLine text).1 = .badRequest ∧
      ∀ target version, ¬ RequestLine (c.strAt text) target version) := by
  by_cases hline : ∃ target version, RequestLine (c.strAt text) target version
  · obtain ⟨target, version, hline⟩ := hline
    exact Or.inl ⟨(parseRequestLine_of_line h hline).1, target, version, hline⟩
  · have hnone : ∀ target version, ¬ RequestLine (c.strAt text) target version :=
      fun target version hl => hline ⟨target, version, hl⟩
    exact Or.inr ⟨parseRequestLine_of_no_line h hnone, hnone⟩

end ParseRequestLine

end HttpConn

end LinuxLearning.Webserver
