/-
Where a head ends.  The parser cuts lines out of raw bytes and reads them as C
strings; so a NUL hides what stands behind the version, and a line that begins
with one counts as the empty line.
-/
import LinuxLearning.Webserver.Process

namespace LinuxLearning.Webserver

open Lines CString

/-- The bytes begin with a request line, lines that are not empty, and an
empty line, all read up to their CR LF. -/
def HeadPrefix (s : List Byte) : Prop :=
  ∃ request headers rest, s = joinLines (request :: (headers ++ [[]])) ++ rest ∧
    ¬ [CR, LF] <:+: request ∧ (∃ target version, RequestLine request target version) ∧
    ∀ line ∈ headers, line ≠ [] ∧ ¬ [CR, LF] <:+: line

/-- What follows the first NUL of a line. -/
theorem exists_behind_nul {line : List Byte} (h : 0 ∈ line) :
    ∃ hidden, line = cText line ++ 0 :: hidden := by
  have hcut : cText line ++ line.dropWhile (· != 0) = line := List.takeWhile_append_dropWhile
  have hhead := List.head?_dropWhile_not (· != 0) line
  cases hrest : line.dropWhile (· != 0) with
  | nil =>
      have hall := List.dropWhile_eq_nil_iff.mp hrest 0 h
      cases hall
  | cons b hidden =>
      rw [hrest] at hhead hcut
      have hb : b = 0 := by simpa using hhead
      exact ⟨hidden, by rw [← hb, hcut]⟩

/-- A line that is a request line up to its first NUL is none as a whole. -/
theorem RequestLine.no_nul {line target version target' version' : List Byte}
    (htext : RequestLine (cText line) target version)
    (hline : RequestLine line target' version') : 0 ∉ line := by
  intro hnul
  obtain ⟨hidden, hhidden⟩ := exists_behind_nul hnul
  obtain ⟨⟨method, gap, uri, gap₂, hsplit, hrest, -, -⟩, hversion⟩ := htext
  obtain ⟨⟨method', gap', uri', gap₂', hsplit', hrest', -, -⟩, hversion'⟩ := hline
  have hlen := length_of_strcaseEq hversion
  have hlen' := length_of_strcaseEq hversion'
  have hname : (ascii "HTTP/1.1").length = 8 := by decide
  have hne : version ≠ [] := by
    rintro rfl
    rw [hname] at hlen
    cases hlen
  -- the whole line is cut as its text is, with what is hidden behind the version
  have hwhole := hsplit.append (List.append_ne_nil_of_right_ne_nil _ hne) (0 :: hidden)
  have hbehind := hrest.append hne (0 :: hidden)
  rw [← hhidden] at hwhole
  obtain ⟨-, -, hsame⟩ := hwhole.unique hsplit'
  rw [← hsame] at hrest'
  obtain ⟨-, -, rfl⟩ := hbehind.unique hrest'
  rw [List.length_append, List.length_cons] at hlen'
  omega

/-- The head prefix ends with two CR LF. -/
theorem HeadPrefix.empty_line {s : List Byte} (h : HeadPrefix s) : [CR, LF, CR, LF] <:+: s := by
  obtain ⟨request, headers, rest, rfl, -, -, -⟩ := h
  rcases List.eq_nil_or_concat' headers with rfl | ⟨headers, line, rfl⟩
  · exact ⟨request, rest, by simp⟩
  · exact ⟨joinLines (request :: headers) ++ line, rest, by simp⟩

/-- For bytes that begin with a head, when its lines are read as C strings:
they begin with one as they stand exactly when the request line has no NUL and
an empty line follows somewhere. -/
theorem IsHead.headPrefix_iff {request blank rest : List Byte} {headers : List (List Byte)}
    (h : IsHead request headers blank) :
    HeadPrefix (headBytes request headers blank ++ rest) ↔
      0 ∉ request ∧ [CR, LF, CR, LF] <:+: headBytes request headers blank ++ rest := by
  have hline := h.isLine request List.mem_cons_self
  obtain ⟨target, version, hrequest⟩ := h.request
  have hbytes : headBytes request headers blank ++ rest =
      request ++ CR :: LF :: (joinLines (headers ++ [blank]) ++ rest) := by simp [headBytes]
  constructor
  · intro hprefix
    refine ⟨?_, hprefix.empty_line⟩
    obtain ⟨request', headers', rest', hsplit, hfirst, ⟨target', version', hrequest'⟩, -⟩ := hprefix
    have hboth : request ++ CR :: LF :: (joinLines (headers ++ [blank]) ++ rest) =
        request' ++ CR :: LF :: (joinLines (headers' ++ [[]]) ++ rest') := by
      rw [← hbytes, hsplit]
      simp
    obtain ⟨rfl, -⟩ := line_unique hline hfirst hboth
    exact hrequest.no_nul hrequest'
  · rintro ⟨hnul, hempty⟩
    rw [cText_eq hnul] at hrequest
    rw [hbytes] at hempty ⊢
    obtain ⟨lines, rest', hlines, hall⟩ := exists_empty_line (infix_behind_line hline hempty)
    refine ⟨request, lines, rest', ?_, ?_, ⟨target, version, hrequest⟩, hall⟩
    · rw [hlines]
      simp
    · rintro ⟨before, after, rfl⟩
      simp at hline

namespace HttpConn

/-- When `do_request` is called only on bytes that begin with a head: those
that do when read as C strings have no NUL in the request line, and an empty
line. -/
theorem doRequest_headPrefix_iff (fellOff : Option HttpCode) (c : HttpConn) {s : List Byte}
    (hlen : s.length < READ_BUFFER_SIZE) (hnone : NoContentLength s) :
    ((oneShot fellOff c s).2 = .doRequest → HeadPrefix s) ↔
      ∀ request headers blank rest, IsHead request headers blank →
        s = headBytes request headers blank ++ rest →
        0 ∉ request ∧ [CR, LF, CR, LF] <:+: s := by
  have hfit : s.length ≤ READ_BUFFER_SIZE := Nat.le_of_lt hlen
  constructor
  · rintro hcalled request headers blank rest hhead rfl
    obtain ⟨mid, -, -, hread⟩ := readRequest_head fellOff c hhead hfit
    rw [if_pos hnone.fieldsOf] at hread
    exact hhead.headPrefix_iff.mp (hcalled (congrArg Prod.snd hread))
  · intro hclean hcalled
    obtain ⟨request, headers, blank, rest, hhead, rfl⟩ := oneShot_called hfit hcalled
    exact hhead.headPrefix_iff.mpr (hclean request headers blank rest hhead rfl)

/-- For the plainest request. -/
theorem doRequest_headPrefix_iff_root :
    ((oneShot none idle (rootRequest ++ CR :: LF :: [CR, LF])).2 = .doRequest →
        HeadPrefix (rootRequest ++ CR :: LF :: [CR, LF])) ↔
      ∀ request headers blank rest, IsHead request headers blank →
        rootRequest ++ CR :: LF :: [CR, LF] = headBytes request headers blank ++ rest →
        0 ∉ request ∧ [CR, LF, CR, LF] <:+: rootRequest ++ CR :: LF :: [CR, LF] :=
  doRequest_headPrefix_iff none idle (by decide) (by decide)

theorem nul_isHead : IsHead rootRequest [] [0] where
  isLine := by decide
  request := ⟨_, _, rootRequest_line⟩
  headers := by simp
  blank := by decide

/-- A line of one NUL ends a head. -/
theorem doRequest_nul_line :
    ¬ ∀ s : List Byte, s.length < READ_BUFFER_SIZE → NoContentLength s →
      (oneShot none idle s).2 = .doRequest → HeadPrefix s := by
  intro hall
  have hlen : (headBytes rootRequest [] [0] ++ []).length < READ_BUFFER_SIZE := by decide
  obtain ⟨mid, -, -, hread⟩ := readRequest_head none idle nul_isHead (Nat.le_of_lt hlen)
  have hlength : (fieldsOf []).contenLength = 0 := rfl
  rw [if_pos hlength] at hread
  have hcalled : (oneShot none idle (headBytes rootRequest [] [0] ++ [])).2 = .doRequest := by
    rw [oneShot, hread]
  have hnone : NoContentLength (headBytes rootRequest [] [0] ++ []) := by decide
  have hempty : [CR, LF, CR, LF] <:+: rootRequest ++ CR :: LF :: [0, CR, LF] :=
    (hall _ hlen hnone hcalled).empty_line
  have hbehind := infix_behind_line (by decide) hempty
  simp [List.infix_cons_iff, CR, LF] at hbehind

end HttpConn

end LinuxLearning.Webserver
