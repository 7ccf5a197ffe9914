/-
The parser on a whole request.  What has been received is a complete head and
what follows it, or the start of a head, or a first line that is no request
line; in each case `process_read` ends in one way.
-/
import LinuxLearning.Webserver.Head

namespace LinuxLearning.Webserver

open Lines CString

/-- A complete head: a request line, header lines, and an empty line.  What
counts is how the lines read as C strings. -/
structure IsHead (request : List Byte) (headers : List (List Byte)) (blank : List Byte) :
    Prop where
  isLine : ∀ line ∈ request :: (headers ++ [blank]), IsLine line
  request : ∃ target version, RequestLine (cText request) target version
  headers : ∀ line ∈ headers, cText line ≠ []
  blank : cText blank = []

/-- The bytes of a head. -/
def headBytes (request : List Byte) (headers : List (List Byte)) (blank : List Byte) :
    List Byte :=
  joinLines (request :: (headers ++ [blank]))

/-- The start of a head: no line of it is wrong, and none is empty. -/
structure IsStart (lines : List (List Byte)) : Prop where
  isLine : ∀ line ∈ lines, IsLine line
  request : ∀ request ∈ lines.head?, ∃ target version, RequestLine (cText request) target version
  headers : ∀ line ∈ lines.tail, cText line ≠ []

theorem headBytes_pos (request : List Byte) (headers : List (List Byte))
    (blank : List Byte) : 0 < (headBytes request headers blank).length := by
  simp [headBytes]

/-- The three ways in which received bytes can stand. -/
theorem head_cases (s : List Byte) :
    (∃ lines rest, IsStart lines ∧ Open rest ∧ s = joinLines lines ++ rest) ∨
    (∃ line rest, IsLine line ∧ (∀ target version, ¬ RequestLine (cText line) target version) ∧
      s = line ++ CR :: LF :: rest) ∨
    (∃ request headers blank body, IsHead request headers blank ∧
      s = headBytes request headers blank ++ body) := by
  obtain ⟨lines, rest, rfl, hlines, hopen⟩ := exists_lines s
  cases lines with
  | nil => exact Or.inl ⟨[], rest, ⟨hlines, nofun, nofun⟩, hopen, rfl⟩
  | cons request more =>
      rw [List.forall_mem_cons] at hlines
      by_cases hrequest : ∃ target version, RequestLine (cText request) target version
      · cases hfind : more.find? (fun line => decide (cText line = [])) with
        | none =>
            rw [List.find?_eq_none] at hfind
            refine Or.inl ⟨request :: more, rest, ⟨?_, ?_, ?_⟩, hopen, rfl⟩
            · rw [List.forall_mem_cons]
              exact hlines
            · intro line hline
              cases hline
              exact hrequest
            · intro line hline
              simpa using hfind line hline
        | some blank =>
            rw [List.find?_eq_some_iff_append] at hfind
            obtain ⟨hblank, before, after, rfl, hbefore⟩ := hfind
            refine Or.inr (Or.inr ⟨request, before, blank, joinLines after ++ rest,
              ⟨?_, hrequest, ?_, by simpa using hblank⟩, by simp [headBytes]⟩)
            · intro line hline
              simp only [List.mem_cons, List.mem_append, List.not_mem_nil, or_false] at hline
              rcases hline with rfl | hline | rfl
              · exact hlines.1
              · exact hlines.2 line (by simp [hline])
              · exact hlines.2 line (by simp)
            · intro line hline
              simpa using hbefore line hline
      · refine Or.inr (Or.inl ⟨request, joinLines more ++ rest, hlines.1, ?_, by simp⟩)
        intro target version hline
        exact hrequest ⟨target, version, hline⟩

/-- Any part of a head that stops before its end is the start of a head. -/
theorem IsHead.start {request blank : List Byte} {headers : List (List Byte)}
    (h : IsHead request headers blank) {before after : List (List Byte)} {line : List Byte}
    (hsplit : request :: (headers ++ [blank]) = before ++ line :: after) : IsStart before := by
  cases before with
  | nil => exact ⟨nofun, nofun, nofun⟩
  | cons first before =>
      rw [List.cons_append, List.cons.injEq] at hsplit
      obtain ⟨rfl, hsplit⟩ := hsplit
      refine ⟨fun l hl => h.isLine l ?_, ?_, ?_⟩
      · rw [hsplit]
        simp only [List.mem_cons, List.mem_append] at hl ⊢
        rcases hl with hl | hl
        · exact Or.inl hl
        · exact Or.inr (Or.inl hl)
      · intro first hmem
        cases hmem
        exact h.request
      · intro l hl
        have hlast : (before ++ line :: after).dropLast = before ++ (line :: after).dropLast :=
          List.dropLast_append_of_ne_nil (List.cons_ne_nil _ _)
        rw [← hsplit, List.dropLast_concat] at hlast
        apply h.headers
        rw [hlast]
        exact List.mem_append_left _ hl

namespace HttpConn

variable (fellOff : Option HttpCode)

/-- Header lines are taken one after the other. -/
theorem Tracks.header_lines {c : HttpConn} {lines headers : List (List Byte)}
    {rest : List Byte} (h : c.Tracks lines (joinLines headers ++ rest)) (hne : lines ≠ [])
    (hlines : ∀ line ∈ headers, IsLine line) (hfields : ∀ line ∈ headers, cText line ≠ []) :
    ∃ after, readRequest fellOff c = readRequest fellOff after ∧
      after.Tracks (lines ++ headers) rest := by
  induction headers generalizing c lines with
  | nil =>
      rw [List.append_nil]
      exact ⟨c, rfl, h⟩
  | cons line headers ih =>
      rw [List.forall_mem_cons] at hlines hfields
      rw [joinLines_cons, List.append_assoc, List.cons_append, List.cons_append] at h
      obtain ⟨mid, hmid, htracks⟩ := h.header_line fellOff hlines.1 hne hfields.1
      obtain ⟨after, hafter, htracks'⟩ :=
        ih htracks (List.append_ne_nil_of_left_ne_nil hne _) hlines.2 hfields.2
      refine ⟨after, hmid.trans hafter, ?_⟩
      rwa [List.append_assoc] at htracks'

/-- The start of a head is consumed and more is waited for. -/
theorem readRequest_start (c : HttpConn) {lines : List (List Byte)} {rest : List Byte}
    (h : IsStart lines) (hopen : Open rest)
    (hfit : (joinLines lines ++ rest).length ≤ READ_BUFFER_SIZE) :
    ∃ (mid : HttpConn) (stop : Nat),
      readRequest fellOff (recvBytes (joinLines lines ++ rest) c.init) =
        (mid.moveTo stop, .code .noRequest) ∧
      mid.Tracks lines rest ∧ mid.checkedIdx ≤ stop := by
  have hinit := init_tracks c hfit
  cases lines with
  | nil =>
      obtain ⟨stop, hstop, hle⟩ := hinit.consumed.wait hopen fellOff
      exact ⟨_, stop, hstop, hinit, hle⟩
  | cons request headers =>
      obtain ⟨hrequest, hheaders⟩ := List.forall_mem_cons.mp h.isLine
      obtain ⟨target, version, hline⟩ := h.request request rfl
      simp only [joinLines_cons, List.append_assoc, List.cons_append] at hinit hfit ⊢
      obtain ⟨first, hfirst, htracks⟩ :=
        hinit.request_line fellOff hrequest hline
      obtain ⟨mid, hmid, htracks'⟩ := htracks.header_lines fellOff
        (List.cons_ne_nil _ _) hheaders h.headers
      obtain ⟨stop, hstop, hle⟩ := htracks'.consumed.wait hopen fellOff
      exact ⟨mid, stop, hfirst.trans (hmid.trans hstop), htracks', hle⟩

/-- A first line that is no request line is rejected. -/
theorem readRequest_bad (c : HttpConn) {line rest : List Byte} (hline : IsLine line)
    (hnone : ∀ target version, ¬ RequestLine (cText line) target version)
    (hfit : (line ++ CR :: LF :: rest).length ≤ READ_BUFFER_SIZE) :
    ∃ after, readRequest fellOff (recvBytes (line ++ CR :: LF :: rest) c.init) =
        (after, .code .badRequest) ∧ after.Consumed [line] rest :=
  (init_tracks c hfit).bad_request fellOff hline hnone

/-- A complete head is consumed.  Without a body the request is complete. -/
theorem readRequest_head (c : HttpConn) {request blank : List Byte}
    {headers : List (List Byte)} {body : List Byte} (h : IsHead request headers blank)
    (hfit : (headBytes request headers blank ++ body).length ≤ READ_BUFFER_SIZE) :
    ∃ mid, mid.Tracks (request :: (headers ++ [blank])) body ∧
      mid.HasFields (fieldsOf headers) ∧
      readRequest fellOff (recvBytes (headBytes request headers blank ++ body) c.init) =
        if (fieldsOf headers).contenLength = 0 then (mid, .doRequest)
        else readRequest fellOff mid.awaitContent := by
  have hinit := init_tracks c hfit
  obtain ⟨hrequest, hmore⟩ := List.forall_mem_cons.mp h.isLine
  rw [List.forall_mem_append, List.forall_mem_singleton] at hmore
  obtain ⟨target, version, hline⟩ := h.request
  rw [headBytes] at hinit hfit ⊢
  simp only [joinLines_cons, joinLines_append, joinLines_nil, List.append_assoc,
    List.cons_append, List.nil_append] at hinit hfit ⊢
  obtain ⟨first, hfirst, htracks⟩ := hinit.request_line fellOff hrequest hline
  obtain ⟨last, hlast, htracks'⟩ := htracks.header_lines fellOff
    (List.cons_ne_nil _ _) hmore.1 h.headers
  obtain ⟨mid, hmid, hend⟩ := htracks'.blank_line fellOff hmore.2
    (List.cons_ne_nil _ _) h.blank
  have hfields : mid.HasFields (fieldsOf headers) := by
    have := hmid.fields
    have hne : [request] ++ headers ≠ [] := List.cons_ne_nil _ _
    rwa [fieldsOf_tail_append hne, h.blank, HeaderFields.add_nil] at this
  refine ⟨mid, hmid, hfields, ?_⟩
  rw [hfirst, hlast, hend, hfields.contenLength]

/-- The store `parse_content` makes. -/
def closeBody (c : HttpConn) : HttpConn :=
  c.markLine.store (c.startLine + c.contenLength) 0

/-- Once a body is expected, the next turn ends the call. -/
theorem readRequest_awaitContent (c : HttpConn) :
    readRequest fellOff c.awaitContent =
      if toInt32 (c.contenLength + c.checkedIdx) ≤ c.readIdx then
        (c.awaitContent.closeBody, .doRequest)
      else
        (c.awaitContent.markLine,
          if fellOff = some .getRequest then .doRequest else .code .internalError) := by
  have hpass : pass fellOff c.awaitContent = handleLine fellOff c.awaitContent :=
    if_pos rfl
  rw [handleLine_content rfl] at hpass
  have hparse : c.awaitContent.markLine.parseContent c.awaitContent.startLine =
      if toInt32 (c.contenLength + c.checkedIdx) ≤ c.readIdx then
        (some .getRequest, c.awaitContent.closeBody)
      else (none, c.awaitContent.markLine) := rfl
  rw [hparse] at hpass
  by_cases hbody : toInt32 (c.contenLength + c.checkedIdx) ≤ c.readIdx
  · simp only [hbody, ↓reduceIte, Option.some_or] at hpass ⊢
    exact readRequest_done hpass
  · simp only [hbody, ↓reduceIte, Option.none_or] at hpass ⊢
    split
    · rename_i hfell
      rw [if_pos hfell] at hpass
      exact readRequest_done hpass
    · rename_i hfell
      rw [if_neg hfell] at hpass
      exact readRequest_done hpass

end HttpConn

end LinuxLearning.Webserver
