/-
What can still become of bytes the parser waits on.  If every line end in them
is whole, four more bytes at most make it decide; if not, LINE_BAD is taken
for LINE_OPEN and no bytes ever do.
-/
import LinuxLearning.Webserver.Chunks

namespace LinuxLearning.Webserver

open Lines CString

namespace HttpConn

variable {fellOff : Option HttpCode}

/-- A complete head is decided on. -/
theorem oneShot_head (fellOff : Option HttpCode) (c : HttpConn) {request blank : List Byte}
    {headers : List (List Byte)} {body : List Byte} (h : IsHead request headers blank)
    (hfit : (headBytes request headers blank ++ body).length ≤ READ_BUFFER_SIZE) :
    (oneShot fellOff c (headBytes request headers blank ++ body)).2 ≠ .code .noRequest := by
  obtain ⟨mid, -, -, hread⟩ := readRequest_head fellOff c h hfit
  rw [oneShot, hread]
  split
  · simp
  · exact (readRequest_content rfl).1

/-- What the parser waits on is the start of a head, when no body is
announced. -/
theorem oneShot_waits (fellOff : Option HttpCode) (c : HttpConn) {s : List Byte}
    (hfit : s.length ≤ READ_BUFFER_SIZE)
    (hwait : (oneShot fellOff c s).2 = .code .noRequest) :
    ∃ lines rest, IsStart lines ∧ Open rest ∧ s = joinLines lines ++ rest := by
  rcases head_cases s with hstart | ⟨line, rest, hline, hnone, rfl⟩ |
    ⟨request, headers, blank, body, hhead, rfl⟩
  · exact hstart
  · obtain ⟨after, hbad, -⟩ := readRequest_bad fellOff c hline hnone hfit
    rw [oneShot, hbad] at hwait
    cases hwait
  · exact absurd hwait (oneShot_head fellOff c hhead hfit)

/-- Once the line that is waited for and an empty one are complete, the parser
decides. -/
theorem oneShot_completed (fellOff : Option HttpCode) (c : HttpConn)
    {lines : List (List Byte)} {text : List Byte} (h : IsStart lines) (htext : IsLine text)
    (hfit : (joinLines (lines ++ [text, []])).length ≤ READ_BUFFER_SIZE) :
    (oneShot fellOff c (joinLines (lines ++ [text, []]))).2 ≠ .code .noRequest := by
  cases lines with
  | nil =>
      by_cases hrequest : ∃ target version, RequestLine (cText text) target version
      · have hhead : IsHead text [] [] := ⟨by simp [htext], hrequest, by simp, rfl⟩
        have hbytes : joinLines ([] ++ [text, []]) = headBytes text [] [] ++ [] := by
          simp [headBytes]
        rw [hbytes] at hfit ⊢
        exact oneShot_head fellOff c hhead hfit
      · have hbytes : joinLines ([] ++ [text, []]) = text ++ CR :: LF :: [CR, LF] := by simp
        rw [hbytes] at hfit ⊢
        obtain ⟨after, hbad, -⟩ := readRequest_bad fellOff c htext
          (fun target version hline => hrequest ⟨target, version, hline⟩) hfit
        rw [oneShot, hbad]
        simp
  | cons request headers =>
      obtain ⟨hrequest, hheaders⟩ := List.forall_mem_cons.mp h.isLine
      have hline := h.request request rfl
      by_cases hblank : cText text = []
      · have hhead : IsHead request headers text := by
          refine ⟨?_, hline, h.headers, hblank⟩
          rw [List.forall_mem_cons, List.forall_mem_append, List.forall_mem_singleton]
          exact ⟨hrequest, hheaders, htext⟩
        have hbytes : joinLines (request :: headers ++ [text, []]) =
            headBytes request headers text ++ [CR, LF] := by simp [headBytes]
        rw [hbytes] at hfit ⊢
        exact oneShot_head fellOff c hhead hfit
      · have hhead : IsHead request (headers ++ [text]) [] := by
          refine ⟨?_, hline, ?_, rfl⟩
          · rw [List.forall_mem_cons, List.forall_mem_append, List.forall_mem_append,
              List.forall_mem_singleton, List.forall_mem_singleton]
            exact ⟨hrequest, ⟨hheaders, htext⟩, isLine_nil⟩
          · rw [List.forall_mem_append, List.forall_mem_singleton]
            exact ⟨h.headers, hblank⟩
        have hbytes : joinLines (request :: headers ++ [text, []]) =
            headBytes request (headers ++ [text]) [] ++ [] := by simp [headBytes]
        rw [hbytes] at hfit ⊢
        exact oneShot_head fellOff c hhead hfit

/-- When every line end is whole, a few more bytes make the parser decide. -/
theorem exists_completion (fellOff : Option HttpCode) (c : HttpConn) {s : List Byte}
    (hlen : s.length < READ_BUFFER_SIZE - 8)
    (hwait : (oneShot fellOff c s).2 = .code .noRequest) (hended : WellEnded s) :
    ∃ more, (s ++ more).length ≤ READ_BUFFER_SIZE ∧
      (oneShot fellOff c (s ++ more)).2 ≠ .code .noRequest := by
  have hsize : READ_BUFFER_SIZE = 2048 := rfl
  obtain ⟨lines, rest, hstart, hopen, rfl⟩ := oneShot_waits fellOff c (by omega) hwait
  rcases open_cases hopen with ⟨-, text, more, htext, hmore, hrest⟩ | ⟨hbroken, -⟩
  · have hbytes : joinLines lines ++ rest ++ (more ++ [CR, LF]) =
        joinLines (lines ++ [text, []]) := by
      rw [List.append_assoc, ← List.append_assoc rest, hrest]
      simp
    have hfit : (joinLines lines ++ rest ++ (more ++ [CR, LF])).length ≤ READ_BUFFER_SIZE := by
      simp only [List.length_append, List.length_cons, List.length_nil] at hlen ⊢
      omega
    refine ⟨more ++ [CR, LF], hfit, ?_⟩
    rw [hbytes] at hfit ⊢
    exact oneShot_completed fellOff c hstart htext hfit
  · exact absurd ((wellEnded_joinLines hstart.isLine rest).mp hended) hbroken

/-- Otherwise no bytes do. -/
theorem waits_forever (fellOff : Option HttpCode) (c : HttpConn) {s more : List Byte}
    (hwait : (oneShot fellOff c s).2 = .code .noRequest) (hended : ¬ WellEnded s)
    (hfit : (s ++ more).length ≤ READ_BUFFER_SIZE) :
    (oneShot fellOff c (s ++ more)).2 = .code .noRequest := by
  have hle : s.length ≤ READ_BUFFER_SIZE := by
    rw [List.length_append] at hfit
    omega
  obtain ⟨lines, rest, hstart, hopen, rfl⟩ := oneShot_waits fellOff c hle hwait
  rcases open_cases hopen with ⟨hwhole, -⟩ | ⟨-, hopen'⟩
  · exact absurd ((wellEnded_joinLines hstart.isLine rest).mpr hwhole) hended
  · rw [List.append_assoc] at hfit ⊢
    obtain ⟨mid, stop, hread, -⟩ := readRequest_start fellOff c hstart (hopen' more) hfit
    rw [oneShot, hread]

/-- While every call waits, the connection stays resumable, and the calls that
follow are made from it. -/
theorem calls_append {c after : HttpConn} {s : List Byte} {chunks : List (List Byte)}
    (h : Resumes fellOff c s after) (hfit : (s ++ chunks.flatten).length ≤ READ_BUFFER_SIZE)
    (hlast : (oneShot fellOff c s).2 = .code .noRequest)
    (hwait : ∀ call ∈ calls fellOff after s chunks, call.result = .code .noRequest) :
    ∃ last, Resumes fellOff c (s ++ chunks.flatten) last ∧
      (oneShot fellOff c (s ++ chunks.flatten)).2 = .code .noRequest ∧
      ∀ more, calls fellOff after s (chunks ++ more) =
        calls fellOff after s chunks ++ calls fellOff last (s ++ chunks.flatten) more := by
  induction chunks generalizing after s with
  | nil =>
      rw [List.flatten_nil, List.append_nil]
      exact ⟨after, h, hlast, fun more => rfl⟩
  | cons chunk chunks ih =>
      rw [List.flatten_cons, ← List.append_assoc] at hfit ⊢
      have hfit' : (s ++ chunk).length ≤ READ_BUFFER_SIZE := by
        rw [List.length_append] at hfit
        omega
      rw [calls_cons h hfit', List.forall_mem_cons] at hwait
      have hmore : (oneShot fellOff c (s ++ chunk)).2 = .code .noRequest := hwait.1
      rw [if_pos hmore] at hwait
      obtain ⟨last, hresumes, hlast', hcalls⟩ := ih (h.step hfit' hmore) hfit hmore hwait.2
      refine ⟨last, hresumes, hlast', fun more => ?_⟩
      rw [List.cons_append, calls_cons h hfit', calls_cons h hfit', if_pos hmore, if_pos hmore,
        hcalls more, List.cons_append]

section Waiting

variable {c : HttpConn} {chunks : List (List Byte)}

/-- The calls that follow those that have waited. -/
theorem calls_waited (hfit : chunks.flatten.length ≤ READ_BUFFER_SIZE)
    (hwait : ∀ call ∈ calls fellOff c.init [] chunks, call.result = .code .noRequest) :
    (oneShot fellOff c chunks.flatten).2 = .code .noRequest ∧
      ∃ last, Resumes fellOff c chunks.flatten last ∧
        ∀ more, calls fellOff c.init [] (chunks ++ more) =
          calls fellOff c.init [] chunks ++ calls fellOff last chunks.flatten more := by
  have hnil : (oneShot fellOff c []).2 = .code .noRequest := by rw [oneShot_nil]
  obtain ⟨last, hresumes, hlast, hcalls⟩ :=
    calls_append (init_resumes fellOff c) (by rw [List.nil_append]; exact hfit) hnil hwait
  exact ⟨hlast, last, hresumes, hcalls⟩

/-- Behind a broken line end no call decides any more. -/
theorem calls_stuck
    (hwait : ∀ call ∈ calls fellOff c.init [] chunks, call.result = .code .noRequest)
    (hended : ¬ WellEnded chunks.flatten) {more : List (List Byte)}
    (hmore : (chunks ++ more).flatten.length ≤ READ_BUFFER_SIZE) :
    ∀ call ∈ calls fellOff c.init [] (chunks ++ more), call.result = .code .noRequest := by
  rw [List.flatten_append] at hmore
  have hfit : chunks.flatten.length ≤ READ_BUFFER_SIZE := by
    rw [List.length_append] at hmore
    omega
  obtain ⟨hlast, last, hresumes, hcalls⟩ := calls_waited hfit hwait
  intro call hcall
  rw [hcalls more] at hcall
  rcases List.mem_append.mp hcall with hold | hnew
  · exact hwait call hold
  · obtain ⟨hresult, hle⟩ := calls_oneShot hresumes hmore call hnew
    obtain ⟨part, -, hreceived, -⟩ := calls_received hnew
    rw [hreceived] at hresult hle
    have hwaits := waits_forever fellOff c hlast hended (Nat.le_trans hle hmore)
    rw [← hresult] at hwaits
    exact hwaits

/-- A first chunk without a complete line is waited on. -/
theorem calls_open (fellOff : Option HttpCode) (c : HttpConn) {s : List Byte} (hopen : Open s)
    (hfit : s.length ≤ READ_BUFFER_SIZE) :
    ∀ call ∈ calls fellOff c.init [] [s], call.result = .code .noRequest := by
  have hstart : IsStart [] := ⟨by simp, by simp, by simp⟩
  obtain ⟨mid, stop, hread, -⟩ := readRequest_start fellOff c hstart hopen hfit
  rw [joinLines_nil, List.nil_append] at hread
  rw [calls_cons (init_resumes fellOff c) hfit, List.nil_append, oneShot, hread]
  simp [calls]

end Waiting

/-- Bytes on which every call has waited can still be decided on exactly when
every line end in them is whole. -/
theorem progress_iff (fellOff : Option HttpCode) (c : HttpConn) {chunks : List (List Byte)}
    (hlen : chunks.flatten.length < READ_BUFFER_SIZE - 8)
    (hwait : ∀ call ∈ calls fellOff c.init [] chunks, call.result = .code .noRequest) :
    (∃ more, (chunks ++ more).flatten.length ≤ READ_BUFFER_SIZE ∧
      ∃ call ∈ calls fellOff c.init [] (chunks ++ more), call.result ≠ .code .noRequest) ↔
    WellEnded chunks.flatten := by
  have hfit : chunks.flatten.length ≤ READ_BUFFER_SIZE := by omega
  constructor
  · rintro ⟨more, hmore, call, hcall, hdecided⟩
    by_contra hended
    exact hdecided (calls_stuck hwait hended hmore call hcall)
  · intro hended
    obtain ⟨hlast, last, hresumes, hcalls⟩ := calls_waited hfit hwait
    obtain ⟨more, hmore, hdecided⟩ := exists_completion fellOff c hlen hlast hended
    refine ⟨[more], by simpa using hmore, ?_⟩
    rw [hcalls, calls_cons hresumes hmore]
    exact ⟨_, List.mem_append_right _ List.mem_cons_self, hdecided⟩

/-- Half a request line can be completed. -/
theorem progress_iff_half :
    (∃ more, ([ascii "GET / HT"] ++ more).flatten.length ≤ READ_BUFFER_SIZE ∧
      ∃ call ∈ calls none idle.init [] ([ascii "GET / HT"] ++ more),
        call.result ≠ .code .noRequest) ↔
    WellEnded [ascii "GET / HT"].flatten := by
  have hline : IsLine (ascii "GET / HT") := by decide
  have hopen : Open (ascii "GET / HT") := open_of_scan (by rw [scan_more hline]; simp)
  exact progress_iff none idle (by decide) (calls_open none idle hopen (by decide))

/-- A request line with a stray CR is waited on for ever. -/
theorem stray_cr_waits :
    ¬ ∀ chunks : List (List Byte), chunks.flatten.length < READ_BUFFER_SIZE - 8 →
      NoContentLength chunks.flatten →
      (∀ call ∈ calls none idle.init [] chunks, call.result = .code .noRequest) →
      ∃ more, (chunks ++ more).flatten.length ≤ READ_BUFFER_SIZE ∧
        ∃ call ∈ calls none idle.init [] (chunks ++ more), call.result ≠ .code .noRequest := by
  intro hall
  have hline : IsLine rootRequest := by decide
  have hopen : Open (rootRequest ++ CR :: 88 :: []) :=
    open_of_scan (by rw [scan_broken_cr hline (by decide)]; simp)
  have hwait := calls_open none idle hopen (by decide)
  obtain ⟨more, hmore, call, hcall, hdecided⟩ := hall [rootRequest ++ CR :: 88 :: []]
    (by decide) (by decide) hwait
  exact hdecided (calls_stuck hwait (by decide) hmore call hcall)

end HttpConn

end LinuxLearning.Webserver
