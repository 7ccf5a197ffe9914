/-
A byte stream that arrives in pieces.  `process_read` is called after each
piece until it decides; every such call does what a single call on all the
bytes received so far would have done, so the cut does not matter.
-/
import Mathlib.Data.List.Induction
import LinuxLearning.Webserver.DoRequest
import LinuxLearning.Webserver.Request

namespace LinuxLearning.Webserver

open Lines CString

/-- One call of `process_read`: the bytes received before it, and what its
loop left and returned. -/
structure Call where
  received : List Byte
  after : HttpConn
  result : ReadResult

namespace HttpConn

/-- The calls of `process_read` while a stream arrives in chunks: one after
each chunk, until a call returns something other than NO_REQUEST. -/
def calls (fellOff : Option HttpCode) (c : HttpConn) (received : List Byte) :
    List (List Byte) → List Call
  | [] => []
  | chunk :: chunks =>
      let (after, result) := readRequest fellOff (recvBytes chunk c)
      ⟨received ++ chunk, after, result⟩ ::
        if result = .code .noRequest then calls fellOff after (received ++ chunk) chunks
        else []

/-- The outcome of those calls, with the file system behind `do_request`. -/
def feed (fs : List Byte → FsAnswer) (fellOff : Option HttpCode) :
    HttpConn → List (List Byte) → HttpCode × HttpConn × List SysCall
  | c, [] => (.noRequest, c, [])
  | c, chunk :: chunks =>
      let (code, c, sys) := (recvBytes chunk c).processRead fs fellOff
      if code = .noRequest then feed fs fellOff c chunks
      else (code, c, sys)

/-- One call on all the bytes, from the reset connection. -/
def oneShot (fellOff : Option HttpCode) (c : HttpConn) (s : List Byte) :
    HttpConn × ReadResult :=
  readRequest fellOff (recvBytes s c.init)

/-- After `s` has been received and not decided on, `after` is as good as a
connection that has just received `s`. -/
structure Resumes (fellOff : Option HttpCode) (c : HttpConn) (s : List Byte)
    (after : HttpConn) : Prop where
  scanning : after.Scanning
  readIdx_eq : after.readIdx = s.length
  resume : ∀ more, (s ++ more).length ≤ READ_BUFFER_SIZE →
    readRequest fellOff (recvBytes more after) = oneShot fellOff c (s ++ more)

variable {fellOff : Option HttpCode}

theorem init_resumes (fellOff : Option HttpCode) (c : HttpConn) : Resumes fellOff c [] c.init :=
  ⟨init_scanning c, rfl, fun _ _ => rfl⟩

/-- A call that returns NO_REQUEST keeps the connection resumable. -/
theorem Resumes.step {c after : HttpConn} {s chunk : List Byte}
    (h : Resumes fellOff c s after) (hfit : (s ++ chunk).length ≤ READ_BUFFER_SIZE)
    (hmore : (oneShot fellOff c (s ++ chunk)).2 = .code .noRequest) :
    Resumes fellOff c (s ++ chunk) (oneShot fellOff c (s ++ chunk)).1 := by
  have hidx : after.readIdx + chunk.length = (s ++ chunk).length := by
    rw [h.readIdx_eq, List.length_append]
  have hscan : (recvBytes chunk after).Scanning := h.scanning.recv (by omega)
  rw [← h.resume chunk hfit] at hmore ⊢
  obtain ⟨hscan', hread, hresume⟩ := hscan.readRequest_resume hmore
  refine ⟨hscan', hread.trans hidx, fun more hfit' => ?_⟩
  have hroom : (recvBytes chunk after).readIdx + more.length ≤ READ_BUFFER_SIZE := by
    rw [recvBytes_readIdx, hidx, ← List.length_append]
    exact hfit'
  rw [hresume more hroom, recvBytes_append (by omega)]
  rw [List.append_assoc] at hfit' ⊢
  exact h.resume (chunk ++ more) hfit'

/-- The calls made from a resumable connection, one after the other. -/
theorem calls_cons {c after : HttpConn} {s chunk : List Byte} {chunks : List (List Byte)}
    (h : Resumes fellOff c s after) (hfit : (s ++ chunk).length ≤ READ_BUFFER_SIZE) :
    calls fellOff after s (chunk :: chunks) =
      ⟨s ++ chunk, (oneShot fellOff c (s ++ chunk)).1,
          (oneShot fellOff c (s ++ chunk)).2⟩ ::
        if (oneShot fellOff c (s ++ chunk)).2 = .code .noRequest then
          calls fellOff (oneShot fellOff c (s ++ chunk)).1 (s ++ chunk) chunks
        else [] := by
  rw [calls, h.resume chunk hfit]

/-- The first chunk is followed by a call. -/
theorem first_call_mem (fellOff : Option HttpCode) (c : HttpConn) {s : List Byte}
    (hfit : s.length ≤ READ_BUFFER_SIZE) (chunks : List (List Byte)) :
    ⟨s, (oneShot fellOff c s).1, (oneShot fellOff c s).2⟩ ∈
      calls fellOff c.init [] (s :: chunks) := by
  rw [calls_cons (init_resumes fellOff c) hfit, List.nil_append]
  exact List.mem_cons_self

/-- Only a complete head leads to `do_request`. -/
theorem oneShot_called {c : HttpConn} {s : List Byte} (hfit : s.length ≤ READ_BUFFER_SIZE)
    (hcalled : (oneShot fellOff c s).2 = .doRequest) :
    ∃ request headers blank body, IsHead request headers blank ∧
      s = headBytes request headers blank ++ body := by
  rcases head_cases s with ⟨lines, rest, hstart, hopen, rfl⟩ | ⟨line, rest, hline, hbad, rfl⟩ |
    hhead
  · obtain ⟨mid, stop, hread, -⟩ := readRequest_start fellOff c hstart hopen hfit
    rw [oneShot, hread] at hcalled
    cases hcalled
  · obtain ⟨after, hread, -⟩ := readRequest_bad fellOff c hline hbad hfit
    rw [oneShot, hread] at hcalled
    cases hcalled
  · exact hhead

/-- Every call does what one call on all the bytes received so far does. -/
theorem calls_oneShot {c after : HttpConn} {s : List Byte} {chunks : List (List Byte)}
    (h : Resumes fellOff c s after)
    (hfit : (s ++ chunks.flatten).length ≤ READ_BUFFER_SIZE) :
    ∀ call ∈ calls fellOff after s chunks,
      (call.after, call.result) = oneShot fellOff c call.received ∧
        call.received.length ≤ (s ++ chunks.flatten).length := by
  induction chunks generalizing after s with
  | nil => simp [calls]
  | cons chunk chunks ih =>
      rw [List.flatten_cons, ← List.append_assoc] at hfit ⊢
      have hfit' : (s ++ chunk).length ≤ READ_BUFFER_SIZE := by
        rw [List.length_append] at hfit
        omega
      rw [calls_cons h hfit', List.forall_mem_cons]
      constructor
      · refine ⟨Prod.ext rfl rfl, ?_⟩
        simp only [List.length_append]
        omega
      · split
        · rename_i hmore
          exact ih (h.step hfit' hmore) hfit
        · simp

/-- What a call has received: what was received before, and a part of the
chunks. -/
theorem calls_received {c : HttpConn} {s : List Byte} {chunks : List (List Byte)} {call : Call}
    (hcall : call ∈ calls fellOff c s chunks) :
    ∃ part rest, call.received = s ++ part ∧ chunks.flatten = part ++ rest := by
  induction chunks generalizing c s with
  | nil => cases hcall
  | cons chunk chunks ih =>
      rw [calls] at hcall
      dsimp only at hcall
      rcases List.mem_cons.mp hcall with rfl | hlater
      · exact ⟨chunk, chunks.flatten, rfl, rfl⟩
      · obtain ⟨-, hlater⟩ := List.mem_ite_nil_right.mp hlater
        obtain ⟨part, rest, hreceived, hflatten⟩ := ih hlater
        refine ⟨chunk ++ part, rest, ?_, ?_⟩
        · rw [hreceived, List.append_assoc]
        · rw [List.flatten_cons, hflatten, List.append_assoc]

theorem oneShot_nil (fellOff : Option HttpCode) (c : HttpConn) :
    oneShot fellOff c [] = (c.init, .code .noRequest) := by
  rw [oneShot, recvBytes_nil]
  apply readRequest_done
  rw [pass_of_scanning fellOff (init_scanning c).notContent]
  rfl

/-- A stream as a whole: either no call decides, or one call decides on a
start of it. -/
theorem feed_cases (fs : List Byte → FsAnswer) {c after : HttpConn} {s : List Byte}
    {chunks : List (List Byte)} (h : Resumes fellOff c s after)
    (hlast : oneShot fellOff c s = (after, .code .noRequest))
    (hfit : (s ++ chunks.flatten).length ≤ READ_BUFFER_SIZE) :
    (∃ last, feed fs fellOff after chunks = (.noRequest, last, []) ∧
      oneShot fellOff c (s ++ chunks.flatten) = (last, .code .noRequest)) ∨
    (∃ start rest, s ++ chunks.flatten = start ++ rest ∧
      (oneShot fellOff c start).2 ≠ .code .noRequest ∧
      feed fs fellOff after chunks = answerRequest fs (oneShot fellOff c start)) := by
  induction chunks generalizing after s with
  | nil =>
      rw [List.flatten_nil, List.append_nil]
      exact Or.inl ⟨after, rfl, hlast⟩
  | cons chunk chunks ih =>
      rw [List.flatten_cons, ← List.append_assoc] at hfit ⊢
      have hfit' : (s ++ chunk).length ≤ READ_BUFFER_SIZE := by
        rw [List.length_append] at hfit
        omega
      have hcode := processRead_noRequest_iff fs fellOff (recvBytes chunk after)
      have hprocess : (recvBytes chunk after).processRead fs fellOff =
          answerRequest fs (oneShot fellOff c (s ++ chunk)) := by
        rw [processRead, h.resume chunk hfit']
      rw [h.resume chunk hfit', hprocess] at hcode
      rw [feed, hprocess]
      by_cases hmore : (oneShot fellOff c (s ++ chunk)).2 = .code .noRequest
      · have hshot : oneShot fellOff c (s ++ chunk) =
            ((oneShot fellOff c (s ++ chunk)).1, .code .noRequest) := Prod.ext rfl hmore
        have hanswer : answerRequest fs (oneShot fellOff c (s ++ chunk)) =
            (.noRequest, (oneShot fellOff c (s ++ chunk)).1, []) := by
          rw [hshot]
          rfl
        simp only [hanswer, ↓reduceIte]
        exact ih (h.step hfit' hmore) hshot hfit
      · refine Or.inr ⟨s ++ chunk, chunks.flatten, rfl, hmore, ?_⟩
        have hne := mt hcode.mp hmore
        generalize answerRequest fs (oneShot fellOff c (s ++ chunk)) = out at hne ⊢
        obtain ⟨code, conn, sys⟩ := out
        exact if_neg hne

end HttpConn

/-- A line of `s` starts at `k`. -/
def StartsLine (s : List Byte) (k : Nat) : Prop :=
  k = 0 ∨ 2 ≤ k ∧ (s.drop (k - 2)).take 2 = [CR, LF]

instance (s : List Byte) (k : Nat) : Decidable (StartsLine s k) :=
  inferInstanceAs (Decidable (k = 0 ∨ 2 ≤ k ∧ (s.drop (k - 2)).take 2 = [CR, LF]))

/-- No line of `s` begins with `Content-Length:`, in whatever case. -/
def NoContentLength (s : List Byte) : Prop :=
  ∀ k ≤ s.length, StartsLine s k →
    strncaseEq (s.drop k) (ascii "Content-Length:") 15 = false

instance (s : List Byte) : Decidable (NoContentLength s) :=
  inferInstanceAs (Decidable (∀ k ≤ s.length, StartsLine s k →
    strncaseEq (s.drop k) (ascii "Content-Length:") 15 = false))

/-- A match of a whole name does not depend on what follows. -/
theorem strncaseEq_append {s name : List Byte} {k : Nat} (hname : name.length = k)
    (h : strncaseEq s name k = true) (rest : List Byte) :
    strncaseEq (s ++ rest) name k = true := by
  have hlen := length_of_strncaseEq hname h
  rw [strncaseEq, List.take_append_of_le_length hlen]
  exact h

theorem NoContentLength.of_append {s rest : List Byte} (h : NoContentLength (s ++ rest)) :
    NoContentLength s := by
  intro k hk hstart
  by_contra hmatch
  rw [Bool.not_eq_false] at hmatch
  have hwhole := strncaseEq_append (by decide) hmatch rest
  rw [← List.drop_append_of_le_length hk] at hwhole
  have hstart' : StartsLine (s ++ rest) k := by
    rcases hstart with hzero | ⟨htwo, htake⟩
    · exact Or.inl hzero
    · refine Or.inr ⟨htwo, ?_⟩
      rw [List.drop_append_of_le_length (by omega), List.take_append_of_le_length, htake]
      rw [List.length_drop]
      omega
  have := h k (by rw [List.length_append]; omega) hstart'
  rw [hwhole] at this
  cases this

theorem startsLine_joinLines (lines : List (List Byte)) (rest : List Byte) :
    StartsLine (joinLines lines ++ rest) (joinLines lines).length := by
  rcases List.eq_nil_or_concat' lines with rfl | ⟨lines, line, rfl⟩
  · exact Or.inl rfl
  · refine Or.inr ⟨by simp; omega, ?_⟩
    have hsplit : joinLines (lines ++ [line]) ++ rest =
        (joinLines lines ++ line) ++ ([CR, LF] ++ rest) := by simp
    have hlen : (joinLines (lines ++ [line])).length - 2 =
        (joinLines lines ++ line).length := by
      simp [← Nat.add_assoc]
    rw [hsplit, hlen, List.drop_left]
    rfl

/-- Header lines without `Content-Length:` announce no body. -/
theorem fieldsOf_no_length {headers : List (List Byte)}
    (h : ∀ line ∈ headers, strncaseEq (cText line) (ascii "Content-Length:") 15 = false) :
    (fieldsOf headers).contenLength = 0 := by
  induction headers using List.reverseRecOn with
  | nil => rfl
  | append_singleton headers line ih =>
      rw [List.forall_mem_append, List.forall_mem_singleton] at h
      rw [fieldsOf_append, HeaderFields.add, h.2]
      split
      · split
        · exact ih h.1
        · exact ih h.1
      · simp only [Bool.false_eq_true, ↓reduceIte]
        split
        · exact ih h.1
        · exact ih h.1

theorem NoContentLength.fieldsOf {request blank : List Byte} {headers : List (List Byte)}
    {body : List Byte} (h : NoContentLength (headBytes request headers blank ++ body)) :
    (fieldsOf headers).contenLength = 0 := by
  apply fieldsOf_no_length
  intro line hmem
  by_contra hmatch
  rw [Bool.not_eq_false] at hmatch
  obtain ⟨before, after, rfl⟩ := List.append_of_mem hmem
  have hsplit : headBytes request (before ++ line :: after) blank ++ body =
      joinLines (request :: before) ++
        (line ++ CR :: LF :: (joinLines (after ++ [blank]) ++ body)) := by
    simp [headBytes]
  have hline : strncaseEq line (ascii "Content-Length:") 15 = true := by
    have hcut : line = cText line ++ line.dropWhile (· != 0) :=
      List.takeWhile_append_dropWhile.symm
    rw [hcut]
    exact strncaseEq_append (by decide) hmatch _
  rw [hsplit] at h
  have := h (joinLines (request :: before)).length (by simp) (startsLine_joinLines _ _)
  rw [List.drop_left, strncaseEq_append (by decide) hline] at this
  cases this

/-- What can be seen of an outcome: the code, the system calls, the state of
the parser, and the strings it points to. -/
structure Observation where
  code : HttpCode
  sys : List SysCall
  checkState : CheckState
  checkedIdx : Nat
  startLine : Nat
  linger : Bool
  url : Option (List Byte)
  version : Option (List Byte)
  host : Option (List Byte)

def observe : HttpCode × HttpConn × List SysCall → Observation
  | (code, c, sys) =>
      { code, sys
        checkState := c.checkState
        checkedIdx := c.checkedIdx
        startLine := c.startLine
        linger := c.linger
        url := c.url.map c.strAt
        version := c.version.map c.strAt
        host := c.host.map c.strAt }

/-- Two outcomes look the same, and are the same as long as nothing has been
decided. -/
def SameOutcome (first second : HttpCode × HttpConn × List SysCall) : Prop :=
  observe first = observe second ∧ (first.1 = .noRequest → first = second)

namespace HttpConn

/-- Without a body to wait for, the parser stops between two lines. -/
theorem oneShot_scanning (fellOff : Option HttpCode) (c : HttpConn) {s : List Byte}
    (hno : NoContentLength s) (hfit : s.length ≤ READ_BUFFER_SIZE) :
    (oneShot fellOff c s).1.Scanning := by
  rcases head_cases s with ⟨lines, rest, hstart, hopen, rfl⟩ | ⟨line, rest, hline, hnone, rfl⟩ |
    ⟨request, headers, blank, body, hhead, rfl⟩
  · obtain ⟨mid, stop, hread, -⟩ := readRequest_start fellOff c hstart hopen hfit
    have hscan := (init_tracks c hfit).consumed.scanning
    have hmore : (readRequest fellOff (recvBytes (joinLines lines ++ rest) c.init)).2 =
        .code .noRequest := by rw [hread]
    exact (hscan.readRequest_resume hmore).1
  · obtain ⟨after, hread, hconsumed⟩ := readRequest_bad fellOff c hline hnone hfit
    rw [oneShot, hread]
    exact hconsumed.scanning
  · obtain ⟨mid, htracks, -, hread⟩ := readRequest_head fellOff c hhead hfit
    rw [if_pos hno.fieldsOf] at hread
    rw [oneShot, hread]
    exact htracks.consumed.scanning

/-- Bytes behind a decided request do not change what is seen of it. -/
theorem observe_recv {c : HttpConn} (h : c.Scanning) (code : HttpCode)
    (sys : List SysCall) (more : List Byte) :
    observe (code, recvBytes more c, sys) = observe (code, c, sys) := by
  have htext : ∀ {pointer : Option Nat}, c.PointerClosed pointer →
      pointer.map (recvBytes more c).strAt = pointer.map c.strAt := by
    intro pointer hclosed
    cases pointer with
    | none => rfl
    | some p =>
        obtain ⟨e, hp⟩ := hclosed p rfl
        simp only [Option.map_some, strAt_recv more hp]
  have hurl := htext h.url
  have hversion := htext h.version
  have hhost := htext h.host
  simp only [observe, Observation.mk.injEq]
  exact ⟨trivial, trivial, rfl, rfl, rfl, rfl, hurl, hversion, hhost⟩

theorem Scanning.doRequest {c : HttpConn} (h : c.Scanning) (fs : List Byte → FsAnswer) :
    (c.doRequest fs).2.1.Scanning := by
  rw [doRequest_shape]
  exact ⟨h.notContent, h.start_le, h.checked_le, h.fits, h.notAfterCr,
    h.url.mono rfl fun _ hi => hi, h.version.mono rfl fun _ hi => hi,
    h.host.mono rfl fun _ hi => hi⟩

/-- Neither do they change what is answered. -/
theorem observe_answer {c : HttpConn} (h : c.Scanning) (result : ReadResult)
    (fs : List Byte → FsAnswer) (more : List Byte) :
    observe (answerRequest fs (recvBytes more c, result)) =
      observe (answerRequest fs (c, result)) := by
  cases result with
  | code ret => exact observe_recv h ret [] more
  | doRequest =>
      have hrecv := doRequest_recv fs more h.url
      have hscan := h.doRequest fs
      generalize hout : c.doRequest fs = out at hrecv hscan
      obtain ⟨code, after, sys⟩ := out
      rw [answerRequest, answerRequest, hrecv, hout]
      exact observe_recv hscan code sys more

/-- A stream that is decided somewhere is answered as if it had arrived at
once. -/
theorem feed_decided (fs : List Byte → FsAnswer) (fellOff : Option HttpCode) (c : HttpConn)
    {start rest : List Byte} (hno : NoContentLength (start ++ rest))
    (hfit : (start ++ rest).length ≤ READ_BUFFER_SIZE)
    (hdecided : (oneShot fellOff c start).2 ≠ .code .noRequest) :
    (oneShot fellOff c (start ++ rest)).2 = (oneShot fellOff c start).2 ∧
      observe (answerRequest fs (oneShot fellOff c (start ++ rest))) =
        observe (answerRequest fs (oneShot fellOff c start)) := by
  rw [List.length_append] at hfit
  have hscan := oneShot_scanning fellOff c hno.of_append (by omega)
  have hinit := (init_tracks c (s := start) (by omega)).consumed.scanning
  have hstart : c.init.readIdx + start.length ≤ READ_BUFFER_SIZE := by
    simp only [init]
    omega
  have hroom : (recvBytes start c.init).readIdx + rest.length ≤ READ_BUFFER_SIZE := by
    simp only [recvBytes_readIdx, init]
    omega
  have hrecv := hinit.readRequest_recv hdecided hscan.notContent hroom
  rw [recvBytes_append hstart] at hrecv
  have hwhole : oneShot fellOff c (start ++ rest) =
      (recvBytes rest (oneShot fellOff c start).1, (oneShot fellOff c start).2) := hrecv
  rw [hwhole]
  exact ⟨rfl, observe_answer hscan _ fs rest⟩

/-- Parsing does not depend on how the stream is cut. -/
theorem feed_cut (fs : List Byte → FsAnswer) (fellOff : Option HttpCode) (c : HttpConn)
    {s : List Byte} (hfit : s.length < READ_BUFFER_SIZE) (hno : NoContentLength s)
    {chunks₁ chunks₂ : List (List Byte)} (hcut₁ : chunks₁.flatten = s)
    (hcut₂ : chunks₂.flatten = s) :
    SameOutcome (feed fs fellOff c.init chunks₁) (feed fs fellOff c.init chunks₂) := by
  have hcases : ∀ chunks : List (List Byte), chunks.flatten = s →
      (∃ last, feed fs fellOff c.init chunks = (.noRequest, last, []) ∧
        oneShot fellOff c s = (last, .code .noRequest)) ∨
      (oneShot fellOff c s).2 ≠ .code .noRequest ∧
        (feed fs fellOff c.init chunks).1 ≠ .noRequest ∧
        observe (feed fs fellOff c.init chunks) =
          observe (answerRequest fs (oneShot fellOff c s)) := by
    intro chunks hcut
    have hroom : ([] ++ chunks.flatten).length ≤ READ_BUFFER_SIZE := by
      rw [List.nil_append, hcut]
      exact Nat.le_of_lt hfit
    have hfeed := feed_cases fs (init_resumes fellOff c) (oneShot_nil fellOff c) hroom
    rw [List.nil_append, hcut] at hfeed
    rcases hfeed with hopen | ⟨start, rest, rfl, hdecided, hfeed⟩
    · exact Or.inl hopen
    · obtain ⟨hresult, hobserve⟩ :=
        feed_decided fs fellOff c hno (Nat.le_of_lt hfit) hdecided
      refine Or.inr ⟨hresult ▸ hdecided, ?_, ?_⟩
      · rw [hfeed]
        exact mt (processRead_noRequest_iff fs fellOff (recvBytes start c.init)).mp hdecided
      · rw [hfeed, hobserve]
  rcases hcases chunks₁ hcut₁ with ⟨last₁, hfeed₁, hshot₁⟩ | ⟨hdecided₁, hcode₁, hobserve₁⟩
  · rcases hcases chunks₂ hcut₂ with ⟨last₂, hfeed₂, hshot₂⟩ | ⟨hdecided₂, -, -⟩
    · have hlast : last₁ = last₂ := congrArg Prod.fst (hshot₁.symm.trans hshot₂)
      have hsame : feed fs fellOff c.init chunks₁ = feed fs fellOff c.init chunks₂ := by
        rw [hfeed₁, hfeed₂, hlast]
      exact ⟨congrArg observe hsame, fun _ => hsame⟩
    · rw [hshot₁] at hdecided₂
      exact absurd rfl hdecided₂
  · rcases hcases chunks₂ hcut₂ with ⟨last₂, -, hshot₂⟩ | ⟨-, -, hobserve₂⟩
    · rw [hshot₂] at hdecided₁
      exact absurd rfl hdecided₁
    · exact ⟨hobserve₁.trans hobserve₂.symm, fun hcode => absurd hcode hcode₁⟩

/-- A request that arrives in one piece, and cut between CR and LF. -/
theorem feed_cut_crlf :
    SameOutcome
      (feed (fun _ => ⟨none, false, none⟩) none idle.init
        [ascii "GET / HTTP/1.1\r\nHost: a\r\n\r\n"])
      (feed (fun _ => ⟨none, false, none⟩) none idle.init
        [ascii "GET / HTTP/1.1\r", ascii "\nHost: a\r\n\r\n"]) :=
  feed_cut _ none idle (by decide) (by decide) (List.append_nil _) (by decide)

end HttpConn

end LinuxLearning.Webserver
