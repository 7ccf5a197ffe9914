/-
No request is left without an answer.  A worker looks at every slot that has
received something before the slot is armed again, so one that is armed for
reading has received no whole request; and when the server has come to rest,
every live connection is armed.
-/
import LinuxLearning.Webserver.Body
import LinuxLearning.Webserver.Requests
import LinuxLearning.Webserver.Settling

namespace LinuxLearning.Webserver

universe u

open CString Lines TransitionSystem

/-- A request that is not at its end: no whole head has been received, and the
first line is not a wrong one either. -/
structure AwaitsMore (s : List Byte) : Prop where
  noHead : ∀ request headers blank body, IsHead request headers blank →
    s ≠ headBytes request headers blank ++ body
  noBad : ∀ line rest, IsLine line → (∀ target version, ¬ RequestLine (cText line) target version) →
    s ≠ line ++ CR :: LF :: rest

namespace HttpConn

variable {fellOff : Option HttpCode} {c : HttpConn} {s : List Byte}

/-- A call on a whole head decides. -/
theorem oneShot_head_ne {request blank : List Byte} {headers : List (List Byte)}
    {body : List Byte} (h : IsHead request headers blank)
    (hfit : (headBytes request headers blank ++ body).length ≤ READ_BUFFER_SIZE) :
    (oneShot fellOff c (headBytes request headers blank ++ body)).2 ≠ .code .noRequest := by
  by_cases hlength : (fieldsOf headers).contenLength = 0
  · obtain ⟨mid, -, -, hshot⟩ := readRequest_head fellOff c h hfit
    rw [oneShot, hshot, if_pos hlength]
    simp
  · obtain ⟨mid, -, -, hshot⟩ := readRequest_body fellOff c h hfit hlength
    rw [hshot]
    split
    · simp
    · dsimp only
      split <;> simp

/-- A call that asks for more has not seen a whole request. -/
theorem awaitsMore_of_oneShot (hfit : s.length ≤ READ_BUFFER_SIZE)
    (hmore : (oneShot fellOff c s).2 = .code .noRequest) : AwaitsMore s where
  noHead := by
    rintro request headers blank body hhead rfl
    exact oneShot_head_ne hhead hfit hmore
  noBad := by
    rintro line rest hline hbad rfl
    obtain ⟨after, hshot, -⟩ := readRequest_bad fellOff c hline hbad hfit
    rw [oneShot, hshot] at hmore
    cases hmore

end HttpConn

theorem awaitsMore_nil : AwaitsMore [] :=
  HttpConn.awaitsMore_of_oneShot (Nat.zero_le _)
    (congrArg Prod.snd (HttpConn.oneShot_nil none HttpConn.idle))

variable {ι : Type u}

/-- A live slot that is to be read and has not just been read has received no
whole request. -/
def Slot.Asks (a : Slot ι) (request : List Byte) : Prop :=
  a.conn.sockfd ≠ -1 → a.direction = some .epollin → ¬ a.phase.Received → AwaitsMore request

section Slots

variable {fd : Nat} {a b : Slot ι} {label : SlotLabel} {traffic : List Traffic}
  {request : List Byte}

/-- A slot that is not to be read. -/
theorem Slot.Asks.other (h : b.direction ≠ some .epollin) : b.Asks request :=
  fun _ hreads => absurd hreads h

/-- A step that is nothing to the client. -/
theorem Slot.Asks.silent (h : b.Asks (Traffic.request traffic)) :
    b.Asks (Traffic.request (traffic ++ [])) := by
  rw [List.append_nil]
  exact h

/-- The slot goes on as before. -/
theorem Slot.Asks.keep (h : a.Asks (Traffic.request traffic)) (hconn : b.conn = a.conn)
    (hreceived : ¬ a.phase.Received)
    (hkeeps : b.direction = some .epollin → a.direction = some .epollin) :
    b.Asks (Traffic.request (traffic ++ [])) := by
  refine Slot.Asks.silent fun hlive hreads _ => ?_
  rw [hconn] at hlive
  exact h hlive (hkeeps hreads) hreceived

/-- `process` has decided on every whole request. -/
theorem Requesting.asks_process (h : Requesting fd a traffic) {w : ι} {fs : List Byte → FsAnswer}
    {fellOff : Option HttpCode} {userCount : Int} (hphase : a.phase = .worker w .processing)
    (hb : b.phase = .worker w (.rearming (a.conn.process fs fellOff userCount).2.2))
    (hconn : b.conn = (a.conn.process fs fellOff userCount).1) :
    b.Asks (Traffic.request
      (traffic ++ HttpConn.queuedBy fd (a.conn.process fs fellOff userCount))) := by
  intro _ hreads _
  obtain ⟨hlive, hreading, hqueues⟩ := h.answering.process hphase hb hconn
  have hnone : ¬ (b.conn.sockfd ≠ -1 ∧ b.direction = some .epollout) := by
    rw [hreads]
    simp
  rw [hqueues, if_neg hnone, List.append_nil]
  obtain ⟨hmore, -⟩ := asks_of_process hb hconn hreads
  have hresumes := h.asking hlive hreading fellOff
  have hfits := hresumes.readIdx_eq ▸ hresumes.scanning.fits
  have hshot := hresumes.resume [] (by rw [List.append_nil]; exact hfits)
  rw [HttpConn.recvBytes_nil, List.append_nil] at hshot
  exact HttpConn.awaitsMore_of_oneShot hfits (hshot ▸ hmore)

/-- Every step leaves a slot that is armed for reading without a whole
request. -/
theorem SlotStep.asks (hstep : SlotStep fd a label b) (hrequesting : Requesting fd a traffic)
    (h : a.Asks (Traffic.request traffic)) :
    b.Asks (Traffic.request (traffic ++ a.traffic fd label)) := by
  have hcoherent := hrequesting.answering.emptied.coherent
  cases hstep with
  | accept | refuse | showError | allow | addfd | hangup => exact .other (by rintro ⟨⟩)
  | initialise hphase =>
      refine Slot.Asks.silent fun _ _ _ => ?_
      rw [hrequesting.fresh (Or.inr hphase)]
      exact awaitsMore_nil
  | @report kind ev hphase hentry hfits =>
      refine h.keep rfl (by rw [hphase]; exact id) fun hdirection => ?_
      rw [direction_reported hfits hdirection]
      simp [Slot.direction, hphase, hentry, armedFor]
  | startRead hphase =>
      refine h.keep rfl (by rw [hphase]; exact id) fun _ => ?_
      simp [Slot.direction, hphase]
  | startWrite => exact .other (by rintro ⟨⟩)
  | @read outcomes ok after hphase =>
      cases ok with
      | true => exact fun _ _ hreceived => absurd trivial hreceived
      | false => exact .other (by rintro ⟨⟩)
  | append | pop => exact fun _ _ hreceived => absurd trivial hreceived
  | drop hphase =>
      have hnone := hcoherent.armedFor_none (by rw [hphase]; exact id)
      refine .other fun hdirection => ?_
      cases hnone.symm.trans hdirection
  | @process w fs fellOff userCount hphase =>
      rw [Slot.traffic, HttpConn.queuedBy_userCount fd fs fellOff a.conn 0 userCount]
      exact hrequesting.asks_process hphase rfl rfl
  | rearm hphase =>
      obtain ⟨ev, hbefore, hafter⟩ := hcoherent.rearmed hphase
      refine h.keep rfl (by rw [hphase]; exact id) fun hdirection => ?_
      obtain ⟨-, hev⟩ := Option.ite_none_right_eq_some.mp (hafter.symm.trans hdirection)
      exact hbefore.trans hev
  | write hphase hwrite hbad =>
      intro hlive _ _
      have hopen : a.conn.sockfd ≠ -1 := by
        rwa [(HttpConn.write_sockfd hwrite).1] at hlive
      rw [Slot.traffic, Traffic.request_written,
        hrequesting.answered hopen (by simp [Slot.direction, hphase])]
      exact awaitsMore_nil
  | @wrote ret hphase =>
      cases ret with
      | true =>
          refine h.keep rfl (by rw [hphase]; exact id) fun hdirection => ?_
          rw [← hdirection]
          simp [Slot.direction, hphase]
      | false => exact .other (by rintro ⟨⟩)
  | close userCount hphase =>
      intro hlive
      rw [HttpConn.closeConn_fst] at hlive
      exact absurd rfl hlive

theorem slot_asks {slotHistory : List (Slot ι × SlotLabel)}
    (hrun : (slotSystem ι fd).Run slotHistory a) :
    a.Asks (Traffic.request (trace (Slot.traffic fd) slotHistory)) := by
  induction hrun with
  | start hstart =>
      refine .other fun hdirection => ?_
      rw [Slot.direction, SlotStarts.phase hstart] at hdirection
      cases hdirection
  | snoc hbefore hstep ih =>
      rw [trace_snoc]
      exact SlotStep.asks hstep (slot_requests hbefore) ih

end Slots

section Runs

variable [DecidableEq ι] {s : Server ι} {fd : Nat} {history : List (Server ι × Label ι)}

/-- While `main` waits for events, a live slot that is armed for reading has
received no whole request. -/
theorem awaitsMore_of_armed (hrun : (unhit ι).Run history s) (hmain : s.main = .waiting)
    (hlive : (s.users fd).sockfd ≠ -1) (harmed : s.epoll fd = some (.armed .epollin)) :
    AwaitsMore (Traffic.request (trace (Server.traffic fd) history)) := by
  obtain ⟨phase, hphased, hslots⟩ := run_traffic hrun
  obtain ⟨slotHistory, hslotRun, htrace⟩ := hslots fd
  have hcoherent := (slot_requests hslotRun).answering.emptied.coherent
  have hidle := hphased.idle_of_armed hmain hcoherent harmed
  rw [htrace]
  refine slot_asks hslotRun hlive (hphased.direction_of_armed hmain hcoherent harmed) ?_
  rw [Server.slot, hidle]
  exact id

/-- One that is armed for writing holds a response, and has received nothing
since that was queued. -/
theorem responds_of_armed (hrun : (unhit ι).Run history s) (hmain : s.main = .waiting)
    (hlive : (s.users fd).sockfd ≠ -1) (harmed : s.epoll fd = some (.armed .epollout)) :
    Traffic.request (trace (Server.traffic fd) history) = [] ∧
      ∃ ret mid, (s.users fd).Responds ret mid := by
  obtain ⟨phase, hphased, hslots⟩ := run_traffic hrun
  obtain ⟨slotHistory, hslotRun, htrace⟩ := hslots fd
  have hrequesting := slot_requests hslotRun
  have hwrites := hphased.direction_of_armed hmain hrequesting.answering.emptied.coherent harmed
  rw [htrace]
  exact ⟨hrequesting.answered hlive hwrites,
    (hrequesting.answering.responds hwrites).resolve_left hlive⟩

/-- In a run whose stores lie inside, when the server has come to rest, unless
`append` has failed, every live connection either has sent no whole request
since its last response, and is armed for the rest of it; or a response to its
last request is queued, and it is armed for writing that. -/
theorem requests_answered (hrun : (server ι).Run history s)
    (hinside : ∀ entry ∈ history, StoresInside entry.1 entry.2) :
    (s.main = .waiting → ∀ fd, (s.users fd).sockfd ≠ -1 →
      s.epoll fd = some (.armed .epollin) →
        AwaitsMore (Traffic.request (trace (Server.traffic fd) history))) ∧
    (s.AtRest →
      (∀ entry ∈ history, entry.2 = .append → entry.1.queue.length ≤ MAX_REQUESTS) →
        ∀ fd, Initialised history fd → (s.users fd).sockfd ≠ -1 →
          (s.epoll fd = some (.armed .epollin) ∧
            AwaitsMore (Traffic.request (trace (Server.traffic fd) history))) ∨
          (s.epoll fd = some (.armed .epollout) ∧
            Traffic.request (trace (Server.traffic fd) history) = [] ∧
            ∃ ret mid, (s.users fd).Responds ret mid)) := by
  replace hrun := run_unhit hrun hinside
  refine ⟨fun hmain fd => awaitsMore_of_armed hrun hmain, ?_⟩
  intro hrest happend fd hinit hlive
  obtain ⟨ev, harmed⟩ := armed_of_atRest hrun hrest happend hinit hlive
  cases ev with
  | epollin => exact Or.inl ⟨harmed, awaitsMore_of_armed hrun hrest.main hlive harmed⟩
  | epollout => exact Or.inr ⟨harmed, responds_of_armed hrun hrest.main hlive harmed⟩

end Runs

/-- The request for something that does not exist has been answered. -/
theorem requests_answered_missing :
    ∃ history, ∃ s : Server (Fin 8), (server (Fin 8)).Run history s ∧ s.AtRest ∧
      s.epoll (clientFd 0) = some (.armed .epollout) ∧
      ∃ ret mid, (s.users (clientFd 0)).Responds ret mid := by
  obtain ⟨history, s, h⟩ := exists_askedMissing
  have hrest : s.AtRest := ⟨h.main, h.workers, h.tasks, h.queue⟩
  rcases (requests_answered h.run h.inside).2 hrest h.room _ h.initialised h.live with
    ⟨hreads, -⟩ | ⟨-, -, hresponds⟩
  · have harmed := h.armed
    rw [hreads] at harmed
    cases harmed
  · exact ⟨history, s, h.run, hrest, h.armed, hresponds⟩

end LinuxLearning.Webserver
