/-
What a request of the server is made of.  Main reads from a connection in
pieces, and some worker looks at the slot after each of them; but every call
of `process` does what it would do in a slot that has just been reset and has
received at once all that the client has sent since its last response.
-/
import LinuxLearning.Webserver.Delivery
import LinuxLearning.Webserver.Indices

namespace LinuxLearning.Webserver

universe u

open CString Lines Resend TransitionSystem

/-- What the client has sent since its last response. -/
def Traffic.request (traffic : List Traffic) : List Byte :=
  traffic.foldl (fun request t => match t with
    | .received data => request ++ data
    | .queued _ => []
    | .written _ _ => request) []

namespace Traffic

variable {traffic : List Traffic}

theorem request_received {data : List Byte} :
    request (traffic ++ [.received data]) = request traffic ++ data := by
  simp [request]

theorem request_queued {conn : HttpConn} : request (traffic ++ [.queued conn]) = [] := by
  simp [request]

theorem request_written {conn : HttpConn} {outcomes : List WritevOutcome} :
    request (traffic ++ [.written conn outcomes]) = request traffic := by
  simp [request]

end Traffic

namespace HttpConn

variable {fellOff fellOff' : Option HttpCode} {c after : HttpConn} {s : List Byte}

/-- `init` forgets all that the parser has to do with. -/
theorem init_of_output {d : HttpConn} (h : c.output = d.output) : c.init = d.init := by
  obtain ⟨hsockfd, -, -, -, -, haddress, hstat, hiv0, hiv1, hivCount⟩ := Output.mk.inj h
  unfold init
  rw [hsockfd, haddress, hstat, hiv0, hiv1, hivCount]

/-- Only a body shows what the caller of `parse_content` finds where that runs
off its end. -/
theorem handleLine_fellOff (hcontent : c.checkState ≠ .content) :
    handleLine fellOff c = handleLine fellOff' c := by
  cases hstate : c.checkState with
  | requestLine => rw [handleLine_requestLine hstate, handleLine_requestLine hstate]
  | header => rw [handleLine_header hstate, handleLine_header hstate]
  | content => exact absurd hstate hcontent

theorem pass_fellOff (hcontent : c.checkState ≠ .content) : pass fellOff c = pass fellOff' c := by
  rw [pass_of_scanning fellOff hcontent, pass_of_scanning fellOff' hcontent]
  have hstate : (parseLine c).2.checkState = c.checkState := parseLineLoop_checkState _ c
  cases hline : parseLine c with
  | mk status mid =>
      rw [hline] at hstate
      cases status with
      | lineOk => exact handleLine_fellOff (hstate.trans_ne hcontent)
      | lineBad | lineOpen => rfl

/-- It does not matter while more bytes are asked for. -/
theorem readRequest_fellOff (hcontent : c.checkState ≠ .content)
    (hmore : (readRequest fellOff c).2 = .code .noRequest) :
    readRequest fellOff' c = readRequest fellOff c := by
  induction c using readRequest_induction fellOff with
  | hturn c ih =>
      have hsame : pass fellOff' c = pass fellOff c := pass_fellOff hcontent
      cases hpass : pass fellOff c with
      | again after =>
          rw [readRequest_again hpass] at hmore ⊢
          rw [readRequest_again (hsame.trans hpass)]
          exact ih after hpass (fun hstate => (readRequest_content hstate).1 hmore) hmore
      | done after result =>
          rw [readRequest_done hpass, readRequest_done (hsame.trans hpass)]

theorem Resumes.congr {d : HttpConn} (h : Resumes fellOff c s after) (hinit : d.init = c.init) :
    Resumes fellOff d s after := by
  refine ⟨h.scanning, h.readIdx_eq, fun more hfit => ?_⟩
  rw [h.resume more hfit, oneShot, oneShot, hinit]

/-- Bytes that arrive before the next call. -/
theorem Resumes.recv (h : Resumes fellOff c s after) {data : List Byte}
    (hfit : (s ++ data).length ≤ READ_BUFFER_SIZE) :
    Resumes fellOff c (s ++ data) (recvBytes data after) := by
  have hidx : after.readIdx + data.length = (s ++ data).length := by
    rw [h.readIdx_eq, List.length_append]
  refine ⟨h.scanning.recv (by omega), hidx, fun more hfit' => ?_⟩
  rw [recvBytes_append (by omega)]
  rw [List.append_assoc] at hfit' ⊢
  exact h.resume (data ++ more) hfit'

/-- A call that asks for more leaves a slot that can go on. -/
theorem Resumes.next (h : ∀ fellOff, Resumes fellOff c s c)
    (hmore : (readRequest fellOff c).2 = .code .noRequest) (fellOff' : Option HttpCode) :
    Resumes fellOff' (readRequest fellOff c).1 s (readRequest fellOff c).1 := by
  have hfits : (s ++ []).length ≤ READ_BUFFER_SIZE := by
    rw [List.append_nil, ← (h fellOff).readIdx_eq]
    exact (h fellOff).scanning.fits
  have hsame : readRequest fellOff' c = readRequest fellOff c :=
    readRequest_fellOff (h fellOff).scanning.notContent hmore
  have hshot : oneShot fellOff' c (s ++ []) = readRequest fellOff c := by
    rw [← (h fellOff').resume [] hfits, recvBytes_nil, hsame]
  have hstep := (h fellOff').step hfits (hshot ▸ hmore)
  rw [hshot, List.append_nil] at hstep
  exact hstep.congr (init_of_output (readRequest_output fellOff c))

end HttpConn

variable {ι : Type u}

/-- While a live slot is to be read, it can go on with what the client has sent
since its last response; while it is to be written, the client has sent
nothing. -/
structure Requesting (fd : Nat) (a : Slot ι) (traffic : List Traffic) : Prop where
  answering : Answering fd a
  fresh : a.phase.Outside ∨ a.phase = .main .adding → Traffic.request traffic = []
  asking : a.conn.sockfd ≠ -1 → a.direction = some .epollin →
    ∀ fellOff, HttpConn.Resumes fellOff a.conn (Traffic.request traffic) a.conn
  answered : a.conn.sockfd ≠ -1 → a.direction = some .epollout → Traffic.request traffic = []

section Slots

variable {fd : Nat} {a b : Slot ι} {label : SlotLabel} {traffic : List Traffic}

theorem SlotStarts.requesting (h : SlotStarts fd a) : Requesting fd a [] where
  answering := SlotStarts.answering h
  fresh := fun _ => rfl
  asking := by
    intro _ hreads
    rw [Slot.direction, h.phase] at hreads
    cases hreads
  answered := fun _ _ => rfl

/-- A step that is nothing to the client. -/
theorem Requesting.silent (h : Requesting fd b traffic) : Requesting fd b (traffic ++ []) := by
  rw [List.append_nil]
  exact h

/-- Up to `addfd` nothing is read. -/
theorem Requesting.outside (h : Requesting fd a traffic) (hanswering : Answering fd b)
    (hphase : a.phase.Outside) (hdirection : b.direction = none) : Requesting fd b traffic where
  answering := hanswering
  fresh := fun _ => h.fresh (Or.inl hphase)
  asking := by
    intro _ hreads
    rw [hdirection] at hreads
    cases hreads
  answered := fun _ _ => h.fresh (Or.inl hphase)

/-- The slot stays as it is, and is to be read or written as before, or not at
all. -/
theorem Requesting.keep (h : Requesting fd a traffic) (hanswering : Answering fd b)
    (hinside : ¬ b.phase.Outside ∧ b.phase ≠ .main .adding) (hconn : b.conn = a.conn)
    (hkeeps : ∀ ev, b.direction = some ev → a.direction = some ev) : Requesting fd b traffic where
  answering := hanswering
  fresh := fun hphase => absurd hphase (not_or.mpr hinside)
  asking := by
    intro hlive hreads
    rw [hconn] at hlive ⊢
    exact h.asking hlive (hkeeps _ hreads)
  answered := by
    intro hlive hwrites
    rw [hconn] at hlive
    exact h.answered hlive (hkeeps _ hwrites)

/-- A closed slot is not asked. -/
theorem Requesting.closed (hanswering : Answering fd b)
    (hinside : ¬ b.phase.Outside ∧ b.phase ≠ .main .adding) (hclosed : b.conn.sockfd = -1) :
    Requesting fd b traffic where
  answering := hanswering
  fresh := fun hphase => absurd hphase (not_or.mpr hinside)
  asking := fun hlive => absurd hclosed hlive
  answered := fun hlive => absurd hclosed hlive

/-- `read` adds what it receives. -/
theorem Requesting.read (h : Requesting fd a traffic) {outcomes : List RecvOutcome} {ok : Bool}
    {after : HttpConn} (hphase : a.phase = .main .reading)
    (hread : a.conn.read outcomes = some (ok, after)) (hanswering : Answering fd b)
    (hb : b.phase = .main (if ok then .appending else .closing)) (hconn : b.conn = after) :
    Requesting fd b (traffic ++ [.received (dataOf outcomes)]) := by
  have hreading : a.direction = some .epollin := by simp [Slot.direction, hphase]
  have hdirection : b.direction = if ok then some .epollin else none := by
    rw [Slot.direction, hb]
    cases ok <;> rfl
  have hdata : after = HttpConn.recvBytes (dataOf outcomes) a.conn := HttpConn.read_data hread
  refine ⟨hanswering, fun hfresh => ?_, fun hlive hreads fellOff => ?_, fun _ hwrites => ?_⟩
  · rw [hb] at hfresh
    cases ok <;> exact absurd hfresh (not_or.mpr ⟨id, by rintro ⟨⟩⟩)
  · have hopen : a.conn.sockfd ≠ -1 := by
      rw [hconn, hdata] at hlive
      exact hlive
    have hresumes := h.asking hopen hreading fellOff
    have hfits := HttpConn.read_fits hresumes.scanning.fits hread
    rw [hdata, HttpConn.recvBytes_readIdx, hresumes.readIdx_eq, ← List.length_append] at hfits
    rw [Traffic.request_received, hconn, hdata]
    exact (hresumes.recv hfits).congr rfl
  · rw [hdirection] at hwrites
    cases ok <;> cases hwrites

/-- Where `process` arms for reading, it asks for more. -/
theorem asks_of_process {w : ι} {fs : List Byte → FsAnswer} {fellOff : Option HttpCode}
    {userCount : Int}
    (hb : b.phase = .worker w (.rearming (a.conn.process fs fellOff userCount).2.2))
    (hconn : b.conn = (a.conn.process fs fellOff userCount).1)
    (hreads : b.direction = some .epollin) :
    (a.conn.readRequest fellOff).2 = .code .noRequest ∧
      b.conn = (a.conn.readRequest fellOff).1 := by
  cases hread : a.conn.processRead fs fellOff with
  | mk code rest =>
      obtain ⟨mid, sys⟩ := rest
      rw [Slot.direction, hb] at hreads
      rcases HttpConn.process_cases hread userCount with
        ⟨rfl, heq⟩ | ⟨-, -, heq⟩ | ⟨-, -, -, heq⟩
      · have hmore : (a.conn.readRequest fellOff).2 = .code .noRequest :=
          (HttpConn.processRead_noRequest_iff fs fellOff a.conn).mp (congrArg Prod.fst hread)
        have hmid : mid = (a.conn.readRequest fellOff).1 := by
          rw [HttpConn.processRead, ← Prod.mk.eta (p := a.conn.readRequest fellOff),
            hmore] at hread
          exact (congrArg (fun out => out.2.1) hread).symm
        rw [hconn, heq, hmid]
        exact ⟨hmore, rfl⟩
      · rw [heq] at hreads
        simp at hreads
      · rw [heq] at hreads
        simp at hreads

/-- `process` asks for more, or ends the request with a response. -/
theorem Requesting.process (h : Requesting fd a traffic) {w : ι} {fs : List Byte → FsAnswer}
    {fellOff : Option HttpCode} {userCount : Int} (hphase : a.phase = .worker w .processing)
    (hanswering : Answering fd b)
    (hb : b.phase = .worker w (.rearming (a.conn.process fs fellOff userCount).2.2))
    (hconn : b.conn = (a.conn.process fs fellOff userCount).1) :
    Requesting fd b (traffic ++ HttpConn.queuedBy fd (a.conn.process fs fellOff userCount)) := by
  obtain ⟨hlive, hreads, hqueues⟩ := h.answering.process hphase hb hconn
  have hresumes := h.asking hlive hreads
  have hfresh : ¬ (b.phase.Outside ∨ b.phase = .main .adding) := by
    rw [hb]
    exact not_or.mpr ⟨id, by rintro ⟨⟩⟩
  rw [hqueues]
  by_cases hqueued : b.conn.sockfd ≠ -1 ∧ b.direction = some .epollout
  · rw [if_pos hqueued]
    refine ⟨hanswering, fun hnew => absurd hnew hfresh, fun _ hreads => ?_,
      fun _ _ => Traffic.request_queued⟩
    rw [hqueued.2] at hreads
    cases hreads
  · rw [if_neg hqueued, List.append_nil]
    refine ⟨hanswering, fun hnew => absurd hnew hfresh, fun _ hreads => ?_,
      fun hopen hwrites => absurd ⟨hopen, hwrites⟩ hqueued⟩
    obtain ⟨hmore, hsame⟩ := asks_of_process hb hconn hreads
    rw [hsame]
    exact HttpConn.Resumes.next hresumes hmore

/-- `write` goes on with the response, or resets the slot, or ends the
connection. -/
theorem Requesting.write (h : Requesting fd a traffic) {outcomes : List WritevOutcome}
    {mem : Nat → Byte} {r : WriteResult} (hphase : a.phase = .main .writing)
    (hwrite : a.conn.write mem outcomes = some r) (hanswering : Answering fd b)
    (hb : b.phase = .main (.written r.ret)) (hconn : b.conn = r.conn)
    (hentry : b.entry = runEntry fd a.entry r.calls) :
    Requesting fd b (traffic ++ [.written a.conn outcomes]) := by
  have hwrites : a.direction = some .epollout := by simp [Slot.direction, hphase]
  have hinside : ¬ b.phase.Outside ∧ b.phase ≠ .main .adding := by
    rw [hb]
    exact ⟨id, by rintro ⟨⟩⟩
  by_cases hclosed : a.conn.sockfd = -1
  · refine Requesting.closed hanswering hinside ?_
    rw [hconn, (HttpConn.write_sockfd hwrite).1, hclosed]
  obtain ⟨ret, mid, hresponds⟩ := (h.answering.responds hwrites).resolve_left hclosed
  have hnone : Traffic.request (traffic ++ [.written a.conn outcomes]) = [] :=
    Traffic.request_written.trans (h.answered hclosed hwrites)
  refine ⟨hanswering, fun hfresh => absurd hfresh (not_or.mpr hinside), fun _ hreads => ?_,
    fun _ _ => hnone⟩
  rw [Slot.direction, hb, hentry] at hreads
  rw [hnone, hconn]
  rcases HttpConn.write_cases hwrite with ⟨hnothing, -⟩ | ⟨-, ⟨hret, -, hcalls⟩ |
    ⟨hret, -⟩ | ⟨-, hreset, -⟩ | ⟨hret, -⟩⟩
  · exact absurd hnothing hresponds.writeIdx_ne_zero
  · rw [hret, hcalls] at hreads
    have hagain := (h.answering.emptied.coherent.resumed hphase).symm.trans hreads
    cases (Option.ite_none_right_eq_some.mp hagain).2
  · rw [hret] at hreads
    cases hreads
  · rw [hreset]
    exact fun fellOff => HttpConn.init_resumes fellOff a.conn.unmap.1.init
  · rw [hret] at hreads
    cases hreads

/-- Every step keeps track of the request. -/
theorem SlotStep.requesting (hstep : SlotStep fd a label b) (h : Requesting fd a traffic) :
    Requesting fd b (traffic ++ a.traffic fd label) := by
  have hanswering := SlotStep.answering hstep h.answering
  have hcoherent := h.answering.emptied.coherent
  cases hstep with
  | accept hphase =>
      exact (h.outside hanswering (by rw [hphase]; trivial) rfl).silent
  | refuse hphase =>
      exact (h.outside hanswering (by rw [hphase]; trivial) rfl).silent
  | showError hphase =>
      exact (h.outside hanswering (by rw [hphase]; trivial) rfl).silent
  | allow hphase =>
      exact (h.outside hanswering (by rw [hphase]; trivial) rfl).silent
  | addfd hphase =>
      exact (h.outside hanswering (by rw [hphase]; trivial) rfl).silent
  | initialise hphase =>
      have hnone := h.fresh (Or.inr hphase)
      refine Requesting.silent ⟨hanswering, fun _ => hnone, fun _ _ fellOff => ?_,
        fun _ _ => hnone⟩
      rw [hnone]
      exact (HttpConn.init_resumes fellOff a.conn).congr rfl
  | @report kind ev hphase hentry hfits =>
      refine (h.keep hanswering ⟨id, by rintro ⟨⟩⟩ rfl fun other hdirection => ?_).silent
      rw [direction_reported hfits hdirection]
      simp [Slot.direction, hphase, hentry, armedFor]
  | hangup hphase => exact (h.keep hanswering ⟨id, by rintro ⟨⟩⟩ rfl (by rintro _ ⟨⟩)).silent
  | startRead hphase | startWrite hphase | append hphase | pop hphase =>
      refine (h.keep hanswering ⟨id, by rintro ⟨⟩⟩ rfl fun ev hdirection => ?_).silent
      rw [← hdirection]
      simp [Slot.direction, hphase]
  | read hphase hread hbad => exact h.read hphase hread hanswering rfl rfl
  | drop hphase =>
      have hnone := hcoherent.armedFor_none (by rw [hphase]; exact id)
      refine (h.keep hanswering ⟨id, by rintro ⟨⟩⟩ rfl fun ev hdirection => ?_).silent
      cases hnone.symm.trans hdirection
  | @process w fs fellOff userCount hphase =>
      rw [Slot.traffic, HttpConn.queuedBy_userCount fd fs fellOff a.conn 0 userCount]
      exact h.process hphase hanswering rfl rfl
  | rearm hphase =>
      obtain ⟨ev, hbefore, hafter⟩ := hcoherent.rearmed hphase
      refine (h.keep hanswering ⟨id, by rintro ⟨⟩⟩ rfl fun other hdirection => ?_).silent
      obtain ⟨-, hev⟩ := Option.ite_none_right_eq_some.mp (hafter.symm.trans hdirection)
      exact hbefore.trans hev
  | write hphase hwrite hbad => exact h.write hphase hwrite hanswering rfl rfl rfl
  | @wrote ret hphase =>
      cases ret with
      | true =>
          refine (h.keep hanswering ⟨id, by rintro ⟨⟩⟩ rfl fun ev hdirection => ?_).silent
          rw [← hdirection]
          simp [Slot.direction, hphase]
      | false => exact (h.keep hanswering ⟨id, by rintro ⟨⟩⟩ rfl (by rintro _ ⟨⟩)).silent
  | close userCount hphase =>
      refine (Requesting.closed hanswering ⟨id, by rintro ⟨⟩⟩ ?_).silent
      rw [HttpConn.closeConn_fst]
      rfl

theorem slot_requests {slotHistory : List (Slot ι × SlotLabel)}
    (hrun : (slotSystem ι fd).Run slotHistory a) :
    Requesting fd a (trace (Slot.traffic fd) slotHistory) := by
  induction hrun with
  | start hstart => exact SlotStarts.requesting hstart
  | snoc _ hstep ih =>
      rw [trace_snoc]
      exact SlotStep.requesting hstep ih

end Slots

section Runs

variable [DecidableEq ι] {s : Server ι} {fd : Nat} {history : List (Server ι × Label ι)}

/-- In a run whose stores lie inside, whatever the order of `main` and the
workers, and however the bytes arrive, a call of `process` does what it would
do in a slot that has just been reset and has received at once all that the
client has sent since its last response. -/
theorem requests_whole (hrun : (server ι).Run history s)
    (hinside : ∀ entry ∈ history, StoresInside entry.1 entry.2) :
    ∀ earlier before w fs fellOff later,
      history = earlier ++ (before, .process w fs fellOff) :: later →
      (before.workers w).at = some (fd, .processing) →
      (Traffic.request (trace (Server.traffic fd) earlier)).length ≤ READ_BUFFER_SIZE ∧
      (before.users fd).process fs fellOff before.userCount =
        (HttpConn.recvBytes (Traffic.request (trace (Server.traffic fd) earlier))
          (before.users fd).init).process fs fellOff before.userCount := by
  rintro earlier before w fs fellOff later rfl hat
  obtain ⟨hbefore, -, -⟩ := (run_unhit hrun hinside).split
  obtain ⟨phase, hphased, hslots⟩ := run_traffic hbefore
  obtain ⟨slotHistory, hslotRun, htrace⟩ := hslots fd
  have hrequesting := slot_requests hslotRun
  have hphase : (before.slot phase fd).phase = .worker w .processing :=
    ((hphased.located fd).worker w _).mp hat
  have hlive := hrequesting.answering.emptied.live (by rw [hphase]; trivial)
  have hresumes := hrequesting.asking hlive (by simp [Slot.direction, hphase]) fellOff
  rw [← htrace] at hresumes
  have hfits := hresumes.readIdx_eq ▸ hresumes.scanning.fits
  refine ⟨hfits, ?_⟩
  have hread := hresumes.resume [] (by rw [List.append_nil]; exact hfits)
  rw [HttpConn.recvBytes_nil, List.append_nil, Server.slot] at hread
  rw [HttpConn.process, HttpConn.process, HttpConn.processRead, HttpConn.processRead, hread,
    HttpConn.oneShot]

end Runs

/-- A client has sent something, and a worker looks at it. -/
theorem requests_whole_read :
    ∃ earlier, ∃ before : Server (Fin 8), (server (Fin 8)).Run earlier before ∧
      before.workers 0 = .processing (clientFd 0) ∧
      (before.users (clientFd 0)).process HttpConn.missing none before.userCount =
        (HttpConn.recvBytes
          (Traffic.request (trace (Server.traffic (clientFd 0)) earlier))
          (before.users (clientFd 0)).init).process HttpConn.missing none before.userCount := by
  obtain ⟨history, s, h⟩ := exists_processing (0 : Fin 8) (rootRequest ++ CR :: LF :: [CR, LF])
    (List.cons_ne_nil _ _) HttpConn.root_fits
  have hinside : StoresInside s (.process 0 HttpConn.missing none) := by
    intro fd hfd
    rw [h.worker, WorkerPc.slot, Option.some.injEq] at hfd
    rw [← hfd, h.conn]
    exact root_strayStores none
  have hanswer : ∀ answer ∈ (s.users (clientFd 0)).fileAnswer HttpConn.missing none,
      answer.opens = false := by
    simp [HttpConn.fileAnswer_missing]
  have hserve := (run_server h.run).snoc (Step.server (.process h.worker hanswer) hinside)
  have hall : ∀ entry ∈ history ++ [(s, .process 0 HttpConn.missing none)],
      StoresInside entry.1 entry.2 := by
    rw [List.forall_mem_append, List.forall_mem_singleton]
    exact ⟨fun entry hentry => (h.steps entry hentry).inside, hinside⟩
  refine ⟨_, _, run_server h.run, h.worker, ?_⟩
  exact (requests_whole hserve hall _ _ 0 _ _ [] rfl (by rw [h.worker]; rfl)).2

end LinuxLearning.Webserver
