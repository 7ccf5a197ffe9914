/-
The phases of a response.  `process_write` always starts with an empty write
buffer, and `write` always finds in a live slot the response that was made
there last, whole and with both iovecs set for it.
-/
import LinuxLearning.Webserver.Mappings

namespace LinuxLearning.Webserver

universe u

open CString Resend Function Lines

namespace HttpConn

variable {fs : List Byte → FsAnswer} {fellOff : Option HttpCode}

/-- The codes the loop of `process_read` returns. -/
theorem pass_code {c after : HttpConn} {ret : HttpCode}
    (hpass : pass fellOff c = .done after (.code ret)) :
    ret = .noRequest ∨ ret = .badRequest ∨ ret = .internalError := by
  have hhandle : ∀ {c after : HttpConn} {ret : HttpCode},
      handleLine fellOff c = .done after (.code ret) →
      ret = .badRequest ∨ ret = .internalError := by
    intro c after ret hline
    cases hstate : c.checkState with
    | requestLine =>
        rw [handleLine_requestLine hstate] at hline
        split at hline
        · cases hline
          exact Or.inl rfl
        · cases hline
    | header =>
        rw [handleLine_header hstate] at hline
        split at hline
        · cases hline
          exact Or.inl rfl
        · split at hline <;> cases hline
    | content =>
        rw [handleLine_content hstate] at hline
        split at hline
        · cases hline
        · cases hline
          exact Or.inr rfl
  unfold pass at hpass
  split at hpass
  · exact Or.inr (hhandle hpass)
  · cases hline : parseLine c with
    | mk status mid =>
        rw [hline] at hpass
        cases status with
        | lineOk => exact Or.inr (hhandle hpass)
        | lineBad =>
            cases hpass
            exact Or.inl rfl
        | lineOpen =>
            cases hpass
            exact Or.inl rfl

theorem readRequest_code {c : HttpConn} {ret : HttpCode}
    (hread : (readRequest fellOff c).2 = .code ret) :
    ret = .noRequest ∨ ret = .badRequest ∨ ret = .internalError := by
  induction c using readRequest_induction fellOff with
  | hturn c ih =>
      cases hpass : pass fellOff c with
      | again after =>
          rw [readRequest_again hpass] at hread
          exact ih after hpass hread
      | done after result =>
          rw [readRequest_done hpass] at hread
          cases hread
          exact pass_code hpass

theorem doRequest_code (fs : List Byte → FsAnswer) (c : HttpConn) :
    (c.doRequest fs).1 = .noResource ∨ (c.doRequest fs).1 = .forbiddenRequest ∨
      (c.doRequest fs).1 = .badRequest ∨ (c.doRequest fs).1 = .fileRequest := by
  unfold doRequest
  dsimp only
  split
  · exact Or.inl rfl
  · split
    · exact Or.inr (Or.inl rfl)
    · split
      · exact Or.inr (Or.inr (Or.inl rfl))
      · exact Or.inr (Or.inr (Or.inr rfl))

/-- `process_read` never returns the codes that the default branch of
`process_write` is for, but for NO_REQUEST. -/
theorem processRead_code (fs : List Byte → FsAnswer) (fellOff : Option HttpCode)
    (c : HttpConn) : (c.processRead fs fellOff).1 ≠ .getRequest ∧
      (c.processRead fs fellOff).1 ≠ .closedConnection := by
  cases hread : readRequest fellOff c with
  | mk mid result =>
      rw [processRead, hread]
      cases result with
      | code ret =>
          have hcode := readRequest_code (congrArg Prod.snd hread)
          rcases hcode with rfl | rfl | rfl <;> simp [answerRequest]
      | doRequest =>
          rw [answerRequest]
          rcases doRequest_code fs mid with h | h | h | h <;> rw [h] <;> simp

/-- The text of the response to what `process_read` has returned. -/
def responseText (c : HttpConn) : HttpCode → List Byte
  | .internalError => responsePage c.linger 500 error500Title error500Form
  | .noResource =>
      responsePage c.linger 400 error400Title error400Form ++
        responsePage c.linger 403 error403Title error403Form
  | .forbiddenRequest => responsePage c.linger 403 error403Title error403Form
  | .fileRequest =>
      if c.fileStat.size = 0 then responsePage c.linger 200 ok200Title okString
      else responseHead c.linger 200 ok200Title (toInt32 c.fileStat.size)
  | .noRequest | .getRequest | .badRequest | .closedConnection => []

/-- The file it carries. -/
def responseFile (c : HttpConn) : HttpCode → Option (FileAddress × Nat)
  | .fileRequest =>
      if c.fileStat.size = 0 then none else some (c.fileAddress, c.fileStat.size)
  | .noRequest | .getRequest | .badRequest | .noResource | .forbiddenRequest
  | .internalError | .closedConnection => none

/-- The slot `c` holds the response that `process_write` has made in an empty
write buffer of the code `ret` and the connection `mid` a call of
`process_read` has left. -/
structure Responds (c : HttpConn) (ret : HttpCode) (mid : HttpConn) : Prop where
  read : ∃ before fs fellOff sys, processRead fs fellOff before = (ret, mid, sys)
  decided : ret ≠ .noRequest
  empty : mid.writeIdx = 0
  written : mid.processWrite ret = (true, c)

/-- What `write` has to find: one response, from its first byte on, and
nothing else. -/
structure Whole (c : HttpConn) (ret : HttpCode) (mid : HttpConn) : Prop where
  positive : 0 < c.writeIdx
  iv0 : c.iv0 = ⟨.writeBuf, c.writeIdx⟩
  ivCount : c.ivCount = 2 ↔ (mid.responseFile ret).isSome
  text : (c.writeBuf.bytes.take c.writeIdx) = mid.responseText ret
  file : ∀ address size, mid.responseFile ret = some (address, size) →
    c.iv1 = ⟨.file address, size⟩
  sends : ∀ mem outcomes r, c.write mem outcomes = some r → r.ending ≠ .nothing ∧
    r.sent = resend (offered mem c) (counts outcomes)
  offers : ∀ mem, offered mem c = (mid.responseText ret).map some ++
    (match mid.responseFile ret with
      | none => []
      | some (address, size) => iovBytes mem c ⟨.file address, size⟩)

/-- The codes after which `process` has something to write. -/
theorem Responds.code {c mid : HttpConn} {ret : HttpCode} (h : c.Responds ret mid) :
    ret = .internalError ∨ ret = .noResource ∨ ret = .forbiddenRequest ∨ ret = .fileRequest := by
  obtain ⟨before, fs, fellOff, sys, hread⟩ := h.read
  have hcode := processRead_code fs fellOff before
  rw [hread] at hcode
  cases ret with
  | noRequest => exact absurd rfl h.decided
  | getRequest => exact absurd rfl hcode.1
  | closedConnection => exact absurd rfl hcode.2
  | badRequest => cases congrArg Prod.fst h.written
  | internalError => exact Or.inl rfl
  | noResource => exact Or.inr (Or.inl rfl)
  | forbiddenRequest => exact Or.inr (Or.inr (Or.inl rfl))
  | fileRequest => exact Or.inr (Or.inr (Or.inr rfl))

/-- The write buffer holds the text of the response, and the iovecs it and the
file. -/
theorem Responds.queued {c mid : HttpConn} {ret : HttpCode} (h : c.Responds ret mid) :
    c.Queued (mid.responseText ret) (mid.responseFile ret) := by
  have hwritten := written_nil h.empty
  have hconn : (mid.processWrite ret).2 = c := congrArg Prod.snd h.written
  rw [← hconn]
  rcases h.code with rfl | rfl | rfl | rfl
  · exact (processWrite_internalError hwritten).2
  · exact (processWrite_noResource hwritten).2
  · exact (processWrite_forbidden hwritten).2
  · have hfile := (processWrite_file hwritten).2
    simp only [responseText, responseFile]
    by_cases hsize : mid.fileStat.size = 0
    · simp only [hsize, ↓reduceIte] at hfile ⊢
      exact hfile
    · simp only [hsize, ↓reduceIte] at hfile ⊢
      exact hfile

theorem Responds.text_ne_nil {c mid : HttpConn} {ret : HttpCode} (h : c.Responds ret mid) :
    mid.responseText ret ≠ [] := by
  obtain ⟨h500, h400, h403, h200⟩ := startsOnce_responsePage mid.linger
  rcases h.code with rfl | rfl | rfl | rfl
  · exact List.length_pos_iff.mp (Nat.pos_of_ne_zero h500.length_ne_zero)
  · exact List.append_ne_nil_of_left_ne_nil
      (List.length_pos_iff.mp (Nat.pos_of_ne_zero h400.length_ne_zero)) _
  · exact List.length_pos_iff.mp (Nat.pos_of_ne_zero h403.length_ne_zero)
  · simp only [responseText]
    split
    · exact List.length_pos_iff.mp (Nat.pos_of_ne_zero h200.length_ne_zero)
    · exact List.length_pos_iff.mp
        (Nat.pos_of_ne_zero (startsOnce_responseHead _ _).length_ne_zero)

theorem Responds.writeIdx_ne_zero {c mid : HttpConn} {ret : HttpCode}
    (h : c.Responds ret mid) : c.writeIdx ≠ 0 := by
  rw [h.queued.written.writeIdx_eq]
  exact fun hnone => h.text_ne_nil (List.length_eq_zero_iff.mp hnone)

theorem Responds.whole {c mid : HttpConn} {ret : HttpCode} (h : c.Responds ret mid) :
    c.Whole ret mid := by
  have hqueued := h.queued
  have hwritten := h.writeIdx_ne_zero
  have hidx := hqueued.written.writeIdx_eq
  have hrest := hqueued.rest
  have htext : c.writeBuf.bytes.take c.writeIdx = mid.responseText ret := by
    rw [hidx]
    exact hqueued.written.hasAt.take hqueued.written.fits
  refine ⟨Nat.pos_of_ne_zero hwritten, ?_, ?_, htext, ?_, ?_, ?_⟩
  · rw [hqueued.iv0, hidx]
  · cases hfile : mid.responseFile ret with
    | none =>
        rw [hfile] at hrest
        simp [hrest]
    | some file =>
        rw [hfile] at hrest
        simp [hrest.1]
  · intro address size hfile
    rw [hfile] at hrest
    exact hrest.2
  · intro mem outcomes r hwrite
    have hloops := write_loops hwritten hwrite
    exact ⟨hloops.ended, hloops.sent⟩
  · intro mem
    cases hfile : mid.responseFile ret with
    | none =>
        rw [hfile] at hqueued
        rw [hqueued.offered_text, List.append_nil]
    | some file =>
        rw [hfile] at hqueued
        exact hqueued.offered_file mem

/-- `process` arms for writing with a response queued, or closes the slot. -/
theorem process_responds (fs : List Byte → FsAnswer) (fellOff : Option HttpCode) {c : HttpConn}
    (hempty : c.writeIdx = 0) (userCount : Int) {sys : List SysCall} {n : Int}
    (hcalls : (c.process fs fellOff userCount).2.2 = sys ++ [.modfd n .epollout]) :
    (c.process fs fellOff userCount).1.sockfd = -1 ∨
      ∃ ret mid, (c.process fs fellOff userCount).1.Responds ret mid := by
  have houtcome := processRead_outcome fs fellOff c
  cases hread : c.processRead fs fellOff with
  | mk code rest =>
      obtain ⟨mid, calls⟩ := rest
      rw [hread] at houtcome
      have hmid : mid.writeIdx = 0 := houtcome.writeIdx.trans hempty
      rcases process_cases hread userCount with ⟨-, heq⟩ | ⟨hcode, hok, heq⟩ | ⟨-, -, hconn, -⟩
      · rw [heq] at hcalls
        cases (List.append_inj' hcalls rfl).2
      · rw [heq]
        exact Or.inr ⟨code, mid, ⟨c, fs, fellOff, calls, hread⟩, hcode, hmid, Prod.ext hok rfl⟩
      · rw [hconn]
        exact Or.inl rfl

end HttpConn

variable {ι : Type u}

/-- A slot that is to write holds a response, unless it has been closed. -/
structure Answering (fd : Nat) (a : Slot ι) : Prop where
  emptied : Emptied fd a
  adding : a.phase = .main .adding → a.entry = some (.armed .epollin)
  responds : a.direction = some .epollout →
    a.conn.sockfd = -1 ∨ ∃ ret mid, a.conn.Responds ret mid

section Slots

variable {fd : Nat} {a b : Slot ι} {label : SlotLabel}

theorem Coherent.armedFor_none (h : Coherent fd a) (hphase : ¬ a.phase.Released) :
    armedFor a.entry = none := by
  have hunarmed := h.unarmed hphase
  cases hentry : a.entry with
  | none => rfl
  | some entry =>
      cases entry with
      | disarmed => rfl
      | armed ev => exact absurd hentry (hunarmed ev)

theorem SlotStep.answering (hstep : SlotStep fd a label b) (h : Answering fd a) :
    Answering fd b := by
  have hemptied := SlotStep.emptied hstep h.emptied
  have hcoherent := h.emptied.coherent
  cases hstep with
  | addfd hphase => exact ⟨hemptied, fun _ => rfl, by rintro ⟨⟩⟩
  | initialise hphase =>
      refine ⟨hemptied, by rintro ⟨⟩, fun hwrites => ?_⟩
      have harmed := h.adding hphase
      simp [Slot.direction, harmed, armedFor] at hwrites
  | @report kind ev hphase hentry hfits =>
      refine ⟨hemptied, by rintro ⟨⟩, fun hwrites => h.responds ?_⟩
      rw [direction_reported hfits hwrites]
      simp [Slot.direction, hphase, hentry, armedFor]
  | startWrite hphase =>
      exact ⟨hemptied, by rintro ⟨⟩, fun _ => h.responds (by simp [Slot.direction, hphase])⟩
  | @read outcomes ok after hphase hread hbad =>
      cases ok <;> exact ⟨hemptied, by rintro ⟨⟩, by rintro ⟨⟩⟩
  | drop hphase =>
      refine ⟨hemptied, by rintro ⟨⟩, fun hwrites => ?_⟩
      have hnone := hcoherent.armedFor_none (by rw [hphase]; exact id)
      cases hnone.symm.trans hwrites
  | @process w fs fellOff userCount hphase =>
      have hlive := h.emptied.live (by rw [hphase]; trivial)
      have hempty := (h.emptied.empty (by simp [Slot.direction, hphase])).resolve_left hlive
      refine ⟨hemptied, by rintro ⟨⟩, fun hwrites => ?_⟩
      obtain ⟨-, sys, ev, hcalls, -⟩ := HttpConn.process_sockfd fs fellOff a.conn userCount
      have hev : ev = .epollout := by
        simp [Slot.direction, hcalls] at hwrites
        exact hwrites
      rw [hev] at hcalls
      exact HttpConn.process_responds fs fellOff hempty userCount hcalls
  | rearm hphase =>
      obtain ⟨ev, hbefore, hafter⟩ := hcoherent.rearmed hphase
      refine ⟨hemptied, by rintro ⟨⟩, fun hwrites => h.responds ?_⟩
      obtain ⟨-, hev⟩ := Option.ite_none_right_eq_some.mp (hafter.symm.trans hwrites)
      exact hbefore.trans hev
  | @write outcomes mem r hphase hwrite hbad =>
      refine ⟨hemptied, by rintro ⟨⟩, fun hwrites => ?_⟩
      have hsockfd := (HttpConn.write_sockfd hwrite).1
      rcases h.responds (by simp [Slot.direction, hphase]) with hclosed | ⟨ret, mid, hresponds⟩
      · exact Or.inl (hsockfd.trans hclosed)
      · rcases HttpConn.write_cases hwrite with ⟨hnothing, -⟩ | ⟨-, ⟨-, hconn, -⟩ |
          ⟨hret, -⟩ | ⟨hret, -, hcalls⟩ | ⟨hret, -⟩⟩
        · exact absurd hnothing hresponds.writeIdx_ne_zero
        · -- EAGAIN: the same response is to be written again
          rw [hconn]
          exact Or.inr ⟨ret, mid, hresponds⟩
        · rw [hret] at hwrites
          cases hwrites
        · have hafter : armedFor (runEntry fd a.entry
                (a.conn.unmap.2 ++ [.modfd a.conn.sockfd .epollin])) =
              if a.conn.sockfd = fd ∧ a.entry ≠ none then some .epollin else none :=
            armedFor_runEntry a.conn.unmap.2 (hcoherent.unarmed (by rw [hphase]; exact id))
              (HttpConn.unmap_modfd a.conn)
          rw [hret, hcalls] at hwrites
          obtain ⟨-, hev⟩ := Option.ite_none_right_eq_some.mp (hafter.symm.trans hwrites)
          cases hev
        · rw [hret] at hwrites
          cases hwrites
  | @wrote ret hphase =>
      cases ret with
      | true =>
          have harmed : a.direction = armedFor a.entry := by simp [Slot.direction, hphase]
          exact ⟨hemptied, by rintro ⟨⟩, fun hwrites => h.responds (harmed.trans hwrites)⟩
      | false => exact ⟨hemptied, by rintro ⟨⟩, by rintro ⟨⟩⟩
  | close userCount hphase =>
      refine ⟨hemptied, by rintro ⟨⟩, fun _ => Or.inl ?_⟩
      rw [HttpConn.closeConn_fst]
      rfl
  | _ => exact ⟨hemptied, by rintro ⟨⟩, by rintro ⟨⟩⟩

theorem SlotStarts.answering (h : SlotStarts fd a) : Answering fd a where
  emptied := SlotStarts.emptied h
  adding := by
    rw [h.phase]
    rintro ⟨⟩
  responds := by
    rw [Slot.direction, h.phase]
    rintro ⟨⟩

theorem slot_answering (hreach : (slotSystem ι fd).Reachable a) : Answering fd a := by
  refine hreach.invariant ?_ ?_
  · exact fun _ hstart => SlotStarts.answering hstart
  · exact fun _ _ _ hbefore hstep => SlotStep.answering hstep hbefore

end Slots

variable [DecidableEq ι]

/-- In a run whose stores lie inside, response phases do not overlap:
`process_write` finds the write buffer empty, and `write` finds in a live slot
one whole response. -/
theorem responses_apart {history : List (Server ι × Label ι)} {s : Server ι}
    (hrun : (server ι).Run history s)
    (hinside : ∀ entry ∈ history, StoresInside entry.1 entry.2) :
    (∀ w fd, (s.workers w).at = some (fd, .processing) → ∀ fs fellOff,
      ((s.users fd).processRead fs fellOff).2.1.writeIdx = 0) ∧
    ∀ fd events, s.main = .writing fd events → (s.users fd).sockfd ≠ -1 →
      ∃ ret mid, (s.users fd).Responds ret mid ∧ (s.users fd).Whole ret mid := by
  have hunhit := run_unhit hrun hinside
  constructor
  · intro w fd hworker fs fellOff
    exact (process_starts_empty ⟨history, hunhit⟩ hworker fs fellOff).2
  · intro fd events hmain hlive
    obtain ⟨phase, hphased, hslots⟩ := run_phased hunhit
    obtain ⟨slotHistory, hslotRun, -⟩ := hslots fd
    have hanswering := slot_answering ⟨slotHistory, hslotRun⟩
    have hphase : (s.slot phase fd).phase = .main .writing :=
      ((hphased.located fd).main _).mp (by rw [hmain]; rfl)
    obtain ⟨ret, mid, hresponds⟩ :=
      (hanswering.responds (by simp [Slot.direction, hphase])).resolve_left hlive
    exact ⟨ret, mid, hresponds, hresponds.whole⟩

/-- `write` is called on a response that carries a file. -/
theorem responses_apart_root :
    ∃ s : Server (Fin 8), s.main = .writing (clientFd 0) [] ∧
      ∃ ret mid, (s.users (clientFd 0)).Responds ret mid ∧
        (s.users (clientFd 0)).Whole ret mid := by
  obtain ⟨history, s, h⟩ := exists_rootServed (0 : Fin 8) fiveBytes rfl (by decide) (by decide) rfl
  have hreports : Reports (runCalls s.epoll ([.mmap 4096 5] ++ [.modfd 5 .epollout]))
      [.client (clientFd 0) .output] := by
    refine reports_client (?_ : _ = some (EpollEntry.armed .epollout)) rfl
    exact runEntry_modfd (by rw [h.entry]; exact nofun) _ _
  have hrearm := h.run.snoc (Step.server (.rearm h.worker) trivial)
  have hreport := hrearm.snoc (Step.server (.epollWait h.main hreports) trivial)
  have hwrites := hreport.snoc (Step.server (.startWrite rfl) trivial)
  have hlive : (s.users (clientFd 0)).sockfd ≠ -1 := by
    rw [h.sockfd]
    decide
  refine ⟨_, rfl, (responses_apart hwrites ?_).2 _ _ rfl hlive⟩
  intro entry hentry
  simp only [List.append_assoc, List.mem_append, List.mem_singleton] at hentry
  rcases hentry with hold | rfl | rfl | rfl
  · exact h.inside entry hold
  · trivial
  · trivial
  · trivial

end LinuxLearning.Webserver
