/-
What a slot is armed for.  One that is armed for reading has nothing in its
write buffer, unless it has been closed; so `process_write` always starts with
an empty one.
-/
import LinuxLearning.Webserver.Ownership

namespace LinuxLearning.Webserver

universe u

namespace HttpConn

/-- `write` leaves nothing behind in the buffer when it arms for reading and
goes on with the connection. -/
theorem write_empty {mem : Nat → Byte} {c : HttpConn} {outcomes : List WritevOutcome}
    {r : WriteResult} (hwrite : c.write mem outcomes = some r) (hret : r.ret = true) :
    r.conn.writeIdx = 0 ∨ r.calls = [.modfd c.sockfd .epollout] := by
  rcases write_cases hwrite with ⟨-, -, hconn, -⟩ | ⟨-, ⟨-, -, hcalls⟩ |
    ⟨hfalse, -⟩ | ⟨-, hconn, -⟩ | ⟨hfalse, -⟩⟩
  · rw [hconn]
    exact Or.inl rfl
  · exact Or.inr hcalls
  · rw [hfalse] at hret
    cases hret
  · rw [hconn]
    exact Or.inl rfl
  · rw [hfalse] at hret
    cases hret

/-- `process` leaves the write buffer empty, or arms for writing. -/
theorem process_empty (fs : List Byte → FsAnswer) (fellOff : Option HttpCode) {c : HttpConn}
    (hempty : c.writeIdx = 0) (userCount : Int) :
    (c.process fs fellOff userCount).1.writeIdx = 0 ∨
      ∃ sys n, (c.process fs fellOff userCount).2.2 = sys ++ [.modfd n .epollout] := by
  have houtcome := processRead_outcome fs fellOff c
  cases hread : c.processRead fs fellOff with
  | mk code rest =>
      obtain ⟨mid, sys⟩ := rest
      rw [hread] at houtcome
      have hwriteIdx : mid.writeIdx = c.writeIdx := houtcome.writeIdx
      rcases process_cases hread userCount with ⟨-, heq⟩ | ⟨-, -, heq⟩ | ⟨-, -, -, hcalls⟩
      · rw [heq]
        exact Or.inl (hwriteIdx.trans hempty)
      · rw [heq]
        exact Or.inr ⟨_, _, rfl⟩
      · exact Or.inr ⟨_, _, hcalls⟩

end HttpConn

variable {ι : Type u}

/-- What an entry is armed for. -/
def armedFor : Option EpollEntry → Option Interest
  | some (.armed ev) => some ev
  | some .disarmed | none => none

/-- What a slot is armed for, or handled for: reading and processing a
request, or writing the response. -/
def Slot.direction (a : Slot ι) : Option Interest :=
  match a.phase with
  | .idle | .main (.written true) => armedFor a.entry
  | .reported .input | .main .reading | .main .appending | .queued | .worker _ .processing =>
      some .epollin
  | .reported .output | .main .writing => some .epollout
  | .worker _ (.rearming calls) =>
      match calls.getLast? with
      | some (.modfd _ ev) => some ev
      | _ => none
  | _ => none

/-- The phases from a successful `read` to the end of `process_read`. -/
def Phase.Received : Phase ι → Prop
  | .main .appending | .queued | .worker _ .processing => True
  | _ => False

/-- A slot that is to read has nothing left to write. -/
structure Emptied (fd : Nat) (a : Slot ι) : Prop where
  coherent : Coherent fd a
  empty : a.direction = some .epollin → a.conn.sockfd = -1 ∨ a.conn.writeIdx = 0
  live : a.phase.Received → a.conn.sockfd ≠ -1

section Slots

variable {fd : Nat} {a b : Slot ι} {label : SlotLabel}

/-- Calls that end with a `modfd` arm an entry that is not armed for it. -/
theorem armedFor_runEntry (calls : List SysCall) {n : Int} {ev : Interest}
    {entry : Option EpollEntry} (hentry : ∀ other, entry ≠ some (.armed other))
    (hsys : ∀ m other, SysCall.modfd m other ∉ calls) :
    armedFor (runEntry fd entry (calls ++ [.modfd n ev])) =
      if n = fd ∧ entry ≠ none then some ev else none := by
  have hrun : runEntry fd entry (calls ++ [.modfd n ev]) =
      if n = fd ∧ entry ≠ none then some (.armed ev) else entry := by
    rw [runEntry_append, runEntry_of_other fun m other hmem => absurd hmem (hsys m other)]
    rfl
  rw [hrun]
  by_cases hboth : n = fd ∧ entry ≠ none
  · rw [if_pos hboth, if_pos hboth]
    rfl
  · rw [if_neg hboth, if_neg hboth]
    cases entry with
    | none => rfl
    | some e =>
        cases e with
        | disarmed => rfl
        | armed other => exact absurd rfl (hentry other)

/-- A slot that somebody is at work on is not armed. -/
theorem Coherent.unarmed (h : Coherent fd a) (hphase : ¬ a.phase.Released)
    (other : Interest) : a.entry ≠ some (.armed other) :=
  fun harmed => hphase (h.armed other harmed)

/-- What a slot in a worker's hands is armed for next. -/
theorem Coherent.rearmed (h : Coherent fd a) {w : ι} {calls : List SysCall}
    (hphase : a.phase = .worker w (.rearming calls)) :
    ∃ ev, a.direction = some ev ∧ armedFor (runEntry fd a.entry calls) =
      if a.conn.sockfd = fd ∧ a.entry ≠ none then some ev else none := by
  obtain ⟨sys, ev, rfl, hsys⟩ := h.rearming w calls hphase
  exact ⟨ev, by simp [Slot.direction, hphase],
    armedFor_runEntry sys (h.unarmed (by rw [hphase]; exact id)) hsys⟩

/-- What a slot whose response is to be written again is armed for. -/
theorem Coherent.resumed (h : Coherent fd a) (hphase : a.phase = .main .writing) :
    armedFor (runEntry fd a.entry [.modfd a.conn.sockfd .epollout]) =
      if a.conn.sockfd = fd ∧ a.entry ≠ none then some .epollout else none :=
  armedFor_runEntry [] (h.unarmed (by rw [hphase]; exact id))
    fun _ _ => List.not_mem_nil

/-- What is reported of a slot is what it is armed for, or a hang-up. -/
theorem direction_reported {kind : EventKind} {ev other : Interest} (hfits : kind.Fits ev)
    {conn : HttpConn} {entry : Option EpollEntry} {calls : List SysCall}
    (h : Slot.direction (⟨.reported kind, conn, entry, calls⟩ : Slot ι) = some other) :
    other = ev := by
  cases kind with
  | hangup => cases h
  | input => exact (Option.some.inj h).symm.trans (Eq.symm hfits)
  | output => exact (Option.some.inj h).symm.trans (Eq.symm hfits)

theorem SlotStep.emptied (hstep : SlotStep fd a label b) (h : Emptied fd a) : Emptied fd b := by
  have hcoherent := SlotStep.coherent hstep h.coherent
  cases hstep with
  | initialise hphase => exact ⟨hcoherent, fun _ => Or.inr rfl, False.elim⟩
  | @report kind ev hphase hentry hfits =>
      refine ⟨hcoherent, fun hreads => h.empty ?_, False.elim⟩
      rw [direction_reported hfits hreads]
      simp [Slot.direction, hphase, hentry, armedFor]
  | startRead hphase =>
      exact ⟨hcoherent, fun _ => h.empty (by simp [Slot.direction, hphase]), False.elim⟩
  | @read outcomes ok after hphase hread hbad =>
      have hempty := h.empty (by simp [Slot.direction, hphase])
      obtain ⟨data, rfl⟩ := HttpConn.read_recv hread
      refine ⟨hcoherent, fun _ => hempty, ?_⟩
      cases ok with
      | false => exact False.elim
      | true =>
          intro _ hclosed
          exact absurd (hbad hclosed _ (HttpConn.read_eagain hread)) nofun
  | append hphase | pop hphase =>
      exact ⟨hcoherent, fun _ => h.empty (by simp [Slot.direction, hphase]),
        fun _ => h.live (by rw [hphase]; trivial)⟩
  | drop hphase =>
      exact ⟨hcoherent, fun _ => h.empty (by simp [Slot.direction, hphase]), False.elim⟩
  | @process w fs fellOff userCount hphase =>
      have hlive := h.live (by rw [hphase]; trivial)
      have hempty := (h.empty (by simp [Slot.direction, hphase])).resolve_left hlive
      refine ⟨hcoherent, fun hreads => ?_, False.elim⟩
      rcases HttpConn.process_empty fs fellOff hempty userCount with hempty' | ⟨sys, n, hcalls⟩
      · exact Or.inr hempty'
      · simp [Slot.direction, hcalls] at hreads
  | rearm hphase =>
      obtain ⟨ev, hbefore, hafter⟩ := h.coherent.rearmed hphase
      refine ⟨hcoherent, fun hreads => h.empty ?_, False.elim⟩
      obtain ⟨-, hev⟩ := Option.ite_none_right_eq_some.mp (hafter.symm.trans hreads)
      exact hbefore.trans hev
  | @write outcomes mem r hphase hwrite hbad =>
      refine ⟨hcoherent, fun hreads => ?_, False.elim⟩
      cases hret : r.ret with
      | false =>
          rw [hret] at hreads
          cases hreads
      | true =>
          rcases HttpConn.write_empty hwrite hret with hempty | hcalls
          · exact Or.inr hempty
          · rw [hret, hcalls] at hreads
            have hafter := (h.coherent.resumed hphase).symm.trans hreads
            obtain ⟨-, hev⟩ := Option.ite_none_right_eq_some.mp hafter
            cases hev
  | @wrote ret hphase =>
      cases ret with
      | true =>
          have harmed : a.direction = armedFor a.entry := by simp [Slot.direction, hphase]
          exact ⟨hcoherent, fun hreads => h.empty (harmed.trans hreads), False.elim⟩
      | false => exact ⟨hcoherent, nofun, False.elim⟩
  | close userCount hphase =>
      refine ⟨hcoherent, fun _ => Or.inl ?_, False.elim⟩
      rw [HttpConn.closeConn_fst]
      rfl
  | _ => exact ⟨hcoherent, nofun, False.elim⟩

theorem SlotStarts.emptied (h : SlotStarts fd a) : Emptied fd a where
  coherent := SlotStarts.coherent h
  empty := by
    rw [Slot.direction, h.phase]
    exact nofun
  live := by
    rw [h.phase]
    exact False.elim

theorem slot_emptied (hreach : (slotSystem ι fd).Reachable a) : Emptied fd a := by
  refine hreach.invariant ?_ ?_
  · exact fun _ hstart => SlotStarts.emptied hstart
  · exact fun _ _ _ hbefore hstep => SlotStep.emptied hstep hbefore

end Slots

/-- `process` is called on live slots only, and its `process_write` starts
with an empty write buffer. -/
theorem process_starts_empty [DecidableEq ι] {s : Server ι} (hreach : (unhit ι).Reachable s)
    {w : ι} {fd : Nat} (hworker : (s.workers w).at = some (fd, .processing))
    (fs : List Byte → FsAnswer) (fellOff : Option HttpCode) :
    (s.users fd).sockfd ≠ -1 ∧ ((s.users fd).processRead fs fellOff).2.1.writeIdx = 0 := by
  obtain ⟨history, hrun⟩ := hreach
  obtain ⟨phase, hphased, hslots⟩ := run_phased hrun
  obtain ⟨slotHistory, hslotRun, -⟩ := hslots fd
  have hemptied := slot_emptied ⟨slotHistory, hslotRun⟩
  have hphase : (s.slot phase fd).phase = .worker w .processing :=
    ((hphased.located fd).worker w _).mp hworker
  have hlive := hemptied.live (by rw [hphase]; trivial)
  have hempty := hemptied.empty (by simp [Slot.direction, hphase])
  rw [(HttpConn.processRead_outcome fs fellOff (s.users fd)).writeIdx]
  exact ⟨hlive, hempty.resolve_left hlive⟩

end LinuxLearning.Webserver
