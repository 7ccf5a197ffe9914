/-
Descriptors: what the epoll set holds against what the slots say.  Nothing ever
closes the descriptor of a connection that was admitted.
-/
import LinuxLearning.Webserver.Admission
import LinuxLearning.Webserver.Custody

namespace LinuxLearning.Webserver

universe u

open Function

namespace HttpConn

/-- `process` closes the slot: `process_read` has decided, and `process_write`
fails. -/
def Refused (fs : List Byte → FsAnswer) (fellOff : Option HttpCode) (c : HttpConn) : Prop :=
  (c.processRead fs fellOff).1 ≠ .noRequest ∧
    ((c.processRead fs fellOff).2.1.processWrite (c.processRead fs fellOff).1).1 = false

/-- Otherwise it leaves the descriptor in the slot. -/
theorem process_sockfd_of_not_refused {fs : List Byte → FsAnswer} {fellOff : Option HttpCode}
    {c : HttpConn} (h : ¬ c.Refused fs fellOff) (userCount : Int) :
    (c.process fs fellOff userCount).1.sockfd = c.sockfd := by
  have houtcome := processRead_outcome fs fellOff c
  unfold Refused at h
  cases hread : c.processRead fs fellOff with
  | mk code rest =>
      obtain ⟨mid, sys⟩ := rest
      rw [hread] at houtcome h
      have hsockfd : mid.sockfd = c.sockfd := houtcome.sockfd
      rcases process_cases hread userCount with ⟨-, heq⟩ | ⟨-, -, heq⟩ | ⟨hcode, hwrite, -⟩
      · rw [heq]
        exact hsockfd
      · rw [heq]
        exact (processWrite_sockfd mid code).trans hsockfd
      · exact absurd ⟨hcode, hwrite⟩ h

theorem process_sockfd_of_refused {fs : List Byte → FsAnswer} {fellOff : Option HttpCode}
    {c : HttpConn} (h : c.Refused fs fellOff) (userCount : Int) :
    (c.process fs fellOff userCount).1.sockfd = -1 := by
  unfold Refused at h
  cases hread : c.processRead fs fellOff with
  | mk code rest =>
      obtain ⟨mid, sys⟩ := rest
      rw [hread] at h
      obtain ⟨hcode, hwrite⟩ := h
      rcases process_cases hread userCount with ⟨hnone, -⟩ | ⟨-, hqueued, -⟩ | ⟨-, -, hconn, -⟩
      · exact absurd hnone hcode
      · rw [hwrite] at hqueued
        cases hqueued
      · rw [hconn]
        rfl

end HttpConn

variable {ι : Type u}

/-- The step closes the slot, which is live. -/
def Slot.Closes (a : Slot ι) : SlotLabel → Prop
  | .close => a.conn.sockfd ≠ -1
  | .process fs fellOff => a.conn.sockfd ≠ -1 ∧ a.conn.Refused fs fellOff
  | _ => False

/-- A coherent slot whose descriptor is its own from `addfd` on. -/
structure OpenSlot (fd : Nat) (a : Slot ι) : Prop where
  coherent : Coherent fd a
  own : a.entry ≠ none → a.conn.sockfd = fd

section Slots

variable {fd : Nat} {a b : Slot ι} {label : SlotLabel}

/-- A step that does not close a live slot leaves it open. -/
theorem SlotStep.openSlot (hstep : SlotStep fd a label b) (h : OpenSlot fd a)
    (hlabel : ¬ a.Closes label) : OpenSlot fd b := by
  refine ⟨SlotStep.coherent hstep h.coherent, ?_⟩
  cases hstep with
  | addfd hphase => exact fun _ => rfl
  | report hphase hentry hfits =>
      intro _
      apply h.own
      rw [hentry]
      exact nofun
  | read hphase hread hbad =>
      obtain ⟨data, rfl⟩ := HttpConn.read_recv hread
      exact h.own
  | @process w fs fellOff userCount hphase =>
      intro hentry
      have hown := h.own hentry
      have hlive : a.conn.sockfd ≠ -1 := by omega
      have hkept : ¬ a.conn.Refused fs fellOff := fun hrefused => hlabel ⟨hlive, hrefused⟩
      exact (HttpConn.process_sockfd_of_not_refused hkept userCount).trans hown
  | rearm hphase => exact fun _ => h.own (h.coherent.toSteady.has_entry (by rw [hphase]; exact id))
  | write hphase hwrite hbad =>
      intro _
      rw [(HttpConn.write_sockfd hwrite).1]
      exact h.own (h.coherent.toSteady.has_entry (by rw [hphase]; exact id))
  | close userCount hphase =>
      have hown := h.own (h.coherent.toSteady.has_entry (by rw [hphase]; exact id))
      have hlive : a.conn.sockfd ≠ -1 := by omega
      exact absurd hlive hlabel
  | _ => exact h.own

theorem slot_open {history : List (Slot ι × SlotLabel)} (hrun : (slotSystem ι fd).Run history a)
    (hlabels : ∀ entry ∈ history, ¬ entry.1.Closes entry.2) : OpenSlot fd a := by
  refine hrun.invariant (fun a label => ¬ a.Closes label) ?_ ?_ hlabels
  · exact fun _ hstart => ⟨SlotStarts.coherent hstart, fun hentry => absurd hstart.entry hentry⟩
  · exact fun _ _ _ hbefore hlabel hstep => SlotStep.openSlot hstep hbefore hlabel

/-- A slot that has been closed keeps its entry and stays closed. -/
theorem SlotStep.stays_closed (hstep : SlotStep fd a label b) (hcoherent : Coherent fd a)
    (hentry : a.entry ≠ none) (hclosed : a.conn.sockfd = -1) : b.conn.sockfd = -1 := by
  cases hstep with
  | addfd hphase =>
      exact absurd (hcoherent.entered.mpr (by rw [hphase]; trivial)) hentry
  | read hphase hread hbad =>
      obtain ⟨data, rfl⟩ := HttpConn.read_recv hread
      exact hclosed
  | @process w fs fellOff userCount hphase =>
      rcases (HttpConn.process_sockfd fs fellOff a.conn userCount).1 with hsame | hnow
      · exact hsame.trans hclosed
      · exact hnow
  | write hphase hwrite hbad => exact (HttpConn.write_sockfd hwrite).1.trans hclosed
  | close userCount hphase =>
      dsimp only
      rw [HttpConn.closeConn_fst]
      rfl
  | _ => exact hclosed

/-- A slot that is not in use does not change. -/
theorem SlotStep.conn_unused (hstep : SlotStep fd a label b) (hphase : a.phase = .unused) :
    b.conn = a.conn := by
  cases hstep with
  | accept => rfl
  | process userCount hbefore | close userCount hbefore => cases hphase.symm.trans hbefore
  | _ hbefore => cases hphase.symm.trans hbefore

end Slots

/-- The descriptor of a client is open and in the epoll set. -/
def Server.Registered (s : Server ι) (fd : Nat) : Prop :=
  s.fds fd = some .client ∧ s.epoll fd ≠ none

/-- `main` is between two steps of its loop, and no worker is active. -/
def Server.Quiet (s : Server ι) : Prop :=
  (s.main = .waiting ∨ ∃ events, s.main = .loop events) ∧ ∀ w, (s.workers w).at = none

/-- The step is a `close_conn` on a live slot, of `main` or in `process`. -/
def ClosesLive (s : Server ι) : Label ι → Prop
  | .close => ∃ fd, s.main.at = some (fd, .closing) ∧ (s.users fd).sockfd ≠ -1
  | .process w fs fellOff => ∃ fd, (s.workers w).at = some (fd, .processing) ∧
      (s.users fd).sockfd ≠ -1 ∧ (s.users fd).Refused fs fellOff
  | _ => False

/-- The conditions on the slots' steps that come from the server's. -/
theorem Origin.not_closes {history : List (Server ι × Label ι)}
    (hcloses : ∀ entry ∈ history, ¬ ClosesLive entry.1 entry.2) {fd : Nat}
    {origin : Server ι × Label ι} (hmem : origin ∈ history) {entry : Slot ι × SlotLabel}
    (h : Origin fd origin entry) : ¬ entry.1.Closes entry.2 := by
  obtain ⟨hconn, hlabel⟩ := h
  have hnot := hcloses origin hmem
  obtain ⟨a, l⟩ := entry
  dsimp only at hconn hlabel ⊢
  cases l with
  | close =>
      obtain ⟨horigin, hat⟩ := hlabel
      rw [horigin] at hnot
      intro hlive
      rw [Slot.Closes, hconn] at hlive
      exact hnot ⟨fd, hat, hlive⟩
  | process fs fellOff =>
      obtain ⟨w, horigin, hat⟩ := hlabel
      rw [horigin] at hnot
      rintro ⟨hlive, hrefused⟩
      rw [hconn] at hlive hrefused
      exact hnot ⟨fd, hat, hlive, hrefused⟩
  | _ => exact id

variable [DecidableEq ι]

/-- What is in the epoll set is open. -/
theorem registered_iff {s : Server ι} (hreach : (unhit ι).Reachable s) (fd : Nat) :
    s.Registered fd ↔ s.epoll fd ≠ none := by
  refine ⟨And.right, fun hentry => ⟨?_, hentry⟩⟩
  obtain ⟨phase, hphased, hcoherent⟩ := reachable_phased hreach
  rw [(hphased.located fd).client]
  intro hphase
  apply hentry
  apply (hcoherent fd).entered.mpr
  rw [Server.slot, hphase]
  trivial

/-- A closed slot stays closed, through every step of the server. -/
theorem Step.stays_closed {s after : Server ι} {label : Label ι} (hstep : Step s label after)
    (hreach : (unhit ι).Reachable s) {fd : Nat} (hentry : s.epoll fd ≠ none)
    (hclosed : (s.users fd).sockfd = -1) : (after.users fd).sockfd = -1 := by
  obtain ⟨phase, hphased, hcoherent⟩ := reachable_phased hreach
  obtain ⟨phase', -, hprojects⟩ := Step.projected hstep hphased fun fd => (hcoherent fd).toSteady
  cases hprojects fd with
  | stay hsame =>
      have hconn : after.users fd = s.users fd := congrArg Slot.conn hsame
      rw [hconn]
      exact hclosed
  | step hslot hlabel => exact SlotStep.stays_closed hslot (hcoherent fd) hentry hclosed

/-- After a `close_conn` on a live slot, its descriptor is still in the epoll
set. -/
theorem Step.closes {s after : Server ι} {label : Label ι} (hstep : Step s label after)
    (hreach : (unhit ι).Reachable s) (hcloses : ClosesLive s label) :
    ∃ fd, s.epoll fd ≠ none ∧ (after.users fd).sockfd = -1 := by
  obtain ⟨phase, hphased, hcoherent⟩ := reachable_phased hreach
  cases hstep with
  | @close fd events hmain =>
      have hphase : phase fd = .main .closing := by
        rw [← (hphased.located fd).main, hmain]
        rfl
      refine ⟨fd, (hcoherent fd).toSteady.has_entry (by rw [Server.slot, hphase]; exact id), ?_⟩
      dsimp only
      rw [update_self, HttpConn.closeConn_fst]
      rfl
  | @process w fd fs fellOff hworker hanswer =>
      obtain ⟨n, hat, -, hrefused⟩ := hcloses
      obtain rfl : fd = n := by
        rw [hworker] at hat
        exact (Prod.mk.inj (Option.some.inj hat)).1
      have hphase : phase fd = .worker w .processing := ((hphased.located fd).worker w _).mp hat
      refine ⟨fd, (hcoherent fd).toSteady.has_entry (by rw [Server.slot, hphase]; exact id), ?_⟩
      dsimp only
      rw [update_self]
      exact HttpConn.process_sockfd_of_refused hrefused _
  | @processFile w fd file fs fellOff hworker =>
      obtain ⟨n, hat, -, hrefused⟩ := hcloses
      obtain rfl : fd = n := by
        rw [hworker] at hat
        exact (Prod.mk.inj (Option.some.inj hat)).1
      have hphase : phase fd = .worker w .processing := ((hphased.located fd).worker w _).mp hat
      refine ⟨fd, (hcoherent fd).toSteady.has_entry (by rw [Server.slot, hphase]; exact id), ?_⟩
      dsimp only
      rw [update_self]
      exact HttpConn.process_sockfd_of_refused hrefused _
  | _ => exact hcloses.elim

/-- What lies behind the array does not get into the epoll set. -/
theorem Step.entry_behind {s after : Server ι} {label : Label ι} (hstep : Step s label after)
    (hslot : SlotInside s label) {fd : Nat} (hfd : MAX_FD ≤ fd) (hnone : s.epoll fd = none) :
    after.epoll fd = none := by
  cases hstep with
  | @epollWait events hmain hreports =>
      dsimp only [disarm]
      split
      · rename_i hmem
        obtain ⟨kind, hreported⟩ := mem_clientsOf.mp hmem
        obtain ⟨ev, harmed, -⟩ := hreports.armed fd kind hreported
        rw [hnone] at harmed
        cases harmed
      · exact hnone
  | @addfd connfd events hmain =>
      have hconnfd := hslot connfd events hmain
      dsimp only
      rw [update_of_ne (by omega)]
      exact hnone
  | write | rearm => exact (runEntry_eq_none _).mpr hnone
  | _ => exact hnone

theorem run_entry_behind {history : List (Server ι × Label ι)} {s : Server ι}
    (hrun : (unhit ι).Run history s)
    (hslots : ∀ entry ∈ history, SlotInside entry.1 entry.2) {fd : Nat} (hfd : MAX_FD ≤ fd) :
    s.epoll fd = none := by
  induction hrun with
  | start hstart => exact Starts.epoll hstart fd
  | snoc hbefore hstep ih =>
      rw [List.forall_mem_append, List.forall_mem_singleton] at hslots
      exact Step.entry_behind hstep hslots.2 hfd (ih hslots.1)

/-- A step that sets up a slot behind the array puts its descriptor there. -/
theorem Step.entry_of_not_slotInside {s after : Server ι} {label : Label ι}
    (hstep : Step s label after) (hslot : ¬ SlotInside s label) :
    ∃ fd, MAX_FD ≤ fd ∧ after.epoll fd ≠ none := by
  cases hstep with
  | @addfd connfd events hmain =>
      refine ⟨connfd, ?_, by simp⟩
      by_contra hfd
      apply hslot
      intro n others hother
      cases hmain.symm.trans hother
      exact Nat.lt_of_not_le hfd
  | _ => exact absurd trivial hslot

/-- The state a run starts in. -/
def firstState (history : List (Server ι × Label ι)) (s : Server ι) : Server ι :=
  match history with
  | [] => s
  | entry :: _ => entry.1

omit [DecidableEq ι] in
theorem firstState_snoc (history : List (Server ι × Label ι)) (before after : Server ι)
    (label : Label ι) :
    firstState (history ++ [(before, label)]) after = firstState history before := by
  cases history <;> rfl

/-- The slots of the server's own descriptors keep what they held at first. -/
theorem users_server {history : List (Server ι × Label ι)} {s : Server ι}
    (hrun : (server ι).Run history s)
    (hinside : ∀ entry ∈ history, StoresInside entry.1 entry.2) {fd : Nat}
    (hfd : fd < SERVER_FDS) : s.users fd = (firstState history s).users fd := by
  induction hrun with
  | start _ => rfl
  | @snoc history before after label hbefore hstep ih =>
      rw [List.forall_mem_append, List.forall_mem_singleton] at hinside
      obtain ⟨phase, hphased, hcoherent⟩ :=
        reachable_phased ⟨history, run_unhit hbefore hinside.1⟩
      have hunused : phase fd = .unused := by
        by_contra hused
        have hclient := (hphased.located fd).client.mpr hused
        rw [((run_admits hbefore).server fd).mpr hfd] at hclient
        cases hclient
      obtain ⟨phase', -, hprojects⟩ := Step.projected ((serverStep_iff hinside.2).mp hstep) hphased
        fun fd => (hcoherent fd).toSteady
      rw [firstState_snoc, ← ih hinside.1]
      cases hprojects fd with
      | stay hsame => exact congrArg Slot.conn hsame
      | step hslot _ => exact hslot.conn_unused hunused

/-- Once a live slot has been closed, one that holds -1 stays in the epoll
set. -/
theorem exists_closed {history : List (Server ι × Label ι)} {s : Server ι}
    (hrun : (unhit ι).Run history s) {entry : Server ι × Label ι} (hentry : entry ∈ history)
    (hcloses : ClosesLive entry.1 entry.2) :
    ∃ fd, s.epoll fd ≠ none ∧ (s.users fd).sockfd = -1 := by
  refine hrun.persists (P := fun s => ∃ fd, s.epoll fd ≠ none ∧ (s.users fd).sockfd = -1)
    hentry ?_ ?_
  · intro after hstep
    obtain ⟨fd, hregistered, hclosed⟩ := Step.closes hstep (hrun.reachable_entry hentry) hcloses
    exact ⟨fd, Step.registered hstep hregistered, hclosed⟩
  · rintro before label after hbefore ⟨fd, hregistered, hclosed⟩ hstep
    exact ⟨fd, Step.registered hstep hregistered,
      Step.stays_closed hstep hbefore hregistered hclosed⟩

/-- Once a slot behind the array has been set up, its descriptor stays in the
epoll set. -/
theorem exists_behind {history : List (Server ι × Label ι)} {s : Server ι}
    (hrun : (unhit ι).Run history s) {entry : Server ι × Label ι} (hentry : entry ∈ history)
    (hslot : ¬ SlotInside entry.1 entry.2) : ∃ fd, MAX_FD ≤ fd ∧ s.epoll fd ≠ none := by
  refine hrun.persists (P := fun s => ∃ fd, MAX_FD ≤ fd ∧ s.epoll fd ≠ none) hentry ?_ ?_
  · exact fun after hstep => Step.entry_of_not_slotInside hstep hslot
  · rintro before label after - ⟨fd, hfd, hregistered⟩ hstep
    exact ⟨fd, hfd, Step.registered hstep hregistered⟩

/-- The epoll set follows the slots exactly in the runs that have closed no
live slot, have set up none behind the array, and have started with none of the
slots that no connection gets naming itself; and no step takes a descriptor out
of the set or closes it. -/
theorem descriptors_follow {history : List (Server ι × Label ι)} {s : Server ι}
    (hrun : (server ι).Run history s)
    (hinside : ∀ entry ∈ history, StoresInside entry.1 entry.2) :
    ((∀ fd, s.Registered fd ↔ fd < MAX_FD ∧ (s.users fd).sockfd = fd) ↔
      (∀ entry ∈ history, ¬ ClosesLive entry.1 entry.2 ∧ SlotInside entry.1 entry.2) ∧
      ∀ fd < SERVER_FDS, ((firstState history s).users fd).sockfd ≠ fd) ∧
    ∀ entry ∈ history, ∀ fd, entry.1.Registered fd → s.Registered fd := by
  have hunhit := run_unhit hrun hinside
  have hreach : (unhit ι).Reachable s := ⟨history, hunhit⟩
  have hserver : ∀ fd < SERVER_FDS, ¬ s.Registered fd := by
    rintro fd hfd ⟨hclient, -⟩
    rw [((run_admits hrun).server fd).mpr hfd] at hclient
    cases hclient
  refine ⟨⟨fun hfollows => ⟨fun entry hentry => ⟨?_, ?_⟩, ?_⟩, ?_⟩, ?_⟩
  · intro hcloses
    obtain ⟨fd, hregistered, hclosed⟩ := exists_closed hunhit hentry hcloses
    have hown := ((hfollows fd).mp ((registered_iff hreach fd).mpr hregistered)).2
    omega
  · by_contra hslot
    obtain ⟨fd, hfd, hregistered⟩ := exists_behind hunhit hentry hslot
    have hlt := ((hfollows fd).mp ((registered_iff hreach fd).mpr hregistered)).1
    omega
  · intro fd hfd hown
    rw [← users_server hrun hinside hfd] at hown
    exact hserver fd hfd ((hfollows fd).mpr ⟨Nat.lt_trans hfd (by decide), hown⟩)
  · rintro ⟨hsteps, hfirst⟩ fd
    obtain ⟨phase, hphased, hslots⟩ := run_phased hunhit
    obtain ⟨slotHistory, hslotRun, horigin⟩ := hslots fd
    have hopen := slot_open hslotRun (by
      intro entry hentry
      obtain ⟨origin, hmem, hfrom⟩ := horigin entry hentry
      exact hfrom.not_closes (fun entry hentry => (hsteps entry hentry).1) hmem)
    constructor
    · rintro ⟨-, hentry⟩
      refine ⟨?_, hopen.own hentry⟩
      by_contra hfd
      exact hentry (run_entry_behind hunhit (fun entry hentry => (hsteps entry hentry).2)
        (Nat.le_of_not_lt hfd))
    · rintro ⟨-, hown⟩
      by_cases hfd : fd < SERVER_FDS
      · rw [users_server hrun hinside hfd] at hown
        exact absurd hown (hfirst fd hfd)
      · rw [registered_iff hreach]
        exact fun hnone => hopen.coherent.fresh (Nat.le_of_not_lt hfd) hnone hown
  · intro entry hentry fd hregistered
    rw [registered_iff (hunhit.reachable_entry hentry)] at hregistered
    rw [registered_iff hreach]
    refine hunhit.persists (P := fun s => s.epoll fd ≠ none) hentry ?_ ?_
    · exact fun after hstep => Step.registered hstep hregistered
    · exact fun before label after _ hbefore hstep => Step.registered hstep hbefore

/-- The epoll set after one client has been accepted. -/
theorem descriptors_follow_accepted :
    ∃ history, ∃ s : Server (Fin 8), (server (Fin 8)).Run history s ∧
      (((∀ fd, s.Registered fd ↔ fd < MAX_FD ∧ (s.users fd).sockfd = fd) ↔
        (∀ entry ∈ history, ¬ ClosesLive entry.1 entry.2 ∧ SlotInside entry.1 entry.2) ∧
        ∀ fd < SERVER_FDS, ((firstState history s).users fd).sockfd ≠ fd) ∧
      ∀ entry ∈ history, ∀ fd, entry.1.Registered fd → s.Registered fd) := by
  obtain ⟨history, s, h⟩ := exists_loaded (ι := Fin 8) 1 (by decide)
  have hinside := fun entry hentry => (h.steps entry hentry).inside
  have hrun := run_server h.run
  exact ⟨history, s, hrun, descriptors_follow hrun hinside⟩

/-- A client that hangs up leaves its descriptor open and in the epoll set. -/
theorem descriptor_left_open :
    ¬ ∀ s : Server (Fin 8), (server (Fin 8)).Reachable s → s.Quiet →
      ∀ fd, s.Registered fd ↔ fd < MAX_FD ∧ (s.users fd).sockfd = fd := by
  intro hall
  obtain ⟨history, s, h⟩ := exists_loaded (ι := Fin 8) 1 (by decide)
  have hentry := h.armed 0 (Nat.le_refl _) (by decide)
  have hreports : Reports s.epoll [.client (clientFd 0) .hangup] := reports_client hentry trivial
  have hrun := run_server h.run
  have hwait := hrun.snoc (Step.server (Step.epollWait h.main hreports) trivial)
  have hhangup := hwait.snoc (Step.server (Step.hangup rfl) trivial)
  have hclose := hhangup.snoc (Step.server (Step.close rfl) trivial)
  have hfollows := hall _ ⟨_, hclose⟩
    ⟨Or.inr ⟨[], rfl⟩, fun w => by dsimp only; rw [h.workers]; rfl⟩ (clientFd 0)
  have hown := (hfollows.mp ⟨by
    dsimp only
    rw [h.fds]
    rfl, by
    simp [disarm]⟩).2
  dsimp only at hown
  rw [update_self, HttpConn.closeConn_fst] at hown
  cases hown

end LinuxLearning.Webserver
