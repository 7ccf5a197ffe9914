/-
No live connection is left to nobody, as long as `append` never finds the
queue full: then `main` drops a connection that it has read from.
-/
import LinuxLearning.Webserver.Ownership

namespace LinuxLearning.Webserver

universe u

open Function

variable {ι : Type u}

/-- The phases that only the kernel ends, and those that lead to one without
another `modfd`. -/
def Phase.Waits : Phase ι → Prop
  | .idle | .main .adding | .main (.written true) => True
  | _ => False

/-- A live slot that waits for the kernel is armed. -/
def Slot.Heard (a : Slot ι) : Prop :=
  a.entry ≠ none → a.conn.sockfd ≠ -1 → a.phase.Waits → ∃ ev, a.entry = some (.armed ev)

section Slots

variable {fd : Nat} {a b : Slot ι}

theorem Slot.heard_of_not_waits (h : ¬ a.phase.Waits) : a.Heard :=
  fun _ _ hwaits => absurd hwaits h

/-- The `modfd` a call ends with arms a live slot. -/
theorem Coherent.armed_by (h : Coherent fd a) (hentry : a.entry ≠ none)
    (hlive : a.conn.sockfd ≠ -1) (sys : List SysCall) (ev : Interest) :
    runEntry fd a.entry (sys ++ [.modfd a.conn.sockfd ev]) = some (.armed ev) := by
  rcases h.own hentry with hown | hclosed
  · rw [hown]
    exact runEntry_modfd hentry sys ev
  · exact absurd hclosed hlive

/-- Every step but a failed `append` keeps a slot heard. -/
theorem SlotStep.heard {label : SlotLabel} (hstep : SlotStep fd a label b)
    (hcoherent : Coherent fd a) (hlabel : label ≠ .drop) (h : a.Heard) : b.Heard := by
  cases hstep with
  | addfd hphase => exact fun _ _ _ => ⟨_, rfl⟩
  | initialise hphase =>
      intro hentry hlive _
      exact h hentry hlive (by rw [hphase]; trivial)
  | drop hphase => exact absurd rfl hlabel
  | rearm hphase =>
      intro _ hlive _
      have hentry : a.entry ≠ none := hcoherent.toSteady.has_entry (by rw [hphase]; exact id)
      obtain ⟨sys, ev, rfl, -⟩ := hcoherent.rearming _ _ hphase
      exact ⟨ev, hcoherent.armed_by hentry hlive sys ev⟩
  | @write outcomes mem r hphase hwrite hbad =>
      intro _ hlive hwaits
      have hentry : a.entry ≠ none := hcoherent.toSteady.has_entry (by rw [hphase]; exact id)
      obtain ⟨hsockfd, -, hcalls⟩ := HttpConn.write_sockfd hwrite
      cases hret : r.ret with
      | false =>
          rw [hret] at hwaits
          exact hwaits.elim
      | true =>
          obtain ⟨sys, ev, hsys⟩ := hcalls hret
          dsimp only at hlive ⊢
          rw [hsockfd] at hlive
          rw [hsys]
          exact ⟨ev, hcoherent.armed_by hentry hlive sys ev⟩
  | @wrote ret hphase =>
      cases ret with
      | false => exact Slot.heard_of_not_waits id
      | true =>
          intro hentry hlive _
          exact h hentry hlive (by rw [hphase]; trivial)
  | @close userCount hphase =>
      intro _ hlive _
      dsimp only at hlive
      rw [HttpConn.closeConn_fst] at hlive
      exact absurd rfl hlive
  | @read outcomes ok after hphase hread hbad =>
      cases ok <;> exact Slot.heard_of_not_waits id
  | _ => exact Slot.heard_of_not_waits id

theorem SlotStarts.heard (h : SlotStarts fd a) : a.Heard :=
  fun hentry => absurd h.entry hentry

/-- A coherent slot that is heard. -/
structure HeardSlot (fd : Nat) (a : Slot ι) : Prop where
  coherent : Coherent fd a
  heard : a.Heard

/-- In a run without a failed `append` a live slot is always heard. -/
theorem slot_heard {history : List (Slot ι × SlotLabel)} (hrun : (slotSystem ι fd).Run history a)
    (hlabels : ∀ entry ∈ history, entry.2 ≠ .drop) : HeardSlot fd a := by
  refine hrun.invariant (fun _ label => label ≠ .drop) ?_ ?_ hlabels
  · exact fun _ hstart => ⟨SlotStarts.coherent hstart, SlotStarts.heard hstart⟩
  · exact fun _ _ _ hbefore hlabel hstep => ⟨SlotStep.coherent hstep hbefore.coherent,
      SlotStep.heard hstep hbefore.coherent hlabel hbefore.heard⟩

end Slots

/-- Somebody has the slot: the kernel, the queue, the batch of events, `main`
or a worker. -/
def Server.Kept (s : Server ι) (fd : Nat) : Prop :=
  (∃ ev, s.epoll fd = some (.armed ev)) ∨ fd ∈ s.queue ∨
    (∃ kind, Event.client fd kind ∈ s.main.events) ∨ s.MainOn fd ∨ ∃ w, s.WorkerOn w fd

variable [DecidableEq ι]

/-- No step takes a descriptor out of the epoll set. -/
theorem Step.registered {s after : Server ι} {label : Label ι} (hstep : Step s label after)
    {fd : Nat} (h : s.epoll fd ≠ none) : after.epoll fd ≠ none := by
  cases hstep with
  | epollWait hmain hreports =>
      dsimp only [disarm]
      split
      · exact nofun
      · exact h
  | @addfd connfd events hmain =>
      by_cases hfd : fd = connfd
      · subst hfd
        simp
      · dsimp only
        rw [update_of_ne hfd]
        exact h
  | write hmain hwrite hbad => exact fun hnone => h ((runEntry_eq_none _).mp hnone)
  | rearm hworker => exact fun hnone => h ((runEntry_eq_none _).mp hnone)
  | _ => exact h

theorem registered_of_initialised {history : List (Server ι × Label ι)} {s : Server ι}
    (hrun : (unhit ι).Run history s) {fd : Nat} (h : Initialised history fd) :
    s.epoll fd ≠ none := by
  obtain ⟨entry, hentry, hlabel, events, hmain⟩ := h
  obtain ⟨phase, hphased, hcoherent⟩ := reachable_phased (hrun.reachable_entry hentry)
  have hphase : phase fd = .main .adding := by
    rw [← (hphased.located fd).main, hmain]
    rfl
  have hadded : entry.1.epoll fd ≠ none :=
    (hcoherent fd).toSteady.has_entry (by rw [Server.slot, hphase]; exact id)
  refine hrun.persists (P := fun s => s.epoll fd ≠ none) hentry ?_ ?_
  · exact fun after hstep => Step.registered hstep hadded
  · exact fun before label after _ hbefore hstep => Step.registered hstep hbefore

/-- In a run whose stores lie inside, and in which `append` never finds the
queue full, every live connection is kept. -/
theorem connection_kept {history : List (Server ι × Label ι)} {s : Server ι}
    (hrun : (server ι).Run history s)
    (hinside : ∀ entry ∈ history, StoresInside entry.1 entry.2)
    (happend : ∀ entry ∈ history, entry.2 = .append → entry.1.queue.length ≤ MAX_REQUESTS)
    {fd : Nat} (hinit : Initialised history fd) (hlive : (s.users fd).sockfd ≠ -1) :
    s.Kept fd := by
  have hunhit := run_unhit hrun hinside
  have hregistered := registered_of_initialised hunhit hinit
  obtain ⟨phase, hphased, hslots⟩ := run_phased hunhit
  obtain ⟨slotHistory, hslotRun, horigin⟩ := hslots fd
  have hheard := slot_heard hslotRun (by
    intro entry hentry hdrop
    obtain ⟨origin, hmem, -, hfor⟩ := horigin entry hentry
    rw [hdrop] at hfor
    obtain ⟨hlabel, -, hfull⟩ := hfor
    have hroom := happend origin hmem hlabel
    omega)
  have hlocated := hphased.located fd
  have hentered : ¬ (phase fd).Outside :=
    fun hout => hregistered (hheard.coherent.entered.mpr hout)
  cases hphase : phase fd with
  | unused =>
      rw [hphase] at hentered
      exact absurd trivial hentered
  | idle => exact Or.inl (hheard.heard hregistered hlive (by rw [Server.slot, hphase]; trivial))
  | reported kind => exact Or.inr (Or.inr (Or.inl ⟨kind, (hlocated.batch kind).mpr hphase⟩))
  | main stage =>
      exact Or.inr (Or.inr (Or.inr (Or.inl ⟨stage, (hlocated.main stage).mpr hphase⟩)))
  | queued => exact Or.inr (Or.inl (hlocated.queue.mpr hphase))
  | worker w stage =>
      exact Or.inr (Or.inr (Or.inr (Or.inr ⟨w, stage, (hlocated.worker w stage).mpr hphase⟩)))

/-- A client that has just been accepted is kept. -/
theorem connection_kept_accepted :
    ∃ history, ∃ s : Server (Fin 8), (server (Fin 8)).Run history s ∧
      Initialised history (clientFd 0) ∧ s.Kept (clientFd 0) := by
  obtain ⟨history, s, h⟩ := exists_loaded (ι := Fin 8) 1 (by decide)
  have hrun := run_server h.run
  have hinside := fun entry hentry => (h.steps entry hentry).inside
  refine ⟨history, s, hrun, h.initialised 0 (by decide), ?_⟩
  refine connection_kept hrun hinside (fun entry hentry => (h.steps entry hentry).room)
    (h.initialised 0 (by decide)) ?_
  rw [h.users 0 (Nat.le_refl _) (by decide)]
  decide

/-- With 10001 clients in the queue, the next one that sends something is
dropped. -/
theorem connection_dropped :
    ¬ ∀ (history : List (Server (Fin 8) × Label (Fin 8))) (s : Server (Fin 8)),
      (server (Fin 8)).Run history s → ∀ fd, Initialised history fd →
        (s.users fd).sockfd ≠ -1 → s.Kept fd := by
  intro hall
  obtain ⟨history, s, h⟩ := exists_queued (ι := Fin 8) 10002 10001 (by decide) (by decide)
    (by decide)
  obtain ⟨tail, -, hread⟩ := h.read (by decide) (List.cons_ne_nil 0 []) (by decide)
  have hfull : s.queue.length > MAX_REQUESTS := by
    rw [h.queue_length]
    decide
  have hdrop := (run_server hread).snoc (Step.server (.appendFull rfl hfull) trivial)
  have hinit := (h.initialised 10001 (by decide)).mono tail
  have hkept := hall _ _ hdrop (clientFd 10001) (hinit.mono _) (by
    dsimp only
    rw [update_self]
    decide)
  rcases hkept with ⟨ev, harmed⟩ | hqueued | ⟨kind, hreported⟩ | ⟨stage, hmain⟩ |
    ⟨w, stage, hworker⟩
  · dsimp only at harmed
    rw [update_self] at harmed
    cases harmed
  · exact Nat.lt_irrefl _ (h.queue_lt _ hqueued)
  · cases hreported
  · cases hmain
  · dsimp only at hworker
    rw [h.workers] at hworker
    cases hworker

end LinuxLearning.Webserver
