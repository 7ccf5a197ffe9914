/-
Who acts on which slot.  Every reachable state of the server gives each slot
one phase of the slot system, and every step of the server is a step of that
system for the slots it acts on; so no slot has two owners.
-/
import LinuxLearning.Webserver.Slot
import LinuxLearning.Webserver.Stray

namespace LinuxLearning.Webserver

universe u

open Function

/-- The slot `main` acts on, and what it is doing with it. -/
def MainPc.at : MainPc → Option (Nat × MainStage)
  | .waiting | .loop _ | .posting _ => none
  | .accepted fd _ => some (fd, .accepted)
  | .refusing fd _ => some (fd, .refusing)
  | .admitted fd _ => some (fd, .admitted)
  | .adding fd _ => some (fd, .adding)
  | .reading fd _ => some (fd, .reading)
  | .appending fd _ => some (fd, .appending)
  | .writing fd _ => some (fd, .writing)
  | .written fd ret _ => some (fd, .written ret)
  | .closing fd _ => some (fd, .closing)

/-- The events of the batch that `main` has not come to. -/
def MainPc.events : MainPc → List Event
  | .waiting => []
  | .loop events | .accepted _ events | .refusing _ events | .admitted _ events
  | .adding _ events | .reading _ events | .appending _ events | .posting events
  | .writing _ events | .written _ _ events | .closing _ events => events

/-- The slot a worker acts on, and what it is doing with it. -/
def WorkerPc.at : WorkerPc → Option (Nat × WorkerStage)
  | .waiting | .woken => none
  | .processing fd | .mapping fd _ _ _ => some (fd, .processing)
  | .rearming fd calls => some (fd, .rearming calls)

variable {ι : Type u}

/-- The slot `fd` is in a phase: everything that points to it says so. -/
structure Located (s : Server ι) (fd : Nat) (phase : Phase ι) : Prop where
  main : ∀ stage, s.main.at = some (fd, stage) ↔ phase = .main stage
  batch : ∀ kind, Event.client fd kind ∈ s.main.events ↔ phase = .reported kind
  queue : fd ∈ s.queue ↔ phase = .queued
  worker : ∀ w stage, (s.workers w).at = some (fd, stage) ↔ phase = .worker w stage
  client : s.fds fd = some .client ↔ phase ≠ .unused

/-- Every slot is in one phase. -/
structure Phased (s : Server ι) (phase : Nat → Phase ι) : Prop where
  located : ∀ fd, Located s fd (phase fd)
  queue_nodup : s.queue.Nodup
  batch_nodup : (clientsOf s.main.events).Nodup
  files : ∀ w fd fs fellOff file, s.workers w = .mapping fd fs fellOff file →
    s.fds file = some (.file w)

/-- The slot `fd` of the server. -/
def Server.slot (s : Server ι) (phase : Nat → Phase ι) (fd : Nat) : Slot ι where
  phase := phase fd
  conn := s.users fd
  entry := s.epoll fd
  calls := s.calls fd

/-- What the same things say in two states of the server. -/
structure SameAt (s after : Server ι) (fd : Nat) : Prop where
  main : ∀ stage, after.main.at = some (fd, stage) ↔ s.main.at = some (fd, stage)
  batch : ∀ kind, Event.client fd kind ∈ after.main.events ↔
    Event.client fd kind ∈ s.main.events
  queue : fd ∈ after.queue ↔ fd ∈ s.queue
  worker : ∀ w stage, (after.workers w).at = some (fd, stage) ↔
    (s.workers w).at = some (fd, stage)
  client : after.fds fd = some .client ↔ s.fds fd = some .client

theorem Located.same {s after : Server ι} {fd : Nat} {phase : Phase ι}
    (h : Located s fd phase) (hsame : SameAt s after fd) : Located after fd phase where
  main := fun stage => (hsame.main stage).trans (h.main stage)
  batch := fun kind => (hsame.batch kind).trans (h.batch kind)
  queue := hsame.queue.trans h.queue
  worker := fun w stage => (hsame.worker w stage).trans (h.worker w stage)
  client := hsame.client.trans h.client

/-- What points to a slot decides its phase. -/
theorem Located.unique {s : Server ι} {fd : Nat} {first second : Phase ι}
    (hfirst : Located s fd first) (hsecond : Located s fd second) : first = second := by
  cases first with
  | unused =>
      by_contra hne
      exact hfirst.client.mp (hsecond.client.mpr (Ne.symm hne)) rfl
  | reported kind => exact ((hsecond.batch kind).mp ((hfirst.batch kind).mpr rfl)).symm
  | main stage => exact ((hsecond.main stage).mp ((hfirst.main stage).mpr rfl)).symm
  | queued => exact (hsecond.queue.mp (hfirst.queue.mpr rfl)).symm
  | worker w stage => exact ((hsecond.worker w stage).mp ((hfirst.worker w stage).mpr rfl)).symm
  | idle =>
      cases second with
      | unused => exact absurd rfl (hsecond.client.mp (hfirst.client.mpr nofun))
      | reported kind => exact (hfirst.batch kind).mp ((hsecond.batch kind).mpr rfl)
      | main stage => exact (hfirst.main stage).mp ((hsecond.main stage).mpr rfl)
      | queued => exact hfirst.queue.mp (hsecond.queue.mpr rfl)
      | worker w stage => exact (hfirst.worker w stage).mp ((hsecond.worker w stage).mpr rfl)
      | idle => rfl

theorem Phased.unique {s : Server ι} {first second : Nat → Phase ι} (hfirst : Phased s first)
    (hsecond : Phased s second) : first = second :=
  funext fun fd => (hfirst.located fd).unique (hsecond.located fd)

section Moves

variable {s after : Server ι} {phase : Nat → Phase ι}

/-- A step that moves no slot. -/
theorem Phased.stay (h : Phased s phase) (hat : after.main.at = s.main.at)
    (hevents : ∀ fd kind, Event.client fd kind ∈ after.main.events ↔
      Event.client fd kind ∈ s.main.events)
    (hnodup : (clientsOf after.main.events).Nodup) (hqueue : after.queue = s.queue)
    (hworkers : ∀ w, (after.workers w).at = (s.workers w).at)
    (hclient : ∀ fd, after.fds fd = some .client ↔ s.fds fd = some .client)
    (hfiles : ∀ w fd fs fellOff file, after.workers w = .mapping fd fs fellOff file →
      after.fds file = some (.file w)) : Phased after phase where
  located := fun fd => (h.located fd).same
    ⟨fun stage => by rw [hat], hevents fd, by rw [hqueue],
      fun w stage => by rw [hworkers w], hclient fd⟩
  queue_nodup := hqueue ▸ h.queue_nodup
  batch_nodup := hnodup
  files := hfiles

/-- A step that moves one slot: it says where that slot goes, and that the
others stay. -/
theorem Phased.move (h : Phased s phase) {fd₀ : Nat} {p : Phase ι} (hslot : Located after fd₀ p)
    (hother : ∀ fd, fd ≠ fd₀ → SameAt s after fd) (hqueue : after.queue.Nodup)
    (hnodup : (clientsOf after.main.events).Nodup)
    (hfiles : ∀ w fd fs fellOff file, after.workers w = .mapping fd fs fellOff file →
      after.fds file = some (.file w)) : Phased after (update phase fd₀ p) where
  located := by
    intro fd
    by_cases hfd : fd = fd₀
    · subst hfd
      rw [update_self]
      exact hslot
    · rw [update_of_ne hfd]
      exact (h.located fd).same (hother fd hfd)
  queue_nodup := hqueue
  batch_nodup := hnodup
  files := hfiles

/-- The files of the workers, when one of them goes where it has none. -/
theorem Phased.files_of_update [DecidableEq ι] (h : Phased s phase) {w₀ w : ι} {pc : WorkerPc}
    {fd : Nat} {fs : List Byte → FsAnswer} {fellOff : Option HttpCode} {file : Nat}
    (hmapping : update s.workers w₀ pc w = .mapping fd fs fellOff file)
    (hpc : ∀ fd fs fellOff file, pc ≠ .mapping fd fs fellOff file) :
    w ≠ w₀ ∧ s.fds file = some (.file w) := by
  by_cases hw : w = w₀
  · subst hw
    rw [update_self] at hmapping
    exact absurd hmapping (hpc _ _ _ _)
  · rw [update_of_ne hw] at hmapping
    exact ⟨hw, h.files w fd fs fellOff file hmapping⟩

/-- The files of the workers stay open when another descriptor changes its
use. -/
theorem Phased.files_of_fd (h : Phased s phase) {n : Nat} {use : Option (FdUse ι)}
    (hother : ∀ w, s.fds n ≠ some (.file w)) {w : ι} {fd : Nat} {fs : List Byte → FsAnswer}
    {fellOff : Option HttpCode} {file : Nat} (hmapping : s.workers w = .mapping fd fs fellOff file) :
    update s.fds n use file = some (.file w) := by
  have hfile := h.files w fd fs fellOff file hmapping
  have hne : file ≠ n := by
    rintro rfl
    exact hother w hfile
  rw [update_of_ne hne]
  exact hfile

/-- A step of `main` on the slot it acts on: it goes on with it, or leaves
it. -/
theorem Phased.main_step (h : Phased s phase) {fd₀ : Nat} {stage : MainStage}
    (hat : s.main.at = some (fd₀, stage)) (next : Option MainStage)
    (hat' : after.main.at = next.map fun stage => (fd₀, stage))
    (hevents : after.main.events = s.main.events) (hqueue : after.queue = s.queue)
    (hworkers : after.workers = s.workers) (hfds : after.fds = s.fds) :
    Phased after (update phase fd₀ (next.elim .idle .main)) := by
  have hphase : phase fd₀ = .main stage := ((h.located fd₀).main stage).mp hat
  have hold := h.located fd₀
  rw [hphase] at hold
  refine h.move ⟨fun stage' => ?_, fun kind => ?_, ?_, fun w stage' => ?_, ?_⟩
    (fun fd hfd => ⟨fun stage' => ?_, fun kind => by rw [hevents], by rw [hqueue],
      fun w stage' => by rw [hworkers], by rw [hfds]⟩)
    (hqueue ▸ h.queue_nodup) (hevents ▸ h.batch_nodup) ?_
  · rw [hat']
    cases next with
    | none => simp
    | some stage'' => simp
  · rw [hevents, hold.batch]
    cases next <;> simp
  · rw [hqueue, hold.queue]
    cases next <;> simp
  · rw [hworkers, hold.worker]
    cases next <;> simp
  · rw [hfds, hold.client]
    cases next <;> simp
  · rw [hat', hat]
    cases next <;> simp [Ne.symm hfd]
  · rw [hworkers, hfds]
    exact h.files

/-- `main` comes to the next event of its batch. -/
theorem Phased.take (h : Phased s phase) {fd₀ : Nat} {kind : EventKind} {events : List Event}
    (hmain : s.main = .loop (.client fd₀ kind :: events)) {stage : MainStage}
    (hat' : after.main.at = some (fd₀, stage)) (hevents : after.main.events = events)
    (hqueue : after.queue = s.queue) (hworkers : after.workers = s.workers)
    (hfds : after.fds = s.fds) : Phased after (update phase fd₀ (.main stage)) := by
  have hbatch : s.main.events = .client fd₀ kind :: events := by
    rw [hmain]
    rfl
  have hat : s.main.at = none := by
    rw [hmain]
    rfl
  have hphase : phase fd₀ = .reported kind := by
    rw [← (h.located fd₀).batch, hbatch]
    exact List.mem_cons_self
  have hnodup := h.batch_nodup
  rw [hbatch, clientsOf_client, List.nodup_cons] at hnodup
  have hold := h.located fd₀
  rw [hphase] at hold
  refine h.move ⟨fun stage' => ?_, fun kind' => ?_, ?_, fun w stage' => ?_, ?_⟩
    (fun fd hfd => ⟨fun stage' => ?_, fun kind' => ?_, by rw [hqueue],
      fun w stage' => by rw [hworkers], by rw [hfds]⟩)
    (hqueue ▸ h.queue_nodup) (hevents ▸ hnodup.2) ?_
  · rw [hat']
    simp
  · rw [hevents]
    simp only [reduceCtorEq, iff_false]
    exact fun hmem => hnodup.1 (mem_clientsOf.mpr ⟨kind', hmem⟩)
  · rw [hqueue, hold.queue]
    simp
  · rw [hworkers, hold.worker]
    simp
  · rw [hfds, hold.client]
    simp
  · rw [hat', hat]
    simp [Ne.symm hfd]
  · rw [hevents, hbatch, List.mem_cons, Event.client.injEq]
    simp [hfd]
  · rw [hworkers, hfds]
    exact h.files

/-- A step of a worker on the slot it acts on. -/
theorem Phased.worker_step [DecidableEq ι] (h : Phased s phase) {fd₀ : Nat} {w₀ : ι}
    {stage : WorkerStage} (hat : (s.workers w₀).at = some (fd₀, stage)) (pc : WorkerPc)
    (next : Option WorkerStage) (hat' : pc.at = next.map fun stage => (fd₀, stage))
    (hmain : after.main = s.main) (hqueue : after.queue = s.queue)
    (hworkers : after.workers = update s.workers w₀ pc)
    (hclient : ∀ fd, after.fds fd = some .client ↔ s.fds fd = some .client)
    (hfiles : ∀ w fd fs fellOff file, after.workers w = .mapping fd fs fellOff file →
      after.fds file = some (.file w)) :
    Phased after (update phase fd₀ (next.elim .idle (.worker w₀))) := by
  have hphase : phase fd₀ = .worker w₀ stage := ((h.located fd₀).worker w₀ stage).mp hat
  have hnew : (after.workers w₀).at = next.map fun stage => (fd₀, stage) := by
    rw [hworkers, update_self, hat']
  have hold' : ∀ w, w ≠ w₀ → after.workers w = s.workers w := by
    intro w hw
    rw [hworkers, update_of_ne hw]
  have hold := h.located fd₀
  rw [hphase] at hold
  refine h.move ⟨fun stage' => ?_, fun kind => ?_, ?_, fun w stage' => ?_, ?_⟩
    (fun fd hfd => ⟨fun stage' => by rw [hmain], fun kind => by rw [hmain], by rw [hqueue],
      fun w stage' => ?_, hclient fd⟩)
    (hqueue ▸ h.queue_nodup) (hmain ▸ h.batch_nodup) hfiles
  · rw [hmain, hold.main]
    cases next <;> simp
  · rw [hmain, hold.batch]
    cases next <;> simp
  · rw [hqueue, hold.queue]
    cases next <;> simp
  · by_cases hw : w = w₀
    · rw [hw, hnew]
      cases next <;> simp
    · rw [hold' w hw, hold.worker]
      cases next <;> simp [Ne.symm hw]
  · rw [hclient, hold.client]
    cases next <;> simp
  · by_cases hw : w = w₀
    · rw [hw, hnew, hat]
      cases next <;> simp [Ne.symm hfd]
    · rw [hold' w hw]

end Moves

/-- The step of the server behind a step of the slot `fd`, for the steps of a
slot that conditions on runs speak of. -/
def LabelFor (s : Server ι) (label : Label ι) (fd : Nat) : SlotLabel → Prop
  | .accept => label = .accept fd
  | .allow => label = .allow ∧ ∃ events, s.main = .accepted fd events
  | .drop => label = .append ∧ s.main.at = some (fd, .appending) ∧
      s.queue.length > MAX_REQUESTS
  | .hangup => label = .hangup ∧ ∃ events, s.main = .loop (.client fd .hangup :: events)
  | .process fs fellOff => ∃ w, label = .process w fs fellOff ∧
      (s.workers w).at = some (fd, .processing)
  | .close => label = .close ∧ s.main.at = some (fd, .closing)
  | _ => True

/-- What a step of the server is for the slot `fd`. -/
inductive Projects (s : Server ι) (label : Label ι) (fd : Nat) (before after : Slot ι) : Prop
  | stay (h : after = before)
  | step {l : SlotLabel} (hstep : SlotStep fd before l after) (hlabel : LabelFor s label fd l)

/-- A step of the server, seen from every slot. -/
def Projected (s : Server ι) (label : Label ι) (after : Server ι) (phase : Nat → Phase ι) :
    Prop :=
  ∃ phase', Phased after phase' ∧
    ∀ fd, Projects s label fd (s.slot phase fd) (after.slot phase' fd)

section Projection

variable {s after : Server ι} {phase : Nat → Phase ι} {label : Label ι}

/-- No slot is touched. -/
theorem Phased.project_stay (h : Phased after phase) (husers : after.users = s.users)
    (hepoll : after.epoll = s.epoll) (hcalls : after.calls = s.calls) :
    Projected s label after phase := by
  refine ⟨phase, h, fun fd => .stay ?_⟩
  rw [Server.slot, husers, hepoll, hcalls]
  rfl

/-- One slot is touched. -/
theorem Phased.project {fd₀ : Nat} {p : Phase ι} (h : Phased after (update phase fd₀ p))
    {l : SlotLabel} {b : Slot ι} (hstep : SlotStep fd₀ (s.slot phase fd₀) l b)
    (hslot : b = ⟨p, after.users fd₀, after.epoll fd₀, after.calls fd₀⟩)
    (hlabel : LabelFor s label fd₀ l)
    (hother : ∀ fd, fd ≠ fd₀ → after.users fd = s.users fd ∧ after.epoll fd = s.epoll fd ∧
      after.calls fd = s.calls fd) : Projected s label after phase := by
  refine ⟨_, h, fun fd => ?_⟩
  by_cases hfd : fd = fd₀
  · subst hfd
    have hnew : after.slot (update phase fd p) fd = b := by
      rw [hslot, Server.slot, update_self]
    rw [hnew]
    exact .step hstep hlabel
  · obtain ⟨husers, hepoll, hcalls⟩ := hother fd hfd
    refine .stay ?_
    rw [Server.slot, update_of_ne hfd, husers, hepoll, hcalls]
    rfl

/-- The new connection gets a slot that is unused. -/
theorem Phased.accept (h : Phased s phase) {connfd : Nat} {events : List Event}
    (hmain : s.main = .loop (.listening :: events)) (hunused : s.fds connfd = none) :
    phase connfd = .unused ∧
      Phased { s with main := .accepted connfd events,
                      fds := update s.fds connfd (some .client) }
        (update phase connfd (.main .accepted)) := by
  have hphase : phase connfd = .unused := by
    by_contra hne
    have hclient := (h.located connfd).client.mpr hne
    rw [hunused] at hclient
    cases hclient
  have hevents : s.main.events = .listening :: events := by
    rw [hmain]
    rfl
  have hat : s.main.at = none := by
    rw [hmain]
    rfl
  have hnodup := h.batch_nodup
  rw [hevents, clientsOf_listening] at hnodup
  have hold := h.located connfd
  rw [hphase] at hold
  refine ⟨hphase, h.move
    ⟨fun stage => by simp [MainPc.at, eq_comm], fun kind => ?_, ?_, fun w stage => ?_, ?_⟩
    (fun fd hfd => ⟨fun stage => ?_, fun kind => ?_, Iff.rfl, fun _ _ => Iff.rfl, ?_⟩)
    h.queue_nodup hnodup ?_⟩
  · have hbatch := hold.batch kind
    rw [hevents] at hbatch
    simpa [MainPc.events] using hbatch
  · simpa using hold.queue
  · simpa using hold.worker w stage
  · simp
  · rw [hat]
    simp [MainPc.at, Ne.symm hfd]
  · rw [hevents]
    simp [MainPc.events]
  · dsimp only
    rw [update_of_ne hfd]
  · exact fun _ _ _ _ _ hworker => h.files_of_fd (by rw [hunused]; exact fun _ => nofun) hworker

/-- A refused connection gives its slot back. -/
theorem Phased.showError (h : Phased s phase) {connfd : Nat} {events : List Event}
    (hmain : s.main = .refusing connfd events) :
    phase connfd = .main .refusing ∧
      Phased { s with main := .loop events, fds := update s.fds connfd none }
        (update phase connfd .unused) := by
  have hat : s.main.at = some (connfd, .refusing) := by
    rw [hmain]
    rfl
  have hevents : s.main.events = events := by
    rw [hmain]
    rfl
  have hphase : phase connfd = .main .refusing := ((h.located connfd).main _).mp hat
  have hold := h.located connfd
  rw [hphase] at hold
  refine ⟨hphase, h.move
    ⟨fun stage => by simp [MainPc.at], fun kind => ?_, ?_, fun w stage => ?_, ?_⟩
    (fun fd hfd => ⟨fun stage => ?_, fun kind => ?_, Iff.rfl, fun _ _ => Iff.rfl, ?_⟩)
    h.queue_nodup (hevents ▸ h.batch_nodup) ?_⟩
  · have hbatch := hold.batch kind
    rw [hevents] at hbatch
    simpa [MainPc.events] using hbatch
  · simpa using hold.queue
  · simpa using hold.worker w stage
  · simp
  · rw [hat]
    simp [MainPc.at, Ne.symm hfd]
  · rw [hevents]
    rfl
  · dsimp only
    rw [update_of_ne hfd]
  · have hclient := (h.located connfd).client.mpr (by rw [hphase]; exact nofun)
    exact fun _ _ _ _ _ hworker => h.files_of_fd (by rw [hclient]; exact fun _ => nofun) hworker

/-- `append` puts the slot behind the queue. -/
theorem Phased.append (h : Phased s phase) {fd₀ : Nat} {events : List Event}
    (hmain : s.main = .appending fd₀ events) :
    phase fd₀ = .main .appending ∧
      Phased { s with main := .posting events, queue := s.queue ++ [fd₀] }
        (update phase fd₀ .queued) := by
  have hat : s.main.at = some (fd₀, .appending) := by
    rw [hmain]
    rfl
  have hevents : s.main.events = events := by
    rw [hmain]
    rfl
  have hphase : phase fd₀ = .main .appending := ((h.located fd₀).main _).mp hat
  have hfresh : fd₀ ∉ s.queue := by
    rw [(h.located fd₀).queue, hphase]
    exact nofun
  have hold := h.located fd₀
  rw [hphase] at hold
  refine ⟨hphase, h.move
    ⟨fun stage => by simp [MainPc.at], fun kind => ?_, by simp, fun w stage => ?_, ?_⟩
    (fun fd hfd => ⟨fun stage => ?_, fun kind => ?_, by simp [hfd], fun _ _ => Iff.rfl, Iff.rfl⟩)
    ?_ (hevents ▸ h.batch_nodup) h.files⟩
  · have hbatch := hold.batch kind
    rw [hevents] at hbatch
    simpa [MainPc.events] using hbatch
  · simpa using hold.worker w stage
  · simpa using hold.client
  · rw [hat]
    simp [MainPc.at, Ne.symm hfd]
  · rw [hevents]
    rfl
  · rw [List.nodup_append]
    refine ⟨h.queue_nodup, List.pairwise_singleton _ _, ?_⟩
    intro a ha b hb hab
    rw [List.mem_singleton] at hb
    rw [hab, hb] at ha
    exact hfresh ha

/-- A worker takes the first slot of the queue. -/
theorem Phased.pop [DecidableEq ι] (h : Phased s phase) {w₀ : ι} {fd₀ : Nat} {rest : List Nat}
    (hworker : s.workers w₀ = .woken) (hqueue : s.queue = fd₀ :: rest) :
    phase fd₀ = .queued ∧
      Phased { s with workers := update s.workers w₀ (.processing fd₀), queue := rest }
        (update phase fd₀ (.worker w₀ .processing)) := by
  have hphase : phase fd₀ = .queued := by
    rw [← (h.located fd₀).queue, hqueue]
    exact List.mem_cons_self
  have hnodup := h.queue_nodup
  rw [hqueue, List.nodup_cons] at hnodup
  have hat : (s.workers w₀).at = none := by
    rw [hworker]
    rfl
  have hold := h.located fd₀
  rw [hphase] at hold
  refine ⟨hphase, h.move
    ⟨fun stage => ?_, fun kind => ?_, by simp [hnodup.1], fun w stage => ?_, ?_⟩
    (fun fd hfd => ⟨fun _ => Iff.rfl, fun _ => Iff.rfl, ?_, fun w stage => ?_, Iff.rfl⟩)
    hnodup.2 h.batch_nodup ?_⟩
  · simpa using hold.main stage
  · simpa using hold.batch kind
  · by_cases hw : w = w₀
    · subst hw
      simp [WorkerPc.at, eq_comm]
    · have hother := hold.worker w stage
      simpa [update_of_ne hw, Ne.symm hw] using hother
  · simpa using hold.client
  · rw [hqueue]
    simp [hfd]
  · by_cases hw : w = w₀
    · subst hw
      simp [WorkerPc.at, hworker, Ne.symm hfd]
    · simp [update_of_ne hw]
  · exact fun w fd fs fellOff file hmapping => (h.files_of_update hmapping fun _ _ _ _ => nofun).2

/-- A report: the slots of the batch go from idle to reported. -/
theorem Phased.epollWait (h : Phased s phase)
    (hsteady : ∀ fd, Steady fd (s.slot phase fd)) {events : List Event}
    (hmain : s.main = .waiting) (hreports : Reports s.epoll events) :
    Projected s label { s with main := .loop events, epoll := disarm s.epoll events } phase := by
  have hat : s.main.at = none := by
    rw [hmain]
    rfl
  have hnone : s.main.events = [] := by
    rw [hmain]
    rfl
  have hidle : ∀ fd kind, Event.client fd kind ∈ events → phase fd = .idle := by
    intro fd kind hmem
    obtain ⟨ev, hentry, -⟩ := hreports.armed fd kind hmem
    have hreleased : (phase fd).Released := (hsteady fd).armed ev hentry
    have hnotMain : ∀ stage, phase fd ≠ .main stage := by
      intro stage hphase
      have hhere := ((h.located fd).main stage).mpr hphase
      rw [hat] at hhere
      cases hhere
    cases hphase : phase fd with
    | idle => rfl
    | main stage => exact absurd hphase (hnotMain stage)
    | unused | reported | queued | worker =>
        rw [hphase] at hreleased
        exact hreleased.elim
  refine ⟨fun fd => (kindOf fd events).elim (phase fd) .reported,
    ⟨fun fd => ?_, h.queue_nodup, hreports.nodup, h.files⟩, fun fd => ?_⟩
  · have hold := h.located fd
    cases hkind : kindOf fd events with
    | none =>
        refine hold.same ⟨fun stage => ?_, fun kind => ?_, Iff.rfl, fun _ _ => Iff.rfl, Iff.rfl⟩
        · rw [hat]
          simp [MainPc.at]
        · rw [hnone]
          change Event.client fd kind ∈ events ↔ _
          rw [← kindOf_eq_some hreports.nodup, hkind]
          simp
    | some kind =>
        have hmem := (kindOf_eq_some hreports.nodup).mp hkind
        have hphase := hidle fd kind hmem
        rw [hphase] at hold
        refine ⟨fun stage => by simp [MainPc.at], fun kind' => ?_, ?_, fun w stage => ?_, ?_⟩
        · change Event.client fd kind' ∈ events ↔ _
          rw [← kindOf_eq_some hreports.nodup, hkind]
          simp
        · simpa using hold.queue
        · simpa using hold.worker w stage
        · simpa using hold.client
  · cases hkind : kindOf fd events with
    | none =>
        have hout : fd ∉ clientsOf events := by
          rw [mem_clientsOf]
          rintro ⟨kind, hmem⟩
          rw [← kindOf_eq_some hreports.nodup, hkind] at hmem
          cases hmem
        refine .stay ?_
        simp [Server.slot, hkind, disarm, hout]
    | some kind =>
        have hmem := (kindOf_eq_some hreports.nodup).mp hkind
        obtain ⟨ev, hentry, hfits⟩ := hreports.armed fd kind hmem
        have hin : fd ∈ clientsOf events := mem_clientsOf.mpr ⟨kind, hmem⟩
        have hnew : Server.slot
            { s with main := .loop events, epoll := disarm s.epoll events }
              (fun fd => (kindOf fd events).elim (phase fd) .reported) fd =
            { s.slot phase fd with phase := .reported kind, entry := some .disarmed } := by
          simp [Server.slot, hkind, disarm, hin]
        rw [hnew]
        exact .step (SlotStep.report (hidle fd kind hmem) hentry hfits) trivial

/-- What `process` does, with or without a file of the worker to close. -/
theorem Phased.process [DecidableEq ι] (h : Phased s phase) {w : ι} {fd : Nat}
    {fs : List Byte → FsAnswer} {fellOff : Option HttpCode}
    (hat : (s.workers w).at = some (fd, .processing))
    (hafter : after =
      { s with
        workers := update s.workers w
          (.rearming fd ((s.users fd).process fs fellOff s.userCount).2.2)
        users := update s.users fd ((s.users fd).process fs fellOff s.userCount).1
        userCount := ((s.users fd).process fs fellOff s.userCount).2.1
        fds := after.fds
        calls := update s.calls fd
          (s.calls fd ++ ((s.users fd).process fs fellOff s.userCount).2.2) })
    (hclient : ∀ n, after.fds n = some .client ↔ s.fds n = some .client)
    (hfiles : ∀ w' file, w' ≠ w → s.fds file = some (.file w') →
      after.fds file = some (.file w')) :
    Projected s (.process w fs fellOff) after phase := by
  have hphase : phase fd = .worker w .processing := ((h.located fd).worker w _).mp hat
  have hmoved : Phased after _ := h.worker_step hat _ (some (.rearming
    ((s.users fd).process fs fellOff s.userCount).2.2)) rfl (by rw [hafter]) (by rw [hafter])
    (by rw [hafter]) hclient (by
      intro w' n fs' fellOff' file hmapping
      rw [hafter] at hmapping
      obtain ⟨hw, hfile⟩ := h.files_of_update hmapping fun _ _ _ _ => nofun
      exact hfiles w' file hw hfile)
  refine hmoved.project (SlotStep.process s.userCount hphase) ?_ ⟨w, rfl, hat⟩ ?_
  · rw [hafter]
    simp [Server.slot]
  · intro n hn
    rw [hafter]
    simp [update_of_ne hn]

/-- A step of `main` that touches only the slot it acts on. -/
theorem Phased.project_main (h : Phased s phase) (fd₀ : Nat) {stage : MainStage}
    (hat : s.main.at = some (fd₀, stage)) (next : Option MainStage)
    (hat' : after.main.at = next.map fun stage => (fd₀, stage))
    (hevents : after.main.events = s.main.events) (hqueue : after.queue = s.queue)
    (hworkers : after.workers = s.workers) (hfds : after.fds = s.fds)
    {l : SlotLabel} {b : Slot ι}
    (hstep : phase fd₀ = .main stage → SlotStep fd₀ (s.slot phase fd₀) l b)
    (hslot : b = ⟨next.elim .idle .main, after.users fd₀, after.epoll fd₀, after.calls fd₀⟩)
    (hlabel : LabelFor s label fd₀ l)
    (hother : ∀ fd, fd ≠ fd₀ → after.users fd = s.users fd ∧ after.epoll fd = s.epoll fd ∧
      after.calls fd = s.calls fd) : Projected s label after phase := by
  have hphase : phase fd₀ = .main stage := ((h.located fd₀).main stage).mp hat
  exact (h.main_step hat next hat' hevents hqueue hworkers hfds).project (hstep hphase) hslot
    hlabel hother

/-- A step of `main` that takes the next event. -/
theorem Phased.project_take (h : Phased s phase) {fd₀ : Nat} {kind : EventKind}
    {events : List Event} (hmain : s.main = .loop (.client fd₀ kind :: events)) {pc : MainPc}
    {stage : MainStage} (hat' : pc.at = some (fd₀, stage)) (hevents : pc.events = events)
    {l : SlotLabel}
    (hstep : phase fd₀ = .reported kind →
      SlotStep fd₀ (s.slot phase fd₀) l { s.slot phase fd₀ with phase := .main stage })
    (hlabel : LabelFor s label fd₀ l) : Projected s label { s with main := pc } phase := by
  have hphase : phase fd₀ = .reported kind := by
    rw [← (h.located fd₀).batch, hmain]
    exact List.mem_cons_self
  have hmoved : Phased { s with main := pc } (update phase fd₀ (.main stage)) :=
    h.take hmain hat' hevents rfl rfl rfl
  exact hmoved.project (hstep hphase) rfl hlabel fun _ _ => ⟨rfl, rfl, rfl⟩

/-- A step that moves no slot and changes neither the batch nor the
descriptors. -/
theorem Phased.project_same (h : Phased s phase) (hat : after.main.at = s.main.at)
    (hevents : after.main.events = s.main.events) (hqueue : after.queue = s.queue)
    (hworkers : ∀ w, (after.workers w).at = (s.workers w).at)
    (hmapping : ∀ w fd fs fellOff file, after.workers w = .mapping fd fs fellOff file →
      s.workers w = .mapping fd fs fellOff file)
    (hfds : after.fds = s.fds) (husers : after.users = s.users) (hepoll : after.epoll = s.epoll)
    (hcalls : after.calls = s.calls) : Projected s label after phase := by
  refine (h.stay hat (fun fd kind => by rw [hevents]) (hevents ▸ h.batch_nodup) hqueue hworkers
    (fun fd => by rw [hfds]) ?_).project_stay husers hepoll hcalls
  intro w fd fs fellOff file hworker
  rw [hfds]
  exact h.files w fd fs fellOff file (hmapping w fd fs fellOff file hworker)

variable [DecidableEq ι]

/-- A worker between two of its tasks. -/
theorem Phased.project_worker (h : Phased s phase) {w₀ : ι} {pc : WorkerPc} {tasks : Nat}
    (hold : (s.workers w₀).at = none) (hnew : pc.at = none) :
    Projected s label { s with workers := update s.workers w₀ pc, tasks := tasks } phase := by
  refine h.project_same rfl rfl rfl (fun w => ?_) (fun w fd fs fellOff file hmapping => ?_) rfl rfl
    rfl rfl
  · by_cases hw : w = w₀
    · subst hw
      dsimp only
      rw [update_self, hold, hnew]
    · dsimp only
      rw [update_of_ne hw]
  · by_cases hw : w = w₀
    · subst hw
      dsimp only at hmapping
      rw [update_self] at hmapping
      rw [hmapping] at hnew
      cases hnew
    · dsimp only at hmapping
      rw [update_of_ne hw] at hmapping
      exact hmapping

/-- The calls made for a slot leave the epoll entries of the others alone. -/
theorem runCalls_other {fd n : Nat} {calls : List SysCall} (hn : n ≠ fd)
    (hcalls : ∀ m ev, SysCall.modfd m ev ∈ calls → m = fd ∨ m = -1)
    (epoll : Nat → Option EpollEntry) : runCalls epoll calls n = epoll n := by
  apply runEntry_of_other
  intro m ev hmem heq
  rcases hcalls m ev hmem with hown | hclosed
  · omega
  · omega

/-- A worker opens the file of a request. -/
theorem Phased.openFile (h : Phased s phase) {w : ι} {fd file : Nat}
    {fs : List Byte → FsAnswer} {fellOff : Option HttpCode}
    (hworker : s.workers w = .processing fd) (hunused : s.fds file = none) :
    Phased { s with
      workers := update s.workers w (.mapping fd fs fellOff file)
      fds := update s.fds file (some (.file w)) } phase := by
  refine h.stay rfl (fun _ _ => Iff.rfl) h.batch_nodup rfl (fun w' => ?_) (fun n => ?_) ?_
  · by_cases hw : w' = w
    · subst hw
      dsimp only
      rw [update_self, hworker]
      rfl
    · dsimp only
      rw [update_of_ne hw]
  · by_cases hn : n = file
    · subst hn
      simp [hunused]
    · dsimp only
      rw [update_of_ne hn]
  · intro w' n fs' fellOff' file' hmapping
    dsimp only at hmapping ⊢
    by_cases hw : w' = w
    · subst hw
      rw [update_self] at hmapping
      obtain ⟨-, -, -, rfl⟩ := WorkerPc.mapping.inj hmapping
      rw [update_self]
    · rw [update_of_ne hw] at hmapping
      exact h.files_of_fd (by rw [hunused]; exact fun _ => nofun) hmapping

/-- Every step of the server is, for every slot, a step of the slot or none at
all. -/
theorem Step.projected (hstep : Step s label after) (h : Phased s phase)
    (hsteady : ∀ fd, Steady fd (s.slot phase fd)) : Projected s label after phase := by
  cases hstep with
  | epollWait hmain hreports => exact h.epollWait hsteady hmain hreports
  | endBatch hmain =>
      exact h.project_same (by rw [hmain]; rfl) (by rw [hmain]; rfl) rfl (fun _ => rfl)
        (fun _ _ _ _ _ => id) rfl rfl rfl rfl
  | @acceptFailed events hmain =>
      have hnodup := h.batch_nodup
      rw [hmain] at hnodup
      have hstay : Phased { s with main := .loop events } phase :=
        h.stay (by rw [hmain]; rfl) (fun fd kind => by rw [hmain]; simp [MainPc.events]) hnodup
          rfl (fun _ => rfl) (fun _ => Iff.rfl) h.files
      exact hstay.project_stay rfl rfl rfl
  | accept hmain hlowest =>
      obtain ⟨hphase, hmoved⟩ := h.accept hmain hlowest.unused
      exact hmoved.project (SlotStep.accept hphase) rfl rfl fun _ _ => ⟨rfl, rfl, rfl⟩
  | refuse hmain hfull =>
      exact h.project_main _ (by rw [hmain]; rfl) (some .refusing) rfl (by rw [hmain]; rfl) rfl rfl
        rfl (fun hphase => SlotStep.refuse hphase) rfl trivial fun _ _ => ⟨rfl, rfl, rfl⟩
  | showError hmain =>
      obtain ⟨hphase, hmoved⟩ := h.showError hmain
      exact hmoved.project (SlotStep.showError hphase) rfl trivial fun _ _ => ⟨rfl, rfl, rfl⟩
  | allow hmain hroom =>
      exact h.project_main _ (by rw [hmain]; rfl) (some .admitted) rfl (by rw [hmain]; rfl) rfl rfl
        rfl (fun hphase => SlotStep.allow hphase) rfl ⟨rfl, _, hmain⟩ fun _ _ => ⟨rfl, rfl, rfl⟩
  | @addfd connfd events hmain =>
      refine h.project_main connfd (by rw [hmain]; rfl) (some .adding) rfl
        (by rw [hmain]; rfl) rfl rfl rfl (fun hphase => SlotStep.addfd hphase) ?_ trivial ?_
      · simp [Server.slot]
      · intro n hn
        simp [update_of_ne hn]
  | @initialise connfd events hmain =>
      refine h.project_main connfd (by rw [hmain]; rfl) none rfl (by rw [hmain]; rfl)
        rfl rfl rfl (fun hphase => SlotStep.initialise hphase) ?_ trivial ?_
      · simp [Server.slot]
      · intro n hn
        simp [update_of_ne hn]
  | hangup hmain =>
      exact h.project_take hmain rfl rfl (fun hphase => SlotStep.hangup hphase) ⟨rfl, _, hmain⟩
  | startRead hmain =>
      exact h.project_take hmain rfl rfl (fun hphase => SlotStep.startRead hphase) trivial
  | startWrite hmain =>
      exact h.project_take hmain rfl rfl (fun hphase => SlotStep.startWrite hphase) trivial
  | @read fd events outcomes ok conn hmain hread hbad =>
      refine h.project_main fd (by rw [hmain]; rfl)
        (some (if ok then .appending else .closing)) ?_ ?_ rfl rfl rfl
        (fun hphase => SlotStep.read hphase hread hbad) ?_ trivial ?_
      · cases ok <;> rfl
      · rw [hmain]
        cases ok <;> rfl
      · simp [Server.slot]
      · intro n hn
        simp [update_of_ne hn]
  | append hmain hroom =>
      obtain ⟨hphase, hmoved⟩ := h.append hmain
      exact hmoved.project (SlotStep.append hphase) rfl trivial fun _ _ => ⟨rfl, rfl, rfl⟩
  | @appendFull fd events hmain hfull =>
      exact h.project_main fd (by rw [hmain]; rfl) none rfl (by rw [hmain]; rfl) rfl rfl
        rfl (fun hphase => SlotStep.drop hphase) rfl ⟨rfl, by rw [hmain]; rfl, hfull⟩
        fun _ _ => ⟨rfl, rfl, rfl⟩
  | post hmain =>
      exact h.project_same (by rw [hmain]; rfl) (by rw [hmain]; rfl) rfl (fun _ => rfl)
        (fun _ _ _ _ _ => id) rfl rfl rfl rfl
  | @write fd events outcomes mem r hmain hwrite hbad =>
      have hat : s.main.at = some (fd, .writing) := by
        rw [hmain]
        rfl
      have hphase : phase fd = .main .writing := ((h.located fd).main _).mp hat
      have hentry : (s.slot phase fd).entry ≠ none :=
        (hsteady fd).has_entry (by rw [Server.slot, hphase]; exact id)
      have hown := (hsteady fd).own hentry
      refine h.project_main fd hat (some (.written r.ret)) rfl (by rw [hmain]; rfl) rfl rfl rfl
        (fun hphase => SlotStep.write hphase hwrite hbad) ?_ trivial ?_
      · simp [Server.slot, runCalls]
      · intro n hn
        refine ⟨update_of_ne hn _ _, runCalls_other hn ?_ _, update_of_ne hn _ _⟩
        intro m ev hmem
        rw [(HttpConn.write_sockfd hwrite).2.1 m ev hmem]
        exact hown
  | @wrote fd ret events hmain =>
      refine h.project_main fd (by rw [hmain]; rfl) (if ret then none else some .closing)
        ?_ ?_ rfl rfl rfl (fun hphase => SlotStep.wrote hphase) ?_ trivial
        fun _ _ => ⟨rfl, rfl, rfl⟩
      · cases ret <;> rfl
      · rw [hmain]
        cases ret <;> rfl
      · cases ret <;> rfl
  | @close fd events hmain =>
      refine h.project_main fd (by rw [hmain]; rfl) none rfl (by rw [hmain]; rfl)
        rfl rfl rfl (fun hphase => SlotStep.close s.userCount hphase) ?_
        ⟨rfl, by rw [hmain]; rfl⟩ ?_
      · simp [Server.slot]
      · intro n hn
        simp [update_of_ne hn]
  | wake hworker htask => exact h.project_worker (by rw [hworker]; rfl) rfl
  | starve hworker hempty => exact h.project_worker (by rw [hworker]; rfl) rfl
  | pop hworker hqueue =>
      obtain ⟨hphase, hmoved⟩ := h.pop hworker hqueue
      exact hmoved.project (SlotStep.pop hphase) rfl trivial fun _ _ => ⟨rfl, rfl, rfl⟩
  | @openFile w fd file fs fellOff answer hworker hanswer hopens hlowest =>
      exact (h.openFile hworker hlowest.unused).project_stay rfl rfl rfl
  | process hworker hanswer =>
      exact h.process (by rw [hworker]; rfl) rfl (fun _ => Iff.rfl) fun _ _ _ hfile => hfile
  | @processFile w fd file fs fellOff hworker =>
      have hfile := h.files w fd fs fellOff file hworker
      refine h.process (by rw [hworker]; rfl) rfl (fun n => ?_) ?_
      · by_cases hn : n = file
        · subst hn
          simp [hfile]
        · dsimp only
          rw [update_of_ne hn]
      · intro w' file' hw hother
        have hne : file' ≠ file := by
          rintro rfl
          rw [hfile, Option.some.injEq, FdUse.file.injEq] at hother
          exact hw hother.symm
        dsimp only
        rw [update_of_ne hne]
        exact hother
  | @rearm w fd calls hworker =>
      have hat : (s.workers w).at = some (fd, .rearming calls) := by
        rw [hworker]
        rfl
      have hphase : phase fd = .worker w (.rearming calls) := ((h.located fd).worker w _).mp hat
      have hentry : (s.slot phase fd).entry ≠ none :=
        (hsteady fd).has_entry (by rw [Server.slot, hphase]; exact id)
      have hown := (hsteady fd).own hentry
      obtain ⟨sys, ev, hcalls, hsys⟩ := (hsteady fd).rearming w calls hphase
      have hmoved : Phased
          { s with workers := update s.workers w .waiting, epoll := runCalls s.epoll calls }
          (update phase fd .idle) :=
        h.worker_step hat .waiting none rfl rfl rfl rfl (fun _ => Iff.rfl)
          fun _ _ _ _ _ hmapping => (h.files_of_update hmapping fun _ _ _ _ => nofun).2
      refine hmoved.project (SlotStep.rearm hphase) rfl trivial ?_
      intro n hn
      refine ⟨rfl, runCalls_other hn ?_ _, rfl⟩
      intro m ev' hmem
      rw [hcalls] at hmem
      rcases List.mem_append.mp hmem with hmem | hmem
      · exact absurd hmem (hsys m ev')
      · simp at hmem
        rw [hmem.1]
        exact hown

end Projection

/-- Before `main` enters its loop, every slot is unused. -/
theorem Starts.phased {s : Server ι} (h : Starts s) :
    Phased s (fun _ => .unused) ∧ ∀ fd, SlotStarts fd (s.slot (fun _ => .unused) fd) := by
  refine ⟨⟨fun fd => ⟨fun stage => ?_, fun kind => ?_, ?_, fun w stage => ?_, ?_⟩, ?_, ?_, ?_⟩,
    fun fd => ⟨rfl, h.sockfd fd, h.fileAddress fd, h.epoll fd, h.calls fd⟩⟩
  · simp [h.main, MainPc.at]
  · simp [h.main, MainPc.events]
  · simp [h.queue]
  · simp [h.workers, WorkerPc.at]
  · rw [h.fds]
    split <;> simp
  · rw [h.queue]
    exact List.nodup_nil
  · rw [h.main]
    exact List.nodup_nil
  · intro w fd fs fellOff file hworker
    rw [h.workers] at hworker
    cases hworker

/-- A step of a slot's run comes from a step of the server's run. -/
def Origin (fd : Nat) (origin : Server ι × Label ι) (entry : Slot ι × SlotLabel) : Prop :=
  entry.1.conn = origin.1.users fd ∧ LabelFor origin.1 origin.2 fd entry.2

variable [DecidableEq ι]

/-- A run of the server is, for every slot, a run of the slot system. -/
theorem run_phased {history : List (Server ι × Label ι)} {s : Server ι}
    (hrun : (unhit ι).Run history s) :
    ∃ phase, Phased s phase ∧ ∀ fd, ∃ slotHistory,
      (slotSystem ι fd).Run slotHistory (s.slot phase fd) ∧
        ∀ entry ∈ slotHistory, ∃ origin ∈ history, Origin fd origin entry := by
  induction hrun with
  | start hstart =>
      obtain ⟨hphased, hslots⟩ := Starts.phased hstart
      exact ⟨_, hphased, fun fd =>
        ⟨[], .start (hslots fd), fun _ hentry => absurd hentry List.not_mem_nil⟩⟩
  | @snoc history before after label _ hstep ih =>
      obtain ⟨phase, hphased, hslots⟩ := ih
      have hsteady : ∀ fd, Steady fd (before.slot phase fd) := by
        intro fd
        obtain ⟨slotHistory, hslotRun, -⟩ := hslots fd
        exact (slot_coherent ⟨slotHistory, hslotRun⟩).toSteady
      obtain ⟨phase', hphased', hprojects⟩ := Step.projected hstep hphased hsteady
      refine ⟨phase', hphased', fun fd => ?_⟩
      obtain ⟨slotHistory, hslotRun, horigin⟩ := hslots fd
      have hold : ∀ entry ∈ slotHistory, ∃ origin ∈ history ++ [(before, label)],
          Origin fd origin entry := by
        intro entry hentry
        obtain ⟨origin, hmem, hfrom⟩ := horigin entry hentry
        exact ⟨origin, List.mem_append_left _ hmem, hfrom⟩
      cases hprojects fd with
      | stay hsame =>
          rw [hsame]
          exact ⟨slotHistory, hslotRun, hold⟩
      | @step l hslotStep hlabel =>
          refine ⟨slotHistory ++ [(before.slot phase fd, l)], .snoc hslotRun hslotStep, ?_⟩
          intro entry hentry
          rcases List.mem_append.mp hentry with hentry | hentry
          · exact hold entry hentry
          · rw [List.mem_singleton] at hentry
            rw [hentry]
            exact ⟨(before, label), List.mem_append_right _ List.mem_cons_self, rfl, hlabel⟩

/-- Every reachable state of the server has its phases, and every slot is
coherent. -/
theorem reachable_phased {s : Server ι} (hreach : (unhit ι).Reachable s) :
    ∃ phase, Phased s phase ∧ ∀ fd, Coherent fd (s.slot phase fd) := by
  obtain ⟨history, hrun⟩ := hreach
  obtain ⟨phase, hphased, hslots⟩ := run_phased hrun
  refine ⟨phase, hphased, fun fd => ?_⟩
  obtain ⟨slotHistory, hslotRun, -⟩ := hslots fd
  exact slot_coherent ⟨slotHistory, hslotRun⟩

/-- `main` is in `init_conn`, `read`, `write` or `close_conn` of the slot, or
has it in hand before or between these calls. -/
def Server.MainOn (s : Server ι) (fd : Nat) : Prop :=
  ∃ stage, s.main.at = some (fd, stage)

/-- The worker is in `process` of the slot. -/
def Server.WorkerOn (s : Server ι) (w : ι) (fd : Nat) : Prop :=
  ∃ stage, (s.workers w).at = some (fd, stage)

/-- In a run whose stores lie inside, no slot is in the hands of `main` and a
worker, or of two workers, and none is in the queue twice. -/
theorem handled_once {history : List (Server ι × Label ι)} {s : Server ι}
    (hrun : (server ι).Run history s)
    (hinside : ∀ entry ∈ history, StoresInside entry.1 entry.2) (fd : Nat) :
    ¬ (s.MainOn fd ∧ ∃ w, s.WorkerOn w fd) ∧
      (∀ w w', s.WorkerOn w fd → s.WorkerOn w' fd → w = w') ∧ s.queue.count fd ≤ 1 := by
  obtain ⟨phase, hphased, -⟩ := reachable_phased ⟨history, run_unhit hrun hinside⟩
  have hlocated := hphased.located fd
  refine ⟨?_, ?_, List.nodup_iff_count.mp hphased.queue_nodup fd⟩
  · rintro ⟨⟨stage, hmain⟩, w, wstage, hworker⟩
    have hfirst := (hlocated.main stage).mp hmain
    have hsecond := (hlocated.worker w wstage).mp hworker
    rw [hfirst] at hsecond
    cases hsecond
  · rintro w w' ⟨stage, hworker⟩ ⟨stage', hworker'⟩
    have hfirst := (hlocated.worker w stage).mp hworker
    have hsecond := (hlocated.worker w' stage').mp hworker'
    rw [hfirst] at hsecond
    exact (Phase.worker.inj hsecond).1

/-- The slot of a client whose request is being processed. -/
theorem handled_once_processing :
    ∃ s : Server (Fin 8), (server (Fin 8)).Reachable s ∧ s.WorkerOn 0 (clientFd 0) ∧
      ¬ (s.MainOn (clientFd 0) ∧ ∃ w, s.WorkerOn w (clientFd 0)) ∧
      (∀ w w', s.WorkerOn w (clientFd 0) → s.WorkerOn w' (clientFd 0) → w = w') ∧
      s.queue.count (clientFd 0) ≤ 1 := by
  obtain ⟨history, s, h⟩ := exists_processing (0 : Fin 8) [0] (List.cons_ne_nil 0 []) (by decide)
  have hrun := run_server h.run
  have hinside := fun entry hentry => (h.steps entry hentry).inside
  refine ⟨s, ⟨history, hrun⟩, ⟨.processing, ?_⟩, handled_once hrun hinside (clientFd 0)⟩
  rw [h.worker]
  rfl

/-- A request whose store takes the last byte off `m_sockfd`. -/
theorem renaming_request :
    HttpConn.EndsOutside rootRequest [ascii "Content-Length: -59"] [] [] (-20) where
  isHead := ⟨by decide, ⟨_, _, rootRequest_line⟩, by decide, rfl⟩
  fits := by decide
  length := by decide
  complete := by decide
  index := by decide
  outside := by decide

/-- It makes the slot 261 arm the descriptor 256, while a worker has that
slot, and `main` takes it as well. -/
theorem handled_twice :
    ¬ ∀ s : Server (Fin 8), (server (Fin 8)).Reachable s → ∀ fd,
      ¬ (s.MainOn fd ∧ ∃ w, s.WorkerOn w fd) ∧
        (∀ w w', s.WorkerOn w fd → s.WorkerOn w' fd → w = w') ∧ s.queue.count fd ≤ 1 := by
  intro hall
  obtain ⟨history, s, h⟩ := exists_loaded (ι := Fin 8) 257 (by decide)
  have hqueue := List.length_eq_zero_iff.mp h.queue_length
  obtain ⟨first, -, hfirst⟩ := run_take h.run 0 (clientFd 251) h.main hqueue h.tasks (h.workers 0)
    (h.armed 251 (by decide) (by decide)) (h.users 251 (by decide) (by decide))
    (List.cons_ne_nil 0 []) (by decide)
  have hne : clientFd 256 ≠ clientFd 251 := by decide
  have hother : (1 : Fin 8) ≠ 0 := by decide
  have hconn : update s.users (clientFd 251) (HttpConn.recvBytes [0] (freshConn (clientFd 251)))
      (clientFd 256) = freshConn (clientFd 256) :=
    (update_of_ne hne _ _).trans (h.users 256 (by decide) (by decide))
  have harmed : update s.epoll (clientFd 251) (some .disarmed) (clientFd 256) =
      some (.armed .epollin) :=
    (update_of_ne hne _ _).trans (h.armed 256 (by decide) (by decide))
  have hworker : update s.workers 0 (.processing (clientFd 251)) 1 = .waiting :=
    (update_of_ne hother _ _).trans (h.workers 1)
  have hdata : headBytes rootRequest [ascii "Content-Length: -59"] [] ++ [] ≠ [] := by decide
  obtain ⟨second, -, hsecond⟩ := run_take hfirst 1 (clientFd 256) h.main hqueue h.tasks hworker
    harmed hconn hdata (by decide)
  have hbyte : (clearByte 32 (clientFd 256) 0).toInt = 256 := by decide
  obtain ⟨conn, third, -, hprocess⟩ := run_stray hsecond (update_self ..)
    (HttpConn.idle.setSockfd (clientFd 256)) (by dsimp only; rw [update_self]; rfl)
    renaming_request
    (hit_sockfd (n := clientFd 256) (k := 0) _ _ (by decide) (by decide) (by decide))
    256 (by dsimp only; rw [update_self, update_self, ← hbyte]; rfl)
  have hrearm := (run_server hprocess).snoc (Step.server (.rearm (update_self ..)) trivial)
  -- the slot with the descriptor 256 is still with the first worker
  have hreports : Reports
      (runCalls (update (update s.epoll (clientFd 251) (some .disarmed))
        (clientFd 256) (some .disarmed)) [.modfd 256 .epollout])
      [.client (clientFd 251) .output] := by
    refine reports_client (?_ : _ = some (EpollEntry.armed .epollout)) rfl
    rw [runCalls, update_of_ne hne.symm, update_self]
    rfl
  have hreport := hrearm.snoc (Step.server (.epollWait h.main hreports) trivial)
  have hwrite := hreport.snoc (Step.server (.startWrite rfl) trivial)
  refine (hall _ ⟨_, hwrite⟩ (clientFd 251)).1 ⟨⟨.writing, rfl⟩, 0, .processing, ?_⟩
  dsimp only
  rw [update_of_ne hother.symm, update_of_ne hother.symm, update_of_ne hother.symm, update_self]
  rfl

end LinuxLearning.Webserver
