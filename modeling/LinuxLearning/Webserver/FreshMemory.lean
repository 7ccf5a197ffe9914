/-
The server in any memory.  Neither `threadpool` sets `m_stop` nor `http_conn`
its fields, so what the process finds there takes part in its runs.  Two runs
with the same results and schedule are compared in what others see of them.
-/
import LinuxLearning.Webserver.Descriptors
import LinuxLearning.Webserver.Leftover

namespace LinuxLearning.Webserver

universe u

open Function

/-- What memory holds before the process writes there: `m_stop`, and the
objects of `users`. -/
structure Memory where
  stop : Bool
  users : Nat → HttpConn

/-- The server as `main` enters its loop in that memory. -/
def Memory.boot (ι : Type u) (memory : Memory) : Server ι :=
  { startServer with users := memory.users }

/-- The step is one of a worker. -/
def Label.OfWorker {ι : Type u} : Label ι → Prop
  | .wake _ | .starve _ | .pop _ | .openFile _ _ _ | .process _ _ _ | .rearm _ => True
  | _ => False

/-- One step in that memory: a worker that finds `m_stop` set has left `run`
before its first wait.  A store outside of `m_read_buf` hits nothing here: it
would set the same byte to zero in both memories. -/
inductive BootStep {ι : Type u} [DecidableEq ι] (stop : Bool) (s : Server ι) (label : Label ι) :
    Server ι → Prop
  | step {after : Server ι} (hruns : label.OfWorker → stop = false)
      (hstep : Step s label after) : BootStep stop s label after
  | returned (hlabel : label.OfWorker) (hstop : stop = true) : BootStep stop s label s

/-- The server in that memory. -/
def booted (ι : Type u) [DecidableEq ι] (memory : Memory) :
    TransitionSystem (Server ι) (Label ι) where
  start s := s = memory.boot ι
  step s label after := BootStep memory.stop s label after

/-- What others see of the server: descriptors that enter the epoll set,
requests that workers take, responses queued and bytes sent, both as functions
of the contents of the mapped files, and system calls. -/
inductive Visible (ι : Type u) where
  | added (fd : Nat)
  | took (w : ι) (fd : Nat)
  | queued (fd : Nat) (response : (Nat → Byte) → List (Option Byte))
  | sent (fd : Nat) (bytes : (Nat → Byte) → List (Option Byte))
  | called (call : SysCall)

/-- What a step shows.  The calls of `process` are shown with the last of
them. -/
def visible {ι : Type u} (s : Server ι) : Label ι → List (Visible ι)
  | .addfd =>
      match s.main with
      | .admitted connfd _ => [.added connfd]
      | _ => []
  | .pop w =>
      match s.workers w, s.queue with
      | .woken, fd :: _ => [.took w fd]
      | _, _ => []
  | .process w fs fellOff =>
      match (s.workers w).at with
      | some (fd, _) => ((s.users fd).queuedResponse fs fellOff).toList.map (.queued fd)
      | none => []
  | .rearm w =>
      match s.workers w with
      | .rearming _ calls => calls.map .called
      | _ => []
  | .write outcomes =>
      match s.main with
      | .writing fd _ =>
          .sent fd (fun mem => ((s.users fd).write mem outcomes).elim [] WriteResult.sent) ::
            (((s.users fd).write (fun _ => 0) outcomes).elim [] WriteResult.calls).map .called
      | _ => []
  | _ => []

/-- Any two runs in the two memories with the same results of system calls and
the same schedule show the same. -/
def SameBehaviour (ι : Type u) [DecidableEq ι] (memory memory' : Memory) : Prop :=
  TransitionSystem.SameTraces visible (booted ι memory) (booted ι memory')

variable {ι : Type u}

/-- What a step relies on, whatever the slots held at first. -/
structure Ordered (s : Server ι) : Prop where
  kept : FdsKept s
  phased : ∃ phase, Phased s phase ∧ ∀ fd, Steady fd (s.slot phase fd)

/-- `init_conn` has run on the slot. -/
def Server.Ready (s : Server ι) (fd : Nat) : Prop :=
  s.epoll fd ≠ none ∧ ∀ events, s.main ≠ .adding fd events

section Ordered

variable {s after : Server ι} {fd : Nat}

theorem Ordered.step [DecidableEq ι] {label : Label ι} (h : Ordered s)
    (hstep : Step s label after) : Ordered after := by
  obtain ⟨phase, hphased, hsteady⟩ := h.phased
  obtain ⟨phase', hphased', hprojects⟩ := Step.projected hstep hphased hsteady
  refine ⟨Step.fdsKept hstep h.kept, phase', hphased', fun fd => ?_⟩
  cases hprojects fd with
  | stay hsame =>
      rw [hsame]
      exact hsteady fd
  | step hslot _ => exact SlotStep.steady hslot (hsteady fd)

end Ordered

/-- Two states that differ in the leftover of slots, and of slots that are not
ready. -/
structure Twins (stop : Bool) (s s' : Server ι) : Prop where
  same : s' = { s with users := s'.users }
  ordered : Ordered s
  workers : stop = true → ∀ w, s.workers w = .waiting
  file : stop = false → ∀ fd, SERVER_FDS ≤ fd → (s.users fd).SameFile (s'.users fd)
  adding : ∀ fd events, s.main = .adding fd events →
    (s'.users fd).sockfd = (s.users fd).sockfd
  alike : ∀ fd, s.Ready fd → HttpConn.Alike stop (s.users fd) (s'.users fd)

section Twins

variable {stop : Bool} {s after : Server ι} {users' : Nat → HttpConn}

/-- The slots that a step makes ready no sooner than it should. -/
def Later (s after : Server ι) (fd : Nat) : Prop :=
  after.Ready fd → s.Ready fd

/-- A step that leaves the slots alone. -/
theorem Twins.stay (h : Twins stop s { s with users := users' }) (hordered : Ordered after)
    (hworkers : stop = true → after.workers = s.workers) (husers : after.users = s.users)
    (hready : ∀ fd, Later s after fd)
    (hadding : ∀ fd events, after.main = .adding fd events → s.main = .adding fd events) :
    Twins stop after { after with users := users' } where
  same := rfl
  ordered := hordered
  workers := fun hstop => by
    rw [hworkers hstop]
    exact h.workers hstop
  file := by
    rw [husers]
    exact h.file
  adding := fun fd events hmain => by
    rw [husers]
    exact h.adding fd events (hadding fd events hmain)
  alike := fun fd hfd => by
    rw [husers]
    exact h.alike fd (hready fd hfd)

/-- `addfd` makes a slot one that is not ready yet, and agrees on the
descriptor. -/
theorem Twins.addfd (h : Twins stop s { s with users := users' }) {connfd : Nat}
    {events : List Event} (hmain : s.main = .admitted connfd events)
    (husers : after.users = update s.users connfd ((s.users connfd).setSockfd connfd))
    (hafter : after.main = .adding connfd events)
    (hepoll : ∀ fd, fd ≠ connfd → after.epoll fd = s.epoll fd)
    (hworkers : after.workers = s.workers) (hordered : Ordered after) :
    Twins stop after
      { after with users := update users' connfd ((users' connfd).setSockfd connfd) } where
  same := rfl
  ordered := hordered
  workers := by
    rw [hworkers]
    exact h.workers
  file := by
    intro hstop fd hfd
    have hfile := h.file hstop fd hfd
    dsimp only at hfile ⊢
    rw [husers]
    by_cases heq : fd = connfd
    · subst heq
      rw [update_self, update_self]
      exact ⟨hfile.address, hfile.size⟩
    · rw [update_of_ne heq, update_of_ne heq]
      exact hfile
  adding := by
    intro fd _ hadding
    obtain ⟨rfl, -⟩ := MainPc.adding.inj (hafter.symm.trans hadding)
    dsimp only
    rw [husers, update_self, update_self]
    rfl
  alike := by
    rintro fd ⟨hentry, hadding⟩
    have heq : fd ≠ connfd := by
      rintro rfl
      exact hadding events hafter
    rw [hepoll fd heq] at hentry
    dsimp only
    rw [husers, update_of_ne heq, update_of_ne heq]
    exact h.alike fd ⟨hentry, by rw [hmain]; exact fun _ => nofun⟩

variable [DecidableEq ι]

end Twins

/-- The kernel has no choice of a descriptor. -/
theorem Lowest.unique {fds : Nat → Option (FdUse ι)} {fd fd' : Nat} (h : Lowest fds fd)
    (h' : Lowest fds fd') : fd = fd' := by
  rcases Nat.lt_trichotomy fd fd' with hlt | heq | hgt
  · exact absurd h.unused (h'.least fd hlt)
  · exact heq
  · exact absurd h'.unused (h.least fd' hgt)

variable [DecidableEq ι]

omit [DecidableEq ι] in
/-- A worker that has returned shows nothing. -/
theorem visible_returned {s : Server ι} (hworkers : ∀ w, s.workers w = .waiting) {label : Label ι}
    (hlabel : label.OfWorker) : visible s label = [] := by
  cases label with
  | wake w | starve w | openFile w fs fellOff => rfl
  | pop w => rw [visible, hworkers]
  | process w fs fellOff =>
      rw [visible, hworkers]
      rfl
  | rearm w => rw [visible, hworkers]
  | _ => exact hlabel.elim

end LinuxLearning.Webserver
