/-
Which descriptor a new connection gets.  In use are the server's own, those of
the connections admitted so far, closed ones included, and the files the
workers have open.  None of this depends on what the slots hold.
-/
import LinuxLearning.Webserver.Load

namespace LinuxLearning.Webserver

universe u

open Function

/-- The descriptor `main` has accepted, up to `init_conn`. -/
def MainPc.fresh : MainPc → Option Nat
  | .accepted fd _ | .refusing fd _ | .admitted fd _ => some fd
  | _ => none

/-- The same up to the test of `m_user_count`, or `show_error`. -/
def MainPc.undecided : MainPc → Option Nat
  | .accepted fd _ | .refusing fd _ => some fd
  | _ => none

/-- The file a worker has open. -/
def WorkerPc.file : WorkerPc → Option Nat
  | .mapping _ _ _ file => some file
  | _ => none

variable {ι : Type u}

/-- The server keeps its own descriptors and no others, and what `main` and the
workers have open is theirs. -/
structure FdsKept (s : Server ι) : Prop where
  server : ∀ fd, s.fds fd = some .server ↔ fd < SERVER_FDS
  undecided : ∀ fd, s.main.undecided = some fd → s.fds fd = some .client
  files : ∀ w file, (s.workers w).file = some file → s.fds file = some (.file w)

section Kept

variable {s after : Server ι}

/-- No descriptor changes, and nobody has more. -/
theorem FdsKept.same (h : FdsKept s) (hfds : after.fds = s.fds)
    (hmain : ∀ fd, after.main.undecided = some fd → s.main.undecided = some fd)
    (hfiles : ∀ w file, (after.workers w).file = some file → (s.workers w).file = some file) :
    FdsKept after where
  server := hfds ▸ h.server
  undecided fd hat := hfds ▸ h.undecided fd (hmain fd hat)
  files w file hfile := hfds ▸ h.files w file (hfiles w file hfile)

/-- One descriptor changes its use. -/
theorem FdsKept.update_fd (h : FdsKept s) {fd : Nat} {use : Option (FdUse ι)}
    (hfds : after.fds = update s.fds fd use) (hold : s.fds fd ≠ some .server)
    (hnew : use ≠ some .server)
    (hmain : ∀ n, after.main.undecided = some n → update s.fds fd use n = some .client)
    (hfiles : ∀ w file, (after.workers w).file = some file →
      update s.fds fd use file = some (.file w)) : FdsKept after where
  server n := by
    rw [hfds]
    by_cases hn : n = fd
    · subst hn
      rw [update_self]
      exact ⟨fun huse => absurd huse hnew, fun hlt => absurd ((h.server n).mpr hlt) hold⟩
    · rw [update_of_ne hn]
      exact h.server n
  undecided := hfds ▸ hmain
  files := hfds ▸ hfiles

variable [DecidableEq ι]

omit [DecidableEq ι] in
/-- A descriptor that no file has changes its use. -/
theorem FdsKept.other_file (h : FdsKept s) {fd : Nat} {use : Option (FdUse ι)}
    (hold : ∀ w, s.fds fd ≠ some (.file w)) {w : ι} {file : Nat}
    (hfile : (s.workers w).file = some file) : update s.fds fd use file = some (.file w) := by
  have hopen := h.files w file hfile
  rw [update_of_ne, hopen]
  rintro rfl
  exact hold w hopen

/-- A worker that goes on without a file has none. -/
theorem file_of_update {workers : ι → WorkerPc} {w v : ι} {pc : WorkerPc} {file : Nat}
    (hpc : pc.file = none) (hfile : (update workers w pc v).file = some file) :
    v ≠ w ∧ (workers v).file = some file := by
  by_cases hv : v = w
  · rw [hv, update_self, hpc] at hfile
    cases hfile
  · rw [update_of_ne hv] at hfile
    exact ⟨hv, hfile⟩

theorem Step.fdsKept {label : Label ι} (hstep : Step s label after) (h : FdsKept s) :
    FdsKept after := by
  have hnew : ∀ {w v : ι} {pc : WorkerPc} {file : Nat}, pc.file = none →
      (update s.workers w pc v).file = some file → (s.workers v).file = some file :=
    fun hpc hfile => (file_of_update hpc hfile).2
  cases hstep with
  | accept hmain hlowest =>
      have hunused := hlowest.unused
      refine h.update_fd rfl (by rw [hunused]; exact nofun) nofun ?_
        fun w file => h.other_file (by rw [hunused]; exact nofun)
      rintro fd ⟨⟩
      exact update_self ..
  | showError hmain =>
      have hclient := h.undecided _ (by rw [hmain]; rfl)
      exact h.update_fd rfl (by rw [hclient]; exact nofun) nofun nofun
        fun w file => h.other_file (by rw [hclient]; exact nofun)
  | @openFile w fd file fs fellOff answer hworker hanswer hopens hlowest =>
      have hunused := hlowest.unused
      refine h.update_fd rfl (by rw [hunused]; exact nofun) nofun ?_ ?_
      · intro n hat
        have hclient := h.undecided n hat
        rw [update_of_ne, hclient]
        rintro rfl
        rw [hunused] at hclient
        cases hclient
      · intro v other hother
        by_cases hv : v = w
        · subst hv
          simp only [update_self] at hother
          cases hother
          exact update_self ..
        · simp only [update_of_ne hv] at hother
          exact h.other_file (by rw [hunused]; exact nofun) hother
  | @processFile w fd file fs fellOff hworker =>
      have hopen := h.files w file (by rw [hworker]; rfl)
      refine h.update_fd rfl (by rw [hopen]; exact nofun) nofun ?_ ?_
      · intro n hat
        have hclient := h.undecided n hat
        rw [update_of_ne, hclient]
        rintro rfl
        rw [hopen] at hclient
        cases hclient
      · intro v other hother
        obtain ⟨hv, hother⟩ := file_of_update rfl hother
        have hkept := h.files v other hother
        rw [update_of_ne, hkept]
        rintro rfl
        exact hv (FdUse.file.inj (Option.some.inj (hkept.symm.trans hopen)))
  | @read fd events outcomes ok conn hmain hread hbad =>
      exact h.same rfl (by cases ok <;> exact nofun) fun _ _ => id
  | @wrote fd ret events hmain =>
      exact h.same rfl (by cases ret <;> exact nofun) fun _ _ => id
  | wake | starve | pop | process | rearm => exact h.same rfl (fun _ => id) fun _ _ => hnew rfl
  | refuse hmain =>
      exact h.same rfl (by rw [hmain]; exact fun _ => id) fun _ _ => id
  | _ => exact h.same rfl nofun fun _ _ => id

end Kept

/-- The clients' descriptors are those of the connections admitted so far and
the one that `main` decides on, which it has from `accept`. -/
structure Admits (history : List (Server ι × Label ι)) (s : Server ι) : Prop extends
    FdsKept s where
  client : ∀ fd, s.fds fd = some .client ↔ Admitted history fd ∨ s.main.undecided = some fd
  apart : ∀ fd, s.main.undecided = some fd → ¬ Admitted history fd
  origin : ∀ fd, s.main.fresh = some fd → ∃ before, (before, .accept fd) ∈ history

section Admits

variable {history : List (Server ι × Label ι)} {s before after : Server ι} {label : Label ι}

theorem admitted_snoc {fd : Nat} : Admitted (history ++ [(before, label)]) fd ↔
    Admitted history fd ∨ label = .allow ∧ ∃ events, before.main = .accepted fd events := by
  simp only [Admitted, List.mem_append, List.mem_singleton]
  constructor
  · rintro ⟨entry, hold | rfl, hrest⟩
    · exact Or.inl ⟨entry, hold, hrest⟩
    · exact Or.inr hrest
  · rintro (⟨entry, hold, hrest⟩ | hrest)
    · exact ⟨entry, Or.inl hold, hrest⟩
    · exact ⟨_, Or.inr rfl, hrest⟩

theorem admitted_snoc_of_ne (hlabel : label ≠ .allow) {fd : Nat} :
    Admitted (history ++ [(before, label)]) fd ↔ Admitted history fd := by
  rw [admitted_snoc]
  exact or_iff_left fun hnew => hlabel hnew.1

/-- A step that neither accepts nor decides. -/
theorem Admits.same (h : Admits history before) (hkept : FdsKept after) (hlabel : label ≠ .allow)
    (hclient : ∀ fd, after.fds fd = some .client ↔ before.fds fd = some .client)
    (hundecided : after.main.undecided = before.main.undecided)
    (hfresh : ∀ fd, after.main.fresh = some fd → before.main.fresh = some fd) :
    Admits (history ++ [(before, label)]) after where
  toFdsKept := hkept
  client fd := by
    rw [hclient, h.client, admitted_snoc_of_ne hlabel, hundecided]
  apart fd := by
    rw [admitted_snoc_of_ne hlabel, hundecided]
    exact h.apart fd
  origin fd hat := by
    obtain ⟨earlier, hmem⟩ := h.origin fd (hfresh fd hat)
    exact ⟨earlier, List.mem_append_left _ hmem⟩

variable [DecidableEq ι]

theorem ServerStep.admits (hstep : ServerStep before label after) (h : Admits history before) :
    Admits (history ++ [(before, label)]) after := by
  obtain ⟨users, -, hstep⟩ := hstep
  have hkept := Step.fdsKept hstep ⟨h.server, h.undecided, h.files⟩
  have horigin : ∀ fd, before.main.fresh = some fd →
      ∃ earlier, (earlier, .accept fd) ∈ history ++ [(before, label)] := fun fd hat =>
    have ⟨earlier, hmem⟩ := h.origin fd hat
    ⟨earlier, List.mem_append_left _ hmem⟩
  cases hstep with
  | @accept connfd events hmain hlowest =>
      dsimp only at hmain hlowest
      have hunused : ¬ Admitted history connfd := fun hadmitted => by
        have hclient := (h.client connfd).mpr (Or.inl hadmitted)
        rw [hlowest.unused] at hclient
        cases hclient
      have hsame : ∀ fd, Admitted (history ++ [(before, .accept connfd)]) fd ↔
          Admitted history fd := fun _ => admitted_snoc_of_ne (by rintro ⟨⟩)
      refine ⟨hkept, fun fd => ?_, ?_, ?_⟩
      · rw [hsame]
        by_cases hfd : fd = connfd
        · subst hfd
          simp [MainPc.undecided]
        · have hclient := h.client fd
          rw [hmain] at hclient
          simpa [MainPc.undecided, update_of_ne hfd, Ne.symm hfd] using hclient
      · rintro fd ⟨⟩
        rwa [hsame]
      · rintro fd ⟨⟩
        exact ⟨before, List.mem_append_right _ List.mem_cons_self⟩
  | @allow connfd events hmain hroom =>
      dsimp only at hmain
      refine ⟨hkept, fun fd => ?_, nofun, ?_⟩
      · rw [admitted_snoc]
        refine (h.client fd).trans ?_
        simp only [hmain, MainPc.undecided, MainPc.accepted.injEq, exists_and_left, exists_eq',
          and_true, true_and, Option.some.injEq, reduceCtorEq, or_false]
      · rintro fd ⟨⟩
        exact horigin _ (by rw [hmain]; rfl)
  | @showError connfd events hmain =>
      dsimp only at hmain
      have hsame : ∀ fd, Admitted (history ++ [(before, .showError)]) fd ↔
          Admitted history fd := fun _ => admitted_snoc_of_ne (by rintro ⟨⟩)
      refine ⟨hkept, fun fd => ?_, nofun, nofun⟩
      rw [hsame]
      by_cases hfd : fd = connfd
      · subst hfd
        have hapart := h.apart fd (by rw [hmain]; rfl)
        simp [MainPc.undecided, hapart]
      · have hclient := h.client fd
        rw [hmain] at hclient
        simpa [MainPc.undecided, update_of_ne hfd, Ne.symm hfd] using hclient
  | @openFile w fd file fs fellOff answer hworker hanswer hopens hlowest =>
      refine h.same hkept nofun (fun n => ?_) rfl fun _ => id
      by_cases hn : n = file
      · subst hn
        have hunused : before.fds n = none := hlowest.unused
        simp [hunused]
      · simp [update_of_ne hn]
  | @processFile w fd file fs fellOff hworker =>
      have hopen := h.files w file (by dsimp only at hworker; rw [hworker]; rfl)
      refine h.same hkept nofun (fun n => ?_) rfl fun _ => id
      by_cases hn : n = file
      · subst hn
        simp [hopen]
      · simp [update_of_ne hn]
  | @refuse connfd events hmain =>
      dsimp only at hmain
      refine h.same hkept nofun (fun _ => Iff.rfl) (by rw [hmain]; rfl) ?_
      rw [hmain]
      exact fun _ => id
  | @read fd events outcomes ok conn hmain hread hbad =>
      dsimp only at hmain
      refine h.same hkept nofun (fun _ => Iff.rfl) ?_ ?_
      · rw [hmain]
        cases ok <;> rfl
      · cases ok <;> exact nofun
  | @wrote fd ret events hmain =>
      dsimp only at hmain
      refine h.same hkept nofun (fun _ => Iff.rfl) ?_ ?_
      · rw [hmain]
        cases ret <;> rfl
      · cases ret <;> exact nofun
  | wake | starve | pop | process | rearm =>
      exact h.same hkept nofun (fun _ => Iff.rfl) rfl fun _ => id
  | _ hmain =>
      dsimp only at hmain
      exact h.same hkept nofun (fun _ => Iff.rfl) (by rw [hmain]; rfl) nofun

theorem run_admits (hrun : (server ι).Run history s) : Admits history s := by
  induction hrun with
  | @start s hstart =>
      have hmain : s.main = .waiting := Starts.main hstart
      refine ⟨⟨fun fd => ?_, ?_, ?_⟩, fun fd => ?_, ?_, ?_⟩
      · rw [Starts.fds hstart]
        split <;> simp [*]
      · rw [hmain]
        exact nofun
      · intro w file
        rw [Starts.workers hstart]
        exact nofun
      · rw [Starts.fds hstart, hmain]
        split <;> simp [Admitted, MainPc.undecided]
      · rw [hmain]
        exact nofun
      · rw [hmain]
        exact nofun
  | snoc _ hstep ih => exact ServerStep.admits hstep ih

end Admits

/-- Some descriptor below MAX_FD is neither the server's, nor that of a
connection admitted before, nor a file of a worker. -/
def FdLeft (history : List (Server ι × Label ι)) (s : Server ι) : Prop :=
  ∃ fd < MAX_FD, SERVER_FDS ≤ fd ∧ ¬ Admitted history fd ∧ ∀ w, s.fds fd ≠ some (.file w)

variable [DecidableEq ι]

/-- A new connection gets a descriptor inside `users` exactly when one is
left. -/
theorem accept_inside {history : List (Server ι × Label ι)} {s after : Server ι} {connfd : Nat}
    (hrun : (server ι).Run history s) (hstep : ServerStep s (.accept connfd) after) :
    connfd < MAX_FD ↔ FdLeft history s := by
  obtain ⟨users, -, hstep⟩ := hstep
  cases hstep with
  | accept hmain hlowest =>
      dsimp only at hmain hlowest
      have hadmits := run_admits hrun
      have hunused : ∀ fd, s.fds fd = none ↔
          SERVER_FDS ≤ fd ∧ ¬ Admitted history fd ∧ ∀ w, s.fds fd ≠ some (.file w) := by
        intro fd
        have hclient : s.fds fd = some .client ↔ Admitted history fd := by
          simpa [hmain, MainPc.undecided] using hadmits.client fd
        rw [← Nat.not_lt, ← hadmits.server fd, ← hclient]
        cases huse : s.fds fd with
        | none => simp
        | some use =>
            cases use with
            | server => simp
            | client => simp
            | file w =>
                constructor
                · exact nofun
                · rintro ⟨-, -, hnot⟩
                  exact absurd rfl (hnot w)
      constructor
      · intro hinside
        exact ⟨connfd, hinside, (hunused connfd).mp hlowest.unused⟩
      · rintro ⟨fd, hinside, hleft⟩
        have hnone := (hunused fd).mpr hleft
        by_contra hout
        exact hlowest.least fd (by omega) hnone

/-- Whenever `main` is at `init_conn`, the descriptor is inside `users`
exactly when one was left there at its `accept`. -/
theorem admitted_inside {history : List (Server ι × Label ι)} {s : Server ι}
    (hrun : (server ι).Run history s) {connfd : Nat} {events : List Event}
    (hmain : s.main = .admitted connfd events) :
    connfd < MAX_FD ↔ ∃ earlier before later,
      history = earlier ++ (before, .accept connfd) :: later ∧ FdLeft earlier before := by
  have hinside : ∀ {earlier before later}, history = earlier ++ (before, .accept connfd) :: later →
      (connfd < MAX_FD ↔ FdLeft earlier before) := by
    rintro earlier before later rfl
    obtain ⟨hearlier, after, hstep⟩ := hrun.split
    exact accept_inside hearlier hstep
  constructor
  · intro hlt
    obtain ⟨before, hmem⟩ := (run_admits hrun).origin connfd (by rw [hmain]; rfl)
    obtain ⟨earlier, later, hhistory⟩ := List.append_of_mem hmem
    exact ⟨earlier, before, later, hhistory, (hinside hhistory).mp hlt⟩
  · rintro ⟨earlier, before, later, hhistory, hleft⟩
    exact (hinside hhistory).mpr hleft

/-- The first client is inside. -/
theorem admitted_inside_first :
    ∃ history, ∃ s : Server (Fin 8), (server (Fin 8)).Run history s ∧
      s.main = .admitted (clientFd 0) [] ∧
      (clientFd 0 < MAX_FD ↔ ∃ earlier before later,
        history = earlier ++ (before, .accept (clientFd 0)) :: later ∧ FdLeft earlier before) := by
  obtain ⟨tail, -, hallow⟩ := (loaded_start (ι := Fin 8)).allow (by decide)
  have hrun := run_server hallow
  exact ⟨_, _, hrun, rfl, admitted_inside hrun rfl⟩

/-- With 65531 clients the test of `m_user_count` passes, and the next one
gets the descriptor 65536. -/
theorem admitted_outside :
    ¬ ∀ s : Server (Fin 8), (server (Fin 8)).Reachable s →
      ∀ connfd events, s.main = .admitted connfd events → s.userCount < MAX_FD →
        connfd < MAX_FD := by
  intro hall
  obtain ⟨history, s, h⟩ := exists_loaded (ι := Fin 8) 65531 (by decide)
  obtain ⟨tail, -, hallow⟩ := h.allow (by decide)
  have hinside := hall _ ⟨_, run_server hallow⟩ (clientFd 65531) [] rfl (by
    dsimp only
    rw [h.userCount]
    decide)
  exact absurd hinside (by decide)

end LinuxLearning.Webserver
