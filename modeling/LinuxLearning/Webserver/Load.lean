/-
Runs of the server under load: any number of clients can be accepted one
behind the other, and any number of them can be read from and queued while the
workers do not get to run.
-/
import LinuxLearning.Webserver.Server

namespace LinuxLearning.Webserver

universe u

open Function

variable {ι : Type u}

/-- The server before its loop, with every slot closed. -/
def startServer : Server ι where
  users := fun _ => HttpConn.idle
  userCount := 0
  fds := fun fd => if fd < SERVER_FDS then some .server else none
  epoll := fun _ => none
  main := .waiting
  queue := []
  tasks := 0
  workers := fun _ => .waiting
  calls := fun _ => []

theorem starts_startServer : Starts (startServer : Server ι) where
  sockfd := by
    intro fd _
    change (-1 : Int) ≠ fd
    omega
  fileAddress := fun _ => rfl
  userCount := rfl
  fds := fun _ => rfl
  epoll := fun _ => rfl
  main := rfl
  queue := rfl
  tasks := rfl
  workers := fun _ => rfl
  calls := fun _ => rfl

/-- The connection `init_conn` makes of such a slot. -/
def freshConn (fd : Nat) : HttpConn := (HttpConn.idle.initConn fd 0).1

@[simp] theorem freshConn_readIdx (fd : Nat) : (freshConn fd).readIdx = 0 := rfl

/-- The descriptor of the client number `i`. -/
def clientFd (i : Nat) : Nat := SERVER_FDS + i

/-- A step that loads the server: no request is processed or answered, no
client is gone, and `users` and `append` have room. -/
def LoadStep (s : Server ι) : Label ι → Prop
  | .hangup | .process _ _ _ | .write _ => False
  | .addfd => ∀ connfd events, s.main = .admitted connfd events → connfd < MAX_FD
  | .append => s.queue.length ≤ MAX_REQUESTS
  | _ => True

theorem LoadStep.inside {s : Server ι} {label : Label ι} (h : LoadStep s label) :
    StoresInside s label := by
  cases label with
  | process => exact h.elim
  | _ => trivial

theorem LoadStep.slotInside {s : Server ι} {label : Label ι} (h : LoadStep s label) :
    SlotInside s label := by
  cases label with
  | addfd => exact h
  | _ => trivial

theorem LoadStep.unwritten {s : Server ι} {label : Label ι} (h : LoadStep s label)
    (outcomes : List WritevOutcome) : label ≠ .write outcomes := by
  rintro rfl
  exact h

theorem LoadStep.room {s : Server ι} {label : Label ι} (h : LoadStep s label)
    (hlabel : label = .append) : s.queue.length ≤ MAX_REQUESTS := by
  subst hlabel
  exact h

variable [DecidableEq ι]

/-- A run to a state in which `main` waits, `n` clients are connected, and the
first `q` of them are queued. -/
structure Loaded (history : List (Server ι × Label ι)) (s : Server ι) (n q : Nat) : Prop where
  run : (closedServer ι).Run history s
  initialised : ∀ i < n, Initialised history (clientFd i)
  steps : ∀ entry ∈ history, LoadStep entry.1 entry.2
  main : s.main = .waiting
  workers : ∀ w, s.workers w = .waiting
  userCount : s.userCount = n
  fds : ∀ fd, s.fds fd =
    if fd < SERVER_FDS then some .server else if fd < clientFd n then some .client else none
  fresh : ∀ fd, (∀ i < n, fd ≠ clientFd i) → s.users fd = HttpConn.idle
  users : ∀ i, q ≤ i → i < n → s.users (clientFd i) = freshConn (clientFd i)
  armed : ∀ i, q ≤ i → i < n → s.epoll (clientFd i) = some (.armed .epollin)
  queue_length : s.queue.length = q
  queue_lt : ∀ fd ∈ s.queue, fd < clientFd q
  tasks : s.tasks = q
  calls : ∀ fd, s.calls fd = []

theorem loaded_start : Loaded [] (startServer : Server ι) 0 0 where
  run := .start ⟨starts_startServer, fun _ => rfl⟩
  initialised := nofun
  steps := fun _ hmem => absurd hmem List.not_mem_nil
  main := rfl
  workers := fun _ => rfl
  userCount := rfl
  fds := by
    intro fd
    by_cases hfd : fd < SERVER_FDS <;> simp [startServer, clientFd, hfd]
  fresh := fun _ _ => rfl
  users := by
    intro i hi hlt
    omega
  armed := by
    intro i hi hlt
    omega
  queue_length := rfl
  queue_lt := fun _ hmem => absurd hmem List.not_mem_nil
  tasks := rfl
  calls := fun _ => rfl

theorem reports_listening (epoll : Nat → Option EpollEntry) : Reports epoll [.listening] where
  length_le := by decide
  nodup := List.nodup_nil
  armed := by simp

theorem reports_client {epoll : Nat → Option EpollEntry} {fd : Nat} {kind : EventKind}
    {ev : Interest} (hentry : epoll fd = some (.armed ev)) (hfits : kind.Fits ev) :
    Reports epoll [.client fd kind] where
  length_le := by
    change 1 ≤ MAX_EVENT_NUMBER
    decide
  nodup := List.pairwise_singleton _ _
  armed := by
    intro n other hmem
    rw [List.mem_singleton, Event.client.injEq] at hmem
    obtain ⟨rfl, rfl⟩ := hmem
    exact ⟨ev, hentry, hfits⟩

variable {history : List (Server ι × Label ι)} {s : Server ι} {n q : Nat}

section Clients

variable {fds : Nat → Option (FdUse ι)}

omit [DecidableEq ι] in
/-- With `n` clients, the next one gets the next descriptor. -/
theorem lowest_client (hfds : ∀ fd, fds fd =
      if fd < SERVER_FDS then some .server else if fd < clientFd n then some .client else none) :
    Lowest fds (clientFd n) where
  unused := by
    rw [hfds, if_neg (by simp [clientFd]), if_neg (Nat.lt_irrefl _)]
  least := by
    intro fd hfd
    rw [hfds, if_pos hfd]
    split <;> exact nofun

omit [DecidableEq ι] in
theorem fds_client (hfds : ∀ fd, fds fd =
      if fd < SERVER_FDS then some .server else if fd < clientFd n then some .client else none)
    (fd : Nat) : update fds (clientFd n) (some .client) fd =
      if fd < SERVER_FDS then some .server
      else if fd < clientFd (n + 1) then some .client else none := by
  by_cases hfd : fd = clientFd n
  · subst hfd
    simp [clientFd]
  · rw [update_of_ne hfd, hfds]
    have hsucc : fd < clientFd (n + 1) ↔ fd < clientFd n := by
      simp only [clientFd] at hfd ⊢
      omega
    rw [if_congr hsucc rfl rfl]

end Clients

/-- The descriptor the next client gets. -/
theorem Loaded.lowest (h : Loaded history s n q) : Lowest s.fds (clientFd n) :=
  lowest_client h.fds

/-- The next client comes as far as `init_conn`. -/
theorem Loaded.allow (h : Loaded history s n q) (hroom : n < MAX_FD) :
    ∃ tail, (∀ entry ∈ tail, LoadStep entry.1 entry.2) ∧ (closedServer ι).Run (history ++ tail)
      { s with main := .admitted (clientFd n) []
               fds := update s.fds (clientFd n) (some .client) } := by
  have hsame : disarm s.epoll [.listening] = s.epoll := by
    funext fd
    simp [disarm]
  have hwait := h.run.snoc (Step.server (.epollWait h.main (reports_listening s.epoll)) trivial)
  rw [hsame] at hwait
  have haccept := hwait.snoc (Step.server (.accept rfl h.lowest) trivial)
  have hcount : s.userCount < MAX_FD := by
    rw [h.userCount]
    omega
  have hallow := haccept.snoc (Step.server (.allow rfl hcount) trivial)
  simp only [List.append_assoc] at hallow
  exact ⟨_, by simp [LoadStep], hallow⟩

/-- The next client is accepted. -/
theorem Loaded.accept (h : Loaded history s n q) (hq : q ≤ n) (hroom : clientFd n < MAX_FD) :
    ∃ history', ∃ s' : Server ι, Loaded history' s' (n + 1) q := by
  obtain ⟨tail, htail, hallow⟩ := h.allow ((Nat.le_add_left n SERVER_FDS).trans_lt hroom)
  have hadd := hallow.snoc (Step.server (.addfd rfl) trivial)
  have hinit := hadd.snoc (Step.server (.initialise rfl) trivial)
  have hend := hinit.snoc (Step.server (.endBatch rfl) trivial)
  have hclient : ∀ {i}, i < n + 1 → i ≠ n → i < n := by omega
  have hne : ∀ {i}, i ≠ n → clientFd i ≠ clientFd n := by
    simp only [clientFd]
    omega
  refine ⟨_, _, hend, ?_, ?_, rfl, h.workers, ?_, ?_, ?_, ?_, ?_, h.queue_length, h.queue_lt,
    h.tasks, h.calls⟩
  · intro i hi
    by_cases hin : i = n
    · subst hin
      exact ⟨_, List.mem_append_left _ (List.mem_append_right _ List.mem_cons_self), rfl, _, rfl⟩
    · simp only [List.append_assoc]
      exact (h.initialised i (hclient hi hin)).mono _
  · intro entry hentry
    simp only [List.append_assoc, List.mem_append, List.mem_singleton] at hentry
    rcases hentry with hold | hnew | rfl | rfl | rfl
    · exact h.steps entry hold
    · exact htail entry hnew
    · rintro connfd events ⟨⟩
      exact hroom
    · trivial
    · trivial
  · simp [h.userCount]
  · exact fds_client h.fds
  · intro fd hfd
    have hne' := hfd n (Nat.lt_succ_self n)
    dsimp only
    rw [update_of_ne hne', update_of_ne hne']
    exact h.fresh fd fun i hi => hfd i (Nat.lt_succ_of_lt hi)
  · intro i hi hlt
    dsimp only
    by_cases hin : i = n
    · subst hin
      rw [update_self, update_self, h.fresh _ fun i hi => (hne (Nat.ne_of_lt hi)).symm]
      rfl
    · rw [update_of_ne (hne hin), update_of_ne (hne hin)]
      exact h.users i hi (hclient hlt hin)
  · intro i hi hlt
    dsimp only
    by_cases hin : i = n
    · subst hin
      rw [update_self]
    · rw [update_of_ne (hne hin)]
      exact h.armed i hi (hclient hlt hin)

/-- Any number of clients that `users` has room for can be connected at
once. -/
theorem exists_loaded (n : Nat) (hn : clientFd n ≤ MAX_FD) :
    ∃ history, ∃ s : Server ι, Loaded history s n 0 := by
  induction n with
  | zero => exact ⟨_, _, loaded_start⟩
  | succ n ih =>
      obtain ⟨history, s, h⟩ := ih (Nat.le_of_succ_le hn)
      exact h.accept (Nat.zero_le _) hn

section Requests

variable {data : List Byte}

/-- A new client sends something and is read from. -/
theorem run_read (hrun : (closedServer ι).Run history s) (fd : Nat) (hmain : s.main = .waiting)
    (harmed : s.epoll fd = some (.armed .epollin)) (hconn : s.users fd = freshConn fd)
    (hne : data ≠ []) (hfit : data.length ≤ READ_BUFFER_SIZE) :
    ∃ tail, (∀ entry ∈ tail, LoadStep entry.1 entry.2) ∧ (closedServer ι).Run (history ++ tail)
      { s with main := .appending fd []
               epoll := update s.epoll fd (some .disarmed)
               users := update s.users fd (HttpConn.recvBytes data (freshConn fd)) } := by
  have hreports : Reports s.epoll [.client fd .input] := reports_client harmed rfl
  have hsame : disarm s.epoll [.client fd .input] = update s.epoll fd (some .disarmed) := by
    funext n
    simp [disarm, update_apply]
  have hread : (s.users fd).read [.data data, .eagain] =
      some (true, HttpConn.recvBytes data (freshConn fd)) := by
    have hchunks : (freshConn fd).read ([data].map .data ++ [.eagain]) = _ :=
      HttpConn.read_chunks (by simp [READ_BUFFER_SIZE]) (by simpa using hne)
        (by simpa using hfit)
    rw [hconn]
    simpa using hchunks
  have hlive : (s.users fd).sockfd ≠ -1 := by
    rw [hconn]
    change (fd : Int) ≠ -1
    omega
  have hwait := hrun.snoc (Step.server (.epollWait hmain hreports) trivial)
  rw [hsame] at hwait
  have hstart := hwait.snoc (Step.server (.startRead rfl) trivial)
  have hrecv := hstart.snoc
    (Step.server (.read rfl hread fun hbad => absurd hbad hlive) trivial)
  simp only [List.append_assoc] at hrecv
  exact ⟨_, by simp [LoadStep], hrecv⟩

/-- A new client sends something, and a worker takes its slot. -/
theorem run_take (hrun : (closedServer ι).Run history s) (w : ι) (fd : Nat)
    (hmain : s.main = .waiting) (hqueue : s.queue = []) (htasks : s.tasks = 0)
    (hworker : s.workers w = .waiting) (harmed : s.epoll fd = some (.armed .epollin))
    (hconn : s.users fd = freshConn fd) (hne : data ≠ []) (hfit : data.length ≤ READ_BUFFER_SIZE) :
    ∃ tail, (∀ entry ∈ tail, LoadStep entry.1 entry.2) ∧ (closedServer ι).Run (history ++ tail)
      { s with epoll := update s.epoll fd (some .disarmed)
               users := update s.users fd (HttpConn.recvBytes data (freshConn fd))
               workers := update s.workers w (.processing fd) } := by
  obtain ⟨tail, htail, hread⟩ := run_read hrun fd hmain harmed hconn hne hfit
  obtain ⟨users, userCount, fds, epoll, main, queue, tasks, workers, calls⟩ := s
  dsimp only at hmain hqueue htasks hworker hread ⊢
  subst hmain hqueue htasks
  have hroom : ([] : List Nat).length ≤ MAX_REQUESTS := Nat.zero_le _
  have happend := hread.snoc (Step.server (.append rfl hroom) trivial)
  have hpost := happend.snoc (Step.server (.post rfl) trivial)
  have hend := hpost.snoc (Step.server (.endBatch rfl) trivial)
  have hwake := hend.snoc (Step.server (.wake hworker (by decide : 0 < 1)) trivial)
  have hpop := hwake.snoc (Step.server (.pop (update_self ..) rfl) trivial)
  simp only [List.append_assoc, update_idem] at hpop
  refine ⟨_, ?_, hpop⟩
  intro entry hentry
  simp only [List.mem_append, List.mem_singleton] at hentry
  rcases hentry with hold | rfl | rfl | rfl | rfl | rfl
  · exact htail entry hold
  · exact hroom
  · trivial
  · trivial
  · trivial
  · trivial

end Requests

/-- The first client that is not queued sends something and is read from. -/
theorem Loaded.read (h : Loaded history s n q) (hq : q < n) {data : List Byte}
    (hne : data ≠ []) (hfit : data.length ≤ READ_BUFFER_SIZE) :
    ∃ tail, (∀ entry ∈ tail, LoadStep entry.1 entry.2) ∧ (closedServer ι).Run (history ++ tail)
      { s with main := .appending (clientFd q) []
               epoll := update s.epoll (clientFd q) (some .disarmed)
               users := update s.users (clientFd q)
                 (HttpConn.recvBytes data (freshConn (clientFd q))) } :=
  run_read h.run _ h.main (h.armed q (Nat.le_refl _) hq) (h.users q (Nat.le_refl _) hq) hne hfit

/-- It is queued, unless the queue is full. -/
theorem Loaded.queue (h : Loaded history s n q) (hq : q < n) (hroom : q ≤ MAX_REQUESTS)
    {data : List Byte} (hne : data ≠ []) (hfit : data.length ≤ READ_BUFFER_SIZE) :
    ∃ history', ∃ s' : Server ι, Loaded history' s' n (q + 1) ∧
      s'.users (clientFd q) = HttpConn.recvBytes data (freshConn (clientFd q)) ∧
      s'.queue = s.queue ++ [clientFd q] := by
  obtain ⟨tail, htail, hread⟩ := h.read hq hne hfit
  have hlength : s.queue.length ≤ MAX_REQUESTS := by
    rw [h.queue_length]
    exact hroom
  have happend := hread.snoc (Step.server (.append rfl hlength) trivial)
  have hpost := happend.snoc (Step.server (.post rfl) trivial)
  have hend := hpost.snoc (Step.server (.endBatch rfl) trivial)
  have hne' : ∀ {i}, q + 1 ≤ i → clientFd i ≠ clientFd q := by
    simp only [clientFd]
    omega
  refine ⟨_, _, ⟨hend, ?_, ?_, rfl, h.workers, h.userCount, h.fds, ?_, ?_, ?_, ?_, ?_, ?_,
    h.calls⟩, update_self .., rfl⟩
  · intro i hi
    simp only [List.append_assoc]
    exact (h.initialised i hi).mono _
  · intro entry hentry
    simp only [List.append_assoc, List.mem_append, List.mem_singleton] at hentry
    rcases hentry with hold | hnew | rfl | rfl | rfl
    · exact h.steps entry hold
    · exact htail entry hnew
    · exact hlength
    · trivial
    · trivial
  · intro fd hfd
    dsimp only
    rw [update_of_ne (hfd q hq)]
    exact h.fresh fd hfd
  · intro i hi hlt
    dsimp only
    rw [update_of_ne (hne' hi)]
    exact h.users i (by omega) hlt
  · intro i hi hlt
    dsimp only
    rw [update_of_ne (hne' hi)]
    exact h.armed i (by omega) hlt
  · simp [h.queue_length]
  · intro fd hmem
    rcases List.mem_append.mp hmem with hold | hnew
    · have hlt := h.queue_lt fd hold
      simp only [clientFd] at hlt ⊢
      omega
    · rw [List.mem_singleton] at hnew
      rw [hnew]
      simp only [clientFd]
      omega
  · dsimp only
    rw [h.tasks]

/-- Any number of them can be queued, up to one more than the queue is made
for. -/
theorem exists_queued (n q : Nat) (hn : clientFd n ≤ MAX_FD) (hqn : q ≤ n)
    (hq : q ≤ MAX_REQUESTS + 1) : ∃ history, ∃ s : Server ι, Loaded history s n q := by
  induction q with
  | zero => exact exists_loaded n hn
  | succ q ih =>
      obtain ⟨history, s, h⟩ := ih (by omega) (by omega)
      obtain ⟨history', s', h', -⟩ := h.queue (by omega) (by omega) (List.cons_ne_nil 0 [])
        (by decide)
      exact ⟨history', s', h'⟩

/-- A client has sent something, and a worker has its slot. -/
structure Processing (history : List (Server ι × Label ι)) (s : Server ι) (w : ι)
    (data : List Byte) : Prop where
  run : (closedServer ι).Run history s
  steps : ∀ entry ∈ history, LoadStep entry.1 entry.2
  initialised : Initialised history (clientFd 0)
  queue : s.queue = []
  tasks : s.tasks = 0
  waiting : ∀ v, v ≠ w → s.workers v = .waiting
  worker : s.workers w = .processing (clientFd 0)
  conn : s.users (clientFd 0) = HttpConn.recvBytes data (freshConn (clientFd 0))
  others : ∀ fd, fd ≠ clientFd 0 → s.users fd = HttpConn.idle
  main : s.main = .waiting
  userCount : s.userCount = 1
  entry : s.epoll (clientFd 0) = some .disarmed
  calls : s.calls (clientFd 0) = []
  lowest : Lowest s.fds (clientFd 1)

theorem exists_processing (w : ι) (data : List Byte) (hne : data ≠ [])
    (hfit : data.length ≤ READ_BUFFER_SIZE) :
    ∃ history, ∃ s : Server ι, Processing history s w data := by
  obtain ⟨history, s, h⟩ := exists_loaded (ι := ι) 1 (by decide)
  have hqueue := List.length_eq_zero_iff.mp h.queue_length
  obtain ⟨tail, htail, htake⟩ := run_take h.run w _ h.main hqueue h.tasks (h.workers w)
    (h.armed 0 (Nat.le_refl _) (by decide)) (h.users 0 (Nat.le_refl _) (by decide)) hne hfit
  refine ⟨_, _, htake, ?_, (h.initialised 0 (by decide)).mono tail, hqueue, h.tasks,
    fun v hv => (update_of_ne hv _ _).trans (h.workers v), update_self ..,
    update_self (clientFd 0) _ s.users, fun fd hfd => ?_, h.main, h.userCount,
    update_self (clientFd 0) _ s.epoll, h.calls _, h.lowest⟩
  · rintro entry hentry
    rcases List.mem_append.mp hentry with hold | hnew
    · exact h.steps entry hold
    · exact htail entry hnew
  · refine (update_of_ne hfd _ _).trans (h.fresh fd fun i hi => ?_)
    rwa [Nat.lt_one_iff.mp hi]

end LinuxLearning.Webserver
