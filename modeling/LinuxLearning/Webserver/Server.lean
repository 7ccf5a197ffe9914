/-
The server as a transition system: the event loop of `main` (main.cpp), the
work queue and the workers of the thread pool (threadpool.h), and what the
kernel keeps for them: descriptors, the epoll set, and the events it reports.
Each step is what one thread does between two points where others may come
in; the critical sections of `m_queuelocker` are single steps.  A call of
`process` that stores outside of `m_read_buf` changes what lies there first,
and the program goes on.  The workers find `m_stop` false.
-/
import LinuxLearning.Webserver.Layout
import LinuxLearning.Webserver.Slot

namespace LinuxLearning.Webserver

universe u

/-- The default of `max_requests`, with which `main` builds the pool. -/
def MAX_REQUESTS : Nat := 10000

/-- What a descriptor is in use for: the standard streams, the listening
socket and the epoll instance, a connection, or a file a worker has opened. -/
inductive FdUse (ι : Type u) where
  | server
  | client
  | file (w : ι)

/-- Where `main` is, and the events of its batch it has not come to yet.
`accepted` is between `accept` and the test of `m_user_count`, `adding`
between `addfd` and the rest of `init_conn`, `written` behind the last
`modfd` of `write`. -/
inductive MainPc where
  | waiting
  | loop (events : List Event)
  | accepted (connfd : Nat) (events : List Event)
  | refusing (connfd : Nat) (events : List Event)
  | admitted (connfd : Nat) (events : List Event)
  | adding (connfd : Nat) (events : List Event)
  | reading (fd : Nat) (events : List Event)
  | appending (fd : Nat) (events : List Event)
  | posting (events : List Event)
  | writing (fd : Nat) (events : List Event)
  | written (fd : Nat) (ret : Bool) (events : List Event)
  | closing (fd : Nat) (events : List Event)
deriving Repr, DecidableEq

/-- Where a worker is.  `mapping` is in `do_request` with the file open,
`rearming` before the `modfd` that ends `process`. -/
inductive WorkerPc where
  | waiting
  | woken
  | processing (fd : Nat)
  | mapping (fd : Nat) (fs : List Byte → FsAnswer) (fellOff : Option HttpCode) (file : Nat)
  | rearming (fd : Nat) (calls : List SysCall)

/-- The slot that a worker is in `process` of, up to the `modfd` that ends
it. -/
def WorkerPc.slot : WorkerPc → Option Nat
  | .processing fd | .mapping fd _ _ _ => some fd
  | .waiting | .woken | .rearming _ _ => none

/-- The state of the server.  `users[fd]` is `users fd`, and a pointer into
the array is its index; what `users` has from MAX_FD on stands for the memory
behind the array.  `calls` is not in the source: it logs the system calls made
for each slot. -/
structure Server (ι : Type u) where
  users : Nat → HttpConn
  userCount : Int
  fds : Nat → Option (FdUse ι)
  epoll : Nat → Option EpollEntry
  main : MainPc
  queue : List Nat
  tasks : Nat
  workers : ι → WorkerPc
  calls : Nat → List SysCall

inductive Label (ι : Type u) where
  | epollWait (events : List Event)
  | endBatch
  | acceptFailed
  | accept (connfd : Nat)
  | refuse
  | showError
  | allow
  | addfd
  | initialise
  | hangup
  | startRead
  | startWrite
  | read (outcomes : List RecvOutcome)
  | append
  | post
  | write (outcomes : List WritevOutcome)
  | wrote
  | close
  | wake (w : ι)
  | starve (w : ι)
  | pop (w : ι)
  | openFile (w : ι) (fs : List Byte → FsAnswer) (fellOff : Option HttpCode)
  | process (w : ι) (fs : List Byte → FsAnswer) (fellOff : Option HttpCode)
  | rearm (w : ι)

/-- The descriptor the kernel hands out next. -/
structure Lowest {ι : Type u} (fds : Nat → Option (FdUse ι)) (fd : Nat) : Prop where
  unused : fds fd = none
  least : ∀ n < fd, fds n ≠ none

section Steps

variable {ι : Type u} [DecidableEq ι]

open Function

/-- The system as `main` enters its loop.  `m_sockfd` is not set in any slot;
of the descriptors a client can get, none is there by chance in its own slot
(in fresh memory all are 0). -/
structure Starts (s : Server ι) : Prop where
  sockfd : ∀ fd, SERVER_FDS ≤ fd → (s.users fd).sockfd ≠ fd
  fileAddress : ∀ fd, (s.users fd).fileAddress = .null
  userCount : s.userCount = 0
  fds : ∀ fd, s.fds fd = if fd < SERVER_FDS then some .server else none
  epoll : ∀ fd, s.epoll fd = none
  main : s.main = .waiting
  queue : s.queue = []
  tasks : s.tasks = 0
  workers : ∀ w, s.workers w = .waiting
  calls : ∀ fd, s.calls fd = []

/-- One step of the kernel, of `main`, or of a worker, but for what a store
outside of `m_read_buf` hits. -/
inductive Step (s : Server ι) : Label ι → Server ι → Prop
  | epollWait {events : List Event} (hmain : s.main = .waiting)
      (hreports : Reports s.epoll events) :
      Step s (.epollWait events)
        { s with main := .loop events, epoll := disarm s.epoll events }
  | endBatch (hmain : s.main = .loop []) : Step s .endBatch { s with main := .waiting }
  | acceptFailed {events : List Event} (hmain : s.main = .loop (.listening :: events)) :
      Step s .acceptFailed { s with main := .loop events }
  | accept {connfd : Nat} {events : List Event}
      (hmain : s.main = .loop (.listening :: events)) (hlowest : Lowest s.fds connfd) :
      Step s (.accept connfd)
        { s with main := .accepted connfd events, fds := update s.fds connfd (some .client) }
  | refuse {connfd : Nat} {events : List Event} (hmain : s.main = .accepted connfd events)
      (hfull : s.userCount ≥ MAX_FD) :
      Step s .refuse { s with main := .refusing connfd events }
  -- `show_error` closes the descriptor
  | showError {connfd : Nat} {events : List Event} (hmain : s.main = .refusing connfd events) :
      Step s .showError { s with main := .loop events, fds := update s.fds connfd none }
  | allow {connfd : Nat} {events : List Event} (hmain : s.main = .accepted connfd events)
      (hroom : s.userCount < MAX_FD) :
      Step s .allow { s with main := .admitted connfd events }
  -- `init_conn` up to `addfd`, and behind it
  | addfd {connfd : Nat} {events : List Event} (hmain : s.main = .admitted connfd events) :
      Step s .addfd
        { s with
          main := .adding connfd events
          users := update s.users connfd ((s.users connfd).setSockfd connfd)
          epoll := update s.epoll connfd (some (.armed .epollin)) }
  | initialise {connfd : Nat} {events : List Event} (hmain : s.main = .adding connfd events) :
      Step s .initialise
        { s with
          main := .loop events
          users := update s.users connfd (s.users connfd).init
          userCount := s.userCount + 1 }
  | hangup {fd : Nat} {events : List Event}
      (hmain : s.main = .loop (.client fd .hangup :: events)) :
      Step s .hangup { s with main := .closing fd events }
  | startRead {fd : Nat} {events : List Event}
      (hmain : s.main = .loop (.client fd .input :: events)) :
      Step s .startRead { s with main := .reading fd events }
  | startWrite {fd : Nat} {events : List Event}
      (hmain : s.main = .loop (.client fd .output :: events)) :
      Step s .startWrite { s with main := .writing fd events }
  | read {fd : Nat} {events : List Event} {outcomes : List RecvOutcome} {ok : Bool}
      {after : HttpConn} (hmain : s.main = .reading fd events)
      (hread : (s.users fd).read outcomes = some (ok, after))
      (hbad : (s.users fd).sockfd = -1 → ∀ outcome ∈ outcomes, outcome = .error) :
      Step s (.read outcomes)
        { s with
          main := if ok then .appending fd events else .closing fd events
          users := update s.users fd after }
  -- `append` returns true or false, and `main` goes on either way
  | append {fd : Nat} {events : List Event} (hmain : s.main = .appending fd events)
      (hroom : s.queue.length ≤ MAX_REQUESTS) :
      Step s .append { s with main := .posting events, queue := s.queue ++ [fd] }
  | appendFull {fd : Nat} {events : List Event} (hmain : s.main = .appending fd events)
      (hfull : s.queue.length > MAX_REQUESTS) :
      Step s .append { s with main := .loop events }
  | post {events : List Event} (hmain : s.main = .posting events) :
      Step s .post { s with main := .loop events, tasks := s.tasks + 1 }
  | write {fd : Nat} {events : List Event} {outcomes : List WritevOutcome}
      {mem : Nat → Byte} {r : WriteResult} (hmain : s.main = .writing fd events)
      (hwrite : (s.users fd).write mem outcomes = some r)
      (hbad : (s.users fd).sockfd = -1 → ∀ outcome ∈ outcomes, outcome = .error) :
      Step s (.write outcomes)
        { s with
          main := .written fd r.ret events
          users := update s.users fd r.conn
          epoll := runCalls s.epoll r.calls
          calls := update s.calls fd (s.calls fd ++ r.calls) }
  | wrote {fd : Nat} {ret : Bool} {events : List Event}
      (hmain : s.main = .written fd ret events) :
      Step s .wrote { s with main := if ret then .loop events else .closing fd events }
  | close {fd : Nat} {events : List Event} (hmain : s.main = .closing fd events) :
      Step s .close
        { s with
          main := .loop events
          users := update s.users fd ((s.users fd).closeConn s.userCount).1
          userCount := ((s.users fd).closeConn s.userCount).2 }
  | wake {w : ι} (hworker : s.workers w = .waiting) (htask : 0 < s.tasks) :
      Step s (.wake w)
        { s with workers := update s.workers w .woken, tasks := s.tasks - 1 }
  | starve {w : ι} (hworker : s.workers w = .woken) (hempty : s.queue = []) :
      Step s (.starve w) { s with workers := update s.workers w .waiting }
  | pop {w : ι} {fd : Nat} {rest : List Nat} (hworker : s.workers w = .woken)
      (hqueue : s.queue = fd :: rest) :
      Step s (.pop w)
        { s with workers := update s.workers w (.processing fd), queue := rest }
  | openFile {w : ι} {fd file : Nat} {fs : List Byte → FsAnswer} {fellOff : Option HttpCode}
      {answer : FsAnswer} (hworker : s.workers w = .processing fd)
      (hanswer : (s.users fd).fileAnswer fs fellOff = some answer) (hopens : answer.opens = true)
      (hlowest : Lowest s.fds file) :
      Step s (.openFile w fs fellOff)
        { s with
          workers := update s.workers w (.mapping fd fs fellOff file)
          fds := update s.fds file (some (.file w)) }
  | process {w : ι} {fd : Nat} {fs : List Byte → FsAnswer} {fellOff : Option HttpCode}
      (hworker : s.workers w = .processing fd)
      (hanswer : ∀ answer ∈ (s.users fd).fileAnswer fs fellOff, answer.opens = false) :
      Step s (.process w fs fellOff)
        { s with
          workers := update s.workers w
            (.rearming fd ((s.users fd).process fs fellOff s.userCount).2.2)
          users := update s.users fd ((s.users fd).process fs fellOff s.userCount).1
          userCount := ((s.users fd).process fs fellOff s.userCount).2.1
          calls := update s.calls fd
            (s.calls fd ++ ((s.users fd).process fs fellOff s.userCount).2.2) }
  -- the rest of `do_request` closes the file
  | processFile {w : ι} {fd file : Nat} {fs : List Byte → FsAnswer}
      {fellOff : Option HttpCode} (hworker : s.workers w = .mapping fd fs fellOff file) :
      Step s (.process w fs fellOff)
        { s with
          workers := update s.workers w
            (.rearming fd ((s.users fd).process fs fellOff s.userCount).2.2)
          users := update s.users fd ((s.users fd).process fs fellOff s.userCount).1
          userCount := ((s.users fd).process fs fellOff s.userCount).2.1
          fds := update s.fds file none
          calls := update s.calls fd
            (s.calls fd ++ ((s.users fd).process fs fellOff s.userCount).2.2) }
  | rearm {w : ι} {fd : Nat} {calls : List SysCall}
      (hworker : s.workers w = .rearming fd calls) :
      Step s (.rearm w)
        { s with
          workers := update s.workers w .waiting
          epoll := runCalls s.epoll calls }

/-- What the stores of a step outside of `m_read_buf` make of `users`.  Of the
own slot they can only hit what no parser reads. -/
inductive Overwrites (s : Server ι) : Label ι → (Nat → HttpConn) → Prop
  | process {w : ι} {fs : List Byte → FsAnswer} {fellOff : Option HttpCode} {fd : Nat}
      {users : Nat → HttpConn} (hworker : (s.workers w).slot = some fd)
      (hhits : Hits fd s.users ((s.users fd).strayStores fellOff) users) :
      Overwrites s (.process w fs fellOff) users
  | other {label : Label ι} (hlabel : ∀ w fs fellOff, label ≠ .process w fs fellOff) :
      Overwrites s label s.users

/-- One step of the server. -/
def ServerStep (s : Server ι) (label : Label ι) (after : Server ι) : Prop :=
  ∃ users, Overwrites s label users ∧ Step { s with users := users } label after

end Steps

/-- The server, with workers `ι`. -/
def server (ι : Type u) [DecidableEq ι] : TransitionSystem (Server ι) (Label ι) where
  start := Starts
  step s label after := ServerStep s label after

/-- The server, when every slot is closed at first. -/
def closedServer (ι : Type u) [DecidableEq ι] : TransitionSystem (Server ι) (Label ι) where
  start s := Starts s ∧ ∀ fd, (s.users fd).sockfd = -1
  step s label after := ServerStep s label after

/-- The server in which a store outside of `m_read_buf` hits nothing. -/
def unhit (ι : Type u) [DecidableEq ι] : TransitionSystem (Server ι) (Label ι) where
  start := Starts
  step s label after := Step s label after

/-- Every store of the step through `m_read_buf` lies in `m_read_buf`. -/
def StoresInside {ι : Type u} (s : Server ι) : Label ι → Prop
  | .process w _ fellOff => ∀ fd, (s.workers w).slot = some fd →
      (s.users fd).strayStores fellOff = []
  | _ => True

/-- The step sets up no slot behind the array. -/
def SlotInside {ι : Type u} (s : Server ι) : Label ι → Prop
  | .addfd => ∀ connfd events, s.main = .admitted connfd events → connfd < MAX_FD
  | _ => True

section Inside

variable {ι : Type u} [DecidableEq ι] {s after : Server ι} {label : Label ι}
  {history : List (Server ι × Label ι)}

/-- A step whose stores lie inside is the step alone. -/
theorem serverStep_iff (hinside : StoresInside s label) :
    ServerStep s label after ↔ Step s label after := by
  constructor
  · rintro ⟨users, hover, hstep⟩
    cases hover with
    | process hworker hhits =>
        rw [hinside _ hworker] at hhits
        rw [hhits.eq_of_nil] at hstep
        exact hstep
    | other => exact hstep
  · intro hstep
    refine ⟨s.users, ?_, hstep⟩
    cases hstep with
    | @process w fd fs fellOff hworker | @processFile w fd file fs fellOff hworker =>
        have hslot : (s.workers w).slot = some fd := by
          rw [hworker]
          rfl
        exact .process hslot (hinside fd hslot ▸ .none)
    | _ => exact .other (by rintro w fs fellOff ⟨⟩)

theorem Step.server (hstep : Step s label after) (hinside : StoresInside s label) :
    ServerStep s label after :=
  (serverStep_iff hinside).mpr hstep

/-- A run whose stores all lie inside is one in which nothing can be hit. -/
theorem run_unhit (hrun : (server ι).Run history s)
    (hinside : ∀ entry ∈ history, StoresInside entry.1 entry.2) : (unhit ι).Run history s :=
  hrun.simulate StoresInside (fun _ => id)
    (fun _ _ _ hallowed hstep => (serverStep_iff hallowed).mp hstep) hinside

theorem run_server (hrun : (closedServer ι).Run history s) : (server ι).Run history s :=
  hrun.simulate (fun _ _ => True) (fun _ => And.left) (fun _ _ _ _ => id) fun _ _ => trivial

end Inside

/-- `init_conn` has been run on the slot. -/
def Initialised {ι : Type u} (history : List (Server ι × Label ι)) (fd : Nat) : Prop :=
  ∃ entry ∈ history, entry.2 = .initialise ∧ ∃ events, entry.1.main = .adding fd events

/-- A connection with that descriptor has passed the test of `m_user_count`. -/
def Admitted {ι : Type u} (history : List (Server ι × Label ι)) (fd : Nat) : Prop :=
  ∃ entry ∈ history, entry.2 = .allow ∧ ∃ events, entry.1.main = .accepted fd events

theorem Initialised.mono {ι : Type u} {history : List (Server ι × Label ι)} {fd : Nat}
    (h : Initialised history fd) (later : List (Server ι × Label ι)) :
    Initialised (history ++ later) fd := by
  obtain ⟨entry, hentry, hrest⟩ := h
  exact ⟨entry, List.mem_append_left _ hentry, hrest⟩

end LinuxLearning.Webserver
