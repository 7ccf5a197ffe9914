/-
What the memory of a new process does to the server's behaviour: for every
slot there is a schedule that shows what the slot held before its connection,
so that only memories which agree there behave alike.
-/
import LinuxLearning.Webserver.FreshMemory

namespace LinuxLearning.Webserver

universe u

open Function CString Lines TransitionSystem

variable {ι : Type u} [DecidableEq ι]

/-- Some run with these labels reaches the state, and shows `n` actions. -/
def Reaches (memory : Memory) (labels : List (Label ι)) (n : Nat) (s : Server ι) : Prop :=
  ∃ shown, (booted ι memory).Shows visible labels shown s ∧ shown.length = n

section Reaches

variable {memory memory' : Memory} {labels : List (Label ι)} {n n' : Nat} {s s' after : Server ι}
  {label : Label ι}

theorem Reaches.step (h : Reaches memory labels n s) (hstep : Step s label after)
    (hruns : label.OfWorker → memory.stop = false) {k : Nat}
    (hvisible : (visible s label).length = k) :
    Reaches memory (labels ++ [label]) (n + k) after := by
  obtain ⟨shown, hshows, rfl⟩ := h
  refine ⟨_, hshows.snoc (.step hruns hstep), ?_⟩
  rw [List.length_append, hvisible]

/-- A step that shows nothing. -/
theorem Reaches.silent (h : Reaches memory labels n s) (hstep : Step s label after)
    (hruns : label.OfWorker → memory.stop = false) (hvisible : visible s label = []) :
    Reaches memory (labels ++ [label]) n after :=
  h.step hstep hruns (congrArg List.length hvisible)

/-- A step of a worker that has returned. -/
theorem Reaches.returned (h : Reaches memory labels n s) (hlabel : label.OfWorker)
    (hstop : memory.stop = true) (hworkers : ∀ w, s.workers w = .waiting) :
    Reaches memory (labels ++ [label]) n s := by
  obtain ⟨shown, hshows, rfl⟩ := h
  refine ⟨_, hshows.snoc (.returned hlabel hstop), ?_⟩
  rw [visible_returned hworkers hlabel, List.append_nil]

theorem Reaches.length_eq (h : Reaches memory labels n s) (h' : Reaches memory' labels n' s')
    (hsame : SameBehaviour ι memory memory') : n = n' := by
  obtain ⟨shown, hshows, rfl⟩ := h
  obtain ⟨shown', hshows', rfl⟩ := h'
  rw [hsame.shown_eq hshows hshows']

end Reaches

/-- A client connects. -/
def joinLabels (ι : Type u) (fd : Nat) : List (Label ι) :=
  [.epollWait [.listening], .accept fd, .allow, .addfd, .initialise, .endBatch]

/-- It hangs up. -/
def leaveLabels (ι : Type u) (fd : Nat) : List (Label ι) :=
  [.epollWait [.client fd .hangup], .hangup, .close, .endBatch]

/-- It asks for "/". -/
def askLabels (ι : Type u) (fd : Nat) : List (Label ι) :=
  [.epollWait [.client fd .input], .startRead,
    .read [.data (rootRequest ++ CR :: LF :: [CR, LF]), .eagain], .append, .post, .endBatch]

/-- A worker takes the request. -/
def takeLabels (w : ι) : List (Label ι) := [.wake w, .pop w]

/-- There is no such file, and the response cannot be sent. -/
def answerLabels (w : ι) (fd : Nat) : List (Label ι) :=
  [.process w HttpConn.missing none, .rearm w, .epollWait [.client fd .output],
    .startWrite, .write [.error]]

/-- `n` clients have come and hung up; the other slots are as they were. -/
structure Deserted (memory : Memory) (s : Server ι) (n : Nat) : Prop where
  main : s.main = .waiting
  workers : ∀ w, s.workers w = .waiting
  userCount : s.userCount = 0
  fds : ∀ fd, s.fds fd =
    if fd < SERVER_FDS then some .server else if fd < clientFd n then some .client else none
  fresh : ∀ fd, clientFd n ≤ fd → s.users fd = memory.users fd
  queue : s.queue = []
  tasks : s.tasks = 0

/-- A client has connected, and `main` is back in its loop. -/
structure Joined (memory : Memory) (s : Server ι) (n : Nat) : Prop where
  main : s.main = .waiting
  workers : ∀ w, s.workers w = .waiting
  userCount : s.userCount = 1
  fds : ∀ fd, s.fds fd = if fd < SERVER_FDS then some .server
    else if fd < clientFd (n + 1) then some .client else none
  conn : s.users (clientFd n) = ((memory.users (clientFd n)).setSockfd (clientFd n)).init
  armed : s.epoll (clientFd n) = some (.armed .epollin)
  fresh : ∀ fd, clientFd (n + 1) ≤ fd → s.users fd = memory.users fd
  queue : s.queue = []
  tasks : s.tasks = 0

theorem Deserted.join {memory : Memory} {labels : List (Label ι)} {s : Server ι} {k n : Nat}
    (hreaches : Reaches memory labels k s) (h : Deserted memory s n) :
    ∃ s' : Server ι, Reaches memory (labels ++ joinLabels ι (clientFd n)) (k + 1) s' ∧
      Joined memory s' n := by
  have hwait := hreaches.silent (.epollWait h.main (reports_listening s.epoll)) False.elim rfl
  have haccept := hwait.silent (.accept rfl (lowest_client h.fds)) False.elim rfl
  have hallow := haccept.silent (.allow rfl (by rw [h.userCount]; decide)) False.elim rfl
  have hadd := hallow.step (.addfd rfl) False.elim rfl
  have hinit := hadd.silent (.initialise rfl) False.elim rfl
  have hend := hinit.silent (.endBatch rfl) False.elim rfl
  simp only [List.append_assoc] at hend
  refine ⟨_, hend, ⟨rfl, h.workers, ?_, fds_client h.fds, ?_, ?_, ?_, h.queue, h.tasks⟩⟩
  · dsimp only
    rw [h.userCount]
    rfl
  · dsimp only
    rw [update_self, update_self, h.fresh _ (Nat.le_refl _)]
  · dsimp only
    rw [update_self]
  · intro fd hfd
    have hne : fd ≠ clientFd n := by
      simp only [clientFd] at hfd ⊢
      omega
    dsimp only
    rw [update_of_ne hne, update_of_ne hne]
    apply h.fresh
    simp only [clientFd] at hfd ⊢
    omega

/-- The client hangs up. -/
theorem Joined.leave {memory : Memory} {labels : List (Label ι)} {s : Server ι} {k n : Nat}
    (hreaches : Reaches memory labels k s) (h : Joined memory s n) :
    ∃ s' : Server ι, Reaches memory (labels ++ leaveLabels ι (clientFd n)) k s' ∧
      Deserted memory s' (n + 1) := by
  have hreports : Reports s.epoll [.client (clientFd n) .hangup] := reports_client h.armed trivial
  have hwait := hreaches.silent (.epollWait h.main hreports) False.elim rfl
  have hhangup := hwait.silent (.hangup rfl) False.elim rfl
  have hclose := hhangup.silent (.close rfl) False.elim rfl
  have hend := hclose.silent (.endBatch rfl) False.elim rfl
  simp only [List.append_assoc] at hend
  refine ⟨_, hend, ⟨rfl, h.workers, ?_, h.fds, ?_, h.queue, h.tasks⟩⟩
  · have hlive : ((memory.users (clientFd n)).setSockfd (clientFd n)).init.sockfd ≠ -1 := by
      change ((clientFd n : Nat) : Int) ≠ -1
      omega
    dsimp only
    rw [HttpConn.closeConn_snd, h.conn, if_pos hlive, h.userCount]
    rfl
  · intro fd hfd
    have hne : fd ≠ clientFd n := by
      simp only [clientFd] at hfd ⊢
      omega
    dsimp only
    rw [update_of_ne hne]
    exact h.fresh fd hfd

/-- A request for "/" waits in the queue. -/
structure Asked (memory : Memory) (s : Server ι) (fd : Nat) : Prop where
  main : s.main = .waiting
  workers : ∀ w, s.workers w = .waiting
  conn : s.users fd = HttpConn.recvBytes (rootRequest ++ CR :: LF :: [CR, LF])
    ((memory.users fd).setSockfd fd).init
  entry : s.epoll fd = some .disarmed
  queue : s.queue = [fd]
  tasks : s.tasks = 1

theorem Joined.ask {memory : Memory} {labels : List (Label ι)} {s : Server ι} {k n : Nat}
    (hreaches : Reaches memory labels k s) (h : Joined memory s n) :
    ∃ s' : Server ι, Reaches memory (labels ++ askLabels ι (clientFd n)) k s' ∧
      Asked memory s' (clientFd n) := by
  have hreports : Reports s.epoll [.client (clientFd n) .input] := reports_client h.armed rfl
  have hread : (s.users (clientFd n)).read
      [.data (rootRequest ++ CR :: LF :: [CR, LF]), .eagain] =
      some (true, HttpConn.recvBytes (rootRequest ++ CR :: LF :: [CR, LF])
        ((memory.users (clientFd n)).setSockfd (clientFd n)).init) := by
    have hempty : (s.users (clientFd n)).readIdx = 0 := by
      rw [h.conn]
      rfl
    have hfit := HttpConn.root_fits
    have hchunks : (s.users (clientFd n)).read
        ([rootRequest ++ CR :: LF :: [CR, LF]].map .data ++ [.eagain]) = _ :=
      HttpConn.read_chunks (by rw [hempty]; decide) (by simp)
        (by rw [hempty, List.flatten_singleton]; omega)
    rw [List.flatten_singleton] at hchunks
    rw [← h.conn]
    exact hchunks
  have hlive : (s.users (clientFd n)).sockfd ≠ -1 := by
    rw [h.conn]
    change ((clientFd n : Nat) : Int) ≠ -1
    omega
  have hwait := hreaches.silent (.epollWait h.main hreports) False.elim rfl
  have hstart := hwait.silent (.startRead rfl) False.elim rfl
  have hrecv := hstart.silent (.read rfl hread fun hbad => absurd hbad hlive) False.elim rfl
  have hroom : s.queue.length ≤ MAX_REQUESTS := by
    rw [h.queue]
    exact Nat.zero_le _
  have happend := hrecv.silent (.append rfl hroom) False.elim rfl
  have hpost := happend.silent (.post rfl) False.elim rfl
  have hend := hpost.silent (.endBatch rfl) False.elim rfl
  simp only [List.append_assoc] at hend
  refine ⟨_, hend, ⟨rfl, h.workers, ?_, ?_, ?_, ?_⟩⟩
  · dsimp only
    rw [update_self]
  · simp [disarm]
  · dsimp only
    rw [h.queue]
    rfl
  · dsimp only
    rw [h.tasks]

/-- A worker has the slot. -/
structure Taken (memory : Memory) (s : Server ι) (w : ι) (fd : Nat) : Prop where
  main : s.main = .waiting
  worker : s.workers w = .processing fd
  conn : s.users fd = HttpConn.recvBytes (rootRequest ++ CR :: LF :: [CR, LF])
    ((memory.users fd).setSockfd fd).init
  entry : s.epoll fd = some .disarmed

theorem Asked.taken {memory : Memory} {labels : List (Label ι)} {s : Server ι} {k fd : Nat}
    (hreaches : Reaches memory labels k s) (h : Asked memory s fd) (hstop : memory.stop = false)
    (w : ι) :
    ∃ s' : Server ι, Reaches memory (labels ++ takeLabels w) (k + 1) s' ∧ Taken memory s' w fd := by
  have hwake := hreaches.silent (.wake (h.workers w) (by rw [h.tasks]; decide)) (fun _ => hstop)
    rfl
  have hshown : visible { s with workers := update s.workers w .woken, tasks := s.tasks - 1 }
      (.pop w) = [.took w fd] := by
    simp only [visible, update_self, h.queue]
  have hpop := hwake.step (.pop (update_self ..) h.queue) (fun _ => hstop)
    (congrArg List.length hshown)
  simp only [List.append_assoc] at hpop
  exact ⟨_, hpop, ⟨h.main, update_self .., h.conn, h.entry⟩⟩

namespace HttpConn

/-- `process` on that request, when there is no such file. -/
theorem missing_process (c : HttpConn) (userCount : Int) :
    (recvBytes (rootRequest ++ CR :: LF :: [CR, LF]) c.init).queuedResponse missing none ≠ none ∧
      ∃ conn : HttpConn, conn.sockfd = c.sockfd ∧ conn.fileAddress = c.fileAddress ∧
        conn.fileStat = c.fileStat ∧ conn.writeIdx ≠ 0 ∧
        (recvBytes (rootRequest ++ CR :: LF :: [CR, LF]) c.init).process missing none userCount =
          (conn, userCount, [.modfd c.sockfd .epollout]) := by
  have hfit := root_fits
  rw [← root_bytes] at hfit ⊢
  obtain ⟨mid, target, version, hread, -⟩ := doRequest_from none root_isHead rfl hfit (c := c)
  refine ⟨?_, process_missing hread rfl userCount⟩
  have hwritten := buildPath_written hread rfl
  rw [queuedResponse, processRead_missing hread]
  simp [(processWrite_noResource hwritten).1]

theorem unmap_congr {c conn : HttpConn} (haddress : conn.fileAddress = c.fileAddress)
    (hstat : conn.fileStat = c.fileStat) : conn.unmap.2 = c.unmap.2 := by
  rw [unmap, unmap, haddress, hstat]
  split <;> rfl

/-- A call of `write` that fails at once unmaps the file. -/
theorem write_failed (mem : Nat → Byte) {c : HttpConn} (hwritten : c.writeIdx ≠ 0) :
    c.write mem [.error] = some ⟨false, c.unmap.1, c.unmap.2, [], .failed⟩ :=
  if_neg hwritten

end HttpConn

/-- A `write` that fails shows what is unmapped. -/
theorem Reaches.write_failed {memory : Memory} {labels : List (Label ι)} {s : Server ι} {k fd : Nat}
    (h : Reaches memory labels k s) {events : List Event} (hmain : s.main = .writing fd events)
    {conn : HttpConn} (hconn : s.users fd = conn) (hwritten : conn.writeIdx ≠ 0) :
    ∃ shown, ∃ s' : Server ι, (booted ι memory).Shows visible (labels ++ [.write [.error]])
        (shown ++ conn.unmap.2.map .called) s' ∧ shown.length = k + 1 := by
  obtain ⟨shown, hshows, rfl⟩ := h
  have hwrite := HttpConn.write_failed (fun _ => 0) hwritten
  rw [← hconn] at hwrite
  have hlast := hshows.snoc (.step False.elim (.write hmain hwrite fun _ => by simp))
  simp only [visible, hmain, hwrite, Option.elim_some] at hlast
  rw [List.append_cons shown, hconn] at hlast
  exact ⟨_, _, hlast, List.length_append⟩

/-- The worker answers, and the failing `write` shows what memory held. -/
theorem Taken.answered {memory : Memory} {labels : List (Label ι)} {s : Server ι} {k fd : Nat}
    {w : ι} (hreaches : Reaches memory labels k s) (h : Taken memory s w fd)
    (hstop : memory.stop = false) :
    ∃ shown, ∃ s' : Server ι, (booted ι memory).Shows visible (labels ++ answerLabels w fd)
        (shown ++ (memory.users fd).unmap.2.map .called) s' ∧ shown.length = k + 3 := by
  obtain ⟨hqueued, conn, hsockfd, haddress, hstat, hwritten, hprocess⟩ :=
    HttpConn.missing_process ((memory.users fd).setSockfd fd) s.userCount
  rw [← h.conn] at hqueued hprocess
  have hnone : ∀ answer ∈ (s.users fd).fileAnswer HttpConn.missing none,
      answer.opens = false := by
    simp [HttpConn.fileAnswer_missing]
  have hstep := Step.process h.worker hnone
  rw [hprocess] at hstep
  have hshown : (visible s (.process w HttpConn.missing none)).length = 1 := by
    obtain ⟨response, hresponse⟩ := Option.ne_none_iff_exists'.mp hqueued
    simp [visible, h.worker, WorkerPc.at, hresponse]
  have hrun := hreaches.step hstep (fun _ => hstop) hshown
  have hrearm := hrun.step (k := 1) (.rearm (update_self ..)) (fun _ => hstop)
    (by simp [visible])
  have harmed : runCalls s.epoll [.modfd ((memory.users fd).setSockfd fd).sockfd .epollout] fd =
      some (.armed .epollout) := by
    have hentry : s.epoll fd ≠ none := by
      simp [h.entry]
    exact runEntry_modfd hentry [] .epollout
  have hreports : Reports (runCalls s.epoll [.modfd ((memory.users fd).setSockfd fd).sockfd
      .epollout]) [.client fd .output] := reports_client harmed rfl
  have hwait := hrearm.silent (.epollWait h.main hreports) False.elim rfl
  have hstart := hwait.silent (.startWrite rfl) False.elim rfl
  obtain ⟨shown, s', hshows, hlength⟩ := hstart.write_failed rfl (update_self ..) hwritten
  have hunmap : conn.unmap.2 = (memory.users fd).unmap.2 := HttpConn.unmap_congr haddress hstat
  rw [hunmap] at hshows
  simp only [List.append_assoc] at hshows
  exact ⟨shown, s', hshows, hlength⟩

section Agreement

variable {memory memory' : Memory}

end Agreement

end LinuxLearning.Webserver
