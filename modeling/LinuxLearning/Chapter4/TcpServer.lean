/-
The threaded server (chapter_4/tcp_server.cpp): the accept loop, and a thread
for each client.  They share the table of clients, in which `c_sockfd` is the
descriptor of a client and, when it is zero, marks a free entry.
-/
import LinuxLearning.Lib.Transition
import Mathlib.Logic.Function.Basic

namespace LinuxLearning.Chapter4.TcpServer

/-- `struct ClientInfo`, less the thread number.  Clients are numbered as they
are accepted; `addr` is the number of the client whose address it is. -/
structure ClientInfo where
  c_sockfd : Int
  addr : Nat

inductive Op
  | read | write | close
deriving DecidableEq

/-- A system call of a thread, and the client that was open under the
descriptor. -/
structure Call where
  client : Nat
  op : Op
  fd : Int
  found : Option Nat

/-- Where `do_thread` is: each use of `c_sockfd` is a load of it and then the
call with the value loaded. -/
inductive Pc
  | start
  | loadRead | read (fd : Int)
  | loadWrite | write (fd : Int)
  | loadClose | close (fd : Int) | free | ended
  | loadFail | closeFail (fd : Int) | failed
deriving DecidableEq

/-- The value a thread is about to use -/
def Pc.loaded : Pc → Option Int
  | .read fd | .write fd | .close fd | .closeFail fd => some fd
  | _ => none

/-- The thread has made its call of `close`. -/
def Pc.closed : Pc → Bool
  | .free | .ended | .failed => true
  | _ => false

/-- A thread: its entry of the table, the descriptor it was created for, where
it is, and whose address it has read. -/
structure Thread where
  slot : Nat
  handed : Int
  pc : Pc
  peer : Option Nat

/-- What the accept loop does with a client: look for an entry, fill it in,
create the thread. -/
inductive Phase
  | search | storeAddr | storeFd | create
deriving DecidableEq

inductive Main
  | accept
  | busy (phase : Phase) (fd : Int) (client i : Nat)

/-- The process.  `files` is what is open under each number, and the thread of
a client is found under the client's number. -/
structure Server where
  table : Nat → ClientInfo
  files : Int → Option Nat
  accepted : Nat
  main : Main
  threads : Nat → Option Thread
  calls : List Call
  exited : Bool

namespace Server

def setThread (s : Server) (c : Nat) (th : Thread) : Server :=
  { s with threads := Function.update s.threads c (some th) }

def log (s : Server) (c : Nat) (op : Op) (fd : Int) : Server :=
  { s with calls := s.calls ++ [⟨c, op, fd, s.files fd⟩] }

/-- `close(fd)` -/
def closeFd (s : Server) (c : Nat) (fd : Int) : Server :=
  { s.log c .close fd with files := Function.update s.files fd none }

/-- How often the thread of a client has closed something. -/
def closes (s : Server) (c : Nat) : Nat :=
  s.calls.countP fun call => call.client = c ∧ call.op = .close

/-- `accept` returns a descriptor that was not in use. -/
def acceptClient (s : Server) (c_sockfd : Int) : Server :=
  { s with
    files := Function.update s.files c_sockfd (some s.accepted)
    accepted := s.accepted + 1
    main := .busy .search c_sockfd s.accepted 0 }

/-- One access of the accept loop to the table. -/
def mainTurn (size : Nat) (s : Server) : Server :=
  match s.main with
  | .accept => s
  | .busy .search fd client i =>
      if i < size then
        if (s.table i).c_sockfd = 0 then { s with main := .busy .storeAddr fd client i }
        else { s with main := .busy .search fd client (i + 1) }
      else { s with main := .busy .search fd client 0 } -- sleep(1); continue;
  | .busy .storeAddr fd client i =>
      { s with
        table := Function.update s.table i { s.table i with addr := client }
        main := .busy .storeFd fd client i }
  | .busy .storeFd fd client i =>
      { s with
        table := Function.update s.table i { s.table i with c_sockfd := fd }
        main := .busy .create fd client i }
  | .busy .create fd client i =>
      { s.setThread client ⟨i, fd, .start, none⟩ with main := .accept }

/-- One access of `do_thread` to the table, or one call; `len` is what `read`
or `write` returns. -/
def threadTurn (s : Server) (c : Nat) (th : Thread) (len : Int) : Server :=
  let c_sockfd := (s.table th.slot).c_sockfd
  match th.pc with
  | .start =>
      s.setThread c { th with pc := .loadRead, peer := some (s.table th.slot).addr }
  | .loadRead => s.setThread c { th with pc := .read c_sockfd }
  | .read fd =>
      let pc := if len = 0 then Pc.loadClose else if len = -1 then .loadFail else .loadWrite
      (s.log c .read fd).setThread c { th with pc }
  | .loadWrite => s.setThread c { th with pc := .write c_sockfd }
  | .write fd =>
      let pc := if len = -1 then Pc.loadFail else .loadRead
      (s.log c .write fd).setThread c { th with pc }
  | .loadClose => s.setThread c { th with pc := .close c_sockfd }
  | .close fd => (s.closeFd c fd).setThread c { th with pc := .free }
  | .free =>
      { s.setThread c { th with pc := .ended } with
        table := Function.update s.table th.slot { s.table th.slot with c_sockfd := 0 } }
  | .loadFail => s.setThread c { th with pc := .closeFail c_sockfd }
  | .closeFail fd => (s.closeFd c fd).setThread c { th with pc := .failed }
  | .failed => { s with exited := true } -- exit(-1);
  | .ended => s

end Server

inductive Label
  | accept (c_sockfd : Int)
  | acceptFails (eintr : Bool)
  | main
  | thread (c : Nat) (len : Int)

/-- The steps, with `size` for `MAX_CLIENT_NUM`. -/
inductive Step (size : Nat) : Server → Label → Server → Prop
  | accept {s : Server} {c_sockfd : Int} (hrun : s.exited = false) (hmain : s.main = .accept)
      (hne : c_sockfd ≠ 0) (hunused : s.files c_sockfd = none) :
      Step size s (.accept c_sockfd) (s.acceptClient c_sockfd)
  | acceptFails {s : Server} {eintr : Bool} (hrun : s.exited = false) (hmain : s.main = .accept) :
      Step size s (.acceptFails eintr) { s with exited := !eintr }
  | main {s : Server} (hrun : s.exited = false) : Step size s .main (s.mainTurn size)
  | thread {s : Server} {c : Nat} {th : Thread} {len : Int} (hrun : s.exited = false)
      (hth : s.threads c = some th) : Step size s (.thread c len) (s.threadTurn c th len)

/-- After the `memset` of the table. -/
def initial : Server where
  table _ := ⟨0, 0⟩
  files _ := none
  accepted := 0
  main := .accept
  threads _ := none
  calls := []
  exited := false

def system (size : Nat) : TransitionSystem Server Label where
  start s := s = initial
  step := Step size

/-- What holds of the thread of client `c`: while it runs, its entry holds the
descriptor it was created for, which is open until the thread closes it. -/
structure Fits (size : Nat) (s : Server) (c : Nat) (th : Thread) : Prop where
  handed_ne : th.handed ≠ 0
  slot_lt : th.slot < size
  held : th.pc ≠ .ended → (s.table th.slot).c_sockfd = th.handed
  addr : th.pc ≠ .ended → (s.table th.slot).addr = c
  peer : ∀ p ∈ th.peer, p = c
  opened : th.pc.closed = false → s.files th.handed = some c
  loaded : ∀ fd ∈ th.pc.loaded, fd = th.handed
  closes : s.closes c = if th.pc.closed then 1 else 0

/-- No thread that runs uses the entry. -/
def Unused (s : Server) (i : Nat) : Prop :=
  ∀ c th, s.threads c = some th → th.slot = i → th.pc = .ended

/-- What holds of the client the accept loop is busy with. -/
structure Serving (size : Nat) (s : Server) (phase : Phase) (fd : Int) (client i : Nat) :
    Prop where
  fd_ne : fd ≠ 0
  opened : s.files fd = some client
  noThread : s.threads client = none
  closes : s.closes client = 0
  client_lt : client < s.accepted
  slot_lt : phase ≠ .search → i < size
  unused : phase ≠ .search → Unused s i
  held : phase = .create → (s.table i).c_sockfd = fd
  addr : phase = .storeFd ∨ phase = .create → (s.table i).addr = client

/-- The call was for the descriptor its thread was created for, and found the
thread's client. -/
def Proper (s : Server) (call : Call) : Prop :=
  ∃ th, s.threads call.client = some th ∧ call.fd = th.handed ∧ call.found = some call.client

structure Inv (size : Nat) (s : Server) : Prop where
  fits : ∀ c th, s.threads c = some th → Fits size s c th
  exclusive : ∀ c d thc thd, s.threads c = some thc → s.threads d = some thd →
    thc.pc ≠ .ended → thd.pc ≠ .ended → thc.slot = thd.slot → c = d
  fresh : ∀ c, s.accepted ≤ c → s.threads c = none ∧ s.closes c = 0
  proper : ∀ call ∈ s.calls, Proper s call
  serving : ∀ phase fd client i, s.main = .busy phase fd client i →
    Serving size s phase fd client i

/-- What a step of the thread `th` of client `c` may touch: its own state, its
own entry when it runs, its own descriptor, and its own calls. -/
structure Touches (s s' : Server) (c : Nat) (th th' : Thread) : Prop where
  threads : s'.threads = Function.update s.threads c (some th')
  main : s'.main = s.main
  accepted : s'.accepted = s.accepted
  slot : th'.slot = th.slot
  handed : th'.handed = th.handed
  running : th'.pc ≠ .ended → th.pc ≠ .ended
  table : ∀ i, i ≠ th.slot ∨ th.pc = .ended → s'.table i = s.table i
  files : ∀ fd, s.files fd ≠ some c → s'.files fd = s.files fd
  closes : ∀ d, d ≠ c → s'.closes d = s.closes d
  calls : ∀ call ∈ s'.calls, call ∈ s.calls ∨
    call.client = c ∧ call.fd = th.handed ∧ call.found = some c

variable {size : Nat} {s s' : Server} {c : Nat} {th th' : Thread}

section Touches

theorem Touches.self (ht : Touches s s' c th th') : s'.threads c = some th' := by
  rw [ht.threads, Function.update_self]

theorem Touches.other (ht : Touches s s' c th th') {d : Nat} (hd : d ≠ c) :
    s'.threads d = s.threads d := by
  rw [ht.threads, Function.update_of_ne hd]

/-- The files of other clients stay open. -/
theorem Touches.opened (ht : Touches s s' c th th') {d : Nat} (hd : d ≠ c) {fd : Int}
    (hfile : s.files fd = some d) : s'.files fd = some d := by
  rw [ht.files fd (by rw [hfile]; exact fun heq => hd (Option.some.inj heq)), hfile]

/-- Another thread that runs has another entry. -/
theorem Touches.fits_other (ht : Touches s s' c th th') (h : Inv size s)
    (hth : s.threads c = some th) {d : Nat} {thd : Thread} (hd : d ≠ c)
    (hthd : s.threads d = some thd) : Fits size s' d thd := by
  have hold := h.fits d thd hthd
  have hentry : thd.pc ≠ .ended → s'.table thd.slot = s.table thd.slot := by
    intro hrun
    apply ht.table
    by_cases hended : th.pc = .ended
    · exact .inr hended
    · exact .inl fun hslot => hd (h.exclusive d c thd th hthd hth hrun hended hslot)
  refine ⟨hold.handed_ne, hold.slot_lt, ?_, ?_, hold.peer, ?_, hold.loaded, ?_⟩
  · intro hrun
    rw [hentry hrun]
    exact hold.held hrun
  · intro hrun
    rw [hentry hrun]
    exact hold.addr hrun
  · exact fun hopen => ht.opened hd (hold.opened hopen)
  · rw [ht.closes d hd]
    exact hold.closes

/-- A thread that runs after the step ran before it, with the same entry. -/
theorem Touches.before (ht : Touches s s' c th th') (hth : s.threads c = some th) {d : Nat}
    {thd : Thread} (hthd : s'.threads d = some thd) (hrun : thd.pc ≠ .ended) :
    ∃ old, s.threads d = some old ∧ old.pc ≠ .ended ∧ old.slot = thd.slot := by
  by_cases hd : d = c
  · subst hd
    obtain rfl : th' = thd := Option.some.inj (ht.self.symm.trans hthd)
    exact ⟨th, hth, ht.running hrun, ht.slot.symm⟩
  · rw [ht.other hd] at hthd
    exact ⟨thd, hthd, hrun, rfl⟩

theorem Touches.proper (ht : Touches s s' c th th') (h : Inv size s)
    (hth : s.threads c = some th) : ∀ call ∈ s'.calls, Proper s' call := by
  intro call hcall
  rcases ht.calls call hcall with hold | ⟨hclient, hfd, hfound⟩
  · obtain ⟨thc, hthc, hfd, hfound⟩ := h.proper call hold
    by_cases hclient : call.client = c
    · rw [hclient, hth] at hthc
      obtain rfl := Option.some.inj hthc
      exact ⟨th', by rw [hclient, ht.self], hfd.trans ht.handed.symm, hfound⟩
    · exact ⟨thc, by rw [ht.other hclient, hthc], hfd, hfound⟩
  · exact ⟨th', by rw [hclient, ht.self], hfd.trans ht.handed.symm, by rw [hfound, hclient]⟩

/-- The client the accept loop is busy with has no thread, and its entry is
used by none. -/
theorem Touches.serving (ht : Touches s s' c th th') (hth : s.threads c = some th)
    {phase : Phase} {fd : Int} {client i : Nat} (hold : Serving size s phase fd client i) :
    Serving size s' phase fd client i := by
  have hclient : client ≠ c := by
    rintro rfl
    have hnone := hold.noThread
    rw [hth] at hnone
    cases hnone
  have hentry : phase ≠ .search → s'.table i = s.table i := by
    intro hphase
    apply ht.table
    by_cases hi : i = th.slot
    · exact .inr (hold.unused hphase c th hth hi.symm)
    · exact .inl hi
  refine ⟨hold.fd_ne, ht.opened hclient hold.opened, ?_, ?_, ?_, hold.slot_lt, ?_, ?_, ?_⟩
  · rw [ht.other hclient]
    exact hold.noThread
  · rw [ht.closes client hclient]
    exact hold.closes
  · rw [ht.accepted]
    exact hold.client_lt
  · intro hphase d thd hthd hslot
    by_contra hrun
    obtain ⟨old, hold', hrun', hslot'⟩ := ht.before hth hthd hrun
    exact hrun' (hold.unused hphase d old hold' (hslot'.trans hslot))
  · intro hphase
    rw [hentry (by rw [hphase]; decide)]
    exact hold.held hphase
  · intro hphase
    rw [hentry (by rcases hphase with rfl | rfl <;> decide)]
    exact hold.addr hphase

/-- A thread that only touches what is its own keeps the invariant. -/
theorem Inv.touches (h : Inv size s) (hth : s.threads c = some th)
    (ht : Touches s s' c th th') (hfits : Fits size s' c th') : Inv size s' where
  fits d thd hthd := by
    by_cases hd : d = c
    · subst hd
      obtain rfl : th' = thd := Option.some.inj (ht.self.symm.trans hthd)
      exact hfits
    · rw [ht.other hd] at hthd
      exact ht.fits_other h hth hd hthd
  exclusive d e thd the hthd hthe hrund hrune hslot := by
    obtain ⟨oldd, holdd, hrund', hslotd⟩ := ht.before hth hthd hrund
    obtain ⟨olde, holde, hrune', hslote⟩ := ht.before hth hthe hrune
    exact h.exclusive d e oldd olde holdd holde hrund' hrune'
      (hslotd.trans (hslot.trans hslote.symm))
  fresh d hd := by
    rw [ht.accepted] at hd
    obtain ⟨hnone, hcloses⟩ := h.fresh d hd
    have hdc : d ≠ c := by
      rintro rfl
      rw [hth] at hnone
      cases hnone
    rw [ht.other hdc, ht.closes d hdc]
    exact ⟨hnone, hcloses⟩
  proper := ht.proper h hth
  serving phase fd client i hmain := by
    rw [ht.main] at hmain
    exact ht.serving hth (h.serving phase fd client i hmain)

end Touches

theorem closes_log_other {op : Op} {fd : Int} {d : Nat} (hd : d ≠ c) :
    (s.log c op fd).closes d = s.closes d := by
  simp [Server.closes, Server.log, Ne.symm hd]

theorem closes_log_call {op : Op} {fd : Int} (hop : op ≠ .close) :
    (s.log c op fd).closes c = s.closes c := by
  simp [Server.closes, Server.log, hop]

theorem closes_log_close {fd : Int} : (s.log c .close fd).closes c = s.closes c + 1 := by
  simp [Server.closes, Server.log]

/-- The log grows by a call of this thread that found its client. -/
theorem mem_log_calls {op : Op} {fd : Int} (hfd : fd = th.handed) (hopen : s.files fd = some c)
    {call : Call} (hcall : call ∈ (s.log c op fd).calls) :
    call ∈ s.calls ∨ call.client = c ∧ call.fd = th.handed ∧ call.found = some c := by
  rcases List.mem_append.mp hcall with hold | hnew
  · exact .inl hold
  · rw [List.mem_singleton] at hnew
    subst hnew
    exact .inr ⟨rfl, hfd, hopen⟩

section Turns

variable {pc : Pc} {peer : Option Nat}

theorem running_of_open (hopen : pc.closed = false) : pc ≠ .ended := by
  rintro rfl
  cases hopen

/-- The thread goes on without a call. -/
theorem Inv.advance (h : Inv size s) (hth : s.threads c = some th) (hrun : th.pc ≠ .ended)
    (hclosed : pc.closed = th.pc.closed)
    (hloaded : ∀ fd ∈ pc.loaded, fd = th.handed) (hpeer : ∀ p ∈ peer, p = c) :
    Inv size (s.setThread c { th with pc, peer }) := by
  have hfits := h.fits c th hth
  have ht : Touches s (s.setThread c { th with pc, peer }) c th { th with pc, peer } :=
    { threads := rfl, main := rfl, accepted := rfl, slot := rfl, handed := rfl
      running := fun _ => hrun
      table := fun _ _ => rfl
      files := fun _ _ => rfl
      closes := fun _ _ => rfl
      calls := fun _ => Or.inl }
  refine h.touches hth ht
    ⟨hfits.handed_ne, hfits.slot_lt, fun _ => hfits.held hrun, fun _ => hfits.addr hrun, hpeer,
      ?_, hloaded, ?_⟩
  · intro hopen
    exact hfits.opened (hclosed.symm.trans hopen)
  · change s.closes c = if pc.closed then 1 else 0
    rw [hclosed]
    exact hfits.closes

/-- The thread makes a call that is not `close`. -/
theorem Inv.call (h : Inv size s) (hth : s.threads c = some th) {op : Op} {fd : Int}
    (hfd : fd = th.handed) (hop : op ≠ .close) (hopen : th.pc.closed = false)
    (hclosed : pc.closed = false) (hloaded : pc.loaded = none) :
    Inv size ((s.log c op fd).setThread c { th with pc }) := by
  have hfits := h.fits c th hth
  have hrun := running_of_open hopen
  have ht : Touches s ((s.log c op fd).setThread c { th with pc }) c th { th with pc } :=
    { threads := rfl, main := rfl, accepted := rfl, slot := rfl, handed := rfl
      running := fun _ => hrun
      table := fun _ _ => rfl
      files := fun _ _ => rfl
      closes := fun _ hd => closes_log_other hd
      calls := fun _ => mem_log_calls hfd (by rw [hfd, hfits.opened hopen]) }
  refine h.touches hth ht
    ⟨hfits.handed_ne, hfits.slot_lt, fun _ => hfits.held hrun, fun _ => hfits.addr hrun,
      hfits.peer, fun _ => hfits.opened hopen, ?_, ?_⟩
  · intro fd' hfd'
    rw [hloaded] at hfd'
    cases hfd'
  · change (s.log c op fd).closes c = if pc.closed then 1 else 0
    rw [closes_log_call hop, hfits.closes, hopen, hclosed]

/-- The thread closes its descriptor. -/
theorem Inv.close (h : Inv size s) (hth : s.threads c = some th) {fd : Int}
    (hfd : fd = th.handed) (hopen : th.pc.closed = false)
    (hclosed : pc.closed = true) (hloaded : pc.loaded = none) :
    Inv size ((s.closeFd c fd).setThread c { th with pc }) := by
  subst hfd
  have hfits := h.fits c th hth
  have hrun := running_of_open hopen
  have ht : Touches s ((s.closeFd c th.handed).setThread c { th with pc }) c th { th with pc } :=
    { threads := rfl, main := rfl, accepted := rfl, slot := rfl, handed := rfl
      running := fun _ => hrun
      table := fun _ _ => rfl
      files := by
        intro fd hother
        apply Function.update_of_ne
        rintro rfl
        exact hother (hfits.opened hopen)
      closes := fun _ hd => closes_log_other hd
      calls := fun _ => mem_log_calls rfl (hfits.opened hopen) }
  refine h.touches hth ht
    ⟨hfits.handed_ne, hfits.slot_lt, fun _ => hfits.held hrun, fun _ => hfits.addr hrun,
      hfits.peer, ?_, ?_, ?_⟩
  · intro hnot
    rw [hclosed] at hnot
    cases hnot
  · intro fd' hfd'
    rw [hloaded] at hfd'
    cases hfd'
  · change (s.log c .close th.handed).closes c = if pc.closed then 1 else 0
    rw [closes_log_close, hfits.closes, hopen, hclosed]
    rfl

/-- The thread frees its entry and ends. -/
theorem Inv.free (h : Inv size s) (hth : s.threads c = some th) (hpc : th.pc = .free) :
    Inv size { s.setThread c { th with pc := .ended } with
      table := Function.update s.table th.slot { s.table th.slot with c_sockfd := 0 } } := by
  have hfits := h.fits c th hth
  have hrun : th.pc ≠ .ended := by
    rw [hpc]
    decide
  have ht : Touches s { s.setThread c { th with pc := .ended } with
      table := Function.update s.table th.slot { s.table th.slot with c_sockfd := 0 } }
      c th { th with pc := .ended } :=
    { threads := rfl, main := rfl, accepted := rfl, slot := rfl, handed := rfl
      running := fun _ => hrun
      table := by
        rintro i (hi | hended)
        · exact Function.update_of_ne hi _ _
        · exact absurd hended hrun
      files := fun _ _ => rfl
      closes := fun _ _ => rfl
      calls := fun _ => Or.inl }
  refine h.touches hth ht
    ⟨hfits.handed_ne, hfits.slot_lt, fun hnot => absurd rfl hnot, fun hnot => absurd rfl hnot,
      hfits.peer, fun hnot => (by cases hnot), fun fd hfd => (by cases hfd), ?_⟩
  change s.closes c = 1
  rw [hfits.closes, hpc]
  rfl

/-- The end of the process touches nothing. -/
theorem Inv.exit (h : Inv size s) (exited : Bool) : Inv size { s with exited } where
  fits c th hth :=
    have hf := h.fits c th hth
    ⟨hf.handed_ne, hf.slot_lt, hf.held, hf.addr, hf.peer, hf.opened, hf.loaded, hf.closes⟩
  exclusive := h.exclusive
  fresh := h.fresh
  proper := h.proper
  serving phase fd client i hmain :=
    have hs := h.serving phase fd client i hmain
    ⟨hs.fd_ne, hs.opened, hs.noThread, hs.closes, hs.client_lt, hs.slot_lt, hs.unused, hs.held,
      hs.addr⟩

/-- One case for each place of `do_thread`. -/
theorem Inv.threadTurn (h : Inv size s) (hth : s.threads c = some th) (len : Int) :
    Inv size (s.threadTurn c th len) := by
  have hfits := h.fits c th hth
  have hvalue : th.pc ≠ .ended → ∀ fd ∈ some (s.table th.slot).c_sockfd, fd = th.handed :=
    fun hrun fd hfd => (Option.some.inj hfd).symm.trans (hfits.held hrun)
  unfold Server.threadTurn
  cases hpc : th.pc with
  | start =>
      have hrun : th.pc ≠ .ended := by simp [hpc]
      refine h.advance hth hrun (by rw [hpc]; rfl) (fun fd hfd => by cases hfd) ?_
      intro p hp
      exact (Option.some.inj hp).symm.trans (hfits.addr hrun)
  | loadRead =>
      have hrun : th.pc ≠ .ended := by simp [hpc]
      exact h.advance hth hrun (by rw [hpc]; rfl) (hvalue hrun) hfits.peer
  | read fd =>
      have hfd : fd = th.handed := hfits.loaded fd (by rw [hpc]; rfl)
      refine h.call hth hfd (by decide) (by rw [hpc]; rfl) ?_ ?_ <;> split_ifs <;> rfl
  | loadWrite =>
      have hrun : th.pc ≠ .ended := by simp [hpc]
      exact h.advance hth hrun (by rw [hpc]; rfl) (hvalue hrun) hfits.peer
  | write fd =>
      have hfd : fd = th.handed := hfits.loaded fd (by rw [hpc]; rfl)
      refine h.call hth hfd (by decide) (by rw [hpc]; rfl) ?_ ?_ <;> split_ifs <;> rfl
  | loadClose =>
      have hrun : th.pc ≠ .ended := by simp [hpc]
      exact h.advance hth hrun (by rw [hpc]; rfl) (hvalue hrun) hfits.peer
  | close fd =>
      have hfd : fd = th.handed := hfits.loaded fd (by rw [hpc]; rfl)
      exact h.close hth hfd (by rw [hpc]; rfl) rfl rfl
  | free => exact h.free hth hpc
  | loadFail =>
      have hrun : th.pc ≠ .ended := by simp [hpc]
      exact h.advance hth hrun (by rw [hpc]; rfl) (hvalue hrun) hfits.peer
  | closeFail fd =>
      have hfd : fd = th.handed := hfits.loaded fd (by rw [hpc]; rfl)
      exact h.close hth hfd (by rw [hpc]; rfl) rfl rfl
  | failed => exact h.exit true
  | ended => exact h

end Turns

section AcceptLoop

variable {phase : Phase} {fd : Int} {client i : Nat}

/-- The accept loop only writes to entries that no thread uses. -/
theorem Inv.main (h : Inv size s) {table : Nat → ClientInfo} {main : Main}
    (htable : ∀ j, table j = s.table j ∨ Unused s j)
    (hserving : ∀ phase fd client i, main = .busy phase fd client i →
      Serving size { s with table, main } phase fd client i) :
    Inv size { s with table, main } where
  fits c th hth := by
    have hf := h.fits c th hth
    have hentry : th.pc ≠ .ended → table th.slot = s.table th.slot := by
      intro hrun
      rcases htable th.slot with hsame | hunused
      · exact hsame
      · exact absurd (hunused c th hth rfl) hrun
    refine ⟨hf.handed_ne, hf.slot_lt, ?_, ?_, hf.peer, hf.opened, hf.loaded, hf.closes⟩
    · intro hrun
      dsimp only
      rw [hentry hrun]
      exact hf.held hrun
    · intro hrun
      dsimp only
      rw [hentry hrun]
      exact hf.addr hrun
  exclusive := h.exclusive
  fresh := h.fresh
  proper := h.proper
  serving := hserving

/-- A store to an unused entry changes unused entries only. -/
theorem Unused.update (hunused : Unused s i) (entry : ClientInfo) (j : Nat) :
    Function.update s.table i entry j = s.table j ∨ Unused s j := by
  by_cases hj : j = i
  · exact .inr (hj ▸ hunused)
  · exact .inl (Function.update_of_ne hj _ _)

/-- A free entry is used by no thread. -/
theorem Inv.unused (h : Inv size s) (hfree : (s.table i).c_sockfd = 0) : Unused s i := by
  intro c th hth hslot
  by_contra hrun
  have hheld := (h.fits c th hth).held hrun
  rw [hslot, hfree] at hheld
  exact (h.fits c th hth).handed_ne hheld.symm

/-- The thread of the client is created. -/
theorem Inv.create (h : Inv size s) (hserving : Serving size s .create fd client i) :
    Inv size { s.setThread client ⟨i, fd, .start, none⟩ with main := .accept } := by
  have hphase : Phase.create ≠ .search := by decide
  have hself : Function.update s.threads client (some ⟨i, fd, .start, none⟩) client =
      some ⟨i, fd, .start, none⟩ := Function.update_self _ _ _
  have hother : ∀ d, d ≠ client →
      Function.update s.threads client (some ⟨i, fd, .start, none⟩) d = s.threads d :=
    fun d hd => Function.update_of_ne hd _ _
  constructor
  · intro d thd hthd
    by_cases hd : d = client
    · subst hd
      obtain rfl := Option.some.inj (hself.symm.trans hthd)
      exact ⟨hserving.fd_ne, hserving.slot_lt hphase, fun _ => hserving.held rfl,
        fun _ => hserving.addr (.inr rfl), fun p hp => (by cases hp), fun _ => hserving.opened,
        fun _ hloaded => (by cases hloaded), hserving.closes⟩
    · have hf := h.fits d thd ((hother d hd).symm.trans hthd)
      exact ⟨hf.handed_ne, hf.slot_lt, hf.held, hf.addr, hf.peer, hf.opened, hf.loaded, hf.closes⟩
  · intro d e thd the hthd hthe hrund hrune hslot
    by_cases hd : d = client
    · by_cases he : e = client
      · exact hd.trans he.symm
      · subst hd
        obtain rfl := Option.some.inj (hself.symm.trans hthd)
        have hended := hserving.unused hphase e the ((hother e he).symm.trans hthe) hslot.symm
        exact absurd hended hrune
    · have hthd' := (hother d hd).symm.trans hthd
      by_cases he : e = client
      · subst he
        obtain rfl := Option.some.inj (hself.symm.trans hthe)
        exact absurd (hserving.unused hphase d thd hthd' hslot) hrund
      · exact h.exclusive d e thd the hthd' ((hother e he).symm.trans hthe) hrund hrune hslot
  · intro d hd
    have hne : d ≠ client := Nat.ne_of_gt (Nat.lt_of_lt_of_le hserving.client_lt hd)
    exact ⟨(hother d hne).trans (h.fresh d hd).1, (h.fresh d hd).2⟩
  · intro call hcall
    obtain ⟨th, hth, hfd, hfound⟩ := h.proper call hcall
    have hne : call.client ≠ client := by
      intro heq
      rw [heq, hserving.noThread] at hth
      cases hth
    exact ⟨th, (hother _ hne).trans hth, hfd, hfound⟩
  · intro phase fd' client' i' hmain
    cases hmain

/-- The search goes on with another entry. -/
theorem Serving.search (hs : Serving size s phase fd client i) (main : Main) (i' : Nat) :
    Serving size { s with main } .search fd client i' where
  fd_ne := hs.fd_ne
  opened := hs.opened
  noThread := hs.noThread
  closes := hs.closes
  client_lt := hs.client_lt
  slot_lt hne := absurd rfl hne
  unused hne := absurd rfl hne
  held heq := by cases heq
  addr heq := by rcases heq with heq | heq <;> cases heq

/-- One case for each place of the accept loop. -/
theorem Inv.mainTurn (h : Inv size s) : Inv size (s.mainTurn size) := by
  unfold Server.mainTurn
  split
  · exact h
  · rename_i fd client i hmain
    have hs := h.serving _ _ _ _ hmain
    split_ifs with hi hfree
    · refine h.main (fun _ => .inl rfl) fun phase fd' client' i' heq => ?_
      cases heq
      exact ⟨hs.fd_ne, hs.opened, hs.noThread, hs.closes, hs.client_lt, fun _ => hi,
        fun _ => h.unused hfree, fun h => (by cases h),
        fun h => (by rcases h with h | h <;> cases h)⟩
    · refine h.main (fun _ => .inl rfl) fun phase fd' client' i' heq => ?_
      cases heq
      exact hs.search _ _
    · refine h.main (fun _ => .inl rfl) fun phase fd' client' i' heq => ?_
      cases heq
      exact hs.search _ _
  · rename_i fd client i hmain
    have hs := h.serving _ _ _ _ hmain
    have hphase : Phase.storeAddr ≠ .search := by decide
    refine h.main ((hs.unused hphase).update _) fun phase fd' client' i' heq => ?_
    cases heq
    refine ⟨hs.fd_ne, hs.opened, hs.noThread, hs.closes, hs.client_lt,
      fun _ => hs.slot_lt hphase, fun _ => hs.unused hphase, fun h => (by cases h), fun _ => ?_⟩
    dsimp only
    rw [Function.update_self]
  · rename_i fd client i hmain
    have hs := h.serving _ _ _ _ hmain
    have hphase : Phase.storeFd ≠ .search := by decide
    refine h.main ((hs.unused hphase).update _) fun phase fd' client' i' heq => ?_
    cases heq
    refine ⟨hs.fd_ne, hs.opened, hs.noThread, hs.closes, hs.client_lt,
      fun _ => hs.slot_lt hphase, fun _ => hs.unused hphase, fun _ => ?_, fun _ => ?_⟩
    · dsimp only
      rw [Function.update_self]
    · dsimp only
      rw [Function.update_self]
      exact hs.addr (.inl rfl)
  · rename_i fd client i hmain
    exact h.create (h.serving _ _ _ _ hmain)

/-- A client is accepted. -/
theorem Inv.acceptClient (h : Inv size s) {c_sockfd : Int} (hne : c_sockfd ≠ 0)
    (hunused : s.files c_sockfd = none) : Inv size (s.acceptClient c_sockfd) where
  fits c th hth := by
    have hf := h.fits c th hth
    refine ⟨hf.handed_ne, hf.slot_lt, hf.held, hf.addr, hf.peer, ?_, hf.loaded, hf.closes⟩
    intro hopen
    have hfile := hf.opened hopen
    have hother : th.handed ≠ c_sockfd := by
      rintro hsame
      rw [hsame, hunused] at hfile
      cases hfile
    exact (Function.update_of_ne hother _ _).trans hfile
  exclusive := h.exclusive
  fresh c hc := h.fresh c (Nat.le_of_succ_le hc)
  proper := h.proper
  serving phase fd client i hmain := by
    cases hmain
    obtain ⟨hnone, hcloses⟩ := h.fresh s.accepted (Nat.le_refl _)
    exact ⟨hne, Function.update_self _ _ _, hnone, hcloses, Nat.lt_succ_self _,
      fun hphase => absurd rfl hphase, fun hphase => absurd rfl hphase, fun heq => (by cases heq),
      fun heq => (by rcases heq with heq | heq <;> cases heq)⟩

end AcceptLoop

theorem inv_initial (size : Nat) : Inv size initial where
  fits c th hth := by cases hth
  exclusive c d thc thd hthc := by cases hthc
  fresh _ _ := ⟨rfl, rfl⟩
  proper call hcall := by cases hcall
  serving phase fd client i hmain := by cases hmain

theorem reachable_inv (hreach : (system size).Reachable s) : Inv size s := by
  refine hreach.invariant ?_ ?_
  · rintro _ rfl
    exact inv_initial size
  · intro before label after h hstep
    cases hstep with
    | accept _ _ hne hunused => exact h.acceptClient hne hunused
    | acceptFails => exact h.exit _
    | main => exact h.mainTurn
    | thread _ hth => exact h.threadTurn hth _

/-- The accept loop is about to store a client in the entry. -/
def Assigning (s : Server) (i : Nat) : Prop :=
  ∃ phase fd client, s.main = .busy phase fd client i ∧ (phase = .storeAddr ∨ phase = .storeFd)

/-- The table is used exclusively: an entry is given to a new client when the
thread before has ended, threads that run have entries of their own, every call
of a thread is for the descriptor it was handed, open since its client was
accepted, and a thread that has ended has closed it once. -/
theorem table_exclusive (hreach : (system size).Reachable s) :
    (∀ i, Assigning s i → ∀ c th, s.threads c = some th → th.slot = i → th.pc = .ended) ∧
      (∀ c d thc thd, s.threads c = some thc → s.threads d = some thd → thc.pc ≠ .ended →
        thd.pc ≠ .ended → thc.slot = thd.slot → c = d) ∧
      (∀ call ∈ s.calls, ∃ th, s.threads call.client = some th ∧ call.fd = th.handed ∧
        call.found = some call.client) ∧
      ∀ c th, s.threads c = some th → th.pc = .ended → s.closes c = 1 := by
  have h := reachable_inv hreach
  refine ⟨?_, h.exclusive, h.proper, ?_⟩
  · rintro i ⟨phase, fd, client, hmain, hphase⟩
    refine (h.serving phase fd client i hmain).unused ?_
    rcases hphase with rfl | rfl <;> decide
  · intro c th hth hended
    have hcloses := (h.fits c th hth).closes
    rw [hended] at hcloses
    exact hcloses

/-- A table with one entry: client 0 has gone, and client 1 has got its entry
and its descriptor. -/
theorem table_exclusive_reused : ∃ s, (system 1).Reachable s ∧
    s.threads 0 = some ⟨0, 4, .ended, some 0⟩ ∧ ⟨1, .read, 4, some 1⟩ ∈ s.calls ∧
    s.closes 0 = 1 ∧ ∀ call ∈ s.calls, ∃ th, s.threads call.client = some th ∧
      call.fd = th.handed ∧ call.found = some call.client := by
  have hstart : (system 1).Reachable initial := .start rfl
  have hfirst := ((((hstart.step (show Step 1 _ (.accept 4) _ from
    .accept rfl rfl (by decide) rfl)).step (.main rfl)).step (.main rfl)).step (.main rfl)).step
      (.main rfl)
  -- `read` returns 0
  have hread := ((hfirst.step (show Step 1 _ (.thread 0 0) _ from .thread rfl rfl)).step
    (show Step 1 _ (.thread 0 0) _ from .thread rfl rfl)).step
      (show Step 1 _ (.thread 0 0) _ from .thread rfl rfl)
  have hended := ((hread.step (show Step 1 _ (.thread 0 0) _ from .thread rfl rfl)).step
    (show Step 1 _ (.thread 0 0) _ from .thread rfl rfl)).step
      (show Step 1 _ (.thread 0 0) _ from .thread rfl rfl)
  have hsecond := ((((hended.step (show Step 1 _ (.accept 4) _ from
    .accept rfl rfl (by decide) rfl)).step (.main rfl)).step (.main rfl)).step (.main rfl)).step
      (.main rfl)
  have hagain := ((hsecond.step (show Step 1 _ (.thread 1 5) _ from .thread rfl rfl)).step
    (show Step 1 _ (.thread 1 5) _ from .thread rfl rfl)).step
      (show Step 1 _ (.thread 1 5) _ from .thread rfl rfl)
  obtain ⟨-, -, hproper, hcloses⟩ := table_exclusive hagain
  exact ⟨_, hagain, rfl, List.mem_append_right _ (List.mem_singleton_self _),
    hcloses 0 _ rfl rfl, hproper⟩

end LinuxLearning.Chapter4.TcpServer
