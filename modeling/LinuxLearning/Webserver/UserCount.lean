/-
The count of users.  `m_user_count` is the number of slots with a descriptor,
because `init_conn` is only called on a slot that has none and `close_conn`
counts down only for a slot that has one; unless a store hits a descriptor, or
a connection gets a slot behind the array.
-/
import LinuxLearning.Lib.Census
import LinuxLearning.Webserver.Descriptors

namespace LinuxLearning.Webserver

universe u

open Function

/-- `m_sockfd != -1` -/
def HttpConn.Live (c : HttpConn) : Prop := c.sockfd ≠ -1

/-- What can happen to one slot and the count: both stay, the slot opens and
counts from now on, or it closes and counts no more. -/
inductive Recount (before after : HttpConn) (count count' : Int) : Prop
  | stay (hlive : after.Live ↔ before.Live) (hcount : count' = count)
  | opens (hbefore : ¬ before.Live) (hafter : after.Live) (hcount : count' = count + 1)
  | closes (hbefore : before.Live) (hafter : ¬ after.Live) (hcount : count' = count - 1)

namespace HttpConn

theorem live_congr {c after : HttpConn} (h : after.sockfd = c.sockfd) : after.Live ↔ c.Live := by
  rw [Live, Live, h]

/-- `close_conn` counts down when it closes the slot. -/
theorem closeConn_recount {c after : HttpConn} (hsame : c.sockfd = after.sockfd)
    (userCount uncounted : Int) :
    Recount c (after.closeConn userCount).1 (userCount + uncounted)
      ((after.closeConn userCount).2 + uncounted) := by
  by_cases hclosed : after.sockfd = -1
  · rw [closeConn, if_neg (by simp [hclosed])]
    exact .stay (live_congr hsame.symm) rfl
  · rw [closeConn, if_pos hclosed]
    exact .closes (by rw [Live, hsame]; exact hclosed) (fun hlive => hlive rfl) (by omega)

/-- So does `process`. -/
theorem process_recount (fs : List Byte → FsAnswer) (fellOff : Option HttpCode) (c : HttpConn)
    (userCount uncounted : Int) :
    Recount c (c.process fs fellOff userCount).1 (userCount + uncounted)
      ((c.process fs fellOff userCount).2.1 + uncounted) := by
  have houtcome := processRead_outcome fs fellOff c
  cases hread : c.processRead fs fellOff with
  | mk code rest =>
      obtain ⟨mid, sys⟩ := rest
      rw [hread] at houtcome
      have hsockfd : (mid.processWrite code).2.sockfd = c.sockfd :=
        (processWrite_sockfd mid code).trans houtcome.sockfd
      rcases process_cases hread userCount with ⟨-, heq⟩ | ⟨-, -, heq⟩ | ⟨hcode, hwrite, -⟩
      · rw [heq]
        exact .stay (live_congr houtcome.sockfd) rfl
      · rw [heq]
        exact .stay (live_congr hsockfd) rfl
      · have hclose : c.process fs fellOff userCount =
            (((mid.processWrite code).2.closeConn userCount).1,
              ((mid.processWrite code).2.closeConn userCount).2,
              sys ++ [.modfd ((mid.processWrite code).2.closeConn userCount).1.sockfd
                .epollout]) := by
          simp [process, hread, hcode, hwrite]
        rw [hclose]
        exact closeConn_recount hsockfd.symm userCount uncounted

theorem process_live {fs : List Byte → FsAnswer} {fellOff : Option HttpCode} {c : HttpConn}
    {userCount : Int} (hlive : (c.process fs fellOff userCount).1.Live) : c.Live := by
  rcases (process_sockfd fs fellOff c userCount).1 with hsame | hclosed
  · exact (live_congr hsame).mp hlive
  · exact absurd hclosed hlive

end HttpConn

/-- The connections `init_conn` has set up and not counted. -/
def MainPc.uncounted : MainPc → Int
  | .adding _ _ => 1
  | _ => 0

variable {ι : Type u}

/-- The slots that are not in the epoll set hold nothing, and the others are
counted when they are live. -/
structure Counted (s : Server ι) : Prop where
  outside : ∀ fd, s.epoll fd = none → ¬ (s.users fd).Live
  census : ∃ n : Nat, Census HttpConn.Live s.users n ∧ s.userCount + s.main.uncounted = n

/-- A step that leaves the slots and the count alone, and takes nothing out of
the epoll set. -/
theorem Counted.same {s after : Server ι} (h : Counted s) (husers : after.users = s.users)
    (hepoll : ∀ fd, after.epoll fd = none → s.epoll fd = none)
    (hcount : after.userCount + after.main.uncounted = s.userCount + s.main.uncounted) :
    Counted after where
  outside fd hentry := by
    rw [husers]
    exact h.outside fd (hepoll fd hentry)
  census := by
    obtain ⟨n, hcensus, hn⟩ := h.census
    exact ⟨n, husers ▸ hcensus, hcount.trans hn⟩

/-- A step that acts on one slot. -/
theorem Counted.change {s after : Server ι} (h : Counted s) {fd : Nat} {c : HttpConn}
    (husers : after.users = update s.users fd c)
    (hepoll : ∀ n, after.epoll n = none → s.epoll n = none)
    (hentry : after.epoll fd = none → ¬ c.Live)
    (hcount : Recount (s.users fd) c (s.userCount + s.main.uncounted)
      (after.userCount + after.main.uncounted)) : Counted after where
  outside n hnone := by
    rw [husers]
    by_cases hn : n = fd
    · subst hn
      rw [update_self]
      exact hentry hnone
    · rw [update_of_ne hn]
      exact h.outside n (hepoll n hnone)
  census := by
    obtain ⟨n, hcensus, hn⟩ := h.census
    rw [husers]
    cases hcount with
    | stay hlive hsame => exact ⟨n, hcensus.keep hlive, hsame.trans hn⟩
    | opens hbefore hafter hmore =>
        refine ⟨n + 1, hcensus.enter hbefore hafter, ?_⟩
        rw [hmore, hn]
        rfl
    | closes hbefore hafter hless =>
        have hpos := hcensus.pos hbefore
        refine ⟨n - 1, hcensus.leave hbefore hafter, ?_⟩
        rw [hless, hn]
        omega

/-- A step that acts on one slot, and neither opens nor closes it. -/
theorem Counted.work {s after : Server ι} (h : Counted s) {fd : Nat} {c : HttpConn}
    (husers : after.users = update s.users fd c)
    (hepoll : ∀ n, after.epoll n = none → s.epoll n = none)
    (hsockfd : c.sockfd = (s.users fd).sockfd)
    (hcount : after.userCount + after.main.uncounted = s.userCount + s.main.uncounted) :
    Counted after :=
  have hlive := HttpConn.live_congr hsockfd
  h.change husers hepoll (fun hnone hopen => h.outside fd (hepoll fd hnone) (hlive.mp hopen))
    (.stay hlive hcount)

theorem Starts.counted {s : Server ι} (hstart : Starts s)
    (hclosed : ∀ fd, (s.users fd).sockfd = -1) : Counted s where
  outside fd _ := fun hlive => hlive (hclosed fd)
  census := by
    refine ⟨0, .none fun fd hlive => hlive (hclosed fd), ?_⟩
    rw [hstart.userCount, hstart.main]
    rfl

variable [DecidableEq ι]

/-- The slot that `init_conn` is called on has no entry in the epoll set. -/
theorem admitted_entry {s : Server ι} (hreach : (unhit ι).Reachable s) {fd : Nat}
    {events : List Event} (hmain : s.main = .admitted fd events) : s.epoll fd = none := by
  obtain ⟨phase, hphased, hcoherent⟩ := reachable_phased hreach
  have hphase : (s.slot phase fd).phase = .main .admitted :=
    ((hphased.located fd).main _).mp (by rw [hmain]; rfl)
  exact (hcoherent fd).entered.mpr (by rw [hphase]; trivial)

theorem Step.counted {s after : Server ι} {label : Label ι} (hstep : Step s label after)
    (hreach : (unhit ι).Reachable s) (h : Counted s) : Counted after := by
  have hid : ∀ n, s.epoll n = none → s.epoll n = none := fun _ hnone => hnone
  have hrun : ∀ calls n, runCalls s.epoll calls n = none → s.epoll n = none :=
    fun calls n hnone => (runEntry_eq_none calls).mp hnone
  cases hstep with
  | @epollWait events hmain hreports =>
      refine h.same rfl ?_ (by rw [hmain]; rfl)
      intro fd hnone
      simp only [disarm] at hnone
      split at hnone
      · cases hnone
      · exact hnone
  | @addfd connfd events hmain =>
      have hentry := admitted_entry hreach hmain
      refine h.change rfl ?_ (fun hnone => ?_) (.opens (h.outside connfd hentry) ?_ ?_)
      · intro n hnone
        by_cases hn : n = connfd
        · rw [hn]
          exact hentry
        · exact (update_of_ne hn _ _).symm.trans hnone
      · cases (update_self connfd _ s.epoll).symm.trans hnone
      · exact fun hclosed => absurd hclosed (by simp [HttpConn.setSockfd])
      · rw [hmain]
        simp [MainPc.uncounted]
  | @initialise connfd events hmain =>
      refine h.work rfl hid rfl ?_
      rw [hmain]
      simp [MainPc.uncounted]
  | @read fd events outcomes ok data hmain hread hbad =>
      obtain ⟨data, rfl⟩ := HttpConn.read_recv hread
      refine h.work rfl hid rfl ?_
      rw [hmain]
      cases ok <;> rfl
  | @write fd events outcomes mem r hmain hwrite hbad =>
      exact h.work rfl (hrun r.calls) (HttpConn.write_sockfd hwrite).1 (by rw [hmain]; rfl)
  | @close fd events hmain =>
      refine h.change rfl hid ?_ ?_
      · exact fun _ hlive => hlive (congrArg HttpConn.sockfd (HttpConn.closeConn_fst _ _))
      · rw [hmain]
        exact HttpConn.closeConn_recount rfl _ _
  | @process w fd fs fellOff hworker hanswer =>
      refine h.change rfl hid ?_ (HttpConn.process_recount _ _ _ _ _)
      exact fun hnone hlive => h.outside fd hnone (HttpConn.process_live hlive)
  | @processFile w fd file fs fellOff hworker =>
      refine h.change rfl hid ?_ (HttpConn.process_recount _ _ _ _ _)
      exact fun hnone hlive => h.outside fd hnone (HttpConn.process_live hlive)
  | @rearm w fd calls hworker => exact h.same rfl (hrun calls) rfl
  | @wrote fd ret events hmain =>
      refine h.same rfl hid ?_
      rw [hmain]
      cases ret <;> rfl
  | wake hworker htask => exact h.same rfl hid rfl
  | starve hworker hempty => exact h.same rfl hid rfl
  | pop hworker hqueue => exact h.same rfl hid rfl
  | openFile hworker hanswer hopens hlowest => exact h.same rfl hid rfl
  | _ hmain => exact h.same rfl hid (by rw [hmain]; rfl)

/-- In a run whose stores stay inside, the live slots are counted. -/
theorem closedServer_counted {history : List (Server ι × Label ι)} {s : Server ι}
    (hrun : (closedServer ι).Run history s)
    (hinside : ∀ entry ∈ history, StoresInside entry.1 entry.2) : Counted s := by
  induction hrun with
  | start hstart => exact hstart.1.counted hstart.2
  | @snoc history before after label hbefore hstep ih =>
      rw [List.forall_mem_append, List.forall_mem_singleton] at hinside
      have hreach := run_unhit (run_server hbefore) hinside.1
      exact Step.counted ((serverStep_iff hinside.2).mp hstep) ⟨_, hreach⟩ (ih hinside.1)

/-- In a run that stays inside, between two calls of `init_conn` and
`close_conn`, `m_user_count` is the number of live slots. -/
theorem userCount_eq {history : List (Server ι × Label ι)} {s : Server ι}
    (hrun : (closedServer ι).Run history s)
    (hinside : ∀ entry ∈ history, StoresInside entry.1 entry.2)
    (hslots : ∀ entry ∈ history, SlotInside entry.1 entry.2)
    (hmain : ∀ fd events, s.main ≠ .adding fd events) :
    s.userCount = {fd | fd < MAX_FD ∧ (s.users fd).sockfd ≠ -1}.ncard ∧ 0 ≤ s.userCount := by
  have hcounted := closedServer_counted hrun hinside
  have hunhit := run_unhit (run_server hrun) hinside
  obtain ⟨n, hcensus, hn⟩ := hcounted.census
  have huncounted : s.main.uncounted = 0 := by
    cases hpc : s.main with
    | adding fd events => exact absurd hpc (hmain fd events)
    | _ => rfl
  have harray : {fd | fd < MAX_FD ∧ (s.users fd).sockfd ≠ -1} = {fd | (s.users fd).Live} := by
    ext fd
    refine and_iff_right_of_imp fun hlive => ?_
    by_contra hfd
    exact hcounted.outside fd (run_entry_behind hunhit hslots (Nat.le_of_not_lt hfd)) hlive
  have hcount : s.userCount = n := by omega
  refine ⟨?_, by omega⟩
  rw [harray, hcount]
  exact congrArg Nat.cast hcensus.ncard.2.symm

/-- With one client, whose request a worker has. -/
theorem userCount_eq_one :
    ∃ s : Server (Fin 8), s.userCount = 1 ∧
      s.userCount = {fd | fd < MAX_FD ∧ (s.users fd).sockfd ≠ -1}.ncard ∧ 0 ≤ s.userCount := by
  obtain ⟨history, s, h⟩ := exists_processing (0 : Fin 8) [0] (by decide) (by decide)
  refine ⟨s, h.userCount, userCount_eq h.run (fun entry hentry => (h.steps entry hentry).inside)
    (fun entry hentry => (h.steps entry hentry).slotInside) ?_⟩
  rw [h.main]
  exact nofun

/-- A request whose store takes a byte off the `m_sockfd` of the slot in
front. -/
theorem reviving_request :
    HttpConn.EndsOutside rootRequest [ascii "Content-Length: -3605"] [] [] (-3564) where
  isHead := ⟨by decide, ⟨_, _, rootRequest_line⟩, by decide, rfl⟩
  fits := by decide
  length := by decide
  complete := by decide
  index := by decide
  outside := by decide

/-- It makes a live slot of one that has never held a connection. -/
theorem userCount_short :
    ¬ ∀ s : Server (Fin 8), (closedServer (Fin 8)).Reachable s →
      (∀ fd events, s.main ≠ .adding fd events) →
        s.userCount = {fd | fd < MAX_FD ∧ (s.users fd).sockfd ≠ -1}.ncard := by
  intro hall
  have hdata : headBytes rootRequest [ascii "Content-Length: -3605"] [] ++ [] ≠ [] := by decide
  obtain ⟨history, s, h⟩ := exists_processing (0 : Fin 8) _ hdata (by decide)
  have hne : clientFd 0 ≠ 4 := by decide
  have hlost : s.users 4 = HttpConn.idle := h.others 4 (by decide)
  obtain ⟨conn, tail, hsockfd, hrun⟩ := run_stray h.run h.worker
    (HttpConn.idle.setSockfd (clientFd 0)) h.conn reviving_request
    (hit_sockfd (n := 4) (k := 0) _ _ (by decide) (by decide) (by decide))
    (clientFd 0) (by rw [update_of_ne hne, h.conn]; rfl)
  have hcount := hall _ ⟨_, hrun⟩ (by dsimp only; rw [h.main]; exact nofun)
  dsimp only at hcount
  have htwo : {4, clientFd 0} ⊆ {fd | fd < MAX_FD ∧
      (update (update s.users 4 ((s.users 4).setSockfd (clearByte 32 (s.users 4).sockfd 0).toInt))
        (clientFd 0) conn fd).sockfd ≠ -1} := by
    rintro fd (rfl | rfl)
    · refine ⟨by decide, ?_⟩
      rw [update_of_ne hne.symm, update_self, hlost]
      decide
    · refine ⟨by decide, ?_⟩
      rw [update_self, hsockfd]
      decide
  have hfinite : {fd | fd < MAX_FD ∧
      (update (update s.users 4 ((s.users 4).setSockfd (clearByte 32 (s.users 4).sockfd 0).toInt))
        (clientFd 0) conn fd).sockfd ≠ -1}.Finite :=
    (Set.finite_lt_nat MAX_FD).subset fun fd hfd => hfd.1
  have hcard := Set.ncard_le_ncard htwo hfinite
  rw [Set.ncard_pair hne.symm] at hcard
  rw [h.userCount] at hcount
  omega

end LinuxLearning.Webserver
