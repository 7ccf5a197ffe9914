/-
The poll server (chapter_4/poll.cpp).  `cur_max_fd` is the largest descriptor
accepted so far, and serves as the number of slots: the clients fill the slots
first-free, and there are fewer clients than descriptors.
-/
import LinuxLearning.Lib.SlotTable
import LinuxLearning.Lib.Transition

namespace LinuxLearning.Chapter4.Poll

open SlotTable

def MAX_CLIENT_NUM : Nat := 1024

def POLLIN : BitVec 16 := 1#16

/-- `struct pollfd` -/
structure PollFd where
  fd : Int
  events : BitVec 16
  revents : BitVec 16

/-- `revents & POLLIN` -/
def PollFd.Readable (p : PollFd) : Prop := p.revents &&& POLLIN ≠ 0

instance (p : PollFd) : Decidable p.Readable :=
  inferInstanceAs (Decidable (p.revents &&& POLLIN ≠ 0))

/-- The descriptor of the listening socket; 0, 1 and 2 are open before it. -/
def listenfd : Int := 3

/-- Where `main` is: at the call of `poll`; before slot `i` of the read loop,
with the number of slots given to the last call and what it left in them; or
behind an `exit`. -/
inductive Pc
  | poll
  | loop (nfds : Nat) (polled : Nat → PollFd) (i : Nat)
  | exited

/-- The server.  What lies behind the array is modelled as further slots.
`clients` are the accepted descriptors that are not closed. -/
structure Server where
  fds : Nat → PollFd
  curMaxFd : Nat
  clients : List Int
  pc : Pc

/-- `pollfd fds[MAX_CLIENT_NUM]` after the set-up; no store has been made to
`revents`. -/
structure SetUp (fds : Nat → PollFd) : Prop where
  listen : (fds 0).fd = listenfd
  free : ∀ i, 0 < i → i < MAX_CLIENT_NUM → (fds i).fd = -1
  events : ∀ i < MAX_CLIENT_NUM, (fds i).events = POLLIN

/-- What `poll` leaves in the slots it is given: no events for a slot without
a descriptor. -/
def pollCall (s : Server) (report : Nat → BitVec 16) (i : Nat) : PollFd :=
  if i < s.curMaxFd then
    { s.fds i with revents := if (s.fds i).fd < 0 then 0 else report i }
  else s.fds i

/-- The descriptor of a slot -/
def fdAt (fds : Nat → PollFd) (i : Nat) : Int := (fds i).fd

/-- The loop that looks for a slot for the new client. -/
def addClient (fds : Nat → PollFd) (client_fd : Int) : Nat → PollFd :=
  (firstFree MAX_CLIENT_NUM (-1) (fdAt fds)).elim fds fun i =>
    Function.update fds i { fds i with fd := client_fd, events := POLLIN }

/-- The branch for the listening socket.  `cur_max_fd` is at least 1, so that
the maximum with -1 is the one with 0. -/
def acceptClient (s : Server) (client_fd : Int) : Server :=
  { s with
    fds := addClient s.fds client_fd
    curMaxFd := max s.curMaxFd client_fd.toNat
    clients := if 0 ≤ client_fd then s.clients ++ [client_fd] else s.clients }

@[simp] theorem acceptClient_fds (s : Server) (client_fd : Int) :
    (acceptClient s client_fd).fds = addClient s.fds client_fd := rfl

@[simp] theorem acceptClient_curMaxFd (s : Server) (client_fd : Int) :
    (acceptClient s client_fd).curMaxFd = max s.curMaxFd client_fd.toNat := rfl

theorem acceptClient_clients (s : Server) (client_fd : Int) :
    (acceptClient s client_fd).clients =
      if 0 ≤ client_fd then s.clients ++ [client_fd] else s.clients := rfl

/-- From the call of `poll` to the read loop. -/
def serve (s : Server) (report : Nat → BitVec 16) (client_fd : Int) : Server :=
  let polled := { s with fds := pollCall s report }
  let s' := if (polled.fds 0).Readable then acceptClient polled client_fd else polled
  { s' with pc := .loop s.curMaxFd polled.fds 1 }

/-- `close(fds[i].fd); fds[i].fd = -1;` -/
def closeSlot (s : Server) (i : Nat) : Server :=
  { s with
    fds := Function.update s.fds i { s.fds i with fd := -1 }
    clients := s.clients.erase (s.fds i).fd }

/-- The body of the read loop; `r_len` is what `read` returns, if it is called. -/
def readSlot (s : Server) (nfds : Nat) (polled : Nat → PollFd) (i : Nat) (r_len : Int) :
    Server :=
  if (s.fds i).Readable then
    if r_len = -1 then { closeSlot s i with pc := .exited }
    else if r_len = 0 then { closeSlot s i with pc := .loop nfds polled (i + 1) }
    else { s with pc := .loop nfds polled (i + 1) }
  else { s with pc := .loop nfds polled (i + 1) }

inductive Label
  | poll (report : Nat → BitVec 16) (client_fd : Int)
  | pollFails
  | slot (r_len : Int)
  | again

/-- The steps; `Accepts` says what `accept` may return. -/
inductive Step (Accepts : List Int → Int → Prop) : Server → Label → Server → Prop
  | poll {s : Server} {report : Nat → BitVec 16} {client_fd : Int} (hpc : s.pc = .poll)
      (haccept : Accepts s.clients client_fd) :
      Step Accepts s (.poll report client_fd) (serve s report client_fd)
  | pollFails {s : Server} (hpc : s.pc = .poll) :
      Step Accepts s .pollFails { s with pc := .exited }
  | slot {s : Server} {nfds : Nat} {polled : Nat → PollFd} {i : Nat} {r_len : Int}
      (hpc : s.pc = .loop nfds polled i) (hi : i ≤ s.curMaxFd) :
      Step Accepts s (.slot r_len) (readSlot s nfds polled i r_len)
  | again {s : Server} {nfds : Nat} {polled : Nat → PollFd} {i : Nat}
      (hpc : s.pc = .loop nfds polled i) (hi : s.curMaxFd < i) :
      Step Accepts s .again { s with pc := .poll }

def system (Accepts : List Int → Int → Prop) : TransitionSystem Server Label where
  start s := SetUp s.fds ∧ s.curMaxFd = 1 ∧ s.clients = [] ∧ s.pc = .poll
  step := Step Accepts

/-- `accept` fails or returns a descriptor below `MAX_CLIENT_NUM` that is not
in use. -/
def Unused (clients : List Int) (client_fd : Int) : Prop :=
  client_fd = -1 ∨ listenfd < client_fd ∧ client_fd < MAX_CLIENT_NUM ∧ client_fd ∉ clients

section Slots

variable {fds : Nat → PollFd}

theorem fdAt_update (fds : Nat → PollFd) (i : Nat) (p : PollFd) :
    fdAt (Function.update fds i p) = Function.update (fdAt fds) i p.fd := by
  funext j
  by_cases hj : j = i
  · subst hj
    rw [fdAt, Function.update_self, Function.update_self]
  · rw [fdAt, Function.update_of_ne hj, Function.update_of_ne hj]
    rfl

theorem fdAt_pollCall (s : Server) (report : Nat → BitVec 16) :
    fdAt (pollCall s report) = fdAt s.fds := by
  funext i
  unfold fdAt pollCall
  split_ifs <;> rfl

theorem fdAt_addClient {k : Nat} (hk : firstFree MAX_CLIENT_NUM (-1) (fdAt fds) = some k)
    (client_fd : Int) :
    fdAt (addClient fds client_fd) = Function.update (fdAt fds) k client_fd := by
  rw [addClient, hk]
  exact fdAt_update _ _ _

/-- When `accept` fails, no descriptor of a slot changes. -/
theorem fdAt_addClient_failed (fds : Nat → PollFd) : fdAt (addClient fds (-1)) = fdAt fds := by
  cases hfirst : firstFree MAX_CLIENT_NUM (-1) (fdAt fds) with
  | none => rw [addClient, hfirst, Option.elim_none]
  | some k =>
      have hfree := (firstFree_eq_some.mp hfirst).2.1
      rw [fdAt_addClient hfirst (-1), ← hfree, Function.update_eq_self]

end Slots

/-- The slots hold the clients, each of them one, below `cur_max_fd`. -/
structure Inv (s : Server) : Prop where
  listen : fdAt s.fds 0 = listenfd
  exclusive : Exclusive 1 MAX_CLIENT_NUM (-1) (fdAt s.fds)
  held : ∀ i, 1 ≤ i → i < MAX_CLIENT_NUM → fdAt s.fds i ≠ -1 → fdAt s.fds i ∈ s.clients
  nodup : s.clients.Nodup
  bound : ∀ c ∈ s.clients, listenfd < c ∧ c ≤ s.curMaxFd
  placed : ∀ c ∈ s.clients, ∃ i, 1 ≤ i ∧ i < s.curMaxFd ∧ fdAt s.fds i = c
  maxFd : 1 ≤ s.curMaxFd ∧ s.curMaxFd < MAX_CLIENT_NUM

namespace Inv

variable {s : Server}

/-- The invariant reads the descriptors of the slots, `cur_max_fd` and the
clients. -/
theorem congr (h : Inv s) {s' : Server} (hfds : fdAt s'.fds = fdAt s.fds)
    (hmax : s'.curMaxFd = s.curMaxFd) (hclients : s'.clients = s.clients) : Inv s' := by
  constructor
  · rw [hfds]; exact h.listen
  · rw [hfds]; exact h.exclusive
  · rw [hfds, hclients]; exact h.held
  · rw [hclients]; exact h.nodup
  · rw [hclients, hmax]; exact h.bound
  · rw [hfds, hclients, hmax]; exact h.placed
  · rw [hmax]; exact h.maxFd

/-- With a new client below some bound the slots below it cannot all be taken:
the descriptors up to `listenfd` are not those of clients. -/
theorem exists_slot (h : Inv s) {bound : Nat} (hmax : s.curMaxFd ≤ bound)
    (hlisten : listenfd < bound) (hbound : bound < MAX_CLIENT_NUM) :
    ∃ k, 1 ≤ k ∧ k < bound ∧ firstFree MAX_CLIENT_NUM (-1) (fdAt s.fds) = some k := by
  have hlisten' : (3 : Int) < bound := hlisten
  have hrange : ∀ i, 1 ≤ i → i < bound → fdAt s.fds i ≠ -1 →
      4 ≤ fdAt s.fds i ∧ fdAt s.fds i < bound + 1 := by
    intro i hi hlt hne
    have hc := h.bound _ (h.held i hi (Nat.lt_trans hlt hbound) hne)
    unfold listenfd at hc
    omega
  have hexclusive : Exclusive 1 bound (-1) (fdAt s.fds) := fun i j hi hilt hj hjlt =>
    h.exclusive i j hi (Nat.lt_trans hilt hbound) hj (Nat.lt_trans hjlt hbound)
  obtain ⟨i, hi, hlt, hfree⟩ := exists_free hexclusive hrange (by omega) (by omega)
  obtain ⟨k, hki, hfirst⟩ := exists_firstFree (Nat.lt_trans hlt hbound) hfree
  refine ⟨k, ?_, Nat.lt_of_le_of_lt hki hlt, hfirst⟩
  rcases Nat.eq_zero_or_pos k with rfl | hpos
  · have hzero := (firstFree_eq_some.mp hfirst).2.1
    rw [h.listen] at hzero
    cases hzero
  · exact hpos

/-- A new client in a slot below the new `cur_max_fd`. -/
theorem join (h : Inv s) {after : Server} {n k : Nat} (hlisten : listenfd < n)
    (hfresh : (n : Int) ∉ s.clients) (hk : 1 ≤ k) (hkmax : k < max s.curMaxFd n)
    (hbound : max s.curMaxFd n < MAX_CLIENT_NUM)
    (hfds : fdAt after.fds = Function.update (fdAt s.fds) k n)
    (hfree : fdAt s.fds k = -1) (hcurMax : after.curMaxFd = max s.curMaxFd n)
    (hclients : after.clients = s.clients ++ [(n : Int)]) : Inv after := by
  have habsent : ∀ i, 1 ≤ i → i < MAX_CLIENT_NUM → fdAt s.fds i ≠ (n : Int) := by
    intro i hi hlt hsame
    exact hfresh (hsame ▸ h.held i hi hlt (by omega))
  constructor
  · rw [hfds, Function.update_of_ne (by omega)]
    exact h.listen
  · rw [hfds]
    exact h.exclusive.put k habsent
  · intro i hi hlt hne
    rw [hclients]
    rw [hfds] at hne ⊢
    by_cases hik : i = k
    · subst hik
      rw [Function.update_self]
      exact List.mem_append_right _ List.mem_cons_self
    · rw [Function.update_of_ne hik] at hne ⊢
      exact List.mem_append_left _ (h.held i hi hlt hne)
  · rw [hclients]
    exact List.nodup_append.mpr ⟨h.nodup, List.nodup_singleton _, by
      intro c hc d hd hcd
      rw [List.mem_singleton] at hd
      exact hfresh (hd ▸ hcd ▸ hc)⟩
  · intro c hc
    rw [hclients] at hc
    rw [hcurMax]
    rcases List.mem_append.mp hc with hold | hnew
    · have := h.bound c hold
      omega
    · rw [List.mem_singleton] at hnew
      omega
  · intro c hc
    rw [hclients] at hc
    rw [hcurMax, hfds]
    rcases List.mem_append.mp hc with hold | hnew
    · obtain ⟨i, hi, hlt, hsame⟩ := h.placed c hold
      have hik : i ≠ k := by
        rintro rfl
        have := (h.bound c hold).1
        unfold listenfd at this
        omega
      refine ⟨i, hi, by omega, ?_⟩
      rw [Function.update_of_ne hik]
      exact hsame
    · rw [List.mem_singleton] at hnew
      exact ⟨k, hk, hkmax, by rw [Function.update_self, hnew]⟩
  · rw [hcurMax]
    exact ⟨Nat.le_trans h.maxFd.1 (Nat.le_max_left _ _), hbound⟩

theorem acceptClient (h : Inv s) {client_fd : Int} (haccept : Unused s.clients client_fd) :
    Inv (acceptClient s client_fd) := by
  rcases haccept with rfl | ⟨hlisten, hmax, hfresh⟩
  · refine h.congr ?_ (Nat.max_zero _) ?_
    · rw [acceptClient_fds, fdAt_addClient_failed]
    · rw [acceptClient_clients, if_neg (by decide)]
  · have hpos : (0 : Int) ≤ client_fd := by
      unfold listenfd at hlisten
      omega
    obtain ⟨n, rfl⟩ := Int.eq_ofNat_of_zero_le hpos
    have hn : n < MAX_CLIENT_NUM := Int.ofNat_lt.mp hmax
    have hbound : max s.curMaxFd n < MAX_CLIENT_NUM := Nat.max_lt.mpr ⟨h.maxFd.2, hn⟩
    have hlisten' : listenfd < (max s.curMaxFd n : Nat) := by
      unfold listenfd at hlisten ⊢
      omega
    obtain ⟨k, hk, hkmax, hfirst⟩ := h.exists_slot (Nat.le_max_left _ _) hlisten' hbound
    refine h.join hlisten hfresh hk hkmax hbound ?_ (firstFree_eq_some.mp hfirst).2.1 ?_ ?_
    · rw [acceptClient_fds, fdAt_addClient hfirst]
    · rw [acceptClient_curMaxFd, Int.toNat_natCast]
    · rw [acceptClient_clients, if_pos hpos]

theorem closeSlot (h : Inv s) {i : Nat} (hi : 1 ≤ i) (hlt : i < MAX_CLIENT_NUM) :
    Inv (closeSlot s i) := by
  have hfds : fdAt (Poll.closeSlot s i).fds = Function.update (fdAt s.fds) i (-1) :=
    fdAt_update _ _ _
  constructor
  · rw [hfds, Function.update_of_ne (by omega)]
    exact h.listen
  · rw [hfds]
    exact h.exclusive.clear i
  · intro j hj hjlt hne
    rw [hfds] at hne ⊢
    have hji : j ≠ i := by
      rintro rfl
      exact hne (Function.update_self _ _ _)
    rw [Function.update_of_ne hji] at hne ⊢
    have hother : fdAt s.fds j ≠ fdAt s.fds i := fun hsame =>
      hji (h.exclusive j i hj hjlt hi hlt hsame hne)
    exact (List.mem_erase_of_ne hother).mpr (h.held j hj hjlt hne)
  · exact h.nodup.erase _
  · exact fun c hc => h.bound c (List.mem_of_mem_erase hc)
  · intro c hc
    obtain ⟨hne, hmem⟩ := h.nodup.mem_erase_iff.mp hc
    obtain ⟨j, hj, hjlt, hsame⟩ := h.placed c hmem
    have hji : j ≠ i := by
      rintro rfl
      exact hne hsame.symm
    refine ⟨j, hj, hjlt, ?_⟩
    rw [hfds, Function.update_of_ne hji]
    exact hsame
  · exact h.maxFd

end Inv

section Frame

theorem le_curMaxFd_serve (s : Server) (report : Nat → BitVec 16) (client_fd : Int) :
    s.curMaxFd ≤ (serve s report client_fd).curMaxFd := by
  unfold serve
  dsimp only
  split_ifs
  · exact Nat.le_max_left _ _
  · exact Nat.le_refl _

theorem readSlot_message {s : Server} {nfds i : Nat} {polled : Nat → PollFd} {r_len : Int}
    (hlen : 0 < r_len) :
    readSlot s nfds polled i r_len = { s with pc := .loop nfds polled (i + 1) } := by
  unfold readSlot
  rw [if_neg (show ¬ r_len = -1 by omega), if_neg (show ¬ r_len = 0 by omega), ite_self]

end Frame

/-- The read loop never looks at the slot of the listening socket. -/
def PastListener (s : Server) : Prop :=
  ∀ nfds polled i, s.pc = .loop nfds polled i → 1 ≤ i

theorem Inv.readSlot {s : Server} (h : Inv s) {nfds i : Nat} {polled : Nat → PollFd}
    {r_len : Int} (hi : 1 ≤ i) (hlt : i ≤ s.curMaxFd) :
    Inv (readSlot s nfds polled i r_len) := by
  have hmax := h.maxFd.2
  unfold Poll.readSlot
  split_ifs
  · exact (h.closeSlot hi (by omega)).congr rfl rfl rfl
  · exact (h.closeSlot hi (by omega)).congr rfl rfl rfl
  · exact h.congr rfl rfl rfl
  · exact h.congr rfl rfl rfl

theorem pastListener_readSlot {s : Server} {nfds i : Nat} {polled : Nat → PollFd} {r_len : Int} :
    PastListener (readSlot s nfds polled i r_len) := by
  intro nfds' polled' j hpc
  unfold readSlot at hpc
  split_ifs at hpc <;> cases hpc <;> exact Nat.succ_le_succ (Nat.zero_le i)

theorem Inv.serve {s : Server} (h : Inv s) {report : Nat → BitVec 16} {client_fd : Int}
    (haccept : Unused s.clients client_fd) : Inv (serve s report client_fd) := by
  have hpolled : Inv { s with fds := pollCall s report } :=
    h.congr (fdAt_pollCall s report) rfl rfl
  unfold Poll.serve
  dsimp only
  split_ifs
  · exact (hpolled.acceptClient haccept).congr rfl rfl rfl
  · exact hpolled.congr rfl rfl rfl

theorem inv_start {s : Server} (hfds : SetUp s.fds) (hmax : s.curMaxFd = 1)
    (hclients : s.clients = []) : Inv s where
  listen := hfds.listen
  exclusive i j hi hilt _ _ _ hne := absurd (hfds.free i hi hilt) hne
  held i hi hlt hne := absurd (hfds.free i hi hlt) hne
  nodup := hclients ▸ List.nodup_nil
  bound c hc := by rw [hclients] at hc; cases hc
  placed c hc := by rw [hclients] at hc; cases hc
  maxFd := by rw [hmax]; decide

/-- What holds in every state. -/
structure Watching (s : Server) : Prop where
  inv : Inv s
  past : PastListener s

theorem reachable_watching {s : Server} (hreach : (system Unused).Reachable s) : Watching s := by
  refine hreach.invariant ?_ ?_
  · rintro s ⟨hfds, hmax, hclients, hpc⟩
    refine ⟨inv_start hfds hmax hclients, fun nfds polled i hloop => ?_⟩
    rw [hpc] at hloop
    cases hloop
  · rintro before label after ⟨h, hpast⟩ hstep
    cases hstep with
    | poll _ haccept =>
        refine ⟨h.serve haccept, fun nfds polled i hloop => ?_⟩
        cases hloop
        exact Nat.le_refl 1
    | pollFails => exact ⟨h.congr rfl rfl rfl, fun _ _ _ hloop => by cases hloop⟩
    | slot hpc hi => exact ⟨h.readSlot (hpast _ _ _ hpc) hi, pastListener_readSlot⟩
    | again => exact ⟨h.congr rfl rfl rfl, fun _ _ _ hloop => by cases hloop⟩

/-- Every client stands in exactly one slot, and the next call of `poll` is
given that slot. -/
theorem client_watched {s : Server} (hreach : (system Unused).Reachable s) :
    ∀ c ∈ s.clients, ∃ i, 1 ≤ i ∧ i < s.curMaxFd ∧ fdAt s.fds i = c ∧
      ∀ j < MAX_CLIENT_NUM, fdAt s.fds j = c → j = i := by
  intro c hc
  have h := (reachable_watching hreach).inv
  obtain ⟨i, hi, hlt, hsame⟩ := h.placed c hc
  have hclient := (h.bound c hc).1
  refine ⟨i, hi, hlt, hsame, fun j hj hother => ?_⟩
  have hne : fdAt s.fds j ≠ -1 := by
    rw [hother]
    unfold listenfd at hclient
    omega
  have hpos : 1 ≤ j := by
    rcases Nat.eq_zero_or_pos j with rfl | hpos
    · rw [h.listen] at hother
      exact absurd hother (Int.ne_of_lt hclient)
    · exact hpos
  exact h.exclusive j i hpos hj hi (Nat.lt_trans hlt h.maxFd.2) (hother.trans hsame.symm) hne

/-- As long as clients send, the loop goes on. -/
theorem reachable_messages {Accepts : List Int → Int → Prop} {s : Server}
    (hreach : (system Accepts).Reachable s) {nfds i n : Nat} {polled : Nat → PollFd}
    (hpc : s.pc = .loop nfds polled i) (hn : i + n ≤ s.curMaxFd + 1) :
    (system Accepts).Reachable { s with pc := .loop nfds polled (i + n) } := by
  induction n with
  | zero =>
      rw [Nat.add_zero, ← hpc]
      exact hreach
  | succ n ih =>
      have hslot : (system Accepts).step { s with pc := .loop nfds polled (i + n) } (.slot 1)
          (readSlot { s with pc := .loop nfds polled (i + n) } nfds polled (i + n) 1) :=
        .slot rfl (by dsimp only; omega)
      rw [readSlot_message (by decide)] at hslot
      exact (ih (by omega)).step hslot

/-- The set-up on an empty stack. -/
def quiet (i : Nat) : PollFd := ⟨if i = 0 then listenfd else -1, POLLIN, 0⟩

theorem setUp_quiet : SetUp quiet where
  listen := rfl
  free _ hi _ := if_neg (Nat.ne_of_gt hi)
  events _ _ := rfl

/-- The server before its second call of `poll`, with one client. -/
def oneClient : Server :=
  { serve ⟨quiet, 1, [], .poll⟩ (fun _ => POLLIN) 4 with pc := .poll }

theorem oneClient_reachable : (system Unused).Reachable oneClient := by
  have hstart : (system Unused).Reachable ⟨quiet, 1, [], .poll⟩ :=
    .start ⟨setUp_quiet, rfl, rfl, rfl⟩
  have hpoll : (system Unused).step ⟨quiet, 1, [], .poll⟩ (.poll (fun _ => POLLIN) 4)
      (serve ⟨quiet, 1, [], .poll⟩ (fun _ => POLLIN) 4) :=
    .poll rfl (.inr ⟨by decide, by decide, List.not_mem_nil⟩)
  have hslots := reachable_messages (n := 4) (hstart.step hpoll) rfl (by decide)
  exact hslots.step (.again rfl (by decide))

theorem oneClient_watched : ∃ i, 1 ≤ i ∧ i < oneClient.curMaxFd ∧ fdAt oneClient.fds i = 4 ∧
    ∀ j < MAX_CLIENT_NUM, fdAt oneClient.fds j = 4 → j = i :=
  client_watched oneClient_reachable 4 (by decide)

end LinuxLearning.Chapter4.Poll
