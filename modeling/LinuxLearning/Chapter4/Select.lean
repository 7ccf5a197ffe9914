/-
The select server (chapter_4/select.cpp).  `u_read_set` is the listening socket
and the open clients, all of them below `MAXFD + 1`; a round of the loop reads
once from every client that `select` has reported, and from no other.
-/
import LinuxLearning.Lib.Cells
import LinuxLearning.Lib.Transition
import Mathlib.Data.Finset.Basic
import Mathlib.Data.List.Induction

namespace LinuxLearning.Chapter4.Select

open Cells

/-- The descriptors an `fd_set` has room for. -/
def FD_SETSIZE : Nat := 1024

/-- `sizeof(buf)` -/
def BUF_SIZE : Nat := 1024

/-- The descriptor of the listening socket; 0, 1 and 2 are open before it. -/
def listenfd : Nat := 3

/-- Where `main` is: at the call of `select`; before descriptor `i` of the read
loop, with the set that `select` has left; behind an `exit`; or behind an
access outside of `u_read_set` or of `buf`. -/
inductive Pc where
  | select
  | loop (kReadSet : Finset Nat) (i : Nat)
  | exited
  | overrun
deriving DecidableEq

/-- The server; `clients` are the accepted descriptors that are not closed. -/
structure Server where
  uReadSet : Finset Nat
  maxFd : Nat
  clients : Finset Nat
  pc : Pc

/-- What `read` returns. -/
inductive ReadOutcome where
  | error
  | eof
  | data (bytes : List Byte)
deriving DecidableEq

inductive Label where
  | selectFails
  | select (reported : Finset Nat)
  | accept (reported : Finset Nat) (clientfd : Int)
  | skip
  | read (fd : Nat) (outcome : ReadOutcome)
  | again

/-- What `write(i, buf, strlen(buf) + 1)` sends; without a NUL `strlen` leaves
`buf`. -/
def reply (bytes : List Byte) : Option (List Byte) :=
  (shown (store (zeroed BUF_SIZE) bytes)).map (· ++ [0])

/-- `FD_SET(clientfd, &u_read_set); MAXFD = max(MAXFD, clientfd);` -/
def acceptClient (s : Server) (reported : Finset Nat) (clientfd : Int) : Server :=
  if 0 ≤ clientfd ∧ clientfd < FD_SETSIZE then
    { uReadSet := insert clientfd.toNat s.uReadSet
      maxFd := max s.maxFd clientfd.toNat
      clients := insert clientfd.toNat s.clients
      pc := .loop reported (listenfd + 1) }
  else { s with pc := .overrun }

/-- The body of the read loop for a descriptor in the set. -/
def readClient (s : Server) (reported : Finset Nat) (i : Nat) : ReadOutcome → Server
  | .error => { s with pc := .exited }
  | .eof =>
      { s with
        uReadSet := s.uReadSet.erase i
        clients := s.clients.erase i
        pc := .loop reported (i + 1) }
  | .data bytes =>
      match reply bytes with
      | some _ => { s with pc := .loop reported (i + 1) }
      | none => { s with pc := .overrun }

/-- What `select(MAXFD + 1, ...)` leaves in the set it is given: some of the
descriptors below its first argument. -/
structure Reports (s : Server) (reported : Finset Nat) : Prop where
  nonempty : reported.Nonempty
  watched : reported ⊆ s.uReadSet
  below : ∀ fd ∈ reported, fd < s.maxFd + 1

/-- `accept` fails or returns a descriptor that is not in use. -/
def Unused (clients : Finset Nat) (clientfd : Int) : Prop :=
  clientfd = -1 ∨ ∃ fd : Nat, clientfd = fd ∧ listenfd < fd ∧ fd ∉ clients

inductive Step (s : Server) : Label → Server → Prop
  | selectFails (hpc : s.pc = .select) : Step s .selectFails { s with pc := .exited }
  | select {reported : Finset Nat} (hpc : s.pc = .select) (hreports : Reports s reported)
      (hlisten : listenfd ∉ reported) :
      Step s (.select reported) { s with pc := .loop reported (listenfd + 1) }
  | accept {reported : Finset Nat} {clientfd : Int} (hpc : s.pc = .select)
      (hreports : Reports s reported) (hlisten : listenfd ∈ reported)
      (hunused : Unused s.clients clientfd) :
      Step s (.accept reported clientfd) (acceptClient s reported clientfd)
  | skip {reported : Finset Nat} {i : Nat} (hpc : s.pc = .loop reported i)
      (hi : i < s.maxFd + 1) (hnot : i ∉ reported) :
      Step s .skip { s with pc := .loop reported (i + 1) }
  | read {reported : Finset Nat} {i : Nat} {outcome : ReadOutcome}
      (hpc : s.pc = .loop reported i) (hi : i < s.maxFd + 1) (hin : i ∈ reported) :
      Step s (.read i outcome) (readClient s reported i outcome)
  | again {reported : Finset Nat} {i : Nat} (hpc : s.pc = .loop reported i)
      (hi : ¬ i < s.maxFd + 1) :
      Step s .again { s with pc := .select }

/-- Behind `FD_SET(listenfd, &u_read_set)`. -/
def system : TransitionSystem Server Label where
  start s := s = ⟨{listenfd}, listenfd, ∅, .select⟩
  step := Step

/-- A step that stays inside of `u_read_set` and of `buf`. -/
def Fits : Label → Prop
  | .accept _ clientfd => 0 ≤ clientfd ∧ clientfd < FD_SETSIZE
  | .read _ (.data bytes) => bytes.length < BUF_SIZE ∨ 0 ∈ bytes
  | _ => True

/-- The descriptors that a piece of a run reads from. -/
def reads (history : List (Server × Label)) : List Nat :=
  history.filterMap fun entry => match entry.2 with
    | .read fd _ => some fd
    | _ => none

/-- The set that a call of `select` has left. -/
def Label.reported : Label → Option (Finset Nat)
  | .select reported | .accept reported _ => some reported
  | _ => none

/-- The reported clients below `i`, in order. -/
def readBefore (reported : Finset Nat) (i : Nat) : List Nat :=
  (List.range i).filter fun fd => listenfd < fd ∧ fd ∈ reported

/-- What a round has read from, when it has come to descriptor `i` and when it
is over; the loop reaches all that is reported. -/
def Round (reported : Finset Nat) (fds : List Nat) (s : Server) : Prop :=
  (∀ fd ∈ reported, listenfd ≤ fd ∧ fd < s.maxFd + 1) ∧
  match s.pc with
  | .loop kReadSet i => kReadSet = reported ∧ fds = readBefore reported i
  | .select => fds = readBefore reported (s.maxFd + 1)
  | .exited | .overrun => True

/-- The invariant: `u_read_set` is the listening socket and the clients, which
`select` is asked about; and what is still to be read from is open. -/
structure Inv (s : Server) : Prop where
  uReadSet : s.uReadSet = insert listenfd s.clients
  bound : ∀ fd ∈ s.clients, listenfd < fd ∧ fd ≤ s.maxFd
  maxFd : listenfd ≤ s.maxFd ∧ s.maxFd < FD_SETSIZE
  loop : ∀ reported i, s.pc = .loop reported i → listenfd < i ∧ i ≤ s.maxFd + 1 ∧
    ∀ fd ∈ reported, i ≤ fd → fd ∈ s.clients
  inside : s.pc ≠ .overrun

theorem reply_eq {bytes : List Byte} (h : bytes.length < BUF_SIZE ∨ 0 ∈ bytes) :
    reply bytes = some (bytes.takeWhile (· != 0) ++ [0]) := by
  rw [reply, shown_zeroed h, Option.map_some]

theorem reply_eq_none {bytes : List Byte} (h : ¬ (bytes.length < BUF_SIZE ∨ 0 ∈ bytes)) :
    reply bytes = none := by
  rw [reply, shown_zeroed_none h, Option.map_none]

theorem readBefore_start (reported : Finset Nat) : readBefore reported (listenfd + 1) = [] := by
  rw [readBefore, List.filter_eq_nil_iff]
  intro fd hfd
  rw [List.mem_range] at hfd
  simp only [decide_eq_true_eq, not_and]
  omega

theorem readBefore_succ (reported : Finset Nat) (i : Nat) :
    readBefore reported (i + 1) =
      readBefore reported i ++ if listenfd < i ∧ i ∈ reported then [i] else [] := by
  rw [readBefore, List.range_succ, List.filter_append, ← readBefore]
  by_cases hi : listenfd < i ∧ i ∈ reported <;> simp [hi]

section Step

variable {s after : Server} {label : Label}

/-- What `select` may report is the listening socket or an open client. -/
theorem Inv.reports (h : Inv s) {reported : Finset Nat} (hreports : Reports s reported) {fd : Nat}
    (hfd : fd ∈ reported) (hlisten : listenfd + 1 ≤ fd) : fd ∈ s.clients := by
  have hwatched := hreports.watched hfd
  rw [h.uReadSet, Finset.mem_insert] at hwatched
  rcases hwatched with rfl | hclient
  · omega
  · exact hclient

theorem Inv.step (h : Inv s) (hfits : Fits label) (hstep : Step s label after) : Inv after := by
  cases hstep with
  | selectFails => exact ⟨h.uReadSet, h.bound, h.maxFd, nofun, nofun⟩
  | @select reported hpc hreports hlisten =>
      refine ⟨h.uReadSet, h.bound, h.maxFd, ?_, nofun⟩
      intro k i hloop
      cases hloop
      exact ⟨Nat.lt_succ_self _, Nat.succ_le_succ h.maxFd.1, fun fd hfd => h.reports hreports hfd⟩
  | @accept reported clientfd hpc hreports hlisten hunused =>
      rcases hunused with rfl | ⟨fd, rfl, hlt, hfresh⟩
      · exact absurd hfits.1 (by decide)
      · have hsize : fd < FD_SETSIZE := Int.ofNat_lt.mp hfits.2
        rw [acceptClient, if_pos (show 0 ≤ (fd : Int) ∧ (fd : Int) < FD_SETSIZE from hfits),
          Int.toNat_natCast]
        refine ⟨?_, ?_, ⟨?_, ?_⟩, ?_, nofun⟩
        · rw [h.uReadSet, Finset.insert_comm]
        · intro c hc
          rcases Finset.mem_insert.mp hc with rfl | hold
          · exact ⟨hlt, Nat.le_max_right _ _⟩
          · exact ⟨(h.bound c hold).1, (h.bound c hold).2.trans (Nat.le_max_left _ _)⟩
        · exact h.maxFd.1.trans (Nat.le_max_left _ _)
        · exact Nat.max_lt.mpr ⟨h.maxFd.2, hsize⟩
        · intro k i hloop
          cases hloop
          refine ⟨Nat.lt_succ_self _, Nat.succ_le_succ (h.maxFd.1.trans (Nat.le_max_left _ _)), ?_⟩
          exact fun c hc hle => Finset.mem_insert_of_mem (h.reports hreports hc hle)
  | @skip reported i hpc hi hnot =>
      obtain ⟨hlt, -, hpending⟩ := h.loop reported i hpc
      refine ⟨h.uReadSet, h.bound, h.maxFd, ?_, nofun⟩
      intro k j hloop
      cases hloop
      exact ⟨Nat.lt_succ_of_lt hlt, hi, fun fd hfd hle => hpending fd hfd (Nat.le_of_succ_le hle)⟩
  | @read reported i outcome hpc hi hin =>
      obtain ⟨hlt, -, hpending⟩ := h.loop reported i hpc
      cases outcome with
      | error => exact ⟨h.uReadSet, h.bound, h.maxFd, nofun, nofun⟩
      | eof =>
          refine ⟨?_, ?_, h.maxFd, ?_, nofun⟩
          · dsimp only [readClient]
            rw [h.uReadSet, Finset.erase_insert_of_ne (Nat.ne_of_lt hlt)]
          · exact fun fd hfd => h.bound fd (Finset.mem_of_mem_erase hfd)
          · intro k j hloop
            cases hloop
            refine ⟨Nat.lt_succ_of_lt hlt, hi, fun fd hfd hle => ?_⟩
            refine Finset.mem_erase.mpr ⟨?_, hpending fd hfd (Nat.le_of_succ_le hle)⟩
            exact Nat.ne_of_gt hle
      | data bytes =>
          rw [readClient, reply_eq hfits]
          refine ⟨h.uReadSet, h.bound, h.maxFd, ?_, nofun⟩
          intro k j hloop
          cases hloop
          exact ⟨Nat.lt_succ_of_lt hlt, hi,
            fun fd hfd hle => hpending fd hfd (Nat.le_of_succ_le hle)⟩
  | again hpc hi => exact ⟨h.uReadSet, h.bound, h.maxFd, nofun, nofun⟩

/-- A step that does not stay inside is the last one. -/
theorem overrun_of_not_fits (hfits : ¬ Fits label) (hstep : Step s label after) :
    after.pc = .overrun := by
  cases hstep with
  | @accept reported clientfd =>
      rw [acceptClient, if_neg (show ¬ (0 ≤ clientfd ∧ clientfd < FD_SETSIZE) from hfits)]
  | @read reported i outcome hpc hi hin =>
      cases outcome with
      | error | eof => exact (hfits trivial).elim
      | data bytes => rw [readClient, reply_eq_none hfits]
  | _ => exact (hfits trivial).elim

/-- All that `select` reports is at or above the listening socket. -/
theorem Inv.listenfd_le (h : Inv s) {reported : Finset Nat} (hreports : Reports s reported)
    {fd : Nat} (hfd : fd ∈ reported) : listenfd ≤ fd := by
  have hwatched := hreports.watched hfd
  rw [h.uReadSet, Finset.mem_insert] at hwatched
  rcases hwatched with rfl | hclient
  · exact Nat.le_refl _
  · exact (h.bound fd hclient).1.le

/-- A round starts with no read. -/
theorem Step.round_start (hstep : Step s label after) (hinv : Inv s) {reported : Finset Nat}
    (hlabel : label.reported = some reported) : Round reported [] after := by
  have hnil := (readBefore_start reported).symm
  cases hstep with
  | select hpc hreports hlisten =>
      cases hlabel
      exact ⟨fun fd hfd => ⟨hinv.listenfd_le hreports hfd, hreports.below fd hfd⟩, rfl, hnil⟩
  | accept hpc hreports hlisten hunused =>
      cases hlabel
      rw [acceptClient]
      split
      · refine ⟨fun fd hfd => ⟨hinv.listenfd_le hreports hfd, ?_⟩, rfl, hnil⟩
        exact (hreports.below fd hfd).trans_le (Nat.succ_le_succ (Nat.le_max_left _ _))
      · exact ⟨fun fd hfd => ⟨hinv.listenfd_le hreports hfd, hreports.below fd hfd⟩, trivial⟩
  | _ => cases hlabel

/-- What one more step of a round reads from. -/
theorem Step.round (hstep : Step s label after) (hinv : Inv s) {reported : Finset Nat}
    {fds : List Nat} (hround : Round reported fds s) (hlabel : label.reported = none) :
    Round reported (fds ++ reads [(s, label)]) after := by
  obtain ⟨hwithin, hround⟩ := hround
  cases hstep with
  | selectFails => exact ⟨hwithin, trivial⟩
  | select | accept => cases hlabel
  | @skip k i hpc hi hnot =>
      rw [hpc] at hround
      obtain ⟨rfl, rfl⟩ := hround
      refine ⟨hwithin, rfl, ?_⟩
      rw [readBefore_succ, if_neg fun h => hnot h.2]
      rfl
  | @read k i outcome hpc hi hin =>
      rw [hpc] at hround
      obtain ⟨rfl, rfl⟩ := hround
      have hlt := (hinv.loop k i hpc).1
      have hmore : readBefore k i ++ [i] = readBefore k (i + 1) := by
        rw [readBefore_succ, if_pos ⟨hlt, hin⟩]
      cases outcome with
      | error => exact ⟨hwithin, trivial⟩
      | eof => exact ⟨hwithin, rfl, hmore⟩
      | data bytes =>
          rw [readClient]
          cases reply bytes with
          | some sent => exact ⟨hwithin, rfl, hmore⟩
          | none => exact ⟨hwithin, trivial⟩
  | @again k i hpc hi =>
      rw [hpc] at hround
      obtain ⟨rfl, rfl⟩ := hround
      have hend : i = s.maxFd + 1 :=
        Nat.le_antisymm (hinv.loop k i hpc).2.1 (Nat.le_of_not_lt hi)
      refine ⟨hwithin, ?_⟩
      dsimp only
      rw [← hend]
      exact List.append_nil _

/-- What a round that is over has read from. -/
theorem Round.over {reported : Finset Nat} {fds : List Nat} (hround : Round reported fds s)
    (hpc : s.pc = .select) :
    fds.Pairwise (· < ·) ∧ ∀ fd, fd ∈ fds ↔ fd ∈ reported ∧ fd ≠ listenfd := by
  obtain ⟨hwithin, hround⟩ := hround
  rw [hpc] at hround
  subst hround
  refine ⟨List.pairwise_lt_range.filter _, fun fd => ?_⟩
  rw [readBefore, List.mem_filter, List.mem_range, decide_eq_true_eq]
  constructor
  · exact fun ⟨_, hlt, hin⟩ => ⟨hin, Nat.ne_of_gt hlt⟩
  · rintro ⟨hin, hne⟩
    obtain ⟨hle, hlt⟩ := hwithin fd hin
    exact ⟨hlt, Nat.lt_of_le_of_ne hle hne.symm, hin⟩

end Step

section Runs

open TransitionSystem

variable {history : List (Server × Label)} {s : Server}

theorem inv_start {s : Server} (hstart : system.start s) : Inv s := by
  subst hstart
  exact ⟨rfl, nofun, ⟨Nat.le_refl _, by decide⟩, nofun, nofun⟩

theorem inv_of_fits (hrun : system.Run history s) (hfits : ∀ entry ∈ history, Fits entry.2) :
    Always Inv history s :=
  hrun.always (fun _ label => Fits label) (fun _ => inv_start)
    (fun _ _ _ hinv hlabel hstep => hinv.step hlabel hstep) hfits

theorem reads_append (earlier later : List (Server × Label)) :
    reads (earlier ++ later) = reads earlier ++ reads later :=
  List.filterMap_append

/-- What a round has read from so far. -/
theorem round_of_run {earlier between : List (Server × Label)} {before : Server} {label : Label}
    {reported : Finset Nat} (hrun : system.Run (earlier ++ (before, label) :: between) s)
    (hfits : ∀ entry ∈ earlier ++ (before, label) :: between, Fits entry.2)
    (hlabel : label.reported = some reported) (hnone : ∀ entry ∈ between, entry.2.reported = none) :
    Round reported (reads between) s := by
  induction between using List.reverseRecOn generalizing s with
  | nil =>
      rw [List.forall_mem_append] at hfits
      obtain ⟨hbefore, hstep⟩ := hrun.last
      exact hstep.round_start (inv_of_fits hbefore hfits.1).2 hlabel
  | append_singleton between last ih =>
      obtain ⟨t, act⟩ := last
      rw [← List.cons_append, ← List.append_assoc] at hrun hfits
      rw [List.forall_mem_append] at hfits hnone
      obtain ⟨hbefore, hstep⟩ := hrun.last
      have hround := ih hbefore hfits.1 hnone.1
      rw [reads_append]
      exact hstep.round (inv_of_fits hbefore hfits.1).2 hround
        (hnone.2 (t, act) List.mem_cons_self)

/-- The set and the clients agree, and a round reads from every client that is
reported, once and in order; all that while no step leaves `u_read_set` or
`buf`, which an `accept` that fails and 1024 bytes without a NUL do. -/
theorem select_serves (hrun : system.Run history s) :
    (Always (fun t => t.pc ≠ .overrun) history s ↔ ∀ entry ∈ history, Fits entry.2) ∧
    ((∀ entry ∈ history, Fits entry.2) →
      Always (fun t => t.uReadSet = insert listenfd t.clients ∧
        ∀ fd ∈ t.clients, listenfd < fd ∧ fd ≤ t.maxFd) history s ∧
      (∀ entry ∈ history, ∀ fd outcome, entry.2 = .read fd outcome → fd ∈ entry.1.clients) ∧
      ∀ earlier before label between reported,
        history = earlier ++ (before, label) :: between → label.reported = some reported →
        (∀ entry ∈ between, entry.2.reported = none) → s.pc = .select →
        (reads between).Pairwise (· < ·) ∧
          ∀ fd, fd ∈ reads between ↔ fd ∈ reported ∧ fd ≠ listenfd) := by
  refine ⟨?_, fun hfits => ⟨?_, ?_, ?_⟩⟩
  · exact hrun.always_iff (fun _ label => Fits label) (fun _ => inv_start)
      (fun _ _ _ hinv hlabel hstep => hinv.step hlabel hstep) (fun _ hinv => hinv.inside)
      (fun _ _ _ _ hnot hstep => not_not.mpr (overrun_of_not_fits hnot hstep))
  · obtain ⟨hentries, hlast⟩ := inv_of_fits hrun hfits
    exact ⟨fun entry hentry => ⟨(hentries entry hentry).uReadSet, (hentries entry hentry).bound⟩,
      hlast.uReadSet, hlast.bound⟩
  · rintro ⟨before, label⟩ hentry fd outcome rfl
    have hinv := (inv_of_fits hrun hfits).1 _ hentry
    obtain ⟨earlier, later, rfl⟩ := List.append_of_mem hentry
    obtain ⟨-, after, hstep⟩ := hrun.split
    cases hstep with
    | read hpc hi hin => exact (hinv.loop _ _ hpc).2.2 fd hin (Nat.le_refl _)
  · rintro earlier before label between reported rfl hlabel hnone hpc
    exact (round_of_run hrun hfits hlabel hnone).over hpc

/-- A client comes, sends a byte, and is read from before the next `select`. -/
theorem select_serves_read :
    ∃ earlier between s, system.Run (earlier ++ between) s ∧
      s.uReadSet = insert listenfd s.clients ∧ s.pc = .select ∧ 4 ∈ reads between := by
  have hstart : system.Run [] ⟨{3}, 3, ∅, .select⟩ := .start rfl
  have haccept := hstart.snoc (show Step _ (.accept {3} 4) _ from
    .accept rfl ⟨⟨3, by decide⟩, by decide, by decide⟩ (by decide)
      (Or.inr ⟨4, rfl, by decide, by decide⟩))
  have hskip := haccept.snoc (.skip (i := 4) rfl (by decide) (by decide))
  have hagain := hskip.snoc (.again (i := 5) rfl (by decide))
  have hselect := hagain.snoc (show Step _ (.select {4}) _ from
    .select rfl ⟨⟨4, by decide⟩, by decide, by decide⟩ (by decide))
  have hread := hselect.snoc (show Step _ (.read 4 (.data [104])) _ from
    .read rfl (by decide) (by decide))
  have hover := hread.snoc (.again (i := 5) rfl (by decide))
  obtain ⟨-, hserves⟩ := select_serves hover
  obtain ⟨⟨-, hset, -⟩, -, hround⟩ := hserves (by simp [Fits, FD_SETSIZE, BUF_SIZE])
  obtain ⟨-, hreads⟩ := hround [_, _, _] _ _ [_, _] {4} rfl rfl (by simp [Label.reported]) rfl
  exact ⟨[_, _, _, _], [_, _], _, hover, hset, rfl, (hreads 4).mpr ⟨by decide, by decide⟩⟩

end Runs

end LinuxLearning.Chapter4.Select
