/-
The server with a process for each client (`server_multiprocess` in
chapter_4/tcp_server.cpp).  A child closes its client and exits, but the parent
keeps every descriptor it has accepted, and every later child has inherited
it: so who still has a connection open follows from who still runs.  A child
that reads 1024 bytes without a NUL takes what lies behind `recv_buf` for the
rest of the string; from there on nothing is said of it.
-/
import LinuxLearning.Lib.Cells
import LinuxLearning.Lib.DescriptorTable
import LinuxLearning.Lib.Transition
import Mathlib.Logic.Function.Basic

namespace LinuxLearning.Chapter4.Multiprocess

open Cells TransitionSystem

/-- `sizeof(recv_buf)` -/
def BUF_SIZE : Nat := 1024

/-- What a descriptor refers to.  Clients are numbered as they are accepted. -/
inductive File where
  | standard (n : Nat)
  | listening
  | client (k : Nat)
deriving Repr, DecidableEq

/-- Where a child is in its loop, behind `close`, gone, or outside of
`recv_buf`. -/
inductive ChildPc where
  | read | write | close | exit | gone | overrun
deriving Repr, DecidableEq

/-- A child: its copy of `c_sockfd` and of the descriptors. -/
structure Child where
  c_sockfd : Nat
  table : DescriptorTable File
  pc : ChildPc
deriving Repr, DecidableEq

inductive MainPc where
  | accept
  | fork (c_sockfd client : Nat)
  | gone
deriving Repr, DecidableEq

/-- The parent, and the child of each client. -/
structure Server where
  table : DescriptorTable File
  accepted : Nat
  main : MainPc
  children : Nat → Option Child

/-- What `read` returns. -/
inductive ReadOutcome where
  | error
  | eof
  | data (bytes : List Byte)
deriving DecidableEq

inductive Label where
  | accept | interrupted | acceptFails | fork | forkFails
  | read (k : Nat) (outcome : ReadOutcome) | write (k : Nat) (len : Int)
  | close (k : Nat) | exit (k : Nat)
deriving DecidableEq

/-- What `write(c_sockfd, send_buf, strlen(send_buf) + 1)` sends, behind
`sprintf(send_buf, "received %s", recv_buf)`. -/
def answer (bytes : List Byte) : Option (List Byte) :=
  (shown (store (zeroed BUF_SIZE) bytes)).map fun recv_buf =>
    ascii "received " ++ recv_buf ++ [0]

/-- A process that has exited has nothing open. -/
def nothing : DescriptorTable File := ⟨[]⟩

namespace Child

/-- `exit` -/
def leave (c : Child) : Child := { c with table := nothing, pc := .gone }

/-- Behind `read`, and behind `write`. -/
def afterRead (c : Child) : ReadOutcome → Child
  | .error => c.leave
  | .eof => { c with pc := .close }
  | .data bytes =>
      match answer bytes with
      | some _ => { c with pc := .write }
      | none => { c with pc := .overrun }

def afterWrite (c : Child) (len : Int) : Child :=
  if len = -1 then c.leave else { c with pc := .read }

/-- `close(c_sockfd)` -/
def closeClient (c : Child) : Child :=
  { c with table := c.table.close c.c_sockfd, pc := .exit }

end Child

def Server.setChild (s : Server) (k : Nat) (c : Child) : Server :=
  { s with children := Function.update s.children k (some c) }

/-- The steps, when a process may have `limit` descriptors.  The handler of
SIGCHLD that may come in between closes nothing. -/
inductive Step (limit : Nat) (s : Server) : Label → Server → Prop
  | accept (hmain : s.main = .accept) (hlimit : s.table.lowest < limit) :
      Step limit s .accept
        { s with
          table := s.table.assign (.client s.accepted)
          accepted := s.accepted + 1
          main := .fork s.table.lowest s.accepted }
  | interrupted (hmain : s.main = .accept) : Step limit s .interrupted s
  | acceptFails (hmain : s.main = .accept) :
      Step limit s .acceptFails { s with table := nothing, main := .gone }
  | fork {c_sockfd client : Nat} (hmain : s.main = .fork c_sockfd client) :
      Step limit s .fork ({ s with main := .accept }.setChild client ⟨c_sockfd, s.table, .read⟩)
  | forkFails {c_sockfd client : Nat} (hmain : s.main = .fork c_sockfd client) :
      Step limit s .forkFails { s with main := .accept }
  | read {k : Nat} {c : Child} {outcome : ReadOutcome} (hchild : s.children k = some c)
      (hpc : c.pc = .read) :
      Step limit s (.read k outcome) (s.setChild k (c.afterRead outcome))
  | write {k : Nat} {c : Child} {len : Int} (hchild : s.children k = some c)
      (hpc : c.pc = .write) :
      Step limit s (.write k len) (s.setChild k (c.afterWrite len))
  | close {k : Nat} {c : Child} (hchild : s.children k = some c) (hpc : c.pc = .close) :
      Step limit s (.close k) (s.setChild k c.closeClient)
  | exit {k : Nat} {c : Child} (hchild : s.children k = some c) (hpc : c.pc = .exit) :
      Step limit s (.exit k) (s.setChild k c.leave)

/-- The descriptors behind `listen` and `n` clients. -/
def tableOf (n : Nat) : DescriptorTable File :=
  ⟨[some (.standard 0), some (.standard 1), some (.standard 2), some .listening] ++
    (List.range n).map fun k => some (.client k)⟩

/-- Behind `listen`. -/
structure Starts (s : Server) : Prop where
  table : s.table = tableOf 0
  accepted : s.accepted = 0
  main : s.main = .accept
  children : ∀ k, s.children k = none

/-- The program. -/
def program (limit : Nat) : TransitionSystem Server Label where
  start := Starts
  step := Step limit

/-- What a child has read ends inside of `recv_buf`. -/
def Fits : Label → Prop
  | .read _ (.data bytes) => bytes.length < BUF_SIZE ∨ 0 ∈ bytes
  | _ => True

/-- No child has gone outside of `recv_buf`. -/
def Server.Inside (s : Server) : Prop := ∀ k c, s.children k = some c → c.pc ≠ .overrun

/-- Some process has the connection open. -/
def Server.Held (s : Server) (k : Nat) : Prop :=
  s.table.Open (.client k) ∨ ∃ j c, s.children j = some c ∧ c.table.Open (.client k)

/-- The client that a child talks to. -/
def Label.talks : Label → Option Nat
  | .read k _ | .write k _ | .close k => some k
  | _ => none

section Tables

variable {n k : Nat}

theorem length_tableOf : (tableOf n).entries.length = n + 4 := by
  rw [tableOf, List.length_append, List.length_map, List.length_range]
  exact Nat.add_comm 4 n

theorem entries_succ : (tableOf (n + 1)).entries = (tableOf n).entries ++ [some (.client n)] := by
  simp [tableOf, List.range_succ]

theorem lowest_tableOf : (tableOf n).lowest = n + 4 := by
  have hfull : ∀ entry ∈ (tableOf n).entries, entry.isNone = false := by
    intro entry hentry
    simp only [tableOf, List.mem_append, List.mem_map] at hentry
    rcases hentry with hfirst | ⟨k, -, rfl⟩
    · simp only [List.mem_cons, List.not_mem_nil, or_false] at hfirst
      rcases hfirst with rfl | rfl | rfl | rfl <;> rfl
    · rfl
  rw [DescriptorTable.lowest, ← length_tableOf]
  exact List.findIdx_eq_length.mpr hfull

theorem assign_tableOf : (tableOf n).assign (.client n) = tableOf (n + 1) := by
  rw [DescriptorTable.assign, lowest_tableOf, length_tableOf, if_neg (Nat.lt_irrefl _),
    ← entries_succ]

/-- The descriptor of a client. -/
theorem at_tableOf_client : (tableOf n).at? (k + 4) = if k < n then some (.client k) else none := by
  rw [DescriptorTable.at?, tableOf, List.getElem?_append_right (by simp)]
  by_cases hk : k < n <;> simp [hk]

theorem open_tableOf : (tableOf n).Open (.client k) ↔ k < n := by
  simp [DescriptorTable.Open, tableOf]

/-- Without its own client a child still has the earlier ones. -/
theorem open_close_tableOf :
    ((tableOf (n + 1)).close (n + 4 : Nat)).Open (.client k) ↔ k < n := by
  have hentries : ((tableOf (n + 1)).close (n + 4 : Nat)).entries =
      (tableOf n).entries ++ [none] := by
    rw [DescriptorTable.close, if_neg (by omega), Int.toNat_natCast, entries_succ,
      ← length_tableOf]
    simp
  rw [DescriptorTable.Open, hentries, List.mem_append, List.mem_singleton]
  exact (or_iff_left (Option.some_ne_none _)).trans open_tableOf

theorem not_open_nothing : ¬ nothing.Open (.client k) := by
  simp [DescriptorTable.Open, nothing]

end Tables

/-- What a child has open: all clients up to its own, until it has closed that
one. -/
structure Child.Proper (k : Nat) (c : Child) : Prop where
  sockfd : c.c_sockfd = k + 4
  table : c.table = match c.pc with
    | .read | .write | .close | .overrun => tableOf (k + 1)
    | .exit => (tableOf (k + 1)).close (k + 4 : Nat)
    | .gone => nothing

/-- The invariant: the parent has every client open until it exits, and a child
has those up to its own. -/
structure Sound (limit : Nat) (s : Server) : Prop where
  table : s.table = if s.main = .gone then nothing else tableOf s.accepted
  limit : s.accepted + 4 ≤ limit
  fork : ∀ c_sockfd client, s.main = .fork c_sockfd client →
    c_sockfd = client + 4 ∧ s.accepted = client + 1
  child : ∀ k c, s.children k = some c → k < s.accepted ∧ c.Proper k

theorem Starts.sound {limit : Nat} {s : Server} (h : Starts s) (hlimit : 4 ≤ limit) :
    Sound limit s := by
  refine ⟨?_, by rwa [h.accepted, Nat.zero_add], ?_, ?_⟩
  · rw [h.main, h.accepted, h.table]
    rfl
  · rw [h.main]
    exact nofun
  · intro k c hc
    rw [h.children] at hc
    cases hc

section Step

variable {limit : Nat} {s after : Server} {label : Label}

theorem Sound.setChild (h : Sound limit s) {k : Nat} {c : Child} (hk : k < s.accepted)
    (hc : c.Proper k) : Sound limit (s.setChild k c) := by
  refine ⟨h.table, h.limit, h.fork, ?_⟩
  intro j d hd
  rw [Server.setChild] at hd
  dsimp only at hd
  by_cases hj : j = k
  · subst hj
    rw [Function.update_self] at hd
    cases hd
    exact ⟨hk, hc⟩
  · rw [Function.update_of_ne hj] at hd
    exact h.child j d hd

theorem Child.Proper.leave {k : Nat} {c : Child} (h : c.Proper k) : c.leave.Proper k :=
  ⟨h.sockfd, rfl⟩

/-- What a `read` makes of a child. -/
theorem Child.afterRead_cases (c : Child) (outcome : ReadOutcome) :
    c.afterRead outcome = c.leave ∨ c.afterRead outcome = { c with pc := .close } ∨
      c.afterRead outcome = { c with pc := .write } ∨
      c.afterRead outcome = { c with pc := .overrun } := by
  cases outcome with
  | error => exact Or.inl rfl
  | eof => exact Or.inr (Or.inl rfl)
  | data bytes =>
      rw [Child.afterRead]
      split
      · exact Or.inr (Or.inr (Or.inl rfl))
      · exact Or.inr (Or.inr (Or.inr rfl))

/-- A child goes outside of `recv_buf` with bytes that do not fit, and only
with these. -/
theorem Child.afterRead_overrun_iff {k : Nat} (c : Child) (outcome : ReadOutcome) :
    (c.afterRead outcome).pc = .overrun ↔ ¬ Fits (.read k outcome) := by
  cases outcome with
  | error | eof => simp [Child.afterRead, Child.leave, Fits]
  | data bytes =>
      by_cases hfits : bytes.length < BUF_SIZE ∨ 0 ∈ bytes
      · simp [Child.afterRead, answer, shown_zeroed hfits, Fits, hfits]
      · simp only [Child.afterRead, answer, shown_zeroed_none hfits, Fits]
        exact iff_of_true rfl hfits

theorem Sound.step (h : Sound limit s) (hstep : Step limit s label after) :
    Sound limit after := by
  cases hstep with
  | accept hmain hlimit =>
      have htable : s.table = tableOf s.accepted := by
        rw [h.table, hmain]
        rfl
      rw [htable, lowest_tableOf] at hlimit
      refine ⟨?_, ?_, ?_, ?_⟩
      · simp only [htable, assign_tableOf]
        rfl
      · dsimp only
        omega
      · intro c_sockfd client hfork
        obtain ⟨rfl, rfl⟩ := MainPc.fork.inj hfork
        rw [htable, lowest_tableOf]
        exact ⟨rfl, rfl⟩
      · intro k c hc
        obtain ⟨hk, hproper⟩ := h.child k c hc
        exact ⟨Nat.lt_succ_of_lt hk, hproper⟩
  | interrupted => exact h
  | acceptFails hmain => exact ⟨rfl, h.limit, nofun, h.child⟩
  | @fork c_sockfd client hmain =>
      obtain ⟨hsockfd, haccepted⟩ := h.fork _ _ hmain
      have htable : s.table = tableOf s.accepted := by
        rw [h.table, hmain]
        rfl
      have hforked : Sound limit { s with main := .accept } :=
        ⟨by rw [htable]; rfl, h.limit, nofun, h.child⟩
      refine hforked.setChild (by rw [haccepted]; exact Nat.lt_succ_self client) ⟨hsockfd, ?_⟩
      rw [htable, haccepted]
  | forkFails hmain =>
      have htable : s.table = tableOf s.accepted := by
        rw [h.table, hmain]
        rfl
      exact ⟨by rw [htable]; rfl, h.limit, nofun, h.child⟩
  | @read k c outcome hchild hpc =>
      obtain ⟨hk, hproper⟩ := h.child k c hchild
      refine h.setChild hk ?_
      have htable := hproper.table
      rw [hpc] at htable
      rcases c.afterRead_cases outcome with hafter | hafter | hafter | hafter <;> rw [hafter]
      · exact hproper.leave
      · exact ⟨hproper.sockfd, htable⟩
      · exact ⟨hproper.sockfd, htable⟩
      · exact ⟨hproper.sockfd, htable⟩
  | @write k c len hchild hpc =>
      obtain ⟨hk, hproper⟩ := h.child k c hchild
      refine h.setChild hk ?_
      rw [Child.afterWrite]
      split
      · exact hproper.leave
      · obtain ⟨hsockfd, htable⟩ := hproper
        rw [hpc] at htable
        exact ⟨hsockfd, htable⟩
  | @close k c hchild hpc =>
      obtain ⟨hk, hsockfd, htable⟩ := h.child k c hchild
      rw [hpc] at htable
      refine h.setChild hk ⟨hsockfd, ?_⟩
      simp only [Child.closeClient, hsockfd, htable]
  | @exit k c hchild hpc =>
      obtain ⟨hk, hproper⟩ := h.child k c hchild
      exact h.setChild hk hproper.leave

theorem Server.Inside.setChild (h : s.Inside) (k : Nat) {c : Child} (hc : c.pc ≠ .overrun) :
    (s.setChild k c).Inside := by
  intro j d hd
  rw [Server.setChild] at hd
  dsimp only at hd
  by_cases hj : j = k
  · subst hj
    rw [Function.update_self] at hd
    cases hd
    exact hc
  · rw [Function.update_of_ne hj] at hd
    exact h j d hd

theorem Server.Inside.step (h : s.Inside) (hfits : Fits label) (hstep : Step limit s label after) :
    after.Inside := by
  cases hstep with
  | accept | interrupted | acceptFails | forkFails => exact h
  | @fork c_sockfd client hmain =>
      have hforked : Server.Inside { s with main := .accept } := h
      exact hforked.setChild client nofun
  | @read k c outcome hchild hpc =>
      refine h.setChild k fun hover => ?_
      exact (c.afterRead_overrun_iff outcome).mp hover hfits
  | @write k c len hchild hpc =>
      refine h.setChild k ?_
      rw [Child.afterWrite]
      split <;> exact nofun
  | @close k | @exit k => exact h.setChild k nofun

theorem Step.outside (hfits : ¬ Fits label) (hstep : Step limit s label after) :
    ¬ after.Inside := by
  cases hstep with
  | @read k c outcome hchild hpc =>
      intro hinside
      refine hinside k (c.afterRead outcome) ?_ ((c.afterRead_overrun_iff outcome).mpr hfits)
      exact Function.update_self ..
  | _ => exact absurd trivial hfits

end Step

section Runs

variable {limit : Nat} {s : Server} {history : List (Server × Label)}

theorem program_sound (hlimit : 4 ≤ limit) (hreach : (program limit).Reachable s) :
    Sound limit s := by
  refine hreach.invariant ?_ ?_
  · exact fun _ hstart => Starts.sound hstart hlimit
  · exact fun _ _ _ hsound hstep => hsound.step hstep

/-- Which children have a client open. -/
theorem Child.Proper.open_iff {j k : Nat} {c : Child} (h : c.Proper j) :
    c.table.Open (.client k) ↔ k ≤ j ∧ c.pc ≠ .gone ∧ (k = j → c.pc ≠ .exit) := by
  obtain ⟨-, htable⟩ := h
  rw [htable]
  cases hpc : c.pc with
  | read | write | close | overrun =>
      dsimp only
      rw [open_tableOf, Nat.lt_succ_iff]
      simp
  | exit =>
      dsimp only
      rw [open_close_tableOf]
      refine ⟨fun hlt => ⟨Nat.le_of_lt hlt, nofun, fun heq => (Nat.ne_of_lt hlt heq).elim⟩, ?_⟩
      rintro ⟨hle, -, hne⟩
      exact Nat.lt_of_le_of_ne hle fun heq => hne heq rfl
  | gone => simp [not_open_nothing]

/-- Who has a connection open: the parent as long as it runs, and every child
that was forked for it or later, has not exited and, if it is the client's own,
has not closed it. -/
theorem Sound.held_iff (h : Sound limit s) {k : Nat} (hk : k < s.accepted) :
    s.Held k ↔ s.main ≠ .gone ∨ ∃ j c, s.children j = some c ∧ k ≤ j ∧ c.pc ≠ .gone ∧
      (k = j → c.pc ≠ .exit) := by
  rw [Server.Held, h.table]
  refine or_congr ?_ ?_
  · by_cases hgone : s.main = .gone
    · simp [hgone, not_open_nothing]
    · simp [hgone, open_tableOf, hk]
  · refine exists_congr fun j => exists_congr fun c => ?_
    exact and_congr_right fun hc => (h.child j c hc).2.open_iff

/-- A child that talks does so to its own client. -/
theorem program_talks (hlimit : 4 ≤ limit) {before after : Server} {label : Label}
    (hbefore : (program limit).Reachable before) (hstep : Step limit before label after) {k : Nat}
    (hlabel : label.talks = some k) :
    ∃ c, before.children k = some c ∧ c.table.at? c.c_sockfd = some (.client k) := by
  have hchild := (program_sound hlimit hbefore).child
  have hopen : ∀ c, before.children k = some c → (c.pc = .read ∨ c.pc = .write ∨ c.pc = .close) →
      c.table.at? c.c_sockfd = some (.client k) := by
    intro c hc hpc
    obtain ⟨-, hsockfd, htable⟩ := hchild k c hc
    have hfull : c.table = tableOf (k + 1) := by
      rcases hpc with hpc | hpc | hpc <;> rw [hpc] at htable <;> exact htable
    rw [hsockfd, hfull, at_tableOf_client, if_pos (Nat.lt_succ_self k)]
  cases hstep with
  | read hc hpc =>
      obtain rfl := Option.some.inj hlabel
      exact ⟨_, hc, hopen _ hc (Or.inl hpc)⟩
  | write hc hpc =>
      obtain rfl := Option.some.inj hlabel
      exact ⟨_, hc, hopen _ hc (Or.inr (Or.inl hpc))⟩
  | close hc hpc =>
      obtain rfl := Option.some.inj hlabel
      exact ⟨_, hc, hopen _ hc (Or.inr (Or.inr hpc))⟩
  | _ => cases hlabel

/-- In every run a child reads, writes and closes its own client, at most
`limit - 4` clients are accepted, however many have disconnected, and a
connection is open as long as the parent runs or a child does that was forked
for it or later and has not closed it; all that while no child goes outside of
`recv_buf`, which 1024 bytes without a NUL do. -/
theorem multiprocess_holds (hlimit : 4 ≤ limit) (hrun : (program limit).Run history s) :
    (Always Server.Inside history s ↔ ∀ entry ∈ history, Fits entry.2) ∧
    ((∀ entry ∈ history, Fits entry.2) →
      (∀ entry ∈ history, ∀ k, entry.2.talks = some k → ∃ c, entry.1.children k = some c ∧
        c.table.at? c.c_sockfd = some (.client k)) ∧
      s.accepted + 4 ≤ limit ∧
      (∀ k < s.accepted, s.Held k ↔ s.main ≠ .gone ∨ ∃ j c, s.children j = some c ∧ k ≤ j ∧
        c.pc ≠ .gone ∧ (k = j → c.pc ≠ .exit))) := by
  have hsound := program_sound hlimit ⟨history, hrun⟩
  refine ⟨?_, fun _ => ⟨?_, hsound.limit, fun k hk => hsound.held_iff hk⟩⟩
  · refine hrun.always_iff (fun _ label => Fits label) (fun t hstart k c hc => ?_)
      (fun _ _ _ hinside hfits hstep => hinside.step hfits hstep) (fun _ hinside => hinside)
      (fun _ _ _ _ hfits hstep => Step.outside hfits hstep)
    rw [Starts.children hstart] at hc
    cases hc
  · rintro ⟨before, label⟩ hentry k hlabel
    obtain ⟨earlier, later, rfl⟩ := List.append_of_mem hentry
    obtain ⟨hbefore, after, hstep⟩ := hrun.split
    exact program_talks hlimit ⟨_, hbefore⟩ hstep hlabel

/-- The server behind `listen`. -/
def listening : Server := ⟨tableOf 0, 0, .accept, fun _ => none⟩

/-- The only client has disconnected and its child is gone; the connection is
still open. -/
theorem multiprocess_holds_gone :
    ∃ history s, (program 1024).Run history s ∧ s.children 0 = some ⟨4, nothing, .gone⟩ ∧
      s.Held 0 := by
  have hstart : (program 1024).Run [] listening := .start ⟨rfl, rfl, rfl, fun _ => rfl⟩
  have haccept := hstart.snoc (.accept rfl (by decide))
  have hfork := haccept.snoc (.fork rfl)
  have hread := hfork.snoc (show Step 1024 _ (.read 0 .eof) _ from .read rfl rfl)
  have hclose := hread.snoc (.close (k := 0) rfl rfl)
  have hexit := hclose.snoc (.exit (k := 0) rfl rfl)
  obtain ⟨-, hfits⟩ := multiprocess_holds (by decide) hexit
  obtain ⟨-, -, hheld⟩ := hfits (by simp [Fits])
  exact ⟨_, _, hexit, rfl, (hheld 0 (by decide)).mpr (Or.inl nofun)⟩

end Runs

end LinuxLearning.Chapter4.Multiprocess
