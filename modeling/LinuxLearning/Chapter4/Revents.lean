/-
Which slots the read loop of the poll server looks at.  `poll` is given
`cur_max_fd` slots and the loop runs up to slot `cur_max_fd`, after an accept
has made it larger; the slots from there on hold what was on the stack.
-/
import LinuxLearning.Chapter4.Poll

namespace LinuxLearning.Chapter4.Poll

open SlotTable

/-- The slot the read loop looks at is one of the array and of those the last
call of `poll` was given, and a `read` is for a descriptor it reported. -/
def OnlyReported (s : Server) : Prop :=
  ∀ nfds polled i, s.pc = .loop nfds polled i → i < MAX_CLIENT_NUM ∧ i < nfds ∧
    ((s.fds i).Readable → (polled i).Readable ∧ (polled i).fd = (s.fds i).fd)

/-- It is so at every slot a run has looked at. -/
def ActsOnReports (history : List (Server × Label)) : Prop :=
  ∀ entry ∈ history, ∀ r_len, entry.2 = .slot r_len → OnlyReported entry.1

/-- No slot has been looked at yet. -/
def NoneExamined (history : List (Server × Label)) : Prop :=
  ∀ entry ∈ history, ∀ r_len, entry.2 ≠ .slot r_len

/-- Before the first slot: `poll` is or was given one slot. -/
structure Early (s : Server) : Prop where
  pos : 1 ≤ s.curMaxFd
  poll : s.pc = .poll → s.curMaxFd = 1
  loop : ∀ nfds polled i, s.pc = .loop nfds polled i → nfds = 1 ∧ i = 1

section Runs

variable {Accepts : List Int → Int → Prop} {history : List (Server × Label)} {s : Server}

/-- The first slot the loop looks at is not one `poll` was given. -/
theorem early_of_actsOnReports (hrun : (system Accepts).Run history s)
    (hacts : ActsOnReports history) :
    NoneExamined history ∧ Early s := by
  induction hrun with
  | start hstart =>
      obtain ⟨-, hmax, -, hpc⟩ := hstart
      refine ⟨fun entry hentry => (by cases hentry), Nat.le_of_eq hmax.symm, fun _ => hmax, ?_⟩
      intro nfds polled i hloop
      rw [hpc] at hloop
      cases hloop
  | @snoc history before after label _ hstep ih =>
      obtain ⟨hhistory, hlast⟩ := List.forall_mem_append.mp hacts
      obtain ⟨hnone, hearly⟩ := ih hhistory
      rw [List.forall_mem_singleton] at hlast
      have hsnoc : (∀ r_len, label ≠ .slot r_len) → NoneExamined (history ++ [(before, label)]) :=
        fun hlabel => List.forall_mem_append.mpr ⟨hnone, List.forall_mem_singleton.mpr hlabel⟩
      cases hstep with
      | poll hpc _ =>
          refine ⟨hsnoc fun _ h => (by cases h), ?_, ?_, ?_⟩
          · exact Nat.le_trans hearly.pos (le_curMaxFd_serve _ _ _)
          · intro h
            cases h
          · intro nfds polled i hloop
            cases hloop
            exact ⟨hearly.poll hpc, rfl⟩
      | pollFails =>
          exact ⟨hsnoc fun _ h => (by cases h), hearly.pos, fun h => (by cases h),
            fun _ _ _ h => (by cases h)⟩
      | slot hpc _ =>
          obtain ⟨rfl, rfl⟩ := hearly.loop _ _ _ hpc
          exact absurd (hlast _ rfl _ _ _ hpc).2.1 (Nat.lt_irrefl 1)
      | again hpc hi =>
          obtain ⟨rfl, rfl⟩ := hearly.loop _ _ _ hpc
          exact absurd hi (Nat.not_lt.mpr hearly.pos)

/-- The loop acts on reports alone only as long as it has not looked at any
slot. -/
theorem actsOnReports_iff (hrun : (system Accepts).Run history s) :
    ActsOnReports history ↔ NoneExamined history := by
  constructor
  · exact fun hacts => (early_of_actsOnReports hrun hacts).1
  · exact fun hnone entry hentry r_len hlabel => absurd hlabel (hnone entry hentry r_len)

end Runs

/-- A set-up on a stack with POLLIN in it. -/
def dirty (i : Nat) : PollFd :=
  if i = 0 then ⟨listenfd, POLLIN, 0⟩ else ⟨-1, POLLIN, POLLIN⟩

theorem setUp_dirty : SetUp dirty where
  listen := rfl
  free i hi _ := by rw [dirty, if_neg (Nat.ne_of_gt hi)]
  events i _ := by
    unfold dirty
    split_ifs <;> rfl

/-- The server on that stack, after its first call of `poll` and the accept of
client 4, and after slot 1. -/
def dirtyStart : Server := ⟨dirty, 1, [], .poll⟩

def dirtyPolled : Server := serve dirtyStart (fun _ => POLLIN) 4

def dirtyRead : Server :=
  readSlot dirtyPolled 1 (pollCall dirtyStart fun _ => POLLIN) 1 5

def dirtyHistory : List (Server × Label) :=
  [(dirtyStart, .poll (fun _ => POLLIN) 4), (dirtyPolled, .slot 5)]

theorem dirty_run : (system Unused).Run dirtyHistory dirtyRead := by
  have hstart : (system Unused).Run [] dirtyStart := .start ⟨setUp_dirty, rfl, rfl, rfl⟩
  have hpoll : (system Unused).step dirtyStart (.poll (fun _ => POLLIN) 4) dirtyPolled :=
    .poll rfl (.inr ⟨by decide, by decide, List.not_mem_nil⟩)
  have hslot : (system Unused).step dirtyPolled (.slot 5) dirtyRead := .slot rfl (by decide)
  exact (hstart.snoc hpoll).snoc hslot

/-- The client is read from before `poll` was ever given it. -/
theorem dirty_not_reported :
    ¬ ∀ history s, (system Unused).Run history s → ActsOnReports history := by
  intro h
  have hreported := h _ _ dirty_run (dirtyPolled, .slot 5)
    (List.mem_cons_of_mem _ List.mem_cons_self) 5 rfl _ _ _ rfl
  exact absurd hreported.2.1 (by decide)

theorem dirty_examines : ¬ ActsOnReports dirtyHistory := by
  intro hacts
  have hnone := (actsOnReports_iff dirty_run).mp hacts
  exact hnone (dirtyPolled, .slot 5) (List.mem_cons_of_mem _ List.mem_cons_self) 5 rfl

end LinuxLearning.Chapter4.Poll
