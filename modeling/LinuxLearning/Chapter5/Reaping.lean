/-
What the parent of the process pool does on SIGCHLD (CGI/process_pool.cpp):
it marks the children that `waitpid` names, and then looks for one that lives.
Every child is marked and closed once; but `m_stop` is only ever set to false,
so that the parent does not stop when the last child is gone.
-/
import LinuxLearning.Chapter5.ProcessPool
import LinuxLearning.Lib.Transition
import Mathlib.Data.List.Count

namespace LinuxLearning.Chapter5.ProcessPool

/-- What the parent does to the outside while it handles signals: `waitpid`
until it has no more, with the process numbers that it gives; `close` of
`m_pipefd[0]` of a child; the message before the children are killed; SIGTERM to
a process. -/
inductive Event where
  | reap (pids : List Int)
  | close (child : Nat)
  | killAll
  | kill (pid : Int)
deriving Repr, DecidableEq

/-- The parent, and what it has done since it got signals. -/
structure Handling where
  parent : Parent
  events : List Event

namespace Handling

/-- The body of the loop over `k`. -/
def reapChild (pid : Int) (s : Handling) (k : Nat) : Handling :=
  if (s.parent.mSubProcess k).mPid = pid then
    { parent :=
        { s.parent with
          mSubProcess := Function.update s.parent.mSubProcess k
            { s.parent.mSubProcess k with mPid := -1 } }
      events := s.events ++ [.close k] }
  else s

/-- The body of the `waitpid` loop. -/
def reap (s : Handling) (pid : Int) : Handling :=
  (List.range s.parent.mProcessNumber).foldl (reapChild pid) s

/-- The body of the loop that looks for a child that lives. -/
def keepRunning (s : Handling) (i : Nat) : Handling :=
  if s.parent.live i then { s with parent := { s.parent with mStop := false } } else s

/-- The case SIGCHLD, when `waitpid` gives the process numbers `pids` and then
none. -/
def sigchld (s : Handling) (pids : List Int) : Handling :=
  let reaped := pids.foldl reap { s with events := s.events ++ [.reap pids] }
  (List.range reaped.parent.mProcessNumber).foldl keepRunning reaped

section Loops

variable {s : Handling} {pid : Int}

/-- What the loop over the children has done up to some index. -/
theorem foldl_reapChild (s : Handling) (pid : Int) (m : Nat) :
    (List.range m).foldl (reapChild pid) s =
      { parent :=
          { s.parent with
            mSubProcess := fun k =>
              if k < m ∧ (s.parent.mSubProcess k).mPid = pid then
                { s.parent.mSubProcess k with mPid := -1 }
              else s.parent.mSubProcess k }
        events := s.events ++
          ((List.range m).filter fun k => (s.parent.mSubProcess k).mPid = pid).map .close } := by
  induction m with
  | zero => simp
  | succ m ih =>
      rw [List.range_succ, List.foldl_append, ih, List.foldl_cons, List.foldl_nil, reapChild]
      simp only [Nat.lt_irrefl, false_and, if_false, List.filter_append, List.map_append]
      by_cases hm : (s.parent.mSubProcess m).mPid = pid
      · rw [if_pos hm, List.filter_cons_of_pos (by simpa using hm), List.filter_nil, List.map_cons,
          List.map_nil, List.append_assoc]
        congr 2
        funext k
        by_cases hk : k = m
        · subst hk
          simp [hm]
        · rw [Function.update_of_ne hk]
          simp only [Nat.lt_succ_iff, Nat.lt_iff_le_and_ne, hk, ne_eq, not_false_eq_true, and_true]
      · rw [if_neg hm, List.filter_cons_of_neg (by simpa using hm), List.filter_nil, List.map_nil,
          List.append_nil]
        congr 2
        funext k
        by_cases hk : k = m
        · subst hk
          simp [hm]
        · simp only [Nat.lt_succ_iff, Nat.lt_iff_le_and_ne, hk, ne_eq, not_false_eq_true, and_true]

theorem reap_number : (s.reap pid).parent.mProcessNumber = s.parent.mProcessNumber := by
  rw [reap, foldl_reapChild]

theorem reap_mStop : (s.reap pid).parent.mStop = s.parent.mStop := by
  rw [reap, foldl_reapChild]

theorem reap_mPid {k : Nat} (hk : k < s.parent.mProcessNumber) :
    ((s.reap pid).parent.mSubProcess k).mPid =
      if (s.parent.mSubProcess k).mPid = pid then -1 else (s.parent.mSubProcess k).mPid := by
  rw [reap, foldl_reapChild]
  dsimp only
  simp only [hk, true_and]
  split_ifs <;> rfl

theorem reap_events : (s.reap pid).events = s.events ++
    ((List.range s.parent.mProcessNumber).filter fun k =>
      (s.parent.mSubProcess k).mPid = pid).map .close := by
  rw [reap, foldl_reapChild]

theorem reap_closes {k : Nat} (hk : k < s.parent.mProcessNumber) :
    (s.reap pid).events.count (.close k) = s.events.count (.close k) +
      if (s.parent.mSubProcess k).mPid = pid then 1 else 0 := by
  have hinjective : Function.Injective Event.close := fun _ _ h => Event.close.inj h
  rw [reap_events, List.count_append, List.count_map_of_injective _ _ hinjective,
    List.Nodup.count (List.nodup_range.filter _)]
  simp [hk]

theorem foldl_reap_number (s : Handling) (pids : List Int) :
    (pids.foldl reap s).parent.mProcessNumber = s.parent.mProcessNumber := by
  induction pids generalizing s with
  | nil => rfl
  | cons pid pids ih => rw [List.foldl_cons, ih, reap_number]

theorem foldl_reap_mStop (s : Handling) (pids : List Int) :
    (pids.foldl reap s).parent.mStop = s.parent.mStop := by
  induction pids generalizing s with
  | nil => rfl
  | cons pid pids ih => rw [List.foldl_cons, ih, reap_mStop]

/-- What the last loop has done up to some index: nothing but to clear
`m_stop`. -/
theorem foldl_keepRunning (s : Handling) (m : Nat) :
    (List.range m).foldl keepRunning s =
      { s with
        parent :=
          { s.parent with
            mStop := s.parent.mStop && !(List.range m).any s.parent.live } } := by
  induction m with
  | zero => simp
  | succ m ih =>
      rw [List.range_succ, List.foldl_append, ih, List.foldl_cons, List.foldl_nil, keepRunning]
      have hlive : ∀ stop, ({ s.parent with mStop := stop } : Parent).live m = s.parent.live m :=
        fun _ => rfl
      rw [hlive]
      cases hm : s.parent.live m <;> simp [hm]

end Loops

/-- Which children are dead, and which pipes closed, after some process numbers
have been reaped: those that began with one of them. -/
structure Tracked (pids : Nat → Int) (reaped : List Int) (s : Handling) : Prop where
  positive : ∀ k < s.parent.mProcessNumber, 0 < pids k
  mPid : ∀ k < s.parent.mProcessNumber,
    (s.parent.mSubProcess k).mPid = if pids k ∈ reaped then -1 else pids k
  closes : ∀ k < s.parent.mProcessNumber,
    s.events.count (.close k) = if pids k ∈ reaped then 1 else 0

section Tracked

variable {s : Handling} {pids : Nat → Int} {reaped : List Int}

theorem Tracked.reap {pid : Int} (h : Tracked pids reaped s) (hpid : 0 < pid) :
    Tracked pids (reaped ++ [pid]) (s.reap pid) := by
  have hpid' : (-1 : Int) ≠ pid := by omega
  refine ⟨?_, ?_, ?_⟩
  · rw [reap_number]
    exact h.positive
  · intro k hk
    rw [reap_number] at hk
    rw [reap_mPid hk, h.mPid k hk]
    by_cases hold : pids k ∈ reaped
    · simp [hold, hpid']
    · simp [hold]
  · intro k hk
    rw [reap_number] at hk
    rw [reap_closes hk, h.closes k hk, h.mPid k hk]
    by_cases hold : pids k ∈ reaped
    · simp [hold, hpid']
    · simp [hold]

theorem Tracked.reapAll {news : List Int} (h : Tracked pids reaped s)
    (hnews : ∀ pid ∈ news, 0 < pid) : Tracked pids (reaped ++ news) (news.foldl Handling.reap s) := by
  induction news generalizing s reaped with
  | nil => rwa [List.append_nil]
  | cons pid news ih =>
      rw [List.forall_mem_cons] at hnews
      have hrest := ih (h.reap hnews.1) hnews.2
      rwa [List.append_assoc] at hrest

/-- A child is dead exactly when its process number has been reaped. -/
theorem Tracked.live {k : Nat} (h : Tracked pids reaped s) (hk : k < s.parent.mProcessNumber) :
    s.parent.live k = false ↔ pids k ∈ reaped := by
  have hpositive := h.positive k hk
  rw [Parent.live, h.mPid k hk, bne_eq_false_iff_eq]
  split_ifs with hreaped
  · exact iff_of_true rfl hreaped
  · exact iff_of_false (by omega) hreaped

theorem Tracked.sigchld {news : List Int} (h : Tracked pids reaped s)
    (hnews : ∀ pid ∈ news, 0 < pid) : Tracked pids (reaped ++ news) (s.sigchld news) := by
  have hstart : Tracked pids reaped { s with events := s.events ++ [.reap news] } := by
    refine ⟨h.positive, h.mPid, fun k hk => ?_⟩
    rw [List.count_append, h.closes k hk]
    simp
  have hall := hstart.reapAll hnews
  rw [Handling.sigchld, foldl_keepRunning]
  exact ⟨hall.positive, hall.mPid, hall.closes⟩

theorem sigchld_number (s : Handling) (news : List Int) :
    (s.sigchld news).parent.mProcessNumber = s.parent.mProcessNumber := by
  rw [Handling.sigchld, foldl_keepRunning]
  exact foldl_reap_number _ news

/-- Nothing sets `m_stop`. -/
theorem sigchld_mStop {news : List Int} (hstop : s.parent.mStop = false) :
    (s.sigchld news).parent.mStop = false := by
  rw [Handling.sigchld, foldl_keepRunning]
  dsimp only
  rw [foldl_reap_mStop, hstop, Bool.false_and]

end Tracked

end Handling

/-- The parent while children are reaped, with their process numbers at the
start and those reaped so far. -/
structure Watched where
  handling : Handling
  pids : Nat → Int
  reaped : List Int

namespace Watched

/-- All children live, and `m_stop` is false. -/
structure Starts (s : Watched) : Prop where
  events : s.handling.events = []
  reaped : s.reaped = []
  mStop : s.handling.parent.mStop = false
  mPid : ∀ k, (s.handling.parent.mSubProcess k).mPid = s.pids k
  positive : ∀ k < s.handling.parent.mProcessNumber, 0 < s.pids k

/-- Actions for SIGCHLD one after the other; `waitpid` gives positive numbers
before it ends. -/
def reaping : TransitionSystem Watched (List Int) where
  start := Starts
  step s news after := (∀ pid ∈ news, 0 < pid) ∧
    after = { s with handling := s.handling.sigchld news, reaped := s.reaped ++ news }

/-- The dead children are those reaped so far, the pipe of each of them has
been closed once, and the parent stops when all are dead. -/
structure StopsRight (s : Watched) : Prop where
  dead : ∀ k < s.handling.parent.mProcessNumber,
    s.handling.parent.live k = false ↔ s.pids k ∈ s.reaped
  closed : ∀ k < s.handling.parent.mProcessNumber, s.pids k ∈ s.reaped →
    s.handling.events.count (.close k) = 1
  mStop : s.handling.parent.mStop = true ↔
    ∀ k < s.handling.parent.mProcessNumber, s.handling.parent.live k = false

/-- A child that lives is not among those to be reaped. -/
def Survives (s : Watched) (news : List Int) : Prop :=
  ∃ k < s.handling.parent.mProcessNumber,
    s.handling.parent.live k = true ∧ (s.handling.parent.mSubProcess k).mPid ∉ news

/-- What holds as long as a child survives. -/
structure Running (s : Watched) : Prop where
  tracked : s.handling.Tracked s.pids s.reaped
  mStop : s.handling.parent.mStop = false
  alive : ∃ k < s.handling.parent.mProcessNumber, s.pids k ∉ s.reaped

variable {s after : Watched} {news : List Int}

theorem Starts.running (h : Starts s) : Running s := by
  refine ⟨⟨h.positive, fun k _ => ?_, fun k _ => ?_⟩, h.mStop, 0, s.handling.parent.pos, ?_⟩
  · simp [h.reaped, h.mPid]
  · simp [h.reaped, h.events]
  · simp [h.reaped]

theorem Running.stopsRight (h : Running s) : StopsRight s := by
  refine ⟨fun k hk => h.tracked.live hk, fun k hk hreaped => ?_, ?_⟩
  · rw [h.tracked.closes k hk, if_pos hreaped]
  · obtain ⟨k, hk, halive⟩ := h.alive
    rw [h.mStop]
    refine iff_of_false Bool.false_ne_true fun hall => ?_
    exact halive ((h.tracked.live hk).mp (hall k hk))

/-- A child survives when it is not among the reaped ones behind the
action. -/
theorem Running.survives_iff (h : Running s) :
    Survives s news ↔ ∃ k < s.handling.parent.mProcessNumber, s.pids k ∉ s.reaped ++ news := by
  refine exists_congr fun k => and_congr_right fun hk => ?_
  rw [← Bool.not_eq_false, h.tracked.live hk, List.mem_append, not_or]
  refine and_congr_right fun hreaped => ?_
  rw [h.tracked.mPid k hk, if_neg hreaped]

theorem Running.step (h : Running s) (hsurvives : Survives s news)
    (hstep : reaping.step s news after) : Running after := by
  obtain ⟨hpositive, rfl⟩ := hstep
  refine ⟨h.tracked.sigchld hpositive, Handling.sigchld_mStop h.mStop, ?_⟩
  dsimp only
  rw [Handling.sigchld_number]
  exact h.survives_iff.mp hsurvives

/-- The last child is gone, and the parent goes on. -/
theorem Running.not_stopsRight (h : Running s) (hsurvives : ¬ Survives s news)
    (hstep : reaping.step s news after) : ¬ StopsRight after := by
  obtain ⟨hpositive, rfl⟩ := hstep
  intro hright
  have htracked := h.tracked.sigchld hpositive
  have hstop : (s.handling.sigchld news).parent.mStop = true := by
    refine hright.mStop.mpr fun k hk => (htracked.live hk).mpr ?_
    dsimp only at hk
    rw [Handling.sigchld_number] at hk
    by_contra hnot
    exact hsurvives (h.survives_iff.mpr ⟨k, hk, hnot⟩)
  rw [Handling.sigchld_mStop h.mStop] at hstop
  cases hstop

/-- In all states of a run the parent has stopped when it should, and the rest
is right, exactly when every action has left a child. -/
theorem reaping_stopsRight_iff {history : List (Watched × List Int)}
    (hrun : reaping.Run history s) :
    TransitionSystem.Always StopsRight history s ↔
      ∀ entry ∈ history, Survives entry.1 entry.2 :=
  hrun.always_iff Survives (fun _ hstart => Starts.running hstart)
    (fun _ _ _ hrunning hsurvives hstep => hrunning.step hsurvives hstep)
    (fun _ hrunning => hrunning.stopsRight)
    (fun _ _ _ hrunning hsurvives hstep => hrunning.not_stopsRight hsurvives hstep)

/-- Two children. -/
def twoChildren : Watched where
  handling :=
    { parent :=
        { mSubProcess := fun k => ⟨if k = 0 then 10 else 11, 5, 6⟩
          mProcessNumber := 2
          mStop := false
          subProcessCounter := 0
          pos := by decide }
      events := [] }
  pids := fun k => if k = 0 then 10 else 11
  reaped := []

theorem twoChildren_starts : Starts twoChildren := by
  refine ⟨rfl, rfl, rfl, fun _ => rfl, fun k _ => ?_⟩
  change (0 : Int) < if k = 0 then 10 else 11
  split_ifs <;> decide

/-- Both are reaped, and `m_stop` stays false. -/
theorem last_child_missed :
    ¬ ∀ history s, reaping.Run history s → TransitionSystem.Always StopsRight history s := by
  intro h
  have hrun : reaping.Run [(twoChildren, [11, 10])] _ :=
    (TransitionSystem.Run.start twoChildren_starts).snoc ⟨by decide, rfl⟩
  have hright : StopsRight _ := (h _ _ hrun).2
  have hstop := hright.mStop.mpr (by decide)
  exact absurd hstop (by decide)

/-- One of them is reaped, and a process that is no child. -/
theorem reaping_stopsRight_iff_one :
    ∃ s, reaping.Run [(twoChildren, [11, 77])] s ∧ StopsRight s := by
  have hrun : reaping.Run [(twoChildren, [11, 77])] _ :=
    (TransitionSystem.Run.start twoChildren_starts).snoc ⟨by decide, rfl⟩
  refine ⟨_, hrun, ((reaping_stopsRight_iff hrun).mpr ?_).2⟩
  intro entry hentry
  rw [List.mem_singleton] at hentry
  subst hentry
  exact ⟨0, by decide, by decide, by decide⟩

end Watched

end LinuxLearning.Chapter5.ProcessPool
