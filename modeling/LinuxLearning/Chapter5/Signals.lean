/-
The signal branch of the process pool's parent (CGI/process_pool.cpp).  The
loop over the bytes received reads `signals[i]`, where `i` is the index of the
event and not that of the byte, and the loop that kills the children reads
`m_sub_process[i]`: so what the parent does depends on where the event stands.
-/
import LinuxLearning.Chapter5.Reaping
import LinuxLearning.Lib.Buffer

namespace LinuxLearning.Chapter5.ProcessPool

def SIGINT : Byte := 2

def SIGTERM : Byte := 15

def SIGCHLD : Byte := 17

/-- What the switch does for a signal. -/
inductive Action where
  | reap | killAll
deriving Repr, DecidableEq

/-- The cases of the switch. -/
def action (sig : Byte) : Option Action :=
  if sig = SIGCHLD then some .reap
  else if sig = SIGTERM ∨ sig = SIGINT then some .killAll
  else none

/-- The action that an event begins. -/
def Event.action : Event → Option Action
  | .reap _ => some .reap
  | .killAll => some .killAll
  | _ => none

namespace Handling

/-- The body of the loop over `m`, which does not use `m`. -/
def killChild (i : Nat) (s : Handling) (_m : Nat) : Handling :=
  let pid := (s.parent.mSubProcess i).mPid
  if pid ≠ -1 then { s with events := s.events ++ [.kill pid] } else s

/-- The cases SIGTERM and SIGINT. -/
def killAll (i : Nat) (s : Handling) : Handling :=
  (List.range s.parent.mProcessNumber).foldl (killChild i)
    { s with events := s.events ++ [.killAll] }

/-- The body of the loop over `j`, when `waitpid` gives the process numbers
`pids j` in that round. -/
def signal (i : Nat) (signals : Nat → Byte) (pids : Nat → List Int) (s : Handling) (j : Nat) :
    Handling :=
  match ProcessPool.action (signals i) with
  | some .reap => s.sigchld (pids j)
  | some .killAll => s.killAll i
  | none => s

/-- The branch for `sig_pipefd[0]` in the event of index `i`: `recv` has put
`ret` bytes into `signals`; behind them is whatever was there. -/
def batch (i ret : Nat) (signals : Nat → Byte) (pids : Nat → List Int) (s : Handling) :
    Handling :=
  (List.range ret).foldl (signal i signals pids) s

/-- The action of every byte is performed once, in order; and after a batch
with SIGTERM or SIGINT every child that lives has been sent SIGTERM, and no
process but those that were children has. -/
structure ActsOnAll (p : Parent) (ret : Nat) (signals : Nat → Byte) (s : Handling) : Prop where
  actions : s.events.filterMap Event.action =
    (List.range ret).filterMap fun j => ProcessPool.action (signals j)
  sent : (∃ j < ret, ProcessPool.action (signals j) = some .killAll) →
    ∀ k < s.parent.mProcessNumber, s.parent.live k = true →
      .kill (s.parent.mSubProcess k).mPid ∈ s.events
  others : (∃ j < ret, ProcessPool.action (signals j) = some .killAll) →
    ∀ pid, .kill pid ∈ s.events →
      ∃ k < p.mProcessNumber, p.live k = true ∧ (p.mSubProcess k).mPid = pid

/-- Every byte asks for what the byte at the event's index asks for; and if
that is to kill the children, then those that live have the process number of
the one at that index, which is no process or a child. -/
def IndexDoesNotMatter (p : Parent) (i ret : Nat) (signals : Nat → Byte) : Prop :=
  ∀ j < ret, ProcessPool.action (signals j) = ProcessPool.action (signals i) ∧
    (ProcessPool.action (signals i) = some .killAll →
      (∀ k < p.mProcessNumber, p.live k = true →
        (p.mSubProcess k).mPid = (p.mSubProcess i).mPid) ∧
      (p.live i = true → ∃ k < p.mProcessNumber,
        (p.mSubProcess k).mPid = (p.mSubProcess i).mPid))

section Batch

variable {s : Handling} {i : Nat} {signals : Nat → Byte} {pids : Nat → List Int}

theorem foldl_killChild (s : Handling) (i m : Nat) :
    (List.range m).foldl (killChild i) s =
      { s with
        events := s.events ++
          if s.parent.live i then List.replicate m (.kill (s.parent.mSubProcess i).mPid) else [] } := by
  induction m with
  | zero => simp
  | succ m ih =>
      rw [List.range_succ, List.foldl_append, ih, List.foldl_cons, List.foldl_nil, killChild]
      dsimp only
      cases hlive : s.parent.live i with
      | true =>
          rw [if_pos (by simpa [Parent.live] using hlive), if_pos rfl, if_pos rfl,
            List.replicate_succ', List.append_assoc]
      | false =>
          rw [if_neg (by simpa [Parent.live] using hlive), if_neg Bool.false_ne_true,
            if_neg Bool.false_ne_true]

theorem killAll_parent : (s.killAll i).parent = s.parent := by
  rw [killAll, foldl_killChild]

theorem killAll_events : (s.killAll i).events = s.events ++ .killAll ::
    if s.parent.live i then
      List.replicate s.parent.mProcessNumber (.kill (s.parent.mSubProcess i).mPid)
    else [] := by
  rw [killAll, foldl_killChild]
  simp

theorem killAll_actions :
    (s.killAll i).events.filterMap Event.action = s.events.filterMap Event.action ++ [.killAll] := by
  rw [killAll_events, List.filterMap_append]
  split_ifs <;> simp [Event.action]

theorem reap_actions {pid : Int} :
    (s.reap pid).events.filterMap Event.action = s.events.filterMap Event.action := by
  rw [reap_events, List.filterMap_append, List.filterMap_map]
  simp [Function.comp_def, Event.action]

theorem foldl_reap_actions (s : Handling) (pids : List Int) :
    (pids.foldl reap s).events.filterMap Event.action = s.events.filterMap Event.action := by
  induction pids generalizing s with
  | nil => rfl
  | cons pid pids ih => rw [List.foldl_cons, ih, reap_actions]

theorem sigchld_actions {news : List Int} :
    (s.sigchld news).events.filterMap Event.action = s.events.filterMap Event.action ++ [.reap] := by
  rw [sigchld, foldl_keepRunning]
  dsimp only
  rw [foldl_reap_actions, List.filterMap_append]
  rfl

/-- Every round performs the action of the byte at the event's index. -/
theorem batch_actions (ret : Nat) :
    (batch i ret signals pids s).events.filterMap Event.action =
      s.events.filterMap Event.action ++
        (List.range ret).filterMap fun _ => ProcessPool.action (signals i) := by
  induction ret with
  | zero => simp [batch]
  | succ ret ih =>
      rw [batch] at ih ⊢
      rw [List.range_succ, List.foldl_append, List.foldl_cons, List.foldl_nil,
        List.filterMap_append, ← List.append_assoc, ← ih, signal]
      cases ProcessPool.action (signals i) with
      | none => simp
      | some act =>
          cases act with
          | reap => exact sigchld_actions
          | killAll => exact killAll_actions

variable (pids) in
/-- Where that action is to kill, the parent stays as it is, and only the
process at the event's index is sent a signal. -/
theorem batch_killAll (ret : Nat) (hkill : ProcessPool.action (signals i) = some .killAll) :
    (batch i ret signals pids s).parent = s.parent ∧
      ∀ pid, .kill pid ∈ (batch i ret signals pids s).events ↔ .kill pid ∈ s.events ∨
        (0 < ret ∧ s.parent.live i = true ∧ (s.parent.mSubProcess i).mPid = pid) := by
  induction ret with
  | zero => simp [batch]
  | succ ret ih =>
      obtain ⟨hparent, hevents⟩ := ih
      rw [batch] at hparent hevents ⊢
      rw [List.range_succ, List.foldl_append, List.foldl_cons, List.foldl_nil, signal, hkill]
      dsimp only
      rw [killAll_parent, killAll_events, hparent]
      refine ⟨rfl, fun pid => ?_⟩
      rw [List.mem_append, hevents]
      have hpos := s.parent.pos
      cases hlive : s.parent.live i with
      | true => simp [hpos.ne', eq_comm]; tauto
      | false => simp

/-- A list of answers is that of a constant question only if every answer
is. -/
theorem filterMap_eq_const {α β : Type} {l : List α} {f : α → Option β} {answer : Option β} :
    l.filterMap f = l.filterMap (fun _ => answer) ↔ ∀ x ∈ l, f x = answer := by
  refine ⟨fun h => ?_, List.filterMap_congr⟩
  cases answer with
  | none =>
      rw [List.filterMap_eq_nil_iff.mpr fun _ _ => rfl] at h
      exact List.filterMap_eq_nil_iff.mp h
  | some b =>
      have hconst : l.filterMap f = l.map fun _ => b :=
        h.trans (congrFun List.filterMap_eq_map l)
      have hlength : (l.filterMap f).length = l.length := by rw [hconst, List.length_map]
      intro x hx
      obtain ⟨y, hy⟩ := Option.isSome_iff_exists.mp
        (List.filterMap_length_eq_length.mp hlength x hx)
      have hmem : y ∈ l.map fun _ => b := hconst ▸ List.mem_filterMap.mpr ⟨x, hx, hy⟩
      obtain ⟨-, -, rfl⟩ := List.mem_map.mp hmem
      exact hy

theorem live_of_mPid_eq {p : Parent} {k : Nat}
    (h : (p.mSubProcess k).mPid = (p.mSubProcess i).mPid) : p.live k = p.live i := by
  rw [Parent.live, h, Parent.live]

/-- From one batch that is acted on as it should be: the index does not matter. -/
theorem ActsOnAll.indexDoesNotMatter {p : Parent} {ret : Nat}
    (h : ActsOnAll p ret signals (batch i ret signals pids ⟨p, []⟩)) :
    IndexDoesNotMatter p i ret signals := by
  have hsame := filterMap_eq_const.mp (h.actions.symm.trans (batch_actions ret))
  intro j hj
  have hj' := hsame j (List.mem_range.mpr hj)
  refine ⟨hj', fun hkill => ?_⟩
  obtain ⟨hparent, hevents⟩ := batch_killAll pids (s := ⟨p, []⟩) ret hkill
  have hasked : ∃ j < ret, ProcessPool.action (signals j) = some .killAll :=
    ⟨j, hj, hj'.trans hkill⟩
  constructor
  · intro k hk hlive
    have hsent := h.sent hasked k (by rw [hparent]; exact hk) (by rw [hparent]; exact hlive)
    rw [hparent, hevents] at hsent
    rcases hsent with hold | ⟨-, -, heq⟩
    · cases hold
    · exact heq.symm
  · intro hlive
    obtain ⟨k, hk, -, heq⟩ := h.others hasked (p.mSubProcess i).mPid
      ((hevents _).mpr (Or.inr ⟨by omega, hlive, rfl⟩))
    exact ⟨k, hk, heq⟩

/-- Where the index does not matter, the batch is acted on. -/
theorem IndexDoesNotMatter.actsOnAll {p : Parent} {ret : Nat}
    (h : IndexDoesNotMatter p i ret signals) :
    ActsOnAll p ret signals (batch i ret signals pids ⟨p, []⟩) := by
  have hkill : (∃ j < ret, ProcessPool.action (signals j) = some .killAll) →
      0 < ret ∧ ProcessPool.action (signals i) = some .killAll := by
    rintro ⟨j, hj, hasked⟩
    exact ⟨by omega, (h j hj).1.symm.trans hasked⟩
  refine ⟨?_, fun hasked k hk hlive => ?_, fun hasked pid hsent => ?_⟩
  · rw [batch_actions]
    exact (List.filterMap_congr fun j hj => (h j (List.mem_range.mp hj)).1).symm
  · obtain ⟨hpos, hkill⟩ := hkill hasked
    obtain ⟨hparent, hevents⟩ := batch_killAll pids (s := ⟨p, []⟩) ret hkill
    rw [hparent] at hk hlive ⊢
    have heq := ((h 0 hpos).2 hkill).1 k hk hlive
    exact (hevents _).mpr (Or.inr ⟨hpos, (live_of_mPid_eq heq).symm.trans hlive, heq.symm⟩)
  · obtain ⟨hpos, hkill⟩ := hkill hasked
    obtain ⟨-, hevents⟩ := batch_killAll pids (s := ⟨p, []⟩) ret hkill
    rcases (hevents pid).mp hsent with hold | ⟨-, hlive, rfl⟩
    · cases hold
    · obtain ⟨k, hk, heq⟩ := ((h 0 hpos).2 hkill).2 hlive
      exact ⟨k, hk, (live_of_mPid_eq heq).trans hlive, heq⟩

/-- The parent acts on every signal it is told of exactly when the index of the
event makes no difference. -/
theorem batch_actsOnAll_iff (p : Parent) (i ret : Nat) (signals : Nat → Byte)
    (pids : Nat → List Int) :
    ActsOnAll p ret signals (batch i ret signals pids ⟨p, []⟩) ↔
      IndexDoesNotMatter p i ret signals := by
  constructor
  · exact ActsOnAll.indexDoesNotMatter
  · exact IndexDoesNotMatter.actsOnAll

/-- SIGTERM alone, reported first, with two children: the first is killed
twice, the second is not. -/
theorem sigterm_misses_child :
    ¬ ∀ (p : Parent) (i ret : Nat) (signals : Nat → Byte) (pids : Nat → List Int),
      ActsOnAll p ret signals (batch i ret signals pids ⟨p, []⟩) := by
  intro h
  have hright := h Watched.twoChildren.handling.parent 0 1 (fun _ => SIGTERM) fun _ => []
  have hsent := hright.sent ⟨0, by decide, by decide⟩ 1 (by decide) (by decide)
  exact absurd hsent (by decide)

end Batch

end Handling

end LinuxLearning.Chapter5.ProcessPool
