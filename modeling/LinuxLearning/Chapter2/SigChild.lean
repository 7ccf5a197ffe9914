/-
A parent that reaps its children in a SIGCHLD handler
(chapter_2/signal/sig_child.cpp).  The signal also comes for a child that is
stopped or continued, and one that comes while one is pending is lost, also when
another child has sent it; the handler asks `waitpid` until it has nothing more,
so that no child is left over.
-/
import LinuxLearning.Lib.Descent
import Mathlib.Data.List.Perm.Basic

namespace LinuxLearning.Chapter2.SigChild

/-- Where the code outside of the handler is: before pass `i` of the fork
loop, in the loop of the parent, or behind `return`. -/
inductive MainPc
  | fork (i : Nat)
  | sleep
  | gone
deriving DecidableEq

/-- Where the handler is: in the `sleep` of its loop, before `waitpid`, or
behind the `break`. -/
inductive HandlerPc
  | sleep
  | waitpid
  | leave
deriving DecidableEq

/-- The parent and its children, each named by the pass that has forked it;
`pending` is the bit of SIGCHLD, which the handler blocks. -/
structure Family where
  main : MainPc
  handler : Option HandlerPc
  pending : Bool
  running : List Nat
  zombies : List Nat
  reaped : List Nat
deriving DecidableEq

inductive Label
  | fork (i : Nat)
  | forkFails (i : Nat)
  | exits (i : Nat)
  | stops (i : Nat)
  | continues (i : Nat)
  | deliver
  | slept
  | reap (i : Nat)
  | none
  | leave
deriving DecidableEq

/-- Behind pass `i` of the loop, when `fork` has returned `pid`. -/
def afterFork (i : Nat) (pid : Int) : MainPc :=
  if i + 1 < 10 then .fork (i + 1) else if pid > 0 then .sleep else .gone

/-- What the parent, a child or the kernel does next. -/
inductive Step (s : Family) : Label → Family → Prop
  | fork {i : Nat} {pid : Int} (hpc : s.main = .fork i) (hhandler : s.handler = .none)
      (hpid : 0 < pid) :
      Step s (.fork i) { s with main := afterFork i pid, running := s.running ++ [i] }
  | forkFails {i : Nat} (hpc : s.main = .fork i) (hhandler : s.handler = .none) :
      Step s (.forkFails i) { s with main := afterFork i (-1) }
  | exits {i : Nat} (hi : i ∈ s.running) :
      Step s (.exits i)
        { s with running := s.running.erase i, zombies := i :: s.zombies, pending := true }
  | stops {i : Nat} (hi : i ∈ s.running) : Step s (.stops i) { s with pending := true }
  | continues {i : Nat} (hi : i ∈ s.running) : Step s (.continues i) { s with pending := true }
  | deliver (hpending : s.pending = true) (hhandler : s.handler = .none) (hpc : s.main ≠ .gone) :
      Step s .deliver { s with pending := false, handler := some .sleep }
  | slept (hhandler : s.handler = some .sleep) :
      Step s .slept { s with handler := some .waitpid }
  | reap {i : Nat} (hhandler : s.handler = some .waitpid) (hi : i ∈ s.zombies) :
      Step s (.reap i)
        { s with
          zombies := s.zombies.erase i
          reaped := i :: s.reaped
          handler := some .sleep }
  | none (hhandler : s.handler = some .waitpid) (hzombies : s.zombies = []) :
      Step s .none { s with handler := some .leave }
  | leave (hhandler : s.handler = some .leave) :
      Step s .leave { s with handler := Option.none }

def program : TransitionSystem Family Label where
  start s := s = ⟨.fork 0, none, false, [], [], []⟩
  step := Step

/-- The steps the parent takes on a signal, without another `fork` or signal. -/
def Handles : Label → Prop
  | .deliver | .slept | .reap _ | .none | .leave => True
  | .fork _ | .forkFails _ | .exits _ | .stops _ | .continues _ => False

/-- The children that have been forked. -/
def forked (history : List (Family × Label)) : List Nat :=
  history.filterMap fun entry => match entry.2 with
    | .fork i => some i
    | _ => none

/-- The handler will still ask `waitpid`, or be entered. -/
def Reacts (s : Family) : Prop :=
  s.pending = true ∨ s.handler = some .sleep ∨ s.handler = some .waitpid

/-- The invariant. -/
structure Inv (s : Family) : Prop where
  reacts : s.zombies ≠ [] → Reacts s
  lives : ∀ pc, s.handler = some pc → s.main ≠ .gone
  pass : ∀ i, s.main = .fork i → i < 10

/-- The passes of the fork loop that are over. -/
def MainPc.passes : MainPc → Nat
  | .fork i => i
  | .sleep | .gone => 10

/-- The children that have been forked, by where they are. -/
def Family.children (s : Family) : List Nat := s.running ++ s.zombies ++ s.reaped

/-- How far the handler is from its return. -/
def ahead : Option HandlerPc → Nat
  | none => 0
  | some .leave => 1
  | some .waitpid => 2
  | some .sleep => 3

/-- Every zombie costs the handler two steps. -/
def work (s : Family) : Nat :=
  (if s.pending then 4 else 0) + 2 * s.zombies.length + ahead s.handler

theorem passes_afterFork {i : Nat} (hi : i < 10) (pid : Int) :
    (afterFork i pid).passes = i + 1 := by
  rw [afterFork]
  split
  · rfl
  · have hlast : i + 1 = 10 := by omega
    split <;> exact hlast.symm

theorem fork_of_afterFork {i j : Nat} {pid : Int} (h : afterFork i pid = .fork j) : j < 10 := by
  rw [afterFork] at h
  split at h
  case isTrue hlt =>
      cases h
      exact hlt
  case isFalse => split at h <;> cases h

section Step

variable {s after : Family} {label : Label}

theorem Inv.step (h : Inv s) (hstep : Step s label after) : Inv after := by
  cases hstep with
  | fork hpc hhandler | forkFails hpc hhandler =>
      refine ⟨h.reacts, ?_, fun _ => fork_of_afterFork⟩
      intro pc hpc
      rw [hhandler] at hpc
      cases hpc
  | exits hi | stops hi | continues hi => exact ⟨fun _ => Or.inl rfl, h.lives, h.pass⟩
  | deliver hpending hhandler hpc =>
      exact ⟨fun _ => Or.inr (Or.inl rfl), fun _ _ => hpc, h.pass⟩
  | slept hhandler => exact ⟨fun _ => Or.inr (Or.inr rfl), fun _ _ => h.lives _ hhandler, h.pass⟩
  | reap hhandler hi =>
      exact ⟨fun _ => Or.inr (Or.inl rfl), fun _ _ => h.lives _ hhandler, h.pass⟩
  | none hhandler hzombies =>
      exact ⟨fun hne => absurd hzombies hne, fun _ _ => h.lives _ hhandler, h.pass⟩
  | leave hhandler =>
      refine ⟨fun hne => ?_, nofun, h.pass⟩
      rcases h.reacts hne with hpending | hsleep | hwait
      · exact Or.inl hpending
      · rw [hhandler] at hsleep
        cases hsleep
      · rw [hhandler] at hwait
        cases hwait

/-- Every step of the handler leaves less of it to do. -/
theorem work_descends : program.Descends Handles work := by
  intro s label after hlabel hstep
  cases hstep with
  | fork | forkFails | exits | stops | continues => cases hlabel
  | deliver hpending hhandler hpc =>
      simp only [work, ahead, hpending, hhandler, ↓reduceIte, Bool.false_eq_true]
      omega
  | slept hhandler => simp [work, ahead, hhandler]
  | @reap i hhandler hi =>
      have hlength := List.length_erase_of_mem hi
      have hpos := List.length_pos_of_mem hi
      simp only [work, ahead, hhandler, hlength]
      omega
  | none hhandler hzombies => simp [work, ahead, hhandler]
  | leave hhandler => simp [work, ahead, hhandler]

/-- A parent that lives and has nothing to handle has no zombies. -/
theorem Inv.zombies_eq_nil (h : Inv s) (hpc : s.main ≠ .gone)
    (hsettled : program.Settled Handles s) : s.zombies = [] := by
  cases hhandler : s.handler with
  | some pc =>
      exfalso
      cases pc with
      | sleep => exact hsettled .slept _ trivial (.slept hhandler)
      | leave => exact hsettled .leave _ trivial (.leave hhandler)
      | waitpid =>
          cases hzombies : s.zombies with
          | nil => exact hsettled .none _ trivial (.none hhandler hzombies)
          | cons i zombies =>
              have hi : i ∈ s.zombies := hzombies ▸ List.mem_cons_self
              exact hsettled (.reap i) _ trivial (.reap hhandler hi)
  | none =>
      by_contra hne
      rcases h.reacts hne with hpending | hsleep | hwait
      · exact hsettled .deliver _ trivial (.deliver hpending hhandler hpc)
      · rw [hhandler] at hsleep
        cases hsleep
      · rw [hhandler] at hwait
        cases hwait

theorem work_le (s : Family) : work s ≤ 2 * s.zombies.length + 7 := by
  have hpending : (if s.pending then 4 else 0) ≤ 4 := by split <;> omega
  have hahead : ahead s.handler ≤ 3 := by
    rcases s.handler with _ | _ | _ | _ <;> decide
  rw [work]
  omega

theorem perm_erase_append {i : Nat} {l : List Nat} (hi : i ∈ l) (m : List Nat) :
    (l.erase i ++ i :: m).Perm (l ++ m) :=
  List.perm_middle.trans ((List.perm_cons_erase hi).symm.append_right m)

/-- A child that exits or is reaped goes from one place to the next. -/
theorem Step.children (hstep : Step s label after) :
    after.children.Perm (s.children ++ forked [(s, label)]) := by
  cases hstep with
  | @fork i pid hpc hhandler hpid =>
      have hcomm : ([i] ++ (s.zombies ++ s.reaped)).Perm (s.zombies ++ s.reaped ++ [i]) :=
        List.perm_append_comm
      change (Family.children _).Perm (s.children ++ [i])
      simpa only [Family.children, List.append_assoc] using hcomm.append_left s.running
  | exits hi =>
      refine List.Perm.trans ?_ (.of_eq (List.append_nil _).symm)
      exact (perm_erase_append hi s.zombies).append_right s.reaped
  | reap hhandler hi =>
      refine List.Perm.trans ?_ (.of_eq (List.append_nil _).symm)
      simpa only [Family.children, List.append_assoc] using
        (perm_erase_append hi s.reaped).append_left s.running
  | forkFails | stops | continues | deliver | slept | none | leave =>
      exact .of_eq (List.append_nil _).symm

end Step

section Runs

variable {history : List (Family × Label)} {s : Family}

theorem inv_of_reachable (hreach : program.Reachable s) : Inv s := by
  refine hreach.invariant ?_ ?_
  · rintro _ rfl
    exact ⟨nofun, nofun, fun i hi => by cases hi; decide⟩
  · exact fun _ _ _ h hstep => h.step hstep

theorem forked_append (earlier later : List (Family × Label)) :
    forked (earlier ++ later) = forked earlier ++ forked later :=
  List.filterMap_append

/-- Every child that has been forked is in one place. -/
theorem children_perm (hrun : program.Run history s) : s.children.Perm (forked history) := by
  induction hrun with
  | start hstart =>
      subst hstart
      exact .refl []
  | @snoc history before after label hbefore hstep ih =>
      rw [forked_append]
      exact hstep.children.trans (ih.append_right _)

/-- No pass of the loop is made twice. -/
theorem forked_sorted (hrun : program.Run history s) :
    (forked history).Pairwise (· < ·) ∧ ∀ j ∈ forked history, j < s.main.passes := by
  induction hrun with
  | start => exact ⟨.nil, nofun⟩
  | @snoc history before after label hbefore hstep ih =>
      obtain ⟨hsorted, hbelow⟩ := ih
      have hpass := (inv_of_reachable ⟨history, hbefore⟩).pass
      rw [forked_append]
      cases hstep with
      | @fork i pid hpc hhandler hpid =>
          rw [hpc] at hbelow
          change (forked history ++ [i]).Pairwise (· < ·) ∧ ∀ j ∈ forked history ++ [i], _
          dsimp only
          rw [passes_afterFork (hpass i hpc), List.forall_mem_append, List.forall_mem_singleton,
            List.pairwise_append]
          refine ⟨⟨hsorted, List.pairwise_singleton _ _, ?_⟩, ?_, Nat.lt_succ_self i⟩
          · exact fun j hj k hk => List.mem_singleton.mp hk ▸ hbelow j hj
          · exact fun j hj => Nat.lt_succ_of_lt (hbelow j hj)
      | @forkFails i hpc hhandler =>
          rw [hpc] at hbelow
          change (forked history ++ []).Pairwise (· < ·) ∧ ∀ j ∈ forked history ++ [], _
          dsimp only
          rw [passes_afterFork (hpass i hpc), List.append_nil]
          exact ⟨hsorted, fun j hj => Nat.lt_succ_of_lt (hbelow j hj)⟩
      | exits | stops | continues | deliver | slept | reap | none | leave =>
          rw [show forked [_] = [] from rfl, List.append_nil]
          exact ⟨hsorted, hbelow⟩

/-- Meanwhile the rest of the family stays as it is. -/
theorem Handles.keeps {later : List (Family × Label)} {after : Family}
    (h : program.Continues Handles s later after) :
    after.main = s.main ∧ after.running = s.running ∧ after.children.Perm s.children := by
  induction h with
  | refl => exact ⟨rfl, rfl, .refl _⟩
  | @snoc later before after label _ hlabel hstep ih =>
      obtain ⟨hmain, hrunning, hchildren⟩ := ih
      have hstepped := Step.children hstep
      cases hstep with
      | fork | forkFails | exits | stops | continues => cases hlabel
      | deliver | slept | reap | none | leave =>
          refine ⟨hmain, hrunning, hstepped.trans ?_⟩
          exact (List.Perm.of_eq (List.append_nil _)).trans hchildren

/-- Each child is running, a zombie or reaped, and once only.  While there is a
zombie, the handler will ask for it, although signals are lost; and when no
child exits, stops or goes on meanwhile, a parent that lives has reaped all zombies after a
bounded number of steps. -/
theorem sig_child_reaps (hrun : program.Run history s) :
    s.children.Perm (forked history) ∧ s.children.Nodup ∧ (s.zombies ≠ [] → Reacts s) ∧
    (s.main ≠ .gone →
      (∃ later after, program.Continues Handles s later after ∧
        program.Settled Handles after) ∧
      ∀ later after, program.Continues Handles s later after →
        later.length ≤ 2 * s.zombies.length + 7 ∧
        (program.Settled Handles after →
          after.zombies = [] ∧ after.reaped.Perm (s.zombies ++ s.reaped))) := by
  have hchildren := children_perm hrun
  have hnodup : (forked history).Nodup := (forked_sorted hrun).1.imp Nat.ne_of_lt
  have hreach : program.Reachable s := ⟨history, hrun⟩
  refine ⟨hchildren, hchildren.nodup_iff.mpr hnodup, (inv_of_reachable hreach).reacts, ?_⟩
  intro hlives
  refine ⟨work_descends.settles s, fun later after hlater => ⟨?_, fun hsettled => ?_⟩⟩
  · have hlength := work_descends.length_le hlater
    have hwork := work_le s
    omega
  · obtain ⟨hmain, hrunning, hperm⟩ := Handles.keeps hlater
    have hzombies : after.zombies = [] :=
      (inv_of_reachable (hlater.reachable hreach)).zombies_eq_nil (hmain ▸ hlives) hsettled
    refine ⟨hzombies, ?_⟩
    rw [Family.children, Family.children, hrunning, hzombies, List.append_nil,
      List.append_assoc] at hperm
    exact (List.perm_append_left_iff s.running).mp hperm

/-- A child is stopped and goes on, and then two exit before the parent handles
one signal. -/
theorem sig_child_reaps_lost :
    ∃ history s, program.Run history s ∧ s.zombies = [1, 0] ∧ s.pending = true ∧
      ∃ later after, program.Continues Handles s later after ∧
        after.reaped.Perm [1, 0] := by
  have hstart : program.Run [] ⟨.fork 0, none, false, [], [], []⟩ := .start rfl
  have hfirst := hstart.snoc (@Step.fork _ 0 101 rfl rfl (by decide))
  have hsecond := hfirst.snoc (@Step.fork _ 1 102 rfl rfl (by decide))
  have hstops := hsecond.snoc (.stops (i := 1) (by decide))
  have hcontinues := hstops.snoc (.continues (i := 1) (by decide))
  have hexit := hcontinues.snoc (.exits (i := 0) (by decide))
  have hexits := hexit.snoc (.exits (i := 1) (by decide))
  obtain ⟨-, -, -, hreaps⟩ := sig_child_reaps hexits
  obtain ⟨⟨later, after, hlater, hsettled⟩, hbound⟩ := hreaps (by decide)
  exact ⟨_, _, hexits, rfl, rfl, later, after, hlater, ((hbound later after hlater).2 hsettled).2⟩

end Runs

end LinuxLearning.Chapter2.SigChild
