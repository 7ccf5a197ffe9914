/-
The SIGCHLD handler of the multi-process server (chapter_4/tcp_server.cpp).  It
asks `waitpid` until no child is left, also while children run that have not
exited.
-/
import LinuxLearning.Lib.Turns
import Mathlib.Data.List.Perm.Basic

namespace LinuxLearning.Chapter4.SigChild

open Turns

/-- A child: its number, and the call of `waitpid` at which it has exited;
`none` for a child that runs on. -/
structure Child where
  pid : Int
  pid_pos : 0 < pid
  exit : Option Nat
deriving DecidableEq

def Child.ExitedBy (c : Child) (calls : Nat) : Prop := ∃ n ∈ c.exit, n ≤ calls

instance (c : Child) (calls : Nat) : Decidable (c.ExitedBy calls) :=
  inferInstanceAs (Decidable (∃ n ∈ c.exit, n ≤ calls))

/-- Which of several exited children `waitpid` reaps, at each of its calls. -/
def Pick : Type := Nat → (exited : List Child) → exited ≠ [] → { c : Child // c ∈ exited }

/-- The parent in the handler: how often it has called `waitpid`, its
children, those it has reaped, and the numbers it has printed. -/
structure Handler where
  calls : Nat
  children : List Child
  reaped : List Child
  printed : List Int
  allDisconnected : Bool

/-- When the handler is entered. -/
def entry (children : List Child) : Handler := ⟨0, children, [], [], false⟩

def exited (s : Handler) : List Child := s.children.filter (·.ExitedBy s.calls)

/-- `waitpid(-1, NULL, WNOHANG)` -/
def waitpid (pick : Pick) (s : Handler) : Int × Handler :=
  if h : exited s = [] then
    (if s.children = [] then -1 else 0, { s with calls := s.calls + 1 })
  else
    let c := (pick s.calls (exited s) h).val
    (c.pid, { s with
      calls := s.calls + 1
      children := s.children.erase c
      reaped := s.reaped ++ [c] })

/-- The body of the loop of `sigChildCatch`. -/
def sigChildTurn (pick : Pick) (s : Handler) : Handler ⊕ Handler :=
  let (ret, s) := waitpid pick s
  let s := if ret > 0 then { s with printed := s.printed ++ [ret] } else s
  if ret = 0 then .inl s -- sleep(2); continue;
  else if ret = -1 then .inr { s with allDisconnected := true }
  else .inl s

variable {pick : Pick} {s : Handler} {c : Child}

theorem mem_exited : c ∈ exited s ↔ c ∈ s.children ∧ c.ExitedBy s.calls := by
  rw [exited, List.mem_filter, decide_eq_true_iff]

/-- With an exited child: it is reaped, and the loop goes on. -/
theorem sigChildTurn_reap (pick : Pick) (h : exited s ≠ []) :
    ∃ c ∈ exited s, sigChildTurn pick s = .inl
      { s with
        calls := s.calls + 1
        children := s.children.erase c
        reaped := s.reaped ++ [c]
        printed := s.printed ++ [c.pid] } := by
  have hpos := (pick s.calls (exited s) h).val.pid_pos
  refine ⟨_, (pick s.calls (exited s) h).property, ?_⟩
  rw [sigChildTurn, waitpid, dif_neg h]
  dsimp only
  rw [if_pos hpos, if_neg (by omega), if_neg (by omega)]

/-- With running children only the loop goes on as well. -/
theorem sigChildTurn_wait (h : exited s = []) (hchildren : s.children ≠ []) :
    sigChildTurn pick s = .inl { s with calls := s.calls + 1 } := by
  rw [sigChildTurn, waitpid, dif_pos h, if_neg hchildren]
  rfl

/-- With no child left it ends. -/
theorem sigChildTurn_done (hchildren : s.children = []) :
    sigChildTurn pick s = .inr { s with calls := s.calls + 1, allDisconnected := true } := by
  have h : exited s = [] := by rw [exited, hchildren, List.filter_nil]
  rw [sigChildTurn, waitpid, dif_pos h, if_pos hchildren]
  rfl

/-- A child that runs on is never reaped, and the loop does not end. -/
theorem sigChildCatch_stuck (hc : c ∈ s.children) (hexit : c.exit = none) :
    ¬ ∃ after, Ends (sigChildTurn pick) s after := by
  refine not_ends (I := fun s => c ∈ s.children) ?_ hc
  intro s hc
  by_cases h : exited s = []
  · exact ⟨_, sigChildTurn_wait h (List.ne_nil_of_mem hc), hc⟩
  · obtain ⟨d, hd, hturn⟩ := sigChildTurn_reap pick h
    have hne : c ≠ d := by
      rintro rfl
      obtain ⟨n, hn, -⟩ := (mem_exited.mp hd).2
      rw [hexit] at hn
      cases hn
    exact ⟨_, hturn, (List.mem_erase_of_ne hne).mpr hc⟩

/-- When all children have exited by the call `last`, the children that are
left and the calls until then bound the turns. -/
theorem sigChildCatch_ends (pick : Pick) {children : List Child} {last : Nat}
    (hlast : ∀ c ∈ children, c.ExitedBy last) :
    ∃ after, Ends (sigChildTurn pick) (entry children) after ∧ after.reaped.Perm children := by
  refine ends_of_measure
    (I := fun s => (s.reaped ++ s.children).Perm children ∧ ∀ c ∈ s.children, c.ExitedBy last)
    (P := fun after : Handler => after.reaped.Perm children)
    (fun s => s.children.length + (last - s.calls)) ?_ ⟨.refl _, hlast⟩
  rintro s ⟨hperm, hlast⟩
  by_cases hchildren : s.children = []
  · left
    refine ⟨_, sigChildTurn_done hchildren, ?_⟩
    rwa [hchildren, List.append_nil] at hperm
  · right
    by_cases h : exited s = []
    · refine ⟨_, sigChildTurn_wait h hchildren, ⟨hperm, hlast⟩, ?_⟩
      obtain ⟨c, hc⟩ := List.exists_mem_of_ne_nil _ hchildren
      obtain ⟨n, hn, hle⟩ := hlast c hc
      have hlater : ¬ n ≤ s.calls := by
        intro hearly
        have : c ∈ exited s := mem_exited.mpr ⟨hc, n, hn, hearly⟩
        rw [h] at this
        cases this
      dsimp only
      omega
    · obtain ⟨c, hc, hturn⟩ := sigChildTurn_reap pick h
      have hmem := (mem_exited.mp hc).1
      refine ⟨_, hturn, ⟨?_, fun d hd => hlast d (List.mem_of_mem_erase hd)⟩, ?_⟩
      · dsimp only
        rw [List.append_assoc]
        exact ((List.perm_cons_erase hmem).symm.append_left _).trans hperm
      · dsimp only
        rw [List.length_erase_of_mem hmem]
        have := List.length_pos_of_mem hmem
        omega

/-- Children that all exit have all exited at some call. -/
theorem exists_last {children : List Child} (hexit : ∀ c ∈ children, c.exit ≠ none) :
    ∃ last, ∀ c ∈ children, c.ExitedBy last := by
  induction children with
  | nil => exact ⟨0, fun c hc => by cases hc⟩
  | cons c children ih =>
      rw [List.forall_mem_cons] at hexit
      obtain ⟨last, hlast⟩ := ih hexit.2
      obtain ⟨n, hn⟩ := Option.ne_none_iff_exists'.mp hexit.1
      refine ⟨max n last, List.forall_mem_cons.mpr ⟨⟨n, hn, Nat.le_max_left _ _⟩, ?_⟩⟩
      intro d hd
      obtain ⟨m, hm, hle⟩ := hlast d hd
      exact ⟨m, hm, Nat.le_trans hle (Nat.le_max_right _ _)⟩

/-- The handler returns, and every child that has exited by then is reaped. -/
def ReapsAndReturns (pick : Pick) (children : List Child) : Prop :=
  ∃ after, Ends (sigChildTurn pick) (entry children) after ∧
    ∀ c ∈ children, c.ExitedBy after.calls → c ∈ after.reaped

theorem not_returns {children : List Child} (hc : c ∈ children) (hexit : c.exit = none) :
    ¬ ReapsAndReturns pick children :=
  fun ⟨after, hends, _⟩ => sigChildCatch_stuck (s := entry children) hc hexit ⟨after, hends⟩

theorem reapsAndReturns (pick : Pick) {children : List Child}
    (hexit : ∀ c ∈ children, c.exit ≠ none) : ReapsAndReturns pick children := by
  obtain ⟨last, hlast⟩ := exists_last hexit
  obtain ⟨after, hends, hperm⟩ := sigChildCatch_ends pick hlast
  exact ⟨after, hends, fun c hc _ => hperm.mem_iff.mpr hc⟩

/-- It does exactly when no child runs on. -/
theorem sigChildCatch_iff (pick : Pick) (children : List Child) :
    ReapsAndReturns pick children ↔ ∀ c ∈ children, c.exit ≠ none := by
  constructor
  · exact fun h c hc hexit => not_returns hc hexit h
  · exact reapsAndReturns pick

/-- One child that has exited, and one that runs on. -/
def oneRunsOn : List Child := [⟨101, by decide, some 0⟩, ⟨102, by decide, none⟩]

/-- Of several exited children the first. -/
def pickFirst : Pick := fun _ exited h => ⟨exited.head h, List.head_mem h⟩

theorem oneRunsOn_stuck : ¬ ∀ pick children, ReapsAndReturns pick children := by
  intro h
  have hrunsOn : (⟨102, by decide, none⟩ : Child) ∈ oneRunsOn := by decide
  exact not_returns hrunsOn rfl (h pickFirst oneRunsOn)

end LinuxLearning.Chapter4.SigChild
