/-
chapter_2/signal/sig_set.cpp: SIGINT and SIGQUIT are blocked, and every second
the pending signals are printed; after eleven lines the two are unblocked.
-/
import LinuxLearning.Lib.Transition
import Mathlib.Data.Finset.Basic

namespace LinuxLearning.Chapter2.SigSet

open TransitionSystem

def SIGINT : Nat := 2

def SIGQUIT : Nat := 3

/-- The set that `main` blocks. -/
def mySet : Finset Nat := {SIGINT, SIGQUIT}

/-- The signals whose default action is not to terminate the process: SIGCHLD,
SIGCONT, SIGURG and SIGWINCH, and those that stop it. -/
def survived : List Nat := [17, 18, 19, 20, 21, 22, 23, 28]

/-- `1024 / (8 * sizeof(unsigned long int))` -/
def num : Nat := 1024 / (8 * 8)

/-- The process in its loop. -/
structure Process where
  mask : Finset Nat
  pending : Finset Nat
  time : Nat
  alive : Bool

inductive Label where
  | kill (sig : Nat)
  | line (bits : List Bool)
deriving DecidableEq

/-- A signal that is sent; while it is blocked its bit is set. -/
def kill (s : Process) (sig : Nat) : Process :=
  if sig ∈ s.mask then { s with pending := insert sig s.pending }
  else { s with alive := sig ∈ survived }

/-- `sigprocmask(SIG_UNBLOCK, &mySet, NULL)`, which delivers what is pending. -/
def unblock (s : Process) : Process :=
  { s with
    mask := s.mask \ mySet
    pending := s.pending \ mySet
    alive := ∀ sig ∈ s.pending ∩ mySet, sig ∈ survived }

/-- The line of a pass of the loop. -/
def line (s : Process) : List Bool := (List.range' 1 (num - 1)).map fun i => i ∈ s.pending

/-- The rest of the pass. -/
def pass (s : Process) : Process :=
  let s := if s.time = 10 then unblock s else s
  { s with time := s.time + 1 }

inductive Step (s : Process) : Label → Process → Prop
  | kill {sig : Nat} (halive : s.alive = true) : Step s (.kill sig) (kill s sig)
  | line (halive : s.alive = true) : Step s (.line (line s)) (pass s)

/-- Behind the first `sigprocmask`. -/
def program : TransitionSystem Process Label where
  start s := s = ⟨mySet, ∅, 0, true⟩
  step := Step

/-- The signals that have been sent. -/
def sent (history : List (Process × Label)) : List Nat :=
  history.filterMap fun entry => match entry.2 with
    | .kill sig => some sig
    | .line _ => none

/-- The invariant: up to the last line before `unblock` the pending signals are
those of the set that were sent; a process that has come further was sent
none of them. -/
structure Inv (signals : List Nat) (s : Process) : Prop where
  blocked : s.time ≤ 10 → s.mask = mySet ∧ s.pending = mySet.filter (· ∈ signals)
  unblocked : 10 < s.time → s.mask = ∅ ∧
    (s.alive = true → s.pending = ∅ ∧ ∀ sig ∈ mySet, sig ∉ signals)

section Step

variable {signals : List Nat} {s : Process}

/-- In both cases the bits are those of the set that were sent. -/
theorem Inv.pending_eq (h : Inv signals s) (halive : s.alive = true) :
    s.pending = mySet.filter (· ∈ signals) := by
  by_cases htime : s.time ≤ 10
  · exact (h.blocked htime).2
  · obtain ⟨hpending, hnone⟩ := (h.unblocked (Nat.lt_of_not_le htime)).2 halive
    rw [hpending, Finset.filter_eq_empty_iff.mpr fun sig hsig => hnone sig hsig]

/-- None of the two is survived when it is not blocked. -/
theorem not_survived {sig : Nat} (hsig : sig ∈ mySet) : sig ∉ survived := by
  rw [mySet, Finset.mem_insert, Finset.mem_singleton] at hsig
  rcases hsig with rfl | rfl <;> decide

theorem Inv.kill (h : Inv signals s) (halive : s.alive = true) (sig : Nat) :
    Inv (signals ++ [sig]) (kill s sig) := by
  have hmem : ∀ x, x ∈ signals ++ [sig] ↔ x ∈ signals ∨ x = sig := by simp
  rw [SigSet.kill]
  by_cases htime : s.time ≤ 10
  · obtain ⟨hmask, hpending⟩ := h.blocked htime
    split
    case isTrue hsig =>
        rw [hmask] at hsig
        refine ⟨fun _ => ⟨hmask, ?_⟩, fun hlate => absurd htime (Nat.not_le_of_lt hlate)⟩
        ext x
        rw [hpending, Finset.mem_insert, Finset.mem_filter, Finset.mem_filter, hmem]
        constructor
        · rintro (rfl | ⟨hx, hsent⟩)
          · exact ⟨hsig, Or.inr rfl⟩
          · exact ⟨hx, Or.inl hsent⟩
        · rintro ⟨hx, hsent | rfl⟩
          · exact Or.inr ⟨hx, hsent⟩
          · exact Or.inl rfl
    case isFalse hsig =>
        rw [hmask] at hsig
        refine ⟨fun _ => ⟨hmask, ?_⟩, fun hlate => absurd htime (Nat.not_le_of_lt hlate)⟩
        refine hpending.trans (Finset.filter_congr fun x hx => ?_)
        rw [hmem, or_iff_left]
        rintro rfl
        exact hsig hx
  · obtain ⟨hmask, hnone⟩ := h.unblocked (Nat.lt_of_not_le htime)
    obtain ⟨hpending, hnone⟩ := hnone halive
    rw [if_neg (by rw [hmask]; exact Finset.notMem_empty sig)]
    refine ⟨fun hearly => absurd hearly htime, fun _ => ⟨hmask, fun hstill => ⟨hpending, ?_⟩⟩⟩
    intro x hx
    rw [hmem, not_or]
    refine ⟨hnone x hx, ?_⟩
    rintro rfl
    exact not_survived hx (of_decide_eq_true hstill)

theorem Inv.pass (h : Inv signals s) : Inv signals (pass s) := by
  rcases Nat.lt_trichotomy s.time 10 with hearly | htime | hlate
  · rw [SigSet.pass, if_neg hearly.ne]
    exact ⟨fun _ => h.blocked hearly.le, fun hlate => absurd hearly (by dsimp only at hlate; omega)⟩
  · obtain ⟨hmask, hpending⟩ := h.blocked htime.le
    rw [SigSet.pass, if_pos htime]
    refine ⟨fun hearly => absurd htime (by dsimp only [unblock] at hearly; omega), fun _ => ?_⟩
    dsimp only [unblock]
    refine ⟨by rw [hmask, Finset.sdiff_self], fun hstill => ?_⟩
    have hnone : ∀ sig ∈ mySet, sig ∉ signals := by
      intro sig hsig hsent
      have hbit : sig ∈ s.pending := by
        rw [hpending, Finset.mem_filter]
        exact ⟨hsig, hsent⟩
      exact not_survived hsig (of_decide_eq_true hstill sig (Finset.mem_inter.mpr ⟨hbit, hsig⟩))
    refine ⟨?_, hnone⟩
    rw [hpending, Finset.filter_eq_empty_iff.mpr fun sig hsig => hnone sig hsig,
      Finset.empty_sdiff]
  · rw [SigSet.pass, if_neg hlate.ne']
    exact ⟨fun hearly => absurd hlate (by dsimp only at hearly; omega), fun _ => h.unblocked hlate⟩

end Step

section Runs

variable {history : List (Process × Label)} {s : Process}

theorem sent_append (earlier later : List (Process × Label)) :
    sent (earlier ++ later) = sent earlier ++ sent later :=
  List.filterMap_append

theorem inv_of_run (hrun : program.Run history s) : Inv (sent history) s := by
  induction hrun with
  | start hstart =>
      subst hstart
      refine ⟨fun _ => ⟨rfl, ?_⟩, fun hlate => absurd hlate (by decide)⟩
      exact (Finset.filter_eq_empty_iff.mpr fun _ _ => by simp [sent]).symm
  | snoc hbefore hstep ih =>
      rw [sent_append]
      cases hstep with
      | kill halive => exact ih.kill halive _
      | line halive =>
          change Inv (sent _ ++ []) _
          rw [List.append_nil]
          exact ih.pass

/-- A line has a bit for each of the first fifteen signals, and the bits of the
two that are blocked are set if they have been sent.  A process that comes
behind the eleventh line was sent none of the two, so that all its lines are
zeros. -/
theorem sig_set_prints (hrun : program.Run history s) :
    (∀ earlier before bits later, history = earlier ++ (before, .line bits) :: later →
      bits = (List.range' 1 15).map fun i => decide (i ∈ mySet ∧ i ∈ sent earlier)) ∧
    (s.alive = true → 10 < s.time →
      ∀ before bits, (before, .line bits) ∈ history → bits = List.replicate 15 false) := by
  have hbits : ∀ earlier before bits later, history = earlier ++ (before, .line bits) :: later →
      bits = (List.range' 1 15).map fun i => decide (i ∈ mySet ∧ i ∈ sent earlier) := by
    rintro earlier before bits later rfl
    obtain ⟨hbefore, after, hstep⟩ := hrun.split
    cases hstep with
    | line halive =>
        have hpending := (inv_of_run hbefore).pending_eq halive
        rw [line, hpending]
        simp only [Finset.mem_filter]
        rfl
  refine ⟨hbits, fun halive htime before bits hentry => ?_⟩
  have hnone := (((inv_of_run hrun).unblocked htime).2 halive).2
  obtain ⟨earlier, later, rfl⟩ := List.append_of_mem hentry
  rw [hbits earlier before bits later rfl, List.eq_replicate_iff]
  refine ⟨by rw [List.length_map, List.length_range'], ?_⟩
  rw [List.forall_mem_map]
  intro i _
  rw [decide_eq_false_iff_not]
  rintro ⟨hi, hsent⟩
  rw [sent_append] at hnone
  exact hnone i hi (List.mem_append_left _ hsent)

/-- SIGINT shows in the line behind it. -/
theorem sig_set_prints_int :
    ∃ history s bits, program.Run history s ∧ (∃ before, (before, .line bits) ∈ history) ∧
      bits[1]? = some true := by
  have hstart : program.Run [] ⟨mySet, ∅, 0, true⟩ := .start rfl
  have hkill := hstart.snoc (show Step _ (.kill SIGINT) _ from .kill rfl)
  have hline := hkill.snoc (.line (by decide))
  obtain ⟨hbits, -⟩ := sig_set_prints hline
  refine ⟨_, _, _, hline, ⟨_, List.mem_append_right _ List.mem_cons_self⟩, ?_⟩
  rw [hbits [_] _ _ [] rfl]
  decide

end Runs

end LinuxLearning.Chapter2.SigSet
