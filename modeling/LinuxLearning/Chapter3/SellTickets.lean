/-
Threads that sell tickets under a lock they try to take
(case_sell_tickets.cpp).  A ticket is unsold, sold and counted by its seller,
or taken from the shared number and about to be counted; the last kind exists
only inside a critical section.
-/
import LinuxLearning.Lib.Monitor
import Mathlib.Algebra.BigOperators.Group.List.Basic
import Mathlib.Algebra.Order.BigOperators.Group.List
import Mathlib.Algebra.Order.Group.Int
import Mathlib.Algebra.Ring.Int.Defs

namespace LinuxLearning.Chapter3.SellTickets

universe u

/-- The next statement of a thread: in `sell_tickets`, or in the loop of `main`
that joins the threads `rest` and has added up `sum`. -/
inductive Pc (τ : Type u) where
  | newSell | trylock | check | decrement | increment | unlock | unlockBreak | exit | ended
  | join (rest : List τ) (sum : Int)
deriving Repr, DecidableEq

/-- What a thread does in one step; `real` is what `main` reads from the cell
of a thread that it has joined. -/
inductive Act (τ : Type u) where
  | newSell | locked | busy | left | soldOut | decrement | increment | unlock | exit
  | join (t : τ) (real : Int)
deriving Repr, DecidableEq

/-- The text of `sell_tickets` and the join loop of `main`. -/
inductive Pc.Next {τ : Type u} : Pc τ → Act τ → Pc τ → Prop
  | newSell : Next .newSell .newSell .trylock
  | locked : Next .trylock .locked .check
  | busy : Next .trylock .busy .trylock
  | left : Next .check .left .decrement
  | soldOut : Next .check .soldOut .unlockBreak
  | decrement : Next .decrement .decrement .increment
  | increment : Next .increment .increment .unlock
  | unlock : Next .unlock .unlock .trylock
  | unlockBreak : Next .unlockBreak .unlock .exit
  | exit : Next .exit .exit .ended
  | join (t : τ) (rest : List τ) (sum real : Int) :
      Next (.join (t :: rest) sum) (.join t real) (.join rest (sum + real))

/-- `tickets_num`, the cell that each thread has got from `new`, and the
threads that have called `pthread_exit`, each with its own cell. -/
structure Shared (τ : Type u) where
  ticketsNum : Int
  sell : τ → Option Int
  exited : τ → Bool

section Shared

variable {τ : Type u}

/-- The test of `tickets_num`, and when `pthread_join` returns with a cell that
can be read. -/
def Shared.Allows (s : Shared τ) : Act τ → Prop
  | .left => 0 < s.ticketsNum
  | .soldOut => ¬ 0 < s.ticketsNum
  | .join t real => s.exited t = true ∧ s.sell t = some real
  | _ => True

variable [DecidableEq τ]

/-- What becomes of the tickets and of the cells. -/
def Shared.effect (s : Shared τ) (t : τ) : Act τ → Shared τ
  | .newSell => { s with sell := Function.update s.sell t (some 0) }
  | .decrement => { s with ticketsNum := s.ticketsNum - 1 }
  | .increment => { s with sell := Function.update s.sell t ((s.sell t).map (· + 1)) }
  | .exit => { s with exited := Function.update s.exited t true }
  | _ => s

end Shared

/-- The threads, the mutex and what they share.  `pthread_mutex_trylock` may
fail at any time. -/
def monitor (τ : Type u) [DecidableEq τ] : Monitor τ (Shared τ) (Pc τ) (Act τ) where
  next := Pc.Next
  allows s _ act := s.Allows act
  effect := Shared.effect
  acquires act := match act with
    | .locked => true
    | _ => false
  releases act := match act with
    | .unlock => true
    | _ => false

abbrev State (τ : Type u) := Monitor.State τ (Shared τ) (Pc τ)

/-- `main` has created the threads `tids`. -/
structure Starts {τ : Type u} (main : τ) (tids : List τ) (initial : Int) (s : State τ) : Prop where
  holder : s.holder = none
  shared : s.shared = ⟨initial, fun _ => none, fun _ => false⟩
  nodup : tids.Nodup
  main_notMem : main ∉ tids
  sellers : ∀ t, t ≠ main → t ∈ tids ∧ s.threads t = .newSell
  joins : s.threads main = .join tids 0

/-- The program. -/
def program {τ : Type u} [DecidableEq τ] (main : τ) (tids : List τ) (initial : Int) :
    TransitionSystem (State τ) (τ × Act τ) :=
  (monitor τ).system (Starts main tids initial)

/-- The number in the cell of a thread. -/
def Shared.sold {τ : Type u} (s : Shared τ) (t : τ) : Int :=
  (s.sell t).getD 0

namespace Pc

/-- Between a successful `trylock` and `unlock`. -/
def Critical {τ : Type u} : Pc τ → Prop
  | .check | .decrement | .increment | .unlock | .unlockBreak => True
  | _ => False

/-- What a thread knows of the tickets. -/
def Knows {τ : Type u} : Pc τ → Shared τ → Prop
  | .decrement, s => 0 < s.ticketsNum
  | .unlockBreak, s => s.ticketsNum ≤ 0
  | _, _ => True

/-- In `sell_tickets`. -/
def Seller {τ : Type u} : Pc τ → Prop
  | .join _ _ => False
  | _ => True

/-- After the loop of `sell_tickets`. -/
def Finished {τ : Type u} : Pc τ → Prop
  | .exit | .ended => True
  | _ => False

/-- A ticket taken and not yet counted. -/
def taken {τ : Type u} : Pc τ → Int
  | .increment => 1
  | _ => 0

theorem Next.seller {τ : Type u} {pc pc' : Pc τ} {act : Act τ} (h : Next pc act pc') :
    pc'.Seller ↔ pc.Seller := by
  cases h <;> exact Iff.rfl

end Pc

section Threads

variable {τ : Type u} [DecidableEq τ]

theorem bracketed : (monitor τ).Bracketed Pc.Critical where
  acquire hnext hacquires := by
    cases hnext <;> trivial
  release hnext hreleases := by
    cases hnext <;> first
      | exact ⟨trivial, id⟩
      | cases hreleases
  keep hnext hacquires hreleases := by
    cases hnext <;> first
      | exact Iff.rfl
      | exact (Bool.false_ne_true hacquires.symm).elim
      | exact (Bool.false_ne_true hreleases.symm).elim

theorem teaches : (monitor τ).Teaches Pc.Critical Pc.Knows where
  outside := by
    intro pc data houtside
    cases pc <;> first | trivial | exact (houtside trivial).elim
  own := by
    intro pc act pc' data t hnext hallows hknows
    cases hnext with
    | left => exact hallows
    | soldOut => exact Int.not_lt.mp hallows
    | _ => trivial
  other := by
    intro pc act pc' data t pc'' hnext houtside hknows
    have htickets : (data.effect t act).ticketsNum = data.ticketsNum := by
      cases hnext <;> first | rfl | exact (houtside trivial).elim
    change pc''.Knows (data.effect t act)
    cases pc'' <;> first | trivial | simpa only [Pc.Knows, htickets] using hknows

/-- The tickets that a thread has taken, counted or not. -/
def share (s : State τ) (t : τ) : Int :=
  s.shared.sold t + (s.threads t).taken

/-- Where the tickets are, and what the threads that have left their loop and
the loop of `main` rely on. -/
structure Sound (main : τ) (tids : List τ) (initial : Int) (s : State τ) : Prop where
  nodup : tids.Nodup
  everyone : ∀ t, t ≠ main → t ∈ tids
  sellers : ∀ t ∈ tids, (s.threads t).Seller
  cells : ∀ t ∈ tids, s.shared.sell t = none ↔ s.threads t = .newSell
  conserved : s.shared.ticketsNum + (tids.map (share s)).sum = initial
  nonneg : 0 ≤ s.shared.ticketsNum
  counted : ∀ t, 0 ≤ s.shared.sold t
  finished : ∀ t, (s.threads t).Finished → s.shared.ticketsNum ≤ 0
  exited : ∀ t, s.shared.exited t = true ↔ s.threads t = .ended
  joins : ∃ joined rest, tids = joined ++ rest ∧ (∀ t ∈ joined, s.threads t = .ended) ∧
    s.threads main = .join rest (joined.map s.shared.sold).sum

section Start

variable {main : τ} {tids : List τ} {initial : Int} {s : State τ}

omit [DecidableEq τ] in
theorem Starts.cases (h : Starts main tids initial s) (t : τ) :
    s.threads t = .newSell ∨ s.threads t = .join tids 0 := by
  by_cases ht : t = main
  · exact Or.inr (ht ▸ h.joins)
  · exact Or.inl (h.sellers t ht).2

omit [DecidableEq τ] in
theorem Starts.exclusive (h : Starts main tids initial s) :
    Exclusive Pc.Critical s.holder s.threads := by
  rw [h.holder]
  apply Exclusive.free
  intro t
  rcases h.cases t with ht | ht <;> simp [ht, Pc.Critical]

omit [DecidableEq τ] in
theorem Starts.knows (h : Starts main tids initial s) (t : τ) :
    (s.threads t).Knows s.shared := by
  rcases h.cases t with ht | ht <;> rw [ht] <;> trivial

omit [DecidableEq τ] in
theorem Starts.sound (h : Starts main tids initial s) (hinitial : 0 ≤ initial) :
    Sound main tids initial s := by
  have hnew : ∀ t ∈ tids, s.threads t = .newSell :=
    fun t ht => (h.sellers t fun heq => h.main_notMem (heq ▸ ht)).2
  have hshare : ∀ t ∈ tids, share s t = 0 := fun t ht => by
    simp [share, Shared.sold, Pc.taken, h.shared, hnew t ht]
  refine ⟨h.nodup, fun t ht => (h.sellers t ht).1, ?_, ?_, ?_, ?_, ?_, ?_, ?_, ?_⟩
  · intro t ht
    rw [hnew t ht]
    trivial
  · intro t ht
    rw [h.shared]
    exact iff_of_true rfl (hnew t ht)
  · rw [List.map_congr_left hshare, h.shared]
    simp
  · rw [h.shared]
    exact hinitial
  · intro t
    rw [h.shared]
    exact Int.le_refl 0
  · intro t ht
    rcases h.cases t with hpc | hpc <;> rw [hpc] at ht <;> exact ht.elim
  · intro t
    rw [h.shared]
    rcases h.cases t with hpc | hpc <;> simp [hpc]
  · exact ⟨[], tids, rfl, by simp, h.joins⟩

end Start

section Step

variable {s : Shared τ} {pc pc' : Pc τ} {act : Act τ} {t : τ}

/-- The cell of another thread. -/
theorem Shared.sell_of_ne {u : τ} (hu : u ≠ t) : (s.effect t act).sell u = s.sell u := by
  cases act <;> first | rfl | exact Function.update_of_ne hu ..

theorem Shared.exited_of_ne {u : τ} (hu : u ≠ t) :
    (s.effect t act).exited u = s.exited u := by
  cases act <;> first | rfl | exact Function.update_of_ne hu ..

theorem Shared.sold_of_ne {u : τ} (hu : u ≠ t) : (s.effect t act).sold u = s.sold u := by
  rw [Shared.sold, Shared.sell_of_ne hu, Shared.sold]

/-- Tickets are only taken. -/
theorem Shared.ticketsNum_le : (s.effect t act).ticketsNum ≤ s.ticketsNum := by
  cases act with
  | decrement => exact Int.sub_le_self _ (by decide)
  | _ => exact Int.le_refl _

/-- Nothing is uncounted. -/
theorem Shared.sold_nonneg (h : ∀ u, 0 ≤ s.sold u) (u : τ) : 0 ≤ (s.effect t act).sold u := by
  by_cases hu : u = t
  · subst hu
    have hu := h u
    cases act with
    | newSell => simp [Shared.effect, Shared.sold]
    | increment =>
        rw [Shared.sold] at hu
        simp only [Shared.effect, Shared.sold, Function.update_self]
        cases hsell : s.sell u with
        | none => exact Int.le_refl 0
        | some sold =>
            rw [hsell] at hu
            exact Int.add_nonneg hu (by decide)
    | _ => exact hu
  · rw [Shared.sold_of_ne hu]
    exact h u

/-- A step of a seller moves a ticket at most between the shared number and
its own share. -/
theorem Pc.Next.balance (hnext : Pc.Next pc act pc') (hcell : s.sell t = none ↔ pc = .newSell) :
    (s.effect t act).ticketsNum + ((s.effect t act).sold t + pc'.taken) =
      s.ticketsNum + (s.sold t + pc.taken) := by
  cases hnext with
  | newSell => simp [Shared.effect, Shared.sold, Pc.taken, hcell.mpr rfl]
  | decrement =>
      simp only [Shared.effect, Shared.sold, Pc.taken]
      omega
  | increment =>
      cases hsell : s.sell t with
      | none => cases hcell.mp hsell
      | some sold =>
          simp only [Shared.effect, Shared.sold, Pc.taken, Function.update_self, hsell]
          simp
  | _ => rfl

theorem Pc.Next.cell (hnext : Pc.Next pc act pc') (hcell : s.sell t = none ↔ pc = .newSell) :
    (s.effect t act).sell t = none ↔ pc' = .newSell := by
  cases hnext <;> simp_all [Shared.effect]

theorem Pc.Next.exited (hnext : Pc.Next pc act pc')
    (hexited : s.exited t = true ↔ pc = .ended) :
    (s.effect t act).exited t = true ↔ pc' = .ended := by
  cases hnext <;> simp_all [Shared.effect]

theorem Pc.Next.nonneg (hnext : Pc.Next pc act pc') (hknows : pc.Knows s)
    (h : 0 ≤ s.ticketsNum) : 0 ≤ (s.effect t act).ticketsNum := by
  cases hnext with
  | decrement => exact Int.sub_nonneg_of_le hknows
  | _ => exact h

theorem Pc.Next.finished (hnext : Pc.Next pc act pc') (hknows : pc.Knows s)
    (h : pc.Finished → s.ticketsNum ≤ 0) (hfinished : pc'.Finished) :
    (s.effect t act).ticketsNum ≤ 0 := by
  cases hnext with
  | unlockBreak => exact hknows
  | exit => exact h trivial
  | _ => exact hfinished.elim

end Step

/-- A step, from what the text and the shared objects say. -/
theorem step_of_next {s : State τ} {t : τ} {act : Act τ} {pc : Pc τ}
    (hnext : Pc.Next (s.threads t) act pc) (hallows : s.shared.Allows act)
    (hfree : act = .locked → s.holder = none) :
    (monitor τ).Step s (t, act)
      { holder := (monitor τ).holderAfter s.holder t act
        shared := s.shared.effect t act
        threads := Function.update s.threads t pc } := by
  refine .mk hnext hallows fun hacquires => hfree ?_
  cases act <;> first | rfl | cases hacquires

/-- A sum in which one term changes. -/
theorem sum_map_change {tids : List τ} (hnodup : tids.Nodup) {t : τ} (ht : t ∈ tids)
    {f g : τ → Int} (hother : ∀ u, u ≠ t → f u = g u) :
    (tids.map f).sum + g t = (tids.map g).sum + f t := by
  have herase : (tids.erase t).map f = (tids.erase t).map g :=
    List.map_congr_left fun u hu => hother u (hnodup.mem_erase_iff.mp hu).1
  rw [← List.sum_map_erase f ht, ← List.sum_map_erase g ht, herase]
  omega

section Step

variable {main : τ} {tids : List τ} {initial : Int} {s after : State τ} {label : τ × Act τ}

omit [DecidableEq τ] in
theorem Sound.main_notMem (h : Sound main tids initial s) : main ∉ tids := by
  intro hmem
  obtain ⟨joined, rest, -, -, hmain⟩ := h.joins
  have hseller := h.sellers main hmem
  rw [hmain] at hseller
  exact hseller

omit [DecidableEq τ] in
/-- What `main` does next. -/
theorem Sound.main_next (h : Sound main tids initial s) {act : Act τ} {pc : Pc τ}
    (hnext : Pc.Next (s.threads main) act pc) :
    ∃ joined t rest real, tids = joined ++ t :: rest ∧ (∀ u ∈ joined, s.threads u = .ended) ∧
      act = .join t real ∧ pc = .join rest ((joined.map s.shared.sold).sum + real) := by
  obtain ⟨joined, rest, htids, hended, hmain⟩ := h.joins
  rw [hmain] at hnext
  cases hnext with
  | join t rest sum real => exact ⟨joined, t, rest, real, htids, hended, rfl, rfl⟩

/-- A step of a seller keeps the tickets together, one of `main` does not touch
them. -/
theorem Sound.conserve (h : Sound main tids initial s) {t : τ} {act : Act τ} {pc : Pc τ}
    (hnext : Pc.Next (s.threads t) act pc) :
    (s.shared.effect t act).ticketsNum + (tids.map fun u =>
      (s.shared.effect t act).sold u + (Function.update s.threads t pc u).taken).sum = initial := by
  by_cases ht : t = main
  · subst ht
    obtain ⟨joined, u, rest, real, -, -, rfl, -⟩ := h.main_next hnext
    rw [← h.conserved]
    refine congrArg (s.shared.ticketsNum + List.sum ·) (List.map_congr_left fun v hv => ?_)
    have hne : v ≠ t := fun heq => h.main_notMem (heq ▸ hv)
    rw [Function.update_of_ne hne]
    rfl
  · have hmem := h.everyone t ht
    have hbalance := hnext.balance (h.cells t hmem)
    have hsum := sum_map_change h.nodup hmem (f := share s)
      (g := fun u => (s.shared.effect t act).sold u + (Function.update s.threads t pc u).taken)
      (fun u hu => by rw [Shared.sold_of_ne hu, Function.update_of_ne hu, share])
    have hconserved := h.conserved
    simp only [Function.update_self, share] at hsum hconserved
    omega

/-- The threads that `main` has joined do nothing more. -/
theorem Sound.join (h : Sound main tids initial s) {t : τ} {act : Act τ} {pc : Pc τ}
    (hnext : Pc.Next (s.threads t) act pc) (hallows : s.shared.Allows act) :
    ∃ joined rest, tids = joined ++ rest ∧
      (∀ u ∈ joined, Function.update s.threads t pc u = .ended) ∧
      Function.update s.threads t pc main =
        .join rest (joined.map (s.shared.effect t act).sold).sum := by
  by_cases ht : t = main
  · subst ht
    obtain ⟨joined, u, rest, real, htids, hended, rfl, rfl⟩ := h.main_next hnext
    have hne : ∀ v ∈ tids, v ≠ t := fun v hv heq => h.main_notMem (heq ▸ hv)
    refine ⟨joined ++ [u], rest, by simp [htids], ?_, ?_⟩
    · intro v hv
      rw [Function.update_of_ne (hne v (by rw [htids]; simp at hv ⊢; tauto))]
      rcases List.mem_append.mp hv with hold | hnew
      · exact hended v hold
      · rw [List.mem_singleton.mp hnew]
        exact (h.exited u).mp hallows.1
    · rw [Function.update_self, List.map_append, List.sum_append]
      simp [Shared.effect, Shared.sold, hallows.2]
  · obtain ⟨joined, rest, htids, hended, hmain⟩ := h.joins
    have hne : ∀ u ∈ joined, u ≠ t := by
      rintro u hu rfl
      rw [hended u hu] at hnext
      cases hnext
    refine ⟨joined, rest, htids, fun u hu => ?_, ?_⟩
    · rw [Function.update_of_ne (hne u hu)]
      exact hended u hu
    · rw [Function.update_of_ne (Ne.symm ht), hmain,
        List.map_congr_left fun u hu => Shared.sold_of_ne (hne u hu)]

theorem Sound.step (h : Sound main tids initial s) (hknows : ∀ t, (s.threads t).Knows s.shared)
    (hstep : (monitor τ).Step s label after) : Sound main tids initial after := by
  have hseller : ∀ t, (after.threads t).Seller ↔ (s.threads t).Seller :=
    hstep.kind Pc.Next.seller
  obtain @⟨t, act, pc, hnext, hallows, -⟩ := hstep
  change Pc.Next (s.threads t) act pc at hnext
  refine ⟨h.nodup, h.everyone, fun u hu => (hseller u).mpr (h.sellers u hu), ?_,
    h.conserve hnext, hnext.nonneg (hknows t) h.nonneg, Shared.sold_nonneg h.counted, ?_, ?_,
    h.join hnext hallows⟩
  · intro u hu
    dsimp only
    by_cases heq : u = t
    · subst heq
      rw [Function.update_self]
      exact hnext.cell (h.cells u hu)
    · rw [Function.update_of_ne heq]
      exact (Shared.sell_of_ne heq).symm ▸ h.cells u hu
  · intro u hu
    dsimp only at hu
    by_cases heq : u = t
    · subst heq
      rw [Function.update_self] at hu
      exact hnext.finished (hknows u) (h.finished u) hu
    · rw [Function.update_of_ne heq] at hu
      exact Int.le_trans Shared.ticketsNum_le (h.finished u hu)
  · intro u
    dsimp only
    by_cases heq : u = t
    · subst heq
      rw [Function.update_self]
      exact hnext.exited (h.exited u)
    · rw [Function.update_of_ne heq]
      exact (Shared.exited_of_ne heq).symm ▸ h.exited u

end Step

section Runs

variable {main : τ} {tids : List τ} {initial : Int} {s : State τ}

theorem program_exclusive (hreach : (program main tids initial).Reachable s) :
    Exclusive Pc.Critical s.holder s.threads :=
  bracketed.reachable (fun _ hstart => Starts.exclusive hstart) hreach

theorem program_knows (hreach : (program main tids initial).Reachable s) (t : τ) :
    (s.threads t).Knows s.shared :=
  teaches.reachable bracketed (fun _ hstart => ⟨Starts.exclusive hstart, Starts.knows hstart⟩)
    hreach t

theorem program_sound (hinitial : 0 ≤ initial)
    (hreach : (program main tids initial).Reachable s) : Sound main tids initial s := by
  obtain ⟨history, hrun⟩ := hreach
  induction hrun with
  | start hstart => exact Starts.sound hstart hinitial
  | snoc hbefore hstep ih => exact ih.step (program_knows ⟨_, hbefore⟩) hstep

omit [DecidableEq τ] in
/-- No ticket is on its way while nobody holds the mutex. -/
theorem Sound.conserved_of_free (h : Sound main tids initial s)
    (hexclusive : Exclusive Pc.Critical s.holder s.threads) (hfree : s.holder = none) :
    s.shared.ticketsNum + (tids.map s.shared.sold).sum = initial := by
  have hshare : ∀ t ∈ tids, share s t = s.shared.sold t := by
    intro t _
    have houtside : ¬ (s.threads t).Critical := by
      intro hcritical
      have hholds := hexclusive.holds hcritical
      rw [hfree] at hholds
      cases hholds
    rw [share]
    cases hpc : s.threads t with
    | increment => exact (houtside (by rw [hpc]; trivial)).elim
    | _ => exact Int.add_zero _
  rw [← List.map_congr_left hshare]
  exact h.conserved

omit [DecidableEq τ] in
omit [DecidableEq τ] in
/-- The threads that have ended have sold everything. -/
theorem Sound.sold_out (h : Sound main tids initial s) (hsome : tids ≠ [])
    (hended : ∀ t ∈ tids, s.threads t = .ended) : (tids.map s.shared.sold).sum = initial := by
  have hshare : ∀ t ∈ tids, share s t = s.shared.sold t := by
    intro t ht
    rw [share, hended t ht]
    exact Int.add_zero _
  obtain ⟨t, ht⟩ := List.exists_mem_of_ne_nil tids hsome
  have hnone : s.shared.ticketsNum ≤ 0 := h.finished t (by rw [hended t ht]; trivial)
  have hnonneg := h.nonneg
  have hconserved := h.conserved
  rw [List.map_congr_left hshare] at hconserved
  omega

omit [DecidableEq τ] in
/-- What `main` has added up at the end of its loop. -/
theorem Sound.sum_eq (h : Sound main tids initial s) {sum : Int}
    (hmain : s.threads main = .join [] sum) : sum = if tids = [] then 0 else initial := by
  obtain ⟨joined, rest, htids, hended, hjoin⟩ := h.joins
  rw [hmain] at hjoin
  obtain ⟨rfl, rfl⟩ := Pc.join.inj hjoin
  rw [List.append_nil] at htids
  subst htids
  split_ifs with hnone
  · rw [hnone]
    rfl
  · exact h.sold_out hnone hended

/-- Once the other threads have ended, `main` joins those it has still to
join. -/
theorem main_ends (hinitial : 0 ≤ initial) (hreach : (program main tids initial).Reachable s)
    (hended : ∀ t ∈ tids, s.threads t = .ended) :
    ∃ after, (program main tids initial).Leads s after ∧
      (program main tids initial).Reachable after ∧ ∃ sum, after.threads main = .join [] sum := by
  suffices h : ∀ rest sum before, (program main tids initial).Leads s before →
      (program main tids initial).Reachable before → (∀ t ∈ tids, before.threads t = .ended) →
      before.threads main = .join rest sum → ∃ after, (program main tids initial).Leads s after ∧
        (program main tids initial).Reachable after ∧
        ∃ sum, after.threads main = .join [] sum by
    obtain ⟨joined, rest, -, -, hmain⟩ := (program_sound hinitial hreach).joins
    exact h rest _ s .refl hreach hended hmain
  intro rest
  induction rest with
  | nil => exact fun sum before hleads hbefore _ hmain => ⟨before, hleads, hbefore, sum, hmain⟩
  | cons t rest ih =>
      intro sum before hleads hbefore hended hmain
      have hsound := program_sound hinitial hbefore
      have ht : t ∈ tids := by
        obtain ⟨joined, rest', htids, -, hjoin⟩ := hsound.joins
        rw [hmain] at hjoin
        obtain ⟨rfl, -⟩ := Pc.join.inj hjoin
        simp [htids]
      obtain ⟨real, hreal⟩ : ∃ real, before.shared.sell t = some real := by
        rw [← Option.ne_none_iff_exists']
        intro hnone
        have hnew := (hsound.cells t ht).mp hnone
        rw [hended t ht] at hnew
        cases hnew
      have hstep : (program main tids initial).step before (main, .join t real) _ :=
        step_of_next (by rw [hmain]; exact .join t rest sum real)
          ⟨(hsound.exited t).mpr (hended t ht), hreal⟩ nofun
      refine ih (sum + real) _ (hleads.snoc hstep) (hbefore.step hstep) ?_
        (Function.update_self ..)
      intro u hu
      have hne : u ≠ main := fun heq => hsound.main_notMem (heq ▸ hu)
      exact (Function.update_of_ne hne ..).trans (hended u hu)

/-- With the mutex free the tickets are unsold or counted by their seller; what
`main` adds up is all of them, if there is a seller; and when the sellers have
ended, it gets that far. -/
theorem tickets_conserved (hinitial : 0 ≤ initial)
    (hreach : (program main tids initial).Reachable s) :
    (s.holder = none →
      s.shared.ticketsNum + (tids.map s.shared.sold).sum = initial ∧ 0 ≤ s.shared.ticketsNum) ∧
    (∀ sum, s.threads main = .join [] sum → sum = if tids = [] then 0 else initial) ∧
    ((∀ t ∈ tids, s.threads t = .ended) →
      ∃ after, (program main tids initial).Leads s after ∧
        after.threads main = .join [] (if tids = [] then 0 else initial)) := by
  have hsound := program_sound hinitial hreach
  refine ⟨fun hfree => ?_, fun sum => hsound.sum_eq, fun hended => ?_⟩
  · exact ⟨hsound.conserved_of_free (program_exclusive hreach) hfree, hsound.nonneg⟩
  · obtain ⟨after, hleads, hafter, sum, hmain⟩ := main_ends hinitial hreach hended
    refine ⟨after, hleads, ?_⟩
    rw [← (program_sound hinitial hafter).sum_eq hmain]
    exact hmain

/-- Without a seller `main` has nothing to add up. -/
theorem sum_without_sellers :
    ¬ ∀ (tids : List Unit) (initial sum : Int) (s : State Unit), 0 ≤ initial →
      (program () tids initial).Reachable s → (∀ t ∈ tids, s.threads t = .ended) →
      s.threads () = .join [] sum → sum = initial := by
  intro h
  have hstart : Starts () [] 1
      { holder := none, shared := ⟨1, fun _ => none, fun _ => false⟩,
        threads := fun _ => .join [] 0 } :=
    ⟨rfl, rfl, List.nodup_nil, List.not_mem_nil, fun t ht => (ht rfl).elim, rfl⟩
  have hzero : (0 : Int) = 1 :=
    h [] 1 0 _ (by decide) (.start hstart) (fun t ht => by cases ht) rfl
  exact absurd hzero (by decide)

/-- `main`, which is to join one thread. -/
def oneSeller : State Bool where
  holder := none
  shared := ⟨1, fun _ => none, fun _ => false⟩
  threads t := if t then .newSell else .join [true] 0

/-- The only ticket is sold, and the thread ends. -/
theorem tickets_conserved_one :
    ∃ s, (program false [true] 1).Reachable s ∧ s.shared.ticketsNum = 0 ∧
      ∃ after, (program false [true] 1).Leads s after ∧ after.threads false = .join [] 1 := by
  have hstart : (program false [true] 1).Reachable oneSeller := .start
    ⟨rfl, rfl, by decide, by decide,
      Bool.forall_bool.mpr ⟨fun h => (h rfl).elim, fun _ => ⟨by decide, rfl⟩⟩, rfl⟩
  have hnew := hstart.step (step_of_next (t := true) .newSell trivial nofun)
  have hlocked := hnew.step (step_of_next (t := true) .locked trivial fun _ => rfl)
  have hleft := hlocked.step (step_of_next (t := true) .left (by decide : (0 : Int) < 1) nofun)
  have hdecrement := hleft.step (step_of_next (t := true) .decrement trivial nofun)
  have hincrement := hdecrement.step (step_of_next (t := true) .increment trivial nofun)
  have hunlock := hincrement.step (step_of_next (t := true) .unlock trivial nofun)
  have hagain := hunlock.step (step_of_next (t := true) .locked trivial fun _ => rfl)
  have hsold := hagain.step
    (step_of_next (t := true) .soldOut (by decide : ¬ (0 : Int) < 1 - 1) nofun)
  have hbreak := hsold.step (step_of_next (t := true) .unlockBreak trivial nofun)
  have hexit := hbreak.step (step_of_next (t := true) .exit trivial nofun)
  obtain ⟨-, -, hends⟩ := tickets_conserved (by decide) hexit
  exact ⟨_, hexit, rfl, hends (by simp)⟩

end Runs

end Threads

end LinuxLearning.Chapter3.SellTickets
