/-
Producers and consumers around a mutex and a condition variable
(pthread_cond.cpp).  A consumer goes to sleep on an empty buffer only, and
every value pushed is followed by a signal inside the same critical section:
so a value in the buffer means a producer about to signal or a consumer awake.
-/
import LinuxLearning.Lib.Monitor
import Mathlib.Data.Finset.Basic

namespace LinuxLearning.Chapter3.PthreadCond

universe u

/-- `BUF_SIZE`. -/
def bufSize : Nat := 100

/-- The next statement of a thread, in `producer` or in `consumer`;
`relock` is inside `pthread_cond_wait`, with the mutex released. -/
inductive Pc where
  | lockP | sizeP | pushBack | signal | unlockP
  | lockC | sizeC | back | popBack | wait | relock | unlockC
deriving Repr, DecidableEq

/-- What a thread does in one step.  A call of `pthread_cond_wait` is three
actions: the mutex is released, the thread wakes up, possibly without a signal,
and the mutex is acquired again.  `woken` are the threads a signal wakes. -/
inductive Act (τ : Type u) where
  | lock | room | noRoom | push (num : Int) | signal (woken : Finset τ) | unlock
  | nonempty | empty | back | pop | wait | wakeUp | relock

/-- The loops of `producer` and of `consumer`. -/
inductive Pc.Next {τ : Type u} : Pc → Act τ → Pc → Prop
  | lockP : Next .lockP .lock .sizeP
  | room : Next .sizeP .room .pushBack
  | noRoom : Next .sizeP .noRoom .unlockP
  | push (num : Int) : Next .pushBack (.push num) .signal
  | signal (woken : Finset τ) : Next .signal (.signal woken) .unlockP
  | unlockP : Next .unlockP .unlock .lockP
  | lockC : Next .lockC .lock .sizeC
  | nonempty : Next .sizeC .nonempty .back
  | empty : Next .sizeC .empty .wait
  | back : Next .back .back .popBack
  | pop : Next .popBack .pop .unlockC
  | wait : Next .wait .wait .relock
  | wakeUp : Next .relock .wakeUp .relock
  | relock : Next .relock .relock .unlockC
  | unlockC : Next .unlockC .unlock .lockC

/-- `buf`, and the threads that wait on `cond` and have not been woken. -/
structure Shared (τ : Type u) where
  buf : List Int
  asleep : Finset τ

section Shared

variable {τ : Type u} [DecidableEq τ]

omit [DecidableEq τ] in
/-- The two tests of `buf.size()`, the values of `rand() % 1000`, and the
condition variable: a signal wakes at least one waiting thread if there is
one, and a thread that sleeps does not come back. -/
def Shared.Allows (s : Shared τ) (t : τ) : Act τ → Prop
  | .room => s.buf.length < bufSize
  | .noRoom => ¬ s.buf.length < bufSize
  | .push num => 0 ≤ num ∧ num < 1000
  | .signal woken => woken ⊆ s.asleep ∧ (s.asleep.Nonempty → woken.Nonempty)
  | .nonempty => 0 < s.buf.length
  | .empty => ¬ 0 < s.buf.length
  | .relock => t ∉ s.asleep
  | _ => True

instance (s : Shared τ) (t : τ) : DecidablePred (s.Allows t)
  | .room => inferInstanceAs (Decidable (s.buf.length < bufSize))
  | .noRoom => inferInstanceAs (Decidable (¬ s.buf.length < bufSize))
  | .push num => inferInstanceAs (Decidable (0 ≤ num ∧ num < 1000))
  | .signal woken =>
      inferInstanceAs (Decidable (woken ⊆ s.asleep ∧ (s.asleep.Nonempty → woken.Nonempty)))
  | .nonempty => inferInstanceAs (Decidable (0 < s.buf.length))
  | .empty => inferInstanceAs (Decidable (¬ 0 < s.buf.length))
  | .relock => inferInstanceAs (Decidable (t ∉ s.asleep))
  | .lock | .unlock | .back | .pop | .wait | .wakeUp => inferInstanceAs (Decidable True)

/-- What becomes of the buffer and of the threads that sleep. -/
def Shared.effect (s : Shared τ) (t : τ) : Act τ → Shared τ
  | .push num => { s with buf := s.buf ++ [num] }
  | .signal woken => { s with asleep := s.asleep \ woken }
  | .pop => { s with buf := s.buf.dropLast }
  | .wait => { s with asleep := insert t s.asleep }
  | .wakeUp => { s with asleep := s.asleep.erase t }
  | _ => s

end Shared

/-- `pthread_mutex_lock`, and the end of `pthread_cond_wait`. -/
def Act.acquires {τ : Type u} : Act τ → Bool
  | .lock | .relock => true
  | _ => false

/-- `pthread_mutex_unlock`, and the beginning of `pthread_cond_wait`. -/
def Act.releases {τ : Type u} : Act τ → Bool
  | .unlock | .wait => true
  | _ => false

/-- The threads, the mutex and what they share. -/
def monitor (τ : Type u) [DecidableEq τ] : Monitor τ (Shared τ) Pc (Act τ) where
  next := Pc.Next
  allows := Shared.Allows
  effect := Shared.effect
  acquires := Act.acquires
  releases := Act.releases

abbrev State (τ : Type u) := Monitor.State τ (Shared τ) Pc

/-- In `consumer`. -/
def Pc.Consumer : Pc → Prop
  | .lockC | .sizeC | .back | .popBack | .wait | .relock | .unlockC => True
  | _ => False

/-- The start of `main`: an empty buffer and at least one thread of either
kind. -/
structure Starts {τ : Type u} (s : State τ) : Prop where
  holder : s.holder = none
  shared : s.shared = ⟨[], ∅⟩
  threads : ∀ t, s.threads t = .lockP ∨ s.threads t = .lockC
  producer : ∃ t, s.threads t = .lockP
  consumer : ∃ t, s.threads t = .lockC

/-- The program. -/
def program (τ : Type u) [DecidableEq τ] : TransitionSystem (State τ) (τ × Act τ) :=
  (monitor τ).system Starts

namespace Pc

/-- Between `lock` and `unlock`, except while it waits. -/
def Critical : Pc → Prop
  | .lockP | .lockC | .relock => False
  | _ => True

/-- What a thread knows of the buffer. -/
def Knows {τ : Type u} : Pc → Shared τ → Prop
  | .pushBack, s => s.buf.length < bufSize
  | .back, s | .popBack, s => s.buf ≠ []
  | .wait, s => s.buf = []
  | _, _ => True

theorem Next.consumer {τ : Type u} {pc pc' : Pc} {act : Act τ} (h : Next pc act pc') :
    pc'.Consumer ↔ pc.Consumer := by
  cases h <;> exact Iff.rfl

end Pc

section Threads

variable {τ : Type u} [DecidableEq τ]

theorem bracketed : (monitor τ).Bracketed Pc.Critical where
  acquire hnext hacquires := by
    cases hnext <;> trivial
  release hnext hreleases := by
    cases hnext <;> first | exact ⟨trivial, id⟩ | cases hreleases
  keep hnext hacquires hreleases := by
    cases hnext <;> first
      | exact Iff.rfl
      | exact (Bool.false_ne_true hacquires.symm).elim
      | exact (Bool.false_ne_true hreleases.symm).elim

theorem teaches : (monitor τ).Teaches Pc.Critical Pc.Knows where
  outside := by
    intro pc data houtside
    cases pc <;> first | trivial | exact (houtside trivial).elim
  own := by
    intro pc act pc' data t hnext hallows hknows
    cases hnext with
    | room => exact hallows
    | nonempty => exact List.length_pos_iff.mp hallows
    | empty => exact List.length_eq_zero_iff.mp (Nat.eq_zero_of_not_pos hallows)
    | back => exact hknows
    | _ => trivial
  other := by
    intro pc act pc' data t pc'' hnext houtside hknows
    have hbuf : (data.effect t act).buf = data.buf := by
      cases hnext <;> first | rfl | exact (houtside trivial).elim
    change pc''.Knows (data.effect t act)
    cases pc'' <;> first | trivial | simpa only [Pc.Knows, hbuf] using hknows

/-- The invariant: a sleeper is where it waits, the buffer keeps its bound,
there is a consumer, and with a value in the buffer a thread is about to signal
or a consumer is awake. -/
structure Sound (s : State τ) : Prop where
  sleeper : ∀ t ∈ s.shared.asleep, s.threads t = .relock
  bounded : s.shared.buf.length ≤ bufSize
  consumer : ∃ t, (s.threads t).Consumer
  awake : s.shared.buf ≠ [] →
    (∃ t, s.threads t = .signal) ∨ ∃ t, (s.threads t).Consumer ∧ t ∉ s.shared.asleep

omit [DecidableEq τ] in
theorem Starts.exclusive {s : State τ} (h : Starts s) :
    Exclusive Pc.Critical s.holder s.threads := by
  rw [h.holder]
  apply Exclusive.free
  intro t
  rcases h.threads t with ht | ht <;> simp [ht, Pc.Critical]

omit [DecidableEq τ] in
theorem Starts.knows {s : State τ} (h : Starts s) (t : τ) : (s.threads t).Knows s.shared := by
  rcases h.threads t with ht | ht <;> rw [ht] <;> trivial

omit [DecidableEq τ] in
theorem Starts.sound {s : State τ} (h : Starts s) : Sound s := by
  refine ⟨?_, ?_, ?_, ?_⟩
  · simp [h.shared]
  · simp [h.shared]
  · obtain ⟨t, ht⟩ := h.consumer
    exact ⟨t, by rw [ht]; trivial⟩
  · simp [h.shared]

section Step

variable {s : Shared τ} {pc pc' : Pc} {act : Act τ} {t : τ}

/-- Nobody else goes to sleep. -/
theorem Shared.asleep_of_ne {u : τ} (hu : u ≠ t) (h : u ∈ (s.effect t act).asleep) :
    u ∈ s.asleep := by
  cases act with
  | signal woken => exact (Finset.mem_sdiff.mp h).1
  | wait => exact Finset.mem_of_mem_insert_of_ne h hu
  | wakeUp => exact Finset.mem_of_mem_erase h
  | _ => exact h

/-- Only a call of `pthread_cond_wait` makes a sleeper. -/
theorem Shared.asleep_of_effect (hact : act ≠ .wait) {u : τ}
    (h : u ∈ (s.effect t act).asleep) : u ∈ s.asleep := by
  cases act with
  | signal woken => exact (Finset.mem_sdiff.mp h).1
  | wait => exact (hact rfl).elim
  | wakeUp => exact Finset.mem_of_mem_erase h
  | _ => exact h

/-- Only a push brings a value. -/
theorem Shared.buf_ne_nil (hact : ∀ num, act ≠ .push num) (h : (s.effect t act).buf ≠ []) :
    s.buf ≠ [] := by
  intro hempty
  cases act with
  | push num => exact hact num rfl
  | pop => exact h (by rw [Shared.effect, hempty]; rfl)
  | _ => exact h hempty

theorem Pc.Next.sleeper (hnext : Pc.Next pc act pc') (hallows : s.Allows t act)
    (hpc : t ∈ s.asleep → pc = .relock) (h : t ∈ (s.effect t act).asleep) : pc' = .relock := by
  cases hnext with
  | wait | wakeUp => rfl
  | relock => exact (hallows h).elim
  | signal woken => cases hpc (Finset.mem_sdiff.mp h).1
  | _ => cases hpc h

theorem Pc.Next.bounded (hnext : Pc.Next pc act pc') (hknows : pc.Knows s)
    (h : s.buf.length ≤ bufSize) : (s.effect t act).buf.length ≤ bufSize := by
  cases hnext with
  | push num =>
      rw [Shared.effect, List.length_append]
      exact hknows
  | pop =>
      rw [Shared.effect, List.length_dropLast]
      exact (Nat.sub_le _ _).trans h
  | _ => exact h

end Step

variable {s after : State τ} {label : τ × Act τ}

/-- A step, from what the text and the shared objects say. -/
theorem step_of_next {t : τ} {act : Act τ} {pc : Pc} (hnext : Pc.Next (s.threads t) act pc)
    (hallows : s.shared.Allows t act) (hfree : act.acquires = true → s.holder = none) :
    (monitor τ).Step s (t, act)
      { holder := (monitor τ).holderAfter s.holder t act
        shared := s.shared.effect t act
        threads := Function.update s.threads t pc } :=
  .mk hnext hallows hfree

/-- Who signals wakes a consumer, or all are awake. -/
theorem Sound.signalled (h : Sound s) {woken : Finset τ}
    (hwoken : s.shared.asleep.Nonempty → woken.Nonempty) (hsub : woken ⊆ s.shared.asleep) :
    ∃ t, (s.threads t).Consumer ∧ t ∉ s.shared.asleep \ woken := by
  rcases s.shared.asleep.eq_empty_or_nonempty with hnone | hsome
  · obtain ⟨t, ht⟩ := h.consumer
    exact ⟨t, ht, by simp [hnone]⟩
  · obtain ⟨t, ht⟩ := hwoken hsome
    refine ⟨t, ?_, fun hstill => (Finset.mem_sdiff.mp hstill).2 ht⟩
    rw [h.sleeper t (hsub ht)]
    trivial

theorem Sound.step (h : Sound s) (hknows : ∀ t, (s.threads t).Knows s.shared)
    (hstep : (monitor τ).Step s label after) : Sound after := by
  have hconsumer : ∀ t, (after.threads t).Consumer ↔ (s.threads t).Consumer :=
    hstep.kind Pc.Next.consumer
  obtain @⟨t, act, pc, hnext, hallows, -⟩ := hstep
  change Pc.Next (s.threads t) act pc at hnext
  refine ⟨?_, hnext.bounded (hknows t) h.bounded, ?_, ?_⟩
  · intro u hu
    dsimp only
    by_cases heq : u = t
    · subst heq
      rw [Function.update_self]
      exact hnext.sleeper hallows (h.sleeper u) hu
    · rw [Function.update_of_ne heq]
      exact h.sleeper u (Shared.asleep_of_ne heq hu)
  · obtain ⟨u, hu⟩ := h.consumer
    exact ⟨u, (hconsumer u).mpr hu⟩
  · intro hbuf
    -- who was about to signal still is, unless it has done so
    have hkeep : (∀ num, act ≠ .push num) → act ≠ .wait → s.threads t ≠ .signal →
        (∃ u, Function.update s.threads t pc u = .signal) ∨
          ∃ u, (Function.update s.threads t pc u).Consumer ∧
            u ∉ (s.shared.effect t act).asleep := by
      intro hpush hwait hsignal
      rcases h.awake (Shared.buf_ne_nil hpush hbuf) with ⟨u, hu⟩ | ⟨u, hu, hawake⟩
      · have hne : u ≠ t := fun heq => hsignal (heq ▸ hu)
        exact Or.inl ⟨u, by rwa [Function.update_of_ne hne]⟩
      · exact Or.inr ⟨u, (hconsumer u).mpr hu,
          fun hasleep => hawake (Shared.asleep_of_effect hwait hasleep)⟩
    generalize hpc : s.threads t = before at hnext hkeep
    cases hnext with
    | push num => exact Or.inl ⟨t, Function.update_self ..⟩
    | signal woken =>
        right
        obtain ⟨u, hu, hawake⟩ := h.signalled hallows.2 hallows.1
        exact ⟨u, (hconsumer u).mpr hu, hawake⟩
    | wait =>
        have hempty := hknows t
        rw [hpc] at hempty
        exact (hbuf hempty).elim
    | _ => exact hkeep (by simp) (by simp) (by simp)

theorem program_exclusive (hreach : (program τ).Reachable s) :
    Exclusive Pc.Critical s.holder s.threads :=
  bracketed.reachable (fun _ hstart => Starts.exclusive hstart) hreach

theorem program_knows (hreach : (program τ).Reachable s) (t : τ) :
    (s.threads t).Knows s.shared :=
  teaches.reachable bracketed (fun _ hstart => ⟨Starts.exclusive hstart, Starts.knows hstart⟩)
    hreach t

theorem program_sound (hreach : (program τ).Reachable s) : Sound s := by
  obtain ⟨history, hrun⟩ := hreach
  induction hrun with
  | start hstart => exact Starts.sound hstart
  | snoc hbefore hstep ih => exact ih.step (program_knows ⟨_, hbefore⟩) hstep

omit [DecidableEq τ] in
/-- With a value in the buffer and the mutex free, some consumer is not
asleep. -/
theorem Sound.awake_of_free (h : Sound s) (hexclusive : Exclusive Pc.Critical s.holder s.threads)
    (hbuf : s.shared.buf ≠ []) (hfree : s.holder = none) :
    ∃ t, (s.threads t).Consumer ∧ t ∉ s.shared.asleep := by
  rcases h.awake hbuf with ⟨t, ht⟩ | hawake
  · have hholds : s.holder = some t := hexclusive.holds (by rw [ht]; trivial)
    rw [hfree] at hholds
    cases hholds
  · exact hawake

/-- In every run, spurious wake-ups included, the buffer keeps its bound,
nothing is read or popped from an empty one, and no value waits for consumers
that all sleep. -/
theorem condition_loses_no_wakeUp {history : List (State τ × (τ × Act τ))}
    (hrun : (program τ).Run history s) :
    s.shared.buf.length ≤ bufSize ∧
      (∀ entry ∈ history, entry.2.2 = .back ∨ entry.2.2 = .pop → entry.1.shared.buf ≠ []) ∧
      ¬ (s.shared.buf ≠ [] ∧ s.holder = none ∧
        ∀ t, (s.threads t).Consumer → s.threads t = .relock ∧ t ∈ s.shared.asleep) := by
  have hreach : (program τ).Reachable s := ⟨history, hrun⟩
  have hsound := program_sound hreach
  refine ⟨hsound.bounded, ?_, ?_⟩
  · rintro ⟨before, t, act⟩ hentry hact
    obtain ⟨earlier, later, rfl⟩ := List.append_of_mem hentry
    obtain ⟨hbefore, after, hstep⟩ := hrun.split
    have hknows := program_knows ⟨earlier, hbefore⟩ t
    obtain @⟨t, act, pc, hnext, -, -⟩ := hstep
    change Pc.Next (before.threads t) act pc at hnext
    generalize before.threads t = pc' at hnext hknows
    dsimp only at hact
    rcases hact with rfl | rfl <;> cases hnext <;> exact hknows
  · rintro ⟨hbuf, hfree, hall⟩
    obtain ⟨t, ht, hawake⟩ := hsound.awake_of_free (program_exclusive hreach) hbuf hfree
    exact hawake (hall t ht).2

/-- One producer and one consumer before their first steps. -/
def twoThreads : State Bool where
  holder := none
  shared := ⟨[], ∅⟩
  threads t := if t then .lockP else .lockC

/-- The consumer finds nothing and sleeps; the producer pushes a value and
wakes it. -/
theorem condition_loses_no_wakeUp_signal :
    ∃ history s, (program Bool).Run history s ∧ s.shared.buf = [7] ∧ s.holder = none ∧
      ¬ ∀ t, (s.threads t).Consumer → s.threads t = .relock ∧ t ∈ s.shared.asleep := by
  have hstart : (program Bool).Run [] twoThreads := .start
    ⟨rfl, rfl, Bool.forall_bool.mpr ⟨Or.inr rfl, Or.inl rfl⟩, ⟨true, rfl⟩, ⟨false, rfl⟩⟩
  have hlockC := hstart.snoc (step_of_next (t := false) .lockC trivial fun _ => rfl)
  have hempty := hlockC.snoc (step_of_next (t := false) .empty (by decide) nofun)
  have hwait := hempty.snoc (step_of_next (t := false) .wait trivial nofun)
  have hlockP := hwait.snoc (step_of_next (t := true) .lockP trivial fun _ => rfl)
  have hroom := hlockP.snoc (step_of_next (t := true) .room (by decide) nofun)
  have hpush := hroom.snoc (step_of_next (t := true) (.push 7) (by decide) nofun)
  have hsignal := hpush.snoc (step_of_next (t := true) (.signal {false}) (by decide) nofun)
  have hunlock := hsignal.snoc (step_of_next (t := true) .unlockP trivial nofun)
  obtain ⟨-, -, hawake⟩ := condition_loses_no_wakeUp hunlock
  exact ⟨_, _, hunlock, rfl, rfl, fun hall => hawake ⟨by decide, rfl, hall⟩⟩

end Threads

end LinuxLearning.Chapter3.PthreadCond
