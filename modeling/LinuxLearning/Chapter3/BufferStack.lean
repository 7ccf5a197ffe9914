/-
The buffers of semaphore.cpp and of pthread_cond.cpp are bounded stacks, as
that of producer_consumer.cpp is: room for a push comes from a permit in the
one program, from the test under the mutex in the other.
-/
import LinuxLearning.Chapter3.PthreadCond
import LinuxLearning.Chapter3.Semaphore
import LinuxLearning.Lib.BoundedStack

namespace LinuxLearning.Chapter3

universe u

namespace Semaphore

variable {τ : Type u}

/-- The operation of an action. -/
def op : Act → Option (Monitor.StackOp Int)
  | .push num => some (.push num)
  | .pop => some .pop
  | _ => none

/-- A producer that is to push has a permit for a free place. -/
theorem Sound.room {capacity : Nat} {s : State τ} (h : Sound capacity s) {t : τ}
    (hplace : (s.threads t).permit = some .place) : s.shared.buf.length < capacity := by
  obtain ⟨place, full, value, empty, hplaces, -, -, -, -, hall⟩ := h.balanced.counts
  have hpos := hplaces.pos hplace
  omega

variable [DecidableEq τ] {capacity : Nat} {s : State τ}

theorem usesStack : (monitor τ).UsesStack (Starts capacity) Pc.Critical capacity Shared.buf op where
  bracketed := bracketed τ
  exclusive hstart := hstart.sound.exclusive
  empty hstart := by rw [hstart.shared]
  effect _ _ act := by cases act <;> rfl
  inside hnext houtside := by
    cases hnext <;> first | rfl | exact (houtside trivial).elim
  room := by
    intro s t act pc value hreach hnext hop
    refine (program_sound hreach).room (t := t) ?_
    generalize s.threads t = before at hnext
    cases hnext <;> first | rfl | cases hop
  value := by
    intro s t act pc hreach hnext hop
    refine (program_sound hreach).nonempty (t := t) ?_
    generalize s.threads t = before at hnext
    cases hnext <;> first | rfl | cases hop

/-- In every run of the program with semaphores the buffer is a stack of at
most `capacity` values, and what a consumer has read there it pops. -/
theorem semaphore_stack {history : List (State τ × (τ × Act))}
    (hrun : (program τ capacity).Run history s) :
    Monitor.StackRun capacity Shared.buf op (fun act => act = .back) history s := by
  apply usesStack.stackRun _ hrun
  rintro pc act pc' hnext rfl
  cases hnext
  exact ⟨trivial, rfl⟩

/-- A producer pushes and posts; a consumer takes the permit and pops. -/
theorem semaphore_stack_pop :
    ∃ history s, (program Bool 100).Run history s ∧ s.shared = ⟨99, 0, []⟩ ∧
      (∃ before : State Bool, (before, false, Act.pop) ∈ history ∧ before.shared.buf = [7]) ∧
      Monitor.StackRun 100 Shared.buf op (fun act => act = .back) history s := by
  have hstart : (program Bool 100).Run [] twoThreads := .start
    ⟨rfl, rfl, Bool.forall_bool.mpr ⟨Or.inr rfl, Or.inl rfl⟩, ⟨true, rfl⟩, ⟨false, rfl⟩⟩
  have hwait := hstart.snoc (step_of_next (t := true) .waitP (by decide : 0 < 100) nofun)
  have hlock := hwait.snoc (step_of_next (t := true) .lockP trivial fun _ => rfl)
  have hpush := hlock.snoc
    (step_of_next (t := true) (.push 7) (by decide : (0 : Int) ≤ 7 ∧ _) nofun)
  have hunlock := hpush.snoc (step_of_next (t := true) .unlockP trivial nofun)
  have hpost := hunlock.snoc (step_of_next (t := true) .postC trivial nofun)
  have hwaitC := hpost.snoc (step_of_next (t := false) .waitC (by decide : 0 < 1) nofun)
  have hlockC := hwaitC.snoc (step_of_next (t := false) .lockC trivial fun _ => rfl)
  have hback := hlockC.snoc (step_of_next (t := false) .back trivial nofun)
  have hpop := hback.snoc (step_of_next (t := false) .pop trivial nofun)
  have hlast : ∀ {l : List (State Bool × Bool × Act)} {entry}, entry ∈ l ++ [entry] :=
    List.mem_append_right _ (List.mem_singleton_self _)
  exact ⟨_, _, hpop, rfl, ⟨_, hlast, rfl⟩, semaphore_stack hpop⟩

end Semaphore

namespace PthreadCond

variable {τ : Type u}

/-- The operation of an action. -/
def op : Act τ → Option (Monitor.StackOp Int)
  | .push num => some (.push num)
  | .pop => some .pop
  | _ => none

variable [DecidableEq τ] {s : State τ}

theorem usesStack : (monitor τ).UsesStack Starts Pc.Critical bufSize Shared.buf op where
  bracketed := bracketed
  exclusive := Starts.exclusive
  empty hstart := by rw [hstart.shared]
  effect _ _ act := by cases act <;> rfl
  inside hnext houtside := by
    cases hnext <;> first | rfl | exact (houtside trivial).elim
  room := by
    intro s t act pc value hreach hnext hop
    have hknows := program_knows hreach t
    generalize s.threads t = before at hnext hknows
    cases hnext <;> first | exact hknows | cases hop
  value := by
    intro s t act pc hreach hnext hop
    have hknows := program_knows hreach t
    generalize s.threads t = before at hnext hknows
    cases hnext <;> first | exact hknows | cases hop

/-- In every run of the program with a condition variable, spurious wake-ups
included, the buffer is a stack of at most `BUF_SIZE` values, and what a
consumer has read there it pops. -/
theorem condition_stack {history : List (State τ × (τ × Act τ))}
    (hrun : (program τ).Run history s) :
    Monitor.StackRun bufSize Shared.buf op (fun act => act = .back) history s := by
  apply usesStack.stackRun _ hrun
  rintro pc act pc' hnext rfl
  cases hnext
  exact ⟨trivial, rfl⟩

/-- A consumer goes to sleep; a producer pushes and wakes it; it comes back and
pops. -/
theorem condition_stack_pop :
    ∃ history s, (program Bool).Run history s ∧ s.shared.buf = [] ∧
      (∃ before : State Bool, (before, false, Act.pop) ∈ history ∧ before.shared.buf = [7]) ∧
      Monitor.StackRun bufSize Shared.buf op (fun act => act = .back) history s := by
  have hstart : (program Bool).Run [] twoThreads := .start
    ⟨rfl, rfl, Bool.forall_bool.mpr ⟨Or.inr rfl, Or.inl rfl⟩, ⟨true, rfl⟩, ⟨false, rfl⟩⟩
  have hlockC := hstart.snoc (step_of_next (t := false) .lockC trivial fun _ => rfl)
  have hempty := hlockC.snoc (step_of_next (t := false) .empty (by decide) nofun)
  have hwait := hempty.snoc (step_of_next (t := false) .wait trivial nofun)
  have hlockP := hwait.snoc (step_of_next (t := true) .lockP trivial fun _ => rfl)
  have hroom := hlockP.snoc (step_of_next (t := true) .room (by decide) nofun)
  have hpush := hroom.snoc (step_of_next (t := true) (.push 7) (by decide) nofun)
  have hsignal := hpush.snoc (step_of_next (t := true) (.signal {false}) (by decide) nofun)
  have hunlock := hsignal.snoc (step_of_next (t := true) .unlockP trivial nofun)
  have hrelock := hunlock.snoc (step_of_next (t := false) .relock (by decide) fun _ => rfl)
  have hleave := hrelock.snoc (step_of_next (t := false) .unlockC trivial nofun)
  have hagain := hleave.snoc (step_of_next (t := false) .lockC trivial fun _ => rfl)
  have hnonempty := hagain.snoc (step_of_next (t := false) .nonempty (by decide) nofun)
  have hback := hnonempty.snoc (step_of_next (t := false) .back trivial nofun)
  have hpop := hback.snoc (step_of_next (t := false) .pop trivial nofun)
  have hlast : ∀ {l : List (State Bool × Bool × Act Bool)} {entry}, entry ∈ l ++ [entry] :=
    List.mem_append_right _ (List.mem_singleton_self _)
  exact ⟨_, _, hpop, rfl, ⟨_, hlast, rfl⟩, condition_stack hpop⟩

end PthreadCond

end LinuxLearning.Chapter3
