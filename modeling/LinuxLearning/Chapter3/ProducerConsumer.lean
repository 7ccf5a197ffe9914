/-
Producers and consumers around a mutex alone (producer_consumer.cpp).  A thread
that finds no room, or nothing to take, leaves its critical section and comes
back later.
-/
import LinuxLearning.Lib.BoundedStack

namespace LinuxLearning.Chapter3.ProducerConsumer

universe u

/-- `BUF_SIZE`. -/
def bufSize : Nat := 100

/-- The next statement of a thread, in `producer` or in `consumer`. -/
inductive Pc where
  | lockP | sizeP | pushBack | unlockP
  | lockC | sizeC | back | popBack | unlockC
deriving Repr, DecidableEq

/-- What a thread does in one step. -/
inductive Act where
  | lock | room | noRoom | push (num : Int) | nonempty | empty | back | pop | unlock
deriving Repr, DecidableEq

/-- The loops of `producer` and of `consumer`. -/
inductive Pc.Next : Pc → Act → Pc → Prop
  | lockP : Next .lockP .lock .sizeP
  | room : Next .sizeP .room .pushBack
  | noRoom : Next .sizeP .noRoom .unlockP
  | push (num : Int) : Next .pushBack (.push num) .unlockP
  | unlockP : Next .unlockP .unlock .lockP
  | lockC : Next .lockC .lock .sizeC
  | nonempty : Next .sizeC .nonempty .back
  | empty : Next .sizeC .empty .unlockC
  | back : Next .back .back .popBack
  | pop : Next .popBack .pop .unlockC
  | unlockC : Next .unlockC .unlock .lockC

/-- The two tests of `buf.size()`, and the values of `rand() % 1000`. -/
def Allows (buf : List Int) : Act → Prop
  | .room => buf.length < bufSize
  | .noRoom => ¬ buf.length < bufSize
  | .push num => 0 ≤ num ∧ num < 1000
  | .nonempty => 0 < buf.length
  | .empty => ¬ 0 < buf.length
  | _ => True

/-- What becomes of the buffer. -/
def effect (buf : List Int) : Act → List Int
  | .push num => buf ++ [num]
  | .pop => buf.dropLast
  | _ => buf

/-- The threads, the mutex and the buffer. -/
def monitor (τ : Type u) : Monitor τ (List Int) Pc Act where
  next := Pc.Next
  allows buf _ act := Allows buf act
  effect buf _ act := effect buf act
  acquires act := act = .lock
  releases act := act = .unlock

abbrev State (τ : Type u) := Monitor.State τ (List Int) Pc

/-- The start of `main`, behind `buf.resize(0)`. -/
structure Starts {τ : Type u} (s : State τ) : Prop where
  holder : s.holder = none
  shared : s.shared = []
  threads : ∀ t, s.threads t = .lockP ∨ s.threads t = .lockC

/-- The program. -/
def program (τ : Type u) [DecidableEq τ] : TransitionSystem (State τ) (τ × Act) :=
  (monitor τ).system Starts

namespace Pc

/-- Between `lock` and `unlock`. -/
def Critical : Pc → Prop
  | .lockP | .lockC => False
  | _ => True

/-- What a thread knows of the buffer. -/
def Knows : Pc → List Int → Prop
  | .pushBack, buf => buf.length < bufSize
  | .back, buf | .popBack, buf => buf ≠ []
  | _, _ => True

end Pc

variable {τ : Type u}

theorem bracketed : (monitor τ).Bracketed Pc.Critical where
  acquire hnext hacquires := by
    cases hnext <;> trivial
  release hnext hreleases := by
    cases hnext <;> first | exact ⟨trivial, id⟩ | cases hreleases
  keep hnext hlock hunlock := by
    have hlock := of_decide_eq_false hlock
    have hunlock := of_decide_eq_false hunlock
    cases hnext <;> first | exact Iff.rfl | exact absurd rfl hlock | exact absurd rfl hunlock

theorem teaches : (monitor τ).Teaches Pc.Critical Pc.Knows where
  outside := by
    intro pc data houtside
    cases pc <;> first | trivial | exact (houtside trivial).elim
  own := by
    intro pc act pc' data t hnext hallows hknows
    cases hnext with
    | room => exact hallows
    | nonempty => exact List.length_pos_iff.mp hallows
    | back => exact hknows
    | _ => trivial
  other := by
    intro pc act pc' data t pc'' hnext houtside hknows
    cases hnext <;> first | exact hknows | exact (houtside trivial).elim

section Starts

variable {s : State τ}

theorem Starts.exclusive (h : Starts s) : Exclusive Pc.Critical s.holder s.threads := by
  rw [h.holder]
  apply Exclusive.free
  intro t
  rcases h.threads t with ht | ht <;> simp [ht, Pc.Critical]

theorem Starts.knows (h : Starts s) (t : τ) : (s.threads t).Knows s.shared := by
  rcases h.threads t with ht | ht <;> rw [ht] <;> trivial

end Starts

variable [DecidableEq τ] {s : State τ}

theorem program_exclusive (hreach : (program τ).Reachable s) :
    Exclusive Pc.Critical s.holder s.threads :=
  bracketed.reachable (fun _ hstart => Starts.exclusive hstart) hreach

theorem program_knows (hreach : (program τ).Reachable s) (t : τ) :
    (s.threads t).Knows s.shared :=
  teaches.reachable bracketed (fun _ hstart => ⟨Starts.exclusive hstart, Starts.knows hstart⟩)
    hreach t

/-- The operation of an action. -/
def op : Act → Option (Monitor.StackOp Int)
  | .push num => some (.push num)
  | .pop => some .pop
  | _ => none

/-- The mutex makes the buffer a stack. -/
theorem usesStack : (monitor τ).UsesStack Starts Pc.Critical bufSize id op where
  bracketed := bracketed
  exclusive := Starts.exclusive
  empty := Starts.shared
  effect _ _ act := by cases act <;> rfl
  inside hnext houtside := by
    cases hnext <;> first | rfl | exact (houtside trivial).elim
  room := by
    intro s t act pc value hreach hnext hop
    have hknows := program_knows hreach t
    generalize s.threads t = before at hnext hknows
    cases hnext <;> first | exact hknows | cases hop
  value := by
    intro s t act pc hreach hnext hop
    have hknows := program_knows hreach t
    generalize s.threads t = before at hnext hknows
    cases hnext <;> first | exact hknows | cases hop

variable {history : List (State τ × (τ × Act))}

/-- In every run the buffer is a stack of at most `BUF_SIZE` values: nothing is
popped from an empty one, a pop takes the value of the last unmatched push, and
that is the value the consumer has read and reports. -/
theorem buffer_stack (hrun : (program τ).Run history s) :
    Monitor.StackRun bufSize id op (fun act => act = .back) history s := by
  apply usesStack.stackRun _ hrun
  rintro pc act pc' hnext rfl
  cases hnext
  exact ⟨trivial, rfl⟩

/-- One producer and one consumer before their first steps. -/
def twoThreads : State Bool where
  holder := none
  shared := []
  threads t := if t then .lockP else .lockC

/-- A step, from what the text and the buffer say. -/
theorem step_of_next {t : τ} {act : Act} {pc : Pc} (hnext : Pc.Next (s.threads t) act pc)
    (hallows : Allows s.shared act) (hfree : act = .lock → s.holder = none) :
    (monitor τ).Step s (t, act)
      { holder := (monitor τ).holderAfter s.holder t act
        shared := effect s.shared act
        threads := Function.update s.threads t pc } :=
  .mk hnext hallows fun hlock => hfree (of_decide_eq_true hlock)

/-- A value is pushed into the empty buffer, and popped. -/
theorem buffer_stack_pop :
    ∃ history s, (program Bool).Run history s ∧ s.shared = [] ∧
      (∃ before : State Bool, (before, false, Act.pop) ∈ history ∧ before.shared = [7]) ∧
      Monitor.StackRun bufSize id op (fun act => act = .back) history s := by
  have hstart : (program Bool).Run [] twoThreads := .start
    ⟨rfl, rfl, Bool.forall_bool.mpr ⟨Or.inr rfl, Or.inl rfl⟩⟩
  have hlock := hstart.snoc (step_of_next (t := true) .lockP trivial fun _ => rfl)
  have hroom := hlock.snoc (step_of_next (t := true) .room (by decide : 0 < 100) nofun)
  have hpush := hroom.snoc
    (step_of_next (t := true) (.push 7) (by decide : (0 : Int) ≤ 7 ∧ _) nofun)
  have hunlock := hpush.snoc (step_of_next (t := true) .unlockP trivial nofun)
  have hlockC := hunlock.snoc (step_of_next (t := false) .lockC trivial fun _ => rfl)
  have hnonempty := hlockC.snoc (step_of_next (t := false) .nonempty (by decide : 0 < 1) nofun)
  have hback := hnonempty.snoc (step_of_next (t := false) .back trivial nofun)
  have hpop := hback.snoc (step_of_next (t := false) .pop trivial nofun)
  have hlast : ∀ {l : List (State Bool × Bool × Act)} {entry}, entry ∈ l ++ [entry] :=
    List.mem_append_right _ (List.mem_singleton_self _)
  exact ⟨_, _, hpop, rfl, ⟨_, hlast, rfl⟩, buffer_stack hpop⟩

end LinuxLearning.Chapter3.ProducerConsumer
