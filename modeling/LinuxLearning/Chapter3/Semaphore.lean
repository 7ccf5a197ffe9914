/-
Producers and consumers around two semaphores and a mutex (semaphore.cpp).  A
permit is always somewhere: in a semaphore, in the buffer, or with a thread
between a wait and a post.  From that count follow the bound of the buffer,
that nothing is popped from an empty one, and that some thread can go on.
-/
import LinuxLearning.Lib.Census
import LinuxLearning.Lib.Monitor

namespace LinuxLearning.Chapter3.Semaphore

universe u

/-- The next statement of a thread, in `producer` or in `consumer`. -/
inductive Pc where
  | waitP | lockP | pushBack | unlockP | postC
  | waitC | lockC | back | popBack | unlockC | postP
deriving Repr, DecidableEq

/-- What a thread does in one step. -/
inductive Act where
  | waitP | waitC | lock | push (num : Int) | back | pop | unlock | postC | postP
deriving Repr, DecidableEq

/-- The loops of `producer` and of `consumer`. -/
inductive Pc.Next : Pc → Act → Pc → Prop
  | waitP : Next .waitP .waitP .lockP
  | lockP : Next .lockP .lock .pushBack
  | push (num : Int) : Next .pushBack (.push num) .unlockP
  | unlockP : Next .unlockP .unlock .postC
  | postC : Next .postC .postC .waitP
  | waitC : Next .waitC .waitC .lockC
  | lockC : Next .lockC .lock .back
  | back : Next .back .back .popBack
  | pop : Next .popBack .pop .unlockC
  | unlockC : Next .unlockC .unlock .postP
  | postP : Next .postP .postP .waitC

/-- `sem_p`, `sem_c` and `buf`. -/
structure Shared where
  semP : Nat
  semC : Nat
  buf : List Int
deriving Repr, DecidableEq

/-- The values of `rand() % 1000`, and when a semaphore lets a thread pass. -/
def Shared.Allows (s : Shared) : Act → Prop
  | .waitP => 0 < s.semP
  | .waitC => 0 < s.semC
  | .push num => 0 ≤ num ∧ num < 1000
  | _ => True

/-- What becomes of the semaphores and of the buffer. -/
def Shared.effect (s : Shared) : Act → Shared
  | .waitP => { s with semP := s.semP - 1 }
  | .waitC => { s with semC := s.semC - 1 }
  | .push num => { s with buf := s.buf ++ [num] }
  | .pop => { s with buf := s.buf.dropLast }
  | .postC => { s with semC := s.semC + 1 }
  | .postP => { s with semP := s.semP + 1 }
  | _ => s

/-- The threads, the mutex and what they share. -/
def monitor (τ : Type u) : Monitor τ Shared Pc Act where
  next := Pc.Next
  allows s _ act := s.Allows act
  effect s _ act := s.effect act
  acquires act := act = .lock
  releases act := act = .unlock

abbrev State (τ : Type u) := Monitor.State τ Shared Pc

/-- In `producer`. -/
def Pc.Producer : Pc → Prop
  | .waitP | .lockP | .pushBack | .unlockP | .postC => True
  | _ => False

/-- In `consumer`. -/
def Pc.Consumer : Pc → Prop
  | .waitC | .lockC | .back | .popBack | .unlockC | .postP => True
  | _ => False

/-- The start of `main`: `capacity` permits for producers, an empty buffer, and
at least one thread of either kind. -/
structure Starts {τ : Type u} (capacity : Nat) (s : State τ) : Prop where
  holder : s.holder = none
  shared : s.shared = ⟨capacity, 0, []⟩
  threads : ∀ t, s.threads t = .waitP ∨ s.threads t = .waitC
  producer : ∃ t, s.threads t = .waitP
  consumer : ∃ t, s.threads t = .waitC

/-- The program. -/
def program (τ : Type u) [DecidableEq τ] (capacity : Nat) :
    TransitionSystem (State τ) (τ × Act) :=
  (monitor τ).system (Starts capacity)

section History

variable {τ : Type u}

/-- The values pushed in a run. -/
def pushed (history : List (State τ × (τ × Act))) : List Int :=
  history.filterMap fun entry => match entry.2.2 with
    | .push num => some num
    | _ => none

/-- The values popped in a run: the last one of the buffer each time. -/
def popped (history : List (State τ × (τ × Act))) : List Int :=
  history.filterMap fun entry => match entry.2.2 with
    | .pop => entry.1.shared.buf.getLast?
    | _ => none

end History

namespace Pc

/-- Between `lock` and `unlock`. -/
def Critical : Pc → Prop
  | .pushBack | .unlockP | .back | .popBack | .unlockC => True
  | _ => False

/-- Where the permit of a thread is: still for a place in the buffer, for a
value that it has pushed, for a value that it is to pop, for a place that it
has emptied. -/
inductive Permit where
  | place | full | value | empty
deriving DecidableEq

/-- The permit of a thread between its wait and its post. -/
def permit : Pc → Option Permit
  | .lockP | .pushBack => some .place
  | .unlockP | .postC => some .full
  | .lockC | .back | .popBack => some .value
  | .unlockC | .postP => some .empty
  | .waitP | .waitC => none

variable {pc pc' : Pc} {act : Act}

theorem Next.producer (h : Next pc act pc') : pc'.Producer ↔ pc.Producer := by
  cases h <;> exact Iff.rfl

theorem Next.consumer (h : Next pc act pc') : pc'.Consumer ↔ pc.Consumer := by
  cases h <;> exact Iff.rfl

end Pc

theorem bracketed (τ : Type u) : (monitor τ).Bracketed Pc.Critical where
  acquire hnext hact := by cases hnext <;> trivial
  release hnext hact := by cases hnext <;> first | exact ⟨trivial, id⟩ | cases hact
  keep hnext hlock hunlock := by
    have hlock := of_decide_eq_false hlock
    have hunlock := of_decide_eq_false hunlock
    cases hnext <;> first | exact Iff.rfl | exact absurd rfl hlock | exact absurd rfl hunlock

variable {τ : Type u}

/-- How many threads hold each kind of permit, and where all permits are. -/
structure Balanced (capacity : Nat) (s : State τ) : Prop where
  counts : ∃ place full value empty,
    Census (fun pc => Pc.permit pc = some .place) s.threads place ∧
    Census (fun pc => Pc.permit pc = some .full) s.threads full ∧
    Census (fun pc => Pc.permit pc = some .value) s.threads value ∧
    Census (fun pc => Pc.permit pc = some .empty) s.threads empty ∧
    s.shared.buf.length = full + s.shared.semC + value ∧
    s.shared.semP + place + s.shared.buf.length + empty = capacity

/-- The invariant: the mutex excludes, no permit is lost, and there are threads
of both kinds. -/
structure Sound (capacity : Nat) (s : State τ) : Prop where
  exclusive : Exclusive Pc.Critical s.holder s.threads
  balanced : Balanced capacity s
  producer : ∃ t, (s.threads t).Producer
  consumer : ∃ t, (s.threads t).Consumer

theorem Starts.sound {capacity : Nat} {s : State τ} (h : Starts capacity s) :
    Sound capacity s := by
  have hidle : ∀ permit, ∀ t, (s.threads t).permit ≠ some permit := by
    intro permit t
    rcases h.threads t with ht | ht <;> simp [ht, Pc.permit]
  refine ⟨?_, ⟨0, 0, 0, 0, .none (hidle _), .none (hidle _), .none (hidle _), .none (hidle _),
    ?_, ?_⟩, ?_, ?_⟩
  · rw [h.holder]
    apply Exclusive.free
    intro t
    rcases h.threads t with ht | ht <;> simp [ht, Pc.Critical]
  · rw [h.shared]
    rfl
  · rw [h.shared]
    rfl
  · obtain ⟨t, ht⟩ := h.producer
    exact ⟨t, by rw [ht]; trivial⟩
  · obtain ⟨t, ht⟩ := h.consumer
    exact ⟨t, by rw [ht]; trivial⟩

section Step

variable [DecidableEq τ] {capacity : Nat} {s after : State τ} {label : τ × Act}

/-- A step, from what the text and the shared objects say. -/
theorem step_of_next {t : τ} {act : Act} {pc : Pc} (hnext : Pc.Next (s.threads t) act pc)
    (hallows : s.shared.Allows act) (hfree : act = .lock → s.holder = none) :
    (monitor τ).Step s (t, act)
      { holder := (monitor τ).holderAfter s.holder t act
        shared := s.shared.effect act
        threads := Function.update s.threads t pc } :=
  .mk hnext hallows fun hlock => hfree (of_decide_eq_true hlock)

/-- A step moves at most one permit. -/
theorem Balanced.step (h : Balanced capacity s) (hstep : (monitor τ).Step s label after) :
    Balanced capacity after := by
  obtain @⟨t, act, pc, hnext, hallows, -⟩ := hstep
  obtain ⟨place, full, value, empty, hplace, hfull, hvalue, hempty, hbuf, hall⟩ := h.counts
  obtain ⟨place', hplace', hplaces⟩ := hplace.change t pc
  obtain ⟨full', hfull', hfulls⟩ := hfull.change t pc
  obtain ⟨value', hvalue', hvalues⟩ := hvalue.change t pc
  obtain ⟨empty', hempty', hemptys⟩ := hempty.change t pc
  refine ⟨place', full', value', empty', hplace', hfull', hvalue', hempty', ?_⟩
  clear hplace hfull hvalue hempty hplace' hfull' hvalue' hempty'
  change Pc.Next (s.threads t) act pc at hnext
  change s.shared.Allows act at hallows
  change (s.shared.effect act).buf.length = _ ∧ _
  generalize s.threads t = before at hnext hplaces hfulls hvalues hemptys
  cases hnext <;>
    simp only [Pc.permit, reduceCtorEq, Option.some.injEq, ↓reduceIte, Shared.Allows,
      Shared.effect, monitor, List.length_append, List.length_dropLast, List.length_cons,
      List.length_nil] at hplaces hfulls hvalues hemptys hallows ⊢ <;>
    omega

theorem Sound.step (h : Sound capacity s) (hstep : (monitor τ).Step s label after) :
    Sound capacity after where
  exclusive := (bracketed τ).step h.exclusive hstep
  balanced := h.balanced.step hstep
  producer := h.producer.imp fun t => (hstep.kind Pc.Next.producer t).mpr
  consumer := h.consumer.imp fun t => (hstep.kind Pc.Next.consumer t).mpr

end Step

section Sound

variable {capacity : Nat} {s : State τ}

theorem Sound.bounded (h : Sound capacity s) : s.shared.buf.length ≤ capacity := by
  obtain ⟨place, full, value, empty, -, -, -, -, -, hall⟩ := h.balanced.counts
  omega

/-- A consumer that is to pop finds a value. -/
theorem Sound.nonempty (h : Sound capacity s) {t : τ}
    (hvalue : (s.threads t).permit = some .value) : s.shared.buf ≠ [] := by
  obtain ⟨place, full, value, empty, -, -, hvalues, -, hbuf, -⟩ := h.balanced.counts
  have hpos := hvalues.pos hvalue
  rw [← List.length_pos_iff]
  omega

/-- Where nobody is between a wait and a post, a semaphore lets a thread
pass. -/
theorem Sound.permits (h : Sound capacity s) (hcapacity : 0 < capacity)
    (hidle : ∀ t, (s.threads t).permit = none) : 0 < s.shared.semP ∨ 0 < s.shared.semC := by
  obtain ⟨place, full, value, empty, hplace, hfull, hvalue, hempty, hbuf, hall⟩ :=
    h.balanced.counts
  have hnone : ∀ permit, ∀ t, (s.threads t).permit ≠ some permit := fun _ t => by simp [hidle t]
  have hplace := hplace.unique (Census.none (hnone _))
  have hfull := hfull.unique (Census.none (hnone _))
  have hvalue := hvalue.unique (Census.none (hnone _))
  have hempty := hempty.unique (Census.none (hnone _))
  omega

variable [DecidableEq τ]

/-- Some thread can take a step: the holder of the mutex, or else one that
wants it or is to post, or else one that a semaphore lets pass. -/
theorem Sound.progress (h : Sound capacity s) (hcapacity : 0 < capacity) :
    ∃ label after, (monitor τ).Step s label after := by
  have hgo : ∀ {t act pc pc'}, s.threads t = pc → Pc.Next pc act pc' → s.shared.Allows act →
      (act = .lock → s.holder = none) → ∃ label after, (monitor τ).Step s label after := by
    rintro t act _ pc' rfl hnext hallows hfree
    exact ⟨(t, act), _, step_of_next hnext hallows hfree⟩
  cases hholder : s.holder with
  | some t =>
      have hcritical := (h.exclusive t).mpr hholder
      cases hpc : s.threads t with
      | pushBack => exact hgo hpc (.push 0) ⟨Int.le_refl 0, by decide⟩ nofun
      | unlockP => exact hgo hpc .unlockP trivial nofun
      | back => exact hgo hpc .back trivial nofun
      | popBack => exact hgo hpc .pop trivial nofun
      | unlockC => exact hgo hpc .unlockC trivial nofun
      | _ =>
          rw [hpc] at hcritical
          exact hcritical.elim
  | none =>
      by_cases hidle : ∀ t, (s.threads t).permit = none
      · rcases h.permits hcapacity hidle with hp | hc
        · obtain ⟨t, ht⟩ := h.producer
          have hpermit := hidle t
          cases hpc : s.threads t with
          | waitP => exact hgo hpc .waitP hp nofun
          | _ => simp [hpc, Pc.permit, Pc.Producer] at hpermit ht
        · obtain ⟨t, ht⟩ := h.consumer
          have hpermit := hidle t
          cases hpc : s.threads t with
          | waitC => exact hgo hpc .waitC hc nofun
          | _ => simp [hpc, Pc.permit, Pc.Consumer] at hpermit ht
      · obtain ⟨t, ht⟩ := not_forall.mp hidle
        have hcritical : ¬ (s.threads t).Critical := by
          intro hcritical
          have hholds := h.exclusive.holds hcritical
          rw [hholder] at hholds
          cases hholds
        cases hpc : s.threads t with
        | lockP => exact hgo hpc .lockP trivial fun _ => hholder
        | lockC => exact hgo hpc .lockC trivial fun _ => hholder
        | postC => exact hgo hpc .postC trivial nofun
        | postP => exact hgo hpc .postP trivial nofun
        | waitP | waitC => simp [hpc, Pc.permit] at ht
        | _ => simp [hpc, Pc.Critical] at hcritical

end Sound

section Runs

variable [DecidableEq τ] {capacity : Nat} {history : List (State τ × (τ × Act))} {s : State τ}

theorem program_sound (hreach : (program τ capacity).Reachable s) : Sound capacity s := by
  refine hreach.invariant ?_ ?_
  · exact fun _ hstart => Starts.sound hstart
  · exact fun _ _ _ hsound hstep => hsound.step hstep

/-- What has been popped and what is in the buffer is what has been pushed. -/
theorem values_conserved (hrun : (program τ capacity).Run history s) :
    (popped history ++ s.shared.buf).Perm (pushed history) := by
  induction hrun with
  | start hstart =>
      rw [Starts.shared hstart]
      exact .nil
  | @snoc history before after label hbefore hstep ih =>
      have hsound := program_sound ⟨history, hbefore⟩
      obtain @⟨t, act, pc, hnext, -, -⟩ := hstep
      rw [popped, pushed, List.filterMap_append, List.filterMap_append, ← popped, ← pushed]
      change Pc.Next (before.threads t) act pc at hnext
      change (popped history ++ _ ++ (before.shared.effect act).buf).Perm _
      cases act with
      | push num =>
          simp only [List.filterMap_cons, List.filterMap_nil, List.append_nil, Shared.effect]
          rw [← List.append_assoc]
          exact ih.append_right [num]
      | pop =>
          have hvalue : (before.threads t).permit = some .value := by
            generalize before.threads t = pc' at hnext
            cases hnext
            rfl
          have hlast := List.getLast?_eq_some_getLast (hsound.nonempty hvalue)
          simp only [List.filterMap_cons, List.filterMap_nil, List.append_nil, Shared.effect,
            hlast]
          refine List.Perm.trans ?_ ih
          rw [List.append_assoc]
          apply List.Perm.append_left
          refine List.perm_append_comm.trans (List.Perm.of_eq ?_)
          exact List.dropLast_append_getLast (hsound.nonempty hvalue)
      | _ => simpa [Shared.effect] using ih

/-- In every run the buffer keeps its bound, nothing is read or popped from an
empty one, the values popped are among those pushed, each as often at most, and
some thread can take a step. -/
theorem boundedBuffer_safe (hcapacity : 0 < capacity)
    (hrun : (program τ capacity).Run history s) :
    s.shared.buf.length ≤ capacity ∧
      (∀ entry ∈ history, entry.2.2 = .back ∨ entry.2.2 = .pop → entry.1.shared.buf ≠ []) ∧
      (popped history ++ s.shared.buf).Perm (pushed history) ∧
      ∃ label after, (program τ capacity).step s label after := by
  have hsound := program_sound ⟨history, hrun⟩
  refine ⟨hsound.bounded, ?_, values_conserved hrun, hsound.progress hcapacity⟩
  rintro ⟨before, t, act⟩ hentry hact
  obtain ⟨earlier, later, rfl⟩ := List.append_of_mem hentry
  obtain ⟨hbefore, after, hstep⟩ := hrun.split
  have hvalue : (before.threads t).permit = some .value := by
    obtain @⟨t, act, pc, hnext, -, -⟩ := hstep
    change Pc.Next (before.threads t) act pc at hnext
    generalize before.threads t = pc' at hnext
    dsimp only at hact
    rcases hact with rfl | rfl <;> cases hnext <;> rfl
  exact (program_sound ⟨earlier, hbefore⟩).nonempty hvalue

/-- One producer and one consumer before their first steps. -/
def twoThreads : State Bool where
  holder := none
  shared := ⟨100, 0, []⟩
  threads t := if t then .waitP else .waitC

/-- A value is pushed into the buffer of `main`. -/
theorem boundedBuffer_safe_push :
    ∃ history s, (program Bool 100).Run history s ∧ s.shared.buf.length ≤ 100 ∧
      (popped history ++ s.shared.buf).Perm [7] := by
  have hstart : (program Bool 100).Run [] twoThreads := .start
    ⟨rfl, rfl, Bool.forall_bool.mpr ⟨Or.inr rfl, Or.inl rfl⟩, ⟨true, rfl⟩, ⟨false, rfl⟩⟩
  have hwait := hstart.snoc (step_of_next (t := true) .waitP (by decide : 0 < 100) nofun)
  have hlock := hwait.snoc (step_of_next (t := true) .lockP trivial fun _ => rfl)
  have hpush := hlock.snoc (step_of_next (t := true) (.push 7) (by decide : (0 : Int) ≤ 7 ∧ _) nofun)
  obtain ⟨hbound, -, hvalues, -⟩ := boundedBuffer_safe (by decide) hpush
  exact ⟨_, _, hpush, hbound, hvalues⟩

end Runs

end LinuxLearning.Chapter3.Semaphore
