/-
Readers and writers around a read-write lock (rwlock.cpp).  The readers count
themselves under a mutex of their own; `rw_num` is written under the writers'
side of the lock alone.
-/
import LinuxLearning.Lib.Monitor
import LinuxLearning.Lib.SharedLock

namespace LinuxLearning.Chapter3.Rwlock

universe u

/-- The next access of a thread, in `read_num` or in `write_num`, with the value
that it has loaded. -/
inductive Pc where
  | tryRead | lockInc | loadInc | storeInc (num : Int) | reportInc | unlockInc
  | lockDec | loadDec | storeDec (num : Int) | reportDec | unlockDec | unlockRead
  | tryWrite | loadWrite | storeWrite (num : Int) | unlockWrite
deriving Repr, DecidableEq

/-- What a thread does in one step; `busy` is a failed attempt at the lock. -/
inductive Act where
  | tryRead | busyRead | lock | load (num : Int) | store (num : Int) | report (num : Int)
  | unlock | unlockRead
  | tryWrite | busyWrite | loadWrite (num : Int) | storeWrite (num : Int) | unlockWrite
deriving Repr, DecidableEq

/-- `rw_num++` on a 32-bit `int`. -/
def increment (num : Int) : Int := (num + 1).bmod (2 ^ 32)

/-- The loops of `read_num` and of `write_num`. -/
inductive Pc.Next : Pc → Act → Pc → Prop
  | tryRead : Next .tryRead .tryRead .lockInc
  | busyRead : Next .tryRead .busyRead .tryRead
  | lockInc : Next .lockInc .lock .loadInc
  | loadInc (num : Int) : Next .loadInc (.load num) (.storeInc num)
  | storeInc (num : Int) : Next (.storeInc num) (.store (num + 1)) .reportInc
  | reportInc (num : Int) : Next .reportInc (.report num) .unlockInc
  | unlockInc : Next .unlockInc .unlock .lockDec
  | lockDec : Next .lockDec .lock .loadDec
  | loadDec (num : Int) : Next .loadDec (.load num) (.storeDec num)
  | storeDec (num : Int) : Next (.storeDec num) (.store (num - 1)) .reportDec
  | reportDec (num : Int) : Next .reportDec (.report num) .unlockDec
  | unlockDec : Next .unlockDec .unlock .unlockRead
  | unlockRead : Next .unlockRead .unlockRead .tryRead
  | tryWrite : Next .tryWrite .tryWrite .loadWrite
  | busyWrite : Next .tryWrite .busyWrite .tryWrite
  | loadWrite (num : Int) : Next .loadWrite (.loadWrite num) (.storeWrite num)
  | storeWrite (num : Int) : Next (.storeWrite num) (.storeWrite (increment num)) .unlockWrite
  | unlockWrite : Next .unlockWrite .unlockWrite .tryWrite

/-- `rwlock`, `rdlock_num` and `rw_num`. -/
structure Shared (τ : Type u) where
  rwlock : SharedLock τ
  rdlockNum : Int
  rwNum : Int

section Shared

variable {τ : Type u}

/-- When the lock lets a thread pass, and what is loaded. -/
def Shared.Allows (s : Shared τ) : Act → Prop
  | .tryRead => s.rwlock.CanRead
  | .busyRead => ¬ s.rwlock.CanRead
  | .tryWrite => s.rwlock.CanWrite
  | .busyWrite => ¬ s.rwlock.CanWrite
  | .load num | .report num => s.rdlockNum = num
  | .loadWrite num => s.rwNum = num
  | _ => True

/-- What becomes of the lock and of the numbers. -/
def Shared.effect (s : Shared τ) (t : τ) : Act → Shared τ
  | .tryRead => { s with rwlock := s.rwlock.read }
  | .unlockRead => { s with rwlock := s.rwlock.unlockRead }
  | .tryWrite => { s with rwlock := s.rwlock.write t }
  | .unlockWrite => { s with rwlock := s.rwlock.unlockWrite }
  | .store num => { s with rdlockNum := num }
  | .storeWrite num => { s with rwNum := num }
  | _ => s

end Shared

/-- The threads, `mutex` and what they share. -/
def monitor (τ : Type u) : Monitor τ (Shared τ) Pc Act where
  next := Pc.Next
  allows s _ act := s.Allows act
  effect := Shared.effect
  acquires act := act = .lock
  releases act := act = .unlock

abbrev State (τ : Type u) := Monitor.State τ (Shared τ) Pc

/-- The start of `main`. -/
structure Starts {τ : Type u} (s : State τ) : Prop where
  holder : s.holder = none
  shared : s.shared = ⟨.free, 0, 0⟩
  threads : ∀ t, s.threads t = .tryRead ∨ s.threads t = .tryWrite

/-- The program. -/
def program (τ : Type u) [DecidableEq τ] : TransitionSystem (State τ) (τ × Act) :=
  (monitor τ).system Starts

/-- How often `rw_num` has been incremented in a run. -/
def writes {τ : Type u} (history : List (State τ × (τ × Act))) : Nat :=
  history.countP fun entry => match entry.2.2 with
    | .storeWrite _ => true
    | _ => false

namespace Pc

/-- Between `pthread_mutex_lock` and `pthread_mutex_unlock`. -/
def Critical : Pc → Prop
  | .loadInc | .storeInc _ | .reportInc | .unlockInc => True
  | .loadDec | .storeDec _ | .reportDec | .unlockDec => True
  | _ => False

/-- Between `pthread_rwlock_tryrdlock` and `pthread_rwlock_unlock`. -/
def Reading : Pc → Prop
  | .lockInc | .loadInc | .storeInc _ | .reportInc | .unlockInc => True
  | .lockDec | .loadDec | .storeDec _ | .reportDec | .unlockDec | .unlockRead => True
  | _ => False

/-- Between `pthread_rwlock_trywrlock` and `pthread_rwlock_unlock`. -/
def Writing : Pc → Prop
  | .loadWrite | .storeWrite _ | .unlockWrite => True
  | _ => False

/-- Behind `rdlock_num++` and before `rdlock_num--`. -/
def Counted : Pc → Prop
  | .reportInc | .unlockInc | .lockDec | .loadDec | .storeDec _ => True
  | _ => False

/-- In `read_num`. -/
def Reader (pc : Pc) : Prop := pc = .tryRead ∨ pc.Reading

/-- What a thread under the mutex knows of `rdlock_num`. -/
def Knows {τ : Type u} : Pc → Shared τ → Prop
  | .storeInc num, s | .storeDec num, s => s.rdlockNum = num
  | _, _ => True

/-- What a thread in a writing section knows of `rw_num`. -/
def KnowsWritten {τ : Type u} : Pc → Shared τ → Prop
  | .storeWrite num, s => s.rwNum = num
  | _, _ => True

variable {pc : Pc}

theorem Counted.reading (h : pc.Counted) : pc.Reading := by
  cases pc <;> trivial

end Pc

variable {τ : Type u}

theorem bracketed : (monitor τ).Bracketed Pc.Critical where
  acquire hnext hacquires := by
    cases hnext <;> trivial
  release hnext hreleases := by
    cases hnext <;> first | exact ⟨trivial, id⟩ | cases hreleases
  keep hnext hlock hunlock := by
    have hlock := of_decide_eq_false hlock
    have hunlock := of_decide_eq_false hunlock
    cases hnext <;> first | exact Iff.rfl | exact absurd rfl hlock | exact absurd rfl hunlock

theorem teaches : (monitor τ).Teaches Pc.Critical Pc.Knows where
  outside := by
    intro pc data houtside
    cases pc <;> first | trivial | exact (houtside trivial).elim
  own := by
    intro pc act pc' data t hnext hallows hknows
    cases hnext with
    | loadInc num => exact hallows
    | loadDec num => exact hallows
    | _ => trivial
  other := by
    intro pc act pc' data t pc'' hnext houtside hknows
    have hnum : (data.effect t act).rdlockNum = data.rdlockNum := by
      cases hnext <;> first | rfl | exact (houtside trivial).elim
    change pc''.Knows (data.effect t act)
    cases pc'' <;> first | trivial | simpa only [Pc.Knows, hnum] using hknows

/-- The invariant: the lock guards the sections, `rdlock_num` is the number of
readers that have counted themselves, and a writer knows `rw_num`. -/
structure Sound (s : State τ) : Prop where
  guards : s.shared.rwlock.Guards Pc.Reading Pc.Writing s.threads
  counted : ∃ n : Nat, Census Pc.Counted s.threads n ∧ s.shared.rdlockNum = n
  written : ∀ t, (s.threads t).KnowsWritten s.shared

section Start

variable {s : State τ}

theorem Starts.exclusive (h : Starts s) : Exclusive Pc.Critical s.holder s.threads := by
  rw [h.holder]
  apply Exclusive.free
  intro t
  rcases h.threads t with ht | ht <;> simp [ht, Pc.Critical]

theorem Starts.knows (h : Starts s) (t : τ) : (s.threads t).Knows s.shared := by
  rcases h.threads t with ht | ht <;> rw [ht] <;> trivial

theorem Starts.sound (h : Starts s) : Sound s := by
  refine ⟨?_, ⟨0, Census.none fun t => ?_, ?_⟩, fun t => ?_⟩
  · rw [h.shared]
    apply SharedLock.Guards.start
    intro t
    rcases h.threads t with ht | ht <;> simp [ht, Pc.Reading, Pc.Writing]
  · rcases h.threads t with ht | ht <;> simp [ht, Pc.Counted]
  · rw [h.shared]
    rfl
  · rcases h.threads t with ht | ht <;> rw [ht] <;> trivial

end Start

section Step

open Function

variable [DecidableEq τ] {s : State τ} {t : τ} {act : Act} {pc : Pc}

theorem Sound.step_guards (h : Sound s) (hnext : Pc.Next (s.threads t) act pc)
    (hallows : s.shared.Allows act) :
    (s.shared.effect t act).rwlock.Guards Pc.Reading Pc.Writing (update s.threads t pc) := by
  have hguards := h.guards
  generalize hplace : s.threads t = before at hnext
  have hkeep : (pc.Reading ↔ before.Reading) → (pc.Writing ↔ before.Writing) →
      s.shared.rwlock.Guards Pc.Reading Pc.Writing (update s.threads t pc) := by
    intro hreading hwriting
    exact hguards.keep (by rwa [hplace]) (by rwa [hplace])
  cases hnext with
  | tryRead =>
      exact hguards.read_step hallows (by rw [hplace]; exact id) trivial (by rw [hplace]; exact Iff.rfl)
  | unlockRead =>
      exact hguards.unlockRead_step (by rw [hplace]; trivial) id (by rw [hplace]; exact Iff.rfl)
  | tryWrite => exact hguards.write_step hallows trivial (by rw [hplace]; exact Iff.rfl)
  | unlockWrite =>
      exact hguards.unlockWrite_step (by rw [hplace]; trivial) id (by rw [hplace]; exact Iff.rfl)
  | _ => exact hkeep Iff.rfl Iff.rfl

theorem Sound.step_counted (h : Sound s) (hknows : (s.threads t).Knows s.shared)
    (hnext : Pc.Next (s.threads t) act pc) :
    ∃ n : Nat, Census Pc.Counted (update s.threads t pc) n ∧
      (s.shared.effect t act).rdlockNum = n := by
  obtain ⟨n, hcensus, hn⟩ := h.counted
  generalize hplace : s.threads t = before at hnext hknows
  have hkeep : (pc.Counted ↔ before.Counted) → Census Pc.Counted (update s.threads t pc) n :=
    fun hsame => hcensus.keep (by rwa [hplace])
  cases hnext with
  | storeInc num =>
      have hnum : s.shared.rdlockNum = num := hknows
      refine ⟨n + 1, hcensus.enter (by rw [hplace]; exact id) trivial, ?_⟩
      rw [Shared.effect, ← hnum, hn]
      rfl
  | storeDec num =>
      have hnum : s.shared.rdlockNum = num := hknows
      have hcounted : (s.threads t).Counted := by rw [hplace]; trivial
      have hpos := hcensus.pos hcounted
      refine ⟨n - 1, hcensus.leave hcounted id, ?_⟩
      rw [Shared.effect, ← hnum, hn, Nat.cast_sub hpos]
      rfl
  | _ => exact ⟨n, hkeep Iff.rfl, hn⟩

theorem Sound.step_written (h : Sound s) (hnext : Pc.Next (s.threads t) act pc)
    (hallows : s.shared.Allows act) (u : τ) :
    (update s.threads t pc u).KnowsWritten (s.shared.effect t act) := by
  have hknows := h.written u
  by_cases hu : u = t
  · subst hu
    rw [update_self]
    generalize s.threads u = before at hnext
    cases hnext with
    | loadWrite num => exact hallows
    | _ => trivial
  · rw [update_of_ne hu]
    by_cases hact : ∃ num, act = .storeWrite num
    · -- the writer that stores is alone
      obtain ⟨num, rfl⟩ := hact
      have hwriting : (s.threads t).Writing := by
        generalize s.threads t = before at hnext
        cases hnext
        trivial
      have hother : ¬ (s.threads u).Writing :=
        fun hother => hu ((h.guards.alone hwriting).1 u hother)
      generalize s.threads u = place at hother
      cases place <;> trivial
    · have hnum : (s.shared.effect t act).rwNum = s.shared.rwNum := by
        cases act <;> first | rfl | exact (hact ⟨_, rfl⟩).elim
      generalize s.threads u = place at hknows
      cases place <;> first | trivial | simpa only [Pc.KnowsWritten, hnum] using hknows

theorem Sound.step {after : State τ} {label : τ × Act} (h : Sound s)
    (hknows : ∀ t, (s.threads t).Knows s.shared) (hstep : (monitor τ).Step s label after) :
    Sound after := by
  obtain @⟨t, act, pc, hnext, hallows, -⟩ := hstep
  exact ⟨h.step_guards hnext hallows, h.step_counted (hknows t) hnext,
    h.step_written hnext hallows⟩

end Step

section Runs

variable [DecidableEq τ] {history : List (State τ × (τ × Act))} {s : State τ}

theorem program_knows (hreach : (program τ).Reachable s) (t : τ) :
    (s.threads t).Knows s.shared :=
  teaches.reachable bracketed (fun _ hstart => ⟨Starts.exclusive hstart, Starts.knows hstart⟩)
    hreach t

theorem program_sound (hreach : (program τ).Reachable s) : Sound s := by
  obtain ⟨history, hrun⟩ := hreach
  induction hrun with
  | start hstart => exact Starts.sound hstart
  | snoc hbefore hstep ih => exact ih.step (program_knows ⟨_, hbefore⟩) hstep

/-- No increment of `rw_num` is lost. -/
theorem rwNum_eq (hrun : (program τ).Run history s) :
    s.shared.rwNum = ((writes history : Nat) : Int).bmod (2 ^ 32) := by
  induction hrun with
  | start hstart => simp [Starts.shared hstart, writes]
  | @snoc history before after label hbefore hstep ih =>
      have hsound := program_sound ⟨history, hbefore⟩
      obtain @⟨t, act, pc, hnext, -, -⟩ := hstep
      rw [writes, List.countP_append, ← writes]
      have hwritten := hsound.written t
      change Pc.Next (before.threads t) act pc at hnext
      change (before.shared.effect t act).rwNum = _
      generalize before.threads t = place at hnext hwritten
      cases hnext with
      | storeWrite num =>
          have hnum : before.shared.rwNum = num := hwritten
          rw [Shared.effect, ← hnum, ih, increment]
          simp
      | _ => simpa [Shared.effect] using ih

/-- In every run a writer is alone with the lock, `rdlock_num` is the number of
readers that have counted themselves, between zero and the number of reading
threads and zero while a writer holds the lock, and `rw_num` has been
incremented once for every writing section. -/
theorem rwlock_safe (hrun : (program τ).Run history s) :
    (∀ t, (s.threads t).Writing → (∀ u, (s.threads u).Writing → u = t) ∧
      (∀ u, ¬ (s.threads u).Reading) ∧ s.shared.rdlockNum = 0) ∧
    (∃ n : Nat, Census Pc.Counted s.threads n ∧ s.shared.rdlockNum = n ∧
      ∀ k, Census Pc.Reader s.threads k → n ≤ k) ∧
    s.shared.rwNum = ((writes history : Nat) : Int).bmod (2 ^ 32) := by
  have hsound := program_sound ⟨history, hrun⟩
  obtain ⟨n, hcensus, hn⟩ := hsound.counted
  refine ⟨?_, ⟨n, hcensus, hn, ?_⟩, rwNum_eq hrun⟩
  · intro t ht
    obtain ⟨halone, hnobody⟩ := hsound.guards.alone ht
    refine ⟨halone, hnobody, ?_⟩
    have hzero : n = 0 :=
      hcensus.unique (.none fun u hcounted => hnobody u hcounted.reading)
    rw [hn, hzero]
    rfl
  · intro k hreaders
    exact hcensus.mono hreaders fun hcounted => Or.inr hcounted.reading

/-- A step, from what the text and the shared objects say. -/
theorem step_of_next {t : τ} {act : Act} {pc : Pc} (hnext : Pc.Next (s.threads t) act pc)
    (hallows : s.shared.Allows act) (hfree : act = .lock → s.holder = none) :
    (monitor τ).Step s (t, act)
      { holder := (monitor τ).holderAfter s.holder t act
        shared := s.shared.effect t act
        threads := Function.update s.threads t pc } :=
  .mk hnext hallows fun hlock => hfree (of_decide_eq_true hlock)

/-- One writer and one reader before their first steps. -/
def twoThreads : State Bool where
  holder := none
  shared := ⟨.free, 0, 0⟩
  threads t := if t then .tryWrite else .tryRead

/-- A writer has the lock and has incremented the number. -/
theorem rwlock_safe_write :
    ∃ history s, (program Bool).Run history s ∧ s.shared.rwNum = 1 ∧
      (s.threads true).Writing ∧ ¬ (s.threads false).Reading := by
  have hstart : (program Bool).Run [] twoThreads := .start
    ⟨rfl, rfl, Bool.forall_bool.mpr ⟨Or.inl rfl, Or.inr rfl⟩⟩
  have htry := hstart.snoc (step_of_next (t := true) .tryWrite ⟨rfl, rfl⟩ nofun)
  have hload := htry.snoc (step_of_next (t := true) (.loadWrite 0) rfl nofun)
  have hstore := hload.snoc (step_of_next (t := true) (.storeWrite 0) trivial nofun)
  obtain ⟨halone, -, -⟩ := rwlock_safe hstore
  exact ⟨_, _, hstore, by decide, trivial, (halone true trivial).2.1 false⟩

end Runs

end LinuxLearning.Chapter3.Rwlock
