/-
A lock that many threads hold for reading or one thread holds for writing, and
the threads that take it: those inside a reading section are as many as the
lock counts, and one that is inside a writing section is there alone.
-/
import LinuxLearning.Lib.Census
import LinuxLearning.Lib.Exclusion

universe u v

/-- How many hold the lock for reading, and who holds it for writing. -/
structure SharedLock (τ : Type u) where
  readers : Nat
  writer : Option τ
deriving DecidableEq

namespace SharedLock

open Function

variable {τ : Type u} {β : Type v}

def free : SharedLock τ := ⟨0, none⟩

/-- `pthread_rwlock_tryrdlock` returns zero. -/
def CanRead (lock : SharedLock τ) : Prop := lock.writer = none

/-- `pthread_rwlock_trywrlock` returns zero. -/
def CanWrite (lock : SharedLock τ) : Prop := lock.writer = none ∧ lock.readers = 0

def read (lock : SharedLock τ) : SharedLock τ := { lock with readers := lock.readers + 1 }

def write (lock : SharedLock τ) (t : τ) : SharedLock τ := { lock with writer := some t }

def unlockRead (lock : SharedLock τ) : SharedLock τ := { lock with readers := lock.readers - 1 }

def unlockWrite (lock : SharedLock τ) : SharedLock τ := { lock with writer := none }

/-- The lock says which threads are in their sections, and readers and a writer
are not there at once. -/
structure Guards (lock : SharedLock τ) (Reading Writing : β → Prop) (threads : τ → β) : Prop where
  reading : Census Reading threads lock.readers
  writing : Exclusive Writing lock.writer threads
  apart : lock.writer ≠ none → lock.readers = 0

namespace Guards

variable {lock : SharedLock τ} {Reading Writing : β → Prop} {threads : τ → β}

theorem start (h : ∀ t, ¬ Reading (threads t) ∧ ¬ Writing (threads t)) :
    (free : SharedLock τ).Guards Reading Writing threads :=
  ⟨.none fun t => (h t).1, .free fun t => (h t).2, fun _ => rfl⟩

/-- Who is in a writing section is there alone. -/
theorem alone (h : lock.Guards Reading Writing threads) {t : τ} (ht : Writing (threads t)) :
    (∀ u, Writing (threads u) → u = t) ∧ ∀ u, ¬ Reading (threads u) := by
  refine ⟨fun u hu => h.writing.eq ht hu, ?_⟩
  intro u hu
  have hnone := h.apart (by rw [h.writing.holds ht]; exact Option.some_ne_none t)
  have hsome := h.reading.pos hu
  omega

variable [DecidableEq τ] {t : τ} {b : β}

theorem read_step (h : lock.Guards Reading Writing threads) (hcan : lock.CanRead)
    (hbefore : ¬ Reading (threads t)) (hafter : Reading b)
    (hwriting : Writing b ↔ Writing (threads t)) :
    lock.read.Guards Reading Writing (update threads t b) where
  reading := h.reading.enter hbefore hafter
  writing := h.writing.keep hwriting
  apart hsome := (hsome hcan).elim

theorem write_step (h : lock.Guards Reading Writing threads) (hcan : lock.CanWrite)
    (hafter : Writing b) (hreading : Reading b ↔ Reading (threads t)) :
    (lock.write t).Guards Reading Writing (update threads t b) where
  reading := h.reading.keep hreading
  writing := by
    have hwriting := h.writing
    rw [hcan.1] at hwriting
    exact hwriting.acquire hafter
  apart _ := hcan.2

theorem unlockRead_step (h : lock.Guards Reading Writing threads)
    (hbefore : Reading (threads t)) (hafter : ¬ Reading b)
    (hwriting : Writing b ↔ Writing (threads t)) :
    lock.unlockRead.Guards Reading Writing (update threads t b) where
  reading := h.reading.leave hbefore hafter
  writing := h.writing.keep hwriting
  apart hsome := by
    rw [unlockRead, h.apart hsome]

theorem unlockWrite_step (h : lock.Guards Reading Writing threads)
    (hbefore : Writing (threads t)) (hafter : ¬ Writing b)
    (hreading : Reading b ↔ Reading (threads t)) :
    lock.unlockWrite.Guards Reading Writing (update threads t b) where
  reading := h.reading.keep hreading
  writing := h.writing.release hbefore hafter
  apart hsome := (hsome rfl).elim

theorem keep (h : lock.Guards Reading Writing threads)
    (hreading : Reading b ↔ Reading (threads t)) (hwriting : Writing b ↔ Writing (threads t)) :
    lock.Guards Reading Writing (update threads t b) :=
  ⟨h.reading.keep hreading, h.writing.keep hwriting, h.apart⟩

end Guards

end SharedLock
