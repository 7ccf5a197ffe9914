/-
A parent and a child that talk over one pipe (chapter_2/pipe/pipe.cpp).  Both
write to it and both read from it, so that a process can take back what it has
written itself.  The child displays `buf`, which is never cleared, as a string.
-/
import LinuxLearning.Lib.Cells
import LinuxLearning.Lib.Transition
import Mathlib.Data.List.Induction

namespace LinuxLearning.Chapter2.Pipe

open Cells

/-- A write of at most that many bytes is not split. -/
def PIPE_BUF : Nat := 4096

/-- `sizeof(buf)` in both processes. -/
def BUF_SIZE : Nat := 1024

/-- What the parent writes, `sizeof(msg)` bytes. -/
def parentMsg : List Byte := ascii "hello, I am parent process" ++ [0]

/-- What the child writes, `strlen(msg)` bytes. -/
def childMsg : List Byte := ascii "hello, I am child process"

/-- The call the parent makes next. -/
inductive ParentPc
  | read | write | sleep
  deriving DecidableEq

/-- The call the child makes next. -/
inductive ChildPc
  | write | sleep | read
  deriving DecidableEq

/-- The two processes behind `fork`, and what is in the pipe; `buf` is the
child's. -/
structure Processes where
  pipe : List Byte
  parent : ParentPc
  recvNum : Nat
  child : ChildPc
  sendNum : Nat
  buf : Cells

inductive Label where
  | parentRead (data : List Byte)
  | parentWrite
  | parentSleep
  | childWrite
  | childSleep
  | childRead (data : List Byte) (text : Option (List Byte))

/-- One call of one process.  `read` waits while the pipe is empty, and `write`
while there is no room for the message; neither end is ever closed. -/
inductive Step (capacity : Nat) (s : Processes) : Label → Processes → Prop
  | parentRead (hpc : s.parent = .read) (hpipe : s.pipe ≠ []) :
      Step capacity s (.parentRead (s.pipe.take BUF_SIZE))
        { s with pipe := s.pipe.drop BUF_SIZE, parent := .write, recvNum := s.recvNum + 1 }
  | parentWrite (hpc : s.parent = .write) (hroom : s.pipe.length + parentMsg.length ≤ capacity) :
      Step capacity s .parentWrite { s with pipe := s.pipe ++ parentMsg, parent := .sleep }
  | parentSleep (hpc : s.parent = .sleep) :
      Step capacity s .parentSleep { s with parent := .read }
  | childWrite (hpc : s.child = .write) (hroom : s.pipe.length + childMsg.length ≤ capacity) :
      Step capacity s .childWrite
        { s with pipe := s.pipe ++ childMsg, child := .sleep, sendNum := s.sendNum + 1 }
  | childSleep (hpc : s.child = .sleep) :
      Step capacity s .childSleep { s with child := .read }
  | childRead (hpc : s.child = .read) (hpipe : s.pipe ≠ []) :
      Step capacity s
        (.childRead (s.pipe.take BUF_SIZE) (shown (store s.buf (s.pipe.take BUF_SIZE))))
        { s with
          pipe := s.pipe.drop BUF_SIZE
          child := .write
          buf := store s.buf (s.pipe.take BUF_SIZE) }

def program (capacity : Nat) : TransitionSystem Processes Label where
  start s := s = ⟨[], .read, 0, .write, 0, unset BUF_SIZE⟩
  step := Step capacity

/-- One message is under way: the parent is about to write it, or the child is,
or it is in the pipe, whole and by itself. -/
inductive Passing (s : Processes) : Prop
  | parent (hpipe : s.pipe = []) (hparent : s.parent = .write) (hchild : s.child ≠ .write)
  | child (hpipe : s.pipe = []) (hparent : s.parent ≠ .write) (hchild : s.child = .write)
  | pipe (hpipe : s.pipe = childMsg ∨ s.pipe = parentMsg) (hparent : s.parent ≠ .write)
      (hchild : s.child ≠ .write)

/-- What the child has read. -/
def received (history : List (Processes × Label)) : List (List Byte) :=
  history.filterMap fun entry => match entry.2 with
    | .childRead data _ => some data
    | _ => none

section Display

theorem shown_child : shown (store (unset BUF_SIZE) childMsg) = none := by
  rw [store, shown_append (by decide)]
  rfl

theorem shown_parent :
    shown (store (unset BUF_SIZE) parentMsg) = some (ascii "hello, I am parent process") := by
  rfl

/-- The end of the longer message shows behind the shorter one. -/
theorem shown_mixed : shown (store (store (unset BUF_SIZE) parentMsg) childMsg) =
    some (ascii "hello, I am child processs") := by
  rfl

/-- What is in `buf` when only messages have been read: nothing, the child's
own message, the parent's, or the child's own over the parent's. -/
theorem foldl_store {msgs : List (List Byte)}
    (hmsgs : ∀ data ∈ msgs, data = childMsg ∨ data = parentMsg) :
    msgs = [] ∨
    parentMsg ∉ msgs ∧ msgs.foldl store (unset BUF_SIZE) = store (unset BUF_SIZE) childMsg ∨
    parentMsg ∈ msgs ∧ (msgs.foldl store (unset BUF_SIZE) = store (unset BUF_SIZE) parentMsg ∨
      msgs.foldl store (unset BUF_SIZE) = store (store (unset BUF_SIZE) parentMsg) childMsg) := by
  have hle : childMsg.length ≤ parentMsg.length := by decide
  induction msgs using List.reverseRecOn with
  | nil => exact Or.inl rfl
  | append_singleton msgs last ih =>
      rw [List.forall_mem_append, List.forall_mem_singleton] at hmsgs
      rw [List.foldl_append, List.foldl_cons, List.foldl_nil, List.mem_append,
        List.mem_singleton]
      right
      rcases hmsgs.2 with rfl | rfl
      · have hne : parentMsg ≠ childMsg := by decide
        rcases ih hmsgs.1 with rfl | ⟨hnot, heq⟩ | ⟨hmem, heq | heq⟩
        · exact Or.inl ⟨by simp [hne], rfl⟩
        · left
          rw [heq, store_store_of_le _ (Nat.le_refl _)]
          exact ⟨not_or.mpr ⟨hnot, hne⟩, rfl⟩
        · exact Or.inr ⟨Or.inl hmem, Or.inr (by rw [heq])⟩
        · right
          rw [heq, store_store_of_le _ (Nat.le_refl _)]
          exact ⟨Or.inl hmem, Or.inr rfl⟩
      · refine Or.inr ⟨Or.inr rfl, Or.inl ?_⟩
        rcases ih hmsgs.1 with rfl | ⟨-, heq⟩ | ⟨-, heq | heq⟩
        · rfl
        · rw [heq, store_store_of_le _ hle]
        · rw [heq, store_store_of_le _ (Nat.le_refl _)]
        · rw [heq, store_store_of_le _ hle, store_store_of_le _ (Nat.le_refl _)]

/-- What the child displays once it has read `data` behind other messages. -/
theorem shown_foldl {msgs : List (List Byte)} {data : List Byte}
    (hmsgs : ∀ d ∈ msgs ++ [data], d = childMsg ∨ d = parentMsg) :
    shown (store (msgs.foldl store (unset BUF_SIZE)) data) =
      if data = parentMsg then some (ascii "hello, I am parent process")
      else if parentMsg ∈ msgs then some (ascii "hello, I am child processs")
      else none := by
  have hle : childMsg.length ≤ parentMsg.length := by decide
  rw [List.forall_mem_append, List.forall_mem_singleton] at hmsgs
  rcases hmsgs.2 with rfl | rfl
  · rw [if_neg (by decide)]
    rcases foldl_store hmsgs.1 with rfl | ⟨hnot, heq⟩ | ⟨hmem, heq | heq⟩
    · exact shown_child
    · rw [heq, store_store_of_le _ (Nat.le_refl _), if_neg hnot, shown_child]
    · rw [heq, if_pos hmem, shown_mixed]
    · rw [heq, store_store_of_le _ (Nat.le_refl _), if_pos hmem, shown_mixed]
  · rw [if_pos rfl]
    rcases foldl_store hmsgs.1 with rfl | ⟨-, heq⟩ | ⟨-, heq | heq⟩
    · exact shown_parent
    · rw [heq, store_store_of_le _ hle, shown_parent]
    · rw [heq, store_store_of_le _ (Nat.le_refl _), shown_parent]
    · rw [heq, store_store_of_le _ hle, store_store_of_le _ (Nat.le_refl _), shown_parent]

end Display

section Step

variable {capacity : Nat} {s after : Processes} {label : Label}

/-- A read that returns takes the message from the pipe. -/
theorem Passing.take (h : Passing s) (hpipe : s.pipe ≠ []) :
    (s.pipe.take BUF_SIZE = childMsg ∨ s.pipe.take BUF_SIZE = parentMsg) ∧
      s.pipe.drop BUF_SIZE = [] ∧ s.parent ≠ .write ∧ s.child ≠ .write := by
  cases h with
  | parent hnil | child hnil => exact absurd hnil hpipe
  | pipe hmsg hparent hchild =>
      rcases hmsg with hmsg | hmsg <;> rw [hmsg]
      · exact ⟨Or.inl rfl, rfl, hparent, hchild⟩
      · exact ⟨Or.inr rfl, rfl, hparent, hchild⟩

theorem Passing.step (h : Passing s) (hstep : Step capacity s label after) : Passing after := by
  cases hstep with
  | parentRead hpc hpipe =>
      obtain ⟨-, hrest, -, hchild⟩ := h.take hpipe
      exact .parent hrest rfl hchild
  | parentWrite hpc hroom =>
      cases h with
      | parent hpipe hparent hchild =>
          exact .pipe (Or.inr (by rw [hpipe, List.nil_append])) nofun hchild
      | child _ hparent | pipe _ hparent => exact absurd hpc hparent
  | parentSleep hpc =>
      cases h with
      | parent _ hparent => rw [hpc] at hparent; cases hparent
      | child hpipe _ hchild => exact .child hpipe nofun hchild
      | pipe hpipe _ hchild => exact .pipe hpipe nofun hchild
  | childWrite hpc hroom =>
      cases h with
      | child hpipe hparent hchild =>
          exact .pipe (Or.inl (by rw [hpipe, List.nil_append])) hparent nofun
      | parent _ _ hchild | pipe _ _ hchild => exact absurd hpc hchild
  | childSleep hpc =>
      cases h with
      | child _ _ hchild => rw [hpc] at hchild; cases hchild
      | parent hpipe hparent _ => exact .parent hpipe hparent nofun
      | pipe hpipe hparent _ => exact .pipe hpipe hparent nofun
  | childRead hpc hpipe =>
      obtain ⟨-, hrest, hparent, -⟩ := h.take hpipe
      exact .child hrest hparent rfl

/-- Somebody can go on: a message about to be written has room in the pipe, and
one in the pipe is read once the child has slept. -/
theorem Passing.continues (h : Passing s) (hcapacity : PIPE_BUF ≤ capacity) :
    ∃ label after, Step capacity s label after := by
  have hroom : ∀ msg : List Byte, msg.length ≤ PIPE_BUF → s.pipe = [] →
      s.pipe.length + msg.length ≤ capacity := by
    intro msg hmsg hpipe
    rw [hpipe, List.length_nil, Nat.zero_add]
    exact hmsg.trans hcapacity
  cases h with
  | parent hpipe hparent _ => exact ⟨_, _, .parentWrite hparent (hroom _ (by decide) hpipe)⟩
  | child hpipe _ hchild => exact ⟨_, _, .childWrite hchild (hroom _ (by decide) hpipe)⟩
  | pipe hpipe hparent hchild =>
      have hne : s.pipe ≠ [] := by
        rcases hpipe with hpipe | hpipe <;> rw [hpipe] <;> decide
      cases hpc : s.child with
      | write => exact absurd hpc hchild
      | sleep => exact ⟨_, _, .childSleep hpc⟩
      | read => exact ⟨_, _, .childRead hpc hne⟩

end Step

section Runs

variable {capacity : Nat} {history : List (Processes × Label)} {s : Processes}

theorem passing (hrun : (program capacity).Run history s) : Passing s := by
  refine TransitionSystem.Reachable.invariant  ?_ ?_ ⟨history, hrun⟩
  · rintro _ rfl
    exact .child rfl nofun rfl
  · exact fun _ _ _ h hstep => h.step hstep

theorem received_append (earlier later : List (Processes × Label)) :
    received (earlier ++ later) = received earlier ++ received later :=
  List.filterMap_append

/-- `buf` is what the reads have stored, all of them messages. -/
theorem buf_of_run (hrun : (program capacity).Run history s) :
    s.buf = (received history).foldl store (unset BUF_SIZE) ∧
      ∀ data ∈ received history, data = childMsg ∨ data = parentMsg := by
  induction hrun with
  | start hstart =>
      subst hstart
      exact ⟨rfl, nofun⟩
  | @snoc history before after label hbefore hstep ih =>
      obtain ⟨hbuf, hmsgs⟩ := ih
      rw [received_append, List.foldl_append, List.forall_mem_append, ← hbuf]
      cases hstep with
      | childRead hpc hpipe =>
          refine ⟨rfl, hmsgs, ?_⟩
          rw [received, List.filterMap_cons, List.filterMap_nil, List.forall_mem_singleton]
          exact ((passing hbefore).take hpipe).1
      | _ => exact ⟨rfl, hmsgs, nofun⟩

/-- In every order of the calls one message is under way, and the two do not
both wait.  A read takes one whole message.  What the child displays is the
message of the parent; or, when it has taken back its own, that message with
the end of the parent's behind it, which is missing until it has read one. -/
theorem pipe_passes (hcapacity : PIPE_BUF ≤ capacity) (hrun : (program capacity).Run history s) :
    Passing s ∧ (∃ label after, Step capacity s label after) ∧
    (∀ entry ∈ history, ∀ data, entry.2 = .parentRead data →
      data = childMsg ∨ data = parentMsg) ∧
    ∀ earlier before data text later,
      history = earlier ++ (before, .childRead data text) :: later →
      data = childMsg ∧ text = (if parentMsg ∈ received earlier then
        some (ascii "hello, I am child processs") else none) ∨
      data = parentMsg ∧ text = some (ascii "hello, I am parent process") := by
  have hpassing := passing hrun
  refine ⟨hpassing, hpassing.continues hcapacity, ?_, ?_⟩
  · rintro ⟨before, label⟩ hentry data rfl
    obtain ⟨earlier, later, rfl⟩ := List.append_of_mem hentry
    obtain ⟨hbefore, after, hstep⟩ := hrun.split
    cases hstep with
    | parentRead hpc hpipe => exact ((passing hbefore).take hpipe).1
  · rintro earlier before data text later rfl
    obtain ⟨hbefore, after, hstep⟩ := hrun.split
    obtain ⟨hbuf, hmsgs⟩ := buf_of_run hbefore
    cases hstep with
    | childRead hpc hpipe =>
        have htake := ((passing hbefore).take hpipe).1
        have hshown := shown_foldl
          (List.forall_mem_append.mpr ⟨hmsgs, List.forall_mem_singleton.mpr htake⟩)
        rw [hbuf, hshown]
        rcases htake with hdata | hdata <;> rw [hdata]
        · exact Or.inl ⟨rfl, if_neg (by decide)⟩
        · exact Or.inr ⟨rfl, if_pos rfl⟩

/-- The child takes back its first message, before the parent reads. -/
theorem pipe_passes_back :
    ∃ history s before data text,
      (program 65536).Run (history ++ [(before, .childRead data text)]) s ∧
        data = childMsg ∧ text = none := by
  have hstart : (program 65536).Run [] ⟨[], .read, 0, .write, 0, unset BUF_SIZE⟩ := .start rfl
  have hwrite := hstart.snoc (.childWrite rfl (by decide))
  have hsleep := hwrite.snoc (.childSleep rfl)
  have hread := hsleep.snoc (.childRead rfl (by decide))
  obtain ⟨-, -, -, hshown⟩ := pipe_passes (by decide) hread
  rcases hshown [_, _] _ _ _ [] rfl with ⟨hdata, htext⟩ | ⟨hdata, -⟩
  · exact ⟨_, _, _, _, _, hread, hdata, htext⟩
  · cases hdata

end Runs

end LinuxLearning.Chapter2.Pipe
