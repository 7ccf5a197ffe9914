/-
chapter_4/epoll.cpp: the loop that drains a client after an event.  Its exits
stand under the test for EPOLLIN.
-/
import LinuxLearning.Lib.CString
import LinuxLearning.Lib.Turns

namespace LinuxLearning.Chapter4.Epoll

open Turns

def BUF_SIZE : Nat := 6

abbrev Events := BitVec 32

def EPOLLIN : Events := 0x001#32
def EPOLLHUP : Events := 0x010#32
def EPOLLRDHUP : Events := 0x2000#32

/-- What one `read` delivers: at least one byte, and all of them fit in
`BUF_SIZE - 1`. -/
structure Chunk where
  bytes : List Byte
  nonempty : bytes ≠ []
  fits : bytes.length ≤ BUF_SIZE - 1

/-- How a sequence of reads ends. -/
inductive Last
  | eagain | eof | error
deriving Repr, DecidableEq

/-- What the loop prints. -/
inductive Output
  | closing | receive (text : List Byte) | disconnect
deriving Repr, DecidableEq

/-- A client with an event: the mask `epoll_wait` reported, what `read` has
still to return, and what has been printed and sent. -/
structure Client where
  events : Events
  chunks : List Chunk
  last : Last
  printed : List Output
  sent : List (List Byte)

/-- How the loop is left: by a `break`, after the client has been closed, or
with `return -1` after that. -/
inductive Leave
  | drained | closed | failed
deriving Repr, DecidableEq

/-- `buf` after a `read` of the chunk. -/
def filled (chunk : Chunk) : Buffer BUF_SIZE := (Buffer.zero BUF_SIZE).blit 0 chunk.bytes

/-- `if ((epevs[i].events & EPOLLRDHUP) || (epevs[i].events & EPOLLRDHUP))` -/
def noteHangUp (c : Client) : Client :=
  if c.events &&& EPOLLRDHUP ≠ 0 ∨ c.events &&& EPOLLRDHUP ≠ 0 then
    if c.events &&& EPOLLIN ≠ 0 then { c with printed := c.printed ++ [.closing] } else c
  else c

/-- The body of the inner `while (1)`. -/
def drainTurn (c : Client) : Client ⊕ Leave × Client :=
  let c := noteHangUp c
  if c.events &&& EPOLLIN ≠ 0 then
    match c.chunks with
    | [] =>
        match c.last with
        | .eagain => .inr (.drained, c)
        | .error => .inr (.failed, c)
        | .eof => .inr (.closed, { c with printed := c.printed ++ [.disconnect] })
    | chunk :: chunks =>
        let text := CString.cstr (filled chunk) 0
        .inl { c with
          chunks
          printed := c.printed ++ [.receive text]
          sent := c.sent ++ [text ++ [0]] }
  else
    .inl c

/-- The loop ends. -/
def DrainEnds (c : Client) : Prop := ∃ result, Ends drainTurn c result

variable {c : Client}

@[simp] theorem noteHangUp_events : (noteHangUp c).events = c.events := by
  unfold noteHangUp
  split_ifs <;> rfl

@[simp] theorem noteHangUp_chunks : (noteHangUp c).chunks = c.chunks := by
  unfold noteHangUp
  split_ifs <;> rfl

/-- Without EPOLLIN a turn changes nothing. -/
theorem drainTurn_blind (hin : c.events &&& EPOLLIN = 0) :
    drainTurn c = .inl (noteHangUp c) := by
  rw [drainTurn, noteHangUp_events, if_neg (not_not.mpr hin)]

/-- With EPOLLIN a turn reads: it takes a chunk or leaves. -/
theorem drainTurn_readable (hin : c.events &&& EPOLLIN ≠ 0) :
    (∃ result, drainTurn c = .inr result) ∨
      ∃ after, drainTurn c = .inl after ∧ after.events &&& EPOLLIN ≠ 0 ∧
        after.chunks.length < c.chunks.length := by
  rw [drainTurn, noteHangUp_events, if_pos hin, noteHangUp_chunks]
  cases c.chunks with
  | nil =>
      left
      cases (noteHangUp c).last <;> exact ⟨_, rfl⟩
  | cons chunk chunks =>
      right
      exact ⟨_, rfl, by simpa using hin, Nat.lt_succ_self _⟩

/-- Without EPOLLIN there is no way out. -/
theorem not_drained (hin : c.events &&& EPOLLIN = 0) : ¬ DrainEnds c := by
  refine not_ends (I := fun c => c.events &&& EPOLLIN = 0) ?_ hin
  intro c hin
  exact ⟨noteHangUp c, drainTurn_blind hin, by rwa [noteHangUp_events]⟩

/-- The loop ends exactly for the masks with EPOLLIN. -/
theorem drainEnds_iff (c : Client) : DrainEnds c ↔ c.events &&& EPOLLIN ≠ 0 := by
  constructor
  · exact fun hends hin => not_drained hin hends
  · intro hin
    obtain ⟨result, hends, -⟩ :=
      ends_of_measure (I := fun c : Client => c.events &&& EPOLLIN ≠ 0)
        (P := fun _ => True) (fun c => c.chunks.length) (fun c hin => by
          rcases drainTurn_readable hin with ⟨result, hleave⟩ | hagain
          · exact .inl ⟨result, hleave, trivial⟩
          · exact .inr hagain) hin
    exact ⟨result, hends⟩

/-- A client that hung up, and nothing to read. -/
def hungUp : Client := ⟨EPOLLHUP, [], .eof, [], []⟩

theorem hungUp_not_drained : ¬ ∀ c : Client, DrainEnds c := by
  intro h
  exact not_drained (by decide) (h hungUp)

end LinuxLearning.Chapter4.Epoll
