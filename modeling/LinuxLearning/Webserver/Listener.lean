/-
The listening socket.  It is in the epoll set with EPOLLET, and `main` accepts
one connection for each event; connections that arrive while an event is still
to be reported share it, and all but one of them stay in the accept queue.
-/
import LinuxLearning.Webserver.Load
import LinuxLearning.Webserver.Ownership

namespace LinuxLearning.Webserver

universe u

/-- The server with what the kernel keeps for `listenfd`: how many connections
are in its accept queue, and whether it has an event to report. -/
structure Listener (ι : Type u) where
  server : Server ι
  pending : Nat
  ready : Bool

inductive ListenerLabel (ι : Type u) where
  | arrive
  | serve (label : Label ι)
  | aborted

/-- A step of the server that has to do with `listenfd`. -/
def Label.Listens {ι : Type u} : Label ι → Prop
  | .epollWait _ | .accept _ | .acceptFailed => True
  | _ => False

section Steps

variable {ι : Type u} [DecidableEq ι]

/-- One step of the server or of the kernel.  A connection that arrives makes
the socket ready; an event that is reported uses that up. -/
inductive ListenerStep (s : Listener ι) : ListenerLabel ι → Listener ι → Prop
  | arrive : ListenerStep s .arrive { s with pending := s.pending + 1, ready := true }
  | epollWait {events : List Event} {after : Server ι}
      (hstep : ServerStep s.server (.epollWait events) after)
      (hedge : events.count .listening ≤ if s.ready then 1 else 0) :
      ListenerStep s (.serve (.epollWait events))
        { s with server := after, ready := s.ready && !events.contains .listening }
  | accept {connfd : Nat} {after : Server ι} (hstep : ServerStep s.server (.accept connfd) after)
      (hpending : 0 < s.pending) :
      ListenerStep s (.serve (.accept connfd))
        { s with server := after, pending := s.pending - 1 }
  -- `accept` fails and leaves what is in the queue there
  | acceptFailed {after : Server ι} (hstep : ServerStep s.server .acceptFailed after) :
      ListenerStep s (.serve .acceptFailed) { s with server := after }
  -- `accept` fails because the client has given up
  | aborted {after : Server ι} (hstep : ServerStep s.server .acceptFailed after)
      (hpending : 0 < s.pending) :
      ListenerStep s .aborted { s with server := after, pending := s.pending - 1 }
  | other {label : Label ι} {after : Server ι} (hstep : ServerStep s.server label after)
      (hother : ¬ label.Listens) :
      ListenerStep s (.serve label) { s with server := after }

end Steps

/-- A step that leaves no connection without an event: an arrival gets one of
its own, and `accept` does not fail with its connection still queued. -/
def prompt {ι : Type u} (s : Listener ι) : ListenerLabel ι → Bool
  | .arrive => !s.ready
  | .serve .acceptFailed => false
  | _ => true

/-- The events for `listenfd` that are to be reported or to be handled. -/
def Listener.outstanding {ι : Type u} (s : Listener ι) : Nat :=
  (if s.ready then 1 else 0) + s.server.main.events.count .listening

section Runs

variable {ι : Type u} [DecidableEq ι] {s after : Server ι} {label : Label ι}

/-- The other steps take no event for `listenfd` out of the batch, and put
none into it. -/
theorem ServerStep.listening_of_other (hstep : ServerStep s label after)
    (hother : ¬ label.Listens) :
    after.main.events.count .listening = s.main.events.count .listening := by
  obtain ⟨users, -, hstep⟩ := hstep
  cases hstep with
  | epollWait | accept | acceptFailed => exact absurd trivial hother
  | @read fd events outcomes ok conn hmain hread hbad =>
      dsimp only at hmain
      rw [hmain]
      cases ok <;> rfl
  | @wrote fd ret events hmain =>
      dsimp only at hmain
      rw [hmain]
      cases ret <;> rfl
  | hangup hmain | startRead hmain | startWrite hmain =>
      dsimp only at hmain
      rw [hmain]
      simp [MainPc.events]
  | wake | starve | pop | openFile | process | processFile | rearm => rfl
  | _ hmain =>
      dsimp only at hmain
      rw [hmain]
      rfl

variable {history : List (Listener ι × ListenerLabel ι)} {t : Listener ι}

/-- What one step does to the connections and to the events for them. -/
theorem ListenerStep.balance {before after : Listener ι} {label : ListenerLabel ι}
    (hstep : ListenerStep before label after) {n : Nat}
    (hbalance : before.pending = before.outstanding + n) :
    after.pending = after.outstanding + (n + if prompt before label then 0 else 1) := by
  cases hstep with
  | arrive =>
      cases hready : before.ready <;>
        simp [Listener.outstanding, prompt, hready] at hbalance ⊢ <;> omega
  | @epollWait events after hstep hedge =>
      obtain ⟨users, -, hstep⟩ := hstep
      cases hstep with
      | epollWait hmain hreports =>
          dsimp only at hmain
          have hreported := List.count_pos_iff (a := Event.listening) (l := events)
          by_cases hmem : Event.listening ∈ events
          · have hpos := hreported.mpr hmem
            cases hready : before.ready with
            | false =>
                rw [hready] at hedge
                simp at hedge
                omega
            | true =>
                rw [hready] at hedge
                simp [Listener.outstanding, prompt, hready, hmain, hmem, MainPc.events]
                  at hbalance hedge ⊢
                omega
          · have hzero : events.count Event.listening = 0 := List.count_eq_zero.mpr hmem
            simp [Listener.outstanding, prompt, hmain, hmem, hzero, MainPc.events] at hbalance ⊢
            exact hbalance
  | accept hstep hpending | aborted hstep hpending =>
      obtain ⟨users, -, hstep⟩ := hstep
      cases hstep with
      | _ hmain =>
          dsimp only at hmain
          simp [Listener.outstanding, prompt, hmain, MainPc.events] at hbalance ⊢
          omega
  | acceptFailed hstep =>
      obtain ⟨users, -, hstep⟩ := hstep
      cases hstep with
      | acceptFailed hmain =>
          dsimp only at hmain
          simp [Listener.outstanding, prompt, hmain, MainPc.events] at hbalance ⊢
          omega
  | @other label after hstep hother =>
      have hsame := hstep.listening_of_other hother
      have hprompt : prompt before (.serve label) = true := by
        cases label <;> first | rfl | exact absurd trivial hother
      rw [hprompt, hbalance, Listener.outstanding, Listener.outstanding, hsame]
      rfl

end Runs

end LinuxLearning.Webserver
