/-
How the process pool hands connections on (CGI/process_pool.cpp).  The parent
turns every event for `m_listenfd` into an integer in the pipe of a child, and
the child takes one connection for every integer it has read.  Both sockets
are in their epoll sets with EPOLLET, so what arrives while an event is still
to be reported shares it.  The other end of a child's pipe is with the parent
and with the children that were forked later: when they are gone there is an
event once more, and `recv` returns 0 behind the last integer.
-/
import LinuxLearning.Chapter5.ProcessPool
import LinuxLearning.Lib.Account

namespace LinuxLearning.Chapter5.ProcessPool

universe u

/-- The sockets that `run_parent` is told of. -/
inductive ParentEvent where
  | listen
  | signal
deriving Repr, DecidableEq

/-- The sockets that `run_child` is told of; `stops` says whether SIGTERM or
SIGINT is among the signals. -/
inductive ChildEvent where
  | pipe
  | signal (stops : Bool)
  | client
deriving Repr, DecidableEq

/-- `run_parent`: the events that are still to be handled, or behind the
loop. -/
inductive ParentPc where
  | handling (events : List ParentEvent)
  | ended
deriving Repr, DecidableEq

/-- `run_child`: the events that are still to be handled, also between `recv`
and `accept`, or behind the loop. -/
inductive ChildPc where
  | handling (events : List ChildEvent)
  | accepting (events : List ChildEvent)
  | ended
deriving Repr, DecidableEq

/-- A child: the integers in its pipe, whether epoll has an event for the pipe
to report, whether nobody has the other end any more, and `m_stop`. -/
structure Child where
  tokens : Nat
  ready : Bool
  hungUp : Bool
  mStop : Bool
  pc : ChildPc
deriving Repr, DecidableEq

/-- The pool: the connections in the accept queue, whether epoll has an event
for `m_listenfd` to report, the parent and the children. -/
structure Pool (κ : Type u) where
  queue : List κ
  ready : Bool
  parent : Parent
  parentPc : ParentPc
  children : Nat → Child

inductive PoolLabel (κ : Type u) where
  | arrive (connection : κ)
  | parentWait (events : List ParentEvent)
  | dispatch (sent : Dispatch)
  | parentSignal
  | parentEnd
  | childWait (i : Nat) (events : List ChildEvent)
  | hangUp (i : Nat)
  | recv (i : Nat)
  | recvEnd (i : Nat)
  | recvFailed (i : Nat)
  | accept (i : Nat) (connection : κ)
  | acceptFailed (i : Nat)
  | aborted (i : Nat) (connection : κ)
  | childSignal (i : Nat)
  | client (i : Nat)
  | childEnd (i : Nat)

/-- The child that calls `accept`. -/
def PoolLabel.acceptor {κ : Type u} : PoolLabel κ → Option Nat
  | .accept i _ | .acceptFailed i | .aborted i _ => some i
  | _ => none

namespace Child

/-- An integer that is written to the pipe of a child. -/
def receive (c : Child) : Child :=
  if c.pc = .ended then c else { c with tokens := c.tokens + 1, ready := true }

/-- The events for the pipe that are to be reported or to be handled. -/
def edges (c : Child) : Nat :=
  match c.pc with
  | .handling events | .accepting events => c.ready.toNat + events.count .pipe
  | .ended => 0

/-- The integers that a child may still read. -/
def unread (c : Child) : Nat :=
  match c.pc with
  | .ended => 0
  | _ => c.tokens

/-- The connections that a child may still take. -/
def toTake (c : Child) : Nat :=
  match c.pc with
  | .accepting _ => c.tokens + 1
  | _ => c.unread

end Child

/-- The events for `m_listenfd` in a batch. -/
def ParentPc.listens : ParentPc → Nat
  | .handling events => events.count .listen
  | .ended => 0

namespace Pool

variable {κ : Type u}

open Function

def setChild (s : Pool κ) (i : Nat) (c : Child) : Pool κ :=
  { s with children := update s.children i c }

/-- One step of the parent, of a child or of the kernel. -/
inductive Step (s : Pool κ) : PoolLabel κ → Pool κ → Prop
  | arrive (connection : κ) :
      Step s (.arrive connection)
        { s with queue := s.queue ++ [connection], ready := s.ready || s.parentPc != .ended }
  | parentWait {events : List ParentEvent} (hpc : s.parentPc = .handling [])
      (hstop : s.parent.mStop = false)
      (hreported : events.count .listen ≤ s.ready.toNat) :
      Step s (.parentWait events)
        { s with ready := s.ready && !events.contains .listen, parentPc := .handling events }
  | sent {events : List ParentEvent} {next : Parent} {child : Nat} {pipefd : Int}
      (hpc : s.parentPc = .handling (.listen :: events))
      (hdispatch : s.parent.dispatch = some (next, .sent child pipefd)) :
      Step s (.dispatch (.sent child pipefd))
        ({ s with parent := next, parentPc := .handling events }.setChild child
          (s.children child).receive)
  -- no child is left: `break` leaves the rest of the batch
  | stopped {events : List ParentEvent} {next : Parent}
      (hpc : s.parentPc = .handling (.listen :: events))
      (hdispatch : s.parent.dispatch = some (next, .stopped)) :
      Step s (.dispatch .stopped) { s with parent := next, parentPc := .handling [] }
  -- the branch for `sig_pipefd[0]` writes `m_pid` and `m_stop` only
  | parentSignal {events : List ParentEvent} {next : Parent}
      (hpc : s.parentPc = .handling (.signal :: events))
      (hnumber : next.mProcessNumber = s.parent.mProcessNumber)
      (hcounter : next.subProcessCounter = s.parent.subProcessCounter) :
      Step s .parentSignal { s with parent := next, parentPc := .handling events }
  -- `m_stop`, `epoll_wait` fails, or the process is killed
  | parentEnd (hpc : s.parentPc ≠ .ended) :
      Step s .parentEnd { s with ready := false, parentPc := .ended }
  | childWait {i : Nat} {events : List ChildEvent} (hi : i < s.parent.mProcessNumber)
      (hpc : (s.children i).pc = .handling []) (hstop : (s.children i).mStop = false)
      (hreported : events.count .pipe ≤ (s.children i).ready.toNat) :
      Step s (.childWait i events)
        (s.setChild i { s.children i with
          ready := (s.children i).ready && !events.contains .pipe, pc := .handling events })
  -- the last process that has the other end of a pipe exits
  | hangUp {i : Nat} (hi : i < s.parent.mProcessNumber) (hpc : (s.children i).pc ≠ .ended)
      (hopen : (s.children i).hungUp = false) (hparent : s.parentPc = .ended)
      (hlater : ∀ j, i < j → j < s.parent.mProcessNumber → (s.children j).pc = .ended) :
      Step s (.hangUp i) (s.setChild i { s.children i with ready := true, hungUp := true })
  -- `recv` of a full integer, or with EAGAIN, which the code lets pass
  | recv {i : Nat} {events : List ChildEvent} (hi : i < s.parent.mProcessNumber)
      (hpc : (s.children i).pc = .handling (.pipe :: events))
      (hread : 0 < (s.children i).tokens ∨ (s.children i).hungUp = false) :
      Step s (.recv i)
        (s.setChild i { s.children i with
          tokens := (s.children i).tokens - 1, pc := .accepting events })
  -- `ret == 0`: `continue`
  | recvEnd {i : Nat} {events : List ChildEvent} (hi : i < s.parent.mProcessNumber)
      (hpc : (s.children i).pc = .handling (.pipe :: events))
      (hempty : (s.children i).tokens = 0) (hend : (s.children i).hungUp = true) :
      Step s (.recvEnd i)
        (s.setChild i { s.children i with pc := .handling events })
  -- another error than EAGAIN: `continue`
  | recvFailed {i : Nat} {events : List ChildEvent} (hi : i < s.parent.mProcessNumber)
      (hpc : (s.children i).pc = .handling (.pipe :: events)) :
      Step s (.recvFailed i)
        (s.setChild i { s.children i with pc := .handling events })
  | accept {i : Nat} {events : List ChildEvent} {connection : κ} {rest : List κ}
      (hi : i < s.parent.mProcessNumber) (hpc : (s.children i).pc = .accepting events)
      (hqueue : s.queue = connection :: rest) :
      Step s (.accept i connection)
        ({ s with queue := rest }.setChild i { s.children i with pc := .handling events })
  -- `accept` fails and leaves the queue as it is
  | acceptFailed {i : Nat} {events : List ChildEvent} (hi : i < s.parent.mProcessNumber)
      (hpc : (s.children i).pc = .accepting events) :
      Step s (.acceptFailed i)
        (s.setChild i { s.children i with pc := .handling events })
  -- `accept` fails because the client has given up
  | aborted {i : Nat} {events : List ChildEvent} {connection : κ} {rest : List κ}
      (hi : i < s.parent.mProcessNumber) (hpc : (s.children i).pc = .accepting events)
      (hqueue : s.queue = connection :: rest) :
      Step s (.aborted i connection)
        ({ s with queue := rest }.setChild i { s.children i with pc := .handling events })
  | childSignal {i : Nat} {events : List ChildEvent} {stops : Bool}
      (hi : i < s.parent.mProcessNumber)
      (hpc : (s.children i).pc = .handling (.signal stops :: events)) :
      Step s (.childSignal i)
        (s.setChild i { s.children i with
          mStop := (s.children i).mStop || stops, pc := .handling events })
  | client {i : Nat} {events : List ChildEvent} (hi : i < s.parent.mProcessNumber)
      (hpc : (s.children i).pc = .handling (.client :: events)) :
      Step s (.client i)
        (s.setChild i { s.children i with pc := .handling events })
  -- as for the parent
  | childEnd {i : Nat} (hi : i < s.parent.mProcessNumber) (hpc : (s.children i).pc ≠ .ended) :
      Step s (.childEnd i)
        (s.setChild i { s.children i with pc := .ended })

/-- `run` has just been called in all processes; the children were forked with
the parent's `m_stop`. -/
structure Starts (s : Pool κ) : Prop where
  queue : s.queue = []
  ready : s.ready = false
  counter : s.parent.subProcessCounter = 0
  parentPc : s.parentPc = .handling []
  children : ∀ i, s.children i = ⟨0, false, false, s.parent.mStop, .handling []⟩

/-- The integers in the pipes of the children that run. -/
def unread (s : Pool κ) : Nat :=
  totalWeight (Finset.range s.parent.mProcessNumber) Child.unread s.children

/-- What is under way: events for `m_listenfd`, and what the children may still
take. -/
def underWay (s : Pool κ) : Nat :=
  s.ready.toNat + s.parentPc.listens +
    totalWeight (Finset.range s.parent.mProcessNumber) Child.toTake s.children

/-- The connections that a step leaves without an event or an integer: one that
arrives while an event is still to be reported, an event that the parent drops,
an integer for a child that has ended, an `accept` that fails, and what a
process has not been told of or has not read when it ends. -/
def leftBehind (s : Pool κ) : PoolLabel κ → Nat
  | .arrive _ => if s.ready ∨ s.parentPc = .ended then 1 else 0
  | .dispatch (.sent child _) => if (s.children child).pc = .ended then 1 else 0
  | .dispatch .stopped => s.parentPc.listens
  | .parentEnd => s.ready.toNat + s.parentPc.listens
  | .acceptFailed _ => 1
  | .childEnd i => (s.children i).toTake
  | _ => 0

end Pool

/-- The pool from its start on. -/
def handoff (κ : Type u) : TransitionSystem (Pool κ) (PoolLabel κ) where
  start := Pool.Starts
  step := Pool.Step

/-- An event that is reported is in the batch instead. -/
theorem reported_add {α : Type u} [BEq α] [LawfulBEq α] {a : α} {events : List α} {ready : Bool}
    (h : events.count a ≤ ready.toNat) :
    (ready && !events.contains a).toNat + events.count a = ready.toNat := by
  by_cases hmem : a ∈ events
  · have hpos := List.count_pos_iff.mpr hmem
    cases ready with
    | false => exact absurd hpos (Nat.not_lt.mpr h)
    | true =>
        have hone : events.count a = 1 := Nat.le_antisymm h hpos
        simp [hmem, hone]
  · have hzero : events.count a = 0 := List.count_eq_zero.mpr hmem
    simp [hmem, hzero]

namespace Child

variable {c : Child} {events : List ChildEvent}

theorem edges_handling (hpc : c.pc = .handling events) :
    c.edges = c.ready.toNat + events.count .pipe := by
  rw [edges, hpc]

theorem toTake_handling (hpc : c.pc = .handling events) : c.toTake = c.tokens := by
  rw [toTake, hpc, unread, hpc]

theorem toTake_accepting (hpc : c.pc = .accepting events) : c.toTake = c.tokens + 1 := by
  rw [toTake, hpc]

theorem toTake_ended (hpc : c.pc = .ended) : c.toTake = 0 := by
  rw [toTake, hpc, unread, hpc]

/-- What an integer adds to what a child may take. -/
theorem toTake_receive (c : Child) :
    c.receive.toTake + (if c.pc = .ended then 1 else 0) = c.toTake + 1 := by
  cases hpc : c.pc with
  | ended =>
      rw [receive, if_pos hpc, toTake_ended hpc]
      rfl
  | handling events | accepting events => simp [receive, toTake, unread, hpc]

theorem receive_pc (c : Child) : c.receive.pc = c.pc := by
  rw [receive]
  split <;> rfl

theorem receive_hungUp (c : Child) : c.receive.hungUp = c.hungUp := by
  rw [receive]
  split <;> rfl

/-- There is an integer for every event, as long as somebody has the other end
of the pipe. -/
def Told (c : Child) : Prop := c.hungUp = false → c.edges ≤ c.tokens

theorem Told.receive (h : c.Told) : c.receive.Told := by
  intro hopen
  rw [receive_hungUp] at hopen
  have hedges := h hopen
  cases hend : c.pc <;> cases hready : c.ready <;>
    simp [Child.receive, edges, hend, hready] at hedges ⊢ <;> omega

end Child

namespace Parent

variable {p next : Parent}

theorem dispatch_sent (hcounter : p.subProcessCounter < p.mProcessNumber) {child : Nat}
    {pipefd : Int} (h : p.dispatch = some (next, .sent child pipefd)) :
    child < p.mProcessNumber ∧ next.mProcessNumber = p.mProcessNumber := by
  rcases dispatch_cases hcounter h with ⟨-, hsent⟩ | ⟨d, -, -, -, rfl, hsent⟩
  · cases hsent
  · obtain ⟨rfl, -⟩ := Dispatch.sent.inj hsent
    exact ⟨Nat.mod_lt _ p.pos, rfl⟩

theorem dispatch_number (hcounter : p.subProcessCounter < p.mProcessNumber) {sent : Dispatch}
    (h : p.dispatch = some (next, sent)) : next.mProcessNumber = p.mProcessNumber := by
  rcases dispatch_cases hcounter h with ⟨rfl, -⟩ | ⟨d, -, -, -, rfl, -⟩ <;> rfl

end Parent

namespace Pool

open Function TransitionSystem

variable {κ : Type u} {s after : Pool κ} {label : PoolLabel κ}

/-- Who has the other end of the pipe of a child is gone: the parent, and the
children that were forked later. -/
def Alone (s : Pool κ) (i : Nat) : Prop :=
  s.parentPc = .ended ∧ ∀ j, i < j → j < s.parent.mProcessNumber → (s.children j).pc = .ended

/-- The counter is an index, there is an integer for every event of a pipe, and
a pipe that has hung up has nobody at the other end. -/
structure Sound (s : Pool κ) : Prop where
  counter : s.parent.subProcessCounter < s.parent.mProcessNumber
  told : ∀ i, (s.children i).Told
  alone : ∀ i, (s.children i).hungUp = true → s.Alone i

theorem Starts.sound (h : s.Starts) : s.Sound where
  counter := by
    rw [h.counter]
    exact s.parent.pos
  told i := by
    rw [h.children]
    exact fun _ => Nat.zero_le _
  alone i hend := by
    rw [h.children] at hend
    cases hend

@[simp] theorem setChild_self (s : Pool κ) (i : Nat) (c : Child) :
    (s.setChild i c).children i = c :=
  update_self ..

theorem setChild_of_ne (s : Pool κ) {i j : Nat} (hj : j ≠ i) (c : Child) :
    (s.setChild i c).children j = s.children j :=
  update_of_ne hj ..

/-- A change of one child that leaves it ended if it has ended. -/
theorem Sound.setChild (h : s.Sound) {i : Nat} {c : Child} (htold : c.Told)
    (hended : (s.children i).pc = .ended → c.pc = .ended)
    (halone : c.hungUp = true → s.Alone i) : (s.setChild i c).Sound := by
  have hkept : ∀ j, s.Alone j → (s.setChild i c).Alone j := by
    rintro j ⟨hparent, hlater⟩
    refine ⟨hparent, fun k hjk hk => ?_⟩
    by_cases hki : k = i
    · subst hki
      rw [setChild_self]
      exact hended (hlater k hjk hk)
    · rw [setChild_of_ne s hki]
      exact hlater k hjk hk
  refine ⟨h.counter, fun j => ?_, fun j hend => hkept j ?_⟩
  · by_cases hj : j = i
    · subst hj
      rwa [setChild_self]
    · rw [setChild_of_ne s hj]
      exact h.told j
  · by_cases hj : j = i
    · subst hj
      rw [setChild_self] at hend
      exact halone hend
    · rw [setChild_of_ne s hj] at hend
      exact h.alone j hend

/-- A step of a child that runs. -/
theorem Sound.setRunning (h : s.Sound) {i : Nat} {c : Child} (htold : c.Told)
    (hrunning : (s.children i).pc ≠ .ended) (hsame : c.hungUp = (s.children i).hungUp) :
    (s.setChild i c).Sound := by
  refine h.setChild htold (fun hended => absurd hended hrunning) fun hend => ?_
  exact h.alone i (hsame.symm.trans hend)

/-- A step of the parent, which runs: no pipe has hung up. -/
theorem Sound.parentStep (h : s.Sound) {next : Parent} {parentPc : ParentPc} {ready : Bool}
    (hpc : s.parentPc ≠ .ended) (hcounter : next.subProcessCounter < next.mProcessNumber) :
    Sound { s with parent := next, parentPc := parentPc, ready := ready } :=
  ⟨hcounter, h.told, fun i hend => absurd (h.alone i hend).1 hpc⟩

/-- A child that has handled an event for its pipe. -/
theorem Sound.told_tail (h : s.Sound) {i : Nat} {event : ChildEvent} {events : List ChildEvent}
    (hpc : (s.children i).pc = .handling (event :: events)) {mStop : Bool} :
    Child.Told { s.children i with mStop := mStop, pc := .handling events } := by
  intro hopen
  have hedges := h.told i hopen
  rw [Child.edges_handling hpc] at hedges
  rw [Child.edges_handling rfl]
  exact (Nat.add_le_add_left (List.count_le_count_cons) _).trans hedges

/-- A child that has called `accept`. -/
theorem Sound.told_accepted (h : s.Sound) {i : Nat} {events : List ChildEvent}
    (hpc : (s.children i).pc = .accepting events) :
    Child.Told { s.children i with pc := .handling events } := by
  intro hopen
  have hedges := h.told i hopen
  rw [Child.edges, hpc] at hedges
  exact hedges

theorem Sound.step (h : s.Sound) (hstep : Step s label after) : after.Sound := by
  cases hstep with
  | arrive => exact ⟨h.counter, h.told, h.alone⟩
  | parentWait hpc => exact h.parentStep (by rw [hpc]; exact nofun) h.counter
  | parentEnd hpc => exact h.parentStep hpc h.counter
  | @sent events next child pipefd hpc hdispatch =>
      have hsound : Sound { s with parent := next, parentPc := .handling events } :=
        h.parentStep (by rw [hpc]; exact nofun) (Parent.dispatch_counter h.counter hdispatch)
      refine hsound.setChild (h.told child).receive ?_ ?_
      · exact fun hended => (Child.receive_pc _).trans hended
      · rw [Child.receive_hungUp]
        exact hsound.alone child
  | stopped hpc hdispatch =>
      exact h.parentStep (by rw [hpc]; exact nofun) (Parent.dispatch_counter h.counter hdispatch)
  | parentSignal hpc hnumber hcounter =>
      refine h.parentStep (by rw [hpc]; exact nofun) ?_
      rw [hnumber, hcounter]
      exact h.counter
  | @childWait i events hi hpc hstop hreported =>
      refine h.setRunning (fun hopen => ?_) (by rw [hpc]; exact nofun) rfl
      have hedges := h.told i hopen
      rw [Child.edges_handling hpc] at hedges
      rw [Child.edges_handling rfl]
      dsimp only
      rwa [reported_add hreported]
  | hangUp hi hpc hopen hparent hlater =>
      refine h.setChild (fun hend => ?_) (fun hended => absurd hended hpc) fun _ => ?_
      · cases hend
      · exact ⟨hparent, hlater⟩
  | @recv i events hi hpc hread =>
      refine h.setRunning (fun hopen => ?_) (by rw [hpc]; exact nofun) rfl
      have hedges := h.told i hopen
      simp [Child.edges, hpc] at hedges ⊢
      omega
  | recvEnd hi hpc | recvFailed hi hpc | childSignal hi hpc | client hi hpc =>
      exact h.setRunning (h.told_tail hpc) (by rw [hpc]; exact nofun) rfl
  | @accept i events connection rest hi hpc | @aborted i events connection rest hi hpc =>
      have hsound : Sound { s with queue := rest } := ⟨h.counter, h.told, h.alone⟩
      exact hsound.setRunning (h.told_accepted hpc) (by dsimp only; rw [hpc]; exact nofun) rfl
  | acceptFailed hi hpc =>
      exact h.setRunning (h.told_accepted hpc) (by rw [hpc]; exact nofun) rfl
  | childEnd hi hpc => exact h.setRunning (fun _ => Nat.zero_le _) hpc rfl

theorem handoff_sound (hreach : (handoff κ).Reachable s) : s.Sound := by
  refine hreach.invariant ?_ ?_
  · exact fun _ hstart => Starts.sound hstart
  · exact fun _ _ _ hsound hstep => hsound.step hstep

/-- `recv` never comes back with EAGAIN. -/
theorem Sound.reads (h : s.Sound) {i : Nat} {events : List ChildEvent}
    (hpc : (s.children i).pc = .handling (.pipe :: events))
    (hread : 0 < (s.children i).tokens ∨ (s.children i).hungUp = false) :
    0 < (s.children i).tokens := by
  rcases hread with htokens | hopen
  · exact htokens
  · have hedges := h.told i hopen
    rw [Child.edges_handling hpc, List.count_cons_self] at hedges
    omega

/-- A child that is to take fewer connections. -/
theorem underWay_setChild (s : Pool κ) {i : Nat} (hi : i < s.parent.mProcessNumber) {c : Child}
    {fewer : Nat} (h : (s.children i).toTake = c.toTake + fewer) :
    s.underWay = (s.setChild i c).underWay + fewer := by
  have hweight := totalWeight_update Child.toTake s.children (Finset.mem_range.mpr hi) c
  simp only [underWay, setChild]
  omega

theorem balance_setChild {n left : Nat} (hbalance : s.queue.length = s.underWay + n) {i : Nat}
    (hi : i < s.parent.mProcessNumber) {c : Child}
    (h : (s.children i).toTake = c.toTake + left) :
    s.queue.length = (s.setChild i c).underWay + (n + left) := by
  rw [hbalance, s.underWay_setChild hi h]
  omega

theorem toTake_le_underWay (s : Pool κ) {i : Nat} (hi : i < s.parent.mProcessNumber) :
    (s.children i).toTake ≤ s.underWay := by
  have hweight := le_totalWeight Child.toTake s.children (Finset.mem_range.mpr hi)
  rw [underWay]
  omega

/-- What one step does to the connections and to what is under way for them. -/
theorem Step.balance (hsound : s.Sound) (hstep : Step s label after) {n : Nat}
    (hbalance : s.queue.length = s.underWay + n) :
    after.queue.length = after.underWay + (n + s.leftBehind label) := by
  cases hstep with
  | arrive connection =>
      by_cases hended : s.parentPc = .ended
      · cases hready : s.ready <;> simp [underWay, leftBehind, hready, hended] at hbalance ⊢ <;> omega
      · have hne : (s.parentPc != .ended) = true := by simpa using hended
        cases hready : s.ready <;>
          simp [underWay, leftBehind, hready, hended, hne] at hbalance ⊢ <;> omega
  | @parentWait events hpc hstop hreported =>
      have hmoved := reported_add hreported
      simp only [underWay, leftBehind, ParentPc.listens, hpc, List.count_nil] at hbalance ⊢
      omega
  | @sent events next child pipefd hpc hdispatch =>
      obtain ⟨hchild, hnumber⟩ := Parent.dispatch_sent hsound.counter hdispatch
      have hmoved := Child.toTake_receive (s.children child)
      have hweight := totalWeight_update Child.toTake s.children (Finset.mem_range.mpr hchild)
        (s.children child).receive
      simp only [underWay, leftBehind, setChild, ParentPc.listens, hpc, hnumber,
        List.count_cons_self] at hbalance ⊢
      omega
  | stopped hpc hdispatch =>
      have hnumber := Parent.dispatch_number hsound.counter hdispatch
      simp only [underWay, leftBehind, ParentPc.listens, hpc, hnumber, List.count_nil]
        at hbalance ⊢
      omega
  | parentSignal hpc hnumber hcounter =>
      simp [underWay, leftBehind, ParentPc.listens, hpc, hnumber] at hbalance ⊢
      omega
  | parentEnd hpc =>
      simp only [underWay, leftBehind, ParentPc.listens, Bool.toNat_false] at hbalance ⊢
      omega
  | childWait hi hpc | recvEnd hi hpc | recvFailed hi hpc | childSignal hi hpc | client hi hpc =>
      refine balance_setChild hbalance hi ?_
      rw [Child.toTake_handling hpc, Child.toTake_handling rfl]
      rfl
  | hangUp hi => exact balance_setChild hbalance hi rfl
  | @recv i events hi hpc hread =>
      have htoken := hsound.reads hpc hread
      refine balance_setChild hbalance hi ?_
      rw [Child.toTake_handling hpc, Child.toTake_accepting rfl]
      exact (Nat.sub_add_cancel htoken).symm
  | @accept i events connection rest hi hpc hqueue
  | @aborted i events connection rest hi hpc hqueue =>
      have htake : (s.children i).toTake =
          ({ s.children i with pc := .handling events } : Child).toTake + 1 := by
        rw [Child.toTake_accepting hpc, Child.toTake_handling rfl]
      have hlength : s.queue.length = rest.length + 1 := by rw [hqueue, List.length_cons]
      have hunderWay := s.underWay_setChild hi htake
      change rest.length = (s.setChild i _).underWay + (n + 0)
      omega
  | acceptFailed hi hpc =>
      refine balance_setChild hbalance hi ?_
      rw [Child.toTake_accepting hpc, Child.toTake_handling rfl]
      rfl
  | childEnd hi hpc =>
      refine balance_setChild hbalance hi ?_
      exact (Nat.zero_add _).symm

/-- Who calls `accept` has read an integer for it. -/
theorem Step.accepting (hstep : Step s label after) {i : Nat} (h : label.acceptor = some i) :
    i < s.parent.mProcessNumber ∧ ∃ events, (s.children i).pc = .accepting events := by
  cases hstep with
  | accept hi hpc | acceptFailed hi hpc | aborted hi hpc =>
      obtain rfl := Option.some.inj h
      exact ⟨hi, _, hpc⟩
  | _ => cases h

end Pool

section Runs

open TransitionSystem

variable {κ : Type u} {history : List (Pool κ × PoolLabel κ)} {s : Pool κ}

/-- The connections that have arrived, in order. -/
def arrived (history : List (Pool κ × PoolLabel κ)) : List κ :=
  history.filterMap fun entry => match entry.2 with
    | .arrive connection => some connection
    | _ => none

/-- The connections that have left the accept queue, in order. -/
def taken (history : List (Pool κ × PoolLabel κ)) : List κ :=
  history.filterMap fun entry => match entry.2 with
    | .accept _ connection | .aborted _ connection => some connection
    | _ => none

/-- Connections are taken in the order of their arrival, each once. -/
theorem handoff_order (hrun : (handoff κ).Run history s) :
    arrived history = taken history ++ s.queue := by
  induction hrun with
  | start hstart => rw [Pool.Starts.queue hstart]; rfl
  | @snoc history before after label _ hstep ih =>
      rw [arrived, taken, List.filterMap_append, List.filterMap_append, ← arrived, ← taken, ih]
      cases hstep with
      | arrive connection => simp
      | accept hi hpc hqueue | aborted hi hpc hqueue => simp [hqueue, Pool.setChild]
      | _ => simp [Pool.setChild]

/-- The connections in the accept queue: those that an event or an integer is
under way for, and those that a step has left behind. -/
theorem handoff_account (hrun : (handoff κ).Run history s) :
    s.queue.length = s.underWay + totalCost Pool.leftBehind history := by
  refine Run.account (fun s => s.queue.length) Pool.underWay Pool.leftBehind ?_ ?_ hrun
  · intro s hstart
    have hidle : ∀ i ∈ Finset.range s.parent.mProcessNumber, (s.children i).toTake = 0 := by
      intro i _
      rw [Pool.Starts.children hstart]
      rfl
    rw [Pool.underWay, totalWeight_eq_zero hidle, Pool.Starts.queue hstart,
      Pool.Starts.ready hstart, Pool.Starts.parentPc hstart]
    rfl
  · intro before label after n hreach hstep hbalance
    exact hstep.balance (Pool.handoff_sound hreach) hbalance

/-- A child that is about to call `accept` finds a connection. -/
theorem handoff_offers (hrun : (handoff κ).Run history s) {i : Nat}
    (hi : i < s.parent.mProcessNumber) {events : List ChildEvent}
    (hpc : (s.children i).pc = .accepting events) : s.queue ≠ [] := by
  have haccount := handoff_account hrun
  have htake := s.toTake_le_underWay hi
  rw [Child.toTake_accepting hpc] at htake
  rw [← List.length_pos_iff]
  omega

/-- Nothing is under way. -/
structure Pool.AtRest (s : Pool κ) : Prop where
  ready : s.ready = false
  parent : s.parentPc = .handling [] ∨ s.parentPc = .ended
  children : ∀ i < s.parent.mProcessNumber, (s.children i).pc = .ended ∨
    ((s.children i).ready = false ∧ (s.children i).pc = .handling [])

theorem Pool.AtRest.underWay (h : s.AtRest) : s.underWay = s.unread := by
  have hidle : ∀ i ∈ Finset.range s.parent.mProcessNumber,
      (s.children i).toTake = (s.children i).unread := by
    intro i hi
    rcases h.children i (Finset.mem_range.mp hi) with hended | ⟨-, hpc⟩
    · rw [Child.toTake, hended]
    · rw [Child.toTake, hpc]
  have hlistens : s.parentPc.listens = 0 := by
    rcases h.parent with hpc | hpc <;> rw [hpc] <;> rfl
  rw [Pool.underWay, Pool.unread, h.ready, hlistens, totalWeight, Finset.sum_congr rfl hidle]
  exact Nat.zero_add _

/-- In every run connections are taken in the order of their arrival, each
once; a child whose `recv` lets it go on has read an integer, one whose `recv`
returns 0 has nobody at the other end, and one that calls `accept` finds a
connection; and at rest the queue holds a connection for each integer that no
event is left for and those that the steps of the run have left behind, so that
it is empty exactly if there are none of either. -/
theorem handoff_conserves (hrun : (handoff κ).Run history s) :
    arrived history = taken history ++ s.queue ∧
    (∀ entry ∈ history, ∀ i, entry.2 = .recv i → 0 < (entry.1.children i).tokens) ∧
    (∀ entry ∈ history, ∀ i, entry.2 = .recvEnd i → entry.1.Alone i) ∧
    (∀ entry ∈ history, ∀ i, entry.2.acceptor = some i → entry.1.queue ≠ []) ∧
    s.underWay ≤ s.queue.length ∧
    (s.AtRest → s.queue.length = s.unread + totalCost Pool.leftBehind history ∧
      (s.queue = [] ↔ s.unread = 0 ∧ ∀ entry ∈ history, entry.1.leftBehind entry.2 = 0)) := by
  have haccount := handoff_account hrun
  have hsplit : ∀ entry ∈ history, entry.1.Sound ∧
      (∀ i, entry.2.acceptor = some i → entry.1.queue ≠ []) ∧
      ∃ after, Pool.Step entry.1 entry.2 after := by
    rintro ⟨before, label⟩ hentry
    obtain ⟨earlier, later, rfl⟩ := List.append_of_mem hentry
    obtain ⟨hbefore, after, hstep⟩ := hrun.split
    refine ⟨Pool.handoff_sound ⟨_, hbefore⟩, fun i hlabel => ?_, after, hstep⟩
    obtain ⟨hi, events, hpc⟩ := hstep.accepting hlabel
    exact handoff_offers hbefore hi hpc
  refine ⟨handoff_order hrun, ?_, ?_, fun entry hentry => (hsplit entry hentry).2.1, ?_, ?_⟩
  · rintro ⟨before, label⟩ hentry i rfl
    obtain ⟨hsound, -, after, hstep⟩ := hsplit _ hentry
    cases hstep with
    | recv hi hpc hread => exact hsound.reads hpc hread
  · rintro ⟨before, label⟩ hentry i rfl
    obtain ⟨hsound, -, after, hstep⟩ := hsplit _ hentry
    cases hstep with
    | recvEnd hi hpc hempty hend => exact hsound.alone i hend
  · omega
  · intro hrest
    have hlength : s.queue.length = s.unread + totalCost Pool.leftBehind history := by
      rw [haccount, hrest.underWay]
    refine ⟨hlength, ?_⟩
    rw [← List.length_eq_zero_iff, hlength, Nat.add_eq_zero_iff]
    exact and_congr_right fun _ => totalCost_eq_zero_iff

/-- A pool of two children. -/
def twoChildren : Pool Nat where
  queue := []
  ready := false
  parent := {
    mSubProcess := fun i => if i = 0 then ⟨10, 5, 6⟩ else ⟨11, 7, 8⟩
    mProcessNumber := 2
    mStop := false
    subProcessCounter := 0
    pos := Nat.two_pos }
  parentPc := .handling []
  children := fun _ => ⟨0, false, false, false, .handling []⟩

/-- Two connections that share an event, so that one of them is left behind;
then the parent goes, and a child that is told of its pipe finds the end. -/
theorem handoff_conserves_two :
    ∃ history s, (handoff Nat).Run history s ∧ arrived history = [7, 8] ∧ s.queue = [8] ∧
      s.unread + totalCost Pool.leftBehind history = 1 ∧
      (∃ before, (before, PoolLabel.recvEnd 1) ∈ history ∧ before.Alone 1) := by
  have hstart : (handoff Nat).Run [] twoChildren := .start ⟨rfl, rfl, rfl, rfl, fun _ => rfl⟩
  have hfirst := hstart.snoc (.arrive 7)
  have hsecond := hfirst.snoc (.arrive 8)
  have hwait := hsecond.snoc
    (.parentWait rfl rfl (by decide : [ParentEvent.listen].count .listen ≤ 1))
  have hsent := hwait.snoc (.sent rfl rfl)
  have htold := hsent.snoc (.childWait (i := 0) (by decide) rfl rfl
    (by decide : [ChildEvent.pipe].count .pipe ≤ 1))
  have hrecv := htold.snoc (.recv (i := 0) (by decide) rfl (Or.inl (by decide)))
  have haccept := hrecv.snoc (.accept (i := 0) (by decide) rfl rfl)
  have hparent := haccept.snoc (.parentEnd nofun)
  have hhungUp := hparent.snoc (.hangUp (i := 1) (by decide) nofun rfl rfl
    fun j hj hj' => absurd hj (Nat.not_lt.mpr (Nat.le_of_lt_succ hj')))
  have hend := (hhungUp.snoc (.childWait (i := 1) (by decide) rfl rfl
    (by decide : [ChildEvent.pipe].count .pipe ≤ 1))).snoc
    (.recvEnd (i := 1) (by decide) rfl rfl rfl)
  obtain ⟨-, -, halone, -, -, hrest⟩ := handoff_conserves hend
  have hmem : ∀ {l : List (Pool Nat × PoolLabel Nat)} {entry}, entry ∈ l ++ [entry] :=
    List.mem_append_right _ (List.mem_singleton_self _)
  refine ⟨_, _, hend, rfl, rfl, ?_, _, hmem, halone _ hmem 1 rfl⟩
  refine (hrest ⟨rfl, Or.inr rfl, ?_⟩).1.symm
  intro i _
  rcases i with _ | _ | i <;> exact Or.inr ⟨rfl, rfl⟩

end Runs

end LinuxLearning.Chapter5.ProcessPool
