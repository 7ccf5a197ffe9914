/-
The epoll set as the kernel keeps it for the client descriptors: what `modfd`
does to an entry, what can be reported, and that a report disarms.
-/
import LinuxLearning.Webserver.HttpConn

namespace LinuxLearning.Webserver

def MAX_EVENT_NUMBER : Nat := 10000

/-- A client descriptor in the epoll set: EPOLLONESHOT disarms it when it is
reported. -/
inductive EpollEntry where
  | disarmed
  | armed (ev : Interest)
deriving Repr, DecidableEq

/-- The events of a client, by the branch `main` takes for them. -/
inductive EventKind where
  | hangup | input | output
deriving Repr, DecidableEq

/-- The events that can be reported with that interest: a hang-up always. -/
def EventKind.Fits (ev : Interest) : EventKind → Prop
  | .hangup => True
  | .input => ev = .epollin
  | .output => ev = .epollout

inductive Event where
  | listening
  | client (fd : Nat) (kind : EventKind)
deriving Repr, DecidableEq

/-- The clients of a batch of events. -/
def clientsOf (events : List Event) : List Nat :=
  events.filterMap fun event => match event with
    | .listening => none
    | .client fd _ => some fd

/-- What a system call does to the entry of `fd`; `modfd` fails on a
descriptor that is not in the set. -/
def SysCall.onEntry (fd : Nat) (entry : Option EpollEntry) : SysCall → Option EpollEntry
  | .modfd n ev => if n = fd ∧ entry ≠ none then some (.armed ev) else entry
  | .mmap _ _ | .munmap _ _ => entry

/-- The entry of `fd` after some system calls. -/
def runEntry (fd : Nat) (entry : Option EpollEntry) (calls : List SysCall) :
    Option EpollEntry :=
  calls.foldl (SysCall.onEntry fd) entry

/-- The epoll set after some system calls. -/
def runCalls (epoll : Nat → Option EpollEntry) (calls : List SysCall) :
    Nat → Option EpollEntry :=
  fun fd => runEntry fd (epoll fd) calls

/-- What `epoll_wait` can report: armed descriptors, each once, and the
listening socket. -/
structure Reports (epoll : Nat → Option EpollEntry) (events : List Event) : Prop where
  length_le : events.length ≤ MAX_EVENT_NUMBER
  nodup : (clientsOf events).Nodup
  armed : ∀ fd kind, Event.client fd kind ∈ events →
    ∃ ev, epoll fd = some (.armed ev) ∧ kind.Fits ev

/-- EPOLLONESHOT -/
def disarm (epoll : Nat → Option EpollEntry) (events : List Event) :
    Nat → Option EpollEntry :=
  fun fd => if fd ∈ clientsOf events then some .disarmed else epoll fd

@[simp] theorem clientsOf_nil : clientsOf [] = [] := rfl

@[simp] theorem clientsOf_listening (events : List Event) :
    clientsOf (.listening :: events) = clientsOf events := rfl

@[simp] theorem clientsOf_client (fd : Nat) (kind : EventKind) (events : List Event) :
    clientsOf (.client fd kind :: events) = fd :: clientsOf events := rfl

theorem mem_clientsOf {fd : Nat} {events : List Event} :
    fd ∈ clientsOf events ↔ ∃ kind, Event.client fd kind ∈ events := by
  induction events with
  | nil => simp
  | cons event events ih =>
      cases event with
      | listening => simp [ih]
      | client other kind =>
          simp only [clientsOf_client, List.mem_cons, ih, Event.client.injEq]
          constructor
          · rintro (rfl | ⟨k, hk⟩)
            · exact ⟨kind, Or.inl ⟨rfl, rfl⟩⟩
            · exact ⟨k, Or.inr hk⟩
          · rintro ⟨k, ⟨rfl, rfl⟩ | hk⟩
            · exact Or.inl rfl
            · exact Or.inr ⟨k, hk⟩

/-- The event of a client in a batch. -/
def kindOf (fd : Nat) : List Event → Option EventKind
  | [] => none
  | .listening :: events => kindOf fd events
  | .client n kind :: events => if n = fd then some kind else kindOf fd events

/-- A descriptor is reported once, with one event. -/
theorem kindOf_eq_some {fd : Nat} {kind : EventKind} {events : List Event}
    (hnodup : (clientsOf events).Nodup) :
    kindOf fd events = some kind ↔ Event.client fd kind ∈ events := by
  induction events with
  | nil => simp [kindOf]
  | cons event events ih =>
      cases event with
      | listening =>
          rw [clientsOf_listening] at hnodup
          simpa [kindOf] using ih hnodup
      | client n other =>
          rw [clientsOf_client, List.nodup_cons] at hnodup
          rw [kindOf, List.mem_cons, Event.client.injEq]
          by_cases hn : n = fd
          · subst hn
            have hrest : Event.client n kind ∉ events := fun hmem =>
              hnodup.1 (mem_clientsOf.mpr ⟨kind, hmem⟩)
            rw [if_pos rfl, Option.some.injEq]
            simp [hrest, eq_comm]
          · rw [if_neg hn, ih hnodup.2]
            simp [Ne.symm hn]

theorem runEntry_append (fd : Nat) (entry : Option EpollEntry) (first second : List SysCall) :
    runEntry fd entry (first ++ second) = runEntry fd (runEntry fd entry first) second :=
  List.foldl_append

/-- Calls about other descriptors leave an entry alone. -/
theorem runEntry_of_other {fd : Nat} {calls : List SysCall}
    (h : ∀ n ev, SysCall.modfd n ev ∈ calls → n ≠ fd) (entry : Option EpollEntry) :
    runEntry fd entry calls = entry := by
  induction calls generalizing entry with
  | nil => rfl
  | cons call calls ih =>
      have hcall : call.onEntry fd entry = entry := by
        cases call with
        | modfd n ev =>
            have hne := h n ev List.mem_cons_self
            exact if_neg fun hboth => hne hboth.1
        | mmap addr len => rfl
        | munmap address len => rfl
      have hrest := ih (fun n ev hmem => h n ev (List.mem_cons_of_mem _ hmem)) entry
      rw [runEntry, List.foldl_cons, hcall]
      exact hrest

/-- Nothing takes an entry out of the set. -/
theorem runEntry_eq_none {fd : Nat} {entry : Option EpollEntry} (calls : List SysCall) :
    runEntry fd entry calls = none ↔ entry = none := by
  induction calls generalizing entry with
  | nil => exact Iff.rfl
  | cons call calls ih =>
      rw [runEntry, List.foldl_cons]
      refine ih.trans ?_
      cases call with
      | modfd n ev =>
          rw [SysCall.onEntry]
          split
          · rename_i hboth
            simp [hboth.2]
          · exact Iff.rfl
      | mmap addr len => exact Iff.rfl
      | munmap address len => exact Iff.rfl

/-- Calls that end with a `modfd` of an entry arm it. -/
theorem runEntry_modfd {fd : Nat} {entry : Option EpollEntry} (hentry : entry ≠ none)
    (calls : List SysCall) (ev : Interest) :
    runEntry fd entry (calls ++ [.modfd fd ev]) = some (.armed ev) := by
  have hrest : runEntry fd entry calls ≠ none := fun h => hentry ((runEntry_eq_none calls).mp h)
  rw [runEntry_append]
  exact if_pos ⟨rfl, hrest⟩

end LinuxLearning.Webserver
