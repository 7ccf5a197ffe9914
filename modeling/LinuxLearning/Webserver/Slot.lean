/-
One slot of `users` on its own: the life of a connection as a transition
system over the phases it goes through, its entry in the epoll set, and the
system calls made for it.  Who acts on the slot is part of its phase.
-/
import LinuxLearning.Lib.Transition
import LinuxLearning.Webserver.Epoll
import LinuxLearning.Webserver.Read
import LinuxLearning.Webserver.Write

namespace LinuxLearning.Webserver

universe u

open CString

namespace HttpConn

variable {fs : List Byte → FsAnswer} {fellOff : Option HttpCode}

/-- `close_conn` leaves -1 in `m_sockfd`, and nothing else differs. -/
theorem closeConn_fst (c : HttpConn) (userCount : Int) :
    (c.closeConn userCount).1 = c.setSockfd (-1) := by
  unfold closeConn
  split
  · rfl
  · rename_i hclosed
    rw [Decidable.not_not] at hclosed
    rw [← hclosed]
    rfl

theorem mmapCall_modfd (address : FileAddress) (len : Nat) (fd : Int) (ev : Interest) :
    SysCall.modfd fd ev ∉ address.mmapCall len := by
  cases address <;> simp [FileAddress.mmapCall]

/-- What `process_read` leaves: the response as it was, and either no file, or
one whose mapping it has asked for. -/
structure ReadOutcome (fs : List Byte → FsAnswer) (fellOff : Option HttpCode) (c : HttpConn)
    (out : HttpCode × HttpConn × List SysCall) : Prop where
  sockfd : out.2.1.sockfd = c.sockfd
  writeIdx : out.2.1.writeIdx = c.writeIdx
  file : match c.fileAnswer fs fellOff with
    | none => out.2.1.fileAddress = c.fileAddress ∧ out.2.2 = []
    | some answer => ∃ st, answer.stat = some st ∧ out.1 = .fileRequest ∧
        out.2.1.fileStat = st ∧ out.2.1.fileAddress = answer.mmap st.size ∧
        out.2.2 = (answer.mmap st.size).mmapCall st.size

theorem processRead_outcome (fs : List Byte → FsAnswer) (fellOff : Option HttpCode)
    (c : HttpConn) : ReadOutcome fs fellOff c (c.processRead fs fellOff) := by
  have houtput := readRequest_output fellOff c
  cases hread : c.readRequest fellOff with
  | mk mid result =>
      rw [hread] at houtput
      have hsockfd : mid.sockfd = c.sockfd := congrArg Output.sockfd houtput
      have hwriteIdx : mid.writeIdx = c.writeIdx := congrArg Output.writeIdx houtput
      have haddress : mid.fileAddress = c.fileAddress := congrArg Output.fileAddress houtput
      have hprocess : c.processRead fs fellOff = answerRequest fs (mid, result) := by
        rw [processRead, hread]
      rw [hprocess]
      cases result with
      | code ret =>
          have hfile : c.fileAnswer fs fellOff = none := by
            rw [fileAnswer, hread]
          refine ⟨hsockfd, hwriteIdx, ?_⟩
          rw [hfile]
          exact ⟨haddress, rfl⟩
      | doRequest =>
          have hshape := doRequest_shape fs mid
          refine ⟨?_, ?_, ?_⟩
          · rw [answerRequest, hshape]
            exact hsockfd
          · rw [answerRequest, hshape]
            exact hwriteIdx
          · rw [fileAnswer, hread]
            dsimp only [answerRequest]
            generalize hanswer : fs (cstr mid.buildPath.realFile 0) = answer
            cases hstat : answer.stat with
            | none =>
                rw [doRequest_noResource hanswer hstat]
                exact ⟨haddress, rfl⟩
            | some st =>
                dsimp only
                cases hworld : st.worldReadable with
                | false =>
                    rw [doRequest_forbidden hanswer hstat hworld]
                    exact ⟨haddress, rfl⟩
                | true =>
                    cases hdir : st.isDir with
                    | true =>
                        rw [doRequest_directory hanswer hstat hworld hdir]
                        exact ⟨haddress, rfl⟩
                    | false =>
                        rw [doRequest_file hanswer hstat hworld hdir]
                        exact ⟨st, hstat, rfl, rfl, rfl, rfl⟩

/-- `process_read` rearms nothing. -/
theorem ReadOutcome.modfd {c : HttpConn} {out : HttpCode × HttpConn × List SysCall}
    (h : ReadOutcome fs fellOff c out) (fd : Int) (ev : Interest) :
    SysCall.modfd fd ev ∉ out.2.2 := by
  have hfile := h.file
  cases hanswer : c.fileAnswer fs fellOff with
  | none =>
      rw [hanswer] at hfile
      rw [hfile.2]
      exact List.not_mem_nil
  | some answer =>
      rw [hanswer] at hfile
      obtain ⟨st, -, -, -, -, hsys⟩ := hfile
      rw [hsys]
      exact mmapCall_modfd _ _ _ _

/-- How `process` ends, behind `process_read`: it waits for more, it has a
response queued, or it has closed the slot.  Its last call is a `modfd`. -/
theorem process_cases {c : HttpConn} {code : HttpCode} {mid : HttpConn} {sys : List SysCall}
    (hread : c.processRead fs fellOff = (code, mid, sys)) (userCount : Int) :
    (code = .noRequest ∧ c.process fs fellOff userCount =
      (mid, userCount, sys ++ [.modfd mid.sockfd .epollin])) ∨
    (code ≠ .noRequest ∧ (mid.processWrite code).1 = true ∧
      c.process fs fellOff userCount =
        ((mid.processWrite code).2, userCount, sys ++ [.modfd mid.sockfd .epollout])) ∨
    (code ≠ .noRequest ∧ (mid.processWrite code).1 = false ∧
      (c.process fs fellOff userCount).1 = (mid.processWrite code).2.setSockfd (-1) ∧
      (c.process fs fellOff userCount).2.2 = sys ++ [.modfd (-1) .epollout]) := by
  by_cases hcode : code = .noRequest
  · exact Or.inl ⟨hcode, by simp [process, hread, hcode]⟩
  · cases hwrite : (mid.processWrite code).1 with
    | true => exact Or.inr (Or.inl ⟨hcode, rfl, process_queued userCount hread hcode hwrite⟩)
    | false =>
        have hclose := closeConn_fst (mid.processWrite code).2 userCount
        refine Or.inr (Or.inr ⟨hcode, rfl, ?_, ?_⟩)
        · simp [process, hread, hcode, hwrite, hclose]
        · simp [process, hread, hcode, hwrite, hclose, setSockfd]

/-- The descriptor `process` leaves in the slot, and its last call. -/
theorem process_sockfd (fs : List Byte → FsAnswer) (fellOff : Option HttpCode) (c : HttpConn)
    (userCount : Int) :
    ((c.process fs fellOff userCount).1.sockfd = c.sockfd ∨
      (c.process fs fellOff userCount).1.sockfd = -1) ∧
    ∃ sys ev, (c.process fs fellOff userCount).2.2 =
        sys ++ [.modfd (c.process fs fellOff userCount).1.sockfd ev] ∧
      ∀ fd ev, SysCall.modfd fd ev ∉ sys := by
  have houtcome := processRead_outcome fs fellOff c
  cases hread : c.processRead fs fellOff with
  | mk code rest =>
      obtain ⟨mid, sys⟩ := rest
      rw [hread] at houtcome
      have hsockfd : mid.sockfd = c.sockfd := houtcome.sockfd
      have hwritten := processWrite_sockfd mid code
      rcases process_cases hread userCount with ⟨-, heq⟩ | ⟨-, -, heq⟩ | ⟨-, -, hconn, hcalls⟩
      · rw [heq]
        exact ⟨Or.inl hsockfd, sys, .epollin, rfl, houtcome.modfd⟩
      · rw [heq]
        refine ⟨Or.inl (hwritten.trans hsockfd), sys, .epollout, ?_, houtcome.modfd⟩
        rw [hwritten]
      · rw [hconn, hcalls]
        exact ⟨Or.inr rfl, sys, .epollout, rfl, houtcome.modfd⟩

/-- `unmap` rearms nothing. -/
theorem unmap_modfd (c : HttpConn) (n : Int) (ev : Interest) :
    SysCall.modfd n ev ∉ c.unmap.2 := by
  unfold unmap
  split <;> simp

/-- The descriptor `write` leaves in the slot, and the one it rearms. -/
theorem write_sockfd {mem : Nat → Byte} {c : HttpConn} {outcomes : List WritevOutcome}
    {r : WriteResult} (h : write mem c outcomes = some r) :
    r.conn.sockfd = c.sockfd ∧ (∀ n ev, SysCall.modfd n ev ∈ r.calls → n = c.sockfd) ∧
      (r.ret = true → ∃ sys ev, r.calls = sys ++ [.modfd c.sockfd ev]) := by
  have hunmap := unmap_modfd c
  have hconn := unmap_sockfd c
  rcases write_cases h with ⟨-, -, hc, hcalls⟩ | ⟨-, ⟨-, hc, hcalls⟩ | ⟨hret, hc, hcalls⟩ |
    ⟨-, hc, hcalls⟩ | ⟨hret, hc, hcalls⟩⟩
  · rw [hc, hcalls]
    exact ⟨rfl, by simp, fun _ => ⟨[], _, rfl⟩⟩
  · rw [hc, hcalls]
    exact ⟨rfl, by simp, fun _ => ⟨[], _, rfl⟩⟩
  · rw [hc, hcalls, hret]
    exact ⟨hconn, fun n ev hmem => absurd hmem (hunmap n ev), nofun⟩
  · rw [hc, hcalls]
    refine ⟨hconn, ?_, fun _ => ⟨_, _, rfl⟩⟩
    intro n ev hmem
    rcases List.mem_append.mp hmem with hmem | hmem
    · exact absurd hmem (hunmap n ev)
    · simp at hmem
      exact hmem.1
  · rw [hc, hcalls, hret]
    refine ⟨hconn, ?_, nofun⟩
    intro n ev hmem
    rcases List.mem_append.mp hmem with hmem | hmem
    · exact absurd hmem (hunmap n ev)
    · simp at hmem
      exact hmem.1

end HttpConn

/-- What `main` is doing with a slot.  `accepted` is between `accept` and the
test of `m_user_count`, `adding` between `addfd` and the rest of `init_conn`,
`written` behind the last `modfd` of `write`. -/
inductive MainStage where
  | accepted | refusing | admitted | adding | reading | appending | writing
  | written (ret : Bool)
  | closing
deriving Repr, DecidableEq

/-- What a worker is doing with a slot: it is in `process`, at last before the
`modfd` that ends it. -/
inductive WorkerStage where
  | processing
  | rearming (calls : List SysCall)
deriving Repr, DecidableEq

/-- Where a slot is: without a descriptor, with nobody but the kernel,
reported and not yet handled, with `main`, in the work queue, or with a
worker. -/
inductive Phase (ι : Type u) where
  | unused
  | idle
  | reported (kind : EventKind)
  | main (stage : MainStage)
  | queued
  | worker (w : ι) (stage : WorkerStage)

/-- The phases before `addfd`. -/
def Phase.Outside {ι : Type u} : Phase ι → Prop
  | .unused | .main .accepted | .main .refusing | .main .admitted => True
  | _ => False

/-- The phases in which a slot can be armed: the last access of the thread
that has armed it, or behind it. -/
def Phase.Released {ι : Type u} : Phase ι → Prop
  | .idle | .main .adding | .main (.written _) | .main .closing => True
  | _ => False

/-- A slot: its phase, its connection, its entry in the epoll set, and the
system calls made for it so far. -/
structure Slot (ι : Type u) where
  phase : Phase ι
  conn : HttpConn
  entry : Option EpollEntry
  calls : List SysCall

inductive SlotLabel where
  | accept | refuse | showError | allow | addfd | initialise
  | report (kind : EventKind)
  | hangup | startRead | startWrite
  | read (outcomes : List RecvOutcome)
  | append | drop | pop
  | process (fs : List Byte → FsAnswer) (fellOff : Option HttpCode)
  | rearm
  | write (outcomes : List WritevOutcome)
  | wrote | close

/-- One step of the slot with descriptor `fd`. -/
inductive SlotStep {ι : Type u} (fd : Nat) (a : Slot ι) : SlotLabel → Slot ι → Prop
  | accept (hphase : a.phase = .unused) :
      SlotStep fd a .accept { a with phase := .main .accepted }
  | refuse (hphase : a.phase = .main .accepted) :
      SlotStep fd a .refuse { a with phase := .main .refusing }
  | showError (hphase : a.phase = .main .refusing) :
      SlotStep fd a .showError { a with phase := .unused }
  | allow (hphase : a.phase = .main .accepted) :
      SlotStep fd a .allow { a with phase := .main .admitted }
  | addfd (hphase : a.phase = .main .admitted) :
      SlotStep fd a .addfd
        { a with
          phase := .main .adding
          conn := a.conn.setSockfd fd
          entry := some (.armed .epollin) }
  | initialise (hphase : a.phase = .main .adding) :
      SlotStep fd a .initialise { a with phase := .idle, conn := a.conn.init }
  | report {kind : EventKind} {ev : Interest} (hphase : a.phase = .idle)
      (hentry : a.entry = some (.armed ev)) (hfits : kind.Fits ev) :
      SlotStep fd a (.report kind) { a with phase := .reported kind, entry := some .disarmed }
  | hangup (hphase : a.phase = .reported .hangup) :
      SlotStep fd a .hangup { a with phase := .main .closing }
  | startRead (hphase : a.phase = .reported .input) :
      SlotStep fd a .startRead { a with phase := .main .reading }
  | startWrite (hphase : a.phase = .reported .output) :
      SlotStep fd a .startWrite { a with phase := .main .writing }
  | read {outcomes : List RecvOutcome} {ok : Bool} {after : HttpConn}
      (hphase : a.phase = .main .reading) (hread : a.conn.read outcomes = some (ok, after))
      (hbad : a.conn.sockfd = -1 → ∀ outcome ∈ outcomes, outcome = .error) :
      SlotStep fd a (.read outcomes)
        { a with phase := .main (if ok then .appending else .closing), conn := after }
  | append (hphase : a.phase = .main .appending) :
      SlotStep fd a .append { a with phase := .queued }
  -- `append` found the queue full, and `main` goes on
  | drop (hphase : a.phase = .main .appending) :
      SlotStep fd a .drop { a with phase := .idle }
  | pop {w : ι} (hphase : a.phase = .queued) :
      SlotStep fd a .pop { a with phase := .worker w .processing }
  | process {w : ι} {fs : List Byte → FsAnswer} {fellOff : Option HttpCode}
      (userCount : Int) (hphase : a.phase = .worker w .processing) :
      SlotStep fd a (.process fs fellOff)
        { a with
          phase := .worker w (.rearming (a.conn.process fs fellOff userCount).2.2)
          conn := (a.conn.process fs fellOff userCount).1
          calls := a.calls ++ (a.conn.process fs fellOff userCount).2.2 }
  | rearm {w : ι} {calls : List SysCall} (hphase : a.phase = .worker w (.rearming calls)) :
      SlotStep fd a .rearm
        { a with phase := .idle, entry := runEntry fd a.entry calls }
  | write {outcomes : List WritevOutcome} {mem : Nat → Byte} {r : WriteResult}
      (hphase : a.phase = .main .writing) (hwrite : a.conn.write mem outcomes = some r)
      (hbad : a.conn.sockfd = -1 → ∀ outcome ∈ outcomes, outcome = .error) :
      SlotStep fd a (.write outcomes)
        { a with
          phase := .main (.written r.ret)
          conn := r.conn
          entry := runEntry fd a.entry r.calls
          calls := a.calls ++ r.calls }
  | wrote {ret : Bool} (hphase : a.phase = .main (.written ret)) :
      SlotStep fd a .wrote { a with phase := if ret then .idle else .main .closing }
  | close (userCount : Int) (hphase : a.phase = .main .closing) :
      SlotStep fd a .close { a with phase := .idle, conn := (a.conn.closeConn userCount).1 }

/-- The standard streams, the listening socket and the epoll instance. -/
def SERVER_FDS : Nat := 5

/-- A slot before its first connection. -/
structure SlotStarts {ι : Type u} (fd : Nat) (a : Slot ι) : Prop where
  phase : a.phase = .unused
  sockfd : SERVER_FDS ≤ fd → a.conn.sockfd ≠ fd
  fileAddress : a.conn.fileAddress = .null
  entry : a.entry = none
  calls : a.calls = []

/-- The slot with descriptor `fd`, on its own. -/
def slotSystem (ι : Type u) (fd : Nat) : TransitionSystem (Slot ι) SlotLabel where
  start := SlotStarts fd
  step a label after := SlotStep fd a label after

/-- What relates a slot's phase, its descriptor and its epoll entry, whatever
the slot held before its first connection. -/
structure Steady {ι : Type u} (fd : Nat) (a : Slot ι) : Prop where
  entered : a.entry = none ↔ a.phase.Outside
  own : a.entry ≠ none → a.conn.sockfd = fd ∨ a.conn.sockfd = -1
  armed : ∀ ev, a.entry = some (.armed ev) → a.phase.Released
  rearming : ∀ w calls, a.phase = .worker w (.rearming calls) →
    ∃ sys ev, calls = sys ++ [.modfd a.conn.sockfd ev] ∧ ∀ n ev, SysCall.modfd n ev ∉ sys

/-- And up to its first connection a client's slot does not have its own
descriptor. -/
structure Coherent {ι : Type u} (fd : Nat) (a : Slot ι) : Prop extends Steady fd a where
  fresh : SERVER_FDS ≤ fd → a.entry = none → a.conn.sockfd ≠ fd

section Coherence

variable {ι : Type u} {fd : Nat} {a b : Slot ι}

theorem Steady.has_entry (h : Steady fd a) (hphase : ¬ a.phase.Outside) : a.entry ≠ none :=
  fun hnone => hphase (h.entered.mp hnone)

/-- Only the phase differs, and both are phases behind `addfd`. -/
theorem Steady.advance (h : Steady fd a) {phase : Phase ι} (hbefore : ¬ a.phase.Outside)
    (hafter : ¬ phase.Outside) (hreleased : a.phase.Released → phase.Released)
    (hrearming : ∀ w calls, phase ≠ .worker w (.rearming calls)) :
    Steady fd { a with phase := phase } where
  entered := ⟨fun hnone => absurd (h.entered.mp hnone) hbefore, fun hout => absurd hout hafter⟩
  own := h.own
  armed := fun ev hentry => hreleased (h.armed ev hentry)
  rearming := fun w calls hphase => absurd hphase (hrearming w calls)

/-- Only the phase differs, and both are phases before `addfd`. -/
theorem Steady.outside (h : Steady fd a) {phase : Phase ι} (hbefore : a.phase.Outside)
    (hafter : phase.Outside) : Steady fd { a with phase := phase } := by
  have hnone : a.entry = none := h.entered.mpr hbefore
  refine ⟨⟨fun _ => hafter, fun _ => hnone⟩, h.own, ?_, ?_⟩
  · intro ev hentry
    rw [hnone] at hentry
    cases hentry
  · rintro w calls rfl
    exact hafter.elim

/-- The connection may change as long as its descriptor is its own. -/
theorem Steady.withConn (h : Steady fd a) (conn : HttpConn)
    (hown : conn.sockfd = a.conn.sockfd ∨ (a.entry ≠ none ∧ conn.sockfd = -1))
    (hrearming : ∀ w calls, a.phase ≠ .worker w (.rearming calls)) :
    Steady fd { a with conn := conn } := by
  refine ⟨h.entered, ?_, h.armed, fun w calls hphase => absurd hphase (hrearming w calls)⟩
  intro hentry
  rcases hown with hsame | ⟨-, hclosed⟩
  · rw [hsame]
    exact h.own hentry
  · exact Or.inr hclosed

theorem SlotStarts.coherent (h : SlotStarts fd a) : Coherent fd a where
  entered := by simp [h.entry, h.phase, Phase.Outside]
  fresh := fun hclient _ => h.sockfd hclient
  own := fun hentry => absurd h.entry hentry
  armed := by simp [h.entry]
  rearming := by simp [h.phase]

/-- Every step keeps a slot steady. -/
theorem SlotStep.steady {label : SlotLabel} (hstep : SlotStep fd a label b)
    (h : Steady fd a) : Steady fd b := by
  cases hstep with
  | accept hphase => exact h.outside (by rw [hphase]; trivial) trivial
  | refuse hphase => exact h.outside (by rw [hphase]; trivial) trivial
  | showError hphase => exact h.outside (by rw [hphase]; trivial) trivial
  | allow hphase => exact h.outside (by rw [hphase]; trivial) trivial
  | addfd hphase =>
      exact ⟨⟨nofun, False.elim⟩, fun _ => Or.inl rfl, fun _ _ => trivial, nofun⟩
  | initialise hphase =>
      have hconn := h.withConn a.conn.init (Or.inl rfl) (by rw [hphase]; exact nofun)
      refine hconn.advance ?_ id (fun _ => trivial) nofun
      rw [hphase]
      exact id
  | report hphase hentry hfits =>
      have hsome : a.entry ≠ none := by
        rw [hentry]
        exact nofun
      exact ⟨⟨nofun, False.elim⟩, fun _ => h.own hsome, nofun, nofun⟩
  | hangup hphase =>
      exact h.advance (by rw [hphase]; exact id) id (fun _ => trivial) nofun
  | startRead hphase =>
      exact h.advance (by rw [hphase]; exact id) id (by rw [hphase]; exact False.elim) nofun
  | startWrite hphase =>
      exact h.advance (by rw [hphase]; exact id) id (by rw [hphase]; exact False.elim) nofun
  | @read outcomes ok after hphase hread hbad =>
      obtain ⟨data, rfl⟩ := HttpConn.read_recv hread
      have hconn := h.withConn (HttpConn.recvBytes data a.conn) (Or.inl rfl)
        (by rw [hphase]; exact nofun)
      refine hconn.advance (by rw [hphase]; exact id) ?_ (by rw [hphase]; exact False.elim) nofun
      cases ok <;> exact id
  | append hphase =>
      exact h.advance (by rw [hphase]; exact id) id (by rw [hphase]; exact False.elim) nofun
  | drop hphase =>
      exact h.advance (by rw [hphase]; exact id) id (fun _ => trivial) nofun
  | pop hphase =>
      exact h.advance (by rw [hphase]; exact id) id (by rw [hphase]; exact False.elim) nofun
  | @process w fs fellOff userCount hphase =>
      have hsome : a.entry ≠ none := h.has_entry (by rw [hphase]; exact id)
      obtain ⟨hsockfd, hcalls⟩ := HttpConn.process_sockfd fs fellOff a.conn userCount
      refine ⟨⟨fun hnone => absurd hnone hsome, False.elim⟩, fun _ => ?_, fun ev hentry => ?_, ?_⟩
      · rcases hsockfd with hsame | hclosed
        · rw [hsame]
          exact h.own hsome
        · exact Or.inr hclosed
      · have hreleased := h.armed ev hentry
        rw [hphase] at hreleased
        exact hreleased.elim
      · intro w' calls heq
        obtain ⟨-, hrearming⟩ := Phase.worker.inj heq
        rw [← WorkerStage.rearming.inj hrearming]
        exact hcalls
  | rearm hphase =>
      have hsome : a.entry ≠ none := h.has_entry (by rw [hphase]; exact id)
      exact ⟨⟨fun hnone => absurd ((runEntry_eq_none _).mp hnone) hsome, False.elim⟩,
        fun _ => h.own hsome, fun _ _ => trivial, nofun⟩
  | write hphase hwrite hbad =>
      have hsome : a.entry ≠ none := h.has_entry (by rw [hphase]; exact id)
      have hsockfd := (HttpConn.write_sockfd hwrite).1
      refine ⟨⟨fun hnone => absurd ((runEntry_eq_none _).mp hnone) hsome, False.elim⟩,
        fun _ => ?_, fun _ _ => trivial, nofun⟩
      rw [hsockfd]
      exact h.own hsome
  | @wrote ret hphase =>
      refine h.advance (by rw [hphase]; exact id) ?_ (fun _ => ?_) ?_
      · cases ret <;> exact id
      · cases ret <;> trivial
      · cases ret <;> exact nofun
  | @close userCount hphase =>
      have hsome : a.entry ≠ none := h.has_entry (by rw [hphase]; exact id)
      have hclosed : (a.conn.closeConn userCount).1.sockfd = -1 := by
        rw [HttpConn.closeConn_fst]
        rfl
      have hconn := h.withConn (a.conn.closeConn userCount).1 (Or.inr ⟨hsome, hclosed⟩)
        (by rw [hphase]; exact nofun)
      exact hconn.advance (by rw [hphase]; exact id) id (fun _ => trivial) nofun

/-- A descriptor stays in the epoll set: nothing removes it. -/
theorem SlotStep.registered {label : SlotLabel} (hstep : SlotStep fd a label b)
    (h : a.entry ≠ none) : b.entry ≠ none := by
  cases hstep with
  | addfd hphase => exact nofun
  | report hphase hentry hfits => exact nofun
  | rearm hphase => exact fun hnone => h ((runEntry_eq_none _).mp hnone)
  | write hphase hwrite hbad => exact fun hnone => h ((runEntry_eq_none _).mp hnone)
  | _ => exact h

/-- Before `addfd` only the phase of a slot changes. -/
theorem SlotStep.conn_outside {label : SlotLabel} (hstep : SlotStep fd a label b)
    (hphase : a.phase.Outside) (hentry : b.entry = none) : b.conn = a.conn := by
  cases hstep with
  | accept | refuse | showError | allow => rfl
  | addfd => cases hentry
  | _ =>
      rename_i hbefore
      simp_all [Phase.Outside]

/-- Every step keeps a slot coherent. -/
theorem SlotStep.coherent {label : SlotLabel} (hstep : SlotStep fd a label b)
    (h : Coherent fd a) : Coherent fd b := by
  refine ⟨hstep.steady h.toSteady, fun hclient hnone => ?_⟩
  have hbefore : a.entry = none := by
    by_contra hsome
    exact hstep.registered hsome hnone
  rw [hstep.conn_outside (h.entered.mp hbefore) hnone]
  exact h.fresh hclient hbefore

theorem slot_coherent (hreach : (slotSystem ι fd).Reachable a) : Coherent fd a := by
  refine hreach.invariant ?_ ?_
  · exact fun _ hstart => SlotStarts.coherent hstart
  · exact fun _ _ _ hcoherent hstep => SlotStep.coherent hstep hcoherent

end Coherence

end LinuxLearning.Webserver
