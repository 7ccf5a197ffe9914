/-
What becomes of a batch of events.  Between two calls of `epoll_wait` every
step of `main` and of the workers takes what has been reported nearer to its
end; at the end nothing is queued, `main` is back at `epoll_wait`, and the
kernel has every live connection again.
-/
import LinuxLearning.Lib.Account
import LinuxLearning.Lib.Census
import LinuxLearning.Lib.Descent
import LinuxLearning.Webserver.Custody

namespace LinuxLearning.Webserver

universe u

/-- Every step but the return of `epoll_wait`. -/
def Label.Quiet {ι : Type u} : Label ι → Prop
  | .epollWait _ => False
  | _ => True

/-- A bound of the steps that `main` and, with a task posted, a worker have
before them. -/
def MainPc.rank : MainPc → Nat
  | .waiting => 0
  | .loop events => 1 + 10 * events.length
  | .refusing _ events | .closing _ events => 2 + 10 * events.length
  | .adding _ events | .written _ _ events => 3 + 10 * events.length
  | .admitted _ events | .writing _ events => 4 + 10 * events.length
  | .accepted _ events => 5 + 10 * events.length
  | .posting events => 8 + 10 * events.length
  | .appending _ events => 9 + 10 * events.length
  | .reading _ events => 10 + 10 * events.length

def WorkerPc.rank : WorkerPc → Nat
  | .waiting => 0
  | .rearming _ _ => 2
  | .mapping _ _ _ _ => 3
  | .processing _ => 4
  | .woken => 5

/-- The task that `main` is about to post. -/
def MainPc.owes : MainPc → Nat
  | .posting _ => 1
  | _ => 0

namespace HttpConn

/-- `read` and `write` can end, at the latest with an error. -/
theorem exists_read (c : HttpConn) :
    ∃ outcomes ok after, c.read outcomes = some (ok, after) ∧
      ∀ outcome ∈ outcomes, outcome = .error := by
  by_cases hfull : c.readIdx ≥ READ_BUFFER_SIZE
  · exact ⟨[], false, c, by simp [read, hfull], by simp⟩
  · exact ⟨[.error], false, c, by simp [read, hfull, recvLoop], by simp⟩

theorem exists_write (c : HttpConn) (mem : Nat → Byte) :
    ∃ outcomes r, c.write mem outcomes = some r ∧ ∀ outcome ∈ outcomes, outcome = .error := by
  by_cases hnothing : c.writeIdx = 0
  · exact ⟨[], _, by rw [write, if_pos hnothing]; rfl, by simp⟩
  · exact ⟨[.error], _, by rw [write, if_neg hnothing]; rfl, by simp⟩

end HttpConn

variable {ι : Type u} [DecidableEq ι] {s after : Server ι} {label : Label ι}

open Function

/-- The steps that what has been reported still takes. -/
def Server.work [Fintype ι] (s : Server ι) : Nat :=
  s.main.rank + totalWeight Finset.univ WorkerPc.rank s.workers + 6 * s.tasks

/-- What is queued has a task, a worker that is to look, or `main` about to
post. -/
def Server.Supplied (s : Server ι) : Prop :=
  ∃ n, Census (fun pc => pc = WorkerPc.woken) s.workers n ∧
    s.queue.length ≤ s.tasks + s.main.owes + n

/-- `main` is at `epoll_wait`, the workers wait, and there is nothing for
them. -/
structure Server.AtRest (s : Server ι) : Prop where
  main : s.main = .waiting
  workers : ∀ w, s.workers w = .waiting
  tasks : s.tasks = 0
  queue : s.queue = []

/-- `main` can always go on inside its loop. -/
theorem main_moves (hmain : s.main ≠ .waiting) :
    ∃ label after, label.Quiet ∧ ServerStep s label after := by
  cases hpc : s.main with
  | waiting => exact absurd hpc hmain
  | loop events =>
      cases events with
      | nil => exact ⟨.endBatch, _, trivial, Step.server (.endBatch hpc) trivial⟩
      | cons event events =>
          cases event with
          | listening => exact ⟨.acceptFailed, _, trivial, Step.server (.acceptFailed hpc) trivial⟩
          | client fd kind =>
              cases kind with
              | hangup => exact ⟨.hangup, _, trivial, Step.server (.hangup hpc) trivial⟩
              | input => exact ⟨.startRead, _, trivial, Step.server (.startRead hpc) trivial⟩
              | output => exact ⟨.startWrite, _, trivial, Step.server (.startWrite hpc) trivial⟩
  | accepted fd events =>
      by_cases hfull : s.userCount ≥ MAX_FD
      · exact ⟨.refuse, _, trivial, Step.server (.refuse hpc hfull) trivial⟩
      · exact ⟨.allow, _, trivial, Step.server (.allow hpc (Int.not_le.mp hfull)) trivial⟩
  | refusing fd events => exact ⟨.showError, _, trivial, Step.server (.showError hpc) trivial⟩
  | admitted fd events => exact ⟨.addfd, _, trivial, Step.server (.addfd hpc) trivial⟩
  | adding fd events => exact ⟨.initialise, _, trivial, Step.server (.initialise hpc) trivial⟩
  | reading fd events =>
      obtain ⟨outcomes, ok, conn, hread, herror⟩ := (s.users fd).exists_read
      exact ⟨.read outcomes, _, trivial,
        Step.server (.read hpc hread fun _ => herror) trivial⟩
  | appending fd events =>
      by_cases hroom : s.queue.length ≤ MAX_REQUESTS
      · exact ⟨.append, _, trivial, Step.server (.append hpc hroom) trivial⟩
      · have hfull := Nat.lt_of_not_le hroom
        exact ⟨.append, _, trivial, Step.server (.appendFull hpc hfull) trivial⟩
  | posting events => exact ⟨.post, _, trivial, Step.server (.post hpc) trivial⟩
  | writing fd events =>
      obtain ⟨outcomes, r, hwrite, herror⟩ := (s.users fd).exists_write fun _ => 0
      exact ⟨.write outcomes, _, trivial,
        Step.server (.write hpc hwrite fun _ => herror) trivial⟩
  | written fd ret events => exact ⟨.wrote, _, trivial, Step.server (.wrote hpc) trivial⟩
  | closing fd events => exact ⟨.close, _, trivial, Step.server (.close hpc) trivial⟩

/-- So can a worker that is not waiting, whatever its stores hit. -/
theorem worker_moves {w : ι} (hworker : s.workers w ≠ .waiting) :
    ∃ label after, label.Quiet ∧ ServerStep s label after := by
  cases hpc : s.workers w with
  | waiting => exact absurd hpc hworker
  | woken =>
      cases hqueue : s.queue with
      | nil => exact ⟨.starve w, _, trivial, Step.server (.starve hpc hqueue) trivial⟩
      | cons fd rest => exact ⟨.pop w, _, trivial, Step.server (.pop hpc hqueue) trivial⟩
  | processing fd =>
      obtain ⟨users, hhits⟩ := exists_hits fd s.users ((s.users fd).strayStores none)
      have hanswer : ∀ answer ∈ (users fd).fileAnswer HttpConn.missing none,
          answer.opens = false := by
        rw [HttpConn.fileAnswer_missing]
        exact nofun
      exact ⟨.process w HttpConn.missing none, _, trivial, users,
        .process (by rw [hpc]; rfl) hhits, .process hpc hanswer⟩
  | mapping fd fs fellOff file =>
      obtain ⟨users, hhits⟩ := exists_hits fd s.users ((s.users fd).strayStores fellOff)
      exact ⟨.process w fs fellOff, _, trivial, users, .process (by rw [hpc]; rfl) hhits,
        .processFile hpc⟩
  | rearming fd calls => exact ⟨.rearm w, _, trivial, Step.server (.rearm hpc) trivial⟩

/-- Where no quiet step is left, and there is a worker, the server is at
rest. -/
theorem atRest_of_settled [Nonempty ι] (hsupplied : s.Supplied)
    (hsettled : (server ι).Settled Label.Quiet s) : s.AtRest := by
  have hstuck : ¬ ∃ label after, label.Quiet ∧ ServerStep s label after := by
    rintro ⟨label, after, hquiet, hstep⟩
    exact hsettled label after hquiet hstep
  have hmain : s.main = .waiting := by
    by_contra hmain
    exact hstuck (main_moves hmain)
  have hworkers : ∀ w, s.workers w = .waiting := by
    intro w
    by_contra hworker
    exact hstuck (worker_moves hworker)
  have htasks : s.tasks = 0 := by
    by_contra htasks
    obtain ⟨w⟩ := ‹Nonempty ι›
    exact hstuck ⟨.wake w, _, trivial,
      Step.server (.wake (hworkers w) (Nat.pos_of_ne_zero htasks)) trivial⟩
  refine ⟨hmain, hworkers, htasks, ?_⟩
  obtain ⟨n, hcensus, hn⟩ := hsupplied
  have hzero : n = 0 := hcensus.unique (.none fun w => by rw [hworkers w]; exact nofun)
  rw [htasks, hmain, hzero] at hn
  exact List.eq_nil_of_length_eq_zero (Nat.le_zero.mp hn)

variable {history : List (Server ι × Label ι)}

/-- At rest a live connection is armed, if `append` has never failed. -/
theorem armed_of_atRest (hrun : (unhit ι).Run history s) (hrest : s.AtRest)
    (happend : ∀ entry ∈ history, entry.2 = .append → entry.1.queue.length ≤ MAX_REQUESTS)
    {fd : Nat} (hinit : Initialised history fd) (hlive : (s.users fd).sockfd ≠ -1) :
    ∃ ev, s.epoll fd = some (.armed ev) := by
  have hregistered := registered_of_initialised hrun hinit
  obtain ⟨phase, hphased, hslots⟩ := run_phased hrun
  obtain ⟨slotHistory, hslotRun, horigin⟩ := hslots fd
  have hheard := slot_heard hslotRun (by
    intro entry hentry hdrop
    obtain ⟨origin, hmem, -, hfor⟩ := horigin entry hentry
    rw [hdrop] at hfor
    obtain ⟨hlabel, -, hfull⟩ := hfor
    exact Nat.not_le_of_lt hfull (happend origin hmem hlabel))
  have hlocated := hphased.located fd
  -- at rest nobody but the kernel has a slot
  cases hphase : phase fd with
  | idle => exact hheard.heard hregistered hlive (by rw [Server.slot, hphase]; trivial)
  | unused =>
      have hinside := mt hheard.coherent.entered.mpr hregistered
      rw [Server.slot, hphase] at hinside
      exact absurd trivial hinside
  | reported kind =>
      have hmem := (hlocated.batch kind).mpr hphase
      rw [hrest.main] at hmem
      cases hmem
  | main stage =>
      have hat := (hlocated.main stage).mpr hphase
      rw [hrest.main] at hat
      cases hat
  | queued =>
      have hmem := hlocated.queue.mpr hphase
      rw [hrest.queue] at hmem
      cases hmem
  | worker w stage =>
      have hat := (hlocated.worker w stage).mpr hphase
      rw [hrest.workers] at hat
      cases hat

end LinuxLearning.Webserver
