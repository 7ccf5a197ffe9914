/-
What the client of a connection receives.  Where every `writev` takes all it
is offered or nothing, the bytes put on the socket are the responses that
`process` has queued, one behind the other; and while the server waits for
events the last of them is still to be sent exactly if the slot is armed for
writing.
-/
import LinuxLearning.Webserver.Garbage
import LinuxLearning.Webserver.Phases
import Mathlib.Data.List.Infix

namespace LinuxLearning.Webserver

universe u

open CString Lines Resend TransitionSystem

/-- What happens between a connection and its client: `read` has received some
bytes, `process` has queued the response the slot holds, or `write` has been
called on the slot. -/
inductive Traffic where
  | received (data : List Byte)
  | queued (conn : HttpConn)
  | written (conn : HttpConn) (outcomes : List WritevOutcome)

namespace Traffic

variable (mem : Nat → Byte)

/-- The responses that have been queued. -/
def responses (traffic : List Traffic) : List (List (Option Byte)) :=
  traffic.filterMap fun
    | .queued conn => some (HttpConn.offered mem conn)
    | .received _ | .written _ _ => none

/-- The bytes that have been put on the socket. -/
def sent (traffic : List Traffic) : List (Option Byte) :=
  traffic.flatMap fun
    | .received _ | .queued _ => []
    | .written conn outcomes => resend (HttpConn.offered mem conn) (counts outcomes)

/-- Each `writev` has taken all it was offered, or nothing. -/
def TakesAll : Traffic → Prop
  | .received _ | .queued _ => True
  | .written conn outcomes => ∀ k ∈ counts outcomes, k = (HttpConn.offered mem conn).length

/-- In all calls of `write`. -/
def AllTaken (traffic : List Traffic) : Prop :=
  ∀ t ∈ traffic, t.TakesAll mem

variable {mem} {traffic : List Traffic} {conn : HttpConn} {outcomes : List WritevOutcome}

theorem allTaken_concat {t : Traffic} :
    AllTaken mem (traffic ++ [t]) ↔ AllTaken mem traffic ∧ t.TakesAll mem := by
  rw [AllTaken, List.forall_mem_append, List.forall_mem_singleton]
  exact Iff.rfl

theorem responses_received {data : List Byte} :
    responses mem (traffic ++ [.received data]) = responses mem traffic := by
  simp [responses]

theorem responses_queued :
    responses mem (traffic ++ [.queued conn]) =
      responses mem traffic ++ [HttpConn.offered mem conn] := by
  simp [responses]

theorem responses_written :
    responses mem (traffic ++ [.written conn outcomes]) = responses mem traffic := by
  simp [responses]

theorem sent_received {data : List Byte} :
    sent mem (traffic ++ [.received data]) = sent mem traffic := by
  simp [sent]

theorem sent_queued : sent mem (traffic ++ [.queued conn]) = sent mem traffic := by
  simp [sent]

theorem sent_written :
    sent mem (traffic ++ [.written conn outcomes]) =
      sent mem traffic ++ resend (HttpConn.offered mem conn) (counts outcomes) := by
  simp [sent]

end Traffic

namespace HttpConn

variable {mem : Nat → Byte} {c mid : HttpConn} {ret : HttpCode}
  {outcomes : List WritevOutcome} {r : WriteResult}

/-- What `process` has queued for the client on `fd`: it arms the descriptor
for writing. -/
def queuedBy (fd : Nat) (out : HttpConn × Int × List SysCall) : List Traffic :=
  if SysCall.modfd fd .epollout ∈ out.2.2 then [.queued out.1] else []

/-- `m_user_count` decides neither over the slot nor over the calls. -/
theorem process_userCount (fs : List Byte → FsAnswer) (fellOff : Option HttpCode) (c : HttpConn)
    (n m : Int) :
    (c.process fs fellOff n).1 = (c.process fs fellOff m).1 ∧
      (c.process fs fellOff n).2.2 = (c.process fs fellOff m).2.2 := by
  cases hread : c.processRead fs fellOff with
  | mk code rest =>
      obtain ⟨mid, sys⟩ := rest
      by_cases hcode : code = .noRequest
      · simp [process, hread, hcode]
      · cases hwrite : (mid.processWrite code).1 with
        | true => simp [process, hread, hcode, hwrite]
        | false => simp [process, hread, hcode, hwrite, closeConn_fst]

theorem queuedBy_userCount (fd : Nat) (fs : List Byte → FsAnswer) (fellOff : Option HttpCode)
    (c : HttpConn) (n m : Int) :
    queuedBy fd (c.process fs fellOff n) = queuedBy fd (c.process fs fellOff m) := by
  obtain ⟨hconn, hcalls⟩ := process_userCount fs fellOff c n m
  rw [queuedBy, queuedBy, hconn, hcalls]

/-- How the loop of `write` ends, and what it arms for. -/
theorem writeLoop_ends {toSend haveSend : Int}
    (h : writeLoop mem c toSend haveSend outcomes = some r) :
    (r.ending = .again ∧ r.ret = true ∧ r.conn = c ∧ r.calls = [.modfd c.sockfd .epollout]) ∨
    (r.ending = .failed ∧ r.ret = false) ∨
    (r.ending = .completed ∧ r.calls = c.unmap.2 ++ [.modfd c.sockfd .epollin]) := by
  induction outcomes generalizing toSend haveSend r with
  | nil => cases h
  | cons outcome later ih =>
      cases outcome with
      | eagain =>
          obtain ⟨-, rfl⟩ := WriteResult.endsWith_eq_some h
          exact Or.inl ⟨rfl, rfl, rfl, rfl⟩
      | error =>
          obtain ⟨-, rfl⟩ := WriteResult.endsWith_eq_some h
          exact Or.inr (Or.inl ⟨rfl, rfl⟩)
      | sent k =>
          simp only [writeLoop] at h
          split at h
          · obtain ⟨-, rfl⟩ := WriteResult.endsWith_eq_some h
            refine Or.inr (Or.inr ⟨finishWrite_ending c, ?_⟩)
            simp only [WriteResult.after, finishWrite, unmap_sockfd]
            cases c.unmap.1.linger <;> rfl
          · obtain ⟨rest, hrest, rfl⟩ := Option.map_eq_some_iff.mp h
            exact ih (r := rest) hrest

theorem Responds.writeIdx_le_offered (h : c.Responds ret mid) (mem : Nat → Byte) :
    c.writeIdx ≤ (offered mem c).length := by
  rw [h.whole.offers mem, List.length_append, List.length_map, h.queued.written.writeIdx_eq]
  exact Nat.le_add_right _ _

/-- One call of `write` puts out nothing of the response and does not end it,
or all of it and is not to be called again. -/
theorem Responds.write_whole (h : c.Responds ret mid) {mem' : Nat → Byte}
    (hwrite : c.write mem' outcomes = some r)
    (hall : ∀ k ∈ counts outcomes, k = (offered mem c).length) :
    (resend (offered mem c) (counts outcomes) = [] ∧ r.ending ≠ .completed) ∨
    (resend (offered mem c) (counts outcomes) = offered mem c ∧ r.ending ≠ .again) := by
  have hloops := write_loops h.writeIdx_ne_zero hwrite
  have hle := h.writeIdx_le_offered mem
  cases hcounts : counts outcomes with
  | nil => exact Or.inl ⟨rfl, fun hend => hloops.some_sent hend hcounts⟩
  | cons k later =>
      have hk : k = (offered mem c).length := by
        rw [hcounts] at hall
        exact hall k List.mem_cons_self
      have hshort := hloops.short k later hcounts
      have hlater : later = [] := by
        by_contra hne
        have hlt := hshort (Or.inl hne)
        omega
      subst hlater
      refine Or.inr ⟨?_, fun hend => ?_⟩
      · rw [resend_cons, resend_nil, List.append_nil, hk, List.take_length]
      · have hlt := hshort (Or.inr hend)
        omega

end HttpConn

variable {ι : Type u}

/-- What a step of the slot is for its client. -/
def Slot.traffic (fd : Nat) (a : Slot ι) : SlotLabel → List Traffic
  | .process fs fellOff => HttpConn.queuedBy fd (a.conn.process fs fellOff 0)
  | .read outcomes => [.received (dataOf outcomes)]
  | .write outcomes => [.written a.conn outcomes]
  | _ => []

/-- What a live slot owes its client: the response queued last while it is to
be written, nothing while a request is read or processed. -/
structure Delivered (mem : Nat → Byte) (fd : Nat) (a : Slot ι) (traffic : List Traffic) :
    Prop where
  answering : Answering fd a
  fresh : a.phase.Outside ∨ a.phase = .main .adding → traffic = []
  paid : a.conn.sockfd ≠ -1 → a.direction = some .epollin → Traffic.AllTaken mem traffic →
    Traffic.sent mem traffic = (Traffic.responses mem traffic).flatten
  owing : a.conn.sockfd ≠ -1 → a.direction = some .epollout →
    ∃ earlier, Traffic.responses mem traffic = earlier ++ [HttpConn.offered mem a.conn] ∧
      (Traffic.AllTaken mem traffic → Traffic.sent mem traffic = earlier.flatten)
  inOrder : Traffic.AllTaken mem traffic →
    Traffic.sent mem traffic <+: (Traffic.responses mem traffic).flatten

section Slots

variable {mem : Nat → Byte} {fd : Nat} {a b : Slot ι} {label : SlotLabel}
  {traffic : List Traffic}

/-- A step that neither queues nor writes, and after which the slot owes what
it has owed before, or is not asked. -/
theorem Delivered.keep (h : Delivered mem fd a traffic) (hanswering : Answering fd b)
    (hinside : ¬ b.phase.Outside ∧ b.phase ≠ .main .adding)
    (hkeeps : b.conn.sockfd ≠ -1 → ∀ ev, b.direction = some ev →
      a.conn.sockfd ≠ -1 ∧ a.direction = some ev)
    (hconn : b.direction = some .epollout → b.conn = a.conn) : Delivered mem fd b traffic where
  answering := hanswering
  fresh := fun hphase => absurd hphase (not_or.mpr hinside)
  paid := by
    intro hlive hreads
    obtain ⟨hbefore, hdirection⟩ := hkeeps hlive _ hreads
    exact h.paid hbefore hdirection
  owing := by
    intro hlive hwrites
    obtain ⟨hbefore, hdirection⟩ := hkeeps hlive _ hwrites
    rw [hconn hwrites]
    exact h.owing hbefore hdirection
  inOrder := h.inOrder

theorem SlotStarts.delivered (h : SlotStarts fd a) : Delivered mem fd a [] where
  answering := SlotStarts.answering h
  fresh := fun _ => rfl
  paid := fun _ _ _ => rfl
  owing := by
    intro _ hwrites
    rw [Slot.direction, h.phase] at hwrites
    cases hwrites
  inOrder := fun _ => List.prefix_refl _

/-- A step that is nothing to the client. -/
theorem Delivered.silent (h : Delivered mem fd b traffic) : Delivered mem fd b (traffic ++ []) := by
  rw [List.append_nil]
  exact h

/-- `read` neither queues nor sends. -/
theorem Delivered.receive (h : Delivered mem fd b traffic) {data : List Byte}
    (hinside : ¬ b.phase.Outside ∧ b.phase ≠ .main .adding) :
    Delivered mem fd b (traffic ++ [.received data]) where
  answering := h.answering
  fresh := fun hphase => absurd hphase (not_or.mpr hinside)
  paid := by
    intro hlive hreads hall
    rw [Traffic.sent_received, Traffic.responses_received]
    exact h.paid hlive hreads (Traffic.allTaken_concat.mp hall).1
  owing := by
    intro hlive hwrites
    obtain ⟨earlier, hresponses, hsent⟩ := h.owing hlive hwrites
    rw [Traffic.sent_received, Traffic.responses_received]
    exact ⟨earlier, hresponses, fun hall => hsent (Traffic.allTaken_concat.mp hall).1⟩
  inOrder := by
    intro hall
    rw [Traffic.sent_received, Traffic.responses_received]
    exact h.inOrder (Traffic.allTaken_concat.mp hall).1

/-- Up to `addfd` nothing is queued. -/
theorem Delivered.outside (h : Delivered mem fd a traffic) (hanswering : Answering fd b)
    (hphase : a.phase.Outside) (hdirection : b.direction = none) :
    Delivered mem fd b traffic := by
  have hnone := h.fresh (Or.inl hphase)
  subst hnone
  refine ⟨hanswering, fun _ => rfl, fun _ _ _ => rfl, fun _ hwrites => ?_,
    fun _ => List.prefix_refl _⟩
  rw [hdirection] at hwrites
  cases hwrites

/-- `write` on a slot that has been closed puts nothing out. -/
theorem Delivered.write_closed (h : Delivered mem fd a traffic) {outcomes : List WritevOutcome}
    (hclosed : a.conn.sockfd = -1)
    (hbad : a.conn.sockfd = -1 → ∀ outcome ∈ outcomes, outcome = .error)
    (hanswering : Answering fd b) (hsockfd : b.conn.sockfd = a.conn.sockfd)
    (hinside : ¬ b.phase.Outside ∧ b.phase ≠ .main .adding) :
    Delivered mem fd b (traffic ++ [.written a.conn outcomes]) := by
  have hnone : counts outcomes = [] := by
    rw [counts, List.filterMap_eq_nil_iff]
    intro outcome hmem
    rw [hbad hclosed outcome hmem]
  have hafter : b.conn.sockfd = -1 := hsockfd.trans hclosed
  refine ⟨hanswering, fun hphase => absurd hphase (not_or.mpr hinside),
    fun hlive => absurd hafter hlive, fun hlive => absurd hafter hlive, fun hall => ?_⟩
  rw [Traffic.sent_written, Traffic.responses_written, hnone, resend_nil, List.append_nil]
  exact h.inOrder (Traffic.allTaken_concat.mp hall).1

/-- `write` on a response that is owed. -/
theorem Delivered.write_live (h : Delivered mem fd a traffic) {outcomes : List WritevOutcome}
    {mem' : Nat → Byte} {r : WriteResult} (hphase : a.phase = .main .writing)
    (hwrite : a.conn.write mem' outcomes = some r)
    (hlive : a.conn.sockfd ≠ -1) (hanswering : Answering fd b)
    (hb : b.phase = .main (.written r.ret)) (hconn : b.conn = r.conn)
    (hentry : b.entry = runEntry fd a.entry r.calls) :
    Delivered mem fd b (traffic ++ [.written a.conn outcomes]) := by
  have hwrites : a.direction = some .epollout := by simp [Slot.direction, hphase]
  obtain ⟨ret, mid, hresponds⟩ := (h.answering.responds hwrites).resolve_left hlive
  obtain ⟨earlier, hresponses, hsent⟩ := h.owing hlive hwrites
  have hcoherent := h.answering.emptied.coherent
  have hunarmed := hcoherent.unarmed (by rw [hphase]; exact id)
  have hdirection : b.direction =
      if r.ret then armedFor (runEntry fd a.entry r.calls) else none := by
    rw [Slot.direction, hb, hentry]
    cases r.ret <;> rfl
  have hwhole : Traffic.AllTaken mem (traffic ++ [.written a.conn outcomes]) → _ :=
    fun hall => hresponds.write_whole hwrite (Traffic.allTaken_concat.mp hall).2
  have hends := HttpConn.writeLoop_ends (by
    rw [HttpConn.write, if_neg hresponds.writeIdx_ne_zero] at hwrite
    exact hwrite)
  refine ⟨hanswering, fun hfresh => ?_, fun _ hreads hall => ?_, fun _ hagain => ?_,
    fun hall => ?_⟩
  · rw [hb] at hfresh
    exact absurd hfresh (not_or.mpr ⟨id, by rintro ⟨⟩⟩)
  · -- the response has been sent
    rw [Traffic.sent_written, Traffic.responses_written, hresponses,
      hsent (Traffic.allTaken_concat.mp hall).1, List.flatten_append, List.flatten_singleton]
    rw [hdirection] at hreads
    rcases hends with ⟨-, hret, -, hcalls⟩ | ⟨-, hret⟩ | ⟨hend, -⟩
    · rw [hret, if_pos rfl, hcalls, hcoherent.resumed hphase] at hreads
      cases (Option.ite_none_right_eq_some.mp hreads).2
    · rw [hret] at hreads
      cases hreads
    · rw [((hwhole hall).resolve_left fun hnone => hnone.2 hend).1]
  · -- EAGAIN: the same response is to be written again
    rw [hdirection] at hagain
    rcases hends with ⟨hend, -, hsame, -⟩ | ⟨-, hret⟩ | ⟨-, hcalls⟩
    · refine ⟨earlier, ?_, fun hall => ?_⟩
      · rw [Traffic.responses_written, hresponses, hconn, hsame]
      · rw [Traffic.sent_written, ((hwhole hall).resolve_right fun hfull => hfull.2 hend).1,
          List.append_nil, hsent (Traffic.allTaken_concat.mp hall).1]
    · rw [hret] at hagain
      cases hagain
    · have hafter : armedFor (runEntry fd a.entry
          (a.conn.unmap.2 ++ [.modfd a.conn.sockfd .epollin])) =
            if a.conn.sockfd = fd ∧ a.entry ≠ none then some .epollin else none :=
        armedFor_runEntry a.conn.unmap.2 hunarmed (HttpConn.unmap_modfd a.conn)
      rw [hcalls] at hagain
      cases hret : r.ret with
      | true =>
          rw [hret, if_pos rfl, hafter] at hagain
          cases (Option.ite_none_right_eq_some.mp hagain).2
      | false =>
          rw [hret] at hagain
          cases hagain
  · rw [Traffic.sent_written, Traffic.responses_written]
    have hbefore := (Traffic.allTaken_concat.mp hall).1
    rcases hwhole hall with ⟨hnone, -⟩ | ⟨hfull, -⟩
    · rw [hnone, List.append_nil]
      exact h.inOrder hbefore
    · rw [hfull, hresponses, hsent hbefore, List.flatten_append, List.flatten_singleton]

/-- `process` is called on a live slot that is to be read.  It queues a response
if it leaves the slot live and to be written. -/
theorem Answering.process (h : Answering fd a) {w : ι} {fs : List Byte → FsAnswer}
    {fellOff : Option HttpCode} {userCount : Int} (hphase : a.phase = .worker w .processing)
    (hb : b.phase = .worker w (.rearming (a.conn.process fs fellOff userCount).2.2))
    (hconn : b.conn = (a.conn.process fs fellOff userCount).1) :
    a.conn.sockfd ≠ -1 ∧ a.direction = some .epollin ∧
      HttpConn.queuedBy fd (a.conn.process fs fellOff userCount) =
        if b.conn.sockfd ≠ -1 ∧ b.direction = some .epollout then [.queued b.conn] else [] := by
  have hlive := h.emptied.live (by rw [hphase]; trivial)
  have hentry : a.entry ≠ none :=
    h.emptied.coherent.toSteady.has_entry (by rw [hphase]; exact id)
  have hown := (h.emptied.coherent.own hentry).resolve_right hlive
  refine ⟨hlive, by simp [Slot.direction, hphase], ?_⟩
  obtain ⟨hsockfd, sys, ev, hcalls, hsys⟩ :=
    HttpConn.process_sockfd fs fellOff a.conn userCount
  rw [← hconn] at hsockfd hcalls
  have hdirection : b.direction = some ev := by
    rw [Slot.direction, hb, hcalls]
    simp
  have hfd : b.conn.sockfd = fd ↔ b.conn.sockfd ≠ -1 := by
    rcases hsockfd with hsame | hclosed
    · rw [hsame, hown]
      omega
    · rw [hclosed]
      omega
  have hmem : SysCall.modfd fd .epollout ∈ (a.conn.process fs fellOff userCount).2.2 ↔
      b.conn.sockfd ≠ -1 ∧ b.direction = some .epollout := by
    rw [hcalls, List.mem_append, or_iff_right (hsys _ _), List.mem_singleton,
      SysCall.modfd.injEq, hdirection, Option.some.injEq, ← hfd, eq_comm]
    exact and_congr_right fun _ => eq_comm
  rw [HttpConn.queuedBy, if_congr hmem rfl rfl, hconn]

/-- `process` queues a response on a slot that owes none, or it waits for more,
or it closes the slot. -/
theorem Delivered.process (h : Delivered mem fd a traffic) {w : ι} {fs : List Byte → FsAnswer}
    {fellOff : Option HttpCode} {userCount : Int} (hphase : a.phase = .worker w .processing)
    (hanswering : Answering fd b)
    (hb : b.phase = .worker w (.rearming (a.conn.process fs fellOff userCount).2.2))
    (hconn : b.conn = (a.conn.process fs fellOff userCount).1) :
    Delivered mem fd b
      (traffic ++ HttpConn.queuedBy fd (a.conn.process fs fellOff userCount)) := by
  obtain ⟨hlive, hreads, hqueues⟩ := h.answering.process hphase hb hconn
  have hpaid := h.paid hlive hreads
  have hfresh : ¬ (b.phase.Outside ∨ b.phase = .main .adding) := by
    rw [hb]
    exact not_or.mpr ⟨id, by rintro ⟨⟩⟩
  rw [hqueues]
  by_cases hqueued : b.conn.sockfd ≠ -1 ∧ b.direction = some .epollout
  · rw [if_pos hqueued]
    refine ⟨hanswering, fun hnew => absurd hnew hfresh, fun _ hreads => ?_, fun _ _ => ?_,
      fun hall => ?_⟩
    · rw [hqueued.2] at hreads
      cases hreads
    · exact ⟨_, Traffic.responses_queued, fun hall =>
        Traffic.sent_queued.trans (hpaid (Traffic.allTaken_concat.mp hall).1)⟩
    · rw [Traffic.sent_queued, Traffic.responses_queued, List.flatten_append,
        hpaid (Traffic.allTaken_concat.mp hall).1]
      exact List.prefix_append _ _
  · rw [if_neg hqueued, List.append_nil]
    exact ⟨hanswering, fun hnew => absurd hnew hfresh, fun _ _ => hpaid,
      fun hopen hwrites => absurd ⟨hopen, hwrites⟩ hqueued, h.inOrder⟩

/-- Every step leaves the client with what it is owed. -/
theorem SlotStep.delivered (hstep : SlotStep fd a label b) (h : Delivered mem fd a traffic) :
    Delivered mem fd b (traffic ++ a.traffic fd label) := by
  have hanswering := SlotStep.answering hstep h.answering
  have hcoherent := h.answering.emptied.coherent
  cases hstep with
  | accept hphase =>
      exact (h.outside hanswering (by rw [hphase]; trivial) rfl).silent
  | refuse hphase =>
      exact (h.outside hanswering (by rw [hphase]; trivial) rfl).silent
  | showError hphase =>
      exact (h.outside hanswering (by rw [hphase]; trivial) rfl).silent
  | allow hphase =>
      exact (h.outside hanswering (by rw [hphase]; trivial) rfl).silent
  | addfd hphase =>
      exact (h.outside hanswering (by rw [hphase]; trivial) rfl).silent
  | initialise hphase =>
      have hnone := h.fresh (Or.inr hphase)
      have harmed := h.answering.adding hphase
      subst hnone
      refine Delivered.silent ⟨hanswering, fun _ => rfl, fun _ _ _ => rfl, fun _ hwrites => ?_,
        fun _ => List.prefix_refl _⟩
      simp [Slot.direction, harmed, armedFor] at hwrites
  | @report kind ev hphase hentry hfits =>
      refine (h.keep hanswering ⟨id, by rintro ⟨⟩⟩ (fun hlive other hdirection => ⟨hlive, ?_⟩)
        fun _ => rfl).silent
      rw [direction_reported hfits hdirection]
      simp [Slot.direction, hphase, hentry, armedFor]
  | hangup hphase =>
      exact (h.keep hanswering ⟨id, by rintro ⟨⟩⟩ (by rintro _ _ ⟨⟩) (by rintro ⟨⟩)).silent
  | startRead hphase | startWrite hphase | append hphase | pop hphase =>
      refine (h.keep hanswering ⟨id, by rintro ⟨⟩⟩ (fun hlive ev hdirection => ⟨hlive, ?_⟩)
        fun _ => rfl).silent
      rw [← hdirection]
      simp [Slot.direction, hphase]
  | @read outcomes ok after hphase hread hbad =>
      obtain ⟨data, rfl⟩ := HttpConn.read_recv hread
      cases ok with
      | true =>
          refine (h.keep hanswering ⟨id, by rintro ⟨⟩⟩ (fun hlive ev hdirection => ⟨hlive, ?_⟩)
            (by rintro ⟨⟩)).receive ⟨id, by rintro ⟨⟩⟩
          rw [← hdirection]
          simp [Slot.direction, hphase]
      | false =>
          exact (h.keep hanswering ⟨id, by rintro ⟨⟩⟩ (by rintro _ _ ⟨⟩) (by rintro ⟨⟩)).receive
            ⟨id, by rintro ⟨⟩⟩
  | drop hphase =>
      have hnone := hcoherent.armedFor_none (by rw [hphase]; exact id)
      refine (h.keep hanswering ⟨id, by rintro ⟨⟩⟩ (fun _ ev hdirection => ?_) fun _ => rfl).silent
      cases hnone.symm.trans hdirection
  | @process w fs fellOff userCount hphase =>
      rw [Slot.traffic, HttpConn.queuedBy_userCount fd fs fellOff a.conn 0 userCount]
      exact h.process hphase hanswering rfl rfl
  | rearm hphase =>
      obtain ⟨ev, hbefore, hafter⟩ := hcoherent.rearmed hphase
      refine (h.keep hanswering ⟨id, by rintro ⟨⟩⟩ (fun hlive other hdirection => ⟨hlive, ?_⟩)
        fun _ => rfl).silent
      obtain ⟨-, hev⟩ := Option.ite_none_right_eq_some.mp (hafter.symm.trans hdirection)
      exact hbefore.trans hev
  | @write outcomes mem' r hphase hwrite hbad =>
      by_cases hlive : a.conn.sockfd = -1
      · have hsockfd := (HttpConn.write_sockfd hwrite).1
        exact h.write_closed hlive hbad hanswering hsockfd ⟨id, by rintro ⟨⟩⟩
      · exact h.write_live hphase hwrite hlive hanswering rfl rfl rfl
  | @wrote ret hphase =>
      cases ret with
      | true =>
          refine (h.keep hanswering ⟨id, by rintro ⟨⟩⟩ (fun hlive ev hdirection => ⟨hlive, ?_⟩)
            fun _ => rfl).silent
          rw [← hdirection]
          simp [Slot.direction, hphase]
      | false =>
          exact (h.keep hanswering ⟨id, by rintro ⟨⟩⟩ (by rintro _ _ ⟨⟩) (by rintro ⟨⟩)).silent
  | close userCount hphase =>
      have hclosed : (a.conn.closeConn userCount).1.sockfd = -1 := by
        rw [HttpConn.closeConn_fst]
        rfl
      refine Delivered.silent ⟨hanswering, fun hfresh => ?_,
        fun hlive => absurd hclosed hlive, fun hlive => absurd hclosed hlive, h.inOrder⟩
      exact absurd hfresh (not_or.mpr ⟨id, by rintro ⟨⟩⟩)

variable {slotHistory : List (Slot ι × SlotLabel)}

theorem slot_delivers (mem : Nat → Byte) (hrun : (slotSystem ι fd).Run slotHistory a) :
    Delivered mem fd a (trace (Slot.traffic fd) slotHistory) := by
  induction hrun with
  | start hstart => exact SlotStarts.delivered hstart
  | snoc _ hstep ih =>
      rw [trace_snoc]
      exact SlotStep.delivered hstep ih

/-- What is queued is a response. -/
theorem slot_queues (hrun : (slotSystem ι fd).Run slotHistory a) {conn : HttpConn}
    (hmem : .queued conn ∈ trace (Slot.traffic fd) slotHistory) :
    ∃ ret mid, conn.Responds ret mid := by
  rw [trace, List.mem_flatMap] at hmem
  obtain ⟨⟨before, label⟩, hentry, hmem⟩ := hmem
  have hanswering := slot_answering (hrun.reachable_entry hentry)
  obtain ⟨earlier, later, rfl⟩ := List.append_of_mem hentry
  obtain ⟨-, after, hstep⟩ := hrun.split
  cases hstep with
  | @process w fs fellOff userCount hphase =>
      have hlive := hanswering.emptied.live (by rw [hphase]; trivial)
      have hempty :=
        (hanswering.emptied.empty (by simp [Slot.direction, hphase])).resolve_left hlive
      obtain ⟨-, sys, ev, hcalls, hsys⟩ := HttpConn.process_sockfd fs fellOff before.conn 0
      rw [Slot.traffic, HttpConn.queuedBy] at hmem
      split at hmem
      case isTrue harmed =>
        rw [List.mem_singleton, Traffic.queued.injEq] at hmem
        rw [hcalls, List.mem_append, or_iff_right (hsys _ _), List.mem_singleton,
          SysCall.modfd.injEq] at harmed
        obtain ⟨hfd, rfl⟩ := harmed
        rw [hmem]
        refine (HttpConn.process_responds fs fellOff hempty 0 hcalls).resolve_left ?_
        rw [← hfd]
        omega
      case isFalse => cases hmem
  | read | write => simp [Slot.traffic] at hmem
  | _ => cases hmem

end Slots

/-- What a step of the server is for the client on `fd`. -/
def Server.traffic (fd : Nat) (s : Server ι) : Label ι → List Traffic
  | .read outcomes =>
      if s.main.at = some (fd, .reading) then [.received (dataOf outcomes)] else []
  | .process w fs fellOff =>
      if (s.workers w).at = some (fd, .processing) then
        HttpConn.queuedBy fd ((s.users fd).process fs fellOff s.userCount)
      else []
  | .write outcomes =>
      if s.main.at = some (fd, .writing) then [.written (s.users fd) outcomes] else []
  | _ => []

section Runs

variable [DecidableEq ι] {mem : Nat → Byte} {s after : Server ι} {label : Label ι} {fd : Nat}
  {phase phase' : Nat → Phase ι} {history : List (Server ι × Label ι)}

open Function

/-- A call of `read` on the slot is a step of the slot. -/
theorem Step.slot_read {outcomes : List RecvOutcome} (hstep : Step s (.read outcomes) after)
    (h : Phased s phase) (hafter : Phased after phase')
    (hat : s.main.at = some (fd, .reading)) :
    SlotStep fd (s.slot phase fd) (.read outcomes) (after.slot phase' fd) := by
  have hphase : (s.slot phase fd).phase = .main .reading := ((h.located fd).main _).mp hat
  cases hstep with
  | @read fd₀ events _ ok conn hmain hread hbad =>
      rw [hmain] at hat
      obtain rfl : fd₀ = fd := congrArg Prod.fst (Option.some.inj hat)
      have hphase' : phase' fd₀ = .main (if ok then .appending else .closing) := by
        refine ((hafter.located fd₀).main _).mp ?_
        cases ok <;> rfl
      have hslot : SlotStep fd₀ (s.slot phase fd₀) (.read outcomes) _ :=
        SlotStep.read hphase hread hbad
      simpa [Server.slot, hphase'] using hslot

/-- A call of `write` on the slot is a step of the slot. -/
theorem Step.slot_write {outcomes : List WritevOutcome} (hstep : Step s (.write outcomes) after)
    (h : Phased s phase) (hafter : Phased after phase')
    (hat : s.main.at = some (fd, .writing)) :
    SlotStep fd (s.slot phase fd) (.write outcomes) (after.slot phase' fd) := by
  have hphase : (s.slot phase fd).phase = .main .writing := ((h.located fd).main _).mp hat
  cases hstep with
  | @write fd₀ events _ mem r hmain hwrite hbad =>
      rw [hmain] at hat
      obtain rfl : fd₀ = fd := congrArg Prod.fst (Option.some.inj hat)
      have hphase' : phase' fd₀ = .main (.written r.ret) :=
        ((hafter.located fd₀).main (.written r.ret)).mp rfl
      have hslot : SlotStep fd₀ (s.slot phase fd₀) (.write outcomes) _ :=
        SlotStep.write hphase hwrite hbad
      simpa [Server.slot, runCalls, hphase'] using hslot

/-- A call of `process` on the slot is a step of the slot. -/
theorem Step.slot_process {w : ι} {fs : List Byte → FsAnswer} {fellOff : Option HttpCode}
    (hstep : Step s (.process w fs fellOff) after) (h : Phased s phase)
    (hafter : Phased after phase') (hat : (s.workers w).at = some (fd, .processing)) :
    SlotStep fd (s.slot phase fd) (.process fs fellOff) (after.slot phase' fd) := by
  have hphase : (s.slot phase fd).phase = .worker w .processing :=
    ((h.located fd).worker w _).mp hat
  have hslot : SlotStep fd (s.slot phase fd) (.process fs fellOff) _ :=
    SlotStep.process s.userCount hphase
  have hworker := (hafter.located fd).worker w
    (.rearming ((s.users fd).process fs fellOff s.userCount).2.2)
  cases hstep with
  | @process _ fd₀ _ _ hprocessing hanswer =>
      rw [hprocessing] at hat
      obtain rfl : fd₀ = fd := congrArg Prod.fst (Option.some.inj hat)
      have hphase' := hworker.mp (by simp [WorkerPc.at])
      simpa [Server.slot, hphase'] using hslot
  | @processFile _ fd₀ file _ _ hmapping =>
      rw [hmapping] at hat
      obtain rfl : fd₀ = fd := congrArg Prod.fst (Option.some.inj hat)
      have hphase' := hworker.mp (by simp [WorkerPc.at])
      simpa [Server.slot, hphase'] using hslot

/-- `main` comes back from `read` and `write` by their returns. -/
theorem Step.main_stays {stage : MainStage} (hstep : Step s label after)
    (hat : s.main.at = some (fd, stage)) (hcall : stage = .reading ∨ stage = .writing) :
    after.main = s.main ∨ (∃ outcomes, label = .read outcomes ∧ stage = .reading) ∨
      ∃ outcomes, label = .write outcomes ∧ stage = .writing := by
  cases hstep with
  | read hmain =>
      rw [hmain] at hat
      exact Or.inr (Or.inl ⟨_, rfl, (congrArg Prod.snd (Option.some.inj hat)).symm⟩)
  | write hmain =>
      rw [hmain] at hat
      exact Or.inr (Or.inr ⟨_, rfl, (congrArg Prod.snd (Option.some.inj hat)).symm⟩)
  | wake | starve | pop | openFile | process | processFile | rearm => exact Or.inl rfl
  | _ =>
      rename_i hmain
      rcases hcall with rfl | rfl <;> simp_all [MainPc.at]

/-- The calls on the slot `fd`: of `read`, `process` and `write`. -/
def CallsOn (s : Server ι) (fd : Nat) : Label ι → SlotLabel → Prop
  | .read outcomes, l => s.main.at = some (fd, .reading) ∧ l = .read outcomes
  | .process w fs fellOff, l =>
      (s.workers w).at = some (fd, .processing) ∧ l = .process fs fellOff
  | .write outcomes, l => s.main.at = some (fd, .writing) ∧ l = .write outcomes
  | _, _ => False

omit [DecidableEq ι] in
/-- A step of the slot that is a call of `read` or `write` ends it. -/
theorem SlotStep.returns {a b : Slot ι} {l : SlotLabel} (hstep : SlotStep fd a l b) :
    (∀ outcomes, l = .read outcomes → a.phase = .main .reading ∧ b.phase ≠ .main .reading) ∧
    ∀ outcomes, l = .write outcomes → a.phase = .main .writing ∧ b.phase ≠ .main .writing := by
  cases hstep with
  | @read outcomes ok after hphase =>
      refine ⟨fun _ _ => ⟨hphase, ?_⟩, by rintro _ ⟨⟩⟩
      cases ok <;> rintro ⟨⟩
  | write hphase => exact ⟨by rintro _ ⟨⟩, fun _ _ => ⟨hphase, by rintro ⟨⟩⟩⟩
  | _ => exact ⟨by rintro _ ⟨⟩, by rintro _ ⟨⟩⟩

/-- A step of the server is for the client what it is in its slot. -/
theorem Step.shows (hstep : Step s label after) (h : Phased s phase) (hafter : Phased after phase')
    (hprojects : Projects s label fd (s.slot phase fd) (after.slot phase' fd)) :
    (after.slot phase' fd = s.slot phase fd ∧ s.traffic fd label = []) ∨
    ∃ l, SlotStep fd (s.slot phase fd) l (after.slot phase' fd) ∧
      s.traffic fd label = (s.slot phase fd).traffic fd l := by
  by_cases hcalls : ∃ l, CallsOn s fd label l
  · obtain ⟨l, hcall⟩ := hcalls
    refine Or.inr ⟨l, ?_⟩
    cases label with
    | read outcomes =>
        obtain ⟨hat, rfl⟩ := hcall
        exact ⟨hstep.slot_read h hafter hat, if_pos hat⟩
    | process w fs fellOff =>
        obtain ⟨hat, rfl⟩ := hcall
        exact ⟨hstep.slot_process h hafter hat,
          (if_pos hat).trans (HttpConn.queuedBy_userCount fd fs fellOff _ _ _)⟩
    | write outcomes =>
        obtain ⟨hat, rfl⟩ := hcall
        exact ⟨hstep.slot_write h hafter hat, if_pos hat⟩
    | _ => cases hcall
  have hnone : s.traffic fd label = [] := by
    cases label with
    | read outcomes => exact if_neg fun hat => hcalls ⟨_, hat, rfl⟩
    | process w fs fellOff => exact if_neg fun hat => hcalls ⟨_, hat, rfl⟩
    | write outcomes => exact if_neg fun hat => hcalls ⟨_, hat, rfl⟩
    | _ => rfl
  -- `main` is in no call on this slot that could have ended
  have hmain : ∀ {stage : MainStage}, (s.slot phase fd).phase = .main stage →
      stage = .reading ∨ stage = .writing → (after.slot phase' fd).phase = .main stage := by
    intro stage hphase hcall
    have hat := ((h.located fd).main stage).mpr hphase
    rcases hstep.main_stays hat hcall with hsame | ⟨outcomes, rfl, rfl⟩ | ⟨outcomes, rfl, rfl⟩
    · exact ((hafter.located fd).main stage).mp (hsame ▸ hat)
    · exact absurd ⟨_, hat, rfl⟩ hcalls
    · exact absurd ⟨_, hat, rfl⟩ hcalls
  cases hprojects with
  | stay hsame => exact Or.inl ⟨hsame, hnone⟩
  | @step l hslot hlabel =>
      refine Or.inr ⟨l, hslot, hnone.trans ?_⟩
      cases l with
      | read outcomes =>
          obtain ⟨hbefore, hbehind⟩ := (SlotStep.returns hslot).1 outcomes rfl
          exact absurd (hmain hbefore (Or.inl rfl)) hbehind
      | process fs fellOff =>
          obtain ⟨w, rfl, hat⟩ := hlabel
          exact absurd ⟨_, hat, rfl⟩ hcalls
      | write outcomes =>
          obtain ⟨hbefore, hbehind⟩ := (SlotStep.returns hslot).2 outcomes rfl
          exact absurd (hmain hbefore (Or.inr rfl)) hbehind
      | _ => rfl

/-- A run of the server is for every slot a run of its own, with the same
traffic. -/
theorem run_traffic (hrun : (unhit ι).Run history s) :
    ∃ phase, Phased s phase ∧ ∀ fd, ∃ slotHistory,
      (slotSystem ι fd).Run slotHistory (s.slot phase fd) ∧
        trace (Server.traffic fd) history = trace (Slot.traffic fd) slotHistory := by
  induction hrun with
  | start hstart =>
      obtain ⟨hphased, hslots⟩ := Starts.phased hstart
      exact ⟨_, hphased, fun fd => ⟨[], .start (hslots fd), rfl⟩⟩
  | @snoc history before after label _ hstep ih =>
      obtain ⟨phase, hphased, hslots⟩ := ih
      have hsteady : ∀ fd, Steady fd (before.slot phase fd) := by
        intro fd
        obtain ⟨slotHistory, hslotRun, -⟩ := hslots fd
        exact (slot_coherent ⟨slotHistory, hslotRun⟩).toSteady
      obtain ⟨phase', hphased', hprojects⟩ := Step.projected hstep hphased hsteady
      refine ⟨phase', hphased', fun fd => ?_⟩
      obtain ⟨slotHistory, hslotRun, htrace⟩ := hslots fd
      rw [trace_snoc, htrace]
      rcases hstep.shows hphased hphased' (hprojects fd) with ⟨hsame, hnone⟩ | ⟨l, hslot, hshows⟩
      · rw [hsame, hnone, List.append_nil]
        exact ⟨slotHistory, hslotRun, rfl⟩
      · exact ⟨_, hslotRun.snoc hslot, by rw [hshows, trace_snoc]⟩

omit [DecidableEq ι] in
/-- In a server that waits for events a slot that is armed is idle. -/
theorem Phased.idle_of_armed (h : Phased s phase) (hmain : s.main = .waiting)
    (hcoherent : Coherent fd (s.slot phase fd)) {ev : Interest}
    (harmed : s.epoll fd = some (.armed ev)) : phase fd = .idle := by
  have hreleased : (phase fd).Released := hcoherent.armed ev harmed
  cases hphase : phase fd with
  | idle => rfl
  | main stage =>
      have hat := ((h.located fd).main stage).mpr hphase
      rw [hmain] at hat
      cases hat
  | unused | reported | queued | worker =>
      rw [hphase] at hreleased
      exact hreleased.elim

omit [DecidableEq ι] in
theorem Phased.direction_of_armed (h : Phased s phase) (hmain : s.main = .waiting)
    (hcoherent : Coherent fd (s.slot phase fd)) {ev : Interest}
    (harmed : s.epoll fd = some (.armed ev)) : (s.slot phase fd).direction = some ev := by
  have hidle := h.idle_of_armed hmain hcoherent harmed
  simp [Slot.direction, Server.slot, hidle, harmed, armedFor]

/-- In a run whose stores lie inside, what is written to a client is the
response queued for it last, which is a whole one.  Where no `writev` takes
only a part of it, the client receives the responses in order and each of them
once, the last one perhaps not to its end; and while the server waits for
events, an open connection that is armed for reading has received them all, and
one that is armed for writing all but the last. -/
theorem responses_delivered (mem : Nat → Byte) (hrun : (server ι).Run history s)
    (hinside : ∀ entry ∈ history, StoresInside entry.1 entry.2) :
    (∀ conn, .queued conn ∈ trace (Server.traffic fd) history →
      ∃ ret mid, conn.Responds ret mid ∧ conn.Whole ret mid) ∧
    (∀ earlier before outcomes later,
      history = earlier ++ (before, .write outcomes) :: later →
      before.main.at = some (fd, .writing) → counts outcomes ≠ [] →
      (Traffic.responses mem (trace (Server.traffic fd) earlier)).getLast? =
        some (HttpConn.offered mem (before.users fd))) ∧
    (Traffic.AllTaken mem (trace (Server.traffic fd) history) →
      Traffic.sent mem (trace (Server.traffic fd) history) <+:
        (Traffic.responses mem (trace (Server.traffic fd) history)).flatten ∧
      (s.main = .waiting → (s.users fd).sockfd ≠ -1 →
        (s.epoll fd = some (.armed .epollin) →
          Traffic.sent mem (trace (Server.traffic fd) history) =
            (Traffic.responses mem (trace (Server.traffic fd) history)).flatten) ∧
        (s.epoll fd = some (.armed .epollout) →
          Traffic.sent mem (trace (Server.traffic fd) history) ++
              HttpConn.offered mem (s.users fd) =
            (Traffic.responses mem (trace (Server.traffic fd) history)).flatten))) := by
  replace hrun := run_unhit hrun hinside
  refine ⟨fun conn hmem => ?_, ?_, fun hall => ?_⟩
  · obtain ⟨phase, -, hslots⟩ := run_traffic hrun
    obtain ⟨slotHistory, hslotRun, htrace⟩ := hslots fd
    rw [htrace] at hmem
    obtain ⟨ret, mid, hresponds⟩ := slot_queues hslotRun hmem
    exact ⟨ret, mid, hresponds, hresponds.whole⟩
  · rintro earlier before outcomes later rfl hat hcounts
    obtain ⟨hbefore, after, hstep⟩ := hrun.split
    obtain ⟨phase, hphased, hslots⟩ := run_traffic hbefore
    obtain ⟨slotHistory, hslotRun, htrace⟩ := hslots fd
    have hphase : (before.slot phase fd).phase = .main .writing :=
      ((hphased.located fd).main _).mp hat
    have hlive : (before.users fd).sockfd ≠ -1 := by
      intro hclosed
      cases hstep with
      | write hmain hwrite hbad =>
          rw [hmain] at hat
          obtain rfl := congrArg Prod.fst (Option.some.inj hat)
          refine hcounts (List.filterMap_eq_nil_iff.mpr fun outcome hmem => ?_)
          rw [hbad hclosed outcome hmem]
    obtain ⟨others, hresponses, -⟩ := (slot_delivers mem hslotRun).owing hlive
      (by simp [Slot.direction, hphase])
    rw [htrace, hresponses, List.getLast?_append_of_ne_nil _ (List.cons_ne_nil _ _)]
    rfl
  · obtain ⟨phase, hphased, hslots⟩ := run_traffic hrun
    obtain ⟨slotHistory, hslotRun, htrace⟩ := hslots fd
    rw [htrace] at hall ⊢
    have hdelivered := slot_delivers mem hslotRun
    refine ⟨hdelivered.inOrder hall, fun hmain hlive => ?_⟩
    have hdirection {ev : Interest} (harmed : s.epoll fd = some (.armed ev)) :=
      hphased.direction_of_armed hmain hdelivered.answering.emptied.coherent harmed
    refine ⟨fun harmed => hdelivered.paid hlive (hdirection harmed) hall, fun harmed => ?_⟩
    obtain ⟨earlier, hresponses, hsent⟩ := hdelivered.owing hlive (hdirection harmed)
    rw [hresponses, hsent hall, List.flatten_append, List.flatten_singleton]
    rfl

omit [DecidableEq ι] in
/-- Without `write` nothing is sent. -/
theorem allTaken_of_unwritten (h : ∀ entry ∈ history, ∀ outcomes, entry.2 ≠ .write outcomes) :
    Traffic.AllTaken mem (trace (Server.traffic fd) history) := by
  intro t hmem
  rw [trace, List.mem_flatMap] at hmem
  obtain ⟨⟨before, label⟩, hentry, hmem⟩ := hmem
  cases label with
  | write outcomes => exact absurd rfl (h _ hentry outcomes)
  | read outcomes =>
      rw [Server.traffic] at hmem
      split at hmem
      · rw [List.mem_singleton] at hmem
        subst hmem
        trivial
      · cases hmem
  | process w fs fellOff =>
      rw [Server.traffic, HttpConn.queuedBy] at hmem
      split at hmem
      · split at hmem
        · rw [List.mem_singleton] at hmem
          subst hmem
          trivial
        · cases hmem
      · cases hmem
  | _ => cases hmem

end Runs

/-- A client has asked for something that does not exist.  The server is at
rest, and the slot is armed for the response. -/
structure AskedMissing (history : List (Server (Fin 8) × Label (Fin 8))) (s : Server (Fin 8)) :
    Prop where
  run : (server (Fin 8)).Run history s
  inside : ∀ entry ∈ history, StoresInside entry.1 entry.2
  unwritten : ∀ entry ∈ history, ∀ outcomes, entry.2 ≠ .write outcomes
  room : ∀ entry ∈ history, entry.2 = .append → entry.1.queue.length ≤ MAX_REQUESTS
  initialised : Initialised history (clientFd 0)
  main : s.main = .waiting
  queue : s.queue = []
  tasks : s.tasks = 0
  workers : ∀ w, s.workers w = .waiting
  live : (s.users (clientFd 0)).sockfd ≠ -1
  armed : s.epoll (clientFd 0) = some (.armed .epollout)

theorem exists_askedMissing : ∃ history s, AskedMissing history s := by
  obtain ⟨history, s, h⟩ := exists_processing (0 : Fin 8) (rootRequest ++ CR :: LF :: [CR, LF])
    (List.cons_ne_nil _ _) HttpConn.root_fits
  obtain ⟨-, conn, hsockfd, -, -, -, hprocess⟩ :=
    HttpConn.missing_process (HttpConn.idle.setSockfd (clientFd 0)) s.userCount
  have hconn : s.users (clientFd 0) = HttpConn.recvBytes
      (rootRequest ++ CR :: LF :: [CR, LF]) (HttpConn.idle.setSockfd (clientFd 0)).init := h.conn
  rw [← hconn] at hprocess
  have hanswer : ∀ answer ∈ (s.users (clientFd 0)).fileAnswer HttpConn.missing none,
      answer.opens = false := by
    simp [HttpConn.fileAnswer_missing]
  have hinside : StoresInside s (.process 0 HttpConn.missing none) := by
    intro fd hfd
    rw [h.worker, WorkerPc.slot, Option.some.injEq] at hfd
    rw [← hfd, h.conn]
    exact root_strayStores none
  have hserve := (run_server h.run).snoc
    (Step.server (.process h.worker hanswer) hinside)
  have hrearm := hserve.snoc (Step.server (.rearm (Function.update_self ..)) trivial)
  refine ⟨_, _, hrearm, ?_, ?_, ?_, ?_, h.main, h.queue, h.tasks, fun w => ?_, ?_, ?_⟩
  · simpa [or_imp, forall_and, hinside] using
      ⟨fun a b hmem => (h.steps (a, b) hmem).inside, trivial⟩
  · simpa [or_imp, forall_and] using fun a b hmem => (h.steps (a, b) hmem).unwritten
  · simpa [or_imp, forall_and] using fun a b hmem => (h.steps (a, b) hmem).room
  · exact (h.initialised.mono _).mono _
  · by_cases hw : w = 0
    · subst hw
      simp
    · simp [hw, h.waiting]
  · dsimp only
    rw [Function.update_self, hprocess, hsockfd]
    decide
  · dsimp only
    rw [hprocess]
    exact runEntry_modfd (by rw [h.entry]; exact Option.some_ne_none _) [] .epollout

/-- The response to it is what is still to be sent. -/
theorem responses_delivered_missing :
    ∃ history, ∃ s : Server (Fin 8), (server (Fin 8)).Run history s ∧
      s.epoll (clientFd 0) = some (.armed .epollout) ∧ ∀ mem,
        Traffic.sent mem (trace (Server.traffic (clientFd 0)) history) ++
            HttpConn.offered mem (s.users (clientFd 0)) =
          (Traffic.responses mem (trace (Server.traffic (clientFd 0)) history)).flatten := by
  obtain ⟨history, s, h⟩ := exists_askedMissing
  refine ⟨history, s, h.run, h.armed, fun mem => ?_⟩
  exact (((responses_delivered mem h.run h.inside).2.2
    (allTaken_of_unwritten h.unwritten)).2 h.main h.live).2 h.armed

end LinuxLearning.Webserver
