/-
Connections that are kept alive.  `init` clears the read buffer, so what one
`read` has received behind the end of a request is gone once the response is
written: requests are all served exactly when every one ends where a read
ends.
-/
import LinuxLearning.Lib.Framing
import LinuxLearning.Webserver.Body
import LinuxLearning.Webserver.Read
import LinuxLearning.Webserver.Write

namespace LinuxLearning.Webserver

open Lines CString Framing

/-- The bytes of the request that a call of `process_read` has called
`do_request` for: what it has parsed of what was received. -/
def Call.served (call : Call) : Option (List Byte) :=
  match call.result with
  | .doRequest => some (call.received.take call.after.checkedIdx)
  | .code _ => none

/-- The requests that `do_request` was called for. -/
def served (calls : List Call) : List (List Byte) := calls.filterMap Call.served

/-- A whole request without a body that does not close the connection. -/
def IsPlain (bytes : List Byte) : Prop :=
  ∃ request headers blank, IsHead request headers blank ∧
    bytes = headBytes request headers blank ∧ (fieldsOf headers).contenLength = 0 ∧
    (fieldsOf headers).linger = true

namespace HttpConn

/-- The calls of `write` that send a response completely, with the return
value and the connection of the last. -/
inductive Delivers (mem : Nat → Byte) : HttpConn → Bool → HttpConn → Prop
  | again {c next : HttpConn} {outcomes : List WritevOutcome} {r : WriteResult} {ok : Bool}
      (hwrite : write mem c outcomes = some r) (hending : r.ending = .again)
      (hrest : Delivers mem r.conn ok next) : Delivers mem c ok next
  | completed {c : HttpConn} {outcomes : List WritevOutcome} {r : WriteResult}
      (hwrite : write mem c outcomes = some r) (hending : r.ending = .completed) :
      Delivers mem c r.ret r.conn

/-- A connection on which every response is written completely: what one
`read` after the other receives, and the calls of `process_read`.  `received`
has come since the last `init`. -/
inductive Conversation (fs : List Byte → FsAnswer) (fellOff : Option HttpCode)
    (mem : Nat → Byte) : HttpConn → List Byte → List (List RecvOutcome) → List Call → Prop
  | idle (c : HttpConn) (received : List Byte) :
      Conversation fs fellOff mem c received [] []
  | wait {c full after : HttpConn} {received : List Byte} {outcomes : List RecvOutcome}
      {reads : List (List RecvOutcome)} {calls : List Call}
      (hread : c.read outcomes = some (true, full))
      (hloop : full.readRequest fellOff = (after, .code .noRequest))
      (hrest : Conversation fs fellOff mem after (received ++ dataOf outcomes) reads calls) :
      Conversation fs fellOff mem c received (outcomes :: reads)
        (⟨received ++ dataOf outcomes, after, .code .noRequest⟩ :: calls)
  /-- A response, after which the connection is reset. -/
  | respond {c full after mid queued next : HttpConn} {received : List Byte}
      {outcomes : List RecvOutcome} {reads : List (List RecvOutcome)} {calls : List Call}
      {result : ReadResult} {code : HttpCode} {sys : List SysCall}
      (hread : c.read outcomes = some (true, full))
      (hloop : full.readRequest fellOff = (after, result))
      (hanswer : answerRequest fs (after, result) = (code, mid, sys))
      (hcode : code ≠ .noRequest) (hqueue : mid.processWrite code = (true, queued))
      (hsent : Delivers mem queued true next)
      (hrest : Conversation fs fellOff mem next [] reads calls) :
      Conversation fs fellOff mem c received (outcomes :: reads)
        (⟨received ++ dataOf outcomes, after, result⟩ :: calls)
  /-- A response, after which the connection is closed. -/
  | finish {c full after mid queued next : HttpConn} {received : List Byte}
      {outcomes : List RecvOutcome} {reads : List (List RecvOutcome)}
      {result : ReadResult} {code : HttpCode} {sys : List SysCall}
      (hread : c.read outcomes = some (true, full))
      (hloop : full.readRequest fellOff = (after, result))
      (hanswer : answerRequest fs (after, result) = (code, mid, sys))
      (hcode : code ≠ .noRequest) (hqueue : mid.processWrite code = (true, queued))
      (hsent : Delivers mem queued false next) :
      Conversation fs fellOff mem c received (outcomes :: reads)
        [⟨received ++ dataOf outcomes, after, result⟩]
  /-- What is no request is not answered, and the connection is closed. -/
  | reject {c full after : HttpConn} {received : List Byte} {outcomes : List RecvOutcome}
      {reads : List (List RecvOutcome)} {code : HttpCode}
      (hread : c.read outcomes = some (true, full))
      (hloop : full.readRequest fellOff = (after, .code code)) (hcode : code ≠ .noRequest)
      (hclosed : (after.processWrite code).1 = false) :
      Conversation fs fellOff mem c received (outcomes :: reads)
        [⟨received ++ dataOf outcomes, after, .code code⟩]

section Delivered

variable {mem : Nat → Byte} {c next : HttpConn} {ok : Bool}

theorem unmap_linger (c : HttpConn) : c.unmap.1.linger = c.linger := by
  unfold unmap
  split <;> rfl

/-- The branch for a finished response keeps the connection exactly when
`m_linger` is set. -/
theorem writeLoop_completed {toSend haveSend : Int} {outcomes : List WritevOutcome}
    {r : WriteResult} (h : writeLoop mem c toSend haveSend outcomes = some r)
    (hending : r.ending = .completed) :
    r.ret = c.linger ∧ r.conn = if c.linger then c.unmap.1.init else c.unmap.1 := by
  induction outcomes generalizing toSend haveSend r with
  | nil => cases h
  | cons outcome later ih =>
      cases outcome with
      | eagain =>
          obtain ⟨-, rfl⟩ := WriteResult.endsWith_eq_some h
          cases hending
      | error =>
          obtain ⟨-, rfl⟩ := WriteResult.endsWith_eq_some h
          cases hending
      | sent k =>
          simp only [writeLoop] at h
          split at h
          · obtain ⟨-, rfl⟩ := WriteResult.endsWith_eq_some h
            simp only [WriteResult.after, finishWrite, unmap_linger]
            split
            · rename_i hlinger
              exact ⟨hlinger.symm, rfl⟩
            · rename_i hlinger
              exact ⟨(Bool.eq_false_iff.mpr hlinger).symm, rfl⟩
          · obtain ⟨rest, hrest, rfl⟩ := Option.map_eq_some_iff.mp h
            exact ih (r := rest) hrest hending

theorem write_completed {outcomes : List WritevOutcome} {r : WriteResult}
    (h : write mem c outcomes = some r) (hending : r.ending = .completed) :
    r.ret = c.linger ∧ r.conn = if c.linger then c.unmap.1.init else c.unmap.1 := by
  rw [write] at h
  split at h
  · obtain ⟨-, rfl⟩ := WriteResult.endsWith_eq_some h
    cases hending
  · exact writeLoop_completed h hending

theorem write_again {outcomes : List WritevOutcome} {r : WriteResult}
    (h : write mem c outcomes = some r) (hending : r.ending = .again) : r.conn = c := by
  rw [write] at h
  split at h
  · obtain ⟨-, rfl⟩ := WriteResult.endsWith_eq_some h
    cases hending
  · exact (writeLoop_loops h).conn hending

/-- A response that is written completely leaves a connection that is reset,
or is to be closed. -/
theorem Delivers.eq (h : Delivers mem c ok next) :
    ok = c.linger ∧ next = if c.linger then c.unmap.1.init else c.unmap.1 := by
  induction h with
  | again hwrite hending hrest ih =>
      rw [write_again hwrite hending] at ih
      exact ih
  | completed hwrite hending => exact write_completed hwrite hending

theorem Delivers.reset (h : Delivers mem c true next) : next = c.unmap.1.init := by
  obtain ⟨hlinger, hnext⟩ := h.eq
  rw [hnext, if_pos hlinger.symm]

/-- One `writev` that takes enough delivers a response. -/
theorem exists_delivers (mem : Nat → Byte) {k : Fin (MAX_RW_COUNT + 1)} (hwritten : c.writeIdx ≠ 0)
    (henough : c.writeIdx ≤ 2 * (k : Nat)) (hlinger : c.linger = true) :
    ∃ next, Delivers mem c true next := by
  have hwrite := write_single mem hwritten henough
  have hending : (c.finishWrite.after ((offered mem c).take k)).ending = .completed :=
    finishWrite_ending c
  have hsent := Delivers.completed hwrite hending
  rw [(write_completed hwrite hending).1, hlinger] at hsent
  exact ⟨_, hsent⟩

end Delivered

theorem processWrite_linger (c : HttpConn) (code : HttpCode) :
    (c.processWrite code).2.linger = c.linger := by
  rw [processWrite_responseOnly c code]

theorem doRequest_linger (fs : List Byte → FsAnswer) (c : HttpConn) :
    (c.doRequest fs).2.1.linger = c.linger := by
  rw [doRequest_shape]

/-- What is answered was decided on. -/
theorem answered_decided {fs : List Byte → FsAnswer} {after mid : HttpConn}
    {result : ReadResult} {code : HttpCode} {sys : List SysCall}
    (hanswer : answerRequest fs (after, result) = (code, mid, sys)) (hcode : code ≠ .noRequest) :
    result ≠ .code .noRequest := by
  rintro rfl
  exact hcode (congrArg Prod.fst hanswer).symm

/-- The answer to a request leaves `m_linger` as the request has set it. -/
theorem queued_linger {fs : List Byte → FsAnswer} {after mid queued : HttpConn}
    {code : HttpCode} {sys : List SysCall}
    (hanswer : answerRequest fs (after, .doRequest) = (code, mid, sys))
    (hqueue : mid.processWrite code = (true, queued)) : queued.linger = after.linger := by
  have hmid : (after.doRequest fs).2.1 = mid := congrArg (·.2.1) hanswer
  have hqueued : (mid.processWrite code).2 = queued := congrArg Prod.snd hqueue
  rw [← hqueued, processWrite_linger, ← hmid, doRequest_linger]

/-- The call on a whole plain request, with whatever follows it. -/
theorem oneShot_plain (fellOff : Option HttpCode) (c : HttpConn) {bytes : List Byte}
    (h : IsPlain bytes) {more : List Byte} (hfit : (bytes ++ more).length ≤ READ_BUFFER_SIZE) :
    ∃ mid, oneShot fellOff c (bytes ++ more) = (mid, .doRequest) ∧
      mid.checkedIdx = bytes.length ∧ mid.linger = true := by
  obtain ⟨request, headers, blank, hhead, rfl, hlength, hlinger⟩ := h
  obtain ⟨mid, htracks, hfields, hread⟩ := readRequest_head fellOff c hhead hfit
  rw [if_pos hlength] at hread
  exact ⟨mid, hread, htracks.lengths.1, hfields.linger.trans hlinger⟩

/-- The call on a part of a plain request waits. -/
theorem oneShot_part (fellOff : Option HttpCode) (c : HttpConn) {bytes : List Byte}
    (h : IsPlain bytes) {part rest : List Byte} (hbytes : bytes = part ++ rest)
    (hless : part.length < bytes.length) (hfit : part.length ≤ READ_BUFFER_SIZE) :
    (oneShot fellOff c part).2 = .code .noRequest := by
  obtain ⟨request, headers, blank, hhead, rfl, -, -⟩ := h
  refine oneShot_part_of_head fellOff c hhead hbytes ?_ hfit
  rintro rfl
  rw [hbytes, List.append_nil] at hless
  exact Nat.lt_irrefl _ hless

end HttpConn

theorem served_doRequest (received : List Byte) (after : HttpConn) (calls : List Call) :
    served (⟨received, after, .doRequest⟩ :: calls) =
      received.take after.checkedIdx :: served calls := rfl

theorem served_cons_le (call : Call) (calls : List Call) :
    (served (call :: calls)).flatten.length ≤
      call.received.length + (served calls).flatten.length := by
  rw [served, List.filterMap_cons]
  cases hserved : call.served with
  | none => exact Nat.le_add_left _ _
  | some bytes =>
      have hbytes : bytes.length ≤ call.received.length := by
        rw [Call.served] at hserved
        split at hserved
        · rw [← Option.some.inj hserved, List.length_take]
          exact Nat.min_le_right _ _
        · cases hserved
      simp only [List.flatten_cons, List.length_append]
      exact Nat.add_le_add_right hbytes _

theorem IsPlain.ne_nil {bytes : List Byte} (h : IsPlain bytes) : 0 < bytes.length := by
  obtain ⟨request, headers, blank, -, rfl, -⟩ := h
  simp [headBytes]

namespace HttpConn

section Conversation

variable {fs : List Byte → FsAnswer} {fellOff : Option HttpCode} {mem : Nat → Byte}
  {c : HttpConn} {received : List Byte} {reads : List (List RecvOutcome)} {calls : List Call}

/-- No more is served than is received. -/
theorem Conversation.served_le (h : Conversation fs fellOff mem c received reads calls) :
    (served calls).flatten.length ≤ (received ++ (reads.map dataOf).flatten).length := by
  induction h with
  | idle c received => exact Nat.zero_le _
  | @wait c full after received outcomes reads calls hread hloop hrest ih =>
      rw [List.map_cons, List.flatten_cons, ← List.append_assoc]
      exact ih
  | @respond c full after mid queued next received outcomes reads calls result code sys hread
      hloop hanswer hcode hqueue hsent hrest ih =>
      have hcall := served_cons_le ⟨received ++ dataOf outcomes, after, result⟩ calls
      rw [List.nil_append] at ih
      rw [List.map_cons, List.flatten_cons, ← List.append_assoc, List.length_append]
      exact Nat.le_trans hcall (Nat.add_le_add_left ih _)
  | @finish c full after mid queued next received outcomes reads result code sys hread hloop =>
      have hcall := served_cons_le ⟨received ++ dataOf outcomes, after, result⟩ []
      rw [List.map_cons, List.flatten_cons, ← List.append_assoc, List.length_append]
      exact Nat.le_trans hcall (Nat.add_le_add_left (Nat.zero_le _) _)
  | reject => exact Nat.zero_le _

section Turn

variable {start full after : HttpConn} {outcomes : List RecvOutcome} {result : ReadResult}

/-- One read and the call behind it, in terms of all that has been received. -/
theorem turn_oneShot (hresumes : Resumes fellOff start received c)
    (hread : c.read outcomes = some (true, full))
    (hloop : full.readRequest fellOff = (after, result))
    (hlen : (received ++ dataOf outcomes).length ≤ READ_BUFFER_SIZE) :
    oneShot fellOff start (received ++ dataOf outcomes) = (after, result) ∧
      (result = .code .noRequest →
        Resumes fellOff start (received ++ dataOf outcomes) after) := by
  have hshot : oneShot fellOff start (received ++ dataOf outcomes) = (after, result) := by
    rw [← hresumes.resume _ hlen, ← read_data hread, hloop]
  refine ⟨hshot, fun hwaits => ?_⟩
  have hnext := hresumes.step hlen ((congrArg Prod.snd hshot).trans hwaits)
  rw [hshot] at hnext
  exact hnext

/-- What they do to a stream of plain requests: the call waits inside the
first of them, and calls `do_request` for it once it is complete. -/
theorem turn_cases {request rest more : List Byte}
    (hresumes : Resumes fellOff start received c) (hread : c.read outcomes = some (true, full))
    (hloop : full.readRequest fellOff = (after, result)) (hplain : IsPlain request)
    (hbytes : received ++ dataOf outcomes ++ more = request ++ rest)
    (hfit : (request ++ rest).length ≤ READ_BUFFER_SIZE) :
    ((received ++ dataOf outcomes).length < request.length ∧ result = .code .noRequest ∧
      Resumes fellOff start (received ++ dataOf outcomes) after) ∨
    (request.length ≤ (received ++ dataOf outcomes).length ∧ result = .doRequest ∧
      (received ++ dataOf outcomes).take after.checkedIdx = request ∧ after.linger = true) := by
  have hlen : (received ++ dataOf outcomes).length ≤ READ_BUFFER_SIZE := by
    rw [← hbytes, List.length_append] at hfit
    omega
  obtain ⟨hshot, hnext⟩ := turn_oneShot hresumes hread hloop hlen
  generalize received ++ dataOf outcomes = s at hbytes hlen hshot hnext ⊢
  by_cases hless : s.length < request.length
  · -- inside the request
    obtain ⟨tail, htail⟩ : s <+: request :=
      List.prefix_of_prefix_length_le ⟨more, hbytes⟩ ⟨rest, rfl⟩ (Nat.le_of_lt hless)
    have hwaits := oneShot_part fellOff start hplain htail.symm hless hlen
    rw [hshot] at hwaits
    exact Or.inl ⟨hless, hwaits, hnext hwaits⟩
  · -- the request and what follows it
    obtain ⟨extra, rfl⟩ : request <+: s :=
      List.prefix_of_prefix_length_le ⟨rest, rfl⟩ ⟨more, hbytes⟩ (Nat.le_of_not_lt hless)
    obtain ⟨mid, hmid, hchecked, hlinger⟩ := oneShot_plain fellOff start hplain hlen
    obtain ⟨rfl, rfl⟩ := Prod.mk.inj (hshot.symm.trans hmid)
    refine Or.inr ⟨Nat.le_of_not_lt hless, rfl, ?_, hlinger⟩
    rw [hchecked, List.take_left]

/-- A call on nothing waits. -/
theorem oneShot_nothing (fellOff : Option HttpCode) (c : HttpConn) :
    (oneShot fellOff c []).2 = .code .noRequest := by
  apply oneShot_part_of_head fellOff c root_isHead (List.nil_append _).symm _ (Nat.zero_le _)
  simp [headBytes]

/-- What they do when no request is left. -/
theorem turn_nothing {more : List Byte} (hresumes : Resumes fellOff start received c)
    (hread : c.read outcomes = some (true, full))
    (hloop : full.readRequest fellOff = (after, result))
    (hbytes : received ++ dataOf outcomes ++ more = []) :
    result = .code .noRequest ∧ Resumes fellOff start (received ++ dataOf outcomes) after := by
  obtain ⟨hnone, -⟩ := List.append_eq_nil_iff.mp hbytes
  have hlen : (received ++ dataOf outcomes).length ≤ READ_BUFFER_SIZE := by
    rw [hnone]
    exact Nat.zero_le _
  obtain ⟨hshot, hnext⟩ := turn_oneShot hresumes hread hloop hlen
  have hwaits := oneShot_nothing fellOff start
  rw [← hnone, hshot] at hwaits
  exact ⟨hwaits, hnext hwaits⟩

end Turn

section Served

variable {after : HttpConn} {chunk request : List Byte} {chunks requests : List (List Byte)}

/-- A read that ends with a request: what remains decides. -/
theorem served_end_iff (htaken : (received ++ chunk).take after.checkedIdx = request)
    (hless : received.length < request.length)
    (hend : (received ++ chunk).length = request.length)
    (hrest : served calls = requests ↔ Aligned [] chunks requests) :
    served (⟨received ++ chunk, after, .doRequest⟩ :: calls) = request :: requests ↔
      Aligned received (chunk :: chunks) (request :: requests) := by
  rw [aligned_end hless hend, ← hrest, served_doRequest, htaken]
  simp

/-- A read that goes on behind a request: what it has received there is lost,
and too little follows to make up for it. -/
theorem served_past_iff (hless : received.length < request.length)
    (hpast : request.length < (received ++ chunk).length)
    (hbytes : received ++ chunk ++ chunks.flatten = (request :: requests).flatten)
    (htaken : (received ++ chunk).take after.checkedIdx = request)
    (hrest : (served calls).flatten.length ≤ ([] ++ chunks.flatten).length) :
    served (⟨received ++ chunk, after, .doRequest⟩ :: calls) = request :: requests ↔
      Aligned received (chunk :: chunks) (request :: requests) := by
  apply iff_of_false
  · intro hall
    rw [served_doRequest, htaken, List.cons.injEq] at hall
    have hlen := congrArg List.length hbytes
    rw [hall.2] at hrest
    simp only [List.nil_append, List.flatten_cons, List.length_append] at hrest hlen hpast
    omega
  · exact not_aligned_past hless hpast

end Served

/-- What `do_request` is called for, from any point on. -/
theorem Conversation.served_from (h : Conversation fs fellOff mem c received reads calls)
    {start : HttpConn} (hresumes : Resumes fellOff start received c)
    {requests : List (List Byte)} (hplain : ∀ request ∈ requests, IsPlain request)
    (hbytes : received ++ (reads.map dataOf).flatten = requests.flatten)
    (hfit : requests.flatten.length ≤ READ_BUFFER_SIZE)
    (hinside : ∀ request ∈ requests.head?, received.length < request.length) :
    served calls = requests ↔ Aligned received (reads.map dataOf) requests := by
  induction h generalizing start requests with
  | idle c received =>
      cases requests with
      | nil => exact iff_of_true rfl aligned_nil
      | cons request requests =>
          have hless := hinside request rfl
          have hlen := congrArg List.length hbytes
          simp only [List.map_nil, List.flatten_nil, List.append_nil, List.flatten_cons,
            List.length_append] at hlen
          omega
  | @wait c full after received outcomes reads calls hread hloop hrest ih =>
      rw [List.map_cons, List.flatten_cons, ← List.append_assoc] at hbytes
      cases requests with
      | nil =>
          obtain ⟨-, hnext⟩ := turn_nothing hresumes hread hloop hbytes
          have hrest := ih hnext hplain hbytes hfit (by simp)
          exact iff_of_true (hrest.mpr aligned_nil) aligned_nil
      | cons request requests =>
          rcases turn_cases hresumes hread hloop (hplain _ List.mem_cons_self) hbytes hfit with
            ⟨hless, -, hnext⟩ | ⟨-, hcalled, -⟩
          · rw [List.map_cons, aligned_within hless]
            exact ih hnext hplain hbytes hfit (by simpa using hless)
          · cases hcalled
  | @respond c full after mid queued next received outcomes reads calls result code sys hread
      hloop hanswer hcode hqueue hsent hrest ih =>
      rw [List.map_cons, List.flatten_cons, ← List.append_assoc] at hbytes
      have hwaits := answered_decided hanswer hcode
      cases requests with
      | nil => exact absurd (turn_nothing hresumes hread hloop hbytes).1 hwaits
      | cons request requests =>
          rcases turn_cases hresumes hread hloop (hplain _ List.mem_cons_self) hbytes hfit with
            ⟨-, hresult, -⟩ | ⟨hwhole, rfl, htaken, -⟩
          · exact absurd hresult hwaits
          · have hless := hinside request rfl
            rcases Nat.eq_or_lt_of_le hwhole with hend | hpast
            · have hlater : (reads.map dataOf).flatten = requests.flatten :=
                (List.append_inj hbytes hend.symm).2
              have hreset : Resumes fellOff queued.unmap.1 [] next := by
                rw [hsent.reset]
                exact init_resumes fellOff _
              have hplain' := (List.forall_mem_cons.mp hplain).2
              rw [List.flatten_cons, List.length_append] at hfit
              apply served_end_iff htaken hless hend.symm
              refine ih hreset hplain' hlater (by omega) ?_
              intro later hlater
              exact (hplain' later (List.mem_of_mem_head? hlater)).ne_nil
            · exact served_past_iff hless hpast hbytes htaken hrest.served_le
  | @finish c full after mid queued next received outcomes reads result code sys hread hloop
      hanswer hcode hqueue hsent =>
      rw [List.map_cons, List.flatten_cons, ← List.append_assoc] at hbytes
      have hwaits := answered_decided hanswer hcode
      cases requests with
      | nil => exact absurd (turn_nothing hresumes hread hloop hbytes).1 hwaits
      | cons request requests =>
          rcases turn_cases hresumes hread hloop (hplain _ List.mem_cons_self) hbytes hfit with
            ⟨-, hresult, -⟩ | ⟨-, rfl, -, hlinger⟩
          · exact absurd hresult hwaits
          · have hqueued := queued_linger hanswer hqueue
            cases hsent.eq.1.trans (hqueued.trans hlinger)
  | @reject c full after received outcomes reads code hread hloop hcode hclosed =>
      rw [List.map_cons, List.flatten_cons, ← List.append_assoc] at hbytes
      have hwaits : ReadResult.code code ≠ .code .noRequest := by simpa using hcode
      cases requests with
      | nil => exact absurd (turn_nothing hresumes hread hloop hbytes).1 hwaits
      | cons request requests =>
          rcases turn_cases hresumes hread hloop (hplain _ List.mem_cons_self) hbytes hfit with
            ⟨-, hresult, -⟩ | ⟨-, hcalled, -⟩
          · exact absurd hresult hwaits
          · cases hcalled

/-- `do_request` is called for each request once and in order exactly when
each of them ends where a read ends. -/
theorem Conversation.served_iff {reads : List (List RecvOutcome)} {calls : List Call}
    (h : Conversation fs fellOff mem c.init [] reads calls) {requests : List (List Byte)}
    (hplain : ∀ request ∈ requests, IsPlain request)
    (hbytes : (reads.map dataOf).flatten = requests.flatten)
    (hfit : requests.flatten.length < READ_BUFFER_SIZE) :
    served calls = requests ↔ Aligned [] (reads.map dataOf) requests := by
  refine h.served_from (init_resumes fellOff c) hplain hbytes (Nat.le_of_lt hfit) ?_
  intro request hrequest
  exact (hplain request (List.mem_of_mem_head? hrequest)).ne_nil

end Conversation

/-- A file that not everyone may read. -/
def secretFile : FsAnswer := ⟨some ⟨0o100600, 0⟩, false, none⟩

theorem root_isPlain : IsPlain (headBytes rootRequest [] []) :=
  ⟨_, _, _, root_isHead, rfl, rfl, rfl⟩

/-- One read with the plainest request at its start, and the answer to it. -/
theorem exists_conversation (more : List Byte)
    (hfit : (headBytes rootRequest [] [] ++ more).length ≤ READ_BUFFER_SIZE) :
    ∃ calls, Conversation (fun _ => secretFile) none (fun _ => 0) idle.init []
      [[.data (headBytes rootRequest [] [] ++ more), .eagain]] calls := by
  have hread : idle.init.read [.data (headBytes rootRequest [] [] ++ more), .eagain] =
      some (true, recvBytes (headBytes rootRequest [] [] ++ more) idle.init) := by
    have hchunks : idle.init.read
        ([headBytes rootRequest [] [] ++ more].map RecvOutcome.data ++ [.eagain]) =
          some (true, recvBytes [headBytes rootRequest [] [] ++ more].flatten idle.init) :=
      read_chunks (by decide) (by simp [headBytes]) (by simpa [init] using hfit)
    simpa using hchunks
  obtain ⟨mid, -, -, hloop, -, -, houtput⟩ := doRequest_from (c := idle) none root_isHead rfl hfit
  obtain ⟨mid', hplain, -, hlinger⟩ := oneShot_plain none idle root_isPlain hfit
  obtain ⟨rfl, -⟩ := Prod.mk.inj (hplain.symm.trans hloop)
  have hanswer : answerRequest (fun _ => secretFile) (mid', .doRequest) =
      (.forbiddenRequest, mid'.buildPath.setStat ⟨0o100600, 0⟩, []) := by
    rw [answerRequest]
    exact @doRequest_forbidden _ _ secretFile _ rfl rfl (by decide)
  have hwritten : (mid'.buildPath.setStat ⟨0o100600, 0⟩).Written [] :=
    (written_of_output houtput).congr rfl rfl
  obtain ⟨hok, hqueued⟩ := processWrite_forbidden hwritten
  have hkeep := hlinger
  rw [← queued_linger hanswer (Prod.ext hok rfl)] at hkeep
  have htext : (mid'.buildPath.setStat ⟨0o100600, 0⟩).linger = true := hlinger
  have hidx := hqueued.written.writeIdx_eq
  rw [htext] at hidx
  have hninety : (responsePage true 403 error403Title error403Form).length = 90 := by decide
  rw [hninety] at hidx
  obtain ⟨next, hsent⟩ := exists_delivers (fun _ => 0) (k := 90) (by rw [hidx]; decide)
    (by rw [hidx]; decide) hkeep
  exact ⟨_, .respond hread hloop hanswer (by decide) (Prod.ext hok rfl) hsent (.idle _ _)⟩

/-- For one request. -/
theorem Conversation.served_iff_root :
    ∃ calls, served calls = [headBytes rootRequest [] []] ↔
      Aligned [] ([[.data (headBytes rootRequest [] [] ++ []), .eagain]].map dataOf)
        [headBytes rootRequest [] []] := by
  have hlen : (headBytes rootRequest [] [] ++ []).length = 18 := by decide
  obtain ⟨calls, h⟩ := exists_conversation [] (by rw [hlen]; decide)
  refine ⟨calls, h.served_iff ?_ ?_ ?_⟩
  · simpa using root_isPlain
  · simp [dataOf]
  · decide

/-- Of two requests in one read, the second is lost. -/
theorem pipelined_lost :
    ¬ ∀ (reads : List (List RecvOutcome)) (calls : List Call) (requests : List (List Byte)),
      Conversation (fun _ => secretFile) none (fun _ => 0) idle.init [] reads calls →
      (∀ request ∈ requests, IsPlain request) →
      (reads.map dataOf).flatten = requests.flatten →
      requests.flatten.length < READ_BUFFER_SIZE → served calls = requests := by
  intro hall
  have hlen : (headBytes rootRequest [] [] ++ headBytes rootRequest [] []).length = 36 := by decide
  obtain ⟨calls, h⟩ := exists_conversation (headBytes rootRequest [] [])
    (by rw [hlen]; decide)
  have hplain : ∀ request ∈ [headBytes rootRequest [] [], headBytes rootRequest [] []],
      IsPlain request := by simpa using root_isPlain
  have hbytes : ([[RecvOutcome.data (headBytes rootRequest [] [] ++ headBytes rootRequest [] []),
      .eagain]].map dataOf).flatten =
        [headBytes rootRequest [] [], headBytes rootRequest [] []].flatten := by
    simp [dataOf]
  have hserved := hall _ calls _ h hplain hbytes (by decide)
  have haligned := (h.served_from (init_resumes none idle) hplain hbytes (by decide)
    (by simpa using root_isPlain.ne_nil)).mp hserved
  refine not_aligned_past ?_ ?_ haligned
  · exact root_isPlain.ne_nil
  · decide

end HttpConn

end LinuxLearning.Webserver
