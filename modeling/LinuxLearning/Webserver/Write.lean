/-
`http_conn::write` and `http_conn::unmap`: what one call does with the
outcomes its `writev` calls meet, and what the calls for one response put on
the socket.
-/
import LinuxLearning.Lib.Resend
import LinuxLearning.Webserver.Process

namespace LinuxLearning.Webserver

open Lines CString Resend

/-- The most bytes `writev` moves in one call, so that an `int` holds its
result. -/
def MAX_RW_COUNT : Nat := 0x7ffff000

/-- What one `writev` does: it sends the first `k` bytes it is offered, or
fails, with EAGAIN or with another error. -/
inductive WritevOutcome where
  | sent (k : Fin (MAX_RW_COUNT + 1))
  | eagain
  | error
deriving Repr, DecidableEq

/-- How a call of `write` ends: at once with nothing to send, at EAGAIN, at
another error, or in the branch for a finished response. -/
inductive WriteEnd where
  | nothing | again | failed | completed
deriving Repr, DecidableEq

/-- A call of `write`: its return value, the slot after it, its system calls,
the bytes it put on the socket, and how it ended. -/
structure WriteResult where
  ret : Bool
  conn : HttpConn
  calls : List SysCall
  sent : List (Option Byte)
  ending : WriteEnd

namespace WriteResult

/-- The result when no outcome is left over. -/
def endsWith (r : WriteResult) : List WritevOutcome → Option WriteResult
  | [] => some r
  | _ :: _ => none

/-- `chunk` was sent before. -/
def after (r : WriteResult) (chunk : List (Option Byte)) : WriteResult :=
  { r with sent := chunk ++ r.sent }

end WriteResult

namespace HttpConn

/-- `http_conn::unmap` -/
def unmap (c : HttpConn) : HttpConn × List SysCall :=
  if c.fileAddress = .null then (c, [])
  else (c.setAddress .null, [.munmap c.fileAddress c.fileStat.size])

/-- The return of `write` with the response sent. -/
def finishWrite (c : HttpConn) : WriteResult :=
  let (c, calls) := c.unmap
  if c.linger then
    ⟨true, c.init, calls ++ [.modfd c.sockfd .epollin], [], .completed⟩
  else
    ⟨false, c, calls ++ [.modfd c.sockfd .epollin], [], .completed⟩

/-- The loop of `write`, with `bytes_to_send` and `bytes_have_send`, on the
outcomes its calls of `writev` meet; `none` when these are not all there or
not all used. -/
def writeLoop (mem : Nat → Byte) (c : HttpConn) (toSend haveSend : Int) :
    List WritevOutcome → Option WriteResult
  | [] => none
  | .eagain :: later =>
      WriteResult.endsWith ⟨true, c, [.modfd c.sockfd .epollout], [], .again⟩ later
  | .error :: later =>
      WriteResult.endsWith ⟨false, c.unmap.1, c.unmap.2, [], .failed⟩ later
  | .sent k :: later =>
      let toSend := toSend - (k : Nat)
      let haveSend := haveSend + (k : Nat)
      let chunk := (offered mem c).take k
      if toSend ≤ haveSend then (c.finishWrite.after chunk).endsWith later
      else (writeLoop mem c toSend haveSend later).map fun r => r.after chunk

/-- `http_conn::write` -/
def write (mem : Nat → Byte) (c : HttpConn) (outcomes : List WritevOutcome) :
    Option WriteResult :=
  if c.writeIdx = 0 then
    WriteResult.endsWith ⟨true, c.init, [.modfd c.sockfd .epollin], [], .nothing⟩ outcomes
  else writeLoop mem c c.writeIdx 0 outcomes

/-- The calls of `write` that one response takes, each with the outcomes it
meets: what they put on the socket, when the last one is the first to end in
the branch for a finished response. -/
def writes (mem : Nat → Byte) (c : HttpConn) :
    List (List WritevOutcome) → Option (List (Option Byte))
  | [] => none
  | outcomes :: later =>
      match write mem c outcomes with
      | none => none
      | some r =>
          match r.ending with
          | .again => (writes mem r.conn later).map fun sent => r.sent ++ sent
          | .completed => if later = [] then some r.sent else none
          | .nothing | .failed => none

/-- The response in a slot: the bytes written to `m_write_buf` and, with two
iovecs, those of the file. -/
def response (mem : Nat → Byte) (c : HttpConn) : List (Option Byte) :=
  (c.writeBuf.bytes.take c.writeIdx).map some ++
    if c.ivCount = 2 then iovBytes mem c c.iv1 else []

end HttpConn

/-- The counts the calls of `writev` return. -/
def counts (outcomes : List WritevOutcome) : List Nat :=
  outcomes.filterMap fun outcome => match outcome with
    | .sent k => some k
    | .eagain | .error => none

@[simp] theorem counts_nil : counts [] = [] := rfl

@[simp] theorem counts_sent (k : Fin (MAX_RW_COUNT + 1)) (later : List WritevOutcome) :
    counts (.sent k :: later) = (k : Nat) :: counts later := rfl

theorem counts_append (first second : List WritevOutcome) :
    counts (first ++ second) = counts first ++ counts second :=
  List.filterMap_append

theorem mem_counts {k : Nat} {outcomes : List WritevOutcome} (h : k ∈ counts outcomes) :
    ∃ j : Fin (MAX_RW_COUNT + 1), WritevOutcome.sent j ∈ outcomes ∧ (j : Nat) = k := by
  obtain ⟨outcome, hmem, hcount⟩ := List.mem_filterMap.mp h
  cases outcome with
  | sent j => exact ⟨j, hmem, Option.some.inj hcount⟩
  | eagain => cases hcount
  | error => cases hcount

theorem WriteResult.endsWith_eq_some {r out : WriteResult} {later : List WritevOutcome}
    (h : r.endsWith later = some out) : later = [] ∧ out = r := by
  cases later with
  | nil => exact ⟨rfl, (Option.some.inj h).symm⟩
  | cons head tail => cases h

namespace HttpConn

variable {mem : Nat → Byte} {c : HttpConn}

/-- What the loop did when it returns: it sent a prefix of everything offered
for each count, it left the slot alone if it is to be called again, and the
first count finished the response unless it was too small to. -/
structure Loops (mem : Nat → Byte) (c : HttpConn) (room : Int) (counts : List Nat)
    (r : WriteResult) : Prop where
  sent : r.sent = resend (offered mem c) counts
  conn : r.ending = .again → r.conn = c
  some_sent : r.ending = .completed → counts ≠ []
  short : ∀ k later, counts = k :: later → later ≠ [] ∨ r.ending = .again → 2 * (k : Int) < room
  ended : r.ending ≠ .nothing

theorem finishWrite_sent (c : HttpConn) : c.finishWrite.sent = [] := by
  unfold finishWrite
  dsimp only
  split <;> rfl

theorem finishWrite_ending (c : HttpConn) : c.finishWrite.ending = .completed := by
  unfold finishWrite
  dsimp only
  split <;> rfl

/-- The loop, whatever it has sent before. -/
theorem writeLoop_loops {toSend haveSend : Int} {outcomes : List WritevOutcome}
    {r : WriteResult} (h : writeLoop mem c toSend haveSend outcomes = some r) :
    Loops mem c (toSend - haveSend) (counts outcomes) r := by
  induction outcomes generalizing toSend haveSend r with
  | nil => cases h
  | cons outcome later ih =>
      cases outcome with
      | eagain =>
          obtain ⟨rfl, rfl⟩ := WriteResult.endsWith_eq_some h
          exact ⟨rfl, fun _ => rfl, nofun, nofun, nofun⟩
      | error =>
          obtain ⟨rfl, rfl⟩ := WriteResult.endsWith_eq_some h
          exact ⟨rfl, nofun, nofun, nofun, nofun⟩
      | sent k =>
          simp only [writeLoop] at h
          by_cases hdone : toSend - (k : Nat) ≤ haveSend + (k : Nat)
          · -- enough is counted as sent: the call returns here
            rw [if_pos hdone] at h
            obtain ⟨rfl, rfl⟩ := WriteResult.endsWith_eq_some h
            have hend : (c.finishWrite.after ((offered mem c).take k)).ending = .completed :=
              finishWrite_ending c
            refine ⟨?_, ?_, nofun, ?_, ?_⟩
            · simp [WriteResult.after, finishWrite_sent]
            · rw [hend]
              exact nofun
            · rintro _ _ hcounts (hlater | hagain)
              · rw [counts_sent, counts_nil, List.cons.injEq] at hcounts
                exact absurd hcounts.2.symm hlater
              · rw [hend] at hagain
                cases hagain
            · rw [hend]
              exact nofun
          · -- the next `writev` starts over
            rw [if_neg hdone] at h
            obtain ⟨rest, hrest, rfl⟩ := Option.map_eq_some_iff.mp h
            have hloops := ih hrest
            refine ⟨?_, hloops.conn, nofun, ?_, hloops.ended⟩
            · rw [counts_sent, resend_cons, ← hloops.sent]
              rfl
            · rintro j _ hcounts -
              rw [counts_sent, List.cons.injEq] at hcounts
              obtain ⟨rfl, -⟩ := hcounts
              omega

theorem unmap_sockfd (c : HttpConn) : c.unmap.1.sockfd = c.sockfd := by
  unfold unmap
  split <;> rfl

/-- How the loop can end, and what it leaves. -/
theorem writeLoop_cases {toSend haveSend : Int} {outcomes : List WritevOutcome}
    {r : WriteResult} (h : writeLoop mem c toSend haveSend outcomes = some r) :
    (r.ret = true ∧ r.conn = c ∧ r.calls = [.modfd c.sockfd .epollout]) ∨
    (r.ret = false ∧ r.conn = c.unmap.1 ∧ r.calls = c.unmap.2) ∨
    (r.ret = true ∧ r.conn = c.unmap.1.init ∧
      r.calls = c.unmap.2 ++ [.modfd c.sockfd .epollin]) ∨
    (r.ret = false ∧ r.conn = c.unmap.1 ∧
      r.calls = c.unmap.2 ++ [.modfd c.sockfd .epollin]) := by
  induction outcomes generalizing toSend haveSend r with
  | nil => cases h
  | cons outcome later ih =>
      cases outcome with
      | eagain =>
          obtain ⟨-, rfl⟩ := WriteResult.endsWith_eq_some h
          exact Or.inl ⟨rfl, rfl, rfl⟩
      | error =>
          obtain ⟨-, rfl⟩ := WriteResult.endsWith_eq_some h
          exact Or.inr (Or.inl ⟨rfl, rfl, rfl⟩)
      | sent k =>
          simp only [writeLoop] at h
          split at h
          · obtain ⟨-, rfl⟩ := WriteResult.endsWith_eq_some h
            simp only [WriteResult.after, finishWrite, unmap_sockfd]
            cases c.unmap.1.linger with
            | true => exact Or.inr (Or.inr (Or.inl ⟨rfl, rfl, rfl⟩))
            | false => exact Or.inr (Or.inr (Or.inr ⟨rfl, rfl, rfl⟩))
          · obtain ⟨rest, hrest, rfl⟩ := Option.map_eq_some_iff.mp h
            exact ih (r := rest) hrest

/-- A call of `write` on a response. -/
theorem write_loops (hwritten : c.writeIdx ≠ 0) {outcomes : List WritevOutcome}
    {r : WriteResult} (h : write mem c outcomes = some r) :
    Loops mem c c.writeIdx (counts outcomes) r := by
  rw [write, if_neg hwritten] at h
  have hloops := writeLoop_loops h
  rwa [Int.sub_zero] at hloops

/-- How a call of `write` can end, and what it leaves: nothing to send, EAGAIN,
another error, or a finished response. -/
theorem write_cases {outcomes : List WritevOutcome} {r : WriteResult}
    (h : write mem c outcomes = some r) :
    (c.writeIdx = 0 ∧ r.ret = true ∧ r.conn = c.init ∧ r.calls = [.modfd c.sockfd .epollin]) ∨
    (c.writeIdx ≠ 0 ∧
      ((r.ret = true ∧ r.conn = c ∧ r.calls = [.modfd c.sockfd .epollout]) ∨
       (r.ret = false ∧ r.conn = c.unmap.1 ∧ r.calls = c.unmap.2) ∨
       (r.ret = true ∧ r.conn = c.unmap.1.init ∧
          r.calls = c.unmap.2 ++ [.modfd c.sockfd .epollin]) ∨
       (r.ret = false ∧ r.conn = c.unmap.1 ∧
          r.calls = c.unmap.2 ++ [.modfd c.sockfd .epollin]))) := by
  by_cases hwritten : c.writeIdx = 0
  · rw [write, if_pos hwritten] at h
    obtain ⟨-, rfl⟩ := WriteResult.endsWith_eq_some h
    exact Or.inl ⟨hwritten, rfl, rfl, rfl⟩
  · rw [write, if_neg hwritten] at h
    exact Or.inr ⟨hwritten, writeLoop_cases h⟩

/-- The calls for one response: every count puts a prefix of the response out,
and there is a second one only if the first was less than half of the header
bytes. -/
theorem writes_resend (hwritten : c.writeIdx ≠ 0) {calls : List (List WritevOutcome)}
    {sent : List (Option Byte)} (h : writes mem c calls = some sent) :
    sent = resend (offered mem c) (counts calls.flatten) ∧
      ∃ first later, counts calls.flatten = first :: later ∧
        (later ≠ [] → 2 * first < c.writeIdx) := by
  induction calls generalizing sent with
  | nil => cases h
  | cons outcomes calls ih =>
      rw [writes] at h
      cases hcall : write mem c outcomes with
      | none =>
          rw [hcall] at h
          cases h
      | some r =>
          have hloops := write_loops hwritten hcall
          rw [hcall] at h
          dsimp only at h
          rw [List.flatten_cons, counts_append]
          cases hend : r.ending with
          | nothing => exact absurd hend hloops.ended
          | failed =>
              rw [hend] at h
              cases h
          | completed =>
              rw [hend] at h
              dsimp only at h
              obtain ⟨hlast, hsent⟩ := Option.ite_none_right_eq_some.mp h
              cases hlast
              rw [List.flatten_nil, counts_nil, List.append_nil]
              refine ⟨(Option.some.inj hsent).symm.trans hloops.sent, ?_⟩
              obtain ⟨first, later, hcounts⟩ := List.exists_cons_of_ne_nil (hloops.some_sent hend)
              refine ⟨first, later, hcounts, fun hlater => ?_⟩
              have hshort := hloops.short first later hcounts (Or.inl hlater)
              omega
          | again =>
              rw [hend] at h
              dsimp only at h
              rw [hloops.conn hend] at h
              obtain ⟨rest, hrest, rfl⟩ := Option.map_eq_some_iff.mp h
              obtain ⟨hsent, first, later, hcounts, hfirst⟩ := ih hrest
              refine ⟨?_, ?_⟩
              · rw [hsent, hloops.sent, resend_append]
              · cases hcall' : counts outcomes with
                | nil => exact ⟨first, later, hcounts, hfirst⟩
                | cons k rest =>
                    refine ⟨k, rest ++ counts calls.flatten, rfl, fun _ => ?_⟩
                    have hshort := hloops.short k rest hcall' (Or.inr hend)
                    omega

/-- A response of no bytes is never finished. -/
theorem writes_nothing (hempty : c.writeIdx = 0) (calls : List (List WritevOutcome)) :
    writes mem c calls = none := by
  cases calls with
  | nil => rfl
  | cons outcomes later =>
      rw [writes, write, if_pos hempty]
      cases outcomes with
      | nil => rfl
      | cons outcome rest => rfl

theorem Queued.response {text : List Byte} {file : Option (FileAddress × Nat)}
    (h : c.Queued text file) : response mem c = offered mem c := by
  rw [HttpConn.response, offered, h.iv0, h.written.writeIdx_eq]
  rfl

end HttpConn

/-- The text begins with an H and has no other. -/
def StartsOnce (text : List Byte) : Prop :=
  ∃ tail, text = 72 :: tail ∧ 72 ∉ tail

theorem StartsOnce.getElem {text : List Byte} (h : StartsOnce text) {i : Nat}
    (hi : text[i]? = some 72) : i = 0 := by
  obtain ⟨tail, rfl, htail⟩ := h
  cases i with
  | zero => rfl
  | succ i =>
      rw [List.getElem?_cons_succ] at hi
      exact absurd (List.mem_of_getElem? hi) htail

theorem StartsOnce.length_ne_zero {text : List Byte} (h : StartsOnce text) :
    text.length ≠ 0 := by
  obtain ⟨tail, rfl, -⟩ := h
  exact Nat.succ_ne_zero _

theorem StartsOnce.getElem_zero {text : List Byte} (h : StartsOnce text) :
    text[0]? = some 72 := by
  obtain ⟨tail, rfl, -⟩ := h
  rfl

theorem startsOnce_responsePage (linger : Bool) :
    StartsOnce (responsePage linger 500 error500Title error500Form) ∧
    StartsOnce (responsePage linger 400 error400Title error400Form) ∧
    StartsOnce (responsePage linger 403 error403Title error403Form) ∧
    StartsOnce (responsePage linger 200 ok200Title okString) := by
  refine ⟨⟨_, rfl, ?_⟩, ⟨_, rfl, ?_⟩, ⟨_, rfl, ?_⟩, ⟨_, rfl, ?_⟩⟩ <;> cases linger <;> decide

theorem startsOnce_responseHead (linger : Bool) (contentLen : Int) :
    StartsOnce (responseHead linger 200 ok200Title contentLen) := by
  have hstatus : statusLine 200 ok200Title = 72 :: ascii "TTP/1.1 200 OK" := by decide
  refine ⟨ascii "TTP/1.1 200 OK" ++ [CR, LF] ++
    joinLines [contentLengthLine contentLen, connectionLine linger, []], ?_, ?_⟩
  · simp [responseHead, hstatus]
  · have hnumeral : 72 ∉ contentLengthLine contentLen := by
      rw [contentLengthLine, List.mem_append, not_or]
      exact ⟨by decide, notMem_format (by decide) (by decide)⟩
    have hconnection : 72 ∉ connectionLine linger := by
      cases linger <;> decide
    have hfirst : 72 ∉ ascii "TTP/1.1 200 OK" := by decide
    have hends : (72 : Byte) ≠ CR ∧ (72 : Byte) ≠ LF := by decide
    simp [hnumeral, hconnection, hfirst, hends]

/-- A response that has no second H in its header bytes is not a row of its
own prefixes when the first of them ends inside these bytes. -/
theorem StartsOnce.resend_ne {text : List Byte} (h : StartsOnce text)
    {file : List (Option Byte)} {k j : Nat} {later : List Nat}
    (hpos : ∀ n ∈ k :: j :: later, 1 ≤ n ∧ n ≤ (text.map some ++ file).length)
    (hk : k < text.length) :
    resend (text.map some ++ file) (k :: j :: later) ≠ text.map some ++ file := by
  intro heq
  obtain ⟨hk1, hkle⟩ := hpos k List.mem_cons_self
  obtain ⟨hj1, hjle⟩ := hpos j (List.mem_cons_of_mem _ List.mem_cons_self)
  have hdrop := drop_of_resend heq hkle
  have hrepeat := getElem_of_resend hdrop hjle (i := 0) (by omega)
  have hstart : (text.map some ++ file)[0]? = some (some 72) := by
    rw [List.getElem?_append_left (by rw [List.length_map]; omega), List.getElem?_map,
      h.getElem_zero]
    rfl
  rw [List.getElem?_drop, Nat.add_zero, hstart,
    List.getElem?_append_left (by rw [List.length_map]; omega), List.getElem?_map,
    Option.map_eq_some_iff] at hrepeat
  obtain ⟨b, hb, hbyte⟩ := hrepeat
  obtain rfl := Option.some.inj hbyte
  have hzero := h.getElem hb
  omega

/-- Neither are two pages that differ at `i`, with a second page longer than
that. -/
theorem twoPages_resend_ne {first second : List Byte} (hfirst : StartsOnce first)
    (hsecond : StartsOnce second) {i : Nat} (hdiffer : first[i]? ≠ second[i]?)
    (hifirst : i < first.length) (hisecond : i < second.length)
    {k j : Nat} {later : List Nat}
    (hpos : ∀ n ∈ k :: j :: later, 1 ≤ n ∧ n ≤ (first ++ second).length) :
    resend ((first ++ second).map some) (k :: j :: later) ≠ (first ++ second).map some := by
  intro heq
  generalize hwhole : (first ++ second).map some = whole at heq
  have hlen : whole.length = (first ++ second).length := by
    rw [← hwhole, List.length_map]
  have hget : ∀ n : Nat, whole[n]? = (first ++ second)[n]?.map some := by
    intro n
    rw [← hwhole, List.getElem?_map]
  rw [← hlen] at hpos
  obtain ⟨hk1, hkle⟩ := hpos k List.mem_cons_self
  obtain ⟨hj1, hjle⟩ := hpos j (List.mem_cons_of_mem _ List.mem_cons_self)
  have hstart : whole[0]? = some (some 72) := by
    rw [hget, List.getElem?_append_left (by omega), hfirst.getElem_zero]
    rfl
  have hdrop := drop_of_resend heq hkle
  -- the second prefix begins where the second page does
  have hk : k = first.length := by
    have hrepeat := getElem_of_resend hdrop hjle (i := 0) (by omega)
    rw [List.getElem?_drop, Nat.add_zero, hstart, hget, Option.map_eq_some_iff] at hrepeat
    obtain ⟨b, hb, hbyte⟩ := hrepeat
    obtain rfl := Option.some.inj hbyte
    by_cases hin : k < first.length
    · rw [List.getElem?_append_left hin] at hb
      have := hfirst.getElem hb
      omega
    · rw [List.getElem?_append_right (by omega)] at hb
      have := hsecond.getElem hb
      omega
  have hrest : whole.drop k = second.map some := by
    rw [← hwhole, List.map_append, hk, ← List.length_map (f := some), List.drop_left]
  rw [hrest] at hdrop
  -- it ends before the pages differ
  have hj : j ≤ i := by
    by_contra hlong
    have hsame := getElem_of_resend hdrop hjle (i := i) (by omega)
    rw [hget, List.getElem?_map, List.getElem?_append_left hifirst,
      List.getElem?_eq_getElem hifirst, List.getElem?_eq_getElem hisecond] at hsame
    simp only [Option.map_some, Option.some.injEq] at hsame
    rw [List.getElem?_eq_getElem hifirst, List.getElem?_eq_getElem hisecond, hsame] at hdiffer
    exact hdiffer rfl
  have hdrop' := drop_of_resend hdrop.symm hjle
  cases later with
  | nil =>
      have hlength := congrArg List.length hdrop'
      rw [List.length_drop, List.length_map, resend_nil, List.length_nil] at hlength
      omega
  | cons m later =>
      obtain ⟨hm1, hmle⟩ := hpos m
        (List.mem_cons_of_mem _ (List.mem_cons_of_mem _ List.mem_cons_self))
      have hrepeat := getElem_of_resend hdrop' hmle (i := 0) (by omega)
      rw [List.getElem?_drop, Nat.add_zero, hstart, List.getElem?_map,
        Option.map_eq_some_iff] at hrepeat
      obtain ⟨b, hb, hbyte⟩ := hrepeat
      obtain rfl := Option.some.inj hbyte
      have := hsecond.getElem hb
      omega

/-- The pages queued for a file that does not exist. -/
def notFoundPages (linger : Bool) : List Byte :=
  responsePage linger 400 error400Title error400Form ++
    responsePage linger 403 error403Title error403Form

theorem notFoundPages_resend_ne (linger : Bool) {k j : Nat} {later : List Nat}
    (hpos : ∀ n ∈ k :: j :: later, 1 ≤ n ∧ n ≤ (notFoundPages linger).length) :
    resend ((notFoundPages linger).map some) (k :: j :: later) ≠
      (notFoundPages linger).map some := by
  obtain ⟨-, h400, h403, -⟩ := startsOnce_responsePage linger
  -- the third digit of the status
  have hdiffer : (responsePage linger 400 error400Title error400Form)[11]? ≠
      (responsePage linger 403 error403Title error403Form)[11]? := by
    cases linger <;> decide
  have hlong : 11 < (responsePage linger 400 error400Title error400Form).length ∧
      11 < (responsePage linger 403 error403Title error403Form).length := by
    cases linger <;> decide
  exact twoPages_resend_ne h400 h403 hdiffer hlong.1 hlong.2 hpos

namespace HttpConn

variable {mem : Nat → Byte} {c : HttpConn}

theorem written_nil (hempty : c.writeIdx = 0) : c.Written [] :=
  ⟨hempty, Buffer.hasAt_nil _ _, Nat.zero_le _⟩

/-- What `process_write` queues in an empty write buffer: nothing, a text with
one H, or two pages. -/
theorem processWrite_text {ret : HttpCode} (hempty : c.writeIdx = 0)
    (hok : (c.processWrite ret).1 = true) :
    (c.processWrite ret).2.writeIdx = 0 ∨
    (∃ text file, StartsOnce text ∧ (c.processWrite ret).2.Queued text file) ∨
    ∃ linger, (c.processWrite ret).2.Queued (notFoundPages linger) none := by
  have hwritten := written_nil hempty
  obtain ⟨h500, -, h403, h200⟩ := startsOnce_responsePage c.linger
  cases ret with
  | noRequest => exact Or.inl hempty
  | getRequest => exact Or.inl hempty
  | closedConnection => exact Or.inl hempty
  | badRequest => cases hok
  | internalError =>
      exact Or.inr (Or.inl ⟨_, none, h500, (processWrite_internalError hwritten).2⟩)
  | forbiddenRequest =>
      exact Or.inr (Or.inl ⟨_, none, h403, (processWrite_forbidden hwritten).2⟩)
  | noResource => exact Or.inr (Or.inr ⟨c.linger, (processWrite_noResource hwritten).2⟩)
  | fileRequest =>
      have hfile := (processWrite_file hwritten).2
      by_cases hsize : c.fileStat.size = 0
      · rw [if_pos hsize] at hfile
        exact Or.inr (Or.inl ⟨_, none, h200, hfile⟩)
      · rw [if_neg hsize] at hfile
        exact Or.inr (Or.inl ⟨_, _, startsOnce_responseHead _ _, hfile⟩)

/-- A response that takes a second prefix is not delivered. -/
theorem response_resend_ne {ret : HttpCode} (hempty : c.writeIdx = 0)
    (hok : (c.processWrite ret).1 = true) {k j : Nat} {later : List Nat}
    (hpos : ∀ n ∈ k :: j :: later,
      1 ≤ n ∧ n ≤ (response mem (c.processWrite ret).2).length)
    (hshort : 2 * k < (c.processWrite ret).2.writeIdx) :
    resend (response mem (c.processWrite ret).2) (k :: j :: later) ≠
      response mem (c.processWrite ret).2 := by
  rcases processWrite_text hempty hok with hnone | ⟨text, file, honce, hqueued⟩ | ⟨linger, hqueued⟩
  · omega
  · rw [hqueued.written.writeIdx_eq] at hshort
    have hhead : response mem (c.processWrite ret).2 = text.map some ++
        if (c.processWrite ret).2.ivCount = 2
        then iovBytes mem (c.processWrite ret).2 (c.processWrite ret).2.iv1 else [] := by
      rw [response, hqueued.written.writeIdx_eq, hqueued.written.hasAt.take hqueued.written.fits]
    rw [hhead] at hpos ⊢
    exact honce.resend_ne hpos (by omega)
  · rw [hqueued.response, hqueued.offered_text] at hpos ⊢
    rw [List.length_map] at hpos
    exact notFoundPages_resend_ne linger hpos

theorem offered_processWrite {ret : HttpCode} (hempty : c.writeIdx = 0)
    (hok : (c.processWrite ret).1 = true) (hwritten : (c.processWrite ret).2.writeIdx ≠ 0) :
    offered mem (c.processWrite ret).2 = response mem (c.processWrite ret).2 := by
  rcases processWrite_text hempty hok with hnone | ⟨text, file, -, hqueued⟩ | ⟨linger, hqueued⟩
  · exact absurd hnone hwritten
  · exact hqueued.response.symm
  · exact hqueued.response.symm

theorem writeIdx_le_response (mem : Nat → Byte) {ret : HttpCode} (hempty : c.writeIdx = 0)
    (hok : (c.processWrite ret).1 = true) :
    (c.processWrite ret).2.writeIdx ≤ (response mem (c.processWrite ret).2).length := by
  have hle : (c.processWrite ret).2.writeIdx ≤ WRITE_BUFFER_SIZE := by
    rcases processWrite_text hempty hok with hnone | ⟨text, file, -, hqueued⟩ | ⟨linger, hqueued⟩
    · omega
    · exact hqueued.written.writeIdx_eq ▸ hqueued.written.fits
    · exact hqueued.written.writeIdx_eq ▸ hqueued.written.fits
  rw [response, List.length_append, List.length_map, List.length_take,
    (c.processWrite ret).2.writeBuf.size_eq]
  omega

/-- What the calls of `write` for one response put on the socket is that
response exactly when the first `writev` that sends anything sends all of
it. -/
theorem writes_response {ret : HttpCode} (hempty : c.writeIdx = 0)
    (hok : (c.processWrite ret).1 = true) {calls : List (List WritevOutcome)}
    (hcounts : ∀ outcomes ∈ calls, ∀ k, WritevOutcome.sent k ∈ outcomes →
      1 ≤ (k : Nat) ∧ (k : Nat) ≤ (response mem (c.processWrite ret).2).length)
    {sent : List (Option Byte)}
    (hdone : writes mem (c.processWrite ret).2 calls = some sent) :
    sent = response mem (c.processWrite ret).2 ↔
      (counts calls.flatten).head? = some (response mem (c.processWrite ret).2).length := by
  have hwritten : (c.processWrite ret).2.writeIdx ≠ 0 := by
    intro hnone
    rw [writes_nothing hnone] at hdone
    cases hdone
  obtain ⟨hsent, first, later, hall, hshort⟩ := writes_resend hwritten hdone
  rw [offered_processWrite hempty hok hwritten] at hsent
  have hpos : ∀ n ∈ counts calls.flatten,
      1 ≤ n ∧ n ≤ (response mem (c.processWrite ret).2).length := by
    intro n hn
    obtain ⟨k, hk, rfl⟩ := mem_counts hn
    obtain ⟨outcomes, houtcomes, hmem⟩ := List.mem_flatten.mp hk
    exact hcounts outcomes houtcomes k hmem
  rw [hall] at hsent hpos ⊢
  rw [List.head?_cons, Option.some.injEq, hsent]
  cases later with
  | nil => exact resend_singleton (hpos first List.mem_cons_self).2
  | cons second later =>
      have hless := hshort (List.cons_ne_nil _ _)
      have hle := writeIdx_le_response mem hempty hok
      constructor
      · intro heq
        exact absurd heq (response_resend_ne hempty hok hpos hless)
      · intro heq
        omega

/-- One `writev` that sends half of the header bytes or more ends the call. -/
theorem write_single (mem : Nat → Byte) {c : HttpConn} (hwritten : c.writeIdx ≠ 0)
    {k : Fin (MAX_RW_COUNT + 1)} (henough : c.writeIdx ≤ 2 * (k : Nat)) :
    write mem c [.sent k] = some (c.finishWrite.after ((offered mem c).take k)) := by
  rw [write, if_neg hwritten, writeLoop, if_pos (by omega)]
  rfl

/-- One call whose first `writev` sends half of the header bytes or more. -/
theorem writes_single (mem : Nat → Byte) {c : HttpConn} (hwritten : c.writeIdx ≠ 0)
    {k : Fin (MAX_RW_COUNT + 1)} (henough : c.writeIdx ≤ 2 * (k : Nat)) :
    writes mem c [[.sent k]] = some ((offered mem c).take k) := by
  have hend : (c.finishWrite.after ((offered mem c).take k)).ending = .completed :=
    finishWrite_ending c
  rw [writes, write_single mem hwritten henough]
  dsimp only
  rw [hend]
  dsimp only
  rw [if_pos rfl, WriteResult.after, finishWrite_sent, List.append_nil]

/-- The page for FORBIDDEN_REQUEST, in a slot just initialised. -/
theorem forbidden_queued : (idle.init.processWrite .forbiddenRequest).2.Queued
    (responsePage true 403 error403Title error403Form) none :=
  (processWrite_forbidden (c := idle.init) (written_nil rfl)).2

theorem forbidden_writeIdx :
    (idle.init.processWrite .forbiddenRequest).2.writeIdx = 90 :=
  forbidden_queued.written.writeIdx_eq.trans (by decide)

theorem forbidden_response (mem : Nat → Byte) :
    (response mem (idle.init.processWrite .forbiddenRequest).2).length = 90 := by
  rw [forbidden_queued.response, forbidden_queued.offered_text, List.length_map]
  decide

/-- The count of one `writev` is one `writev` can return for the page. -/
theorem forbidden_counts (mem : Nat → Byte) {n : Fin (MAX_RW_COUNT + 1)}
    (hn : 1 ≤ (n : Nat) ∧ (n : Nat) ≤ 90) :
    ∀ outcomes ∈ [[WritevOutcome.sent n]], ∀ k, WritevOutcome.sent k ∈ outcomes →
      1 ≤ (k : Nat) ∧
        (k : Nat) ≤ (response mem (idle.init.processWrite .forbiddenRequest).2).length := by
  intro outcomes houtcomes k hk
  rw [List.mem_singleton] at houtcomes
  rw [houtcomes, List.mem_singleton, WritevOutcome.sent.injEq] at hk
  rw [forbidden_response, hk]
  exact hn

/-- The page goes out whole when the first `writev` takes all 90 bytes. -/
theorem writes_response_forbidden :
    writes (fun _ => 0) (idle.init.processWrite .forbiddenRequest).2 [[.sent 90]] =
        some ((offered (fun _ => 0) (idle.init.processWrite .forbiddenRequest).2).take 90) ∧
      (offered (fun _ => 0) (idle.init.processWrite .forbiddenRequest).2).take 90 =
        response (fun _ => 0) (idle.init.processWrite .forbiddenRequest).2 := by
  have hdone := writes_single (fun _ => 0) (k := 90)
    (by rw [forbidden_writeIdx]; decide) (by rw [forbidden_writeIdx]; decide)
  refine ⟨hdone, (writes_response (c := idle.init) rfl
    (processWrite_forbidden (written_nil rfl)).1 (forbidden_counts _ (by decide)) hdone).mpr ?_⟩
  rw [forbidden_response]
  rfl

/-- A `writev` that takes 60 bytes of the page ends `write`: the last 30 are
never sent. -/
theorem writes_page_cut :
    ¬ ∀ (mem : Nat → Byte) (c : HttpConn) (ret : HttpCode)
        (calls : List (List WritevOutcome)) (sent : List (Option Byte)),
      c.writeIdx = 0 → (c.processWrite ret).1 = true →
      (∀ outcomes ∈ calls, ∀ k, WritevOutcome.sent k ∈ outcomes →
        1 ≤ (k : Nat) ∧ (k : Nat) ≤ (response mem (c.processWrite ret).2).length) →
      writes mem (c.processWrite ret).2 calls = some sent →
      sent = response mem (c.processWrite ret).2 := by
  intro hall
  have hdone := writes_single (fun _ => 0) (k := 60)
    (by rw [forbidden_writeIdx]; decide) (by rw [forbidden_writeIdx]; decide)
  have hsame := hall (fun _ => 0) idle.init .forbiddenRequest [[.sent 60]] _ rfl
    (processWrite_forbidden (written_nil rfl)).1 (forbidden_counts _ (by decide)) hdone
  have hlength := congrArg List.length hsame
  rw [forbidden_response, List.length_take] at hlength
  have hshort : ((60 : Fin (MAX_RW_COUNT + 1)) : Nat) = 60 := rfl
  omega

end HttpConn

end LinuxLearning.Webserver
