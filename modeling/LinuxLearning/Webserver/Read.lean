/-
`http_conn::read`: the receive loop of the main thread, on the outcomes its
calls of `recv` meet.
-/
import LinuxLearning.Webserver.HttpConn

namespace LinuxLearning.Webserver

/-- What one `recv` does: it copies bytes, fails with EAGAIN, fails with
another error, or reports the end of the stream. -/
inductive RecvOutcome where
  | data (bytes : List Byte)
  | eagain
  | error
  | eof
deriving Repr, DecidableEq

/-- The bytes that a list of outcomes copies. -/
def dataOf (outcomes : List RecvOutcome) : List Byte :=
  outcomes.flatMap fun outcome => match outcome with
    | .data bytes => bytes
    | .eagain | .error | .eof => []

namespace HttpConn

/-- The loop of `read`; `none` when the outcomes are not all there, not all
used, or not ones `recv` can have. -/
def recvLoop (c : HttpConn) : List RecvOutcome → Option (Bool × HttpConn)
  | [] => none
  | .data bytes :: later =>
      if bytes ≠ [] ∧ c.readIdx + bytes.length ≤ READ_BUFFER_SIZE then
        recvLoop (recvBytes bytes c) later
      else none
  | .eagain :: later => if later = [] then some (true, c) else none
  | .error :: later => if later = [] then some (false, c) else none
  | .eof :: later => if later = [] then some (false, c) else none

/-- `http_conn::read` -/
def read (c : HttpConn) (outcomes : List RecvOutcome) : Option (Bool × HttpConn) :=
  if c.readIdx ≥ READ_BUFFER_SIZE then
    if outcomes = [] then some (false, c) else none
  else recvLoop c outcomes

theorem recvLoop_data {c after : HttpConn} {outcomes : List RecvOutcome} {ok : Bool}
    (h : recvLoop c outcomes = some (ok, after)) : after = recvBytes (dataOf outcomes) c := by
  induction outcomes generalizing c with
  | nil => cases h
  | cons outcome later ih =>
      have hlast : ∀ ret : Bool,
          (if later = [] then some (ret, c) else none) = some (ok, after) →
          after = recvBytes (dataOf later) c := by
        intro ret hret
        obtain ⟨rfl, heq⟩ := Option.ite_none_right_eq_some.mp hret
        obtain ⟨-, rfl⟩ := Prod.mk.inj (Option.some.inj heq)
        exact (recvBytes_nil c).symm
      cases outcome with
      | data bytes =>
          obtain ⟨⟨-, hfit⟩, hrest⟩ := Option.ite_none_right_eq_some.mp h
          exact (ih hrest).trans (recvBytes_append hfit)
      | eagain => exact hlast true h
      | error => exact hlast false h
      | eof => exact hlast false h

/-- `read` does nothing but receive the bytes. -/
theorem read_data {c after : HttpConn} {outcomes : List RecvOutcome} {ok : Bool}
    (h : read c outcomes = some (ok, after)) : after = recvBytes (dataOf outcomes) c := by
  rw [read] at h
  split at h
  · obtain ⟨rfl, heq⟩ := Option.ite_none_right_eq_some.mp h
    obtain ⟨-, rfl⟩ := Prod.mk.inj (Option.some.inj heq)
    exact (recvBytes_nil c).symm
  · exact recvLoop_data h

theorem read_recv {c after : HttpConn} {outcomes : List RecvOutcome} {ok : Bool}
    (h : read c outcomes = some (ok, after)) : ∃ data, after = recvBytes data c :=
  ⟨_, read_data h⟩

theorem recvLoop_fits {c after : HttpConn} {outcomes : List RecvOutcome} {ok : Bool}
    (hfits : c.readIdx ≤ READ_BUFFER_SIZE) (h : recvLoop c outcomes = some (ok, after)) :
    after.readIdx ≤ READ_BUFFER_SIZE := by
  induction outcomes generalizing c with
  | nil => cases h
  | cons outcome later ih =>
      have hlast : ∀ ret : Bool,
          (if later = [] then some (ret, c) else none) = some (ok, after) →
          after.readIdx ≤ READ_BUFFER_SIZE := by
        intro ret hret
        obtain ⟨-, heq⟩ := Option.ite_none_right_eq_some.mp hret
        obtain ⟨-, rfl⟩ := Prod.mk.inj (Option.some.inj heq)
        exact hfits
      cases outcome with
      | data bytes =>
          obtain ⟨⟨-, hfit⟩, hrest⟩ := Option.ite_none_right_eq_some.mp h
          exact ih hfit hrest
      | eagain => exact hlast true h
      | error => exact hlast false h
      | eof => exact hlast false h

/-- `read` stays inside `m_read_buf`. -/
theorem read_fits {c after : HttpConn} {outcomes : List RecvOutcome} {ok : Bool}
    (hfits : c.readIdx ≤ READ_BUFFER_SIZE) (h : read c outcomes = some (ok, after)) :
    after.readIdx ≤ READ_BUFFER_SIZE := by
  rw [read] at h
  split at h
  · obtain ⟨-, heq⟩ := Option.ite_none_right_eq_some.mp h
    obtain ⟨-, rfl⟩ := Prod.mk.inj (Option.some.inj heq)
    exact hfits
  · exact recvLoop_fits hfits h

/-- The loop goes on to EAGAIN before it returns true. -/
theorem recvLoop_eagain {c after : HttpConn} {outcomes : List RecvOutcome}
    (h : recvLoop c outcomes = some (true, after)) : RecvOutcome.eagain ∈ outcomes := by
  induction outcomes generalizing c with
  | nil => cases h
  | cons outcome later ih =>
      cases outcome with
      | data bytes =>
          obtain ⟨-, hrest⟩ := Option.ite_none_right_eq_some.mp h
          exact List.mem_cons_of_mem _ (ih hrest)
      | eagain => exact List.mem_cons_self
      | error =>
          obtain ⟨-, heq⟩ := Option.ite_none_right_eq_some.mp h
          cases heq
      | eof =>
          obtain ⟨-, heq⟩ := Option.ite_none_right_eq_some.mp h
          cases heq

theorem read_eagain {c after : HttpConn} {outcomes : List RecvOutcome}
    (h : read c outcomes = some (true, after)) : RecvOutcome.eagain ∈ outcomes := by
  rw [read] at h
  split at h
  · obtain ⟨-, heq⟩ := Option.ite_none_right_eq_some.mp h
    cases heq
  · exact recvLoop_eagain h

theorem recvLoop_chunks {c : HttpConn} {chunks : List (List Byte)}
    (hne : ∀ chunk ∈ chunks, chunk ≠ [])
    (hfit : c.readIdx + chunks.flatten.length ≤ READ_BUFFER_SIZE) :
    recvLoop c (chunks.map RecvOutcome.data ++ [.eagain]) =
      some (true, recvBytes chunks.flatten c) := by
  induction chunks generalizing c with
  | nil =>
      rw [List.flatten_nil, recvBytes_nil]
      rfl
  | cons chunk chunks ih =>
      rw [List.flatten_cons, List.length_append] at hfit
      have hchunk := hne chunk List.mem_cons_self
      rw [List.map_cons, List.cons_append, recvLoop, if_pos ⟨hchunk, by omega⟩,
        ih (fun other hother => hne other (List.mem_cons_of_mem _ hother))
          (by rw [recvBytes_readIdx]; omega),
        recvBytes_append (by omega), List.flatten_cons]

/-- Chunks that fit are received as their join. -/
theorem read_chunks {c : HttpConn} {chunks : List (List Byte)}
    (hroom : c.readIdx < READ_BUFFER_SIZE) (hne : ∀ chunk ∈ chunks, chunk ≠ [])
    (hfit : c.readIdx + chunks.flatten.length ≤ READ_BUFFER_SIZE) :
    read c (chunks.map RecvOutcome.data ++ [.eagain]) =
      some (true, recvBytes chunks.flatten c) := by
  rw [read, if_neg (by omega)]
  exact recvLoop_chunks hne hfit

section Kernel

/-- The calls of `recv` in the loop: where the bytes go, and how many are asked
for. -/
def recvCalls (c : HttpConn) : List RecvOutcome → List (Nat × Nat)
  | [] => []
  | .data bytes :: later =>
      (c.readIdx, READ_BUFFER_SIZE - c.readIdx) :: recvCalls (recvBytes bytes c) later
  | .eagain :: _ | .error :: _ | .eof :: _ => [(c.readIdx, READ_BUFFER_SIZE - c.readIdx)]

/-- What `recv` answers when nothing has arrived: EAGAIN, but 0 when it is
asked for no bytes. -/
def nothingArrived (asked : Nat) : RecvOutcome := if asked = 0 then .eof else .eagain

/-- What the loop meets when these chunks arrive and then nothing more. -/
def answersTo (c : HttpConn) : List (List Byte) → List RecvOutcome
  | [] => [nothingArrived (READ_BUFFER_SIZE - c.readIdx)]
  | chunk :: later => .data chunk :: answersTo (recvBytes chunk c) later

/-- What `read` meets: a full buffer keeps it from calling `recv`. -/
def answers (c : HttpConn) (chunks : List (List Byte)) : List RecvOutcome :=
  if c.readIdx ≥ READ_BUFFER_SIZE then [] else c.answersTo chunks

/-- `read` takes these chunks as it should: it returns true, the bytes stand in
order behind the earlier ones, and no call asks for more than is free. -/
def UsesBuffer (c : HttpConn) (chunks : List (List Byte)) : Prop :=
  ∃ after, c.read (c.answers chunks) = some (true, after) ∧
    after.readIdx = c.readIdx + chunks.flatten.length ∧
    (∀ i < c.readIdx, after.readBuf.get i = c.readBuf.get i) ∧
    after.readBuf.HasAt c.readIdx chunks.flatten ∧
    ∀ call ∈ c.recvCalls (c.answers chunks), call.1 + call.2 ≤ READ_BUFFER_SIZE

variable {c : HttpConn} {chunks : List (List Byte)}

theorem recvLoop_answersTo (hne : ∀ chunk ∈ chunks, chunk ≠ [])
    (hfit : c.readIdx + chunks.flatten.length ≤ READ_BUFFER_SIZE) :
    c.recvLoop (c.answersTo chunks) =
      some (decide (c.readIdx + chunks.flatten.length < READ_BUFFER_SIZE),
        recvBytes chunks.flatten c) := by
  induction chunks generalizing c with
  | nil =>
      rw [List.flatten_nil, recvBytes_nil, answersTo, nothingArrived]
      by_cases hfull : READ_BUFFER_SIZE - c.readIdx = 0
      · have : ¬ c.readIdx < READ_BUFFER_SIZE := by omega
        simp [recvLoop, hfull, this]
      · have : c.readIdx < READ_BUFFER_SIZE := by omega
        simp [recvLoop, hfull, this]
  | cons chunk later ih =>
      rw [List.flatten_cons, List.length_append] at hfit ⊢
      have hchunk := hne chunk List.mem_cons_self
      rw [answersTo, recvLoop, if_pos ⟨hchunk, by omega⟩,
        ih (fun other hother => hne other (List.mem_cons_of_mem _ hother))
          (by rw [recvBytes_readIdx]; omega),
        recvBytes_append (by omega), recvBytes_readIdx, Nat.add_assoc]

/-- All the bytes are received, but a buffer that is full, before or behind
them, makes `read` return false. -/
theorem read_answers (hne : ∀ chunk ∈ chunks, chunk ≠ [])
    (hfit : c.readIdx + chunks.flatten.length ≤ READ_BUFFER_SIZE) :
    c.read (c.answers chunks) =
      some (decide (c.readIdx + chunks.flatten.length < READ_BUFFER_SIZE),
        recvBytes chunks.flatten c) := by
  by_cases hfull : c.readIdx ≥ READ_BUFFER_SIZE
  · have hnil : chunks.flatten = [] := List.length_eq_zero_iff.mp (by omega)
    have : ¬ c.readIdx < READ_BUFFER_SIZE := by omega
    simp [read, answers, hfull, hnil, recvBytes_nil, this]
  · rw [read, answers, if_neg hfull, if_neg hfull]
    exact recvLoop_answersTo hne hfit

/-- Each call asks for what is free. -/
theorem recvCalls_free (hfit : c.readIdx + chunks.flatten.length ≤ READ_BUFFER_SIZE) :
    ∀ call ∈ c.recvCalls (c.answersTo chunks), call.1 + call.2 = READ_BUFFER_SIZE := by
  induction chunks generalizing c with
  | nil =>
      rw [List.flatten_nil, List.length_nil] at hfit
      have hlast : c.recvCalls (c.answersTo []) =
          [(c.readIdx, READ_BUFFER_SIZE - c.readIdx)] := by
        rw [answersTo, nothingArrived]
        split <;> rfl
      rw [hlast, List.forall_mem_singleton]
      omega
  | cons chunk later ih =>
      rw [List.flatten_cons, List.length_append] at hfit
      rw [answersTo, recvCalls, List.forall_mem_cons]
      refine ⟨by omega, ih ?_⟩
      rw [recvBytes_readIdx]
      omega

/-- `read` takes the chunks as it should exactly when they leave room in the
buffer. -/
theorem read_usesBuffer (hne : ∀ chunk ∈ chunks, chunk ≠ [])
    (hfit : c.readIdx + chunks.flatten.length ≤ READ_BUFFER_SIZE) :
    c.UsesBuffer chunks ↔ c.readIdx + chunks.flatten.length < READ_BUFFER_SIZE := by
  have hread := read_answers hne hfit
  constructor
  · rintro ⟨after, hafter, -⟩
    rw [hread] at hafter
    exact of_decide_eq_true (congrArg Prod.fst (Option.some.inj hafter))
  · intro hroom
    refine ⟨recvBytes chunks.flatten c, ?_, rfl, ?_, Buffer.hasAt_blit _ hfit, ?_⟩
    · rw [hread, decide_eq_true hroom]
    · intro i hi
      exact Buffer.get_blit_of_lt _ (by omega) hi
    · intro call hcall
      rw [answers, if_neg (by omega)] at hcall
      exact (recvCalls_free hfit call hcall).le

/-- A few bytes. -/
theorem read_usesBuffer_short : idle.UsesBuffer [ascii "GET", ascii " /"] :=
  (read_usesBuffer (by decide) (by decide)).mpr (by decide)

/-- Bytes that fill the buffer are taken for the end of the stream. -/
theorem not_usesBuffer_full :
    ¬ ∀ (c : HttpConn) (chunks : List (List Byte)), (∀ chunk ∈ chunks, chunk ≠ []) →
      c.readIdx + chunks.flatten.length ≤ READ_BUFFER_SIZE → c.UsesBuffer chunks := by
  intro h
  have hlength : [List.replicate READ_BUFFER_SIZE (97 : Byte)].flatten.length =
      READ_BUFFER_SIZE := by
    rw [List.flatten_singleton, List.length_replicate]
  have hne : ∀ chunk ∈ [List.replicate READ_BUFFER_SIZE (97 : Byte)], chunk ≠ [] := by
    rw [List.forall_mem_singleton, ne_eq, List.replicate_eq_nil_iff]
    decide
  have hfit : idle.readIdx + [List.replicate READ_BUFFER_SIZE (97 : Byte)].flatten.length ≤
      READ_BUFFER_SIZE := by
    rw [hlength]
    decide
  obtain ⟨after, hafter, -⟩ := h idle _ hne hfit
  rw [read_answers hne hfit, hlength] at hafter
  obtain ⟨hroom, -⟩ := Prod.mk.inj (Option.some.inj hafter)
  exact absurd (of_decide_eq_true hroom) (by decide)

end Kernel

end HttpConn

end LinuxLearning.Webserver
