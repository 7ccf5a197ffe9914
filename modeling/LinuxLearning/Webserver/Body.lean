/-
Requests with a body.  `parse_content` has no result to return while the body
is incomplete, and stores a NUL at an index it takes from Content-Length.
Both are described exactly: which cuts of a request are read as one request,
and for which requests the store stays inside the received bytes.
-/
import LinuxLearning.Webserver.Chunks

namespace LinuxLearning.Webserver

open Lines CString

/-- The index lies in the received bytes, or just behind them, and in the
buffer. -/
def InReceived (c : HttpConn) (i : Int) : Prop :=
  0 ≤ i ∧ i ≤ c.readIdx ∧ i < READ_BUFFER_SIZE

/-- The place behind the body that a complete head announces is one that
`parse_content` can store to: it is not in front of the buffer, an `int` can
hold it, and it is not the end of a buffer that is full. -/
def ContentLengthFits (received : List Byte) : Prop :=
  ∀ request headers blank body, IsHead request headers blank →
    received = headBytes request headers blank ++ body →
    (fieldsOf headers).contenLength ≠ 0 →
    0 ≤ (headBytes request headers blank).length + (fieldsOf headers).contenLength ∧
      (headBytes request headers blank).length + (fieldsOf headers).contenLength < 2 ^ 31 ∧
      ((headBytes request headers blank).length + (fieldsOf headers).contenLength =
        READ_BUFFER_SIZE → received.length < READ_BUFFER_SIZE)

/-- A declared length is an `int`. -/
theorem fieldsOf_range (headers : List (List Byte)) :
    -2 ^ 31 ≤ (fieldsOf headers).contenLength ∧ (fieldsOf headers).contenLength < 2 ^ 31 := by
  induction headers using List.reverseRecOn with
  | nil => decide
  | append_singleton headers line ih =>
      rw [fieldsOf_append, HeaderFields.add]
      split
      · split <;> exact ih
      · split
        · exact toInt32_range _
        · split <;> exact ih

/-- The comparison of `parse_content` holds for every place that wraps around
or lies in front of the buffer. -/
theorem toInt32_le_iff {place : Int} {received : Nat} (hlow : -2 ^ 31 ≤ place)
    (hhigh : place < 2 ^ 32) (hreceived : received < 2 ^ 31) :
    toInt32 place ≤ received ↔ place ≤ received ∨ 2 ^ 31 ≤ place := by
  simp only [toInt32, Int.bmod_def]
  omega

namespace HttpConn

variable (fellOff : Option HttpCode) (c : HttpConn)

theorem oneShot_readIdx (s : List Byte) :
    (oneShot fellOff c s).1.readIdx = s.length := by
  have h := congrArg Output.readIdx (readRequest_output fellOff (recvBytes s c.init))
  change (oneShot fellOff c s).1.readIdx = 0 + s.length at h
  rw [h, Nat.zero_add]

theorem Tracks.lengths {c : HttpConn} {lines : List (List Byte)} {rest : List Byte}
    (h : c.Tracks lines rest) :
    c.checkedIdx = (joinLines lines).length ∧ c.startLine = c.checkedIdx ∧
      c.readIdx = (joinLines lines ++ rest).length := by
  have hread := h.consumed.pending.2
  rw [h.consumed.checked_eq] at hread
  refine ⟨h.consumed.checked_eq, ?_, ?_⟩
  · rw [h.consumed.start_eq, h.consumed.checked_eq]
  · rw [List.length_append, hread]

/-- What the turn on a body does, in terms of the head and what has been
received. -/
theorem readRequest_body {request blank : List Byte} {headers : List (List Byte)}
    {body : List Byte} (h : IsHead request headers blank)
    (hfit : (headBytes request headers blank ++ body).length ≤ READ_BUFFER_SIZE)
    (hlength : (fieldsOf headers).contenLength ≠ 0) :
    ∃ mid : HttpConn, (∀ i ∈ mid.stores, 0 ≤ i ∧ i < (headBytes request headers blank).length) ∧
      mid.readIdx = (headBytes request headers blank ++ body).length ∧
      oneShot fellOff c (headBytes request headers blank ++ body) =
        if toInt32 ((fieldsOf headers).contenLength + (headBytes request headers blank).length) ≤
            (headBytes request headers blank ++ body).length then
          (mid.store ((headBytes request headers blank).length +
            (fieldsOf headers).contenLength) 0, .doRequest)
        else
          (mid, if fellOff = some .getRequest then .doRequest else .code .internalError) := by
  obtain ⟨mid, htracks, hfields, hread⟩ := readRequest_head fellOff c h hfit
  obtain ⟨hchecked, hstart, hidx⟩ := htracks.lengths
  rw [if_neg hlength, readRequest_awaitContent, hfields.contenLength, hchecked, hidx] at hread
  refine ⟨mid.awaitContent.markLine, ?_, hidx, ?_⟩
  · intro i hi
    have := htracks.consumed.stored i hi
    rw [hchecked] at this
    exact this
  · rw [oneShot, hread]
    have hclose : mid.awaitContent.closeBody = mid.awaitContent.markLine.store
        ((headBytes request headers blank).length + (fieldsOf headers).contenLength) 0 := by
      have hlen : mid.awaitContent.startLine = (headBytes request headers blank).length :=
        hstart.trans hchecked
      have hvalue : mid.awaitContent.contenLength = (fieldsOf headers).contenLength :=
        hfields.contenLength
      rw [closeBody, hlen, hvalue]
    rw [hclose]
    rfl

/-- For a request with a body, the stores stay inside exactly when the place
behind the body is in range. -/
theorem body_stores {request blank : List Byte} {headers : List (List Byte)}
    {body : List Byte} (h : IsHead request headers blank)
    (hfit : (headBytes request headers blank ++ body).length ≤ READ_BUFFER_SIZE)
    (hlength : (fieldsOf headers).contenLength ≠ 0) :
    (∀ i ∈ (oneShot fellOff c (headBytes request headers blank ++ body)).1.stores,
        InReceived (oneShot fellOff c (headBytes request headers blank ++ body)).1 i) ↔
      0 ≤ (headBytes request headers blank).length + (fieldsOf headers).contenLength ∧
        (headBytes request headers blank).length + (fieldsOf headers).contenLength < 2 ^ 31 ∧
        ((headBytes request headers blank).length + (fieldsOf headers).contenLength =
          READ_BUFFER_SIZE →
            (headBytes request headers blank ++ body).length < READ_BUFFER_SIZE) := by
  obtain ⟨mid, hstored, hidx, hshot⟩ := readRequest_body fellOff c h hfit hlength
  have hrange := fieldsOf_range headers
  have hread := oneShot_readIdx fellOff c (headBytes request headers blank ++ body)
  have hhead : (headBytes request headers blank).length ≤
      (headBytes request headers blank ++ body).length := by
    rw [List.length_append]
    exact Nat.le_add_right _ _
  have hbuffer : READ_BUFFER_SIZE = 2048 := rfl
  have hinside : ∀ i ∈ mid.stores, 0 ≤ i ∧
      i ≤ ((headBytes request headers blank ++ body).length : Int) ∧
      i < READ_BUFFER_SIZE := by
    intro i hi
    have := hstored i hi
    omega
  simp only [InReceived, hread]
  rw [hshot]
  generalize (fieldsOf headers).contenLength = length at *
  generalize (headBytes request headers blank).length = head at *
  generalize (headBytes request headers blank ++ body).length = received at *
  have hwrap : toInt32 (length + head) ≤ received ↔
      length + head ≤ received ∨ 2 ^ 31 ≤ length + head :=
    toInt32_le_iff (by omega) (by omega) (by omega)
  by_cases hstore : toInt32 (length + head) ≤ received
  · have hstores : (mid.store (head + length) 0).stores = mid.stores ++ [(head : Int) + length] :=
      rfl
    rw [if_pos hstore, hstores, List.forall_mem_append, List.forall_mem_singleton]
    rw [hwrap] at hstore
    constructor
    · rintro ⟨-, hplace⟩
      omega
    · intro hplace
      exact ⟨hinside, by omega⟩
  · rw [if_neg hstore]
    rw [hwrap] at hstore
    exact ⟨fun _ => by omega, fun _ => hinside⟩

/-- The stores of one call stay inside exactly when the body announced in what
has been received fits. -/
theorem oneShot_stores {s : List Byte}
    (hfit : s.length ≤ READ_BUFFER_SIZE) :
    (∀ i ∈ (oneShot fellOff c s).1.stores, InReceived (oneShot fellOff c s).1 i) ↔
      ContentLengthFits s := by
  constructor
  · rintro hall request headers blank body hhead rfl hlength
    exact (body_stores fellOff c hhead hfit hlength).mp hall
  · intro hfits
    have hinside : ∀ {mid : HttpConn} {lines : List (List Byte)} {rest : List Byte},
        mid.Consumed lines rest → mid.readIdx = s.length → ∀ i ∈ mid.stores,
          0 ≤ i ∧ i ≤ (s.length : Int) ∧ i < READ_BUFFER_SIZE := by
      intro mid lines rest hconsumed hread i hi
      have hstored := hconsumed.stored i hi
      have hchecked := hconsumed.scanning.checked_le
      omega
    have hread := oneShot_readIdx fellOff c s
    intro i hi
    rw [InReceived, hread]
    rcases head_cases s with ⟨lines, rest, hstart, hopen, rfl⟩ |
      ⟨line, rest, hline, hnone, rfl⟩ | ⟨request, headers, blank, body, hhead, rfl⟩
    · obtain ⟨mid, stop, hshot, htracks, -⟩ := readRequest_start fellOff c hstart hopen hfit
      rw [oneShot, hshot] at hi hread
      exact hinside htracks.consumed hread i hi
    · obtain ⟨after, hshot, hconsumed⟩ := readRequest_bad fellOff c hline hnone hfit
      rw [oneShot, hshot] at hi hread
      exact hinside hconsumed hread i hi
    · by_cases hlength : (fieldsOf headers).contenLength = 0
      · obtain ⟨mid, htracks, -, hshot⟩ := readRequest_head fellOff c hhead hfit
        rw [if_pos hlength] at hshot
        rw [oneShot, hshot] at hi hread
        exact hinside htracks.consumed hread i hi
      · have hbody := (body_stores fellOff c hhead hfit hlength).mpr
          (hfits request headers blank body hhead rfl hlength) i hi
        rw [InReceived, hread] at hbody
        exact hbody

/-- Where the stores of a call land, for every stream, every cut and every
call made on it: inside the received bytes exactly when the body announced in
them fits. -/
theorem calls_stores {chunks : List (List Byte)}
    (hfit : chunks.flatten.length ≤ READ_BUFFER_SIZE) {call : Call}
    (hcall : call ∈ calls fellOff c.init [] chunks) :
    (∀ i ∈ call.after.stores, InReceived call.after i) ↔ ContentLengthFits call.received := by
  obtain ⟨hshot, hlen⟩ := calls_oneShot (init_resumes fellOff c) hfit call hcall
  have hafter : call.after = (oneShot fellOff c call.received).1 := congrArg Prod.fst hshot
  rw [hafter]
  exact oneShot_stores fellOff c (Nat.le_trans hlen hfit)

/-- A call on less than the head waits for more. -/
theorem oneShot_part_of_head {request blank : List Byte} {headers : List (List Byte)}
    (h : IsHead request headers blank) {part rest : List Byte}
    (hpart : headBytes request headers blank = part ++ rest) (hrest : rest ≠ [])
    (hfit : part.length ≤ READ_BUFFER_SIZE) :
    (oneShot fellOff c part).2 = .code .noRequest := by
  obtain ⟨before, line, after, tail, hsplit, rfl, hopen⟩ :=
    prefix_joinLines h.isLine hpart hrest
  obtain ⟨mid, stop, hshot, -⟩ := readRequest_start fellOff c (h.start hsplit) hopen hfit
  rw [oneShot, hshot]

/-- A call on the head and a part of the body does not wait. -/
theorem oneShot_part_of_body {request blank : List Byte} {headers : List (List Byte)}
    (h : IsHead request headers blank) {part : List Byte} {n : Nat} (hn : 0 < n)
    (hdeclared : (fieldsOf headers).contenLength = n)
    (hroom : (headBytes request headers blank).length + n < READ_BUFFER_SIZE)
    (hpart : part.length ≤ n) :
    (oneShot fellOff c (headBytes request headers blank ++ part)).2 =
      if part.length < n then
        if fellOff = some .getRequest then .doRequest else .code .internalError
      else .doRequest := by
  have hbuffer : READ_BUFFER_SIZE = 2048 := rfl
  have hlen : (headBytes request headers blank ++ part).length =
      (headBytes request headers blank).length + part.length := List.length_append
  obtain ⟨mid, -, -, hshot⟩ := readRequest_body fellOff c h
    (by rw [hlen]; omega : (headBytes request headers blank ++ part).length ≤ READ_BUFFER_SIZE)
    (by rw [hdeclared]; omega)
  rw [hshot, hdeclared, hlen, toInt32_of_range (by omega) (by omega)]
  by_cases hless : part.length < n
  · rw [if_neg (by omega), if_pos hless]
  · rw [if_pos (by omega), if_neg hless]

end HttpConn

/-- The calls on a request of `total` bytes wait as long as bytes are missing,
and the first one that has them all calls `do_request`. -/
structure BodyAwaited (total : Nat) (calls : List Call) : Prop where
  waits : ∀ call ∈ calls, call.received.length < total → call.result = .code .noRequest
  serves : ∃ call, calls.find? (fun call => total ≤ call.received.length) = some call ∧
    call.result = .doRequest

/-- A read ends at or behind the end of the head and before the end of the
body; `received` is what came before the chunks. -/
def CutsBody (received : List Byte) (chunks : List (List Byte)) (head total : Nat) : Prop :=
  ∃ k, head ≤ (received ++ (chunks.take k).flatten).length ∧
    (received ++ (chunks.take k).flatten).length < total

theorem bodyAwaited_cons {total : Nat} {call : Call} {calls : List Call}
    (hless : call.received.length < total) (hwaits : call.result = .code .noRequest) :
    BodyAwaited total (call :: calls) ↔ BodyAwaited total calls := by
  have hskip : decide (total ≤ call.received.length) = false := by
    simpa using hless
  constructor
  · rintro ⟨hall, hserves⟩
    rw [List.forall_mem_cons] at hall
    rw [List.find?_cons, hskip] at hserves
    exact ⟨hall.2, hserves⟩
  · rintro ⟨hall, hserves⟩
    refine ⟨?_, ?_⟩
    · rw [List.forall_mem_cons]
      exact ⟨fun _ => hwaits, hall⟩
    · rw [List.find?_cons, hskip]
      exact hserves

theorem cutsBody_cons {received chunk : List Byte} {chunks : List (List Byte)}
    {head total : Nat} (hless : received.length < head) :
    CutsBody received (chunk :: chunks) head total ↔
      CutsBody (received ++ chunk) chunks head total := by
  constructor
  · rintro ⟨k, hk⟩
    cases k with
    | zero =>
        simp only [List.take_zero, List.flatten_nil, List.append_nil] at hk
        omega
    | succ k =>
        rw [List.take_succ_cons, List.flatten_cons, ← List.append_assoc] at hk
        exact ⟨k, hk⟩
  · rintro ⟨k, hk⟩
    refine ⟨k + 1, ?_⟩
    rw [List.take_succ_cons, List.flatten_cons, ← List.append_assoc]
    exact hk

namespace HttpConn

variable (fellOff : Option HttpCode) (c : HttpConn)

/-- From a point inside the head on. -/
theorem calls_body_from {request blank : List Byte} {headers : List (List Byte)}
    {body : List Byte} (h : IsHead request headers blank) {n : Nat} (hn : 0 < n)
    (hdeclared : (fieldsOf headers).contenLength = n) (hbody : body.length = n)
    (hroom : (headBytes request headers blank ++ body).length < READ_BUFFER_SIZE)
    {after : HttpConn} {received : List Byte} {chunks : List (List Byte)}
    (hresumes : Resumes fellOff c received after)
    (hinside : received.length < (headBytes request headers blank).length)
    (hcut : received ++ chunks.flatten = headBytes request headers blank ++ body) :
    BodyAwaited (headBytes request headers blank ++ body).length
        (calls fellOff after received chunks) ↔
      ¬ CutsBody received chunks (headBytes request headers blank).length
        (headBytes request headers blank ++ body).length := by
  induction chunks generalizing after received with
  | nil =>
      rw [List.flatten_nil, List.append_nil] at hcut
      rw [hcut, List.length_append] at hinside
      omega
  | cons chunk chunks ih =>
      rw [List.flatten_cons, ← List.append_assoc] at hcut
      have hwhole := congrArg List.length hcut
      simp only [List.length_append] at hwhole hroom
      have hfit : (received ++ chunk).length ≤ READ_BUFFER_SIZE := by
        rw [List.length_append]
        omega
      rw [calls_cons hresumes hfit, cutsBody_cons hinside]
      by_cases hhead : (received ++ chunk).length < (headBytes request headers blank).length
      · -- still inside the head: the call waits, and the rest decides
        obtain ⟨rest, hrest⟩ : received ++ chunk <+: headBytes request headers blank :=
          List.prefix_of_prefix_length_le ⟨chunks.flatten, hcut⟩ ⟨body, rfl⟩ (Nat.le_of_lt hhead)
        have hne : rest ≠ [] := by
          rintro rfl
          rw [List.append_nil] at hrest
          rw [hrest] at hhead
          exact Nat.lt_irrefl _ hhead
        have hwaits := oneShot_part_of_head fellOff c h hrest.symm hne hfit
        have hless : (received ++ chunk).length <
            (headBytes request headers blank ++ body).length :=
          Nat.lt_of_lt_of_le hhead (List.prefix_append _ body).length_le
        rw [if_pos hwaits, bodyAwaited_cons hless hwaits]
        exact ih (hresumes.step hfit hwaits) hhead hcut
      · -- the head is complete: this call decides
        obtain ⟨part, hpart⟩ : headBytes request headers blank <+: received ++ chunk :=
          List.prefix_of_prefix_length_le ⟨body, rfl⟩ ⟨chunks.flatten, hcut⟩
            (Nat.le_of_not_lt hhead)
        have hlen := congrArg List.length hpart
        simp only [List.length_append] at hlen
        have hresult := oneShot_part_of_body fellOff c h hn hdeclared (by omega)
          (by omega : part.length ≤ n)
        rw [hpart] at hresult
        by_cases hless : part.length < n
        · rw [if_pos hless] at hresult
          have hdecides : (oneShot fellOff c (received ++ chunk)).2 ≠ .code .noRequest := by
            rw [hresult]
            split <;> exact nofun
          constructor
          · intro hawaited
            refine absurd (hawaited.waits _ List.mem_cons_self ?_) hdecides
            simp only [List.length_append]
            omega
          · intro hnot
            exfalso
            apply hnot
            refine ⟨0, ?_⟩
            simp only [List.take_zero, List.flatten_nil, List.append_nil, List.length_append]
            omega
        · rw [if_neg hless] at hresult
          have hall : (headBytes request headers blank ++ body).length ≤
              (received ++ chunk).length := by
            simp only [List.length_append]
            omega
          rw [if_neg (by rw [hresult]; exact nofun)]
          constructor
          · rintro - ⟨k, -, hk⟩
            rw [List.length_append] at hk
            omega
          · intro _
            refine ⟨?_, _, List.find?_cons_of_pos (by simpa using hall), hresult⟩
            rw [List.forall_mem_singleton]
            exact fun hlt => absurd hall (Nat.not_le_of_lt hlt)

/-- A request with a body is read as one request exactly when no read ends
inside its body. -/
theorem calls_body {request blank : List Byte} {headers : List (List Byte)}
    {body : List Byte} (h : IsHead request headers blank) {n : Nat} (hn : 0 < n)
    (hdeclared : (fieldsOf headers).contenLength = n) (hbody : body.length = n)
    (hroom : (headBytes request headers blank ++ body).length < READ_BUFFER_SIZE)
    {chunks : List (List Byte)}
    (hcut : chunks.flatten = headBytes request headers blank ++ body) :
    BodyAwaited (headBytes request headers blank ++ body).length
        (calls fellOff c.init [] chunks) ↔
      ¬ CutsBody [] chunks (headBytes request headers blank).length
        (headBytes request headers blank ++ body).length :=
  calls_body_from fellOff c h hn hdeclared hbody hroom (init_resumes fellOff c)
    (headBytes_pos request headers blank) hcut

/-- A request with a body of two bytes. -/
theorem twoBytes_isHead : IsHead rootRequest [ascii "Content-Length: 2"] [] where
  isLine := by decide
  request := ⟨_, _, rootRequest_line⟩
  headers := by decide
  blank := rfl

theorem twoBytes_length : (fieldsOf [ascii "Content-Length: 2"]).contenLength = (2 : Nat) := by
  decide

theorem twoBytes_head_length :
    (headBytes rootRequest [ascii "Content-Length: 2"] []).length = 37 := by decide

/-- In one piece it is read. -/
theorem calls_body_whole :
    BodyAwaited (headBytes rootRequest [ascii "Content-Length: 2"] [] ++ ascii "ab").length
      (calls none idle.init []
        [headBytes rootRequest [ascii "Content-Length: 2"] [] ++ ascii "ab"]) := by
  have hlen : (headBytes rootRequest [ascii "Content-Length: 2"] [] ++ ascii "ab").length = 39 := by
    rw [List.length_append, twoBytes_head_length]
    decide
  refine (calls_body none idle twoBytes_isHead (by decide) twoBytes_length (by decide)
    (by rw [hlen]; decide) (by simp)).mpr ?_
  rw [hlen, twoBytes_head_length]
  rintro ⟨k, hhead, htotal⟩
  cases k with
  | zero => simp at hhead
  | succ k =>
      rw [List.take_succ_cons, List.take_nil, List.flatten_cons, List.flatten_nil,
        List.append_nil, List.nil_append, hlen] at htotal
      omega

/-- Cut behind its head it is answered with an error, not waited for. -/
theorem calls_body_cut :
    ¬ ∀ (request blank : List Byte) (headers : List (List Byte)) (body : List Byte) (n : Nat)
      (chunks : List (List Byte)), IsHead request headers blank → 0 < n →
      (fieldsOf headers).contenLength = n → body.length = n →
      (headBytes request headers blank ++ body).length < READ_BUFFER_SIZE →
      (∀ chunk ∈ chunks, chunk ≠ []) →
      chunks.flatten = headBytes request headers blank ++ body →
      BodyAwaited (headBytes request headers blank ++ body).length
        (calls none idle.init [] chunks) := by
  intro hall
  have hlen : (headBytes rootRequest [ascii "Content-Length: 2"] [] ++ ascii "ab").length = 39 := by
    rw [List.length_append, twoBytes_head_length]
    decide
  have hnil : headBytes rootRequest [ascii "Content-Length: 2"] [] ≠ [] := by
    intro hnil
    have := twoBytes_head_length
    rw [hnil] at this
    exact absurd this (by decide)
  have hawaited := hall rootRequest [] [ascii "Content-Length: 2"] (ascii "ab") 2
    [headBytes rootRequest [ascii "Content-Length: 2"] [], ascii "ab"] twoBytes_isHead
    (by decide) twoBytes_length (by decide) (by rw [hlen]; decide)
    (by simpa using ⟨hnil, by decide⟩) (by simp)
  have hroom : (headBytes rootRequest [ascii "Content-Length: 2"] []).length ≤
      READ_BUFFER_SIZE := by
    rw [twoBytes_head_length]
    decide
  have hwaits := hawaited.waits _ (first_call_mem none idle hroom [ascii "ab"])
    (by rw [hlen, twoBytes_head_length]; decide)
  have hnone : ([] : List Byte).length ≤ 2 := by decide
  have hresult := oneShot_part_of_body none idle twoBytes_isHead (by decide : 0 < 2)
    twoBytes_length (by rw [twoBytes_head_length]; decide) hnone
  rw [List.append_nil] at hresult
  rw [hresult] at hwaits
  cases hwaits

/-- A request whose Content-Length leads in front of the buffer. -/
theorem negative_isHead : IsHead rootRequest [ascii "Content-Length: -100"] [] where
  isLine := by decide
  request := ⟨_, _, rootRequest_line⟩
  headers := by decide
  blank := rfl

theorem negative_length : (fieldsOf [ascii "Content-Length: -100"]).contenLength = -100 := by
  decide

theorem negative_head_length :
    (headBytes rootRequest [ascii "Content-Length: -100"] []).length = 40 := by decide

theorem root_head_length : (headBytes rootRequest [] []).length = 18 := by decide

/-- In the first call on a complete request. -/
theorem calls_stores_root :
    (∀ i ∈ (oneShot none idle (headBytes rootRequest [] [])).1.stores,
        InReceived (oneShot none idle (headBytes rootRequest [] [])).1 i) ↔
      ContentLengthFits (headBytes rootRequest [] []) := by
  have hfit : (headBytes rootRequest [] []).length ≤ READ_BUFFER_SIZE := by
    rw [root_head_length]
    decide
  exact calls_stores none idle (by simpa using hfit) (first_call_mem none idle hfit [])

/-- The store in front of the buffer. -/
theorem calls_store_in_front :
    ¬ ∀ chunks : List (List Byte), chunks.flatten.length ≤ READ_BUFFER_SIZE →
      ∀ call ∈ calls none idle.init [] chunks, ∀ i ∈ call.after.stores,
        InReceived call.after i := by
  intro hall
  have hlen : (headBytes rootRequest [ascii "Content-Length: -100"] [] ++ []).length = 40 := by
    rw [List.append_nil, negative_head_length]
  have hfit : (headBytes rootRequest [ascii "Content-Length: -100"] [] ++ []).length ≤
      READ_BUFFER_SIZE := by
    rw [hlen]
    decide
  have hcall := hall _ (by simpa using hfit) _ (first_call_mem none idle hfit [])
  obtain ⟨mid, -, -, hshot⟩ := readRequest_body none idle negative_isHead hfit
    (by rw [negative_length]; decide)
  rw [hshot, negative_length, hlen, negative_head_length, if_pos (by decide)] at hcall
  have hstored : (-60 : Int) ∈ (mid.store (((40 : Nat) : Int) + -100) 0).stores :=
    List.mem_append_right _ List.mem_cons_self
  exact absurd (hcall (-60) hstored).1 (by decide)

end HttpConn

end LinuxLearning.Webserver
