/-
A Content-Length that is too large for the buffer.  `atol` saturates, its
result is cut to an `int`, and the head is added to that; a length that wraps
around at one of the two is taken for one that has been received.
-/
import LinuxLearning.Webserver.Body

namespace LinuxLearning.Webserver

open Lines CString

/-- The last Content-Length header is a numeral, of this value. -/
def LastLength (headers : List (List Byte)) (value : Nat) : Prop :=
  ∃ before line after, headers = before ++ line :: after ∧
    strncaseEq (cText line) (ascii "Content-Length:") 15 = true ∧
    (∀ other ∈ after, strncaseEq (cText other) (ascii "Content-Length:") 15 = false) ∧
    fieldValue (cText line) 15 ≠ [] ∧
    (∀ b ∈ fieldValue (cText line) 15, isdigit b = true) ∧
    digitsValue (fieldValue (cText line) 15) = value

/-- `m_conten_length` for a numeral of this value. -/
def narrowed (value : Nat) : Int := toInt32 (min (value : Int) (2 ^ 63 - 1))

theorem LastLength.fieldsOf {headers : List (List Byte)} {value : Nat}
    (h : LastLength headers value) : (fieldsOf headers).contenLength = narrowed value := by
  obtain ⟨before, line, after, rfl, hline, hafter, hne, hdigits, rfl⟩ := h
  induction after using List.reverseRecOn with
  | nil =>
      rw [fieldsOf_append, HeaderFields.add_contenLength, if_pos hline, atol_digits hne hdigits]
      rfl
  | append_singleton after other ih =>
      rw [List.forall_mem_append, List.forall_mem_singleton] at hafter
      rw [← List.cons_append, ← List.append_assoc, fieldsOf_append,
        HeaderFields.add_contenLength, hafter.2]
      exact ih hafter.1

namespace HttpConn

variable (fellOff : Option HttpCode) (c : HttpConn)

/-- What a call on a whole head and a part of the body does. -/
theorem oneShot_length {request blank : List Byte} {headers : List (List Byte)}
    {body : List Byte} (h : IsHead request headers blank)
    (hfit : (headBytes request headers blank ++ body).length ≤ READ_BUFFER_SIZE) :
    (oneShot fellOff c (headBytes request headers blank ++ body)).2 =
      if toInt32 ((fieldsOf headers).contenLength + (headBytes request headers blank).length) ≤
          (headBytes request headers blank ++ body).length then .doRequest
      else if fellOff = some .getRequest then .doRequest else .code .internalError := by
  by_cases hlength : (fieldsOf headers).contenLength = 0
  · obtain ⟨mid, -, -, hread⟩ := readRequest_head fellOff c h hfit
    rw [if_pos hlength] at hread
    have hsize : READ_BUFFER_SIZE = 2048 := rfl
    rw [List.length_append] at hfit
    rw [oneShot, hread, hlength, Int.zero_add, toInt32_of_range (by omega) (by omega),
      if_pos (by rw [List.length_append]; omega)]
  · obtain ⟨mid, -, -, hshot⟩ := readRequest_body fellOff c h hfit hlength
    rw [hshot]
    split <;> rfl

/-- No call ever takes the request for complete, whatever follows it, however
it is cut, and however much of it is received. -/
def NeverComplete (fellOff : Option HttpCode) (c : HttpConn) (head : List Byte) : Prop :=
  ∀ body chunks rest, head ++ body = chunks.flatten ++ rest →
    chunks.flatten.length ≤ READ_BUFFER_SIZE →
    ∀ call ∈ calls fellOff c.init [] chunks, call.result ≠ .doRequest

section LastLength

variable {request blank : List Byte} {headers : List (List Byte)} {value : Nat}

/-- A call on a whole head takes it for complete when the place behind the
body, as narrowed, has been received or wraps around, or when `parse_content`
falls off its end to the right value. -/
theorem oneShot_complete_iff (h : IsHead request headers blank) (hvalue : LastLength headers value)
    {body : List Byte}
    (hfit : (headBytes request headers blank ++ body).length ≤ READ_BUFFER_SIZE) :
    (oneShot fellOff c (headBytes request headers blank ++ body)).2 = .doRequest ↔
      (headBytes request headers blank).length + narrowed value ≤
          (headBytes request headers blank ++ body).length ∨
        2 ^ 31 ≤ (headBytes request headers blank).length + narrowed value ∨
        fellOff = some .getRequest := by
  have hsize : READ_BUFFER_SIZE = 2048 := rfl
  have hrange := toInt32_range (min (value : Int) (2 ^ 63 - 1))
  have hlen : (headBytes request headers blank ++ body).length =
      (headBytes request headers blank).length + body.length := List.length_append
  have hplace : toInt32 ((fieldsOf headers).contenLength +
        (headBytes request headers blank).length) ≤
          (headBytes request headers blank ++ body).length ↔
      (headBytes request headers blank).length + narrowed value ≤
          (headBytes request headers blank ++ body).length ∨
        2 ^ 31 ≤ (headBytes request headers blank).length + narrowed value := by
    rw [hvalue.fieldsOf, toInt32_le_iff (by rw [narrowed]; omega) (by rw [narrowed]; omega)
      (by omega), Int.add_comm]
  rw [oneShot_length fellOff c h hfit, ← or_assoc, ← hplace]
  split
  · rename_i hsmall
    exact iff_of_true rfl (Or.inl hsmall)
  · rename_i hlarge
    by_cases hfell : fellOff = some .getRequest
    · rw [if_pos hfell]
      exact iff_of_true rfl (Or.inr hfell)
    · rw [if_neg hfell]
      exact iff_of_false (by simp) (not_or_intro hlarge hfell)

/-- A request that fits the buffer and is taken for complete with all of it
filled is so taken in one read. -/
theorem NeverComplete.full {head : List Byte} (hnever : NeverComplete fellOff c head)
    (hle : head.length ≤ READ_BUFFER_SIZE) :
    ∃ body : List Byte, (head ++ body).length = READ_BUFFER_SIZE ∧
      (oneShot fellOff c (head ++ body)).2 ≠ .doRequest := by
  have hfull : (head ++ List.replicate (READ_BUFFER_SIZE - head.length) 0).length =
      READ_BUFFER_SIZE := by
    rw [List.length_append, List.length_replicate]
    omega
  have hone : [head ++ List.replicate (READ_BUFFER_SIZE - head.length) 0].flatten =
      head ++ List.replicate (READ_BUFFER_SIZE - head.length) 0 := List.flatten_singleton
  refine ⟨List.replicate (READ_BUFFER_SIZE - head.length) 0, hfull,
    hnever (List.replicate (READ_BUFFER_SIZE - head.length) 0)
      [head ++ List.replicate (READ_BUFFER_SIZE - head.length) 0] [] ?_ ?_ _
      (first_call_mem fellOff c (Nat.le_of_eq hfull) [])⟩
  · rw [hone, List.append_nil]
  · rw [hone, hfull]

/-- What is received of a request, up to a call that calls `do_request`, has
its head as a whole. -/
theorem called_received (h : IsHead request headers blank) {body rest : List Byte}
    {chunks : List (List Byte)}
    (hsplit : headBytes request headers blank ++ body = chunks.flatten ++ rest)
    (hfit : chunks.flatten.length ≤ READ_BUFFER_SIZE) {call : Call}
    (hcall : call ∈ calls fellOff c.init [] chunks) (hcomplete : call.result = .doRequest) :
    ∃ tail, (headBytes request headers blank ++ tail).length ≤ READ_BUFFER_SIZE ∧
      (oneShot fellOff c (headBytes request headers blank ++ tail)).2 = .doRequest := by
  obtain ⟨part, more, hreceived, hflatten⟩ := calls_received hcall
  have hlen := congrArg List.length hflatten
  rw [List.length_append] at hlen
  have hshot := (calls_oneShot (init_resumes fellOff c) hfit call hcall).1
  rw [hreceived, List.nil_append] at hshot
  have hresult : (oneShot fellOff c part).2 = .doRequest := by
    rw [← hshot]
    exact hcomplete
  rw [hflatten, List.append_assoc] at hsplit
  rcases List.append_eq_append_iff.mp hsplit with ⟨tail, rfl, -⟩ | ⟨tail, hhead, -⟩
  · exact ⟨tail, by omega, hresult⟩
  · by_cases htail : tail = []
    · rw [htail, List.append_nil] at hhead
      rw [← hhead] at hresult hlen
      exact ⟨[], by rw [List.append_nil]; omega, by rw [List.append_nil]; exact hresult⟩
    · have hwaits := oneShot_part_of_head fellOff c h hhead htail (by omega)
      rw [hresult] at hwaits
      cases hwaits

/-- The request is never taken for complete exactly when it does not fit the
buffer, or neither the narrowing nor the sum of `parse_content` wraps around
to a place in the buffer, and what the caller finds when `parse_content` falls
off its end is not GET_REQUEST. -/
theorem neverComplete_iff {request blank : List Byte} {headers : List (List Byte)}
    (h : IsHead request headers blank) {value : Nat} (hvalue : LastLength headers value) :
    NeverComplete fellOff c (headBytes request headers blank) ↔
      READ_BUFFER_SIZE < (headBytes request headers blank).length ∨
      (READ_BUFFER_SIZE < (headBytes request headers blank).length + narrowed value ∧
        (headBytes request headers blank).length + narrowed value < 2 ^ 31 ∧
        fellOff ≠ some .getRequest) := by
  constructor
  · intro hnever
    by_cases hle : (headBytes request headers blank).length ≤ READ_BUFFER_SIZE
    · -- the rest of the buffer is filled, and everything arrives at once
      obtain ⟨body, hfull, hresult⟩ := hnever.full fellOff c hle
      rw [ne_eq, oneShot_complete_iff fellOff c h hvalue (Nat.le_of_eq hfull), hfull] at hresult
      simp only [not_or] at hresult
      exact Or.inr ⟨by omega, by omega, hresult.2.2⟩
    · exact Or.inl (Nat.lt_of_not_le hle)
  · intro hcondition body chunks rest hsplit hfit call hcall hcomplete
    obtain ⟨tail, hle, hresult⟩ := called_received fellOff c h hsplit hfit hcall hcomplete
    have hlen : (headBytes request headers blank ++ tail).length =
        (headBytes request headers blank).length + tail.length := List.length_append
    rw [oneShot_complete_iff fellOff c h hvalue hle] at hresult
    rcases hcondition with hlarge | ⟨hlow, hhigh, hfell⟩
    · omega
    · rcases hresult with hreceived | hwraps | hvalue'
      · omega
      · omega
      · exact hfell hvalue'

end LastLength

/-- A length of 3000 bytes. -/
theorem neverComplete_iff_3000 :
    NeverComplete none idle (headBytes rootRequest [ascii "Content-Length: 3000"] []) ↔
      READ_BUFFER_SIZE < (headBytes rootRequest [ascii "Content-Length: 3000"] []).length ∨
      (READ_BUFFER_SIZE < (headBytes rootRequest [ascii "Content-Length: 3000"] []).length +
          narrowed 3000 ∧
        (headBytes rootRequest [ascii "Content-Length: 3000"] []).length + narrowed 3000 < 2 ^ 31 ∧
        none ≠ some HttpCode.getRequest) := by
  have hhead : IsHead rootRequest [ascii "Content-Length: 3000"] [] :=
    ⟨by decide, ⟨_, _, rootRequest_line⟩, by decide, rfl⟩
  have hvalue : LastLength [ascii "Content-Length: 3000"] 3000 :=
    ⟨[], _, [], rfl, by decide, by simp, by decide, List.all_eq_true.mp (by decide), by decide⟩
  exact neverComplete_iff none idle hhead hvalue

/-- A length of 2^32 bytes is taken for none. -/
theorem complete_at_once :
    ¬ ∀ request headers blank value, IsHead request headers blank → LastLength headers value →
      READ_BUFFER_SIZE < value → NeverComplete none idle (headBytes request headers blank) := by
  intro hall
  have hhead : IsHead rootRequest [ascii "Content-Length: 4294967296"] [] :=
    ⟨by decide, ⟨_, _, rootRequest_line⟩, by decide, rfl⟩
  have hvalue : LastLength [ascii "Content-Length: 4294967296"] 4294967296 :=
    ⟨[], _, [], rfl, by decide, by simp, by decide, List.all_eq_true.mp (by decide), by decide⟩
  have hlen : (headBytes rootRequest [ascii "Content-Length: 4294967296"] [] ++ []).length = 46 := by
    decide
  have hfit : (headBytes rootRequest [ascii "Content-Length: 4294967296"] [] ++ []).length ≤
      READ_BUFFER_SIZE := by
    rw [hlen]
    decide
  have hzero : (fieldsOf [ascii "Content-Length: 4294967296"]).contenLength = 0 := by decide
  have hresult := oneShot_length none idle hhead hfit
  rw [if_pos (by rw [hzero]; decide)] at hresult
  exact hall _ _ _ _ hhead hvalue (by decide) [] [_] [] (by simp) (by simpa using hfit) _
    (first_call_mem none idle hfit []) hresult

end HttpConn

end LinuxLearning.Webserver
