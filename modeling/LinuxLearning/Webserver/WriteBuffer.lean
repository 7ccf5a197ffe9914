/-
Pieces of a response in the write buffer.  Whatever the formats make, a call
of `add_response` appends its piece as a whole or leaves the text as it was,
and none of its stores reaches the last byte of the buffer.
-/
import LinuxLearning.Lib.Transition
import LinuxLearning.Webserver.Response

namespace LinuxLearning.Webserver

open CString

/-- Calls of `add_response`, each with what its format makes, on a buffer that
was empty before the first of them. -/
def responding : TransitionSystem HttpConn (List Byte) where
  start c := c.writeIdx = 0
  step c text after := after = (c.addResponse text).2

/-- The outputs of the calls that returned true. -/
def accepted (history : List (HttpConn × List Byte)) : List Byte :=
  history.flatMap fun entry => if (entry.1.addResponse entry.2).1 then entry.2 else []

namespace HttpConn

/-- The stores that a call of `add_response` makes in `m_write_buf`. -/
def responseStores (c : HttpConn) (text : List Byte) : List (Nat × Byte) :=
  if c.writeIdx ≥ WRITE_BUFFER_SIZE then []
  else snprintfStores c.writeIdx (WRITE_BUFFER_SIZE - 1 - c.writeIdx) text

theorem addResponse_writeBuf (c : HttpConn) (text : List Byte) :
    (c.addResponse text).2.writeBuf = c.writeBuf.pokes (c.responseStores text) := by
  rw [addResponse, responseStores]
  split
  · rfl
  · rw [← snprintf_eq_pokes]
    dsimp only
    split <;> rfl

/-- The write buffer begins with `text`, and there is room for a NUL behind
it. -/
structure Filled (c : HttpConn) (text : List Byte) : Prop where
  written : c.Written text
  room : c.writeIdx ≤ WRITE_BUFFER_SIZE - 2

variable {c : HttpConn} {text piece : List Byte}

theorem filled_nil (hempty : c.writeIdx = 0) : c.Filled [] where
  written := ⟨hempty, Buffer.hasAt_nil _ 0, Nat.zero_le _⟩
  room := by
    rw [hempty]
    exact Nat.zero_le _

theorem Filled.not_full (h : c.Filled text) : ¬ c.writeIdx ≥ WRITE_BUFFER_SIZE := by
  have hbuffer : WRITE_BUFFER_SIZE = 1024 := rfl
  have hroom := h.room
  omega

theorem Filled.take_eq (h : c.Filled text) : c.writeBuf.bytes.take c.writeIdx = text := by
  rw [h.written.writeIdx_eq]
  exact h.written.hasAt.take h.written.fits

/-- The stores stay below the last byte. -/
theorem Filled.stores (h : c.Filled text) {store : Nat × Byte}
    (hstore : store ∈ c.responseStores piece) :
    c.writeIdx ≤ store.1 ∧ store.1 < WRITE_BUFFER_SIZE - 1 := by
  have hbuffer : WRITE_BUFFER_SIZE = 1024 := rfl
  have hroom := h.room
  rw [responseStores, if_neg h.not_full] at hstore
  have := mem_snprintfStores hstore
  omega

/-- Nothing before `m_write_idx` is touched. -/
theorem Filled.kept (h : c.Filled text) (piece : List Byte) :
    (c.addResponse piece).2.writeBuf.HasAt 0 text := by
  rw [addResponse_writeBuf]
  apply h.written.hasAt.pokes
  intro store hstore
  have hbehind := (h.stores hstore).1
  rw [h.written.writeIdx_eq] at hbehind
  omega

/-- A call returns true exactly when its piece fits with a NUL behind it. -/
theorem Filled.accepts (h : c.Filled text) (piece : List Byte) :
    (c.addResponse piece).1 = true ↔ piece.length < WRITE_BUFFER_SIZE - 1 - c.writeIdx := by
  rw [addResponse, if_neg h.not_full]
  dsimp only
  split
  · rename_i hlong
    exact iff_of_false Bool.false_ne_true (Nat.not_lt_of_le hlong)
  · rename_i hshort
    exact iff_of_true rfl (Nat.lt_of_not_le hshort)

/-- A piece that is refused leaves the text as it was. -/
theorem Filled.refused (h : c.Filled text) (hfalse : (c.addResponse piece).1 = false) :
    (c.addResponse piece).2.writeIdx = c.writeIdx ∧ (c.addResponse piece).2.Filled text := by
  have hidx : (c.addResponse piece).2.writeIdx = c.writeIdx := by
    rw [addResponse, if_neg h.not_full] at hfalse ⊢
    dsimp only at hfalse ⊢
    split
    · rfl
    · rename_i hshort
      rw [if_neg hshort] at hfalse
      cases hfalse
  refine ⟨hidx, ⟨hidx.trans h.written.writeIdx_eq, h.kept piece, h.written.fits⟩, ?_⟩
  rw [hidx]
  exact h.room

/-- A piece that is accepted stands behind the text. -/
theorem Filled.appended (h : c.Filled text) (htrue : (c.addResponse piece).1 = true) :
    (c.addResponse piece).2.Filled (text ++ piece) := by
  have hbuffer : WRITE_BUFFER_SIZE = 1024 := rfl
  have hshort := (h.accepts piece).mp htrue
  have hlength : (text ++ piece).length < WRITE_BUFFER_SIZE - 1 := by
    rw [List.length_append, ← h.written.writeIdx_eq]
    omega
  have hwritten := (addResponse_written h.written hlength).2
  refine ⟨hwritten, ?_⟩
  rw [hwritten.writeIdx_eq]
  omega

/-- What one call makes of the text. -/
theorem Filled.step (h : c.Filled text) (piece : List Byte) :
    (c.addResponse piece).2.Filled
      (text ++ if (c.addResponse piece).1 then piece else []) := by
  cases hcall : (c.addResponse piece).1 with
  | true =>
      rw [if_pos rfl]
      exact h.appended hcall
  | false =>
      rw [if_neg Bool.false_ne_true, List.append_nil]
      exact (h.refused hcall).2

end HttpConn

section Runs

variable {history : List (HttpConn × List Byte)} {c : HttpConn}

theorem responding_filled (hrun : responding.Run history c) : c.Filled (accepted history) := by
  induction hrun with
  | start hempty => exact HttpConn.filled_nil hempty
  | @snoc history before after piece _ hstep ih =>
      obtain rfl : after = (before.addResponse piece).2 := hstep
      rw [accepted, List.flatMap_append, List.flatMap_singleton]
      exact ih.step piece

/-- The text is what was accepted, and it leaves room; so it was before each
call.  A call stores below the last byte only, accepts its piece exactly when
the piece is short enough, and otherwise leaves the text as it was. -/
theorem responding_whole (hrun : responding.Run history c) :
    c.writeIdx ≤ WRITE_BUFFER_SIZE - 2 ∧
      c.writeBuf.bytes.take c.writeIdx = accepted history ∧
      ∀ entry ∈ history, entry.1.writeIdx ≤ WRITE_BUFFER_SIZE - 2 ∧
        (entry.1.addResponse entry.2).2.writeBuf =
          entry.1.writeBuf.pokes (entry.1.responseStores entry.2) ∧
        (∀ store ∈ entry.1.responseStores entry.2, store.1 < WRITE_BUFFER_SIZE - 1) ∧
        ((entry.1.addResponse entry.2).1 = true ↔
          entry.2.length < WRITE_BUFFER_SIZE - 1 - entry.1.writeIdx) ∧
        ((entry.1.addResponse entry.2).1 = false →
          (entry.1.addResponse entry.2).2.writeIdx = entry.1.writeIdx ∧
          (entry.1.addResponse entry.2).2.writeBuf.bytes.take entry.1.writeIdx =
            entry.1.writeBuf.bytes.take entry.1.writeIdx) := by
  have hfilled := responding_filled hrun
  refine ⟨hfilled.room, hfilled.take_eq, fun entry hentry => ?_⟩
  obtain ⟨earlier, hbefore⟩ := hrun.reachable_entry hentry
  have hfilled := responding_filled hbefore
  refine ⟨hfilled.room, HttpConn.addResponse_writeBuf _ _, ?_, hfilled.accepts _, ?_⟩
  · exact fun store hstore => (hfilled.stores hstore).2
  · intro hfalse
    obtain ⟨hidx, hrefused⟩ := hfilled.refused hfalse
    have hsame := hrefused.take_eq
    rw [hidx] at hsame
    exact ⟨hidx, hsame.trans hfilled.take_eq.symm⟩

/-- A status line is accepted, and a piece of the size of the buffer is not. -/
theorem responding_whole_status :
    ∃ history c, responding.Run history c ∧
      c.writeBuf.bytes.take c.writeIdx = statusLine 200 ok200Title := by
  have hstart : responding.Run [] HttpConn.idle := .start rfl
  have hstep : ∀ c bytes, responding.step c bytes (HttpConn.addResponse c bytes).2 :=
    fun _ _ => rfl
  have hrun := (hstart.snoc (hstep _ (statusLine 200 ok200Title))).snoc
    (hstep _ (List.replicate WRITE_BUFFER_SIZE 65))
  refine ⟨_, _, hrun, (responding_whole hrun).2.1.trans ?_⟩
  decide +kernel

end Runs

end LinuxLearning.Webserver
