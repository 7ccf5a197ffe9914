/-
`http_conn::parse_line` between `init` and any number of receptions and calls.
Whatever the receptions cut, a call finds behind `m_checked_idx` the bytes as
they were received, and the byte before it is no CR; so the status says where
the first line break stands, and the branch for an LF behind a CR is dead.
-/
import LinuxLearning.Lib.Transition
import LinuxLearning.Webserver.Resume

namespace LinuxLearning.Webserver

open Lines HttpConn

/-- A connection and all bytes received on it since `init`. -/
structure Scanner where
  conn : HttpConn
  received : List Byte

namespace Scanner

inductive Label
  | init
  | recv (data : List Byte)
  | parseLine

/-- The steps: `init`, a reception that fits into `m_read_buf`, and a call of
`parse_line`. -/
inductive Step : Scanner → Label → Scanner → Prop
  | init {s : Scanner} : Step s .init ⟨s.conn.init, []⟩
  | recv {s : Scanner} {data : List Byte}
      (hfit : s.conn.readIdx + data.length ≤ READ_BUFFER_SIZE) :
      Step s (.recv data) ⟨recvBytes data s.conn, s.received ++ data⟩
  | parseLine {s : Scanner} :
      Step s .parseLine { s with conn := s.conn.parseLine.2 }

def system : TransitionSystem Scanner Label where
  start s := ∃ c : HttpConn, s = ⟨c.init, []⟩
  step := Step

/-- The received bytes at and after `m_checked_idx`. -/
def unchecked (s : Scanner) : List Byte := s.received.drop s.conn.checkedIdx

/-- The first CR or LF is a CR that an LF follows. -/
def Complete (data : List Byte) : Prop :=
  ∃ text rest, IsLine text ∧ data = text ++ CR :: LF :: rest

/-- There is no CR or LF, or the first is a CR and the last byte. -/
def Incomplete (data : List Byte) : Prop :=
  ∃ text rest, IsLine text ∧ data = text ++ rest ∧ Unfinished rest

/-- Whether the loop of `parse_line` gets into its branch for an LF with a CR
before it. -/
def takesLfBranch : Nat → HttpConn → Bool
  | 0, _ => false
  | left + 1, c =>
      let temp := c.readBuf.get c.checkedIdx
      if temp = CR then false
      else if temp = LF then
        decide (c.checkedIdx > 1 ∧ c.readBuf.get (c.checkedIdx - 1) = CR)
      else takesLfBranch left (c.moveTo (c.checkedIdx + 1))

variable {s before after : Scanner} {label : Label}

/-- What holds between two steps. -/
structure Inv (s : Scanner) : Prop where
  pending : s.conn.Pending s.unchecked
  notAfterCr : s.conn.NotAfterCr
  checked_le : s.conn.checkedIdx ≤ s.received.length
  fits : s.conn.readIdx ≤ READ_BUFFER_SIZE

theorem inv_init (c : HttpConn) : Inv ⟨c.init, []⟩ where
  pending := ⟨Buffer.hasAt_nil _ _, rfl⟩
  notAfterCr := fun hpos => absurd hpos (Nat.not_lt_zero 1)
  checked_le := Nat.le_refl 0
  fits := Nat.zero_le _

theorem Inv.checked_le_read (h : Inv s) : s.conn.checkedIdx ≤ s.conn.readIdx := by
  have hlength := h.pending.2
  omega

theorem Inv.recv (h : Inv s) {data : List Byte}
    (hfit : s.conn.readIdx + data.length ≤ READ_BUFFER_SIZE) :
    Inv ⟨recvBytes data s.conn, s.received ++ data⟩ where
  pending := by
    have hmore : (s.received ++ data).drop s.conn.checkedIdx = s.unchecked ++ data :=
      List.drop_append_of_le_length h.checked_le
    have hpending := h.pending.recv hfit
    rwa [← hmore] at hpending
  notAfterCr := h.notAfterCr.recv h.checked_le_read h.fits
  checked_le := by
    rw [List.length_append]
    exact Nat.le_add_right_of_le h.checked_le
  fits := hfit

/-- The bytes behind a part of the unchecked ones. -/
theorem Inv.drop (h : Inv s) {part rest : List Byte} (hsplit : s.unchecked = part ++ rest) :
    s.received.drop (s.conn.checkedIdx + part.length) = rest ∧
      s.conn.checkedIdx + part.length ≤ s.received.length := by
  have hchecked := h.checked_le
  have hlength := congrArg List.length hsplit
  rw [unchecked, List.length_drop, List.length_append] at hlength
  refine ⟨?_, by omega⟩
  rw [← List.drop_drop, ← unchecked, hsplit, List.drop_left]

/-- The scanner runs over text. -/
theorem Inv.moveTo (h : Inv s) {text rest : List Byte} (htext : IsLine text)
    (hsplit : s.unchecked = text ++ rest) :
    Inv { s with conn := s.conn.moveTo (s.conn.checkedIdx + text.length) } where
  pending := by
    have hpending := h.pending
    rw [hsplit] at hpending
    rw [unchecked, moveTo_checkedIdx, (h.drop hsplit).1]
    exact hpending.skip
  notAfterCr := by
    have hpending := h.pending
    rw [hsplit] at hpending
    exact h.notAfterCr.skip htext (Buffer.hasAt_append.mp hpending.1).1
  checked_le := (h.drop hsplit).2
  fits := h.fits

/-- The scanner closes a line. -/
theorem Inv.endLine (h : Inv s) {text rest : List Byte}
    (hsplit : s.unchecked = text ++ CR :: LF :: rest) :
    Inv { s with conn := s.conn.endLine (s.conn.checkedIdx + text.length) } := by
  have hbehind : s.unchecked = (text ++ [CR, LF]) ++ rest := by rw [hsplit]; simp
  have hpair : s.conn.checkedIdx + (text ++ [CR, LF]).length =
      s.conn.checkedIdx + text.length + 2 := by simp [Nat.add_assoc]
  have hdrop := h.drop hbehind
  have hpending := h.pending
  rw [hbehind] at hpending
  obtain ⟨hrest, hlength⟩ := hpending.skip
  rw [moveTo_readBuf, moveTo_checkedIdx, hpair] at hrest
  rw [moveTo_readIdx, moveTo_checkedIdx, hpair] at hlength
  rw [hpair] at hdrop
  have hfits := h.fits
  refine ⟨⟨?_, ?_⟩, notAfterCr_of_nul rfl ?_, hdrop.2, h.fits⟩
  · rw [unchecked]
    dsimp only [HttpConn.endLine]
    rw [hdrop.1]
    exact (hrest.poke (Or.inl (by omega)) 0).poke (Or.inl (by omega)) 0
  · rw [unchecked]
    dsimp only [HttpConn.endLine]
    rw [hdrop.1]
    exact hlength
  · exact Buffer.get_poke_self _ (by omega) 0

theorem Inv.parseLine (h : Inv s) : Inv { s with conn := s.conn.parseLine.2 } := by
  rcases parseLine_cases h.notAfterCr h.pending with ⟨text, rest, -, hsplit, hok⟩ |
    ⟨text, rest, htext, hsplit, -, hopen⟩ | ⟨text, rest, htext, hsplit, -, hbad⟩
  · rw [hok]
    exact h.endLine hsplit
  · rw [hopen]
    exact h.moveTo htext hsplit
  · rw [hbad]
    exact h.moveTo htext hsplit

theorem Inv.step (h : Inv before) (hstep : system.step before label after) : Inv after := by
  cases hstep with
  | init => exact inv_init before.conn
  | recv hfit => exact h.recv hfit
  | parseLine => exact h.parseLine

theorem reachable_inv (hreach : system.Reachable s) : Inv s := by
  refine hreach.invariant ?_ ?_
  · rintro _ ⟨c, rfl⟩
    exact inv_init c
  · intro before label after h hstep
    exact h.step hstep

/-- The branch is passed by over text. -/
theorem takesLfBranch_skip {text : List Byte} (htext : IsLine text) {c : HttpConn}
    (hat : c.readBuf.HasAt c.checkedIdx text) (left : Nat) :
    takesLfBranch (text.length + left) c =
      takesLfBranch left (c.moveTo (c.checkedIdx + text.length)) := by
  induction text generalizing c with
  | nil => simp
  | cons b text ih =>
      rw [isLine_cons] at htext
      rw [Buffer.hasAt_cons] at hat
      obtain ⟨hb, htail⟩ := hat
      have hstep : takesLfBranch (text.length + left + 1) c =
          takesLfBranch (text.length + left) (c.moveTo (c.checkedIdx + 1)) := by
        simp [takesLfBranch, hb, htext.1]
      rw [List.length_cons, Nat.add_right_comm, hstep, ih htext.2 htail, moveTo_moveTo,
        moveTo_checkedIdx, Nat.add_assoc, Nat.add_comm 1]

/-- At the first line break there is a CR, or an LF without a CR before it. -/
theorem Inv.lfBranch_dead (h : Inv s) :
    takesLfBranch (s.conn.readIdx - s.conn.checkedIdx) s.conn = false := by
  obtain ⟨text, rest, htext, hsplit, hbreak⟩ := exists_text s.unchecked
  have hpending := h.pending
  rw [hsplit] at hpending
  have hlength := hpending.2
  rw [List.length_append] at hlength
  have hleft : s.conn.readIdx - s.conn.checkedIdx = text.length + rest.length := by omega
  rw [hleft, takesLfBranch_skip htext (Buffer.hasAt_append.mp hpending.1).1]
  have hat := hpending.skip.1
  have hprev := (h.moveTo htext hsplit).notAfterCr
  cases rest with
  | nil => rfl
  | cons b rest =>
      rw [List.length_cons, takesLfBranch, (Buffer.hasAt_cons.mp hat).1]
      rcases hbreak b rfl with rfl | rfl
      · rfl
      · rw [if_neg (by decide), if_pos rfl, decide_eq_false_iff_not]
        exact fun hcr => hprev hcr.1 hcr.2

/-- The status, read off the unchecked bytes. -/
theorem Inv.parseLine_ok_iff (h : Inv s) :
    s.conn.parseLine.1 = .lineOk ↔ Complete s.unchecked := by
  constructor
  · intro hstatus
    rcases parseLine_cases h.notAfterCr h.pending with ⟨text, rest, htext, hsplit, -⟩ |
      ⟨_, _, -, -, -, hopen⟩ | ⟨_, _, -, -, -, hbad⟩
    · exact ⟨text, rest, htext, hsplit⟩
    · rw [hopen] at hstatus
      cases hstatus
    · rw [hbad] at hstatus
      cases hstatus
  · rintro ⟨text, rest, htext, hsplit⟩
    rw [parseLine_line htext (hsplit ▸ h.pending)]

theorem Inv.parseLine_open_iff (h : Inv s) :
    s.conn.parseLine.1 = .lineOpen ↔ Incomplete s.unchecked := by
  constructor
  · intro hstatus
    rcases parseLine_cases h.notAfterCr h.pending with ⟨_, _, -, -, hok⟩ |
      ⟨text, rest, htext, hsplit, hrest, -⟩ | ⟨_, _, -, -, -, hbad⟩
    · rw [hok] at hstatus
      cases hstatus
    · exact ⟨text, rest, htext, hsplit, hrest⟩
    · rw [hbad] at hstatus
      cases hstatus
  · rintro ⟨text, rest, htext, hsplit, rfl | rfl⟩
    · rw [List.append_nil] at hsplit
      rw [parseLine_open htext (hsplit ▸ h.pending)]
    · rw [parseLine_open_cr htext (hsplit ▸ h.pending)]

theorem Inv.parseLine_bad_iff (h : Inv s) :
    s.conn.parseLine.1 = .lineBad ↔ ¬ Complete s.unchecked ∧ ¬ Incomplete s.unchecked := by
  rw [← h.parseLine_ok_iff, ← h.parseLine_open_iff]
  cases s.conn.parseLine.1 <;> decide

/-- Between `init`, receptions and calls `parse_line` looks for the first line
break of the unchecked bytes and for nothing else. -/
theorem parseLine_exact (hreach : system.Reachable s) :
    (s.conn.parseLine.1 = .lineOk ↔ Complete s.unchecked) ∧
      (s.conn.parseLine.1 = .lineOpen ↔ Incomplete s.unchecked) ∧
      (s.conn.parseLine.1 = .lineBad ↔ ¬ Complete s.unchecked ∧ ¬ Incomplete s.unchecked) ∧
      (∀ text rest, IsLine text → s.unchecked = text ++ CR :: LF :: rest →
        s.conn.parseLine.2 = s.conn.endLine (s.conn.checkedIdx + text.length)) ∧
      takesLfBranch (s.conn.readIdx - s.conn.checkedIdx) s.conn = false := by
  have h := reachable_inv hreach
  refine ⟨h.parseLine_ok_iff, h.parseLine_open_iff, h.parseLine_bad_iff, ?_, h.lfBranch_dead⟩
  intro text rest htext hsplit
  rw [parseLine_line htext (hsplit ▸ h.pending)]

/-- The CR of a line has been received and looked at, its LF not yet. -/
def cutPair : Scanner :=
  ⟨(recvBytes [71, CR] HttpConn.idle.init).parseLine.2, [71, CR]⟩

theorem cutPair_reachable : system.Reachable cutPair := by
  have hstart : system.Reachable ⟨HttpConn.idle.init, []⟩ := .start ⟨HttpConn.idle, rfl⟩
  have hrecv : system.Reachable ⟨recvBytes [71, CR] HttpConn.idle.init, [71, CR]⟩ :=
    hstart.step (.recv (by decide))
  exact hrecv.step .parseLine

theorem cutPair_closed :
    (recvBytes [LF] cutPair.conn).parseLine.1 = .lineOk ∧
      (recvBytes [LF] cutPair.conn).parseLine.2.checkedIdx = 3 := by
  have hconn : cutPair.conn = (recvBytes [71, CR] HttpConn.idle.init).moveTo 1 := by
    have hpending : (recvBytes [71, CR] HttpConn.idle.init).Pending ([71] ++ [CR]) :=
      (inv_init HttpConn.idle).pending.recv (by decide)
    exact congrArg Prod.snd (parseLine_open_cr (by simp [CR, LF]) hpending)
  have hreach : system.Reachable ⟨recvBytes [LF] cutPair.conn, [71, CR] ++ [LF]⟩ := by
    refine cutPair_reachable.step (.recv ?_)
    rw [hconn]
    decide
  obtain ⟨hok, -, -, hend, -⟩ := parseLine_exact hreach
  have hunchecked : unchecked ⟨recvBytes [LF] cutPair.conn, [71, CR] ++ [LF]⟩ =
      [] ++ CR :: LF :: [] := by
    rw [unchecked, hconn]
    rfl
  refine ⟨hok.mpr ⟨[], [], isLine_nil, hunchecked⟩, ?_⟩
  rw [hend [] [] isLine_nil hunchecked, hconn]
  rfl

end Scanner

end LinuxLearning.Webserver
