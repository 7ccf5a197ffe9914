/-
The line scanner `http_conn::parse_line`.  On the bytes received but not yet
checked it does what `Lines.scan` says: it closes a line with two NULs, or
leaves `m_checked_idx` where the next call has to go on.
-/
import LinuxLearning.Lib.Lines
import LinuxLearning.Webserver.HttpConn

namespace LinuxLearning.Webserver

open Lines

namespace HttpConn

/-- The loop of `http_conn::parse_line`; the first argument counts the bytes
for which `m_checked_idx < m_read_idx` still holds. -/
def parseLineLoop : Nat → HttpConn → LineStatus × HttpConn
  | 0, c => (.lineOpen, c)
  | left + 1, c =>
      let temp := c.readBuf.get c.checkedIdx
      if temp = CR then
        if c.checkedIdx + 1 = c.readIdx then (.lineOpen, c)
        else if c.readBuf.get (c.checkedIdx + 1) = LF then
          let c := { c.store c.checkedIdx 0 with checkedIdx := c.checkedIdx + 1 }
          let c := { c.store c.checkedIdx 0 with checkedIdx := c.checkedIdx + 1 }
          (.lineOk, c)
        else (.lineBad, c)
      else if temp = LF then
        if c.checkedIdx > 1 ∧ c.readBuf.get (c.checkedIdx - 1) = CR then
          let c := c.store (c.checkedIdx - 1 : Nat) 0
          let c := { c.store c.checkedIdx 0 with checkedIdx := c.checkedIdx + 1 }
          (.lineOk, c)
        else (.lineBad, c)
      else parseLineLoop left (c.moveTo (c.checkedIdx + 1))

/-- `http_conn::parse_line` -/
def parseLine (c : HttpConn) : LineStatus × HttpConn :=
  parseLineLoop (c.readIdx - c.checkedIdx) c

/-- The bytes received and not yet checked. -/
def Pending (c : HttpConn) (data : List Byte) : Prop :=
  c.readBuf.HasAt c.checkedIdx data ∧ c.checkedIdx + data.length = c.readIdx

/-- The line that ends with the CR at `e` is closed. -/
def endLine (c : HttpConn) (e : Nat) : HttpConn :=
  { c with
    readBuf := (c.readBuf.poke e 0).poke (e + 1) 0
    checkedIdx := e + 2
    stores := c.stores ++ [(e : Int), ((e + 1 : Nat) : Int)] }

/-- The byte before `m_checked_idx` is not a CR the scanner ran past. -/
def NotAfterCr (c : HttpConn) : Prop :=
  c.checkedIdx > 1 → c.readBuf.get (c.checkedIdx - 1) ≠ CR

/-- The scanner runs over bytes that are neither CR nor LF. -/
theorem parseLineLoop_skip {text : List Byte} (htext : IsLine text)
    {c : HttpConn} (hat : c.readBuf.HasAt c.checkedIdx text) (left : Nat) :
    parseLineLoop (text.length + left) c =
      parseLineLoop left (c.moveTo (c.checkedIdx + text.length)) := by
  induction text generalizing c with
  | nil => simp
  | cons b text ih =>
      rw [isLine_cons] at htext
      rw [Buffer.hasAt_cons] at hat
      obtain ⟨hb, htail⟩ := hat
      have hidx : c.checkedIdx + 1 + text.length =
          c.checkedIdx + (text.length + 1) := by omega
      have hstep : parseLineLoop (text.length + left + 1) c =
          parseLineLoop (text.length + left)
            (c.moveTo (c.checkedIdx + 1)) := by
        simp [parseLineLoop, hb, htext.1]
      rw [List.length_cons, Nat.add_right_comm, hstep, ih htext.2 htail,
        moveTo_moveTo, moveTo_checkedIdx, hidx]

/-- After the line text only what follows it is left to scan. -/
theorem parseLine_skip {text rest : List Byte} (htext : IsLine text)
    {c : HttpConn} (hpending : c.Pending (text ++ rest)) :
    parseLine c =
      parseLineLoop rest.length (c.moveTo (c.checkedIdx + text.length)) := by
  obtain ⟨hat, hlen⟩ := hpending
  rw [List.length_append] at hlen
  have hleft : c.readIdx - c.checkedIdx = text.length + rest.length := by omega
  rw [parseLine, hleft]
  exact parseLineLoop_skip htext (Buffer.hasAt_append.mp hat).1 rest.length

theorem Pending.skip {text rest : List Byte} {c : HttpConn}
    (hpending : c.Pending (text ++ rest)) :
    (c.moveTo (c.checkedIdx + text.length)).Pending rest := by
  obtain ⟨hat, hlen⟩ := hpending
  rw [List.length_append] at hlen
  exact ⟨(Buffer.hasAt_append.mp hat).2, by
    simp only [moveTo_checkedIdx, moveTo_readIdx]
    omega⟩

/-- A complete line is closed. -/
theorem parseLine_line {text rest : List Byte} (htext : IsLine text)
    {c : HttpConn} (hpending : c.Pending (text ++ CR :: LF :: rest)) :
    parseLine c = (.lineOk, c.endLine (c.checkedIdx + text.length)) := by
  rw [parseLine_skip htext hpending]
  obtain ⟨hat, hlen⟩ := hpending.skip
  simp only [Buffer.hasAt_cons, moveTo_readBuf, moveTo_checkedIdx] at hat
  have hmore : c.checkedIdx + text.length + 1 ≠ c.readIdx := by
    simp only [List.length_cons, moveTo_checkedIdx, moveTo_readIdx] at hlen
    omega
  simp only [List.length_cons, parseLineLoop, moveTo_readBuf, moveTo_checkedIdx,
    moveTo_readIdx, hat.1, hat.2.1, hmore, ↓reduceIte, store_natCast]
  simp only [endLine, List.append_assoc, List.cons_append, List.nil_append]
  rfl

/-- Neither CR nor LF so far: everything received has been checked. -/
theorem parseLine_open {text : List Byte} (htext : IsLine text)
    {c : HttpConn} (hpending : c.Pending text) :
    parseLine c = (.lineOpen, c.moveTo (c.checkedIdx + text.length)) := by
  rw [← List.append_nil text] at hpending
  rw [parseLine_skip htext hpending]
  rfl

/-- A CR at the end of the received bytes is looked at again. -/
theorem parseLine_open_cr {text : List Byte} (htext : IsLine text)
    {c : HttpConn} (hpending : c.Pending (text ++ [CR])) :
    parseLine c = (.lineOpen, c.moveTo (c.checkedIdx + text.length)) := by
  rw [parseLine_skip htext hpending]
  obtain ⟨hat, hlen⟩ := hpending.skip
  simp only [Buffer.hasAt_cons, moveTo_readBuf, moveTo_checkedIdx] at hat
  have hlast : c.checkedIdx + text.length + 1 = c.readIdx := hlen
  simp [parseLineLoop, hat.1, hlast]

/-- A CR followed by something else than LF stops the scanner for good. -/
theorem parseLine_bad_cr {text rest : List Byte} (htext : IsLine text)
    {next : Byte} (hnext : next ≠ LF) {c : HttpConn}
    (hpending : c.Pending (text ++ CR :: next :: rest)) :
    parseLine c = (.lineBad, c.moveTo (c.checkedIdx + text.length)) := by
  rw [parseLine_skip htext hpending]
  obtain ⟨hat, hlen⟩ := hpending.skip
  simp only [Buffer.hasAt_cons, moveTo_readBuf, moveTo_checkedIdx] at hat
  have hmore : c.checkedIdx + text.length + 1 ≠ c.readIdx := by
    simp only [List.length_cons, moveTo_checkedIdx, moveTo_readIdx] at hlen
    omega
  simp [parseLineLoop, hat.1, hat.2.1, hmore, hnext]

theorem NotAfterCr.skip {text : List Byte} (htext : IsLine text)
    {c : HttpConn} (hat : c.readBuf.HasAt c.checkedIdx text)
    (hprev : c.NotAfterCr) :
    (c.moveTo (c.checkedIdx + text.length)).NotAfterCr := by
  intro hpos
  simp only [moveTo_checkedIdx, moveTo_readBuf] at hpos ⊢
  rcases List.eq_nil_or_concat' text with rfl | ⟨init, last, rfl⟩
  · exact hprev hpos
  · have hlast := hat init.length (by simp)
    have hidx : c.checkedIdx + (init ++ [last]).length - 1 =
        c.checkedIdx + init.length := by simp
    have hcr : last ≠ CR := by
      rw [isLine_append, isLine_cons] at htext
      exact htext.2.1.1
    rw [hidx, hlast]
    simpa using hcr

/-- An LF that does not follow a CR stops the scanner for good. -/
theorem parseLine_bad_lf {text rest : List Byte} (htext : IsLine text)
    {c : HttpConn} (hprev : c.NotAfterCr)
    (hpending : c.Pending (text ++ LF :: rest)) :
    parseLine c = (.lineBad, c.moveTo (c.checkedIdx + text.length)) := by
  have hskip := hprev.skip htext (Buffer.hasAt_append.mp hpending.1).1
  rw [parseLine_skip htext hpending]
  have hlf := (Buffer.hasAt_cons.mp hpending.skip.1).1
  simp only [NotAfterCr] at hskip hlf
  have hne : LF ≠ CR := by decide
  simp only [parseLineLoop, hlf, hne, List.length_cons, ↓reduceIte]
  rw [if_neg (fun h => hskip h.1 h.2)]

/-- What the rest of a line looks like when the scanner waits at it. -/
def Unfinished (rest : List Byte) : Prop := rest = [] ∨ rest = [CR]

/-- What the rest of a line looks like when the scanner rejects it. -/
def Broken (rest : List Byte) : Prop :=
  (∃ tail, rest = LF :: tail) ∨ ∃ next tail, next ≠ LF ∧ rest = CR :: next :: tail

/-- Everything a call of `parse_line` can do. -/
theorem parseLine_cases {c : HttpConn} (hprev : c.NotAfterCr) {data : List Byte}
    (hpending : c.Pending data) :
    (∃ text rest, IsLine text ∧ data = text ++ CR :: LF :: rest ∧
      parseLine c = (.lineOk, c.endLine (c.checkedIdx + text.length))) ∨
    (∃ text rest, IsLine text ∧ data = text ++ rest ∧ Unfinished rest ∧
      parseLine c =
        (.lineOpen, c.moveTo (c.checkedIdx + text.length))) ∨
    (∃ text rest, IsLine text ∧ data = text ++ rest ∧ Broken rest ∧
      parseLine c =
        (.lineBad, c.moveTo (c.checkedIdx + text.length))) := by
  rcases scan_cases data with ⟨text, rest, htext, rfl⟩ | htext | ⟨text, htext, rfl⟩ |
    ⟨text, rest, htext, rfl⟩ | ⟨text, next, rest, htext, hnext, rfl⟩
  · exact Or.inl ⟨text, rest, htext, rfl, parseLine_line htext hpending⟩
  · exact Or.inr (Or.inl ⟨data, [], htext, (List.append_nil data).symm, Or.inl rfl,
      parseLine_open htext hpending⟩)
  · exact Or.inr (Or.inl ⟨text, [CR], htext, rfl, Or.inr rfl,
      parseLine_open_cr htext hpending⟩)
  · exact Or.inr (Or.inr ⟨text, LF :: rest, htext, rfl, Or.inl ⟨rest, rfl⟩,
      parseLine_bad_lf htext hprev hpending⟩)
  · exact Or.inr (Or.inr ⟨text, CR :: next :: rest, htext, rfl,
      Or.inr ⟨next, rest, hnext, rfl⟩, parseLine_bad_cr htext hnext hpending⟩)

/-- More received bytes are more bytes to check. -/
theorem Pending.recv {data more : List Byte} {c : HttpConn}
    (hpending : c.Pending data)
    (hfit : c.readIdx + more.length ≤ READ_BUFFER_SIZE) :
    (recvBytes more c).Pending (data ++ more) := by
  obtain ⟨hat, hlen⟩ := hpending
  refine ⟨hat.blit hlen hfit, ?_⟩
  simp only [recvBytes, List.length_append]
  omega

theorem NotAfterCr.recv {more : List Byte} {c : HttpConn} (hprev : c.NotAfterCr)
    (hchecked : c.checkedIdx ≤ c.readIdx) (hread : c.readIdx ≤ READ_BUFFER_SIZE) :
    (recvBytes more c).NotAfterCr := by
  intro hpos
  have hpos' : c.checkedIdx > 1 := hpos
  have hget : (c.readBuf.blit c.readIdx more).get (c.checkedIdx - 1) =
      c.readBuf.get (c.checkedIdx - 1) :=
    Buffer.get_blit_of_lt _ hread (by omega)
  simp only [recvBytes, hget]
  exact hprev hpos'

/-- Closing a line and receiving bytes behind it commute. -/
theorem endLine_recv {c : HttpConn} {e : Nat} (more : List Byte)
    (he : e + 1 < c.readIdx) (hread : c.readIdx ≤ READ_BUFFER_SIZE) :
    (recvBytes more c).endLine e = recvBytes more (c.endLine e) := by
  simp [endLine, recvBytes, Buffer.poke_blit _ hread (by omega : e < c.readIdx),
    Buffer.poke_blit _ hread he]

/-- A scan that was interrupted goes on where it stopped: on more bytes the
call from the old place and the call from the new place do the same. -/
theorem parseLine_resume {text rest more : List Byte} (htext : IsLine text)
    {c : HttpConn} (hpending : c.Pending (text ++ rest))
    (hfit : c.readIdx + more.length ≤ READ_BUFFER_SIZE) :
    parseLine (recvBytes more c) =
      parseLine (recvBytes more (c.moveTo (c.checkedIdx + text.length))) := by
  have hrecv := hpending.recv hfit
  rw [List.append_assoc] at hrecv
  rw [parseLine_skip htext hrecv]
  have hskip : ((recvBytes more c).moveTo (c.checkedIdx + text.length)).Pending
        ([] ++ (rest ++ more)) := hrecv.skip
  exact (parseLine_skip isLine_nil hskip).symm

end HttpConn

end LinuxLearning.Webserver
