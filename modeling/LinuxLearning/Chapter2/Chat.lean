/-
The chat over two FIFOs (chapter_2/pipe/chatA.cpp and chatB.cpp).  chatA sends
first, through fifo2; chatB answers through fifo1.  A terminal delivers a list
of lines, and a program that has read them all waits in `getline`.
-/
import LinuxLearning.Lib.CString
import LinuxLearning.Lib.Transition

namespace LinuxLearning.Chapter2.Chat

open CString

/-- A typed line; `buf` has room for it and a NUL. -/
abbrev Line := { text : List Byte // text.length < 128 }

/-- The call a program makes next. -/
inductive Place
  | getline | write | read
  deriving DecidableEq

/-- One of the two programs: its buffer, the lines still to be typed, and the
messages it has displayed. -/
structure Program where
  buf : Buffer 128
  typed : List Line
  displayed : List (List Byte)
  place : Place

namespace Program

/-- `memset(buf, 0, sizeof(buf))` -/
def memset (p : Program) : Program := { p with buf := .zero 128 }

/-- `getline(cin, str)`, and the loop that copies the line into `buf`. -/
def getline (p : Program) : Option Program :=
  match p.typed with
  | [] => none
  | line :: rest =>
      some { p with buf := p.buf.blit 0 line.1, typed := rest, place := .write }

/-- What `write(fd_write, buf, strlen(buf))` puts into the FIFO. -/
def message (p : Program) : List Byte := cstr p.buf 0

/-- From the call of `write` to the call of `read`; both programs clear `buf`
on the way. -/
def written (p : Program) : Program := { p.memset with place := .read }

/-- `read(fd_read, buf, sizeof(buf))` and the display of what came; the call
waits while the FIFO is empty. -/
def read (p : Program) (fifo : List Byte) : Option Program :=
  if fifo = [] then none
  else
    let buf := p.buf.blit 0 (fifo.take 128)
    some { p with buf := buf, displayed := p.displayed ++ [cstr buf 0], place := .getline }

end Program

/-- The two programs, and what is in the FIFOs. -/
structure State where
  A : Program
  B : Program
  fifo1 : List Byte
  fifo2 : List Byte

/-- The next step of chatA, if it is not blocked.  Behind the display its loop
begins again, with a `memset`. -/
def chatA (s : State) : Option State :=
  match s.A.place with
  | .getline => s.A.getline.map fun p => { s with A := p }
  | .write => some { s with A := s.A.written, fifo2 := s.fifo2 ++ s.A.message }
  | .read => (s.A.read s.fifo1).map fun p =>
      { s with A := p.memset, fifo1 := s.fifo1.drop 128 }

/-- The next step of chatB; the received message is still in `buf` when the
line is copied. -/
def chatB (s : State) : Option State :=
  match s.B.place with
  | .getline => s.B.getline.map fun p => { s with B := p }
  | .write => some { s with B := s.B.written, fifo1 := s.fifo1 ++ s.B.message }
  | .read => (s.B.read s.fifo2).map fun p =>
      { s with B := p, fifo2 := s.fifo2.drop 128 }

inductive Side
  | A | B

def next : Side → State → Option State
  | .A => chatA
  | .B => chatB

/-- Both programs at the head of their loops, with nothing in the FIFOs. -/
def head (typedA typedB : List Line) (displayedA displayedB : List (List Byte)) : State where
  A := ⟨.zero 128, typedA, displayedA, .getline⟩
  B := ⟨.zero 128, typedB, displayedB, .read⟩
  fifo1 := []
  fifo2 := []

/-- The chat of two terminals; the sides step in any order. -/
def system (typedA typedB : List Line) : TransitionSystem State Side where
  start s := s = head typedA typedB [] []
  step s side s' := next side s = some s'

/-- Each program has displayed what the other one's terminal delivered. -/
structure Transmits (typedA typedB : List Line) (s : State) : Prop where
  toB : s.B.displayed <+: typedA.map Subtype.val
  toA : s.A.displayed <+: typedB.map Subtype.val

/-- Both programs are blocked in `read`. -/
structure Deadlocked (s : State) : Prop where
  placeA : s.A.place = .read
  placeB : s.B.place = .read
  fifo1 : s.fifo1 = []
  fifo2 : s.fifo2 = []

/-- A line that C strings can carry: neither empty nor with a NUL in it. -/
structure Printable (line : Line) : Prop where
  nonempty : line.1 ≠ []
  noNul : 0 ∉ line.1

section Messages

/-- What chatA sends of a line. -/
def sent (a : Line) : List Byte := cstr ((Buffer.zero 128).blit 0 a.1) 0

/-- What chatB sends of a line, having received `m`. -/
def answer (m : List Byte) (b : Line) : List Byte :=
  cstr (((Buffer.zero 128).blit 0 m).blit 0 b.1) 0

theorem padded_received {m : List Byte} (hm : m.length ≤ 128) :
    Padded ((Buffer.zero 128).blit 0 m) m := by
  have h := (padded_zero 128).blit hm
  rwa [List.drop_nil, List.append_nil] at h

theorem sent_eq (a : Line) : sent a = a.1.takeWhile (· != 0) :=
  (padded_received (Nat.le_of_lt a.2)).cstr

theorem answer_eq {m : List Byte} (hm : m.length ≤ 128) (b : Line) :
    answer m b = (b.1 ++ m.drop b.1.length).takeWhile (· != 0) :=
  ((padded_received hm).blit (Nat.le_of_lt b.2)).cstr

theorem sent_length (a : Line) : (sent a).length < 128 := by
  rw [sent_eq]
  exact Nat.lt_of_le_of_lt (List.takeWhile_prefix _).length_le a.2

theorem answer_length {m : List Byte} (hm : m.length < 128) (b : Line) :
    (answer m b).length < 128 := by
  rw [answer_eq (Nat.le_of_lt hm)]
  have hle := (List.takeWhile_prefix (p := (· != 0)) (l := b.1 ++ m.drop b.1.length)).length_le
  rw [List.length_append, List.length_drop] at hle
  have := b.2
  omega

/-- A message without a NUL is displayed as it is. -/
theorem displayed_eq {m : List Byte} (hm : m.length < 128) (hnul : 0 ∉ m) :
    cstr ((Buffer.zero 128).blit 0 m) 0 = m := by
  rw [(padded_received (Nat.le_of_lt hm)).cstr, List.takeWhile_eq_self_iff]
  intro b hb
  rw [bne_iff_ne]
  rintro rfl
  exact hnul hb

theorem sent_of_printable {a : Line} (ha : Printable a) : sent a = a.1 :=
  displayed_eq a.2 ha.noNul

/-- An empty line, or one that begins with a NUL, is sent as nothing. -/
theorem sent_eq_nil {a : Line} : sent a = [] ↔ a.1.headD 0 = 0 := by
  rw [sent_eq]
  cases a.1 with
  | nil => simp
  | cons b rest => simp

/-- Behind a shorter line chatB sends the rest of what it received. -/
theorem answer_of_printable {a b : Line} (ha : Printable a) (hb : Printable b) :
    answer (sent a) b = b.1 ++ a.1.drop b.1.length := by
  rw [answer_eq (Nat.le_of_lt (sent_length a)), sent_of_printable ha, List.takeWhile_eq_self_iff]
  intro c hc
  rw [bne_iff_ne]
  rintro rfl
  rcases List.mem_append.mp hc with hline | hrest
  · exact hb.noNul hline
  · exact ha.noNul (List.mem_of_mem_drop hrest)

theorem answer_eq_line {a b : Line} (ha : Printable a) (hb : Printable b) :
    answer (sent a) b = b.1 ↔ a.1.length ≤ b.1.length := by
  rw [answer_of_printable ha hb, List.append_right_eq_self, List.drop_eq_nil_iff]

/-- The answer is empty only to a line that begins with a NUL: behind an empty
line the received message is sent back. -/
theorem answer_eq_nil {a b : Line} (ha : sent a ≠ []) :
    answer (sent a) b = [] ↔ b.1.head? = some 0 := by
  rw [answer_eq (Nat.le_of_lt (sent_length a))]
  cases hb : b.1 with
  | nil =>
      have hsame : (sent a).takeWhile (· != 0) = sent a := by
        rw [List.takeWhile_eq_self_iff]
        intro c hc
        rw [bne_iff_ne]
        rintro rfl
        exact zero_notMem_cstr _ 0 hc
      simpa [hsame] using ha
  | cons c rest => simp

end Messages

section Course

variable {displayedA displayedB : List (List Byte)} {restA restB : List Line} {s s' : State}

/-- A program in `read`, with a cleared buffer. -/
def waiting (typed : List Line) (displayed : List (List Byte)) : Program :=
  ⟨.zero 128, typed, displayed, .read⟩

/-- A program that has displayed the message `m` and not typed a line since. -/
def received (typed : List Line) (displayed : List (List Byte)) (m : List Byte) : Program :=
  ⟨(Buffer.zero 128).blit 0 m, typed, displayed ++ [m], .getline⟩

theorem read_waiting {m : List Byte} (hm : m.length < 128) (hnul : 0 ∉ m)
    (typed : List Line) (displayed : List (List Byte)) :
    (waiting typed displayed).read m =
      if m = [] then none else some (received typed displayed m) := by
  simp only [Program.read, waiting, received, List.take_of_length_le (Nat.le_of_lt hm),
    displayed_eq hm hnul]

theorem chatA_reads {m : List Byte} (hm : m.length < 128) (hnul : 0 ∉ m) (B : Program)
    (fifo2 : List Byte) :
    chatA ⟨waiting restA displayedA, B, m, fifo2⟩ =
      if m = [] then none
      else some ⟨(received restA displayedA m).memset, B, [], fifo2⟩ := by
  change ((waiting restA displayedA).read m).map _ = _
  rw [read_waiting hm hnul, List.drop_eq_nil_of_le (Nat.le_of_lt hm)]
  split_ifs <;> rfl

theorem chatB_reads {m : List Byte} (hm : m.length < 128) (hnul : 0 ∉ m) (A : Program)
    (fifo1 : List Byte) :
    chatB ⟨A, waiting restB displayedB, fifo1, m⟩ =
      if m = [] then none
      else some ⟨A, received restB displayedB m, fifo1, []⟩ := by
  change ((waiting restB displayedB).read m).map _ = _
  rw [read_waiting hm hnul, List.drop_eq_nil_of_le (Nat.le_of_lt hm)]
  split_ifs <;> rfl

/-- The states of one exchange, which begins with the lines `restA` and `restB`
still to be typed. -/
inductive Exchange (displayedA displayedB : List (List Byte)) :
    List Line → List Line → State → Prop
  | atHeads {restA restB : List Line} :
      Exchange displayedA displayedB restA restB (head restA restB displayedA displayedB)
  | typedA {a : Line} {restA restB : List Line} :
      Exchange displayedA displayedB (a :: restA) restB
        ⟨⟨(Buffer.zero 128).blit 0 a.1, restA, displayedA, .write⟩, waiting restB displayedB,
          [], []⟩
  | sentA {a : Line} {restA restB : List Line} :
      Exchange displayedA displayedB (a :: restA) restB
        ⟨waiting restA displayedA, waiting restB displayedB, [], sent a⟩
  | receivedB {a : Line} {restA restB : List Line} (hsent : sent a ≠ []) :
      Exchange displayedA displayedB (a :: restA) restB
        ⟨waiting restA displayedA, received restB displayedB (sent a), [], []⟩
  | typedB {a b : Line} {restA restB : List Line} (hsent : sent a ≠ []) :
      Exchange displayedA displayedB (a :: restA) (b :: restB)
        ⟨waiting restA displayedA,
          ⟨((Buffer.zero 128).blit 0 (sent a)).blit 0 b.1, restB, displayedB ++ [sent a], .write⟩,
          [], []⟩
  | sentB {a b : Line} {restA restB : List Line} (hsent : sent a ≠ []) :
      Exchange displayedA displayedB (a :: restA) (b :: restB)
        ⟨waiting restA displayedA, waiting restB (displayedB ++ [sent a]),
          answer (sent a) b, []⟩

/-- The exchanges that came before: what they displayed, and the lines they
left to be typed. -/
inductive Past (typedA typedB : List Line) :
    List (List Byte) → List (List Byte) → List Line → List Line → Prop
  | start : Past typedA typedB [] [] typedA typedB
  | exchange {displayedA displayedB : List (List Byte)} {a b : Line} {restA restB : List Line}
      (hbefore : Past typedA typedB displayedA displayedB (a :: restA) (b :: restB))
      (hsent : sent a ≠ []) (hanswer : answer (sent a) b ≠ []) :
      Past typedA typedB (displayedA ++ [answer (sent a) b]) (displayedB ++ [sent a]) restA restB

/-- A step stays in the exchange, or ends it. -/
theorem Exchange.step (h : Exchange displayedA displayedB restA restB s) {side : Side}
    (hstep : next side s = some s') :
    Exchange displayedA displayedB restA restB s' ∨
      ∃ a b moreA moreB, restA = a :: moreA ∧ restB = b :: moreB ∧ sent a ≠ [] ∧
        answer (sent a) b ≠ [] ∧
        s' = Chat.head moreA moreB (displayedA ++ [answer (sent a) b])
          (displayedB ++ [sent a]) := by
  cases h with
  | atHeads =>
      cases side with
      | A =>
          cases restA with
          | nil => cases hstep
          | cons a restA =>
              cases hstep
              exact Or.inl .typedA
      | B => cases hstep
  | typedA =>
      cases side with
      | A =>
          cases hstep
          exact Or.inl .sentA
      | B => cases hstep
  | @sentA a restA =>
      cases side with
      | A => cases hstep
      | B =>
          rw [next, chatB_reads (sent_length a) (zero_notMem_cstr _ 0)] at hstep
          split_ifs at hstep with hsent
          cases hstep
          exact Or.inl (.receivedB hsent)
  | receivedB hsent =>
      cases side with
      | A => cases hstep
      | B =>
          cases restB with
          | nil => cases hstep
          | cons b restB =>
              cases hstep
              exact Or.inl (.typedB hsent)
  | typedB hsent =>
      cases side with
      | A => cases hstep
      | B =>
          cases hstep
          exact Or.inl (.sentB hsent)
  | @sentB a b restA restB hsent =>
      cases side with
      | A =>
          have hlength := answer_length (sent_length a) b
          rw [next, chatA_reads hlength (zero_notMem_cstr _ 0)] at hstep
          split_ifs at hstep with hanswer
          cases hstep
          exact Or.inr ⟨a, b, restA, restB, rfl, rfl, hsent, hanswer, rfl⟩
      | B => cases hstep

/-- What the programs have displayed in the middle of an exchange. -/
theorem Exchange.displayed (h : Exchange displayedA displayedB restA restB s) :
    s.A.displayed = displayedA ∧ (s.B.displayed = displayedB ∨
      ∃ a more, restA = a :: more ∧ s.B.displayed = displayedB ++ [Chat.sent a]) := by
  cases h with
  | atHeads => exact ⟨rfl, Or.inl rfl⟩
  | typedA => exact ⟨rfl, Or.inl rfl⟩
  | sentA => exact ⟨rfl, Or.inl rfl⟩
  | @receivedB a restA restB _ => exact ⟨rfl, Or.inr ⟨a, restA, rfl, rfl⟩⟩
  | @typedB a b restA restB _ => exact ⟨rfl, Or.inr ⟨a, restA, rfl, rfl⟩⟩
  | @sentB a b restA restB _ => exact ⟨rfl, Or.inr ⟨a, restA, rfl, rfl⟩⟩

/-- Both programs are blocked only behind an empty message. -/
theorem Exchange.silent (h : Exchange displayedA displayedB restA restB s)
    (hdead : Deadlocked s) :
    ∃ a moreA, restA = a :: moreA ∧ (sent a = [] ∨
      ∃ b moreB, restB = b :: moreB ∧ sent a ≠ [] ∧ answer (sent a) b = []) := by
  cases h with
  | atHeads => cases hdead.placeA
  | typedA => cases hdead.placeA
  | @sentA a restA restB => exact ⟨a, restA, rfl, Or.inl hdead.fifo2⟩
  | receivedB => cases hdead.placeB
  | typedB => cases hdead.placeB
  | @sentB a b restA restB hsent =>
      exact ⟨a, restA, rfl, Or.inr ⟨b, restB, rfl, hsent, hdead.fifo1⟩⟩

/-- A state in an exchange that some past led to. -/
def InExchange (typedA typedB : List Line) (s : State) : Prop :=
  ∃ displayedA displayedB restA restB,
    Past typedA typedB displayedA displayedB restA restB ∧
      Exchange displayedA displayedB restA restB s

theorem inExchange_of_reachable {typedA typedB : List Line}
    (hreach : (system typedA typedB).Reachable s) : InExchange typedA typedB s := by
  refine hreach.invariant ?_ ?_
  · rintro _ rfl
    exact ⟨[], [], typedA, typedB, .start, .atHeads⟩
  · rintro before side after ⟨displayedA, displayedB, restA, restB, hpast, hexchange⟩ hstep
    rcases hexchange.step hstep with hsame |
      ⟨a, b, moreA, moreB, rfl, rfl, hsent, hanswer, rfl⟩
    · exact ⟨displayedA, displayedB, restA, restB, hpast, hsame⟩
    · exact ⟨_, _, moreA, moreB, hpast.exchange hsent hanswer, .atHeads⟩

/-- What the two lists keep when both lose their first line, the past keeps. -/
theorem Past.keeps {typedA typedB : List Line}
    (hpast : Past typedA typedB displayedA displayedB restA restB)
    {P : List Line → List Line → Prop}
    (htail : ∀ a moreA b moreB, P (a :: moreA) (b :: moreB) → P moreA moreB)
    (h : P typedA typedB) : P restA restB := by
  induction hpast with
  | start => exact h
  | exchange _ _ _ ih => exact htail _ _ _ _ ih

end Course

section Runs

variable {typedA typedB : List Line} {displayedA displayedB : List (List Byte)}
  {a b : Line} {restA restB : List Line} {s s' : State}

theorem reachable_next (side : Side) (hreach : (system typedA typedB).Reachable s)
    (hnext : next side s = some s') : (system typedA typedB).Reachable s' :=
  hreach.step hnext

/-- chatA gets its line and sends it. -/
theorem reachable_sentA
    (hreach : (system typedA typedB).Reachable (head (a :: restA) restB displayedA displayedB)) :
    (system typedA typedB).Reachable
      ⟨waiting restA displayedA, waiting restB displayedB, [], sent a⟩ :=
  reachable_next .A (reachable_next .A hreach rfl) rfl

/-- chatB receives it, gets a line of its own and sends its answer. -/
theorem reachable_sentB
    (hreach : (system typedA typedB).Reachable
      (head (a :: restA) (b :: restB) displayedA displayedB)) (hsent : sent a ≠ []) :
    (system typedA typedB).Reachable
      ⟨waiting restA displayedA, waiting restB (displayedB ++ [sent a]),
        answer (sent a) b, []⟩ := by
  have hread : chatB ⟨waiting restA displayedA, waiting (b :: restB) displayedB, [], sent a⟩ = _ :=
    chatB_reads (sent_length a) (zero_notMem_cstr _ 0) _ _
  rw [if_neg hsent] at hread
  have hreceived := reachable_next .B (reachable_sentA hreach) hread
  exact reachable_next .B (reachable_next .B hreceived rfl) rfl

/-- chatA receives the answer. -/
theorem reachable_head
    (hreach : (system typedA typedB).Reachable
      (head (a :: restA) (b :: restB) displayedA displayedB)) (hsent : sent a ≠ [])
    (hanswer : answer (sent a) b ≠ []) :
    (system typedA typedB).Reachable
      (head restA restB (displayedA ++ [answer (sent a) b]) (displayedB ++ [sent a])) := by
  have hread : chatA ⟨waiting restA displayedA, waiting restB (displayedB ++ [sent a]),
      answer (sent a) b, []⟩ = _ :=
    chatA_reads (answer_length (sent_length a) b) (zero_notMem_cstr _ 0) _ _
  rw [if_neg hanswer] at hread
  exact reachable_next .A (reachable_sentB hreach hsent) hread

end Runs

section Transmission

variable {typedA typedB : List Line} {displayedA displayedB : List (List Byte)}
  {restA restB : List Line}

/-- What chatB answers is at least as long as what it answers to. -/
def Covered (typedA typedB : List Line) : Prop :=
  ∀ pair ∈ typedA.zip typedB, pair.1.1.length ≤ pair.2.1.length

theorem covered_cons {a b : Line} :
    Covered (a :: restA) (b :: restB) ↔ a.1.length ≤ b.1.length ∧ Covered restA restB :=
  List.forall_mem_cons

/-- Lines whose exchanges all go right. -/
structure Faithful (typedA typedB : List Line) : Prop where
  lineA : ∀ a ∈ typedA, Printable a
  lineB : ∀ b ∈ typedB, Printable b
  covered : Covered typedA typedB

theorem Faithful.tail {a b : Line} (h : Faithful (a :: restA) (b :: restB)) :
    Faithful restA restB where
  lineA := (List.forall_mem_cons.mp h.lineA).2
  lineB := (List.forall_mem_cons.mp h.lineB).2
  covered := (covered_cons.mp h.covered).2

/-- The displayed messages and the lines still to be typed are the lines of the
two terminals. -/
theorem Past.transmitted (hpast : Past typedA typedB displayedA displayedB restA restB)
    (h : Faithful typedA typedB) :
    displayedB ++ restA.map Subtype.val = typedA.map Subtype.val ∧
      displayedA ++ restB.map Subtype.val = typedB.map Subtype.val := by
  induction hpast with
  | start => exact ⟨rfl, rfl⟩
  | @exchange displayedA displayedB a b restA restB hbefore _ _ ih =>
      have hnow := hbefore.keeps (fun _ _ _ _ => Faithful.tail) h
      have ha := hnow.lineA a List.mem_cons_self
      have hb := hnow.lineB b List.mem_cons_self
      rw [(answer_eq_line ha hb).mpr (covered_cons.mp hnow.covered).1, sent_of_printable ha,
        List.append_assoc, List.append_assoc]
      exact ih

theorem transmits_of_faithful (h : Faithful typedA typedB) {s : State}
    (hreach : (system typedA typedB).Reachable s) : Transmits typedA typedB s := by
  obtain ⟨displayedA, displayedB, restA, restB, hpast, hexchange⟩ := inExchange_of_reachable hreach
  have hnow := hpast.keeps (fun _ _ _ _ => Faithful.tail) h
  obtain ⟨htoB, htoA⟩ := hpast.transmitted h
  obtain ⟨hA, hB⟩ := hexchange.displayed
  constructor
  · rcases hB with hB | ⟨a, more, rfl, hB⟩
    · rw [hB, ← htoB]
      exact List.prefix_append _ _
    · rw [hB, ← htoB, sent_of_printable (hnow.lineA a List.mem_cons_self),
        List.prefix_append_right_inj, List.map_cons, List.cons_prefix_cons]
      exact ⟨rfl, List.nil_prefix⟩
  · rw [hA, ← htoA]
    exact List.prefix_append _ _

theorem sent_ne_nil {a : Line} (ha : Printable a) : sent a ≠ [] := by
  rw [sent_of_printable ha]
  exact ha.nonempty

theorem answer_ne_nil {a b : Line} (ha : Printable a) (hb : Printable b) :
    answer (sent a) b ≠ [] := by
  rw [answer_of_printable ha hb]
  exact List.append_ne_nil_of_left_ne_nil hb.nonempty _

/-- Where the chat transmits, every answer covers what it answers to: the run
that goes through the lines gives the first one that does not away. -/
theorem covered_of_transmits (hlineA : ∀ a ∈ restA, Printable a)
    (hlineB : ∀ b ∈ restB, Printable b)
    (hreach : (system typedA typedB).Reachable (head restA restB displayedA displayedB))
    (hrest : displayedA ++ restB.map Subtype.val = typedB.map Subtype.val)
    (htransmits : ∀ s, (system typedA typedB).Reachable s → Transmits typedA typedB s) :
    Covered restA restB := by
  induction restA generalizing restB displayedA displayedB with
  | nil => exact fun pair hpair => by cases hpair
  | cons a restA ih =>
      cases restB with
      | nil => exact fun pair hpair => by cases hpair
      | cons b restB =>
          rw [List.forall_mem_cons] at hlineA hlineB
          have hnext := reachable_head hreach (sent_ne_nil hlineA.1)
            (answer_ne_nil hlineA.1 hlineB.1)
          have hfront : displayedA ++ [answer (sent a) b] <+: typedB.map Subtype.val :=
            (htransmits _ hnext).toA
          rw [← hrest, List.prefix_append_right_inj, List.map_cons,
            List.cons_prefix_cons] at hfront
          rw [hfront.1] at hnext
          refine covered_cons.mpr ⟨(answer_eq_line hlineA.1 hlineB.1).mp hfront.1, ?_⟩
          refine ih hlineA.2 hlineB.2 hnext ?_
          rw [← hrest, List.map_cons, List.append_assoc]
          rfl

/-- The chat transmits what was typed exactly if no line of chatB is shorter
than the line it answers to. -/
theorem transmits_iff (hlineA : ∀ a ∈ typedA, Printable a) (hlineB : ∀ b ∈ typedB, Printable b) :
    (∀ s, (system typedA typedB).Reachable s → Transmits typedA typedB s) ↔
      ∀ pair ∈ typedA.zip typedB, pair.1.1.length ≤ pair.2.1.length := by
  constructor
  · exact fun htransmits => covered_of_transmits hlineA hlineB (.start rfl) rfl htransmits
  · exact fun hcovered s hreach => transmits_of_faithful ⟨hlineA, hlineB, hcovered⟩ hreach

/-- "abc" answered with "x" -/
def abcLine : Line := ⟨ascii "abc", by decide⟩

def xLine : Line := ⟨ascii "x", by decide⟩

theorem abcLine_printable : ∀ a ∈ [abcLine], Printable a :=
  List.forall_mem_singleton.mpr ⟨by decide, by decide⟩

theorem xLine_printable : ∀ b ∈ [xLine], Printable b :=
  List.forall_mem_singleton.mpr ⟨by decide, by decide⟩

/-- An answer as long as the line goes through. -/
theorem abcLine_transmitted :
    Covered [abcLine] [abcLine] ∧
      ∀ s, (system [abcLine] [abcLine]).Reachable s → Transmits [abcLine] [abcLine] s := by
  have hcovered : Covered [abcLine] [abcLine] := List.forall_mem_singleton.mpr (Nat.le_refl _)
  exact ⟨hcovered, (transmits_iff abcLine_printable abcLine_printable).mpr hcovered⟩

/-- chatA displays "xbc". -/
theorem xLine_garbles :
    ¬ ∀ typedA typedB : List Line, (∀ a ∈ typedA, Printable a) → (∀ b ∈ typedB, Printable b) →
      ∀ s, (system typedA typedB).Reachable s → Transmits typedA typedB s := by
  intro h
  have htransmits := h [abcLine] [xLine] abcLine_printable xLine_printable
  have hcovered :=
    covered_of_transmits abcLine_printable xLine_printable (.start rfl) rfl htransmits
  exact absurd (covered_cons.mp hcovered).1 (by decide)

end Transmission

section Silence

variable {typedA typedB : List Line} {displayedA displayedB : List (List Byte)}
  {restA restB : List Line}

/-- Lines that all put something into a FIFO: those chatA gets to send have a
first byte other than NUL, and no answer begins with a NUL. -/
structure Audible (typedA typedB : List Line) : Prop where
  lineA : ∀ a ∈ typedA.take (typedB.length + 1), a.1.headD 0 ≠ 0
  lineB : ∀ b ∈ typedB.take typedA.length, b.1.head? ≠ some 0

theorem audible_nil : Audible [] typedB where
  lineA a ha := by cases ha
  lineB b hb := by cases hb

theorem audible_last {a : Line} : Audible (a :: restA) [] ↔ sent a ≠ [] := by
  rw [ne_eq, sent_eq_nil]
  constructor
  · exact fun h => h.lineA a List.mem_cons_self
  · intro ha
    refine ⟨?_, fun b hb => by cases hb⟩
    rwa [List.length_nil, List.take_succ_cons, List.take_zero, List.forall_mem_singleton]

theorem audible_cons {a b : Line} :
    Audible (a :: restA) (b :: restB) ↔
      sent a ≠ [] ∧ b.1.head? ≠ some 0 ∧ Audible restA restB := by
  rw [ne_eq, sent_eq_nil]
  constructor
  · rintro ⟨hA, hB⟩
    rw [List.length_cons, List.take_succ_cons, List.forall_mem_cons] at hA hB
    exact ⟨hA.1, hB.1, hA.2, hB.2⟩
  · rintro ⟨ha, hb, hA, hB⟩
    refine ⟨?_, ?_⟩
    · rw [List.length_cons, List.take_succ_cons, List.forall_mem_cons]
      exact ⟨ha, hA⟩
    · rw [List.length_cons, List.take_succ_cons, List.forall_mem_cons]
      exact ⟨hb, hB⟩

theorem Audible.sent_ne {a : Line} (h : Audible (a :: restA) restB) : Chat.sent a ≠ [] := by
  cases restB with
  | nil => exact audible_last.mp h
  | cons b restB => exact (audible_cons.mp h).1

theorem not_deadlocked (h : Audible typedA typedB) {s : State}
    (hreach : (system typedA typedB).Reachable s) : ¬ Deadlocked s := by
  intro hdead
  obtain ⟨displayedA, displayedB, restA, restB, hpast, hexchange⟩ := inExchange_of_reachable hreach
  have hnow := hpast.keeps (fun _ _ _ _ haudible => (audible_cons.mp haudible).2.2) h
  obtain ⟨a, moreA, rfl, hsilent | ⟨b, moreB, rfl, hsent, hsilent⟩⟩ := hexchange.silent hdead
  · exact hnow.sent_ne hsilent
  · exact (audible_cons.mp hnow).2.1 ((answer_eq_nil hsent).mp hsilent)

/-- The run through the lines stops at the first one that is sent as
nothing. -/
theorem audible_of_free
    (hreach : (system typedA typedB).Reachable (head restA restB displayedA displayedB))
    (hfree : ∀ s, (system typedA typedB).Reachable s → ¬ Deadlocked s) :
    Audible restA restB := by
  induction restA generalizing restB displayedA displayedB with
  | nil => exact audible_nil
  | cons a restA ih =>
      have hsent : sent a ≠ [] := by
        intro hsilent
        exact hfree _ (reachable_sentA hreach) ⟨rfl, rfl, rfl, hsilent⟩
      cases restB with
      | nil => exact audible_last.mpr hsent
      | cons b restB =>
          have hanswer : answer (sent a) b ≠ [] := by
            intro hsilent
            exact hfree _ (reachable_sentB hreach hsent) ⟨rfl, rfl, hsilent, rfl⟩
          have hrest := ih (reachable_head hreach hsent hanswer)
          exact audible_cons.mpr ⟨hsent, fun hb => hanswer ((answer_eq_nil hsent).mpr hb), hrest⟩

/-- The chat cannot deadlock exactly if every line puts something into a
FIFO. -/
theorem deadlockFree_iff (typedA typedB : List Line) :
    (∀ s, (system typedA typedB).Reachable s → ¬ Deadlocked s) ↔
      (∀ a ∈ typedA.take (typedB.length + 1), a.1.headD 0 ≠ 0) ∧
        ∀ b ∈ typedB.take typedA.length, b.1.head? ≠ some 0 := by
  constructor
  · intro hfree
    have haudible := audible_of_free (.start rfl) hfree
    exact ⟨haudible.lineA, haudible.lineB⟩
  · exact fun ⟨hA, hB⟩ s hreach => not_deadlocked ⟨hA, hB⟩ hreach

/-- A chat in which an empty line is typed at chatA hangs at once. -/
theorem emptyLine_deadlocks :
    ¬ ∀ (typedA typedB : List Line) (s : State),
      (system typedA typedB).Reachable s → ¬ Deadlocked s := by
  intro h
  let empty : Line := ⟨[], by decide⟩
  have haudible : Audible [empty] [] := audible_of_free (.start rfl) (h [empty] [])
  exact haudible.lineA empty (by decide) rfl

end Silence

end LinuxLearning.Chapter2.Chat
