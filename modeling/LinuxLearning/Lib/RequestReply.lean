/-
A client that asks one question at a time and waits for the reply, over a
network that keeps datagrams whole but may reorder, lose and copy them.  The
server answers each question by itself.  Nothing numbers the questions, so a
copy can answer the wrong one.
-/
import LinuxLearning.Lib.Account

universe u v

namespace RequestReply

open TransitionSystem

variable {Q : Type u} {R : Type v}

/-- A client, and the datagrams from it and to it that are under way. -/
structure Client (Q : Type u) (R : Type v) where
  asked : List Q
  got : List R
  waiting : Bool
  questions : List Q
  replies : List R

inductive Act (Q : Type u) (R : Type v) where
  | ask (question : Q)
  | serve (question : Q)
  | receive (reply : R)
  | loseQuestion (question : Q)
  | loseReply (reply : R)
  | copyQuestion (question : Q)
  | copyReply (reply : R)

/-- The network has copied a datagram. -/
def Act.Copies : Act Q R → Prop
  | .copyQuestion _ | .copyReply _ => True
  | _ => False

/-- How many datagrams the network has lost. -/
def Act.lost : Act Q R → Nat
  | .loseQuestion _ | .loseReply _ => 1
  | _ => 0

/-- The next thing that happens; any of the datagrams may be the next one. -/
inductive Step (answer : Q → R) (c : Client Q R) : Act Q R → Client Q R → Prop
  | ask {question : Q} (hidle : c.waiting = false) :
      Step answer c (.ask question)
        { c with
          asked := c.asked ++ [question]
          waiting := true
          questions := question :: c.questions }
  | serve {question : Q} {front back : List Q} (h : c.questions = front ++ question :: back) :
      Step answer c (.serve question)
        { c with questions := front ++ back, replies := answer question :: c.replies }
  | receive {reply : R} {front back : List R} (hwaiting : c.waiting = true)
      (h : c.replies = front ++ reply :: back) :
      Step answer c (.receive reply)
        { c with got := c.got ++ [reply], waiting := false, replies := front ++ back }
  | loseQuestion {question : Q} {front back : List Q}
      (h : c.questions = front ++ question :: back) :
      Step answer c (.loseQuestion question) { c with questions := front ++ back }
  | loseReply {reply : R} {front back : List R} (h : c.replies = front ++ reply :: back) :
      Step answer c (.loseReply reply) { c with replies := front ++ back }
  | copyQuestion {question : Q} (h : question ∈ c.questions) :
      Step answer c (.copyQuestion question) { c with questions := question :: c.questions }
  | copyReply {reply : R} (h : reply ∈ c.replies) :
      Step answer c (.copyReply reply) { c with replies := reply :: c.replies }

/-- The client, its server and the network between them. -/
def client (answer : Q → R) : TransitionSystem (Client Q R) (Act Q R) where
  start c := c = ⟨[], [], false, [], []⟩
  step := Step answer

variable {answer : Q → R} {c after : Client Q R} {act : Act Q R}

/-- Whatever the network does: all that is under way or has come belongs to a
question that was asked. -/
structure Genuine (answer : Q → R) (c : Client Q R) : Prop where
  questions : ∀ question ∈ c.questions, question ∈ c.asked
  replies : ∀ reply ∈ c.replies, ∃ question ∈ c.asked, reply = answer question
  got : ∀ reply ∈ c.got, ∃ question ∈ c.asked, reply = answer question
  count : c.asked.length = c.got.length + c.waiting.toNat

theorem mem_of_split {α : Type u} {l front back : List α} {a b : α} (h : l = front ++ a :: back)
    (hb : b ∈ front ++ back) : b ∈ l := by
  rw [h]
  simp only [List.mem_append, List.mem_cons] at hb ⊢
  tauto

theorem Genuine.step (h : Genuine answer c) (hstep : Step answer c act after) :
    Genuine answer after := by
  cases hstep with
  | @ask question hidle =>
      have hmore : ∀ q ∈ c.asked, q ∈ c.asked ++ [question] := fun _ => List.mem_append_left _
      refine ⟨?_, ?_, ?_, ?_⟩
      · rw [List.forall_mem_cons]
        exact ⟨by simp, fun q hq => hmore q (h.questions q hq)⟩
      · intro reply hreply
        obtain ⟨q, hq, heq⟩ := h.replies reply hreply
        exact ⟨q, hmore q hq, heq⟩
      · intro reply hreply
        obtain ⟨q, hq, heq⟩ := h.got reply hreply
        exact ⟨q, hmore q hq, heq⟩
      · have hcount := h.count
        rw [hidle] at hcount
        simpa using hcount
  | serve hsplit =>
      refine ⟨fun q hq => h.questions q (mem_of_split hsplit hq), ?_, h.got, h.count⟩
      rw [List.forall_mem_cons]
      exact ⟨⟨_, h.questions _ (by rw [hsplit]; simp), rfl⟩, h.replies⟩
  | receive hwaiting hsplit =>
      refine ⟨h.questions, fun r hr => h.replies r (mem_of_split hsplit hr), ?_, ?_⟩
      · rw [List.forall_mem_append, List.forall_mem_singleton]
        exact ⟨h.got, h.replies _ (by rw [hsplit]; simp)⟩
      · have hcount := h.count
        rw [hwaiting] at hcount
        simpa using hcount
  | loseQuestion hsplit =>
      exact ⟨fun q hq => h.questions q (mem_of_split hsplit hq), h.replies, h.got, h.count⟩
  | loseReply hsplit =>
      exact ⟨h.questions, fun r hr => h.replies r (mem_of_split hsplit hr), h.got, h.count⟩
  | copyQuestion hq =>
      exact ⟨List.forall_mem_cons.mpr ⟨h.questions _ hq, h.questions⟩, h.replies, h.got, h.count⟩
  | copyReply hr =>
      exact ⟨h.questions, List.forall_mem_cons.mpr ⟨h.replies _ hr, h.replies⟩, h.got, h.count⟩

theorem genuine (hreach : (client answer).Reachable c) : Genuine answer c := by
  refine hreach.invariant ?_ ?_
  · rintro _ rfl
    exact ⟨nofun, nofun, nofun, rfl⟩
  · exact fun _ _ _ h hstep => h.step hstep

/-- Without copies: the replies have come in order, and one datagram is under
way if the client waits for one, unless it was lost. -/
inductive InOrder (answer : Q → R) (c : Client Q R) (lost : Nat) : Prop
  | idle (hwaiting : c.waiting = false) (hquestions : c.questions = []) (hreplies : c.replies = [])
      (hlost : lost = 0) (hgot : c.got = c.asked.map answer)
  | asked {earlier : List Q} {question : Q} (hwaiting : c.waiting = true)
      (hquestions : c.questions = [question]) (hreplies : c.replies = []) (hlost : lost = 0)
      (hasked : c.asked = earlier ++ [question]) (hgot : c.got = earlier.map answer)
  | answered {earlier : List Q} {question : Q} (hwaiting : c.waiting = true)
      (hquestions : c.questions = []) (hreplies : c.replies = [answer question]) (hlost : lost = 0)
      (hasked : c.asked = earlier ++ [question]) (hgot : c.got = earlier.map answer)
  | lost {earlier : List Q} {question : Q} (hwaiting : c.waiting = true)
      (hquestions : c.questions = []) (hreplies : c.replies = []) (hlost : lost = 1)
      (hasked : c.asked = earlier ++ [question]) (hgot : c.got = earlier.map answer)

theorem nil_ne_split {α : Type u} {front back : List α} {a : α} : [] ≠ front ++ a :: back := by
  simp

theorem split_singleton {α : Type u} {front back : List α} {a b : α}
    (h : [b] = front ++ a :: back) : a = b ∧ front ++ back = [] := by
  rcases front with _ | ⟨first, front⟩
  · obtain ⟨rfl, rfl⟩ := List.cons.inj h
    exact ⟨rfl, rfl⟩
  · have := congrArg List.length h
    simp at this

theorem InOrder.step {lost : Nat} (h : InOrder answer c lost) (hstep : Step answer c act after)
    (hcopies : ¬ act.Copies) : InOrder answer after (lost + act.lost) := by
  cases hstep with
  | ask hidle =>
      cases h with
      | idle hwaiting hquestions hreplies hlost hgot =>
          exact .asked rfl (by rw [hquestions]) hreplies hlost rfl hgot
      | asked hwaiting | answered hwaiting | lost hwaiting =>
          rw [hidle] at hwaiting
          cases hwaiting
  | serve hsplit =>
      cases h with
      | idle _ hquestions | answered _ hquestions | lost _ hquestions =>
          rw [hquestions] at hsplit
          exact absurd hsplit nil_ne_split
      | asked hwaiting hquestions hreplies hlost hasked hgot =>
          rw [hquestions] at hsplit
          obtain ⟨rfl, hrest⟩ := split_singleton hsplit
          exact .answered hwaiting hrest (by rw [hreplies]) hlost hasked hgot
  | receive hwaiting' hsplit =>
      cases h with
      | idle _ _ hreplies | asked _ _ hreplies | lost _ _ hreplies =>
          rw [hreplies] at hsplit
          exact absurd hsplit nil_ne_split
      | answered hwaiting hquestions hreplies hlost hasked hgot =>
          rw [hreplies] at hsplit
          obtain ⟨rfl, hrest⟩ := split_singleton hsplit
          refine .idle rfl hquestions hrest hlost ?_
          rw [hasked, hgot, List.map_append]
          rfl
  | loseQuestion hsplit =>
      cases h with
      | idle _ hquestions | answered _ hquestions | lost _ hquestions =>
          rw [hquestions] at hsplit
          exact absurd hsplit nil_ne_split
      | asked hwaiting hquestions hreplies hlost hasked hgot =>
          rw [hquestions] at hsplit
          obtain ⟨rfl, hrest⟩ := split_singleton hsplit
          exact .lost hwaiting hrest hreplies (congrArg (· + 1) hlost) hasked hgot
  | loseReply hsplit =>
      cases h with
      | idle _ _ hreplies | asked _ _ hreplies | lost _ _ hreplies =>
          rw [hreplies] at hsplit
          exact absurd hsplit nil_ne_split
      | answered hwaiting hquestions hreplies hlost hasked hgot =>
          rw [hreplies] at hsplit
          obtain ⟨rfl, hrest⟩ := split_singleton hsplit
          exact .lost hwaiting hquestions hrest (congrArg (· + 1) hlost) hasked hgot
  | copyQuestion | copyReply => exact absurd trivial hcopies

/-- What a run has lost. -/
def losses (history : List (Client Q R × Act Q R)) : Nat :=
  totalCost (fun _ act => act.lost) history

theorem inOrder {history : List (Client Q R × Act Q R)} (hrun : (client answer).Run history c)
    (hcopies : ∀ entry ∈ history, ¬ entry.2.Copies) : InOrder answer c (losses history) := by
  induction hrun with
  | start hstart =>
      subst hstart
      exact .idle rfl rfl rfl rfl rfl
  | snoc hbefore hstep ih =>
      rw [List.forall_mem_append, List.forall_mem_singleton] at hcopies
      rw [losses, totalCost_concat]
      exact (ih hcopies.1).step hstep hcopies.2

variable {lost : Nat}

/-- The replies are those to the questions, in order. -/
theorem InOrder.got_prefix (h : InOrder answer c lost) : c.got <+: c.asked.map answer := by
  cases h with
  | idle _ _ _ _ hgot => rw [hgot]
  | asked _ _ _ _ hasked hgot | answered _ _ _ _ hasked hgot | lost _ _ _ _ hasked hgot =>
      rw [hasked, hgot, List.map_append]
      exact List.prefix_append _ _

/-- A client that waits has a datagram under way, or has lost it. -/
theorem InOrder.underway (h : InOrder answer c lost) (hwaiting : c.waiting = true) :
    c.questions.length + c.replies.length + lost = 1 := by
  cases h with
  | idle hidle =>
      rw [hidle] at hwaiting
      cases hwaiting
  | asked _ hquestions hreplies hlost | answered _ hquestions hreplies hlost
  | lost _ hquestions hreplies hlost =>
      rw [hquestions, hreplies, hlost]
      rfl

end RequestReply
