/-
The UDP echo server and its clients (chapter_4/udp_server.cpp and
udp_client.cpp).  A client sends a typed line with its NUL and displays the next
datagram that comes, whichever line that answers; the server sends back the
string it finds in what it has received.  A datagram can fill `buf` in either
program; what lies behind `buf` on the stack then belongs to the string.
-/
import LinuxLearning.Lib.Buffer
import LinuxLearning.Lib.Refinement
import LinuxLearning.Lib.RequestReply
import Mathlib.Data.List.TakeWhile
import Mathlib.Logic.Function.Basic

namespace LinuxLearning.Chapter4.Udp

open Function RequestReply TransitionSystem

universe u

/-- The size of `buf` in both programs. -/
def BUF_SIZE : Nat := 1024

/-- The call a client makes next, or the one that has failed. -/
inductive ClientPc
  | getline | recvfrom | sendtoFailed | recvfromFailed
deriving DecidableEq

/-- A line has been sent that nothing has been displayed for. -/
def ClientPc.waits : ClientPc → Bool
  | .recvfrom | .recvfromFailed => true
  | _ => false

/-- The server is in its loop, or behind `error`. -/
inductive ServerPc
  | recvfrom | error
deriving DecidableEq

/-- A client, with the lines it has sent, what it has displayed, and the
datagrams from it and to it that are under way. -/
structure Peer where
  pc : ClientPc
  sent : List (List Byte)
  displayed : List (List Byte)
  toServer : List (List Byte)
  toClient : List (List Byte)

structure Net (ι : Type u) where
  server : ServerPc
  clients : ι → Peer

/-- What happens; `behind` is what lies behind `buf` when it is read. -/
inductive Event where
  | sendto (line : List Byte)
  | sendtoFails
  | serve (datagram behind : List Byte)
  | serveFails (datagram : List Byte)
  | serverFails
  | display (datagram behind : List Byte)
  | recvfromFails
  | loseRequest (datagram : List Byte)
  | loseReply (datagram : List Byte)
  | copyRequest (datagram : List Byte)
  | copyReply (datagram : List Byte)

/-- The string at the front of some bytes. -/
def stringOf (bytes : List Byte) : List Byte := bytes.takeWhile (· != 0)

/-- `sendto(socketfd, msg.c_str(), msg.length() + 1, ...)` -/
def request (line : List Byte) : List Byte := line ++ [0]

/-- `buf`, which was zero, behind `recvfrom(socketfd, buf, BUF_SIZE, ...)`,
which cuts a datagram off. -/
def buf (datagram : List Byte) : List Byte :=
  datagram.take BUF_SIZE ++ List.replicate (BUF_SIZE - datagram.length) 0

/-- `buf` as a string. -/
def received (datagram behind : List Byte) : List Byte := stringOf (buf datagram ++ behind)

/-- `sendto(socketfd, buf, strlen(buf) + 1, ...)` -/
def reply (datagram behind : List Byte) : List Byte := received datagram behind ++ [0]

/-- One step of a client, of the server for it, or of the network. -/
inductive PeerStep (server : ServerPc) (c : Peer) : Event → Peer → ServerPc → Prop
  | sendto {line : List Byte} (hpc : c.pc = .getline) :
      PeerStep server c (.sendto line)
        { c with
          pc := .recvfrom
          sent := c.sent ++ [line]
          toServer := request line :: c.toServer } server
  | sendtoFails (hpc : c.pc = .getline) :
      PeerStep server c .sendtoFails { c with pc := .sendtoFailed } server
  | serve {datagram behind : List Byte} {front back : List (List Byte)}
      (hpc : server = .recvfrom) (h : c.toServer = front ++ datagram :: back) :
      PeerStep server c (.serve datagram behind)
        { c with toServer := front ++ back, toClient := reply datagram behind :: c.toClient }
        server
  -- `sendto` fails: `goto error`
  | serveFails {datagram : List Byte} {front back : List (List Byte)}
      (hpc : server = .recvfrom) (h : c.toServer = front ++ datagram :: back) :
      PeerStep server c (.serveFails datagram) { c with toServer := front ++ back } .error
  -- `recvfrom` fails: `goto error`
  | serverFails (hpc : server = .recvfrom) : PeerStep server c .serverFails c .error
  | display {datagram behind : List Byte} {front back : List (List Byte)}
      (hpc : c.pc = .recvfrom) (h : c.toClient = front ++ datagram :: back) :
      PeerStep server c (.display datagram behind)
        { c with
          pc := .getline
          displayed := c.displayed ++ [received datagram behind]
          toClient := front ++ back } server
  | recvfromFails (hpc : c.pc = .recvfrom) :
      PeerStep server c .recvfromFails { c with pc := .recvfromFailed } server
  -- in the network, or in the socket of a server that has ended
  | loseRequest {datagram : List Byte} {front back : List (List Byte)}
      (h : c.toServer = front ++ datagram :: back) :
      PeerStep server c (.loseRequest datagram) { c with toServer := front ++ back } server
  | loseReply {datagram : List Byte} {front back : List (List Byte)}
      (h : c.toClient = front ++ datagram :: back) :
      PeerStep server c (.loseReply datagram) { c with toClient := front ++ back } server
  | copyRequest {datagram : List Byte} (h : datagram ∈ c.toServer) :
      PeerStep server c (.copyRequest datagram)
        { c with toServer := datagram :: c.toServer } server
  | copyReply {datagram : List Byte} (h : datagram ∈ c.toClient) :
      PeerStep server c (.copyReply datagram) { c with toClient := datagram :: c.toClient } server

inductive Step {ι : Type u} [DecidableEq ι] (s : Net ι) : ι × Event → Net ι → Prop
  | step {i : ι} {event : Event} {after : Peer} {server : ServerPc}
      (hstep : PeerStep s.server (s.clients i) event after server) :
      Step s (i, event) ⟨server, update s.clients i after⟩

/-- The programs behind `bind` and `socket`. -/
def system (ι : Type u) [DecidableEq ι] : TransitionSystem (Net ι) (ι × Event) where
  start s := s = ⟨.recvfrom, fun _ => ⟨.getline, [], [], [], []⟩⟩
  step := Step

/-- The part of a string that `buf` has room for. -/
def front (bytes : List Byte) : List Byte := (stringOf bytes).take BUF_SIZE

/-- A line comes back: as its string, or, where that fills `buf`, with the bytes
of it that `buf` has room for at the front. -/
def Echoes (line text : List Byte) : Prop :=
  if (stringOf line).length < BUF_SIZE then text = stringOf line else front line <+: text

/-- The datagrams under way to the server are requests. -/
def Inv (c : Peer) : Prop := ∀ datagram ∈ c.toServer, ∃ line, datagram = request line

/-- What a client and the datagrams of it stand for. -/
def exchange (c : Peer) : Client (List Byte) (List Byte) where
  asked := c.sent
  got := c.displayed.map (List.take BUF_SIZE)
  waiting := c.pc.waits
  questions := c.toServer.map List.dropLast
  replies := c.toClient.map front

/-- The network has copied a datagram. -/
def Event.Copies : Event → Prop
  | .copyRequest _ | .copyReply _ => True
  | _ => False

/-- The network has lost a datagram, or the server has not sent one. -/
def Event.Loses : Event → Prop
  | .loseRequest _ | .loseReply _ | .serveFails _ => True
  | _ => False

/-- A call of the server has failed. -/
def Event.Stops : Event → Prop
  | .serveFails _ | .serverFails => True
  | _ => False

/-- What an event stands for. -/
def Event.act : Event → Option (Act (List Byte) (List Byte))
  | .sendto line => some (.ask line)
  | .serve datagram _ => some (.serve datagram.dropLast)
  | .display datagram _ => some (.receive (front datagram))
  | .loseRequest datagram | .serveFails datagram => some (.loseQuestion datagram.dropLast)
  | .loseReply datagram => some (.loseReply (front datagram))
  | .copyRequest datagram => some (.copyQuestion datagram.dropLast)
  | .copyReply datagram => some (.copyReply (front datagram))
  | .sendtoFails | .serverFails | .recvfromFails => none

section Received

variable {line text : List Byte} (datagram behind : List Byte)

theorem stringOf_concat (htext : 0 ∉ text) : stringOf (text ++ [0]) = text := by
  have hall : ∀ b ∈ text, (b != 0) = true := by
    intro b hb
    rw [bne_iff_ne]
    rintro rfl
    exact htext hb
  rw [stringOf, List.takeWhile_append_of_pos hall]
  exact List.append_nil text

theorem zero_notMem_stringOf (bytes : List Byte) : 0 ∉ stringOf bytes := by
  intro hmem
  simpa using List.mem_takeWhile_imp hmem

theorem stringOf_request (line : List Byte) : stringOf (request line) = stringOf line := by
  rw [stringOf, request, List.takeWhile_append]
  split
  case isTrue hall => simp [stringOf, (List.takeWhile_prefix _).eq_of_length hall]
  case isFalse => rfl

/-- Zeros behind some bytes are not part of the string. -/
theorem stringOf_append_replicate (bytes : List Byte) (n : Nat) :
    stringOf (bytes ++ List.replicate n 0) = stringOf bytes := by
  rw [stringOf, List.takeWhile_append]
  split
  case isTrue hall =>
    rw [stringOf, (List.takeWhile_prefix _).eq_of_length hall]
    cases n <;> simp [List.replicate_succ]
  case isFalse => rfl

theorem length_buf : (buf datagram).length = BUF_SIZE := by
  rw [buf, List.length_append, List.length_take, List.length_replicate]
  omega

/-- As far as `buf` goes, the string is that of the datagram. -/
theorem take_received : (received datagram behind).take BUF_SIZE = front datagram := by
  have hbuf : (buf datagram ++ behind).take BUF_SIZE = buf datagram :=
    List.take_left' (length_buf datagram)
  rw [received, stringOf, List.take_takeWhile, hbuf, front, stringOf, List.take_takeWhile]
  exact stringOf_append_replicate _ _

/-- What the server sends back. -/
theorem front_reply : front (reply datagram behind) = front datagram := by
  rw [reply, front, received, stringOf_concat (zero_notMem_stringOf _)]
  exact take_received datagram behind

theorem dropLast_request (line : List Byte) : (request line).dropLast = line :=
  List.dropLast_concat

theorem front_request (line : List Byte) : front (request line) = front line := by
  rw [front, stringOf_request, front]

theorem echoes_of_take (h : text.take BUF_SIZE = front line) : Echoes line text := by
  rw [Echoes]
  split
  case isTrue hshort =>
    rw [front, List.take_of_length_le hshort.le] at h
    have hlength := congrArg List.length h
    rw [List.length_take] at hlength
    rw [← h, List.take_of_length_le (by omega)]
  case isFalse => exact h ▸ List.take_prefix _ _

end Received

section Step

variable {server server' : ServerPc} {c after : Peer} {event : Event}

theorem Inv.step (h : Inv c) (hstep : PeerStep server c event after server') : Inv after := by
  cases hstep with
  | @sendto line hpc => exact List.forall_mem_cons.mpr ⟨⟨line, rfl⟩, h⟩
  | serve hpc hsplit | serveFails hpc hsplit => exact fun d hd => h d (mem_of_split hsplit hd)
  | loseRequest hsplit => exact fun d hd => h d (mem_of_split hsplit hd)
  | copyRequest hd => exact List.forall_mem_cons.mpr ⟨h _ hd, h⟩
  | _ => exact h

/-- A step of the programs is a step of the exchange, or does not show there. -/
theorem PeerStep.simulates (hstep : PeerStep server c event after server') (h : Inv c) :
    match event.act with
    | some act => RequestReply.Step front (exchange c) act (exchange after)
    | none => exchange after = exchange c := by
  have hsplit : ∀ {l before back : List (List Byte)} {d : List Byte} (f : List Byte → List Byte),
      l = before ++ d :: back → l.map f = before.map f ++ f d :: back.map f := by
    rintro l before back d f rfl
    rw [List.map_append, List.map_cons]
  cases hstep with
  | @sendto line hpc =>
      have hask : RequestReply.Step front (exchange c) (.ask line) _ :=
        .ask (by simp [exchange, hpc, ClientPc.waits])
      simpa [Event.act, exchange, request, ClientPc.waits] using hask
  | sendtoFails hpc | recvfromFails hpc => simp [Event.act, exchange, hpc, ClientPc.waits]
  | serverFails hpc => rfl
  | @serve datagram behind before back hpc h' =>
      obtain ⟨line, rfl⟩ := h datagram (by rw [h']; simp)
      have hserve : RequestReply.Step front (exchange c) _ _ := .serve (hsplit List.dropLast h')
      simpa [Event.act, exchange, front_reply, front_request, dropLast_request] using hserve
  | serveFails hpc h' | loseRequest h' =>
      have hlose : RequestReply.Step front (exchange c) _ _ :=
        .loseQuestion (hsplit List.dropLast h')
      simpa [Event.act, exchange] using hlose
  | @display datagram behind before back hpc h' =>
      have hreceive : RequestReply.Step front (exchange c) _ _ :=
        .receive (by simp [exchange, hpc, ClientPc.waits]) (hsplit front h')
      simpa [Event.act, exchange, take_received, ClientPc.waits] using hreceive
  | loseReply h' =>
      have hlose : RequestReply.Step front (exchange c) _ _ := .loseReply (hsplit front h')
      simpa [Event.act, exchange] using hlose
  | copyRequest hd =>
      exact RequestReply.Step.copyQuestion (c := exchange c) (List.mem_map_of_mem hd)
  | copyReply hd =>
      exact RequestReply.Step.copyReply (c := exchange c) (List.mem_map_of_mem hd)

theorem Event.act_copies {act : Act (List Byte) (List Byte)} (h : event.act = some act) :
    act.Copies ↔ event.Copies := by
  cases event with
  | sendtoFails | serverFails | recvfromFails => cases h
  | _ =>
      obtain rfl := Option.some.inj h
      exact Iff.rfl

theorem Event.act_lost {act : Act (List Byte) (List Byte)} (h : event.act = some act)
    (hloses : ¬ event.Loses) : act.lost = 0 := by
  cases event with
  | sendtoFails | serverFails | recvfromFails => cases h
  | loseRequest | loseReply | serveFails => exact absurd trivial hloses
  | _ =>
      obtain rfl := Option.some.inj h
      rfl

/-- The server leaves its loop where a call of it fails, and nowhere else. -/
theorem PeerStep.server_iff (hstep : PeerStep server c event after server') :
    server' = .recvfrom ↔ server = .recvfrom ∧ ¬ event.Stops := by
  cases hstep <;> simp [Event.Stops]

end Step

section Runs

variable {ι : Type u} [DecidableEq ι] {history : List (Net ι × ι × Event)} {s : Net ι}

/-- What a step shows of one client. -/
def shownOf (i : ι) (_ : Net ι) (label : ι × Event) : Option (Act (List Byte) (List Byte)) :=
  if label.1 = i then label.2.act else none

/-- Every client is as it should be. -/
def AllInv (s : Net ι) : Prop := ∀ i, Inv (s.clients i)

theorem Step.inv {label : ι × Event} {after : Net ι} (hstep : Step s label after)
    (h : AllInv s) : AllInv after := by
  intro i
  cases hstep with
  | @step j event c server hpeer =>
      dsimp only
      by_cases hij : i = j
      · subst hij
        rw [update_self]
        exact (h i).step hpeer
      · rw [update_of_ne hij]
        exact h i

theorem allInv (hreach : (system ι).Reachable s) : AllInv s := by
  refine hreach.invariant ?_ ?_
  · rintro _ rfl
    exact fun _ => nofun
  · exact fun _ _ _ h hstep => Step.inv hstep h

/-- For each client the programs and the network carry out the exchange. -/
theorem refines (i : ι) :
    (system ι).Refines (client front) (fun s => exchange (s.clients i)) (shownOf i) where
  start := by
    rintro _ rfl
    rfl
  shows := by
    intro before label after act hreach hstep hevent
    cases hstep with
    | @step j event c server hpeer =>
        have hij : j = i := by
          by_contra hne
          rw [shownOf, if_neg hne] at hevent
          cases hevent
        subst hij
        rw [shownOf, if_pos rfl] at hevent
        have hsimulates := hpeer.simulates (allInv hreach j)
        dsimp only at hevent ⊢
        rw [hevent] at hsimulates
        rwa [update_self]
  silent := by
    intro before label after hreach hstep hevent
    cases hstep with
    | @step j event c server hpeer =>
        by_cases hij : i = j
        · subst hij
          rw [shownOf, if_pos rfl] at hevent
          have hsimulates := hpeer.simulates (allInv hreach i)
          dsimp only at hevent ⊢
          rw [hevent] at hsimulates
          rwa [update_self]
        · dsimp only
          rw [update_of_ne hij]

theorem server_iff (hrun : (system ι).Run history s) :
    s.server = .recvfrom ↔ ∀ entry ∈ history, ¬ entry.2.2.Stops := by
  induction hrun with
  | start hstart =>
      subst hstart
      simp
  | snoc hbefore hstep ih =>
      cases hstep with
      | step hpeer =>
          rw [List.forall_mem_append, List.forall_mem_singleton, ← ih]
          exact hpeer.server_iff

/-- What a run shows of a client is what its events stand for. -/
theorem mem_observed {i : ι} {entry : Client (List Byte) (List Byte) × Act (List Byte) (List Byte)}
    (h : entry ∈ observed (fun s => exchange (s.clients i)) (shownOf i) history) :
    ∃ before event, (before, i, event) ∈ history ∧ event.act = some entry.2 := by
  obtain ⟨⟨before, j, event⟩, hmem, hentry⟩ := List.mem_filterMap.mp h
  obtain ⟨act, hact, rfl⟩ := Option.map_eq_some_iff.mp hentry
  dsimp only [shownOf] at hact
  split at hact
  case isTrue hij => exact ⟨before, event, hij ▸ hmem, hact⟩
  case isFalse => cases hact

/-- Whatever the network does, a client displays no more than it has sent, and
only what echoes a line that it has sent itself; the server stays in its loop
until a call of it fails.  While nothing is copied the replies come in order;
and if nothing is lost either, one datagram of a client that waits is under
way. -/
theorem udp_echoes (hrun : (system ι).Run history s) :
    (s.server = .recvfrom ↔ ∀ entry ∈ history, ¬ entry.2.2.Stops) ∧
    ∀ i, (s.clients i).displayed.length ≤ (s.clients i).sent.length ∧
      (∀ text ∈ (s.clients i).displayed, ∃ line ∈ (s.clients i).sent, Echoes line text) ∧
      ((∀ entry ∈ history, entry.2.1 = i → ¬ entry.2.2.Copies) →
        List.Forall₂ Echoes ((s.clients i).sent.take (s.clients i).displayed.length)
          (s.clients i).displayed ∧
        ((∀ entry ∈ history, entry.2.1 = i → ¬ entry.2.2.Loses) →
          (s.clients i).pc = .recvfrom →
          (s.clients i).toServer.length + (s.clients i).toClient.length = 1)) := by
  refine ⟨server_iff hrun, fun i => ?_⟩
  have hobserved := (refines i).run hrun
  have hgenuine := genuine ⟨_, hobserved⟩
  refine ⟨?_, fun text htext => ?_, fun hcopies => ?_⟩
  · have hcount := hgenuine.count
    dsimp only [exchange] at hcount
    rw [List.length_map] at hcount
    omega
  · obtain ⟨line, hline, htake⟩ := hgenuine.got _ (List.mem_map_of_mem htext)
    exact ⟨line, hline, echoes_of_take htake⟩
  · have horder := inOrder hobserved (by
      intro entry hentry
      obtain ⟨before, event, hmem, hact⟩ := mem_observed hentry
      rw [Event.act_copies hact]
      exact hcopies _ hmem rfl)
    refine ⟨?_, fun hreliable hpc => ?_⟩
    · have hinitial := List.prefix_iff_eq_take.mp horder.got_prefix
      dsimp only [exchange] at hinitial
      rw [List.length_map, ← List.map_take] at hinitial
      rw [← List.forall₂_eq_eq_eq, List.forall₂_map_left_iff, List.forall₂_map_right_iff]
        at hinitial
      exact (hinitial.imp fun _ _ htake => echoes_of_take htake).flip
    · have hlost : losses (observed (fun s => exchange (s.clients i)) (shownOf i) history) = 0 := by
        rw [losses, totalCost_eq_zero_iff]
        intro entry hentry
        obtain ⟨before, event, hmem, hact⟩ := mem_observed hentry
        exact Event.act_lost hact (hreliable _ hmem rfl)
      have hwaits : (exchange (s.clients i)).waiting = true := by
        rw [exchange, hpc]
        rfl
      have hunderway := horder.underway hwaits
      rw [hlost] at hunderway
      simpa [exchange] using hunderway

/-- The reply to the first line is copied, and the copy answers the second. -/
theorem udp_echoes_copied :
    ∃ history s, (system Unit).Run history s ∧ (s.clients ()).sent = [ascii "a", ascii "b"] ∧
      (s.clients ()).displayed = [ascii "a", ascii "a"] ∧ s.server = .recvfrom := by
  have hstart : (system Unit).Run [] ⟨.recvfrom, fun _ => ⟨.getline, [], [], [], []⟩⟩ := .start rfl
  have hsend := hstart.snoc (show Step _ ((), .sendto (ascii "a")) _ from .step (.sendto rfl))
  have hserve := hsend.snoc (show Step _ ((), .serve (request (ascii "a")) []) _ from
    .step (.serve rfl (List.nil_append [_]).symm))
  have hcopy := hserve.snoc (show Step _ ((), .copyReply (reply (request (ascii "a")) [])) _ from
    .step (.copyReply List.mem_cons_self))
  have hdisplay := hcopy.snoc
    (show Step _ ((), .display (reply (request (ascii "a")) []) []) _ from
      .step (.display rfl (List.nil_append [_, _]).symm))
  have hsecond := hdisplay.snoc (show Step _ ((), .sendto (ascii "b")) _ from
    .step (.sendto rfl))
  have hwrong := hsecond.snoc
    (show Step _ ((), .display (reply (request (ascii "a")) []) []) _ from
      .step (.display rfl (List.nil_append [_]).symm))
  obtain ⟨hserver, -⟩ := udp_echoes hwrong
  refine ⟨_, _, hwrong, rfl, ?_, hserver.mpr (by simp [Event.Stops])⟩
  decide

end Runs

end LinuxLearning.Chapter4.Udp
