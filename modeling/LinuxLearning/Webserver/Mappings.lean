/-
The mappings a slot makes and removes: in the runs in which every mapping
succeeds and no client hangs up while its slot holds one, the slot owns what
`m_file_address` names, removes it once, and holds nothing when it is closed.
-/
import LinuxLearning.Lib.Ledger
import LinuxLearning.Webserver.Direction

namespace LinuxLearning.Webserver

universe u

open Ledger Function Lines

/-- What a system call does to the mappings. -/
def SysCall.mappingEntry : SysCall → Option (Entry (FileAddress × Nat))
  | .mmap addr len => some (.acquire (.mapped addr, len))
  | .munmap address len => some (.release (address, len))
  | .modfd _ _ => none

/-- The mappings made and removed by some system calls. -/
def mappingLog (calls : List SysCall) : List (Entry (FileAddress × Nat)) :=
  calls.filterMap SysCall.mappingEntry

theorem mappingLog_append (first second : List SysCall) :
    mappingLog (first ++ second) = mappingLog first ++ mappingLog second :=
  List.filterMap_append

@[simp] theorem mappingLog_modfd (fd : Int) (ev : Interest) :
    mappingLog [.modfd fd ev] = [] := rfl

@[simp] theorem mappingLog_munmap (address : FileAddress) (len : Nat) :
    mappingLog [.munmap address len] = [.release (address, len)] := rfl

namespace HttpConn

/-- The file of the request is one that can be mapped: it opens, it is not
empty, and `mmap` succeeds. -/
def MapsFile (fs : List Byte → FsAnswer) (fellOff : Option HttpCode) (c : HttpConn) : Prop :=
  ∀ answer ∈ c.fileAnswer fs fellOff, ∀ st ∈ answer.stat, ∃ addr, answer.mmap st.size = .mapped addr

/-- Nothing is mapped, and the log agrees. -/
structure Free (c : HttpConn) (calls : List SysCall) : Prop where
  address : c.fileAddress = .null
  live : live (mappingLog calls) = []
  proper : Proper (mappingLog calls)

/-- One file is mapped, and a response is queued behind it. -/
structure Held (c : HttpConn) (calls : List SysCall) : Prop where
  mapped : c.fileAddress ≠ .null
  live : live (mappingLog calls) = [(c.fileAddress, c.fileStat.size)]
  proper : Proper (mappingLog calls)
  written : c.writeIdx ≠ 0
  open_ : c.sockfd ≠ -1

theorem Free.congr {c after : HttpConn} {calls calls' : List SysCall} (h : c.Free calls)
    (haddress : after.fileAddress = c.fileAddress)
    (hcalls : mappingLog calls' = mappingLog calls) : after.Free calls' :=
  ⟨haddress.trans h.address, hcalls ▸ h.live, hcalls ▸ h.proper⟩

/-- `unmap` frees what is held. -/
theorem Held.unmap {c : HttpConn} {calls : List SysCall} (h : c.Held calls) :
    c.unmap.1.Free (calls ++ c.unmap.2) := by
  have hmapped := h.mapped
  simp only [HttpConn.unmap, hmapped, ↓reduceIte]
  refine ⟨rfl, ?_, ?_⟩
  · rw [mappingLog_append, mappingLog_munmap, live_concat, h.live]
    simp [Entry.settle]
  · rw [mappingLog_append, mappingLog_munmap]
    apply proper_concat h.proper
    rintro a ha
    rw [← Entry.release.inj ha, h.live]
    exact List.mem_cons_self

/-- With nothing mapped it does nothing. -/
theorem Free.unmap {c : HttpConn} {calls : List SysCall} (h : c.Free calls) :
    c.unmap.1.Free (calls ++ c.unmap.2) := by
  simp only [HttpConn.unmap, h.address, ↓reduceIte, List.append_nil]
  exact h

/-- The response for a file has a head or a page in the buffer. -/
theorem processWrite_file_written {c : HttpConn} (hempty : c.writeIdx = 0) :
    (c.processWrite .fileRequest).1 = true ∧ (c.processWrite .fileRequest).2.writeIdx ≠ 0 := by
  obtain ⟨hok, hqueued⟩ := processWrite_file (written_nil hempty)
  refine ⟨hok, ?_⟩
  by_cases hsize : c.fileStat.size = 0
  · rw [if_pos hsize] at hqueued
    rw [hqueued.written.writeIdx_eq]
    exact (startsOnce_responsePage c.linger).2.2.2.length_ne_zero
  · rw [if_neg hsize] at hqueued
    rw [hqueued.written.writeIdx_eq]
    exact (startsOnce_responseHead c.linger _).length_ne_zero

/-- `process` on a slot that holds no mapping: it makes none, or it makes one
and queues the response for it. -/
theorem process_mappings {fs : List Byte → FsAnswer} {fellOff : Option HttpCode} {c : HttpConn}
    {calls : List SysCall} (hfree : c.Free calls) (hempty : c.writeIdx = 0)
    (hlive : c.sockfd ≠ -1) (hmaps : c.MapsFile fs fellOff) (userCount : Int) :
    (c.process fs fellOff userCount).1.Free
        (calls ++ (c.process fs fellOff userCount).2.2) ∨
    ((c.process fs fellOff userCount).1.Held
        (calls ++ (c.process fs fellOff userCount).2.2) ∧
      ∃ sys n, (c.process fs fellOff userCount).2.2 = sys ++ [.modfd n .epollout]) := by
  have houtcome := processRead_outcome fs fellOff c
  cases hread : c.processRead fs fellOff with
  | mk code rest =>
      obtain ⟨mid, sys⟩ := rest
      rw [hread] at houtcome
      obtain ⟨hsockfd, hwriteIdx, hfile⟩ := houtcome
      dsimp only at hsockfd hwriteIdx hfile
      have hkept := processWrite_file_kept mid code
      cases hanswer : c.fileAnswer fs fellOff with
      | none =>
          -- no file: nothing is mapped
          rw [hanswer] at hfile
          obtain ⟨haddress, rfl⟩ := hfile
          left
          rcases process_cases hread userCount with ⟨-, heq⟩ | ⟨-, -, heq⟩ | ⟨-, -, hconn, hcalls⟩
          · rw [heq]
            exact hfree.congr haddress (by simp [mappingLog_append])
          · rw [heq]
            exact hfree.congr (hkept.1.trans haddress) (by simp [mappingLog_append])
          · rw [hconn, hcalls]
            exact hfree.congr (hkept.1.trans haddress) (by simp [mappingLog_append])
      | some answer =>
          rw [hanswer] at hfile
          obtain ⟨st, hstat, rfl, hstatus, haddress, rfl⟩ := hfile
          obtain ⟨addr, hmmap⟩ := hmaps answer hanswer st hstat
          rw [hmmap] at haddress hread
          obtain ⟨hok, hwritten⟩ := processWrite_file_written (hwriteIdx.trans hempty)
          right
          rcases process_cases hread userCount with ⟨hcode, -⟩ | ⟨-, -, heq⟩ | ⟨-, hfailed, -⟩
          · cases hcode
          · rw [heq]
            have hlog : mappingLog (calls ++ ((FileAddress.mapped addr).mmapCall st.size ++
                [.modfd mid.sockfd .epollout])) =
                  mappingLog calls ++ [.acquire (.mapped addr, st.size)] := by
              simp only [mappingLog_append, mappingLog_modfd, List.append_nil]
              rfl
            refine ⟨⟨?_, ?_, ?_, hwritten, ?_⟩, _, _, rfl⟩
            · rw [hkept.1, haddress]
              exact nofun
            · rw [hkept.1, hkept.2.1, haddress, hstatus, hlog, live_concat, hfree.live]
              rfl
            · rw [hlog]
              exact proper_concat hfree.proper nofun
            · rw [hkept.2.2, hsockfd]
              exact hlive
          · rw [hok] at hfailed
            cases hfailed

/-- A call of `write` on a slot that holds no mapping. -/
theorem Free.write {mem : Nat → Byte} {c : HttpConn} {calls : List SysCall}
    {outcomes : List WritevOutcome} {r : WriteResult} (h : c.Free calls)
    (hwrite : c.write mem outcomes = some r) : r.conn.Free (calls ++ r.calls) := by
  have hunmap := h.unmap
  rcases write_cases hwrite with ⟨-, -, hconn, hcalls⟩ | ⟨-, ⟨-, hconn, hcalls⟩ |
    ⟨-, hconn, hcalls⟩ | ⟨-, hconn, hcalls⟩ | ⟨-, hconn, hcalls⟩⟩ <;> rw [hconn, hcalls]
  · exact h.congr rfl (by simp [mappingLog_append])
  · exact h.congr rfl (by simp [mappingLog_append])
  · exact hunmap
  · exact hunmap.congr rfl (by simp [mappingLog_append])
  · exact hunmap.congr rfl (by simp [mappingLog_append])

/-- A call of `write` on a slot that holds one: it is to be called again, or
has freed it. -/
theorem Held.write {mem : Nat → Byte} {c : HttpConn} {calls : List SysCall}
    {outcomes : List WritevOutcome} {r : WriteResult} (h : c.Held calls)
    (hwrite : c.write mem outcomes = some r) :
    r.conn.Free (calls ++ r.calls) ∨
      (r.conn.Held (calls ++ r.calls) ∧ r.ret = true ∧
        r.calls = [.modfd c.sockfd .epollout]) := by
  have hunmap := h.unmap
  rcases write_cases hwrite with ⟨hempty, -⟩ | ⟨-, ⟨hret, hconn, hcalls⟩ |
    ⟨-, hconn, hcalls⟩ | ⟨-, hconn, hcalls⟩ | ⟨-, hconn, hcalls⟩⟩
  · exact absurd hempty h.written
  · right
    have hlog : mappingLog (calls ++ [.modfd c.sockfd .epollout]) = mappingLog calls := by
      simp [mappingLog_append]
    rw [hconn, hcalls]
    exact ⟨⟨h.mapped, hlog ▸ h.live, hlog ▸ h.proper, h.written, h.open_⟩, hret, rfl⟩
  · left
    rw [hconn, hcalls]
    exact hunmap
  · left
    rw [hconn, hcalls]
    exact hunmap.congr rfl (by simp [mappingLog_append])
  · left
    rw [hconn, hcalls]
    exact hunmap.congr rfl (by simp [mappingLog_append])

end HttpConn

variable {ι : Type u}

/-- The mappings of a slot over its life: it holds one only while the response
for it is to be written. -/
structure OwnsMapping (fd : Nat) (a : Slot ι) : Prop where
  emptied : Emptied fd a
  held : a.conn.Free a.calls ∨
    (a.conn.Held a.calls ∧ (a.direction = some .epollout ∨ a.phase = .reported .hangup))

/-- The steps that keep the mappings owned: every file can be mapped, and no
client hangs up while its file is. -/
def Slot.Keeps (a : Slot ι) : SlotLabel → Prop
  | .process fs fellOff => a.conn.MapsFile fs fellOff
  | .hangup => a.conn.fileAddress = .null
  | _ => True

section Slots

variable {fd : Nat} {a b : Slot ι} {label : SlotLabel}

/-- A slot that is not to write a response holds nothing. -/
theorem OwnsMapping.free (h : OwnsMapping fd a) (hdirection : a.direction ≠ some .epollout)
    (hphase : a.phase ≠ .reported .hangup) : a.conn.Free a.calls := by
  rcases h.held with hfree | ⟨-, hwrites | hhangup⟩
  · exact hfree
  · exact absurd hwrites hdirection
  · exact absurd hhangup hphase

/-- A slot goes on writing, or holds nothing. -/
theorem OwnsMapping.advance (h : OwnsMapping fd a) (hemptied : Emptied fd b)
    (hconn : b.conn = a.conn) (hcalls : b.calls = a.calls)
    (hphase : a.phase ≠ .reported .hangup)
    (hwrites : a.conn.Held a.calls → a.direction = some .epollout →
      b.direction = some .epollout ∨ b.phase = .reported .hangup) : OwnsMapping fd b := by
  refine ⟨hemptied, ?_⟩
  rw [hconn, hcalls]
  rcases h.held with hfree | ⟨hheld, hdirection | hhangup⟩
  · exact Or.inl hfree
  · exact Or.inr ⟨hheld, hwrites hheld hdirection⟩
  · exact absurd hhangup hphase

/-- Every step that `Keeps` allows keeps the mappings owned. -/
theorem SlotStep.ownsMapping (hstep : SlotStep fd a label b) (h : OwnsMapping fd a)
    (hkeeps : a.Keeps label) : OwnsMapping fd b := by
  have hemptied := SlotStep.emptied hstep h.emptied
  have hcoherent := h.emptied.coherent
  cases hstep with
  | accept hphase | refuse hphase | showError hphase | allow hphase | addfd hphase
  | initialise hphase | startRead hphase | append hphase | drop hphase | pop hphase =>
      have hfree := h.free (by simp [Slot.direction, hphase]) (by simp [hphase])
      exact ⟨hemptied, Or.inl (hfree.congr rfl rfl)⟩
  | @report kind ev hphase hentry hfits =>
      refine h.advance hemptied rfl rfl (by simp [hphase]) fun _ hwrites => ?_
      have harmed : a.direction = some ev := by
        simp [Slot.direction, hphase, hentry, armedFor]
      rw [harmed, Option.some.injEq] at hwrites
      subst hwrites
      cases kind with
      | hangup => exact Or.inr rfl
      | input => cases hfits
      | output => exact Or.inl rfl
  | hangup hphase =>
      refine ⟨hemptied, Or.inl ?_⟩
      rcases h.held with hfree | ⟨hheld, -⟩
      · exact hfree
      · exact absurd hkeeps hheld.mapped
  | startWrite hphase =>
      exact h.advance hemptied rfl rfl (by simp [hphase]) fun _ _ => Or.inl rfl
  | @read outcomes ok after hphase hread hbad =>
      have hfree := h.free (by simp [Slot.direction, hphase]) (by simp [hphase])
      obtain ⟨data, rfl⟩ := HttpConn.read_recv hread
      exact ⟨hemptied, Or.inl (hfree.congr rfl rfl)⟩
  | @process w fs fellOff userCount hphase =>
      have hfree := h.free (by simp [Slot.direction, hphase]) (by simp [hphase])
      have hlive := h.emptied.live (by rw [hphase]; trivial)
      have hempty := (h.emptied.empty (by simp [Slot.direction, hphase])).resolve_left hlive
      refine ⟨hemptied, ?_⟩
      rcases HttpConn.process_mappings hfree hempty hlive hkeeps userCount with
        hfree' | ⟨hheld, sys, n, hcalls⟩
      · exact Or.inl hfree'
      · refine Or.inr ⟨hheld, Or.inl ?_⟩
        simp [Slot.direction, hcalls]
  | rearm hphase =>
      refine h.advance hemptied rfl rfl (by simp [hphase]) fun hheld hwrites => Or.inl ?_
      have hentry := hcoherent.toSteady.has_entry (by rw [hphase]; exact id)
      have hown := (hcoherent.own hentry).resolve_right hheld.open_
      obtain ⟨ev, hbefore, hafter⟩ := hcoherent.rearmed hphase
      rw [if_pos ⟨hown, hentry⟩] at hafter
      exact hafter.trans (hbefore.symm.trans hwrites)
  | @write outcomes mem r hphase hwrite hbad =>
      refine ⟨hemptied, ?_⟩
      rcases h.held with hfree | ⟨hheld, -⟩
      · exact Or.inl (hfree.write hwrite)
      · rcases hheld.write hwrite with hfree | ⟨hagain, hret, hcalls⟩
        · exact Or.inl hfree
        · refine Or.inr ⟨hagain, Or.inl ?_⟩
          have hentry := hcoherent.toSteady.has_entry (by rw [hphase]; exact id)
          have hown := (hcoherent.own hentry).resolve_right hheld.open_
          have hafter := hcoherent.resumed hphase
          rw [if_pos ⟨hown, hentry⟩, ← hcalls] at hafter
          rw [← hafter, hret]
          rfl
  | @wrote ret hphase =>
      cases ret with
      | true =>
          have harmed : a.direction = armedFor a.entry := by simp [Slot.direction, hphase]
          exact h.advance hemptied rfl rfl (by simp [hphase]) fun _ hwrites =>
            Or.inl (harmed.symm.trans hwrites)
      | false =>
          have hfree := h.free (by simp [Slot.direction, hphase]) (by simp [hphase])
          exact ⟨hemptied, Or.inl (hfree.congr rfl rfl)⟩
  | close userCount hphase =>
      have hfree := h.free (by simp [Slot.direction, hphase]) (by simp [hphase])
      refine ⟨hemptied, Or.inl (hfree.congr ?_ rfl)⟩
      rw [HttpConn.closeConn_fst]
      rfl

theorem SlotStarts.ownsMapping (h : SlotStarts fd a) : OwnsMapping fd a where
  emptied := SlotStarts.emptied h
  held := by
    refine Or.inl ⟨h.fileAddress, ?_, ?_⟩
    · rw [h.calls]
      rfl
    · rw [h.calls]
      exact proper_nil

/-- In a run whose steps `Keeps` allows the mappings are owned. -/
theorem slot_ownsMapping {history : List (Slot ι × SlotLabel)}
    (hrun : (slotSystem ι fd).Run history a)
    (hkeeps : ∀ entry ∈ history, entry.1.Keeps entry.2) : OwnsMapping fd a := by
  refine hrun.invariant Slot.Keeps ?_ ?_ hkeeps
  · exact fun _ hstart => SlotStarts.ownsMapping hstart
  · exact fun _ _ _ hbefore hallowed hstep => SlotStep.ownsMapping hstep hbefore hallowed

end Slots

/-- What `m_file_address` names is mapped, every `munmap` names something that
is, and a closed slot has nothing mapped. -/
structure MappingsOwned (s : Server ι) (fd : Nat) : Prop where
  address : (s.users fd).fileAddress = .null ∨
    ((s.users fd).fileAddress, (s.users fd).fileStat.size) ∈ live (mappingLog (s.calls fd))
  munmaps : Proper (mappingLog (s.calls fd))
  closed : (s.users fd).sockfd = -1 → live (mappingLog (s.calls fd)) = []

/-- What a step must meet to keep the mappings of a slot owned: if it is
`process`, the file can be mapped, and if it handles a hang-up, nothing is. -/
def KeepsMappings (fd : Nat) (s : Server ι) : Label ι → Prop
  | .process w fs fellOff => (s.workers w).at = some (fd, .processing) →
      (s.users fd).MapsFile fs fellOff
  | .hangup => (∃ events, s.main = .loop (.client fd .hangup :: events)) →
      (s.users fd).fileAddress = .null
  | _ => True

theorem Origin.keeps {fd : Nat} {origin : Server ι × Label ι} {entry : Slot ι × SlotLabel}
    (h : Origin fd origin entry) (hkeeps : KeepsMappings fd origin.1 origin.2) :
    entry.1.Keeps entry.2 := by
  obtain ⟨hconn, hlabel⟩ := h
  cases hentry : entry.2 with
  | process fs fellOff =>
      rw [hentry] at hlabel
      obtain ⟨w, hprocess, hat⟩ := hlabel
      rw [hprocess] at hkeeps
      rw [Slot.Keeps, hconn]
      exact hkeeps hat
  | hangup =>
      rw [hentry] at hlabel
      obtain ⟨hhangup, hmain⟩ := hlabel
      rw [hhangup] at hkeeps
      rw [Slot.Keeps, hconn]
      exact hkeeps hmain
  | _ => trivial

theorem LoadStep.keepsMappings {s : Server ι} {label : Label ι} (h : LoadStep s label)
    (fd : Nat) : KeepsMappings fd s label := by
  cases label with
  | hangup | process => exact h.elim
  | _ => trivial

variable [DecidableEq ι]

/-- In a run whose stores lie inside, in which every file can be mapped and no
client hangs up while its file is, the mappings of a slot are owned. -/
theorem mappings_owned {history : List (Server ι × Label ι)} {s : Server ι}
    (hrun : (server ι).Run history s)
    (hinside : ∀ entry ∈ history, StoresInside entry.1 entry.2) (fd : Nat)
    (hkeeps : ∀ entry ∈ history, KeepsMappings fd entry.1 entry.2) : MappingsOwned s fd := by
  obtain ⟨phase, -, hslots⟩ := run_phased (run_unhit hrun hinside)
  obtain ⟨slotHistory, hslotRun, horigin⟩ := hslots fd
  have howns := slot_ownsMapping hslotRun (by
    intro entry hentry
    obtain ⟨origin, hmem, hfrom⟩ := horigin entry hentry
    exact hfrom.keeps (hkeeps origin hmem))
  rcases howns.held with hfree | ⟨hheld, -⟩
  · exact ⟨Or.inl hfree.address, hfree.proper, fun _ => hfree.live⟩
  · refine ⟨Or.inr ?_, hheld.proper, fun hclosed => absurd hclosed hheld.open_⟩
    have hlive : live (mappingLog (s.calls fd)) =
        [((s.users fd).fileAddress, (s.users fd).fileStat.size)] := hheld.live
    rw [hlive]
    exact List.mem_cons_self

section Served

variable {answer : FsAnswer} {st : FileStat}

/-- `process` on a request for "/", when the file can be read. -/
theorem root_process (hstat : answer.stat = some st) (hworld : st.worldReadable = true)
    (hdir : st.isDir = false) (userCount : Int) :
    ∃ conn : HttpConn, conn.fileAddress = answer.mmap st.size ∧ conn.sockfd = 5 ∧
      (HttpConn.recvBytes (rootRequest ++ CR :: LF :: [CR, LF]) (freshConn (clientFd 0))).process
          (fun _ => answer) none userCount =
        (conn, userCount, (answer.mmap st.size).mmapCall st.size ++ [.modfd 5 .epollout]) := by
  have hfresh : freshConn (clientFd 0) = (HttpConn.idle.initConn 5 0).1 := rfl
  obtain ⟨mid, hwritten, hsockfd, -, hread⟩ := HttpConn.root_processRead fun _ => answer
  rw [HttpConn.doRequest_file rfl hstat hworld hdir] at hread
  generalize hfile : (mid.buildPath.setStat st).setAddress (answer.mmap st.size) = file at hread
  have haddress : file.fileAddress = answer.mmap st.size := by rw [← hfile]; rfl
  have hempty : file.writeIdx = 0 := by
    rw [← hfile]
    exact hwritten.writeIdx_eq
  have hsock : file.sockfd = 5 := by
    rw [← hfile]
    exact hsockfd
  have hqueued := HttpConn.process_queued userCount hread nofun
    (HttpConn.processWrite_file_written hempty).1
  rw [hsock] at hqueued
  rw [hfresh]
  exact ⟨_, (HttpConn.processWrite_file_kept file _).1.trans haddress,
    (HttpConn.processWrite_sockfd file _).trans hsock, hqueued⟩

/-- It gets as far as the `open`. -/
theorem root_fileAnswer (hstat : answer.stat = some st) (hworld : st.worldReadable = true)
    (hdir : st.isDir = false) :
    (HttpConn.recvBytes (rootRequest ++ CR :: LF :: [CR, LF])
      (freshConn (clientFd 0))).fileAnswer (fun _ => answer) none = some answer := by
  have hfresh : freshConn (clientFd 0) = (HttpConn.idle.initConn 5 0).1 := rfl
  obtain ⟨mid, -, -, -, hread⟩ := HttpConn.root_processRead fun _ => answer
  rw [HttpConn.doRequest_file rfl hstat hworld hdir] at hread
  have houtcome := HttpConn.processRead_outcome (fun _ => answer) none
    (HttpConn.recvBytes (rootRequest ++ CR :: LF :: [CR, LF]) (HttpConn.idle.initConn 5 0).1)
  rw [hread] at houtcome
  have hfile := houtcome.file
  rw [hfresh]
  cases hanswer : (HttpConn.recvBytes (rootRequest ++ CR :: LF :: [CR, LF])
      (HttpConn.idle.initConn 5 0).1).fileAnswer (fun _ => answer) none with
  | none =>
      rw [hanswer] at hfile
      exact absurd hfile.1 (answer.mmap_ne_null st.size)
  | some other =>
      obtain ⟨_, rfl⟩ := HttpConn.fileAnswer_path hanswer
      rfl

/-- It has no body. -/
theorem root_strayStores (fellOff : Option HttpCode) :
    (HttpConn.recvBytes (rootRequest ++ CR :: LF :: [CR, LF])
      (freshConn (clientFd 0))).strayStores fellOff = [] := by
  have hfresh : freshConn (clientFd 0) = (HttpConn.idle.setSockfd 5).init := rfl
  rw [← HttpConn.root_bytes, hfresh]
  exact HttpConn.strayStores_of_head _ HttpConn.root_isHead (by decide) (by decide)

end Served

/-- A worker has served that request. -/
structure RootServed (history : List (Server ι × Label ι)) (s : Server ι) (w : ι)
    (answer : FsAnswer) (st : FileStat) : Prop where
  run : (server ι).Run history s
  inside : ∀ entry ∈ history, StoresInside entry.1 entry.2
  keeps : ∀ addr, answer.mmap st.size = .mapped addr →
    ∀ entry ∈ history, KeepsMappings (clientFd 0) entry.1 entry.2
  main : s.main = .waiting
  worker : s.workers w =
    .rearming (clientFd 0) ((answer.mmap st.size).mmapCall st.size ++ [.modfd 5 .epollout])
  entry : s.epoll (clientFd 0) = some .disarmed
  sockfd : (s.users (clientFd 0)).sockfd = 5
  fileAddress : (s.users (clientFd 0)).fileAddress = answer.mmap st.size
  log : mappingLog (s.calls (clientFd 0)) = mappingLog ((answer.mmap st.size).mmapCall st.size)

theorem exists_rootServed (w : ι) (answer : FsAnswer) {st : FileStat}
    (hstat : answer.stat = some st) (hworld : st.worldReadable = true) (hdir : st.isDir = false) (hopens : answer.opens = true) :
    ∃ history, ∃ s : Server ι, RootServed history s w answer st := by
  obtain ⟨history, s, h⟩ := exists_processing w (rootRequest ++ CR :: LF :: [CR, LF])
    (List.cons_ne_nil _ _) HttpConn.root_fits
  obtain ⟨conn, haddress, hsockfd, hprocess⟩ := root_process hstat hworld hdir s.userCount
  have hanswer : (s.users (clientFd 0)).fileAnswer (fun _ => answer) none = some answer := by
    rw [h.conn]
    exact root_fileAnswer hstat hworld hdir
  have hopen := (run_server h.run).snoc
    (Step.server (.openFile h.worker hanswer hopens h.lowest) trivial)
  have hinside : StoresInside
      { s with workers := update s.workers w (.mapping (clientFd 0) (fun _ => answer) none
                 (clientFd 1))
               fds := update s.fds (clientFd 1) (some (.file w)) }
      (.process w (fun _ => answer) none) := by
    intro fd hfd
    dsimp only at hfd
    rw [update_self, WorkerPc.slot, Option.some.injEq] at hfd
    rw [← hfd, h.conn]
    exact root_strayStores none
  have hserve := hopen.snoc (Step.server (.processFile (update_self ..)) hinside)
  simp only [List.append_assoc] at hserve
  refine ⟨_, _, hserve, ?_, ?_, h.main, ?_, h.entry, ?_, ?_, ?_⟩
  · intro entry hentry
    simp only [List.mem_append, List.mem_singleton] at hentry
    rcases hentry with hold | rfl | rfl
    · exact (h.steps entry hold).inside
    · trivial
    · exact hinside
  · intro addr hmmap entry hentry
    simp only [List.mem_append, List.mem_singleton] at hentry
    rcases hentry with hold | rfl | rfl
    · exact (h.steps entry hold).keepsMappings _
    · trivial
    · rintro - other hother st' hstat'
      obtain ⟨_, rfl⟩ := HttpConn.fileAnswer_path hother
      rw [hstat, Option.mem_some_iff] at hstat'
      exact ⟨addr, hstat' ▸ hmmap⟩
  · dsimp only
    rw [update_self, h.conn, hprocess]
  · dsimp only
    rw [update_self, h.conn, hprocess]
    exact hsockfd
  · dsimp only
    rw [update_self, h.conn, hprocess]
    exact haddress
  · dsimp only
    rw [update_self, h.conn, hprocess, h.calls]
    simp [mappingLog_append]

/-- A file of five bytes. -/
def fiveBytes : FsAnswer := ⟨some ⟨0o100644, 5⟩, true, some 4096⟩

/-- It is mapped for "/", and owned. -/
theorem mappings_owned_root :
    ∃ history, ∃ s : Server (Fin 8), (server (Fin 8)).Run history s ∧
      (∀ entry ∈ history, KeepsMappings (clientFd 0) entry.1 entry.2) ∧
      (s.users (clientFd 0)).fileAddress = .mapped 4096 ∧ MappingsOwned s (clientFd 0) := by
  obtain ⟨history, s, h⟩ := exists_rootServed (0 : Fin 8) fiveBytes rfl (by decide) (by decide) rfl
  have hkeeps := h.keeps 4096 rfl
  exact ⟨_, s, h.run, hkeeps, h.fileAddress, mappings_owned h.run h.inside (clientFd 0) hkeeps⟩

/-- An empty file leaves MAP_FAILED in the slot. -/
theorem mapping_failed :
    ¬ ∀ s : Server (Fin 8), (server (Fin 8)).Reachable s → ∀ fd, MappingsOwned s fd := by
  intro hall
  obtain ⟨history, s, h⟩ := exists_rootServed (0 : Fin 8) ⟨some ⟨0o100644, 0⟩, true, none⟩ rfl
    (by decide) (by decide) rfl
  have hfailed : (s.users (clientFd 0)).fileAddress = .mapFailed := h.fileAddress
  rcases (hall s ⟨_, h.run⟩ (clientFd 0)).address with hnull | hlive
  · rw [hfailed] at hnull
    cases hnull
  · rw [h.log] at hlive
    exact List.not_mem_nil hlive

end LinuxLearning.Webserver
