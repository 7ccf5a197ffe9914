/-
Requests whose body ends outside of `m_read_buf`.  `parse_content` stores its
NUL there, and what it hits can be the descriptor of a slot: from then on the
slot speaks for another one.
-/
import LinuxLearning.Webserver.Body
import LinuxLearning.Webserver.Load

namespace LinuxLearning.Webserver

universe u

open Function CString

namespace HttpConn

variable {fellOff : Option HttpCode}

section Body

variable {request blank : List Byte} {headers : List (List Byte)} {body : List Byte}

/-- A request without a body leaves every store inside. -/
theorem strayStores_of_head (c : HttpConn) (h : IsHead request headers blank)
    (hfit : (headBytes request headers blank ++ body).length ≤ READ_BUFFER_SIZE)
    (hlength : (fieldsOf headers).contenLength = 0) :
    (recvBytes (headBytes request headers blank ++ body) c.init).strayStores fellOff = [] := by
  obtain ⟨mid, htracks, -, hread⟩ := readRequest_head fellOff c h hfit
  rw [if_pos hlength] at hread
  refine List.filter_eq_nil_iff.mpr fun i hi => ?_
  rw [hread] at hi
  obtain ⟨hlow, hhigh⟩ := htracks.consumed.stored i (List.drop_subset _ _ hi)
  have hhead := htracks.lengths.1
  rw [List.length_append, headBytes] at hfit
  have hlt : i < READ_BUFFER_SIZE := by omega
  simp [hlow, hlt]

/-- A body that `parse_content` takes for complete, and that ends outside. -/
structure EndsOutside (request : List Byte) (headers : List (List Byte)) (blank body : List Byte)
    (i : Int) : Prop where
  isHead : IsHead request headers blank
  fits : (headBytes request headers blank ++ body).length ≤ READ_BUFFER_SIZE
  length : (fieldsOf headers).contenLength ≠ 0
  complete : toInt32 ((fieldsOf headers).contenLength + (headBytes request headers blank).length) ≤
    (headBytes request headers blank ++ body).length
  index : (headBytes request headers blank).length + (fieldsOf headers).contenLength = i
  outside : ¬ (0 ≤ i ∧ i < READ_BUFFER_SIZE)

/-- It is read as a whole request, with that one store outside. -/
theorem EndsOutside.readRequest {i : Int} (h : EndsOutside request headers blank body i)
    (fellOff : Option HttpCode) (c : HttpConn) :
    let received := recvBytes (headBytes request headers blank ++ body) c.init
    received.strayStores fellOff = [i] ∧
      ∃ mid, received.readRequest fellOff = (mid, .doRequest) := by
  obtain ⟨mid, hstored, -, hshot⟩ := readRequest_body fellOff c h.isHead h.fits h.length
  rw [if_pos h.complete, h.index, oneShot] at hshot
  refine ⟨?_, _, hshot⟩
  have hinside : mid.stores.filter (fun i => !decide (0 ≤ i ∧ i < (READ_BUFFER_SIZE : Int))) =
      [] := by
    refine List.filter_eq_nil_iff.mpr fun i hi => ?_
    obtain ⟨hlow, hhigh⟩ := hstored i hi
    have hfits := h.fits
    rw [List.length_append] at hfits
    have hlt : i < READ_BUFFER_SIZE := by omega
    simp [hlow, hlt]
  rw [strayStores, hshot]
  change ((mid.stores ++ [i]).drop 0).filter _ = [i]
  rw [List.drop_zero, List.filter_append, hinside, List.filter_singleton, List.nil_append]
  simp [h.outside]

end Body

/-- A file system without the file. -/
def missing : List Byte → FsAnswer := fun _ => ⟨none, false, none⟩

theorem fileAnswer_missing (c : HttpConn) : c.fileAnswer missing fellOff = none := by
  unfold fileAnswer
  split <;> rfl

section Missing

variable {c mid : HttpConn}

theorem processRead_missing (hread : c.readRequest fellOff = (mid, .doRequest)) :
    c.processRead missing fellOff = (.noResource, mid.buildPath, []) := by
  rw [processRead, hread, answerRequest, doRequest_noResource rfl rfl]

theorem buildPath_written (hread : c.readRequest fellOff = (mid, .doRequest))
    (hempty : c.writeIdx = 0) : mid.buildPath.Written [] := by
  have houtput := readRequest_output fellOff c
  rw [hread] at houtput
  exact written_nil ((congrArg Output.writeIdx houtput).trans hempty)

/-- `process` on a whole request for a file that is not there: it makes no
mapping, queues a response, and arms the descriptor the slot names. -/
theorem process_missing (hread : c.readRequest fellOff = (mid, .doRequest))
    (hempty : c.writeIdx = 0) (userCount : Int) :
    ∃ conn : HttpConn, conn.sockfd = c.sockfd ∧ conn.fileAddress = c.fileAddress ∧
      conn.fileStat = c.fileStat ∧ conn.writeIdx ≠ 0 ∧
      c.process missing fellOff userCount = (conn, userCount, [.modfd c.sockfd .epollout]) := by
  have houtput := readRequest_output fellOff c
  rw [hread] at houtput
  obtain ⟨hok, hqueued⟩ := processWrite_noResource (buildPath_written hread hempty)
  obtain ⟨haddress, hstat, hsame⟩ := processWrite_file_kept mid.buildPath .noResource
  have hsockfd : mid.buildPath.sockfd = c.sockfd := congrArg Output.sockfd houtput
  have hprocess := process_queued userCount (processRead_missing hread) nofun hok
  rw [hsockfd, List.nil_append] at hprocess
  refine ⟨_, hsame.trans hsockfd, haddress.trans (congrArg Output.fileAddress houtput),
    hstat.trans (congrArg Output.fileStat houtput), ?_, hprocess⟩
  have hpage := (startsOnce_responsePage mid.buildPath.linger).2.1.length_ne_zero
  rw [hqueued.written.writeIdx_eq, List.length_append]
  omega

end Missing

end HttpConn

/-- A store at the index of a byte of some `m_sockfd`. -/
theorem hit_sockfd (users : Nat → HttpConn) (wild : HttpConn) {fd n k : Nat} {i : Int}
    (hn : n < MAX_FD) (hk : k < 4)
    (hi : (fd : Int) * CONN_SIZE + READ_BUF_OFFSET + i = (n * CONN_SIZE + k : Nat)) :
    hit users fd i wild =
      update users n ((users n).setSockfd (clearByte 32 (users n).sockfd k).toInt) := by
  have hslot : (n * CONN_SIZE + k) / CONN_SIZE = n := by
    change (n * 3544 + k) / 3544 = n
    omega
  have hbyte : (n * CONN_SIZE + k) % CONN_SIZE = k := by
    change (n * 3544 + k) % 3544 = k
    omega
  have hrange : (0 : Int) ≤ (n * CONN_SIZE + k : Nat) ∧
      ((n * CONN_SIZE + k : Nat) : Int) < MAX_FD * CONN_SIZE := by
    change n < 65536 at hn
    change (0 : Int) ≤ (n * 3544 + k : Nat) ∧
      ((n * 3544 + k : Nat) : Int) < (65536 : Nat) * (3544 : Nat)
    omega
  simp only [hit, hi, if_pos hrange, Int.toNat_natCast, hslot, hbyte, HttpConn.clearByte, if_pos hk]
  rfl

variable {ι : Type u} [DecidableEq ι] {history : List (Server ι × Label ι)} {s : Server ι}
  {w : ι} {fd : Nat} {request blank : List Byte} {headers : List (List Byte)} {body : List Byte}
  {i : Int}

/-- A worker processes such a request: with the slots as the store leaves
them, it arms the descriptor its slot names. -/
theorem run_stray (hrun : (closedServer ι).Run history s) (hworker : s.workers w = .processing fd)
    (c : HttpConn)
    (hconn : s.users fd = HttpConn.recvBytes (headBytes request headers blank ++ body) c.init)
    (h : HttpConn.EndsOutside request headers blank body i) {users : Nat → HttpConn}
    (husers : hit s.users fd i c = users) (sockfd : Int)
    (hslot : users fd =
      HttpConn.recvBytes (headBytes request headers blank ++ body) (c.setSockfd sockfd).init) :
    ∃ (conn : HttpConn) (tail : List (Server ι × Label ι)), conn.sockfd = sockfd ∧
      (closedServer ι).Run (history ++ tail)
        { s with users := update users fd conn
                 workers := update s.workers w (.rearming fd [.modfd sockfd .epollout])
                 calls := update s.calls fd (s.calls fd ++ [.modfd sockfd .epollout]) } := by
  obtain ⟨hstray, -⟩ := h.readRequest none c
  obtain ⟨-, mid, hread⟩ := h.readRequest none (c.setSockfd sockfd)
  rw [← hslot] at hread
  obtain ⟨conn, hsockfd, -, -, -, hprocess⟩ :=
    HttpConn.process_missing hread (by rw [hslot]; rfl) s.userCount
  have hnamed : (users fd).sockfd = sockfd := by rw [hslot]; rfl
  refine ⟨conn, [(s, .process w HttpConn.missing none)], hsockfd.trans hnamed,
    hrun.snoc ⟨users, .process (by rw [hworker]; rfl : _ = some fd) ?_, ?_⟩⟩
  · rw [hconn, hstray]
    exact .one c (husers ▸ .none)
  · have hanswer : ∀ answer ∈ (users fd).fileAnswer HttpConn.missing none,
        answer.opens = false := by
      rw [HttpConn.fileAnswer_missing]
      exact nofun
    have hstep := Step.process (s := { s with users := users }) hworker hanswer
    simp only [hprocess, hnamed] at hstep
    exact hstep

end LinuxLearning.Webserver
