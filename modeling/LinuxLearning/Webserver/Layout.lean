/-
Where the members of `http_conn` lie, and what a store through `m_read_buf`
hits when it leaves the array.  `users` is one block of MAX_FD objects; the
offsets are those of x86-64.
-/
import LinuxLearning.Webserver.DoRequest
import Mathlib.Logic.Function.Basic

namespace LinuxLearning.Webserver

open Function

/-- The number of slots in `users`. -/
def MAX_FD : Nat := 65536

/-- `sizeof(http_conn)` -/
def CONN_SIZE : Nat := 3544

/-- `offsetof(http_conn, m_read_buf)` -/
def READ_BUF_OFFSET : Nat := 20

/-- An integer with its byte `k` set to zero. -/
def clearByte (width : Nat) (v : Int) (k : Nat) : BitVec width :=
  BitVec.ofInt width v &&& ~~~(BitVec.ofNat width 0xFF <<< (8 * k))

/-- `m_file_address` with its byte `k` set to zero; MAP_FAILED is -1. -/
def FileAddress.clearByte (address : FileAddress) (k : Nat) : FileAddress :=
  let addr := match address with
    | .null => 0
    | .mapFailed => (Webserver.clearByte 64 (-1) k).toNat
    | .mapped addr => (Webserver.clearByte 64 addr k).toNat
  if addr = 0 then .null else .mapped addr

/-- `m_file_stat` with its byte `k` set to zero: `st_mode` is at 24 and
`st_size` at 48. -/
def FileStat.clearByte (st : FileStat) (k : Nat) : FileStat :=
  if 24 ≤ k ∧ k < 28 then { st with mode := (Webserver.clearByte 32 st.mode (k - 24)).toNat }
  else if 48 ≤ k ∧ k < 56 then { st with size := (Webserver.clearByte 64 st.size (k - 48)).toNat }
  else st

namespace HttpConn

/-- The object with its byte `k` set to zero.  A pointer that loses a byte can
point anywhere, and `wild` says where; a null pointer stays null. -/
def clearByte (c : HttpConn) (k : Nat) (wild : HttpConn) : HttpConn :=
  if k < 4 then { c with sockfd := (Webserver.clearByte 32 c.sockfd k).toInt }
  else if k < 20 then c -- m_address
  else if k < 2068 then { c with readBuf := c.readBuf.poke (k - 20) 0 }
  else if k < 3092 then { c with writeBuf := c.writeBuf.poke (k - 2068) 0 }
  else if k < 3096 then { c with readIdx := (Webserver.clearByte 32 c.readIdx (k - 3092)).toNat }
  else if k < 3100 then
    { c with checkedIdx := (Webserver.clearByte 32 c.checkedIdx (k - 3096)).toNat }
  else if k < 3104 then
    { c with startLine := (Webserver.clearByte 32 c.startLine (k - 3100)).toNat }
  else if k < 3108 then { c with writeIdx := (Webserver.clearByte 32 c.writeIdx (k - 3104)).toNat }
  -- an enumeration has all of its value in its first byte
  else if k = 3108 then { c with checkState := .requestLine }
  else if k < 3112 then c
  else if k = 3112 then { c with method := .get }
  else if k < 3116 then c
  else if k < 3316 then { c with realFile := c.realFile.poke (k - 3116) 0 }
  else if k < 3320 then c -- padding
  else if k < 3328 then { c with url := c.url.bind fun _ => wild.url }
  else if k < 3336 then { c with host := c.host.bind fun _ => wild.host }
  else if k < 3344 then { c with version := c.version.bind fun _ => wild.version }
  else if k < 3348 then
    { c with contenLength := (Webserver.clearByte 32 c.contenLength (k - 3344)).toInt }
  else if k = 3348 then { c with linger := false }
  else if k < 3352 then c -- padding
  else if k < 3360 then { c with fileAddress := c.fileAddress.clearByte (k - 3352) }
  else if k < 3504 then { c with fileStat := c.fileStat.clearByte (k - 3360) }
  else if k < 3512 then { c with iv0 := { c.iv0 with base := wild.iv0.base } }
  else if k < 3520 then
    { c with iv0 := { c.iv0 with len := (Webserver.clearByte 64 c.iv0.len (k - 3512)).toNat } }
  else if k < 3528 then { c with iv1 := { c.iv1 with base := wild.iv1.base } }
  else if k < 3536 then
    { c with iv1 := { c.iv1 with len := (Webserver.clearByte 64 c.iv1.len (k - 3528)).toNat } }
  else if k < 3540 then { c with ivCount := (Webserver.clearByte 32 c.ivCount (k - 3536)).toNat }
  else c -- padding

/-- The indices of the stores of `process_read` that lie outside of
`m_read_buf`. -/
def strayStores (fellOff : Option HttpCode) (c : HttpConn) : List Int :=
  ((c.readRequest fellOff).1.stores.drop c.stores.length).filter fun i =>
    !decide (0 ≤ i ∧ i < READ_BUFFER_SIZE)

end HttpConn

/-- `m_read_buf[i] = '\0'` in the slot `fd`, for an index outside: it hits a
byte of that slot or of another one, or nothing of `users`. -/
def hit (users : Nat → HttpConn) (fd : Nat) (i : Int) (wild : HttpConn) : Nat → HttpConn :=
  let byte := (fd : Int) * CONN_SIZE + READ_BUF_OFFSET + i
  if 0 ≤ byte ∧ byte < MAX_FD * CONN_SIZE then
    let slot := byte.toNat / CONN_SIZE
    update users slot ((users slot).clearByte (byte.toNat % CONN_SIZE) wild)
  else users

/-- What the stores at these indices make of `users`. -/
inductive Hits (fd : Nat) : (Nat → HttpConn) → List Int → (Nat → HttpConn) → Prop
  | none {users : Nat → HttpConn} : Hits fd users [] users
  | one {users after : Nat → HttpConn} {i : Int} {later : List Int} (wild : HttpConn)
      (hlater : Hits fd (hit users fd i wild) later after) : Hits fd users (i :: later) after

theorem exists_hits (fd : Nat) (users : Nat → HttpConn) (stores : List Int) :
    ∃ after, Hits fd users stores after := by
  induction stores generalizing users with
  | nil => exact ⟨users, .none⟩
  | cons i later ih =>
      obtain ⟨after, hlater⟩ := ih (hit users fd i (users fd))
      exact ⟨after, .one _ hlater⟩

theorem Hits.eq_of_nil {fd : Nat} {users after : Nat → HttpConn} (h : Hits fd users [] after) :
    after = users := by
  cases h with
  | none => rfl

end LinuxLearning.Webserver
