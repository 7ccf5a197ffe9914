/-
The connection object of the web server (http_conn.h): its enumerations, its
fields, and the operations that set up, reset and close a slot.
-/
import LinuxLearning.Lib.CString

namespace LinuxLearning.Webserver

open CString

def FILENAME_LEN : Nat := 200
def READ_BUFFER_SIZE : Nat := 2048
def WRITE_BUFFER_SIZE : Nat := 1024

inductive Method where
  | get | post | head | put | delete | trace | options | connect | patch
deriving Repr, DecidableEq

inductive CheckState where
  | requestLine | header | content
deriving Repr, DecidableEq

inductive LineStatus where
  | lineOk | lineBad | lineOpen
deriving Repr, DecidableEq

inductive HttpCode where
  | noRequest | getRequest | badRequest | noResource | forbiddenRequest
  | fileRequest | internalError | closedConnection
deriving Repr, DecidableEq

/-- The interest a client descriptor is armed with; EPOLLET, EPOLLONESHOT and
EPOLLRDHUP are always set beside it. -/
inductive Interest where
  | epollin | epollout
deriving Repr, DecidableEq

/-- The values `m_file_address` can take: NULL, MAP_FAILED, or the address of
a mapping. -/
inductive FileAddress where
  | null
  | mapFailed
  | mapped (addr : Nat)
deriving Repr, DecidableEq

/-- What `do_request` and `process_write` read of a `struct stat`. -/
structure FileStat where
  mode : Nat
  size : Nat
deriving Repr, DecidableEq

/-- `st_mode & S_IROTH` -/
def FileStat.worldReadable (st : FileStat) : Bool := st.mode &&& 0o4 != 0

/-- `S_ISDIR(st_mode)` -/
def FileStat.isDir (st : FileStat) : Bool := st.mode &&& 0o170000 == 0o040000

inductive IovBase where
  | writeBuf
  | file (address : FileAddress)
deriving Repr, DecidableEq

structure Iovec where
  base : IovBase
  len : Nat
deriving Repr, DecidableEq

/-- `class http_conn`.  Pointers into `m_read_buf` are indices, `none` is the
null pointer.  `stores` is not a field of the class: it logs the index of
every store made through `m_read_buf` since `init`. -/
structure HttpConn where
  sockfd : Int
  readBuf : Buffer READ_BUFFER_SIZE
  writeBuf : Buffer WRITE_BUFFER_SIZE
  readIdx : Nat
  checkedIdx : Nat
  startLine : Nat
  writeIdx : Nat
  checkState : CheckState
  method : Method
  realFile : Buffer FILENAME_LEN
  url : Option Nat
  host : Option Nat
  version : Option Nat
  contenLength : Int
  linger : Bool
  fileAddress : FileAddress
  fileStat : FileStat
  iv0 : Iovec
  iv1 : Iovec
  ivCount : Nat
  stores : List Int

/-- The system calls of a connection that others can see: a change of its
epoll interest, a mapping made, a mapping removed. -/
inductive SysCall where
  | modfd (fd : Int) (ev : Interest)
  | mmap (addr len : Nat)
  | munmap (address : FileAddress) (len : Nat)
deriving Repr, DecidableEq

namespace HttpConn

/-- A slot that has not held a connection yet. -/
def idle : HttpConn where
  sockfd := -1
  readBuf := Buffer.zero READ_BUFFER_SIZE
  writeBuf := Buffer.zero WRITE_BUFFER_SIZE
  readIdx := 0
  checkedIdx := 0
  startLine := 0
  writeIdx := 0
  checkState := .requestLine
  method := .get
  realFile := Buffer.zero FILENAME_LEN
  url := none
  host := none
  version := none
  contenLength := 0
  linger := false
  fileAddress := .null
  fileStat := ⟨0, 0⟩
  iv0 := ⟨.writeBuf, 0⟩
  iv1 := ⟨.writeBuf, 0⟩
  ivCount := 0
  stores := []

/-- The C string at a pointer into `m_read_buf`. -/
def strAt (c : HttpConn) (p : Nat) : List Byte := cstr c.readBuf p

/-- `m_read_buf[i] = value` through a pointer.  A store outside the array is
only logged: `Hits` is what it does. -/
def store (c : HttpConn) (i : Int) (value : Byte) : HttpConn :=
  { c with
    readBuf := if 0 ≤ i then c.readBuf.poke i.toNat value else c.readBuf
    stores := c.stores ++ [i] }

/-- `m_checked_idx = k` -/
def moveTo (c : HttpConn) (k : Nat) : HttpConn := { c with checkedIdx := k }

/-- `m_method = value` -/
def setMethod (c : HttpConn) (value : Method) : HttpConn := { c with method := value }

/-- `m_url = p` -/
def setUrl (c : HttpConn) (p : Option Nat) : HttpConn := { c with url := p }

/-- `m_version = p` -/
def setVersion (c : HttpConn) (p : Option Nat) : HttpConn := { c with version := p }

/-- `http_conn::init` -/
def init (c : HttpConn) : HttpConn :=
  { c with
    checkState := .requestLine
    linger := true
    method := .get
    url := none
    version := none
    contenLength := 0
    host := none
    startLine := 0
    checkedIdx := 0
    readIdx := 0
    writeIdx := 0
    readBuf := Buffer.zero READ_BUFFER_SIZE
    writeBuf := Buffer.zero WRITE_BUFFER_SIZE
    realFile := Buffer.zero FILENAME_LEN
    stores := [] }

/-- `http_conn::close_conn()` together with the static `m_user_count`. -/
def closeConn (c : HttpConn) (userCount : Int) : HttpConn × Int :=
  if c.sockfd ≠ -1 then ({ c with sockfd := -1 }, userCount - 1)
  else (c, userCount)

/-- `m_sockfd = sockfd` -/
def setSockfd (c : HttpConn) (sockfd : Int) : HttpConn := { c with sockfd := sockfd }

/-- The part of `http_conn::init_conn` that touches the slot and
`m_user_count`; `addfd` is a step of the kernel. -/
def initConn (c : HttpConn) (sockfd : Int) (userCount : Int) : HttpConn × Int :=
  (init (c.setSockfd sockfd), userCount + 1)

/-- Bytes `recv` copies behind those already received. -/
def recvBytes (data : List Byte) (c : HttpConn) : HttpConn :=
  { c with
    readBuf := c.readBuf.blit c.readIdx data
    readIdx := c.readIdx + data.length }

theorem store_natCast (c : HttpConn) (i : Nat) (value : Byte) :
    c.store i value =
      { c with readBuf := c.readBuf.poke i value, stores := c.stores ++ [(i : Int)] } := by
  simp [store]

@[simp] theorem moveTo_checkedIdx (c : HttpConn) (k : Nat) :
    (c.moveTo k).checkedIdx = k := rfl

@[simp] theorem moveTo_readIdx (c : HttpConn) (k : Nat) :
    (c.moveTo k).readIdx = c.readIdx := rfl

@[simp] theorem moveTo_readBuf (c : HttpConn) (k : Nat) :
    (c.moveTo k).readBuf = c.readBuf := rfl

@[simp] theorem moveTo_moveTo (c : HttpConn) (k l : Nat) :
    (c.moveTo k).moveTo l = c.moveTo l := rfl

@[simp] theorem moveTo_self (c : HttpConn) : c.moveTo c.checkedIdx = c := rfl

@[simp] theorem strAt_setUrl (c : HttpConn) (p : Option Nat) (q : Nat) :
    (c.setUrl p).strAt q = c.strAt q := rfl

@[simp] theorem strAt_setVersion (c : HttpConn) (p : Option Nat) (q : Nat) :
    (c.setVersion p).strAt q = c.strAt q := rfl

@[simp] theorem readBuf_setMethod (c : HttpConn) (value : Method) :
    (c.setMethod value).readBuf = c.readBuf := rfl

@[simp] theorem readBuf_setUrl (c : HttpConn) (p : Option Nat) :
    (c.setUrl p).readBuf = c.readBuf := rfl

theorem setMethod_recv (data : List Byte) (c : HttpConn) (value : Method) :
    (recvBytes data c).setMethod value = recvBytes data (c.setMethod value) := rfl

theorem setUrl_recv (data : List Byte) (c : HttpConn) (p : Option Nat) :
    (recvBytes data c).setUrl p = recvBytes data (c.setUrl p) := rfl

theorem setVersion_recv (data : List Byte) (c : HttpConn) (p : Option Nat) :
    (recvBytes data c).setVersion p = recvBytes data (c.setVersion p) := rfl

@[simp] theorem recvBytes_readIdx (data : List Byte) (c : HttpConn) :
    (recvBytes data c).readIdx = c.readIdx + data.length := rfl

/-- Two receptions are one reception of the joined bytes. -/
theorem recvBytes_append {first second : List Byte} {c : HttpConn}
    (hfit : c.readIdx + first.length ≤ READ_BUFFER_SIZE) :
    recvBytes second (recvBytes first c) = recvBytes (first ++ second) c := by
  simp [recvBytes, Buffer.blit_append _ hfit, Nat.add_assoc]

@[simp] theorem recvBytes_nil (c : HttpConn) : recvBytes [] c = c := by
  simp [recvBytes]

end HttpConn

end LinuxLearning.Webserver
