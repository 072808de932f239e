import Mathlib.Data.Finset.Card
import Mathlib.Data.Fintype.Basic
import SystemProgramming.Booking.Command
import SystemProgramming.Lib.RecordLock
import SystemProgramming.Lib.Transition

namespace SystemProgramming.Booking

open ByteFile RecordLock

/-!
# Booking servers — the processes and their steps

Any number of read and write servers share one `bookingRecord` file.  A `World` is the file,
the kernel's lock table for it and the state of each process (`none` once it has terminated).
One step is what a server does for one ready descriptor: accept a connection, or act on what
`handle_read` returned for a connection.  Steps of different processes, and of different
connections of one process, interleave in any order; a descriptor number that was closed may be
given to a later connection.

The handlers below follow the two builds of `main` statement by statement (`READ_SERVER` and
`WRITE_SERVER`); the operations on one process are grouped in `Active`, the view a running
process has of the world.
-/

/-- Which macro the program was built with. -/
inductive Build where
  | readServer
  | writeServer
  deriving DecidableEq, Repr

/-- The values of `state[]`: `HI`, `ID`, `EXIT`, `COMMAND`. -/
inductive SessionState where
  | hi
  | id
  | exit
  | command
  deriving DecidableEq, Repr

/-- `state <= ID`. -/
def SessionState.leId : SessionState → Bool
  | .hi | .id => true
  | .exit | .command => false

/-- `request`; `buf` is the text up to its terminating `NUL`. -/
structure Request where
  connFd : ℤ
  buf : List UInt8
  bufLen : ℕ
  id : ℤ
  deriving DecidableEq, Repr

/-- `init_request`, which `free_request` also calls. -/
def Request.init (r : Request) : Request := { r with connFd := -1, bufLen := 0, id := 0 }

/-! ### Replies -/

/-- What a server sends to a client in one go. -/
inductive Reply where
  | enterId
  | operationFailed
  | locked
  | exceedUpper
  | belowZero
  /-- the record shown by a read server -/
  | readBookings (b : BookingState)
  /-- the record shown by a write server -/
  | writeBookings (b : BookingState)
  /-- the confirmation of a command for `id % 100` -/
  | updated (id : ℕ) (b : BookingState)
  deriving DecidableEq, Repr

/-- The three lines with the booking numbers. -/
def bookingText (b : BookingState) : String :=
  "Food: " ++ toString b.food ++ " booked\nConcert: " ++ toString b.concert ++
    " booked\nElectronics: " ++ toString b.elecs ++ " booked\n"

/-- The text of a reply, as written to the socket. -/
def Reply.text : Reply → String
  | .enterId => "Please enter your id (to check your booking state):\n"
  | .operationFailed => "[Error] Operation failed. Please try again.\n"
  | .locked => "Locked.\n"
  | .exceedUpper => "[Error] Sorry, but you cannot book more than 15 items in total.\n"
  | .belowZero => "[Error] Sorry, but you cannot book less than 0 items.\n"
  | .readBookings b => bookingText b ++ "\n(Type Exit to leave...)\n"
  | .writeBookings b => bookingText b ++ "\nPlease input your booking command. (Food, " ++
      "Concert, Electronics. Positive/negative value increases/decreases the booking amount.):\n"
  | .updated id b => "Bookings for user 9020" ++ (if id < 10 then "0" else "") ++ toString id ++
      " are updated, the new booking state is:\n" ++ bookingText b

/-- The counts a reply displays. -/
def Reply.shown : Reply → Option BookingState
  | .readBookings b | .writeBookings b | .updated _ b => some b
  | _ => none

/-! ### One process -/

/-- A server process: the variables of `main` and, from the kernel, its open connections, the
    file offsets of `book[]` and what was written to each connection. -/
structure Proc where
  requestP : ℕ → Request
  state : ℕ → SessionState
  master : Finset ℕ
  readlc : ℕ → ℤ
  samewr : ℕ → ℤ
  conns : Finset ℕ
  offset : ℕ → ℕ
  sent : ℕ → List Reply

/-- A server that has run the initialisation of `main` up to its `while` loop. -/
def Proc.init : Proc where
  requestP := fun _ => ⟨-1, [], 0, 0⟩
  state := fun _ => .hi
  master := ∅
  readlc := fun _ => 0
  samewr := fun _ => 0
  conns := ∅
  offset := fun i => (i - 1) * recordSize
  sent := fun _ => []

/-- The view a running process has: its own variables, the file and the lock table. -/
structure Active (P : Type) where
  proc : Proc
  file : List UInt8
  locks : LockTable P

variable {P : Type} [DecidableEq P]

namespace Active

/-- `write(conn_fd, buf, strlen(buf))`. -/
def write (a : Active P) (fd : ℕ) (r : Reply) : Active P :=
  { a with proc.sent := Function.update a.proc.sent fd (a.proc.sent fd ++ [r]) }

/-- `close(requestP[conn_fd].conn_fd)`. -/
def close (a : Active P) (fd : ℕ) : Active P :=
  let n := (a.proc.requestP fd).connFd
  if n < 0 then a else { a with proc.conns := a.proc.conns.erase n.toNat }

/-- `free_request(&requestP[conn_fd])`. -/
def freeRequest (a : Active P) (fd : ℕ) : Active P :=
  { a with proc.requestP := Function.update a.proc.requestP fd (a.proc.requestP fd).init }

/-- `FD_CLR(i, &master)`. -/
def fdClr (a : Active P) (fd : ℕ) : Active P :=
  { a with proc.master := a.proc.master.erase fd }

/-- The three statements that end every connection. -/
def hangUp (a : Active P) (fd : ℕ) : Active P := ((a.close fd).freeRequest fd).fdClr fd

/-- `state[i] = s`. -/
def setState (a : Active P) (fd : ℕ) (s : SessionState) : Active P :=
  { a with proc.state := Function.update a.proc.state fd s }

/-- `requestP[conn_fd].id = id`. -/
def setId (a : Active P) (fd : ℕ) (id : ℤ) : Active P :=
  let r := { a.proc.requestP fd with id := id }
  { a with proc.requestP := Function.update a.proc.requestP fd r }

/-- `readlc[k] = n`. -/
def setReadlc (a : Active P) (k : ℕ) (n : ℤ) : Active P :=
  { a with proc.readlc := Function.update a.proc.readlc k n }

/-- `samewr[k] = n`. -/
def setSamewr (a : Active P) (k : ℕ) (n : ℤ) : Active P :=
  { a with proc.samewr := Function.update a.proc.samewr k n }

/-- `fcntl(book[k], F_SETLK, &rd)` or `&wr`: the range is the record at the file offset. -/
def setlk [Fintype P] (a : Active P) (p : P) (kind : LockKind) (k : ℕ) : Option (Active P) :=
  (RecordLock.setlk a.locks p kind (a.proc.offset k) recordSize).map fun t => { a with locks := t }

/-- `fcntl(book[k], F_SETLK, &un)`. -/
def unlock (a : Active P) (p : P) (k : ℕ) : Active P :=
  { a with locks := RecordLock.unlock a.locks p (a.proc.offset k) recordSize }

/-- The record `read(book[k], &input, sizeof(record))` reads. -/
def peek (a : Active P) (k : ℕ) : Record :=
  Record.decode (readAt a.file (a.proc.offset k) recordSize)

/-- The offset after `read(book[k], &input, sizeof(record))`. -/
def advance (a : Active P) (k : ℕ) : Active P :=
  let n := (readAt a.file (a.proc.offset k) recordSize).length
  { a with proc.offset := Function.update a.proc.offset k (a.proc.offset k + n) }

/-- `write(book[k], &input, sizeof(record))`. -/
def writeRecord (a : Active P) (k : ℕ) (r : Record) : Active P :=
  { a with
    file := writeAt a.file (a.proc.offset k) r.encode
    proc.offset := Function.update a.proc.offset k (a.proc.offset k + r.encode.length) }

/-- `lseek(book[k], (-1)*sizeof(record), SEEK_CUR)`; it fails below offset 0. -/
def lseekBack (a : Active P) (k : ℕ) : Active P :=
  if recordSize ≤ a.proc.offset k then
    { a with proc.offset := Function.update a.proc.offset k (a.proc.offset k - recordSize) }
  else a

/-! ### The READ_SERVER build -/

/-- `handle_read` returned 0: end of file. -/
def readEof (a : Active P) (p : P) (fd : ℕ) : Active P :=
  let a :=
    if (a.proc.state fd).leId then a
    else
      let k := bookIndex (a.proc.requestP fd).id
      let a := a.setReadlc k (a.proc.readlc k - 1)
      if a.proc.readlc k = 0 then a.unlock p k else a
  a.hangUp fd

/-- A line in state `ID`. -/
def readId [Fintype P] (a : Active P) (p : P) (fd : ℕ) : Active P :=
  if checkid (a.proc.requestP fd).buf = false then (a.write fd .operationFailed).hangUp fd
  else
    let a := a.setId fd (atoi (a.proc.requestP fd).buf)
    let id := bookIndex (a.proc.requestP fd).id
    match a.setlk p .read id with
    | none => ((a.write fd .locked).hangUp fd).setState fd .hi
    | some a =>
      let a := a.setReadlc id (a.proc.readlc id + 1)
      let input := a.peek id
      let a := (a.advance id).lseekBack id
      (a.write fd (.readBookings input.bookingState)).setState fd .exit

/-- A line in state `EXIT`. -/
def readExit (a : Active P) (p : P) (fd : ℕ) : Active P :=
  let id := bookIndex (a.proc.requestP fd).id
  if (a.proc.requestP fd).buf = ascii "Exit" then
    let a := (a.hangUp fd).setState fd .hi
    let a := a.setReadlc id (a.proc.readlc id - 1)
    if a.proc.readlc id = 0 then a.unlock p id else a
  else a

/-! ### The WRITE_SERVER build -/

/-- `handle_read` returned 0: end of file. -/
def writeEof (a : Active P) (p : P) (fd : ℕ) : Active P :=
  let a :=
    if (a.proc.state fd).leId then a
    else
      let k := bookIndex (a.proc.requestP fd).id
      (a.setSamewr k 0).unlock p k
  a.hangUp fd

/-- A line in state `ID`; `||` asks for the lock before it looks at `samewr`. -/
def writeId [Fintype P] (a : Active P) (p : P) (fd : ℕ) : Active P :=
  if checkid (a.proc.requestP fd).buf = false then (a.write fd .operationFailed).hangUp fd
  else
    let a := a.setId fd (atoi (a.proc.requestP fd).buf)
    let id := bookIndex (a.proc.requestP fd).id
    match a.setlk p .write id with
    | none => ((a.write fd .locked).hangUp fd).setState fd .hi
    | some a =>
      if a.proc.samewr id = 1 then ((a.write fd .locked).hangUp fd).setState fd .hi
      else
        let a := a.setSamewr id 1
        let input := a.peek id
        let a := (a.advance id).lseekBack id
        (a.write fd (.writeBookings input.bookingState)).setState fd .command

/-- The end of a session whose command was rejected with the message `r`. -/
def rejectCommand (a : Active P) (p : P) (fd id : ℕ) (r : Reply) : Active P :=
  (((a.write fd r).hangUp fd).setSamewr id 0).unlock p id

/-- A line in state `COMMAND`. -/
def writeCommand (a : Active P) (p : P) (fd : ℕ) : Active P :=
  let id := bookIndex (a.proc.requestP fd).id
  let input := a.peek id
  let a := (a.advance id).lseekBack id
  match checkcommand (a.proc.requestP fd).buf input with
  | (.exceeds, _) => a.rejectCommand p fd id .exceedUpper
  | (.below, _) => a.rejectCommand p fd id .belowZero
  | (.malformed, _) => a.rejectCommand p fd id .operationFailed
  | (.accepted, out) =>
    let a := match out with
      | some r => (a.writeRecord id r).lseekBack id
      | none => a
    let input := a.peek id
    let a := (a.advance id).lseekBack id
    let a := ((a.write fd (.updated id input.bookingState)).hangUp fd).setState fd .hi
    (a.setSamewr id 0).unlock p id

/-! ### `main` -/

/-- `handle_read` stored a line in `requestP[conn_fd].buf`. -/
def storeLine (a : Active P) (fd : ℕ) (l : List UInt8) : Active P :=
  let r := { a.proc.requestP fd with buf := l, bufLen := l.length }
  { a with proc.requestP := Function.update a.proc.requestP fd r }

/-- The accept branch. -/
def acceptConn (a : Active P) (fd : ℕ) : Active P :=
  let a := { a with
    proc.conns := insert fd a.proc.conns
    proc.sent := Function.update a.proc.sent fd []
    proc.requestP := Function.update a.proc.requestP fd { a.proc.requestP fd with connFd := fd }
    proc.master := insert fd a.proc.master }
  (a.write fd .enterId).setState fd .id

/-- A line for a connection, in the branch of its state. -/
def onLine [Fintype P] (a : Active P) (b : Build) (p : P) (fd : ℕ) : Active P :=
  match b, a.proc.state fd with
  | .readServer, .id => a.readId p fd
  | .readServer, .exit => a.readExit p fd
  | .writeServer, .id => a.writeId p fd
  | .writeServer, .command => a.writeCommand p fd
  | _, _ => a

/-- End of file on a connection. -/
def onEof (a : Active P) (b : Build) (p : P) (fd : ℕ) : Active P :=
  match b with
  | .readServer => a.readEof p fd
  | .writeServer => a.writeEof p fd

end Active

/-! ### The system -/

/-- What happens to a process in one step. -/
inductive Event where
  /-- `accept` returned the descriptor `fd` -/
  | accept (fd : ℕ)
  /-- `handle_read` returned `-1` for `fd` -/
  | readError (fd : ℕ)
  /-- `handle_read` returned `0` for `fd` -/
  | eof (fd : ℕ)
  /-- `handle_read` returned `1` for `fd`, with this line in the buffer -/
  | line (fd : ℕ) (l : List UInt8)
  /-- the process ends in an `ERR_EXIT` -/
  | errExit
  deriving DecidableEq, Repr

/-- The connection an event is about. -/
def Event.fd? : Event → Option ℕ
  | .accept fd | .readError fd | .eof fd | .line fd _ => some fd
  | .errExit => none

/-- All servers, the file they share and its lock table. -/
structure World (P : Type) where
  file : List UInt8
  locks : LockTable P
  proc : P → Option Proc

/-- What a running process does on an event; `none` if the event cannot occur. -/
def Active.handle [Fintype P] (a : Active P) (b : Build) (p : P) : Event → Option (Active P)
  | .accept fd => if fd ∈ a.proc.conns then none else some (a.acceptConn fd)
  | .readError fd => if fd ∈ a.proc.master then some (a.hangUp fd) else none
  | .eof fd => if fd ∈ a.proc.master then some (a.onEof b p fd) else none
  | .line fd l => if fd ∈ a.proc.master then some ((a.storeLine fd l).onLine b p fd) else none
  | .errExit => none

/-- One step of process `p`. -/
def step [Fintype P] (build : P → Build) (w : World P) : P × Event → Option (World P)
  | (p, e) =>
    match w.proc p with
    | none => none
    | some c =>
      if e = .errExit then
        some { w with locks := dropAll w.locks p, proc := Function.update w.proc p none }
      else
        (Active.handle ⟨c, w.file, w.locks⟩ (build p) p e).map fun a =>
          ⟨a.file, a.locks, Function.update w.proc p (some a.proc)⟩


/-- Record `k` of the file, `k` in `1..20`. -/
def recordAt (file : List UInt8) (k : ℕ) : Record :=
  Record.decode (readAt file ((k - 1) * recordSize) recordSize)

/-- The size of a file of 20 records. -/
def fileSize : ℕ := 20 * recordSize

/-- A `bookingRecord` file as the servers expect it: the records of `902001 … 902020`. -/
structure BookingFile where
  bytes : List UInt8
  size : bytes.length = fileSize

/-- Every process is about to enter its `while` loop; nothing is locked. -/
def World.start (f : BookingFile) : World P := ⟨f.bytes, fun _ _ => none, fun _ => some Proc.init⟩

/-- Connection `fd` is open, in state `s`, with id `902000 + k`. -/
def Proc.InSession (c : Proc) (s : SessionState) (fd k : ℕ) : Prop :=
  fd ∈ c.conns ∧ c.state fd = s ∧ (c.requestP fd).id = 902000 + k

instance (c : Proc) (s : SessionState) (fd k : ℕ) : Decidable (c.InSession s fd k) := by
  unfold Proc.InSession; infer_instance

end SystemProgramming.Booking
