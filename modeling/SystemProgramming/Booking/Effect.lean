import SystemProgramming.Booking.Server

namespace SystemProgramming.Booking

open ByteFile RecordLock

/-!
# Booking servers — what one step can do

`ProcInv` is the invariant of one process: its descriptor tables agree, `book[k]` stands at record
`k`, the counter of an id (`readlc` or `samewr`) counts the open sessions of that id *plus the
sessions that were lost to a read error*, and the process holds the lock of a record exactly while
its counter is positive.

`handle_effect` inverts one step of a process that satisfies the invariant: every branch of the
two builds is one of the six kinds of `Effect`.  All later results about the servers are derived
from the effects; none of them looks at the handlers again.
-/

/-! ### The two builds, uniformly -/

/-- The state of a connection that holds a session. -/
def Build.live : Build → SessionState
  | .readServer => .exit
  | .writeServer => .command

/-- The lock a session holds. -/
def Build.kind : Build → LockKind
  | .readServer => .read
  | .writeServer => .write

/-- The counter of sessions by id. -/
def Build.counter (b : Build) (c : Proc) : ℕ → ℤ :=
  match b with
  | .readServer => c.readlc
  | .writeServer => c.samewr

/-- The reply that opens a session. -/
def Build.display : Build → BookingState → Reply
  | .readServer => .readBookings
  | .writeServer => .writeBookings

/-- A session is not in the state that waits for an id. -/
theorem Build.live_ne_id (b : Build) : b.live ≠ .id := by cases b <;> decide

/-- What is shown to a client can be read off the reply. -/
theorem Build.shown_display (b : Build) (x : BookingState) : (b.display x).shown = some x := by
  cases b <;> rfl

/-- The byte at which record `k` starts. -/
def recordStart (k : ℕ) : ℕ := (k - 1) * recordSize

/-- The open sessions with id `902000 + k`. -/
def Proc.sessions (b : Build) (c : Proc) (k : ℕ) : Finset ℕ :=
  c.conns.filter fun fd => c.InSession b.live fd k

/-- The sessions on `k` are the connections in a session on `k`. -/
theorem Proc.mem_sessions {b : Build} {c : Proc} {k fd : ℕ} :
    fd ∈ c.sessions b k ↔ c.InSession b.live fd k := by
  simp only [sessions, Finset.mem_filter, and_iff_right_iff_imp]
  exact fun h => h.1

/-- A connection that holds no session: closed, or still asked for its id. -/
def Proc.Quiet (c : Proc) (fd : ℕ) : Prop := fd ∉ c.conns ∨ c.state fd = .id

/-- A quiet connection is in no session. -/
theorem Proc.Quiet.not_inSession {b : Build} {c : Proc} {fd : ℕ} (h : c.Quiet fd) (k : ℕ) :
    ¬ c.InSession b.live fd k := by
  rintro ⟨hc, hs, -⟩
  rcases h with h | h
  · exact h hc
  · exact b.live_ne_id (hs.symm.trans h)

/-- The tables of a process that do not depend on its sessions. -/
structure Proc.Wf (c : Proc) : Prop where
  master : c.master = c.conns
  connFd : ∀ fd ∈ c.conns, (c.requestP fd).connFd = fd
  offset : ∀ k, 1 ≤ k → k ≤ 20 → c.offset k = recordStart k

/-- **The invariant of one process**, with `lk` its row of the lock table and `leak k` the number
    of its sessions on id `k` that ended in a read error. -/
structure ProcInv (b : Build) (leak : ℕ → ℕ) (c : Proc) (lk : ℕ → Option LockKind) : Prop where
  wf : c.Wf
  session : ∀ fd ∈ c.conns, c.state fd = .id ∨ ∃ k, 1 ≤ k ∧ k ≤ 20 ∧ c.InSession b.live fd k
  counter : ∀ k, 1 ≤ k → k ≤ 20 → b.counter c k = (c.sessions b k).card + leak k
  single : b = .writeServer → ∀ k, 1 ≤ k → k ≤ 20 → b.counter c k ≤ 1
  locked : ∀ k, 1 ≤ k → k ≤ 20 → ∀ i, i < recordSize →
    lk (recordStart k + i) = if 0 < b.counter c k then some b.kind else none

/-- **At the start** there is no connection, no session and no lock. -/
theorem Proc.init_inv (b : Build) : ProcInv b (fun _ => 0) Proc.init (fun _ => none) where
  wf := ⟨rfl, by simp [Proc.init], fun _ _ _ => rfl⟩
  session := by simp [Proc.init]
  counter := by
    intro k _ _
    have hnone : Proc.init.sessions b k = ∅ :=
      Finset.eq_empty_of_forall_notMem fun fd h => by simpa [Proc.init] using (mem_sessions.mp h).1
    rw [hnone]
    cases b <;> rfl
  single := by intro _ k _ _; cases b <;> simp [Build.counter, Proc.init]
  locked := by intro k _ _ i _; cases b <;> simp [Build.counter, Proc.init]

/-! ### Effects -/

/-- A step on `fd` leaves every other connection alone and keeps the tables in order. -/
structure Frame (fd : ℕ) (c c' : Proc) : Prop where
  wf : c'.Wf
  conns : ∀ x, x ≠ fd → (x ∈ c'.conns ↔ x ∈ c.conns)
  state : ∀ x, x ≠ fd → c'.state x = c.state x
  requestP : ∀ x, x ≠ fd → c'.requestP x = c.requestP x
  sent : ∀ x, x ≠ fd → c'.sent x = c.sent x

/-- The sessions of the other connections stay as they are. -/
theorem Frame.inSession_iff {fd x : ℕ} {c c' : Proc} (h : Frame fd c c') (hx : x ≠ fd)
    (s : SessionState) (k : ℕ) : c'.InSession s x k ↔ c.InSession s x k := by
  simp only [Proc.InSession, h.conns x hx, h.state x hx, h.requestP x hx]

/-! ### The operations on one process -/

section Operations

variable {P : Type} {a : Active P} {fd k : ℕ}

/-- Closing an open connection, in one piece. -/
theorem hangUp_eq (h : (a.proc.requestP fd).connFd = fd) :
    a.hangUp fd = { a with
      proc.conns := a.proc.conns.erase fd
      proc.master := a.proc.master.erase fd
      proc.requestP := Function.update a.proc.requestP fd (a.proc.requestP fd).init } := by
  have hneg : ¬ ((fd : ℤ) < 0) := by omega
  simp [Active.hangUp, Active.close, Active.freeRequest, Active.fdClr, h, hneg]

/-- A complete read and the seek back leave the offset where it was. -/
theorem advance_lseekBack (h : a.proc.offset k + recordSize ≤ a.file.length) :
    (a.advance k).lseekBack k = a := by
  simp [Active.advance, Active.lseekBack, length_readAt h]

/-- So do a write of one record and the seek back. -/
theorem writeRecord_lseekBack (r : Record) :
    (a.writeRecord k r).lseekBack k =
      { a with file := writeAt a.file (a.proc.offset k) r.encode } := by
  simp [Active.writeRecord, Active.lseekBack]

end Operations

variable {P : Type} [DecidableEq P]

/-- The event is a read error on a connection that holds a session. -/
def Build.Loses (b : Build) (c : Proc) (e : Event) : Prop :=
  ∃ fd k, e = .readError fd ∧ c.InSession b.live fd k

/-- What the end of a session on `k` does to the file: nothing, if no command was accepted; else
    the deltas `ch` of the command are added to record `k` and the sum is sent to the client. -/
def Outcome (b : Build) (a a' : Active P) (e : Event) (fd k : ℕ) : Option BookingState → Prop
  | none => a'.file = a.file ∧ ∀ l, b = .writeServer → e = .line fd l →
      (checkcommand l (recordAt a.file k)).1 ≠ .accepted
  | some ch =>
    let r := recordAt a.file k
    ∃ l, b = .writeServer ∧ e = .line fd l ∧ scanCommand l = some ch ∧
      judge r.bookingState ch = .accepted ∧
      a'.file = writeAt a.file (recordStart k)
        (Record.encode { r with bookingState := r.bookingState.add ch }) ∧
      a'.proc.sent fd = a.proc.sent fd ++ [.updated k (r.bookingState.add ch)]

/-- What a step of the running process `p` on event `e` can do, from `a` to `a'`. -/
inductive Effect (b : Build) (p : P) (a : Active P) : Event → Active P → Prop where
  /-- a connection without a session is accepted, dropped, or told that its id is no id -/
  | idle {e : Event} {a' : Active P} (fd : ℕ) (frame : Frame fd a.proc a'.proc)
      (err : ¬ b.Loses a.proc e) (before : a.proc.Quiet fd) (after : a'.proc.Quiet fd)
      (counter : b.counter a'.proc = b.counter a.proc)
      (locks : a'.locks = a.locks) (file : a'.file = a.file)
      (reply : a'.proc.sent fd ≠ a.proc.sent fd ++ [.locked]) (on : e.fd? = some fd) :
      Effect b p a e a'
  /-- a line that changes nothing in a session -/
  | keep {a' : Active P} (fd : ℕ) (l : List UInt8) (k : ℕ) (frame : Frame fd a.proc a'.proc)
      (before : a.proc.InSession b.live fd k) (after : a'.proc.InSession b.live fd k)
      (sent : a'.proc.sent fd = a.proc.sent fd)
      (counter : b.counter a'.proc = b.counter a.proc)
      (locks : a'.locks = a.locks) (file : a'.file = a.file) (hb : b = .readServer) :
      Effect b p a (.line fd l) a'
  /-- a session is refused with `Locked.` -/
  | refuse {a' : Active P} (fd : ℕ) (l : List UInt8) (k : ℕ) (frame : Frame fd a.proc a'.proc)
      (hk : 1 ≤ k ∧ k ≤ 20) (hl : atoi l = 902000 + k)
      (before : fd ∈ a.proc.conns ∧ a.proc.state fd = .id) (after : fd ∉ a'.proc.conns)
      (sent : a'.proc.sent fd = a.proc.sent fd ++ [.locked])
      (reason : ¬ Grantable a.locks p b.kind (recordStart k) recordSize ∨
        b = .writeServer ∧ b.counter a.proc k = 1)
      (counter : b.counter a'.proc = b.counter a.proc)
      (locks : a'.locks = a.locks) (file : a'.file = a.file) : Effect b p a (.line fd l) a'
  /-- a session on id `k` begins: the lock is granted and the record is shown -/
  | opens {a' : Active P} (fd : ℕ) (l : List UInt8) (k : ℕ) (frame : Frame fd a.proc a'.proc)
      (hk : 1 ≤ k ∧ k ≤ 20) (hl : atoi l = 902000 + k)
      (before : fd ∈ a.proc.conns ∧ a.proc.state fd = .id) (after : a'.proc.InSession b.live fd k)
      (sent : a'.proc.sent fd = a.proc.sent fd ++ [b.display (recordAt a.file k).bookingState])
      (free : b = .writeServer → b.counter a.proc k = 0)
      (grant : Grantable a.locks p b.kind (recordStart k) recordSize)
      (counter : b.counter a'.proc = Function.update (b.counter a.proc) k (b.counter a.proc k + 1))
      (locks : a'.locks = setRange a.locks p (some b.kind) (recordStart k) recordSize)
      (file : a'.file = a.file) : Effect b p a (.line fd l) a'
  /-- a session on id `k` ends and gives its share of the lock back; `out` holds the deltas of
      the command if one was accepted -/
  | closes {e : Event} {a' : Active P} (fd : ℕ) (k : ℕ) (out : Option BookingState)
      (frame : Frame fd a.proc a'.proc) (hk : 1 ≤ k ∧ k ≤ 20) (err : ¬ b.Loses a.proc e)
      (before : a.proc.InSession b.live fd k) (after : fd ∉ a'.proc.conns)
      (counter : b.counter a'.proc = Function.update (b.counter a.proc) k (b.counter a.proc k - 1))
      (locks : a'.locks =
        if b.counter a.proc k = 1 then unlock a.locks p (recordStart k) recordSize else a.locks)
      (file : Outcome b a a' e fd k out)
      (reply : a'.proc.sent fd ≠ a.proc.sent fd ++ [.locked]) (on : e.fd? = some fd) :
      Effect b p a e a'
  /-- a session on id `k` is lost to a read error: nothing is given back -/
  | drop {a' : Active P} (fd : ℕ) (k : ℕ) (frame : Frame fd a.proc a'.proc)
      (hk : 1 ≤ k ∧ k ≤ 20) (before : a.proc.InSession b.live fd k)
      (after : fd ∉ a'.proc.conns) (counter : b.counter a'.proc = b.counter a.proc)
      (locks : a'.locks = a.locks) (file : a'.file = a.file)
      (reply : a'.proc.sent fd = a.proc.sent fd) : Effect b p a (.readError fd) a'

/-- An effect on `fd` is a frame for `fd`. -/
theorem Effect.frame {b : Build} {p : P} {a a' : Active P} {e : Event} {fd : ℕ}
    (h : Effect b p a e a') (hfd : e.fd? = some fd) : Frame fd a.proc a'.proc := by
  cases h with
  | idle fd' frame err before after counter locks file reply on =>
    cases hfd.symm.trans on
    exact frame
  | keep fd' l k frame before after sent counter locks file hb =>
    cases hfd
    exact frame
  | refuse fd' l k frame hk hl before after sent reason counter locks file =>
    cases hfd
    exact frame
  | opens fd' l k frame hk hl before after sent free grant counter locks file =>
    cases hfd
    exact frame
  | closes fd' k out frame hk err before after counter locks file reply on =>
    cases hfd.symm.trans on
    exact frame
  | drop fd' k frame hk before after counter locks file reply =>
    cases hfd
    exact frame

/-! ### Records in the file -/

/-- Every record lies in the file. -/
theorem recordStart_lt {k : ℕ} (hk : 1 ≤ k ∧ k ≤ 20) : recordStart k + recordSize ≤ fileSize := by
  simp only [recordStart, recordSize, fileSize]
  omega

/-- Writing record `k` inside the file. -/
theorem recordAt_writeAt_self {file : List UInt8} {k : ℕ} (hlen : file.length = fileSize)
    (hk : 1 ≤ k ∧ k ≤ 20) (r : Record) :
    recordAt (writeAt file (recordStart k) r.encode) k = r := by
  have hle : recordStart k + r.encode.length ≤ file.length := by
    rw [Record.length_encode, hlen]
    exact recordStart_lt hk
  have hread := readAt_writeAt_self hle
  rw [Record.length_encode] at hread
  rw [recordAt, ← recordStart, hread, Record.decode_encode]

/-- Writing record `k` leaves the other records alone. -/
theorem recordAt_writeAt_of_ne {file : List UInt8} {j k : ℕ} (hlen : file.length = fileSize)
    (hj : 1 ≤ j ∧ j ≤ 20) (hk : 1 ≤ k ∧ k ≤ 20) (hne : j ≠ k) (r : Record) :
    recordAt (writeAt file (recordStart k) r.encode) j = recordAt file j := by
  have hle : recordStart k + r.encode.length ≤ file.length := by
    rw [Record.length_encode, hlen]
    exact recordStart_lt hk
  rw [recordAt, recordAt, readAt_writeAt_of_le hle]
  simp only [recordStart, Record.length_encode, recordSize]
  omega

/-- To write a record keeps the length of the file. -/
theorem length_writeRecord {file : List UInt8} {k : ℕ} (hlen : file.length = fileSize)
    (hk : 1 ≤ k ∧ k ≤ 20) (r : Record) :
    (writeAt file (recordStart k) r.encode).length = fileSize := by
  rw [length_writeAt, hlen]
  rw [Record.length_encode, hlen]
  exact recordStart_lt hk

/-! ### Each handler has an effect -/

/-- A frame from the fields of the two processes away from `fd`. -/
theorem Frame.of {fd : ℕ} {c c' : Proc} (wf : c.Wf) (master : c'.master = c'.conns)
    (connFd : fd ∈ c'.conns → (c'.requestP fd).connFd = fd) (offset : c'.offset = c.offset)
    (conns : ∀ x, x ≠ fd → (x ∈ c'.conns ↔ x ∈ c.conns))
    (state : ∀ x, x ≠ fd → c'.state x = c.state x)
    (requestP : ∀ x, x ≠ fd → c'.requestP x = c.requestP x)
    (sent : ∀ x, x ≠ fd → c'.sent x = c.sent x) : Frame fd c c' where
  wf := by
    -- only `fd` may have a new `connFd`, the other slots are those of before
    refine ⟨master, fun x hx => ?_, by rw [offset]; exact wf.offset⟩
    by_cases hxfd : x = fd
    · subst hxfd
      exact connFd hx
    · rw [requestP x hxfd]
      exact wf.connFd x ((conns x hxfd).mp hx)
  conns := conns
  state := state
  requestP := requestP
  sent := sent

section Handlers

variable {b : Build} {p : P} {a a' : Active P} {fd : ℕ} {leak : ℕ → ℕ}

/-- **A connection is accepted**: it has no session yet. -/
theorem acceptConn_effect (inv : ProcInv b leak a.proc (a.locks p)) (hfd : fd ∉ a.proc.conns) :
    Effect b p a (.accept fd) (a.acceptConn fd) := by
  refine .idle fd ?_ (by simp [Build.Loses]) (.inl hfd) (.inr ?_) ?_ rfl rfl ?_ rfl
  · apply Frame.of inv.wf <;>
      simp +contextual [Active.acceptConn, Active.write, Active.setState, inv.wf.master,
        Function.update]
  · simp [Active.acceptConn, Active.setState]
  · cases b <;> rfl
  · intro h
    simpa [Active.acceptConn, Active.setState, Active.write] using congrArg List.getLast? h

omit [DecidableEq P] in
/-- Closing a connection is a frame. -/
theorem hangUp_frame (wf : a.proc.Wf) (hfd : fd ∈ a.proc.conns) :
    Frame fd a.proc (a.hangUp fd).proc := by
  rw [hangUp_eq (wf.connFd fd hfd)]
  apply Frame.of wf <;> simp +contextual [wf.master, Function.update]

/-- **A read fails**: the connection is closed, and a session on it is lost. -/
theorem readError_effect (inv : ProcInv b leak a.proc (a.locks p)) (hfd : fd ∈ a.proc.conns) :
    Effect b p a (.readError fd) (a.hangUp fd) := by
  have hframe := hangUp_frame inv.wf hfd
  have heq := hangUp_eq (inv.wf.connFd fd hfd)
  have hclosed : fd ∉ (a.hangUp fd).proc.conns := by simp [heq]
  have hcounter : b.counter (a.hangUp fd).proc = b.counter a.proc := by rw [heq]; cases b <;> rfl
  rcases inv.session fd hfd with hid | ⟨k, hk1, hk20, hs⟩
  · refine .idle fd hframe ?_ (.inr hid) (.inl hclosed) hcounter (by rw [heq]) (by rw [heq])
      (by simp [heq]) rfl
    rintro ⟨fd', k, h, hs⟩
    cases h
    exact Proc.Quiet.not_inSession (.inr hid) k hs
  · exact .drop fd k hframe ⟨hk1, hk20⟩ hs hclosed hcounter (by rw [heq]) (by rw [heq])
      (by rw [heq])

/-- A session has an id of the file, and its counter is positive. -/
theorem ProcInv.inSession {c : Proc} {lk : ℕ → Option LockKind} (inv : ProcInv b leak c lk)
    {k : ℕ} (h : c.InSession b.live fd k) : (1 ≤ k ∧ k ≤ 20) ∧ 1 ≤ b.counter c k := by
  have hk : 1 ≤ k ∧ k ≤ 20 := by
    rcases inv.session fd h.1 with hid | ⟨k', hk1, hk20, hs⟩
    · exact absurd (h.2.1.symm.trans hid) b.live_ne_id
    · have hid : (902000 : ℤ) + k = 902000 + k' := h.2.2.symm.trans hs.2.2
      omega
  refine ⟨hk, ?_⟩
  have hpos : 0 < (c.sessions b k).card := Finset.card_pos.mpr ⟨fd, Proc.mem_sessions.mpr h⟩
  rw [inv.counter k hk.1 hk.2]
  omega

/-- The connection is closed: what is left of `Frame.of` to check. -/
theorem Frame.of_erase {c c' : Proc} (wf : c.Wf) (conns : c'.conns = c.conns.erase fd)
    (master : c'.master = c.master.erase fd) (offset : c'.offset = c.offset)
    (state : ∀ x, x ≠ fd → c'.state x = c.state x)
    (requestP : ∀ x, x ≠ fd → c'.requestP x = c.requestP x)
    (sent : ∀ x, x ≠ fd → c'.sent x = c.sent x) : Frame fd c c' :=
  Frame.of wf (by rw [master, conns, wf.master]) (by simp [conns]) offset
    (fun x hx => by simp [conns, hx]) state requestP sent

/-- **End of file**, READ_SERVER build: a session on the connection ends. -/
theorem readEof_effect (inv : ProcInv .readServer leak a.proc (a.locks p))
    (hfd : fd ∈ a.proc.conns) : Effect .readServer p a (.eof fd) (a.readEof p fd) := by
  have hconn := inv.wf.connFd fd hfd
  rcases inv.session fd hfd with hid | ⟨k, hk1, hk20, hs⟩
  · -- still asked for its id: nothing to give back
    have heq : a.readEof p fd = a.hangUp fd := by simp [Active.readEof, hid, SessionState.leId]
    rw [heq]
    refine .idle fd (hangUp_frame inv.wf hfd) (by simp [Build.Loses]) (.inr hid) (.inl ?_)
      ?_ ?_ ?_ ?_ rfl <;>
      simp [hangUp_eq hconn, Build.counter]
  · -- in a session: its share of the read lock goes back
    have hidx : bookIndex (a.proc.requestP fd).id = k := by rw [hs.2.2]; exact bookIndex_id hk20
    have hle : (a.proc.state fd).leId = false := by rw [hs.2.1]; rfl
    have heq : a.readEof p fd =
        { (a.setReadlc k (a.proc.readlc k - 1)).hangUp fd with
          locks := if a.proc.readlc k = 1 then unlock a.locks p (recordStart k) recordSize
            else a.locks } := by
      have hiff : a.proc.readlc k - 1 = 0 ↔ a.proc.readlc k = 1 := by omega
      simp only [Active.readEof, hle, hidx, Active.setReadlc, Bool.false_eq_true, if_false,
        Function.update_self, hiff]
      split <;> simp [hangUp_eq, Active.unlock, hconn, inv.wf.offset k hk1 hk20]
    have hcl := @hangUp_eq _ (a.setReadlc k (a.proc.readlc k - 1)) fd hconn
    rw [heq, hcl]
    refine .closes fd k none (.of_erase inv.wf rfl rfl rfl ?_ ?_ ?_) ⟨hk1, hk20⟩
      (by simp [Build.Loses]) hs ?_ ?_ rfl ?_ ?_ rfl <;>
        simp +contextual [Active.setReadlc, Build.counter, Outcome]

/-- **End of file**, WRITE_SERVER build: a session on the connection ends. -/
theorem writeEof_effect (inv : ProcInv .writeServer leak a.proc (a.locks p))
    (hfd : fd ∈ a.proc.conns) : Effect .writeServer p a (.eof fd) (a.writeEof p fd) := by
  have hconn := inv.wf.connFd fd hfd
  -- before the id nothing is locked; after it the record is unlocked and the counter freed
  rcases inv.session fd hfd with hid | ⟨k, hk1, hk20, hs⟩
  · have heq : a.writeEof p fd = a.hangUp fd := by simp [Active.writeEof, hid, SessionState.leId]
    rw [heq]
    refine .idle fd (hangUp_frame inv.wf hfd) (by simp [Build.Loses]) (.inr hid) (.inl ?_)
      ?_ ?_ ?_ ?_ rfl <;>
      simp [hangUp_eq hconn, Build.counter]
  · have hidx : bookIndex (a.proc.requestP fd).id = k := by rw [hs.2.2]; exact bookIndex_id hk20
    have hle : (a.proc.state fd).leId = false := by rw [hs.2.1]; rfl
    -- the write server admits one session a record, so the counter falls from one to zero
    have hone : a.proc.samewr k = 1 :=
      le_antisymm (inv.single rfl k hk1 hk20) (inv.inSession hs).2
    have heq : a.writeEof p fd = ((a.setSamewr k 0).unlock p k).hangUp fd := by
      simp [Active.writeEof, hle, hidx]
    have hcl := @hangUp_eq _ ((a.setSamewr k 0).unlock p k) fd hconn
    rw [heq, hcl]
    refine .closes fd k none (.of_erase inv.wf rfl rfl rfl ?_ ?_ ?_) ⟨hk1, hk20⟩
      (by simp [Build.Loses]) hs ?_ ?_ ?_ ?_ ?_ rfl <;>
      simp +contextual [Active.setSamewr, Active.unlock, Build.counter, Outcome, hone,
        inv.wf.offset k hk1 hk20]

/-- **A line in a session**, READ_SERVER build: `Exit` ends it, and other lines do nothing. -/
theorem readExit_effect (inv : ProcInv .readServer leak a.proc (a.locks p)) {k : ℕ}
    (hk : 1 ≤ k ∧ k ≤ 20) (hs : a.proc.InSession .exit fd k) (l : List UInt8) :
    Effect .readServer p a (.line fd l) ((a.storeLine fd l).readExit p fd) := by
  have hconn := inv.wf.connFd fd hs.1
  have hidx : bookIndex (a.proc.requestP fd).id = k := by rw [hs.2.2]; exact bookIndex_id hk.2
  by_cases hl : l = ascii "Exit"
  · have heq : (a.storeLine fd l).readExit p fd =
        { (((a.storeLine fd l).hangUp fd).setState fd .hi).setReadlc k (a.proc.readlc k - 1) with
          locks := if a.proc.readlc k = 1 then unlock a.locks p (recordStart k) recordSize
            else a.locks } := by
      have hiff : a.proc.readlc k - 1 = 0 ↔ a.proc.readlc k = 1 := by omega
      simp only [Active.readExit, Active.storeLine, Function.update_self, hl, if_true, hidx]
      rw [hangUp_eq (by simpa using hconn)]
      simp only [Active.setReadlc, Active.setState, Function.update_self, hiff]
      split <;> simp [Active.unlock, inv.wf.offset k hk.1 hk.2]
    rw [heq, hangUp_eq (by simpa [Active.storeLine] using hconn)]
    refine .closes fd k none (.of_erase inv.wf rfl rfl rfl ?_ ?_ ?_) hk
      (by simp [Build.Loses]) hs ?_ ?_ rfl ?_ ?_ rfl <;>
      simp +contextual [Active.setReadlc, Active.setState, Active.storeLine, Build.counter,
        Outcome]
  · -- any other line is stored and changes nothing
    have heq : (a.storeLine fd l).readExit p fd = a.storeLine fd l := by
      simp [Active.readExit, Active.storeLine, hl]
    rw [heq]
    refine .keep fd l k (.of inv.wf inv.wf.master ?_ rfl ?_ ?_ ?_ ?_) hs ?_ rfl rfl rfl rfl rfl
    · intro _; simpa [Active.storeLine] using hconn
    · simp [Active.storeLine]
    · simp [Active.storeLine]
    · simp +contextual [Active.storeLine]
    · simp [Active.storeLine]
    · exact ⟨hs.1, hs.2.1, by simpa [Active.storeLine] using hs.2.2⟩

omit [DecidableEq P] in
/-- In a well-formed process, `book[k]` reads record `k`. -/
theorem peek_eq (wf : a.proc.Wf) {k : ℕ} (hk : 1 ≤ k ∧ k ≤ 20) : a.peek k = recordAt a.file k := by
  rw [Active.peek, wf.offset k hk.1 hk.2]
  rfl

/-- The session that ends with a rejected command. -/
theorem rejectCommand_effect (inv : ProcInv .writeServer leak a.proc (a.locks p)) {k : ℕ}
    (hk : 1 ≤ k ∧ k ≤ 20) (hs : a.proc.InSession .command fd k) (l : List UInt8) {r : Reply}
    (hr : r ≠ .locked) (hrej : (checkcommand l (recordAt a.file k)).1 ≠ .accepted) :
    Effect .writeServer p a (.line fd l) ((a.storeLine fd l).rejectCommand p fd k r) := by
  have hconn := inv.wf.connFd fd hs.1
  have hone : a.proc.samewr k = 1 := le_antisymm (inv.single rfl k hk.1 hk.2) (inv.inSession hs).2
  rw [Active.rejectCommand, hangUp_eq (by simpa [Active.storeLine, Active.write] using hconn)]
  refine .closes fd k none (.of_erase inv.wf rfl rfl rfl ?_ ?_ ?_) hk (by simp [Build.Loses])
    hs ?_ ?_ ?_ ⟨rfl, fun l' _ hl' => ?_⟩ ?_ rfl
  case refine_7 => cases hl'; exact hrej
  all_goals
    simp +contextual [Active.storeLine, Active.write, Active.setSamewr, Active.unlock,
      Build.counter, hone, inv.wf.offset k hk.1 hk.2, hr]

/-- **A command line**, WRITE_SERVER build: accepted or refused, the session ends. -/
theorem writeCommand_effect (inv : ProcInv .writeServer leak a.proc (a.locks p))
    (hlen : a.file.length = fileSize) {k : ℕ} (hk : 1 ≤ k ∧ k ≤ 20)
    (hs : a.proc.InSession .command fd k) (l : List UInt8) :
    Effect .writeServer p a (.line fd l) ((a.storeLine fd l).writeCommand p fd) := by
  have hconn := inv.wf.connFd fd hs.1
  have hidx : bookIndex (a.proc.requestP fd).id = k := by rw [hs.2.2]; exact bookIndex_id hk.2
  have hone : a.proc.samewr k = 1 := le_antisymm (inv.single rfl k hk.1 hk.2) (inv.inSession hs).2
  have hoff := inv.wf.offset k hk.1 hk.2
  have hin : recordStart k + recordSize ≤ a.file.length := by rw [hlen]; exact recordStart_lt hk
  have hpeek : (a.storeLine fd l).peek k = recordAt a.file k := peek_eq (a := a) inv.wf hk
  have hadv : ((a.storeLine fd l).advance k).lseekBack k = a.storeLine fd l :=
    advance_lseekBack (by simpa [Active.storeLine, hoff] using hin)
  have hbuf : ((a.storeLine fd l).proc.requestP fd).buf = l := by simp [Active.storeLine]
  have hid : bookIndex ((a.storeLine fd l).proc.requestP fd).id = k := by
    simpa [Active.storeLine] using hidx
  unfold Active.writeCommand
  simp only [hid, hpeek, hadv, hbuf]
  rcases checkcommand_cases l (recordAt a.file k) with ⟨ch, hscan, hjudge, hcheck⟩ | ⟨hrej, -⟩
  · -- accepted: the record is written, read back and sent
    rw [hcheck]
    set r : Record :=
      { recordAt a.file k with bookingState := (recordAt a.file k).bookingState.add ch }
      with hr
    have hback := recordAt_writeAt_self hlen hk r
    have hin' : recordStart k + recordSize ≤ (writeAt a.file (recordStart k) r.encode).length := by
      rw [length_writeRecord hlen hk]
      exact recordStart_lt hk
    set a₁ : Active P := { a.storeLine fd l with file := writeAt a.file (recordStart k) r.encode }
      with ha₁
    have hwrite : ((a.storeLine fd l).writeRecord k r).lseekBack k = a₁ := by
      rw [writeRecord_lseekBack, ha₁, ← hoff]
      rfl
    have hpeek₁ : a₁.peek k = r := by
      rw [Active.peek, show a₁.proc.offset k = recordStart k from hoff]
      exact hback
    have hadv₁ : (a₁.advance k).lseekBack k = a₁ :=
      advance_lseekBack (by rw [show a₁.proc.offset k = recordStart k from hoff]; exact hin')
    simp only [hwrite, hpeek₁, hadv₁]
    rw [hangUp_eq (by simpa [ha₁, Active.storeLine, Active.write] using hconn)]
    refine .closes fd k (some ch) (.of_erase inv.wf rfl rfl rfl ?_ ?_ ?_) hk
      (by simp [Build.Loses]) hs ?_ ?_ ?_ ⟨l, rfl, rfl, hscan, hjudge, rfl, ?_⟩ ?_ rfl <;>
      simp +contextual [ha₁, hr, Active.storeLine, Active.write, Active.setSamewr, Active.setState,
        Active.unlock, Build.counter, hone, hoff]
  · -- rejected: one of three messages, the same effect
    split
    · exact rejectCommand_effect inv hk hs l (by simp) hrej
    · exact rejectCommand_effect inv hk hs l (by simp) hrej
    · exact rejectCommand_effect inv hk hs l (by simp) hrej
    · rename_i out hacc
      exact absurd (by rw [hacc]) hrej

/-- A line in state `ID` that is no id. -/
theorem badId_effect (inv : ProcInv b leak a.proc (a.locks p)) (hfd : fd ∈ a.proc.conns)
    (hid : a.proc.state fd = .id) (l : List UInt8) :
    Effect b p a (.line fd l) (((a.storeLine fd l).write fd .operationFailed).hangUp fd) := by
  have hconn := inv.wf.connFd fd hfd
  rw [hangUp_eq (by simpa [Active.storeLine, Active.write] using hconn)]
  refine .idle fd (.of_erase inv.wf rfl rfl rfl ?_ ?_ ?_) (by simp [Build.Loses]) (.inr hid)
    (.inl ?_) ?_ rfl rfl ?_ rfl
  case refine_5 => cases b <;> rfl
  all_goals simp +contextual [Active.storeLine, Active.write]

/-- The state of a process that has stored the number `id` of a line. -/
def Active.named (a : Active P) (fd : ℕ) (l : List UInt8) : Active P :=
  (a.storeLine fd l).setId fd (atoi l)

/-- The refusal of a session. -/
theorem refuse_effect (inv : ProcInv b leak a.proc (a.locks p)) (hfd : fd ∈ a.proc.conns)
    (hid : a.proc.state fd = .id) {k : ℕ} (hk : 1 ≤ k ∧ k ≤ 20) {l : List UInt8}
    (hl : atoi l = 902000 + k) (reason : ¬ Grantable a.locks p b.kind (recordStart k) recordSize ∨
      b = .writeServer ∧ b.counter a.proc k = 1) :
    Effect b p a (.line fd l)
      ((((a.named fd l).write fd .locked).hangUp fd).setState fd .hi) := by
  have hconn := inv.wf.connFd fd hfd
  rw [hangUp_eq (by simpa [Active.named, Active.setId, Active.storeLine, Active.write] using hconn)]
  refine .refuse fd l k (.of_erase inv.wf rfl rfl rfl ?_ ?_ ?_) hk hl ⟨hfd, hid⟩ ?_ ?_ reason ?_ rfl
    rfl
  case refine_6 => cases b <;> rfl
  all_goals
    simp +contextual [Active.named, Active.setId, Active.storeLine, Active.write, Active.setState]

/-- The beginning of a session, with the lock granted. -/
theorem open_effect (inv : ProcInv b leak a.proc (a.locks p)) (hfd : fd ∈ a.proc.conns)
    (hid : a.proc.state fd = .id) {k : ℕ} (hk : 1 ≤ k ∧ k ≤ 20) {l : List UInt8}
    (hl : atoi l = 902000 + k) (free : b = .writeServer → b.counter a.proc k = 0)
    (grant : Grantable a.locks p b.kind (recordStart k) recordSize) {c : Proc}
    (hcounter : b.counter c = Function.update (b.counter a.proc) k (b.counter a.proc k + 1))
    (hc : c = { (a.named fd l).proc with
      readlc := c.readlc
      samewr := c.samewr
      sent := Function.update a.proc.sent fd
        (a.proc.sent fd ++ [b.display (recordAt a.file k).bookingState])
      state := Function.update a.proc.state fd b.live }) :
    Effect b p a (.line fd l)
      ⟨c, a.file, setRange a.locks p (some b.kind) (recordStart k) recordSize⟩ := by
  have hconn := inv.wf.connFd fd hfd
  -- every field of `Opens` is read off from the one record update
  refine .opens fd l k (.of inv.wf ?_ ?_ ?_ ?_ ?_ ?_ ?_) hk hl ⟨hfd, hid⟩ ⟨?_, ?_, ?_⟩ ?_ free
    grant hcounter rfl rfl
  all_goals
    rw [hc]
    simp +contextual [Active.named, Active.setId, Active.storeLine, hfd, hl, hconn, inv.wf.master]

omit [DecidableEq P] in
/-- An id that is one names a record, at its place in the file. -/
theorem named_record (inv : ProcInv b leak a.proc (a.locks p)) (hlen : a.file.length = fileSize)
    (fd : ℕ) {l : List UInt8} (hcheck : checkid l = true) :
    ∃ k : ℕ, (1 ≤ k ∧ k ≤ 20) ∧ atoi l = 902000 + k ∧
      (a.named fd l).proc.offset k = recordStart k ∧
      bookIndex ((a.named fd l).proc.requestP fd).id = k ∧
      recordStart k + recordSize ≤ (a.named fd l).file.length := by
  obtain ⟨k, hk1, hk20, hl⟩ := checkid_atoi hcheck
  refine ⟨k, ⟨hk1, hk20⟩, hl, inv.wf.offset k hk1 hk20, ?_, ?_⟩
  · simpa [Active.named, Active.setId, hl] using bookIndex_id hk20
  · exact (recordStart_lt ⟨hk1, hk20⟩).trans_eq hlen.symm

/-- **An id line**, READ_SERVER build: it is no id, the lock is refused, or a session begins. -/
theorem readId_effect [Fintype P] (inv : ProcInv .readServer leak a.proc (a.locks p))
    (hlen : a.file.length = fileSize) (hfd : fd ∈ a.proc.conns) (hid : a.proc.state fd = .id)
    (l : List UInt8) :
    Effect .readServer p a (.line fd l) ((a.storeLine fd l).readId p fd) := by
  have hbuf : ((a.storeLine fd l).proc.requestP fd).buf = l := by simp [Active.storeLine]
  unfold Active.readId
  rw [hbuf]
  split
  · exact badId_effect inv hfd hid l
  · rename_i hcheck
    obtain ⟨k, ⟨hk1, hk20⟩, hl, hoff, hidx, hin⟩ :=
      named_record inv hlen fd (by simpa using hcheck)
    simp only [show (a.storeLine fd l).setId fd (atoi l) = a.named fd l from rfl, hidx,
      Active.setlk, hoff, show (a.named fd l).locks = a.locks from rfl]
    cases hlk : RecordLock.setlk a.locks p .read (recordStart k) recordSize with
    | none =>
      -- another process holds a write lock
      exact refuse_effect inv hfd hid ⟨hk1, hk20⟩ hl (.inl (setlk_eq_none.mp hlk))
    | some t =>
      obtain ⟨hgrant, rfl⟩ := setlk_eq_some.mp hlk
      simp only [Option.map_some]
      rw [advance_lseekBack (by simpa [Active.setReadlc, hoff] using hin)]
      -- granted: one more reader, and the record is shown
      refine open_effect inv hfd hid ⟨hk1, hk20⟩ hl (by simp) hgrant ?_ ?_
      · simp [Build.counter, Active.setReadlc, Active.write, Active.named,
          Active.setId, Active.storeLine]
      · have hpeek := peek_eq (a := a) inv.wf ⟨hk1, hk20⟩
        rw [Active.peek] at hpeek
        simp [Active.setReadlc, Active.write, Active.named, Active.setId,
          Active.storeLine, Active.peek, hpeek, Build.display, Build.live]

/-- **An id line**, WRITE_SERVER build: besides, the id may be in a session of this process. -/
theorem writeId_effect [Fintype P] (inv : ProcInv .writeServer leak a.proc (a.locks p))
    (hlen : a.file.length = fileSize) (hfd : fd ∈ a.proc.conns) (hid : a.proc.state fd = .id)
    (l : List UInt8) :
    Effect .writeServer p a (.line fd l) ((a.storeLine fd l).writeId p fd) := by
  have hbuf : ((a.storeLine fd l).proc.requestP fd).buf = l := by simp [Active.storeLine]
  unfold Active.writeId
  rw [hbuf]
  split
  · exact badId_effect inv hfd hid l
  · rename_i hcheck
    obtain ⟨k, ⟨hk1, hk20⟩, hl, hoff, hidx, hin⟩ :=
      named_record inv hlen fd (by simpa using hcheck)
    simp only [show (a.storeLine fd l).setId fd (atoi l) = a.named fd l from rfl, hidx,
      Active.setlk, hoff, show (a.named fd l).locks = a.locks from rfl]
    cases hlk : RecordLock.setlk a.locks p .write (recordStart k) recordSize with
    | none =>
      -- another process holds a lock
      exact refuse_effect inv hfd hid ⟨hk1, hk20⟩ hl (.inl (setlk_eq_none.mp hlk))
    | some t =>
      obtain ⟨hgrant, rfl⟩ := setlk_eq_some.mp hlk
      simp only [Option.map_some]
      split
      · -- the process holds the lock already: asking again has changed nothing
        rename_i hone
        have hone' : a.proc.samewr k = 1 := hone
        have hself : setRange a.locks p (some .write) (recordStart k) recordSize = a.locks := by
          apply setRange_eq_self
          intro i hi
          rw [inv.locked k hk1 hk20 i hi]
          simp [Build.counter, Build.kind, hone']
        rw [hself]
        exact refuse_effect inv hfd hid ⟨hk1, hk20⟩ hl (.inr ⟨rfl, hone'⟩)
      · rename_i hone
        have hle : a.proc.samewr k ≤ 1 := inv.single rfl k hk1 hk20
        have hge : 0 ≤ a.proc.samewr k := by
          have h := inv.counter k hk1 hk20
          simp only [Build.counter] at h
          omega
        have hne : a.proc.samewr k ≠ 1 := hone
        -- no session of this process has the record, so that this one opens it
        have hzero : a.proc.samewr k = 0 := by omega
        rw [advance_lseekBack (by simpa [Active.setSamewr, hoff] using hin)]
        refine open_effect inv hfd hid ⟨hk1, hk20⟩ hl (fun _ => hzero) hgrant ?_ ?_
        · simp [Build.counter, Active.setSamewr, Active.write, Active.named,
            Active.setId, Active.storeLine, hzero]
        · have hpeek := peek_eq (a := a) inv.wf ⟨hk1, hk20⟩
          rw [Active.peek] at hpeek
          simp [Active.setSamewr, Active.write, Active.named,
            Active.setId, Active.storeLine, Active.peek, hpeek, Build.display, Build.live]

/-- **Inversion of a step.**  Whatever a process that satisfies the invariant does, the step is
    one of the effects. -/
theorem handle_effect [Fintype P] {e : Event} (inv : ProcInv b leak a.proc (a.locks p))
    (hlen : a.file.length = fileSize) (h : a.handle b p e = some a') : Effect b p a e a' := by
  have hmaster := inv.wf.master
  cases e with
  | errExit => simp [Active.handle] at h
  | accept fd =>
    simp only [Active.handle] at h
    split at h
    · cases h
    · rename_i hfd
      cases h
      exact acceptConn_effect inv hfd
  | readError fd =>
    simp only [Active.handle, hmaster] at h
    split at h
    · rename_i hfd
      cases h
      exact readError_effect inv hfd
    · cases h
  | eof fd =>
    simp only [Active.handle, hmaster] at h
    split at h
    · rename_i hfd
      cases h
      cases b with
      | readServer => exact readEof_effect inv hfd
      | writeServer => exact writeEof_effect inv hfd
    · cases h
  | line fd l =>
    simp only [Active.handle, hmaster] at h
    split at h
    · rename_i hfd
      cases h
      have hstate : (a.storeLine fd l).proc.state fd = a.proc.state fd := rfl
      -- a line is an id first, and a command or `Exit` in a session
      rcases inv.session fd hfd with hid | ⟨k, hk1, hk20, hs⟩
      · cases b with
        | readServer =>
          simp only [Active.onLine, hstate, hid]
          exact readId_effect inv hlen hfd hid l
        | writeServer =>
          simp only [Active.onLine, hstate, hid]
          exact writeId_effect inv hlen hfd hid l
      · cases b with
        | readServer =>
          simp only [Active.onLine, hstate, hs.2.1, Build.live]
          exact readExit_effect inv ⟨hk1, hk20⟩ hs l
        | writeServer =>
          simp only [Active.onLine, hstate, hs.2.1, Build.live]
          exact writeCommand_effect inv hlen ⟨hk1, hk20⟩ hs l
    · cases h

end Handlers

end SystemProgramming.Booking
