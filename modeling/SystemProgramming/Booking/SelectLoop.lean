import SystemProgramming.Booking.Framing
import SystemProgramming.Booking.Locking
import SystemProgramming.Lib.DescriptorTable

namespace SystemProgramming.Booking

open DescriptorTable RecordLock Transition

/-!
# Booking servers — the select loop

The `while` loop of `main`, one step for each `select` and for each iteration of its `for` loop,
with the kernel's side of it: the descriptor numbers, the queue of connection requests and the bytes
that have arrived on each connection.  The steps of several servers and of their clients interleave
in any order.

* `mainStep` — what `main` does next, for an answer of the kernel;
* `Watches` — the invariant: every open connection is in `master` and at most `maxfd`, and every
  descriptor of `read_fds` that is still to come is ready and its connection is open;
* `select_loop_refines` — every run of the loops is a run of the servers' steps.
-/

/-! ### Sockets and descriptors -/

/-- How a connection ended on the client's side: it was closed, or reset. -/
inductive Ending where
  | fin
  | reset
  deriving DecidableEq, Repr

/-- The receiving end of a connection: the bytes that have arrived and were not read yet. -/
structure Socket where
  bytes : List UInt8
  ending : Option Ending
  deriving DecidableEq, Repr

/-- `select` finds the connection ready. -/
def Socket.readable (s : Socket) : Bool := s.bytes ≠ [] || s.ending.isSome

/-- `read(reqP->conn_fd, buf, sizeof(buf))`: what it returns, and the socket after it; `none` if it
    blocks. -/
def Socket.read (s : Socket) : Option (Option (List UInt8) × Socket) :=
  if s.bytes = [] then
    s.ending.map fun e => (if e = .fin then some [] else none, s)
  else some (some (s.bytes.take 512), { s with bytes := s.bytes.drop 512 })

/-- The descriptors a server is started with, and its `getdtablesize()`: an `fd_set` can hold that
    many, and they are enough for the listening socket and the 20 files of `book[]`. -/
structure Descriptors where
  inherited : Finset ℕ
  tableSize : ℕ
  fdSet : tableSize ≤ 1024
  room : ∀ fd ∈ openMore 21 inherited, fd < tableSize

namespace Descriptors

/-- `svr.listen_fd`, which is opened first. -/
def listenFd (d : Descriptors) : ℕ := lowestFree d.inherited

/-- The descriptors that are open all the time. -/
def kept (d : Descriptors) : Finset ℕ := openMore 21 d.inherited

/-- The number the next connection gets. -/
def nextFd (d : Descriptors) (c : Proc) : ℕ := lowestFree (d.kept ∪ c.conns)

/-- The listening socket is one of the descriptors that stay open. -/
theorem listenFd_mem (d : Descriptors) : d.listenFd ∈ d.kept :=
  subset_openMore 20 _ (Finset.mem_insert_self _ _)

/-- Connections have higher descriptors than the listening socket. -/
theorem listenFd_lt_nextFd (d : Descriptors) (c : Proc) : d.listenFd < d.nextFd c :=
  lt_of_openMore Finset.subset_union_left

/-- The lowest free descriptor is not that of a connection. -/
theorem nextFd_notMem (d : Descriptors) (c : Proc) : d.nextFd c ∉ c.conns := by
  intro hmem
  exact lowestFree_notMem _ (Finset.mem_union_right d.kept hmem)

end Descriptors

/-! ### The variables of the loop -/

/-- The variables of the loop, and what the kernel holds for the server. -/
structure Loop where
  maxfd : ℕ
  readFds : Finset ℕ
  /-- the `i` of the `for` loop; `none` at `select` -/
  i : Option ℕ
  backlog : ℕ
  socket : ℕ → Socket

namespace Loop

/-- The descriptor is ready: `accept` or `read` on it does not block. -/
def Ready (d : Descriptors) (l : Loop) (fd : ℕ) : Prop :=
  if fd = d.listenFd then 0 < l.backlog else (l.socket fd).readable = true

instance (d : Descriptors) (l : Loop) (fd : ℕ) : Decidable (l.Ready d fd) := by
  unfold Ready; infer_instance

/-- What `select(maxfd+1, &read_fds, NULL, NULL, NULL)` leaves in `read_fds`. -/
def selected (d : Descriptors) (l : Loop) (c : Proc) : Finset ℕ :=
  (insert d.listenFd c.master).filter fun fd => fd < l.maxfd + 1 ∧ l.Ready d fd

/-- The `for` loop has come to `fd`, and `FD_ISSET(fd, &read_fds)`. -/
def At (l : Loop) (fd : ℕ) : Prop := l.i = some fd ∧ fd ≤ l.maxfd ∧ fd ∈ l.readFds

instance (l : Loop) (fd : ℕ) : Decidable (l.At fd) := by
  unfold At; infer_instance

/-- `i++`. -/
def advance (l : Loop) : Loop := { l with i := l.i.map (· + 1) }

/-- The `read` of `handle_read`, on the descriptor in the request. -/
def read (l : Loop) (connFd : ℤ) : Option (Option (List UInt8) × Loop) :=
  if connFd < 0 then some (none, l)
  else (l.socket connFd.toNat).read.map fun r =>
    (r.1, { l with socket := Function.update l.socket connFd.toNat r.2 })

end Loop

/-! ### Steps of a server and of its clients -/

/-- What the clients of a server do. -/
inductive ClientAct where
  | connect
  | arrive (fd : ℕ) (bytes : List UInt8)
  | leave (fd : ℕ) (e : Ending)
  deriving DecidableEq, Repr

/-- What `main` does next, with the kernel's answer. -/
inductive MainAct where
  /-- `select` returns with this set -/
  | select (ready : Finset ℕ)
  | selectError
  /-- an iteration whose descriptor is not set, or the end of the `for` loop -/
  | next
  /-- `accept` returns `fd`; the connection's socket is `s` by then -/
  | accept (fd : ℕ) (s : Socket)
  /-- `accept` fails with `EINTR`, `EAGAIN` or `ENFILE` -/
  | acceptAgain
  | acceptError
  /-- `handle_read` on connection `fd`, with this memory behind its buffer -/
  | read (fd : ℕ) (beyond : List UInt8)

/-- A step of a server process or of one of its clients. -/
inductive Act where
  | client (e : ClientAct)
  | main (e : MainAct)

/-- What a client does to the kernel's side; it can write until it has ended the connection. -/
def clientStep (c : Proc) (l : Loop) : ClientAct → Option Loop
  | .connect => some { l with backlog := l.backlog + 1 }
  | .arrive fd bytes =>
    if fd ∈ c.conns ∧ (l.socket fd).ending = none then
      let s := { l.socket fd with bytes := (l.socket fd).bytes ++ bytes }
      some { l with socket := Function.update l.socket fd s }
    else none
  | .leave fd e =>
    if fd ∈ c.conns ∧ (l.socket fd).ending = none then
      some { l with socket := Function.update l.socket fd { l.socket fd with ending := some e } }
    else none

variable {P : Type} [DecidableEq P] [Fintype P]

/-- The branches of `main` for the return value of `handle_read`; `none` is its `ERR_EXIT`. -/
def Active.onRead (a : Active P) (b : Build) (p : P) (fd : ℕ) : ReadResult → Option (Active P)
  | .failed => some (a.hangUp fd)
  | .eof => some (a.onEof b p fd)
  | .line l => some ((a.storeLine fd l).onLine b p fd)
  | .errExit => none

/-- One step of `main`: `none` if this is not what it does next, or if it blocks; `some none` if it
    exits. -/
def mainStep (d : Descriptors) (b : Build) (p : P) (a : Active P) (l : Loop) :
    MainAct → Option (Option (Active P × Loop))
  | .select ready =>
    if l.i = none ∧ ready.Nonempty ∧ ready = l.selected d a.proc then
      some (some (a, { l with readFds := ready, i := some 0 }))
    else none
  | .selectError => if l.i = none then some none else none
  | .next =>
    match l.i with
    | none => none
    | some i =>
      if l.maxfd < i then some (some (a, { l with i := none }))
      else if i ∈ l.readFds then none
      else some (some (a, l.advance))
  | .accept fd s =>
    -- a full descriptor table is an error that `main` does not let pass (`EMFILE`)
    if l.At d.listenFd ∧ 0 < l.backlog ∧ fd = d.nextFd a.proc ∧ fd < d.tableSize then
      some (some (a.acceptConn fd, { l.advance with
        maxfd := if fd > l.maxfd then fd else l.maxfd
        backlog := l.backlog - 1
        socket := Function.update l.socket fd s }))
    else none
  | .acceptAgain => if l.At d.listenFd then some (some (a, l.advance)) else none
  | .acceptError => if l.At d.listenFd then some none else none
  | .read fd beyond =>
    if l.At fd ∧ fd ≠ d.listenFd then
      (l.read (a.proc.requestP fd).connFd).map fun r =>
        (a.onRead b p fd (handleRead beyond r.1)).map fun a' => (a', r.2.advance)
    else none

/-- The servers with their loops. -/
structure Host (P : Type) where
  world : World P
  loop : P → Loop

/-- Every process is about to enter its `while` loop, and nobody has connected yet. -/
def Host.start (d : P → Descriptors) (f : BookingFile) : Host P where
  world := World.start f
  loop p := ⟨(d p).listenFd, ∅, none, 0, fun _ => ⟨[], none⟩⟩

/-- One step of process `p` or of one of its clients. -/
def loopStep (d : P → Descriptors) (build : P → Build) (h : Host P) : P × Act → Option (Host P)
  | (p, act) =>
    (h.world.proc p).bind fun c =>
      match act with
      | .client e => (clientStep c (h.loop p) e).map fun l =>
          { h with loop := Function.update h.loop p l }
      | .main e => (mainStep (d p) (build p) p (h.world.active c) (h.loop p) e).map fun r =>
          match r with
          | none => { h with
              world.locks := dropAll h.world.locks p
              world.proc := Function.update h.world.proc p none }
          | some (a, l) =>
            ⟨⟨a.file, a.locks, Function.update h.world.proc p (some a.proc)⟩,
              Function.update h.loop p l⟩

/-! ### The steps of the servers behind a run -/

/-- The step of the server that a step of its loop takes, if it takes one. -/
def MainAct.event? (c : Proc) (l : Loop) : MainAct → Option Event
  | .select _ | .next | .acceptAgain => none
  | .selectError | .acceptError => some .errExit
  | .accept fd _ => some (.accept fd)
  | .read fd beyond =>
    (l.read (c.requestP fd).connFd).map fun r => (handleRead beyond r.1).event fd

/-- The same, for a step of the system. -/
def Host.event? (h : Host P) : P × Act → List (P × Event)
  | (_, .client _) => []
  | (p, .main e) =>
    (((h.world.proc p).bind fun c => e.event? c (h.loop p)).map fun e => (p, e)).toList

/-! ### What the loop watches -/

/-- **The invariant of the loop** of a running server. -/
structure Loop.Watches (d : Descriptors) (l : Loop) (c : Proc) : Prop where
  master : c.master = c.conns
  conns : ∀ fd ∈ c.conns, d.listenFd < fd ∧ fd ≤ l.maxfd
  listen : d.listenFd ≤ l.maxfd
  table : l.maxfd < d.tableSize
  coming : ∀ i, l.i = some i → ∀ fd ∈ l.readFds, i ≤ fd →
    l.Ready d fd ∧ (fd = d.listenFd ∨ fd ∈ c.conns)

variable {d : Descriptors} {l l' : Loop} {c c' : Proc}

/-- The listening socket is in the table. -/
theorem Descriptors.listenFd_lt_tableSize (d : Descriptors) : d.listenFd < d.tableSize :=
  d.room _ d.listenFd_mem

/-- A ready connection's `read` returns. -/
theorem Socket.read_isSome {s : Socket} (h : s.readable = true) : s.read.isSome = true := by
  unfold Socket.read
  split
  · rename_i hbytes
    simpa [Socket.readable, hbytes] using h
  · rfl

/-- What the loop does to the clients' side leaves every ready descriptor ready, and the loop where
    it is. -/
structure Loop.Grows (l l' : Loop) : Prop where
  maxfd : l'.maxfd = l.maxfd
  readFds : l'.readFds = l.readFds
  i : l'.i = l.i
  backlog : l.backlog ≤ l'.backlog
  socket : ∀ fd, (l.socket fd).readable = true → (l'.socket fd).readable = true

/-- A client only adds to what has arrived. -/
theorem clientStep_grows {e : ClientAct} (h : clientStep c l e = some l') : l.Grows l' := by
  cases e with
  | connect =>
    cases h
    exact ⟨rfl, rfl, rfl, Nat.le_succ _, fun _ hfd => hfd⟩
  | arrive fd bytes =>
    obtain ⟨-, hl⟩ := Option.ite_none_right_eq_some.mp h
    cases hl
    -- bytes that arrive make a socket readable and never take that away
    refine ⟨rfl, rfl, rfl, le_rfl, fun x hx => ?_⟩
    by_cases hxfd : x = fd
    · subst hxfd
      simp only [Function.update_self, Socket.readable, Bool.or_eq_true, decide_eq_true_eq] at hx ⊢
      exact hx.imp_left fun hne => by simp [hne]
    · simpa [Function.update_of_ne hxfd] using hx
  | leave fd e =>
    obtain ⟨-, hl⟩ := Option.ite_none_right_eq_some.mp h
    cases hl
    -- a socket that is left stays readable: `read` returns at once
    refine ⟨rfl, rfl, rfl, le_rfl, fun x hx => ?_⟩
    by_cases hxfd : x = fd
    · subst hxfd
      simp [Socket.readable]
    · simpa [Function.update_of_ne hxfd] using hx

/-- What is ready stays so when more arrives. -/
theorem Loop.Grows.ready (h : l.Grows l') {fd : ℕ} (hfd : l.Ready d fd) : l'.Ready d fd := by
  unfold Ready at hfd ⊢
  split at hfd
  · rename_i heq
    rw [if_pos heq]
    exact hfd.trans_le h.backlog
  · rename_i hne
    rw [if_neg hne]
    exact h.socket fd hfd

/-- What is watched does not depend on what has arrived. -/
theorem Loop.Watches.grows (w : l.Watches d c) (h : l.Grows l') : l'.Watches d c where
  master := w.master
  conns := by rw [h.maxfd]; exact w.conns
  listen := by rw [h.maxfd]; exact w.listen
  table := by rw [h.maxfd]; exact w.table
  coming := by
    intro i hi fd hfd hle
    rw [h.i] at hi
    rw [h.readFds] at hfd
    exact (w.coming i hi fd hfd hle).imp_left h.ready

/-- The loop goes on to the next descriptor; nothing that is still to come has changed. -/
theorem Loop.Watches.advance {i : ℕ} (w : l.Watches d c) (hi : l.i = some i)
    (master : c'.master = c'.conns) (conns : ∀ fd ∈ c'.conns, d.listenFd < fd ∧ fd ≤ l'.maxfd)
    (listen : d.listenFd ≤ l'.maxfd) (table : l'.maxfd < d.tableSize)
    (readFds : l'.readFds = l.readFds) (next : l'.i = some (i + 1))
    (ready : ∀ fd ∈ l.readFds, i < fd → l.Ready d fd → l'.Ready d fd)
    (kept : ∀ fd ∈ c.conns, i < fd → fd ∈ c'.conns) : l'.Watches d c' where
  master := master
  conns := conns
  listen := listen
  table := table
  coming := by
    intro j hj fd hfd hle
    rw [next] at hj
    cases hj
    -- what waits behind `i + 1` waits behind `i`
    rw [readFds] at hfd
    obtain ⟨hready, hopen⟩ := w.coming i hi fd hfd (by omega)
    exact ⟨ready fd hfd (by omega) hready, hopen.imp_right fun h => kept fd h (by omega)⟩

section Steps

variable {P : Type} [DecidableEq P] [Fintype P] {b : Build} {p : P} {a a' : Active P}
  {leak : ℕ → ℕ}

/-- The branch for a return value of `handle_read` is what the server does for its event. -/
theorem handle_of_onRead {fd : ℕ} {r : ReadResult} (hfd : fd ∈ a.proc.master)
    (h : a.onRead b p fd r = some a') : a.handle b p (r.event fd) = some a' := by
  cases r with
  | failed | eof | line l => simpa [Active.onRead, ReadResult.event, Active.handle, hfd] using h
  | errExit => cases h

/-- A read that ends the process is the one without a newline. -/
theorem onRead_eq_none {fd : ℕ} {r : ReadResult} (h : a.onRead b p fd r = none) :
    r.event fd = .errExit := by
  cases r with
  | failed | eof | line l => cases h
  | errExit => rfl

/-- Other reads are events on their connection. -/
theorem event_fd {fd : ℕ} {r : ReadResult} (h : a.onRead b p fd r = some a') :
    (r.event fd).fd? = some fd := by
  cases r with
  | failed | eof | line l => rfl
  | errExit => cases h

/-- `main` exits in an `ERR_EXIT` only. -/
theorem mainStep_exits {e : MainAct} (h : mainStep d b p a l e = some none) :
    e.event? a.proc l = some .errExit := by
  cases e with
  | select ready =>
    obtain ⟨-, hr⟩ := Option.ite_none_right_eq_some.mp h
    cases hr
  | selectError | acceptError => rfl
  -- leaving the loop over the descriptors or going on in it calls no handler
  | next =>
    simp only [mainStep] at h
    split at h
    · cases h
    · split at h
      · cases h
      · split at h <;> cases h
  | accept fd s =>
    obtain ⟨-, hr⟩ := Option.ite_none_right_eq_some.mp h
    cases hr
  | acceptAgain =>
    obtain ⟨-, hr⟩ := Option.ite_none_right_eq_some.mp h
    cases hr
  -- `read` is the one place where the process itself may end
  | read fd beyond =>
    obtain ⟨-, hr⟩ := Option.ite_none_right_eq_some.mp h
    obtain ⟨r, hread, hon⟩ := Option.map_eq_some_iff.mp hr
    rw [Option.map_eq_none_iff] at hon
    rw [MainAct.event?, hread, Option.map_some, onRead_eq_none hon]

/-- A `read` leaves the variables of the loop alone. -/
theorem Loop.read_keeps {connFd : ℤ} {r : Option (List UInt8)} (h : l.read connFd = some (r, l')) :
    l'.i = l.i ∧ l'.readFds = l.readFds ∧ l'.maxfd = l.maxfd := by
  unfold Loop.read at h
  split at h
  · cases h
    exact ⟨rfl, rfl, rfl⟩
  · obtain ⟨s, -, heq⟩ := Option.map_eq_some_iff.mp h
    cases heq
    exact ⟨rfl, rfl, rfl⟩

/-- `read` on a connection: what the kernel returns, and the loop after it. -/
theorem Loop.read_eq {fd : ℕ} {r : Option (List UInt8)} (h : l.read fd = some (r, l')) :
    ∃ s, (l.socket fd).read = some (r, s) ∧
      l' = { l with socket := Function.update l.socket fd s } := by
  have hneg : ¬ ((fd : ℤ) < 0) := by omega
  rw [Loop.read, if_neg hneg, Int.toNat_natCast] at h
  obtain ⟨⟨r', s⟩, hs, heq⟩ := Option.map_eq_some_iff.mp h
  cases heq
  exact ⟨s, hs, rfl⟩

/-- The `for` loop has come to a ready descriptor that is no connection request: to an open
    connection. -/
theorem Loop.Watches.at_conn {fd : ℕ} (w : l.Watches d c) (hat : l.At fd) (hne : fd ≠ d.listenFd) :
    fd ∈ c.conns := by
  obtain ⟨hi, -, hset⟩ := hat
  obtain ⟨-, hopen⟩ := w.coming fd hi fd hset le_rfl
  exact hopen.resolve_left hne

/-- The `accept` or `read` the `for` loop has come to does not block. -/
theorem Loop.Watches.returns {fd : ℕ} (w : l.Watches d c) (wf : c.Wf) (hat : l.At fd) :
    if fd = d.listenFd then 0 < l.backlog
    else (l.read (c.requestP fd).connFd).isSome = true := by
  obtain ⟨hready, -⟩ := w.coming fd hat.1 fd hat.2.2 le_rfl
  split
  · rename_i heq
    rwa [Ready, if_pos heq] at hready
  · rename_i hne
    rw [Ready, if_neg hne] at hready
    have hneg : ¬ ((fd : ℤ) < 0) := by omega
    rw [wf.connFd fd (w.at_conn hat hne), Loop.read, if_neg hneg, Option.isSome_map,
      Int.toNat_natCast]
    exact Socket.read_isSome hready

omit [DecidableEq P] [Fintype P] in
/-- Accepting a connection. -/
theorem Loop.Watches.accept {s : Socket} (w : l.Watches d a.proc) (hi : l.i = some d.listenFd)
    (hroom : d.nextFd a.proc < d.tableSize) :
    ({ l.advance with
        maxfd := if d.nextFd a.proc > l.maxfd then d.nextFd a.proc else l.maxfd
        backlog := l.backlog - 1
        socket := Function.update l.socket (d.nextFd a.proc) s } : Loop).Watches d
      (a.acceptConn (d.nextFd a.proc)).proc := by
  have hlt := d.listenFd_lt_nextFd a.proc
  have hle : l.maxfd ≤ if d.nextFd a.proc > l.maxfd then d.nextFd a.proc else l.maxfd := by
    split <;> omega
  refine w.advance hi ?_ (fun fd hfd => ?_) (w.listen.trans hle) ?_ rfl (by simp [Loop.advance, hi])
    (fun fd hfd hgt hready => ?_) (fun fd hfd _ => Finset.mem_insert_of_mem hfd)
  · show insert _ a.proc.master = insert _ a.proc.conns
    rw [w.master]
  · rcases Finset.mem_insert.mp hfd with rfl | hfd
    · refine ⟨hlt, ?_⟩
      show _ ≤ if _ then _ else _
      split <;> omega
    · exact ⟨(w.conns fd hfd).1, (w.conns fd hfd).2.trans hle⟩
  · have htable := w.table
    show (if _ then _ else _) < _
    split <;> omega
  · -- a descriptor still to come is open already, so that it is not the new one
    obtain ⟨-, hopen⟩ := w.coming _ hi fd hfd hgt.le
    have hconn : fd ∈ a.proc.conns := hopen.resolve_left hgt.ne'
    have hnew : fd ≠ d.nextFd a.proc := fun heq => d.nextFd_notMem a.proc (heq ▸ hconn)
    simpa [Ready, hgt.ne', Function.update_of_ne hnew] using hready

/-- Serving a connection. -/
theorem Loop.Watches.serve {fd : ℕ} {s : Socket} (w : l.Watches d c) (hat : l.At fd)
    (hne : fd ≠ d.listenFd) (frame : Frame fd c c') :
    ({ l with socket := Function.update l.socket fd s } : Loop).advance.Watches d c' := by
  have hfd := w.at_conn hat hne
  refine w.advance hat.1 frame.wf.master (fun x hx => ?_) w.listen w.table rfl
    (by simp [Loop.advance, hat.1]) (fun x hx hgt hready => ?_)
    (fun x hx hgt => (frame.conns x hgt.ne').mpr hx)
  · by_cases hxfd : x = fd
    · exact w.conns x (hxfd ▸ hfd)
    · exact w.conns x ((frame.conns x hxfd).mp hx)
  · simpa [Ready, Loop.advance, Function.update_of_ne hgt.ne'] using hready

/-- **A step of `main`** keeps the invariant of the loop, and does nothing else to the server or
    what the server does for one event. -/
theorem mainStep_goesOn (inv : ProcInv b leak a.proc (a.locks p))
    (hlen : a.file.length = fileSize) (w : l.Watches d a.proc) {e : MainAct}
    (h : mainStep d b p a l e = some (some (a', l'))) :
    l'.Watches d a'.proc ∧ (e.event? a.proc l = none ∧ a' = a ∨
      ∃ e', e.event? a.proc l = some e' ∧ a.handle b p e' = some a') := by
  cases e with
  | select ready =>
    obtain ⟨⟨-, -, rfl⟩, hr⟩ := Option.ite_none_right_eq_some.mp h
    cases hr
    -- `select` copies the sets: every descriptor it reports is open and ready
    refine ⟨⟨w.master, w.conns, w.listen, w.table, ?_⟩, .inl ⟨rfl, rfl⟩⟩
    intro i _ fd hfd _
    obtain ⟨hset, -, hready⟩ := Finset.mem_filter.mp hfd
    rw [Finset.mem_insert, w.master] at hset
    exact ⟨hready, hset⟩
  | selectError | acceptError =>
    obtain ⟨-, hr⟩ := Option.ite_none_right_eq_some.mp h
    cases hr
  | next =>
    simp only [mainStep] at h
    split at h
    · cases h
    · -- past `maxfd` the round ends, else the descriptor `i` is skipped
      rename_i i hi
      split at h
      · cases h
        exact ⟨⟨w.master, w.conns, w.listen, w.table, by simp⟩, .inl ⟨rfl, rfl⟩⟩
      · split at h
        · cases h
        · cases h
          exact ⟨w.advance hi w.master w.conns w.listen w.table rfl (by simp [Loop.advance, hi])
            (fun _ _ _ hready => hready) (fun _ hfd _ => hfd), .inl ⟨rfl, rfl⟩⟩
  | accept fd s =>
    obtain ⟨⟨⟨hi, -, -⟩, -, rfl, hroom⟩, hr⟩ := Option.ite_none_right_eq_some.mp h
    cases hr
    -- the new descriptor is the least free one, so it is on no connection
    refine ⟨w.accept hi hroom, .inr ⟨_, rfl, ?_⟩⟩
    rw [Active.handle, if_neg (d.nextFd_notMem a.proc)]
  | acceptAgain =>
    obtain ⟨⟨hi, -, -⟩, hr⟩ := Option.ite_none_right_eq_some.mp h
    cases hr
    exact ⟨w.advance hi w.master w.conns w.listen w.table rfl (by simp [Loop.advance, hi])
      (fun _ _ _ hready => hready) (fun _ hfd _ => hfd), .inl ⟨rfl, rfl⟩⟩
  | read fd beyond =>
    obtain ⟨⟨hat, hne⟩, hr⟩ := Option.ite_none_right_eq_some.mp h
    obtain ⟨⟨r, l₁⟩, hread, hon⟩ := Option.map_eq_some_iff.mp hr
    obtain ⟨a₁, ha₁, heq⟩ := Option.map_eq_some_iff.mp hon
    cases heq
    -- the descriptor is open, so the handler runs on its connection
    have hfd := w.at_conn hat hne
    have hhandle := handle_of_onRead (w.master ▸ hfd) ha₁
    have hframe := (handle_effect inv hlen hhandle).frame (event_fd ha₁)
    refine ⟨?_, .inr ⟨_, by rw [MainAct.event?, hread, Option.map_some], hhandle⟩⟩
    rw [inv.wf.connFd fd hfd] at hread
    obtain ⟨s, -, rfl⟩ := Loop.read_eq hread
    exact w.serve hat hne hframe

end Steps

/-! ### Runs of the loops -/

section Runs

variable {P : Type} [DecidableEq P] [Fintype P] {D : P → Descriptors} {build : P → Build}
  {h h' : Host P}

/-- **The invariant of the host**: that of the servers, and that of each loop. -/
structure Host.Inv (D : P → Descriptors) (build : P → Build) (h : Host P) : Prop where
  world : h.world.Inv build
  watches : ∀ p c, h.world.proc p = some c → (h.loop p).Watches (D p) c

omit [DecidableEq P] [Fintype P] in
/-- At the start, the servers watch their listening sockets only. -/
theorem Host.start_inv (f : BookingFile) : (Host.start D f).Inv D build where
  world := World.start_inv f
  watches := by
    intro p c hc
    cases hc
    exact ⟨rfl, by simp [Proc.init], le_rfl, (D p).listenFd_lt_tableSize, by simp [Host.start]⟩

omit [Fintype P] in
/-- A server with its loop is put back; the other loops still watch. -/
theorem Host.Inv.put (inv : h.Inv D build) {p : P} {w' : World P} {l : Loop}
    (world : w'.Inv build) (own : ∀ c, w'.proc p = some c → l.Watches (D p) c)
    (others : ∀ q, q ≠ p → w'.proc q = h.world.proc q) :
    Host.Inv D build ⟨w', Function.update h.loop p l⟩ where
  world := world
  watches := by
    intro q c hq
    by_cases hqp : q = p
    · subst hqp
      simpa using own c hq
    · simpa [Function.update_of_ne hqp] using inv.watches q c ((others q hqp) ▸ hq)

/-- **One step of a loop is at most one step of its server.** -/
theorem loopStep_refines (inv : h.Inv D build) {pa : P × Act} (hs : loopStep D build h pa = some h') :
    h'.Inv D build ∧ runFrom (step build) h.world (h.event? pa) = some h'.world := by
  obtain ⟨p, act⟩ := pa
  obtain ⟨c, hc, hstep⟩ := Option.bind_eq_some_iff.mp hs
  obtain ⟨leak, hproc⟩ := inv.world.proc p c hc
  have hwatch := inv.watches p c hc
  -- a client changes only its own sockets, the main loop takes a step of `step` or none
  cases act with
  | client e =>
    obtain ⟨l, hl, rfl⟩ := Option.map_eq_some_iff.mp hstep
    refine ⟨inv.put inv.world (fun c' hc' => ?_) fun _ _ => rfl, rfl⟩
    cases hc.symm.trans hc'
    exact hwatch.grows (clientStep_grows hl)
  | main e =>
    obtain ⟨r, hr, rfl⟩ := Option.map_eq_some_iff.mp hstep
    cases r with
    | none =>
      -- a failing call ends the process, as `errExit` does
      have hevent := mainStep_exits hr
      have hrun : step build h.world (p, .errExit) = some { h.world with
          locks := dropAll h.world.locks p
          proc := Function.update h.world.proc p none } := by
        simp [step, hc]
      refine ⟨⟨step_inv inv.world hrun, fun q c' hq => ?_⟩, ?_⟩
      · by_cases hqp : q = p
        · subst hqp
          simp at hq
        · exact inv.watches q c' (by simpa [Function.update_of_ne hqp] using hq)
      · simp only [Host.event?, hc, Option.bind_some]
        rw [show e.event? c (h.loop p) = some .errExit from hevent]
        simp [runFrom_cons, hrun]
    | some al =>
      obtain ⟨a, l⟩ := al
      obtain ⟨hwatch', hevent⟩ := mainStep_goesOn hproc inv.world.size hwatch hr
      have hrun : runFrom (step build) h.world (h.event? (p, .main e)) =
          some ⟨a.file, a.locks, Function.update h.world.proc p (some a.proc)⟩ := by
        simp only [Host.event?, hc, Option.bind_some]
        -- either no handler was called and nothing changed, or the event was handled
        rcases hevent with ⟨hnone, rfl⟩ | ⟨e', he', hhandle⟩
        · rw [show e.event? c (h.loop p) = none from hnone]
          simp [World.active, ← hc]
        · rw [show e.event? c (h.loop p) = some e' from he']
          have hne : e' ≠ .errExit := by rintro rfl; simp [Active.handle] at hhandle
          have hhandle' : Active.handle ⟨c, h.world.file, h.world.locks⟩ (build p) p e' = some a :=
            hhandle
          simp [runFrom_cons, step, hc, hne, hhandle']
      have hworld := runFrom_invariant (fun _ _ _ i hs => step_inv i hs) inv.world hrun
      refine ⟨inv.put hworld (fun c' hc' => ?_) fun q hq => ?_, hrun⟩
      · simp only [Function.update_self, Option.some.injEq] at hc'
        exact hc' ▸ hwatch'
      · simp [Function.update_of_ne hq]

/-- **The select loops refine the servers' steps.**  Behind every run of the loops and their clients
    stands a run of the servers; the loop of every server that is still running watches the
    listening socket and every open connection, all within its descriptor table; and the `accept`
    or `read` it has come to does not block. -/
theorem select_loop_refines (D : P → Descriptors) (build : P → Build) (f : BookingFile)
    (acts : List (P × Act)) (h : Host P)
    (hrun : runFrom (loopStep D build) (Host.start D f) acts = some h) :
    runFrom (step build) (World.start f)
        (labelsOf (loopStep D build) Host.event? (Host.start D f) acts) = some h.world ∧
      ∀ p c, h.world.proc p = some c → (h.loop p).Watches (D p) c ∧
        ∀ fd, (h.loop p).At fd →
          if fd = (D p).listenFd then 0 < (h.loop p).backlog
          else ((h.loop p).read (c.requestP fd).connFd).isSome = true := by
  have hstart : (Host.start D f).Inv D build := Host.start_inv f
  obtain ⟨inv, hbelow⟩ := runFrom_refines (fun _ _ _ inv hs => loopStep_refines inv hs) hstart hrun
  refine ⟨hbelow, fun p c hc => ⟨inv.watches p c hc, fun fd hat => ?_⟩⟩
  obtain ⟨leak, hproc⟩ := inv.world.proc p c hc
  exact (inv.watches p c hc).returns hproc.wf hat

end Runs

/-- A server with `stdin`, `stdout` and `stderr`; it listens on 3, and its files are 4 to 23. -/
def threeInherited : Descriptors where
  inherited := {0, 1, 2}
  tableSize := 1024
  fdSet := le_rfl
  room := by decide +kernel

/-- Iterations of server 0 without a ready descriptor. -/
def idle (n : ℕ) : List (Fin 2 × Act) := List.replicate n (0, .main .next)

/-- A client connects to server 0 and sends its id. -/
def connecting : List (Fin 2 × Act) :=
  [(0, .client .connect), (0, .main (.select {3}))] ++ idle 3 ++
    [(0, .main (.accept 24 ⟨[], none⟩))] ++ idle 22 ++
    [(0, .client (.arrive 24 (ascii "902001" ++ [13, 10])))]

/-- The state that leads to. -/
def connectedHost : Host (Fin 2) :=
  endOf (loopStep (fun _ => threeInherited) twoServers) (Host.start (fun _ => threeInherited) .zero)
    connecting

/-- So far the server has accepted the client, and nothing else; the two runs agree by the theorem. -/
theorem select_loop_refines_connecting :
    labelsOf (loopStep (fun _ => threeInherited) twoServers) Host.event?
        (Host.start (fun _ => threeInherited) .zero) connecting = [(0, .accept 24)] ∧
      runFrom (step twoServers) (World.start .zero)
        (labelsOf (loopStep (fun _ => threeInherited) twoServers) Host.event?
          (Host.start (fun _ => threeInherited) .zero) connecting) = some connectedHost.world :=
  ⟨by decide +kernel, (select_loop_refines (fun _ => threeInherited) twoServers .zero connecting
    connectedHost (runFrom_endOf (by decide +kernel))).1⟩

end SystemProgramming.Booking
