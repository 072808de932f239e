import Mathlib.Data.Finset.Basic
import SystemProgramming.Lib.Program
import SystemProgramming.Lib.SlotArray

namespace SystemProgramming.Threads

open Program

/-!
# Thread library — the scheduler

The thread library of `threadtools.h` and `scheduler.c`: threads are tcbs on the heap, the
ready and the waiting queue are arrays of `THREAD_MAX` pointers to them, and every switch goes
through `scheduler()`, which is entered by `longjmp(sched_buf, k)` with

* `k = 1` from the signal handler, while a thread is in `thread_yield`;
* `k = 2` from `async_read`;
* `k = 3` from `thread_exit`.

An operation ends in `Except.error` where the program cannot go on: with a `fault` where C has no
meaning for what it does (an index past an array, `NULL` or a freed tcb dereferenced), with
`exit` after a failed `select`, and with `blocked` when `select` without a timeout is told that
none of its descriptors is ready, so that it does not return.

The model keeps a `trace` of what the scheduler did.  Closing and unlinking a thread's FIFO, the
printed texts and the signal masks concern no queue and are left out.
-/

/-- `THREAD_MAX`. -/
def threadMax : ℕ := 16

/-- `BUF_SIZE`. -/
def bufSize : ℕ := 512

/-- The address of a tcb; `malloc` hands out `0, 1, 2, …`. -/
abbrev Ptr := ℕ

/-- `struct tcb *queue[THREAD_MAX]`. -/
abbrev Queue := SlotArray threadMax Ptr

/-- The places where a thread function calls `setjmp`. -/
inductive Jump
  | setup
  | yield
  | read
  deriving DecidableEq, Repr

/-- A saved `jmp_buf`: the call of a thread function (numbered like its tcb) and the place in it. -/
structure Context where
  thread : Ptr
  jump : Jump
  deriving DecidableEq, Repr

/-- `struct tcb`. -/
structure Tcb where
  id : Int32
  environment : Context
  arg : Int32
  fd : ℕ
  buf : Fin bufSize → UInt8
  i : Int32
  x : Int32
  y : Int32
  sum : Int32

/-- A use of memory that C gives no meaning. -/
inductive Fault
  | index
  | null
  | freed
  deriving DecidableEq, Repr

/-- Why an operation does not end. -/
inductive Stop
  | fault (f : Fault)
  | exit
  | blocked
  | notRunning
  deriving DecidableEq, Repr

/-- What `select` is told by the kernel: an error, or the descriptors that are readable. -/
inductive Outcome
  | error
  | ready (fds : Finset ℕ)
  deriving DecidableEq

/-- What the scheduler does, as its trace records it: a `select` and the descriptors it reported,
    a thread put into the waiting queue, freed, or jumped to. -/
inductive Action
  | select (ready : Finset ℕ)
  | park (slot : Option Ptr)
  | exit (slot : Option Ptr)
  | resume (slot : Option Ptr)
  deriving DecidableEq

/-- Who executes: `main` before it calls `scheduler`, a thread, or `main` after that call. -/
inductive Control
  | main
  | running (c : Context)
  | returned
  deriving DecidableEq

/-- The globals of the library, the heap of tcbs and the flow of control. -/
structure Sched where
  readyQueue : Queue
  waitingQueue : Queue
  rqSize : ℕ
  rqCurrent : ℕ
  wqSize : ℕ
  heap : Ptr → Option Tcb
  malloced : ℕ
  control : Control
  trace : List Action

namespace Sched

/-- The zero-initialised globals at the start of `main`. -/
def empty : Sched where
  readyQueue := .ofList []
  waitingQueue := .ofList []
  rqSize := 0
  rqCurrent := 0
  wqSize := 0
  heap := fun _ => none
  malloced := 0
  control := .main
  trace := []

/-- The tcb that a queue slot points to. -/
def deref (s : Sched) : Option Ptr → Except Stop Tcb
  | none => .error (.fault .null)
  | some p =>
    match s.heap p with
    | none => .error (.fault .freed)
    | some t => .ok t

/-- `*slot = t`. -/
def assign (s : Sched) (slot : Option Ptr) (t : Tcb) : Sched :=
  match slot with
  | none => s
  | some p => { s with heap := Function.update s.heap p (some t) }

/-- `free(slot)`. -/
def free (s : Sched) : Option Ptr → Except Stop Sched
  | none => .ok s
  | some p =>
    match s.heap p with
    | none => .error (.fault .freed)
    | some _ => .ok { s with heap := Function.update s.heap p none }

/-- Append to the trace. -/
def log (s : Sched) (a : Action) : Sched := { s with trace := s.trace ++ [a] }

/-- `RUNNING`, that is `ready_queue[rq_current]`. -/
def running (s : Sched) : Except Stop (Option Ptr) :=
  s.readyQueue.load (.fault .index) s.rqCurrent

/-- `longjmp(RUNNING->environment, 1)`. -/
def resume (s : Sched) : Except Stop Sched := do
  let slot ← s.running
  let t ← s.deref slot
  .ok { s.log (.resume slot) with control := .running t.environment }

/-! ### `reorderwaiting` -/

/-- The first loop: `FD_SET` of a waiting descriptor, and the largest descriptor so far. -/
def collectFd (s : Sched) (acc : Finset ℕ × ℕ) (i : ℕ) : Except Stop (Finset ℕ × ℕ) := do
  let (readFds, maxfd) := acc
  let t ← s.deref (← s.waitingQueue.load (.fault .index) i)
  .ok (insert t.fd readFds, if t.fd > maxfd then t.fd else maxfd)

/-- `select(nfds, &read_fds, NULL, NULL, …)`, without a timeout when `block`: the descriptors of
    `read_fds` that are ready.  Without a timeout it returns only when there is one. -/
def select (nfds : ℕ) (readFds : Finset ℕ) (block : Bool) : Outcome → Except Stop (Finset ℕ)
  | .error => .error .exit
  | .ready fds =>
    let found := readFds.filter fun fd => fd < nfds ∧ fd ∈ fds
    if block ∧ found = ∅ then .error .blocked else .ok found

/-- The second loop: the waiting threads whose descriptor was reported go to the end of the ready
    queue and leave `NULL` behind. -/
def moveReady (found : Finset ℕ) (s : Sched) (i : ℕ) : Except Stop Sched := do
  let slot ← s.waitingQueue.load (.fault .index) i
  let t ← s.deref slot
  if t.fd ∈ found then
    -- there is no bound check: the store faults when the ready queue is full
    let ready ← s.readyQueue.store (.fault .index) s.rqSize slot
    let waiting ← s.waitingQueue.store (.fault .index) i none
    .ok { s with readyQueue := ready, rqSize := s.rqSize + 1, waitingQueue := waiting }
  else
    .ok s

/-- The third loop: close the gaps of the waiting queue.  The state is the queue and `cur`. -/
def closeGap (qc : Queue × ℕ) (i : ℕ) : Except Stop (Queue × ℕ) := do
  let (q, cur) := qc
  let slot ← q.load (.fault .index) i
  if slot = none then
    .ok (q, cur)
  else
    let q ← q.store (.fault .index) cur slot
    let q ← if cur ≠ i then q.store (.fault .index) i none else .ok q
    .ok (q, cur + 1)

/-- `reorderwaiting(n)`; `block` is `n != 0`. -/
def reorderwaiting (s : Sched) (block : Bool) (o : Outcome) : Except Stop Sched := do
  let (readFds, maxfd) ← forRange s.wqSize s.collectFd (∅, 0)
  let found ← select (maxfd + 1) readFds block o
  let s ← forRange s.wqSize (moveReady found) (s.log (.select found))
  let (q, cur) ← forRange s.wqSize closeGap (s.waitingQueue, 0)
  .ok { s with waitingQueue := q, wqSize := cur }

/-! ### `scheduler` -/

/-- `if(wq_size > 0) reorderwaiting(0);` -/
def poll (s : Sched) (o : Outcome) : Except Stop Sched :=
  if s.wqSize > 0 then s.reorderwaiting false o else .ok s

/-- `rq_current` moves to the next slot, from the last one back to the first. -/
def advance (s : Sched) : Sched :=
  { s with rqCurrent := if s.rqCurrent + 1 = s.rqSize then 0 else s.rqCurrent + 1 }

/-- `waiting_queue[wq_size] = ready_queue[rq_current]; wq_size += 1;` -/
def park (s : Sched) : Except Stop Sched := do
  let slot ← s.running
  let q ← s.waitingQueue.store (.fault .index) s.wqSize slot
  .ok { s.log (.park slot) with waitingQueue := q, wqSize := s.wqSize + 1 }

/-- `free(ready_queue[rq_current]);` -/
def freeCurrent (s : Sched) : Except Stop Sched := do
  let slot ← s.running
  let s ← s.free slot
  .ok (s.log (.exit slot))

/-- `ready_queue[rq_current] = NULL; rq_size -= 1;` -/
def clearCurrent (s : Sched) : Except Stop Sched := do
  let q ← s.readyQueue.store (.fault .index) s.rqCurrent none
  .ok { s with readyQueue := q, rqSize := s.rqSize - 1 }

/-- The end of entries 2 and 3: wait when no thread is ready, else move the last ready thread into
    the cleared slot, or go back to the first slot when the cleared one was the last. -/
def refill (s : Sched) (o : Outcome) : Except Stop Sched :=
  -- nothing is ready: wait for a thread in the waiting queue
  if s.rqSize = 0 then
    { s with rqCurrent := 0 }.reorderwaiting true o
  -- the last ready thread fills the hole
  else if s.rqCurrent ≠ s.rqSize then do
    let last ← s.readyQueue.load (.fault .index) s.rqSize
    let q ← s.readyQueue.store (.fault .index) s.rqCurrent last
    let q ← q.store (.fault .index) s.rqSize none
    .ok { s with readyQueue := q }
  else
    -- the hole was the last slot
    .ok { s with rqCurrent := 0 }

end Sched

/-- An entry into `scheduler`: the value that `setjmp(sched_buf)` returns, with what the calls of
    `select` made in it are told (`polled` without waiting, `waited` with). -/
inductive Entry
  | start
  | interrupt (polled : Outcome)
  | asyncRead (polled waited : Outcome)
  | exit (polled waited : Outcome)
  deriving DecidableEq

/-- `scheduler()`, from one return of its `setjmp` to the jump into a thread, or to its return. -/
def scheduler (s : Sched) : Entry → Except Stop Sched
  | .start => s.resume
  | .interrupt polled => do
    let s ← s.poll polled
    s.advance.resume
  | .asyncRead polled waited => do
    let s ← s.poll polled
    let s ← s.park
    let s ← s.clearCurrent
    let s ← s.refill waited
    s.resume
  | .exit polled waited => do
    let s ← s.poll polled
    let s ← s.freeCurrent
    let s ← s.clearCurrent
    -- the last thread has exited
    if s.rqSize = 0 ∧ s.wqSize = 0 then
      .ok { s with control := .returned }
    else
      let s ← s.refill waited
      s.resume

/-! ### Threads -/

/-- One `thread_create`: the arguments of `thread_setup`, the descriptor that `open` returned for
    the thread's FIFO and what the block that `malloc` returned held at `buf`. -/
structure Creation where
  id : Int32
  arg : Int32
  fd : ℕ
  block : Fin bufSize → UInt8

/-- The tcb that `thread_setup` fills in; `sprintf(buf, "%s", "")` writes one zero byte. -/
def Creation.tcb (c : Creation) (p : Ptr) : Tcb where
  id := c.id
  environment := ⟨p, .setup⟩
  arg := c.arg
  fd := c.fd
  buf := Function.update c.block ⟨0, by decide⟩ 0
  i := 0
  x := 0
  y := 0
  sum := 0

/-- `thread_setup(id, arg)`, up to its `return`. -/
def threadSetup (s : Sched) (c : Creation) : Except Stop Sched := do
  let p := s.malloced
  let q ← s.readyQueue.store (.fault .index) s.rqSize (some p)
  .ok { s with
    readyQueue := q
    heap := Function.update s.heap p (some (c.tcb p))
    malloced := p + 1
    rqSize := s.rqSize + 1 }

/-- `main`: `init_threads` and the call of `scheduler`. -/
def start (cs : List Creation) : Except Stop Sched := do
  let s ← cs.foldlM threadSetup .empty
  scheduler s .start

/-- The fields of its tcb that a thread function writes. -/
structure Locals where
  buf : Fin bufSize → UInt8
  i : Int32
  x : Int32
  y : Int32
  sum : Int32

/-- What the executing thread does next: compute on its tcb, or one of the library's macros.  In
    `thread_yield` a signal may be pending, which enters the scheduler, or not. -/
inductive Event
  | compute (l : Locals)
  | threadYield (signal : Option Outcome)
  | asyncRead (polled waited : Outcome)
  | threadExit (polled waited : Outcome)

/-- `setjmp(RUNNING->environment)`, called at `jump` in context `c`. -/
def Sched.setjmp (s : Sched) (c : Context) (jump : Jump) : Except Stop Sched := do
  let slot ← s.running
  let t ← s.deref slot
  .ok (s.assign slot { t with environment := { c with jump } })

/-- One event of the thread that executes. -/
def step (s : Sched) (e : Event) : Except Stop Sched :=
  match s.control with
  | .main | .returned => .error .notRunning
  | .running c =>
    match e with
    | .compute l => do
      let slot ← s.running
      let t ← s.deref slot
      .ok (s.assign slot { t with buf := l.buf, i := l.i, x := l.x, y := l.y, sum := l.sum })
    | .threadYield signal => do
      let s ← s.setjmp c .yield
      match signal with
      | none => .ok s
      | some polled => scheduler s (.interrupt polled)
    | .asyncRead polled waited => do
      let s ← s.setjmp c .read
      scheduler s (.asyncRead polled waited)
    | .threadExit polled waited => do
      -- `close(RUNNING->fd)` and the name of the FIFO read the tcb
      let _ ← s.deref (← s.running)
      scheduler s (.exit polled waited)

end SystemProgramming.Threads
