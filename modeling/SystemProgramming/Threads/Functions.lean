import SystemProgramming.Booking.Command
import SystemProgramming.Threads.Scheduler

namespace SystemProgramming.Threads

/-!
# Thread library — the thread functions

The functions of `threads.c` between two calls of the library.  Signals are blocked there and only
the scheduler writes the queues, so all of a `Piece` works on the one tcb that `RUNNING` names when
it begins.

A `Machine` is the library with the code of its threads: where the executing thread goes on, what
was printed and what was read.  Each step is one piece of the function whose context executes, on
the tcb that `ready_queue[rq_current]` points to, and the library call it ends with.

`sleep` and the texts of the signal handler are left out; a signed overflow wraps around.
-/

/-- The thread functions. -/
inductive Func
  | fibonacci
  | collatz
  | maxSubarray
  deriving DecidableEq, Repr

/-- A call of `thread_create(func, id, arg)`. -/
structure Thread extends Creation where
  func : Func

/-- What one `read` of `async_read(5)` returned: up to five bytes, none on an error. -/
abbrev Chunk := { bytes : List UInt8 // bytes.length ≤ 5 }

/-! ### Pieces of a thread function -/

/-- The library call that ends a piece. -/
inductive Call
  | threadYield
  | asyncRead
  | threadExit
  deriving DecidableEq, Repr

/-- A piece that was executed: the fields of the tcb it leaves, the value it printed and the
    library call it ends with. -/
structure Piece where
  locals : Locals
  printed : Option Int32
  call : Call

namespace Locals

/-- The head of `for (RUNNING->i = 1; ; RUNNING->i++)`, entered after `thread_setup` or at the end
    of the body. -/
def head (l : Locals) (j : Jump) : Locals := { l with i := if j = .setup then 1 else l.i + 1 }

/-- `read(RUNNING->fd, &RUNNING->buf, count)`. -/
def read (l : Locals) (bytes : Chunk) : Locals :=
  { l with buf := fun k => bytes.val.getD k (l.buf k) }

/-- The body of the loop of `fibonacci`. -/
def fibonacci (l : Locals) (arg : Int32) : Piece :=
  let l :=
    if l.i ≤ 2 then { l with x := 1, y := 1 }
    else { l with x := l.y, y := l.x + l.y }
  ⟨l, some l.y, if l.i = arg then .threadExit else .threadYield⟩

/-- The body of the loop of `collatz`. -/
def collatz (l : Locals) (arg : Int32) : Piece :=
  -- the first round starts from `arg`
  let l := if l.i = 1 then { l with x := arg } else l
  let l := if l.x % 2 = 0 then { l with x := l.x / 2 } else { l with x := l.x * 3 + 1 }
  ⟨l, some l.x, if l.x = 1 then .threadExit else .threadYield⟩

/-- The body of the loop of `max_subarray`, from the `read` of its `async_read` on. -/
def maxSubarray (l : Locals) (arg : Int32) : Piece :=
  let t := Int32.ofInt (Booking.atoi (List.ofFn l.buf))
  let l := { l with x := t }
  -- `y` is the best sum that ends here, `sum` the best one so far
  let l := if l.x < l.x + l.y then { l with y := l.y + l.x } else { l with y := l.x }
  let l := if l.y > l.sum then { l with sum := l.y } else l
  ⟨l, some l.sum, if l.i = arg then .threadExit else .threadYield⟩

end Locals

/-- The piece of a thread function from the place `j` on; `none` if it has no such place. -/
def Func.piece (f : Func) (j : Jump) (bytes : Chunk) (arg : Int32) (l : Locals) : Option Piece :=
  match f, j with
  | .fibonacci, .setup | .fibonacci, .yield => some ((l.head j).fibonacci arg)
  | .collatz, .setup | .collatz, .yield => some ((l.head j).collatz arg)
  | .maxSubarray, .setup | .maxSubarray, .yield => some ⟨l.head j, none, .asyncRead⟩
  | .maxSubarray, .read => some ((l.read bytes).maxSubarray arg)
  | .fibonacci, .read | .collatz, .read => none

/-- The fields of its tcb that a thread function writes. -/
def Tcb.locals (t : Tcb) : Locals := ⟨t.buf, t.i, t.x, t.y, t.sum⟩

/-! ### The machine -/

/-- What the world decides in a step: whether a signal is pending in `thread_yield`, what the calls
    of `select` are told, and what the `read` of `async_read` returns. -/
structure Input where
  signal : Option Outcome
  polled : Outcome
  waited : Outcome
  bytes : Chunk

/-- A `read` by a thread: the descriptor and the bytes. -/
structure FifoRead where
  thread : Ptr
  fd : ℕ
  bytes : Chunk

/-- The library, the place where the executing thread goes on, the lines that were printed (each
    an id and a value) and the reads that were made. -/
structure Machine where
  sched : Sched
  here : Jump
  output : List (Int32 × Int32)
  reads : List FifoRead

namespace Machine

/-- The values printed under an id. -/
def printed (m : Machine) (id : Int32) : List Int32 :=
  (m.output.filter fun o => o.1 = id).map Prod.snd

/-- The results of the reads of a thread. -/
def received (m : Machine) (p : Ptr) : List Chunk :=
  (m.reads.filter fun r => r.thread = p).map FifoRead.bytes

end Machine

/-- The place where the context that now executes was saved. -/
def Sched.entered (s : Sched) : Jump :=
  match s.control with
  | .running c => c.jump
  | .main | .returned => .setup

/-- `main` up to the first jump into a thread. -/
def begin (ts : List Thread) : Except Stop Machine := do
  let s ← start (ts.map Thread.toCreation)
  .ok ⟨s, s.entered, [], []⟩

/-- The function that the call numbered `p` executes. -/
def funcOf (ts : List Thread) (p : Ptr) : Func := ts[p]?.elim .fibonacci Thread.func

/-- The library call that ends a piece, and the place where the thread that executes then goes on:
    without a signal `thread_yield` just ends. -/
def Call.exec (call : Call) (s : Sched) (e : Input) : Except Stop (Sched × Jump) := do
  match call with
  | .threadYield =>
    let s ← step s (.threadYield e.signal)
    -- without a signal `thread_yield` falls through in the same thread
    .ok (s, if e.signal.isNone then .yield else s.entered)
  | .asyncRead =>
    let s ← step s (.asyncRead e.polled e.waited)
    .ok (s, s.entered)
  | .threadExit =>
    let s ← step s (.threadExit e.polled e.waited)
    .ok (s, s.entered)

/-- One piece of the thread that executes. -/
def Machine.step (ts : List Thread) (m : Machine) (e : Input) : Except Stop Machine :=
  match m.sched.control with
  | .main | .returned => .error .notRunning
  | .running c => do
    -- the code is that of the context that executes, the tcb the one that `RUNNING` points to
    let t ← m.sched.deref (← m.sched.running)
    match (funcOf ts c.thread).piece m.here e.bytes t.arg t.locals with
    | none => .error .notRunning
    | some piece => do
      let s ← Threads.step m.sched (.compute piece.locals)
      let (s, here) ← piece.call.exec s e
      .ok {
        sched := s
        here := here
        output := m.output ++ (piece.printed.map fun v => (t.id, v)).toList
        reads := if m.here = .read then m.reads ++ [⟨c.thread, t.fd, e.bytes⟩] else m.reads }

/-- A step, when it has a result. -/
def Machine.stepOk (ts : List Thread) (m : Machine) (e : Input) : Option Machine :=
  (m.step ts e).toOption

end SystemProgramming.Threads
