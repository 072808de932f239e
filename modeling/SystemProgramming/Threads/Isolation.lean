import SystemProgramming.Lib.Replay
import SystemProgramming.Threads.OwnTcb

namespace SystemProgramming.Threads

open Program Transition Replay

/-!
# Thread library — threads do not interfere

* `Course` — a thread by itself: its tcb, the place where it goes on, what it has printed and read.
  `Course.next` is deterministic given what its FIFO holds;
* `Isolated` — the invariant of a machine: each of its threads stands somewhere on its own course;
* `alone_course` — a machine with one thread goes along that thread's whole course;
* `threads_do_not_interfere` — so what a thread prints among others is what it prints alone.
-/

variable {ts : List Thread} {th : Thread} {m m' : Machine} {e : Input}
  {p q : Ptr}

/-! ### Courses -/

/-- A thread by itself: what its function keeps in the tcb, where it goes on unless it has exited,
    the values it has printed and the results of its reads. -/
structure Course where
  locals : Locals
  here : Option Jump
  printed : List Int32
  received : List Chunk

namespace Course

variable {fifo : ℕ → Chunk} {l l' : Course} {j : Jump} {bytes : Chunk} {piece : Piece}

/-- A thread after `thread_setup`. -/
def init (th : Thread) : Course := ⟨(th.tcb 0).locals, some .setup, [], []⟩

/-- A thread after a piece from `j` on, in which a `read` returns `bytes`. -/
def advance (l : Course) (j : Jump) (bytes : Chunk) (piece : Piece) : Course where
  locals := piece.locals
  here := piece.call.place
  printed := l.printed ++ piece.printed.toList
  received := if j = .read then l.received ++ [bytes] else l.received

/-- The next piece of a thread whose `k`-th `read` returns `fifo k`. -/
def next (th : Thread) (fifo : ℕ → Chunk) (l : Course) : Option Course :=
  l.here.bind fun j =>
    (th.func.piece j (fifo l.received.length) th.arg l.locals).map
      (l.advance j (fifo l.received.length))

/-- `bytes` are the first results that `fifo` gives. -/
def Feeds (fifo : ℕ → Chunk) (bytes : List Chunk) : Prop := ∀ k b, bytes[k]? = some b → fifo k = b

/-- The thread gets to `l` by itself, from every FIFO that holds what it has read in `l`. -/
def Reached (th : Thread) (l : Course) : Prop :=
  ∀ fifo, Feeds fifo l.received → ∃ k, after (next th fifo) (init th) k = l

/-- Only `max_subarray` goes on at a `read`. -/
def Placed (th : Thread) (l : Course) : Prop := l.here = some .read → th.func = .maxSubarray

/-- A thread by itself goes on where it stands: a step of it is a piece of its function. -/
theorem next_eq_some : next th fifo l = some l' ↔
    ∃ j piece, l.here = some j ∧
      th.func.piece j (fifo l.received.length) th.arg l.locals = some piece ∧
      l.advance j (fifo l.received.length) piece = l' := by
  unfold next
  rw [Option.bind_eq_some_iff]
  simp only [Option.map_eq_some_iff, exists_and_left]

/-- A piece that does not begin behind the `read` does not depend on the bytes. -/
theorem piece_bytes {f : Func} (hj : j ≠ .read) (bytes bytes' : Chunk) (arg : Int32) (l : Locals) :
    f.piece j bytes arg l = f.piece j bytes' arg l := by
  cases j with
  | setup => cases f <;> rfl
  | yield => cases f <;> rfl
  | read => exact absurd rfl hj

/-- A piece that ends its loop or yields is not followed by a read. -/
theorem exit_or_yield {c : Prop} [Decidable c] :
    (if c then Call.threadExit else .threadYield).place ≠ some .read := by
  split
  · exact nofun
  · exact nofun

/-- Only `max_subarray` reads. -/
theorem piece_placed {f : Func} {arg : Int32} {l : Locals}
    (h : f.piece j bytes arg l = some piece) (hplace : piece.call.place = some .read) :
    f = .maxSubarray := by
  cases f with
  | maxSubarray => rfl
  | fibonacci =>
    cases j with
    | read => cases h
    -- its loop body ends with `thread_exit` or `thread_yield`
    | setup | yield =>
      cases h
      exact absurd hplace exit_or_yield
  | collatz =>
    cases j with
    | read => cases h
    | setup | yield =>
      cases h
      exact absurd hplace exit_or_yield

/-- A thread starts at its first piece, which is no read. -/
theorem placed_init : Placed th (init th) := fun h => by cases h

/-- After any piece, a thread is in a read only if its function reads. -/
theorem placed_next (h : next th fifo l = some l') : Placed th l' := by
  obtain ⟨j, piece, -, hpiece, rfl⟩ := next_eq_some.mp h
  exact piece_placed hpiece

/-- A thread ends by exiting only. -/
theorem Placed.ended_iff (h : Placed th l) : next th fifo l = none ↔ l.here = none := by
  unfold next
  cases hj : l.here with
  | none => simp
  | some j =>
    simp only [Option.bind_some, Option.map_eq_none_iff, reduceCtorEq, iff_false]
    cases j with
    | setup => cases th.func <;> exact Option.some_ne_none _
    | yield => cases th.func <;> exact Option.some_ne_none _
    | read =>
      rw [h hj]
      exact Option.some_ne_none _

/-- What a thread has printed stays printed. -/
theorem printed_grows (h : next th fifo l = some l') : l.printed <+: l'.printed := by
  obtain ⟨j, piece, -, -, rfl⟩ := next_eq_some.mp h
  exact List.prefix_append ..

/-! ### Reached places -/

/-- Any list of chunks is the start of what some FIFO delivers. -/
theorem feeds_default (bytes : List Chunk) : Feeds (fun k => bytes.getD k ⟨[], by simp⟩) bytes := by
  intro k b hb
  show bytes.getD k _ = b
  rw [List.getD_eq_getElem?_getD, hb, Option.getD_some]

/-- A FIFO that delivers the chunks delivers the first of them. -/
theorem Feeds.of_append {bytes' : List Chunk} {bs : List Chunk} (h : Feeds fifo (bs ++ bytes')) :
    Feeds fifo bs := by
  intro k b hb
  have hk : k < bs.length := (List.getElem?_eq_some_iff.mp hb).1
  exact h k b (by rw [List.getElem?_append_left hk, hb])

/-- Nothing has been read at the start. -/
theorem feeds_init : Feeds fifo (init th).received := fun _ _ h => by cases h

/-- A step of the thread by itself reads the next chunk of its FIFO. -/
theorem feeds_next (h : Feeds fifo l.received) (hnext : next th fifo l = some l') :
    Feeds fifo l'.received := by
  obtain ⟨j, piece, -, -, rfl⟩ := next_eq_some.mp hnext
  change Feeds fifo (if j = .read then l.received ++ [fifo l.received.length] else l.received)
  split
  · intro k b hb
    rw [List.getElem?_append] at hb
    split at hb
    · exact h k b hb
    · obtain ⟨hlt, rfl⟩ := List.getElem?_eq_some_iff.mp hb
      rw [List.length_singleton] at hlt
      rw [List.getElem_singleton]
      congr 1
      omega
  · exact h

/-- The start is reached without a step. -/
theorem Reached.init : Reached th (init th) := fun _ _ => ⟨0, rfl⟩

/-- What is reached is placed, since each step keeps it. -/
theorem Reached.placed (h : Reached th l) : Placed th l := by
  obtain ⟨k, hk⟩ := h _ (feeds_default l.received)
  rw [← hk]
  exact after_invariant (fun _ _ _ => placed_next) placed_init k

/-- The piece that a thread executes leads on along its course. -/
theorem Reached.advance (h : Reached th l) (hj : l.here = some j)
    (hpiece : th.func.piece j bytes th.arg l.locals = some piece) :
    Reached th (l.advance j bytes piece) := by
  intro fifo hfeeds
  -- what the FIFO holds behind `l` matters only if this piece read
  have hreceived : Feeds fifo l.received ∧ (j = .read → fifo l.received.length = bytes) := by
    change Feeds fifo (if j = .read then l.received ++ [bytes] else l.received) at hfeeds
    split at hfeeds
    · exact ⟨hfeeds.of_append, fun _ => hfeeds _ _ List.getElem?_concat_length⟩
    · exact ⟨hfeeds, fun hread => by contradiction⟩
  obtain ⟨k, hk⟩ := h fifo hreceived.1
  refine ⟨k + 1, after_succ_of_some ?_⟩
  rw [hk, next_eq_some]
  refine ⟨j, piece, hj, ?_, ?_⟩
  · by_cases hread : j = .read
    · rw [hreceived.2 hread, hpiece]
    · rw [piece_bytes hread _ bytes, hpiece]
  · by_cases hread : j = .read
    · rw [hreceived.2 hread]
    · simp only [Course.advance, if_neg hread]

end Course

/-! ### The invariant -/

/-- The machine holds the thread `p`, created as `th`, in the place `l` of its course: its tcb is
    the one that `thread_setup` filled in with what the thread's own pieces left in it. -/
structure Follows (m : Machine) (p : Ptr) (th : Thread) (l : Course) : Prop where
  tcb : m.sched.heap p = l.here.map ((th.tcb p).left p l.locals)
  printed : m.printed th.id = l.printed
  received : m.received p = l.received

/-- **The invariant**: the queues are as they should be, and each thread is on its own course. -/
structure Isolated (ts : List Thread) (m : Machine) : Prop where
  settled : Settled (fdsOf (ts.map Thread.toCreation)) ts.length m.sched
  enters : m.sched.Enters m.here
  own : ∀ p th, ts[p]? = some th → ∃ l, Follows m p th l ∧ Course.Reached th l

/-- A piece prints under its own id only. -/
theorem Stepped.printed {t : Tcb} {piece : Piece} (h : Stepped ts m m' e p t piece) (id : Int32) :
    m'.printed id = m.printed id ++ if t.id = id then piece.printed.toList else [] := by
  simp only [Machine.printed, h.output, List.filter_append, List.map_append]
  congr 1
  cases piece.printed with
  | none => simp
  | some v =>
    by_cases hid : t.id = id
    · simp [hid]
    · simp [hid]

/-- A piece reads for its own thread only. -/
theorem Stepped.received {t : Tcb} {piece : Piece} (h : Stepped ts m m' e p t piece) (q : Ptr) :
    m'.received q = m.received q ++ if m.here = .read ∧ p = q then [e.bytes] else [] := by
  rw [Machine.received, Machine.received, h.reads]
  by_cases hread : m.here = .read
  · rw [if_pos hread, List.filter_append, List.map_append]
    congr 1
    by_cases hpq : p = q
    · simp [hread, hpq]
    · simp [hread, hpq]
  · simp [hread]

/-- The piece that a thread executes is the one where its course stands. -/
theorem Stepped.here {t : Tcb} {piece : Piece} {l : Course} (h : Stepped ts m m' e p t piece)
    (hth : ts[p]? = some th) (hjump : t.environment.jump = m.here) (hl : Follows m p th l) :
    l.here = some m.here ∧ t = (th.tcb p).left p l.locals m.here ∧
      th.func.piece m.here e.bytes th.arg l.locals = some piece := by
  have htcb := hl.tcb
  rw [h.tcb] at htcb
  obtain ⟨j, hj, rfl⟩ := Option.map_eq_some_iff.mp htcb.symm
  obtain rfl : j = m.here := hjump
  refine ⟨hj, rfl, ?_⟩
  have hfunc : funcOf ts p = th.func := by rw [funcOf, hth]; rfl
  have hcode := h.code
  rwa [hfunc] at hcode

/-- The thread that executes goes on along its course. -/
theorem Stepped.follows {t : Tcb} {piece : Piece} {l : Course} (h : Stepped ts m m' e p t piece)
    (hth : ts[p]? = some th) (hjump : t.environment.jump = m.here) (hl : Follows m p th l) :
    Follows m' p th (l.advance m.here e.bytes piece) := by
  obtain ⟨-, rfl, -⟩ := h.here hth hjump hl
  refine ⟨?_, ?_, ?_⟩
  · rw [h.heap, Function.update_self]
    rfl
  · have hid : ((th.tcb p).left p l.locals m.here).id = th.id := rfl
    rw [h.printed, hl.printed, if_pos hid]
    rfl
  · rw [h.received, hl.received]
    by_cases hread : m.here = .read
    · simp [Course.advance, hread]
    · simp [Course.advance, hread]

/-- The other threads stay where they are. -/
theorem Stepped.follows_other {t : Tcb} {piece : Piece} {l : Course}
    (h : Stepped ts m m' e p t piece) (hq : q ≠ p) (hid : t.id ≠ th.id) (hl : Follows m q th l) :
    Follows m' q th l where
  tcb := by rw [h.heap, Function.update_of_ne hq, hl.tcb]
  printed := by rw [h.printed, if_neg hid, List.append_nil, hl.printed]
  received := by rw [h.received, if_neg fun hp => hq hp.2.symm, List.append_nil, hl.received]

/-- After `main` has called `scheduler`, every thread stands at the start of its course. -/
theorem begin_isolated (hpos : 1 ≤ ts.length) (hmax : ts.length ≤ threadMax) :
    ∃ m₀, begin ts = .ok m₀ ∧ Isolated ts m₀ ∧
      ∀ p th, ts[p]? = some th → Follows m₀ p th (.init th) := by
  have hlen : (ts.map Thread.toCreation).length = ts.length := List.length_map _
  obtain ⟨s, hs, hsettled, hheap, hrun⟩ :=
    start_resumed (ts.map Thread.toCreation) (by rw [hlen]; exact hpos) (by rw [hlen]; exact hmax)
  have hfollows (p : Ptr) (th : Thread) (hth : ts[p]? = some th) :
      Follows ⟨s, s.entered, [], []⟩ p th (.init th) := by
    refine ⟨?_, rfl, rfl⟩
    rw [hheap, heapOf, List.getElem?_map, hth]
    rfl
  refine ⟨⟨s, s.entered, [], []⟩, ?_, ⟨?_, ?_, fun p th hth => ?_⟩, hfollows⟩
  · -- `begin` has set up the machine, and no thread has read or printed anything
    unfold begin
    rw [hs]
    rfl
  · rw [← hlen]
    exact hsettled
  · exact Resumed.enters ⟨hsettled, hheap, hrun⟩
  · exact ⟨_, hfollows p th hth, .init⟩

/-- The tcb of a thread is its own. -/
theorem Isolated.tcb (h : Isolated ts m) (hth : ts[p]? = some th) {t : Tcb}
    (ht : m.sched.heap p = some t) : t.id = th.id ∧ t.arg = th.arg ∧ t.fd = th.fd ∧
      t.environment.thread = p := by
  obtain ⟨l, hl, -⟩ := h.own p th hth
  have htcb := hl.tcb
  rw [ht] at htcb
  obtain ⟨j, -, rfl⟩ := Option.map_eq_some_iff.mp htcb.symm
  exact ⟨rfl, rfl, rfl, rfl⟩

/-- **One step** of an isolated machine is a piece of one of its threads, on that thread's tcb. -/
theorem Isolated.stepped (h : Isolated ts m) (hstep : m.step ts e = .ok m') :
    ∃ p th t piece, ts[p]? = some th ∧ t.id = th.id ∧ t.arg = th.arg ∧ t.fd = th.fd ∧
      t.environment = ⟨p, m.here⟩ ∧ Stepped ts m m' e p t piece ∧
      Settled (fdsOf (ts.map Thread.toCreation)) ts.length m'.sched ∧
      m'.sched.Enters m'.here := by
  cases hk : m.sched.control with
  -- outside the threads the machine does not step
  | main | returned =>
    simp only [Machine.step, hk] at hstep
    cases hstep
  | running c =>
    obtain ⟨r, w, t, hexec⟩ := h.settled.executes hk
    -- the tcb that the scheduler points at is the one that the jump entered with
    obtain ⟨piece, hstepped, hsettled, henters⟩ := step_stepped hexec hstep
    obtain ⟨t', ht', hjump⟩ := h.enters c hk
    obtain rfl : t = t' := Option.some.inj (hexec.tcb.symm.trans ht')
    have hp : c.thread < ts.length := hexec.below
    have hth : ts[c.thread]? = some ts[c.thread] := List.getElem?_eq_getElem hp
    obtain ⟨hid, harg, hfd, hthread⟩ := h.tcb hth hexec.tcb
    have henv : t.environment = ⟨c.thread, m.here⟩ := by rw [← hthread, ← hjump]
    exact ⟨c.thread, _, t, piece, hth, hid, harg, hfd, henv, hstepped, hsettled, henters⟩

/-- **One step of the machine** keeps the threads apart: it is a step of one of them. -/
theorem Isolated.step (hids : (ts.map fun th => th.id).Nodup) (h : Isolated ts m)
    (hstep : m.step ts e = .ok m') : Isolated ts m' := by
  obtain ⟨p, thp, t, piece, hthp, hid, -, -, henv, hstepped, hsettled, henters⟩ := h.stepped hstep
  have hjump : t.environment.jump = m.here := by rw [henv]
  refine ⟨hsettled, henters, fun q th hth => ?_⟩
  obtain ⟨l, hl, hreached⟩ := h.own q th hth
  by_cases hq : q = p
  · subst hq
    obtain ⟨hhere, -, hcode⟩ := hstepped.here hth hjump hl
    exact ⟨_, hstepped.follows hth hjump hl, hreached.advance hhere hcode⟩
  · refine ⟨l, hstepped.follows_other hq ?_ hl, hreached⟩
    -- two threads with one id would be one thread
    intro hsame
    refine hq ((List.getElem?_inj ?_ hids).mp ?_)
    · rw [List.length_map]
      exact (List.getElem?_eq_some_iff.mp hth).1
    · rw [List.getElem?_map, List.getElem?_map, hth, hthp]
      exact congrArg some (hsame.symm.trans hid)

/-- A step that succeeds is one that does not stop. -/
theorem stepOk_machine : m.stepOk ts e = some m' ↔ m.step ts e = .ok m' := by
  unfold Machine.stepOk
  cases m.step ts e with
  | ok m => simp [Except.toOption]
  | error stop => simp [Except.toOption]

/-- While a thread does not execute, its tcb stays as it is. -/
theorem Isolated.tcb_kept (hids : (ts.map fun th => th.id).Nodup) (h : Isolated ts m)
    {es : List Input}
    (hother : EveryStep (Machine.stepOk ts) (fun m _ => ∀ j, m.sched.control ≠ .running ⟨p, j⟩)
      m es)
    (hrun : runFrom (Machine.stepOk ts) m es = some m') : m'.sched.heap p = m.sched.heap p := by
  have hstep (m₁ : Machine) (e : Input) (m₂ : Machine)
      (h₁ : Isolated ts m₁ ∧ m₁.sched.heap p = m.sched.heap p)
      (hne : ∀ j, m₁.sched.control ≠ .running ⟨p, j⟩) (hs : m₁.stepOk ts e = some m₂) :
      Isolated ts m₂ ∧ m₂.sched.heap p = m.sched.heap p := by
    rw [stepOk_machine] at hs
    obtain ⟨q, _, _, _, -, -, -, -, -, hstepped, -⟩ := h₁.1.stepped hs
    refine ⟨h₁.1.step hids hs, ?_⟩
    -- a step of another thread, so it is another tcb that is written
    have hpq : p ≠ q := by
      rintro rfl
      obtain ⟨j, hj⟩ := hstepped.control
      exact hne j hj
    rw [hstepped.heap, Function.update_of_ne hpq, h₁.2]
  exact (hother.invariant hstep ⟨h, rfl⟩ hrun).2

/-- And so does every run. -/
theorem Isolated.reachable (hids : (ts.map fun th => th.id).Nodup) (h : Isolated ts m)
    (hreach : Reachable (Machine.stepOk ts) m m') : Isolated ts m' :=
  hreach.invariant (fun _ _ _ h hs => h.step hids (stepOk_machine.mp hs)) h

/-! ### A thread alone -/

/-- `m` is reached by a machine whose only thread is `th`, whose `k`-th read returned `fifo k`. -/
def Alone (th : Thread) (fifo : ℕ → Chunk) (m : Machine) : Prop :=
  ∃ m₀, begin [th] = .ok m₀ ∧ Reachable (Machine.stepOk [th]) m₀ m ∧
    Course.Feeds fifo (m.received 0)

variable {fifo : ℕ → Chunk} {l l' : Course}

/-- A thread that is created alone starts where it does by itself. -/
theorem begin_alone (th : Thread) :
    ∃ m₀, begin [th] = .ok m₀ ∧ Isolated [th] m₀ ∧ Follows m₀ 0 th (.init th) := by
  have hlen : [th].length = 1 := rfl
  obtain ⟨m₀, hm₀, hisolated, hfollows⟩ :=
    begin_isolated (by rw [hlen]) (by rw [hlen]; unfold threadMax; omega)
  exact ⟨m₀, hm₀, hisolated, hfollows 0 th rfl⟩

/-- A machine with one thread is a special case. -/
theorem Alone.isolated (h : Alone th fifo m) : Isolated [th] m := by
  obtain ⟨m₀, hm₀, hreach, -⟩ := h
  obtain ⟨m₁, hm₁, hisolated, -⟩ := begin_alone th
  obtain rfl : m₀ = m₁ := Except.ok.inj (hm₀.symm.trans hm₁)
  exact hisolated.reachable (by simp) hreach

/-- A machine with one thread stands on that thread's course from its FIFO. -/
theorem Alone.course (h : Alone th fifo m) :
    ∃ k, Follows m 0 th (after (Course.next th fifo) (Course.init th) k) := by
  obtain ⟨l, hl, hreached⟩ := h.isolated.own 0 th rfl
  obtain ⟨-, -, -, hfeeds⟩ := h
  rw [hl.received] at hfeeds
  obtain ⟨k, hk⟩ := hreached fifo hfeeds
  exact ⟨k, by rwa [hk]⟩

/-- While its thread has not exited, a machine with one thread executes it. -/
theorem Isolated.executes (h : Isolated [th] m) (hl : Follows m 0 th l) {j : Jump}
    (hj : l.here = some j) :
    ∃ r w c t, Executes (fdsOf [th.toCreation]) 1 m.sched r w c t ∧ c.thread = 0 := by
  obtain ⟨r, w, hs, ⟨c, hk, -⟩ | ⟨-, rfl, rfl⟩⟩ := h.settled
  · obtain ⟨r, w, t, hexec⟩ := h.settled.executes hk
    exact ⟨r, w, c, t, hexec, Nat.lt_one_iff.mp hexec.below⟩
  · have halive : (m.sched.heap 0).isSome = true := by
      rw [hl.tcb, hj]
      rfl
    exact absurd ((hs.alive 0).mpr halive) (by simp)

/-- Nothing but its own exit stops a thread that is alone and whose FIFO holds enough. -/
theorem alone_next (h : Isolated [th] m) (hl : Follows m 0 th l)
    (hnext : Course.next th fifo l = some l') :
    ∃ e m', m.step [th] e = .ok m' ∧ Follows m' 0 th l' := by
  obtain ⟨j, piece, hj, hpiece, rfl⟩ := Course.next_eq_some.mp hnext
  obtain ⟨r, w, c, t, hexec, hc⟩ := h.executes hl hj
  obtain ⟨t', ht', hjump⟩ := h.enters c hexec.control
  obtain rfl : t = t' := Option.some.inj (hexec.tcb.symm.trans ht')
  have htcb := hl.tcb
  rw [← hc, hexec.tcb, hj] at htcb
  obtain rfl : t = (th.tcb c.thread).left c.thread l.locals j := Option.some.inj htcb
  obtain rfl : j = m.here := hjump
  have hfds (p : Ptr) (hp : p < 1) : fdsOf [th.toCreation] p = th.fd := by
    obtain rfl : p = 0 := Nat.lt_one_iff.mp hp
    rfl
  have hcode : (funcOf [th] c.thread).piece m.here (fifo l.received.length) th.arg l.locals =
      some piece := by
    rw [hc]
    exact hpiece
  obtain ⟨m', hm'⟩ := step_quiet hexec hfds hcode
  obtain ⟨piece', hstepped, -⟩ := step_stepped hexec hm'
  have hth : [th][c.thread]? = some th := by rw [hc]; rfl
  have hl' : Follows m c.thread th l := by rw [hc]; exact hl
  obtain ⟨-, -, hcode'⟩ := hstepped.here hth rfl hl'
  -- its step can only be the next piece of the course
  obtain rfl : piece' = piece := Option.some.inj (hcode'.symm.trans hpiece)
  refine ⟨_, m', hm', ?_⟩
  have hfollows := hstepped.follows hth rfl hl'
  rwa [hc] at hfollows

/-- Alone, a thread gets to every place of its course. -/
theorem alone_course (th : Thread) (fifo : ℕ → Chunk) (k : ℕ) :
    ∃ m, Alone th fifo m ∧ Follows m 0 th (after (Course.next th fifo) (Course.init th) k) := by
  have hfeeds (k : ℕ) :
      Course.Feeds fifo (after (Course.next th fifo) (Course.init th) k).received :=
    after_invariant (fun _ _ => Course.feeds_next) Course.feeds_init k
  -- the induction is on the pieces: each one is a step of the machine with this thread alone
  induction k with
  | zero =>
    obtain ⟨m₀, hm₀, -, hl⟩ := begin_alone th
    exact ⟨m₀, ⟨m₀, hm₀, .refl m₀, by rw [hl.received]; exact Course.feeds_init⟩, hl⟩
  | succ k ih =>
    obtain ⟨m, halone, hl⟩ := ih
    cases hnext : Course.next th fifo (after (Course.next th fifo) (Course.init th) k) with
    | none =>
      rw [after_succ_of_none hnext]
      exact ⟨m, halone, hl⟩
    | some l' =>
      obtain ⟨e, m', hm', hl'⟩ := alone_next halone.isolated hl hnext
      obtain ⟨m₀, hm₀, hreach, -⟩ := halone
      rw [after_succ_of_some hnext]
      refine ⟨m', ⟨m₀, hm₀, hreach.tail (stepOk_machine.mpr hm'), ?_⟩, hl'⟩
      have hfeeds' := hfeeds (k + 1)
      rw [after_succ_of_some hnext] at hfeeds'
      rwa [hl'.received]

/-! ### Non-interference -/

/-- The thread `p` of `m`, created as `th`, does what it does alone. -/
structure AsAlone (m : Machine) (p : Ptr) (th : Thread) (fifo : ℕ → Chunk) : Prop where
  same : ∃ m', Alone th fifo m' ∧ m'.printed th.id = m.printed th.id ∧
    (m'.sched.heap 0).map Tcb.locals = (m.sched.heap p).map Tcb.locals
  prefixes : ∀ m', Alone th fifo m' →
    m.printed th.id <+: m'.printed th.id ∨ m'.printed th.id <+: m.printed th.id
  all : m.sched.heap p = none → ∀ m', Alone th fifo m' → m'.printed th.id <+: m.printed th.id

/-- **Among others, a thread does what it does alone** on the same reads. -/
theorem Isolated.asAlone (h : Isolated ts m) (hth : ts[p]? = some th)
    (hfeeds : Course.Feeds fifo (m.received p)) : AsAlone m p th fifo := by
  obtain ⟨l, hl, hreached⟩ := h.own p th hth
  rw [hl.received] at hfeeds
  obtain ⟨k, hk⟩ := hreached fifo hfeeds
  have hout : ∀ s t, Course.next th fifo s = some t → s.printed <+: t.printed :=
    fun _ _ => Course.printed_grows
  refine ⟨?_, fun m' halone => ?_, fun hexit m' halone => ?_⟩
  · -- alone, the thread gets to the same place of its course
    obtain ⟨m', halone, hl'⟩ := alone_course th fifo k
    rw [hk] at hl'
    refine ⟨m', halone, by rw [hl'.printed, hl.printed], ?_⟩
    rw [hl'.tcb, hl.tcb, Option.map_map, Option.map_map]
    rfl
  · obtain ⟨k', hl'⟩ := halone.course
    rw [hl.printed, hl'.printed, ← hk]
    -- two places of one course: one of them comes first
    rcases Nat.le_total k k' with hkk | hkk
    · exact .inl (out_grows hout hkk)
    · exact .inr (out_grows hout hkk)
  · obtain ⟨k', hl'⟩ := halone.course
    have hhere : l.here = none := by
      rw [hl.tcb, Option.map_eq_none_iff] at hexit
      exact hexit
    -- it has exited, so that its course ends here
    have hended : Course.next th fifo (after (Course.next th fifo) (Course.init th) k) = none := by
      rw [hk, hreached.placed.ended_iff]
      exact hhere
    rw [hl.printed, hl'.printed, ← hk]
    exact out_complete_of_ended hout hended k'

/-- **Threads do not interfere.**  However many threads with different ids `main` creates, up to
    `THREAD_MAX`, and in whatever order they are switched: each prints, and keeps in its tcb, what
    it does when it is alone and its reads return the same; what it has printed when it exits is
    all that it prints alone.  Every step executes a thread on the tcb that is its own, to which
    `RUNNING` points, and as long as a thread does not execute its tcb stays as it left it. -/
theorem threads_do_not_interfere (ts : List Thread) (hpos : 1 ≤ ts.length)
    (hmax : ts.length ≤ threadMax) (hids : (ts.map fun th => th.id).Nodup) :
    ∃ m₀, begin ts = .ok m₀ ∧ ∀ es m, runFrom (Machine.stepOk ts) m₀ es = some m →
      (∀ p th fifo, ts[p]? = some th → Course.Feeds fifo (m.received p) → AsAlone m p th fifo) ∧
      (∀ e m', m.step ts e = .ok m' →
        ∃ p th t piece, ts[p]? = some th ∧ t.id = th.id ∧ t.arg = th.arg ∧ t.fd = th.fd ∧
          t.environment = ⟨p, m.here⟩ ∧ Stepped ts m m' e p t piece) ∧
      ∀ p es' m', EveryStep (Machine.stepOk ts) (fun m _ => ∀ j, m.sched.control ≠ .running ⟨p, j⟩)
          m es' →
        runFrom (Machine.stepOk ts) m es' = some m' → m'.sched.heap p = m.sched.heap p := by
  obtain ⟨m₀, hm₀, hisolated₀, -⟩ := begin_isolated hpos hmax
  refine ⟨m₀, hm₀, fun es m hrun => ?_⟩
  have hisolated : Isolated ts m := hisolated₀.reachable hids ⟨es, hrun⟩
  refine ⟨fun p th fifo hth hfeeds => hisolated.asAlone hth hfeeds, fun e m' hstep => ?_,
    fun p es' m' hother hrun' => hisolated.tcb_kept hids hother hrun'⟩
  obtain ⟨p, th, t, piece, hth, hid, harg, hfd, henv, hstepped, -⟩ := hisolated.stepped hstep
  exact ⟨p, th, t, piece, hth, hid, harg, hfd, henv, hstepped⟩

/-- One thread of each function. -/
def oneOfEach : List Thread :=
  [⟨⟨0, 2, 3, fun _ => 0⟩, .fibonacci⟩, ⟨⟨1, 2, 4, fun _ => 0⟩, .collatz⟩,
    ⟨⟨2, 1, 5, fun _ => 0⟩, .maxSubarray⟩]

/-- The digit seven. -/
def seven : Chunk := ⟨[55], by decide⟩

/-- The others exit while the last thread waits for its FIFO, which then holds a seven. -/
def lastReads : List Input :=
  [⟨some (.ready ∅), .ready ∅, .ready ∅, seven⟩, ⟨none, .ready ∅, .ready ∅, seven⟩,
    ⟨none, .ready ∅, .ready ∅, seven⟩, ⟨none, .ready ∅, .ready {5}, seven⟩,
    ⟨none, .ready ∅, .ready ∅, seven⟩]

/-- One thread of each function, where the last one reads seven and prints it. -/
theorem threads_do_not_interfere_lastReads :
    ∃ m₀ m, begin oneOfEach = .ok m₀ ∧ runFrom (Machine.stepOk oneOfEach) m₀ lastReads = some m ∧
      m.printed 2 = [7] ∧
      AsAlone m 2 ⟨⟨2, 1, 5, fun _ => 0⟩, .maxSubarray⟩ fun _ => seven := by
  obtain ⟨m₀, hbegin, hall⟩ :=
    threads_do_not_interfere oneOfEach (by decide) (by decide) (by decide)
  have hruns : (((begin oneOfEach).toOption.bind fun m =>
      runFrom (Machine.stepOk oneOfEach) m lastReads).map fun m =>
        (m.printed 2, m.received 2)) = some ([7], [seven]) := by decide +kernel
  rw [hbegin] at hruns
  obtain ⟨m, hm, heq⟩ := Option.map_eq_some_iff.mp hruns
  obtain ⟨hprinted, hreceived⟩ := Prod.mk.inj heq
  refine ⟨m₀, m, hbegin, hm, hprinted, (hall lastReads m hm).1 2 _ _ rfl ?_⟩
  intro k b hb
  rw [hreceived] at hb
  exact (List.mem_singleton.mp (List.mem_of_getElem? hb)).symm

end SystemProgramming.Threads
