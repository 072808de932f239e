import SystemProgramming.Lib.Signals
import SystemProgramming.Threads.Isolation

namespace SystemProgramming.Threads

open Program Transition

/-!
# Thread library — signals

The signal masks of `init_signal`, the handler of `scheduler.c` and the three calls of `sigprocmask`
in `thread_yield`.  A signal may be raised at any moment; where it is delivered depends on the mask.
`alarm(timeslice)` arms a timer that raises `SIGALRM` once.

`longjmp` does not restore a mask, so the scheduler runs with the mask of the handler, which is the
mask at the delivery and the signal itself.
-/

/-- The two signals with a handler. -/
inductive Signo
  | tstp
  | alrm
  deriving DecidableEq, Repr

/-- `base_mask` -/
def baseMask : Finset Signo := {.tstp, .alrm}

/-- `tstp_mask` -/
def tstpMask : Finset Signo := {.tstp}

/-- `alrm_mask` -/
def alrmMask : Finset Signo := {.alrm}

/-- Where the process is: in a thread function or the scheduler, or in `thread_yield` after its first
    or its second `sigprocmask`. -/
inductive Place
  | running
  | alrmWindow
  | tstpWindow
  deriving DecidableEq, Repr

/-- The threads of the library as a process with signals; `caught` are the lines of the handler. -/
structure Process where
  machine : Machine
  place : Place
  signals : Signals Signo
  armed : Bool
  caught : List Signo

/-- What may happen next: a signal is raised, the timer expires, a signal is handled, or the process
    makes a step. -/
inductive Happening
  | raise (signo : Signo)
  | expire
  | handle (signo : Signo) (polled : Outcome)
  | run (e : Input)

/-- The library call that ends the next piece of the thread that executes. -/
def Machine.call (ts : List Thread) (m : Machine) (e : Input) : Option Call :=
  match m.sched.control with
  | .main | .returned => none
  | .running c =>
    match m.sched.running.bind m.sched.deref with
    | .error _ => none
    | .ok t => ((funcOf ts c.thread).piece m.here e.bytes t.arg t.locals).map Piece.call

/-- The mask after the jump into a thread: one that was saved in `thread_yield` sets it. -/
def jumpedTo (k : Signals Signo) (j : Jump) : Signals Signo :=
  if j = .yield then k.setMask baseMask else k

namespace Process

variable (ts : List Thread) (timeslice : ℕ)

/-- `alarm(timeslice)` -/
def alarm : Bool := decide (timeslice ≠ 0)

/-- `sighandler(signo)`, up to the jump into a thread. -/
def sighandler (s : Process) (signo : Signo) (polled : Outcome) : Option Process := do
  let k ← s.signals.deliver signo
  let sched ← (scheduler s.machine.sched (.interrupt polled)).toOption
  some {
    machine := { s.machine with sched := sched, here := sched.entered }
    place := .running
    signals := jumpedTo k sched.entered
    armed := if signo = .alrm then alarm timeslice else s.armed
    caught := s.caught ++ [signo] }

/-- The next piece of the thread that executes; a `thread_yield` goes on to its first window. -/
def runPiece (s : Process) (e : Input) : Option Process := do
  let call ← s.machine.call ts e
  let m ← s.machine.stepOk ts { e with signal := none }
  match call with
  | .threadYield =>
    some { s with machine := m, place := .alrmWindow, signals := s.signals.setMask alrmMask }
  | .asyncRead | .threadExit =>
    some { s with machine := m, signals := jumpedTo s.signals m.here }

/-- One step of the process itself. -/
def runStep (s : Process) (e : Input) : Option Process :=
  match s.place with
  | .running => s.runPiece ts e
  | .alrmWindow => some { s with place := .tstpWindow, signals := s.signals.setMask tstpMask }
  | .tstpWindow => some { s with place := .running, signals := s.signals.setMask baseMask }

/-- A signal that can be delivered is delivered before the process goes on. -/
def step (s : Process) : Happening → Option Process
  | .raise signo => some { s with signals := s.signals.raise signo }
  | .expire =>
    if s.armed then some { s with armed := false, signals := s.signals.raise .alrm } else none
  | .handle signo polled => s.sighandler timeslice signo polled
  | .run e => if s.signals.Quiet then s.runStep ts e else none

/-- `start_threading`, up to the first jump into a thread: both signals are blocked, and none has
    been caught; some may be pending. -/
def start (m : Machine) (pending : Finset Signo) : Process where
  machine := m
  place := .running
  signals := ⟨baseMask, pending⟩
  armed := alarm timeslice
  caught := []

end Process

/-! ### The masks -/

variable {ts : List Thread} {timeslice : ℕ} {s s' : Process} {h : Happening} {m₀ m m' : Machine}
variable {e : Input} {polled : Outcome} {signo : Signo}

/-- The mask of each place. -/
def Place.mask : Place → Finset Signo
  | .running => baseMask
  | .alrmWindow => alrmMask
  | .tstpWindow => tstpMask

/-- `base_mask` blocks both signals. -/
theorem mem_baseMask (signo : Signo) : signo ∈ baseMask := by cases signo <;> decide

/-- With the signal that is delivered in a window, both signals are blocked. -/
theorem insert_mask {p : Place} (hs : signo ∉ p.mask) : insert signo p.mask = baseMask := by
  cases p with
  | running => exact absurd (mem_baseMask signo) hs
  | alrmWindow =>
    cases signo with
    | tstp => rfl
    | alrm => exact absurd (by decide) hs
  | tstpWindow =>
    cases signo with
    | tstp => exact absurd (by decide) hs
    | alrm => decide

/-- After a jump out of a handler or a library call, both signals are blocked. -/
theorem mask_jumpedTo {k : Signals Signo} (hk : k.mask = baseMask) (j : Jump) :
    (jumpedTo k j).mask = baseMask := by
  unfold jumpedTo
  split
  · rfl
  · exact hk

/-- A jump takes no signal away. -/
theorem pending_jumpedTo (k : Signals Signo) (j : Jump) :
    (jumpedTo k j).pending = k.pending := by
  unfold jumpedTo
  split <;> rfl

/-! ### What a step does -/

/-- The steps of the process, one constructor for each of them. -/
inductive Moves (ts : List Thread) (timeslice : ℕ) (s : Process) : Happening → Process → Prop
  | raise (signo : Signo) : Moves ts timeslice s (.raise signo) { s with signals := s.signals.raise signo }
  | expire : s.armed = true →
      Moves ts timeslice s .expire { s with armed := false, signals := s.signals.raise .alrm }
  | handle {signo : Signo} {polled : Outcome} {k : Signals Signo} {sched : Sched} :
      s.signals.deliver signo = some k →
      scheduler s.machine.sched (.interrupt polled) = .ok sched →
      Moves ts timeslice s (.handle signo polled)
        ⟨{ s.machine with sched := sched, here := sched.entered }, .running,
          jumpedTo k sched.entered,
          if signo = .alrm then Process.alarm timeslice else s.armed, s.caught ++ [signo]⟩
  | threadYield {e : Input} {m : Machine} : s.place = .running → s.machine.call ts e = some .threadYield →
      s.machine.stepOk ts { e with signal := none } = some m →
      Moves ts timeslice s (.run e)
        { s with machine := m, place := .alrmWindow, signals := s.signals.setMask alrmMask }
  | piece {e : Input} {m : Machine} {call : Call} : s.place = .running →
      s.machine.call ts e = some call → call ≠ .threadYield →
      s.machine.stepOk ts { e with signal := none } = some m →
      Moves ts timeslice s (.run e) { s with machine := m, signals := jumpedTo s.signals m.here }
  | alrmWindow {e : Input} : s.place = .alrmWindow → s.signals.Quiet →
      Moves ts timeslice s (.run e)
        { s with place := .tstpWindow, signals := s.signals.setMask tstpMask }
  | tstpWindow {e : Input} : s.place = .tstpWindow → s.signals.Quiet →
      Moves ts timeslice s (.run e)
        { s with place := .running, signals := s.signals.setMask baseMask }

/-- What the handler does, up to the jump into a thread. -/
theorem sighandler_moves (hstep : s.sighandler timeslice signo polled = some s') :
    Moves ts timeslice s (.handle signo polled) s' := by
  unfold Process.sighandler at hstep
  obtain ⟨k, hk, hstep⟩ := Option.bind_eq_some_iff.mp hstep
  obtain ⟨sched, hsched, hstep⟩ := Option.bind_eq_some_iff.mp hstep
  cases hx : scheduler s.machine.sched (.interrupt polled) with
  | error =>
    rw [hx] at hsched
    cases hsched
  | ok sched' =>
    rw [hx] at hsched
    cases hsched
    cases hstep
    exact .handle hk hx

/-- What the next piece does. -/
theorem runPiece_moves (hplace : s.place = .running) (hstep : s.runPiece ts e = some s') :
    Moves ts timeslice s (.run e) s' := by
  unfold Process.runPiece at hstep
  obtain ⟨call, hcall, hstep⟩ := Option.bind_eq_some_iff.mp hstep
  obtain ⟨m, hm, hstep⟩ := Option.bind_eq_some_iff.mp hstep
  cases call with
  | threadYield =>
    cases hstep
    exact .threadYield hplace hcall hm
  | asyncRead | threadExit =>
    cases hstep
    exact .piece hplace hcall (by simp) hm

/-- **Inversion** of a step. -/
theorem step_moves (hstep : s.step ts timeslice h = some s') : Moves ts timeslice s h s' := by
  -- `run` is the one that waits until no unblocked signal is pending
  cases h with
  | raise signo =>
    cases hstep
    exact .raise signo
  | expire =>
    rw [Process.step] at hstep
    obtain ⟨harmed, hstep⟩ := Option.ite_none_right_eq_some.mp hstep
    cases hstep
    exact .expire harmed
  | handle signo polled => exact sighandler_moves hstep
  | run e =>
    rw [Process.step] at hstep
    obtain ⟨hquiet, hstep⟩ := Option.ite_none_right_eq_some.mp hstep
    unfold Process.runStep at hstep
    split at hstep
    · exact runPiece_moves ‹_› hstep
    · cases hstep
      exact .alrmWindow ‹_› hquiet
    · cases hstep
      exact .tstpWindow ‹_› hquiet

/-! ### The masks -/

/-- **The mask fits the place**: the windows of `thread_yield` let one signal through each, and
    elsewhere both are blocked. -/
theorem step_mask (hs : s.signals.mask = s.place.mask)
    (hstep : s.step ts timeslice h = some s') : s'.signals.mask = s'.place.mask := by
  cases step_moves hstep with
  | raise | expire => exact hs
  | handle hk _ =>
    obtain ⟨-, hmask, rfl⟩ := Signals.deliver_eq_some.mp hk
    rw [hs] at hmask
    exact mask_jumpedTo ((congrArg _ hs).trans (insert_mask hmask)) _
  | threadYield | alrmWindow | tstpWindow => rfl
  | piece hplace =>
    rw [hplace] at hs
    simp only [hplace]
    exact mask_jumpedTo hs _

/-- So it does in every reachable state. -/
theorem reachable_mask {pending : Finset Signo}
    (hrun : Reachable (Process.step ts timeslice) (.start timeslice m₀ pending) s) :
    s.signals.mask = s.place.mask := by
  obtain ⟨es, hes⟩ := hrun
  exact runFrom_invariant (fun s h s' hs hstep => step_mask hs hstep) rfl hes

/-- **Signals get through in `thread_yield` only**, `SIGTSTP` in its first window and `SIGALRM` in
    its second one; the handler enters the scheduler with both signals blocked, as `reorderwaiting`
    asks for, and so do `async_read` and `thread_exit`. -/
theorem scheduler_blocked {pending : Finset Signo}
    (hrun : Reachable (Process.step ts timeslice) (.start timeslice m₀ pending) s) :
    (s.place = .running → s.signals.mask = baseMask) ∧
      ∀ signo k, s.signals.deliver signo = some k →
        k.mask = baseMask ∧ s.place = if signo = .tstp then .alrmWindow else .tstpWindow := by
  have hmask := reachable_mask hrun
  refine ⟨fun hplace => by rw [hmask, hplace]; rfl, fun signo k hk => ?_⟩
  obtain ⟨-, hnot, rfl⟩ := Signals.deliver_eq_some.mp hk
  rw [hmask] at hnot
  refine ⟨(congrArg _ hmask).trans (insert_mask hnot), ?_⟩
  revert hnot
  cases s.place <;> cases signo <;> decide

/-- The first thread is in the first window of `thread_yield`, with `SIGTSTP` pending. -/
theorem scheduler_blocked_tstp :
    ∃ m₀ s k, begin oneOfEach = .ok m₀ ∧
      runFrom (Process.step oneOfEach 1) (.start 1 m₀ {.tstp}) [.run (quiet 0 seven)] = some s ∧
      s.signals.deliver .tstp = some k ∧ k.mask = baseMask ∧ s.place = .alrmWindow := by
  have hruns : (((begin oneOfEach).toOption.bind fun m =>
      runFrom (Process.step oneOfEach 1) (.start 1 m {.tstp}) [.run (quiet 0 seven)]).map fun s =>
        (s.signals.deliver .tstp).isSome) = some true := by decide +kernel
  obtain ⟨s, hs, hdeliver⟩ := Option.map_eq_some_iff.mp hruns
  obtain ⟨m₀, hm₀, hrun⟩ := Option.bind_eq_some_iff.mp hs
  obtain ⟨k, hk⟩ := Option.isSome_iff_exists.mp hdeliver
  obtain ⟨hmask, hplace⟩ := (scheduler_blocked ⟨_, hrun⟩).2 .tstp k hk
  refine ⟨m₀, s, k, ?_, hrun, hk, hmask, hplace⟩
  cases hbegin : begin oneOfEach with
  | ok m => rw [hbegin] at hm₀; cases hm₀; rfl
  | error stop => rw [hbegin] at hm₀; cases hm₀

/-! ### The steps of the machine -/

/-- Where a call is made, a thread executes, and its piece ends with this call. -/
theorem call_eq_some {call : Call} (hcall : m.call ts e = some call) :
    ∃ c slot t piece, m.sched.control = .running c ∧ m.sched.running = .ok slot ∧
      m.sched.deref slot = .ok t ∧
      (funcOf ts c.thread).piece m.here e.bytes t.arg t.locals = some piece ∧
      piece.call = call := by
  unfold Machine.call at hcall
  split at hcall
  · cases hcall
  · cases hcall
  · rename_i c hcontrol
    cases hderef : m.sched.running.bind m.sched.deref with
    | error =>
      rw [hderef] at hcall
      cases hcall
    | ok t =>
      rw [hderef] at hcall
      obtain ⟨piece, hpiece, hlast⟩ := Option.map_eq_some_iff.mp hcall
      obtain ⟨slot, hrunning, ht⟩ := bind_eq_ok hderef
      exact ⟨c, slot, t, piece, hcontrol, hrunning, ht, hpiece, hlast⟩

/-- The step of a machine that executes, as a function of the signal. -/
theorem call_step {call : Call} (hcall : m.call ts e = some call) :
    ∃ (piece : Piece) (output : List (Int32 × Int32)) (reads : List FifoRead),
      ∀ signal, m.step ts { e with signal := signal } =
        (step m.sched (.compute piece.locals)).bind fun s =>
          (call.exec s { e with signal := signal }).bind fun x =>
            .ok ⟨x.1, x.2, output, reads⟩ := by
  obtain ⟨c, slot, t, piece, hcontrol, hrunning, hderef, hpiece, rfl⟩ := call_eq_some hcall
  refine ⟨piece, m.output ++ (piece.printed.map fun v => (t.id, v)).toList,
    if m.here = .read then m.reads ++ [⟨c.thread, t.fd, e.bytes⟩] else m.reads, fun signal => ?_⟩
  simp only [Machine.step, hcontrol]
  rw [hrunning]
  change (m.sched.deref slot).bind _ = _
  rw [hderef]
  simp only [Except.bind, hpiece]
  rfl

/-- A machine that makes a step makes a call. -/
theorem exists_call (hstep : m.stepOk ts e = some m') : ∃ call, m.call ts e = some call := by
  rw [stepOk_machine] at hstep
  cases hcontrol : m.sched.control with
  | main | returned =>
    simp only [Machine.step, hcontrol] at hstep
    cases hstep
  | running c =>
    simp only [Machine.step, hcontrol] at hstep
    obtain ⟨slot, hrunning, hstep⟩ := bind_eq_ok hstep
    obtain ⟨t, hderef, hstep⟩ := bind_eq_ok hstep
    cases hpiece : (funcOf ts c.thread).piece m.here e.bytes t.arg t.locals with
    | none =>
      simp only [hpiece] at hstep
      cases hstep
    | some piece =>
      refine ⟨piece.call, ?_⟩
      simp only [Machine.call, hcontrol, hrunning, Except.bind, hderef, hpiece, Option.map_some]

/-- A signal changes `thread_yield` only. -/
theorem step_other {call : Call} (hcall : m.call ts e = some call) (hne : call ≠ .threadYield)
    (signal : Option Outcome) :
    m.stepOk ts { e with signal := signal } = m.stepOk ts { e with signal := none } := by
  obtain ⟨piece, output, reads, heq⟩ := call_step hcall
  unfold Machine.stepOk
  rw [heq, heq]
  cases call with
  | threadYield => exact absurd rfl hne
  | asyncRead | threadExit => rfl

/-- With a signal, `thread_yield` enters the scheduler where it returns without one. -/
theorem step_signal (sched : Sched) (polled : Outcome) :
    step sched (.threadYield (some polled)) =
      (step sched (.threadYield none)).bind fun sched => scheduler sched (.interrupt polled) := by
  cases hcontrol : sched.control with
  | main | returned =>
    simp only [step, hcontrol]
    rfl
  | running c =>
    simp only [step, hcontrol]
    cases sched.setjmp c .yield <;> rfl

/-- **A `thread_yield` that is interrupted** is one that is not, and then the scheduler. -/
theorem step_interrupt (hcall : m.call ts e = some .threadYield) :
    m.stepOk ts { e with signal := some polled } = some m' ↔
      ∃ m₁ sched, m.stepOk ts { e with signal := none } = some m₁ ∧
        scheduler m₁.sched (.interrupt polled) = .ok sched ∧
        m' = { m₁ with sched := sched, here := sched.entered } := by
  obtain ⟨piece, output, reads, heq⟩ := call_step hcall
  simp only [stepOk_machine, heq]
  -- the same piece without a signal, and then the scheduler that the handler calls
  constructor
  · intro hstep
    obtain ⟨s₁, hcompute, hstep⟩ := bind_eq_ok hstep
    obtain ⟨x, hexec, hlast⟩ := bind_eq_ok hstep
    cases hlast
    obtain ⟨s₂, hyield, hlast⟩ := bind_eq_ok hexec
    cases hlast
    rw [step_signal] at hyield
    obtain ⟨s₃, hyield, hsched⟩ := bind_eq_ok hyield
    refine ⟨⟨s₃, .yield, output, reads⟩, s₂, ?_, hsched, rfl⟩
    rw [hcompute]
    change (Call.threadYield.exec s₁ _).bind _ = _
    unfold Call.exec
    rw [hyield]
    rfl
  · rintro ⟨m₁, sched, hstep, hsched, rfl⟩
    obtain ⟨s₁, hcompute, hstep⟩ := bind_eq_ok hstep
    obtain ⟨x, hexec, hlast⟩ := bind_eq_ok hstep
    cases hlast
    obtain ⟨s₂, hyield, hlast⟩ := bind_eq_ok hexec
    cases hlast
    rw [hcompute]
    change (Call.threadYield.exec s₁ _).bind _ = _
    unfold Call.exec
    rw [step_signal, hyield]
    change ((scheduler s₂ (.interrupt polled)).bind _).bind _ = _
    rw [hsched]
    rfl

/-! ### The machine behind a process -/

/-- The interrupt of a step: the outcome of `select` for the scheduler that a signal calls in
    `thread_yield`.  Other calls take no notice of a signal. -/
def interruption (ts : List Thread) (m : Machine) (e : Input) : List Outcome :=
  if m.call ts e = some .threadYield then e.signal.toList else []

/-- A step without a signal is not interrupted. -/
theorem interruption_none (m : Machine) (e : Input) :
    interruption ts m { e with signal := none } = [] := by
  unfold interruption
  split <;> rfl

/-- `inputs` lead to the machine of the process, with one interrupt for each signal that was caught;
    in a window the last of them is the `thread_yield` that a signal can still interrupt. -/
structure Behind (ts : List Thread) (m₀ : Machine) (s : Process) (inputs : List Input) : Prop where
  run : runFrom (Machine.stepOk ts) m₀ inputs = some s.machine
  interrupts : (labelsOf (Machine.stepOk ts) (interruption ts) m₀ inputs).length = s.caught.length
  window : s.place ≠ .running → ∃ before e m₁, inputs = before ++ [{ e with signal := none }] ∧
    runFrom (Machine.stepOk ts) m₀ before = some m₁ ∧ m₁.call ts e = some .threadYield

variable {inputs : List Input}

/-- **One step of the process** is one of the machine, or none, or it interrupts the last one. -/
theorem step_behind (hmask : s.signals.mask = s.place.mask) (hs : Behind ts m₀ s inputs)
    (hstep : s.step ts timeslice h = some s') : ∃ inputs', Behind ts m₀ s' inputs' := by
  obtain ⟨hrun, hcount, hwindow⟩ := hs
  cases step_moves hstep with
  | raise | expire => exact ⟨inputs, hrun, hcount, hwindow⟩
  | @handle signo polled k sched hk hsched =>
    have hplace : s.place ≠ .running := by
      intro hplace
      obtain ⟨-, hnot, -⟩ := Signals.deliver_eq_some.mp hk
      rw [hmask, hplace] at hnot
      exact hnot (mem_baseMask signo)
    -- the signal interrupts the last call
    obtain ⟨before, e, m₁, rfl, hbefore, hcall⟩ := hwindow hplace
    obtain ⟨m₂, hm₂, hyield⟩ := runFrom_concat_eq_some.mp hrun
    obtain rfl : m₁ = m₂ := Option.some.inj (hbefore.symm.trans hm₂)
    refine ⟨before ++ [{ e with signal := some polled }], ?_, ?_, fun hne => absurd rfl hne⟩
    · exact runFrom_concat_eq_some.mpr
        ⟨m₁, hbefore, (step_interrupt hcall).mpr ⟨s.machine, sched, hyield, hsched, rfl⟩⟩
    · have hinterrupt : interruption ts m₁ { e with signal := some polled } = [polled] :=
        if_pos hcall
      rw [labelsOf_concat hbefore, interruption_none, List.append_nil] at hcount
      rw [labelsOf_concat hbefore, hinterrupt, List.length_append, hcount, List.length_append]
      rfl
  | @threadYield e m hplace hcall hm =>
    refine ⟨inputs ++ [{ e with signal := none }], ?_, ?_, fun _ => ⟨inputs, e, s.machine, rfl, hrun,
      hcall⟩⟩
    · exact runFrom_concat_eq_some.mpr ⟨s.machine, hrun, hm⟩
    · rw [labelsOf_concat hrun, interruption_none, List.append_nil]
      exact hcount
  | @piece e m call hplace hcall hne hm =>
    refine ⟨inputs ++ [{ e with signal := none }], ?_, ?_, fun hne => absurd hplace hne⟩
    · exact runFrom_concat_eq_some.mpr ⟨s.machine, hrun, hm⟩
    · rw [labelsOf_concat hrun, interruption_none, List.append_nil]
      exact hcount
  | alrmWindow hplace =>
    exact ⟨inputs, hrun, hcount, fun _ => hwindow (by rw [hplace]; decide)⟩
  | tstpWindow => exact ⟨inputs, hrun, hcount, fun hne => absurd rfl hne⟩

/-- And so a run of the process is one of the machine. -/
theorem reachable_behind {pending : Finset Signo}
    (hrun : Reachable (Process.step ts timeslice) (.start timeslice m₀ pending) s) :
    ∃ inputs, Behind ts m₀ s inputs := by
  have hinv : s.signals.mask = s.place.mask ∧ ∃ inputs, Behind ts m₀ s inputs := by
    refine hrun.invariant (I := fun s => s.signals.mask = s.place.mask ∧
      ∃ inputs, Behind ts m₀ s inputs) (fun s h s' hs hstep => ?_) ⟨rfl, [], rfl, rfl, ?_⟩
    · obtain ⟨hmask, inputs, hbehind⟩ := hs
      exact ⟨step_mask hmask hstep, step_behind hmask hbehind hstep⟩
    · exact fun hne => absurd rfl hne
  exact hinv.2

/-- In a thread, with no signal pending. -/
def Process.idle (m : Machine) (armed : Bool) (caught : List Signo) : Process :=
  ⟨m, .running, ⟨baseMask, ∅⟩, armed, caught⟩

/-- With nothing pending, a jump leaves the process idle. -/
theorem signals_jumpedTo (j : Jump) : jumpedTo ⟨baseMask, ∅⟩ j = ⟨baseMask, ∅⟩ := by
  unfold jumpedTo
  split <;> rfl

section Idle

variable {armed : Bool} {caught : List Signo}

/-- Outside of `thread_yield`, no signal can be delivered. -/
theorem quiet_running (pending : Finset Signo) : (Signals.mk baseMask pending).Quiet :=
  fun signo _ => mem_baseMask signo

/-- An idle process makes the next piece of its thread. -/
theorem idle_piece {call : Call} (hcall : m.call ts e = some call) (hne : call ≠ .threadYield)
    (hm : m.stepOk ts { e with signal := none } = some m') :
    (Process.idle m armed caught).step ts timeslice (.run e) = some (.idle m' armed caught) := by
  rw [Process.idle, Process.step, if_pos (quiet_running ∅)]
  simp only [Process.runStep, Process.runPiece, hcall, hm, Option.bind_eq_bind, Option.bind_some,
    signals_jumpedTo]
  cases call with
  | threadYield => exact absurd rfl hne
  | asyncRead | threadExit => rfl

/-- At a `thread_yield` a process goes on to the first window. -/
theorem step_yield {pending : Finset Signo} (hcall : m.call ts e = some .threadYield)
    (hm : m.stepOk ts { e with signal := none } = some m') :
    (Process.mk m .running ⟨baseMask, pending⟩ armed caught).step ts timeslice (.run e) =
      some ⟨m', .alrmWindow, ⟨alrmMask, pending⟩, armed, caught⟩ := by
  rw [Process.step, if_pos (quiet_running pending)]
  simp only [Process.runStep, Process.runPiece, hcall, hm, Option.bind_eq_bind, Option.bind_some]
  rfl

/-- Without a signal an idle process gets through `thread_yield`. -/
theorem idle_through (hcall : m.call ts e = some .threadYield)
    (hm : m.stepOk ts { e with signal := none } = some m') :
    runFrom (Process.step ts timeslice) (.idle m armed caught) [.run e, .run e, .run e] =
      some (.idle m' armed caught) := by
  rw [Process.idle, runFrom_cons, step_yield hcall hm]
  rfl

/-- An idle process at a `thread_yield` that `SIGTSTP` interrupts. -/
theorem idle_interrupted {sched : Sched} (hcall : m.call ts e = some .threadYield)
    (hm : m.stepOk ts { e with signal := none } = some m')
    (hsched : scheduler m'.sched (.interrupt polled) = .ok sched) :
    runFrom (Process.step ts timeslice) (.idle m armed caught)
        [.raise .tstp, .run e, .handle .tstp polled] =
      some (.idle { m' with sched := sched, here := sched.entered } armed
        (caught ++ [.tstp])) := by
  have hraise : (Process.idle m armed caught).step ts timeslice (.raise .tstp) =
      some ⟨m, .running, ⟨baseMask, {.tstp}⟩, armed, caught⟩ := rfl
  have hdeliver : (Signals.mk alrmMask {.tstp}).deliver .tstp = some ⟨baseMask, ∅⟩ := rfl
  rw [runFrom_cons, hraise, Option.bind_some, runFrom_cons, step_yield hcall hm, Option.bind_some,
    runFrom_cons, Process.step, Process.sighandler]
  simp only [hdeliver, hsched, signals_jumpedTo, Option.bind_eq_bind, Option.bind_some]
  rfl

/-- A step of the machine, made by a process. -/
theorem idle_step (timeslice : ℕ) (hm : m.stepOk ts e = some m') (armed : Bool) (caught : List Signo) :
    ∃ caught', Reachable (Process.step ts timeslice) (.idle m armed caught)
      (.idle m' armed caught') := by
  obtain ⟨call, hcall⟩ := exists_call hm
  -- only a yield opens the windows in which a signal is taken
  by_cases hyield : call = .threadYield
  · subst hyield
    cases hsignal : e.signal with
    | none =>
      have hnone : { e with signal := none } = e := by rw [← hsignal]
      exact ⟨caught, _, idle_through hcall (hnone.symm ▸ hm)⟩
    | some polled =>
      have hsome : { e with signal := some polled } = e := by rw [← hsignal]
      obtain ⟨m₁, sched, hm₁, hsched, rfl⟩ := (step_interrupt hcall).mp (hsome.symm ▸ hm)
      exact ⟨_, _, idle_interrupted hcall hm₁ hsched⟩
  · have hnone : m.stepOk ts { e with signal := none } = some m' := by
      rw [← step_other hcall hyield e.signal]
      exact hm
    refine ⟨caught, [.run e], ?_⟩
    rw [runFrom_cons, idle_piece hcall hyield hnone]
    rfl

end Idle

/-- **Signals do what the interrupted calls do.**  However signals are raised and the timer expires:
    the machine of a process is one that the machine reaches by itself, in which as many calls of
    `thread_yield` are interrupted as signals were caught; and each machine that it reaches by
    itself is the machine of a process. -/
theorem signals_interrupt (ts : List Thread) (timeslice : ℕ) (m₀ : Machine) :
    (∀ pending s, Reachable (Process.step ts timeslice) (.start timeslice m₀ pending) s →
      ∃ inputs, runFrom (Machine.stepOk ts) m₀ inputs = some s.machine ∧
        (labelsOf (Machine.stepOk ts) (interruption ts) m₀ inputs).length = s.caught.length) ∧
      ∀ m, Reachable (Machine.stepOk ts) m₀ m →
        ∃ s, Reachable (Process.step ts timeslice) (.start timeslice m₀ ∅) s ∧ s.machine = m := by
  refine ⟨fun pending s hrun => ?_, fun m hreach => ?_⟩
  · obtain ⟨inputs, hbehind⟩ := reachable_behind hrun
    exact ⟨inputs, hbehind.run, hbehind.interrupts⟩
  · -- each state of the machine is that of a process that is about to run a piece
    have hinv : ∃ armed caught, Reachable (Process.step ts timeslice)
        (.start timeslice m₀ ∅) (.idle m armed caught) := by
      refine hreach.invariant (I := fun m => ∃ armed caught, Reachable (Process.step ts timeslice)
        (.start timeslice m₀ ∅) (.idle m armed caught)) (fun m e m' hm hstep => ?_)
        ⟨_, _, .refl _⟩
      obtain ⟨armed, caught, hm⟩ := hm
      obtain ⟨caught', hstep'⟩ := idle_step timeslice hstep armed caught
      exact ⟨armed, caught', hm.trans hstep'⟩
    obtain ⟨armed, caught, hs⟩ := hinv
    exact ⟨_, hs, rfl⟩

/-! ### Time slices -/

/-- The window that lets a signal through. -/
def Signo.window : Signo → Place
  | .tstp => .alrmWindow
  | .alrm => .tstpWindow

/-- The window of a signal lets it through. -/
theorem notMem_window (signo : Signo) : signo ∉ signo.window.mask := by cases signo <;> decide

/-- The times a timer expired. -/
def expirations (hs : List Happening) : ℕ := hs.countP fun h => h matches .expire

/-- A signal stays pending until it is handled. -/
theorem step_pending (hpending : signo ∈ s.signals.pending) (hne : ∀ polled, h ≠ .handle signo polled)
    (hstep : s.step ts timeslice h = some s') : signo ∈ s'.signals.pending := by
  cases step_moves hstep with
  | raise | expire => exact Finset.mem_insert_of_mem hpending
  | @handle signo' polled k sched hk _ =>
    rw [pending_jumpedTo]
    refine Signals.deliver_of_ne hk ?_ hpending
    rintro rfl
    exact hne polled rfl
  | threadYield | alrmWindow | tstpWindow => exact hpending
  | piece =>
    rw [pending_jumpedTo]
    exact hpending

/-- The timer runs or its signal is pending. -/
def Ticking (s : Process) : Prop := s.armed = true ∨ .alrm ∈ s.signals.pending

/-- What keeps the timer going: the handler of `SIGALRM` starts it again. -/
theorem step_ticking (hslice : timeslice ≠ 0) (hs : Ticking s)
    (hstep : s.step ts timeslice h = some s') : Ticking s' := by
  rcases hs with harmed | hpending
  · cases step_moves hstep with
    | expire => exact .inr (Finset.mem_insert_self _ _)
    | handle =>
      left
      dsimp only
      split
      · exact decide_eq_true hslice
      · exact harmed
    | raise | threadYield | piece | alrmWindow | tstpWindow => exact .inl harmed
  · by_cases hhandle : ∃ polled, h = .handle .alrm polled
    · obtain ⟨polled, rfl⟩ := hhandle
      cases step_moves hstep with
      -- the handler calls `alarm(timeslice)`
      | handle => exact .inl (decide_eq_true hslice)
    · exact .inr (step_pending hpending (fun polled hh => hhandle ⟨polled, hh⟩) hstep)

/-- What a step adds to the times the timer expired or may still expire, and to those it was
    caught. -/
theorem step_expirations (hstep : s.step ts timeslice h = some s') :
    expirations [h] + s'.armed.toNat + s.caught.count .alrm ≤
      s.armed.toNat + s'.caught.count .alrm := by
  cases step_moves hstep with
  | raise | threadYield | piece | alrmWindow | tstpWindow => exact Nat.le_of_eq (by simp [expirations])
  | expire harmed => simp [expirations, harmed]
  | @handle signo polled k sched hk _ =>
    cases signo with
    | tstp => simp [expirations]
    | alrm =>
      have := Bool.toNat_le (Process.alarm timeslice)
      simp [expirations]
      omega

/-- The same along a run. By induction on it. -/
theorem run_expirations {hs : List Happening}
    (hrun : runFrom (Process.step ts timeslice) s hs = some s') :
    expirations hs + s'.armed.toNat + s.caught.count .alrm ≤
      s.armed.toNat + s'.caught.count .alrm := by
  induction hs generalizing s with
  | nil =>
    cases hrun
    simp [expirations]
  | cons h hs ih =>
    obtain ⟨s₁, hstep, hrest⟩ := runFrom_cons_eq_some.mp hrun
    have hhead := step_expirations hstep
    have htail := ih hrest
    have hsplit : expirations (h :: hs) = expirations [h] + expirations hs := by
      simp only [expirations, List.countP_cons, List.countP_nil]
      omega
    omega

/-- **A time slice ends.**  With a time slice, the timer runs or its signal is pending at all times,
    and each time it expired, except perhaps the last, was caught.  A signal that is pending stays so
    until it is handled, and no thread gets through the window that lets it through before. -/
theorem timeslice_ends {pending : Finset Signo} {hs : List Happening} (hslice : timeslice ≠ 0)
    (hrun : runFrom (Process.step ts timeslice) (.start timeslice m₀ pending) hs = some s) :
    Ticking s ∧ expirations hs ≤ s.caught.count .alrm + 1 ∧
      ∀ signo ∈ s.signals.pending, ∀ hs' s', (∀ polled, .handle signo polled ∉ hs') →
        runFrom (Process.step ts timeslice) s hs' = some s' →
        signo ∈ s'.signals.pending ∧
          (s'.place = signo.window → ∀ e, s'.step ts timeslice (.run e) = none) := by
  refine ⟨?_, ?_, fun signo hsigno hs' s' hnot hrun' => ?_⟩
  · exact runFrom_invariant (fun s h s' hs hstep => step_ticking hslice hs hstep)
      (.inl (decide_eq_true hslice)) hrun
  · have hle := run_expirations hrun
    have harmed : (Process.start timeslice m₀ pending).armed.toNat ≤ 1 := Bool.toNat_le _
    have hcaught : (Process.start timeslice m₀ pending).caught.count .alrm = 0 := rfl
    omega
  · have hreach : Reachable (Process.step ts timeslice) (.start timeslice m₀ pending) s' :=
      Reachable.trans ⟨hs, hrun⟩ ⟨hs', hrun'⟩
    -- only its own handler takes a pending signal away
    have hpending : signo ∈ s'.signals.pending := by
      refine runFrom_invariant_of_mem (I := fun s => signo ∈ s.signals.pending)
        (fun s h hmem s' hs hstep => ?_) hsigno hrun'
      exact step_pending hs (fun polled hh => hnot polled (hh ▸ hmem)) hstep
    refine ⟨hpending, fun hplace e => ?_⟩
    -- in its window the signal is not masked, so it has to be handled first
    have hquiet : ¬ s'.signals.Quiet := by
      refine Signals.not_quiet hpending ?_
      rw [reachable_mask hreach, hplace]
      exact notMem_window signo
    rw [Process.step, if_neg hquiet]

/-- The timer expires before the first thread has made a step. -/
theorem timeslice_ends_expire :
    ∃ m₀ s, begin oneOfEach = .ok m₀ ∧
      runFrom (Process.step oneOfEach 1) (.start 1 m₀ ∅) [.expire] = some s ∧
      .alrm ∈ s.signals.pending ∧ Ticking s ∧ expirations [.expire] ≤ s.caught.count .alrm + 1 := by
  obtain ⟨m₀, hm₀, -⟩ : ∃ m₀, begin oneOfEach = .ok m₀ ∧ Isolated oneOfEach m₀ ∧ _ :=
    begin_isolated (by decide) (by decide)
  have hrun : runFrom (Process.step oneOfEach 1) (.start 1 m₀ ∅) [.expire] =
      some ⟨m₀, .running, ⟨baseMask, {.alrm}⟩, false, []⟩ := rfl
  obtain ⟨hticking, hcount, -⟩ := timeslice_ends (by decide) hrun
  exact ⟨m₀, _, hm₀, hrun, Finset.mem_singleton_self _, hticking, hcount⟩

end SystemProgramming.Threads
