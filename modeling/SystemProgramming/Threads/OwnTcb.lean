import SystemProgramming.Threads.Functions
import SystemProgramming.Threads.QueueInvariant

namespace SystemProgramming.Threads

open Program Transition

/-!
# Thread library — every piece works on its own tcb

* `exec_call` — a library call stores the executing thread's context in its own tcb, or frees that
  tcb, and leaves every other tcb alone;
* `step_stepped` — so one step of the machine executes the next piece of one thread on that
  thread's own tcb;
* `step_quiet` — a step has a result unless a `select` fails or waits in vain.
-/

variable {fds : Ptr → ℕ} {n : ℕ} {ts : List Thread} {m m' : Machine} {e : Input}

/-- Where the thread goes on after the call; a thread that exits does not. -/
def Call.place : Call → Option Jump
  | .threadYield => some .yield
  | .asyncRead => some .read
  | .threadExit => none

/-- The tcb after a piece: `l` computed, and `setjmp` called at `j`. -/
def Tcb.left (t : Tcb) (p : Ptr) (l : Locals) (j : Jump) : Tcb :=
  { t with buf := l.buf, i := l.i, x := l.x, y := l.y, sum := l.sum, environment := ⟨p, j⟩ }

/-- The thread that executes goes on at `here`, where its tcb says. -/
def Sched.Enters (s : Sched) (here : Jump) : Prop :=
  ∀ c, s.control = .running c → ∃ t, s.heap c.thread = some t ∧ t.environment.jump = here

/-- A thread is entered where it has saved its environment. -/
theorem Resumed.enters {heap : Ptr → Option Tcb} {s : Sched} (h : Resumed fds n heap s) :
    s.Enters s.entered := by
  obtain ⟨-, hheap, hrun⟩ := h
  intro c hk
  obtain ⟨t, ht, henv⟩ := hrun c hk
  refine ⟨t, by rw [hheap, ht], ?_⟩
  rw [henv, Sched.entered, hk]

/-- The thread of the context `c` executes on its tcb `t`. -/
structure Executes (fds : Ptr → ℕ) (n : ℕ) (s : Sched) (r w : List Ptr) (c : Context) (t : Tcb) :
    Prop where
  sound : Sound fds n s r w
  control : s.control = .running c
  current : s.rqCurrent < r.length
  thread : c.thread = r[s.rqCurrent]
  tcb : s.heap c.thread = some t

section Exec

variable {s s' : Sched} {r w : List Ptr} {c : Context} {t : Tcb} {here : Jump}

/-- While a thread executes, `RUNNING` points to its own tcb. -/
theorem Settled.executes (h : Settled fds n s) (hk : s.control = .running c) :
    ∃ r w t, Executes fds n s r w c t := by
  obtain ⟨r, w, hs, ⟨c', hk', hc, hthread⟩ | ⟨hk', -⟩⟩ := h
  · obtain rfl : c = c' := Control.running.inj (hk.symm.trans hk')
    obtain ⟨t, ht, -⟩ := hs.tcb_of_mem (List.mem_append_left w (List.getElem_mem hc))
    exact ⟨r, w, t, hs, hk, hc, hthread, by rw [hthread, ht]⟩
  · cases hk.symm.trans hk'

/-- So `RUNNING` is what the code takes it for. -/
theorem Executes.running (h : Executes fds n s r w c t) : s.running = .ok (some c.thread) := by
  rw [h.sound.running h.current, h.thread]

/-- It is one of the threads that were created. -/
theorem Executes.below (h : Executes fds n s r w c t) : c.thread < n := by
  refine h.sound.below _ (List.mem_append_left w ?_)
  rw [h.thread]
  exact List.getElem_mem h.current

/-- And it is ready. -/
theorem Executes.runs (h : Executes fds n s r w c t) : Runs s r :=
  ⟨c, h.control, h.current, h.thread⟩

/-! ### The library calls -/

/-- **`thread_yield`** saves the environment and may enter another thread. -/
theorem exec_yield (h : Executes fds n s r w c t)
    (hx : Call.threadYield.exec s e = .ok (s', here)) :
    Settled fds n s' ∧
      s'.heap =
        Function.update s.heap c.thread (some { t with environment := ⟨c.thread, .yield⟩ }) ∧
      s'.Enters here := by
  obtain ⟨heq, hsound⟩ := h.sound.setjmp h.current h.thread h.tcb .yield
  set s₁ := s.assign (some c.thread) { t with environment := { c with jump := .yield } }
  obtain ⟨s₂, hstep, hlast⟩ := bind_eq_ok hx
  cases hlast
  simp only [step, h.control] at hstep
  rw [heq] at hstep
  cases hsig : e.signal with
  | none =>
    -- no signal is pending: the thread goes on behind `thread_yield`
    rw [hsig] at hstep
    obtain rfl : s₁ = s' := Except.ok.inj hstep
    refine ⟨⟨r, w, hsound, .inl h.runs⟩, rfl, fun c' hk' => ?_⟩
    obtain rfl : c' = c := Control.running.inj (hk'.symm.trans h.control)
    exact ⟨_, Function.update_self .., rfl⟩
  | some polled =>
    rw [hsig] at hstep
    have hends : Ends (Excused fds (fun _ => False) polled polled)
        (scheduler s₁ (.interrupt polled)) (Resumed fds n s₁.heap) :=
      interrupt_ends hsound h.current
    have hres := hends.of_ok hstep
    exact ⟨hres.1, hres.2.1, hres.enters⟩

/-- **`async_read`** saves the environment and enters the next thread that is ready. -/
theorem exec_read (h : Executes fds n s r w c t) (hx : Call.asyncRead.exec s e = .ok (s', here)) :
    Settled fds n s' ∧
      s'.heap =
        Function.update s.heap c.thread (some { t with environment := ⟨c.thread, .read⟩ }) ∧
      s'.Enters here := by
  obtain ⟨heq, hsound⟩ := h.sound.setjmp h.current h.thread h.tcb .read
  set s₁ := s.assign (some c.thread) { t with environment := { c with jump := .read } }
  obtain ⟨s₂, hstep, hlast⟩ := bind_eq_ok hx
  cases hlast
  simp only [step, h.control] at hstep
  rw [heq] at hstep
  have hends : Ends (Excused fds (fun p => (s₁.heap p).isSome = true) e.polled e.waited)
      (scheduler s₁ (.asyncRead e.polled e.waited)) (Resumed fds n s₁.heap) :=
    asyncRead_ends hsound h.current fun _ => Iff.rfl
  have hres := hends.of_ok hstep
  exact ⟨hres.1, hres.2.1, hres.enters⟩

/-- **`thread_exit`** gives the tcb back. -/
theorem exec_exit (h : Executes fds n s r w c t) (hx : Call.threadExit.exec s e = .ok (s', here)) :
    Settled fds n s' ∧ s'.heap = Function.update s.heap c.thread none ∧ s'.Enters here := by
  obtain ⟨s₂, hstep, hlast⟩ := bind_eq_ok hx
  cases hlast
  simp only [step, h.control] at hstep
  rw [h.running] at hstep
  change ((s.deref (some c.thread)).bind _) = _ at hstep
  rw [deref_some h.tcb] at hstep
  have hc := h.current
  have hends : Ends
      (Excused fds (fun p => (s.heap p).isSome = true ∧ p ≠ r[s.rqCurrent]) e.polled e.waited)
      (scheduler s (.exit e.polled e.waited))
      (Resumed fds n (Function.update s.heap r[s.rqCurrent] none)) :=
    exit_ends h.sound hc fun _ => Iff.rfl
  have hres := hends.of_ok hstep
  rw [h.thread]
  exact ⟨hres.1, hres.2.1, hres.enters⟩

/-- A library call stores the context of the thread in its tcb, or frees it, and the scheduler then
    enters a thread where that thread's tcb says. -/
theorem exec_call (h : Executes fds n s r w c t) {call : Call}
    (hx : call.exec s e = .ok (s', here)) :
    Settled fds n s' ∧
      s'.heap = Function.update s.heap c.thread
        (call.place.map fun j => { t with environment := ⟨c.thread, j⟩ }) ∧
      s'.Enters here := by
  cases call with
  | threadYield => exact exec_yield h hx
  | asyncRead => exact exec_read h hx
  | threadExit => exact exec_exit h hx

/-- What no `select` has to stop: none fails, and the ones that wait are told that all descriptors
    there are, `fd`, are ready. -/
def quiet (fd : ℕ) (bytes : Chunk) : Input := ⟨none, .ready ∅, .ready {fd}, bytes⟩

/-- A `select` that reports everybody who waits neither fails nor waits in vain. -/
theorem not_excused {fd : ℕ} {live : Ptr → Prop} (hlive : ∀ p, live p → fds p = fd) {stop : Stop} :
    ¬ Excused fds live (.ready ∅) (.ready {fd}) stop := by
  rintro (⟨-, h | h⟩ | ⟨-, S, hS, ⟨p, hp⟩, hall⟩)
  · cases h
  · cases h
  · cases hS
    exact hall p hp (Finset.mem_singleton.mpr (hlive p hp))

/-- Where all threads wait for one descriptor that is ready, every call comes back. -/
theorem exec_quiet (h : Executes fds n s r w c t) {fd : ℕ} (hfds : ∀ p < n, fds p = fd)
    (bytes : Chunk) (call : Call) : ∃ result, call.exec s (quiet fd bytes) = .ok result := by
  -- all threads there are have the descriptor that is ready
  have hlive (ev : Event) (p : Ptr) (hp : ev.Leaves s p) : fds p = fd :=
    hfds p (h.sound.below p ((h.sound.alive p).mpr hp.1))
  have hends (ev : Event) (hpolled : ev.polled = .ready ∅) (hwaited : ev.waited = .ready {fd}) :
      ∃ s', step s ev = .ok s' := by
    have hstep := step_settled h.sound h.runs ev
    cases hx : step s ev with
    | ok s' => exact ⟨s', rfl⟩
    | error stop =>
      have hexcused := hstep.of_error hx
      rw [hpolled, hwaited] at hexcused
      exact absurd hexcused (not_excused (hlive ev))
  cases call with
  -- no signal: `thread_yield` makes no `select`
  | threadYield =>
    obtain ⟨heq, -⟩ := h.sound.setjmp h.current h.thread h.tcb .yield
    have hx : Call.threadYield.exec s (quiet fd bytes) =
        (step s (.threadYield none)).bind fun s => .ok (s, .yield) := rfl
    simp only [step, h.control] at hx
    rw [heq] at hx
    exact ⟨_, hx⟩
  | asyncRead =>
    obtain ⟨s', hs'⟩ := hends (.asyncRead (.ready ∅) (.ready {fd})) rfl rfl
    refine ⟨(s', s'.entered), ?_⟩
    show (step s (.asyncRead (.ready ∅) (.ready {fd}))).bind _ = _
    rw [hs']
    rfl
  | threadExit =>
    obtain ⟨s', hs'⟩ := hends (.threadExit (.ready ∅) (.ready {fd})) rfl rfl
    refine ⟨(s', s'.entered), ?_⟩
    show (step s (.threadExit (.ready ∅) (.ready {fd}))).bind _ = _
    rw [hs']
    rfl

end Exec

/-! ### One step -/

/-- What one step does: the thread `p` executes `piece` on its tcb `t`, to which `RUNNING` points,
    and no other tcb is touched. -/
structure Stepped (ts : List Thread) (m m' : Machine) (e : Input) (p : Ptr) (t : Tcb)
    (piece : Piece) : Prop where
  control : ∃ j, m.sched.control = .running ⟨p, j⟩
  running : m.sched.running = .ok (some p)
  tcb : m.sched.heap p = some t
  code : (funcOf ts p).piece m.here e.bytes t.arg t.locals = some piece
  heap : m'.sched.heap =
    Function.update m.sched.heap p (piece.call.place.map (t.left p piece.locals))
  output : m'.output = m.output ++ (piece.printed.map fun v => (t.id, v)).toList
  reads : m'.reads = if m.here = .read then m.reads ++ [⟨p, t.fd, e.bytes⟩] else m.reads

section Step

variable {r w : List Ptr} {c : Context} {t : Tcb}

/-- The thread after it has computed `l`. -/
theorem Executes.compute {s : Sched} (h : Executes fds n s r w c t) (l : Locals) :
    ∃ s₁, step s (.compute l) = .ok s₁ ∧
      Executes fds n s₁ r w c { t with buf := l.buf, i := l.i, x := l.x, y := l.y, sum := l.sum } ∧
      s₁.heap = Function.update s.heap c.thread
        (some { t with buf := l.buf, i := l.i, x := l.x, y := l.y, sum := l.sum }) := by
  obtain ⟨heq, hsound⟩ := h.sound.compute h.current h.control h.thread h.tcb l
  exact ⟨_, heq, ⟨hsound, h.control, h.current, h.thread, Function.update_self ..⟩, rfl⟩

/-- The step of a machine that executes, reduced to its piece. -/
theorem step_eq (h : Executes fds n m.sched r w c t) :
    m.step ts e =
      match (funcOf ts c.thread).piece m.here e.bytes t.arg t.locals with
      | none => .error .notRunning
      | some piece =>
        (step m.sched (.compute piece.locals)).bind fun s =>
          (piece.call.exec s e).bind fun x => .ok {
            sched := x.1
            here := x.2
            output := m.output ++ (piece.printed.map fun v => (t.id, v)).toList
            reads :=
              if m.here = .read then m.reads ++ [⟨c.thread, t.fd, e.bytes⟩] else m.reads } := by
  simp only [Machine.step, h.control]
  rw [h.running]
  change (m.sched.deref (some c.thread)).bind _ = _
  rw [deref_some h.tcb]
  rfl

/-- **One step works on one tcb**: the one of the thread whose context executes. -/
theorem step_stepped (h : Executes fds n m.sched r w c t) (hstep : m.step ts e = .ok m') :
    ∃ piece, Stepped ts m m' e c.thread t piece ∧ Settled fds n m'.sched ∧
      m'.sched.Enters m'.here := by
  rw [step_eq h] at hstep
  -- a piece computes first, which changes only its own tcb, and then makes its call
  cases hpiece : (funcOf ts c.thread).piece m.here e.bytes t.arg t.locals with
  | none =>
    rw [hpiece] at hstep
    cases hstep
  | some piece =>
    rw [hpiece] at hstep
    obtain ⟨s₁, hcompute, hexec, hheap₁⟩ := h.compute piece.locals
    obtain ⟨s₂, hcompute₂, hcall⟩ := bind_eq_ok hstep
    obtain rfl : s₁ = s₂ := Except.ok.inj (hcompute.symm.trans hcompute₂)
    obtain ⟨result, hx, hlast⟩ := bind_eq_ok hcall
    cases hlast
    obtain ⟨hsettled, hheap, henters⟩ := exec_call hexec hx
    refine ⟨piece, ⟨⟨c.jump, h.control⟩, h.running, h.tcb, hpiece, ?_, rfl, rfl⟩, hsettled,
      henters⟩
    rw [hheap, hheap₁]
    exact Function.update_idem ..

/-- A step that no `select` stops has a result. -/
theorem step_quiet (h : Executes fds n m.sched r w c t) {fd : ℕ} (hfds : ∀ p < n, fds p = fd)
    {bytes : Chunk} {piece : Piece}
    (hpiece : (funcOf ts c.thread).piece m.here bytes t.arg t.locals = some piece) :
    ∃ m', m.step ts (quiet fd bytes) = .ok m' := by
  obtain ⟨s₁, hcompute, hexec, -⟩ := h.compute piece.locals
  obtain ⟨result, hx⟩ := exec_quiet hexec hfds bytes piece.call
  rw [step_eq h]
  simp only [quiet] at hx ⊢
  simp only [hpiece, hcompute]
  change ∃ m', (piece.call.exec s₁ _).bind _ = .ok m'
  rw [hx]
  exact ⟨_, rfl⟩

end Step

end SystemProgramming.Threads
