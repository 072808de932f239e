import SystemProgramming.Lib.Transition
import SystemProgramming.Threads.Switch

namespace SystemProgramming.Threads

open Program Transition

/-!
# Thread library — the queue invariant

* `start_settled` — `main` sets the queues up so that the invariant holds;
* `step_settled` — every event of the executing thread keeps it;
* `queue_invariant` — the queues along every run, read off the arrays.
-/

variable {fds : Ptr → ℕ} {n : ℕ} {s s' : Sched} {r w : List Ptr} {cs : List Creation}

/-- The descriptors of the created threads. -/
def fdsOf (cs : List Creation) (p : Ptr) : ℕ := cs[p]?.elim 0 Creation.fd

/-- The tcbs of the created threads. -/
def heapOf (cs : List Creation) (p : Ptr) : Option Tcb := cs[p]?.map fun c => c.tcb p

/-- One thread more, on the heap. -/
theorem heapOf_concat (cs : List Creation) (c : Creation) :
    heapOf (cs ++ [c]) = Function.update (heapOf cs) cs.length (some (c.tcb cs.length)) := by
  ext p : 1
  unfold heapOf
  by_cases hp : p = cs.length
  · subst hp
    rw [Function.update_self, List.getElem?_concat_length]
    rfl
  · rw [Function.update_of_ne hp]
    rcases Nat.lt_or_gt_of_ne hp with hlt | hgt
    · rw [List.getElem?_append_left hlt]
    · rw [List.getElem?_eq_none (by simp; omega), List.getElem?_eq_none (by omega)]

/-! ### Set-up -/

/-- **One `thread_setup`**: the new thread is the last of the ready queue. -/
theorem threadSetup_sound (h : Sound fds n s (List.range n) []) (htrace : s.trace = [])
    (hn : n < threadMax) (c : Creation) (hfd : c.fd = fds n) :
    ∃ s', threadSetup s c = .ok s' ∧ Sound fds (n + 1) s' (List.range (n + 1)) [] ∧
      s'.trace = [] ∧ s'.rqCurrent = s.rqCurrent ∧
      s'.heap = Function.update s.heap n (some (c.tcb n)) := by
  -- `malloc` has not handed out this address
  have hfresh : s.heap n = none := by
    by_contra hne
    have hmem := (h.alive n).mpr (Option.isSome_iff_ne_none.mpr hne)
    exact Nat.lt_irrefl n (h.below n hmem)
  have halive (p : ℕ) : p ∈ List.range (n + 1) ++ [] ↔
      (Function.update s.heap n (some (c.tcb n)) p).isSome = true := by
    have hp := h.alive p
    rw [List.append_nil, List.mem_range] at hp ⊢
    by_cases hpn : p = n
    · subst hpn
      simp
    · rw [Function.update_of_ne hpn, ← hp]
      omega
  have hlen : (List.range n).length = n := List.length_range
  refine ⟨{ s with
    readyQueue := .ofList (List.range (n + 1))
    heap := Function.update s.heap n (some (c.tcb n))
    malloced := n + 1
    rqSize := n + 1 }, ?_, ?_, htrace, rfl, rfl⟩
  · have hstore : s.readyQueue.store (Stop.fault .index) n (some n) =
        .ok (.ofList (List.range n ++ [n])) := by
      have happend := @SlotArray.store_length _ _ _ (Stop.fault .index) _ (hlen.trans_lt hn) n
      rwa [hlen, ← h.ready] at happend
    simp only [threadSetup, h.created, h.rqSize, hlen, hstore, List.range_succ]
    rfl
  · refine
      { ready := rfl, rqSize := (List.length_range).symm, waiting := h.waiting,
        wqSize := h.wqSize, room := ?_, live := fun p hp => (halive p).mp hp, created := rfl,
        nodup := ?_, alive := halive, below := ?_, tcb := ?_, answered := ?_, resumes := ?_ }
    · simp only [List.length_range, List.length_nil]
      omega
    · rw [List.append_nil]
      exact List.nodup_range
    · intro p hp
      rw [List.append_nil] at hp
      exact List.mem_range.mp hp
    · intro p t ht
      change Function.update s.heap n (some (c.tcb n)) p = some t at ht
      by_cases hpn : p = n
      · subst hpn
        rw [Function.update_self] at ht
        cases ht
        exact ⟨hfd, rfl⟩
      · rw [Function.update_of_ne hpn] at ht
        exact h.tcb p t ht
    · intro p _
      show Answered _ _ s.trace
      rw [htrace]
      exact .nil
    · show ResumesReady _ s.trace
      rw [htrace]
      exact .nil

/-- **All of them**, by induction: the ready queue holds the threads in the order of their
    creation. -/
theorem setup_sound (cs : List Creation) (hmax : cs.length ≤ threadMax) {fds : Ptr → ℕ}
    (hfds : ∀ p (h : p < cs.length), cs[p].fd = fds p) :
    ∃ s, cs.foldlM threadSetup Sched.empty = .ok s ∧
      Sound fds cs.length s (List.range cs.length) [] ∧ s.trace = [] ∧ s.rqCurrent = 0 ∧
      s.heap = heapOf cs := by
  induction cs using List.reverseRecOn with
  | nil =>
    refine ⟨.empty, rfl, ?_, rfl, rfl, rfl⟩
    exact
      { ready := rfl, rqSize := rfl, waiting := rfl, wqSize := rfl, room := by simp,
        live := by simp, created := rfl, nodup := by simp, alive := by simp [Sched.empty],
        below := by simp, tcb := by simp [Sched.empty], answered := by simp, resumes := .nil }
  -- the calls of `thread_create` in their order, so the last one is the next to set up
  | append_singleton cs c ih =>
    rw [List.length_append, List.length_singleton] at hmax ⊢
    obtain ⟨s, hs, hsound, htrace, hcur, hheap⟩ := ih (by omega) fun p h => by
      rw [← hfds p (by simp; omega), List.getElem_append_left h]
    have hfd : c.fd = fds cs.length := by
      rw [← hfds cs.length (by simp), List.getElem_concat_length rfl]
    obtain ⟨s', hs', hsound', htrace', hcur', hheap'⟩ :=
      threadSetup_sound hsound htrace (by omega) c hfd
    refine ⟨s', ?_, hsound', htrace', by rw [hcur', hcur], by rw [hheap', hheap, heapOf_concat]⟩
    rw [List.foldlM_append, hs]
    show (threadSetup s c).bind Except.ok = _
    rw [hs']
    rfl

/-- After `main` has called `scheduler`, the first thread executes. -/
theorem start_resumed (cs : List Creation) (hpos : 1 ≤ cs.length) (hmax : cs.length ≤ threadMax) :
    ∃ s, start cs = .ok s ∧ Resumed (fdsOf cs) cs.length (heapOf cs) s := by
  have hfds (p : ℕ) (h : p < cs.length) : cs[p].fd = fdsOf cs p := by simp [fdsOf, h]
  obtain ⟨s, hs, hsound, -, hcur, hheap⟩ := setup_sound cs hmax hfds
  have hlen : (List.range cs.length).length = cs.length := List.length_range
  have hend : Ends (fun _ => False) s.resume (Resumed (fdsOf cs) cs.length (heapOf cs)) := by
    rw [← hheap]
    exact hsound.resume_settled (by omega)
  have heq : start cs = s.resume := by
    show (cs.foldlM threadSetup Sched.empty).bind _ = _
    rw [hs]
    rfl
  rw [heq]
  cases hr : s.resume with
  | ok s' => exact ⟨s', rfl, hend.of_ok hr⟩
  | error e => exact (hend.of_error hr).elim

/-- The first scheduler resumes the first thread. -/
theorem start_settled (cs : List Creation) (hpos : 1 ≤ cs.length) (hmax : cs.length ≤ threadMax) :
    ∃ s, start cs = .ok s ∧ Settled (fdsOf cs) cs.length s := by
  obtain ⟨s, hs, hresumed⟩ := start_resumed cs hpos hmax
  exact ⟨s, hs, hresumed.1⟩

/-! ### Steps -/

/-- What the calls of `select` without and with waiting are told in an event. -/
def Event.polled : Event → Outcome
  | .compute _ | .threadYield none => .ready ∅
  | .threadYield (some o) | .asyncRead o _ | .threadExit o _ => o

/-- What the `select` that blocks is told. -/
def Event.waited : Event → Outcome
  | .compute _ | .threadYield _ => .ready ∅
  | .asyncRead _ o | .threadExit _ o => o

/-- The threads that are left when `s` does `e`. -/
def Event.Leaves (e : Event) (s : Sched) (p : Ptr) : Prop :=
  (s.heap p).isSome = true ∧ ∀ o o', e = .threadExit o o' → s.running ≠ .ok (some p)

/-- To assign a tcb frees none. -/
theorem isSome_assign {p : Ptr} (hp : (s.heap p).isSome = true) (t : Tcb) (q : Ptr) :
    ((s.assign (some p) t).heap q).isSome = (s.heap q).isSome := by
  show (Function.update s.heap p (some t) q).isSome = _
  by_cases hq : q = p
  · subst hq
    rw [Function.update_self, hp]
    rfl
  · rw [Function.update_of_ne hq]

/-- Writing the tcb of a live thread keeps the invariant, if its descriptor and owner stay. -/
theorem Sound.assign (h : Sound fds n s r w) {p : Ptr} (hp : p ∈ r ++ w) {t : Tcb}
    (ht : t.fd = fds p ∧ t.environment.thread = p) : Sound fds n (s.assign (some p) t) r w := by
  have hsome (q : Ptr) : ((s.assign (some p) t).heap q).isSome = (s.heap q).isSome :=
    isSome_assign (h.live p hp) t q
  exact
    { ready := h.ready, rqSize := h.rqSize, waiting := h.waiting, wqSize := h.wqSize,
      room := h.room, live := fun q hq => (hsome q).trans (h.live q hq), created := h.created,
      nodup := h.nodup, alive := fun q => by rw [hsome]; exact h.alive q, below := h.below,
      tcb := by
        intro q u hu
        change Function.update s.heap p (some t) q = some u at hu
        -- the new tcb is the one of `p`, any other is as it was
        by_cases hq : q = p
        · subst hq
          rw [Function.update_self] at hu
          cases hu
          exact ht
        · rw [Function.update_of_ne hq] at hu
          exact h.tcb q u hu
      answered := h.answered, resumes := h.resumes }

/-- `setjmp` stores the executing thread's context in its own tcb. -/
theorem Sound.setjmp (h : Sound fds n s r w) (hc : s.rqCurrent < r.length) {c : Context}
    (hthread : c.thread = r[s.rqCurrent]) {t : Tcb} (ht : s.heap c.thread = some t) (j : Jump) :
    s.setjmp c j = .ok (s.assign (some c.thread) { t with environment := { c with jump := j } }) ∧
      Sound fds n (s.assign (some c.thread) { t with environment := { c with jump := j } })
        r w := by
  have hmem : c.thread ∈ r ++ w := by
    rw [hthread]
    exact List.mem_append_left w (List.getElem_mem hc)
  refine ⟨?_, h.assign hmem ⟨(h.tcb _ t ht).1, rfl⟩⟩
  unfold Sched.setjmp
  rw [h.running hc, ← hthread]
  show (s.deref (some c.thread)).bind _ = _
  rw [deref_some ht]
  rfl

/-- Computing writes the executing thread's own tcb. -/
theorem Sound.compute (h : Sound fds n s r w) (hc : s.rqCurrent < r.length) {c : Context}
    (hk : s.control = .running c) (hthread : c.thread = r[s.rqCurrent]) {t : Tcb}
    (ht : s.heap c.thread = some t) (l : Locals) :
    step s (.compute l) = .ok (s.assign (some c.thread)
        { t with buf := l.buf, i := l.i, x := l.x, y := l.y, sum := l.sum }) ∧
      Sound fds n (s.assign (some c.thread)
        { t with buf := l.buf, i := l.i, x := l.x, y := l.y, sum := l.sum }) r w := by
  have hmem : c.thread ∈ r ++ w := by
    rw [hthread]
    exact List.mem_append_left w (List.getElem_mem hc)
  refine ⟨?_, h.assign hmem (h.tcb _ t ht)⟩
  simp only [step, hk]
  rw [h.running hc, ← hthread]
  show (s.deref (some c.thread)).bind _ = _
  rw [deref_some ht]
  rfl

/-- **One step keeps the invariant**, and nothing but an answer of `select` stops it. -/
theorem step_settled (h : Sound fds n s r w) (hrun : Runs s r) (e : Event) :
    Ends (Excused fds (e.Leaves s) e.polled e.waited) (step s e) (Settled fds n) := by
  obtain ⟨c, hk, hc, hthread⟩ := hrun
  obtain ⟨t, ht, -⟩ := h.tcb_of_mem (List.mem_append_left w (List.getElem_mem hc))
  have ht' : s.heap c.thread = some t := by rw [hthread, ht]
  cases e with
  | compute l =>
    obtain ⟨heq, hsound⟩ := h.compute hc hk hthread ht' l
    rw [heq]
    exact ⟨r, w, hsound, .inl ⟨c, hk, hc, hthread⟩⟩
  | threadYield signal =>
    obtain ⟨heq, hsound⟩ := h.setjmp hc hthread ht' .yield
    simp only [step, hk]
    show Ends _ ((s.setjmp c .yield).bind _) _
    rw [heq]
    cases signal with
    -- without a signal the same thread goes on
    | none => exact ⟨r, w, hsound, .inl ⟨c, hk, hc, hthread⟩⟩
    | some o => exact (interrupt_ends hsound hc).mono fun _ h => h.1
  | asyncRead o o' =>
    obtain ⟨heq, hsound⟩ := h.setjmp hc hthread ht' .read
    simp only [step, hk]
    show Ends _ ((s.setjmp c .read).bind _) _
    rw [heq]
    refine (asyncRead_ends hsound hc fun p => ?_).mono fun _ h => h.1
    rw [isSome_assign (by rw [ht']; rfl)]
    exact and_iff_left fun _ _ heq => by cases heq
  | threadExit o o' =>
    simp only [step, hk]
    show Ends _ (s.running.bind _) _
    rw [h.running hc]
    show Ends _ ((s.deref (some _)).bind _) _
    rw [deref_some ht]
    refine (exit_ends h hc fun p => and_congr_right fun _ => ?_).mono fun _ h => h.1
    rw [h.running hc]
    constructor
    · rintro hne rfl
      exact hne o o' rfl rfl
    · intro hne _ _ _ heq
      exact hne (Option.some.inj (Except.ok.inj heq)).symm

/-! ### Runs -/

/-- A step, when it has a result. -/
def stepOk (s : Sched) (e : Event) : Option Sched := (step s e).toOption

/-- A step that succeeds is one that does not stop. -/
theorem stepOk_eq_some {e : Event} : stepOk s e = some s' ↔ step s e = .ok s' := by
  unfold stepOk
  cases step s e with
  | ok t => simp [Except.toOption]
  | error f => simp [Except.toOption]

/-- **One event** keeps the state settled. -/
theorem settled_preserved {e : Event} (h : Settled fds n s) (hs : stepOk s e = some s') :
    Settled fds n s' := by
  rw [stepOk_eq_some] at hs
  obtain ⟨r, w, hsound, hrun | ⟨hk, -⟩⟩ := h
  · exact (step_settled hsound hrun e).of_ok hs
  · simp only [step, hk] at hs
    cases hs

/-- The queues of a state at a resumption, read off the arrays: nothing is `NULL`, and each created
    thread that is still alive stands in exactly one place. -/
structure QueuesCorrect (cs : List Creation) (s : Sched) : Prop where
  current : s.control ≠ .returned → s.rqCurrent < s.rqSize
  bounds : s.rqSize ≤ threadMax ∧ s.wqSize ≤ threadMax
  ready : none ∉ s.readyQueue.range s.rqSize
  waiting : none ∉ s.waitingQueue.range s.wqSize
  once : ∀ p < cs.length, s.heap p ≠ none →
    (s.readyQueue.range s.rqSize ++ s.waitingQueue.range s.wqSize).count (some p) = 1
  freed : ∀ p, s.heap p = none →
    some p ∉ s.readyQueue.range s.rqSize ++ s.waitingQueue.range s.wqSize
  resumed : ∀ c, s.control = .running c → s.running = .ok (some c.thread) ∧ s.heap c.thread ≠ none
  reported : ResumesReady (fdsOf cs) s.trace
  returned : s.control = .returned ↔ ∀ p < cs.length, s.heap p = none

/-- In a settled state the queues are correct. -/
theorem Settled.queuesCorrect (h : Settled (fdsOf cs) cs.length s) : QueuesCorrect cs s := by
  obtain ⟨r, w, hs, hend⟩ := h
  have hroom := hs.room
  have hready := hs.range_ready
  have hwaiting := hs.range_waiting
  have hboth : s.readyQueue.range s.rqSize ++ s.waitingQueue.range s.wqSize = (r ++ w).map some := by
    rw [hready, hwaiting, List.map_append]
  have halive (p : Ptr) : p ∈ r ++ w ↔ s.heap p ≠ none := by
    rw [hs.alive p, Option.isSome_iff_ne_none]
  refine
    { current := ?_, bounds := ?_, ready := ?_, waiting := ?_, once := ?_, freed := ?_,
      resumed := ?_, reported := hs.resumes, returned := ?_ }
  · intro hk
    rcases hend with ⟨c, -, hc, -⟩ | ⟨hk', -⟩
    · rw [hs.rqSize]
      exact hc
    · exact absurd hk' hk
  · rw [hs.rqSize, hs.wqSize]
    omega
  · simp [hready]
  · simp [hwaiting]
  · intro p _ hp
    rw [hboth, List.count_map_of_injective _ _ (Option.some_injective _)]
    exact List.count_eq_one_of_mem hs.nodup ((halive p).mpr hp)
  · intro p hp hmem
    rw [hboth, List.mem_map] at hmem
    obtain ⟨q, hq, heq⟩ := hmem
    cases heq
    exact (halive p).mp hq hp
  · -- the context that executes is the one of the thread at `rq_current`
    intro c hk
    rcases hend with ⟨c', hk', hc, hthread⟩ | ⟨hk', -⟩
    · cases hk.symm.trans hk'
      rw [hthread]
      exact ⟨hs.running hc, (halive _).mp (List.mem_append_left w (List.getElem_mem hc))⟩
    · cases hk.symm.trans hk'
  · constructor
    · intro hk p _
      rcases hend with ⟨c, hk', -⟩ | ⟨-, rfl, rfl⟩
      · cases hk.symm.trans hk'
      · by_contra hp
        exact absurd ((halive p).mpr hp) (by simp)
    · -- a thread that executes is alive
      intro hall
      rcases hend with ⟨c, hk, hc, -⟩ | ⟨hk, -⟩
      · have hmem : r[s.rqCurrent] ∈ r ++ w := List.mem_append_left w (List.getElem_mem hc)
        exact absurd (hall _ (hs.below _ hmem)) ((halive _).mp hmem)
      · exact hk

/-- **Queue invariant.**  However many threads `main` creates, up to `THREAD_MAX`, and whatever
    they do and `select` is told: at every resumption the queues are correct, no thread has been
    resumed before its descriptor was reported, and `scheduler` has returned exactly when all
    threads have exited.  No step uses memory wrongly: it stops only when a `select` fails, or
    waits for threads none of which is reported. -/
theorem queue_invariant (cs : List Creation) (hpos : 1 ≤ cs.length)
    (hmax : cs.length ≤ threadMax) :
    ∃ s₀, start cs = .ok s₀ ∧ ∀ es s, runFrom stepOk s₀ es = some s →
      QueuesCorrect cs s ∧
      ∀ e stop, s.control ≠ .returned → step s e = .error stop →
        Excused (fdsOf cs) (e.Leaves s) e.polled e.waited stop := by
  obtain ⟨s₀, hstart, hsettled⟩ := start_settled cs hpos hmax
  refine ⟨s₀, hstart, fun es s hrun => ?_⟩
  have hinv : Settled (fdsOf cs) cs.length s :=
    runFrom_invariant (fun _ _ _ h hs => settled_preserved h hs) hsettled hrun
  refine ⟨hinv.queuesCorrect, fun e stop hk herr => ?_⟩
  obtain ⟨r, w, hs, hrunning | ⟨hk', -⟩⟩ := hinv
  · exact (step_settled hs hrunning e).of_error herr
  · exact absurd hk' hk

/-- The threads of a run with all three thread functions. -/
def threeThreads : List Creation :=
  [⟨0, 3, 3, fun _ => 0⟩, ⟨1, 6, 4, fun _ => 0⟩, ⟨2, 1, 5, fun _ => 0⟩]

/-- The second thread waits for its descriptor while the others exit, then is resumed and exits. -/
def lastWaits : List Event :=
  [.threadYield (some (.ready ∅)), .asyncRead (.ready ∅) (.ready ∅),
    .threadExit (.ready ∅) (.ready ∅), .threadExit (.ready ∅) (.ready {4}),
    .threadExit (.ready ∅) (.ready ∅)]

/-- The queues after the last of three threads has waited. -/
theorem queue_invariant_lastWaits :
    ∃ s₀ s, start threeThreads = .ok s₀ ∧ runFrom stepOk s₀ lastWaits = some s ∧
      QueuesCorrect threeThreads s := by
  obtain ⟨s₀, hstart, hall⟩ := queue_invariant threeThreads (by decide) (by decide)
  have hruns : ((start threeThreads).toOption.bind fun s =>
      runFrom stepOk s lastWaits).isSome = true := by decide +kernel
  rw [hstart] at hruns
  obtain ⟨s, hs⟩ := Option.isSome_iff_exists.mp hruns
  exact ⟨s₀, s, hstart, hs, (hall lastWaits s hs).1⟩

end SystemProgramming.Threads
