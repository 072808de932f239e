import SystemProgramming.Lib.RoundRobin
import SystemProgramming.Threads.QueueInvariant

namespace SystemProgramming.Threads

open Program Transition RoundRobin

/-!
# Thread library — bounded overtaking

The queues as a `Rota`: yields pass the turn on, exits drop out.

* `interrupt_turn` / `exit_turn` — each entry into the scheduler is one turn of the rota, which its
  trace shows;
* `Along.step` — so a run without `async_read` is a sequence of turns;
* `bounded_overtaking` — **between two resumptions of a thread no other one is resumed more than
  twice**, and if no thread exits each thread that was ready is resumed once.
-/

variable {fds : Ptr → ℕ} {n : ℕ} {s s₀ s' : Sched} {r w : List Ptr} {p t : Ptr}
  {polled waited : Outcome} {cs : List Creation}

/-- The queues of a state that hold `r` and `w`. -/
def rotaOf (s : Sched) (r w : List Ptr) : Rota Ptr := ⟨r, s.rqCurrent, w⟩

/-- The actions are calls of `select`. -/
def Selects (acts : List Action) : Prop := ∀ a ∈ acts, ∃ found, a = .select found

/-- A `select` resumes nobody. -/
theorem Selects.resume_notMem {acts : List Action} (h : Selects acts) (q : Option Ptr) :
    .resume q ∉ acts := fun hmem => by
  obtain ⟨found, hfound⟩ := h _ hmem
  cases hfound

/-! ### Turns -/

/-- In terms of the rota, `reorderwaiting` lets some of those who wait join the queue. -/
theorem Sound.reorderwaiting_arrives (h : Sound fds n s r w) {block : Bool} {o : Outcome}
    (hs : s.reorderwaiting block o = .ok s') :
    ∃ r' w' acts, Sound fds n s' r' w' ∧ Arrives (rotaOf s r w) (rotaOf s' r' w') ∧
      s'.trace = s.trace ++ acts ∧ Selects acts := by
  -- a failing `select` ends the process, and a blocking one does not return with nothing
  cases o with
  | error =>
    rw [reorderwaiting_error h.toHolds] at hs
    cases hs
  | ready S =>
    rw [reorderwaiting_ready h.toHolds] at hs
    split at hs
    · cases hs
    · cases hs
      refine ⟨_, _, [.select (s.found w S)], h.reordered S, ⟨rfl, _, rfl, ?_⟩, rfl, ?_⟩
      · exact List.filter_append_perm _ w
      · intro a ha
        exact ⟨_, List.mem_singleton.mp ha⟩

/-- And so does the `select` that does not wait. -/
theorem Sound.poll_arrives (h : Sound fds n s r w) (hs : s.poll polled = .ok s') :
    ∃ r' w' acts, Sound fds n s' r' w' ∧ Arrives (rotaOf s r w) (rotaOf s' r' w') ∧
      s'.trace = s.trace ++ acts ∧ Selects acts := by
  unfold Sched.poll at hs
  split at hs
  · exact h.reorderwaiting_arrives hs
  · cases hs
    refine ⟨r, w, [], h, ⟨rfl, [], (List.append_nil r).symm, .refl w⟩, (List.append_nil _).symm, ?_⟩
    exact fun a ha => absurd ha List.not_mem_nil

/-- What a jump into a thread does. -/
theorem resume_ok (hs : s.resume = .ok s') :
    ∃ slot t, s.running = .ok slot ∧ s.deref slot = .ok t ∧
      s' = { s.log (.resume slot) with control := .running t.environment } := by
  obtain ⟨slot, hslot, hs⟩ := bind_eq_ok hs
  obtain ⟨t, ht, hs⟩ := bind_eq_ok hs
  exact ⟨slot, t, hslot, ht, (Except.ok.inj hs).symm⟩

/-- A jump that succeeds goes to the ready thread at `rq_current`. -/
theorem Sound.resume_running (h : Sound fds n s r w) (hs : s.resume = .ok s') :
    ∃ p, (rotaOf s' r w).running = some p ∧ rotaOf s' r w = rotaOf s r w ∧
      Sound fds n s' r w ∧ Runs s' r ∧ s'.trace = s.trace ++ [.resume (some p)] := by
  obtain ⟨slot, t, hslot, ht, heq⟩ := resume_ok hs
  -- an empty slot would be dereferenced, so the place holds a thread of the queue
  have hc : s.rqCurrent < r.length := by
    by_contra hge
    rw [Sched.running, h.ready] at hslot
    unfold SlotArray.load at hslot
    split at hslot
    · rw [SlotArray.ofList, List.getElem?_eq_none (not_lt.mp hge)] at hslot
      cases hslot
      cases ht
    · cases hslot
  obtain rfl : some r[s.rqCurrent] = slot := Except.ok.inj ((h.running hc).symm.trans hslot)
  have hends : Ends (fun _ => False) s.resume _ := h.resume hc
  obtain ⟨hcur, hsound, -, t', ht', hk⟩ := hends.of_ok hs
  have hthread : t'.environment.thread = r[s.rqCurrent] := (h.tcb _ t' ht').2
  refine ⟨r[s.rqCurrent], ?_, ?_, hsound, ⟨_, hk, by omega, by simp only [hcur, hthread]⟩, ?_⟩
  · show r[s'.rqCurrent]? = _
    rw [hcur, List.getElem?_eq_getElem hc]
  · rw [rotaOf, hcur]
    rfl
  · rw [heq]
    rfl

/-- What an entry into the scheduler does that ends with a jump, after the actions `tr`: one turn of
    the rota `g`. -/
def Turned (fds : Ptr → ℕ) (n : ℕ) (g : Rota Ptr) (tr : List Action) (d : Bool) (s' : Sched) :
    Prop :=
  ∃ r w p acts, Sound fds n s' r w ∧ Runs s' r ∧ Turn g d (rotaOf s' r w) ∧
    (rotaOf s' r w).running = some p ∧ s'.trace = tr ++ (acts ++ [.resume (some p)]) ∧
    (∀ q, .resume q ∉ acts) ∧ (d = true → ∃ q, .exit q ∈ acts)

/-- A yield passes the turn on. -/
theorem interrupt_turn (h : Sound fds n s r w) (hs : scheduler s (.interrupt polled) = .ok s') :
    Turned fds n (rotaOf s r w) s.trace false s' := by
  obtain ⟨s₁, hpoll, hs⟩ := bind_eq_ok hs
  obtain ⟨r₁, w₁, acts, h₁, harrives, htrace, hselects⟩ := h.poll_arrives hpoll
  have hadvance : Sound fds n s₁.advance r₁ w₁ := { h₁ with }
  obtain ⟨p, hp, hrota, hsound, hruns, htrace'⟩ := hadvance.resume_running hs
  have hpass : rotaOf s₁.advance r₁ w₁ = (rotaOf s₁ r₁ w₁).pass := by
    show (⟨r₁, if s₁.rqCurrent + 1 = s₁.rqSize then 0 else s₁.rqCurrent + 1, w₁⟩ : Rota Ptr) = _
    rw [h₁.rqSize]
    rfl
  refine ⟨r₁, w₁, p, acts, hsound, hruns, ?_, hp, ?_, hselects.resume_notMem, nofun⟩
  · rw [hrota, hpass]
    exact .pass harrives
  · rw [htrace', ← List.append_assoc, ← htrace]
    rfl

/-- Refilling the slot of a thread that has dropped out. -/
theorem Sound.refill_arrives (h : Sound fds n (s.without r) (swapRemove r s.rqCurrent) w)
    (hroom : r.length ≤ threadMax) (hc : s.rqCurrent < r.length)
    (hs : (s.cleared r).refill waited = .ok s') :
    ∃ r' w' acts, Sound fds n s' r' w' ∧ s'.trace = s.trace ++ acts ∧ Selects acts ∧
      (rotaOf s' r' w' = (rotaOf s r w).drop ∨
        r.length = 1 ∧ Arrives (rotaOf s r w).drop (rotaOf s' r' w')) := by
  by_cases hone : r.length = 1
  · rw [refill_single hc hone] at hs
    obtain ⟨r', w', acts, h', harrives, htrace, hselects⟩ := h.reorderwaiting_arrives hs
    exact ⟨r', w', acts, h', htrace, hselects, .inr ⟨hone, harrives⟩⟩
  · rw [refill_cleared hroom hc hone] at hs
    obtain rfl := Except.ok.inj hs
    exact ⟨_, w, [], h, (List.append_nil _).symm, fun a ha => absurd ha List.not_mem_nil, .inl rfl⟩

/-- An exit drops out: the last thread takes the slot, or the scheduler waits, or it returns. -/
theorem exit_turn (h : Sound fds n s r w) (hc : s.rqCurrent < r.length)
    (hs : scheduler s (.exit polled waited) = .ok s') :
    Turned fds n (rotaOf s r w) s.trace true s' ∨
      s'.control = .returned ∧ ∃ acts, s'.trace = s.trace ++ acts ∧ ∀ q, .resume q ∉ acts := by
  obtain ⟨s₁, hpoll, hs⟩ := bind_eq_ok hs
  obtain ⟨r₁, w₁, acts, h₁, harrives, htrace, hselects⟩ := h.poll_arrives hpoll
  have hc₁ : s₁.rqCurrent < r₁.length := harrives.lt hc
  have hroom := h₁.room
  have hfreed := h₁.freed hc₁
  have hclear : (s₁.freed r₁[s₁.rqCurrent]).clearCurrent = .ok _ :=
    clearCurrent_eq h₁.ready h₁.rqSize (by omega) hc₁
  change s₁.freeCurrent.bind _ = _ at hs
  rw [freeCurrent_eq h₁.toHolds hc₁] at hs
  change (s₁.freed r₁[s₁.rqCurrent]).clearCurrent.bind _ = _ at hs
  rw [hclear] at hs
  generalize r₁[s₁.rqCurrent] = q at *
  have htrace₁ : (s₁.freed q).trace = s.trace ++ (acts ++ [.exit (some q)]) := by
    rw [← List.append_assoc, ← htrace]
    rfl
  -- between the poll and the last refill nobody is resumed
  have hquiet (acts' : List Action) (hselects' : Selects acts') (q' : Option Ptr) :
      Action.resume q' ∉ acts ++ ([.exit (some q)] ++ acts') := by
    simp only [List.mem_append, List.mem_singleton, reduceCtorEq, false_or, not_or]
    exact ⟨hselects.resume_notMem q', hselects'.resume_notMem q'⟩
  change (if _ then _ else _) = _ at hs
  -- no thread is left and the scheduler returns, or the next one gets its turn
  split at hs
  · cases hs
    refine .inr ⟨rfl, acts ++ [.exit (some q)], ?_, fun q' => ?_⟩
    · exact htrace₁
    · exact hquiet [] (fun a ha => absurd ha List.not_mem_nil) q'
  · obtain ⟨s₂, hrefill, hs⟩ := bind_eq_ok hs
    obtain ⟨r₂, w₂, acts', h₂, htrace₂, hselects', hrota₂⟩ :=
      hfreed.refill_arrives (by omega) hc₁ hrefill
    obtain ⟨p, hp, hrota, hsound, hruns, htrace'⟩ := h₂.resume_running hs
    refine .inl ⟨r₂, w₂, p, acts ++ ([.exit (some q)] ++ acts'), hsound, hruns, ?_, hp, ?_,
      hquiet acts' hselects', fun _ => ⟨some q, by simp⟩⟩
    · rw [hrota]
      rcases hrota₂ with hrota₂ | ⟨hone, harrives'⟩
      · rw [hrota₂]
        exact .drop harrives
      · exact .wait harrives hone harrives'
    · rw [htrace', htrace₂, htrace₁]
      simp only [List.append_assoc]

/-! ### Events -/

/-- The entry into the scheduler that an event makes. -/
def Event.entry : Event → Option Entry
  | .compute _ | .threadYield none => none
  | .threadYield (some polled) => some (.interrupt polled)
  | .asyncRead polled waited => some (.asyncRead polled waited)
  | .threadExit polled waited => some (.exit polled waited)

/-- An event writes the tcb of the executing thread at most, and then it may enter the scheduler. -/
theorem step_enters (h : Sound fds n s r w) (hrun : Runs s r) {e : Event}
    (hs : step s e = .ok s') :
    ∃ s₁, Sound fds n s₁ r w ∧ s₁.rqCurrent = s.rqCurrent ∧ s₁.control = s.control ∧
      s₁.trace = s.trace ∧
      (s' = s₁ ∨ ∃ entry, e.entry = some entry ∧ scheduler s₁ entry = .ok s') := by
  obtain ⟨c, hk, hc, hthread⟩ := hrun
  obtain ⟨t, ht, -⟩ := h.tcb_of_mem (List.mem_append_left w (List.getElem_mem hc))
  have ht' : s.heap c.thread = some t := by rw [hthread, ht]
  -- saving the context touches no queue, so only the entry into the scheduler is left
  cases e with
  | compute l =>
    obtain ⟨heq, hsound⟩ := h.compute hc hk hthread ht' l
    rw [heq] at hs
    exact ⟨_, hsound, rfl, rfl, rfl, .inl (Except.ok.inj hs).symm⟩
  | threadYield signal =>
    obtain ⟨heq, hsound⟩ := h.setjmp hc hthread ht' .yield
    simp only [step, hk] at hs
    change (s.setjmp c .yield).bind _ = _ at hs
    rw [heq] at hs
    refine ⟨_, hsound, rfl, rfl, rfl, ?_⟩
    cases signal with
    | none => exact .inl (Except.ok.inj hs).symm
    | some o => exact .inr ⟨_, rfl, hs⟩
  | asyncRead o o' =>
    obtain ⟨heq, hsound⟩ := h.setjmp hc hthread ht' .read
    simp only [step, hk] at hs
    change (s.setjmp c .read).bind _ = _ at hs
    rw [heq] at hs
    exact ⟨_, hsound, rfl, rfl, rfl, .inr ⟨_, rfl, hs⟩⟩
  | threadExit o o' =>
    simp only [step, hk] at hs
    obtain ⟨slot, -, hs⟩ := bind_eq_ok hs
    obtain ⟨t, -, hs⟩ := bind_eq_ok hs
    exact ⟨s, h, rfl, rfl, rfl, .inr ⟨_, rfl, hs⟩⟩

/-- **One event** that is no `async_read`: the scheduler is not entered, or it makes one turn, or it
    returns. -/
theorem step_turn (h : Sound fds n s r w) (hrun : Runs s r) {e : Event}
    (hread : ∀ o o', e ≠ .asyncRead o o') (hs : step s e = .ok s') :
    (Sound fds n s' r w ∧ Runs s' r ∧ rotaOf s' r w = rotaOf s r w ∧ s'.trace = s.trace) ∨
    (∃ d, Turned fds n (rotaOf s r w) s.trace d s') ∨
    s'.control = .returned ∧ ∃ acts, s'.trace = s.trace ++ acts ∧ ∀ q, .resume q ∉ acts := by
  obtain ⟨s₁, hsound, hcur, hcontrol, htrace, heq | ⟨entry, hentry, hs⟩⟩ := step_enters h hrun hs
  · subst heq
    have hrota : rotaOf s' r w = rotaOf s r w := by rw [rotaOf, hcur, rotaOf]
    obtain ⟨c, hk, hc, hthread⟩ := hrun
    refine .inl ⟨hsound, ⟨c, hcontrol.trans hk, by omega, ?_⟩, hrota, htrace⟩
    simp only [hcur, hthread]
  · have hrota : rotaOf s₁ r w = rotaOf s r w := by rw [rotaOf, hcur, rotaOf]
    have hc : s₁.rqCurrent < r.length := by
      obtain ⟨-, -, hc, -⟩ := hrun
      omega
    rw [← hrota, ← htrace]
    -- a read is excluded, and computing does not enter the scheduler
    cases e with
    | compute l => cases hentry
    | threadYield signal =>
      cases signal with
      | none => cases hentry
      | some o =>
        cases hentry
        exact .inr (.inl ⟨false, interrupt_turn hsound hs⟩)
    | asyncRead o o' => exact absurd rfl (hread o o')
    | threadExit o o' =>
      cases hentry
      exact .inr ((exit_turn hsound hc hs).imp_left fun hturned => ⟨true, hturned⟩)

/-! ### Runs -/

/-- The threads that were jumped to. -/
def resumed (acts : List Action) : List Ptr :=
  acts.filterMap fun a => match a with
    | .resume q => q
    | _ => none

/-- Who was resumed along one trace and then another. -/
theorem resumed_append (acts acts' : List Action) :
    resumed (acts ++ acts') = resumed acts ++ resumed acts' :=
  List.filterMap_append

/-- The turns of a thread are the jumps into it. -/
theorem count_resumed (acts : List Action) (u : Ptr) :
    (resumed acts).count u = acts.count (.resume (some u)) := by
  induction acts with
  | nil => rfl
  | cons a acts ih =>
    rw [List.count_cons, ← ih, ← List.singleton_append, resumed_append, List.count_append,
      Nat.add_comm]
    congr 1
    cases a with
    | select | park | exit => rfl
    | resume q =>
      cases q with
      | none => rfl
      | some v =>
        show [v].count u = _
        rw [List.count_singleton']
        by_cases hvu : v = u
        · simp [hvu]
        · simp [hvu]

/-- Where there is no jump, nobody was resumed. -/
theorem resumed_quiet {acts : List Action} (h : ∀ q, .resume q ∉ acts) : resumed acts = [] := by
  refine List.filterMap_eq_nil_iff.mpr fun a ha => ?_
  cases a with
  | resume q => exact absurd ha (h q)
  | select | park | exit => rfl

/-- The run from `s₀`, with the rota `g₀`, to `s` is a sequence of turns. -/
def Along (fds : Ptr → ℕ) (n : ℕ) (s₀ : Sched) (g₀ : Rota Ptr) (s : Sched) : Prop :=
  ∃ g x acts, s.trace = s₀.trace ++ acts ∧ Turns g₀ (resumed acts) x g ∧
    (x = true → ∃ q, .exit q ∈ acts) ∧
    ((∃ r w, g = rotaOf s r w ∧ Sound fds n s r w ∧ Runs s r) ∨ s.control = .returned)

/-- **One event** is at most one turn. -/
theorem Along.step {g₀ : Rota Ptr} (h : Along fds n s₀ g₀ s) {e : Event}
    (hread : ∀ o o', e ≠ .asyncRead o o') (hs : step s e = .ok s') : Along fds n s₀ g₀ s' := by
  obtain ⟨g, x, acts, htrace, hturns, hexit, ⟨r, w, rfl, hsound, hruns⟩ | hk⟩ := h
  · -- the step gives no turn, one turn, or ends the run
    rcases step_turn hsound hruns hread hs with ⟨hsound', hruns', hrota, htrace'⟩ |
      ⟨d, r', w', p, acts', hsound', hruns', hturn, hp, htrace', hquiet, hexit'⟩ |
      ⟨hk', acts', htrace', hquiet⟩
    · exact ⟨_, x, acts, htrace'.trans htrace, hturns, hexit,
        .inl ⟨r, w, hrota.symm, hsound', hruns'⟩⟩
    · refine ⟨_, x || d, acts ++ (acts' ++ [.resume (some p)]), ?_, ?_, fun hx => ?_,
        .inl ⟨r', w', rfl, hsound', hruns'⟩⟩
      · rw [htrace', htrace, List.append_assoc]
      · have hmore : resumed (acts ++ (acts' ++ [.resume (some p)])) = resumed acts ++ [p] := by
          rw [resumed_append, resumed_append, resumed_quiet hquiet]
          rfl
        rw [hmore]
        exact hturns.turn hturn hp
      · rcases Bool.or_eq_true_iff.mp hx with hx | hd
        · obtain ⟨q, hq⟩ := hexit hx
          exact ⟨q, List.mem_append_left _ hq⟩
        · obtain ⟨q, hq⟩ := hexit' hd
          exact ⟨q, List.mem_append_right _ (List.mem_append_left _ hq)⟩
    · refine ⟨rotaOf s r w, x, acts ++ acts', ?_, ?_, fun hx => ?_, .inr hk'⟩
      · rw [htrace', htrace, List.append_assoc]
      · rw [resumed_append, resumed_quiet hquiet, List.append_nil]
        exact hturns
      · obtain ⟨q, hq⟩ := hexit hx
        exact ⟨q, List.mem_append_left _ hq⟩
  · simp only [Threads.step, hk] at hs
    cases hs

/-- A run of events is a sequence of turns. -/
theorem Along.run {g₀ : Rota Ptr} {es : List Event} (h : Along fds n s₀ g₀ s)
    (hread : ∀ e ∈ es, ∀ o o', e ≠ .asyncRead o o') (hrun : runFrom stepOk s es = some s') :
    Along fds n s₀ g₀ s' := by
  induction es generalizing s with
  | nil =>
    cases hrun
    exact h
  | cons e es ih =>
    obtain ⟨s₁, hs₁, hrest⟩ := runFrom_cons_eq_some.mp hrun
    have hstep : Along fds n s₀ g₀ s₁ := h.step (hread e (by simp)) (stepOk_eq_some.mp hs₁)
    exact ih hstep (fun e' he' => hread e' (by simp [he'])) hrest

/-- A run that ends with the jump to `t` is turns up to one of `t`. -/
theorem Sound.turns (h : Sound fds n s r w) (hruns : Runs s r) {es : List Event}
    {acts : List Action} (hread : ∀ e ∈ es, ∀ o o', e ≠ .asyncRead o o')
    (hrun : runFrom stepOk s es = some s')
    (htrace : s'.trace = s.trace ++ (acts ++ [.resume (some t)])) :
    ∃ g x, Turns (rotaOf s r w) (resumed acts ++ [t]) x g ∧ ((∀ q, .exit q ∉ acts) → x = false) := by
  obtain ⟨g, x, acts', htrace', hturns, hexit, -⟩ :=
    Along.run ⟨rotaOf s r w, false, [], (List.append_nil _).symm, .start, nofun,
      .inl ⟨r, w, rfl, h, hruns⟩⟩ hread hrun
  -- the trace tells which turns were given
  obtain rfl : acts' = acts ++ [.resume (some t)] :=
    List.append_cancel_left (htrace'.symm.trans htrace)
  rw [resumed_append] at hturns
  refine ⟨g, x, hturns, fun hnone => ?_⟩
  by_contra hx
  obtain ⟨q, hq⟩ := hexit (Bool.eq_true_of_not_eq_false hx)
  rcases List.mem_append.mp hq with hq | hq
  · exact hnone q hq
  · cases List.mem_singleton.mp hq

/-- Nothing happens after `scheduler` has returned. -/
theorem run_returned {es : List Event} (hk : s.control = .returned)
    (hrun : runFrom stepOk s es = some s') : s' = s := by
  cases es with
  | nil => exact (Option.some.inj hrun).symm
  | cons e es =>
    obtain ⟨s₁, hs₁, -⟩ := runFrom_cons_eq_some.mp hrun
    rw [stepOk_eq_some] at hs₁
    simp only [step, hk] at hs₁
    cases hs₁

/-! ### The thread that was resumed last -/

/-- The scheduler ends with a jump, or returns to `main`. -/
theorem scheduler_resumes {entry : Entry} (hs : scheduler s entry = .ok s') :
    s'.control = .returned ∨ ∃ s₁ : Sched, s₁.resume = .ok s' := by
  -- each way through the scheduler ends with `resume`, or with the last thread gone
  cases entry with
  | start => exact .inr ⟨s, hs⟩
  | interrupt polled =>
    obtain ⟨s₁, -, hs⟩ := bind_eq_ok hs
    exact .inr ⟨_, hs⟩
  | asyncRead polled waited =>
    obtain ⟨s₁, -, hs⟩ := bind_eq_ok hs
    obtain ⟨s₂, -, hs⟩ := bind_eq_ok hs
    obtain ⟨s₃, -, hs⟩ := bind_eq_ok hs
    obtain ⟨s₄, -, hs⟩ := bind_eq_ok hs
    exact .inr ⟨s₄, hs⟩
  | exit polled waited =>
    obtain ⟨s₁, -, hs⟩ := bind_eq_ok hs
    obtain ⟨s₂, -, hs⟩ := bind_eq_ok hs
    obtain ⟨s₃, -, hs⟩ := bind_eq_ok hs
    split at hs
    · cases hs
      exact .inl rfl
    · obtain ⟨s₄, -, hs⟩ := bind_eq_ok hs
      exact .inr ⟨s₄, hs⟩

/-- The last action was the jump to the thread that executes. -/
def LastResumed (s : Sched) : Prop :=
  ∀ c, s.control = .running c → s.trace.getLast? = some (.resume (some c.thread))

/-- After a jump into a thread, this thread is the last one resumed. -/
theorem lastResumed_resume (hsettled : Settled fds n s') (hs : s.resume = .ok s') :
    LastResumed s' := by
  intro c hk
  obtain ⟨slot, t, hslot, -, rfl⟩ := resume_ok hs
  obtain ⟨r, w, hsound, ⟨c', hk', hc, hthread⟩ | ⟨hk', -⟩⟩ := hsettled
  · obtain rfl : c' = c := by
      rw [hk] at hk'
      exact (Control.running.inj hk').symm
    have hrunning := hsound.running hc
    rw [← hthread] at hrunning
    obtain rfl : slot = some c'.thread := Except.ok.inj (hslot.symm.trans hrunning)
    exact List.getLast?_concat
  · cases hk.symm.trans hk'

/-- Every event that is not the last one ends with a jump. -/
theorem lastResumed_step (h : Settled fds n s) (hlast : LastResumed s) {e : Event}
    (hs : step s e = .ok s') : LastResumed s' := by
  have hsettled : Settled fds n s' := settled_preserved h (stepOk_eq_some.mpr hs)
  obtain ⟨r, w, hsound, hrun | ⟨hk, -⟩⟩ := h
  · obtain ⟨s₁, -, -, hcontrol, htrace, rfl | ⟨entry, -, hs⟩⟩ := step_enters hsound hrun hs
    · intro c hk
      rw [htrace]
      exact hlast c (hcontrol ▸ hk)
    · rcases scheduler_resumes hs with hk | ⟨s₂, hs⟩
      · intro c hk'
        cases hk.symm.trans hk'
      · exact lastResumed_resume hsettled hs
  · simp only [step, hk] at hs
    cases hs

/-- The first thread has been resumed at the start. -/
theorem start_lastResumed (hsettled : Settled (fdsOf cs) cs.length s) (hs : start cs = .ok s) :
    LastResumed s := by
  obtain ⟨s₁, -, hs⟩ := bind_eq_ok hs
  exact lastResumed_resume hsettled hs

/-- The thread that was resumed last executes, and the rota is at its turn. -/
theorem LastResumed.running (hlast : LastResumed s) (hruns : Runs s r) {before : List Action}
    (htrace : s.trace = before ++ [.resume (some t)]) : (rotaOf s r w).running = some t := by
  obtain ⟨c, hk, hc, hthread⟩ := hruns
  have hresumed := hlast c hk
  rw [htrace, List.getLast?_concat, hthread] at hresumed
  obtain rfl : t = r[s.rqCurrent] := by simpa using hresumed
  exact List.getElem?_eq_getElem hc

/-- The slots of the ready queue hold its threads. -/
theorem Sound.mem_of_ready (h : Sound fds n s r w)
    (hready : some p ∈ s.readyQueue.range s.rqSize) : p ∈ r := by
  rw [h.range_ready] at hready
  obtain ⟨q, hq, hqp⟩ := List.mem_map.mp hready
  obtain rfl := Option.some.inj hqp
  exact hq

/-- **Bounded overtaking.**  In every run in which no thread calls `async_read`, between a resumption
    of the thread `t` and the next one no other thread is resumed more than twice, whatever threads
    yield, exit and become ready.  If none exits, each other thread that was in the ready queue at
    the first of them is resumed exactly once. -/
theorem bounded_overtaking (cs : List Creation) (hpos : 1 ≤ cs.length)
    (hmax : cs.length ≤ threadMax) :
    ∃ s₀, start cs = .ok s₀ ∧ ∀ es₀ s, runFrom stepOk s₀ es₀ = some s →
      ∀ before t, s.trace = before ++ [.resume (some t)] →
        ∀ es s' acts, runFrom stepOk s es = some s' → (∀ e ∈ es, ∀ o o', e ≠ .asyncRead o o') →
          s'.trace = s.trace ++ (acts ++ [.resume (some t)]) → .resume (some t) ∉ acts →
          ∀ u ≠ t, acts.count (.resume (some u)) ≤ 2 ∧
            ((∀ q, .exit q ∉ acts) → some u ∈ s.readyQueue.range s.rqSize →
              acts.count (.resume (some u)) = 1) := by
  obtain ⟨s₀, hstart, hsettled₀⟩ := start_settled cs hpos hmax
  refine ⟨s₀, hstart, fun es₀ s hrun₀ before t hbefore es s' acts hrun hread htrace hnot u hne => ?_⟩
  obtain ⟨hsettled, hlast⟩ :=
    runFrom_invariant (I := fun s => Settled (fdsOf cs) cs.length s ∧ LastResumed s)
      (fun _ _ _ h hs => ⟨settled_preserved h.1 hs, lastResumed_step h.1 h.2 (stepOk_eq_some.mp hs)⟩)
      ⟨hsettled₀, start_lastResumed hsettled₀ hstart⟩ hrun₀
  obtain ⟨r, w, hsound, hruns | ⟨hk, -⟩⟩ := hsettled
  · have ht : (rotaOf s r w).running = some t := hlast.running hruns hbefore
    obtain ⟨g, x, hturns, hstay⟩ := hsound.turns hruns hread hrun htrace
    have hmembers : (rotaOf s r w).members.Nodup := hsound.nodup
    -- the two turns of `t` are next to each other: in between it has none
    have hnot' : t ∉ resumed acts := by
      rwa [← List.count_eq_zero, count_resumed, List.count_eq_zero]
    rw [← count_resumed]
    refine ⟨overtaken_at_most_twice hmembers ht hturns hnot' u, fun hnone hready => ?_⟩
    obtain rfl := hstay hnone
    exact exactly_once hmembers ht hturns hnot' (hsound.mem_of_ready hready) hne
  · obtain rfl := run_returned hk hrun
    simp at htrace

/-- A yield with a pending signal. -/
def signalled : Event := .threadYield (some (.ready ∅))

/-- Between the turns of the second thread the first one exits, and the third takes its place. -/
def thirdMoves : List Event :=
  [signalled, signalled, .threadExit (.ready ∅) (.ready ∅), signalled]

/-- Between two turns of thread 1, thread 2 has two of them, since thread 0 exits. -/
theorem bounded_overtaking_thirdMoves :
    ∃ s₀ s s' acts, start threeThreads = .ok s₀ ∧ runFrom stepOk s₀ [signalled] = some s ∧
      runFrom stepOk s thirdMoves = some s' ∧
      s'.trace = s.trace ++ (acts ++ [.resume (some 1)]) ∧
      acts = [.resume (some 2), .resume (some 0), .exit (some 0), .resume (some 2)] ∧
      acts.count (.resume (some 2)) ≤ 2 := by
  obtain ⟨s₀, hstart, hall⟩ := bounded_overtaking threeThreads (by decide) (by decide)
  -- the run is evaluated, and the actions are read off its trace
  have hruns : ((start threeThreads).toOption.bind fun s =>
      (runFrom stepOk s [signalled]).bind fun s =>
        (runFrom stepOk s thirdMoves).map fun s' => (s.trace, s'.trace)) =
      some ([.resume (some 0)] ++ [.resume (some 1)], [.resume (some 0), .resume (some 1),
        .resume (some 2), .resume (some 0), .exit (some 0), .resume (some 2),
        .resume (some 1)]) := by decide +kernel
  rw [hstart] at hruns
  change ((runFrom stepOk s₀ [signalled]).bind _) = _ at hruns
  obtain ⟨s, hs, hrest⟩ := Option.bind_eq_some_iff.mp hruns
  obtain ⟨s', hs', htraces⟩ := Option.map_eq_some_iff.mp hrest
  obtain ⟨htrace, htrace'⟩ := Prod.mk.inj htraces
  refine ⟨s₀, s, s', _, hstart, hs, hs', by rw [htrace', htrace]; rfl, rfl, ?_⟩
  refine (hall _ s hs _ 1 htrace _ s' _ hs' (by simp [thirdMoves, signalled]) ?_ (by simp) 2
    (by decide)).1
  rw [htrace', htrace]
  rfl

end SystemProgramming.Threads
