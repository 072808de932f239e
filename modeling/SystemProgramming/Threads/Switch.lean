import SystemProgramming.Threads.Reorder

namespace SystemProgramming.Threads

open Program

/-!
# Thread library — one pass through the scheduler

What one entry of `scheduler` does, on the queues read as lists, and the invariant it keeps.

* `Answered` / `ResumesReady` — no thread is jumped to between `async_read` and the report of its
  descriptor, as a property of the trace;
* `Sound` — the queue invariant;
* `Sound.poll`, `Sound.clearRefill`, `Sound.resume` — each piece of `scheduler` keeps it;
* `scheduler_ends` — so does a whole entry, and nothing stops it except an answer of `select`.
-/

/-! ### Traces -/

/-- After each time `p` was parked, `select` has reported `fd`. -/
def Answered (fd : ℕ) (p : Ptr) (trace : List Action) : Prop :=
  ∀ pre post, trace = pre ++ .park (some p) :: post →
    ∃ found, Action.select found ∈ post ∧ fd ∈ found

/-- No thread is jumped to before its descriptor has been reported. -/
def ResumesReady (fds : Ptr → ℕ) (trace : List Action) : Prop :=
  ∀ pre post p, trace = pre ++ .resume (some p) :: post → Answered (fds p) p pre

variable {fds : Ptr → ℕ} {fd : ℕ} {p : Ptr} {tr : List Action} {a : Action}

/-- An action of `tr ++ [a]` is an action of `tr` or the last one. -/
theorem concat_eq_append_cons {pre post : List Action} {b : Action}
    (h : tr ++ [a] = pre ++ b :: post) :
    (pre = tr ∧ b = a) ∨ ∃ post', post = post' ++ [a] ∧ tr = pre ++ b :: post' := by
  rcases List.eq_nil_or_concat post with rfl | ⟨post', c, rfl⟩
  · obtain ⟨h1, h2⟩ := List.append_inj' h rfl
    exact .inl ⟨h1.symm, (List.singleton_inj.mp h2).symm⟩
  · rw [List.concat_eq_append, ← List.cons_append, ← List.append_assoc] at h
    obtain ⟨h1, h2⟩ := List.append_inj' h rfl
    rw [List.singleton_inj.mp h2, List.concat_eq_append]
    exact .inr ⟨post', rfl, h1⟩

/-- Nobody has been parked, so nothing has to be reported. -/
theorem Answered.nil : Answered fd p [] := by
  intro pre post h
  cases pre <;> cases h

/-- Only parking a thread makes it wait for a report. -/
theorem Answered.concat (h : Answered fd p tr) (ha : a ≠ .park (some p)) :
    Answered fd p (tr ++ [a]) := by
  intro pre post heq
  rcases concat_eq_append_cons heq with ⟨-, hb⟩ | ⟨post', rfl, htr⟩
  · exact absurd hb.symm ha
  · obtain ⟨found, hmem, hfd⟩ := h pre post' htr
    exact ⟨found, List.mem_append_left _ hmem, hfd⟩

/-- A report of the descriptor answers every earlier parking. -/
theorem Answered.of_select {found : Finset ℕ} (hfd : fd ∈ found) :
    Answered fd p (tr ++ [.select found]) := by
  intro pre post heq
  rcases concat_eq_append_cons heq with ⟨-, hb⟩ | ⟨post', rfl, htr⟩
  · cases hb
  · exact ⟨found, by simp, hfd⟩

/-- Nobody has been resumed yet. -/
theorem ResumesReady.nil : ResumesReady fds [] := by
  intro pre post p h
  cases pre <;> cases h

/-- An action that resumes nobody. -/
theorem ResumesReady.concat (h : ResumesReady fds tr) (ha : ∀ p, a ≠ .resume (some p)) :
    ResumesReady fds (tr ++ [a]) := by
  intro pre post p heq
  rcases concat_eq_append_cons heq with ⟨-, hb⟩ | ⟨post', rfl, htr⟩
  · exact absurd hb.symm (ha p)
  · exact h pre post' p htr

/-- Somebody is resumed after the answer for it. -/
theorem ResumesReady.resume (h : ResumesReady fds tr) (hp : Answered (fds p) p tr) :
    ResumesReady fds (tr ++ [.resume (some p)]) := by
  intro pre post q heq
  rcases concat_eq_append_cons heq with ⟨rfl, hb⟩ | ⟨post', rfl, htr⟩
  · cases hb
    exact hp
  · exact h pre post' q htr

/-! ### The invariant -/

variable {s s' : Sched} {r w : List Ptr} {n : ℕ}

/-- The queue invariant, for `n` created threads with descriptors `fds`: the queues hold `r` and
    `w`, no thread is in them twice, the threads in them are those that are alive, and every ready
    thread has got what it waited for. -/
structure Sound (fds : Ptr → ℕ) (n : ℕ) (s : Sched) (r w : List Ptr) : Prop
    extends Holds s r w where
  created : s.malloced = n
  nodup : (r ++ w).Nodup
  alive : ∀ p, p ∈ r ++ w ↔ (s.heap p).isSome = true
  below : ∀ p ∈ r ++ w, p < n
  tcb : ∀ p t, s.heap p = some t → t.fd = fds p ∧ t.environment.thread = p
  answered : ∀ p ∈ r, Answered (fds p) p s.trace
  resumes : ResumesReady fds s.trace

/-- Why an entry may stop: a failing `select`, or one without a timeout that none of the threads
    it waits for, `live`, can end. -/
def Excused (fds : Ptr → ℕ) (live : Ptr → Prop) (polled waited : Outcome) (e : Stop) : Prop :=
  (e = .exit ∧ (polled = .error ∨ waited = .error)) ∨
    (e = .blocked ∧ ∃ S, waited = .ready S ∧ (∃ p, live p) ∧ ∀ p, live p → fds p ∉ S)

/-- The descriptor a thread waits for is its own. -/
theorem Sound.fdOf_eq (h : Sound fds n s r w) (hp : p ∈ r ++ w) : s.fdOf p = fds p := by
  obtain ⟨t, ht, hfd⟩ := h.tcb_of_mem hp
  rw [← hfd, (h.tcb p t ht).1]

/-- `reorderwaiting` keeps the invariant. -/
theorem Sound.reordered (h : Sound fds n s r w) (S : Finset ℕ) :
    Sound fds n (s.reordered r w (s.found w S)) (r ++ w.filter (s.reported (s.found w S)))
      (w.filter fun p => !s.reported (s.found w S) p) where
  toHolds := h.toHolds.reordered _
  created := h.created
  nodup := (perm_reordered r w _).nodup_iff.mpr h.nodup
  alive p := (perm_reordered r w _).mem_iff.trans (h.alive p)
  below p hp := h.below p ((perm_reordered r w _).mem_iff.mp hp)
  tcb := h.tcb
  answered p hp := by
    -- who was ready had its answer before, and the others get it by this `select`
    rcases List.mem_append.mp hp with hp | hp
    · exact (h.answered p hp).concat (by simp)
    · obtain ⟨hpw, hrep⟩ := List.mem_filter.mp hp
      have hfd : s.fdOf p ∈ s.found w S := of_decide_eq_true hrep
      rw [h.fdOf_eq (List.mem_append_right r hpw)] at hfd
      exact .of_select hfd
  resumes := h.resumes.concat (by simp)

/-- **`reorderwaiting`** moves those whose descriptors are ready to the end of the ready queue; a
    `select` that blocks makes at least one of them ready. -/
theorem Sound.reorderwaiting (h : Sound fds n s r w) (block : Bool) {o polled waited : Outcome}
    (ho : o = if block then waited else polled) {live : Ptr → Prop}
    (hw : block = true → w ≠ [] ∧ ∀ p, live p ↔ p ∈ w) :
    Ends (Excused fds live polled waited) (s.reorderwaiting block o) fun s' =>
      s'.rqCurrent = s.rqCurrent ∧ s'.heap = s.heap ∧
        ∃ r' w', Sound fds n s' (r ++ r') w' ∧ (block = true → r' ≠ []) := by
  cases o with
  | error =>
    rw [reorderwaiting_error h.toHolds]
    refine .inl ⟨rfl, ?_⟩
    cases block
    · exact .inl ho.symm
    · exact .inr ho.symm
  | ready S =>
    rw [reorderwaiting_ready h.toHolds]
    -- `select` waits in vain, or some of the waiting threads are reported
    split
    · rename_i hblock
      obtain ⟨hne, hlive⟩ := hw hblock.1
      refine .inr ⟨rfl, S, ?_, ?_, ?_⟩
      · rw [ho, if_pos hblock.1]
      · obtain ⟨p, hp⟩ := List.exists_mem_of_ne_nil w hne
        exact ⟨p, (hlive p).mpr hp⟩
      · intro p hp hS
        have hpw : p ∈ w := (hlive p).mp hp
        have hfound : fds p ∈ s.found w S := by
          rw [Sched.found, Finset.mem_filter, mem_collected]
          exact ⟨⟨p, hpw, h.fdOf_eq (List.mem_append_right r hpw)⟩, hS⟩
        rw [hblock.2] at hfound
        exact absurd hfound (Finset.notMem_empty _)
    · rename_i hblock
      refine ⟨rfl, rfl, _, _, h.reordered S, fun hb => ?_⟩
      obtain ⟨fd, hfd⟩ := Finset.nonempty_iff_ne_empty.mpr fun h0 => hblock ⟨hb, h0⟩
      obtain ⟨p, hp, rfl⟩ := mem_collected.mp (Finset.mem_filter.mp hfd).1
      exact List.ne_nil_of_mem (List.mem_filter.mpr ⟨hp, decide_eq_true hfd⟩)

/-! ### The pieces of `scheduler` -/

variable {polled waited : Outcome} {live : Ptr → Prop} {allowed : Stop → Prop}

/-- If anybody waits, `select` is called without waiting, and may make nobody ready. -/
theorem Sound.poll (h : Sound fds n s r w) :
    Ends (Excused fds live polled waited) (s.poll polled) fun s' =>
      s'.rqCurrent = s.rqCurrent ∧ s'.heap = s.heap ∧ ∃ r' w', Sound fds n s' (r ++ r') w' := by
  unfold Sched.poll
  split
  · exact (h.reorderwaiting false rfl (by simp)).mono fun s' ⟨hc, hheap, r', w', hs, _⟩ =>
      ⟨hc, hheap, r', w', hs⟩
  · exact ⟨rfl, rfl, [], w, by rwa [List.append_nil]⟩

/-- `RUNNING` is the ready thread at `rq_current`. -/
theorem Holds.running (h : Holds s r w) (hc : s.rqCurrent < r.length) :
    s.running = .ok (some r[s.rqCurrent]) := by
  have hroom := h.room
  rw [Sched.running, h.ready, SlotArray.load_ofList (by omega), List.getElem?_eq_getElem hc]

/-- The jump to `RUNNING`: it meets a live tcb, and resumes the thread that owns it. -/
theorem Sound.resume (h : Sound fds n s r w) (hc : s.rqCurrent < r.length) :
    Ends allowed s.resume fun s' =>
      s'.rqCurrent = s.rqCurrent ∧ Sound fds n s' r w ∧ s'.heap = s.heap ∧
        ∃ t, s.heap r[s.rqCurrent] = some t ∧ s'.control = .running t.environment := by
  have hmem : r[s.rqCurrent] ∈ r := List.getElem_mem hc
  obtain ⟨t, ht, -⟩ := h.tcb_of_mem (List.mem_append_left w hmem)
  unfold Sched.resume
  rw [h.running hc]
  show Ends _ ((s.deref _).bind _) _
  rw [deref_some ht]
  refine ⟨rfl, ?_, rfl, t, ht, rfl⟩
  exact { h with
    answered := fun p hp => (h.answered p hp).concat (by simp)
    resumes := h.resumes.resume (h.answered _ hmem) }

/-- The ready queue without its current thread, as the state that `refill` leaves it in. -/
def Sched.without (s : Sched) (r : List Ptr) : Sched :=
  { s with
    readyQueue := .ofList (swapRemove r s.rqCurrent)
    rqSize := (swapRemove r s.rqCurrent).length
    rqCurrent := if s.rqCurrent + 1 = r.length then 0 else s.rqCurrent }

/-- The ready queue right after its current slot is cleared. -/
def Sched.cleared (s : Sched) (r : List Ptr) : Sched :=
  { s with
    readyQueue := fun j => if j.val = s.rqCurrent then none else r[j.val]?
    rqSize := r.length - 1 }

/-- The last thread takes the slot of the current one. -/
theorem clearCurrent_eq (hready : s.readyQueue = .ofList r) (hsize : s.rqSize = r.length)
    (hroom : r.length ≤ threadMax) (hc : s.rqCurrent < r.length) :
    s.clearCurrent = .ok (s.cleared r) := by
  unfold Sched.clearCurrent
  rw [SlotArray.store_of_lt (by omega), hready, hsize]
  rfl

/-- The current thread was the only ready one. -/
theorem cleared_single (hc : s.rqCurrent < r.length) (hone : r.length = 1) :
    { s.cleared r with rqCurrent := 0 } = s.without r := by
  obtain ⟨p, rfl⟩ := List.length_eq_one_iff.mp hone
  have h0 : s.rqCurrent = 0 := by rw [List.length_singleton] at hc; omega
  have hqueue : (fun j => if j.val = 0 then none else [p][j.val]? : Queue) =
      SlotArray.ofList [] := by
    ext j : 1
    show (if j.val = 0 then none else [p][j.val]?) = none
    split
    · rfl
    · exact List.getElem?_eq_none (by rw [List.length_singleton]; omega)
  simp only [Sched.cleared, Sched.without, h0, hqueue, swapRemove, List.getLast?_singleton,
    List.dropLast_singleton, List.set_nil, List.length_singleton, List.length_nil]
  rfl

/-- Then the scheduler waits for a thread of the waiting queue. -/
theorem refill_single (hc : s.rqCurrent < r.length) (hone : r.length = 1) (o : Outcome) :
    (s.cleared r).refill o = (s.without r).reorderwaiting true o := by
  rw [← cleared_single hc hone]
  exact if_pos (by simp [Sched.cleared, hone])

/-- Otherwise the last thread takes its slot. -/
theorem refill_cleared (hroom : r.length ≤ threadMax) (hc : s.rqCurrent < r.length)
    (hmany : r.length ≠ 1) (o : Outcome) : (s.cleared r).refill o = .ok (s.without r) := by
  rcases List.eq_nil_or_concat r with rfl | ⟨a, x, rfl⟩
  · exact absurd hc (Nat.not_lt_zero _)
  · simp only [List.concat_eq_append, List.length_append, List.length_singleton] at *
    have hsize : (s.cleared (a ++ [x])).rqSize = a.length := by simp [Sched.cleared]
    have hlast : a.length < threadMax := by omega
    have hcap : s.rqCurrent < threadMax := by omega
    unfold Sched.refill
    rw [hsize, if_neg (by omega)]
    show (if s.rqCurrent ≠ a.length then _ else _) = _
    -- the cleared slot was the last one: back to the first
    by_cases hcur : s.rqCurrent = a.length
    · rw [if_neg (by simpa using hcur)]
      simp only [Sched.cleared, Sched.without, swapRemove_concat, List.length_append, hcur,
        List.length_singleton, if_true, List.length_set, Nat.add_sub_cancel]
      congr 2
      ext j : 1
      rw [List.set_eq_of_length_le (Nat.le_refl _)]
      simp only [SlotArray.ofList, List.getElem?_append]
      grind
    · -- it was not: the last thread moves into it
      rw [if_pos hcur]
      show (((s.cleared (a ++ [x])).readyQueue.load _ a.length).bind _) = _
      have hload : (s.cleared (a ++ [x])).readyQueue.load (Stop.fault .index) a.length =
          .ok (some x) := by
        rw [SlotArray.load_of_lt hlast]
        simp [Sched.cleared, Ne.symm hcur]
      rw [hload]
      show (SlotArray.store _ _ s.rqCurrent _).bind _ = _
      rw [SlotArray.store_of_lt hcap]
      show (SlotArray.store _ _ a.length none).bind _ = _
      rw [SlotArray.store_of_lt hlast]
      have hne : ¬ s.rqCurrent + 1 = a.length + 1 := by omega
      simp only [Except.bind, Sched.cleared, Sched.without, swapRemove_concat, if_neg hne,
        List.length_set, List.length_append, List.length_singleton, Nat.add_sub_cancel]
      congr 2
      ext j : 1
      simp only [SlotArray.ofList, List.getElem?_append, List.getElem?_set]
      grind

/-! ### Parking and freeing the current thread -/

/-- Moving the current thread to the waiting queue keeps all threads. -/
theorem perm_park (hc : s.rqCurrent < r.length) (w : List Ptr) :
    (swapRemove r s.rqCurrent ++ (w ++ [r[s.rqCurrent]])).Perm (r ++ w) := by
  have hcomm : (w ++ [r[s.rqCurrent]]).Perm ([r[s.rqCurrent]] ++ w) := List.perm_append_comm
  have hfront : (swapRemove r s.rqCurrent ++ [r[s.rqCurrent]]).Perm r :=
    (List.perm_append_singleton _ _).trans (perm_swapRemove hc).symm
  apply (hcomm.append_left _).trans
  rw [← List.append_assoc]
  exact hfront.append_right w

/-- The state between `waiting_queue[wq_size] = ready_queue[rq_current]` and the cleared slot. -/
def Sched.parked (s : Sched) (w : List Ptr) (p : Ptr) : Sched :=
  { s.log (.park (some p)) with
    waitingQueue := .ofList (w ++ [p])
    wqSize := w.length + 1 }

/-- `RUNNING` goes to the end of the waiting queue. -/
theorem park_eq (h : Holds s r w) (hc : s.rqCurrent < r.length) :
    s.park = .ok (s.parked w r[s.rqCurrent]) := by
  have hroom := h.room
  unfold Sched.park
  rw [h.running hc]
  show (s.waitingQueue.store _ s.wqSize _).bind _ = _
  rw [h.waiting, h.wqSize, SlotArray.store_length (by omega)]
  rfl

/-- Both queues are sound after `RUNNING` has been parked. -/
theorem Sound.parked (h : Sound fds n s r w) (hc : s.rqCurrent < r.length) :
    Sound fds n ((s.parked w r[s.rqCurrent]).without r) (swapRemove r s.rqCurrent)
      (w ++ [r[s.rqCurrent]]) where
  ready := rfl
  rqSize := rfl
  waiting := rfl
  wqSize := by
    rw [List.length_append]
    rfl
  room := by
    have hlen := (perm_park hc w).length_eq
    have hroom := h.room
    simp only [List.length_append] at hlen ⊢
    omega
  live p hp := h.live p ((perm_park hc w).mem_iff.mp hp)
  created := h.created
  nodup := (perm_park hc w).nodup_iff.mpr h.nodup
  alive p := (perm_park hc w).mem_iff.trans (h.alive p)
  below p hp := h.below p ((perm_park hc w).mem_iff.mp hp)
  tcb := h.tcb
  answered p hp := by
    have hnodup : (r[s.rqCurrent] :: swapRemove r s.rqCurrent).Nodup :=
      (perm_swapRemove hc).nodup_iff.mp h.nodup.of_append_left
    apply (h.answered p ((perm_swapRemove hc).mem_iff.mpr (List.mem_cons_of_mem _ hp))).concat
    -- the thread that is parked is not among the ready ones any more
    intro heq
    cases heq
    exact (List.nodup_cons.mp hnodup).1 hp
  resumes := h.resumes.concat (by simp)

/-- The state after `free(ready_queue[rq_current])`. -/
def Sched.freed (s : Sched) (p : Ptr) : Sched :=
  { s with heap := Function.update s.heap p none }.log (.exit (some p))

/-- `RUNNING` is given back to the heap. -/
theorem freeCurrent_eq (h : Holds s r w) (hc : s.rqCurrent < r.length) :
    s.freeCurrent = .ok (s.freed r[s.rqCurrent]) := by
  obtain ⟨t, ht, -⟩ := h.tcb_of_mem (List.mem_append_left w (List.getElem_mem hc))
  unfold Sched.freeCurrent
  rw [h.running hc]
  show (s.free (some _)).bind _ = _
  simp only [Sched.free, ht]
  rfl

/-- Both queues are sound without the thread that has exited. -/
theorem Sound.freed (h : Sound fds n s r w) (hc : s.rqCurrent < r.length) :
    Sound fds n ((s.freed r[s.rqCurrent]).without r) (swapRemove r s.rqCurrent) w := by
  have hperm : (r ++ w).Perm (r[s.rqCurrent] :: (swapRemove r s.rqCurrent ++ w)) :=
    (perm_swapRemove hc).append_right w
  -- the freed thread stood in no other place
  have hnodup := List.nodup_cons.mp (hperm.nodup_iff.mp h.nodup)
  have halive (p : Ptr) : p ∈ swapRemove r s.rqCurrent ++ w ↔
      (((s.freed r[s.rqCurrent]).without r).heap p).isSome = true := by
    show _ ↔ (Function.update s.heap r[s.rqCurrent] none p).isSome = true
    by_cases hp : p = r[s.rqCurrent]
    · subst hp
      simp [hnodup.1]
    · rw [Function.update_of_ne hp, ← h.alive p, hperm.mem_iff, List.mem_cons]
      exact (or_iff_right hp).symm
  refine
    { ready := rfl, rqSize := rfl, waiting := h.waiting, wqSize := h.wqSize, room := ?_,
      live := fun p hp => (halive p).mp hp, created := h.created, nodup := hnodup.2,
      alive := halive, below := ?_, tcb := ?_, answered := ?_, resumes := ?_ }
  · have hlen := length_swapRemove r s.rqCurrent
    have hroom := h.room
    omega
  · intro p hp
    exact h.below p (hperm.mem_iff.mpr (List.mem_cons_of_mem _ hp))
  · intro p t ht
    apply h.tcb p t
    change Function.update s.heap r[s.rqCurrent] none p = some t at ht
    rcases eq_or_ne p r[s.rqCurrent] with rfl | hp
    · simp at ht
    · rwa [Function.update_of_ne hp] at ht
  · intro p hp
    exact (h.answered p ((perm_swapRemove hc).mem_iff.mpr (List.mem_cons_of_mem _ hp))).concat
      (by simp)
  · exact h.resumes.concat (by simp)

/-! ### A whole entry -/

/-- Some thread executes, the one at `rq_current`. -/
def Runs (s : Sched) (r : List Ptr) : Prop :=
  ∃ c, s.control = .running c ∧ ∃ h : s.rqCurrent < r.length, c.thread = r[s.rqCurrent]

/-- The state after an entry: a thread executes, or none is left and `scheduler` has returned. -/
def Settled (fds : Ptr → ℕ) (n : ℕ) (s : Sched) : Prop :=
  ∃ r w, Sound fds n s r w ∧ (Runs s r ∨ (s.control = .returned ∧ r = [] ∧ w = []))

/-- The state after an entry that left the tcbs `heap`: if a thread executes, it does so where its
    tcb says. -/
def Resumed (fds : Ptr → ℕ) (n : ℕ) (heap : Ptr → Option Tcb) (s : Sched) : Prop :=
  Settled fds n s ∧ s.heap = heap ∧
    ∀ c, s.control = .running c → ∃ t, heap c.thread = some t ∧ t.environment = c

/-- The jump leads into the thread that is now current. -/
theorem Sound.resume_settled (h : Sound fds n s r w) (hc : s.rqCurrent < r.length) :
    Ends allowed s.resume (Resumed fds n s.heap) :=
  (h.resume hc).mono fun s' ⟨hcur, hs, hheap, t, ht, hk⟩ => by
    have hthread : t.environment.thread = r[s.rqCurrent] := (h.tcb _ t ht).2
    refine ⟨⟨r, w, hs, .inl ⟨_, hk, by omega, by simp only [hcur, hthread]⟩⟩, hheap, ?_⟩
    intro c hc'
    have heq : c = t.environment := by simpa [hk, eq_comm] using hc'
    subst heq
    exact ⟨t, by rw [hthread, ht], rfl⟩

/-- The end of entries 2 and 3: refill the current slot and jump. -/
theorem Sound.refill_resume (h : Sound fds n (s.without r) (swapRemove r s.rqCurrent) w)
    (hroom : r.length ≤ threadMax) (hc : s.rqCurrent < r.length)
    (hw : r.length = 1 → w ≠ [] ∧ ∀ p, live p ↔ p ∈ w) :
    Ends (Excused fds live polled waited) (((s.cleared r).refill waited).bind Sched.resume)
      (Resumed fds n s.heap) := by
  have hlen := length_swapRemove r s.rqCurrent
  by_cases hone : r.length = 1
  · -- no thread is ready: the scheduler waits
    have hnil : swapRemove r s.rqCurrent = [] := List.eq_nil_of_length_eq_zero (by omega)
    rw [refill_single hc hone]
    rw [hnil] at h
    have hout : waited = if true then waited else polled := rfl
    refine (h.reorderwaiting true hout fun _ => hw hone).bind ?_
    intro s' ⟨hcur, hheap, r', w', hs, hr'⟩
    have hsame : s'.heap = s.heap := hheap
    rw [← hsame]
    apply hs.resume_settled
    have hzero : (s.without r).rqCurrent = 0 := if_pos (by omega)
    rw [hcur, hzero, List.nil_append]
    exact List.length_pos_iff.mpr (hr' rfl)
  · -- another ready thread takes the slot
    rw [refill_cleared hroom hc hone]
    apply h.resume_settled
    show (if s.rqCurrent + 1 = r.length then 0 else s.rqCurrent) < _
    split <;> omega

/-- **After a signal** the turn passes to the next thread. -/
theorem interrupt_ends (h : Sound fds n s r w) (hc : s.rqCurrent < r.length) :
    Ends (Excused fds live polled waited) (scheduler s (.interrupt polled))
      (Resumed fds n s.heap) := by
  refine h.poll.bind fun s' ⟨hcur, hheap, r', w', hs⟩ => ?_
  rw [← hheap]
  have hadv : Sound fds n s'.advance (r ++ r') w' := { hs with }
  apply hadv.resume_settled
  show (if s'.rqCurrent + 1 = s'.rqSize then 0 else s'.rqCurrent + 1) < _
  rw [hs.rqSize, hcur, List.length_append]
  split <;> omega

/-- **After `async_read`** the thread waits, and another one is resumed, after a `select` that
    blocks if there is none. -/
theorem asyncRead_ends (h : Sound fds n s r w) (hc : s.rqCurrent < r.length)
    (hlive : ∀ p, live p ↔ (s.heap p).isSome = true) :
    Ends (Excused fds live polled waited) (scheduler s (.asyncRead polled waited))
      (Resumed fds n s.heap) := by
  refine h.poll.bind fun s' ⟨hcur, hheap, r', w', hs⟩ => ?_
  have hc' : s'.rqCurrent < (r ++ r').length := by rw [hcur, List.length_append]; omega
  have hroom := hs.room
  have hsame : s.heap = (s'.parked w' (r ++ r')[s'.rqCurrent]).heap := hheap.symm
  rw [park_eq hs.toHolds hc', hsame]
  have hclear : (s'.parked w' (r ++ r')[s'.rqCurrent]).clearCurrent = .ok _ :=
    clearCurrent_eq hs.ready hs.rqSize (by omega) hc'
  show Ends _ ((s'.parked w' (r ++ r')[s'.rqCurrent]).clearCurrent.bind _) _
  rw [hclear]
  have hparked := hs.parked hc'
  -- when the last ready thread parks, all that live are waiting
  refine hparked.refill_resume (by omega) hc' fun hone => ⟨by simp, fun p => ?_⟩
  have hnil : swapRemove (r ++ r') s'.rqCurrent = [] :=
    List.eq_nil_of_length_eq_zero (by rw [length_swapRemove]; omega)
  have halive := hparked.alive p
  rw [hnil, List.nil_append] at halive
  rw [hlive, ← hheap, halive]
  rfl

/-- **After `thread_exit`** the thread is gone; when nobody is left, the scheduler returns to
    `main`. -/
theorem exit_ends (h : Sound fds n s r w) (hc : s.rqCurrent < r.length)
    (hlive : ∀ p, live p ↔ (s.heap p).isSome = true ∧ p ≠ r[s.rqCurrent]) :
    Ends (Excused fds live polled waited) (scheduler s (.exit polled waited))
      (Resumed fds n (Function.update s.heap r[s.rqCurrent] none)) := by
  refine h.poll.bind fun s' ⟨hcur, hheap, r', w', hs⟩ => ?_
  have hc' : s'.rqCurrent < (r ++ r').length := by rw [hcur, List.length_append]; omega
  have hroom := hs.room
  have hlen := length_swapRemove (r ++ r') s'.rqCurrent
  have hsame : (r ++ r')[s'.rqCurrent] = r[s.rqCurrent] := by
    simp only [hcur, List.getElem_append_left hc]
  have hfree : Function.update s.heap r[s.rqCurrent] none =
      (s'.freed (r ++ r')[s'.rqCurrent]).heap := by
    rw [← hheap, ← hsame]
    rfl
  rw [freeCurrent_eq hs.toHolds hc', hfree]
  have hclear : (s'.freed (r ++ r')[s'.rqCurrent]).clearCurrent = .ok _ :=
    clearCurrent_eq hs.ready hs.rqSize (by omega) hc'
  show Ends _ ((s'.freed (r ++ r')[s'.rqCurrent]).clearCurrent.bind _) _
  rw [hclear]
  show Ends _ (if (r ++ r').length - 1 = 0 ∧ s'.wqSize = 0 then _ else _) _
  split
  · rename_i hzero
    -- the last thread has exited: `scheduler` returns
    have hfreed := hs.freed hc'
    have hr : swapRemove (r ++ r') s'.rqCurrent = [] := List.eq_nil_of_length_eq_zero (by omega)
    have hw : w' = [] := List.eq_nil_of_length_eq_zero (by rw [← hs.wqSize]; exact hzero.2)
    subst hw
    rw [hr] at hfreed
    refine ⟨⟨[], [], ?_, .inr ⟨rfl, rfl, rfl⟩⟩, rfl, fun c hk => by cases hk⟩
    have hqueue : ((s'.freed (r ++ r')[s'.rqCurrent]).cleared (r ++ r')).readyQueue =
        SlotArray.ofList [] := by
      rw [← hfreed.ready,
        ← cleared_single (s := s'.freed (r ++ r')[s'.rqCurrent]) hc' (by omega)]
    exact { hfreed with
      ready := hqueue
      rqSize := hzero.1 }
  · rename_i hzero
    have hfreed := hs.freed hc'
    refine hfreed.refill_resume (by omega) hc' fun hone => ⟨fun hw => hzero ⟨by omega, ?_⟩, ?_⟩
    · rw [hs.wqSize, hw]
      rfl
    · intro p
      have hnil : swapRemove (r ++ r') s'.rqCurrent = [] :=
        List.eq_nil_of_length_eq_zero (by omega)
      have halive := hfreed.alive p
      rw [hnil, List.nil_append] at halive
      rw [hlive, ← hheap, halive, ← hsame]
      show _ ↔ (Function.update s'.heap (r ++ r')[s'.rqCurrent] none p).isSome = true
      by_cases hp : p = (r ++ r')[s'.rqCurrent]
      · subst hp
        simp
      · rw [Function.update_of_ne hp]
        exact and_iff_left hp

end SystemProgramming.Threads
