import SystemProgramming.Threads.Reorder

namespace SystemProgramming.Threads

open Program

/-!
# Thread library — `reorderwaiting` on any queues

`Holds` knows the whole arrays.  Here they may hold anything past the ends of the queues.

* `reorderwaiting_over` — what lies past the ends is neither read nor written, apart from the slots
  that the ready threads are appended in;
* `reorderwaiting_partition` — so `reorderwaiting` is a stable partition of any waiting queue.
-/

variable {s s' : Sched} {r w : List Ptr} {n : ℕ} {tr tw : Queue}

/-- The state with other things past the end of the ready queue, and past the first `n` slots of the
    waiting queue. -/
def Sched.over (s : Sched) (n : ℕ) (tr tw : Queue) : Sched :=
  { s with
    readyQueue := .splice s.rqSize s.readyQueue tr
    waitingQueue := .splice n s.waitingQueue tw }

/-! ### The three loops -/

theorem collectFd_over {i : ℕ} (hi : i < n) (acc : Finset ℕ × ℕ) :
    (s.over n tr tw).collectFd acc i = s.collectFd acc i := by
  show ((SlotArray.splice n s.waitingQueue tw).load _ i).bind _ = (s.waitingQueue.load _ i).bind _
  rw [SlotArray.load_splice hi]
  rfl

theorem moveReady_over {found : Finset ℕ} {i : ℕ} (hi : i < n)
    (h : Sched.moveReady found s i = .ok s') :
    Sched.moveReady found (s.over n tr tw) i = .ok (s'.over n tr tw) ∧ s'.wqSize = s.wqSize := by
  obtain ⟨slot, hslot, h⟩ := bind_eq_ok h
  obtain ⟨t, ht, h⟩ := bind_eq_ok h
  show ((SlotArray.splice n s.waitingQueue tw).load _ i).bind _ = _ ∧ _
  rw [SlotArray.load_splice hi, hslot]
  show ((s.over n tr tw).deref slot).bind _ = _ ∧ _
  rw [show (s.over n tr tw).deref slot = s.deref slot from rfl, ht]
  show (if t.fd ∈ found then _ else _) = _ ∧ _
  -- a thread that was found goes to the end of the ready queue, and its slot is emptied
  split at h
  · rename_i hf
    obtain ⟨ready, hready, h⟩ := bind_eq_ok h
    obtain ⟨waiting, hwaiting, h⟩ := bind_eq_ok h
    cases h
    rw [if_pos hf]
    refine ⟨?_, rfl⟩
    show ((SlotArray.splice s.rqSize s.readyQueue tr).store _ s.rqSize slot).bind _ = _
    rw [SlotArray.store_splice_end hready]
    show ((SlotArray.splice n s.waitingQueue tw).store _ i none).bind _ = _
    rw [SlotArray.store_splice hi hwaiting]
    rfl
  · rename_i hf
    cases h
    rw [if_neg hf]
    exact ⟨rfl, rfl⟩

theorem closeGap_over {q q' : Queue} {cur cur' i : ℕ} (hi : i < n) (hcur : cur ≤ i)
    (h : Sched.closeGap (q, cur) i = .ok (q', cur')) :
    Sched.closeGap (.splice n q tw, cur) i = .ok (.splice n q' tw, cur') ∧ cur' ≤ i + 1 := by
  obtain ⟨slot, hslot, h⟩ := bind_eq_ok h
  show ((SlotArray.splice n q tw).load _ i).bind _ = _ ∧ _
  rw [SlotArray.load_splice hi, hslot]
  show (if slot = none then _ else _) = _ ∧ _
  split at h
  · rename_i hnone
    cases h
    rw [if_pos hnone]
    exact ⟨rfl, by omega⟩
  · rename_i hsome
    obtain ⟨q₁, hq₁, h⟩ := bind_eq_ok h
    rw [if_neg hsome]
    show ((SlotArray.splice n q tw).store _ cur slot).bind _ = _ ∧ _
    rw [SlotArray.store_splice (by omega) hq₁]
    -- the slot is cleared when its thread has moved
    by_cases hne : cur ≠ i
    · simp only [if_pos hne] at h
      obtain ⟨q₂, hq₂, h⟩ := bind_eq_ok h
      cases h
      refine ⟨?_, by omega⟩
      show (if cur ≠ i then ((SlotArray.splice n q₁ tw).store _ i none).bind _ else _) = _
      rw [if_pos hne, SlotArray.store_splice hi hq₂]
      rfl
    · simp only [if_neg hne] at h
      cases h
      refine ⟨?_, by omega⟩
      show (if cur ≠ i then (SlotArray.store _ _ i none).bind _ else _) = _
      rw [if_neg hne]
      rfl

/-! ### The whole function -/

/-- **What lies past the ends of the queues does not matter**, and stays. -/
theorem reorderwaiting_over {block : Bool} {o : Outcome} (h : s.reorderwaiting block o = .ok s')
    (tr tw : Queue) :
    (s.over s.wqSize tr tw).reorderwaiting block o = .ok (s'.over s.wqSize tr tw) := by
  obtain ⟨⟨readFds, maxfd⟩, hcollect, h⟩ := bind_eq_ok h
  obtain ⟨found, hfound, h⟩ := bind_eq_ok h
  obtain ⟨s₁, hmove, h⟩ := bind_eq_ok h
  obtain ⟨⟨q, cur⟩, hclose, h⟩ := bind_eq_ok h
  cases h
  -- each loop goes on in the larger arrays as it does in the smaller ones
  obtain ⟨acc, hcollect', rfl⟩ := forRange_sim (g := (s.over s.wqSize tr tw).collectFd)
    (fun _ u v => v = u) hcollect rfl fun i hi u u' v huv hu => by
      subst huv
      exact ⟨u', by rw [collectFd_over hi, hu], rfl⟩
  obtain ⟨s₂, hmove', rfl, hsize⟩ := forRange_sim (g := Sched.moveReady found)
    (t := (s.over s.wqSize tr tw).log (.select found))
    (fun _ u v => v = u.over s.wqSize tr tw ∧ u.wqSize = s.wqSize) hmove ⟨rfl, rfl⟩
    fun i hi u u' v ⟨huv, hu'⟩ hu => by
      subst huv
      obtain ⟨hstep, hsame⟩ := moveReady_over hi hu
      exact ⟨_, hstep, rfl, hsame.trans hu'⟩
  rw [hsize] at hclose
  obtain ⟨qc, hclose', rfl, -⟩ := forRange_sim (g := Sched.closeGap)
    (t := (SlotArray.splice s.wqSize s₁.waitingQueue tw, 0))
    (fun i u v => v = (SlotArray.splice s.wqSize u.1 tw, u.2) ∧ u.2 ≤ i)
    hclose ⟨rfl, Nat.le_refl 0⟩ fun i hi u u' v ⟨huv, hcur⟩ hu => by
      subst huv
      obtain ⟨hstep, hcur'⟩ := closeGap_over hi hcur hu
      exact ⟨_, hstep, rfl, hcur'⟩
  show (forRange s.wqSize _ _).bind _ = _
  rw [hcollect']
  show (Sched.select (maxfd + 1) readFds block o).bind _ = _
  rw [hfound]
  show (forRange s.wqSize _ _).bind _ = _
  rw [hmove']
  show (forRange s₁.wqSize Sched.closeGap _).bind _ = _
  rw [hsize]
  show (forRange s.wqSize Sched.closeGap (SlotArray.splice s.wqSize s₁.waitingQueue tw, 0)).bind _ = _
  rw [hclose']
  rfl

/-- The state with nothing past the ends of its queues `r` and `w`. -/
def Sched.trimmed (s : Sched) (r w : List Ptr) : Sched :=
  { s with
    readyQueue := .ofList r
    waitingQueue := .ofList w }

theorem trimmed_over (hready : s.readyQueue.range s.rqSize = r.map some)
    (hwaiting : s.waitingQueue.range s.wqSize = w.map some) :
    (s.trimmed r w).over s.wqSize s.readyQueue s.waitingQueue = s := by
  show { s with
    readyQueue := SlotArray.splice s.rqSize (.ofList r) s.readyQueue
    waitingQueue := SlotArray.splice s.wqSize (.ofList w) s.waitingQueue } = s
  rw [SlotArray.splice_ofList hready, SlotArray.splice_ofList hwaiting]

theorem found_reported {p : Ptr} (hp : p ∈ w) (S : Finset ℕ) :
    s.reported (s.found w S) p = decide (s.fdOf p ∈ S) := by
  have hmem : s.fdOf p ∈ (s.collected w).1 := mem_collected.mpr ⟨p, hp, rfl⟩
  simp only [Sched.reported, Sched.found, Finset.mem_filter, hmem, true_and]

/-- **`reorderwaiting` is a stable partition.**  Of the threads `w` in the waiting queue, those whose
    descriptors are ready go behind the threads `r` of the ready queue, and the others stay, both in
    their old order.  The slots that become free are `NULL`, no slot past the ends is touched, and
    no thread is lost. -/
theorem reorderwaiting_partition (s : Sched) (r w : List Ptr) (block : Bool) (S : Finset ℕ)
    (hready : s.readyQueue.range s.rqSize = r.map some)
    (hwaiting : s.waitingQueue.range s.wqSize = w.map some)
    (hroom : s.rqSize + s.wqSize ≤ threadMax) (hlive : ∀ p ∈ r ++ w, s.heap p ≠ none)
    (hreturns : block = true → ∃ p ∈ w, s.fdOf p ∈ S) :
    ∃ s', s.reorderwaiting block (.ready S) = .ok s' ∧
      s'.readyQueue.range s'.rqSize = (r ++ w.filter fun p => s.fdOf p ∈ S).map some ∧
      s'.waitingQueue.range s'.wqSize = (w.filter fun p => s.fdOf p ∉ S).map some ∧
      (∀ j : Fin threadMax, s'.wqSize ≤ j.val → j.val < s.wqSize → s'.waitingQueue j = none) ∧
      s'.rqSize + s'.wqSize = s.rqSize + s.wqSize ∧
      (∀ j : Fin threadMax, s'.rqSize ≤ j.val → s'.readyQueue j = s.readyQueue j) ∧
      (∀ j : Fin threadMax, s.wqSize ≤ j.val → s'.waitingQueue j = s.waitingQueue j) ∧
      s'.rqCurrent = s.rqCurrent ∧ s'.heap = s.heap ∧ s'.control = s.control := by
  have hrq : s.rqSize = r.length := SlotArray.length_of_range hready (by omega)
  have hwq : s.wqSize = w.length := SlotArray.length_of_range hwaiting (by omega)
  have hholds : Holds (s.trimmed r w) r w :=
    ⟨rfl, hrq, rfl, hwq, by omega, fun p hp => Option.isSome_iff_ne_none.mpr (hlive p hp)⟩
  have hfound : ¬ (block = true ∧ (s.trimmed r w).found w S = ∅) := by
    rintro ⟨hblock, hnone⟩
    obtain ⟨p, hp, hS⟩ := hreturns hblock
    have hmem : s.fdOf p ∈ (s.trimmed r w).found w S :=
      Finset.mem_filter.mpr ⟨mem_collected.mpr ⟨p, hp, rfl⟩, hS⟩
    rw [hnone] at hmem
    exact absurd hmem (Finset.notMem_empty _)
  have htrimmed := reorderwaiting_ready hholds block S
  rw [if_neg hfound] at htrimmed
  -- the same on the whole arrays
  have hover := reorderwaiting_over htrimmed s.readyQueue s.waitingQueue
  rw [show (s.trimmed r w).wqSize = s.wqSize from rfl, trimmed_over hready hwaiting] at hover
  have harrived : w.filter ((s.trimmed r w).reported ((s.trimmed r w).found w S)) =
      w.filter fun p => s.fdOf p ∈ S :=
    List.filter_congr fun p hp => found_reported hp S
  have hleft : (w.filter fun p => !(s.trimmed r w).reported ((s.trimmed r w).found w S) p) =
      w.filter fun p => s.fdOf p ∉ S :=
    List.filter_congr fun p hp => by rw [found_reported hp S]; exact decide_not.symm
  simp only [Sched.reordered, harrived, hleft] at hover
  have htotal := (perm_reordered r w fun p => decide (s.fdOf p ∈ S)).length_eq
  simp only [← decide_not, List.length_append] at htotal
  have hsizes : (r ++ w.filter fun p => s.fdOf p ∈ S).length +
      (w.filter fun p => s.fdOf p ∉ S).length = s.rqSize + s.wqSize := by
    rw [List.length_append, hrq, hwq, htotal]
  have hless := List.length_filter_le (fun p => decide (s.fdOf p ∉ S)) w
  refine ⟨_, hover, ?_, ?_, fun j hj hj' => ?_, hsizes, fun j hj => ?_, fun j hj => ?_, rfl, rfl, rfl⟩
  · exact (SlotArray.range_splice le_rfl).trans (SlotArray.range_ofList (by omega))
  · have hle : (w.filter fun p => s.fdOf p ∉ S).length ≤ s.wqSize := hless.trans_eq hwq.symm
    exact (SlotArray.range_splice hle).trans (SlotArray.range_ofList (by omega))
  · exact (if_pos hj').trans (List.getElem?_eq_none hj)
  · exact if_neg (not_lt.mpr hj)
  · exact if_neg (not_lt.mpr hj)

/-- A ready queue with one thread, a waiting queue with three, and something else past its end. -/
def oneOfThree : Sched :=
  { Sched.empty with
    readyQueue := .ofList [0]
    waitingQueue := .ofList [1, 2, 3, 7]
    rqSize := 1
    wqSize := 3
    heap := fun p => some (Creation.tcb ⟨0, 0, p, fun _ => 0⟩ p) }

theorem reorderwaiting_partition_oneOfThree :
    ∃ s', oneOfThree.reorderwaiting true (.ready {2}) = .ok s' ∧
      s'.readyQueue.range s'.rqSize = [some 0, some 2] ∧
      s'.waitingQueue.range s'.wqSize = [some 1, some 3] := by
  obtain ⟨s', hs', hready, hwaiting, -⟩ :=
    reorderwaiting_partition oneOfThree [0] [1, 2, 3] true {2} (by decide) (by decide) (by decide)
      (fun _ _ => Option.some_ne_none _) fun _ => ⟨2, by decide, by decide⟩
  exact ⟨s', hs', hready, hwaiting⟩

end SystemProgramming.Threads
