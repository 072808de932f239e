import Mathlib.Data.Finset.Dedup
import SystemProgramming.Threads.Scheduler

namespace SystemProgramming.Threads

open Program

/-!
# Thread library — what `reorderwaiting` does

The two queues of a state are read as lists: `Holds s r w` says that the slots of the ready queue
hold exactly `r`, those of the waiting queue exactly `w`, and that all these threads are alive.

* `collectFds_eq` — the first loop collects the descriptors of `w`;
* `moveLoop_eq` — the second loop appends the reported threads and punches holes;
* `closeLoop_eq` — the third loop closes the holes;
* `reorderwaiting_ready` — together they split `w` into its reported threads, which go to the end
  of `r`, and the others, which stay, both in their old order.
-/

/-- The queues of `s` hold the threads `r` and `w`, all of them alive. -/
structure Holds (s : Sched) (r w : List Ptr) : Prop where
  ready : s.readyQueue = .ofList r
  rqSize : s.rqSize = r.length
  waiting : s.waitingQueue = .ofList w
  wqSize : s.wqSize = w.length
  room : r.length + w.length ≤ threadMax
  live : ∀ p ∈ r ++ w, (s.heap p).isSome = true

variable {s : Sched} {r w : List Ptr} {p : Ptr}

/-- The used slots of the ready queue. -/
theorem Holds.range_ready (h : Holds s r w) : s.readyQueue.range s.rqSize = r.map some := by
  have hroom := h.room
  rw [h.ready, h.rqSize, SlotArray.range_ofList (by omega)]

/-- The used slots of the waiting queue. -/
theorem Holds.range_waiting (h : Holds s r w) :
    s.waitingQueue.range s.wqSize = w.map some := by
  have hroom := h.room
  rw [h.waiting, h.wqSize, SlotArray.range_ofList (by omega)]

/-- The descriptor of a thread (`0` once it is freed). -/
def Sched.fdOf (s : Sched) (p : Ptr) : ℕ := (s.heap p).elim 0 Tcb.fd

/-- A pointer to a tcb that is not freed. -/
theorem deref_some {t : Tcb} (h : s.heap p = some t) : s.deref (some p) = .ok t := by
  simp only [Sched.deref, h]

/-- Who stands in a queue has a tcb. -/
theorem Holds.tcb_of_mem (h : Holds s r w) (hp : p ∈ r ++ w) :
    ∃ t, s.heap p = some t ∧ t.fd = s.fdOf p := by
  obtain ⟨t, ht⟩ := Option.isSome_iff_exists.mp (h.live p hp)
  exact ⟨t, ht, by simp only [Sched.fdOf, ht, Option.elim]⟩

/-! ### Collecting the descriptors -/

/-- What the first loop has collected after the threads `w`. -/
def Sched.collected (s : Sched) (w : List Ptr) : Finset ℕ × ℕ :=
  w.foldl (fun acc p => (insert (s.fdOf p) acc.1, max acc.2 (s.fdOf p))) (∅, 0)

/-- One iteration of the loop that collects the descriptors. -/
theorem collectFd_take (h : Holds s r w) {i : ℕ} (hi : i < w.length) :
    s.collectFd (s.collected (w.take i)) i = .ok (s.collected (w.take (i + 1))) := by
  have hcap : i < threadMax := by have := h.room; omega
  obtain ⟨t, ht, hfd⟩ := h.tcb_of_mem (p := w[i]) (by simp)
  simp only [Sched.collectFd, h.waiting, SlotArray.load_ofList hcap, List.getElem?_eq_getElem hi,
    bind, Except.bind, deref_some ht, Sched.collected, List.take_add_one, Option.toList_some,
    List.foldl_append, List.foldl_cons, List.foldl_nil, hfd]
  congr 2
  split <;> omega

/-- **The first loop** collects the descriptors of all that wait, and the largest of them. -/
theorem collectLoop_eq (h : Holds s r w) :
    forRange w.length s.collectFd (∅, 0) = .ok (s.collected w) := by
  have key := forRange_eq (f := s.collectFd) (n := w.length) (fun i => s.collected (w.take i)) rfl
    fun i hi => collectFd_take h hi
  rw [List.take_length] at key
  exact key

/-- One thread more adds its descriptor. -/
theorem collected_concat (w : List Ptr) (p : Ptr) :
    s.collected (w ++ [p]) =
      (insert (s.fdOf p) (s.collected w).1, max (s.collected w).2 (s.fdOf p)) := by
  simp only [Sched.collected, List.foldl_append, List.foldl_cons, List.foldl_nil]

/-- A descriptor is collected if somebody waits for it. -/
theorem mem_collected {x : ℕ} : x ∈ (s.collected w).1 ↔ ∃ p ∈ w, s.fdOf p = x := by
  induction w using List.reverseRecOn with
  | nil => simp [Sched.collected]
  | append_singleton w p ih =>
    rw [collected_concat, Finset.mem_insert, ih]
    constructor
    · rintro (rfl | ⟨q, hq, hx⟩)
      · exact ⟨p, by simp, rfl⟩
      · exact ⟨q, by simp [hq], hx⟩
    · rintro ⟨q, hq, hx⟩
      rcases List.mem_append.mp hq with hq | hq
      · exact .inr ⟨q, hq, hx⟩
      · rw [List.mem_singleton.mp hq] at hx
        exact .inl hx.symm

/-- `maxfd + 1` is past every collected descriptor. -/
theorem le_collected : ∀ p ∈ w, s.fdOf p ≤ (s.collected w).2 := by
  induction w using List.reverseRecOn with
  | nil => simp
  | append_singleton w p ih =>
    intro q hq
    rw [collected_concat]
    rcases List.mem_append.mp hq with hq | hq
    · exact le_max_of_le_left (ih q hq)
    · rw [List.mem_singleton.mp hq]
      exact le_max_right _ _

/-- What `select` reports of the collected descriptors. -/
def Sched.found (s : Sched) (w : List Ptr) (fds : Finset ℕ) : Finset ℕ :=
  (s.collected w).1.filter (· ∈ fds)

/-- `nfds` excludes nothing: `select` reports every collected descriptor that is ready. -/
theorem select_collected (block : Bool) (fds : Finset ℕ) :
    Sched.select ((s.collected w).2 + 1) (s.collected w).1 block (.ready fds) =
      if block = true ∧ s.found w fds = ∅ then .error .blocked else .ok (s.found w fds) := by
  have hfound : (s.collected w).1.filter (fun fd => fd < (s.collected w).2 + 1 ∧ fd ∈ fds) =
      s.found w fds := by
    apply Finset.filter_congr
    intro fd hfd
    obtain ⟨p, hp, rfl⟩ := mem_collected.mp hfd
    have hle : s.fdOf p ≤ (s.collected w).2 := le_collected p hp
    exact and_iff_right (by omega)
  simp only [Sched.select, hfound]

/-! ### Splitting the waiting queue -/

/-- The thread's descriptor is in the set. -/
def Sched.reported (s : Sched) (fds : Finset ℕ) (p : Ptr) : Bool := s.fdOf p ∈ fds

/-- The waiting queue when the second loop is at `i`: holes where it moved a thread away. -/
def punched (w : List Ptr) (gone : Ptr → Bool) (i : ℕ) : Queue := fun j =>
  if j.val < i then w[j.val]?.filter fun p => !gone p else w[j.val]?

/-- Before the first iteration there is no gap. -/
theorem punched_zero (gone : Ptr → Bool) : punched w gone 0 = .ofList w := rfl

/-- A thread that stays leaves no hole. -/
theorem punched_stay {gone : Ptr → Bool} {i : ℕ} (hi : i < w.length) (hg : gone w[i] = false) :
    punched w gone (i + 1) = punched w gone i := by
  ext j : 1
  simp only [punched]
  by_cases hj : j.val = i
  · rw [if_pos (by omega), if_neg (by omega), hj, List.getElem?_eq_getElem hi]
    simp [hg]
  · have hiff : j.val < i + 1 ↔ j.val < i := by omega
    simp only [hiff]

/-- A thread that goes leaves a hole. -/
theorem store_punched {gone : Ptr → Bool} {i : ℕ} (hi : i < w.length) (hcap : i < threadMax)
    (hg : gone w[i] = true) :
    (punched w gone i).store (Stop.fault .index) i none = .ok (punched w gone (i + 1)) := by
  rw [SlotArray.store_of_lt hcap]
  congr 1
  ext j : 1
  simp only [punched]
  by_cases hj : j.val = i
  · rw [if_pos hj, if_pos (by omega), hj, List.getElem?_eq_getElem hi]
    simp only [Option.filter_some, hg, Bool.not_true, Bool.false_eq_true, if_false]
  · have hiff : j.val < i + 1 ↔ j.val < i := by omega
    rw [if_neg hj]
    simp only [hiff]

/-- The state when the second loop is at `i`. -/
def Sched.moved (s : Sched) (r w : List Ptr) (found : Finset ℕ) (i : ℕ) : Sched :=
  let arrived := (w.take i).filter (s.reported found)
  { s with
    readyQueue := .ofList (r ++ arrived)
    rqSize := (r ++ arrived).length
    waitingQueue := punched w (s.reported found) i }

/-- One iteration of the loop that moves the ready ones. -/
theorem moveReady_moved (h : Holds s r w) (found : Finset ℕ) {i : ℕ} (hi : i < w.length) :
    Sched.moveReady found (s.moved r w found i) i = .ok (s.moved r w found (i + 1)) := by
  have hroom := h.room
  have hcap : i < threadMax := by omega
  obtain ⟨t, ht, hfd⟩ := h.tcb_of_mem (p := w[i]) (by simp)
  have hslot : (punched w (s.reported found) i).load (Stop.fault .index) i = .ok (some w[i]) := by
    rw [SlotArray.load_of_lt hcap]
    simp [punched, hi]
  have htake : w.take (i + 1) = w.take i ++ [w[i]] := by
    rw [List.take_add_one, List.getElem?_eq_getElem hi]
    rfl
  have hlen : (r ++ (w.take i).filter (s.reported found)).length < threadMax := by
    have := List.length_filter_le (s.reported found) (w.take i)
    rw [List.length_append]
    rw [List.length_take] at this
    omega
  have hderef : (s.moved r w found i).deref (some w[i]) = .ok t := deref_some ht
  simp only [Sched.moveReady]
  show ((s.moved r w found i).waitingQueue.load _ i).bind _ = _
  rw [show (s.moved r w found i).waitingQueue = punched w (s.reported found) i from rfl, hslot]
  show ((s.moved r w found i).deref (some w[i])).bind _ = _
  rw [hderef]
  show (if t.fd ∈ found then _ else _) = _
  -- a reported thread moves and leaves a hole, any other stays
  by_cases hf : t.fd ∈ found
  · have hrep : s.reported found w[i] = true := by simp [Sched.reported, ← hfd, hf]
    rw [if_pos hf]
    show ((SlotArray.ofList _ : Queue).store _ (r ++ _).length _).bind _ = _
    rw [SlotArray.store_length hlen]
    show ((punched w (s.reported found) i).store _ i none).bind _ = _
    rw [store_punched hi hcap hrep]
    simp only [Except.bind, Sched.moved, htake, List.filter_append, List.filter_singleton, hrep,
      List.append_assoc, List.length_append, List.length_singleton, cond_true, Nat.add_assoc]
  · have hrep : s.reported found w[i] = false := by simp [Sched.reported, ← hfd, hf]
    rw [if_neg hf]
    simp only [Sched.moved, htake, List.filter_append, List.filter_singleton, hrep, cond_false,
      List.append_nil, punched_stay hi hrep]

/-- **The second loop** moves all whose descriptors were reported, and leaves gaps. -/
theorem moveLoop_eq (h : Holds s r w) (found : Finset ℕ) :
    forRange w.length (Sched.moveReady found) s = .ok (s.moved r w found w.length) := by
  refine forRange_eq (s.moved r w found) ?_ fun i hi => moveReady_moved h found hi
  simp only [Sched.moved, List.take_zero, List.filter_nil, List.append_nil, punched_zero,
    ← h.ready, ← h.waiting, ← h.rqSize]

/-! ### Closing the gaps -/

/-- The queue and `cur` when the third loop is at `i`: the threads that stay, moved to the front,
    then empty slots up to `i`, then what the loop has still to look at. -/
def closing (w : List Ptr) (stays : Ptr → Bool) (i : ℕ) : Queue × ℕ :=
  (fun j => if j.val < i then ((w.take i).filter stays)[j.val]? else w[j.val]?.filter stays,
    ((w.take i).filter stays).length)

/-- One iteration of the loop that closes the gaps. -/
theorem closeGap_closing (hroom : w.length ≤ threadMax) (stays : Ptr → Bool) {i : ℕ}
    (hi : i < w.length) :
    Sched.closeGap (closing w stays i) i = .ok (closing w stays (i + 1)) := by
  have hcap : i < threadMax := by omega
  have hlen : ((w.take i).filter stays).length ≤ i := by
    have := List.length_filter_le stays (w.take i)
    rw [List.length_take] at this
    omega
  have htake : w.take (i + 1) = w.take i ++ [w[i]] := by
    rw [List.take_add_one, List.getElem?_eq_getElem hi]
    rfl
  have hslot : (closing w stays i).1.load (Stop.fault .index) i =
      .ok (if stays w[i] then some w[i] else none) := by
    rw [SlotArray.load_of_lt hcap]
    simp only [closing, lt_irrefl, if_false, List.getElem?_eq_getElem hi, Option.filter_some]
  show ((closing w stays i).1.load _ i).bind _ = _
  rw [hslot]
  cases hs : stays w[i] with
  -- a hole: `cur` stays
  | false =>
    show Except.ok _ = _
    congr 1
    simp only [closing, htake, List.filter_append, List.filter_singleton, hs, cond_false,
      List.append_nil]
    congr 1
    ext j : 1
    by_cases hj : j.val = i
    · rw [if_neg (by omega), if_pos (by omega), hj, List.getElem?_eq_getElem hi,
        Option.filter_some, hs, List.getElem?_eq_none hlen]
      rfl
    · have hiff : j.val < i + 1 ↔ j.val < i := by omega
      simp only [hiff]
  | true =>
    have hnext : closing w stays (i + 1) =
        (fun j => if j.val < i + 1 then ((w.take i).filter stays ++ [w[i]])[j.val]?
          else w[j.val]?.filter stays, ((w.take i).filter stays).length + 1) := by
      simp only [closing, htake, List.filter_append, List.filter_singleton, hs, cond_true,
        List.length_append, List.length_singleton]
    show ((closing w stays i).1.store _ ((w.take i).filter stays).length (some w[i])).bind _ = _
    rw [hnext, SlotArray.store_of_lt (by omega)]
    show (if _ ≠ i then (SlotArray.store _ _ i none).bind _ else _) = _
    -- a thread with no hole before it is stored where it stands
    by_cases hc : ((w.take i).filter stays).length = i
    · rw [if_neg (by simpa using hc)]
      show Except.ok _ = _
      congr 2
      ext j : 1
      simp only [closing, List.getElem?_append]
      grind
    · rw [if_pos hc, SlotArray.store_of_lt hcap]
      show Except.ok _ = _
      congr 2
      ext j : 1
      simp only [closing, List.getElem?_append]
      grind

/-- **The third loop** leaves those that stay, in their order. -/
theorem closeLoop_eq (hroom : w.length ≤ threadMax) (stays : Ptr → Bool) :
    forRange w.length Sched.closeGap ((fun j => w[j.val]?.filter stays : Queue), 0) =
      .ok (.ofList (w.filter stays), (w.filter stays).length) := by
  have key : forRange w.length Sched.closeGap ((fun j => w[j.val]?.filter stays : Queue), 0) =
      .ok (closing w stays w.length) :=
    forRange_eq (closing w stays) rfl fun i hi => closeGap_closing hroom stays hi
  rw [key]
  congr 1
  simp only [closing, List.take_length]
  congr 1
  ext j : 1
  show (if j.val < w.length then (w.filter stays)[j.val]? else w[j.val]?.filter stays) =
    (w.filter stays)[j.val]?
  -- inside the old queue the gaps are closed, behind it there was nothing
  split
  · rfl
  · have hlen := List.length_filter_le stays w
    rw [List.getElem?_eq_none (by omega), List.getElem?_eq_none (by omega)]
    rfl

/-! ### The whole function -/

/-- The state after `reorderwaiting`, when `select` reported `found`. -/
def Sched.reordered (s : Sched) (r w : List Ptr) (found : Finset ℕ) : Sched :=
  let arrived := w.filter (s.reported found)
  let left := w.filter fun p => !s.reported found p
  { s.log (.select found) with
    readyQueue := .ofList (r ++ arrived)
    rqSize := (r ++ arrived).length
    waitingQueue := .ofList left
    wqSize := left.length }

/-- **`reorderwaiting` splits the waiting queue**: its reported threads go to the end of the ready
    queue, the others stay, both in their old order. -/
theorem reorderwaiting_ready (h : Holds s r w) (block : Bool) (fds : Finset ℕ) :
    s.reorderwaiting block (.ready fds) =
      if block = true ∧ s.found w fds = ∅ then .error .blocked
      else .ok (s.reordered r w (s.found w fds)) := by
  have hroom := h.room
  have hlog : Holds (s.log (.select (s.found w fds))) r w := ⟨h.1, h.2, h.3, h.4, h.5, h.6⟩
  show (forRange s.wqSize s.collectFd (∅, 0)).bind _ = _
  rw [h.wqSize, collectLoop_eq h]
  show (Sched.select ((s.collected w).2 + 1) (s.collected w).1 block (.ready fds)).bind _ = _
  rw [select_collected]
  split
  · rfl
  · show (forRange w.length (Sched.moveReady _) (s.log (.select (s.found w fds)))).bind _ = _
    rw [moveLoop_eq hlog]
    show (forRange s.wqSize Sched.closeGap (punched w (s.reported _) w.length, 0)).bind _ = _
    -- after the second loop the waiting queue has holes where threads were reported
    have hpunched : punched w (s.reported (s.found w fds)) w.length =
        fun j => w[j.val]?.filter fun p => !s.reported (s.found w fds) p := by
      ext j : 1
      simp only [punched]
      split
      · rfl
      · rw [List.getElem?_eq_none (by omega)]
        rfl
    rw [h.wqSize, hpunched, closeLoop_eq (by omega)]
    show Except.ok _ = Except.ok _
    simp only [Sched.moved, Sched.reordered, List.take_length]
    rfl

/-- If `select` fails, the process exits. -/
theorem reorderwaiting_error (h : Holds s r w) (block : Bool) :
    s.reorderwaiting block .error = .error .exit := by
  show (forRange s.wqSize s.collectFd (∅, 0)).bind _ = _
  rw [h.wqSize, collectLoop_eq h]
  rfl

/-- Splitting loses no thread and makes none twice. -/
theorem perm_reordered (r w : List Ptr) (p : Ptr → Bool) :
    (r ++ w.filter p ++ w.filter fun x => !p x).Perm (r ++ w) := by
  rw [List.append_assoc]
  exact (List.filter_append_perm p w).append_left r

/-- Afterwards both queues hold what they should. -/
theorem Holds.reordered (h : Holds s r w) (found : Finset ℕ) :
    Holds (s.reordered r w found) (r ++ w.filter (s.reported found))
      (w.filter fun p => !s.reported found p) where
  ready := rfl
  rqSize := rfl
  waiting := rfl
  wqSize := rfl
  room := by
    have hperm := (perm_reordered r w (s.reported found)).length_eq
    have hroom := h.room
    simp only [List.length_append] at hperm ⊢
    omega
  live p hp := h.live p ((perm_reordered r w (s.reported found)).mem_iff.mp hp)

end SystemProgramming.Threads
