import SystemProgramming.Booking.Effect

namespace SystemProgramming.Booking

open ByteFile RecordLock Transition

/-!
# Booking servers — the lock invariant and mutual exclusion

* `Effect.procInv` — every effect keeps the invariant of the process that takes the step; only a
  session lost to a read error adds to its `leak`;
* `World.Inv` and `step_inv` — the invariant of the whole system, kept by every step of every
  process;
* `mutual_exclusion` — an id is never in two sessions unless both are reading;
* `locks_released_iff` — the counters and locks follow the open sessions exactly along the runs
  that lose no session to a read error.
-/

variable {P : Type} [DecidableEq P] {b : Build} {p : P} {a a' : Active P} {e : Event}
  {leak : ℕ → ℕ}

/-! ### Counting sessions -/

/-- A connection is in a session on one id only. -/
theorem Proc.InSession.iff_eq {c : Proc} {s : SessionState} {fd k : ℕ} (h : c.InSession s fd k)
    (j : ℕ) : c.InSession s fd j ↔ j = k := by
  constructor
  · intro hj
    have hid : (902000 : ℤ) + j = 902000 + k := hj.2.2.symm.trans h.2.2
    omega
  · rintro rfl
    exact h

/-- A step on `fd` changes the number of sessions by what it does to `fd`. -/
theorem Frame.card_sessions {fd : ℕ} {c c' : Proc} (frame : Frame fd c c') (b : Build) (k : ℕ) :
    (c'.sessions b k).card + (if c.InSession b.live fd k then 1 else 0) =
      (c.sessions b k).card + (if c'.InSession b.live fd k then 1 else 0) := by
  have herase : (c'.sessions b k).erase fd = (c.sessions b k).erase fd := by
    ext x
    simp only [Finset.mem_erase, Proc.mem_sessions]
    exact and_congr_right fun hx => frame.inSession_iff hx b.live k
  have hcard (d : Proc) : (d.sessions b k).card =
      ((d.sessions b k).erase fd).card + (if d.InSession b.live fd k then 1 else 0) := by
    split
    · rename_i h
      rw [Finset.card_erase_add_one (Proc.mem_sessions.mpr h)]
    · rename_i h
      rw [Finset.erase_eq_of_notMem (fun hmem => h (Proc.mem_sessions.mp hmem)), add_zero]
  rw [hcard c', hcard c, herase]
  omega

/-- The row of a process after it has set the lock of record `k`, at a byte of record `j`. -/
theorem setRange_record {t : LockTable P} {l : Option LockKind} {j k i : ℕ} (hj : 1 ≤ j)
    (hk : 1 ≤ k) (hi : i < recordSize) :
    setRange t p l (recordStart k) recordSize p (recordStart j + i) =
      if j = k then l else t p (recordStart j + i) := by
  have hiff : (recordStart k ≤ recordStart j + i ∧
      recordStart j + i < recordStart k + recordSize) ↔ j = k := by
    simp only [recordStart, recordSize] at hi ⊢
    omega
  rw [setRange_self]
  simp only [hiff]

/-- The invariant after a step on `fd`, from its effect on the counters and on the locks. -/
theorem ProcInv.of_frame {fd : ℕ} {c c' : Proc} {lk lk' : ℕ → Option LockKind} {leak' : ℕ → ℕ}
    (inv : ProcInv b leak c lk) (frame : Frame fd c c')
    (session : fd ∈ c'.conns →
      c'.state fd = .id ∨ ∃ k, 1 ≤ k ∧ k ≤ 20 ∧ c'.InSession b.live fd k)
    (counter : ∀ k, 1 ≤ k → k ≤ 20 →
      b.counter c' k + (if c.InSession b.live fd k then 1 else 0) + leak k =
        b.counter c k + (if c'.InSession b.live fd k then 1 else 0) + leak' k)
    (single : b = .writeServer → ∀ k, 1 ≤ k → k ≤ 20 → b.counter c' k ≤ 1)
    (locked : ∀ k, 1 ≤ k → k ≤ 20 → ∀ i, i < recordSize →
      lk' (recordStart k + i) = if 0 < b.counter c' k then some b.kind else none) :
    ProcInv b leak' c' lk' where
  wf := frame.wf
  session := by
    intro x hx
    -- the connection of the event brings its own case, the others are framed
    by_cases hxfd : x = fd
    · subst hxfd
      exact session hx
    · rw [frame.state x hxfd]
      simp only [frame.inSession_iff hxfd]
      exact inv.session x ((frame.conns x hxfd).mp hx)
  counter := by
    intro k hk1 hk20
    -- the sessions on record `k` differ at most by the one of `fd`
    have h := frame.card_sessions b k
    have h' := counter k hk1 hk20
    have hc := inv.counter k hk1 hk20
    split at h <;> split at h <;> simp_all <;> omega
  single := single
  locked := locked

/-- A step that starts and ends no session keeps the invariant. -/
theorem ProcInv.kept {fd : ℕ} {c c' : Proc} {lk : ℕ → Option LockKind}
    (inv : ProcInv b leak c lk) (frame : Frame fd c c')
    (session : fd ∈ c'.conns →
      c'.state fd = .id ∨ ∃ k, 1 ≤ k ∧ k ≤ 20 ∧ c'.InSession b.live fd k)
    (same : ∀ k, c'.InSession b.live fd k ↔ c.InSession b.live fd k)
    (counter : b.counter c' = b.counter c) : ProcInv b leak c' lk := by
  refine inv.of_frame frame session ?_ ?_ ?_
  · intro k _ _
    simp only [counter, same k]
  · rw [counter]
    exact inv.single
  · rw [counter]
    exact inv.locked

/-- **A session on `k` begins**: its counter goes up, and the lock of its record is held. -/
theorem ProcInv.opened {fd k : ℕ} {c c' : Proc} {lk lk' : ℕ → Option LockKind}
    (inv : ProcInv b leak c lk) (frame : Frame fd c c') (hk : 1 ≤ k ∧ k ≤ 20)
    (before : c.Quiet fd) (after : c'.InSession b.live fd k)
    (free : b = .writeServer → b.counter c k = 0)
    (counter : b.counter c' = Function.update (b.counter c) k (b.counter c k + 1))
    (locks : ∀ j, 1 ≤ j → ∀ i, i < recordSize →
      lk' (recordStart j + i) = if j = k then some b.kind else lk (recordStart j + i)) :
    ProcInv b leak c' lk' := by
  refine inv.of_frame frame (fun _ => .inr ⟨k, hk.1, hk.2, after⟩) ?_ ?_ ?_
  · intro j _ _
    by_cases hjk : j = k
    · subst hjk
      simp [counter, before.not_inSession j, after]
    · simp [counter, before.not_inSession j, after.iff_eq j, hjk]
  · intro hb j hj1 hj20
    by_cases hjk : j = k
    · subst hjk
      simp [counter, free hb]
    · simpa [counter, hjk] using inv.single hb j hj1 hj20
  · intro j hj1 hj20 i hi
    rw [locks j hj1 i hi, counter]
    by_cases hjk : j = k
    · subst hjk
      -- the counter was not negative, so it is positive now
      have hnonneg : 0 ≤ b.counter c j := by rw [inv.counter j hk.1 hk.2]; omega
      have hpos : 0 < b.counter c j + 1 := by omega
      simp [hpos]
    · simpa [hjk] using inv.locked j hj1 hj20 i hi

/-- **A session on `k` ends**: its counter goes down, and the lock of its record is given up with the
    last session on it. -/
theorem ProcInv.closed {fd k : ℕ} {c c' : Proc} {lk lk' : ℕ → Option LockKind}
    (inv : ProcInv b leak c lk) (frame : Frame fd c c') (before : c.InSession b.live fd k)
    (after : fd ∉ c'.conns)
    (counter : b.counter c' = Function.update (b.counter c) k (b.counter c k - 1))
    (locks : ∀ j, 1 ≤ j → ∀ i, i < recordSize →
      lk' (recordStart j + i) =
        if j = k ∧ b.counter c k = 1 then none else lk (recordStart j + i)) :
    ProcInv b leak c' lk' := by
  have hquiet : c'.Quiet fd := .inl after
  obtain ⟨-, hpos⟩ := inv.inSession before
  refine inv.of_frame frame (fun hfd => absurd hfd after) ?_ ?_ ?_
  · intro j _ _
    by_cases hjk : j = k
    · subst hjk
      simp [counter, hquiet.not_inSession j, before]
    · simp [counter, hquiet.not_inSession j, before.iff_eq j, hjk]
  · intro hb j hj1 hj20
    have hle := inv.single hb j hj1 hj20
    by_cases hjk : j = k
    · subst hjk
      simp only [counter, Function.update_self]
      omega
    · simpa [counter, hjk] using hle
  · intro j hj1 hj20 i hi
    have hlk := inv.locked j hj1 hj20 i hi
    rw [locks j hj1 i hi, counter]
    by_cases hjk : j = k
    · subst hjk
      rw [Function.update_self]
      by_cases hone : b.counter c j = 1
      · -- the last session on `j`
        simp [hone]
      · have h1 : 0 < b.counter c j := by omega
        have h2 : 0 < b.counter c j - 1 := by omega
        rw [if_neg (fun h => hone h.2), hlk, if_pos h1, if_pos h2]
    · simpa [hjk] using hlk

/-- **A session on `k` is lost**: nothing is given back, and the loss is on record. -/
theorem ProcInv.dropped {fd k : ℕ} {c c' : Proc} {lk : ℕ → Option LockKind}
    (inv : ProcInv b leak c lk) (frame : Frame fd c c') (before : c.InSession b.live fd k)
    (after : fd ∉ c'.conns) (counter : b.counter c' = b.counter c) :
    ProcInv b (Function.update leak k (leak k + 1)) c' lk := by
  have hquiet : c'.Quiet fd := .inl after
  refine inv.of_frame frame (fun hfd => absurd hfd after) ?_ ?_ ?_
  · intro j _ _
    by_cases hjk : j = k
    · subst hjk
      simp [counter, hquiet.not_inSession j, before]
      omega
    · simp [counter, hquiet.not_inSession j, before.iff_eq j, hjk]
  · rw [counter]
    exact inv.single
  · rw [counter]
    exact inv.locked

/-- **Every effect keeps the invariant of its process.**  The leak grows only when a session is
    lost to a read error. -/
theorem Effect.procInv (h : Effect b p a e a') (inv : ProcInv b leak a.proc (a.locks p)) :
    ∃ leak', ProcInv b leak' a'.proc (a'.locks p) ∧ (¬ b.Loses a.proc e → leak' = leak) ∧
      (b.Loses a.proc e → ∃ k, 1 ≤ k ∧ k ≤ 20 ∧ leak' k = leak k + 1) := by
  cases h with
  | idle fd frame err before after counter locks file =>
    refine ⟨leak, ?_, fun _ => rfl, fun h => absurd h err⟩
    rw [locks]
    exact inv.kept frame (fun hfd => .inl (after.resolve_left (not_not_intro hfd)))
      (fun k => iff_of_false (after.not_inSession k) (before.not_inSession k)) counter
  | keep fd l k frame before after sent counter locks file =>
    refine ⟨leak, ?_, fun _ => rfl, by simp [Build.Loses]⟩
    have hk := (inv.inSession before).1
    rw [locks]
    exact inv.kept frame (fun _ => .inr ⟨k, hk.1, hk.2, after⟩)
      (fun j => (after.iff_eq j).trans (before.iff_eq j).symm) counter
  | refuse fd l k frame hk hl before after sent reason counter locks file =>
    refine ⟨leak, ?_, fun _ => rfl, by simp [Build.Loses]⟩
    have hquiet : a.proc.Quiet fd := .inr before.2
    have hquiet' : a'.proc.Quiet fd := .inl after
    rw [locks]
    exact inv.kept frame (fun hfd => absurd hfd after)
      (fun j => iff_of_false (hquiet'.not_inSession j) (hquiet.not_inSession j)) counter
  | opens fd l k frame hk hl before after sent free grant counter locks file =>
    refine ⟨leak, inv.opened frame hk (.inr before.2) after free counter ?_, fun _ => rfl,
      by simp [Build.Loses]⟩
    -- the lock that was granted lies over record `k` and touches no other
    intro j hj i hi
    rw [locks, setRange_record hj hk.1 hi]
  | closes fd k out frame hk err before after counter locks file =>
    refine ⟨leak, inv.closed frame before after counter ?_, fun _ => rfl, fun h => absurd h err⟩
    intro j hj i hi
    rw [locks]
    -- the lock goes with the last session on the record, and stays while another one reads it
    by_cases hone : b.counter a.proc k = 1
    · rw [if_pos hone, unlock, setRange_record hj hk.1 hi]
      simp only [hone, and_true]
    · rw [if_neg hone, if_neg fun h => hone h.2]
  | drop fd k frame hk before after counter locks file =>
    -- the failed read loses the session: the count and the lock stay, so the leak grows
    have hloses : b.Loses a.proc (.readError fd) := ⟨fd, k, rfl, before⟩
    refine ⟨Function.update leak k (leak k + 1), ?_, fun h => absurd hloses h,
      fun _ => ⟨k, hk.1, hk.2, by simp⟩⟩
    rw [locks]
    exact inv.dropped frame before after counter

/-! ### The system -/

/-- The effect of a step on the lock table: the row of `p` only, and compatibly. -/
theorem Effect.locks_of_ne (h : Effect b p a e a') {q : P} (hq : q ≠ p) :
    a'.locks q = a.locks q := by
  cases h with
  | idle _ _ _ _ _ _ locks _ | keep _ _ _ _ _ _ _ _ locks _ | refuse _ _ _ _ _ _ _ _ _ _ _ locks _
  | drop _ _ _ _ _ _ _ locks _ => rw [locks]
  | opens _ _ _ _ _ _ _ _ _ _ _ _ locks _ => rw [locks, setRange_of_ne hq]
  | closes _ _ _ _ _ _ _ _ _ locks _ =>
    rw [locks]
    split
    · rw [unlock, setRange_of_ne hq]
    · rfl

theorem Effect.compatible (h : Effect b p a e a') (hc : Compatible a.locks) :
    Compatible a'.locks := by
  cases h with
  | idle _ _ _ _ _ _ locks _ | keep _ _ _ _ _ _ _ _ locks _ | refuse _ _ _ _ _ _ _ _ _ _ _ locks _
  | drop _ _ _ _ _ _ _ locks _ => rwa [locks]
  | opens _ _ _ _ _ _ _ _ _ _ grant _ locks _ => rw [locks]; exact setRange_compatible hc grant
  | closes _ _ _ _ _ _ _ _ _ locks _ =>
    rw [locks]
    split
    · exact unlock_compatible hc _ _ _
    · exact hc

/-- What a step does to the records: nothing, or one accepted command on its record. -/
theorem Effect.file_cases (h : Effect b p a e a') :
    a'.file = a.file ∨ ∃ k ch, (1 ≤ k ∧ k ≤ 20) ∧ a'.file = writeAt a.file (recordStart k)
      (Record.encode { recordAt a.file k with
        bookingState := (recordAt a.file k).bookingState.add ch }) := by
  cases h with
  | idle _ _ _ _ _ _ _ file | keep _ _ _ _ _ _ _ _ _ file | refuse _ _ _ _ _ _ _ _ _ _ _ _ file
  | drop _ _ _ _ _ _ _ _ file | opens _ _ _ _ _ _ _ _ _ _ _ _ _ file => exact .inl file
  | closes _ k out _ hk _ _ _ _ _ file =>
    cases out with
    | none => exact .inl file.1
    | some ch =>
      obtain ⟨-, -, -, -, -, hfile, -⟩ := file
      exact .inr ⟨k, ch, hk, hfile⟩

theorem Effect.length_file (h : Effect b p a e a') (hlen : a.file.length = fileSize) :
    a'.file.length = fileSize := by
  rcases h.file_cases with hf | ⟨k, ch, hk, hf⟩
  · rw [hf, hlen]
  · rw [hf, length_writeRecord hlen hk]

/-- **The invariant of the system.** -/
structure World.Inv (build : P → Build) (w : World P) : Prop where
  size : w.file.length = fileSize
  compatible : Compatible w.locks
  dead : ∀ p, w.proc p = none → w.locks p = fun _ => none
  proc : ∀ p c, w.proc p = some c → ∃ leak, ProcInv (build p) leak c (w.locks p)

variable {build : P → Build} {w w' : World P}

omit [DecidableEq P] in
theorem World.start_inv (f : BookingFile) : (World.start f : World P).Inv build where
  size := f.size
  compatible := compatible_empty
  dead := fun _ h => by cases h
  proc := by
    intro p c h
    cases h
    exact ⟨_, Proc.init_inv (build p)⟩

/-- The view of a process of the world. -/
def World.active (w : World P) (c : Proc) : Active P := ⟨c, w.file, w.locks⟩

/-- **Inversion of a step of the system**: a running process terminates, or does one effect. -/
theorem step_cases [Fintype P] (inv : w.Inv build) {p : P} {e : Event}
    (h : step build w (p, e) = some w') :
    ∃ c, w.proc p = some c ∧
      ((e = .errExit ∧ w' = { w with locks := dropAll w.locks p,
                                     proc := Function.update w.proc p none }) ∨
       ∃ a', Effect (build p) p (w.active c) e a' ∧
         w' = ⟨a'.file, a'.locks, Function.update w.proc p (some a'.proc)⟩) := by
  simp only [step] at h
  cases hc : w.proc p with
  | none => rw [hc] at h; cases h
  | some c =>
    refine ⟨c, rfl, ?_⟩
    rw [hc] at h
    simp only at h
    split at h
    · rename_i he
      cases h
      exact .inl ⟨he, rfl⟩
    · -- the event was handled, and `handle_effect` says what the handler can do
      obtain ⟨a', ha', rfl⟩ := Option.map_eq_some_iff.mp h
      obtain ⟨leak, hinv⟩ := inv.proc p c hc
      exact .inr ⟨a', handle_effect hinv inv.size ha', rfl⟩

/-- **The invariant is kept by every step of every process.** -/
theorem step_inv [Fintype P] (inv : w.Inv build) {pe : P × Event}
    (h : step build w pe = some w') : w'.Inv build := by
  obtain ⟨p, e⟩ := pe
  obtain ⟨c, hc, ⟨-, rfl⟩ | ⟨a', heff, rfl⟩⟩ := step_cases inv h
  · -- `errExit` ends the server: its table is gone and the kernel drops its locks
    refine ⟨inv.size, dropAll_compatible inv.compatible p, fun q hq => ?_, fun q c' hq => ?_⟩
    · by_cases hqp : q = p
      · subst hqp
        simp [dropAll]
      · simp only [Function.update_of_ne hqp] at hq
        simpa [dropAll, hqp] using inv.dead q hq
    · by_cases hqp : q = p
      · subst hqp
        simp at hq
      · simp only [Function.update_of_ne hqp] at hq
        simpa [dropAll, hqp] using inv.proc q c' hq
  · -- the event was handled: the server has its new table, another one keeps locks and table
    refine ⟨heff.length_file inv.size, heff.compatible inv.compatible, fun q hq => ?_,
      fun q c' hq => ?_⟩
    · by_cases hqp : q = p
      · subst hqp
        simp at hq
      · simp only [Function.update_of_ne hqp] at hq
        exact (heff.locks_of_ne hqp).trans (inv.dead q hq)
    · by_cases hqp : q = p
      · subst hqp
        simp only [Function.update_self, Option.some.injEq] at hq
        subst hq
        obtain ⟨leak, hinv⟩ := inv.proc q c hc
        obtain ⟨leak', hinv', -⟩ := heff.procInv hinv
        exact ⟨leak', hinv'⟩
      · simp only [Function.update_of_ne hqp] at hq
        obtain ⟨leak, hinv⟩ := inv.proc q c' hq
        have hrow : a'.locks q = w.locks q := heff.locks_of_ne hqp
        refine ⟨leak, ?_⟩
        show ProcInv (build q) leak c' (a'.locks q)
        rw [hrow]
        exact hinv

/-- Every reachable state satisfies the invariant. -/
theorem reachable_inv [Fintype P] {f : BookingFile}
    (h : Reachable (step build) (World.start f) w) : w.Inv build :=
  h.invariant (fun _ _ _ inv hs => step_inv inv hs) (World.start_inv f)

/-! ### Mutual exclusion -/

omit [DecidableEq P] in
/-- A process with a session on `k` holds the first byte of record `k`. -/
theorem World.Inv.locked (inv : w.Inv build) {p : P} {c : Proc} (hc : w.proc p = some c)
    {fd k : ℕ} (hs : c.InSession (build p).live fd k) :
    w.locks p (recordStart k) = some (build p).kind := by
  obtain ⟨leak, hinv⟩ := inv.proc p c hc
  obtain ⟨hk, hpos⟩ := hinv.inSession hs
  have hlk := hinv.locked k hk.1 hk.2 0 (by decide)
  rw [if_pos (by omega)] at hlk
  exact hlk

/-- Within one write server, an id has at most one session. -/
theorem ProcInv.session_unique {c : Proc} {lk : ℕ → Option LockKind}
    (inv : ProcInv .writeServer leak c lk) {fd fd' k : ℕ} (h : c.InSession .command fd k)
    (h' : c.InSession .command fd' k) : fd = fd' := by
  obtain ⟨hk, -⟩ := inv.inSession (b := .writeServer) h
  have hle := inv.single rfl k hk.1 hk.2
  rw [inv.counter k hk.1 hk.2] at hle
  have hcard : (c.sessions .writeServer k).card ≤ 1 := by omega
  exact Finset.card_le_one.mp hcard fd (Proc.mem_sessions.mpr h) fd' (Proc.mem_sessions.mpr h')

omit [DecidableEq P] in
/-- Sessions of two processes on one id are both reading. -/
theorem World.Inv.exclusive (inv : w.Inv build) {p q : P} (hpq : p ≠ q)
    (hp : build p = .writeServer) {c c' : Proc} (hc : w.proc p = some c) (hc' : w.proc q = some c')
    {fd fd' k : ℕ} (hs : c.InSession .command fd k) :
    ¬ c'.InSession (build q).live fd' k := by
  intro hs'
  have hs1 : c.InSession (build p).live fd k := by rw [hp]; exact hs
  have h1 := inv.locked hc hs1
  have h2 := inv.locked hc' hs'
  rw [hp] at h1
  rw [inv.compatible p q _ hpq h1] at h2
  cases h2

/-- **Mutual exclusion.**  For every id, at most one open connection of all write servers is in
    state `COMMAND`, and while there is one no open connection of a read server is in state
    `EXIT`. -/
theorem mutual_exclusion [Fintype P] (build : P → Build) (f : BookingFile) (w : World P)
    (hw : Reachable (step build) (World.start f) w) (k : ℕ) :
    (∀ p q c c' fd fd', build p = .writeServer → build q = .writeServer →
      w.proc p = some c → w.proc q = some c' →
      c.InSession .command fd k → c'.InSession .command fd' k → p = q ∧ fd = fd') ∧
    (∀ p q c c' fd fd', build p = .writeServer → build q = .readServer →
      w.proc p = some c → w.proc q = some c' →
      c.InSession .command fd k → ¬ c'.InSession .exit fd' k) := by
  have inv := reachable_inv hw
  constructor
  · intro p q c c' fd fd' hp hq hc hc' hs hs'
    -- two servers cannot both hold the write lock, and one server counts its sessions
    have hpq : p = q := by
      by_contra hpq
      have hlive : (build q).live = .command := by rw [hq]; rfl
      exact inv.exclusive hpq hp hc hc' hs (hlive ▸ hs')
    subst hpq
    rw [hc] at hc'
    cases hc'
    obtain ⟨leak, hinv⟩ := inv.proc p c hc
    rw [hp] at hinv
    exact ⟨rfl, hinv.session_unique hs hs'⟩
  · intro p q c c' fd fd' hp hq hc hc' hs hs'
    have hpq : p ≠ q := by
      rintro rfl
      rw [hp] at hq
      cases hq
    have hlive : (build q).live = .exit := by rw [hq]; rfl
    exact inv.exclusive hpq hp hc hc' hs (hlive ▸ hs')

/-- A file of 20 records whose bytes are all zero. -/
def BookingFile.zero : BookingFile := ⟨List.replicate fileSize 0, by simp⟩

instance neZero_servers : NeZero 2 := ⟨by decide⟩

/-- Process 0 writes, process 1 reads. -/
def twoServers : Fin 2 → Build
  | 0 => .writeServer
  | 1 => .readServer

/-- A client of the write server and a client of the read server ask for id 902001. -/
def twoClients : List (Fin 2 × Event) :=
  [(0, .accept 24), (1, .accept 24), (0, .line 24 (ascii "902001")),
   (1, .line 24 (ascii "902001"))]

/-- The state the two clients lead to. -/
def twoClientsWorld : World (Fin 2) := endOf (step twoServers) (World.start .zero) twoClients

/-- The write server's client is in its session; the read server's is not, by the theorem. -/
theorem mutual_exclusion_twoClients :
    ((twoClientsWorld.proc 0).any fun c => c.InSession .command 24 1) = true ∧
    ∀ c c', twoClientsWorld.proc 0 = some c → twoClientsWorld.proc 1 = some c' →
      c.InSession .command 24 1 → ¬ c'.InSession .exit 24 1 :=
  ⟨by decide +kernel, fun c c' h h' hs =>
    (mutual_exclusion twoServers .zero _ ⟨twoClients, runFrom_endOf (by decide +kernel)⟩ 1).2
      0 1 c c' 24 24 rfl rfl h h' hs⟩

end SystemProgramming.Booking
