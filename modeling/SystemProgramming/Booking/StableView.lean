import SystemProgramming.Booking.Locking

namespace SystemProgramming.Booking

open ByteFile RecordLock Transition

/-!
# Booking servers — no lost update, stable view

* `ViewInv` — every open session was last sent the counts its record still has;
* `step_viewInv` — kept by every step: only the one session that can write a record changes it, and
  it ends in the same step;
* `acceptedOn` — the deltas of the commands accepted on a record along a run;
* `stable_view` — the three consequences: the view of a session is current, an accepted command adds
  its deltas to exactly the counts the client was shown, and a record is its initial content plus
  the deltas of all accepted commands, in `int` arithmetic.
-/

variable {P : Type} [DecidableEq P] {build : P → Build} {w w' : World P}

/-- The counts last displayed on a connection. -/
def Proc.shown (c : Proc) (fd : ℕ) : Option BookingState := (c.sent fd).getLast?.bind Reply.shown

/-- The counts stored in record `k`. -/
def World.counts (w : World P) (k : ℕ) : BookingState := (recordAt w.file k).bookingState

/-- **Every session shows its record.** -/
def ViewInv (build : P → Build) (w : World P) : Prop :=
  ∀ p c fd k, w.proc p = some c → c.InSession (build p).live fd k → c.shown fd = some (w.counts k)

/-- The record number and the deltas of the command accepted in a step (`checkcommand` returns 0),
    if there is one. -/
def acceptedStep (build : P → Build) (w : World P) : P × Event → Option (ℕ × BookingState)
  | (p, .line fd l) =>
    match build p, w.proc p with
    | .writeServer, some c =>
      let k := bookIndex (c.requestP fd).id
      if fd ∈ c.conns ∧ c.state fd = .command ∧
          (checkcommand l (recordAt w.file k)).1 = .accepted then
        (scanCommand l).map fun ch => (k, ch)
      else none
    | _, _ => none
  | _ => none

/-- The deltas of the commands accepted on record `k` along a run, in order. -/
def acceptedOn [Fintype P] (build : P → Build) (k : ℕ) : World P → List (P × Event) →
    List BookingState
  | _, [] => []
  | w, pe :: es =>
    (match acceptedStep build w pe with
      | some (j, ch) => if j = k then [ch] else []
      | none => []) ++
    (match step build w pe with
      | some w' => acceptedOn build k w' es
      | none => [])

/-! ### The accepted command of a step -/

/-- **Inversion of a step with respect to the file**: it accepts no command and leaves the file
    alone, or it is a line in a session of a write server, whose deltas are added to the record of
    the session and confirmed, and the session ends. -/
theorem step_accepted [Fintype P] (inv : w.Inv build) {p : P} {e : Event}
    (h : step build w (p, e) = some w') :
    (acceptedStep build w (p, e) = none ∧ w'.file = w.file) ∨
    ∃ c c' fd l k ch, e = .line fd l ∧ build p = .writeServer ∧ w.proc p = some c ∧
      w'.proc p = some c' ∧ c.InSession .command fd k ∧ (1 ≤ k ∧ k ≤ 20) ∧
      scanCommand l = some ch ∧ acceptedStep build w (p, e) = some (k, ch) ∧
      w'.file = writeAt w.file (recordStart k)
        (Record.encode { recordAt w.file k with bookingState := (w.counts k).add ch }) ∧
      c'.sent fd = c.sent fd ++ [.updated k ((w.counts k).add ch)] ∧ fd ∉ c'.conns := by
  obtain ⟨c, hc, ⟨rfl, rfl⟩ | ⟨a', heff, rfl⟩⟩ := step_cases inv h
  · exact .inl ⟨rfl, rfl⟩
  · obtain ⟨leak, hinv⟩ := inv.proc p c hc
    -- a connection that is not in state COMMAND accepts nothing
    have hquiet {fd l} (hl : e = .line fd l) (hs : ¬ (fd ∈ c.conns ∧ c.state fd = .command)) :
        acceptedStep build w (p, e) = none := by
      subst hl
      cases hb : build p with
      | readServer => simp [acceptedStep, hb]
      | writeServer =>
        simp only [acceptedStep, hb, hc]
        exact if_neg fun h => hs ⟨h.1, h.2.1⟩
    have hnoLine (hl : ∀ fd l, e ≠ .line fd l) : acceptedStep build w (p, e) = none := by
      cases e <;> first | rfl | exact absurd rfl (hl _ _)
    cases heff with
    | idle fd frame err before after counter locks file reply on =>
      refine .inl ⟨?_, file⟩
      cases e with
      | line fd' l =>
        cases on
        apply hquiet rfl
        intro hs
        rcases before with hb | hb
        · exact hb hs.1
        · simp [World.active, hs.2] at hb
      | accept | readError | eof | errExit => exact hnoLine (by simp)
    | keep fd l k frame before after sent counter locks file hb =>
      exact .inl ⟨by simp [acceptedStep, hb], file⟩
    | refuse fd l k frame hk hl before after sent reason counter locks file =>
      refine .inl ⟨hquiet rfl fun hs => ?_, file⟩
      simp [World.active, hs.2] at before
    | opens fd l k frame hk hl before after sent free grant counter locks file =>
      refine .inl ⟨hquiet rfl fun hs => ?_, file⟩
      simp [World.active, hs.2] at before
    | drop fd k frame hk before after counter locks file =>
      exact .inl ⟨rfl, file⟩
    | closes fd k out frame hk err before after counter locks file reply on =>
      have hidx : bookIndex (c.requestP fd).id = k := by
        rw [show (c.requestP fd).id = 902000 + k from before.2.2]
        exact bookIndex_id hk.2
      cases out with
      | none =>
        refine .inl ⟨?_, file.1⟩
        cases e with
        | line fd' l =>
          cases on
          cases hb : build p with
          | readServer => simp [acceptedStep, hb]
          | writeServer =>
            have hrej := file.2 l hb rfl
            simp only [acceptedStep, hb, hc, hidx]
            exact if_neg fun h => hrej h.2.2
        | accept | readError | eof | errExit => exact hnoLine (by simp)
      | some ch =>
        obtain ⟨l, hb, rfl, hscan, hjudge, hfile, hsent⟩ := file
        have hsess : c.InSession .command fd k := by
          simpa [hb, Build.live, World.active] using before
        refine .inr ⟨c, a'.proc, fd, l, k, ch, rfl, hb, hc, by simp, hsess, hk, hscan, ?_, hfile,
          hsent, after⟩
        have hacc : (checkcommand l (recordAt w.file k)).1 = .accepted := by
          have hj : judge (recordAt w.file k).bookingState ch = .accepted := hjudge
          simp [checkcommand, hscan, hj]
        simp [acceptedStep, hb, hc, hsess.1, hsess.2.1, hidx, hscan, hacc]

/-- A step changes a record exactly by the command it accepts. -/
theorem step_counts [Fintype P] (inv : w.Inv build) {pe : P × Event}
    (h : step build w pe = some w') {j : ℕ} (hj : 1 ≤ j ∧ j ≤ 20) :
    w'.counts j = match acceptedStep build w pe with
      | some (k, ch) => if k = j then (w.counts j).add ch else w.counts j
      | none => w.counts j := by
  obtain ⟨p, e⟩ := pe
  rcases step_accepted inv h with ⟨hnone, hfile⟩ | ⟨c, c', fd, l, k, ch, -, -, -, -, -, hk, -, hacc,
    hfile, -⟩
  · rw [hnone, World.counts, World.counts, hfile]
  · rw [hacc]
    simp only
    by_cases hkj : k = j
    · subst hkj
      rw [if_pos rfl, World.counts, hfile, recordAt_writeAt_self inv.size hk]
    · rw [if_neg hkj, World.counts, hfile, recordAt_writeAt_of_ne inv.size hj hk (Ne.symm hkj)]
      rfl

/-! ### The view of a session -/

/-- While a session on `j` is open in `w'`, the step that led there has not written record `j`. -/
theorem counts_of_session [Fintype P] (inv : w.Inv build) {pe : P × Event}
    (h : step build w pe = some w') {q : P} {cq cq' : Proc} {x j : ℕ} (hq : w.proc q = some cq)
    (hq' : w'.proc q = some cq') (hs : cq.InSession (build q).live x j) (hx : x ∈ cq'.conns) :
    w'.counts j = w.counts j := by
  obtain ⟨p, e⟩ := pe
  obtain ⟨leak, hinv⟩ := inv.proc q cq hq
  obtain ⟨hj, -⟩ := hinv.inSession hs
  rw [step_counts inv h hj]
  rcases step_accepted inv h with ⟨hnone, -⟩ | ⟨c, c', fd, l, k, ch, -, hb, hc, hc', hsess, -, -,
    hacc, -, -, hclosed⟩
  · rw [hnone]
  · rw [hacc]
    apply if_neg
    rintro rfl
    by_cases hqp : q = p
    · -- the writing session is the only one on its id, and it has just been closed
      subst hqp
      rw [hc] at hq
      cases hq
      rw [hc'] at hq'
      cases hq'
      rw [hb] at hs hinv
      exact hclosed (hinv.session_unique hs hsess ▸ hx)
    · exact inv.exclusive (Ne.symm hqp) hb hc hq hsess hs

/-- **The view is kept by every step.** -/
theorem step_viewInv [Fintype P] (inv : w.Inv build) (view : ViewInv build w) {pe : P × Event}
    (h : step build w pe = some w') : ViewInv build w' := by
  obtain ⟨p, e⟩ := pe
  intro q cq' x j hq' hs'
  obtain ⟨c, hc, ⟨-, rfl⟩ | ⟨a', heff, rfl⟩⟩ := step_cases inv h
  · by_cases hqp : q = p
    · subst hqp
      simp at hq'
    · simp only [Function.update_of_ne hqp] at hq'
      exact view q cq' x j hq' hs'
  · by_cases hqp : q = p
    · subst hqp
      have hcq' : cq' = a'.proc := by simpa [eq_comm] using hq'
      subst hcq'
      have hold (hframe : c.InSession (build q).live x j) (hsent : a'.proc.sent x = c.sent x) :
          a'.proc.shown x = some (recordAt a'.file j).bookingState := by
        have hcounts := counts_of_session inv h hc hq' hframe hs'.1
        simp only [World.counts] at hcounts
        rw [hcounts, Proc.shown, hsent]
        exact view q c x j hc hframe
      have hother {fd : ℕ} (frame : Frame fd c a'.proc) (hx : x ≠ fd) :
          a'.proc.shown x = some (recordAt a'.file j).bookingState :=
        hold ((frame.inSession_iff hx _ j).mp hs') (frame.sent x hx)
      -- the connection of the step itself: it keeps its session, or has just opened it
      cases heff with
      | idle fd frame err before after =>
        apply hother frame
        rintro rfl
        exact after.not_inSession j hs'
      | keep fd l k frame before after sent =>
        by_cases hx : x = fd
        · subst hx
          have hjk : j = k := (after.iff_eq j).mp hs'
          exact hold (hjk ▸ before) sent
        · exact hother frame hx
      | refuse fd l k frame hk hl before after =>
        apply hother frame
        rintro rfl
        exact after hs'.1
      | opens fd l k frame hk hl before after sent free grant counter locks file =>
        by_cases hx : x = fd
        · subst hx
          have hjk : j = k := (after.iff_eq j).mp hs'
          subst hjk
          rw [Proc.shown, sent, List.getLast?_concat, Option.bind_some, Build.shown_display,
            World.counts]
          simp only [World.active] at file ⊢
          rw [file]
        · exact hother frame hx
      | closes fd k out frame hk err before after =>
        apply hother frame
        rintro rfl
        exact after hs'.1
      | drop fd k frame hk before after =>
        apply hother frame
        rintro rfl
        exact after hs'.1
    · have hq : w.proc q = some cq' := by simpa [Function.update_of_ne hqp] using hq'
      rw [counts_of_session inv h hq hq' hs' hs'.1]
      exact view q cq' x j hq hs'

/-! ### Runs -/

/-- Both invariants hold in every reachable state. -/
theorem reachable_view [Fintype P] {f : BookingFile}
    (h : Reachable (step build) (World.start f) w) : w.Inv build ∧ ViewInv build w := by
  refine h.invariant (I := fun w => w.Inv build ∧ ViewInv build w) ?_ ⟨World.start_inv f, ?_⟩
  · intro w pe w' inv hs
    exact ⟨step_inv inv.1 hs, step_viewInv inv.1 inv.2 hs⟩
  · intro p c fd k hc hs
    cases hc
    have hmem := hs.1
    simp [Proc.init] at hmem

/-- Along a run, a record collects the deltas of the commands accepted on it. -/
theorem run_counts [Fintype P] {es : List (P × Event)} (inv : w.Inv build)
    (hrun : runFrom (step build) w es = some w') {k : ℕ} (hk : 1 ≤ k ∧ k ≤ 20) :
    w'.counts k = (acceptedOn build k w es).foldl BookingState.add (w.counts k) := by
  induction es generalizing w with
  | nil => cases hrun; rfl
  | cons pe es ih =>
    obtain ⟨w₁, hstep, hrest⟩ := runFrom_cons_eq_some.mp hrun
    rw [ih (step_inv inv hstep) hrest, acceptedOn, hstep, List.foldl_append, step_counts inv hstep hk]
    cases acceptedStep build w pe with
    | none => rfl
    | some jc =>
      obtain ⟨j, ch⟩ := jc
      simp only
      split <;> rfl

/-- **No lost update, stable view.**  In every reachable state each open session was last shown
    the counts its record has; an accepted command turns exactly the counts its client was shown
    into these counts plus the parsed deltas, and confirms this sum; and every record is its
    initial content plus the deltas of all commands accepted on it. -/
theorem stable_view [Fintype P] (build : P → Build) (f : BookingFile) (es : List (P × Event))
    (w : World P) (hrun : runFrom (step build) (World.start f) es = some w) :
    (∀ p c fd k, w.proc p = some c → c.InSession (build p).live fd k →
      c.shown fd = some (w.counts k)) ∧
    (∀ p e w' k ch, step build w (p, e) = some w' → acceptedStep build w (p, e) = some (k, ch) →
      ∃ c c' fd l, e = .line fd l ∧ w.proc p = some c ∧ w'.proc p = some c' ∧
        c.InSession .command fd k ∧ scanCommand l = some ch ∧ c.shown fd = some (w.counts k) ∧
        w'.counts k = (w.counts k).add ch ∧
        c'.sent fd = c.sent fd ++ [.updated k ((w.counts k).add ch)]) ∧
    (∀ k, 1 ≤ k → k ≤ 20 → w.counts k =
      (acceptedOn build k (World.start f) es).foldl BookingState.add
        ((World.start f : World P).counts k)) := by
  have hreach : Reachable (step build) (World.start f) w := ⟨es, hrun⟩
  obtain ⟨inv, view⟩ := reachable_view hreach
  refine ⟨view, ?_, fun k hk1 hk20 => run_counts (World.start_inv f) hrun ⟨hk1, hk20⟩⟩
  intro p e w' k ch hstep hacc
  -- a step that accepts a command is a line in a session of a write server
  rcases step_accepted inv hstep with ⟨hnone, -⟩ | ⟨c, c', fd, l, k', ch', he, hb, hc, hc', hs, hk,
    hscan, hacc', -, hsent, -⟩
  · rw [hnone] at hacc
    cases hacc
  · rw [hacc'] at hacc
    cases hacc
    have hlive : (build p).live = .command := by rw [hb]; rfl
    refine ⟨c, c', fd, l, he, hc, hc', hs, hscan, view p c fd k hc (hlive ▸ hs), ?_, hsent⟩
    rw [step_counts inv hstep hk, hacc']
    simp

/-- A client of the write server books three meals and two devices for 902001. -/
def booking : List (Fin 2 × Event) :=
  [(0, .accept 24), (0, .line 24 (ascii "902001")), (0, .line 24 (ascii "3 0 2"))]

/-- The record it leaves: the deltas of its command, by the theorem and by evaluation. -/
theorem stable_view_booking :
    (endOf (step twoServers) (World.start .zero) booking).counts 1 =
      (acceptedOn twoServers 1 (World.start .zero) booking).foldl BookingState.add
        ((World.start .zero : World (Fin 2)).counts 1) ∧
    (endOf (step twoServers) (World.start .zero) booking).counts 1 = ⟨3, 0, 2⟩ :=
  ⟨(stable_view twoServers .zero booking _ (runFrom_endOf (by decide +kernel))).2.2 1
    (by decide) (by decide), by decide +kernel⟩

end SystemProgramming.Booking
