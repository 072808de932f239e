import SystemProgramming.Booking.Locking

namespace SystemProgramming.Booking

open RecordLock Transition

/-!
# Booking servers — which runs leak a lock

`LocksReleased` says that nothing is leaked: the counters and the locks of every process are those
of its open sessions, `Locked.` is only said while a conflicting session is open, and once nobody is
connected every id can be locked again.

A read error on a connection with a session closes it without touching the counter or the lock
(the end-of-file branch next to it gives both back), and nothing else leaks:
`locks_released_iff` — a run keeps `LocksReleased` exactly if it has no such read error.
-/

variable {P : Type} [DecidableEq P] {b : Build} {p : P} {build : P → Build} {w w' : World P}

/-! ### The property -/

/-- The counters and locks of a process are those of its open sessions. -/
def Tally (b : Build) (c : Proc) (lk : ℕ → Option LockKind) : Prop :=
  ∀ k, 1 ≤ k → k ≤ 20 →
    b.counter c k = (match b with
      | .readServer => ((c.sessions b k).card : ℤ)
      | .writeServer => if (c.sessions b k).card = 1 then 1 else 0) ∧
    ∀ i, i < recordSize →
      lk (recordStart k + i) = if 0 < (c.sessions b k).card then some b.kind else none

/-- Sessions of `p` and of `q` cannot be open together. -/
def Excludes (build : P → Build) (p q : P) : Prop :=
  build p = .writeServer ∨ build q = .writeServer

/-- **Nothing is leaked.** -/
structure LocksReleased [Fintype P] (build : P → Build) (w : World P) : Prop where
  tally : ∀ p c, w.proc p = some c → Tally (build p) c (w.locks p)
  /-- a refusal has a live reason -/
  refused : ∀ p c e w' c' fd, w.proc p = some c → step build w (p, e) = some w' →
    w'.proc p = some c' → c'.sent fd = c.sent fd ++ [.locked] →
    ∃ (l : List UInt8) (k : ℕ), e = .line fd l ∧ atoi l = 902000 + k ∧
      ∃ q cq fd', w.proc q = some cq ∧ Excludes build p q ∧ cq.InSession (build q).live fd' k
  /-- without clients every id is free -/
  free : (∀ p c, w.proc p = some c → c.conns = ∅) → ∀ p c kind k, w.proc p = some c →
    1 ≤ k → k ≤ 20 →
    (build p).counter c k = 0 ∧ Grantable w.locks p kind (recordStart k) recordSize

/-! ### The tally is the absence of a leak -/

/-- Under the invariant, the tally holds iff no session was lost. -/
theorem ProcInv.tally_iff {leak : ℕ → ℕ} {c : Proc} {lk : ℕ → Option LockKind}
    (inv : ProcInv b leak c lk) : Tally b c lk ↔ ∀ k, 1 ≤ k → k ≤ 20 → leak k = 0 := by
  constructor
  · -- the counter is the number of sessions and of leaked ones
    intro h k hk1 hk20
    have hc := inv.counter k hk1 hk20
    have ht := (h k hk1 hk20).1
    cases b with
    | readServer => simp only at ht; omega
    | writeServer =>
      have hle := inv.single rfl k hk1 hk20
      simp only at ht
      split at ht <;> omega
  · intro h k hk1 hk20
    have hc := inv.counter k hk1 hk20
    rw [h k hk1 hk20] at hc
    constructor
    · cases b with
      | readServer => simpa using hc
      | writeServer =>
        have hle := inv.single rfl k hk1 hk20
        simp only
        split <;> omega
    · intro i hi
      rw [inv.locked k hk1 hk20 i hi]
      by_cases hpos : 0 < (c.sessions b k).card
      · rw [if_pos hpos, if_pos (by omega)]
      · rw [if_neg hpos, if_neg (by omega)]

omit [DecidableEq P] in
/-- With the tally, a lock that stands in the way belongs to an open session. -/
theorem session_of_conflict (inv : w.Inv build)
    (tally : ∀ p c, w.proc p = some c → Tally (build p) c (w.locks p)) {k : ℕ}
    (hk : 1 ≤ k ∧ k ≤ 20) {kind : LockKind}
    (h : ¬ Grantable w.locks p kind (recordStart k) recordSize) :
    ∃ q cq fd', w.proc q = some cq ∧ cq.InSession (build q).live fd' k ∧
      conflicts (some (build q).kind) kind = true := by
  simp only [Grantable, not_forall, Bool.not_eq_false] at h
  obtain ⟨q, hqp, i, hi, hcon⟩ := h
  cases hq : w.proc q with
  | none =>
    rw [inv.dead q hq] at hcon
    simp at hcon
  | some cq =>
    have hlk := (tally q cq hq k hk.1 hk.2).2 i hi
    rw [hlk] at hcon
    -- a lock is held while a session is open
    split at hcon
    · rename_i hpos
      obtain ⟨fd', hfd'⟩ := Finset.card_pos.mp hpos
      exact ⟨q, cq, fd', hq, Proc.mem_sessions.mp hfd', hcon⟩
    · simp at hcon

/-- **The tally is all there is to it**: refusals with a live reason, and free ids once all
    clients have gone, follow from it. -/
theorem locksReleased_iff_tally [Fintype P] (inv : w.Inv build) :
    LocksReleased build w ↔ ∀ p c, w.proc p = some c → Tally (build p) c (w.locks p) := by
  refine ⟨fun h => h.tally, fun tally => ⟨tally, ?_, ?_⟩⟩
  · intro p c e w' c' fd hc hstep hc' hsent
    obtain ⟨c₀, hc₀, ⟨-, rfl⟩ | ⟨a', heff, rfl⟩⟩ := step_cases inv hstep
    · simp at hc'
    · rw [hc] at hc₀
      cases hc₀
      simp only [Function.update_self, Option.some.injEq] at hc'
      subst hc'
      -- only a refusal appends `Locked.` to what was sent to `fd`
      have hframe {fd₁ : ℕ} (frame : Frame fd₁ c a'.proc) : fd = fd₁ := by
        by_contra hne
        rw [frame.sent fd hne] at hsent
        simp at hsent
      cases heff with
      | idle fd₁ frame _ _ _ _ _ _ reply =>
        obtain rfl := hframe frame
        exact absurd hsent reply
      | keep fd₁ l k frame _ _ sent =>
        obtain rfl := hframe frame
        exact absurd (sent.symm.trans hsent) (by simp [World.active])
      | opens fd₁ l k frame _ _ _ _ sent =>
        obtain rfl := hframe frame
        have hsame := sent.symm.trans hsent
        cases hb : build p <;> simp [hb, Build.display, World.active] at hsame
      | closes fd₁ k out frame _ _ _ _ _ _ _ reply =>
        obtain rfl := hframe frame
        exact absurd hsent reply
      | drop fd₁ k frame _ _ _ _ _ _ reply =>
        obtain rfl := hframe frame
        exact absurd (reply.symm.trans hsent) (by simp [World.active])
      | refuse fd₁ l k frame hk hl before after sent reason =>
        obtain rfl := hframe frame
        refine ⟨l, k, rfl, hl, ?_⟩
        rcases reason with hgrant | ⟨hb, hone⟩
        · obtain ⟨q, cq, fd', hq, hs, hcon⟩ := session_of_conflict inv tally hk hgrant
          refine ⟨q, cq, fd', hq, ?_, hs⟩
          cases hp : build p
          · cases hq' : build q
            · simp [hp, hq', Build.kind, conflicts] at hcon
            · exact .inr hq'
          · exact .inl hp
        · -- the process itself has the session
          have ht := (tally p c hc k hk.1 hk.2).1
          rw [hb] at ht hone
          simp only at ht
          split at ht
          · rename_i hcard
            obtain ⟨fd', hfd'⟩ := Finset.card_pos.mp (by omega :
              0 < (c.sessions .writeServer k).card)
            exact ⟨p, c, fd', hc, .inl hb, hb ▸ Proc.mem_sessions.mp hfd'⟩
          · rw [World.active, ht] at hone
            cases hone
  · intro hempty p c kind k hc hk1 hk20
    have hnone (q : P) (cq : Proc) (hq : w.proc q = some cq) (fd : ℕ) :
        ¬ cq.InSession (build q).live fd k := by
      intro hs
      have hmem := hs.1
      rw [hempty q cq hq] at hmem
      simp at hmem
    constructor
    · have hcard : (c.sessions (build p) k).card = 0 := by
        rw [Finset.card_eq_zero]
        exact Finset.eq_empty_of_forall_notMem fun fd hfd => hnone p c hc fd (Proc.mem_sessions.mp hfd)
      have ht := (tally p c hc k hk1 hk20).1
      cases hb : build p <;> simp only [hb] at ht hcard ⊢ <;> rw [ht, hcard] <;> simp
    · by_contra hgrant
      obtain ⟨q, cq, fd', hq, hs, -⟩ := session_of_conflict inv tally ⟨hk1, hk20⟩ hgrant
      exact hnone q cq hq fd' hs

/-! ### One step -/

/-- The step is not a read error on a connection that holds a session. -/
def KeepsSessions (build : P → Build) (w : World P) (pe : P × Event) : Prop :=
  ∀ c, w.proc pe.1 = some c → ¬ (build pe.1).Loses c pe.2

/-- **A step keeps the tally exactly if it loses no session.** -/
theorem step_tally_iff [Fintype P] (inv : w.Inv build)
    (tally : ∀ p c, w.proc p = some c → Tally (build p) c (w.locks p)) {pe : P × Event}
    (h : step build w pe = some w') :
    (∀ p c, w'.proc p = some c → Tally (build p) c (w'.locks p)) ↔ KeepsSessions build w pe := by
  obtain ⟨p, e⟩ := pe
  obtain ⟨c, hc, ⟨rfl, rfl⟩ | ⟨a', heff, rfl⟩⟩ := step_cases inv h
  · -- a process that exits loses its locks with its sessions
    refine iff_of_true (fun q cq hq => ?_) (fun _ _ => by simp [Build.Loses])
    by_cases hqp : q = p
    · subst hqp
      simp at hq
    · simp only [Function.update_of_ne hqp] at hq
      simpa [dropAll, hqp] using tally q cq hq
  · obtain ⟨leak, hinv⟩ := inv.proc p c hc
    obtain ⟨leak', hinv', hkeep, hlose⟩ := heff.procInv hinv
    have hzero := hinv.tally_iff.mp (tally p c hc)
    have hkeeps : KeepsSessions build w (p, e) ↔ ¬ (build p).Loses c e := by
      constructor
      · exact fun h => h c hc
      · intro h c₁ hc₁
        rw [hc] at hc₁
        cases hc₁
        exact h
    rw [hkeeps]
    constructor
    · -- a session lost to a read error leaks its share
      intro hall hl
      have ht := hall p a'.proc (by simp)
      obtain ⟨k, hk1, hk20, hk⟩ := hlose hl
      have hz := hinv'.tally_iff.mp ht k hk1 hk20
      omega
    · intro hl q cq hq
      -- the rows of the other processes stay
      by_cases hqp : q = p
      · subst hqp
        simp only [Function.update_self, Option.some.injEq] at hq
        subst hq
        apply hinv'.tally_iff.mpr
        rw [hkeep hl]
        exact hzero
      · simp only [Function.update_of_ne hqp] at hq
        have hrow : a'.locks q = w.locks q := heff.locks_of_ne hqp
        show Tally (build q) cq (a'.locks q)
        rw [hrow]
        exact tally q cq hq

/-! ### Runs -/

/-- **Exactly the runs without a read error in a session leak nothing**: in all their states, and
    in no other run, the counters and locks are those of the open sessions. -/
theorem locks_released_iff [Fintype P] (build : P → Build) (f : BookingFile)
    (es : List (P × Event)) :
    EveryState (step build) (LocksReleased build) (World.start f) es ↔
      EveryStep (step build) (KeepsSessions build) (World.start f) es := by
  have htally (w : World P) (inv : w.Inv build) := locksReleased_iff_tally inv
  refine everyState_iff_everyStep (J := fun w => w.Inv build)
    (fun _ _ _ inv hs => step_inv inv hs) ?_ (World.start_inv f) ?_ es
  · intro w e w' inv hrel hs
    rw [htally w' (step_inv inv hs)]
    exact step_tally_iff inv ((htally w inv).mp hrel) hs
  · rw [htally _ (World.start_inv f)]
    intro p c hc
    cases hc
    exact (Proc.init_inv (build p)).tally_iff.mpr fun _ _ _ => rfl

/-- A client of a read server asks for id 902001 and its connection is reset. -/
def lostClient : List (Fin 2 × Event) :=
  [(1, .accept 24), (1, .line 24 (ascii "902001")), (1, .readError 24)]

/-- **The leak.**  After the reset the read server still counts a session of id 902001, with no
    connection open. -/
theorem locks_released_fails :
    ¬ ∀ w, Reachable (step twoServers) (World.start .zero) w → LocksReleased twoServers w := by
  intro h
  -- the run of `lostClient` ends with no connection and a count of one
  have hrun : ((runFrom (step twoServers) (World.start .zero) lostClient).any fun w =>
      (w.proc 1).any fun c => c.readlc 1 = 1 ∧ c.conns = ∅) = true := by decide +kernel
  obtain ⟨w, hw, hw'⟩ := (Option.any_eq_true _ _).mp hrun
  obtain ⟨c, hc, hleak⟩ := (Option.any_eq_true _ _).mp hw'
  obtain ⟨hone, hempty⟩ := of_decide_eq_true hleak
  have hfree := (h w ⟨lostClient, hw⟩).tally 1 c hc 1 (by decide) (by decide)
  have hnone : c.sessions .readServer 1 = ∅ := by
    apply Finset.eq_empty_of_forall_notMem
    intro fd hfd
    have hmem := (Proc.mem_sessions.mp hfd).1
    rw [hempty] at hmem
    simp at hmem
  have hzero : c.readlc 1 = 0 := by
    -- the count of a released record is the number of its sessions, which is zero
    rw [show c.readlc 1 = ((c.sessions .readServer 1).card : ℤ) from hfree.1, hnone]
    rfl
  rw [hone] at hzero
  cases hzero

end SystemProgramming.Booking
