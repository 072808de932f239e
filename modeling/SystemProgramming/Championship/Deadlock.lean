import SystemProgramming.Championship.Traffic

namespace SystemProgramming.Championship

open Network Transition

/-!
# Championship — the tournament never deadlocks and leaves nothing behind

* `chan_ne_nil` — nobody reads from a pipe whose writer has exited, unless something is in it;
* `waits_of_pending` — below a child that waits for its parent, all battles in passing mode wait,
  down to one player;
* `passing_iff_leaving` — a battle leaves its passing loop exactly when this player exits;
* `never_deadlocks` — all of this in every reachable state.
-/

/-- The player is on its way out of its program. -/
def PlayerPc.leaving : PlayerPc → Bool
  | .logHand _ | .openWrite _ | .waitReader _ | .writeFifo _ | .exit | .exited => true
  | _ => false

/-- The process is a player on its way out. -/
def Local.leaving : Local → Bool
  | .player pc _ _ _ => pc.leaving
  | .battle _ _ _ => false

/-- Below `c` everybody waits for a status from above, down to player `i`, who stands at `bot`. -/
inductive Waits (s : Tournament) (i : Fin 15) (bot : Local) : Proc → Prop
  | player (h : s.loc (.player i) = bot) (hdown : s.chan (.down (.player i)) = []) :
      Waits s i bot (.player i)
  | battle {b : Battle} {w : Side} {left right : Status}
      (h : s.loc (.battle b) = .battle (.readParent w) left right)
      (hdown : s.chan (.down (.battle b)) = []) (hwaits : Waits s i bot (child b w)) :
      Waits s i bot (.battle b)

variable {rows : Fin 8 → Row} {s s' t : Tournament} {b : Battle} {side w : Side} {i : Fin 15}
variable {p q : Proc} {c : Channel} {k : Status → Local} {l : Local} {m P : Status} {hp logp : ℤ}

/-! ### Reading -/

/-- A reader whose writer has exited stays where it is. -/
structure Stuck (rows : Fin 8 → Row) (p q : Proc) (c : Channel) (l : Local) (s : Tournament) :
    Prop where
  loc : s.loc p = l
  chan : s.chan c = []
  exited : (s.loc q).exited = true

theorem Stuck.step (h : Stuck rows p q c l s) (hrecv : program rows p l = .recv c k)
    (hsender : sender c = some q) {r : Proc} (hstep : step (program rows) s r = some s') :
    Stuck rows p q c l s' := by
  have hexited := (exit_announces rows q).stable.step hstep h.exited
  obtain ⟨x, l', hx, rfl⟩ := step_eq_some.mp hstep
  -- only `q` sends on the channel, and it has exited; there is nothing left to receive
  have huses : ¬ (program rows r (s.loc r)).Uses c := by
    rintro (⟨m, l'', heq⟩ | ⟨k', heq⟩)
    · rcases sender_eq heq with hr | ⟨a, rfl⟩
      · cases Option.some.inj (hr.symm.trans hsender)
        rw [program_exited h.exited] at heq
        cases heq
      · cases hsender
    · rw [heq] at hx
      obtain ⟨m, ms, hcons, -, -⟩ := effect_recv.mp hx
      rw [h.chan] at hcons
      cases hcons
  have hne : p ≠ r := by
    rintro rfl
    exact huses (.inr ⟨k, by rw [h.loc, hrecv]⟩)
  exact ⟨(Function.update_of_ne hne ..).trans h.loc, (effect_chan hx huses).trans h.chan, hexited⟩

/-- **Nobody waits for somebody who has exited.** -/
theorem chan_ne_nil (ht : Final rows t) (hreach : Reachable (step (program rows)) s t)
    (hrecv : program rows p (s.loc p) = .recv c k) (hsender : sender c = some q)
    (hexited : (s.loc q).exited = true) : s.chan c ≠ [] := by
  intro hchan
  have hstuck : Stuck rows p q c (s.loc p) t :=
    hreach.invariant (I := Stuck rows p q c (s.loc p))
      (fun _ _ _ h hstep => h.step hrecv hsender hstep) ⟨rfl, hchan, hexited⟩
  -- at the end everybody has exited
  have hend : program rows p (t.loc p) = .halt := program_exited (ht.exited p)
  rw [hstuck.loc, hrecv] at hend
  cases hend

/-! ### Passing down -/

/-- Whoever waits for a reply that is not in its pipe has everybody below it waiting. -/
theorem waits_of_pending (h : Traffic rows s) {q : Proc}
    (hpending : (s.loc q).pending = some P) (hdown : s.chan (.down q) = []) :
    ∃ i P' hp logp, Waits s i (.player .receive P' hp logp) q := by
  generalize hn : rank q = n
  induction n using Nat.strong_induction_on generalizing q P with
  | _ n ih =>
    cases q with
    | player i =>
      cases hloc : s.loc (.player i) with
      | battle pc left right =>
        have hok := h.ok (.player i)
        rw [hloc] at hok
        exact hok.elim
      | player pc P' hp logp =>
        rw [hloc] at hpending
        cases pc with
        -- the end of the path
        | receive => exact ⟨i, P', hp, logp, .player hloc hdown⟩
        | _ => cases hpending
    | battle b =>
      cases hloc : s.loc (.battle b) with
      | player pc P' hp logp =>
        have hok := h.ok (.battle b)
        rw [hloc] at hok
        exact hok.elim
      | battle pc left right =>
        rw [hloc] at hpending
        cases pc with
        | readParent w =>
          -- a relay that waits for its parent holds the request of its winner's side
          have hheld : (s.loc (.battle b)).held w = .request (pick w left right) := by
            rw [hloc]
            simp [Local.held, BattlePc.held]
          obtain ⟨hchild, hempty⟩ := (h.edge b w).of_request hheld
          have hlt := rank_lt_of_parentOf _ _ (parentOf_child b w)
          obtain ⟨i, P'', hp, logp, hwaits⟩ := ih _ (by omega) hchild hempty rfl
          exact ⟨i, P'', hp, logp, .battle hloc hdown hwaits⟩
        | _ => cases hpending

theorem relayed_leaves_iff (w : Side) (m : Status) :
    relayed m w = .waitWinner w ↔ m.HP ≤ 0 ∨ m.current_battle_id = 'A' ∧ m.battle_ended_flag = 1 := by
  unfold relayed
  split_ifs with h
  · refine ⟨fun heq => (by cases heq), ?_⟩
    rintro (hdead | hlast)
    · omega
    · exact absurd hlast h.2
  · apply iff_of_true rfl
    by_contra hnot
    rw [not_or] at hnot
    exact h ⟨by omega, hnot.2⟩

theorem turn_leaving_iff (m : Status) (hp logp : ℤ) :
    (turn m hp logp).leaving = true ↔
      m.battle_ended_flag = 1 ∧ (m.HP ≤ 0 ∨ m.current_battle_id = 'A') := by
  unfold turn
  dsimp only
  split_ifs with hflag hdead hid
  · simp [Local.leaving, PlayerPc.leaving, hflag]
  · refine iff_of_true ?_ ⟨by omega, .inl hdead⟩
    split <;> rfl
  · simp only [Local.leaving, PlayerPc.leaving, true_iff]
    exact ⟨by omega, .inr hid⟩
  · simp only [Local.leaving, PlayerPc.leaving, Bool.false_eq_true, false_iff]
    rintro ⟨-, h | h⟩
    · exact hdead h
    · exact hid h

/-- **The two exit tests agree** on every status that comes back to a player. -/
theorem passing_iff_leaving {left right : Status} (h : Returned P (pick w left right)) (hp logp : ℤ) :
    passing w left right = .battle (.waitWinner w) left right ↔
      (turn (pick w left right) hp logp).leaving = true := by
  have halive := h.alive
  rw [passing_eq, turn_leaving_iff]
  simp only [Local.battle.injEq, and_true]
  rw [relayed_leaves_iff]
  constructor
  · -- a status with no HP has lost, and only then the flag is set
    rintro (hdead | ⟨hid, hflag⟩)
    · refine ⟨?_, .inl hdead⟩
      by_contra hflag
      have hpos := halive hflag
      omega
    · exact ⟨hflag, .inr hid⟩
  · rintro ⟨hflag, hdead | hid⟩
    · exact .inl hdead
    · exact .inr ⟨hid, hflag⟩

/-! ### The tournament -/

/-- **The tournament never deadlocks and leaves nothing behind.**  In every reachable state:
    somebody can move until the root has exited; nobody waits for a child or parent that has exited;
    a battle that passes a status down has a path of waiting battles below it, and leaves its
    passing loop exactly when the player at the end of this path exits; and when the root has
    exited, everybody has, and all pipes and FIFOs are empty. -/
theorem never_deadlocks (hrows : Valid rows) (hs : Reachable (step (program rows)) start s) :
    ((s.loc (.battle .A)).exited = false → ∃ p s', step (program rows) s p = some s') ∧
    (∀ p q c k, program rows p (s.loc p) = .recv c k → sender c = some q →
      (s.loc q).exited = true → s.chan c ≠ []) ∧
    (∀ b w left right, s.loc (.battle b) = .battle (.sendDown w) left right →
      ∃ i P hp logp, Waits s i (.player .receive P hp logp) (child b w) ∧
        (passing w left right = .battle (.waitWinner w) left right ↔
          (turn (pick w left right) hp logp).leaving = true)) ∧
    ((s.loc (.battle .A)).exited = true →
      (∀ p, (s.loc p).exited = true) ∧ ∀ c, s.chan c = []) := by
  obtain ⟨t, hpath, ht⟩ := exists_final hrows
  have hreach := reachable_final hrows ht hpath hs
  refine ⟨fun hroot => ?_, fun p q c k => chan_ne_nil ht hreach, fun b w left right hloc => ?_,
    fun hroot => ?_⟩
  · -- a state that reaches the final one and is not it has a step
    apply progress hreach
    rintro rfl
    rw [ht.exited] at hroot
    cases hroot
  · have h := traffic_of_reachable ⟨hrows.HP, hrows.ATK⟩ hs
    have hheld : (s.loc (.battle b)).held w = .reply (pick w left right) := by
      rw [hloc]
      simp [Local.held, BattlePc.held]
    obtain ⟨⟨P, hchild, hreturned⟩, hempty⟩ := (h.edge b w).of_reply hheld
    obtain ⟨i, P', hp, logp, hwaits⟩ := waits_of_pending h hchild hempty
    exact ⟨i, P', hp, logp, hwaits, passing_iff_leaving hreturned hp logp⟩
  · -- no one can move any more, so this is the final state
    have hall := all_exited hs hroot
    have hhalted : Halted (step (program rows)) s := by
      intro p
      rw [step, program_exited (hall p)]
      rfl
    obtain rfl := hhalted.eq_of_reachable hreach
    exact ⟨hall, ht.chan⟩

/-- In the middle of the tournament of `player_status.txt`, when `G` passes a status of `D` down to
    player 0, and at its end. -/
theorem never_deadlocks_sample :
    (∃ p s', step (program sampleRows) (sampleAfter 43) p = some s') ∧
      (∃ i P hp logp, Waits (sampleAfter 43) i (.player .receive P hp logp) (.player 0) ∧
        (turn ⟨0, 1, 2, .FIRE, 'D', 1⟩ hp logp).leaving = false) ∧
      ∃ t, Reachable (step (program sampleRows)) start t ∧
        (∀ p, (t.loc p).exited = true) ∧ ∀ c, t.chan c = [] := by
  obtain ⟨hmoves, -, hpasses, -⟩ := never_deadlocks valid_sampleRows (reachable_sampleAfter 43)
  have hG : (sampleAfter 43).loc (.battle .G) = .battle (.sendDown .left)
      ⟨0, 1, 2, .FIRE, 'D', 1⟩ ⟨1, 0, 3, .GRASS, 'G', 1⟩ := by decide +kernel
  obtain ⟨i, P, hp, logp, hwaits, hleaves⟩ := hpasses .G .left _ _ hG
  refine ⟨hmoves (by decide +kernel), ⟨i, P, hp, logp, hwaits, ?_⟩, ?_⟩
  · -- the status has hit points left and is not of the last battle, so `G` goes on passing
    exact Bool.eq_false_iff.mpr (hleaves.not.mp (by decide))
  · obtain ⟨t, hreach, ht⟩ := exists_final valid_sampleRows
    exact ⟨t, hreach, (never_deadlocks valid_sampleRows hreach).2.2.2 (ht.exited _)⟩

end SystemProgramming.Championship
