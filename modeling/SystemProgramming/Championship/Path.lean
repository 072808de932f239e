import SystemProgramming.Championship.Relay
import SystemProgramming.Lib.Ancestor

namespace SystemProgramming.Championship

open Network Ancestor

/-!
# Championship — the path to a player

A player that has won some battles is connected to the next one by a path of battles in passing
mode.  Along this path a status travels up, a status travels down, and the end of the player
travels up.

* `Path rows loc relay i bot c` — below `c`, player `i` stands at `bot`, and the battles above it
  are in passing mode at `relay`;
* `Path.lift` / `Path.reply` / `Path.leave` — what travels, by induction on the path; everything
  that is not below `c` is left alone.
-/

/-! ### The tree of processes -/

/-- The battle above a process. -/
def parentOf : Proc → Option Proc
  | .battle b => (parent b).map .battle
  | .player i => some (.battle (par i))

/-- `q` is `c`, or a descendant of it. -/
abbrev Under (c q : Proc) : Prop := Below parentOf c q

/-- The battle above a child. -/
@[simp] theorem parentOf_child (b : Battle) (w : Side) :
    parentOf (child b w) = some (.battle b) := by
  revert b w
  decide

/-- The tables of `battle.c` and `player.c` fit together: who has a parent is a child of it. -/
theorem eq_child_of_parentOf {q p : Proc} (h : parentOf q = some p) :
    ∃ b w, p = .battle b ∧ q = child b w := by
  have key : ∀ q : Proc, parentOf q = none ∨
      ∃ b w, parentOf q = some (.battle b) ∧ q = child b w := by decide
  rcases key q with hnone | ⟨b, w, hsome, rfl⟩
  · rw [hnone] at h
    cases h
  · exact ⟨b, w, (Option.some.inj (hsome.symm.trans h)).symm, rfl⟩

/-- The two children differ. -/
theorem child_other_ne (b : Battle) (w : Side) : child b w ≠ child b w.other := by
  revert b w
  decide

/-- Ranks go up towards the root. -/
theorem rank_lt_of_parentOf (q p : Proc) (h : parentOf q = some p) : rank q < rank p := by
  obtain ⟨b, w, rfl, rfl⟩ := eq_child_of_parentOf h
  cases w with
  | left => exact rank_playl b
  | right => exact rank_playr b

variable {b : Battle} {w : Side} {c q : Proc} {i j a : Fin 15}

/-- What is under a child is under its battle. -/
theorem under_battle_of_child (h : Under (child b w) q) : Under (.battle b) q :=
  .trans (.of_up (parentOf_child b w)) h

/-- A battle is not under its children. -/
theorem not_under_child (b : Battle) (w : Side) : ¬ Under (child b w) (.battle b) :=
  Below.not_parent rank_lt_of_parentOf (parentOf_child b w)

/-- Nothing is under both children. -/
theorem not_under_other (h : Under (child b w) q) : ¬ Under (child b w.other) q :=
  Below.disjoint rank_lt_of_parentOf (parentOf_child b w) (parentOf_child b w.other)
    (child_other_ne b w) h

/-- What is under a child is not the battle. -/
theorem ne_of_under_child (h : Under (child b w) q) : q ≠ .battle b := by
  rintro rfl
  exact not_under_child b w h

/-- Nothing has changed but below `c`. -/
def Outside (c : Proc) (loc loc' : Proc → Local) : Prop := ∀ q, ¬ Under c q → loc' q = loc q

variable {loc loc' loc'' : Proc → Local} {l : Local}

/-- A battle is outside of its children. -/
theorem Outside.battle (h : Outside (child b w) loc loc') : loc' (.battle b) = loc (.battle b) :=
  h _ (not_under_child b w)

/-- Two changes below `c`, one after the other. -/
theorem Outside.trans (h : Outside c loc loc') (h' : Outside c loc' loc'') :
    Outside c loc loc'' := fun q hq => (h' q hq).trans (h q hq)

/-- A change below a child is a change below the battle. -/
theorem Outside.of_child (h : Outside (child b w) loc loc') : Outside (.battle b) loc loc' :=
  fun q hq => h q fun hunder => hq (under_battle_of_child hunder)

/-- A step of `p` is a change below `p`. -/
theorem outside_update (loc : Proc → Local) (p : Proc) (l : Local) :
    Outside p loc (Function.update loc p l) := by
  intro q hq
  have hne : q ≠ p := by
    rintro rfl
    exact hq .refl
  exact Function.update_of_ne hne l loc

/-! ### Paths -/

/-- Below `c` player `i` stands at `bot`, and the battles between them pass on at `relay`. -/
inductive Path (rows : Fin 8 → Row) (loc : Proc → Local) (relay : Side → BattlePc) (i : Fin 15)
    (bot : Local) : Proc → Prop
  | player (h : loc (.player i) = bot) : Path rows loc relay i bot (.player i)
  | battle {b l r} (h : loc (.battle b) = .battle (relay (winnerSide rows b)) l r)
      (hpath : Path rows loc relay i bot (child b (winnerSide rows b))) :
      Path rows loc relay i bot (.battle b)

variable {rows : Fin 8 → Row} {relay : Side → BattlePc} {bot : Local}

/-- A path is a matter of the processes below its head. -/
theorem Path.congr (h : Path rows loc relay i bot c) (hloc : ∀ q, Under c q → loc' q = loc q) :
    Path rows loc' relay i bot c := by
  induction h with
  | player h => exact .player ((hloc _ .refl).trans h)
  | battle h _ ih =>
    exact .battle ((hloc _ .refl).trans h) (ih fun q hq => hloc q (under_battle_of_child hq))

/-- The player at the end of a path is under its start. -/
theorem Path.under (h : Path rows loc relay i bot c) : Under c (.player i) := by
  induction h with
  | player _ => exact .refl
  | battle _ _ ih => exact under_battle_of_child ih

/-- The player at the end of a path. -/
theorem Path.loc_bot (h : Path rows loc relay i bot c) : loc (.player i) = bot := by
  induction h with
  | player h => exact h
  | battle _ _ ih => exact ih

/-- A path below one child of a battle, after a step of the battle. -/
theorem Path.update (h : Path rows loc relay i bot (child b w)) (l : Local) :
    Path rows (Function.update loc (.battle b) l) relay i bot (child b w) :=
  h.congr fun _ hq => Function.update_of_ne (ne_of_under_child hq) l loc

/-- A path below one child of a battle, after a change below the other. -/
theorem Path.outside (h : Path rows loc relay i bot (child b w))
    (hout : Outside (child b w.other) loc loc') : Path rows loc' relay i bot (child b w) :=
  h.congr fun q hq => hout q (not_under_other hq)

/-! ### Up -/

variable {P m : Status} {hp logp : ℤ}

/-- The status of the player at the end of a path comes up. -/
theorem Path.lift (h : Path rows loc .readChild i (.player .logSend P hp logp) c)
    (flag : Flag → Bool) :
    ∃ loc', Runs (program rows) ⟨quiet, flag, loc⟩ ⟨only (.up c) P, flag, loc'⟩ ∧
      Path rows loc' .readParent i (.player .receive P hp logp) c ∧ Outside c loc loc' := by
  induction h with
  | player h =>
    exact ⟨_, runs_player_send rows h, .player (Function.update_self ..), outside_update _ _ _⟩
  | @battle b l r h _ ih =>
    obtain ⟨loc', hruns, hpath, hout⟩ := ih
    exact ⟨_, hruns.trans (runs_battle_up rows (hout.battle.trans h)),
      .battle (Function.update_self ..) (hpath.update _),
      hout.of_child.trans (outside_update _ _ _)⟩

/-! ### Down -/

/-- Where a battle stands after it has passed `m` down. -/
def relayed (m : Status) (w : Side) : BattlePc :=
  if m.HP > 0 ∧ ¬ (m.current_battle_id = 'A' ∧ m.battle_ended_flag = 1) then .readChild w
  else .waitWinner w

/-- The head of the passing loop, in terms of the status of the winner. -/
theorem passing_eq (w : Side) (l r : Status) :
    passing w l r = .battle (relayed (pick w l r) w) l r := by
  simp only [passing, relayed]
  split <;> rfl

/-- A status goes down to the player at the end of a path. -/
theorem Path.reply (h : Path rows loc .readParent i (.player .receive P hp logp) c) (m : Status)
    (flag : Flag → Bool) :
    ∃ loc', Runs (program rows) ⟨only (.down c) m, flag, loc⟩ ⟨quiet, flag, loc'⟩ ∧
      Path rows loc' (relayed m) i (turn m hp logp) c ∧ Outside c loc loc' := by
  -- a battle moves before those below it, so that the path is only what they still stand on
  suffices key : ∀ loc₁, (∀ q, Under c q → loc₁ q = loc q) → ∃ loc',
      Runs (program rows) ⟨only (.down c) m, flag, loc₁⟩ ⟨quiet, flag, loc'⟩ ∧
      Path rows loc' (relayed m) i (turn m hp logp) c ∧ Outside c loc₁ loc' from
    key loc fun _ _ => rfl
  induction h with
  | player h =>
    intro loc₁ hloc
    exact ⟨_, runs_player_receive rows ((hloc _ .refl).trans h), .player (Function.update_self ..),
      outside_update _ _ _⟩
  | @battle b l r h _ ih =>
    intro loc₁ hloc
    have hdown : Runs (program rows) ⟨only (.down (.battle b)) m, flag, loc₁⟩ _ :=
      runs_battle_down rows ((hloc _ .refl).trans h)
    rw [passing_eq, pick_put] at hdown
    obtain ⟨loc', hruns, hpath, hout⟩ := ih _ fun q hq =>
      (Function.update_of_ne (ne_of_under_child hq) _ loc₁).trans
        (hloc q (under_battle_of_child hq))
    refine ⟨loc', hdown.trans hruns, .battle (hout.battle.trans (Function.update_self ..)) hpath, ?_⟩
    exact (outside_update _ _ _).trans hout.of_child

/-! ### The end of a player -/

/-- Nothing is taken back. -/
def Kept (flag flag' : Flag → Bool) : Prop := ∀ f, flag f = true → flag' f = true

/-- Flags stay raised. -/
theorem Kept.trans {flag flag' flag'' : Flag → Bool} (h : Kept flag flag')
    (h' : Kept flag' flag'') : Kept flag flag'' := fun f hf => h' f (h f hf)

/-- To raise a flag lowers no other. -/
theorem kept_raise (flag : Flag → Bool) (f : Flag) : Kept flag (Function.update flag f true) := by
  intro g hg
  by_cases hne : g = f
  · subst hne
    exact Function.update_self ..
  · rw [Function.update_of_ne hne]
    exact hg

/-- The player at the end of a path exits, and so do the battles above it. -/
theorem Path.leave (h : Path rows loc .waitWinner i (.player .exit P hp logp) c)
    (flag : Flag → Bool) :
    ∃ loc' flag', Runs (program rows) ⟨quiet, flag, loc⟩ ⟨quiet, flag', loc'⟩ ∧
      flag' (.exited c) = true ∧ Kept flag flag' ∧
      Path rows loc' .exited i (.player .exited P hp logp) c ∧ Outside c loc loc' := by
  induction h with
  | player h =>
    exact ⟨_, _, runs_player_exit rows h, Function.update_self .., kept_raise _ _,
      .player (Function.update_self ..), outside_update _ _ _⟩
  | @battle b l r h _ ih =>
    obtain ⟨loc', flag', hruns, hexited, hkept, hpath, hout⟩ := ih
    have hwait := runs_waitWinner rows (hout.battle.trans h) hexited
    exact ⟨_, _, hruns.trans hwait, Function.update_self .., hkept.trans (kept_raise _ _),
      .battle (Function.update_self ..) (hpath.update _), hout.of_child.trans (outside_update _ _ _)⟩

end SystemProgramming.Championship
