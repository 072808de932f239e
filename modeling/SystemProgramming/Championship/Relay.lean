import SystemProgramming.Championship.Bracket
import SystemProgramming.Lib.Execution

namespace SystemProgramming.Championship

open Network

/-!
# Championship — what one process does between two messages

Runs in which at most one message is on its way: a process takes it, writes its log, and passes it
on or acts on it.

* `runs_player_send` / `runs_player_receive` — a player;
* `runs_battle_up` / `runs_battle_down` — a battle in passing mode;
* `runs_battle_read` / `runs_battle_attack` / `runs_battle_write` — the battle loop;
* `runs_hand` — a loser and its agent.
-/

/-- What matters of the tournament between two messages: the channels, the flags and the local
    states. -/
abbrev Arena := Config Proc Channel Flag Status Local

/-- No message is on its way. -/
def quiet : Channel → List Status := fun _ => []

/-- One message is on its way. -/
def only (c : Channel) (m : Status) : Channel → List Status := Function.update quiet c [m]

/-- No message is on its way. -/
@[simp] theorem quiet_apply (c : Channel) : quiet c = [] := rfl

/-- The one message. -/
@[simp] theorem only_self (c : Channel) (m : Status) : only c m c = [m] := by simp [only]

/-- No other channel has one. -/
@[simp] theorem only_of_ne {c c' : Channel} (h : c' ≠ c) (m : Status) : only c m c' = [] := by
  simp [only, h]

/-- The message is sent. -/
@[simp] theorem update_quiet (c : Channel) (m : Status) :
    Function.update quiet c [m] = only c m := rfl

/-- The message is received. -/
@[simp] theorem update_only (c : Channel) (m : Status) :
    Function.update (only c m) c [] = quiet := by
  simp only [only, Function.update_idem]
  exact Function.update_eq_self c quiet

variable (rows : Fin 8 → Row) {flag : Flag → Bool} {loc : Proc → Local}
variable {i a : Fin 15} {b : Battle} {w : Side} {P Q l r m : Status} {hp hp' logp logp' : ℤ}

/-! ### A player -/

/-- A player sends its status. -/
theorem runs_player_send (h : loc (.player i) = .player .logSend P hp logp) :
    Runs (program rows) ⟨quiet, flag, loc⟩ ⟨only (.up (.player i)) P, flag,
      Function.update loc (.player i) (.player .receive P hp logp)⟩ := by
  refine .write (.player i) (by rw [h]; rfl) ?_
  refine .send (.player i) (by rw [Function.update_self]; rfl) ?_
  exact .done (by simp)

/-- A player receives a status, and acts on it. -/
theorem runs_player_receive (h : loc (.player i) = .player .receive P hp logp) :
    Runs (program rows) ⟨only (.down (.player i)) m, flag, loc⟩ ⟨quiet, flag,
      Function.update loc (.player i) (turn m hp logp)⟩ := by
  refine .recv (.player i) (by rw [h]; rfl) (only_self _ m) ?_
  refine .write (.player i) (by rw [Function.update_self]; rfl) ?_
  exact .done (by simp)

/-- A player exits. -/
theorem runs_player_exit (h : loc (.player i) = .player .exit P hp logp) :
    Runs (program rows) ⟨quiet, flag, loc⟩ ⟨quiet,
      Function.update flag (.exited (.player i)) true,
      Function.update loc (.player i) (.player .exited P hp logp)⟩ := by
  refine .raise (.player i) (by rw [h]; rfl) ?_
  exact .refl _

/-- A loser hands its status to its agent, which then starts as a player. -/
theorem runs_hand (hne : i ≠ a) (h : loc (.player i) = .player (.logHand a) P hp logp)
    (ha : loc (.player a) = .player .waitWriter Q hp' logp')
    (hreading : flag (.reading (.player a)) = true) :
    Runs (program rows) ⟨quiet, flag, loc⟩ ⟨quiet,
      Function.update flag (.writing (.player a)) true,
      Function.update (Function.update loc (.player i) (.player .exit P hp logp))
        (.player a) (turn P P.HP P.real_player_id)⟩ := by
  have hne' : Proc.player a ≠ .player i := by simp [Ne.symm hne]
  refine .write (.player i) (by rw [h]; rfl) ?_
  refine .raise (.player i) (by rw [Function.update_self]; rfl) ?_
  refine .await (.player i) (by rw [Function.update_self]; rfl) (by simp [hreading]) ?_
  refine .send (.player i) (by rw [Function.update_self]; rfl) ?_
  -- the loser has gone its way; the rest is done by the agent
  simp only [Function.update_idem, quiet_apply, List.nil_append, update_quiet]
  refine .await (.player a) (by rw [Function.update_of_ne hne', ha]; rfl) (by simp) ?_
  refine .recv (.player a) (by rw [Function.update_self]; rfl) (only_self _ _) ?_
  refine .write (.player a) (by rw [Function.update_self]; rfl) ?_
  exact .done (by simp)

/-! ### A battle in passing mode -/

/-- No battle is a child of itself. -/
theorem child_ne (b : Battle) (w : Side) : child b w ≠ .battle b := by
  revert b w
  decide

/-- A battle passes a status up. -/
theorem runs_battle_up (h : loc (.battle b) = .battle (.readChild w) l r) :
    Runs (program rows) ⟨only (.up (child b w)) m, flag, loc⟩ ⟨only (.up (.battle b)) m, flag,
      Function.update loc (.battle b) (stored (.readParent w) w l r m)⟩ := by
  refine .recv (.battle b) (by rw [h]; rfl) (only_self _ m) ?_
  refine .write (.battle b) (by rw [Function.update_self]; rfl) ?_
  refine .write (.battle b) (by rw [Function.update_self]; rfl) ?_
  refine .send (.battle b) (by rw [Function.update_self]; rfl) ?_
  exact .done (by simp [stored])

/-- A battle passes a status down, and stays in the loop if the status allows it. -/
theorem runs_battle_down (h : loc (.battle b) = .battle (.readParent w) l r) :
    Runs (program rows) ⟨only (.down (.battle b)) m, flag, loc⟩ ⟨only (.down (child b w)) m, flag,
      Function.update loc (.battle b) (passing w (put w l r m).1 (put w l r m).2)⟩ := by
  refine .recv (.battle b) (by rw [h]; rfl) (only_self _ m) ?_
  refine .write (.battle b) (by rw [Function.update_self]; rfl) ?_
  refine .write (.battle b) (by rw [Function.update_self]; rfl) ?_
  refine .send (.battle b) (by rw [Function.update_self]; rfl) ?_
  exact .done (by simp)

/-- The loser's side has exited, and the passing loop is entered. -/
theorem runs_waitLoser (h : loc (.battle b) = .battle (.waitLoser w) l r)
    (hexited : flag (.exited (child b w.other)) = true) :
    Runs (program rows) ⟨quiet, flag, loc⟩ ⟨quiet, flag,
      Function.update loc (.battle b) (passing w l r)⟩ := by
  refine .await (.battle b) (by rw [h]; rfl) hexited ?_
  exact .refl _

/-- The winner's side has exited, and so does the battle. -/
theorem runs_waitWinner (h : loc (.battle b) = .battle (.waitWinner w) l r)
    (hexited : flag (.exited (child b w)) = true) :
    Runs (program rows) ⟨quiet, flag, loc⟩ ⟨quiet,
      Function.update flag (.exited (.battle b)) true,
      Function.update loc (.battle b) (.battle (.exited w) l r)⟩ := by
  refine .await (.battle b) (by rw [h]; rfl) hexited ?_
  refine .raise (.battle b) (by rw [Function.update_self]; rfl) ?_
  exact .done (by simp)

/-- The root prints the champion, and waits for both children. -/
theorem runs_print (h : loc (.battle b) = .battle (.print w) l r)
    (hexited : ∀ side, flag (.exited (child b side)) = true) :
    Runs (program rows) ⟨quiet, flag, loc⟩ ⟨quiet,
      Function.update flag (.exited (.battle b)) true,
      Function.update loc (.battle b) (.battle (.exited w) l r)⟩ := by
  refine .write (.battle b) (by rw [h]; rfl) ?_
  refine .await (.battle b) (by rw [Function.update_self]; rfl) (hexited w) ?_
  refine .await (.battle b) (by rw [Function.update_self]; rfl) (hexited w.other) ?_
  refine .raise (.battle b) (by rw [Function.update_self]; rfl) ?_
  exact .done (by simp)

/-! ### The battle loop -/

/-- The left status arrives. -/
theorem runs_battle_read (h : loc (.battle b) = .battle (.read .left) l r) :
    Runs (program rows) ⟨only (.up (playl b)) m, flag, loc⟩ ⟨quiet, flag,
      Function.update loc (.battle b) (.battle (.read .right) m r)⟩ := by
  refine .recv (.battle b) (by rw [h]; rfl) (only_self _ m) ?_
  refine .write (.battle b) (by rw [Function.update_self]; rfl) ?_
  exact .done (by simp [put])

/-- The right status arrives, both players are attacked, and the left one is written back. -/
theorem runs_battle_attack (h : loc (.battle b) = .battle (.read .right) l r) :
    Runs (program rows) ⟨only (.up (playr b)) m, flag, loc⟩
      ⟨only (.down (playl b)) (attack b l m).1, flag, Function.update loc (.battle b)
        (.battle (.logWrite .right) (attack b l m).1 (attack b l m).2)⟩ := by
  refine .recv (.battle b) (by rw [h]; rfl) (only_self _ m) ?_
  refine .write (.battle b) (by rw [Function.update_self]; rfl) ?_
  refine .write (.battle b) (by rw [Function.update_self]; rfl) ?_
  refine .send (.battle b) (by rw [Function.update_self]; rfl) ?_
  exact .done (by simp [put])

/-- The right status is written back. -/
theorem runs_battle_write (h : loc (.battle b) = .battle (.logWrite .right) l r) :
    Runs (program rows) ⟨quiet, flag, loc⟩ ⟨only (.down (playr b)) r, flag,
      Function.update loc (.battle b) (roundEnd b l r)⟩ := by
  refine .write (.battle b) (by rw [h]; rfl) ?_
  refine .send (.battle b) (by rw [Function.update_self]; rfl) ?_
  exact .done (by simp)

/-! ### The start of a process -/

/-- A battle forks its children. -/
theorem runs_battle_start (h : loc (.battle b) = .battle .unborn l r)
    (hforked : flag (.forked (.battle b)) = true) :
    Runs (program rows) ⟨quiet, flag, loc⟩ ⟨quiet,
      Function.update (Function.update flag (.forked (playl b)) true) (.forked (playr b)) true,
      Function.update loc (.battle b) (.battle (.read .left) l r)⟩ := by
  refine .await (.battle b) (by rw [h]; rfl) hforked ?_
  refine .raise (.battle b) (by rw [Function.update_self]; rfl) ?_
  refine .raise (.battle b) (by rw [Function.update_self]; rfl) ?_
  exact .done (by simp)

/-- A player reads its row, and an agent goes to its FIFO. -/
theorem runs_player_start (h : loc (.player i) = .player .unborn P hp logp)
    (hforked : flag (.forked (.player i)) = true) :
    Runs (program rows) ⟨quiet, flag, loc⟩ ⟨quiet, flag,
      Function.update loc (.player i) (playerStart rows i P hp logp)⟩ := by
  refine .await (.player i) (by rw [h]; rfl) hforked ?_
  exact .refl _

/-- An agent opens its FIFO, and waits for the loser. -/
theorem runs_openRead (h : loc (.player i) = .player .openRead P hp logp) :
    Runs (program rows) ⟨quiet, flag, loc⟩ ⟨quiet,
      Function.update flag (.reading (.player i)) true,
      Function.update loc (.player i) (.player .waitWriter P hp logp)⟩ := by
  refine .raise (.player i) (by rw [h]; rfl) ?_
  exact .refl _

end SystemProgramming.Championship
