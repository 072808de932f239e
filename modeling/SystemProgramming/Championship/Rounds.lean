import SystemProgramming.Championship.Path

namespace SystemProgramming.Championship

open Network Ancestor

/-!
# Championship — a whole battle, as the processes play it

* `Offers` — a child of a battle is ready to send a status up;
* `runs_round` / `runs_fight` — one round, and by induction on the bound of `fight` all rounds;
* `Entering` — a child with the entrant that the recursion over the bracket gives;
* `runs_play` — the end of a battle between two of them, as `play` has it.
-/

/-- The process of a player, and its variables that no message changes. -/
structure Seat where
  i : Fin 15
  hp : ℤ
  logp : ℤ

/-- The player on `x` offers `P` at the head of a path. -/
def Offers (rows : Fin 8 → Row) (loc : Proc → Local) (c : Proc) (x : Seat) (P : Status) : Prop :=
  Path rows loc .readChild x.i (.player .logSend P x.hp x.logp) c

/-- The player on `x` has received `m` at the head of a path. -/
def Received (rows : Fin 8 → Row) (loc : Proc → Local) (c : Proc) (x : Seat) (m : Status) : Prop :=
  Path rows loc (relayed m) x.i (turn m x.hp x.logp) c

/-- Battle `b` has written `left` and `right` back. -/
structure Answered (rows : Fin 8 → Row) (loc : Proc → Local) (b : Battle) (x y : Seat)
    (left right : Status) : Prop where
  battle : loc (.battle b) = roundEnd b left right
  left : Received rows loc (playl b) x left
  right : Received rows loc (playr b) y right

variable {rows : Fin 8 → Row} {loc : Proc → Local}
variable {b : Battle} {c : Proc} {x y : Seat} {P Q m l r : Status}

/-- One round. -/
theorem runs_round (hb : loc (.battle b) = .battle (.read .left) l r)
    (hl : Offers rows loc (playl b) x P) (hr : Offers rows loc (playr b) y Q)
    (flag : Flag → Bool) :
    ∃ loc', Runs (program rows) ⟨quiet, flag, loc⟩ ⟨quiet, flag, loc'⟩ ∧
      Answered rows loc' b x y (attack b P Q).1 (attack b P Q).2 ∧
      Outside (.battle b) loc loc' := by
  have hleft : child b .left = playl b := rfl
  have hright : child b .right = playr b := rfl
  rw [Offers, ← hleft] at hl
  rw [Offers, ← hright] at hr
  -- the two statuses come up
  obtain ⟨loc₁, hruns₁, hl₁, hout₁⟩ := hl.lift flag
  have hruns₂ := hruns₁.trans (runs_battle_read rows (hout₁.battle.trans hb))
  obtain ⟨loc₃, hruns₃, hr₃, hout₃⟩ :=
    ((hr.outside hout₁).update (.battle (.read .right) P r)).lift flag
  have hruns₄ := hruns₃.trans
    (runs_battle_attack rows (hout₃.battle.trans (Function.update_self ..)))
  -- what the battle makes of them goes down
  obtain ⟨loc₅, hruns₅, hl₅, hout₅⟩ :=
    (((hl₁.update _).outside hout₃).update (.battle (.logWrite .right) (attack b P Q).1
      (attack b P Q).2)).reply (attack b P Q).1 flag
  have hruns₆ := hruns₅.trans
    (runs_battle_write rows (hout₅.battle.trans (Function.update_self ..)))
  obtain ⟨loc₇, hruns₇, hr₇, hout₇⟩ :=
    (((hr₃.update _).outside hout₅).update (roundEnd b (attack b P Q).1
      (attack b P Q).2)).reply (attack b P Q).2 flag
  refine ⟨loc₇, hruns₂.trans (hruns₄.trans (hruns₆.trans hruns₇)),
    ⟨hout₇.battle.trans (Function.update_self ..),
      (hl₅.update _).outside hout₇, hr₇⟩, ?_⟩
  exact hout₁.of_child.trans ((outside_update _ _ _).trans (hout₃.of_child.trans
    ((outside_update _ _ _).trans (hout₅.of_child.trans ((outside_update _ _ _).trans
      hout₇.of_child)))))

/-- A player that is alive when the battle goes on offers its status again. -/
theorem Received.offers (h : Received rows loc c x m) (halive : m.Alive)
    (hflag : m.battle_ended_flag = 0) : Offers rows loc c x m := by
  have hHP := halive.HP
  have hrelayed : relayed m = .readChild := by
    ext w : 1
    unfold relayed
    rw [if_pos ⟨by omega, fun hend => by omega⟩]
  have hturn : turn m x.hp x.logp = .player .logSend m x.hp x.logp := by
    unfold turn
    rw [if_pos (by omega)]
  rwa [Received, hrelayed, hturn] at h

theorem roundEnd_goes_on (h : ended l r = false) : roundEnd b l r = .battle (.read .left) l r := by
  unfold roundEnd
  rw [h]
  rfl

/-- **All rounds**, by induction on the bound of `fight`. -/
theorem runs_fight {n : ℕ} (hb : loc (.battle b) = .battle (.read .left) l r)
    (hl : Offers rows loc (playl b) x P) (hr : Offers rows loc (playr b) y Q)
    (hP : P.Alive) (hQ : Q.Alive) (hPflag : P.battle_ended_flag = 0)
    (hQflag : Q.battle_ended_flag = 0) (hn : P.HP + Q.HP ≤ n) (flag : Flag → Bool) :
    ∃ loc', Runs (program rows) ⟨quiet, flag, loc⟩ ⟨quiet, flag, loc'⟩ ∧
      Answered rows loc' b x y (fight b n P Q).1 (fight b n P Q).2 ∧
      Outside (.battle b) loc loc' := by
  induction n generalizing loc P Q l r with
  | zero =>
    have h1 := hP.HP
    have h2 := hQ.HP
    omega
  | succ n ih =>
    obtain ⟨loc₁, hruns₁, hround, hout₁⟩ := runs_round hb hl hr flag
    have hspec := attack_spec b hP hQ
    rw [fight]
    cases hend : ended (attack b P Q).1 (attack b P Q).2 with
    -- the attack ended the battle, so this round was the last one
    | true => exact ⟨loc₁, hruns₁, hround, hout₁⟩
    -- both are alive and offer their status for the next round
    | false =>
      obtain ⟨hP', hQ', hPflag', hQflag'⟩ := hspec.goes_on hend
      have hless := hspec.decrease
      rw [hPflag] at hPflag'
      rw [hQflag] at hQflag'
      obtain ⟨loc₂, hruns₂, hrest, hout₂⟩ := ih (hround.battle.trans (roundEnd_goes_on hend))
        (hround.left.offers hP' hPflag') (hround.right.offers hQ' hQflag') hP' hQ' hPflag' hQflag'
        (by omega)
      exact ⟨loc₂, hruns₁.trans hruns₂, hrest, hout₁.trans hout₂⟩

end SystemProgramming.Championship
