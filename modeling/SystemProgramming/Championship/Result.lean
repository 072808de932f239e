import SystemProgramming.Championship.Play

namespace SystemProgramming.Championship

open Network Transition

/-!
# Championship — what the processes cannot lose

* `stable_won` / `stable_playing` / `stable_exited` — the side that has won a battle, the log file
  of a player, and a player that has exited;
* `Result` — what the end of a battle leaves behind, made of these three.
-/

/-- The side that has won, once the battle is over. -/
def BattlePc.won : BattlePc → Option Side
  | .waitLoser w | .readChild w | .logChild w | .logUp w | .sendUp w | .readParent w
  | .logParent w | .logDown w | .sendDown w | .waitWinner w | .print w | .reapWinner w
  | .reapLoser w | .exit w | .exited w => some w
  | .unborn | .fork _ | .read _ | .logRead _ | .logWrite _ | .write _ => none

/-- The variables of the player have been set. -/
def PlayerPc.playing : PlayerPc → Bool
  | .unborn | .openRead | .waitWriter | .readFifo => false
  | _ => true

/-- The battle is over, and `w` has won it. -/
def Won (w : Side) (l : Local) : Prop :=
  ∃ pc left right, l = .battle pc left right ∧ pc.won = some w

/-- The player plays, or has played, and writes to the log file `logp`. -/
def Playing (logp : ℤ) (l : Local) : Prop :=
  ∃ pc P hp, l = .player pc P hp logp ∧ pc.playing = true

variable {rows : Fin 8 → Row} {b : Battle} {i a : Fin 15} {w : Side} {P m : Status}
variable {hp logp : ℤ}

theorem won_passing (w : Side) (left right : Status) : Won w (passing w left right) := by
  unfold passing
  dsimp only
  split
  · exact ⟨_, _, _, rfl, rfl⟩
  · exact ⟨_, _, _, rfl, rfl⟩

theorem playing_turn (m : Status) (hp logp : ℤ) : Playing logp (turn m hp logp) := by
  unfold turn
  dsimp only
  split_ifs
  · exact ⟨_, _, _, rfl, rfl⟩
  · split
    · exact ⟨_, _, _, rfl, rfl⟩
    · exact ⟨_, _, _, rfl, rfl⟩
  · exact ⟨_, _, _, rfl, rfl⟩
  · exact ⟨_, _, _, rfl, rfl⟩

/-- The side that has won a battle stays the same. -/
theorem stable_won (rows : Fin 8 → Row) (b : Battle) (w : Side) :
    Stable (program rows) (.battle b) (Won w) := by
  rintro _ l' ⟨pc, left, right, rfl, hpc⟩ hlead
  -- no result before the last round, and from then on the side stays what it is
  cases pc with
  | unborn | fork _ | read _ | logRead _ | logWrite _ | write _ => cases hpc
  | waitLoser w' | sendDown w' =>
    cases hpc
    cases hlead
    exact won_passing ..
  | readChild w' | readParent w' =>
    cases hpc
    obtain ⟨m, rfl⟩ := hlead
    exact ⟨_, _, _, rfl, rfl⟩
  | logChild w' | logUp w' | sendUp w' | logParent w' | logDown w' | waitWinner w' | print w'
  | reapWinner w' | reapLoser w' | exit w' =>
    cases hpc
    cases hlead
    exact ⟨_, _, _, rfl, rfl⟩
  | exited w' => cases hlead

/-- The log file of a player stays the same. -/
theorem stable_playing (rows : Fin 8 → Row) (i : Fin 15) (logp : ℤ) :
    Stable (program rows) (.player i) (Playing logp) := by
  rintro _ l' ⟨pc, P, hp, rfl, hpc⟩ hlead
  cases pc with
  | unborn | openRead | waitWriter | readFifo => cases hpc
  | logFifo | logReceived =>
    cases hlead
    exact playing_turn ..
  | receive =>
    obtain ⟨m, rfl⟩ := hlead
    exact ⟨_, _, _, rfl, rfl⟩
  | logSend | send | logHand a | openWrite a | waitReader a | writeFifo a | exit =>
    cases hlead
    exact ⟨_, _, _, rfl, rfl⟩
  | exited => cases hlead

/-- A player that has exited does nothing any more. -/
theorem stable_exited (rows : Fin 8 → Row) (i : Fin 15) (P : Status) (hp logp : ℤ) :
    Stable (program rows) (.player i) (· = .player .exited P hp logp) := by
  rintro _ l' rfl hlead
  cases hlead

/-! ### What a battle leaves behind -/

/-- What the end of battle `b` leaves behind for good. -/
structure Result (rows : Fin 8 → Row) (loc : Proc → Local) (b : Battle) : Prop where
  won : Won (winnerSide rows b) (loc (.battle b))
  playing : ∀ a, source a = some b → Playing (ident rows (.player a)) (loc (.player a))
  gone : ∀ a, source a = some b → ∃ i P hp logp, ((i : Fin 15).val : ℤ) = ident rows (.player a) ∧
    loc (.player i) = .player .exited P hp logp ∧ agent P.current_battle_id = some a

variable {v v' : Arena}

theorem Result.runs (h : Result rows v.loc b) (hruns : Runs (program rows) v v') :
    Result rows v'.loc b where
  won := hruns.stable (stable_won rows b _) h.won
  playing a ha := hruns.stable (stable_playing rows a _) (h.playing a ha)
  gone a ha := by
    obtain ⟨i, P, hp, logp, hi, hloc, hagent⟩ := h.gone a ha
    exact ⟨i, P, hp, logp, hi, hruns.stable (stable_exited rows i P hp logp) hloc, hagent⟩

/-- The state of a battle whose winner enters the next one. -/
theorem Enters.won {loc : Proc → Local} {x : Seat} (h : Enters rows loc (.battle b) x) :
    Won (winnerSide rows b) (loc (.battle b)) := by
  cases h.offers with
  | battle h _ => exact ⟨_, _, _, h, rfl⟩

/-- Only real players are below the battles whose losers go on as agents. -/
theorem real_of_under (ha : source a = some b) (h : Ancestor.Below parentOf (.battle b) (.player i)) :
    i.val < 8 := by
  have hbattles : ∀ b : Battle, (∃ a, source a = some b) → ∀ w b', child b w = .battle b' →
      ∃ a, source a = some b' := by decide
  have hplayers : ∀ b : Battle, (∃ a, source a = some b) → ∀ w i, child b w = .player i →
      i.val < 8 := by decide
  have key := h.closed (S := fun q => (∀ b, q = .battle b → ∃ a, source a = some b) ∧
    ∀ i, q = .player i → i.val < 8) ?_ ⟨fun b' hb' => ⟨a, by cases hb'; exact ha⟩, by simp⟩
  · exact key.2 i rfl
  · intro q p hup hp
    obtain ⟨b, w, rfl, rfl⟩ := eq_child_of_parentOf hup
    have hb := hp.1 b rfl
    exact ⟨fun b' hb' => hbattles b hb w b' hb', fun i hi => hplayers b hb w i hi⟩

end SystemProgramming.Championship
