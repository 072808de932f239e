import SystemProgramming.Championship.Result

namespace SystemProgramming.Championship

open Network Transition

/-!
# Championship — what holds of every process in every reachable state

* `Sound` — a process runs its own program, only the root prints, a real player writes to its own
  log file, and a loser hands itself to the agent of its battle;
* `sound_of_reachable` — in every reachable state.
-/

/-- The agent to which a player is about to hand its status. -/
def PlayerPc.handing : PlayerPc → Option (Fin 15)
  | .logHand a | .openWrite a | .waitReader a | .writeFifo a => some a
  | _ => none

/-- Only the root prints. -/
structure SoundBattle (b : Battle) (pc : BattlePc) : Prop where
  root : ∀ w, pc = .print w → b = .A

/-- A real player plays under its own id, and an agent is handed only the status that it waits
    for. -/
structure SoundPlayer (i : Fin 15) (pc : PlayerPc) (P : Status) (logp : ℤ) : Prop where
  real : i.val < 8 → pc = .unborn ∨ pc.playing = true ∧ logp = i.val
  agent : ∀ a, pc.handing = some a → Championship.agent P.current_battle_id = some a

/-- What holds of the local state of a process. -/
def Sound : Proc → Local → Prop
  | .battle b, .battle pc _ _ => SoundBattle b pc
  | .player i, .player pc P _ logp => SoundPlayer i pc P logp
  | _, _ => False

variable {rows : Fin 8 → Row} {b : Battle} {i : Fin 15} {p : Proc} {l l' : Local} {P : Status}
variable {hp logp : ℤ}

theorem sound_passing (b : Battle) (w : Side) (left right : Status) :
    Sound (.battle b) (passing w left right) := by
  unfold passing
  dsimp only
  split
  · exact ⟨fun w h => by cases h⟩
  · exact ⟨fun w h => by cases h⟩

theorem sound_roundEnd (b : Battle) (left right : Status) :
    Sound (.battle b) (roundEnd b left right) := by
  unfold roundEnd
  split_ifs with _ hb
  · exact ⟨fun _ _ => hb⟩
  · exact ⟨fun _ _ => hb⟩
  · exact ⟨fun w h => by cases h⟩
  · exact ⟨fun w h => by cases h⟩
  · exact ⟨fun w h => by cases h⟩

theorem sound_turn (m : Status) (hp : ℤ) (hreal : i.val < 8 → logp = i.val) :
    Sound (.player i) (turn m hp logp) := by
  unfold turn
  dsimp only
  split_ifs
  · exact ⟨fun h => .inr ⟨rfl, hreal h⟩, fun a ha => by cases ha⟩
  · split
    · rename_i a ha
      refine ⟨fun h => .inr ⟨rfl, hreal h⟩, fun a' ha' => ?_⟩
      cases ha'
      exact ha
    · exact ⟨fun h => .inr ⟨rfl, hreal h⟩, fun a ha => by cases ha⟩
  · exact ⟨fun h => .inr ⟨rfl, hreal h⟩, fun a ha => by cases ha⟩
  · exact ⟨fun h => .inr ⟨rfl, hreal h⟩, fun a ha => by cases ha⟩

/-- A step of a battle keeps it sound. -/
theorem soundBattle_step {pc : BattlePc} {left right : Status}
    (hlead : (battleProgram b pc left right).LeadsTo l') :
    Sound (.battle b) l' := by
  -- a battle becomes a passing one only by the last round, and passes on for the same side
  cases pc with
  | unborn | waitWinner w | print w | reapWinner w | reapLoser w | exit w | logChild w | logUp w
  | sendUp w | logParent w | logDown w | logWrite side =>
    cases hlead
    exact ⟨fun w h => by cases h⟩
  | fork side | logRead side =>
    cases side <;> cases hlead <;> exact ⟨fun w h => by cases h⟩
  | read side | readChild w | readParent w =>
    obtain ⟨m, rfl⟩ := hlead
    exact ⟨fun w h => by cases h⟩
  | write side =>
    cases side <;> cases hlead
    · exact ⟨fun w h => by cases h⟩
    · exact sound_roundEnd ..
  | waitLoser w | sendDown w =>
    cases hlead
    exact sound_passing ..
  | exited w => cases hlead

/-- A step of a player keeps it sound. -/
theorem SoundPlayer.step {pc : PlayerPc} (h : SoundPlayer i pc P logp)
    (hlead : (playerProgram rows i pc P hp logp).LeadsTo l') : Sound (.player i) l' := by
  -- only an agent starts at its FIFO
  have hagent (hpc : pc ≠ .unborn) (hwait : pc.playing = false) (hi : i.val < 8) : False := by
    rcases h.real hi with heq | ⟨hplaying, -⟩
    · exact hpc heq
    · rw [hplaying] at hwait
      cases hwait
  have hlogp (hpc : pc ≠ .unborn) (hi : i.val < 8) : logp = i.val :=
    ((h.real hi).resolve_left hpc).2
  cases pc with
  | unborn =>
    cases hlead
    unfold playerStart
    split
    · exact sound_turn _ _ fun _ => rfl
    · rename_i hi
      exact ⟨fun h => absurd h hi, fun a ha => by cases ha⟩
  | openRead | waitWriter =>
    cases hlead
    exact ⟨fun hi => (hagent (by simp) rfl hi).elim, fun a ha => by cases ha⟩
  | readFifo =>
    obtain ⟨m, rfl⟩ := hlead
    exact ⟨fun hi => (hagent (by simp) rfl hi).elim, fun a ha => by cases ha⟩
  | logFifo | logReceived =>
    cases hlead
    exact sound_turn _ _ (hlogp (by simp))
  | logSend | send | exit =>
    cases hlead
    exact ⟨fun hi => .inr ⟨rfl, hlogp (by simp) hi⟩, fun a ha => by cases ha⟩
  | receive =>
    obtain ⟨m, rfl⟩ := hlead
    exact ⟨fun hi => .inr ⟨rfl, hlogp (by simp) hi⟩, fun a ha => by cases ha⟩
  | logHand a | openWrite a | waitReader a =>
    cases hlead
    exact ⟨fun hi => .inr ⟨rfl, hlogp (by simp) hi⟩, h.agent⟩
  | writeFifo a =>
    cases hlead
    exact ⟨fun hi => .inr ⟨rfl, hlogp (by simp) hi⟩, fun a ha => by cases ha⟩
  | exited => cases hlead

/-- A step keeps a process sound. -/
theorem stable_sound (rows : Fin 8 → Row) (p : Proc) : Stable (program rows) p (Sound p) := by
  intro l l' h hlead
  cases p with
  | battle b =>
    cases l with
    | battle pc left right => exact soundBattle_step hlead
    | player pc P hp logp => exact h.elim
  | player i =>
    cases l with
    | battle pc left right => exact h.elim
    | player pc P hp logp => exact SoundPlayer.step h hlead

theorem sound_start (p : Proc) : Sound p (start.loc p) := by
  cases p with
  | battle b => exact ⟨fun w h => by cases h⟩
  | player i => exact ⟨fun _ => .inl rfl, fun a ha => by cases ha⟩

/-- **Every process is sound** in every reachable state. -/
theorem sound_of_reachable {s : Tournament} (h : Reachable (step (program rows)) start s)
    (p : Proc) : Sound p (s.loc p) :=
  (stable_sound rows p).reachable h (sound_start p)

end SystemProgramming.Championship
