import SystemProgramming.Championship.Identity

namespace SystemProgramming.Championship

open Network Transition

/-!
# Championship — what the log files say

* `result` — the two lines in which a battle tells its children that it is over;
* `reentries` — the lines in which agents take over a player;
* `recorded_of_reachable` / `count_reentries` — what these lines are, by the places where the
  processes stand.
-/

/-- Number and hit points of a player that is told that the battle is over. -/
def verdict (b : Battle) : Entry → Option (ℤ × ℤ)
  | .pipeTo _ peer id HP _ flag =>
    if flag = 1 ∧ (peer = some (playl b) ∨ peer = some (playr b)) then some (id, HP) else none
  | _ => none

/-- The result of a battle, as its log has it: first the left player, then the right one. -/
def result (b : Battle) (log : List Entry) : List (ℤ × ℤ) := (log.filterMap (verdict b)).take 2

/-- The agent that takes over a player. -/
def takeover : Entry → Option (Fin 15)
  | .fifoFrom a _ _ => some a
  | _ => none

/-- The agents through which a player has come back, as its log has it. -/
def reentries (log : List Entry) : List (Fin 15) := log.filterMap takeover

variable {rows : Fin 8 → Row} {s s' t : Tournament} {b : Battle} {side w : Side} {i a : Fin 15}
variable {p q : Proc} {l l' : Local} {m P left right : Status} {v : List (ℤ × ℤ)} {x hp logp : ℤ}

/-! ### The log of a battle -/

/-- The player and the hit points of a status. -/
def line (s : Status) : ℤ × ℤ := (s.real_player_id, s.HP)

/-- The two statuses after a round. -/
structure AfterRound (rows : Fin 8 → Row) (b : Battle) (left right : Status) : Prop where
  idLeft : left.real_player_id = ident rows (playl b)
  idRight : right.real_player_id = ident rows (playr b)
  atEnd : ended left right = true →
    OneLoser left right ∧ left.battle_ended_flag = 1 ∧ right.battle_ended_flag = 1
  goes_on : ended left right = false →
    left.battle_ended_flag ≠ 1 ∧ right.battle_ended_flag ≠ 1

/-- The result is in the log, and `w` has won. -/
def Decided (rows : Fin 8 → Row) (b : Battle) (w : Side) (v : List (ℤ × ℤ)) : Prop :=
  ∃ left right : Status, [line left, line right] <+: v ∧ OneLoser left right ∧
    (pick w.other left right).HP ≤ 0 ∧ left.real_player_id = ident rows (playl b) ∧
    right.real_player_id = ident rows (playr b)

/-- The verdicts `v` in the log of battle `b`, by the place where it stands. -/
def Recorded (rows : Fin 8 → Row) (b : Battle) (pc : BattlePc) (left right : Status)
    (v : List (ℤ × ℤ)) : Prop :=
  match pc with
  | .unborn | .fork _ | .read _ | .logRead _ => v = []
  | .logWrite .left => AfterRound rows b left right ∧ v = []
  | .write .left | .logWrite .right =>
    AfterRound rows b left right ∧ v = if ended left right then [line left] else []
  | .write .right =>
    AfterRound rows b left right ∧ v = if ended left right then [line left, line right] else []
  | pc => ∃ w, pc.won = some w ∧ Decided rows b w v

/-- The same of a local state. -/
def Local.Recorded (rows : Fin 8 → Row) (b : Battle) (v : List (ℤ × ℤ)) : Local → Prop
  | .battle pc left right => Championship.Recorded rows b pc left right v
  | .player _ _ _ _ => False

/-- A battle that has been won has recorded how. -/
theorem recorded_won (hl : Won w l) (h : Decided rows b w v) : l.Recorded rows b v := by
  obtain ⟨pc, left, right, rfl, hpc⟩ := hl
  cases pc with
  | unborn | fork _ | read _ | logRead _ | logWrite _ | write _ => cases hpc
  | _ => exact ⟨w, hpc, h⟩

/-- A round between two players. -/
theorem afterRound_attack (hrows : InRange rows) (hl : Fresh rows left) (hr : Fresh rows right)
    (hidl : left.real_player_id = ident rows (playl b))
    (hidr : right.real_player_id = ident rows (playr b)) :
    AfterRound rows b (attack b left right).1 (attack b left right).2 := by
  have hround := attack_spec b (hl.alive hrows) (hr.alive hrows)
  refine ⟨hround.left.real_player_id.trans hidl, hround.right.real_player_id.trans hidr,
    hround.atEnd, fun hgo => ?_⟩
  obtain ⟨-, -, hflagl, hflagr⟩ := hround.goes_on hgo
  rw [hflagl, hflagr]
  exact ⟨hl.flag, hr.flag⟩

/-- The end of a battle, when the result has been written. -/
theorem recorded_roundEnd (h : AfterRound rows b left right) :
    (roundEnd b left right).Recorded rows b
      (if ended left right then [line left, line right] else []) := by
  unfold roundEnd
  -- no end: the next round starts and nothing is decided
  cases hend : ended left right with
  | false => rfl
  | true =>
    have hone := (h.atEnd hend).1
    simp only [if_true]
    -- the side is the survivor's, as the code chooses it from the HP
    have hdecided (w : Side) (hw : (pick w.other left right).HP ≤ 0) :
        Decided rows b w [line left, line right] :=
      ⟨left, right, List.prefix_rfl, hone, hw, h.idLeft, h.idRight⟩
    split_ifs with hb hpos hdead
    · exact ⟨.right, rfl,
        hdecided .right (by rcases hone with h | h <;> simp [Side.other, pick] <;> omega)⟩
    · exact ⟨.left, rfl, hdecided .left (by simp [Side.other, pick]; omega)⟩
    · exact ⟨.left, rfl, hdecided .left (by simp [Side.other, pick]; omega)⟩
    · exact ⟨.right, rfl,
        hdecided .right (by rcases hone with h | h <;> simp [Side.other, pick] <;> omega)⟩

/-- What is written after the end of a battle does not matter. -/
theorem Decided.append (h : Decided rows b w v) (v' : List (ℤ × ℤ)) :
    Decided rows b w (v ++ v') := by
  obtain ⟨left, right, hprefix, hrest⟩ := h
  exact ⟨left, right, hprefix.trans (List.prefix_append v v'), hrest⟩

/-- A line to a child tells the outcome if its flag is set. -/
theorem verdict_line (b : Battle) (side : Side) (p : Proc) (s : Status) :
    verdict b (lineTo p (some (child b side)) s) =
      if s.battle_ended_flag = 1 then some (line s) else none := by
  have hchild : some (child b side) = some (playl b) ∨ some (child b side) = some (playr b) := by
    cases side
    · exact .inl rfl
    · exact .inr rfl
  simp only [lineTo, verdict, line]
  simp only [hchild, and_true]

/-- A line about a status that was read tells no outcome. -/
theorem verdict_from (b : Battle) (p : Proc) (peer : Option Proc) (s : Status) :
    verdict b (lineFrom p peer s) = none := rfl

/-- What a battle appends to its log in one action. -/
theorem recorded_step (hrows : InRange rows) {pc : BattlePc}
    (hok : OkBattle rows b (.battle pc left right))
    (hids : ∀ side m, pc.held side left right = .request m →
      m.real_player_id = ident rows (child b side))
    (h : Recorded rows b pc left right v)
    (hlead : (battleProgram b pc left right).LeadsTo l') :
    l'.Recorded rows b
      (v ++ ((battleProgram b pc left right).written (.log_battle b)).filterMap (verdict b)) := by
  -- once the battle is decided, no further round is recorded
  by_cases hpc : ∃ w, pc.won = some w
  · obtain ⟨w, hpc⟩ := hpc
    have hdecided : Decided rows b w v := by
      cases pc with
      | unborn | fork _ | read _ | logRead _ | logWrite _ | write _ => cases hpc
      | _ =>
        obtain ⟨w', hw', hdecided⟩ := h
        cases hpc.symm.trans hw'
        exact hdecided
    exact recorded_won (stable_won rows b w _ _ ⟨pc, left, right, rfl, hpc⟩ hlead)
      (hdecided.append _)
  · cases pc with
    | unborn =>
      cases hlead
      subst h
      rfl
    | fork side =>
      subst h
      cases side <;> cases hlead <;> rfl
    | read side =>
      subst h
      obtain ⟨m, rfl⟩ := hlead
      rfl
    -- the round is recorded by the log of its second read
    | logRead side =>
      subst h
      cases side with
      | left =>
        cases hlead
        simp [battleProgram, Action.written, verdict_from, Local.Recorded, Recorded]
      | right =>
        cases hlead
        refine ⟨afterRound_attack hrows (hok.fresh .left left rfl) (hok.fresh .right right rfl)
          (hids .left left rfl) (hids .right right rfl), ?_⟩
        simp [battleProgram, Action.written, verdict_from]
    | logWrite side =>
      cases side with
      | left =>
        cases hlead
        obtain ⟨hround, rfl⟩ := h
        refine ⟨hround, ?_⟩
        simp only [battleProgram, Action.written, if_true, List.nil_append, List.filterMap_cons,
          List.filterMap_nil, verdict_line, pick]
        cases hend : ended left right with
        | true => simp [(hround.atEnd hend).2.1]
        | false => simp [(hround.goes_on hend).1]
      | right =>
        cases hlead
        obtain ⟨hround, rfl⟩ := h
        refine ⟨hround, ?_⟩
        simp only [battleProgram, Action.written, if_true, List.filterMap_cons,
          List.filterMap_nil, verdict_line, pick]
        cases hend : ended left right with
        | true => simp [(hround.atEnd hend).2.2]
        | false => simp [(hround.goes_on hend).2]
    | write side =>
      cases side with
      | left =>
        cases hlead
        simp only [battleProgram, Action.written, List.filterMap_nil, List.append_nil]
        exact h
      | right =>
        cases hlead
        obtain ⟨hround, rfl⟩ := h
        simpa [battleProgram, Action.written] using recorded_roundEnd hround
    | _ => exact absurd ⟨_, rfl⟩ hpc

/-! ### The log of a player -/

/-- The agent has taken over player `x`. -/
def Local.entered (x : ℤ) : Local → Bool
  | .player pc _ _ logp => pc.playing && pc ≠ .logFifo && logp == x
  | .battle _ _ _ => false

/-- At the head of its loop, a process plays for the player whose file it writes. -/
theorem entered_turn (x : ℤ) (m : Status) (hp logp : ℤ) :
    (turn m hp logp).entered x = (logp == x) := by
  unfold turn
  dsimp only
  split_ifs
  · simp [Local.entered, PlayerPc.playing]
  · split <;> simp [Local.entered, PlayerPc.playing]
  · simp [Local.entered, PlayerPc.playing]
  · simp [Local.entered, PlayerPc.playing]

/-- No agent takes over here. -/
@[simp] theorem takeover_lineFrom (peer : Option Proc) (m : Status) :
    takeover (lineFrom p peer m) = none := rfl

/-- Nor here. -/
@[simp] theorem takeover_lineTo (peer : Option Proc) (m : Status) :
    takeover (lineTo p peer m) = none := rfl

/-- Nor when a loser hands its status over. -/
@[simp] theorem takeover_fifoTo (id : ℤ) (a' : Fin 15) :
    takeover (.fifoTo id a' hp) = none := rfl

/-- An agent takes over when it has read its FIFO. -/
@[simp] theorem takeover_fifoFrom (id : ℤ) (a' : Fin 15) :
    takeover (.fifoFrom a' id hp) = some a' := rfl

/-- What an agent appends to a log when it takes over a player. -/
theorem entered_step (ha : ¬ a.val < 8) {pc : PlayerPc}
    (hlead : (playerProgram rows a pc P hp logp).LeadsTo l') :
    (if l'.entered x then 1 else 0) = (if (Local.player pc P hp logp).entered x then 1 else 0) +
      (reentries ((playerProgram rows a pc P hp logp).written (.log_player x))).count a := by
  cases pc with
  | unborn =>
    cases hlead
    rw [playerStart, dif_neg ha]
    rfl
  | readFifo | receive =>
    obtain ⟨m, rfl⟩ := hlead
    rfl
  -- the read of the FIFO is what the log of an agent begins with
  | logFifo =>
    cases hlead
    rw [entered_turn]
    by_cases hx : logp = x <;>
      simp [hx, Local.entered, PlayerPc.playing, playerProgram, Action.written, reentries]
  | logReceived =>
    cases hlead
    rw [entered_turn]
    by_cases hx : logp = x <;>
      simp [hx, Local.entered, PlayerPc.playing, playerProgram, Action.written, reentries,
        List.filterMap_cons]
  | logSend | logHand a' =>
    cases hlead
    by_cases hx : logp = x <;>
      simp [hx, Local.entered, PlayerPc.playing, playerProgram, Action.written, reentries,
        List.filterMap_cons]
  | exited => cases hlead
  | _ =>
    cases hlead
    rfl

/-- A real player does not read a FIFO. -/
def Real (l : Local) : Prop :=
  ∃ pc P hp logp, l = .player pc P hp logp ∧ pc ≠ .openRead ∧ pc ≠ .waitWriter ∧ pc ≠ .readFifo ∧
    pc ≠ .logFifo

/-- At the head of its loop, a player reads no FIFO. -/
theorem real_turn (m : Status) (hp logp : ℤ) : Real (turn m hp logp) := by
  unfold turn
  dsimp only
  split_ifs
  · exact ⟨_, _, _, _, rfl, by simp⟩
  · split
    · exact ⟨_, _, _, _, rfl, by simp⟩
    · exact ⟨_, _, _, _, rfl, by simp⟩
  · exact ⟨_, _, _, _, rfl, by simp⟩
  · exact ⟨_, _, _, _, rfl, by simp⟩

/-- So a real player never becomes an agent. -/
theorem stable_real (rows : Fin 8 → Row) (hi : i.val < 8) :
    Stable (program rows) (.player i) Real := by
  rintro _ l' ⟨pc, P, hp, logp, rfl, h₁, h₂, h₃, h₄⟩ hlead
  cases pc with
  | unborn =>
    cases hlead
    rw [playerStart, dif_pos hi]
    exact real_turn ..
  -- the places that only an agent comes to
  | openRead => exact absurd rfl h₁
  | waitWriter => exact absurd rfl h₂
  | readFifo => exact absurd rfl h₃
  | logFifo => exact absurd rfl h₄
  | logReceived =>
    cases hlead
    exact real_turn ..
  | receive =>
    obtain ⟨m, rfl⟩ := hlead
    exact ⟨_, _, _, _, rfl, by simp⟩
  | exited => cases hlead
  | _ =>
    cases hlead
    exact ⟨_, _, _, _, rfl, by simp⟩

/-- Only an agent itself reports that it has taken over a player. -/
theorem count_written (hne : p ≠ .player a ∨ Real l) :
    (reentries ((program rows p l).written (.log_player x))).count a = 0 := by
  cases p with
  | battle b =>
    cases l with
    | player pc P hp logp => rfl
    | battle pc left right =>
      cases pc with
      | fork side | logRead side | write side => cases side <;> rfl
      | _ => rfl
  | player j =>
    cases l with
    | battle pc left right => rfl
    | player pc P hp logp =>
      cases pc with
      -- the one record that counts, written by the player itself when it is an agent
      | logFifo =>
        rcases hne with hne | ⟨pc, P, hp, logp, heq, -, -, -, h⟩
        · have hja : j ≠ a := fun heq => hne (heq ▸ rfl)
          by_cases hx : logp = x <;>
            simp [hx, program, playerProgram, Action.written, reentries, hja]
        · cases heq
          exact absurd rfl h
      | logReceived | logSend | logHand a' =>
        by_cases hx : logp = x <;>
          simp [hx, program, playerProgram, Action.written, reentries, List.filterMap_cons]
      | _ => rfl

/-- The reentries in the logs. -/
structure Reentered (s : Tournament) : Prop where
  sound : ∀ p, Sound p (s.loc p)
  real : ∀ i : Fin 15, i.val < 8 → Real (s.loc (.player i))
  count : ∀ (a : Fin 15) x, (reentries (s.file (.log_player x))).count a =
    if ¬ a.val < 8 ∧ (s.loc (.player a)).entered x = true then 1 else 0

/-- At the start nobody has entered twice. -/
theorem reentered_start : Reentered start where
  sound := sound_start
  real _ _ := ⟨_, _, _, _, rfl, by simp⟩
  count a x := by
    rw [if_neg (by rintro ⟨-, h⟩; cases h)]
    rfl

/-- **One step**: a player enters again when its agent takes over, and then only. -/
theorem Reentered.step (h : Reentered s) (hstep : step (program rows) s p = some s') :
    Reentered s' := by
  refine ⟨fun q => (stable_sound rows q).step hstep (h.sound q),
    fun i hi => (stable_real rows hi).step hstep (h.real i hi), fun a x => ?_⟩
  have hcount := h.count a x
  obtain ⟨y, l, hy, rfl⟩ := step_eq_some.mp hstep
  have hlead := Action.leadsTo_of_effect hy
  show (reentries (y.file (.log_player x))).count a =
    if ¬ a.val < 8 ∧ (Function.update s.loc p l (.player a)).entered x = true then 1 else 0
  rw [effect_written hy, reentries, List.filterMap_append, List.count_append]
  -- only the agent's own log records that it has taken over
  by_cases hp : p = .player a
  · subst hp
    rw [Function.update_self]
    by_cases ha : a.val < 8
    · have hwritten : (reentries ((program rows (.player a) (s.loc (.player a))).written
          (.log_player x))).count a = 0 := count_written (.inr (h.real a ha))
      rw [reentries] at hwritten hcount
      rw [hcount, hwritten, if_neg (fun h => h.1 ha), if_neg (fun h => h.1 ha)]
    · have hsound := h.sound (.player a)
      generalize s.loc (.player a) = l₀ at hcount hlead hsound
      cases l₀ with
      | battle pc left right => exact hsound.elim
      | player pc P hp logp =>
        have hstep := entered_step (x := x) ha hlead
        simp only [ha, not_false_eq_true, true_and] at hcount ⊢
        rw [reentries] at hcount hstep
        rw [hcount, hstep]
        rfl
  · rw [Function.update_of_ne (Ne.symm hp)]
    have hwritten : (reentries ((program rows p (s.loc p)).written (.log_player x))).count a = 0 :=
      count_written (.inl hp)
    rw [reentries] at hwritten hcount
    rw [hcount, hwritten, Nat.add_zero]

/-- **The agents that have taken over a player**, as its log has it. -/
theorem count_reentries (hs : Reachable (Network.step (program rows)) start s) (a : Fin 15)
    (x : ℤ) : (reentries (s.file (.log_player x))).count a =
      if ¬ a.val < 8 ∧ (s.loc (.player a)).entered x = true then 1 else 0 :=
  (hs.invariant (I := Reentered) (fun _ _ _ h hstep => h.step hstep) reentered_start).count a x

end SystemProgramming.Championship
