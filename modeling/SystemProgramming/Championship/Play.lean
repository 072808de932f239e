import SystemProgramming.Championship.Rounds

namespace SystemProgramming.Championship

open Network Ancestor

/-!
# Championship — a whole battle, from its entrants to its winner

* `Enters` — below a child of a battle stands the entrant that the recursion over the bracket has;
* `runs_loser` — the loser goes on as its agent, and everything on its path exits;
* `runs_play` — after a battle its winner enters the next one, and so does its loser, if it may;
* `runs_final` — the end of the last battle.
-/

/-- The player on `x` is about to enter a battle. -/
structure Enters (rows : Fin 8 → Row) (loc : Proc → Local) (c : Proc) (x : Seat) : Prop where
  offers : Offers rows loc c x (value rows c).P
  hp : x.hp = (value rows c).hp
  logp : x.logp = (value rows c).P.real_player_id
  real : x.i.val < 8 → (x.i.val : ℤ) = x.logp

/-- An agent waits for a loser to open its FIFO. -/
structure Asleep (loc : Proc → Local) (flag : Flag → Bool) (a : Fin 15) : Prop where
  loc : ∃ P hp logp, loc (.player a) = .player .waitWriter P hp logp
  reading : flag (.reading (.player a)) = true

/-- The loser on `y` has handed its status to agent `a`, and exited. -/
structure Handed (rows : Fin 8 → Row) (loc : Proc → Local) (y : Seat) (a : Fin 15) : Prop where
  enters : Enters rows loc (.player a) ⟨a, (value rows (.player a)).hp, y.logp⟩
  gone : ∃ P hp, loc (.player y.i) = .player .exited P hp y.logp ∧
    agent P.current_battle_id = some a

variable {rows : Fin 8 → Row} {loc loc' : Proc → Local} {flag flag' : Flag → Bool}
variable {a : Fin 15} {b : Battle} {w : Side} {c : Proc} {x y : Seat} {m : Status} {hp logp : ℤ}

/-- Only the processes under `c` matter. -/
theorem Enters.congr (h : Enters rows loc c x) (hloc : ∀ q, Under c q → loc' q = loc q) :
    Enters rows loc' c x :=
  ⟨Path.congr h.offers hloc, h.hp, h.logp, h.real⟩

/-- A player has nobody under it. -/
theorem under_player {i : Fin 15} {q : Proc} (h : Under (.player i) q) : q = .player i := by
  rcases h.cases_child with heq | ⟨d, hd, -⟩
  · exact heq
  · obtain ⟨b, w, hbattle, -⟩ := eq_child_of_parentOf hd
    cases hbattle

/-- Only the players matter. -/
theorem Handed.congr (h : Handed rows loc y a)
    (hloc : ∀ i, loc' (.player i) = loc (.player i)) : Handed rows loc' y a := by
  refine ⟨h.enters.congr fun q hq => ?_, ?_⟩
  · rw [under_player hq, hloc]
  · rw [hloc]
    exact h.gone

/-! ### The agents -/

/-- The table of `player.c` sends the loser of a battle to the agent that stands for it. -/
theorem agent_eq_some : agent b.id = some a ↔ source a = some b := by
  revert a b
  decide

/-- An agent is not one of the eight players. -/
theorem not_real_of_source (h : source a = some b) : ¬ a.val < 8 := by
  revert a b
  decide

/-- Each agent has a battle of its own. -/
theorem source_inj {a' : Fin 15} (h : source a = some b) (h' : source a' = some b) : a = a' :=
  Option.some.inj ((agent_eq_some.mpr h).symm.trans (agent_eq_some.mpr h'))

/-- An agent is not below the battle whose loser it stands for. -/
theorem not_under_source (h : source a = some b) : ¬ Under (.battle b) (.player a) := by
  intro hunder
  rcases hunder.cases_child with heq | ⟨d, hd, hbelow⟩
  · cases heq
  · have hle := hbelow.rank_le rank_lt_of_parentOf
    have hlt := rank_lt_of_parentOf d _ hd
    rw [rank_source h] at hle
    rw [rank] at hlt
    omega

/-! ### What the players make of the end of a battle -/

/-- A status with hit points left, before the last battle, is passed on. -/
theorem relayed_alive (h : 1 ≤ m.HP) (hid : m.current_battle_id ≠ 'A') :
    relayed m = .readChild := by
  ext w : 1
  unfold relayed
  rw [if_pos ⟨by omega, fun hend => hid hend.1⟩]

/-- After the status of a loser, nothing more is passed. -/
theorem relayed_dead (h : m.HP ≤ 0) : relayed m = .waitWinner := by
  ext w : 1
  unfold relayed
  rw [if_neg fun hgo => by omega]

/-- Nor after the last battle. -/
theorem relayed_last (hid : m.current_battle_id = 'A') (hflag : m.battle_ended_flag = 1) :
    relayed m = .waitWinner := by
  ext w : 1
  unfold relayed
  rw [if_neg fun hgo => hgo.2 ⟨hid, hflag⟩]

/-- **A winner** recovers and sends again. -/
theorem turn_alive (h : 1 ≤ m.HP) (hid : m.current_battle_id ≠ 'A')
    (hflag : m.battle_ended_flag = 1) :
    turn m hp logp = .player .logSend (recover m hp).P hp logp := by
  unfold turn
  rw [if_neg (not_not.mpr hflag)]
  dsimp only
  rw [if_neg (by omega), if_neg hid]
  rfl

/-- **A loser of the upper bracket** hands all of its hit points to the agent. -/
theorem turn_hand (h : m.HP ≤ 0) (hflag : m.battle_ended_flag = 1)
    (ha : agent m.current_battle_id = some a) :
    turn m hp logp = .player (.logHand a) (restore m hp).P hp logp := by
  unfold turn
  rw [if_neg (not_not.mpr hflag)]
  dsimp only
  rw [if_pos h, ha]
  rfl

/-- **A loser of the lower bracket** exits. -/
theorem turn_exit (h : m.HP ≤ 0) (hflag : m.battle_ended_flag = 1)
    (ha : agent m.current_battle_id = none) (hp logp : ℤ) :
    ∃ P, turn m hp logp = .player .exit P hp logp := by
  unfold turn
  rw [if_neg (not_not.mpr hflag)]
  dsimp only
  rw [if_pos h, ha]
  exact ⟨_, rfl⟩

/-- After the last battle, everybody exits. -/
theorem turn_last (hid : m.current_battle_id = 'A') (hflag : m.battle_ended_flag = 1)
    (hp logp : ℤ) : ∃ P, turn m hp logp = .player .exit P hp logp := by
  by_cases h : m.HP ≤ 0
  · exact turn_exit h hflag (by rw [hid]; rfl) hp logp
  · unfold turn
    rw [if_neg (not_not.mpr hflag)]
    dsimp only
    rw [if_neg h, if_pos hid]
    exact ⟨_, rfl⟩

/-- A status that has not ended a battle is sent. -/
theorem turn_flag (hflag : m.battle_ended_flag = 0) :
    turn m hp logp = .player .logSend m hp logp := by
  unfold turn
  rw [if_pos (by omega)]

/-! ### The loser -/

/-- The player at the end of a path goes on. -/
theorem Path.set_bot {relay : Side → BattlePc} {i : Fin 15} {bot : Local}
    (h : Path rows loc relay i bot c) (bot' : Local) :
    Path rows (Function.update loc (.player i) bot') relay i bot' c := by
  induction h with
  | player _ => exact .player (Function.update_self ..)
  | battle h _ ih => exact .battle ((Function.update_of_ne (by simp) _ _).trans h) ih

/-- A step of a process that is not below the head of a path. -/
theorem Path.update_of_not {relay : Side → BattlePc} {i : Fin 15} {bot : Local} {p : Proc}
    (h : Path rows loc relay i bot c) (hp : ¬ Under c p) (l : Local) :
    Path rows (Function.update loc p l) relay i bot c := by
  refine h.congr fun q hq => Function.update_of_ne ?_ l loc
  rintro rfl
  exact hp hq

/-- **The winner's side leaves**: the player exits, and after it the battles up to `c`, each when
    the one below has. -/
theorem runs_leave {i : Fin 15} {P : Status}
    (h : Path rows loc .waitWinner i (.player .exit P hp logp) c) (flag : Flag → Bool) :
    ∃ loc' flag', Runs (program rows) ⟨quiet, flag, loc⟩ ⟨quiet, flag', loc'⟩ ∧
      flag' (.exited c) = true ∧ Kept flag flag' ∧
      loc' (.player i) = .player .exited P hp logp ∧ Outside c loc loc' := by
  obtain ⟨loc', flag', hruns, hexited, hkept, hpath, hout⟩ := h.leave flag
  exact ⟨loc', flag', hruns, hexited, hkept, hpath.loc_bot, hout⟩

/-- **The loser** of a battle hands its status to its agent, if there is one, and everything on its
    path exits. -/
theorem runs_loser (hends : Ends rows b w)
    (h : Received rows loc (child b w.other) y (lastStatus rows b w.other))
    (hhp : y.hp = (value rows (child b w.other)).hp)
    (hlogp : y.logp = (value rows (child b w.other)).P.real_player_id)
    (hasleep : ∀ a, source a = some b → Asleep loc flag a) :
    ∃ loc' flag', Runs (program rows) ⟨quiet, flag, loc⟩ ⟨quiet, flag', loc'⟩ ∧
      flag' (.exited (child b w.other)) = true ∧ Kept flag flag' ∧
      (∀ a, source a = some b → Handed rows loc' y a) ∧
      ∀ q, ¬ Under (child b w.other) q → (∀ a, source a = some b → q ≠ .player a) →
        loc' q = loc q := by
  have hdead := hends.dead
  have hflag := hends.flag w.other
  have hattacked := hends.attacked w.other
  rw [Received, relayed_dead hdead] at h
  cases hagent : agent b.id with
  | none =>
    obtain ⟨P, hP⟩ := turn_exit hdead hflag (by rw [hattacked.battle_id, hagent]) y.hp y.logp
    rw [hP] at h
    obtain ⟨loc', flag', hruns, hexited, hkept, -, hout⟩ := runs_leave h flag
    refine ⟨loc', flag', hruns, hexited, hkept, fun a ha => ?_, fun q hq _ => hout q hq⟩
    rw [agent_eq_some.mpr ha] at hagent
    cases hagent
  | some a =>
    have hsource : source a = some b := agent_eq_some.mp hagent
    rw [turn_hand hdead hflag (by rw [hattacked.battle_id, hagent])] at h
    have hloser : restore (lastStatus rows b w.other) y.hp = value rows (.player a) := by
      rw [value_agent hsource, hends.loser, hhp]
    have hid : (value rows (.player a)).P.real_player_id = y.logp := by
      rw [← hloser, hlogp, ← hattacked.real_player_id]
      rfl
    have hHP : (value rows (.player a)).P.HP = (value rows (.player a)).hp := by
      rw [← hloser]
      rfl
    have hnew : (value rows (.player a)).P.battle_ended_flag = 0 := by
      rw [← hloser]
      rfl
    have hcbid : agent (value rows (.player a)).P.current_battle_id = some a := by
      rw [← hloser, ← hagent, ← hattacked.battle_id]
      rfl
    rw [hloser] at h
    obtain ⟨⟨Q, hpa, logpa, hloc⟩, hreading⟩ := hasleep a hsource
    have hne : y.i ≠ a := by
      intro heq
      have hbot := h.loc_bot
      rw [heq, hloc] at hbot
      cases hbot
    have hnot : ¬ Under (child b w.other) (.player a) := fun hunder =>
      not_under_source hsource (under_battle_of_child hunder)
    -- the hand-over, seen from the path of the loser and from the agent
    have hruns₁ := runs_hand rows hne h.loc_bot hloc hreading
    rw [turn_flag hnew, hHP, hid] at hruns₁
    have hpath := ((h.set_bot (.player .exit (value rows (.player a)).P y.hp y.logp)).update_of_not
      hnot (.player .logSend (value rows (.player a)).P (value rows (.player a)).hp y.logp))
    obtain ⟨loc', flag', hruns₂, hexited, hkept, hgone, hout⟩ :=
      runs_leave hpath (Function.update flag (.writing (.player a)) true)
    refine ⟨loc', flag', hruns₁.trans hruns₂, hexited, (kept_raise _ _).trans hkept,
      fun a' ha' => ?_, fun q hq hqa => ?_⟩
    · obtain rfl : a = a' := source_inj hsource ha'
      refine ⟨⟨.player ((hout _ hnot).trans (Function.update_self ..)), rfl, hid.symm,
        fun hreal => absurd hreal (not_real_of_source hsource)⟩, ⟨_, _, hgone, hcbid⟩⟩
    · have hqi : q ≠ .player y.i := by
        rintro rfl
        exact hq h.under
      rw [hout q hq, Function.update_of_ne (hqa a hsource), Function.update_of_ne hqi]

/-! ### The end of a battle -/

/-- The processes that a battle moves: those below it, and the agent of its loser. -/
def Elsewhere (b : Battle) (q : Proc) : Prop :=
  ¬ Under (.battle b) q ∧ ∀ a, source a = some b → q ≠ .player a

/-- What either side has received. -/
theorem Answered.received {l r : Status} {x : Side → Seat}
    (h : Answered rows loc b (x .left) (x .right) l r) (side : Side) :
    Received rows loc (child b side) (x side) (pick side l r) := by
  cases side
  · exact h.left
  · exact h.right

/-- The rounds of a battle, from its entrants on. -/
theorem runs_rounds (hrows : Valid rows) {l r : Status} {x : Side → Seat}
    (hb : loc (.battle b) = .battle (.read .left) l r)
    (henter : ∀ side, Enters rows loc (child b side) (x side)) (flag : Flag → Bool) :
    ∃ loc', Runs (program rows) ⟨quiet, flag, loc⟩ ⟨quiet, flag, loc'⟩ ∧
      loc' (.battle b) = roundEnd b (lastStatus rows b .left) (lastStatus rows b .right) ∧
      (∀ side, Received rows loc' (child b side) (x side) (lastStatus rows b side)) ∧
      Outside (.battle b) loc loc' := by
  have hl := value_fit hrows (playl b)
  have hr := value_fit hrows (playr b)
  obtain ⟨loc', hruns, hanswered, hout⟩ := runs_fight hb (henter .left).offers (henter .right).offers
    hl.toAlive hr.toAlive hl.flag hr.flag (Int.self_le_toNat _) flag
  exact ⟨loc', hruns, hanswered.battle, hanswered.received, hout⟩

/-- Where the battle goes after the last round. -/
theorem roundEnd_last (hends : Ends rows b w) :
    roundEnd b (lastStatus rows b .left) (lastStatus rows b .right) =
      .battle (if b = .A then .print w else .waitLoser w) (lastStatus rows b .left)
        (lastStatus rows b .right) := by
  have halive := hends.alive
  unfold roundEnd
  cases w with
  -- the right one is dead: the rounds end and the left one is passed on
  | left =>
    have hdead : (lastStatus rows b .right).HP ≤ 0 := hends.dead
    rw [if_pos (ended_iff.mpr (.inl hdead)), if_pos hdead,
      if_neg (show ¬ (lastStatus rows b .right).HP > 0 by omega)]
    split <;> rfl
  | right =>
    have hdead : (lastStatus rows b .left).HP ≤ 0 := hends.dead
    rw [if_pos (ended_iff.mpr (.inr hdead)),
      if_pos (show (lastStatus rows b .right).HP > 0 by omega),
      if_neg (show ¬ (lastStatus rows b .right).HP ≤ 0 by omega)]
    split <;> rfl

/-- The status of the last round on a side. -/
theorem pick_lastStatus (rows : Fin 8 → Row) (b : Battle) (w : Side) :
    pick w (lastStatus rows b .left) (lastStatus rows b .right) = lastStatus rows b w := by
  cases w <;> rfl

/-- Only the root is called `A`. -/
theorem id_ne_A (h : b ≠ .A) : b.id ≠ 'A' := by
  revert b
  decide

/-- **A battle but the last**: its winner enters the next battle, and its loser enters another one
    as an agent, or exits. -/
theorem runs_play (hrows : Valid rows) {l r : Status} {x : Side → Seat} (hne : b ≠ .A)
    (hb : loc (.battle b) = .battle (.read .left) l r)
    (henter : ∀ side, Enters rows loc (child b side) (x side))
    (hasleep : ∀ a, source a = some b → Asleep loc flag a) :
    ∃ loc' flag', Runs (program rows) ⟨quiet, flag, loc⟩ ⟨quiet, flag', loc'⟩ ∧
      Kept flag flag' ∧ Enters rows loc' (.battle b) (x (winnerSide rows b)) ∧
      (∀ a, source a = some b → Handed rows loc' (x (winnerSide rows b).other) a) ∧
      ∀ q, Elsewhere b q → loc' q = loc q := by
  have hends := outcome_ends hrows b
  generalize hw : winnerSide rows b = w at hends ⊢
  obtain ⟨loc₁, hruns₁, hend, hreceived, hout₁⟩ := runs_rounds hrows hb henter flag
  rw [roundEnd_last hends, if_neg hne] at hend
  -- the loser leaves
  have hasleep₁ (a : Fin 15) (ha : source a = some b) : Asleep loc₁ flag a := by
    obtain ⟨hloc, hreading⟩ := hasleep a ha
    rw [← hout₁ _ (not_under_source ha)] at hloc
    exact ⟨hloc, hreading⟩
  obtain ⟨loc₂, flag₂, hruns₂, hexited, hkept, hhanded, hframe⟩ := runs_loser hends
    (hreceived w.other) (henter w.other).hp (henter w.other).logp hasleep₁
  -- the battle starts passing
  have hstay (q : Proc) (hq : ¬ Under (child b w.other) q) (hqb : Under (.battle b) q) :
      loc₂ q = loc₁ q := hframe q hq fun a ha heq => not_under_source ha (heq ▸ hqb)
  have hwait := (hstay _ (not_under_child b w.other) .refl).trans hend
  have hruns₃ := runs_waitLoser rows hwait hexited
  have hid : (lastStatus rows b w).current_battle_id ≠ 'A' := by
    rw [(hends.attacked w).battle_id]
    exact id_ne_A hne
  rw [passing_eq, pick_lastStatus, relayed_alive hends.alive hid] at hruns₃
  refine ⟨_, flag₂, hruns₁.trans (hruns₂.trans hruns₃), hkept, ?_, fun a ha => ?_, fun q hq => ?_⟩
  · have hpath := (hreceived w).congr fun q hq =>
      hstay q (not_under_other hq) (under_battle_of_child hq)
    have hvalue : value rows (.battle b) = recover (lastStatus rows b w) (x w).hp := by
      rw [value_battle, hends.winner, (henter w).hp]
    rw [relayed_alive hends.alive hid, turn_alive hends.alive hid (hends.flag w), ← hvalue] at hpath
    subst hw
    refine ⟨.battle (Function.update_self ..) (hpath.update _), by rw [hvalue]; rfl, ?_,
      (henter _).real⟩
    rw [hvalue, (henter _).logp, ← (hends.attacked _).real_player_id]
    rfl
  · exact (hhanded a ha).congr fun i => Function.update_of_ne (by simp) _ _
  · have hqb : q ≠ .battle b := by
      rintro rfl
      exact hq.1 .refl
    rw [Function.update_of_ne hqb, hframe q (fun hunder => hq.1 (under_battle_of_child hunder)) hq.2,
      hout₁ q hq.1]

/-- **The last battle**: both players and everything on their paths exit, and the root last. -/
theorem runs_final (hrows : Valid rows) {l r : Status} {x : Side → Seat}
    (hb : loc (.battle .A) = .battle (.read .left) l r)
    (henter : ∀ side, Enters rows loc (child .A side) (x side)) (flag : Flag → Bool) :
    ∃ loc' flag', Runs (program rows) ⟨quiet, flag, loc⟩ ⟨quiet, flag', loc'⟩ ∧
      loc' (.battle .A) = .battle (.exited (winnerSide rows .A)) (lastStatus rows .A .left)
        (lastStatus rows .A .right) := by
  have hends := outcome_ends hrows .A
  obtain ⟨loc₁, hruns₁, hend, hreceived, -⟩ := runs_rounds hrows hb henter flag
  -- in battle `A` both players stop after the last reply
  rw [roundEnd_last hends, if_pos rfl] at hend
  have hpath (side : Side) : ∃ P, Path rows loc₁ .waitWinner (x side).i
      (.player .exit P (x side).hp (x side).logp) (child .A side) := by
    have hid : (lastStatus rows .A side).current_battle_id = 'A' := (hends.attacked side).battle_id
    obtain ⟨P, hP⟩ := turn_last hid (hends.flag side) (x side).hp (x side).logp
    have h := hreceived side
    rw [Received, relayed_last hid (hends.flag side), hP] at h
    exact ⟨P, h⟩
  obtain ⟨P, hl⟩ := hpath .left
  obtain ⟨Q, hr⟩ := hpath .right
  obtain ⟨loc₂, flag₂, hruns₂, hexited₂, -, -, hout₂⟩ := runs_leave hl flag
  obtain ⟨loc₃, flag₃, hruns₃, hexited₃, hkept₃, -, hout₃⟩ := runs_leave (hr.outside hout₂) flag₂
  have hprint := hout₃.battle.trans (hout₂.battle.trans hend)
  -- both children have exited, so the two waits behind `print` return
  refine ⟨_, _, hruns₁.trans (hruns₂.trans (hruns₃.trans (runs_print rows hprint ?_))),
    Function.update_self ..⟩
  intro side
  cases side
  · exact hkept₃ _ hexited₂
  · exact hexited₃

end SystemProgramming.Championship
