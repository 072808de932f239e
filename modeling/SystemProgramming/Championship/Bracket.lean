import SystemProgramming.Championship.Process

namespace SystemProgramming.Championship

open Network Transition

/-!
# Championship — the sequential double elimination

What the tournament is for: a recursion over the bracket that plays one battle after the other.

* `fight` / `play` — a whole battle, its winner with recovered and its loser with full hit points;
* `entrant` — who comes out of a process: a battle lets its winner through, and an agent stands for
  the loser of its battle;
* `value_battle` / `value_agent` — the recursion, without the bound on its depth;
* `fight_over` — a battle comes to its end with exactly one loser.
-/

/-- The rounds of a battle, at most `n` of them. -/
def fight (b : Battle) : ℕ → Status → Status → Status × Status
  | 0, left, right => (left, right)
  | n + 1, left, right =>
    if ended (attack b left right).1 (attack b left right).2 then attack b left right
    else fight b n (attack b left right).1 (attack b left right).2

/-- A status with the hit points its process has started with. -/
structure Entrant where
  P : Status
  hp : ℤ
  deriving DecidableEq, Repr

/-- The winner of a battle goes on with half of what it has lost. -/
def recover (s : Status) (hp : ℤ) : Entrant :=
  ⟨{ s with battle_ended_flag := 0, HP := s.HP + (hp - s.HP).tdiv 2 }, hp⟩

/-- The loser of a battle goes on with all of its hit points. -/
def restore (s : Status) (hp : ℤ) : Entrant :=
  ⟨{ s with battle_ended_flag := 0, HP := hp }, hp⟩

/-- The result of a battle. -/
structure Outcome where
  side : Side
  winner : Entrant
  loser : Entrant
  deriving DecidableEq, Repr

/-- The last statuses of a battle. -/
def lastRound (b : Battle) (l r : Entrant) : Status × Status :=
  fight b (l.P.HP + r.P.HP).toNat l.P r.P

/-- A whole battle. -/
def play (b : Battle) (l r : Entrant) : Outcome :=
  if (lastRound b l r).2.HP ≤ 0 then
    ⟨.left, recover (lastRound b l r).1 l.hp, restore (lastRound b l r).2 r.hp⟩
  else
    ⟨.right, recover (lastRound b l r).2 r.hp, restore (lastRound b l r).1 l.hp⟩

/-- The battle whose loser an agent stands for. -/
def source : Fin 15 → Option Battle
  | 8 => some .G
  | 9 => some .I
  | 10 => some .D
  | 11 => some .H
  | 12 => some .J
  | 13 => some .E
  | 14 => some .B
  | _ => none

/-- Who comes out of a process, computed to a given depth. -/
def entrant (rows : Fin 8 → Row) : ℕ → Proc → Entrant
  | 0, _ => ⟨unset, 0⟩
  | n + 1, .battle b => (play b (entrant rows n (playl b)) (entrant rows n (playr b))).winner
  | n + 1, .player i =>
    if h : i.val < 8 then
      ⟨realStatus rows ⟨i, h⟩, (rows ⟨i, h⟩).HP⟩
    else
      match source i with
      | some b => (play b (entrant rows n (playl b)) (entrant rows n (playr b))).loser
      | none => ⟨unset, 0⟩

/-- Who comes out of a process; the bracket is seven levels deep. -/
def value (rows : Fin 8 → Row) (c : Proc) : Entrant := entrant rows 7 c

/-- The result of each battle. -/
def outcome (rows : Fin 8 → Row) (b : Battle) : Outcome :=
  play b (value rows (playl b)) (value rows (playr b))

/-- The number of the player who comes out of a process. -/
def ident (rows : Fin 8 → Row) (c : Proc) : ℤ := (value rows c).P.real_player_id

/-- The champion. -/
def champion (rows : Fin 8 → Row) : ℤ := ident rows (.battle .A)

/-! ### The recursion -/

/-- The depth of the bracket below a battle, what its agents stand for included. -/
def battleRank : Battle → ℕ
  | .A => 7
  | .B => 4
  | .C => 6
  | .D | .E => 3
  | .F => 5
  | .G | .H | .I | .J => 2
  | .K | .L => 4
  | .M | .N => 3

/-- The depth of the bracket below a process; an agent stands for the battle it has lost in. -/
def rank : Proc → ℕ
  | .battle b => battleRank b
  | .player i => ((source i).map battleRank).getD 1

/-- No process has rank zero. -/
theorem rank_pos (c : Proc) : 1 ≤ rank c := by
  cases c with
  | battle b => revert b; decide
  | player i => revert i; decide

/-- The root has the highest rank. -/
theorem rank_le (c : Proc) : rank c ≤ 7 := by
  cases c with
  | battle b => revert b; decide
  | player i => revert i; decide

/-- The left child has a lower rank. -/
theorem rank_playl (b : Battle) : rank (playl b) < battleRank b := by
  revert b
  decide

/-- And so has the right one. -/
theorem rank_playr (b : Battle) : rank (playr b) < battleRank b := by
  revert b
  decide

/-- An agent ranks with the battle of its player. -/
theorem rank_source {i : Fin 15} {b : Battle} (h : source i = some b) :
    rank (.player i) = battleRank b := by
  rw [rank, h]
  rfl

/-- Who is not a real player is an agent. -/
theorem source_isSome : ∀ i : Fin 15, ¬ i.val < 8 → (source i).isSome := by
  decide

variable {rows : Fin 8 → Row} {b : Battle} {i : Fin 15} {n : ℕ} {c : Proc}

/-- From the rank of a process on, the bound does not matter. -/
theorem entrant_succ (h : rank c ≤ n) : entrant rows (n + 1) c = entrant rows n c := by
  induction n generalizing c with
  | zero => exact absurd (rank_pos c) (by omega)
  | succ n ih =>
    -- the children of a battle have a smaller rank, so the induction covers both
    have hplay (b : Battle) (hb : battleRank b ≤ n + 1) :
        play b (entrant rows (n + 1) (playl b)) (entrant rows (n + 1) (playr b)) =
          play b (entrant rows n (playl b)) (entrant rows n (playr b)) := by
      have hl := rank_playl b
      have hr := rank_playr b
      rw [ih (by omega), ih (by omega)]
    cases c with
    | battle b => rw [entrant, hplay b h, entrant]
    | player i =>
      rw [entrant, entrant]
      split
      · rfl
      · cases hs : source i with
        | none => rfl
        | some b =>
          rw [rank_source hs] at h
          simp only [hplay b h]

/-- Any bound that is high enough gives the value. By induction on it, as the ranks go down. -/
theorem entrant_eq_value (hn : n ≤ 7) (h : rank c ≤ n) : entrant rows n c = value rows c := by
  obtain ⟨k, hk⟩ : ∃ k, n + k = 7 := ⟨7 - n, by omega⟩
  induction k generalizing n with
  | zero =>
    obtain rfl : n = 7 := by omega
    rfl
  | succ k ih => rw [← entrant_succ h, ih (by omega) (by omega) (by omega)]

/-- A battle lets its winner through. -/
theorem value_battle (rows : Fin 8 → Row) (b : Battle) :
    value rows (.battle b) = (outcome rows b).winner := by
  have hb := rank_le (.battle b)
  have hl := rank_playl b
  have hr := rank_playr b
  simp only [rank] at hb
  rw [value, entrant, outcome, entrant_eq_value (by omega) (by omega),
    entrant_eq_value (by omega) (by omega)]

/-- An agent stands for the loser of its battle. -/
theorem value_agent (h : source i = some b) :
    value rows (.player i) = (outcome rows b).loser := by
  have hreal : ¬ i.val < 8 := by
    revert i b
    decide
  have hb := rank_le (.battle b)
  have hl := rank_playl b
  have hr := rank_playr b
  simp only [rank] at hb
  rw [value, entrant, dif_neg hreal]
  simp only [h]
  rw [outcome, entrant_eq_value (by omega) (by omega), entrant_eq_value (by omega) (by omega)]

/-- A real player enters with its row. -/
theorem value_real (h : i.val < 8) :
    value rows (.player i) = ⟨realStatus rows ⟨i, h⟩, (rows ⟨i, h⟩).HP⟩ := by
  rw [value, entrant, dif_pos h]

/-! ### Battles end -/

/-- What `player_status.txt` has to be. -/
structure Valid (rows : Fin 8 → Row) : Prop where
  HP : ∀ i, 1 ≤ (rows i).HP ∧ (rows i).HP < 2 ^ 30
  ATK : ∀ i, 1 ≤ (rows i).ATK ∧ (rows i).ATK < 2 ^ 30
  flag : ∀ i, (rows i).battle_ended_flag = 0

/-- An entrant that can start a battle. -/
structure Entrant.Fit (e : Entrant) : Prop extends e.P.Alive where
  le : e.P.HP ≤ e.hp
  flag : e.P.battle_ended_flag = 0

/-- What the last round of a battle makes of the two players. -/
structure LastRound (b : Battle) (l r l' r' : Status) : Prop where
  left : Attacked b l l'
  right : Attacked b r r'
  oneLoser : OneLoser l' r'
  leftFlag : l'.battle_ended_flag = 1
  rightFlag : r'.battle_ended_flag = 1

variable {l r : Status}

/-- What several attacks leave is again what an attack can leave. -/
theorem Attacked.trans {s t u : Status} (h : Attacked b s t) (h' : Attacked b t u) :
    Attacked b s u :=
  ⟨⟨h'.real_player_id.trans h.real_player_id, h'.ATK.trans h.ATK, h'.attr.trans h.attr⟩,
    h'.battle_id, h'.le.trans h.le⟩

/-- **A battle ends** within as many rounds as there are hit points, with exactly one loser. -/
theorem fight_over (hl : l.Alive) (hr : r.Alive) (hn : l.HP + r.HP ≤ n) :
    LastRound b l r (fight b n l r).1 (fight b n l r).2 := by
  induction n generalizing l r with
  | zero =>
    have h1 := hl.HP
    have h2 := hr.HP
    omega
  -- the blow of the round has taken at least one point, so `n` rounds are left for the rest
  | succ n ih =>
    have hround := attack_spec b hl hr
    rw [fight]
    cases hend : ended (attack b l r).1 (attack b l r).2 with
    | true =>
      obtain ⟨hone, hflagl, hflagr⟩ := hround.atEnd hend
      -- the last round: the one who was hit last is dead and both flags are set
      exact ⟨hround.left, hround.right, hone, hflagl, hflagr⟩
    | false =>
      obtain ⟨hl', hr', -, -⟩ := hround.goes_on hend
      have hless := hround.decrease
      have h := ih hl' hr' (by omega)
      exact ⟨hround.left.trans h.left, hround.right.trans h.right, h.oneLoser, h.leftFlag,
        h.rightFlag⟩

/-- **A battle has a last round**: the bound of `fight` is never reached. -/
theorem lastRound_spec {l r : Entrant} (hl : l.Fit) (hr : r.Fit) :
    LastRound b l.P r.P (lastRound b l r).1 (lastRound b l r).2 :=
  fight_over hl.toAlive hr.toAlive (by omega)

/-- A winner that has recovered can start a battle. -/
theorem recover_fit {s : Status} {hp : ℤ} (hpos : 1 ≤ s.HP) (hatk : 1 ≤ s.ATK) (hle : s.HP ≤ hp) :
    (recover s hp).Fit := by
  have hdiv : 0 ≤ (hp - s.HP).tdiv 2 ∧ (hp - s.HP).tdiv 2 ≤ hp - s.HP := by
    rw [Int.tdiv_eq_ediv_of_nonneg (by omega)]
    omega
  refine ⟨⟨?_, hatk⟩, ?_, rfl⟩ <;> simp only [recover] <;> omega

/-- So can a loser with all of its hit points. -/
theorem restore_fit {s : Status} {hp : ℤ} (hpos : 1 ≤ hp) (hatk : 1 ≤ s.ATK) :
    (restore s hp).Fit :=
  ⟨⟨hpos, hatk⟩, le_rfl, rfl⟩

/-- Winner and loser of a battle are fit for their next one. -/
theorem play_fit {l r : Entrant} (hl : l.Fit) (hr : r.Fit) :
    (play b l r).winner.Fit ∧ (play b l r).loser.Fit := by
  have h := lastRound_spec (b := b) hl hr
  have hatkl : 1 ≤ (lastRound b l r).1.ATK := h.left.ATK.symm ▸ hl.ATK
  have hatkr : 1 ≤ (lastRound b l r).2.ATK := h.right.ATK.symm ▸ hr.ATK
  have hhpl : 1 ≤ l.hp := hl.HP.trans hl.le
  have hhpr : 1 ≤ r.hp := hr.HP.trans hr.le
  unfold play
  rcases h.oneLoser with ⟨hlose, hwin⟩ | ⟨hlose, hwin⟩
  · rw [if_neg (by omega)]
    exact ⟨recover_fit hwin hatkr (h.right.le.trans hr.le), restore_fit hhpl hatkl⟩
  · rw [if_pos hlose]
    exact ⟨recover_fit hwin hatkl (h.left.le.trans hl.le), restore_fit hhpr hatkr⟩

/-- Everybody who comes out of a process is fit. -/
theorem entrant_fit (hrows : Valid rows) (h : rank c ≤ n) : (entrant rows n c).Fit := by
  -- an agent takes over the loser of its battle, so the induction is on the rank as well
  induction n generalizing c with
  | zero => exact absurd (rank_pos c) (by omega)
  | succ n ih =>
    cases c with
    | battle b =>
      have hl := rank_playl b
      have hr := rank_playr b
      simp only [rank] at h
      rw [entrant]
      exact (play_fit (ih (by omega)) (ih (by omega))).1
    | player i =>
      rw [entrant]
      split
      · exact ⟨⟨(hrows.HP _).1, (hrows.ATK _).1⟩, le_rfl, hrows.flag _⟩
      · rename_i hreal
        obtain ⟨b, hs⟩ := Option.isSome_iff_exists.mp (source_isSome i hreal)
        have hl := rank_playl b
        have hr := rank_playr b
        rw [rank_source hs] at h
        simp only [hs]
        exact (play_fit (ih (by omega)) (ih (by omega))).2

/-- Everybody in the bracket can start a battle. -/
theorem value_fit (hrows : Valid rows) (c : Proc) : (value rows c).Fit :=
  entrant_fit hrows (rank_le c)

/-! ### The two sides of a battle -/

/-- The child of a battle that wins it. -/
def winnerSide (rows : Fin 8 → Row) (b : Battle) : Side := (outcome rows b).side

/-- The status that a battle writes to a child in its last round. -/
def lastStatus (rows : Fin 8 → Row) (b : Battle) (w : Side) : Status :=
  pick w (lastRound b (value rows (playl b)) (value rows (playr b))).1
    (lastRound b (value rows (playl b)) (value rows (playr b))).2

/-- How a battle ends. -/
structure Ends (rows : Fin 8 → Row) (b : Battle) (w : Side) : Prop where
  attacked : ∀ side, Attacked b (value rows (child b side)).P (lastStatus rows b side)
  flag : ∀ side, (lastStatus rows b side).battle_ended_flag = 1
  alive : 1 ≤ (lastStatus rows b w).HP
  dead : (lastStatus rows b w.other).HP ≤ 0
  winner : (outcome rows b).winner = recover (lastStatus rows b w) (value rows (child b w)).hp
  loser : (outcome rows b).loser =
    restore (lastStatus rows b w.other) (value rows (child b w.other)).hp

/-- **The end of a battle**, in terms of the side that wins. -/
theorem outcome_ends (hrows : Valid rows) (b : Battle) : Ends rows b (winnerSide rows b) := by
  have h := lastRound_spec (b := b) (value_fit hrows (playl b)) (value_fit hrows (playr b))
  have hattacked (side : Side) :
      Attacked b (value rows (child b side)).P (lastStatus rows b side) := by
    cases side
    · exact h.left
    · exact h.right
  have hflag (side : Side) : (lastStatus rows b side).battle_ended_flag = 1 := by
    cases side
    · exact h.leftFlag
    · exact h.rightFlag
  rcases h.oneLoser with ⟨hlose, hwin⟩ | ⟨hlose, hwin⟩
  · -- the left one has lost
    have houtcome : outcome rows b = ⟨.right,
        recover (lastStatus rows b .right) (value rows (playr b)).hp,
        restore (lastStatus rows b .left) (value rows (playl b)).hp⟩ := by
      rw [outcome, play, if_neg (by omega)]
      rfl
    rw [winnerSide, houtcome]
    exact ⟨hattacked, hflag, hwin, hlose, by rw [houtcome]; rfl, by rw [houtcome]; rfl⟩
  · have houtcome : outcome rows b = ⟨.left,
        recover (lastStatus rows b .left) (value rows (playl b)).hp,
        restore (lastStatus rows b .right) (value rows (playr b)).hp⟩ := by
      rw [outcome, play, if_pos hlose]
      rfl
    rw [winnerSide, houtcome]
    exact ⟨hattacked, hflag, hwin, hlose, by rw [houtcome]; rfl, by rw [houtcome]; rfl⟩

/-- The rows of `player_status.txt`. -/
def sampleRows : Fin 8 → Row
  | 0 => ⟨7, 2, .FIRE, 'G', 0⟩
  | 1 => ⟨8, 3, .GRASS, 'G', 0⟩
  | 2 => ⟨4, 4, .FIRE, 'H', 0⟩
  | 3 => ⟨1, 4, .GRASS, 'H', 0⟩
  | 4 => ⟨12, 2, .WATER, 'I', 0⟩
  | 5 => ⟨3, 4, .GRASS, 'I', 0⟩
  | 6 => ⟨7, 3, .WATER, 'J', 0⟩
  | 7 => ⟨10, 2, .WATER, 'J', 0⟩

example : champion sampleRows = 0 := by decide

/-- The battles `G`, `H` and `D`, the four players of them, and what it takes to start their
    agents. -/
def sampleTurns : List Proc :=
  [.battle .A, .battle .B, .battle .C, .battle .D, .battle .F, .battle .G, .battle .H, .battle .K,
    .battle .L, .battle .M, .battle .N, .player 0, .player 1, .player 2, .player 3, .player 8,
    .player 11]

/-- A state in the middle of the tournament: `n` times, each of these processes has taken a step if
    it could. -/
def sampleAfter (n : ℕ) : Tournament :=
  attempts (step (program sampleRows)) start (List.replicate n sampleTurns).flatten

/-- These states are reachable. -/
theorem reachable_sampleAfter (n : ℕ) :
    Reachable (step (program sampleRows)) start (sampleAfter n) :=
  reachable_attempts _ _

end SystemProgramming.Championship