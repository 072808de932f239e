import SystemProgramming.Championship.Tournament

namespace SystemProgramming.Championship

/-!
# Championship — the battle loop with its two players

A battle on its own, with two players that send back what they receive as long as the battle goes
on, in `int` arithmetic.

* `attackInt_eq` — no `int` overflows, so that a round is that of `attack`;
* `battleLoop_eq` — so the loop plays the rounds of `fight`;
* `battle_ends` — it ends with exactly one loser;
* `battle_fair` — it does not matter which player is on which side.
-/

/-- The value of an arithmetic operation on `int`, unless it overflows. -/
def int (x : ℤ) : Option ℤ := if -2 ^ 31 ≤ x ∧ x < 2 ^ 31 then some x else none

/-- `atkl` and `atkr` -/
def atkInt (battle : Battle) (s : Status) : Option ℤ :=
  if boosts s.attr battle then int (s.ATK * 2) else some s.ATK

/-- The right player attacks first. -/
def rightAttackInt (atkl atkr : ℤ) (left right : Status) : Option (Status × Status) := do
  let left := { left with HP := ← int (left.HP - atkr) }
  if left.HP > 0 then
    return (left, { right with HP := ← int (right.HP - atkl) })
  return (left, right)

/-- The left player attacks first. -/
def leftAttackInt (atkl atkr : ℤ) (left right : Status) : Option (Status × Status) := do
  let right := { right with HP := ← int (right.HP - atkl) }
  if right.HP > 0 then
    return ({ left with HP := ← int (left.HP - atkr) }, right)
  return (left, right)

/-- One round, in `int` arithmetic. -/
def attackInt (battle : Battle) (left right : Status) : Option (Status × Status) := do
  let left := { left with current_battle_id := battle.id }
  let right := { right with current_battle_id := battle.id }
  let atkr ← atkInt battle right
  let atkl ← atkInt battle left
  flagged <$>
    if right.HP < left.HP then rightAttackInt atkl atkr left right
    else if right.HP = left.HP then
      if right.real_player_id < left.real_player_id then rightAttackInt atkl atkr left right
      else leftAttackInt atkl atkr left right
    else leftAttackInt atkl atkr left right

/-- What a player sends: its loop goes on while the flag is not set. -/
def offer (P : Status) : Option Status := if P.battle_ended_flag ≠ 1 then some P else none

/-- The battle loop: the statuses that are written back in each round.  There are none if an `int`
    overflows, if a player does not send, or if the loop goes on after `n` rounds. -/
def battleLoop (battle : Battle) : ℕ → Status → Status → Option (List (Status × Status))
  | 0, _, _ => none
  | n + 1, left, right => do
    let left ← offer left
    let right ← offer right
    let (left, right) ← attackInt battle left right
    if ended left right then
      return [(left, right)]
    return (left, right) :: (← battleLoop battle n left right)

variable {battle : Battle} {l r l' r' : Status} {atkl atkr : ℤ} {n : ℕ}

/-! ### No overflow -/

/-- A status in the range of the game. -/
structure Fighter (s : Status) : Prop where
  HP : 1 ≤ s.HP ∧ s.HP < 2 ^ 30
  ATK : 1 ≤ s.ATK ∧ s.ATK < 2 ^ 30

/-- A fighter is alive. -/
theorem Fighter.alive (h : Fighter l) : l.Alive := ⟨h.HP.1, h.ATK.1⟩

/-- What fits into an `int` is not changed. -/
theorem int_eq {x : ℤ} (hlow : -2 ^ 31 ≤ x) (hhigh : x < 2 ^ 31) : int x = some x :=
  if_pos ⟨hlow, hhigh⟩

/-- The doubled attack power does not overflow. -/
theorem atkInt_eq (h : Fighter l) : atkInt battle l = some (atk battle l) := by
  obtain ⟨hlow, hhigh⟩ := h.ATK
  unfold atkInt atk
  split
  · exact int_eq (by omega) (by omega)
  · rfl

/-- It is at most twice one that is less than `2 ^ 30`. -/
theorem atk_lt (h : Fighter l) : atk battle l < 2 ^ 31 := by
  obtain ⟨hlow, hhigh⟩ := h.ATK
  unfold atk
  split <;> omega

/-- The right one attacks first: no subtraction overflows. -/
theorem rightAttackInt_eq (hl : 1 ≤ l.HP ∧ l.HP < 2 ^ 30) (hr : 1 ≤ r.HP ∧ r.HP < 2 ^ 30)
    (hatkl : 1 ≤ atkl ∧ atkl < 2 ^ 31) (hatkr : 1 ≤ atkr ∧ atkr < 2 ^ 31) :
    rightAttackInt atkl atkr l r = some (rightAttack atkl atkr l r) := by
  have hleft : int (l.HP - atkr) = some (l.HP - atkr) := int_eq (by omega) (by omega)
  have hright : int (r.HP - atkl) = some (r.HP - atkl) := int_eq (by omega) (by omega)
  simp only [rightAttackInt, rightAttack, hleft, hright, Option.bind_eq_bind, Option.bind_some]
  split <;> rfl

/-- The left one attacks first: no subtraction overflows. -/
theorem leftAttackInt_eq (hl : 1 ≤ l.HP ∧ l.HP < 2 ^ 30) (hr : 1 ≤ r.HP ∧ r.HP < 2 ^ 30)
    (hatkl : 1 ≤ atkl ∧ atkl < 2 ^ 31) (hatkr : 1 ≤ atkr ∧ atkr < 2 ^ 31) :
    leftAttackInt atkl atkr l r = some (leftAttack atkl atkr l r) := by
  have hleft : int (l.HP - atkr) = some (l.HP - atkr) := int_eq (by omega) (by omega)
  have hright : int (r.HP - atkl) = some (r.HP - atkl) := int_eq (by omega) (by omega)
  simp only [leftAttackInt, leftAttack, hleft, hright, Option.bind_eq_bind, Option.bind_some]
  split <;> rfl

/-- **No `int` overflows** in a round. -/
theorem attackInt_eq (hl : Fighter l) (hr : Fighter r) :
    attackInt battle l r = some (attack battle l r) := by
  have hatkl : 1 ≤ atk battle l ∧ atk battle l < 2 ^ 31 := ⟨atk_pos hl.alive, atk_lt hl⟩
  have hatkr : 1 ≤ atk battle r ∧ atk battle r < 2 ^ 31 := ⟨atk_pos hr.alive, atk_lt hr⟩
  have hl' : Fighter { l with current_battle_id := battle.id } := ⟨hl.HP, hl.ATK⟩
  have hr' : Fighter { r with current_battle_id := battle.id } := ⟨hr.HP, hr.ATK⟩
  have hright := rightAttackInt_eq (l := { l with current_battle_id := battle.id })
    (r := { r with current_battle_id := battle.id }) hl.HP hr.HP hatkl hatkr
  have hleft := leftAttackInt_eq (l := { l with current_battle_id := battle.id })
    (r := { r with current_battle_id := battle.id }) hl.HP hr.HP hatkl hatkr
  have heql : atk battle { l with current_battle_id := battle.id } = atk battle l := rfl
  have heqr : atk battle { r with current_battle_id := battle.id } = atk battle r := rfl
  simp only [attackInt, attack, atkInt_eq hl', atkInt_eq hr', heql, heqr, hright, hleft,
    Option.bind_eq_bind, Option.bind_some]
  split_ifs <;> rfl

/-- A player is still in range after a round that leaves it alive. -/
theorem Attacked.fighter (h : Attacked battle l l') (hl : Fighter l) (halive : l'.Alive) :
    Fighter l' := by
  have hle := h.le
  have hHP := hl.HP
  exact ⟨⟨halive.HP, by omega⟩, h.ATK.symm ▸ hl.ATK⟩

/-! ### The end of the loop -/

/-- A player whose battle has not ended offers its status as it is. -/
theorem offer_eq (h : l.battle_ended_flag = 0) : offer l = some l := by
  rw [offer, if_pos (by omega)]

/-- A round after which the battle goes on. -/
structure GoesOn (p : Status × Status) : Prop where
  left : 1 ≤ p.1.HP ∧ p.1.battle_ended_flag = 0
  right : 1 ≤ p.2.HP ∧ p.2.battle_ended_flag = 0

/-- **The loop plays the rounds of `fight`**, and all of them but the last one go on. -/
theorem battleLoop_eq (battle : Battle) (hl : Fighter l) (hr : Fighter r)
    (hflagl : l.battle_ended_flag = 0) (hflagr : r.battle_ended_flag = 0) (hn : l.HP + r.HP ≤ n) :
    ∃ earlier, battleLoop battle n l r = some (earlier ++ [fight battle n l r]) ∧
      earlier.length < n ∧ ∀ p ∈ earlier, GoesOn p := by
  induction n generalizing l r with
  | zero =>
    have h1 := hl.HP
    have h2 := hr.HP
    omega
  | succ n ih =>
    have hround := attack_spec battle hl.alive hr.alive
    rw [battleLoop, fight]
    simp only [offer_eq hflagl, offer_eq hflagr, attackInt_eq hl hr, Option.bind_eq_bind,
      Option.bind_some]
    cases hend : ended (attack battle l r).1 (attack battle l r).2 with
    | true => exact ⟨[], rfl, n.succ_pos, by simp⟩
    -- both go on with less HP together, within the range of the integers
    | false =>
      obtain ⟨hl', hr', hl'', hr''⟩ := hround.goes_on hend
      have hless := hround.decrease
      obtain ⟨earlier, hloop, hlength, hearlier⟩ := ih (hround.left.fighter hl hl')
        (hround.right.fighter hr hr') (hl''.trans hflagl) (hr''.trans hflagr) (by omega)
      refine ⟨attack battle l r :: earlier, ?_, ?_, ?_⟩
      · simp only [Bool.false_eq_true, if_false, hloop, Option.bind_some]
        rfl
      · exact Nat.succ_lt_succ hlength
      · intro p hp
        rcases List.mem_cons.mp hp with rfl | hp
        · exact ⟨⟨hl'.HP, hl''.trans hflagl⟩, ⟨hr'.HP, hr''.trans hflagr⟩⟩
        · exact hearlier p hp

/-- The last round of a battle between `left` and `right`. -/
structure Over (left right : Status) (p : Status × Status) : Prop where
  loser : (p.1.HP ≤ 0 ∧ 1 ≤ p.2.HP ∧ p.2.HP ≤ right.HP) ∨
    (p.2.HP ≤ 0 ∧ 1 ≤ p.1.HP ∧ p.1.HP ≤ left.HP)
  flags : p.1.battle_ended_flag = 1 ∧ p.2.battle_ended_flag = 1

/-- **Every battle ends with exactly one loser.**  Within as many rounds as the two players have hit
    points, and without overflow, the loop comes to a last round, in which both flags are set; the
    winner has at least one hit point and none more than it started with.  In the rounds before,
    both players are alive and no flag is set. -/
theorem battle_ends (battle : Battle) (hl : Fighter l) (hr : Fighter r)
    (hflagl : l.battle_ended_flag = 0) (hflagr : r.battle_ended_flag = 0) :
    ∃ earlier last, battleLoop battle (l.HP + r.HP).toNat l r = some (earlier ++ [last]) ∧
      earlier.length + 1 ≤ l.HP + r.HP ∧ Over l r last ∧ ∀ p ∈ earlier, GoesOn p := by
  obtain ⟨earlier, hloop, hlength, hearlier⟩ :=
    battleLoop_eq battle (n := (l.HP + r.HP).toNat) hl hr hflagl hflagr (by omega)
  have hlast := fight_over (b := battle) (n := (l.HP + r.HP).toNat) hl.alive hr.alive (by omega)
  refine ⟨earlier, _, hloop, by omega, ⟨?_, hlast.leftFlag, hlast.rightFlag⟩, hearlier⟩
  rcases hlast.oneLoser with ⟨hdead, halive⟩ | ⟨hdead, halive⟩
  · exact .inl ⟨hdead, halive, hlast.right.le⟩
  · exact .inr ⟨hdead, halive, hlast.left.le⟩

/-- Battle `G` of `player_status.txt`. -/
theorem battle_ends_sample :
    ∃ earlier last, battleLoop .G 15 (realStatus sampleRows 0) (realStatus sampleRows 1) =
        some (earlier ++ [last]) ∧ earlier.length + 1 ≤ (15 : ℤ) ∧
      Over (realStatus sampleRows 0) (realStatus sampleRows 1) last ∧ ∀ p ∈ earlier, GoesOn p :=
  battle_ends .G (l := realStatus sampleRows 0) (r := realStatus sampleRows 1)
    ⟨by decide, by decide⟩ ⟨by decide, by decide⟩ rfl rfl

/-! ### The two sides -/

/-- The end of a battle is the same from both sides. -/
theorem ended_swap (l r : Status) : ended r l = ended l r := by
  rw [ended, ended, Bool.or_comm]

/-- And so are the flags. -/
theorem flagged_swap (p : Status × Status) : flagged p.swap = (flagged p).swap := by
  obtain ⟨l, r⟩ := p
  unfold flagged
  simp only [Prod.swap_prod_mk, ended_swap l r]
  split <;> rfl

/-- The two orders of attack mirror each other. -/
theorem leftAttackInt_swap (atkl atkr : ℤ) (l r : Status) :
    leftAttackInt atkr atkl r l = (rightAttackInt atkl atkr l r).map Prod.swap := by
  unfold leftAttackInt rightAttackInt
  cases int (l.HP - atkr) with
  | none => rfl
  | some hpl =>
    simp only [Option.bind_eq_bind, Option.bind_some]
    split
    · cases int (r.HP - atkl) <;> rfl
    · rfl

/-- One order of attacks is the other one, seen from the other side. -/
theorem rightAttackInt_swap (atkl atkr : ℤ) (l r : Status) :
    rightAttackInt atkr atkl r l = (leftAttackInt atkl atkr l r).map Prod.swap := by
  have h := leftAttackInt_swap atkr atkl r l
  rw [h, Option.map_map, Prod.swap_swap_eq, Option.map_id, id]

/-- **A round does not depend on the sides**: who attacks first is decided by hit points and
    numbers, and the numbers are different. -/
theorem attackInt_swap (hid : l.real_player_id ≠ r.real_player_id) :
    attackInt battle r l = (attackInt battle l r).map Prod.swap := by
  unfold attackInt
  dsimp only
  cases atkInt battle { r with current_battle_id := battle.id } with
  | none => cases atkInt battle { l with current_battle_id := battle.id } <;> rfl
  | some atkr =>
    cases atkInt battle { l with current_battle_id := battle.id } with
    | none => rfl
    | some atkl =>
      have hflagged (x : Option (Status × Status)) :
          flagged <$> x.map Prod.swap = (flagged <$> x).map Prod.swap := by
        cases x with
        | none => rfl
        | some p => exact congrArg some (flagged_swap p)
      simp only [Option.bind_eq_bind, Option.bind_some, ← hflagged]
      congr 1
      -- who strikes first: the one with less HP, then the one with the smaller id
      rcases Int.lt_trichotomy l.HP r.HP with hlt | heq | hgt
      · rw [if_pos hlt, if_neg (by omega), if_neg (by omega)]
        exact rightAttackInt_swap ..
      · have hnlt : ¬ l.HP < r.HP := by omega
        have hngt : ¬ r.HP < l.HP := by omega
        rw [if_neg hnlt, if_pos heq, if_neg hngt, if_pos heq.symm]
        rcases Int.lt_or_gt_of_ne hid with hlt | hgt
        · rw [if_pos hlt, if_neg (show ¬ r.real_player_id < l.real_player_id by omega)]
          exact rightAttackInt_swap ..
        · rw [if_neg (show ¬ l.real_player_id < r.real_player_id by omega), if_pos hgt]
          exact leftAttackInt_swap ..
      · rw [if_neg (by omega), if_neg (by omega), if_pos hgt]
        exact leftAttackInt_swap ..

/-- The two statuses `p` have the numbers of `l` and `r`. -/
def SameNumbers (l r : Status) (p : Status × Status) : Prop :=
  p.1.real_player_id = l.real_player_id ∧ p.2.real_player_id = r.real_player_id

/-- The flags are none of the numbers. -/
theorem sameNumbers_flagged {p : Status × Status} (h : SameNumbers l r p) :
    SameNumbers l r (flagged p) := by
  unfold flagged
  split
  · exact ⟨h.1, h.2⟩
  · exact h

/-- An attack changes hit points only. -/
theorem rightAttackInt_numbers {p : Status × Status} (h : rightAttackInt atkl atkr l r = some p) :
    SameNumbers l r p := by
  simp only [rightAttackInt, Option.bind_eq_bind, Option.bind_eq_some_iff] at h
  obtain ⟨hpl, -, h⟩ := h
  split at h
  · simp only [Option.bind_eq_some_iff] at h
    obtain ⟨hpr, -, h⟩ := h
    cases h
    exact ⟨rfl, rfl⟩
  · cases h
    exact ⟨rfl, rfl⟩

/-- In either order. -/
theorem leftAttackInt_numbers {p : Status × Status} (h : leftAttackInt atkl atkr l r = some p) :
    SameNumbers l r p := by
  rw [leftAttackInt_swap, Option.map_eq_some_iff] at h
  obtain ⟨q, hq, rfl⟩ := h
  exact (rightAttackInt_numbers hq).symm

/-- A round keeps the numbers of the players. -/
theorem attackInt_numbers {p : Status × Status} (h : attackInt battle l r = some p) :
    SameNumbers l r p := by
  simp only [attackInt, Option.bind_eq_bind, Option.bind_eq_some_iff] at h
  obtain ⟨atkr, -, atkl, -, h⟩ := h
  obtain ⟨q, hq, rfl⟩ := Option.map_eq_some_iff.mp h
  apply sameNumbers_flagged (l := l) (r := r)
  split_ifs at hq
  · have hq' := rightAttackInt_numbers hq
    exact hq'
  · have hq' := rightAttackInt_numbers hq
    exact hq'
  · have hq' := leftAttackInt_numbers hq
    exact hq'
  · have hq' := leftAttackInt_numbers hq
    exact hq'

/-- The loop does not depend on the sides. -/
theorem battleLoop_swap (hid : l.real_player_id ≠ r.real_player_id) (n : ℕ) :
    battleLoop battle n r l = (battleLoop battle n l r).map (List.map Prod.swap) := by
  induction n generalizing l r with
  | zero => rfl
  | succ n ih =>
    -- a status is offered unchanged or not at all
    have hoffer (s t : Status) (h : offer s = some t) : t = s := by
      unfold offer at h
      split at h
      · cases h
        rfl
      · cases h
    rw [battleLoop, battleLoop]
    cases hl : offer l with
    | none => cases offer r <;> rfl
    | some l' =>
      obtain rfl := hoffer l l' hl
      cases hr : offer r with
      | none => rfl
      | some r' =>
        obtain rfl := hoffer r r' hr
        simp only [Option.bind_eq_bind, Option.bind_some, attackInt_swap hid]
        cases hround : attackInt battle l' r' with
        | none => rfl
        | some p =>
          obtain ⟨hidl, hidr⟩ := attackInt_numbers hround
          simp only [Option.map_some, Option.bind_some, Prod.fst_swap, Prod.snd_swap,
            ended_swap p.1 p.2]
          split
          · rfl
          · rw [ih (by rw [hidl, hidr]; exact hid)]
            cases battleLoop battle n p.1 p.2 <;> rfl

/-- **A battle is fair to sides.**  With the two players exchanged, the loop takes as many rounds,
    and in each round it writes back the same two statuses, exchanged; and it comes to an end. -/
theorem battle_fair (battle : Battle) (hid : l.real_player_id ≠ r.real_player_id)
    (hl : Fighter l) (hr : Fighter r) :
    (∀ n, battleLoop battle n r l = (battleLoop battle n l r).map (List.map Prod.swap)) ∧
      (l.battle_ended_flag = 0 → r.battle_ended_flag = 0 → ∃ rounds,
        battleLoop battle (l.HP + r.HP).toNat l r = some rounds ∧
        battleLoop battle (l.HP + r.HP).toNat r l = some (rounds.map Prod.swap)) := by
  refine ⟨battleLoop_swap hid, fun hflagl hflagr => ?_⟩
  obtain ⟨earlier, hloop, -, -⟩ := battleLoop_eq battle (n := (l.HP + r.HP).toNat) hl hr
    hflagl hflagr (by omega)
  refine ⟨_, hloop, ?_⟩
  rw [battleLoop_swap hid, hloop]
  rfl

/-- Battle `G` of `player_status.txt`, with its players exchanged. -/
theorem battle_fair_sample :
    ∃ rounds, battleLoop .G 15 (realStatus sampleRows 0) (realStatus sampleRows 1) = some rounds ∧
      battleLoop .G 15 (realStatus sampleRows 1) (realStatus sampleRows 0) =
        some (rounds.map Prod.swap) :=
  (battle_fair .G (l := realStatus sampleRows 0) (r := realStatus sampleRows 1)
    (by decide) ⟨by decide, by decide⟩ ⟨by decide, by decide⟩).2 rfl rfl

end SystemProgramming.Championship
