import Mathlib.Algebra.Order.Ring.Int
import Mathlib.Data.Fintype.Basic
import Mathlib.Tactic.SplitIfs

namespace SystemProgramming.Championship

/-!
# Championship — one round of a battle

The `Status` that the processes send to each other, and what a battle does with the two it has read
before it writes them back.  `int` is `ℤ`: with `HP` and `ATK` below `2 ^ 30` nothing overflows.

* `attack` — the body of the battle loop between reading and writing;
* `attack_spec` — a round either ends the battle with exactly one loser or leaves both alive.
-/

/-- The attribute of a player, and of the ground of a battle. -/
inductive Attribute
  | FIRE
  | GRASS
  | WATER
  deriving DecidableEq, Repr

/-- `Status` -/
structure Status where
  real_player_id : ℤ
  HP : ℤ
  ATK : ℤ
  attr : Attribute
  current_battle_id : Char
  battle_ended_flag : ℤ
  deriving DecidableEq, Repr

/-- The battles. -/
inductive Battle
  | A | B | C | D | E | F | G | H | I | J | K | L | M | N
  deriving DecidableEq, Repr

instance : Fintype Battle :=
  Fintype.ofList [.A, .B, .C, .D, .E, .F, .G, .H, .I, .J, .K, .L, .M, .N] fun b => by
    cases b <;> decide

/-- `*battle` -/
def Battle.id : Battle → Char
  | A => 'A'
  | B => 'B'
  | C => 'C'
  | D => 'D'
  | E => 'E'
  | F => 'F'
  | G => 'G'
  | H => 'H'
  | I => 'I'
  | J => 'J'
  | K => 'K'
  | L => 'L'
  | M => 'M'
  | N => 'N'

/-- The attribute that is doubled in a battle. -/
def boosts : Attribute → Battle → Bool
  | .FIRE, .A | .FIRE, .G | .FIRE, .E | .FIRE, .M | .FIRE, .F => true
  | .GRASS, .B | .GRASS, .H | .GRASS, .J | .GRASS, .K | .GRASS, .L => true
  | .WATER, .D | .WATER, .I | .WATER, .C | .WATER, .N => true
  | _, _ => false

/-- `atkl` and `atkr` -/
def atk (battle : Battle) (s : Status) : ℤ := if boosts s.attr battle then s.ATK * 2 else s.ATK

/-- The right player attacks first. -/
def rightAttack (atkl atkr : ℤ) (left right : Status) : Status × Status :=
  let left := { left with HP := left.HP - atkr }
  if left.HP > 0 then (left, { right with HP := right.HP - atkl }) else (left, right)

/-- The left player attacks first. -/
def leftAttack (atkl atkr : ℤ) (left right : Status) : Status × Status :=
  let right := { right with HP := right.HP - atkl }
  if right.HP > 0 then ({ left with HP := left.HP - atkr }, right) else (left, right)

/-- The test for the end of the battle. -/
def ended (left right : Status) : Bool := right.HP ≤ 0 || left.HP ≤ 0

/-- The end flag on both, when the battle is over. -/
def flagged (p : Status × Status) : Status × Status :=
  if ended p.1 p.2 then
    ({ p.1 with battle_ended_flag := 1 }, { p.2 with battle_ended_flag := 1 })
  else
    p

/-- One round: what the battle makes of the two statuses it has read. -/
def attack (battle : Battle) (left right : Status) : Status × Status :=
  let left := { left with current_battle_id := battle.id }
  let right := { right with current_battle_id := battle.id }
  let atkr := atk battle right
  let atkl := atk battle left
  flagged (
    if right.HP < left.HP then rightAttack atkl atkr left right
    else if right.HP = left.HP then
      if right.real_player_id < left.real_player_id then rightAttack atkl atkr left right
      else leftAttack atkl atkr left right
    else leftAttack atkl atkr left right)

/-! ### What a round does -/

/-- What stays with a player: its number, its attack power and its attribute. -/
structure Status.SamePlayer (s t : Status) : Prop where
  real_player_id : t.real_player_id = s.real_player_id
  ATK : t.ATK = s.ATK
  attr : t.attr = s.attr

/-- A player that can start a round. -/
structure Status.Alive (s : Status) : Prop where
  HP : 1 ≤ s.HP
  ATK : 1 ≤ s.ATK

/-- What a round makes of a player. -/
structure Attacked (battle : Battle) (s s' : Status) : Prop extends s.SamePlayer s' where
  battle_id : s'.current_battle_id = battle.id
  le : s'.HP ≤ s.HP

/-- There is exactly one loser. -/
def OneLoser (left right : Status) : Prop :=
  (left.HP ≤ 0 ∧ 1 ≤ right.HP) ∨ (right.HP ≤ 0 ∧ 1 ≤ left.HP)

variable {battle : Battle} {l r l' r' : Status}

theorem atk_pos (h : l.Alive) : 1 ≤ atk battle l := by
  have hatk := h.ATK
  unfold atk
  split <;> omega

theorem ended_iff : ended l r = true ↔ r.HP ≤ 0 ∨ l.HP ≤ 0 := by
  simp [ended]

/-- The exchange of blows, before the flags are set. -/
structure Blows (battle : Battle) (l r l' r' : Status) : Prop where
  left : Attacked battle l l'
  right : Attacked battle r r'
  leftFlag : l'.battle_ended_flag = l.battle_ended_flag
  rightFlag : r'.battle_ended_flag = r.battle_ended_flag
  oneLoser : ended l' r' = true → OneLoser l' r'
  decrease : l'.HP + r'.HP < l.HP + r.HP

theorem rightAttack_blows (hl : l.Alive) (hr : r.Alive) :
    Blows battle l r (rightAttack (atk battle l) (atk battle r)
        { l with current_battle_id := battle.id } { r with current_battle_id := battle.id }).1
      (rightAttack (atk battle l) (atk battle r)
        { l with current_battle_id := battle.id } { r with current_battle_id := battle.id }).2 := by
  have hatkl : 1 ≤ atk battle l := atk_pos hl
  have hatkr : 1 ≤ atk battle r := atk_pos hr
  have hhp := hr.HP
  unfold rightAttack
  dsimp only
  split
  · refine ⟨⟨⟨rfl, rfl, rfl⟩, rfl, ?_⟩, ⟨⟨rfl, rfl, rfl⟩, rfl, ?_⟩, rfl, rfl, fun h => ?_, ?_⟩ <;>
      simp only [ended_iff, OneLoser] at * <;> omega
  · refine ⟨⟨⟨rfl, rfl, rfl⟩, rfl, ?_⟩, ⟨⟨rfl, rfl, rfl⟩, rfl, le_rfl⟩, rfl, rfl, fun h => ?_, ?_⟩ <;>
      simp only [ended_iff, OneLoser] at * <;> omega

theorem leftAttack_blows (hl : l.Alive) (hr : r.Alive) :
    Blows battle l r (leftAttack (atk battle l) (atk battle r)
        { l with current_battle_id := battle.id } { r with current_battle_id := battle.id }).1
      (leftAttack (atk battle l) (atk battle r)
        { l with current_battle_id := battle.id } { r with current_battle_id := battle.id }).2 := by
  have hatkl : 1 ≤ atk battle l := atk_pos hl
  have hatkr : 1 ≤ atk battle r := atk_pos hr
  have hhp := hl.HP
  unfold leftAttack
  dsimp only
  split
  · refine ⟨⟨⟨rfl, rfl, rfl⟩, rfl, ?_⟩, ⟨⟨rfl, rfl, rfl⟩, rfl, ?_⟩, rfl, rfl, fun h => ?_, ?_⟩ <;>
      simp only [ended_iff, OneLoser] at * <;> omega
  · refine ⟨⟨⟨rfl, rfl, rfl⟩, rfl, le_rfl⟩, ⟨⟨rfl, rfl, rfl⟩, rfl, ?_⟩, rfl, rfl, fun h => ?_, ?_⟩ <;>
      simp only [ended_iff, OneLoser] at * <;> omega

/-- What a round makes of two players that can start it. -/
structure RoundOf (battle : Battle) (l r l' r' : Status) : Prop where
  left : Attacked battle l l'
  right : Attacked battle r r'
  atEnd : ended l' r' = true →
    OneLoser l' r' ∧ l'.battle_ended_flag = 1 ∧ r'.battle_ended_flag = 1
  goes_on : ended l' r' = false → l'.Alive ∧ r'.Alive ∧
    l'.battle_ended_flag = l.battle_ended_flag ∧ r'.battle_ended_flag = r.battle_ended_flag
  decrease : l'.HP + r'.HP < l.HP + r.HP

/-- Setting the flag is not part of the attack. -/
theorem Attacked.setFlag (h : Attacked battle l l') (flag : ℤ) :
    Attacked battle l { l' with battle_ended_flag := flag } :=
  ⟨⟨h.real_player_id, h.ATK, h.attr⟩, h.battle_id, h.le⟩

theorem Blows.flagged (hl : l.Alive) (hr : r.Alive) (h : Blows battle l r l' r') :
    RoundOf battle l r (Championship.flagged (l', r')).1 (Championship.flagged (l', r')).2 := by
  unfold Championship.flagged
  dsimp only
  by_cases hend : ended l' r' = true
  · rw [if_pos hend]
    refine ⟨h.left.setFlag 1, h.right.setFlag 1, fun _ => ⟨h.oneLoser hend, rfl, rfl⟩, fun hgo => ?_,
      h.decrease⟩
    exact absurd (hend.symm.trans hgo) (by decide)
  · rw [if_neg hend]
    refine ⟨h.left, h.right, fun hover => absurd hover hend, fun _ => ?_, h.decrease⟩
    rw [ended_iff, not_or, Int.not_le, Int.not_le] at hend
    obtain ⟨hright, hleft⟩ := hend
    exact ⟨⟨hleft, h.left.ATK.symm ▸ hl.ATK⟩, ⟨hright, h.right.ATK.symm ▸ hr.ATK⟩, h.leftFlag,
      h.rightFlag⟩

/-- **A round.**  Each player keeps its number, attack power and attribute; the round either ends
    the battle with exactly one loser and both flags set, or leaves both alive with less to lose. -/
theorem attack_spec (battle : Battle) (hl : l.Alive) (hr : r.Alive) :
    RoundOf battle l r (attack battle l r).1 (attack battle l r).2 := by
  unfold attack
  dsimp only
  have hl' : atk battle { l with current_battle_id := battle.id } = atk battle l := rfl
  have hr' : atk battle { r with current_battle_id := battle.id } = atk battle r := rfl
  rw [hl', hr']
  split_ifs
  · exact (rightAttack_blows hl hr).flagged hl hr
  · exact (rightAttack_blows hl hr).flagged hl hr
  · exact (leftAttack_blows hl hr).flagged hl hr
  · exact (leftAttack_blows hl hr).flagged hl hr

end SystemProgramming.Championship
