import SystemProgramming.Championship.Bracket
import SystemProgramming.Lib.Knockout

namespace SystemProgramming.Championship

open Knockout

/-!
# Championship — the bracket as two knockout tournaments

The upper bracket is a knockout of the eight real players, and the lower bracket is a knockout of
the seven losers of the upper one.  The last battle is between the two who are left.

* `ident_battle` / `ident_agent` — the winner of a battle, and its loser, under their numbers;
* `upper_perm` / `lower_perm` — who has lost in the two brackets;
* `ident_child_ne` — nobody plays against himself;
* `count_losses` — how often a real player loses.
-/

variable {rows : Fin 8 → Row} {a a' : Fin 15} {b : Battle} {c : Proc} {i : Fin 15}

/-- The number of the player who loses a battle. -/
def loserIdent (rows : Fin 8 → Row) (b : Battle) : ℤ :=
  ident rows (child b (winnerSide rows b).other)

theorem ident_real (h : i.val < 8) : ident rows (.player i) = i.val := by
  rw [ident, value_real h]
  rfl

theorem ident_battle (hrows : Valid rows) (b : Battle) :
    ident rows (.battle b) = ident rows (child b (winnerSide rows b)) := by
  have hends := outcome_ends hrows b
  rw [ident, value_battle, hends.winner, ident, ← (hends.attacked _).real_player_id]
  rfl

theorem ident_agent (hrows : Valid rows) (h : source a = some b) :
    ident rows (.player a) = loserIdent rows b := by
  have hends := outcome_ends hrows b
  rw [ident, value_agent h, hends.loser, loserIdent, ident, ← (hends.attacked _).real_player_id]
  rfl

/-! ### The two brackets -/

/-- The bracket `t` is what the tables have below `c`. -/
def Fits : Tree Battle (Fin 15) → Proc → Prop
  | .leaf i, c => c = .player i
  | .node b left right, c => c = .battle b ∧ Fits left (playl b) ∧ Fits right (playr b)

theorem Fits.played (hrows : Valid rows) {t : Tree Battle (Fin 15)} (h : Fits t c) :
    Played (fun b => ident rows (.battle b)) (loserIdent rows) (fun i => ident rows (.player i)) t
      (ident rows c) := by
  induction t generalizing c with
  | leaf i =>
    obtain rfl : c = .player i := h
    exact .leaf i
  | node b left right ihl ihr =>
    obtain ⟨rfl, hleft, hright⟩ := h
    have hl := ihl hleft
    have hr := ihr hright
    -- the winner goes on with its own subtree, the loser is what the other subtree leaves
    have hwinner := ident_battle hrows b
    cases hw : winnerSide rows b with
    | left =>
      have hloser : loserIdent rows b = ident rows (playr b) := by
        rw [loserIdent, hw]
        rfl
      rw [hw] at hwinner
      exact .left (by rw [hwinner]; exact hl) (by rw [hloser]; exact hr)
    | right =>
      have hloser : loserIdent rows b = ident rows (playl b) := by
        rw [loserIdent, hw]
        rfl
      rw [hw] at hwinner
      exact .right (by rw [hloser]; exact hl) (by rw [hwinner]; exact hr)

/-- The bracket of the real players. -/
def upper : Tree Battle (Fin 15) :=
  .node .B (.node .D (.node .G (.leaf 0) (.leaf 1)) (.node .H (.leaf 2) (.leaf 3)))
    (.node .E (.node .I (.leaf 4) (.leaf 5)) (.node .J (.leaf 6) (.leaf 7)))

/-- The bracket of the agents. -/
def lower : Tree Battle (Fin 15) :=
  .node .C (.node .F (.node .K (.node .M (.leaf 8) (.leaf 9)) (.leaf 10))
    (.node .L (.node .N (.leaf 11) (.leaf 12)) (.leaf 13))) (.leaf 14)

theorem fits_upper : Fits upper (.battle .B) := by simp [Fits, upper, playl, playr]

theorem fits_lower : Fits lower (.battle .C) := by simp [Fits, lower, playl, playr]

/-- The numbers of the real players. -/
def reals : List ℤ := [0, 1, 2, 3, 4, 5, 6, 7]

/-- The battles of the upper bracket. -/
def upperBattles : List Battle := [.B, .D, .G, .H, .E, .I, .J]

/-- The battles of the lower bracket. -/
def lowerBattles : List Battle := [.C, .F, .K, .M, .L, .N]

/-- In the upper bracket every real player but one loses exactly once. -/
theorem upper_perm (hrows : Valid rows) :
    reals.Perm (ident rows (.battle .B) :: upperBattles.map (loserIdent rows)) := by
  have hleaves : upper.leaves.map (fun i => ident rows (.player i)) = reals := by
    simp [upper, Tree.leaves, ident_real, reals]
  rw [← hleaves]
  exact (fits_upper.played hrows).perm

/-- The agents stand for the losers of the upper bracket. -/
theorem lower_leaves (hrows : Valid rows) :
    (lower.leaves.map fun i => ident rows (.player i)).Perm
      (upperBattles.map (loserIdent rows)) := by
  have hleaves : lower.leaves.map (fun i => ident rows (.player i)) =
      [Battle.G, .I, .D, .H, .J, .E, .B].map (loserIdent rows) := by
    simp [lower, Tree.leaves, ident_agent hrows (a := 8) (b := .G) rfl,
      ident_agent hrows (a := 9) (b := .I) rfl, ident_agent hrows (a := 10) (b := .D) rfl,
      ident_agent hrows (a := 11) (b := .H) rfl, ident_agent hrows (a := 12) (b := .J) rfl,
      ident_agent hrows (a := 13) (b := .E) rfl, ident_agent hrows (a := 14) (b := .B) rfl]
  rw [hleaves]
  have hperm : [Battle.G, .I, .D, .H, .J, .E, .B].Perm upperBattles := by decide
  exact hperm.map _

/-- In the lower bracket every loser of the upper one but one loses once more. -/
theorem lower_perm (hrows : Valid rows) :
    (upperBattles.map (loserIdent rows)).Perm
      (ident rows (.battle .C) :: lowerBattles.map (loserIdent rows)) :=
  (lower_leaves hrows).symm.trans (fits_lower.played hrows).perm

theorem upper_nodup (hrows : Valid rows) :
    (ident rows (.battle .B) :: upperBattles.map (loserIdent rows)).Nodup :=
  (upper_perm hrows).nodup_iff.mp (by decide)

theorem lower_nodup (hrows : Valid rows) :
    (lower.leaves.map fun i => ident rows (.player i)).Nodup :=
  (lower_leaves hrows).nodup_iff.mpr (upper_nodup hrows).of_cons

/-- Different agents stand for different players. -/
theorem agent_inj (hrows : Valid rows) (ha : ¬ a.val < 8) (ha' : ¬ a'.val < 8)
    (h : ident rows (.player a) = ident rows (.player a')) : a = a' := by
  have hmem : ∀ a : Fin 15, ¬ a.val < 8 → a ∈ lower.leaves := by decide
  exact List.inj_on_of_nodup_map (lower_nodup hrows) (hmem a ha) (hmem a' ha') h

/-! ### The participants of a battle -/

/-- Winner and loser of a battle are its two participants. -/
theorem ident_ne_of_loser (hrows : Valid rows)
    (h : ident rows (.battle b) ≠ loserIdent rows b) :
    ident rows (playl b) ≠ ident rows (playr b) := by
  intro heq
  apply h
  rw [ident_battle hrows b, loserIdent]
  cases winnerSide rows b
  · exact heq
  · exact heq.symm

/-- **Nobody plays against himself.** -/
theorem ident_child_ne (hrows : Valid rows) (b : Battle) :
    ident rows (playl b) ≠ ident rows (playr b) := by
  have hbattles : ∀ b : Battle, b = .A ∨ b ∈ upper.nodes ∨ b ∈ lower.nodes := by decide
  rcases hbattles b with rfl | hb | hb
  · -- the winner of the lower bracket has lost in the upper one
    intro heq
    have hmem : ident rows (.battle .C) ∈ upperBattles.map (loserIdent rows) :=
      (lower_perm hrows).mem_iff.mpr List.mem_cons_self
    have hnot := (List.nodup_cons.mp (upper_nodup hrows)).1
    rw [show ident rows (.battle .B) = ident rows (.battle .C) from heq] at hnot
    exact hnot hmem
  · have hnodup : (upper.leaves.map fun i => ident rows (.player i)).Nodup :=
      (fits_upper.played hrows).perm.nodup_iff.mpr (upper_nodup hrows)
    exact ident_ne_of_loser hrows ((fits_upper.played hrows).ne hnodup hb)
  · exact ident_ne_of_loser hrows ((fits_lower.played hrows).ne (lower_nodup hrows) hb)

/-! ### How often a player loses -/

/-- All battles. -/
def battles : List Battle := .A :: upperBattles ++ lowerBattles

example : battles.Nodup ∧ ∀ b, b ∈ battles := by decide

/-- **How often a real player loses**: once in the upper bracket if it does not win it, once in the
    lower bracket if it comes there and does not win it, and perhaps in the last battle. -/
theorem count_losses (hrows : Valid rows) {x : ℤ} (hx : x ∈ reals) :
    ((battles.map (loserIdent rows)).count x + (if ident rows (.battle .B) = x then 2 else 0) +
      if ident rows (.battle .C) = x then 1 else 0) =
        2 + if loserIdent rows .A = x then 1 else 0 := by
  -- every real player is a leaf of the upper tree once, and the lower tree takes over its losers
  have hone : reals.count x = 1 := List.count_eq_one_of_mem (by decide) hx
  have hupper := (upper_perm hrows).count_eq x
  have hlower := (lower_perm hrows).count_eq x
  have hall : (battles.map (loserIdent rows)).count x =
      (if loserIdent rows .A = x then 1 else 0) + (upperBattles.map (loserIdent rows)).count x +
        (lowerBattles.map (loserIdent rows)).count x := by
    rw [battles, List.cons_append, List.map_cons, List.map_append, List.count_cons,
      List.count_append]
    simp only [beq_iff_eq]
    omega
  rw [List.count_cons] at hupper hlower
  simp only [beq_iff_eq] at hupper hlower
  rw [hall]
  split_ifs at * <;> omega

end SystemProgramming.Championship
