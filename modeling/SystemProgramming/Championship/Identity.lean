import SystemProgramming.Championship.Traffic

namespace SystemProgramming.Championship

open Network Transition

/-!
# Championship — where each real player is

In a state from which the end is reached, the sides that have won and the log files of the agents
are already those of the sequential double elimination.  So every status carries the number that the
bracket has for its place.

* `pending_ident` — what a child waits for;
* `held_ident` — what a battle has for its child.
-/

variable {rows : Fin 8 → Row} {s t : Tournament} {b : Battle} {side w : Side} {i : Fin 15}
variable {q : Proc} {m P : Status}

section Reach

variable (ht : Final rows t) (hreach : Reachable (step (program rows)) s t)
include ht hreach

/-- A battle that is over has been won by the side that the recursion gives. -/
theorem won_side (h : Won w (s.loc (.battle b))) : w = winnerSide rows b := by
  obtain ⟨pc, left, right, hloc, hpc⟩ := (stable_won rows b w).reachable hreach h
  obtain ⟨pc', left', right', hloc', hpc'⟩ := (ht.result b).won
  rw [hloc] at hloc'
  cases hloc'
  exact Option.some.inj (hpc.symm.trans hpc')

/-- **What a child waits for** has the number of the player who comes out of it. -/
theorem pending_ident (hrows : Valid rows) (h : Traffic rows s)
    (hpending : (s.loc q).pending = some P) : P.real_player_id = ident rows q := by
  -- a request goes up battle by battle to the player who sent it, so the induction is on the rank
  generalize hn : rank q = n
  induction n using Nat.strong_induction_on generalizing q P with
  | _ n ih =>
    have hok := h.ok q
    cases q with
    | player i =>
      cases hloc : s.loc (.player i) with
      | battle pc left right =>
        rw [hloc] at hok
        exact hok.elim
      | player pc P' hp logp =>
        rw [hloc] at hpending hok
        cases pc with
        | receive =>
          -- the player who waits for the reply is at the source of the request
          cases hpending
          obtain ⟨j, hj, -, -, hlogp⟩ := hok.of rfl
          rw [hj.real_player_id, ← hlogp]
          exact logp_eq ht h.sound hreach ⟨_, _, _, hloc, rfl⟩
        | _ => cases hpending
    | battle b =>
      cases hloc : s.loc (.battle b) with
      | player pc P' hp logp =>
        rw [hloc] at hok
        exact hok.elim
      | battle pc left right =>
        rw [hloc] at hpending
        cases pc with
        | readParent w =>
          -- the battle has passed on the request of its winning child, which is still waiting below
          cases hpending
          have hside := won_side ht hreach ⟨_, _, _, hloc, rfl⟩
          have hheld : (s.loc (.battle b)).held w = .request (pick w left right) := by
            rw [hloc]
            simp [Local.held, BattlePc.held]
          obtain ⟨hchild, -⟩ := (h.edge b w).of_request hheld
          have hlt := rank_lt_of_parentOf _ _ (parentOf_child b w)
          rw [ident_battle hrows b, ← hside]
          exact ih _ (by omega) hchild rfl
        | _ => cases hpending

/-- **What a battle has for its child** has the number of the player who comes out of the child. -/
theorem held_ident (hrows : Valid rows) (h : Traffic rows s)
    (hheld : (s.loc (.battle b)).held side = .request m ∨
      (s.loc (.battle b)).held side = .reply m) :
    m.real_player_id = ident rows (child b side) := by
  rcases hheld with hheld | hheld
  · obtain ⟨hpending, -⟩ := (h.edge b side).of_request hheld
    exact pending_ident ht hreach hrows h hpending
  · obtain ⟨⟨P, hpending, hreturned⟩, -⟩ := (h.edge b side).of_reply hheld
    exact hreturned.real_player_id.trans (pending_ident ht hreach hrows h hpending)

end Reach

end SystemProgramming.Championship
