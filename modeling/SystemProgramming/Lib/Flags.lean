import SystemProgramming.Lib.Network

namespace SystemProgramming.Network

open Transition

/-!
# What flags tell

A flag that has been raised stays raised.  So a process knows for good what it has waited for, and
a flag that only one process raises tells something about this process.

* `Knows` / `Knows.reachable` — the flags that a process has waited for, by its local state;
* `Announces` / `Announces.reachable` — what a raised flag says about the process that raises it.
-/

variable {P C F G M E L : Type*} [DecidableEq P] [DecidableEq C] [DecidableEq F] [DecidableEq G]
variable {program : P → L → Action C F G M E L} {s s' : State P C F G M E L} {p : P} {f : F}

omit [DecidableEq P] in
/-- Flags change by `raise` alone. -/
theorem effect_flag {a : Action C F G M E L} {x y : Shared C F G M E} {l : L}
    (h : a.effect x = some (y, l)) :
    -- `raise` is the one action that writes a flag
    y.flag = x.flag ∨ ∃ f, a = .raise f l ∧ y.flag = Function.update x.flag f true := by
  cases a with
  | raise f l' =>
    cases h
    exact .inr ⟨f, rfl, rfl⟩
  | send c m l' | write g e l' =>
    cases h
    exact .inl rfl
  | recv c k =>
    obtain ⟨m, ms, -, rfl, rfl⟩ := effect_recv.mp h
    exact .inl rfl
  | await f l' =>
    obtain ⟨-, rfl, rfl⟩ := effect_await.mp h
    exact .inl rfl
  | halt => cases h

/-- A flag that has been raised stays raised. -/
theorem flag_step (h : step program s p = some s') (hf : s.flag f = true) : s'.flag f = true := by
  obtain ⟨x, l, hx, rfl⟩ := step_eq_some.mp h
  rcases effect_flag hx with heq | ⟨g, -, heq⟩
  · show x.flag f = true
    rw [heq]
    exact hf
  · show x.flag f = true
    rw [heq]
    by_cases hfg : f = g
    · subst hfg
      exact Function.update_self ..
    · exact (Function.update_of_ne hfg ..).trans hf

/-- A process in a local state with `K` has waited for `f`. -/
def Knows (program : P → L → Action C F G M E L) (p : P) (f : F) (K : L → Prop) : Prop :=
  ∀ l l', (program p l).LeadsTo l' → K l' → K l ∨ program p l = .await f l'

theorem Knows.reachable {K : L → Prop} (h : Knows program p f K)
    (hs : K (s.loc p) → s.flag f = true) (hreach : Reachable (step program) s s')
    (hK : K (s'.loc p)) : s'.flag f = true := by
  -- an action leads to `K` from `K`, or it is the `await` that saw the flag
  refine hreach.invariant (I := fun s => K (s.loc p) → s.flag f = true) ?_ hs hK
  intro s q s' hI hstep hK
  by_cases hq : p = q
  · subst hq
    obtain ⟨x, l, hx, rfl⟩ := step_eq_some.mp hstep
    simp only [Function.update_self] at hK
    rcases h _ _ (Action.leadsTo_of_effect hx) hK with hbefore | hawait
    · exact flag_step hstep (hI hbefore)
    · rw [hawait] at hx
      obtain ⟨hf, rfl, -⟩ := effect_await.mp hx
      exact hf
  · obtain ⟨x, l, hx, rfl⟩ := step_eq_some.mp hstep
    simp only [Function.update_of_ne hq] at hK
    exact flag_step hstep (hI hK)

/-- The flag `f` is raised by `p` alone, which is at `K` from then on. -/
structure Announces (program : P → L → Action C F G M E L) (p : P) (f : F) (K : L → Prop) :
    Prop where
  stable : Stable program p K
  raises : ∀ q l l', program q l = .raise f l' → q = p ∧ K l'

theorem Announces.reachable {K : L → Prop} (h : Announces program p f K)
    (hs : s.flag f = true → K (s.loc p)) (hreach : Reachable (step program) s s')
    (hf : s'.flag f = true) : K (s'.loc p) := by
  refine hreach.invariant (I := fun s => s.flag f = true → K (s.loc p)) ?_ hs hf
  intro s q s' hI hstep hf
  by_cases hbefore : s.flag f = true
  · exact h.stable.step hstep (hI hbefore)
  · obtain ⟨x, l, hx, rfl⟩ := step_eq_some.mp hstep
    -- the flag was just raised, and only `p` raises it
    rcases effect_flag hx with heq | ⟨g, hraise, heq⟩
    · exact absurd ((congrFun heq f).symm.trans hf) hbefore
    · by_cases hfg : f = g
      · subst hfg
        obtain ⟨rfl, hK⟩ := h.raises q _ _ hraise
        simp only [Function.update_self]
        exact hK
      · exact absurd ((Function.update_of_ne hfg ..).symm.trans ((congrFun heq f).symm.trans hf))
          hbefore

end SystemProgramming.Network
