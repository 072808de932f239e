import Mathlib.Order.Basic

namespace SystemProgramming.Ancestor

/-!
# Trees given by parent pointers

`up q` is the parent of `q`, if it has one; `Below up c q` says that `q` is in the tree under `c`.

* `Below.trans` / `Below.cases_child` / `Below.cases_parent` — paths, composed and taken apart;
* `Below.total` — of two nodes above a third one, one is below the other;
* `Below.closed` — what children inherit holds in the whole tree under a node.
-/

variable {P : Type*} {up : P → Option P} {c d q r : P}

/-- `q` is in the tree under `c`. -/
inductive Below (up : P → Option P) (c : P) : P → Prop
  | refl : Below up c c
  | step {q p : P} (hup : up q = some p) (h : Below up c p) : Below up c q

theorem Below.of_up (h : up c = some d) : Below up d c := .step h .refl

theorem Below.trans (h : Below up c d) (h' : Below up d q) : Below up c q := by
  induction h' with
  | refl => exact h
  | step hup _ ih => exact .step hup ih

/-- A path down to another node starts with a child. -/
theorem Below.cases_child (h : Below up c q) : q = c ∨ ∃ d, up d = some c ∧ Below up d q := by
  induction h with
  | refl => exact .inl rfl
  | step hup _ ih =>
    rcases ih with rfl | ⟨d, hd, hbelow⟩
    · exact .inr ⟨_, hup, .refl⟩
    · exact .inr ⟨d, hd, .step hup hbelow⟩

/-- A path up to another node starts with the parent. -/
theorem Below.cases_parent (h : Below up c q) : q = c ∨ ∃ p, up q = some p ∧ Below up c p := by
  cases h with
  | refl => exact .inl rfl
  | step hup h => exact .inr ⟨_, hup, h⟩

/-- Two nodes above a third one are on one line. -/
theorem Below.total (h : Below up c q) (h' : Below up d q) : Below up c d ∨ Below up d c := by
  induction h with
  | refl => exact .inr h'
  | step hup hc ih =>
    cases h' with
    | refl => exact .inl (.step hup hc)
    | step hup' hd =>
      cases Option.some.inj (hup.symm.trans hup')
      exact ih hd

/-- What children inherit holds in the whole tree. -/
theorem Below.closed {S : P → Prop} (hS : ∀ q p, up q = some p → S p → S q) (hc : S c)
    (h : Below up c q) : S q := by
  induction h with
  | refl => exact hc
  | step hup _ ih => exact hS _ _ hup ih

section Rank

variable {rank : P → ℕ} (hrank : ∀ q p, up q = some p → rank q < rank p)
include hrank

/-- The rank falls along a path. -/
theorem Below.rank_le (h : Below up c q) : rank q ≤ rank c := by
  induction h with
  | refl => exact Nat.le_refl _
  | step hup _ ih => exact Nat.le_trans (Nat.le_of_lt (hrank _ _ hup)) ih

/-- A node is not in the tree under its child. -/
theorem Below.not_parent (h : up c = some d) : ¬ Below up c d := fun hd =>
  absurd (hd.rank_le hrank) (Nat.not_le_of_lt (hrank c d h))

/-- The trees under two siblings have no node in common. -/
theorem Below.disjoint {p : P} (hc : up c = some p) (hd : up d = some p) (hne : c ≠ d)
    (h : Below up c q) : ¬ Below up d q := by
  intro h'
  rcases h.total h' with hcd | hdc
  · cases hcd with
    | refl => exact hne rfl
    | step hup hp =>
      cases Option.some.inj (hup.symm.trans hd)
      exact Below.not_parent hrank hc hp
  · cases hdc with
    | refl => exact hne rfl
    | step hup hp =>
      cases Option.some.inj (hup.symm.trans hc)
      exact Below.not_parent hrank hd hp

end Rank

end SystemProgramming.Ancestor
